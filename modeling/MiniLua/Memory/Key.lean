import Std.Data.TreeMap
import MiniLua.Memory.Value

namespace MiniLua

/-- A value under which a table can store. Floats with an integer value count as that integer, and
the other floats by their bits. -/
inductive Key
  | bool (b : Bool)
  | int (i : Int64)
  | float (bits : UInt64)
  | string (handle : Nat)
  | table (handle : Nat)
  | closure (handle : Nat)
  | native (handle : Nat)
deriving DecidableEq

namespace Key

/-- `nil` and NaN are no keys. -/
def ofValue? : Value → Option Key
  | .nil => none
  | .bool b => some (bool b)
  | .int i => some (int i)
  | .float bits =>
    if Binary.isNaN bits then none
    else
      match wholeInt64? bits with
      | some i => some (int i)
      | none => some (float bits)
  | .string h => some (string h)
  | .table h => some (table h)
  | .closure h => some (closure h)
  | .native h => some (native h)

def toValue : Key → Value
  | bool b => .bool b
  | int i => .int i
  | float bits => .float bits
  | string h => .string h
  | table h => .table h
  | closure h => .closure h
  | native h => .native h

/-- The kind of a key and its number within the kind. -/
def rank : Key → Nat × Int
  | bool b => (0, b.toNat)
  | int i => (1, i.toInt)
  | float bits => (2, bits.toNat)
  | string h => (3, h)
  | table h => (4, h)
  | closure h => (5, h)
  | native h => (6, h)

theorem rank_injective {a b : Key} (h : a.rank = b.rank) : a = b := by
  cases a <;> cases b <;> simp_all [rank, Int64.toInt_inj, UInt64.toNat_inj, Int.ofNat_inj]
  case bool.bool a b => cases a <;> cases b <;> simp_all

/-- Kinds in the order of the constructors, then by number. -/
instance : Ord Key := ⟨compareLex (compareOn fun k ↦ k.rank.1) (compareOn fun k ↦ k.rank.2)⟩

instance : Std.TransOrd Key :=
  inferInstanceAs (Std.TransCmp (compareLex (compareOn fun k : Key ↦ k.rank.1)
    (compareOn fun k : Key ↦ k.rank.2)))

instance : Std.LawfulEqOrd Key where
  eq_of_compare {a b} h := by
    have h : (compareOn (fun k : Key ↦ k.rank.1) a b).then
        (compareOn (fun k : Key ↦ k.rank.2) a b) = .eq := h
    rw [Ordering.then_eq_eq] at h
    exact rank_injective (Prod.ext (Std.LawfulEqOrd.eq_of_compare h.1)
      (Std.LawfulEqOrd.eq_of_compare h.2))

end Key

end MiniLua
