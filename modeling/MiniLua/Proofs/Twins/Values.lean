import MiniLua.Machine.Operators
import MiniLua.Proofs.Memory.Interning
import MiniLua.Proofs.Twins.Tables

/-! Values of two heaps that mean the same, and operators that cannot tell them apart. Strings
correspond by their bytes, all other objects by their handles. -/

namespace MiniLua

namespace Heap

/-- The same value in two heaps, for machines with `n` builtins. -/
inductive Matches (n : Nat) (h h' : Heap) : Value → Value → Prop
  | nil : Matches n h h' .nil .nil
  | bool (b : Bool) : Matches n h h' (.bool b) (.bool b)
  | int (i : Int64) : Matches n h h' (.int i) (.int i)
  | float (bits : UInt64) : Matches n h h' (.float bits) (.float bits)
  | string {i j : Nat} {s : Bytes} (hi : h.bytes? i = some s) (hj : h'.bytes? j = some s) :
      Matches n h h' (.string i) (.string j)
  | table {t : Nat} (ht : t < h.tables.size) (ht' : t < h'.tables.size) :
      Matches n h h' (.table t) (.table t)
  | closure {c : Nat} (hc : c < h.closures.size) (hc' : c < h'.closures.size) :
      Matches n h h' (.closure c) (.closure c)
  | native {i : Nat} (hi : i < n) : Matches n h h' (.native i) (.native i)

/-- Handles that are good in `h` are good in `k`. -/
structure Grows (h k : Heap) : Prop where
  bytes {i : Nat} {s : Bytes} : h.bytes? i = some s → k.bytes? i = some s
  tables : h.tables.size ≤ k.tables.size
  closures : h.closures.size ≤ k.closures.size

theorem Grows.refl (h : Heap) : h.Grows h := ⟨id, Nat.le_refl _, Nat.le_refl _⟩

theorem Grows.trans {h k l : Heap} (g : h.Grows k) (g' : k.Grows l) : h.Grows l :=
  ⟨fun hs ↦ g'.bytes (g.bytes hs), Nat.le_trans g.tables g'.tables,
    Nat.le_trans g.closures g'.closures⟩

theorem Grows.intern (h : Heap) (s : Bytes) : h.Grows (h.intern s).2 :=
  ⟨fun hs ↦ StringPool.get?_intern hs s, Nat.le_refl _, Nat.le_refl _⟩

variable {n : Nat} {h h' k k' : Heap} {v v' w w' : Value}

theorem Matches.mono (hvw : h.Matches n h' v w) (g : h.Grows k) (g' : h'.Grows k') :
    k.Matches n k' v w := by
  cases hvw with
  | nil => exact .nil
  | bool b => exact .bool b
  | int i => exact .int i
  | float bits => exact .float bits
  | string hi hj => exact .string (g.bytes hi) (g'.bytes hj)
  | table ht ht' => exact .table (Nat.lt_of_lt_of_le ht g.tables) (Nat.lt_of_lt_of_le ht' g'.tables)
  | closure hc hc' => exact .closure (Nat.lt_of_lt_of_le hc g.closures) (Nat.lt_of_lt_of_le hc' g'.closures)
  | native hi => exact .native hi

/-- What is no handle means the same everywhere. -/
theorem Matches.scalar (hv : v.handle? = none) : h.Matches n h' v v := by
  cases v with
  | nil => exact .nil
  | bool b => exact .bool b
  | int i => exact .int i
  | float bits => exact .float bits
  | string | table | closure | native => cases hv

theorem Matches.table_eq {i j : Nat} (hij : h.Matches n h' (.table i) (.table j)) : j = i := by
  cases hij
  rfl

theorem Matches.closure_eq {i j : Nat} (hij : h.Matches n h' (.closure i) (.closure j)) :
    j = i := by
  cases hij
  rfl

theorem pairing_matches (hs : h.strings.Exact) (hs' : h'.strings.Exact) :
    Pairing (h.Matches n h') where
  nil := .nil
  int := .int
  unique {v w v' w'} hvw hvw' := by
    cases hvw <;> cases hvw' <;> try simp
    next i j s hi hj i' j' s' hi' hj' =>
      constructor
      · rintro rfl
        obtain rfl : s = s' := Option.some.inj (hi.symm.trans hi')
        exact hs'.handle_unique hj hj'
      · rintro rfl
        obtain rfl : s = s' := Option.some.inj (hj.symm.trans hj')
        exact hs.handle_unique hi hi'

namespace Matches

variable (hvw : h.Matches n h' v w)

include hvw

theorem isNil : v.isNil = w.isNil := by cases hvw <;> rfl

theorem isFalsey : v.isFalsey = w.isFalsey := by cases hvw <;> rfl

theorem isTruthy : v.isTruthy = w.isTruthy := by rw [Value.isTruthy, Value.isTruthy, hvw.isFalsey]

theorem isCallable : v.isCallable = w.isCallable := by cases hvw <;> rfl

theorem typeName : v.typeName = w.typeName := by cases hvw <;> rfl

theorem stringOf? : h.stringOf? v = h'.stringOf? w := by
  cases hvw with
  | string hi hj => rw [Heap.stringOf?, Heap.stringOf?, hi, hj]
  | nil | bool | int | float | table | closure | native => rfl

theorem number? : h.number? v = h'.number? w := by
  cases hvw with
  | string hi hj => simp only [Heap.number?, hi, hj]
  | nil | bool | int | float | table | closure | native => rfl

theorem textBytes? : h.textBytes? v = h'.textBytes? w := by
  cases hvw with
  | string hi hj => simp only [Heap.textBytes?, hi, hj]
  | nil | bool | int | float | table | closure | native => rfl

theorem toStringBytes : h.toStringBytes v = h'.toStringBytes w := by
  cases hvw with
  | string hi hj => simp only [Heap.toStringBytes, hi, hj]
  | nil | bool | int | float | table | closure | native => rfl

theorem toText : h.toText v = h'.toText w := by rw [Heap.toText, Heap.toText, hvw.toStringBytes]

theorem key : Option.Rel (fun k k' ↦ h.Matches n h' k.toValue k'.toValue) (Key.ofValue? v)
    (Key.ofValue? w) := by
  cases hvw with
  | nil => exact .none
  | bool b => exact .some (.bool b)
  | int i => exact .some (.int i)
  | float bits =>
    simp only [Key.ofValue?]
    split
    · exact .none
    · split
      · exact .some (.int _)
      · exact .some (.float _)
  | string hi hj => exact .some (.string hi hj)
  | table ht ht' => exact .some (.table ht ht')
  | closure hc hc' => exact .some (.closure hc hc')
  | native hi => exact .some (.native hi)

end Matches

/-- Values in one machine's heap and their partners in another's. -/
structure Twins (n : Nat) (h h' : Heap) : Prop where
  exact : h.strings.Exact
  exact' : h'.strings.Exact
  tables : List.Forall₂ (Table.Twins (h.Matches n h')) h.tables.toList h'.tables.toList
  closures : List.Forall₂ (fun c c' ↦ h.Matches n h' (.table c.env) (.table c'.env))
    h.closures.toList h'.closures.toList

namespace Twins

variable (hh : h.Twins n h')

include hh

theorem pairing : Pairing (h.Matches n h') := pairing_matches hh.exact hh.exact'

theorem table (t : Nat) : Option.Rel (Table.Twins (h.Matches n h')) h.tables[t]? h'.tables[t]? := by
  simpa only [Array.getElem?_toList] using forall₂_getElem? hh.tables t

theorem tables_size : h.tables.size = h'.tables.size := by simpa using hh.tables.length_eq

theorem closures_size : h.closures.size = h'.closures.size := by
  simpa using hh.closures.length_eq

theorem rawGet {t t' key key' : Value} (ht : h.Matches n h' t t') (hkey : h.Matches n h' key key') :
    h.Matches n h' (h.rawGet t key) (h'.rawGet t' key') := by
  cases ht with
  | table ht ht' =>
    exact rel_getD (rel_map (hh.table _) fun _ _ h ↦ h.getValue hh.pairing hkey.key) .nil
  | nil | bool | int | float | string | closure | native => exact .nil

end Twins

end Heap

namespace Operators

open Heap

variable {n : Nat} {h h' : Heap} {a a' b b' : Value}

theorem equal_of_matches (hh : h.Twins n h') (ha : h.Matches n h' a a')
    (hb : h.Matches n h' b b') : a.equal b = a'.equal b' := by
  have hiff := hh.pairing.unique ha hb
  cases ha <;> cases hb <;> simp_all [Value.equal, Value.same]

theorem arith_of_matches (op : Opcode) (ha : h.Matches n h' a a') (hb : h.Matches n h' b b') :
    arith h op a b = arith h' op a' b' := by
  simp only [arith, ha.number?, hb.number?, ha.typeName, hb.typeName]

theorem negate_of_matches (ha : h.Matches n h' a a') : negate h a = negate h' a' := by
  simp only [negate, ha.number?, ha.typeName]

theorem concat_of_matches (ha : h.Matches n h' a a') (hb : h.Matches n h' b b') :
    concat h a b = concat h' a' b' := by
  simp only [concat, ha.textBytes?, hb.textBytes?, ha.typeName, hb.typeName]

theorem length_of_matches (hh : h.Twins n h') (ha : h.Matches n h' a a') :
    length h a = length h' a' := by
  cases ha with
  | string hi hj => simp only [length, hi, hj]
  | @table t ht ht' =>
    have hlength := map_eq_of_rel (hh.table t) fun _ _ h ↦ h.length
    simp only [length, hlength]
  | nil | bool | int | float | closure | native => rfl

theorem ordered_of_matches (onInts : Int64 → Int64 → Bool) (onFloats : Float → Float → Bool)
    (onBytes : Ordering → Bool) (ha : h.Matches n h' a a') (hb : h.Matches n h' b b') :
    ordered h onInts onFloats onBytes a b = ordered h' onInts onFloats onBytes a' b' := by
  cases ha <;> cases hb <;> simp_all [ordered, Value.typeName]

theorem lessThan_of_matches (ha : h.Matches n h' a a') (hb : h.Matches n h' b b') :
    lessThan h a b = lessThan h' a' b' := ordered_of_matches _ _ _ ha hb

theorem lessEqual_of_matches (ha : h.Matches n h' a a') (hb : h.Matches n h' b b') :
    lessEqual h a b = lessEqual h' a' b' := ordered_of_matches _ _ _ ha hb

theorem intOrFloat_of_matches (onInts : Int → Int → Int) (onFloats : Float → Float → Float)
    (ha : h.Matches n h' a a') (hb : h.Matches n h' b b') :
    intOrFloat onInts onFloats a b = intOrFloat onInts onFloats a' b' := by
  cases ha <;> cases hb <;> rfl

theorem handle?_number? {v : Value} (hv : h.number? a = some v) : v.handle? = none := by
  cases a with
  | nil | bool | table | closure | native => cases hv
  | int | float =>
    cases hv
    rfl
  | string s =>
    obtain ⟨text, -, hv⟩ := Option.bind_eq_some_iff.mp hv
    obtain ⟨x, -, rfl⟩ := Option.map_eq_some_iff.mp hv
    cases x <;> rfl

theorem handle?_intOrFloat (onInts : Int → Int → Int) (onFloats : Float → Float → Float) :
    (intOrFloat onInts onFloats a b).handle? = none := by
  unfold intOrFloat
  split
  · split <;> rfl
  · rfl

theorem handle?_onNumbers {op : Opcode} {v : Value} (hv : onNumbers op a b = .ok v) :
    v.handle? = none := by
  unfold onNumbers at hv
  split at hv
  · cases hv
    exact handle?_intOrFloat _ _
  · cases hv
    exact handle?_intOrFloat _ _
  · cases hv
    exact handle?_intOrFloat _ _
  · cases hv
    rfl
  · cases hv
    rfl
  · unfold modulo at hv
    split at hv
    · split at hv
      · cases hv
      · cases hv
        rfl
    · cases hv
      rfl
  · cases hv

theorem handle?_arith {op : Opcode} {v : Value} (hv : arith h op a b = .ok v) :
    v.handle? = none := by
  unfold arith at hv
  split at hv
  · exact handle?_onNumbers hv
  · cases hv
  · cases hv

theorem handle?_negate {v : Value} (hv : negate h a = .ok v) : v.handle? = none := by
  unfold negate at hv
  split at hv
  · split at hv <;> cases hv <;> rfl
  · cases hv
    rfl
  · cases hv

theorem handle?_length {v : Value} (hv : length h a = .ok v) : v.handle? = none := by
  unfold length at hv
  split at hv
  · cases hv
    rfl
  · cases hv
    rfl
  · cases hv

theorem value?_onNumbers {op : Opcode} {e : RuntimeError} (he : onNumbers op a b = .error e) :
    e.value? = none := by
  unfold onNumbers at he
  split at he <;> try cases he <;> rfl
  unfold modulo at he
  split at he
  · split at he
    · cases he
      rfl
    · cases he
  · cases he

theorem value?_arith {op : Opcode} {e : RuntimeError} (he : arith h op a b = .error e) :
    e.value? = none := by
  unfold arith at he
  split at he
  · exact value?_onNumbers he
  · cases he
    rfl
  · cases he
    rfl

theorem value?_negate {e : RuntimeError} (he : negate h a = .error e) : e.value? = none := by
  unfold negate at he
  split at he
  · split at he <;> cases he
  · cases he
  · cases he
    rfl

theorem value?_concat {e : RuntimeError} (he : concat h a b = .error e) : e.value? = none := by
  unfold concat at he
  split at he <;> cases he <;> rfl

theorem value?_length {e : RuntimeError} (he : length h a = .error e) : e.value? = none := by
  unfold length at he
  split at he <;> cases he
  rfl

theorem value?_ordered {onInts : Int64 → Int64 → Bool} {onFloats : Float → Float → Bool}
    {onBytes : Ordering → Bool} {e : RuntimeError}
    (he : ordered h onInts onFloats onBytes a b = .error e) : e.value? = none := by
  unfold ordered at he
  split at he <;> cases he
  rfl

end Operators

/-- Errors that say the same. -/
inductive RuntimeError.Matches (R : Value → Value → Prop) : RuntimeError → RuntimeError → Prop
  | raised {v w : Value} (text : String) (h : R v w) : Matches R (.raised v text) (.raised w text)
  | assertion {v w : Value} (text : String) (h : R v w) :
      Matches R (.assertion v text) (.assertion w text)
  | plain (e : RuntimeError) (h : e.value? = none) : Matches R e e

namespace RuntimeError.Matches

variable {R S : Value → Value → Prop} {e e' : RuntimeError}

theorem mono (h : Matches R e e') (hRS : ∀ v w, R v w → S v w) : Matches S e e' := by
  cases h with
  | raised text h => exact .raised text (hRS _ _ h)
  | assertion text h => exact .assertion text (hRS _ _ h)
  | plain e h => exact .plain e h

theorem message (h : Matches R e e') : e.message = e'.message := by cases h <;> rfl

end RuntimeError.Matches

/-- Results of operators: values or errors that correspond. -/
inductive ExceptRel {ε ε' α α' : Type} (E : ε → ε' → Prop) (R : α → α' → Prop) :
    Except ε α → Except ε' α' → Prop
  | ok {a : α} {a' : α'} (h : R a a') : ExceptRel E R (.ok a) (.ok a')
  | error {e : ε} {e' : ε'} (h : E e e') : ExceptRel E R (.error e) (.error e')

section

variable {n : Nat} {h h' : Heap} {a a' b b' : Value}

/-- Operators whose results hold no handles need only do the same. -/
theorem exceptRel_of_eq {r r' : Except RuntimeError Value} (heq : r = r')
    (hok : ∀ v, r = .ok v → v.handle? = none) (herror : ∀ e, r = .error e → e.value? = none) :
    ExceptRel (RuntimeError.Matches (h.Matches n h')) (h.Matches n h') r r' := by
  subst heq
  cases r with
  | ok v => exact .ok (.scalar (hok v rfl))
  | error e => exact .error (.plain e (herror e rfl))

theorem arith_related (op : Opcode) (ha : h.Matches n h' a a') (hb : h.Matches n h' b b') :
    ExceptRel (RuntimeError.Matches (h.Matches n h')) (h.Matches n h')
      (Operators.arith h op a b) (Operators.arith h' op a' b') :=
  exceptRel_of_eq (Operators.arith_of_matches op ha hb) (fun _ ↦ Operators.handle?_arith)
    fun _ ↦ Operators.value?_arith

end

end MiniLua
