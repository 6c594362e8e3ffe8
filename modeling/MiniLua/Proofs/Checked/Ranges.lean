import MiniLua.Library.Strings
import MiniLua.Proofs.Memory.Entries
import MiniLua.Proofs.Number.Floats

/-!
Operations that can be used out of their range: a place or a position that a vector does not have, a
base without digits, an integer result of more than 64 bits. Such a use has no result here, and a
program that makes one crashes. What the library computes with these operations never does.
-/

namespace MiniLua.Checked

section

variable {α : Type}

/-! ### Vectors -/

/-- Another entry at a place of a vector. -/
def replace (xs : Array α) (i : Nat) (a : α) : Option (Array α) :=
  if h : i < xs.size then some (xs.set i a h) else none

/-- What lies before a position of a vector, and what lies from there on. -/
def split (xs : Array α) (n : Nat) : Option (Array α × List α) :=
  if n ≤ xs.size then some (xs.shrink n, (xs.extract n xs.size).toList) else none

/-- The bytes between two positions. -/
def slice (s : Bytes) (first last : Nat) : Option Bytes :=
  if first ≤ last ∧ last ≤ s.length then some ((s.take last).drop first) else none

theorem replace_eq {xs : Array α} {i : Nat} (h : i < xs.size) (a : α) :
    replace xs i a = some (xs.setIfInBounds i a) := by
  rw [replace, dif_pos h, Array.setIfInBounds, dif_pos h]

theorem split_eq {xs : Array α} {n : Nat} (h : n ≤ xs.size) :
    split xs n = some (xs.shrink n, (xs.extract n xs.size).toList) := if_pos h

theorem slice_tail (b : UInt8) (s : Bytes) : slice (b :: s) 1 (b :: s).length = some s := by
  rw [slice, if_pos ⟨Nat.le_add_left 1 _, Nat.le_refl _⟩, List.take_length]
  rfl

theorem slice_take {s : Bytes} {n : Nat} (h : n ≤ s.length) : slice s 0 n = some (s.take n) :=
  if_pos ⟨Nat.zero_le n, h⟩

end

/-! ### Integers -/

def add (i j : Int64) : Option Int64 := int64? (i.toInt + j.toInt)

def sub (i j : Int64) : Option Int64 := int64? (i.toInt - j.toInt)

def mul (i j : Int64) : Option Int64 := int64? (i.toInt * j.toInt)

def neg (i : Int64) : Option Int64 := int64? (-i.toInt)

/-- The remainder with the sign of the dividend. -/
def rem (i j : Int64) : Option Int64 := if j = 0 then none else some (i % j)

/-- The nearest integer of 64 bits. -/
def saturated (n : Int) : Int64 := Int64.ofInt (max (-0x8000000000000000) (min n 0x7FFFFFFFFFFFFFFF))

/-- The nearest integer between two others. -/
def clamp (i low high : Int64) : Option Int64 :=
  if low ≤ high then some (if i < low then low else if high < i then high else i) else none

theorem toInt_bounds (i : Int64) :
    -0x8000000000000000 ≤ i.toInt ∧ i.toInt < 0x8000000000000000 :=
  ⟨Int64.le_toInt i, Int64.toInt_lt i⟩

theorem int64?_of_bounds {n : Int} (h : -0x8000000000000000 ≤ n ∧ n < 0x8000000000000000) :
    int64? n = some (Int64.ofInt n) := if_pos h

theorem toInt_saturated (n : Int) :
    (saturated n).toInt = max (-0x8000000000000000) (min n 0x7FFFFFFFFFFFFFFF) :=
  Int64.toInt_ofInt_of_le (by omega) (by omega)

/-! ### Tables -/

/-- The entry of a table: a key from one to the length is a place of the array part. -/
def entry (t : Table) : Key → Option Value
  | .int i =>
    if 1 ≤ i.toInt ∧ i.toInt ≤ t.length then do
      let place ← sub i 1
      t.array[place.toInt.toNat]?
    else some (t.hash.getD (.int i) .nil)
  | key => some (t.hash.getD key .nil)

def entryOf (t : Table) (key : Value) : Option Value :=
  match Key.ofValue? key with
  | some key => entry t key
  | none => some .nil

/-- The key behind the array part. -/
def nextKey (t : Table) : Option Key := (add (Int64.ofNat t.length) 1).map .int

/-- Moves entries to the array part until the key behind it has none. -/
def absorb : Nat → Table → Option Table
  | 0, t => do
    let _ ← nextKey t
    return t
  | bound + 1, t => do
    let next ← nextKey t
    match t.hash[next]? with
    | some v => absorb bound ⟨t.array.push v, t.hash.erase next⟩
    | none => return t

/-- Stores an entry that has no place in the array part. -/
def storeMapped (t : Table) (key : Key) (value : Value) : Table :=
  if value.isNil then ⟨t.array, t.hash.erase key⟩ else ⟨t.array, t.hash.insert key value⟩

def store (t : Table) (key : Key) (value : Value) : Option Table :=
  match key with
  | .int i =>
    let length := Int64.ofNat t.length
    if 1 ≤ i.toInt ∧ i.toInt ≤ length.toInt then do
      let place ← sub i 1
      let array ← replace t.array place.toInt.toNat value
      return if value.isNil && i == length then ⟨Table.trimmed array, t.hash⟩ else ⟨array, t.hash⟩
    else do
      let next ← nextKey t
      if key = next && !value.isNil then
        absorb t.hash.size ⟨t.array.push value, t.hash.erase key⟩
      else return storeMapped t key value
  | key => some (storeMapped t key value)

section

variable {t : Table} {key : Key} {value : Value}

theorem sub_one {i : Int64} (h : 1 ≤ i.toInt) : ∃ place, sub i 1 = some place ∧ place.toInt = i.toInt - 1 := by
  have hbounds := toInt_bounds i
  have hone : (1 : Int64).toInt = 1 := rfl
  refine ⟨Int64.ofInt (i.toInt - 1), ?_, Int64.toInt_ofInt_of_le (by omega) (by omega)⟩
  rw [sub, hone, int64?_of_bounds (by omega)]

theorem entry_eq (t : Table) (key : Key) : entry t key = some (t.get key) := by
  cases key with
  | int i =>
    unfold entry Table.get Table.slot?
    dsimp only
    split
    · next hin =>
      obtain ⟨place, hplace, hvalue⟩ := sub_one hin.1
      have hlt : i.toInt.toNat - 1 < t.array.size := by
        unfold Table.length at hin
        omega
      have hnat : place.toInt.toNat = i.toInt.toNat - 1 := by omega
      dsimp only
      rw [hplace, Option.bind_eq_bind, Option.bind_some, hnat, Array.getD_eq_getD_getElem?,
        Array.getElem?_eq_getElem hlt]
      rfl
    · rfl
  | bool | float | string | table | closure | native => rfl

theorem entryOf_eq (t : Table) (key : Value) : entryOf t key = some (t.getValue key) := by
  unfold entryOf Table.getValue
  cases Key.ofValue? key with
  | none => rfl
  | some key => exact entry_eq t key

theorem length_le_room (t : Table) : t.length ≤ t.room := Nat.le_add_right _ _

theorem nextKey_eq (h : t.length < Table.capacity) : nextKey t = some t.nextKey := by
  unfold Table.capacity at h
  have hlength : (Int64.ofNat t.length).toInt = t.length := Int64.toInt_ofNat_of_lt (by omega)
  have hone : (1 : Int64).toInt = 1 := rfl
  rw [nextKey, add, hlength, hone, int64?_of_bounds (by omega)]
  rfl

theorem absorb_eq {bound : Nat} (h : t.room < Table.capacity) :
    absorb bound t = some (t.absorb bound) := by
  induction bound generalizing t with
  | zero =>
    rw [absorb, nextKey_eq ((length_le_room t).trans_lt h)]
    rfl
  | succ bound ih =>
    rw [absorb, nextKey_eq ((length_le_room t).trans_lt h), Table.absorb]
    dsimp only [Option.bind_eq_bind, Option.bind_some]
    cases hv : t.hash[t.nextKey]? with
    | none => rfl
    | some v => exact ih ((Table.room_grown_of_mem hv).trans_lt h)

theorem store_eq (h : t.room + 1 < Table.capacity) (key : Key) (value : Value) :
    store t key value = some (t.set key value) := by
  have hlength := length_le_room t
  have hsmall : t.length < 2 ^ 63 := by
    unfold Table.capacity at h
    omega
  have hmapped (hslot : t.slot? key = none) (hnext : ¬ (key = t.nextKey ∧ value.isNil = false)) :
      storeMapped t key value = t.set key value := by
    rw [storeMapped, Table.set, hslot]
    dsimp only
    split
    · rfl
    · next hnil => rw [if_neg fun heq ↦ hnext ⟨heq, Bool.eq_false_iff.mpr hnil⟩]
  cases key with
  | int i =>
    have hinto : (Int64.ofNat t.length).toInt = t.length := Int64.toInt_ofNat_of_lt hsmall
    unfold store
    dsimp only
    rw [hinto]
    split
    · next hin =>
      obtain ⟨place, hplace, hvalue⟩ := sub_one hin.1
      have hnat : place.toInt.toNat = i.toInt.toNat - 1 := by omega
      have hlt : i.toInt.toNat - 1 < t.array.size := by
        unfold Table.length at hin
        omega
      have hslot : t.slot? (.int i) = some (i.toInt.toNat - 1) := if_pos hin
      have hlast : (i == Int64.ofNat t.length) = (i.toInt.toNat - 1 + 1 == t.length) := by
        rw [Bool.eq_iff_iff, beq_iff_eq, beq_iff_eq, ← Int64.toInt_inj, hinto]
        omega
      rw [hplace, Option.bind_eq_bind, Option.bind_some, hnat, replace_eq hlt, Option.bind_eq_bind,
        Option.bind_some, hlast, Table.set, hslot]
      rfl
    · next hout =>
      have hslot : t.slot? (.int i) = none := if_neg hout
      rw [nextKey_eq (by omega), Option.bind_eq_bind, Option.bind_some]
      split
      · next hnext =>
        simp only [Bool.and_eq_true, decide_eq_true_eq, Bool.not_eq_true'] at hnext
        have hroom : Table.room ⟨t.array.push value, t.hash.erase (.int i)⟩ < Table.capacity := by
          have hsize := Std.TreeMap.size_erase_le (t := t.hash) (k := .int i)
          unfold Table.room at h ⊢
          dsimp only
          rw [Array.size_push]
          omega
        rw [absorb_eq hroom, Table.set, hslot]
        dsimp only
        rw [hnext.2, if_neg Bool.false_ne_true, if_pos hnext.1]
      · next hnext =>
        simp only [Bool.and_eq_true, decide_eq_true_eq, Bool.not_eq_true'] at hnext
        rw [hmapped hslot hnext]
        rfl
  | bool | float | string | table | closure | native =>
    exact congrArg some (hmapped rfl fun hnext ↦ by cases hnext.1)

end

end MiniLua.Checked
