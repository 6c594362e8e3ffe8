import MiniLua.Machine.State
import MiniLua.Proofs.Effects
import MiniLua.Proofs.Memory.Stores
import MiniLua.Proofs.Number.Floats

/-!
Equality of values and the keys of tables. Values that are the same key are equal. Equal values are
the same key unless one is an integer that no float has as its value: comparing it with a float
rounds it, and a key keeps it as it is.
-/

namespace MiniLua

namespace Value

/-- A table can have an entry under it. -/
def Storable : Value → Prop
  | .nil => False
  | .float bits => Binary.isNaN bits = false
  | _ => True

/-- A float next to an integer that no float has as its value. -/
def Inexact (a b : Value) : Prop :=
  ∃ i bits, (a = .int i ∧ b = .float bits ∨ a = .float bits ∧ b = .int i) ∧
    ∀ x, wholeInt64? x ≠ some i

end Value

namespace Key

open Value

theorem ofValue?_float {bits : UInt64} (h : Binary.isNaN bits = false) :
    ofValue? (.float bits) = some ((wholeInt64? bits).elim (float bits) int) := by
  simp only [ofValue?, h]
  cases wholeInt64? bits <;> rfl

theorem ofValue?_of_storable {a : Value} (h : a.Storable) : ∃ k, ofValue? a = some k := by
  cases a with
  | nil => exact h.elim
  | float bits => exact ⟨_, ofValue?_float h⟩
  | _ => exact ⟨_, rfl⟩

/-- An integer and a float are the same key when the float has exactly that value. -/
theorem ofValue?_int_eq_float {i : Int64} {bits : UInt64} (h : Binary.isNaN bits = false) :
    ofValue? (.int i) = ofValue? (.float bits) ↔ wholeInt64? bits = some i := by
  rw [ofValue?_float h, ofValue?, Option.some_inj]
  cases wholeInt64? bits with
  | none => simp
  | some j => simp [eq_comm]

theorem int_float_agree {i : Int64} {bits : UInt64} :
    wholeInt64? bits = some i ↔ (floatOfInt i == Float.ofBits bits) = true ∧
      ∃ x, wholeInt64? x = some i := by
  constructor
  · intro h
    exact ⟨floatOfInt_beq h, bits, h⟩
  · rintro ⟨hequal, x, hx⟩
    exact wholeInt64?_of_floatOfInt_beq hx hequal

theorem ofValue?_float_eq_float {a b : UInt64} (ha : Binary.isNaN a = false)
    (hb : Binary.isNaN b = false) :
    ofValue? (.float a) = ofValue? (.float b) ↔ (Float.ofBits a == Float.ofBits b) = true := by
  rw [ofValue?_float ha, ofValue?_float hb, Option.some_inj]
  cases hwhole : wholeInt64? a with
  | some i =>
    have hother : wholeInt64? b = some i ↔ (Float.ofBits a == Float.ofBits b) = true :=
      ⟨beq_of_wholeInt64? hwhole, fun h ↦ wholeInt64?_of_beq h hwhole⟩
    rw [← hother]
    cases wholeInt64? b with
    | none => simp
    | some j => simp [eq_comm]
  | none =>
    constructor
    · intro h
      cases hwhole' : wholeInt64? b with
      | none =>
        rw [hwhole'] at h
        cases h
        exact beq_self ha
      | some j =>
        rw [hwhole'] at h
        cases h
    · intro h
      rw [← eq_of_beq h hwhole, hwhole]

theorem not_inexact_iff {a b : Value} {i : Int64} {bits : UInt64}
    (h : a = .int i ∧ b = .float bits ∨ a = .float bits ∧ b = .int i) :
    ¬ a.Inexact b ↔ ∃ x, wholeInt64? x = some i := by
  constructor
  · intro hexact
    by_contra hnone
    exact hexact ⟨i, bits, h, fun x hx ↦ hnone ⟨x, hx⟩⟩
  · rintro ⟨x, hx⟩ ⟨j, bits', hpair, hnone⟩
    have hij : i = j := by
      obtain ⟨rfl, rfl⟩ | ⟨rfl, rfl⟩ := h <;> obtain ⟨ha, hb⟩ | ⟨ha, hb⟩ := hpair <;> cases ha <;>
        cases hb <;> rfl
    exact hnone x (hij ▸ hx)

/-- The same keys are the equal values, but for the integers that no float has as its value. -/
theorem ofValue?_eq_iff {a b : Value} (ha : a.Storable) (hb : b.Storable) :
    ofValue? a = ofValue? b ↔ a.equal b = true ∧ ¬ a.Inexact b := by
  cases a with
  | nil => exact ha.elim
  | int i =>
    cases b with
    | float bits =>
      rw [ofValue?_int_eq_float hb, int_float_agree, not_inexact_iff (.inl ⟨rfl, rfl⟩)]
      rfl
    | _ => simp [ofValue?, equal, same, Inexact]
  | float bits =>
    cases b with
    | nil => exact hb.elim
    | int i =>
      rw [eq_comm, ofValue?_int_eq_float ha, int_float_agree, not_inexact_iff (.inr ⟨rfl, rfl⟩)]
      rfl
    | float bits' =>
      have hexact : ¬ (Value.float bits).Inexact (.float bits') := by
        rintro ⟨i, x, ⟨h, -⟩ | ⟨-, h⟩, -⟩ <;> cases h
      rw [ofValue?_float_eq_float ha hb, and_iff_left hexact]
      rfl
    | _ =>
      rw [ofValue?_float ha]
      cases wholeInt64? bits <;> simp [ofValue?, equal, same, Inexact]
  | _ =>
    cases b with
    | float bits =>
      rw [ofValue?_float hb]
      cases wholeInt64? bits <;> simp [ofValue?, equal, same, Inexact]
    | _ => simp [ofValue?, equal, same, Inexact]

end Key

namespace Table

variable {t : Table}

theorem valid_of_isEmpty (h : t.isEmpty) : t.Valid := by
  unfold isEmpty at h
  rw [Bool.and_eq_true, Array.isEmpty_iff_size_eq_zero] at h
  obtain ⟨hzero, hempty⟩ := h
  have hnone (k : Key) : t.hash[k]? = none := Std.TreeMap.getElem?_of_isEmpty hempty
  exact
    { tight := by rw [Array.back?_eq_getElem?, hzero]; simp [Array.getElem?_eq_none (Nat.le_of_eq hzero)]
      solid := fun k ↦ by simp [hnone k]
      apart := fun n hn ↦ hnone _
      border := hnone _ }

/-- A table with one entry. -/
theorem get_set_of_isEmpty (h : t.isEmpty) (k q : Key) (v : Value) :
    (t.set k v).get q = if q = k then v else .nil := by
  have hvalid := valid_of_isEmpty h
  have hroom : t.room = 0 := by
    unfold isEmpty at h
    rw [Bool.and_eq_true, Array.isEmpty_iff_size_eq_zero, Std.TreeMap.isEmpty_eq_size_eq_zero,
      beq_iff_eq] at h
    rw [room, h.1, h.2]
  have hlength : t.length ≤ capacity := by
    unfold room at hroom
    unfold length
    omega
  rw [(hvalid.sets (by rw [hroom]; decide) k v).get, (hvalid.isEmpty_iff hlength).mp h]

end Table

/-- After a store in an empty table, the entry is found under exactly the values that are equal to
the one it was stored under, but for the pairs of a float and an integer that no float has as its
value, and those integers are beyond 2 ^ 53. -/
theorem index_after_setIndex {s : State} {t : Nat} {u : Table} (ht : s.heap.tables[t]? = some u)
    (hempty : u.isEmpty) {a b v : Value} (ha : a.Storable) (hb : b.Storable) (hv : v ≠ .nil) :
    (Key.ofValue? a = Key.ofValue? b ↔ a.equal b = true ∧ ¬ a.Inexact b) ∧
      (∀ i, (∀ x, wholeInt64? x ≠ some i) → 2 ^ 53 < i.toInt.natAbs) ∧
      ∃ s' r, Machine.setIndex (.table t) a v s = .ok () s' ∧
        Machine.index (.table t) b s' = .ok r s' ∧ s'.heap.rawGet (.table t) b = r ∧
        (r = v ↔ a.equal b = true ∧ ¬ a.Inexact b) ∧
        (r = .nil ↔ ¬ (a.equal b = true ∧ ¬ a.Inexact b)) := by
  have hagree := Key.ofValue?_eq_iff ha hb
  refine ⟨hagree, fun i hnone ↦ ?_, ?_⟩
  · by_contra hsmall
    obtain ⟨x, hx⟩ := exists_wholeInt64? (Nat.le_of_not_lt hsmall)
    exact hnone x hx
  · obtain ⟨k, hk⟩ := Key.ofValue?_of_storable ha
    obtain ⟨q, hq⟩ := Key.ofValue?_of_storable hb
    rw [← hagree]
    have hlt : t < s.heap.tables.size := (Array.getElem?_eq_some_iff.mp ht).1
    let s' : State := { s with heap := s.heap.modifyTable t (·.set k v) }
    have hstore : Machine.setIndex (.table t) a v s = .ok () s' := by
      simp only [Machine.setIndex, hk]
      rw [Effects.bind_apply, Effects.get_apply]
      dsimp only
      rw [if_pos hlt]
      rfl
    have hread : s'.heap.rawGet (.table t) b = if q = k then v else .nil := by
      have htable : s'.heap.tables[t]? = some (u.set k v) := by
        change (s.heap.tables.modify t _)[t]? = _
        rw [Array.getElem?_modify, if_pos rfl, ht]
        rfl
      rw [Heap.rawGet, htable, Option.map_some, Option.getD_some, Table.getValue, hq]
      exact Table.get_set_of_isEmpty hempty k q v
    have hkeys : Key.ofValue? a = Key.ofValue? b ↔ q = k := by
      rw [hk, hq, Option.some_inj]
      exact eq_comm
    rw [hkeys]
    refine ⟨s', _, hstore, rfl, rfl, ?_, ?_⟩
    · rw [hread]
      by_cases hqk : q = k
      · simp only [hqk, if_true]
      · simp only [hqk, if_false, hv.symm]
    · rw [hread]
      by_cases hqk : q = k
      · simp only [hqk, if_true, hv, not_true]
      · simp only [hqk, if_false, not_false_eq_true]

theorem index_after_setIndex_one :
    let s := State.start {} .empty true
    s.heap.tables[0]? = some .empty ∧ Table.empty.isEmpty ∧ Value.Storable (.int 1) ∧
      Value.Storable (.float 0x3FF0000000000000) ∧
      ∃ s', Machine.setIndex (.table 0) (.int 1) (.bool true) s = .ok () s' ∧
        Machine.index (.table 0) (.float 0x3FF0000000000000) s' = .ok (.bool true) s' := by
  have hone : Value.Storable (.float 0x3FF0000000000000) := Eq.refl false
  obtain ⟨hagree, -, s', r, hstore, hread, -, hr, -⟩ :=
    index_after_setIndex (s := State.start {} .empty true) (t := 0) (u := .empty) rfl (by decide)
      (a := .int 1) (b := .float 0x3FF0000000000000) (v := .bool true) trivial hone nofun
  have hr : r = .bool true := hr.mpr (hagree.mp (by decide))
  exact ⟨rfl, by decide, trivial, hone, s', hstore, hr ▸ hread⟩

/-- The comparison of an integer beyond 2 ^ 53 with a float rounds it. -/
theorem equal_of_rounded : Value.Storable (.int 9007199254740993) ∧
    Value.Storable (.float 0x4340000000000000) ∧
    Value.equal (.int 9007199254740993) (.float 0x4340000000000000) = true ∧
    Key.ofValue? (.int 9007199254740993) ≠ Key.ofValue? (.float 0x4340000000000000) :=
  ⟨trivial, Eq.refl false, by decide +kernel, by decide⟩

end MiniLua
