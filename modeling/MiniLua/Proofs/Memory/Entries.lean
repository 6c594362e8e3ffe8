import Mathlib.Data.Set.Card
import MiniLua.Memory.Table

/-!
Tables as finite maps. Whatever was stored in a table, it has under each key what was stored there
last, and its length is a border. What carries this is that the array part holds the entries from one
on up to the last that is not nil, and the map neither a nil nor a key that belongs in the array part
or right behind it.
-/

namespace MiniLua.Table

/-- Integer keys have 64 bits, so this many entries and one more have no keys of their own. -/
def capacity : Nat := 2 ^ 63 - 1

/-- The key of the entry at `n`. -/
def indexKey (n : Nat) : Key := .int (Int64.ofNat n)

theorem indexKey_inj {m n : Nat} (hm : m ≤ capacity) (hn : n ≤ capacity) :
    indexKey m = indexKey n ↔ m = n := by
  constructor
  · intro h
    have hint := congrArg Int64.toInt (Key.int.inj h)
    rw [Int64.toInt_ofNat_of_lt (by unfold capacity at hm; omega),
      Int64.toInt_ofNat_of_lt (by unfold capacity at hn; omega)] at hint
    exact Int.ofNat_inj.mp hint
  · rintro rfl
    rfl

variable {t : Table} {n : Nat} {k q : Key} {v : Value}

theorem isNil_iff : v.isNil ↔ v = .nil := by
  cases v <;> simp [Value.isNil]

theorem isNil_eq_false : v.isNil = false ↔ v ≠ .nil := by
  rw [← Bool.not_eq_true, isNil_iff]

theorem nextKey_eq (t : Table) : t.nextKey = indexKey (t.length + 1) := by
  apply congrArg Key.int
  exact_mod_cast Int64.ofInt_eq_ofNat (n := t.length + 1)

/-- The array part holds the keys from one to the length. -/
theorem slot?_eq_some_iff (hsmall : t.length ≤ capacity) :
    t.slot? k = some n ↔ n < t.length ∧ k = indexKey (n + 1) := by
  have hindex : n < t.length → (Int64.ofNat (n + 1)).toInt = (n + 1 : Nat) := by
    intro hn
    unfold capacity at hsmall
    exact Int64.toInt_ofNat_of_lt (by omega)
  cases k with
  | int i =>
    simp only [slot?, indexKey, Key.int.injEq, Option.ite_none_right_eq_some, Option.some.injEq]
    constructor
    · rintro ⟨⟨hlow, hhigh⟩, hn⟩
      refine ⟨by omega, Int64.toInt_inj.mp ?_⟩
      rw [hindex (by omega)]
      omega
    · rintro ⟨hn, rfl⟩
      rw [hindex hn]
      omega
  | bool | float | string | table | closure | native => simp [slot?, indexKey]

theorem slot?_indexKey (hsmall : t.length ≤ capacity) (hn : n < t.length) :
    t.slot? (indexKey (n + 1)) = some n :=
  (slot?_eq_some_iff hsmall).mpr ⟨hn, rfl⟩

/-- A key is one of the array part, or it is not. -/
theorem index_or_free (hsmall : t.length ≤ capacity) (k : Key) :
    (∃ n < t.length, k = indexKey (n + 1)) ∨
      t.slot? k = none ∧ ∀ n < t.length, k ≠ indexKey (n + 1) := by
  cases hk : t.slot? k with
  | some n => exact .inl ⟨n, (slot?_eq_some_iff hsmall).mp hk⟩
  | none =>
    refine .inr ⟨rfl, fun n hn heq ↦ ?_⟩
    rw [heq, slot?_indexKey hsmall hn] at hk
    cases hk

theorem get_of_free (h : t.slot? k = none) : t.get k = t.hash.getD k .nil := by
  rw [get, h]

/-- What the map does not hold is read from the array, past its end too. -/
theorem get_indexKey (hsmall : t.length ≤ capacity) (hn : n < capacity)
    (hfree : t.hash[indexKey (n + 1)]? = none) :
    t.get (indexKey (n + 1)) = t.array.getD n .nil := by
  by_cases hlt : n < t.length
  · rw [get, slot?_indexKey hsmall hlt]
  · have hslot : t.slot? (indexKey (n + 1)) = none := by
      rw [Option.eq_none_iff_forall_ne_some]
      intro m hm
      obtain ⟨hm, heq⟩ := (slot?_eq_some_iff hsmall).mp hm
      have := (indexKey_inj (by omega) (by omega)).mp heq
      omega
    have hend : t.array.size ≤ n := Nat.le_of_not_lt hlt
    rw [get_of_free hslot, Std.TreeMap.getD_eq_getD_getElem?, hfree, Array.getD_eq_getD_getElem?,
      Array.getElem?_eq_none hend]

/-- A table while entries may still have to move from the map to the array part. -/
structure Loose (t : Table) : Prop where
  tight : t.array.back? ≠ some .nil
  solid : ∀ k : Key, t.hash[k]? ≠ some .nil
  apart : ∀ n < t.length, t.hash[indexKey (n + 1)]? = none

/-- The entry behind the array part is nil too. -/
structure Valid (t : Table) : Prop extends Loose t where
  border : t.hash[t.nextKey]? = none

/-- How many entries there are room for: holes in the array part count. -/
def room (t : Table) : Nat := t.array.size + t.hash.size

theorem valid_empty : empty.Valid where
  tight := by simp [empty]
  solid k := by simp [empty]
  apart n hn := by simp [empty]
  border := by simp [empty]

theorem Valid.free (h : t.Valid) (hn : n ≤ t.length) : t.hash[indexKey (n + 1)]? = none := by
  obtain hlt | rfl := Nat.lt_or_eq_of_le hn
  · exact h.apart n hlt
  · rw [← nextKey_eq]
    exact h.border

/-- An entry is added behind the array part. -/
def grown (t : Table) (v : Value) : Table := ⟨t.array.push v, t.hash.erase t.nextKey⟩

theorem length_grown : (t.grown v).length = t.length + 1 := by simp [grown, length]

theorem get_grown (hsmall : t.length < capacity) :
    (t.grown v).get q = if q = t.nextKey then v else t.get q := by
  have hgrown : (t.grown v).length ≤ capacity := by
    rw [length_grown]
    exact hsmall
  obtain ⟨n, hn, rfl⟩ | ⟨hslot, hne⟩ := index_or_free hgrown q
  · rw [length_grown] at hn
    have hslot := slot?_indexKey hgrown (n := n) (by rw [length_grown]; exact hn)
    rw [get, hslot, nextKey_eq]
    by_cases hlast : n = t.length
    · subst hlast
      simp [grown, length]
    · have hlt : n < t.array.size := by
        unfold length at hn hlast
        omega
      have hkey : indexKey (n + 1) ≠ indexKey (t.length + 1) := by
        rw [Ne, indexKey_inj (by omega) (by omega)]
        omega
      rw [if_neg hkey, get, slot?_indexKey (by omega) hlt]
      simp [grown, Array.getD_eq_getD_getElem?, Array.getElem?_push_lt hlt, hlt]
  · have hkey : q ≠ t.nextKey := by
      rw [nextKey_eq]
      exact hne _ (by rw [length_grown]; omega)
    have hold : t.slot? q = none := by
      rw [Option.eq_none_iff_forall_ne_some]
      intro m hm
      obtain ⟨hm, heq⟩ := (slot?_eq_some_iff (by omega)).mp hm
      exact hne m (by rw [length_grown]; omega) heq
    rw [if_neg hkey, get_of_free hslot, get_of_free hold, Std.TreeMap.getD_eq_getD_getElem?,
      Std.TreeMap.getD_eq_getD_getElem?]
    simp only [grown]
    rw [Std.TreeMap.getElem?_erase, if_neg]
    intro heq
    exact hkey (Std.LawfulEqCmp.eq_of_compare heq).symm

theorem Loose.grown (h : t.Loose) (hv : v ≠ .nil) : (t.grown v).Loose where
  tight := by simpa [Table.grown] using hv
  solid k := by
    simp only [Table.grown]
    rw [Std.TreeMap.getElem?_erase]
    split
    · exact nofun
    · exact h.solid k
  apart n hn := by
    rw [length_grown] at hn
    simp only [Table.grown]
    rw [Std.TreeMap.getElem?_erase]
    split
    · rfl
    · next hne =>
      apply h.apart
      apply Nat.lt_of_le_of_ne (Nat.le_of_lt_succ hn)
      rintro rfl
      apply hne
      rw [nextKey_eq, Std.LawfulEqCmp.compare_eq_iff_eq]

/-- An entry that moves to the array part takes the room it had. -/
theorem room_grown_of_mem (hv : t.hash[t.nextKey]? = some v) : (t.grown v).room = t.room := by
  have hmem : t.hash.contains t.nextKey := by
    rw [Std.TreeMap.contains_eq_isSome_getElem?, hv]
    rfl
  have hpos : t.hash.size ≠ 0 := by
    intro hzero
    have hnone := Std.TreeMap.contains_of_isEmpty (a := t.nextKey)
      (by rw [Std.TreeMap.isEmpty_eq_size_eq_zero, hzero]; rfl)
    rw [hmem] at hnone
    cases hnone
  have hsize : (t.grown v).hash.size + 1 = t.hash.size := by
    simp only [grown]
    rw [Std.TreeMap.size_erase, if_pos hmem]
    omega
  have hlength := length_grown (t := t) (v := v)
  unfold room length at *
  omega

theorem room_absorb (bound : Nat) : (t.absorb bound).room = t.room := by
  induction bound generalizing t with
  | zero => rfl
  | succ bound ih =>
    rw [absorb]
    split
    · next v hv => exact ih.trans (room_grown_of_mem hv)
    · rfl

/-- Moving entries to the array part leaves them all in place, and then the table is valid. -/
theorem absorb_spec (bound : Nat) (hbound : t.hash.size ≤ bound) (h : t.Loose)
    (hsmall : t.room < capacity) :
    (t.absorb bound).Valid ∧ (t.absorb bound).room = t.room ∧
      ∀ q, (t.absorb bound).get q = t.get q := by
  induction bound generalizing t with
  | zero =>
    have hempty : t.hash.isEmpty := by
      rw [Std.TreeMap.isEmpty_eq_size_eq_zero]
      simpa using hbound
    refine ⟨⟨h, ?_⟩, rfl, fun q ↦ rfl⟩
    exact Std.TreeMap.getElem?_of_isEmpty hempty
  | succ bound ih =>
    rw [absorb]
    split
    · next v hv =>
      have hroom := room_grown_of_mem hv
      have hsize : (t.grown v).hash.size ≤ bound := by
        have hlength := length_grown (t := t) (v := v)
        unfold room length at *
        omega
      have hvalue : v ≠ .nil := by
        rintro rfl
        exact h.solid _ hv
      obtain ⟨hvalid, hsame, hget⟩ := ih hsize (h.grown hvalue) (by rw [hroom]; exact hsmall)
      refine ⟨hvalid, hsame.trans hroom, fun q ↦ ?_⟩
      unfold room at hsmall
      have hlength : t.length < capacity := by
        unfold length
        omega
      rw [grown] at hget
      rw [hget, ← grown, get_grown hlength]
      split
      · next heq =>
        have hslot : t.slot? t.nextKey = none := by
          rw [Option.eq_none_iff_forall_ne_some]
          intro m hm
          obtain ⟨hm, heq⟩ := (slot?_eq_some_iff (by omega)).mp hm
          rw [nextKey_eq, indexKey_inj (by omega) (by omega)] at heq
          omega
        rw [heq, get_of_free hslot, Std.TreeMap.getD_eq_getD_getElem?, hv]
        rfl
      · rfl
    · next hnone => exact ⟨⟨h, hnone⟩, rfl, fun q ↦ rfl⟩

/-- Without the nils at its end an array reads the same. -/
theorem getD_trimmed (values : Array Value) (n : Nat) :
    (trimmed values).getD n .nil = values.getD n .nil := by
  obtain ⟨values⟩ := values
  simp only [trimmed, List.popWhile_toArray, Array.getD_eq_getD_getElem?, List.getElem?_toArray]
  induction values using List.reverseRecOn with
  | nil => rfl
  | append_singleton values v ih =>
    rw [List.reverse_append, List.reverse_singleton, List.singleton_append, List.dropWhile_cons]
    split
    · next hnil =>
      rw [ih, isNil_iff.mp hnil]
      by_cases hn : n < values.length
      · rw [List.getElem?_append_left hn]
      · rw [List.getElem?_append_right (by omega), List.getElem?_eq_none (by omega)]
        cases n - values.length <;> rfl
    · rw [List.reverse_cons, List.reverse_reverse]

theorem back?_trimmed (values : Array Value) : (trimmed values).back? ≠ some .nil := by
  obtain ⟨values⟩ := values
  simp only [trimmed, List.popWhile_toArray, List.back?_toArray, List.getLast?_reverse]
  intro hlast
  have hdrop := List.head?_dropWhile_not Value.isNil values.reverse
  rw [hlast] at hdrop
  simp [Value.isNil] at hdrop

theorem size_trimmed_le (values : Array Value) : (trimmed values).size ≤ values.size := by
  obtain ⟨values⟩ := values
  simp only [trimmed, List.popWhile_toArray, List.size_toArray, List.length_reverse]
  rw [← values.length_reverse]
  exact (List.dropWhile_sublist _).length_le

theorem length_setSlot_le : (t.setSlot n v).length ≤ t.length := by
  have hsize := size_trimmed_le (t.array.setIfInBounds n v)
  rw [Array.size_setIfInBounds] at hsize
  unfold setSlot
  dsimp only
  split
  · exact hsize
  · simp [length]

theorem hash_setSlot : (t.setSlot n v).hash = t.hash := by
  unfold setSlot
  dsimp only
  split <;> rfl

theorem getD_setSlot (m : Nat) : (t.setSlot n v).array.getD m .nil =
    (t.array.setIfInBounds n v).getD m .nil := by
  unfold setSlot
  dsimp only
  split
  · exact getD_trimmed _ m
  · rfl

theorem Valid.setSlot (h : t.Valid) (hn : n < t.length) : (t.setSlot n v).Valid where
  tight := by
    unfold Table.setSlot
    dsimp only
    split
    · exact back?_trimmed _
    · next hkept =>
      rw [Array.back?_eq_getElem?, Array.size_setIfInBounds, Array.getElem?_setIfInBounds]
      have htight := h.tight
      rw [Array.back?_eq_getElem?] at htight
      unfold length at hn hkept
      split
      · next hlast =>
        intro hnil
        obtain rfl := Option.some.inj hnil
        apply hkept
        simp only [Value.isNil, Bool.true_and, beq_iff_eq]
        omega
      · exact htight
  solid := by
    rw [hash_setSlot]
    exact h.solid
  apart m hm := by
    rw [hash_setSlot]
    exact h.apart m (hm.trans_le length_setSlot_le)
  border := by
    rw [hash_setSlot, nextKey_eq]
    exact h.free length_setSlot_le

theorem Valid.get_setSlot (h : t.Valid) (hsmall : t.length ≤ capacity) (hn : n < t.length) :
    (t.setSlot n v).get q = if q = indexKey (n + 1) then v else t.get q := by
  have hnew : (t.setSlot n v).length ≤ capacity := length_setSlot_le.trans hsmall
  obtain ⟨m, hm, rfl⟩ | ⟨hslot, hne⟩ := index_or_free hsmall q
  · have hfree := h.apart m hm
    rw [get_indexKey hnew (by omega) (by rw [hash_setSlot]; exact hfree), getD_setSlot,
      get_indexKey hsmall (by omega) hfree, Array.getD_eq_getD_getElem?,
      Array.getElem?_setIfInBounds]
    by_cases heq : m = n
    · subst heq
      have hsize : m < t.array.size := hm
      simp [hsize]
    · have hkey : indexKey (m + 1) ≠ indexKey (n + 1) := by
        rw [Ne, indexKey_inj (by omega) (by omega)]
        omega
      rw [if_neg hkey, if_neg (Ne.symm heq), Array.getD_eq_getD_getElem?]
  · have hfree : (t.setSlot n v).slot? q = none := by
      rw [Option.eq_none_iff_forall_ne_some]
      intro m hm
      obtain ⟨hm, heq⟩ := (slot?_eq_some_iff hnew).mp hm
      exact hne m (hm.trans_le length_setSlot_le) heq
    rw [if_neg (hne n hn), get_of_free hfree, get_of_free hslot, hash_setSlot]

theorem slot?_withHash (hash : Std.TreeMap Key Value) : slot? ⟨t.array, hash⟩ k = t.slot? k := by
  cases k <;> rfl

/-- A change of one key in the map, which the array part does not hold. -/
theorem get_withHash {hash : Std.TreeMap Key Value} (hk : t.slot? k = none)
    (hsame : ∀ q, q ≠ k → hash[q]? = t.hash[q]?) :
    get ⟨t.array, hash⟩ q = if q = k then (hash[k]?).getD .nil else t.get q := by
  unfold get
  rw [slot?_withHash]
  by_cases hq : q = k
  · rw [if_pos hq, hq, hk]
    exact Std.TreeMap.getD_eq_getD_getElem?
  · rw [if_neg hq]
    simp only [Std.TreeMap.getD_eq_getD_getElem?, hsame q hq]

theorem getElem?_erase_of_ne {hash : Std.TreeMap Key Value} (h : q ≠ k) :
    (hash.erase k)[q]? = hash[q]? := by
  rw [Std.TreeMap.getElem?_erase, if_neg]
  intro heq
  exact h (Std.LawfulEqCmp.eq_of_compare heq).symm

theorem getElem?_insert_of_ne {hash : Std.TreeMap Key Value} (h : q ≠ k) :
    (hash.insert k v)[q]? = hash[q]? := by
  rw [Std.TreeMap.getElem?_insert, if_neg]
  intro heq
  exact h (Std.LawfulEqCmp.eq_of_compare heq).symm

/-- What a store in a valid table does. -/
structure Sets (t : Table) (k : Key) (v : Value) (u : Table) : Prop where
  valid : u.Valid
  room : u.room ≤ t.room + 1
  get : ∀ q, u.get q = if q = k then v else t.get q

namespace Valid

variable (h : t.Valid) (hslot : t.slot? k = none)

include h

theorem sets_slot (hsmall : t.length ≤ capacity) (hn : n < t.length) :
    t.Sets (indexKey (n + 1)) v (t.setSlot n v) where
  valid := h.setSlot hn
  room := by
    have hlength := length_setSlot_le (t := t) (n := n) (v := v)
    unfold Table.room
    rw [hash_setSlot]
    unfold length at hlength
    omega
  get q := h.get_setSlot hsmall hn

include hslot

theorem sets_erase : t.Sets k .nil ⟨t.array, t.hash.erase k⟩ where
  valid := by
    have hkeep (q : Key) : (t.hash.erase k)[q]? = none ∨ (t.hash.erase k)[q]? = t.hash[q]? := by
      rw [Std.TreeMap.getElem?_erase]
      split
      · exact .inl rfl
      · exact .inr rfl
    have hnone (q : Key) (hq : t.hash[q]? = none) : (t.hash.erase k)[q]? = none := by
      obtain hkeep | hkeep := hkeep q
      · exact hkeep
      · exact hkeep.trans hq
    refine ⟨⟨h.tight, fun q ↦ ?_, fun n hn ↦ hnone _ (h.apart n hn)⟩, hnone _ h.border⟩
    dsimp only
    obtain hq | hq := hkeep q
    · rw [hq]
      exact nofun
    · rw [hq]
      exact h.solid q
  room := by
    have hsize := Std.TreeMap.size_erase_le (t := t.hash) (k := k)
    unfold Table.room
    dsimp only
    omega
  get q := by
    rw [get_withHash hslot fun q ↦ getElem?_erase_of_ne, Std.TreeMap.getElem?_erase_self]
    rfl

theorem sets_insert (hsmall : t.length < capacity) (hnext : k ≠ t.nextKey) (hv : v ≠ .nil) :
    t.Sets k v ⟨t.array, t.hash.insert k v⟩ where
  valid := by
    refine ⟨⟨h.tight, fun q ↦ ?_, fun n hn ↦ ?_⟩, ?_⟩
    · by_cases hq : q = k
      · subst hq
        dsimp only
        rw [Std.TreeMap.getElem?_insert_self]
        exact fun heq ↦ hv (Option.some.inj heq)
      · dsimp only
        rw [getElem?_insert_of_ne hq]
        exact h.solid q
    · have hn : n < t.length := hn
      dsimp only
      rw [getElem?_insert_of_ne]
      · exact h.apart n hn
      · intro heq
        rw [← heq, slot?_indexKey (by omega) hn] at hslot
        cases hslot
    · have hborder := h.border
      rw [nextKey_eq] at hborder hnext ⊢
      dsimp only [length] at hborder hnext ⊢
      rw [getElem?_insert_of_ne (Ne.symm hnext)]
      exact hborder
  room := by
    have hsize := Std.TreeMap.size_insert_le (t := t.hash) (k := k) (v := v)
    unfold Table.room
    dsimp only
    omega
  get q := by
    rw [get_withHash hslot fun q ↦ getElem?_insert_of_ne, Std.TreeMap.getElem?_insert_self]
    rfl

omit hslot in
theorem sets_next (hsmall : t.room + 1 < capacity) (hv : v ≠ .nil) :
    t.Sets t.nextKey v ((t.grown v).absorb t.hash.size) := by
  have hsize : (t.grown v).hash.size ≤ t.hash.size := Std.TreeMap.size_erase_le
  have hroom : (t.grown v).room ≤ t.room + 1 := by
    have hlength := length_grown (t := t) (v := v)
    unfold Table.room length at *
    omega
  obtain ⟨hvalid, hsame, hget⟩ :=
    absorb_spec _ hsize (h.toLoose.grown hv) (hroom.trans_lt hsmall)
  refine ⟨hvalid, hsame.trans_le hroom, fun q ↦ ?_⟩
  rw [hget, get_grown]
  unfold Table.room at hsmall
  unfold length
  omega

end Valid

/-- The entry is what was stored, and all others are as they were. -/
theorem Valid.sets (h : t.Valid) (hsmall : t.room + 1 < capacity) (k : Key) (v : Value) :
    t.Sets k v (t.set k v) := by
  have hlength : t.length + 1 < capacity := by
    unfold Table.room at hsmall
    unfold length
    omega
  unfold Table.set
  cases hslot : t.slot? k with
  | some n =>
    obtain ⟨hn, rfl⟩ := (slot?_eq_some_iff (by omega)).mp hslot
    exact h.sets_slot (by omega) hn
  | none =>
    dsimp only
    split
    · next hnil =>
      rw [isNil_iff.mp hnil]
      exact h.sets_erase hslot
    · next hsome =>
      have hv : v ≠ .nil := fun hv ↦ hsome (isNil_iff.mpr hv)
      split
      · next hnext =>
        rw [hnext]
        exact h.sets_next hsmall hv
      · next hnext => exact h.sets_insert hslot (by omega) hnext hv

/-- A store takes room for one entry at most. -/
theorem room_set_le (t : Table) (k : Key) (v : Value) : (t.set k v).room ≤ t.room + 1 := by
  unfold Table.set
  split
  · next n _ =>
    have hlength := length_setSlot_le (t := t) (n := n) (v := v)
    have hhash := hash_setSlot (t := t) (n := n) (v := v)
    unfold length at hlength
    unfold Table.room
    rw [hhash]
    omega
  · split
    · have hsize := Std.TreeMap.size_erase_le (t := t.hash) (k := k)
      unfold Table.room
      dsimp only
      omega
    split
    · have hsize := Std.TreeMap.size_erase_le (t := t.hash) (k := k)
      rw [room_absorb]
      unfold Table.room
      dsimp only
      rw [Array.size_push]
      omega
    · have hsize := Std.TreeMap.size_insert_le (t := t.hash) (k := k) (v := v)
      unfold Table.room
      dsimp only
      omega

end MiniLua.Table
