import MiniLua.Proofs.Memory.Entries

/-!
Histories of tables: what has been stored in one since it was made, and that this is what it holds.
-/

namespace MiniLua.Table

/-- The keys under which both parts of a table have room, holes included. -/
def keys (t : Table) : List Key := ((List.range t.length).map fun n ↦ indexKey (n + 1)) ++ t.hash.keys

section

variable {t : Table} {k : Key}

theorem Valid.nodup_keys (h : t.Valid) (hsmall : t.length ≤ capacity) : t.keys.Nodup := by
  apply List.Nodup.append
  · apply List.nodup_range.map_on
    intro m hm n hn heq
    rw [List.mem_range] at hm hn
    have hindex := (indexKey_inj (by omega) (by omega)).mp heq
    omega
  · exact Std.TreeMap.nodup_keys
  · intro k hk hhash
    obtain ⟨n, hn, rfl⟩ := List.mem_map.mp hk
    rw [Std.TreeMap.mem_keys, Std.TreeMap.mem_iff_isSome_getElem?,
      h.apart n (List.mem_range.mp hn)] at hhash
    cases hhash

theorem Valid.get_of_mem (h : t.Valid) (hsmall : t.length ≤ capacity) {v : Value}
    (hv : t.hash[k]? = some v) : t.get k = v := by
  obtain ⟨n, hn, rfl⟩ | ⟨hslot, -⟩ := index_or_free hsmall k
  · rw [h.apart n hn] at hv
    cases hv
  · rw [get_of_free hslot, Std.TreeMap.getD_eq_getD_getElem?, hv]
    rfl

/-- Only these keys have entries. -/
theorem mem_keys (hsmall : t.length ≤ capacity) (hk : t.get k ≠ .nil) : k ∈ t.keys := by
  unfold keys
  obtain ⟨n, hn, rfl⟩ | ⟨hslot, -⟩ := index_or_free hsmall k
  · exact List.mem_append_left _ (List.mem_map_of_mem (List.mem_range.mpr hn))
  · apply List.mem_append_right
    rw [Std.TreeMap.mem_keys, Std.TreeMap.mem_iff_isSome_getElem?]
    rw [get_of_free hslot, Std.TreeMap.getD_eq_getD_getElem?] at hk
    cases hv : t.hash[k]? with
    | none => simp [hv] at hk
    | some v => rfl

theorem array_eq (h : t.Valid) (hsmall : t.length ≤ capacity) :
    t.array.toList = (List.range t.length).map fun n ↦ t.get (indexKey (n + 1)) := by
  apply List.ext_getElem (by simp [length])
  intro n hn hn'
  have hlt : n < t.length := by simpa [length] using hn
  rw [List.getElem_map, List.getElem_range, get_indexKey hsmall (by omega) (h.apart n hlt)]
  simp only [Array.getD_eq_getD_getElem?, Array.getElem_toList]
  rw [Array.getElem?_eq_getElem hlt]
  rfl

/-- The last entry of the array part is not nil. -/
theorem Valid.last_ne_nil (h : t.Valid) (hsmall : t.length ≤ capacity) (hsome : t.length ≠ 0) :
    t.get (indexKey t.length) ≠ .nil := by
  obtain ⟨n, hn⟩ := Nat.exists_eq_succ_of_ne_zero hsome
  rw [hn, get_indexKey hsmall (by omega) (h.apart n (by omega))]
  have htight := h.tight
  unfold length at hn
  rw [Array.back?_eq_getElem?, hn, Nat.succ_sub_one, Array.getElem?_eq_getElem (by omega)] at htight
  rw [Array.getD_eq_getD_getElem?, Array.getElem?_eq_getElem (by omega)]
  exact fun hnil ↦ htight (congrArg some hnil)

theorem Valid.isEmpty_iff (h : t.Valid) (hsmall : t.length ≤ capacity) :
    t.isEmpty ↔ ∀ k, t.get k = .nil := by
  unfold isEmpty
  rw [Bool.and_eq_true, Array.isEmpty_iff_size_eq_zero]
  constructor
  · rintro ⟨hzero, hempty⟩ k
    have hslot : t.slot? k = none := by
      obtain ⟨n, hn, -⟩ | ⟨hslot, -⟩ := index_or_free hsmall k
      · exact absurd (hzero ▸ hn) (Nat.not_lt_zero n)
      · exact hslot
    rw [get_of_free hslot, Std.TreeMap.getD_eq_getD_getElem?, Std.TreeMap.getElem?_of_isEmpty hempty]
    rfl
  · intro hnil
    constructor
    · by_contra hsome
      exact h.last_ne_nil hsmall hsome (hnil _)
    · rw [Std.TreeMap.isEmpty_iff_forall_not_mem]
      intro k hk
      rw [Std.TreeMap.mem_iff_isSome_getElem?, Option.isSome_iff_exists] at hk
      obtain ⟨v, hv⟩ := hk
      have hv' := h.get_of_mem hsmall hv
      rw [hnil] at hv'
      exact h.solid k (hv' ▸ hv)

/-- The entries that are shown are those of the keys, as far as they are not nil. -/
theorem Valid.entries_eq (h : t.Valid) (hsmall : t.length ≤ capacity) :
    t.entries = (t.keys.filter fun k ↦ !(t.get k).isNil).map fun k ↦ (k.toValue, t.get k) := by
  have hhash (e : Key × Value) (he : e ∈ t.hash.toList) : t.get e.1 = e.2 ∧ e.2 ≠ .nil := by
    have hv := Std.TreeMap.mem_toList_iff_getElem?_eq_some.mp he
    refine ⟨h.get_of_mem hsmall hv, ?_⟩
    rintro hnil
    rw [hnil] at hv
    exact h.solid _ hv
  unfold entries keys
  dsimp only
  rw [List.filter_append, List.map_append]
  congr 1
  · have hzip : t.array.toList.zipIdx 1 =
        (List.range t.length).map fun n ↦ (t.get (indexKey (n + 1)), n + 1) := by
      apply List.ext_getElem (by simp [length])
      intro n hn hn'
      simp only [List.getElem_zipIdx, List.getElem_map, List.getElem_range, array_eq h hsmall]
      rw [Nat.add_comm]
    rw [hzip, List.filter_map, List.filter_map, List.map_map, List.map_map]
    rfl
  · rw [← Std.TreeMap.map_fst_toList_eq_keys, List.filter_map, List.map_map, List.filter_eq_self.mpr]
    · apply List.map_congr_left
      intro e he
      simp [hhash e he]
    · intro e he
      obtain ⟨hget, hsome⟩ := hhash e he
      simpa [hget, isNil_eq_false] using hsome

theorem length_entries (t : Table) :
    t.entries.length = t.entryCount := by
  unfold entries entryCount
  simp only [List.length_append, List.length_map, Std.TreeMap.length_toList]
  congr 1
  rw [← Array.countP_toList, ← List.countP_eq_length_filter, ← List.zipIdx_map_fst 1 t.array.toList,
    List.countP_map]
  simp [Function.comp_def]

end

/-- How a table changes: an entry is stored, or a value is put behind the last one, or a table of a
list takes its place. -/
inductive Change
  | set (key : Key) (value : Value)
  | push (value : Value)
  | ofList (values : List Value)

/-- A table with what was stored in it, the last first. -/
structure History where
  table : Table
  stores : List (Key × Value)

namespace History

def empty : History := ⟨.empty, []⟩

def store (h : History) (key : Key) (value : Value) : History :=
  ⟨h.table.set key value, (key, value) :: h.stores⟩

/-- What is put behind the last entry goes under the next index, and a list under those from one on. -/
def change (h : History) : Change → History
  | .set key value => ⟨h.table.set key value, (key, value) :: h.stores⟩
  | .push value => ⟨h.table.push value, (indexKey (h.table.length + 1), value) :: h.stores⟩
  | .ofList values =>
    ⟨.ofList values, ((values.zipIdx 1).map fun (v, i) ↦ (indexKey i, v)).reverse⟩

def of (changes : List Change) : History := changes.foldl change empty

/-- The value stored last under a key. -/
def last (h : History) (key : Key) : Value := (h.stores.lookup key).getD .nil

/-- The table holds what was stored. -/
structure Holds (h : History) : Prop where
  valid : h.table.Valid
  room : h.table.room ≤ h.stores.length
  get : ∀ k, h.table.get k = h.last k

variable {h : History}

theorem holds_empty : empty.Holds where
  valid := valid_empty
  room := Nat.le_refl 0
  get k := by
    have hslot : Table.empty.slot? k = none := by
      cases k <;> simp [slot?, Table.empty, length]
      omega
    rw [empty, get_of_free hslot]
    simp [Table.empty, last]

theorem Holds.set (hh : h.Holds) (hfew : h.stores.length + 1 < capacity) (k : Key) (v : Value) :
    Holds ⟨h.table.set k v, (k, v) :: h.stores⟩ := by
  have hroom := hh.room
  obtain ⟨hvalid, hmore, hget⟩ := hh.valid.sets (by omega) k v
  refine ⟨hvalid, hmore.trans (Nat.succ_le_succ hroom), fun q ↦ ?_⟩
  rw [hget, hh.get]
  unfold last
  rw [List.lookup_cons]
  by_cases hq : q = k
  · simp [hq]
  · rw [if_neg hq, beq_false_of_ne hq]

/-- Storing one value after the other, the next index each time. -/
theorem Holds.setAll (hh : h.Holds) (values : List Value) (start : Nat)
    (hfew : h.stores.length + values.length < capacity) :
    Holds ⟨(values.zipIdx start).foldl (fun t (v, i) ↦ t.set (indexKey i) v) h.table,
      ((values.zipIdx start).map fun (v, i) ↦ (indexKey i, v)).reverse ++ h.stores⟩ := by
  induction values generalizing h start with
  | nil => exact hh
  | cons v values ih =>
    rw [List.length_cons] at hfew
    have hall := ih (hh.set (by omega) (indexKey start) v) (start + 1) (by
      rw [List.length_cons]
      omega)
    simpa using hall

theorem holds_of (changes : List Change) (hfew : (of changes).stores.length < capacity) :
    (of changes).Holds := by
  induction changes using List.reverseRecOn with
  | nil => exact holds_empty
  | append_singleton changes c ih =>
    unfold of at hfew ih ⊢
    rw [List.foldl_append, List.foldl_cons, List.foldl_nil] at hfew ⊢
    cases c with
    | set k v => exact (ih (Nat.lt_of_succ_lt hfew)).set hfew k v
    | push v =>
      have hset := (ih (Nat.lt_of_succ_lt hfew)).set hfew (changes.foldl change empty).table.nextKey v
      unfold change push
      rw [nextKey_eq] at hset ⊢
      exact hset
    | ofList values =>
      have hfew : values.length < capacity := by
        simpa [change] using hfew
      have hall := holds_empty.setAll values 1 (by simpa [empty] using hfew)
      rw [empty, List.append_nil] at hall
      exact hall

end History

/-- Whatever was done to a table, it has under each key what was stored there last. It counts the
keys that have something, it is empty if there are none, its length is a border, and no key has two
places in it. A table never has more places than integer keys. -/
theorem table_holds_last (changes : List Change)
    (hfew : (History.of changes).stores.length < capacity) :
    let t := (History.of changes).table
    let last := (History.of changes).last
    (∀ k, t.get k = last k) ∧
      ({k | last k ≠ .nil}.Finite ∧ t.entryCount = {k | last k ≠ .nil}.ncard) ∧
      (t.isEmpty ↔ ∀ k, last k = .nil) ∧
      (t.length < capacity ∧ (t.length = 0 ∨ last (indexKey t.length) ≠ .nil) ∧
        last (indexKey (t.length + 1)) = .nil) ∧
      t.keys.Nodup ∧
      t.entries = (t.keys.filter fun k ↦ !(last k).isNil).map fun k ↦ (k.toValue, last k) := by
  intro t last
  obtain ⟨hvalid, hroom, hget⟩ := History.holds_of changes hfew
  have hget : t.get = last := funext hget
  have hlength : t.length < capacity := (Nat.le_add_right _ _).trans_lt (hroom.trans_lt hfew)
  have hnodup := hvalid.nodup_keys hlength.le
  have hentries := hvalid.entries_eq hlength.le
  have hset : {k | last k ≠ .nil} = (t.keys.filter fun k ↦ !(last k).isNil).toFinset := by
    ext k
    have hmem : last k ≠ .nil → k ∈ t.keys := by
      rw [← hget]
      exact mem_keys hlength.le
    simpa [isNil_eq_false] using hmem
  have hcount : t.entryCount = {k | last k ≠ .nil}.ncard := by
    rw [hset, Set.ncard_coe_finset, List.toFinset_card_of_nodup (hnodup.filter _), ← length_entries,
      hentries, List.length_map, ← hget]
  refine ⟨congrFun hget, ⟨?_, hcount⟩, ?_, ⟨hlength, ?_, ?_⟩, hnodup, ?_⟩
  · rw [hset]
    exact Finset.finite_toSet _
  · rw [← hget]
    exact hvalid.isEmpty_iff hlength.le
  · rw [← hget, or_iff_not_imp_left]
    exact hvalid.last_ne_nil hlength.le
  · rw [← hget, get_indexKey hlength.le hlength (hvalid.free (Nat.le_refl _))]
    simp [length, t]
  · rw [← hget]
    exact hentries

/-- A list with a hole that then shrinks past it, a key that waits in the map until the array part
reaches it, and one that does not. -/
def holes : List Change :=
  [.ofList [.int 1, .nil, .int 3], .set (indexKey 3) .nil, .set (indexKey 3) (.bool true), .push (.int 2),
    .set (.string 0) (.int 9)]

theorem table_holds_last_holes : (History.of holes).stores.length < capacity ∧
    (∀ k, (History.of holes).table.get k = (History.of holes).last k) ∧
    (History.of holes).table.length = 3 ∧ (History.of holes).table.entryCount = 4 := by
  have hfew : (History.of holes).stores.length < capacity := by decide
  exact ⟨hfew, (table_holds_last holes hfew).1, by decide, by decide⟩

end MiniLua.Table
