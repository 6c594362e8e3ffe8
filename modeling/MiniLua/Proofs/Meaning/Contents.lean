import MiniLua.Proofs.Meaning.Pairs
import MiniLua.Proofs.Memory.Entries

/-!
What a heap holds, whatever numbers its strings have: the contents of variables and the entries of
tables. A store changes what lies at one address.
-/

namespace MiniLua

/-- A value, but a text by its bytes. -/
inductive Datum
  | text (bytes : Bytes)
  | value (v : Value)

/-- A key, but a text by its bytes. -/
inductive Label
  | text (bytes : Bytes)
  | key (k : Key)

/-- A variable, or an entry of a table. -/
inductive Address
  | cell (i : Nat)
  | entry (table : Nat) (label : Label)

def Datum.label? : Datum → Option Label
  | .text bytes => some (.text bytes)
  | .value v => (Key.ofValue? v).map .key

namespace Heap

def datum? (h : Heap) : Value → Option Datum
  | .string i => (h.bytes? i).map .text
  | v => some (.value v)

/-- The key with this label. A text that is not in the pool is nowhere a key. -/
def find? (h : Heap) : Label → Option Key
  | .text bytes => (h.strings.find? bytes).map .string
  | .key (.string _) => none
  | .key k => some k

/-- What lies at an address, if there is such a variable or table. -/
def content? (h : Heap) : Address → Option Datum
  | .cell i => h.cells[i]?.bind h.datum?
  | .entry t label =>
    h.tables[t]?.bind fun table ↦ h.datum? (((h.find? label).map table.get).getD .nil)

/-- The texts that are keys of tables are in the pool, each under one number. -/
structure Sane (h : Heap) : Prop where
  exact : h.strings.Exact
  known {t : Nat} {table : Table} {i : Nat} : h.tables[t]? = some table →
    table.get (.string i) ≠ .nil → ∃ bytes, h.bytes? i = some bytes

/-- A later heap, with the same contents but at these addresses. -/
structure AgreesOff (A : Set Address) (h k : Heap) : Prop where
  bytes {i : Nat} {s : Bytes} : h.bytes? i = some s → k.bytes? i = some s
  closures {i : Nat} {c : Closure} : h.closures[i]? = some c → k.closures[i]? = some c
  content {a : Address} {d : Datum} : a ∉ A → h.content? a = some d → k.content? a = some d

/-- A later heap in which nothing was stored: there may only be more. -/
structure Widens (h k : Heap) : Prop where
  bytes {i : Nat} {s : Bytes} : h.bytes? i = some s → k.bytes? i = some s
  closures {i : Nat} {c : Closure} : h.closures[i]? = some c → k.closures[i]? = some c
  cells {i : Nat} {v : Value} : h.cells[i]? = some v → k.cells[i]? = some v
  tables {t : Nat} {table : Table} : h.tables[t]? = some table → k.tables[t]? = some table
  sane : k.Sane

/-- The first `n` tables are as tables are, and have room for `m` entries more. -/
def Roomy (n m : Nat) (h : Heap) : Prop :=
  ∀ t < n, ∃ table, h.tables[t]? = some table ∧ table.Valid ∧ table.room + m < Table.capacity

variable {h k l : Heap} {A B : Set Address} {a : Address} {d : Datum} {v : Value}

/-- Heaps that correspond to others are sane. -/
theorem Twins.sane {n : Nat} (hh : h.Twins n k) : h.Sane where
  exact := hh.exact
  known {t table i} ht hi := by
    have hrel := hh.table t
    rw [ht] at hrel
    generalize k.tables[t]? = other at hrel
    cases hrel with
    | some htable =>
      rw [Table.get_of_free rfl, Std.TreeMap.getD_eq_getD_getElem?] at hi
      cases hv : table.hash[Key.string i]? with
      | none => simp [hv] at hi
      | some v =>
        obtain ⟨key, _, hkey, -⟩ := htable.forth _ _ hv
        cases key <;> cases hkey
        exact ⟨_, ‹_›⟩

namespace AgreesOff

theorem refl (A : Set Address) (h : Heap) : h.AgreesOff A h := ⟨id, id, fun _ ↦ id⟩

theorem mono (hhk : h.AgreesOff A k) (hAB : A ⊆ B) : h.AgreesOff B k :=
  ⟨hhk.bytes, hhk.closures, fun ha ↦ hhk.content fun hA ↦ ha (hAB hA)⟩

theorem trans (hhk : h.AgreesOff A k) (hkl : k.AgreesOff B l) : h.AgreesOff (A ∪ B) l :=
  ⟨fun hs ↦ hkl.bytes (hhk.bytes hs), fun hc ↦ hkl.closures (hhk.closures hc), fun ha hd ↦
    hkl.content (fun hB ↦ ha (.inr hB)) (hhk.content (fun hA ↦ ha (.inl hA)) hd)⟩

end AgreesOff

namespace Widens

theorem refl (hh : h.Sane) : h.Widens h := ⟨id, id, id, id, hh⟩

theorem trans (hhk : h.Widens k) (hkl : k.Widens l) : h.Widens l :=
  ⟨fun hs ↦ hkl.bytes (hhk.bytes hs), fun hc ↦ hkl.closures (hhk.closures hc),
    fun hv ↦ hkl.cells (hhk.cells hv), fun ht ↦ hkl.tables (hhk.tables ht), hkl.sane⟩

theorem roomy {n m : Nat} (hhk : h.Widens k) (hroomy : h.Roomy n m) : k.Roomy n m := by
  intro t ht
  obtain ⟨table, htable, hroom⟩ := hroomy t ht
  exact ⟨table, hhk.tables htable, hroom⟩

theorem intern (hh : h.Sane) (s : Bytes) : h.Widens (h.intern s).2 where
  bytes hi := StringPool.get?_intern hi s
  closures := id
  cells := id
  tables := id
  sane := by
    refine ⟨hh.exact.intern s, fun ht hi ↦ ?_⟩
    obtain ⟨bytes, hbytes⟩ := hh.known ht hi
    exact ⟨bytes, StringPool.get?_intern hbytes s⟩

end Widens

/-- Values that correspond are the same datum. -/
theorem Matches.datum? {n : Nat} {v v' : Value} (hv : h.Matches n k v v') :
    h.datum? v = k.datum? v' := by
  cases hv with
  | string hi hj => rw [Heap.datum?, Heap.datum?, hi, hj]
  | nil | bool | int | float | table | closure | native => rfl

theorem find?_string (hh : h.strings.Exact) {label : Label} {i : Nat} :
    h.find? label = some (.string i) ↔ ∃ s, h.bytes? i = some s ∧ label = .text s := by
  cases label with
  | text s =>
    simp only [find?, Option.map_eq_some_iff, Key.string.injEq, exists_eq_right, hh s i,
      Label.text.injEq, exists_eq_right']
    rfl
  | key key =>
    cases key with
    | string | bool | int | float | table | closure | native => simp [find?]

theorem find?_other {label : Label} {key : Key} (hkey : ∀ i, key ≠ .string i) :
    h.find? label = some key ↔ label = .key key := by
  cases label with
  | text s =>
    simp only [find?, Option.map_eq_some_iff, reduceCtorEq, iff_false, not_exists, not_and]
    exact fun i _ heq ↦ hkey i heq.symm
  | key key' =>
    cases key' with
    | string i =>
      simp only [find?, reduceCtorEq, false_iff]
      exact fun heq ↦ hkey i (Label.key.inj heq).symm
    | bool | int | float | table | closure | native => simp [find?]

/-- Keys that correspond have the same label. -/
theorem Twins.find?_iff {n : Nat} (hh : h.Twins n k) {key key' : Key} {label : Label}
    (hkeys : h.Matches n k key.toValue key'.toValue) :
    h.find? label = some key ↔ k.find? label = some key' := by
  cases key <;> cases key' <;> cases hkeys
  case string.string i j s hi hj =>
    rw [find?_string hh.exact, find?_string hh.exact', hi, hj]
  all_goals rw [find?_other (by simp), find?_other (by simp)]

end Heap

/-- What a table has an entry under is an index, or it is in the map. -/
theorem Table.int_or_mem {t : Table} {key : Key} (h : t.get key ≠ .nil) :
    (∃ i, key = .int i) ∨ ∃ v, t.hash[key]? = some v := by
  by_cases hint : ∃ i, key = .int i
  · exact .inl hint
  · have hfree : t.slot? key = none := by
      cases key with
      | int i => exact absurd ⟨i, rfl⟩ hint
      | bool | float | string | table | closure | native => rfl
    rw [get_of_free hfree, Std.TreeMap.getD_eq_getD_getElem?] at h
    cases hv : t.hash[key]? with
    | some v => exact .inr ⟨v, rfl⟩
    | none => simp [hv] at h

namespace Heap

variable {h k : Heap} {n : Nat}

/-- What a table has under a label, nil if that is nowhere a key. -/
def under (h : Heap) (table : Table) (label : Label) : Value :=
  ((h.find? label).map table.get).getD .nil

theorem exists_of_under {table : Table} {label : Label} (hne : h.under table label ≠ .nil) :
    ∃ key, h.find? label = some key ∧ table.get key ≠ .nil := by
  rw [under] at hne
  cases hkey : h.find? label with
  | none => simp [hkey] at hne
  | some key => exact ⟨key, rfl, by simpa [hkey] using hne⟩

/-- Tables that correspond have under each label what corresponds. -/
theorem Twins.matches_under (hh : h.Twins n k) {table table' : Table}
    (htable : table.Twins (h.Matches n k) table') (label : Label) :
    h.Matches n k (h.under table label) (k.under table' label) := by
  by_cases hkeys : ∃ key key' : Key, h.find? label = some key ∧ h.Matches n k key.toValue key'.toValue
  · obtain ⟨key, key', hkey, hmatches⟩ := hkeys
    rw [under, under, hkey, (hh.find?_iff hmatches).mp hkey]
    exact htable.get hh.pairing hmatches
  · have hnone {key key' : Key} (hkey : h.find? label = some key)
        (hmatches : h.Matches n k key.toValue key'.toValue) : False :=
      hkeys ⟨key, key', hkey, hmatches⟩
    have hleft : h.under table label = .nil := by
      by_contra hne
      obtain ⟨key, hkey, hget⟩ := exists_of_under hne
      obtain ⟨i, rfl⟩ | ⟨v, hv⟩ := Table.int_or_mem hget
      · have hmatches : h.Matches n k (Key.int i).toValue (Key.int i).toValue := .int i
        exact hnone hkey hmatches
      · obtain ⟨key', _, hmatches, -⟩ := htable.forth _ _ hv
        exact hnone hkey hmatches
    have hright : k.under table' label = .nil := by
      by_contra hne
      obtain ⟨key, hkey, hget⟩ := exists_of_under hne
      obtain ⟨i, rfl⟩ | ⟨v, hv⟩ := Table.int_or_mem hget
      · have hmatches : h.Matches n k (Key.int i).toValue (Key.int i).toValue := .int i
        exact hnone ((hh.find?_iff hmatches).mpr hkey) hmatches
      · obtain ⟨key', _, hmatches, -⟩ := htable.back _ _ hv
        exact hnone ((hh.find?_iff hmatches).mpr hkey) hmatches
    rw [hleft, hright]
    exact .nil

/-- Heaps that correspond have the same contents. -/
theorem Pairs.content? (hh : h.Pairs n k) (a : Address) : h.content? a = k.content? a := by
  cases a with
  | cell i =>
    have hrel := forall₂_getElem? hh.cells i
    rw [Array.getElem?_toList, Array.getElem?_toList] at hrel
    rw [Heap.content?, Heap.content?]
    generalize h.cells[i]? = v, k.cells[i]? = v' at hrel
    cases hrel with
    | none => rfl
    | some hv => exact hv.datum?
  | entry t label =>
    have hrel := hh.table t
    rw [Heap.content?, Heap.content?]
    generalize h.tables[t]? = table, k.tables[t]? = table' at hrel
    cases hrel with
    | none => rfl
    | some htable => exact (hh.matches_under htable label).datum?

end Heap

end MiniLua
