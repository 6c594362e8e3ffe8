import Mathlib.Data.List.Forall2
import Mathlib.Data.Option.Basic
import MiniLua.Memory.Table

/-! Tables that hold corresponding entries under corresponding keys, whatever the correspondence
of values is, as long as it pairs them one to one. -/

namespace MiniLua

theorem Key.toValue_injective {k k' : Key} (h : k.toValue = k'.toValue) : k = k' := by
  cases k <;> cases k' <;> simp_all [Key.toValue]

/-- A one-to-one correspondence of values under which `nil` and the integers are their own
partners. -/
structure Pairing (R : Value → Value → Prop) : Prop where
  nil : R .nil .nil
  int (i : Int64) : R (.int i) (.int i)
  unique {v w v' w' : Value} : R v w → R v' w' → (v = v' ↔ w = w')

namespace Pairing

variable {R : Value → Value → Prop} (hR : Pairing R)

include hR

theorem isNil {v w : Value} (h : R v w) : v.isNil = w.isNil := by
  have hnil := hR.unique h hR.nil
  cases v <;> cases w <;> simp_all [Value.isNil]

theorem int_iff {k k' : Key} (h : R k.toValue k'.toValue) (i : Int64) :
    k = .int i ↔ k' = .int i := by
  have hint := hR.unique h (hR.int i)
  cases k <;> cases k' <;> simp_all [Key.toValue]

theorem key_iff {k k' q q' : Key} (h : R k.toValue k'.toValue) (h' : R q.toValue q'.toValue) :
    k = q ↔ k' = q' := by
  have hiff := hR.unique h h'
  constructor
  · rintro rfl
    exact Key.toValue_injective (hiff.mp rfl)
  · rintro rfl
    exact Key.toValue_injective (hiff.mpr rfl)

end Pairing

section

variable {α β : Type} {R : α → β → Prop} {a : Option α} {b : Option β}

theorem rel_isSome (h : Option.Rel R a b) : a.isSome = b.isSome := by cases h <;> rfl

theorem rel_getD (h : Option.Rel R a b) {x : α} {y : β} (hxy : R x y) :
    R (a.getD x) (b.getD y) := by
  cases h with
  | none => exact hxy
  | some hab => exact hab

theorem map_eq_of_rel {γ : Type} {f : α → γ} {g : β → γ} (h : Option.Rel R a b)
    (hfg : ∀ x y, R x y → f x = g y) : a.map f = b.map g := by
  cases h with
  | none => rfl
  | some hab => exact congrArg some (hfg _ _ hab)

theorem rel_map {γ δ : Type} {S : γ → δ → Prop} {f : α → γ} {g : β → δ} (h : Option.Rel R a b)
    (hfg : ∀ x y, R x y → S (f x) (g y)) : Option.Rel S (a.map f) (b.map g) := by
  cases h with
  | none => exact .none
  | some hab => exact .some (hfg _ _ hab)

end

theorem forall₂_getElem? {α β : Type} {R : α → β → Prop} {as : List α} {bs : List β}
    (h : List.Forall₂ R as bs) (i : Nat) : Option.Rel R as[i]? bs[i]? := by
  induction h generalizing i with
  | nil => exact .none
  | cons hab _ ih =>
    cases i with
    | zero => exact .some hab
    | succ i => exact ih i

theorem forall₂_set {α β : Type} {R : α → β → Prop} {as : List α} {bs : List β}
    (h : List.Forall₂ R as bs) (n : Nat) {a : α} {b : β} (hab : R a b) :
    List.Forall₂ R (as.set n a) (bs.set n b) := by
  induction h generalizing n with
  | nil => exact .nil
  | cons hcd hrest ih =>
    cases n with
    | zero => exact .cons hab hrest
    | succ n => exact .cons hcd (ih n)

theorem forall₂_modify {α β : Type} {R : α → β → Prop} {as : List α} {bs : List β}
    (h : List.Forall₂ R as bs) (n : Nat) {f : α → α} {g : β → β}
    (hfg : ∀ a b, R a b → R (f a) (g b)) : List.Forall₂ R (as.modify n f) (bs.modify n g) := by
  induction h generalizing n with
  | nil => simp
  | cons hab hrest ih =>
    cases n with
    | zero => exact .cons (hfg _ _ hab) hrest
    | succ n => exact .cons hab (ih n)

theorem forall₂_dropLast {α β : Type} {R : α → β → Prop} {as : List α} {bs : List β}
    (h : List.Forall₂ R as bs) : List.Forall₂ R as.dropLast bs.dropLast := by
  rw [List.dropLast_eq_take, List.dropLast_eq_take, h.length_eq]
  exact List.forall₂_take _ h

theorem forall₂_extract {α β : Type} {R : α → β → Prop} {as : Array α} {bs : Array β}
    (h : List.Forall₂ R as.toList bs.toList) (i j : Nat) :
    List.Forall₂ R (as.extract i j).toList (bs.extract i j).toList := by
  rw [Array.toList_extract, Array.toList_extract]
  exact List.forall₂_take _ (List.forall₂_drop _ h)

theorem forall₂_shrink {α β : Type} {R : α → β → Prop} {as : Array α} {bs : Array β}
    (h : List.Forall₂ R as.toList bs.toList) (size : Nat) :
    List.Forall₂ R (as.shrink size).toList (bs.shrink size).toList := by
  rw [Array.shrink_eq_take, Array.shrink_eq_take, Array.take_eq_extract, Array.take_eq_extract]
  exact forall₂_extract h 0 size

namespace Table

theorem forall₂_trimmed {R : Value → Value → Prop} (hR : Pairing R) {vs ws : Array Value}
    (h : List.Forall₂ R vs.toList ws.toList) :
    List.Forall₂ R (trimmed vs).toList (trimmed ws).toList := by
  have htrim (xs : Array Value) :
      (trimmed xs).toList = (xs.toList.reverse.dropWhile Value.isNil).reverse := by
    rw [trimmed, ← @Array.toArray_toList _ xs, List.popWhile_toArray]
  have hdrop : ∀ {as bs : List Value}, List.Forall₂ R as bs →
      List.Forall₂ R (as.dropWhile Value.isNil) (bs.dropWhile Value.isNil) := by
    intro as bs hab
    induction hab with
    | nil => exact .nil
    | cons hvw hrest ih =>
      simp only [List.dropWhile_cons, hR.isNil hvw]
      split
      · exact ih
      · exact .cons hvw hrest
  rw [htrim, htrim]
  exact List.rel_reverse (hdrop (List.rel_reverse h))

/-- Every entry has a partner in the other table, under a partner of its key. -/
structure Twins (R : Value → Value → Prop) (t t' : Table) : Prop where
  array : List.Forall₂ R t.array.toList t'.array.toList
  size : t.hash.size = t'.hash.size
  forth : ∀ (k : Key) (v : Value), t.hash[k]? = some v →
    ∃ (k' : Key) (v' : Value), R k.toValue k'.toValue ∧ R v v' ∧ t'.hash[k']? = some v'
  back : ∀ (k' : Key) (v' : Value), t'.hash[k']? = some v' →
    ∃ (k : Key) (v : Value), R k.toValue k'.toValue ∧ R v v' ∧ t.hash[k]? = some v

theorem twins_empty (R : Value → Value → Prop) : empty.Twins R empty where
  array := .nil
  size := rfl
  forth k v h := by simp [empty] at h
  back k v h := by simp [empty] at h

namespace Twins

variable {R : Value → Value → Prop} {t t' : Table} (h : t.Twins R t')

include h

theorem mono {S : Value → Value → Prop} (hRS : ∀ v w, R v w → S v w) : t.Twins S t' where
  array := h.array.imp hRS
  size := h.size
  forth k v hk := by
    obtain ⟨k', v', hkey, hv, hk'⟩ := h.forth k v hk
    exact ⟨k', v', hRS _ _ hkey, hRS _ _ hv, hk'⟩
  back k' v' hk' := by
    obtain ⟨k, v, hkey, hv, hk⟩ := h.back k' v' hk'
    exact ⟨k, v, hRS _ _ hkey, hRS _ _ hv, hk⟩

theorem length : t.length = t'.length := by
  have hlength := h.array.length_eq
  simpa [Table.length] using hlength

theorem nextKey : t.nextKey = t'.nextKey := by rw [Table.nextKey, Table.nextKey, h.length]

variable (hR : Pairing R)

include hR

theorem lookup {k k' : Key} (hk : R k.toValue k'.toValue) :
    Option.Rel R t.hash[k]? t'.hash[k']? := by
  cases hv : t.hash[k]? with
  | some v =>
    obtain ⟨q, v', hq, hvv', hq'⟩ := h.forth k v hv
    obtain rfl := (hR.key_iff hk hq).mp rfl
    rw [hq']
    exact .some hvv'
  | none =>
    cases hv' : t'.hash[k']? with
    | none => exact .none
    | some v' =>
      obtain ⟨q, v, hq, -, hq'⟩ := h.back k' v' hv'
      obtain rfl := (hR.key_iff hk hq).mpr rfl
      rw [hv] at hq'
      cases hq'

theorem slot? {k k' : Key} (hk : R k.toValue k'.toValue) : t.slot? k = t'.slot? k' := by
  cases k with
  | int i =>
    obtain rfl := (hR.int_iff hk i).mp rfl
    simp only [Table.slot?, h.length]
  | bool | float | string | table | closure | native =>
    cases k' with
    | int i => cases (hR.int_iff hk i).mpr rfl
    | bool | float | string | table | closure | native => rfl

theorem get {k k' : Key} (hk : R k.toValue k'.toValue) : R (t.get k) (t'.get k') := by
  unfold Table.get
  rw [← h.slot? hR hk]
  cases t.slot? k with
  | some n =>
    have hentry := forall₂_getElem? h.array n
    simp only [Array.getElem?_toList] at hentry
    simp only [Array.getD_eq_getD_getElem?]
    exact rel_getD hentry hR.nil
  | none =>
    simp only [Std.TreeMap.getD_eq_getD_getElem?]
    exact rel_getD (h.lookup hR hk) hR.nil

theorem getValue {v w : Value} (hkey : Option.Rel (fun k k' : Key ↦ R k.toValue k'.toValue)
    (Key.ofValue? v) (Key.ofValue? w)) : R (t.getValue v) (t'.getValue w) := by
  unfold Table.getValue
  generalize Key.ofValue? v = k, Key.ofValue? w = k' at hkey
  cases hkey with
  | none => exact hR.nil
  | some hk => exact h.get hR hk

theorem contains {k k' : Key} (hk : R k.toValue k'.toValue) :
    t.hash.contains k = t'.hash.contains k' := by
  rw [Std.TreeMap.contains_eq_isSome_getElem?, Std.TreeMap.contains_eq_isSome_getElem?]
  exact rel_isSome (h.lookup hR hk)

theorem erase {k k' : Key} (hk : R k.toValue k'.toValue) :
    Twins R ⟨t.array, t.hash.erase k⟩ ⟨t'.array, t'.hash.erase k'⟩ where
  array := h.array
  size := by
    have hmem := h.contains hR hk
    simp only [Std.TreeMap.size_erase, h.size, hmem]
  forth q v hq := by
    dsimp only at hq ⊢
    rw [Std.TreeMap.getElem?_erase] at hq
    split at hq
    · cases hq
    · next hne =>
      obtain ⟨q', v', hqq', hv, hq'⟩ := h.forth q v hq
      refine ⟨q', v', hqq', hv, ?_⟩
      rw [Std.TreeMap.getElem?_erase, if_neg, hq']
      rw [Std.LawfulEqCmp.compare_eq_iff_eq] at hne ⊢
      rwa [← hR.key_iff hk hqq']
  back q' v' hq' := by
    dsimp only at hq' ⊢
    rw [Std.TreeMap.getElem?_erase] at hq'
    split at hq'
    · cases hq'
    · next hne =>
      obtain ⟨q, v, hqq', hv, hq⟩ := h.back q' v' hq'
      refine ⟨q, v, hqq', hv, ?_⟩
      rw [Std.TreeMap.getElem?_erase, if_neg, hq]
      rw [Std.LawfulEqCmp.compare_eq_iff_eq] at hne ⊢
      rwa [hR.key_iff hk hqq']

theorem insert {k k' : Key} (hk : R k.toValue k'.toValue) {v v' : Value} (hv : R v v') :
    Twins R ⟨t.array, t.hash.insert k v⟩ ⟨t'.array, t'.hash.insert k' v'⟩ where
  array := h.array
  size := by
    have hmem := h.contains hR hk
    simp only [Std.TreeMap.size_insert, h.size, hmem]
  forth q w hq := by
    dsimp only at hq ⊢
    rw [Std.TreeMap.getElem?_insert] at hq
    split at hq
    · next heq =>
      obtain rfl := Std.LawfulEqCmp.eq_of_compare heq
      cases hq
      exact ⟨k', v', hk, hv, by simp⟩
    · next hne =>
      obtain ⟨q', w', hqq', hw, hq'⟩ := h.forth q w hq
      refine ⟨q', w', hqq', hw, ?_⟩
      rw [Std.TreeMap.getElem?_insert, if_neg, hq']
      rw [Std.LawfulEqCmp.compare_eq_iff_eq] at hne ⊢
      rwa [← hR.key_iff hk hqq']
  back q' w' hq' := by
    dsimp only at hq' ⊢
    rw [Std.TreeMap.getElem?_insert] at hq'
    split at hq'
    · next heq =>
      obtain rfl := Std.LawfulEqCmp.eq_of_compare heq
      cases hq'
      exact ⟨k, v, hk, hv, by simp⟩
    · next hne =>
      obtain ⟨q, w, hqq', hw, hq⟩ := h.back q' w' hq'
      refine ⟨q, w, hqq', hw, ?_⟩
      rw [Std.TreeMap.getElem?_insert, if_neg, hq]
      rw [Std.LawfulEqCmp.compare_eq_iff_eq] at hne ⊢
      rwa [hR.key_iff hk hqq']

omit hR in
theorem append {v v' : Value} (hv : R v v') :
    Twins R ⟨t.array.push v, t.hash⟩ ⟨t'.array.push v', t'.hash⟩ where
  array := by
    simp only [Array.toList_push]
    exact List.rel_append h.array (.cons hv .nil)
  size := h.size
  forth := h.forth
  back := h.back

theorem absorb (bound : Nat) : (t.absorb bound).Twins R (t'.absorb bound) := by
  induction bound generalizing t t' with
  | zero => exact h
  | succ bound ih =>
    have hkey : R t.nextKey.toValue t'.nextKey.toValue := by
      rw [h.nextKey]
      exact hR.int _
    have hentry := h.lookup hR hkey
    simp only [Table.absorb]
    cases hv : t.hash[t.nextKey]? with
    | none =>
      rw [hv] at hentry
      cases hv' : t'.hash[t'.nextKey]? with
      | none => exact h
      | some v' =>
        rw [hv'] at hentry
        cases hentry
    | some v =>
      rw [hv] at hentry
      cases hv' : t'.hash[t'.nextKey]? with
      | none =>
        rw [hv'] at hentry
        cases hentry
      | some v' =>
        rw [hv'] at hentry
        cases hentry with
        | some hvv' => exact ih ((h.append hvv').erase hR hkey)

theorem setSlot (n : Nat) {v v' : Value} (hv : R v v') :
    (t.setSlot n v).Twins R (t'.setSlot n v') := by
  have harray : List.Forall₂ R (t.array.setIfInBounds n v).toList
      (t'.array.setIfInBounds n v').toList := by
    rw [Array.toList_setIfInBounds, Array.toList_setIfInBounds]
    exact forall₂_set h.array n hv
  unfold Table.setSlot
  rw [hR.isNil hv, h.length]
  dsimp only
  split
  · refine ⟨?_, h.size, h.forth, h.back⟩
    exact forall₂_trimmed hR harray
  · exact ⟨harray, h.size, h.forth, h.back⟩

theorem set {k k' : Key} (hk : R k.toValue k'.toValue) {v v' : Value} (hv : R v v') :
    (t.set k v).Twins R (t'.set k' v') := by
  unfold Table.set
  rw [← h.slot? hR hk, hR.isNil hv]
  cases t.slot? k with
  | some n => exact h.setSlot hR n hv
  | none =>
    have hkey : R t.nextKey.toValue t'.nextKey.toValue := by
      rw [h.nextKey]
      exact hR.int _
    simp only [hR.key_iff hk hkey, h.size]
    split
    · exact h.erase hR hk
    · split
      · exact ((h.append hv).erase hR hk).absorb hR _
      · exact h.insert hR hk hv

theorem setAll {vs vs' : List Value} (hvs : List.Forall₂ R vs vs') (start : Nat) :
    ((vs.zipIdx start).foldl (fun t (v, i) ↦ t.set (.int (Int64.ofNat i)) v) t).Twins R
      ((vs'.zipIdx start).foldl (fun t (v, i) ↦ t.set (.int (Int64.ofNat i)) v) t') := by
  induction hvs generalizing t t' start with
  | nil => exact h
  | cons hv _ ih =>
    have hkey : R (Key.int (Int64.ofNat start)).toValue (Key.int (Int64.ofNat start)).toValue :=
      hR.int _
    exact ih (h.set hR hkey hv) (start + 1)

end Twins

end Table

end MiniLua
