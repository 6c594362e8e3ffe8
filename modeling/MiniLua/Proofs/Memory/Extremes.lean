import MiniLua.Library.Math
import MiniLua.Proofs.Effects
import MiniLua.Proofs.Memory.Comparison

/-!
The largest and the smallest of a list of numbers. A fold that looks at two numbers at a time finds
them although the order is not one of values: a float can be equal to two integers that differ, and
a fold that went over to such a float does not see which of the integers it came from.
-/

namespace MiniLua

open Effects

namespace Heap

variable {h : Heap} {a b m : Value} {vs rest : List Value}

section

variable (ha : a.HasPlace) (hb : b.HasPlace)

include ha hb

theorem comparable_of_places : h.Comparable [a, b] := by
  refine .inl fun v hv ↦ ?_
  simp only [List.mem_cons, List.not_mem_nil, or_false] at hv
  rcases hv with rfl | rfl
  · exact ha
  · exact hb

/-- Numbers are compared without a look at the heap. -/
theorem compare_of_places :
    Operators.lessThan h a b = .ok (h.order a b).isLT ∧ a.equal b = (h.order a b).isEq := by
  have hempty := compare_of_comparable StringPool.exact_empty (comparable_of_places (h := .empty) ha hb)
  cases a <;> cases b <;> first
    | exact ha.elim
    | exact hb.elim
    | exact ⟨hempty.1, hempty.2.2⟩

theorem place_eq_of_order (heq : h.order a b = .eq) : a.place = b.place := by
  by_cases hints : AreInts a b
  · obtain ⟨i, j, rfl, rfl⟩ := hints
    rw [Int64.toInt_inj.mp (Int.compare_eq_eq.mp heq)]
  · rwa [order_of_mixed ha hb hints, Int.compare_eq_eq] at heq

theorem place_le_of_not_order (hge : h.order b a ≠ .lt) : a.place ≤ b.place := by
  rw [order_swap (comparable_of_places ha hb)] at hge
  cases hab : h.order a b with
  | lt => exact place_le_of_order ha hb hab
  | eq => exact Int.le_of_eq (place_eq_of_order ha hb hab)
  | gt =>
    rw [hab] at hge
    exact absurd rfl hge

/-- Numbers in one place that are not equal are integers. -/
theorem ints_of_place_eq (hlt : h.order a b = .lt) (hplace : a.place = b.place) :
    ∃ i j : Int64, a = .int i ∧ b = .int j ∧ i < j := by
  by_cases hints : AreInts a b
  · obtain ⟨i, j, rfl, rfl⟩ := hints
    exact ⟨i, j, rfl, rfl, Int64.lt_iff_toInt_lt.mpr (Int.compare_eq_lt.mp hlt)⟩
  · exact absurd hplace (Int.ne_of_lt (place_lt_of_order ha hb hints hlt))

end

end Heap

namespace Value

/-- Two integers, the smaller one first, that one of the values, a float, is equal to. -/
def Blurred (vs : List Value) (a b : Value) : Prop :=
  ∃ i j bits, a = .int i ∧ b = .int j ∧ i < j ∧ .float bits ∈ vs ∧
    (int i).equal (.float bits) = true ∧ (int j).equal (.float bits) = true

variable {vs ws : List Value} {a b : Value} {i j : Int64} {bits : UInt64}

theorem Blurred.mono (h : Blurred vs a b) (hsub : vs ⊆ ws) : Blurred ws a b := by
  obtain ⟨i, j, bits, ha, hb, hij, hmem, hequal⟩ := h
  exact ⟨i, j, bits, ha, hb, hij, hsub hmem, hequal⟩

theorem equal_float_iff (hbits : HasPlace (.float bits)) :
    (int i).equal (.float bits) = true ↔ (int i).place = (float bits).place := by
  have hmixed : ¬ Heap.AreInts (.int i) (.float bits) := by
    rintro ⟨i, j, -, hj⟩
    cases hj
  have hi : HasPlace (.int i) := trivial
  rw [(Heap.compare_of_places (h := .empty) hi hbits).2, Heap.order_of_mixed hi hbits hmixed,
    Ordering.isEq_iff_eq_eq, Int.compare_eq_eq]

theorem blurred_of_place (hij : i < j) (hmem : .float bits ∈ vs) (hbits : HasPlace (.float bits))
    (hi : (int i).place = (float bits).place) (hj : (int j).place = (float bits).place) :
    Blurred vs (.int i) (.int j) :=
  ⟨i, j, bits, rfl, rfl, hij, hmem, (equal_float_iff hbits).mpr hi, (equal_float_iff hbits).mpr hj⟩

/-- The float between two integers lies in the place of both. -/
theorem Blurred.place (h : Blurred vs a b) (hnum : ∀ v ∈ vs, v.HasPlace) :
    a.place = b.place ∧ ∃ i bits, a = .int i ∧ .float bits ∈ vs ∧ a.place = (float bits).place := by
  obtain ⟨i, j, bits, rfl, rfl, -, hmem, hi, hj⟩ := h
  rw [equal_float_iff (hnum _ hmem)] at hi hj
  exact ⟨hi.trans hj.symm, i, bits, rfl, hmem, hi⟩

/-- At least one of the two is beyond 2 ^ 53. -/
theorem Blurred.wide (h : Blurred vs (.int i) (.int j)) :
    2 ^ 53 < i.toInt.natAbs ∨ 2 ^ 53 < j.toInt.natAbs := by
  obtain ⟨_, _, bits, ⟨⟩, ⟨⟩, hij, -, hi, hj⟩ := h
  refine Heap.wide_of_equal hi ?_ fun heq ↦ ?_
  · rw [← hj]
    rfl
  · exact Int64.lt_irrefl (heq ▸ hij)

end Value

namespace Heap

open Value

variable {h : Heap} {a b m : Value} {vs rest : List Value}

/-! ### The largest -/

/-- The last of the values that no other is greater than. -/
structure Largest (h : Heap) (vs : List Value) (m : Value) : Prop where
  last : ∃ front back, vs = front ++ m :: back ∧ ∀ a ∈ back, h.order a m = .lt
  top : ∀ a ∈ vs, h.order m a = .lt → Blurred vs m a

theorem Largest.mem (hm : h.Largest vs m) : m ∈ vs := by
  obtain ⟨front, back, rfl, -⟩ := hm.last
  simp

theorem largest_singleton (hnum : m.HasPlace) : h.Largest [m] m where
  last := ⟨[], [], rfl, nofun⟩
  top a ha hlt := by
    obtain rfl := List.mem_singleton.mp ha
    rw [order_self ((comparable_of_places hnum hnum).mono (by simp))] at hlt
    cases hlt

/-- A number that is not below the largest so far is below another only if a float hides it. -/
theorem Largest.blurred_of_lt (hm : h.Largest vs m) (hnum : ∀ v ∈ vs, v.HasPlace) (hb : b.HasPlace)
    (hge : h.order b m ≠ .lt) (ha : a ∈ vs) (hlt : h.order b a = .lt) : Blurred vs b a := by
  have hplaceA : a.HasPlace := hnum a ha
  have hplaceM : m.HasPlace := hnum m hm.mem
  have hmb : m.place ≤ b.place := place_le_of_not_order hplaceM hb hge
  have hba : b.place ≤ a.place := place_le_of_order hb hplaceA hlt
  -- what lies above the largest lies in its place
  have hsame (hma : h.order m a = .lt) : m.place = a.place := ((hm.top a ha hma).place hnum).1
  have hplace : b.place = a.place := by
    refine Int.le_antisymm hba (Int.not_lt.mp fun hlt' ↦ ?_)
    have hma : m.place < a.place := Int.lt_of_le_of_lt hmb hlt'
    exact absurd (hsame (order_of_place_lt hplaceM hplaceA hma)) (Int.ne_of_lt hma)
  obtain ⟨i, j, rfl, rfl, hij⟩ := ints_of_place_eq hb hplaceA hlt hplace
  cases m with
  | int k =>
    have hki : k ≤ i := by
      rw [Int64.le_iff_toInt_le, ← Int.not_lt]
      exact fun hik ↦ hge (Int.compare_eq_lt.mpr hik)
    have hma : h.order (.int k) (.int j) = .lt :=
      Int.compare_eq_lt.mpr (Int64.lt_iff_toInt_lt.mp (Int64.lt_of_le_of_lt hki hij))
    obtain ⟨hkj, -, bits, -, hmem, hbits⟩ := (hm.top _ ha hma).place hnum
    exact blurred_of_place hij hmem (hnum _ hmem) (hplace.trans (hkj.symm.trans hbits))
      (hkj.symm.trans hbits)
  | float bits =>
    have hbits : (float bits).place = (int j).place := by
      refine Int.le_antisymm (hmb.trans hba) (Int.not_lt.mp fun hlt' ↦ ?_)
      have hma := order_of_place_lt (h := h) hplaceM hplaceA hlt'
      exact absurd (hsame hma) (Int.ne_of_lt hlt')
    exact blurred_of_place hij hm.mem hplaceM (hplace.trans hbits.symm) hbits.symm
  | _ => exact hplaceM.elim

theorem Largest.step (hm : h.Largest vs m) (hnum : ∀ v ∈ vs, v.HasPlace) (hb : b.HasPlace) :
    h.Largest (vs ++ [b]) (if h.order b m = .lt then m else b) := by
  have hsub : vs ⊆ vs ++ [b] := List.subset_append_left vs [b]
  have hplaceM : m.HasPlace := hnum m hm.mem
  split
  · next hlt =>
    refine ⟨?_, fun a ha hma ↦ ?_⟩
    · obtain ⟨front, back, rfl, hback⟩ := hm.last
      refine ⟨front, back ++ [b], by simp, fun a ha ↦ ?_⟩
      rcases List.mem_append.mp ha with ha | ha
      · exact hback a ha
      · rwa [List.mem_singleton.mp ha]
    · rcases List.mem_append.mp ha with ha | ha
      · exact (hm.top a ha hma).mono hsub
      · obtain rfl := List.mem_singleton.mp ha
        rw [order_swap (comparable_of_places hb hplaceM), hlt] at hma
        cases hma
  · next hge =>
    refine ⟨⟨vs, [], rfl, nofun⟩, fun a ha hba ↦ ?_⟩
    rcases List.mem_append.mp ha with ha | ha
    · exact (hm.blurred_of_lt hnum hb hge ha hba).mono hsub
    · obtain rfl := List.mem_singleton.mp ha
      rw [order_self ((comparable_of_places hb hb).mono (by simp))] at hba
      cases hba

/-! ### The smallest -/

/-- The first of the values that no other is less than. -/
structure Smallest (h : Heap) (vs : List Value) (m : Value) : Prop where
  first : ∃ front back, vs = front ++ m :: back ∧
    ∀ a ∈ front, a.equal m = true → ∃ b ∈ vs, Blurred [a] m b
  bottom : ∀ a ∈ vs, h.order a m ≠ .lt

theorem Smallest.mem (hm : h.Smallest vs m) : m ∈ vs := by
  obtain ⟨front, back, rfl, -⟩ := hm.first
  simp

theorem smallest_singleton (hnum : m.HasPlace) : h.Smallest [m] m where
  first := ⟨[], [], rfl, nofun⟩
  bottom a ha hlt := by
    obtain rfl := List.mem_singleton.mp ha
    rw [order_self ((comparable_of_places hnum hnum).mono (by simp))] at hlt
    cases hlt

/-- What a number below the smallest so far is equal to is a float that hides the difference. -/
theorem Smallest.blurred_of_equal (hm : h.Smallest vs m) (hnum : ∀ v ∈ vs, v.HasPlace)
    (hb : b.HasPlace) (hlt : h.order b m = .lt) (ha : a ∈ vs) (hequal : a.equal b = true) :
    Blurred [a] b m := by
  have hplaceA : a.HasPlace := hnum a ha
  have hplaceM : m.HasPlace := hnum m hm.mem
  have hab : h.order a b = .eq := by
    rwa [(compare_of_places (h := h) hplaceA hb).2, Ordering.isEq_iff_eq_eq] at hequal
  have hplace : a.place = b.place := place_eq_of_order hplaceA hb hab
  have hbm : b.place = m.place := by
    refine Int.le_antisymm (place_le_of_order hb hplaceM hlt) (Int.not_lt.mp fun hlt' ↦ ?_)
    exact hm.bottom a ha (order_of_place_lt hplaceA hplaceM (hplace ▸ hlt'))
  obtain ⟨i, j, rfl, rfl, hij⟩ := ints_of_place_eq hb hplaceM hlt hbm
  cases a with
  | int k =>
    obtain rfl := Int64.toInt_inj.mp (Int.compare_eq_eq.mp hab)
    exact absurd hlt (hm.bottom _ ha)
  | float bits =>
    exact blurred_of_place hij (List.mem_singleton_self _) hplaceA hplace.symm
      (hbm.symm.trans hplace.symm)
  | _ => exact hplaceA.elim

theorem Smallest.step (hm : h.Smallest vs m) (hnum : ∀ v ∈ vs, v.HasPlace) (hb : b.HasPlace) :
    h.Smallest (vs ++ [b]) (if h.order b m = .lt then b else m) := by
  have hsub : vs ⊆ vs ++ [b] := List.subset_append_left vs [b]
  have hplaceM : m.HasPlace := hnum m hm.mem
  split
  · next hlt =>
    refine ⟨⟨vs, [], rfl, fun a ha hequal ↦ ?_⟩, fun a ha hab ↦ ?_⟩
    · exact ⟨m, hsub hm.mem, hm.blurred_of_equal hnum hb hlt ha hequal⟩
    · rcases List.mem_append.mp ha with ha | ha
      · refine hm.bottom a ha (order_lt_trans (.inl fun v hv ↦ ?_) hab hlt)
        simp only [List.mem_cons, List.not_mem_nil, or_false] at hv
        rcases hv with rfl | rfl | rfl
        exacts [hnum _ ha, hb, hplaceM]
      · obtain rfl := List.mem_singleton.mp ha
        rw [order_self ((comparable_of_places hb hb).mono (by simp))] at hab
        cases hab
  · next hge =>
    refine ⟨?_, fun a ha ↦ ?_⟩
    · obtain ⟨front, back, rfl, hfront⟩ := hm.first
      refine ⟨front, back ++ [b], by simp, fun a ha hequal ↦ ?_⟩
      obtain ⟨c, hc, hblurred⟩ := hfront a ha hequal
      exact ⟨c, hsub hc, hblurred⟩
    · rcases List.mem_append.mp ha with ha | ha
      · exact hm.bottom a ha
      · rwa [List.mem_singleton.mp ha]

end Heap

/-! ### The builtins -/

/-- The arguments of the running builtin. -/
def State.arguments (s : State) : List Value :=
  match s.native? with
  | some call => (List.range call.argCount).map fun i ↦ s.stack.getD (call.base + i) .nil
  | none => []

namespace Machine

theorem arg_apply {s : State} {call : NativeCall} (hcall : s.native? = some call) (i : Nat) :
    arg i s = .ok (if i < call.argCount then s.stack.getD (call.base + i) .nil else .nil) s := by
  unfold arg
  rw [bind_apply, get_apply]
  dsimp only
  rw [hcall]
  rfl

theorem args_apply (s : State) : args s = .ok s.arguments s := by
  have hmap {is : List Nat} {f : Nat → Value} (hf : ∀ i ∈ is, arg i s = .ok (f i) s) :
      is.mapM arg s = .ok (is.map f) s := by
    induction is with
    | nil => rfl
    | cons i is ih =>
      rw [List.mapM_cons, bind_of_ok (hf i List.mem_cons_self),
        bind_of_ok (ih fun j hj ↦ hf j (List.mem_cons_of_mem i hj)), pure_apply, List.map_cons]
  have hcount : argCount s = .ok ((s.native?.map NativeCall.argCount).getD 0) s := rfl
  unfold args State.arguments
  rw [bind_of_ok hcount]
  cases hcall : s.native? with
  | none => rfl
  | some call =>
    rw [Option.map_some, Option.getD_some]
    refine hmap fun i hi ↦ ?_
    rw [arg_apply hcall, if_pos (List.mem_range.mp hi)]

end Machine

namespace Library

open Machine Operators Value

variable {h : Heap} {a b m : Value} {vs rest : List Value} {s : State}

theorem larger_of_places (ha : a.HasPlace) (hb : b.HasPlace) :
    larger h a b = .ok (if h.order b a = .lt then a else b) := by
  rw [larger, (Heap.compare_of_places hb ha).1]
  cases h.order b a <;> rfl

theorem larger_of_not_less (hless : lessThan h b a = .ok false) : larger h a b = .ok b := by
  rw [larger, hless]
  rfl

theorem smaller_of_places (ha : a.HasPlace) (hb : b.HasPlace) :
    smaller h a b = .ok (if h.order b a = .lt then b else a) := by
  rw [smaller, (Heap.compare_of_places hb ha).1]
  cases h.order b a <;> rfl

/-- What holds of the first number, and with every step of one number more, holds of the result of a
fold. -/
theorem foldlM_numbers (pick : Value → Value → Except RuntimeError Value)
    {P : List Value → Value → Prop}
    (hpick : ∀ {vs m b}, P vs m → (∀ v ∈ vs, v.HasPlace) → b.HasPlace →
      ∃ m', pick m b = .ok m' ∧ P (vs ++ [b]) m')
    (hm : P vs m) (hnum : ∀ v ∈ vs ++ rest, v.HasPlace) :
    ∃ m', rest.foldlM pick m = .ok m' ∧ P (vs ++ rest) m' := by
  induction rest generalizing vs m with
  | nil => exact ⟨m, rfl, by rwa [List.append_nil]⟩
  | cons b rest ih =>
    obtain ⟨m', hpick', hm'⟩ := hpick hm (fun v hv ↦ hnum v (List.mem_append_left _ hv))
      (hnum b (List.mem_append_right _ List.mem_cons_self))
    rw [List.append_cons] at hnum ⊢
    obtain ⟨m'', hfold, hm''⟩ := ih hm' hnum
    refine ⟨m'', ?_, hm''⟩
    rw [List.foldlM_cons, hpick']
    exact hfold

/-- What a fold of the arguments gives is the result of the builtin. -/
theorem foldArgs_ends (name : String) {pick : Heap → Value → Value → Except RuntimeError Value}
    {first : Value} (hargs : s.arguments = first :: rest)
    (hfold : rest.foldlM (pick s.heap) first = .ok m) :
    ∃ t, setResults [m] s = .ok () t ∧ (Native.plain name (foldArgs pick)).start s = .ok .finished t := by
  have hbody : foldArgs pick s = setResults [m] s := by
    unfold foldArgs
    rw [bind_of_ok (args_apply s), hargs]
    dsimp only
    rw [bind_apply, get_apply]
    dsimp only
    rw [hfold]
    rfl
  refine ⟨_, rfl, ?_⟩
  unfold Native.plain
  dsimp only
  rw [bind_apply, hbody]
  rfl

/-- The largest and the smallest argument, for any number of integers and floats but NaN in any
order. Of equal arguments one takes the last and the other the first. A greater argument than the
largest, or one before the smallest that is equal to it, is there only if an argument hides the
difference: a float that is equal to two integers. -/
theorem extremes_of_arguments (hne : s.arguments ≠ []) (hnum : ∀ a ∈ s.arguments, a.HasPlace) :
    (∃ m front back t, setResults [m] s = .ok () t ∧ maximum.start s = .ok .finished t ∧
        s.arguments = front ++ m :: back ∧
        (∀ a ∈ back, lessThan s.heap a m = .ok true ∧ a.equal m = false) ∧
        ∀ a ∈ s.arguments, lessThan s.heap m a = .ok false ∨ Blurred s.arguments m a) ∧
      ∃ m front back t, setResults [m] s = .ok () t ∧ minimum.start s = .ok .finished t ∧
        s.arguments = front ++ m :: back ∧
        (∀ a ∈ s.arguments, lessThan s.heap a m = .ok false) ∧
        ∀ a ∈ front, a.equal m = false ∨ ∃ b ∈ s.arguments, Blurred [a] m b := by
  obtain ⟨first, rest, hargs⟩ := List.exists_cons_of_ne_nil hne
  rw [hargs] at hnum ⊢
  have hfirst : first.HasPlace := hnum first List.mem_cons_self
  constructor
  · obtain ⟨m, hfold, hm⟩ := foldlM_numbers (larger s.heap) (P := s.heap.Largest)
      (fun hm hvs hb ↦ ⟨_, larger_of_places (hvs _ hm.mem) hb, hm.step hvs hb⟩)
      (Heap.largest_singleton hfirst) hnum
    obtain ⟨t, hset, hstart⟩ := foldArgs_ends "max" hargs hfold
    obtain ⟨front, back, hsplit, hback⟩ := hm.last
    have hplace : m.HasPlace := hnum m hm.mem
    refine ⟨m, front, back, t, hset, hstart, hsplit, fun a ha ↦ ?_, fun a ha ↦ ?_⟩
    · have hmem : a ∈ [first] ++ rest := by
        rw [hsplit]
        exact List.mem_append_right front (List.mem_cons_of_mem m ha)
      obtain ⟨hless, hequal⟩ := Heap.compare_of_places (h := s.heap) (hnum a hmem) hplace
      rw [hless, hequal, hback a ha]
      exact ⟨rfl, rfl⟩
    · rw [(Heap.compare_of_places hplace (hnum a ha)).1]
      by_cases hlt : s.heap.order m a = .lt
      · exact .inr (hm.top a ha hlt)
      · left
        rw [Bool.eq_false_iff.mpr fun hisLT ↦ hlt (Ordering.isLT_iff_eq_lt.mp hisLT)]
  · obtain ⟨m, hfold, hm⟩ := foldlM_numbers (smaller s.heap) (P := s.heap.Smallest)
      (fun hm hvs hb ↦ ⟨_, smaller_of_places (hvs _ hm.mem) hb, hm.step hvs hb⟩)
      (Heap.smallest_singleton hfirst) hnum
    obtain ⟨t, hset, hstart⟩ := foldArgs_ends "min" hargs hfold
    obtain ⟨front, back, hsplit, hfront⟩ := hm.first
    have hplace : m.HasPlace := hnum m hm.mem
    refine ⟨m, front, back, t, hset, hstart, hsplit, fun a ha ↦ ?_, fun a ha ↦ ?_⟩
    · rw [(Heap.compare_of_places (hnum a ha) hplace).1,
        Bool.eq_false_iff.mpr fun hisLT ↦ hm.bottom a ha (Ordering.isLT_iff_eq_lt.mp hisLT)]
    · rw [or_iff_not_imp_left, Bool.not_eq_false]
      exact hfront a ha

/-- A call of a builtin with the arguments alone on the stack. -/
def called (name : String) (args : List Value) : State :=
  { State.start {} .empty true with
    stack := args.toArray
    activations := [.native ⟨0, name, 0, args.length, none, .nothing⟩] }

/-- A float and an integer. -/
theorem extremes_of_arguments_mixed : ∃ m t, m ∈ [Value.float 0x3FF8000000000000, .int 2] ∧
    setResults [m] (called "max" [.float 0x3FF8000000000000, .int 2]) = .ok () t ∧
    maximum.start (called "max" [.float 0x3FF8000000000000, .int 2]) = .ok .finished t := by
  have hnum : ∀ a ∈ (called "max" [.float 0x3FF8000000000000, .int 2]).arguments, a.HasPlace := by
    intro a ha
    rcases List.mem_cons.mp ha with rfl | ha
    · exact Eq.refl false
    · obtain rfl := List.mem_singleton.mp ha
      trivial
  obtain ⟨⟨m, front, back, t, hset, hstart, hsplit, -⟩, -⟩ :=
    extremes_of_arguments (s := called "max" [.float 0x3FF8000000000000, .int 2]) nofun hnum
  refine ⟨m, t, ?_, hset, hstart⟩
  have hmem : m ∈ front ++ m :: back := by simp
  rwa [← hsplit] at hmem

/-- The largest of an integer, the float it is rounded to and the integer that float stands for is
the last of them, although the first is greater. -/
theorem maximum_below_argument :
    let s := called "max" [.int 9007199254740993, .float 0x4340000000000000, .int 9007199254740992]
    (∀ a ∈ s.arguments, a.HasPlace) ∧ .int 9007199254740993 ∈ s.arguments ∧
      (∃ t, setResults [.int 9007199254740992] s = .ok () t ∧ maximum.start s = .ok .finished t) ∧
      lessThan s.heap (.int 9007199254740992) (.int 9007199254740993) = .ok true := by
  intro s
  have hnum : ∀ a ∈ s.arguments, a.HasPlace := by
    intro a ha
    have ha : a ∈ [Value.int 9007199254740993, .float 0x4340000000000000, .int 9007199254740992] := ha
    simp only [List.mem_cons, List.not_mem_nil, or_false] at ha
    rcases ha with rfl | rfl | rfl
    exacts [trivial, Eq.refl false, trivial]
  have hfirst : lessThan s.heap (.float 0x4340000000000000) (.int 9007199254740993) = .ok false :=
    congrArg Except.ok (by decide +kernel)
  have hsecond : lessThan s.heap (.int 9007199254740992) (.float 0x4340000000000000) = .ok false :=
    congrArg Except.ok (by decide +kernel)
  have hfold : [Value.float 0x4340000000000000, .int 9007199254740992].foldlM (larger s.heap)
      (.int 9007199254740993) = .ok (.int 9007199254740992) := by
    simp only [List.foldlM_cons, larger_of_not_less hfirst, bind, Except.bind,
      larger_of_not_less hsecond]
    rfl
  exact ⟨hnum, List.mem_cons_self, foldArgs_ends _ rfl hfold, congrArg Except.ok (by decide)⟩

end Library

end MiniLua
