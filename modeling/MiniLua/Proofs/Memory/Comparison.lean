import MiniLua.Machine.Operators
import MiniLua.Proofs.Memory.Equality
import MiniLua.Proofs.Number.Order
import MiniLua.Proofs.Twins.Values

/-!
The order of numbers and of strings. Two integers are compared as they are, an integer and a float
after the integer was rounded, strings by their bytes and, for equality, by their handles. The
order is strict and linear all the same, but for one thing: a float can be equal to two integers
that differ.
-/

namespace MiniLua

namespace Value

/-- A number other than NaN. -/
def HasPlace : Value → Prop
  | .int _ => True
  | .float bits => Binary.isNaN bits = false
  | _ => False

/-- The place of a number among the floats. -/
def place (v : Value) : Int := Binary.place v.toFloat.toModel.unpack

theorem HasPlace.toFloat {v : Value} (h : v.HasPlace) : Binary.IsNumber v.toFloat := by
  cases v with
  | int i => exact isNumber_floatOfInt i
  | float bits => exact isNumber_ofBits h
  | _ => exact h.elim

theorem place_int_mono {i j : Int64} (h : i.toInt ≤ j.toInt) : (int i).place ≤ (int j).place :=
  place_floatOfInt_mono (Int64.le_iff_toInt_le.mpr h)

end Value

namespace Heap

variable (h : Heap)

/-- A string of the heap. -/
def HasString (v : Value) : Prop := ∃ s bytes, v = .string s ∧ h.bytes? s = some bytes

/-- Values that are all numbers or all strings. -/
def Comparable (vs : List Value) : Prop := (∀ v ∈ vs, v.HasPlace) ∨ ∀ v ∈ vs, h.HasString v

/-- How two comparable values stand to each other. -/
def order : Value → Value → Ordering
  | .int i, .int j => compare i.toInt j.toInt
  | .string s, .string t => compare ((h.bytes? s).getD []) ((h.bytes? t).getD [])
  | a, b => compare a.place b.place

variable {h} {a b c : Value}

theorem Comparable.mono {vs ws : List Value} (hc : h.Comparable vs) (hsub : ws ⊆ vs) :
    h.Comparable ws :=
  hc.imp (fun hall v hv ↦ hall v (hsub hv)) fun hall v hv ↦ hall v (hsub hv)

/-! ### What the operators compute -/

theorem lt_eq_isLT (i j : Int64) : decide (i < j) = (compare i.toInt j.toInt).isLT := by
  rw [Bool.eq_iff_iff, decide_eq_true_iff, Ordering.isLT_iff_eq_lt, Int.compare_eq_lt,
    Int64.lt_iff_toInt_lt]

theorem le_eq_isLE (i j : Int64) : decide (i ≤ j) = (compare i.toInt j.toInt).isLE := by
  rw [Bool.eq_iff_iff, decide_eq_true_iff, Int.isLE_compare, Int64.le_iff_toInt_le]

section

variable (ha : a.HasPlace) (hb : b.HasPlace)

include ha hb

theorem float_lt_eq : decide (a.toFloat < b.toFloat) = (compare a.place b.place).isLT := by
  rw [Bool.eq_iff_iff, decide_eq_true_iff, Binary.float_lt_iff ha.toFloat hb.toFloat,
    Ordering.isLT_iff_eq_lt, Int.compare_eq_lt]
  rfl

theorem float_le_eq : decide (a.toFloat ≤ b.toFloat) = (compare a.place b.place).isLE := by
  rw [Bool.eq_iff_iff, decide_eq_true_iff, Binary.float_le_iff ha.toFloat hb.toFloat,
    Int.isLE_compare]
  rfl

theorem float_beq_eq : (a.toFloat == b.toFloat) = (compare a.place b.place).isEq := by
  rw [Bool.eq_iff_iff, Binary.float_beq_iff_place ha.toFloat hb.toFloat, Ordering.isEq_iff_eq_eq,
    Int.compare_eq_eq]
  rfl

end

/-- The three comparisons agree on how two values stand. -/
theorem compare_of_comparable (hpool : h.strings.Exact) (hc : h.Comparable [a, b]) :
    Operators.lessThan h a b = .ok (h.order a b).isLT ∧
      Operators.lessEqual h a b = .ok (h.order a b).isLE ∧
      a.equal b = (h.order a b).isEq := by
  rcases hc with hnum | hstr
  · have ha : a.HasPlace := hnum a (by simp)
    have hb : b.HasPlace := hnum b (by simp)
    have hlt := float_lt_eq ha hb
    have hle := float_le_eq ha hb
    have heq := float_beq_eq ha hb
    cases a with
    | int i =>
      cases b with
      | int j =>
        refine ⟨congrArg Except.ok (lt_eq_isLT i j), congrArg Except.ok (le_eq_isLE i j), ?_⟩
        rw [order, Bool.eq_iff_iff, Ordering.isEq_iff_eq_eq, Int.compare_eq_eq, Int64.toInt_inj]
        simp [Value.equal, Value.same]
      | float y => exact ⟨congrArg Except.ok hlt, congrArg Except.ok hle, heq⟩
      | _ => exact hb.elim
    | float x =>
      cases b with
      | int j =>
        have hswap := float_beq_eq hb ha
        rw [Std.OrientedOrd.eq_swap (a := (Value.int j).place), Ordering.isEq_swap] at hswap
        exact ⟨congrArg Except.ok hlt, congrArg Except.ok hle, hswap⟩
      | float y => exact ⟨congrArg Except.ok hlt, congrArg Except.ok hle, heq⟩
      | _ => exact hb.elim
    | _ => exact ha.elim
  · obtain ⟨s, bytes, rfl, hs⟩ := hstr a (by simp)
    obtain ⟨t, bytes', rfl, ht⟩ := hstr b (by simp)
    refine ⟨rfl, rfl, ?_⟩
    have hhandle : s = t ↔ bytes = bytes' :=
      ⟨fun h ↦ Option.some_inj.mp (hs.symm.trans (h ▸ ht)), fun h ↦ hpool.handle_unique hs (h ▸ ht)⟩
    rw [order, hs, ht, Bool.eq_iff_iff, Ordering.isEq_iff_eq_eq, Option.getD_some, Option.getD_some,
      Std.LawfulEqOrd.compare_eq_iff_eq, ← hhandle]
    simp [Value.equal, Value.same]

/-! ### The laws of the order -/

/-- Two integers. -/
def AreInts (a b : Value) : Prop := ∃ i j, a = .int i ∧ b = .int j

theorem order_of_mixed (ha : a.HasPlace) (hb : b.HasPlace) (hmixed : ¬ AreInts a b) :
    h.order a b = compare a.place b.place := by
  cases a with
  | int i =>
    cases b with
    | int j => exact absurd ⟨i, j, rfl, rfl⟩ hmixed
    | _ => rfl
  | float x => rfl
  | _ => exact ha.elim

theorem order_self (hc : h.Comparable [a]) : h.order a a = .eq := by
  rcases hc with hnum | hstr
  · have ha : a.HasPlace := hnum a (by simp)
    cases a with
    | int i => exact Int.compare_eq_eq.mpr rfl
    | float x => exact Int.compare_eq_eq.mpr rfl
    | _ => exact ha.elim
  · obtain ⟨s, bytes, rfl, hs⟩ := hstr a (by simp)
    exact Std.ReflOrd.compare_self

theorem order_swap (hc : h.Comparable [a, b]) : h.order b a = (h.order a b).swap := by
  rcases hc with hnum | hstr
  · have ha : a.HasPlace := hnum a (by simp)
    have hb : b.HasPlace := hnum b (by simp)
    cases a <;> cases b <;> first | exact ha.elim | exact hb.elim | exact Std.OrientedOrd.eq_swap
  · obtain ⟨s, bytes, rfl, hs⟩ := hstr a (by simp)
    obtain ⟨t, bytes', rfl, ht⟩ := hstr b (by simp)
    exact Std.OrientedOrd.eq_swap

theorem place_le_of_order (ha : a.HasPlace) (hb : b.HasPlace) (hlt : h.order a b = .lt) :
    a.place ≤ b.place := by
  by_cases hints : AreInts a b
  · obtain ⟨i, j, rfl, rfl⟩ := hints
    exact Value.place_int_mono (Int.le_of_lt (Int.compare_eq_lt.mp hlt))
  · rw [order_of_mixed ha hb hints] at hlt
    exact Int.le_of_lt (Int.compare_eq_lt.mp hlt)

theorem place_lt_of_order (ha : a.HasPlace) (hb : b.HasPlace) (hmixed : ¬ AreInts a b)
    (hlt : h.order a b = .lt) : a.place < b.place := by
  rwa [order_of_mixed ha hb hmixed, Int.compare_eq_lt] at hlt

theorem order_of_place_lt (ha : a.HasPlace) (hb : b.HasPlace) (hlt : a.place < b.place) :
    h.order a b = .lt := by
  by_cases hints : AreInts a b
  · obtain ⟨i, j, rfl, rfl⟩ := hints
    refine Int.compare_eq_lt.mpr (Int.not_le.mp fun hle ↦ ?_)
    exact absurd (Value.place_int_mono hle) (Int.not_le.mpr hlt)
  · rw [order_of_mixed ha hb hints, Int.compare_eq_lt]
    exact hlt

theorem order_lt_trans (hc : h.Comparable [a, b, c]) (hab : h.order a b = .lt)
    (hbc : h.order b c = .lt) : h.order a c = .lt := by
  rcases hc with hnum | hstr
  · have ha : a.HasPlace := hnum a (by simp)
    have hb : b.HasPlace := hnum b (by simp)
    have hc : c.HasPlace := hnum c (by simp)
    have hle := place_le_of_order ha hb hab
    have hle' := place_le_of_order hb hc hbc
    by_cases hints : AreInts a b
    · by_cases hints' : AreInts b c
      · -- three integers
        obtain ⟨i, j, rfl, rfl⟩ := hints
        obtain ⟨_, k, hj, rfl⟩ := hints'
        cases hj
        exact Int.compare_eq_lt.mpr
          (Int.lt_trans (Int.compare_eq_lt.mp hab) (Int.compare_eq_lt.mp hbc))
      · exact order_of_place_lt ha hc (Int.lt_of_le_of_lt hle (place_lt_of_order hb hc hints' hbc))
    · exact order_of_place_lt ha hc (Int.lt_of_lt_of_le (place_lt_of_order ha hb hints hab) hle')
  · obtain ⟨s, bytes, rfl, hs⟩ := hstr a (by simp)
    obtain ⟨t, bytes', rfl, ht⟩ := hstr b (by simp)
    obtain ⟨u, bytes'', rfl, hu⟩ := hstr c (by simp)
    simp only [order] at hab hbc ⊢
    exact Std.TransCmp.lt_trans hab hbc

/-- Equality passes on unless a float stands between two integers that differ. -/
theorem order_eq_trans (hc : h.Comparable [a, b, c]) (hab : h.order a b = .eq)
    (hbc : h.order b c = .eq) : h.order a c = .eq ∨
      ∃ i bits j, a = .int i ∧ b = .float bits ∧ c = .int j ∧ i ≠ j := by
  rcases hc with hnum | hstr
  · have ha : a.HasPlace := hnum a (by simp)
    have hb : b.HasPlace := hnum b (by simp)
    have hc : c.HasPlace := hnum c (by simp)
    have hplace {a b : Value} (ha : a.HasPlace) (hb : b.HasPlace) (heq : h.order a b = .eq) :
        a.place = b.place := by
      by_cases hints : AreInts a b
      · obtain ⟨i, j, rfl, rfl⟩ := hints
        rw [Int64.toInt_inj.mp (Int.compare_eq_eq.mp heq)]
      · rwa [order_of_mixed ha hb hints, Int.compare_eq_eq] at heq
    have heq := (hplace ha hb hab).trans (hplace hb hc hbc)
    by_cases hints : AreInts a c
    · obtain ⟨i, k, rfl, rfl⟩ := hints
      cases b with
      | int j =>
        left
        exact Int.compare_eq_eq.mpr ((Int.compare_eq_eq.mp hab).trans (Int.compare_eq_eq.mp hbc))
      | float bits =>
        by_cases hik : i = k
        · left
          exact Int.compare_eq_eq.mpr (congrArg _ hik)
        · exact .inr ⟨i, bits, k, rfl, rfl, rfl, hik⟩
      | _ => exact hb.elim
    · left
      rw [order_of_mixed ha hc hints, Int.compare_eq_eq]
      exact heq
  · obtain ⟨s, bytes, rfl, hs⟩ := hstr a (by simp)
    obtain ⟨t, bytes', rfl, ht⟩ := hstr b (by simp)
    obtain ⟨u, bytes'', rfl, hu⟩ := hstr c (by simp)
    simp only [order] at hab hbc ⊢
    exact .inl (Std.TransCmp.eq_trans hab hbc)

/-- Two integers that a float is equal to are the same, or one of them is no float's value. -/
theorem wide_of_equal {i j : Int64} {bits : UInt64} (hi : (Value.int i).equal (.float bits) = true)
    (hj : (Value.float bits).equal (.int j) = true) (hij : i ≠ j) :
    2 ^ 53 < i.toInt.natAbs ∨ 2 ^ 53 < j.toInt.natAbs := by
  by_contra hsmall
  rw [not_or, Nat.not_lt, Nat.not_lt] at hsmall
  obtain ⟨x, hx⟩ := exists_wholeInt64? hsmall.1
  obtain ⟨y, hy⟩ := exists_wholeInt64? hsmall.2
  have hbits := wholeInt64?_of_floatOfInt_beq hx hi
  have hbits' := wholeInt64?_of_floatOfInt_beq hy hj
  exact hij (Option.some_inj.mp (hbits.symm.trans hbits'))

end Heap

open Operators

/-- Numbers other than NaN are strictly and linearly ordered, and so are strings; equality is
reflexive and symmetric. It is transitive as well, but for two different integers of which one is
beyond 2 ^ 53: both are rounded when they are compared with a float. -/
theorem comparison_laws {h : Heap} (hpool : h.strings.Exact) {a b c : Value}
    (hc : h.Comparable [a, b, c]) :
    lessThan h a a = .ok false ∧
      (lessThan h a b = .ok true → lessThan h b c = .ok true → lessThan h a c = .ok true) ∧
      (∃ below above, lessThan h a b = .ok below ∧ lessThan h b a = .ok above ∧
        lessEqual h a b = .ok (!above) ∧ [below, a.equal b, above].count true = 1) ∧
      a.equal a = true ∧ a.equal b = b.equal a ∧
      (a.equal b = true → b.equal c = true → a.equal c = true ∨
        ∃ i bits j, a = .int i ∧ b = .float bits ∧ c = .int j ∧ i ≠ j ∧
          (2 ^ 53 < i.toInt.natAbs ∨ 2 ^ 53 < j.toInt.natAbs)) := by
  have hpair (x y : Value) (hx : x ∈ [a, b, c]) (hy : y ∈ [a, b, c]) :=
    Heap.compare_of_comparable (a := x) (b := y) hpool (hc.mono (by simp [hx, hy]))
  have haa := hpair a a (by simp) (by simp)
  have hab := hpair a b (by simp) (by simp)
  have hba := hpair b a (by simp) (by simp)
  have hbc := hpair b c (by simp) (by simp)
  have hac := hpair a c (by simp) (by simp)
  have hself := Heap.order_self (a := a) (hc.mono (by simp))
  have hswap := Heap.order_swap (a := a) (b := b) (hc.mono (by simp))
  have htrue {o : Ordering} : (Except.ok o.isLT : Except RuntimeError Bool) = .ok true ↔ o = .lt := by
    rw [Except.ok.injEq, Ordering.isLT_iff_eq_lt]
  refine ⟨?_, ?_, ⟨_, _, hab.1, hba.1, ?_, ?_⟩, ?_, ?_, ?_⟩
  · rw [haa.1, hself]
    rfl
  · rw [hab.1, hbc.1, hac.1, htrue, htrue, htrue]
    exact Heap.order_lt_trans hc
  · rw [hab.2.1, hswap]
    cases h.order a b <;> rfl
  · rw [hab.2.2, hswap]
    cases h.order a b <;> rfl
  · rw [haa.2.2, hself]
    rfl
  · rw [hab.2.2, hba.2.2, hswap, Ordering.isEq_swap]
  · intro hequal hequal'
    have heq := hab.2.2.symm.trans hequal
    have heq' := hbc.2.2.symm.trans hequal'
    rw [Ordering.isEq_iff_eq_eq] at heq heq'
    rw [hac.2.2, Ordering.isEq_iff_eq_eq]
    refine (Heap.order_eq_trans hc heq heq').imp id ?_
    rintro ⟨i, bits, j, rfl, rfl, rfl, hij⟩
    exact ⟨i, bits, j, rfl, rfl, rfl, hij, Heap.wide_of_equal hequal hequal' hij⟩

theorem comparison_laws_mixed :
    Heap.empty.strings.Exact ∧ Heap.empty.Comparable [.int 1, .float 0x3FF8000000000000, .int 2] ∧
      lessThan .empty (.int 1) (.float 0x3FF8000000000000) = .ok true ∧
      lessThan .empty (.float 0x3FF8000000000000) (.int 2) = .ok true ∧
      lessThan .empty (.int 1) (.int 2) = .ok true := by
  have hplaces : Heap.empty.Comparable [.int 1, .float 0x3FF8000000000000, .int 2] := by
    refine .inl fun v hv ↦ ?_
    simp only [List.mem_cons, List.not_mem_nil, or_false] at hv
    rcases hv with rfl | rfl | rfl
    exacts [trivial, Eq.refl false, trivial]
  have hfirst : lessThan .empty (.int 1) (.float 0x3FF8000000000000) = .ok true :=
    congrArg Except.ok (by decide +kernel)
  have hsecond : lessThan .empty (.float 0x3FF8000000000000) (.int 2) = .ok true :=
    congrArg Except.ok (by decide +kernel)
  exact ⟨StringPool.exact_empty, hplaces, hfirst, hsecond,
    (comparison_laws StringPool.exact_empty hplaces).2.1 hfirst hsecond⟩

/-- A float is equal to two integers that differ. -/
theorem equal_between_integers : Heap.empty.Comparable
      [.int 9007199254740993, .float 0x4340000000000000, .int 9007199254740992] ∧
    Value.equal (.int 9007199254740993) (.float 0x4340000000000000) = true ∧
    Value.equal (.float 0x4340000000000000) (.int 9007199254740992) = true ∧
    Value.equal (.int 9007199254740993) (.int 9007199254740992) = false := by
  refine ⟨.inl fun v hv ↦ ?_, by decide +kernel, by decide +kernel, by decide⟩
  simp only [List.mem_cons, List.not_mem_nil, or_false] at hv
  rcases hv with rfl | rfl | rfl
  exacts [trivial, Eq.refl false, trivial]

end MiniLua
