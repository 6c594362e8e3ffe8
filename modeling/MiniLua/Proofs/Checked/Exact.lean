import Mathlib.Data.Rat.Floor
import MiniLua.Proofs.Checked.Numbers

/-!
Arithmetic on integers is exact. A result that has more than 64 bits is left to the floats, the
remainder never has more, and no operation of the machine leaves its range on the way.
-/

namespace MiniLua

/-- The integers of 64 bits. -/
def IsInt64 (n : Int) : Prop := -2 ^ 63 ≤ n ∧ n < 2 ^ 63
deriving Decidable

/-- A value that is the integer `n` where that has 64 bits, and the float `x` where it has more. -/
structure ExactOr (n : Int) (x : Float) (v : Value) : Prop where
  int (h : IsInt64 n) : ∃ i, v = .int i ∧ i.toInt = n
  float (h : ¬ IsInt64 n) : v = .ofFloat x

theorem exactOr_int64? (n : Int) (x : Float) :
    ExactOr n x (match int64? n with
      | some i => .int i
      | none => .ofFloat x) := by
  by_cases hn : IsInt64 n
  · have hint : int64? n = some (Int64.ofInt n) := if_pos hn
    rw [hint]
    exact ⟨fun _ ↦ ⟨_, rfl, toInt_of_int64? hint⟩, fun hbits ↦ absurd hn hbits⟩
  · have hint : int64? n = none := if_neg hn
    rw [hint]
    exact ⟨fun hbits ↦ absurd hbits hn, fun _ ↦ rfl⟩

/-- What is left over has the sign of the divisor and is smaller. -/
theorem fmod_sign_and_abs (p : Int) {q : Int} (hq : q ≠ 0) :
    (p.fmod q = 0 ∨ (p.fmod q).sign = q.sign) ∧ |p.fmod q| < |q| := by
  -- a negative divisor is a positive one with both signs turned
  have hpos (p : Int) {q : Int} (hq : 0 < q) :
      (p.fmod q = 0 ∨ (p.fmod q).sign = q.sign) ∧ |p.fmod q| < |q| := by
    have hnonneg := Int.fmod_nonneg_of_pos p hq
    have hlt := Int.fmod_lt_of_pos p hq
    rw [abs_of_nonneg hnonneg, abs_of_pos hq]
    refine ⟨?_, hlt⟩
    rcases Int.lt_or_eq_of_le hnonneg with hr | hr
    · right
      rw [Int.sign_eq_one_of_pos hr, Int.sign_eq_one_of_pos hq]
    · left
      exact hr.symm
  rcases Int.lt_or_gt_of_ne hq with hneg | hq
  · have h := hpos (-p) (Int.neg_pos_of_neg hneg)
    rwa [Int.neg_fmod_neg, neg_eq_zero, Int.sign_neg, Int.sign_neg, neg_inj, abs_neg, abs_neg] at h
  · exact hpos p hq

theorem floor_div_eq_fdiv (p : Int) {q : Int} (hq : q ≠ 0) : ⌊(p : ℚ) / q⌋ = p.fdiv q := by
  have hq' : (q : ℚ) ≠ 0 := Int.cast_ne_zero.mpr hq
  have hsum : (p : ℚ) = p.fdiv q * q + p.fmod q := by
    rw [← Int.cast_mul, ← Int.cast_add, Int.fdiv_mul_add_fmod]
  have hdiv : (p : ℚ) / q = p.fdiv q + p.fmod q / q := by
    rw [eq_comm, eq_div_iff hq', add_mul, div_mul_cancel₀ _ hq', ← hsum]
  obtain ⟨hsign, hlt⟩ := fmod_sign_and_abs p hq
  have hlt' : |(p.fmod q : ℚ) / q| < 1 := by
    rw [abs_div, div_lt_one (abs_pos.mpr hq')]
    exact_mod_cast hlt
  have hnonneg : 0 ≤ (p.fmod q : ℚ) / q := by
    rcases hsign with hzero | hsign
    · rw [hzero, Int.cast_zero, zero_div]
    · rcases Int.lt_or_gt_of_ne hq with hneg | hpos
      · rw [Int.sign_eq_neg_one_of_neg hneg, Int.sign_eq_neg_one_iff_neg] at hsign
        exact div_nonneg_of_nonpos (by exact_mod_cast hsign.le) (by exact_mod_cast hneg.le)
      · rw [Int.sign_eq_one_of_pos hpos, Int.sign_eq_one_iff_pos] at hsign
        exact div_nonneg (by exact_mod_cast hsign.le) (by exact_mod_cast hpos.le)
  rw [hdiv, Int.floor_intCast_add, Int.floor_eq_zero_iff.mpr ⟨hnonneg, (abs_lt.mp hlt').2⟩, add_zero]

namespace Operators

variable {h : Heap} {a b : Value} {p q : Int64}

/-- Integers, and strings that spell them, give the exact result or a float. -/
theorem exactOr_intOrFloat (onInts : Int → Int → Int) (onFloats : Float → Float → Float) :
    ExactOr (onInts p.toInt q.toInt) (onFloats (floatOfInt p) (floatOfInt q))
      (intOrFloat onInts onFloats (.int p) (.int q)) :=
  exactOr_int64? _ _

theorem arith_of_ints (ha : h.number? a = some (.int p)) (hb : h.number? b = some (.int q))
    (op : Opcode) : arith h op a b = onNumbers op (.int p) (.int q) := by
  rw [arith, ha, hb]

theorem exactOr_negate (ha : h.number? a = some (.int p)) :
    ∃ v, negate h a = .ok v ∧ ExactOr (-p.toInt) (-floatOfInt p) v := by
  have hexact := exactOr_int64? (-p.toInt) (-floatOfInt p)
  rw [negate, ha]
  dsimp only
  cases hint : int64? (-p.toInt) with
  | some i =>
    rw [hint] at hexact
    exact ⟨_, rfl, hexact⟩
  | none =>
    rw [hint] at hexact
    exact ⟨_, rfl, hexact⟩

theorem toInt_ofInt_fmod (hq : q ≠ 0) :
    (Int64.ofInt (p.toInt.fmod q.toInt)).toInt = p.toInt.fmod q.toInt := by
  have hne : q.toInt ≠ 0 := fun hzero ↦ hq (Int64.toInt_inj.mp hzero)
  have hlt := (fmod_sign_and_abs p.toInt hne).2
  have hbounds := Checked.toInt_bounds q
  rw [abs_lt] at hlt
  have habs : |q.toInt| ≤ 2 ^ 63 := abs_le.mpr ⟨by omega, by omega⟩
  exact Int64.toInt_ofInt_of_le (by omega) (by omega)

/-- A remainder of integers is an integer of 64 bits, for every divisor but zero. -/
theorem modulo_of_ints (hq : q ≠ 0) :
    ∃ r : Int64, modulo (.int p) (.int q) = .ok (.int r) ∧
      p.toInt = q.toInt * ⌊(p.toInt : ℚ) / q.toInt⌋ + r.toInt ∧
      (r = 0 ∨ r.toInt.sign = q.toInt.sign) ∧ |r.toInt| < |q.toInt| := by
  have hne : q.toInt ≠ 0 := fun hzero ↦ hq (Int64.toInt_inj.mp hzero)
  obtain ⟨hsign, hlt⟩ := fmod_sign_and_abs p.toInt hne
  refine ⟨_, if_neg hq, ?_⟩
  rw [toInt_ofInt_fmod hq, floor_div_eq_fdiv _ hne, Int.mul_fdiv_add_fmod]
  refine ⟨rfl, hsign.imp_left fun hzero ↦ ?_, hlt⟩
  rw [hzero]
  rfl

/-- Arithmetic on two integers, each of them a number or a string that spells one. Sums,
differences, products and negatives are exact or floats, remainders are exact, and a zero divisor is
refused. The machine computes all of it with operations that have no result out of 64 bits, and
each of them has one. -/
theorem integer_arithmetic (ha : h.number? a = some (.int p)) (hb : h.number? b = some (.int q)) :
    (∃ v, arith h .add a b = .ok v ∧
        ExactOr (p.toInt + q.toInt) (floatOfInt p + floatOfInt q) v) ∧
      (∃ v, arith h .sub a b = .ok v ∧
        ExactOr (p.toInt - q.toInt) (floatOfInt p - floatOfInt q) v) ∧
      (∃ v, arith h .mul a b = .ok v ∧
        ExactOr (p.toInt * q.toInt) (floatOfInt p * floatOfInt q) v) ∧
      (q ≠ 0 → ∃ r : Int64, arith h .mod a b = .ok (.int r) ∧
        p.toInt = q.toInt * ⌊(p.toInt : ℚ) / q.toInt⌋ + r.toInt ∧
        (r = 0 ∨ r.toInt.sign = q.toInt.sign) ∧ |r.toInt| < |q.toInt|) ∧
      (q = 0 → arith h .mod a b = .error (.type .zeroModulus)) ∧
      (∃ v, negate h a = .ok v ∧ ExactOr (-p.toInt) (-floatOfInt p) v) ∧
      (∀ op, Checked.arith h op a b = some (arith h op a b)) ∧
      Checked.negate h a = some (negate h a) := by
  have harith := arith_of_ints ha hb
  refine ⟨⟨_, harith .add, exactOr_intOrFloat _ _⟩, ⟨_, harith .sub, exactOr_intOrFloat _ _⟩,
    ⟨_, harith .mul, exactOr_intOrFloat _ _⟩, fun hq ↦ ?_, fun hq ↦ ?_, exactOr_negate ha,
    fun op ↦ Checked.arith_eq h op a b, Checked.negate_eq h a⟩
  · rw [harith]
    exact modulo_of_ints hq
  · rw [harith]
    exact if_pos hq

/-- The smallest integer, and minus one in a string. -/
theorem integer_arithmetic_smallest :
    ∃ h : Heap, ∃ s : Nat,
      h.number? (.int (-0x8000000000000000)) = some (.int (-0x8000000000000000)) ∧
      h.number? (.string s) = some (.int (-1)) ∧ (-1 : Int64) ≠ 0 ∧
      arith h .mul (.int (-0x8000000000000000)) (.string s) =
        .ok (.ofFloat (floatOfInt (-0x8000000000000000) * floatOfInt (-1))) ∧
      arith h .mod (.int (-0x8000000000000000)) (.string s) = .ok (.int 0) := by
  have hs : Heap.number? (Heap.empty.intern (Bytes.ofText "-1")).2 (.string 0) = some (.int (-1)) := by
    decide +kernel
  obtain ⟨-, -, ⟨v, hmul, hv⟩, hmod, -⟩ :=
    integer_arithmetic (a := .int (-0x8000000000000000)) (p := -0x8000000000000000) rfl hs
  obtain ⟨r, hr, -, -, hlt⟩ := hmod (by decide)
  have hzero : r = 0 := by
    have habs : |(-1 : Int64).toInt| = 1 := rfl
    rw [habs, Int.abs_lt_one_iff] at hlt
    exact Int64.toInt_inj.mp hlt
  refine ⟨_, 0, rfl, hs, by decide, ?_, hzero ▸ hr⟩
  rw [hmul, hv.float (by decide)]

end Operators

end MiniLua
