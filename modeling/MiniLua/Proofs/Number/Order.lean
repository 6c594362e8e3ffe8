import MiniLua.Proofs.Number.Floats

/-!
The order of floats. Every float but NaN has a place among the integers, and floats compare as their
places do; the conversion of integers to floats rounds, and so keeps their order but not always
their difference.
-/

namespace MiniLua

open Float.Model Float.Model.UnpackedFloat

namespace Binary

/-! ### Places -/

/-- The place of a finite float without its sign: floats of the next exponent follow on those of
this one. -/
def finitePlace (m : Nat) (e : Int) : Int := (e + 1075) * 0x10000000000000 + m

/-- Where a form lies among all of them; NaN has no place of its own. -/
def place : UnpackedFloat → Int
  | .infinity s => s.apply 0x8000000000000000
  | .notANumber | .zero _ => 0
  | .finite s m e _ => s.apply (finitePlace m e)

section

variable {m m' : Nat} {e e' : Int}

theorem place_pos (h : Canonical m e) : 0 < finitePlace m e := by
  have := h.low
  have := h.pos
  unfold finitePlace
  omega

theorem place_lt (h : Canonical m e) : finitePlace m e < 0x8000000000000000 := by
  have := h.high
  have := h.fits
  unfold finitePlace
  omega

theorem place_lt_of_exponent (h : Canonical m e) (h' : Canonical m' e') (hlt : e < e') :
    finitePlace m e < finitePlace m' e' := by
  have := h.fits
  have := h.low
  have := h'.normal
  unfold finitePlace
  omega

theorem compare_place (h : Canonical m e) (h' : Canonical m' e') :
    (compare e e').then (compare m m') = compare (finitePlace m e) (finitePlace m' e') := by
  rcases Int.lt_trichotomy e e' with hlt | rfl | hgt
  · rw [Int.compare_eq_lt.mpr hlt, Int.compare_eq_lt.mpr (place_lt_of_exponent h h' hlt)]
    rfl
  · have hplace : compare (finitePlace m e) (finitePlace m' e) = compare m m' := by
      unfold finitePlace
      rcases Nat.lt_trichotomy m m' with hm | rfl | hm
      · rw [Nat.compare_eq_lt.mpr hm, Int.compare_eq_lt.mpr (by omega)]
      · rw [Nat.compare_eq_eq.mpr rfl, Int.compare_eq_eq.mpr rfl]
      · rw [Nat.compare_eq_gt.mpr hm, Int.compare_eq_gt.mpr (by omega)]
    rw [Int.compare_eq_eq.mpr rfl, hplace]
    rfl
  · rw [Int.compare_eq_gt.mpr hgt, Int.compare_eq_gt.mpr (place_lt_of_exponent h' h hgt)]
    rfl

end

theorem compare_neg_neg (a b : Int) : compare (-a) (-b) = (compare a b).swap := by
  rcases Int.lt_trichotomy a b with h | rfl | h
  · rw [Int.compare_eq_lt.mpr h, Int.compare_eq_gt.mpr (by omega)]
    rfl
  · rw [Int.compare_eq_eq.mpr rfl, Int.compare_eq_eq.mpr rfl]
    rfl
  · rw [Int.compare_eq_gt.mpr h, Int.compare_eq_lt.mpr (by omega)]
    rfl

/-- Forms of floats compare as their places, but for NaN. -/
theorem compare_eq {u v : UnpackedFloat} (hu : Proper u) (hv : Proper v) (hu' : u ≠ .notANumber)
    (hv' : v ≠ .notANumber) : u.compare v = some (compare (place u) (place v)) := by
  have hlt {a b : Int} (h : a < b) : some Ordering.lt = some (compare a b) := by
    rw [Int.compare_eq_lt.mpr h]
  have hgt {a b : Int} (h : b < a) : some Ordering.gt = some (compare a b) := by
    rw [Int.compare_eq_gt.mpr h]
  cases hu with
  | notANumber => exact absurd rfl hu'
  | infinity s =>
    cases hv with
    | notANumber => exact absurd rfl hv'
    | infinity t => cases s <;> cases t <;> rfl
    | zero t => cases s <;> rfl
    | finite t h =>
      have hpos := place_pos h
      have hfar := place_lt h
      cases s <;> cases t
      · exact hlt (by simp only [place, Sign.apply]; omega)
      · exact hlt (by simp only [place, Sign.apply]; omega)
      · exact hgt (by simp only [place, Sign.apply]; omega)
      · exact hgt (by simp only [place, Sign.apply]; omega)
  | zero s =>
    cases hv with
    | notANumber => exact absurd rfl hv'
    | infinity t => cases t <;> rfl
    | zero t => rfl
    | finite t h =>
      have hpos := place_pos h
      cases t
      · exact hgt (by simp only [place, Sign.apply]; omega)
      · exact hlt (by simp only [place, Sign.apply]; omega)
  | finite s h =>
    have hpos := place_pos h
    have hfar := place_lt h
    cases hv with
    | notANumber => exact absurd rfl hv'
    | infinity t =>
      cases s <;> cases t
      · exact hgt (by simp only [place, Sign.apply]; omega)
      · exact hlt (by simp only [place, Sign.apply]; omega)
      · exact hgt (by simp only [place, Sign.apply]; omega)
      · exact hlt (by simp only [place, Sign.apply]; omega)
    | zero t =>
      cases s
      · exact hlt (by simp only [place, Sign.apply]; omega)
      · exact hgt (by simp only [place, Sign.apply]; omega)
    | finite t h' =>
      have hpos' := place_pos h'
      cases s <;> cases t
      · rw [UnpackedFloat.compare, compare_place h h']
        exact congrArg some (compare_neg_neg _ _).symm
      · exact hlt (by simp only [place, Sign.apply]; omega)
      · exact hgt (by simp only [place, Sign.apply]; omega)
      · rw [UnpackedFloat.compare, compare_place h h']
        rfl

/-- The form of a float that is a number. -/
def IsNumber (x : Float) : Prop := x.toModel.unpack ≠ .notANumber

theorem proper_unpack (x : Float) : Proper x.toModel.unpack := proper_view x.toBits

section

variable {x y : Float} (hx : IsNumber x) (hy : IsNumber y)

include hx hy

theorem compare_unpack : x.toModel.unpack.compare y.toModel.unpack =
    some (compare (place x.toModel.unpack) (place y.toModel.unpack)) :=
  compare_eq (proper_unpack x) (proper_unpack y) hx hy

theorem float_lt_iff : x < y ↔ place x.toModel.unpack < place y.toModel.unpack := by
  change decide ((x.toModel.unpack.compare y.toModel.unpack == some .lt) = true) = true ↔ _
  rw [decide_eq_true_iff, compare_unpack hx hy, beq_iff_eq, Option.some_inj, Int.compare_eq_lt]

theorem float_le_iff : x ≤ y ↔ place x.toModel.unpack ≤ place y.toModel.unpack := by
  change decide ((x.toModel.unpack.compare y.toModel.unpack).any (·.isLE) = true) = true ↔ _
  rw [decide_eq_true_iff, compare_unpack hx hy, Option.any_some, Int.isLE_compare]

theorem float_beq_iff_place : (x == y) = true ↔ place x.toModel.unpack = place y.toModel.unpack := by
  change (x.toModel.unpack.compare y.toModel.unpack == some .eq) = true ↔ _
  rw [compare_unpack hx hy, beq_iff_eq, Option.some_inj, Int.compare_eq_eq]

end

/-! ### Rounding keeps the order -/

/-- The significand and the two bits left over of `n / 2 ^ (k + 1)`. -/
theorem shift_succ (n k : Nat) :
    (ExtendedMantissa.ofMantissaAndAccuracy n .exact >>> (k + 1)) =
      ⟨n / 2 ^ (k + 1), n / 2 ^ k % 2 != 0, n % 2 ^ k != 0⟩ := by
  change (k + 1).repeat ExtendedMantissa.shiftRightOne _ = _
  induction k with
  | zero => simp [Nat.repeat, ExtendedMantissa.shiftRightOne,
      ExtendedMantissa.ofMantissaAndAccuracy, Nat.mod_one]
  | succ k ih =>
    have hrest : (n / 2 ^ k % 2 != 0 || n % 2 ^ k != 0) = (n % 2 ^ (k + 1) != 0) := by
      have hpos := Nat.two_pow_pos k
      rw [Nat.mod_pow_succ, Bool.eq_iff_iff]
      simp only [Bool.or_eq_true, bne_iff_ne, ne_eq, Nat.add_eq_zero_iff, Nat.mul_eq_zero]
      omega
    rw [Nat.repeat, ih, ExtendedMantissa.shiftRightOne, hrest, Nat.div_div_eq_div_mul,
      ← Nat.pow_succ]

/-- `n / 2 ^ (k + 1)` rounded to the nearest natural, halves to the even one. -/
def nearest (n k : Nat) : Nat :=
  (ExtendedMantissa.ofMantissaAndAccuracy n .exact >>> (k + 1)).roundedMantissa

theorem nearest_eq (n k : Nat) : nearest n k = n / 2 ^ (k + 1) +
    (if n / 2 ^ k % 2 = 0 then 0 else if n % 2 ^ k = 0 then n / 2 ^ (k + 1) % 2 else 1) := by
  have hhalf : (n / 2 ^ k % 2 != 0) = !decide (n / 2 ^ k % 2 = 0) := rfl
  have hrest : (n % 2 ^ k != 0) = !decide (n % 2 ^ k = 0) := rfl
  rw [nearest, shift_succ, hhalf, hrest]
  by_cases h : n / 2 ^ k % 2 = 0 <;> by_cases h' : n % 2 ^ k = 0 <;> simp only [h, h'] <;> rfl

theorem nearest_mono {n n' : Nat} (h : n ≤ n') (k : Nat) : nearest n k ≤ nearest n' k := by
  have hpow : 2 ^ (k + 1) = 2 ^ k * 2 := Nat.pow_succ ..
  have hhalves : n / 2 ^ k ≤ n' / 2 ^ k := Nat.div_le_div_right h
  have hsplit := Nat.div_add_mod n (2 ^ k)
  have hsplit' := Nat.div_add_mod n' (2 ^ k)
  rw [nearest_eq, nearest_eq, hpow, ← Nat.div_div_eq_div_mul, ← Nat.div_div_eq_div_mul]
  generalize n / 2 ^ k = a at *
  generalize n' / 2 ^ k = a' at *
  rcases Nat.lt_or_eq_of_le hhalves with hlt | rfl
  · split_ifs <;> omega
  · split_ifs <;> omega

theorem le_nearest (n k : Nat) : n / 2 ^ (k + 1) ≤ nearest n k := by
  rw [nearest_eq]
  exact Nat.le_add_right _ _

theorem nearest_le (n k : Nat) : nearest n k ≤ n / 2 ^ (k + 1) + 1 := by
  rw [nearest_eq]
  split_ifs <;> omega

section

variable {k : Nat}

/-- A natural with its leading bit moved to the 53rd place. -/
theorem nearest_bounds (hpos : 0 < k) : 2 ^ 52 ≤ nearest (k * 2 ^ 53) k.log2 ∧
    nearest (k * 2 ^ 53) k.log2 ≤ 2 ^ 53 := by
  have hpower : 2 ^ 52 * 2 ^ (k.log2 + 1) = 2 ^ k.log2 * 2 ^ 53 := by
    rw [← Nat.pow_add, ← Nat.pow_add]
    congr 1
    omega
  have hlow : 2 ^ k.log2 ≤ k := Nat.log2_self_le (Nat.ne_of_gt hpos)
  have hhigh : k < 2 ^ (k.log2 + 1) := Nat.lt_log2_self
  have hdiv : 2 ^ 52 ≤ k * 2 ^ 53 / 2 ^ (k.log2 + 1) := by
    rw [Nat.le_div_iff_mul_le (Nat.two_pow_pos _), hpower]
    exact Nat.mul_le_mul_right _ hlow
  have hdiv' : k * 2 ^ 53 / 2 ^ (k.log2 + 1) < 2 ^ 53 := by
    rw [Nat.div_lt_iff_lt_mul (Nat.two_pow_pos _), Nat.mul_comm]
    exact Nat.mul_lt_mul_of_pos_left hhigh (Nat.two_pow_pos 53)
  exact ⟨hdiv.trans (le_nearest _ _), (nearest_le _ _).trans hdiv'⟩

/-- The place of the float that a natural is rounded to. -/
def natPlace (k : Nat) : Int := (k.log2 + 1023) * 0x10000000000000 + nearest (k * 2 ^ 53) k.log2

theorem round_natPlace (hpos : 0 < k) (hk : k < 2 ^ 64) : ∃ m e, ∃ h : Canonical m e,
    roundWithAccuracy .binary64 .positive (k * 2 ^ 53) (-53) .exact = .finite .positive m e h.pos ∧
      finitePlace m e = natPlace k := by
  have hlog : k.log2 < 64 := (Nat.log2_lt (Nat.ne_of_gt hpos)).mpr hk
  have hfirst : shiftToTargetExponent .binary64 (k * 2 ^ 53) (-53) .exact =
      (ExtendedMantissa.ofMantissaAndAccuracy (k * 2 ^ 53) .exact >>> (k.log2 + 1),
        (k.log2 : Int) - 52) := by
    have htarget : Format.binary64.targetExponent (totalExponent (k * 2 ^ 53) (-53)) =
        (k.log2 : Int) - 52 := by
      rw [totalExponent, log2_mul_two_pow hpos]
      simp only [Format.targetExponent, Format.mantissaBits, Format.minExponent]
      omega
    rw [shiftToTargetExponent, htarget, shiftToExponent,
      show ((k.log2 : Int) - 52 - -53).toNat = k.log2 + 1 by omega]
    congr 1
    omega
  obtain ⟨hlow, hhigh⟩ := nearest_bounds hpos
  have hrounded {m : Nat} {e : Int} (h : Canonical m e)
      (hshift : shiftToTargetExponent .binary64 (nearest (k * 2 ^ 53) k.log2) (k.log2 - 52) .exact =
        (ExtendedMantissa.ofMantissaAndAccuracy m .exact, e)) :
      roundWithAccuracy .binary64 .positive (k * 2 ^ 53) (-53) .exact =
        .finite .positive m e h.pos := by
    have hm : (ExtendedMantissa.ofMantissaAndAccuracy m .exact).mantissa ≠ 0 := Nat.ne_of_gt h.pos
    rw [nearest] at hshift
    rw [roundWithAccuracy, hfirst]
    simp only [hshift, dif_neg hm]
    rfl
  rcases Nat.lt_or_eq_of_le hhigh with hfits | hfull
  · have hc : Canonical (nearest (k * 2 ^ 53) k.log2) (k.log2 - 52) :=
      ⟨by omega, hfits, by omega, by omega, .inr hlow⟩
    have hshift := shiftToTargetExponent_exact hc (Int.le_refl _)
    rw [Int.sub_self, Int.toNat_zero, Nat.pow_zero, Nat.mul_one] at hshift
    refine ⟨_, _, hc, hrounded hc hshift, ?_⟩
    unfold finitePlace natPlace
    omega
  · -- rounding up took one bit more
    have hc : Canonical (2 ^ 52) (k.log2 - 51) :=
      ⟨by decide, by decide, by omega, by omega, .inr (by decide)⟩
    have hshift := shiftToTargetExponent_exact hc (E := k.log2 - 52) (by omega)
    rw [show ((k.log2 : Int) - 51 - (k.log2 - 52)).toNat = 1 by omega,
      show 2 ^ 52 * 2 ^ 1 = 2 ^ 53 from rfl, ← hfull] at hshift
    refine ⟨_, _, hc, hrounded hc hshift, ?_⟩
    unfold finitePlace natPlace
    omega

/-- A natural of at most 53 bits is the value of a float, and so rounded to it. -/
theorem round_of_lt (hpos : 0 < k) (hk : k < 2 ^ 53) :
    roundWithAccuracy .binary64 .positive (k * 2 ^ 53) (-53) .exact =
      (Float.ofNat k).toModel.unpack := by
  obtain ⟨m, e, h, hvalue⟩ := exists_canonical hpos (Nat.le_of_lt hk)
  have hfits := h.fits
  have hlow : -53 ≤ e := by
    by_contra hlow
    rw [show e.toNat = 0 by omega, Nat.pow_zero, Nat.mul_one] at hvalue
    have hpow : 2 ^ 53 ≤ 2 ^ (-e).toNat := Nat.pow_le_pow_right (by decide) (by omega)
    have := Nat.le_mul_of_pos_left (2 ^ (-e).toNat) hpos
    omega
  have hscaled : m * 2 ^ (e - -53).toNat = k * 2 ^ 53 := by
    rcases Int.lt_or_le e 0 with hneg | hnonneg
    · rw [show e.toNat = 0 by omega, Nat.pow_zero, Nat.mul_one] at hvalue
      rw [← hvalue, Nat.mul_assoc, ← Nat.pow_add]
      congr 2
      omega
    · rw [show (-e).toNat = 0 by omega, Nat.pow_zero, Nat.mul_one] at hvalue
      rw [hvalue, Nat.mul_assoc, ← Nat.pow_add]
      congr 2
      omega
  rw [← hscaled, roundWithAccuracy_exact .positive h hlow, unpack_ofNat h hvalue]

theorem unpack_ofNat_natPlace (hpos : 0 < k) (hk : k < 2 ^ 64) : ∃ m e, ∃ h : Canonical m e,
    (Float.ofNat k).toModel.unpack = .finite .positive m e h.pos ∧ finitePlace m e = natPlace k := by
  obtain ⟨m, e, h, hround, hplace⟩ := round_natPlace hpos hk
  refine ⟨m, e, h, ?_, hplace⟩
  rcases Nat.lt_or_ge k (2 ^ 53) with hlt | hle
  · rw [← round_of_lt hpos hlt, hround]
  · rw [unpack_ofNat_of_le hle, hround, unpack_model_pack h]

end

theorem natPlace_mono {k l : Nat} (hpos : 0 < k) (h : k ≤ l) : natPlace k ≤ natPlace l := by
  have hlog : k.log2 ≤ l.log2 := (Nat.le_log2 (by omega)).mpr
    ((Nat.log2_self_le (Nat.ne_of_gt hpos)).trans h)
  have hk := nearest_bounds hpos
  have hl := nearest_bounds (hpos.trans_le h)
  unfold natPlace
  rcases Nat.lt_or_eq_of_le hlog with hlt | heq
  · omega
  · have := nearest_mono (Nat.mul_le_mul_right (2 ^ 53) h) l.log2
    rw [heq]
    omega

/-- The place of the float that an integer is converted to. -/
def intPlace : Int → Int
  | .ofNat 0 => 0
  | .ofNat k => natPlace k
  | .negSucc k => -natPlace (k + 1)

theorem natPlace_pos (k : Nat) : 0 < natPlace k := by
  unfold natPlace
  omega

theorem intPlace_mono {i j : Int} (h : i ≤ j) : intPlace i ≤ intPlace j := by
  have hpos := natPlace_pos
  match i, j with
  | .ofNat 0, .ofNat 0 => exact Int.le_refl _
  | .ofNat 0, .ofNat (l + 1) => exact Int.le_of_lt (hpos _)
  | .ofNat (k + 1), .ofNat 0 => simp at h; omega
  | .ofNat (k + 1), .ofNat (l + 1) => exact natPlace_mono (Nat.succ_pos k) (Int.ofNat_le.mp h)
  | .ofNat k, .negSucc l => simp at h; omega
  | .negSucc k, .ofNat 0 => have := hpos (k + 1); simp only [intPlace]; omega
  | .negSucc k, .ofNat (l + 1) =>
    have := hpos (k + 1)
    have := hpos (l + 1)
    simp only [intPlace]
    omega
  | .negSucc k, .negSucc l =>
    exact Int.neg_le_neg (natPlace_mono (Nat.succ_pos l) (show l + 1 ≤ k + 1 by omega))

/-- Integers of 64 bits are converted to numbers. -/
theorem unpack_ofInt {n : Int} (hn : n.natAbs < 2 ^ 64) :
    IsNumber (Float.ofInt n) ∧ place (Float.ofInt n).toModel.unpack = intPlace n := by
  match n with
  | .ofNat 0 => exact ⟨nofun, rfl⟩
  | .ofNat (k + 1) =>
    obtain ⟨m, e, h, hunpack, hplace⟩ := unpack_ofNat_natPlace (Nat.succ_pos k) hn
    change (Float.ofNat (k + 1)).toModel.unpack ≠ _ ∧ place (Float.ofNat (k + 1)).toModel.unpack = _
    rw [hunpack]
    exact ⟨nofun, hplace⟩
  | .negSucc k =>
    obtain ⟨m, e, h, hunpack, hplace⟩ := unpack_ofNat_natPlace (Nat.succ_pos k) hn
    change (Float.ofNat (k + 1)).neg.toModel.unpack ≠ _ ∧
      place (Float.ofNat (k + 1)).neg.toModel.unpack = _
    rw [unpack_neg h hunpack]
    exact ⟨nofun, congrArg Neg.neg hplace⟩

end Binary

theorem isNumber_floatOfInt (i : Int64) : Binary.IsNumber (floatOfInt i) :=
  (Binary.unpack_ofInt (by have := i.le_toInt; have := i.toInt_lt; omega)).1

/-- Conversion to floats keeps the order of integers, though not always their difference. -/
theorem place_floatOfInt_mono {i j : Int64} (h : i ≤ j) :
    Binary.place (floatOfInt i).toModel.unpack ≤ Binary.place (floatOfInt j).toModel.unpack := by
  have hplace (n : Int64) : Binary.place (floatOfInt n).toModel.unpack = Binary.intPlace n.toInt :=
    (Binary.unpack_ofInt (by have := n.le_toInt; have := n.toInt_lt; omega)).2
  rw [hplace, hplace]
  exact Binary.intPlace_mono (Int64.le_iff_toInt_le.mp h)

theorem isNumber_ofBits {bits : UInt64} (h : Binary.isNaN bits = false) :
    Binary.IsNumber (Float.ofBits bits) := by
  rw [Binary.IsNumber, Binary.unpack_ofBits]
  exact fun hview ↦ Bool.false_ne_true (h.symm.trans ((Binary.isNaN_iff bits).mpr hview))

end MiniLua
