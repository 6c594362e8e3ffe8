import Mathlib
import MiniLua.Number.Binary

/-!
Floats as the logic sees them: a sign, a significand and an exponent. The bits of a float have one
such form, equality of floats is equality of forms but for the two zeros, and an integer that some
float has as its value is converted to that float.
-/

namespace MiniLua

open Float.Model Float.Model.UnpackedFloat

/-- A significand and an exponent as finite floats have them: as many bits as fit, and fewer only
at the lowest exponent. -/
structure Canonical (m : Nat) (e : Int) : Prop where
  pos : 0 < m
  fits : m < 0x20000000000000
  low : -1074 ≤ e
  high : e ≤ 971
  normal : e = -1074 ∨ 0x10000000000000 ≤ m

namespace Canonical

variable {m : Nat} {e : Int}

theorem log2_le (h : Canonical m e) : m.log2 ≤ 52 :=
  Nat.le_of_lt_succ ((Nat.log2_lt (Nat.ne_of_gt h.pos)).mpr h.fits)

theorem log2_eq (h : Canonical m e) (hm : 0x10000000000000 ≤ m) : m.log2 = 52 :=
  Nat.le_antisymm h.log2_le ((Nat.le_log2 (Nat.ne_of_gt h.pos)).mpr hm)

theorem targetExponent_eq (h : Canonical m e) :
    Format.binary64.targetExponent (totalExponent m e) = e := by
  have hlog := h.log2_le
  have hlow := h.low
  simp only [Format.targetExponent, totalExponent, Format.mantissaBits, Format.minExponent]
  rcases h.normal with he | hm
  · omega
  · have := h.log2_eq hm
    omega

end Canonical

namespace Binary

/-- What a sign, a biased exponent and a fraction stand for. -/
def assemble (s : Sign) (biased fraction : Nat) : UnpackedFloat :=
  if biased = 2047 then
    if fraction = 0 then .infinity s else .notANumber
  else if biased = 0 then
    if h : fraction = 0 then .zero s else .finite s fraction (-1074) (Nat.pos_of_ne_zero h)
  else .finite s (0x10000000000000 + fraction) (biased - 1075) (by omega)

/-- What the bits of a float stand for. -/
def view (bits : UInt64) : UnpackedFloat := UnpackedFloat.unpack .binary64 bits.toBitVec

/-- The sign bit. -/
def signOf (bits : UInt64) : Sign :=
  if bits.toNat / 0x8000000000000000 = 1 then .negative else .positive

theorem toNat_leading (v : BitVec 52) : (1#1 ++ v).toNat = 0x10000000000000 + v.toNat := by
  rw [BitVec.toNat_append, ← Nat.shiftLeft_add_eq_or_of_lt v.isLt]
  simp [Nat.shiftLeft_eq]

theorem unpack_eq (b : BitVec Format.binary64.numBits) :
    UnpackedFloat.unpack .binary64 b =
      assemble (Sign.ofBitVec (unpackSign b)) (unpackExponent b).toNat (unpackMantissa b).toNat := by
  have hones : unpackExponent b = -1#_ ↔ (unpackExponent b).toNat = 2047 := by
    rw [← BitVec.toNat_inj]
    rfl
  have hzero : unpackExponent b = 0#_ ↔ (unpackExponent b).toNat = 0 := by
    rw [← BitVec.toNat_inj]
    rfl
  have hfraction : unpackMantissa b = 0#_ ↔ (unpackMantissa b).toNat = 0 := by
    rw [← BitVec.toNat_inj]
    rfl
  unfold UnpackedFloat.unpack assemble
  simp only [hones, hzero, hfraction, Format.exponentBias]
  split
  · rfl
  · split
    · split
      · rfl
      · congr 1
        omega
    · congr 1
      exact toNat_leading _

/-- The sign, the biased exponent and the fraction of a float. -/
theorem view_eq (bits : UInt64) :
    view bits = assemble (signOf bits) (bits.toNat / 0x10000000000000 % 2048)
      (bits.toNat % 0x10000000000000) := by
  have hbits := bits.toNat_lt
  have hsign : Sign.ofBitVec (@unpackSign .binary64 bits.toBitVec) = signOf bits := by
    have htoNat : (@unpackSign .binary64 bits.toBitVec).toNat =
        bits.toNat / 0x8000000000000000 := by
      change (bits.toNat >>> 63) % 2 ^ 1 = _
      rw [Nat.shiftRight_eq_div_pow]
      omega
    simp only [Sign.ofBitVec, signOf, ← BitVec.toNat_inj, htoNat, BitVec.toNat_ofNat]
    split <;> split <;> first | rfl | omega
  have hexponent : (@unpackExponent .binary64 bits.toBitVec).toNat =
      bits.toNat / 0x10000000000000 % 2048 := by
    change (bits.toNat >>> 52) % 2 ^ 11 = _
    rw [Nat.shiftRight_eq_div_pow]
  have hfraction : (@unpackMantissa .binary64 bits.toBitVec).toNat =
      bits.toNat % 0x10000000000000 := by
    change (bits.toNat >>> 0) % 2 ^ 52 = _
    rw [Nat.shiftRight_zero]
  rw [view, unpack_eq, hsign, hexponent, hfraction]

/-- The forms the bits of floats have. -/
inductive Proper : UnpackedFloat → Prop
  | infinity (s : Sign) : Proper (.infinity s)
  | notANumber : Proper .notANumber
  | zero (s : Sign) : Proper (.zero s)
  | finite (s : Sign) {m : Nat} {e : Int} (h : Canonical m e) : Proper (.finite s m e h.pos)

theorem proper_view (bits : UInt64) : Proper (view bits) := by
  rw [view_eq, assemble]
  split
  · split
    · exact .infinity _
    · exact .notANumber
  · split
    · split
      · exact .zero _
      · next h => exact .finite _ ⟨Nat.pos_of_ne_zero h, by omega, by omega, by omega, .inl rfl⟩
    · exact .finite _ ⟨by omega, by omega, by omega, by omega, .inr (by omega)⟩

theorem unpack_packComponents (s : Sign) (e : BitVec 11) (m : BitVec 52) :
    UnpackedFloat.unpack .binary64 (packComponents .binary64 s e m) =
      assemble s e.toNat m.toNat := by
  rw [unpack_eq, unpackExponent_packComponents, unpackMantissa_packComponents,
    unpackSign_packComponents, Sign.ofBitVec_toBitVec]

/-- A form that floats have is read back from the bits it is written into. -/
theorem unpack_pack (s : Sign) {m : Nat} {e : Int} (h : Canonical m e) :
    UnpackedFloat.unpack .binary64 (UnpackedFloat.pack .binary64 (.finite s m e h.pos)) =
      .finite s m e h.pos := by
  have hlow := h.low
  have hhigh := h.high
  have hfits := h.fits
  have hbiased : (e + Format.binary64.exponentBias +
      Format.binary64.mantissaBitsWithoutImplicit).toNat = (e + 1075).toNat := by
    simp only [Format.exponentBias]
    omega
  simp only [UnpackedFloat.pack, hbiased, Format.mantissaBits]
  have hfinite : ¬ 2 ^ Format.binary64.exponentBits ≤ (e + 1075).toNat + 1 := by
    change ¬ 2048 ≤ (e + 1075).toNat + 1
    omega
  rw [if_neg hfinite]
  split
  · next hlog =>
    have hlog : 52 ≤ m.log2 := by
      change m.log2 + 1 = 1 + 52 at hlog
      omega
    have hm : 0x10000000000000 ≤ m := (Nat.le_log2 (Nat.ne_of_gt h.pos)).mp hlog
    rw [unpack_packComponents, BitVec.toNat_ofNat, BitVec.toNat_ofNat, assemble,
      if_neg (by omega), if_neg (by omega)]
    congr 1 <;> omega
  · next hlog =>
    have hm : ¬ 0x10000000000000 ≤ m := fun hm ↦ hlog (by rw [h.log2_eq hm])
    have he := h.normal.resolve_right hm
    have hpos := h.pos
    have hzero : ¬ m % 2 ^ 52 = 0 := by omega
    rw [unpack_packComponents, BitVec.toNat_ofNat, BitVec.toNat_ofNat, assemble,
      if_neg (by decide), if_pos (by rfl), dif_neg hzero]
    congr 1 <;> omega

theorem unpack_model_pack {s : Sign} {m : Nat} {e : Int} (h : Canonical m e) :
    (Float.Model.pack (.finite s m e h.pos)).unpack = .finite s m e h.pos :=
  unpack_pack s h

theorem view_of_isNaNBits {bits : UInt64} (h : @isNaNBits .binary64 bits.toBitVec = true) :
    view bits = .notANumber := by
  simp only [isNaNBits, decide_eq_true_eq] at h
  rw [view, UnpackedFloat.unpack]
  simp only [h.1, h.2, if_true, if_false]

/-- Only NaN changes its bits. -/
theorem unpack_ofBits (bits : UInt64) : (Float.ofBits bits).toModel.unpack = view bits := by
  change UnpackedFloat.unpack .binary64
    (UnpackedFloat.pack .binary64 (UnpackedFloat.unpack .binary64 bits.toBitVec)) = _
  rw [pack_unpack]
  split
  · next hnan => rw [unpack_packedNaN, view_of_isNaNBits hnan]
  · rfl

theorem toBits_ofBits {bits : UInt64} (h : view bits ≠ .notANumber) :
    (Float.ofBits bits).toBits = bits := by
  change UInt64.ofBitVec
    (UnpackedFloat.pack .binary64 (UnpackedFloat.unpack .binary64 bits.toBitVec)) = _
  rw [pack_unpack, if_neg fun hnan ↦ h (view_of_isNaNBits hnan)]

/-- The bits of a float tell which it is. -/
theorem ofBits_toBits (x : Float) : Float.ofBits x.toBits = x := by
  obtain ⟨bits, hvalid⟩ := x
  have hbits : pack .binary64 (unpack .binary64 bits.toBitVec) = bits.toBitVec := by
    rw [pack_unpack]
    split
    · next hnan =>
      simp only [isNaNBits, decide_eq_true_eq] at hnan
      exact (hvalid.eq_packedNaN hnan.1 hnan.2).symm
    · rfl
  change Float.ofModel (Float.Model.pack (unpack .binary64 bits.toBitVec)) = _
  simp only [Float.Model.pack, hbits]

theorem eq_of_view {a b : UInt64} (h : view a = view b) (hnan : view a ≠ .notANumber) : a = b := by
  refine (toBits_ofBits hnan).symm.trans (Eq.trans ?_ (toBits_ofBits (h ▸ hnan)))
  exact congrArg (fun u ↦ UInt64.ofBitVec (UnpackedFloat.pack .binary64 u)) h

/-! ### Equality -/

/-- Forms that are equal as numbers; NaN is not. -/
inductive Alike : UnpackedFloat → UnpackedFloat → Prop
  | infinity (s : Sign) : Alike (.infinity s) (.infinity s)
  | zero (s t : Sign) : Alike (.zero s) (.zero t)
  | finite (s : Sign) (m : Nat) (e : Int) (h : 0 < m) : Alike (.finite s m e h) (.finite s m e h)

namespace Alike

variable {u v w : UnpackedFloat}

theorem symm (h : Alike u v) : Alike v u := by
  cases h with
  | infinity s => exact .infinity s
  | zero s t => exact .zero t s
  | finite s m e h => exact .finite s m e h

theorem trans (h : Alike u v) (h' : Alike v w) : Alike u w := by
  cases h with
  | infinity s => exact h'
  | zero s t =>
    cases h' with
    | zero _ r => exact .zero s r
  | finite s m e h => exact h'

end Alike

theorem Alike.ne_notANumber {u v : UnpackedFloat} (h : Alike u v) : u ≠ .notANumber := by
  cases h <;> exact UnpackedFloat.noConfusion

theorem Alike.eq {u v : UnpackedFloat} (h : Alike u v) (hzero : ∀ s, u ≠ .zero s) : u = v := by
  cases h with
  | zero s t => exact absurd rfl (hzero s)
  | infinity | finite => rfl

theorem beq_iff {u v : UnpackedFloat} : u.beq v = true ↔ Alike u v := by
  rw [beq_iff_ne_notANumber_and_eq]
  constructor
  · rintro ⟨hu, -, rfl | ⟨rfl, rfl⟩ | ⟨rfl, rfl⟩⟩
    · cases u with
      | infinity s => exact .infinity s
      | notANumber => exact absurd rfl hu
      | zero s => exact .zero s s
      | finite s m e h => exact .finite s m e h
    · exact .zero _ _
    · exact .zero _ _
  · intro h
    refine ⟨h.ne_notANumber, h.symm.ne_notANumber, ?_⟩
    cases h with
    | zero s t => cases s <;> cases t <;> simp
    | _ => exact .inl rfl

theorem float_beq_iff {x y : Float} : (x == y) = true ↔ Alike x.toModel.unpack y.toModel.unpack :=
  beq_iff

/-! ### Whole numbers -/

/-- The form stands for the integer. -/
inductive Stands : UnpackedFloat → Int → Prop
  | zero (s : Sign) : Stands (.zero s) 0
  | finite (s : Sign) {m k : Nat} {e : Int} (h : 0 < m)
      (hk : k * 2 ^ (-e).toNat = m * 2 ^ e.toNat) : Stands (.finite s m e h) (s.apply k)

theorem Alike.stands {u v : UnpackedFloat} (h : Alike u v) {n : Int} (hn : Stands u n) :
    Stands v n := by
  cases h with
  | infinity => exact hn
  | zero s t =>
    cases hn
    exact .zero t
  | finite => exact hn

def isNegative : Sign → Bool
  | .negative => true
  | .positive => false

/-- The exact value of a form. -/
def ofView? : UnpackedFloat → Option Binary
  | .zero s => some ⟨isNegative s, 0, -1074⟩
  | .finite s m e _ => some ⟨isNegative s, m, e⟩
  | _ => none

theorem ofBits?_eq (bits : UInt64) : ofBits? bits = ofView? (view bits) := by
  have hsign : decide (bits.toNat / 0x8000000000000000 = 1) = isNegative (signOf bits) := by
    unfold signOf
    split <;> simp_all [isNegative]
  rw [view_eq, assemble, ofBits?]
  simp only [hsign]
  split
  · split <;> rfl
  · split
    · split
      · next h => rw [h]; rfl
      · rfl
    · rfl

theorem isNaN_iff (bits : UInt64) : isNaN bits = true ↔ view bits = .notANumber := by
  rw [view_eq, assemble, isNaN]
  split
  · split <;> simp_all
  · split
    · split <;> simp_all
    · simp_all

theorem eq_zero_of_mul_two_pow {k a b : Nat} (h : k * 2 ^ a = 0 * 2 ^ b) : k = 0 :=
  (Nat.mul_eq_zero.mp (h.trans (Nat.zero_mul _))).resolve_right (Nat.ne_of_gt (Nat.two_pow_pos _))

theorem whole?_eq_some {b : Binary} {n : Int} :
    b.whole? = some n ↔ ∃ k : Nat, n = b.signed k ∧
      k * 2 ^ (-b.exponent).toNat = b.significand * 2 ^ b.exponent.toNat := by
  unfold whole? truncate ratio
  split
  · next he =>
    have hneg : (-b.exponent).toNat = 0 := by omega
    simp only [Nat.mod_one, if_true, Nat.div_one, hneg, Nat.pow_zero, Nat.mul_one,
      Option.some.injEq]
    constructor
    · rintro rfl
      exact ⟨_, rfl, rfl⟩
    · rintro ⟨k, rfl, rfl⟩
      rfl
  · next he =>
    have hneg : b.exponent.toNat = 0 := by omega
    have hpos : 0 < 2 ^ (-b.exponent).toNat := Nat.two_pow_pos _
    simp only [hneg, Nat.pow_zero, Nat.mul_one, ← Nat.dvd_iff_mod_eq_zero]
    constructor
    · intro h
      split at h
      · next hdvd =>
        cases h
        exact ⟨_, rfl, Nat.div_mul_cancel hdvd⟩
      · cases h
    · rintro ⟨k, rfl, hk⟩
      change (if 2 ^ (-b.exponent).toNat ∣ b.significand then
        some (b.signed (b.significand / 2 ^ (-b.exponent).toNat)) else none) = _
      rw [← hk, if_pos (Nat.dvd_mul_left _ _), Nat.mul_div_cancel _ hpos]

end Binary

theorem int64?_eq_some {n : Int} {i : Int64} : int64? n = some i ↔ n = i.toInt := by
  constructor
  · intro h
    exact (toInt_of_int64? h).symm
  · rintro rfl
    have hlow := i.le_toInt
    have hhigh := i.toInt_lt
    rw [int64?, if_pos ⟨by omega, by omega⟩, Int64.ofInt_toInt]

theorem wholeInt64?_eq_some {bits : UInt64} {i : Int64} :
    wholeInt64? bits = some i ↔ Binary.Stands (Binary.view bits) i.toInt := by
  have hwhole : wholeInt64? bits = some i ↔
      ∃ b, Binary.ofView? (Binary.view bits) = some b ∧ b.whole? = some i.toInt := by
    simp only [wholeInt64?, Option.bind_eq_some_iff, int64?_eq_some, Binary.ofBits?_eq]
    constructor
    · rintro ⟨n, ⟨b, hb, hn⟩, rfl⟩
      exact ⟨b, hb, hn⟩
    · rintro ⟨b, hb, hn⟩
      exact ⟨_, ⟨b, hb, hn⟩, rfl⟩
  rw [hwhole]
  constructor
  · rintro ⟨b, hb, hn⟩
    obtain ⟨k, hi, hk⟩ := Binary.whole?_eq_some.mp hn
    generalize Binary.view bits = u at hb
    cases u with
    | infinity | notANumber => cases hb
    | zero s =>
      cases hb
      have hk : k = 0 := Binary.eq_zero_of_mul_two_pow hk
      have hzero : i.toInt = 0 := by rw [hi, hk]; cases s <;> rfl
      rw [hzero]
      exact .zero s
    | finite s m e hm =>
      cases hb
      have hsigned : i.toInt = s.apply k := by rw [hi]; cases s <;> rfl
      rw [hsigned]
      exact .finite s hm hk
  · intro h
    generalize Binary.view bits = u at h
    generalize hn : i.toInt = n at h
    cases h with
    | zero s => exact ⟨_, rfl, Binary.whole?_eq_some.mpr ⟨0, by cases s <;> rfl,
        (Nat.zero_mul _).trans (Nat.zero_mul _).symm⟩⟩
    | @finite s m k e hm hk =>
      exact ⟨_, rfl, Binary.whole?_eq_some.mpr ⟨k, by cases s <;> rfl, hk⟩⟩

namespace Binary

/-! ### Rounding -/

theorem shift_exact (m k : Nat) :
    (ExtendedMantissa.ofMantissaAndAccuracy (m * 2 ^ k) .exact >>> k) =
      ExtendedMantissa.ofMantissaAndAccuracy m .exact := by
  change k.repeat ExtendedMantissa.shiftRightOne _ = _
  induction k generalizing m with
  | zero => rw [Nat.pow_zero, Nat.mul_one]; rfl
  | succ k ih =>
    rw [Nat.pow_succ', ← Nat.mul_assoc, Nat.repeat, ih]
    simp [ExtendedMantissa.shiftRightOne, ExtendedMantissa.ofMantissaAndAccuracy]

theorem log2_mul_two_pow {m : Nat} (hm : 0 < m) (k : Nat) : (m * 2 ^ k).log2 = m.log2 + k := by
  induction k with
  | zero => rw [Nat.pow_zero, Nat.mul_one, Nat.add_zero]
  | succ k ih =>
    rw [Nat.pow_succ', Nat.mul_left_comm, Nat.log2_two_mul, ih, Nat.add_assoc]
    exact Nat.ne_of_gt (Nat.mul_pos hm (Nat.two_pow_pos k))

theorem shiftToTargetExponent_exact {m : Nat} {e E : Int} (h : Canonical m e) (hE : E ≤ e) :
    shiftToTargetExponent .binary64 (m * 2 ^ (e - E).toNat) E .exact =
      (ExtendedMantissa.ofMantissaAndAccuracy m .exact, e) := by
  have htotal : totalExponent (m * 2 ^ (e - E).toNat) E = totalExponent m e := by
    simp only [totalExponent, log2_mul_two_pow h.pos]
    omega
  rw [shiftToTargetExponent, htotal, h.targetExponent_eq, shiftToExponent, shift_exact]
  congr 1
  omega

/-- A value that a float has is rounded to that float. -/
theorem roundWithAccuracy_exact (s : Sign) {m : Nat} {e E : Int} (h : Canonical m e) (hE : E ≤ e) :
    roundWithAccuracy .binary64 s (m * 2 ^ (e - E).toNat) E .exact = .finite s m e h.pos := by
  have hagain : shiftToTargetExponent .binary64 m e .exact =
      (ExtendedMantissa.ofMantissaAndAccuracy m .exact, e) := by
    simpa using shiftToTargetExponent_exact h (Int.le_refl e)
  have hround : (ExtendedMantissa.ofMantissaAndAccuracy m .exact).roundedMantissa = m := rfl
  have hm : (ExtendedMantissa.ofMantissaAndAccuracy m .exact).mantissa ≠ 0 := Nat.ne_of_gt h.pos
  rw [roundWithAccuracy, shiftToTargetExponent_exact h hE]
  simp only [hround, hagain, dif_neg hm]
  rfl

section

variable {k m : Nat} {e : Int}

theorem pos_of_value (h : Canonical m e) (hk : k * 2 ^ (-e).toNat = m * 2 ^ e.toNat) : 0 < k := by
  refine Nat.pos_of_ne_zero fun hzero ↦ Nat.ne_of_gt h.pos ?_
  exact eq_zero_of_mul_two_pow (hk.symm.trans (by rw [hzero]))

/-- Rounding a natural finds the float that has it as its value. -/
theorem round_exact (h : Canonical m e) (hk : k * 2 ^ (-e).toNat = m * 2 ^ e.toNat) :
    UnpackedFloat.round .binary64 .positive k 0 = .finite .positive m e h.pos := by
  have hpos := pos_of_value h hk
  have htotal : totalExponent k 0 = totalExponent m e := by
    have hlog := congrArg Nat.log2 hk
    rw [log2_mul_two_pow hpos, log2_mul_two_pow h.pos] at hlog
    simp only [totalExponent]
    omega
  have hshift : decreaseExponent k 0 e =
      (m * 2 ^ (e - (-((-e).toNat : Int))).toNat, -((-e).toNat : Int)) := by
    have hrest : (e - (-((-e).toNat : Int))).toNat = e.toNat := by omega
    rw [hrest, ← hk]
    simp only [decreaseExponent, Nat.shiftLeft_eq, Int.zero_sub]
  rw [UnpackedFloat.round, htotal, h.targetExponent_eq]
  simp only [hshift]
  exact roundWithAccuracy_exact .positive h (by omega)

/-- Conversion of naturals of at most 53 bits goes through a product with one. -/
theorem unpack_ofNat_of_lt (h : Canonical m e) (hlt : k < 2 ^ 53)
    (hk : k * 2 ^ (-e).toNat = m * 2 ^ e.toNat) :
    (Float.ofNat k).toModel.unpack = .finite .positive m e h.pos := by
  have hfast : Float.ofNat k = k.toUInt64.toFloat * Float.ofBits 0x3FF0000000000000 := by
    change Float.ofScientific k false 0 = _
    rw [Float.ofScientific, dif_pos ⟨hlt, by decide⟩]
    rfl
  have hpos : (0 : Int) < k := Int.natCast_pos.mpr (pos_of_value h hk)
  have hfloat : k.toUInt64.toFloat.toModel.unpack = .finite .positive m e h.pos := by
    have hvalue : k.toUInt64.toNat = k := Nat.mod_eq_of_lt (Nat.lt_trans hlt (by decide))
    change (Float.Model.pack (UnpackedFloat.normalize .binary64 (k.toUInt64.toNat : Int) 0 .positive)).unpack = _
    rw [hvalue, UnpackedFloat.normalize, Int.compare_eq_gt.mpr hpos]
    simp only [Int.toNat_natCast]
    rw [round_exact h hk, unpack_model_pack h]
  have hone : (Float.ofBits 0x3FF0000000000000).toModel.unpack =
      .finite .positive 0x10000000000000 (-52) (by decide) := rfl
  have hpower : 2 ^ (e - (e + -52)).toNat = 0x10000000000000 := by
    have hshift : (e - (e + -52)).toNat = 52 := by omega
    exact (congrArg (2 ^ ·) hshift).trans (by decide)
  have hround := roundWithAccuracy_exact .positive h (E := e + -52) (by omega)
  rw [hpower] at hround
  have hproduct : UnpackedFloat.mul .binary64 (.finite .positive m e h.pos)
      (.finite .positive 0x10000000000000 (-52) (by decide)) = .finite .positive m e h.pos := by
    rw [UnpackedFloat.mul]
    exact hround
  rw [hfast]
  change (Float.Model.pack (UnpackedFloat.mul .binary64 _ _)).unpack = _
  rw [hfloat, hone, hproduct, unpack_model_pack h]

/-- Naturals of more bits are rounded. -/
theorem unpack_ofNat_of_le (hle : 2 ^ 53 ≤ k) : (Float.ofNat k).toModel.unpack =
    (Float.Model.pack (roundWithAccuracy .binary64 .positive (k * 2 ^ 53) (-53) .exact)).unpack := by
  have hslow : Float.ofNat k = .ofModel (.ofScientific k 0) := by
    change Float.ofScientific k false 0 = _
    rw [Float.ofScientific, dif_neg (fun hfast ↦ Nat.not_lt.mpr hle hfast.1)]
    rfl
  have hscientific : UnpackedFloat.ofScientific .binary64 k 0 =
      roundWithAccuracy .binary64 .positive (k * 2 ^ 53) (-53) .exact := by
    have hpos : ¬ k = 0 := by omega
    have hsmall : ¬ (0 : Int) < -((2 ^ 11 : Int) + k.log2) := by omega
    rw [UnpackedFloat.ofScientific, dif_neg hpos, if_neg (by decide), if_neg hsmall,
      if_pos (Int.le_refl 0)]
    change roundWithAccuracy .binary64 .positive ((k <<< 53) * 1) (-53 + 0) .exact = _
    rw [Nat.mul_one, Nat.shiftLeft_eq, Int.add_zero]
  rw [hslow]
  change (Float.Model.pack (UnpackedFloat.ofScientific .binary64 k 0)).unpack = _
  rw [hscientific]

/-- The conversion of a natural that is the value of a float. -/
theorem unpack_ofNat (h : Canonical m e) (hk : k * 2 ^ (-e).toNat = m * 2 ^ e.toNat) :
    (Float.ofNat k).toModel.unpack = .finite .positive m e h.pos := by
  by_cases hlt : k < 2 ^ 53
  · exact unpack_ofNat_of_lt h hlt hk
  -- so many bits are left only with an exponent above zero
  have he : 0 < e := by
    refine Int.not_le.mp fun he ↦ ?_
    rw [show e.toNat = 0 by omega, Nat.pow_zero, Nat.mul_one] at hk
    have := h.fits
    have := Nat.le_mul_of_pos_right k (Nat.two_pow_pos (-e).toNat)
    omega
  have hvalue : m * 2 ^ (e - -53).toNat = k * 2 ^ 53 := by
    rw [show (-e).toNat = 0 by omega, Nat.pow_zero, Nat.mul_one] at hk
    rw [show (e - -53).toNat = e.toNat + 53 by omega, Nat.pow_add, ← Nat.mul_assoc, ← hk]
  have hround := roundWithAccuracy_exact .positive h (E := -53) (by omega)
  rw [hvalue] at hround
  rw [unpack_ofNat_of_le (Nat.not_lt.mp hlt), hround, unpack_model_pack h]

end

theorem unpack_neg {x : Float} {s : Sign} {m : Nat} {e : Int} (h : Canonical m e)
    (hx : x.toModel.unpack = .finite s m e h.pos) :
    x.neg.toModel.unpack = .finite (-s) m e h.pos := by
  change (Float.Model.pack x.toModel.unpack.neg).unpack = _
  rw [hx]
  exact unpack_model_pack h

/-- An integer that some float has as its value is converted to a float equal to that one. -/
theorem alike_floatOfInt {u : UnpackedFloat} (hu : Proper u) {n : Int}
    (h : Stands u n) : Alike (Float.ofInt n).toModel.unpack u := by
  cases h with
  | zero s => exact .zero .positive s
  | @finite s m k e hm hk =>
    cases hu with
    | finite _ hc =>
      have hfloat := unpack_ofNat hc hk
      cases s with
      | positive =>
        change Alike (Float.ofNat k).toModel.unpack _
        rw [hfloat]
        exact .finite ..
      | negative =>
        cases k with
        | zero => exact absurd (pos_of_value hc hk) (Nat.lt_irrefl 0)
        | succ k =>
          change Alike (Float.ofNat (k + 1)).neg.toModel.unpack _
          rw [unpack_neg hc hfloat]
          exact .finite ..

/-- Naturals of at most 53 bits and the next one are values of floats. -/
theorem exists_canonical {k : Nat} (hpos : 0 < k) (hk : k ≤ 2 ^ 53) :
    ∃ m e, Canonical m e ∧ k * 2 ^ (-e).toNat = m * 2 ^ e.toNat := by
  rcases Nat.lt_or_eq_of_le hk with hlt | rfl
  · have hlog : k.log2 ≤ 52 :=
      Nat.le_of_lt_succ ((Nat.log2_lt (Nat.ne_of_gt hpos)).mpr hlt)
    have hshift : (-((k.log2 : Int) - 52)).toNat = 52 - k.log2 := by omega
    have hpower {j : Nat} : 2 ^ (k.log2 + j) * 2 ^ (52 - k.log2) = 2 ^ (52 + j) := by
      rw [← Nat.pow_add]
      congr 1
      omega
    have hlow : 2 ^ 52 ≤ k * 2 ^ (52 - k.log2) := by
      have := Nat.mul_le_mul_right (2 ^ (52 - k.log2)) (Nat.log2_self_le (Nat.ne_of_gt hpos))
      exact Nat.le_trans (Nat.le_of_eq (hpower (j := 0)).symm) this
    have hhigh : k * 2 ^ (52 - k.log2) < 2 ^ 53 := by
      have := Nat.mul_lt_mul_of_pos_right (Nat.lt_log2_self (n := k)) (Nat.two_pow_pos (52 - k.log2))
      exact Nat.lt_of_lt_of_eq this hpower
    refine ⟨k * 2 ^ (52 - k.log2), (k.log2 : Int) - 52,
      ⟨Nat.lt_of_lt_of_le (by decide) hlow, hhigh, by omega, by omega, .inr hlow⟩, ?_⟩
    rw [hshift, show ((k.log2 : Int) - 52).toNat = 0 by omega, Nat.pow_zero, Nat.mul_one]
  · exact ⟨2 ^ 52, 1, ⟨by decide, by decide, by decide, by decide, .inr (by decide)⟩, by decide⟩

end Binary

/-- The float made of an integer is equal to one that has the integer as its value. -/
theorem floatOfInt_beq {bits : UInt64} {i : Int64} (h : wholeInt64? bits = some i) :
    (floatOfInt i == Float.ofBits bits) = true := by
  rw [Binary.float_beq_iff, Binary.unpack_ofBits]
  exact Binary.alike_floatOfInt (Binary.proper_view bits) (wholeInt64?_eq_some.mp h)

theorem wholeInt64?_of_beq {a b : UInt64} (h : (Float.ofBits a == Float.ofBits b) = true) {i : Int64}
    (ha : wholeInt64? a = some i) : wholeInt64? b = some i := by
  rw [Binary.float_beq_iff, Binary.unpack_ofBits, Binary.unpack_ofBits] at h
  exact wholeInt64?_eq_some.mpr (h.stands (wholeInt64?_eq_some.mp ha))

/-- An integer that is the value of some float is the value of all floats equal to it. -/
theorem wholeInt64?_of_floatOfInt_beq {a b : UInt64} {i : Int64} (ha : wholeInt64? a = some i)
    (h : (floatOfInt i == Float.ofBits b) = true) : wholeInt64? b = some i := by
  have ha' := floatOfInt_beq ha
  rw [Binary.float_beq_iff, Binary.unpack_ofBits] at h ha'
  exact wholeInt64?_eq_some.mpr ((ha'.symm.trans h).stands (wholeInt64?_eq_some.mp ha))

/-- Floats of the same integer value are equal. -/
theorem beq_of_wholeInt64? {a b : UInt64} {i : Int64} (ha : wholeInt64? a = some i)
    (hb : wholeInt64? b = some i) : (Float.ofBits a == Float.ofBits b) = true := by
  have ha := floatOfInt_beq ha
  have hb := floatOfInt_beq hb
  rw [Binary.float_beq_iff] at ha hb ⊢
  exact ha.symm.trans hb

theorem beq_self {bits : UInt64} (h : Binary.isNaN bits = false) :
    (Float.ofBits bits == Float.ofBits bits) = true := by
  rw [Binary.float_beq_iff, Binary.unpack_ofBits]
  have hnan : Binary.view bits ≠ .notANumber := fun hview ↦
    Bool.false_ne_true (h.symm.trans ((Binary.isNaN_iff bits).mpr hview))
  generalize Binary.view bits = u at hnan
  cases u with
  | infinity s => exact .infinity s
  | notANumber => exact absurd rfl hnan
  | zero s => exact .zero s s
  | finite s m e h => exact .finite s m e h

/-- Equal floats have the same bits, unless they are zeros and so have an integer value. -/
theorem eq_of_beq {a b : UInt64} (h : (Float.ofBits a == Float.ofBits b) = true)
    (ha : wholeInt64? a = none) : a = b := by
  rw [Binary.float_beq_iff, Binary.unpack_ofBits, Binary.unpack_ofBits] at h
  have hzero (s : Sign) : Binary.view a ≠ .zero s := fun hview ↦ by
    have hwhole : wholeInt64? a = some 0 := wholeInt64?_eq_some.mpr (hview ▸ .zero s)
    rw [ha] at hwhole
    cases hwhole
  exact Binary.eq_of_view (h.eq hzero) h.ne_notANumber

/-- Integers up to 2 ^ 53 are values of floats. -/
theorem exists_wholeInt64? {i : Int64} (h : i.toInt.natAbs ≤ 2 ^ 53) :
    ∃ bits, wholeInt64? bits = some i := by
  by_cases hzero : i.toInt = 0
  · refine ⟨0, wholeInt64?_eq_some.mpr ?_⟩
    rw [hzero]
    exact .zero .positive
  · obtain ⟨m, e, hc, hk⟩ := Binary.exists_canonical (Int.natAbs_pos.mpr hzero) h
    have hview (s : Sign) (hs : s.apply (i.toInt.natAbs : Int) = i.toInt) :
        ∃ bits, wholeInt64? bits = some i := by
      refine ⟨.ofBitVec (UnpackedFloat.pack .binary64 (.finite s m e hc.pos)), ?_⟩
      rw [wholeInt64?_eq_some, Binary.view, Binary.unpack_pack s hc]
      exact hs ▸ .finite s hc.pos hk
    rcases Int.lt_or_lt_of_ne hzero with hneg | hpos
    · exact hview .negative (by simp only [Sign.apply]; omega)
    · exact hview .positive (by simp only [Sign.apply]; omega)

end MiniLua
