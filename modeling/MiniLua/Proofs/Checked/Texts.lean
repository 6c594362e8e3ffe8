import MiniLua.Machine.Operators
import MiniLua.Proofs.Text.Utf8
import Mathlib.Data.Nat.Digits.Defs

/-! The text of a number is short, and its exponent a small number. -/

namespace MiniLua

theorem length_ofText_le (text : String) : (Bytes.ofText text).length ≤ 4 * text.toList.length := by
  rw [Bytes.ofText_eq]
  induction text.toList with
  | nil => exact Nat.le_refl _
  | cons c cs ih =>
    have hc := c.utf8Size_le_four
    rw [List.flatMap_cons, List.length_append, String.length_utf8EncodeChar, List.length_cons]
    omega

theorem length_toDigits_le {n k : Nat} (hk : 0 < k) (hn : n < 10 ^ k) :
    (Nat.toDigits 10 n).length ≤ k := (Nat.length_toDigits_le_iff (by omega) hk).mpr hn

theorem length_intText_le (i : Int64) : (intText i).toList.length ≤ 20 := by
  have hlow := Int64.le_toInt i
  have hhigh := Int64.toInt_lt i
  unfold intText
  generalize i.toInt = k at hlow hhigh ⊢
  cases k with
  | ofNat n =>
    rw [Int.ofNat_eq_natCast] at hhigh
    have hdigits := length_toDigits_le (n := n) (k := 19) (by omega) (by omega)
    have htext : (toString (Int.ofNat n)).toList = Nat.toDigits 10 n := String.toList_ofList
    rw [htext]
    omega
  | negSucc n =>
    have hdigits := length_toDigits_le (n := n + 1) (k := 19) (by omega) (by omega)
    have htext : (toString (Int.negSucc n)).toList = '-' :: Nat.toDigits 10 (n + 1) := by
      change ("-" ++ String.ofList (Nat.toDigits 10 (n + 1))).toList = _
      rw [String.toList_append, String.toList_ofList, String.toList_ofList]
      rfl
    rw [htext, List.length_cons]
    omega

namespace Decimal

variable {num den : Nat}

theorem roundDiv_le (num den : Nat) : roundDiv num den ≤ num + 1 := by
  have hdiv := Nat.div_le_self num den
  unfold roundDiv
  dsimp only
  split
  · omega
  · split <;> omega

theorem digitCount_le {n k : Nat} (hk : 0 < k) (hn : n < 10 ^ k) : digitCount n ≤ k :=
  length_toDigits_le hk hn

/-- Bounds of what a finite float is the quotient of. -/
structure Finite (num den : Nat) : Prop where
  num_lt : num < 2 ^ 1024
  den_le : den ≤ 2 ^ 1074

theorem magnitude_bounds (h : Finite num den) :
    -325 ≤ magnitude num den ∧ magnitude num den ≤ 308 := by
  have hnum := h.num_lt
  have hden := h.den_le
  have hbig : (2 : Nat) ^ 1024 < 10 ^ 309 := by decide +kernel
  have hbig' : (2 : Nat) ^ 1074 < 10 ^ 324 := by decide +kernel
  have hwhole : digitCount (num / den) ≤ 309 :=
    digitCount_le (by omega) ((Nat.div_le_self _ _).trans_lt (hnum.trans hbig))
  have hpart : digitCount (den / num) ≤ 324 :=
    digitCount_le (by omega) ((Nat.div_le_self _ _).trans_lt (hden.trans_lt hbig'))
  unfold magnitude
  split
  · omega
  · dsimp only
    split <;> omega

theorem scientific_bounds (h : Finite num den) :
    (scientific num den).digits.length ≤ 650 ∧ -325 ≤ (scientific num den).exponent ∧
      (scientific num den).exponent ≤ 309 := by
  obtain ⟨hlow, hhigh⟩ := magnitude_bounds h
  unfold scientific
  generalize magnitude num den = x at *
  dsimp only
  generalize hscaled : (if 0 ≤ (precision : Int) - 1 - x then
      roundDiv (num * Nat.pow 10 ((precision : Int) - 1 - x).toNat) den
    else roundDiv num (den * Nat.pow 10 (-((precision : Int) - 1 - x)).toNat)) = scaled
  have hlt : scaled < 10 ^ 650 := by
    have hround (k m : Nat) (hk : k ≤ 338) (hm : m ≤ num * Nat.pow 10 k) : m + 1 < 10 ^ 650 :=
      calc m + 1
        _ ≤ num * Nat.pow 10 338 + 1 := Nat.add_le_add_right
          (hm.trans (Nat.mul_le_mul_left _ (Nat.pow_le_pow_right (by omega) hk))) 1
        _ ≤ 2 ^ 1024 * Nat.pow 10 338 + 1 := Nat.add_le_add_right
          (Nat.mul_le_mul_right _ (Nat.le_of_lt h.num_lt)) 1
        _ < 10 ^ 650 := by decide +kernel
    rw [← hscaled]
    split
    · exact (roundDiv_le _ _).trans_lt
        (hround _ _ (by unfold precision; omega) (Nat.le_refl _))
    · exact (roundDiv_le _ _).trans_lt
        (hround 0 num (by omega) (Nat.le_of_eq (Nat.mul_one num).symm))
  have hpart : scaled / 10 < 10 ^ 650 := (Nat.div_le_self _ _).trans_lt hlt
  split
  · exact ⟨length_toDigits_le (by omega) hlt, hlow, Int.le_trans hhigh (by omega)⟩
  · exact ⟨length_toDigits_le (by omega) hpart, Int.le_trans hlow (Int.le_add_one (Int.le_refl x)),
      Int.add_le_add_right hhigh 1⟩

theorem length_withoutTrailingZeros_le (digits : List Char) :
    (withoutTrailingZeros digits).length ≤ digits.length := by
  have hdrop := (List.dropWhile_suffix (· == '0') (l := digits.reverse)).length_le
  unfold withoutTrailingZeros
  rw [List.length_reverse]
  exact hdrop.trans_eq List.length_reverse

theorem length_pointed_le (whole fraction : List Char) :
    (pointed whole fraction).length ≤ whole.length + fraction.length + 1 := by
  have hfraction := length_withoutTrailingZeros_le fraction
  unfold pointed
  cases hcut : withoutTrailingZeros fraction with
  | nil => exact (Nat.le_add_right _ _).trans (Nat.le_succ _)
  | cons c cs =>
    rw [hcut] at hfraction
    dsimp only
    rw [List.length_append, List.length_cons]
    omega

theorem length_exponentText_le {x : Int} (h : x.natAbs < 10 ^ 3) :
    (exponentText x).length ≤ 5 := by
  have hdigits := length_toDigits_le (by omega) h
  unfold exponentText
  dsimp only
  rw [List.length_cons]
  split
  · rw [List.length_cons]
    omega
  · omega

theorem length_text_le {s : Scientific} (hdigits : s.digits.length ≤ 650)
    (hlow : -325 ≤ s.exponent) (hhigh : s.exponent ≤ 309) : s.text.length ≤ 700 := by
  have htake := s.digits.length_take_le 1
  unfold Scientific.text
  split
  · have hpointed := length_pointed_le (s.digits.take 1) (s.digits.drop 1)
    have hexponent := length_exponentText_le (x := s.exponent) (by omega)
    rw [List.length_drop] at hpointed
    rw [List.length_append, List.length_cons]
    omega
  split
  · have hpointed := length_pointed_le ['0']
      (List.replicate (-s.exponent - 1).toNat '0' ++ s.digits)
    rw [List.length_append, List.length_replicate] at hpointed
    have hone : ['0'].length = 1 := rfl
    omega
  · have hpointed := length_pointed_le (s.digits.take (s.exponent.toNat + 1))
      (s.digits.drop (s.exponent.toNat + 1))
    rw [List.length_drop, List.length_take] at hpointed
    dsimp only
    omega

theorem finite_ratio {bits : UInt64} {b : Binary} (h : Binary.ofBits? bits = some b) :
    Finite b.ratio.1 b.ratio.2 := by
  have hfraction : bits.toNat % 0x10000000000000 < 0x10000000000000 := Nat.mod_lt _ (by decide)
  have hexponent : bits.toNat / 0x10000000000000 % 2048 < 2048 := Nat.mod_lt _ (by decide)
  have hb : b.significand < 2 ^ 53 ∧ -1074 ≤ b.exponent ∧ b.exponent ≤ 971 := by
    unfold Binary.ofBits? at h
    dsimp only at h
    split at h
    · cases h
    split at h
    · cases h
      exact ⟨by dsimp only; omega, by dsimp only; omega, by dsimp only; omega⟩
    · cases h
      exact ⟨by dsimp only; omega, by dsimp only; omega, by dsimp only; omega⟩
  obtain ⟨hsignificand, hlow, hhigh⟩ := hb
  unfold Binary.ratio
  split
  · have hpow : Nat.pow 2 b.exponent.toNat ≤ Nat.pow 2 971 :=
      Nat.pow_le_pow_right (by omega) (by omega)
    have hnum : b.significand * Nat.pow 2 b.exponent.toNat < 2 ^ 1024 :=
      calc b.significand * Nat.pow 2 b.exponent.toNat
        _ ≤ b.significand * Nat.pow 2 971 := Nat.mul_le_mul_left _ hpow
        _ < 2 ^ 53 * Nat.pow 2 971 :=
          Nat.mul_lt_mul_of_pos_right hsignificand (Nat.pow_pos (by omega))
        _ = 2 ^ 1024 := by decide +kernel
    exact ⟨hnum, Nat.one_le_two_pow⟩
  · have hden : Nat.pow 2 (-b.exponent).toNat ≤ Nat.pow 2 1074 :=
      Nat.pow_le_pow_right (by omega) (by omega)
    exact ⟨hsignificand.trans (by decide +kernel), hden⟩

end Decimal

/-- A sign is one character. -/
theorem length_signed_le {p : Prop} [Decidable p] {unsigned : String} {n : Nat}
    (h : unsigned.toList.length ≤ n) :
    (if p then "-" ++ unsigned else unsigned).toList.length ≤ 1 + n := by
  split
  · rw [String.toList_append, List.length_append]
    exact Nat.add_le_add (by decide) h
  · exact h.trans (Nat.le_add_left _ _)

theorem length_floatText_le (bits : UInt64) : (floatText bits).toList.length ≤ 1 + 700 := by
  unfold floatText
  cases hb : Binary.ofBits? bits with
  | none =>
    refine length_signed_le ?_
    dsimp only
    split
    · decide
    · decide
  | some b =>
    refine length_signed_le ?_
    dsimp only
    split
    · decide
    · obtain ⟨hdigits, hlow, hhigh⟩ := Decimal.scientific_bounds (Decimal.finite_ratio hb)
      rw [String.toList_ofList]
      exact Decimal.length_text_le hdigits hlow hhigh

/-- The text of a number is far from filling the memory. -/
theorem length_numberText_le {v : Value} {text : String} (h : numberText? v = some text) :
    (Bytes.ofText text).length ≤ 2804 := by
  have htext := length_ofText_le text
  unfold numberText? at h
  split at h
  · next i =>
    cases h
    have hint := length_intText_le i
    omega
  · next bits =>
    cases h
    have hfloat := length_floatText_le bits
    omega
  · cases h

end MiniLua
