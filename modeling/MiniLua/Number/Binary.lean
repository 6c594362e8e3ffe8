import MiniLua.Bytes

/-!
Finite floats as exact values: a sign, a natural significand and a power of two. Conversions to
integers and to decimal text start from here, so that they need no floating-point operation.
-/

namespace MiniLua

/-- The value `±significand * 2 ^ exponent`. -/
structure Binary where
  negative : Bool
  significand : Nat
  exponent : Int

/-- The exact value of a finite float, given by its bits; none for infinities and NaNs. The bits are,
from the highest on, a sign, eleven of exponent and 52 of fraction. -/
def Binary.ofBits? (bits : UInt64) : Option Binary :=
  let bits := bits.toNat
  let negative := bits / 0x8000000000000000 = 1
  let biased : Nat := bits / 0x10000000000000 % 2048
  let fraction : Nat := bits % 0x10000000000000
  if biased = 2047 then none
  else if biased = 0 then some ⟨negative, fraction, -1074⟩
  else some ⟨negative, 0x10000000000000 + fraction, (biased : Int) - 1075⟩

namespace Binary

/-- Whether bits stand for no number, finite or infinite. -/
def isNaN (bits : UInt64) : Bool :=
  bits.toNat / 0x10000000000000 % 2048 == 2047 && bits.toNat % 0x10000000000000 != 0

/-- The value as a quotient of naturals, without its sign. -/
def ratio (b : Binary) : Nat × Nat :=
  if 0 ≤ b.exponent then (b.significand * Nat.pow 2 b.exponent.toNat, 1)
  else (b.significand, Nat.pow 2 (-b.exponent).toNat)

def signed (b : Binary) (n : Nat) : Int := if b.negative then -(n : Int) else n

/-- Rounded toward zero. -/
def truncate (b : Binary) : Int := b.signed (b.ratio.1 / b.ratio.2)

/-- The value, when it is a whole number. -/
def whole? (b : Binary) : Option Int :=
  if b.ratio.1 % b.ratio.2 = 0 then some b.truncate else none

end Binary

/-- The 64-bit integer with this value. -/
def int64? (n : Int) : Option Int64 :=
  if -0x8000000000000000 ≤ n ∧ n < 0x8000000000000000 then some (Int64.ofInt n) else none

theorem toInt_of_int64? {n : Int} {i : Int64} (h : int64? n = some i) : i.toInt = n := by
  simp only [int64?] at h
  split at h <;> simp_all
  subst h
  exact Int64.toInt_ofInt_of_le (by omega) (by omega)

/-- The integer of a float's exact value. -/
def wholeInt64? (bits : UInt64) : Option Int64 :=
  (Binary.ofBits? bits).bind Binary.whole? |>.bind int64?

/-- The integer left of a float after dropping the fraction. -/
def truncatedInt64? (bits : UInt64) : Option Int64 :=
  (Binary.ofBits? bits).bind fun b ↦ int64? b.truncate

/-- The float nearest to an integer. -/
def floatOfInt (i : Int64) : Float := Float.ofInt i.toInt

end MiniLua
