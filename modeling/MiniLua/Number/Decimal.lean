import MiniLua.Number.Binary

/-!
Decimal text of floats. A number is written with at most fourteen significant digits, the exact
value being rounded to the nearest such decimal and a tie going to the even digit; trailing zeros
are dropped, and very large or small numbers get an exponent of at least two digits.
-/

namespace MiniLua.Decimal

/-- The quotient rounded to nearest, ties to even. -/
def roundDiv (num den : Nat) : Nat :=
  let q := num / den
  let r := num % den
  if 2 * r < den then q
  else if den < 2 * r then q + 1
  else q + q % 2

def digitCount (n : Nat) : Nat := (Nat.toDigits 10 n).length

/-- The exponent of the first significant digit of `num / den`. -/
def magnitude (num den : Nat) : Int :=
  if den ≤ num then digitCount (num / den) - 1
  else
    let k := digitCount (den / num) - 1
    if den ≤ num * Nat.pow 10 k then -(k : Int) else -(k + 1 : Int)

/-- Significant digits of a number, with the exponent of the first one. -/
structure Scientific where
  digits : List Char
  exponent : Int

def precision : Nat := 14

/-- `num / den` rounded to `precision` digits. -/
def scientific (num den : Nat) : Scientific :=
  let x := magnitude num den
  let shift := (precision : Int) - 1 - x
  let scaled :=
    if 0 ≤ shift then roundDiv (num * Nat.pow 10 shift.toNat) den
    else roundDiv num (den * Nat.pow 10 (-shift).toNat)
  if digitCount scaled ≤ precision then ⟨Nat.toDigits 10 scaled, x⟩
  else ⟨Nat.toDigits 10 (scaled / 10), x + 1⟩

def withoutTrailingZeros (digits : List Char) : List Char :=
  (digits.reverse.dropWhile (· == '0')).reverse

/-- Digits before and after the point, which is left out when nothing follows it. -/
def pointed (whole fraction : List Char) : List Char :=
  match withoutTrailingZeros fraction with
  | [] => whole
  | fraction => whole ++ '.' :: fraction

def exponentText (x : Int) : List Char :=
  let digits := Nat.toDigits 10 x.natAbs
  let padded := if digits.length < 2 then '0' :: digits else digits
  (if x < 0 then '-' else '+') :: padded

/-- Positional from `10 ^ -4` up to fourteen digits, with an exponent beyond. -/
def Scientific.text (s : Scientific) : List Char :=
  if s.exponent < -4 ∨ (precision : Int) ≤ s.exponent then
    pointed (s.digits.take 1) (s.digits.drop 1) ++ 'e' :: exponentText s.exponent
  else if s.exponent < 0 then
    pointed ['0'] (List.replicate (-s.exponent - 1).toNat '0' ++ s.digits)
  else
    let whole := s.exponent.toNat + 1
    pointed (s.digits.take whole) (s.digits.drop whole)

end MiniLua.Decimal

namespace MiniLua

/-- The guest's text of a float, given by its bits. -/
def floatText (bits : UInt64) : String :=
  let negative := 0x8000000000000000 ≤ bits.toNat
  let unsigned :=
    match Binary.ofBits? bits with
    | none => if Binary.isNaN bits then "nan" else "inf"
    | some b =>
      if b.significand = 0 then "0"
      else String.ofList (Decimal.scientific b.ratio.1 b.ratio.2).text
  if negative then "-" ++ unsigned else unsigned

/-- The guest's text of an integer. -/
def intText (i : Int64) : String := toString i.toInt

end MiniLua
