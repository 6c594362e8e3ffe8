import MiniLua.Number.Binary

/-!
Reading numbers. Three readers share the digits: literals of the source language, numeric strings
(which may be signed and padded with blanks), and integers in a given base.
-/

namespace MiniLua

inductive Numeral
  | int (value : Int64)
  | float (value : Float)

namespace Numeral

def hasByte (bytes : Bytes) (chars : List Char) : Bool :=
  bytes.any fun b ↦ chars.contains (Char.ofUInt8 b)

/-- Splits a leading sign off; true is minus. -/
def splitSign : Bytes → Bool × Bytes
  | 45 :: rest => (true, rest)
  | 43 :: rest => (false, rest)
  | bytes => (false, bytes)

def natural? (base : Nat) (bytes : Bytes) : Option Nat :=
  if bytes.isEmpty then none else (bytes.mapM (digitValue? base)).map (digitsValue base)

/-- A decimal integer with an optional sign, if it fits. -/
def int? (bytes : Bytes) : Option Int64 :=
  let (negative, digits) := splitSign bytes
  (natural? 10 digits).bind fun n ↦ int64? (if negative then -(n : Int) else n)

/-- Hexadecimal digits, keeping the low 64 bits. -/
def hex? (bytes : Bytes) : Option Int64 :=
  if bytes.isEmpty then none
  else
    (bytes.mapM (digitValue? 16)).map fun digits ↦
      digits.foldl (fun value digit ↦ value * 16 + Int64.ofNat digit) 0

/-- The number of these digits times a power of ten, as the nearest float. Exponents past every
float are cut short before the power is computed. -/
def scale (digits : List Nat) (exponent : Int) : Float :=
  let digits := digits.dropWhile (· = 0)
  let size := digits.length + exponent
  if digits.isEmpty ∨ size < -400 then 0
  else if 400 < size then 1 / 0
  else Float.ofScientific (digitsValue 10 digits) (exponent < 0) exponent.natAbs

/-- The exponent part after the digits: nothing, or `e` and a signed number. -/
def exponent? : Bytes → Option Int
  | [] => some 0
  | b :: rest =>
    if b = 101 ∨ b = 69 then
      let (negative, digits) := splitSign rest
      (natural? 10 digits).map fun n ↦ if negative then -(n : Int) else n
    else none

def unsigned? (bytes : Bytes) : Option Float :=
  let whole := bytes.takeWhile isDigit
  let rest := bytes.dropWhile isDigit
  let (fraction, rest) :=
    match rest with
    | 46 :: rest => (rest.takeWhile isDigit, rest.dropWhile isDigit)
    | rest => ([], rest)
  if whole.isEmpty && fraction.isEmpty then none
  else do
    let digits ← (whole ++ fraction).mapM (digitValue? 10)
    let exponent ← exponent? rest
    return scale digits (exponent - fraction.length)

def lower (bytes : Bytes) : String :=
  String.ofList (bytes.map fun b ↦ (Char.ofUInt8 b).toLower)

/-- A decimal number with an optional sign, point and exponent, or the name of a special value. -/
def float? (bytes : Bytes) : Option Float := do
  let (negative, body) := splitSign bytes
  let name := lower body
  let value ←
    if name = "inf" ∨ name = "infinity" then some (1 / 0)
    else if name = "nan" then some (Float.ofBits 0x7FF8000000000000)
    else unsigned? body
  return if negative then -value else value

/-- Integers if they fit, unless a point or exponent says otherwise. -/
def decimal? (bytes : Bytes) : Option Numeral :=
  if hasByte bytes ['.', 'e', 'E'] then (float? bytes).map float
  else
    match int? bytes with
    | some i => some (int i)
    | none => (float? bytes).map float

/-- A literal of the source language. -/
def literal? : Bytes → Option Numeral
  | 48 :: 120 :: digits | 48 :: 88 :: digits => (hex? digits).map int
  | bytes => decimal? bytes

def trimmed (bytes : Bytes) : Bytes :=
  ((bytes.dropWhile isBlank).reverse.dropWhile isBlank).reverse

/-- A numeric string: a literal with an optional sign between blanks. Names of special values are
no numbers here. -/
def ofBytes? (bytes : Bytes) : Option Numeral :=
  let text := trimmed bytes
  let (negative, body) := splitSign text
  match body with
  | 48 :: 120 :: d :: ds | 48 :: 88 :: d :: ds =>
    (hex? (d :: ds)).map fun i ↦ int (if negative then -i else i)
  | body =>
    if body.all fun b ↦ isDigit b || hasByte [b] ['.', 'e', 'E', '+', '-'] then
      if body.isEmpty then none else decimal? text
    else none

end Numeral

/-- An integer in `base` with an optional minus, blanks around it ignored; none if a digit is
missing or foreign, or the magnitude does not fit. -/
def radixInt? (base : Nat) (bytes : Bytes) : Option Int64 :=
  let text := Numeral.trimmed bytes
  let (negative, digits) :=
    match text with
    | 45 :: rest => (true, rest)
    | text => (false, text)
  (Numeral.natural? base digits).bind fun n ↦
    (int64? n).map fun i ↦ if negative then -i else i

end MiniLua
