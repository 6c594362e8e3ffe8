namespace MiniLua

/-- Source text and guest strings are arbitrary bytes, not necessarily UTF-8. -/
abbrev Bytes := List UInt8

/-- The UTF-8 bytes of a text. -/
def Bytes.ofText (text : String) : Bytes := text.toByteArray.data.toList

/-- A byte tested against the ASCII character classes; other bytes are in none of them. -/
def isDigit (b : UInt8) : Bool := (Char.ofUInt8 b).isDigit

def isNameStart (b : UInt8) : Bool := (Char.ofUInt8 b).isAlpha || b == '_'.toUInt8

def isNameByte (b : UInt8) : Bool := (Char.ofUInt8 b).isAlphanum || b == '_'.toUInt8

/-- Space, tab, line feed, vertical tab, form feed and carriage return. -/
def isBlank (b : UInt8) : Bool := b == 32 || (9 ≤ b && b ≤ 13)

/-- The value of a digit in bases up to 36, letters of either case above nine. -/
def digitValue? (base : Nat) (b : UInt8) : Option Nat :=
  let value :=
    if 48 ≤ b ∧ b ≤ 57 then b.toNat - 48
    else if 97 ≤ b ∧ b ≤ 122 then b.toNat - 87
    else if 65 ≤ b ∧ b ≤ 90 then b.toNat - 55
    else 36
  if value < base then some value else none

/-- The number written by `digits`, most significant first. -/
def digitsValue (base : Nat) (digits : List Nat) : Nat :=
  digits.foldl (fun value digit ↦ value * base + digit) 0

theorem digitsValue_nil (base : Nat) : digitsValue base [] = 0 := rfl

theorem digitsValue_append (base : Nat) (ds : List Nat) (d : Nat) :
    digitsValue base (ds ++ [d]) = digitsValue base ds * base + d := by
  simp [digitsValue]

theorem digitValue?_lt {base : Nat} {b : UInt8} {value : Nat}
    (h : digitValue? base b = some value) : value < base := by
  simp only [digitValue?, Option.ite_none_right_eq_some, Option.some.injEq] at h
  exact h.2 ▸ h.1

end MiniLua
