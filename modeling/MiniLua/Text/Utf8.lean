import MiniLua.Bytes

/-!
Reading bytes as UTF-8. Every byte sequence decodes to scalar values and malformed stretches; a
stretch is the longest start of a well-formed sequence, or a single byte that starts none.
-/

namespace MiniLua.Utf8

/-- A multibyte sequence in progress: the bits so far, how many bytes follow, and the range the
next one must lie in. -/
structure Pending where
  bits : Nat
  needed : Nat
  low : UInt8
  high : UInt8

/-- What the bytes read so far amount to; `none` is a malformed stretch. -/
structure Progress where
  decoded : List (Option Char)
  pending : Option Pending

def completed (item : Option Char) : Progress := ⟨[item], none⟩

def awaiting (bits needed : Nat) (low high : UInt8) : Progress :=
  ⟨[], some ⟨bits, needed, low, high⟩⟩

/-- The lead byte fixes the length and narrows the second byte, which leaves out overlong forms,
surrogates and values past the last scalar. -/
def lead (b : UInt8) : Progress :=
  let n := b.toNat
  if n < 0x80 then completed (some (Char.ofNat n))
  else if n < 0xC2 then completed none
  else if n < 0xE0 then awaiting (n - 0xC0) 1 0x80 0xBF
  else if n < 0xF0 then
    awaiting (n - 0xE0) 2 (if n = 0xE0 then 0xA0 else 0x80) (if n = 0xED then 0x9F else 0xBF)
  else if n < 0xF5 then
    awaiting (n - 0xF0) 3 (if n = 0xF0 then 0x90 else 0x80) (if n = 0xF4 then 0x8F else 0xBF)
  else completed none

def next : Option Pending → UInt8 → Progress
  | none, b => lead b
  | some p, b =>
    if p.low ≤ b ∧ b ≤ p.high then
      let bits := p.bits * 64 + (b.toNat - 0x80)
      if p.needed = 1 then completed (some (Char.ofNat bits))
      else awaiting bits (p.needed - 1) 0x80 0xBF
    else
      let after := lead b
      ⟨none :: after.decoded, after.pending⟩

/-- The decoded items in reverse, pushed onto `acc`. -/
def decodeOnto (acc : List (Option Char)) : Option Pending → Bytes → List (Option Char)
  | none, [] => acc
  | some _, [] => none :: acc
  | p, b :: rest =>
    let progress := next p b
    decodeOnto (progress.decoded.reverse ++ acc) progress.pending rest

def decode (bytes : Bytes) : List (Option Char) := (decodeOnto [] none bytes).reverse

end MiniLua.Utf8

namespace MiniLua

open Utf8

/-- The text of well-formed UTF-8. -/
def Bytes.toText? (bytes : Bytes) : Option String :=
  ((decode bytes).mapM id).map String.ofList

/-- The text with U+FFFD for every malformed stretch. -/
def Bytes.toTextLossy (bytes : Bytes) : String :=
  String.ofList ((decode bytes).map fun item ↦ item.getD '\uFFFD')

end MiniLua
