import MiniLua.Machine.Step

namespace MiniLua.Library

open Machine

/-- The bytes from `i` to `j`, counted from one or, if negative, from the end, as a half-open range
within the length. -/
def normalizeRange (length : Nat) (i j : Int) : Nat × Nat :=
  let len : Int := length
  let first := if i < 0 then max (len + i) 0 else if i = 0 then 0 else i - 1
  let last := if j < 0 then max first (len + j + 1) else min (max first j) len
  let first := (min (max first 0) len).toNat
  let last := (min (max last 0) len).toNat
  (min first last, last)

def sub : Native :=
  .plain "sub" do
    let s ← argBytes 0
    let i ← argInt 1
    let j ← if (← arg 2).isNil then pure (-1) else argInt 2
    let (first, last) := normalizeRange s.length i.toInt j.toInt
    setResults [← bytesValue ((s.take last).drop first)]

/-- No builtin makes a string longer than this. -/
def maxStringLength : Nat := 2147483647

/-- The product, if a machine word holds it. -/
def wordProduct? (m n : Nat) : Option Nat := if m * n < 0x10000000000000000 then some (m * n) else none

theorem filter_wordProduct? (m n : Nat) : (wordProduct? m n).filter (· ≤ maxStringLength) =
    if maxStringLength < m * n then none else some (m * n) := by
  unfold wordProduct? maxStringLength
  by_cases hlong : 2147483647 < m * n
  · rw [if_pos hlong]
    split
    · exact Option.filter_some_neg (by simpa using hlong)
    · rfl
  · have hword : m * n < 0x10000000000000000 := by omega
    rw [if_neg hlong, if_pos hword]
    exact Option.filter_some_pos (by simpa using hlong)

/-- The buffer with its beginning copied onto its end, up to `total` bytes. -/
def doubled (total : Nat) (buffer : Bytes) : Bytes :=
  buffer ++ buffer.take (min (total - buffer.length) buffer.length)

theorem length_doubled (total : Nat) (buffer : Bytes) :
    (doubled total buffer).length = buffer.length + min (total - buffer.length) buffer.length := by
  rw [doubled, List.length_append, List.length_take]
  omega

/-- Doubles a buffer until it has `total` bytes. As it is never empty, it grows each time. -/
def filled (total : Nat) (buffer : Bytes) (h : 0 < buffer.length) : Bytes :=
  if buffer.length < total then
    filled total (doubled total buffer) (by rw [length_doubled]; omega)
  else buffer
termination_by total - buffer.length
decreasing_by
  rw [length_doubled]
  omega

/-- `n` copies of `s` in a row, if they are not too long. -/
def repeated? (s : Bytes) (n : Nat) : Option Bytes :=
  ((wordProduct? s.length n).filter (· ≤ maxStringLength)).map fun total ↦
    if h : s.length * n = 0 then []
    else filled total s (Nat.pos_of_ne_zero fun hs ↦ h (by rw [hs, Nat.zero_mul]))

def rep : Native :=
  .plain "rep" do
    let s ← argBytes 0
    let n := (← argInt 1).toInt
    if n < 0 then setResults [.nil]
    else
      match repeated? s n.toNat with
      | some bytes => setResults [← bytesValue bytes]
      | none => typeError .stringTooLarge

end MiniLua.Library
