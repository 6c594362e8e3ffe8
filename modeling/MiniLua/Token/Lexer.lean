import MiniLua.Number.Numeral
import MiniLua.Token.SyntaxError

/-!
Source text to tokens. A scanner looks at the bytes ahead and says how many belong to the lexeme;
the cursor then moves over them, which keeps line and column apart from the scanning.
-/

namespace MiniLua.Lexer

/-- The text ahead and the place where it starts. -/
structure Cursor where
  rest : Bytes
  pos : Position

def Cursor.advance (c : Cursor) (n : Nat) : Cursor :=
  ⟨c.rest.drop n, c.pos.afterAll (c.rest.take n)⟩

/-- The level of the long bracket whose first `[` stands before `rest`. -/
def longLevel? : Bytes → Option Nat
  | 61 :: rest => (longLevel? rest).map (· + 1)
  | 91 :: _ => some 0
  | _ => none

def closesLong (level : Nat) (rest : Bytes) : Bool :=
  (List.replicate level (61 : UInt8) ++ [93]).isPrefixOf rest

/-- How many bytes precede the closing bracket of this level. -/
def longEnd? (level : Nat) (count : Nat) : Bytes → Option Nat
  | [] => none
  | b :: rest =>
    if b = 93 && closesLong level rest then some count else longEnd? level (count + 1) rest

/-- A line break right after an opening bracket is not part of the text. -/
def firstBreak : Bytes → Nat
  | 13 :: 10 :: _ => 2
  | 13 :: _ => 1
  | 10 :: _ => 1
  | _ => 0

/-- The text of the long bracket that `bytes` begins with, and its length with the brackets. -/
def longBracket (level : Nat) (what : String) (bytes : Bytes) : Except SyntaxFault (Bytes × Nat) :=
  let skipped := level + 2 + firstBreak (bytes.drop (level + 2))
  let body := bytes.drop skipped
  match longEnd? level 0 body with
  | some n => .ok (body.take n, skipped + n + (level + 2))
  | none => .error (.unfinishedLong what)

/-- Up to three decimal digits. -/
def decimalEscape (bytes : Bytes) : Except SyntaxFault (UInt8 × Nat) :=
  let digits := (bytes.take 3).takeWhile isDigit
  let value := digitsValue 10 (digits.filterMap (digitValue? 10))
  if value ≤ 255 then .ok (value.toUInt8, digits.length) else .error .escapeTooLarge

def hexEscape : Bytes → Except SyntaxFault (UInt8 × Nat)
  | high :: low :: _ =>
    match digitValue? 16 high, digitValue? 16 low with
    | some h, some l => .ok ((h * 16 + l).toUInt8, 3)
    | _, _ => .error .hexDigitExpected
  | _ => .error .hexDigitExpected

/-- The byte denoted by what follows a backslash, and the length of that. -/
def escape : Bytes → Except SyntaxFault (UInt8 × Nat)
  | [] => .error .unfinishedString
  | b :: rest =>
    match Char.ofUInt8 b with
    | 'n' => .ok (10, 1)
    | 't' => .ok (9, 1)
    | 'r' => .ok (13, 1)
    | 'a' => .ok (7, 1)
    | 'b' => .ok (8, 1)
    | 'f' => .ok (12, 1)
    | 'v' => .ok (11, 1)
    | '\\' | '"' | '\'' | '\n' => .ok (b, 1)
    | 'x' => hexEscape rest
    | _ => if isDigit b then decimalEscape (b :: rest) else .error (.invalidEscape b)

/-- The bytes up to the closing quote, pushed onto `value`, and the length with that quote. -/
def quoted (quote : UInt8) : Nat → Bytes → Nat → Bytes → Except SyntaxFault (Bytes × Nat)
  | 0, _, _, _ => .error .unfinishedString
  | _ + 1, _, _, [] => .error .unfinishedString
  | bound + 1, value, count, b :: rest =>
    if b = 10 then .error .unfinishedString
    else if b = quote then .ok (value.reverse, count + 1)
    else if b = 92 then
      match escape rest with
      | .error e => .error e
      | .ok (byte, n) => quoted quote bound (byte :: value) (count + 1 + n) (rest.drop n)
    else quoted quote bound (b :: value) (count + 1) rest

/-- Digits, points, and exponent marks with their signs; `mark` says whether a mark came last. -/
def decimalLength (mark : Bool) : Bytes → Nat
  | [] => 0
  | b :: rest =>
    if isDigit b || b = 46 then decimalLength false rest + 1
    else if b = 101 || b = 69 then decimalLength true rest + 1
    else if mark && (b = 43 || b = 45) then decimalLength false rest + 1
    else 0

def numberLength : Bytes → Nat
  | 48 :: 120 :: rest | 48 :: 88 :: rest =>
    2 + (rest.takeWhile fun b ↦ (digitValue? 16 b).isSome).length
  | bytes => decimalLength false bytes

/-- A number must not run into a name. -/
def number (bytes : Bytes) : Except SyntaxFault (Token × Nat) :=
  let n := numberLength bytes
  let tail := (bytes.drop n).takeWhile isNameByte
  let text := bytes.take n
  if tail.isEmpty && (Numeral.literal? text).isSome then .ok (.number text, n)
  else .error (.malformedNumber (text ++ tail))

def word (bytes : Bytes) : Token × Nat :=
  let text := bytes.takeWhile isNameByte
  match Keyword.ofBytes? text with
  | some k => (.keyword k, text.length)
  | none => (.name (Bytes.toTextLossy text), text.length)

def startsNumber : Bytes → Bool
  | 46 :: d :: _ => isDigit d
  | b :: _ => isDigit b
  | [] => false

/-- The token that `bytes` begins with and its length; `bound` is at least the length of
`bytes`. -/
def token (bound : Nat) : Bytes → Except SyntaxFault (Token × Nat)
  | [] => .ok (.eof, 0)
  | b :: rest =>
    if startsNumber (b :: rest) then number (b :: rest)
    else if isNameStart b then .ok (word (b :: rest))
    else if b = 34 || b = 39 then
      (quoted b bound [] 1 rest).map fun (value, n) ↦ (.string value, n)
    else
      match if b = 91 then longLevel? rest else none with
      | some level =>
        (longBracket level "string" (b :: rest)).map fun (value, n) ↦ (.string value, n)
      | none =>
        match Symbol.ofPrefix? (b :: rest) with
        | some s => .ok (.symbol s, s.bytes.length)
        | none => .error (.unexpectedByte b)

/-- The length of the comment that `bytes` begins with, after its two dashes. -/
def comment (bytes : Bytes) : Except SyntaxFault Nat :=
  let line := 2 + ((bytes.drop 2).takeWhile (· != 10)).length
  match bytes.drop 2 with
  | 91 :: rest =>
    match longLevel? rest with
    | some level => (longBracket level "comment" (91 :: rest)).map fun (_, n) ↦ n + 2
    | none => .ok line
  | _ => .ok line

/-- The length of what separates tokens here: blanks or one comment. -/
def gap (bytes : Bytes) : Except SyntaxFault Nat :=
  match bytes with
  | 45 :: 45 :: _ => comment bytes
  | _ => .ok (bytes.takeWhile isBlank).length

/-- All lexemes from `c` on, pushed onto `found`; each round moves the cursor or ends. -/
def scan : Nat → Cursor → List Lexeme → Except SyntaxError (List Lexeme)
  | 0, c, found => .ok (⟨.eof, c.pos⟩ :: found).reverse
  | bound + 1, c, found =>
    match gap c.rest with
    | .error e => .error ⟨e, c.pos⟩
    | .ok (n + 1) => scan bound (c.advance (n + 1)) found
    | .ok 0 =>
      match token (bound + 1) c.rest with
      | .error e => .error ⟨e, c.pos⟩
      | .ok (.eof, _) => .ok (⟨.eof, c.pos⟩ :: found).reverse
      | .ok (t, n) => scan bound (c.advance n) (⟨t, c.pos⟩ :: found)

/-- A first line that starts with a hash sign is not part of the program. -/
def withoutHashLine (source : Bytes) : Cursor :=
  let c : Cursor := ⟨source, .start⟩
  match source with
  | 35 :: _ => c.advance (source.takeWhile (· != 10)).length
  | _ => c

end MiniLua.Lexer

namespace MiniLua

/-- The lexemes of source text, the end of the text last. -/
def tokenize (source : Bytes) : Except SyntaxError (List Lexeme) :=
  Lexer.scan (source.length + 1) (Lexer.withoutHashLine source) []

end MiniLua
