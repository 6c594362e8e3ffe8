import MiniLua.Token

namespace MiniLua

/-- Why source text is no chunk. -/
inductive SyntaxFault
  | unfinishedString
  | unfinishedLong (what : String)
  | unexpectedByte (b : UInt8)
  | malformedNumber (text : Bytes)
  | hexDigitExpected
  | escapeTooLarge
  | invalidEscape (b : UInt8)
  | expected (what : String) (found : Token)
  | unclosed (close opener : String) (line : Nat) (found : Token)
  | tooManyLevels
  | notAssignable
  | notStatement

/-- A byte as messages show it: printable ASCII as it is, the rest escaped, values above 127 by
their code. -/
def escapedByte (b : UInt8) : String :=
  match Char.ofUInt8 b with
  | '\t' => "\\t"
  | '\r' => "\\r"
  | '\n' => "\\n"
  | '\'' => "\\'"
  | '"' => "\\\""
  | '\\' => "\\\\"
  | c =>
    if 32 ≤ b ∧ b < 127 then String.singleton c
    else "\\u\x7b" ++ String.ofList (Nat.toDigits 16 b.toNat) ++ "\x7d"

def SyntaxFault.message : SyntaxFault → String
  | unfinishedString => "unfinished string"
  | unfinishedLong what => "unfinished long " ++ what
  | unexpectedByte b => "unexpected character \x60" ++ escapedByte b ++ "\x60"
  | malformedNumber text => "malformed number near \x60" ++ text.toTextLossy ++ "\x60"
  | hexDigitExpected => "hexadecimal digit expected"
  | escapeTooLarge => "escape sequence too large"
  | invalidEscape b => "invalid escape sequence \x60\\" ++ escapedByte b ++ "\x60"
  | expected what found => "expected \x60" ++ what ++ "\x60, found \x60" ++ found.display ++ "\x60"
  | unclosed close opener line found =>
    "expected \x60" ++ close ++ "\x60 (to close \x60" ++ opener ++ "\x60 at line " ++ toString line ++
      "), found \x60" ++ found.display ++ "\x60"
  | tooManyLevels => "chunk has too many syntax levels"
  | notAssignable => "cannot assign to this expression"
  | notStatement => "syntax error: expected a statement"

structure SyntaxError where
  fault : SyntaxFault
  pos : Position

def SyntaxError.message (e : SyntaxError) : String := e.fault.message

/-- The message after its position. -/
def SyntaxError.text (e : SyntaxError) : String :=
  toString e.pos.line ++ ":" ++ toString e.pos.col ++ ": " ++ e.message

end MiniLua
