import MiniLua.Bytes
import MiniLua.Text.Utf8

namespace MiniLua

/-- A place in source text, counted from one; columns count bytes. -/
structure Position where
  line : Nat
  col : Nat
deriving DecidableEq, Repr, Inhabited

def Position.start : Position := ⟨1, 1⟩

/-- The line as compiled code records it, in 32 bits. -/
def Position.codeLine (p : Position) : Nat := p.line % 0x100000000

def Position.after (p : Position) (b : UInt8) : Position :=
  if b = 10 then ⟨p.line + 1, 1⟩ else ⟨p.line, p.col + 1⟩

def Position.afterAll (p : Position) (bytes : Bytes) : Position := bytes.foldl Position.after p

inductive Keyword
  | kwAnd | kwBreak | kwDo | kwElse | kwElseif | kwEnd | kwFalse | kwFor | kwFunction | kwIf | kwIn
  | kwLocal | kwNil | kwNot | kwOr | kwRepeat | kwReturn | kwThen | kwTrue | kwUntil | kwWhile
deriving DecidableEq, Repr

namespace Keyword

def all : List Keyword :=
  [kwAnd, kwBreak, kwDo, kwElse, kwElseif, kwEnd, kwFalse, kwFor, kwFunction, kwIf, kwIn,
    kwLocal, kwNil, kwNot, kwOr, kwRepeat, kwReturn, kwThen, kwTrue, kwUntil, kwWhile]

def text : Keyword → String
  | kwAnd => "and" | kwBreak => "break" | kwDo => "do" | kwElse => "else" | kwElseif => "elseif"
  | kwEnd => "end" | kwFalse => "false" | kwFor => "for" | kwFunction => "function" | kwIf => "if"
  | kwIn => "in" | kwLocal => "local" | kwNil => "nil" | kwNot => "not" | kwOr => "or"
  | kwRepeat => "repeat" | kwReturn => "return" | kwThen => "then" | kwTrue => "true"
  | kwUntil => "until" | kwWhile => "while"

def bytes (k : Keyword) : Bytes := Bytes.ofText k.text

def ofBytes? (word : Bytes) : Option Keyword := all.find? fun k ↦ k.bytes == word

theorem mem_all (k : Keyword) : k ∈ all := by cases k <;> decide

theorem ofBytes?_bytes (k : Keyword) : ofBytes? k.bytes = some k := by cases k <;> decide

theorem bytes_of_ofBytes? {word : Bytes} {k : Keyword} (h : ofBytes? word = some k) :
    k.bytes = word := by
  simpa using List.find?_some h

end Keyword

inductive Symbol
  | plus | minus | star | slash | percent | caret | hash | eq | neq | lt | le | gt | ge | assign
  | concat | ellipsis | dot | lparen | rparen | lbracket | rbracket | lbrace | rbrace | comma
  | colon | semicolon
deriving DecidableEq, Repr

namespace Symbol

def all : List Symbol :=
  [plus, minus, star, slash, percent, caret, hash, eq, neq, lt, le, gt, ge, assign, concat,
    ellipsis, dot, lparen, rparen, lbracket, rbracket, lbrace, rbrace, comma, colon, semicolon]

def text : Symbol → String
  | plus => "+" | minus => "-" | star => "*" | slash => "/" | percent => "%" | caret => "^"
  | hash => "#" | eq => "==" | neq => "~=" | lt => "<" | le => "<=" | gt => ">" | ge => ">="
  | assign => "=" | concat => ".." | ellipsis => "..." | dot => "." | lparen => "("
  | rparen => ")" | lbracket => "[" | rbracket => "]" | lbrace => "\x7b" | rbrace => "\x7d"
  | comma => "," | colon => ":" | semicolon => ";"

def bytes (s : Symbol) : Bytes := Bytes.ofText s.text

theorem mem_all (s : Symbol) : s ∈ all := by cases s <;> decide

/-- The longest symbol that `bytes` begins with. -/
def ofPrefix? (bytes : Bytes) : Option Symbol :=
  let starts := all.filter fun s ↦ s.bytes.isPrefixOf bytes
  starts.foldl (fun best s ↦
    match best with
    | some b => if b.bytes.length < s.bytes.length then some s else best
    | none => some s) none

end Symbol

/-- A lexical unit. Numbers keep the text they were written with; names and strings hold what they
denote. -/
inductive Token
  | number (text : Bytes)
  | string (value : Bytes)
  | name (name : String)
  | keyword (word : Keyword)
  | symbol (mark : Symbol)
  | eof
deriving DecidableEq, Repr

namespace Token

/-- The text a message quotes for what was found. -/
def display : Token → String
  | number text => text.toTextLossy
  | string value => "\"" ++ value.toTextLossy ++ "\""
  | name word => word
  | keyword word => word.text
  | symbol mark => mark.text
  | eof => "<eof>"

end Token

/-- A token and where it begins. -/
structure Lexeme where
  token : Token
  pos : Position
deriving DecidableEq, Repr

end MiniLua
