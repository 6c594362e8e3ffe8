import MiniLua.Number.Numeral

/-!
The notation of settings files: TOML 1.0. A document is read into its headers and assignments; what
they amount to together is left to the reader of the settings.
-/

namespace MiniLua.Toml

inductive Value
  | text (s : String)
  | integer (n : Int)
  | list (items : List Value)
  /-- Assignments in braces, by dotted key. -/
  | table (entries : List (List String × Value))
  /-- A truth value, a float, a date or a time. -/
  | other

inductive Statement
  | header (key : List String)
  | listHeader (key : List String)
  | assign (key : List String) (value : Value)

/-- Reads the start of a text and leaves the rest. -/
abbrev Reader := StateT (List Char) Option

def isSpace (c : Char) : Bool := c == ' ' || c == '\t'

/-- What may stand in comments and, apart from marks and escapes, in strings. -/
def isPlain (c : Char) : Bool := c == '\t' || (' ' ≤ c && c ≠ '\x7f')

def newline? : List Char → Option (List Char)
  | '\n' :: rest | '\r' :: '\n' :: rest => some rest
  | _ => none

def skipSpace (text : List Char) : List Char := text.dropWhile isSpace

def skipComment : List Char → List Char
  | '#' :: rest => rest.dropWhile isPlain
  | text => text

/-- Spaces, and line breaks with comments before them. -/
def skipLines : Nat → List Char → List Char
  | 0, text => text
  | fuel + 1, text =>
    let text := skipSpace text
    match newline? (skipComment text) with
    | some rest => skipLines fuel rest
    | none => text

/-- Spaces and line breaks. -/
def skipBlank : List Char → List Char
  | ' ' :: rest | '\t' :: rest | '\n' :: rest | '\r' :: '\n' :: rest => skipBlank rest
  | text => text

/-- The end of a line, after a comment if there is one. -/
def lineEnd : Reader Unit := fun text ↦
  match skipComment (skipSpace text) with
  | [] => some ((), [])
  | rest => (newline? rest).map fun rest ↦ ((), rest)

def space : Reader Unit := modify skipSpace

def lines : Reader Unit := modify fun text ↦ skipLines text.length text

def char (c : Char) : Reader Unit := fun
  | d :: rest => if c = d then some ((), rest) else none
  | [] => none

def next? : Reader (Option Char) := return (← get).head?

def takeWhile (p : Char → Bool) : Reader (List Char) :=
  modifyGet fun text ↦ (text.takeWhile p, text.dropWhile p)

/-! ## Strings -/

/-- How a string is written: in which marks, and whether in three of them, over several lines. -/
structure Quoting where
  mark : Char
  long : Bool

def hexChar? (digits : List Char) : Option Char := do
  let digits ← digits.mapM fun c ↦ if c.isAlphanum then digitValue? 16 c.toUInt8 else none
  let n := digitsValue 16 digits
  if n.isValidChar then some (Char.ofNat n) else none

/-- What a backslash and the text after it stand for. At the end of a line of a long string it
hides the break and the blank text after it. -/
def escape (q : Quoting) : List Char → Option (List Char × List Char)
  | 'b' :: rest => some (['\x08'], rest)
  | 't' :: rest => some (['\t'], rest)
  | 'n' :: rest => some (['\n'], rest)
  | 'f' :: rest => some (['\x0c'], rest)
  | 'r' :: rest => some (['\r'], rest)
  | '"' :: rest => some (['"'], rest)
  | '\\' :: rest => some (['\\'], rest)
  | 'u' :: rest => (hexChar? (rest.take 4)).bind fun c ↦
    if 4 ≤ rest.length then some ([c], rest.drop 4) else none
  | 'U' :: rest => (hexChar? (rest.take 8)).bind fun c ↦
    if 8 ≤ rest.length then some ([c], rest.drop 8) else none
  | text =>
    match q.long, newline? (skipSpace text) with
    | true, some rest => some ([], skipBlank rest)
    | _, _ => none

/-- The content of a string after its opening marks, and the text after the closing ones. -/
def content (q : Quoting) : Nat → List Char → Option (List Char × List Char)
  | 0, _ | _, [] => none
  | fuel + 1, c :: rest =>
    let more (shown : List Char) (rest : List Char) : Option (List Char × List Char) :=
      (content q fuel rest).map fun (s, rest) ↦ (shown ++ s, rest)
    if c = q.mark then
      if q.long then
        let marks := (c :: rest).takeWhile (· == q.mark)
        let after := (c :: rest).dropWhile (· == q.mark)
        if marks.length < 3 then more marks after
        else if marks.length < 6 then some (marks.drop 3, after)
        else none
      else some ([], rest)
    else if c = '\\' && q.mark = '"' then
      match escape q rest with
      | some (shown, rest) => more shown rest
      | none => none
    else if isPlain c then more [c] rest
    else
      match q.long, newline? (c :: rest) with
      | true, some rest => more ['\n'] rest
      | _, _ => none

def quoted (q : Quoting) : Reader String := fun text ↦
  (content q (text.length + 1) text).map fun (s, rest) ↦ (String.ofList s, rest)

/-- A string on one line. -/
def shortString (mark : Char) : Reader String := do
  char mark
  quoted ⟨mark, false⟩

def string (mark : Char) : Reader String := fun text ↦
  if (List.replicate 3 mark).isPrefixOf text then
    let text := text.drop 3
    quoted ⟨mark, true⟩ ((newline? text).getD text)
  else shortString mark text

/-! ## Keys -/

def isKeyChar (c : Char) : Bool := c.isAlphanum || c == '-' || c == '_'

def simpleKey : Reader String := do
  match ← next? with
  | some '"' => shortString '"'
  | some '\'' => shortString '\''
  | _ =>
    match ← takeWhile isKeyChar with
    | [] => failure
    | name => return String.ofList name

def dotted : Nat → Reader (List String)
  | 0 => failure
  | fuel + 1 => do
    space
    let name ← simpleKey
    space
    match ← next? with
    | some '.' =>
      char '.'
      return name :: (← dotted fuel)
    | _ => return [name]

/-- The longest dotted key. -/
def maxNesting : Nat := 79

def key : Reader (List String) := dotted maxNesting

/-! ## Numbers, dates and times -/

/-- Digits in which single underscores may stand between two of them. -/
def digits? (p : Char → Bool) : List Char → Option (List Char)
  | [] => none
  | [c] => if p c then some [c] else none
  | c :: '_' :: rest => if p c then (digits? p rest).map (c :: ·) else none
  | c :: rest => if p c then (digits? p rest).map (c :: ·) else none

def isDigits (text : List Char) : Bool := (digits? Char.isDigit text).isSome

/-- The number that digits of a base amount to. -/
def whole? (base : Nat) (text : List Char) : Option Nat := do
  let digits ← digits? (fun c ↦ c.isAlphanum) text
  let values ← digits.mapM fun c ↦ digitValue? base c.toUInt8
  return digitsValue base values

/-- Decimal digits without a needless zero in front. -/
def isPlainWhole (text : List Char) : Bool :=
  isDigits text && (text.length == 1 || text.head? != some '0')

/-- Integers have 64 bits. -/
def bounded (n : Int) : Option Int := (int64? n).map Int64.toInt

def unsigned : List Char → List Char
  | '+' :: rest | '-' :: rest => rest
  | text => text

def integer? (text : List Char) : Option Int :=
  match text with
  | '0' :: 'x' :: rest => (whole? 16 rest).bind fun n ↦ bounded n
  | '0' :: 'o' :: rest => (whole? 8 rest).bind fun n ↦ bounded n
  | '0' :: 'b' :: rest => (whole? 2 rest).bind fun n ↦ bounded n
  | text =>
    if isPlainWhole (unsigned text) then
      (whole? 10 (unsigned text)).bind fun n ↦
        bounded (if text.head? == some '-' then -(n : Int) else n)
    else none

/-- Texts on both sides of the first character that satisfies `p`. -/
def cut (p : Char → Bool) (text : List Char) : List Char × Option (List Char) :=
  match text.dropWhile fun c ↦ !p c with
  | [] => (text, none)
  | _ :: rest => (text.takeWhile fun c ↦ !p c, some rest)

/-- Whether digits with a point or exponent amount to more than any finite float. -/
def isHuge (text : List Char) : Bool :=
  (Numeral.unsigned? ((text.filter (· != '_')).map Char.toUInt8)).any Float.isInf

/-- A number above all finite floats is refused; one below them all is not. -/
def isFloat (text : List Char) : Bool :=
  let body := unsigned text
  let (mantissa, exponent) := cut (fun c ↦ c == 'e' || c == 'E') body
  let (whole, fraction) := cut (· == '.') mantissa
  body == "inf".toList || body == "nan".toList ||
    (isPlainWhole whole && (fraction.map isDigits).getD true &&
      (exponent.map fun e ↦ isDigits (unsigned e)).getD true &&
      (fraction.isSome || exponent.isSome) && (text.head? == some '-' || !isHuge body))

/-- A number of exactly `width` digits between two bounds. -/
def field? (width low high : Nat) (text : List Char) : Option Nat :=
  match whole? 10 text with
  | some n =>
    if text.length == width && text.all Char.isDigit && low ≤ n && n ≤ high then some n else none
  | none => none

def daysInMonth (year month : Nat) : Nat :=
  if month = 2 then
    if year % 4 = 0 && (year % 100 ≠ 0 || year % 400 = 0) then 29 else 28
  else if month = 4 || month = 6 || month = 9 || month = 11 then 30 else 31

def isDate (text : List Char) : Bool :=
  (do
    let year ← field? 4 0 9999 (text.take 4)
    let month ← field? 2 1 12 ((text.drop 5).take 2)
    let _ ← field? 2 1 (daysInMonth year month) (text.drop 8)
    guard (text[4]? == some '-' && text[7]? == some '-')).isSome

def isHourMinute (text : List Char) : Bool :=
  (do
    let _ ← field? 2 0 23 (text.take 2)
    let _ ← field? 2 0 59 (text.drop 3)
    guard (text[2]? == some ':')).isSome

def isTime (text : List Char) : Bool :=
  let (clock, fraction) := cut (· == '.') text
  isHourMinute (clock.take 5) && clock[5]? == some ':' &&
    (field? 2 0 60 (clock.drop 6)).isSome &&
    (fraction.map fun digits ↦ !digits.isEmpty && digits.all Char.isDigit).getD true

/-- A time with or without a distance from universal time. -/
def isZonedTime (text : List Char) : Bool :=
  let isZone (c : Char) := c == 'Z' || c == 'z' || c == '+' || c == '-'
  let clock := text.takeWhile fun c ↦ !isZone c
  isTime clock &&
    match text.drop clock.length with
    | [] | ['Z'] | ['z'] => true
    | '+' :: zone | '-' :: zone => isHourMinute zone
    | _ => false

def isDateTime (text : List Char) : Bool :=
  isTime text || isDate text ||
    (isDate (text.take 10) && ((text[10]?).map fun c ↦ c == 'T' || c == 't' || c == ' ').getD false &&
      isZonedTime (text.drop 11))

def isScalarChar (c : Char) : Bool := c.isAlphanum || "+-_.:".contains c

/-- A value that is neither quoted nor bracketed. After a date one space may stand before the
time. -/
def scalar : Reader Value := do
  let word ← takeWhile isScalarChar
  match integer? word with
  | some n => return .integer n
  | none =>
    match isDate word, ← get with
    | true, ' ' :: c :: rest =>
      if c.isDigit then
        set (c :: rest)
        let time ← takeWhile isScalarChar
        if isZonedTime time then return .other else failure
      else return .other
    | _, _ =>
      if word == "true".toList || word == "false".toList || isFloat word || isDateTime word then
        return .other
      else failure

/-! ## Values and documents -/

/-- Whether a key gives a value to something that has one, or to a part of it. -/
def clashes (a b : List String) : Bool := a.isPrefixOf b || b.isPrefixOf a

mutual

/-- A value, in at most `nesting` brackets. -/
def value : Nat → Nat → Reader Value
  | 0, _ => failure
  | fuel + 1, nesting => do
    match ← next? with
    | some '"' => return .text (← string '"')
    | some '\'' => return .text (← string '\'')
    | some '[' =>
      guard (0 < nesting)
      char '['
      return .list (← items fuel (nesting - 1))
    | some '\x7b' =>
      guard (0 < nesting)
      char '\x7b'
      space
      match ← next? with
      | some '\x7d' =>
        char '\x7d'
        return .table []
      | _ => return .table (← entries fuel (nesting - 1) [])
    | _ => scalar

/-- The items of a list up to the closing bracket. -/
def items : Nat → Nat → Reader (List Value)
  | 0, _ => failure
  | fuel + 1, nesting => do
    lines
    match ← next? with
    | some ']' =>
      char ']'
      return []
    | _ =>
      let v ← value fuel nesting
      lines
      match ← next? with
      | some ',' =>
        char ','
        return v :: (← items fuel nesting)
      | _ =>
        char ']'
        return [v]

/-- The entries of a table up to the closing brace, after those of `keys`. -/
def entries : Nat → Nat → List (List String) → Reader (List (List String × Value))
  | 0, _, _ => failure
  | fuel + 1, nesting, keys => do
    let k ← key
    guard (!keys.any (clashes k))
    char '='
    space
    let v ← value fuel nesting
    space
    match ← next? with
    | some ',' =>
      char ','
      return (k, v) :: (← entries fuel nesting (k :: keys))
    | _ =>
      char '\x7d'
      return [(k, v)]

end

def statement : Reader Statement := do
  match ← next? with
  | some '[' =>
    char '['
    match ← next? with
    | some '[' =>
      char '['
      let k ← key
      char ']'
      char ']'
      lineEnd
      return .listHeader k
    | _ =>
      let k ← key
      char ']'
      lineEnd
      return .header k
  | _ =>
    let k ← key
    char '='
    space
    let v ← value (2 * (← get).length + 2) maxNesting
    lineEnd
    return .assign k v

def statements : Nat → Reader (List Statement)
  | 0 => failure
  | fuel + 1 => do
    lines
    match ← next? with
    | none => return []
    | some '#' =>
      lineEnd
      return []
    | some _ => do
      let s ← statement
      return s :: (← statements fuel)

/-- The statements of a document, which may start with a byte order mark. -/
def parse (text : String) : Option (List Statement) :=
  let chars := match text.toList with
    | '\uFEFF' :: rest => rest
    | chars => chars
  (statements (chars.length + 1) chars).map Prod.fst

end MiniLua.Toml
