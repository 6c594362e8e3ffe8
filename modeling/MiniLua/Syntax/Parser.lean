import MiniLua.Number.Numeral
import MiniLua.Syntax.Tree
import MiniLua.Token.Lexer

/-!
Lexemes to syntax trees, by recursive descent with binding powers for operators. Blocks and
operands open a level each, and a chunk may nest at most `maxLevels` of them; the parsers of one
level are built from those of the level below it.
-/

namespace MiniLua.Parser

/-- Levels of blocks and operands a chunk may nest. -/
def maxLevels : Nat := 200

end MiniLua.Parser

namespace MiniLua

abbrev Parser (α : Type) := StateT (List Lexeme) (Except SyntaxError) α

namespace Parser

def ahead : List Lexeme → Lexeme
  | l :: _ => l
  | [] => ⟨.eof, .start⟩

def peek : Parser Lexeme := return ahead (← get)

def sees (t : Token) : Parser Bool := return (← peek).token = t

def here : Parser Position := return (← peek).pos

/-- Moves past a lexeme; the end of the text stays ahead. -/
def skip : Parser Unit :=
  modify fun lexemes ↦
    match lexemes with
    | l :: rest => if l.token = .eof then lexemes else rest
    | [] => []

def eat (t : Token) : Parser Bool := do
  if ← sees t then
    skip
    return true
  else return false

def failAt (pos : Position) (fault : SyntaxFault) : Parser α := throw ⟨fault, pos⟩

def unexpected (what : String) : Parser α := do
  let l ← peek
  failAt l.pos (.expected what l.token)

def expect (t : Token) : Parser Unit := do
  unless ← eat t do unexpected t.display

def name : Parser String := do
  match (← peek).token with
  | .name name =>
    skip
    return name
  | _ => unexpected "identifier"

/-- A closing token; if it is missing, the message tells the line of the opener unless that is the
current one. -/
def close (closing opener : Token) (opened : Position) : Parser Unit := do
  unless ← eat closing do
    let l ← peek
    if opened.line = l.pos.line then unexpected closing.display
    else failAt l.pos (.unclosed closing.display opener.display opened.line l.token)

def blockEnds : Parser Bool := do
  match (← peek).token with
  | .eof | .keyword .kwEnd | .keyword .kwElse | .keyword .kwElseif | .keyword .kwUntil =>
    return true
  | _ => return false

/-- `first` and what follows it after commas. -/
def commaList (item : Parser α) : Nat → List α → Parser (List α)
  | 0, found => return found.reverse
  | bound + 1, found => do
    if ← eat (.symbol .comma) then commaList item bound ((← item) :: found)
    else return found.reverse

/-- The parsers of the levels below the current one, and how many levels are left there. No loop
takes more than `bound` rounds. -/
structure Levels where
  bound : Nat
  left : Nat
  block : Parser Block
  operand : Nat → Parser Expr

namespace Levels

variable (below : Levels)

/-- Fails if a tree deepened by `extra` levels had too many. -/
def allow (extra : Nat) : Parser Unit := do
  if below.left < extra then failAt (← here) .tooManyLevels

def expr : Parser Expr := below.operand 0

def exprs : Parser (List Expr) := do
  commaList below.expr below.bound [← below.expr]

def names : Parser (List String) := do
  commaList name below.bound [← name]

/-- Parameters before the closing parenthesis, pushed onto `params`, and whether `...` ends
them. -/
def params : Nat → List String → Parser (List String × Bool)
  | 0, found => return (found.reverse, false)
  | bound + 1, found => do
    if ← eat (.symbol .ellipsis) then return (found.reverse, true)
    let param ← name
    if ← eat (.symbol .comma) then params bound (param :: found)
    else return ((param :: found).reverse, false)

def functionBody (implicit : List String) (pos : Position) : Parser FunctionBody := do
  expect (.symbol .lparen)
  let (params, variadic) ←
    if ← sees (.symbol .rparen) then pure (implicit, false)
    else params below.bound implicit.reverse
  expect (.symbol .rparen)
  let body ← below.block
  close (.keyword .kwEnd) (.keyword .kwFunction) pos
  return .mk params variadic body pos

def field : Parser Field := do
  match ← get with
  | ⟨.symbol .lbracket, _⟩ :: _ =>
    skip
    let key ← below.expr
    expect (.symbol .rbracket)
    expect (.symbol .assign)
    return .entry key (← below.expr)
  | ⟨.name name, pos⟩ :: ⟨.symbol .assign, _⟩ :: _ =>
    skip
    skip
    return .entry (.string (Bytes.ofText name) pos) (← below.expr)
  | _ => return .item (← below.expr)

def fields : Nat → List Field → Parser (List Field)
  | 0, found => return found.reverse
  | bound + 1, found => do
    if ← sees (.symbol .rbrace) then return found.reverse
    let field ← below.field
    if (← eat (.symbol .comma)) then fields bound (field :: found)
    else if (← eat (.symbol .semicolon)) then fields bound (field :: found)
    else return (field :: found).reverse

def table : Parser Expr := do
  let pos ← here
  expect (.symbol .lbrace)
  let fields ← below.fields below.bound []
  close (.symbol .rbrace) (.symbol .lbrace) pos
  return .table fields pos

def callArgs : Parser (List Expr) := do
  let ⟨token, pos⟩ ← peek
  match token with
  | .string value =>
    skip
    return [.string value pos]
  | .symbol .lbrace => return [← below.table]
  | .symbol .lparen =>
    skip
    let args ← if ← sees (.symbol .rparen) then pure [] else below.exprs
    close (.symbol .rparen) (.symbol .lparen) pos
    return args
  | _ => unexpected "function arguments"

def primary : Parser Expr := do
  let ⟨token, pos⟩ ← peek
  match token with
  | .name name =>
    skip
    return .name name pos
  | .symbol .lparen =>
    skip
    let inner ← below.expr
    close (.symbol .rparen) (.symbol .lparen) pos
    return .paren inner pos
  | _ => unexpected "expression"

/-- Field, index, method and call suffixes of `object`, of which `links` came before. -/
def suffixes : Nat → Nat → Expr → Parser Expr
  | 0, _, object => return object
  | bound + 1, links, object => do
    below.allow links
    let ⟨token, pos⟩ ← peek
    match token with
    | .symbol .dot =>
      skip
      let keyPos ← here
      let key ← name
      suffixes bound (links + 1) (.index object (.string (Bytes.ofText key) keyPos) pos)
    | .symbol .lbracket =>
      skip
      let key ← below.expr
      expect (.symbol .rbracket)
      suffixes bound (links + 1) (.index object key pos)
    | .symbol .colon =>
      skip
      let method ← name
      let args ← below.callArgs
      suffixes bound (links + 1) (.method object method args pos)
    | .symbol .lparen | .string _ | .symbol .lbrace =>
      let args ← below.callArgs
      suffixes bound (links + 1) (.call object args pos)
    | _ => return object

def suffixed : Parser Expr := do
  below.suffixes (below.bound + 1) 0 (← below.primary)

def simple : Parser Expr := do
  let ⟨token, pos⟩ ← peek
  match token with
  | .keyword .kwNil =>
    skip
    return .nil pos
  | .keyword .kwTrue =>
    skip
    return .bool true pos
  | .keyword .kwFalse =>
    skip
    return .bool false pos
  | .number text =>
    skip
    match Numeral.literal? text with
    | some (.int value) => return .int value pos
    | some (.float value) => return .float value pos
    | none => failAt pos (.malformedNumber text)
  | .string value =>
    skip
    return .string value pos
  | .symbol .ellipsis =>
    skip
    return .varargs pos
  | .keyword .kwFunction =>
    skip
    return .function (← below.functionBody [] pos)
  | .symbol .lbrace => below.table
  | _ => below.suffixed

end Levels

/-- Only `^` binds tighter than unary operators. -/
def unaryPower : Nat := 13

def unaryOp? : Token → Option UnaryOp
  | .symbol .minus => some .neg
  | .keyword .kwNot => some .not
  | .symbol .hash => some .len
  | _ => none

/-- An infix operator with the binding powers to its left and right; a right power below the left
one makes it associate to the right. -/
def binaryOp? : Token → Option (BinaryOp × Nat × Nat)
  | .keyword .kwOr => some (.or, 1, 2)
  | .keyword .kwAnd => some (.and, 3, 4)
  | .symbol .eq => some (.eq, 5, 6)
  | .symbol .neq => some (.neq, 5, 6)
  | .symbol .lt => some (.lt, 5, 6)
  | .symbol .le => some (.le, 5, 6)
  | .symbol .gt => some (.gt, 5, 6)
  | .symbol .ge => some (.ge, 5, 6)
  | .symbol .concat => some (.concat, 8, 7)
  | .symbol .plus => some (.add, 9, 10)
  | .symbol .minus => some (.sub, 9, 10)
  | .symbol .star => some (.mul, 11, 12)
  | .symbol .slash => some (.div, 11, 12)
  | .symbol .percent => some (.mod, 11, 12)
  | .symbol .caret => some (.pow, 15, 14)
  | _ => none

namespace Levels

variable (below : Levels)

/-- Infix operators that bind at least as tight as `power`, of which `chain` came before; every
one deepens the tree to the left. -/
def infixes (power : Nat) : Nat → Nat → Expr → Parser Expr
  | 0, _, lhs => return lhs
  | bound + 1, chain, lhs => do
    let ⟨token, pos⟩ ← peek
    match binaryOp? token with
    | some (op, left, right) =>
      if left < power then return lhs
      below.allow (chain + 1)
      skip
      let rhs ← below.operand right
      infixes power bound (chain + 1) (.binary op lhs rhs pos)
    | none => return lhs

def operandBody (power : Nat) : Parser Expr := do
  let ⟨token, pos⟩ ← peek
  let lhs ←
    match unaryOp? token with
    | some op => do
      skip
      pure (.unary op (← below.operand unaryPower) pos)
    | none => below.simple
  below.infixes power below.bound 0 lhs

def returnStmt : Parser Stmt := do
  let pos ← here
  expect (.keyword .kwReturn)
  let bare := (← blockEnds) || (← sees (.symbol .semicolon))
  let values ← if bare then pure [] else below.exprs
  let _ ← eat (.symbol .semicolon)
  unless ← blockEnds do unexpected "end"
  return .returnValues values pos

def guarded : Parser Branch := do
  let cond ← below.expr
  expect (.keyword .kwThen)
  return .mk cond (← below.block)

def branches (pos : Position) : Nat → List Branch → Parser Stmt
  | 0, found => return .branch found.reverse none pos
  | bound + 1, found => do
    if ← eat (.keyword .kwElseif) then branches pos bound ((← below.guarded) :: found)
    else
      let otherwise ← if ← eat (.keyword .kwElse) then some <$> below.block else pure none
      close (.keyword .kwEnd) (.keyword .kwIf) pos
      return .branch found.reverse otherwise pos

def branchStmt : Parser Stmt := do
  let pos ← here
  expect (.keyword .kwIf)
  below.branches pos (below.bound + 1) [← below.guarded]

def loopBody (pos : Position) : Parser Block := do
  expect (.keyword .kwDo)
  let body ← below.block
  close (.keyword .kwEnd) (.keyword .kwFor) pos
  return body

def forStmt : Parser Stmt := do
  let pos ← here
  expect (.keyword .kwFor)
  let first ← name
  if ← eat (.symbol .assign) then
    let start ← below.expr
    expect (.symbol .comma)
    let limit ← below.expr
    let step ← if ← eat (.symbol .comma) then some <$> below.expr else pure none
    return .numericFor first start limit step (← below.loopBody pos) pos
  else
    let names ← commaList name below.bound [first]
    unless ← eat (.keyword .kwIn) do unexpected "="
    let values ← below.exprs
    return .genericFor names values (← below.loopBody pos) pos

def path : Nat → List String → Parser (List String)
  | 0, found => return found.reverse
  | bound + 1, found => do
    if ← eat (.symbol .dot) then path bound ((← name) :: found) else return found.reverse

def functionStmt : Parser Stmt := do
  let pos ← here
  expect (.keyword .kwFunction)
  let first ← name
  let fields ← path below.bound []
  let method ← if ← eat (.symbol .colon) then some <$> name else pure none
  let implicit := if method.isSome then ["self"] else []
  return .defineFunction ⟨first, fields, method⟩ (← below.functionBody implicit pos) pos

def localStmt : Parser Stmt := do
  let pos ← here
  expect (.keyword .kwLocal)
  if ← eat (.keyword .kwFunction) then
    let name ← name
    return .declareFunction name (← below.functionBody [] pos) pos
  else
    let names ← below.names
    let values ← if ← eat (.symbol .assign) then below.exprs else pure []
    return .declare names values pos

/-- An assignment, or a call for its effects. -/
def exprStmt : Parser Stmt := do
  let pos ← here
  let first ← below.suffixed
  if (← sees (.symbol .assign)) || (← sees (.symbol .comma)) then
    let targets ← commaList below.suffixed below.bound [first]
    if let some target := targets.find? fun t ↦ !t.isAssignable then
      failAt target.pos .notAssignable
    expect (.symbol .assign)
    return .assign targets (← below.exprs) pos
  else if first.isCall then return .call first
  else failAt pos .notStatement

def stmt : Parser Stmt := do
  let ⟨token, pos⟩ ← peek
  match token with
  | .keyword .kwIf => below.branchStmt
  | .keyword .kwWhile =>
    skip
    let cond ← below.expr
    expect (.keyword .kwDo)
    let body ← below.block
    close (.keyword .kwEnd) (.keyword .kwWhile) pos
    return .whileLoop cond body pos
  | .keyword .kwDo =>
    skip
    let body ← below.block
    close (.keyword .kwEnd) (.keyword .kwDo) pos
    return .block body
  | .keyword .kwFor => below.forStmt
  | .keyword .kwRepeat =>
    skip
    let body ← below.block
    close (.keyword .kwUntil) (.keyword .kwRepeat) pos
    return .repeatLoop body (← below.expr) pos
  | .keyword .kwFunction => below.functionStmt
  | .keyword .kwLocal => below.localStmt
  | .keyword .kwBreak =>
    skip
    return .breakLoop pos
  | _ => below.exprStmt

def stmts : Nat → List Stmt → Parser (List Stmt)
  | 0, found => return found.reverse
  | bound + 1, found => do
    if ← blockEnds then return found.reverse
    if ← eat (.symbol .semicolon) then stmts bound found
    else if ← sees (.keyword .kwReturn) then return ((← below.returnStmt) :: found).reverse
    else stmts bound ((← below.stmt) :: found)

def blockBody : Parser Block := do
  let pos ← here
  return .mk (← below.stmts (below.bound + 1) []) pos

end Levels

def tooDeep : Parser α := do failAt (← here) .tooManyLevels

/-- The parsers that may open `left` levels, the outermost included. -/
def levels (bound : Nat) : Nat → Levels
  | 0 => ⟨bound, 0, tooDeep, fun _ ↦ tooDeep⟩
  | left + 1 =>
    let below := levels bound left
    ⟨bound, left + 1, below.blockBody, below.operandBody⟩

def chunk (bound : Nat) : Parser Chunk := do
  let block ← (levels bound maxLevels).block
  unless ← sees .eof do unexpected "<eof>"
  return block

end Parser

/-- The syntax tree of source text. -/
def parse (source : Bytes) : Except SyntaxError Chunk := do
  let lexemes ← tokenize source
  (Parser.chunk lexemes.length).run' lexemes

end MiniLua
