import MiniLua.Memory.Heap
import MiniLua.Number.Decimal
import MiniLua.Text.Lines
import MiniLua.Text.Padded
import MiniLua.Text.Visible

/-!
Listings of prototypes: a header, a row for each instruction with its place, source line and
operands, and then the nested prototypes the same way.
-/

namespace MiniLua.Listing

open Text

def fourDigits (n : Nat) : String := padLeft 4 '0' (toString n)

def constantText (heap : Heap) : Value → String
  | .nil => "nil"
  | .bool b => if b then "true" else "false"
  | .int i => intText i
  | .float bits => floatText bits
  | .string s => Text.quote (((heap.bytes? s).getD []).toTextLossy)
  | v => "<" ++ v.typeName ++ ">"

def multiText (b : UInt8) : String := if b = 0 then "" else "+multi"

def operands (heap : Heap) (p : Prototype) (i : Instruction) : Opcode → String
  | .loadConst | .getGlobal | .setGlobal | .self =>
    let shown := ((p.constants[i.x]?).map (constantText heap)).getD "?"
    "K[" ++ toString i.x ++ "] ; " ++ shown
  | .jump | .jumpIfFalse | .jumpIfFalseKeep | .jumpIfTrueKeep => "-> " ++ fourDigits i.x
  | .closure => "proto " ++ toString i.x
  | .call =>
    let results := if i.c = 0 then "all" else toString (i.c.toNat - 1)
    "args " ++ toString i.a.toNat ++ multiText i.b ++ ", results " ++ results
  | .ret => toString i.a.toNat ++ multiText i.b
  | .loadNil | .pop | .varargs => toString i.a.toNat
  | op => if op.isWide then toString i.x else ""

def instructionRow (heap : Heap) (p : Prototype) (i : Instruction) (n : Nat) : String :=
  let line := ((p.lines[n]?).map toString).getD "-"
  let place := fourDigits n ++ " [" ++ padLeft 4 ' ' line ++ "] "
  match i.opcode? with
  | none => place ++ "UNKNOWN(" ++ toString i.op.toNat ++ ")"
  | some op => place ++ padRight 18 op.name ++ " " ++ operands heap p i op

def header (p : Prototype) (path : String) : String :=
  "== " ++ p.name ++ path ++ " (params " ++ toString p.arity ++ (if p.variadic then "+" else "") ++
    ", cells " ++ toString p.cellCount ++ ", constants " ++ toString p.constants.size ++ ") =="

/-- The rows of a prototype and of those nested in it, at most `depth` deep; `path` says where it
is nested. -/
def rowsAt (heap : Heap) : Nat → String → Nat → List String
  | 0, _, _ => []
  | depth + 1, path, handle =>
    match heap.protos[handle]? with
    | none => ["== <missing function " ++ toString handle ++ "> =="]
    | some p =>
      let code := p.code.toList.zipIdx.map fun (i, n) ↦ instructionRow heap p i n
      let nested := p.protos.toList.zipIdx.flatMap fun (handle, n) ↦
        "" :: rowsAt heap depth (path ++ "/" ++ toString n) handle
      header p path :: (code ++ nested)

/-- The rows of a prototype, which is never nested deeper than there are prototypes. -/
def rows (heap : Heap) (handle : Nat) : List String :=
  rowsAt heap (heap.protos.size + 1) "" handle

/-- The listing of a prototype: its rows, each ended by a line break. -/
def text (heap : Heap) (handle : Nat) : String :=
  String.join ((rows heap handle).map (· ++ "\n"))

/-- The lines of a listing. A header whose name holds line breaks takes several. -/
def lines (heap : Heap) (handle : Nat) : List String := Text.lines (text heap handle)

end MiniLua.Listing
