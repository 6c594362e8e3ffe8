import MiniLua.Token

namespace MiniLua

inductive BinaryOp
  | add | sub | mul | div | mod | pow | concat | eq | neq | lt | le | gt | ge | and | or
deriving DecidableEq, Repr

inductive UnaryOp
  | neg | not | len
deriving DecidableEq, Repr

/-- The dotted path of a function statement, and the method name after a colon. -/
structure FunctionName where
  first : String
  fields : List String
  method : Option String
deriving DecidableEq, Repr

def FunctionName.display (name : FunctionName) : String :=
  let path := ".".intercalate (name.first :: name.fields)
  match name.method with
  | some m => path ++ ":" ++ m
  | none => path

mutual

inductive Expr
  | nil (pos : Position)
  | bool (value : Bool) (pos : Position)
  | int (value : Int64) (pos : Position)
  | float (value : Float) (pos : Position)
  | string (value : Bytes) (pos : Position)
  | varargs (pos : Position)
  | name (name : String) (pos : Position)
  | index (object key : Expr) (pos : Position)
  | call (callee : Expr) (args : List Expr) (pos : Position)
  | method (object : Expr) (name : String) (args : List Expr) (pos : Position)
  | function (body : FunctionBody)
  | table (fields : List Field) (pos : Position)
  | binary (op : BinaryOp) (lhs rhs : Expr) (pos : Position)
  | unary (op : UnaryOp) (operand : Expr) (pos : Position)
  | paren (inner : Expr) (pos : Position)

/-- A field of a table constructor, with or without a key of its own. -/
inductive Field
  | item (value : Expr)
  | entry (key value : Expr)

inductive FunctionBody
  | mk (params : List String) (variadic : Bool) (body : Block) (pos : Position)

inductive Block
  | mk (stmts : List Stmt) (pos : Position)

inductive Stmt
  | declare (names : List String) (values : List Expr) (pos : Position)
  | declareFunction (name : String) (body : FunctionBody) (pos : Position)
  | defineFunction (name : FunctionName) (body : FunctionBody) (pos : Position)
  | assign (targets values : List Expr) (pos : Position)
  | call (call : Expr)
  | block (body : Block)
  | whileLoop (cond : Expr) (body : Block) (pos : Position)
  | repeatLoop (body : Block) (cond : Expr) (pos : Position)
  | branch (branches : List Branch) (otherwise : Option Block) (pos : Position)
  | numericFor (var : String) (start limit : Expr) (step : Option Expr) (body : Block)
      (pos : Position)
  | genericFor (names : List String) (values : List Expr) (body : Block) (pos : Position)
  | returnValues (values : List Expr) (pos : Position)
  | breakLoop (pos : Position)

inductive Branch
  | mk (cond : Expr) (body : Block)

end

/-- A chunk is the body of a variadic main function. -/
abbrev Chunk := Block

def Block.pos : Block → Position
  | mk _ pos => pos

def Block.stmts : Block → List Stmt
  | mk stmts _ => stmts

def FunctionBody.pos : FunctionBody → Position
  | mk _ _ _ pos => pos

namespace Expr

def pos : Expr → Position
  | nil pos | bool _ pos | int _ pos | float _ pos | string _ pos | varargs pos | name _ pos
  | index _ _ pos | call _ _ pos | method _ _ _ pos | table _ pos | binary _ _ _ pos
  | unary _ _ pos | paren _ pos => pos
  | function body => body.pos

def isCall : Expr → Bool
  | call .. | method .. => true
  | _ => false

/-- Calls and varargs stand for any number of values. -/
def isMulti : Expr → Bool
  | call .. | method .. | varargs _ => true
  | _ => false

def isAssignable : Expr → Bool
  | name .. | index .. => true
  | _ => false

end Expr

end MiniLua
