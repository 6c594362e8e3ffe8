import MiniLua.Syntax.Parser

/-!
Trees written as tokens: the surface grammar, as a relation that knows nothing of the parser.
Where a tree has several surface forms each of them is a constructor. Parentheses are written only
where the tree has them, so operands stand next to operators as the ranks of operators allow.
-/

namespace MiniLua

namespace BinaryOp

/-- Operators of higher rank bind tighter. -/
def rank : BinaryOp → Nat
  | or => 1
  | and => 2
  | eq | neq | lt | le | gt | ge => 3
  | concat => 4
  | add | sub => 5
  | mul | div | mod => 6
  | pow => 8

/-- Whether a chain of this operator groups to the right. -/
def toRight : BinaryOp → Bool
  | concat | pow => true
  | _ => false

def token : BinaryOp → Token
  | add => .symbol .plus
  | sub => .symbol .minus
  | mul => .symbol .star
  | div => .symbol .slash
  | mod => .symbol .percent
  | pow => .symbol .caret
  | concat => .symbol .concat
  | eq => .symbol .eq
  | neq => .symbol .neq
  | lt => .symbol .lt
  | le => .symbol .le
  | gt => .symbol .gt
  | ge => .symbol .ge
  | and => .keyword .kwAnd
  | or => .keyword .kwOr

end BinaryOp

namespace UnaryOp

/-- All unary operators bind tighter than any binary operator but `^`. -/
def rank : Nat := 7

def token : UnaryOp → Token
  | neg => .symbol .minus
  | not => .keyword .kwNot
  | len => .symbol .hash

end UnaryOp

namespace Expr

/-- Whether the expression may stand to the left of an operator as it is. -/
def LeftOf (o : BinaryOp) : Expr → Prop
  | binary o' _ _ _ => if o.toRight then o.rank < o'.rank else o.rank ≤ o'.rank
  | unary .. => o.rank < UnaryOp.rank
  | _ => True

/-- Whether it may stand to the right; a unary operator may, whatever its rank. -/
def RightOf (o : BinaryOp) : Expr → Prop
  | binary o' _ _ _ => if o.toRight then o.rank ≤ o'.rank else o.rank < o'.rank
  | _ => True

/-- Whether it may stand under a unary operator. -/
def UnderUnary : Expr → Prop
  | binary o _ _ _ => UnaryOp.rank < o.rank
  | _ => True

/-- Whether it may be called, indexed or asked for a method as it is. -/
def isPrefix : Expr → Bool
  | name .. | paren .. | index .. | call .. | method .. => true
  | _ => false

/-- The infix operators on the way to the leftmost operand. -/
def chain : Expr → Nat
  | binary _ lhs _ _ => lhs.chain + 1
  | _ => 0

/-- The suffixes after the primary expression. -/
def links : Expr → Nat
  | index object _ _ | call object _ _ | method object _ _ _ => object.links + 1
  | _ => 0

end Expr

/-- Names with commas between them. -/
inductive NamesWritten : List String → List Token → Prop
  | one (name : String) : NamesWritten [name] [.name name]
  | cons (name : String) {names : List String} {ts : List Token} (h : NamesWritten names ts) :
      NamesWritten (name :: names) (.name name :: .symbol .comma :: ts)

/-- What stands between the parentheses of a function's head. -/
inductive ParamsWritten : List String → Bool → List Token → Prop
  | none : ParamsWritten [] false []
  | variadic : ParamsWritten [] true [.symbol .ellipsis]
  | named {params : List String} {ts : List Token} (h : NamesWritten params ts) :
      ParamsWritten params false ts
  | namedVariadic {params : List String} {ts : List Token} (h : NamesWritten params ts) :
      ParamsWritten params true (ts ++ [.symbol .comma, .symbol .ellipsis])

/-- The dotted path of a function statement. -/
def FunctionName.tokens (name : FunctionName) : List Token :=
  .name name.first :: name.fields.flatMap (fun field ↦ [.symbol .dot, .name field]) ++
    name.method.toList.flatMap fun method ↦ [.symbol .colon, .name method]

/-- The parameters a function statement adds to those it writes. -/
def FunctionName.implicit (name : FunctionName) : List String :=
  if name.method.isSome then ["self"] else []

mutual

/-- An expression written where `left` more levels may be opened. If `strict`, every statement in
it has a semicolon after it. -/
inductive Expr.Written (strict : Prop) : Nat → Expr → List Token → Prop
  | nil (left : Nat) (pos : Position) : Expr.Written strict left (.nil pos) [.keyword .kwNil]
  | true (left : Nat) (pos : Position) :
      Expr.Written strict left (.bool true pos) [.keyword .kwTrue]
  | false (left : Nat) (pos : Position) :
      Expr.Written strict left (.bool false pos) [.keyword .kwFalse]
  | int (left : Nat) {text : Bytes} {value : Int64} (pos : Position)
      (h : Numeral.literal? text = some (.int value)) :
      Expr.Written strict left (.int value pos) [.number text]
  | float (left : Nat) {text : Bytes} {value : Float} (pos : Position)
      (h : Numeral.literal? text = some (.float value)) :
      Expr.Written strict left (.float value pos) [.number text]
  | string (left : Nat) (value : Bytes) (pos : Position) :
      Expr.Written strict left (.string value pos) [.string value]
  | varargs (left : Nat) (pos : Position) :
      Expr.Written strict left (.varargs pos) [.symbol .ellipsis]
  | name (left : Nat) (name : String) (pos : Position) :
      Expr.Written strict left (.name name pos) [.name name]
  | paren {left : Nat} {inner : Expr} {ts : List Token} (pos : Position)
      (h : Expr.Written strict left inner ts) :
      Expr.Written strict (left + 1) (.paren inner pos)
        (.symbol .lparen :: ts ++ [.symbol .rparen])
  | member {left : Nat} {object : Expr} {ts : List Token} (key : String) (keyPos pos : Position)
      (hhead : object.isPrefix) (hlinks : object.links < left)
      (hobject : Expr.Written strict left object ts) :
      Expr.Written strict left (.index object (.string (Bytes.ofText key) keyPos) pos)
        (ts ++ [.symbol .dot, .name key])
  | index {left : Nat} {object key : Expr} {ts ks : List Token} (pos : Position)
      (hhead : object.isPrefix) (hlinks : object.links < left + 1)
      (hobject : Expr.Written strict (left + 1) object ts)
      (hkey : Expr.Written strict left key ks) :
      Expr.Written strict (left + 1) (.index object key pos)
        (ts ++ .symbol .lbracket :: ks ++ [.symbol .rbracket])
  | call {left : Nat} {callee : Expr} {args : List Expr} {ts as : List Token} (pos : Position)
      (hhead : callee.isPrefix) (hlinks : callee.links < left)
      (hcallee : Expr.Written strict left callee ts) (hargs : ArgsWritten strict left args as) :
      Expr.Written strict left (.call callee args pos) (ts ++ as)
  | method {left : Nat} {object : Expr} {args : List Expr} {ts as : List Token} (name : String)
      (pos : Position) (hhead : object.isPrefix) (hlinks : object.links < left)
      (hobject : Expr.Written strict left object ts) (hargs : ArgsWritten strict left args as) :
      Expr.Written strict left (.method object name args pos)
        (ts ++ .symbol .colon :: .name name :: as)
  | function {left : Nat} {body : FunctionBody} {ts : List Token}
      (h : FunctionBody.Written strict [] left body ts) :
      Expr.Written strict left (.function body) (.keyword .kwFunction :: ts)
  | table {left : Nat} {fields : List Field} {ts : List Token} (pos : Position)
      (h : FieldsWritten strict left fields ts) :
      Expr.Written strict left (.table fields pos) (.symbol .lbrace :: ts ++ [.symbol .rbrace])
  | binary {left : Nat} {lhs rhs : Expr} {ls rs : List Token} (op : BinaryOp) (pos : Position)
      (hchain : lhs.chain < left + 1) (hl : lhs.LeftOf op) (hr : rhs.RightOf op)
      (hlhs : Expr.Written strict (left + 1) lhs ls) (hrhs : Expr.Written strict left rhs rs) :
      Expr.Written strict (left + 1) (.binary op lhs rhs pos) (ls ++ op.token :: rs)
  | unary {left : Nat} {operand : Expr} {ts : List Token} (op : UnaryOp) (pos : Position)
      (hu : operand.UnderUnary) (h : Expr.Written strict left operand ts) :
      Expr.Written strict (left + 1) (.unary op operand pos) (op.token :: ts)

/-- Expressions with commas between them. -/
inductive ExprsWritten (strict : Prop) : Nat → List Expr → List Token → Prop
  | one {left : Nat} {e : Expr} {ts : List Token} (h : Expr.Written strict left e ts) :
      ExprsWritten strict left [e] ts
  | cons {left : Nat} {e : Expr} {es : List Expr} {ts ts' : List Token}
      (h : Expr.Written strict left e ts) (hs : ExprsWritten strict left es ts') :
      ExprsWritten strict left (e :: es) (ts ++ .symbol .comma :: ts')

inductive ArgsWritten (strict : Prop) : Nat → List Expr → List Token → Prop
  | string (left : Nat) (value : Bytes) (pos : Position) :
      ArgsWritten strict left [.string value pos] [.string value]
  | table {left : Nat} {fields : List Field} {ts : List Token} (pos : Position)
      (h : Expr.Written strict left (.table fields pos) ts) :
      ArgsWritten strict left [.table fields pos] ts
  | none (left : Nat) : ArgsWritten strict left [] [.symbol .lparen, .symbol .rparen]
  | some {left : Nat} {args : List Expr} {ts : List Token} (h : ExprsWritten strict left args ts) :
      ArgsWritten strict (left + 1) args (.symbol .lparen :: ts ++ [.symbol .rparen])

inductive Field.Written (strict : Prop) : Nat → Field → List Token → Prop
  | item {left : Nat} {value : Expr} {ts : List Token} (h : Expr.Written strict left value ts) :
      Field.Written strict (left + 1) (.item value) ts
  | named {left : Nat} {value : Expr} {ts : List Token} (name : String) (pos : Position)
      (h : Expr.Written strict left value ts) :
      Field.Written strict (left + 1) (.entry (.string (Bytes.ofText name) pos) value)
        (.name name :: .symbol .assign :: ts)
  | entry {left : Nat} {key value : Expr} {ks ts : List Token}
      (hkey : Expr.Written strict left key ks) (hvalue : Expr.Written strict left value ts) :
      Field.Written strict (left + 1) (.entry key value)
        (.symbol .lbracket :: ks ++ .symbol .rbracket :: .symbol .assign :: ts)

/-- Fields with commas or semicolons between them, and maybe one more at the end. -/
inductive FieldsWritten (strict : Prop) : Nat → List Field → List Token → Prop
  | none (left : Nat) : FieldsWritten strict left [] []
  | last {left : Nat} {field : Field} {ts : List Token} (h : Field.Written strict left field ts) :
      FieldsWritten strict left [field] ts
  | cons {left : Nat} {field : Field} {fields : List Field} {ts ts' : List Token} (mark : Symbol)
      (hmark : mark = .comma ∨ mark = .semicolon) (h : Field.Written strict left field ts)
      (hs : FieldsWritten strict left fields ts') :
      FieldsWritten strict left (field :: fields) (ts ++ .symbol mark :: ts')

/-- A function from its parameters on, some of which are not written. -/
inductive FunctionBody.Written (strict : Prop) :
    List String → Nat → FunctionBody → List Token → Prop
  | mk {left : Nat} {params : List String} {variadic : Bool} {body : Block} {ps ts : List Token}
      (implicit : List String) (pos : Position) (hparams : ParamsWritten params variadic ps)
      (hbody : Block.Written strict left body ts) :
      FunctionBody.Written strict implicit (left + 1) (.mk (implicit ++ params) variadic body pos)
        (.symbol .lparen :: ps ++ .symbol .rparen :: ts ++ [.keyword .kwEnd])

inductive Block.Written (strict : Prop) : Nat → Block → List Token → Prop
  | mk {left : Nat} {stmts : List Stmt} {ts : List Token} (pos : Position)
      (h : StmtsWritten strict left stmts ts) : Block.Written strict left (.mk stmts pos) ts

/-- Statements with any number of semicolons before, between and after them; one that returns
stands last, with at most one semicolon. -/
inductive StmtsWritten (strict : Prop) : Nat → List Stmt → List Token → Prop
  | none (left : Nat) : StmtsWritten strict left [] []
  | semicolon {left : Nat} {stmts : List Stmt} {ts : List Token}
      (h : StmtsWritten strict left stmts ts) :
      StmtsWritten strict left stmts (.symbol .semicolon :: ts)
  | cons {left : Nat} {stmt : Stmt} {stmts : List Stmt} {ts ts' : List Token}
      (h : Stmt.Written strict left stmt ts) (hs : StmtsWritten strict left stmts ts')
      (hstrict : strict → ts'.head? = some (.symbol .semicolon)) :
      StmtsWritten strict left (stmt :: stmts) (ts ++ ts')
  | returns {left : Nat} {values : List Expr} {ts : List Token} (marks : List Token)
      (pos : Position) (h : ReturnedWritten strict left values ts)
      (hmarks : marks = [.symbol .semicolon] ∨ ¬strict ∧ marks = []) :
      StmtsWritten strict left [.returnValues values pos] (.keyword .kwReturn :: ts ++ marks)

inductive ReturnedWritten (strict : Prop) : Nat → List Expr → List Token → Prop
  | none (left : Nat) : ReturnedWritten strict left [] []
  | some {left : Nat} {values : List Expr} {ts : List Token}
      (h : ExprsWritten strict left values ts) : ReturnedWritten strict (left + 1) values ts

/-- A statement that does not return. -/
inductive Stmt.Written (strict : Prop) : Nat → Stmt → List Token → Prop
  | declare (left : Nat) {names : List String} {ns : List Token} (pos : Position)
      (hnames : NamesWritten names ns) :
      Stmt.Written strict left (.declare names [] pos) (.keyword .kwLocal :: ns)
  | declareValues {left : Nat} {names : List String} {values : List Expr} {ns ts : List Token}
      (pos : Position) (hnames : NamesWritten names ns)
      (hvalues : ExprsWritten strict left values ts) :
      Stmt.Written strict (left + 1) (.declare names values pos)
        (.keyword .kwLocal :: ns ++ .symbol .assign :: ts)
  | declareFunction {left : Nat} {body : FunctionBody} {ts : List Token} (name : String)
      (pos : Position) (h : FunctionBody.Written strict [] left body ts) :
      Stmt.Written strict left (.declareFunction name body pos)
        (.keyword .kwLocal :: .keyword .kwFunction :: .name name :: ts)
  | defineFunction {left : Nat} {name : FunctionName} {body : FunctionBody} {ts : List Token}
      (pos : Position) (h : FunctionBody.Written strict name.implicit left body ts) :
      Stmt.Written strict left (.defineFunction name body pos)
        (.keyword .kwFunction :: name.tokens ++ ts)
  | assign {left : Nat} {targets values : List Expr} {ts vs : List Token} (pos : Position)
      (hassignable : ∀ t ∈ targets, t.isAssignable)
      (htargets : ExprsWritten strict (left + 1) targets ts)
      (hvalues : ExprsWritten strict left values vs) :
      Stmt.Written strict (left + 1) (.assign targets values pos) (ts ++ .symbol .assign :: vs)
  | call {left : Nat} {call : Expr} {ts : List Token} (hcall : call.isCall)
      (h : Expr.Written strict left call ts) : Stmt.Written strict left (.call call) ts
  | block {left : Nat} {body : Block} {ts : List Token} (h : Block.Written strict left body ts) :
      Stmt.Written strict (left + 1) (.block body)
        (.keyword .kwDo :: ts ++ [.keyword .kwEnd])
  | whileLoop {left : Nat} {cond : Expr} {body : Block} {cs ts : List Token} (pos : Position)
      (hcond : Expr.Written strict left cond cs) (hbody : Block.Written strict left body ts) :
      Stmt.Written strict (left + 1) (.whileLoop cond body pos)
        (.keyword .kwWhile :: cs ++ .keyword .kwDo :: ts ++ [.keyword .kwEnd])
  | repeatLoop {left : Nat} {cond : Expr} {body : Block} {cs ts : List Token} (pos : Position)
      (hbody : Block.Written strict left body ts) (hcond : Expr.Written strict left cond cs) :
      Stmt.Written strict (left + 1) (.repeatLoop body cond pos)
        (.keyword .kwRepeat :: ts ++ .keyword .kwUntil :: cs)
  | branch {left : Nat} {branch : Branch} {branches : List Branch} {otherwise : Option Block}
      {bs os : List Token} (pos : Position)
      (hbranches : BranchesWritten strict left branch branches bs)
      (hotherwise : OtherwiseWritten strict left otherwise os) :
      Stmt.Written strict (left + 1) (.branch (branch :: branches) otherwise pos)
        (.keyword .kwIf :: bs ++ os ++ [.keyword .kwEnd])
  | numericFor {left : Nat} {start limit : Expr} {step : Option Expr} {body : Block}
      {ss ls cs ts : List Token} (var : String) (pos : Position)
      (hstart : Expr.Written strict left start ss) (hlimit : Expr.Written strict left limit ls)
      (hstep : StepWritten strict left step cs) (hbody : Block.Written strict left body ts) :
      Stmt.Written strict (left + 1) (.numericFor var start limit step body pos)
        (.keyword .kwFor :: .name var :: .symbol .assign :: ss ++ .symbol .comma :: ls ++ cs ++
          .keyword .kwDo :: ts ++ [.keyword .kwEnd])
  | genericFor {left : Nat} {names : List String} {values : List Expr} {body : Block}
      {ns vs ts : List Token} (pos : Position) (hnames : NamesWritten names ns)
      (hvalues : ExprsWritten strict left values vs) (hbody : Block.Written strict left body ts) :
      Stmt.Written strict (left + 1) (.genericFor names values body pos)
        (.keyword .kwFor :: ns ++ .keyword .kwIn :: vs ++ .keyword .kwDo :: ts ++
          [.keyword .kwEnd])
  | breakLoop (left : Nat) (pos : Position) :
      Stmt.Written strict left (.breakLoop pos) [.keyword .kwBreak]

inductive Branch.Written (strict : Prop) : Nat → Branch → List Token → Prop
  | mk {left : Nat} {cond : Expr} {body : Block} {cs ts : List Token}
      (hcond : Expr.Written strict left cond cs) (hbody : Block.Written strict left body ts) :
      Branch.Written strict left (.mk cond body) (cs ++ .keyword .kwThen :: ts)

inductive BranchesWritten (strict : Prop) : Nat → Branch → List Branch → List Token → Prop
  | one {left : Nat} {branch : Branch} {ts : List Token} (h : Branch.Written strict left branch ts) :
      BranchesWritten strict left branch [] ts
  | cons {left : Nat} {branch next : Branch} {branches : List Branch} {ts ts' : List Token}
      (h : Branch.Written strict left branch ts)
      (hs : BranchesWritten strict left next branches ts') :
      BranchesWritten strict left branch (next :: branches) (ts ++ .keyword .kwElseif :: ts')

inductive OtherwiseWritten (strict : Prop) : Nat → Option Block → List Token → Prop
  | none (left : Nat) : OtherwiseWritten strict left none []
  | some {left : Nat} {block : Block} {ts : List Token} (h : Block.Written strict left block ts) :
      OtherwiseWritten strict left (some block) (.keyword .kwElse :: ts)

inductive StepWritten (strict : Prop) : Nat → Option Expr → List Token → Prop
  | none (left : Nat) : StepWritten strict left none []
  | some {left : Nat} {step : Expr} {ts : List Token} (h : Expr.Written strict left step ts) :
      StepWritten strict left (some step) (.symbol .comma :: ts)

end

theorem NamesWritten.snoc {names : List String} {ts : List Token} (h : NamesWritten names ts)
    (name : String) : NamesWritten (names ++ [name]) (ts ++ [.symbol .comma, .name name]) := by
  induction h with
  | one first => exact .cons first (.one name)
  | cons first _ ih => exact .cons first ih

theorem ExprsWritten.snoc {strict : Prop} {left : Nat} {e : Expr} {es : List Expr}
    {ts ts' : List Token} (hs : ExprsWritten strict left es ts) (h : e.Written strict left ts') :
    ExprsWritten strict left (es ++ [e]) (ts ++ .symbol .comma :: ts') := by
  induction es generalizing ts with
  | nil => cases hs
  | cons first es ih =>
    cases hs with
    | one hfirst => exact .cons hfirst (.one h)
    | cons hfirst hs => simpa using ExprsWritten.cons hfirst (ih hs)

theorem BranchesWritten.snoc {strict : Prop} {left : Nat} {first branch : Branch}
    {rest : List Branch} {ts ts' : List Token} (hs : BranchesWritten strict left first rest ts)
    (h : branch.Written strict left ts') :
    BranchesWritten strict left first (rest ++ [branch]) (ts ++ .keyword .kwElseif :: ts') := by
  induction rest generalizing first ts with
  | nil =>
    cases hs with | one hfirst => exact .cons hfirst (.one h)
  | cons next rest ih =>
    cases hs with | cons hfirst hs => simpa using BranchesWritten.cons hfirst (ih hs)

theorem ArgsWritten.ne_nil {strict : Prop} {left : Nat} {args : List Expr} {ts : List Token}
    (h : ArgsWritten strict left args ts) : ts ≠ [] := by
  cases h with
  | table pos h => cases h; simp
  | _ => simp

theorem Expr.Written.ne_nil {strict : Prop} {left : Nat} {e : Expr} {ts : List Token}
    (h : e.Written strict left ts) : ts ≠ [] := by
  cases h with
  | call pos _ _ _ hargs => simp [hargs.ne_nil]
  | _ => simp

theorem Field.Written.ne_nil {strict : Prop} {left : Nat} {f : Field} {ts : List Token}
    (h : f.Written strict left ts) : ts ≠ [] := by
  cases h with
  | item h => exact h.ne_nil
  | _ => simp

theorem Stmt.Written.ne_nil {strict : Prop} {left : Nat} {s : Stmt} {ts : List Token}
    (h : s.Written strict left ts) : ts ≠ [] := by
  cases h with
  | call _ h => exact h.ne_nil
  | _ => simp

end MiniLua
