import MiniLua.Syntax.Tree

/-! Trees without their places in the source. -/

namespace MiniLua

mutual

/-- The tree with every place set to the same one. -/
@[simp] def Expr.bare : Expr → Expr
  | .nil _ => .nil .start
  | .bool value _ => .bool value .start
  | .int value _ => .int value .start
  | .float value _ => .float value .start
  | .string value _ => .string value .start
  | .varargs _ => .varargs .start
  | .name name _ => .name name .start
  | .index object key _ => .index object.bare key.bare .start
  | .call callee args _ => .call callee.bare (bareExprs args) .start
  | .method object name args _ => .method object.bare name (bareExprs args) .start
  | .function body => .function body.bare
  | .table fields _ => .table (bareFields fields) .start
  | .binary op lhs rhs _ => .binary op lhs.bare rhs.bare .start
  | .unary op operand _ => .unary op operand.bare .start
  | .paren inner _ => .paren inner.bare .start

@[simp] def bareExprs : List Expr → List Expr
  | [] => []
  | e :: rest => e.bare :: bareExprs rest

@[simp] def Field.bare : Field → Field
  | .item value => .item value.bare
  | .entry key value => .entry key.bare value.bare

@[simp] def bareFields : List Field → List Field
  | [] => []
  | field :: rest => field.bare :: bareFields rest

@[simp] def FunctionBody.bare : FunctionBody → FunctionBody
  | .mk params variadic body _ => .mk params variadic body.bare .start

@[simp] def Block.bare : Block → Block
  | .mk stmts _ => .mk (bareStmts stmts) .start

@[simp] def bareStmts : List Stmt → List Stmt
  | [] => []
  | stmt :: rest => stmt.bare :: bareStmts rest

@[simp] def Stmt.bare : Stmt → Stmt
  | .declare names values _ => .declare names (bareExprs values) .start
  | .declareFunction name body _ => .declareFunction name body.bare .start
  | .defineFunction name body _ => .defineFunction name body.bare .start
  | .assign targets values _ => .assign (bareExprs targets) (bareExprs values) .start
  | .call call => .call call.bare
  | .block body => .block body.bare
  | .whileLoop cond body _ => .whileLoop cond.bare body.bare .start
  | .repeatLoop body cond _ => .repeatLoop body.bare cond.bare .start
  | .branch branches otherwise _ => .branch (bareBranches branches) (bareOtherwise otherwise) .start
  | .numericFor var start limit step body _ =>
    .numericFor var start.bare limit.bare (bareStep step) body.bare .start
  | .genericFor names values body _ => .genericFor names (bareExprs values) body.bare .start
  | .returnValues values _ => .returnValues (bareExprs values) .start
  | .breakLoop _ => .breakLoop .start

@[simp] def Branch.bare : Branch → Branch
  | .mk cond body => .mk cond.bare body.bare

@[simp] def bareBranches : List Branch → List Branch
  | [] => []
  | branch :: rest => branch.bare :: bareBranches rest

@[simp] def bareOtherwise : Option Block → Option Block
  | none => none
  | some block => some block.bare

@[simp] def bareStep : Option Expr → Option Expr
  | none => none
  | some step => some step.bare

end

theorem bareExprs_eq (es : List Expr) : bareExprs es = es.map Expr.bare := by
  induction es with
  | nil => rfl
  | cons e es ih => simp [bareExprs, ih]

theorem bareFields_eq (fields : List Field) : bareFields fields = fields.map Field.bare := by
  induction fields with
  | nil => rfl
  | cons field fields ih => simp [bareFields, ih]

theorem bareStmts_eq (stmts : List Stmt) : bareStmts stmts = stmts.map Stmt.bare := by
  induction stmts with
  | nil => rfl
  | cons stmt stmts ih => simp [bareStmts, ih]

theorem bareBranches_eq (branches : List Branch) :
    bareBranches branches = branches.map Branch.bare := by
  induction branches with
  | nil => rfl
  | cons branch branches ih => simp [bareBranches, ih]

theorem bareOtherwise_eq (otherwise : Option Block) :
    bareOtherwise otherwise = otherwise.map Block.bare := by
  cases otherwise <;> rfl

theorem bareStep_eq (step : Option Expr) : bareStep step = step.map Expr.bare := by
  cases step <;> rfl

namespace Expr

theorem isCall_bare (e : Expr) : e.bare.isCall = e.isCall := by
  cases e <;> rfl

theorem isAssignable_bare (e : Expr) : e.bare.isAssignable = e.isAssignable := by
  cases e <;> rfl

end Expr

end MiniLua
