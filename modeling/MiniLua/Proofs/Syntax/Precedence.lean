import MiniLua.Proofs.Syntax.Grammar
import MiniLua.Proofs.Syntax.Written

/-! Binding powers, by which the parser decides, told by the ranks of operators. -/

namespace MiniLua

namespace BinaryOp

/-- How tight the operator binds to its left. -/
def leftPower : BinaryOp → Nat
  | or => 1
  | and => 3
  | eq | neq | lt | le | gt | ge => 5
  | concat => 8
  | add | sub => 9
  | mul | div | mod => 11
  | pow => 15

/-- How tight it binds to its right. -/
def rightPower : BinaryOp → Nat
  | or => 2
  | and => 4
  | eq | neq | lt | le | gt | ge => 6
  | concat => 7
  | add | sub => 10
  | mul | div | mod => 12
  | pow => 14

end BinaryOp

instance BinaryOp.inner_token (op : BinaryOp) : op.token.Inner := ⟨by cases op <;> simp [token]⟩

instance UnaryOp.inner_token (op : UnaryOp) : op.token.Inner := ⟨by cases op <;> simp [token]⟩

namespace Expr

/-- Neither an operator nor operands around one. -/
def isSimple : Expr → Bool
  | binary .. | unary .. => false
  | _ => true

theorem isSimple_of_isPrefix {e : Expr} (h : e.isPrefix) : e.isSimple := by
  cases e <;> first | rfl | cases h

theorem chain_of_isSimple {e : Expr} (h : e.isSimple) : e.chain = 0 := by
  cases e <;> first | rfl | cases h

theorem leftOf_of_isSimple {e : Expr} (h : e.isSimple) (op : BinaryOp) : e.LeftOf op := by
  cases e <;> trivial

/-- No operator on top binds less tight to its left than this. -/
def Above (power : Nat) : Expr → Prop
  | binary op _ _ _ => power ≤ op.leftPower
  | _ => True

theorem above_of_isSimple {e : Expr} (h : e.isSimple) (power : Nat) : e.Above power := by
  cases e <;> trivial

end Expr

namespace Parser

theorem binaryOp?_token (op : BinaryOp) :
    binaryOp? op.token = some (op, op.leftPower, op.rightPower) := by
  cases op <;> rfl

theorem token_injective {op op' : BinaryOp} (h : op.token = op'.token) : op = op' := by
  have hop := binaryOp?_token op
  rw [h, binaryOp?_token op'] at hop
  simpa using congrArg (Option.map Prod.fst) hop.symm

theorem of_binaryOp? {t : Token} {op : BinaryOp} {left right : Nat}
    (h : binaryOp? t = some (op, left, right)) :
    t = op.token ∧ left = op.leftPower ∧ right = op.rightPower := by
  unfold binaryOp? at h
  split at h <;> cases h <;> exact ⟨rfl, rfl, rfl⟩

theorem unaryOp?_token (op : UnaryOp) : unaryOp? op.token = some op := by
  cases op <;> rfl

theorem of_unaryOp? {t : Token} {op : UnaryOp} (h : unaryOp? t = some op) : t = op.token := by
  unfold unaryOp? at h
  split at h <;> cases h <;> rfl

/-- The powers of an operator told by its rank and the way it groups. -/
theorem powers (op : BinaryOp) :
    op.toRight = false ∧ op.rank ≤ 6 ∧ op.rank ≠ 4 ∧ 0 < op.rank ∧
      op.leftPower + 1 = 2 * op.rank ∧ op.rightPower = 2 * op.rank ∨
    op.toRight = true ∧ (op.rank = 4 ∧ op.leftPower = 8 ∧ op.rightPower = 7 ∨
      op.rank = 8 ∧ op.leftPower = 15 ∧ op.rightPower = 14) := by
  cases op <;> decide

theorem leftOf_binary {op o' : BinaryOp} {lhs rhs : Expr} {pos : Position} :
    (Expr.binary o' lhs rhs pos).LeftOf op ↔ op.leftPower < o'.rightPower := by
  change (if op.toRight = true then op.rank < o'.rank else op.rank ≤ o'.rank) ↔ _
  have h := powers op
  have h' := powers o'
  split <;> simp_all <;> omega

theorem leftOf_unary {op : BinaryOp} {o' : UnaryOp} {operand : Expr} {pos : Position} :
    (Expr.unary o' operand pos).LeftOf op ↔ op.leftPower < unaryPower := by
  change op.rank < 7 ↔ op.leftPower < 13
  have h := powers op
  omega

theorem rightOf_iff {op : BinaryOp} {e : Expr} : e.RightOf op ↔ e.Above op.rightPower := by
  cases e with
  | binary o' =>
    change (if op.toRight = true then op.rank ≤ o'.rank else op.rank < o'.rank) ↔
      op.rightPower ≤ o'.leftPower
    have h := powers op
    have h' := powers o'
    split <;> simp_all <;> omega
  | _ => rfl

theorem underUnary_iff {e : Expr} : e.UnderUnary ↔ e.Above unaryPower := by
  cases e with
  | binary o' =>
    change 7 < o'.rank ↔ 13 ≤ o'.leftPower
    have h := powers o'
    omega
  | _ => rfl

/-- No operator of this power or more is next. -/
def Stops (power : Nat) (t : Token) : Prop := ∀ op : BinaryOp, t = op.token → op.leftPower < power

end Parser

end MiniLua
