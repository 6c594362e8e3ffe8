import MiniLua.Code.Compile
import MiniLua.Proofs.Code.Compiled
import MiniLua.Proofs.Code.InRange
import MiniLua.Proofs.Syntax.Tracks
import MiniLua.Proofs.Text.Scans

/-!
From bytes to code. Scanning takes some of the text in every round and never more than there is;
parsing takes a lexeme with every statement, expression and field and stops before the end of the
text; compiling a syntax tree, whatever tree it is, finds what each of its operations takes for
granted.
-/

namespace MiniLua

section

open Emit

variable {k : Nat}

mutual

theorem Expr.steady : ∀ (e : Expr) {k : Nat} (want : Want), Emit.Steady k (e.emit want)
  | .nil _, _, _ => inferInstanceAs (Emit.Steady _ (opA _ _))
  | .bool true _, _, _ => inferInstanceAs (Emit.Steady _ (op _))
  | .bool false _, _, _ => inferInstanceAs (Emit.Steady _ (op _))
  | .int _ _, _, _ => inferInstanceAs (Emit.Steady _ (loadConst _))
  | .float _ _, _, _ => inferInstanceAs (Emit.Steady _ (loadConst _))
  | .string _ _, _, _ => .after fun _ ↦ inferInstance
  | .varargs pos, _, want => inferInstanceAs (Emit.Steady _ (emitVarargs want pos))
  | .name name _, _, _ => .after fun _ ↦ inferInstanceAs (Emit.Steady _ (loadName name))
  | .index object key _, k, _ => by
    have hobject := object.steady (k := k) (.exactly 1)
    have hkey := key.steady (k := k) (.exactly 1)
    unfold Expr.emit
    infer_instance
  | .call callee args _, k, _ => by
    have hcallee := callee.steady (k := k) (.exactly 1)
    have hargs := steady_exprs (k := k) .all 0 args
    unfold Expr.emit
    infer_instance
  | .method object name args _, k, _ => by
    have hobject := object.steady (k := k) (.exactly 1)
    have hargs := steady_exprs (k := k) .all 0 args
    unfold Expr.emit
    infer_instance
  | .function body, _, _ => body.steady none
  | .table fields _, k, _ => by
    have hfields := steady_fields (k := k) 1 fields
    unfold Expr.emit
    infer_instance
  | .binary o lhs rhs _, k, _ => by
    have hlhs := lhs.steady (k := k) (.exactly 1)
    unfold Expr.emit
    refine .after fun _ ↦ ?_
    split
    · have hrhs := rhs.steady (k := k) (.exactly 1)
      infer_instance
    · refine .jump fun skip k' _ hskip ↦ ?_
      have hrhs := rhs.steady (k := k') (.exactly 1)
      have hland := Steady.land hskip
      infer_instance
  | .unary o operand _, k, _ => by
    have hoperand := operand.steady (k := k) (.exactly 1)
    unfold Expr.emit
    split <;> infer_instance
  | .paren inner _, _, _ => inner.steady (.exactly 1)

theorem steady_exprs : ∀ {k : Nat} (want : Want) (pushed : Nat) (es : List Expr),
    Emit.Steady k (emitExprs want pushed es)
  | _, want, pushed, [] => by
    unfold emitExprs
    infer_instance
  | k, want, pushed, e :: rest => by
    have he (want : Want) := e.steady (k := k) want
    have hrest := steady_exprs (k := k) want (pushed + 1) rest
    unfold emitExprs
    split
    · cases want <;> infer_instance
    · infer_instance

theorem steady_fields : ∀ {k : Nat} (next : Nat) (fields : List Field),
    Emit.Steady k (emitFields next fields)
  | _, _, [] => inferInstanceAs (Emit.Steady _ (pure ⟨⟩ : Emit Unit))
  | k, next, .item value :: rest => by
    have hvalue (want : Want) := value.steady (k := k) want
    have hrest := steady_fields (k := k) (next + 1) rest
    unfold emitFields
    split <;> infer_instance
  | k, next, .entry key value :: rest => by
    have hkey := key.steady (k := k) (.exactly 1)
    have hvalue := value.steady (k := k) (.exactly 1)
    have hrest := steady_fields (k := k) next rest
    unfold emitFields
    infer_instance

theorem FunctionBody.steady : ∀ (body : FunctionBody) {k : Nat} (name : Option String),
    Emit.Steady k (body.emit name)
  | .mk params variadic body pos, k, name => by
    have hbody := body.steady (k := 0)
    unfold FunctionBody.emit
    dsimp only
    split
    · exact .fault_bind _ _ _
    · next hfew =>
      have hnested (name : String) :
          Steady k (Emit.nested name params variadic pos.codeLine body.emit) :=
        Steady.nested (Nat.le_of_not_lt hfew)
      infer_instance

theorem Block.steady : ∀ (b : Block) {k : Nat}, Emit.Steady k b.emit
  | .mk stmts _, k => by
    have hstmts := steady_stmts (k := k) stmts
    exact inferInstanceAs (Emit.Steady k (inScope (emitStmts stmts)))

theorem steady_stmts : ∀ {k : Nat} (stmts : List Stmt), Emit.Steady k (emitStmts stmts)
  | _, [] => inferInstanceAs (Emit.Steady _ (pure ⟨⟩ : Emit Unit))
  | k, stmt :: rest => by
    have hstmt := stmt.steady (k := k)
    have hrest := steady_stmts (k := k) rest
    unfold emitStmts
    infer_instance

theorem Stmt.steady : ∀ (stmt : Stmt) {k : Nat}, Emit.Steady k stmt.emit
  | .declare names values _, k => by
    have hvalues := steady_exprs (k := k) (.exactly names.length) 0 values
    unfold Stmt.emit
    infer_instance
  | .declareFunction name body _, k => by
    have hbody := body.steady (k := k) (some name)
    unfold Stmt.emit
    infer_instance
  | .defineFunction name body _, k => by
    have hbody := body.steady (k := k) (some name.display)
    unfold Stmt.emit
    refine .after fun _ ↦ .after fun _ ↦ ?_
    dsimp only
    split <;> infer_instance
  | .assign targets values _, k => by
    have hvalues := steady_exprs (k := k) (.exactly targets.length) 0 values
    have htargets := steady_targets (k := k) targets
    unfold Stmt.emit
    infer_instance
  | .call call, k => by
    have hcall := call.steady (k := k) (.exactly 0)
    unfold Stmt.emit
    infer_instance
  | .block body, k => by
    have hbody := body.steady (k := k)
    unfold Stmt.emit
    infer_instance
  | .whileLoop cond body _, k => by
    have hcond := cond.steady (k := k) (.exactly 1)
    unfold Stmt.emit
    refine .after fun _ ↦ .after fun start ↦ .after fun _ ↦ .jump fun exit k' _ hexit ↦ ?_
    have hbody := body.steady (k := k')
    have hland := Steady.land hexit
    infer_instance
  | .repeatLoop (.mk stmts _) cond _, k => by
    have hstmts := steady_stmts (k := k) stmts
    have hcond := cond.steady (k := k) (.exactly 1)
    unfold Stmt.emit
    infer_instance
  | .branch branches otherwise _, k => by
    unfold Stmt.emit
    refine .after fun _ ↦ (leaves_branches otherwise.isSome branches).steady fun ends k' _ hends ↦ ?_
    have hotherwise := steady_otherwise (k := k') otherwise
    have hland : Emit.Steady k' (landAll ends) := .landAll hends
    infer_instance
  | .numericFor var start limit step body _, k => by
    have hstart := start.steady (k := k) (.exactly 1)
    have hlimit := limit.steady (k := k) (.exactly 1)
    have hstep := steady_step (k := k) step
    have hloop (base again : Nat) : Emit.Steady k (jump .jumpIfFalse >>= fun exit ↦ looped (do
        inScope (do
          let cell ← declare var
          opX .getCell base
          opX .newCell cell
          body.emit)
        opX .forStep base
        opX .jump again
        land exit)) := by
      refine .jump fun exit k' _ hexit ↦ ?_
      have hbody := body.steady (k := k')
      have hland := Steady.land hexit
      infer_instance
    unfold Stmt.emit
    refine .after fun _ ↦ @Steady.inScope _ _ ?_
    refine .after fun _ ↦ .after fun _ ↦ .after fun _ ↦ .after fun base ↦ .after fun _ ↦
      .after fun _ ↦ .after fun _ ↦ .after fun _ ↦ .after fun _ ↦ .after fun _ ↦ .after fun again ↦
        .after fun _ ↦ ?_
    exact hloop base again
  | .genericFor .., _ => by
    unfold Stmt.emit
    infer_instance
  | .returnValues values _, k => by
    have hvalues := steady_exprs (k := k) .all 0 values
    unfold Stmt.emit
    infer_instance
  | .breakLoop _, _ => by
    unfold Stmt.emit
    infer_instance

theorem steady_step : ∀ {k : Nat} (step : Option Expr), Emit.Steady k (emitStep step)
  | _, some step => step.steady (.exactly 1)
  | _, none => inferInstanceAs (Emit.Steady _ (loadConst _))

theorem steady_otherwise : ∀ {k : Nat} (otherwise : Option Block),
    Emit.Steady k (emitOtherwise otherwise)
  | _, some block => block.steady
  | _, none => inferInstanceAs (Emit.Steady _ (pure ⟨⟩ : Emit Unit))

/-- The jumps to the end of the statement are there. -/
theorem leaves_branches : ∀ {k : Nat} (more : Bool) (branches : List Branch),
    Leaves k (emitBranches more branches) id
  | _, _, [] => .pure fun _ h ↦ absurd h List.not_mem_nil
  | k, more, .mk cond body :: rest => by
    have hcond := cond.steady (k := k) (.exactly 1)
    unfold emitBranches
    refine .after fun _ ↦ (Leaves.jump .jumpIfFalse).bind fun next k₁ _ hnext ↦ ?_
    have hbody := body.steady (k := k₁)
    have hrest (exits : List Nat) {k₂ : Nat} (hk₂ : k₁ ≤ k₂) (hexits : ∀ exit ∈ exits, exit < k₂) :
        Leaves k₂ (do
          land next
          return exits ++ (← emitBranches more rest)) id := by
      have hland := Steady.land (Nat.lt_of_lt_of_le (hnext next List.mem_cons_self) hk₂)
      refine .after fun _ ↦ (leaves_branches more rest).bind fun others k₃ hk₃ hothers ↦
        .pure fun exit hexit ↦ ?_
      rcases List.mem_append.mp hexit with h | h
      · exact Nat.lt_of_lt_of_le (hexits exit h) hk₃
      · exact hothers exit h
    refine .after fun _ ↦ ?_
    dsimp only
    split
    · exact hrest [] (Nat.le_refl _) fun _ h ↦ absurd h List.not_mem_nil
    · exact (Leaves.jump .jump).bind fun exit k₂ hk₂ hexit ↦ hrest [exit] hk₂ hexit

theorem steady_targets : ∀ {k : Nat} (targets : List Expr), Emit.Steady k (storeTargets targets)
  | _, [] => inferInstanceAs (Emit.Steady _ (pure ⟨⟩ : Emit Unit))
  | k, target :: rest => by
    have hrest := steady_targets (k := k) rest
    have htarget := steady_target (k := k) target
    unfold storeTargets
    infer_instance

theorem steady_target : ∀ {k : Nat} (target : Expr), Emit.Steady k (storeTarget target)
  | _, .name name pos => by
    unfold storeTarget
    infer_instance
  | k, .index object key pos => by
    have hobject := object.steady (k := k) (.exactly 1)
    have hkey := key.steady (k := k) (.exactly 1)
    unfold storeTarget
    infer_instance
  | _, .nil _ | _, .bool .. | _, .int .. | _, .float .. | _, .string .. | _, .varargs _
  | _, .call .. | _, .method .. | _, .function _ | _, .table .. | _, .binary .. | _, .unary ..
  | _, .paren .. => inferInstanceAs (Emit.Steady _ (fault _ _ : Emit Unit))

end

end

namespace Lexer

end Lexer

namespace Emit

/-- A chunk is compiled as a function is, but for what is around it. -/
theorem inRange_main (chunk : Chunk) (heap : Heap) (chunkName : String) :
    InRange (· = .begin heap chunkName) (main chunk) fun _ ↦ Assembly.Meets [(0, 0)] := by
  have hbegin : Assembly.Meets [(0, 0)] (.begin heap chunkName) :=
    .cons (.start "main chunk" true 0 (by decide)) .nil
  refine .imp (P := Assembly.Meets [(0, 0)]) ?_ (fun s hs ↦ hs ▸ hbegin) fun _ _ h ↦ h
  refine .bind ((chunk.steady (k := 0)).inRange 0 0 [] (Nat.le_refl 0)) fun _ ↦ ?_
  refine .bind (Steady.inRange (m := op .ret) 0 0 [] (Nat.le_refl 0)) fun _ ↦ ?_
  refine .bind (R := fun p s ↦ Assembly.Meets [(0, 0)] s ∧ p = s.current.toPrototype)
    (.imp (.inspect Builder.toPrototype) (fun s h ↦ ⟨h, rfl⟩) fun _ _ h ↦ h) fun p ↦ ?_
  exact .imp (.finish p)
    (fun s ⟨h, hp⟩ ↦ ⟨hp ▸ ⟨h.current.arity, h.current.cells, h.current.captures⟩, h⟩)
    fun _ _ h ↦ h

end Emit

end MiniLua
