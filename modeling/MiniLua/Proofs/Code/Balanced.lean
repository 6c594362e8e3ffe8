import MiniLua.Proofs.Code.Compiled

/-! A function nests no more functions than it has instructions: each of them is made by one. -/

namespace MiniLua

open Effects Emit

/-- At least as many instructions were added as nested functions, here and to all that was finished. -/
structure Assembly.Balances (s t : Assembly) : Prop where
  current : t.current.protos.size + s.current.code.size ≤ s.current.protos.size + t.current.code.size
  enclosing : List.Forall₂ Builder.Gains s.enclosing t.enclosing
  heap (i : Nat) (p : Prototype) : t.heap.protos[i]? = some p →
    s.heap.protos[i]? = some p ∨ p.protos.size ≤ p.code.size

namespace Assembly.Balances

variable {s t u : Assembly}

theorem refl (s : Assembly) : s.Balances s :=
  ⟨Nat.le_refl _, Builder.gains_refl _, fun _ _ ↦ .inl⟩

theorem trans (h : s.Balances t) (h' : t.Balances u) : s.Balances u where
  current := by
    have hst := h.current
    have htu := h'.current
    omega
  enclosing := Builder.gains_trans h.enclosing h'.enclosing
  heap i p hp := by
    obtain hp | hp := h'.heap i p hp
    · exact h.heap i p hp
    · exact .inr hp

/-- Instructions are added, or nothing that is counted. -/
theorem of_current {b : Builder} (hcode : s.current.code.size ≤ b.code.size)
    (hprotos : b.protos.size = s.current.protos.size) : s.Balances { s with current := b } :=
  ⟨by dsimp only; omega, Builder.gains_refl _, fun _ _ ↦ .inl⟩

end Assembly.Balances

namespace Emit

variable {α β γ : Type}

/-- The program adds at least as many instructions as nested functions. -/
class Balanced (m : Emit α) : Prop where
  run {s t : Assembly} {a : α} : m s = .ok a t → s.Balances t

namespace Balanced

instance (a : α) : Balanced (pure a : Emit α) where
  run h := by
    obtain ⟨-, rfl⟩ := pure_eq_ok.mp h
    exact .refl _

instance bind {m : Emit α} {f : α → Emit β} [hm : Balanced m] [hf : ∀ a, Balanced (f a)] :
    Balanced (m >>= f) where
  run h := by
    obtain ⟨b, u, hb, h⟩ := bind_eq_ok.mp h
    exact (hm.run hb).trans ((hf b).run h)

theorem after {m : Emit α} {f : α → Emit β} [Balanced m] (hf : ∀ a, Balanced (f a)) :
    Balanced (m >>= f) := bind

instance {m : Emit α} {g : α → β} [Balanced m] : Balanced (g <$> m) :=
  inferInstanceAs (Balanced (m >>= fun a ↦ pure (g a)))

instance (c : Prop) [Decidable c] {m m' : Emit α} [Balanced m] [Balanced m'] :
    Balanced (if c then m else m') := by
  split <;> infer_instance

instance {f : γ → Emit PUnit} [∀ c, Balanced (f c)] (cs : List γ) : Balanced (cs.forM f) := by
  induction cs with
  | nil => exact inferInstanceAs (Balanced (pure ⟨⟩ : Emit PUnit))
  | cons c cs ih => exact inferInstanceAs (Balanced (f c >>= fun _ ↦ cs.forM f))

instance {f : γ → Emit β} [∀ c, Balanced (f c)] (cs : List γ) : Balanced (cs.mapM f) := by
  induction cs with
  | nil => exact inferInstanceAs (Balanced (pure [] : Emit (List β)))
  | cons c cs ih =>
    rw [List.mapM_cons]
    infer_instance

instance (e : CompileError) : Balanced (throw e : Emit α) := ⟨fun h ↦ absurd h throw_ne_ok⟩

instance (f : CompileFault) (line : Nat) : Balanced (fault f line : Emit α) :=
  inferInstanceAs (Balanced (throw _ : Emit α))

instance : Balanced (get : Emit Assembly) where
  run h := by
    cases h
    exact .refl _

instance (f : Builder → α) : Balanced (inspect f) := by
  unfold inspect
  infer_instance

theorem of_build {f : Builder → Builder} (hcode : ∀ b, b.code.size ≤ (f b).code.size)
    (hprotos : ∀ b, (f b).protos.size = b.protos.size) : Balanced (build f) where
  run h := by
    cases h
    exact .of_current (hcode _) (hprotos _)

instance (i : Instruction) : Balanced (build fun b ↦ b.emit i) :=
  of_build (fun b ↦ by simp [Builder.emit]) fun _ ↦ rfl

instance (pos : Position) : Balanced (setLine pos) :=
  of_build (fun _ ↦ Nat.le_refl _) fun _ ↦ rfl

instance (o : Opcode) : Balanced (op o) := inferInstanceAs (Balanced (build fun b ↦ b.emit _))

instance (o : Opcode) (a : Nat) : Balanced (opA o a) :=
  inferInstanceAs (Balanced (build fun b ↦ b.emit _))

instance (o : Opcode) (x : Nat) : Balanced (opX o x) :=
  inferInstanceAs (Balanced (build fun b ↦ b.emit _))

instance : Balanced here := inferInstanceAs (Balanced (inspect _))

instance (o : Opcode) : Balanced (jump o) := by
  unfold jump
  infer_instance

instance (at_ : Nat) : Balanced (land at_) := by
  have hpatch (target : Nat) : Balanced (build fun b ↦ b.patch at_ target) :=
    of_build (fun _ ↦ (Builder.size_patch at_ target).ge) fun _ ↦ rfl
  unfold land
  infer_instance

instance (jumps : List Nat) : Balanced (landAll jumps) :=
  inferInstanceAs (Balanced (jumps.forM land))

theorem of_tryBuild {f : Builder → Except CompileError (α × Builder)}
    (hf : ∀ {b b' : Builder} {a : α}, f b = .ok (a, b') →
      b.code.size ≤ b'.code.size ∧ b'.protos.size = b.protos.size) : Balanced (tryBuild f) where
  run h := by
    obtain ⟨b, hb, rfl⟩ := tryBuild_eq_ok h
    exact .of_current (hf hb).1 (hf hb).2

instance (v : Value) : Balanced (constant v) :=
  of_tryBuild fun h ↦ by
    rw [(Builder.addConstant_eq h).1]
    exact ⟨Nat.le_refl _, rfl⟩

instance (bytes : Bytes) : Balanced (stringConstant bytes) := by
  have hintern : Balanced (modifyGet fun s ↦
      ((s.heap.intern bytes).1, { s with heap := (s.heap.intern bytes).2 }) : Emit Nat) := by
    refine ⟨fun h ↦ ?_⟩
    cases h
    exact ⟨Nat.le_refl _, Builder.gains_refl _, fun _ _ ↦ .inl⟩
  exact @bind _ _ _ _ hintern fun _ ↦ inferInstance

instance (text : String) : Balanced (textConstant text) :=
  inferInstanceAs (Balanced (stringConstant _))

instance (v : Value) : Balanced (loadConst v) := by
  unfold loadConst
  infer_instance

instance (o : Opcode) (bound n : Nat) : Balanced (repeated o bound n) := by
  induction bound generalizing n with
  | zero => exact inferInstanceAs (Balanced (pure ⟨⟩ : Emit Unit))
  | succ bound ih =>
    unfold repeated
    infer_instance

instance (n : Nat) : Balanced (nils n) := inferInstanceAs (Balanced (repeated _ _ _))

instance (n : Nat) : Balanced (pops n) := inferInstanceAs (Balanced (repeated _ _ _))

instance (name : String) : Balanced (declare name) :=
  of_tryBuild fun h ↦ by
    obtain ⟨-, -, rfl⟩ := Builder.declare_eq h
    exact ⟨Nat.le_refl _, rfl⟩

instance (name : String) : Balanced (binding name) where
  run {s t a} h := by
    unfold binding at h
    obtain ⟨_, _, hget, h⟩ := bind_eq_ok.mp h
    cases hget
    cases hresolve : s.current.resolve? name with
    | some cell =>
      rw [hresolve] at h
      cases h
      exact .refl _
    | none =>
      rw [hresolve] at h
      dsimp only at h
      cases hcapture : s.current.captureFrom name s.enclosing with
      | error e =>
        rw [hcapture] at h
        exact absurd h throw_ne_ok
      | ok result =>
        obtain ⟨found, current, enclosing⟩ := result
        rw [hcapture] at h
        cases h
        obtain ⟨hb, houter⟩ := Builder.gains_of_captureFrom hcapture
        refine ⟨?_, houter, fun _ _ ↦ .inl⟩
        dsimp only
        rw [hb.same]

instance (name : String) : Balanced (loadName name) := by
  unfold loadName
  refine after fun b ↦ ?_
  split <;> infer_instance

instance (name : String) : Balanced (storeName name) := by
  unfold storeName
  refine after fun b ↦ ?_
  split <;> infer_instance

instance (line : Nat) : Balanced (needVarargs line) := by
  unfold needVarargs
  infer_instance

instance (pushed : Nat) (want : Want) : Balanced (adjust pushed want) := by
  cases want <;> (unfold adjust; infer_instance)

instance (args : Nat) (multi : Bool) (want : Want) (pos : Position) :
    Balanced (emitCall args multi want pos) := by
  unfold emitCall
  cases want <;> infer_instance

instance (want : Want) (pos : Position) : Balanced (emitVarargs want pos) := by
  unfold emitVarargs
  cases want <;> infer_instance

instance inScope (body : Emit Unit) [Balanced body] : Balanced (Emit.inScope body) := by
  have hopen : Balanced (build Builder.openScope) := of_build (fun _ ↦ Nat.le_refl _) fun _ ↦ rfl
  have hclose : Balanced (build Builder.closeScope) := of_build (fun _ ↦ Nat.le_refl _) fun _ ↦ rfl
  unfold Emit.inScope
  infer_instance

theorem loops (f : Builder → List (List Nat)) : Balanced (build fun b ↦ { b with loops := f b }) :=
  of_build (fun _ ↦ Nat.le_refl _) fun _ ↦ rfl

instance (body : Emit Unit) [Balanced body] : Balanced (looped body) := by
  have hopen := loops fun b ↦ [] :: b.loops
  have hclose := loops fun b ↦ b.loops.tail
  unfold looped
  infer_instance

instance (line : Nat) : Balanced (leaveLoop line) := by
  unfold leaveLoop
  refine after fun jumps ↦ ?_
  split
  · infer_instance
  · exact after fun exit ↦ loops fun _ ↦ _

/-- The closure of a nested function is made by an instruction of the function around it. -/
theorem nested {name : String} {params : List String} {variadic : Bool} {line : Nat} {body : Emit Unit}
    [hbody : Balanced body] : Balanced (Emit.nested name params variadic line body) where
  run {s t a} h := by
    unfold Emit.nested at h
    obtain ⟨_, s₁, hs₁, h⟩ := bind_eq_ok.mp h
    cases hs₁
    obtain ⟨_, s₂, hs₂, h⟩ := bind_eq_ok.mp h
    have hinner := hbody.run hs₂
    obtain ⟨parent, outer, hparent, houter, henclosing⟩ := List.forall₂_cons_left_iff.mp hinner.enclosing
    obtain ⟨_, s₃, hs₃, h⟩ := bind_eq_ok.mp h
    cases hs₃
    obtain ⟨_, _, hs₄, h⟩ := bind_eq_ok.mp h
    cases hs₄
    obtain ⟨_, _, hs₅, h⟩ := bind_eq_ok.mp h
    cases hs₅
    obtain ⟨_, s₆, hs₆, h⟩ := bind_eq_ok.mp h
    simp only [modify_apply, henclosing] at hs₆
    cases hs₆
    obtain ⟨_, _, hs₇, h⟩ := bind_eq_ok.mp h
    cases hs₇
    obtain ⟨_, _, hs₈, h⟩ := bind_eq_ok.mp h
    cases hs₈
    cases h
    have hcounts := hinner.current
    refine ⟨?_, houter, fun i p hp ↦ ?_⟩
    · rw [hparent.same]
      simp [Builder.emit]
      omega
    · obtain hp | rfl := Heap.of_protos_allocProto hp
      · exact hinner.heap i p hp
      · refine .inr ?_
        simp [Builder.emit, Builder.toPrototype, Builder.start] at hcounts ⊢
        omega

end Balanced

end Emit

mutual

theorem Expr.balanced : ∀ (e : Expr) (want : Want), Emit.Balanced (e.emit want)
  | .nil _, _ => inferInstanceAs (Emit.Balanced (opA _ _))
  | .bool true _, _ => inferInstanceAs (Emit.Balanced (op _))
  | .bool false _, _ => inferInstanceAs (Emit.Balanced (op _))
  | .int _ _, _ => inferInstanceAs (Emit.Balanced (loadConst _))
  | .float _ _, _ => inferInstanceAs (Emit.Balanced (loadConst _))
  | .string _ _, _ => .after fun _ ↦ inferInstance
  | .varargs pos, want => inferInstanceAs (Emit.Balanced (emitVarargs want pos))
  | .name name _, _ => .after fun _ ↦ inferInstanceAs (Emit.Balanced (loadName name))
  | .index object key _, _ => by
    have hobject := object.balanced (.exactly 1)
    have hkey := key.balanced (.exactly 1)
    unfold Expr.emit
    infer_instance
  | .call callee args _, _ => by
    have hcallee := callee.balanced (.exactly 1)
    have hargs := balanced_exprs args .all 0
    unfold Expr.emit
    infer_instance
  | .method object name args _, _ => by
    have hobject := object.balanced (.exactly 1)
    have hargs := balanced_exprs args .all 0
    unfold Expr.emit
    infer_instance
  | .function body, _ => body.balanced none
  | .table fields _, _ => by
    have hfields := balanced_fields fields 1
    unfold Expr.emit
    infer_instance
  | .binary o lhs rhs _, _ => by
    have hlhs := lhs.balanced (.exactly 1)
    have hrhs := rhs.balanced (.exactly 1)
    unfold Expr.emit
    refine .after fun _ ↦ ?_
    split <;> infer_instance
  | .unary o operand _, _ => by
    have hoperand := operand.balanced (.exactly 1)
    unfold Expr.emit
    split <;> infer_instance
  | .paren inner _, _ => inner.balanced (.exactly 1)

theorem balanced_exprs : ∀ (es : List Expr) (want : Want) (pushed : Nat),
    Emit.Balanced (emitExprs want pushed es)
  | [], want, pushed => by
    unfold emitExprs
    infer_instance
  | e :: rest, want, pushed => by
    have he := e.balanced
    have hrest := balanced_exprs rest want (pushed + 1)
    unfold emitExprs
    split
    · cases want <;> infer_instance
    · infer_instance

theorem balanced_fields : ∀ (fields : List Field) (next : Nat), Emit.Balanced (emitFields next fields)
  | [], _ => inferInstanceAs (Emit.Balanced (pure ⟨⟩ : Emit Unit))
  | .item value :: rest, next => by
    have hvalue := value.balanced
    have hrest := balanced_fields rest (next + 1)
    unfold emitFields
    split <;> infer_instance
  | .entry key value :: rest, next => by
    have hkey := key.balanced (.exactly 1)
    have hvalue := value.balanced (.exactly 1)
    have hrest := balanced_fields rest next
    unfold emitFields
    infer_instance

theorem FunctionBody.balanced : ∀ (body : FunctionBody) (name : Option String),
    Emit.Balanced (body.emit name)
  | .mk params variadic body pos, name => by
    have hbody := body.balanced
    have hnested (name : String) :
        Balanced (Emit.nested name params variadic pos.codeLine body.emit) := .nested
    unfold FunctionBody.emit
    dsimp only
    infer_instance

theorem Block.balanced : ∀ b : Block, Emit.Balanced b.emit
  | .mk stmts _ => by
    have hstmts := balanced_stmts stmts
    exact inferInstanceAs (Emit.Balanced (inScope (emitStmts stmts)))

theorem balanced_stmts : ∀ stmts : List Stmt, Emit.Balanced (emitStmts stmts)
  | [] => inferInstanceAs (Emit.Balanced (pure ⟨⟩ : Emit Unit))
  | stmt :: rest => by
    have hstmt := stmt.balanced
    have hrest := balanced_stmts rest
    unfold emitStmts
    infer_instance

theorem Stmt.balanced : ∀ stmt : Stmt, Emit.Balanced stmt.emit
  | .declare names values _ => by
    have hvalues := balanced_exprs values (.exactly names.length) 0
    unfold Stmt.emit
    infer_instance
  | .declareFunction name body _ => by
    have hbody := body.balanced (some name)
    unfold Stmt.emit
    infer_instance
  | .defineFunction name body _ => by
    have hbody := body.balanced (some name.display)
    unfold Stmt.emit
    refine .after fun _ ↦ .after fun _ ↦ ?_
    dsimp only
    split <;> infer_instance
  | .assign targets values _ => by
    have hvalues := balanced_exprs values (.exactly targets.length) 0
    have htargets := balanced_targets targets
    unfold Stmt.emit
    infer_instance
  | .call call => by
    have hcall := call.balanced (.exactly 0)
    unfold Stmt.emit
    infer_instance
  | .block body => by
    have hbody := body.balanced
    unfold Stmt.emit
    infer_instance
  | .whileLoop cond body _ => by
    have hcond := cond.balanced (.exactly 1)
    have hbody := body.balanced
    unfold Stmt.emit
    infer_instance
  | .repeatLoop (.mk stmts _) cond _ => by
    have hstmts := balanced_stmts stmts
    have hcond := cond.balanced (.exactly 1)
    unfold Stmt.emit
    infer_instance
  | .branch branches otherwise _ => by
    have hbranches := balanced_branches branches
    have hotherwise := balanced_otherwise otherwise
    unfold Stmt.emit
    infer_instance
  | .numericFor var start limit step body _ => by
    have hstart := start.balanced (.exactly 1)
    have hlimit := limit.balanced (.exactly 1)
    have hstep := balanced_step step
    have hbody := body.balanced
    have hloop (base again exit : Nat) : Emit.Balanced (looped do
        inScope do
          let cell ← declare var
          opX .getCell base
          opX .newCell cell
          body.emit
        opX .forStep base
        opX .jump again
        land exit) := inferInstance
    unfold Stmt.emit
    refine .after fun _ ↦ @Balanced.inScope _ ?_
    refine .after fun _ ↦ .after fun _ ↦ .after fun _ ↦ .after fun base ↦ .after fun _ ↦
      .after fun _ ↦ .after fun _ ↦ .after fun _ ↦ .after fun _ ↦ .after fun _ ↦ .after fun again ↦
        .after fun _ ↦ .after fun exit ↦ ?_
    exact hloop base again exit
  | .genericFor .. => by
    unfold Stmt.emit
    infer_instance
  | .returnValues values _ => by
    have hvalues := balanced_exprs values .all 0
    unfold Stmt.emit
    infer_instance
  | .breakLoop _ => by
    unfold Stmt.emit
    infer_instance

theorem balanced_step : ∀ step : Option Expr, Emit.Balanced (emitStep step)
  | some step => step.balanced (.exactly 1)
  | none => inferInstanceAs (Emit.Balanced (loadConst _))

theorem balanced_otherwise : ∀ otherwise : Option Block, Emit.Balanced (emitOtherwise otherwise)
  | some block => block.balanced
  | none => inferInstanceAs (Emit.Balanced (pure ⟨⟩ : Emit Unit))

theorem balanced_branches : ∀ (branches : List Branch) (more : Bool),
    Emit.Balanced (emitBranches more branches)
  | [], _ => inferInstanceAs (Emit.Balanced (pure [] : Emit (List Nat)))
  | .mk cond body :: rest, more => by
    have hcond := cond.balanced (.exactly 1)
    have hbody := body.balanced
    have hrest := balanced_branches rest more
    have hafter (next : Nat) (exits : List Nat) : Emit.Balanced (do
        land next
        return exits ++ (← emitBranches more rest)) := inferInstance
    unfold emitBranches
    dsimp only
    infer_instance

theorem balanced_targets : ∀ targets : List Expr, Emit.Balanced (storeTargets targets)
  | [] => inferInstanceAs (Emit.Balanced (pure ⟨⟩ : Emit Unit))
  | target :: rest => by
    have hrest := balanced_targets rest
    have htarget := balanced_target target
    unfold storeTargets
    infer_instance

theorem balanced_target : ∀ target : Expr, Emit.Balanced (storeTarget target)
  | .name name pos => by
    unfold storeTarget
    infer_instance
  | .index object key pos => by
    have hobject := object.balanced (.exactly 1)
    have hkey := key.balanced (.exactly 1)
    unfold storeTarget
    infer_instance
  | .nil _ | .bool .. | .int .. | .float .. | .string .. | .varargs _ | .call .. | .method ..
  | .function _ | .table .. | .binary .. | .unary .. | .paren .. =>
    inferInstanceAs (Emit.Balanced (fault _ _ : Emit Unit))

end

end MiniLua
