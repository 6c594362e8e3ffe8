import MiniLua.Proofs.Instances.Relays
import MiniLua.Proofs.Names.Carried
import MiniLua.Proofs.Stack.Passes

/-! In the code of every text instructions do what they stand for, whichever way the code goes. -/

namespace MiniLua

mutual

theorem Expr.scope_walk : ∀ (e : Expr) (w : Walk), (e.walk w).scope = w.scope
  | .nil _, _ | .bool .., _ | .int .., _ | .float .., _ | .string .., _ | .varargs _, _
  | .name .., _ | .function _, _ => rfl
  | .index object key _, w => (key.scope_walk _).trans (object.scope_walk w)
  | .call callee args _, w => (scope_walkExprs args _).trans (callee.scope_walk w)
  | .method object _ args _, w => (scope_walkExprs args _).trans (object.scope_walk w)
  | .table fields _, w => scope_walkFields fields w
  | .binary _ lhs rhs _, w => (rhs.scope_walk _).trans (lhs.scope_walk w)
  | .unary _ operand _, w => operand.scope_walk w
  | .paren inner _, w => inner.scope_walk w

theorem scope_walkExprs : ∀ (es : List Expr) (w : Walk), (walkExprs w es).scope = w.scope
  | [], _ => rfl
  | e :: rest, w => (scope_walkExprs rest _).trans (e.scope_walk w)

theorem scope_walkFields : ∀ (fields : List Field) (w : Walk), (walkFields w fields).scope = w.scope
  | [], _ => rfl
  | .item value :: rest, w => (scope_walkFields rest _).trans (value.scope_walk w)
  | .entry key value :: rest, w =>
    (scope_walkFields rest _).trans ((value.scope_walk _).trans (key.scope_walk w))

end

theorem Block.scope_walk (b : Block) (w : Walk) : (b.walk w).scope = w.scope := by
  cases b
  rfl

theorem scope_walkOtherwise (otherwise : Option Block) (w : Walk) :
    (walkOtherwise w otherwise).scope = w.scope := by
  cases otherwise with
  | none => rfl
  | some block => exact block.scope_walk w

theorem scope_walkBranches (branches : List Branch) (w : Walk) :
    (walkBranches w branches).scope = w.scope := by
  induction branches generalizing w with
  | nil => rfl
  | cons branch rest ih =>
    obtain ⟨cond, body⟩ := branch
    exact (ih _).trans ((body.scope_walk _).trans (cond.scope_walk w))

namespace Home

variable {U : Home} {all : List Occurrence} {K : Known} {w : Walk} {locals : List Local}
  {k pc pc' : Nat}

theorem functionAt_exit (e : Option Nat) (f : FunctionBody) :
    f.At { U with exit := e } locals pc pc' ↔ f.At U locals pc pc' := by
  cases f
  rw [FunctionBody.At, FunctionBody.At]
  exact Iff.rfl

/-- What instructions stand for has nothing to do with the loop they are in. -/
theorem minds_exit (e : Option Nat) : Minds { U with exit := e } all k pc K ↔ U.Minds all k pc K := by
  have hmeans {pc : Nat} {K : Known} {i : Instruction} {op : Opcode} {o : Occurrence} :
      Means { U with exit := e } K pc i op o ↔ U.Means K pc i op o := by
    obtain ⟨scope, m⟩ := o
    cases m with
    | make f => simp only [Means, functionAt_exit]
    | bind | read | write => exact Iff.rfl
  induction k generalizing pc K with
  | zero => exact Iff.rfl
  | succ k ih => simp only [Minds, ih, hmeans]

variable {outs : List (Nat × Known)} {w' u : Walk} {locals' : List Local} {op : Opcode} {p : Nat}

theorem relays_exit {e : Option Nat} (h : Relays { U with exit := e } all outs w locals pc w' locals' pc') :
    U.Relays all outs w locals pc w' locals' pc' where
  le := h.le
  seen := h.seen
  declared := h.declared
  more := h.more
  ready := h.ready
  minds k hseen hw hawaits hend :=
    (minds_exit e).mp (h.minds k hseen hw
      (fun o ho ↦ ⟨(hawaits o ho).1, fun j hj ↦ (minds_exit e).mpr ((hawaits o ho).2 j hj)⟩)
      ((minds_exit e).mpr hend))

theorem exit_of_mem {e : Nat} (h : (e, K) ∈ outs) : ∀ e' ∈ some e, ∃ K, (e', K) ∈ outs := by
  rintro _ ⟨⟩
  exact ⟨K, h⟩

/-- Code that may be skipped and declares nothing that is in scope behind it. -/
theorem relays_shortcut (h : U.Wide op pc' pc p) (htouches : op.touches = false)
    (hcounts : op.counts = false)
    (hrest : U.Relays all ((pc', w.known locals) :: outs) w locals p w' locals pc')
    (hscope : w'.scope = w.scope) : U.Relays all outs w locals pc w' locals pc' := by
  refine ((relays_out h htouches hcounts List.mem_cons_self).trans hrest).meet ?_
  rw [Walk.known, Walk.known, hscope]
  exact List.Subset.refl _

end Home

mutual

theorem Expr.relays {U : Home} {all : List Occurrence} {outs : List (Nat × Known)} {locals : List Local} :
    ∀ (e : Expr) {want : Want} {w : Walk} {pc pc' : Nat}, e.At U locals want pc pc' →
      U.Relays all outs w locals pc (e.walk w) locals pc'
  | .nil _, _, _, _, _, h => Home.relays_skip h rfl rfl rfl
  | .bool true _, _, _, _, _, h => Home.relays_skip h rfl rfl rfl
  | .bool false _, _, _, _, _, h => Home.relays_skip h rfl rfl rfl
  | .int _ _, _, _, _, _, h => Home.relays_loadAt h
  | .float _ _, _, _, _, _, h => Home.relays_loadAt h
  | .string _ _, _, _, _, _, h => Home.relays_loadTextAt h
  | .varargs _, _, _, _, _, h => Home.relays_skip h.2 rfl rfl rfl
  | .name _ _, _, _, _, _, h => Home.relays_read h
  | .index object key _, _, _, _, _, h => by
    obtain ⟨p, q, hobject, hkey, hindex⟩ := h
    exact ((object.relays hobject).trans (key.relays hkey)).trans
      (Home.relays_skip hindex rfl rfl rfl)
  | .call callee args _, _, _, _, _, h => by
    obtain ⟨p, q, n, multi, hcallee, hargs, hcall⟩ := h
    exact ((callee.relays hcallee).trans (relays_exprs args hargs)).trans
      (Home.relays_skip hcall rfl rfl rfl)
  | .method object _ args _, _, _, _, _, h => by
    obtain ⟨p, q, r, k, n, multi, hobject, -, hself, hargs, hcall⟩ := h
    exact (((object.relays hobject).trans (Home.relays_skip hself rfl rfl rfl)).trans
      (relays_exprs args hargs)).trans (Home.relays_skip hcall rfl rfl rfl)
  | .function body, _, _, _, _, h => Home.relays_make h
  | .table fields _, _, _, _, _, h => by
    obtain ⟨p, hnew, hfields⟩ := h
    exact (Home.relays_skip hnew rfl rfl rfl).trans (relays_fields fields hfields)
  | .binary o lhs rhs _, _, w, _, _, h => by
    rw [Expr.At] at h
    split at h
    · next code hcode =>
      obtain ⟨p, q, hlhs, hrhs, hbinary⟩ := h
      refine ((lhs.relays hlhs).trans (rhs.relays hrhs)).trans (Home.relays_skip hbinary ?_ ?_ ?_)
      all_goals cases o <;> cases hcode <;> rfl
    · obtain ⟨p, q, hlhs, hshortcut, hrhs⟩ := h
      refine (lhs.relays hlhs).trans
        (Home.relays_shortcut hshortcut ?_ ?_ (rhs.relays hrhs) (rhs.scope_walk _))
      all_goals cases o <;> rfl
  | .unary o operand _, _, _, _, _, h => by
    rw [Expr.At] at h
    split at h
    · next v hv =>
      rw [Expr.walk, operand.walk_of_negatedLiteral _ hv]
      exact Home.relays_loadAt h
    · obtain ⟨p, hoperand, hunary⟩ := h
      refine (operand.relays hoperand).trans (Home.relays_skip hunary ?_ ?_ ?_)
      all_goals cases o <;> rfl
  | .paren inner _, _, _, _, _, h => inner.relays h

theorem relays_exprs {U : Home} {all : List Occurrence} {outs : List (Nat × Known)} {locals : List Local} :
    ∀ (es : List Expr) {want : Want} {pushed : Nat} {w : Walk} {pc pc' n : Nat} {multi : Bool},
      exprsAt U locals want pushed es pc pc' n multi →
      U.Relays all outs w locals pc (walkExprs w es) locals pc'
  | [], _, _, _, _, _, _, _, h => Home.relays_adjustAt h.1
  | e :: rest, want, _, _, _, _, _, _, h => by
    rw [exprsAt.eq_def] at h
    dsimp only at h
    split at h
    · next hlast =>
      obtain rfl : rest = [] := by simp at hlast; exact hlast.1
      cases want with
      | all => exact e.relays h.1
      | exactly m =>
        obtain ⟨p, he, hadjust, -⟩ := h
        exact (e.relays he).trans (Home.relays_adjustAt hadjust)
    · obtain ⟨p, he, hrest⟩ := h
      exact (e.relays he).trans (relays_exprs rest hrest)

theorem relays_fields {U : Home} {all : List Occurrence} {outs : List (Nat × Known)} {locals : List Local} :
    ∀ (fields : List Field) {next : Nat} {w : Walk} {pc pc' : Nat},
      fieldsAt U locals next fields pc pc' →
      U.Relays all outs w locals pc (walkFields w fields) locals pc'
  | [], _, _, _, _, h => by
    obtain rfl := h
    exact .refl
  | .item value :: rest, _, _, _, _, h => by
    rw [fieldsAt] at h
    split at h
    · next hlast =>
      obtain rfl : rest = [] := by simp at hlast; exact hlast.1
      obtain ⟨p, hvalue, hset⟩ := h
      exact (value.relays hvalue).trans (Home.relays_skip hset rfl rfl rfl)
    · obtain ⟨p, q, r, hindex, hvalue, hinit, hrest⟩ := h
      exact (((Home.relays_loadAt hindex).trans (value.relays hvalue)).trans
        (Home.relays_skip hinit rfl rfl rfl)).trans (relays_fields rest hrest)
  | .entry key value :: rest, _, _, _, _, h => by
    obtain ⟨p, q, r, hkey, hvalue, hinit, hrest⟩ := h
    exact (((key.relays hkey).trans (value.relays hvalue)).trans
      (Home.relays_skip hinit rfl rfl rfl)).trans (relays_fields rest hrest)

end

theorem relays_step {U : Home} {all : List Occurrence} {outs : List (Nat × Known)} {locals : List Local} {w : Walk}
    {pc pc' : Nat} : ∀ {step : Option Expr}, stepAt U locals step pc pc' →
      U.Relays all outs w locals pc (walkStep w step) locals pc'
  | some step, h => step.relays h
  | none, h => Home.relays_loadAt h

theorem Expr.relays_target {U : Home} {all : List Occurrence} {outs : List (Nat × Known)}
    {locals : List Local} {w : Walk} {pc pc' : Nat} (target : Expr) (h : target.TargetAt U locals pc pc') :
    U.Relays all outs w locals pc (target.walkTarget w) locals pc' := by
  cases target with
  | name n _ => exact Home.relays_write h
  | index object key _ =>
    obtain ⟨p, q, hobject, hkey, hset⟩ := h
    exact ((object.relays hobject).trans (key.relays hkey)).trans
      (Home.relays_skip hset rfl rfl rfl)
  | _ => exact h.elim

theorem relays_targets {U : Home} {all : List Occurrence} {outs : List (Nat × Known)}
    {locals : List Local} {w : Walk} {pc pc' : Nat} (targets : List Expr)
    (h : targetsAt U locals targets pc pc') :
    U.Relays all outs w locals pc (walkTargets w targets) locals pc' := by
  induction targets generalizing w pc pc' with
  | nil =>
    obtain rfl := h
    exact .refl
  | cons target rest ih =>
    obtain ⟨p, hrest, htarget⟩ := h
    exact (ih hrest).trans (target.relays_target htarget)

namespace Home

/-- The rounds of a numeric loop, from the test on. -/
theorem relays_numericLoop {U : Home} {all : List Occurrence} {outs : List (Nat × Known)}
    {var : String} {body : Block} {w : Walk} {L : List Local} {l : Local}
    {c again test q₁ q₂ r₁ r₂ last pc' : Nat}
    (hcode : U.proto.code.size < Instruction.wideLimit) (hc : U.Names L "(for index)" (.cell c))
    (hcounts : (w.known L).Counts c) (hl : l.name = var) (hfresh : U.Fresh L l)
    (htest : U.Wide .forTest c again test) (hleave : U.Wide .jumpIfFalse pc' test q₁)
    (hload : U.Wide .getCell c q₁ q₂) (hcell : U.Wide .newCell l.cell q₂ r₁)
    (hbody : ∀ u outs, (∃ K, (pc', K) ∈ outs) →
      U.Relays all outs u (l :: L) r₁ (body.walk u) (l :: L) r₂)
    (hforStep : U.Wide .forStep c r₂ last)
    (hback : U.Wide .jump (again % Instruction.wideLimit) last pc') :
    U.Relays all outs w L again
      ((body.walk (((w.note (.read "(for index)")).declare var).bindLast 1)).leave w) L pc' := by
  have hcells : U.Declares [var] [l.cell] L (l :: L) := ⟨l, [], hl, hfresh, rfl, rfl, rfl⟩
  have hbegin : U.Relays all ((pc', w.known L) :: (again, w.known L) :: outs) w L again
      (((w.note (.read "(for index)")).declare var).bindLast 1) (l :: L) r₁ :=
    ((relays_count htest rfl rfl hcounts).trans
      (relays_out hleave rfl rfl List.mem_cons_self)).trans
      ((relays_read ⟨_, hc, hload⟩).trans (relays_declareAll hcells ⟨r₁, hcell, rfl⟩))
  have hinside := hbegin.trans (hbody _ _ ⟨_, List.mem_cons_self⟩)
  have hstep := hinside.trans (relays_count hforStep rfl rfl (hcounts.mono hinside.more))
  rw [Nat.mod_eq_of_lt ((hstep.le.trans_lt (lt_of_wide hback)).trans hcode)] at hback
  have hround := hstep.trans (relays_out hback rfl rfl (List.mem_cons_of_mem _ List.mem_cons_self))
  exact (hround.leave.meet (List.Subset.refl _)).loop

end Home

mutual

theorem Block.relays {U : Home} {all : List Occurrence} {outs : List (Nat × Known)}
    {locals : List Local} (hcode : U.proto.code.size < Instruction.wideLimit)
    (hexit : ∀ e ∈ U.exit, ∃ K, (e, K) ∈ outs) :
    ∀ (b : Block) {w : Walk} {pc pc' : Nat}, b.At U locals pc pc' →
      U.Relays all outs w locals pc (b.walk w) locals pc'
  | .mk stmts _, _, _, _, h => by
    obtain ⟨locals', h⟩ := h
    exact (relays_stmts hcode hexit stmts h).leave

theorem relays_stmts {U : Home} {all : List Occurrence} {outs : List (Nat × Known)}
    (hcode : U.proto.code.size < Instruction.wideLimit)
    (hexit : ∀ e ∈ U.exit, ∃ K, (e, K) ∈ outs) :
    ∀ (stmts : List Stmt) {locals locals' : List Local} {w : Walk} {pc pc' : Nat},
      stmtsAt U stmts locals pc locals' pc' →
      U.Relays all outs w locals pc (walkStmts w stmts) locals' pc'
  | [], _, _, _, _, _, h => by
    obtain ⟨rfl, rfl⟩ := h
    exact .refl
  | stmt :: rest, _, _, _, _, _, h => by
    obtain ⟨between, p, hstmt, hrest⟩ := h
    exact (stmt.relays hcode hexit hstmt).trans (relays_stmts hcode hexit rest hrest)

theorem Stmt.relays {U : Home} {all : List Occurrence} {outs : List (Nat × Known)}
    (hcode : U.proto.code.size < Instruction.wideLimit)
    (hexit : ∀ e ∈ U.exit, ∃ K, (e, K) ∈ outs) :
    ∀ (stmt : Stmt) {locals locals' : List Local} {w : Walk} {pc pc' : Nat},
      stmt.At U locals pc locals' pc' →
      U.Relays all outs w locals pc (stmt.walk w) locals' pc'
  | .declare names values _, _, _, _, _, _, h => by
    obtain ⟨p, n, multi, cells, hvalues, hdeclares, hcells⟩ := h
    exact (relays_exprs values hvalues).trans (Home.relays_declareAll hdeclares hcells)
  | .declareFunction name body _, locals, _, w, pc, _, h => by
    obtain ⟨l, p, q, r, rfl, hfresh, rfl, hnil, hcell, hbody, hset⟩ := h
    have hname : U.Names (l :: locals) l.name (.cell l.cell) := by simp [Home.Names, resolve?]
    have hdeclares : U.Declares [l.name] [l.cell] locals (l :: locals) :=
      ⟨l, [], rfl, hfresh, rfl, rfl, rfl⟩
    have hbind : U.Relays all outs w locals pc ((w.declare l.name).bindLast 1) (l :: locals) q :=
      (Home.relays_skip hnil rfl rfl rfl).trans (Home.relays_declareAll hdeclares ⟨q, hcell, rfl⟩)
    exact (hbind.trans (Home.relays_make hbody)).trans (Home.relays_write ⟨_, hname, hset⟩)
  | .defineFunction name body _, _, _, _, _, _, h => by
    obtain ⟨rfl, p, hbody, hdefine⟩ := h
    exact (Home.relays_make hbody).trans (Home.relays_defineAt hdefine)
  | .assign targets values _, _, _, _, _, _, h => by
    obtain ⟨rfl, p, n, multi, hvalues, htargets⟩ := h
    exact (relays_exprs values hvalues).trans (relays_targets targets htargets)
  | .call call, _, _, _, _, _, h => by
    obtain ⟨rfl, -, h⟩ := h
    exact call.relays h
  | .block body, _, _, _, _, _, h => by
    obtain ⟨rfl, h⟩ := h
    exact body.relays hcode hexit h
  | .whileLoop cond body _, _, locals, w, pc, pc', h => by
    obtain ⟨rfl, p, q, r, hcond, hleave, hbody, hback⟩ := h
    refine Home.Relays.loop (Home.Relays.meet ?_ ?_)
    · have hround : U.Relays all ((pc', w.known locals) :: (pc, w.known locals) :: outs) w locals pc
          (body.walk (cond.walk w)) locals r :=
        ((cond.relays hcond).trans (Home.relays_out hleave rfl rfl List.mem_cons_self)).trans
          (Home.relays_exit (Block.relays (U := { U with exit := some pc' }) hcode
            (Home.exit_of_mem List.mem_cons_self) body hbody))
      rw [Nat.mod_eq_of_lt ((hround.le.trans_lt (Home.lt_of_wide hback)).trans hcode)] at hback
      exact hround.trans
        (Home.relays_out hback rfl rfl (List.mem_cons_of_mem _ List.mem_cons_self))
    · rw [Stmt.walk, Walk.known, Walk.known, body.scope_walk, cond.scope_walk]
      exact List.Subset.refl _
  | .repeatLoop (.mk stmts _) cond _, _, locals, w, pc, pc', h => by
    obtain ⟨rfl, inside, p, q, hbody, hcond, hback⟩ := h
    have hinside : U.Relays all ((pc', w.known locals) :: (pc, w.known locals) :: outs) w locals pc
        (cond.walk (walkStmts w stmts)) inside q :=
      (Home.relays_exit (relays_stmts (U := { U with exit := some pc' }) hcode
        (Home.exit_of_mem List.mem_cons_self) stmts hbody)).trans
        (Home.relays_exit (cond.relays hcond))
    rw [Nat.mod_eq_of_lt ((hinside.le.trans_lt (Home.lt_of_wide hback)).trans hcode)] at hback
    have hround := hinside.trans
      (Home.relays_out hback rfl rfl (List.mem_cons_of_mem _ List.mem_cons_self))
    exact (hround.leave.meet (List.Subset.refl _)).loop
  | .branch branches otherwise _, _, locals, w, pc, pc', h => by
    obtain ⟨rfl, p, hbranches, hotherwise⟩ := h
    refine Home.Relays.meet ?_ ?_
    · have hinside : ∀ e ∈ U.exit, ∃ K, (e, K) ∈ (pc', w.known locals) :: outs := fun e he ↦
        let ⟨K, hK⟩ := hexit e he
        ⟨K, List.mem_cons_of_mem _ hK⟩
      exact (relays_branches hcode hinside ⟨_, List.mem_cons_self⟩ branches hbranches).trans
        (relays_otherwise hcode hinside otherwise hotherwise)
    · rw [Stmt.walk, Walk.known, Walk.known, scope_walkOtherwise, scope_walkBranches]
      exact List.Subset.refl _
  | .numericFor var start limit step body _, _, locals, w, pc, pc', h => by
    obtain ⟨rfl, counter, limitCell, stepCell, l, hcounter, hlimitName, hstepName, hname, hlimitCell,
      hstepCell, hfresh₁, hfresh₂, hfresh₃, hfresh₄, p₁, p₂, p₃, p₄, again, test, q₁, q₂, r₁, r₂,
      hstart, hlimit, hstep, hcells, hprep, htest, hleave, hload, hcell, hbody, last, hforStep,
      hback⟩ := h
    have hdeclares : U.Declares ["(for index)", "(for limit)", "(for step)"]
        [counter.cell, limitCell.cell, stepCell.cell] locals
        (stepCell :: limitCell :: counter :: locals) :=
      ⟨counter, _, hcounter, hfresh₁, rfl, limitCell, _, hlimitName, hfresh₂, rfl, stepCell, _,
        hstepName, hfresh₃, rfl, rfl, rfl⟩
    have hindex : U.Names (stepCell :: limitCell :: counter :: locals) "(for index)"
        (.cell counter.cell) := by
      simp [Home.Names, resolve?, hcounter, hlimitName, hstepName]
    have hcounts {u : Walk} : (((u.declareAll ["(for index)", "(for limit)", "(for step)"]).bindLast
        3).known (stepCell :: limitCell :: counter :: locals)).Counts counter.cell := by
      rw [Walk.bindLast, Walk.bindAll_eq]
      exact Known.counts_of_mem (i := u.declared) (j := u.declared + 1) (k := u.declared + 2)
        (by simp [Walk.known, Walk.declareAll, Walk.declare])
        (by simp [Walk.known, Walk.declareAll, Walk.declare, ← hlimitCell])
        (by simp [Walk.known, Walk.declareAll, Walk.declare, ← hstepCell])
    have hfirst : U.Relays all outs w locals pc (start.walk w) locals p₁ := start.relays hstart
    have henter := ((hfirst.trans
      (limit.relays hlimit)).trans (relays_step hstep)).trans
      (Home.relays_declareAll hdeclares hcells)
    have hround := henter.trans ((Home.relays_count hprep rfl rfl hcounts).trans
      (Home.relays_numericLoop hcode hindex hcounts hname hfresh₄ htest hleave hload hcell
        (fun u outs hin ↦ Home.relays_exit (Block.relays (U := { U with exit := some pc' }) hcode
          (fun e he ↦ Option.some.inj he ▸ hin) body hbody)) hforStep hback))
    exact hround.leave
  | .genericFor .., _, _, _, _, _, h => h.elim
  | .returnValues values _, _, _, _, _, _, h => by
    obtain ⟨rfl, p, n, multi, hvalues, hreturn⟩ := h
    exact (relays_exprs values hvalues).trans (Home.relays_return hreturn)
  | .breakLoop _, _, _, _, _, _, h => by
    obtain ⟨rfl, exit, hleave, hjump⟩ := h
    obtain ⟨K, hK⟩ := hexit exit hleave
    exact Home.relays_out hjump rfl rfl hK

theorem relays_otherwise {U : Home} {all : List Occurrence} {outs : List (Nat × Known)}
    {locals : List Local} (hcode : U.proto.code.size < Instruction.wideLimit)
    (hexit : ∀ e ∈ U.exit, ∃ K, (e, K) ∈ outs) :
    ∀ (otherwise : Option Block) {w : Walk} {pc pc' : Nat}, otherwiseAt U locals otherwise pc pc' →
      U.Relays all outs w locals pc (walkOtherwise w otherwise) locals pc'
  | some block, _, _, _, h => block.relays hcode hexit h
  | none, _, _, _, h => by
    obtain rfl := h
    exact .refl

theorem relays_branches {U : Home} {all : List Occurrence} {outs : List (Nat × Known)}
    {locals : List Local} {ends : Nat} (hcode : U.proto.code.size < Instruction.wideLimit)
    (hexit : ∀ e ∈ U.exit, ∃ K, (e, K) ∈ outs) (hends : ∃ K, (ends, K) ∈ outs) :
    ∀ (branches : List Branch) {more : Bool} {w : Walk} {pc pc' : Nat},
      branchesAt U locals ends more branches pc pc' →
      U.Relays all outs w locals pc (walkBranches w branches) locals pc'
  | [], _, _, _, _, h => by
    obtain rfl := h
    exact .refl
  | .mk cond body :: rest, _, w, pc, _, h => by
    obtain ⟨p, q, r, next, hcond, hskip, hbody, hjump, hrest⟩ := h
    have hinside {o : Nat × Known} : ∀ e ∈ U.exit, ∃ K, (e, K) ∈ o :: outs := fun e he ↦
      let ⟨K, hK⟩ := hexit e he
      ⟨K, List.mem_cons_of_mem _ hK⟩
    have hjump {o : Nat × Known} {u : Walk} : U.Relays all (o :: outs) u locals r u locals next := by
      split at hjump
      · subst hjump
        exact .refl
      · obtain ⟨K, hK⟩ := hends
        exact Home.relays_out hjump rfl rfl (List.mem_cons_of_mem _ hK)
    have hbranch : U.Relays all outs (cond.walk w) locals p (body.walk (cond.walk w)) locals next :=
      Home.relays_shortcut hskip rfl rfl ((body.relays hcode hinside hbody).trans hjump)
        (body.scope_walk _)
    exact ((cond.relays hcond).trans hbranch).trans (relays_branches hcode hexit hends rest hrest)

end

/-- A function begins with its parameters in the first slots. -/
theorem Walk.ready_start (p : Prototype) (params : List String) :
    (Walk.start params).Ready p (paramLocals params) 0 := by
  have hstart := Walk.declareAll_eq ⟨[], [], 0⟩ params
  have hfollows := Walk.follows_start (S := ⟨.empty, [], { p with cellCount := params.length },
    List.range params.length⟩) params rfl (Nat.le_refl _)
  refine ⟨?_, hfollows.lies.imp fun _ _ h ↦ h.1, fun v hv ↦ ?_, ?_, hfollows.distinct⟩
  · rw [Walk.start, hstart]
    rfl
  · rw [Walk.start, hstart] at hv ⊢
    simp only [List.append_nil, List.mem_reverse, List.mem_map] at hv
    obtain ⟨⟨name, i⟩, hi, rfl⟩ := hv
    exact (List.mem_zipIdx hi).2.1
  · refine List.Nodup.of_map Variable.serial ?_
    have hserials : (Walk.start params).scope.map Variable.serial =
        (List.range' 0 params.length).reverse := by
      rw [Walk.start, hstart, List.append_nil, List.map_reverse, List.map_map]
      exact congrArg List.reverse (List.zipIdx_map_snd 0 params)
    rw [hserials, List.nodup_reverse]
    exact List.nodup_range'

/-- In the code of a function instructions do what its text says they stand for. -/
theorem Home.minds_of_runs {U : Home} {params : List String} {variadic : Bool} {body : Block}
    (hruns : U.Runs params variadic body) (hcode : U.proto.code.size < Instruction.wideLimit)
    (hexit : U.exit = none) (k : Nat) :
    U.Minds (occurrences params body) k 0 ((Walk.start params).known (paramLocals params)) := by
  obtain ⟨e, hbody, hreturn⟩ := hruns.code
  have hrelays : U.Relays (occurrences params body) [] (.start params) (paramLocals params) 0
      (body.walk (.start params)) (paramLocals params) e :=
    body.relays hcode (fun e he ↦ by rw [hexit] at he; cases he) hbody
  exact hrelays.minds k (List.prefix_refl _) (Walk.ready_start _ params) (fun _ ho ↦ nomatch ho)
    (Home.minds_return hreturn)

end MiniLua
