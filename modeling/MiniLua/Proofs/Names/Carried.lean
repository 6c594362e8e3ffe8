import MiniLua.Proofs.Names.Carries

/-! Compiled prototypes have the variables of their texts. -/

namespace MiniLua

theorem Expr.walk_of_negatedLiteral {o : UnaryOp} {e : Expr} {v : Value} (w : Walk)
    (h : negatedLiteral? o e = some v) : e.walk w = w := by
  unfold negatedLiteral? at h
  split at h
  · rfl
  · rfl
  · cases h

mutual

theorem Expr.carries {U : Home} {outer : List Around} {locals : List Local}
    (hout : List.Forall₂ Around.Is U.outer outer) :
    ∀ (e : Expr) {want : Want} {w : Walk} {pc pc' : Nat}, e.At U locals want pc pc' →
      U.Carries outer w locals pc (e.walk w) locals pc'
  | .nil _, _, _, _, _, h => Home.carries_skip h rfl
  | .bool true _, _, _, _, _, h => Home.carries_skip h rfl
  | .bool false _, _, _, _, _, h => Home.carries_skip h rfl
  | .int _ _, _, _, _, _, h => Home.carries_loadAt h
  | .float _ _, _, _, _, _, h => Home.carries_loadAt h
  | .string _ _, _, _, _, _, h => Home.carries_loadTextAt h
  | .varargs _, _, _, _, _, h => Home.carries_skip h.2 rfl
  | .name _ _, _, _, _, _, h => Home.carries_read hout h
  | .index object key _, _, _, _, _, h => by
    obtain ⟨p, q, hobject, hkey, hindex⟩ := h
    exact ((object.carries hout hobject).trans (key.carries hout hkey)).trans
      (Home.carries_skip hindex rfl)
  | .call callee args _, _, _, _, _, h => by
    obtain ⟨p, q, n, multi, hcallee, hargs, hcall⟩ := h
    exact ((callee.carries hout hcallee).trans (carries_exprs hout args hargs)).trans
      (Home.carries_skip hcall rfl)
  | .method object _ args _, _, _, _, _, h => by
    obtain ⟨p, q, r, k, n, multi, hobject, -, hself, hargs, hcall⟩ := h
    exact (((object.carries hout hobject).trans (Home.carries_skip hself rfl)).trans
      (carries_exprs hout args hargs)).trans (Home.carries_skip hcall rfl)
  | .function body, _, _, _, _, h => body.carries hout h
  | .table fields _, _, _, _, _, h => by
    obtain ⟨p, hnew, hfields⟩ := h
    exact (Home.carries_skip hnew rfl).trans (carries_fields hout fields hfields)
  | .binary o lhs rhs _, _, _, _, _, h => by
    rw [Expr.At] at h
    split at h
    · next code hcode =>
      obtain ⟨p, q, hlhs, hrhs, hbinary⟩ := h
      refine ((lhs.carries hout hlhs).trans (rhs.carries hout hrhs)).trans
        (Home.carries_skip hbinary ?_)
      cases o <;> cases hcode <;> rfl
    · obtain ⟨p, q, hlhs, hshortcut, hrhs⟩ := h
      refine ((lhs.carries hout hlhs).trans (Home.carries_skip hshortcut ?_)).trans
        (rhs.carries hout hrhs)
      cases o <;> rfl
  | .unary o operand _, _, _, _, _, h => by
    rw [Expr.At] at h
    split at h
    · next v hv =>
      rw [Expr.walk, operand.walk_of_negatedLiteral _ hv]
      exact Home.carries_loadAt h
    · obtain ⟨p, hoperand, hunary⟩ := h
      refine (operand.carries hout hoperand).trans (Home.carries_skip hunary ?_)
      cases o <;> rfl
  | .paren inner _, _, _, _, _, h => inner.carries hout h

theorem carries_exprs {U : Home} {outer : List Around} {locals : List Local}
    (hout : List.Forall₂ Around.Is U.outer outer) :
    ∀ (es : List Expr) {want : Want} {pushed : Nat} {w : Walk} {pc pc' n : Nat} {multi : Bool},
      exprsAt U locals want pushed es pc pc' n multi →
      U.Carries outer w locals pc (walkExprs w es) locals pc'
  | [], _, _, _, _, _, _, _, h => Home.carries_adjustAt h.1
  | e :: rest, want, _, _, _, _, _, _, h => by
    rw [exprsAt.eq_def] at h
    dsimp only at h
    split at h
    · next hlast =>
      obtain rfl : rest = [] := by simp at hlast; exact hlast.1
      cases want with
      | all => exact e.carries hout h.1
      | exactly m =>
        obtain ⟨p, he, hadjust, -⟩ := h
        exact (e.carries hout he).trans (Home.carries_adjustAt hadjust)
    · obtain ⟨p, he, hrest⟩ := h
      exact (e.carries hout he).trans (carries_exprs hout rest hrest)

theorem carries_fields {U : Home} {outer : List Around} {locals : List Local}
    (hout : List.Forall₂ Around.Is U.outer outer) :
    ∀ (fields : List Field) {next : Nat} {w : Walk} {pc pc' : Nat},
      fieldsAt U locals next fields pc pc' →
      U.Carries outer w locals pc (walkFields w fields) locals pc'
  | [], _, _, _, _, h => by
    obtain rfl := h
    exact .refl
  | .item value :: rest, _, _, _, _, h => by
    rw [fieldsAt] at h
    split at h
    · next hlast =>
      obtain rfl : rest = [] := by simp at hlast; exact hlast.1
      obtain ⟨p, hvalue, hset⟩ := h
      exact (value.carries hout hvalue).trans (Home.carries_skip hset rfl)
    · obtain ⟨p, q, r, hindex, hvalue, hinit, hrest⟩ := h
      exact (((Home.carries_loadAt hindex).trans (value.carries hout hvalue)).trans
        (Home.carries_skip hinit rfl)).trans (carries_fields hout rest hrest)
  | .entry key value :: rest, _, _, _, _, h => by
    obtain ⟨p, q, r, hkey, hvalue, hinit, hrest⟩ := h
    exact (((key.carries hout hkey).trans (value.carries hout hvalue)).trans
      (Home.carries_skip hinit rfl)).trans (carries_fields hout rest hrest)

/-- The function that is made has the variables of its own text, with the function that makes it
around it. -/
theorem FunctionBody.carries {U : Home} {outer : List Around} {locals : List Local}
    (hout : List.Forall₂ Around.Is U.outer outer) :
    ∀ (body : FunctionBody) {w : Walk} {pc pc' : Nat}, body.At U locals pc pc' →
      U.Carries outer w locals pc (w.note (.make body)) locals pc'
  | .mk params variadic body pos, _, _, _, h => by
    obtain ⟨x, k, proto, hclosure, hk, hproto, harity, -, hroom, -, -, e, hbody, hreturn⟩ := h
    refine Home.carries_note hclosure rfl fun slots i hlies hdistinct hop hx ↦ ?_
    have hinner : List.Forall₂ Around.Is (U.inner locals proto).outer
        (⟨_, slots, U.proto.captures⟩ :: outer) := .cons ⟨rfl, hlies, hdistinct⟩ hout
    have hresolved := Home.resolved_of_carries (U := U.inner locals proto) hinner harity hroom
      (Block.carries hinner body hbody) hreturn
    exact .make hop hx hk hproto hresolved .nil

theorem Block.carries {U : Home} {outer : List Around} {locals : List Local}
    (hout : List.Forall₂ Around.Is U.outer outer) :
    ∀ (b : Block) {w : Walk} {pc pc' : Nat}, b.At U locals pc pc' →
      U.Carries outer w locals pc (b.walk w) locals pc'
  | .mk stmts _, _, _, _, h => by
    obtain ⟨locals', h⟩ := h
    exact (carries_stmts hout stmts h).leave

theorem carries_stmts {U : Home} {outer : List Around}
    (hout : List.Forall₂ Around.Is U.outer outer) :
    ∀ (stmts : List Stmt) {locals locals' : List Local} {w : Walk} {pc pc' : Nat},
      stmtsAt U stmts locals pc locals' pc' →
      U.Carries outer w locals pc (walkStmts w stmts) locals' pc'
  | [], _, _, _, _, _, h => by
    obtain ⟨rfl, rfl⟩ := h
    exact .refl
  | stmt :: rest, _, _, _, _, _, h => by
    obtain ⟨between, p, hstmt, hrest⟩ := h
    exact (stmt.carries hout hstmt).trans (carries_stmts hout rest hrest)

theorem Stmt.carries {U : Home} {outer : List Around}
    (hout : List.Forall₂ Around.Is U.outer outer) :
    ∀ (stmt : Stmt) {locals locals' : List Local} {w : Walk} {pc pc' : Nat},
      stmt.At U locals pc locals' pc' →
      U.Carries outer w locals pc (stmt.walk w) locals' pc'
  | .declare names values _, _, _, _, _, _, h => by
    obtain ⟨p, n, multi, cells, hvalues, hdeclares, hcells⟩ := h
    obtain ⟨new, rfl, hnew, hlength⟩ := hdeclares.exists_append
    refine ((carries_exprs hout values hvalues).trans (Home.carries_declareAll hdeclares)).trans
      (Home.carries_bindLast ?_)
    rwa [← hlength, List.take_left', hnew]
    rfl
  | .declareFunction name body _, locals, _, w, pc, _, h => by
    obtain ⟨l, p, q, r, rfl, hfresh, rfl, hnil, hcell, hbody, hset⟩ := h
    have hname : U.Names (l :: locals) l.name (.cell l.cell) := by simp [Home.Names, resolve?]
    have hbind : U.Carries outer w locals pc ((w.declare l.name).bindLast 1) (l :: locals) q :=
      ((Home.carries_declare hfresh).trans (Home.carries_skip hnil rfl)).trans
        (Home.carries_bindLast (n := 1) ⟨q, hcell, rfl⟩)
    exact (hbind.trans (body.carries hout hbody)).trans (Home.carries_write hout ⟨_, hname, hset⟩)
  | .defineFunction name body _, _, _, _, _, _, h => by
    obtain ⟨rfl, p, hbody, hdefine⟩ := h
    exact (body.carries hout hbody).trans (Home.carries_defineAt hout hdefine)
  | .assign targets values _, _, _, _, _, _, h => by
    obtain ⟨rfl, p, n, multi, hvalues, htargets⟩ := h
    exact (carries_exprs hout values hvalues).trans (carries_targets hout targets htargets)
  | .call call, _, _, _, _, _, h => by
    obtain ⟨rfl, -, h⟩ := h
    exact call.carries hout h
  | .block body, _, _, _, _, _, h => by
    obtain ⟨rfl, h⟩ := h
    exact body.carries hout h
  | .whileLoop cond body _, _, locals, w, _, pc', h => by
    obtain ⟨rfl, p, q, r, hcond, hleave, hbody, hback⟩ := h
    have hbody : U.Carries outer (cond.walk w) locals q (body.walk (cond.walk w)) locals r :=
      Block.carries (U := { U with exit := some pc' }) hout body hbody
    exact (((cond.carries hout hcond).trans (Home.carries_skip hleave rfl)).trans hbody).trans
      (Home.carries_skip hback rfl)
  | .repeatLoop (.mk stmts _) cond _, _, locals, w, pc, pc', h => by
    obtain ⟨rfl, inside, p, q, hbody, hcond, hback⟩ := h
    have hbody : U.Carries outer w locals pc (walkStmts w stmts) inside p :=
      carries_stmts (U := { U with exit := some pc' }) hout stmts hbody
    have hcond : U.Carries outer (walkStmts w stmts) inside p (cond.walk (walkStmts w stmts))
        inside q := Expr.carries (U := { U with exit := some pc' }) hout cond hcond
    exact ((hbody.trans hcond).trans (Home.carries_skip hback rfl)).leave
  | .branch branches otherwise _, _, _, _, _, _, h => by
    obtain ⟨rfl, p, hbranches, hotherwise⟩ := h
    exact (carries_branches hout branches hbranches).trans
      (carries_otherwise hout otherwise hotherwise)
  | .numericFor var start limit step body _, _, locals, w, _, pc', h => by
    obtain ⟨rfl, counter, limitCell, stepCell, l, hcounter, hlimitName, hstepName, rfl, -, -,
      hfresh₁, hfresh₂, hfresh₃, hfresh₄, p₁, p₂, p₃, p₄, again, test, q₁, q₂, r₁, r₂, hstart,
      hlimit, hstep, hcells, hprep, htest, hleave, hload, hcell, hbody, last, hforStep, hback⟩ := h
    have hcounting {w : Walk} {p : Nat} : U.Carries outer w locals p
        (w.declareAll ["(for index)", "(for limit)", "(for step)"])
        (stepCell :: limitCell :: counter :: locals) p := by
      rw [← hcounter, ← hlimitName, ← hstepName]
      exact ((Home.carries_declare hfresh₁).trans (Home.carries_declare hfresh₂)).trans
        (Home.carries_declare hfresh₃)
    have hname : U.Names (stepCell :: limitCell :: counter :: locals) "(for index)"
        (.cell counter.cell) := by
      simp [Home.Names, resolve?, hcounter, hlimitName, hstepName]
    have hbody {w : Walk} : U.Carries outer w (l :: stepCell :: limitCell :: counter :: locals) r₁
        (body.walk w) (l :: stepCell :: limitCell :: counter :: locals) r₂ :=
      Block.carries (U := { U with exit := some pc' }) hout body hbody
    have hvalues := ((start.carries hout hstart (w := w)).trans (limit.carries hout hlimit)).trans
      (carries_step hout step hstep)
    have henter := ((hvalues.trans hcounting).trans (Home.carries_bindLast (n := 3) hcells)).trans
      (((Home.carries_skip hprep rfl).trans (Home.carries_skip htest rfl)).trans
        (Home.carries_skip hleave rfl))
    have hbegin := (henter.trans (Home.carries_read hout ⟨_, hname, hload⟩)).trans
      ((Home.carries_declare hfresh₄).trans (Home.carries_bindLast (n := 1) ⟨r₁, hcell, rfl⟩))
    exact ((hbegin.trans hbody).trans ((Home.carries_skip hforStep rfl).trans
      (Home.carries_skip hback rfl))).leave
  | .genericFor .., _, _, _, _, _, h => h.elim
  | .returnValues values _, _, _, _, _, _, h => by
    obtain ⟨rfl, p, n, multi, hvalues, hreturn⟩ := h
    exact (carries_exprs hout values hvalues).trans (Home.carries_skip hreturn rfl)
  | .breakLoop _, _, _, _, _, _, h => by
    obtain ⟨rfl, exit, -, hjump⟩ := h
    exact Home.carries_skip hjump rfl

theorem carries_step {U : Home} {outer : List Around} {locals : List Local}
    (hout : List.Forall₂ Around.Is U.outer outer) :
    ∀ (step : Option Expr) {w : Walk} {pc pc' : Nat}, stepAt U locals step pc pc' →
      U.Carries outer w locals pc (walkStep w step) locals pc'
  | some step, _, _, _, h => step.carries hout h
  | none, _, _, _, h => Home.carries_loadAt h

theorem carries_targets {U : Home} {outer : List Around} {locals : List Local}
    (hout : List.Forall₂ Around.Is U.outer outer) :
    ∀ (targets : List Expr) {w : Walk} {pc pc' : Nat}, targetsAt U locals targets pc pc' →
      U.Carries outer w locals pc (walkTargets w targets) locals pc'
  | [], _, _, _, h => by
    obtain rfl := h
    exact .refl
  | target :: rest, _, _, _, h => by
    obtain ⟨p, hrest, htarget⟩ := h
    exact (carries_targets hout rest hrest).trans (target.carries_target hout htarget)

theorem Expr.carries_target {U : Home} {outer : List Around} {locals : List Local}
    (hout : List.Forall₂ Around.Is U.outer outer) :
    ∀ (target : Expr) {w : Walk} {pc pc' : Nat}, target.TargetAt U locals pc pc' →
      U.Carries outer w locals pc (target.walkTarget w) locals pc'
  | .name _ _, _, _, _, h => Home.carries_write hout h
  | .index object key _, _, _, _, h => by
    obtain ⟨p, q, hobject, hkey, hset⟩ := h
    exact ((object.carries hout hobject).trans (key.carries hout hkey)).trans
      (Home.carries_skip hset rfl)

theorem carries_otherwise {U : Home} {outer : List Around} {locals : List Local}
    (hout : List.Forall₂ Around.Is U.outer outer) :
    ∀ (otherwise : Option Block) {w : Walk} {pc pc' : Nat},
      otherwiseAt U locals otherwise pc pc' →
      U.Carries outer w locals pc (walkOtherwise w otherwise) locals pc'
  | some block, _, _, _, h => block.carries hout h
  | none, _, _, _, h => by
    obtain rfl := h
    exact .refl

theorem carries_branches {U : Home} {outer : List Around} {locals : List Local} {ends : Nat}
    (hout : List.Forall₂ Around.Is U.outer outer) :
    ∀ (branches : List Branch) {more : Bool} {w : Walk} {pc pc' : Nat},
      branchesAt U locals ends more branches pc pc' →
      U.Carries outer w locals pc (walkBranches w branches) locals pc'
  | [], _, _, _, _, h => by
    obtain rfl := h
    exact .refl
  | .mk cond body :: rest, _, w, pc, _, h => by
    obtain ⟨p, q, r, next, hcond, hskip, hbody, hjump, hrest⟩ := h
    have hbranch : U.Carries outer w locals pc (body.walk (cond.walk w)) locals r :=
      ((cond.carries hout hcond).trans (Home.carries_skip hskip rfl)).trans
        (body.carries hout hbody)
    have hrest := carries_branches hout rest hrest (w := body.walk (cond.walk w))
    split at hjump
    · subst hjump
      exact hbranch.trans hrest
    · exact (hbranch.trans (Home.carries_skip hjump rfl)).trans hrest

end

/-- Lexical scoping is resolved: in the code of every text that compiles, and in that of all
functions in it, names reach what the text means by them. -/
theorem names_resolved {source : Bytes} {chunkName : String} {heap heap' : Heap} {main : Nat}
    (hheap : heap.strings.Sound) (h : compile source chunkName heap = .ok main heap') :
    ∃ chunk proto, parse source = .ok chunk ∧ heap'.protos[main]? = some proto ∧
      proto.captures = #[] ∧ Resolved heap' [] proto [] chunk := by
  obtain ⟨chunk, proto, hparse, hmain, hat⟩ := laid_of_compile hheap h
  obtain ⟨hcaptures, hruns⟩ := hat heap' (.refl heap')
  obtain ⟨e, hbody, hreturn⟩ := hruns.code
  have hresolved := Home.resolved_of_carries (U := ⟨proto, heap', [], none⟩) .nil hruns.arity
    hruns.cells (Block.carries .nil chunk hbody) hreturn
  exact ⟨chunk, proto, hparse, hmain, hcaptures, hresolved⟩

/-- `local x x=function()x=x end` -/
def captureSource : Bytes := Bytes.ofText "local x x=function()x=x end"

/-- The handle of the main prototype in a heap of its own. -/
def compiledTo? (source : Bytes) : Option Nat :=
  match compile source "=a" .empty with
  | .ok main _ => some main
  | .error .. => none

theorem names_resolved_capture : ∃ main heap, StringPool.empty.Sound ∧
    compile captureSource "=a" .empty = .ok main heap ∧ ∃ chunk proto,
      parse captureSource = .ok chunk ∧ heap.protos[main]? = some proto ∧ proto.captures = #[] ∧
      Resolved heap [] proto [] chunk := by
  have hrun : compiledTo? captureSource = some 1 := by decide +kernel
  obtain ⟨main, heap, hcompile⟩ :
      ∃ main heap, compile captureSource "=a" .empty = .ok main heap := by
    rw [compiledTo?] at hrun
    cases hcompile : compile captureSource "=a" .empty with
    | error e heap =>
      rw [hcompile] at hrun
      cases hrun
    | ok main heap => exact ⟨main, heap, rfl⟩
  exact ⟨main, heap, StringPool.sound_empty, hcompile,
    names_resolved StringPool.sound_empty hcompile⟩

end MiniLua
