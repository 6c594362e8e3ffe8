import MiniLua.Proofs.Code.Plan
import MiniLua.Proofs.Names.Carried

/-! Code has the operands it is meant to have. -/

namespace MiniLua

namespace Home

variable {U : Home} {op : Opcode} {operands : Instruction → Prop} {a b : Plan} {aim : Aim}
  {p pc pc' x : Nat}

variable (U) in
/-- The code from one place to another is the code of the plan. -/
structure Fills (a : Plan) (pc pc' : Nat) : Prop where
  size : pc' = pc + a.size
  serves : ∀ o ∈ a.aims U.exit pc, Serves U.heap U.proto o.1 o.2

theorem Fills.append (h : U.Fills a pc p) (h' : U.Fills b p pc') : U.Fills (a ++ b) pc pc' := by
  obtain ⟨rfl, ha⟩ := h
  obtain ⟨rfl, hb⟩ := h'
  refine ⟨Nat.add_assoc .., fun o ho ↦ ?_⟩
  obtain ho | ho := List.mem_append.mp ho
  · exact ha o ho
  · exact hb o ho

theorem fills_nil : U.Fills (.other 0) pc pc := ⟨rfl, fun _ h ↦ nomatch h⟩

theorem fills_other (h : U.Has op operands pc pc') : U.Fills (.other 1) pc pc' :=
  ⟨h.1, fun _ h ↦ nomatch h⟩

theorem Fills.others {n m : Nat} (h : U.Fills (.other n) pc p) (h' : U.Fills (.other m) p pc') :
    U.Fills (.other (n + m)) pc pc' := by
  obtain ⟨rfl, -⟩ := h
  obtain ⟨rfl, -⟩ := h'
  exact ⟨Nat.add_assoc .., fun _ h ↦ nomatch h⟩

theorem fills_one (h : U.Has op operands pc pc')
    (hserves : ∀ i, U.proto.code[pc]? = some i → i.opcode? = some op → operands i →
      Serves U.heap U.proto pc aim) : U.Fills (.one aim) pc pc' := by
  obtain ⟨rfl, i, hi, hop, hoperands⟩ := h
  refine ⟨rfl, fun o ho ↦ ?_⟩
  obtain rfl := List.mem_singleton.mp ho
  exact hserves i hi hop hoperands

theorem serves_of_wide (h : U.Wide op x pc pc') : Serves U.heap U.proto pc (.jump op x) := by
  obtain ⟨-, i, hi, hop, hx⟩ := h
  exact .jump hi hop hx

theorem lt_wideLimit (h : U.Wide op x pc pc') : x < Instruction.wideLimit := by
  obtain ⟨-, i, -, -, rfl⟩ := h
  exact i.x_lt

/-- A jump over code whose end it reaches. -/
theorem Fills.skip (h : U.Wide op pc' pc p) (hover : U.Fills a p pc') :
    U.Fills (.skip op a) pc pc' := by
  have hjump := serves_of_wide h
  obtain ⟨rfl, -⟩ := h
  obtain ⟨rfl, ha⟩ := hover
  refine ⟨Nat.add_assoc .., fun o ho ↦ ?_⟩
  obtain rfl | ho := List.mem_cons.mp ho
  · exact hjump
  · exact ha o ho

theorem fills_leap {n : Nat} (h : U.Wide .jump x pc pc') (hx : x = pc' + n) :
    U.Fills (.leap n) pc pc' := by
  have hjump := serves_of_wide h
  obtain ⟨rfl, -⟩ := h
  subst hx
  refine ⟨rfl, fun o ho ↦ ?_⟩
  obtain rfl := List.mem_singleton.mp ho
  exact hjump

theorem fills_back {n : Nat} (h : U.Wide .jump x pc pc') (hx : pc = x + n) :
    U.Fills (.back n) pc pc' := by
  refine ⟨h.1, fun o ho ↦ ?_⟩
  obtain rfl := List.mem_singleton.mp ho
  obtain rfl : x = pc - n := by omega
  exact serves_of_wide h

/-- The places from which a loop is left by `break` are inside. -/
theorem Fills.loop (h : Fills { U with exit := some pc' } a pc pc') : U.Fills (.loop a) pc pc' := by
  obtain ⟨rfl, ha⟩ := h
  exact ⟨rfl, ha⟩

/-- Back to the beginning of the code in front. -/
theorem Fills.again (h : U.Fills a pc p)
    (hback : U.Wide .jumpIfFalse (pc % Instruction.wideLimit) p pc') :
    U.Fills (.again a) pc pc' := by
  refine h.append ⟨hback.1, fun o ho ↦ ?_⟩
  obtain ⟨rfl, -⟩ := h
  obtain ⟨-, i, hi, hop, hx⟩ := hback
  obtain rfl := List.mem_singleton.mp ho
  refine .again hi hop ?_
  rw [hx, Nat.add_sub_cancel]

/-- The jump that ends a loop goes to a place before another that a jump goes to. -/
theorem Fills.whilst {q r : Nat} (hcond : U.Fills a pc p) (hleave : U.Wide .jumpIfFalse pc' p q)
    (hbody : Fills { U with exit := some pc' } b q r)
    (hback : U.Wide .jump (pc % Instruction.wideLimit) r pc') : U.Fills (.whilst a b) pc pc' := by
  have hends := lt_wideLimit hleave
  have hp := hcond.size
  have hq := hleave.1
  have hr := hbody.size
  have hpc' := hback.1
  rw [Nat.mod_eq_of_lt (by omega)] at hback
  refine hcond.append (Fills.skip hleave (Fills.loop (hbody.append (fills_back hback ?_))))
  omega

theorem fills_loadAt {v : Value} (h : U.LoadAt v pc pc') : U.Fills (.one (.constant v)) pc pc' := by
  obtain ⟨k, hk, h⟩ := h
  apply fills_one h
  intro i hi hop hx
  exact .constant hi hop (hx ▸ hk)

theorem fills_text {s : Bytes} {k : Nat} (hk : U.Text s k) (h : U.Wide op k pc pc') :
    U.Fills (.one (.text op s)) pc pc' := by
  obtain ⟨n, hn, hs⟩ := hk
  apply fills_one h
  intro i hi hop hx
  exact .text hi hop (hx ▸ hn) hs

theorem fills_loadTextAt {s : Bytes} (h : U.LoadTextAt s pc pc') :
    U.Fills (.one (.text .loadConst s)) pc pc' := by
  obtain ⟨k, hk, h⟩ := h
  exact fills_text hk h

theorem fills_nameAt (route : Route) {locals : List Local} {name : String}
    (h : U.NameAt locals name route.cell route.upvalue route.global pc pc') :
    U.Fills (.one (.name route name)) pc pc' := by
  obtain ⟨b, -, h⟩ := h
  cases b with
  | cell n => exact fills_one h fun i hi hop _ ↦ .local hi (.inl hop)
  | upvalue n => exact fills_one h fun i hi hop _ ↦ .local hi (.inr hop)
  | global =>
    obtain ⟨k, ⟨n, hn, hs⟩, h⟩ := h
    exact fills_one h fun i hi hop hx ↦ .global hi hop (hx ▸ hn) hs

theorem fills_repeatedAt {bound n : Nat} (hn : n ≤ bound) (h : U.RepeatedAt op bound n pc pc') :
    U.Fills (.other (repeatedSize n)) pc pc' := by
  induction bound generalizing n pc with
  | zero =>
    obtain rfl : n = 0 := by omega
    obtain rfl : pc' = pc := h
    exact fills_nil
  | succ bound ih =>
    rw [RepeatedAt] at h
    split at h
    · subst n pc'
      exact fills_nil
    · obtain ⟨p, hfirst, hmore⟩ := h
      have hsize : repeatedSize n = 1 + repeatedSize (n - 255) := by
        unfold repeatedSize
        omega
      rw [hsize]
      exact (fills_other hfirst).others (ih (by omega) hmore)

theorem fills_adjustAt {pushed n : Nat} {want : Want} (h : U.AdjustAt pushed want pc pc' n) :
    U.Fills (.other (adjustSize pushed want)) pc pc' := by
  cases want with
  | all =>
    obtain ⟨-, rfl⟩ := h
    exact fills_nil
  | exactly m =>
    obtain ⟨-, h⟩ := h
    rw [adjustSize]
    split at h
    · rw [show pushed - m = 0 by omega]
      exact fills_repeatedAt (Nat.le_refl _) h
    · rw [show m - pushed = 0 by omega, Nat.add_comm]
      exact fills_repeatedAt (Nat.le_refl _) h

theorem fills_newCellsAt {cells : List Nat} (h : U.NewCellsAt cells pc pc') :
    U.Fills (.other cells.length) pc pc' := by
  induction cells generalizing pc with
  | nil =>
    obtain rfl : pc' = pc := h
    exact fills_nil
  | cons cell cells ih =>
    obtain ⟨p, hcell, hmore⟩ := h
    rw [List.length_cons, Nat.add_comm]
    exact (fills_other hcell).others (ih hmore)

theorem fills_pathAt {keys : List String} (h : U.PathAt keys pc pc') :
    U.Fills (planPath keys) pc pc' := by
  induction keys generalizing pc with
  | nil =>
    obtain rfl : pc' = pc := h
    exact fills_nil
  | cons key keys ih =>
    obtain ⟨p, q, hkey, hindex, hmore⟩ := h
    exact ((fills_loadTextAt hkey).append (fills_other hindex)).append (ih hmore)

theorem fills_defineAt {locals : List Local} {name : FunctionName}
    (h : U.DefineAt locals name pc pc') : U.Fills name.plan pc pc' := by
  unfold DefineAt at h
  unfold FunctionName.plan
  cases hkeys : (name.fields ++ name.method.toList).getLast? with
  | none =>
    rw [hkeys] at h
    exact fills_nameAt .store h
  | some last =>
    rw [hkeys] at h
    obtain ⟨p, q, r, hfirst, hpath, hlast, hset⟩ := h
    exact (((fills_nameAt .load hfirst).append (fills_pathAt hpath)).append
      (fills_loadTextAt hlast)).append (fills_other hset)

end Home

mutual

theorem Expr.fills {U : Home} {locals : List Local} : ∀ (e : Expr) {want : Want} {pc pc' : Nat},
    e.At U locals want pc pc' → U.Fills e.plan pc pc'
  | .nil _, _, _, _, h => Home.fills_other h
  | .bool true _, _, _, _, h => Home.fills_other h
  | .bool false _, _, _, _, h => Home.fills_other h
  | .int _ _, _, _, _, h => Home.fills_loadAt h
  | .float _ _, _, _, _, h => Home.fills_loadAt h
  | .string _ _, _, _, _, h => Home.fills_loadTextAt h
  | .varargs _, _, _, _, h => Home.fills_other h.2
  | .name _ _, _, _, _, h => Home.fills_nameAt .load h
  | .index object key _, _, _, _, h => by
    obtain ⟨p, q, hobject, hkey, hindex⟩ := h
    exact ((object.fills hobject).append (key.fills hkey)).append (Home.fills_other hindex)
  | .call callee args _, _, _, _, h => by
    obtain ⟨p, q, n, multi, hcallee, hargs, hcall⟩ := h
    exact ((callee.fills hcallee).append (fills_exprs args hargs)).append (Home.fills_other hcall)
  | .method object _ args _, _, _, _, h => by
    obtain ⟨p, q, r, k, n, multi, hobject, hname, hself, hargs, hcall⟩ := h
    exact (((object.fills hobject).append (Home.fills_text hname hself)).append
      (fills_exprs args hargs)).append (Home.fills_other hcall)
  | .function body, _, _, _, h => body.fills h
  | .table fields _, _, _, _, h => by
    obtain ⟨p, hnew, hfields⟩ := h
    exact (Home.fills_other hnew).append (fills_fields fields hfields)
  | .binary o lhs rhs _, _, _, _, h => by
    rw [Expr.At] at h
    rw [Expr.plan]
    cases ho : o.opcode? with
    | some code =>
      rw [ho] at h
      obtain ⟨p, q, hlhs, hrhs, hbinary⟩ := h
      exact ((lhs.fills hlhs).append (rhs.fills hrhs)).append (Home.fills_other hbinary)
    | none =>
      rw [ho] at h
      obtain ⟨p, q, hlhs, hshortcut, hrhs⟩ := h
      exact (lhs.fills hlhs).append (Home.Fills.skip hshortcut (rhs.fills hrhs))
  | .unary o operand _, _, _, _, h => by
    rw [Expr.At] at h
    rw [Expr.plan]
    cases hv : negatedLiteral? o operand with
    | some v =>
      rw [hv] at h
      exact Home.fills_loadAt h
    | none =>
      rw [hv] at h
      obtain ⟨p, hoperand, hunary⟩ := h
      exact (operand.fills hoperand).append (Home.fills_other hunary)
  | .paren inner _, _, _, _, h => inner.fills h

theorem fills_exprs {U : Home} {locals : List Local} :
    ∀ (es : List Expr) {want : Want} {pushed pc pc' n : Nat} {multi : Bool},
      exprsAt U locals want pushed es pc pc' n multi → U.Fills (planExprs want pushed es) pc pc'
  | [], _, _, _, _, _, _, h => Home.fills_adjustAt h.1
  | e :: rest, want, _, _, _, _, _, h => by
    rw [exprsAt.eq_def] at h
    rw [planExprs.eq_def]
    dsimp only
    by_cases hlast : rest.isEmpty && e.isMulti
    · simp only [hlast, if_true] at h ⊢
      cases want with
      | all => exact e.fills h.1
      | exactly m =>
        obtain ⟨p, he, hadjust, -⟩ := h
        exact (e.fills he).append (Home.fills_adjustAt hadjust)
    · simp only [hlast] at h ⊢
      obtain ⟨p, he, hrest⟩ := h
      exact (e.fills he).append (fills_exprs rest hrest)

theorem fills_fields {U : Home} {locals : List Local} :
    ∀ (fields : List Field) {next pc pc' : Nat}, fieldsAt U locals next fields pc pc' →
      U.Fills (planFields next fields) pc pc'
  | [], _, _, _, h => by
    obtain rfl := h
    exact Home.fills_nil
  | .item value :: rest, _, _, _, h => by
    rw [fieldsAt] at h
    rw [planFields]
    by_cases hlast : rest.isEmpty && value.isMulti
    · simp only [hlast, if_true] at h ⊢
      obtain ⟨p, hvalue, hset⟩ := h
      exact (value.fills hvalue).append (Home.fills_one hset fun i hi hop hx ↦ .items hi hop hx)
    · simp only [hlast] at h ⊢
      obtain ⟨p, q, r, hindex, hvalue, hinit, hrest⟩ := h
      exact (((Home.fills_loadAt hindex).append (value.fills hvalue)).append
        (Home.fills_other hinit)).append (fills_fields rest hrest)
  | .entry key value :: rest, _, _, _, h => by
    obtain ⟨p, q, r, hkey, hvalue, hinit, hrest⟩ := h
    exact (((key.fills hkey).append (value.fills hvalue)).append (Home.fills_other hinit)).append
      (fills_fields rest hrest)

theorem FunctionBody.fills {U : Home} {locals : List Local} :
    ∀ (body : FunctionBody) {pc pc' : Nat}, body.At U locals pc pc' →
      U.Fills (.one (.make body)) pc pc'
  | .mk params variadic body _, _, _, h => by
    obtain ⟨x, k, proto, hclosure, hk, hproto, -, -, -, -, -, e, hbody, hreturn⟩ := h
    have hinner := body.fills hbody
    apply Home.fills_one hclosure
    intro i hi hop hx
    refine .make hi hop hx hk hproto (.intro ?_ hinner.serves)
    rw [show proto.code.size = e + 1 from hreturn.1, hinner.size, Nat.zero_add]

theorem Block.fills {U : Home} {locals : List Local} : ∀ (b : Block) {pc pc' : Nat},
    b.At U locals pc pc' → U.Fills b.plan pc pc'
  | .mk stmts _, _, _, h => by
    obtain ⟨locals', h⟩ := h
    exact fills_stmts stmts h

theorem fills_stmts {U : Home} : ∀ (stmts : List Stmt) {locals locals' : List Local} {pc pc' : Nat},
    stmtsAt U stmts locals pc locals' pc' → U.Fills (planStmts stmts) pc pc'
  | [], _, _, _, _, h => by
    obtain ⟨rfl, rfl⟩ := h
    exact Home.fills_nil
  | stmt :: rest, _, _, _, _, h => by
    obtain ⟨between, p, hstmt, hrest⟩ := h
    exact (stmt.fills hstmt).append (fills_stmts rest hrest)

theorem Stmt.fills {U : Home} : ∀ (stmt : Stmt) {locals locals' : List Local} {pc pc' : Nat},
    stmt.At U locals pc locals' pc' → U.Fills stmt.plan pc pc'
  | .declare names values _, _, _, _, _, h => by
    obtain ⟨p, n, multi, cells, hvalues, hdeclares, hcells⟩ := h
    obtain ⟨new, -, hnew, hlength⟩ := hdeclares.exists_append
    have hfilled := Home.fills_newCellsAt hcells
    rw [← hnew, List.length_map, hlength] at hfilled
    exact (fills_exprs values hvalues).append hfilled
  | .declareFunction name body _, _, _, _, _, h => by
    obtain ⟨l, p, q, r, -, -, -, hnil, hcell, hbody, hset⟩ := h
    exact (((Home.fills_other hnil).others (Home.fills_other hcell)).append (body.fills hbody)).append
      (Home.fills_other hset)
  | .defineFunction name body _, _, _, _, _, h => by
    obtain ⟨-, p, hbody, hdefine⟩ := h
    exact (body.fills hbody).append (Home.fills_defineAt hdefine)
  | .assign targets values _, _, _, _, _, h => by
    obtain ⟨-, p, n, multi, hvalues, htargets⟩ := h
    exact (fills_exprs values hvalues).append (fills_targets targets htargets)
  | .call call, _, _, _, _, h => call.fills h.2.2
  | .block body, _, _, _, _, h => body.fills h.2
  | .whileLoop cond body _, _, _, _, _, h => by
    obtain ⟨-, p, q, r, hcond, hleave, hbody, hback⟩ := h
    exact Home.Fills.whilst (cond.fills hcond) hleave (body.fills hbody) hback
  | .repeatLoop (.mk stmts _) cond _, _, _, _, _, h => by
    obtain ⟨-, inside, p, q, hbody, hcond, hback⟩ := h
    exact Home.Fills.loop (((fills_stmts stmts hbody).append (cond.fills hcond)).again hback)
  | .branch branches otherwise _, _, _, _, _, h => by
    obtain ⟨-, p, hbranches, hotherwise⟩ := h
    have hrest := fills_otherwise otherwise hotherwise
    exact (fills_branches branches hrest.size hbranches).append hrest
  | .numericFor var start limit step body _, _, _, _, pc', h => by
    obtain ⟨-, counter, limitCell, stepCell, l, -, -, -, -, -, -, -, -, -, -, p₁, p₂, p₃, p₄, again,
      test, q₁, q₂, r₁, r₂, hstart, hlimit, hstep, hcells, hprep, htest, hleave, hload, hcell, hbody,
      last, hforStep, hback⟩ := h
    have hbegin := ((start.fills hstart).append (limit.fills hlimit)).append (fills_step step hstep)
    have hready := (Home.fills_newCellsAt hcells).others (Home.fills_other hprep)
    have hnew := (Home.fills_other (U := { U with exit := some pc' }) hload).others
      (Home.fills_other hcell)
    have hround := (hnew.append (body.fills hbody)).append (Home.fills_other hforStep)
    exact (hbegin.append hready).append
      (Home.Fills.whilst (Home.fills_other htest) hleave hround hback)
  | .genericFor .., _, _, _, _, h => h.elim
  | .returnValues values _, _, _, _, _, h => by
    obtain ⟨-, p, n, multi, hvalues, hreturn⟩ := h
    exact (fills_exprs values hvalues).append (Home.fills_other hreturn)
  | .breakLoop _, _, _, _, _, h => by
    obtain ⟨-, exit, hexit, hjump⟩ := h
    refine ⟨hjump.1, fun o ho ↦ ?_⟩
    rw [hexit] at ho
    obtain rfl := List.mem_singleton.mp ho
    exact Home.serves_of_wide hjump

theorem fills_step {U : Home} {locals : List Local} : ∀ (step : Option Expr) {pc pc' : Nat},
    stepAt U locals step pc pc' → U.Fills (planStep step) pc pc'
  | some step, _, _, h => step.fills h
  | none, _, _, h => Home.fills_loadAt h

theorem fills_otherwise {U : Home} {locals : List Local} :
    ∀ (otherwise : Option Block) {pc pc' : Nat}, otherwiseAt U locals otherwise pc pc' →
      U.Fills (planOtherwise otherwise) pc pc'
  | some block, _, _, h => block.fills h
  | none, _, _, h => by
    obtain rfl := h
    exact Home.fills_nil

theorem fills_branches {U : Home} {locals : List Local} {ends after : Nat} {more : Bool} :
    ∀ (branches : List Branch) {pc pc' : Nat}, ends = pc' + after →
      branchesAt U locals ends more branches pc pc' →
      U.Fills (planBranches more after branches) pc pc'
  | [], _, _, _, h => by
    obtain rfl := h
    exact Home.fills_nil
  | .mk cond body :: rest, _, _, hends, h => by
    obtain ⟨p, q, r, next, hcond, hskip, hbody, hjump, hrest⟩ := h
    have hothers := fills_branches rest hends hrest
    have hexit : U.Fills (if rest.isEmpty && !more then .other 0
        else .leap ((planBranches more after rest).size + after)) r next := by
      by_cases hlast : rest.isEmpty && !more
      · rw [if_pos hlast] at hjump ⊢
        subst hjump
        exact Home.fills_nil
      · rw [if_neg hlast] at hjump ⊢
        refine Home.fills_leap hjump ?_
        rw [hends, hothers.size, Nat.add_assoc]
    exact ((cond.fills hcond).append (Home.Fills.skip hskip ((body.fills hbody).append hexit))).append
      hothers

theorem fills_targets {U : Home} {locals : List Local} :
    ∀ (targets : List Expr) {pc pc' : Nat}, targetsAt U locals targets pc pc' →
      U.Fills (planTargets targets) pc pc'
  | [], _, _, h => by
    obtain rfl := h
    exact Home.fills_nil
  | target :: rest, _, _, h => by
    obtain ⟨p, hrest, htarget⟩ := h
    exact (fills_targets rest hrest).append (target.fills_target htarget)

theorem Expr.fills_target {U : Home} {locals : List Local} : ∀ (target : Expr) {pc pc' : Nat},
    target.TargetAt U locals pc pc' → U.Fills target.planTarget pc pc'
  | .name _ _, _, _, h => Home.fills_nameAt .store h
  | .index object key _, _, _, h => by
    obtain ⟨p, q, hobject, hkey, hset⟩ := h
    exact ((object.fills hobject).append (key.fills hkey)).append (Home.fills_other hset)
  | .nil _, _, _, h | .bool .., _, _, h | .int .., _, _, h | .float .., _, _, h
  | .string .., _, _, h | .varargs _, _, _, h | .call .., _, _, h | .method .., _, _, h
  | .function _, _, _, h | .table .., _, _, h | .binary .., _, _, h | .unary .., _, _, h
  | .paren .., _, _, h => h.elim

end

end MiniLua
