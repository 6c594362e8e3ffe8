import MiniLua.Proofs.Meaning.Loops

/-! The code of statements does what they mean. -/

namespace MiniLua

open Effects Machine Eval

section

variable {natives : Array Native} {code : Heap} {p : Spot} {U : Home} {c : Context} {pc pc' k n : Nat}
  {locals locals' : List Local} {env : Bindings} {cells : Array (Option Nat)} {S : Array Value}
  {w : World} {s : State} {multi : Bool}

/-- A return with the values on top of the stack. -/
theorem Spot.At.returns {vs vs' : List Value} (h : p.At U pc cells (S ++ vs') s)
    (hreturn : U.ReturnAt n multi pc pc') (hcount : n + (if multi then s.lastMulti else 0) = vs'.length)
    (hvs : List.Forall₂ (w.Same natives s) vs vs') :
    p.Returning natives U S vs w s := by
  refine ⟨pc, cells, vs', h, hvs, ?_⟩
  have hpc : pc' = pc + 1 := hreturn.1
  subst hpc
  obtain ⟨i, ⟨rfl, hmulti⟩, hstep⟩ := h.fetch natives hreturn
  rw [← open_of_flag hmulti] at hcount
  rw [perform_ret (s := p.moved (pc + 1) cells (S ++ vs') s) rfl hcount] at hstep
  exact hstep

namespace Spot.Runs

variable (h : p.Runs natives code U c locals env cells pc S w s)

include h

theorem meetsDeclareFunction {name : String} {body : FunctionBody} {pos : Position}
    (hat : (Stmt.declareFunction name body pos).At U locals pc locals' pc') :
    Meets natives code c.rounds w s
      (fun r ↦ p.Ended natives U pc' locals locals' cells S r.1 r.2)
      ((Stmt.declareFunction name body pos).eval c env w) := by
  obtain ⟨l, q, r, u, rfl, hfresh, rfl, hnil, hnew, hbody, hset⟩ := hat
  rw [Stmt.eval_declareFunction]
  refine (h.place.goesOn h.shows hnil S [.nil] fun i hi ↦ by
    rw [perform_loadNil, hi]; rfl).followed fun t₁ hlater₁ hshows₁ hat₁ ↦ ?_
  have h₁ := h.onward hlater₁ hshows₁ hat₁
  refine (h₁.makesCell hnew hfresh.cell_lt rfl .nil).bind fun cell w₂ t₂ hlater₂ hshows₂ hat₂ ↦ ?_
  have hsees := h.sees.declare hfresh h.place.room cell
  have h₂ := h₁.goes hlater₂ hshows₂ hat₂ hsees
  refine (h₂.closes hbody).bind fun f w₃ t₃ hlater₃ hshows₃ ⟨f', hf, hat₃⟩ ↦ ?_
  have hbound : (cells.setIfInBounds l.cell (some cell))[l.cell]? = some (some cell) :=
    Array.getElem?_setIfInBounds_self_of_lt (hfresh.cell_lt.trans_le h.place.room)
  refine ((h₂.onward hlater₃ hshows₃ hat₃).storesCell hset hbound rfl hf).bind
    fun _ w₄ t₄ _ hshows₄ hat₄ ↦ .pure hshows₄ ⟨_, hat₄, fun l' hl' ↦ ?_, hsees⟩
  exact Array.getElem?_setIfInBounds_ne (hfresh.cell_ne l' hl').symm

theorem meetsDefineFunction {name : FunctionName} {body : FunctionBody} {pos : Position}
    (hat : (Stmt.defineFunction name body pos).At U locals pc locals' pc') :
    Meets natives code c.rounds w s
      (fun r ↦ p.Ended natives U pc' locals locals' cells S r.1 r.2)
      ((Stmt.defineFunction name body pos).eval c env w) := by
  obtain ⟨rfl, q, hbody, hdefine⟩ := hat
  rw [Stmt.eval_defineFunction]
  refine (h.closes hbody).bind fun f w₁ t₁ hlater₁ hshows₁ ⟨f', hf, hat₁⟩ ↦ ?_
  refine ((h.onward hlater₁ hshows₁ hat₁).defines hdefine rfl hf).bind fun _ w₂ t₂ _ hshows₂ hat₂ ↦ ?_
  exact .pure hshows₂ ⟨cells, hat₂, .refl _ _, h.sees⟩

variable (hcalls : c.CallsMeet natives code)

include hcalls

/-- Just so many values. -/
theorem adjustsAll {es : List Expr} {m : Nat} (hes : exprsAt U locals (.exactly n) 0 es pc pc' m multi) :
    Meets natives code c.rounds w s
      (fun vs w t ↦ p.Leaves natives U pc' cells S vs w t ∧ vs.length = n)
      (adjust (.exactly n) (evalExprs c env (.exactly n) es) w) := by
  refine (meets_exprs hcalls es hes rfl .nil h).bind fun vs w₁ t₁ _ hshows₁ ⟨vs', hvs, hat, _⟩ ↦ ?_
  exact .pure hshows₁ ⟨⟨vs', hvs, hat⟩, length_adjusted⟩

theorem meetsDeclare {names : List String} {es : List Expr} {pos : Position}
    (hat : (Stmt.declare names es pos).At U locals pc locals' pc') :
    Meets natives code c.rounds w s
      (fun r ↦ p.Ended natives U pc' locals locals' cells S r.1 r.2)
      ((Stmt.declare names es pos).eval c env w) := by
  obtain ⟨q, m, multi, slots, hes, hdeclares, hnew⟩ := hat
  rw [Stmt.eval_declare]
  refine (h.adjustsAll hcalls hes).bind fun vs w₁ t₁ hlater₁ hshows₁ ⟨⟨vs', hvs, hat₁⟩, hcount⟩ ↦ ?_
  have h₁ := h.onward hlater₁ hshows₁ hat₁
  exact (h₁.makesBindings hdeclares hnew rfl hvs hcount).bind fun _ _ _ _ hshows₂ hended ↦
    .pure hshows₂ hended

/-- Targets take values that are evaluated before. -/
theorem assignsValues {targets es : List Expr} {q m : Nat}
    (hes : exprsAt U locals (.exactly targets.length) 0 es pc q m multi)
    (htargets : targetsAt U locals targets q pc') :
    Meets natives code c.rounds w s (fun _ _ t ↦ p.At U pc' cells S t) ((do
      let vs ← adjust (.exactly targets.length) (evalExprs c env (.exactly targets.length) es)
      assignAll c env targets vs) w) := by
  refine (h.adjustsAll hcalls hes).bind fun vs w₁ t₁ hlater₁ hshows₁ ⟨⟨vs', hvs, hat₁⟩, hcount⟩ ↦ ?_
  exact (h.onward hlater₁ hshows₁ hat₁).assignsAll hcalls htargets rfl hvs hcount

theorem meetsAssign {targets es : List Expr} {pos : Position}
    (hat : (Stmt.assign targets es pos).At U locals pc locals' pc') :
    Meets natives code c.rounds w s
      (fun r ↦ p.Ended natives U pc' locals locals' cells S r.1 r.2)
      ((Stmt.assign targets es pos).eval c env w) := by
  obtain ⟨rfl, q, m, multi, hes, htargets⟩ := hat
  rw [Stmt.eval_assign, ← bind_assoc]
  refine (h.assignsValues hcalls hes htargets).bind fun _ w₁ t₁ _ hshows₁ hat₁ ↦ ?_
  exact .pure hshows₁ ⟨cells, hat₁, .refl _ _, h.sees⟩

theorem meetsCall {call : Expr} (hat : (Stmt.call call).At U locals pc locals' pc') :
    Meets natives code c.rounds w s
      (fun r ↦ p.Ended natives U pc' locals locals' cells S r.1 r.2)
      ((Stmt.call call).eval c env w) := by
  obtain ⟨rfl, hcall, hat⟩ := hat
  rw [Stmt.eval_call]
  refine (call.meets hcalls hat h).bind fun vs w₁ t₁ _ hshows₁ ⟨⟨vs', hvs, hat₁⟩, hyields⟩ ↦ ?_
  have hmulti : call.isMulti = true := by cases call <;> first | rfl | cases hcall
  rw [Expr.Yields, if_pos hmulti] at hyields
  obtain rfl := List.eq_nil_of_length_eq_zero hyields
  obtain rfl := List.forall₂_nil_left_iff.mp hvs
  exact .pure hshows₁ ⟨cells, hat₁, .refl _ _, h.sees⟩

theorem meetsReturn {es : List Expr} {pos : Position}
    (hat : (Stmt.returnValues es pos).At U locals pc locals' pc') :
    Meets natives code c.rounds w s
      (fun r ↦ p.Ended natives U pc' locals locals' cells S r.1 r.2)
      ((Stmt.returnValues es pos).eval c env w) := by
  obtain ⟨rfl, q, m, multi, hes, hreturn⟩ := hat
  rw [Stmt.eval_returnValues]
  refine (meets_exprs hcalls es hes rfl .nil h).bind
    fun vs w₁ t₁ _ hshows₁ ⟨vs', hvs, hat₁, hcount⟩ ↦ .pure hshows₁ ?_
  exact hat₁.returns hreturn hcount hvs

/-- The step of a numeric loop. -/
theorem meetsStep {step : Option Expr} (hat : stepAt U locals step pc pc') :
    Meets natives code c.rounds w s (p.LeavesOne natives U pc' cells S) (evalStep c env step w) := by
  cases step with
  | some step => exact (step.meets hcalls hat h).toOne
  | none => exact h.loads hat rfl

theorem meetsNumericFor {var : String} {start limit : Expr} {step : Option Expr} {body : Block}
    {pos : Position} (hat : (Stmt.numericFor var start limit step body pos).At U locals pc locals' pc')
    (hbody : ∀ {U : Home} {locals : List Local} {env : Bindings} {cells : Array (Option Nat)}
      {pc pc' : Nat} {w : World} {s : State}, body.At U locals pc pc' →
      p.Runs natives code U c locals env cells pc S w s →
      Meets natives code c.rounds w s (p.Ended natives U pc' locals locals cells S env)
        (body.eval c env w)) :
    Meets natives code c.rounds w s (fun r ↦ p.Ended natives U pc' locals locals' cells S r.1 r.2)
      ((Stmt.numericFor var start limit step body pos).eval c env w) := by
  obtain ⟨rfl, counter, limitCell, stepCell, l, hcounter, hlimit, hstep, hvar, hnext, hnext', hfresh₁,
    hfresh₂, hfresh₃, hfresh₄, p₁, p₂, p₃, p₄, again, test, q₁, q₂, r₁, r₂, hstartAt, hlimitAt, hstepAt,
    hnew, hprep, htest, hexit, hget, hcell, hbodyAt, last, hforStep, hback⟩ := hat
  obtain ⟨m₁, hnew₁, m₂, hnew₂, m₃, hnew₃, rfl⟩ := hnew
  rw [Nat.mod_eq_of_lt (h.fits.lt_of_has htest)] at hback
  rw [Stmt.eval]
  refine (start.meets hcalls hstartAt h).toOne.bind fun a w₁ t₁ hlater₁ hshows₁ ⟨a', ha, hat₁⟩ ↦ ?_
  have h₁ := h.onward hlater₁ hshows₁ hat₁
  refine (limit.meets hcalls hlimitAt h₁).toOne.bind fun b w₂ t₂ hlater₂ hshows₂ ⟨b', hb, hat₂⟩ ↦ ?_
  have h₂ := h₁.onward hlater₂ hshows₂ hat₂
  refine (h₂.meetsStep hcalls hstepAt).bind fun d w₃ t₃ hlater₃ hshows₃ ⟨d', hd, hat₃⟩ ↦ ?_
  have h₃ := h₂.onward hlater₃ hshows₃ hat₃
  refine (h₃.makesCell hnew₁ hfresh₃.cell_lt rfl hd).bind fun dc w₄ t₄ hlater₄ hshows₄ hat₄ ↦ ?_
  have h₄ := h₃.bindsSlot hlater₄ hshows₄ hat₄ fun l hl ↦ hfresh₃.cell_ne l (by simp [hl])
  refine (h₄.makesCell hnew₂ hfresh₂.cell_lt rfl ((hlater₃.trans hlater₄).matches_mono hb)).bind
    fun bc w₅ t₅ hlater₅ hshows₅ hat₅ ↦ ?_
  have h₅ := h₄.bindsSlot hlater₅ hshows₅ hat₅ fun l hl ↦ hfresh₂.cell_ne l (by simp [hl])
  refine (h₅.makesCell hnew₃ hfresh₁.cell_lt rfl
    (((hlater₂.trans hlater₃).trans (hlater₄.trans hlater₅)).matches_mono ha)).bind
      fun ac w₆ t₆ hlater₆ hshows₆ hat₆ ↦ ?_
  obtain ⟨cells₃, hcells₃⟩ : ∃ cells₃, cells₃ = ((cells.setIfInBounds stepCell.cell (some dc)).setIfInBounds
    limitCell.cell (some bc)).setIfInBounds counter.cell (some ac) := ⟨_, rfl⟩
  rw [← hcells₃] at hat₆
  have hroom := h.place.room
  have hlt₁ := hfresh₁.cell_lt
  have hlt₂ := hfresh₂.cell_lt
  have hlt₃ := hfresh₃.cell_lt
  have hc : cells₃[counter.cell]? = some (some ac) := by
    rw [hcells₃, Array.getElem?_setIfInBounds_self_of_lt (by simp; omega)]
  have hl : cells₃[counter.cell + 1]? = some (some bc) := by
    rw [hcells₃, Array.getElem?_setIfInBounds_ne (by omega), ← hnext,
      Array.getElem?_setIfInBounds_self_of_lt (by simp; omega)]
  have hs : cells₃[counter.cell + 2]? = some (some dc) := by
    rw [hcells₃, Array.getElem?_setIfInBounds_ne (by omega), Array.getElem?_setIfInBounds_ne (by omega),
      ← hnext', Array.getElem?_setIfInBounds_self_of_lt (by omega)]
  have hkept : SlotsKept locals' cells cells₃ := by
    rw [hcells₃]
    have hsub := List.Subset.refl locals'
    exact (SlotsKept.set (fun l hl ↦ hfresh₃.cell_ne l (by simp [hl])) _).trans hsub
      ((SlotsKept.set (fun l hl ↦ hfresh₂.cell_ne l (by simp [hl])) _).trans hsub
        (SlotsKept.set (fun l hl ↦ hfresh₁.cell_ne l hl) _))
  have hsees : U.Sees p.upvalues (stepCell :: limitCell :: counter :: locals') cells₃
      (("(for step)", dc) :: ("(for limit)", bc) :: ("(for index)", ac) :: env) := by
    rw [← hcounter, ← hlimit, ← hstep]
    exact (((h.sees.agree hkept).bind hc).bind (hnext ▸ hl)).bind (hnext' ▸ hs)
  have h₆ := h₅.goes hlater₆ hshows₆ hat₆ hsees
  refine (h₆.preparesLoop hc hl hs hprep).bind fun _ w₇ t₇ hlater₇ hshows₇ hat₇ ↦ ?_
  have h₇ := h₆.onward hlater₇ hshows₇ hat₇
  generalize hinside : stepCell :: limitCell :: counter :: locals' = inside at *
  generalize henv : ("(for step)", dc) :: ("(for limit)", bc) :: ("(for index)", ac) :: env = env' at *
  refine (meets_rounds (fun w s ↦ ∃ cells', p.Runs natives code U c inside env' cells' again S w s ∧
    SlotsKept inside cells₃ cells') (Q := p.Ended natives U pc' inside inside cells₃ S env') ?_
      (Nat.le_refl _) ⟨cells₃, h₇, .refl _ _⟩).bind fun flow w₈ t₈ _ hshows₈ hended ↦ .pure hshows₈
        ((hended.after hkept fun l hl ↦ by simp [← hinside, hl]).closed h.sees)
  rintro w s ⟨cells', h', hkept'⟩
  subst hvar
  have hslots : ∀ slot ∈ [counter.cell, counter.cell + 1, counter.cell + 2],
      ∃ l ∈ inside, l.cell = slot := by
    simp [← hinside, hnext, hnext']
  have hslot {slot : Nat} (hslot : slot ∈ [counter.cell, counter.cell + 1, counter.cell + 2]) :
      cells'[slot]? = cells₃[slot]? := by
    obtain ⟨l, hl, rfl⟩ := hslots slot hslot
    exact hkept' l hl
  exact h'.meetsRound ((hslot (by simp)).trans hc) ((hslot (by simp)).trans hl)
    ((hslot (by simp)).trans hs) hkept' hslots hfresh₄ htest hexit hget hcell hforStep hback
    fun h ↦ hbody hbodyAt h

end Spot.Runs

end

section

variable {natives : Array Native} {code : Heap} {p : Spot} {c : Context} {S : Array Value}

mutual

theorem Block.meets (hcalls : c.CallsMeet natives code) : ∀ (b : Block) {U : Home}
    {locals : List Local} {env : Bindings} {cells : Array (Option Nat)} {pc pc' : Nat} {w : World}
    {s : State}, b.At U locals pc pc' → p.Runs natives code U c locals env cells pc S w s →
    Meets natives code c.rounds w s (p.Ended natives U pc' locals locals cells S env) (b.eval c env w)
  | .mk stmts _, _, _, _, _, _, _, _, _, ⟨locals', hat⟩, h => by
    rw [Block.eval]
    refine (meets_stmts hcalls stmts hat h).bind fun r w₁ t₁ _ hshows₁ hended ↦ ?_
    exact .pure hshows₁ (hended.closed h.sees)

theorem meets_stmts (hcalls : c.CallsMeet natives code) : ∀ (stmts : List Stmt) {U : Home}
    {locals locals' : List Local} {env : Bindings} {cells : Array (Option Nat)} {pc pc' : Nat}
    {w : World} {s : State}, stmtsAt U stmts locals pc locals' pc' →
    p.Runs natives code U c locals env cells pc S w s →
    Meets natives code c.rounds w s
      (fun r ↦ p.Ended natives U pc' locals locals' cells S r.1 r.2) (evalStmts c env stmts w)
  | [], _, _, _, _, cells, _, _, _, _, ⟨hlocals, hpc⟩, h => by
    subst hlocals hpc
    exact .pure h.shows ⟨cells, h.place, .refl _ _, h.sees⟩
  | stmt :: rest, U, _, _, _, _, _, _, _, _, ⟨between, q, hstmt, hrest⟩, h => by
    rw [evalStmts]
    have hsub := (stmt.passes (O := []) h.fits.fewCode h.fits.few (List.nil_subset _) hstmt).more
    refine (stmt.meets hcalls hstmt h).bind fun ⟨env₁, flow⟩ w₁ t₁ hlater₁ hshows₁ hended ↦ ?_
    cases flow with
    | next =>
      obtain ⟨cells₁, hat₁, hkept₁, hsees₁⟩ := hended
      refine (meets_stmts hcalls rest hrest (h.goes hlater₁ hshows₁ hat₁ hsees₁)).mono
        fun r w₂ t₂ _ hended ↦ hended.after hkept₁ hsub
    | exit => exact .pure hshows₁ hended
    | ret vs => exact .pure hshows₁ hended

theorem Stmt.meets (hcalls : c.CallsMeet natives code) : ∀ (stmt : Stmt) {U : Home}
    {locals locals' : List Local} {env : Bindings} {cells : Array (Option Nat)} {pc pc' : Nat}
    {w : World} {s : State}, stmt.At U locals pc locals' pc' →
    p.Runs natives code U c locals env cells pc S w s →
    Meets natives code c.rounds w s
      (fun r ↦ p.Ended natives U pc' locals locals' cells S r.1 r.2) (stmt.eval c env w)
  | .declare .., _, _, _, _, _, _, _, _, _, hat, h => h.meetsDeclare hcalls hat
  | .declareFunction .., _, _, _, _, _, _, _, _, _, hat, h => h.meetsDeclareFunction hat
  | .defineFunction .., _, _, _, _, _, _, _, _, _, hat, h => h.meetsDefineFunction hat
  | .assign .., _, _, _, _, _, _, _, _, _, hat, h => h.meetsAssign hcalls hat
  | .call .., _, _, _, _, _, _, _, _, _, hat, h => h.meetsCall hcalls hat
  | .returnValues .., _, _, _, _, _, _, _, _, _, hat, h => h.meetsReturn hcalls hat
  | .breakLoop _, _, _, _, _, cells, _, _, _, _, hat, h => by
    obtain ⟨rfl, exit, hexit, hjump⟩ := hat
    rw [Stmt.eval]
    refine (h.place.jumps h.shows hjump).followed fun t hlater hshows hat ↦ ?_
    exact .pure hshows ⟨exit, cells, hexit, hat, .refl _ _⟩
  | .block body, _, _, _, _, _, _, _, _, _, hat, h => by
    obtain ⟨rfl, hat⟩ := hat
    rw [Stmt.eval]
    refine (body.meets hcalls hat h).bind fun flow w₁ t₁ _ hshows₁ hended ↦ ?_
    exact .pure hshows₁ hended
  | .whileLoop cond body _, U, _, locals, env, cells, pc, pc', w, s, hat, h => by
    obtain ⟨rfl, q, r, u, hcond, hjump, hbody, hback⟩ := hat
    have hle := (cond.leads h.fits.few (binds_cellsOf locals) hcond (S := [])).le
    rw [Nat.mod_eq_of_lt (hle.trans_lt (h.fits.lt_of_has hjump))] at hback
    rw [Stmt.eval]
    refine (meets_rounds (fun w s ↦ ∃ cells', p.Runs natives code U c locals env cells' pc S w s ∧
      SlotsKept locals cells cells') (Q := p.Ended natives U pc' locals locals cells S env) ?_ (Nat.le_refl _)
      ⟨cells, h, .refl _ _⟩).bind fun flow w₁ t₁ _ hshows₁ hended ↦ .pure hshows₁ hended
    rintro w s ⟨cells', h', hkept⟩
    refine (cond.meets hcalls hcond h').toOne.bind fun v w₁ t₁ hlater₁ hshows₁ ⟨v', hv, hat₁⟩ ↦ ?_
    refine (hat₁.branches hshows₁ hjump rfl hv).followed fun t₂ hlater₂ hshows₂ hat₂ ↦ ?_
    cases hfalse : v.isFalsey with
    | true =>
      rw [hfalse, if_pos rfl] at hat₂
      exact .pure hshows₂ ⟨cells', hat₂, hkept, h'.sees⟩
    | false =>
      rw [hfalse, if_neg (by simp)] at hat₂
      have h₂ := h'.onward (hlater₁.trans hlater₂) hshows₂ hat₂
      refine (body.meets hcalls hbody (h₂.inLoop (some pc'))).bind
        fun flow w₃ t₃ hlater₃ hshows₃ hended ↦ ?_
      cases flow with
      | next =>
        obtain ⟨cells₃, hat₃, hkept₃, hsees₃⟩ := hended
        have h₃ := h₂.goes hlater₃ hshows₃ hat₃.outside hsees₃.outside
        exact .pure hshows₃ (h₃.again hback fun t ht ↦
          ⟨cells₃, ht, hkept.trans (List.Subset.refl _) hkept₃⟩)
      | exit =>
        exact .pure hshows₃ ((hended.caught nofun h'.sees).after hkept (List.Subset.refl _))
      | ret vs =>
        exact .pure hshows₃ ((hended.caught nofun h'.sees).after hkept (List.Subset.refl _))
  | .repeatLoop (.mk stmts _) cond _, U, _, locals, env, cells, pc, pc', w, s, hat, h => by
    obtain ⟨rfl, inside, q, r, hstmts, hcond, hjump⟩ := hat
    have hin := h.inLoop (some pc')
    have hpasses := stmts_pass (O := []) hin.fits.fewCode hin.fits.few stmts (List.nil_subset _) hstmts
    have hle := (cond.leads hin.fits.few (binds_cellsOf inside) hcond (S := [])).le
    rw [Nat.mod_eq_of_lt ((hpasses.le.trans hle).trans_lt (h.fits.lt_of_has hjump))] at hjump
    rw [Stmt.eval]
    refine (meets_rounds (fun w s ↦ ∃ cells', p.Runs natives code U c locals env cells' pc S w s ∧
      SlotsKept locals cells cells') (Q := p.Ended natives U pc' locals locals cells S env) ?_ (Nat.le_refl _)
      ⟨cells, h, .refl _ _⟩).bind fun flow w₁ t₁ _ hshows₁ hended ↦ .pure hshows₁ hended
    rintro w s ⟨cells', h', hkept⟩
    refine (meets_stmts hcalls stmts hstmts (h'.inLoop (some pc'))).bind
      fun ⟨env₁, flow⟩ w₁ t₁ hlater₁ hshows₁ hended ↦ ?_
    cases flow with
    | next =>
      obtain ⟨cells₁, hat₁, hkept₁, hsees₁⟩ := hended
      have h₁ := (h'.inLoop (some pc')).goes hlater₁ hshows₁ hat₁ hsees₁
      have hkept₁ := hkept.trans (List.Subset.refl _) hkept₁
      refine (cond.meets hcalls hcond h₁).toOne.bind fun v w₂ t₂ hlater₂ hshows₂ ⟨v', hv, hat₂⟩ ↦ ?_
      cases hfalse : v.isFalsey with
      | true =>
        have hstep := hat₂.branch_step natives hjump rfl hv
        rw [hfalse, if_pos rfl] at hstep
        refine .pure hshows₂ ⟨_, hstep, ⟨.refl _, .refl _⟩, cells₁, ?_, hkept₁⟩
        have hlater := hlater₁.trans hlater₂
        exact h'.goes ⟨hlater.world, hlater.state⟩ (hat₂.moved_shows hshows₂ pc S)
          (hat₂.moved pc S).outside (h.sees.agree hkept₁)
      | false =>
        refine (hat₂.branches hshows₂ hjump rfl hv).followed fun t₃ hlater₃ hshows₃ hat₃ ↦ ?_
        rw [hfalse, if_neg (by simp)] at hat₃
        exact .pure hshows₃ ⟨cells₁, hat₃.outside, hkept₁, h.sees.agree hkept₁⟩
    | exit =>
      exact .pure hshows₁ ((hended.caught nofun h'.sees).after hkept (List.Subset.refl _))
    | ret vs =>
      exact .pure hshows₁ ((hended.caught nofun h'.sees).after hkept (List.Subset.refl _))
  | .branch branches otherwise _, U, _, locals, env, cells, pc, pc', w, s, hat, h => by
    obtain ⟨rfl, q, hbranches, hotherwise⟩ := hat
    have hends : otherwise.isSome = false → q = pc' := by
      intro hnone
      cases otherwise with
      | none => exact hotherwise.symm
      | some => cases hnone
    rw [Stmt.eval]
    refine (meets_branches hcalls branches hbranches hends h).bind fun r w₁ t₁ hlater₁ hshows₁ hr ↦ ?_
    cases r with
    | some flow => exact .pure hshows₁ hr
    | none =>
      refine (meets_otherwise hcalls otherwise hotherwise (h.onward hlater₁ hshows₁ hr)).bind
        fun flow w₂ t₂ _ hshows₂ hended ↦ .pure hshows₂ hended
  | .numericFor var start limit step body _, U, _, locals, env, cells, pc, pc', w, s, hat, h => by
    exact h.meetsNumericFor hcalls hat fun hat h ↦ body.meets hcalls hat h
  | .genericFor .., _, _, _, _, _, _, _, _, _, hat, _ => hat.elim

theorem meets_branches (hcalls : c.CallsMeet natives code) : ∀ (branches : List Branch) {U : Home}
    {locals : List Local} {env : Bindings} {cells : Array (Option Nat)} {ends pc pc' : Nat}
    {more : Bool} {w : World} {s : State}, branchesAt U locals ends more branches pc pc' →
    (more = false → pc' = ends) → p.Runs natives code U c locals env cells pc S w s →
    Meets natives code c.rounds w s
      (fun r w t ↦ match r with
        | some flow => p.Ended natives U ends locals locals cells S env flow w t
        | none => p.At U pc' cells S t)
      (evalBranches c env branches w)
  | [], _, _, _, _, _, _, _, _, _, _, hat, _, h => by
    obtain rfl := hat
    exact .pure h.shows h.place
  | .mk cond body :: rest, U, locals, env, cells, ends, pc, pc', more, w, s, hat, hends, h => by
    obtain ⟨q, r, u, next, hcond, hjump, hbody, hskip, hrest⟩ := hat
    rw [evalBranches]
    refine (cond.meets hcalls hcond h).toOne.bind fun v w₁ t₁ hlater₁ hshows₁ ⟨v', hv, hat₁⟩ ↦ ?_
    refine (hat₁.branches hshows₁ hjump rfl hv).followed fun t₂ hlater₂ hshows₂ hat₂ ↦ ?_
    cases hfalse : v.isFalsey with
    | true =>
      rw [hfalse, if_pos rfl] at hat₂
      exact meets_branches hcalls rest hrest hends (h.onward (hlater₁.trans hlater₂) hshows₂ hat₂)
    | false =>
      rw [hfalse, if_neg (by simp)] at hat₂
      have h₂ := h.onward (hlater₁.trans hlater₂) hshows₂ hat₂
      refine (body.meets hcalls hbody h₂).bind fun flow w₃ t₃ hlater₃ hshows₃ hended ↦ ?_
      cases flow with
      | next =>
        split at hskip
        · next hlast =>
          obtain ⟨hnil, hmore⟩ := Bool.and_eq_true_iff.mp hlast
          obtain rfl : rest = [] := by simpa using hnil
          obtain rfl : pc' = next := hrest
          subst hskip
          rw [← hends (by simpa using hmore)]
          exact .pure hshows₃ hended
        · obtain ⟨cells₃, hat₃, hkept₃, hsees₃⟩ := hended
          refine (hat₃.jumps hshows₃ hskip).followed fun t₄ _ hshows₄ hat₄ ↦ ?_
          exact .pure hshows₄ ⟨cells₃, hat₄, hkept₃, hsees₃⟩
      | exit => exact .pure hshows₃ hended
      | ret vs => exact .pure hshows₃ hended

theorem meets_otherwise (hcalls : c.CallsMeet natives code) : ∀ (otherwise : Option Block) {U : Home}
    {locals : List Local} {env : Bindings} {cells : Array (Option Nat)} {pc pc' : Nat} {w : World}
    {s : State}, otherwiseAt U locals otherwise pc pc' →
    p.Runs natives code U c locals env cells pc S w s →
    Meets natives code c.rounds w s (p.Ended natives U pc' locals locals cells S env)
      (evalOtherwise c env otherwise w)
  | some block, _, _, _, _, _, _, _, _, hat, h => by
    rw [evalOtherwise]
    exact block.meets hcalls hat h
  | none, _, _, _, cells, _, _, _, _, hat, h => by
    obtain rfl := hat
    exact .pure h.shows ⟨cells, h.place, .refl _ _, h.sees⟩

end

end

end MiniLua
