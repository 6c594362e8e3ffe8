import MiniLua.Proofs.Stack.Flow

/-! Statements leave the stack of their function empty, and so does a whole function. -/

namespace MiniLua

def cellsOf (locals : List Local) : List Nat := locals.map Local.cell

theorem binds_cellsOf (locals : List Local) : Home.Binds locals (cellsOf locals) :=
  fun _ hl ↦ List.mem_map_of_mem hl

theorem cellsOf_subset {locals locals' : List Local} (h : locals ⊆ locals') :
    cellsOf locals ⊆ cellsOf locals' := List.map_subset _ h

namespace Home

/-- From one place the code goes on to another, both with an empty stack, unless it leaves the
innermost loop, behind which the cells `O` are bound. -/
structure Passes (U : Home) (O : List Nat) (pc : Nat) (locals : List Local) (pc' : Nat)
    (locals' : List Local) : Prop where
  le : pc ≤ pc'
  more : locals ⊆ locals'
  stands : U.proto.Stands pc ⟨[], cellsOf locals, false⟩ →
    U.proto.Stands pc' ⟨[], cellsOf locals', false⟩
  safe : ∀ k, U.proto.Stands pc ⟨[], cellsOf locals, false⟩ →
    (∀ e ∈ U.exit, Safe U.proto U.heap k e ⟨[], O, false⟩) →
    Safe U.proto U.heap k pc' ⟨[], cellsOf locals', false⟩ →
    Safe U.proto U.heap k pc ⟨[], cellsOf locals, false⟩

variable {U : Home} {O : List Nat} {pc p pc' : Nat} {locals between locals' : List Local}

namespace Passes

theorem refl (pc : Nat) (locals : List Local) : U.Passes O pc locals pc locals :=
  ⟨Nat.le_refl _, List.Subset.refl _, id, fun _ _ _ h ↦ h⟩

theorem trans (h : U.Passes O pc locals p between) (h' : U.Passes O p between pc' locals') :
    U.Passes O pc locals pc' locals' :=
  ⟨h.le.trans h'.le, List.Subset.trans h.more h'.more, fun hP ↦ h'.stands (h.stands hP), fun k hP hexit hsafe ↦
    h.safe k hP hexit (h'.safe k (h.stands hP) hexit hsafe)⟩

/-- Locals are forgotten at the end of their scope. -/
theorem closed (h : U.Passes O pc locals pc' locals') : U.Passes O pc locals pc' locals := by
  refine ⟨h.le, List.Subset.refl _, fun hP ↦ ?_, fun k hP hexit hsafe ↦ h.safe k hP hexit ?_⟩
  · have hstands := h.stands hP
    exact ⟨hstands.height, hstands.multi⟩
  · exact hsafe.weaken (.ofCells (cellsOf_subset h.more) false) fun hq ↦ hq

end Passes

theorem passes_of_leads {C : List Nat} (h : U.Leads pc ⟨[], cellsOf locals, false⟩ pc' ⟨[], C, false⟩)
    (hmore : locals ⊆ locals') (hcells : cellsOf locals' ⊆ C) :
    U.Passes O pc locals pc' locals' := by
  refine ⟨h.le, hmore, fun hP ↦ ?_, fun k hP _ hsafe ↦ h.safe k hP ?_⟩
  · have hstands := h.stands hP
    exact ⟨hstands.height, hstands.multi⟩
  · exact hsafe.weaken (.ofCells hcells false) fun hq ↦ hq

variable {C : List Nat} {k target : Nat}

theorem grants_jumpIfFalse (i : Instruction) (hop : i.opcode? = some .jumpIfFalse)
    (_ : i.x = target) :
    U.Grants .jumpIfFalse ⟨[false], C, false⟩ i ⟨[], C, false⟩ := by
  constructor <;> simp [Instruction.takes, hop]

theorem stands_jumpIfFalse (h : U.Wide .jumpIfFalse target pc pc')
    (hP : U.proto.Stands pc ⟨[false], C, false⟩) : U.proto.Stands pc' ⟨[], C, false⟩ :=
  stands_of_has h hP grants_jumpIfFalse (by decide) (by decide)

theorem safe_jumpIfFalse (h : U.Wide .jumpIfFalse target pc pc')
    (hP : U.proto.Stands pc ⟨[false], C, false⟩) (hnext : Safe U.proto U.heap k pc' ⟨[], C, false⟩)
    (htarget : Safe U.proto U.heap k target ⟨[], C, false⟩) :
    Safe U.proto U.heap (k + 1) pc ⟨[false], C, false⟩ := by
  refine safe_of_has h hP grants_jumpIfFalse (fun _ _ ↦ hnext) fun i hx Q hQ ↦ ?_
  cases hQ
  rw [hx]
  exact htarget

theorem stands_jump (h : U.Wide .jump target pc pc') (C : List Nat) :
    U.proto.Stands pc' ⟨[], C, false⟩ := by
  obtain ⟨rfl, i, hi, hop, -⟩ := h
  exact Prototype.stands_behind hi hop (.inl rfl) C

theorem safe_jump (h : U.Wide .jump target pc pc') (hP : U.proto.Stands pc ⟨[], C, false⟩)
    (htarget : Safe U.proto U.heap k target ⟨[], C, false⟩) :
    Safe U.proto U.heap (k + 1) pc ⟨[], C, false⟩ := by
  have hneeds : ∀ i, i.opcode? = some .jump → i.x = target →
      U.Grants .jump ⟨[], C, false⟩ i ⟨[], C, false⟩ := by
    intro i hop _
    constructor <;> simp [Instruction.takes, hop]
  refine safe_of_has h hP hneeds (fun hjump ↦ absurd rfl hjump) fun i hx Q hQ ↦ ?_
  cases hQ
  rw [hx]
  exact htarget

theorem le_of_has {op : Opcode} {operands : Instruction → Prop} (h : U.Has op operands pc pc') :
    pc ≤ pc' := by
  obtain ⟨rfl, -⟩ := h
  exact Nat.le_succ pc

theorem lt_of_wide {op : Opcode} {x : Nat} (h : U.Wide op x pc pc') : pc < U.proto.code.size := by
  obtain ⟨-, i, hi, -⟩ := h
  exact (Array.getElem?_eq_some_iff.mp hi).1

theorem stands_return {n : Nat} {multi : Bool} (h : U.ReturnAt n multi pc pc') (C : List Nat) :
    U.proto.Stands pc' ⟨[], C, false⟩ := by
  obtain ⟨rfl, i, hi, hop, -⟩ := h
  exact Prototype.stands_behind hi hop (.inr rfl) C

theorem safe_return {n : Nat} {multi : Bool} (h : U.ReturnAt n multi pc pc')
    (hP : U.proto.Stands pc ⟨List.replicate n false, C, multi⟩) :
    Safe U.proto U.heap k pc ⟨List.replicate n false, C, multi⟩ := by
  have hneeds : ∀ i, i.opcode? = some .ret → (i.a.toNat = n ∧ (i.b = 0 ↔ multi = false)) →
      U.Grants .ret ⟨List.replicate n false, C, multi⟩ i ⟨[], C, false⟩ := by
    rintro i hop ⟨ha, hb⟩
    have hb' : multi = (i.b != 0) := by
      cases multi with
      | false => simp [hb.mpr rfl]
      | true =>
        have hne : i.b ≠ 0 := fun hzero ↦ nomatch hb.mp hzero
        simp [hne]
    constructor <;> simp [Instruction.takes, hop, ha, hb']
  refine (safe_of_has h hP hneeds (fun _ hret ↦ absurd rfl hret) fun i _ Q hQ ↦ ?_).mono
    (Nat.le_succ k)
  cases hQ

end Home

/-- A loop is safe as long as one round is. -/
theorem safe_of_round {p : Prototype} {h : Heap} {pc k : Nat} {P : Point}
    (hround : ∀ j < k, Safe p h j pc P → Safe p h (j + 1) pc P) : Safe p h k pc P := by
  induction k with
  | zero => trivial
  | succ k ih => exact hround k (Nat.lt_succ_self k) (ih fun j hj ↦ hround j (by omega))

theorem leads_step {U : Home} {locals : List Local} {C : List Nat}
    (hfew : U.proto.protos.size < Instruction.wideLimit) (hbinds : Home.Binds locals C)
    {S : List Bool} {pc pc' : Nat} : ∀ {step : Option Expr}, stepAt U locals step pc pc' →
      U.Leads pc ⟨S, C, false⟩ pc' ⟨false :: S, C, false⟩
  | some step, h => by
    have hstep := step.leads hfew hbinds h (S := S)
    rwa [Expr.left_one] at hstep
  | none, h => Home.leads_loadAt h trivial

namespace Home

variable {U : Home} {O : List Nat} {L : List Local} {C : List Nat} {S : List Bool} {l : Local}

/-- The instructions on the cells of a numeric loop that push nothing. -/
theorem leads_loop {op : Opcode} {c pc pc' : Nat} (hop : op = .forPrep ∨ op = .forStep)
    (h : U.Wide op c pc pc') (hc : c ∈ C ∧ c + 1 ∈ C ∧ c + 2 ∈ C) :
    U.Leads pc ⟨S, C, false⟩ pc' ⟨S, C, false⟩ := by
  obtain rfl | rfl := hop
  · refine leads_of_has h rfl (by decide) fun i hi hx ↦ ?_
    subst hx
    constructor <;> simp [Instruction.takes, hi, hc]
  · refine leads_of_has h rfl (by decide) fun i hi hx ↦ ?_
    subst hx
    constructor <;> simp [Instruction.takes, hi, hc]

/-- The rounds of a numeric loop, from the test on. -/
theorem passes_numericLoop {c again test q₁ q₂ r₁ r₂ last pc' : Nat}
    (hcode : U.proto.code.size < Instruction.wideLimit)
    (hL : c ∈ cellsOf L ∧ c + 1 ∈ cellsOf L ∧ c + 2 ∈ cellsOf L)
    (hlL : c ∈ cellsOf (l :: L) ∧ c + 1 ∈ cellsOf (l :: L) ∧ c + 2 ∈ cellsOf (l :: L))
    (hl : l.cell < U.proto.cellCount) (htest : U.Wide .forTest c again test)
    (hleave : U.Wide .jumpIfFalse pc' test q₁) (hload : U.Wide .getCell c q₁ q₂)
    (hcell : U.Wide .newCell l.cell q₂ r₁)
    (hbody : Passes { U with exit := some pc' } (cellsOf L) r₁ (l :: L) r₂ (l :: L))
    (hforStep : U.Wide .forStep c r₂ last)
    (hback : U.Wide .jump (again % Instruction.wideLimit) last pc') :
    U.Passes O again L pc' L := by
  have htest : U.Leads again ⟨[], cellsOf L, false⟩ test ⟨[false], cellsOf L, false⟩ := by
    refine leads_of_has htest rfl (by decide) fun i hop hx ↦ ?_
    subst hx
    constructor <;> simp [Instruction.takes, hop, hL]
  have hload : U.Leads q₁ ⟨[], cellsOf L, false⟩ q₂ ⟨[false], cellsOf L, false⟩ := by
    refine leads_of_has hload rfl (by decide) fun i hop hx ↦ ?_
    subst hx
    constructor <;> simp [Instruction.takes, hop, hL]
  have hbegin := hload.trans (leads_newCell hcell hl)
  have hforStep := leads_loop (S := []) (.inr rfl) hforStep hlL
  have hle : again ≤ last := (htest.le.trans (le_of_has hleave)).trans
    ((hbegin.le.trans hbody.le).trans hforStep.le)
  rw [Nat.mod_eq_of_lt ((hle.trans_lt (lt_of_wide hback)).trans hcode)] at hback
  refine ⟨hle.trans (le_of_has hback), List.Subset.refl _, fun _ ↦ stands_jump hback _,
    fun k hP _ hsafe ↦ ?_⟩
  have ht := htest.stands hP
  have hq := stands_jumpIfFalse hleave ht
  have hr := hbegin.stands hq
  have hend := hforStep.stands (hbody.stands hr)
  refine safe_of_round fun j hj hagain ↦ htest.safe _ hP ?_
  have hexit := hsafe.mono hj.le
  refine safe_jumpIfFalse hleave ht (hbegin.safe j hq (hbody.safe j hr ?_ ?_)) hexit
  · intro e he
    obtain rfl := Option.some.inj he
    exact hexit
  · have hround := hagain.weaken
      (.ofCells (cellsOf_subset (List.subset_cons_self l L)) false) fun hq ↦ hq
    exact hforStep.safe j (hbody.stands hr)
      ((safe_jump hback hend hround).mono (Nat.le_succ j))

end Home

mutual

theorem Block.passes {U : Home} {O : List Nat} {locals : List Local} {pc pc' : Nat}
    (hcode : U.proto.code.size < Instruction.wideLimit)
    (hfew : U.proto.protos.size < Instruction.wideLimit) (hout : O ⊆ cellsOf locals) :
    ∀ (b : Block), b.At U locals pc pc' → U.Passes O pc locals pc' locals
  | .mk stmts _, h => by
    obtain ⟨locals', h⟩ := h
    exact (stmts_pass hcode hfew stmts hout h).closed

theorem stmts_pass {U : Home} {O : List Nat}
    (hcode : U.proto.code.size < Instruction.wideLimit)
    (hfew : U.proto.protos.size < Instruction.wideLimit) :
    ∀ (stmts : List Stmt) {locals locals' : List Local} {pc pc' : Nat}, O ⊆ cellsOf locals →
      stmtsAt U stmts locals pc locals' pc' → U.Passes O pc locals pc' locals'
  | [], _, _, _, _, _, h => by
    obtain ⟨rfl, rfl⟩ := h
    exact .refl _ _
  | stmt :: rest, _, _, _, _, hout, h => by
    obtain ⟨between, p, hstmt, hrest⟩ := h
    have hstmt := stmt.passes hcode hfew hout hstmt
    exact hstmt.trans (stmts_pass hcode hfew rest
      (List.Subset.trans hout (cellsOf_subset hstmt.more)) hrest)

theorem Stmt.passes {U : Home} {O : List Nat}
    (hcode : U.proto.code.size < Instruction.wideLimit)
    (hfew : U.proto.protos.size < Instruction.wideLimit) :
    ∀ (stmt : Stmt) {locals locals' : List Local} {pc pc' : Nat}, O ⊆ cellsOf locals →
      stmt.At U locals pc locals' pc' → U.Passes O pc locals pc' locals'
  | .declare names values _, locals, locals', pc, pc', _, h => by
    obtain ⟨p, n, multi, cells, hvalues, hdeclares, hcells⟩ := h
    obtain ⟨hlength, hlt, hmore, hfrom⟩ := hdeclares.spec
    obtain ⟨rfl, rfl⟩ := eq_of_exprsAt hvalues
    have hvalues := leads_exprs hfew (binds_cellsOf locals) values hvalues (S := [])
    have hcells := Home.leads_newCellsAt hcells (fun c hc ↦ hlt c (List.mem_reverse.mp hc))
      (S := []) (C := cellsOf locals)
    rw [List.length_reverse, hlength, List.reverse_reverse] at hcells
    refine Home.passes_of_leads (hvalues.trans hcells) hmore fun c hc ↦ ?_
    obtain ⟨l, hl, rfl⟩ := List.mem_map.mp hc
    obtain hl | hl := hfrom l hl
    · exact List.mem_append_right _ (List.mem_map_of_mem hl)
    · exact List.mem_append_left _ hl
  | .declareFunction name body _, locals, locals', pc, pc', _, h => by
    obtain ⟨l, p, q, r, -, hfresh, rfl, hnil, hcell, hbody, hset⟩ := h
    have hnil : U.Leads pc ⟨[], cellsOf locals, false⟩ p ⟨[false], cellsOf locals, false⟩ := by
      refine Home.leads_of_has hnil rfl (by decide) fun i hop ha ↦ ?_
      constructor <;> simp [Instruction.takes, hop, ha]
    have hcell := Home.leads_newCell hcell hfresh.cell_lt (S := []) (C := cellsOf locals)
    have hbody := body.leads hfew (binds_cellsOf (l :: locals)) hbody (S := [])
    have hset : U.Leads r ⟨[false], cellsOf (l :: locals), false⟩ pc'
        ⟨[], cellsOf (l :: locals), false⟩ := by
      refine Home.leads_of_has hset rfl (by decide) fun i hop hx ↦ ?_
      constructor <;> simp [Instruction.takes, hop, hx, cellsOf]
    exact Home.passes_of_leads (((hnil.trans hcell).trans hbody).trans hset)
      (List.subset_cons_self _ _) (List.Subset.refl _)
  | .defineFunction name body _, locals, locals', pc, pc', _, h => by
    obtain ⟨rfl, p, hbody, hdefine⟩ := h
    have hbody := body.leads hfew (binds_cellsOf locals') hbody (S := [])
    have hdefine := Home.leads_defineAt hdefine (binds_cellsOf locals') (S := [])
    exact Home.passes_of_leads (hbody.trans hdefine) (List.Subset.refl _) (List.Subset.refl _)
  | .assign targets values _, locals, locals', pc, pc', _, h => by
    obtain ⟨rfl, p, n, multi, hvalues, htargets⟩ := h
    obtain ⟨rfl, rfl⟩ := eq_of_exprsAt hvalues
    have hvalues := leads_exprs hfew (binds_cellsOf locals') values hvalues (S := [])
    have htargets := leads_targets hfew (binds_cellsOf locals') htargets (S := [])
    exact Home.passes_of_leads (hvalues.trans htargets) (List.Subset.refl _) (List.Subset.refl _)
  | .call call, locals, locals', pc, pc', _, h => by
    obtain ⟨rfl, hcall, h⟩ := h
    have hmulti : call.isMulti = true := by
      cases call <;> simp [Expr.isCall] at hcall <;> rfl
    have hcall := call.leads hfew (binds_cellsOf locals') h (S := [])
    simp only [Expr.left, hmulti] at hcall
    exact Home.passes_of_leads hcall (List.Subset.refl _) (List.Subset.refl _)
  | .block body, locals, locals', pc, pc', hout, h => by
    obtain ⟨rfl, h⟩ := h
    exact body.passes hcode hfew hout h
  | .whileLoop cond body _, locals, locals', pc, pc', _, h => by
    obtain ⟨rfl, p, q, r, hcond, hleave, hbody, hback⟩ := h
    have hcond := cond.leads hfew (binds_cellsOf locals') hcond (S := [])
    have hbody := Block.passes (U := { U with exit := some pc' }) (O := cellsOf locals') hcode hfew
      (List.Subset.refl _) body hbody
    rw [Expr.left_one] at hcond
    have hpc : pc ≤ r := (hcond.le.trans (Home.le_of_has hleave)).trans hbody.le
    rw [Nat.mod_eq_of_lt ((hpc.trans_lt (Home.lt_of_wide hback)).trans hcode)] at hback
    refine ⟨hpc.trans (Home.le_of_has hback), List.Subset.refl _, fun _ ↦ Home.stands_jump hback _,
      fun k hP _ hsafe ↦ ?_⟩
    have hp := hcond.stands hP
    have hq := Home.stands_jumpIfFalse hleave hp
    refine safe_of_round fun j hj hagain ↦ hcond.safe _ hP ?_
    have hend := hsafe.mono hj.le
    have hr := (Home.safe_jump hback (hbody.stands hq) hagain).mono (Nat.le_succ j)
    refine Home.safe_jumpIfFalse hleave hp (hbody.safe j hq (fun e he ↦ ?_) hr) hend
    obtain rfl := Option.some.inj he
    exact hend
  | .repeatLoop (.mk stmts _) cond _, locals, locals', pc, pc', _, h => by
    obtain ⟨rfl, inside, p, q, hbody, hcond, hback⟩ := h
    have hbody := stmts_pass (U := { U with exit := some pc' }) (O := cellsOf locals') hcode hfew
      stmts (List.Subset.refl _) hbody
    have hcond := Expr.leads (U := { U with exit := some pc' }) hfew (binds_cellsOf inside) cond
      hcond (S := [])
    rw [Expr.left_one] at hcond
    have hpc : pc ≤ q := hbody.le.trans hcond.le
    rw [Nat.mod_eq_of_lt ((hpc.trans_lt (Home.lt_of_wide hback)).trans hcode)] at hback
    refine ⟨hpc.trans (Home.le_of_has hback), List.Subset.refl _, fun hP ↦ ?_,
      fun k hP _ hsafe ↦ ?_⟩
    · have hend := Home.stands_jumpIfFalse hback (hcond.stands (hbody.stands hP))
      exact ⟨hend.height, hend.multi⟩
    · have hp := hbody.stands hP
      have hsub := Point.Weaker.ofCells (S := []) (cellsOf_subset hbody.more) false
      refine safe_of_round fun j hj hagain ↦ hbody.safe (j + 1) hP (fun e he ↦ ?_) ?_
      · obtain rfl := Option.some.inj he
        exact hsafe.mono hj
      · have hend := (hsafe.mono hj.le).weaken hsub fun hq ↦ hq
        have hround := hagain.weaken hsub fun hq ↦ hq
        exact hcond.safe (j + 1) hp
          (Home.safe_jumpIfFalse hback (hcond.stands hp) hend hround)
  | .branch branches otherwise _, locals, locals', pc, pc', hout, h => by
    obtain ⟨rfl, p, hbranches, hotherwise⟩ := h
    obtain ⟨hle, hstands, hsafe⟩ := branches_pass hcode hfew hout branches hbranches
    have hotherwise := otherwise_passes hcode hfew hout otherwise hotherwise
    refine ⟨hle.trans hotherwise.le, List.Subset.refl _, fun hP ↦ hotherwise.stands (hstands hP),
      fun k hP hexit hend ↦ ?_⟩
    exact hsafe k hP hexit hend (hotherwise.safe k (hstands hP) hexit hend)
  | .numericFor var start limit step body _, locals, locals', pc, pc', _, h => by
    obtain ⟨rfl, counter, limitCell, stepCell, l, -, -, -, -, hlimitCell, hstepCell, hfresh₁, hfresh₂,
      hfresh₃, hfresh₄, p₁, p₂, p₃, p₄, again, test, q₁, q₂, r₁, r₂, hstart, hlimit, hstep, hcells,
      hprep, htest, hleave, hload, hcell, hbody, last, hforStep, hback⟩ := h
    have hbinds := binds_cellsOf locals'
    have hstart := start.leads hfew hbinds hstart (S := [])
    have hlimit := limit.leads hfew hbinds hlimit (S := [false])
    have hstep := leads_step hfew hbinds hstep (S := [false, false])
    rw [Expr.left_one] at hstart hlimit
    have hcells := Home.leads_newCellsAt hcells (S := []) (C := cellsOf locals') (by
      simp [hfresh₁.cell_lt, hfresh₂.cell_lt, hfresh₃.cell_lt])
    have henter : U.Passes O pc locals' p₄ (stepCell :: limitCell :: counter :: locals') := by
      refine Home.passes_of_leads (((hstart.trans hlimit).trans hstep).trans hcells) ?_ ?_
      · exact fun l hl ↦ by simp [hl]
      · intro c hc
        simp only [cellsOf, List.map_cons, List.mem_cons] at hc
        simp only [List.reverse_cons, List.reverse_nil, List.nil_append, List.cons_append,
          List.mem_cons, cellsOf]
        tauto
    have hcontrol : ∀ L : List Local, stepCell ∈ L → limitCell ∈ L → counter ∈ L →
        counter.cell ∈ cellsOf L ∧ counter.cell + 1 ∈ cellsOf L ∧ counter.cell + 2 ∈ cellsOf L := by
      intro L hs hl hc
      rw [← hlimitCell, ← hstepCell]
      exact ⟨List.mem_map_of_mem hc, List.mem_map_of_mem hl, List.mem_map_of_mem hs⟩
    have hL := hcontrol (stepCell :: limitCell :: counter :: locals') (by simp) (by simp) (by simp)
    have hlL := hcontrol (l :: stepCell :: limitCell :: counter :: locals') (by simp) (by simp)
      (by simp)
    have hprep := Home.leads_loop (S := []) (.inl rfl) hprep hL
    have hprep : U.Passes O p₄ _ again _ :=
      Home.passes_of_leads hprep (List.Subset.refl _) (List.Subset.refl _)
    have hbody := Block.passes (U := { U with exit := some pc' })
      (O := cellsOf (stepCell :: limitCell :: counter :: locals')) hcode hfew
      (cellsOf_subset (List.subset_cons_self _ _)) body hbody
    have hround := Home.passes_numericLoop (O := O) hcode hL hlL hfresh₄.cell_lt htest hleave
      hload hcell hbody hforStep hback
    exact ((henter.trans hprep).trans hround).closed
  | .genericFor .., _, _, _, _, _, h => h.elim
  | .returnValues values _, locals, locals', pc, pc', _, h => by
    obtain ⟨rfl, p, n, multi, hvalues, hreturn⟩ := h
    have hvalues := leads_exprs hfew (binds_cellsOf locals') values hvalues (S := [])
    rw [List.append_nil, List.append_nil] at hvalues
    refine ⟨hvalues.le.trans (Home.le_of_has hreturn), List.Subset.refl _,
      fun _ ↦ Home.stands_return hreturn _, fun k hP _ _ ↦ ?_⟩
    exact hvalues.safe k hP (Home.safe_return hreturn (hvalues.stands hP))
  | .breakLoop _, locals, locals', pc, pc', hout, h => by
    obtain ⟨rfl, exit, hexit, hjump⟩ := h
    refine ⟨Home.le_of_has hjump, List.Subset.refl _, fun _ ↦ Home.stands_jump hjump _,
      fun k hP hexits _ ↦ ?_⟩
    have hsafe := (hexits exit hexit).weaken (.ofCells hout false) fun hq ↦ hq
    exact (Home.safe_jump hjump hP hsafe).mono (Nat.le_succ k)

theorem otherwise_passes {U : Home} {O : List Nat} {locals : List Local} {pc pc' : Nat}
    (hcode : U.proto.code.size < Instruction.wideLimit)
    (hfew : U.proto.protos.size < Instruction.wideLimit) (hout : O ⊆ cellsOf locals) :
    ∀ (otherwise : Option Block), otherwiseAt U locals otherwise pc pc' →
      U.Passes O pc locals pc' locals
  | some block, h => block.passes hcode hfew hout h
  | none, h => by
    obtain rfl := h
    exact .refl _ _

theorem branches_pass {U : Home} {O : List Nat} {locals : List Local} {ends : Nat}
    (hcode : U.proto.code.size < Instruction.wideLimit)
    (hfew : U.proto.protos.size < Instruction.wideLimit) (hout : O ⊆ cellsOf locals) :
    ∀ (branches : List Branch) {more : Bool} {pc pc' : Nat},
      branchesAt U locals ends more branches pc pc' →
      pc ≤ pc' ∧ (U.proto.Stands pc ⟨[], cellsOf locals, false⟩ →
        U.proto.Stands pc' ⟨[], cellsOf locals, false⟩) ∧
      ∀ k, U.proto.Stands pc ⟨[], cellsOf locals, false⟩ →
        (∀ e ∈ U.exit, Safe U.proto U.heap k e ⟨[], O, false⟩) →
        Safe U.proto U.heap k ends ⟨[], cellsOf locals, false⟩ →
        Safe U.proto U.heap k pc' ⟨[], cellsOf locals, false⟩ →
        Safe U.proto U.heap k pc ⟨[], cellsOf locals, false⟩
  | [], _, _, _, h => by
    obtain rfl := h
    exact ⟨Nat.le_refl _, id, fun _ _ _ _ h ↦ h⟩
  | .mk cond body :: rest, more, pc, pc', h => by
    obtain ⟨p, q, r, next, hcond, hskip, hbody, hjump, hrest⟩ := h
    have hcond := cond.leads hfew (binds_cellsOf locals) hcond (S := [])
    have hbody := body.passes hcode hfew hout hbody
    obtain ⟨hle, hstands, hsafe⟩ := branches_pass hcode hfew hout rest hrest
    rw [Expr.left_one] at hcond
    have hr : pc ≤ r := (hcond.le.trans (Home.le_of_has hskip)).trans hbody.le
    have hq (hP : U.proto.Stands pc ⟨[], cellsOf locals, false⟩) :
        U.proto.Stands q ⟨[], cellsOf locals, false⟩ :=
      Home.stands_jumpIfFalse hskip (hcond.stands hP)
    split at hjump
    · subst hjump
      refine ⟨hr.trans hle, fun hP ↦ hstands (hbody.stands (hq hP)), fun k hP hexit hends hend ↦ ?_⟩
      have hnext := hsafe k (hbody.stands (hq hP)) hexit hends hend
      refine hcond.safe k hP ((Home.safe_jumpIfFalse hskip (hcond.stands hP) ?_ hnext).mono
        (Nat.le_succ k))
      exact hbody.safe k (hq hP) hexit hnext
    · have hnext := Home.stands_jump hjump (cellsOf locals)
      refine ⟨(hr.trans (Home.le_of_has hjump)).trans hle, fun _ ↦ hstands hnext,
        fun k hP hexit hends hend ↦ ?_⟩
      have hsafe := hsafe k hnext hexit hends hend
      have hr := (Home.safe_jump hjump (hbody.stands (hq hP)) hends).mono (Nat.le_succ k)
      exact hcond.safe k hP ((Home.safe_jumpIfFalse hskip (hcond.stands hP)
        (hbody.safe k (hq hP) hexit hr) hsafe).mono (Nat.le_succ k))

end

theorem cellsOf_paramLocals {params : List String} {n : Nat}
    (hn : n ∈ cellsOf (paramLocals params)) : n < params.length := by
  obtain ⟨l, hl, rfl⟩ := List.mem_map.mp hn
  simp only [paramLocals, Builder.start, List.mem_reverse, List.mem_map] at hl
  obtain ⟨⟨p, i⟩, hp, rfl⟩ := hl
  have hlt := (List.mem_zipIdx hp).2.1
  dsimp only
  omega

/-- The code of a function is safe from its beginning on. -/
theorem sound_of_laid {p : Prototype} {h : Heap} (hlaid : h.Laid p)
    (hcode : p.code.size < Instruction.wideLimit) (hfew : p.protos.size < Instruction.wideLimit) :
    Sound p h 0 ⟨[], List.range p.arity, false⟩ := by
  obtain ⟨outer, params, variadic, body, hruns⟩ := hlaid
  obtain ⟨e, hbody, hreturn⟩ := hruns.code
  have hbody := body.passes (O := []) hcode hfew (List.nil_subset _) hbody
  have hstart : p.Stands 0 ⟨[], cellsOf (paramLocals params), false⟩ := ⟨rfl, rfl⟩
  intro k
  have hend := Home.safe_return hreturn (hbody.stands hstart) (k := k)
  have hsafe := hbody.safe k hstart (fun _ he ↦ nomatch he) hend
  refine hsafe.weaken (.ofCells (fun n hn ↦ ?_) false) fun hq ↦ hq
  have hn := cellsOf_paramLocals hn
  rw [← hruns.arity] at hn
  exact List.mem_range.mpr hn

end MiniLua
