import MiniLua.Proofs.Code.Jumps
import MiniLua.Proofs.Syntax.Nesting

/-! The code of every syntax tree lies as the tree says. -/

namespace MiniLua

open Effects Emit

variable {α β : Type} {d : Nat}

namespace Lays

/-- The state may be looked at. -/
theorem read {f : Assembly → Emit α} {P : Home → Assembly → α → Assembly → Prop}
    (h : ∀ s, Lays d (f s) P) : Lays d (get >>= f) P := by
  intro s a t hs hm
  obtain ⟨u, v, hu, hm⟩ := bind_eq_ok.mp hm
  obtain ⟨rfl, rfl⟩ : s = u ∧ s = v := by
    injection hu with ha ht
    exact ⟨ha, ht⟩
  exact h s s a t hs hm

variable {m : Emit Unit} {R Q : Home → List Local → Nat → List Local → Nat → Prop}

theorem toScoped {P : Unit → Home → List Local → Nat → Nat → Prop} (h : Lays d m (Placed P)) :
    Lays d m (Scoped fun U locals pc locals' pc' ↦ locals' = locals ∧ P ⟨⟩ U locals pc pc') :=
  h.mono fun _ _ _ _ hP ↦ ⟨⟨hP.2.locals, hP.1⟩, hP.2.more⟩

/-- One statement behind another. -/
theorem andThen {k : Emit Unit} (h : Lays d m (Scoped R)) (hk : Lays d k (Scoped Q)) :
    Lays d (m >>= fun _ ↦ k) (Scoped fun U locals pc locals' pc' ↦
      ∃ between p, R U locals pc between p ∧ Q U between p locals' pc') := by
  refine (h.bind fun _ ↦ hk).mono ?_
  rintro U s - t ⟨-, u, ⟨hR, hu⟩, hQ, ht⟩
  exact ⟨⟨_, _, hR, hQ⟩, hu.trans ht⟩

theorem scopedLine (h : Lays d m (Scoped R)) (pos : Position) :
    Lays d (setLine pos >>= fun _ ↦ m) (Scoped R) := by
  refine ((lays_setLine pos).toScoped.andThen h).mono ?_
  rintro U s - t ⟨⟨_, _, ⟨rfl, rfl⟩, hR⟩, ht⟩
  exact ⟨hR, ht⟩

theorem scopedImp (h : Lays d m (Scoped R))
    (hRQ : ∀ U locals pc locals' pc', R U locals pc locals' pc' → Q U locals pc locals' pc') :
    Lays d m (Scoped Q) :=
  h.mono fun _ _ _ _ hR ↦ ⟨hRQ _ _ _ _ _ hR.1, hR.2⟩

end Lays

theorem lays_declares (names : List String) :
    Lays d (names.mapM declare) fun U s cells t ↦
      U.Declares names cells s.current.locals t.current.locals ∧
        t.current.code.size = s.current.code.size ∧ s.MoreScope t ∧
        ∀ cell ∈ cells, cell < Instruction.wideLimit := by
  induction names with
  | nil =>
    refine (Lays.pure _).mono ?_
    rintro U s cells t ⟨rfl, rfl⟩
    exact ⟨⟨rfl, rfl⟩, rfl, (Assembly.SameScope.refl _).more, fun _ h ↦ nomatch h⟩
  | cons name names ih =>
    rw [List.mapM_cons]
    refine ((lays_declare name).bind fun cell ↦ ih.bind fun cells ↦ Lays.pure (cell :: cells)).mono
      ?_
    rintro U s cells t ⟨cell, u, hcell, rest, v, ⟨hrest, hsize, hscope, hsmall⟩, rfl, rfl⟩
    rw [hcell.locals] at hrest
    refine ⟨⟨_, rest, rfl, hcell.fresh, rfl, hrest⟩, hsize.trans hcell.size,
      hcell.more.trans hscope, List.forall_mem_cons.mpr ⟨?_, hsmall⟩⟩
    exact hcell.small.trans (by decide)

theorem lays_newCells (cells : List Nat) :
    Lays d (cells.forM (opX .newCell)) (Placed fun _ U _ pc pc' ↦
      (∀ cell ∈ cells, cell < Instruction.wideLimit) → U.NewCellsAt cells pc pc') := by
  induction cells with
  | nil => exact (Lays.value _).imp fun _ _ _ _ _ h _ ↦ h.2
  | cons cell cells ih =>
    refine ((lays_opX .newCell cell).seq fun _ ↦ ih).imp ?_
    rintro - U locals pc pc' ⟨-, p, hat, hrest⟩ hsmall
    obtain ⟨hcell, hcells⟩ := List.forall_mem_cons.mp hsmall
    rw [Nat.mod_eq_of_lt hcell] at hat
    exact ⟨p, hat, hrest hcells⟩

theorem lays_path (keys : List String) :
    Lays d (keys.forM fun key ↦ do
      opX .loadConst (← textConstant key)
      op .getIndex) (Placed fun _ U _ ↦ U.PathAt keys) := by
  induction keys with
  | nil => exact (Lays.value _).imp fun _ _ _ _ _ h ↦ h.2
  | cons key keys ih =>
    have hkey := (lays_opText (d := d) .loadConst (Bytes.ofText key)).seq fun _ ↦ lays_op .getIndex
    rw [bind_assoc] at hkey
    refine (hkey.seq fun _ ↦ ih).imp ?_
    rintro - U locals pc pc' ⟨-, q, ⟨-, p, hkey, hop⟩, hrest⟩
    exact ⟨p, q, hkey, hop, hrest⟩

/-- What `function` statements do with the function. -/
def storeDefined (name : FunctionName) : Emit Unit := do
  let keys := name.fields ++ name.method.toList
  match keys.getLast? with
  | none => storeName name.first
  | some last =>
    loadName name.first
    keys.dropLast.forM fun key ↦ do
      opX .loadConst (← textConstant key)
      op .getIndex
    opX .loadConst (← textConstant last)
    op .setIndex

theorem lays_storeDefined (name : FunctionName) :
    Lays d (storeDefined name) (Placed fun _ U locals ↦ U.DefineAt locals name) := by
  unfold storeDefined Home.DefineAt
  dsimp only
  cases (name.fields ++ name.method.toList).getLast? with
  | none => exact lays_storeName name.first
  | some last =>
    have hlast := (lays_opText (d := d) .loadConst (Bytes.ofText last)).seq fun _ ↦ lays_op .setIndex
    rw [bind_assoc] at hlast
    refine ((lays_loadName name.first).seq fun _ ↦ (lays_path _).seq fun _ ↦ hlast).imp ?_
    rintro - U locals pc pc' ⟨-, p, hfirst, -, q, hpath, -, r, hkey, hop⟩
    exact ⟨p, q, r, hfirst, hpath, hkey, hop⟩

/-- A jump out of the innermost loop. -/
theorem lays_leaveLoop (line : Nat) :
    Lays d (leaveLoop line) (Placed fun _ U _ pc pc' ↦
      ∃ exit, U.exit = some exit ∧ U.Wide .jump exit pc pc') := by
  intro s a t hs hm
  unfold leaveLoop at hm
  obtain ⟨loops, u, hu, hm⟩ := bind_eq_ok.mp hm
  obtain ⟨rfl, rfl⟩ : s.current.loops = loops ∧ s = u := by
    injection hu with ha ht
    exact ⟨ha, ht⟩
  cases hloops : s.current.loops with
  | nil =>
    rw [hloops] at hm
    exact absurd hm throw_ne_ok
  | cons jumps outer =>
    rw [hloops] at hm
    obtain ⟨exit, u, hu, hm⟩ := bind_eq_ok.mp hm
    obtain ⟨hsu, rfl, hpending⟩ := pending_of_jump (d := d) hu
    have hi : u.current.code[s.current.code.size]? = some (.wide Opcode.jump.byte 0) := by
      rw [(jump_eq_ok hu).2]
      exact Array.getElem?_push_size
    obtain rfl : { u with
        current := { u.current with loops := (s.current.code.size :: jumps) :: outer } } = t := by
      injection hm
    refine ⟨hsu.trans (.leave (Nat.le_refl _) hi rfl (hpending.loops.trans hloops)),
      fun U holes _ hU ↦ ⟨?_, hpending.same.locals, hpending.same.depth⟩⟩
    obtain ⟨exit, hexit, hwide⟩ := hU.exits s.current.code.size List.mem_cons_self
    refine ⟨exit, hexit, ?_⟩
    rwa [← hpending.size] at hwide

theorem isNumber_of_negatedLiteral {o : UnaryOp} {e : Expr} {v : Value}
    (h : negatedLiteral? o e = some v) : v.IsNumber := by
  unfold negatedLiteral? at h
  split at h
  · obtain ⟨i, -, rfl⟩ := Option.map_eq_some_iff.mp h
    trivial
  · cases h
    trivial
  · cases h

mutual

theorem Expr.lays : ∀ (e : Expr) {d : Nat} (want : Want), e.Nests d →
    Lays d (e.emit want) (Placed fun _ U locals ↦ e.At U locals want)
  | .nil _, _, _, _ => lays_opA .loadNil (by omega)
  | .bool true _, _, _, _ => lays_op .loadTrue
  | .bool false _, _, _, _ => lays_op .loadFalse
  | .int _ _, _, _, _ => lays_loadConst trivial
  | .float _ _, _, _, _ => lays_loadConst trivial
  | .string s _, _, _, _ => lays_opText .loadConst s
  | .varargs pos, _, want, _ => lays_emitVarargs want pos
  | .name name pos, _, _, _ => Lays.line (lays_loadName name) pos
  | .index object key pos, _, _, hn => by
    unfold Expr.emit
    refine ((object.lays (.exactly 1) hn.1).seq fun _ ↦ (key.lays (.exactly 1) hn.2).seq fun _ ↦
      (lays_op .getIndex).line pos).imp ?_
    rintro - U locals pc pc' ⟨-, p, hobject, -, q, hkey, hop⟩
    exact ⟨p, q, hobject, hkey, hop⟩
  | .call callee args pos, _, want, hn => by
    unfold Expr.emit
    refine ((callee.lays (.exactly 1) hn.1).seq fun _ ↦ (lays_exprs .all 0 args hn.2).seq fun r ↦
      lays_emitCall r.1 r.2 want pos).imp ?_
    rintro - U locals pc pc' ⟨-, p, hcallee, ⟨n, multi⟩, q, hargs, hcall⟩
    exact ⟨p, q, n, multi, hcallee, hargs, hcall⟩
  | .method object name args pos, _, want, hn => by
    unfold Expr.emit
    refine ((object.lays (.exactly 1) hn.1).seq fun _ ↦
      (lays_stringConstant (Bytes.ofText name)).seq fun key ↦
      Lays.line ((lays_opX .self key).seq fun _ ↦ (lays_exprs .all 0 args hn.2).seq fun r ↦
        lays_emitCall (r.1 + 1) r.2 want pos) pos).imp ?_
    rintro - U locals pc pc' ⟨-, p, hobject, k, _, ⟨hk, hlt, rfl⟩, -, q, hself, ⟨n, multi⟩, r,
      hargs, hcall⟩
    rw [Nat.mod_eq_of_lt hlt] at hself
    exact ⟨_, q, r, k, n, multi, hobject, hk, hself, hargs, hcall⟩
  | .function body, _, _, hn => body.lays none hn
  | .table fields pos, _, _, hn => by
    unfold Expr.emit
    refine (Lays.line ((lays_op .newTable).seq fun _ ↦ lays_fields 1 fields hn) pos).imp ?_
    rintro - U locals pc pc' ⟨-, p, hnew, hfields⟩
    exact ⟨p, hnew, hfields⟩
  | .binary o lhs rhs pos, _, _, hn => by
    unfold Expr.emit
    cases hcode : o.opcode? with
    | some code =>
      refine ((lhs.lays (.exactly 1) hn.1).seq fun _ ↦ (rhs.lays (.exactly 1) hn.2).seq fun _ ↦
        (lays_op code).line pos).imp ?_
      rintro - U locals pc pc' ⟨-, p, hlhs, -, q, hrhs, hop⟩
      rw [Expr.At, hcode]
      exact ⟨p, q, hlhs, hrhs, hop⟩
    | none =>
      refine ((lhs.lays (.exactly 1) hn.1).seq fun _ ↦
        (rhs.lays (.exactly 1) hn.2).jumpOver o.shortcut).imp ?_
      rintro - U locals pc pc' ⟨-, p, hlhs, q, hjump, hrhs⟩
      rw [Expr.At, hcode]
      exact ⟨p, q, hlhs, hjump, hrhs⟩
  | .unary o operand pos, _, _, hn => by
    unfold Expr.emit
    cases hliteral : negatedLiteral? o operand with
    | some v =>
      refine (lays_loadConst (isNumber_of_negatedLiteral hliteral)).imp ?_
      rintro - U locals pc pc' hload
      rwa [Expr.At, hliteral]
    | none =>
      refine ((operand.lays (.exactly 1) hn).seq fun _ ↦ (lays_op o.opcode).line pos).imp ?_
      rintro - U locals pc pc' ⟨-, p, hoperand, hop⟩
      rw [Expr.At, hliteral]
      exact ⟨p, hoperand, hop⟩
  | .paren inner _, _, _, hn => inner.lays (.exactly 1) hn

theorem lays_exprs : ∀ (want : Want) (pushed : Nat) (es : List Expr) {d : Nat}, exprsNest es d →
    Lays d (emitExprs want pushed es) (Placed fun r U locals pc pc' ↦
      exprsAt U locals want pushed es pc pc' r.1 r.2)
  | want, pushed, [], _, _ => by
    unfold emitExprs
    refine ((lays_adjust pushed want).seq fun n ↦ Lays.value (n, false)).imp ?_
    rintro r U locals pc pc' ⟨n, p, hadjust, rfl, rfl⟩
    exact ⟨hadjust, rfl⟩
  | want, pushed, e :: rest, _, hn => by
    unfold emitExprs exprsAt
    split
    · cases want with
      | all =>
        refine ((e.lays .all hn.1).seq fun _ ↦ Lays.value (pushed, true)).imp ?_
        rintro r U locals pc pc' ⟨-, p, he, rfl, rfl⟩
        exact ⟨he, rfl, rfl⟩
      | exactly n =>
        refine ((e.lays (.exactly (n - pushed)) hn.1).seq fun _ ↦
          (lays_adjust (pushed + (n - pushed)) (.exactly n)).seq fun m ↦
            Lays.value (m, false)).imp ?_
        rintro r U locals pc pc' ⟨-, p, he, m, q, hadjust, rfl, rfl⟩
        exact ⟨p, he, hadjust, rfl⟩
    · refine ((e.lays (.exactly 1) hn.1).seq fun _ ↦ lays_exprs want (pushed + 1) rest hn.2).imp ?_
      rintro r U locals pc pc' ⟨-, p, he, hrest⟩
      exact ⟨p, he, hrest⟩

theorem lays_fields : ∀ (next : Nat) (fields : List Field) {d : Nat}, fieldsNest fields d →
    Lays d (emitFields next fields) (Placed fun _ U locals ↦ fieldsAt U locals next fields)
  | _, [], _, _ => (Lays.value _).imp fun _ _ _ _ _ h ↦ h.2
  | next, .item value :: rest, _, hn => by
    unfold emitFields
    split
    · next hlast =>
      refine ((value.lays .all hn.1).seq fun _ ↦ lays_opX .setList next).imp ?_
      rintro - U locals pc pc' ⟨-, p, hvalue, hset⟩
      rw [fieldsAt, if_pos hlast]
      exact ⟨p, hvalue, hset⟩
    · next hlast =>
      refine ((lays_loadConst (v := .int _) trivial).seq fun _ ↦ (value.lays (.exactly 1) hn.1).seq fun _ ↦
        (lays_op .initIndex).seq fun _ ↦ lays_fields (next + 1) rest hn.2).imp ?_
      rintro - U locals pc pc' ⟨-, p, hkey, -, q, hvalue, -, r, hop, hrest⟩
      rw [fieldsAt, if_neg hlast]
      exact ⟨p, q, r, hkey, hvalue, hop, hrest⟩
  | next, .entry key value :: rest, _, hn => by
    unfold emitFields
    refine ((key.lays (.exactly 1) hn.1.1).seq fun _ ↦ (value.lays (.exactly 1) hn.1.2).seq fun _ ↦
      (lays_op .initIndex).seq fun _ ↦ lays_fields next rest hn.2).imp ?_
    rintro - U locals pc pc' ⟨-, p, hkey, -, q, hvalue, -, r, hop, hrest⟩
    exact ⟨p, q, r, hkey, hvalue, hop, hrest⟩

theorem FunctionBody.lays : ∀ (body : FunctionBody) {d : Nat} (name : Option String),
    body.Nests d → Lays d (body.emit name) (Placed fun _ U locals ↦ body.At U locals)
  | .mk _ _ _ _, 0, _, hn => hn.elim
  | .mk params variadic body pos, d + 1, name, hn => by
    unfold FunctionBody.emit
    dsimp only
    split
    · exact Lays.fault_bind _ _ _
    · next few =>
      exact Lays.read fun _ ↦ lays_nested (Nat.le_of_not_lt few) hn (body.lays hn)

theorem Block.lays : ∀ (b : Block) {d : Nat}, b.Nests d →
    Lays d b.emit (Placed fun _ U locals ↦ b.At U locals)
  | .mk stmts _, _, hn => lays_inScope (lays_stmts stmts hn)

theorem lays_stmts : ∀ (stmts : List Stmt) {d : Nat}, stmtsNest stmts d →
    Lays d (emitStmts stmts) (Scoped fun U ↦ stmtsAt U stmts)
  | [], _, _ => (Lays.value _).toScoped.scopedImp fun _ _ _ _ _ h ↦ ⟨h.1, h.2.2⟩
  | stmt :: rest, _, hn => (stmt.lays hn.1).andThen (lays_stmts rest hn.2)

theorem Stmt.lays : ∀ (stmt : Stmt) {d : Nat}, stmt.Nests d →
    Lays d stmt.emit (Scoped fun U ↦ stmt.At U)
  | .declare names values pos, _, hn => by
    unfold Stmt.emit
    refine Lays.scopedLine (Lays.mono ((lays_exprs (.exactly names.length) 0 values hn).bind
      fun _ ↦ (lays_declares names).bind fun cells ↦ lays_newCells cells.reverse) ?_) pos
    rintro U s - t ⟨⟨n, multi⟩, u, ⟨hvalues, hu⟩, cells, v, ⟨hdeclares, hsize, hv, hsmall⟩, hcells,
      ht⟩
    have hcells := hcells fun cell hcell ↦ hsmall cell (List.mem_reverse.mp hcell)
    rw [hsize] at hcells
    rw [hu.locals, ← ht.locals] at hdeclares
    exact ⟨⟨_, n, multi, cells, hvalues, hdeclares, hcells⟩, hu.more.trans (hv.trans ht.more)⟩
  | .declareFunction name body pos, _, hn => by
    unfold Stmt.emit
    refine Lays.scopedLine (Lays.mono ((lays_declare name).bind fun cell ↦
      (lays_opA .loadNil (by omega : 1 ≤ 255)).seq fun _ ↦ (lays_opX .newCell cell).seq fun _ ↦
        (body.lays (some name) hn).seq fun _ ↦ lays_opX .setCell cell) ?_) pos
    rintro U s - t ⟨cell, u, hcell, ⟨-, p, hnil, -, q, hnew, -, r, hbody, hset⟩, ht⟩
    rw [Nat.mod_eq_of_lt (hcell.small.trans (by decide))] at hnew hset
    rw [hcell.size] at hnil
    rw [hcell.locals] at hbody
    exact ⟨⟨_, p, q, r, rfl, hcell.fresh, ht.locals.trans hcell.locals, hnil, hnew, hbody, hset⟩,
      hcell.more.trans ht.more⟩
  | .defineFunction name body pos, _, hn => by
    unfold Stmt.emit
    refine Lays.scopedLine (Lays.toScoped
      ((body.lays (some name.display) hn).seq fun _ ↦ lays_storeDefined name)) pos |>.scopedImp ?_
    rintro U locals pc locals' pc' ⟨rfl, -, p, hbody, hname⟩
    exact ⟨rfl, p, hbody, hname⟩
  | .assign targets values pos, _, hn => by
    unfold Stmt.emit
    refine ((((lays_exprs (.exactly targets.length) 0 values hn.2).seq fun _ ↦
      lays_targets targets hn.1).toScoped).scopedLine pos).scopedImp ?_
    rintro U locals pc locals' pc' ⟨rfl, ⟨n, multi⟩, p, hvalues, htargets⟩
    exact ⟨rfl, p, n, multi, hvalues, htargets⟩
  | .call call, _, hn => by
    unfold Stmt.emit
    refine Lays.scopedLine ?_ call.pos
    split
    · next hcall =>
      refine (call.lays (.exactly 0) hn).toScoped.scopedImp ?_
      rintro U locals pc locals' pc' ⟨rfl, hat⟩
      exact ⟨rfl, hcall, hat⟩
    · exact Lays.fault _ _
  | .block body, _, hn => (body.lays hn).toScoped.scopedLine body.pos
  | .whileLoop cond body pos, _, hn => by
    unfold Stmt.emit
    have hloop (start : Nat) := Lays.loopedOver .jumpIfFalse
      ((body.lays hn.2).seq fun _ ↦ lays_opX .jump start)
    simp only [bind_assoc] at hloop
    refine ((lays_here.seq fun start ↦ (cond.lays (.exactly 1) hn.1).seq fun _ ↦
      hloop start).toScoped.scopedLine pos).scopedImp ?_
    rintro U locals pc locals' pc' ⟨rfl, _, _, ⟨rfl, rfl⟩, -, p, hcond, q, hexit, -, r, hbody,
      hback⟩
    exact ⟨rfl, p, q, r, hcond, hexit, hbody, hback⟩
  | .repeatLoop (.mk stmts _) cond pos, _, hn => by
    unfold Stmt.emit
    refine ((lays_here.seq fun start ↦ lays_looped (lays_inScope ((lays_stmts stmts hn.1).andThen
      (((cond.lays (.exactly 1) hn.2).seq fun _ ↦
        lays_opX .jumpIfFalse start).toScoped)))).toScoped.scopedLine pos).scopedImp ?_
    rintro U locals pc locals' pc' ⟨rfl, _, _, ⟨rfl, rfl⟩, _, _, p, hstmts, rfl, -, q, hcond, hback⟩
    exact ⟨rfl, _, p, q, hstmts, hcond, hback⟩
  | .branch branches otherwise pos, _, hn => by
    unfold Stmt.emit
    exact ((lays_branches otherwise.isSome branches hn.1).landed
      (lays_otherwise otherwise hn.2)).toScoped.scopedLine pos
  | .numericFor var start limit step body pos, d, hn => by
    have hbody (base : Nat) : Lays d
        (do
          let cell ← declare var
          opX .getCell base
          opX .newCell cell
          body.emit)
        (Scoped fun U locals pc locals' pc' ↦ ∃ l q r, l.name = var ∧ U.Fresh locals l ∧
          locals' = l :: locals ∧ U.Wide .getCell (base % Instruction.wideLimit) pc q ∧
          U.Wide .newCell l.cell q r ∧ body.At U (l :: locals) r pc') := by
      refine ((lays_declare var).bind fun cell ↦ (lays_opX .getCell base).seq fun _ ↦
        (lays_opX .newCell cell).seq fun _ ↦ body.lays hn.2.2.2).mono ?_
      rintro U s - t ⟨cell, u, hcell, ⟨-, q, hget, -, r, hnew, hbody⟩, ht⟩
      rw [Nat.mod_eq_of_lt (hcell.small.trans (by decide))] at hnew
      rw [hcell.size] at hget
      rw [hcell.locals] at hbody
      exact ⟨⟨_, q, r, rfl, hcell.fresh, ht.locals.trans hcell.locals, hget, hnew, hbody⟩,
        hcell.more.trans ht.more⟩
    have hloop (base again : Nat) := Lays.loopedOver .jumpIfFalse
      ((lays_inScope (hbody base)).seq fun _ ↦ (lays_opX .forStep base).seq fun _ ↦
        lays_opX .jump again)
    simp only [bind_assoc] at hloop
    have hrest (base limitCell stepCell : Nat) :=
      (lays_opX (d := d) .newCell stepCell).seq fun _ ↦ (lays_opX .newCell limitCell).seq fun _ ↦
        (lays_opX .newCell base).seq fun _ ↦ (lays_opX .forPrep base).seq fun _ ↦
          lays_here.seq fun again ↦ (lays_opX .forTest base).seq fun _ ↦ hloop base again
    have hall := ((start.lays (.exactly 1) hn.1).seq fun _ ↦ (limit.lays (.exactly 1) hn.2.1).seq
      fun _ ↦ lays_step step hn.2.2.1).bind fun _ ↦ (lays_declare "(for index)").bind fun base ↦
        (lays_declare "(for limit)").bind fun limitCell ↦ (lays_declare "(for step)").bind
          fun stepCell ↦ hrest base limitCell stepCell
    simp only [bind_assoc] at hall
    unfold Stmt.emit
    refine ((lays_inScope (R := fun U locals pc _ pc' ↦ Stmt.At U
      (.numericFor var start limit step body pos) locals pc locals pc')
        (hall.mono ?_)).toScoped.scopedLine pos).scopedImp ?_
    · rintro U s - t ⟨-, s₁, ⟨⟨-, p₁, hstart, -, p₂, hlimit, hstep⟩, hscope⟩, base, s₂, hbase,
        limitCell, s₃, hlimitCell, stepCell, s₄, hstepCell, ⟨-, q₁, hnewStep, -, q₂, hnewLimit, -,
        q₃, hnewBase, -, _, hprep, _, _, ⟨rfl, rfl⟩, -, test, htest, q₄, hexit, -, r, ⟨_, l, q₅,
        q₆, hname, hfresh, -, hget, hnew, hbody⟩, -, last, hforStep, hback⟩, ht⟩
      rw [Nat.mod_eq_of_lt (hbase.small.trans (by decide))] at hnewBase hprep htest hget hforStep
      rw [Nat.mod_eq_of_lt (hlimitCell.small.trans (by decide))] at hnewLimit
      rw [Nat.mod_eq_of_lt (hstepCell.small.trans (by decide))] at hnewStep
      rw [hstepCell.locals, hlimitCell.locals, hbase.locals, hscope.locals] at hfresh hbody
      rw [hstepCell.size, hlimitCell.size, hbase.size] at hnewStep
      have hbaseFresh := hbase.fresh
      have hlimitFresh := hlimitCell.fresh
      have hstepFresh := hstepCell.fresh
      rw [hlimitCell.locals, hbase.locals, hscope.locals] at hstepFresh
      rw [hbase.locals, hscope.locals] at hlimitFresh
      rw [hscope.locals] at hbaseFresh
      have hnext : limitCell = base + 1 := hlimitCell.isNext.trans hbase.next
      have hnext' : stepCell = base + 2 := by rw [hstepCell.isNext, hlimitCell.next, hnext]
      refine ⟨⟨rfl, _, _, _, l, rfl, rfl, rfl, hname, hnext, hnext', hbaseFresh, hlimitFresh,
        hstepFresh, ⟨hfresh.cell_ne, hfresh.cell_lt⟩, p₁, p₂, _, q₃, _, test, q₄, q₅, q₆, r, hstart, hlimit, hstep,
        ⟨q₁, hnewStep, q₂, hnewLimit, q₃, hnewBase, rfl⟩, hprep, htest, hexit, hget, hnew, hbody,
        last, hforStep, hback⟩, ?_⟩
      exact hscope.more.trans (hbase.more.trans (hlimitCell.more.trans
        (hstepCell.more.trans ht.more)))
    · rintro U locals pc locals' pc' ⟨rfl, -, hat⟩
      exact hat
  | .genericFor _ _ _ pos, _, _ => Lays.scopedLine (Lays.fault _ _) pos
  | .returnValues values pos, _, hn => by
    unfold Stmt.emit
    refine Lays.scopedImp (Lays.scopedLine (Lays.toScoped ((lays_exprs .all 0 values hn).seq
      (Q := fun r _ U _ ↦ U.ReturnAt r.1 r.2) fun r ↦ ?_)) pos) ?_
    · dsimp only
      split
      · exact Lays.fault_bind _ _ _
      · next few => exact (lays_ret r.2 (Nat.le_of_not_lt few)).line pos
    · rintro U locals pc locals' pc' ⟨rfl, ⟨n, multi⟩, p, hvalues, hret⟩
      exact ⟨rfl, p, n, multi, hvalues, hret⟩
  | .breakLoop pos, _, _ => (lays_leaveLoop pos.codeLine).toScoped.scopedLine pos

theorem lays_step : ∀ (step : Option Expr) {d : Nat}, stepNests step d →
    Lays d (emitStep step) (Placed fun _ U locals ↦ stepAt U locals step)
  | some step, _, hn => step.lays (.exactly 1) hn
  | none, _, _ => lays_loadConst trivial

theorem lays_otherwise : ∀ (otherwise : Option Block) {d : Nat}, otherwiseNests otherwise d →
    Lays d (emitOtherwise otherwise) (Placed fun _ U locals ↦ otherwiseAt U locals otherwise)
  | some block, _, hn => block.lays hn
  | none, _, _ => (Lays.value _).imp fun _ _ _ _ _ h ↦ h.2

theorem lays_branches : ∀ (more : Bool) (branches : List Branch) {d : Nat},
    branchesNest branches d → LaysEnds d (emitBranches more branches) fun target U locals ↦
      branchesAt U locals target more branches
  | _, [], _, _ => (LaysEnds.none (Lays.value ⟨⟩)).imp fun _ _ _ _ _ h ↦ h.2
  | more, .mk cond body :: rest, d, hn => by
    have hbody : LaysEnds d
        (do
          body.emit
          if rest.isEmpty && !more then pure [] else List.singleton <$> jump .jump)
        (fun target U locals pc pc' ↦ ∃ p, body.At U locals pc p ∧
          if rest.isEmpty && !more then pc' = p else U.Wide .jump target p pc') := by
      split
      · exact (LaysEnds.none (body.lays hn.1.2)).imp fun _ _ _ _ _ h ↦ ⟨_, h, rfl⟩
      · exact LaysEnds.one (body.lays hn.1.2)
    have hall := LaysEnds.after (cond.lays (.exactly 1) hn.1.1) fun _ ↦
      (hbody.jumpOver .jumpIfFalse).append (lays_branches more rest hn.2)
    have hsame : emitBranches more (.mk cond body :: rest) = (do
        cond.emit (.exactly 1)
        let ends ← (do
          let at_ ← jump .jumpIfFalse
          let ends ← (do
            body.emit
            if rest.isEmpty && !more then pure [] else List.singleton <$> jump .jump)
          land at_
          return ends)
        return ends ++ (← emitBranches more rest)) := by
      rw [emitBranches]
      cases rest.isEmpty && !more <;> simp [bind_assoc]
    rw [hsame]
    refine hall.imp ?_
    rintro target U locals pc pc' ⟨-, p, hcond, next, ⟨q, hskip, r, hbody, hends⟩, hrest⟩
    exact ⟨p, q, r, next, hcond, hskip, hbody, hends, hrest⟩

theorem lays_targets : ∀ (targets : List Expr) {d : Nat}, exprsNest targets d →
    Lays d (storeTargets targets) (Placed fun _ U locals ↦ targetsAt U locals targets)
  | [], _, _ => (Lays.value _).imp fun _ _ _ _ _ h ↦ h.2
  | target :: rest, _, hn => by
    unfold storeTargets
    refine ((lays_targets rest hn.2).seq fun _ ↦ target.lays_target hn.1).imp ?_
    rintro - U locals pc pc' ⟨-, p, hrest, htarget⟩
    exact ⟨p, hrest, htarget⟩

theorem Expr.lays_target : ∀ (target : Expr) {d : Nat}, target.Nests d →
    Lays d (storeTarget target) (Placed fun _ U locals ↦ target.TargetAt U locals)
  | .name name pos, _, _ => Lays.line (lays_storeName name) pos
  | .index object key pos, _, hn => by
    unfold storeTarget
    refine ((object.lays (.exactly 1) hn.1).seq fun _ ↦ (key.lays (.exactly 1) hn.2).seq fun _ ↦
      (lays_op .setIndex).line pos).imp ?_
    rintro - U locals pc pc' ⟨-, p, hobject, -, q, hkey, hop⟩
    exact ⟨p, q, hobject, hkey, hop⟩
  | .nil _, _, _ | .bool _ _, _, _ | .int _ _, _, _ | .float _ _, _, _ | .string _ _, _, _
  | .varargs _, _, _ | .call _ _ _, _, _ | .method _ _ _ _, _, _ | .function _, _, _
  | .table _ _, _, _ | .binary _ _ _ _, _, _ | .unary _ _ _, _, _ | .paren _ _, _, _ =>
    Lays.fault _ _

end

end MiniLua
