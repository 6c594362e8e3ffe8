import MiniLua.Proofs.Instances.Texts
import MiniLua.Proofs.Meaning.Meets

/-!
Where the numeric loops of a function lie in its code. The code of a loop's body gives no new cell to the
slots that the loop counts in, and no other loop counts there.
-/

namespace MiniLua

namespace Prototype

variable (p : Prototype)

/-- The instruction at `pc` is this one, with this operand. -/
def Has (pc : Nat) (op : Opcode) (x : Nat) : Prop :=
  ∃ i, p.code[pc]? = some i ∧ i.opcode? = some op ∧ i.x = x

/-- The instruction at `pc` does not give the slot a new cell, and no loop counts in it there. -/
def Spares (pc slot : Nat) : Prop :=
  ∀ op x, p.Has pc op x → (op = .newCell → slot ≠ x) ∧ (op.counts → slot < x ∨ x + 2 < slot)

/-- A numeric loop, from where its three values are on the stack. They get the cells in the slots from
`x` on, the limit behind the counter and the step behind that. Each round has a new cell for its variable
in the slot `var`, and its body ends at `last`. -/
structure IsLoop (start x var last : Nat) : Prop where
  newStep : p.Has start .newCell (x + 2)
  newLimit : p.Has (start + 1) .newCell (x + 1)
  newCounter : p.Has (start + 2) .newCell x
  prepare : p.Has (start + 3) .forPrep x
  test : p.Has (start + 4) .forTest x
  leave : p.Has (start + 5) .jumpIfFalse (last + 2)
  load : p.Has (start + 6) .getCell x
  newVar : p.Has (start + 7) .newCell var
  advance : p.Has last .forStep x
  back : p.Has (last + 1) .jump (start + 4)
  body : start + 8 ≤ last
  inside : ∀ pc, start + 8 ≤ pc → pc < last → ∀ slot, x ≤ slot → slot ≤ x + 2 → p.Spares pc slot
  apart : ∀ slot, x ≤ slot → slot ≤ x + 2 → slot ≠ var
  slots : x + 2 < p.cellCount
  slot : var < p.cellCount

/-- The code from `lo` to `hi` spares the slots of these locals, and its loops are loops of the text. -/
def Span (locals : List Local) (lo hi : Nat) : Prop :=
  ∀ pc, lo ≤ pc → pc < hi → (∀ l ∈ locals, p.Spares pc l.cell) ∧
    ∀ x, p.Has pc .forPrep x → ∃ start var last, pc = start + 3 ∧ p.IsLoop start x var last

variable {p} {locals locals' : List Local} {pc lo mid hi x y : Nat} {op op' : Opcode}

theorem Has.unique (h : p.Has pc op x) (h' : p.Has pc op' y) : op = op' ∧ x = y := by
  obtain ⟨i, hi, hop, hx⟩ := h
  obtain ⟨j, hj, hop', hy⟩ := h'
  obtain rfl : i = j := Option.some.inj (hi.symm.trans hj)
  exact ⟨Option.some.inj (hop.symm.trans hop'), hx.symm.trans hy⟩

theorem Has.lt (h : p.Has pc op x) : pc < p.code.size := by
  obtain ⟨i, hi, -⟩ := h
  exact (Array.getElem?_eq_some_iff.mp hi).1

theorem Has.wide {U : Home} (h : U.proto.Has pc op x) : U.Wide op x pc (pc + 1) := ⟨rfl, h⟩

namespace Span

theorem nil (pc : Nat) : p.Span locals pc pc := fun _ hlo hhi ↦ absurd hhi (Nat.not_lt_of_le hlo)

theorem trans (h : p.Span locals lo mid) (h' : p.Span locals mid hi) : p.Span locals lo hi := by
  intro pc hlo hhi
  by_cases hmid : pc < mid
  · exact h pc hlo hmid
  · exact h' pc (Nat.le_of_not_lt hmid) hhi

/-- Fewer slots are to be spared. -/
theorem mono (h : p.Span locals' lo hi) (hsub : locals ⊆ locals') : p.Span locals lo hi := by
  intro pc hlo hhi
  obtain ⟨hspares, hloops⟩ := h pc hlo hhi
  exact ⟨fun l hl ↦ hspares l (hsub hl), hloops⟩

end Span

end Prototype

namespace Home

open Prototype (Has Span)

variable {U : Home} {locals locals' : List Local} {pc pc' x : Nat} {op : Opcode}
  {operands : Instruction → Prop}

theorem has_of_wide (h : U.Wide op x pc pc') : pc' = pc + 1 ∧ U.proto.Has pc op x := h

/-- One instruction. -/
theorem span_of_has (h : U.Has op operands pc pc')
    (hspares : ∀ i, operands i → ∀ l ∈ locals,
      (op = .newCell → l.cell ≠ i.x) ∧ (op.counts → l.cell < i.x ∨ i.x + 2 < l.cell))
    (hloop : op ≠ .forPrep) : U.proto.Span locals pc pc' := by
  obtain ⟨rfl, i, hi, hop, hoperands⟩ := h
  intro pc₁ hlo hhi
  obtain rfl : pc₁ = pc := by omega
  refine ⟨fun l hl op' x hhas ↦ ?_, fun x hhas ↦ ?_⟩
  · obtain ⟨rfl, rfl⟩ := Prototype.Has.unique hhas ⟨i, hi, hop, rfl⟩
    exact hspares i hoperands l hl
  · obtain ⟨rfl, -⟩ := Prototype.Has.unique hhas ⟨i, hi, hop, rfl⟩
    exact absurd rfl hloop

theorem span_one (h : U.Has op operands pc pc') (hnew : op ≠ .newCell) (hcounts : op.counts = false) :
    U.proto.Span locals pc pc' := by
  refine span_of_has h (fun i _ l _ ↦ ⟨fun heq ↦ absurd heq hnew, fun hc ↦ ?_⟩) ?_
  · rw [hcounts] at hc
    cases hc
  · rintro rfl
    cases hcounts

theorem span_newCell (h : U.Wide .newCell x pc pc') (hx : ∀ l ∈ locals, l.cell ≠ x) :
    U.proto.Span locals pc pc' := by
  refine span_of_has h (fun i hi l hl ↦ ⟨fun _ ↦ ?_, fun hc ↦ (by cases hc)⟩) (by decide)
  rw [hi]
  exact hx l hl

theorem span_count (h : U.Wide op x pc pc') (hop : op.counts) (hloop : op ≠ .forPrep)
    (hx : ∀ l ∈ locals, l.cell < x ∨ x + 2 < l.cell) : U.proto.Span locals pc pc' := by
  refine span_of_has h (fun i hi l hl ↦ ⟨fun hnew ↦ ?_, fun _ ↦ ?_⟩) hloop
  · rw [hnew] at hop
    cases hop
  · rw [hi]
    exact hx l hl

theorem span_newCells {cells : List Nat} (h : U.NewCellsAt cells pc pc')
    (hcells : ∀ cell ∈ cells, ∀ l ∈ locals, l.cell ≠ cell) : U.proto.Span locals pc pc' := by
  induction cells generalizing pc with
  | nil =>
    obtain rfl : pc' = pc := h
    exact .nil pc'
  | cons cell cells ih =>
    obtain ⟨p, hcell, hmore⟩ := h
    obtain ⟨hfirst, hrest⟩ := List.forall_mem_cons.mp hcells
    exact (span_newCell hcell hfirst).trans (ih hmore hrest)

theorem Declares.fresh {names : List String} {cells : List Nat}
    (h : U.Declares names cells locals locals') : ∀ cell ∈ cells, ∀ l ∈ locals, l.cell ≠ cell := by
  induction names generalizing cells locals with
  | nil =>
    obtain ⟨rfl, -⟩ := h
    intro cell hcell
    cases hcell
  | cons name names ih =>
    obtain ⟨l, rest, -, hfresh, rfl, hmore⟩ := h
    refine List.forall_mem_cons.mpr ⟨hfresh.cell_ne, fun cell hcell l' hl' ↦ ?_⟩
    exact ih hmore cell hcell l' (List.mem_cons_of_mem l hl')

theorem span_loadAt {v : Value} (h : U.LoadAt v pc pc') : U.proto.Span locals pc pc' := by
  obtain ⟨k, -, hload⟩ := h
  exact span_one hload (by decide) rfl

theorem span_loadTextAt {s : Bytes} (h : U.LoadTextAt s pc pc') : U.proto.Span locals pc pc' := by
  obtain ⟨k, -, hload⟩ := h
  exact span_one hload (by decide) rfl

theorem span_nameAt {scope : List Local} {name : String} {onCell onUpvalue onGlobal : Opcode}
    (h : U.NameAt scope name onCell onUpvalue onGlobal pc pc')
    (hops : ∀ op ∈ [onCell, onUpvalue, onGlobal], op ≠ .newCell ∧ op.counts = false) :
    U.proto.Span locals pc pc' := by
  obtain ⟨b, -, h⟩ := h
  cases b with
  | cell n =>
    obtain ⟨hnew, hcounts⟩ := hops onCell (by simp)
    exact span_one h hnew hcounts
  | upvalue n =>
    obtain ⟨hnew, hcounts⟩ := hops onUpvalue (by simp)
    exact span_one h hnew hcounts
  | global =>
    obtain ⟨k, -, h⟩ := h
    obtain ⟨hnew, hcounts⟩ := hops onGlobal (by simp)
    exact span_one h hnew hcounts

theorem span_load {scope : List Local} {name : String} (h : U.LoadNameAt scope name pc pc') :
    U.proto.Span locals pc pc' := span_nameAt h (by decide)

theorem span_store {scope : List Local} {name : String} (h : U.StoreNameAt scope name pc pc') :
    U.proto.Span locals pc pc' := span_nameAt h (by decide)

theorem span_repeatedAt {bound n : Nat} (hnew : op ≠ .newCell) (hcounts : op.counts = false)
    (h : U.RepeatedAt op bound n pc pc') : U.proto.Span locals pc pc' := by
  induction bound generalizing n pc with
  | zero =>
    obtain rfl : pc' = pc := h
    exact .nil pc'
  | succ bound ih =>
    rw [RepeatedAt] at h
    split at h
    · subst h
      exact .nil pc'
    · obtain ⟨p, hfirst, hmore⟩ := h
      exact (span_one hfirst hnew hcounts).trans (ih hmore)

theorem span_adjustAt {pushed n : Nat} {want : Want} (h : U.AdjustAt pushed want pc pc' n) :
    U.proto.Span locals pc pc' := by
  cases want with
  | all =>
    obtain ⟨-, rfl⟩ := h
    exact .nil pc'
  | exactly m =>
    obtain ⟨-, h⟩ := h
    split at h
    · exact span_repeatedAt (by decide) rfl h
    · exact span_repeatedAt (by decide) rfl h

theorem span_pathAt {keys : List String} (h : U.PathAt keys pc pc') :
    U.proto.Span locals pc pc' := by
  induction keys generalizing pc with
  | nil =>
    obtain rfl : pc' = pc := h
    exact .nil pc'
  | cons key keys ih =>
    obtain ⟨p, q, hkey, hindex, hmore⟩ := h
    exact ((span_loadTextAt hkey).trans (span_one hindex (by decide) rfl)).trans (ih hmore)

theorem span_defineAt {scope : List Local} {name : FunctionName} (h : U.DefineAt scope name pc pc') :
    U.proto.Span locals pc pc' := by
  unfold DefineAt at h
  split at h
  · exact span_store h
  · obtain ⟨p, q, r, hfirst, hpath, hlast, hset⟩ := h
    exact (((span_load hfirst).trans (span_pathAt hpath)).trans (span_loadTextAt hlast)).trans
      (span_one hset (by decide) rfl)

theorem span_make {scope : List Local} {f : FunctionBody} (h : f.At U scope pc pc') :
    U.proto.Span locals pc pc' := by
  obtain ⟨params, variadic, body, pos⟩ := f
  obtain ⟨x, k, proto, hclosure, -⟩ := h
  exact span_one hclosure (by decide) rfl

end Home

open Home Prototype

mutual

theorem Expr.span {U : Home} {locals scope : List Local} : ∀ (e : Expr) {want : Want} {pc pc' : Nat},
    e.At U scope want pc pc' → U.proto.Span locals pc pc'
  | .nil _, _, _, _, h => span_one h (by decide) rfl
  | .bool true _, _, _, _, h => span_one h (by decide) rfl
  | .bool false _, _, _, _, h => span_one h (by decide) rfl
  | .int _ _, _, _, _, h => span_loadAt h
  | .float _ _, _, _, _, h => span_loadAt h
  | .string _ _, _, _, _, h => span_loadTextAt h
  | .varargs _, _, _, _, h => span_one h.2 (by decide) rfl
  | .name _ _, _, _, _, h => span_load h
  | .index object key _, _, _, _, h => by
    obtain ⟨p, q, hobject, hkey, hindex⟩ := h
    exact ((object.span hobject).trans (key.span hkey)).trans (span_one hindex (by decide) rfl)
  | .call callee args _, _, _, _, h => by
    obtain ⟨p, q, n, multi, hcallee, hargs, hcall⟩ := h
    exact ((callee.span hcallee).trans (span_exprs args hargs)).trans (span_one hcall (by decide) rfl)
  | .method object _ args _, _, _, _, h => by
    obtain ⟨p, q, r, k, n, multi, hobject, -, hself, hargs, hcall⟩ := h
    exact (((object.span hobject).trans (span_one hself (by decide) rfl)).trans
      (span_exprs args hargs)).trans (span_one hcall (by decide) rfl)
  | .function body, _, _, _, h => span_make (f := body) h
  | .table fields _, _, _, _, h => by
    obtain ⟨p, hnew, hfields⟩ := h
    exact (span_one hnew (by decide) rfl).trans (span_fields fields hfields)
  | .binary o lhs rhs _, _, _, _, h => by
    rw [Expr.At] at h
    split at h
    · next code hcode =>
      obtain ⟨p, q, hlhs, hrhs, hbinary⟩ := h
      refine ((lhs.span hlhs).trans (rhs.span hrhs)).trans (span_one hbinary ?_ ?_)
      all_goals cases o <;> cases hcode <;> decide
    · obtain ⟨p, q, hlhs, hshortcut, hrhs⟩ := h
      refine ((lhs.span hlhs).trans (span_one hshortcut ?_ ?_)).trans (rhs.span hrhs)
      all_goals cases o <;> decide
  | .unary o operand _, _, _, _, h => by
    rw [Expr.At] at h
    split at h
    · exact span_loadAt h
    · obtain ⟨p, hoperand, hunary⟩ := h
      refine (operand.span hoperand).trans (span_one hunary ?_ ?_)
      all_goals cases o <;> decide
  | .paren e _, _, _, _, h => e.span h

theorem span_exprs {U : Home} {locals scope : List Local} : ∀ (es : List Expr) {want : Want}
    {pushed pc pc' n : Nat} {multi : Bool},
    exprsAt U scope want pushed es pc pc' n multi → U.proto.Span locals pc pc'
  | [], _, _, _, _, _, _, h => span_adjustAt h.1
  | e :: rest, want, _, _, _, _, _, h => by
    rw [exprsAt.eq_def] at h
    dsimp only at h
    split at h
    · cases want with
      | all => exact e.span h.1
      | exactly m =>
        obtain ⟨p, he, hadjust, -⟩ := h
        exact (e.span he).trans (span_adjustAt hadjust)
    · obtain ⟨p, he, hrest⟩ := h
      exact (e.span he).trans (span_exprs rest hrest)

theorem span_fields {U : Home} {locals scope : List Local} : ∀ (fields : List Field)
    {next pc pc' : Nat}, fieldsAt U scope next fields pc pc' → U.proto.Span locals pc pc'
  | [], _, _, _, h => by
    obtain rfl := h
    exact .nil _
  | .item value :: rest, _, _, _, h => by
    rw [fieldsAt] at h
    split at h
    · obtain ⟨p, hvalue, hset⟩ := h
      exact (value.span hvalue).trans (span_one hset (by decide) rfl)
    · obtain ⟨p, q, r, hindex, hvalue, hinit, hrest⟩ := h
      exact (((span_loadAt hindex).trans (value.span hvalue)).trans
        (span_one hinit (by decide) rfl)).trans (span_fields rest hrest)
  | .entry key value :: rest, _, _, _, h => by
    obtain ⟨p, q, r, hkey, hvalue, hinit, hrest⟩ := h
    exact (((key.span hkey).trans (value.span hvalue)).trans
      (span_one hinit (by decide) rfl)).trans (span_fields rest hrest)

end

section

variable {U : Home} {locals scope : List Local} {pc pc' : Nat}

theorem span_step : ∀ {step : Option Expr}, stepAt U scope step pc pc' → U.proto.Span locals pc pc'
  | some step, h => step.span h
  | none, h => span_loadAt h

theorem Expr.span_target (target : Expr) (h : target.TargetAt U scope pc pc') :
    U.proto.Span locals pc pc' := by
  cases target with
  | name n _ => exact span_store h
  | index object key _ =>
    obtain ⟨p, q, hobject, hkey, hset⟩ := h
    exact ((object.span hobject).trans (key.span hkey)).trans (span_one hset (by decide) rfl)
  | _ => exact h.elim

theorem span_targets (targets : List Expr) (h : targetsAt U scope targets pc pc') :
    U.proto.Span locals pc pc' := by
  induction targets generalizing pc pc' with
  | nil =>
    obtain rfl := h
    exact .nil _
  | cons target rest ih =>
    obtain ⟨p, hrest, htarget⟩ := h
    exact (ih hrest).trans (target.span_target htarget)

end

namespace Home

variable {U : Home} {locals : List Local} {counter limit step l : Local}
  {start last p₃ p₄ again test q₁ q₂ r₁ r₂ pc' : Nat}

/-- A numeric loop, behind its three values. -/
theorem span_loop (hlimit : limit.cell = counter.cell + 1) (hstep : step.cell = counter.cell + 2)
    (hcounter : U.Fresh locals counter) (hlimitFresh : U.Fresh (counter :: locals) limit)
    (hstepFresh : U.Fresh (limit :: counter :: locals) step)
    (hvar : U.Fresh (step :: limit :: counter :: locals) l)
    (hcells : U.NewCellsAt [step.cell, limit.cell, counter.cell] p₃ p₄)
    (hprep : U.Wide .forPrep counter.cell p₄ again) (htest : U.Wide .forTest counter.cell again test)
    (hleave : U.Wide .jumpIfFalse pc' test q₁) (hload : U.Wide .getCell counter.cell q₁ q₂)
    (hcell : U.Wide .newCell l.cell q₂ r₁) (hle : r₁ ≤ r₂)
    (hbody : U.proto.Span (l :: step :: limit :: counter :: locals) r₁ r₂)
    (hforStep : U.Wide .forStep counter.cell r₂ last) (hback : U.Wide .jump again last pc') :
    U.proto.Span locals p₃ pc' := by
  obtain ⟨p₁, hnewStep, p₂, hnewLimit, p₄', hnewCounter, hsame⟩ := hcells
  obtain rfl : p₄ = p₄' := hsame
  obtain ⟨rfl, hnewStep'⟩ := has_of_wide hnewStep
  obtain ⟨rfl, hnewLimit'⟩ := has_of_wide hnewLimit
  obtain ⟨rfl, hnewCounter'⟩ := has_of_wide hnewCounter
  obtain ⟨rfl, hprep'⟩ := has_of_wide hprep
  obtain ⟨rfl, htest'⟩ := has_of_wide htest
  obtain ⟨rfl, hleave'⟩ := has_of_wide hleave
  obtain ⟨rfl, hload'⟩ := has_of_wide hload
  obtain ⟨rfl, hcell'⟩ := has_of_wide hcell
  obtain ⟨rfl, hforStep'⟩ := has_of_wide hforStep
  obtain ⟨rfl, hback'⟩ := has_of_wide hback
  have hmine {slot : Nat} (hlo : counter.cell ≤ slot) (hhi : slot ≤ counter.cell + 2) :
      ∃ k ∈ [step, limit, counter], k.cell = slot := by
    have hcases : slot = step.cell ∨ slot = limit.cell ∨ slot = counter.cell := by omega
    obtain rfl | rfl | rfl := hcases <;> simp
  have hothers : ∀ k ∈ locals, k.cell < counter.cell ∨ counter.cell + 2 < k.cell := by
    intro k hk
    have h₀ := hcounter.cell_ne k hk
    have h₁ := hlimitFresh.cell_ne k (List.mem_cons_of_mem _ hk)
    have h₂ := hstepFresh.cell_ne k (by simp [hk])
    omega
  have hloop : U.proto.IsLoop p₃ counter.cell l.cell r₂ := by
    refine ⟨hstep ▸ hnewStep', hlimit ▸ hnewLimit', hnewCounter', hprep', htest', hleave', hload',
      hcell', hforStep', hback', hle, ?_, ?_, hstep ▸ hstepFresh.cell_lt, hvar.cell_lt⟩
    · intro pc hlo hhi slot hslot hslot'
      obtain ⟨k, hk, rfl⟩ := hmine hslot hslot'
      refine (hbody pc hlo hhi).1 k (List.mem_cons_of_mem _ ?_)
      exact List.mem_append_left locals hk
    · intro slot hslot hslot'
      obtain ⟨k, hk, rfl⟩ := hmine hslot hslot'
      exact hvar.cell_ne k (List.mem_append_left locals hk)
  have hcells : U.proto.Span locals p₃ (p₃ + 1 + 1 + 1) := by
    refine ((span_newCell hnewStep fun k hk ↦ ?_).trans (span_newCell hnewLimit fun k hk ↦ ?_)).trans
      (span_newCell hnewCounter hcounter.cell_ne)
    · exact hstepFresh.cell_ne k (by simp [hk])
    · exact hlimitFresh.cell_ne k (List.mem_cons_of_mem _ hk)
  have hprepare : U.proto.Span locals (p₃ + 1 + 1 + 1) (p₃ + 1 + 1 + 1 + 1) := by
    intro pc hlo hhi
    obtain rfl : pc = p₃ + 1 + 1 + 1 := by omega
    refine ⟨fun k hk op x hhas ↦ ?_, fun x hhas ↦ ?_⟩
    · obtain ⟨rfl, rfl⟩ := hhas.unique hprep'
      exact ⟨fun hnew ↦ (by cases hnew), fun _ ↦ hothers k hk⟩
    · obtain ⟨-, rfl⟩ := hhas.unique hprep'
      exact ⟨p₃, l.cell, r₂, rfl, hloop⟩
  have hround := (((span_count htest rfl (by decide) hothers).trans
    (span_one hleave (by decide) rfl)).trans (span_one hload (by decide) rfl)).trans
    (span_newCell hcell fun k hk ↦ hvar.cell_ne k (by simp [hk]))
  have hsub : locals ⊆ l :: step :: limit :: counter :: locals := fun k hk ↦ by simp [hk]
  exact (((hcells.trans hprepare).trans hround).trans (hbody.mono hsub)).trans
    ((span_count hforStep rfl (by decide) hothers).trans (span_one hback (by decide) rfl))

end Home

mutual

theorem Block.span {U : Home} (hcode : U.proto.code.size < Instruction.wideLimit)
    (hfew : U.proto.protos.size < Instruction.wideLimit) :
    ∀ (b : Block) {locals : List Local} {pc pc' : Nat}, b.At U locals pc pc' →
      U.proto.Span locals pc pc'
  | .mk stmts _, _, _, _, h => by
    obtain ⟨locals', h⟩ := h
    exact span_stmts hcode hfew stmts h

theorem span_stmts {U : Home} (hcode : U.proto.code.size < Instruction.wideLimit)
    (hfew : U.proto.protos.size < Instruction.wideLimit) :
    ∀ (stmts : List Stmt) {locals locals' : List Local} {pc pc' : Nat},
      stmtsAt U stmts locals pc locals' pc' → U.proto.Span locals pc pc'
  | [], _, _, _, _, h => by
    obtain ⟨-, rfl⟩ := h
    exact .nil _
  | stmt :: rest, _, _, _, _, h => by
    obtain ⟨between, p, hstmt, hrest⟩ := h
    have hmore := (stmt.passes hcode hfew (List.nil_subset _) hstmt).more
    exact (stmt.span hcode hfew hstmt).trans ((span_stmts hcode hfew rest hrest).mono hmore)

theorem Stmt.span {U : Home} (hcode : U.proto.code.size < Instruction.wideLimit)
    (hfew : U.proto.protos.size < Instruction.wideLimit) :
    ∀ (stmt : Stmt) {locals locals' : List Local} {pc pc' : Nat},
      stmt.At U locals pc locals' pc' → U.proto.Span locals pc pc'
  | .declare names values _, _, _, _, _, h => by
    obtain ⟨p, n, multi, cells, hvalues, hdeclares, hcells⟩ := h
    refine (span_exprs values hvalues).trans (span_newCells hcells fun cell hcell ↦ ?_)
    exact hdeclares.fresh cell (List.mem_reverse.mp hcell)
  | .declareFunction name body _, _, _, _, _, h => by
    obtain ⟨l, p, q, r, -, hfresh, rfl, hnil, hcell, hbody, hset⟩ := h
    exact (((span_one hnil (by decide) rfl).trans (span_newCell hcell hfresh.cell_ne)).trans
      (span_make hbody)).trans (span_one hset (by decide) rfl)
  | .defineFunction name body _, _, _, _, _, h => by
    obtain ⟨rfl, p, hbody, hdefine⟩ := h
    exact (span_make hbody).trans (span_defineAt hdefine)
  | .assign targets values _, _, _, _, _, h => by
    obtain ⟨rfl, p, n, multi, hvalues, htargets⟩ := h
    exact (span_exprs values hvalues).trans (span_targets targets htargets)
  | .call call, _, _, _, _, h => by
    obtain ⟨rfl, -, h⟩ := h
    exact call.span h
  | .block body, _, _, _, _, h => by
    obtain ⟨rfl, h⟩ := h
    exact body.span hcode hfew h
  | .whileLoop cond body _, _, _, _, pc', h => by
    obtain ⟨rfl, p, q, r, hcond, hleave, hbody, hback⟩ := h
    have hbody := Block.span (U := { U with exit := some pc' }) hcode hfew body hbody
    exact (((cond.span hcond).trans (span_one hleave (by decide) rfl)).trans hbody).trans
      (span_one hback (by decide) rfl)
  | .repeatLoop (.mk stmts _) cond _, _, locals, _, pc', h => by
    obtain ⟨rfl, inside, p, q, hbody, hcond, hback⟩ := h
    have hbody := span_stmts (U := { U with exit := some pc' }) hcode hfew stmts hbody
    have hcond : U.proto.Span locals p q := Expr.span (U := { U with exit := some pc' }) cond hcond
    exact (Span.trans hbody hcond).trans (span_one hback (by decide) rfl)
  | .branch branches otherwise _, _, _, _, _, h => by
    obtain ⟨rfl, p, hbranches, hotherwise⟩ := h
    exact (span_branches hcode hfew branches hbranches).trans
      (span_otherwise hcode hfew otherwise hotherwise)
  | .numericFor var start limit step body _, locals, _, _, pc', h => by
    obtain ⟨rfl, counter, limitCell, stepCell, l, -, -, -, -, hlimitCell, hstepCell, hfresh₁, hfresh₂,
      hfresh₃, hfresh₄, p₁, p₂, p₃, p₄, again, test, q₁, q₂, r₁, r₂, hstart, hlimit, hstep, hcells,
      hprep, htest, hleave, hload, hcell, hbody, last, hforStep, hback⟩ := h
    have hle : r₁ ≤ r₂ := (Block.passes (U := { U with exit := some pc' }) hcode hfew
      (List.nil_subset _) body hbody).le
    have hinside := Block.span (U := { U with exit := some pc' }) hcode hfew body hbody
    have hagain : again < Instruction.wideLimit := (Home.lt_of_wide htest).trans hcode
    rw [Nat.mod_eq_of_lt hagain] at hback
    exact (((start.span hstart).trans (limit.span hlimit)).trans (span_step hstep)).trans
      (span_loop hlimitCell hstepCell hfresh₁ hfresh₂ hfresh₃ hfresh₄ hcells hprep htest hleave hload
        hcell hle hinside hforStep hback)
  | .genericFor .., _, _, _, _, h => h.elim
  | .returnValues values _, _, _, _, _, h => by
    obtain ⟨rfl, p, n, multi, hvalues, hreturn⟩ := h
    exact (span_exprs values hvalues).trans (span_one hreturn (by decide) rfl)
  | .breakLoop _, _, _, _, _, h => by
    obtain ⟨rfl, exit, -, hjump⟩ := h
    exact span_one hjump (by decide) rfl

theorem span_otherwise {U : Home} (hcode : U.proto.code.size < Instruction.wideLimit)
    (hfew : U.proto.protos.size < Instruction.wideLimit) :
    ∀ (otherwise : Option Block) {locals : List Local} {pc pc' : Nat},
      otherwiseAt U locals otherwise pc pc' → U.proto.Span locals pc pc'
  | some block, _, _, _, h => block.span hcode hfew h
  | none, _, _, _, h => by
    obtain rfl := h
    exact .nil _

theorem span_branches {U : Home} (hcode : U.proto.code.size < Instruction.wideLimit)
    (hfew : U.proto.protos.size < Instruction.wideLimit) :
    ∀ (branches : List Branch) {locals : List Local} {ends : Nat} {more : Bool} {pc pc' : Nat},
      branchesAt U locals ends more branches pc pc' → U.proto.Span locals pc pc'
  | [], _, _, _, _, _, h => by
    obtain rfl := h
    exact .nil _
  | .mk cond body :: rest, locals, _, _, _, _, h => by
    obtain ⟨p, q, r, next, hcond, hskip, hbody, hjump, hrest⟩ := h
    have hjump : U.proto.Span locals r next := by
      split at hjump
      · subst hjump
        exact .nil _
      · exact span_one hjump (by decide) rfl
    exact ((((cond.span hcond).trans (span_one hskip (by decide) rfl)).trans
      (body.span hcode hfew hbody)).trans hjump).trans (span_branches hcode hfew rest hrest)

end

end MiniLua
