import MiniLua.Proofs.Instances.Known
import MiniLua.Proofs.Machine.Modest
import MiniLua.Proofs.Machine.Performed

/-!
Which instructions leave variables where they are. Only the one that binds a variable adds a cell, only
the one that makes a function adds a closure that holds any, and only jumps change the place in the code.
-/

namespace MiniLua

open Effects Machine

/-- No cell was added, no new closure holds one, and activations are the same. -/
structure State.Still (s t : State) : Prop where
  code : s.heap.Conserves t.heap
  bare : ∀ (c : Nat) (link : Nat × Array Nat), t.heap.links[c]? = some link →
    s.heap.links[c]? = some link ∨ link.2 = #[]
  cells : t.heap.cells.size = s.heap.cells.size
  calls : t.activations = s.activations

namespace State

theorem Calm.still {s t : State} (h : s.Calm t) : s.Still t :=
  ⟨h.code, h.bare, by rw [h.cells], h.calls⟩

instance : Std.Refl Still := ⟨fun s ↦ (Std.Refl.refl s : s.Calm s).still⟩

instance : IsTrans State Still where
  trans _ _ _ h h' := by
    refine ⟨h.code.trans h'.code, fun c link hlink ↦ ?_, h'.cells.trans h.cells,
      h'.calls.trans h.calls⟩
    obtain hlink | hbare := h'.bare c link hlink
    · exact h.bare c link hlink
    · exact .inr hbare

instance : Lenient Still where
  objects s strings tables := Calm.still (Lenient.objects s strings tables)
  operands s stack lastMulti h := Calm.still (Lenient.operands s stack lastMulti h)
  host s host := Calm.still (Lenient.host s host)
  loads s heap h := Calm.still (Lenient.loads s heap h)
  closure s proto env := Calm.still (Lenient.closure s proto env)
  environment s c env := Calm.still (Lenient.environment s c env)

end State

namespace Machine

instance (cell : Nat) (v : Value) : Abides State.Still (changeHeap fun h ↦ h.setCell cell v) :=
  .modify fun _ ↦ ⟨⟨id, id⟩, fun _ _ ↦ .inl, Array.size_setIfInBounds, rfl⟩

instance (cell : Nat) : Abides State.Still (storeCell cell) := by
  unfold storeCell
  infer_instance

instance (cells : LoopCells) : Abides State.Still (prepareLoop cells) := by
  refine .after fun s ↦ .after fun counter ↦ .after fun limit ↦ .after fun step ↦ ?_
  dsimp only
  split <;> infer_instance

instance (cells : LoopCells) : Abides State.Still (advanceLoop cells) :=
  .modify fun _ ↦ ⟨⟨id, id⟩, fun _ _ ↦ .inl, Array.size_setIfInBounds, rfl⟩

variable {frame : Frame} {constants : Array Value} {i : Instruction} {op : Opcode} {s : State}

variable (frame constants i) in
/-- All other instructions leave variables where they are. -/
theorem still_perform (hcell : op ≠ .newCell) (hclosure : op ≠ .closure) (hjumps : op.jumps = false) :
    Abides State.Still (perform frame constants i op) := by
  cases op
  case newCell => exact absurd rfl hcell
  case closure => exact absurd rfl hclosure
  case jump | jumpIfFalse | jumpIfFalseKeep | jumpIfTrueKeep => cases hjumps
  all_goals
    simp only [perform]
    infer_instance

theorem jumpKeeping_cases (keep : Value → Bool) (x : Nat) (s : State) :
    ∃ t, s.Still t ∧ (final (jumpKeeping keep x s) = jumped t x ∨ final (jumpKeeping keep x s) = t) := by
  have hpop := Abides.keeps (R := State.Still) (m := discard pop) s
  unfold jumpKeeping
  rw [bind_apply, top_apply]
  cases s.stack.back? with
  | none => exact ⟨s, Std.Refl.refl s, .inr rfl⟩
  | some v =>
    dsimp only
    cases keep v with
    | true => exact ⟨s, Std.Refl.refl s, .inl (by rw [if_pos rfl, goTo_apply]; rfl)⟩
    | false => exact ⟨_, hpop, .inr rfl⟩

variable (frame constants i) in
/-- A jump goes to its target, or a conditional one goes on. -/
theorem perform_of_jumps (hjumps : op.jumps) (s : State) :
    ∃ t, s.Still t ∧ (final (perform frame constants i op s) = jumped t i.x ∨
      op ≠ .jump ∧ final (perform frame constants i op s) = t) := by
  have hkeeping (keep : Value → Bool) (s : State) :
      final ((do jumpKeeping keep i.x; pure .nothing : Machine Demand) s) =
        final (jumpKeeping keep i.x s) := by
    rw [bind_apply]
    cases jumpKeeping keep i.x s <;> rfl
  cases op with
  | jump => exact ⟨s, Std.Refl.refl s, .inl (by rw [perform_jump]; rfl)⟩
  | jumpIfFalse =>
    have hpop := Abides.keeps (R := State.Still) (m := pop) s
    simp only [perform, bind_apply]
    cases hp : pop s with
    | error e t =>
      rw [hp] at hpop
      exact ⟨t, hpop, .inr ⟨by simp, rfl⟩⟩
    | ok v t =>
      rw [hp] at hpop
      refine ⟨t, hpop, ?_⟩
      dsimp only
      cases v.isFalsey with
      | true =>
        refine .inl ?_
        rw [if_pos rfl, bind_of_ok (goTo_apply i.x)]
        rfl
      | false => exact .inr ⟨by simp, rfl⟩
  | jumpIfFalseKeep | jumpIfTrueKeep =>
    obtain ⟨t, ht, hcases⟩ := jumpKeeping_cases _ i.x s
    exact ⟨t, ht, hcases.imp (hkeeping _ s).trans fun h ↦ ⟨by simp, (hkeeping _ s).trans h⟩⟩
  | _ => cases hjumps

/-- A variable is bound to a new cell, unless the instruction fails. -/
theorem perform_newCell_cases (frame : Frame) (constants : Array Value) (i : Instruction) (s : State) :
    ∃ t, s.Still t ∧ ((∃ e, perform frame constants i .newCell s = .error e t) ∨
      ∃ v, (∃ e, perform frame constants i .newCell s = .error e { t with heap := (t.heap.allocCell v).2 }) ∨
        i.x < frame.cells.size ∧ ∀ g rest, s.activations = .guest g :: rest →
          perform frame constants i .newCell s = .ok .nothing { t with
            heap := (t.heap.allocCell v).2
            activations := .guest { g with
              cells := g.cells.setIfInBounds i.x (some s.heap.cells.size) } :: rest }) := by
  have hpop := Abides.keeps (R := State.Still) (m := pop) s
  simp only [perform, bind_apply]
  cases hp : pop s with
  | error e t =>
    rw [hp] at hpop
    exact ⟨t, hpop, .inl ⟨e, rfl⟩⟩
  | ok v t =>
    rw [hp] at hpop
    refine ⟨t, hpop, .inr ⟨v, ?_⟩⟩
    simp only [onHeap, modifyGet_apply]
    by_cases hx : i.x < frame.cells.size
    · refine .inr ⟨hx, fun g rest hs ↦ ?_⟩
      have hcalls : t.activations = .guest g :: rest := hpop.calls.trans hs
      have hcell : (t.heap.allocCell v).1 = s.heap.cells.size := hpop.cells
      simp only [if_pos hx, hcalls, hcell]
      rfl
    · exact .inl ⟨.operand, by rw [if_neg hx]; rfl⟩

omit frame constants i op in
theorem mapM_cases {α β : Type} {f : α → Machine β} {R : α → β → Prop}
    (h : ∀ a, (∃ e, f a s = .error e s) ∨ ∃ b, f a s = .ok b s ∧ R a b) (l : List α) :
    (∃ e, l.mapM f s = .error e s) ∨ ∃ l', l.mapM f s = .ok l' s ∧ List.Forall₂ R l l' := by
  induction l with
  | nil => exact .inr ⟨[], rfl, .nil⟩
  | cons a l ih =>
    rw [List.mapM_cons]
    obtain ⟨e, he⟩ | ⟨b, hb, hab⟩ := h a
    · exact .inl ⟨e, bind_of_error he⟩
    · rw [bind_of_ok hb]
      obtain ⟨e, he⟩ | ⟨l', hl', hall⟩ := ih
      · exact .inl ⟨e, bind_of_error he⟩
      · exact .inr ⟨b :: l', by rw [bind_of_ok hl']; rfl, .cons hab hall⟩

theorem frameCell_cases (frame : Frame) (slot : Nat) (s : State) :
    (∃ e, frameCell frame slot s = .error e s) ∨
      ∃ cell, frameCell frame slot s = .ok cell s ∧ frame.cells[slot]? = some (some cell) := by
  rcases hslot : frame.cells[slot]? with _ | _ | cell
  · exact .inl ⟨.operand, by simp only [frameCell, Array.getD_eq_getD_getElem?, hslot]; rfl⟩
  · exact .inl ⟨.operand, by simp only [frameCell, Array.getD_eq_getD_getElem?, hslot]; rfl⟩
  · exact .inr ⟨cell, frameCell_of_bound hslot, rfl⟩

theorem captured_cases (frame : Frame) (upvalues : Array Nat) (captures : List Capture) (s : State) :
    (∃ e, captured frame upvalues captures s = .error e s) ∨
      ∃ cells, captured frame upvalues captures s = .ok cells s ∧
        List.Forall₂ (fun c cell ↦ Frame.Captures frame upvalues cell c) captures cells := by
  apply mapM_cases
  intro c
  cases c with
  | cell n => exact frameCell_cases frame n s
  | upvalue n =>
    rcases hn : upvalues[n]? with _ | cell
    · exact .inl ⟨.operand, by simp only [hn]; rfl⟩
    · exact .inr ⟨cell, by simp only [hn]; rfl, hn⟩

/-- A function is made of a prototype nested in the running one, with the cells it captures there, unless
the instruction fails. -/
theorem makeClosure_cases (frame : Frame) (x : Nat) (s : State) :
    (∃ e, makeClosure frame x s = .error e s) ∨
      ∃ c p k q cells, s.heap.closures[frame.closure]? = some c ∧
        s.heap.protos[c.proto]? = some p ∧ p.protos[x]? = some k ∧ s.heap.protos[k]? = some q ∧
        List.Forall₂ (fun d cell ↦ Frame.Captures frame c.upvalues cell d) q.captures.toList cells ∧
        makeClosure frame x s = .ok (.closure s.heap.closures.size)
          { s with heap := (s.heap.allocClosure ⟨k, c.env, cells.toArray⟩).2 } := by
  rcases hc : s.heap.closures[frame.closure]? with _ | c
  · exact .inl ⟨.noFunction, by simp only [makeClosure, bind_apply, get_apply, hc]; rfl⟩
  rcases hp : s.heap.protos[c.proto]? with _ | p
  · exact .inl ⟨.operand, by
      simp only [makeClosure, bind_apply, get_apply, hc, hp, Option.bind_none, orOperand_apply]⟩
  rcases hk : p.protos[x]? with _ | k
  · exact .inl ⟨.operand, by
      simp only [makeClosure, bind_apply, get_apply, hc, hp, Option.bind_some, hk, orOperand_apply]⟩
  rcases hq : s.heap.protos[k]? with _ | q
  · exact .inl ⟨.noFunction, by
      simp only [makeClosure, bind_apply, get_apply, hc, hp, Option.bind_some, hk, orOperand_apply, hq]
      rfl⟩
  obtain ⟨e, he⟩ | ⟨cells, hcells, hall⟩ := captured_cases frame c.upvalues q.captures.toList s
  · exact .inl ⟨e, by
      simp only [makeClosure, bind_apply, get_apply, hc, hp, Option.bind_some, hk, orOperand_apply, hq,
        he]⟩
  · exact .inr ⟨c, p, k, q, cells, rfl, hp, hk, hq, hall, makeClosure_eq hc hp hk hq hcells⟩

/-- The function that was made is pushed, unless there is no room for it. -/
theorem perform_closure_cases (frame : Frame) (constants : Array Value) (i : Instruction) (s : State) :
    (∃ e, perform frame constants i .closure s = .error e s) ∨
      ∃ c p k q cells, s.heap.closures[frame.closure]? = some c ∧
        s.heap.protos[c.proto]? = some p ∧ p.protos[i.x]? = some k ∧ s.heap.protos[k]? = some q ∧
        List.Forall₂ (fun d cell ↦ Frame.Captures frame c.upvalues cell d) q.captures.toList cells ∧
        ∃ stack, final (perform frame constants i .closure s) = { s with
          stack
          heap := (s.heap.allocClosure ⟨k, c.env, cells.toArray⟩).2 } := by
  rw [perform_closure]
  obtain ⟨e, he⟩ | ⟨c, p, k, q, cells, hc, hp, hk, hq, hall, hmake⟩ := makeClosure_cases frame i.x s
  · exact .inl ⟨e, bind_of_error he⟩
  · refine .inr ⟨c, p, k, q, cells, hc, hp, hk, hq, hall, ?_⟩
    rw [bind_of_ok hmake]
    obtain h | ⟨pushed, h⟩ := give_cases [.closure s.heap.closures.size]
      { s with heap := (s.heap.allocClosure ⟨k, c.env, cells.toArray⟩).2 }
    · exact ⟨_, by rw [h]; rfl⟩
    · exact ⟨_, by rw [h]; rfl⟩

end Machine

end MiniLua
