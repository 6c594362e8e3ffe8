import MiniLua.Proofs.Instances.Still
import MiniLua.Proofs.Instances.Turns

/-! What a step changes the content of a cell by: only an instruction that writes a variable or counts in
one, with the cell in its slot or upvalue. -/

namespace MiniLua

open Effects Machine

/-- The content of the cell, if there is such a cell, is the same. -/
def State.SameAt (cell : Nat) (s t : State) : Prop :=
  ∀ v, s.heap.cells[cell]? = some v → t.heap.cells[cell]? = some v

/-- The instruction writes the cell. -/
def Frame.Writes (f : Frame) (upvalues : Array Nat) (i : Instruction) (op : Opcode) (cell : Nat) : Prop :=
  op = .setCell ∧ f.cells[i.x]? = some (some cell) ∨ op = .setUpvalue ∧ upvalues[i.x]? = some cell ∨
    (op = .forPrep ∨ op = .forStep) ∧ ∃ j < 3, f.cells[i.x + j]? = some (some cell)

section

variable {cell : Nat}

theorem State.SameAt.of_cells {s t : State} (h : t.heap.cells = s.heap.cells) : s.SameAt cell t :=
  fun _ hv ↦ h ▸ hv

instance : Std.Refl (State.SameAt cell) := ⟨fun _ _ ↦ id⟩

instance : IsTrans State (State.SameAt cell) := ⟨fun _ _ _ h h' v hv ↦ h' v (h v hv)⟩

instance : Lenient (State.SameAt cell) where
  objects _ _ _ := .of_cells rfl
  operands _ _ _ _ := .of_cells rfl
  host _ _ := .of_cells rfl
  loads _ _ h := .of_cells h.cells
  closure _ _ _ := .of_cells rfl
  environment _ _ _ := .of_cells rfl

namespace Machine

instance (v : Value) : Abides (State.SameAt cell) (onHeap fun h ↦ h.allocCell v) :=
  .modifyGet fun s w hw ↦ by
    obtain ⟨hlt, -⟩ := Array.getElem?_eq_some_iff.mp hw
    change (s.heap.cells.push v)[cell]? = some w
    rw [Array.getElem?_push_lt hlt, ← hw, Array.getElem?_eq_getElem hlt]

instance (c : Closure) : Abides (State.SameAt cell) (onHeap fun h ↦ h.allocClosure c) :=
  .modifyGet fun _ ↦ .of_cells rfl

instance (f : Frame → Frame) : Abides (State.SameAt cell) (changeFrame f) :=
  .modify fun s ↦ by
    split
    · exact .of_cells rfl
    · exact .of_cells rfl

instance (x : Nat) : Abides (State.SameAt cell) (goTo x) :=
  inferInstanceAs (Abides _ (changeFrame _))

instance (keep : Value → Bool) (x : Nat) : Abides (State.SameAt cell) (jumpKeeping keep x) := by
  unfold jumpKeeping
  infer_instance

instance (frame : Frame) (x : Nat) : Abides (State.SameAt cell) (makeClosure frame x) := by
  refine .after fun s ↦ ?_
  split
  · infer_instance
  · refine .after fun s ↦ .after fun proto ↦ .after fun s ↦ ?_
    split <;> infer_instance

theorem sameAt_setCell {other : Nat} (h : other ≠ cell) (f : Heap → Value) :
    Abides (State.SameAt cell) (changeHeap fun heap ↦ heap.setCell other (f heap)) :=
  .modify fun _ _ hv ↦ (Array.getElem?_setIfInBounds_ne h).trans hv

theorem sameAt_storeCell {other : Nat} (h : other ≠ cell) : Abides (State.SameAt cell) (storeCell other) := by
  have hset (v : Value) := sameAt_setCell h fun _ ↦ v
  unfold storeCell
  infer_instance

theorem sameAt_advanceLoop {cells : LoopCells} (h : cells.counter ≠ cell) :
    Abides (State.SameAt cell) (advanceLoop cells) := sameAt_setCell h _

theorem sameAt_prepareLoop {cells : LoopCells} (hcounter : cells.counter ≠ cell)
    (hlimit : cells.limit ≠ cell) (hstep : cells.step ≠ cell) :
    Abides (State.SameAt cell) (prepareLoop cells) := by
  have hset₁ (v : Value) := sameAt_setCell hcounter fun _ ↦ v
  have hset₂ (v : Value) := sameAt_setCell hlimit fun _ ↦ v
  have hset₃ (v : Value) := sameAt_setCell hstep fun _ ↦ v
  refine .after fun s ↦ .after fun counter ↦ .after fun limit ↦ .after fun step ↦ ?_
  dsimp only
  split <;> infer_instance

variable {frame : Frame} {constants : Array Value} {i : Instruction} {op : Opcode}

theorem sameAt_perform (hcell : op ≠ .setCell) (hupvalue : op ≠ .setUpvalue) (hprep : op ≠ .forPrep)
    (hstep : op ≠ .forStep) :
    Abides (State.SameAt cell) (perform frame constants i op) := by
  cases op
  case setCell => exact absurd rfl hcell
  case setUpvalue => exact absurd rfl hupvalue
  case forPrep => exact absurd rfl hprep
  case forStep => exact absurd rfl hstep
  all_goals
    simp only [perform]
    infer_instance

theorem loopCells_cases (frame : Frame) (i : Instruction) (s : State) :
    (∃ e, loopCells frame i.x s = .error e s) ∨
      ∃ cells, loopCells frame i.x s = .ok cells s ∧ frame.cells[i.x]? = some (some cells.counter) ∧
        frame.cells[i.x + 1]? = some (some cells.limit) ∧
        frame.cells[i.x + 2]? = some (some cells.step) := by
  obtain ⟨e, he⟩ | ⟨counter, hcounter, hslot⟩ := frameCell_cases frame i.x s
  · exact .inl ⟨e, bind_of_error he⟩
  obtain ⟨e, he⟩ | ⟨limit, hlimit, hslot'⟩ := frameCell_cases frame (i.x + 1) s
  · exact .inl ⟨e, (bind_of_ok hcounter).trans (bind_of_error he)⟩
  obtain ⟨e, he⟩ | ⟨step, hstep, hslot''⟩ := frameCell_cases frame (i.x + 2) s
  · exact .inl ⟨e, (bind_of_ok hcounter).trans ((bind_of_ok hlimit).trans (bind_of_error he))⟩
  · exact .inr ⟨⟨counter, limit, step⟩, loopCells_of_bound hslot hslot' hslot'', hslot, hslot', hslot''⟩

/-- What is done with the cells of a loop. -/
theorem sameAt_loop {s : State} {m : LoopCells → Machine Unit}
    (h : ∀ cells : LoopCells, frame.cells[i.x]? = some (some cells.counter) →
      frame.cells[i.x + 1]? = some (some cells.limit) →
      frame.cells[i.x + 2]? = some (some cells.step) → Abides (State.SameAt cell) (m cells)) :
    s.SameAt cell (final ((do m (← loopCells frame i.x); pure Demand.nothing : Machine Demand) s)) := by
  obtain ⟨e, he⟩ | ⟨cells, hcells, hcounter, hlimit, hstep⟩ := loopCells_cases frame i s
  · rw [bind_of_error he]
    exact Std.Refl.refl s
  · have hm := h cells hcounter hlimit hstep
    rw [bind_of_ok hcells]
    exact Abides.keeps (m := do m cells; pure Demand.nothing) s

variable (frame constants) in
/-- An instruction that does not write the cell leaves it as it is. -/
theorem sameAt_of_not_writes {s : State} {c : Closure} (hc : s.heap.closures[frame.closure]? = some c)
    (h : ¬ frame.Writes c.upvalues i op cell) :
    s.SameAt cell (final (perform frame constants i op s)) := by
  have hsame : s.SameAt cell s := Std.Refl.refl s
  by_cases hcell : op = .setCell
  · subst hcell
    simp only [perform]
    obtain ⟨e, he⟩ | ⟨other, hother, hslot⟩ := frameCell_cases frame i.x s
    · rw [bind_of_error he]
      exact hsame
    · have hstore : Abides (State.SameAt cell) (storeCell other) :=
        sameAt_storeCell fun heq ↦ h (.inl ⟨rfl, heq ▸ hslot⟩)
      rw [bind_of_ok hother]
      exact Abides.keeps (m := do storeCell other; pure Demand.nothing) s
  by_cases hupvalue : op = .setUpvalue
  · subst hupvalue
    simp only [perform]
    cases hslot : c.upvalues[i.x]? with
    | none =>
      have herror : upvalueCell frame i.x s = .error .operand s := by
        simp only [upvalueCell, bind_apply, get_apply, hc, hslot]
        rfl
      rw [bind_of_error herror]
      exact hsame
    | some other =>
      have hstore : Abides (State.SameAt cell) (storeCell other) :=
        sameAt_storeCell fun heq ↦ h (.inr (.inl ⟨rfl, heq ▸ hslot⟩))
      rw [bind_of_ok (upvalueCell_of_closure hc hslot)]
      exact Abides.keeps (m := do storeCell other; pure Demand.nothing) s
  by_cases hprep : op = .forPrep
  · subst hprep
    simp only [perform]
    refine sameAt_loop (m := prepareLoop) fun cells hcounter hlimit hstep ↦ sameAt_prepareLoop ?_ ?_ ?_
    · rintro rfl
      exact h (.inr (.inr ⟨.inl rfl, 0, by decide, by rw [Nat.add_zero]; exact hcounter⟩))
    · rintro rfl
      exact h (.inr (.inr ⟨.inl rfl, 1, by decide, hlimit⟩))
    · rintro rfl
      exact h (.inr (.inr ⟨.inl rfl, 2, by decide, hstep⟩))
  by_cases hforStep : op = .forStep
  · subst hforStep
    simp only [perform]
    refine sameAt_loop (m := advanceLoop) fun cells hcounter _ _ ↦ sameAt_advanceLoop ?_
    rintro rfl
    exact h (.inr (.inr ⟨.inr rfl, 0, by decide, by rw [Nat.add_zero]; exact hcounter⟩))
  · exact (sameAt_perform hcell hupvalue hprep hforStep).keeps s

end Machine

end

section

variable {cell : Nat} {v : Value} {natives : Array Native} {s t u : State} {h : Heap}
  {calls : List (Option Frame)} {m m' : Mode}

namespace Transition

/-- Calls and returns leave cells as they are. -/
theorem Turns.content (hx : Turns h calls (.next m u)) (hv : h.cells[cell]? = some v) :
    u.heap.cells[cell]? = some v := by
  cases hx with
  | ends ends =>
    cases ends with
    | intro spares suffix => rwa [spares.cells]
  | serves spares begins => rwa [spares.cells]
  | @enters s p closure floor expected spares below proto =>
    rw [← spares.cells] at hv
    obtain ⟨hlt, -⟩ := Array.getElem?_eq_some_iff.mp hv
    simp only [entered]
    rw [← Array.getElem?_toList, Array.toList_appendList, List.getElem?_append_left (by simpa using hlt),
      Array.getElem?_toList]
    exact hv

end Transition

theorem writes_of_instruction {f : Frame} {rest : List Activation} (hs : s.activations = .guest f :: rest)
    (hv : s.heap.cells[cell]? = some v) (hchanged : (final (instruction s)).heap.cells[cell]? ≠ some v) :
    ∃ c p i op, s.heap.closures[f.closure]? = some c ∧ s.heap.protos[c.proto]? = some p ∧
      p.code[f.ip]? = some i ∧ i.opcode? = some op ∧ f.Writes c.upvalues i op cell := by
  rw [instruction_apply, hs] at hchanged
  dsimp only at hchanged
  cases hp : s.proto? f.closure with
  | none =>
    rw [hp] at hchanged
    exact absurd hv hchanged
  | some p =>
    obtain ⟨c, hc, hproto⟩ := Option.bind_eq_some_iff.mp hp
    rw [hp] at hchanged
    dsimp only at hchanged
    cases hi : p.code[f.ip]? with
    | none =>
      rw [hi] at hchanged
      exact absurd hv hchanged
    | some i =>
      rw [hi, advance_of_guest hs] at hchanged
      dsimp only at hchanged
      cases hop : i.opcode? with
      | none =>
        rw [hop] at hchanged
        exact absurd hv hchanged
      | some op =>
        rw [hop] at hchanged
        refine ⟨c, p, i, op, hc, hproto, hi, hop, ?_⟩
        by_contra hwrites
        have hsame := sameAt_of_not_writes f p.constants
          (s := { s with activations := .guest { f with ip := f.ip + 1 } :: rest }) hc hwrites
        exact hchanged (hsame v hv)

/-- Only an instruction that writes the cell changes what is in it. -/
theorem writes_of_step (hnatives : ∀ b ∈ natives, ∃ c : Builtin, b = c.native)
    (hstep : step natives m s = .next m' u) (hv : s.heap.cells[cell]? = some v)
    (hchanged : u.heap.cells[cell]? ≠ some v) :
    m = .execute ∧ ∃ f rest c p i op, s.activations = .guest f :: rest ∧
      s.heap.closures[f.closure]? = some c ∧ s.heap.protos[c.proto]? = some p ∧ p.code[f.ip]? = some i ∧
      i.opcode? = some op ∧ f.Writes c.upvalues i op cell := by
  cases Transition.steps hnatives hstep with
  | turns idle turns => exact absurd (turns.content hv) hchanged
  | @executes f g rest mode running innermost follows =>
    obtain ⟨c, p, i, op, hc, hproto, hi, hop, hwrites⟩ := writes_of_instruction running hv fun hsame ↦ by
      refine hchanged ?_
      generalize instruction s = r at follows hsame innermost
      cases follows with
      | goes => exact hsame
      | invokes turns => exact turns.content hsame
      | returns ends => exact (Transition.Turns.ends ends).content hsame
      | fails ends => exact (Transition.Turns.ends ends).content hsame
    exact ⟨mode, f, rest, c, p, i, op, running, hc, hproto, hi, hop, hwrites⟩

end

end MiniLua
