import MiniLua.Proofs.Meaning.Meets

/-!
Where compiled code is while an evaluation goes on: at a place of a function, with the variables in scope
bound in the slots of its frame, and with intermediate values on top of the stack.
-/

namespace MiniLua

open Effects Machine

/-- The slot of the local is bound to the cell of the variable of its name. -/
def Local.BoundTo (cells : Array (Option Nat)) (l : Local) (b : String × Nat) : Prop :=
  b.1 = l.name ∧ cells[l.cell]? = some (some b.2)

namespace Home

variable {U : Home} {upvalues : Array Nat} {locals : List Local} {cells cells' : Array (Option Nat)}
  {env : Bindings}

/-- The variables in scope are those of the locals, in their slots, and those around the function. -/
def Sees (U : Home) (upvalues : Array Nat) (locals : List Local) (cells : Array (Option Nat))
    (env : Bindings) : Prop :=
  ∃ own around, env = own ++ around ∧ List.Forall₂ (Local.BoundTo cells) locals own ∧
    U.Supplied upvalues around

theorem cell?_of_bound {own : Bindings} (h : List.Forall₂ (Local.BoundTo cells) locals own)
    (around : Bindings) (name : String) :
    match resolve? locals name with
    | some slot => ∃ cell, Bindings.cell? (own ++ around) name = some cell ∧
        cells[slot]? = some (some cell)
    | none => Bindings.cell? (own ++ around) name = around.cell? name := by
  induction h with
  | nil => rfl
  | @cons l b locals own hb _ ih =>
    obtain ⟨hname, hcell⟩ := hb
    by_cases hl : l.name = name
    · have hresolve : resolve? (l :: locals) name = some l.cell := by simp [resolve?, hl]
      rw [hresolve]
      exact ⟨b.2, by simp [Bindings.cell?, hname, hl], hcell⟩
    · have hresolve : resolve? (l :: locals) name = resolve? locals name := by simp [resolve?, hl]
      have hfind : Bindings.cell? (b :: own ++ around) name = Bindings.cell? (own ++ around) name := by
        simp [Bindings.cell?, hname, hl]
      rw [hresolve, hfind]
      exact ih

namespace Sees

variable (h : U.Sees upvalues locals cells env)

include h

theorem cell {name : String} {slot : Nat} (hname : resolve? locals name = some slot) :
    ∃ cell, env.cell? name = some cell ∧ cells[slot]? = some (some cell) := by
  obtain ⟨own, around, rfl, hown, -⟩ := h
  have hcell := cell?_of_bound hown around name
  rwa [hname] at hcell

theorem upvalue {name : String} {i : Nat} (hname : resolve? locals name = none)
    (hcaptured : Captured U.proto.captures U.outer name i) :
    ∃ cell, env.cell? name = some cell ∧ upvalues[i]? = some cell := by
  obtain ⟨own, around, rfl, hown, hsupplied⟩ := h
  have hcell := cell?_of_bound hown around name
  rw [hname] at hcell
  obtain ⟨cell, hfound, hi⟩ := hsupplied.captured hcaptured
  exact ⟨cell, hcell.trans hfound, hi⟩

theorem global {name : String} (hname : resolve? locals name = none)
    (houter : ∀ level ∈ U.outer, resolve? level.locals name = none) : env.cell? name = none := by
  obtain ⟨own, around, rfl, hown, hsupplied⟩ := h
  have hcell := cell?_of_bound hown around name
  rw [hname] at hcell
  exact hcell.trans (hsupplied.global houter)

/-- What happens to other slots does not matter. -/
theorem agree (hcells : ∀ l ∈ locals, cells'[l.cell]? = cells[l.cell]?) :
    U.Sees upvalues locals cells' env := by
  obtain ⟨own, around, rfl, hown, hsupplied⟩ := h
  refine ⟨own, around, rfl, ?_, hsupplied⟩
  clear hsupplied
  induction hown with
  | nil => exact .nil
  | @cons l b locals own hb _ ih =>
    refine .cons ⟨hb.1, ?_⟩ (ih fun l hl ↦ hcells l (List.mem_cons_of_mem _ hl))
    rw [hcells l List.mem_cons_self]
    exact hb.2

/-- A local gets a fresh slot. -/
theorem declare {l : Local} (hfresh : U.Fresh locals l) (hroom : U.proto.cellCount ≤ cells.size)
    (cell : Nat) : U.Sees upvalues (l :: locals) (cells.setIfInBounds l.cell (some cell))
      ((l.name, cell) :: env) := by
  have hsees : U.Sees upvalues locals (cells.setIfInBounds l.cell (some cell)) env :=
    h.agree fun l' hl' ↦ Array.getElem?_setIfInBounds_ne (hfresh.cell_ne l' hl').symm
  obtain ⟨own, around, rfl, hown, hsupplied⟩ := hsees
  refine ⟨(l.name, cell) :: own, around, rfl, .cons ⟨rfl, ?_⟩ hown, hsupplied⟩
  exact Array.getElem?_setIfInBounds_self_of_lt (hfresh.cell_lt.trans_le hroom)

/-- Each cell that a function made here captures is there. -/
theorem supplies {capture : Capture} (hcapture : U.Supplies locals capture) (frame : Frame)
    (hframe : frame.cells = cells) : ∃ cell, Frame.Captures frame upvalues cell capture := by
  obtain ⟨own, around, rfl, hown, hsupplied⟩ := h
  cases capture with
  | cell n =>
    obtain ⟨l, hl, rfl⟩ := hcapture
    clear hsupplied
    induction hown with
    | nil => cases hl
    | @cons l' b locals own hb _ ih =>
      obtain rfl | hl := List.mem_cons.mp hl
      · refine ⟨b.2, ?_⟩
        rw [Frame.Captures, hframe]
        exact hb.2
      · exact ih hl
  | upvalue n =>
    have hn : n < upvalues.size := by
      rw [hsupplied.size]
      exact hcapture
    exact ⟨upvalues[n], Array.getElem?_eq_getElem hn⟩

/-- A function made here is supplied with the variables in scope. -/
theorem inner {p : Prototype} {cellsOf : List Nat} {frame : Frame} (hframe : frame.cells = cells)
    (hcells : List.Forall₂ (fun c cell ↦ Frame.Captures frame upvalues cell c) p.captures.toList
      cellsOf) : (U.inner locals p).Supplied cellsOf.toArray env where
  size := by
    change cellsOf.toArray.size = p.captures.size
    simpa using hcells.length_eq.symm
  captured {name i} hcaptured := by
    have hentry (capture : Capture) (hi : p.captures[i]? = some capture) :
        ∃ cell, cellsOf[i]? = some cell ∧ Frame.Captures frame upvalues cell capture := by
      have hrel := forall₂_getElem? hcells i
      rw [Array.getElem?_toList, hi] at hrel
      generalize cellsOf[i]? = found at hrel
      cases hrel with
      | some hcell => exact ⟨_, rfl, hcell⟩
    change Captured p.captures (⟨locals, U.proto.captures⟩ :: U.outer) name i at hcaptured
    rw [Captured] at hcaptured
    rw [List.getElem?_toArray]
    cases hname : resolve? locals name with
    | some slot =>
      rw [hname] at hcaptured
      obtain ⟨cell, hfound, hslot⟩ := h.cell hname
      obtain ⟨cell', hi, hcell'⟩ := hentry _ hcaptured
      rw [Frame.Captures, hframe, hslot] at hcell'
      cases hcell'
      exact ⟨cell, hfound, hi⟩
    | none =>
      rw [hname] at hcaptured
      obtain ⟨j, hi, houter⟩ := hcaptured
      obtain ⟨cell, hfound, hj⟩ := h.upvalue hname houter
      obtain ⟨cell', hi', hcell'⟩ := hentry _ hi
      rw [Frame.Captures, hj] at hcell'
      cases hcell'
      exact ⟨cell, hfound, hi'⟩
  global {name} houter := by
    have hlocals := houter ⟨locals, U.proto.captures⟩ List.mem_cons_self
    exact h.global hlocals fun level hlevel ↦ houter level (List.mem_cons_of_mem _ hlevel)

end Sees

end Home

theorem frames_of_calls {s : State} {f : Frame} {rest : List Activation}
    (h : s.activations = .guest f :: rest) :
    s.frames = f :: State.frames { s with activations := rest } := by
  rw [State.frames, h]
  rfl

/-- What stays while a function runs: its closure with the cells that one holds, the slot of the callee,
the arguments for `...`, how many results are expected, and the activations below. -/
structure Spot where
  closure : Nat
  upvalues : Array Nat
  base : Nat
  varargs : List Value
  expected : Option Nat
  rest : List Activation

def Spot.frame (p : Spot) (pc : Nat) (cells : Array (Option Nat)) : Frame :=
  ⟨p.closure, pc, p.base, cells, p.varargs, p.expected⟩

/-- The machine with the function moved to `pc`, with these cells bound and this stack. -/
def Spot.moved (p : Spot) (pc : Nat) (cells : Array (Option Nat)) (stack : Array Value) (s : State) :
    State :=
  { s with activations := .guest (p.frame pc cells) :: p.rest, stack }

/-- The function is at `pc`, with these cells bound and this stack. -/
structure Spot.At (p : Spot) (U : Home) (pc : Nat) (cells : Array (Option Nat)) (stack : Array Value)
    (s : State) : Prop where
  calls : s.activations = .guest (p.frame pc cells) :: p.rest
  stack : s.stack = stack
  code : ∃ i, s.heap.links[p.closure]? = some (i, p.upvalues) ∧ s.heap.protos[i]? = some U.proto
  room : U.proto.cellCount ≤ cells.size

namespace Spot.At

variable {natives : Array Native} {p : Spot} {U : Home} {pc pc' : Nat} {cells cells' : Array (Option Nat)}
  {S S' : Array Value} {s t : State}

theorem closure (h : p.At U pc cells S s) : ∃ c, s.heap.closures[p.closure]? = some c ∧
    c.upvalues = p.upvalues ∧ s.heap.protos[c.proto]? = some U.proto := by
  obtain ⟨i, hlink, hproto⟩ := h.code
  rw [Heap.links, Array.getElem?_map] at hlink
  obtain ⟨c, hc, heq⟩ := Option.map_eq_some_iff.mp hlink
  obtain ⟨rfl, hupvalues⟩ := Prod.mk.inj heq
  exact ⟨c, hc, hupvalues, hproto⟩

/-- A later state of the same function. -/
theorem later (h : p.At U pc cells S s) (hheap : s.heap.Conserves t.heap)
    (hcalls : t.activations = .guest (p.frame pc' cells') :: p.rest) (hstack : t.stack = S')
    (hroom : cells'.size = cells.size) : p.At U pc' cells' S' t := by
  obtain ⟨i, hlink, hproto⟩ := h.code
  exact ⟨hcalls, hstack, ⟨i, hheap.links hlink, hheap.protos hproto⟩, hroom ▸ h.room⟩

/-- Work on the data leaves the function where it was. -/
theorem works (h : p.At U pc cells S s) (hs : s.Works t) : p.At U pc cells S t := by
  have hrest := hs.rest
  refine h.later hs.links.conserves ?_ ?_ rfl
  · rw [hrest]
    exact h.calls
  · rw [hrest]
    exact h.stack

/-- What the function does to its frame and to the stack does not change what the machine shows. -/
theorem shows {code : Heap} {w : World} (hs : p.At U pc cells S s) (ht : p.At U pc' cells' S' t)
    (h : s.Shows natives code w) (hheap : t.heap = s.heap) (hmethods : t.stringMethods = s.stringMethods)
    (hhost : t.host = s.host) : t.Shows natives code w := by
  have hguests := h.guests
  obtain ⟨hpairs, hstrings, hhosts, hframes⟩ := h.tallies
  rw [State.AllGuests, hs.calls] at hguests
  rw [frames_of_calls hs.calls] at hframes
  refine ⟨⟨?_, ?_, hhost.trans hhosts, ?_⟩, ?_, ?_, h.alone, ?_⟩
  · rwa [hheap]
  · rwa [hheap, hmethods]
  · rw [frames_of_calls ht.calls, hheap]
    obtain ⟨f, fs, hf, hfs, heq⟩ := List.forall₂_cons_right_iff.mp hframes
    rw [heq]
    exact .cons hf hfs
  · rw [hheap]
    exact h.grown
  · rw [State.AllGuests, ht.calls]
    intro a ha
    obtain rfl | ha := List.mem_cons.mp ha
    · exact ⟨_, rfl⟩
    · exact hguests a (List.mem_cons_of_mem _ ha)
  · rw [hheap]
    exact h.routines

theorem moved (h : p.At U pc cells S s) (pc' : Nat) (S' : Array Value) :
    p.At U pc' cells S' (p.moved pc' cells S' s) := h.later (.refl _) rfl rfl rfl

theorem moved_shows {code : Heap} {w : World} (h : p.At U pc cells S s) (hshows : s.Shows natives code w)
    (pc' : Nat) (S' : Array Value) : (p.moved pc' cells S' s).Shows natives code w :=
  h.shows (h.moved pc' S') hshows rfl rfl rfl

/-- The instruction here is performed by a machine that has moved on to the next. -/
theorem performs {op : Opcode} {operands : Instruction → Prop} (h : p.At U pc cells S s)
    (hhas : U.Has op operands pc pc') : ∃ i, operands i ∧
      instruction s = perform (p.frame pc cells) U.proto.constants i op (p.moved pc' cells S s) := by
  obtain ⟨rfl, i, hi, hop, hoperands⟩ := hhas
  obtain ⟨c, hc, -, hproto⟩ := h.closure
  have hp : s.proto? (p.frame pc cells).closure = some U.proto :=
    Option.bind_eq_some_iff.mpr ⟨c, hc, hproto⟩
  have hmoved : advance s = p.moved (pc + 1) cells S s := by
    rw [advance_of_guest h.calls, Spot.moved, ← h.stack]
    rfl
  exact ⟨i, hoperands, by rw [instruction_of_guest h.calls hp hi hop, hmoved]⟩

theorem fetch {op : Opcode} {operands : Instruction → Prop} (h : p.At U pc cells S s)
    (natives : Array Native) (hhas : U.Has op operands pc pc') : ∃ i, operands i ∧
      step natives .execute s = Transition.afterInstruction natives
        (perform (p.frame pc cells) U.proto.constants i op (p.moved pc' cells S s)) := by
  obtain ⟨i, hoperands, hperforms⟩ := h.performs hhas
  exact ⟨i, hoperands, by rw [Transition.step_execute, hperforms]⟩

end Spot.At

end MiniLua
