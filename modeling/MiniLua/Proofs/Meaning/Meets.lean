import MiniLua.Proofs.Calls.Tended
import MiniLua.Proofs.Code.Layout
import MiniLua.Proofs.Meaning.Pairs
import MiniLua.Proofs.Stack.Discipline
import MiniLua.Proofs.Stack.Runs

/-!
How an evaluation and a run of compiled code go on side by side. Where the evaluation ends the run comes
to a state that shows the same world, or it ends with the same error, or there was no room for it; where
the fuel of the evaluation is spent the run takes at least as many steps.
-/

namespace MiniLua

open Effects Machine

section

variable (natives : Array Native)

/-- The run of guest code from here ends so. -/
def Halts (s : State) (result : Except RuntimeError (List Value)) (t : State) : Prop :=
  ∃ fuel, run natives fuel .execute s = .halted result t

/-- The run from here has not ended after `k` steps. -/
def Lasts (k : Nat) (s : State) : Prop := ∃ mode t, run natives k .execute s = .running mode t

/-- The run from here comes to a state in which guest code goes on. -/
def Reaches (s t : State) : Prop := ∃ k, run natives k .execute s = .running .execute t

end

/-- The next instruction calls a builtin that loads programs. -/
def State.CallsLoader (natives : Array Native) (s : State) : Prop :=
  ∃ argCount expected t i, ∃ b : Builtin, instruction s = .ok (.call argCount expected) t ∧
    t.stack.getD (t.stack.size - (argCount + 1)) .nil = .native i ∧ natives[i]? = some b.native ∧
    b.loads = true

section

variable {natives : Array Native} {s t u : State} {k : Nat}

theorem Reaches.refl (s : State) : Reaches natives s s := ⟨0, rfl⟩

theorem Reaches.of_step (h : step natives .execute s = .next .execute t) : Reaches natives s t :=
  ⟨1, run_of_next h 0⟩

theorem Reaches.trans (h : Reaches natives s t) (h' : Reaches natives t u) : Reaches natives s u := by
  obtain ⟨k, hk⟩ := h
  obtain ⟨l, hl⟩ := h'
  exact ⟨k + l, (run_of_running hk l).trans hl⟩

theorem Reaches.halts {result : Except RuntimeError (List Value)} (h : Reaches natives s t)
    (h' : Halts natives t result u) : Halts natives s result u := by
  obtain ⟨k, hk⟩ := h
  obtain ⟨fuel, hfuel⟩ := h'
  exact ⟨k + fuel, (run_of_running hk fuel).trans hfuel⟩

/-- A run that has ended stays so. -/
theorem run_of_halted {fuel : Nat} {mode : Mode} {result : Except RuntimeError (List Value)}
    (h : run natives fuel mode s = .halted result t) (more : Nat) :
    run natives (fuel + more) mode s = .halted result t := by
  obtain ⟨k, m, u, hk, hrun, hstep⟩ := run_eq_halted h
  obtain ⟨d, hd⟩ : ∃ d, fuel + more = k + (d + 1) := ⟨fuel + more - k - 1, by omega⟩
  rw [hd, run_of_running hrun, run, hstep]

theorem Lasts.of_le {l : Nat} (h : Lasts natives l s) (hk : k ≤ l) : Lasts natives k s := by
  obtain ⟨mode, t, hrun⟩ := h
  cases hr : run natives k .execute s with
  | running m u => exact ⟨m, u, hr⟩
  | halted result u =>
    have hhalted := run_of_halted hr (l - k)
    rw [Nat.add_sub_cancel' hk, hrun] at hhalted
    cases hhalted

theorem Lasts.zero (s : State) : Lasts natives 0 s := ⟨.execute, s, rfl⟩

theorem Lasts.step (h : step natives .execute s = .next .execute t) (ht : Lasts natives k t) :
    Lasts natives (k + 1) s := by
  obtain ⟨mode, u, hu⟩ := ht
  exact ⟨mode, u, (run_of_next h k).trans hu⟩

theorem Reaches.lasts (h : Reaches natives s t) (ht : Lasts natives k t) : Lasts natives k s := by
  obtain ⟨l, hl⟩ := h
  obtain ⟨mode, u, hu⟩ := ht
  have hlasts : Lasts natives (l + k) s := ⟨mode, u, (run_of_running hl k).trans hu⟩
  exact hlasts.of_le (Nat.le_add_left k l)

/-- Guest functions only: nothing is between an error and the host. -/
def State.AllGuests (s : State) : Prop := ∀ a ∈ s.activations, ∃ f, a = .guest f

theorem Transition.unwind_guests {floor : Nat} {calls : List Activation}
    (h : ∀ a ∈ calls, ∃ f, a = Activation.guest f) : (unwind floor calls).2 = [] := by
  fun_induction unwind floor calls with
  | case1 _ f rest ih => exact ih fun a ha ↦ h a (List.mem_cons_of_mem _ ha)
  | case2 calls _ hguest =>
    cases calls with
    | nil => rfl
    | cons a rest =>
      obtain ⟨f, rfl⟩ := h a List.mem_cons_self
      exact absurd rfl (hguest f rest)

/-- An error in guest code ends the run. -/
theorem halts_of_error {e : RuntimeError} (hstep : step natives .execute s = Transition.guestError e t)
    (ht : t.AllGuests) : ∃ u, Halts natives s (.error e) u ∧ u.heap = t.heap ∧ u.host = t.host := by
  obtain ⟨location, hnote⟩ := noteLocation_eq t
  have hnone : (Transition.unwind t.stack.size t.activations).2 = [] := Transition.unwind_guests ht
  rw [Transition.guestError, hnote] at hstep
  dsimp only at hstep
  rw [hnone] at hstep
  exact ⟨_, ⟨2, (run_of_next hstep 1).trans rfl⟩, rfl, rfl⟩

/-- Pushing values goes on behind them, or there is no room. -/
theorem reaches_or_overflows {vs : List Value}
    (hstep : step natives .execute s = Transition.afterInstruction natives (give vs t))
    (ht : t.AllGuests) :
    Reaches natives s { t with stack := t.stack ++ vs } ∨
      ∃ u, Halts natives s (.error .stackOverflow) u := by
  obtain hgive | ⟨pushed, hgive⟩ := give_cases vs t
  · rw [hgive] at hstep
    exact .inl (.of_step hstep)
  · rw [hgive] at hstep
    obtain ⟨u, hu, -⟩ := halts_of_error hstep ht
    exact .inr ⟨u, hu⟩

end

/-- A wide operand can name each instruction and each nested prototype. -/
structure Prototype.Short (p : Prototype) : Prop where
  code : p.code.size < Instruction.wideLimit
  protos : p.protos.size < Instruction.wideLimit

namespace Heap

/-- The prototype is short, and so are all that are nested in it. -/
def Short (h : Heap) (i : Nat) : Prop :=
  ∃ m ≤ i, ∀ j p, m ≤ j → h.protos[j]? = some p → p.Short ∧ ∀ k ∈ p.protos, m ≤ k

namespace Short

variable {h : Heap} {i : Nat} {p : Prototype} (hi : h.Short i) (hp : h.protos[i]? = some p)

include hi hp

theorem proto : p.Short := by
  obtain ⟨m, hm, hall⟩ := hi
  exact (hall i p hm hp).1

theorem nested {x k : Nat} (hx : p.protos[x]? = some k) : h.Short k := by
  obtain ⟨m, hm, hall⟩ := hi
  exact ⟨m, (hall i p hm hp).2 k (Array.mem_of_getElem? hx), hall⟩

end Short

end Heap

/-- A closure holds the cells that the variables around its function stand for. -/
structure Home.Supplied (U : Home) (upvalues : Array Nat) (around : Bindings) : Prop where
  size : upvalues.size = U.proto.captures.size
  captured {name : String} {i : Nat} : Captured U.proto.captures U.outer name i →
    ∃ cell, around.cell? name = some cell ∧ upvalues[i]? = some cell
  global {name : String} : (∀ level ∈ U.outer, resolve? level.locals name = none) →
    around.cell? name = none

/-- The routine's text was compiled to the code the closure runs. -/
def Routine.Made (code : Heap) (r : Routine) (proto : Nat) (upvalues : Array Nat) : Prop :=
  ∃ p outer, code.protos[proto]? = some p ∧ code.Short proto ∧
    Home.Runs ⟨p, code, outer, none⟩ r.params r.variadic r.body ∧
    Home.Supplied ⟨p, code, outer, none⟩ upvalues r.around

/-- The machine has compiled code, and the world has the texts of it; otherwise they correspond. -/
structure State.Shows (natives : Array Native) (code : Heap) (s : State) (w : World) : Prop where
  tallies : w.machine.Tallies natives.size s
  grown : code.Extends s.heap
  guests : s.AllGuests
  alone : w.machine.AllGuests
  routines {c : Nat} {r r' : Closure} : w.machine.heap.closures[c]? = some r →
    s.heap.closures[c]? = some r' →
    ∃ routine, w.routines[r.proto]? = some routine ∧ routine.Made code r'.proto r'.upvalues

/-- A later world, and a later state of the machine that shows it. -/
structure Later (w : World) (s : State) (w' : World) (t : State) : Prop where
  world : w.machine.heap.Grows w'.machine.heap
  state : s.heap.Precedes t.heap

namespace Later

variable {w w' w'' : World} {s t u : State}

theorem refl (w : World) (s : State) : Later w s w s := ⟨.refl _, .refl _⟩

theorem trans (h : Later w s w' t) (h' : Later w' t w'' u) : Later w s w'' u :=
  ⟨h.world.trans h'.world, h.state.trans h'.state⟩

theorem matches_mono {n : Nat} {v v' : Value} (h : Later w s w' t)
    (hv : w.machine.heap.Matches n s.heap v v') : w'.machine.heap.Matches n t.heap v v' :=
  hv.mono h.world h.state.toGrows

end Later

/-- Values of a world and of a machine that shows it. -/
abbrev World.Same (natives : Array Native) (w : World) (s : State) : Value → Value → Prop :=
  w.machine.heap.Matches natives.size s.heap

variable (natives : Array Native) (code : Heap) (k : Nat) (w : World) (s : State)

/-- What the run from `s` does where the evaluation from `w`, with fuel `k`, ends so. -/
inductive Meets {α : Type} (Q : α → World → State → Prop) : EStateM.Result Ending World α → Prop
  | overflows {r : EStateM.Result Ending World α} {t : State}
      (halts : Halts natives s (.error .stackOverflow) t) : Meets Q r
  | ok {a : α} {w' : World} {t : State} (reaches : Reaches natives s t) (later : Later w s w' t)
      (shows : t.Shows natives code w') (h : Q a w' t) : Meets Q (.ok a w')
  | error {e e' : RuntimeError} {w' : World} {t : State} (halts : Halts natives s (.error e') t)
      (same : e.Matches (w'.Same natives t) e')
      (heap : w'.machine.heap.Pairs natives.size t.heap) (host : t.host = w'.machine.host) :
      Meets Q (.error (.error e) w')
  | loads {w' : World} {t : State} (reaches : Reaches natives s t) (calls : t.CallsLoader natives) :
      Meets Q (.error .loads w')
  | spent {w' : World} (lasts : Lasts natives k s) : Meets Q (.error .spent w')

namespace Meets

variable {natives code k w s}
variable {α β : Type} {Q Q' : α → World → State → Prop} {R : β → World → State → Prop}
  {t : State} {m : Eval α} {f : α → Eval β}

theorem mono {r : EStateM.Result Ending World α} (h : Meets natives code k w s Q r)
    (hQ : ∀ a w' t, Later w s w' t → Q a w' t → Q' a w' t) : Meets natives code k w s Q' r := by
  cases h with
  | overflows halts => exact .overflows halts
  | ok reaches later shows h => exact .ok reaches later shows (hQ _ _ _ later h)
  | error halts same heap host => exact .error halts same heap host
  | loads reaches calls => exact .loads reaches calls
  | spent lasts => exact .spent lasts

/-- The same where the evaluation is known to end well. -/
theorem mono_ok {β : Type} {R : β → World → State → Prop} {a : α} {b : β} {w' : World}
    (h : Meets natives code k w s Q (.ok a w')) (hQ : ∀ t, Later w s w' t → Q a w' t → R b w' t) :
    Meets natives code k w s R (.ok b w') := by
  cases h with
  | overflows halts => exact .overflows halts
  | ok reaches later shows h => exact .ok reaches later shows (hQ _ later h)

/-- Where the evaluation has ended, the run goes on. -/
theorem extend {r : EStateM.Result Ending World α} (h : Meets natives code k w s Q r)
    (hrest : ∀ a w' t, Later w s w' t → t.Shows natives code w' → Q a w' t →
      Meets natives code k w' t Q' (.ok a w')) : Meets natives code k w s Q' r := by
  cases h with
  | overflows halts => exact .overflows halts
  | error halts same heap host => exact .error halts same heap host
  | loads reaches calls => exact .loads reaches calls
  | spent lasts => exact .spent lasts
  | ok reaches later shows h =>
    cases hrest _ _ _ later shows h with
    | overflows halts => exact .overflows (reaches.halts halts)
    | ok reaches' later' shows' h' => exact .ok (reaches.trans reaches') (later.trans later') shows' h'

theorem pure {a : α} (hs : s.Shows natives code w) (h : Q a w s) :
    Meets natives code k w s Q ((Pure.pure a : Eval α) w) :=
  .ok (.refl s) (.refl w s) hs h

/-- What the run does before the evaluation goes on. -/
theorem after {w₁ : World} {r : EStateM.Result Ending World α} (hreaches : Reaches natives s t)
    (hlater : Later w s w₁ t) (h : Meets natives code k w₁ t Q r) : Meets natives code k w s Q r := by
  cases h with
  | overflows halts => exact .overflows (hreaches.halts halts)
  | ok reaches later shows h => exact .ok (hreaches.trans reaches) (hlater.trans later) shows h
  | error halts same heap host => exact .error (hreaches.halts halts) same heap host
  | loads reaches calls => exact .loads (hreaches.trans reaches) calls
  | spent lasts => exact .spent (hreaches.lasts lasts)

theorem bind (hm : Meets natives code k w s Q (m w))
    (hf : ∀ a w' t, Later w s w' t → t.Shows natives code w' → Q a w' t →
      Meets natives code k w' t R (f a w')) : Meets natives code k w s R ((m >>= f) w) := by
  rw [bind_apply]
  cases hr : m w with
  | ok a w' =>
    rw [hr] at hm
    cases hm with
    | overflows halts => exact .overflows halts
    | ok reaches later shows h => exact (hf _ _ _ later shows h).after reaches later
  | error e w' =>
    rw [hr] at hm
    cases hm with
    | overflows halts => exact .overflows halts
    | error halts same heap host => exact .error halts same heap host
    | loads reaches calls => exact .loads reaches calls
    | spent lasts => exact .spent lasts

/-- Evaluation that takes no step of the run. -/
theorem bind_eq {a : α} {w₁ : World} (hm : m w = .ok a w₁)
    (h : Meets natives code k w s R (f a w₁)) : Meets natives code k w s R ((m >>= f) w) := by
  rwa [bind_of_ok hm]

end Meets

namespace State.Shows

variable {natives : Array Native} {code : Heap} {s t : State} {w : World} {m : State}

/-- What changes nothing but data and the activations of both shows what became of the world. -/
theorem renewed (h : s.Shows natives code w) (ht : m.Tallies natives.size t)
    (hw : w.machine.heap.SameLinks m.heap) (hs : s.heap.SameLinks t.heap)
    (hgrows : s.heap.Grows t.heap) (hguests : t.AllGuests) (halone : m.AllGuests) :
    t.Shows natives code { w with machine := m } where
  tallies := ht
  grown := h.grown.trans ⟨hgrows.bytes, hs.conserves.protos⟩
  guests := hguests
  alone := halone
  routines {c r r'} hr hr' := by
    have hlink {h k : Heap} {c : Nat} {r : Closure} (g : h.SameLinks k) (hr : k.closures[c]? = some r) :
        ∃ r₀, h.closures[c]? = some r₀ ∧ r₀.proto = r.proto ∧ r₀.upvalues = r.upvalues := by
      have hlinks : h.links[c]? = some (r.proto, r.upvalues) := by
        rw [← g.links, Heap.links, Array.getElem?_map, hr]
        rfl
      rw [Heap.links, Array.getElem?_map] at hlinks
      obtain ⟨r₀, hr₀, heq⟩ := Option.map_eq_some_iff.mp hlinks
      exact ⟨r₀, hr₀, (Prod.mk.inj heq).1, (Prod.mk.inj heq).2⟩
    obtain ⟨r₀, hr₀, hproto, -⟩ := hlink hw hr
    obtain ⟨r₁, hr₁, hproto', hupvalues⟩ := hlink hs hr'
    rw [← hproto, ← hproto', ← hupvalues]
    exact h.routines hr₀ hr₁

/-- Work on the data that is done in both shows what became of the world. -/
theorem works (h : s.Shows natives code w) (ht : m.Tallies natives.size t) (hw : w.machine.Works m)
    (hs : s.Works t) : t.Shows natives code { w with machine := m } := by
  refine h.renewed ht hw.links hs.links hs.grows ?_ ?_
  · rw [State.AllGuests, hs.rest]
    exact h.guests
  · rw [State.AllGuests, hw.rest]
    exact h.alone

theorem later (hw : w.machine.Works m) (hs : s.Works t) : Later w s { w with machine := m } t :=
  ⟨hw.grows, hs.precedes⟩

end State.Shows

end MiniLua
