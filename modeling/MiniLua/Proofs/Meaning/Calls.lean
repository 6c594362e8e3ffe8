import MiniLua.Proofs.Meaning.Statements

/-! Calls: what the evaluation of a call returns, the run of it returns. -/

namespace MiniLua

open Effects Machine Eval

section

variable {natives : Array Native} {code : Heap} {p : Spot} {U : Home} {pc k : Nat}
  {cells : Array (Option Nat)} {S : Array Value} {w w' : World} {s t : State} {vs vs' : List Value}
  {expected : Option Nat}

end

section

variable {builtins : Array Builtin} {code : Heap} {p : Spot} {U : Home} {pc k : Nat}
  {cells : Array (Option Nat)} {S : Array Value} {w : World} {s t : State} {args args' : List Value}
  {expected : Option Nat}

/-- The machine while a builtin runs. -/
def State.serving (call : NativeCall) (s : State) : State :=
  { s with activations := .native call :: s.activations }

/-- A builtin was just entered in a world, where the whole stack is its window. -/
def World.serving (w : World) (i : Nat) (b : Native) (args : List Value) (expected : Option Nat) : State :=
  State.serving ⟨i, b.name, 0, args.length, expected, .nothing⟩ { w.machine with stack := args.toArray }

variable {natives : Array Native}

/-- A builtin sees the same in the world and in the machine that shows it. -/
theorem State.Shows.linked {f' : Value} (h : t.Shows natives code w) (i : Nat) (b : Native)
    (expected : Option Nat) (hargs : List.Forall₂ (w.Same natives t) args args') (hstack : t.stack = S.push f' ++ args') :
    (w.serving i b args expected).Linked natives.size
      (t.serving ⟨i, b.name, S.size + 1, args'.length, expected, .nothing⟩) := by
  have hdrop : t.stack.toList.drop (S.size + 1) = args' := by
    rw [hstack, Array.toList_appendList, ← Array.size_push f', ← Array.length_toList, List.drop_left]
  refine ⟨h.tallies.heap.toTwins, h.tallies.host, h.tallies.frames, _, _, rfl, rfl, rfl,
    hargs.length_eq.symm, rfl, Nat.zero_le _, ?_, ?_⟩
  · change S.size + 1 ≤ t.stack.size
    rw [hstack, size_appendList, Array.size_push]
    omega
  · change List.Forall₂ _ (args.toArray.toList.drop 0) (t.stack.toList.drop (S.size + 1))
    rw [hdrop]
    exact hargs

/-- Corresponding values are left in the windows of linked builtins. -/
theorem State.Linked.results {n : Nat} {m : State} {call call' : NativeCall} {rest rest' : List Activation}
    {f' : Value} (h : m.Linked n t) (hcalls : m.activations = .native call :: rest)
    (hcalls' : t.activations = .native call' :: rest') (hbase : call.base = 0)
    (hbase' : S.size + 1 = call'.base) (hstack : t.stack = S ++ (f' :: args')) :
    List.Forall₂ (m.heap.Matches n t.heap) m.stack.toList args' := by
  obtain ⟨_, _, hm, ht, -, -, -, -, -, hsame⟩ := h.native
  rw [State.native?, hcalls] at hm
  rw [State.native?, hcalls'] at ht
  cases hm
  cases ht
  rw [hbase, ← hbase', hstack, Array.appendList_cons, Array.toList_appendList, ← Array.size_push f',
    ← Array.length_toList, List.drop_left] at hsame
  exact hsame

/-- What a builtin leaves of a world and of the machine that shows it. -/
theorem State.Shows.left {m₁ t₁ : State} {call call' : NativeCall} {stack : Array Value}
    (h : t.Shows natives code w) (hlinked : m₁.Linked natives.size t₁)
    (hm : (State.serving call { w.machine with stack }).Retains m₁)
    (ht : (t.serving call').Retains t₁) (S S' : Array Value) :
    State.Shows natives code { t₁ with activations := t.activations, stack := S' }
      { w with machine := { m₁ with activations := w.machine.activations, stack := S } } := by
  have hpairs : m₁.heap.Pairs natives.size t₁.heap := h.tallies.heap.retained hlinked.heap hm.heap ht.heap
  refine h.renewed ⟨hpairs, ?_, hlinked.host, ?_⟩ hm.heap.sameLinks ht.heap.sameLinks ht.heap.grows
    h.guests h.alone
  · dsimp only
    rw [hm.stringMethods, ht.stringMethods]
    exact h.tallies.stringMethods.mono hm.heap.grows ht.heap.grows
  · exact h.tallies.frames.imp fun _ _ hf ↦ hf.mono hm.heap.grows ht.heap.grows

/-- A function was just called in a world. -/
def World.called (w : World) (closure : Nat) (r : Routine) (args : List Value) : World :=
  { w with machine := { w.machine with
      heap := { w.machine.heap with
        cells := w.machine.heap.cells ++ adjusted args (some r.params.length) }
      activations := .guest ⟨closure, 0, 0, #[], [], none⟩ :: w.machine.activations } }

/-- The variables in scope where the body of a function begins, the parameters in cells from `next` on. -/
def Routine.scope (r : Routine) (next : Nat) : Bindings :=
  (r.params.zip (List.range' next r.params.length)).reverse ++ r.around

/-- Parameters are bound to the first cells of a function that was entered. -/
theorem paramLocals_bound (params : List String) (next : Nat) (unbound : List (Option Nat)) :
    List.Forall₂ (Local.BoundTo ((List.range' next params.length).map some ++ unbound).toArray)
      (paramLocals params) (params.zip (List.range' next params.length)).reverse := by
  rw [paramLocals, Builder.start, List.forall₂_reverse_iff, List.forall₂_iff_get]
  refine ⟨by simp, fun i hi hi' ↦ ?_⟩
  have hlt : i < params.length := by simpa using hi
  refine ⟨by simp, ?_⟩
  simp [List.getElem?_append_left, hlt]

/-- The machine with a function just entered whose arguments are on top of the stack. -/
theorem entered_eq {closure : Nat} {proto : Prototype} {f' : Value}
    (hstack : t.stack = S.push f' ++ args') :
    entered t proto closure S.size expected = { t with
      stack := S
      heap := { t.heap with cells := t.heap.cells ++ adjusted args' (some proto.arity) }
      activations := .guest (entryFrame t proto closure S.size expected args') :: t.activations } := by
  have hwindow : (t.stack.extract (S.size + 1) t.stack.size).toList = args' := by
    rw [hstack, ← Array.size_push f', extract_appendList]
  have hbelow : t.stack.shrink S.size = S := by
    rw [hstack, ← Array.appendList_cons, shrink_appendList]
  rw [entered]
  dsimp only
  rw [hwindow, State.truncate, hbelow]

theorem Heap.Precedes.withCells (h : Heap) (cells : Array Value) : h.Precedes { h with cells } :=
  ⟨⟨id, Nat.le_refl _, Nat.le_refl _⟩, ⟨id, id⟩⟩

theorem Later.called (w : World) (t : State) (closure floor : Nat) (r : Routine) (args : List Value)
    (proto : Prototype) (expected : Option Nat) :
    Later w t (w.called closure r args) (entered t proto closure floor expected) :=
  ⟨(Heap.Precedes.withCells _ _).toGrows, .withCells _ _⟩

/-- A function was entered in the machine and called in the world. -/
theorem State.Shows.enters {closure : Nat} {r : Routine} {proto : Prototype} {f' : Value}
    (h : t.Shows natives code w) (hc : w.Same natives t (.closure closure) (.closure closure))
    (hargs : List.Forall₂ (w.Same natives t) args args')
    (hstack : t.stack = S.push f' ++ args') (harity : proto.arity = r.params.length) :
    State.Shows natives code (Machine.entered t proto closure S.size expected) (w.called closure r args) := by
  have hgrows (h : Heap) (cells : Array Value) : h.Grows { h with cells } :=
    (Heap.Precedes.withCells h cells).toGrows
  have hcells := List.rel_append h.tallies.heap.cells (forall₂_adjusted .nil hargs (some r.params.length))
  rw [entered_eq hstack, harity]
  refine h.renewed ⟨?_, ?_, h.tallies.host, .cons ?_ ?_⟩ ⟨rfl, rfl⟩ ⟨rfl, rfl⟩ (hgrows _ _) ?_ ?_
  · have hheap := h.tallies.heap
    refine .of_grows (hgrows _ _) (hgrows _ _) hheap.exact hheap.exact' hheap.tables hheap.closures ?_
    simpa only [Array.toList_appendList] using hcells
  · exact h.tallies.stringMethods.mono (hgrows _ _) (hgrows _ _)
  · exact hc.mono (hgrows _ _) (hgrows _ _)
  · exact h.tallies.frames.imp fun _ _ hf ↦ hf.mono (hgrows _ _) (hgrows _ _)
  · exact List.forall_mem_cons.mpr ⟨⟨_, rfl⟩, h.guests⟩
  · exact List.forall_mem_cons.mpr ⟨⟨_, rfl⟩, h.alone⟩

/-- What stays while a function runs that was entered with these arguments on top of the stack. -/
def State.spot (t : State) (closure : Nat) (upvalues : Array Nat) (proto : Prototype) (floor : Nat)
    (args' : List Value) (expected : Option Nat) : Spot :=
  ⟨closure, upvalues, floor, if proto.variadic then args'.drop proto.arity else [], expected,
    t.activations⟩

variable {closure rounds : Nat} {call : Value → List Value → Option Nat → Eval (List Value)}
  {c c' : Closure} {r : Routine} {f' : Value} {proto : Prototype} {outer : List Level}

variable (expected rounds call) in
/-- A function that was entered is at the beginning of its code, with its parameters in scope. -/
theorem State.Shows.begins (h : t.Shows natives code w)
    (hc : w.Same natives t (.closure closure) (.closure closure))
    (hc' : t.heap.closures[closure]? = some c') (hargs : List.Forall₂ (w.Same natives t) args args')
    (hstack : t.stack = S.push f' ++ args') (hproto : code.protos[c'.proto]? = some proto)
    (hshort : code.Short c'.proto) (hruns : Home.Runs ⟨proto, code, outer, none⟩ r.params r.variadic r.body)
    (hsupplied : Home.Supplied ⟨proto, code, outer, none⟩ c'.upvalues r.around) :
    (t.spot closure c'.upvalues proto S.size args' expected).Runs natives code ⟨proto, code, outer, none⟩
      ⟨closure, if r.variadic then args.drop r.params.length else [], rounds, call⟩
      (paramLocals r.params) (r.scope w.machine.heap.cells.size)
      (entryFrame t proto closure S.size expected args').cells 0 S (w.called closure r args)
      (entered t proto closure S.size expected) where
  fits := ⟨rfl, rfl, c'.proto, hproto, hshort⟩
  place := by
    have hlinks : t.heap.links[closure]? = some (c'.proto, c'.upvalues) := by
      rw [Heap.links, Array.getElem?_map, hc']
      rfl
    rw [entered_eq hstack]
    refine ⟨rfl, rfl, ⟨c'.proto, hlinks, h.grown.protos hproto⟩, ?_⟩
    simp only [entryFrame, List.size_toArray, List.length_append, List.length_map, List.length_range',
      List.length_replicate]
    omega
  shows := h.enters hc hargs hstack hruns.arity
  varargs := by
    have hvariadic : proto.variadic = r.variadic := hruns.variadic
    have harity : proto.arity = r.params.length := hruns.arity
    have hdrop := List.forall₂_drop r.params.length
      (hargs.imp fun _ _ ↦ (Later.called w t closure S.size r args proto expected).matches_mono)
    rw [State.spot, hvariadic, harity]
    cases r.variadic with
    | true => exact hdrop
    | false => exact .nil
  sees := by
    have harity : proto.arity = r.params.length := hruns.arity
    refine ⟨_, _, rfl, ?_, hsupplied⟩
    rw [entryFrame, harity, h.tallies.heap.cells_size]
    exact paramLocals_bound _ _ _

/-- However the body of a function ends, the function returns. -/
theorem Home.Runs.meets {U : Home} {params : List String} {variadic : Bool} {body : Block} {c : Context}
    {env : Bindings} (h : U.Runs params variadic body) (hexit : U.exit = none)
    (hruns : p.Runs natives code U c (paramLocals params) env cells 0 S w s)
    (hcalls : c.CallsMeet natives code) :
    Meets natives code c.rounds w s (fun flow w u ↦ p.Returning natives U S flow.results w u)
      (body.eval c env w) := by
  obtain ⟨e, hat, hreturn⟩ := h.code
  refine (body.meets hcalls hat hruns).mono fun flow w₁ t₁ _ hended ↦ ?_
  cases flow with
  | next =>
    obtain ⟨cells₁, hat₁, -, -⟩ := hended
    have hat₁ : p.At U e cells₁ (S ++ ([] : List Value)) t₁ := hat₁
    exact hat₁.returns hreturn rfl .nil
  | exit =>
    obtain ⟨exit, _, hexit', -⟩ := hended
    rw [hexit] at hexit'
    cases hexit'
  | ret vs => exact hended

/-- A function returns: its activation is gone, in the world as well. -/
theorem Spot.Returning.pops {vs : List Value} (h : p.Returning natives U S vs w s)
    (hshows : s.Shows natives code w) (hbase : p.base = S.size) : ∃ vs',
      List.Forall₂ (w.Same natives s) vs vs' ∧
      step natives .execute s =
        Transition.giveResults vs' p.expected { s with activations := p.rest, stack := S } ∧
      State.Shows natives code { s with activations := p.rest, stack := S }
        { w with machine := { w.machine with activations := w.machine.activations.tail } } := by
  obtain ⟨pc, cells, vs', hat, hvs, hstep⟩ := h
  refine ⟨vs', hvs, ?_, ?_⟩
  · have hbelow : S.shrink p.base = S := by
      rw [hbase]
      simp
    rw [hstep, Transition.guestReturn, Spot.moved]
    dsimp only [State.truncate, Spot.frame]
    rw [hbelow]
  · have hguests := hshows.guests
    have halone := hshows.alone
    obtain ⟨hheap, hmethods, hhost, hframes⟩ := hshows.tallies
    rw [frames_of_calls hat.calls] at hframes
    rw [State.AllGuests, hat.calls] at hguests
    have htail : List.Forall₂ (fun f f' : Frame ↦
        w.Same natives s (.closure f.closure) (.closure f'.closure))
        (State.frames { w.machine with activations := w.machine.activations.tail })
        (State.frames { s with activations := p.rest }) := by
      cases hcalls : w.machine.activations with
      | nil =>
        rw [State.frames, hcalls] at hframes
        cases hframes
      | cons a rest =>
        obtain ⟨f, rfl⟩ := halone a (hcalls ▸ List.mem_cons_self)
        rw [frames_of_calls hcalls] at hframes
        cases hframes with
        | cons _ hrest => exact hrest
    exact hshows.renewed ⟨hheap, hmethods, hhost, htail⟩ (.refl _) (.refl _) (.refl _)
      (fun a ha ↦ hguests a (List.mem_cons_of_mem _ ha)) (fun a ha ↦ halone a (List.mem_of_mem_tail ha))

end

end MiniLua
