import MiniLua.Proofs.Calls.Fixed
import MiniLua.Proofs.Calls.Selected
import MiniLua.Proofs.Instances.Still

/-!
Environments. A closure starts with the environment of the one that makes it, or with the globals if it was
loaded, and keeps it until `setfenv` gives it another. Its globals are those of the environment it has when it
reads or writes them.
-/

namespace MiniLua

open Effects Machine

/-- The heap with another environment for a closure. -/
def Heap.withEnvironment (h : Heap) (c env : Nat) : Heap :=
  { h with closures := h.closures.modify c fun k ↦ { k with env } }

theorem Heap.getElem?_withEnvironment (h : Heap) (c env i : Nat) : (h.withEnvironment c env).closures[i]? =
    if c = i then h.closures[i]?.map fun k ↦ { k with env } else h.closures[i]? :=
  Array.getElem?_modify

namespace State

/-- The closures that run, from the innermost out. Builtins do not count. -/
def levels (s : State) : List Nat := s.frames.map Frame.closure

theorem levels_of_guest {s : State} {frame : Frame} {rest : List Activation}
    (h : s.activations = .guest frame :: rest) :
    s.levels = frame.closure :: State.levels { s with activations := rest } := by
  simp [levels, frames, h]

theorem levels_advance (s : State) : (advance s).levels = s.levels := by
  unfold advance
  split
  · next frame rest h =>
    rw [levels_of_guest h, levels_of_guest (s := { s with
      activations := .guest { frame with ip := frame.ip + 1 } :: rest }) rfl]
  · rfl

theorem levels_entering (s : State) (slot : Nat) (b : Native) (base : Nat) (args : List Value)
    (expected : Option Nat) : (s.entering slot b base args expected).levels = s.levels := rfl

/-! ### What most steps do to closures -/

/-- The closures there were are as they were, and new ones are over the globals, which are where they were. -/
structure Settled (s t : State) : Prop where
  globals : t.globals = s.globals
  made : ∃ made : List Closure, t.heap.closures = s.heap.closures ++ made ∧ ∀ k ∈ made, k.env = s.globals

variable {s t : State}

theorem Settled.of_closures (hglobals : t.globals = s.globals) (hclosures : t.heap.closures = s.heap.closures) :
    s.Settled t := ⟨hglobals, [], by simp [hclosures], fun _ h ↦ nomatch h⟩

theorem Settled.getElem? (h : s.Settled t) {c : Nat} {k : Closure} (hk : s.heap.closures[c]? = some k) :
    t.heap.closures[c]? = some k := by
  obtain ⟨made, hmade, -⟩ := h.made
  obtain ⟨hc, -⟩ := Array.getElem?_eq_some_iff.mp hk
  rw [hmade, ← Array.getElem?_toList, Array.toList_appendList, List.getElem?_append_left (by simpa using hc),
    Array.getElem?_toList, hk]

instance : Std.Refl Settled := ⟨fun _ ↦ .of_closures rfl rfl⟩

instance : IsTrans State Settled where
  trans _ _ _ h h' := by
    obtain ⟨made, hmade, henv⟩ := h.made
    obtain ⟨made', hmade', henv'⟩ := h'.made
    refine ⟨h'.globals.trans h.globals, made ++ made', ?_, fun k hk ↦ ?_⟩
    · rw [hmade', hmade, appendList_append]
    · obtain hk | hk := List.mem_append.mp hk
      · exact henv k hk
      · exact (henv' k hk).trans h.globals

instance : Roaming Settled where
  intern _ _ := .of_closures rfl rfl
  tables _ _ := .of_closures rfl rfl
  operands _ _ _ _ := .of_closures rfl rfl
  host _ _ := .of_closures rfl rfl
  loads _ _ h _ := .of_closures rfl h.closures
  closure s proto := ⟨rfl, [⟨proto, s.globals, #[]⟩], by simp [Heap.allocClosure], fun k hk ↦ by
    rw [List.mem_singleton.mp hk]⟩
  calls _ _ _ := .of_closures rfl rfl
  window _ _ _ := .of_closures rfl rfl
  cells _ _ := .of_closures rfl rfl

/-- The heap is the same. -/
def SameHeap (s t : State) : Prop := t.heap = s.heap

instance : Std.Refl SameHeap := ⟨fun _ ↦ rfl⟩

instance : IsTrans State SameHeap := ⟨fun _ _ _ h h' ↦ Eq.trans h' h⟩

instance : Mobile SameHeap where
  calls _ _ _ := rfl
  window _ _ _ := rfl

end State

/-! ### Calls of `setfenv` -/

/-- A value stands for a closure: for itself, or as a number for the closure that runs so many levels out. -/
inductive Designates (h : Heap) (levels : List Nat) : Value → Nat → Prop
  | closure (c : Nat) : Designates h levels (.closure c) c
  | level {v : Value} {d : Int64} {n c : Nat} (hview : (h.number? v).bind Value.int? = some d)
      (hd : d.toInt = n + 1) (hc : levels[n]? = some c) : Designates h levels v c

theorem Designates.eq {h : Heap} {levels : List Nat} {v : Value} {c c' : Nat} (hc : Designates h levels v c)
    (hc' : Designates h levels v c') : c = c' := by
  cases hc with
  | closure =>
    cases hc' with
    | closure => rfl
    | level hview _ _ => cases hview
  | level hview hd hc =>
    cases hc' with
    | closure => cases hview
    | level hview' hd' hc' =>
      rw [hview, Option.some_inj] at hview'
      subst hview'
      rw [hd] at hd'
      obtain rfl := Int.natCast_inj.mp (add_right_cancel hd')
      exact Option.some_inj.mp (hc.symm.trans hc')

/-- A value that is no closure stands for one only as a positive number. -/
theorem Designates.exists_level {h : Heap} {levels : List Nat} {v : Value} {c : Nat}
    (hc : Designates h levels v c) (hv : ∀ c, v ≠ .closure c) :
    ∃ (d : Int64) (n : Nat), (h.number? v).bind Value.int? = some d ∧ d.toInt = n + 1 ∧ levels[n]? = some c := by
  cases hc with
  | closure => exact absurd rfl (hv c)
  | level hview hd hc => exact ⟨_, _, hview, hd, hc⟩

namespace Library

section

variable {s : State} {v : Value}

/-- The closure that runs so many levels out. -/
def level : Machine (Option Nat) := do
  let depth := (← argInt 0).toInt
  if depth = 0 then throw (.unsupported .threadEnvironment)
  if depth < 0 then throw (← badArgument 0 "level must be non-negative")
  return (← callFrame? depth.toNat).map Frame.closure

/-- The target of `setfenv` is the closure that its first argument stands for. If there is none, it has no
target or fails. -/
def Resolves (s : State) (v : Value) (target : Machine (Option Nat)) : Prop :=
  (∃ c, Designates s.heap s.levels v c ∧ target s = .ok (some c) s) ∨
    (∀ c, ¬ Designates s.heap s.levels v c) ∧ (target s = .ok none s ∨ ∃ e, target s = .error e s)

/-- A value that is no closure is read as a depth, and only a positive one can be that of a running closure. -/
theorem resolves_level (harg : arg 0 s = .ok v s) (hv : ∀ c, v ≠ .closure c) : Resolves s v level := by
  cases hview : (s.heap.number? v).bind Value.int? with
  | none =>
    obtain ⟨e, he⟩ := argInt_fails harg hview
    refine .inr ⟨fun c hc ↦ ?_, .inr ⟨e, bind_of_error he⟩⟩
    obtain ⟨d, n, hd, -⟩ := hc.exists_level hv
    cases hview.symm.trans hd
  | some d =>
    have hlevel : level s = _ := bind_of_ok (argInt_of_view harg hview)
    by_cases hpos : 0 < d.toInt
    · obtain ⟨n, hn⟩ := Int.eq_succ_of_zero_lt hpos
      have hframe : level s = .ok s.levels[n]? s := by
        rw [hlevel]
        dsimp only
        rw [if_neg (by omega), if_neg (by omega), hn, State.levels, List.getElem?_map]
        rfl
      cases hc : s.levels[n]? with
      | some c => exact .inl ⟨c, .level hview hn hc, hframe.trans (by rw [hc])⟩
      | none =>
        refine .inr ⟨fun c hdesignates ↦ ?_, .inl (hframe.trans (by rw [hc]))⟩
        obtain ⟨d', n', hd, hn', hc'⟩ := hdesignates.exists_level hv
        obtain rfl := Option.some_inj.mp (hview.symm.trans hd)
        obtain rfl : n' = n := by omega
        cases hc.symm.trans hc'
    · refine .inr ⟨fun c hc ↦ ?_, .inr ?_⟩
      · obtain ⟨d', n, hd, hpos', -⟩ := hc.exists_level hv
        obtain rfl := Option.some_inj.mp (hview.symm.trans hd)
        omega
      · rw [hlevel]
        dsimp only
        split
        · exact ⟨_, rfl⟩
        · rw [if_pos (by omega)]
          exact ⟨_, rfl⟩

theorem resolves_environmentTarget? (harg : arg 0 s = .ok v s) : Resolves s v environmentTarget? := by
  rw [Resolves, environmentTarget?, bind_of_ok harg]
  cases v with
  | closure c => exact .inl ⟨c, .closure c, rfl⟩
  | int | float | string => exact resolves_level harg fun c h ↦ by cases h
  | _ =>
    refine .inr ⟨fun c hc ↦ ?_, .inr ⟨_, rfl⟩⟩
    obtain ⟨d, n, hd, -⟩ := hc.exists_level fun c h ↦ by cases h
    cases hd

/-- The closure that the first argument stands for gets the table that is the second. If they are none, the heap
stays as it is. -/
theorem heap_setfenv {call : NativeCall} {rest : List Activation} {low : Array Value} {args : List Value}
    (h : s.Serving call rest low args) (hcount : call.argCount = args.length) :
    (∃ c env, Designates s.heap s.levels (args.getD 0 .nil) c ∧ args.getD 1 .nil = .table env ∧
        (final (setfenv.start s)).heap = s.heap.withEnvironment c env) ∨
      (∀ c env, Designates s.heap s.levels (args.getD 0 .nil) c → args.getD 1 .nil ≠ .table env) ∧
        (final (setfenv.start s)).heap = s.heap := by
  have henv := arg_of_count h hcount 1
  have hstay : (final ((do setResults []; return .finished : Machine Outcome) s)).heap = s.heap := by
    rw [bind_of_ok (setResults_apply h [])]
    rfl
  have hset (c env : Nat) : (final ((do
      changeHeap fun h ↦ { h with closures := h.closures.modify c fun c ↦ { c with env } }
      setResults [.closure c]
      return .finished : Machine Outcome) s)).heap = s.heap.withEnvironment c env := by
    have hlater : State.Serving call rest low args { s with heap := s.heap.withEnvironment c env } :=
      ⟨h.calls, h.base, h.stack⟩
    have hchange : changeHeap (fun h ↦ { h with closures := h.closures.modify c fun c ↦ { c with env } }) s =
        .ok () { s with heap := s.heap.withEnvironment c env } := rfl
    rw [bind_of_ok hchange, bind_of_ok (setResults_apply hlater _)]
    rfl
  simp only [setfenv, Native.plain, bind_assoc]
  obtain ⟨c, hc, htarget⟩ | ⟨hnone, htarget | ⟨e, htarget⟩⟩ :=
    resolves_environmentTarget? (arg_of_count h hcount 0)
  · rw [bind_of_ok htarget, bind_of_ok henv]
    cases htable : args.getD 1 .nil with
    | table env => exact .inl ⟨c, env, hc, rfl, hset c env⟩
    | _ =>
      refine .inr ⟨fun c env _ h ↦ ?_, hstay⟩
      cases h
  · rw [bind_of_ok htarget, bind_of_ok henv]
    exact .inr ⟨fun c env hc ↦ absurd hc (hnone c), hstay⟩
  · rw [bind_of_error htarget]
    exact .inr ⟨fun c env hc ↦ absurd hc (hnone c), rfl⟩

end

section

variable {natives : Array Native} {b : Native} {args : List Value} {mode : Mode} {s : State}

theorem heap_afterNative (r : EStateM.Result RuntimeError State Outcome) :
    (Transition.afterNative r).state.heap = (final r).heap :=
  Transition.keeps_afterNative (R := State.SameHeap) (Std.Refl.refl (final r))

/-- A step from `s` is a call of `b`. A function makes it, or the host or a builtin. -/
inductive Calls (natives : Array Native) (b : Native) (args : List Value) : Mode → State → Prop
  | guest {s t : State} {low : Array Value} {expected : Option Nat}
      (h : CallsBuiltin natives b args expected low s t) : Calls natives b args .execute s
  | host {s : State} {slot : Nat} (hslot : natives[slot]? = some b) :
      Calls natives b args (.enter (.native slot) args) s

/-- There is room for a call. -/
def Admits (s : State) : Mode → Prop
  | .enter _ args => s.HasRoom args
  | .execute | .deliver _ => s.activations.length < s.options.maxCallDepth

/-- The builtin that is called sees its arguments, and what its call does to the heap the builtin does. -/
theorem Calls.step_cases (h : Calls natives b args mode s) :
    (Admits s mode ∧ ∃ call rest low x, x.Serving call rest low args ∧ call.argCount = args.length ∧
        x.heap = s.heap ∧ x.levels = s.levels ∧ (step natives mode s).state.heap = (final (b.start x)).heap) ∨
      ¬ Admits s mode ∧ (step natives mode s).state.heap = s.heap := by
  cases h with
  | @guest s t low expected h =>
    -- the call is read in `t`, where the caller has moved on but the same closures run
    obtain ⟨slot, hstack, hstep⟩ := h.enters
    have hadvance := (instruction_call h.read).1
    have hlength := (sameCalls_instruction h.read).length_eq
    have hoptions : t.options = s.options := by rw [hadvance, advance_options]
    rw [hstep]
    by_cases hdepth : t.options.maxCallDepth ≤ t.activations.length
    · rw [if_pos hdepth]
      refine .inr ⟨?_, ?_⟩
      · rw [Admits, ← hoptions]
        omega
      · exact (Transition.respects_guestError (R := State.SameHeap) _ t).trans h.heap
    · rw [if_neg hdepth]
      refine .inl ⟨?_, _, _, _, _, serving_entering b expected hstack, rfl, h.heap, ?_, heap_afterNative _⟩
      · rw [Admits, ← hoptions]
        omega
      · rw [State.levels_entering, hadvance, State.levels_advance]
  | @host s slot hslot =>
    rw [step]
    obtain ⟨hroom, location, hcall⟩ | ⟨hshort, u, hu, hheap⟩ := hostCall_native_cases hslot args s
    · have hstack : s.stack ++ (.native slot :: args) = s.stack.push (.native slot) ++ args :=
        Array.appendList_cons
      have hserving := serving_entering b none (s := { s with
        location, stack := s.stack ++ (.native slot :: args) }) hstack
      rw [hcall]
      exact .inl ⟨hroom, _, _, _, _, hserving, rfl, rfl, rfl, heap_afterNative _⟩
    · rw [hu]
      exact .inr ⟨hshort, hheap⟩

/-- In a step from `s` the closure `c` gets the environment `env`: there is room for a call of `setfenv` with
a value that stands for the one and the table that is the other. -/
def Retargets (natives : Array Native) (mode : Mode) (s : State) (c env : Nat) : Prop :=
  ∃ args, Calls natives setfenv args mode s ∧ Admits s mode ∧
    Designates s.heap s.levels (args.getD 0 .nil) c ∧ args.getD 1 .nil = .table env

/-- A call of `setfenv` changes the environment of the closure it is to change, and nothing else in the heap. -/
theorem Calls.heap_setfenv (h : Calls natives setfenv args mode s) :
    (∃ c env, Admits s mode ∧ Designates s.heap s.levels (args.getD 0 .nil) c ∧ args.getD 1 .nil = .table env ∧
        (step natives mode s).state.heap = s.heap.withEnvironment c env) ∨
      (∀ c env, Admits s mode → Designates s.heap s.levels (args.getD 0 .nil) c → args.getD 1 .nil ≠ .table env) ∧
        (step natives mode s).state.heap = s.heap := by
  obtain ⟨hroom, call, rest, low, x, hserving, hcount, hheap, hlevels, hstep⟩ | ⟨hfull, hstep⟩ := h.step_cases
  · have hset := Library.heap_setfenv hserving hcount
    rw [hheap, hlevels, ← hstep] at hset
    obtain ⟨c, env, hc, henv, hset⟩ | ⟨hnone, hset⟩ := hset
    · exact .inl ⟨c, env, hroom, hc, henv, hset⟩
    · exact .inr ⟨fun c env _ ↦ hnone c env, hset⟩
  · exact .inr ⟨fun c env hroom ↦ absurd hroom hfull, hstep⟩

theorem Retargets.heap_step {c env : Nat} (h : Retargets natives mode s c env) :
    (step natives mode s).state.heap = s.heap.withEnvironment c env := by
  obtain ⟨args, hcalls, hroom, hc, henv⟩ := h
  obtain ⟨c', env', -, hc', henv', hset⟩ | ⟨hnone, -⟩ := hcalls.heap_setfenv
  · obtain rfl := hc.eq hc'
    cases henv.symm.trans henv'
    exact hset
  · exact absurd henv (hnone c env hroom hc)

theorem Calls.args_eq {b' : Native} {args' : List Value} (h : Calls natives b args mode s)
    (h' : Calls natives b' args' mode s) : args = args' := by
  cases h with
  | guest h =>
    cases h' with
    | guest h' =>
      obtain ⟨slot, -, hstack⟩ := h.called
      obtain ⟨slot', -, hstack'⟩ := h'.called
      have hcount := h.read.symm.trans h'.read
      injection hcount with hcount
      injection hcount with hlength
      have hlists := congrArg Array.toList (hstack.symm.trans hstack')
      rw [Array.toList_appendList, Array.toList_appendList] at hlists
      exact (List.append_inj' hlists hlength).2
  | host =>
    cases h'
    rfl

/-- One step retargets one closure. -/
theorem Retargets.unique {c c' env env' : Nat} (h : Retargets natives mode s c env)
    (h' : Retargets natives mode s c' env') : c' = c ∧ env' = env := by
  obtain ⟨args, hcalls, -, hc, henv⟩ := h
  obtain ⟨args', hcalls', -, hc', henv'⟩ := h'
  obtain rfl := hcalls.args_eq hcalls'
  cases henv.symm.trans henv'
  exact ⟨hc'.eq hc, rfl⟩

theorem Calls.heap_of_not_retargets (h : Calls natives setfenv args mode s)
    (hnone : ∀ c env, ¬ Retargets natives mode s c env) : (step natives mode s).state.heap = s.heap := by
  obtain ⟨c, env, hroom, hc, henv, -⟩ | ⟨-, hstay⟩ := h.heap_setfenv
  · exact absurd ⟨args, h, hroom, hc, henv⟩ (hnone c env)
  · exact hstay

/-! ### Steps -/

/-- A builtin that starts in a step was called in it. -/
theorem calls_of_starts {x : State} (h : Transition.Starts natives mode s b x) :
    ∃ args, Calls natives b args mode s := by
  cases h with
  | guest hcall hargs hcallee henter =>
    obtain ⟨low, args, hstack, rfl⟩ := exists_callee hargs hcallee
    exact ⟨args, .guest ⟨⟨_, slot_of_enterNative henter, (stack_of_call hcall).symm.trans hstack⟩, hcall⟩⟩
  | @host _ _ _ args _ _ _ _ henter => exact ⟨args, .host (slot_of_enterNative henter)⟩

end

end Library

/-- The closure `c` runs innermost, and `i`, of this prototype, is what it executes next. -/
structure State.Executes (s : State) (c : Nat) (p : Prototype) (i : Instruction) (op : Opcode) : Prop where
  running : ∃ frame rest, s.activations = .guest frame :: rest ∧ frame.closure = c ∧ p.code[frame.ip]? = some i
  proto : s.proto? c = some p
  opcode : i.opcode? = some op

/-- What an instruction does that reads or writes a global variable: it does so in the table `env`, or fails
and leaves the heap as it is because there is no room or an operand is missing. -/
inductive Accesses (natives : Array Native) (env : Nat) (p : Prototype) (i : Instruction) (s : State) :
    Opcode → Prop
  | read {key : Value} (hkey : p.constants[i.x]? = some key) (hstep : step natives .execute s =
      .next .execute { advance s with stack := s.stack.push (s.heap.rawGet (.table env) key) }) :
      Accesses natives env p i s .getGlobal
  | write {key v : Value} {k : Key} {low : Array Value} (hkey : p.constants[i.x]? = some key)
      (hk : Key.ofValue? key = some k) (hv : s.stack = low.push v) (hstep : step natives .execute s =
      .next .execute { advance s with stack := low, heap := s.heap.modifyTable env (·.set k v) }) :
      Accesses natives env p i s .setGlobal
  | unread {e : RuntimeError} {t : State} (hlacks : p.constants[i.x]? = none ∨ s.options.maxStack ≤ s.stack.size)
      (hstep : step natives .execute s = .next (.deliver (.error e)) t) (hheap : t.heap = s.heap) :
      Accesses natives env p i s .getGlobal
  | unwritten {e : RuntimeError} {t : State} (hlacks : p.constants[i.x]?.bind Key.ofValue? = none ∨ s.stack = #[] ∨
        s.heap.tables.size ≤ env)
      (hstep : step natives .execute s = .next (.deliver (.error e)) t) (hheap : t.heap = s.heap) :
      Accesses natives env p i s .setGlobal

section

variable {natives : Array Native} {s t : State} {c : Nat} {k : Closure} {p : Prototype} {i : Instruction}
  {op : Opcode}

theorem State.Executes.instruction (h : s.Executes c p i op) :
    ∃ frame, frame.closure = c ∧ Machine.instruction s = perform frame p.constants i op (advance s) := by
  obtain ⟨frame, rest, hs, rfl, hi⟩ := h.running
  exact ⟨frame, rfl, instruction_of_guest hs h.proto hi h.opcode⟩

theorem guestError_heap (e : RuntimeError) (s : State) :
    ∃ t, Transition.guestError e s = .next (.deliver (.error e)) t ∧ t.heap = s.heap := by
  obtain ⟨t, ht, -⟩ := Transition.guestError_apply e s
  have hheap := Transition.respects_guestError (R := State.SameHeap) e s
  rw [ht] at hheap
  exact ⟨t, ht, hheap⟩

variable (natives) in
theorem step_of_error {e : RuntimeError} (h : Machine.instruction s = .error e t) :
    ∃ u, step natives .execute s = .next (.deliver (.error e)) u ∧ u.heap = t.heap := by
  rw [step, h]
  exact guestError_heap e t

theorem step_of_nothing (h : Machine.instruction s = .ok .nothing t) :
    step natives .execute s = .next .execute t := by
  rw [step, h]

theorem accesses_getGlobal (h : s.Executes c p i .getGlobal) (hk : s.heap.closures[c]? = some k) :
    Accesses natives k.env p i s .getGlobal := by
  obtain ⟨frame, rfl, hinstruction⟩ := h.instruction
  have hk' : (advance s).heap.closures[frame.closure]? = some k := by rw [advance_heap, hk]
  cases hkey : p.constants[i.x]? with
  | none =>
    have herror : Machine.instruction s = .error .operand (advance s) := by
      rw [hinstruction, perform, hkey]
      rfl
    obtain ⟨t, ht, hheap⟩ := step_of_error natives herror
    exact .unread (.inl hkey) ht (hheap.trans (advance_heap s))
  | some key =>
    rw [perform_getGlobal hk' hkey] at hinstruction
    by_cases hroom : (advance s).stack.size < (advance s).options.maxStack
    · rw [give_of_room hroom] at hinstruction
      have hpushed : (advance s).stack.push ((advance s).heap.rawGet (.table k.env) key) =
          s.stack.push (s.heap.rawGet (.table k.env) key) := by rw [advance_stack, advance_heap]
      rw [hpushed] at hinstruction
      exact .read hkey (step_of_nothing hinstruction)
    · rw [give_of_full hroom] at hinstruction
      obtain ⟨t, ht, hheap⟩ := step_of_error natives hinstruction
      rw [advance_stack, advance_options] at hroom
      exact .unread (.inr (Nat.le_of_not_lt hroom)) ht (hheap.trans (advance_heap s))

theorem setIndex_table_cases (env : Nat) (key v : Value) (s : State) :
    (∃ k, Key.ofValue? key = some k ∧ setIndex (.table env) key v s =
        .ok () { s with heap := s.heap.modifyTable env (·.set k v) }) ∨
      (Key.ofValue? key = none ∨ s.heap.tables.size ≤ env) ∧ ∃ e, setIndex (.table env) key v s = .error e s := by
  unfold setIndex
  dsimp only
  cases hk : Key.ofValue? key with
  | none => exact .inr ⟨.inl rfl, _, rfl⟩
  | some k =>
    dsimp only
    rw [bind_apply, get_apply]
    dsimp only
    by_cases ht : env < s.heap.tables.size
    · rw [if_pos ht]
      exact .inl ⟨k, rfl, rfl⟩
    · rw [if_neg ht]
      exact .inr ⟨.inr (Nat.le_of_not_lt ht), _, rfl⟩

theorem accesses_setGlobal (h : s.Executes c p i .setGlobal) (hk : s.heap.closures[c]? = some k) :
    Accesses natives k.env p i s .setGlobal := by
  obtain ⟨frame, rfl, hinstruction⟩ := h.instruction
  have hk' : (advance s).heap.closures[frame.closure]? = some k := by rw [advance_heap, hk]
  have hfails {e : RuntimeError} {t : State} (hlacks : p.constants[i.x]?.bind Key.ofValue? = none ∨ s.stack = #[] ∨
        s.heap.tables.size ≤ k.env) (herror : Machine.instruction s = .error e t)
      (hheap : t.heap = (advance s).heap) : Accesses natives k.env p i s .setGlobal := by
    obtain ⟨u, hu, hheap'⟩ := step_of_error natives herror
    exact .unwritten hlacks hu (hheap'.trans (hheap.trans (advance_heap s)))
  cases hkey : p.constants[i.x]? with
  | none =>
    refine hfails (e := .operand) (t := advance s) (.inl ?_) ?_ rfl
    · rw [hkey]
      rfl
    · rw [hinstruction, perform, hkey]
      rfl
  | some key =>
    by_cases hempty : s.stack = #[]
    · refine hfails (e := .operand) (t := advance s) (.inr (.inl hempty)) ?_ rfl
      have hpop : pop (advance s) = .error .operand (advance s) := by
        rw [pop_apply, advance_stack, hempty]
        rfl
      simp only [hinstruction, perform, bind_apply, hkey, orOperand_apply, environment_of_closure hk', hpop]
    · obtain ⟨low, v, hv⟩ := Array.exists_push_of_ne_empty hempty
      rw [perform_setGlobal hk' hkey ((advance_stack s).trans hv)] at hinstruction
      obtain ⟨w, hw, hset⟩ | ⟨hlacks, e, hset⟩ := setIndex_table_cases k.env key v { advance s with stack := low }
      · rw [bind_of_ok hset] at hinstruction
        have hheap : (advance s).heap.modifyTable k.env (·.set w v) = s.heap.modifyTable k.env (·.set w v) := by
          rw [advance_heap]
        dsimp only at hinstruction
        rw [hheap] at hinstruction
        exact .write hkey hw hv (step_of_nothing hinstruction)
      · rw [bind_of_error hset] at hinstruction
        refine hfails ?_ hinstruction rfl
        obtain hw | ht := hlacks
        · exact .inl (by rw [hkey, Option.bind_some, hw])
        · exact .inr (.inr (advance_heap s ▸ ht))

variable (natives) in
/-- A closure is made of a prototype nested in the running one, with the environment that runs. -/
theorem closures_of_closure (h : s.Executes c p i .closure) (hk : s.heap.closures[c]? = some k) :
    (∃ e t, step natives .execute s = .next (.deliver (.error e)) t ∧ t.heap.closures = s.heap.closures) ∨
      ∃ proto upvalues, p.protos[i.x]? = some proto ∧
        (step natives .execute s).state.heap.closures = s.heap.closures.push ⟨proto, k.env, upvalues⟩ := by
  obtain ⟨frame, rfl, hinstruction⟩ := h.instruction
  have hclosures : (advance s).heap.closures = s.heap.closures := by rw [advance_heap]
  rw [perform_closure] at hinstruction
  obtain ⟨e, he⟩ | ⟨k', p', proto, q, cells, hk', hp', hproto, -, -, hmake⟩ :=
    makeClosure_cases frame i.x (advance s)
  · rw [bind_of_error he] at hinstruction
    obtain ⟨t, ht, hheap⟩ := step_of_error natives hinstruction
    exact .inl ⟨e, t, ht, by rw [hheap, hclosures]⟩
  · obtain rfl := Option.some_inj.mp (hk.symm.trans (hclosures ▸ hk'))
    have hprotos := h.proto
    rw [State.proto?, hk, Option.bind_some, ← advance_heap s, hp'] at hprotos
    obtain rfl := Option.some_inj.mp hprotos
    rw [bind_of_ok hmake] at hinstruction
    refine .inr ⟨proto, cells.toArray, hproto, ?_⟩
    rw [← hclosures]
    obtain hgive | ⟨pushed, hgive⟩ := give_cases [.closure (advance s).heap.closures.size] { advance s with
      heap := ((advance s).heap.allocClosure ⟨proto, k.env, cells.toArray⟩).2 }
    · rw [step_of_nothing (hinstruction.trans hgive)]
      rfl
    · obtain ⟨t, ht, hheap⟩ := step_of_error natives (hinstruction.trans hgive)
      rw [ht]
      exact congrArg Heap.closures hheap

/-- Making a closure leaves the others as they are. -/
theorem getElem?_of_closure {c' : Nat} (h : s.Executes c' p i .closure) (hk : s.heap.closures[c]? = some k) :
    (step natives .execute s).state.heap.closures[c]? = some k := by
  obtain ⟨k', hk', -⟩ := Option.bind_eq_some_iff.mp h.proto
  obtain ⟨e, t, ht, hclosures⟩ | ⟨proto, upvalues, -, hclosures⟩ := closures_of_closure natives h hk'
  · rw [ht]
    exact (congrArg (·[c]?) hclosures).trans hk
  · obtain ⟨hc, -⟩ := Array.getElem?_eq_some_iff.mp hk
    rw [hclosures, Array.getElem?_push_lt hc, ← Array.getElem?_eq_getElem, hk]

end

/-! ### Runs -/

section

variable {builtins : Array Builtin} {mode : Mode} {s : State} {c : Nat} {k : Closure}

open Library

theorem settled_instruction (hop : ∀ c p i, ¬ s.Executes c p i .closure) :
    s.Settled (final (Machine.instruction s)) := by
  have hadvance : s.Settled (advance s) := by
    unfold advance
    split
    · exact Mobile.calls s _ s.location
    · exact Std.Refl.refl s
  rw [instruction_apply]
  split
  · next frame rest hs =>
    split
    · exact Std.Refl.refl s
    · next p hp =>
      split
      · exact Std.Refl.refl s
      · next i hi =>
        split
        · exact hadvance
        · next op hi' =>
          have hne : op ≠ .closure := by
            rintro rfl
            exact hop frame.closure p i ⟨⟨frame, rest, hs, rfl, hi⟩, hp, hi'⟩
          exact IsTrans.trans _ _ _ hadvance ((abides_perform frame p.constants i hne).keeps (advance s))
  · exact Std.Refl.refl s

/-- A step that neither calls `setfenv` nor makes a closure by an instruction leaves the closures there were as
they were, and what it makes is over the globals. -/
theorem settled_step (hcalls : ∀ args, ¬ Calls (builtins.map Builtin.native) setfenv args mode s)
    (hop : mode = .execute → ∀ c p i, ¬ s.Executes c p i .closure) :
    s.Settled (step (builtins.map Builtin.native) mode s).state := by
  refine Transition.keeps_step (fun hmode ↦ settled_instruction (hop hmode)) (fun n x hstart ↦ ?_)
    fun n hn memo result ↦ ?_
  · obtain ⟨b, -, rfl⟩ := Array.mem_map.mp hstart.mem
    have hb : b ≠ .setfenv := by
      rintro rfl
      obtain ⟨args, h⟩ := calls_of_starts hstart
      exact hcalls args h
    exact (b.abides_start hb).keeps x
  · obtain ⟨b, -, rfl⟩ := Array.mem_map.mp hn
    exact b.abides_resume memo result

/-- A step that does not give a closure another environment leaves the closure as it is. -/
theorem closure_step (hk : s.heap.closures[c]? = some k)
    (hnone : ∀ env, ¬ Retargets (builtins.map Builtin.native) mode s c env) :
    (step (builtins.map Builtin.native) mode s).state.heap.closures[c]? = some k := by
  -- the step calls `setfenv`, makes a closure by an instruction, or does neither
  by_cases hcalls : ∃ args, Calls (builtins.map Builtin.native) setfenv args mode s
  · obtain ⟨args, hcalls⟩ := hcalls
    obtain ⟨c', env, hroom, hc', henv, hset⟩ | ⟨-, hstay⟩ := hcalls.heap_setfenv
    · have hne : c' ≠ c := by
        rintro rfl
        exact hnone env ⟨args, hcalls, hroom, hc', henv⟩
      rw [hset, Heap.getElem?_withEnvironment, if_neg hne, hk]
    · rw [hstay, hk]
  · by_cases hop : mode = .execute ∧ ∃ c p i, s.Executes c p i .closure
    · obtain ⟨rfl, c', p, i, hexecutes⟩ := hop
      exact getElem?_of_closure hexecutes hk
    · exact (settled_step (fun args h ↦ hcalls ⟨args, h⟩) fun hmode c p i h ↦ hop ⟨hmode, c, p, i, h⟩).getElem? hk

/-- A closure that no step gives another environment is the same after a run. -/
theorem closure_run {n : Nat} (hk : s.heap.closures[c]? = some k)
    (hnone : ∀ m < n, ∀ mode' t env, run (builtins.map Builtin.native) m mode s = .running mode' t →
      ¬ Retargets (builtins.map Builtin.native) mode' t c env) :
    (run (builtins.map Builtin.native) n mode s).state.heap.closures[c]? = some k := by
  -- the first step is taken off, so that the others are those of a run from where it leads
  induction n generalizing mode s with
  | zero => exact hk
  | succ n ih =>
    have hstep := closure_step hk fun env ↦ hnone 0 n.succ_pos mode s env rfl
    unfold run
    cases hnext : step (builtins.map Builtin.native) mode s with
    | next mode' t =>
      rw [hnext] at hstep
      refine ih hstep fun m hm mode'' u env hrun ↦ hnone (m + 1) (Nat.succ_lt_succ hm) mode'' u env ?_
      rw [run_of_next hnext, hrun]
    | halt result t =>
      rw [hnext] at hstep
      exact hstep

end

/-! ### Loading -/

/-- No closure was made or changed, and the globals are where they were. -/
structure State.Unmade (s t : State) : Prop where
  globals : t.globals = s.globals
  closures : t.heap.closures = s.heap.closures

instance : Std.Refl State.Unmade := ⟨fun _ ↦ ⟨rfl, rfl⟩⟩

instance : IsTrans State State.Unmade :=
  ⟨fun _ _ _ h h' ↦ ⟨h'.globals.trans h.globals, h'.closures.trans h.closures⟩⟩

namespace Loading

/-- What is loaded is a new closure over the globals. No other is made or changed. -/
structure LoadsOver (loader : Loader Value) (s : State) : Prop where
  ok : ∀ v t, loader s = .ok v t → ∃ proto, v = .closure s.heap.closures.size ∧
    t.heap.closures = s.heap.closures.push ⟨proto, s.globals, #[]⟩
  error : ∀ e t, loader s = .error e t → t.heap.closures = s.heap.closures

theorem LoadsOver.bind {α : Type} {m : Loader α} {f : α → Loader Value} (hm : Keeps State.Unmade m)
    (hf : ∀ a s, LoadsOver (f a) s) (s : State) : LoadsOver (m >>= f) s := by
  have hs := hm s
  cases hr : m s with
  | ok a t =>
    rw [hr, final_ok] at hs
    have hloads := hf a t
    refine ⟨fun v u h ↦ ?_, fun e u h ↦ ?_⟩
    · rw [bind_of_ok hr] at h
      obtain ⟨proto, hv, hu⟩ := hloads.ok v u h
      rw [hs.closures] at hv hu
      rw [hs.globals] at hu
      exact ⟨proto, hv, hu⟩
    · rw [bind_of_ok hr] at h
      exact (hloads.error e u h).trans hs.closures
  | error e t =>
    rw [hr, final_error] at hs
    refine ⟨fun v u h ↦ ?_, fun e' u h ↦ ?_⟩
    · rw [bind_of_error hr] at h
      cases h
    · rw [bind_of_error hr] at h
      cases h
      exact hs.closures

theorem unmade_note (event : StreamEvent) : Keeps State.Unmade (note event) := .modify fun _ ↦ ⟨rfl, rfl⟩

theorem unmade_decode (bytes : Bytes) (chunkName : String) : Keeps State.Unmade (decode bytes chunkName) := by
  intro s
  obtain ⟨heap, hheap, hadds⟩ := decode_adds bytes chunkName s
  rw [hheap]
  exact ⟨rfl, hadds.closures⟩

theorem unmade_drain (stream : Stream) (chunkName : String) : Keeps State.Unmade (drain stream chunkName) := by
  intro s
  unfold drain
  split <;> exact ⟨rfl, rfl⟩

theorem unmade_openStream (name : Option String) : Keeps State.Unmade (openStream name) := by
  refine Keeps.get.bind fun s ↦ ?_
  dsimp only
  split
  · exact (unmade_note _).bind fun _ ↦ .pure _
  · split
    · exact (unmade_note _).bind fun _ ↦ .pure _
    · exact .throw _
    · exact .throw _

theorem loadsOver_loadStream (stream : Stream) (chunkName : String) (s : State) :
    LoadsOver (loadStream stream chunkName) s := by
  have hread := (unmade_drain stream chunkName).bind (fun bytes ↦ unmade_decode bytes chunkName) s
  constructor
  · intro v t h
    unfold loadStream at h
    split at h
    · next main u hu =>
      rw [hu, final_ok] at hread
      cases h
      rw [← hread.closures, ← hread.globals]
      exact ⟨main, rfl, rfl⟩
    · cases h
  · intro e t h
    unfold loadStream at h
    split at h
    · cases h
    · next e' u hu =>
      rw [hu, final_error] at hread
      cases h
      exact hread.closures

theorem loadsOver_loadBytes (bytes : Bytes) (chunkName : String) (s : State) :
    LoadsOver (loadBytes bytes chunkName) s :=
  .bind (unmade_note _) (fun _ ↦ loadsOver_loadStream _ chunkName) s

theorem loadsOver_loadFile (name : Option String) (s : State) : LoadsOver (loadFile name) s :=
  .bind (unmade_openStream name) (fun stream ↦ loadsOver_loadStream stream _) s

end Loading

open Library Loading in
/-- A call of `setfenv` with a table gives it to one closure as its environment, the one given or the one that
runs so many levels out, and changes nothing else in the heap. Every other call of `setfenv` leaves the heap as
it is. A closure that an instruction makes starts with the environment of the one that runs, one that is loaded
with the globals, and no other step changes a closure. So a closure reads and writes its globals in one table as
long as `setfenv` is not called for it. -/
theorem environments_follow_setfenv (builtins : Array Builtin) :
    let natives := builtins.map Builtin.native
    (∀ {mode s c env}, Retargets natives mode s c env →
      (step natives mode s).state.heap = s.heap.withEnvironment c env ∧
        ∀ c' env', Retargets natives mode s c' env' → c' = c ∧ env' = env) ∧
    (∀ {args mode s}, Calls natives setfenv args mode s → (∀ c env, ¬ Retargets natives mode s c env) →
      (step natives mode s).state.heap = s.heap) ∧
    (∀ {s c k p i}, s.Executes c p i .closure → s.heap.closures[c]? = some k →
      (∃ e t, step natives .execute s = .next (.deliver (.error e)) t ∧ t.heap.closures = s.heap.closures) ∨
        ∃ proto upvalues, p.protos[i.x]? = some proto ∧
          (step natives .execute s).state.heap.closures = s.heap.closures.push ⟨proto, k.env, upvalues⟩) ∧
    (∀ {mode s}, (∀ args, ¬ Calls natives setfenv args mode s) →
      (mode = .execute → ∀ c p i, ¬ s.Executes c p i .closure) → s.Settled (step natives mode s).state) ∧
    (∀ bytes chunkName s, LoadsOver (loadBytes bytes chunkName) s) ∧
    (∀ name s, LoadsOver (loadFile name) s) ∧
    (∀ n mode s, (run natives n mode s).state.globals = s.globals) ∧
    ∀ {n mode s c k}, s.heap.closures[c]? = some k →
      (∀ m < n, ∀ mode' t env, run natives m mode s = .running mode' t → ¬ Retargets natives mode' t c env) →
        (run natives n mode s).state.heap.closures[c]? = some k ∧
          ∀ m ≤ n, ∀ {t p i op}, run natives m mode s = .running .execute t → t.Executes c p i op →
            op = .getGlobal ∨ op = .setGlobal → Accesses natives k.env p i t op := by
  have hfixed : ∀ n ∈ builtins.map Builtin.native, n.Fixed := by
    intro n hn
    obtain ⟨b, -, rfl⟩ := Array.mem_map.mp hn
    exact b.fixed
  refine ⟨fun h ↦ ⟨h.heap_step, fun c' env' h' ↦ h.unique h'⟩, Calls.heap_of_not_retargets, closures_of_closure _,
    settled_step, loadsOver_loadBytes, loadsOver_loadFile, fun n mode s ↦ (fixed_run hfixed n mode s).globals,
    fun hk hnone ↦ ⟨closure_run hk hnone, fun m hm t p i op hrun hexecutes hop ↦ ?_⟩⟩
  have hsame := closure_run hk fun j hj ↦ hnone j (Nat.lt_of_lt_of_le hj hm)
  rw [hrun] at hsame
  obtain rfl | rfl := hop
  · exact accesses_getGlobal hexecutes hsame
  · exact accesses_setGlobal hexecutes hsame

/-- A function gives itself another environment and then reads a variable, which is in that one. -/
theorem environments_follow_setfenv_reader :
    let natives := #[Builtin.setfenv].map Builtin.native
    let reader : Prototype := ⟨"reader", 0, false, 0,
      #[⟨Opcode.call.byte, 2, 0, 1⟩, ⟨Opcode.getGlobal.byte, 0, 0, 0⟩], #[.int 1], #[], #[], #[]⟩
    let s := { State.start ⟨9, 9⟩ .empty true with
      heap := ⟨.empty, #[.empty, ⟨#[.int 7], {}⟩], #[reader], #[⟨0, 0, #[]⟩], #[]⟩
      stack := #[.native 0, .int 1, .table 1]
      activations := [.guest ⟨0, 0, 0, #[], [], none⟩] }
    ∃ t u, Library.Retargets natives .execute s 0 1 ∧ step natives .execute s = .next .execute t ∧
      t.heap = s.heap.withEnvironment 0 1 ∧ step natives .execute t = .next .execute u ∧ u.stack = #[.int 7] := by
  intro natives reader s
  have hnatives : natives = #[Library.setfenv] := by simp [natives, Builtin.native]
  have hslot : natives[0]? = some Library.setfenv := by rw [hnatives]; rfl
  have hcall : Library.CallsBuiltin natives Library.setfenv [.int 1, .table 1] (some 0) #[] s (advance s) :=
    ⟨⟨0, hslot, rfl⟩, rfl⟩
  have hretargets : Library.Retargets natives .execute s 0 1 :=
    ⟨[.int 1, .table 1], .guest hcall, show 1 < 9 by decide, .level (d := 1) (n := 0) rfl (by decide) rfl, rfl⟩
  obtain ⟨hset, -, -, -, -, -, -, hstretch⟩ := environments_follow_setfenv #[Builtin.setfenv]
  let t := { advance s with heap := s.heap.withEnvironment 0 1, stack := #[] }
  have hstep : step natives .execute s = .next .execute t := by
    rw [hnatives]
    rfl
  have hheap := (hset hretargets).1
  rw [hstep] at hheap
  obtain ⟨-, haccess⟩ := @hstretch 0 .execute t 0 ⟨0, 1, #[]⟩ rfl fun m hm ↦ absurd hm m.not_lt_zero
  have hread : Accesses natives 1 reader ⟨Opcode.getGlobal.byte, 0, 0, 0⟩ t .getGlobal :=
    haccess 0 (Nat.le_refl 0) rfl ⟨⟨⟨0, 1, 0, #[], [], none⟩, [], rfl, rfl, rfl⟩, rfl, rfl⟩ (.inl rfl)
  have hx : Instruction.x ⟨Opcode.getGlobal.byte, 0, 0, 0⟩ = 0 := by decide
  cases hread with
  | read hkey hnext =>
    rw [hx] at hkey
    obtain rfl := Option.some_inj.mp hkey
    exact ⟨t, _, hretargets, hstep, hheap, hnext, rfl⟩
  | unread hlacks =>
    obtain hkey | hfull := hlacks
    · rw [hx] at hkey
      cases hkey
    · exact absurd hfull (by decide)

end MiniLua
