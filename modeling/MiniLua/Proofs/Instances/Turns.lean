import MiniLua.Proofs.Calls.Tended

/-!
What calls, returns and errors do to activations: some end, or one begins. But for the parameters of
a guest function that begins they leave cells alone.
-/

namespace MiniLua

open Effects Machine

/-- The frame of a guest function. -/
def Activation.frame? : Activation → Option Frame
  | .guest frame => some frame
  | .native _ => none

/-- The frames of all activations, the innermost first. -/
def State.frames? (s : State) : List (Option Frame) := s.activations.map Activation.frame?

theorem Machine.instruction_of_no_guest {s : State}
    (hs : ∀ f rest, s.activations ≠ .guest f :: rest) : instruction s = .error .noFunction s := by
  rw [instruction_apply]
  split
  · next f rest hcalls => exact absurd hcalls (hs f rest)
  · rfl

namespace Transition

/-- Activations end, if any. -/
inductive Ends (h : Heap) (calls : List (Option Frame)) : Transition → Prop
  | intro {m : Mode} {u : State} (spares : h.Spares u.heap) (suffix : u.frames? <:+ calls) :
      Ends h calls (.next m u)

/-- Activations end, or a builtin or a guest function begins. -/
inductive Turns (h : Heap) (calls : List (Option Frame)) : Transition → Prop
  | ends {x : Transition} (ends : Ends h calls x) : Turns h calls x
  | serves {m : Mode} {u : State} (spares : h.Spares u.heap) (begins : u.frames? = none :: calls) :
      Turns h calls (.next m u)
  | enters {s : State} {p : Prototype} {closure floor : Nat} {expected : Option Nat}
      (spares : h.Spares s.heap) (below : s.frames? = calls) (proto : s.proto? closure = some p) :
      Turns h calls (.next .execute (entered s p closure floor expected))

variable {s : State} {h k : Heap} {calls : List (Option Frame)} {x : Transition}

theorem Ends.mono {rest : List (Option Frame)} (hx : x.Ends k rest) (g : h.Spares k)
    (hrest : rest <:+ calls) : x.Ends h calls := by
  cases hx with
  | intro spares suffix => exact .intro (g.trans spares) (suffix.trans hrest)

theorem Turns.mono (hx : x.Turns k calls) (g : h.Spares k) : x.Turns h calls := by
  cases hx with
  | ends ends => exact .ends (ends.mono g (List.suffix_refl _))
  | serves spares begins => exact .serves (g.trans spares) begins
  | enters spares below proto => exact .enters (g.trans spares) below proto

/-- A builtin began, or nothing did. -/
theorem Ends.turns (hx : x.Ends h (none :: calls)) : x.Turns h calls := by
  cases hx with
  | intro spares suffix =>
    obtain hall | hrest := List.suffix_cons_iff.mp suffix
    · exact .serves spares hall
    · exact .ends (.intro spares hrest)

theorem ends_guestError (e : RuntimeError) (s : State) : (guestError e s).Ends s.heap s.frames? := by
  rw [guestError, State.noteLocation_apply]
  exact .intro (.refl _) ((unwind_suffix _ _).map _)

/-- An error in a guest function ends it. -/
theorem ends_guestError_of_guest {frame : Frame} {rest : List Activation}
    (hs : s.activations = .guest frame :: rest) (e : RuntimeError) :
    (guestError e s).Ends s.heap (rest.map Activation.frame?) := by
  rw [guestError, State.noteLocation_apply]
  refine .intro (.refl _) ?_
  dsimp only
  rw [hs, unwind]
  exact (unwind_suffix _ _).map _

theorem ends_giveResults (results : List Value) (expected : Option Nat) (s : State) :
    (giveResults results expected s).Ends s.heap s.frames? := by
  unfold giveResults
  split
  · have hcalm := Abides.keeps (R := State.Calm) (m := placeResults results expected) s
    split
    · next t ht =>
      rw [ht, final_ok] at hcalm
      refine .intro hcalm.toSpares ?_
      rw [State.frames?, hcalm.calls]
      exact List.suffix_refl _
    · next e t ht =>
      rw [ht, final_error] at hcalm
      refine (ends_guestError e t).mono hcalm.toSpares ?_
      rw [State.frames?, hcalm.calls]
      exact List.suffix_refl _
  · exact .intro (.refl _) (List.suffix_refl _)

theorem ends_guestReturn {frame : Frame} {rest : List Activation}
    (hs : s.activations = .guest frame :: rest) (results : List Value) :
    (guestReturn results s).Ends s.heap (rest.map Activation.frame?) := by
  simp only [guestReturn, hs]
  exact ends_giveResults results frame.expected ({ s with activations := rest }.truncate frame.base)

section

variable {call : NativeCall} {rest : List Activation}

theorem ends_nativeError (hs : s.activations = .native call :: rest) (e : RuntimeError) :
    (nativeError e s).Ends s.heap (rest.map Activation.frame?) := by
  simp only [nativeError, hs]
  split
  · exact ends_guestError e { s with activations := .guest _ :: _ }
  · exact .intro (.refl _) (List.suffix_refl _)

theorem ends_nativeResults (hs : s.activations = .native call :: rest) :
    (nativeResults s).Ends s.heap (rest.map Activation.frame?) := by
  simp only [nativeResults, hs]
  exact ends_giveResults _ call.expected ({ s with activations := rest }.truncate (call.base - 1))

/-- A builtin that runs ends, or makes a call. -/
theorem ends_afterNative {m : Machine Outcome} [hm : Abides State.Calm m]
    (hs : s.activations = .native call :: rest) :
    (afterNative (m s)).Ends s.heap (none :: rest.map Activation.frame?) := by
  have hcalm := hm.keeps s
  cases hrun : m s with
  | error e t =>
    rw [hrun, final_error] at hcalm
    exact (ends_nativeError (hcalm.calls.trans hs) e).mono hcalm.toSpares (List.suffix_cons _ _)
  | ok outcome t =>
    rw [hrun, final_ok] at hcalm
    have ht := hcalm.calls.trans hs
    cases outcome with
    | finished => exact (ends_nativeResults ht).mono hcalm.toSpares (List.suffix_cons _ _)
    | invoke callee args memo =>
      simp only [afterNative, remember, ht]
      exact .intro hcalm.toSpares (List.suffix_refl _)

end

variable {natives : Array Native} (hnatives : ∀ b ∈ natives, ∃ c : Builtin, b = c.native)

include hnatives

theorem turns_enterCallee {fail : RuntimeError → State → Transition} {floor : Nat}
    (hfail : ∀ e, (fail e s).Turns s.heap s.frames?) (callee : Value) (argCount : Nat)
    (expected : Option Nat) :
    (enterCallee natives fail callee floor argCount expected s).Turns s.heap s.frames? := by
  unfold enterCallee
  split
  · next c =>
    cases hp : s.proto? c with
    | none =>
      obtain ⟨e, he⟩ := enterClosure_of_none hp floor expected
      rw [he]
      exact hfail e
    | some p =>
      rw [enterClosure_apply hp]
      by_cases hdepth : s.options.maxCallDepth ≤ s.activations.length
      · rw [if_pos hdepth]
        exact hfail _
      · rw [if_neg hdepth]
        exact .enters (.refl _) rfl hp
  · next b =>
    cases hb : natives[b]? with
    | none =>
      obtain ⟨e, he⟩ := enterNative_of_none hb floor argCount expected s
      rw [he]
      exact hfail e
    | some n =>
      rw [enterNative_apply hb]
      by_cases hdepth : s.options.maxCallDepth ≤ s.activations.length
      · rw [if_pos hdepth]
        exact hfail _
      · rw [if_neg hdepth]
        obtain ⟨c, rfl⟩ := hnatives n (Array.mem_of_getElem? hb)
        have : Abides State.Calm c.native.start := ⟨c.tame.start.tame.keeps.mono fun _ _ h ↦ h.toCalm⟩
        exact (ends_afterNative (s := { s with activations := .native _ :: s.activations }) rfl).turns
  · exact hfail _

theorem turns_guestCall (argCount : Nat) (expected : Option Nat) (s : State) :
    (guestCall natives argCount expected s).Turns s.heap s.frames? := by
  rw [guestCall_eq]
  split
  · exact .ends (ends_guestError _ s)
  · exact turns_enterCallee hnatives (fun e ↦ .ends (ends_guestError e s)) _ _ _

theorem turns_hostCall (callee : Value) (args : List Value) (s : State) :
    (hostCall natives callee args s).Turns s.heap s.frames? := by
  have hstart : s.Calm (if s.activations.isEmpty then { s with location := none } else s) := by
    split
    · exact .of_links (fun _ _ ↦ id) rfl rfl rfl
    · exact Std.Refl.refl s
  rw [hostCall_eq]
  dsimp only
  have hpushed := IsTrans.trans _ _ _ hstart (Abides.keeps (m := pushAll (callee :: args)) _)
  split
  · next e t ht =>
    rw [ht, final_error] at hpushed
    refine .ends (.intro hpushed.toSpares ?_)
    rw [State.frames?, State.truncate, hpushed.calls]
    exact List.suffix_refl _
  · next t ht =>
    rw [ht, final_ok] at hpushed
    have hframes : t.frames? = s.frames? := by rw [State.frames?, State.frames?, hpushed.calls]
    rw [← hframes]
    refine Turns.mono (turns_enterCallee hnatives (fun e ↦ ?_) _ _ _) hpushed.toSpares
    exact .ends (.intro (.refl _) (List.suffix_refl _))

/-- Only the outcome of a call from outside ends a run. -/
theorem turns_handOver (result : Except RuntimeError (List Value)) (s : State) :
    handOver natives result s = .halt result s ∨ (handOver natives result s).Turns s.heap s.frames? := by
  unfold handOver
  split
  · next call rest hs =>
    right
    have hframes : s.frames? = none :: rest.map Activation.frame? := by rw [State.frames?, hs]; rfl
    rw [hframes]
    split
    · next n hn =>
      obtain ⟨c, rfl⟩ := hnatives n (Array.mem_of_getElem? hn)
      have := c.calm_resume call.memo result
      exact .ends (ends_afterNative hs)
    · exact .ends ((ends_nativeError hs _).mono (.refl _) (List.suffix_cons _ _))
  · exact .inl rfl

/-- What follows an instruction of a guest function with these activations below it. -/
inductive Follows (calls : List (Option Frame)) (m : Mode) (u : State) :
    EStateM.Result RuntimeError State Demand → Prop
  | goes (mode : m = .execute) : Follows calls m u (.ok .nothing u)
  | invokes {t : State} {argCount : Nat} {expected : Option Nat}
      (turns : Turns t.heap t.frames? (.next m u)) : Follows calls m u (.ok (.call argCount expected) t)
  | returns {t : State} {vs : List Value} (ends : Ends t.heap calls (.next m u)) :
      Follows calls m u (.ok (.ret vs) t)
  | fails {t : State} {e : RuntimeError} (ends : Ends t.heap calls (.next m u)) (heap : u.heap = t.heap)
      (mode : m ≠ .execute) : Follows calls m u (.error e t)

/-- A step executes an instruction of a guest function, or it only calls or ends something. -/
inductive Steps (m : Mode) (s : State) (m' : Mode) (u : State) : Prop
  | turns (idle : m = .execute → ∀ f rest, s.activations ≠ .guest f :: rest)
      (turns : Turns s.heap s.frames? (.next m' u)) : Steps m s m' u
  | executes {f g : Frame} {rest : List Activation} (mode : m = .execute)
      (running : s.activations = .guest f :: rest)
      (innermost : (final (instruction s)).activations = .guest g :: rest)
      (follows : Follows (rest.map Activation.frame?) m' u (instruction s)) : Steps m s m' u

theorem steps {m m' : Mode} {u : State} (hstep : step natives m s = .next m' u) : Steps m s m' u := by
  cases m with
  | enter callee args =>
    have hturns := turns_hostCall hnatives callee args s
    have hcall : hostCall natives callee args s = .next m' u := hstep
    exact .turns (fun h ↦ nomatch h) (hcall ▸ hturns)
  | deliver result =>
    have hover : handOver natives result s = .next m' u := hstep
    obtain hhalt | hturns := turns_handOver hnatives result s
    · cases hover.symm.trans hhalt
    · exact .turns (fun h ↦ nomatch h) (hover ▸ hturns)
  | execute =>
    rw [step_execute] at hstep
    by_cases hguest : ∃ f rest, s.activations = .guest f :: rest
    · obtain ⟨f, rest, hs⟩ := hguest
      have hmodest := Abides.keeps (R := State.Modest) (m := instruction) s
      obtain ⟨ip, cells, hcalls⟩ := (hs ▸ hmodest.calls).exists_guest
      refine .executes rfl hs hcalls ?_
      generalize instruction s = r at hstep hcalls
      cases r with
      | error e t =>
        have herror : guestError e t = .next m' u := hstep
        have hends := ends_guestError_of_guest hcalls e
        have hheap := heap_guestError e t
        rw [final_error, herror] at hends
        rw [herror] at hheap
        refine .fails hends hheap ?_
        rintro rfl
        rw [guestError] at herror
        cases herror
      | ok d t =>
        cases d with
        | nothing =>
          cases hstep
          exact .goes rfl
        | call argCount expected =>
          have hturns := turns_guestCall hnatives argCount expected t
          have hcall : guestCall natives argCount expected t = .next m' u := hstep
          exact .invokes (hcall ▸ hturns)
        | ret vs =>
          have hends := ends_guestReturn hcalls vs
          have hreturn : guestReturn vs t = .next m' u := hstep
          rw [final_ok, hreturn] at hends
          exact .returns hends
    · have hidle (f : Frame) (rest : List Activation) (hs : s.activations = .guest f :: rest) : False :=
        hguest ⟨f, rest, hs⟩
      have herror : guestError .noFunction s = .next m' u := by
        rwa [instruction_of_no_guest hidle] at hstep
      exact .turns (fun _ ↦ hidle) (.ends (herror ▸ ends_guestError .noFunction s))

/-- A run ends in the state in which nothing waits for the outcome. -/
theorem eq_of_halt {m : Mode} {result : Except RuntimeError (List Value)} {u : State}
    (hstep : step natives m s = .halt result u) : u = s := by
  cases m with
  | enter callee args =>
    have hturns := turns_hostCall hnatives callee args s
    have hcall : hostCall natives callee args s = .halt result u := hstep
    rw [hcall] at hturns
    obtain ⟨⟨⟩⟩ := hturns
  | deliver outcome =>
    have hover : handOver natives outcome s = .halt result u := hstep
    obtain hhalt | hturns := turns_handOver hnatives outcome s
    · cases hover.symm.trans hhalt
      rfl
    · rw [hover] at hturns
      obtain ⟨⟨⟩⟩ := hturns
  | execute =>
    rw [step_execute] at hstep
    generalize instruction s = r at hstep
    cases r with
    | error e t => cases hstep
    | ok d t =>
      cases d with
      | nothing => cases hstep
      | call argCount expected =>
        have hturns := turns_guestCall hnatives argCount expected t
        have hcall : guestCall natives argCount expected t = .halt result u := hstep
        rw [hcall] at hturns
        obtain ⟨⟨⟩⟩ := hturns
      | ret vs =>
        have hreturn : guestReturn vs t = .halt result u := hstep
        by_cases hguest : ∃ f rest, t.activations = .guest f :: rest
        · obtain ⟨f, rest, ht⟩ := hguest
          have hends := ends_guestReturn ht vs
          rw [hreturn] at hends
          cases hends
        · unfold guestReturn at hreturn
          split at hreturn
          · next ht => exact absurd ⟨_, _, ht⟩ hguest
          · cases hreturn

end Transition

end MiniLua
