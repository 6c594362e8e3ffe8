import MiniLua.Proofs.Twins.Natives

/-! Steps and runs are the same in machines that correspond. -/

namespace MiniLua

open Effects Machine

/-- What is to happen next is the same. -/
inductive Mode.Twins (R : Value → Value → Prop) : Mode → Mode → Prop
  | execute : Twins R .execute .execute
  | enter {v v' : Value} {args args' : List Value} (hv : R v v') (hargs : List.Forall₂ R args args') :
      Twins R (.enter v args) (.enter v' args')
  | deliver {r r' : Except RuntimeError (List Value)}
      (hr : ExceptRel (RuntimeError.Matches R) (List.Forall₂ R) r r') :
      Twins R (.deliver r) (.deliver r')

/-- Two machines that were in `s` and `s'` go on alike. -/
inductive Transition.Twins (n : Nat) (s s' : State) : Transition → Transition → Prop
  | next {m m' : Mode} {t t' : State} (ht : t.Twins n t') (g : s.Evolves t) (g' : s'.Evolves t')
      (hm : m.Twins (t.heap.Matches n t'.heap) m') : Twins n s s' (.next m t) (.next m' t')
  | halt {r r' : Except RuntimeError (List Value)} {t t' : State} (ht : t.Twins n t')
      (g : s.Evolves t) (g' : s'.Evolves t')
      (hr : ExceptRel (RuntimeError.Alike n t t') (List.Forall₂ (t.heap.Matches n t'.heap)) r r') :
      Twins n s s' (.halt r t) (.halt r' t')

theorem Transition.Twins.after {n : Nat} {s s' t t' : State} {x x' : Transition}
    (h : x.Twins n t t' x') (g : s.Evolves t) (g' : s'.Evolves t') : x.Twins n s s' x' := by
  cases h with
  | next ht k k' hm => exact .next ht (g.trans k) (g'.trans k') hm
  | halt ht k k' hr => exact .halt ht (g.trans k) (g'.trans k') hr

namespace State.Twins

variable {n : Nat} {s s' : State} (h : s.Twins n s')

include h

theorem truncate (size : Nat) : State.Twins n (s.truncate size) (s'.truncate size) :=
  h.withStack (forall₂_shrink h.stack size)

theorem noteLocation : State.Twins n s.noteLocation s'.noteLocation := by
  have hframes := h.frames
  unfold State.noteLocation
  rw [h.location]
  cases hs : s.location with
  | some place => exact h
  | none =>
    generalize s.frames = frames, s'.frames = frames' at hframes
    cases hframes with
    | nil => exact h
    | @cons f f' rest rest' hf _ =>
      have hproto := h.proto? hf.closure
      dsimp only
      generalize s.proto? f.closure = p, s'.proto? f'.closure = q at hproto
      cases hproto with
      | none => exact h
      | some hpq =>
        obtain ⟨d, hpq⟩ := hpq
        refine { h with location := ?_ }
        dsimp only
        rw [hpq.name, hpq.lines, hf.ip]

end State.Twins

theorem twins_unwind {R : Value → Value → Prop} {calls calls' : List Activation}
    (h : List.Forall₂ (Activation.Twins R) calls calls') (floor : Nat) :
    (Transition.unwind floor calls').1 = (Transition.unwind floor calls).1 ∧
      List.Forall₂ (Activation.Twins R) (Transition.unwind floor calls).2
        (Transition.unwind floor calls').2 := by
  induction h generalizing floor with
  | nil => exact ⟨rfl, .nil⟩
  | cons ha hrest ih =>
    cases ha with
    | guest hf =>
      rw [Transition.unwind, Transition.unwind, hf.base]
      exact ih _
    | native hc => exact ⟨rfl, .cons (.native hc) hrest⟩

theorem twins_noteLocation_evolves (s : State) : s.Evolves s.noteLocation := by
  unfold State.noteLocation
  split
  · split <;> exact .refl _
  · exact .refl _

theorem heap_remember (memo : Memo) (s : State) : (Transition.remember memo s).heap = s.heap := by
  unfold Transition.remember
  split <;> rfl

namespace Mirrored

variable {n : Nat} {s s' : State} (h : s.Twins n s')

include h

theorem guestError {e e' : RuntimeError} (he : RuntimeError.Alike n s s' e e') :
    (Transition.guestError e s).Twins n s s' (Transition.guestError e' s') := by
  have hnoted := h.noteLocation
  have g := twins_noteLocation_evolves s
  have g' := twins_noteLocation_evolves s'
  obtain ⟨hfloor, hcalls⟩ := twins_unwind hnoted.activations s.noteLocation.stack.size
  unfold Transition.guestError
  dsimp only
  rw [hnoted.stack_size, hfloor]
  exact .next ((hnoted.withActivations hcalls).truncate _) g g'
    (.deliver (.error (he.mono fun _ _ hv ↦ hv.mono g.toGrows g'.toGrows)))

theorem giveResults {vs vs' : List Value} (hvs : List.Forall₂ (s.heap.Matches n s'.heap) vs vs')
    (expected : Option Nat) :
    (Transition.giveResults vs expected s).Twins n s s' (Transition.giveResults vs' expected s') := by
  have hcalls := h.activations
  unfold Transition.giveResults
  generalize s.activations = calls, s'.activations = calls' at hcalls
  cases hcalls with
  | nil => exact .next h (.refl _) (.refl _) (.deliver (.ok hvs))
  | cons ha _ =>
    cases ha with
    | native _ => exact .next h (.refl _) (.refl _) (.deliver (.ok hvs))
    | guest _ =>
      have hplaced := placeResults h hvs expected
      dsimp only
      generalize Machine.placeResults vs expected s = r,
        Machine.placeResults vs' expected s' = r' at hplaced
      cases hplaced with
      | ok ht g g' _ => exact .next ht g g' .execute
      | error ht g g' he => exact (guestError ht he).after g g'

theorem nativeError {e e' : RuntimeError} (he : RuntimeError.Alike n s s' e e') :
    (Transition.nativeError e s).Twins n s s' (Transition.nativeError e' s') := by
  have hcalls := h.activations
  unfold Transition.nativeError
  generalize s.activations = calls, s'.activations = calls' at hcalls
  cases hcalls with
  | nil => exact .next h (.refl _) (.refl _) (.deliver (.error he))
  | cons ha hrest =>
    have hended := h.withActivations hrest
    cases ha with
    | guest _ => exact .next h (.refl _) (.refl _) (.deliver (.error he))
    | native hc =>
      dsimp only
      rw [hc.base]
      cases hrest with
      | nil => exact .next (hended.truncate _) (.refl _) (.refl _) (.deliver (.error he))
      | cons ha hrest =>
        cases ha with
        | guest _ => exact (guestError hended he).after (.refl _) (.refl _)
        | native _ => exact .next (hended.truncate _) (.refl _) (.refl _) (.deliver (.error he))

theorem checkDepth : Peeks n (fun _ _ ↦ True) s s' checkDepth checkDepth := by
  refine Peeks.get.bind fun t t' ⟨ht, ht'⟩ ↦ ?_
  subst ht ht'
  rw [h.options, ← h.activations.length_eq]
  split
  · exact .throw (.plain _ rfl)
  · exact .pure trivial

theorem allocCells {vs vs' : List Value} (hvs : List.Forall₂ (s.heap.Matches n s'.heap) vs vs')
    (count : Nat) :
    Mirrored n (fun _ _ ↦ Eq) s s' (allocCells vs count s) (allocCells vs' count s') := by
  induction count generalizing vs vs' s s' with
  | zero => exact .pure h rfl
  | succ count ih =>
    have hhead : s.heap.Matches n s'.heap (vs.headD .nil) (vs'.headD .nil) := by
      cases hvs with
      | nil => exact .nil
      | cons hv _ => exact hv
    have htail : List.Forall₂ (s.heap.Matches n s'.heap) vs.tail vs'.tail := by
      cases hvs with
      | nil => exact .nil
      | cons _ hvs => exact hvs
    obtain ⟨hheap, hcell⟩ := h.heap.allocCell hhead
    refine (onHeap (P := fun _ _ ↦ Eq) h hheap (.allocCell _ _) (.allocCell _ _) hcell.symm).bind
      fun cell _ t t' ht g g' hcell ↦ ?_
    subst hcell
    exact (ih ht (htail.imp fun _ _ hv ↦ hv.mono g.toGrows g'.toGrows)).bind
      fun cells _ u u' hu _ _ hcells ↦ hcells ▸ .pure hu rfl

theorem enterClosure {c c' : Nat} (hc : s.heap.Matches n s'.heap (.closure c) (.closure c'))
    (floor : Nat) (expected : Option Nat) :
    Together n s s' (enterClosure c floor expected s) (enterClosure c' floor expected s') := by
  refine (checkDepth h).sync_bind h fun _ _ _ ↦ Peeks.get.sync_bind h fun t t' ⟨ht, ht'⟩ ↦ ?_
  subst ht ht'
  have hproto := h.proto? hc
  generalize t.proto? c = p, t'.proto? c' = q at hproto
  cases hproto with
  | none => exact .throw h (.plain _ rfl)
  | @some p q hpq =>
    obtain ⟨d, hpq⟩ := hpq
    refine Peeks.get.sync_bind h fun u u' ⟨hu, hu'⟩ ↦ Peeks.get.sync_bind h fun w w' ⟨hw, hw'⟩ ↦ ?_
    subst hu hu' hw hw'
    have hargs := forall₂_extract h.stack (floor + 1) w.stack.size
    rw [h.stack_size]
    generalize (w.stack.extract (floor + 1) w.stack.size).toList = args,
      (w'.stack.extract (floor + 1) w.stack.size).toList = args' at hargs
    refine Sync.bind (Q := fun _ _ _ _ ↦ True) (.ok (h.truncate floor) (.refl _) (.refl _) trivial)
      fun _ _ t t' ht g g' _ ↦ ?_
    have hargs := hargs.imp fun _ _ hv ↦ hv.mono g.toGrows g'.toGrows
    have hc := hc.mono g.toGrows g'.toGrows
    rw [hpq.arity, hpq.cellCount, hpq.variadic]
    refine (allocCells ht hargs p.arity).bind fun bound _ u u' hu k k' hbound ↦ ?_
    subst hbound
    have hargs := hargs.imp fun _ _ hv ↦ hv.mono k.toGrows k'.toGrows
    have hvarargs : List.Forall₂ (u.heap.Matches n u'.heap)
        (if p.variadic then args.drop p.arity else [])
        (if p.variadic then args'.drop p.arity else []) := by
      split
      · exact List.forall₂_drop _ hargs
      · exact .nil
    have hframe : Frame.Twins (u.heap.Matches n u'.heap)
        { closure := c, ip := 0, base := floor, expected
          cells := (bound ++ List.replicate (p.cellCount - p.arity) none).toArray
          varargs := if p.variadic then args.drop p.arity else [] }
        { closure := c', ip := 0, base := floor, expected
          cells := (bound ++ List.replicate (p.cellCount - p.arity) none).toArray
          varargs := if p.variadic then args'.drop p.arity else [] } :=
      ⟨hc.mono k.toGrows k'.toGrows, rfl, rfl, rfl, hvarargs, rfl⟩
    exact .ok (hu.withActivations (.cons (.guest hframe) hu.activations)) (.refl _) (.refl _) trivial

theorem enterNative (natives : Array Native) (native floor argCount : Nat) (expected : Option Nat) :
    Mirrored n (fun _ _ b b' ↦ b' = b ∧ b ∈ natives) s s'
      (enterNative natives native floor argCount expected s)
      (enterNative natives native floor argCount expected s') := by
  refine (checkDepth h).sync_bind h fun _ _ _ ↦ ?_
  cases hb : natives[native]? with
  | none => exact .throw h (.plain _ rfl)
  | some b =>
    have hcall : NativeCall.Twins (s.heap.Matches n s'.heap)
        ⟨native, b.name, floor + 1, argCount, expected, .nothing⟩
        ⟨native, b.name, floor + 1, argCount, expected, .nothing⟩ :=
      ⟨rfl, rfl, rfl, rfl, rfl, .nothing⟩
    exact .ok (h.withActivations (.cons (.native hcall) h.activations)) (.refl _) (.refl _)
      ⟨rfl, Array.mem_of_getElem? hb⟩

theorem remember {m m' : Memo} (hm : m.Twins (s.heap.Matches n s'.heap) m') :
    State.Twins n (Transition.remember m s) (Transition.remember m' s') := by
  have hcalls := h.activations
  unfold Transition.remember
  generalize s.activations = calls, s'.activations = calls' at hcalls
  cases hcalls with
  | nil => exact h
  | cons ha hrest =>
    cases ha with
    | guest _ => exact h
    | native hc => exact h.withActivations (.cons (.native { hc with memo := hm }) hrest)

theorem nativeResults :
    (Transition.nativeResults s).Twins n s s' (Transition.nativeResults s') := by
  have hcalls := h.activations
  unfold Transition.nativeResults
  generalize s.activations = calls, s'.activations = calls' at hcalls
  cases hcalls with
  | nil => exact .next h (.refl _) (.refl _) (.deliver (.ok .nil))
  | cons ha hrest =>
    cases ha with
    | guest _ => exact .next h (.refl _) (.refl _) (.deliver (.ok .nil))
    | native hc =>
      dsimp only
      rw [hc.base, hc.expected, h.stack_size]
      exact (giveResults ((h.withActivations hrest).truncate _) (forall₂_extract h.stack _ _) _).after
        (.refl _) (.refl _)

omit h in
theorem afterNative {r r' : EStateM.Result RuntimeError State Outcome}
    (hr : Mirrored n (fun k k' ↦ Outcome.Twins (k.Matches n k')) s s' r r') :
    (Transition.afterNative r).Twins n s s' (Transition.afterNative r') := by
  cases hr with
  | error ht g g' he => exact (nativeError ht he).after g g'
  | ok ht g g' ho =>
    cases ho with
    | finished => exact (nativeResults ht).after g g'
    | invoke hv hargs hm =>
      refine .next (remember ht hm) ?_ ?_ ?_
      · rw [State.Evolves, heap_remember]
        exact g
      · rw [State.Evolves, heap_remember]
        exact g'
      · rw [heap_remember, heap_remember]
        exact .enter hv hargs

theorem guestReturn {vs vs' : List Value} (hvs : List.Forall₂ (s.heap.Matches n s'.heap) vs vs') :
    (Transition.guestReturn vs s).Twins n s s' (Transition.guestReturn vs' s') := by
  have hcalls := h.activations
  unfold Transition.guestReturn
  generalize s.activations = calls, s'.activations = calls' at hcalls
  cases hcalls with
  | nil => exact .next h (.refl _) (.refl _) (.deliver (.error (.plain _ rfl)))
  | cons ha hrest =>
    cases ha with
    | native _ => exact .next h (.refl _) (.refl _) (.deliver (.error (.plain _ rfl)))
    | guest hf =>
      dsimp only
      rw [hf.base, hf.expected]
      exact (giveResults ((h.withActivations hrest).truncate _) hvs _).after (.refl _) (.refl _)

section

variable {natives : Array Native} (hnatives : ∀ b ∈ natives, b.Twinned)

include hnatives

omit h in
/-- A builtin that has just been entered starts. -/
theorem startNative {native floor argCount : Nat} {expected : Option Nat} {t t' : State}
    {b b' : Native} (hroom : floor + 1 ≤ s.stack.size) (ht : t.Twins n t') (g : s.Evolves t)
    (g' : s'.Evolves t')
    (hb : Machine.enterNative natives native floor argCount expected s = .ok b t)
    (hbb : b' = b ∧ b ∈ natives) :
    (Transition.afterNative (b.start t)).Twins n s s' (Transition.afterNative (b'.start t')) := by
  obtain ⟨rfl, hmem⟩ := hbb
  have hserves : t.Serves := by
    obtain ⟨e, he⟩ | ⟨b₂, call, u, hu, -, hbase, hcalls, hstack⟩ :=
      enterNative_cases natives native floor argCount expected s
    · rw [hb] at he
      cases he
    · rw [hb] at hu
      cases hu
      exact ⟨call, s.activations, hcalls, by rw [hbase, hstack]; exact hroom⟩
  exact (afterNative ((hnatives _ hmem).start ht hserves)).after g g'

theorem guestCall (argCount : Nat) (expected : Option Nat) :
    (Transition.guestCall natives argCount expected s).Twins n s s'
      (Transition.guestCall natives argCount expected s') := by
  unfold Transition.guestCall
  rw [h.stack_size]
  split
  · exact guestError h (.plain _ rfl)
  · next hroom =>
    dsimp only
    have hcallee : s.heap.Matches n s'.heap
        (s.stack.getD (s.stack.size - (argCount + 1)) .nil)
        (s'.stack.getD (s.stack.size - (argCount + 1)) .nil) := by
      have hentry := forall₂_getElem? h.stack (s.stack.size - (argCount + 1))
      simp only [Array.getElem?_toList] at hentry
      rw [Array.getD_eq_getD_getElem?, Array.getD_eq_getD_getElem?]
      exact rel_getD hentry .nil
    generalize s.stack.getD (s.stack.size - (argCount + 1)) .nil = v,
      s'.stack.getD (s.stack.size - (argCount + 1)) .nil = v' at hcallee
    generalize hfloor : s.stack.size - (argCount + 1) = floor
    cases hcallee with
    | @closure c hc hc' =>
      have hclosure : s.heap.Matches n s'.heap (.closure c) (.closure c) := .closure hc hc'
      have hentered := enterClosure h hclosure floor expected
      dsimp only
      generalize Machine.enterClosure c floor expected s = r,
        Machine.enterClosure c floor expected s' = r' at hentered
      cases hentered with
      | ok ht g g' _ => exact .next ht g g' .execute
      | error ht g g' he => exact (guestError ht he).after g g'
    | @native i hi =>
      have hentered := enterNative h natives i floor argCount expected
      dsimp only
      generalize hr : Machine.enterNative natives i floor argCount expected s = r,
        Machine.enterNative natives i floor argCount expected s' = r' at hentered
      cases hentered with
      | ok ht g g' hb => exact startNative hnatives (by omega) ht g g' hr hb
      | error ht g g' he => exact (guestError ht he).after g g'
    | nil | bool | int | float | string | table => exact guestError h (.plain _ rfl)

theorem hostCall {v v' : Value} {args args' : List Value} (hv : s.heap.Matches n s'.heap v v')
    (hargs : List.Forall₂ (s.heap.Matches n s'.heap) args args') :
    (Transition.hostCall natives v args s).Twins n s s'
      (Transition.hostCall natives v' args' s') := by
  have hrefuse {t t' : State} {e e' : RuntimeError} (ht : t.Twins n t') (g : s.Evolves t)
      (g' : s'.Evolves t') (he : RuntimeError.Alike n t t' e e') :
      Transition.Twins n s s' (.next (.deliver (.error e)) (t.truncate s.stack.size))
        (.next (.deliver (.error e')) (t'.truncate s.stack.size)) :=
    .next (ht.truncate _) g g' (.deliver (.error he))
  have hstart : State.Twins n (if s.activations.isEmpty then { s with location := none } else s)
      (if s'.activations.isEmpty then { s' with location := none } else s') := by
    have hempty : s'.activations.isEmpty = s.activations.isEmpty := by
      have hcalls := h.activations
      generalize s.activations = calls, s'.activations = calls' at hcalls
      cases hcalls <;> rfl
    rw [hempty]
    split
    · exact { h with location := rfl }
    · exact h
  unfold Transition.hostCall
  dsimp only
  rw [h.stack_size]
  obtain ⟨location, hplace⟩ := Machine.exists_location s
  obtain ⟨location', hplace'⟩ := Machine.exists_location s'
  rw [hplace, hplace'] at hstart
  rw [hplace, hplace']
  generalize hu : ({ s with location } : State) = u, hu' : ({ s' with location := location' } : State) = u' at *
  have hheap : u.heap = s.heap := by rw [← hu]
  have hstack : u.stack = s.stack := by rw [← hu]
  have hheap' : u'.heap = s'.heap := by rw [← hu']
  have hvalues : List.Forall₂ (u.heap.Matches n u'.heap) (v :: args) (v' :: args') := by
    rw [hheap, hheap']
    exact .cons hv hargs
  have hpushed := pushAll hstart hvalues
  generalize hrun : Machine.pushAll (v :: args) u = r,
    Machine.pushAll (v' :: args') u' = r' at hpushed
  have hevolves {s t u : State} (hu : u.heap = s.heap) (g : u.Evolves t) : s.Evolves t := by
    rwa [State.Evolves, hu] at g
  cases hpushed with
  | error ht g g' he => exact hrefuse ht (hevolves hheap g) (hevolves hheap' g') he
  | @ok _ _ t t' ht g g' _ =>
    have g := hevolves hheap g
    have g' := hevolves hheap' g'
    have hroom : s.stack.size + 1 ≤ t.stack.size := by
      rw [pushAll_eq_ok hrun, hstack, ← Array.length_toList, ← Array.length_toList,
        Array.toList_appendList, List.length_append, List.length_cons]
      omega
    dsimp only
    rw [← hargs.length_eq]
    cases hv with
    | @closure c hc hc' =>
      have hcallee : t.heap.Matches n t'.heap (.closure c) (.closure c) :=
        .mono (.closure hc hc') g.toGrows g'.toGrows
      have hentered := enterClosure ht hcallee s.stack.size none
      dsimp only
      generalize Machine.enterClosure c s.stack.size none t = r,
        Machine.enterClosure c s.stack.size none t' = r' at hentered
      cases hentered with
      | ok hu k k' _ => exact .next hu (g.trans k) (g'.trans k') .execute
      | error hu k k' he => exact hrefuse hu (g.trans k) (g'.trans k') he
    | @native i hi =>
      have hentered := enterNative ht natives i s.stack.size args.length none
      dsimp only
      generalize hr : Machine.enterNative natives i s.stack.size args.length none t = r,
        Machine.enterNative natives i s.stack.size args.length none t' = r' at hentered
      cases hentered with
      | ok hu k k' hb => exact (startNative hnatives hroom hu k k' hr hb).after g g'
      | error hu k k' he => exact hrefuse hu (g.trans k) (g'.trans k') he
    | nil | bool | int | float | string | table => exact hrefuse ht g g' (.plain _ rfl)

theorem handOver {r r' : Except RuntimeError (List Value)}
    (hr : ExceptRel (RuntimeError.Alike n s s') (List.Forall₂ (s.heap.Matches n s'.heap)) r r') :
    (Transition.handOver natives r s).Twins n s s' (Transition.handOver natives r' s') := by
  have hcalls := h.activations
  unfold Transition.handOver
  generalize s.activations = calls, s'.activations = calls' at hcalls
  cases hcalls with
  | nil => exact .halt h (.refl _) (.refl _) hr
  | cons ha _ =>
    cases ha with
    | guest _ => exact .halt h (.refl _) (.refl _) hr
    | @native c c' hc =>
      dsimp only
      rw [hc.native]
      cases hb : natives[c.native]? with
      | none => exact nativeError h (.plain _ rfl)
      | some b => exact afterNative ((hnatives b (Array.mem_of_getElem? hb)).resume h hc.memo hr)

end

end Mirrored

/-- One step is the same in two machines that correspond. -/
theorem step_twins {natives : Array Native} (hnatives : ∀ b ∈ natives, b.Twinned) {n : Nat}
    {s s' : State} (h : s.Twins n s') {m m' : Mode} (hm : m.Twins (s.heap.Matches n s'.heap) m') :
    (step natives m s).Twins n s s' (step natives m' s') := by
  cases hm with
  | enter hv hargs => exact Mirrored.hostCall h hnatives hv hargs
  | deliver hr => exact Mirrored.handOver h hnatives hr
  | execute =>
    have hdone := Mirrored.instruction h
    unfold step
    dsimp only
    generalize instruction s = r, instruction s' = r' at hdone
    cases hdone with
    | error ht g g' he => exact (Mirrored.guestError ht he).after g g'
    | ok ht g g' hd =>
      cases hd with
      | nothing => exact .next ht g g' .execute
      | call argCount expected => exact (Mirrored.guestCall ht hnatives argCount expected).after g g'
      | ret hvs => exact (Mirrored.guestReturn ht hvs).after g g'

/-- Runs that end alike, or are still going on alike. -/
inductive Run.Twins (n : Nat) : Run → Run → Prop
  | halted {r r' : Except RuntimeError (List Value)} {s s' : State} (h : s.Twins n s')
      (hr : ExceptRel (RuntimeError.Alike n s s') (List.Forall₂ (s.heap.Matches n s'.heap)) r r') :
      Twins n (.halted r s) (.halted r' s')
  | running {m m' : Mode} {s s' : State} (h : s.Twins n s')
      (hm : m.Twins (s.heap.Matches n s'.heap) m') : Twins n (.running m s) (.running m' s')

end MiniLua
