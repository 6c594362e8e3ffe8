import MiniLua.Proofs.Twins.Builtins
import MiniLua.Proofs.Twins.Loaders

/-! Builtins do the same in machines that correspond. -/

namespace MiniLua

open Effects Machine

/-- Builtins that go on alike. -/
inductive Outcome.Twins (R : Value → Value → Prop) : Outcome → Outcome → Prop
  | finished : Twins R .finished .finished
  | invoke {v v' : Value} {args args' : List Value} {memo memo' : Memo} (hv : R v v')
      (hargs : List.Forall₂ R args args') (hmemo : memo.Twins R memo') :
      Twins R (.invoke v args memo) (.invoke v' args' memo')

/-- A builtin runs and has its window on the stack. -/
def State.Serves (s : State) : Prop :=
  ∃ call rest, s.activations = .native call :: rest ∧ call.base ≤ s.stack.size

namespace State.Twins

variable {n : Nat} {s s' : State} (h : s.Twins n s')

include h

theorem native? : Option.Rel (NativeCall.Twins (s.heap.Matches n s'.heap)) s.native? s'.native? := by
  have hcalls := h.activations
  unfold State.native?
  generalize s.activations = calls, s'.activations = calls' at hcalls
  induction hcalls with
  | nil => exact .none
  | cons ha _ ih =>
    cases ha with
    | guest _ => exact ih
    | native hc => exact .some hc

theorem frames : List.Forall₂ (Frame.Twins (s.heap.Matches n s'.heap)) s.frames s'.frames := by
  have hcalls := h.activations
  unfold State.frames
  generalize s.activations = calls, s'.activations = calls' at hcalls
  induction hcalls with
  | nil => exact .nil
  | cons ha _ ih =>
    cases ha with
    | guest hf => exact .cons hf ih
    | native _ => exact ih

/-- Where all corresponds, what a builtin sees does. -/
theorem linked (hs : s.Serves) : s.Linked n s' := by
  obtain ⟨call, rest, hcall, hbase⟩ := hs
  have hnative := h.native?
  have hrunning : s.native? = some call := by
    rw [State.native?, hcall]
    rfl
  rw [hrunning] at hnative
  cases hrunning' : s'.native? with
  | none =>
    rw [hrunning'] at hnative
    cases hnative
  | some call' =>
    rw [hrunning'] at hnative
    cases hnative with
    | some hcalls =>
      refine ⟨h.heap.toTwins, h.host, h.frames.imp fun _ _ hf ↦ hf.closure, call, call', hrunning,
        hrunning', hcalls.name, hcalls.argCount, hcalls.expected, hbase, ?_, ?_⟩
      · rw [hcalls.base, h.stack_size]
        exact hbase
      · rw [hcalls.base]
        exact List.forall₂_drop _ h.stack

/-- A builtin leaves the code of closures alone. -/
theorem code_of_retains {t t' : State} (hr : s.Retains t) (hr' : s'.Retains t') :
    List.Forall₂ (t.heap.ClosureTwins n t'.heap) t.heap.closures.toList
      t'.heap.closures.toList := by
  have hcode := h.heap.code.imp fun _ _ hc ↦ hc.mono hr.heap.evolves hr'.heap.evolves
  have hkeys := congrArg Array.toList hr.heap.closures
  have hkeys' := congrArg Array.toList hr'.heap.closures
  rw [Array.toList_map, Array.toList_map] at hkeys hkeys'
  have hpairs : List.Forall₂ (fun p q : Nat × Array Nat ↦
      t.heap.SameCode n t'.heap p.1 q.1 ∧ q.2 = p.2)
      (s.heap.closures.toList.map fun c ↦ (c.proto, c.upvalues))
      (s'.heap.closures.toList.map fun c ↦ (c.proto, c.upvalues)) := by
    rw [List.forall₂_map_left_iff, List.forall₂_map_right_iff]
    exact hcode
  rw [← hkeys, ← hkeys', List.forall₂_map_left_iff, List.forall₂_map_right_iff] at hpairs
  exact hpairs

/-- What a builtin changes corresponds, and it leaves the rest. -/
theorem of_linked {t t' : State} (hs : s.Serves) (hr : s.Retains t) (hr' : s'.Retains t')
    (hl : t.Linked n t') : t.Twins n t' := by
  have g := hr.heap.evolves
  have g' := hr'.heap.evolves
  have hmono : ∀ v w, s.heap.Matches n s'.heap v w → t.heap.Matches n t'.heap v w :=
    fun _ _ hv ↦ hv.mono g.toGrows g'.toGrows
  have hcells : List.Forall₂ (t.heap.Matches n t'.heap) t.heap.cells.toList t'.heap.cells.toList := by
    rw [hr.heap.cells, hr'.heap.cells]
    exact h.heap.cells.imp hmono
  have hstack : List.Forall₂ (t.heap.Matches n t'.heap) t.stack.toList t'.stack.toList := by
    obtain ⟨call, call', hcall, hcall', -, -, -, hbase, hbase', -⟩ := h.linked hs |>.native
    obtain ⟨call₂, call₂', hcall₂, hcall₂', -, -, -, -, -, hwindow⟩ := hl.native
    obtain rfl := Option.some.inj (hcall₂.symm.trans (hr.native?.trans hcall))
    obtain rfl := Option.some.inj (hcall₂'.symm.trans (hr'.native?.trans hcall'))
    have hsame := hr.below _ hcall
    have hsame' := hr'.below _ hcall'
    rw [Nat.min_eq_left hbase] at hsame
    rw [Nat.min_eq_left hbase'] at hsame'
    have hbases : call₂'.base = call₂.base := by
      have hnative := h.native?
      rw [hcall, hcall'] at hnative
      cases hnative with
      | some hcalls => exact hcalls.base
    have hbelow := List.forall₂_take call₂.base h.stack
    rw [hsame.take_eq, ← hbases, hsame'.take_eq, hbases] at hbelow
    rw [hbases] at hwindow
    have hall := List.rel_append (hbelow.imp hmono) hwindow
    dsimp only at hall
    rwa [List.take_append_drop, List.take_append_drop] at hall
  refine ⟨⟨hl.heap, hcells, h.code_of_retains hr hr'⟩, hstack, ?_, ?_, ?_, hl.host, ?_, ?_, ?_, ?_⟩
  · rw [hr.activations, hr'.activations]
    exact h.activations.imp fun _ _ ha ↦ ha.mono hmono
  · rw [hr.globals, hr'.globals]
    exact hmono _ _ h.globals
  · rw [hr.stringMethods, hr'.stringMethods]
    exact hmono _ _ h.stringMethods
  · rw [hr.compiles, hr'.compiles, h.compiles]
  · rw [hr.options, hr'.options, h.options]
  · rw [hr.lastMulti, hr'.lastMulti, h.lastMulti]
  · rw [hr.location, hr'.location, h.location]

end State.Twins

/-- Started or resumed in two machines that correspond, the builtin goes on alike. -/
structure Native.Twinned (b : Native) : Prop where
  start : ∀ {n : Nat} {s s' : State}, s.Twins n s' → s.Serves →
    Mirrored n (fun k k' ↦ Outcome.Twins (k.Matches n k')) s s' (b.start s) (b.start s')
  resume : ∀ {n : Nat} {s s' : State} {memo memo' : Memo}
    {result result' : Except RuntimeError (List Value)}, s.Twins n s' →
    memo.Twins (s.heap.Matches n s'.heap) memo' →
    ExceptRel (RuntimeError.Alike n s s') (List.Forall₂ (s.heap.Matches n s'.heap)) result result' →
    Mirrored n (fun k k' ↦ Outcome.Twins (k.Matches n k')) s s' (b.resume memo result s)
      (b.resume memo' result' s')

/-- What does the same for linked machines does the same for machines that correspond. -/
theorem State.Twins.of_agrees {α α' : Type} {n : Nat} {s s' : State} (h : s.Twins n s')
    (hs : s.Serves) {P : Heap → Heap → α → α' → Prop} {r : EStateM.Result RuntimeError State α}
    {r' : EStateM.Result RuntimeError State α'} (hr : Agrees n P s s' r r') :
    Mirrored n P s s' r r' := by
  cases hr with
  | ok ht hk hk' ha => exact .ok (h.of_linked hs hk hk' ht) hk.heap.evolves hk'.heap.evolves ha
  | error ht hk hk' he => exact .error (h.of_linked hs hk hk' ht) hk.heap.evolves hk'.heap.evolves he

theorem Native.Twinned.plain {name : String} {body : Machine Unit}
    (h : ∀ {n : Nat} {s s' : State}, s.Twins n s' → s.Serves →
      Together n s s' (body s) (body s')) : (Native.plain name body).Twinned where
  start ht hs := (h ht hs).bind fun _ _ _ _ ht _ _ _ ↦ .pure ht .finished
  resume ht _ _ := .pure ht .finished

/-- Builtins that load nothing make no calls. -/
theorem Builtin.resume_of_plain {b : Builtin} (hb : b.loads = false) (memo : Memo)
    (result : Except RuntimeError (List Value)) :
    b.native.resume memo result = pure .finished := by
  cases b <;> first | rfl | cases hb

theorem Builtin.twinned_of_plain {b : Builtin} (hb : b.loads = false) : b.native.Twinned where
  start h hs :=
    (h.of_agrees hs (b.parallel hb (h.linked hs))).mono (fun _ _ ht _ _ ↦ ht)
      fun _ _ _ _ _ _ ⟨ho, ho'⟩ ↦ by
        subst ho ho'
        exact .finished
  resume h _ _ := by
    rw [b.resume_of_plain hb, b.resume_of_plain hb]
    exact .pure h .finished

namespace Library

open Loading

variable {n : Nat} {s s' : State}

theorem mirrored_setResults (h : s.Twins n s') {vs vs' : List Value}
    (hvs : List.Forall₂ (s.heap.Matches n s'.heap) vs vs') :
    Together n s s' (setResults vs s) (setResults vs' s') := by
  have hnative := h.native?
  unfold setResults
  rw [modify_apply, modify_apply]
  generalize s.native? = call, s'.native? = call' at hnative
  cases hnative with
  | none => exact .ok h (.refl _) (.refl _) trivial
  | some hcalls =>
    refine .ok (h.withStack ?_) (.refl _) (.refl _) trivial
    rw [hcalls.base]
    simp only [Array.appendList_eq_append, Array.toList_appendList]
    exact List.rel_append (forall₂_shrink h.stack _) hvs

theorem peeks_textArg? (h : s.Linked n s') (i : Nat) :
    Peeks n (· = ·) s s' (textArg? i) (textArg? i) := by
  refine (h.arg i).bind fun v v' hv ↦ ?_
  rw [hv.isNil]
  split
  · exact .pure rfl
  · exact (h.argBytes i).bind fun _ _ htext ↦ .pure (htext ▸ rfl)

theorem mirrored_report (h : s.Twins n s') {r r' : Except LoadError Value}
    (hr : ExceptRel (· = ·) (s.heap.Matches n s'.heap) r r') :
    Together n s s' (report r s) (report r' s') := by
  cases hr with
  | ok hv => exact mirrored_setResults h (.cons hv .nil)
  | error he =>
    subst he
    exact (Mirrored.bytesValue h _).bind fun _ _ _ _ ht _ _ hv ↦
      mirrored_setResults ht (.cons .nil (.cons hv .nil))

theorem twinned_loadfile : loadfile.Twinned := by
  apply Native.Twinned.plain
  intro n s s' h hs
  refine (peeks_textArg? (h.linked hs) 0).sync_bind h fun name _ hname ↦ ?_
  subst hname
  exact (mirrored_attempt (alike_loadFile h name)).bind fun _ _ _ _ ht _ _ hr ↦ mirrored_report ht hr

theorem twinned_dofile : dofile.Twinned where
  start {n s s'} h hs := by
    refine (peeks_textArg? (h.linked hs) 0).sync_bind h fun name _ hname ↦ ?_
    subst hname
    refine (mirrored_attempt (alike_loadFile h name)).bind fun r r' t t' ht _ _ hr ↦ ?_
    have hraise (text : String) : Mirrored n (fun k k' ↦ Outcome.Twins (k.Matches n k')) t t'
        ((do throw (← raise (← textValue text)) : Machine Outcome) t)
        ((do throw (← raise (← textValue text)) : Machine Outcome) t') := by
      refine (Mirrored.bytesValue ht _).bind fun v v' u u' hu _ _ hv ↦ ?_
      exact (State.Linked.raise hv).sync_bind hu fun e e' he ↦ .throw hu he
    cases hr with
    | ok hv => exact .pure ht (.invoke hv .nil .nothing)
    | @error e _ he =>
      subst he
      cases e <;> exact hraise _
  resume h _ hr :=
    (State.Linked.lift hr).sync_bind h fun _ _ hvs ↦
      (mirrored_setResults h hvs).bind fun _ _ _ _ ht _ _ _ ↦ .pure ht .finished

theorem twinned_loadstring : loadstring.Twinned := by
  apply Native.Twinned.plain
  intro n s s' h hs
  have hl := h.linked hs
  refine (hl.argBytes 0).sync_bind h fun source _ hsource ↦
    (peeks_textArg? hl 1).sync_bind h fun name _ hname ↦ ?_
  subst hsource hname
  exact (mirrored_attempt (alike_loadBytes h _ _)).bind fun _ _ _ _ ht _ _ hr ↦ mirrored_report ht hr

theorem mirrored_askReader (h : s.Twins n s') {v v' : Value} (hv : s.heap.Matches n s'.heap v v')
    (chunkName : String) (text : Bytes) :
    Mirrored n (fun k k' ↦ Outcome.Twins (k.Matches n k')) s s' (askReader v chunkName text s)
      (askReader v' chunkName text s') := by
  refine Peeks.get.sync_bind h fun t t' ⟨ht, ht'⟩ ↦ ?_
  subst ht ht'
  rw [h.location]
  exact .pure h (.invoke hv .nil (.source _ _ _ hv))

theorem piece?_of_matches {h h' : Heap} {vs vs' : List Value}
    (hvs : List.Forall₂ (h.Matches n h') vs vs') : piece? h vs = piece? h' vs' := by
  unfold piece?
  cases hvs with
  | nil => rfl
  | cons hv _ => simp only [List.head?_cons, Option.bind_some, hv.stringOf?]

theorem twinned_load : load.Twinned where
  start {n s s'} h hs := by
    have hl := h.linked hs
    refine (hl.arg 0).sync_bind h fun reader reader' hreader ↦ ?_
    dsimp only
    rw [hreader.isCallable]
    have hask : Mirrored n (fun k k' ↦ Outcome.Twins (k.Matches n k')) s s'
        ((do askReader reader ((← textArg? 1).getD readerChunk) []) s)
        ((do askReader reader' ((← textArg? 1).getD readerChunk) []) s') :=
      (peeks_textArg? hl 1).sync_bind h fun name _ hname ↦ hname ▸ mirrored_askReader h hreader _ _
    split
    · exact hask
    · refine Peeks.get.sync_bind h fun t t' ⟨ht, ht'⟩ ↦ ?_
      subst ht ht'
      rw [hreader.toText]
      exact .throw h (.plain _ rfl)
  resume {n s s' memo memo' result result'} h hmemo hr := by
    cases hmemo with
    | nothing => exact .pure h .finished
    | kept => exact .pure h .finished
    | @source text chunkName location v v' hv =>
      cases hr with
      | error he =>
        have hlocated : State.Twins n { s with location } { s' with location } :=
          { h with location := rfl }
        refine Sync.bind (Q := fun _ _ _ _ ↦ True) (.ok hlocated (.refl _) (.refl _) trivial)
          fun _ _ t t' ht _ _ _ ↦ ?_
        rw [he.message]
        exact (mirrored_report ht (.error rfl)).bind fun _ _ _ _ ht _ _ _ ↦ .pure ht .finished
      | ok hvs =>
        refine Peeks.get.sync_bind h fun t t' ⟨ht, ht'⟩ ↦ ?_
        subst ht ht'
        rw [piece?_of_matches hvs]
        generalize piece? t'.heap _ = piece
        cases piece with
        | some piece => exact mirrored_askReader h hv _ _
        | none =>
          exact (mirrored_attempt (alike_loadBytes h _ _)).bind fun _ _ _ _ ht _ _ hr ↦
            (mirrored_report ht hr).bind fun _ _ _ _ ht _ _ _ ↦ .pure ht .finished

end Library

theorem Builtin.twinned (b : Builtin) : b.native.Twinned := by
  cases b with
  | loadfile => exact Library.twinned_loadfile
  | dofile => exact Library.twinned_dofile
  | loadstring => exact Library.twinned_loadstring
  | load => exact Library.twinned_load
  | _ => exact Builtin.twinned_of_plain rfl

end MiniLua
