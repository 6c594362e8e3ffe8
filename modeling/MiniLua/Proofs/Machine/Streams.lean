import MiniLua.Proofs.Machine.Hostless
import MiniLua.Proofs.Machine.Modest

/-!
What becomes of streams. Whoever loads from a stream opens it, reads it and closes it before anything
else happens, and no program takes notice of a failure to close one.
-/

namespace MiniLua

open Effects Machine

/-- What is done with a stream, from its opening to the end of a load. Standard input is not closed. -/
def Source.session (source : Source) : List StreamEvent :=
  .opened source :: .read source :: if source = .input then [] else [.closed source]

theorem Source.count_session (source x : Source) :
    source.session.count (.opened x) = [source].count x ∧
      source.session.count (.read x) = [source].count x ∧
      source.session.count (.closed x) = if x = .input then 0 else [source].count x := by
  unfold session
  by_cases hx : source = x
  · subst hx
    split <;> simp_all
  · split <;> simp_all

namespace Host

variable {f : Option String → Option String} {h : Host} {stream : Stream}

/-- The host when a stream was read and closed. -/
def swept (h : Host) (stream : Stream) : Host := ((h.read stream).2.2.close stream).2

/-- The host when a stream was opened, read and closed. -/
def served (h : Host) (stream : Stream) : Host := (h.note (.opened stream.source)).swept stream

/-- The host where to close a stream has the outcome `f` gives for its name, or for standard input. -/
def closing (f : Option String → Option String) (h : Host) : Host :=
  { h with
    resource := fun name ↦ (h.resource name).map fun stream ↦ { stream with closeError := f (some name) }
    stdin := { h.stdin with closeError := f none } }

/-- From the first host to the second, streams were opened, read and closed one after the other, if
standard input is what it is called. -/
def Sweeps (h h' : Host) : Prop :=
  h.stdin.source = .input → h'.stdin.source = .input ∧
    ∃ sources : List Source, h'.events.reverse = h.events.reverse ++ sources.flatMap Source.session

theorem events_swept (h : Host) (stream : Stream) : (h.swept stream).events.reverse =
    h.events.reverse ++ .read stream.source :: if stream.source = .input then [] else [.closed stream.source] := by
  have hread : (h.read stream).2.2.events = .read stream.source :: h.events := by
    unfold read
    dsimp only
    split <;> rfl
  unfold swept close Stream.isShared
  by_cases hinput : stream.source = .input
  · rw [if_pos hinput, if_pos (beq_iff_eq.mpr hinput), hread, List.reverse_cons]
  · rw [if_neg hinput, if_neg (mt beq_iff_eq.mp hinput), note]
    dsimp only
    rw [hread, List.reverse_cons, List.reverse_cons, List.append_assoc]
    rfl

theorem events_served (h : Host) (stream : Stream) :
    (h.served stream).events.reverse = h.events.reverse ++ stream.source.session := by
  rw [served, events_swept, note]
  dsimp only
  rw [List.reverse_cons, List.append_assoc]
  rfl

theorem stdin_swept (h : Host) (stream : Stream) : (h.swept stream).stdin.source = h.stdin.source := by
  unfold swept close read
  dsimp only
  split <;> split <;> rfl

theorem read_closing (f : Option String → Option String) (h : Host) (stream : Stream) (e : Option String) :
    ((h.closing f).read { stream with closeError := e }).2.2 = (h.read stream).2.2.closing f := by
  unfold read closing note Stream.isShared
  dsimp only
  split <;> rfl

theorem close_closing (f : Option String → Option String) (h : Host) (stream : Stream) (e : Option String) :
    ((h.closing f).close { stream with closeError := e }).2 = (h.close stream).2.closing f := by
  unfold close Stream.isShared
  dsimp only
  split <;> rfl

theorem print_closing (f : Option String → Option String) (h : Host) (line : Bytes) :
    (h.closing f).print line = (h.print line).map (closing f) := by
  unfold print closing
  dsimp only
  split <;> rfl

instance : Std.Refl Sweeps := ⟨fun _ hinput ↦ ⟨hinput, [], by simp⟩⟩

instance : IsTrans Host Sweeps where
  trans h h' h'' hsweeps hsweeps' hinput := by
    obtain ⟨hinput', sources, hevents⟩ := hsweeps hinput
    obtain ⟨hinput'', sources', hevents'⟩ := hsweeps' hinput'
    exact ⟨hinput'', sources ++ sources', by rw [hevents', hevents, List.flatMap_append, List.append_assoc]⟩

/-- What is printed changes nothing else. -/
theorem sweeps_print {line : Bytes} {h' : Host} (hprint : h.print line = .ok h') : h.Sweeps h' := by
  unfold print at hprint
  split at hprint
  · cases hprint
  · cases hprint
    exact Std.Refl.refl (r := Sweeps) h

theorem sweeps_served (h : Host) (stream : Stream) : h.Sweeps (h.served stream) := by
  refine fun hinput ↦ ⟨?_, [stream.source], ?_⟩
  · rw [served, stdin_swept]
    exact hinput
  · rw [events_served, List.flatMap_cons, List.flatMap_nil, List.append_nil]

end Host

namespace State

def closing (f : Option String → Option String) (s : State) : State := { s with host := s.host.closing f }

def Sweeps (s t : State) : Prop := s.host.Sweeps t.host

instance : Std.Refl Sweeps := ⟨fun _ ↦ Std.Refl.refl (r := Host.Sweeps) _⟩

instance : IsTrans State Sweeps := ⟨fun _ _ _ h h' ↦ IsTrans.trans (r := Host.Sweeps) _ _ _ h h'⟩

end State

/-- The same ending but for what becomes of closing a stream. -/
def withClosing {ε α : Type} (f : Option String → Option String) :
    EStateM.Result ε State α → EStateM.Result ε State α
  | .ok a s => .ok a (s.closing f)
  | .error e s => .error e (s.closing f)

/-- A program that does the same whether closing a stream fails or not. -/
class Heedless {ε α : Type} (m : EStateM ε State α) : Prop where
  run : ∀ (f : Option String → Option String) (s : State), m (s.closing f) = withClosing f (m s)

instance (priority := low) {ε α : Type} {m : EStateM ε State α} [Hostless m] : Heedless m := by
  refine ⟨fun f s ↦ ?_⟩
  have hrun := Hostless.run (m := m) s (s.host.closing f)
  have hhost := Hostless.host_final (m := m) s
  rw [State.closing, hrun]
  cases hs : m s with
  | ok a t =>
    rw [hs] at hhost
    rw [withHost, withClosing, State.closing, ← hhost]
    rfl
  | error e t =>
    rw [hs] at hhost
    rw [withHost, withClosing, State.closing, ← hhost]
    rfl

/-- A program to which the host does not matter has no streams. -/
instance (priority := low) {ε α : Type} {m : EStateM ε State α} [Hostless m] : Abides State.Sweeps m := by
  refine ⟨fun s ↦ ?_⟩
  rw [State.Sweeps, Hostless.host_final]
  exact Std.Refl.refl _

namespace Heedless

variable {ε α β : Type} {m : EStateM ε State α}

instance bind {f : α → EStateM ε State β} [hm : Heedless m] [hf : ∀ a, Heedless (f a)] :
    Heedless (m >>= f) := by
  refine ⟨fun g s ↦ ?_⟩
  rw [bind_apply, bind_apply, hm.run g s]
  cases m s with
  | ok a t => exact (hf a).run g t
  | error e t => rfl

theorem after {f : α → EStateM ε State β} [Heedless m] (h : ∀ a, Heedless (f a)) :
    Heedless (m >>= f) := inferInstance

/-- A program that looks at the state, but not at how streams close. -/
theorem look {f : State → EStateM ε State β}
    (h : ∀ (s : State) (g : Option String → Option String), f (s.closing g) = f s)
    (hf : ∀ s, Heedless (f s)) : Heedless (get >>= f) := by
  refine ⟨fun g s ↦ ?_⟩
  rw [bind_apply, bind_apply, get_apply, get_apply]
  dsimp only
  rw [h]
  exact (hf s).run g s

end Heedless

namespace Loading

/-! ### Loaders -/

theorem drain_apply (stream : Stream) (chunkName : String) (s : State) :
    drain stream chunkName s = match stream.readError with
      | none => .ok stream.data { s with host := (s.host.read stream).2.2 }
      | some reason => .error (.unreadable (chunkLabel chunkName) reason)
        { s with host := (s.host.read stream).2.2 } := by
  unfold drain Host.read
  cases stream.readError <;> rfl

theorem host_drain_decode (stream : Stream) (chunkName : String) (s : State) :
    (final ((do decode (← drain stream chunkName) chunkName : Loader Nat) s)).host =
      (s.host.read stream).2.2 := by
  rw [bind_apply, drain_apply]
  cases stream.readError with
  | none => exact Hostless.host_final (m := decode stream.data chunkName) _
  | some reason => rfl

/-- A stream that is loaded from is read and closed, whatever comes of it. -/
theorem host_loadStream (stream : Stream) (chunkName : String) (s : State) :
    (final (loadStream stream chunkName s)).host = s.host.swept stream := by
  have hdecode := host_drain_decode stream chunkName s
  unfold loadStream Host.swept
  rw [← hdecode]
  cases (do decode (← drain stream chunkName) chunkName : Loader Nat) s with
  | ok main t => rfl
  | error e t => rfl

theorem host_loadBytes (bytes : Bytes) (chunkName : String) (s : State) :
    (final (loadBytes bytes chunkName s)).host = s.host.served ⟨.memory, bytes, none, none⟩ :=
  host_loadStream _ chunkName _

/-- A file is loaded from a stream that is then closed, and a file that cannot be opened leaves
nothing to close. -/
theorem host_loadFile (name : String) (s : State) :
    (final (loadFile (some name) s)).host = match s.host.resource name with
      | .ok stream => s.host.served stream
      | .error _ => s.host := by
  unfold loadFile openStream
  rw [bind_apply, bind_apply, get_apply]
  dsimp only
  cases s.host.resource name with
  | ok stream => exact host_loadStream _ _ _
  | error e => cases e <;> rfl

theorem host_loadFile_input (s : State) :
    (final (loadFile none s)).host = (s.host.note (.opened .input)).swept s.host.stdin :=
  host_loadStream _ _ _

instance (bytes : Bytes) (chunkName : String) : Abides State.Sweeps (loadBytes bytes chunkName) := by
  refine ⟨fun s ↦ ?_⟩
  rw [State.Sweeps, host_loadBytes]
  exact s.host.sweeps_served _

instance (name : Option String) : Abides State.Sweeps (loadFile name) := by
  refine ⟨fun s ↦ ?_⟩
  rw [State.Sweeps]
  cases name with
  | none =>
    intro hinput
    have hserved := s.host.sweeps_served s.host.stdin hinput
    rwa [Host.served, hinput, ← host_loadFile_input] at hserved
  | some name =>
    rw [host_loadFile]
    split
    · exact s.host.sweeps_served _
    · exact Std.Refl.refl _

/-- Whether closing a stream fails is not seen in what is loaded from it, here or elsewhere. -/
theorem loadStream_closing (stream : Stream) (chunkName : String) (f : Option String → Option String)
    (e : Option String) (s : State) :
    loadStream { stream with closeError := e } chunkName (s.closing f) =
      withClosing f (loadStream stream chunkName s) := by
  have hdrain : drain { stream with closeError := e } chunkName (s.closing f) =
      withClosing f (drain stream chunkName s) := by
    rw [drain_apply, drain_apply, State.closing, Host.read_closing]
    dsimp only
    cases stream.readError <;> rfl
  have hdecode : (do decode (← drain { stream with closeError := e } chunkName) chunkName : Loader Nat)
      (s.closing f) = withClosing f ((do decode (← drain stream chunkName) chunkName : Loader Nat) s) := by
    rw [bind_apply, bind_apply, hdrain]
    cases drain stream chunkName s with
    | ok bytes t => exact Heedless.run (m := decode bytes chunkName) f t
    | error e t => rfl
  have hrelease (t : State) :
      release { stream with closeError := e } (t.closing f) = (release stream t).closing f := by
    rw [release, State.closing, Host.close_closing]
    rfl
  unfold loadStream
  rw [hdecode]
  cases (do decode (← drain stream chunkName) chunkName : Loader Nat) s with
  | ok main t =>
    dsimp only [withClosing]
    rw [hrelease, Heedless.run (m := closureOf main) f]
    rfl
  | error e t =>
    dsimp only [withClosing]
    rw [hrelease]

instance (event : StreamEvent) : Heedless (note event) := ⟨fun _ _ ↦ rfl⟩

instance (bytes : Bytes) (chunkName : String) : Heedless (loadBytes bytes chunkName) := by
  have hload : Heedless (loadStream ⟨.memory, bytes, none, none⟩ chunkName) :=
    ⟨fun f s ↦ loadStream_closing ⟨.memory, bytes, none, none⟩ chunkName f none s⟩
  unfold loadBytes
  infer_instance

/-- The same stream is opened, but for what becomes of closing it. -/
theorem openStream_closing (name : Option String) (f : Option String → Option String) (s : State) :
    openStream name (s.closing f) = match openStream name s with
      | .ok stream t => .ok { stream with closeError := f name } (t.closing f)
      | .error e t => .error e (t.closing f) := by
  unfold openStream
  rw [bind_apply, bind_apply, get_apply, get_apply]
  dsimp only
  cases name with
  | none => rfl
  | some name =>
    have hresource : (s.closing f).host.resource name =
        (s.host.resource name).map fun stream ↦ { stream with closeError := f (some name) } := rfl
    dsimp only
    rw [hresource]
    cases s.host.resource name with
    | ok stream => rfl
    | error e => cases e <;> rfl

instance (name : Option String) : Heedless (loadFile name) := by
  refine ⟨fun f s ↦ ?_⟩
  unfold loadFile
  rw [bind_apply, bind_apply, openStream_closing]
  cases openStream name s with
  | ok stream t => exact loadStream_closing _ _ f _ t
  | error e t => rfl

instance {α : Type} (loader : Loader α) [hm : Heedless loader] : Heedless (attempt loader) := by
  refine ⟨fun f s ↦ ?_⟩
  unfold attempt
  rw [hm.run f s]
  cases loader s <;> rfl

instance {α : Type} (loader : Loader α) [hm : Abides State.Sweeps loader] :
    Abides State.Sweeps (attempt loader) := by
  refine ⟨fun s ↦ ?_⟩
  have hs := hm.keeps s
  unfold attempt
  cases hr : loader s <;> rwa [hr] at hs

end Loading

/-- A builtin that opens, reads and closes the streams it loads from before it ends or makes a call,
whether or not closing one of them fails. -/
structure Native.Tidy (n : Native) : Prop where
  start : Heedless n.start
  resume : ∀ memo result, Heedless (n.resume memo result)
  starts : Abides State.Sweeps n.start
  resumes : ∀ memo result, Abides State.Sweeps (n.resume memo result)

theorem Native.Hostless.tidy {n : Native} (h : n.Hostless) : n.Tidy where
  start := have := h.start; inferInstance
  resume memo result := have := h.resume memo result; inferInstance
  starts := have := h.start; inferInstance
  resumes memo result := have := h.resume memo result; inferInstance

theorem Native.Tidy.plain (name : String) (body : Machine Unit) [Heedless body]
    [Abides State.Sweeps body] : (Native.plain name body).Tidy where
  start := Heedless.bind
  resume _ _ := inferInstanceAs (Heedless (pure _))
  starts := Abides.bind
  resumes _ _ := inferInstanceAs (Abides _ (pure _))

namespace Library

theorem tidy_loadfile : loadfile.Tidy := .plain _ _

theorem tidy_loadstring : loadstring.Tidy := .plain _ _

/-- What is printed has nothing to do with streams. -/
theorem tidy_print : print.Tidy := by
  refine @Native.Tidy.plain _ _ (.look (fun _ _ ↦ rfl) fun s ↦ .after fun values ↦ ?_)
    (.after fun s ↦ .after fun values ↦ ?_)
  · refine ⟨fun f t ↦ ?_⟩
    rw [bind_apply, bind_apply, get_apply, get_apply]
    dsimp only
    rw [State.closing, Host.print_closing]
    cases t.host.print _ with
    | ok host => exact Heedless.run (m := setResults []) f { t with host }
    | error reason => rfl
  · refine ⟨fun t ↦ ?_⟩
    rw [bind_apply, get_apply]
    dsimp only
    cases hprint : t.host.print _ with
    | ok host =>
      have hsweeps : t.host.Sweeps (final (setResults [] { t with host })).host := by
        rw [Hostless.host_final]
        exact Host.sweeps_print hprint
      exact hsweeps
    | error reason => exact Std.Refl.refl t

theorem tidy_dofile : dofile.Tidy where
  start := by
    refine .after fun name ↦ .after fun loaded ↦ ?_
    split <;> infer_instance
  resume memo result := inferInstanceAs (Heedless (_ >>= _))
  starts := by
    refine .after fun name ↦ .after fun loaded ↦ ?_
    split <;> infer_instance
  resumes memo result := inferInstanceAs (Abides _ (_ >>= _))

theorem tidy_load : load.Tidy where
  start := by
    refine .after fun reader ↦ ?_
    dsimp only
    split
    · infer_instance
    · exact .look (fun _ _ ↦ rfl) fun s ↦ inferInstance
  resume memo result := by
    unfold load
    dsimp only
    split
    · split
      · have hforget (location : Option Location) :
            Hostless (modify fun s ↦ { s with location } : Machine PUnit) := .modify fun _ _ ↦ rfl
        infer_instance
      · refine .look (fun _ _ ↦ rfl) fun s ↦ ?_
        split <;> infer_instance
    · infer_instance
  starts := by
    refine .after fun reader ↦ ?_
    dsimp only
    split
    · infer_instance
    · infer_instance
  resumes memo result := by
    unfold load
    dsimp only
    split
    · split
      · have hforget (location : Option Location) :
            Hostless (modify fun s ↦ { s with location } : Machine PUnit) := .modify fun _ _ ↦ rfl
        infer_instance
      · refine .after fun s ↦ ?_
        split <;> infer_instance
    · infer_instance

end Library

theorem Builtin.tidy (b : Builtin) : b.native.Tidy := by
  cases b
  case loadfile => exact Library.tidy_loadfile
  case dofile => exact Library.tidy_dofile
  case loadstring => exact Library.tidy_loadstring
  case load => exact Library.tidy_load
  case print => exact Library.tidy_print
  all_goals exact (Builtin.hostless _ rfl).tidy

end MiniLua
