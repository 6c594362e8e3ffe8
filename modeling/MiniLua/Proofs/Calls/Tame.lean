import MiniLua.Proofs.Calls.Builtins
import MiniLua.Proofs.Machine.Modest

/-!
Builtins are tame: none changes the limits or notes a place, and none loses code. One that makes a
call either fails with the error the call brings, or forgets the place of it.
-/

namespace MiniLua

open Effects Machine

/-- A relation that leaves a builtin as much room in its window as it likes. -/
class Spacious (R : State → State → Prop) : Prop extends Sparing R where
  stack (s : State) (stack : Array Value) : R s { s with stack }

namespace Machine

variable {α : Type}

section

variable {R : State → State → Prop} [Sparing R]

instance : Abides R argCount := by
  unfold argCount
  infer_instance

instance (i : Nat) : Abides R (arg i) := by
  refine .after fun s ↦ ?_
  split <;> infer_instance

instance : Abides R args := by
  unfold args
  infer_instance

instance : Abides R expectedResults := by
  unfold expectedResults
  infer_instance

instance (depth : Nat) : Abides R (callFrame? depth) := by
  unfold callFrame?
  infer_instance

instance (i : Nat) (detail : String) : Abides R (badArgument i detail) := by
  unfold badArgument
  infer_instance

instance (i : Nat) (wanted : String) : Abides R (wrongType i wanted : Machine α) := by
  unfold wrongType
  infer_instance

instance (i : Nat) : Abides R (argNumber? i) := by
  unfold argNumber?
  infer_instance

instance (i : Nat) : Abides R (argInt i) := by
  refine .after fun v ↦ ?_
  split <;> infer_instance

instance (i : Nat) : Abides R (argFloat i) := by
  refine .after fun v ↦ ?_
  split <;> infer_instance

instance (i : Nat) : Abides R (argBytes i) := by
  refine .after fun v ↦ ?_
  split
  · infer_instance
  · split <;> infer_instance

instance (i : Nat) : Abides R (argBool i) := by
  unfold argBool
  infer_instance

instance (value : Value) : Abides R (raise value) := by
  unfold raise
  infer_instance

end

instance : Spacious State.Tame := ⟨fun _ _ ↦ ⟨.of_links (fun _ _ ↦ id) rfl rfl rfl, rfl, rfl⟩⟩

instance {R : State → State → Prop} [Spacious R] (values : List Value) : Abides R (setResults values) := by
  refine .modify fun s ↦ ?_
  split
  · exact Spacious.stack s _
  · exact Std.Refl.refl s

end Machine

namespace Loading

variable {R : State → State → Prop} [Sparing R]

instance (bytes : Bytes) (chunkName : String) : Abides R (decode bytes chunkName) := by
  refine ⟨fun s ↦ ?_⟩
  obtain ⟨heap, hheap, hadds⟩ := decode_adds bytes chunkName s
  rw [hheap]
  refine Sparing.loads s heap hadds fun hs ↦ ?_
  obtain ⟨heap', hheap', -, hexact⟩ := adds_decode hs bytes chunkName
  have heq : heap' = heap := congrArg State.heap (hheap'.symm.trans hheap)
  exact heq ▸ hexact

instance (proto : Nat) : Abides R (closureOf proto) :=
  .modifyGet fun s ↦ Sparing.closure s proto

instance (event : StreamEvent) : Abides R (note event) := .modify fun s ↦ Sparing.host s _

instance (stream : Stream) (chunkName : String) : Abides R (drain stream chunkName) := by
  refine ⟨fun s ↦ ?_⟩
  unfold drain
  split <;> exact Sparing.host s _

instance (stream : Stream) (chunkName : String) : Abides R (loadStream stream chunkName) := by
  refine ⟨fun s ↦ ?_⟩
  have hdecode := Abides.keeps (R := R)
    (m := (do decode (← drain stream chunkName) chunkName : Loader Nat)) s
  unfold loadStream
  split
  · next main t h =>
    rw [h] at hdecode
    have hrelease := IsTrans.trans _ _ _ hdecode (Sparing.host t (t.host.close stream).2)
    exact IsTrans.trans _ _ _ hrelease (Abides.keeps (m := closureOf main) (release stream t))
  · next e t h =>
    rw [h] at hdecode
    exact IsTrans.trans _ _ _ hdecode (Sparing.host t (t.host.close stream).2)

instance (bytes : Bytes) (chunkName : String) : Abides R (loadBytes bytes chunkName) := by
  unfold loadBytes
  infer_instance

instance (name : Option String) : Abides R (openStream name) := by
  refine .after fun s ↦ ?_
  dsimp only
  split
  · infer_instance
  · split <;> infer_instance

instance (name : Option String) : Abides R (loadFile name) := by
  unfold loadFile
  infer_instance

instance {α : Type} (loader : Loader α) [hm : Abides R loader] : Abides R (attempt loader) := by
  refine ⟨fun s ↦ ?_⟩
  have hs := hm.keeps s
  unfold attempt
  split
  · next h => rwa [h] at hs
  · next h => rwa [h] at hs

end Loading

namespace Library

open Loading

variable {R : State → State → Prop} [Sparing R]

instance : Abides R environmentTarget? := by
  have hlevel : Abides R (do
      let depth := (← argInt 0).toInt
      if depth = 0 then throw (.unsupported .threadEnvironment)
      if depth < 0 then throw (← badArgument 0 "level must be non-negative")
      return (← callFrame? depth.toNat).map Frame.closure : Machine (Option Nat)) := by
    refine .after fun depth ↦ ?_
    dsimp only
    split <;> infer_instance
  refine .after fun target ↦ ?_
  split
  · infer_instance
  · exact hlevel
  · exact hlevel
  · exact hlevel
  · infer_instance

instance (i : Nat) : Abides R (textArg? i) := by
  unfold textArg?
  infer_instance

instance {S : State → State → Prop} [Spacious S] (result : Except LoadError Value) :
    Abides S (report result) := by
  cases result <;> (unfold report; infer_instance)

instance (reader : Value) (chunkName : String) (text : Bytes) :
    Abides R (askReader reader chunkName text) := by
  unfold askReader
  infer_instance

instance (i : Nat) (default : Int) : Abides R (listBound i default) := by
  unfold listBound
  infer_instance

instance (i : Nat) : Abides R (numberArg i) := by
  refine .after fun v ↦ ?_
  split <;> infer_instance

instance {S : State → State → Prop} [Spacious S]
    (pick : Heap → Value → Value → Except RuntimeError Value) : Abides S (foldArgs pick) := by
  refine .after fun values ↦ ?_
  split <;> infer_instance

instance {S : State → State → Prop} [Tolerant S] (c env : Nat) : Abides S
    (changeHeap fun h ↦ { h with closures := h.closures.modify c fun c ↦ { c with env } }) :=
  .modify fun s ↦ Tolerant.environment s c env

end Library

section

variable {R : State → State → Prop}

theorem Native.abides_plain [Sparing R] (name : String) (body : Machine Unit) [Abides R body] :
    Abides R (Native.plain name body).start := Abides.bind

open Library Loading in
/-- A builtin starts as a roaming relation allows, unless it is the one that changes environments. -/
theorem Builtin.abides_start [Spacious R] {b : Builtin} (hb : b ≠ .setfenv) : Abides R b.native.start := by
  cases b
  case setfenv => exact absurd rfl hb
  case assert =>
    refine @Native.abides_plain _ _ _ _ (.after fun holds ↦ ?_)
    split
    · infer_instance
    · refine .after fun message ↦ ?_
      dsimp only
      split <;> infer_instance
  case dofile =>
    refine .after fun name ↦ .after fun loaded ↦ ?_
    split <;> infer_instance
  case load =>
    refine .after fun reader ↦ ?_
    dsimp only
    split <;> infer_instance
  case print =>
    refine @Native.abides_plain _ _ _ _ (.after fun s ↦ .after fun values ↦ .after fun s ↦ ?_)
    split
    · have hprint (host : Host) : Abides R (modify fun s ↦ { s with host } : Machine PUnit) :=
        .modify fun s ↦ Sparing.host s host
      infer_instance
    · infer_instance
  case tonumber =>
    refine @Native.abides_plain _ _ _ _ (.after fun base ↦ ?_)
    dsimp only
    split <;> infer_instance
  case unpack =>
    refine @Native.abides_plain _ _ _ _ (.after fun list ↦ .after fun s ↦ ?_)
    dsimp only
    split <;> infer_instance
  case select =>
    refine @Native.abides_plain _ _ _ _ (.after fun count ↦ .after fun selector ↦ .after fun s ↦ ?_)
    split
    · infer_instance
    · split <;> infer_instance
  case rep =>
    refine @Native.abides_plain _ _ _ _ (.after fun s ↦ .after fun n ↦ ?_)
    dsimp only
    split
    · infer_instance
    · split <;> infer_instance
  all_goals exact Native.abides_plain _ _

theorem Library.abides_setfenv [Tolerant R] [Spacious R] : Abides R setfenv.start := by
  refine @Native.abides_plain _ _ _ _ (.after fun target ↦ .after fun env ↦ ?_)
  split <;> infer_instance

end

/-- What is made of an error that a call brings: the builtin fails with it too, or it ends well and
the place of the error is forgotten. -/
def Native.Settles (n : Native) (memo : Memo) : Prop :=
  ∀ e s, n.resume memo (.error e) s = .error e s ∨
    ∃ t, n.resume memo (.error e) s = .ok .finished t ∧ t.location = none ∧
      t.options = s.options ∧ s.heap.Conserves t.heap

/-- A part of a builtin that is tame, and that leaves the stack as it is if it makes a call. -/
structure Native.Turn (n : Native) (m : Machine Outcome) : Prop where
  tame : MiniLua.Tame m
  invokes : ∀ s callee args memo t, m s = .ok (.invoke callee args memo) t →
    t.stack = s.stack ∧ (s.location = none → n.Settles memo)

namespace Native.Turn

variable {n : Native} {α : Type}

theorem finish (m : Machine Unit) [MiniLua.Tame m] : n.Turn (do m; return .finished) where
  tame := inferInstance
  invokes s callee args memo t h := by
    obtain ⟨_, u, -, h⟩ := bind_eq_ok.mp h
    cases h

theorem throw (e : RuntimeError) : n.Turn (throw e) := ⟨inferInstance, fun _ _ _ _ _ h ↦ nomatch h⟩

theorem bind {m : Machine α} {f : α → Machine Outcome} [hm : MiniLua.Tame m] (hquiet : Quiet m)
    (hf : ∀ a, n.Turn (f a)) : n.Turn (m >>= f) where
  tame := ⟨hm.keeps.bind fun a ↦ (hf a).tame.keeps⟩
  invokes s callee args memo t h := by
    obtain ⟨a, u, hu, h⟩ := bind_eq_ok.mp h
    have hsame := hquiet s
    have htame := hm.keeps s
    rw [hu] at hsame htame
    obtain ⟨hstack, hsettles⟩ := (hf a).invokes u callee args memo t h
    exact ⟨hstack.trans hsame.stack, fun hs ↦ hsettles (htame.location.trans hs)⟩

end Native.Turn

structure Native.Tame (n : Native) : Prop where
  start : n.Turn n.start
  resume : ∀ memo results, n.Turn (n.resume memo (.ok results))

theorem Native.Tame.plain {name : String} {body : Machine Unit}
    (h : MiniLua.Tame (Native.plain name body).start) : (Native.plain name body).Tame where
  start := ⟨h, fun s callee args memo t h ↦ by
    obtain ⟨_, u, -, h⟩ := bind_eq_ok.mp h
    cases h⟩
  resume _ _ := .finish (pure ())

namespace Library

open Loading

theorem tame_dofile : dofile.Tame where
  start := by
    refine .bind (quiet_textArg? 0) fun name ↦
      .bind (quiet_attempt (quiet_loadFile name)) fun loaded ↦ ?_
    split
    · exact ⟨inferInstance, fun s callee args memo t h ↦ by cases h; exact ⟨rfl, fun _ e s ↦ .inl rfl⟩⟩
    · exact .bind (quiet_bytesValue _) fun _ ↦ .bind (quiet_raise _) fun _ ↦ .throw _
    · exact .bind (quiet_bytesValue _) fun _ ↦ .bind (quiet_raise _) fun _ ↦ .throw _
  resume memo results := .finish (setResults results)

theorem settles_load (text : Bytes) (reader : Value) (chunkName : String) :
    load.Settles (.source text reader chunkName none) := by
  intro e s
  have hreport := Abides.keeps (R := State.Tame) (m := report (.error (.reader e.message)))
    { s with location := none }
  obtain ⟨t, ht⟩ : ∃ t, report (.error (.reader e.message)) { s with location := none } =
    .ok () t := ⟨_, rfl⟩
  rw [ht] at hreport
  refine .inr ⟨t, ?_, hreport.location, hreport.options, hreport.code⟩
  simp only [load, bind_apply, modify_apply, ht]
  rfl

theorem turn_askReader (reader : Value) (chunkName : String) (text : Bytes) :
    load.Turn (askReader reader chunkName text) where
  tame := inferInstance
  invokes s callee args memo t h := by
    cases h
    exact ⟨rfl, fun hs ↦ hs ▸ settles_load text reader chunkName⟩

theorem tame_load : load.Tame where
  start := by
    refine .bind (quiet_arg 0) fun reader ↦ ?_
    have hask : load.Turn (do askReader reader ((← textArg? 1).getD readerChunk) []) :=
      .bind (quiet_textArg? 1) fun _ ↦ turn_askReader _ _ _
    split
    · exact hask
    · exact .bind .get fun _ ↦ .bind (.throw _) fun _ ↦ hask
  resume memo results := by
    unfold load
    dsimp only
    split
    · refine .bind .get fun s ↦ ?_
      split
      · exact turn_askReader _ _ _
      · exact .bind (quiet_attempt (quiet_loadBytes _ _)) fun loaded ↦ .finish (report loaded)
    · exact .finish (pure ())

end Library

theorem Builtin.tame (b : Builtin) : b.native.Tame := by
  have hstart (hb : b ≠ .setfenv) : MiniLua.Tame b.native.start := abides_start hb
  cases b
  case dofile => exact Library.tame_dofile
  case load => exact Library.tame_load
  case setfenv => exact .plain Library.abides_setfenv
  all_goals exact .plain (hstart (by decide))

/-- A builtin that is handed an error does no more than one that is handed results, but that it may
forget the place of the error. -/
theorem Builtin.calm_resume (b : Builtin) (memo : Memo) (result : Except RuntimeError (List Value)) :
    Abides State.Calm (b.native.resume memo result) := by
  have htame {m : Machine Outcome} (h : MiniLua.Tame m) : Abides State.Calm m :=
    ⟨h.keeps.mono fun _ _ h ↦ h.toCalm⟩
  cases result with
  | ok results => exact htame (b.tame.resume memo results).tame
  | error e =>
    cases b
    case load =>
      cases memo with
      | source text reader chunkName location =>
        have hforget : Abides State.Calm (modify fun s ↦ { s with location } : Machine PUnit) :=
          .modify fun s ↦ .of_links (fun _ _ ↦ id) rfl rfl rfl
        have hreport : Abides State.Calm (do
            Library.report (.error (.reader e.message)); return .finished : Machine Outcome) :=
          htame inferInstance
        exact .after fun _ ↦ hreport
      | nothing | kept => exact htame (.pure _)
    case dofile => exact htame (.throw _)
    all_goals exact htame (.pure _)

end MiniLua
