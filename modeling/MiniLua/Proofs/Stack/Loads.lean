import MiniLua.Proofs.Stack.Closures

/-! What builtins load is the newest code in the heap. -/

namespace MiniLua

open Effects

namespace Binary.Reader

/-- A reader of prototypes returns the last one it made. -/
def ReturnsLast (m : Reader Nat) : Prop :=
  ∀ s n t, m s = .ok n t → n + 1 = t.heap.protos.size

namespace ReturnsLast

theorem throw (e : LoadError) : ReturnsLast (throw e) := fun _ _ _ h ↦ nomatch h

theorem allocProto (p : Prototype) : ReturnsLast (allocProto p) := by
  intro s n t h
  cases h
  simp

theorem bind {α : Type} {m : Reader α} {f : α → Reader Nat} (h : ∀ a, ReturnsLast (f a)) :
    ReturnsLast (m >>= f) := by
  intro s n t hrun
  obtain ⟨a, u, -, hrest⟩ := bind_eq_ok.mp hrun
  exact h a u n t hrest

end ReturnsLast

theorem returnsLast_proto (depth : Nat) : ReturnsLast (proto depth) := by
  cases depth with
  | zero => exact .throw _
  | succ depth =>
    -- every way through the reader fails or comes to the allocation
    unfold proto
    repeat' first
      | exact .throw _
      | exact .allocProto _
      | refine .bind fun _ ↦ ?_
      | split

end Binary.Reader

namespace Heap

variable {h k : Heap}

theorem Secures.loads (g : h.Secures k) : h.Loads k := ⟨g.toConserves, fun hh ↦ (g.sized hh).nearly⟩

theorem Adds.secures (g : h.Adds k) : h.Secures k := by
  have hlinks : k.links = h.links := by rw [links, links, g.closures]
  refine ⟨⟨g.protos, fun hl ↦ hlinks ▸ hl⟩, fun hh link hlink ↦ ?_⟩
  obtain ⟨p, hp, hsize⟩ := hh link (hlinks ▸ hlink)
  exact ⟨p, g.protos hp, hsize⟩

end Heap

namespace Loading

theorem size_of_decode {bytes : Bytes} {chunkName : String} {s t : State} {main : Nat}
    (h : decode bytes chunkName s = .ok main t) : main + 1 = t.heap.protos.size := by
  unfold decode at h
  split at h
  · next body _ =>
    cases hread : readChunk body s.heap with
    | error e heap =>
      rw [hread] at h
      cases h
    | ok n heap =>
      rw [hread] at h
      cases h
      unfold readChunk at hread
      split at hread <;> cases hread
      next u hmain =>
      exact (Binary.Reader.ReturnsLast.bind fun found ↦ by
        split
        · exact .bind fun _ ↦ Binary.Reader.returnsLast_proto _
        · exact Binary.Reader.returnsLast_proto _) _ _ _ hmain
  · split at h
    · cases hcompile : compile bytes chunkName s.heap with
      | error e heap =>
        rw [hcompile] at h
        cases h
      | ok n heap =>
        rw [hcompile] at h
        cases h
        obtain ⟨-, u, -, -, rfl, rfl⟩ := compile_eq_ok hcompile
        simp [Heap.allocProto]
    · cases h

theorem secures_decode {s : State} (hs : s.heap.strings.Exact) (bytes : Bytes) (chunkName : String) :
    s.heap.Secures (final (decode bytes chunkName s)).heap := by
  obtain ⟨heap, hheap, hadds, -⟩ := adds_decode hs bytes chunkName
  rw [hheap]
  exact hadds.secures

theorem loads_closureOf {h : Heap} {s : State} {main : Nat} (hh : h.Secures s.heap)
    (hmain : main + 1 = s.heap.protos.size) : h.Loads (final (closureOf main s)).heap := by
  refine ⟨hh.toConserves.trans (.allocClosure _ _), fun hsized link hlink ↦ ?_⟩
  have hlink : link ∈ (s.heap.allocClosure ⟨main, s.globals, #[]⟩).2.links := hlink
  rw [Heap.links_allocClosure] at hlink
  obtain hlink | rfl := Array.mem_push.mp hlink
  · exact .inl (hh.sized hsized link hlink)
  · exact .inr ⟨hmain, rfl⟩

theorem heap_drain (stream : Stream) (chunkName : String) (s : State) :
    (final (drain stream chunkName s)).heap = s.heap := by
  unfold drain
  split <;> rfl

theorem loads_loadStream {s : State} (hs : s.heap.strings.Exact) (stream : Stream)
    (chunkName : String) : s.heap.Loads (final (loadStream stream chunkName s)).heap := by
  have hdecode : s.heap.Secures
      (final ((do decode (← drain stream chunkName) chunkName : Loader Nat) s)).heap := by
    rw [bind_apply]
    have hheap := heap_drain stream chunkName s
    cases hdrain : drain stream chunkName s with
    | error e t =>
      rw [hdrain, final_error] at hheap
      dsimp only [final_error]
      rw [hheap]
      exact (Heap.SameLinks.refl _).secures
    | ok bytes t =>
      rw [hdrain, final_ok] at hheap
      dsimp only
      rw [← hheap] at hs ⊢
      exact secures_decode hs bytes chunkName
  unfold loadStream
  cases hrun : (do decode (← drain stream chunkName) chunkName : Loader Nat) s with
  | error e t =>
    rw [hrun] at hdecode
    exact hdecode.loads
  | ok main t =>
    rw [hrun] at hdecode
    obtain ⟨bytes, u, -, hmain⟩ := bind_eq_ok.mp hrun
    have hlast := size_of_decode hmain
    exact loads_closureOf (s := release stream t) hdecode hlast

theorem loads_loadBytes {s : State} (hs : s.heap.strings.Exact) (bytes : Bytes)
    (chunkName : String) : s.heap.Loads (final (loadBytes bytes chunkName s)).heap :=
  loads_loadStream (s := { s with host := s.host.note (.opened .memory) }) hs _ _

theorem loads_loadFile {s : State} (hs : s.heap.strings.Exact) (name : Option String) :
    s.heap.Loads (final (loadFile name s)).heap := by
  have hsame : s.heap.Loads s.heap := (Heap.SameLinks.refl _).secures.loads
  unfold loadFile openStream
  simp only [bind_apply, get_apply]
  cases name with
  | none => exact loads_loadStream (s := { s with host := s.host.note (.opened .input) }) hs _ _
  | some name =>
    dsimp only
    cases s.host.resource name with
    | ok stream =>
      exact loads_loadStream (s := { s with host := s.host.note (.opened stream.source) }) hs _ _
    | error e => cases e <;> exact hsame

theorem loads_attempt {α β : Type} {h : Heap} {loader : Loader α} {s : State}
    (hload : h.Loads (final (loader s)).heap) {f : Except LoadError α → Machine β}
    (hf : ∀ r, Steady (f r)) : h.Loads (final ((attempt loader >>= f) s)).heap := by
  rw [bind_apply, attempt]
  cases hr : loader s with
  | ok a t =>
    rw [hr] at hload
    exact hload.trans_sameLinks ((hf _).keeps t)
  | error e t =>
    rw [hr] at hload
    exact hload.trans_sameLinks ((hf _).keeps t)

end Loading

namespace Library

open Machine Loading

instance (values : List Value) : Steady (setResults values) := by
  refine .modify fun s ↦ ?_
  split <;> rfl

instance (text : String) : Steady (textValue text) := inferInstanceAs (Steady (bytesValue _))

instance (result : Except LoadError Value) : Steady (report result) := by
  cases result <;> (unfold report; infer_instance)

instance (reader : Value) (chunkName : String) (text : Bytes) :
    Steady (askReader reader chunkName text) := by
  unfold askReader
  infer_instance

instance (v : Value) : Steady (raise v) := by
  unfold raise
  infer_instance

theorem loads_plain {h : Heap} {s : State} {body : Machine Unit} {name : String}
    (hbody : h.Loads (final (body s)).heap) :
    h.Loads (final ((Native.plain name body).start s)).heap := by
  simp only [Native.plain, bind_apply]
  cases hr : body s <;> rwa [hr] at hbody

section

variable {n : Nat} {s : State} (h : s.Twins n s)

include h

theorem loads_textArg {β : Type} {i : Nat} {f : Option String → Machine β} (hs : s.Serves)
    (hf : ∀ name, s.heap.Loads (final (f name s)).heap) :
    s.heap.Loads (final ((textArg? i >>= f) s)).heap := by
  rw [bind_apply]
  cases peeks_textArg? (h.linked hs) i with
  | error hm _ _ =>
    rw [hm]
    exact (Heap.SameLinks.refl _).secures.loads
  | ok hm _ _ =>
    rw [hm]
    exact hf _

theorem loads_loadfile (hs : s.Serves) : s.heap.Loads (final (loadfile.start s)).heap := by
  refine loads_plain (loads_textArg h hs fun name ↦ ?_)
  exact loads_attempt (loads_loadFile h.heap.exact name) inferInstance

theorem loads_dofile (hs : s.Serves) : s.heap.Loads (final (dofile.start s)).heap := by
  refine loads_textArg h hs fun name ↦ loads_attempt (loads_loadFile h.heap.exact name) fun r ↦ ?_
  split <;> infer_instance

theorem loads_loadstring (hs : s.Serves) : s.heap.Loads (final (loadstring.start s)).heap := by
  refine loads_plain ?_
  rw [bind_apply]
  cases (h.linked hs).argBytes 0 with
  | error hm _ _ =>
    rw [hm]
    exact (Heap.SameLinks.refl _).secures.loads
  | ok hm _ _ =>
    rw [hm]
    refine loads_textArg h hs fun name ↦ ?_
    exact loads_attempt (loads_loadBytes h.heap.exact _ _) inferInstance

theorem loads_load (hs : s.Serves) : s.heap.Loads (final (load.start s)).heap := by
  have hsame : s.heap.Loads s.heap := (Heap.SameLinks.refl _).secures.loads
  simp only [load]
  rw [bind_apply]
  cases (h.linked hs).arg 0 with
  | error hm _ _ =>
    rw [hm]
    exact hsame
  | @ok reader _ hm _ _ =>
    rw [hm]
    dsimp only
    split
    · exact loads_textArg h hs fun name ↦ (Steady.keeps s).loads
    · exact hsame

theorem loads_resume_load (memo : Memo) (result : Except RuntimeError (List Value)) :
    s.heap.Loads (final (load.resume memo result s)).heap := by
  have hsteady {m : Machine Outcome} [hm : Steady m] : s.heap.Loads (final (m s)).heap :=
    (hm.keeps s).loads
  simp only [load]
  split
  · next text reader chunkName location =>
    cases result with
    | error e =>
      have hmodify : Steady (modify fun s : State ↦ { s with location }) := .modify fun _ ↦ rfl
      exact hsteady
    | ok results =>
      dsimp only
      rw [bind_apply, get_apply]
      dsimp only
      cases piece? s.heap results with
      | some piece => exact hsteady
      | none => exact loads_attempt (loads_loadBytes h.heap.exact _ _) inferInstance
  · exact hsteady

end

end Library

/-- A builtin that starts makes no code but what it loads. -/
theorem Builtin.loads_start (b : Builtin) {n : Nat} {s : State} (h : s.Twins n s) (hs : s.Serves) :
    s.heap.Loads (final (b.native.start s)).heap := by
  by_cases hb : b.loads = false
  · have hparallel := b.parallel hb (h.linked hs)
    generalize b.native.start s = r at hparallel
    cases hparallel with
    | ok _ g _ _ => exact g.heap.sameLinks.loads
    | error _ g _ _ => exact g.heap.sameLinks.loads
  · cases b
    case loadfile => exact Library.loads_loadfile h hs
    case dofile => exact Library.loads_dofile h hs
    case loadstring => exact Library.loads_loadstring h hs
    case load => exact Library.loads_load h hs
    all_goals exact absurd rfl hb

theorem Builtin.loads_resume (b : Builtin) {n : Nat} {s : State} (h : s.Twins n s) (memo : Memo)
    (result : Except RuntimeError (List Value)) :
    s.heap.Loads (final (b.native.resume memo result s)).heap := by
  by_cases hb : b.loads = false
  · rw [b.resume_of_plain hb]
    exact (Heap.SameLinks.refl _).loads
  · have hfinished : Steady (pure Outcome.finished) := inferInstance
    cases b
    case dofile =>
      have hsteady : Steady (Library.dofile.resume memo result) := by
        simp only [Library.dofile]
        infer_instance
      exact (hsteady.keeps s).loads
    case load => exact Library.loads_resume_load h memo result
    case loadfile | loadstring => exact (hfinished.keeps s).loads
    all_goals exact absurd rfl hb

end MiniLua
