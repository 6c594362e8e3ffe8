import MiniLua.Library.Load
import MiniLua.Proofs.Twins.Compiling
import MiniLua.Proofs.Twins.Decoding
import MiniLua.Proofs.Twins.Instructions

/-! Chunks are loaded alike into machines that correspond. -/

namespace MiniLua

open Effects Machine

theorem State.Twins.withHost {n : Nat} {s s' : State} (h : s.Twins n s') {host host' : Host}
    (heq : host' = host) : State.Twins n { s with host } { s' with host := host' } :=
  { h with host := heq }

/-- Code is added to both machines. -/
theorem State.Twins.withCode {n : Nat} {s s' : State} (h : s.Twins n s') {k k' : Heap}
    (g : s.heap.Adds k) (g' : s'.heap.Adds k') (hk : k.strings.Exact) (hk' : k'.strings.Exact) :
    State.Twins n { s with heap := k } { s' with heap := k' } :=
  h.withHeap (h.heap.of_adds g g' hk hk') g.evolves g'.evolves

namespace Loading

/-- Strings and prototypes were added, and nothing else happened. -/
def AddsCode (s t : State) : Prop := ∃ heap, t = { s with heap } ∧ s.heap.Adds heap

/-- The same bytes are the same code in any two machines that both compile text or both do not. -/
theorem decode_uniform {n : Nat} {s s' : State} (hs : s.heap.strings.Exact) (hs' : s'.heap.strings.Exact)
    (hcompiles : s'.compiles = s.compiles) (bytes : Bytes) (chunkName : String) :
    Sync (fun _ _ ↦ Eq) (fun t t' ↦ t.heap.strings.Exact ∧ t'.heap.strings.Exact) AddsCode
      (fun t t' ↦ t.heap.SameCode n t'.heap) s s' (decode bytes chunkName s)
      (decode bytes chunkName s') := by
  have hadds {s : State} {heap : Heap} (g : s.heap.Adds heap) : AddsCode s { s with heap } := ⟨heap, rfl, g⟩
  unfold decode
  cases binaryBody? bytes with
  | some body =>
    have hread := readChunk_uniform (n := n) hs hs' body
    dsimp only
    generalize readChunk body s.heap = r, readChunk body s'.heap = r' at hread
    cases hread with
    | ok hexact g g' hij => exact .ok hexact (hadds g) (hadds g') hij
    | error hexact g g' he => exact .error hexact (hadds g) (hadds g') he
  | none =>
    dsimp only
    by_cases htext : s.compiles
    · rw [if_pos htext, if_pos (hcompiles.trans htext)]
      have hcompile := compile_uniform (n := n) hs hs' bytes chunkName
      generalize compile bytes chunkName s.heap = r, compile bytes chunkName s'.heap = r' at hcompile
      cases hcompile with
      | ok hexact g g' hij => exact .ok hexact (hadds g) (hadds g') hij
      | error hexact g g' he => exact .error hexact (hadds g) (hadds g') (he ▸ rfl)
    · rw [if_neg htext, if_neg fun htrue ↦ htext (hcompiles.symm.trans htrue)]
      exact .error ⟨hs, hs'⟩ (hadds (.refl _)) (hadds (.refl _)) rfl

/-- Decoding adds strings and prototypes, whether it ends well or not. -/
theorem adds_decode {s : State} (hs : s.heap.strings.Exact) (bytes : Bytes) (chunkName : String) :
    ∃ heap, final (decode bytes chunkName s) = { s with heap } ∧ s.heap.Adds heap ∧
      heap.strings.Exact := by
  have huniform := decode_uniform (n := 0) hs hs rfl bytes chunkName
  generalize decode bytes chunkName s = r at huniform
  cases huniform with
  | ok hexact g _ _ | error hexact g _ _ =>
    obtain ⟨heap, rfl, hadds⟩ := g
    exact ⟨heap, rfl, hadds, hexact.1⟩

/-- Two loaders do the same. -/
abbrev Alike {α α' : Type} (n : Nat) (P : Heap → Heap → α → α' → Prop) (s s' : State) :
    EStateM.Result LoadError State α → EStateM.Result LoadError State α' → Prop :=
  Sync (fun _ _ ↦ Eq) (State.Twins n) State.Evolves (fun t t' ↦ P t.heap t'.heap) s s'

variable {n : Nat} {s s' : State} (h : s.Twins n s')

include h

theorem alike_decode (bytes : Bytes) (chunkName : String) :
    Alike n (fun k k' ↦ k.SameCode n k') s s' (decode bytes chunkName s)
      (decode bytes chunkName s') := by
  have huniform := decode_uniform (n := n) h.heap.exact h.heap.exact' h.compiles bytes chunkName
  generalize decode bytes chunkName s = r, decode bytes chunkName s' = r' at huniform
  cases huniform with
  | ok hexact g g' hij =>
    obtain ⟨heap, rfl, hadds⟩ := g
    obtain ⟨heap', rfl, hadds'⟩ := g'
    exact .ok (h.withCode hadds hadds' hexact.1 hexact.2) hadds.evolves hadds'.evolves hij
  | error hexact g g' he =>
    obtain ⟨heap, rfl, hadds⟩ := g
    obtain ⟨heap', rfl, hadds'⟩ := g'
    exact .error (h.withCode hadds hadds' hexact.1 hexact.2) hadds.evolves hadds'.evolves he

theorem alike_closureOf {i j : Nat} (hij : s.heap.SameCode n s'.heap i j) :
    Alike n (fun k k' ↦ k.Matches n k') s s' (closureOf i s) (closureOf j s') := by
  have hcode : s.heap.ClosureTwins n s'.heap ⟨i, s.globals, #[]⟩ ⟨j, s'.globals, #[]⟩ := ⟨hij, rfl⟩
  obtain ⟨hheap, hvalue⟩ := h.heap.allocClosure hcode h.globals
  exact .ok (h.withHeap hheap (.allocClosure _ _) (.allocClosure _ _)) (.allocClosure _ _)
    (.allocClosure _ _) hvalue

theorem alike_note (event : StreamEvent) :
    Alike n (fun _ _ _ _ ↦ True) s s' (note event s) (note event s') :=
  .ok (h.withHost (congrArg (Host.note · event) h.host)) (.refl _) (.refl _) trivial

theorem alike_drain (stream : Stream) (chunkName : String) :
    Alike n (fun _ _ ↦ Eq) s s' (drain stream chunkName s) (drain stream chunkName s') := by
  unfold drain
  rw [h.host]
  split
  · exact .ok (h.withHost rfl) (.refl _) (.refl _) rfl
  · exact .error (h.withHost rfl) (.refl _) (.refl _) rfl

theorem twins_release (stream : Stream) :
    State.Twins n (release stream s) (release stream s') :=
  h.withHost (congrArg (fun host : Host ↦ (host.close stream).2) h.host)

theorem alike_loadStream (stream : Stream) (chunkName : String) :
    Alike n (fun k k' ↦ k.Matches n k') s s' (loadStream stream chunkName s)
      (loadStream stream chunkName s') := by
  have hdecode : Alike n (fun k k' ↦ k.SameCode n k') s s'
      ((do decode (← drain stream chunkName) chunkName : Loader Nat) s)
      ((do decode (← drain stream chunkName) chunkName : Loader Nat) s') :=
    (alike_drain h stream chunkName).bind fun bytes _ _ _ ht _ _ hbytes ↦
      hbytes ▸ alike_decode ht bytes chunkName
  unfold loadStream
  generalize (do decode (← drain stream chunkName) chunkName : Loader Nat) s = r,
    (do decode (← drain stream chunkName) chunkName : Loader Nat) s' = r' at hdecode
  cases hdecode with
  | error ht g g' he => exact .error (twins_release ht stream) g g' he
  | @ok i j t t' ht g g' hij =>
    have hclosure := alike_closureOf (twins_release ht stream) (i := i) (j := j) hij
    dsimp only
    generalize closureOf i (release stream t) = r, closureOf j (release stream t') = r' at hclosure
    cases hclosure with
    | ok hu k k' hv => exact .ok hu (g.trans k) (g'.trans k') hv
    | error hu k k' he => exact .error hu (g.trans k) (g'.trans k') he

theorem alike_loadBytes (bytes : Bytes) (chunkName : String) :
    Alike n (fun k k' ↦ k.Matches n k') s s' (loadBytes bytes chunkName s)
      (loadBytes bytes chunkName s') :=
  (alike_note h _).bind fun _ _ _ _ ht _ _ _ ↦ alike_loadStream ht _ _

theorem alike_openStream (name : Option String) :
    Alike n (fun _ _ ↦ Eq) s s' (openStream name s) (openStream name s') := by
  have hopened (event : StreamEvent) {t t' : State} (ht : t.Twins n t') (stream : Stream) :
      Alike n (fun _ _ ↦ Eq) t t' ((do note event; return stream : Loader Stream) t)
        ((do note event; return stream : Loader Stream) t') :=
    (alike_note ht event).bind fun _ _ _ _ ht _ _ _ ↦ .pure ht rfl
  unfold openStream
  rw [bind_apply, bind_apply, get_apply, get_apply]
  dsimp only
  rw [h.host]
  cases name with
  | none => exact hopened _ h _
  | some name =>
    dsimp only
    cases s.host.resource name with
    | ok stream => exact hopened _ h _
    | error e => cases e <;> exact .throw h rfl

theorem alike_loadFile (name : Option String) :
    Alike n (fun k k' ↦ k.Matches n k') s s' (loadFile name s) (loadFile name s') :=
  (alike_openStream h name).bind fun stream _ _ _ ht _ _ hstream ↦
    hstream ▸ alike_loadStream ht stream _

omit h in
theorem mirrored_attempt {α α' : Type} {P : Heap → Heap → α → α' → Prop} {m : Loader α}
    {m' : Loader α'} (hm : Alike n P s s' (m s) (m' s')) :
    Mirrored n (fun k k' ↦ ExceptRel (· = ·) (P k k')) s s' (attempt m s) (attempt m' s') := by
  unfold attempt
  generalize m s = r, m' s' = r' at hm
  cases hm with
  | ok ht g g' ha => exact .ok ht g g' (.ok ha)
  | error ht g g' he => exact .ok ht g g' (.error he)

end Loading

end MiniLua
