import MiniLua.Proofs.Code.FrontEnd
import MiniLua.Proofs.Stack.Closures

/-!
Loading a chunk, whether it ends well or not, adds strings and code to the heap and changes nothing
else. The compiler is followed through the operations it is put together from, the reader of binary
chunks through its parts.
-/

namespace MiniLua

open Effects

namespace Heap

theorem Adds.conserves {h k : Heap} (g : h.Adds k) : h.Conserves k :=
  ⟨g.protos, fun hlink ↦ by rwa [links, g.closures]⟩

end Heap

/-- The compiler does to the heap only what its operations do. -/
theorem Emit.InRange.adds {α : Type} {P : Assembly → Prop} {Q : α → Assembly → Prop}
    {m : Emit α} (h : InRange P m Q) : Keeps (fun s t ↦ s.heap.Adds t.heap) m := by
  have : IsTrans Assembly fun s t ↦ s.heap.Adds t.heap := ⟨fun _ _ _ ↦ .trans⟩
  have : Std.Refl fun s t : Assembly ↦ s.heap.Adds t.heap := ⟨fun _ ↦ .refl _⟩
  have htry {β : Type} (f : Builder → Except CompileError (β × Builder)) :
      Keeps (fun s t ↦ s.heap.Adds t.heap) (tryBuild f) := by
    refine (Keeps.get.bind fun s ↦ .pure _).bind fun r ↦ ?_
    cases r with
    | error e => exact .throw e
    | ok found => exact (Keeps.modify fun s ↦ .refl _).bind fun _ ↦ .pure _
  induction h with
  | pure a => exact .pure a
  | bind _ _ ihm ihf => exact ihm.bind ihf
  | imp _ _ _ ih => exact ih
  | throw e => exact .throw e
  | get => exact .get
  | setLine | emit | patch | openScope | closeScope | loops | enter | closure =>
    exact .modify fun s ↦ .refl _
  | constant | declare => exact htry _
  | binding name =>
    intro s
    unfold Emit.binding
    rw [bind_apply, get_apply]
    dsimp only
    cases s.current.resolve? name with
    | some cell => exact .refl _
    | none => cases s.current.captureFrom name s.enclosing <;> exact .refl _
  | intern text => exact .modifyGet fun s ↦ .intern s.heap text
  | finish p => exact .modifyGet fun s ↦ .allocProto s.heap p
  | leave =>
    refine .modify fun s ↦ ?_
    split <;> exact .refl _

theorem adds_compile (source : Bytes) (chunkName : String) :
    Keeps Heap.Adds (compile source chunkName) := by
  intro h
  unfold compile
  split
  · exact .refl _
  · next chunk _ =>
    have hmain := (Emit.inRange_main chunk h chunkName).adds (.begin h chunkName)
    dsimp only
    split
    · next hrun =>
      rw [Assembly.begin, hrun] at hmain
      exact hmain
    · next hrun =>
      rw [Assembly.begin, hrun] at hmain
      exact hmain

/-- A relation between heaps that interning keeps to. -/
class Heap.Interning (R : Heap → Heap → Prop) : Prop extends Std.Refl R, IsTrans Heap R where
  intern (h : Heap) (s : Bytes) : R h (h.intern s).2

/-- A relation between heaps that interning and storing prototypes keep to. -/
class Heap.Storing (R : Heap → Heap → Prop) : Prop extends Heap.Interning R where
  allocProto (h : Heap) (p : Prototype) : R h (h.allocProto p).2

instance : Heap.Storing Heap.Adds where
  intern := .intern
  allocProto := .allocProto

/-- Interning leaves the prototypes alone. -/
instance : Heap.Interning fun h k ↦ k.protos = h.protos where
  refl _ := rfl
  trans _ _ _ hk hl := hl.trans hk
  intern _ _ := rfl

namespace Binary.Reader

/-- A reader that keeps to a relation between heaps. -/
class Keeping (R : Heap → Heap → Prop) {α : Type} (m : Reader α) : Prop where
  keeps : Keeps (fun s t ↦ R s.heap t.heap) m

namespace Keeping

variable {α β : Type} {R : Heap → Heap → Prop} {m : Reader α}

section

variable [Heap.Interning R]

instance : IsTrans Source fun s t ↦ R s.heap t.heap := ⟨fun _ _ _ ↦ IsTrans.trans _ _ _⟩

instance : Std.Refl fun s t : Source ↦ R s.heap t.heap := ⟨fun _ ↦ refl _⟩

instance pure (a : α) : Keeping R (Pure.pure a : Reader α) := ⟨.pure a⟩

instance throw (e : LoadError) : Keeping R (throw e : Reader α) := ⟨.throw e⟩

instance bad (fault : FormatFault) : Keeping R (bad fault : Reader α) := ⟨.throw _⟩

instance bind {f : α → Reader β} [hm : Keeping R m] [hf : ∀ a, Keeping R (f a)] :
    Keeping R (m >>= f) := ⟨hm.keeps.bind fun a ↦ (hf a).keeps⟩

theorem after {f : α → Reader β} [Keeping R m] (h : ∀ a, Keeping R (f a)) :
    Keeping R (m >>= f) := inferInstance

instance ite {c : Prop} [Decidable c] {n : Reader α} [Keeping R m] [Keeping R n] :
    Keeping R (if c then m else n) := by
  split <;> assumption

instance take (n : Nat) : Keeping R (take n) := by
  refine ⟨fun s ↦ ?_⟩
  unfold Reader.take
  rw [bind_apply, get_apply]
  dsimp only
  cases splitOff? n [] s.rest <;> exact refl _

instance number (bytes : Nat) : Keeping R (number bytes) := by
  unfold Reader.number
  infer_instance

instance byte : Keeping R byte := by
  unfold Reader.byte
  infer_instance

instance string (limit : Nat) (what : String) : Keeping R (string limit what) := by
  unfold Reader.string
  infer_instance

instance count (limit : Nat) (what : String) : Keeping R (count limit what) := by
  unfold Reader.count
  infer_instance

instance many {item : Reader α} [Keeping R item] (n : Nat) (found : List α) :
    Keeping R (many item n found) := by
  induction n generalizing found with
  | zero => exact inferInstanceAs (Keeping R (Pure.pure found.reverse))
  | succ n ih =>
    unfold Reader.many
    infer_instance

instance intern (s : Bytes) : Keeping R (intern s) := ⟨.modifyGet fun t ↦ Heap.Interning.intern t.heap s⟩

instance constant : Keeping R constant := by
  unfold Reader.constant
  infer_instance

instance instruction : Keeping R instruction := by
  unfold Reader.instruction
  infer_instance

instance capture : Keeping R capture := by
  unfold Reader.capture
  infer_instance

end

section

variable [Heap.Storing R]

instance allocProto (p : Prototype) : Keeping R (allocProto p) :=
  ⟨.modifyGet fun s ↦ Heap.Storing.allocProto s.heap p⟩

instance proto (depth : Nat) : Keeping R (proto depth) := by
  induction depth with
  | zero => exact inferInstanceAs (Keeping R (MonadExcept.throw _))
  | succ depth ih =>
    unfold Reader.proto
    repeat' first
      | infer_instance
      | refine .after fun _ ↦ ?_
      | split

instance main : Keeping R main := by
  unfold Reader.main
  infer_instance

end

end Keeping

end Binary.Reader

theorem adds_readChunk (body : Bytes) : Keeps Heap.Adds (readChunk body) := by
  intro h
  have hmain := (Binary.Reader.Keeping.main (R := Heap.Adds)).keeps ⟨h, body⟩
  unfold readChunk
  split
  · next hrun =>
    rw [hrun] at hmain
    exact hmain
  · next hrun =>
    rw [hrun] at hmain
    exact hmain

theorem Loading.decode_adds (bytes : Bytes) (chunkName : String) (s : State) :
    ∃ heap, final (decode bytes chunkName s) = { s with heap } ∧ s.heap.Adds heap := by
  unfold decode
  split
  · next body _ =>
    have hread := adds_readChunk body s.heap
    generalize readChunk body s.heap = r at hread
    cases r <;> exact ⟨_, rfl, hread⟩
  · split
    · have hcompile := adds_compile bytes chunkName s.heap
      generalize compile bytes chunkName s.heap = r at hcompile
      cases r <;> exact ⟨_, rfl, hcompile⟩
    · exact ⟨s.heap, rfl, .refl _⟩

end MiniLua
