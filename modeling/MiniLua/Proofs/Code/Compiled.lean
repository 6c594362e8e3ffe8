import MiniLua.Proofs.Code.Encodable

/-! What the compiler makes of a source text. -/

namespace MiniLua

open Effects Emit

/-- The state in which the compiler begins with the main function. -/
def Assembly.begin (heap : Heap) (chunkName : String) : Assembly :=
  ⟨heap, .start "main chunk" [] true 0, [], chunkLabel chunkName⟩

theorem Assembly.tidy_begin {heap : Heap} (hheap : heap.strings.Sound) (chunkName : String) :
    (Assembly.begin heap chunkName).Tidy :=
  ⟨hheap, Builder.tidy_start _ _ _ (by decide), fun _ h ↦ (nomatch h), rfl⟩

/-- Text compiles if it is a chunk of which the code can be emitted. -/
theorem compile_eq_ok {source : Bytes} {chunkName : String} {heap heap' : Heap} {main : Nat}
    (h : compile source chunkName heap = .ok main heap') :
    ∃ chunk s, parse source = .ok chunk ∧ chunk.emit (.begin heap chunkName) = .ok ⟨⟩ s ∧
      main = s.heap.protos.size ∧ heap' = (s.heap.allocProto s.finished).2 := by
  unfold compile at h
  cases hparse : parse source with
  | error e =>
    rw [hparse] at h
    cases h
  | ok chunk =>
    rw [hparse] at h
    dsimp only at h
    split at h
    · next proto t hmain =>
      cases h
      obtain ⟨⟨⟩, s, hs, hmain⟩ := bind_eq_ok.mp hmain
      cases hmain
      exact ⟨chunk, s, rfl, hs, rfl, rfl⟩
    · cases h

/-- The code of the prototype lies as that of a function does. -/
def Heap.Laid (h : Heap) (p : Prototype) : Prop :=
  ∃ outer params variadic body, Home.Runs ⟨p, h, outer, none⟩ params variadic body

theorem Heap.Extends.size {h h' : Heap} (e : h.Extends h') : h.protos.size ≤ h'.protos.size := by
  by_contra hlt
  have hlast := e.protos (Array.getElem?_eq_getElem (show h'.protos.size < h.protos.size by omega))
  rw [Array.getElem?_eq_none (Nat.le_refl _)] at hlast
  cases hlast

/-- The nested prototypes are among those from `m` on. -/
def NestsFrom (m : Nat) (h : Heap) (protos : Array Nat) : Prop :=
  ∀ j ∈ protos, m ≤ j ∧ j < h.protos.size

theorem NestsFrom.later {m : Nat} {h h' : Heap} {protos : Array Nat} (hp : NestsFrom m h protos)
    (hext : h.Extends h') : NestsFrom m h' protos :=
  fun j hj ↦ ⟨(hp j hj).1, (hp j hj).2.trans_le hext.size⟩

/-- What the moves of the compiler add to the heap. -/
theorem Emits.added {d n m : Nat} {s t : Assembly} (h : Emits d n s t) (hs : s.Tidy)
    (hn : n ≤ s.current.code.size) (hm : m ≤ s.heap.protos.size)
    (hnests : NestsFrom m s.heap s.current.protos) :
    NestsFrom m t.heap t.current.protos ∧ ∀ (i : Nat) (p : Prototype), t.heap.protos[i]? = some p →
      s.heap.protos[i]? = some p ∨
        NestsFrom m t.heap p.protos ∧ ∀ later, t.heap.Extends later → later.Laid p := by
  induction h with
  | refl => exact ⟨hnests, fun i p hp ↦ .inl hp⟩
  | trans hst htu ih ih' =>
    have hgrows := hst.grows hn
    have hn' := hn.trans hgrows.size
    obtain ⟨hnests', hadded⟩ := ih hs hn hm hnests
    obtain ⟨hnests'', hadded'⟩ := ih' (hst.tidy hs) hn' (hm.trans hgrows.heap.size) hnests'
    refine ⟨hnests'', fun i p hp ↦ ?_⟩
    obtain hp | hnew := hadded' i p hp
    · have hext := (htu.grows hn').heap
      obtain hp | ⟨hin, hlaid⟩ := hadded i p hp
      · exact .inl hp
      · exact .inr ⟨hin.later hext, fun later hlater ↦ hlaid later (hext.trans hlater)⟩
    · exact .inr hnew
  | line => exact ⟨hnests, fun i p hp ↦ .inl hp⟩
  | emit => exact ⟨hnests, fun i p hp ↦ .inl hp⟩
  | patch => exact ⟨hnests, fun i p hp ↦ .inl hp⟩
  | number _ added =>
    rw [(Builder.addConstant_eq added).1]
    exact ⟨hnests, fun i p hp ↦ .inl hp⟩
  | string added =>
    rw [(Builder.addConstant_eq added).1]
    exact ⟨hnests, fun i p hp ↦ .inl hp⟩
  | capture captured =>
    rw [(Builder.gains_of_captureFrom captured).1.same]
    exact ⟨hnests, fun i p hp ↦ .inl hp⟩
  | declare declared =>
    rw [(Builder.declare_eq declared).2.2]
    exact ⟨hnests, fun i p hp ↦ .inl hp⟩
  | openScope => exact ⟨hnests, fun i p hp ↦ .inl hp⟩
  | closeScope => exact ⟨hnests, fun i p hp ↦ .inl hp⟩
  | leave => exact ⟨hnests, fun i p hp ↦ .inl hp⟩
  | looped _ ih =>
    obtain ⟨hnests, hadded⟩ := ih hs.enterLoop hn hm hnests
    refine ⟨?_, hadded⟩
    rw [Assembly.exitLoop, Builder.exitLoop, Builder.protos_patchAll]
    exact hnests
  | @nested d n s t name params variadic parent outer pos body few nests made inside around ih =>
    have hstart := hs.enter name variadic pos.codeLine few
    obtain ⟨hinner, hadded⟩ := ih hstart (Nat.zero_le _) hm fun j hj ↦ by simp [Builder.start] at hj
    have hext := Heap.Extends.allocProto t.heap t.finished
    have hgrows := inside.grows (Nat.zero_le _)
    have henclosing := hgrows.enclosing
    rw [around] at henclosing
    obtain ⟨hparent, -⟩ := List.forall₂_cons.mp henclosing
    constructor
    · have hparent : NestsFrom m (t.heap.allocProto t.finished).2 parent.protos := by
        rw [hparent.same]
        exact hnests.later (hgrows.heap.trans hext)
      refine fun j hj ↦ ?_
      obtain hj | rfl := Array.mem_push.mp hj
      · exact hparent j hj
      · exact ⟨hm.trans hgrows.heap.size, by simp [Heap.allocProto]⟩
    · intro i p hp
      obtain hp | rfl : t.heap.protos[i]? = some p ∨ p = t.finished := Heap.of_protos_allocProto hp
      · obtain hp | ⟨hin, hlaid⟩ := hadded i p hp
        · exact .inl hp
        · exact .inr ⟨hin.later hext, fun later hlater ↦ hlaid later (hext.trans hlater)⟩
      · refine .inr ⟨hinner.later hext, fun later hlater ↦ ?_⟩
        have hlevels : List.Forall₂ Level.Follows t.enclosing
            (t.enclosing.map fun b ↦ ⟨b.locals, b.captures⟩) :=
          List.forall₂_map_right_iff.mpr (List.forall₂_same.mpr fun b _ ↦ ⟨rfl, .refl _⟩)
        exact ⟨_, params, variadic, body, runs_of_emit hstart few rfl (body.lays nests) made
          (hext.trans hlater) hlevels⟩

section

variable {source : Bytes} {chunkName : String} {heap heap' : Heap} {main : Nat}

/-- A main prototype and those nested in it have a binary form, and they nest as little as levels
of the source text do. -/
theorem encodable_of_compile (hheap : heap.strings.Sound)
    (h : compile source chunkName heap = .ok main heap') :
    heap'.Tree (·.Encodable heap') Parser.maxLevels main := by
  obtain ⟨chunk, s, hparse, hemit, rfl, rfl⟩ := compile_eq_ok h
  have htidy := Assembly.tidy_begin hheap chunkName
  obtain ⟨hemits, -⟩ := chunk.lays (nests_of_parse hparse) _ _ _ htidy hemit
  have hstorable := hemits.storable htidy (.start _ _ _ _ (by decide) (by decide))
  have htree := hstorable.finished (hemits.tidy htidy)
  exact htree.imp fun _ hp ↦ hp.1

/-- Nothing that was in the heap is lost. -/
theorem extends_of_compile (hheap : heap.strings.Sound)
    (h : compile source chunkName heap = .ok main heap') : heap.Extends heap' := by
  obtain ⟨chunk, s, hparse, hemit, rfl, rfl⟩ := compile_eq_ok h
  have htidy := Assembly.tidy_begin hheap chunkName
  obtain ⟨hemits, -⟩ := chunk.lays (nests_of_parse hparse) _ _ _ htidy hemit
  exact (hemits.grows (Nat.zero_le _)).heap.trans (.allocProto _ _)

/-- The code of the main prototype lies as the syntax tree says, in every heap from then on. -/
theorem laid_of_compile (hheap : heap.strings.Sound)
    (h : compile source chunkName heap = .ok main heap') :
    ∃ chunk proto, parse source = .ok chunk ∧ heap'.protos[main]? = some proto ∧
      ∀ later, heap'.Extends later → Chunk.At later proto chunk := by
  obtain ⟨chunk, s, hparse, hemit, rfl, rfl⟩ := compile_eq_ok h
  have htidy := Assembly.tidy_begin hheap chunkName
  refine ⟨chunk, s.finished, hparse, Heap.protos_allocProto _ _, fun later hlater ↦ ?_⟩
  obtain ⟨hemits, -⟩ := chunk.lays (nests_of_parse hparse) _ _ _ htidy hemit
  have hnone : s.enclosing = [] :=
    List.forall₂_nil_left_iff.mp (hemits.grows (Nat.zero_le _)).enclosing
  have hcaptures := (hemits.tidy htidy).chained
  rw [hnone] at hcaptures
  refine ⟨hcaptures, runs_of_emit htidy (by decide) rfl (chunk.lays (nests_of_parse hparse)) hemit
    ((Heap.Extends.allocProto s.heap s.finished).trans hlater) ?_⟩
  rw [hnone]
  exact .nil

/-- Every prototype that the compiler added is laid out, and nests others that it added. -/
theorem added_of_compile (hheap : heap.strings.Sound)
    (h : compile source chunkName heap = .ok main heap') {i : Nat} {p : Prototype}
    (hi : heap.protos.size ≤ i) (hp : heap'.protos[i]? = some p) :
    NestsFrom heap.protos.size heap' p.protos ∧
      ∀ later, heap'.Extends later → later.Laid p := by
  obtain ⟨chunk, s, hparse, hemit, rfl, rfl⟩ := compile_eq_ok h
  have htidy := Assembly.tidy_begin hheap chunkName
  obtain ⟨hemits, -⟩ := chunk.lays (nests_of_parse hparse) _ _ _ htidy hemit
  have hext := Heap.Extends.allocProto s.heap s.finished
  obtain ⟨hnests, hadded⟩ := hemits.added htidy (Nat.zero_le _) (Nat.le_refl _)
    fun j hj ↦ by simp [Assembly.begin, Builder.start] at hj
  obtain hp | rfl := Heap.of_protos_allocProto hp
  · obtain hold | ⟨hin, hlaid⟩ := hadded i p hp
    · have := (Array.getElem?_eq_some_iff.mp hold).1
      exact absurd hi (by simp only [Assembly.begin] at this; omega)
    · exact ⟨hin.later hext, fun later hlater ↦ hlaid later (hext.trans hlater)⟩
  · obtain ⟨chunk, proto, -, hproto, hat⟩ := laid_of_compile hheap h
    obtain rfl : s.finished = proto :=
      Option.some.inj ((Heap.protos_allocProto s.heap s.finished).symm.trans hproto)
    exact ⟨hnests.later hext, fun later hlater ↦ ⟨_, _, _, _, (hat later hlater).2⟩⟩

end

end MiniLua
