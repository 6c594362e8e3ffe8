import MiniLua.Code.Compile
import MiniLua.Proofs.Chunk.Tree
import MiniLua.Proofs.Code.Laid
import MiniLua.Proofs.Syntax.Nesting

/-! What the compiler makes has the form that binary chunks are for. -/

namespace MiniLua

open Effects Binary

theorem constantBytes_later {h h' : Heap} (hext : h.Extends h') {v : Value} {bytes : Bytes}
    (hv : constantBytes h v = .ok bytes) : constantBytes h' v = .ok bytes := by
  cases v with
  | string n =>
    rw [constantBytes] at hv ⊢
    cases hn : h.bytes? n with
    | none =>
      rw [hn] at hv
      cases hv
    | some s =>
      rw [hn] at hv
      rw [hext.bytes hn]
      exact hv
  | bool b => cases b <;> exact hv
  | _ => exact hv

theorem Prototype.Encodable.later {h h' : Heap} {p : Prototype} (hp : p.Encodable h)
    (hext : h.Extends h') : p.Encodable h' :=
  { hp with
    constants := fun v hv ↦ by
      obtain ⟨bytes, hbytes⟩ := hp.constants v hv
      exact ⟨bytes, constantBytes_later hext hbytes⟩ }

theorem Heap.Tree.encodable_later {h h' : Heap} {d i : Nat}
    (ht : h.Tree (fun p ↦ p.Encodable h ∧ p.Narrow) d i) (hext : h.Extends h') :
    h'.Tree (fun p ↦ p.Encodable h' ∧ p.Narrow) d i :=
  (ht.later hext).imp fun _ hp ↦ ⟨hp.1.later hext, hp.2⟩

/-- The function under construction will have a binary form, and those nested in it have. -/
structure Builder.Storable (heap : Heap) (depth : Nat) (b : Builder) : Prop where
  opcodes : ∀ (i : Nat) (inst : Instruction), b.code[i]? = some inst → inst.opcode?.isSome
  constants : ∀ v ∈ b.constants, ∃ bytes, constantBytes heap v = .ok bytes
  arity : b.arity ≤ 255
  arity_le : b.arity ≤ b.cellCount
  lines : b.lines.size = b.code.size
  line : b.line < maxLength
  narrow : ∀ n ∈ b.lines, n < maxLength
  protos : ∀ j ∈ b.protos, heap.Tree (fun p ↦ p.Encodable heap ∧ p.Narrow) depth j

namespace Builder.Storable

variable {heap heap' : Heap} {d : Nat} {b b' : Builder}

theorem start (heap : Heap) (d : Nat) (name : String) {params : List String} (variadic : Bool)
    {line : Nat} (few : params.length ≤ 255) (hline : line < maxLength) :
    (Builder.start name params variadic line).Storable heap d where
  opcodes i inst h := by simp [Builder.start] at h
  constants v h := by simp [Builder.start] at h
  arity := few
  arity_le := Nat.le_refl _
  lines := rfl
  line := hline
  narrow n h := by simp [Builder.start] at h
  protos j h := by simp [Builder.start] at h

theorem later (hb : b.Storable heap d) (hext : heap.Extends heap') : b.Storable heap' d :=
  { hb with
    constants := fun v hv ↦ by
      obtain ⟨bytes, hbytes⟩ := hb.constants v hv
      exact ⟨bytes, constantBytes_later hext hbytes⟩
    protos := fun j hj ↦ (hb.protos j hj).encodable_later hext }

theorem emit (hb : b.Storable heap d) {i : Instruction} (valid : i.opcode?.isSome) :
    (b.emit i).Storable heap d :=
  { hb with
    opcodes := fun j inst hj ↦ by
      simp only [Builder.emit, Array.getElem?_push] at hj
      split at hj
      · cases hj
        exact valid
      · exact hb.opcodes j inst hj
    lines := by simp [Builder.emit, hb.lines]
    narrow := fun n hn ↦ by
      obtain hn | rfl := Array.mem_push.mp hn
      · exact hb.narrow n hn
      · exact hb.line }

theorem patch (hb : b.Storable heap d) (at_ target : Nat) : (b.patch at_ target).Storable heap d :=
  { hb with
    opcodes := fun j inst hj ↦ by
      rw [Builder.getElem?_patch] at hj
      split at hj
      · obtain ⟨old, hold, rfl⟩ := Option.map_eq_some_iff.mp hj
        exact hb.opcodes j old hold
      · exact hb.opcodes j inst hj
    lines := hb.lines.trans (Builder.size_patch at_ target).symm }

theorem patchAll (hb : b.Storable heap d) (jumps : List Nat) (target : Nat) :
    (b.patchAll jumps target).Storable heap d := by
  induction jumps generalizing b with
  | nil => exact hb
  | cons at_ jumps ih => exact ih (hb.patch at_ target)

theorem exitLoop (hb : b.Storable heap d) : b.exitLoop.Storable heap d :=
  patchAll (b := { b with loops := b.loops.tail }) { hb with } _ _

theorem addConstant (hb : b.Storable heap d) {v : Value} {i : Nat}
    (hv : ∃ bytes, constantBytes heap v = .ok bytes) (hadd : b.addConstant v = .ok (i, b')) :
    b'.Storable heap d := by
  unfold Builder.addConstant at hadd
  split at hadd
  · cases hadd
    exact hb
  · split at hadd
    · cases hadd
      refine { hb with constants := fun w hw ↦ ?_ }
      obtain hw | rfl := Array.mem_push.mp hw
      · exact hb.constants w hw
      · exact hv
    · cases hadd

theorem gains (hb : b.Storable heap d) (h : b.Gains b') : b'.Storable heap d := by
  rw [h.same]
  exact { hb with }

theorem encodable (hb : b.Storable heap d) (ht : b.Tidy) : b.toPrototype.Encodable heap where
  opcodes i hi := by
    obtain ⟨j, hj, rfl⟩ := List.getElem_of_mem hi
    exact hb.opcodes j _ (by simp [Builder.toPrototype] at hj ⊢)
  constants v hv := hb.constants v (Array.mem_toList_iff.mp hv)
  arity := Nat.lt_succ_of_le hb.arity
  cells := ht.cellCount.trans_lt (by decide)
  arity_le := hb.arity_le
  lines := .inr hb.lines

end Builder.Storable

theorem Builder.Tidy.index_lt {b : Builder} (hb : b.Tidy) {c : Capture} (hc : b.Supplies c) :
    c.index < 0x10000 := by
  have hcells := hb.cellCount
  have hcaptures := hb.captures
  simp only [Builder.maxIndex] at hcells hcaptures
  cases c with
  | cell n =>
    obtain ⟨l, hl, rfl⟩ := hc
    have hlt := hb.cells l hl
    have hroom := hb.room
    dsimp only [Capture.index]
    omega
  | upvalue n =>
    dsimp only [Builder.Supplies] at hc
    dsimp only [Capture.index]
    omega

theorem Assembly.Tidy.index_lt {s : Assembly} (hs : s.Tidy) :
    ∀ c ∈ s.current.captures, c.index < 0x10000 := by
  have hchained := hs.chained
  have henclosing := hs.enclosing
  cases houter : s.enclosing with
  | nil =>
    rw [houter] at hchained
    rw [show s.current.captures = #[] from hchained]
    exact fun c hc ↦ nomatch hc
  | cons parent outer =>
    rw [houter] at hchained henclosing
    have hparent := henclosing parent List.mem_cons_self
    exact fun c hc ↦ hparent.index_lt (hchained.1 c hc)

/-- A finished function, one level above those nested in it. -/
theorem Builder.Storable.finished {s : Assembly} {d : Nat} (hb : s.current.Storable s.heap d)
    (hs : s.Tidy) :
    (s.heap.allocProto s.finished).2.Tree
      (fun p ↦ p.Encodable (s.heap.allocProto s.finished).2 ∧ p.Narrow) (d + 1)
      s.heap.protos.size := by
  have hext := Heap.Extends.allocProto s.heap s.finished
  have hret := hb.emit (i := ⟨Opcode.ret.byte, 0, 0, 0⟩) rfl
  have hencodable : s.finished.Encodable s.heap := hret.encodable (hs.current.emit _)
  refine ⟨s.finished, Heap.protos_allocProto s.heap _, ⟨hencodable.later hext, ?_, ?_⟩, ?_⟩
  · exact fun n hn ↦ hret.narrow n (Array.mem_toList_iff.mp hn)
  · exact fun c hc ↦ hs.index_lt c (Array.mem_toList_iff.mp hc)
  · exact fun j hj ↦ (hb.protos j (Array.mem_toList_iff.mp hj)).encodable_later hext

theorem constantBytes_of_isNumber {heap : Heap} {v : Value} (hv : v.IsNumber) :
    ∃ bytes, constantBytes heap v = .ok bytes := by
  cases v with
  | int i => exact ⟨_, rfl⟩
  | float x => exact ⟨_, rfl⟩
  | _ => exact hv.elim

theorem Emits.storable {d n : Nat} {s t : Assembly} (h : Emits d n s t) (hs : s.Tidy)
    (hb : s.current.Storable s.heap d) : t.current.Storable t.heap d := by
  induction h with
  | refl => exact hb
  | trans hst _ ih ih' => exact ih' (hst.tidy hs) (ih hs hb)
  | line pos => exact { hb with line := Nat.mod_lt _ (by decide) }
  | emit valid => exact hb.emit valid
  | patch => exact hb.patch _ _
  | number number added => exact hb.addConstant (constantBytes_of_isNumber number) added
  | @string d n s bytes i b added =>
    have hbytes := Heap.bytes?_intern hs.sound bytes
    refine (hb.later (.intern s.heap bytes)).addConstant ⟨tagString :: byteString bytes, ?_⟩ added
    rw [constantBytes, hbytes]
  | capture captured => exact hb.gains (Builder.gains_of_captureFrom captured).1
  | declare declared =>
    obtain ⟨-, -, rfl⟩ := Builder.declare_eq declared
    exact { hb with arity_le := hb.arity_le.trans (Nat.le_max_left _ _) }
  | openScope => exact { hb with }
  | closeScope => exact { hb with }
  | leave => exact { hb with }
  | looped _ ih => exact (ih hs.enterLoop { hb with }).exitLoop
  | @nested d n s t name params variadic parent outer pos _ few _ _ inside around ih =>
    have hline : pos.codeLine < maxLength := Nat.mod_lt _ (by decide)
    have hstart := hs.enter name variadic pos.codeLine few
    have hinner := ih hstart (.start _ _ name variadic few hline)
    have hgrows := inside.grows (Nat.zero_le _)
    have henclosing := hgrows.enclosing
    rw [around] at henclosing
    obtain ⟨hparent, -⟩ := List.forall₂_cons.mp henclosing
    have hlater := (hb.gains hparent).later (hgrows.heap.trans
      (.allocProto t.heap t.finished))
    refine { hlater with line := hline, protos := fun j hj ↦ ?_ }
    obtain hj | rfl := Array.mem_push.mp hj
    · exact hlater.protos j hj
    · exact hinner.finished (inside.tidy hstart)

end MiniLua
