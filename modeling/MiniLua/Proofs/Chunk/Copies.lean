import MiniLua.Machine.Loading
import MiniLua.Proofs.Chunk.RoundTrip

/-!
Copies of prototypes from one heap to another. A tree of prototypes that keeps to the limits of the
loader is copied by writing it as a binary chunk and loading that.
-/

namespace MiniLua

namespace Heap

/-- The same value in two heaps, where strings are known by their bytes. -/
def Alike (h h' : Heap) : Value → Value → Prop
  | .string n, .string m => ∃ s, h.bytes? n = some s ∧ h'.bytes? m = some s
  | .string _, _ | _, .string _ => False
  | v, w => v = w

/-- The prototypes agree in every field, and so do those nested in them, in order; no more than
`depth` of them lie in one another. -/
def Copies (h h' : Heap) : Nat → Nat → Nat → Prop
  | 0, _, _ => False
  | depth + 1, i, j =>
    ∃ p q, h.protos[i]? = some p ∧ h'.protos[j]? = some q ∧ q.name = p.name ∧ q.arity = p.arity ∧
      q.variadic = p.variadic ∧ q.cellCount = p.cellCount ∧ q.code = p.code ∧ q.lines = p.lines ∧
      q.captures = p.captures ∧
      List.Forall₂ (h.Alike h') p.constants.toList q.constants.toList ∧
      List.Forall₂ (h.Copies h' depth) p.protos.toList q.protos.toList

end Heap

namespace Prototype

open Binary

/-- What the loader takes: of the right form, and no part of it too large. -/
structure Loadable (h : Heap) (p : Prototype) : Prop where
  encodable : p.Encodable h
  within : p.Within .loader h
  narrow : p.Narrow

theorem Narrow.lines_kept {p : Prototype} (hp : p.Narrow) :
    p.lines.map (· % maxLength) = p.lines := by
  refine Array.ext' ?_
  rw [Array.toList_map]
  refine (List.map_congr_left fun n hn ↦ ?_).trans (List.map_id _)
  exact Nat.mod_eq_of_lt (hp.lines n hn)

theorem Narrow.captures_kept {p : Prototype} (hp : p.Narrow) :
    p.captures.map keptCapture = p.captures := by
  refine Array.ext' ?_
  rw [Array.toList_map]
  refine (List.map_congr_left fun c hc ↦ ?_).trans (List.map_id _)
  have hc := hp.captures c hc
  cases c <;> exact congrArg _ (Nat.mod_eq_of_lt hc)

end Prototype

open Binary

/-- A constant that has bytes is copied with its meaning. -/
theorem alike_of_sameConstant {S : Prop} {h h' : Heap} {v w : Value} {bytes : Bytes} (hS : S)
    (hv : constantBytes h v = .ok bytes) (hsame : SameConstant S h h' v w) : h.Alike h' v w := by
  cases v with
  | string n =>
    obtain ⟨m, rfl, hm⟩ := hsame
    cases hn : h.bytes? n with
    | none => simp only [constantBytes, hn, reduceCtorEq] at hv
    | some s => exact ⟨s, hn, (hm hS).trans hn⟩
  | table _ | closure _ | native _ => cases hv
  | nil | bool _ | int _ | float _ =>
    obtain rfl := hsame
    rfl

theorem copies_of_sameTree {S : Prop} {h h' : Heap} {d e i j : Nat} (hS : S)
    (htree : h.Tree (fun p ↦ p.Encodable h ∧ p.Narrow) d i) (hsame : SameTree S h h' e i j) :
    h.Copies h' d i j := by
  induction d generalizing e i j with
  | zero => exact htree.elim
  | succ d ih =>
    cases e with
    | zero => exact hsame.elim
    | succ e =>
      obtain ⟨p, hp, ⟨hform, hnarrow⟩, hchildren⟩ := htree
      obtain ⟨p', q, hp', hq, hname, harity, hvariadic, hcells, hcode, hlines, hcaptures, hconstants,
        hnested⟩ := hsame
      obtain rfl : p = p' := Option.some.inj (hp.symm.trans hp')
      rw [hnarrow.lines_kept] at hlines
      rw [hnarrow.captures_kept] at hcaptures
      refine ⟨p, q, hp, hq, hname, harity, hvariadic, hcells, hcode, hlines, hcaptures, ?_, ?_⟩
      · rw [List.forall₂_iff_get] at hconstants ⊢
        refine ⟨hconstants.1, fun n hn hn' ↦ ?_⟩
        obtain ⟨bytes, hbytes⟩ := hform.constants _ (List.get_mem _ ⟨n, hn⟩)
        exact alike_of_sameConstant hS hbytes (hconstants.2 n hn hn')
      · rw [List.forall₂_iff_get] at hnested ⊢
        exact ⟨hnested.1, fun n hn hn' ↦
          ih (hchildren _ (List.get_mem _ ⟨n, hn⟩)) (hnested.2 n hn hn')⟩

/-- A reader that is given what was written of a tree of prototypes makes a copy of it. -/
theorem readChunk_copies {h : Heap} {i : Nat} {dump : Bytes}
    (htree : h.Tree (·.Loadable h) (Reader.maxNesting + 1) i) (hdump : writeChunk h i = .ok dump) :
    ∃ body, binaryBody? dump = some body ∧ ∀ heap, heap.strings.Sound →
      ∃ j heap', readChunk body heap = .ok j heap' ∧ heap.Extends heap' ∧
        h.Copies heap' (Reader.maxNesting + 1) i j := by
  have hnarrow := htree.imp (Q := fun p ↦ p.Encodable h ∧ p.Narrow) fun _ hp ↦
    ⟨hp.encodable, hp.narrow⟩
  have hformat := htree.imp (Q := fun p ↦ p.Encodable h ∧ p.Within .format h) fun _ hp ↦
    ⟨hp.encodable, hp.within.format_of_loader⟩
  obtain ⟨body, hbody, haccepts, -⟩ := readChunk_of_writeChunk hformat hdump
  refine ⟨body, hbody, fun heap hsound ↦ ?_⟩
  obtain ⟨j, heap', hread, hext, hsame⟩ := haccepts (htree.imp fun _ hp ↦ hp.within) heap
  exact ⟨j, heap', hread, hext, copies_of_sameTree hsound hnarrow hsame⟩

/-- The dump of a tree of prototypes is loaded as a copy of it. -/
theorem decode_copies {h : Heap} {i : Nat} {dump : Bytes}
    (htree : h.Tree (·.Loadable h) (Reader.maxNesting + 1) i) (hdump : writeChunk h i = .ok dump)
    {s : State} (hs : s.heap.strings.Sound) (name : String) :
    ∃ j heap, Loading.decode dump name s = .ok j { s with heap } ∧ s.heap.Extends heap ∧
      h.Copies heap (Reader.maxNesting + 1) i j := by
  obtain ⟨body, hbody, hreads⟩ := readChunk_copies htree hdump
  obtain ⟨j, heap, hread, hext, hcopies⟩ := hreads s.heap hs
  refine ⟨j, heap, ?_, hext, hcopies⟩
  rw [Loading.decode, hbody]
  dsimp only
  rw [hread]

/-- Loading what was written of a tree of prototypes makes a copy of it, in any heap and next to
what is there already. -/
theorem decode_writeChunk_copies {h : Heap} {i : Nat}
    (htree : h.Tree (·.Loadable h) (Reader.maxNesting + 1) i) :
    ∃ dump, writeChunk h i = .ok dump ∧ ∀ s name, s.heap.strings.Sound →
      ∃ j heap, Loading.decode dump name s = .ok j { s with heap } ∧ s.heap.Extends heap ∧
        h.Copies heap (Reader.maxNesting + 1) i j := by
  have hencodable := htree.imp fun _ hp ↦ hp.encodable
  obtain ⟨dump, hdump⟩ := writeChunk_of_tree hencodable
  exact ⟨dump, hdump, fun s name hsound ↦ decode_copies htree hdump hsound name⟩

/-- A function with every kind of constant and capture, and no lines, inside a main function. -/
def sampleHeap : Heap :=
  { Heap.empty with
    strings := ⟨#[[104, 105]], {}⟩
    protos := #[
      ⟨"f", 1, true, 2, #[⟨Opcode.loadConst.byte, 0, 0, 4⟩, ⟨Opcode.ret.byte, 1, 0, 0⟩],
        #[.nil, .bool false, .int (-1), .float 0x7FF8000000000001, .string 0], #[],
        #[.cell 0, .upvalue 3], #[]⟩,
      ⟨"main chunk", 0, true, 1, #[.wide Opcode.closure.byte 0, ⟨Opcode.ret.byte, 1, 0, 0⟩],
        #[.bool true], #[0], #[], #[1, 70000]⟩] }

theorem loadable_sampleHeap :
    sampleHeap.Tree (·.Loadable sampleHeap) (Reader.maxNesting + 1) 1 := by
  have hinner : sampleHeap.Tree (·.Loadable sampleHeap) Reader.maxNesting 0 := by
    refine ⟨_, rfl, ⟨⟨by decide, ?_, by decide, by decide, by decide, by decide⟩,
      ⟨by decide, by decide, by decide, by decide, by decide, by decide⟩, ⟨by decide, by decide⟩⟩,
      fun _ h ↦ nomatch h⟩
    have hconstants : ∀ v ∈ [Value.nil, .bool false, .int (-1), .float 0x7FF8000000000001, .string 0],
        ∃ bytes, constantBytes sampleHeap v = .ok bytes := by
      simp only [List.forall_mem_cons]
      exact ⟨⟨_, rfl⟩, ⟨_, rfl⟩, ⟨_, rfl⟩, ⟨_, rfl⟩, ⟨_, rfl⟩, fun _ h ↦ nomatch h⟩
    exact hconstants
  refine ⟨_, rfl, ⟨⟨by decide, ?_, by decide, by decide, by decide, by decide⟩,
    ⟨by decide, by decide, by decide, by decide, by decide, by decide⟩, ⟨by decide, by decide⟩⟩,
    List.forall_mem_singleton.mpr hinner⟩
  exact List.forall_mem_singleton.mpr ⟨_, rfl⟩

/-- The two functions are copied into an empty heap. -/
theorem decode_writeChunk_sample : ∃ dump, writeChunk sampleHeap 1 = .ok dump ∧
    ∃ j heap, Loading.decode dump "=a" (.start {} .empty false) =
        .ok j { State.start {} .empty false with heap } ∧
      sampleHeap.Copies heap (Reader.maxNesting + 1) 1 j := by
  obtain ⟨dump, hdump, hdecode⟩ := decode_writeChunk_copies loadable_sampleHeap
  obtain ⟨j, heap, hrun, -, hcopies⟩ := hdecode (.start {} .empty false) "=a" StringPool.sound_empty
  exact ⟨dump, hdump, j, heap, hrun, hcopies⟩

end MiniLua
