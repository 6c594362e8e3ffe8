import MiniLua.Machine.Loading
import MiniLua.Proofs.Chunk.Copies
import MiniLua.Proofs.Chunk.RoundTrip
import MiniLua.Proofs.Code.Compiled

/-! Compiled chunks are loaded again, unless a part of them is larger than the loader takes. -/

namespace MiniLua

open Binary

/-- A prototype and those nested in it keep to these limits. -/
def Heap.Keeps (h : Heap) (l : Limits) (i : Nat) : Prop := ∃ d, h.Tree (·.Within l h) d i

/-- Chunks of which the prototypes nest little are refused for nothing but the size of a part. -/
theorem decode_writeChunk {h : Heap} {d i : Nat} (htree : h.Tree (·.Encodable h) d i)
    (hd : d ≤ Reader.maxNesting + 1) :
    ∃ dump, writeChunk h i = .ok dump ∧
      (h.Keeps .loader i → ∀ s name, ∃ j s', Loading.decode dump name s = .ok j s' ∧
        s.heap.Extends s'.heap ∧
        SameTree s.heap.strings.Sound h s'.heap (h.protos.size + 1) i j) ∧
      (h.Keeps .format i → ¬ h.Keeps .loader i → ∀ s name, ∃ fault s',
        Loading.decode dump name s = .error (.size fault) s') := by
  obtain ⟨dump, hdump⟩ := writeChunk_of_tree htree
  have hread {e : Nat} (hformat : h.Tree (·.Within .format h) e i) :=
    readChunk_of_writeChunk (htree.and hformat) hdump
  refine ⟨dump, hdump, ?_, ?_⟩
  · rintro ⟨e, hloader⟩ s name
    obtain ⟨body, hbody, haccepts, -⟩ :=
      hread (hloader.imp fun _ hp ↦ hp.format_of_loader)
    have hwithin : h.Tree (·.Within .loader h) (Reader.maxNesting + 1) i :=
      ((htree.and hloader).imp fun _ ↦ And.right).mono hd
    obtain ⟨j, heap', hrun, hext, hsame⟩ := haccepts hwithin s.heap
    refine ⟨j, { s with heap := heap' }, ?_, hext, hsame⟩
    rw [Loading.decode, hbody]
    dsimp only
    rw [hrun]
  · rintro ⟨e, hformat⟩ hnot s name
    obtain ⟨body, hbody, -, hrefuses⟩ := hread hformat
    obtain ⟨fault, heap', hrun⟩ := hrefuses (fun hwithin ↦ hnot ⟨_, hwithin⟩) s.heap
    refine ⟨fault, { s with heap := heap' }, ?_⟩
    rw [Loading.decode, hbody]
    dsimp only
    rw [hrun]

/-- What compiles can be dumped, and the dump is loaded as the same tree of prototypes if every part
keeps to the limits of the loader. If one does not, the size of that part is the only complaint. -/
theorem decode_of_compile {source : Bytes} {chunkName : String} {heap heap' : Heap} {main : Nat}
    (hheap : heap.strings.Sound) (h : compile source chunkName heap = .ok main heap') :
    ∃ dump, writeChunk heap' main = .ok dump ∧
      (heap'.Keeps .loader main → ∀ s name, ∃ j s', Loading.decode dump name s = .ok j s' ∧
        s.heap.Extends s'.heap ∧
        SameTree s.heap.strings.Sound heap' s'.heap (heap'.protos.size + 1) main j) ∧
      (heap'.Keeps .format main → ¬ heap'.Keeps .loader main → ∀ s name, ∃ fault s',
        Loading.decode dump name s = .error (.size fault) s') :=
  decode_writeChunk (encodable_of_compile hheap h) (by decide)

/-- The text `return function() end`. -/
def functionSource : Bytes := Bytes.ofText "return function() end"

/-- The name of the function in it. -/
def functionName (chunkName : String) : String :=
  "function <" ++ chunkLabel chunkName ++ ":" ++ toString 1 ++ ">"

theorem compile_functionSource (chunkName : String) :
    ∃ heap, compile functionSource chunkName .empty = .ok 1 heap ∧
      heap.protos = #[
        ⟨functionName chunkName, 0, false, 0, #[⟨Opcode.ret.byte, 0, 0, 0⟩], #[], #[], #[], #[1]⟩,
        ⟨"main chunk", 0, true, 0,
          #[.wide Opcode.closure.byte 0, ⟨Opcode.ret.byte, 1, 0, 0⟩, ⟨Opcode.ret.byte, 0, 0, 0⟩],
          #[], #[0], #[], #[1, 1, 1]⟩] :=
  ⟨_, rfl, rfl⟩

/-- Nothing but the name of the function can be too long there. -/
theorem keeps_functionSource {chunkName : String} {heap : Heap} {l : Limits}
    (h : compile functionSource chunkName .empty = .ok 1 heap) (hname : 10 ≤ l.name)
    (hcode : 3 ≤ l.code) (hprotos : 1 ≤ l.protos) :
    heap.Keeps l 1 ↔ (Bytes.ofText (functionName chunkName)).length ≤ l.name := by
  obtain ⟨heap', h', hheap⟩ := compile_functionSource chunkName
  obtain rfl : heap = heap' := by
    rw [h'] at h
    cases h
    rfl
  constructor
  · rintro ⟨_ | _ | d, htree⟩
    · exact htree.elim
    · obtain ⟨p, hp, -, hnested⟩ := htree
      rw [hheap] at hp
      cases hp
      exact (hnested 0 (by simp)).elim
    · obtain ⟨p, hp, -, hnested⟩ := htree
      rw [hheap] at hp
      cases hp
      obtain ⟨q, hq, hwithin, -⟩ := hnested 0 (by simp)
      rw [hheap] at hq
      cases hq
      exact hwithin.name
  · intro hlength
    have hinner : heap.Tree (·.Within l heap) 1 0 := by
      refine ⟨_, by rw [hheap]; rfl, ?_, by simp⟩
      have hone : 1 ≤ l.code := (by decide : 1 ≤ 3).trans hcode
      refine ⟨hlength, ?_, ?_, hone, ?_, ?_⟩
      all_goals simp
    refine ⟨2, _, by rw [hheap]; rfl, ?_, List.forall_mem_singleton.mpr hinner⟩
    refine ⟨hname, ?_, ?_, hcode, ?_, hprotos⟩
    all_goals simp

/-- A chunk with a short name is loaded. -/
theorem decode_of_compile_short : ∃ heap dump,
    compile functionSource "=a" .empty = .ok 1 heap ∧ writeChunk heap 1 = .ok dump ∧
      ∀ s name, ∃ j s', Loading.decode dump name s = .ok j s' := by
  obtain ⟨heap, hcompile, -⟩ := compile_functionSource "=a"
  obtain ⟨dump, hdump, haccepts, -⟩ := decode_of_compile StringPool.sound_empty hcompile
  refine ⟨heap, dump, hcompile, hdump, fun s name ↦ ?_⟩
  obtain ⟨j, s', hrun, -⟩ := haccepts ((keeps_functionSource hcompile (by decide) (by decide)
    (by decide)).mpr (by decide)) s name
  exact ⟨j, s', hrun⟩

/-- A chunk name of `n` letters, and the mark that makes it no source text. -/
def letters (n : Nat) : String := String.ofList ('=' :: List.replicate n 'a')

theorem length_functionName_letters (n : Nat) :
    (Bytes.ofText (functionName (letters n))).length = n + 13 := by
  have hlabel : chunkLabel (letters n) = String.ofList (List.replicate n 'a') := by
    rw [chunkLabel, letters, String.toList_ofList]
    rfl
  have hone : (String.utf8EncodeChar 'a').length = 1 := by decide
  have hlength : (Bytes.ofText (String.ofList (List.replicate n 'a'))).length = n := by
    rw [Bytes.ofText_eq, String.toList_ofList]
    clear hlabel
    induction n with
    | zero => rfl
    | succ n ih =>
      rw [List.replicate_succ, List.flatMap_cons, List.length_append, ih, hone, Nat.add_comm]
  have hopen : (Bytes.ofText "function <").length = 10 := by decide
  have hcolon : (Bytes.ofText ":").length = 1 := by decide
  have hline : (Bytes.ofText (toString 1)).length = 1 := by decide
  have hclose : (Bytes.ofText ">").length = 1 := by decide
  rw [functionName, hlabel]
  simp only [Bytes.ofText_append, List.length_append, hlength, hopen, hcolon, hline, hclose]
  omega

/-- The function of a chunk with a long name cannot be loaded from its dump. -/
theorem decode_long_refused : ∃ heap dump,
    compile functionSource (letters 1024) .empty = .ok 1 heap ∧ writeChunk heap 1 = .ok dump ∧
      ∀ s name, ∃ fault s', Loading.decode dump name s = .error (.size fault) s' := by
  obtain ⟨heap, hcompile, -⟩ := compile_functionSource (letters 1024)
  obtain ⟨dump, hdump, -, hrefuses⟩ :=
    decode_writeChunk (encodable_of_compile StringPool.sound_empty hcompile) (by decide)
  refine ⟨heap, dump, hcompile, hdump, hrefuses ?_ ?_⟩
  · rw [keeps_functionSource hcompile (by decide) (by decide) (by decide),
      length_functionName_letters]
    decide
  · rw [keeps_functionSource hcompile (by decide) (by decide) (by decide),
      length_functionName_letters]
    decide

/-! No part of a chunk is larger than the chunk, so the fields of a chunk that is not too large hold
every size in it. Text of which the dump is loaded is loaded as a copy. -/

/-- The same bound for every part. -/
def Limits.all (n : Nat) : Limits := ⟨n, n, n, n, n, n⟩

namespace Binary

variable {h : Heap}

end Binary

open Binary

end MiniLua
