import Mathlib.Data.List.Induction
import MiniLua.Proofs.Memory.Heap

/-! Whatever calls made them, the strings of a heap and their handles correspond one to one. -/

namespace MiniLua

/-- Every string in the pool is found under its own handle, and nothing else is. -/
def StringPool.Exact (p : StringPool) : Prop := ∀ s n, p.find? s = some n ↔ p.get? n = some s

namespace StringPool

variable {p : StringPool}

theorem exact_empty : StringPool.empty.Exact := by
  intro s n
  simp [find?, get?, StringPool.empty]

theorem Exact.sound (hp : p.Exact) : p.Sound := fun s n ↦ (hp s n).mp

theorem Exact.handle_unique (hp : p.Exact) {s : Bytes} {m n : Nat} (hm : p.get? m = some s)
    (hn : p.get? n = some s) : m = n :=
  Option.some.inj (((hp s m).mpr hm).symm.trans ((hp s n).mpr hn))

theorem Exact.intern (hp : p.Exact) (t : Bytes) : (p.intern t).2.Exact := by
  intro s n
  refine ⟨hp.sound.intern t s n, fun h ↦ ?_⟩
  cases ht : p.find? t with
  | some m =>
    rw [intern_of_known ht] at h ⊢
    exact (hp s n).mpr h
  | none =>
    rw [intern_of_new ht] at h ⊢
    rw [find?_insert]
    simp only [get?, Array.getElem?_push] at h
    split at h
    · next hn =>
      cases h
      rw [if_pos rfl, hn]
    · have hs := (hp s n).mpr h
      rw [if_neg, hs]
      rintro rfl
      rw [ht] at hs
      cases hs

theorem Exact.mem_strings (hp : p.Exact) {s : Bytes} :
    s ∈ p.strings.toList ↔ (p.find? s).isSome := by
  rw [List.mem_iff_getElem?, Option.isSome_iff_exists]
  refine exists_congr fun n ↦ ?_
  rw [hp s n, get?, Array.getElem?_toList]

/-- A string that is new comes last. -/
theorem Exact.strings_intern (hp : p.Exact) (t : Bytes) :
    (p.intern t).2.strings.toList =
      p.strings.toList ++ if t ∈ p.strings.toList then [] else [t] := by
  cases ht : p.find? t with
  | some n =>
    rw [intern_of_known ht, if_pos (hp.mem_strings.mpr (by rw [ht]; rfl)), List.append_nil]
  | none =>
    rw [intern_of_new ht, if_neg, Array.toList_push]
    intro hmem
    rw [hp.mem_strings, ht] at hmem
    cases hmem

end StringPool

/-- A call that asks for the handle of a string. -/
inductive StringCall
  | intern (s : Bytes)
  | allocString (text : String)
  | stringValue (s : Bytes)
  | findString (s : Bytes)
deriving DecidableEq, Repr

namespace StringCall

/-- What the calls answer. -/
inductive Answer
  | handle (n : Nat)
  | value (v : Value)
  | found (n? : Option Nat)
deriving DecidableEq

def Answer.handle? : Answer → Option Nat
  | handle n => some n
  | value v => v.handle?
  | found n? => n?

/-- The bytes a call asks for. -/
def content : StringCall → Bytes
  | intern s | stringValue s | findString s => s
  | allocString text => Bytes.ofText text

/-- Looking a string up is the only call that does not make it. -/
def interns : StringCall → Bool
  | findString _ => false
  | _ => true

def apply (call : StringCall) (h : Heap) : Answer × Heap :=
  match call with
  | intern s => (.handle (h.intern s).1, (h.intern s).2)
  | allocString text => (.handle (h.intern (Bytes.ofText text)).1, (h.intern (Bytes.ofText text)).2)
  | stringValue s => (.value (.string (h.intern s).1), (h.intern s).2)
  | findString s => (.found (h.strings.find? s), h)

/-- The heap after calls. -/
def after (h : Heap) (calls : List StringCall) : Heap := calls.foldl (fun h call ↦ (call.apply h).2) h

/-- The strings that calls intern, in their order. -/
def interned (calls : List StringCall) : List Bytes := (calls.filter interns).map content

variable {call : StringCall} {calls : List StringCall} {h : Heap} {n : Nat}

theorem after_append (more : List StringCall) :
    after h (calls ++ more) = after (after h calls) more := List.foldl_append

theorem after_snoc (call : StringCall) :
    after h (calls ++ [call]) = (call.apply (after h calls)).2 := by
  rw [after_append]
  rfl

theorem mem_interned {s : Bytes} :
    s ∈ interned calls ↔ ∃ call ∈ calls, call.interns ∧ call.content = s := by
  simp only [interned, List.mem_map, List.mem_filter, and_assoc]

theorem interned_snoc (call : StringCall) :
    interned (calls ++ [call]) = interned calls ++ if call.interns then [call.content] else [] := by
  rw [interned, List.filter_append, List.map_append]
  cases hcall : call.interns <;> simp [interned, hcall]

/-- A call that interns does what interning its content does. -/
theorem apply_of_interns (hcall : call.interns) :
    (call.apply h).1.handle? = some (h.intern call.content).1 ∧
      (call.apply h).2 = (h.intern call.content).2 := by
  cases call with
  | findString s => cases hcall
  | intern | allocString | stringValue => exact ⟨rfl, rfl⟩

/-- A call that does not intern looks its content up. -/
theorem apply_of_not_interns (hcall : ¬ call.interns) :
    (call.apply h).1.handle? = h.strings.find? call.content ∧ (call.apply h).2 = h := by
  cases call with
  | findString s => exact ⟨rfl, rfl⟩
  | intern | allocString | stringValue => exact absurd rfl hcall

theorem extends_apply (call : StringCall) (h : Heap) : h.Extends (call.apply h).2 := by
  by_cases hcall : call.interns
  · rw [(apply_of_interns hcall).2]
    exact .intern h _
  · rw [(apply_of_not_interns hcall).2]
    exact .refl h

theorem extends_after (calls : List StringCall) (h : Heap) : h.Extends (after h calls) := by
  induction calls generalizing h with
  | nil => exact .refl h
  | cons call rest ih => exact (extends_apply call h).trans (ih _)

theorem exact_apply (hs : h.strings.Exact) (call : StringCall) :
    (call.apply h).2.strings.Exact := by
  by_cases hcall : call.interns
  · rw [(apply_of_interns hcall).2]
    exact hs.intern _
  · rw [(apply_of_not_interns hcall).2]
    exact hs

theorem exact_after (hs : h.strings.Exact) (calls : List StringCall) :
    (after h calls).strings.Exact := by
  induction calls generalizing h with
  | nil => exact hs
  | cons call rest ih => exact ih (exact_apply hs call)

/-- What a call answers is the handle of its content. -/
theorem bytes?_answer (hs : h.strings.Exact) (hn : (call.apply h).1.handle? = some n) :
    (call.apply h).2.bytes? n = some call.content := by
  by_cases hcall : call.interns
  · obtain ⟨hanswer, hheap⟩ := apply_of_interns (h := h) hcall
    obtain rfl : (h.intern call.content).1 = n := Option.some.inj (hanswer.symm.trans hn)
    rw [hheap]
    exact Heap.bytes?_intern hs.sound _
  · obtain ⟨hanswer, hheap⟩ := apply_of_not_interns (h := h) hcall
    rw [hheap]
    exact (hs _ n).mp (hanswer.symm.trans hn)

/-- Asking for a string that is there gives its handle and changes nothing. -/
theorem apply_of_known (hs : h.strings.Exact) (hn : h.bytes? n = some call.content) :
    (call.apply h).1.handle? = some n ∧ (call.apply h).2 = h := by
  have hfind : h.strings.find? call.content = some n := (hs _ n).mpr hn
  by_cases hcall : call.interns
  · obtain ⟨hanswer, hheap⟩ := apply_of_interns (h := h) hcall
    rw [hanswer, hheap, Heap.intern, StringPool.intern_of_known hfind]
    exact ⟨rfl, rfl⟩
  · obtain ⟨hanswer, hheap⟩ := apply_of_not_interns (h := h) hcall
    exact ⟨hanswer.trans hfind, hheap⟩

/-- The strings are those that were interned, each once, in the order of their first use. -/
theorem strings_after (calls : List StringCall) :
    (after .empty calls).strings.strings.toList = (interned calls).eraseDups := by
  induction calls using List.reverseRecOn with
  | nil => rfl
  | append_singleton calls call ih =>
    have hs : (after .empty calls).strings.Exact := exact_after StringPool.exact_empty calls
    rw [after_snoc, interned_snoc, List.eraseDups_append, ← ih]
    by_cases hcall : call.interns
    · have hmem : call.content ∈ (after .empty calls).strings.strings.toList ↔
          call.content ∈ interned calls := by rw [ih, List.mem_eraseDups]
      rw [(apply_of_interns hcall).2, if_pos hcall, List.cons_removeAll, List.nil_removeAll]
      refine (hs.strings_intern _).trans ?_
      by_cases hknown : call.content ∈ interned calls
      · rw [if_pos (hmem.mpr hknown), if_neg (by simpa using hknown), List.eraseDups_nil]
      · rw [if_neg (mt hmem.mp hknown), if_pos (by simpa using hknown)]
        rfl
    · rw [(apply_of_not_interns hcall).2, if_neg hcall, List.nil_removeAll, List.eraseDups_nil,
        List.append_nil]

/-- A string is found when one of the calls interned it. -/
theorem find?_after (calls : List StringCall) (s : Bytes) :
    ((after .empty calls).strings.find? s).isSome ↔ ∃ call ∈ calls, call.interns ∧ call.content = s := by
  rw [← (exact_after StringPool.exact_empty calls).mem_strings, strings_after, List.mem_eraseDups,
    mem_interned]

/-- One of the calls on a new heap is this one, and it answers `n`. -/
def Answers (calls : List StringCall) (call : StringCall) (n : Nat) : Prop :=
  ∃ before rest, calls = before ++ call :: rest ∧
    (call.apply (after .empty before)).1.handle? = some n

/-- What a call answered stays the handle of its content, whatever comes after it. -/
theorem Answers.bytes? (hn : Answers calls call n) (more : List StringCall) :
    (after .empty (calls ++ more)).bytes? n = some call.content := by
  obtain ⟨before, rest, rfl, hanswer⟩ := hn
  have hs : (after .empty before).strings.Exact := exact_after StringPool.exact_empty before
  have hlater : after .empty (before ++ call :: rest ++ more) =
      after (call.apply (after .empty before)).2 (rest ++ more) := by
    rw [List.append_assoc, after_append]
    rfl
  rw [hlater]
  exact (extends_after _ _).bytes (bytes?_answer hs hanswer)

/-- A string has the handle that the call that interned it answered. -/
theorem answers_of_bytes? {s : Bytes} (hn : (after .empty calls).bytes? n = some s) :
    ∃ call, Answers calls call n := by
  have hs : (after .empty calls).strings.Exact := exact_after StringPool.exact_empty calls
  obtain ⟨call, hmem, hcall, rfl⟩ :=
    (find?_after calls s).mp (Option.isSome_iff_exists.mpr ⟨n, (hs s n).mpr hn⟩)
  obtain ⟨before, rest, hsplit⟩ := List.append_of_mem hmem
  have hanswer : Answers calls call ((after .empty before).intern call.content).1 :=
    ⟨before, rest, hsplit, (apply_of_interns hcall).1⟩
  have hbytes := hanswer.bytes? []
  rw [List.append_nil] at hbytes
  exact ⟨call, hs.handle_unique hbytes hn ▸ hanswer⟩

/-- Handles count the distinct strings that calls interned from zero. A handle has the content it was
answered for, now and after any further calls, and no other handle has it; asking for it again gives
the same handle and leaves the heap alone; looking it up finds it, and nothing that was never
interned. With at most `2 ^ 32` distinct strings no handle is longer than 32 bits. -/
theorem strings_one_to_one (calls : List StringCall) :
    (after .empty calls).strings.strings.toList = (interned calls).eraseDups ∧
      (∀ n, n < (after .empty calls).strings.size ↔ ∃ call, Answers calls call n) ∧
      (∀ call n, Answers calls call n →
        ∀ more, (after .empty (calls ++ more)).bytes? n = some call.content) ∧
      (∀ m n, m < (after .empty calls).strings.size → n < (after .empty calls).strings.size →
        (m = n ↔ (after .empty calls).bytes? m = (after .empty calls).bytes? n)) ∧
      (∀ (call : StringCall) (n : Nat), (after .empty calls).bytes? n = some call.content →
        (call.apply (after .empty calls)).1.handle? = some n ∧
          (call.apply (after .empty calls)).2 = after .empty calls) ∧
      (∀ s n, (after .empty calls).strings.find? s = some n ↔
        (after .empty calls).bytes? n = some s) ∧
      (∀ s, ((after .empty calls).strings.find? s).isSome ↔
        ∃ call ∈ calls, call.interns ∧ call.content = s) ∧
      ((interned calls).eraseDups.length ≤ 0x100000000 →
        ∀ n < (after .empty calls).strings.size, n.toUInt32.toNat = n) := by
  have hs : (after .empty calls).strings.Exact := exact_after StringPool.exact_empty calls
  have hbytes : ∀ n < (after .empty calls).strings.size,
      ∃ s, (after .empty calls).bytes? n = some s := fun n hn ↦ ⟨_, Array.getElem?_eq_getElem hn⟩
  refine ⟨strings_after calls, fun n ↦ ⟨fun hn ↦ ?_, fun ⟨call, hn⟩ ↦ ?_⟩, fun call n hn ↦ hn.bytes?,
    fun m n hm hn ↦ ⟨congrArg _, fun heq ↦ ?_⟩, fun call n hn ↦ apply_of_known hs hn, hs,
    find?_after calls, fun hcount n hn ↦ ?_⟩
  case refine_1 =>
    obtain ⟨s, hs⟩ := hbytes n hn
    exact answers_of_bytes? hs
  case refine_2 =>
    have hcontent := hn.bytes? []
    rw [List.append_nil] at hcontent
    exact StringPool.get?_lt hcontent
  case refine_3 =>
    obtain ⟨s, hm⟩ := hbytes m hm
    exact hs.handle_unique hm (heq.symm.trans hm)
  case refine_4 =>
    have hsize : (after .empty calls).strings.size = (interned calls).eraseDups.length := by
      rw [← strings_after, Array.length_toList]
      rfl
    exact Nat.mod_eq_of_lt (by omega)

end StringCall

end MiniLua
