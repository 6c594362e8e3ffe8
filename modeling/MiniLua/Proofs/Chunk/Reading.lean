import Mathlib.Data.List.Forall2
import MiniLua.Proofs.Chunk.Tree
import MiniLua.Proofs.Effects
import MiniLua.Proofs.Text.Utf8

/-!
Readers on bytes that a writer made. They succeed if what was written keeps to the limits, and
otherwise complain of a size; the bytes that follow stay unread.
-/

namespace MiniLua.Binary

open Effects Reader

variable {α β : Type} {S F F' : Prop} {bytes c : Bytes}

/-- On `bytes` the reader succeeds if and only if `F`, with a result of which `R` holds in every
later heap. Strings are only promised to be the right ones in a heap of which `S` holds. -/
structure Reads (S F : Prop) (m : Reader α) (bytes : Bytes) (R : Heap → α → Prop) :
    Prop where
  accepts : F → ∀ heap rest, (S → heap.strings.Sound) →
    ∃ a heap', m ⟨heap, bytes ++ rest⟩ = .ok a ⟨heap', rest⟩ ∧ heap.Extends heap' ∧
      (S → heap'.strings.Sound) ∧ ∀ h, heap'.Extends h → R h a
  rejects : ¬ F → ∀ heap rest, (S → heap.strings.Sound) →
    ∃ fault s, m ⟨heap, bytes ++ rest⟩ = .error (.size fault) s

namespace Reads

variable {m : Reader α} {R : Heap → α → Prop}

theorem congr (h : Reads S F m bytes R) (hfits : F ↔ F') :
    Reads S F' m bytes R := by
  rwa [← propext hfits]

theorem mono {Q : Heap → α → Prop} (h : Reads S F m bytes R) (hR : ∀ h a, R h a → Q h a) :
    Reads S F m bytes Q := by
  refine ⟨fun hfits heap rest hs ↦ ?_, h.rejects⟩
  obtain ⟨a, heap', hrun, hext, hs', ha⟩ := h.accepts hfits heap rest hs
  exact ⟨a, heap', hrun, hext, hs', fun h hh ↦ hR h a (ha h hh)⟩

theorem bind {f : α → Reader β} {Q : Heap → β → Prop} (h : Reads S F m bytes R)
    (hf : ∀ a, (∃ h, R h a) → Reads S F' (f a) c fun h b ↦ R h a → Q h b) :
    Reads S (F ∧ F') (m >>= f) (bytes ++ c) Q := by
  constructor
  · intro ⟨hfits, hfits'⟩ heap rest hs
    obtain ⟨a, heap₁, hrun, hext, hs₁, ha⟩ := h.accepts hfits heap (c ++ rest) hs
    obtain ⟨b, heap₂, hrun', hext', hs₂, hb⟩ :=
      (hf a ⟨heap₁, ha heap₁ (.refl _)⟩).accepts hfits' heap₁ rest hs₁
    refine ⟨b, heap₂, ?_, hext.trans hext', hs₂, fun h hh ↦ hb h hh (ha h (hext'.trans hh))⟩
    rw [List.append_assoc, bind_apply, hrun]
    exact hrun'
  · intro hnot heap rest hs
    rw [List.append_assoc]
    by_cases hfits : F
    · obtain ⟨a, heap₁, hrun, -, hs₁, ha⟩ := h.accepts hfits heap (c ++ rest) hs
      obtain ⟨fault, s, hrun'⟩ := (hf a ⟨heap₁, ha heap₁ (.refl _)⟩).rejects
        (fun hfits' ↦ hnot ⟨hfits, hfits'⟩) heap₁ rest hs₁
      refine ⟨fault, s, ?_⟩
      rw [bind_apply, hrun]
      exact hrun'
    · obtain ⟨fault, s, hrun⟩ := h.rejects hfits heap (c ++ rest) hs
      refine ⟨fault, s, ?_⟩
      rw [bind_apply, hrun]

/-- What follows an item whose value is known. -/
theorem bind_eq {v : α} {f : α → Reader β} {Q : Heap → β → Prop}
    (h : Reads S F m bytes fun _ a ↦ a = v) (hf : Reads S F' (f v) c Q) :
    Reads S (F ∧ F') (m >>= f) (bytes ++ c) Q := by
  refine h.bind fun a ⟨_, ha⟩ ↦ ?_
  subst ha
  exact hf.mono fun _ _ hb _ ↦ hb

/-- What follows an item that is always read, and with a known value. -/
theorem bind_always {v : α} {f : α → Reader β} {Q : Heap → β → Prop}
    (h : Reads S True m bytes fun _ a ↦ a = v) (hf : Reads S F (f v) c Q) :
    Reads S F (m >>= f) (bytes ++ c) Q :=
  (h.bind_eq hf).congr (by simp)

theorem pure (a : α) : Reads S True (Pure.pure a : Reader α) [] fun _ b ↦ b = a := by
  refine ⟨fun _ heap rest hs ↦ ⟨a, heap, rfl, .refl heap, hs, fun _ _ ↦ rfl⟩, ?_⟩
  exact fun h ↦ absurd trivial h

/-- What follows a value at hand. -/
theorem pure_bind {a : α} {f : α → Reader β} {Q : Heap → β → Prop}
    (hf : Reads S F (f a) bytes Q) :
    Reads S F (Pure.pure a >>= f) bytes Q := (Reads.pure a).bind_always hf

theorem throw_size (fault : SizeFault) :
    Reads S False (throw (.size fault) : Reader α) bytes R := by
  refine ⟨False.elim, fun _ heap rest _ ↦ ⟨fault, _, rfl⟩⟩

theorem throw_size_bind (fault : SizeFault) (f : α → Reader β) {Q : Heap → β → Prop} :
    Reads S False (throw (.size fault) >>= f) bytes Q := by
  refine ⟨False.elim, fun _ heap rest _ ↦ ⟨fault, _, rfl⟩⟩

end Reads

theorem splitOff?_append (bytes rest taken : Bytes) :
    splitOff? bytes.length taken (bytes ++ rest) = some (taken.reverse ++ bytes, rest) := by
  induction bytes generalizing taken with
  | nil => simp [splitOff?]
  | cons b bytes ih =>
    rw [List.length_cons, List.cons_append, splitOff?, ih, List.reverse_cons, List.append_assoc,
      List.singleton_append]

theorem reads_take {n : Nat} (hn : bytes.length = n) :
    Reads S True (take n) bytes fun _ a ↦ a = bytes := by
  refine ⟨fun _ heap rest hs ↦ ⟨bytes, heap, ?_, .refl heap, hs, fun _ _ ↦ rfl⟩, ?_⟩
  · simp only [take, bind_apply, get_apply, ← hn, splitOff?_append]
    rfl
  · exact fun h ↦ absurd trivial h

theorem reads_number (count n : Nat) :
    Reads S True (number count) (littleEndian count n) fun _ a ↦ a = n % Nat.pow 256 count := by
  have h := (reads_take (S := S) (length_littleEndian count n)).bind_always
    (f := fun bytes ↦ Pure.pure (ofLittleEndian bytes)) (Reads.pure _)
  rw [List.append_nil, ofLittleEndian_littleEndian] at h
  exact h

theorem reads_byte (b : UInt8) : Reads S True byte [b] fun _ a ↦ a = b := by
  have h := (reads_number (S := S) 1 b.toNat).bind_always
    (f := fun n ↦ Pure.pure n.toUInt8) (Reads.pure _)
  have hb : (b.toNat % Nat.pow 256 1).toUInt8 = b := by
    rw [show Nat.pow 256 1 = 256 from rfl, Nat.mod_eq_of_lt b.toNat_lt]
    exact UInt8.ofNat_toNat
  have hbytes : littleEndian 1 b.toNat = [b] := by
    simp only [littleEndian, Nat.toUInt8_eq, UInt8.ofNat_toNat]
  rw [List.append_nil, hb, hbytes] at h
  exact h

theorem reads_length {n : Nat} (hn : n < maxLength) :
    Reads S True (number 4) (littleEndian 4 n) fun _ a ↦ a = n := by
  have h := reads_number (S := S) 4 n
  rwa [show Nat.pow 256 4 = maxLength from rfl, Nat.mod_eq_of_lt hn] at h

theorem reads_count {n limit : Nat} (hn : n < maxLength) (what : String) :
    Reads S (n ≤ limit) (count limit what) (littleEndian 4 n) fun _ a ↦ a = n := by
  have h := (reads_length (S := S) hn).bind_always (F := n ≤ limit) (c := [])
    (f := fun n ↦ do
      if limit < n then throw (.size (.count what n))
      return n) (Q := fun _ a ↦ a = n) ?_
  · rwa [List.append_nil] at h
  · by_cases hlimit : n ≤ limit
    · rw [if_neg (by omega)]
      exact (Reads.pure n).congr (by simp [hlimit])
    · rw [if_pos (by omega)]
      exact (Reads.throw_size_bind _ _).congr (by simp [hlimit])

theorem reads_string {s : Bytes} (limit : Nat) (hs : s.length < maxLength) (what : String) :
    Reads S (s.length ≤ limit) (string limit what) (byteString s) fun _ a ↦ a = s := by
  refine (reads_length hs).bind_always ?_
  by_cases hlimit : s.length ≤ limit
  · rw [if_neg (by omega)]
    exact (reads_take rfl).congr (by simp [hlimit])
  · rw [if_pos (by omega)]
    exact (Reads.throw_size_bind _ _).congr (by simp [hlimit])

theorem reads_many {item : Reader α} {written : β → Bytes} {ok : β → Prop}
    {R : β → Heap → α → Prop} {xs : List β}
    (h : ∀ x ∈ xs, Reads S (ok x) item (written x) (R x)) (found : List α) :
    Reads S (∀ x ∈ xs, ok x) (many item xs.length found) (xs.flatMap written) fun h as ↦
      ∃ ys, as = found.reverse ++ ys ∧ List.Forall₂ (fun x y ↦ R x h y) xs ys := by
  induction xs generalizing found with
  | nil =>
    refine Reads.congr ((Reads.pure _).mono fun h as has ↦ ?_) (by simp)
    exact ⟨[], by rw [has, List.append_nil], .nil⟩
  | cons x xs ih =>
    refine Reads.congr ?_ (List.forall_mem_cons (p := ok)).symm
    refine (h x List.mem_cons_self).bind fun a _ ↦ ?_
    refine (ih (fun y hy ↦ h y (List.mem_cons_of_mem x hy)) (a :: found)).mono ?_
    rintro heap as ⟨ys, rfl, hys⟩ ha
    exact ⟨a :: ys, by simp, .cons ha hys⟩

theorem reads_intern (s : Bytes) :
    Reads S True (intern s) [] fun h n ↦ S → h.bytes? n = some s := by
  refine ⟨fun _ heap rest hs ↦ ⟨_, _, rfl, .intern heap s, fun h ↦ (hs h).intern s, ?_⟩, ?_⟩
  · exact fun h hext hsound ↦ hext.bytes (Heap.bytes?_intern (hs hsound) s)
  · exact fun h ↦ absurd trivial h

end MiniLua.Binary
