import MiniLua.Memory.Heap

/-! Strings and prototypes are only ever added to a heap. -/

namespace MiniLua

/-- Looking a string up gives a handle of that string. -/
def StringPool.Sound (p : StringPool) : Prop := ∀ s n, p.find? s = some n → p.get? n = some s

namespace StringPool

variable {p : StringPool}

theorem sound_empty : StringPool.empty.Sound := by
  intro s n h
  simp [find?, StringPool.empty] at h

theorem get?_lt {n : Nat} {s : Bytes} (h : p.get? n = some s) : n < p.strings.size := by
  obtain ⟨hn, -⟩ := Array.getElem?_eq_some_iff.mp h
  exact hn

theorem get?_intern {n : Nat} {s : Bytes} (h : p.get? n = some s) (t : Bytes) :
    (p.intern t).2.get? n = some s := by
  unfold intern
  split
  · exact h
  · have hn := get?_lt h
    simp only [get?] at h ⊢
    rw [Array.getElem?_push_lt hn, ← h, Array.getElem?_eq_getElem hn]

theorem intern_of_new {t : Bytes} (h : p.find? t = none) :
    p.intern t = (p.strings.size, ⟨p.strings.push t, p.index.insert t p.strings.size⟩) := by
  simp only [intern, h]

theorem intern_of_known {t : Bytes} {n : Nat} (h : p.find? t = some n) : p.intern t = (n, p) := by
  simp only [intern, h]

theorem find?_insert (s t : Bytes) (strings : Array Bytes) (n : Nat) :
    (⟨strings, p.index.insert t n⟩ : StringPool).find? s =
      if s = t then some n else p.find? s := by
  simp only [find?, Std.TreeMap.getElem?_insert]
  by_cases hst : s = t
  · subst hst
    simp
  · rw [if_neg hst, if_neg]
    intro hcmp
    exact hst (Std.LawfulEqCmp.eq_of_compare hcmp).symm

theorem Sound.intern (hp : p.Sound) (t : Bytes) : (p.intern t).2.Sound := by
  intro s n h
  cases ht : p.find? t with
  | some m =>
    rw [intern_of_known ht] at h ⊢
    exact hp s n h
  | none =>
    have hnew := get?_intern (p := p) (t := t) (n := n) (s := s)
    rw [intern_of_new ht] at h hnew ⊢
    rw [find?_insert] at h
    split at h
    · next hst =>
      subst hst
      cases h
      exact Array.getElem?_push_size
    · exact hnew (hp s n h)

/-- An interned string is found under its handle. -/
theorem Sound.get?_intern_self (hp : p.Sound) (t : Bytes) :
    (p.intern t).2.get? (p.intern t).1 = some t := by
  cases ht : p.find? t with
  | some m =>
    rw [intern_of_known ht]
    exact hp t m ht
  | none =>
    rw [intern_of_new ht]
    exact Array.getElem?_push_size

end StringPool

namespace Heap

/-- What `h` holds of strings and prototypes is in `h'` under the same handles. -/
structure Extends (h h' : Heap) : Prop where
  bytes : ∀ {n s}, h.bytes? n = some s → h'.bytes? n = some s
  protos : ∀ {n : Nat} {p}, h.protos[n]? = some p → h'.protos[n]? = some p

namespace Extends

variable {h h' h'' : Heap}

theorem refl (h : Heap) : h.Extends h := ⟨id, id⟩

theorem trans (e : h.Extends h') (e' : h'.Extends h'') : h.Extends h'' :=
  ⟨fun hn ↦ e'.bytes (e.bytes hn), fun hn ↦ e'.protos (e.protos hn)⟩

theorem intern (h : Heap) (s : Bytes) : h.Extends (h.intern s).2 :=
  ⟨fun hn ↦ StringPool.get?_intern hn s, id⟩

theorem allocProto (h : Heap) (p : Prototype) : h.Extends (h.allocProto p).2 := by
  refine ⟨id, fun {n q} hn ↦ ?_⟩
  obtain ⟨hlt, -⟩ := Array.getElem?_eq_some_iff.mp hn
  simp only [Heap.allocProto]
  rw [Array.getElem?_push_lt hlt, ← hn, Array.getElem?_eq_getElem hlt]

end Extends

theorem protos_allocProto (h : Heap) (p : Prototype) :
    (h.allocProto p).2.protos[(h.allocProto p).1]? = some p := by
  simp only [Heap.allocProto, Array.getElem?_push_size]

/-- A prototype of the new heap is old or the new one. -/
theorem of_protos_allocProto {h : Heap} {p q : Prototype} {i : Nat}
    (hq : (h.allocProto p).2.protos[i]? = some q) : h.protos[i]? = some q ∨ q = p := by
  rw [Heap.allocProto, Array.getElem?_push] at hq
  split at hq
  · cases hq
    exact .inr rfl
  · exact .inl hq

theorem bytes?_intern {h : Heap} (hs : h.strings.Sound) (s : Bytes) :
    (h.intern s).2.bytes? (h.intern s).1 = some s := hs.get?_intern_self s

end Heap

end MiniLua
