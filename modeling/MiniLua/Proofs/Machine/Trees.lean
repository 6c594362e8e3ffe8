import MiniLua.Proofs.Machine.Code

/-!
Loading leaves what was there alone, and the code it makes is a tree of its own. Prototypes are
stored after those nested in them, so a tree occupies the stretch of handles that ends with its root.
-/

namespace MiniLua

open Effects

/-- Items one after another from `low` up to `high`, where `S start i` says that `i` and what belongs
to it begin at `start`. -/
def Row (S : Nat → Nat → Prop) : Nat → List Nat → Nat → Prop
  | low, [], high => low = high
  | low, i :: rest, high => S low i ∧ Row S (i + 1) rest high

namespace Row

variable {S T : Nat → Nat → Prop} {low mid high : Nat} {is js : List Nat}

theorem imp (h : Row S low is high) (hST : ∀ low i, S low i → T low i) : Row T low is high := by
  induction is generalizing low with
  | nil => exact h
  | cons i rest ih => exact ⟨hST _ _ h.1, ih h.2⟩

theorem snoc {i : Nat} (h : Row S low is mid) (hi : S mid i) : Row S low (is ++ [i]) (i + 1) := by
  induction is generalizing low with
  | nil =>
    obtain rfl : low = mid := h
    exact ⟨hi, rfl⟩
  | cons j rest ih => exact ⟨h.1, ih h.2⟩

end Row

/-- An array of which everything was kept was appended to. -/
theorem Kept.exists_append {α : Type} {a b : Array α} (h : Kept a b) : ∃ more, b = a ++ more := by
  have hsize : a.size ≤ b.size := by
    by_contra hlt
    have hlast := h (Array.getElem?_eq_getElem (show b.size < a.size by omega))
    rw [Array.getElem?_eq_none (Nat.le_refl _)] at hlast
    cases hlast
  refine ⟨b.extract a.size, Array.ext_getElem? fun i ↦ ?_⟩
  by_cases hi : i < a.size
  · rw [Array.getElem?_append_left hi, Array.getElem?_eq_getElem hi]
    exact h (Array.getElem?_eq_getElem hi)
  · rw [Array.getElem?_append_right (by omega), Array.getElem?_extract, Nat.min_self,
      show a.size + (i - a.size) = i by omega]
    split
    · rfl
    · exact Array.getElem?_eq_none (by omega)

namespace Heap

/-- The handles from `low` to `i` are those of `i` and of all nested under it, each after those under
it, and no more than `depth` lie in one another. -/
def Spans (h : Heap) : Nat → Nat → Nat → Prop
  | 0, _, _ => False
  | depth + 1, low, i => ∃ p, h.protos[i]? = some p ∧ Row (h.Spans depth) low p.protos.toList i

/-- The handles of a prototype and of all nested under it, one for each way to them; none if a
prototype is missing or more than `depth` lie in one another. -/
def handlesUnder (h : Heap) : Nat → Nat → Option (List Nat)
  | 0, _ => none
  | depth + 1, i => do
    let p ← h.protos[i]?
    let lists ← p.protos.toList.mapM (h.handlesUnder depth)
    return lists.flatten ++ [i]

variable {h h' : Heap} {d low high i : Nat} {is : List Nat}

theorem Spans.later (hi : h.Spans d low i) (hext : h.Extends h') : h'.Spans d low i := by
  induction d generalizing low i with
  | zero => exact hi.elim
  | succ d ih =>
    obtain ⟨p, hp, hrow⟩ := hi
    exact ⟨p, hext.protos hp, hrow.imp fun _ _ hj ↦ ih hj⟩

theorem row_handlesUnder {S : Nat → Nat → Prop}
    (hS : ∀ low i, S low i → low ≤ i ∧ h.handlesUnder d i = some (List.range' low (i + 1 - low)))
    (hrow : Row S low is high) :
    low ≤ high ∧ ∃ lists, is.mapM (h.handlesUnder d) = some lists ∧
      lists.flatten = List.range' low (high - low) := by
  induction is generalizing low with
  | nil =>
    obtain rfl : low = high := hrow
    exact ⟨Nat.le_refl _, [], rfl, by simp⟩
  | cons i rest ih =>
    obtain ⟨hle, hunder⟩ := hS low i hrow.1
    obtain ⟨hle', lists, hlists, hflat⟩ := ih hrow.2
    refine ⟨by omega, _ :: lists, by rw [List.mapM_cons, hunder, hlists]; rfl, ?_⟩
    rw [List.flatten_cons, hflat, show high - low = (i + 1 - low) + (high - (i + 1)) by omega,
      ← List.range'_append_1, show low + (i + 1 - low) = i + 1 by omega]

/-- Walking the tree visits every handle of its stretch once. -/
theorem Spans.handlesUnder (hi : h.Spans d low i) :
    low ≤ i ∧ h.handlesUnder d i = some (List.range' low (i + 1 - low)) := by
  induction d generalizing low i with
  | zero => exact hi.elim
  | succ d ih =>
    obtain ⟨p, hp, hrow⟩ := hi
    obtain ⟨hle, lists, hlists, hflat⟩ := row_handlesUnder (fun _ _ hj ↦ ih hj) hrow
    refine ⟨hle, ?_⟩
    rw [Heap.handlesUnder, hp]
    dsimp only [bind, Option.bind]
    rw [hlists]
    dsimp only
    rw [hflat, show i + 1 - low = i - low + 1 by omega, List.range'_1_concat,
      show low + (i - low) = i by omega]
    rfl

end Heap

/-- The nested prototypes of the function under construction are those made since `low`. -/
def Assembly.Rooted (d low : Nat) (s : Assembly) : Prop :=
  Row (s.heap.Spans d) low s.current.protos.toList s.heap.protos.size

/-- The moves of the compiler nest what they make, and store it in the order of `Heap.Spans`. -/
theorem Emits.rooted {d n low : Nat} {s t : Assembly} (h : Emits d n s t)
    (hn : n ≤ s.current.code.size) (hs : s.Rooted d low) : t.Rooted d low := by
  induction h generalizing low with
  | refl => exact hs
  | trans hst _ ih ih' => exact ih' (hn.trans (hst.grows hn).size) (ih hn hs)
  | line | emit | patch | openScope | closeScope | leave => exact hs
  | number _ added =>
    rw [(Builder.addConstant_eq added).1]
    exact hs
  | string added =>
    rw [(Builder.addConstant_eq added).1]
    exact hs.imp fun _ _ hi ↦ hi.later (.intern _ _)
  | capture captured =>
    rw [(Builder.gains_of_captureFrom captured).1.same]
    exact hs
  | declare declared =>
    rw [(Builder.declare_eq declared).2.2]
    exact hs
  | looped _ ih =>
    rw [Assembly.exitLoop, Builder.exitLoop, Assembly.Rooted, Builder.protos_patchAll]
    exact ih hn hs
  | @nested d n s t name params variadic parent outer pos body few nests made inside around ih =>
    have hgrows := inside.grows (Nat.zero_le _)
    have hext := Heap.Extends.allocProto t.heap t.finished
    have hinner : t.Rooted d s.heap.protos.size := ih (Nat.zero_le _) rfl
    have hspan : (t.heap.allocProto t.finished).2.Spans (d + 1) s.heap.protos.size t.heap.protos.size :=
      ⟨t.finished, Heap.protos_allocProto _ _, hinner.imp fun _ _ hi ↦ hi.later hext⟩
    have henclosing := hgrows.enclosing
    rw [around] at henclosing
    obtain ⟨hparent, -⟩ := List.forall₂_cons.mp henclosing
    have hparent : parent.protos = s.current.protos := by rw [hparent.same]
    have hsize : (t.heap.allocProto t.finished).2.protos.size = t.heap.protos.size + 1 :=
      Array.size_push _
    have houter : Row ((t.heap.allocProto t.finished).2.Spans (d + 1)) low s.current.protos.toList
        s.heap.protos.size := hs.imp fun _ _ hi ↦ hi.later (hgrows.heap.trans hext)
    have hrow := houter.snoc hspan
    rw [← Array.toList_push, ← hparent, ← hsize] at hrow
    exact hrow

namespace Binary.Reader

/-- A reader of a prototype stores it last, behind all that is nested in it and nothing else. -/
def Roots (d : Nat) (m : Reader Nat) : Prop :=
  ∀ s i t, m s = .ok i t → t.heap.Spans d s.heap.protos.size i ∧ i + 1 = t.heap.protos.size

namespace Roots

variable {d : Nat} {m : Reader Nat}

theorem throw (e : LoadError) : Roots d (throw e) := fun _ _ _ h ↦ nomatch h

theorem bind {α : Type} {m : Reader α} {f : α → Reader Nat}
    [hm : Keeping (fun h k ↦ k.protos = h.protos) m] (hf : ∀ a, Roots d (f a)) :
    Roots d (m >>= f) := by
  intro s i t hrun
  obtain ⟨a, u, hfirst, hrest⟩ := bind_eq_ok.mp hrun
  have hsame := hm.keeps s
  rw [hfirst] at hsame
  have hroot := hf a u i t hrest
  rwa [show u.heap.protos = s.heap.protos from hsame] at hroot

/-- Prototypes that are read one after another lie one after another. -/
theorem many (hm : Roots d m) [hadds : Keeping Heap.Adds m] {n low : Nat} {found is : List Nat}
    {s t : Source} (h : many m n found s = .ok is t)
    (hfound : Row (s.heap.Spans d) low found.reverse s.heap.protos.size) :
    Row (t.heap.Spans d) low is t.heap.protos.size := by
  induction n generalizing found s with
  | zero =>
    cases h
    exact hfound
  | succ n ih =>
    obtain ⟨i, u, hitem, hrest⟩ := bind_eq_ok.mp h
    obtain ⟨hspan, hlast⟩ := hm s i u hitem
    have hext := hadds.keeps s
    rw [hitem] at hext
    refine ih hrest ?_
    rw [List.reverse_cons, ← hlast]
    exact (hfound.imp fun _ _ hj ↦ hj.later hext.toExtends).snoc hspan

/-- A prototype is stored behind those it nests. -/
theorem nesting (hm : Roots d m) [Keeping Heap.Adds m] (n : Nat) {p : List Nat → Prototype}
    (hp : ∀ is, (p is).protos = is.toArray) :
    Roots (d + 1) (Reader.many m n [] >>= fun is ↦ allocProto (p is)) := by
  intro s i t hrun
  obtain ⟨is, u, hmany, halloc⟩ := bind_eq_ok.mp hrun
  have hrow : Row (u.heap.Spans d) s.heap.protos.size is u.heap.protos.size := hm.many hmany rfl
  cases halloc
  refine ⟨⟨p is, Heap.protos_allocProto _ _, ?_⟩, (Array.size_push _).symm⟩
  rw [hp]
  exact hrow.imp fun _ _ hj ↦ hj.later (.allocProto _ _)

theorem proto (depth : Nat) : Roots depth (proto depth) := by
  induction depth with
  | zero => exact .throw _
  | succ depth ih =>
    -- nothing is stored on the way to the nested prototypes
    unfold Reader.proto
    repeat' first
      | exact .throw _
      | exact ih.nesting _ fun _ ↦ rfl
      | refine .bind fun _ ↦ ?_
      | split

theorem main : Roots (maxNesting + 1) main := by
  refine .bind fun found ↦ ?_
  split
  · exact .throw _
  · exact .proto _

end Roots

end Binary.Reader

namespace Loading

end Loading

end MiniLua
