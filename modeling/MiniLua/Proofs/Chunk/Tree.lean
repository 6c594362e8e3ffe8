import Mathlib.Data.Finset.Card
import Mathlib.Data.Finset.Range
import MiniLua.Chunk.Reader
import MiniLua.Chunk.Writer
import MiniLua.Proofs.Memory.Heap

/-! Prototypes with those nested in them, and what binary chunks ask of them. -/

namespace MiniLua

/-- `P` holds of a prototype and of all those nested in it, of which no more than `depth` lie in one
another. -/
def Heap.Tree (h : Heap) (P : Prototype → Prop) : Nat → Nat → Prop
  | 0, _ => False
  | depth + 1, i =>
    ∃ p, h.protos[i]? = some p ∧ P p ∧ ∀ j ∈ p.protos.toList, h.Tree P depth j

namespace Heap.Tree

variable {h h' : Heap} {P Q : Prototype → Prop} {d e i : Nat}

theorem imp (ht : h.Tree P d i) (hPQ : ∀ p, P p → Q p) : h.Tree Q d i := by
  induction d generalizing i with
  | zero => exact ht.elim
  | succ d ih =>
    obtain ⟨p, hp, hP, hchildren⟩ := ht
    exact ⟨p, hp, hPQ p hP, fun j hj ↦ ih (hchildren j hj)⟩

theorem and (hP : h.Tree P d i) (hQ : h.Tree Q e i) : h.Tree (fun p ↦ P p ∧ Q p) d i := by
  induction d generalizing e i with
  | zero => exact hP.elim
  | succ d ih =>
    cases e with
    | zero => exact hQ.elim
    | succ e =>
      obtain ⟨p, hp, hPp, hPchildren⟩ := hP
      obtain ⟨q, hq, hQq, hQchildren⟩ := hQ
      obtain rfl : p = q := Option.some.inj (hp.symm.trans hq)
      exact ⟨p, hp, ⟨hPp, hQq⟩, fun j hj ↦ ih (hPchildren j hj) (hQchildren j hj)⟩

theorem mono (ht : h.Tree P d i) (hde : d ≤ e) : h.Tree P e i := by
  induction d generalizing e i with
  | zero => exact ht.elim
  | succ d ih =>
    obtain ⟨p, hp, hP, hchildren⟩ := ht
    obtain ⟨e, rfl⟩ := Nat.exists_eq_succ_of_ne_zero (by omega : e ≠ 0)
    exact ⟨p, hp, hP, fun j hj ↦ ih (hchildren j hj) (by omega)⟩

theorem later (ht : h.Tree P d i) (hext : h.Extends h') : h'.Tree P d i := by
  induction d generalizing i with
  | zero => exact ht.elim
  | succ d ih =>
    obtain ⟨p, hp, hP, hchildren⟩ := ht
    exact ⟨p, hext.protos hp, hP, fun j hj ↦ ih (hchildren j hj)⟩

theorem lt (ht : h.Tree P d i) : i < h.protos.size := by
  cases d with
  | zero => exact ht.elim
  | succ d =>
    obtain ⟨p, hp, -⟩ := ht
    exact (Array.getElem?_eq_some_iff.mp hp).1

/-- If one more level admits no more prototypes, no number of levels does. -/
theorem of_stable {k : Nat} (hk : ∀ i, h.Tree P (k + 1) i → h.Tree P k i) (ht : h.Tree P d i) :
    h.Tree P k i := by
  induction d generalizing i with
  | zero => exact ht.elim
  | succ d ih =>
    obtain ⟨p, hp, hP, hchildren⟩ := ht
    exact hk i ⟨p, hp, hP, fun j hj ↦ ih (hchildren j hj)⟩

open Classical in
/-- The prototypes whose trees have at most `k` levels. -/
noncomputable def handles (h : Heap) (P : Prototype → Prop) (k : Nat) : Finset Nat :=
  (Finset.range h.protos.size).filter fun i ↦ h.Tree P k i

theorem mem_handles {k : Nat} : i ∈ handles h P k ↔ h.Tree P k i := by
  simp only [handles, Finset.mem_filter, Finset.mem_range]
  exact ⟨And.right, fun ht ↦ ⟨ht.lt, ht⟩⟩

/-- A tree has no more levels than there are prototypes. -/
theorem of_any (ht : h.Tree P d i) : h.Tree P h.protos.size i := by
  have hgrow (k : Nat) : k ≤ (handles h P k).card ∨ ∀ i, h.Tree P d i → h.Tree P k i := by
    induction k with
    | zero => exact .inl (Nat.zero_le _)
    | succ k ih =>
      obtain hcard | hall := ih
      · by_cases hstable : ∀ i, h.Tree P (k + 1) i → h.Tree P k i
        · exact .inr fun i hi ↦ (of_stable hstable hi).mono (Nat.le_succ k)
        · obtain ⟨j, hj⟩ := not_forall.mp hstable
          obtain ⟨hj, hnot⟩ := Classical.not_imp.mp hj
          refine .inl (Nat.lt_of_le_of_lt hcard (Finset.card_lt_card ?_))
          refine Finset.ssubset_iff_of_subset (fun i hi ↦ ?_) |>.mpr
            ⟨j, mem_handles.mpr hj, fun h ↦ hnot (mem_handles.mp h)⟩
          exact mem_handles.mpr ((mem_handles.mp hi).mono (Nat.le_succ k))
      · exact .inr fun i hi ↦ (hall i hi).mono (Nat.le_succ k)
  obtain hcard | hall := hgrow h.protos.size
  · have hfull : handles h P h.protos.size = Finset.range h.protos.size :=
      Finset.eq_of_subset_of_card_le (fun j hj ↦ Finset.mem_range.mpr (mem_handles.mp hj).lt)
        (by rwa [Finset.card_range])
    exact mem_handles.mp (hfull ▸ Finset.mem_range.mpr ht.lt)
  · exact hall i ht

end Heap.Tree

namespace Capture

/-- The slot or upvalue a capture names. -/
def index : Capture → Nat
  | cell n | upvalue n => n

end Capture

/-- Bounds on the parts of a prototype. -/
structure Limits where
  name : Nat
  string : Nat
  constants : Nat
  code : Nat
  captures : Nat
  protos : Nat

namespace Binary

/-- Lengths and counts have four bytes. -/
def maxLength : Nat := 0x100000000

/-- The length of a string constant; zero for other values. -/
def constantLength (h : Heap) (v : Value) : Nat := ((h.stringOf? v).map List.length).getD 0

end Binary

namespace Limits

open Binary Reader

/-- What a reader takes. -/
def loader : Limits := ⟨maxName, maxString, maxConstants, maxCode, maxCaptures, maxProtos⟩

/-- What fits the fields of the format. -/
def format : Limits :=
  ⟨maxLength - 1, maxLength - 1, maxLength - 1, maxLength - 1, maxLength - 1, maxLength - 1⟩

end Limits

namespace Prototype

open Binary

structure Within (l : Limits) (h : Heap) (p : Prototype) : Prop where
  name : (Bytes.ofText p.name).length ≤ l.name
  constants : p.constants.size ≤ l.constants
  strings : ∀ v ∈ p.constants.toList, constantLength h v ≤ l.string
  code : p.code.size ≤ l.code
  captures : p.captures.size ≤ l.captures
  protos : p.protos.size ≤ l.protos

theorem Within.mono {l l' : Limits} {h : Heap} {p : Prototype} (hp : p.Within l h)
    (name : l.name ≤ l'.name) (string : l.string ≤ l'.string)
    (constants : l.constants ≤ l'.constants) (code : l.code ≤ l'.code)
    (captures : l.captures ≤ l'.captures) (protos : l.protos ≤ l'.protos) : p.Within l' h where
  name := hp.name.trans name
  constants := hp.constants.trans constants
  strings v hv := (hp.strings v hv).trans string
  code := hp.code.trans code
  captures := hp.captures.trans captures
  protos := hp.protos.trans protos

theorem Within.format_of_loader {h : Heap} {p : Prototype} (hp : p.Within .loader h) :
    p.Within .format h :=
  hp.mono (by decide) (by decide) (by decide) (by decide) (by decide) (by decide)

/-- A prototype of the form that binary chunks are for, whatever its size. -/
structure Encodable (h : Heap) (p : Prototype) : Prop where
  opcodes : ∀ i ∈ p.code.toList, i.opcode?.isSome
  constants : ∀ v ∈ p.constants.toList, ∃ bytes, constantBytes h v = .ok bytes
  arity : p.arity < 0x100
  cells : p.cellCount < 0x10000
  arity_le : p.arity ≤ p.cellCount
  lines : p.lines.size = 0 ∨ p.lines.size = p.code.size

/-- Lines and captures are numbers of a fixed width. -/
structure Narrow (p : Prototype) : Prop where
  lines : ∀ n ∈ p.lines.toList, n < maxLength
  captures : ∀ c ∈ p.captures.toList, c.index < 0x10000

end Prototype

end MiniLua
