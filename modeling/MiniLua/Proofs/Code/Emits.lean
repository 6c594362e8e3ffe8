import Mathlib.Data.List.Forall2
import Mathlib.Order.Nat
import MiniLua.Code.OfTree
import MiniLua.Proofs.Memory.Heap
import MiniLua.Proofs.Syntax.Nesting

/-!
What the compiler does, move by move, and what of a function under construction no move undoes.
-/

namespace MiniLua

def Value.IsNumber : Value → Prop
  | .int _ | .float _ => True
  | _ => False

/-- Makes every one of these jumps go to `target`. -/
def Builder.patchAll (b : Builder) (jumps : List Nat) (target : Nat) : Builder :=
  jumps.foldl (fun b at_ ↦ b.patch at_ target) b

/-- Leaves a loop: the jumps out of it go to the next instruction. -/
def Builder.exitLoop (b : Builder) : Builder :=
  Builder.patchAll { b with loops := b.loops.tail } (b.loops.headD []).reverse b.code.size

/-- The state in which the body of a loop begins. -/
def Assembly.enterLoop (s : Assembly) : Assembly :=
  { s with current := { s.current with loops := [] :: s.current.loops } }

/-- The state behind a loop. -/
def Assembly.exitLoop (s : Assembly) : Assembly := { s with current := s.current.exitLoop }

/-- The moves of the compiler. Functions made on the way nest no more than `d` deep, and the first
`n` instructions of the current one are left alone. -/
inductive Emits : Nat → Nat → Assembly → Assembly → Prop
  | refl {d n s} : Emits d n s s
  | trans {d n s t u} : Emits d n s t → Emits d n t u → Emits d n s u
  | line {d n s} (pos : Position) :
    Emits d n s { s with current := { s.current with line := pos.codeLine } }
  | emit {d n s} {i : Instruction} (valid : i.opcode?.isSome) :
    Emits d n s { s with current := s.current.emit i }
  | patch {d n s} {at_ target : Nat} (behind : n ≤ at_) :
    Emits d n s { s with current := s.current.patch at_ target }
  | number {d n s v i b} (number : v.IsNumber) (added : s.current.addConstant v = .ok (i, b)) :
    Emits d n s { s with current := b }
  | string {d n s bytes i b}
    (added : s.current.addConstant (.string (s.heap.intern bytes).1) = .ok (i, b)) :
    Emits d n s { s with heap := (s.heap.intern bytes).2, current := b }
  | capture {d n s name found b outer}
    (captured : s.current.captureFrom name s.enclosing = .ok (found, b, outer)) :
    Emits d n s { s with current := b, enclosing := outer }
  | declare {d n s name i b} (declared : s.current.declare name = .ok (i, b)) :
    Emits d n s { s with current := b }
  | openScope {d n s} : Emits d n s { s with current := s.current.openScope }
  | closeScope {d n s} : Emits d n s { s with current := s.current.closeScope }
  | leave {d n s exit i jumps outer} (behind : n ≤ exit)
    (emitted : s.current.code[exit]? = some i) (jump : i.op = Opcode.jump.byte)
    (inside : s.current.loops = jumps :: outer) :
    Emits d n s { s with current := { s.current with loops := (exit :: jumps) :: outer } }
  | looped {d n s t} (body : Emits d n s.enterLoop t) : Emits d n s t.exitLoop
  | nested {d n s t name params variadic parent outer} {pos : Position} {body : Block}
    (few : params.length ≤ 255) (nests : body.Nests d)
    (made : body.emit
      { s with
        current := .start name params variadic pos.codeLine
        enclosing := s.current :: s.enclosing } = .ok ⟨⟩ t)
    (inside : Emits d 0
      { s with
        current := .start name params variadic pos.codeLine
        enclosing := s.current :: s.enclosing } t)
    (around : t.enclosing = parent :: outer) :
    Emits (d + 1) n s { t with
      heap := (t.heap.allocProto (t.current.emit ⟨Opcode.ret.byte, 0, 0, 0⟩).toPrototype).2
      current := { parent with
        protos := parent.protos.push t.heap.protos.size
        line := pos.codeLine }
      enclosing := outer }

/-- What is in `a` is in `b` at the same place. -/
def Kept {α : Type} (a b : Array α) : Prop := ∀ ⦃i : Nat⦄ ⦃v⦄, a[i]? = some v → b[i]? = some v

namespace Kept

variable {α : Type} {a b c : Array α}

theorem refl (a : Array α) : Kept a a := fun _ _ h ↦ h

theorem trans (h : Kept a b) (h' : Kept b c) : Kept a c := fun _ _ hi ↦ h' (h hi)

theorem push (a : Array α) (v : α) : Kept a (a.push v) := by
  intro i w h
  obtain ⟨hlt, -⟩ := Array.getElem?_eq_some_iff.mp h
  rw [Array.getElem?_push_lt hlt, ← h, Array.getElem?_eq_getElem hlt]

end Kept

namespace Builder

variable {b b' : Builder}

theorem size_patch (at_ target : Nat) : (b.patch at_ target).code.size = b.code.size :=
  Array.size_modify

theorem getElem?_patch (at_ target i : Nat) :
    (b.patch at_ target).code[i]? =
      if at_ = i then (b.code[i]?).map fun j ↦ .wide j.op target else b.code[i]? :=
  Array.getElem?_modify

/-- Patches change the operands of these instructions and nothing else. -/
theorem patchAll_eq (b : Builder) (jumps : List Nat) (target : Nat) :
    ∃ code, b.patchAll jumps target = { b with code } ∧ code.size = b.code.size ∧
      (∀ i ∉ jumps, code[i]? = b.code[i]?) ∧
      ∀ i ∈ jumps, code[i]? = (b.code[i]?).map fun j ↦ .wide j.op target := by
  induction jumps generalizing b with
  | nil => exact ⟨b.code, rfl, rfl, fun _ _ ↦ rfl, by simp⟩
  | cons at_ jumps ih =>
    obtain ⟨code, heq, hsize, hout, hin⟩ := ih (b.patch at_ target)
    refine ⟨code, heq, hsize.trans (size_patch at_ target), fun i hi ↦ ?_, fun i hi ↦ ?_⟩
    · obtain ⟨hne, hi⟩ := not_or.mp (mt List.mem_cons.mpr hi)
      rw [hout i hi, getElem?_patch, if_neg (Ne.symm hne)]
    · by_cases hmem : i ∈ jumps
      · rw [hin i hmem, getElem?_patch]
        split
        · rw [Option.map_map]
          rfl
        · rfl
      · obtain rfl : i = at_ := (List.mem_cons.mp hi).resolve_right hmem
        rw [hout i hmem, getElem?_patch, if_pos rfl]

@[simp] theorem size_patchAll (b : Builder) (jumps : List Nat) (target : Nat) :
    (b.patchAll jumps target).code.size = b.code.size := by
  obtain ⟨code, heq, hsize, -⟩ := b.patchAll_eq jumps target
  rw [heq, hsize]

@[simp] theorem loops_patchAll (b : Builder) (jumps : List Nat) (target : Nat) :
    (b.patchAll jumps target).loops = b.loops := by
  obtain ⟨code, heq, -⟩ := b.patchAll_eq jumps target
  rw [heq]

@[simp] theorem locals_patchAll (b : Builder) (jumps : List Nat) (target : Nat) :
    (b.patchAll jumps target).locals = b.locals := by
  obtain ⟨code, heq, -⟩ := b.patchAll_eq jumps target
  rw [heq]

@[simp] theorem captures_patchAll (b : Builder) (jumps : List Nat) (target : Nat) :
    (b.patchAll jumps target).captures = b.captures := by
  obtain ⟨code, heq, -⟩ := b.patchAll_eq jumps target
  rw [heq]

@[simp] theorem protos_patchAll (b : Builder) (jumps : List Nat) (target : Nat) :
    (b.patchAll jumps target).protos = b.protos := by
  obtain ⟨code, heq, -⟩ := b.patchAll_eq jumps target
  rw [heq]

@[simp] theorem depth_patchAll (b : Builder) (jumps : List Nat) (target : Nat) :
    (b.patchAll jumps target).depth = b.depth := by
  obtain ⟨code, heq, -⟩ := b.patchAll_eq jumps target
  rw [heq]

/-- Adding a constant leaves all else as it was. -/
theorem addConstant_eq {v : Value} {i : Nat} (h : b.addConstant v = .ok (i, b')) :
    b' = { b with constants := b'.constants } ∧ Kept b.constants b'.constants ∧
      b'.constants[i]? = some v := by
  unfold addConstant at h
  split at h
  · next j hj =>
    cases h
    obtain ⟨hlt, heq, -⟩ := Array.findIdx?_eq_some_iff_getElem.mp hj
    exact ⟨rfl, .refl _, Array.getElem?_eq_some_iff.mpr ⟨hlt, by simpa using heq⟩⟩
  · split at h
    · cases h
      exact ⟨rfl, .push _ _, Array.getElem?_push_size⟩
    · cases h

theorem addCapture_eq {c : Capture} {i : Nat} (h : b.addCapture c = .ok (i, b')) :
    b' = { b with captures := b'.captures } ∧ Kept b.captures b'.captures ∧
      b'.captures[i]? = some c := by
  unfold addCapture at h
  split at h
  · next j hj =>
    cases h
    obtain ⟨hlt, heq, -⟩ := Array.findIdx?_eq_some_iff_getElem.mp hj
    exact ⟨rfl, .refl _, Array.getElem?_eq_some_iff.mpr ⟨hlt, by simpa using heq⟩⟩
  · split at h
    · cases h
      exact ⟨rfl, .push _ _, Array.getElem?_push_size⟩
    · cases h

/-- A function that only gained captures. -/
structure Gains (b b' : Builder) : Prop where
  same : b' = { b with captures := b'.captures }
  captures : Kept b.captures b'.captures

namespace Gains

theorem refl (b : Builder) : b.Gains b := ⟨rfl, .refl _⟩

theorem trans {b'' : Builder} (h : b.Gains b') (h' : b'.Gains b'') : b.Gains b'' := by
  refine ⟨?_, h.captures.trans h'.captures⟩
  rw [h'.same, h.same]

theorem of_addCapture {c : Capture} {i : Nat} (h : b.addCapture c = .ok (i, b')) : b.Gains b' :=
  ⟨(addCapture_eq h).1, (addCapture_eq h).2.1⟩

end Gains

theorem gains_refl (enclosing : List Builder) : List.Forall₂ Gains enclosing enclosing :=
  List.forall₂_same.mpr fun b _ ↦ .refl b

theorem gains_trans {xs ys zs : List Builder} (h : List.Forall₂ Gains xs ys)
    (h' : List.Forall₂ Gains ys zs) : List.Forall₂ Gains xs zs := by
  induction h generalizing zs with
  | nil => exact h'
  | cons hxy _ ih =>
    obtain ⟨hyz, htail⟩ | _ := h'
    exact .cons (hxy.trans ‹_›) (ih ‹_›)

/-- A capture is of the function around, or of what that one captures. -/
theorem captureFrom_eq_ok {name : String} {found : Option Nat} {parent : Builder}
    {rest outer : List Builder} (h : b.captureFrom name (parent :: rest) = .ok (found, b', outer)) :
    (∃ cell i, parent.resolve? name = some cell ∧ b.addCapture (.cell cell) = .ok (i, b') ∧
      found = some i ∧ outer = parent :: rest) ∨
    parent.resolve? name = none ∧ ∃ parent' rest',
      outer = parent' :: rest' ∧
      ((parent.captureFrom name rest = .ok (none, parent', rest') ∧ found = none ∧ b' = b) ∨
        ∃ n i, parent.captureFrom name rest = .ok (some n, parent', rest') ∧
          b.addCapture (.upvalue n) = .ok (i, b') ∧ found = some i) := by
  unfold captureFrom at h
  split at h
  · next cell hcell =>
    cases hadd : b.addCapture (.cell cell) with
    | error e =>
      rw [hadd] at h
      cases h
    | ok added =>
      rw [hadd] at h
      cases h
      exact .inl ⟨cell, added.1, hcell, hadd, rfl, rfl⟩
  · next hnone =>
    refine .inr ⟨hnone, ?_⟩
    cases hrest : parent.captureFrom name rest with
    | error e =>
      rw [hrest] at h
      cases h
    | ok result =>
      obtain ⟨found', parent', rest'⟩ := result
      rw [hrest] at h
      cases found' with
      | none =>
        cases h
        exact ⟨parent', rest', rfl, .inl ⟨rfl, rfl, rfl⟩⟩
      | some n =>
        change (b.addCapture (.upvalue n) >>= fun added ↦
          pure (some added.1, added.2, parent' :: rest')) = _ at h
        cases hadd : b.addCapture (.upvalue n) with
        | error e =>
          rw [hadd] at h
          cases h
        | ok added =>
          rw [hadd] at h
          cases h
          exact ⟨parent', rest', rfl, .inr ⟨n, added.1, rfl, hadd, rfl⟩⟩

theorem gains_of_captureFrom {name : String} {found : Option Nat} {enclosing outer : List Builder}
    (h : b.captureFrom name enclosing = .ok (found, b', outer)) :
    b.Gains b' ∧ List.Forall₂ Gains enclosing outer := by
  induction enclosing generalizing b b' found outer with
  | nil =>
    cases h
    exact ⟨.refl _, .nil⟩
  | cons parent rest ih =>
    obtain ⟨cell, i, -, hadd, -, rfl⟩ | ⟨-, parent', rest', rfl, hrest⟩ := captureFrom_eq_ok h
    · exact ⟨.of_addCapture hadd, gains_refl _⟩
    · obtain ⟨hrest, -, rfl⟩ | ⟨n, i, hrest, hadd, -⟩ := hrest
      · exact ⟨.refl _, .cons (ih hrest).1 (ih hrest).2⟩
      · exact ⟨.of_addCapture hadd, .cons (ih hrest).1 (ih hrest).2⟩

/-- Declaring a local touches locals and cells only. -/
theorem declare_eq {name : String} {i : Nat} (h : b.declare name = .ok (i, b')) :
    i = b.nextCell ∧ b.nextCell < maxIndex ∧
      b' = { b with
        locals := ⟨name, b.depth, b.nextCell⟩ :: b.locals
        nextCell := b.nextCell + 1
        cellCount := max b.cellCount (b.nextCell + 1) } := by
  unfold declare at h
  split at h
  · next hlt =>
    cases h
    exact ⟨rfl, hlt, rfl⟩
  · cases h

end Builder

/-- What no move undoes. Jumps out of the innermost loop are added to those that were there. -/
structure Grows (n : Nat) (s t : Assembly) : Prop where
  size : s.current.code.size ≤ t.current.code.size
  code : ∀ i < n, t.current.code[i]? = s.current.code[i]?
  constants : Kept s.current.constants t.current.constants
  captures : Kept s.current.captures t.current.captures
  protos : Kept s.current.protos t.current.protos
  cells : s.current.cellCount ≤ t.current.cellCount
  arity : t.current.arity = s.current.arity
  variadic : t.current.variadic = s.current.variadic
  loops : ∃ new, (∀ i ∈ new, n ≤ i ∧ i < t.current.code.size) ∧
    t.current.loops = s.current.loops.modifyHead (new ++ ·)
  heap : s.heap.Extends t.heap
  enclosing : List.Forall₂ Builder.Gains s.enclosing t.enclosing

namespace Grows

variable {n : Nat} {s t u : Assembly}

theorem refl (n : Nat) (s : Assembly) : Grows n s s where
  size := Nat.le_refl _
  code _ _ := rfl
  constants := .refl _
  captures := .refl _
  protos := .refl _
  cells := Nat.le_refl _
  arity := rfl
  variadic := rfl
  loops := ⟨[], by simp, by cases s.current.loops <;> rfl⟩
  heap := .refl _
  enclosing := Builder.gains_refl _

theorem trans (h : Grows n s t) (h' : Grows n t u) : Grows n s u where
  size := h.size.trans h'.size
  code i hi := (h'.code i hi).trans (h.code i hi)
  constants := h.constants.trans h'.constants
  captures := h.captures.trans h'.captures
  protos := h.protos.trans h'.protos
  cells := h.cells.trans h'.cells
  arity := h'.arity.trans h.arity
  variadic := h'.variadic.trans h.variadic
  loops := by
    obtain ⟨new, hnew, hloops⟩ := h.loops
    obtain ⟨new', hnew', hloops'⟩ := h'.loops
    refine ⟨new' ++ new, fun i hi ↦ ?_, ?_⟩
    · obtain hi | hi := List.mem_append.mp hi
      · exact hnew' i hi
      · exact ⟨(hnew i hi).1, (hnew i hi).2.trans_le h'.size⟩
    · rw [hloops', hloops]
      cases s.current.loops <;> simp
  heap := h.heap.trans h'.heap
  enclosing := Builder.gains_trans h.enclosing h'.enclosing

theorem of_gains {b : Builder} {outer : List Builder} (h : s.current.Gains b)
    (houter : List.Forall₂ Builder.Gains s.enclosing outer) :
    Grows n s { s with current := b, enclosing := outer } := by
  rw [h.same]
  exact { refl n s with captures := h.captures, enclosing := houter }

theorem of_constants {heap : Heap} {b : Builder} {v : Value} {i : Nat} (hheap : s.heap.Extends heap)
    (h : s.current.addConstant v = .ok (i, b)) : Grows n s { s with heap, current := b } := by
  obtain ⟨heq, hkept, -⟩ := Builder.addConstant_eq h
  rw [heq]
  exact { refl n s with constants := hkept, heap := hheap }

end Grows

theorem Emits.grows {d n : Nat} {s t : Assembly} (h : Emits d n s t)
    (hn : n ≤ s.current.code.size) : Grows n s t := by
  induction h with
  | refl => exact .refl _ _
  | trans _ _ ih ih' =>
    have hst := ih hn
    exact hst.trans (ih' (hn.trans hst.size))
  | line => exact { Grows.refl _ _ with }
  | @emit d n s i valid =>
    refine { Grows.refl n s with size := ?_, code := fun j hj ↦ ?_, loops := ?_ }
    · simp [Builder.emit]
    · simp only [Builder.emit]
      rw [Array.getElem?_push_lt (hj.trans_le hn), Array.getElem?_eq_getElem (hj.trans_le hn)]
    · exact ⟨[], by simp, by simp only [Builder.emit]; cases s.current.loops <;> rfl⟩
  | @patch d n s at_ target behind =>
    refine { Grows.refl n s with size := ?_, code := fun j hj ↦ ?_, loops := ?_ }
    · exact (Builder.size_patch at_ target).ge
    · rw [Builder.getElem?_patch, if_neg (by omega)]
    · exact ⟨[], by simp, by simp only [Builder.patch]; cases s.current.loops <;> rfl⟩
  | number _ added => exact .of_constants (.refl _) added
  | string added => exact .of_constants (.intern _ _) added
  | capture captured =>
    obtain ⟨hb, houter⟩ := Builder.gains_of_captureFrom captured
    exact .of_gains hb houter
  | declare declared =>
    obtain ⟨-, -, rfl⟩ := Builder.declare_eq declared
    exact { Grows.refl _ _ with cells := Nat.le_max_left _ _ }
  | openScope => exact { Grows.refl _ _ with }
  | closeScope => exact { Grows.refl _ _ with }
  | @leave d n s exit i jumps outer behind emitted _ inside =>
    have hlt := (Array.getElem?_eq_some_iff.mp emitted).1
    exact { Grows.refl n s with loops := ⟨[exit], by simp [behind, hlt], by simp [inside]⟩ }
  | @looped d n s t _ ih =>
    have hbody := ih hn
    obtain ⟨new, hnew, hloops⟩ := hbody.loops
    have hloops : t.current.loops = new :: s.current.loops := by
      simpa [Assembly.enterLoop] using hloops
    obtain ⟨code, heq, hsize, hout, -⟩ := Builder.patchAll_eq
      { t.current with loops := t.current.loops.tail } (t.current.loops.headD []).reverse
      t.current.code.size
    rw [Assembly.exitLoop, Builder.exitLoop, heq]
    refine { hbody with size := ?_, code := fun i hi ↦ ?_, loops := ?_ }
    · exact hbody.size.trans hsize.ge
    · refine (hout i fun hmem ↦ ?_).trans (hbody.code i hi)
      rw [hloops] at hmem
      have hbehind := (hnew i (List.mem_reverse.mp hmem)).1
      omega
    · refine ⟨[], by simp, ?_⟩
      rw [hloops]
      cases s.current.loops <;> rfl
  | @nested d n s t _ _ _ parent outer _ _ _ _ _ _ around ih =>
    have hbody := ih (Nat.zero_le _)
    have henclosing := hbody.enclosing
    rw [around] at henclosing
    obtain ⟨hparent, houter⟩ := List.forall₂_cons.mp henclosing
    let finished := (t.current.emit ⟨Opcode.ret.byte, 0, 0, 0⟩).toPrototype
    have hgains : Grows n s
        { t with heap := (t.heap.allocProto finished).2, current := parent, enclosing := outer } := by
      rw [hparent.same]
      exact { Grows.refl n s with
        captures := hparent.captures
        heap := hbody.heap.trans (.allocProto t.heap finished)
        enclosing := houter }
    exact { hgains with protos := hgains.protos.trans (.push _ _) }

end MiniLua
