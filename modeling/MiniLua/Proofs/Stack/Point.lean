import Mathlib.Data.List.Forall2
import MiniLua.Proofs.Calls.Reach

/-!
How high the operand stack of a function is at each of its instructions, and what else its code
relies on: which operands are tables and which cell slots hold a cell.
-/

namespace MiniLua

namespace Instruction

variable (i : Instruction)

/-- How many values an instruction removes, a multi result aside. -/
@[simp] def drops : Opcode → Nat
  | .setCell | .newCell | .setUpvalue | .setGlobal | .self | .neg | .not | .len
  | .jumpIfFalse | .jumpIfFalseKeep | .jumpIfTrueKeep => 1
  | .getIndex | .initIndex | .add | .sub | .mul | .div | .mod | .pow | .concat
  | .eq | .ne | .lt | .le | .gt | .ge => 2
  | .setIndex => 3
  | .pop | .ret => i.a.toNat
  | .call => i.a.toNat + 1
  | .loadNil | .loadTrue | .loadFalse | .loadConst | .getCell | .getUpvalue | .getGlobal
  | .newTable | .setList | .jump | .forPrep | .forTest | .forStep | .varargs | .closure => 0

/-- What an instruction pushes, a multi result aside: which values are new tables. -/
@[simp] def gives : Opcode → List Bool
  | .loadTrue | .loadFalse | .loadConst | .getCell | .getUpvalue | .getGlobal | .getIndex
  | .add | .sub | .mul | .div | .mod | .pow | .concat | .eq | .ne | .lt | .le | .gt | .ge
  | .neg | .not | .len | .forTest | .closure => [false]
  | .newTable => [true]
  | .self => [false, false]
  | .loadNil => List.replicate i.a.toNat false
  | .call => List.replicate (i.c.toNat - 1) false
  | .varargs => List.replicate (i.a.toNat - 1) false
  | .setCell | .newCell | .setUpvalue | .setGlobal | .setIndex | .initIndex | .setList | .jump
  | .jumpIfFalse | .jumpIfFalseKeep | .jumpIfTrueKeep | .pop | .forPrep | .forStep | .ret => []

/-- Whether an instruction leaves a multi result on top. -/
@[simp] def opens (i : Instruction) : Opcode → Bool
  | .call => i.c == 0
  | .varargs => i.a == 0
  | _ => false

/-- Whether an instruction takes a multi result. -/
@[simp] def closes (i : Instruction) : Opcode → Bool
  | .call | .ret => i.b != 0
  | .setList => true
  | _ => false

theorem takes_eq_takes_zero (multi : Nat) {op : Opcode} (hop : i.opcode? = some op) :
    i.takes multi = i.takes 0 + if i.closes op then multi else 0 := by
  unfold takes
  rw [hop]
  cases op <;> simp [closes]
  case setList => omega
  all_goals split <;> omega

end Instruction

namespace Prototype

variable (p : Prototype)

/-- How many operands lie on the stack before an instruction, found in one pass over the code:
nothing is there behind a jump or a return. -/
def height : Nat → Nat
  | 0 => 0
  | pc + 1 =>
    match p.code[pc]? with
    | none => 0
    | some i =>
      match i.opcode? with
      | none | some .jump | some .ret => 0
      | some op => height pc - i.drops op + (i.gives op).length

/-- Whether a multi result lies above the operands: the instruction before left it. -/
def multi : Nat → Bool
  | 0 => false
  | pc + 1 =>
    match p.code[pc]? with
    | none => false
    | some i => (i.opcode?.map i.opens).getD false

end Prototype

/-- What is known at an instruction: the operands, the top first, and whether each is sure to be a
table; cell slots that hold a cell; and whether a multi result lies above. -/
structure Point where
  slots : List Bool
  cells : List Nat
  multi : Bool

/-- Numbers, strings and truth values, which no heap is needed for. -/
def Value.Plain : Value → Prop
  | table _ | closure _ | native _ => False
  | _ => True

namespace Point

/-- The point behind an instruction that goes on to the next. -/
@[simp] def after (P : Point) (i : Instruction) (op : Opcode) : Point where
  slots := i.gives op ++ P.slots.drop (i.drops op)
  cells := if op = .newCell then i.x :: P.cells else P.cells
  multi := i.opens op

/-- The point at the target of a jump. -/
@[simp] def jumped (P : Point) : Opcode → Option Point
  | .jump | .jumpIfFalseKeep | .jumpIfTrueKeep => some P
  | .jumpIfFalse => some ⟨P.slots.drop 1, P.cells, P.multi⟩
  | _ => none

/-- A capture that can be made at the point. -/
def Supplies (P : Point) (p : Prototype) : Capture → Prop
  | .cell n => n ∈ P.cells
  | .upvalue n => n < p.captures.size

/-- What an instruction asks of its operands. -/
@[simp] def Admits (P : Point) (p : Prototype) (h : Heap) (i : Instruction) : Opcode → Prop
  | .loadConst | .getGlobal | .setGlobal | .self =>
    ∃ v, p.constants[i.x]? = some v ∧ v.Plain
  | .getCell | .setCell => i.x ∈ P.cells
  | .newCell => i.x < p.cellCount
  | .getUpvalue | .setUpvalue => i.x < p.captures.size
  | .setList => P.slots.head? = some true
  | .forPrep | .forTest | .forStep => i.x ∈ P.cells ∧ i.x + 1 ∈ P.cells ∧ i.x + 2 ∈ P.cells
  | .closure => ∃ k q, p.protos[i.x]? = some k ∧ h.protos[k]? = some q ∧
      ∀ c ∈ q.captures, P.Supplies p c
  | _ => True

/-- A point at which no more is known. -/
structure Weaker (P Q : Point) : Prop where
  slots : List.Forall₂ (fun a b ↦ a = true → b = true) P.slots Q.slots
  cells : P.cells ⊆ Q.cells
  multi : P.multi = Q.multi

variable {P Q : Point}

theorem Weaker.refl (P : Point) : P.Weaker P :=
  ⟨List.forall₂_same.mpr fun _ _ h ↦ h, fun _ h ↦ h, rfl⟩

theorem Weaker.ofCells {S : List Bool} {C C' : List Nat} (h : C ⊆ C') (multi : Bool) :
    Weaker ⟨S, C, multi⟩ ⟨S, C', multi⟩ := ⟨List.forall₂_same.mpr fun _ _ h ↦ h, h, rfl⟩

theorem Weaker.after (h : P.Weaker Q) (i : Instruction) (op : Opcode) :
    (P.after i op).Weaker (Q.after i op) where
  slots := List.rel_append (List.forall₂_same.mpr fun _ _ h ↦ h) (List.forall₂_drop _ h.slots)
  cells := by
    simp only [Point.after]
    split
    · exact List.cons_subset_cons _ h.cells
    · exact h.cells
  multi := rfl

theorem Weaker.jumped (h : P.Weaker Q) {op : Opcode} {Q' : Point} (hQ : Q.jumped op = some Q') :
    ∃ P', P.jumped op = some P' ∧ P'.Weaker Q' := by
  cases op <;> cases hQ
  case jumpIfFalse => exact ⟨_, rfl, List.forall₂_drop _ h.slots, h.cells, h.multi⟩
  all_goals exact ⟨_, rfl, h⟩

theorem Weaker.admits (h : P.Weaker Q) {p : Prototype} {heap later : Heap} {i : Instruction}
    {op : Opcode} (hadmits : P.Admits p heap i op)
    (hprotos : ∀ {n : Nat} {q}, heap.protos[n]? = some q → later.protos[n]? = some q) :
    Q.Admits p later i op := by
  cases op
  case getCell | setCell => exact h.cells hadmits
  case forPrep | forTest | forStep =>
    exact ⟨h.cells hadmits.1, h.cells hadmits.2.1, h.cells hadmits.2.2⟩
  case setList =>
    have hslots := h.slots
    obtain ⟨S, C, multi⟩ := P
    obtain ⟨S', C', multi'⟩ := Q
    obtain _ | ⟨a, S⟩ := S
    · cases hadmits
    · obtain rfl : a = true := Option.some.inj hadmits
      obtain ⟨b, S', hab, -, rfl⟩ := List.forall₂_cons_left_iff.mp hslots
      exact congrArg some (hab rfl)
  case closure =>
    obtain ⟨k, q, hk, hq, hsupplies⟩ := hadmits
    refine ⟨k, q, hk, hprotos hq, fun c hc ↦ ?_⟩
    have hc := hsupplies c hc
    cases c with
    | cell n => exact h.cells hc
    | upvalue n => exact hc
  all_goals exact hadmits

end Point

/-- The point has the height and the multi result of the place. -/
structure Prototype.Stands (p : Prototype) (pc : Nat) (P : Point) : Prop where
  height : P.slots.length = p.height pc
  multi : P.multi = p.multi pc

theorem Prototype.Stands.after {p : Prototype} {pc : Nat} {P : Point} (h : p.Stands pc P)
    {i : Instruction} {op : Opcode} (hi : p.code[pc]? = some i) (hop : i.opcode? = some op)
    (hjump : op ≠ .jump) (hret : op ≠ .ret) : p.Stands (pc + 1) (P.after i op) := by
  constructor
  · have hlength : (P.after i op).slots.length =
        p.height pc - i.drops op + (i.gives op).length := by
      simp only [Point.after, List.length_append, List.length_drop, h.height]
      omega
    rw [hlength, Prototype.height]
    simp only [hi, hop]
  · simp [Prototype.multi, hi, hop, Point.after]

/-- Nothing lies on the stack behind a jump or a return. -/
theorem Prototype.stands_behind {p : Prototype} {pc : Nat} {i : Instruction} {op : Opcode}
    (hi : p.code[pc]? = some i) (hop : i.opcode? = some op) (h : op = .jump ∨ op = .ret)
    (cells : List Nat) : p.Stands (pc + 1) ⟨[], cells, false⟩ := by
  obtain rfl | rfl := h
  · constructor <;> simp [Prototype.height, Prototype.multi, hi, hop, Instruction.opens]
  · constructor <;> simp [Prototype.height, Prototype.multi, hi, hop, Instruction.opens]

section

variable (p : Prototype) (h : Heap)

/-- What an instruction needs is there for `k` steps from the point on, whichever way they go. -/
def Safe : Nat → Nat → Point → Prop
  | 0, _, _ => True
  | k + 1, pc, P =>
    p.Stands pc P ∧ ∃ i op, p.code[pc]? = some i ∧ i.opcode? = some op ∧
      i.takes 0 ≤ P.slots.length ∧ P.multi = i.closes op ∧ P.Admits p h i op ∧
      (op ≠ .jump → op ≠ .ret → Safe k (pc + 1) (P.after i op)) ∧
      ∀ P', P.jumped op = some P' → Safe k i.x P'

variable {p h} {k pc : Nat} {P : Point}

namespace Safe

theorem weaken {Q : Point} {later : Heap} (hsafe : Safe p h k pc P) (hQ : P.Weaker Q)
    (hprotos : ∀ {n : Nat} {q}, h.protos[n]? = some q → later.protos[n]? = some q) :
    Safe p later k pc Q := by
  induction k generalizing pc P Q with
  | zero => trivial
  | succ k ih =>
    obtain ⟨hstands, i, op, hi, hop, htakes, hmulti, hadmits, hfalls, hjumps⟩ := hsafe
    have hlength := List.Forall₂.length_eq hQ.slots
    refine ⟨⟨hlength.symm.trans hstands.height, hQ.multi.symm.trans hstands.multi⟩, i, op, hi, hop,
      hlength ▸ htakes, hQ.multi.symm.trans hmulti, hQ.admits hadmits hprotos,
      fun hjump hret ↦ ih (hfalls hjump hret) (hQ.after i op), fun Q' hQ' ↦ ?_⟩
    obtain ⟨P', hP', hless⟩ := hQ.jumped hQ'
    exact ih (hjumps P' hP') hless

theorem mono {j : Nat} (hsafe : Safe p h k pc P) (hj : j ≤ k) : Safe p h j pc P := by
  induction j generalizing k pc P with
  | zero => trivial
  | succ j ih =>
    obtain ⟨k, rfl⟩ := Nat.exists_eq_succ_of_ne_zero (by omega : k ≠ 0)
    obtain ⟨hstands, i, op, hi, hop, htakes, hmulti, hadmits, hfalls, hjumps⟩ := hsafe
    have hj : j ≤ k := by omega
    exact ⟨hstands, i, op, hi, hop, htakes, hmulti, hadmits,
      fun hjump hret ↦ ih (hfalls hjump hret) hj, fun P' hP' ↦ ih (hjumps P' hP') hj⟩

end Safe

variable (p h) in
/-- What an instruction needs is there from the point on. -/
def Sound (pc : Nat) (P : Point) : Prop := ∀ k, Safe p h k pc P

namespace Sound

theorem later {h' : Heap} (hsound : Sound p h pc P)
    (hprotos : ∀ {n : Nat} {q}, h.protos[n]? = some q → h'.protos[n]? = some q) :
    Sound p h' pc P := fun k ↦ (hsound k).weaken (.refl P) hprotos

/-- The next instruction has what it needs, and so have those it goes on to. -/
theorem next (hsound : Sound p h pc P) :
    p.Stands pc P ∧ ∃ i op, p.code[pc]? = some i ∧ i.opcode? = some op ∧
      i.takes 0 ≤ P.slots.length ∧ P.multi = i.closes op ∧ P.Admits p h i op ∧
      (op ≠ .jump → op ≠ .ret → Sound p h (pc + 1) (P.after i op)) ∧
      ∀ P', P.jumped op = some P' → Sound p h i.x P' := by
  obtain ⟨hstands, i, op, hi, hop, htakes, hmulti, hadmits, -, -⟩ := hsound 1
  refine ⟨hstands, i, op, hi, hop, htakes, hmulti, hadmits, fun hjump hret k ↦ ?_,
    fun P' hP' k ↦ ?_⟩
  all_goals
    obtain ⟨-, i', op', hi', hop', -, -, -, hfalls, hjumps⟩ := hsound (k + 1)
    obtain rfl : i = i' := Option.some.inj (hi.symm.trans hi')
    obtain rfl : op = op' := Option.some.inj (hop.symm.trans hop')
  · exact hfalls hjump hret
  · exact hjumps P' hP'

end Sound

end

end MiniLua
