import MiniLua.Proofs.Names.Carries

/-!
Which variable has its cell in which slot at an instruction, whichever way the code came there. A
declaration that is executed gives its variable a new cell, and takes the slot from the variable that
had it before.
-/

namespace MiniLua

/-- Variables, each with the slot that holds its latest cell. -/
abbrev Known := List (Variable × Nat)

namespace Known

/-- The variable gets a new cell, in this slot. -/
def bind (K : Known) (v : Variable) (slot : Nat) : Known :=
  (v, slot) :: K.filter fun q ↦ q.1 ≠ v ∧ q.2 ≠ slot

/-- What is known behind an instruction that stands for this occurrence. -/
def after (K : Known) (x : Nat) : Option Occurrence → Known
  | some ⟨_, .bind v⟩ => K.bind v x
  | _ => K

end Known

/-- A variable of a numeric loop itself, which no program can name. -/
def Variable.Hidden (v : Variable) : Prop :=
  v.name = "(for index)" ∨ v.name = "(for limit)" ∨ v.name = "(for step)"

/-- The three variables of a numeric loop are in the slots from `x` on. -/
def Known.Counts (K : Known) (x : Nat) : Prop :=
  ∀ i < 3, ∃ v : Variable, v.Hidden ∧ (v, x + i) ∈ K

namespace Opcode

/-- Instructions that count in the variables of a numeric loop. -/
def counts : Opcode → Bool
  | .forPrep | .forTest | .forStep => true
  | _ => false

/-- Instructions after which the code may go on elsewhere. -/
def jumps : Opcode → Bool
  | .jump | .jumpIfFalse | .jumpIfFalseKeep | .jumpIfTrueKeep => true
  | _ => false

end Opcode

/-- What the instruction stands for, if these are the occurrences in the function's text. -/
def Prototype.occurrence? (p : Prototype) (all : List Occurrence) (pc : Nat) : Option Occurrence :=
  (p.code[pc]?).bind fun i ↦ if i.touches then all[(p.touching pc).length]? else none

/-- The variables in scope are the compiler's locals, and known. -/
def Scope.Held (K : Known) (scope : Scope) (locals : List Local) : Prop :=
  List.Forall₂ (fun v l ↦ v.name = l.name ∧ (v, l.cell) ∈ K) scope locals

namespace Home

variable (U : Home)

/-- The instruction reaches the innermost variable of the name where its latest cell is. -/
def Accesses (K : Known) (scope : Scope) (route : Route) (name : String) (i : Instruction)
    (op : Opcode) : Prop :=
  match scope.find name with
  | some v => op = route.cell ∧ (v, i.x) ∈ K
  | none =>
    op = route.upvalue ∧ Captured U.proto.captures U.outer name i.x ∨
      op = route.global ∧ ∀ level ∈ U.outer, resolve? level.locals name = none

/-- The instruction does what it stands for. -/
def Means (K : Known) (pc : Nat) (i : Instruction) (op : Opcode) : Occurrence → Prop
  | ⟨_, .bind _⟩ => op = .newCell
  | ⟨scope, .read name⟩ => U.Accesses K scope .load name i op
  | ⟨scope, .write name⟩ => U.Accesses K scope .store name i op
  | ⟨scope, .make f⟩ => op = .closure ∧ ∃ locals, f.At U locals pc (pc + 1) ∧ scope.Held K locals

/-- For `k` steps, whichever way they go, instructions do what they stand for. -/
def Minds (all : List Occurrence) : Nat → Nat → Known → Prop
  | 0, _, _ => True
  | k + 1, pc, K =>
    ∃ i op, U.proto.code[pc]? = some i ∧ i.opcode? = some op ∧
      (op.touches → ∃ o, U.proto.occurrence? all pc = some o ∧ U.Means K pc i op o) ∧
      (op.counts → K.Counts i.x) ∧
      (op ≠ .jump → op ≠ .ret →
        Minds all k (pc + 1) (K.after i.x (U.proto.occurrence? all pc))) ∧
      (op.jumps → Minds all k i.x K)

end Home

section

variable {K K' : Known} {scope : Scope} {locals : List Local}

theorem Known.bind_subset (h : K ⊆ K') (v : Variable) (slot : Nat) :
    K.bind v slot ⊆ K'.bind v slot :=
  List.cons_subset_cons _ fun _ hq ↦
    List.mem_filter.mpr ⟨h (List.mem_filter.mp hq).1, (List.mem_filter.mp hq).2⟩

theorem Known.after_subset (h : K ⊆ K') (x : Nat) (o : Option Occurrence) :
    K.after x o ⊆ K'.after x o := by
  unfold after
  split
  · exact Known.bind_subset h _ _
  · exact h

/-- What is known of other variables in other slots stays known. -/
theorem Known.subset_bind {v : Variable} {slot : Nat} (h : K ⊆ K')
    (hother : ∀ q ∈ K, q.1 ≠ v ∧ q.2 ≠ slot) : K ⊆ K'.bind v slot := fun q hq ↦
  List.mem_cons_of_mem _ (List.mem_filter.mpr ⟨h hq, decide_eq_true (hother q hq)⟩)

theorem Known.Counts.mono {x : Nat} (hx : K.Counts x) (h : K ⊆ K') : K'.Counts x := fun i hi ↦
  let ⟨v, hv, hmem⟩ := hx i hi
  ⟨v, hv, h hmem⟩

theorem Known.counts_of_mem {x i j k : Nat} (hindex : (⟨"(for index)", i⟩, x) ∈ K)
    (hlimit : (⟨"(for limit)", j⟩, x + 1) ∈ K) (hstep : (⟨"(for step)", k⟩, x + 2) ∈ K) :
    K.Counts x
  | 0, _ => ⟨_, .inl rfl, hindex⟩
  | 1, _ => ⟨_, .inr (.inl rfl), hlimit⟩
  | 2, _ => ⟨_, .inr (.inr rfl), hstep⟩

theorem Scope.Held.mono (hscope : scope.Held K locals) (h : K ⊆ K') : scope.Held K' locals :=
  List.Forall₂.imp (fun _ _ hv ↦ ⟨hv.1, h hv.2⟩) hscope

theorem Scope.Held.find_some (hscope : scope.Held K locals) {name : String} {cell : Nat}
    (hname : resolve? locals name = some cell) : ∃ v, scope.find name = some v ∧ (v, cell) ∈ K := by
  induction hscope with
  | nil => cases hname
  | @cons v l scope locals hv _ ih =>
    simp only [resolve?, Scope.find, List.find?_cons, hv.1] at ih hname ⊢
    cases hl : l.name == name with
    | true =>
      rw [hl] at hname
      obtain rfl : l.cell = cell := Option.some.inj hname
      exact ⟨v, rfl, hv.2⟩
    | false =>
      rw [hl] at hname
      exact ih hname

theorem Scope.Held.find_none (hscope : scope.Held K locals) {name : String}
    (hname : resolve? locals name = none) : scope.find name = none := by
  induction hscope with
  | nil => rfl
  | @cons v l scope locals hv _ ih =>
    simp only [resolve?, Scope.find, List.find?_cons, hv.1] at ih hname ⊢
    cases hl : l.name == name with
    | true =>
      rw [hl] at hname
      cases hname
    | false =>
      rw [hl] at hname
      exact ih hname

end

namespace Home

variable {U : Home} {all : List Occurrence} {K K' : Known} {k pc : Nat}

theorem Accesses.mono {scope : Scope} {route : Route} {name : String} {i : Instruction} {op : Opcode}
    (ha : U.Accesses K scope route name i op) (h : K ⊆ K') :
    U.Accesses K' scope route name i op := by
  unfold Accesses at ha ⊢
  split at ha
  · exact ⟨ha.1, h ha.2⟩
  · exact ha

theorem Means.mono {i : Instruction} {op : Opcode} {o : Occurrence} (hm : U.Means K pc i op o)
    (h : K ⊆ K') : U.Means K' pc i op o := by
  obtain ⟨scope, m⟩ := o
  cases m with
  | bind => exact hm
  | read | write => exact Accesses.mono hm h
  | make f =>
    obtain ⟨hop, locals, hf, hheld⟩ := hm
    exact ⟨hop, locals, hf, hheld.mono h⟩

theorem Minds.mono (hm : U.Minds all k pc K) (h : K ⊆ K') : U.Minds all k pc K' := by
  induction k generalizing pc K K' with
  | zero => trivial
  | succ k ih =>
    obtain ⟨i, op, hi, hop, htouches, hcounts, hfalls, hjumps⟩ := hm
    refine ⟨i, op, hi, hop, fun ht ↦ ?_, fun hc ↦ (hcounts hc).mono h,
      fun hjump hret ↦ ih (hfalls hjump hret) (Known.after_subset h _ _), fun hj ↦ ih (hjumps hj) h⟩
    obtain ⟨o, ho, hmeans⟩ := htouches ht
    exact ⟨o, ho, hmeans.mono h⟩

theorem Minds.le {j : Nat} (hm : U.Minds all k pc K) (hj : j ≤ k) : U.Minds all j pc K := by
  induction j generalizing k pc K with
  | zero => trivial
  | succ j ih =>
    obtain ⟨k, rfl⟩ := Nat.exists_eq_succ_of_ne_zero (by omega : k ≠ 0)
    obtain ⟨i, op, hi, hop, htouches, hcounts, hfalls, hjumps⟩ := hm
    have hj : j ≤ k := by omega
    exact ⟨i, op, hi, hop, htouches, hcounts, fun hjump hret ↦ ih (hfalls hjump hret) hj,
      fun hjumps' ↦ ih (hjumps hjumps') hj⟩

/-- However the code goes on. -/
theorem next_of_minds (hm : ∀ k, U.Minds all k pc K) :
    ∃ i op, U.proto.code[pc]? = some i ∧ i.opcode? = some op ∧
      (op.touches → ∃ o, U.proto.occurrence? all pc = some o ∧ U.Means K pc i op o) ∧
      (op.counts → K.Counts i.x) ∧
      (op ≠ .jump → op ≠ .ret →
        ∀ k, U.Minds all k (pc + 1) (K.after i.x (U.proto.occurrence? all pc))) ∧
      (op.jumps → ∀ k, U.Minds all k i.x K) := by
  obtain ⟨i, op, hi, hop, htouches, hcounts, -, -⟩ := hm 1
  refine ⟨i, op, hi, hop, htouches, hcounts, fun hjump hret k ↦ ?_, fun hj k ↦ ?_⟩
  all_goals
    obtain ⟨i', op', hi', hop', -, -, hfalls, hjumps⟩ := hm (k + 1)
    obtain rfl : i = i' := Option.some.inj (hi.symm.trans hi')
    obtain rfl : op = op' := Option.some.inj (hop.symm.trans hop')
  · exact hfalls hjump hret
  · exact hjumps hj

end Home

end MiniLua
