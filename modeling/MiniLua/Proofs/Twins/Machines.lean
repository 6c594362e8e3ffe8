import MiniLua.Proofs.Twins.Programs

/-! Machines that correspond in everything: heaps, stacks, and what runs. -/

namespace MiniLua

open Effects

/-- Prototypes that agree, with constants related by `R` and nested prototypes by `S`. -/
structure Prototype.Twins (R : Value → Value → Prop) (S : Nat → Nat → Prop) (p q : Prototype) :
    Prop where
  name : q.name = p.name
  arity : q.arity = p.arity
  variadic : q.variadic = p.variadic
  cellCount : q.cellCount = p.cellCount
  code : q.code = p.code
  lines : q.lines = p.lines
  captures : q.captures = p.captures
  constants : List.Forall₂ R p.constants.toList q.constants.toList
  protos : List.Forall₂ S p.protos.toList q.protos.toList

theorem Prototype.Twins.mono {R R' : Value → Value → Prop} {S S' : Nat → Nat → Prop}
    {p q : Prototype} (h : p.Twins R S q) (hR : ∀ v w, R v w → R' v w)
    (hS : ∀ i j, S i j → S' i j) : p.Twins R' S' q :=
  { h with constants := h.constants.imp hR, protos := h.protos.imp hS }

namespace Heap

variable {n : Nat} {h h' k k' l : Heap}

/-- Prototypes that agree, with all that are nested in them. -/
def CodeTwins (n : Nat) (h h' : Heap) : Nat → Nat → Nat → Prop
  | 0, _, _ => False
  | depth + 1, i, j =>
    ∃ p q, h.protos[i]? = some p ∧ h'.protos[j]? = some q ∧
      p.Twins (h.Matches n h') (CodeTwins n h h' depth) q

/-- Handles stay good, and prototypes stay what they are. -/
structure Evolves (h k : Heap) : Prop extends h.Grows k where
  protos {i : Nat} {p : Prototype} : h.protos[i]? = some p → k.protos[i]? = some p

theorem Evolves.refl (h : Heap) : h.Evolves h := ⟨.refl h, id⟩

theorem Evolves.trans (g : h.Evolves k) (g' : k.Evolves l) : h.Evolves l :=
  ⟨g.toGrows.trans g'.toGrows, fun hp ↦ g'.protos (g.protos hp)⟩

theorem Retains.evolves (hk : h.Retains k) : h.Evolves k := ⟨hk.grows, fun hp ↦ hk.protos ▸ hp⟩

/-- Strings and prototypes are added, and nothing else changes. -/
structure Adds (h k : Heap) : Prop extends h.Extends k where
  tables : k.tables = h.tables
  closures : k.closures = h.closures
  cells : k.cells = h.cells

theorem Adds.refl (h : Heap) : h.Adds h := ⟨.refl h, rfl, rfl, rfl⟩

theorem Adds.trans (g : h.Adds k) (g' : k.Adds l) : h.Adds l :=
  ⟨g.toExtends.trans g'.toExtends, g'.tables.trans g.tables, g'.closures.trans g.closures,
    g'.cells.trans g.cells⟩

theorem Adds.intern (h : Heap) (s : Bytes) : h.Adds (h.intern s).2 :=
  ⟨.intern h s, rfl, rfl, rfl⟩

theorem Adds.allocProto (h : Heap) (p : Prototype) : h.Adds (h.allocProto p).2 :=
  ⟨.allocProto h p, rfl, rfl, rfl⟩

theorem Adds.evolves (g : h.Adds k) : h.Evolves k :=
  ⟨⟨g.bytes, Nat.le_of_eq (congrArg Array.size g.tables).symm,
    Nat.le_of_eq (congrArg Array.size g.closures).symm⟩, g.protos⟩

instance : Std.Refl Adds := ⟨.refl⟩

instance : IsTrans Heap Adds := ⟨fun _ _ _ ↦ .trans⟩

theorem Evolves.intern (h : Heap) (s : Bytes) : h.Evolves (h.intern s).2 := (Retains.intern h s).evolves

theorem Evolves.allocTable (h : Heap) (t : Table) : h.Evolves (h.allocTable t).2 :=
  ⟨⟨id, by simp [Heap.allocTable], Nat.le_refl _⟩, id⟩

theorem Evolves.allocClosure (h : Heap) (c : Closure) : h.Evolves (h.allocClosure c).2 :=
  ⟨⟨id, Nat.le_refl _, by simp [Heap.allocClosure]⟩, id⟩

theorem Evolves.allocCell (h : Heap) (v : Value) : h.Evolves (h.allocCell v).2 :=
  ⟨⟨id, Nat.le_refl _, Nat.le_refl _⟩, id⟩

theorem Evolves.setCell (h : Heap) (i : Nat) (v : Value) : h.Evolves (h.setCell i v) :=
  ⟨⟨id, Nat.le_refl _, Nat.le_refl _⟩, id⟩

theorem Evolves.modifyTable (h : Heap) (t : Nat) (f : Table → Table) :
    h.Evolves (h.modifyTable t f) :=
  ⟨⟨id, by simp [Heap.modifyTable], Nat.le_refl _⟩, id⟩

theorem CodeTwins.mono {d i j : Nat} (hij : h.CodeTwins n h' d i j) (g : h.Evolves k)
    (g' : h'.Evolves k') : k.CodeTwins n k' d i j := by
  induction d generalizing i j with
  | zero => exact hij.elim
  | succ d ih =>
    obtain ⟨p, q, hp, hq, hpq⟩ := hij
    exact ⟨p, q, g.protos hp, g'.protos hq,
      hpq.mono (fun _ _ hv ↦ hv.mono g.toGrows g'.toGrows) fun _ _ ↦ ih⟩

theorem CodeTwins.deeper {d i j : Nat} (hij : h.CodeTwins n h' d i j) (more : Nat) :
    h.CodeTwins n h' (d + more) i j := by
  induction d generalizing i j with
  | zero => exact hij.elim
  | succ d ih =>
    obtain ⟨p, q, hp, hq, hpq⟩ := hij
    rw [Nat.add_right_comm]
    exact ⟨p, q, hp, hq, hpq.mono (fun _ _ ↦ id) fun _ _ ↦ ih⟩

/-- Prototypes that agree, however deep they nest. -/
def SameCode (n : Nat) (h h' : Heap) (i j : Nat) : Prop := ∃ d, h.CodeTwins n h' d i j

theorem SameCode.mono {i j : Nat} (hij : h.SameCode n h' i j) (g : h.Evolves k)
    (g' : h'.Evolves k') : k.SameCode n k' i j := by
  obtain ⟨d, hd⟩ := hij
  exact ⟨d, hd.mono g g'⟩

/-- Prototypes that agree are stored in both heaps. -/
theorem SameCode.allocProto {p q : Prototype} (hpq : p.Twins (h.Matches n h') (h.SameCode n h') q) :
    (h.allocProto p).2.SameCode n (h'.allocProto q).2 (h.allocProto p).1
      (h'.allocProto q).1 := by
  have hdeep : ∃ d, List.Forall₂ (h.CodeTwins n h' d) p.protos.toList q.protos.toList := by
    have hprotos := hpq.protos
    generalize p.protos.toList = is, q.protos.toList = js at hprotos
    induction hprotos with
    | nil => exact ⟨0, .nil⟩
    | cons hij _ ih =>
      obtain ⟨d, hd⟩ := hij
      obtain ⟨e, he⟩ := ih
      refine ⟨d + e, .cons (hd.deeper e) (he.imp fun _ _ hk ↦ ?_)⟩
      rw [Nat.add_comm]
      exact hk.deeper d
  obtain ⟨d, hd⟩ := hdeep
  have g := (Adds.allocProto h p).evolves
  have g' := (Adds.allocProto h' q).evolves
  exact ⟨d + 1, p, q, protos_allocProto h p, protos_allocProto h' q, { hpq with
    constants := hpq.constants.imp fun _ _ hv ↦ hv.mono g.toGrows g'.toGrows
    protos := hd.imp fun _ _ hij ↦ hij.mono g g' }⟩

/-- Closures of prototypes that agree, with the same captured cells. -/
def ClosureTwins (n : Nat) (h h' : Heap) (c c' : Closure) : Prop :=
  h.SameCode n h' c.proto c'.proto ∧ c'.upvalues = c.upvalues

/-- Heaps that correspond in everything. -/
structure Mirrors (n : Nat) (h h' : Heap) : Prop extends h.Twins n h' where
  cells : List.Forall₂ (h.Matches n h') h.cells.toList h'.cells.toList
  code : List.Forall₂ (h.ClosureTwins n h') h.closures.toList h'.closures.toList

theorem ClosureTwins.mono {c c' : Closure} (hc : h.ClosureTwins n h' c c') (g : h.Evolves k)
    (g' : h'.Evolves k') : k.ClosureTwins n k' c c' := ⟨hc.1.mono g g', hc.2⟩

namespace Mirrors

variable (hh : h.Mirrors n h')

include hh

theorem cell (i : Nat) : h.Matches n h' (h.cell i) (h'.cell i) := by
  have hentry := forall₂_getElem? hh.cells i
  simp only [Array.getElem?_toList] at hentry
  rw [Heap.cell, Heap.cell, Array.getD_eq_getD_getElem?, Array.getD_eq_getD_getElem?]
  exact rel_getD hentry .nil

theorem cells_size : h.cells.size = h'.cells.size := by simpa using hh.cells.length_eq

theorem closure (c : Nat) : Option.Rel (fun c c' ↦ h.ClosureTwins n h' c c' ∧
    h.Matches n h' (.table c.env) (.table c'.env)) h.closures[c]? h'.closures[c]? := by
  have hcode := forall₂_getElem? hh.code c
  have henv := forall₂_getElem? hh.closures c
  simp only [Array.getElem?_toList] at hcode henv
  generalize h.closures[c]? = a, h'.closures[c]? = b at hcode henv
  cases hcode with
  | none => exact .none
  | some hcode =>
    cases henv with
    | some henv => exact .some ⟨hcode, henv⟩

omit hh in
/-- Heaps correspond if their contents do by an earlier correspondence. -/
theorem of_evolves (g : h.Evolves k) (g' : h'.Evolves k') (exact : k.strings.Exact)
    (exact' : k'.strings.Exact)
    (tables : List.Forall₂ (Table.Twins (h.Matches n h')) k.tables.toList k'.tables.toList)
    (closures : List.Forall₂ (fun c c' ↦ h.Matches n h' (.table c.env) (.table c'.env))
      k.closures.toList k'.closures.toList)
    (cells : List.Forall₂ (h.Matches n h') k.cells.toList k'.cells.toList)
    (code : List.Forall₂ (h.ClosureTwins n h') k.closures.toList k'.closures.toList) :
    k.Mirrors n k' := by
  have hmono {v w : Value} (hvw : h.Matches n h' v w) := hvw.mono g.toGrows g'.toGrows
  exact ⟨⟨exact, exact', tables.imp fun _ _ ht ↦ ht.mono fun _ _ ↦ hmono,
    closures.imp fun _ _ ↦ hmono⟩, cells.imp fun _ _ ↦ hmono, code.imp fun _ _ hc ↦ hc.mono g g'⟩

theorem intern (bytes : Bytes) : (h.intern bytes).2.Mirrors n (h'.intern bytes).2 :=
  of_evolves (.intern h bytes) (.intern h' bytes) (hh.exact.intern bytes) (hh.exact'.intern bytes)
    hh.tables hh.closures hh.cells hh.code

theorem setCell (i : Nat) {v v' : Value} (hv : h.Matches n h' v v') :
    (h.setCell i v).Mirrors n (h'.setCell i v') := by
  refine of_evolves (.setCell h i v) (.setCell h' i v') hh.exact hh.exact' hh.tables hh.closures ?_
    hh.code
  simp only [Heap.setCell, Array.toList_setIfInBounds]
  exact forall₂_set hh.cells i hv

theorem allocCell {v v' : Value} (hv : h.Matches n h' v v') :
    (h.allocCell v).2.Mirrors n (h'.allocCell v').2 ∧ (h'.allocCell v').1 = (h.allocCell v).1 := by
  refine ⟨of_evolves (.allocCell h v) (.allocCell h' v') hh.exact hh.exact' hh.tables hh.closures ?_
    hh.code, hh.cells_size.symm⟩
  simp only [Heap.allocCell, Array.toList_push]
  exact List.rel_append hh.cells (.cons hv .nil)

theorem allocTable {t t' : Table} (ht : t.Twins (h.Matches n h') t') :
    (h.allocTable t).2.Mirrors n (h'.allocTable t').2 ∧
      (h.allocTable t).2.Matches n (h'.allocTable t').2 (.table (h.allocTable t).1)
        (.table (h'.allocTable t').1) := by
  have hsize := hh.tables_size
  constructor
  · refine of_evolves (.allocTable h t) (.allocTable h' t') hh.exact hh.exact' ?_ hh.closures
      hh.cells hh.code
    simp only [Heap.allocTable, Array.toList_push]
    exact List.rel_append hh.tables (.cons ht .nil)
  · simp only [Heap.allocTable, hsize]
    apply Matches.table
    · simp only [Array.size_push]
      omega
    · simp only [Array.size_push]
      omega

theorem allocClosure {c c' : Closure} (hc : h.ClosureTwins n h' c c')
    (henv : h.Matches n h' (.table c.env) (.table c'.env)) :
    (h.allocClosure c).2.Mirrors n (h'.allocClosure c').2 ∧
      (h.allocClosure c).2.Matches n (h'.allocClosure c').2 (.closure (h.allocClosure c).1)
        (.closure (h'.allocClosure c').1) := by
  have hsize := hh.closures_size
  constructor
  · refine of_evolves (.allocClosure h c) (.allocClosure h' c') hh.exact hh.exact' hh.tables ?_
      hh.cells ?_
    · simp only [Heap.allocClosure, Array.toList_push]
      exact List.rel_append hh.closures (.cons henv .nil)
    · simp only [Heap.allocClosure, Array.toList_push]
      exact List.rel_append hh.code (.cons hc .nil)
  · simp only [Heap.allocClosure, hsize]
    apply Matches.closure
    · simp only [Array.size_push]
      omega
    · simp only [Array.size_push]
      omega

theorem modifyTable (t : Nat) {f f' : Table → Table}
    (hf : ∀ a b : Table, a.Twins (h.Matches n h') b → (f a).Twins (h.Matches n h') (f' b)) :
    (h.modifyTable t f).Mirrors n (h'.modifyTable t f') := by
  refine of_evolves (.modifyTable h t f) (.modifyTable h' t f') hh.exact hh.exact' ?_ hh.closures
    hh.cells hh.code
  simp only [Heap.modifyTable, Array.toList_modify]
  exact forall₂_modify hh.tables t hf

/-- Code that is added to both heaps changes nothing else. -/
theorem of_adds (g : h.Adds k) (g' : h'.Adds k') (exact : k.strings.Exact)
    (exact' : k'.strings.Exact) : k.Mirrors n k' := by
  refine of_evolves g.evolves g'.evolves exact exact' ?_ ?_ ?_ ?_
  · rw [g.tables, g'.tables]
    exact hh.tables
  · rw [g.closures, g'.closures]
    exact hh.closures
  · rw [g.cells, g'.cells]
    exact hh.cells
  · rw [g.closures, g'.closures]
    exact hh.code

end Mirrors

end Heap

/-- Memos with corresponding values. -/
inductive Memo.Twins (R : Value → Value → Prop) : Memo → Memo → Prop
  | nothing : Twins R .nothing .nothing
  | kept (stage : Nat) {vs vs' : List Value} (h : List.Forall₂ R vs vs') :
      Twins R (.kept stage vs) (.kept stage vs')
  | source (text : Bytes) (chunkName : String) (location : Option Location) {v v' : Value}
      (h : R v v') : Twins R (.source text v chunkName location) (.source text v' chunkName location)

/-- Frames at the same instruction of corresponding closures. -/
structure Frame.Twins (R : Value → Value → Prop) (f f' : Frame) : Prop where
  closure : R (.closure f.closure) (.closure f'.closure)
  ip : f'.ip = f.ip
  base : f'.base = f.base
  cells : f'.cells = f.cells
  varargs : List.Forall₂ R f.varargs f'.varargs
  expected : f'.expected = f.expected

/-- Calls of the same builtin. -/
structure NativeCall.Twins (R : Value → Value → Prop) (c c' : NativeCall) : Prop where
  native : c'.native = c.native
  name : c'.name = c.name
  base : c'.base = c.base
  argCount : c'.argCount = c.argCount
  expected : c'.expected = c.expected
  memo : c.memo.Twins R c'.memo

inductive Activation.Twins (R : Value → Value → Prop) : Activation → Activation → Prop
  | guest {f f' : Frame} (h : f.Twins R f') : Twins R (.guest f) (.guest f')
  | native {c c' : NativeCall} (h : c.Twins R c') : Twins R (.native c) (.native c')

section

variable {R S : Value → Value → Prop} (hRS : ∀ v w, R v w → S v w)

include hRS

theorem Memo.Twins.mono {m m' : Memo} (h : m.Twins R m') : m.Twins S m' := by
  cases h with
  | nothing => exact .nothing
  | kept stage h => exact .kept stage (h.imp hRS)
  | source text chunkName location h => exact .source text chunkName location (hRS _ _ h)

theorem Frame.Twins.mono {f f' : Frame} (h : f.Twins R f') : f.Twins S f' :=
  { h with closure := hRS _ _ h.closure, varargs := h.varargs.imp hRS }

theorem Activation.Twins.mono {a a' : Activation} (h : a.Twins R a') : a.Twins S a' := by
  cases h with
  | guest h => exact .guest (h.mono hRS)
  | native h => exact .native { h with memo := h.memo.mono hRS }

end

/-- Machines that correspond in everything. -/
structure State.Twins (n : Nat) (s s' : State) : Prop where
  heap : s.heap.Mirrors n s'.heap
  stack : List.Forall₂ (s.heap.Matches n s'.heap) s.stack.toList s'.stack.toList
  activations : List.Forall₂ (Activation.Twins (s.heap.Matches n s'.heap)) s.activations
    s'.activations
  globals : s.heap.Matches n s'.heap (.table s.globals) (.table s'.globals)
  stringMethods : s.heap.Matches n s'.heap (.table s.stringMethods) (.table s'.stringMethods)
  host : s'.host = s.host
  compiles : s'.compiles = s.compiles
  options : s'.options = s.options
  lastMulti : s'.lastMulti = s.lastMulti
  location : s'.location = s.location

/-- The heap of the second state is a later one. -/
def State.Evolves (s t : State) : Prop := s.heap.Evolves t.heap

instance : Std.Refl State.Evolves := ⟨fun _ ↦ .refl _⟩

instance : IsTrans State State.Evolves := ⟨fun _ _ _ ↦ .trans⟩

/-- Two programs do the same in machines that correspond. -/
abbrev Mirrored {α α' : Type} (n : Nat) (P : Heap → Heap → α → α' → Prop) (s s' : State) :
    EStateM.Result RuntimeError State α → EStateM.Result RuntimeError State α' → Prop :=
  Sync (RuntimeError.Alike n) (State.Twins n) State.Evolves (fun t t' ↦ P t.heap t'.heap) s s'

/-- Two programs do the same and return nothing that matters. -/
abbrev Together {α α' : Type} (n : Nat) (s s' : State) :
    EStateM.Result RuntimeError State α → EStateM.Result RuntimeError State α' → Prop :=
  Mirrored n (fun _ _ _ _ ↦ True) s s'

namespace State.Twins

variable {n : Nat} {s s' : State} (h : s.Twins n s')

include h

theorem stack_size : s'.stack.size = s.stack.size := by simpa using h.stack.length_eq.symm

/-- A later heap takes the place of the old one. -/
theorem withHeap {k k' : Heap} (hk : k.Mirrors n k') (g : s.heap.Evolves k)
    (g' : s'.heap.Evolves k') : State.Twins n { s with heap := k } { s' with heap := k' } := by
  have hmono : ∀ v w, s.heap.Matches n s'.heap v w → k.Matches n k' v w :=
    fun _ _ hvw ↦ hvw.mono g.toGrows g'.toGrows
  exact { h with
    heap := hk
    stack := h.stack.imp hmono
    activations := h.activations.imp fun _ _ ha ↦ ha.mono hmono
    globals := hmono _ _ h.globals
    stringMethods := hmono _ _ h.stringMethods }

theorem withStack {stack stack' : Array Value}
    (hstack : List.Forall₂ (s.heap.Matches n s'.heap) stack.toList stack'.toList) :
    State.Twins n { s with stack } { s' with stack := stack' } := { h with stack := hstack }

theorem withActivations {calls calls' : List Activation}
    (hcalls : List.Forall₂ (Activation.Twins (s.heap.Matches n s'.heap)) calls calls') :
    State.Twins n { s with activations := calls } { s' with activations := calls' } :=
  { h with activations := hcalls }

end State.Twins

end MiniLua
