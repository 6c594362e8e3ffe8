import MiniLua.Code.Compile
import MiniLua.Proofs.Twins.Machines

/-! The compiler does the same over two heaps that correspond. -/

namespace MiniLua

open Effects

theorem Pairing.findIdx? {R : Value → Value → Prop} (hR : Pairing R) {vs ws : List Value}
    (h : List.Forall₂ R vs ws) {v w : Value} (hv : R v w) :
    vs.findIdx? (· == v) = ws.findIdx? (· == w) := by
  induction h with
  | nil => rfl
  | cons hw _ ih =>
    have heq := hR.unique hw hv
    rw [List.findIdx?_cons, List.findIdx?_cons, ih, beq_eq_decide, beq_eq_decide, decide_eq_decide.mpr heq]

/-- Functions under construction that agree up to the handles of strings and prototypes. -/
inductive Builder.Twins (R : Value → Value → Prop) (S : Nat → Nat → Prop) (b : Builder) :
    Builder → Prop
  | mk {constants : Array Value} {protos : Array Nat}
      (hconstants : List.Forall₂ R b.constants.toList constants.toList)
      (hprotos : List.Forall₂ S b.protos.toList protos.toList) :
      Twins R S b { b with constants, protos }

namespace Builder.Twins

variable {R R' : Value → Value → Prop} {S S' : Nat → Nat → Prop} {b b' : Builder}

theorem mono (h : b.Twins R S b') (hR : ∀ v w, R v w → R' v w) (hS : ∀ i j, S i j → S' i j) :
    b.Twins R' S' b' := by
  cases h with
  | mk hconstants hprotos => exact .mk (hconstants.imp hR) (hprotos.imp hS)

theorem toPrototype (h : b.Twins R S b') : b.toPrototype.Twins R S b'.toPrototype := by
  cases h with
  | mk hconstants hprotos => exact ⟨rfl, rfl, rfl, rfl, rfl, rfl, rfl, hconstants, hprotos⟩

theorem addProto (h : b.Twins R S b') {i j : Nat} (hij : S i j) (line : Nat) :
    Twins R S { b with protos := b.protos.push i, line }
      { b' with protos := b'.protos.push j, line } := by
  cases h with
  | @mk constants protos hconstants hprotos =>
    refine .mk hconstants ?_
    simp only [Array.toList_push]
    exact List.rel_append hprotos (.cons hij .nil)

theorem addConstant (hR : Pairing R) (h : b.Twins R S b') {v v' : Value} (hv : R v v') :
    ExceptRel (· = ·) (fun x y ↦ x.1 = y.1 ∧ x.2.Twins R S y.2) (b.addConstant v)
      (b'.addConstant v') := by
  cases h with
  | @mk constants protos hconstants hprotos =>
    have hfind : b.constants.findIdx? (· == v) = constants.findIdx? (· == v') := by
      rw [← @Array.toArray_toList _ b.constants, ← @Array.toArray_toList _ constants,
        List.findIdx?_toArray, List.findIdx?_toArray, hR.findIdx? hconstants hv]
    have hsize : constants.size = b.constants.size := by simpa using hconstants.length_eq.symm
    unfold Builder.addConstant
    dsimp only
    rw [← hfind, hsize]
    cases b.constants.findIdx? (· == v) with
    | some i => exact .ok ⟨rfl, .mk hconstants hprotos⟩
    | none =>
      dsimp only
      split
      · refine .ok ⟨rfl, ?_⟩
        refine .mk ?_ hprotos
        simp only [Array.toList_push]
        exact List.rel_append hconstants (.cons hv .nil)
      · exact .error rfl

theorem addCapture (h : b.Twins R S b') (c : Capture) :
    ExceptRel (· = ·) (fun x y ↦ x.1 = y.1 ∧ x.2.Twins R S y.2) (b.addCapture c)
      (b'.addCapture c) := by
  cases h with
  | mk hconstants hprotos =>
    unfold Builder.addCapture
    dsimp only
    cases b.captures.findIdx? (· == c) with
    | some i => exact .ok ⟨rfl, .mk hconstants hprotos⟩
    | none =>
      dsimp only
      split
      · exact .ok ⟨rfl, .mk hconstants hprotos⟩
      · exact .error rfl

theorem declare (h : b.Twins R S b') (name : String) :
    ExceptRel (· = ·) (fun x y ↦ x.1 = y.1 ∧ x.2.Twins R S y.2) (b.declare name)
      (b'.declare name) := by
  cases h with
  | mk hconstants hprotos =>
    unfold Builder.declare
    dsimp only
    split
    · exact .ok ⟨rfl, .mk hconstants hprotos⟩
    · exact .error rfl

theorem resolve? (h : b.Twins R S b') (name : String) : b.resolve? name = b'.resolve? name := by
  cases h
  rfl

theorem captureFrom {outer outer' : List Builder} (h : b.Twins R S b')
    (houter : List.Forall₂ (Twins R S) outer outer') (name : String) :
    ExceptRel (· = ·)
      (fun x y ↦ x.1 = y.1 ∧ x.2.1.Twins R S y.2.1 ∧ List.Forall₂ (Twins R S) x.2.2 y.2.2)
      (b.captureFrom name outer) (b'.captureFrom name outer') := by
  induction houter generalizing b b' with
  | nil => exact .ok ⟨rfl, h, .nil⟩
  | @cons parent parent' rest rest' hparent hrest ih =>
    unfold Builder.captureFrom
    rw [← hparent.resolve? name]
    cases parent.resolve? name with
    | some cell =>
      dsimp only
      have hadd := h.addCapture (.cell cell)
      generalize b.addCapture (.cell cell) = r, b'.addCapture (.cell cell) = r' at hadd
      cases hadd with
      | error he => exact .error he
      | @ok x y hxy => exact .ok ⟨congrArg some hxy.1, hxy.2, .cons hparent hrest⟩
    | none =>
      dsimp only
      have hfound := ih hparent
      generalize parent.captureFrom name rest = r, parent'.captureFrom name rest' = r' at hfound
      cases hfound with
      | error he => exact .error he
      | @ok x y hxy =>
        obtain ⟨found, parent, rest⟩ := x
        obtain ⟨found', parent', rest'⟩ := y
        obtain ⟨hfound, hparent, hrest⟩ := hxy
        dsimp only at hfound hparent hrest
        subst hfound
        cases found with
        | none => exact .ok ⟨rfl, h, .cons hparent hrest⟩
        | some i =>
          have hadd := h.addCapture (.upvalue i)
          dsimp only [bind, Except.bind]
          generalize b.addCapture (.upvalue i) = r, b'.addCapture (.upvalue i) = r' at hadd
          cases hadd with
          | error he => exact .error he
          | @ok x y hxy => exact .ok ⟨congrArg some hxy.1, hxy.2, .cons hparent hrest⟩

end Builder.Twins

/-- Assemblies that agree up to the handles of strings and prototypes. -/
structure Assembly.Twins (n : Nat) (s s' : Assembly) : Prop where
  exact : s.heap.strings.Exact
  exact' : s'.heap.strings.Exact
  current : s.current.Twins (s.heap.Matches n s'.heap) (s.heap.SameCode n s'.heap) s'.current
  enclosing : List.Forall₂ (Builder.Twins (s.heap.Matches n s'.heap) (s.heap.SameCode n s'.heap))
    s.enclosing s'.enclosing
  label : s'.label = s.label

/-- The compiler only adds to the heap. -/
def Assembly.Adds (s t : Assembly) : Prop := s.heap.Adds t.heap

instance : Std.Refl Assembly.Adds := ⟨fun _ ↦ .refl _⟩

instance : IsTrans Assembly Assembly.Adds := ⟨fun _ _ _ ↦ .trans⟩

/-- A later heap takes the place of the old one. -/
theorem Assembly.Twins.withHeap {n : Nat} {s s' : Assembly} (h : s.Twins n s') {k k' : Heap}
    (g : s.heap.Adds k) (g' : s'.heap.Adds k') (hk : k.strings.Exact) (hk' : k'.strings.Exact) :
    Assembly.Twins n { s with heap := k } { s' with heap := k' } := by
  have hvalues : ∀ v w, s.heap.Matches n s'.heap v w → k.Matches n k' v w :=
    fun _ _ hv ↦ hv.mono g.evolves.toGrows g'.evolves.toGrows
  have hcode : ∀ i j, s.heap.SameCode n s'.heap i j → k.SameCode n k' i j :=
    fun _ _ hij ↦ hij.mono g.evolves g'.evolves
  exact ⟨hk, hk', h.current.mono hvalues hcode, h.enclosing.imp fun _ _ hb ↦ hb.mono hvalues hcode,
    h.label⟩

theorem Assembly.Twins.pairing {n : Nat} {s s' : Assembly} (h : s.Twins n s') :
    Pairing (s.heap.Matches n s'.heap) := Heap.pairing_matches h.exact h.exact'

namespace Emit

/-- Two programs of the compiler do the same over two heaps that correspond. -/
abbrev Mirrored {α α' : Type} (n : Nat) (P : Assembly → Assembly → α → α' → Prop)
    (s s' : Assembly) :
    EStateM.Result CompileError Assembly α → EStateM.Result CompileError Assembly α' → Prop :=
  Sync (fun _ _ ↦ Eq) (Assembly.Twins n) Assembly.Adds P s s'

/-- A program of the compiler that does the same over any two heaps that correspond. -/
class Uniform {α : Type} (m : Emit α) : Prop where
  run : ∀ {n : Nat} {s s' : Assembly}, s.Twins n s' → Mirrored n (fun _ _ ↦ Eq) s s' (m s) (m s')

variable {α β : Type}

instance (a : α) : Uniform (pure a : Emit α) := ⟨fun h ↦ .pure h rfl⟩

instance (e : CompileError) : Uniform (throw e : Emit α) := ⟨fun h ↦ .throw h rfl⟩

instance (f : CompileFault) (line : Nat) : Uniform (fault f line : Emit α) :=
  ⟨fun h ↦ .throw h rfl⟩

theorem Uniform.bind {m : Emit α} {f : α → Emit β} (hm : Uniform m) (hf : ∀ a, Uniform (f a)) :
    Uniform (m >>= f) :=
  ⟨fun h ↦ (hm.run h).bind fun a _ _ _ ht _ _ ha ↦ ha ▸ (hf a).run ht⟩

instance {m : Emit α} {f : α → Emit β} [hm : Uniform m] [hf : ∀ a, Uniform (f a)] :
    Uniform (m >>= f) := hm.bind hf

instance {m : Emit α} {f : α → β} [Uniform m] : Uniform (f <$> m) :=
  inferInstanceAs (Uniform (m >>= fun a ↦ pure (f a)))

instance {c : Prop} [Decidable c] {m m' : Emit α} [Uniform m] [Uniform m'] :
    Uniform (if c then m else m') := by
  split <;> infer_instance

instance {f : α → Emit PUnit} [∀ a, Uniform (f a)] (as : List α) : Uniform (as.forM f) := by
  induction as with
  | nil => exact inferInstanceAs (Uniform (pure ⟨⟩ : Emit PUnit))
  | cons a as ih => exact inferInstanceAs (Uniform (f a >>= fun _ ↦ as.forM f))

instance {f : α → Emit β} [∀ a, Uniform (f a)] (as : List α) : Uniform (as.mapM f) := by
  induction as with
  | nil => exact inferInstanceAs (Uniform (pure []))
  | cons a as ih =>
    rw [List.mapM_cons]
    infer_instance

theorem Uniform.build {f : Builder → Builder}
    (hf : ∀ {R S b b'}, Builder.Twins R S b b' → (f b).Twins R S (f b')) : Uniform (build f) where
  run h := .ok { h with current := hf h.current } (.refl _) (.refl _) rfl

theorem Uniform.inspect {f : Builder → α} (hf : ∀ {R S b b'}, Builder.Twins R S b b' → f b = f b') :
    Uniform (inspect f) where
  run h := .ok h (.refl _) (.refl _) (hf h.current)

theorem tryBuild_apply (f : Builder → Except CompileError (α × Builder)) (s : Assembly) :
    Emit.tryBuild f s = match f s.current with
      | .ok (a, b) => .ok a { s with current := b }
      | .error e => .error e s := by
  unfold Emit.tryBuild
  rw [bind_of_ok (show inspect f s = .ok (f s.current) s from rfl)]
  cases f s.current <;> rfl

/-- A step of the builders that may fail. -/
theorem Mirrored.tryBuild {n : Nat} {s s' : Assembly} (h : s.Twins n s')
    {f f' : Builder → Except CompileError (α × Builder)}
    (hf : ExceptRel (· = ·)
      (fun x y ↦ x.1 = y.1 ∧ x.2.Twins (s.heap.Matches n s'.heap) (s.heap.SameCode n s'.heap) y.2)
      (f s.current) (f' s'.current)) :
    Mirrored n (fun _ _ ↦ Eq) s s' (tryBuild f s) (tryBuild f' s') := by
  rw [tryBuild_apply, tryBuild_apply]
  generalize f s.current = r, f' s'.current = r' at hf
  cases hf with
  | error he => exact .error h (.refl _) (.refl _) he
  | ok hxy => exact .ok { h with current := hxy.2 } (.refl _) (.refl _) hxy.1

theorem uniform_constant {v : Value} (hv : v.handle? = none) : Uniform (constant v) :=
  ⟨fun h ↦ Mirrored.tryBuild h (h.current.addConstant h.pairing (.scalar hv))⟩

instance (bytes : Bytes) : Uniform (stringConstant bytes) where
  run {n s s'} h := by
    have hheap := h.withHeap (.intern s.heap bytes) (.intern s'.heap bytes) (h.exact.intern bytes)
      (h.exact'.intern bytes)
    have hvalue : (s.heap.intern bytes).2.Matches n (s'.heap.intern bytes).2
        (.string (s.heap.intern bytes).1) (.string (s'.heap.intern bytes).1) :=
      .string (Heap.bytes?_intern h.exact.sound bytes)
        (Heap.bytes?_intern h.exact'.sound bytes)
    refine Sync.bind (Q := fun t t' i j ↦ t.heap.Matches n t'.heap (.string i) (.string j))
      (.ok hheap (.intern _ _) (.intern _ _) hvalue) fun i j t t' ht _ _ hij ↦ ?_
    exact Mirrored.tryBuild ht (ht.current.addConstant ht.pairing hij)

instance (name : String) : Uniform (declare name) where
  run h := Mirrored.tryBuild h (h.current.declare name)

instance (name : String) : Uniform (binding name) where
  run {n s s'} h := by
    unfold binding
    rw [bind_apply, bind_apply, get_apply, get_apply]
    dsimp only
    rw [← h.current.resolve? name]
    cases s.current.resolve? name with
    | some cell => exact .pure h rfl
    | none =>
      dsimp only
      have hcapture := h.current.captureFrom h.enclosing name
      generalize s.current.captureFrom name s.enclosing = r,
        s'.current.captureFrom name s'.enclosing = r' at hcapture
      cases hcapture with
      | error he => exact .throw h he
      | ok hxy =>
        refine .ok { h with current := hxy.2.1, enclosing := hxy.2.2 } (.refl _) (.refl _) ?_
        rw [hxy.1]

instance (i : Instruction) : Uniform (build fun b ↦ b.emit i) :=
  .build fun ⟨hconstants, hprotos⟩ ↦ .mk hconstants hprotos

instance (p : Position) : Uniform (setLine p) :=
  .build fun ⟨hconstants, hprotos⟩ ↦ .mk hconstants hprotos

instance (o : Opcode) : Uniform (op o) := inferInstanceAs (Uniform (build _))

instance (o : Opcode) (a : Nat) : Uniform (opA o a) := inferInstanceAs (Uniform (build _))

instance (o : Opcode) (x : Nat) : Uniform (opX o x) := inferInstanceAs (Uniform (build _))

instance : Uniform here := .inspect fun ⟨_, _⟩ ↦ rfl

instance (o : Opcode) : Uniform (jump o) := by
  unfold jump
  infer_instance

instance : Uniform (inspect Builder.line) := .inspect fun ⟨_, _⟩ ↦ rfl

instance (at_ : Nat) : Uniform (land at_) := by
  have hpatch (target : Nat) : Uniform (build fun b ↦ b.patch at_ target) :=
    .build fun ⟨hconstants, hprotos⟩ ↦ .mk hconstants hprotos
  unfold land
  infer_instance

instance (jumps : List Nat) : Uniform (landAll jumps) :=
  inferInstanceAs (Uniform (jumps.forM land))

theorem uniform_loadConst {v : Value} (hv : v.handle? = none) : Uniform (loadConst v) := by
  have hconstant := uniform_constant hv
  unfold loadConst
  infer_instance

instance (i : Int64) : Uniform (loadConst (.int i)) := uniform_loadConst rfl

instance (s : String) : Uniform (textConstant s) := inferInstanceAs (Uniform (stringConstant _))

instance (o : Opcode) (bound n : Nat) : Uniform (repeated o bound n) := by
  induction bound generalizing n with
  | zero => exact inferInstanceAs (Uniform (pure ⟨⟩ : Emit Unit))
  | succ bound ih =>
    unfold repeated
    infer_instance

instance (n : Nat) : Uniform (nils n) := inferInstanceAs (Uniform (repeated _ _ _))

instance (n : Nat) : Uniform (pops n) := inferInstanceAs (Uniform (repeated _ _ _))

theorem Uniform.inScope {body : Emit Unit} (hbody : Uniform body) : Uniform (inScope body) := by
  have hopen : Uniform (Emit.build Builder.openScope) :=
    .build fun ⟨hconstants, hprotos⟩ ↦ .mk hconstants hprotos
  have hclose : Uniform (Emit.build Builder.closeScope) :=
    .build fun ⟨hconstants, hprotos⟩ ↦ .mk hconstants hprotos
  unfold Emit.inScope
  infer_instance

instance (body : Emit Unit) [hbody : Uniform body] : Uniform (inScope body) := hbody.inScope

instance (name : String) : Uniform (loadName name) := by
  have hbound (b : Binding) : Uniform (match b with
      | .cell n => opX .getCell n
      | .upvalue n => opX .getUpvalue n
      | .global => do opX .getGlobal (← textConstant name)) := by
    cases b <;> infer_instance
  exact inferInstanceAs (Uniform (binding name >>= _))

instance (name : String) : Uniform (storeName name) := by
  have hbound (b : Binding) : Uniform (match b with
      | .cell n => opX .setCell n
      | .upvalue n => opX .setUpvalue n
      | .global => do opX .setGlobal (← textConstant name)) := by
    cases b <;> infer_instance
  exact inferInstanceAs (Uniform (binding name >>= _))

instance (body : Emit Unit) [Uniform body] : Uniform (looped body) := by
  have henter : Uniform (build fun b ↦ { b with loops := [] :: b.loops }) :=
    .build fun ⟨hconstants, hprotos⟩ ↦ .mk hconstants hprotos
  have hjumps : Uniform (inspect fun b ↦ (b.loops.headD []).reverse) :=
    .inspect fun ⟨_, _⟩ ↦ rfl
  have hleave : Uniform (build fun b ↦ { b with loops := b.loops.tail }) :=
    .build fun ⟨hconstants, hprotos⟩ ↦ .mk hconstants hprotos
  unfold looped
  infer_instance

instance (line : Nat) : Uniform (leaveLoop line) := by
  have hloops : Uniform (inspect Builder.loops) := .inspect fun ⟨_, _⟩ ↦ rfl
  have hleave (loops : List (List Nat)) : Uniform (build fun b ↦ { b with loops }) :=
    .build fun ⟨hconstants, hprotos⟩ ↦ .mk hconstants hprotos
  have hexit (loops : List (List Nat)) : Uniform (match loops with
      | [] => fault .noLoop line
      | jumps :: outer => do
        let exit ← jump .jump
        build fun b ↦ { b with loops := (exit :: jumps) :: outer }) := by
    cases loops <;> infer_instance
  exact inferInstanceAs (Uniform (inspect Builder.loops >>= _))

instance (line : Nat) : Uniform (needVarargs line) := by
  have hvariadic : Uniform (inspect Builder.variadic) := .inspect fun ⟨_, _⟩ ↦ rfl
  unfold needVarargs
  infer_instance

instance (pushed : Nat) (want : Want) : Uniform (adjust pushed want) := by
  cases want <;> (unfold adjust; infer_instance)

instance (args : Nat) (multi : Bool) (want : Want) (pos : Position) :
    Uniform (emitCall args multi want pos) := by
  unfold emitCall
  cases want <;> infer_instance

instance (want : Want) (pos : Position) : Uniform (emitVarargs want pos) := by
  unfold emitVarargs
  cases want <;> infer_instance

/-- The function under construction is stored in both heaps. -/
theorem Mirrored.finish {α β : Type} {n : Nat} {s s' : Assembly}
    {P : Assembly → Assembly → α → β → Prop} (f : Nat → Emit α) (f' : Nat → Emit β)
    (h : s.Twins n s')
    (hf : ∀ {i j t t'}, t.Twins n t' → t.heap.SameCode n t'.heap i j →
      Mirrored n P t t' (f i t) (f' j t')) :
    Mirrored n P s s' ((do f (← allocProto (← inspect Builder.toPrototype))) s)
      ((do f' (← allocProto (← inspect Builder.toPrototype))) s') := by
  refine Sync.bind (Q := fun t t' p q ↦ p.Twins (t.heap.Matches n t'.heap)
    (t.heap.SameCode n t'.heap) q) (.ok h (.refl _) (.refl _) h.current.toPrototype)
    fun p q t t' h _ _ hpq ↦ ?_
  exact Sync.bind (Q := fun t t' i j ↦ t.heap.SameCode n t'.heap i j)
    (.ok (h.withHeap (.allocProto _ p) (.allocProto _ q) h.exact h.exact') (.allocProto _ _)
      (.allocProto _ _) (.allocProto hpq)) fun _ _ _ _ h _ _ hij ↦ hf h hij

/-- The function around the current one goes on. -/
theorem Mirrored.leave {n : Nat} {s s' : Assembly} (h : s.Twins n s') :
    Mirrored n (fun _ _ _ _ ↦ True) s s'
      ((modify fun s ↦ match s.enclosing with
        | parent :: outer => { s with current := parent, enclosing := outer }
        | [] => s : Emit PUnit) s)
      ((modify fun s ↦ match s.enclosing with
        | parent :: outer => { s with current := parent, enclosing := outer }
        | [] => s : Emit PUnit) s') := by
  rw [modify_apply, modify_apply]
  have henclosing := h.enclosing
  generalize s.enclosing = outer, s'.enclosing = outer' at henclosing
  cases henclosing with
  | nil => exact .ok h (.refl _) (.refl _) trivial
  | cons hparent houter =>
    exact .ok ⟨h.exact, h.exact', hparent, houter, h.label⟩ (.refl _) (.refl _) trivial

instance (name : String) (params : List String) (variadic : Bool) (line : Nat) (body : Emit Unit)
    [Uniform body] : Uniform (nested name params variadic line body) where
  run {n s s'} h := by
    have henter : Assembly.Twins n
        { s with
          current := .start name params variadic line
          enclosing := s.current :: s.enclosing }
        { s' with
          current := .start name params variadic line
          enclosing := s'.current :: s'.enclosing } :=
      ⟨h.exact, h.exact', .mk .nil .nil, .cons h.current h.enclosing, h.label⟩
    refine Sync.bind (Q := fun _ _ _ _ ↦ True) (.ok henter (.refl _) (.refl _) trivial)
      fun _ _ _ _ h _ _ _ ↦ (Uniform.run h).bind fun _ _ _ _ h _ _ _ ↦
        (Uniform.run h).bind fun _ _ t t' h _ _ _ ↦ ?_
    refine Mirrored.finish _ _ h fun {i j u u'} h hij ↦ ?_
    have hsize : Uniform (inspect fun b ↦ b.protos.size) :=
      .inspect fun ⟨_, hprotos⟩ ↦ by simpa using hprotos.length_eq
    refine (Mirrored.leave h).bind fun _ _ v v' h g g' _ ↦
      (Uniform.run h).bind fun index _ w w' h k k' hindex ↦ ?_
    subst hindex
    have hij := (hij.mono g.evolves g'.evolves).mono k.evolves k'.evolves
    have hpush : Assembly.Twins n
        { w with current := { w.current with protos := w.current.protos.push i, line } }
        { w' with current := { w'.current with protos := w'.current.protos.push j, line } } :=
      { h with current := h.current.addProto hij line }
    refine Sync.bind (Q := fun _ _ _ _ ↦ True) (.ok hpush (.refl _) (.refl _) trivial)
      fun _ _ _ _ h _ _ _ ↦ Uniform.run h

end Emit

open Emit

theorem handle?_negatedLiteral {o : UnaryOp} {e : Expr} {v : Value}
    (h : negatedLiteral? o e = some v) : v.handle? = none := by
  unfold negatedLiteral? at h
  split at h
  · obtain ⟨i, -, rfl⟩ := Option.map_eq_some_iff.mp h
    rfl
  · cases h
    rfl
  · cases h

mutual

theorem Expr.uniform : ∀ (e : Expr) (want : Want), Uniform (e.emit want)
  | .nil _, _ => inferInstanceAs (Uniform (opA _ _))
  | .bool true _, _ => inferInstanceAs (Uniform (op _))
  | .bool false _, _ => inferInstanceAs (Uniform (op _))
  | .int _ _, _ => inferInstanceAs (Uniform (loadConst _))
  | .float _ _, _ => uniform_loadConst rfl
  | .string s _, _ => by
    unfold Expr.emit
    infer_instance
  | .varargs _, _ => inferInstanceAs (Uniform (emitVarargs _ _))
  | .name _ _, _ => by
    unfold Expr.emit
    infer_instance
  | .index object key _, _ => by
    have hobject := object.uniform
    have hkey := key.uniform
    unfold Expr.emit
    infer_instance
  | .call callee args _, _ => by
    have hcallee := callee.uniform
    have hargs := uniform_exprs args
    unfold Expr.emit
    infer_instance
  | .method object _ args _, _ => by
    have hobject := object.uniform
    have hargs := uniform_exprs args
    unfold Expr.emit
    infer_instance
  | .function body, _ => by
    have hbody := body.uniform
    unfold Expr.emit
    infer_instance
  | .table fields _, _ => by
    have hfields := uniform_fields fields
    unfold Expr.emit
    infer_instance
  | .binary o lhs rhs _, _ => by
    have hlhs := lhs.uniform
    have hrhs := rhs.uniform
    unfold Expr.emit
    cases o.opcode? <;> infer_instance
  | .unary o operand _, _ => by
    have hoperand := operand.uniform
    unfold Expr.emit
    cases hliteral : negatedLiteral? o operand with
    | some v => exact uniform_loadConst (handle?_negatedLiteral hliteral)
    | none => infer_instance
  | .paren inner _, _ => by
    have hinner := inner.uniform
    unfold Expr.emit
    infer_instance

theorem uniform_exprs : ∀ (es : List Expr) (want : Want) (pushed : Nat),
    Uniform (emitExprs want pushed es)
  | [], _, _ => by
    unfold emitExprs
    infer_instance
  | e :: rest, want, pushed => by
    have he := e.uniform
    have hrest := uniform_exprs rest
    unfold emitExprs
    cases want <;> infer_instance

theorem uniform_fields : ∀ (fields : List Field) (next : Nat), Uniform (emitFields next fields)
  | [], _ => by
    unfold emitFields
    infer_instance
  | .item value :: rest, _ => by
    have hvalue := value.uniform
    have hrest := uniform_fields rest
    unfold emitFields
    infer_instance
  | .entry key value :: rest, _ => by
    have hkey := key.uniform
    have hvalue := value.uniform
    have hrest := uniform_fields rest
    unfold emitFields
    infer_instance

theorem FunctionBody.uniform : ∀ (body : FunctionBody) (name : Option String),
    Uniform (body.emit name)
  | .mk params variadic body pos, name => by
    have hbody := body.uniform
    have hrest (name : String) : Uniform (nested name params variadic pos.codeLine body.emit) :=
      inferInstance
    refine ⟨fun {n s s'} h ↦ ?_⟩
    unfold FunctionBody.emit
    dsimp only
    split
    · exact .throw h rfl
    · rw [bind_apply, bind_apply, get_apply, get_apply]
      dsimp only
      rw [h.label]
      exact Uniform.run h

theorem Block.uniform : ∀ b : Block, Uniform b.emit
  | .mk stmts _ => by
    have hstmts := uniform_stmts stmts
    unfold Block.emit
    infer_instance

theorem uniform_stmts : ∀ stmts : List Stmt, Uniform (emitStmts stmts)
  | [] => by
    unfold emitStmts
    infer_instance
  | stmt :: rest => by
    have hstmt := stmt.uniform
    have hrest := uniform_stmts rest
    unfold emitStmts
    infer_instance

theorem Stmt.uniform : ∀ stmt : Stmt, Uniform stmt.emit
  | .declare names values _ => by
    have hvalues := uniform_exprs values
    unfold Stmt.emit
    infer_instance
  | .declareFunction _ body _ => by
    have hbody := body.uniform
    unfold Stmt.emit
    infer_instance
  | .defineFunction name body _ => by
    have hbody := body.uniform
    have hpath (keys : List String) : Uniform (keys.forM fun key ↦ do
        opX .loadConst (← textConstant key)
        op .getIndex) := inferInstance
    have hlast (last : String) : Uniform (do
        opX .loadConst (← textConstant last)
        op .setIndex) := inferInstance
    unfold Stmt.emit
    dsimp only
    cases (name.fields ++ name.method.toList).getLast? <;> dsimp only <;> infer_instance
  | .assign targets values _ => by
    have hvalues := uniform_exprs values
    have htargets := uniform_targets targets
    unfold Stmt.emit
    infer_instance
  | .call call => by
    have hcall := call.uniform
    unfold Stmt.emit
    infer_instance
  | .block body => by
    have hbody := body.uniform
    unfold Stmt.emit
    infer_instance
  | .whileLoop cond body _ => by
    have hcond := cond.uniform
    have hbody := body.uniform
    unfold Stmt.emit
    infer_instance
  | .repeatLoop (.mk stmts _) cond _ => by
    have hcond := cond.uniform
    have hstmts := uniform_stmts stmts
    unfold Stmt.emit
    infer_instance
  | .branch branches otherwise _ => by
    have hbranches := uniform_branches branches
    have hotherwise := uniform_otherwise otherwise
    unfold Stmt.emit
    infer_instance
  | .numericFor var start limit step body _ => by
    have hstart := start.uniform
    have hlimit := limit.uniform
    have hstep := uniform_step step
    have hbody := body.uniform
    have hloop (base again exit : Nat) : Uniform (looped do
        inScope do
          let cell ← declare var
          opX .getCell base
          opX .newCell cell
          body.emit
        opX .forStep base
        opX .jump again
        land exit) := inferInstance
    unfold Stmt.emit
    refine .bind inferInstance fun _ ↦ .inScope (.bind inferInstance fun _ ↦
      .bind inferInstance fun _ ↦ .bind inferInstance fun _ ↦ .bind inferInstance fun base ↦
        .bind inferInstance fun _ ↦ .bind inferInstance fun _ ↦ .bind inferInstance fun _ ↦
          .bind inferInstance fun _ ↦ .bind inferInstance fun _ ↦ .bind inferInstance fun _ ↦
            .bind inferInstance fun again ↦ .bind inferInstance fun _ ↦
              .bind inferInstance fun exit ↦ hloop base again exit)
  | .genericFor _ _ _ _ => by
    unfold Stmt.emit
    infer_instance
  | .returnValues values _ => by
    have hvalues := uniform_exprs values
    unfold Stmt.emit
    infer_instance
  | .breakLoop _ => by
    unfold Stmt.emit
    infer_instance

theorem uniform_step : ∀ step : Option Expr, Uniform (emitStep step)
  | some step => by
    have hstep := step.uniform
    unfold emitStep
    infer_instance
  | none => by
    unfold emitStep
    infer_instance

theorem uniform_otherwise : ∀ otherwise : Option Block, Uniform (emitOtherwise otherwise)
  | some block => by
    have hblock := block.uniform
    unfold emitOtherwise
    infer_instance
  | none => by
    unfold emitOtherwise
    infer_instance

theorem uniform_branches : ∀ (branches : List Branch) (more : Bool),
    Uniform (emitBranches more branches)
  | [], _ => by
    unfold emitBranches
    infer_instance
  | .mk cond body :: rest, _ => by
    have hcond := cond.uniform
    have hbody := body.uniform
    have hrest := uniform_branches rest
    have hjump : Uniform (List.singleton <$> jump .jump) := inferInstance
    have hafter (next : Nat) (exits : List Nat) (more : Bool) : Uniform (do
        land next
        return exits ++ (← emitBranches more rest)) := inferInstance
    unfold emitBranches
    dsimp only
    infer_instance

theorem uniform_targets : ∀ targets : List Expr, Uniform (storeTargets targets)
  | [] => by
    unfold storeTargets
    infer_instance
  | target :: rest => by
    have htarget := target.uniform_target
    have hrest := uniform_targets rest
    unfold storeTargets
    infer_instance

theorem Expr.uniform_target : ∀ target : Expr, Uniform (storeTarget target)
  | .name _ _ => by
    unfold storeTarget
    infer_instance
  | .index object key _ => by
    have hobject := object.uniform
    have hkey := key.uniform
    unfold storeTarget
    infer_instance
  | .nil _ | .bool _ _ | .int _ _ | .float _ _ | .string _ _ | .varargs _ | .call _ _ _
  | .method _ _ _ _ | .function _ | .table _ _ | .binary _ _ _ _ | .unary _ _ _ | .paren _ _ => by
    unfold storeTarget
    infer_instance

end

theorem main_mirrored {n : Nat} {s s' : Assembly} (h : s.Twins n s') (chunk : Chunk) :
    Emit.Mirrored n (fun t t' ↦ t.heap.SameCode n t'.heap) s s' (Emit.main chunk s)
      (Emit.main chunk s') := by
  have hchunk := Block.uniform chunk
  exact (Uniform.run h).bind fun _ _ _ _ ht _ _ _ ↦ (Uniform.run ht).bind fun _ _ _ _ ht _ _ _ ↦
    Emit.Mirrored.finish pure pure ht fun ht hij ↦ .pure ht hij

/-- Source text means the same code over any two heaps, or is refused for the same reason. -/
theorem compile_uniform {n : Nat} {h h' : Heap} (hh : h.strings.Exact) (hh' : h'.strings.Exact)
    (source : Bytes) (chunkName : String) :
    Sync (fun _ _ ↦ Eq) (fun k k' ↦ k.strings.Exact ∧ k'.strings.Exact) Heap.Adds
      (fun k k' ↦ k.SameCode n k') h h' (compile source chunkName h)
      (compile source chunkName h') := by
  unfold compile
  cases parse source with
  | error e => exact .error ⟨hh, hh'⟩ (.refl _) (.refl _) rfl
  | ok chunk =>
    have hstart : Assembly.Twins n
        ⟨h, .start "main chunk" [] true 0, [], chunkLabel chunkName⟩
        ⟨h', .start "main chunk" [] true 0, [], chunkLabel chunkName⟩ :=
      ⟨hh, hh', .mk .nil .nil, .nil, rfl⟩
    have hmain := main_mirrored hstart chunk
    dsimp only
    generalize Emit.main chunk ⟨h, _, _, _⟩ = r, Emit.main chunk ⟨h', _, _, _⟩ = r' at hmain
    cases hmain with
    | ok ht hs hs' hij => exact .ok ⟨ht.exact, ht.exact'⟩ hs hs' hij
    | error ht hs hs' he => exact .error ⟨ht.exact, ht.exact'⟩ hs hs' he

end MiniLua
