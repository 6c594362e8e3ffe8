import MiniLua.Proofs.Code.Layout
import MiniLua.Proofs.Code.Tidy
import MiniLua.Proofs.Effects

/-!
From runs of the compiler to the layout of what it makes. What a run says about the finished
function holds of every function that its state can still become.
-/

namespace MiniLua

open Effects

theorem Emits.mono {d n m : Nat} {s t : Assembly} (h : Emits d n s t) (hm : m ≤ n) :
    Emits d m s t := by
  induction h with
  | refl => exact .refl
  | trans _ _ ih ih' => exact (ih hm).trans (ih' hm)
  | line => exact .line _
  | emit valid => exact .emit valid
  | patch behind => exact .patch (hm.trans behind)
  | number number added => exact .number number added
  | string added => exact .string added
  | capture captured => exact .capture captured
  | declare declared => exact .declare declared
  | openScope => exact .openScope
  | closeScope => exact .closeScope
  | leave behind emitted jump inside => exact .leave (hm.trans behind) emitted jump inside
  | looped _ ih => exact .looped (ih hm)
  | nested few nests made inside around => exact .nested few nests made inside around

/-- The level is what becomes of a function around. -/
def Level.Follows (b : Builder) (level : Level) : Prop :=
  level.locals = b.locals ∧ Kept b.captures level.captures

namespace Home

/-- `U` is what the state of the compiler may become in the end. Jumps at `holes` and those that
leave loops still get their targets. -/
structure Fits (U : Home) (holes : List Nat) (s : Assembly) : Prop where
  code : ∀ i < s.current.code.size, i ∉ holes → (∀ jumps ∈ s.current.loops, i ∉ jumps) →
    U.proto.code[i]? = s.current.code[i]?
  exits : ∀ i ∈ s.current.loops.headD [], ∃ exit, U.exit = some exit ∧ U.Wide .jump exit i (i + 1)
  constants : Kept s.current.constants U.proto.constants
  captures : Kept s.current.captures U.proto.captures
  protos : Kept s.current.protos U.proto.protos
  cells : s.current.cellCount ≤ U.proto.cellCount
  variadic : U.proto.variadic = s.current.variadic
  heap : s.heap.Extends U.heap
  outer : List.Forall₂ Level.Follows s.enclosing U.outer

variable {U : Home} {holes : List Nat} {n : Nat} {s t : Assembly}

/-- A jump that leaves a loop now left it before or was added since. -/
theorem mem_loops_of_grows (h : Grows n s t) {i : Nat} (hi : i < n)
    (hnot : ∀ jumps ∈ s.current.loops, i ∉ jumps) : ∀ jumps ∈ t.current.loops, i ∉ jumps := by
  obtain ⟨new, hnew, hloops⟩ := h.loops
  rw [hloops]
  cases hs : s.current.loops with
  | nil => simp
  | cons first rest =>
    rw [hs] at hnot
    obtain ⟨hfirst, hrest⟩ := List.forall_mem_cons.mp hnot
    refine List.forall_mem_cons.mpr ⟨fun hmem ↦ ?_, hrest⟩
    obtain hmem | hmem := List.mem_append.mp hmem
    · have hbehind := (hnew i hmem).1
      omega
    · exact hfirst hmem

theorem Fits.back (hU : U.Fits holes t) (h : Grows s.current.code.size s t) : U.Fits holes s where
  code i hi hhole hloops := by
    rw [hU.code i (hi.trans_le h.size) hhole (mem_loops_of_grows h hi hloops), h.code i hi]
  exits i hi := by
    obtain ⟨new, -, hloops⟩ := h.loops
    refine hU.exits i ?_
    rw [hloops]
    cases hs : s.current.loops with
    | nil =>
      rw [hs] at hi
      cases hi
    | cons first rest =>
      rw [hs] at hi
      exact List.mem_append_right _ hi
  constants := h.constants.trans hU.constants
  captures := h.captures.trans hU.captures
  protos := h.protos.trans hU.protos
  cells := h.cells.trans hU.cells
  variadic := hU.variadic.trans h.variadic
  heap := h.heap.trans hU.heap
  outer := by
    have houter := hU.outer
    generalize U.outer = outer at houter
    have henclosing := h.enclosing
    generalize s.enclosing = xs at henclosing
    generalize t.enclosing = ys at henclosing houter
    induction henclosing generalizing outer with
    | nil =>
      cases houter
      exact .nil
    | cons hgains _ ih =>
      cases houter with
      | cons hlevel hrest =>
        refine .cons ⟨hlevel.1.trans ?_, hgains.captures.trans hlevel.2⟩ (ih _ hrest)
        rw [hgains.same]

/-- Holes behind the end are none. -/
theorem Fits.subset {more : List Nat} (hU : U.Fits more s)
    (hmore : ∀ i ∈ more, i < s.current.code.size → i ∈ holes) : U.Fits holes s :=
  { hU with code := fun i hi hhole ↦ hU.code i hi fun hmem ↦ hhole (hmore i hmem hi) }

end Home

namespace Assembly

/-- No code was emitted and no name declared. -/
structure Still (s t : Assembly) : Prop where
  size : t.current.code.size = s.current.code.size
  locals : t.current.locals = s.current.locals
  depth : t.current.depth = s.current.depth

/-- The same names are in scope. -/
structure SameScope (s t : Assembly) : Prop where
  locals : t.current.locals = s.current.locals
  depth : t.current.depth = s.current.depth

/-- More names may be in scope, declared in the innermost scope. -/
structure MoreScope (s t : Assembly) : Prop where
  locals : ∃ new, t.current.locals = new ++ s.current.locals ∧ ∀ l ∈ new, l.depth = s.current.depth
  depth : t.current.depth = s.current.depth

variable {s t u : Assembly}

theorem Still.refl (s : Assembly) : s.Still s := ⟨rfl, rfl, rfl⟩

theorem Still.same (h : s.Still t) : s.SameScope t := ⟨h.locals, h.depth⟩

theorem SameScope.refl (s : Assembly) : s.SameScope s := ⟨rfl, rfl⟩

theorem SameScope.trans (h : s.SameScope t) (h' : t.SameScope u) : s.SameScope u :=
  ⟨h'.locals.trans h.locals, h'.depth.trans h.depth⟩

theorem SameScope.more (h : s.SameScope t) : s.MoreScope t :=
  ⟨⟨[], h.locals, by simp⟩, h.depth⟩

theorem MoreScope.trans (h : s.MoreScope t) (h' : t.MoreScope u) : s.MoreScope u := by
  obtain ⟨new, hnew, hdepth⟩ := h.locals
  obtain ⟨new', hnew', hdepth'⟩ := h'.locals
  refine ⟨⟨new' ++ new, ?_, fun l hl ↦ ?_⟩, h'.depth.trans h.depth⟩
  · rw [hnew', hnew, List.append_assoc]
  · obtain hl | hl := List.mem_append.mp hl
    · exact (hdepth' l hl).trans h.depth
    · exact hdepth l hl

end Assembly

variable {α β : Type} {d : Nat}

/-- A run of `m` makes moves of the compiler, and `P` holds of it in every finished function that
comes of it. -/
def Lays (d : Nat) (m : Emit α) (P : Home → Assembly → α → Assembly → Prop) : Prop :=
  ∀ s a t, s.Tidy → m s = .ok a t → Emits d s.current.code.size s t ∧
    ∀ U holes, (∀ i ∈ holes, i < s.current.code.size) → U.Fits holes t → P U s a t

namespace Lays

variable {m : Emit α} {P : Home → Assembly → α → Assembly → Prop}

theorem mono {Q : Home → Assembly → α → Assembly → Prop} (h : Lays d m P)
    (hPQ : ∀ U s a t, P U s a t → Q U s a t) : Lays d m Q := by
  intro s a t hs hm
  obtain ⟨hemits, hlays⟩ := h s a t hs hm
  exact ⟨hemits, fun U holes hholes hU ↦ hPQ U s a t (hlays U holes hholes hU)⟩

theorem bind {f : α → Emit β} {Q : α → Home → Assembly → β → Assembly → Prop} (h : Lays d m P)
    (hf : ∀ a, Lays d (f a) (Q a)) :
    Lays d (m >>= f) fun U s b t ↦ ∃ a u, P U s a u ∧ Q a U u b t := by
  intro s b t hs hm
  obtain ⟨a, u, hm, hfa⟩ := bind_eq_ok.mp hm
  obtain ⟨hsu, hP⟩ := h s a u hs hm
  obtain ⟨hut, hQ⟩ := hf a u b t (hsu.tidy hs) hfa
  have hsize := (hsu.grows (Nat.le_refl _)).size
  refine ⟨hsu.trans (hut.mono hsize), fun U holes hholes hU ↦ ⟨a, u, ?_, ?_⟩⟩
  · exact hP U holes hholes (hU.back (hut.grows (Nat.le_refl _)))
  · exact hQ U holes (fun i hi ↦ (hholes i hi).trans_le hsize) hU

theorem pure (a : α) : Lays d (Pure.pure a) fun _ s b t ↦ b = a ∧ t = s := by
  rintro s b t - hm
  obtain ⟨rfl, rfl⟩ := pure_eq_ok.mp hm
  exact ⟨.refl, fun _ _ _ _ ↦ ⟨rfl, rfl⟩⟩

theorem fault (f : CompileFault) (line : Nat) : Lays d (Emit.fault f line : Emit α) P :=
  fun _ _ _ _ hm ↦ absurd hm throw_ne_ok

theorem fault_bind (f : CompileFault) (line : Nat) (k : β → Emit α) :
    Lays d (Emit.fault f line >>= k) P := by
  intro s a t _ hm
  obtain ⟨_, _, hfault, _⟩ := bind_eq_ok.mp hm
  exact absurd hfault throw_ne_ok

end Lays

/-- `R` holds between the places in front of and behind the code, and no name was declared. -/
def Placed (R : α → Home → List Local → Nat → Nat → Prop) (U : Home) (s : Assembly) (a : α)
    (t : Assembly) : Prop :=
  R a U s.current.locals s.current.code.size t.current.code.size ∧ s.SameScope t

/-- `R` holds of the locals in scope and the places in front of and behind the code. -/
def Scoped (R : Home → List Local → Nat → List Local → Nat → Prop) (U : Home) (s : Assembly)
    (_ : Unit) (t : Assembly) : Prop :=
  R U s.current.locals s.current.code.size t.current.locals t.current.code.size ∧ s.MoreScope t

theorem Assembly.Still.placed {U : Home} {s t : Assembly} {a : α}
    {R : α → Home → List Local → Nat → Nat → Prop} (h : s.Still t)
    (hR : R a U s.current.locals s.current.code.size s.current.code.size) :
    Placed R U s a t := by
  refine ⟨?_, h.same⟩
  rwa [h.size]

open Emit Assembly

namespace Lays

variable {m : Emit α} {R : α → Home → List Local → Nat → Nat → Prop}

/-- One piece of code behind another. -/
theorem seq {f : α → Emit β} {Q : α → β → Home → List Local → Nat → Nat → Prop}
    (h : Lays d m (Placed R)) (hf : ∀ a, Lays d (f a) (Placed (Q a))) :
    Lays d (m >>= f) (Placed fun b U locals pc pc' ↦
      ∃ a p, R a U locals pc p ∧ Q a b U locals p pc') := by
  refine (h.bind hf).mono ?_
  rintro U s b t ⟨a, u, ⟨hR, hu⟩, hQ, ht⟩
  rw [hu.locals] at hQ
  exact ⟨⟨a, _, hR, hQ⟩, hu.trans ht⟩

theorem imp {Q : α → Home → List Local → Nat → Nat → Prop} (h : Lays d m (Placed R))
    (hRQ : ∀ a U locals pc pc', R a U locals pc pc' → Q a U locals pc pc') :
    Lays d m (Placed Q) :=
  h.mono fun _ _ _ _ hR ↦ ⟨hRQ _ _ _ _ _ hR.1, hR.2⟩

theorem value (a : α) : Lays d (Pure.pure a) (Placed fun b _ _ pc pc' ↦ b = a ∧ pc' = pc) := by
  refine (Lays.pure a).mono ?_
  rintro U s b t ⟨rfl, rfl⟩
  exact (Still.refl _).placed ⟨rfl, rfl⟩

end Lays

theorem toNat_toUInt8 {n : Nat} (hn : n ≤ 255) : n.toUInt8.toNat = n := by
  rw [Nat.toUInt8_eq, UInt8.toNat_ofNat']
  exact Nat.mod_eq_of_lt (Nat.lt_succ_of_le hn)

theorem toUInt8_eq_zero (multi : Bool) : multi.toUInt8 = 0 ↔ multi = false := by
  cases multi <;> decide

theorem Home.Has.imp {U : Home} {op : Opcode} {P Q : Instruction → Prop} {pc pc' : Nat}
    (h : U.Has op P pc pc') (hPQ : ∀ i, P i → Q i) : U.Has op Q pc pc' := by
  obtain ⟨hpc, i, hi, hop, hP⟩ := h
  exact ⟨hpc, i, hi, hop, hPQ i hP⟩

theorem Assembly.Tidy.lt_of_exit {s : Assembly} (hs : s.Tidy) :
    ∀ jumps ∈ s.current.loops, ∀ exit ∈ jumps, exit < s.current.code.size := by
  intro jumps hjumps exit hexit
  obtain ⟨i, hi, -⟩ := hs.current.exits jumps hjumps exit hexit
  exact (Array.getElem?_eq_some_iff.mp hi).1

theorem lays_emit {i : Instruction} {o : Opcode} (hi : i.opcode? = some o) :
    Lays d (build fun b ↦ b.emit i) (Placed fun _ U _ ↦ U.Has o (· = i)) := by
  rintro s ⟨⟩ t hs hm
  obtain rfl : { s with current := s.current.emit i } = t := by injection hm
  refine ⟨.emit (by rw [hi]; rfl), fun U holes hholes hU ↦ ⟨⟨?_, i, ?_, hi, rfl⟩, rfl, rfl⟩⟩
  · simp [Builder.emit]
  · rw [hU.code _ (by simp [Builder.emit])]
    · simp [Builder.emit]
    · exact fun hmem ↦ Nat.lt_irrefl _ (hholes _ hmem)
    · exact fun jumps hjumps hmem ↦ Nat.lt_irrefl _ (hs.lt_of_exit jumps hjumps _ hmem)

theorem lays_instruction {i : Instruction} {o : Opcode} {P : Instruction → Prop}
    (hi : i.opcode? = some o) (hP : P i) :
    Lays d (build fun b ↦ b.emit i) (Placed fun _ U _ ↦ U.Has o P) :=
  (lays_emit hi).imp fun _ _ _ _ _ h ↦ h.imp fun _ hj ↦ hj ▸ hP

theorem lays_op (o : Opcode) : Lays d (op o) (Placed fun _ U _ ↦ U.Plain o) :=
  lays_instruction (Opcode.ofByte?_byte o) trivial

theorem lays_opA (o : Opcode) {a : Nat} (ha : a ≤ 255) :
    Lays d (opA o a) (Placed fun _ U _ ↦ U.Narrow o a) :=
  lays_instruction (Opcode.ofByte?_byte o) (toNat_toUInt8 ha)

theorem lays_opX (o : Opcode) (x : Nat) :
    Lays d (opX o x) (Placed fun _ U _ ↦ U.Wide o (x % Instruction.wideLimit)) :=
  lays_instruction (i := .wide o.byte x) (Opcode.ofByte?_byte o) (Instruction.x_wide _ x)

theorem lays_setLine (p : Position) : Lays d (setLine p) (Placed fun _ _ _ pc pc' ↦ pc' = pc) := by
  rintro s ⟨⟩ t hs hm
  obtain rfl : { s with current := { s.current with line := p.codeLine } } = t := by injection hm
  exact ⟨.line _, fun _ _ _ _ ↦ ⟨rfl, rfl, rfl⟩⟩

theorem Lays.line {m : Emit α} {R : α → Home → List Local → Nat → Nat → Prop}
    (h : Lays d m (Placed R)) (pos : Position) :
    Lays d (setLine pos >>= fun _ ↦ m) (Placed R) := by
  refine ((lays_setLine pos).seq fun _ ↦ h).imp ?_
  rintro a U locals pc pc' ⟨-, p, rfl, hR⟩
  exact hR

theorem lays_here : Lays d here (Placed fun n _ _ pc pc' ↦ n = pc ∧ pc' = pc) := by
  intro s a t hs hm
  obtain ⟨rfl, rfl⟩ : s.current.code.size = a ∧ s = t := by
    injection hm with ha ht
    exact ⟨ha, ht⟩
  exact ⟨.refl, fun _ _ _ _ ↦ ⟨⟨rfl, rfl⟩, .refl _⟩⟩

theorem tryBuild_eq_ok {f : Builder → Except CompileError (α × Builder)} {s t : Assembly} {a : α}
    (h : tryBuild f s = .ok a t) :
    ∃ b, f s.current = .ok (a, b) ∧ t = { s with current := b } := by
  unfold tryBuild at h
  obtain ⟨r, u, hr, h⟩ := bind_eq_ok.mp h
  obtain ⟨rfl, rfl⟩ : f s.current = r ∧ s = u := by
    injection hr with ha ht
    exact ⟨ha, ht⟩
  cases hf : f s.current with
  | error e =>
    rw [hf] at h
    exact absurd h throw_ne_ok
  | ok p =>
    rw [hf] at h
    obtain ⟨a, b⟩ := p
    cases h
    exact ⟨b, rfl, rfl⟩

/-- A constant is where it was put, and its index fits an operand. -/
theorem lt_of_addConstant {b b' : Builder} {v : Value} {i : Nat} (hb : b.Tidy)
    (h : b.addConstant v = .ok (i, b')) : i < Instruction.wideLimit :=
  ((Array.getElem?_eq_some_iff.mp (Builder.addConstant_eq h).2.2).1).trans_le
    (hb.addConstant h).constants

theorem lays_constant {v : Value} (hv : v.IsNumber) :
    Lays d (constant v) (Placed fun k U _ pc pc' ↦
      U.proto.constants[k]? = some v ∧ k < Instruction.wideLimit ∧ pc' = pc) := by
  intro s k t hs hm
  obtain ⟨b, hb, rfl⟩ := tryBuild_eq_ok hm
  obtain ⟨heq, -, hk⟩ := Builder.addConstant_eq hb
  refine ⟨.number hv hb, fun U holes _ hU ↦ Still.placed ?_
    ⟨hU.constants hk, lt_of_addConstant hs.current hb, rfl⟩⟩
  rw [heq]
  exact ⟨rfl, rfl, rfl⟩

theorem lays_stringConstant (bytes : Bytes) :
    Lays d (stringConstant bytes) (Placed fun k U _ pc pc' ↦
      U.Text bytes k ∧ k < Instruction.wideLimit ∧ pc' = pc) := by
  intro s k t hs hm
  unfold stringConstant at hm
  obtain ⟨n, u, hu, hm⟩ := bind_eq_ok.mp hm
  obtain ⟨b, hb, rfl⟩ := tryBuild_eq_ok hm
  obtain ⟨rfl, rfl⟩ : (s.heap.intern bytes).1 = n ∧
      { s with heap := (s.heap.intern bytes).2 } = u := by
    injection hu with ha ht
    exact ⟨ha, ht⟩
  obtain ⟨heq, -, hk⟩ := Builder.addConstant_eq hb
  refine ⟨.string hb, fun U holes _ hU ↦ Still.placed ?_
    ⟨⟨_, hU.constants hk, ?_⟩, lt_of_addConstant hs.current hb, rfl⟩⟩
  · rw [heq]
    exact ⟨rfl, rfl, rfl⟩
  · exact hU.heap.bytes (Heap.bytes?_intern hs.sound bytes)

theorem lays_loadConst {v : Value} (hv : v.IsNumber) :
    Lays d (loadConst v) (Placed fun _ U _ ↦ U.LoadAt v) := by
  refine ((lays_constant hv).seq fun k ↦ lays_opX .loadConst k).imp ?_
  rintro - U locals pc pc' ⟨k, p, ⟨hk, hlt, rfl⟩, hat⟩
  rw [Nat.mod_eq_of_lt hlt] at hat
  exact ⟨k, hk, hat⟩

/-- An operation on a string constant. -/
theorem lays_opText (o : Opcode) (bytes : Bytes) :
    Lays d (do opX o (← stringConstant bytes)) (Placed fun _ U _ pc pc' ↦
      ∃ k, U.Text bytes k ∧ U.Wide o k pc pc') := by
  refine ((lays_stringConstant bytes).seq fun k ↦ lays_opX o k).imp ?_
  rintro - U locals pc pc' ⟨k, p, ⟨hk, hlt, rfl⟩, hat⟩
  rw [Nat.mod_eq_of_lt hlt] at hat
  exact ⟨k, hk, hat⟩

theorem lays_repeated (o : Opcode) (bound n : Nat) :
    Lays d (repeated o bound n) (Placed fun _ U _ ↦ U.RepeatedAt o bound n) := by
  induction bound generalizing n with
  | zero => exact (Lays.value _).imp fun _ _ _ _ _ h ↦ h.2
  | succ bound ih =>
    unfold repeated
    split
    · next hn =>
      refine (Lays.value _).imp fun _ U _ pc pc' h ↦ ?_
      rw [Home.RepeatedAt, if_pos hn]
      exact h.2
    · next hn =>
      refine ((lays_opA o (Nat.min_le_right n 255)).seq fun _ ↦ ih (n - 255)).imp ?_
      rintro - U locals pc pc' ⟨-, p, hat, hrest⟩
      rw [Home.RepeatedAt, if_neg hn]
      exact ⟨p, hat, hrest⟩

theorem lays_adjust (pushed : Nat) (want : Want) :
    Lays d (adjust pushed want) (Placed fun n U _ pc pc' ↦ U.AdjustAt pushed want pc pc' n) := by
  cases want with
  | all => exact Lays.value pushed
  | exactly m =>
    by_cases hm : pushed < m
    · have hadjust : adjust pushed (.exactly m) = (nils (m - pushed) >>= fun _ ↦ pure m) :=
        if_pos hm
      rw [hadjust]
      refine ((lays_repeated .loadNil _ _).seq fun _ ↦ Lays.value m).imp ?_
      rintro n U locals pc pc' ⟨-, p, hat, rfl, rfl⟩
      exact ⟨rfl, by rwa [if_pos hm]⟩
    · have hadjust : adjust pushed (.exactly m) = (pops (pushed - m) >>= fun _ ↦ pure m) :=
        if_neg hm
      rw [hadjust]
      refine ((lays_repeated .pop _ _).seq fun _ ↦ Lays.value m).imp ?_
      rintro n U locals pc pc' ⟨-, p, hat, rfl, rfl⟩
      exact ⟨rfl, by rwa [if_neg hm]⟩

/-- What declaring `name` in `cell` does. -/
structure Declared (U : Home) (name : String) (s : Assembly) (cell : Nat) (t : Assembly) : Prop where
  locals : t.current.locals = ⟨name, s.current.depth, cell⟩ :: s.current.locals
  depth : t.current.depth = s.current.depth
  size : t.current.code.size = s.current.code.size
  isNext : cell = s.current.nextCell
  next : t.current.nextCell = cell + 1
  small : cell < Builder.maxIndex
  fresh : U.Fresh s.current.locals ⟨name, s.current.depth, cell⟩

theorem Declared.more {U : Home} {name : String} {s t : Assembly} {cell : Nat}
    (h : Declared U name s cell t) : s.MoreScope t :=
  ⟨⟨[⟨name, s.current.depth, cell⟩], h.locals, by simp⟩, h.depth⟩

theorem lays_declare (name : String) :
    Lays d (declare name) fun U s cell t ↦ Declared U name s cell t := by
  intro s cell t hs hm
  obtain ⟨b, hb, rfl⟩ := tryBuild_eq_ok hm
  obtain ⟨hcell, hlt, heq⟩ := Builder.declare_eq hb
  refine ⟨.declare hb, fun U holes _ hU ↦ ?_⟩
  have hcells := hU.cells
  subst heq hcell
  refine ⟨rfl, rfl, rfl, rfl, rfl, hlt, ⟨fun l hl ↦ ?_, ?_⟩⟩
  · exact (hs.current.cells l hl).ne
  · exact (Nat.le_max_right s.current.cellCount _).trans hcells

theorem mem_of_resolve? {locals : List Local} {name : String} {cell : Nat}
    (h : resolve? locals name = some cell) : ∃ l ∈ locals, l.cell = cell := by
  obtain ⟨l, hl, hcell⟩ := Option.map_eq_some_iff.mp h
  exact ⟨l, List.mem_of_find?_eq_some hl, hcell⟩

/-- What is captured is the variable of that name in the functions around. -/
theorem captured_of_captureFrom {b b' : Builder} {name : String} {found : Option Nat}
    {enclosing outer : List Builder} {levels : List Level} {captures : Array Capture}
    (h : b.captureFrom name enclosing = .ok (found, b', outer))
    (hlevels : List.Forall₂ Level.Follows outer levels) (hkept : Kept b'.captures captures) :
    match found with
    | some i => Captured captures levels name i
    | none => ∀ level ∈ levels, resolve? level.locals name = none := by
  induction enclosing generalizing b b' found outer levels captures with
  | nil =>
    cases h
    cases hlevels
    exact fun _ hlevel ↦ nomatch hlevel
  | cons parent rest ih =>
    obtain ⟨cell, i, hcell, hadd, rfl, rfl⟩ | ⟨hnone, parent', rest', rfl, hmore⟩ :=
      Builder.captureFrom_eq_ok h
    · obtain _ | ⟨⟨hlocals, -⟩, -⟩ := hlevels
      have hi := hkept (Builder.addCapture_eq hadd).2.2
      dsimp only
      rw [Captured, hlocals, show resolve? parent.locals name = some cell from hcell]
      exact hi
    · obtain _ | ⟨⟨hlocals, hparent⟩, hrest⟩ := hlevels
      obtain ⟨hmore, rfl, rfl⟩ | ⟨n, i, hmore, hadd, rfl⟩ := hmore
      · have hgains := (Builder.gains_of_captureFrom hmore).1
        refine List.forall_mem_cons.mpr ⟨?_, ih hmore hrest hparent⟩
        rw [hlocals, hgains.same]
        exact hnone
      · have hgains := (Builder.gains_of_captureFrom hmore).1
        have hi := hkept (Builder.addCapture_eq hadd).2.2
        dsimp only
        rw [Captured, hlocals, hgains.same, show resolve? parent.locals name = none from hnone]
        exact ⟨n, hi, ih hmore hrest hparent⟩

theorem Captured.lt {captures : Array Capture} {levels : List Level} {name : String} {i : Nat}
    (h : Captured captures levels name i) : i < captures.size := by
  cases levels with
  | nil => exact h.elim
  | cons level levels =>
    unfold Captured at h
    split at h
    · exact (Array.getElem?_eq_some_iff.mp h).1
    · obtain ⟨j, hi, -⟩ := h
      exact (Array.getElem?_eq_some_iff.mp hi).1

/-- The number of a binding fits an operand. -/
def Binding.Small : Binding → Prop
  | .cell n | .upvalue n => n < Instruction.wideLimit
  | .global => True

theorem lays_binding (name : String) :
    Lays d (binding name) (Placed fun b U locals pc pc' ↦
      U.Names locals name b ∧ b.Small ∧ pc' = pc) := by
  intro s b t hs hm
  unfold binding at hm
  obtain ⟨u, v, hu, hm⟩ := bind_eq_ok.mp hm
  obtain ⟨rfl, rfl⟩ : s = u ∧ s = v := by
    injection hu with ha ht
    exact ⟨ha, ht⟩
  cases hresolve : s.current.resolve? name with
  | some cell =>
    rw [hresolve] at hm
    cases hm
    obtain ⟨l, hl, rfl⟩ := mem_of_resolve? hresolve
    have hlt : l.cell < Builder.maxIndex :=
      (hs.current.cells l hl).trans_le (hs.current.room.trans hs.current.cellCount)
    exact ⟨.refl, fun _ _ _ _ ↦ (Still.refl _).placed ⟨hresolve, hlt.trans (by decide), rfl⟩⟩
  | none =>
    rw [hresolve] at hm
    dsimp only at hm
    cases hcapture : s.current.captureFrom name s.enclosing with
    | error e =>
      rw [hcapture] at hm
      exact absurd hm throw_ne_ok
    | ok result =>
      obtain ⟨found, b', outer⟩ := result
      rw [hcapture] at hm
      obtain ⟨rfl, rfl⟩ : found.elim .global .upvalue = b ∧
          { s with current := b', enclosing := outer } = t := by
        injection hm with ha ht
        exact ⟨ha, ht⟩
      have hemits : Emits d s.current.code.size s _ := .capture hcapture
      have hgains := (Builder.gains_of_captureFrom hcapture).1
      refine ⟨hemits, fun U holes _ hU ↦ ?_⟩
      have hcaptured := captured_of_captureFrom hcapture hU.outer hU.captures
      have hstill : s.Still { s with current := b', enclosing := outer } := by
        rw [hgains.same]
        exact ⟨rfl, rfl, rfl⟩
      cases found with
      | none => exact hstill.placed ⟨⟨hresolve, hcaptured⟩, trivial, rfl⟩
      | some i =>
        refine hstill.placed ⟨⟨hresolve, hcaptured⟩, ?_, rfl⟩
        have hlevels : List.Forall₂ Level.Follows outer
            (outer.map fun b ↦ ⟨b.locals, b.captures⟩) :=
          List.forall₂_map_right_iff.mpr (List.forall₂_same.mpr fun b _ ↦ ⟨rfl, .refl _⟩)
        have hi := captured_of_captureFrom hcapture hlevels (.refl _)
        exact (hi.lt.trans_le (hemits.tidy hs).current.captures).trans (by decide)

/-- Accesses to variables differ in their operations only. -/
def access (onCell onUpvalue onGlobal : Opcode) (name : String) : Emit Unit := do
  match ← binding name with
  | .cell n => opX onCell n
  | .upvalue n => opX onUpvalue n
  | .global => opX onGlobal (← textConstant name)

theorem lays_access (onCell onUpvalue onGlobal : Opcode) (name : String) :
    Lays d (access onCell onUpvalue onGlobal name) (Placed fun _ U locals ↦
      U.NameAt locals name onCell onUpvalue onGlobal) := by
  have hrest (b : Binding) : Lays d
      (match b with
        | .cell n => opX onCell n
        | .upvalue n => opX onUpvalue n
        | .global => do opX onGlobal (← textConstant name)) (Placed fun _ U _ pc pc' ↦
      b.Small →
        match b with
        | .cell n => U.Wide onCell n pc pc'
        | .upvalue n => U.Wide onUpvalue n pc pc'
        | .global => ∃ k, U.Text (Bytes.ofText name) k ∧ U.Wide onGlobal k pc pc') := by
    cases b with
    | cell n => exact (lays_opX onCell n).imp fun _ _ _ _ _ h hn ↦ by rwa [Nat.mod_eq_of_lt hn] at h
    | upvalue n =>
      exact (lays_opX onUpvalue n).imp fun _ _ _ _ _ h hn ↦ by rwa [Nat.mod_eq_of_lt hn] at h
    | global => exact (lays_opText onGlobal (Bytes.ofText name)).imp fun _ _ _ _ _ h _ ↦ h
  refine ((lays_binding name).seq hrest).imp ?_
  rintro - U locals pc pc' ⟨b, p, ⟨hnames, hsmall, rfl⟩, hat⟩
  exact ⟨b, hnames, hat hsmall⟩

theorem lays_loadName (name : String) :
    Lays d (loadName name) (Placed fun _ U locals ↦ U.LoadNameAt locals name) :=
  lays_access .getCell .getUpvalue .getGlobal name

theorem lays_storeName (name : String) :
    Lays d (storeName name) (Placed fun _ U locals ↦ U.StoreNameAt locals name) :=
  lays_access .setCell .setUpvalue .setGlobal name

theorem lays_needVarargs (line : Nat) :
    Lays d (needVarargs line) (Placed fun _ U _ pc pc' ↦
      U.proto.variadic = true ∧ pc' = pc) := by
  intro s a t hs hm
  unfold needVarargs at hm
  obtain ⟨b, u, hb, hm⟩ := bind_eq_ok.mp hm
  obtain ⟨rfl, rfl⟩ : s.current.variadic = b ∧ s = u := by
    injection hb with ha ht
    exact ⟨ha, ht⟩
  split at hm
  · next hvariadic =>
    cases hm
    exact ⟨.refl, fun U holes _ hU ↦ (Still.refl _).placed ⟨hU.variadic.trans hvariadic, rfl⟩⟩
  · exact absurd hm throw_ne_ok

/-- The instruction of a call, of which the operands are small. -/
theorem lays_call {args c : Nat} (multi : Bool) {want : Want} (hargs : args ≤ 255) (hc : c ≤ 255)
    (hwant : Home.Asks want c) :
    Lays d (build fun b ↦ b.emit ⟨Opcode.call.byte, args.toUInt8, multi.toUInt8, c.toUInt8⟩)
      (Placed fun _ U _ ↦ U.CallAt args multi want) := by
  refine lays_instruction (Opcode.ofByte?_byte .call)
    ⟨toNat_toUInt8 hargs, toUInt8_eq_zero multi, ?_⟩
  rwa [toNat_toUInt8 hc]

theorem lays_emitCall (args : Nat) (multi : Bool) (want : Want) (pos : Position) :
    Lays d (emitCall args multi want pos) (Placed fun _ U _ ↦ U.CallAt args multi want) := by
  have hrest (hargs : args ≤ 255) (c : Nat) (hc : c ≤ 255) (hwant : Home.Asks want c) :
      Lays d (do
        setLine pos
        build fun b ↦ b.emit ⟨Opcode.call.byte, args.toUInt8, multi.toUInt8, c.toUInt8⟩)
        (Placed fun _ U _ ↦ U.CallAt args multi want) :=
    (lays_call multi hargs hc hwant).line pos
  cases want with
  | all =>
    unfold emitCall
    dsimp only
    split
    · exact Lays.fault_bind _ _ _
    · exact hrest (by omega) 0 (by omega) rfl
  | exactly n =>
    unfold emitCall
    dsimp only
    split
    · exact Lays.fault_bind _ _ _
    · split
      · next hn => exact hrest (by omega) (n + 1) (by omega) ⟨hn, rfl⟩
      · exact Lays.fault_bind _ _ _

theorem lays_varargs {want : Want} {a : Nat} (ha : a ≤ 255) (hwant : Home.Asks want a) :
    Lays d (opA .varargs a) (Placed fun _ U _ ↦
      U.Has .varargs (fun i ↦ Home.Asks want i.a.toNat)) := by
  refine lays_instruction (Opcode.ofByte?_byte .varargs) ?_
  rwa [toNat_toUInt8 ha]

theorem lays_wantedVarargs (want : Want) (pos : Position) : Lays d
    (match want with
      | .all => opA .varargs 0
      | .exactly n =>
        if n < 255 then opA .varargs (n + 1) else fault .tooManyResults pos.codeLine)
    (Placed fun _ U _ ↦ U.Has .varargs (fun i ↦ Home.Asks want i.a.toNat)) := by
  cases want with
  | all => exact lays_varargs (by omega) rfl
  | exactly n =>
    dsimp only
    split
    · next hn => exact lays_varargs (by omega) ⟨hn, rfl⟩
    · exact Lays.fault _ _

theorem lays_emitVarargs (want : Want) (pos : Position) :
    Lays d (emitVarargs want pos) (Placed fun _ U _ ↦ U.VarargsAt want) := by
  refine ((lays_needVarargs pos.codeLine).seq fun _ ↦ lays_wantedVarargs want pos).imp ?_
  rintro - U locals pc pc' ⟨-, p, ⟨hvariadic, rfl⟩, hat⟩
  exact ⟨hvariadic, hat⟩

theorem lays_ret {n : Nat} (multi : Bool) (hn : n ≤ 255) :
    Lays d (build fun b ↦ b.emit ⟨Opcode.ret.byte, n.toUInt8, multi.toUInt8, 0⟩)
      (Placed fun _ U _ ↦ U.ReturnAt n multi) :=
  lays_instruction (Opcode.ofByte?_byte .ret) ⟨toNat_toUInt8 hn, toUInt8_eq_zero multi⟩

end MiniLua
