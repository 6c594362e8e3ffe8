import Mathlib.Data.List.TakeWhile
import MiniLua.Proofs.Code.Laying

/-! The layout of code around jumps, of scopes, loops and nested functions. -/

namespace MiniLua

open Effects Emit

variable {d : Nat}

theorem landAll_eq_ok {jumps : List Nat} {s t : Assembly} {a : Unit}
    (h : landAll jumps s = .ok a t) :
    t = { s with current := s.current.patchAll jumps s.current.code.size } ∧
      (jumps ≠ [] → s.current.code.size < Instruction.wideLimit) := by
  induction jumps generalizing s with
  | nil =>
    cases h
    exact ⟨rfl, fun hne ↦ absurd rfl hne⟩
  | cons at_ jumps ih =>
    obtain ⟨⟨⟩, u, hu, h⟩ := bind_eq_ok.mp h
    unfold land at hu
    obtain ⟨target, v, hv, hu⟩ := bind_eq_ok.mp hu
    obtain ⟨rfl, rfl⟩ : s.current.code.size = target ∧ s = v := by
      injection hv with ha ht
      exact ⟨ha, ht⟩
    split at hu
    · next hlt =>
      obtain rfl : { s with current := s.current.patch at_ s.current.code.size } = u := by
        injection hu
      obtain ⟨rfl, -⟩ := ih h
      refine ⟨?_, fun _ ↦ hlt⟩
      rw [Builder.size_patch]
      rfl
    · obtain ⟨_, _, _, hfault⟩ := bind_eq_ok.mp hu
      exact absurd hfault throw_ne_ok

theorem land_eq_ok {at_ : Nat} {s t : Assembly} {a : Unit} (h : land at_ s = .ok a t) :
    t = { s with current := s.current.patchAll [at_] s.current.code.size } ∧
      s.current.code.size < Instruction.wideLimit := by
  have hall : landAll [at_] s = .ok ⟨⟩ t := bind_eq_ok.mpr ⟨a, t, h, rfl⟩
  obtain ⟨ht, hlt⟩ := landAll_eq_ok hall
  exact ⟨ht, hlt (List.cons_ne_nil _ _)⟩

theorem emits_patchAll {n : Nat} {jumps : List Nat} {s : Assembly} (target : Nat)
    (h : ∀ at_ ∈ jumps, n ≤ at_) :
    Emits d n s { s with current := s.current.patchAll jumps target } := by
  induction jumps generalizing s with
  | nil => exact .refl
  | cons at_ jumps ih =>
    obtain ⟨hat, hjumps⟩ := List.forall_mem_cons.mp h
    exact (Emits.patch hat).trans (ih hjumps)

/-- Before jumps get their target they are holes, and afterwards they have it. -/
theorem Home.Fits.unpatched {U : Home} {holes jumps : List Nat} {o : Opcode} {s : Assembly}
    (hU : U.Fits holes { s with current := s.current.patchAll jumps s.current.code.size })
    (hsmall : jumps ≠ [] → s.current.code.size < Instruction.wideLimit)
    (hjumps : ∀ e ∈ jumps, e ∉ holes ∧ (∀ exits ∈ s.current.loops, e ∉ exits) ∧
      ∃ i, s.current.code[e]? = some i ∧ i.opcode? = some o) :
    U.Fits (jumps ++ holes) s ∧ ∀ e ∈ jumps, U.Wide o s.current.code.size e (e + 1) := by
  obtain ⟨code, heq, hsize, hout, hin⟩ := s.current.patchAll_eq jumps s.current.code.size
  rw [heq] at hU
  constructor
  · refine { hU with code := fun i hi hhole hloops ↦ ?_ }
    rw [List.mem_append, not_or] at hhole
    exact (hU.code i (hsize ▸ hi) hhole.2 hloops).trans (hout i hhole.1)
  · intro e he
    obtain ⟨hhole, hloops, i, hi, hop⟩ := hjumps e he
    have hlt := (Array.getElem?_eq_some_iff.mp hi).1
    have hpatched := hin e he
    rw [hi] at hpatched
    refine ⟨rfl, _, (hU.code e (hsize ▸ hlt) hhole hloops).trans hpatched, hop, ?_⟩
    exact (Instruction.x_wide _ _).trans (Nat.mod_eq_of_lt (hsmall (List.ne_nil_of_mem he)))

/-- A jump that is to get its target later. -/
theorem jump_eq_ok {o : Opcode} {s t : Assembly} {at_ : Nat} (h : jump o s = .ok at_ t) :
    at_ = s.current.code.size ∧ t = { s with current := s.current.emit (.wide o.byte 0) } := by
  unfold jump at h
  obtain ⟨n, u, hu, h⟩ := bind_eq_ok.mp h
  obtain ⟨rfl, rfl⟩ : s.current.code.size = n ∧ s = u := by
    injection hu with ha ht
    exact ⟨ha, ht⟩
  obtain ⟨⟨⟩, v, hv, h⟩ := bind_eq_ok.mp h
  cases hv
  cases h
  exact ⟨rfl, rfl⟩

/-- A jump without its target, and the state in which it is the last instruction. -/
structure Pending (o : Opcode) (s t : Assembly) : Prop where
  size : t.current.code.size = s.current.code.size + 1
  same : s.SameScope t
  loops : t.current.loops = s.current.loops
  jump : ∃ i, t.current.code[s.current.code.size]? = some i ∧ i.opcode? = some o

theorem pending_of_jump {o : Opcode} {s t : Assembly} {at_ : Nat} (h : jump o s = .ok at_ t) :
    Emits d s.current.code.size s t ∧ at_ = s.current.code.size ∧ Pending o s t := by
  obtain ⟨rfl, rfl⟩ := jump_eq_ok h
  have hop : (Instruction.wide o.byte 0).opcode? = some o := Opcode.ofByte?_byte o
  refine ⟨.emit (by rw [hop]; rfl), rfl, ?_, ⟨rfl, rfl⟩, rfl, .wide o.byte 0, ?_, hop⟩
  · simp [Builder.emit]
  · simp [Builder.emit]

/-- Nothing touches a pending jump, and it does not leave a loop. -/
theorem Pending.later {o : Opcode} {s t u v : Assembly} (h : Pending o s t) (hs : s.Tidy)
    (hcode : u.current.code = t.current.code)
    (hloops : ∀ exits ∈ u.current.loops, exits = [] ∨ exits ∈ t.current.loops)
    (hgrows : Grows u.current.code.size u v) :
    (∀ exits ∈ v.current.loops, s.current.code.size ∉ exits) ∧
      ∃ i, v.current.code[s.current.code.size]? = some i ∧ i.opcode? = some o := by
  have hlt : s.current.code.size < u.current.code.size := by
    rw [hcode, h.size]
    exact Nat.lt_succ_self _
  constructor
  · refine Home.mem_loops_of_grows hgrows hlt fun exits hexits hmem ↦ ?_
    obtain rfl | hexits := hloops exits hexits
    · cases hmem
    · rw [h.loops] at hexits
      exact Nat.lt_irrefl _ (hs.lt_of_exit exits hexits _ hmem)
  · rw [hgrows.code _ hlt, hcode]
    exact h.jump

/-- Code that a jump leads around. -/
theorem Lays.jumpOver {m : Emit Unit} {R : Unit → Home → List Local → Nat → Nat → Prop}
    (o : Opcode) (h : Lays d m (Placed R)) :
    Lays d (do
      let at_ ← jump o
      m
      land at_) (Placed fun a U locals pc pc' ↦
        ∃ p, U.Wide o pc' pc p ∧ R a U locals p pc') := by
  rintro s ⟨⟩ t hs hm
  obtain ⟨at_, u, hu, hm⟩ := bind_eq_ok.mp hm
  obtain ⟨⟨⟩, v, hv, hm⟩ := bind_eq_ok.mp hm
  obtain ⟨rfl, hsmall⟩ := land_eq_ok hm
  obtain ⟨hsu, rfl, hjump⟩ := pending_of_jump (d := d) hu
  obtain ⟨huv, hP⟩ := h u ⟨⟩ v (hsu.tidy hs) hv
  obtain ⟨hloops, hpending⟩ :=
    hjump.later hs rfl (fun _ ↦ .inr) (huv.grows (Nat.le_refl _))
  have hsize := hjump.size
  have hpatch : Emits d s.current.code.size v _ :=
    emits_patchAll v.current.code.size (List.forall_mem_singleton.mpr (Nat.le_refl _))
  refine ⟨hsu.trans ((huv.mono (by omega)).trans hpatch), fun U holes hholes hU ↦ ?_⟩
  obtain ⟨hU, hwide⟩ := hU.unpatched (o := o) (fun _ ↦ hsmall)
    (List.forall_mem_singleton.mpr
      ⟨fun hmem ↦ Nat.lt_irrefl _ (hholes _ hmem), hloops, hpending⟩)
  obtain ⟨hR, hscope⟩ := hP U _ (List.forall_mem_cons.mpr ⟨by omega, fun i hi ↦ by
    have := hholes i hi
    omega⟩) hU
  have hend : (v.current.patchAll [s.current.code.size] v.current.code.size).code.size =
      v.current.code.size := Builder.size_patchAll _ _ _
  rw [hjump.same.locals] at hR
  refine ⟨⟨u.current.code.size, ?_, ?_⟩, ?_, ?_⟩
  · rw [hend, hsize]
    exact hwide _ List.mem_cons_self
  · rwa [hend]
  · exact (Builder.locals_patchAll _ _ _).trans (hjump.same.trans hscope).locals
  · exact (Builder.depth_patchAll _ _ _).trans (hjump.same.trans hscope).depth

theorem lays_inScope {m : Emit Unit} {R : Home → List Local → Nat → List Local → Nat → Prop}
    (h : Lays d m (Scoped R)) :
    Lays d (inScope m) (Placed fun _ U locals pc pc' ↦ ∃ inside, R U locals pc inside pc') := by
  intro s a t hs hm
  obtain ⟨⟨⟩, u, hu, hm⟩ := bind_eq_ok.mp hm
  obtain ⟨⟨⟩, v, hv, hclosed⟩ := bind_eq_ok.mp hm
  obtain rfl : { s with current := s.current.openScope } = u := by injection hu
  obtain rfl : { v with current := v.current.closeScope } = t := by injection hclosed
  have hopen : Emits d s.current.code.size s { s with current := s.current.openScope } := .openScope
  obtain ⟨hbody, hP⟩ := h _ ⟨⟩ v (hopen.tidy hs) hv
  have hclose : Emits d v.current.code.size v { v with current := v.current.closeScope } :=
    .closeScope
  have hgrows := hbody.grows (Nat.le_refl _)
  refine ⟨hopen.trans (hbody.trans (hclose.mono hgrows.size)), fun U holes hholes hU ↦ ?_⟩
  obtain ⟨hR, ⟨new, hnew, hdepths⟩, hdepth⟩ :=
    hP U holes hholes (hU.back (hclose.grows (Nat.le_refl _)))
  have hdepth : v.current.depth - 1 = s.current.depth := by
    rw [hdepth]
    exact Nat.add_sub_cancel s.current.depth 1
  refine ⟨⟨v.current.locals, hR⟩, ?_, hdepth⟩
  -- the locals declared inside are those that lie deeper
  change v.current.locals.dropWhile (fun l ↦ decide (v.current.depth - 1 < l.depth)) = _
  rw [hdepth, hnew, List.dropWhile_append_of_pos]
  · refine List.dropWhile_eq_self_iff.mpr fun hpos ↦ ?_
    simpa using hs.current.depths _ (List.getElem_mem hpos)
  · intro l hl
    have hl := hdepths l hl
    simp only [Builder.openScope] at hl
    simp [hl]

theorem looped_eq_ok {m : Emit Unit} {s t : Assembly} {a : Unit} (h : looped m s = .ok a t) :
    ∃ u, m s.enterLoop = .ok ⟨⟩ u ∧ t = u.exitLoop ∧
      ((u.current.loops.headD []).reverse ≠ [] → u.current.code.size < Instruction.wideLimit) := by
  unfold looped at h
  obtain ⟨⟨⟩, u, hu, h⟩ := bind_eq_ok.mp h
  obtain rfl : s.enterLoop = u := by injection hu
  obtain ⟨⟨⟩, u, hu, h⟩ := bind_eq_ok.mp h
  obtain ⟨jumps, v, hv, h⟩ := bind_eq_ok.mp h
  obtain ⟨rfl, rfl⟩ : (u.current.loops.headD []).reverse = jumps ∧ u = v := by
    injection hv with ha ht
    exact ⟨ha, ht⟩
  obtain ⟨⟨⟩, v, hv, h⟩ := bind_eq_ok.mp h
  obtain rfl : { u with current := { u.current with loops := u.current.loops.tail } } = v := by
    injection hv
  obtain ⟨rfl, hsmall⟩ := landAll_eq_ok h
  exact ⟨u, hu, rfl, hsmall⟩

/-- Loops are left to where they end. -/
theorem fits_exitLoop {n : Nat} {s u : Assembly} (hs : s.Tidy)
    (hbody : Emits d n s.enterLoop u) (hn : n ≤ s.current.code.size)
    (hnew : ∀ i ∈ u.current.loops.headD [], s.current.code.size ≤ i)
    (hsmall : (u.current.loops.headD []).reverse ≠ [] →
      u.current.code.size < Instruction.wideLimit) :
    Emits d n s u.exitLoop ∧ u.Still u.exitLoop ∧
      ∀ U holes, (∀ i ∈ holes, i < s.current.code.size) → Home.Fits U holes u.exitLoop →
        Home.Fits { U with exit := some u.current.code.size } holes u := by
  obtain ⟨new, -, hloops⟩ := (hbody.grows hn).loops
  have htidy := hbody.tidy hs.enterLoop
  have hu : u.current.loops = new :: s.current.loops := by
    simpa [Assembly.enterLoop] using hloops
  rw [hu, List.headD_cons] at hnew hsmall
  refine ⟨.looped hbody, ?_, fun U holes hholes hU ↦ ?_⟩
  · exact ⟨Builder.size_patchAll _ _ _, Builder.locals_patchAll _ _ _,
      Builder.depth_patchAll _ _ _⟩
  · have hexits := htidy.current.exits
    rw [Assembly.exitLoop, Builder.exitLoop, hu, List.headD_cons, List.tail_cons] at hU
    rw [hu] at hexits
    obtain ⟨hU, hwide⟩ := Home.Fits.unpatched (o := .jump)
      (s := { u with current := { u.current with loops := s.current.loops } }) hU hsmall
      fun e he ↦ by
        have he := List.mem_reverse.mp he
        have hle := hnew e he
        refine ⟨fun hmem ↦ ?_, fun exits hmem hmem' ↦ ?_, ?_⟩
        · have := hholes e hmem
          omega
        · have := hs.lt_of_exit exits hmem e hmem'
          omega
        · obtain ⟨i, hi, hop⟩ := hexits new List.mem_cons_self e he
          exact ⟨i, hi, by rw [Instruction.opcode?, hop]; rfl⟩
    refine { hU with code := fun i hi hhole hnot ↦ ?_, exits := fun i hi ↦ ?_ }
    · rw [hu] at hnot
      obtain ⟨hnot, hnot'⟩ := List.forall_mem_cons.mp hnot
      refine hU.code i hi (fun hmem ↦ ?_) hnot'
      obtain hmem | hmem := List.mem_append.mp hmem
      · exact hnot (List.mem_reverse.mp hmem)
      · exact hhole hmem
    · rw [hu, List.headD_cons] at hi
      exact ⟨_, rfl, hwide i (List.mem_reverse.mpr hi)⟩

theorem lays_looped {m : Emit Unit} {R : Unit → Home → List Local → Nat → Nat → Prop}
    (h : Lays d m (Placed R)) :
    Lays d (looped m) (Placed fun a U locals pc pc' ↦
      R a { U with exit := some pc' } locals pc pc') := by
  intro s a t hs hm
  obtain ⟨u, hu, rfl, hsmall⟩ := looped_eq_ok hm
  obtain ⟨hbody, hP⟩ := h s.enterLoop ⟨⟩ u hs.enterLoop hu
  obtain ⟨new, hnew, hloops⟩ := (hbody.grows (Nat.le_refl _)).loops
  obtain ⟨hemits, hstill, hfits⟩ := fits_exitLoop hs hbody (Nat.le_refl _) (by
    rw [hloops]
    intro i hi
    exact (hnew i (by simpa [Assembly.enterLoop] using hi)).1) hsmall
  refine ⟨hemits, fun U holes hholes hU ↦ ?_⟩
  obtain ⟨hR, hscope⟩ := hP _ holes hholes (hfits U holes hholes hU)
  refine ⟨?_, ?_⟩
  · rw [hstill.size]
    exact hR
  · exact ⟨hstill.locals.trans hscope.locals, hstill.depth.trans hscope.depth⟩

/-- A loop that a jump in front of it leads around. -/
theorem Lays.loopedOver {m : Emit Unit} {R : Unit → Home → List Local → Nat → Nat → Prop}
    (o : Opcode) (h : Lays d m (Placed R)) :
    Lays d (do
      let exit ← jump o
      looped do
        m
        land exit) (Placed fun a U locals pc pc' ↦
          ∃ p, U.Wide o pc' pc p ∧ R a { U with exit := some pc' } locals p pc') := by
  rintro s ⟨⟩ t hs hm
  obtain ⟨exit, s₁, hs₁, hm⟩ := bind_eq_ok.mp hm
  obtain ⟨w, hw, rfl, hsmall⟩ := looped_eq_ok hm
  obtain ⟨⟨⟩, v, hv, hland⟩ := bind_eq_ok.mp hw
  obtain ⟨rfl, hlt⟩ := land_eq_ok hland
  obtain ⟨hjump, rfl, hpending⟩ := pending_of_jump (d := d) hs₁
  have htidy := hjump.tidy hs
  obtain ⟨hbody, hP⟩ := h s₁.enterLoop ⟨⟩ v htidy.enterLoop hv
  have hgrows := hbody.grows (Nat.le_refl _)
  obtain ⟨hloops, hi⟩ := hpending.later hs (u := s₁.enterLoop) rfl
    (fun exits hexits ↦ (List.mem_cons.mp hexits)) hgrows
  have hsize := hpending.size
  obtain ⟨new, hnew, hnewLoops⟩ := hgrows.loops
  have hpatch : Emits d s.current.code.size v _ :=
    emits_patchAll v.current.code.size (List.forall_mem_singleton.mpr (Nat.le_refl _))
  have hle : s.current.code.size ≤ s₁.enterLoop.current.code.size := by
    rw [Assembly.enterLoop, hsize]
    exact Nat.le_succ _
  obtain ⟨hemits, hstill, hfits⟩ := fits_exitLoop htidy ((hbody.mono hle).trans hpatch) (by omega)
    (by
      rw [Builder.loops_patchAll, hnewLoops]
      intro i hi
      exact (hnew i (by simpa [Assembly.enterLoop] using hi)).1) hsmall
  refine ⟨hjump.trans hemits, fun U holes hholes hU ↦ ?_⟩
  have hU := hfits U holes (fun i hi ↦ (hholes i hi).trans (by omega)) hU
  obtain ⟨hU, hwide⟩ := hU.unpatched (o := o) (fun _ ↦ hlt)
    (List.forall_mem_singleton.mpr ⟨fun hmem ↦ Nat.lt_irrefl _ (hholes _ hmem), hloops, hi⟩)
  have hend : (Assembly.exitLoop _).current.code.size = v.current.code.size :=
    hstill.size.trans (Builder.size_patchAll _ _ _)
  rw [Builder.size_patchAll] at hU
  obtain ⟨hR, hscope⟩ := hP _ _ (List.forall_mem_cons.mpr
    ⟨hsize ▸ Nat.lt_succ_self _, fun i hi ↦ (hholes i hi).trans (hsize ▸ Nat.lt_succ_self _)⟩) hU
  have hscope := hpending.same.trans ⟨hscope.locals, hscope.depth⟩
  refine ⟨⟨s₁.current.code.size, ?_, ?_⟩, ?_, ?_⟩
  · rw [hend, hsize]
    exact hwide _ List.mem_cons_self
  · rw [hend, ← hpending.same.locals]
    exact hR
  · exact (hstill.locals.trans (Builder.locals_patchAll _ _ _)).trans hscope.locals
  · exact (hstill.depth.trans (Builder.depth_patchAll _ _ _)).trans hscope.depth

/-- The state behind the last return of a function. -/
def Assembly.returned (s : Assembly) : Assembly :=
  { s with current := s.current.emit ⟨Opcode.ret.byte, 0, 0, 0⟩ }

/-- The function under construction when it is finished. -/
def Assembly.finished (s : Assembly) : Prototype := s.returned.current.toPrototype

/-- A body that was emitted from the start is that of the finished function. -/
theorem runs_of_emit {name : String} {params : List String} {variadic : Bool} {line : Nat}
    {body : Block} {s t : Assembly} (hs : s.Tidy) (few : params.length ≤ 255)
    (hstart : s.current = .start name params variadic line)
    (h : Lays d body.emit (Placed fun _ U locals ↦ body.At U locals))
    (hm : body.emit s = .ok ⟨⟩ t) {heap : Heap} {outer : List Level} (hheap : t.heap.Extends heap)
    (houter : List.Forall₂ Level.Follows t.enclosing outer) :
    Home.Runs ⟨t.finished, heap, outer, none⟩ params variadic body := by
  obtain ⟨hwhole, hlays⟩ := (h.seq fun _ ↦ lays_ret (d := d) false (Nat.zero_le 255))
    s ⟨⟩ t.returned hs (bind_eq_ok.mpr ⟨⟨⟩, t, hm, rfl⟩)
  have hgrows := hwhole.grows (Nat.le_refl _)
  have hfits : Home.Fits ⟨t.finished, heap, outer, none⟩ [] t.returned := by
    refine ⟨fun _ _ _ _ ↦ rfl, ?_, .refl _, .refl _, .refl _, Nat.le_refl _, rfl, hheap, houter⟩
    obtain ⟨new, -, hloops⟩ := hgrows.loops
    rw [hloops, hstart]
    exact fun i hi ↦ nomatch hi
  obtain ⟨⟨⟨⟩, e, hbody, hret⟩, -⟩ := hlays _ [] (fun _ h ↦ nomatch h) hfits
  have harity := hgrows.arity
  have hcells := hgrows.cells
  have hvariadic := hgrows.variadic
  rw [hstart] at hbody harity hcells hvariadic
  exact ⟨harity, few, hcells, hvariadic, e, hbody, hret⟩

theorem lays_nested {name : String} {params : List String} {variadic : Bool} {body : Block}
    {pos : Position} (few : params.length ≤ 255) (nests : body.Nests d)
    (h : Lays d body.emit (Placed fun _ U locals ↦ body.At U locals)) :
    Lays (d + 1) (nested name params variadic pos.codeLine body.emit) (Placed fun _ U locals ↦
      FunctionBody.At U locals (.mk params variadic body pos)) := by
  intro s a t hs hm
  unfold nested at hm
  obtain ⟨⟨⟩, s₁, hs₁, hm⟩ := bind_eq_ok.mp hm
  obtain rfl : { s with
      current := .start name params variadic pos.codeLine
      enclosing := s.current :: s.enclosing } = s₁ := by injection hs₁
  obtain ⟨⟨⟩, s₂, hs₂, hm⟩ := bind_eq_ok.mp hm
  obtain ⟨⟨⟩, s₃, hs₃, hm⟩ := bind_eq_ok.mp hm
  obtain ⟨proto, s₄, hs₄, hm⟩ := bind_eq_ok.mp hm
  obtain ⟨rfl, rfl⟩ : s₃.current.toPrototype = proto ∧ s₃ = s₄ := by
    injection hs₄ with ha ht
    exact ⟨ha, ht⟩
  obtain ⟨k, s₄, hs₄, hm⟩ := bind_eq_ok.mp hm
  obtain ⟨rfl, rfl⟩ : s₃.heap.protos.size = k ∧
      { s₃ with heap := (s₃.heap.allocProto s₃.current.toPrototype).2 } = s₄ := by
    injection hs₄ with ha ht
    exact ⟨ha, ht⟩
  obtain ⟨⟨⟩, s₅, hs₅, hm⟩ := bind_eq_ok.mp hm
  have hstart := hs.enter name variadic pos.codeLine few
  obtain ⟨hbody, -⟩ := h _ ⟨⟩ s₂ hstart hs₂
  obtain rfl : s₂.returned = s₃ := by injection hs₃
  have henclosing := (hbody.grows (Nat.zero_le _)).enclosing
  obtain ⟨parent, outer, hparent, houter, henc⟩ := List.forall₂_cons_left_iff.mp henclosing
  have hpop : s₂.returned.enclosing = parent :: outer := henc
  simp only [modify_apply, hpop] at hs₅
  obtain rfl : { s₂ with
      heap := (s₂.heap.allocProto s₂.finished).2
      current := parent
      enclosing := outer } = s₅ := by injection hs₅
  obtain ⟨x, s₆, hs₆, hm⟩ := bind_eq_ok.mp hm
  obtain ⟨rfl, rfl⟩ : parent.protos.size = x ∧ _ = s₆ := by
    injection hs₆ with ha ht
    exact ⟨ha, ht⟩
  obtain ⟨⟨⟩, s₆, hs₆, hm⟩ := bind_eq_ok.mp hm
  obtain rfl : { s₂ with
      heap := (s₂.heap.allocProto s₂.finished).2
      current := { parent with protos := parent.protos.push s₂.heap.protos.size, line := pos.codeLine }
      enclosing := outer } = s₆ := by injection hs₆
  have hchained := (hbody.tidy hstart).chained
  rw [henc] at hchained
  have hnested : Emits (d + 1) s.current.code.size s { s₂ with
      heap := (s₂.heap.allocProto s₂.finished).2
      current := { parent with protos := parent.protos.push s₂.heap.protos.size, line := pos.codeLine }
      enclosing := outer } := .nested few nests hs₂ hbody henc
  obtain ⟨hclosure, hlast⟩ := lays_opX .closure parent.protos.size _ _ _ (hnested.tidy hs) hm
  have hcode : parent.code = s.current.code := by rw [hparent.same]
  have hlocals : parent.locals = s.current.locals := by rw [hparent.same]
  have hdepth : parent.depth = s.current.depth := by rw [hparent.same]
  refine ⟨hnested.trans (hclosure.mono (by rw [hcode])), fun U holes hholes hU ↦ ?_⟩
  obtain ⟨hwide, hscope⟩ := hlast U holes (by rwa [hcode]) hU
  have hU := hU.back (hclosure.grows (Nat.le_refl _))
  dsimp only at hwide
  rw [hcode] at hwide
  have hproto := hU.heap.protos (Heap.protos_allocProto s₂.heap s₂.finished)
  have hlevels : List.Forall₂ Level.Follows s₂.enclosing
      (⟨s.current.locals, U.proto.captures⟩ :: U.outer) := by
    rw [henc]
    exact .cons ⟨hlocals.symm, hU.captures⟩ hU.outer
  have hruns := runs_of_emit hstart few rfl h hs₂
    ((Heap.Extends.allocProto s₂.heap s₂.finished).trans hU.heap) hlevels
  have hsupplied : ∀ c ∈ s₂.finished.captures, U.Supplies s.current.locals c := fun c hc ↦ by
    cases c with
    | cell n => exact hlocals ▸ hchained.1 _ hc
    | upvalue n =>
      have hlt := hchained.1 _ hc
      exact (Array.getElem?_eq_some_iff.mp (hU.captures (Array.getElem?_eq_getElem hlt))).1
  refine ⟨⟨parent.protos.size, _, s₂.finished, hwide, hU.protos Array.getElem?_push_size, hproto,
    hruns.arity, few, hruns.cells, hruns.variadic, hsupplied, hruns.code⟩, ?_⟩
  exact ⟨hscope.locals.trans hlocals, hscope.depth.trans hdepth⟩

/-- `Lays` for code that returns jumps which all go to one place behind it. -/
def LaysEnds (d : Nat) (m : Emit (List Nat))
    (R : Nat → Home → List Local → Nat → Nat → Prop) : Prop :=
  ∀ s ends t, s.Tidy → m s = .ok ends t → Emits d s.current.code.size s t ∧
    (∀ e ∈ ends, s.current.code.size ≤ e ∧ (∀ exits ∈ t.current.loops, e ∉ exits) ∧
      ∃ i, t.current.code[e]? = some i ∧ i.opcode? = some .jump) ∧
    ∀ U holes target, (∀ i ∈ holes, i < s.current.code.size) → Home.Fits U (ends ++ holes) t →
      (∀ e ∈ ends, U.Wide .jump target e (e + 1)) →
      R target U s.current.locals s.current.code.size t.current.code.size ∧ s.SameScope t

namespace LaysEnds

variable {m : Emit (List Nat)} {R : Nat → Home → List Local → Nat → Nat → Prop}

theorem imp {Q : Nat → Home → List Local → Nat → Nat → Prop} (h : LaysEnds d m R)
    (hRQ : ∀ target U locals pc pc', R target U locals pc pc' → Q target U locals pc pc') :
    LaysEnds d m Q := by
  intro s ends t hs hm
  obtain ⟨hemits, hends, hR⟩ := h s ends t hs hm
  refine ⟨hemits, hends, fun U holes target hholes hU htarget ↦ ?_⟩
  obtain ⟨hR, hscope⟩ := hR U holes target hholes hU htarget
  exact ⟨hRQ _ _ _ _ _ hR, hscope⟩

theorem none {P : Unit → Home → List Local → Nat → Nat → Prop} {k : Emit Unit}
    (h : Lays d k (Placed P)) : LaysEnds d (k >>= fun _ ↦ pure []) fun _ ↦ P ⟨⟩ := by
  intro s ends t hs hm
  obtain ⟨⟨⟩, u, hu, hm⟩ := bind_eq_ok.mp hm
  cases hm
  obtain ⟨hemits, hP⟩ := h s ⟨⟩ t hs hu
  exact ⟨hemits, fun e he ↦ (nomatch he), fun U holes _ hholes hU _ ↦ hP U holes hholes hU⟩

/-- The jump is the last instruction of the code. -/
theorem one {P : Unit → Home → List Local → Nat → Nat → Prop} {k : Emit Unit}
    (h : Lays d k (Placed P)) :
    LaysEnds d (k >>= fun _ ↦ List.singleton <$> jump .jump) fun target U locals pc pc' ↦
      ∃ p, P ⟨⟩ U locals pc p ∧ U.Wide .jump target p pc' := by
  intro s ends t hs hm
  obtain ⟨⟨⟩, u, hu, hm⟩ := bind_eq_ok.mp hm
  obtain ⟨at_, hjump, rfl⟩ := map_eq_ok.mp hm
  obtain ⟨hsu, hP⟩ := h s ⟨⟩ u hs hu
  obtain ⟨hut, rfl, hpending⟩ := pending_of_jump (d := d) hjump
  obtain ⟨hloops, hi⟩ := hpending.later (hsu.tidy hs) rfl (fun _ ↦ .inr) (.refl _ _)
  have hle := (hsu.grows (Nat.le_refl _)).size
  refine ⟨hsu.trans (hut.mono hle), List.forall_mem_singleton.mpr ⟨hle, hloops, hi⟩,
    fun U holes target hholes hU htarget ↦ ?_⟩
  have hU : U.Fits holes u := (hU.back (hut.grows (Nat.le_refl _))).subset fun i hi hlt ↦ by
    obtain hi | hi := List.mem_append.mp hi
    · obtain rfl := List.mem_singleton.mp hi
      omega
    · exact hi
  obtain ⟨hP, hscope⟩ := hP U holes hholes hU
  refine ⟨⟨_, hP, ?_⟩, hscope.trans hpending.same⟩
  rw [hpending.size]
  exact htarget _ List.mem_cons_self

theorem after {α : Type} {P : α → Home → List Local → Nat → Nat → Prop} {k : Emit α}
    (hk : Lays d k (Placed P)) {f : α → Emit (List Nat)} (h : ∀ a, LaysEnds d (f a) R) :
    LaysEnds d (k >>= f) fun target U locals pc pc' ↦
      ∃ a p, P a U locals pc p ∧ R target U locals p pc' := by
  intro s ends t hs hm
  obtain ⟨a, u, hu, hm⟩ := bind_eq_ok.mp hm
  obtain ⟨hsu, hP⟩ := hk s a u hs hu
  obtain ⟨hut, hends, hR⟩ := h a u ends t (hsu.tidy hs) hm
  have hle := (hsu.grows (Nat.le_refl _)).size
  refine ⟨hsu.trans (hut.mono hle), fun e he ↦ ⟨hle.trans (hends e he).1, (hends e he).2⟩,
    fun U holes target hholes hU htarget ↦ ?_⟩
  obtain ⟨hR, hscope⟩ := hR U holes target (fun i hi ↦ (hholes i hi).trans_le hle) hU htarget
  have hU : U.Fits holes u := (hU.back (hut.grows (Nat.le_refl _))).subset fun i hi hlt ↦ by
    obtain hi | hi := List.mem_append.mp hi
    · have := (hends i hi).1
      omega
    · exact hi
  obtain ⟨hP, hscope'⟩ := hP U holes hholes hU
  rw [hscope'.locals] at hR
  exact ⟨⟨a, _, hP, hR⟩, hscope'.trans hscope⟩

theorem append {k : Emit (List Nat)} {Q : Nat → Home → List Local → Nat → Nat → Prop}
    (h : LaysEnds d m R) (hk : LaysEnds d k Q) :
    LaysEnds d (do
      let ends ← m
      return ends ++ (← k)) fun target U locals pc pc' ↦
        ∃ p, R target U locals pc p ∧ Q target U locals p pc' := by
  intro s ends t hs hm
  obtain ⟨first, u, hu, hm⟩ := bind_eq_ok.mp hm
  obtain ⟨more, v, hv, hm⟩ := bind_eq_ok.mp hm
  cases hm
  obtain ⟨hsu, hfirst, hR⟩ := h s first u hs hu
  obtain ⟨hut, hmore, hQ⟩ := hk u more t (hsu.tidy hs) hv
  have hgrows := hut.grows (Nat.le_refl _)
  have hle := (hsu.grows (Nat.le_refl _)).size
  have hlt : ∀ e ∈ first, e < u.current.code.size := by
    intro e he
    obtain ⟨-, -, i, hi, -⟩ := hfirst e he
    exact (Array.getElem?_eq_some_iff.mp hi).1
  refine ⟨hsu.trans (hut.mono hle), fun e he ↦ ?_, fun U holes target hholes hU htarget ↦ ?_⟩
  · obtain he | he := List.mem_append.mp he
    · obtain ⟨hbehind, hloops, hi⟩ := hfirst e he
      refine ⟨hbehind, Home.mem_loops_of_grows hgrows (hlt e he) hloops, ?_⟩
      rwa [hgrows.code e (hlt e he)]
    · exact ⟨hle.trans (hmore e he).1, (hmore e he).2⟩
  · have hfits : U.Fits (more ++ (first ++ holes)) t := hU.subset fun i hi _ ↦ by
      simp only [List.mem_append] at hi ⊢
      tauto
    obtain ⟨hQ, hscope⟩ := hQ U (first ++ holes) target (fun i hi ↦ by
      obtain hi | hi := List.mem_append.mp hi
      · exact hlt i hi
      · exact (hholes i hi).trans_le hle) hfits fun e he ↦ htarget e (List.mem_append_right _ he)
    have hU : U.Fits (first ++ holes) u := (hfits.back hgrows).subset fun i hi hlt ↦ by
      obtain hi | hi := List.mem_append.mp hi
      · have := (hmore i hi).1
        omega
      · exact hi
    obtain ⟨hR, hscope'⟩ := hR U holes target hholes hU fun e he ↦
      htarget e (List.mem_append_left _ he)
    rw [hscope'.locals] at hQ
    exact ⟨⟨_, hR, hQ⟩, hscope'.trans hscope⟩

/-- Code with such jumps that another jump leads around. -/
theorem jumpOver (o : Opcode) (h : LaysEnds d m R) :
    LaysEnds d (do
      let at_ ← jump o
      let ends ← m
      land at_
      return ends) fun target U locals pc pc' ↦
        ∃ p, U.Wide o pc' pc p ∧ R target U locals p pc' := by
  intro s ends t hs hm
  obtain ⟨at_, u, hu, hm⟩ := bind_eq_ok.mp hm
  obtain ⟨ends, v, hv, hm⟩ := bind_eq_ok.mp hm
  obtain ⟨⟨⟩, w, hw, hm⟩ := bind_eq_ok.mp hm
  cases hm
  obtain ⟨rfl, hsmall⟩ := land_eq_ok hw
  obtain ⟨hsu, rfl, hjump⟩ := pending_of_jump (d := d) hu
  obtain ⟨huv, hends, hR⟩ := h u ends v (hsu.tidy hs) hv
  obtain ⟨hloops, hpending⟩ :=
    hjump.later hs rfl (fun _ ↦ .inr) (huv.grows (Nat.le_refl _))
  have hsize := hjump.size
  have hpatch : Emits d s.current.code.size v _ :=
    emits_patchAll v.current.code.size (List.forall_mem_singleton.mpr (Nat.le_refl _))
  have hend : (v.current.patchAll [s.current.code.size] v.current.code.size).code.size =
      v.current.code.size := Builder.size_patchAll _ _ _
  refine ⟨hsu.trans ((huv.mono (by omega)).trans hpatch), fun e he ↦ ?_,
    fun U holes target hholes hU htarget ↦ ?_⟩
  · obtain ⟨hbehind, hnot, hi⟩ := hends e he
    refine ⟨by omega, (Builder.loops_patchAll _ _ _).symm ▸ hnot, ?_⟩
    have hne : e ∉ [s.current.code.size] := by
      rw [List.mem_singleton]
      omega
    obtain ⟨code, heq, -, hout, -⟩ :=
      v.current.patchAll_eq [s.current.code.size] v.current.code.size
    rw [heq, hout e hne]
    exact hi
  · obtain ⟨hU, hwide⟩ := hU.unpatched (o := o) (fun _ ↦ hsmall)
      (List.forall_mem_singleton.mpr ⟨fun hmem ↦ by
        obtain hmem | hmem := List.mem_append.mp hmem
        · have := (hends _ hmem).1
          omega
        · exact Nat.lt_irrefl _ (hholes _ hmem), hloops, hpending⟩)
    obtain ⟨hR, hscope⟩ := hR U (s.current.code.size :: holes) target
      (List.forall_mem_cons.mpr ⟨by omega, fun i hi ↦ by
        have := hholes i hi
        omega⟩)
      (hU.subset fun i hi _ ↦ by
        simp only [List.mem_append, List.mem_cons] at hi ⊢
        tauto) htarget
    rw [hjump.same.locals] at hR
    refine ⟨⟨u.current.code.size, ?_, ?_⟩, ?_, ?_⟩
    · rw [hend, hsize]
      exact hwide _ List.mem_cons_self
    · rwa [hend]
    · exact (Builder.locals_patchAll _ _ _).trans (hjump.same.trans hscope).locals
    · exact (Builder.depth_patchAll _ _ _).trans (hjump.same.trans hscope).depth

/-- The jumps go behind what follows. -/
theorem landed {k : Emit Unit} {P : Unit → Home → List Local → Nat → Nat → Prop}
    (h : LaysEnds d m R) (hk : Lays d k (Placed P)) :
    Lays d (do
      let ends ← m
      k
      landAll ends) (Placed fun a U locals pc pc' ↦
        ∃ p, R pc' U locals pc p ∧ P a U locals p pc') := by
  rintro s ⟨⟩ t hs hm
  obtain ⟨ends, u, hu, hm⟩ := bind_eq_ok.mp hm
  obtain ⟨⟨⟩, v, hv, hm⟩ := bind_eq_ok.mp hm
  obtain ⟨rfl, hsmall⟩ := landAll_eq_ok hm
  obtain ⟨hsu, hends, hR⟩ := h s ends u hs hu
  obtain ⟨huv, hP⟩ := hk u ⟨⟩ v (hsu.tidy hs) hv
  have hgrows := huv.grows (Nat.le_refl _)
  have hle := (hsu.grows (Nat.le_refl _)).size
  have hlt : ∀ e ∈ ends, e < u.current.code.size := by
    intro e he
    obtain ⟨-, -, i, hi, -⟩ := hends e he
    exact (Array.getElem?_eq_some_iff.mp hi).1
  have hpatch : Emits d s.current.code.size v _ :=
    emits_patchAll v.current.code.size fun e he ↦ (hends e he).1
  have hend : (v.current.patchAll ends v.current.code.size).code.size = v.current.code.size :=
    Builder.size_patchAll _ _ _
  refine ⟨hsu.trans ((huv.mono hle).trans hpatch), fun U holes hholes hU ↦ ?_⟩
  obtain ⟨hU, hwide⟩ := hU.unpatched (o := .jump) hsmall fun e he ↦ by
    obtain ⟨hbehind, hloops, hi⟩ := hends e he
    refine ⟨fun hmem ↦ ?_, Home.mem_loops_of_grows hgrows (hlt e he) hloops, ?_⟩
    · have := hholes e hmem
      omega
    · rwa [hgrows.code e (hlt e he)]
  obtain ⟨hP, hscope⟩ := hP U (ends ++ holes) (fun i hi ↦ by
    obtain hi | hi := List.mem_append.mp hi
    · exact hlt i hi
    · exact (hholes i hi).trans_le hle) hU
  obtain ⟨hR, hscope'⟩ := hR U holes v.current.code.size hholes (hU.back hgrows) hwide
  rw [hscope'.locals] at hP
  have hscope := hscope'.trans hscope
  refine ⟨⟨u.current.code.size, ?_, ?_⟩, ?_, ?_⟩
  · rwa [hend]
  · rwa [hend]
  · exact (Builder.locals_patchAll _ _ _).trans hscope.locals
  · exact (Builder.depth_patchAll _ _ _).trans hscope.depth

end LaysEnds

end MiniLua
