import MiniLua.Proofs.Meaning.Accesses
import MiniLua.Proofs.Stack.Chain

/-! How many values expressions leave, and what compiled code does to have as many as are wanted. -/

namespace MiniLua

open Effects Machine Eval

section

variable {vs ws : List Value} {n : Nat}

theorem adjusted_of_le (h : vs.length ≤ n) :
    adjusted vs (some n) = vs ++ List.replicate (n - vs.length) .nil := by
  induction vs generalizing n with
  | nil =>
    apply List.ext_getElem <;> simp [adjusted]
  | cons v vs ih =>
    obtain ⟨n, rfl⟩ : ∃ m, n = m + 1 := ⟨n - 1, by simp at h; omega⟩
    rw [adjusted_succ, List.tail_cons, ih (by simpa using h)]
    simp

theorem adjusted_of_ge (h : n ≤ vs.length) : adjusted vs (some n) = vs.take n := by
  induction vs generalizing n with
  | nil =>
    obtain rfl : n = 0 := by simpa using h
    rfl
  | cons v vs ih =>
    cases n with
    | zero => rfl
    | succ n =>
      rw [adjusted_succ, List.tail_cons, ih (by simpa using h)]
      rfl

theorem forall₂_adjusted {R : Value → Value → Prop} (hnil : R .nil .nil) (h : List.Forall₂ R vs ws)
    (count : Option Nat) : List.Forall₂ R (adjusted vs count) (adjusted ws count) := by
  cases count with
  | none => exact h
  | some n =>
    induction n generalizing vs ws with
    | zero => exact .nil
    | succ n ih =>
      rw [adjusted_succ, adjusted_succ]
      cases h with
      | nil => exact .cons hnil (ih .nil)
      | cons hv hvs => exact .cons hv (ih hvs)

end

/-- There are as many values as expected; if all were expected, the machine has noted their number. -/
def Counts (expected : Option Nat) (vs : List Value) (s : State) : Prop :=
  match expected with
  | some n => vs.length = n
  | none => s.lastMulti = vs.length

/-- What an expression leaves of which so many values are wanted. -/
def Expr.Yields (e : Expr) (want : Want) (vs : List Value) (s : State) : Prop :=
  if e.isMulti then Counts want.count? vs s else vs.length = 1

theorem Expr.Yields.length_eq_one {e : Expr} {vs : List Value} {s : State}
    (h : e.Yields (.exactly 1) vs s) : vs.length = 1 := by
  unfold Yields at h
  split at h <;> exact h

theorem Home.AdjustAt.eq_length {U : Home} {pushed pc pc' n : Nat} {want : Want} {vs : List Value}
    (h : U.AdjustAt pushed want pc pc' n) (hpushed : vs.length = pushed) :
    n = (adjusted vs want.count?).length := by
  cases want with
  | all => exact h.1.trans hpushed.symm
  | exactly m => exact h.1.trans length_adjusted.symm

theorem Home.Asks.count? {want : Want} {n : Nat} (h : Asks want n) :
    (if n = 0 then none else some (n - 1)) = want.count? := by
  cases want with
  | all =>
    rw [Asks] at h
    rw [if_pos h]
    rfl
  | exactly m =>
    obtain ⟨-, rfl⟩ := h
    rfl

/-- What an operand says of an open number of values. -/
theorem open_of_flag {b : UInt8} {multi : Bool} (h : b = 0 ↔ multi = false) (count : Nat) :
    (if b = 0 then 0 else count) = if multi then count else 0 := by
  cases multi with
  | false => simp [h.mpr rfl]
  | true =>
    have hne : b ≠ 0 := fun hzero ↦ nomatch h.mp hzero
    simp [hne]

/-- What is wanted behind some values. -/
def Want.behind (want : Want) (pushed : Nat) : Want :=
  match want with
  | .exactly n => .exactly (n - pushed)
  | .all => .all

theorem Want.less_behind (want : Want) (pushed : Nat) :
    (want.behind pushed).less = want.behind (pushed + 1) := by
  cases want with
  | all => rfl
  | exactly n => exact congrArg Want.exactly (by omega)

section

variable {natives : Array Native} {code : Heap} {p : Spot} {U : Home} {c : Context}
  {locals : List Local} {env : Bindings} {cells : Array (Option Nat)} {pc pc' k n : Nat}
  {S S' : Array Value} {w : World} {s t : State} {want : Want}

/-- The run goes on alone, and then the evaluation goes on. -/
theorem Meets.followed {α : Type} {P : State → Prop} {Q : α → World → State → Prop}
    {r : EStateM.Result Ending World α}
    (h : Meets natives code k w s (fun _ w' t ↦ w' = w ∧ P t) (.ok () w : EStateM.Result _ _ Unit))
    (hrest : ∀ t, Later w s w t → t.Shows natives code w → P t → Meets natives code k w t Q r) :
    Meets natives code k w s Q r := by
  cases h with
  | overflows halts => exact .overflows halts
  | ok reaches later shows h => exact (hrest _ later shows h.2).after reaches later

namespace Spot.At

variable (h : p.At U pc cells S s) (hshows : s.Shows natives code w)

include h hshows

/-- One instruction that only changes the stack. -/
theorem goesOn {op : Opcode} {operands : Instruction → Prop} (hhas : U.Has op operands pc pc')
    (S' : Array Value) (vs : List Value)
    (hperform : ∀ i, operands i →
      perform (p.frame pc cells) U.proto.constants i op (p.moved pc' cells S s) =
        give vs (p.moved pc' cells S' s)) :
    Meets natives code k w s (fun _ w' t ↦ w' = w ∧ p.At U pc' cells (S' ++ vs) t)
      (.ok () w : EStateM.Result _ _ Unit) := by
  obtain ⟨i, hoperands, hstep⟩ := h.fetch natives hhas
  rw [hperform i hoperands] at hstep
  have hshows' := h.moved_shows hshows pc' S'
  obtain hreaches | ⟨u, hu⟩ := reaches_or_overflows hstep hshows'.guests
  · have hat : p.At U pc' cells (S' ++ vs) (p.moved pc' cells (S' ++ vs) s) := h.moved pc' _
    exact .ok hreaches ⟨.refl _, .refl _⟩ (h.moved_shows hshows pc' _) ⟨rfl, hat⟩
  · exact .overflows hu

theorem pushesNils {bound : Nat} (hnils : U.RepeatedAt .loadNil bound n pc pc') (hn : n ≤ bound) :
    Meets natives code k w s
      (fun _ w' t ↦ w' = w ∧ p.At U pc' cells (S ++ List.replicate n Value.nil) t)
      (.ok () w : EStateM.Result _ _ Unit) := by
  induction bound generalizing n pc S s with
  | zero =>
    obtain rfl : pc' = pc := hnils
    obtain rfl : n = 0 := by omega
    exact .pure hshows ⟨rfl, by simpa using h⟩
  | succ bound ih =>
    rw [Home.RepeatedAt] at hnils
    split at hnils
    · next hzero =>
      subst hnils hzero
      exact .pure hshows ⟨rfl, by simpa using h⟩
    · obtain ⟨q, hfirst, hmore⟩ := hnils
      refine (h.goesOn hshows hfirst S (List.replicate (min n 255) .nil)
        fun i hi ↦ by rw [perform_loadNil, hi]).followed fun t _ hshows' hat ↦ ?_
      refine (ih hat hshows' hmore (by omega)).mono fun _ w' u _ hnils ↦ ?_
      obtain ⟨hw, hu⟩ := hnils
      refine ⟨hw, ?_⟩
      rwa [appendList_append, List.replicate_append_replicate,
        show min n 255 + (n - 255) = n by omega] at hu

theorem pops {bound : Nat} {vs : List Value} (hpops : U.RepeatedAt .pop bound vs.length pc pc')
    (hbound : vs.length ≤ bound) (hS : S = S' ++ vs) :
    Meets natives code k w s (fun _ w' t ↦ w' = w ∧ p.At U pc' cells S' t)
      (.ok () w : EStateM.Result _ _ Unit) := by
  induction bound generalizing vs pc S s with
  | zero =>
    obtain rfl : pc' = pc := hpops
    obtain rfl : vs = [] := List.eq_nil_of_length_eq_zero (by omega)
    exact .pure hshows ⟨rfl, by simpa [hS] using h⟩
  | succ bound ih =>
    rw [Home.RepeatedAt] at hpops
    split at hpops
    · next hzero =>
      subst hpops
      obtain rfl : vs = [] := List.eq_nil_of_length_eq_zero hzero
      exact .pure hshows ⟨rfl, by simpa [hS] using h⟩
    · obtain ⟨q, hfirst, hmore⟩ := hpops
      obtain ⟨low, high, rfl, hhigh⟩ : ∃ low high, vs = low ++ high ∧ high.length = min vs.length 255 :=
        ⟨vs.take (vs.length - min vs.length 255), vs.drop (vs.length - min vs.length 255),
          (List.take_append_drop _ _).symm, by simp; omega⟩
      have hlow : low.length = (low ++ high).length - 255 := by
        simp only [List.length_append] at hhigh ⊢
        omega
      refine (h.goesOn hshows hfirst (S' ++ low) [] fun i hi ↦ ?_).followed
        fun t _ hshows' hat ↦ ?_
      · have hstack : (p.moved q cells S s).stack = S' ++ low ++ high := by
          rw [Spot.moved, hS, appendList_append]
        rw [perform_pop hstack (by rw [hi, hhigh])]
        simp [give]
        rfl
      · refine ih hat hshows' (hlow ▸ hmore) (by omega) (by simp)

/-- Values are brought to the wanted number. -/
theorem adjusts {pushed : Nat} {vs : List Value} (hadjust : U.AdjustAt pushed want pc pc' n)
    (hpushed : vs.length = pushed) (hS : S = S' ++ vs) :
    Meets natives code k w s
      (fun _ w' t ↦ w' = w ∧ p.At U pc' cells (S' ++ adjusted vs want.count?) t)
      (.ok () w : EStateM.Result _ _ Unit) := by
  subst hS hpushed
  cases want with
  | all =>
    obtain ⟨-, rfl⟩ := hadjust
    exact .pure hshows ⟨rfl, h⟩
  | exactly m =>
    obtain ⟨-, hadjust⟩ := hadjust
    rw [Want.count?]
    split at hadjust
    · next hlt =>
      rw [adjusted_of_le hlt.le, ← appendList_append]
      exact h.pushesNils hshows hadjust (Nat.le_refl _)
    · next hge =>
      rw [adjusted_of_ge (by omega)]
      have hsplit : S' ++ vs = S' ++ vs.take m ++ vs.drop m := by
        rw [appendList_append, List.take_append_drop]
      exact h.pops hshows (by simpa using hadjust) (by simp) hsplit

omit hshows in
theorem jump_step {x : Nat} (hhas : U.Wide .jump x pc pc') :
    step natives .execute s = .next .execute (p.moved x cells S s) := by
  obtain ⟨i, rfl, hstep⟩ := h.fetch natives hhas
  rw [hstep, perform_jump]
  rfl

/-- A jump. -/
theorem jumps {x : Nat} (hhas : U.Wide .jump x pc pc') :
    Meets natives code k w s (fun _ w' t ↦ w' = w ∧ p.At U x cells S t)
      (.ok () w : EStateM.Result _ _ Unit) :=
  .ok (.of_step (h.jump_step hhas)) ⟨.refl _, .refl _⟩ (h.moved_shows hshows _ S) ⟨rfl, h.moved _ S⟩

omit hshows in
theorem branch_step (natives : Array Native) {x : Nat} {v v' : Value} (hhas : U.Wide .jumpIfFalse x pc pc')
    (hS : S = S'.push v') (hv : w.Same natives s v v') : step natives .execute s =
      .next .execute (p.moved (if v.isFalsey then x else pc') cells S' s) := by
  subst hS
  obtain ⟨i, rfl, hstep⟩ := h.fetch natives hhas
  rw [hstep, perform_jumpIfFalse rfl, hv.isFalsey]
  cases v'.isFalsey <;> rfl

/-- A jump if the value on top of the stack says so. -/
theorem branches {x : Nat} {v v' : Value} (hhas : U.Wide .jumpIfFalse x pc pc') (hS : S = S'.push v')
    (hv : w.Same natives s v v') :
    Meets natives code k w s
      (fun _ w' t ↦ w' = w ∧ p.At U (if v.isFalsey then x else pc') cells S' t)
      (.ok () w : EStateM.Result _ _ Unit) :=
  .ok (.of_step (h.branch_step natives hhas hS hv)) ⟨.refl _, .refl _⟩ (h.moved_shows hshows _ S')
    ⟨rfl, h.moved _ S'⟩

/-- A jump over the right operand, which keeps the left one, if that is the result. -/
theorem shortcuts {o : BinaryOp} {x : Nat} {v v' : Value} (ho : o.opcode? = none)
    (hhas : U.Wide o.shortcut x pc pc') (hS : S = S'.push v') (hv : w.Same natives s v v') :
    Meets natives code k w s
      (fun _ w' t ↦ w' = w ∧ if o.settles v then p.At U x cells S t else p.At U pc' cells S' t)
      (.ok () w : EStateM.Result _ _ Unit) := by
  subst hS
  obtain ⟨i, rfl, hstep⟩ := h.fetch natives hhas
  have hperform : perform (p.frame pc cells) U.proto.constants i o.shortcut
      (p.moved pc' cells (S'.push v') s) = .ok .nothing
        (if o.settles v' then p.moved i.x cells (S'.push v') s else p.moved pc' cells S' s) := by
    cases o with
    | and => exact perform_jumpIfFalseKeep rfl
    | or => exact perform_jumpIfTrueKeep rfl
    | _ => cases ho
  rw [hperform] at hstep
  rw [o.settles_of_matches hv]
  cases hsettles : o.settles v' with
  | true =>
    rw [hsettles] at hstep
    exact .ok (.of_step hstep) ⟨.refl _, .refl _⟩ (h.moved_shows hshows _ _) ⟨rfl, h.moved _ _⟩
  | false =>
    rw [hsettles] at hstep
    exact .ok (.of_step hstep) ⟨.refl _, .refl _⟩ (h.moved_shows hshows _ _) ⟨rfl, h.moved _ _⟩

end Spot.At

/-- What the evaluation calls the run calls, and both go on with corresponding results. -/
def Context.CallsMeet (natives : Array Native) (code : Heap) (c : Context) : Prop :=
  ∀ {p : Spot} {U : Home} {pc : Nat} {cells : Array (Option Nat)} {S : Array Value} {w : World}
    {s t : State} {f f' : Value} {args args' : List Value} {expected : Option Nat},
    instruction s = .ok (.call args'.length expected) t →
    Later w s w t → t.Shows natives code w → p.At U pc cells (S.push f' ++ args') t →
    w.Same natives t f f' → List.Forall₂ (w.Same natives t) args args' →
    Meets natives code c.rounds w s
      (fun vs w u ↦ p.Leaves natives U pc cells S vs w u ∧ Counts expected vs u)
      (c.call f args expected w)

theorem Counts.of_counted {u : State} {expected : Option Nat} {vs vs' : List Value}
    (hmulti : u.lastMulti = (counted vs' expected t).lastMulti) (hlength : vs.length = vs'.length) :
    Counts expected (adjusted vs expected) u := by
  cases expected with
  | none => exact hmulti.trans hlength.symm
  | some n => exact length_adjusted

/-- As many values are pushed as are expected. -/
theorem meets_counted {w' : World} {expected : Option Nat} {vs vs' : List Value}
    (hstep : step natives .execute s = Transition.afterInstruction natives
      (give (adjusted vs' expected) (counted vs' expected t)))
    (hlater : Later w s w' t) (hshows : t.Shows natives code w') (hat : p.At U pc cells S t)
    (hvs : List.Forall₂ (w'.Same natives t) vs vs') :
    Meets natives code k w s
      (fun vs w u ↦ p.Leaves natives U pc cells S vs w u ∧ Counts expected vs u)
      (.ok (adjusted vs expected) w') := by
  have hheap : (counted vs' expected t).heap = t.heap := by cases expected <;> rfl
  have hat' : p.At U pc cells S (counted vs' expected t) := by
    cases expected <;> exact hat.later (.refl _) hat.calls hat.stack rfl
  have hshows' : (counted vs' expected t).Shows natives code w' := by
    cases expected <;> exact hat.shows hat' hshows rfl rfl rfl
  refine (meets_give hstep ⟨hlater.world, hheap ▸ hlater.state⟩ hshows' hat' ?_).mono_ok
    fun u _ ⟨hleaves, hmulti⟩ ↦ ⟨hleaves, .of_counted hmulti hvs.length_eq⟩
  rw [World.Same, hheap]
  exact forall₂_adjusted .nil hvs expected

namespace Spot.Runs

variable (h : p.Runs natives code U c locals env cells pc S w s)

include h

/-- The arguments for `...`. -/
theorem expands (hvarargs : U.VarargsAt want pc pc') :
    Meets natives code k w s
      (fun vs w u ↦ p.Leaves natives U pc' cells S vs w u ∧ Counts want.count? vs u)
      (.ok (adjusted c.varargs want.count?) w) := by
  obtain ⟨-, hhas⟩ := hvarargs
  obtain ⟨i, hasks, hstep⟩ := h.place.fetch natives hhas
  rw [perform_varargs, hasks.count?] at hstep
  exact meets_counted hstep ⟨.refl _, .refl _⟩ (h.place.moved_shows h.shows _ _) (h.place.moved _ _)
    h.varargs

/-- A call of what lies under its arguments. -/
theorem calls {multi : Bool} {f f' : Value} {args args' : List Value}
    (hcalls : c.CallsMeet natives code) (hcall : U.CallAt n multi want pc pc')
    (hS : S = S'.push f' ++ args') (hcount : n + (if multi then s.lastMulti else 0) = args'.length)
    (hf : w.Same natives s f f') (hargs : List.Forall₂ (w.Same natives s) args args') :
    Meets natives code c.rounds w s
      (fun vs w u ↦ p.Leaves natives U pc' cells S' vs w u ∧ Counts want.count? vs u)
      (c.call f args want.count? w) := by
  obtain ⟨i, ⟨rfl, hmulti, hasks⟩, hcalled⟩ := h.place.performs hcall
  have hargCount : i.a.toNat + (if i.b = 0 then 0 else s.lastMulti) = args'.length := by
    rw [open_of_flag hmulti, hcount]
  rw [perform_call_apply, hasks.count?] at hcalled
  change instruction s =
    .ok (.call (i.a.toNat + (if i.b = 0 then 0 else s.lastMulti)) want.count?) _ at hcalled
  rw [hargCount] at hcalled
  exact hcalls hcalled ⟨.refl _, .refl _⟩ (h.place.moved_shows h.shows pc' S) (hS ▸ h.place.moved pc' S)
    hf hargs

end Spot.Runs

end

end MiniLua
