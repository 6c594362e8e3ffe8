import MiniLua.Proofs.Meaning.Assignments

/-! Where a run is when a statement has ended, and the rule for loops. -/

namespace MiniLua

open Effects Machine Eval

section

variable (natives : Array Native) (p : Spot) (U : Home)

/-- The function is about to return the values on top of the stack. -/
def Spot.Returning (S : Array Value) (vs : List Value) (w : World) (t : State) : Prop :=
  ∃ pc cells, ∃ vs' : List Value, p.At U pc cells (S ++ vs') t ∧
    List.Forall₂ (w.Same natives t) vs vs' ∧
    step natives .execute t = Transition.guestReturn vs' (p.moved (pc + 1) cells S t)

/-- Where the run is when a statement has ended so: the function is behind it, or behind the innermost
loop, or about to return. The stack is as before, but for the values to be returned. -/
def Spot.Ended (pc : Nat) (locals locals' : List Local) (cells : Array (Option Nat)) (S : Array Value)
    (env' : Bindings) : Flow → World → State → Prop
  | .next, _, t => ∃ cells', p.At U pc cells' S t ∧ SlotsKept locals cells cells' ∧
      U.Sees p.upvalues locals' cells' env'
  | .exit, _, t => ∃ exit cells', U.exit = some exit ∧ p.At U exit cells' S t ∧
      SlotsKept locals cells cells'
  | .ret vs, w, t => p.Returning natives U S vs w t

end

section

variable {natives : Array Native} {code : Heap} {p : Spot} {U : Home} {c : Context} {pc pc' k : Nat}
  {locals locals₁ locals₂ : List Local} {env env₁ : Bindings} {cells cells₁ : Array (Option Nat)}
  {S : Array Value} {w : World} {s t : State} {flow : Flow}

theorem Spot.At.inLoop (h : p.At U pc cells S s) (exit : Option Nat) :
    p.At { U with exit } pc cells S s := ⟨h.calls, h.stack, h.code, h.room⟩

theorem Spot.At.outside {exit : Option Nat} (h : p.At { U with exit } pc cells S s) :
    p.At U pc cells S s := ⟨h.calls, h.stack, h.code, h.room⟩

theorem Home.Sees.inLoop {upvalues : Array Nat} (h : U.Sees upvalues locals cells env)
    (exit : Option Nat) : Home.Sees { U with exit } upvalues locals cells env := by
  obtain ⟨own, around, henv, hown, hsupplied⟩ := h
  exact ⟨own, around, henv, hown, ⟨hsupplied.size, hsupplied.captured, hsupplied.global⟩⟩

theorem Home.Sees.outside {upvalues : Array Nat} {exit : Option Nat}
    (h : Home.Sees { U with exit } upvalues locals cells env) : U.Sees upvalues locals cells env := by
  obtain ⟨own, around, henv, hown, hsupplied⟩ := h
  exact ⟨own, around, henv, hown, ⟨hsupplied.size, hsupplied.captured, hsupplied.global⟩⟩

theorem Spot.Runs.inLoop (h : p.Runs natives code U c locals env cells pc S w s) (exit : Option Nat) :
    p.Runs natives code { U with exit } c locals env cells pc S w s :=
  ⟨⟨h.fits.closure, h.fits.heap, h.fits.short⟩, h.place.inLoop exit, h.shows, h.varargs,
    h.sees.inLoop exit⟩

namespace Spot.Ended

/-- Behind other statements. -/
theorem after (h : p.Ended natives U pc locals₁ locals₂ cells₁ S env₁ flow w t)
    (hkept : SlotsKept locals cells cells₁) (hsub : locals ⊆ locals₁) :
    p.Ended natives U pc locals locals₂ cells S env₁ flow w t := by
  cases flow with
  | next =>
    obtain ⟨cells', hat, hkept', hsees⟩ := h
    exact ⟨cells', hat, hkept.trans hsub hkept', hsees⟩
  | exit =>
    obtain ⟨exit, cells', hexit, hat, hkept'⟩ := h
    exact ⟨exit, cells', hexit, hat, hkept.trans hsub hkept'⟩
  | ret vs => exact h

/-- At the end of a scope. -/
theorem closed (h : p.Ended natives U pc locals locals₂ cells S env₁ flow w t)
    (hsees : U.Sees p.upvalues locals cells env) :
    p.Ended natives U pc locals locals cells S env flow w t := by
  cases flow with
  | next =>
    obtain ⟨cells', hat, hkept, -⟩ := h
    exact ⟨cells', hat, hkept, hsees.agree hkept⟩
  | exit => exact h
  | ret vs => exact h

/-- Behind a loop that is left from within. -/
theorem caught {exit : Nat}
    (h : p.Ended natives { U with exit := some exit } pc locals locals₂ cells S env₁ flow w t)
    (hnext : flow ≠ .next) (hsees : U.Sees p.upvalues locals cells env) :
    p.Ended natives U exit locals locals cells S env flow.caught w t := by
  cases flow with
  | next => exact absurd rfl hnext
  | exit =>
    obtain ⟨_, cells', hexit, hat, hkept⟩ := h
    cases hexit
    exact ⟨cells', hat.outside, hkept, hsees.agree hkept⟩
  | ret vs =>
    obtain ⟨pc', cells', vs', hat, hvs, hstep⟩ := h
    exact ⟨pc', cells', vs', hat.outside, hvs, hstep⟩

end Spot.Ended

/-- Less is known of how long the run takes. -/
theorem Meets.weaken {α : Type} {Q : α → World → State → Prop} {r : EStateM.Result Ending World α}
    {l : Nat} (h : Meets natives code k w s Q r) (hl : l ≤ k) : Meets natives code l w s Q r := by
  cases h with
  | overflows halts => exact .overflows halts
  | ok reaches later shows h => exact .ok reaches later shows h
  | error halts same heap host => exact .error halts same heap host
  | loads reaches calls => exact .loads reaches calls
  | spent lasts => exact .spent (lasts.of_le hl)

/-- One step more. -/
theorem Meets.stepped {α : Type} {Q : α → World → State → Prop} {r : EStateM.Result Ending World α}
    {w₁ : World} (hstep : step natives .execute s = .next .execute t) (hlater : Later w s w₁ t)
    (h : Meets natives code k w₁ t Q r) : Meets natives code (k + 1) w s Q r := by
  cases h with
  | overflows halts => exact .overflows ((Reaches.of_step hstep).halts halts)
  | ok reaches later shows h =>
    exact .ok ((Reaches.of_step hstep).trans reaches) (hlater.trans later) shows h
  | error halts same heap host => exact .error ((Reaches.of_step hstep).halts halts) same heap host
  | loads reaches calls => exact .loads ((Reaches.of_step hstep).trans reaches) calls
  | spent lasts => exact .spent (.step hstep lasts)

/-- How a round of a loop ends: the loop ends, or one step leads to where the next round begins. -/
def Again (natives : Array Native) (Inv : World → State → Prop) (Q : Flow → World → State → Prop) :
    Option Flow → World → State → Prop
  | some flow, w, t => Q flow w t
  | none, w, t => ∃ u, step natives .execute t = .next .execute u ∧ Later w t w u ∧ Inv w u

/-- A jump leads back to where the next round begins. -/
theorem Spot.Runs.again {Inv : World → State → Prop} {Q : Flow → World → State → Prop} {x : Nat}
    (h : p.Runs natives code U c locals env cells pc S w s) (hback : U.Wide .jump x pc pc')
    (hinv : ∀ t, p.Runs natives code U c locals env cells x S w t → Inv w t) :
    Again natives Inv Q none w s :=
  ⟨_, h.place.jump_step hback, ⟨.refl _, .refl _⟩, hinv _ (h.onward ⟨.refl _, .refl _⟩
    (h.place.moved_shows h.shows x S) (h.place.moved x S))⟩

theorem meets_rounds (Inv : World → State → Prop) {Q : Flow → World → State → Prop}
    {round : Eval (Option Flow)}
    (hround : ∀ {w s}, Inv w s → Meets natives code k w s (Again natives Inv Q) (round w)) {rounds : Nat}
    (hrounds : rounds ≤ k) (h : Inv w s) :
    Meets natives code rounds w s Q (Eval.rounds rounds round w) := by
  induction rounds generalizing w s with
  | zero => exact .spent (.zero s)
  | succ rounds ih =>
    rw [Eval.rounds]
    refine ((hround h).weaken hrounds).bind fun again w₁ t hlater hshows hagain ↦ ?_
    cases again with
    | some flow => exact .pure hshows hagain
    | none =>
      obtain ⟨u, hstep, hlater', hinv⟩ := hagain
      exact (ih (by omega) hinv).stepped hstep hlater'

section

variable (h : p.Runs natives code U c locals env cells pc S w s) {x counter limit step : Nat}
  (hcounter : cells[x]? = some (some counter)) (hlimit : cells[x + 1]? = some (some limit))
  (hstep : cells[x + 2]? = some (some step))

include h hcounter hlimit hstep

namespace Spot.Runs

theorem preparesLoop (hhas : U.Wide .forPrep x pc pc') :
    Meets natives code k w s (fun _ _ t ↦ p.At U pc' cells S t)
      (act (prepareLoop ⟨counter, limit, step⟩) w) := by
  refine h.does hhas (prepareLoop ⟨counter, limit, step⟩) (fun i hx ↦ ?_) fun htallies ↦
    Tallied.prepareLoop htallies _
  subst hx
  exact perform_forPrep hcounter hlimit hstep

theorem testsLoop (hhas : U.Wide .forTest x pc pc') :
    Meets natives code k w s (fun _ w' t ↦ w' = w ∧
        p.At U pc' cells (S.push (.bool (loopGoes w.machine.heap ⟨counter, limit, step⟩))) t)
      (.ok () w : EStateM.Result _ _ Unit) := by
  rw [loopGoes_of_pairs h.shows.tallies.heap]
  refine h.place.goesOn h.shows hhas S
    ([.bool (loopGoes s.heap ⟨counter, limit, step⟩)]) fun i hx ↦ ?_
  subst hx
  exact perform_forTest hcounter hlimit hstep

theorem advancesLoop (hhas : U.Wide .forStep x pc pc') :
    Meets natives code k w s (fun _ _ t ↦ p.At U pc' cells S t)
      (act (advanceLoop ⟨counter, limit, step⟩) w) := by
  refine h.does hhas (advanceLoop ⟨counter, limit, step⟩) (fun i hx ↦ ?_) fun htallies ↦
    Tallied.advanceLoop htallies _
  subst hx
  exact perform_forStep hcounter hlimit hstep

/-- One round of a numeric loop. -/
theorem meetsRound {cells₀ : Array (Option Nat)} {l : Local} {body : Nat → Eval Flow}
    {ends test q₁ q₂ r₁ r₂ last : Nat} (hkept : SlotsKept locals cells₀ cells)
    (hslots : ∀ slot ∈ [x, x + 1, x + 2], ∃ l ∈ locals, l.cell = slot) (hfresh : U.Fresh locals l)
    (htest : U.Wide .forTest x pc test) (hexit : U.Wide .jumpIfFalse ends test q₁)
    (hget : U.Wide .getCell x q₁ q₂) (hcell : U.Wide .newCell l.cell q₂ r₁)
    (hforStep : U.Wide .forStep x r₂ last) (hback : U.Wide .jump pc last ends)
    (hbody : ∀ {cell : Nat} {cells : Array (Option Nat)} {w : World} {s : State},
      p.Runs natives code { U with exit := some ends } c (l :: locals) ((l.name, cell) :: env) cells r₁ S w s →
      Meets natives code k w s (p.Ended natives { U with exit := some ends } r₂ (l :: locals) (l :: locals)
        cells S ((l.name, cell) :: env)) (body cell w)) :
    Meets natives code k w s
      (Again natives (fun w s ↦ ∃ cells', p.Runs natives code U c locals env cells' pc S w s ∧
        SlotsKept locals cells₀ cells') (p.Ended natives U ends locals locals cells₀ S env))
      (numericRound ⟨counter, limit, step⟩ body w) := by
  rw [numericRound]
  refine .bind_eq rfl ?_
  refine (h.testsLoop hcounter hlimit hstep htest).followed fun t₁ hlater₁ hshows₁ hat₁ ↦ ?_
  refine (hat₁.branches hshows₁ hexit rfl (.bool _)).followed fun t₂ hlater₂ hshows₂ hat₂ ↦ ?_
  cases hgoes : loopGoes w.machine.heap ⟨counter, limit, step⟩ with
  | false =>
    rw [hgoes] at hat₂
    exact .pure hshows₂ ⟨cells, hat₂, hkept, h.sees⟩
  | true =>
    rw [hgoes] at hat₂
    have h₂ := h.onward (hlater₁.trans hlater₂) hshows₂ hat₂
    have hcontent : Meets natives code k w t₂ (p.LeavesOne natives U q₂ cells S) (content counter w) :=
      h₂.pushes hget (fun _ hx ↦ perform_getCell (hx ▸ hcounter)) (hshows₂.tallies.heap.cell counter)
    refine hcontent.bind fun v w₃ t₃ hlater₃ hshows₃ ⟨v', hv, hat₃⟩ ↦ ?_
    have h₃ := h₂.onward hlater₃ hshows₃ hat₃
    refine (h₃.makesCell hcell hfresh.cell_lt rfl hv).bind fun cell w₄ t₄ hlater₄ hshows₄ hat₄ ↦ ?_
    have h₄ := h₃.goes hlater₄ hshows₄ hat₄ (h.sees.declare hfresh h.place.room cell)
    have hset : SlotsKept locals cells (cells.setIfInBounds l.cell (some cell)) := .set hfresh.cell_ne _
    have hsub : locals ⊆ l :: locals := List.subset_cons_self l locals
    refine (hbody (h₄.inLoop (some ends))).bind fun flow w₅ t₅ hlater₅ hshows₅ hended ↦ ?_
    have hleft (hnext : flow ≠ .next) :
        p.Ended natives U ends locals locals cells₀ S env flow.caught w₅ t₅ :=
      ((hended.caught hnext h₄.sees).after (hkept.trans (List.Subset.refl _) hset) hsub).closed
        (h.sees.agree hkept.symm)
    cases flow with
    | next =>
      obtain ⟨cells₅, hat₅, hkept₅, -⟩ := hended
      have hkept₅ := hset.trans hsub hkept₅
      have hslot {slot : Nat} (hslot : slot ∈ [x, x + 1, x + 2]) : cells₅[slot]? = cells[slot]? := by
        obtain ⟨l, hl, rfl⟩ := hslots slot hslot
        exact hkept₅ l hl
      have h₅ := h.goes (((hlater₁.trans hlater₂).trans hlater₃).trans (hlater₄.trans hlater₅)) hshows₅
        hat₅.outside (h.sees.agree hkept₅)
      refine (h₅.advancesLoop ((hslot (by simp)).trans hcounter) ((hslot (by simp)).trans hlimit)
        ((hslot (by simp)).trans hstep) hforStep).bind fun _ w₆ t₆ hlater₆ hshows₆ hat₆ ↦ ?_
      exact .pure hshows₆ ((h₅.onward hlater₆ hshows₆ hat₆).again hback fun t ht ↦
        ⟨cells₅, ht, hkept.trans (List.Subset.refl _) hkept₅⟩)
    | exit => exact .pure hshows₅ (hleft nofun)
    | ret vs => exact .pure hshows₅ (hleft nofun)

end Spot.Runs

end

end

end MiniLua
