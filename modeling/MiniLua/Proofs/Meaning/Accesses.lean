import MiniLua.Proofs.Meaning.Spots

/-!
What single instructions of compiled code do for an evaluation: first one rule for each kind of instruction,
then constants, variables and operators.
-/

namespace MiniLua

open Effects Machine Eval

section

variable (natives : Array Native) (p : Spot) (U : Home)

/-- The function is at `pc`, with these values on top of the stack. -/
def Spot.Leaves (pc : Nat) (cells : Array (Option Nat)) (S : Array Value) (vs : List Value) (w : World)
    (s : State) : Prop :=
  ∃ vs', List.Forall₂ (w.Same natives s) vs vs' ∧ p.At U pc cells (S ++ vs') s

/-- The function is at `pc` with one value on top of the stack. -/
def Spot.LeavesOne (pc : Nat) (cells : Array (Option Nat)) (S : Array Value) (v : Value) (w : World)
    (s : State) : Prop :=
  ∃ v', w.Same natives s v v' ∧ p.At U pc cells (S.push v') s

end

section

variable {natives : Array Native} {code : Heap} {k : Nat} {w w' : World} {s t : State} {p : Spot} {U : Home}
  {pc pc' : Nat} {cells : Array (Option Nat)} {S : Array Value} {vs vs' : List Value}

theorem Spot.leavesOne_iff {v : Value} :
    p.LeavesOne natives U pc cells S v w s ↔ p.Leaves natives U pc cells S [v] w s := by
  constructor
  · rintro ⟨v', hv, hat⟩
    exact ⟨[v'], .cons hv .nil, by simpa using hat⟩
  · rintro ⟨vs', hvs, hat⟩
    obtain ⟨v', rest, hv, hrest, rfl⟩ := List.forall₂_cons_left_iff.mp hvs
    obtain rfl := List.forall₂_nil_left_iff.mp hrest
    exact ⟨v', hv, by simpa using hat⟩

namespace Meets

/-- The first of one value. -/
theorem one {m : Eval (List Value)} (h : Meets natives code k w s
      (fun vs w t ↦ p.Leaves natives U pc cells S vs w t ∧ vs.length = 1) (m w)) :
    Meets natives code k w s (p.LeavesOne natives U pc cells S) (Eval.one m w) := by
  refine h.bind fun vs w' t _ hshows ⟨hleaves, hlength⟩ ↦ .pure hshows ?_
  obtain ⟨v, rfl⟩ := List.length_eq_one_iff.mp hlength
  exact Spot.leavesOne_iff.mpr hleaves

/-- One value as a list. -/
theorem single {m : Eval Value} (h : Meets natives code k w s (p.LeavesOne natives U pc cells S) (m w)) :
    Meets natives code k w s (fun vs w t ↦ p.Leaves natives U pc cells S vs w t ∧ vs.length = 1)
      ((do return [← m] : Eval (List Value)) w) :=
  h.bind fun _ _ _ _ hshows hleaves ↦ .pure hshows ⟨Spot.leavesOne_iff.mp hleaves, rfl⟩

end Meets

/-- The instruction pushes values that the evaluation has. -/
theorem meets_give (hstep : step natives .execute s = Transition.afterInstruction natives (give vs' t))
    (hlater : Later w s w' t) (hshows : t.Shows natives code w') (hat : p.At U pc cells S t)
    (hvs : List.Forall₂ (w'.Same natives t) vs vs') :
    Meets natives code k w s
      (fun vs w u ↦ p.Leaves natives U pc cells S vs w u ∧ u.lastMulti = t.lastMulti) (.ok vs w') := by
  obtain hreaches | ⟨u, hu⟩ := reaches_or_overflows hstep hshows.guests
  · have hat' : p.At U pc cells (S ++ vs') { t with stack := t.stack ++ vs' } :=
      hat.later (.refl _) hat.calls (by rw [hat.stack]) rfl
    exact .ok hreaches ⟨hlater.world, hlater.state⟩ (hat.shows hat' hshows rfl rfl rfl)
      ⟨⟨vs', hvs, hat'⟩, rfl⟩
  · exact .overflows hu

/-- The instruction pushes one value that the evaluation has. -/
theorem meets_giveOne {v v' : Value}
    (hstep : step natives .execute s = Transition.afterInstruction natives (give [v'] t))
    (hlater : Later w s w' t) (hshows : t.Shows natives code w') (hat : p.At U pc cells S t)
    (hv : w'.Same natives t v v') :
    Meets natives code k w s (p.LeavesOne natives U pc cells S) (.ok v w' : EStateM.Result _ _ _) :=
  (meets_give hstep hlater hshows hat (.cons hv .nil)).mono_ok fun _ _ h ↦ Spot.leavesOne_iff.mpr h.1

/-- The instruction does on the machine's data what the evaluation does on the world's. -/
theorem meets_act {α α' : Type} {P : Heap → Heap → α → α' → Prop} {Q : α → World → State → Prop}
    {m : Machine α} {m' : Machine α'} {f : α' → Machine Demand}
    (hstep : step natives .execute s =
      Transition.afterInstruction natives ((do f (← m') : Machine Demand) t))
    (hlater : Later w s w t) (hshows : t.Shows natives code w)
    (hm : Tallied natives.size P w.machine t (m w.machine) (m' t))
    (hf : ∀ a a' m₁ t₁, w.machine.Works m₁ → t.Works t₁ → P m₁.heap t₁.heap a a' →
      Later w s { w with machine := m₁ } t₁ → t₁.Shows natives code { w with machine := m₁ } →
      step natives .execute s = Transition.afterInstruction natives (f a' t₁) →
      Meets natives code k w s Q (.ok a { w with machine := m₁ })) :
    Meets natives code k w s Q (act m w) := by
  rw [act]
  rw [bind_apply] at hstep
  generalize m w.machine = r, m' t = r' at hm hstep
  cases hm with
  | @ok a a' m₁ t₁ htallies hworks hworks' ha =>
    exact hf a a' m₁ t₁ hworks hworks' ha (hlater.trans (State.Shows.later hworks hworks'))
      (hshows.works htallies hworks hworks') hstep
  | @error e e' m₁ t₁ htallies hworks hworks' he =>
    have hshows' := hshows.works htallies hworks hworks'
    obtain ⟨u, hu, hheap, hhost⟩ := halts_of_error hstep hshows'.guests
    refine .error hu ?_ ?_ (hhost.trans htallies.host)
    · rw [World.Same, hheap]
      exact he
    · rw [hheap]
      exact htallies.heap

/-- The instruction computes a value and pushes it, with others on top of it. -/
theorem meets_compute {m m' : Machine Value} {vs vs' : List Value}
    (hstep : step natives .execute s =
      Transition.afterInstruction natives ((do give ((← m') :: vs') : Machine Demand) t))
    (hlater : Later w s w t) (hshows : t.Shows natives code w) (hat : p.At U pc cells S t)
    (hvs : List.Forall₂ (w.Same natives t) vs vs')
    (hm : Tallied natives.size (fun h h' ↦ h.Matches natives.size h') w.machine t (m w.machine)
      (m' t)) :
    Meets natives code k w s (fun v ↦ p.Leaves natives U pc cells S (v :: vs)) (act m w) := by
  refine meets_act hstep hlater hshows hm fun v v' m₁ t₁ hworks hworks' hv hlater' hshows' hstep' ↦ ?_
  have hmono : List.Forall₂ (World.Same natives { w with machine := m₁ } t₁) vs vs' :=
    hvs.imp fun _ _ hv ↦ (State.Shows.later hworks hworks').matches_mono hv
  exact (meets_give hstep' hlater' hshows' (hat.works hworks') (.cons hv hmono)).mono_ok fun _ _ h ↦ h.1

theorem meets_computeOne {m m' : Machine Value}
    (hstep : step natives .execute s =
      Transition.afterInstruction natives ((do give [← m'] : Machine Demand) t))
    (hlater : Later w s w t) (hshows : t.Shows natives code w) (hat : p.At U pc cells S t)
    (hm : Tallied natives.size (fun h h' ↦ h.Matches natives.size h') w.machine t (m w.machine)
      (m' t)) :
    Meets natives code k w s (p.LeavesOne natives U pc cells S) (act m w) :=
  (meets_compute hstep hlater hshows hat .nil hm).mono fun _ _ _ _ h ↦ Spot.leavesOne_iff.mpr h

/-- The instruction only changes data. -/
theorem meets_do {m m' : Machine Unit}
    (hstep : step natives .execute s =
      Transition.afterInstruction natives ((do m'; pure .nothing : Machine Demand) t))
    (hlater : Later w s w t) (hshows : t.Shows natives code w) (hat : p.At U pc cells S t)
    (hm : Tallied natives.size (fun _ _ _ _ ↦ True) w.machine t (m w.machine) (m' t)) :
    Meets natives code k w s (fun _ _ u ↦ p.At U pc cells S u) (act m w) :=
  meets_act hstep hlater hshows hm fun _ _ _ _ _ hworks _ hlater' hshows' hstep' ↦
    .ok (.of_step hstep') hlater' hshows' (hat.works hworks)

end

/-- A function that runs, evaluated in this context. -/
structure Spot.Fits (p : Spot) (U : Home) (code : Heap) (c : Context) : Prop where
  closure : c.closure = p.closure
  heap : U.heap = code
  short : ∃ i, code.protos[i]? = some U.proto ∧ code.Short i

/-- The function is at `pc` with this stack, and the variables in scope are those of the locals. -/
structure Spot.Runs (natives : Array Native) (code : Heap) (p : Spot) (U : Home) (c : Context)
    (locals : List Local) (env : Bindings) (cells : Array (Option Nat)) (pc : Nat) (S : Array Value)
    (w : World) (s : State) : Prop where
  fits : p.Fits U code c
  place : p.At U pc cells S s
  shows : s.Shows natives code w
  varargs : List.Forall₂ (w.Same natives s) c.varargs p.varargs
  sees : U.Sees p.upvalues locals cells env

theorem exists_forall₂ {α β : Type} {R : α → β → Prop} {l : List α} (h : ∀ a ∈ l, ∃ b, R a b) :
    ∃ l', List.Forall₂ R l l' := by
  induction l with
  | nil => exact ⟨[], .nil⟩
  | cons a l ih =>
    obtain ⟨b, hb⟩ := h a List.mem_cons_self
    obtain ⟨l', hl'⟩ := ih fun a ha ↦ h a (List.mem_cons_of_mem _ ha)
    exact ⟨b :: l', .cons hb hl'⟩

namespace BinaryOp

variable {o : BinaryOp} {op : Opcode}

theorem isBinary (o : BinaryOp) (ho : o.opcode? = some op) : IsBinary op := by
  cases o <;> cases ho <;> trivial

theorem apply_eq_operate (o : BinaryOp) (ho : o.opcode? = some op) (a b : Value) :
    o.apply a b = operate op a b := by
  cases o <;> cases ho <;> rfl

theorem settles_eq_false (ho : o.opcode? = some op) (a : Value) : o.settles a = false := by
  cases o <;> cases ho <;> rfl

theorem settles_of_matches (o : BinaryOp) {n : Nat} {h h' : Heap} {v v' : Value}
    (hv : h.Matches n h' v v') : o.settles v = o.settles v' := by
  cases o with
  | and => exact hv.isFalsey
  | or => exact congrArg not hv.isFalsey
  | _ => rfl

/-- An operator with a shortcut that was not taken gives its right operand. -/
theorem apply_of_not_settles {a b : Value} {s : State} (ho : o.opcode? = none)
    (hsettles : o.settles a = false) : o.apply a b s = .ok b s := by
  cases o with
  | and =>
    have hfalse : a.isFalsey = false := hsettles
    simp only [apply, bind_apply, get_apply, hfalse]
    rfl
  | or =>
    have htrue : a.isFalsey = true := by simpa [settles, Value.isTruthy] using hsettles
    simp only [apply, bind_apply, get_apply, htrue]
    rfl
  | _ => cases ho

end BinaryOp

/-- A closure of a routine is made in a world, and one of its code in the machine that shows it. -/
theorem State.Shows.close {natives : Array Native} {code : Heap} {w : World} {t : State} {r : Routine}
    {env : Nat} (h : t.Shows natives code w)
    (c' : Closure) (henv : w.Same natives t (.table env) (.table c'.env)) (hmade : r.Made code c'.proto c'.upvalues) :
    ∃ v w', Eval.close r env w = .ok v w' ∧
      Later w t w' { t with heap := (t.heap.allocClosure c').2 } ∧
      State.Shows natives code { t with heap := (t.heap.allocClosure c').2 } w' ∧
      w'.Same natives { t with heap := (t.heap.allocClosure c').2 } v
        (.closure t.heap.closures.size) := by
  set c : Closure := ⟨w.routines.size, env, #[]⟩ with hc
  have hgrows (h : Heap) (c : Closure) : h.Grows (h.allocClosure c).2 :=
    (Heap.Evolves.allocClosure h c).toGrows
  have hsize : t.heap.closures.size = w.machine.heap.closures.size := by
    simpa using h.tallies.heap.closures.length_eq.symm
  refine ⟨_, _, rfl, ⟨hgrows _ c, .allocClosure _ c'⟩, ⟨?_, ?_, h.guests, h.alone, ?_⟩, ?_⟩
  · exact h.tallies.withHeap (h.tallies.heap.allocClosure henv) (hgrows _ _) (hgrows _ _)
  · exact h.grown.trans ⟨(hgrows _ _).bytes, id⟩
  · intro i r₁ r₁' hr hr'
    simp only [Heap.allocClosure, Array.getElem?_push, hsize] at hr hr'
    split at hr
    · next hi =>
      rw [if_pos hi] at hr'
      cases hr
      cases hr'
      exact ⟨r, Array.getElem?_push_size, hmade⟩
    · next hi =>
      rw [if_neg hi] at hr'
      obtain ⟨routine, hroutine, hmade'⟩ := h.routines hr hr'
      have hlt := (Array.getElem?_eq_some_iff.mp hroutine).1
      exact ⟨routine, by rw [Array.getElem?_push_lt hlt, ← hroutine, Array.getElem?_eq_getElem hlt], hmade'⟩
  · rw [hsize]
    refine .closure ?_ ?_
    · simp
    · simp [Heap.allocClosure, hsize]

section

variable {natives : Array Native} {code : Heap} {p : Spot} {U : Home} {c : Context}
  {locals : List Local} {env : Bindings} {cells : Array (Option Nat)} {pc pc' k : Nat}
  {S S' : Array Value} {w w' : World} {s t : State} {op : Opcode} {operands : Instruction → Prop}

namespace Spot.Runs

/-- Later in the same function. -/
theorem goes {locals' : List Local} {env' : Bindings} {cells' : Array (Option Nat)}
    (h : p.Runs natives code U c locals env cells pc S w s) (hlater : Later w s w' t)
    (hshows : t.Shows natives code w') (hplace : p.At U pc' cells' S' t)
    (hsees : U.Sees p.upvalues locals' cells' env') :
    p.Runs natives code U c locals' env' cells' pc' S' w' t where
  fits := h.fits
  place := hplace
  shows := hshows
  varargs := h.varargs.imp fun _ _ hv ↦ hlater.matches_mono hv
  sees := hsees

/-- Later where the same variables are in scope. -/
theorem onward (h : p.Runs natives code U c locals env cells pc S w s) (hlater : Later w s w' t)
    (hshows : t.Shows natives code w') (hplace : p.At U pc' cells S' t) :
    p.Runs natives code U c locals env cells pc' S' w' t := h.goes hlater hshows hplace h.sees

variable (h : p.Runs natives code U c locals env cells pc S w s)

include h

/-- A string constant is still what it was. -/
theorem bytes {bytes : Bytes} {n : Nat} (hn : U.heap.bytes? n = some bytes) :
    s.heap.bytes? n = some bytes :=
  h.shows.grown.bytes (h.fits.heap ▸ hn)

/-- The instruction pushes a value that the evaluation has. -/
theorem pushes {v v' : Value} (hhas : U.Has op operands pc pc')
    (hperform : ∀ i, operands i →
      perform (p.frame pc cells) U.proto.constants i op (p.moved pc' cells S s) =
        give [v'] (p.moved pc' cells S s))
    (hv : w.Same natives s v v') :
    Meets natives code k w s (p.LeavesOne natives U pc' cells S) (.ok v w : EStateM.Result _ _ _) := by
  obtain ⟨i, hoperands, hstep⟩ := h.place.fetch natives hhas
  rw [hperform i hoperands] at hstep
  exact meets_giveOne hstep ⟨.refl _, .refl _⟩ (h.place.moved_shows h.shows _ _) (h.place.moved _ _) hv

/-- The instruction takes operands from the stack, computes a value and pushes it. -/
theorem computes {m : Machine Value} (hhas : U.Has op operands pc pc') (m' : Machine Value)
    (hperform : ∀ i, operands i →
      perform (p.frame pc cells) U.proto.constants i op (p.moved pc' cells S s) =
        (do give [← m'] : Machine Demand) (p.moved pc' cells S' s))
    (hm : w.machine.Tallies natives.size (p.moved pc' cells S' s) →
      Tallied natives.size (fun h h' ↦ h.Matches natives.size h') w.machine (p.moved pc' cells S' s)
        (m w.machine) (m' (p.moved pc' cells S' s))) :
    Meets natives code k w s (p.LeavesOne natives U pc' cells S') (act m w) := by
  obtain ⟨i, hoperands, hstep⟩ := h.place.fetch natives hhas
  rw [hperform i hoperands] at hstep
  have hshows := h.place.moved_shows h.shows pc' S'
  exact meets_computeOne hstep ⟨.refl _, .refl _⟩ hshows (h.place.moved _ _) (hm hshows.tallies)

/-- The instruction takes operands from the stack and only changes data. -/
theorem does {m : Machine Unit} (hhas : U.Has op operands pc pc') (m' : Machine Unit)
    (hperform : ∀ i, operands i →
      perform (p.frame pc cells) U.proto.constants i op (p.moved pc' cells S s) =
        (do m'; pure .nothing : Machine Demand) (p.moved pc' cells S' s))
    (hm : w.machine.Tallies natives.size (p.moved pc' cells S' s) →
      Tallied natives.size (fun _ _ _ _ ↦ True) w.machine (p.moved pc' cells S' s) (m w.machine)
        (m' (p.moved pc' cells S' s))) :
    Meets natives code k w s (fun _ _ t ↦ p.At U pc' cells S' t) (act m w) := by
  obtain ⟨i, hoperands, hstep⟩ := h.place.fetch natives hhas
  rw [hperform i hoperands] at hstep
  have hshows := h.place.moved_shows h.shows pc' S'
  exact meets_do hstep ⟨.refl _, .refl _⟩ hshows (h.place.moved _ _) (hm hshows.tallies)

theorem loads {v : Value} (hload : U.LoadAt v pc pc') (hv : v.handle? = none) :
    Meets natives code k w s (p.LeavesOne natives U pc' cells S) (.ok v w : EStateM.Result _ _ _) := by
  obtain ⟨i, hi, hhas⟩ := hload
  exact h.pushes hhas (fun _ hx ↦ perform_loadConst (hx ▸ hi)) (.scalar hv)

theorem loadsText {bytes : Bytes} (hload : U.LoadTextAt bytes pc pc') :
    Meets natives code k w s (p.LeavesOne natives U pc' cells S) (act (bytesValue bytes) w) := by
  obtain ⟨i, ⟨n, hi, hn⟩, hhas⟩ := hload
  refine h.computes hhas (pure (.string n)) (fun _ hx ↦ perform_loadConst (hx ▸ hi)) fun htallies ↦ ?_
  exact Tallied.constant htallies (h.bytes hn)

/-- A variable is read. -/
theorem loadsName {name : String} (hload : U.LoadNameAt locals name pc pc') :
    Meets natives code k w s (p.LeavesOne natives U pc' cells S) (c.load env name w) := by
  obtain ⟨b, hb, hhas⟩ := hload
  obtain ⟨r, hr, hupvalues, -⟩ := h.place.closure
  cases b with
  | cell n =>
    obtain ⟨cell, hcell, hbound⟩ := h.sees.cell hb
    rw [Context.load, hcell]
    exact h.pushes hhas (fun _ hx ↦ perform_getCell (hx ▸ hbound)) (h.shows.tallies.heap.cell cell)
  | upvalue n =>
    obtain ⟨cell, hcell, hheld⟩ := h.sees.upvalue hb.1 hb.2
    rw [Context.load, hcell]
    rw [← hupvalues] at hheld
    exact h.pushes hhas (fun _ hx ↦ perform_getUpvalue hr (hx ▸ hheld))
      (h.shows.tallies.heap.cell cell)
  | global =>
    obtain ⟨i, ⟨n, hi, hn⟩, hhas⟩ := hhas
    rw [Context.load, h.sees.global hb.1 hb.2]
    refine h.computes hhas (pure (s.heap.rawGet (.table r.env) (.string n)))
      (fun _ hx ↦ perform_getGlobal hr (hx ▸ hi)) fun htallies ↦ ?_
    exact Tallied.loadGlobal htallies (h.fits.closure ▸ hr) (h.bytes hn)

/-- The cell of a slot is written, with the value on top of the stack. -/
theorem storesCell {slot cell : Nat} {v v' : Value} (hhas : U.Wide .setCell slot pc pc')
    (hbound : cells[slot]? = some (some cell)) (hS : S = S'.push v') (hv : w.Same natives s v v') :
    Meets natives code k w s (fun _ _ t ↦ p.At U pc' cells S' t) (Eval.store cell v w) := by
  subst hS
  exact h.does hhas (changeHeap fun h ↦ h.setCell cell v')
    (fun _ hx ↦ perform_setCell (hx ▸ hbound) rfl) fun htallies ↦ Tallied.setCell htallies cell hv

/-- A variable is written, with the value on top of the stack. -/
theorem storesName {name : String} {v v' : Value} (hstore : U.StoreNameAt locals name pc pc')
    (hS : S = S'.push v') (hv : w.Same natives s v v') :
    Meets natives code k w s (fun _ _ t ↦ p.At U pc' cells S' t) (c.store env name v w) := by
  obtain ⟨b, hb, hhas⟩ := hstore
  obtain ⟨r, hr, hupvalues, -⟩ := h.place.closure
  subst hS
  cases b with
  | cell n =>
    obtain ⟨cell, hcell, hbound⟩ := h.sees.cell hb
    rw [Context.store, hcell]
    exact h.storesCell hhas hbound rfl hv
  | upvalue n =>
    obtain ⟨cell, hcell, hheld⟩ := h.sees.upvalue hb.1 hb.2
    rw [Context.store, hcell]
    rw [← hupvalues] at hheld
    exact h.does hhas (changeHeap fun h ↦ h.setCell cell v')
      (fun _ hx ↦ perform_setUpvalue hr (hx ▸ hheld) rfl) fun htallies ↦
        Tallied.setCell htallies cell hv
  | global =>
    obtain ⟨i, ⟨n, hi, hn⟩, hhas⟩ := hhas
    rw [Context.store, h.sees.global hb.1 hb.2]
    refine h.does hhas (setIndex (.table r.env) (.string n) v')
      (fun _ hx ↦ perform_setGlobal hr (hx ▸ hi) rfl) fun htallies ↦ ?_
    exact Tallied.storeGlobal htallies (h.fits.closure ▸ hr) (h.bytes hn) hv

/-- An entry of a table is read. -/
theorem indexes {v v' key key' : Value} (hhas : U.Plain .getIndex pc pc')
    (hS : S = (S'.push v').push key') (hv : w.Same natives s v v') (hkey : w.Same natives s key key') :
    Meets natives code k w s (p.LeavesOne natives U pc' cells S') (act (index v key) w) := by
  subst hS
  exact h.computes hhas (index v' key') (fun _ _ ↦ perform_getIndex rfl) fun htallies ↦
    (Tallied.index htallies hv hkey).tallied htallies fun _ _ ↦ id

/-- An entry of a table is written. -/
theorem stores {v v' key key' u u' : Value} (hhas : U.Plain .setIndex pc pc')
    (hS : S = ((S'.push u').push v').push key') (hv : w.Same natives s v v')
    (hkey : w.Same natives s key key') (hu : w.Same natives s u u') :
    Meets natives code k w s (fun _ _ t ↦ p.At U pc' cells S' t) (act (setIndex v key u) w) := by
  subst hS
  exact h.does hhas (setIndex v' key' u') (fun _ _ ↦ perform_setIndex rfl) fun htallies ↦
    Tallied.setIndex htallies hv hkey hu

/-- An entry of a table under construction is written; the table stays on the stack. -/
theorem initializes {v v' key key' u u' : Value} (hhas : U.Plain .initIndex pc pc')
    (hS : S = ((S'.push v').push key').push u') (hv : w.Same natives s v v')
    (hkey : w.Same natives s key key') (hu : w.Same natives s u u') :
    Meets natives code k w s (fun _ _ t ↦ p.At U pc' cells (S'.push v') t)
      (act (setIndex v key u) w) := by
  subst hS
  exact h.does hhas (setIndex v' key' u') (fun _ _ ↦ perform_initIndex rfl) fun htallies ↦
    Tallied.setIndex htallies hv hkey hu

theorem makesTable (hhas : U.Plain .newTable pc pc') :
    Meets natives code k w s
      (fun v w t ↦ p.LeavesOne natives U pc' cells S v w t ∧ ∃ i, v = .table i) (act newTable w) := by
  have htable : Meets natives code k w s (p.LeavesOne natives U pc' cells S) (act newTable w) :=
    h.computes hhas newTable (fun _ _ ↦ perform_newTable) Tallied.newTable
  exact htable.mono_ok fun _ _ hleaves ↦ ⟨hleaves, _, rfl⟩

/-- The function of a method call is looked up. -/
theorem selects {name : String} {i : Nat} {v v' : Value} (htext : U.Text (Bytes.ofText name) i)
    (hhas : U.Wide .self i pc pc') (hS : S = S'.push v') (hv : w.Same natives s v v') :
    Meets natives code k w s (fun f ↦ p.Leaves natives U pc' cells S' [f, v])
      (act (do index v (← textValue name)) w) := by
  subst hS
  obtain ⟨n, hi, hn⟩ := htext
  obtain ⟨j, rfl, hstep⟩ := h.place.fetch natives hhas
  rw [perform_self hi rfl] at hstep
  have hshows := h.place.moved_shows h.shows pc' S'
  exact meets_compute hstep ⟨.refl _, .refl _⟩ hshows (h.place.moved _ _) (.cons hv .nil)
    (Tallied.indexText hshows.tallies hv (h.bytes hn))

theorem operates {o : BinaryOp} {a a' b b' : Value} (ho : o.opcode? = some op)
    (hhas : U.Plain op pc pc') (hS : S = (S'.push a').push b') (ha : w.Same natives s a a')
    (hb : w.Same natives s b b') :
    Meets natives code k w s (p.LeavesOne natives U pc' cells S') (act (o.apply a b) w) := by
  subst hS
  refine h.computes hhas (o.apply a' b') (fun _ _ ↦ ?_) fun htallies ↦ Tallied.apply htallies o ha hb
  rw [o.apply_eq_operate ho]
  exact perform_binary (o.isBinary ho) rfl

theorem operatesUnary {o : UnaryOp} {v v' : Value} (hhas : U.Plain o.opcode pc pc') (hS : S = S'.push v')
    (hv : w.Same natives s v v') :
    Meets natives code k w s (p.LeavesOne natives U pc' cells S') (act (o.apply v) w) := by
  subst hS
  refine h.computes hhas (o.apply v') (fun _ _ ↦ ?_) fun htallies ↦
    Tallied.applyUnary htallies o hv
  cases o with
  | neg => exact perform_neg rfl
  | not => exact perform_not rfl
  | len => exact perform_len rfl

/-- A closure is made. -/
theorem closes {body : FunctionBody} (hbody : body.At U locals pc pc') :
    Meets natives code k w s (p.LeavesOne natives U pc' cells S) (body.eval c env w) := by
  obtain ⟨params, variadic, block, pos⟩ := body
  obtain ⟨x, i, q, hhas, hx, hi, harity, hfew, hcells, hvariadic, hsupplies, hblock⟩ := hbody
  obtain ⟨m, hm, hshort⟩ := h.fits.short
  have hlt : x < Instruction.wideLimit :=
    (Array.getElem?_eq_some_iff.mp hx).1.trans (hshort.proto hm).protos
  rw [Nat.mod_eq_of_lt hlt] at hhas
  obtain ⟨j, rfl, hstep⟩ := h.place.fetch natives hhas
  obtain ⟨r, hr, hupvalues, hproto⟩ := h.place.closure
  rw [h.fits.heap] at hi
  obtain ⟨captures, hcaptures⟩ := exists_forall₂ (l := q.captures.toList) fun capture hcapture ↦
    h.sees.supplies (hsupplies capture (Array.mem_toList_iff.mp hcapture)) (p.frame pc cells) rfl
  have hcaptured := captured_of_bound (s := p.moved pc' cells S s) hcaptures
  rw [← hupvalues] at hcaptured
  have hmake := makeClosure_eq (s := p.moved pc' cells S s) hr hproto hx (h.shows.grown.protos hi) hcaptured
  rw [perform_closure, bind_of_ok hmake] at hstep
  have hmade : Routine.Made code ⟨params, variadic, block, env⟩ i captures.toArray := by
    obtain ⟨-, rfl, -⟩ := h.fits
    exact ⟨q, _, hi, hshort.nested hm hx, ⟨harity, hfew, hcells, hvariadic, hblock⟩,
      h.sees.inner rfl hcaptures⟩
  obtain ⟨globals, hglobals, henv⟩ := Tallied.globals h.shows.tallies (h.fits.closure ▸ hr)
  obtain ⟨v, w', hclose, hlater, hshows, hv⟩ :=
    (h.place.moved_shows h.shows pc' S).close ⟨i, r.env, captures.toArray⟩ henv hmade
  rw [FunctionBody.eval]
  refine .bind_eq (by rw [act, hglobals]) ?_
  rw [hclose]
  refine meets_giveOne ?_ ⟨hlater.world, hlater.state⟩ hshows ?_ hv
  · exact hstep
  · exact (h.place.moved pc' S).later (.allocClosure _ _) rfl rfl rfl

end Spot.Runs

end

end MiniLua
