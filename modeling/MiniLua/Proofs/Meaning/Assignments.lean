import MiniLua.Proofs.Meaning.Expressions

/-! The code that makes variables and the code that stores values. -/

namespace MiniLua

open Effects Machine Eval

namespace Home

variable {U : Home} {names : List String} {slots : List Nat} {locals locals' : List Local}
  {upvalues : Array Nat} {cells : Array (Option Nat)} {env : Bindings}

/-- Locals that are declared together have slots of their own. -/
theorem Declares.nodup (h : U.Declares names slots locals locals') :
    slots.Nodup ∧ ∀ slot ∈ slots, ∀ l ∈ locals, l.cell ≠ slot := by
  induction names generalizing slots locals with
  | nil =>
    obtain ⟨rfl, -⟩ := h
    exact ⟨.nil, fun _ hslot ↦ nomatch hslot⟩
  | cons name names ih =>
    obtain ⟨l, rest, -, hfresh, rfl, hmore⟩ := h
    obtain ⟨hnodup, hother⟩ := ih hmore
    refine ⟨List.nodup_cons.mpr ⟨fun hmem ↦ hother _ hmem l List.mem_cons_self rfl, hnodup⟩, ?_⟩
    intro slot hslot l' hl'
    obtain rfl | hslot := List.mem_cons.mp hslot
    · exact hfresh.cell_ne l' hl'
    · exact hother slot hslot l' (List.mem_cons_of_mem _ hl')

/-- A local whose slot is bound comes into scope. -/
theorem Sees.bind {l : Local} {cell : Nat} (h : U.Sees upvalues locals cells env)
    (hcell : cells[l.cell]? = some (some cell)) :
    U.Sees upvalues (l :: locals) cells ((l.name, cell) :: env) := by
  obtain ⟨own, around, rfl, hown, hsupplied⟩ := h
  exact ⟨(l.name, cell) :: own, around, rfl, .cons ⟨rfl, hcell⟩ hown, hsupplied⟩

/-- Locals whose slots are bound come into scope. -/
theorem Sees.declares {bound : List Nat} (h : U.Sees upvalues locals cells env)
    (hdeclares : U.Declares names slots locals locals')
    (hbound : List.Forall₂ (fun slot cell ↦ cells[slot]? = some (some cell)) slots bound) :
    U.Sees upvalues locals' cells ((names.zip bound).reverse ++ env) := by
  induction names generalizing slots bound locals env with
  | nil =>
    obtain ⟨-, rfl⟩ := hdeclares
    exact h
  | cons name names ih =>
    obtain ⟨l, rest, rfl, -, rfl, hmore⟩ := hdeclares
    cases hbound with
    | @cons _ cell _ bound hcell hbound =>
      have hrest := ih (h.bind hcell) hmore hbound
      rwa [List.zip_cons_cons, List.reverse_cons, List.append_assoc]

end Home

/-- Operations one after the other are operations. -/
theorem act_bind {α β : Type} (m : Machine α) (f : α → Machine β) (w : World) :
    act (m >>= f) w = (act m >>= fun a ↦ act (f a)) w := by
  simp only [act, bind_apply]
  cases m w.machine <;> rfl

/-- Locals have kept their cells. -/
def SlotsKept (locals : List Local) (cells cells' : Array (Option Nat)) : Prop :=
  ∀ l ∈ locals, cells'[l.cell]? = cells[l.cell]?

section

variable {locals locals' : List Local} {cells cells' cells'' : Array (Option Nat)}

theorem SlotsKept.refl (locals : List Local) (cells : Array (Option Nat)) : SlotsKept locals cells cells :=
  fun _ _ ↦ rfl

theorem SlotsKept.symm (h : SlotsKept locals cells cells') : SlotsKept locals cells' cells :=
  fun l hl ↦ (h l hl).symm

theorem SlotsKept.set {slot : Nat} (h : ∀ l ∈ locals, l.cell ≠ slot) (v : Option Nat) :
    SlotsKept locals cells (cells.setIfInBounds slot v) :=
  fun l hl ↦ Array.getElem?_setIfInBounds_ne (h l hl).symm

theorem SlotsKept.trans (h : SlotsKept locals cells cells') (hsub : locals ⊆ locals')
    (h' : SlotsKept locals' cells' cells'') : SlotsKept locals cells cells'' :=
  fun l hl ↦ (h' l (hsub hl)).trans (h l hl)

end

section

variable {natives : Array Native} {code : Heap} {p : Spot} {U : Home} {c : Context}
  {locals : List Local} {env : Bindings} {cells : Array (Option Nat)} {pc pc' k : Nat}
  {S S' : Array Value} {w : World} {s t : State}

namespace Spot.Runs

variable (h : p.Runs natives code U c locals env cells pc S w s)

include h

/-- A new variable gets the value on top of the stack. -/
theorem makesCell {slot : Nat} {v v' : Value} (hhas : U.Wide .newCell slot pc pc')
    (hslot : slot < U.proto.cellCount) (hS : S = S'.push v') (hv : w.Same natives s v v') :
    Meets natives code k w s
      (fun cell _ t ↦ p.At U pc' (cells.setIfInBounds slot (some cell)) S' t) (fresh v w) := by
  subst hS
  obtain ⟨i, rfl, hstep⟩ := h.place.fetch natives hhas
  rw [perform_newCell (S := S') (v := v') rfl rfl (hslot.trans_le h.place.room)] at hstep
  have hpairs := h.shows.tallies.heap
  have hcell : s.heap.cells.size = w.machine.heap.cells.size := hpairs.cells_size
  have hgrows (h : Heap) (v : Value) : h.Grows (h.allocCell v).2 := (Heap.Evolves.allocCell h v).toGrows
  have hshows := h.place.moved_shows h.shows pc' S'
  have hworks : (p.moved pc' cells S' s).Works
      { p.moved pc' cells S' s with heap := (s.heap.allocCell v').2 } := ⟨hgrows _ _, ⟨rfl, rfl⟩, rfl⟩
  have hworks' : w.machine.Works { w.machine with heap := (w.machine.heap.allocCell v).2 } :=
    ⟨hgrows _ _, ⟨rfl, rfl⟩, rfl⟩
  have hmade := hshows.works (hshows.tallies.withHeap (hpairs.allocCell hv) (hgrows _ _) (hgrows _ _))
    hworks' hworks
  have hplace := (h.place.moved pc' S').works hworks
  have hplace' : p.At U pc' (cells.setIfInBounds i.x (some (s.heap.allocCell v').1)) S'
      (p.moved pc' (cells.setIfInBounds i.x (some (s.heap.allocCell v').1)) S'
        { s with heap := (s.heap.allocCell v').2 }) :=
    hplace.later (.refl _) rfl rfl (Array.size_setIfInBounds ..)
  refine .ok (.of_step hstep) ⟨hgrows _ _, hworks.precedes⟩ (hplace.shows hplace' hmade rfl rfl rfl) ?_
  rw [← hcell]
  exact hplace'

omit h in
/-- Another slot has been bound. -/
theorem bindsSlot {w' : World} {slot cell : Nat} (h : p.Runs natives code U c locals env cells pc S w s)
    (hlater : Later w s w' t) (hshows : t.Shows natives code w')
    (hplace : p.At U pc' (cells.setIfInBounds slot (some cell)) S' t)
    (hother : ∀ l ∈ locals, l.cell ≠ slot) :
    p.Runs natives code U c locals env (cells.setIfInBounds slot (some cell)) pc' S' w' t :=
  h.goes hlater hshows hplace (h.sees.agree (SlotsKept.set hother _))

/-- New variables get the values on top of the stack, the topmost first. -/
theorem makesCells {slots : List Nat} {vs vs' : List Value} (hhas : U.NewCellsAt slots pc pc')
    (hslots : ∀ slot ∈ slots, slot < U.proto.cellCount) (hnodup : slots.Nodup)
    (hS : S = S' ++ vs'.reverse) (hvs : List.Forall₂ (w.Same natives s) vs vs')
    (hlength : slots.length = vs.length) (hother : ∀ slot ∈ slots, ∀ l ∈ locals, l.cell ≠ slot) :
    Meets natives code k w s
      (fun bound _ t ↦ ∃ cells', p.At U pc' cells' S' t ∧
        (∀ slot ∉ slots, cells'[slot]? = cells[slot]?) ∧
        List.Forall₂ (fun slot cell ↦ cells'[slot]? = some (some cell)) slots bound)
      (vs.mapM fresh w) := by
  induction vs generalizing slots vs' pc cells S w s with
  | nil =>
    obtain rfl := List.forall₂_nil_left_iff.mp hvs
    obtain rfl : slots = [] := List.eq_nil_of_length_eq_zero hlength
    obtain rfl : pc' = pc := hhas
    subst hS
    exact .pure h.shows ⟨cells, h.place, fun _ _ ↦ rfl, .nil⟩
  | cons v vs ih =>
    obtain ⟨v', vs', hv, hrest, rfl⟩ := List.forall₂_cons_left_iff.mp hvs
    cases slots with
    | nil => cases hlength
    | cons slot slots =>
      obtain ⟨q, hfirst, hmore⟩ := hhas
      rw [List.forall_mem_cons] at hslots hother
      obtain ⟨hnew, hnodup⟩ := List.nodup_cons.mp hnodup
      rw [appendList_reverse_cons] at hS
      rw [List.mapM_cons]
      refine (h.makesCell hfirst hslots.1 hS hv).bind fun cell w₁ t₁ hlater₁ hshows₁ hat₁ ↦ ?_
      have h₁ := h.bindsSlot hlater₁ hshows₁ hat₁ hother.1
      refine (ih h₁ hmore hslots.2 hnodup rfl (hrest.imp fun _ _ hv ↦ hlater₁.matches_mono hv)
        (by simpa using hlength) hother.2).bind fun bound w₂ t₂ _ hshows₂ ⟨cells', hat₂, hkept, hbound⟩ ↦ ?_
      refine .pure hshows₂ ⟨cells', hat₂, fun other hout ↦ ?_, .cons ?_ hbound⟩
      · obtain ⟨hne, hout⟩ := not_or.mp (List.mem_cons.not.mp hout)
        rw [hkept other hout, Array.getElem?_setIfInBounds_ne (Ne.symm hne)]
      · rw [hkept slot hnew, Array.getElem?_setIfInBounds_self_of_lt (hslots.1.trans_le h.place.room)]

/-- Locals come into scope that have the values on top of the stack. -/
theorem makesBindings {names : List String} {slots : List Nat} {locals' : List Local}
    {vs vs' : List Value} (hdeclares : U.Declares names slots locals locals')
    (hhas : U.NewCellsAt slots.reverse pc pc') (hS : S = S' ++ vs')
    (hvs : List.Forall₂ (w.Same natives s) vs vs') (hlength : vs.length = names.length) :
    Meets natives code k w s
      (fun env' _ t ↦ ∃ cells', p.At U pc' cells' S' t ∧ SlotsKept locals cells cells' ∧
        U.Sees p.upvalues locals' cells' env')
      (newBindings env names vs w) := by
  obtain ⟨hcount, hslots, -, -⟩ := hdeclares.spec
  obtain ⟨hnodup, hother⟩ := hdeclares.nodup
  rw [newBindings]
  have hstack : S = S' ++ vs'.reverse.reverse := by rw [List.reverse_reverse, hS]
  refine (h.makesCells hhas (by simpa using hslots) (List.nodup_reverse.mpr hnodup) hstack
    (List.forall₂_reverse_iff.mpr hvs)
    (by simp [hlength, hcount]) (by simpa using hother)).bind
      fun bound w₁ t₁ _ hshows₁ ⟨cells', hat₁, hkept, hbound⟩ ↦ ?_
  have hkept' : SlotsKept locals cells cells' := fun l hl ↦
    hkept _ fun hmem ↦ hother _ (List.mem_reverse.mp hmem) l hl rfl
  refine .pure hshows₁ ⟨cells', hat₁, hkept', (h.sees.agree hkept').declares hdeclares ?_⟩
  rw [← List.forall₂_reverse_iff, List.reverse_reverse]
  exact hbound

/-- What lies under a name is read. -/
theorem indexesText {key : String} {v v' : Value} {q : Nat} (hload : U.LoadTextAt (Bytes.ofText key) pc q)
    (hhas : U.Plain .getIndex q pc') (hS : S = S'.push v') (hv : w.Same natives s v v') :
    Meets natives code k w s (p.LeavesOne natives U pc' cells S')
      (act (do index v (← textValue key)) w) := by
  subst hS
  rw [act_bind]
  refine (h.loadsText hload).bind fun x w₁ t₁ hlater₁ hshows₁ ⟨x', hx, hat₁⟩ ↦ ?_
  exact (h.onward hlater₁ hshows₁ hat₁).indexes hhas rfl (hlater₁.matches_mono hv) hx

theorem followsPath {path : List String} {v v' : Value} (hpath : U.PathAt path pc pc')
    (hS : S = S'.push v') (hv : w.Same natives s v v') :
    Meets natives code k w s (p.LeavesOne natives U pc' cells S') (followPath v path w) := by
  induction path generalizing pc S v v' w s with
  | nil =>
    obtain rfl : pc' = pc := hpath
    exact .pure h.shows ⟨v', hv, hS ▸ h.place⟩
  | cons key rest ih =>
    obtain ⟨q, r, hload, hhas, hmore⟩ := hpath
    rw [followPath]
    refine (h.indexesText hload hhas hS hv).bind fun x w₁ t₁ hlater₁ hshows₁ ⟨x', hx, hat₁⟩ ↦ ?_
    exact ih (h.onward hlater₁ hshows₁ hat₁) hmore rfl hx

/-- A function is stored under its name. -/
theorem defines {name : FunctionName} {f f' : Value} (hdefine : U.DefineAt locals name pc pc')
    (hS : S = S'.push f') (hf : w.Same natives s f f') :
    Meets natives code k w s (fun _ _ t ↦ p.At U pc' cells S' t) (name.assign c env f w) := by
  rw [Home.DefineAt] at hdefine
  rw [FunctionName.assign]
  split at hdefine
  · next hlast =>
    rw [hlast]
    exact h.storesName hdefine hS hf
  · next last hlast =>
    obtain ⟨q, r, u, hfirst, hpath, hload, hhas⟩ := hdefine
    rw [hlast]
    refine (h.loadsName hfirst).bind fun v w₁ t₁ hlater₁ hshows₁ hleft₁ ↦ ?_
    obtain ⟨v', hv, hat₁⟩ := hleft₁
    have h₁ := h.onward hlater₁ hshows₁ hat₁
    refine (h₁.followsPath hpath rfl hv).bind fun o w₂ t₂ hlater₂ hshows₂ hleft₂ ↦ ?_
    obtain ⟨o', ho, hat₂⟩ := hleft₂
    have h₂ := h₁.onward hlater₂ hshows₂ hat₂
    rw [act_bind]
    refine (h₂.loadsText hload).bind fun x w₃ t₃ hlater₃ hshows₃ hleft₃ ↦ ?_
    obtain ⟨x', hx, hat₃⟩ := hleft₃
    refine (h₂.onward hlater₃ hshows₃ hat₃).stores hhas (by rw [hS]) (hlater₃.matches_mono ho) hx ?_
    exact ((hlater₁.trans hlater₂).trans hlater₃).matches_mono hf

/-- The value on top of the stack is stored in a target. -/
theorem assigns {target : Expr} {v v' : Value} (hcalls : c.CallsMeet natives code)
    (htarget : target.TargetAt U locals pc pc') (hS : S = S'.push v') (hv : w.Same natives s v v') :
    Meets natives code c.rounds w s (fun _ _ t ↦ p.At U pc' cells S' t) (target.assign c env v w) := by
  cases target with
  | name name pos => exact h.storesName htarget hS hv
  | index object key pos =>
    obtain ⟨q, r, hobject, hkey, hhas⟩ := htarget
    rw [Expr.assign]
    refine (object.meets hcalls hobject h).toOne.bind fun o w₁ t₁ hlater₁ hshows₁ hleft₁ ↦ ?_
    obtain ⟨o', ho, hat₁⟩ := hleft₁
    have h₁ := h.onward hlater₁ hshows₁ hat₁
    refine (key.meets hcalls hkey h₁).toOne.bind fun k w₂ t₂ hlater₂ hshows₂ hleft₂ ↦ ?_
    obtain ⟨k', hk, hat₂⟩ := hleft₂
    exact (h₁.onward hlater₂ hshows₂ hat₂).stores hhas (by rw [hS]) (hlater₂.matches_mono ho) hk
      ((hlater₁.trans hlater₂).matches_mono hv)
  | _ => exact htarget.elim

/-- The values on top of the stack are stored in the targets. -/
theorem assignsAll {targets : List Expr} {vs vs' : List Value} (hcalls : c.CallsMeet natives code)
    (htargets : targetsAt U locals targets pc pc') (hS : S = S' ++ vs')
    (hvs : List.Forall₂ (w.Same natives s) vs vs') (hlength : vs.length = targets.length) :
    Meets natives code c.rounds w s (fun _ _ t ↦ p.At U pc' cells S' t)
      (assignAll c env targets vs w) := by
  induction targets generalizing pc' vs vs' S' with
  | nil =>
    obtain rfl := List.eq_nil_of_length_eq_zero hlength
    obtain rfl := List.forall₂_nil_left_iff.mp hvs
    obtain rfl : pc' = pc := htargets
    subst hS
    exact .pure h.shows h.place
  | cons target rest ih =>
    obtain ⟨q, hrest, htarget⟩ := htargets
    obtain ⟨v, vs, rfl⟩ := List.exists_cons_of_length_eq_add_one hlength
    obtain ⟨v', vs', hv, hothers, rfl⟩ := List.forall₂_cons_left_iff.mp hvs
    rw [assignAll]
    rw [Array.appendList_cons] at hS
    refine (ih hrest hS hothers (by simpa using hlength)).bind
      fun _ w₁ t₁ hlater₁ hshows₁ hat₁ ↦ ?_
    exact (h.onward hlater₁ hshows₁ hat₁).assigns hcalls htarget rfl (hlater₁.matches_mono hv)

end Spot.Runs

end

end MiniLua
