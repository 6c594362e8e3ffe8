import MiniLua.Proofs.Instances.Outcomes
import MiniLua.Proofs.Instances.Texts

/-!
Calls and returns keep accounts true. A function whose text is known begins with its parameters bound to
new cells.
-/

namespace MiniLua

open Effects Machine

/-- The account is true in this state. -/
def Account.TrueIn (A : Account) (code : Heap) (s : State) : Prop :=
  Ledger code A.routines A.bound s.heap A.lives s.frames?

/-- A later account, which is true in this state. -/
structure Account.Becomes (A : Account) (code h : Heap) (B : Account) (u : State) : Prop
    extends A.Grows h B u.heap where
  right : B.TrueIn code u

/-- The parameters are in the slots that count them. -/
theorem Walk.lies_start (params : List String) :
    (Walk.start params).scope.Lies (List.range params.length) (paramLocals params) :=
  (Walk.follows_start
    (S := ⟨.empty, [], { (default : Prototype) with cellCount := params.length }, List.range params.length⟩)
    params rfl (Nat.le_refl _)).lies

theorem Walk.serial_lt {params : List String} {v : Variable} (hv : v ∈ (Walk.start params).scope) :
    v.serial < params.length := by
  obtain ⟨l, -, -, hslot⟩ := exists_of_forall₂ (Walk.lies_start params).flip hv
  obtain ⟨hlt, -⟩ := List.getElem?_eq_some_iff.mp hslot
  rwa [List.length_range] at hlt

theorem Walk.serial_of_known {params : List String} {q : Variable × Nat}
    (hq : q ∈ (Walk.start params).known (paramLocals params)) :
    q.1 ∈ (Walk.start params).scope ∧ q.1.serial = q.2 := by
  rw [Walk.known, List.zip_map_right] at hq
  obtain ⟨⟨v, l⟩, hmem, rfl⟩ := List.mem_map.mp hq
  obtain ⟨-, hslot⟩ := (List.forall₂_iff_zip.mp (Walk.lies_start params)).2 hmem
  obtain ⟨hlt, hcell⟩ := List.getElem?_eq_some_iff.mp hslot
  rw [List.getElem_range] at hcell
  exact ⟨(List.of_mem_zip hmem).1, hcell⟩

section

variable {s : State} {p : Prototype} {closure floor : Nat} {expected : Option Nat} {args : List Value}

theorem entry_cell {n : Nat} (hn : n < p.arity) :
    (entryFrame s p closure floor expected args).cells[n]? = some (some (s.heap.cells.size + n)) := by
  rw [entryFrame, List.getElem?_toArray, List.getElem?_append_left (by simpa using hn), List.getElem?_map,
    List.getElem?_range' hn, Nat.one_mul]
  rfl

theorem mem_entry {cell : Nat} (hcell : some cell ∈ (entryFrame s p closure floor expected args).cells) :
    s.heap.cells.size ≤ cell ∧ cell < s.heap.cells.size + p.arity := by
  rw [entryFrame, List.mem_toArray] at hcell
  obtain hcell | hcell := List.mem_append.mp hcell
  · obtain ⟨n, hn, hcell⟩ := List.mem_map.mp hcell
    cases hcell
    exact List.mem_range'_1.mp hn
  · cases List.eq_of_mem_replicate hcell

theorem entry_params : ((entryFrame s p closure floor expected args).cells.toList.take p.arity).filterMap id =
    List.range' s.heap.cells.size p.arity := by
  rw [entryFrame, List.take_left' (by simp)]
  simp

end

section

variable {A : Account} {code h : Heap} {lives : List (Option Life)} {calls : List (Option Frame)}
  {s u : State} {m : Mode}

theorem Account.Grows.trans {B C : Account} {k l : Heap} (h₁ : A.Grows h B k) (h₂ : B.Grows k C l) :
    A.Grows h C l := by
  obtain ⟨new₁, hbound₁, hnew₁⟩ := h₁.bound
  obtain ⟨new₂, hbound₂, hnew₂⟩ := h₂.bound
  refine ⟨h₁.size.trans h₂.size, new₂ ++ new₁, ?_, fun cell hcell ↦ ?_⟩
  · rw [hbound₂, hbound₁, List.append_assoc]
  · obtain hcell | hcell := List.mem_append.mp hcell
    · exact h₁.size.trans (hnew₂ cell hcell)
    · exact hnew₁ cell hcell

namespace Ledger

/-- Activations end, if any. -/
theorem ends (hl : Ledger code A.routines A.bound h lives calls) (hlives : lives <:+ A.lives)
    (g : h.Spares u.heap) (hcalls : u.frames? <:+ calls) :
    A.Becomes code h (A.settle u) u := by
  have hlength := hl.each.length_eq
  have hcount : u.activations.length = u.frames?.length := (List.length_map _).symm
  have hsize : (lives.drop (lives.length - u.frames?.length)).length = u.frames?.length := by
    rw [List.length_drop]
    have := hcalls.length_le
    omega
  have hsettle : A.settle u = { A with lives := lives.drop (lives.length - u.frames?.length) } := by
    have hdrop := List.suffix_iff_eq_drop.mp ((List.drop_suffix _ _).trans hlives :
      lives.drop (lives.length - u.frames?.length) <:+ A.lives)
    rw [Account.settle, if_neg ?_, hdrop, hsize, hcount]
    have := hcalls.length_le
    have := hlives.length_le
    omega
  rw [hsettle]
  have hcells : h.cells.size ≤ u.heap.cells.size := by rw [g.cells]
  exact ⟨.of_bound hcells rfl, (hl.suffix hcalls).bare g.code hcells g.bare⟩

theorem length_lt (hl : Ledger code A.routines A.bound h A.lives calls) {x : Option Frame}
    (hcalls : u.frames? = x :: calls) : A.lives.length < u.activations.length := by
  have hcount : u.frames?.length = u.activations.length := List.length_map _
  rw [← hcount, hcalls, hl.each.length_eq]
  exact Nat.lt_succ_self _

/-- A builtin begins. -/
theorem serves (hl : Ledger code A.routines A.bound h A.lives calls) (g : h.Spares u.heap)
    (hcalls : u.frames? = none :: calls) :
    A.Becomes code h (A.settle u) u := by
  have hcells : h.cells.size ≤ u.heap.cells.size := by rw [g.cells]
  have hsettle : A.settle u = { A with lives := none :: A.lives } := by
    rw [Account.settle, if_pos (hl.length_lt hcalls)]
    obtain ⟨a, rest, hu, ha, -⟩ := List.map_eq_cons_iff.mp hcalls
    rw [hu]
    cases a with
    | native call => rfl
    | guest f => cases ha
  rw [hsettle]
  refine ⟨.of_bound hcells rfl, ?_⟩
  rw [Account.TrueIn, hcalls]
  exact (hl.bare g.code hcells g.bare).cons .native (fun _ hf ↦ nomatch hf)

section

variable {p : Prototype} {closure floor : Nat} {expected : Option Nat}

theorem size_entered : (entered s p closure floor expected).heap.cells.size =
    s.heap.cells.size + p.arity := by
  simp [entered, length_adjusted]

/-- A function begins whose text is not known. -/
theorem enters_stranger (hl : A.TrueIn code s) (hp : s.proto? closure = some p)
    (hunknown : A.routines closure = none) :
    A.Becomes code s.heap (A.settle (entered s p closure floor expected))
      (entered s p closure floor expected) := by
  obtain ⟨c, hc, -⟩ := Option.bind_eq_some_iff.mp hp
  have hcells : s.heap.cells.size ≤ (entered s p closure floor expected).heap.cells.size := by
    rw [size_entered]
    exact Nat.le_add_right _ _
  have hsettle : A.settle (entered s p closure floor expected) = { A with lives := none :: A.lives } := by
    rw [Account.settle, if_pos (hl.length_lt rfl)]
    simp only [entered, entryFrame, hunknown]
  have hlater : Ledger code A.routines A.bound (entered s p closure floor expected).heap A.lives s.frames? :=
    hl.later ⟨id, id⟩ hcells fun _ _ ↦ .inl
  rw [hsettle]
  refine ⟨.of_bound hcells rfl, hlater.cons (.stranger hunknown ?_ fun cell hbound hcell ↦ ?_) ?_⟩
  · exact (Array.getElem?_eq_some_iff.mp hc).1
  · exact Nat.not_lt_of_le (mem_entry hcell).1 (hl.below cell hbound)
  · rintro _ ⟨⟩ cell hcell
    rw [size_entered]
    exact (mem_entry hcell).2

/-- A closure whose text is known runs code of that text. -/
theorem made_known {r : Routine} (hl : A.TrueIn code s) (hp : s.proto? closure = some p)
    (hknown : A.routines closure = some r) :
    ∃ link, s.heap.links[closure]? = some link ∧ code.protos[link.1]? = some p ∧
      r.Made code link.1 link.2 ∧ p.arity = r.params.length := by
  obtain ⟨c, hc, hproto⟩ := Option.bind_eq_some_iff.mp hp
  obtain ⟨link, hlink, howns⟩ := hl.made hknown
  obtain rfl : link = (c.proto, c.upvalues) := Option.some.inj (hlink.symm.trans (Heap.link_of_closure hc))
  obtain ⟨q, outer, hq, hshort, hruns, hsupplied⟩ := howns.made
  obtain rfl : q = p := Option.some.inj ((hl.protos hq).symm.trans hproto)
  exact ⟨_, hlink, hq, howns.made, hruns.arity⟩

/-- The parameters of a function whose text is known are bound to new cells. -/
theorem settle_entered {r : Routine} (hl : A.TrueIn code s) (hp : s.proto? closure = some p)
    (hknown : A.routines closure = some r) :
    A.settle (entered s p closure floor expected) = { A with
      lives := some (.begin r (entryFrame s p closure floor expected
        (s.stack.extract (floor + 1) s.stack.size).toList)) :: A.lives
      bound := List.range' s.heap.cells.size p.arity ++ A.bound } := by
  obtain ⟨-, -, -, -, harity⟩ := made_known hl hp hknown
  obtain ⟨f, hf, hcalls⟩ : ∃ f, f = entryFrame s p closure floor expected
      (s.stack.extract (floor + 1) s.stack.size).toList ∧
      (entered s p closure floor expected).activations = .guest f :: s.activations := ⟨_, rfl, rfl⟩
  have hclosure : f.closure = closure := by rw [hf, entryFrame]
  rw [Account.settle, if_pos (hl.length_lt rfl), hcalls]
  dsimp only
  rw [hclosure, hknown]
  dsimp only
  rw [← harity, hf, entry_params]

/-- A parameter is in the slot that counts it. -/
theorem begin_cell {r : Routine} {args : List Value} (harity : p.arity = r.params.length) {v : Variable}
    (hv : v ∈ (Walk.start r.params).scope) :
    (Life.begin r (entryFrame s p closure floor expected args)).cells v =
      some (s.heap.cells.size + v.serial) := by
  rw [Life.begin]
  dsimp only
  rw [if_pos hv, Array.getD_eq_getD_getElem?, entry_cell (harity ▸ Walk.serial_lt hv)]
  rfl

/-- A function begins whose text is known. -/
theorem enters_known {r : Routine} (hl : A.TrueIn code s) (hp : s.proto? closure = some p)
    (hknown : A.routines closure = some r) :
    A.Becomes code s.heap (A.settle (entered s p closure floor expected))
      (entered s p closure floor expected) := by
  obtain ⟨link, hlink, hcode, ⟨q, outer, hq, hshort, hruns, hsupplied⟩, harity⟩ := made_known hl hp hknown
  obtain rfl : q = p := Option.some.inj (hq.symm.trans hcode)
  have hcells : s.heap.cells.size ≤ (entered s q closure floor expected).heap.cells.size := by
    rw [size_entered]
    exact Nat.le_add_right _ _
  have hbinds : Ledger code A.routines (List.range' s.heap.cells.size q.arity ++ A.bound)
      (entered s q closure floor expected).heap A.lives s.frames? := by
    refine hl.binds ⟨rfl, rfl⟩ hcells List.nodup_range' fun cell hcell ↦ ?_
    rw [size_entered]
    exact List.mem_range'_1.mp hcell
  have hfits : (Life.begin r (entryFrame s q closure floor expected
      (s.stack.extract (floor + 1) s.stack.size).toList)).Fits code
      (entered s q closure floor expected).heap (entryFrame s q closure floor expected
        (s.stack.extract (floor + 1) s.stack.size).toList)
      ⟨q, code, outer, none⟩ link ((Walk.start r.params).known (paramLocals r.params)) := by
    refine ⟨rfl, hlink, hq, hshort, hsupplied, Home.minds_of_runs hruns (hshort.proto hq).code rfl,
      fun x hx ↦ ?_⟩
    obtain ⟨hscope, hserial⟩ := Walk.serial_of_known hx
    exact ⟨_, begin_cell harity hscope, hserial ▸ entry_cell (harity ▸ Walk.serial_lt hscope)⟩
  rw [settle_entered hl hp hknown]
  refine ⟨⟨hcells, _, rfl, fun cell hcell ↦ (List.mem_range'_1.mp hcell).1⟩, ?_⟩
  refine hbinds.cons (.known hknown hfits) ?_
  rintro _ ⟨⟩ cell hcell
  rw [size_entered]
  exact (mem_entry hcell).2

end

theorem trueIn (hl : Ledger code A.routines A.bound h A.lives calls) (g : h.Spares s.heap)
    (hcalls : s.frames? = calls) : A.TrueIn code s := by
  rw [Account.TrueIn, hcalls]
  exact hl.bare g.code (by rw [g.cells]) g.bare

theorem turns (hl : Ledger code A.routines A.bound h A.lives calls)
    (hx : Transition.Turns h calls (.next m u)) : A.Becomes code h (A.settle u) u := by
  cases hx with
  | ends ends =>
    cases ends with
    | intro spares suffix => exact hl.ends (List.suffix_refl _) spares suffix
  | serves spares begins => exact hl.serves spares begins
  | @enters s p closure floor expected spares below proto =>
    have hs := hl.trueIn spares below
    have hbegins : A.Becomes code s.heap (A.settle (entered s p closure floor expected))
        (entered s p closure floor expected) := by
      cases hr : A.routines closure with
      | none => exact enters_stranger hs proto hr
      | some r => exact enters_known hs proto hr
    exact ⟨(Account.Grows.of_eq (by rw [spares.cells])).trans hbegins.toGrows, hbegins.right⟩

end Ledger

namespace Account

variable {natives : Array Native} {t : State} {m' : Mode}

theorem execute_congr {u' : State} (hheap : u'.heap = u.heap) : A.execute s u' = A.execute s u := by
  simp only [execute, hheap]

theorem execute_idle_of_calls (hs : ∀ f rest, s.activations ≠ .guest f :: rest) : A.execute s u = A := by
  unfold execute
  split
  · next hcalls => exact absurd hcalls (hs _ _)
  · rfl

theorem Grows.becomes {B C : Account} (hb : A.Grows h B t.heap) (hc : B.Becomes code t.heap C u) :
    A.Becomes code h C u := ⟨hb.trans hc.toGrows, hc.right⟩

/-- Unless an instruction is executed, activations settle and that is all. -/
theorem after_idle (hidle : m = .execute → ∀ f rest, s.activations ≠ .guest f :: rest) :
    A.after m s u = A.settle u := by
  cases m with
  | execute => rw [Account.after, execute_idle_of_calls (hidle rfl)]
  | enter | deliver => rfl

/-- The account of one more step is true after it. -/
theorem TrueIn.after (hA : A.TrueIn code s) (hnatives : ∀ b ∈ natives, ∃ c : Builtin, b = c.native)
    (hstep : step natives m s = .next m' u) : A.Becomes code s.heap (A.after m s u) u := by
  cases Transition.steps hnatives hstep with
  | turns idle turns =>
    rw [after_idle idle]
    exact Ledger.turns hA turns
  | @executes f g rest mode running innermost follows =>
    subst mode
    change A.Becomes code s.heap ((A.execute s u).settle u) u
    rw [TrueIn, State.frames?, running] at hA
    have houtcome := hA.outcome running
    generalize instruction s = r at follows houtcome
    cases follows with
    | goes =>
      cases houtcome with
      | goes innermost told grows ledger =>
        refine grows.becomes (ledger.ends (told ▸ List.suffix_refl _) (.refl _) ?_)
        rw [State.frames?, innermost]
        exact List.suffix_refl _
    | invokes turns =>
      cases houtcome with
      | invokes innermost told idle size ledger =>
        rw [State.frames?, innermost] at turns
        rw [← told] at ledger
        rw [idle]
        exact (Grows.of_eq size).becomes (ledger.turns turns)
    | returns ends =>
      cases houtcome with
      | returns innermost told idle size ledger =>
        rw [idle]
        cases ends with
        | intro spares suffix =>
          exact (Grows.of_eq size).becomes (ledger.ends (told ▸ List.suffix_cons _ _) spares suffix)
    | fails ends heap =>
      cases houtcome with
      | fails innermost told grows ledger =>
        rw [execute_congr heap]
        cases ends with
        | intro spares suffix =>
          exact grows.becomes (ledger.ends (told ▸ List.suffix_cons _ _) spares suffix)

end Account

end

end MiniLua
