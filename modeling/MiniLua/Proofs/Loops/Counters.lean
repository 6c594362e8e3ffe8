import MiniLua.Proofs.Loops.Frames

/-!
The three cells in which a numeric loop counts. They are in slots of its frame and in no frame above that,
and no text has names for them. So nothing but the loop's own instructions writes them, and each of those
does what is known of the three values.
-/

namespace MiniLua

open Effects Machine

/-- The activation with `d` others below it is there, and where it executes instructions they lie between
`lo` and `hi`. -/
def State.Inside (d lo hi : Nat) (m : Mode) (s : State) : Prop :=
  d < s.activations.length ∧ ∀ f rest, m = .execute → s.activations = .guest f :: rest →
    rest.length = d → lo ≤ f.ip ∧ f.ip < hi

/-- With `d` activations below it a function is innermost, and its next instruction is at `pc`. -/
def State.AtPoint (d pc : Nat) (s : State) : Prop :=
  ∃ f rest, s.activations = .guest f :: rest ∧ rest.length = d ∧ f.ip = pc

/-- And the variable in this slot has this value. -/
def State.Sees (d pc slot : Nat) (v : Value) (s : State) : Prop :=
  ∃ f rest cell, s.activations = .guest f :: rest ∧ rest.length = d ∧ f.ip = pc ∧
    f.cells[slot]? = some (some cell) ∧ s.heap.cells[cell]? = some v

/-- Of the three cells from `n` on only variables that no program can name have any. -/
def Veiled (n : Nat) (name : String) (cell : Nat) : Prop :=
  n ≤ cell → cell < n + 3 → Variable.Hidden ⟨name, 0⟩

/-- A loop that runs in a function of this text and code. It counts in the three slots from `slot` on and in
the three cells from `cell` on, of which the first is in the last slot. -/
structure Count where
  code : Heap
  routine : Routine
  proto : Prototype
  slot : Nat
  cell : Nat
  /-- The frames of the activations below. -/
  below : List (Option Frame)

namespace Count

variable (C : Count)

/-- Of the cells the first `k` are in their slots, and they are in no other slots. -/
structure Seated (k : Nat) (cells : Array (Option Nat)) : Prop where
  own : ∀ i < k, cells[C.slot + 2 - i]? = some (some (C.cell + i))
  only : ∀ slot cell, cells[slot]? = some (some cell) → C.cell ≤ cell → cell < C.cell + 3 →
    C.slot ≤ slot ∧ slot ≤ C.slot + 2

/-- None of the cells is there. -/
def Absent (cells : Array (Option Nat)) : Prop :=
  ∀ cell, some cell ∈ cells → cell < C.cell ∨ C.cell + 3 ≤ cell

/-- The function `f` has given the first `k` cells to their slots. The functions that it called, whose frames
are `front`, have none of the cells. -/
structure Secluded (k : Nat) (A : Account) (s : State) (front : List (Option Frame)) (f : Frame) : Prop where
  right : A.TrueIn C.code s
  veiled : A.Tagged (Veiled C.cell)
  frames : s.frames? = front ++ some f :: C.below
  known : A.routines f.closure = some C.routine
  proto : s.proto? f.closure = some C.proto
  room : C.proto.cellCount ≤ f.cells.size
  seated : C.Seated k f.cells
  front : ∀ g, some g ∈ front → C.Absent g.cells
  bound : ∀ i < k, C.cell + i ∈ A.bound

/-- The loop's function is innermost and about to execute the instruction at `pc`, with this stack, and the
loop has these values. -/
structure At (counter limit step : Value) (pc : Nat) (S : Array Value) (s : State) : Prop where
  secluded : ∃ A f, C.Secluded 3 A s [] f ∧ f.ip = pc
  stack : s.stack = S
  counter : s.heap.cells[C.cell + 2]? = some counter
  limit : s.heap.cells[C.cell + 1]? = some limit
  step : s.heap.cells[C.cell]? = some step

end Count

/-- The test of a numeric loop. -/
def continues (counter limit step : Value) : Bool :=
  if isPositive step then numberLe counter limit else numberLe limit counter

/-- The counter of the next round. -/
def advanced (counter step : Value) : Value := Operators.intOrFloat (· + ·) (· + ·) counter step

theorem Variable.not_hidden_of_isName {v : Variable} (h : Lexer.IsName (Bytes.ofText v.name)) :
    ¬ v.Hidden := by
  have hfirst {name : String} (hname : (Bytes.ofText name).head? = some 40) (heq : v.name = name) : False := by
    obtain ⟨b, rest, htext, hb, -⟩ := h
    rw [heq] at htext
    rw [htext] at hname
    obtain rfl : b = 40 := Option.some.inj hname
    exact absurd hb (by decide)
  rintro (heq | heq | heq)
  · exact hfirst (by decide) heq
  · exact hfirst (by decide) heq
  · exact hfirst (by decide) heq

theorem exists_of_suffix_append {α : Type} {l a b : List α} (h : l <:+ a ++ b) (hlength : b.length ≤ l.length) :
    ∃ a', l = a' ++ b ∧ a' <:+ a := by
  have hb : b <:+ l := List.suffix_of_suffix_length_le (List.suffix_append a b) h hlength
  obtain ⟨a', rfl⟩ := hb
  obtain ⟨c, hc⟩ := h
  refine ⟨a', rfl, c, ?_⟩
  rw [← List.append_assoc] at hc
  exact List.append_cancel_right hc

section

variable {natives : Array Native} {C : Count} {j k cell n : Nat} {front : List (Option Frame)} {A : Account}
  {code : Heap} {s t u : State} {f g : Frame} {rest : List Activation} {m m' : Mode}

/-- No assignment writes a cell for which there are no names. -/
theorem Account.TrueIn.unassigned (hA : A.TrueIn code s) (hveiled : A.Tagged (Veiled n)) (hlow : n ≤ cell)
    (hhigh : cell < n + 3) (hbound : cell ∈ A.bound) (hs : s.activations = .guest g :: rest) {c : Closure}
    {q : Prototype} {i : Instruction} {op : Opcode} (hc : s.heap.closures[g.closure]? = some c)
    (hq : s.heap.protos[c.proto]? = some q) (hi : q.code[g.ip]? = some i) (hop : i.opcode? = some op) :
    ¬ (op = .setCell ∧ g.cells[i.x]? = some (some cell) ∨
      op = .setUpvalue ∧ c.upvalues[i.x]? = some cell) := by
  intro hwrites
  rw [Account.TrueIn, State.frames?, hs] at hA
  obtain ⟨life, lives, hhead, -, hlives⟩ := List.forall₂_cons_right_iff.mp hA.each
  cases hhead with
  | stranger unknown there apart =>
    obtain ⟨-, hslot⟩ | ⟨-, hupvalue⟩ := hwrites
    · exact apart cell hbound (Array.mem_of_getElem? hslot)
    · exact hA.apart unknown (Heap.link_of_closure hc) cell hbound (Array.mem_of_getElem? hupvalue)
  | @known L _ U link K text fits =>
    rw [hlives] at hA
    obtain ⟨c', q', i', op', hc', hq', hi', hop', htouches, -⟩ := hA.heeds
    obtain rfl : c' = c := Option.some.inj (hc'.symm.trans hc)
    obtain rfl : q' = q := Option.some.inj (hq'.symm.trans hq)
    obtain rfl : i' = i := Option.some.inj (hi'.symm.trans hi)
    obtain rfl : op' = op := Option.some.inj (hop'.symm.trans hop)
    have htouch : op'.touches := by obtain ⟨rfl, -⟩ | ⟨rfl, -⟩ := hwrites <;> rfl
    obtain ⟨⟨scope, mention⟩, hnext, hdoes⟩ := htouches htouch
    obtain ⟨name, rfl, hfound⟩ := hdoes.assigns hop hwrites
    have hL := hveiled.lives (hlives ▸ List.mem_cons_self)
    cases hL.routine.spelled _ (Life.mem_of_next? hnext) with
    | write hname =>
      exact Variable.not_hidden_of_isName (v := ⟨name, 0⟩) hname (hL.named hfound hlow hhigh)

namespace Count

variable {cells : Array (Option Nat)} {y : Nat}

/-- Another cell is given to another slot. -/
theorem Seated.set (h : C.Seated k cells) (hk : k ≤ 3) (hy : ¬ (C.slot ≤ y ∧ y ≤ C.slot + 2))
    (hcell : C.cell + 3 ≤ cell) : C.Seated k (cells.setIfInBounds y (some cell)) where
  own i hi := by
    rw [Array.getElem?_setIfInBounds_ne (by omega)]
    exact h.own i hi
  only slot other hslot hlow hhigh := by
    by_cases hsame : y = slot
    · subst hsame
      rw [Array.getElem?_setIfInBounds_self] at hslot
      split at hslot
      · cases hslot
        omega
      · cases hslot
    · rw [Array.getElem?_setIfInBounds_ne hsame] at hslot
      exact h.only slot other hslot hlow hhigh

/-- The next cell is given to its slot. -/
theorem Seated.next (h : C.Seated k cells) (hk : k < 3) (hsize : C.slot + 2 - k < cells.size) :
    C.Seated (k + 1) (cells.setIfInBounds (C.slot + 2 - k) (some (C.cell + k))) where
  own i hi := by
    by_cases hlast : i = k
    · rw [hlast]
      exact Array.getElem?_setIfInBounds_self_of_lt hsize
    · rw [Array.getElem?_setIfInBounds_ne (by omega)]
      exact h.own i (by omega)
  only slot cell hslot hlow hhigh := by
    by_cases hsame : C.slot + 2 - k = slot
    · omega
    · rw [Array.getElem?_setIfInBounds_ne hsame] at hslot
      exact h.only slot cell hslot hlow hhigh

theorem Absent.set (h : C.Absent cells) (hcell : C.cell + 3 ≤ cell) :
    C.Absent (cells.setIfInBounds y (some cell)) := by
  intro other hother
  obtain hold | hnew := Array.mem_or_eq_of_mem_setIfInBounds hother
  · exact h other hold
  · obtain rfl : other = cell := Option.some.inj hnew
    exact .inr hcell

/-- The loop's function goes on, and gives no new cell to the loop's slots. -/
theorem Seated.goes (h : C.Seated k f.cells) (hk : k ≤ 3) (hgoes : f.Goes s g)
    (hproto : s.proto? f.closure = some C.proto) (hnew : C.cell + 3 ≤ s.heap.cells.size)
    (hbinds : ∀ slot, C.slot ≤ slot → slot ≤ C.slot + 2 → ¬ C.proto.Has f.ip .newCell slot) :
    C.Seated k g.cells := by
  obtain ⟨-, hsame | ⟨p, y, hp, hhas, hset⟩⟩ := hgoes
  · exact hsame ▸ h
  · obtain rfl : C.proto = p := Option.some.inj (hproto.symm.trans hp)
    exact hset ▸ h.set hk (fun hy ↦ hbinds y hy.1 hy.2 hhas) hnew

/-- Another function goes on. -/
theorem Absent.goes (h : C.Absent f.cells) (hgoes : f.Goes s g) (hnew : C.cell + 3 ≤ s.heap.cells.size) :
    C.Absent g.cells := by
  obtain ⟨-, hsame | ⟨p, y, -, -, hset⟩⟩ := hgoes
  · exact hsame ▸ h
  · exact hset ▸ h.set hnew

end Count

namespace Count.Secluded

/-- Where the activation of the loop is innermost no other functions run above it. -/
theorem innermost (h : C.Secluded k A s front f) (hs : s.activations = .guest g :: rest)
    (hrest : rest.length = C.below.length) : front = [] ∧ f = g := by
  have hframes := h.frames
  rw [State.frames?, hs, List.map_cons] at hframes
  cases front with
  | nil =>
    obtain ⟨hfirst, -⟩ := List.cons.inj hframes
    exact ⟨rfl, (Option.some.inj hfirst).symm⟩
  | cons x front =>
    have hlength := congrArg List.length hframes
    simp at hlength
    omega

/-- Where no other functions run above it, it is innermost. -/
theorem running (h : C.Secluded k A s [] f) :
    ∃ rest, s.activations = .guest f :: rest ∧ rest.length = C.below.length := by
  have hframes := h.frames
  rw [List.nil_append, State.frames?, List.map_eq_cons_iff] at hframes
  obtain ⟨a, rest, hs, ha, hrest⟩ := hframes
  obtain ⟨g⟩ | _ := a
  · obtain rfl : g = f := Option.some.inj ha
    exact ⟨rest, hs, by rw [← hrest, List.length_map]⟩
  · cases ha

variable (h : C.Secluded 3 A s front f)

include h

theorem le_cells : C.cell + 3 ≤ s.heap.cells.size := h.right.below (C.cell + 2) (h.bound 2 (by decide))

/-- The activation of the loop is still there after a step. -/
theorem turned {calls : List (Option Frame)} (front' : List (Option Frame)) (f' : Frame)
    (hcalls : calls = front' ++ some f' :: C.below)
    (hfront : ∀ g, some g ∈ front' → C.Absent g.cells) (hu : State.Turned s.heap calls u)
    (hdepth : C.below.length < u.activations.length) :
    ∃ front'', u.frames? = front'' ++ some f' :: C.below ∧ ∀ g, some g ∈ front'' → C.Absent g.cells := by
  subst hcalls
  cases hu with
  | ends _ suffix =>
    have hlength : (some f' :: C.below).length ≤ u.frames?.length := by
      rw [State.frames?, List.length_map]
      exact hdepth
    obtain ⟨front'', hframes, hsub⟩ := exists_of_suffix_append suffix hlength
    exact ⟨front'', hframes, fun g hg ↦ hfront g (hsub.subset hg)⟩
  | serves _ begins =>
    refine ⟨none :: front', begins, fun g hg ↦ hfront g ?_⟩
    exact (List.mem_cons.mp hg).resolve_left fun hnone ↦ by cases hnone
  | @enters t q closure floor expected _ size frames proto eq =>
    subst eq
    refine ⟨some (entryFrame t q closure floor expected _) :: front', congrArg (some _ :: ·) frames, fun g hg ↦ ?_⟩
    obtain hfirst | hg := List.mem_cons.mp hg
    · cases hfirst
      intro cell hcell
      exact .inr ((h.le_cells.trans size).trans (mem_entry hcell).1)
    · exact hfront g hg

/-- After a step, as far as its frames are known. -/
theorem later {front' : List (Option Frame)} {f' : Frame}
    (hnatives : ∀ b ∈ natives, ∃ c : Builtin, b = c.native) (hstep : step natives m s = .next m' u)
    (hu : u.frames? = front' ++ some f' :: C.below) (hclosure : f'.closure = f.closure)
    (hsize : f'.cells.size = f.cells.size) (hseated : C.Seated 3 f'.cells)
    (hfront : ∀ g, some g ∈ front' → C.Absent g.cells) : C.Secluded 3 (A.after m s u) u front' f' where
  right := (h.right.after hnatives hstep).right
  veiled := h.veiled.after h.right hnatives hstep fun _ _ hnew _ _ hhigh ↦
    absurd (hhigh.trans_le h.le_cells) (Nat.not_lt_of_le hnew)
  frames := hu
  known := by
    have hf : some f ∈ s.frames? := h.frames ▸ List.mem_append_right front List.mem_cons_self
    rw [hclosure, Account.routines_after (h.right.kept.closures f hf)]
    exact h.known
  proto := by
    rw [hclosure, h.right.proto?_eq (frames_of_step hnatives hstep).conserves h.known]
    exact h.proto
  room := hsize ▸ h.room
  seated := hseated
  front := hfront
  bound i hi := by
    obtain ⟨new, hnew, -⟩ := (h.right.after hnatives hstep).bound
    rw [hnew]
    exact List.mem_append_right new (h.bound i hi)

theorem step (hnatives : ∀ b ∈ natives, ∃ c : Builtin, b = c.native)
    (hstep : step natives m s = .next m' u) (hdepth : C.below.length < u.activations.length)
    (hbinds : m = .execute → front = [] → ∀ slot, C.slot ≤ slot → slot ≤ C.slot + 2 →
      ¬ C.proto.Has f.ip .newCell slot) :
    ∃ front' f', C.Secluded 3 (A.after m s u) u front' f' := by
  cases frames_of_step hnatives hstep with
  | turns turned =>
    obtain ⟨front', hu, hfront⟩ := h.turned front f h.frames h.front turned hdepth
    exact ⟨front', f, h.later hnatives hstep hu rfl rfl h.seated hfront⟩
  | @goes f₀ g rest mode running goes turned =>
    have hs := h.frames
    rw [State.frames?, running, List.map_cons] at hs
    cases hfront : front with
    | nil =>
      rw [hfront] at hs
      obtain ⟨hfirst, hbelow⟩ := List.cons.inj hs
      obtain rfl : f₀ = f := Option.some.inj hfirst
      obtain ⟨front', hu, habsent⟩ := h.turned [] g (congrArg (some g :: ·) hbelow)
        (fun g hg ↦ by cases hg) turned hdepth
      have hseated : C.Seated 3 g.cells :=
        h.seated.goes (Nat.le_refl 3) goes h.proto h.le_cells (hbinds mode hfront)
      exact ⟨front', g, h.later hnatives hstep hu goes.1 goes.size hseated habsent⟩
    | cons first front₀ =>
      rw [hfront] at hs
      obtain ⟨hfirst, hrest⟩ := List.cons.inj hs
      have habsent : ∀ g', some g' ∈ some g :: front₀ → C.Absent g'.cells := by
        intro g' hg'
        obtain hnew | hold := List.mem_cons.mp hg'
        · obtain rfl := Option.some.inj hnew
          refine (h.front f₀ ?_).goes goes h.le_cells
          rw [hfront, ← hfirst]
          exact List.mem_cons_self
        · exact h.front g' (hfront ▸ List.mem_cons_of_mem _ hold)
      obtain ⟨front', hu, habsent'⟩ := h.turned (some g :: front₀) f
        (congrArg (some g :: ·) hrest) habsent turned hdepth
      exact ⟨front', f, h.later hnatives hstep hu rfl rfl h.seated habsent'⟩

/-- Nothing else writes the cells. -/
theorem content (hnatives : ∀ b ∈ natives, ∃ c : Builtin, b = c.native)
    (hstep : MiniLua.step natives m s = .next m' u)
    (hcounts : m = .execute → front = [] → ∀ op y, op = .forPrep ∨ op = .forStep → C.proto.Has f.ip op y →
      y + 2 < C.slot ∨ C.slot + 2 < y) (hlow : C.cell ≤ cell) (hhigh : cell < C.cell + 3) :
    u.heap.cells[cell]? = s.heap.cells[cell]? := by
  have hv := Array.getElem?_eq_getElem (hhigh.trans_le h.le_cells)
  rw [hv]
  by_contra hchanged
  obtain ⟨hmode, f₀, rest, c, q, i, op, hs, hc, hq, hi, hop, hwrites⟩ :=
    writes_of_step hnatives hstep hv hchanged
  obtain ⟨e, rfl⟩ := Nat.exists_eq_add_of_le hlow
  have hunassigned := h.right.unassigned h.veiled hlow hhigh (h.bound e (by omega)) hs hc hq hi hop
  have hframes := h.frames
  rw [State.frames?, hs, List.map_cons] at hframes
  obtain hset | hset | ⟨hcount, j, hj, hslot⟩ := hwrites
  · exact hunassigned (.inl hset)
  · exact hunassigned (.inr hset)
  · cases hfront : front with
    | nil =>
      rw [hfront] at hframes
      obtain ⟨hfirst, -⟩ := List.cons.inj hframes
      obtain rfl : f₀ = f := Option.some.inj hfirst
      have hp : s.proto? f₀.closure = some q := Option.bind_eq_some_iff.mpr ⟨c, hc, hq⟩
      obtain rfl : C.proto = q := Option.some.inj (h.proto.symm.trans hp)
      have hapart := hcounts hmode hfront op i.x hcount ⟨i, hi, hop, rfl⟩
      have honly := h.seated.only (i.x + j) (C.cell + e) hslot hlow hhigh
      omega
    | cons first front₀ =>
      rw [hfront] at hframes
      obtain ⟨hfirst, -⟩ := List.cons.inj hframes
      have hmem : some f₀ ∈ front := by
        rw [hfront, ← hfirst]
        exact List.mem_cons_self
      have hfree := h.front f₀ hmem (C.cell + e) (Array.mem_of_getElem? hslot)
      omega

/-- While instructions of the loop's function lie in code that spares its slots, the cells are left as they
are. -/
theorem run (hnatives : ∀ b ∈ natives, ∃ c : Builtin, b = c.native) {lo hi : Nat}
    (hspares : ∀ pc, lo ≤ pc → pc < hi → ∀ slot, C.slot ≤ slot → slot ≤ C.slot + 2 →
      C.proto.Spares pc slot)
    (hrun : MiniLua.run natives j m s = .running m' t)
    (hinside : ∀ i < j, ∀ mi si, MiniLua.run natives i m s = .running mi si →
      si.Inside C.below.length lo hi mi) (hdepth : C.below.length < t.activations.length) :
    (∃ A' front' f', C.Secluded 3 A' t front' f') ∧
      ∀ i < 3, t.heap.cells[C.cell + i]? = s.heap.cells[C.cell + i]? := by
  induction j generalizing m s A front f with
  | zero =>
    cases hrun
    exact ⟨⟨A, front, f, h⟩, fun _ _ ↦ rfl⟩
  | succ j ih =>
    rw [MiniLua.run] at hrun
    cases hstep : MiniLua.step natives m s with
    | halt result u =>
      rw [hstep] at hrun
      cases hrun
    | next m₁ u =>
      rw [hstep] at hrun
      have hlater : ∀ i < j, ∀ mi si, MiniLua.run natives i m₁ u = .running mi si →
          si.Inside C.below.length lo hi mi := fun i hi mi si hi' ↦
        hinside (i + 1) (Nat.succ_lt_succ hi) mi si (by rw [MiniLua.run, hstep]; exact hi')
      have hu : C.below.length < u.activations.length := by
        cases j with
        | zero =>
          cases hrun
          exact hdepth
        | succ j => exact (hlater 0 (Nat.succ_pos j) m₁ u rfl).1
      have hpc : m = .execute → front = [] → lo ≤ f.ip ∧ f.ip < hi := by
        rintro hmode rfl
        obtain ⟨rest, hs, hrest⟩ := h.running
        exact (hinside 0 (Nat.succ_pos j) m s rfl).2 f rest hmode hs hrest
      obtain ⟨front', f', hsecluded⟩ := h.step hnatives hstep hu fun hmode hfront slot hlow hhigh hhas ↦ by
        obtain ⟨hlo, hhi⟩ := hpc hmode hfront
        exact ((hspares f.ip hlo hhi slot hlow hhigh) .newCell slot hhas).1 rfl rfl
      obtain ⟨hend, hcontents⟩ := ih hsecluded hrun hlater
      refine ⟨hend, fun i hi ↦ (hcontents i hi).trans ?_⟩
      refine h.content hnatives hstep (fun hmode hfront op y hop hhas ↦ ?_) (by omega) (by omega)
      obtain ⟨hlo, hhi⟩ := hpc hmode hfront
      have hcounts : op.counts = true := by obtain rfl | rfl := hop <;> rfl
      have hfirst := ((hspares f.ip hlo hhi C.slot (by omega) (by omega)) op y hhas).2 hcounts
      have hlast := ((hspares f.ip hlo hhi (C.slot + 2) (by omega) (by omega)) op y hhas).2 hcounts
      omega

omit h in
/-- One instruction of the loop's function, which gives no new cell to the loop's slots. -/
theorem goes (h : C.Secluded 3 A s [] f) (hnatives : ∀ b ∈ natives, ∃ c : Builtin, b = c.native)
    (hstep : MiniLua.step natives .execute s = .next .execute u) (hu : u.activations = .guest g :: rest)
    (hrest : rest.length = C.below.length)
    (hbinds : ∀ slot, C.slot ≤ slot → slot ≤ C.slot + 2 → ¬ C.proto.Has f.ip .newCell slot) :
    C.Secluded 3 (A.after .execute s u) u [] g := by
  have hdepth : C.below.length < u.activations.length := by
    rw [hu, List.length_cons, hrest]
    exact Nat.lt_succ_self _
  obtain ⟨front', f', h'⟩ := h.step hnatives hstep hdepth fun _ _ ↦ hbinds
  obtain ⟨rfl, rfl⟩ := h'.innermost hu hrest
  exact h'

end Count.Secluded

end

section

variable {natives : Array Native} {s : State} {f : Frame} {rest : List Activation} {p : Prototype}
  {op : Opcode} {x : Nat}

theorem step_of_has (natives : Array Native) (hs : s.activations = .guest f :: rest)
    (hp : s.proto? f.closure = some p) (hhas : p.Has f.ip op x) :
    ∃ i : Instruction, i.x = x ∧ step natives .execute s = Transition.afterInstruction natives
      (perform f p.constants i op { s with activations := .guest { f with ip := f.ip + 1 } :: rest }) := by
  obtain ⟨i, hi, hop, hx⟩ := hhas
  exact ⟨i, hx, by rw [Transition.step_execute, instruction_of_guest hs hp hi hop, advance_of_guest hs]⟩

end

/-- Where a loop is prepared, its three cells were given to variables that no program can name. -/
theorem Home.hides {U : Home} {all : List Occurrence} {K : Known} {start x : Nat}
    (hminds : ∀ k, U.Minds all k start K) (hstep : U.proto.Has start .newCell (x + 2))
    (hlimit : U.proto.Has (start + 1) .newCell (x + 1)) (hcounter : U.proto.Has (start + 2) .newCell x)
    (hprepare : U.proto.Has (start + 3) .forPrep x) :
    ∀ k < 3, ∃ scope v, U.proto.occurrence? all (start + k) = some ⟨scope, .bind v⟩ ∧ v.Hidden := by
  have hbind {K : Known} {pc slot : Nat} (hm : ∀ k, U.Minds all k pc K) (hhas : U.proto.Has pc .newCell slot) :
      ∃ scope v, U.proto.occurrence? all pc = some ⟨scope, .bind v⟩ ∧
        ∀ k, U.Minds all k (pc + 1) (K.bind v slot) := by
    obtain ⟨i, op, hi, hop, htouches, -, hfalls, -⟩ := next_of_minds hm
    obtain ⟨rfl, rfl⟩ := hhas.unique ⟨i, hi, hop, rfl⟩
    obtain ⟨⟨scope, mention⟩, ho, hmeans⟩ := htouches rfl
    have hfalls := hfalls (by decide) (by decide)
    obtain ⟨-, v, hv⟩ | ⟨hne, -⟩ | ⟨hne, -⟩ := hmeans.cases
    · obtain rfl : mention = .bind v := hv
      rw [ho] at hfalls
      exact ⟨scope, v, ho, hfalls⟩
    · cases hne
    · exact absurd rfl hne
  obtain ⟨scope₁, v₁, ho₁, hm₁⟩ := hbind hminds hstep
  obtain ⟨scope₂, v₂, ho₂, hm₂⟩ := hbind hm₁ hlimit
  obtain ⟨scope₃, v₃, ho₃, hm₃⟩ := hbind hm₂ hcounter
  obtain ⟨i, op, hi, hop, -, hcounts, -⟩ := next_of_minds hm₃
  obtain ⟨rfl, hx⟩ := hprepare.unique ⟨i, hi, hop, rfl⟩
  have hcounts := hcounts rfl
  rw [← hx] at hcounts
  -- The last variable that was bound in a slot is the one that is known there.
  have honly {K : Known} {v w : Variable} {slot : Nat} (hw : (w, slot) ∈ K.bind v slot) : w = v := by
    obtain hw | hw := List.mem_cons.mp hw
    · exact (Prod.mk.inj hw).1
    · exact absurd rfl (of_decide_eq_true (List.mem_filter.mp hw).2).2
  have hbefore {K : Known} {v w : Variable} {slot other : Nat} (hw : (w, other) ∈ K.bind v slot)
      (hne : other ≠ slot) : (w, other) ∈ K := by
    obtain hw | hw := List.mem_cons.mp hw
    · exact absurd (Prod.mk.inj hw).2 hne
    · exact (List.mem_filter.mp hw).1
  intro k hk
  obtain ⟨w, hw, hmem⟩ := hcounts (2 - k) (by omega)
  obtain rfl | rfl | rfl : k = 0 ∨ k = 1 ∨ k = 2 := by omega
  · exact ⟨scope₁, v₁, ho₁, honly (hbefore (hbefore hmem (by omega)) (by omega)) ▸ hw⟩
  · exact ⟨scope₂, v₂, ho₂, honly (hbefore hmem (by omega)) ▸ hw⟩
  · exact ⟨scope₃, v₃, ho₃, honly hmem ▸ hw⟩

/-- The next of the loop's cells is given to its slot. -/
theorem Count.Secluded.opens {natives : Array Native} {C : Count} {k : Nat} {A : Account} {s : State}
    {f : Frame} {S : Array Value} {w : Value} (h : C.Secluded k A s [] f)
    (hnatives : ∀ b ∈ natives, ∃ c : Builtin, b = c.native) (hk : k < 3)
    (hsize : s.heap.cells.size = C.cell + k) (hhas : C.proto.Has f.ip .newCell (C.slot + 2 - k))
    (hslots : C.slot + 2 < C.proto.cellCount)
    (hname : ∃ scope v, C.proto.occurrence? (occurrences C.routine.params C.routine.body) f.ip =
      some ⟨scope, .bind v⟩ ∧ v.Hidden) (hstack : s.stack = S.push w) :
    ∃ A' t g, MiniLua.step natives .execute s = .next .execute t ∧ C.Secluded (k + 1) A' t [] g ∧
      g.ip = f.ip + 1 ∧ t.stack = S ∧ t.heap.cells = s.heap.cells.push w ∧ t.options = s.options := by
  obtain ⟨rest, hs, hrest⟩ := h.running
  obtain ⟨scope, v, hoccurs, hv⟩ := hname
  obtain ⟨L, lives, hlives, hroutine, -⟩ := h.right.heeds hs h.known
  have hnext : L.next? s f = some ⟨scope, .bind v⟩ := by
    rw [Life.next?, h.proto, Option.bind_some, Life.occurrences, hroutine]
    exact hoccurs
  obtain ⟨i, hx, hstep⟩ := step_of_has natives hs h.proto hhas
  have hslot : C.slot + 2 - k < f.cells.size := by
    have hroom := h.room
    omega
  rw [perform_newCell (S := S) (v := w) (by exact hstack) rfl (by rw [hx]; exact hslot), hx] at hstep
  have hf : some f ∈ s.frames? := h.frames ▸ List.mem_cons_self
  obtain ⟨-, hbelow⟩ : some f = some f ∧ rest.map Activation.frame? = C.below := by
    have hframes := h.frames
    rw [State.frames?, hs] at hframes
    exact List.cons.inj hframes
  refine ⟨_, _, _, hstep, ⟨(h.right.after hnatives hstep).right, ?_, congrArg (_ :: ·) hbelow, ?_, h.proto, ?_, ?_,
    (fun g hg ↦ by cases hg), ?_⟩, rfl, rfl, rfl, rfl⟩
  · refine h.veiled.after_bind h.right hlives hs hnext ?_ fun _ _ ↦ hv
    rw [hs]
    rfl
  · rw [Account.routines_after (h.right.kept.closures f hf)]
    exact h.known
  · rw [Array.size_setIfInBounds]
    exact h.room
  · have hseated := h.seated.next hk hslot
    rw [← hsize] at hseated
    exact hseated
  · intro i hi
    change C.cell + i ∈ (((A.execute s _).settle _).bound)
    rw [(h.right.binds hnatives hstep hlives hs hnext).2, hsize]
    by_cases hlast : i = k
    · exact hlast ▸ List.mem_cons_self
    · exact List.mem_cons_of_mem _ (h.bound i (by omega))

theorem Heap.cell_of_some {h : Heap} {cell : Nat} {v : Value} (hv : h.cells[cell]? = some v) :
    h.cell cell = v := by
  rw [Heap.cell, Array.getD_eq_getD_getElem?, hv, Option.getD_some]

theorem Heap.setCell_of_some {h : Heap} {cell : Nat} {v : Value} (hv : h.cells[cell]? = some v) :
    h.setCell cell v = h := by
  obtain ⟨hlt, hget⟩ := Array.getElem?_eq_some_iff.mp hv
  rw [Heap.setCell, ← hget]
  simp [Array.setIfInBounds, hlt]

theorem Machine.prepareLoop_ints {s : State} {cells : LoopCells} {a b c : Int64}
    (ha : s.heap.cells[cells.counter]? = some (.int a)) (hb : s.heap.cells[cells.limit]? = some (.int b))
    (hc : s.heap.cells[cells.step]? = some (.int c)) : prepareLoop cells s = .ok () s := by
  have hnumber (i : Int64) (what : String) : loopNumber (.int i) what s = .ok (.int i) s := rfl
  have hstore {cell : Nat} {v : Value} (hv : s.heap.cells[cell]? = some v) :
      changeHeap (fun h ↦ h.setCell cell v) s = .ok () s := by
    have hsame : { s with heap := s.heap.setCell cell v } = s := by rw [Heap.setCell_of_some hv]
    exact congrArg (EStateM.Result.ok ()) hsame
  rw [prepareLoop, bind_apply, get_apply]
  dsimp only
  rw [Heap.cell_of_some ha, Heap.cell_of_some hb, Heap.cell_of_some hc, bind_of_ok (hnumber a _),
    bind_of_ok (hnumber b _), bind_of_ok (hnumber c _)]
  dsimp only
  rw [bind_of_ok (hstore ha), bind_of_ok (hstore hb), hstore hc]

namespace Count.At

variable {natives : Array Native} {C : Count} {counter limit step : Value} {pc start var last : Nat}
  {S : Array Value} {s : State} {op : Opcode} {y : Nat}

theorem fetch (h : C.At counter limit step pc S s) (natives : Array Native) (hhas : C.proto.Has pc op y) :
    ∃ A f rest, ∃ i : Instruction, C.Secluded 3 A s [] f ∧ s.activations = .guest f :: rest ∧
      rest.length = C.below.length ∧ f.ip = pc ∧ i.x = y ∧
      MiniLua.step natives .execute s = Transition.afterInstruction natives
        (perform f C.proto.constants i op
          { s with activations := .guest { f with ip := f.ip + 1 } :: rest }) := by
  obtain ⟨A, f, hsecluded, rfl⟩ := h.secluded
  obtain ⟨rest, hs, hrest⟩ := hsecluded.running
  obtain ⟨i, hx, hstep⟩ := step_of_has natives hs hsecluded.proto hhas
  exact ⟨A, f, rest, i, hsecluded, hs, hrest, rfl, hx, hstep⟩

end Count.At

section

variable {natives : Array Native} {C : Count} {counter limit step : Value} {start var last : Nat}
  {S : Array Value} {s : State}

/-- Where each cell of the loop is. -/
theorem Count.Secluded.slots {A : Account} {front : List (Option Frame)} {f : Frame}
    (h : C.Secluded 3 A s front f) : f.cells[C.slot]? = some (some (C.cell + 2)) ∧
      f.cells[C.slot + 1]? = some (some (C.cell + 1)) ∧ f.cells[C.slot + 2]? = some (some C.cell) :=
  ⟨h.seated.own 2 (by decide), h.seated.own 1 (by decide), h.seated.own 0 (by decide)⟩

variable (hloop : C.proto.IsLoop start C.slot var last)
  (hnatives : ∀ b ∈ natives, ∃ c : Builtin, b = c.native)

include hloop hnatives

namespace Count.At

theorem test (h : C.At counter limit step (start + 4) S s) (hroom : S.size < s.options.maxStack) :
    ∃ t, MiniLua.step natives .execute s = .next .execute t ∧ t.options = s.options ∧
      C.At counter limit step (start + 5) (S.push (.bool (continues counter limit step))) t := by
  obtain ⟨A, f, rest, i, hsecluded, hs, hrest, hip, hx, hstep⟩ := h.fetch natives hloop.test
  obtain ⟨hcounter, hlimit, hstep'⟩ := hsecluded.slots
  rw [← hx] at hcounter hlimit hstep'
  have hgoes : loopGoes s.heap ⟨C.cell + 2, C.cell + 1, C.cell⟩ = continues counter limit step := by
    simp only [loopGoes, continues, Heap.cell_of_some h.counter, Heap.cell_of_some h.limit,
      Heap.cell_of_some h.step]
  rw [perform_forTest hcounter hlimit hstep', give_of_room (by rw [h.stack]; exact hroom)] at hstep
  refine ⟨_, hstep, rfl, ⟨_, _, hsecluded.goes hnatives hstep rfl hrest ?_, congrArg (· + 1) hip⟩, ?_,
    h.counter, h.limit, h.step⟩
  · intro slot _ _ hnew
    cases (hloop.test.unique (hip ▸ hnew)).1
  · dsimp only
    rw [h.stack, hgoes]

theorem leave {b : Bool} (h : C.At counter limit step (start + 5) (S.push (.bool b)) s) :
    ∃ t, MiniLua.step natives .execute s = .next .execute t ∧ t.options = s.options ∧
      C.At counter limit step (if b then start + 6 else last + 2) S t := by
  obtain ⟨A, f, rest, i, hsecluded, hs, hrest, hip, hx, hstep⟩ := h.fetch natives hloop.leave
  have hbinds : ∀ slot, C.slot ≤ slot → slot ≤ C.slot + 2 → ¬ C.proto.Has f.ip .newCell slot := by
    intro slot _ _ hnew
    cases (hloop.leave.unique (hip ▸ hnew)).1
  rw [perform_jumpIfFalse (S := S) (v := .bool b) (by exact h.stack)] at hstep
  cases b with
  | true =>
    exact ⟨_, hstep, rfl, ⟨_, _, hsecluded.goes hnatives hstep rfl hrest hbinds, congrArg (· + 1) hip⟩, rfl,
      h.counter, h.limit, h.step⟩
  | false =>
    exact ⟨_, hstep, rfl, ⟨_, _, hsecluded.goes hnatives hstep rfl hrest hbinds, hx⟩, rfl, h.counter, h.limit,
      h.step⟩

theorem load (h : C.At counter limit step (start + 6) S s) (hroom : S.size < s.options.maxStack) :
    ∃ t, MiniLua.step natives .execute s = .next .execute t ∧ t.options = s.options ∧
      C.At counter limit step (start + 7) (S.push counter) t := by
  obtain ⟨A, f, rest, i, hsecluded, hs, hrest, hip, hx, hstep⟩ := h.fetch natives hloop.load
  have hslot := hsecluded.slots.1
  rw [← hx] at hslot
  rw [perform_getCell hslot, give_of_room (by rw [h.stack]; exact hroom)] at hstep
  refine ⟨_, hstep, rfl, ⟨_, _, hsecluded.goes hnatives hstep rfl hrest ?_, congrArg (· + 1) hip⟩, ?_,
    h.counter, h.limit, h.step⟩
  · intro slot _ _ hnew
    cases (hloop.load.unique (hip ▸ hnew)).1
  · dsimp only
    rw [h.stack, Heap.cell_of_some h.counter]

/-- The variable of the loop gets a cell of its own with the counter's value. -/
theorem newVar (h : C.At counter limit step (start + 7) (S.push counter) s) :
    ∃ t, MiniLua.step natives .execute s = .next .execute t ∧ t.options = s.options ∧
      C.At counter limit step (start + 8) S t ∧ t.Sees C.below.length (start + 8) var counter := by
  obtain ⟨A, f, rest, i, hsecluded, hs, hrest, hip, hx, hstep⟩ := h.fetch natives hloop.newVar
  have hvar : var < f.cells.size := hloop.slot.trans_le hsecluded.room
  have hold {cell : Nat} {v : Value} (hv : s.heap.cells[cell]? = some v) :
      (s.heap.allocCell counter).2.cells[cell]? = some v := by
    obtain ⟨hlt, -⟩ := Array.getElem?_eq_some_iff.mp hv
    rw [Heap.allocCell, Array.getElem?_push_lt hlt, ← hv, Array.getElem?_eq_getElem hlt]
  rw [perform_newCell (S := S) (v := counter) (by exact h.stack) rfl (by rw [hx]; exact hvar)] at hstep
  refine ⟨_, hstep, rfl, ⟨⟨_, _, hsecluded.goes hnatives hstep rfl hrest ?_, congrArg (· + 1) hip⟩, rfl,
    hold h.counter, hold h.limit, hold h.step⟩, ⟨_, rest, s.heap.cells.size, rfl, hrest, congrArg (· + 1) hip,
    ?_, ?_⟩⟩
  · intro slot hlow hhigh hnew
    exact hloop.apart slot hlow hhigh (hloop.newVar.unique (hip ▸ hnew)).2.symm
  · rw [hx]
    exact Array.getElem?_setIfInBounds_self_of_lt hvar
  · exact Array.getElem?_push_size

/-- The counter is advanced. -/
theorem advance (h : C.At counter limit step last S s) :
    ∃ t, MiniLua.step natives .execute s = .next .execute t ∧ t.options = s.options ∧
      C.At (advanced counter step) limit step (last + 1) S t := by
  obtain ⟨A, f, rest, i, hsecluded, hs, hrest, hip, hx, hstep⟩ := h.fetch natives hloop.advance
  obtain ⟨hcounter, hlimit, hstep'⟩ := hsecluded.slots
  rw [← hx] at hcounter hlimit hstep'
  rw [perform_forStep hcounter hlimit hstep'] at hstep
  dsimp only at hstep
  rw [Heap.cell_of_some h.counter, Heap.cell_of_some h.step] at hstep
  refine ⟨_, hstep, rfl, ⟨_, _, hsecluded.goes hnatives hstep rfl hrest ?_, congrArg (· + 1) hip⟩, h.stack,
    Array.getElem?_setIfInBounds_self_of_lt (by have hsize := hsecluded.le_cells; omega),
    (Array.getElem?_setIfInBounds_ne (by omega)).trans h.limit,
    (Array.getElem?_setIfInBounds_ne (by omega)).trans h.step⟩
  intro slot _ _ hnew
  cases (hloop.advance.unique (hip ▸ hnew)).1

theorem back (h : C.At counter limit step (last + 1) S s) :
    ∃ t, MiniLua.step natives .execute s = .next .execute t ∧ t.options = s.options ∧
      C.At counter limit step (start + 4) S t := by
  obtain ⟨A, f, rest, i, hsecluded, hs, hrest, hip, hx, hstep⟩ := h.fetch natives hloop.back
  rw [perform_jump] at hstep
  refine ⟨_, hstep, rfl, ⟨_, _, hsecluded.goes hnatives hstep rfl hrest ?_, hx⟩, h.stack, h.counter, h.limit,
    h.step⟩
  intro slot _ _ hnew
  cases (hloop.back.unique (hip ▸ hnew)).1

omit counter limit step in
/-- Integers stay what they are. -/
theorem prepare {a b c : Int64} (h : C.At (.int a) (.int b) (.int c) (start + 3) S s) :
    ∃ t, MiniLua.step natives .execute s = .next .execute t ∧ t.options = s.options ∧
      C.At (.int a) (.int b) (.int c) (start + 4) S t := by
  obtain ⟨A, f, rest, i, hsecluded, hs, hrest, hip, hx, hstep⟩ := h.fetch natives hloop.prepare
  obtain ⟨hcounter, hlimit, hstep'⟩ := hsecluded.slots
  rw [← hx] at hcounter hlimit hstep'
  rw [perform_forPrep hcounter hlimit hstep',
    bind_of_ok (prepareLoop_ints (by exact h.counter) (by exact h.limit) (by exact h.step))] at hstep
  refine ⟨_, hstep, rfl, ⟨_, _, hsecluded.goes hnatives hstep rfl hrest ?_, congrArg (· + 1) hip⟩, h.stack,
    h.counter, h.limit, h.step⟩
  intro slot _ _ hnew
  cases (hloop.prepare.unique (hip ▸ hnew)).1

end Count.At

end

section

variable {natives : Array Native} {code : Heap} {A : Account} {s : State} {f : Frame} {rest : List Activation}
  {r : Routine} {p : Prototype} {x var last : Nat} {S : Array Value} {a b c : Int64}

/-- Before a loop begins its cells are not there. -/
theorem Account.Ready.secluded (hA : A.Ready code s) (hs : s.activations = .guest f :: rest)
    (hr : A.routines f.closure = some r) (hp : s.proto? f.closure = some p) :
    (⟨code, r, p, x, s.heap.cells.size, rest.map Activation.frame?⟩ : Count).Secluded 0 A s [] f where
  right := hA.right
  veiled := hA.tagged.mono fun _ cell hold hnew _ ↦ absurd hold (Nat.not_lt_of_le hnew)
  frames := by rw [State.frames?, hs]; rfl
  known := hr
  proto := hp
  room := hA.roomy f r p (by rw [State.frames?, hs]; exact List.mem_cons_self) hr hp
  seated :=
    { own := fun i hi ↦ absurd hi (Nat.not_lt_zero i)
      only := fun slot cell hcell hnew _ ↦ by
        refine absurd (hA.right.held cell (.inl ⟨f, ?_, Array.mem_of_getElem? hcell⟩)) (Nat.not_lt_of_le hnew)
        rw [State.frames?, hs]
        exact List.mem_cons_self }
  front g hg := by cases hg
  bound i hi := absurd hi (Nat.not_lt_zero i)

/-- A loop over three integers begins. -/
theorem Account.Ready.opens (hA : A.Ready code s) (hnatives : ∀ b ∈ natives, ∃ c : Builtin, b = c.native)
    (hs : s.activations = .guest f :: rest) (hr : A.routines f.closure = some r)
    (hp : s.proto? f.closure = some p) (hloop : p.IsLoop f.ip x var last)
    (hstack : s.stack = ((S.push (.int a)).push (.int b)).push (.int c)) :
    ∃ C : Count, C.proto = p ∧ C.slot = x ∧ C.below.length = rest.length ∧
      ∃ t, run natives 4 .execute s = .running .execute t ∧ t.options = s.options ∧
        C.At (.int a) (.int b) (.int c) (f.ip + 4) S t := by
  let C : Count := ⟨code, r, p, x, s.heap.cells.size, rest.map Activation.frame?⟩
  have hnames : ∀ k < 3, ∃ scope v, p.occurrence? (occurrences r.params r.body) (f.ip + k) =
      some ⟨scope, .bind v⟩ ∧ v.Hidden := by
    have hright := hA.right
    rw [Account.TrueIn, State.frames?, hs] at hright
    obtain ⟨life, lives, hhead, -, -⟩ := List.forall₂_cons_right_iff.mp hright.each
    cases hhead with
    | stranger unknown => cases hr.symm.trans unknown
    | @known L _ U link K text fits =>
      obtain rfl : r = L.routine := Option.some.inj (hr.symm.trans text)
      obtain rfl : p = U.proto := Option.some.inj (hp.symm.trans (fits.next? hright.protos).1)
      exact Home.hides fits.minds hloop.newStep hloop.newLimit hloop.newCounter hloop.prepare
  have h₀ : C.Secluded 0 A s [] f := hA.secluded hs hr hp
  obtain ⟨A₁, t₁, f₁, hstep₁, h₁, hip₁, hstack₁, hcells₁, hoptions₁⟩ :=
    h₀.opens hnatives (by decide) rfl hloop.newStep hloop.slots (hnames 0 (by decide)) hstack
  obtain ⟨A₂, t₂, f₂, hstep₂, h₂, hip₂, hstack₂, hcells₂, hoptions₂⟩ :=
    h₁.opens hnatives (by decide) (by rw [hcells₁]; exact Array.size_push _) (hip₁ ▸ hloop.newLimit) hloop.slots
      (hip₁ ▸ hnames 1 (by decide)) hstack₁
  obtain ⟨A₃, t₃, f₃, hstep₃, h₃, hip₃, hstack₃, hcells₃, hoptions₃⟩ :=
    h₂.opens hnatives (by decide) (by rw [hcells₂, hcells₁]; simp [C]) (by rw [hip₂, hip₁]; exact hloop.newCounter)
      hloop.slots (by rw [hip₂, hip₁]; exact hnames 2 (by decide)) hstack₂
  have h : C.At (.int a) (.int b) (.int c) (f.ip + 3) S t₃ := by
    refine ⟨⟨A₃, f₃, h₃, by rw [hip₃, hip₂, hip₁]⟩, hstack₃, ?_, ?_, ?_⟩
    all_goals
      rw [hcells₃, hcells₂, hcells₁]
      grind
  obtain ⟨t, hstep, hoptions, ht⟩ := Count.At.prepare (C := C) hloop hnatives h
  refine ⟨C, rfl, rfl, List.length_map _, t, ?_, ?_, ht⟩
  · rw [run_of_next hstep₁, run_of_next hstep₂, run_of_next hstep₃, run_of_next hstep]
    rfl
  · rw [hoptions, hoptions₃, hoptions₂, hoptions₁]

end

end MiniLua
