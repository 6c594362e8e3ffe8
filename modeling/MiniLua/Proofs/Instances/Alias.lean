import MiniLua.Proofs.Instances.Settles
import MiniLua.Proofs.Instances.Writes
import MiniLua.Proofs.Meaning.Programs

/-!
Variables never share cells. Whenever a declaration is executed, its variable gets a cell that no function
and no closure had before, and until that happens again in the same activation this cell is what reads,
writes and captures of the variable reach. What is in it changes by assignments to the variable alone.
-/

namespace MiniLua

open Effects Machine

/-- After `A`, a function of this text begins. Its parameters are bound to cells. -/
def Account.Begins (A : Account) (r : Routine) (B : Account) : Prop :=
  ∃ L cells, L.routine = r ∧ B.lives = some L :: A.lives ∧ B.bound = cells ++ A.bound ∧
    cells.length = r.params.length ∧ ∀ v ∈ (Walk.start r.params).scope, L.cells v = cells[v.serial]?

/-- What becomes of variables in one step from `s` to `t`, where cells of which `Had` holds were had
before. -/
structure Account.Keeps (A : Account) (Had : Nat → Prop) (m : Mode) (s : State) (m' : Mode) (t : State) :
    Prop where
  /-- What declarations bind are cells of their own, which nobody had. -/
  fresh : ∃ new, (A.after m s t).bound = new ++ A.bound ∧ (new ++ A.bound).Nodup ∧
    ∀ cell ∈ new, ¬ Had cell
  /-- A declaration that is executed binds a cell. -/
  binds {L : Life} {lives : List (Option Life)} {f : Frame} {rest : List Activation} {scope : Scope}
    {v : Variable} : m = .execute → m' = .execute → A.lives = some L :: lives →
    s.activations = .guest f :: rest → L.next? s f = some ⟨scope, .bind v⟩ →
    ∃ cell, (A.after m s t).lives = some (L.bind v cell) :: lives ∧
      (A.after m s t).bound = cell :: A.bound
  /-- So does a function that begins, for its parameters. -/
  begins {f : Frame} {rest : List Activation} {r : Routine} : t.activations = .guest f :: rest →
    s.activations.length < t.activations.length → A.routines f.closure = some r →
    A.Begins r (A.after m s t)
  /-- Only an assignment in the text to a variable that has the cell changes what is in it. -/
  assigns : ∀ cell ∈ A.bound, t.heap.cell cell ≠ s.heap.cell cell →
    ∃ L lives f rest, A.lives = some L :: lives ∧ s.activations = .guest f :: rest ∧ L.Assigns s f cell

/-- Wherever the run from here gets, functions whose text is known reach variables where the text says,
and with the next step no variable comes to share a cell. -/
def Account.Safe (natives : Array Native) (A : Account) (m : Mode) (s : State) : Prop :=
  ∀ k m' t, run natives k m s = .running m' t →
    (∀ f rest r, t.activations = .guest f :: rest → (A.follow natives k m s).routines f.closure = some r →
      ∃ L lives, (A.follow natives k m s).lives = some L :: lives ∧ L.routine = r ∧ L.Heeds t f) ∧
    ∀ m'' u, step natives m' t = .next m'' u →
      (A.follow natives k m s).Keeps
        (fun cell ↦ ∃ j ≤ k, ∃ mj sj, run natives j m s = .running mj sj ∧ sj.Holds cell) m' t m'' u

section

variable {L : Life} {h : Heap} {p : Prototype} {f : Frame} {upvalues : Array Nat} {i : Instruction}
  {op : Opcode} {o : Occurrence} {cell : Nat}

/-- What writes a cell stands for an assignment. -/
theorem Life.Does.assigns (hd : L.Does h p f upvalues i o) (hop : i.opcode? = some op)
    (hwrites : op = .setCell ∧ f.cells[i.x]? = some (some cell) ∨
      op = .setUpvalue ∧ upvalues[i.x]? = some cell) :
    ∃ name, o.mention = .write name ∧ L.cell? o.scope name = some cell := by
  have hopcode : op = .setCell ∨ op = .setUpvalue := hwrites.imp And.left And.left
  have hno {other : Opcode} (hother : i.opcode? = some other) (hne : other ≠ .setCell)
      (hne' : other ≠ .setUpvalue) : False := by
    cases hop.symm.trans hother
    exact hopcode.elim hne hne'
  obtain ⟨scope, m⟩ := o
  cases m with
  | bind v => exact (hno hd (by decide) (by decide)).elim
  | make body => exact (hno hd.1 (by decide) (by decide)).elim
  | read name =>
    simp only [Does, Reaches] at hd
    split at hd
    · exact (hno hd.1 (by decide) (by decide)).elim
    · split at hd
      · exact (hno hd.1 (by decide) (by decide)).elim
      · exact (hno hd (by decide) (by decide)).elim
  | write name =>
    refine ⟨name, rfl, ?_⟩
    simp only [Does, Reaches] at hd
    unfold cell?
    cases hfind : scope.find name with
    | some v =>
      rw [hfind] at hd
      obtain ⟨hset, other, hother, hslot⟩ := hd
      cases hop.symm.trans hset
      obtain ⟨-, hcell⟩ | ⟨hne, -⟩ := hwrites
      · cases hslot.symm.trans hcell
        exact hother
      · cases hne
    | none =>
      rw [hfind] at hd
      dsimp only at hd ⊢
      cases haround : L.routine.around.cell? name with
      | some other =>
        rw [haround] at hd
        obtain ⟨hset, hupvalue⟩ := hd
        cases hop.symm.trans hset
        obtain ⟨hne, -⟩ | ⟨-, hcell⟩ := hwrites
        · cases hne
        · exact hupvalue.symm.trans hcell
      | none =>
        rw [haround] at hd
        exact (hno hd (by decide) (by decide)).elim

variable {code : Heap} {A : Account} {lives : List (Option Life)} {s t u : State} {rest : List Activation}
  {c : Closure} {m m' : Mode} {natives : Array Native}

/-- A bound cell is written by a function whose text is known, where the text says so. -/
theorem Account.TrueIn.assigns (hA : A.TrueIn code s) (hs : s.activations = .guest f :: rest)
    (hcell : cell ∈ A.bound) (hc : s.heap.closures[f.closure]? = some c)
    (hp : s.heap.protos[c.proto]? = some p) (hi : p.code[f.ip]? = some i) (hop : i.opcode? = some op)
    (hwrites : f.Writes c.upvalues i op cell) : ∃ L lives, A.lives = some L :: lives ∧ L.Assigns s f cell := by
  rw [TrueIn, State.frames?, hs] at hA
  obtain ⟨life, lives, hhead, -, hlives⟩ := List.forall₂_cons_right_iff.mp hA.each
  cases hhead with
  | stranger unknown there apart =>
    obtain ⟨-, hslot⟩ | ⟨-, hupvalue⟩ | ⟨-, j, -, hslot⟩ := hwrites
    · exact absurd (Array.mem_of_getElem? hslot) (apart cell hcell)
    · exact absurd (Array.mem_of_getElem? hupvalue)
        (hA.apart unknown (Heap.link_of_closure hc) cell hcell)
    · exact absurd (Array.mem_of_getElem? hslot) (apart cell hcell)
  | @known L _ U link K text fits =>
    rw [hlives] at hA
    refine ⟨L, lives, hlives, ?_⟩
    obtain ⟨c', p', i', op', hc', hp', hi', hop', htouches, hcounts⟩ := hA.heeds
    obtain rfl : c' = c := Option.some.inj (hc'.symm.trans hc)
    obtain rfl : p' = p := Option.some.inj (hp'.symm.trans hp)
    obtain rfl : i' = i := Option.some.inj (hi'.symm.trans hi)
    obtain rfl : op' = op := Option.some.inj (hop'.symm.trans hop)
    have hvariable (hset : op' = .setCell ∧ f.cells[i'.x]? = some (some cell) ∨
        op' = .setUpvalue ∧ c'.upvalues[i'.x]? = some cell) (htouch : op'.touches) : L.Assigns s f cell := by
      obtain ⟨⟨scope, mention⟩, hnext, hdoes⟩ := htouches htouch
      obtain ⟨name, rfl, hfound⟩ := hdoes.assigns hop hset
      exact .inl ⟨scope, name, hnext, hfound⟩
    obtain ⟨rfl, hslot⟩ | ⟨rfl, hupvalue⟩ | ⟨hloop, j, hj, hslot⟩ := hwrites
    · exact hvariable (.inl ⟨rfl, hslot⟩) rfl
    · exact hvariable (.inr ⟨rfl, hupvalue⟩) rfl
    · obtain ⟨v, other, hhidden, hother, hcounter⟩ := hcounts (by obtain rfl | rfl := hloop <;> rfl) j hj
      cases hcounter.symm.trans hslot
      exact .inr ⟨v, hhidden, hother⟩

theorem Transition.Ends.length_le {calls : List (Option Frame)} (hx : Transition.Ends h calls (.next m u)) :
    u.activations.length ≤ calls.length := by
  cases hx with
  | intro spares suffix => simpa [State.frames?] using suffix.length_le

/-- More activations than before, the innermost of them a guest function, mean that it has begun. -/
theorem Ledger.begins {calls : List (Option Frame)} {r : Routine}
    (hl : Ledger code A.routines A.bound h A.lives calls) (hx : Transition.Turns h calls (.next m u))
    (hu : u.activations = .guest f :: rest) (hmore : calls.length < u.activations.length)
    (hr : A.routines f.closure = some r) : A.Begins r (A.settle u) := by
  cases hx with
  | ends ends => exact absurd hmore (Nat.not_lt_of_le ends.length_le)
  | serves spares begins =>
    rw [State.frames?, hu] at begins
    cases begins
  | @enters s p closure floor expected spares below proto =>
    obtain ⟨hf, -⟩ := List.cons.inj hu
    cases hf
    have hs := hl.trueIn spares below
    obtain ⟨-, -, -, -, harity⟩ := made_known hs proto hr
    rw [settle_entered hs proto hr]
    refine ⟨_, _, rfl, rfl, rfl, by rw [List.length_range', harity], fun v hv ↦ ?_⟩
    rw [begin_cell harity hv, List.getElem?_range' (harity ▸ Walk.serial_lt hv), Nat.one_mul]

variable (hnatives : ∀ b ∈ natives, ∃ c : Builtin, b = c.native)

include hnatives

theorem Account.TrueIn.begins {r : Routine} (hA : A.TrueIn code s) (hstep : step natives m s = .next m' u)
    (hu : u.activations = .guest f :: rest) (hmore : s.activations.length < u.activations.length)
    (hr : A.routines f.closure = some r) : A.Begins r (A.after m s u) := by
  cases Transition.steps hnatives hstep with
  | turns idle turns =>
    rw [after_idle idle]
    exact Ledger.begins hA turns hu (by simpa [State.frames?] using hmore) hr
  | @executes f₀ g rest₀ mode running innermost follows =>
    subst mode
    change A.Begins r ((A.execute s u).settle u)
    rw [TrueIn, State.frames?, running] at hA
    rw [running, List.length_cons] at hmore
    have hnone {h : Heap} (ends : Transition.Ends h (rest₀.map Activation.frame?) (.next m' u)) : False := by
      have hlength := ends.length_le
      rw [List.length_map] at hlength
      omega
    have houtcome := hA.outcome running
    generalize instruction s = result at innermost follows houtcome
    cases follows with
    | goes =>
      rw [final_ok] at innermost
      rw [innermost, List.length_cons] at hmore
      exact absurd hmore (Nat.lt_irrefl _)
    | invokes turns =>
      cases houtcome with
      | invokes innermost told idle size ledger =>
        rw [State.frames?, innermost] at turns
        rw [← told] at ledger
        rw [idle]
        exact ledger.begins turns hu (by simpa using hmore) hr
    | returns ends => exact (hnone ends).elim
    | fails ends => exact (hnone ends).elim

/-- A declaration that is executed binds a new cell. -/
theorem Account.TrueIn.binds {scope : Scope} {v : Variable} (hA : A.TrueIn code s)
    (hstep : step natives .execute s = .next .execute u) (hlives : A.lives = some L :: lives)
    (hs : s.activations = .guest f :: rest) (hnext : L.next? s f = some ⟨scope, .bind v⟩) :
    ((A.execute s u).settle u).lives = some (L.bind v s.heap.cells.size) :: lives ∧
      ((A.execute s u).settle u).bound = s.heap.cells.size :: A.bound := by
  have hlength : lives.length = rest.length := by
    have hsame := hA.each.length_eq
    rw [hlives, State.frames?, hs] at hsame
    simpa using hsame
  rw [TrueIn, State.frames?, hs, hlives] at hA
  obtain ⟨hhead, -⟩ := List.forall₂_cons.mp hA.each
  cases hhead with
  | @known _ _ U link K text fits =>
    obtain ⟨i, op, hi, hop, htouches, -⟩ := Home.next_of_minds fits.minds
    obtain ⟨hproto, hoccurs⟩ := fits.next? hA.protos
    rw [← hoccurs, hnext] at htouches
    have htouch : op.touches = true := by
      by_contra hidle
      rw [hoccurs, Prototype.occurrence?, hi, Option.bind_some, Instruction.touches, hop,
        Option.any_some, if_neg hidle] at hnext
      cases hnext
    obtain ⟨_, ho, hmeans⟩ := htouches htouch
    cases ho
    obtain rfl : op = .newCell := hmeans
    cases Transition.steps hnatives hstep with
    | turns idle => exact absurd hs (idle rfl f rest)
    | executes _ _ _ follows =>
      rw [instruction_of_guest hs hproto hi hop, advance_of_guest hs] at follows
      obtain ⟨t, ht, ⟨e, he⟩ | ⟨w, ⟨e, he⟩ | ⟨-, hok⟩⟩⟩ := perform_newCell_cases f U.proto.constants i
        { s with activations := .guest { f with ip := f.ip + 1 } :: rest }
      · rw [he] at follows
        cases follows with
        | fails _ _ mode => exact absurd rfl mode
      · rw [he] at follows
        cases follows with
        | fails _ _ mode => exact absurd rfl mode
      · rw [hok _ rest rfl] at follows
        cases follows with
        | goes =>
          have hgrown : s.heap.cells.size < (t.heap.allocCell w).2.cells.size := by
            rw [Heap.size_allocCell, ht.cells]
            exact Nat.lt_succ_self _
          rw [execute_bind hlives hs hnext, if_pos hgrown, settle, if_neg (by simp [hlength])]
          simp [hlength]

/-- The account of a run stays true, and no cell is lost. -/
theorem Account.TrueIn.follow (hA : A.TrueIn code s) {k : Nat} (hrun : run natives k m s = .running m' t) :
    (A.follow natives k m s).TrueIn code t ∧ s.heap.cells.size ≤ t.heap.cells.size := by
  induction k generalizing A m s with
  | zero =>
    cases hrun
    exact ⟨hA, Nat.le_refl _⟩
  | succ k ih =>
    rw [run] at hrun
    rw [Account.follow]
    cases hstep : step natives m s with
    | halt result u =>
      rw [hstep] at hrun
      cases hrun
    | next m₁ s₁ =>
      rw [hstep] at hrun
      have hbecomes := hA.after hnatives hstep
      obtain ⟨hright, hsize⟩ := ih hbecomes.right hrun
      exact ⟨hright, hbecomes.size.trans hsize⟩

omit hnatives in
/-- The innermost function, if its text is known, does what the text says. -/
theorem Account.TrueIn.heeds (hA : A.TrueIn code s) {r : Routine} (hs : s.activations = .guest f :: rest)
    (hr : A.routines f.closure = some r) :
    ∃ L lives, A.lives = some L :: lives ∧ L.routine = r ∧ L.Heeds s f := by
  rw [TrueIn, State.frames?, hs] at hA
  obtain ⟨life, lives, hhead, -, hlives⟩ := List.forall₂_cons_right_iff.mp hA.each
  rw [hlives] at hA
  cases hhead with
  | stranger unknown => cases hr.symm.trans unknown
  | known text => exact ⟨_, lives, hlives, Option.some.inj (text.symm.trans hr), hA.heeds⟩

theorem Account.TrueIn.keeps (hA : A.TrueIn code s) {Had : Nat → Prop}
    (hhad : ∀ cell, Had cell → cell < s.heap.cells.size) (hstep : step natives m s = .next m' u) :
    A.Keeps Had m s m' u where
  fresh := by
    have hbecomes := hA.after hnatives hstep
    obtain ⟨new, hbound, hnew⟩ := hbecomes.bound
    exact ⟨new, hbound, hbound ▸ hbecomes.right.distinct,
      fun cell hcell hold ↦ Nat.not_lt_of_le (hnew cell hcell) (hhad cell hold)⟩
  binds := by
    rintro L lives f rest scope v rfl rfl hlives hs hnext
    exact ⟨_, hA.binds hnatives hstep hlives hs hnext⟩
  begins hu hmore hr := hA.begins hnatives hstep hu hmore hr
  assigns cell hcell hchanged := by
    have hlt := hA.below cell hcell
    have hv := Array.getElem?_eq_getElem hlt
    obtain ⟨-, f, rest, c, p, i, op, hs, hc, hp, hi, hop, hwrites⟩ :=
      writes_of_step hnatives hstep hv fun hsame ↦ hchanged (by
        rw [Heap.cell, Heap.cell, Array.getD_eq_getD_getElem?, Array.getD_eq_getD_getElem?, hsame, hv])
    obtain ⟨L, lives, hlives, hassigns⟩ := hA.assigns hs hcell hc hp hi hop hwrites
    exact ⟨L, lives, f, rest, hlives, hs, hassigns⟩

theorem Account.TrueIn.safe (hA : A.TrueIn code s) (m : Mode) : A.Safe natives m s := by
  intro k m' t hrun
  obtain ⟨hB, -⟩ := hA.follow hnatives hrun
  refine ⟨fun f rest r hs hr ↦ hB.heeds hs hr, fun m'' u hstep ↦ hB.keeps hnatives ?_ hstep⟩
  rintro cell ⟨j, hj, mj, sj, hrunj, hholds⟩
  obtain ⟨hAj, -⟩ := hA.follow hnatives hrunj
  have hrest := run_of_running hrunj (k - j)
  rw [Nat.add_sub_cancel' hj, hrun] at hrest
  exact (hAj.held cell hholds).trans_le (hAj.follow hnatives hrest.symm).2

end

section

variable {natives : Array Native} {code : Heap} {A : Account} {s t : State}

theorem State.Kept.tells (hkept : s.Kept) (code : Heap) {routines : Nat → Option Routine}
    (hnone : ∀ f, some f ∈ s.frames? → routines f.closure = none) :
    List.Forall₂ (Tells code routines [] s.heap) (s.activations.map fun _ ↦ none) s.frames? := by
  refine List.forall₂_map_left_iff.mpr (List.forall₂_map_right_iff.mpr
    (List.forall₂_same.mpr fun a ha ↦ ?_))
  cases a with
  | native call => exact .native
  | guest f =>
    have hf : some f ∈ s.frames? := List.mem_map_of_mem ha
    exact .stranger (hnone f hf) (hkept.closures f hf) fun _ hcell ↦ nomatch hcell

theorem Account.TrueIn.kept (hA : A.TrueIn code s) : s.Kept where
  cells := hA.held
  closures f hf := by
    obtain ⟨life, -, htells⟩ := exists_of_forall₂ hA.each hf
    cases htells with
    | stranger _ there => exact there
    | known _ fits => exact Heap.lt_of_link fits.closure

/-- Whatever runs, what is held is there: it is even if no text is known. -/
theorem State.Kept.run (hnatives : ∀ b ∈ natives, ∃ c : Builtin, b = c.native) (hkept : s.Kept) {k : Nat}
    {m m' : Mode} (hrun : run natives k m s = .running m' t) : t.Kept := by
  have hA : (Account.mk (s.activations.map fun _ ↦ none) (fun _ ↦ none) []).TrueIn .empty s :=
    { protos := fun hp ↦ by simp [Heap.empty] at hp
      made := fun hr ↦ nomatch hr
      each := hkept.tells .empty fun _ _ ↦ rfl
      held := hkept.cells
      below := fun _ hcell ↦ nomatch hcell
      distinct := List.nodup_nil
      apart := fun _ _ _ hcell ↦ nomatch hcell }
  exact (hA.follow hnatives hrun).1.kept

/-- A run that ends was there before. -/
theorem running_of_halted (hnatives : ∀ b ∈ natives, ∃ c : Builtin, b = c.native) {k : Nat} {m : Mode}
    {result : Except RuntimeError (List Value)} (hrun : run natives k m s = .halted result t) :
    ∃ j m', run natives j m s = .running m' t := by
  induction k generalizing m s with
  | zero => cases hrun
  | succ k ih =>
    rw [MiniLua.run] at hrun
    cases hstep : step natives m s with
    | halt result' u =>
      rw [hstep] at hrun
      cases hrun
      obtain rfl := Transition.eq_of_halt hnatives hstep
      exact ⟨0, m, rfl⟩
    | next m₁ s₁ =>
      rw [hstep] at hrun
      obtain ⟨j, m', hj⟩ := ih hrun
      exact ⟨j + 1, m', by rw [MiniLua.run, hstep]; exact hj⟩

theorem State.Kept.of_halted (hnatives : ∀ b ∈ natives, ∃ c : Builtin, b = c.native) (hkept : s.Kept)
    {k : Nat} {m : Mode} {result : Except RuntimeError (List Value)}
    (hrun : MiniLua.run natives k m s = .halted result t) : t.Kept := by
  obtain ⟨j, m', hj⟩ := running_of_halted hnatives hrun
  exact hkept.run hnatives hj

/-- Compiling a program and making its main function bind nothing. -/
theorem State.Kept.closureOf {s : State} {heap : Heap} (hkept : s.Kept) (hadds : s.heap.Adds heap)
    (main : Nat) :
    ∃ t, Loading.closureOf main { s with heap } = .ok (.closure s.heap.closures.size) t ∧ t.Kept ∧
      heap.Extends t.heap ∧ t.heap.closures[s.heap.closures.size]? = some ⟨main, s.globals, #[]⟩ ∧
      ∀ f, some f ∈ t.frames? → f.closure ≠ s.heap.closures.size := by
  have hsize : heap.closures.size = s.heap.closures.size := by rw [hadds.closures]
  refine ⟨{ s with heap := (heap.allocClosure ⟨main, s.globals, #[]⟩).2 }, ?_, ⟨?_, ?_⟩, ⟨id, id⟩, ?_, ?_⟩
  · rw [Loading.closureOf, modifyGet_apply, Heap.allocClosure, hsize]
  · rintro cell (hframe | ⟨link, hlink, hcell⟩)
    · exact (hkept.cells cell (.inl hframe)).trans_eq (by rw [← hadds.cells]; rfl)
    · rw [Heap.links_allocClosure, Array.mem_push, Heap.links, hadds.closures] at hlink
      obtain hlink | rfl := hlink
      · exact (hkept.cells cell (.inr ⟨link, hlink, hcell⟩)).trans_eq (by rw [← hadds.cells]; rfl)
      · simp at hcell
  · intro f hf
    rw [Heap.allocClosure, Array.size_push, hsize]
    exact (hkept.closures f hf).trans (Nat.lt_succ_self _)
  · rw [Heap.allocClosure, ← hsize, Array.getElem?_push_size]
  · exact fun f hf ↦ (hkept.closures f hf).ne

end

end MiniLua
