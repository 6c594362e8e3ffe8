import MiniLua.Proofs.Instances.Heeds
import MiniLua.Proofs.Instances.Still

/-!
An instruction keeps accounts true. Of a function whose text is known it does what the text says, and the
account learns which cells it bound, or of which text the closure is that it made. Of any other function the
slots get new cells only, and what a function it makes captures, it has itself.
-/

namespace MiniLua

open Effects Machine

/-- The function `f` has gone on as `g`, and activations below it are the same. New cells in its slots
were not there, and new closures hold what it had. -/
structure Heap.Shifts (h : Heap) (f : Frame) (rest : List Activation) (t : State) (g : Frame) : Prop where
  calls : t.activations = .guest g :: rest
  closure : g.closure = f.closure
  code : h.Conserves t.heap
  size : h.cells.size ≤ t.heap.cells.size
  cells : ∀ cell, some cell ∈ g.cells →
    some cell ∈ f.cells ∨ h.cells.size ≤ cell ∧ cell < t.heap.cells.size
  links : ∀ (c : Nat) (link : Nat × Array Nat), t.heap.links[c]? = some link → h.links[c]? = some link ∨
    ∀ cell ∈ link.2, some cell ∈ f.cells ∨ ∃ own, h.links[f.closure]? = some own ∧ cell ∈ own.2

section

variable {s t : State} {f g : Frame} {rest : List Activation}

theorem State.Still.shifts (h : s.Still t) (hs : s.activations = .guest g :: rest)
    (hclosure : g.closure = f.closure) (hcells : g.cells = f.cells) : s.heap.Shifts f rest t g where
  calls := h.calls.trans hs
  closure := hclosure
  code := h.code
  size := h.cells.ge
  cells cell hcell := .inl (hcells ▸ hcell)
  links c link hlink := by
    refine (h.bare c link hlink).imp_right fun hbare cell hcell ↦ ?_
    rw [hbare] at hcell
    simp at hcell

theorem jumped_of_guest (hs : s.activations = .guest g :: rest) (x : Nat) :
    jumped s x = { s with activations := .guest { g with ip := x } :: rest } := by
  rw [jumped, hs]

theorem State.Still.shifts_jumped (h : s.Still t) (hs : s.activations = .guest g :: rest)
    (hclosure : g.closure = f.closure) (hcells : g.cells = f.cells) (x : Nat) :
    s.heap.Shifts f rest (jumped t x) { g with ip := x } := by
  rw [jumped_of_guest (h.calls.trans hs) x]
  exact { h.shifts hs hclosure hcells with calls := rfl }

theorem Heap.SameLinks.allocCell (h : Heap) (v : Value) : h.SameLinks (h.allocCell v).2 := ⟨rfl, rfl⟩

theorem Heap.size_allocCell (h : Heap) (v : Value) :
    (h.allocCell v).2.cells.size = h.cells.size + 1 := Array.size_push v

/-- What is captured the function has. -/
theorem has_of_captures {c : Closure} (hc : s.heap.closures[f.closure]? = some c) {d : Capture} {cell : Nat}
    (hd : Frame.Captures f c.upvalues cell d) :
    some cell ∈ f.cells ∨ ∃ own, s.heap.links[f.closure]? = some own ∧ cell ∈ own.2 := by
  cases d with
  | cell n => exact .inl (Array.mem_of_getElem? hd)
  | upvalue n => exact .inr ⟨_, Heap.link_of_closure hc, Array.mem_of_getElem? hd⟩

variable {constants : Array Value} {i : Instruction}

theorem shifts_newCell (hs : s.activations = .guest g :: rest) (hclosure : g.closure = f.closure)
    (hcells : g.cells = f.cells) :
    ∃ g', s.heap.Shifts f rest (final (perform f constants i .newCell s)) g' := by
  obtain ⟨t, ht, ⟨e, he⟩ | ⟨v, ⟨e, he⟩ | ⟨-, hbinds⟩⟩⟩ := perform_newCell_cases f constants i s
  · rw [he]
    exact ⟨g, ht.shifts hs hclosure hcells⟩
  · rw [he]
    have hsize : s.heap.cells.size ≤ (t.heap.allocCell v).2.cells.size := by
      rw [Heap.size_allocCell, ht.cells]
      exact Nat.le_succ _
    have hcode := ht.code.trans (Heap.SameLinks.allocCell t.heap v).conserves
    exact ⟨g, { ht.shifts hs hclosure hcells with
      code := hcode, size := hsize, cells := fun cell hcell ↦ .inl (hcells ▸ hcell) }⟩
  · rw [hbinds g rest hs]
    have hsize : (t.heap.allocCell v).2.cells.size = s.heap.cells.size + 1 := by
      rw [Heap.size_allocCell, ht.cells]
    have hcode := ht.code.trans (Heap.SameLinks.allocCell t.heap v).conserves
    refine ⟨_, { ht.shifts hs hclosure hcells with
      calls := rfl, closure := hclosure, code := hcode, size := ?_, cells := fun cell hcell ↦ ?_ }⟩
    · exact (Nat.le_succ _).trans_eq hsize.symm
    · obtain hold | hnew := Array.mem_or_eq_of_mem_setIfInBounds hcell
      · exact .inl (hcells ▸ hold)
      · cases hnew
        exact .inr ⟨Nat.le_refl _, (Nat.lt_succ_self _).trans_eq hsize.symm⟩

theorem shifts_closure (hs : s.activations = .guest g :: rest) (hclosure : g.closure = f.closure)
    (hcells : g.cells = f.cells) :
    s.heap.Shifts f rest (final (perform f constants i .closure s)) g := by
  have hstill : s.Still s := Std.Refl.refl s
  obtain ⟨e, he⟩ | ⟨c, p, k, q, cells, hc, -, -, -, hall, stack, hmakes⟩ :=
    perform_closure_cases f constants i s
  · rw [he]
    exact hstill.shifts hs hclosure hcells
  · rw [hmakes]
    refine { hstill.shifts hs hclosure hcells with code := .allocClosure _ _, links := fun n link hlink ↦ ?_ }
    rw [Heap.links_allocClosure, Array.getElem?_push] at hlink
    split at hlink
    · cases hlink
      refine .inr fun cell hcell ↦ ?_
      obtain ⟨d, -, hd⟩ := exists_of_forall₂ hall (List.mem_toArray.mp hcell)
      exact has_of_captures hc hd
    · exact .inl hlink

theorem shifts_perform {op : Opcode} (hs : s.activations = .guest g :: rest)
    (hclosure : g.closure = f.closure) (hcells : g.cells = f.cells) :
    ∃ g', s.heap.Shifts f rest (final (perform f constants i op s)) g' := by
  by_cases hnew : op = .newCell
  · subst hnew
    exact shifts_newCell hs hclosure hcells
  by_cases hmake : op = .closure
  · subst hmake
    exact ⟨g, shifts_closure hs hclosure hcells⟩
  cases hjumps : op.jumps with
  | false =>
    have hstill := (still_perform f constants i hnew hmake hjumps).keeps s
    exact ⟨g, hstill.shifts hs hclosure hcells⟩
  | true =>
    obtain ⟨t, ht, hgoes | ⟨-, hstays⟩⟩ := perform_of_jumps f constants i hjumps s
    · rw [hgoes]
      exact ⟨_, ht.shifts_jumped hs hclosure hcells i.x⟩
    · rw [hstays]
      exact ⟨g, ht.shifts hs hclosure hcells⟩

theorem shifts_instruction (hs : s.activations = .guest f :: rest) :
    ∃ g, s.heap.Shifts f rest (final (instruction s)) g := by
  have hstays : s.heap.Shifts f rest s f := (Std.Refl.refl s : s.Still s).shifts hs rfl rfl
  rw [instruction_apply, hs]
  dsimp only
  cases s.proto? f.closure with
  | none => exact ⟨f, hstays⟩
  | some p =>
    dsimp only
    cases p.code[f.ip]? with
    | none => exact ⟨f, hstays⟩
    | some i =>
      rw [advance_of_guest hs]
      dsimp only
      cases i.opcode? with
      | none => exact ⟨_, { hstays with calls := rfl, closure := rfl }⟩
      | some op => exact shifts_perform (s := { s with activations := _ }) rfl rfl rfl

end

/-- An account after another: cells that were bound since then are new. -/
structure Account.Grows (A : Account) (h : Heap) (B : Account) (k : Heap) : Prop where
  size : h.cells.size ≤ k.cells.size
  bound : ∃ new, B.bound = new ++ A.bound ∧ ∀ cell ∈ new, h.cells.size ≤ cell

/-- What an instruction of the innermost function comes to. The account is true of that function, too, if
it goes on. -/
inductive Account.Outcome (A : Account) (code : Heap) (s : State) (rest : List Activation) :
    EStateM.Result RuntimeError State Demand → Prop
  | goes {t : State} {g : Frame} {life : Option Life} {lives : List (Option Life)}
      (innermost : t.activations = .guest g :: rest) (told : (A.execute s t).lives = life :: lives)
      (grows : A.Grows s.heap (A.execute s t) t.heap)
      (ledger : Ledger code (A.execute s t).routines (A.execute s t).bound t.heap (life :: lives)
        (some g :: rest.map Activation.frame?)) :
      Outcome A code s rest (.ok .nothing t)
  | invokes {t : State} {g : Frame} {life : Option Life} {lives : List (Option Life)} {argCount : Nat}
      {expected : Option Nat} (innermost : t.activations = .guest g :: rest)
      (told : A.lives = life :: lives) (idle : ∀ u, A.execute s u = A)
      (size : s.heap.cells.size ≤ t.heap.cells.size)
      (ledger : Ledger code A.routines A.bound t.heap (life :: lives)
        (some g :: rest.map Activation.frame?)) :
      Outcome A code s rest (.ok (.call argCount expected) t)
  | returns {t : State} {g : Frame} {life : Option Life} {lives : List (Option Life)} {vs : List Value}
      (innermost : t.activations = .guest g :: rest) (told : A.lives = life :: lives)
      (idle : ∀ u, A.execute s u = A) (size : s.heap.cells.size ≤ t.heap.cells.size)
      (ledger : Ledger code A.routines A.bound t.heap lives (rest.map Activation.frame?)) :
      Outcome A code s rest (.ok (.ret vs) t)
  | fails {t : State} {g : Frame} {life : Option Life} {lives : List (Option Life)} {e : RuntimeError}
      (innermost : t.activations = .guest g :: rest) (told : (A.execute s t).lives = life :: lives)
      (grows : A.Grows s.heap (A.execute s t) t.heap)
      (ledger : Ledger code (A.execute s t).routines (A.execute s t).bound t.heap lives
        (rest.map Activation.frame?)) :
      Outcome A code s rest (.error e t)

namespace Account

variable {A : Account} {L : Life} {lives : List (Option Life)} {s t : State} {f : Frame}
  {rest : List Activation} {scope : Scope} {v : Variable}

theorem Grows.of_eq {h k : Heap} (hsize : h.cells.size ≤ k.cells.size) : A.Grows h A k :=
  ⟨hsize, [], rfl, fun _ hcell ↦ nomatch hcell⟩

theorem Grows.of_bound {B : Account} {h k : Heap} (hsize : h.cells.size ≤ k.cells.size)
    (hbound : B.bound = A.bound) : A.Grows h B k := ⟨hsize, [], hbound, fun _ hcell ↦ nomatch hcell⟩

theorem execute_none (hA : A.lives = none :: lives) : A.execute s t = A := by
  rw [execute, hA]

variable (hA : A.lives = some L :: lives) (hs : s.activations = .guest f :: rest)

include hA hs

theorem execute_bind (hnext : L.next? s f = some ⟨scope, .bind v⟩) :
    A.execute s t = if s.heap.cells.size < t.heap.cells.size then
      { A with
        lives := some (L.bind v s.heap.cells.size) :: lives
        bound := s.heap.cells.size :: A.bound } else A := by
  rw [execute, hA, hs]
  simp only [hnext]

theorem execute_make {params : List String} {variadic : Bool} {body : Block} {pos : Position}
    (hnext : L.next? s f = some ⟨scope, .make (.mk params variadic body pos)⟩) :
    A.execute s t = if s.heap.closures.size < t.heap.closures.size then
      { A with
        routines := Function.update A.routines s.heap.closures.size
          (some ⟨params, variadic, body, L.bindings scope⟩) } else A := by
  rw [execute, hA, hs]
  simp only [hnext]

theorem execute_idle (hnext : ∀ o, L.next? s f = some o →
      ∃ name, o.mention = .read name ∨ o.mention = .write name) : A.execute s t = A := by
  rw [execute, hA, hs]
  dsimp only
  cases ho : L.next? s f with
  | none => rfl
  | some o =>
    obtain ⟨scope, m⟩ := o
    obtain ⟨name, rfl | rfl⟩ := hnext _ ho <;> rfl

end Account

section

variable {A : Account} {code : Heap} {L : Life} {lives : List (Option Life)} {s t : State} {f g : Frame}
  {rest : List Activation}

/-- A function whose text is not known changes nothing for those of known texts. -/
theorem Ledger.shifts
    (hl : Ledger code A.routines A.bound s.heap (none :: lives) (some f :: rest.map Activation.frame?))
    (hg : s.heap.Shifts f rest t g) :
    Ledger code A.routines A.bound t.heap (none :: lives) (some g :: rest.map Activation.frame?) := by
  obtain ⟨hhead, -⟩ := List.forall₂_cons.mp hl.each
  cases hhead with
  | stranger unknown there apart =>
    have hown {cell : Nat} (hcell : some cell ∈ f.cells) : cell < s.heap.cells.size :=
      hl.held cell (.inl ⟨f, List.mem_cons_self, hcell⟩)
    refine (hl.tail.later hg.code hg.size fun c link hlink ↦ ?_).cons (.stranger ?_ ?_ ?_) ?_
    · refine (hg.links c link hlink).imp_right fun hcells cell hcell ↦ ?_
      obtain hframe | ⟨own, hclosure, hcell⟩ := hcells cell hcell
      · exact ⟨(hown hframe).trans_le hg.size, fun hbound ↦ apart cell hbound hframe⟩
      · have hheld := hl.held cell (.inr ⟨own, Array.mem_of_getElem? hclosure, hcell⟩)
        exact ⟨hheld.trans_le hg.size, fun hbound ↦ hl.apart unknown hclosure cell hbound hcell⟩
    · exact hg.closure ▸ unknown
    · exact hg.closure ▸ hg.code.lt_closures there
    · intro cell hbound hcell
      obtain hold | ⟨hnew, -⟩ := hg.cells cell hcell
      · exact apart cell hbound hold
      · exact Nat.not_lt_of_le hnew (hl.below cell hbound)
    · rintro _ ⟨⟩ cell hcell
      obtain hold | ⟨-, hnew⟩ := hg.cells cell hcell
      · exact (hown hold).trans_le hg.size
      · exact hnew

theorem Ledger.outcome_stranger
    (hl : Ledger code A.routines A.bound s.heap (none :: lives) (some f :: rest.map Activation.frame?))
    (hs : s.activations = .guest f :: rest) (hA : A.lives = none :: lives) :
    A.Outcome code s rest (instruction s) := by
  obtain ⟨g, hg⟩ := shifts_instruction hs
  have hledger := hl.shifts hg
  have hsize := hg.size
  have hcalls := hg.calls
  have hidle (u : State) : A.execute s u = A := Account.execute_none hA
  generalize instruction s = r at hledger hsize hcalls
  cases r with
  | error e t =>
    refine .fails hcalls (by rw [hidle, hA]) ?_ ?_
    · rw [hidle]
      exact .of_eq hsize
    · rw [hidle]
      exact hledger.tail
  | ok d t =>
    cases d with
    | nothing =>
      refine .goes hcalls (by rw [hidle, hA]) ?_ ?_
      · rw [hidle]
        exact .of_eq hsize
      · rw [hidle]
        exact hledger
    | call argCount expected => exact .invokes hcalls hA hidle hsize hledger
    | ret vs => exact .returns hcalls hA hidle hsize hledger.tail

theorem returns_ret (frame : Frame) (constants : Array Value) (i : Instruction) :
    Returns (fun d ↦ ∃ vs, d = .ret vs) (perform frame constants i .ret) := by
  unfold perform
  exact .bind fun _ ↦ .bind fun vs ↦ .pure ⟨vs, rfl⟩

theorem Account.Outcome.of_final {r : EStateM.Result RuntimeError State Demand} {life : Option Life}
    (hnothing : ∀ d t, r = .ok d t → d = .nothing)
    (innermost : (final r).activations = .guest g :: rest)
    (told : (A.execute s (final r)).lives = life :: lives)
    (grows : A.Grows s.heap (A.execute s (final r)) (final r).heap)
    (ledger : Ledger code (A.execute s (final r)).routines (A.execute s (final r)).bound (final r).heap
      (life :: lives) (some g :: rest.map Activation.frame?)) : A.Outcome code s rest r := by
  cases r with
  | error e t => exact .fails innermost told grows ledger.tail
  | ok d t =>
    obtain rfl := hnothing d t rfl
    exact .goes innermost told grows ledger

namespace Ledger

variable {U : Home} {link : Nat × Array Nat} {K : Known}
  (hl : Ledger code A.routines A.bound s.heap (some L :: lives) (some f :: rest.map Activation.frame?))
  (text : A.routines f.closure = some L.routine) (fits : L.Fits code s.heap f U link K)

include hl text fits

/-- The function goes on elsewhere. -/
theorem moves {pc : Nat} (hminds : ∀ k, U.Minds L.occurrences k pc K) :
    Ledger code A.routines A.bound s.heap (some L :: lives)
      (some { f with ip := pc } :: rest.map Activation.frame?) := by
  refine hl.tail.cons (.known text (fits.goes hminds)) ?_
  rintro _ ⟨⟩ cell hcell
  exact hl.held cell (.inl ⟨f, List.mem_cons_self, hcell⟩)

variable (hs : s.activations = .guest f :: rest) (hA : A.lives = some L :: lives)
  {constants : Array Value} {i : Instruction} {op : Opcode} {scope : Scope}

include hs hA

/-- A variable is bound to a new cell. -/
theorem outcome_newCell {v : Variable} (hnext : L.next? s f = some ⟨scope, .bind v⟩)
    (hminds : ∀ k, U.Minds L.occurrences k (f.ip + 1) (K.bind v i.x)) :
    A.Outcome code s rest (perform f constants i .newCell
      { s with activations := .guest { f with ip := f.ip + 1 } :: rest }) := by
  obtain ⟨t, ht, hcases⟩ := perform_newCell_cases f constants i
    { s with activations := .guest { f with ip := f.ip + 1 } :: rest }
  have hexecute (u : State) := Account.execute_bind (t := u) hA hs hnext
  have htail : Ledger code A.routines A.bound t.heap lives (rest.map Activation.frame?) :=
    hl.tail.bare ht.code ht.cells.ge ht.bare
  have hcells : t.heap.cells.size = s.heap.cells.size := ht.cells
  obtain ⟨e, he⟩ | ⟨w, hcases⟩ := hcases
  · have hsame : A.execute s t = A := by rw [hexecute, if_neg (by omega)]
    rw [he]
    refine .fails ht.calls (by rw [hsame, hA]) ?_ ?_
    · rw [hsame]
      exact .of_eq hcells.ge
    · rw [hsame]
      exact htail
  have hgrown : (t.heap.allocCell w).2.cells.size = s.heap.cells.size + 1 := by
    rw [Heap.size_allocCell, hcells]
  have hbinds (calls : List Activation) :
      A.execute s { t with heap := (t.heap.allocCell w).2, activations := calls } = { A with
        lives := some (L.bind v s.heap.cells.size) :: lives
        bound := s.heap.cells.size :: A.bound } := by
    rw [hexecute, if_pos (by dsimp only; omega)]
  have hgrows (calls : List Activation) : A.Grows s.heap
      (A.execute s { t with heap := (t.heap.allocCell w).2, activations := calls })
      (t.heap.allocCell w).2 := by
    refine ⟨by omega, [s.heap.cells.size], by rw [hbinds]; rfl, fun cell hcell ↦ ?_⟩
    rw [List.mem_singleton.mp hcell]
  have hbound : Ledger code A.routines (s.heap.cells.size :: A.bound) (t.heap.allocCell w).2 lives
      (rest.map Activation.frame?) := by
    have hnew : ∀ cell ∈ [s.heap.cells.size],
        t.heap.cells.size ≤ cell ∧ cell < (t.heap.allocCell w).2.cells.size := by
      intro cell hcell
      rw [List.mem_singleton.mp hcell]
      omega
    exact htail.binds (.allocCell t.heap w) (by omega) (List.nodup_singleton _) hnew
  obtain ⟨e, he⟩ | ⟨hx, hok⟩ := hcases
  · rw [he]
    exact .fails ht.calls (by rw [hbinds]) (hgrows _) (by rw [hbinds]; exact hbound)
  · rw [hok _ rest rfl]
    refine .goes rfl (by rw [hbinds]) (hgrows _) ?_
    rw [hbinds]
    have hfits := (fits.later (ht.code.trans (Heap.SameLinks.allocCell t.heap w).conserves)).binds hx
      hminds s.heap.cells.size
    refine hbound.cons (.known text hfits) ?_
    rintro _ ⟨⟩ cell hcell
    obtain hold | hnew := Array.mem_or_eq_of_mem_setIfInBounds hcell
    · have hheld := hl.held cell (.inl ⟨f, List.mem_cons_self, hold⟩)
      omega
    · cases hnew
      exact (Nat.lt_succ_self _).trans_eq hgrown.symm

/-- A function is made from its text, where variables in scope have their cells. -/
theorem outcome_closure {params : List String} {variadic : Bool} {body : Block} {pos : Position}
    (hnext : L.next? s f = some ⟨scope, .make (.mk params variadic body pos)⟩)
    {locals : List Local} {pc : Nat} (hbody : (FunctionBody.mk params variadic body pos).At U locals f.ip pc)
    (hscope : scope.Held K locals) (hi : U.proto.code[f.ip]? = some i)
    (hminds : ∀ k, U.Minds L.occurrences k (f.ip + 1) K) :
    A.Outcome code s rest (perform f constants i .closure
      { s with activations := .guest { f with ip := f.ip + 1 } :: rest }) := by
  have hmoved := hl.moves text fits hminds
  have hexecute (u : State) := Account.execute_make (t := u) hA hs hnext
  obtain ⟨e, he⟩ | ⟨c, p, k, q, cells, hc, hp, hk, hq, hcaptured, stack, hmakes⟩ :=
    perform_closure_cases f constants i { s with activations := .guest { f with ip := f.ip + 1 } :: rest }
  · have hsame : A.execute s { s with activations := .guest { f with ip := f.ip + 1 } :: rest } = A := by
      rw [hexecute, if_neg (Nat.lt_irrefl _)]
    rw [he]
    refine .fails rfl (by rw [hsame, hA]) ?_ ?_
    · rw [hsame]
      exact .of_eq (Nat.le_refl _)
    · rw [hsame]
      exact hl.tail
  · obtain ⟨link', hlink', howns⟩ := hl.made text
    obtain rfl : link' = link := Option.some.inj (hlink'.symm.trans fits.closure)
    obtain rfl : link' = (c.proto, c.upvalues) :=
      Option.some.inj (hlink'.symm.trans (Heap.link_of_closure hc))
    obtain rfl : p = U.proto := Option.some.inj (hp.symm.trans (hl.protos fits.proto))
    obtain ⟨q', hq', hcode⟩ : ∃ q', s.heap.protos[k]? = some q' ∧ code.protos[k]? = some q' := by
      obtain ⟨k', q', hk', hq', -⟩ := Home.nested_of_at hbody hi (fits.short.proto fits.proto)
      obtain rfl : k' = k := Option.some.inj (hk'.symm.trans hk)
      rw [fits.heap] at hq'
      exact ⟨q', hl.protos hq', hq'⟩
    obtain rfl : q' = q := Option.some.inj (hq'.symm.trans hq)
    have howns' := fits.owns howns.around hscope hbody hi hk hcode hcaptured
    have hlearned := hmoved.learns (c := ⟨k, c.env, cells.toArray⟩) howns' fun cell hcell ↦ by
      obtain ⟨d, -, hd⟩ := exists_of_forall₂ hcaptured (List.mem_toArray.mp hcell)
      obtain hframe | ⟨own, hown, hmem⟩ := has_of_captures hc hd
      · exact hl.held cell (.inl ⟨f, List.mem_cons_self, hframe⟩)
      · exact hl.held cell (.inr ⟨own, Array.mem_of_getElem? hown, hmem⟩)
    have hbegan : A.execute s (final (perform f constants i .closure
        { s with activations := .guest { f with ip := f.ip + 1 } :: rest })) = { A with
          routines := Function.update A.routines s.heap.closures.size
            (some ⟨params, variadic, body, L.bindings scope⟩) } := by
      rw [hexecute, hmakes, if_pos (by simp [Heap.allocClosure])]
    refine .of_final (returns_perform f constants i (by decide) (by decide) _) (by rw [hmakes])
      (by rw [hbegan, hA]) ?_ ?_
    · rw [hbegan, hmakes]
      exact .of_bound (Nat.le_refl _) rfl
    · rw [hbegan, hmakes]
      exact hlearned

omit hs in
/-- Other instructions leave variables where they are. -/
theorem outcome_other (hnew : op ≠ .newCell) (hmake : op ≠ .closure) (hidle : ∀ u, A.execute s u = A)
    (hfalls : op ≠ .jump → op ≠ .ret → ∀ k, U.Minds L.occurrences k (f.ip + 1) K)
    (hjumps : op.jumps → ∀ k, U.Minds L.occurrences k i.x K) :
    A.Outcome code s rest (perform f constants i op
      { s with activations := .guest { f with ip := f.ip + 1 } :: rest }) := by
  have hlast {t : State} (hsize : t.heap.cells.size = s.heap.cells.size) :
      A.Grows s.heap (A.execute s t) t.heap := by
    rw [hidle]
    exact .of_eq hsize.ge
  by_cases hcall : op = .call
  · subst hcall
    rw [perform_call_apply]
    exact .invokes rfl hA hidle (Nat.le_refl _) (hl.moves text fits (hfalls (by decide) (by decide)))
  by_cases hret : op = .ret
  · subst hret
    have hstill := (still_perform f constants i hnew hmake rfl).keeps
      { s with activations := .guest { f with ip := f.ip + 1 } :: rest }
    have htail := hl.tail.bare hstill.code hstill.cells.ge hstill.bare
    have hreturns := returns_ret f constants i
      { s with activations := .guest { f with ip := f.ip + 1 } :: rest }
    generalize perform f constants i .ret _ = r at hstill htail hreturns
    cases r with
    | error e t => exact .fails hstill.calls (by rw [hidle, hA]) (hlast hstill.cells) (by rwa [hidle])
    | ok d t =>
      obtain ⟨vs, rfl⟩ := hreturns d t rfl
      exact .returns hstill.calls hA hidle hstill.cells.ge htail
  have hnothing := returns_perform f constants i hcall hret
    { s with activations := .guest { f with ip := f.ip + 1 } :: rest }
  cases hop : op.jumps with
  | false =>
    have hstill := (still_perform f constants i hnew hmake hop).keeps
      { s with activations := .guest { f with ip := f.ip + 1 } :: rest }
    have hmoved := hl.moves text fits (hfalls (fun hjump ↦ by rw [hjump] at hop; cases hop) hret)
    refine .of_final hnothing hstill.calls (by rw [hidle, hA]) (hlast hstill.cells) ?_
    rw [hidle]
    exact hmoved.bare hstill.code hstill.cells.ge hstill.bare
  | true =>
    obtain ⟨t, hstill, hgoes | ⟨hnojump, hstays⟩⟩ := perform_of_jumps f constants i hop
      { s with activations := .guest { f with ip := f.ip + 1 } :: rest }
    · have hmoved := hl.moves text fits (hjumps hop)
      rw [jumped_of_guest hstill.calls] at hgoes
      refine .of_final hnothing (by rw [hgoes]) (by rw [hidle, hA]) (by rw [hgoes]; exact hlast hstill.cells) ?_
      rw [hidle, hgoes]
      exact hmoved.bare hstill.code hstill.cells.ge hstill.bare
    · have hmoved := hl.moves text fits (hfalls hnojump hret)
      refine .of_final hnothing (by rw [hstays]; exact hstill.calls) (by rw [hidle, hA])
        (by rw [hstays]; exact hlast hstill.cells) ?_
      rw [hidle, hstays]
      exact hmoved.bare hstill.code hstill.cells.ge hstill.bare

omit hl text fits hs hA in
/-- An instruction keeps the account true. -/
theorem outcome
    (hl : Ledger code A.routines A.bound s.heap A.lives (some f :: rest.map Activation.frame?))
    (hs : s.activations = .guest f :: rest) : A.Outcome code s rest (instruction s) := by
  obtain ⟨life, lives, hhead, -, hlives⟩ := List.forall₂_cons_right_iff.mp hl.each
  rw [hlives] at hl
  cases hhead with
  | stranger => exact hl.outcome_stranger hs hlives
  | @known L _ U link K text fits =>
    obtain ⟨i, op, hi, hop, htouches, -, hfalls, hjumps⟩ := Home.next_of_minds fits.minds
    obtain ⟨hproto, hnext⟩ := fits.next? hl.protos
    rw [← hnext] at htouches hfalls
    rw [instruction_of_guest hs hproto hi hop, advance_of_guest hs]
    cases htouch : op.touches with
    | false =>
      have hnone : L.next? s f = none := by
        rw [hnext, Prototype.occurrence?, hi, Option.bind_some, Instruction.touches, hop,
          Option.any_some, htouch]
        rfl
      rw [hnone] at hfalls
      refine hl.outcome_other text fits hlives ?_ ?_ (fun u ↦ ?_) hfalls hjumps
      · rintro rfl
        cases htouch
      · rintro rfl
        cases htouch
      · refine Account.execute_idle hlives hs fun o ho ↦ ?_
        rw [hnone] at ho
        cases ho
    | true =>
      obtain ⟨⟨scope, m⟩, ho, hmeans⟩ := htouches htouch
      rw [ho] at hfalls
      obtain ⟨rfl, v, rfl⟩ | ⟨rfl, ⟨params, variadic, body, pos⟩, rfl⟩ | ⟨hnew, hmake, name, hm⟩ :=
        hmeans.cases
      · exact hl.outcome_newCell text fits hs hlives ho (hfalls (by decide) (by decide))
      · obtain ⟨-, locals, hbody, hscope⟩ := hmeans
        exact hl.outcome_closure text fits hs hlives ho hbody hscope hi (hfalls (by decide) (by decide))
      · have hsame : K.after i.x (some ⟨scope, m⟩) = K := by
          obtain rfl | rfl := hm <;> rfl
        rw [hsame] at hfalls
        refine hl.outcome_other text fits hlives hnew hmake (fun u ↦ ?_) hfalls hjumps
        refine Account.execute_idle hlives hs fun o ho' ↦ ?_
        cases ho.symm.trans ho'
        exact ⟨name, hm⟩

end Ledger

end

end MiniLua
