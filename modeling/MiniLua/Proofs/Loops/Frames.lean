import MiniLua.Proofs.Instances.Alias
import MiniLua.Proofs.Loops.Spans
import MiniLua.Proofs.Syntax.Spelled

/-!
What a step makes of the frames, and what holds of an account and of the frames along a whole run: which
cells variables of which names have, and that functions whose text is known have room for their slots.
-/

namespace MiniLua

open Effects Machine

/-- The function `f` goes on as `g`. Its slots keep their cells, but for one that the instruction gives a
new cell. -/
def Frame.Goes (s : State) (f g : Frame) : Prop :=
  g.closure = f.closure ∧ (g.cells = f.cells ∨ ∃ p x, s.proto? f.closure = some p ∧
    p.Has f.ip .newCell x ∧ g.cells = f.cells.setIfInBounds x (some s.heap.cells.size))

/-- From these frames activations end, if any, or one begins. -/
inductive State.Turned (h : Heap) (calls : List (Option Frame)) (u : State) : Prop
  | ends (code : h.Conserves u.heap) (suffix : u.frames? <:+ calls)
  | serves (code : h.Conserves u.heap) (begins : u.frames? = none :: calls)
  | enters {t : State} {p : Prototype} {closure floor : Nat} {expected : Option Nat}
      (code : h.Conserves t.heap) (size : h.cells.size ≤ t.heap.cells.size) (below : t.frames? = calls)
      (proto : t.proto? closure = some p) (eq : u = entered t p closure floor expected)

/-- What a step makes of the frames. -/
inductive State.Frames (m : Mode) (s u : State) : Prop
  | turns (turned : State.Turned s.heap s.frames? u)
  | goes {f g : Frame} {rest : List Activation} (mode : m = .execute)
      (running : s.activations = .guest f :: rest) (goes : f.Goes s g)
      (turned : State.Turned s.heap (some g :: rest.map Activation.frame?) u)

section

variable {s t u : State} {f g : Frame} {rest : List Activation} {m m' : Mode}
  {natives : Array Native}

theorem goes_perform (f : Frame) (constants : Array Value) (i : Instruction) (op : Opcode)
    (ht : t.activations = .guest g :: rest) :
    ∃ g', (final (perform f constants i op t)).activations = .guest g' :: rest ∧ g'.closure = g.closure ∧
      (g'.cells = g.cells ∨
        op = .newCell ∧ g'.cells = g.cells.setIfInBounds i.x (some t.heap.cells.size)) := by
  by_cases hnew : op = .newCell
  · subst hnew
    obtain ⟨w, hw, ⟨e, he⟩ | ⟨v, ⟨e, he⟩ | ⟨-, hbinds⟩⟩⟩ := perform_newCell_cases f constants i t
    · rw [he]
      exact ⟨g, hw.calls.trans ht, rfl, .inl rfl⟩
    · rw [he]
      exact ⟨g, hw.calls.trans ht, rfl, .inl rfl⟩
    · rw [hbinds g rest ht]
      exact ⟨_, rfl, rfl, .inr ⟨rfl, rfl⟩⟩
  by_cases hmake : op = .closure
  · subst hmake
    obtain ⟨e, he⟩ | ⟨c, p, k, q, cells, -, -, -, -, -, stack, hmakes⟩ :=
      perform_closure_cases f constants i t
    · rw [he]
      exact ⟨g, ht, rfl, .inl rfl⟩
    · rw [hmakes]
      exact ⟨g, ht, rfl, .inl rfl⟩
  cases hjumps : op.jumps with
  | false =>
    have hstill := (still_perform f constants i hnew hmake hjumps).keeps t
    exact ⟨g, hstill.calls.trans ht, rfl, .inl rfl⟩
  | true =>
    obtain ⟨w, hw, hgoes | ⟨-, hstays⟩⟩ := perform_of_jumps f constants i hjumps t
    · rw [hgoes, jumped_of_guest (hw.calls.trans ht)]
      exact ⟨_, rfl, rfl, .inl rfl⟩
    · rw [hstays]
      exact ⟨g, hw.calls.trans ht, rfl, .inl rfl⟩

theorem goes_instruction (hs : s.activations = .guest f :: rest) :
    ∃ g, (final (instruction s)).activations = .guest g :: rest ∧ f.Goes s g := by
  have hstays : f.Goes s f := ⟨rfl, .inl rfl⟩
  rw [instruction_apply, hs]
  dsimp only
  cases hp : s.proto? f.closure with
  | none => exact ⟨f, hs, hstays⟩
  | some p =>
    dsimp only
    cases hi : p.code[f.ip]? with
    | none => exact ⟨f, hs, hstays⟩
    | some i =>
      rw [advance_of_guest hs]
      dsimp only
      cases hop : i.opcode? with
      | none => exact ⟨_, rfl, rfl, .inl rfl⟩
      | some op =>
        obtain ⟨g, hg, hclosure, hcells⟩ := goes_perform f p.constants i op
          (t := { s with activations := .guest { f with ip := f.ip + 1 } :: rest }) rfl
        refine ⟨g, hg, hclosure, hcells.imp_right fun ⟨hnew, hset⟩ ↦ ?_⟩
        exact ⟨p, i.x, hp, ⟨i, hi, hop.trans (congrArg some hnew), rfl⟩, hset⟩

namespace State.Turned

variable {h k : Heap} {calls : List (Option Frame)}

theorem of_turns (hx : Transition.Turns h calls (.next m u)) : State.Turned h calls u := by
  cases hx with
  | ends ends =>
    cases ends with
    | intro spares suffix => exact .ends spares.code suffix
  | serves spares begins => exact .serves spares.code begins
  | enters spares below proto => exact .enters spares.code (by rw [spares.cells]) below proto rfl

theorem mono (hu : State.Turned k calls u) (hcode : h.Conserves k)
    (hsize : h.cells.size ≤ k.cells.size) : State.Turned h calls u := by
  cases hu with
  | ends code suffix => exact .ends (hcode.trans code) suffix
  | serves code begins => exact .serves (hcode.trans code) begins
  | enters code size below proto eq => exact .enters (hcode.trans code) (hsize.trans size) below proto eq

/-- The innermost function ends, and maybe others. -/
theorem of_ends {x : Option Frame} (hx : Transition.Ends k calls (.next m u)) (hcode : h.Conserves k) :
    State.Turned h (x :: calls) u := by
  cases hx with
  | intro spares suffix => exact .ends (hcode.trans spares.code) (suffix.trans (List.suffix_cons x calls))

theorem conserves (hu : State.Turned h calls u) : h.Conserves u.heap := by
  cases hu with
  | ends code | serves code => exact code
  | enters code _ _ _ eq =>
    subst eq
    exact ⟨code.protos, code.links⟩

end State.Turned

theorem frames_of_step (hnatives : ∀ b ∈ natives, ∃ c : Builtin, b = c.native)
    (hstep : step natives m s = .next m' u) : State.Frames m s u := by
  cases Transition.steps hnatives hstep with
  | turns idle turns => exact .turns (.of_turns turns)
  | @executes f g₀ rest mode running innermost follows =>
    obtain ⟨g, hg, hgoes⟩ := goes_instruction running
    obtain ⟨g', hshifts⟩ := shifts_instruction running
    have hcode := hshifts.code
    have hsize := hshifts.size
    refine .goes mode running hgoes ?_
    generalize instruction s = r at hg hcode hsize follows
    cases follows with
    | goes =>
      refine .ends hcode ?_
      rw [final_ok] at hg
      rw [State.frames?, hg]
      exact List.suffix_refl _
    | invokes turns =>
      rw [final_ok] at hg
      rw [State.frames?, hg] at turns
      exact (State.Turned.of_turns turns).mono hcode hsize
    | returns ends => exact .of_ends ends hcode
    | fails ends => exact .of_ends ends hcode

theorem State.Frames.conserves (hu : State.Frames m s u) : s.heap.Conserves u.heap := by
  cases hu with
  | turns turned => exact turned.conserves
  | goes _ _ _ turned => exact turned.conserves

/-- A frame that a step adds has new cells, and room for all slots of its function. -/
theorem State.Frames.entry (hu : State.Frames m s u) (hstep : u.activations = .guest f :: rest)
    (hmore : s.activations.length < u.activations.length) :
    (∀ cell, some cell ∈ f.cells → s.heap.cells.size ≤ cell ∧ cell < u.heap.cells.size) ∧
      ∀ p, u.proto? f.closure = some p → p.cellCount ≤ f.cells.size := by
  have hentry {calls : List (Option Frame)} (hcalls : calls.length = s.activations.length)
      (hx : State.Turned s.heap calls u) :
      (∀ cell, some cell ∈ f.cells → s.heap.cells.size ≤ cell ∧ cell < u.heap.cells.size) ∧
        ∀ p, u.proto? f.closure = some p → p.cellCount ≤ f.cells.size := by
    cases hx with
    | ends _ suffix =>
      have hlength := suffix.length_le
      rw [State.frames?, List.length_map] at hlength
      omega
    | serves _ begins =>
      rw [State.frames?, hstep] at begins
      cases begins
    | @enters t p closure floor expected code size below proto eq =>
      subst eq
      obtain ⟨hf, -⟩ := List.cons.inj hstep
      obtain rfl := Activation.guest.inj hf
      refine ⟨fun cell hcell ↦ ?_, fun q hq ↦ ?_⟩
      · obtain ⟨hlow, hhigh⟩ := mem_entry hcell
        rw [Ledger.size_entered]
        exact ⟨size.trans hlow, hhigh⟩
      · obtain rfl : p = q := Option.some.inj (proto.symm.trans hq)
        simp [entryFrame]
        omega
  cases hu with
  | turns turned => exact hentry (List.length_map _) turned
  | goes _ running _ turned => exact hentry (by simp [running]) turned

end

/-- The text can be spelled, and names around it have cells of which `T` holds. -/
structure Routine.Tagged (T : String → Nat → Prop) (r : Routine) : Prop where
  spelled : ∀ o ∈ occurrences r.params r.body, o.mention.Spelled
  around : ∀ b ∈ r.around, T b.1 b.2

/-- So is the text of a function that runs, and its variables have such cells. -/
structure Life.Tagged (T : String → Nat → Prop) (L : Life) : Prop where
  routine : L.routine.Tagged T
  cells : ∀ v cell, L.cells v = some cell → T v.name cell

/-- All texts can be spelled, and variables have cells of which `T` holds. -/
structure Account.Tagged (T : String → Nat → Prop) (A : Account) : Prop where
  routines {c : Nat} {r : Routine} : A.routines c = some r → r.Tagged T
  lives {L : Life} : some L ∈ A.lives → L.Tagged T

section

variable {T T' : String → Nat → Prop} {L : Life} {A : Account} {s u : State} {f : Frame} {v : Variable}
  {cell : Nat}

theorem Account.Tagged.mono (h : A.Tagged T) (hT : ∀ name cell, T name cell → T' name cell) :
    A.Tagged T' := by
  have hroutine {r : Routine} (hr : r.Tagged T) : r.Tagged T' :=
    ⟨hr.spelled, fun b hb ↦ hT b.1 b.2 (hr.around b hb)⟩
  refine ⟨fun hr ↦ hroutine (h.routines hr), fun hL ↦ ?_⟩
  have hlife := h.lives hL
  exact ⟨hroutine hlife.routine, fun v cell hcell ↦ hT v.name cell (hlife.cells v cell hcell)⟩

theorem Life.mem_of_next? {o : Occurrence} (h : L.next? s f = some o) : o ∈ L.occurrences := by
  obtain ⟨p, -, ho⟩ := Option.bind_eq_some_iff.mp h
  obtain ⟨i, -, hi⟩ := Option.bind_eq_some_iff.mp ho
  split at hi
  · exact List.mem_of_getElem? hi
  · cases hi

namespace Life.Tagged

variable (h : L.Tagged T)

include h

theorem bind (hv : T v.name cell) : (L.bind v cell).Tagged T := by
  refine ⟨h.routine, fun w other hw ↦ ?_⟩
  have hw : Function.update L.cells v (some cell) w = some other := hw
  by_cases hsame : w = v
  · subst hsame
    rw [Function.update_self] at hw
    exact Option.some.inj hw ▸ hv
  · rw [Function.update_of_ne hsame] at hw
    exact h.cells w other hw

/-- A function that is made where these variables are in scope has names with such cells around it. -/
theorem bindings (scope : Scope) : ∀ b ∈ L.bindings scope, T b.1 b.2 := by
  intro b hb
  obtain hb | hb := List.mem_append.mp hb
  · obtain ⟨v, -, hv⟩ := List.mem_filterMap.mp hb
    obtain ⟨cell, hcell, rfl⟩ := Option.map_eq_some_iff.mp hv
    exact h.cells v cell hcell
  · exact h.routine.around b hb

theorem make {scope : Scope} {params : List String} {variadic : Bool} {body : Block} {pos : Position}
    (hnext : L.next? s f = some ⟨scope, .make (.mk params variadic body pos)⟩) :
    Routine.Tagged T ⟨params, variadic, body, L.bindings scope⟩ := by
  refine ⟨?_, h.bindings scope⟩
  cases h.routine.spelled _ (mem_of_next? hnext) with
  | make hspelled => exact hspelled

/-- What the name stands for has such a cell. -/
theorem named {scope : Scope} {name : String} (hcell : L.cell? scope name = some cell) : T name cell := by
  unfold Life.cell? at hcell
  cases hfind : scope.find name with
  | some v =>
    rw [hfind] at hcell
    have hname : v.name = name := by simpa using List.find?_some hfind
    exact hname ▸ h.cells v cell hcell
  | none =>
    rw [hfind] at hcell
    obtain ⟨b, hfound, rfl⟩ := Option.map_eq_some_iff.mp hcell
    have hname : b.1 = name := by simpa using List.find?_some hfound
    exact hname ▸ h.routine.around b (List.mem_of_find?_eq_some hfound)

end Life.Tagged

namespace Account.Tagged

variable (h : A.Tagged T)

include h

theorem bind {lives : List (Option Life)} (hlives : A.lives = some L :: lives) (hv : T v.name cell) :
    ({ A with lives := some (L.bind v cell) :: lives, bound := cell :: A.bound } : Account).Tagged T := by
  refine ⟨h.routines, fun {L'} hL' ↦ ?_⟩
  obtain hL' | hL' := List.mem_cons.mp hL'
  · cases hL'
    exact (h.lives (hlives ▸ List.mem_cons_self)).bind hv
  · exact h.lives (hlives ▸ List.mem_cons_of_mem _ hL')

theorem execute (hT : s.heap.cells.size < u.heap.cells.size → ∀ name, T name s.heap.cells.size) :
    (A.execute s u).Tagged T := by
  unfold Account.execute
  split
  · next L lives f rest hlives hs =>
    split
    · next v hnext =>
      split
      · next hgrown => exact h.bind hlives (hT hgrown v.name)
      · exact h
    · next scope params variadic body pos hnext =>
      split
      · have hmade := (h.lives (hlives ▸ List.mem_cons_self)).make hnext
        refine ⟨fun {c r} hr ↦ ?_, h.lives⟩
        have hr : Function.update A.routines s.heap.closures.size
            (some ⟨params, variadic, body, L.bindings scope⟩) c = some r := hr
        by_cases hc : c = s.heap.closures.size
        · subst hc
          rw [Function.update_self] at hr
          exact Option.some.inj hr ▸ hmade
        · rw [Function.update_of_ne hc] at hr
          exact h.routines hr
      · exact h
    · exact h
  · exact h

theorem settle (hT : A.lives.length < u.activations.length → ∀ f rest, u.activations = .guest f :: rest →
      ∀ name cell, some cell ∈ f.cells → T name cell) : (A.settle u).Tagged T := by
  have hnone : ({ A with lives := none :: A.lives } : Account).Tagged T :=
    ⟨h.routines, fun hL ↦ h.lives ((List.mem_cons.mp hL).resolve_left (fun hnone ↦ by cases hnone))⟩
  unfold Account.settle
  split
  · next hmore =>
    split
    · next f rest hu =>
      split
      · next r hr =>
        refine ⟨h.routines, fun {L} hL ↦ ?_⟩
        obtain hL | hL := List.mem_cons.mp hL
        · cases hL
          refine ⟨h.routines hr, fun v cell hcell ↦ ?_⟩
          rw [Life.begin] at hcell
          dsimp only at hcell
          split at hcell
          · rw [Array.getD_eq_getD_getElem?] at hcell
            cases hslot : f.cells[v.serial]? with
            | none =>
              rw [hslot] at hcell
              cases hcell
            | some slot =>
              rw [hslot] at hcell
              obtain rfl : slot = some cell := hcell
              exact hT hmore f rest hu v.name cell (Array.mem_of_getElem? hslot)
          · cases hcell
        · exact h.lives hL
      · exact hnone
    · exact hnone
  · exact ⟨h.routines, fun hL ↦ h.lives (List.mem_of_mem_drop hL)⟩

end Account.Tagged

end

theorem Account.length_execute (A : Account) (s u : State) : (A.execute s u).lives.length = A.lives.length := by
  unfold execute
  split
  · next L lives f rest hlives hs =>
    split
    · split
      · simp [hlives]
      · rfl
    · split <;> rfl
    · rfl
  · rfl

section

variable {natives : Array Native} {code : Heap} {T : String → Nat → Prop} {A : Account} {s u : State}
  {m m' : Mode}

theorem Account.TrueIn.length_lives (hA : A.TrueIn code s) : A.lives.length = s.activations.length :=
  hA.each.length_eq.trans (List.length_map _)

/-- It stays so in a step, if `T` holds of new cells. -/
theorem Account.Tagged.after (h : A.Tagged T) (hA : A.TrueIn code s)
    (hnatives : ∀ b ∈ natives, ∃ c : Builtin, b = c.native) (hstep : step natives m s = .next m' u)
    (hT : ∀ name cell, s.heap.cells.size ≤ cell → cell < u.heap.cells.size → T name cell) :
    (A.after m s u).Tagged T := by
  have hframes := frames_of_step hnatives hstep
  have hentry (hmore : A.lives.length < u.activations.length) (f : Frame) (rest : List Activation)
      (hu : u.activations = .guest f :: rest) (name : String) (cell : Nat) (hcell : some cell ∈ f.cells) :
      T name cell := by
    rw [hA.length_lives] at hmore
    obtain ⟨hlow, hhigh⟩ := (hframes.entry hu hmore).1 cell hcell
    exact hT name cell hlow hhigh
  have hexecute : (A.execute s u).Tagged T := h.execute fun hgrown name ↦
    hT name s.heap.cells.size (Nat.le_refl _) hgrown
  cases m with
  | execute =>
    refine hexecute.settle fun hmore ↦ hentry ?_
    rwa [A.length_execute] at hmore
  | enter | deliver => exact h.settle hentry

/-- A declaration that is executed gives its variable a new cell. -/
theorem Account.Tagged.after_bind (h : A.Tagged T) (hA : A.TrueIn code s) {L : Life}
    {lives : List (Option Life)} {f : Frame} {rest : List Activation} {scope : Scope} {v : Variable}
    (hlives : A.lives = some L :: lives) (hs : s.activations = .guest f :: rest)
    (hnext : L.next? s f = some ⟨scope, .bind v⟩) (hu : u.activations.length = s.activations.length)
    (hT : T v.name s.heap.cells.size) : (A.after .execute s u).Tagged T := by
  have hexecute : (A.execute s u).Tagged T := by
    rw [Account.execute_bind hlives hs hnext]
    split
    · exact h.bind hlives hT
    · exact h
  refine hexecute.settle fun hmore ↦ ?_
  rw [A.length_execute, hA.length_lives, hu] at hmore
  exact absurd hmore (Nat.lt_irrefl _)

/-- Only closures that are made from now on come to be known. -/
theorem Account.routines_after {c : Nat} (hc : c < s.heap.closures.size) :
    (A.after m s u).routines c = A.routines c := by
  have hsettle (B : Account) : (B.settle u).routines = B.routines := by
    unfold settle
    split
    · split
      · split <;> rfl
      · rfl
    · rfl
  have hexecute : (A.execute s u).routines c = A.routines c := by
    unfold execute
    split
    · split
      · split <;> rfl
      · split
        · exact Function.update_of_ne hc.ne _ _
        · rfl
      · rfl
    · rfl
  cases m with
  | execute => exact (congrFun (hsettle _) c).trans hexecute
  | enter | deliver => exact congrFun (hsettle A) c

/-- The functions that run and whose text is known have room for their slots. -/
def Account.Roomy (A : Account) (s : State) : Prop :=
  ∀ f r p, some f ∈ s.frames? → A.routines f.closure = some r → s.proto? f.closure = some p →
    p.cellCount ≤ f.cells.size

theorem Frame.Goes.size {f g : Frame} (h : f.Goes s g) : g.cells.size = f.cells.size := by
  obtain ⟨-, hsame | ⟨p, x, -, -, hset⟩⟩ := h
  · rw [hsame]
  · rw [hset, Array.size_setIfInBounds]

/-- The prototype of a closure whose text is known stays what it is. -/
theorem Account.TrueIn.proto?_eq (hA : A.TrueIn code s) (hheap : s.heap.Conserves u.heap) {c : Nat}
    {r : Routine} (hr : A.routines c = some r) : u.proto? c = s.proto? c := by
  obtain ⟨link, hlink, howns⟩ := hA.made hr
  obtain ⟨q, -, hq, -⟩ := howns.made
  have hproto {t : State} (hlink : t.heap.links[c]? = some link) (hq : t.heap.protos[link.1]? = some q) :
      t.proto? c = some q := by
    obtain ⟨closure, hc, rfl⟩ := Heap.closure_of_link hlink
    exact Option.bind_eq_some_iff.mpr ⟨closure, hc, hq⟩
  rw [hproto hlink (hA.protos hq), hproto (hheap.links hlink) (hheap.protos (hA.protos hq))]

theorem Account.Roomy.after (h : A.Roomy s) (hA : A.TrueIn code s)
    (hnatives : ∀ b ∈ natives, ∃ c : Builtin, b = c.native) (hstep : step natives m s = .next m' u) :
    (A.after m s u).Roomy u := by
  have hframes := frames_of_step hnatives hstep
  intro f r p hf hr hp
  have hold {f₀ : Frame} (hf₀ : some f₀ ∈ s.frames?) (hclosure : f.closure = f₀.closure)
      (hsize : f.cells.size = f₀.cells.size) : p.cellCount ≤ f.cells.size := by
    rw [hclosure, Account.routines_after (hA.kept.closures f₀ hf₀)] at hr
    rw [hclosure, hA.proto?_eq hframes.conserves hr] at hp
    rw [hsize]
    exact h f₀ r p hf₀ hr hp
  have hturned {calls : List (Option Frame)} (hcalls : ∀ g, some g ∈ calls → ∃ f₀, some f₀ ∈ s.frames? ∧
      g.closure = f₀.closure ∧ g.cells.size = f₀.cells.size) (hlength : calls.length = s.activations.length)
      (hu : State.Turned s.heap calls u) : p.cellCount ≤ f.cells.size := by
    have hin (hmem : some f ∈ calls) : p.cellCount ≤ f.cells.size := by
      obtain ⟨f₀, hf₀, hclosure, hsize⟩ := hcalls f hmem
      exact hold hf₀ hclosure hsize
    cases hu with
    | ends _ suffix => exact hin (suffix.subset hf)
    | serves _ begins =>
      rw [begins] at hf
      exact hin ((List.mem_cons.mp hf).resolve_left fun hnone ↦ by cases hnone)
    | @enters t q closure floor expected code size below proto eq =>
      subst eq
      obtain hfirst | hf := List.mem_cons.mp hf
      · obtain rfl := Option.some.inj hfirst
        refine (hframes.entry (rfl : (entered t q closure floor expected).activations = _ :: t.activations)
          ?_).2 p hp
        have hbelow : t.activations.length = calls.length := by rw [← below, State.frames?, List.length_map]
        rw [entered, List.length_cons, hbelow, hlength]
        exact Nat.lt_succ_self _
      · exact hin (below ▸ hf)
  cases hframes with
  | turns turned => exact hturned (fun g hg ↦ ⟨g, hg, rfl, rfl⟩) (List.length_map _) turned
  | @goes f₀ g rest _ running goes turned =>
    refine hturned (fun g' hg' ↦ ?_) (by simp [running]) turned
    rw [State.frames?, running]
    obtain hfirst | hg' := List.mem_cons.mp hg'
    · obtain rfl := Option.some.inj hfirst
      exact ⟨f₀, List.mem_cons_self, goes.1, goes.size⟩
    · exact ⟨g', List.mem_cons_of_mem _ hg', rfl, rfl⟩

/-- The account is true, variables have cells that are there, and functions have room for their slots. -/
structure Account.Ready (A : Account) (code : Heap) (s : State) : Prop where
  right : A.TrueIn code s
  tagged : A.Tagged fun _ cell ↦ cell < s.heap.cells.size
  roomy : A.Roomy s

namespace Account.Ready

variable (hA : A.Ready code s) (hnatives : ∀ b ∈ natives, ∃ c : Builtin, b = c.native)

include hA hnatives

theorem after (hstep : step natives m s = .next m' u) : (A.after m s u).Ready code u := by
  have hbecomes := hA.right.after hnatives hstep
  have hthere : A.Tagged fun _ cell ↦ cell < u.heap.cells.size :=
    hA.tagged.mono fun _ _ hcell ↦ hcell.trans_le hbecomes.size
  exact ⟨hbecomes.right, hthere.after hA.right hnatives hstep fun _ _ _ hcell ↦ hcell,
    hA.roomy.after hA.right hnatives hstep⟩

theorem follow {k : Nat} (hrun : run natives k m s = .running m' u) :
    (A.follow natives k m s).Ready code u := by
  induction k generalizing A m s with
  | zero =>
    cases hrun
    exact hA
  | succ k ih =>
    rw [MiniLua.run] at hrun
    rw [Account.follow]
    cases hstep : step natives m s with
    | halt result t =>
      rw [hstep] at hrun
      cases hrun
    | next m₁ s₁ =>
      rw [hstep] at hrun
      exact ih (hA.after hnatives hstep) hrun

end Account.Ready

theorem Account.ready_start {c : Nat} {r : Routine}
    (hspelled : ∀ o ∈ occurrences r.params r.body, o.mention.Spelled) (haround : r.around = [])
    (hright : (Account.start s c r).TrueIn code s) (hnew : ∀ f, some f ∈ s.frames? → f.closure ≠ c) :
    (Account.start s c r).Ready code s := by
  have hroutine {c' : Nat} {r' : Routine}
      (hr : Function.update (fun _ ↦ none) c (some r) c' = some r') : c' = c ∧ r' = r := by
    by_cases hc : c' = c
    · subst hc
      rw [Function.update_self] at hr
      exact ⟨rfl, (Option.some.inj hr).symm⟩
    · rw [Function.update_of_ne hc] at hr
      cases hr
  refine ⟨hright, ⟨fun hr ↦ ?_, fun hL ↦ ?_⟩, fun f r' p hf hr ↦ ?_⟩
  · obtain ⟨-, rfl⟩ := hroutine hr
    refine ⟨hspelled, fun b hb ↦ ?_⟩
    rw [haround] at hb
    cases hb
  · obtain ⟨a, -, ha⟩ := List.mem_map.mp hL
    cases ha
  · exact absurd (hroutine hr).1 (hnew f hf)

end

end MiniLua
