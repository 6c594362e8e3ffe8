import Mathlib.Tactic.IntervalCases
import MiniLua.Proofs.Stack.Blind
import MiniLua.Proofs.Stack.Discipline
import MiniLua.Proofs.Twins.Scripts

/-!
The stack over whole runs: what each instruction of compiled code finds there, and what is there when
a call has returned.
-/

namespace MiniLua

open Effects Machine

theorem run_of_running {natives : Array Native} {k : Nat} {m m' : Mode} {s t : State}
    (h : run natives k m s = .running m' t) (d : Nat) : run natives (k + d) m s = run natives d m' t := by
  induction k generalizing m s with
  | zero =>
    cases h
    rw [Nat.zero_add]
  | succ k ih =>
    unfold run at h
    cases hstep : step natives m s with
    | halt =>
      rw [hstep] at h
      cases h
    | next m₁ s₁ =>
      rw [hstep] at h
      rw [Nat.add_right_comm, run_of_next hstep]
      exact ih h

theorem run_eq_halted {natives : Array Native} {fuel : Nat} {m : Mode} {s t : State}
    {result : Except RuntimeError (List Value)} (h : run natives fuel m s = .halted result t) :
    ∃ k m' u, k < fuel ∧ run natives k m s = .running m' u ∧ step natives m' u = .halt result t := by
  induction fuel generalizing m s with
  | zero => cases h
  | succ fuel ih =>
    cases hstep : step natives m s with
    | halt =>
      rw [run, hstep] at h
      cases h
      exact ⟨0, m, s, by omega, rfl, hstep⟩
    | next m₁ s₁ =>
      rw [run_of_next hstep] at h
      obtain ⟨k, m', u, hk, hrun, hlast⟩ := ih h
      exact ⟨k + 1, m', u, by omega, (run_of_next hstep k).trans hrun, hlast⟩

/-- If the instruction in `s` is a call, and the callee and what it calls take up to `fuel` steps, then
the step that comes back to the caller brings an error, or it brings results: the stack is what it was below
the callee's slot, with as many results on it as the caller expects or with all of them, counted. -/
def State.Settles (natives : Array Native) (fuel : Nat) (s : State) : Prop :=
  ∀ argCount expected t, instruction s = .ok (.call argCount expected) t →
    ∀ d ≤ fuel, ∀ m u m' v, run natives d .execute s = .running m u →
      (∀ j, 0 < j → j ≤ d → ∀ m u, run natives j .execute s = .running m u →
        t.activations.length < u.activations.length) →
      step natives m u = .next m' v → v.activations.length ≤ t.activations.length →
      (∃ e, m' = .deliver (.error e)) ∨
        ∃ results, (step natives m u).Returns results ∧ m' = .execute ∧
          v.activations = t.activations ∧
          v.stack = t.stack.shrink (t.stack.size - (argCount + 1)) ++ adjusted results expected ∧
          (expected = none → v.lastMulti = results.length)

theorem Chain.depth {h : Heap} {natives : Nat} {G : Ground} {low : Array Value} {expected : Option Nat}
    {calls : List Activation} (hchain : Chain h natives G low expected calls) :
    G.activations.length ≤ calls.length := by
  induction hchain with
  | ground => exact Nat.le_refl _
  | guest _ _ _ _ ih | native _ _ _ ih => exact Nat.le_succ_of_le ih

section

variable {natives : Nat} {G : Ground} {m : Mode} {s : State}

/-- What was called is still there. -/
theorem Orderly.depth (h : Orderly natives G m s) (hG : IsGuest G.activations) :
    G.activations.length < s.activations.length := by
  have hwaits (hchain : Chain s.heap natives G s.stack none s.activations)
      (hwaits : ¬ IsGuest s.activations) : G.activations.length < s.activations.length := by
    generalize s.stack = stack, s.activations = calls, (none : Option Nat) = expected at hchain hwaits
    cases hchain with
    | ground => exact absurd hG hwaits
    | guest => exact absurd trivial hwaits
    | native below _ _ => exact Nat.lt_succ_of_le below.depth
  cases h with
  | running calls below _ _ _ _ _ =>
    rw [calls]
    exact Nat.lt_succ_of_le below.depth
  | entering below waits => exact hwaits below waits
  | delivering below waits _ => exact hwaits below waits

/-- The caller has the results, or an error goes on to where it is caught. -/
inductive Handed (G : Ground) (x : Transition) : Mode → State → Prop
  | results {results : List Value} {s : State} (returns : x.Returns results)
      (calls : s.activations = G.activations) (stack : s.stack = G.stack ++ adjusted results G.expected)
      (counted : G.expected = none → s.lastMulti = results.length) : Handed G x .execute s
  | error {e : RuntimeError} {s : State} (sober : ¬ e.Internal)
      (calls : s.activations.length ≤ G.activations.length) : Handed G x (.deliver (.error e)) s

theorem Handed.depth {x : Transition} (h : Handed G x m s) :
    s.activations.length ≤ G.activations.length := by
  cases h with
  | results returns calls stack counted => rw [calls]
  | error sober calls => exact calls

theorem Transition.giveResults_ne_halt {results : List Value} {expected : Option Nat}
    {result : Except RuntimeError (List Value)} {t : State} :
    giveResults results expected s ≠ .halt result t := by
  unfold giveResults
  intro h
  split at h
  · cases hplaced : placeResults results expected s with
    | ok _ u =>
      rw [hplaced] at h
      cases h
    | error e u =>
      rw [hplaced] at h
      cases h
  · cases h

theorem Onward.of_next {x : Transition} (h : Onward natives G x) (hx : x = .next m s) :
    Orderly natives G m s ∨ IsGuest G.activations ∧ Handed G x m s := by
  cases h with
  | next h =>
    cases hx
    exact .inl h
  | halt => cases hx
  | lost guest sober calls =>
    cases hx
    exact .inr ⟨guest, .error sober calls⟩
  | @back results s₁ guest returns calls stack =>
    refine .inr ⟨calls ▸ guest, ?_⟩
    have hrun := hx
    obtain ⟨f, rest, hcalls⟩ : ∃ f rest, s₁.activations = .guest f :: rest := by
      match h : s₁.activations, guest with
      | .guest f :: rest, _ => exact ⟨f, rest, rfl⟩
      | [], guest | .native _ :: _, guest => exact guest.elim
    simp only [Transition.giveResults, hcalls, placeResults_eq] at hrun
    have hcounted : counted results G.expected s₁ =
        { s₁ with lastMulti := (counted results G.expected s₁).lastMulti } := by
      cases G.expected <;> rfl
    obtain hplaced | ⟨pushed, hplaced⟩ :=
      pushAll_cases (adjusted results G.expected) (counted results G.expected s₁)
    · rw [hplaced, hcounted] at hrun
      cases hrun
      refine .results returns calls (by rw [stack]) fun hnone ↦ ?_
      dsimp only
      rw [hnone]
      rfl
    · rw [hplaced, hcounted] at hrun
      obtain ⟨location, hnote⟩ := noteLocation_eq
        { s₁ with stack := s₁.stack ++ pushed,
                  lastMulti := (counted results G.expected s₁).lastMulti }
      simp only [Transition.guestError, hnote] at hrun
      cases hrun
      refine .error id ?_
      rw [← calls]
      exact Transition.length_unwind _ _

theorem Onward.of_halt {x : Transition} (h : Onward natives G x)
    {result : Except RuntimeError (List Value)} (hx : x = .halt result s) :
    (∀ e, result = .error e → ¬ e.Internal) ∧ s.activations = [] ∧ s.stack = G.stack := by
  cases h with
  | halt sober calls stack =>
    cases hx
    exact ⟨sober, calls, stack⟩
  | next | lost => cases hx
  | back => exact absurd hx Transition.giveResults_ne_halt

end

/-- What holds of a machine at each step of a call. -/
structure Lawful (natives : Array Native) (G : Ground) (m : Mode) (s : State) : Prop where
  mirrors : s.Twins natives.size s
  mode : m.Twins (s.heap.Matches natives.size s.heap) m
  sized : s.heap.Sized
  orderly : Orderly natives.size G m s

section

variable {natives : Array Native} (hnatives : ∀ b ∈ natives, ∃ c : Builtin, b = c.native) {G : Ground}
  {m m' : Mode} {s t : State}

include hnatives

/-- A step leaves the machine in order if it leaves the stack so. -/
theorem Lawful.of_orderly {m₀ : Mode} (hs : s.Twins natives.size s)
    (hm : m.Twins (s.heap.Matches natives.size s.heap) m) (hsized : s.heap.Sized)
    (hloads : s.heap.Loads (step natives m s).state.heap) (hstep : step natives m s = .next m₀ t)
    (hcompiled : t.heap.CompiledOnly) (horderly : Orderly natives.size G m₀ t) :
    Lawful natives G m₀ t := by
  have htwinned : ∀ b ∈ natives, b.Twinned := fun b hb ↦ by
    obtain ⟨c, rfl⟩ := hnatives b hb
    exact c.twinned
  have hsame := step_twins htwinned hs hm
  rw [hstep] at hsame hloads
  cases hsame with
  | next ht _ _ hm => exact ⟨ht, hm, (hloads.sized hsized).sized hcompiled, horderly⟩

theorem Lawful.onward (hG : G.Firm) (h : Lawful natives G m s) (hcompiled : s.heap.CompiledOnly) :
    Onward natives.size G (step natives m s) ∧ s.heap.Loads (step natives m s).state.heap := by
  have hmode := h.mode
  cases h.orderly with
  | running calls below base at_ fits multi stack =>
    exact onward_execute hG hnatives h.mirrors h.sized hcompiled
      (.running calls below base at_ fits multi stack)
  | entering below waits =>
    cases hmode with
    | enter hcallee hargs =>
      exact onward_hostCall hG hnatives h.mirrors h.sized hcompiled hcallee hargs below waits
  | delivering below waits sober => exact onward_handOver hG hnatives h.mirrors below waits sober

/-- A step goes on with the call, or brings its outcome to the caller. -/
theorem Lawful.next (hG : G.Firm) (h : Lawful natives G m s) (hcompiled : s.heap.CompiledOnly)
    (hstep : step natives m s = .next m' t) (hcompiled' : t.heap.CompiledOnly) :
    Lawful natives G m' t ∨ IsGuest G.activations ∧ Handed G (step natives m s) m' t := by
  obtain ⟨honward, hloads⟩ := h.onward hnatives hG hcompiled
  obtain horderly | hhanded := honward.of_next hstep
  · exact .inl (.of_orderly hnatives h.mirrors h.mode h.sized hloads hstep hcompiled' horderly)
  · exact .inr hhanded

/-- So it stays until the outcome is there. -/
theorem Lawful.lasts (hG : G.Firm) (h : Lawful natives G m s) {fuel : Nat}
    (hcompiled : ∀ k ≤ fuel, ∀ m' t, run natives k m s = .running m' t → t.heap.CompiledOnly)
    (hdeep : ∀ k ≤ fuel, ∀ m' t, run natives k m s = .running m' t →
      G.activations.length < t.activations.length ∨ ¬ IsGuest G.activations)
    (hrun : run natives fuel m s = .running m' t) : Lawful natives G m' t := by
  induction fuel generalizing m s with
  | zero =>
    cases hrun
    exact h
  | succ fuel ih =>
    cases hstep : step natives m s with
    | halt =>
      rw [run, hstep] at hrun
      cases hrun
    | next m₁ s₁ =>
      have hshift (k : Nat) := run_of_next hstep k
      rw [hshift] at hrun
      have hcompiled₁ := hcompiled 1 (by omega) m₁ s₁ (hshift 0)
      refine ih ?_ (fun k hk m' t ht ↦ ?_) (fun k hk m' t ht ↦ ?_) hrun
      · obtain hlawful | ⟨hguest, hhanded⟩ :=
          h.next hnatives hG (hcompiled 0 (Nat.zero_le _) m s rfl) hstep hcompiled₁
        · exact hlawful
        · obtain hdeep | hhost := hdeep 1 (by omega) m₁ s₁ (hshift 0)
          · exact absurd hdeep hhanded.depth.not_gt
          · exact absurd hguest hhost
      · exact hcompiled (k + 1) (by omega) m' t ((hshift k).trans ht)
      · exact hdeep (k + 1) (by omega) m' t ((hshift k).trans ht)

omit hnatives in
/-- A call starts on the ground of its caller. -/
theorem Orderly.guestCall (h : Orderly natives.size G .execute s) {argCount : Nat}
    {expected : Option Nat} (hcall : instruction s = .ok (.call argCount expected) t) :
    t = advance s ∧ IsGuest t.activations ∧ argCount + 1 ≤ t.stack.size := by
  cases h with
  | @running low f rest p P vs ms _ calls below base at_ fits multi stack =>
    obtain ⟨-, i, op, hi, hop, htakes, hmulti, -⟩ := at_.sound.next
    rw [instruction_of_guest calls at_.code hi hop] at hcall
    obtain ⟨rfl, hcount⟩ := perform_call hop hcall
    refine ⟨rfl, by rw [advance_of_guest calls]; trivial, ?_⟩
    rw [hcount, advance_lastMulti, advance_stack, stack, size_appendList, List.length_append,
      List.length_reverse, ← List.Forall₂.length_eq fits, Instruction.takes_eq_takes_zero i _ hop,
      multi, hmulti]
    omega

theorem Lawful.onward_call (h : Lawful natives G .execute s) (hcompiled : s.heap.CompiledOnly)
    {argCount : Nat} {expected : Option Nat} (hcall : instruction s = .ok (.call argCount expected) t) :
    let G' : Ground := ⟨t.activations, t.stack.shrink (t.stack.size - (argCount + 1)), expected⟩
    G'.Firm ∧ Onward natives.size G' (step natives .execute s) ∧
      s.heap.Loads (step natives .execute s).state.heap := by
  intro G'
  obtain ⟨ht, hguest, hsize⟩ := h.orderly.guestCall hcall
  have hfirm : G'.Firm := by
    match hcalls : t.activations, hguest with
    | .guest f :: rest, _ =>
      have := Ground.Firm.guest f rest (t.stack.shrink (t.stack.size - (argCount + 1))) expected
      rwa [← hcalls] at this
  have hheap : t.heap = s.heap := by
    rw [ht]
    unfold advance
    split <;> rfl
  obtain ⟨callee, args, hargs, hstack⟩ : ∃ callee args, args.length = argCount ∧
      t.stack = t.stack.shrink (t.stack.size - (argCount + 1)) ++ (callee :: args) := by
    have hlength : (t.stack.toList.drop (t.stack.size - (argCount + 1))).length = argCount + 1 := by
      rw [List.length_drop, Array.length_toList]
      omega
    obtain ⟨callee, args, hdrop⟩ := List.exists_cons_of_length_eq_add_one hlength
    refine ⟨callee, args, by simpa [hdrop] using hlength, ?_⟩
    rw [← hdrop]
    apply Array.ext'
    simp [Array.shrink_eq_take]
  have hmirrors : State.Twins natives.size t t := ht ▸ h.mirrors.advance
  have hground : Chain t.heap natives.size G' (t.stack.shrink (t.stack.size - (argCount + 1))) expected
      t.activations := .ground
  have honward := onward_guestCall hground hstack hfirm hmirrors hnatives (hheap ▸ h.sized) (hheap ▸ hcompiled) hguest
  rw [hargs, hheap] at honward
  rw [Transition.step_execute, hcall]
  exact ⟨hfirm, honward⟩

/-- What a call leaves when the callee comes back. -/
theorem Lawful.settles (h : Lawful natives G .execute s) {fuel : Nat}
    (hcompiled : ∀ k ≤ fuel, ∀ m t, run natives k .execute s = .running m t → t.heap.CompiledOnly) :
    s.Settles natives fuel := by
  intro argCount expected t hcall d hd m u m' v hrun hdeep hstep hback
  have hcompiled₀ := hcompiled 0 (Nat.zero_le _) .execute s rfl
  obtain ⟨hfirm, honward, hloads⟩ := h.onward_call hnatives hcompiled₀ hcall
  -- the last of the steps, made from where the call still went on
  suffices hhanded : Handed ⟨t.activations, t.stack.shrink (t.stack.size - (argCount + 1)), expected⟩
      (step natives m u) m' v by
    cases hhanded with
    | results returns calls stack counted => exact .inr ⟨_, returns, rfl, calls, stack, counted⟩
    | error => exact .inl ⟨_, rfl⟩
  have hend {m : Mode} {u : State} (honward : Onward natives.size
      ⟨t.activations, t.stack.shrink (t.stack.size - (argCount + 1)), expected⟩ (step natives m u))
      (hstep : step natives m u = .next m' v) :
      Handed ⟨t.activations, t.stack.shrink (t.stack.size - (argCount + 1)), expected⟩
        (step natives m u) m' v := by
    obtain horderly | ⟨-, hhanded⟩ := honward.of_next hstep
    · have hguest := (h.orderly.guestCall hcall).2.1
      exact absurd hback (horderly.depth hguest).not_ge
    · exact hhanded
  cases d with
  | zero =>
    cases hrun
    exact hend honward hstep
  | succ d =>
    cases hfirst : step natives .execute s with
    | halt =>
      rw [run, hfirst] at hrun
      cases hrun
    | next m₁ s₁ =>
      have hshift (k : Nat) := run_of_next hfirst k
      rw [hshift] at hrun
      have hcompiled₁ (k : Nat) (hk : k ≤ d) (m' : Mode) (t : State)
          (ht : run natives k m₁ s₁ = .running m' t) : t.heap.CompiledOnly :=
        hcompiled (k + 1) (by omega) m' t ((hshift k).trans ht)
      have hlawful : Lawful natives
          ⟨t.activations, t.stack.shrink (t.stack.size - (argCount + 1)), expected⟩ m₁ s₁ := by
        obtain horderly | ⟨-, hhanded⟩ := honward.of_next hfirst
        · exact .of_orderly hnatives h.mirrors h.mode h.sized hloads hfirst
            (hcompiled₁ 0 (Nat.zero_le _) m₁ s₁ rfl) horderly
        · exact absurd (hdeep 1 (by omega) (by omega) m₁ s₁ (hshift 0)) hhanded.depth.not_gt
      have hlast := hlawful.lasts hnatives hfirm hcompiled₁ (fun k hk m' t ht ↦
        .inl (hdeep (k + 1) (by omega) (by omega) m' t ((hshift k).trans ht))) hrun
      exact hend (hlast.onward hnatives hfirm (hcompiled₁ d (Nat.le_refl d) m u hrun)).1 hstep

end

/-- A machine in which nothing runs. -/
structure State.Idle (natives : Array Native) (s : State) : Prop where
  activations : s.activations = []
  mirrors : s.Twins natives.size s
  sized : s.heap.Sized

section

variable {natives : Array Native} {s : State}

/-- Code is loaded and a closure is made of it. -/
theorem State.Idle.load (h : s.Idle natives) {bytes : Bytes} {chunkName : String} {main : Nat} {t u : State}
    {v : Value} (hdecode : Loading.decode bytes chunkName s = .ok main t)
    (hclosure : Loading.closureOf main t = .ok v u) (hcompiled : u.heap.CompiledOnly) :
    u.Idle natives ∧ u.heap.Matches natives.size u.heap v v := by
  have hexact := h.mirrors.heap.exact
  have hsecures := Loading.secures_decode hexact bytes chunkName
  have hloads : s.heap.Loads (final (Loading.closureOf main t)).heap := Loading.loads_closureOf
    (by rwa [hdecode] at hsecures) (Loading.size_of_decode hdecode)
  obtain ⟨heap, hheap, -⟩ := Loading.adds_decode hexact bytes chunkName
  have hsame := Loading.alike_decode h.mirrors bytes chunkName
  rw [hdecode] at hsame hheap
  cases hsame with
  | ok ht _ _ hmain =>
    have hmade := Loading.alike_closureOf ht hmain
    rw [hclosure] at hmade hloads
    cases hmade with
    | ok hu _ _ hv =>
      refine ⟨⟨?_, hu, (hloads.sized h.sized).sized hcompiled⟩, hv⟩
      obtain rfl : t = { s with heap } := hheap
      cases hclosure
      exact h.activations

variable (hnatives : ∀ b ∈ natives, ∃ c : Builtin, b = c.native) (hidle : s.Idle natives)
  {callee : Value} {args : List Value} (hcallee : s.heap.Matches natives.size s.heap callee callee)
  (hargs : List.Forall₂ (s.heap.Matches natives.size s.heap) args args) {fuel : Nat}
  (hcompiled : ∀ k ≤ fuel, ∀ m t, run natives k (.enter callee args) s = .running m t →
    t.heap.CompiledOnly)

include hnatives hidle hcallee hargs hcompiled

theorem State.Idle.lawful {m : Mode} {t : State} {k : Nat} (hk : k ≤ fuel)
    (hrun : run natives k (.enter callee args) s = .running m t) :
    Lawful natives ⟨[], s.stack, none⟩ m t := by
  have hstart : Lawful natives ⟨[], s.stack, none⟩ (.enter callee args) s := by
    refine ⟨hidle.mirrors, .enter hcallee hargs, hidle.sized, .entering ?_ ?_⟩
    · rw [hidle.activations]
      exact .ground
    · rw [hidle.activations]
      exact id
  exact hstart.lasts hnatives (.host _) (fun j hj ↦ hcompiled j (by omega)) (fun _ _ _ _ _ ↦ .inr id) hrun

/-- A call that ends leaves the machine as idle as it was. -/
theorem State.Idle.of_halted {result : Except RuntimeError (List Value)} {t : State}
    (hrun : run natives fuel (.enter callee args) s = .halted result t)
    (hcompiled' : t.heap.CompiledOnly) :
    t.Idle natives ∧ t.stack = s.stack ∧ ∀ e, result = .error e → ¬ e.Internal := by
  have htwinned : ∀ b ∈ natives, b.Twinned := fun b hb ↦ by
    obtain ⟨c, rfl⟩ := hnatives b hb
    exact c.twinned
  obtain ⟨k, m, u, hk, hrun, hlast⟩ := run_eq_halted hrun
  have hlawful := hidle.lawful hnatives hcallee hargs hcompiled (Nat.le_of_lt hk) hrun
  obtain ⟨honward, hloads⟩ :=
    hlawful.onward hnatives (.host _) (hcompiled k (Nat.le_of_lt hk) m u hrun)
  have hsame := step_twins htwinned hlawful.mirrors hlawful.mode
  rw [hlast] at hsame hloads
  obtain ⟨hsober, hcalls, hstack⟩ := honward.of_halt hlast
  cases hsame with
  | halt ht => exact ⟨⟨hcalls, ht, (hloads.sized hlawful.sized).sized hcompiled'⟩, hstack, hsober⟩

end

end MiniLua
