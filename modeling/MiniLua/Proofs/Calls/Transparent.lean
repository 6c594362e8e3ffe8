import MiniLua.Proofs.Calls.Builtins

/-!
What a call made by the host or by a builtin leaves behind. Activations and the height of the stack
always come back; the values do as far down as no instruction of a guest function reached.
-/

namespace MiniLua

open Effects Machine

/-- A builtin's window lies above its own slot. -/
def Activation.Placed : Activation → Prop
  | guest _ => True
  | native call => 0 < call.base

theorem run_of_next {natives : Array Native} {mode mode' : Mode} {s t : State}
    (h : step natives mode s = .next mode' t) (n : Nat) :
    run natives (n + 1) mode s = run natives n mode' t := by
  rw [run, h]

def IsGuest : List Activation → Prop
  | .guest _ :: _ => True
  | _ => False

theorem exists_of_isGuest {calls : List Activation} (h : IsGuest calls) :
    ∃ f rest, calls = .guest f :: rest := by
  rcases calls with _ | ⟨f | call, rest⟩
  · exact h.elim
  · exact ⟨f, rest, rfl⟩
  · exact h.elim

/-- Activations that a call at slot `mark`, made on top of `base`, has put there so far; none has
its slot below `low`. -/
inductive Above (base : List Activation) (mark low : Nat) : List Activation → Prop
  | first {a : Activation} (slot : a.floor = mark) (placed : a.Placed) : Above base mark low (a :: base)
  | more {a : Activation} {calls : List Activation} (slot : low ≤ a.floor) (placed : a.Placed)
      (rest : Above base mark low calls) : Above base mark low (a :: calls)

/-- The next instruction neither reads nor removes what lies below `low`. -/
def State.Spares (low : Nat) (s : State) : Prop := low ≤ s.stack.size - s.takes

/-- A call from `s` that is going on. -/
structure Inside (s : State) (low : Nat) (mode : Mode) (t : State) : Prop where
  calls : Above s.activations s.stack.size low t.activations
  same : SameBelow low s.stack t.stack
  native : mode ≠ .execute → ¬ IsGuest t.activations

/-- A call from `s` that has ended. -/
structure Back (s : State) (low : Nat) (mode : Mode) (t : State) : Prop where
  delivers : ∃ result, mode = .deliver result
  calls : t.activations = s.activations
  size : t.stack.size ≤ s.stack.size
  same : SameBelow low s.stack t.stack

def Good (s : State) (low : Nat) : Transition → Prop
  | .next mode t => Inside s low mode t ∨ Back s low mode t
  | .halt _ _ => False

section

variable {s t : State} {low : Nat}

theorem Above.slot_le {calls : List Activation} {a : Activation} (hlow : low ≤ s.stack.size)
    (h : Above s.activations s.stack.size low (a :: calls)) : low ≤ a.floor := by
  cases h with
  | first slot _ => omega
  | more slot _ _ => exact slot

theorem Above.sameCalls {base : List Activation} {mark : Nat} {calls calls' : List Activation}
    (h : Above base mark low calls) (hc : SameCalls calls calls') : Above base mark low calls' := by
  cases hc with
  | refl => exact h
  | guest frame ip cells rest =>
    cases h with
    | first slot _ => exact .first slot trivial
    | more slot _ rest => exact .more slot trivial rest

/-- Unwinding stops at a builtin within the call or ends it. -/
theorem unwind_above {calls : List Activation} (hhost : ¬ IsGuest s.activations)
    (h : Above s.activations s.stack.size low calls) {floor : Nat} (hfloor : low ≤ floor) :
    (Above s.activations s.stack.size low (Transition.unwind floor calls).2 ∧
        ¬ IsGuest (Transition.unwind floor calls).2 ∧ low ≤ (Transition.unwind floor calls).1) ∨
      ((Transition.unwind floor calls).2 = s.activations ∧
        (Transition.unwind floor calls).1 = s.stack.size) := by
  induction h generalizing floor with
  | @first a slot placed =>
    cases a with
    | guest frame =>
      have hstop : Transition.unwind frame.base s.activations = (frame.base, s.activations) := by
        unfold Transition.unwind
        split
        · next h => exact absurd (by rw [h]; trivial) hhost
        · rfl
      rw [Transition.unwind, hstop]
      exact .inr ⟨rfl, slot⟩
    | native call => exact .inl ⟨.first slot placed, id, hfloor⟩
  | @more a calls slot placed rest ih =>
    cases a with
    | guest frame => exact ih slot
    | native call => exact .inl ⟨.more slot placed rest, id, hfloor⟩

theorem noteLocation_eq (t : State) : ∃ location, t.noteLocation = { t with location } := by
  unfold State.noteLocation
  split
  · split
    · exact ⟨_, rfl⟩
    · exact ⟨t.location, rfl⟩
  · exact ⟨t.location, rfl⟩

variable (hhost : ¬ IsGuest s.activations) (hlow : low ≤ s.stack.size)

include hhost hlow

theorem good_guestError (hcalls : Above s.activations s.stack.size low t.activations)
    (hsame : SameBelow low s.stack t.stack) (e : RuntimeError) :
    Good s low (Transition.guestError e t) := by
  obtain ⟨location, hnote⟩ := noteLocation_eq t
  simp only [Transition.guestError, hnote]
  obtain ⟨habove, hguest, hfloor⟩ | ⟨hback, hfloor⟩ := unwind_above hhost hcalls hsame.right
  · exact .inl ⟨habove, hsame.trans (.shrink hsame.right hfloor), fun _ ↦ hguest⟩
  · refine .inr ⟨⟨_, rfl⟩, hback, ?_, ?_⟩
    · simp only [State.truncate, hfloor, Array.size_shrink]
      exact Nat.min_le_left _ _
    · exact hsame.trans (.shrink hsame.right (by omega))

/-- Results go to an activation within the call, or end it. -/
theorem good_giveResults
    (h : (t.activations = s.activations ∧ t.stack.size ≤ s.stack.size) ∨
      Above s.activations s.stack.size low t.activations)
    (hsame : SameBelow low s.stack t.stack) (results : List Value) (expected : Option Nat) :
    Good s low (Transition.giveResults results expected t) := by
  unfold Transition.giveResults
  split
  · next frame rest ht =>
    obtain ⟨hback, -⟩ | habove := h
    · exact absurd (by rw [← hback, ht]; trivial) hhost
    · have huse := uses_placeResults results expected t
      have hsame' := hsame.trans (huse.below low hsame.right)
      have habove' := habove.sameCalls huse.calls
      split
      · next u hu =>
        rw [hu] at hsame' habove'
        exact .inl ⟨habove', hsame', fun h ↦ absurd rfl h⟩
      · next e u hu =>
        rw [hu] at hsame' habove'
        exact good_guestError hhost hlow habove' hsame' e
  · next hguest =>
    have hguest : ¬ IsGuest t.activations := by
      intro h
      match ht : t.activations with
      | .guest frame :: rest => exact hguest frame rest ht
      | [] | .native _ :: _ => simp only [ht, IsGuest] at h
    obtain ⟨hback, hsize⟩ | habove := h
    · exact .inr ⟨⟨_, rfl⟩, hback, hsize, hsame⟩
    · exact .inl ⟨habove, hsame, fun _ ↦ hguest⟩

/-- Dropping the innermost activation of a call. -/
theorem good_drop {a : Activation} {rest : List Activation}
    (h : Above s.activations s.stack.size low (a :: rest))
    (hsame : SameBelow low s.stack t.stack) (results : List Value) (expected : Option Nat) :
    Good s low
      (Transition.giveResults results expected ({ t with activations := rest }.truncate a.floor)) := by
  have hslot := h.slot_le hlow
  refine good_giveResults hhost hlow ?_ (hsame.trans (.shrink hsame.right hslot)) _ _
  cases h with
  | first slot _ =>
    refine .inl ⟨rfl, ?_⟩
    rw [State.truncate, Array.size_shrink, ← slot]
    exact Nat.min_le_left _ _
  | more _ _ rest => exact .inr rest

theorem good_guestReturn (hcalls : Above s.activations s.stack.size low t.activations)
    (hsame : SameBelow low s.stack t.stack) (results : List Value) :
    Good s low (Transition.guestReturn results t) := by
  unfold Transition.guestReturn
  split
  · next frame rest ht =>
    rw [ht] at hcalls
    exact good_drop hhost hlow hcalls hsame results frame.expected
  · next hguest =>
    refine .inl ⟨hcalls, hsame, fun _ h ↦ ?_⟩
    match ht : t.activations with
    | .guest frame :: rest => exact hguest frame rest ht
    | [] | .native _ :: _ => simp only [ht, IsGuest] at h

theorem good_nativeError {call : NativeCall} {rest : List Activation}
    (ht : t.activations = .native call :: rest)
    (hcalls : Above s.activations s.stack.size low (.native call :: rest))
    (hsame : SameBelow low s.stack t.stack) (e : RuntimeError) :
    Good s low (Transition.nativeError e t) := by
  have hslot : low ≤ call.base - 1 := hcalls.slot_le hlow
  have hsame' := hsame.trans (.shrink hsame.right hslot)
  simp only [Transition.nativeError, ht]
  cases hcalls with
  | first slot _ =>
    split
    · next h => exact absurd (by rw [h]; trivial) hhost
    · refine .inr ⟨⟨_, rfl⟩, rfl, ?_, hsame'⟩
      simp only [State.truncate, Array.size_shrink]
      rw [← slot]
      exact Nat.min_le_left _ _
  | more _ _ hrest =>
    split
    · exact good_guestError (t := { t with activations := _ }) hhost hlow hrest hsame e
    · next hguest =>
      refine .inl ⟨hrest, hsame', fun _ h ↦ ?_⟩
      cases rest with
      | nil => exact h
      | cons activation rest =>
        cases activation with
        | guest frame => exact hguest frame rest rfl
        | native => exact h

/-- A builtin that runs within its window ends or makes a call. -/
theorem good_afterNative {m : Machine Outcome} (hm : Contained m) {call : NativeCall}
    {rest : List Activation} (ht : t.activations = .native call :: rest)
    (hcalls : Above s.activations s.stack.size low (.native call :: rest))
    (hsame : SameBelow low s.stack t.stack) : Good s low (Transition.afterNative (m t)) := by
  have hslot : low ≤ call.base - 1 := hcalls.slot_le hlow
  obtain ⟨hcalls', hwindow⟩ := hm t call rest ht
  have hsame' := hsame.trans (hwindow.mono (Nat.le_min.mpr ⟨by omega, hsame.right⟩))
  rw [ht] at hcalls'
  match hrun : m t with
  | .ok .finished u =>
    rw [hrun, final_ok] at hcalls' hsame'
    simp only [Transition.afterNative, Transition.nativeResults, hcalls']
    exact good_drop hhost hlow hcalls hsame' _ _
  | .ok (.invoke callee args memo) u =>
    rw [hrun, final_ok] at hcalls' hsame'
    simp only [Transition.afterNative, Transition.remember, hcalls']
    refine .inl ⟨?_, hsame', fun _ ↦ id⟩
    cases hcalls with
    | first slot placed => exact .first slot placed
    | more slot placed rest => exact .more slot placed rest
  | .error e u =>
    rw [hrun, final_error] at hcalls' hsame'
    exact good_nativeError hhost hlow hcalls' hcalls hsame' e

theorem good_guestCall {natives : Array Native} (hnatives : ∀ n ∈ natives, n.Contained)
    (hcalls : Above s.activations s.stack.size low t.activations)
    (hsame : SameBelow low s.stack t.stack) {argCount : Nat}
    (hspare : low ≤ t.stack.size - (argCount + 1)) (expected : Option Nat) :
    Good s low (Transition.guestCall natives argCount expected t) := by
  unfold Transition.guestCall
  split
  · exact good_guestError hhost hlow hcalls hsame _
  · generalize t.stack.size - (argCount + 1) = floor at hspare ⊢
    dsimp only
    split
    · next c _ =>
      obtain ⟨e, h⟩ | ⟨frame, u, h, hbase, hu, hstack⟩ := enterClosure_cases c floor expected t
      · rw [h]
        exact good_guestError hhost hlow hcalls hsame e
      · rw [h]
        have hslot : low ≤ (Activation.guest frame).floor := by rwa [Activation.floor, hbase]
        refine .inl ⟨hu ▸ .more hslot trivial hcalls, ?_, fun h ↦ absurd rfl h⟩
        rw [hstack]
        exact hsame.trans (.shrink hsame.right hspare)
    · next n _ =>
      obtain ⟨e, h⟩ | ⟨native, call, u, h, hmem, hbase, hu, hstack⟩ :=
        enterNative_cases natives n floor argCount expected t
      · rw [h]
        exact good_guestError hhost hlow hcalls hsame e
      · rw [h]
        have hplaced : (Activation.native call).Placed := by
          rw [Activation.Placed, hbase]
          omega
        have hslot : (Activation.native call).floor = floor := by
          rw [Activation.floor, hbase]
          omega
        exact good_afterNative hhost hlow (hnatives native hmem).start hu
          (.more (hslot ▸ hspare) hplaced hcalls) (hstack ▸ hsame)
    · exact good_guestError hhost hlow hcalls hsame _

/-- A call that starts, or one made within it. -/
theorem good_hostCall {natives : Array Native} (hnatives : ∀ n ∈ natives, n.Contained)
    (hcalls : (t.activations = s.activations ∧ t.stack.size = s.stack.size) ∨
      Above s.activations s.stack.size low t.activations)
    (hguest : ¬ IsGuest t.activations) (hsame : SameBelow low s.stack t.stack) (callee : Value)
    (args : List Value) : Good s low (Transition.hostCall natives callee args t) := by
  have hroom := hsame.right
  -- the callee slot is the mark of the call itself, or lies within the call
  have hplace {a : Activation} (slot : a.floor = t.stack.size) (placed : a.Placed) :
      Above s.activations s.stack.size low (a :: t.activations) := by
    obtain ⟨hsame, hsize⟩ | habove := hcalls
    · exact hsame ▸ .first (slot.trans hsize) placed
    · exact .more (slot ▸ hroom) placed habove
  have hrefuse (e : RuntimeError) (u : State) (hu : u.activations = t.activations)
      (hstack : SameBelow low s.stack u.stack) :
      Good s low (.next (.deliver (.error e)) (u.truncate t.stack.size)) := by
    have hsame' := hstack.trans (.shrink hstack.right hroom)
    obtain ⟨hback, hsize⟩ | habove := hcalls
    · refine .inr ⟨⟨_, rfl⟩, hu.trans hback, ?_, hsame'⟩
      rw [State.truncate, Array.size_shrink, hsize]
      exact Nat.min_le_left _ _
    · exact .inl ⟨hu ▸ habove, hsame', fun _ ↦ hu ▸ hguest⟩
  unfold Transition.hostCall
  generalize hstart : (if t.activations.isEmpty then { t with location := none } else t) = v
  have hv : v.stack = t.stack ∧ v.activations = t.activations := by
    subst hstart
    split <;> exact ⟨rfl, rfl⟩
  have hpush : SameBelow low s.stack (final (pushAll (callee :: args) v)).stack :=
    hsame.trans (hv.1 ▸ (uses_pushAll (callee :: args) v).below low (by rwa [hv.1]))
  have hu := (pushAll_activations (callee :: args) v).trans hv.2
  dsimp only
  cases hrun : pushAll (callee :: args) v with
  | error e u =>
    rw [hrun, final_error] at hpush hu
    exact hrefuse e u hu hpush
  | ok _ u =>
    rw [hrun, final_ok] at hpush hu
    dsimp only
    split
    · next c =>
      obtain ⟨e, h⟩ | ⟨frame, w, h, hbase, hw, hstack⟩ :=
        enterClosure_cases c t.stack.size none u
      · rw [h]
        exact hrefuse e u hu hpush
      · rw [h]
        refine .inl ⟨?_, ?_, fun h ↦ absurd rfl h⟩
        · rw [hw, hu]
          exact hplace hbase trivial
        · rw [hstack]
          exact hpush.trans (.shrink hpush.right hroom)
    · next n =>
      obtain ⟨e, h⟩ | ⟨native, call, w, h, hmem, hbase, hw, hstack⟩ :=
        enterNative_cases natives n t.stack.size args.length none u
      · rw [h]
        exact hrefuse e u hu hpush
      · rw [h]
        have hplaced : (Activation.native call).Placed := by
          rw [Activation.Placed, hbase]
          omega
        have hslot : (Activation.native call).floor = t.stack.size := by
          rw [Activation.floor, hbase]
          omega
        rw [hu] at hw
        exact good_afterNative hhost hlow (hnatives native hmem).start hw (hplace hslot hplaced)
          (hstack ▸ hpush)
    · exact hrefuse _ u hu hpush

theorem good_handOver {natives : Array Native} (hnatives : ∀ n ∈ natives, n.Contained)
    (hcalls : Above s.activations s.stack.size low t.activations)
    (hguest : ¬ IsGuest t.activations) (hsame : SameBelow low s.stack t.stack)
    (result : Except RuntimeError (List Value)) :
    Good s low (Transition.handOver natives result t) := by
  match ht : t.activations with
  | [] =>
    rw [ht] at hcalls
    cases hcalls
  | .guest frame :: rest => exact absurd (by rw [ht]; trivial) hguest
  | .native call :: rest =>
    rw [ht] at hcalls
    simp only [Transition.handOver, ht]
    split
    · next native hn =>
      have hmem := Array.mem_of_getElem? hn
      exact good_afterNative hhost hlow ((hnatives native hmem).resume _ _) ht hcalls hsame
    · exact good_nativeError hhost hlow ht hcalls hsame _

theorem good_execute {natives : Array Native} (hnatives : ∀ n ∈ natives, n.Contained)
    (hcalls : Above s.activations s.stack.size low t.activations)
    (hsame : SameBelow low s.stack t.stack) (hspares : t.Spares low) :
    Good s low (step natives .execute t) := by
  have huse := usesAt_instruction t
  have hcalls' := hcalls.sameCalls huse.calls
  have hsame' : SameBelow low s.stack (final (instruction t)).stack := by
    obtain rfl | hlow' := Nat.eq_zero_or_pos low
    · exact .zero
    · unfold State.Spares at hspares
      exact hsame.trans (huse.below low (by omega))
  match hrun : instruction t with
  | .ok .nothing u =>
    rw [hrun, final_ok] at hcalls' hsame'
    simp only [step, hrun]
    exact .inl ⟨hcalls', hsame', fun h ↦ absurd rfl h⟩
  | .ok (.call argCount expected) u =>
    obtain ⟨hadvance, htakes⟩ := instruction_call hrun
    rw [hrun, final_ok] at hcalls' hsame'
    have hspare : low ≤ u.stack.size - (argCount + 1) := by rwa [hadvance, advance_stack, htakes]
    simp only [step, hrun]
    exact good_guestCall hhost hlow hnatives hcalls' hsame' hspare expected
  | .ok (.ret results) u =>
    rw [hrun, final_ok] at hcalls' hsame'
    simp only [step, hrun]
    exact good_guestReturn hhost hlow hcalls' hsame' results
  | .error e u =>
    rw [hrun, final_error] at hcalls' hsame'
    simp only [step, hrun]
    exact good_guestError hhost hlow hcalls' hsame' e

theorem good_step {natives : Array Native} (hnatives : ∀ n ∈ natives, n.Contained) {mode : Mode}
    (h : Inside s low mode t) (hspares : mode = .execute → t.Spares low) :
    Good s low (step natives mode t) := by
  obtain ⟨hcalls, hsame, hguest⟩ := h
  cases mode with
  | execute => exact good_execute hhost hlow hnatives hcalls hsame (hspares rfl)
  | enter callee args =>
    exact good_hostCall hhost hlow hnatives (.inr hcalls) (hguest (by simp)) hsame callee args
  | deliver result =>
    exact good_handOver hhost hlow hnatives hcalls (hguest (by simp)) hsame result

/-- A call goes on until it is first back. -/
theorem inside_run {natives : Array Native} (hnatives : ∀ n ∈ natives, n.Contained) {n : Nat}
    {mode mode' : Mode} {u : State} (h : Inside s low mode t)
    (hrun : run natives n mode t = .running mode' u)
    (hspares : ∀ k v, k < n → run natives k mode t = .running .execute v → v.Spares low)
    (hlong : ∀ k m v, k < n → run natives k mode t = .running m v →
      s.activations.length < v.activations.length) :
    Inside s low mode' u ∨ Back s low mode' u := by
  induction n generalizing mode t with
  | zero =>
    cases hrun
    exact .inl h
  | succ n ih =>
    have hgood := good_step hhost hlow hnatives h fun hmode ↦
      hspares 0 t (Nat.succ_pos n) (by rw [hmode]; rfl)
    match hstep : step natives mode t with
    | .halt _ _ =>
      rw [hstep] at hgood
      exact hgood.elim
    | .next mode₁ t₁ =>
      have hshift := run_of_next hstep
      rw [hshift] at hrun
      rw [hstep] at hgood
      obtain hin | hback := hgood
      · exact ih hin hrun (fun k v hk hv ↦ hspares (k + 1) v (by omega) (hshift k ▸ hv))
          fun k m v hk hv ↦ hlong (k + 1) m v (by omega) (hshift k ▸ hv)
      · obtain rfl | hn := Nat.eq_zero_or_pos n
        · cases hrun
          exact .inr hback
        · have := hlong 1 mode₁ t₁ (by omega) (hshift 0)
          rw [hback.calls] at this
          omega

end

/-- A call made in `s` has just ended after `n` steps: for the first time since, no more is active
than was then. -/
structure CallEnds (natives : Array Native) (callee : Value) (args : List Value) (s : State)
    (n : Nat) (result : Except RuntimeError (List Value)) (t : State) : Prop where
  ran : callValue natives n callee args s = .running (.deliver result) t
  back : t.activations.length ≤ s.activations.length
  first : ∀ k mode u, 0 < k → k < n → callValue natives k callee args s = .running mode u →
    s.activations.length < u.activations.length

theorem Above.length_lt {base calls : List Activation} {mark low : Nat}
    (h : Above base mark low calls) : base.length < calls.length := by
  induction h with
  | first => exact Nat.lt_succ_self _
  | more _ _ _ ih => exact Nat.lt_succ_of_lt ih

variable {natives : Array Native} {callee : Value} {args : List Value} {s t : State} {n : Nat}
  {result : Except RuntimeError (List Value)}

theorem CallEnds.back_of_spares (hnatives : ∀ n ∈ natives, n.Contained)
    (hhost : ¬ IsGuest s.activations) (h : CallEnds natives callee args s n result t) {low : Nat}
    (hlow : low ≤ s.stack.size)
    (hspares : ∀ k u, k < n → callValue natives k callee args s = .running .execute u →
      u.Spares low) :
    Back s low (.deliver result) t := by
  obtain ⟨hrun, hback, hlong⟩ := h
  have hgood : Good s low (step natives (.enter callee args) s) :=
    good_hostCall hhost hlow hnatives (.inl ⟨rfl, rfl⟩) hhost (.refl hlow) callee args
  unfold callValue at hrun hlong hspares
  cases n with
  | zero => cases hrun
  | succ n =>
    match hstep : step natives (.enter callee args) s with
    | .halt _ _ =>
      rw [hstep] at hgood
      exact hgood.elim
    | .next mode₁ t₁ =>
      have hshift := run_of_next hstep
      rw [hshift] at hrun
      rw [hstep] at hgood
      have hend : Inside s low (.deliver result) t ∨ Back s low (.deliver result) t := by
        obtain rfl | hn := Nat.eq_zero_or_pos n
        · cases hrun
          exact hgood
        · have hlt := hlong 1 mode₁ t₁ (by omega) (by omega) (hshift 0)
          obtain hin | hback := hgood
          · exact inside_run hhost hlow hnatives hin hrun
              (fun k v hk hv ↦ hspares (k + 1) v (by omega) (hshift k ▸ hv))
              fun k m v hk hv ↦ hlong (k + 1) m v (by omega) (by omega) (hshift k ▸ hv)
          · rw [hback.calls] at hlt
            omega
      obtain hin | hback := hend
      · have := hin.calls.length_lt
        omega
      · exact hback

/-- A prototype no compiler makes: it drops a value it did not push, and then fails. -/
def undercut : Prototype :=
  ⟨"", 0, false, 0, #[⟨64, 1, 0, 0⟩, ⟨49, 0, 0, 0⟩], #[], #[], #[], #[]⟩

/-- A builtin that lies in the only slot of the stack, about to call a closure of a prototype. -/
def calling (p : Prototype) : State :=
  { State.start {} .empty false with
    heap := { Heap.empty with protos := #[p], closures := #[⟨0, 0, #[]⟩] }
    stack := #[.native 0]
    activations := [.native ⟨0, "load", 1, 0, none, .nothing⟩] }

def balanced : Prototype := ⟨"", 0, false, 0, #[⟨0, 2, 0, 0⟩], #[], #[], #[], #[]⟩

theorem halted_of_idle (hidle : t.activations = []) {r : Except RuntimeError (List Value)}
    {fuel : Nat} {u : State} (hrun : run natives fuel (.deliver r) t = .halted result u) :
    r = result ∧ t = u ∧ 0 < fuel := by
  cases fuel with
  | zero => cases hrun
  | succ fuel =>
    simp only [run, step, Transition.handOver, hidle] at hrun
    cases hrun
    exact ⟨rfl, rfl, Nat.succ_pos _⟩

/-- On a machine at rest a call that started goes on until it is back, and only then halts. -/
theorem halted_of_inside (hnatives : ∀ n ∈ natives, n.Contained) (hrest : s.activations = [])
    {fuel : Nat} {mode : Mode} (h : Inside s 0 mode t) {u : State}
    (hrun : run natives fuel mode t = .halted result u) :
    ∃ n < fuel, run natives n mode t = .running (.deliver result) u ∧ u.activations = [] ∧
      ∀ k m v, k < n → run natives k mode t = .running m v → 0 < v.activations.length := by
  have hhost : ¬ IsGuest s.activations := by
    rw [hrest]
    exact id
  induction fuel generalizing mode t with
  | zero => cases hrun
  | succ fuel ih =>
    have hgood := good_step hhost (Nat.zero_le _) hnatives h fun _ ↦ Nat.zero_le _
    have hlive := h.calls.length_lt
    match hstep : step natives mode t with
    | .halt _ _ =>
      rw [hstep] at hgood
      exact hgood.elim
    | .next mode₁ t₁ =>
      have hshift := run_of_next hstep
      rw [hshift] at hrun
      rw [hstep] at hgood
      obtain hin | hback := hgood
      · obtain ⟨n, hn, hend, hidle, hfirst⟩ := ih hin hrun
        refine ⟨n + 1, by omega, by rw [hshift, hend], hidle, fun k m v hk hv ↦ ?_⟩
        cases k with
        | zero =>
          cases hv
          omega
        | succ k => exact hfirst k m v (by omega) (hshift k ▸ hv)
      · obtain ⟨⟨r, rfl⟩, hcalls, -, -⟩ := hback
        have hidle := hcalls.trans hrest
        obtain ⟨rfl, rfl, hfuel⟩ := halted_of_idle hidle hrun
        refine ⟨1, by omega, hshift 0, hidle, fun k m v hk hv ↦ ?_⟩
        obtain rfl : k = 0 := by omega
        cases hv
        omega

/-- A run that the host started on a machine at rest and that halted is a call that ended. -/
theorem callEnds_of_halted (hnatives : ∀ n ∈ natives, n.Contained) (hrest : s.activations = [])
    {fuel : Nat} (hrun : callValue natives fuel callee args s = .halted result t) :
    ∃ n < fuel, CallEnds natives callee args s n result t := by
  have hhost : ¬ IsGuest s.activations := by
    rw [hrest]
    exact id
  have hgood : Good s 0 (step natives (.enter callee args) s) :=
    good_hostCall hhost (Nat.zero_le _) hnatives (.inl ⟨rfl, rfl⟩) hhost (.refl (Nat.zero_le _))
      callee args
  unfold callValue at hrun
  cases fuel with
  | zero => cases hrun
  | succ fuel =>
    match hstep : step natives (.enter callee args) s with
    | .halt _ _ =>
      rw [hstep] at hgood
      exact hgood.elim
    | .next mode₁ t₁ =>
      have hshift := run_of_next hstep
      rw [hshift] at hrun
      rw [hstep] at hgood
      obtain hin | hback := hgood
      · obtain ⟨n, hn, hend, hidle, hfirst⟩ := halted_of_inside hnatives hrest hin hrun
        refine ⟨n + 1, by omega, ?_, by simp [hidle], fun k m v hpos hk hv ↦ ?_⟩
        · rw [callValue, hshift, hend]
        · obtain ⟨k, rfl⟩ := Nat.exists_eq_succ_of_ne_zero (by omega : k ≠ 0)
          rw [hrest]
          exact hfirst k m v (by omega) (hshift k ▸ hv)
      · obtain ⟨⟨r, rfl⟩, hcalls, -, -⟩ := hback
        have hidle := hcalls.trans hrest
        obtain ⟨rfl, rfl, hfuel⟩ := halted_of_idle hidle hrun
        exact ⟨1, by omega, hshift 0, by simp [hidle], fun k m v _ _ ↦ by omega⟩

/-- The host finds a machine at rest with an empty stack as it left it. -/
theorem atRest_of_halted (hnatives : ∀ n ∈ natives, n.Contained) (hrest : s.activations = [])
    (hempty : s.stack = #[]) {fuel : Nat}
    (hrun : callValue natives fuel callee args s = .halted result t) :
    t.activations = [] ∧ t.stack = #[] := by
  obtain ⟨n, -, h⟩ := callEnds_of_halted hnatives hrest hrun
  have hhost : ¬ IsGuest s.activations := by
    rw [hrest]
    exact id
  have hback := h.back_of_spares hnatives hhost (Nat.zero_le _) fun _ _ _ _ ↦ Nat.zero_le _
  refine ⟨hback.calls.trans hrest, ?_⟩
  have hsize := hback.size
  rw [hempty] at hsize
  exact Array.eq_empty_of_size_eq_zero (Nat.le_zero.mp hsize)

end MiniLua
