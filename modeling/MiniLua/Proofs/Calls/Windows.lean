import MiniLua.Proofs.Calls.Facade
import MiniLua.Proofs.Stack.Runs

/-!
The window of a builtin over all the calls it makes: what it reads there, what it leaves there, and what
its caller finds on the stack.
-/

namespace MiniLua

open Effects Machine

/-! ### Acts -/

namespace Act

/-- The act changes the window. -/
def Writes : Act → Prop
  | count _ | read _ _ => False
  | set _ | push _ => True

def pushed? : Act → Option Value
  | push value => some value
  | _ => none

/-- What the acts leave of a window that held `args`: the values that were put there last, or the
arguments if none were, and all that was added after that in its order. -/
inductive Leaves (args : List Value) : List Act → List Value → Prop
  | untouched {acts : List Act} (unset : ∀ values, set values ∉ acts) :
      Leaves args acts (args ++ acts.filterMap pushed?)
  | set (before : List Act) (values : List Value) {after : List Act} (last : ∀ vs, set vs ∉ after) :
      Leaves args (before ++ set values :: after) (values ++ after.filterMap pushed?)

theorem foldl_on_of_unset {acts : List Act} (h : ∀ values, set values ∉ acts) (window : List Value) :
    acts.foldl on window = window ++ acts.filterMap pushed? := by
  induction acts generalizing window with
  | nil => simp
  | cons a acts ih =>
    have hrest : ∀ values, set values ∉ acts := fun values hmem ↦ h values (.tail _ hmem)
    rw [List.foldl_cons, ih hrest]
    cases a with
    | count n => rfl
    | read i v => rfl
    | set values => exact absurd (.head _) (h values)
    | push value => simp [on, pushed?]

theorem unset_or_last_set (acts : List Act) : (∀ values, set values ∉ acts) ∨
    ∃ before values after, acts = before ++ set values :: after ∧ ∀ vs, set vs ∉ after := by
  induction acts with
  | nil => exact .inl fun _ h ↦ nomatch h
  | cons a acts ih =>
    obtain hunset | ⟨before, values, after, rfl, hlast⟩ := ih
    · by_cases ha : ∃ values, a = set values
      · obtain ⟨values, rfl⟩ := ha
        exact .inr ⟨[], values, acts, rfl, hunset⟩
      · refine .inl fun values hmem ↦ ?_
        obtain rfl | hmem := List.mem_cons.mp hmem
        · exact ha ⟨values, rfl⟩
        · exact hunset values hmem
    · exact .inr ⟨a :: before, values, after, rfl, hlast⟩

theorem leaves_foldl (args : List Value) (acts : List Act) : Leaves args acts (acts.foldl on args) := by
  obtain hunset | ⟨before, values, after, rfl, hlast⟩ := unset_or_last_set acts
  · rw [foldl_on_of_unset hunset]
    exact .untouched hunset
  · rw [List.foldl_append, List.foldl_cons, on, foldl_on_of_unset hlast]
    exact .set before values hlast

theorem Faithful.count_eq {n m : Nat} {window : List Value} {acts : List Act} (h : Faithful n window acts)
    (hm : .count m ∈ acts) : m = n := by
  induction h with
  | nil => cases hm
  | count rest ih =>
    cases hm with
    | head => rfl
    | tail _ hm => exact ih hm
  | read i rest ih | set rest ih | push rest ih =>
    cases hm with
    | tail _ hm => exact ih hm

/-- What is read before anything is written is what was there at first. -/
theorem Faithful.read_eq {n i : Nat} {v : Value} {window : List Value} {before after : List Act}
    (h : Faithful n window (before ++ .read i v :: after)) (hbefore : ∀ a ∈ before, ¬ a.Writes) :
    v = if i < n then window.getD i .nil else .nil := by
  induction before with
  | nil =>
    cases h with
    | read => rfl
  | cons a before ih =>
    have hrest : ∀ a ∈ before, ¬ a.Writes := fun b hb ↦ hbefore b (.tail _ hb)
    have ha : ¬ a.Writes := hbefore a (.head _)
    cases h with
    | count rest => exact ih rest hrest
    | read _ rest => exact ih rest hrest
    | set => exact absurd trivial ha
    | push => exact absurd trivial ha

end Act

/-! ### Calls made on the way -/

/-- From the start of a builtin in `s`, with the calls it made on the way: what it has done to its window,
and how its last part ended. Each of the calls has left the stack as it was. -/
inductive Facade.Serves (natives : Array Native) {b : Native} (f : Facade b) (s : State) :
    List Act → EStateM.Result RuntimeError State Outcome → Prop
  | start : Serves natives f s (f.first.acts s) (b.start s)
  | resume {acts : List Act} {callee : Value} {args : List Value} {memo : Memo} {w x : State} {n : Nat}
      {result : Except RuntimeError (List Value)}
      (asked : Serves natives f s acts (.ok (.invoke callee args memo) w))
      (ends : CallEnds natives callee args (Transition.remember memo w) n result x)
      (restores : x.stack = w.stack) :
      Serves natives f s (acts ++ (f.next memo result).acts x) (b.resume memo result x)

section

variable {natives : Array Native} {call : NativeCall} {rest : List Activation} {low : Array Value}
  {window args : List Value} {s t : State}

theorem State.Serving.remember (h : s.Serving call rest low window) (memo : Memo) :
    (Transition.remember memo s).Serving { call with memo } rest low window := by
  have hremember : Transition.remember memo s =
      { s with activations := .native { call with memo } :: rest } := by
    rw [Transition.remember, h.calls]
  rw [hremember]
  exact ⟨rfl, h.base, h.stack⟩

/-- What is in the window when a builtin ends is what it gives. -/
theorem State.Serving.nativeResults (h : s.Serving call rest low window) :
    Transition.nativeResults s = Transition.giveResults window call.expected
      ({ s with activations := rest }.truncate (call.base - 1)) := by
  have hresults : (s.stack.extract call.base s.stack.size).toList = window := by
    rw [h.stack, h.base, extract_appendList]
  rw [Transition.nativeResults, h.calls]
  dsimp only
  rw [hresults]

/-- What lies below the callee. -/
theorem State.Serving.shrink_callee {callee : Value} (h : s.Serving call rest (low.push callee) window) :
    s.stack.shrink (call.base - 1) = low := by
  have hsplit : s.stack = low ++ (callee :: window) := by
    rw [h.stack]
    simp
  rw [hsplit, h.base, Array.size_push, Nat.add_sub_cancel, shrink_appendList]

/-- They go to the place of the callee. -/
theorem State.Serving.nativeResults_callee {callee : Value} (h : s.Serving call rest (low.push callee) window) :
    Transition.nativeResults s =
      Transition.giveResults window call.expected { s with activations := rest, stack := low } := by
  rw [h.nativeResults]
  exact congrArg (fun stack ↦ Transition.giveResults window call.expected { s with activations := rest, stack })
    h.shrink_callee

/-- A call that a builtin made gives it back its window. -/
theorem State.Serving.of_callEnds (hnatives : ∀ b ∈ natives, b.Contained) (h : s.Serving call rest low window)
    {callee : Value} {n : Nat} {result : Except RuntimeError (List Value)}
    (hends : CallEnds natives callee args s n result t) (hstack : t.stack = s.stack) :
    t.Serving call rest low window := by
  have hhost : ¬ IsGuest s.activations := by
    rw [h.calls]
    exact id
  have hback := hends.back_of_spares hnatives hhost (Nat.zero_le _) fun _ _ _ _ ↦ Nat.zero_le _
  exact ⟨hback.calls.trans h.calls, h.base, hstack.trans h.stack⟩

theorem Facade.Serves.serving (hnatives : ∀ b ∈ natives, b.Contained) {b : Native} {f : Facade b}
    {acts : List Act} {r : EStateM.Result RuntimeError State Outcome}
    (h : f.Serves natives s acts r) (hs : s.Serving call rest low args) :
    (∃ memo, (final r).Serving { call with memo } rest low (acts.foldl Act.on args)) ∧
      Act.Faithful call.argCount args acts := by
  induction h with
  | start =>
    obtain ⟨hserving, hfaithful⟩ := f.first.serving hs
    rw [← f.start] at hserving
    exact ⟨⟨call.memo, hserving⟩, hfaithful⟩
  | @resume acts callee cargs memo w x n result _ hends hstack ih =>
    obtain ⟨⟨_, hw⟩, hfaithful⟩ := ih
    have hcalling := State.Serving.remember hw memo
    have hstack' : x.stack = (Transition.remember memo w).stack := hstack.trans (hw.stack.trans hcalling.stack.symm)
    have hx := hcalling.of_callEnds hnatives hends hstack'
    obtain ⟨hserving, hlater⟩ := (f.next memo result).serving hx
    rw [← f.resume] at hserving
    rw [List.foldl_append]
    exact ⟨⟨memo, hserving⟩, hfaithful.append hlater⟩

/-! ### The way back -/

theorem Transition.guestError_apply (e : RuntimeError) (s : State) :
    ∃ t, guestError e s = .next (.deliver (.error e)) t ∧ t.activations.length ≤ s.activations.length := by
  obtain ⟨location, hlocation⟩ := noteLocation_eq s
  refine ⟨_, rfl, ?_⟩
  rw [hlocation]
  exact length_unwind _ _

/-- Results go to the stack of a guest function. -/
theorem Transition.giveResults_of_isGuest (hguest : IsGuest s.activations) (results : List Value)
    (expected : Option Nat) : giveResults results expected s =
      match pushAll (adjusted results expected) (counted results expected s) with
      | .ok _ t => .next .execute t
      | .error e t => guestError e t := by
  obtain ⟨f, rest, hcalls⟩ := exists_of_isGuest hguest
  have hplace := placeResults_eq (s := s) results expected
  unfold giveResults
  rw [hcalls]
  cases hpush : pushAll (adjusted results expected) (counted results expected s) with
  | ok _ t => simp only [hplace, hpush]
  | error e t => simp only [hplace, hpush]

theorem Transition.giveResults_of_waits (hwaits : ¬ IsGuest s.activations) (results : List Value)
    (expected : Option Nat) : giveResults results expected s = .next (.deliver (.ok results)) s := by
  unfold giveResults
  split
  · next hcalls =>
    rw [hcalls] at hwaits
    exact absurd trivial hwaits
  · rfl

theorem Transition.giveResults_guest (hguest : IsGuest s.activations) (results : List Value)
    (expected : Option Nat) : ∃ m t, giveResults results expected s = .next m t ∧
      t.activations.length ≤ s.activations.length := by
  have hcalls := pushAll_activations (adjusted results expected) (counted results expected s)
  have hcounted : (counted results expected s).activations = s.activations := by cases expected <;> rfl
  rw [hcounted] at hcalls
  rw [giveResults_of_isGuest hguest]
  cases hpush : pushAll (adjusted results expected) (counted results expected s) with
  | ok _ t =>
    rw [hpush] at hcalls
    exact ⟨.execute, t, rfl, Nat.le_of_eq (congrArg List.length hcalls)⟩
  | error e t =>
    rw [hpush, final_error] at hcalls
    obtain ⟨u, hu, hlength⟩ := guestError_apply e t
    exact ⟨_, u, hu, hcalls ▸ hlength⟩

theorem Transition.nativeError_guest (hcalls : s.activations = .native call :: rest) (hguest : IsGuest rest)
    (e : RuntimeError) : ∃ t, nativeError e s = .next (.deliver (.error e)) t ∧
      t.activations.length ≤ rest.length := by
  rw [nativeError, hcalls]
  cases rest with
  | nil => exact hguest.elim
  | cons a calls =>
    cases a with
    | guest frame => exact guestError_apply e { s with activations := .guest frame :: calls }
    | native => exact hguest.elim

/-- Where no function waits the error goes to whoever does, and the stack is as before the call. -/
theorem Transition.nativeError_waits {callee : Value} (h : s.Serving call rest (low.push callee) args)
    (hwaits : ¬ IsGuest rest) (e : RuntimeError) : nativeError e s =
      .next (.deliver (.error e)) { s with activations := rest, stack := low } := by
  rw [nativeError, h.calls]
  dsimp only
  split
  · exact absurd trivial hwaits
  · rw [State.truncate, h.shrink_callee]

/-- A call that goes on is back before no more are active than when it was made. -/
theorem back_of_inside (hnatives : ∀ b ∈ natives, b.Contained) (hhost : ¬ IsGuest s.activations)
    {d : Nat} {m m' : Mode} {v : State} (h : Inside s 0 m t) (hrun : run natives d m t = .running m' v)
    (hback : v.activations.length ≤ s.activations.length) : ∃ n ≤ d, ∃ result x,
      run natives n m t = .running (.deliver result) x ∧ x.activations = s.activations ∧
        (∀ k m₁ u, k < n → run natives k m t = .running m₁ u → s.activations.length < u.activations.length) ∧
        run natives (d - n) (.deliver result) x = .running m' v := by
  have hlive := h.calls.length_lt
  induction d generalizing m t with
  | zero =>
    cases hrun
    omega
  | succ d ih =>
    have hgood := good_step hhost (Nat.zero_le _) hnatives h fun _ ↦ Nat.zero_le _
    cases hstep : step natives m t with
    | halt =>
      rw [hstep] at hgood
      exact hgood.elim
    | next m₁ t₁ =>
      have hshift := run_of_next hstep
      rw [hshift] at hrun
      rw [hstep] at hgood
      obtain hin | ⟨⟨result, rfl⟩, hcalls, -, -⟩ := hgood
      · obtain ⟨n, hn, result, x, hend, hcalls, hfirst, hafter⟩ := ih hin hrun hin.calls.length_lt
        refine ⟨n + 1, by omega, result, x, (hshift n).trans hend, hcalls, fun k m u hk hu ↦ ?_, ?_⟩
        · cases k with
          | zero =>
            cases hu
            exact hlive
          | succ k => exact hfirst k m u (by omega) ((hshift k).symm.trans hu)
        · rwa [Nat.add_sub_add_right]
      · refine ⟨1, by omega, result, t₁, hshift 0, hcalls, fun k m u hk hu ↦ ?_, hrun⟩
        obtain rfl : k = 0 := by omega
        cases hu
        exact hlive

/-- A run that started with a call and has come back to where it was made, or further, has seen the call end. -/
theorem callEnds_of_running (hnatives : ∀ b ∈ natives, b.Contained) (hhost : ¬ IsGuest s.activations)
    {callee : Value} {d : Nat} {m : Mode} {v : State} (hd : 0 < d)
    (hrun : run natives d (.enter callee args) s = .running m v)
    (hback : v.activations.length ≤ s.activations.length) : ∃ n ≤ d, 0 < n ∧ ∃ result x,
      CallEnds natives callee args s n result x ∧ run natives (d - n) (.deliver result) x = .running m v := by
  have hgood : Good s 0 (step natives (.enter callee args) s) :=
    good_hostCall hhost (Nat.zero_le _) hnatives (.inl ⟨rfl, rfl⟩) hhost (.refl (Nat.zero_le _)) callee args
  obtain ⟨d, rfl⟩ := Nat.exists_eq_succ_of_ne_zero (Nat.ne_of_gt hd)
  cases hstep : step natives (.enter callee args) s with
  | halt =>
    rw [hstep] at hgood
    exact hgood.elim
  | next m₁ t₁ =>
    have hshift := run_of_next hstep
    rw [hshift] at hrun
    rw [hstep] at hgood
    obtain hin | ⟨⟨result, rfl⟩, hcalls, -, -⟩ := hgood
    · obtain ⟨n, hn, result, x, hend, hcalls, hfirst, hafter⟩ := back_of_inside hnatives hhost hin hrun hback
      refine ⟨n + 1, by omega, Nat.succ_pos n, result, x, ⟨?_, Nat.le_of_eq (congrArg _ hcalls), ?_⟩, ?_⟩
      · rw [callValue, hshift, hend]
      · intro k m' u hpos hk hu
        obtain ⟨k, rfl⟩ := Nat.exists_eq_succ_of_ne_zero (Nat.ne_of_gt hpos)
        exact hfirst k m' u (by omega) ((hshift k).symm.trans hu)
      · rwa [Nat.succ_eq_add_one, Nat.add_sub_add_right]
    · exact ⟨1, by omega, Nat.one_pos, result, t₁,
        ⟨hshift 0, Nat.le_of_eq (congrArg _ hcalls), fun k _ _ _ _ ↦ by omega⟩, hrun⟩

end

/-- The instruction in `s` called something that has come back after `n` steps, for the first time, to the
function that called it. -/
structure CallReturns (natives : Array Native) (s : State) (n : Nat) (v : State) : Prop where
  ran : run natives n .execute s = .running .execute v
  moved : 0 < n
  back : v.activations.length ≤ s.activations.length
  first : ∀ k m u, 0 < k → k < n → run natives k .execute s = .running m u →
    s.activations.length < u.activations.length

section

variable {natives : Array Native} (hnatives : ∀ b ∈ natives, b.Contained) {call : NativeCall}
  {rest : List Activation} {low : Array Value} {args : List Value} {s : State}

include hnatives

/-- A builtin that a guest function called and that comes back to it has finished, and has made only
calls that ended. -/
theorem Facade.Serves.finishes {b : Native} {f : Facade b} (hs : s.Serving call rest low args)
    (hslot : natives[call.native]? = some b) (hguest : IsGuest rest) {d : Nat} {m : Mode} {u v : State}
    {acts : List Act} {r : EStateM.Result RuntimeError State Outcome} (h : f.Serves natives s acts r)
    (hstep : step natives m u = Transition.afterNative r) (hd : 0 < d)
    (hrun : run natives d m u = .running .execute v) (hback : v.activations.length ≤ rest.length)
    (hfirst : ∀ k m' x, 0 < k → k < d → run natives k m u = .running m' x →
      rest.length < x.activations.length)
    (hrestores : ∀ k callee cargs w j result x, run natives k m u = .running (.enter callee cargs) w →
      w.activations.length = rest.length + 1 → CallEnds natives callee cargs w j result x → k + j < d →
      x.stack = w.stack) :
    ∃ acts' w, f.Serves natives s acts' (.ok .finished w) ∧
      Transition.afterNative (.ok .finished w) = .next .execute v := by
  induction d using Nat.strong_induction_on generalizing m u acts r with
  | _ d ih =>
  -- a step that leaves the builtin is the last one
  have hlast {m₁ : Mode} {x₁ : State} (hnext : step natives m u = .next m₁ x₁)
      (hlow : x₁.activations.length ≤ rest.length) : m₁ = .execute ∧ x₁ = v := by
    have hone := run_of_next hnext 0
    obtain rfl | hmore : d = 1 ∨ 1 < d := by omega
    · rw [hone] at hrun
      cases hrun
      exact ⟨rfl, rfl⟩
    · exact absurd (hfirst 1 m₁ x₁ Nat.one_pos hmore hone) (by omega)
  obtain ⟨⟨memo₀, hw⟩, -⟩ := h.serving hnatives hs
  cases r with
  | error e w =>
    obtain ⟨x, hx, hlow⟩ := Transition.nativeError_guest hw.calls hguest e
    obtain ⟨hmode, -⟩ := hlast (hstep.trans hx) hlow
    cases hmode
  | ok outcome w =>
    cases outcome with
    | finished =>
      obtain ⟨m₁, x, hx, hlow⟩ := Transition.giveResults_guest
        (s := { w with activations := rest }.truncate (call.base - 1)) hguest (acts.foldl Act.on args) call.expected
      have hnext : Transition.afterNative (.ok .finished w) = .next m₁ x := hw.nativeResults.trans hx
      obtain ⟨rfl, rfl⟩ := hlast (hstep.trans hnext) hlow
      exact ⟨acts, w, h, hnext⟩
    | invoke callee cargs memo =>
      have hcalling : (Transition.remember memo w).Serving { call with memo } rest low (acts.foldl Act.on args) :=
        State.Serving.remember hw memo
      have hnext : step natives m u = .next (.enter callee cargs) (Transition.remember memo w) := hstep
      have hlength : (Transition.remember memo w).activations.length = rest.length + 1 := by
        rw [hcalling.calls]
        rfl
      have hhost : ¬ IsGuest (Transition.remember memo w).activations := by
        rw [hcalling.calls]
        exact id
      obtain ⟨d, rfl⟩ := Nat.exists_eq_succ_of_ne_zero (Nat.ne_of_gt hd)
      have hrest := (run_of_next hnext d).symm.trans hrun
      have hpos : 0 < d := by
        cases d with
        | zero => cases hrest
        | succ d => exact Nat.succ_pos d
      obtain ⟨n, hn, hn₀, result, x, hends, hafter⟩ :=
        callEnds_of_running hnatives hhost hpos hrest (by omega)
      have hleft : 0 < d - n := by
        cases hleft : d - n with
        | zero =>
          rw [hleft] at hafter
          cases hafter
        | succ => exact Nat.succ_pos _
      have hstack := hrestores 1 callee cargs _ n result x (run_of_next hnext 0) hlength hends (by omega)
      have hx := hcalling.of_callEnds hnatives hends hstack
      have hto : run natives (1 + n) m u = .running (.deliver result) x :=
        (run_of_running (run_of_next hnext 0) n).trans hends.ran
      have hresumed : step natives (.deliver result) x = Transition.afterNative (b.resume memo result x) := by
        rw [step, Transition.handOver, hx.calls]
        dsimp only
        rw [hslot]
      have hrestored : x.stack = w.stack := hstack.trans (hcalling.stack.trans hw.stack.symm)
      refine ih (d - n) (by omega) (h.resume hends hrestored) hresumed hleft hafter
        (fun k m' y hk hkd hy ↦ ?_) fun k callee cargs y j result z hy hlength hends hkd ↦ ?_
      · exact hfirst (1 + n + k) m' y (by omega) (by omega) ((run_of_running hto k).trans hy)
      · exact hrestores (1 + n + k) callee cargs y j result z ((run_of_running hto k).trans hy) hlength hends
          (by omega)

end

theorem Machine.instruction_guest {d : Demand} {s t : State} (h : instruction s = .ok d t) : IsGuest s.activations := by
  rw [instruction_apply] at h
  cases hcalls : s.activations with
  | nil =>
    rw [hcalls] at h
    cases h
  | cons a rest =>
    cases a with
    | guest frame => trivial
    | native call =>
      rw [hcalls] at h
      cases h

theorem Machine.sameCalls_instruction {d : Demand} {s t : State} (h : instruction s = .ok d t) :
    SameCalls s.activations t.activations := by
  have hsame := (usesAt_instruction s).calls
  rwa [h, final_ok] at hsame

theorem Machine.stack_of_call {s t : State} {argCount : Nat} {expected : Option Nat}
    (h : instruction s = .ok (.call argCount expected) t) : t.stack = s.stack := by
  rw [(instruction_call h).1, advance_stack]

theorem SameCalls.length_eq {calls calls' : List Activation} (h : SameCalls calls calls') :
    calls'.length = calls.length := by
  cases h <;> rfl

theorem SameCalls.isGuest {calls calls' : List Activation} (h : SameCalls calls calls') (hguest : IsGuest calls) :
    IsGuest calls' := by
  cases h with
  | refl => exact hguest
  | guest => trivial

/-- A builtin that a guest function has just called, with its arguments from `base` on. -/
def State.entering (s : State) (native : Nat) (b : Native) (base : Nat) (args : List Value)
    (expected : Option Nat) : State :=
  { s with activations := .native ⟨native, b.name, base, args.length, expected, .nothing⟩ :: s.activations }

/-- Each call that the builtin called in `s` makes on its way, over `n` steps, leaves the stack as it was. -/
def CallsRestore (natives : Array Native) (s : State) (n : Nat) : Prop :=
  ∀ k callee args w j result x, run natives k .execute s = .running (.enter callee args) w →
    w.activations.length = s.activations.length + 1 → CallEnds natives callee args w j result x → k + j < n →
    x.stack = w.stack

section

variable {natives : Array Native} {low : Array Value} {native : Nat} {args results : List Value}
  {expected : Option Nat} {s t v : State} {b : Native}

/-- A callee lies below its arguments. -/
theorem exists_callee {stack : Array Value} {callee : Value} {argCount : Nat} (hargs : argCount + 1 ≤ stack.size)
    (hcallee : stack.getD (stack.size - (argCount + 1)) .nil = callee) : ∃ (low : Array Value) (args : List Value),
    stack = low.push callee ++ args ∧ args.length = argCount := by
  have hfloor : stack.size - (argCount + 1) < stack.toList.length := by
    rw [Array.length_toList]
    omega
  refine ⟨(stack.toList.take (stack.size - (argCount + 1))).toArray,
    stack.toList.drop (stack.size - (argCount + 1) + 1), ?_, ?_⟩
  · apply Array.ext'
    have hget : callee = stack.toList[stack.size - (argCount + 1)] := by
      rw [← hcallee, Array.getD_eq_getD_getElem?, ← Array.getElem?_toList, List.getElem?_eq_getElem hfloor]
      rfl
    rw [Array.toList_appendList, Array.toList_push, hget, List.append_assoc, List.singleton_append,
      ← List.drop_eq_getElem_cons, List.take_append_drop]
  · rw [List.length_drop, Array.length_toList]
    omega

theorem guestCall_native (hstack : s.stack = low.push (.native native) ++ args)
    (hb : natives[native]? = some b) : Transition.guestCall natives args.length expected s =
      if s.options.maxCallDepth ≤ s.activations.length then Transition.guestError .stackOverflow s
      else Transition.afterNative (b.start (s.entering native b (low.size + 1) args expected)) := by
  have hsize : s.stack.size = low.size + 1 + args.length := by
    rw [hstack, size_appendList, Array.size_push]
  have hfloor : s.stack.size - (args.length + 1) = low.size := by omega
  have hcallee : s.stack.getD low.size .nil = .native native := by
    have hget : s.stack[low.size]? = some (.native native) := by
      rw [hstack, ← Array.getElem?_toList, Array.toList_appendList]
      simp
    rw [Array.getD_eq_getD_getElem?, hget]
    rfl
  unfold Transition.guestCall
  rw [if_neg (by omega), hfloor]
  dsimp only
  rw [hcallee]
  dsimp only
  rw [enterNative_apply hb]
  by_cases hdepth : s.options.maxCallDepth ≤ s.activations.length
  · rw [if_pos hdepth, if_pos hdepth]
  · rw [if_neg hdepth, if_neg hdepth]
    rfl

theorem Transition.giveResults_eq_execute (h : giveResults results expected s = .next .execute v) :
    v.activations = s.activations ∧ v.stack = s.stack ++ adjusted results expected := by
  unfold giveResults at h
  split at h
  · rw [placeResults_eq] at h
    split at h
    · next u hplace =>
      cases h
      rw [pushAll_eq_ok hplace]
      cases expected <;> exact ⟨rfl, rfl⟩
    · cases h
  · cases h

/-- What a builtin that finished has left goes to the place of its callee slot. -/
theorem returns_of_finishes {call : NativeCall} {rest : List Activation} {window : List Value}
    (hserving : s.Serving call rest (low.push (.native native)) window)
    (h : Transition.afterNative (.ok .finished s) = .next .execute v) :
    v.activations = rest ∧ v.stack = low ++ adjusted window call.expected := by
  have hgives := hserving.nativeResults_callee.symm.trans h
  exact Transition.giveResults_eq_execute hgives

theorem serves_of_callReturns (hnatives : ∀ b ∈ natives, b.Contained) (f : Facade b)
    (hb : natives[native]? = some b) (hstack : s.stack = low.push (.native native) ++ args)
    (hcall : instruction s = .ok (.call args.length expected) t) {n : Nat} (hreturns : CallReturns natives s n v)
    (hrestore : CallsRestore natives s n) : ∃ acts w,
      f.Serves natives (t.entering native b (low.size + 1) args expected) acts (.ok .finished w) ∧
        Transition.afterNative (.ok .finished w) = .next .execute v := by
  have hsame := sameCalls_instruction hcall
  have hguest := hsame.isGuest (instruction_guest hcall)
  have hlength := hsame.length_eq
  have hstack' : t.stack = low.push (.native native) ++ args := (stack_of_call hcall).trans hstack
  have hstep : step natives .execute s = Transition.guestCall natives args.length expected t := by rw [step, hcall]
  rw [guestCall_native hstack' hb] at hstep
  by_cases hdepth : t.options.maxCallDepth ≤ t.activations.length
  · rw [if_pos hdepth] at hstep
    obtain ⟨u, hu, hlow⟩ := Transition.guestError_apply .stackOverflow t
    have hone := run_of_next (hstep.trans hu) 0
    have hran := hreturns.ran
    obtain hone' | hmore : n = 1 ∨ 1 < n := by have := hreturns.moved; omega
    · rw [hone', hone] at hran
      cases hran
    · exact absurd (hreturns.first 1 _ u Nat.one_pos hmore hone) (by omega)
  · rw [if_neg hdepth] at hstep
    have hserving : (t.entering native b (low.size + 1) args expected).Serving
        ⟨native, b.name, low.size + 1, args.length, expected, .nothing⟩ t.activations
        (low.push (.native native)) args := ⟨rfl, (Array.size_push _).symm, hstack'⟩
    refine Facade.Serves.finishes hnatives hserving hb hguest .start hstep hreturns.moved hreturns.ran
      (hlength ▸ hreturns.back) (fun k m x hk hkn hx ↦ ?_) fun k callee cargs w j result x hw hdeep hends hkn ↦ ?_
    · rw [hlength]
      exact hreturns.first k m x hk hkn hx
    · exact hrestore k callee cargs w j result x hw (hlength ▸ hdeep) hends hkn

end

/-- A builtin made of stretches, started with any arguments on top of any stack. Whatever it does and calls on
its way, it counts its arguments, and until it writes to its window it reads them, and nil past the last
one. When it finishes, its results are the values it put in their place last, or the arguments, and all
that it added after that. A call instruction that comes back to the function that made it has put these
results, as many as expected, where its callee was. -/
theorem native_window {natives : Array Native} (hnatives : ∀ b ∈ natives, Nonempty (Facade b)) {b : Native}
    (f : Facade b) :
    (∀ {call : NativeCall} {rest : List Activation} {low : Array Value} {args : List Value} {s : State}
        {acts : List Act} {r : EStateM.Result RuntimeError State Outcome},
      s.Serving call rest low args → call.argCount = args.length → f.Serves natives s acts r →
        (∀ n, .count n ∈ acts → n = args.length) ∧
        (∀ before i v after, acts = before ++ .read i v :: after → (∀ a ∈ before, ¬ a.Writes) →
          v = args.getD i .nil) ∧
        ∀ w, r = .ok .finished w → ∃ results, Act.Leaves args acts results ∧
          Transition.afterNative r = .giveResults results call.expected
            ({ w with activations := rest }.truncate (call.base - 1))) ∧
      ∀ {low : Array Value} {native : Nat} {args : List Value} {expected : Option Nat} {s t v : State} {n : Nat},
        natives[native]? = some b → s.stack = low.push (.native native) ++ args →
        instruction s = .ok (.call args.length expected) t → CallReturns natives s n v →
        CallsRestore natives s n →
          ∃ acts w results, f.Serves natives (t.entering native b (low.size + 1) args expected) acts
              (.ok .finished w) ∧
            Act.Leaves args acts results ∧ v.activations = t.activations ∧
            v.stack = low ++ adjusted results expected := by
  have hcontained : ∀ b ∈ natives, b.Contained := by
    intro b hb
    obtain ⟨g⟩ := hnatives b hb
    exact g.contained
  refine ⟨?_, ?_⟩
  · intro call rest low args s acts r hs hcount hserves
    obtain ⟨⟨memo, hserving⟩, hfaithful⟩ := hserves.serving hcontained hs
    rw [hcount] at hfaithful
    refine ⟨fun n ↦ hfaithful.count_eq, ?_, ?_⟩
    · intro before i v after hacts hbefore
      have hread := (hacts ▸ hfaithful).read_eq hbefore
      rw [hread, ite_eq_left_iff]
      intro hi
      rw [List.getD_eq_default _ _ (Nat.le_of_not_lt hi)]
    · intro w hr
      subst hr
      exact ⟨_, Act.leaves_foldl args acts, hserving.nativeResults⟩
  · intro low native args expected s t v n hb hstack hcall hreturns hrestore
    obtain ⟨acts, w, hserves, hfinishes⟩ :=
      serves_of_callReturns hcontained f hb hstack hcall hreturns hrestore
    have hstart : (t.entering native b (low.size + 1) args expected).Serving
        ⟨native, b.name, low.size + 1, args.length, expected, .nothing⟩ t.activations
        (low.push (.native native)) args :=
      ⟨rfl, (Array.size_push _).symm, (stack_of_call hcall).trans hstack⟩
    obtain ⟨⟨memo, hserving⟩, -⟩ := hserves.serving hcontained hstart
    obtain ⟨hcalls, hleft⟩ := returns_of_finishes hserving hfinishes
    exact ⟨acts, w, _, hserves, Act.leaves_foldl args acts, hcalls, hleft⟩

/-- Calls its first argument and gives what that gave, with its second argument added. -/
def applied : Native where
  name := "applied"
  start := do return .invoke (← arg 0) [] .nothing
  resume _ result := do
    let results ← lift result
    let kept ← arg 1
    setResults results
    addResult kept
    return .finished

def appliedFacade : Facade applied where
  first := .read 0 fun callee ↦ .done (.invoke callee [] .nothing)
  next _ result := .aside (lift result) inferInstance fun results ↦
    .read 1 fun kept ↦ .set results (.push kept (.done .finished))
  start := rfl
  resume _ _ := rfl

/-- A function about to call `applied` with a function and a number, for three results. -/
def applyingState : State :=
  let caller : Prototype := ⟨"caller", 0, false, 0, #[⟨Opcode.call.byte, 2, 0, 4⟩], #[], #[], #[], #[]⟩
  let one : Prototype := ⟨"one", 0, false, 0, #[⟨Opcode.loadTrue.byte, 0, 0, 0⟩, ⟨Opcode.ret.byte, 1, 0, 0⟩],
    #[], #[], #[], #[]⟩
  { State.start ⟨9, 9⟩ .empty true with
    heap := ⟨.empty, #[], #[caller, one], #[⟨0, 0, #[]⟩, ⟨1, 0, #[]⟩], #[]⟩
    stack := #[.int 5, .native 0, .closure 1, .int 9]
    activations := [.guest ⟨0, 0, 0, #[], [], none⟩] }

/-- `applied` has asked for its call. -/
def askedState : State :=
  { applyingState with
    activations := [.native ⟨0, "applied", 2, 2, some 3, .nothing⟩, .guest ⟨0, 1, 0, #[], [], none⟩] }

/-- The call that `applied` made is at an instruction. -/
def insideState (ip : Nat) (stack : Array Value) : State :=
  { askedState with
    stack
    activations := .guest ⟨1, ip, 4, #[], [], none⟩ :: askedState.activations }

/-- It puts what the call gave in the place of its arguments and adds the number to it; the third result is
nil. -/
theorem native_window_applied : ∃ t v acts w results,
    applyingState.stack = (#[.int 5] : Array Value).push (.native 0) ++ ([.closure 1, .int 9] : List Value) ∧
    instruction applyingState = .ok (.call 2 (some 3)) t ∧ CallReturns #[applied] applyingState 5 v ∧
    CallsRestore #[applied] applyingState 5 ∧
    appliedFacade.Serves #[applied] (t.entering 0 applied 2 [.closure 1, .int 9] (some 3)) acts
      (.ok .finished w) ∧
    Act.Leaves [.closure 1, .int 9] acts results ∧ v.activations = t.activations ∧
    v.stack = (#[.int 5] : Array Value) ++ adjusted results (some 3) ∧
    v.stack = #[.int 5, .bool true, .int 9, .nil] := by
  have hnatives : ∀ b ∈ #[applied], Nonempty (Facade b) := by
    intro b hb
    obtain rfl := Array.mem_singleton.mp hb
    exact ⟨appliedFacade⟩
  have hask (n : Nat) : run #[applied] (n + 1) .execute applyingState =
      run #[applied] n (.enter (.closure 1) []) askedState := run_of_next rfl n
  have henter (n : Nat) : run #[applied] (n + 1) (.enter (.closure 1) []) askedState =
      run #[applied] n .execute (insideState 0 askedState.stack) := run_of_next rfl n
  have hload (n : Nat) : run #[applied] (n + 1) .execute (insideState 0 askedState.stack) =
      run #[applied] n .execute (insideState 1 (askedState.stack.push (.bool true))) := run_of_next rfl n
  have hleave (n : Nat) : run #[applied] (n + 1) .execute (insideState 1 (askedState.stack.push (.bool true))) =
      run #[applied] n (.deliver (.ok [.bool true])) askedState := run_of_next rfl n
  have hfinish (n : Nat) : run #[applied] (n + 1) (.deliver (.ok [.bool true])) askedState =
      run #[applied] n .execute { applyingState with
        stack := #[.int 5, .bool true, .int 9, .nil]
        activations := [.guest ⟨0, 1, 0, #[], [], none⟩] } := run_of_next rfl n
  have hreturns : CallReturns #[applied] applyingState 5 { applyingState with
      stack := #[.int 5, .bool true, .int 9, .nil]
      activations := [.guest ⟨0, 1, 0, #[], [], none⟩] } := by
    refine ⟨by rw [hask, henter, hload, hleave, hfinish, run], by decide, Nat.le_refl 1, fun k m u hk hk' hu ↦ ?_⟩
    obtain rfl | rfl | rfl | rfl : k = 1 ∨ k = 2 ∨ k = 3 ∨ k = 4 := by omega
    · rw [hask] at hu
      cases hu
      exact Nat.lt_succ_self 1
    · rw [hask, henter] at hu
      cases hu
      exact Nat.lt_add_of_pos_right Nat.two_pos
    · rw [hask, henter, hload] at hu
      cases hu
      exact Nat.lt_add_of_pos_right Nat.two_pos
    · rw [hask, henter, hload, hleave] at hu
      cases hu
      exact Nat.lt_succ_self 1
  have hrestore : CallsRestore #[applied] applyingState 5 := by
    intro k callee args w j result x hw hlength hends hkj
    have hran := hends.ran
    obtain rfl | rfl | rfl | rfl | rfl : k = 0 ∨ k = 1 ∨ k = 2 ∨ k = 3 ∨ k = 4 := by omega
    · cases hw
    · rw [hask] at hw
      cases hw
      rw [callValue] at hran
      obtain rfl | rfl | rfl | rfl : j = 0 ∨ j = 1 ∨ j = 2 ∨ j = 3 := by omega
      · cases hran
      · rw [henter] at hran
        cases hran
      · rw [henter, hload] at hran
        cases hran
      · rw [henter, hload, hleave] at hran
        cases hran
        rfl
    · rw [hask, henter] at hw
      cases hw
    · rw [hask, henter, hload] at hw
      cases hw
    · rw [hask, henter, hload, hleave] at hw
      cases hw
  obtain ⟨t, ht⟩ : ∃ t, instruction applyingState = .ok (.call 2 (some 3)) t := ⟨_, rfl⟩
  have hstart : applyingState.stack = (#[.int 5] : Array Value).push (.native 0) ++
      ([.closure 1, .int 9] : List Value) := rfl
  obtain ⟨-, hcall⟩ := native_window hnatives appliedFacade
  obtain ⟨acts, w, results, hserves, hleaves, hcalls, hstack⟩ := hcall rfl hstart ht hreturns hrestore
  exact ⟨t, _, acts, w, results, hstart, ht, hreturns, hrestore, hserves, hleaves, hcalls, hstack, rfl⟩

end MiniLua
