import MiniLua.Proofs.Calls.Transparent
import MiniLua.Proofs.Machine.Performed
import MiniLua.Proofs.Machine.Sober
import MiniLua.Proofs.Stack.Closures

/-!
The stack as a chain: under what the innermost activation has there lies what the one that called it
left, down to the ground where the calls began.
-/

namespace MiniLua

open Effects Machine

/-- Operands, the top first, of which those that are sure to be tables are. -/
def Fits : List Bool → List Value → Prop :=
  List.Forall₂ fun table v ↦ table = true → ∃ t, v = .table t

theorem Fits.plain {vs : List Value} {n : Nat} (h : vs.length = n) : Fits (List.replicate n false) vs := by
  subst h
  induction vs with
  | nil => exact .nil
  | cons v vs ih => exact .cons (fun h ↦ nomatch h) ih

/-- A frame stands at a point of sound code. -/
structure Frame.At (h : Heap) (f : Frame) (p : Prototype) (P : Point) : Prop where
  code : ((h.closures[f.closure]?).bind fun c ↦ h.protos[c.proto]?) = some p
  sound : Sound p h f.ip P
  slots : p.cellCount ≤ f.cells.size
  cells : ∀ n ∈ P.cells, ∃ cell, f.cells[n]? = some (some cell)

theorem Heap.Conserves.closure {h k : Heap} (g : h.Conserves k) {i : Nat} {c : Closure}
    (hc : h.closures[i]? = some c) :
    ∃ c', k.closures[i]? = some c' ∧ c'.proto = c.proto ∧ c'.upvalues = c.upvalues := by
  have hlink : h.links[i]? = some (c.proto, c.upvalues) := by simp [Heap.links, hc]
  have hlink := g.links hlink
  simp only [Heap.links, Array.getElem?_map, Option.map_eq_some_iff, Prod.mk.injEq] at hlink
  obtain ⟨c', hc', hproto, hupvalues⟩ := hlink
  exact ⟨c', hc', hproto, hupvalues⟩

theorem Frame.At.later {h k : Heap} {f : Frame} {p : Prototype} {P : Point} (hf : f.At h p P)
    (g : h.Conserves k) : f.At k p P := by
  obtain ⟨c, hc, hp⟩ := Option.bind_eq_some_iff.mp hf.code
  obtain ⟨c', hc', hproto, -⟩ := g.closure hc
  refine ⟨?_, hf.sound.later g.protos, hf.slots, hf.cells⟩
  rw [hc', Option.bind_some, hproto]
  exact g.protos hp

/-- Where calls begin: the activations and the stack below, and how many results are wanted. -/
structure Ground where
  activations : List Activation
  stack : Array Value
  expected : Option Nat

/-- The host or a guest function makes the calls. -/
inductive Ground.Firm : Ground → Prop
  | host (stack : Array Value) : Firm ⟨[], stack, none⟩
  | guest (frame : Frame) (rest : List Activation) (stack : Array Value) (expected : Option Nat) :
      Firm ⟨.guest frame :: rest, stack, expected⟩

/-- What lies below a callee, how many results its caller wants, and the activations below. A guest
function waits behind its call; a builtin has its own slot and a window of values. -/
inductive Chain (h : Heap) (natives : Nat) (G : Ground) : Array Value → Option Nat → List Activation → Prop
  | ground : Chain h natives G G.stack G.expected G.activations
  | guest {low : Array Value} {f : Frame} {rest : List Activation} {expected : Option Nat}
      {p : Prototype} {slots : List Bool} {cells : List Nat} {vs : List Value}
      (below : Chain h natives G low f.expected rest) (base : low.size = f.base)
      (waits : f.At h p ⟨List.replicate (expected.getD 0) false ++ slots, cells, expected.isNone⟩)
      (fits : Fits slots vs) : Chain h natives G (low ++ vs.reverse) expected (.guest f :: rest)
  | native {low : Array Value} {c : NativeCall} {rest : List Activation} {callee : Value}
      {window : List Value} (below : Chain h natives G low c.expected rest)
      (base : low.size + 1 = c.base) (known : c.native < natives) :
      Chain h natives G (low ++ (callee :: window)) none (.native c :: rest)

theorem Chain.later {h k : Heap} {natives : Nat} {G : Ground} {low : Array Value}
    {expected : Option Nat} {calls : List Activation}
    (hchain : Chain h natives G low expected calls) (g : h.Conserves k) :
    Chain k natives G low expected calls := by
  induction hchain with
  | ground => exact .ground
  | guest _ base waits fits ih => exact .guest ih base (waits.later g) fits
  | native _ base known ih => exact .native ih base known

/-- A configuration whose stack is a chain that ends in what runs. -/
inductive Orderly (natives : Nat) (G : Ground) : Mode → State → Prop
  | running {l : Array Value} {f : Frame} {rest : List Activation} {p : Prototype} {P : Point}
      {v w : List Value} {s : State} (calls : s.activations = .guest f :: rest)
      (below : Chain s.heap natives G l f.expected rest) (base : l.size = f.base)
      (at_ : f.At s.heap p P) (fits : Fits P.slots v)
      (multi : w.length = if P.multi then s.lastMulti else 0)
      (stack : s.stack = l ++ (v.reverse ++ w)) : Orderly natives G .execute s
  | entering {callee : Value} {args : List Value} {s : State}
      (below : Chain s.heap natives G s.stack none s.activations) (waits : ¬ IsGuest s.activations) :
      Orderly natives G (.enter callee args) s
  | delivering {result : Except RuntimeError (List Value)} {s : State}
      (below : Chain s.heap natives G s.stack none s.activations) (waits : ¬ IsGuest s.activations)
      (sober : ∀ e, result = .error e → ¬ e.Internal) : Orderly natives G (.deliver result) s

/-- A step returns results from the innermost function: what a return took, or what is in the window
of a builtin that has ended. -/
inductive Transition.Returns : Transition → List Value → Prop
  | guest (results : List Value) (s : State) : Returns (guestReturn results s) results
  | native {s : State} {call : NativeCall} {rest : List Activation}
      (top : s.activations = .native call :: rest) :
      Returns (nativeResults s) (s.stack.extract call.base s.stack.size).toList

/-- What comes of a step: calls go on, or they are over. -/
inductive Onward (natives : Nat) (G : Ground) : Transition → Prop
  | next {mode : Mode} {s : State} (h : Orderly natives G mode s) : Onward natives G (.next mode s)
  /-- The host has the outcome. -/
  | halt {result : Except RuntimeError (List Value)} {s : State}
      (sober : ∀ e, result = .error e → ¬ e.Internal) (calls : s.activations = [])
      (stack : s.stack = G.stack) : Onward natives G (.halt result s)
  /-- The caller has the results. -/
  | back {results : List Value} {s : State} (guest : IsGuest s.activations)
      (returns : (Transition.giveResults results G.expected s).Returns results)
      (calls : s.activations = G.activations) (stack : s.stack = G.stack) :
      Onward natives G (Transition.giveResults results G.expected s)
  /-- The caller is lost to an error as well. -/
  | lost {e : RuntimeError} {s : State} (guest : IsGuest G.activations) (sober : ¬ e.Internal)
      (calls : s.activations.length ≤ G.activations.length) :
      Onward natives G (.next (.deliver (.error e)) s)

theorem Transition.length_unwind (floor : Nat) (calls : List Activation) :
    (unwind floor calls).2.length ≤ calls.length := by
  induction calls generalizing floor with
  | nil => exact Nat.le_refl _
  | cons a calls ih =>
    cases a with
    | guest f => exact Nat.le_succ_of_le (ih f.base)
    | native => exact Nat.le_refl _

section

variable {natives : Nat} {G : Ground} (hG : G.Firm) {h : Heap} {low : Array Value}
  {expected : Option Nat} {calls : List Activation}

include hG

/-- An error unwinds guest functions down to a builtin or to the ground. -/
theorem onward_unwind {s : State} (hchain : Chain s.heap natives G low expected calls) {junk : List Value}
    (hstack : s.stack = low ++ junk) {e : RuntimeError} (he : ¬ e.Internal) :
    Onward natives G (.next (.deliver (.error e))
      ({ s with activations := (Transition.unwind low.size calls).2 }.truncate
        (Transition.unwind low.size calls).1)) := by
  have hsober : ∀ e', (.error e : Except RuntimeError (List Value)) = .error e' → ¬ e'.Internal := by
    intro e' heq
    cases heq
    exact he
  induction hchain generalizing junk with
  | ground =>
    cases hG with
    | guest => exact .lost trivial he (Transition.length_unwind _ _)
    | host stack =>
      have hlow : (s.truncate stack.size).stack = stack := by
        rw [State.truncate, hstack, shrink_appendList]
      refine .next (.delivering ?_ id hsober)
      change Chain s.heap natives ⟨[], stack, none⟩ (s.truncate stack.size).stack none []
      rw [hlow]
      exact .ground
  | @guest low f rest _ _ _ _ vs _ base _ _ ih =>
    rw [Transition.unwind, ← base]
    exact ih (by rw [hstack, appendList_append])
  | @native low call rest callee window below base known _ =>
    refine .next (.delivering ?_ id hsober)
    change Chain s.heap natives G (s.truncate (low ++ callee :: window).size).stack none
      (.native call :: rest)
    rw [State.truncate, hstack, shrink_appendList]
    exact .native below base known

theorem onward_guestError {s : State} {f : Frame} {rest : List Activation}
    (hcalls : s.activations = .guest f :: rest) (hchain : Chain s.heap natives G low f.expected rest)
    (hbase : low.size = f.base) {junk : List Value} (hstack : s.stack = low ++ junk)
    {e : RuntimeError} (he : ¬ e.Internal) : Onward natives G (Transition.guestError e s) := by
  obtain ⟨location, hnote⟩ := noteLocation_eq s
  have hunwind := onward_unwind (s := { s with location }) hG hchain hstack he
  simp only [Transition.guestError, hnote, hcalls, Transition.unwind]
  rw [← hbase]
  exact hunwind

/-- The same, for what a function that waits had called. -/
theorem onward_guestError_of_chain {s : State}
    (hchain : Chain s.heap natives G low expected s.activations) (hguest : IsGuest s.activations)
    {junk : List Value} (hstack : s.stack = low ++ junk) {e : RuntimeError} (he : ¬ e.Internal) :
    Onward natives G (Transition.guestError e s) := by
  generalize hcalls : s.activations = calls at hchain hguest
  cases hchain with
  | ground =>
    have hunwind := Transition.length_unwind s.stack.size s.activations
    rw [hcalls] at hunwind
    obtain ⟨location, hnote⟩ := noteLocation_eq s
    simp only [Transition.guestError, hnote, hcalls]
    exact .lost hguest he hunwind
  | native => exact hguest.elim
  | guest below base _ _ =>
    exact onward_guestError hG hcalls below base (by rw [hstack, appendList_append]) he

omit hG in
theorem length_adjusted {vs : List Value} {n : Nat} : (adjusted vs (some n)).length = n := by
  simp [adjusted]

/-- Builtins and the host want all results. -/
theorem expected_of_waits (hchain : Chain h natives G low expected calls) (hwaits : ¬ IsGuest calls) :
    expected = none := by
  cases hchain with
  | ground =>
    cases hG with
    | host => rfl
    | guest => exact absurd trivial hwaits
  | guest => exact absurd trivial hwaits
  | native => rfl

theorem onward_giveResults {vs : List Value} {s : State}
    (hchain : Chain s.heap natives G s.stack expected s.activations)
    (hreturns : (Transition.giveResults vs expected s).Returns vs) :
    Onward natives G (Transition.giveResults vs expected s) := by
  by_cases hguest : IsGuest s.activations
  · generalize hstack : s.stack = stack, hcalls : s.activations = calls at hchain hguest
    cases hchain with
    | native => exact hguest.elim
    | ground => exact .back (hcalls ▸ hguest) hreturns hcalls hstack
    | @guest low f rest _ p slots cells operands below base waits fits =>
      simp only [Transition.giveResults, hcalls, placeResults_eq]
      have hcounted : counted vs expected s = { s with lastMulti := (counted vs expected s).lastMulti } := by
        cases expected <;> rfl
      obtain hplaced | ⟨pushed, hplaced⟩ :=
        pushAll_cases (adjusted vs expected) (counted vs expected s)
      · rw [hplaced, hcounted]
        dsimp only
        cases expected with
        | some n =>
          refine .next (.running hcalls below base waits
            (List.rel_append (Fits.plain ?_) fits) (v := (adjusted vs (some n)).reverse ++ operands) (w := []) rfl ?_)
          · simp [length_adjusted]
          · simp [hstack, appendList_append]
        | none =>
          refine .next (.running hcalls below base waits fits (w := vs) rfl ?_)
          simp [hstack, adjusted, appendList_append]
      · rw [hplaced, hcounted]
        have hjunk : s.stack ++ pushed = low ++ (operands.reverse ++ pushed) := by
          rw [hstack, appendList_append]
        have hsober : ¬ RuntimeError.stackOverflow.Internal := id
        refine @onward_guestError natives G hG low _ f rest ?_ ?_ base _ hjunk _ hsober
        · exact hcalls
        · exact below
  · have hdeliver : Transition.giveResults vs expected s = .next (.deliver (.ok vs)) s := by
      unfold Transition.giveResults
      split
      · next h => exact absurd (by rw [h]; trivial) hguest
      · rfl
    rw [hdeliver]
    obtain rfl := expected_of_waits hG hchain hguest
    refine .next (.delivering hchain hguest fun e h ↦ ?_)
    cases h

section

variable {s : State} {call : NativeCall} {rest : List Activation} {callee : Value}
  {window : List Value} (hcalls : s.activations = .native call :: rest)
  (hchain : Chain s.heap natives G low call.expected rest) (hbase : low.size + 1 = call.base)
  (hstack : s.stack = low ++ (callee :: window))

include hcalls hchain hbase hstack

theorem onward_nativeResults : Onward natives G (Transition.nativeResults s) := by
  have hlow : ({ s with activations := rest }.truncate (call.base - 1)).stack = low := by
    rw [← hbase, Nat.add_sub_cancel, State.truncate]
    change s.stack.shrink low.size = low
    rw [hstack, shrink_appendList]
  have hreturns := Transition.Returns.native hcalls
  simp only [Transition.nativeResults, hcalls] at hreturns ⊢
  refine onward_giveResults hG ?_ hreturns
  rw [hlow]
  exact hchain

theorem onward_nativeError {e : RuntimeError} (he : ¬ e.Internal) :
    Onward natives G (Transition.nativeError e s) := by
  simp only [Transition.nativeError, hcalls]
  split
  · next f rest' =>
    exact onward_guestError_of_chain (s := { s with activations := .guest f :: rest' }) hG hchain
      trivial hstack he
  · next hwaits =>
    have hguest : ¬ IsGuest rest := by
      intro h
      match rest, h with
      | .guest f :: rest, _ => exact hwaits f rest rfl
    obtain h := expected_of_waits hG hchain hguest
    rw [h] at hchain
    have hlow : ({ s with activations := rest }.truncate (call.base - 1)).stack = low := by
      rw [← hbase, Nat.add_sub_cancel, State.truncate]
      change s.stack.shrink low.size = low
      rw [hstack, shrink_appendList]
    refine .next (.delivering ?_ hguest fun e' heq ↦ ?_)
    · rw [hlow]
      exact hchain
    · cases heq
      exact he

end

theorem onward_afterNative {r : EStateM.Result RuntimeError State Outcome} {call : NativeCall}
    {rest : List Activation} {callee : Value} {window : List Value}
    (hcalls : (final r).activations = .native call :: rest)
    (hchain : Chain (final r).heap natives G low call.expected rest)
    (hbase : low.size + 1 = call.base) (hknown : call.native < natives)
    (hstack : (final r).stack = low ++ (callee :: window))
    (hsober : ∀ e t, r = .error e t → ¬ e.Internal) :
    Onward natives G (Transition.afterNative r) := by
  cases r with
  | error e s => exact onward_nativeError hG hcalls hchain hbase hstack (hsober e s rfl)
  | ok outcome s =>
    cases outcome with
    | finished => exact onward_nativeResults hG hcalls hchain hbase hstack
    | invoke v args memo =>
      simp only [final_ok] at hcalls hchain hstack
      simp only [Transition.afterNative, Transition.remember, hcalls]
      refine .next (.entering ?_ id)
      dsimp only
      rw [hstack]
      exact Chain.native (c := { call with memo }) hchain hbase hknown

end

/-- A builtin that keeps to its window leaves the rest of a chain alone. -/
theorem window_of_contained {m : Machine Outcome} (hm : Contained m) {s : State} {call : NativeCall}
    {rest : List Activation} (hcalls : s.activations = .native call :: rest) {low : Array Value}
    {callee : Value} {window : List Value} (hbase : low.size + 1 = call.base)
    (hstack : s.stack = low ++ (callee :: window)) :
    (final (m s)).activations = .native call :: rest ∧
      ∃ window, (final (m s)).stack = low ++ (callee :: window) := by
  obtain ⟨hsame, hbelow⟩ := hm s call rest hcalls
  refine ⟨hsame.trans hcalls, (final (m s)).stack.toList.drop call.base, ?_⟩
  have hsize : call.base ≤ s.stack.size := by
    rw [hstack, size_appendList, List.length_cons]
    omega
  rw [Nat.min_eq_left hsize] at hbelow
  have htake := hbelow.take_eq
  apply Array.ext'
  have hlow : s.stack.toList.take call.base = low.toList ++ [callee] := by
    rw [hstack, Array.toList_appendList, ← hbase, ← Array.length_toList,
      List.take_length_add_append]
    simp
  rw [Array.toList_appendList]
  calc (final (m s)).stack.toList
      = (final (m s)).stack.toList.take call.base ++ (final (m s)).stack.toList.drop call.base :=
        (List.take_append_drop ..).symm
    _ = (low.toList ++ [callee]) ++ (final (m s)).stack.toList.drop call.base := by
        rw [← htake, hlow]
    _ = low.toList ++ callee :: (final (m s)).stack.toList.drop call.base := by simp

end MiniLua
