import MiniLua.Proofs.Stack.Loads
import MiniLua.Proofs.Stack.Operands
import MiniLua.Proofs.Twins.Steps

/-! Compiled code keeps its part of the stack in order, whatever runs in between. -/

namespace MiniLua

open Effects Machine

namespace Transition

/-- What a call makes of a callee at slot `floor`, whoever makes the call. -/
def enterCallee (natives : Array Native) (fail : RuntimeError → State → Transition) (callee : Value)
    (floor argCount : Nat) (expected : Option Nat) (s : State) : Transition :=
  match callee with
  | .closure c =>
    match enterClosure c floor expected s with
    | .ok _ s => .next .execute s
    | .error e s => fail e s
  | .native n =>
    match enterNative natives n floor argCount expected s with
    | .ok native s => afterNative (native.start s)
    | .error e s => fail e s
  | v => fail (.type (.call v.typeName)) s

theorem guestCall_eq (natives : Array Native) (argCount : Nat) (expected : Option Nat) (s : State) :
    guestCall natives argCount expected s =
      if s.stack.size < argCount + 1 then guestError .operand s
      else
        enterCallee natives guestError (s.stack.getD (s.stack.size - (argCount + 1)) .nil)
          (s.stack.size - (argCount + 1)) argCount expected s := by
  unfold guestCall enterCallee
  rfl

theorem hostCall_eq (natives : Array Native) (callee : Value) (args : List Value) (s : State) :
    hostCall natives callee args s =
      let start := if s.activations.isEmpty then { s with location := none } else s
      let refuse (e : RuntimeError) (t : State) : Transition :=
        .next (.deliver (.error e)) (t.truncate s.stack.size)
      match pushAll (callee :: args) start with
      | .error e t => refuse e t
      | .ok _ t => enterCallee natives refuse callee s.stack.size args.length none t := by
  unfold hostCall enterCallee
  rfl

/-- What follows an instruction. -/
def afterInstruction (natives : Array Native) : EStateM.Result RuntimeError State Demand → Transition
  | .ok .nothing s => .next .execute s
  | .ok (.call argCount expected) s => guestCall natives argCount expected s
  | .ok (.ret results) s => guestReturn results s
  | .error e s => guestError e s

theorem step_execute (natives : Array Native) (s : State) :
    step natives .execute s = afterInstruction natives (instruction s) := by
  unfold step afterInstruction
  rfl

/-- The state a step leads to. -/
def state : Transition → State
  | next _ s => s
  | halt _ s => s

theorem heap_guestError (e : RuntimeError) (s : State) : (guestError e s).state.heap = s.heap := by
  obtain ⟨location, hnote⟩ := noteLocation_eq s
  simp only [guestError, hnote]
  rfl

theorem links_giveResults (results : List Value) (expected : Option Nat) (s : State) :
    s.heap.SameLinks (giveResults results expected s).state.heap := by
  have hplace := Steady.keeps (m := placeResults results expected) s
  unfold giveResults
  split
  · cases hr : placeResults results expected s with
    | ok _ t => rwa [hr] at hplace
    | error e t =>
      rw [hr] at hplace
      dsimp only
      rw [heap_guestError]
      exact hplace
  · exact .refl _

theorem heap_nativeError (e : RuntimeError) (s : State) : (nativeError e s).state.heap = s.heap := by
  unfold nativeError
  split
  · dsimp only
    split
    · exact heap_guestError _ _
    · rfl
  · rfl

theorem links_nativeResults (s : State) : s.heap.SameLinks (nativeResults s).state.heap := by
  unfold nativeResults
  split
  · next call rest _ => exact links_giveResults _ _ ({ s with activations := rest }.truncate _)
  · exact .refl _

theorem links_afterNative (r : EStateM.Result RuntimeError State Outcome) :
    (final r).heap.SameLinks (afterNative r).state.heap := by
  cases r with
  | error e s =>
    rw [afterNative, heap_nativeError]
    exact .refl _
  | ok outcome s =>
    cases outcome with
    | finished => exact links_nativeResults s
    | invoke callee args memo =>
      change s.heap.SameLinks (remember memo s).heap
      rw [heap_remember]
      exact .refl _

theorem links_guestReturn (results : List Value) (s : State) :
    s.heap.SameLinks (guestReturn results s).state.heap := by
  unfold guestReturn
  split
  · next frame rest _ => exact links_giveResults _ _ ({ s with activations := rest }.truncate _)
  · exact .refl _

end Transition

section

variable {natives : Array Native} {G : Ground} {s : State} {low : Array Value}

/-- A builtin goes on after it started or was resumed. -/
theorem onward_served (hG : G.Firm) {m : Machine Outcome} {call : NativeCall} {rest : List Activation}
    {callee : Value} {window : List Value} (hcalls : s.activations = .native call :: rest)
    (hchain : Chain s.heap natives.size G low call.expected rest) (hbase : low.size + 1 = call.base)
    (hknown : call.native < natives.size) (hstack : s.stack = low ++ (callee :: window))
    (hcontained : Contained m) (hsober : ∀ e t, m s = .error e t → ¬ e.Internal)
    (hloads : s.heap.Loads (final (m s)).heap) :
    Onward natives.size G (Transition.afterNative (m s)) ∧
      s.heap.Loads (Transition.afterNative (m s)).state.heap := by
  obtain ⟨hcalls', window', hstack'⟩ := window_of_contained hcontained hcalls hbase hstack
  exact ⟨onward_afterNative hG hcalls' (hchain.later hloads.toConserves) hbase hknown hstack' hsober,
    hloads.trans_sameLinks (Transition.links_afterNative _)⟩

variable {expected : Option Nat} {callee : Value} {args : List Value}
  (hchain : Chain s.heap natives.size G low expected s.activations)
  (hstack : s.stack = low ++ (callee :: args))

include hchain hstack

/-- A function that is entered has nothing on the stack yet. -/
theorem orderly_entered {c : Nat} {p : Prototype} (hp : s.proto? c = some p)
    (hcompiled : s.heap.CompiledOnly) :
    Orderly natives.size G .execute (entered s p c low.size expected) := by
  obtain ⟨closure, hclosure, hproto⟩ := Option.bind_eq_some_iff.mp hp
  have hsound := (hcompiled closure (Array.mem_of_getElem? hclosure)).sound hproto
  have hlinks : s.heap.SameLinks (entered s p c low.size expected).heap := ⟨rfl, rfl⟩
  refine .running (l := low) (v := []) (w := []) (P := ⟨[], List.range p.arity, false⟩) rfl
    (hchain.later hlinks.conserves) rfl ⟨hp, hsound.later id, ?_, fun n hn ↦ ?_⟩ .nil rfl ?_
  · simp only [entryFrame, List.size_toArray, List.length_append, List.length_map,
      List.length_range', List.length_replicate]
    omega
  · have hn := List.mem_range.mp hn
    simp only [entryFrame, List.getElem?_toArray]
    rw [List.getElem?_append_left (by simpa using hn), List.getElem?_map,
      List.getElem?_range' hn]
    exact ⟨_, rfl⟩
  · change s.stack.shrink low.size = _
    rw [hstack, shrink_appendList]
    simp

theorem onward_enterNative (hG : G.Firm) {n : Nat} {b : Native} (hb : natives[n]? = some b)
    (hknown : ∃ c : Builtin, b = c.native) (hwf : s.Twins natives.size s) {t : State}
    (ht : enterNative natives n low.size args.length expected s = .ok b t) :
    Onward natives.size G (Transition.afterNative (b.start t)) ∧
      s.heap.Loads (Transition.afterNative (b.start t)).state.heap := by
  obtain ⟨c, rfl⟩ := hknown
  rw [enterNative_apply hb] at ht
  split at ht
  · cases ht
  have hcall : NativeCall.Twins (s.heap.Matches natives.size s.heap)
      ⟨n, c.native.name, low.size + 1, args.length, expected, .nothing⟩
      ⟨n, c.native.name, low.size + 1, args.length, expected, .nothing⟩ :=
    ⟨rfl, rfl, rfl, rfl, rfl, .nothing⟩
  have hstart := hwf.withActivations (.cons (.native hcall) hwf.activations)
  cases ht
  have hserves : State.Serves { s with
      activations := .native ⟨n, c.native.name, low.size + 1, args.length, expected, .nothing⟩ ::
        s.activations } := by
    refine ⟨_, _, rfl, ?_⟩
    change low.size + 1 ≤ s.stack.size
    rw [hstack, size_appendList, List.length_cons]
    omega
  exact onward_served hG rfl hchain rfl (Array.getElem?_eq_some_iff.mp hb).1 hstack
    c.contained.start (c.sober_start.sober _) (c.loads_start hstart hserves)

variable (hG : G.Firm) (hwf : s.Twins natives.size s)
  (hnatives : ∀ b ∈ natives, ∃ c : Builtin, b = c.native) (hsized : s.heap.Sized)
  (hcompiled : s.heap.CompiledOnly)

include hG hwf hnatives hsized hcompiled

theorem onward_enterCallee {fail : RuntimeError → State → Transition}
    (hfail : ∀ e, ¬ e.Internal → Onward natives.size G (fail e s) ∧ (fail e s).state.heap = s.heap) :
    Onward natives.size G
        (Transition.enterCallee natives fail callee low.size args.length expected s) ∧
      s.heap.Loads
        (Transition.enterCallee natives fail callee low.size args.length expected s).state.heap := by
  have hfail {e : RuntimeError} (he : ¬ e.Internal) :
      Onward natives.size G (fail e s) ∧ s.heap.Loads (fail e s).state.heap := by
    obtain ⟨honward, hheap⟩ := hfail e he
    rw [hheap]
    exact ⟨honward, (Heap.SameLinks.refl _).loads⟩
  have hcallee : s.heap.Matches natives.size s.heap callee callee := by
    refine List.forall₂_same.mp hwf.stack callee ?_
    rw [hstack, Array.toList_appendList]
    simp
  cases hcallee with
  | closure hc _ =>
    obtain ⟨p, hp⟩ := hsized.proto hc
    simp only [Transition.enterCallee, enterClosure_apply hp]
    split
    · next heq =>
      split at heq <;> cases heq
      exact ⟨.next (orderly_entered hchain hstack hp hcompiled),
        Heap.SameLinks.loads ⟨rfl, rfl⟩⟩
    · next heq =>
      split at heq <;> cases heq
      exact hfail id
  | @native n hn =>
    have hb := Array.getElem?_eq_getElem hn
    have hknown := hnatives _ (Array.getElem_mem hn)
    simp only [Transition.enterCallee]
    split
    · next heq =>
      have heq' := heq
      rw [enterNative_apply hb] at heq'
      split at heq' <;> cases heq'
      exact onward_enterNative hchain hstack hG hb hknown hwf heq
    · next heq =>
      rw [enterNative_apply hb] at heq
      split at heq <;> cases heq
      exact hfail id
  | _ => exact hfail id

theorem onward_guestCall (hguest : IsGuest s.activations) :
    Onward natives.size G (Transition.guestCall natives args.length expected s) ∧
      s.heap.Loads (Transition.guestCall natives args.length expected s).state.heap := by
  have hsize : s.stack.size = low.size + (args.length + 1) := by
    rw [hstack, size_appendList, List.length_cons]
  have hfloor : s.stack.size - (args.length + 1) = low.size := by omega
  have hcallee : s.stack.getD low.size .nil = callee := by
    rw [hstack, Array.getD_eq_getD_getElem?, ← Array.getElem?_toList, Array.toList_appendList,
      ← Array.length_toList, List.getElem?_append_right (Nat.le_refl _)]
    simp
  rw [Transition.guestCall_eq, if_neg (by omega), hfloor, hcallee]
  refine onward_enterCallee hchain hstack hG hwf hnatives hsized hcompiled fun e he ↦ ?_
  exact ⟨onward_guestError_of_chain hG hchain hguest hstack he, Transition.heap_guestError e s⟩

end

theorem onward_hostCall {natives : Array Native} {G : Ground} {s : State} (hG : G.Firm)
    (hnatives : ∀ b ∈ natives, ∃ c : Builtin, b = c.native) (hwf : s.Twins natives.size s)
    (hsized : s.heap.Sized) (hcompiled : s.heap.CompiledOnly) {callee : Value} {args : List Value}
    (hcallee : s.heap.Matches natives.size s.heap callee callee)
    (hargs : List.Forall₂ (s.heap.Matches natives.size s.heap) args args)
    (hchain : Chain s.heap natives.size G s.stack none s.activations)
    (hwaits : ¬ IsGuest s.activations) :
    Onward natives.size G (Transition.hostCall natives callee args s) ∧
      s.heap.Loads (Transition.hostCall natives callee args s).state.heap := by
  obtain ⟨location, hstart⟩ := exists_location s
  have hrefuse {pushed : List Value} {e : RuntimeError} (he : ¬ e.Internal) :
      Onward natives.size G (.next (.deliver (.error e))
        (State.truncate { s with stack := s.stack ++ pushed, location } s.stack.size)) := by
    refine .next (.delivering ?_ hwaits fun e' h ↦ ?_)
    · change Chain s.heap natives.size G ((s.stack ++ pushed).shrink s.stack.size) none s.activations
      rw [shrink_appendList]
      exact hchain
    · cases h
      exact he
  rw [Transition.hostCall_eq, hstart]
  dsimp only
  obtain hpushed | ⟨pushed, hpushed⟩ := pushAll_cases (callee :: args) { s with location }
  · rw [hpushed]
    have hvalues : List.Forall₂ (s.heap.Matches natives.size s.heap)
        (s.stack ++ (callee :: args)).toList (s.stack ++ (callee :: args)).toList := by
      rw [Array.toList_appendList]
      exact List.rel_append hwf.stack (.cons hcallee hargs)
    have hready : State.Twins natives.size { s with stack := s.stack ++ (callee :: args), location }
        { s with stack := s.stack ++ (callee :: args), location } :=
      { hwf.withStack hvalues with location := rfl }
    exact onward_enterCallee (s := { s with stack := s.stack ++ (callee :: args), location }) hchain rfl
      hG hready hnatives hsized hcompiled fun e he ↦ ⟨hrefuse he, rfl⟩
  · rw [hpushed]
    exact ⟨hrefuse id, Heap.SameLinks.loads ⟨rfl, rfl⟩⟩

section

variable {natives : Array Native} {G : Ground} {s : State} (hG : G.Firm)
  (hnatives : ∀ b ∈ natives, ∃ c : Builtin, b = c.native) (hwf : s.Twins natives.size s)

include hG

include hnatives hwf in
theorem onward_handOver {result : Except RuntimeError (List Value)}
    (hchain : Chain s.heap natives.size G s.stack none s.activations)
    (hwaits : ¬ IsGuest s.activations) (hsober : ∀ e, result = .error e → ¬ e.Internal) :
    Onward natives.size G (Transition.handOver natives result s) ∧
      s.heap.Loads (Transition.handOver natives result s).state.heap := by
  unfold Transition.handOver
  match hcalls : s.activations with
  | [] =>
    have hstack : s.stack = G.stack := by
      rw [hcalls] at hchain
      generalize s.stack = stack, hnil : ([] : List Activation) = calls,
        (none : Option Nat) = expected at hchain
      cases hchain with
      | ground => rfl
      | guest | native => cases hnil
    exact ⟨.halt hsober hcalls hstack, (Heap.SameLinks.refl _).loads⟩
  | .guest f :: rest => exact absurd (by rw [hcalls]; trivial) hwaits
  | .native call :: rest =>
    rw [hcalls] at hchain
    generalize hstack : s.stack = stack at hchain
    generalize hnone : (none : Option Nat) = expected at hchain
    generalize hcalls' : (Activation.native call :: rest) = calls at hchain
    cases hchain with
    | ground => cases hG <;> cases hcalls'
    | guest => cases hcalls'
    | @native low call' rest' callee window below base known =>
      cases hcalls'
      obtain ⟨c, hc⟩ := hnatives _ (Array.getElem_mem known)
      simp only [Array.getElem?_eq_getElem known, hc]
      exact onward_served hG hcalls below base known hstack (c.contained.resume _ _)
        ((c.sober_resume call.memo hsober).sober s) (c.loads_resume hwf _ _)

theorem onward_guestReturn {low : Array Value} {f : Frame} {rest : List Activation} {junk : List Value}
    (hcalls : s.activations = .guest f :: rest)
    (hchain : Chain s.heap natives.size G low f.expected rest) (hbase : low.size = f.base)
    (hstack : s.stack = low ++ junk) (vs : List Value) :
    Onward natives.size G (Transition.guestReturn vs s) := by
  have hlow : ({ s with activations := rest }.truncate f.base).stack = low := by
    change s.stack.shrink f.base = low
    rw [hstack, ← hbase, shrink_appendList]
  have hreturns := Transition.Returns.guest vs s
  simp only [Transition.guestReturn, hcalls] at hreturns ⊢
  refine onward_giveResults hG ?_ hreturns
  rw [hlow]
  exact hchain

omit hG in
theorem SameBelow.exists_append {low stack : Array Value} {junk : List Value}
    (h : SameBelow low.size (low ++ junk) stack) : ∃ junk' : List Value, stack = low ++ junk' := by
  have htake := h.take_eq
  rw [Array.toList_appendList, ← Array.length_toList, List.take_left] at htake
  refine ⟨stack.toList.drop low.toList.length, ?_⟩
  apply Array.ext'
  rw [Array.toList_appendList]
  calc stack.toList
      = stack.toList.take low.toList.length ++ stack.toList.drop low.toList.length :=
        (List.take_append_drop ..).symm
    _ = low.toList ++ stack.toList.drop low.toList.length := by rw [← htake]

omit hG in
theorem SameCalls.exists_guest {f : Frame} {rest calls : List Activation}
    (h : SameCalls (.guest f :: rest) calls) : ∃ ip cells, calls = .guest { f with ip, cells } :: rest := by
  cases h with
  | refl => exact ⟨f.ip, f.cells, rfl⟩
  | guest _ ip cells _ => exact ⟨ip, cells, rfl⟩

omit hG in
theorem advance_of_guest {f : Frame} {rest : List Activation} (hcalls : s.activations = .guest f :: rest) :
    advance s = { s with activations := .guest { f with ip := f.ip + 1 } :: rest } := by
  rw [advance, hcalls]

omit hG in
include hwf in
theorem State.Twins.advance : State.Twins natives.size (advance s) (advance s) := by
  have hcalls := hwf.activations
  unfold Machine.advance
  split
  · next f rest heq =>
    rw [heq] at hcalls
    cases hcalls with
    | cons hf hrest =>
      cases hf with
      | guest hf =>
        exact hwf.withActivations (.cons (.guest ⟨hf.closure, rfl, rfl, rfl, hf.varargs, rfl⟩) hrest)
  · exact hwf

omit hG in
include hwf in
theorem executes_of_running {low : Array Value} {f : Frame} {rest : List Activation} {p : Prototype}
    {P : Point} {vs ms : List Value} (hsized : s.heap.Sized)
    (hcalls : s.activations = .guest f :: rest) (hat : f.At s.heap p P) (hfits : Fits P.slots vs)
    (hms : ms.length = if P.multi then s.lastMulti else 0)
    (hstack : s.stack = low ++ (vs.reverse ++ ms)) :
    ∃ c, Executes (Machine.advance s) f c p P low rest vs ms := by
  obtain ⟨c, hc, hp⟩ := Option.bind_eq_some_iff.mp hat.code
  obtain ⟨q, hq, hsize⟩ := hsized (c.proto, c.upvalues)
    (Array.mem_map.mpr ⟨c, Array.mem_of_getElem? hc, rfl⟩)
  obtain rfl := Option.some.inj (hp.symm.trans hq)
  have henv : c.env < s.heap.tables.size := by
    have hclosure := hwf.heap.closure f.closure
    rw [hc] at hclosure
    cases hclosure with
    | some h =>
      cases h.2 with
      | table h _ => exact h
  refine ⟨c, ?_⟩
  rw [advance_of_guest hcalls]
  refine ⟨rfl, hc, hp, hsize, hat.slots, hat.cells, hfits, hms, hstack, henv, fun t ht ↦ ?_⟩
  cases List.forall₂_same.mp hwf.stack _ (Array.mem_toList_iff.mpr ht) with
  | table h _ => exact h

section

variable {low : Array Value} {f : Frame} {c : Closure} {rest : List Activation} {p : Prototype}
  {P : Point} {vs ms : List Value} {i : Instruction} {op : Opcode}
  (h : Executes s f c p P low rest vs ms) (hop : i.opcode? = some op)
  (hbelow : Chain s.heap natives.size G low f.expected rest) (hbase : low.size = f.base)

include h hop hbelow hbase

omit hG hop hbelow hbase in
/-- As many values as the instruction says lie on top, and a multi result if it says so. -/
theorem Executes.count (hmulti : P.multi = (i.b != 0)) (ha : i.a.toNat ≤ P.slots.length) :
    i.a.toNat + (if i.b = 0 then 0 else s.lastMulti) =
      ((vs.take i.a.toNat).reverse ++ ms).length := by
  rw [List.Forall₂.length_eq h.fits] at ha
  rw [List.length_append, List.length_reverse, List.length_take, h.multi, hmulti]
  by_cases hb : i.b = 0
  · simp [hb, ha]
  · simp [hb, ha]

omit hop in
include hnatives in
theorem onward_call (hwf : s.Twins natives.size s) (hsized : s.heap.Sized)
    (hcompiled : s.heap.CompiledOnly) (htakes : i.takes 0 ≤ P.slots.length)
    (hop : i.opcode? = some .call) (hmulti : P.multi = i.closes .call)
    (hsound : Sound p s.heap (f.ip + 1) (P.after i .call)) :
    Onward natives.size G (Transition.afterInstruction natives (perform f p.constants i .call s)) ∧
      s.heap.Loads
        (Transition.afterInstruction natives (perform f p.constants i .call s)).state.heap := by
  have hroom : i.a.toNat < P.slots.length := by
    rw [Instruction.takes, hop] at htakes
    dsimp only at htakes
    split at htakes <;> omega
  have hcount := h.count (i := i) hmulti (Nat.le_of_lt hroom)
  obtain ⟨callee, below, hvs⟩ : ∃ callee below, vs.drop i.a.toNat = callee :: below := by
    rw [List.Forall₂.length_eq h.fits] at hroom
    exact ⟨_, _, List.drop_eq_getElem_cons hroom⟩
  have hbelow' : vs.drop (i.a.toNat + 1) = below := by
    rw [← List.drop_drop, hvs, List.drop_one, List.tail_cons]
  have hfits : Fits (P.slots.drop (i.a.toNat + 1)) below := hbelow' ▸ List.forall₂_drop _ h.fits
  have hcode : ((s.heap.closures[f.closure]?).bind fun c ↦ s.heap.protos[c.proto]?) = some p := by
    rw [h.closure]
    exact h.proto
  have hstack : s.stack = (low ++ below.reverse) ++ (callee :: ((vs.take i.a.toNat).reverse ++ ms)) := by
    rw [h.stack, appendList_append]
    nth_rewrite 1 [← List.take_append_drop i.a.toNat vs]
    rw [hvs]
    simp
  generalize hwanted : (if i.c.toNat = 0 then none else some (i.c.toNat - 1)) = wanted
  have hafter : P.after i .call = ⟨List.replicate (wanted.getD 0) false ++
      P.slots.drop (i.a.toNat + 1), P.cells, wanted.isNone⟩ := by
    subst hwanted
    by_cases hc : i.c.toNat = 0
    · have hc' : i.c = 0 := UInt8.toNat_inj.mp hc
      simp [hc']
    · have hc' : (i.c == 0) = false := beq_eq_false_iff_ne.mpr fun h ↦ hc (congrArg UInt8.toNat h)
      simp [hc, hc']
  -- the caller waits behind the call for its results
  have hwaits : Chain s.heap natives.size G (low ++ below.reverse) wanted s.activations := by
    rw [h.calls]
    exact .guest hbelow hbase ⟨hcode, hafter ▸ hsound, h.slots, h.cells⟩ hfits
  rw [perform_call_apply, Transition.afterInstruction, hcount, hwanted]
  exact onward_guestCall hwaits hstack hG hwf hnatives hsized hcompiled (by rw [h.calls]; trivial)

omit hop in
theorem onward_ret (htakes : i.takes 0 ≤ P.slots.length) (hop : i.opcode? = some .ret)
    (hmulti : P.multi = i.closes .ret) :
    Onward natives.size G (Transition.afterInstruction natives (perform f p.constants i .ret s)) ∧
      s.heap.Loads
        (Transition.afterInstruction natives (perform f p.constants i .ret s)).state.heap := by
  have hroom : i.a.toNat ≤ P.slots.length := by
    rw [Instruction.takes, hop] at htakes
    dsimp only at htakes
    split at htakes <;> omega
  have hcount := h.count (i := i) hmulti hroom
  have hstack : s.stack =
      (low ++ (vs.drop i.a.toNat).reverse) ++ ((vs.take i.a.toNat).reverse ++ ms) := by
    rw [h.stack, appendList_append, ← List.append_assoc, ← List.reverse_append,
      List.take_append_drop]
  rw [perform_ret hstack hcount, Transition.afterInstruction]
  refine ⟨onward_guestReturn (s := { s with stack := low ++ (vs.drop i.a.toNat).reverse }) hG h.calls
    hbelow hbase rfl _, ?_⟩
  exact (Transition.links_guestReturn _ { s with stack := low ++ (vs.drop i.a.toNat).reverse }).loads

/-- An instruction that is no call and no return. -/
theorem onward_lands
    (hlands : Lands low rest f p s.heap (perform f p.constants i op s)) (htakes : i.takes 0 ≤ P.slots.length)
    (hmulti : P.multi = i.closes op) :
    Onward natives.size G (Transition.afterInstruction natives (perform f p.constants i op s)) := by
  have hconserves := (secures_perform f p.constants i op s).toConserves
  have huses := usesAt_perform f p.constants hop s
  have hroom : low.size + i.takes s.lastMulti ≤ s.stack.size := by
    rw [h.stack, size_appendList, List.length_append, List.length_reverse,
      Instruction.takes_eq_takes_zero i _ hop, h.multi, hmulti, ← List.Forall₂.length_eq h.fits]
    omega
  have hsame := huses.below low.size hroom
  have hcalls := huses.calls
  rw [h.stack] at hsame
  rw [h.calls] at hcalls
  generalize perform f p.constants i op s = r at hlands hsame hcalls hconserves
  cases hlands with
  | @failed e t sober =>
    obtain ⟨junk, hjunk⟩ := hsame.exists_append
    obtain ⟨ip, cells, hcalls⟩ := hcalls.exists_guest
    exact onward_guestError hG hcalls (hbelow.later hconserves) hbase hjunk sober
  | @moved t ip cells P' vs' ms' calls sound slots bound fits multi stack =>
    have hcode : ((s.heap.closures[f.closure]?).bind fun c ↦ s.heap.protos[c.proto]?) = some p := by
      rw [h.closure]
      exact h.proto
    have hat : Frame.At s.heap { f with ip, cells } p P' := ⟨hcode, sound, slots, bound⟩
    exact .next (.running calls (hbelow.later hconserves) hbase (hat.later hconserves) fits multi stack)

end

omit hG in
theorem Transition.loads_afterInstruction {r : EStateM.Result RuntimeError State Demand} {h : Heap}
    (hr : h.Secures (final r).heap) (hcall : ∀ n e t, r ≠ .ok (.call n e) t) :
    h.Loads (Transition.afterInstruction natives r).state.heap := by
  match r with
  | .ok .nothing s => exact hr.loads
  | .ok (.call n e) s => exact absurd rfl (hcall n e s)
  | .ok (.ret results) s =>
    exact hr.loads.trans_sameLinks (links_guestReturn results s)
  | .error e s =>
    rw [afterInstruction, heap_guestError]
    exact hr.loads

include hnatives hwf in
theorem onward_execute (hsized : s.heap.Sized) (hcompiled : s.heap.CompiledOnly)
    (h : Orderly natives.size G .execute s) :
    Onward natives.size G (step natives .execute s) ∧
      s.heap.Loads (step natives .execute s).state.heap := by
  cases h with
  | @running low f rest p P vs ms _ calls below base at_ fits multi stack =>
    obtain ⟨hstands, i, op, hi, hop, htakes, hmulti, hadmits, hfalls, hjumps⟩ := at_.sound.next
    have hrun := instruction_of_guest calls at_.code hi hop
    obtain ⟨c, hexecutes⟩ := executes_of_running hwf hsized calls at_ fits multi stack
    have hheap := advance_heap s
    rw [Transition.step_execute, hrun, ← hheap]
    rw [← hheap] at below hadmits hfalls hjumps hsized hcompiled
    by_cases hcall : op = .call
    · subst hcall
      exact onward_call hG hnatives hexecutes below base hwf.advance hsized hcompiled htakes hop hmulti
        (hfalls (by decide) (by decide))
    by_cases hret : op = .ret
    · subst hret
      exact onward_ret hG hexecutes below base htakes hop hmulti
    refine ⟨onward_lands hG hexecutes hop below base ?_ htakes hmulti, ?_⟩
    · exact hexecutes.lands htakes hop hmulti hadmits hfalls hjumps hcall hret
    · refine Transition.loads_afterInstruction (secures_perform f p.constants i op (advance s))
        fun n e t ht ↦ ?_
      have hnothing := returns_perform f p.constants i hcall hret _ _ _ ht
      cases hnothing

end

end MiniLua
