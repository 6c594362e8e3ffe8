import MiniLua.Proofs.Machine.Primitives
import MiniLua.Proofs.Machine.Quiet

/-!
How deep programs of the machine reach into the operand stack, and that instructions leave the
activations below the innermost function alone.
-/

namespace MiniLua

/-- Two stacks that hold the same first `n` values. -/
structure SameBelow (n : Nat) (a b : Array Value) : Prop where
  left : n ≤ a.size
  right : n ≤ b.size
  same : ∀ i < n, a[i]? = b[i]?

namespace SameBelow

variable {n : Nat} {a b c : Array Value}

theorem refl (h : n ≤ a.size) : SameBelow n a a := ⟨h, h, fun _ _ ↦ rfl⟩

theorem trans (h : SameBelow n a b) (h' : SameBelow n b c) : SameBelow n a c :=
  ⟨h.left, h'.right, fun i hi ↦ (h.same i hi).trans (h'.same i hi)⟩

theorem mono {m : Nat} (h : SameBelow n a b) (hm : m ≤ n) : SameBelow m a b :=
  ⟨Nat.le_trans hm h.left, Nat.le_trans hm h.right, fun i hi ↦ h.same i (Nat.lt_of_lt_of_le hi hm)⟩

theorem zero : SameBelow 0 a b := ⟨Nat.zero_le _, Nat.zero_le _, fun _ h ↦ absurd h (by omega)⟩

theorem push (h : n ≤ a.size) (v : Value) : SameBelow n a (a.push v) := by
  refine ⟨h, by rw [Array.size_push]; omega, fun i hi ↦ ?_⟩
  rw [Array.getElem?_push, if_neg (by omega)]

theorem pop (h : n < a.size) : SameBelow n a a.pop := by
  refine ⟨by omega, by rw [Array.size_pop]; omega, fun i hi ↦ ?_⟩
  rw [Array.getElem?_pop, if_pos (by omega)]

theorem shrink {m : Nat} (h : n ≤ a.size) (hm : n ≤ m) : SameBelow n a (a.shrink m) := by
  refine ⟨h, by rw [Array.size_shrink]; omega, fun i hi ↦ ?_⟩
  rw [Array.shrink_eq_take, Array.take_eq_extract, Array.getElem?_extract, if_pos (by omega),
    Nat.zero_add]

theorem appendList (h : n ≤ a.size) (vs : List Value) : SameBelow n a (a.appendList vs) := by
  have hlist : (a.appendList vs).toList = a.toList ++ vs := by
    rw [Array.appendList_eq_append, Array.toList_appendList]
  refine ⟨h, ?_, fun i hi ↦ ?_⟩
  · rw [← Array.length_toList, hlist, List.length_append, Array.length_toList]
    omega
  · rw [← Array.getElem?_toList, ← Array.getElem?_toList, hlist,
      List.getElem?_append_left (by rw [Array.length_toList]; omega)]

theorem take_eq (h : SameBelow n a b) : a.toList.take n = b.toList.take n := by
  refine List.ext_getElem? fun i ↦ ?_
  simp only [List.getElem?_take, Array.getElem?_toList]
  split
  · next hi => exact h.same i hi
  · rfl

/-- All of the stack is the same if nothing lies above. -/
theorem eq (h : SameBelow n a b) (ha : a.size = n) (hb : b.size ≤ n) : a = b := by
  have hb' := h.right
  refine Array.ext_getElem? fun i ↦ ?_
  by_cases hi : i < n
  · exact h.same i hi
  · rw [Array.getElem?_eq_none (by omega), Array.getElem?_eq_none (by omega)]

end SameBelow

/-- The same activations, the innermost guest function possibly at another instruction and with
other cells. -/
inductive SameCalls : List Activation → List Activation → Prop
  | refl (calls) : SameCalls calls calls
  | guest (frame : Frame) (ip : Nat) (cells : Array (Option Nat)) (rest) :
      SameCalls (.guest frame :: rest) (.guest { frame with ip, cells } :: rest)

theorem SameCalls.trans {as bs cs : List Activation} (h : SameCalls as bs)
    (h' : SameCalls bs cs) : SameCalls as cs := by
  cases h with
  | refl => exact h'
  | guest frame ip cells rest =>
    cases h' with
    | refl => exact .guest frame ip cells rest
    | guest _ ip' cells' _ => exact .guest frame ip' cells' rest

/-- How many values on top of the stack an instruction reads or removes, after a multi result of
size `multi`. -/
def Instruction.takes (multi : Nat) (i : Instruction) : Nat :=
  match i.opcode? with
  | none => 0
  | some op =>
    match op with
    | .setCell | .newCell | .setUpvalue | .setGlobal | .self | .neg | .not | .len
    | .jumpIfFalse | .jumpIfFalseKeep | .jumpIfTrueKeep => 1
    | .getIndex | .add | .sub | .mul | .div | .mod | .pow | .concat
    | .eq | .ne | .lt | .le | .gt | .ge => 2
    | .setIndex | .initIndex => 3
    | .setList => multi + 1
    | .pop => i.a.toNat
    | .call => i.a.toNat + (if i.b = 0 then 0 else multi) + 1
    | .ret => i.a.toNat + (if i.b = 0 then 0 else multi)
    | .loadNil | .loadTrue | .loadFalse | .loadConst | .getCell | .getUpvalue | .getGlobal
    | .newTable | .jump | .forPrep | .forTest | .forStep | .varargs | .closure => 0

namespace Machine

open Effects

variable {α β : Type}

/-- Started in `s`, the program takes at most `k` values off the stack and, if it ends well, leaves
`j` in their place. -/
structure UsesAt (s : State) (k j : Nat) (m : Machine α) : Prop where
  calls : SameCalls s.activations (final (m s)).activations
  below : ∀ n, n + k ≤ s.stack.size → SameBelow n s.stack (final (m s)).stack
  left : ∀ a t, m s = .ok a t → ∀ n, n + k ≤ s.stack.size → n + j ≤ t.stack.size

def Uses (k j : Nat) (m : Machine α) : Prop := ∀ s, UsesAt s k j m

theorem UsesAt.iff {s : State} {k j : Nat} {m : Machine α} :
    UsesAt s k j m ↔ SameCalls s.activations (final (m s)).activations ∧
      (∀ n, n + k ≤ s.stack.size → SameBelow n s.stack (final (m s)).stack) ∧
      (match m s with
        | .ok _ t => ∀ n, n + k ≤ s.stack.size → n + j ≤ t.stack.size
        | .error _ _ => True) := by
  constructor
  · intro ⟨hcalls, hbelow, hleft⟩
    refine ⟨hcalls, hbelow, ?_⟩
    split
    · next a t h => exact hleft a t h
    · trivial
  · intro ⟨hcalls, hbelow, hleft⟩
    refine ⟨hcalls, hbelow, fun a t h ↦ ?_⟩
    rwa [h] at hleft

theorem UsesAt.bind_at {s : State} {k j l : Nat} {m : Machine α} {f : α → Machine β}
    (h : UsesAt s k j m) (hf : ∀ a t, m s = .ok a t → UsesAt t j l (f a)) :
    UsesAt s k l (m >>= f) := by
  obtain ⟨hcalls, hbelow, hleft⟩ := h
  cases hm : m s with
  | error e t =>
    simp only [hm, final_error] at hcalls hbelow
    refine ⟨?_, ?_, ?_⟩
    · simpa only [bind_apply, hm, final_error] using hcalls
    · simpa only [bind_apply, hm, final_error] using hbelow
    · simp [bind_apply, hm]
  | ok a t =>
    simp only [hm, final_ok] at hcalls hbelow
    have hleft := hleft a t hm
    obtain ⟨hcalls', hbelow', hleft'⟩ := hf a t hm
    refine ⟨?_, fun n hn ↦ ?_, fun b u hu n hn ↦ ?_⟩
    · simpa only [bind_apply, hm] using hcalls.trans hcalls'
    · simpa only [bind_apply, hm] using (hbelow n hn).trans (hbelow' n (hleft n hn))
    · simp only [bind_apply, hm] at hu
      exact hleft' b u hu n (hleft n hn)

theorem UsesAt.bind {s : State} {k j l : Nat} {m : Machine α} {f : α → Machine β}
    (h : UsesAt s k j m) (hf : ∀ a, Uses j l (f a)) : UsesAt s k l (m >>= f) :=
  h.bind_at fun a t _ ↦ hf a t

theorem Uses.bind {k j l : Nat} {m : Machine α} {f : α → Machine β} (h : Uses k j m)
    (hf : ∀ a, Uses j l (f a)) : Uses k l (m >>= f) := fun s ↦ (h s).bind hf

/-- Values further down stay where they are. -/
theorem Uses.under {k j : Nat} {m : Machine α} (h : Uses k j m) (d : Nat) :
    Uses (k + d) (j + d) m := by
  intro s
  obtain ⟨hcalls, hbelow, hleft⟩ := h s
  refine ⟨hcalls, fun n hn ↦ hbelow n (by omega), fun a t ht n hn ↦ ?_⟩
  have := hleft a t ht (n + d) (by omega)
  omega

theorem Uses.drop {k j l : Nat} {m : Machine α} (h : Uses k j m) (hl : l ≤ j) : Uses k l m := by
  intro s
  obtain ⟨hcalls, hbelow, hleft⟩ := h s
  refine ⟨hcalls, hbelow, fun a t ht n hn ↦ ?_⟩
  have := hleft a t ht n hn
  omega

theorem Uses.quiet {m : Machine α} (h : Quiet m) : Uses 0 0 m := by
  intro s
  obtain ⟨hstack, hcalls⟩ := h s
  refine ⟨hcalls ▸ .refl _, fun n hn ↦ ?_, fun a t ht n hn ↦ ?_⟩
  · rw [hstack]
    exact .refl hn
  · rw [ht, final_ok] at hstack
    rw [hstack]
    exact hn

/-- What is left untouched counts as taken and put back. -/
theorem Uses.throughout {k : Nat} {m : Machine α} (h : Uses 0 0 m) : Uses k 0 m := by
  have := (h.under k).drop (Nat.zero_le _)
  rwa [Nat.zero_add] at this

theorem Uses.quiet_bind {k j : Nat} {m : Machine α} {f : α → Machine β} (h : Quiet m)
    (hf : ∀ a, Uses k j (f a)) : Uses k j (m >>= f) := by
  have hk := (Uses.quiet h).under k
  rw [Nat.zero_add] at hk
  exact hk.bind hf

theorem UsesAt.get_bind {s : State} {k j : Nat} {f : State → Machine α}
    (h : UsesAt s k j (f s)) : UsesAt s k j (get >>= f) := ⟨h.calls, h.below, h.left⟩

theorem uses_changeFrame {f : Frame → Frame}
    (hf : ∀ frame, ∃ ip cells, f frame = { frame with ip, cells }) : Uses 0 0 (changeFrame f) := by
  intro s
  rw [UsesAt.iff, changeFrame_apply]
  match hs : s.activations with
  | [] | .native _ :: _ =>
    simp only [final_ok, hs]
    exact ⟨.refl _, fun n hn ↦ .refl hn, fun n hn ↦ hn⟩
  | .guest frame :: rest =>
    obtain ⟨ip, cells, h⟩ := hf frame
    simp only [final_ok, h]
    exact ⟨.guest frame ip cells rest, fun n hn ↦ .refl hn, fun n hn ↦ hn⟩

theorem uses_goTo (x : Nat) : Uses 0 0 (goTo x) :=
  uses_changeFrame fun frame ↦ ⟨x, frame.cells, rfl⟩

theorem uses_push (v : Value) : Uses 0 0 (push v) := by
  intro s
  rw [UsesAt.iff, push_apply]
  split
  · exact ⟨.refl _, fun n hn ↦ .push hn v, fun n hn ↦ by rw [Array.size_push]; omega⟩
  · exact ⟨.refl _, fun n hn ↦ .refl hn, trivial⟩

theorem uses_top : Uses 1 1 top := by
  intro s
  rw [UsesAt.iff, top_apply]
  split
  · exact ⟨.refl _, fun n hn ↦ .refl (show n ≤ s.stack.size by omega), fun n hn ↦ hn⟩
  · exact ⟨.refl _, fun n hn ↦ .refl (show n ≤ s.stack.size by omega), trivial⟩

theorem uses_pop : Uses 1 0 pop := by
  intro s
  rw [UsesAt.iff, pop_apply]
  split
  · exact ⟨.refl _, fun n hn ↦ .pop (by omega), fun n hn ↦ by rw [Array.size_pop]; omega⟩
  · exact ⟨.refl _, fun n hn ↦ .refl (show n ≤ s.stack.size by omega), trivial⟩

theorem uses_popMany (k : Nat) : Uses k 0 (popMany k) := by
  intro s
  rw [UsesAt.iff, popMany_apply]
  split
  · exact ⟨.refl _, fun n hn ↦ .refl (show n ≤ s.stack.size by omega), trivial⟩
  · refine ⟨.refl _, fun n hn ↦ .shrink (by omega) (by omega), fun n hn ↦ ?_⟩
    rw [State.truncate, Array.size_shrink]
    omega

theorem uses_pushAll (vs : List Value) : Uses 0 0 (pushAll vs) := by
  induction vs with
  | nil => exact .quiet (.pure _)
  | cons v vs ih => exact (uses_push v).bind fun _ ↦ ih

theorem pushAll_activations (vs : List Value) (s : State) :
    (final (pushAll vs s)).activations = s.activations := by
  induction vs generalizing s with
  | nil => rfl
  | cons v vs ih =>
    rw [pushAll_cons, bind_apply, push_apply]
    split
    · next h =>
      split at h
      · cases h
        exact ih _
      · cases h
    · next h =>
      split at h
      · cases h
      · cases h
        rfl

theorem uses_placeResults (vs : List Value) (expected : Option Nat) :
    Uses 0 0 (placeResults vs expected) := by
  cases expected with
  | some n => exact uses_pushAll _
  | none => exact .quiet_bind (.modify fun _ ↦ ⟨rfl, rfl⟩) fun _ ↦ uses_pushAll _

theorem uses_loadCell (cell : Nat) : Uses 0 0 (loadCell cell) :=
  .quiet_bind .get fun _ ↦ uses_push _

theorem uses_storeCell (cell : Nat) : Uses 1 0 (storeCell cell) :=
  uses_pop.bind fun _ ↦ .quiet (quiet_changeHeap _)

theorem uses_binary (op : Opcode) : Uses 2 0 (binary op) := by
  refine (uses_pop.under 1).bind fun b ↦ uses_pop.bind fun a ↦ .quiet_bind .get fun s ↦ ?_
  dsimp only
  split
  · exact .quiet_bind (quiet_lift _) fun _ ↦ .quiet_bind (quiet_bytesValue _) uses_push
  · exact .quiet_bind (.pure _) uses_push
  · exact .quiet_bind (.pure _) uses_push
  all_goals first
    | exact .quiet_bind (quiet_lift _) uses_push
    | exact .quiet_bind ((quiet_lift _).map _) uses_push

theorem uses_jumpKeeping (keep : Value → Bool) (x : Nat) : Uses 1 0 (jumpKeeping keep x) := by
  refine uses_top.bind fun v ↦ ?_
  split
  · exact (uses_goTo x).throughout
  · exact uses_pop.bind fun _ ↦ .quiet (.pure _)

theorem usesAt_fillTable (start : Nat) (s : State) :
    UsesAt s (s.lastMulti + 1) 0 (fillTable start) := by
  refine .get_bind (UsesAt.bind ((uses_popMany _).under 1 s) fun values ↦
    Uses.bind (uses_top.drop (Nat.zero_le _)) fun v ↦ ?_)
  split
  · refine .quiet_bind .get fun s ↦ ?_
    split
    · exact .quiet (quiet_changeHeap _)
    · exact .quiet (.throw _)
  · exact .quiet (.throw _)

theorem quiet_operandCount (i : Instruction) : Quiet (operandCount i) :=
  Keeps.get.bind fun _ ↦ .pure _

/-- An instruction reaches down as far as `Instruction.takes` says. -/
theorem usesAt_perform (frame : Frame) (constants : Array Value) {i : Instruction} {op : Opcode}
    (hop : i.opcode? = some op) (s : State) :
    UsesAt s (i.takes s.lastMulti) 0 (perform frame constants i op) := by
  have hdone : Uses 0 0 (pure Demand.nothing : Machine Demand) := .quiet (.pure _)
  have hpush (v : Value) : Uses 0 0 (do push v; pure Demand.nothing) :=
    (uses_push v).bind fun _ ↦ hdone
  have hset (a b c : Value) : Uses 0 0 (do setIndex a b c; pure Demand.nothing) :=
    .quiet_bind (quiet_setIndex a b c) fun _ ↦ hdone
  unfold Instruction.takes perform
  rw [hop]
  cases op
  case loadNil => exact ((uses_pushAll _).bind fun _ ↦ hdone) s
  case loadTrue | loadFalse => exact hpush _ s
  case loadConst => exact Uses.quiet_bind (quiet_orOperand _) hpush s
  case getCell =>
    exact Uses.quiet_bind (quiet_frameCell _ _) (fun _ ↦ (uses_loadCell _).bind fun _ ↦ hdone) s
  case setCell =>
    exact Uses.quiet_bind (quiet_frameCell _ _) (fun _ ↦ (uses_storeCell _).bind fun _ ↦ hdone) s
  case newCell =>
    refine (uses_pop.bind fun v ↦ .quiet_bind (quiet_onHeap _) fun cell ↦ ?_) s
    dsimp only
    split
    · exact (uses_changeFrame fun f ↦ ⟨f.ip, _, rfl⟩).bind fun _ ↦ hdone
    · exact .quiet_bind (.throw _) fun _ ↦ hdone
  case getUpvalue =>
    exact Uses.quiet_bind (quiet_upvalueCell _ _) (fun _ ↦ (uses_loadCell _).bind fun _ ↦ hdone) s
  case setUpvalue =>
    exact Uses.quiet_bind (quiet_upvalueCell _ _) (fun _ ↦ (uses_storeCell _).bind fun _ ↦ hdone) s
  case getGlobal =>
    exact Uses.quiet_bind (quiet_orOperand _) (fun _ ↦ .quiet_bind (quiet_environment _) fun _ ↦
      .quiet_bind .get fun _ ↦ hpush _) s
  case setGlobal =>
    exact Uses.quiet_bind (quiet_orOperand _) (fun _ ↦ .quiet_bind (quiet_environment _) fun _ ↦
      uses_pop.bind fun _ ↦ hset _ _ _) s
  case getIndex =>
    exact ((uses_pop.under 1).bind fun _ ↦ uses_pop.bind fun _ ↦
      .quiet_bind (quiet_index _ _) hpush) s
  case setIndex =>
    exact ((uses_pop.under 2).bind fun _ ↦ (uses_pop.under 1).bind fun _ ↦
      uses_pop.bind fun _ ↦ hset _ _ _) s
  case newTable => exact Uses.quiet_bind quiet_newTable hpush s
  case initIndex =>
    exact ((uses_pop.under 2).bind fun _ ↦ (uses_pop.under 1).bind fun _ ↦
      (uses_top.drop (Nat.zero_le _)).bind fun _ ↦ hset _ _ _) s
  case setList => exact (usesAt_fillTable _ s).bind fun _ ↦ hdone
  case self =>
    exact Uses.quiet_bind (quiet_orOperand _) (fun _ ↦ uses_pop.bind fun _ ↦
      .quiet_bind (quiet_index _ _) fun _ ↦ (uses_push _).bind fun _ ↦ hpush _) s
  case neg | len =>
    exact Uses.quiet_bind .get (fun _ ↦ uses_pop.bind fun _ ↦ .quiet_bind (quiet_lift _) hpush) s
  case not => exact (uses_pop.bind fun _ ↦ hpush _) s
  case jump => exact ((uses_goTo _).bind fun _ ↦ hdone) s
  case jumpIfFalse =>
    refine (uses_pop.bind fun v ↦ ?_) s
    dsimp only
    split
    · exact (uses_goTo _).bind fun _ ↦ hdone
    · exact hdone
  case jumpIfFalseKeep | jumpIfTrueKeep => exact ((uses_jumpKeeping _ _).bind fun _ ↦ hdone) s
  case pop =>
    exact (((uses_popMany _).bind fun _ ↦ .quiet (.pure _)).bind fun _ ↦ hdone) s
  case forPrep =>
    exact Uses.quiet_bind (quiet_loopCells _ _)
      (fun _ ↦ .quiet_bind (quiet_prepareLoop _) fun _ ↦ hdone) s
  case forTest =>
    exact Uses.quiet_bind .get (fun _ ↦ .quiet_bind (quiet_loopCells _ _) fun _ ↦ hpush _) s
  case forStep =>
    exact Uses.quiet_bind (quiet_loopCells _ _)
      (fun _ ↦ .quiet_bind (quiet_changeHeap _) fun _ ↦ hdone) s
  case call =>
    exact (Uses.quiet_bind (quiet_operandCount i) fun _ ↦ Uses.throughout (.quiet (.pure _))) s
  case ret =>
    have hret := (uses_popMany (i.a.toNat + (if i.b = 0 then 0 else s.lastMulti)) s).bind
      fun values ↦ Uses.quiet (.pure (Demand.ret values))
    exact ⟨hret.calls, hret.below, hret.left⟩
  case varargs => exact ((uses_placeResults _ _).bind fun _ ↦ hdone) s
  case closure => exact Uses.quiet_bind (quiet_makeClosure _ _) hpush s
  all_goals exact ((uses_binary _).bind fun _ ↦ hdone) s

/-- Instructions other than calls and returns only change the state. -/
theorem returns_perform (frame : Frame) (constants : Array Value) (i : Instruction) {op : Opcode}
    (hcall : op ≠ .call) (hret : op ≠ .ret) :
    Returns (· = .nothing) (perform frame constants i op) := by
  have hdone : Returns (· = Demand.nothing) (pure Demand.nothing : Machine Demand) := .pure rfl
  unfold perform
  cases op
  case call => exact absurd rfl hcall
  case ret => exact absurd rfl hret
  case newCell =>
    refine .bind fun v ↦ .bind fun cell ↦ ?_
    split <;> exact .bind fun _ ↦ hdone
  case jumpIfFalse =>
    refine .bind fun v ↦ ?_
    split
    · exact .bind fun _ ↦ hdone
    · exact hdone
  all_goals repeat first
    | exact hdone
    | refine .bind fun _ ↦ ?_

/-- A call leaves its operands where they are. -/
theorem perform_call {frame : Frame} {constants : Array Value} {i : Instruction} {op : Opcode}
    (hop : i.opcode? = some op) {s t : State} {argCount : Nat} {expected : Option Nat}
    (h : perform frame constants i op s = .ok (.call argCount expected) t) :
    t = s ∧ argCount + 1 = i.takes s.lastMulti := by
  by_cases hcall : op = .call
  · subst hcall
    unfold perform at h
    simp only [bind_apply, operandCount_apply, pure_eq_ok, Demand.call.injEq] at h
    obtain ⟨⟨rfl, -⟩, rfl⟩ := h
    unfold Instruction.takes
    rw [hop]
    exact ⟨rfl, rfl⟩
  · by_cases hret : op = .ret
    · subst hret
      unfold perform at h
      simp only [bind_eq_ok, pure_eq_ok, reduceCtorEq, false_and, and_false, exists_false] at h
    · exact absurd (returns_perform frame constants i hcall hret s _ t h) (by simp)

end Machine

/-- The instruction the innermost guest function executes next. -/
def State.next? (s : State) : Option Instruction :=
  match s.activations with
  | .guest frame :: _ => (s.proto? frame.closure).bind fun p ↦ p.code[frame.ip]?
  | _ => none

/-- How many values on top of the stack the next instruction reads or removes. -/
def State.takes (s : State) : Nat := (s.next?.map (Instruction.takes s.lastMulti)).getD 0

namespace Machine

open Effects

theorem takes_eq {s : State} {frame : Frame} {rest : List Activation} {p : Prototype}
    {i : Instruction} (hs : s.activations = .guest frame :: rest)
    (hp : s.proto? frame.closure = some p) (hi : p.code[frame.ip]? = some i) :
    s.takes = i.takes s.lastMulti := by
  simp [State.takes, State.next?, hs, hp, hi]

theorem advance_stack (s : State) : (advance s).stack = s.stack := by
  unfold advance
  split <;> rfl

theorem advance_heap (s : State) : (advance s).heap = s.heap := by
  unfold advance
  split <;> rfl

theorem advance_options (s : State) : (advance s).options = s.options := by
  unfold advance
  split <;> rfl

theorem advance_lastMulti (s : State) : (advance s).lastMulti = s.lastMulti := by
  unfold advance
  split <;> rfl

theorem sameCalls_advance (s : State) : SameCalls s.activations (advance s).activations := by
  unfold advance
  split
  · next frame rest h =>
    rw [h]
    exact .guest frame _ _ rest
  · exact .refl _

theorem usesAt_instruction (s : State) : UsesAt s s.takes 0 instruction := by
  have hstay (n : Nat) (hn : n + s.takes ≤ s.stack.size) : SameBelow n s.stack s.stack :=
    .refl (by omega)
  rw [UsesAt.iff, instruction_apply]
  match hs : s.activations with
  | [] | .native _ :: _ =>
    simp only [final_error, hs]
    exact ⟨.refl _, hstay, trivial⟩
  | .guest frame :: rest =>
    match hp : s.proto? frame.closure with
    | none =>
      simp only [hp, final_error, hs]
      exact ⟨.refl _, hstay, trivial⟩
    | some p =>
      match hi : p.code[frame.ip]? with
      | none =>
        simp only [hp, hi, final_ok, hs]
        exact ⟨.refl _, hstay, fun n hn ↦ by omega⟩
      | some i =>
        match hop : i.opcode? with
        | none =>
          simp only [hp, hi, hop, final_error]
          rw [advance_stack]
          exact ⟨hs ▸ sameCalls_advance s, hstay, trivial⟩
        | some op =>
          simp only [hp, hi, hop]
          have hrun := usesAt_perform frame p.constants hop (advance s)
          rw [advance_lastMulti, ← takes_eq hs hp hi, UsesAt.iff, advance_stack] at hrun
          exact ⟨hs ▸ (sameCalls_advance s).trans hrun.1, hrun.2⟩

theorem instruction_call {s t : State} {argCount : Nat} {expected : Option Nat}
    (h : instruction s = .ok (.call argCount expected) t) :
    t = advance s ∧ argCount + 1 = s.takes := by
  rw [instruction_apply] at h
  split at h
  · next frame rest hs =>
    split at h
    · cases h
    · next p hp =>
      split at h
      · cases h
      · next i hi =>
        split at h
        · cases h
        · next op hop =>
          obtain ⟨rfl, hcount⟩ := perform_call hop h
          rw [advance_lastMulti] at hcount
          exact ⟨rfl, hcount.trans (takes_eq hs hp hi).symm⟩
  · cases h

theorem allocCells_eq_ok (args : List Value) (n : Nat) (s : State) :
    ∃ cells t, allocCells args n s = .ok cells t := by
  induction n generalizing args s with
  | zero => exact ⟨_, _, rfl⟩
  | succ n ih =>
    unfold allocCells
    simp only [bind_apply, onHeap, modifyGet_apply]
    obtain ⟨cells, t, h⟩ := ih args.tail { s with heap := (s.heap.allocCell (args.headD .nil)).2 }
    rw [h]
    exact ⟨_, _, rfl⟩

/-- A closure that cannot be entered leaves no trace; one that can runs on top of what its callee
slot cuts the stack down to. -/
theorem enterClosure_cases (closure floor : Nat) (expected : Option Nat) (s : State) :
    (∃ e, enterClosure closure floor expected s = .error e s) ∨
      ∃ frame t, enterClosure closure floor expected s = .ok () t ∧ frame.base = floor ∧
        t.activations = .guest frame :: s.activations ∧ t.stack = s.stack.shrink floor := by
  unfold enterClosure checkDepth
  simp only [bind_apply, get_apply]
  by_cases hdepth : s.options.maxCallDepth ≤ s.activations.length
  · exact .inl ⟨_, by rw [if_pos hdepth]; rfl⟩
  · rw [if_neg hdepth]
    simp only [pure_apply]
    match hp : s.proto? closure with
    | none => exact .inl ⟨_, rfl⟩
    | some p =>
      right
      simp only [bind_apply, get_apply, modify_apply]
      generalize (s.stack.extract (floor + 1) s.stack.size).toList = args
      have hquiet := quiet_allocCells args p.arity (s.truncate floor)
      obtain ⟨cells, t, hcells⟩ := allocCells_eq_ok args p.arity (s.truncate floor)
      rw [hcells] at hquiet ⊢
      exact ⟨_, _, rfl, rfl, congrArg _ hquiet.activations, hquiet.stack⟩

theorem enterNative_cases (natives : Array Native) (native floor argCount : Nat)
    (expected : Option Nat) (s : State) :
    (∃ e, enterNative natives native floor argCount expected s = .error e s) ∨
      ∃ n call t, enterNative natives native floor argCount expected s = .ok n t ∧ n ∈ natives ∧
        call.base = floor + 1 ∧ t.activations = .native call :: s.activations ∧
        t.stack = s.stack := by
  unfold enterNative checkDepth
  simp only [bind_apply, get_apply]
  by_cases hdepth : s.options.maxCallDepth ≤ s.activations.length
  · exact .inl ⟨_, by rw [if_pos hdepth]; rfl⟩
  · rw [if_neg hdepth]
    simp only [pure_apply]
    match hn : natives[native]? with
    | none => exact .inl ⟨_, rfl⟩
    | some n => exact .inr ⟨n, _, _, rfl, Array.mem_of_getElem? hn, rfl, rfl, rfl⟩

end Machine

end MiniLua
