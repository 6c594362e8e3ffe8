import MiniLua.Proofs.Calls.Reach
import MiniLua.Proofs.Machine.Performed

/-!
What an instruction does does not depend on values further down the stack than it takes operands
from: put others in their place, and it does the same.
-/

namespace MiniLua

open Effects Machine

/-- A program ends alike above two stacks, and leaves at least `j` values there if it ends well. -/
inductive SameAbove (low low' : Array Value) (j : Nat) {α : Type} :
    EStateM.Result RuntimeError State α → EStateM.Result RuntimeError State α → Prop
  | ok (a : α) (s : State) (vs : List Value) (left : j ≤ vs.length) :
      SameAbove low low' j (.ok a { s with stack := low ++ vs }) (.ok a { s with stack := low' ++ vs })
  | error (e : RuntimeError) (s : State) (vs : List Value) :
      SameAbove low low' j (.error e { s with stack := low ++ vs })
        (.error e { s with stack := low' ++ vs })

theorem SameAbove.mono {low low' : Array Value} {j l : Nat} {α : Type}
    {r r' : EStateM.Result RuntimeError State α} (h : SameAbove low low' j r r') (hl : l ≤ j) :
    SameAbove low low' l r r' := by
  cases h with
  | ok a s vs left => exact .ok a s vs (Nat.le_trans hl left)
  | error e s vs => exact .error e s vs

/-- Started in `s`, the program reads no more than the top `k` values of the stack, and leaves `j` in
their place. -/
def BlindAt {α : Type} (s : State) (k j : Nat) (m : Machine α) : Prop :=
  ∀ low low' : Array Value, low.size = low'.size → ∀ (vs : List Value) (d : Nat), k + d ≤ vs.length →
    SameAbove low low' (j + d) (m { s with stack := low ++ vs }) (m { s with stack := low' ++ vs })

def Blind {α : Type} (k j : Nat) (m : Machine α) : Prop := ∀ s, BlindAt s k j m

/-- A program to which the stack does not matter. -/
def Stackless {α : Type} (m : Machine α) : Prop :=
  ∀ s : State,
    (∃ (a : α) (t : State), ∀ S : Array Value, m { s with stack := S } = .ok a { t with stack := S }) ∨
      ∃ (e : RuntimeError) (t : State), ∀ S : Array Value,
        m { s with stack := S } = .error e { t with stack := S }

namespace Stackless

variable {α β : Type} {m : Machine α}

theorem pure (a : α) : Stackless (Pure.pure a : Machine α) := fun s ↦ .inl ⟨a, s, fun _ ↦ rfl⟩

theorem throw (e : RuntimeError) : Stackless (throw e : Machine α) := fun s ↦ .inr ⟨e, s, fun _ ↦ rfl⟩

theorem bind {f : α → Machine β} (hm : Stackless m) (hf : ∀ a, Stackless (f a)) :
    Stackless (m >>= f) := by
  intro s
  obtain ⟨a, t, hrun⟩ | ⟨e, t, hrun⟩ := hm s
  · obtain ⟨b, u, hrun'⟩ | ⟨e, u, hrun'⟩ := hf a t
    · exact .inl ⟨b, u, fun stack ↦ by rw [bind_of_ok (hrun stack), hrun']⟩
    · exact .inr ⟨e, u, fun stack ↦ by rw [bind_of_ok (hrun stack), hrun']⟩
  · exact .inr ⟨e, t, fun stack ↦ bind_of_error (hrun stack)⟩

theorem map {f : α → β} (hm : Stackless m) : Stackless (f <$> m) := by
  rw [← bind_pure_comp]
  exact hm.bind fun _ ↦ .pure _

/-- A program that looks at the state, but not at its stack. -/
theorem get_bind {f : State → Machine β}
    (h : ∀ (s : State) (S : Array Value), f { s with stack := S } = f s)
    (hf : ∀ s, Stackless (f s)) : Stackless (get >>= f) := by
  intro s
  have hget (S : Array Value) : (get >>= f) { s with stack := S } = f s { s with stack := S } := by
    rw [bind_apply, get_apply]
    dsimp only
    rw [h]
  obtain ⟨b, u, hrun⟩ | ⟨e, u, hrun⟩ := hf s s
  · exact .inl ⟨b, u, fun S ↦ (hget S).trans (hrun S)⟩
  · exact .inr ⟨e, u, fun S ↦ (hget S).trans (hrun S)⟩

theorem lift (r : Except RuntimeError α) : Stackless (lift r) := by
  cases r with
  | ok a => exact .pure a
  | error e => exact .throw e

theorem orOperand (v : Option α) : Stackless (orOperand v) := by
  cases v with
  | some a => exact .pure a
  | none => exact .throw _

theorem onHeap (f : Heap → α × Heap) : Stackless (onHeap f) := fun s ↦
  .inl ⟨(f s.heap).1, { s with heap := (f s.heap).2 }, fun _ ↦ rfl⟩

theorem changeHeap (f : Heap → Heap) : Stackless (changeHeap f) := fun s ↦
  .inl ⟨⟨⟩, { s with heap := f s.heap }, fun _ ↦ rfl⟩

theorem bytesValue (bytes : Bytes) : Stackless (bytesValue bytes) := (onHeap _).bind fun _ ↦ .pure _

theorem index (object key : Value) : Stackless (index object key) := by
  refine get_bind (fun _ _ ↦ rfl) fun s ↦ ?_
  cases object <;> first | exact .pure _ | exact .throw _

theorem setIndex (object key value : Value) : Stackless (setIndex object key value) := by
  unfold Machine.setIndex
  cases object with
  | table t =>
    dsimp only
    split
    · refine get_bind (fun _ _ ↦ rfl) fun s ↦ ?_
      split
      · exact changeHeap _
      · exact .throw _
    · exact .throw _
  | _ => exact .throw _

theorem frameCell (frame : Frame) (slot : Nat) : Stackless (frameCell frame slot) := orOperand _

theorem upvalueCell (frame : Frame) (slot : Nat) : Stackless (upvalueCell frame slot) := by
  refine get_bind (fun _ _ ↦ rfl) fun s ↦ ?_
  split
  · exact orOperand _
  · exact .throw _

theorem environment (frame : Frame) : Stackless (environment frame) := by
  refine get_bind (fun _ _ ↦ rfl) fun s ↦ ?_
  split
  · exact .pure _
  · exact .throw _

theorem captured (frame : Frame) (upvalues : Array Nat) (captures : List Capture) :
    Stackless (captured frame upvalues captures) := by
  induction captures with
  | nil => exact .pure _
  | cons c captures ih =>
    unfold Machine.captured at ih ⊢
    rw [List.mapM_cons]
    refine bind ?_ fun _ ↦ ih.bind fun _ ↦ .pure _
    cases c <;> exact orOperand _

theorem makeClosure (frame : Frame) (x : Nat) : Stackless (makeClosure frame x) := by
  refine get_bind (fun _ _ ↦ rfl) fun s ↦ ?_
  split
  · exact .throw _
  · refine get_bind (fun _ _ ↦ rfl) fun s ↦ (orOperand _).bind fun proto ↦
      get_bind (fun _ _ ↦ rfl) fun s ↦ ?_
    split
    · exact .throw _
    · exact (captured _ _ _).bind fun _ ↦ (onHeap _).bind fun _ ↦ .pure _

theorem loopCells (frame : Frame) (x : Nat) : Stackless (loopCells frame x) :=
  (frameCell _ _).bind fun _ ↦ (frameCell _ _).bind fun _ ↦ (frameCell _ _).bind fun _ ↦ .pure _

theorem loopNumber (v : Value) (what : String) : Stackless (loopNumber v what) := by
  refine get_bind (fun _ _ ↦ rfl) fun s ↦ ?_
  split
  · exact .pure _
  · exact .throw _

theorem prepareLoop (cells : LoopCells) : Stackless (prepareLoop cells) := by
  refine get_bind (fun _ _ ↦ rfl) fun s ↦ (loopNumber _ _).bind fun counter ↦
    (loopNumber _ _).bind fun limit ↦ (loopNumber _ _).bind fun step ↦ ?_
  dsimp only
  split <;> exact (changeHeap _).bind fun _ ↦ (changeHeap _).bind fun _ ↦ changeHeap _

theorem modify {f : State → State}
    (h : ∀ (s : State) (S : Array Value), f { s with stack := S } = { f s with stack := S }) :
    Stackless (modify f : Machine PUnit) := fun s ↦ .inl ⟨⟨⟩, f s, fun S ↦ congrArg _ (h s S)⟩

theorem changeFrame (f : Frame → Frame) : Stackless (changeFrame f) := by
  refine modify fun s S ↦ ?_
  dsimp only
  split <;> rfl

theorem operandCount (i : Instruction) : Stackless (operandCount i) :=
  get_bind (fun _ _ ↦ rfl) fun _ ↦ .pure _

end Stackless

namespace Blind

variable {α β : Type} {m : Machine α} {k j l : Nat}

theorem bindAt {s : State} {f : α → Machine β} (hm : BlindAt s k j m) (hf : ∀ a, Blind j l (f a)) :
    BlindAt s k l (m >>= f) := by
  intro low low' hsize vs d hlen
  have h := hm low low' hsize vs d hlen
  rw [bind_apply, bind_apply]
  generalize m { s with stack := low ++ vs } = r, m { s with stack := low' ++ vs } = r' at h
  cases h with
  | ok a t ws left => exact hf a t low low' hsize ws d left
  | error e t ws => exact .error e t ws

theorem bind {f : α → Machine β} (hm : Blind k j m) (hf : ∀ a, Blind j l (f a)) :
    Blind k l (m >>= f) := fun s ↦ bindAt (hm s) hf

theorem under (hm : Blind k j m) (n : Nat) : Blind (k + n) (j + n) m := by
  intro s low low' hsize vs d hlen
  have h := hm s low low' hsize vs (n + d) (by omega)
  rwa [← Nat.add_assoc] at h

theorem drop (hm : Blind k j m) (hl : l ≤ j) : Blind k l m := fun s low low' hsize vs d hlen ↦
  (hm s low low' hsize vs d hlen).mono (Nat.add_le_add_right hl d)

theorem of_stackless (h : Stackless m) : Blind k k m := by
  intro s low low' _ vs d hlen
  obtain ⟨a, t, hrun⟩ | ⟨e, t, hrun⟩ := h s
  · rw [hrun, hrun]
    exact .ok a t vs hlen
  · rw [hrun, hrun]
    exact .error e t vs

theorem pure (a : α) : Blind k 0 (Pure.pure a : Machine α) := (of_stackless (.pure a)).drop (Nat.zero_le k)

theorem push (v : Value) : Blind k k (push v) := by
  intro s low low' hsize vs d hlen
  have hsame : (low ++ vs).size = (low' ++ vs).size := by rw [size_appendList, size_appendList, hsize]
  rw [push_apply, push_apply]
  dsimp only
  rw [← hsame]
  split
  · have happend (S : Array Value) : (S ++ vs).push v = S ++ (vs ++ [v]) := by
      apply Array.ext'
      simp
    rw [happend, happend]
    exact .ok () s (vs ++ [v]) (by rw [List.length_append]; omega)
  · exact .error _ s vs

theorem pushAll (vs : List Value) : Blind k k (pushAll vs) := by
  induction vs with
  | nil => exact of_stackless (.pure _)
  | cons v vs ih => exact (Blind.push v).bind fun _ ↦ ih

theorem top : Blind 1 1 top := by
  intro s low low' hsize vs d hlen
  obtain ⟨ws, w, rfl⟩ : ∃ ws w, vs = ws ++ [w] := ⟨_, _, (List.dropLast_concat_getLast (by
    rintro rfl
    simp at hlen)).symm⟩
  have happend (S : Array Value) : S ++ (ws ++ [w]) = (S ++ ws).push w := by
    apply Array.ext'
    simp
  rw [top_push (happend low), top_push (happend low')]
  exact .ok w s (ws ++ [w]) (by omega)

theorem popMany (n : Nat) : Blind n 0 (popMany n) := by
  intro s low low' hsize vs d hlen
  have hsplit (S : Array Value) : S ++ vs =
      (S ++ vs.take (vs.length - n)) ++ vs.drop (vs.length - n) := by
    rw [appendList_append, List.take_append_drop]
  have hn : (vs.drop (vs.length - n)).length = n := by
    rw [List.length_drop]
    omega
  have hpop (S : Array Value) := popMany_append (s := { s with stack := S ++ vs }) (hsplit S)
  rw [hn] at hpop
  rw [hpop, hpop]
  exact .ok _ s _ (by rw [List.length_take]; omega)

theorem pop : Blind 1 0 pop := by
  intro s low low' hsize vs d hlen
  obtain ⟨ws, w, rfl⟩ : ∃ ws w, vs = ws ++ [w] := ⟨_, _, (List.dropLast_concat_getLast (by
    rintro rfl
    simp at hlen)).symm⟩
  have happend (S : Array Value) : S ++ (ws ++ [w]) = (S ++ ws).push w := by
    apply Array.ext'
    simp
  rw [pop_push (happend low), pop_push (happend low')]
  exact .ok w s ws (by rw [List.length_append] at hlen; simp at hlen; omega)

theorem skip (hm : Stackless m) {f : α → Machine β} (hf : ∀ a, Blind k j (f a)) :
    Blind k j (m >>= f) := (of_stackless hm).bind hf

/-- What is not looked at counts as taken. -/
theorem throughout (hm : Blind 0 0 m) : Blind k 0 m := by
  have h := (hm.under k).drop (Nat.zero_le _)
  rwa [Nat.zero_add] at h

theorem atState {s : State} {f : State → Machine β}
    (h : ∀ S : Array Value, f { s with stack := S } = f s) (hf : BlindAt s k j (f s)) :
    BlindAt s k j (get >>= f) := by
  intro low low' hsize vs d hlen
  have hget (S : Array Value) : (get >>= f) { s with stack := S } = f s { s with stack := S } := by
    rw [bind_apply, get_apply]
    dsimp only
    rw [h]
  rw [hget, hget]
  exact hf low low' hsize vs d hlen

theorem placeResults (vs : List Value) (expected : Option Nat) : Blind k k (placeResults vs expected) := by
  cases expected with
  | some n => exact pushAll _
  | none => exact skip (.modify fun _ _ ↦ rfl) fun _ ↦ pushAll _

theorem loadCell (cell : Nat) : Blind k k (loadCell cell) := by
  intro s
  exact atState (fun _ ↦ rfl) (push _ s)

theorem storeCell (cell : Nat) : Blind 1 0 (storeCell cell) :=
  pop.bind fun _ ↦ of_stackless (.changeHeap _)

theorem binary (op : Opcode) : Blind 2 0 (binary op) := by
  refine (pop.under 1).bind fun b ↦ pop.bind fun a s ↦ atState (fun _ ↦ rfl) ?_
  dsimp only
  split
  · exact skip (.lift _) (fun _ ↦ skip (.bytesValue _) push) s
  all_goals first
    | exact push _ s
    | exact skip (.lift _) push s
    | exact skip (Stackless.lift _).map push s

theorem jumpKeeping (keep : Value → Bool) (x : Nat) : Blind 1 0 (jumpKeeping keep x) := by
  refine top.bind fun v ↦ ?_
  split
  · exact throughout (of_stackless (.changeFrame _))
  · exact pop.bind fun _ ↦ of_stackless (.pure _)

theorem fillTable (start : Nat) (s : State) : BlindAt s (s.lastMulti + 1) 0 (fillTable start) := by
  refine atState (fun _ ↦ rfl) (bindAt ((popMany _).under 1 s) fun values ↦
    (Nat.zero_add 1 ▸ top).bind fun v ↦ ?_)
  refine (of_stackless ?_).drop (Nat.zero_le 1)
  split
  · refine .get_bind (fun _ _ ↦ rfl) fun s ↦ ?_
    split
    · exact .changeHeap _
    · exact .throw _
  · exact .throw _

end Blind

end MiniLua
