import MiniLua.Proofs.Machine.Primitives
import MiniLua.Proofs.Twins.Machines

/-! Instructions do the same in machines that correspond. -/

namespace MiniLua

open Effects Machine

theorem numberLe_of_matches {n : Nat} {h h' : Heap} {v v' w w' : Value} (hv : h.Matches n h' v v')
    (hw : h.Matches n h' w w') : numberLe v w = numberLe v' w' := by
  cases hv <;> cases hw <;> rfl

namespace Mirrored

variable {n : Nat} {s s' : State} (h : s.Twins n s')

include h

theorem changeHeap {f f' : Heap → Heap} (hf : (f s.heap).Mirrors n (f' s'.heap))
    (g : s.heap.Evolves (f s.heap)) (g' : s'.heap.Evolves (f' s'.heap)) :
    Together n s s' (changeHeap f s) (changeHeap f' s') :=
  .ok (h.withHeap hf g g') g g' trivial

theorem onHeap {α α' : Type} {P : Heap → Heap → α → α' → Prop} {f : Heap → α × Heap}
    {f' : Heap → α' × Heap} (hf : (f s.heap).2.Mirrors n (f' s'.heap).2)
    (g : s.heap.Evolves (f s.heap).2) (g' : s'.heap.Evolves (f' s'.heap).2)
    (hP : P (f s.heap).2 (f' s'.heap).2 (f s.heap).1 (f' s'.heap).1) :
    Mirrored n P s s' (onHeap f s) (onHeap f' s') :=
  .ok (h.withHeap hf g g') g g' hP

theorem push {v v' : Value} (hv : s.heap.Matches n s'.heap v v') :
    Together n s s' (push v s) (push v' s') := by
  rw [push_apply, push_apply]
  by_cases hroom : s.stack.size < s.options.maxStack
  · have hroom' : s'.stack.size < s'.options.maxStack := by rwa [h.stack_size, h.options]
    rw [if_pos hroom, if_pos hroom']
    refine .ok (h.withStack ?_) (.refl _) (.refl _) trivial
    simp only [Array.toList_push]
    exact List.rel_append h.stack (.cons hv .nil)
  · have hroom' : ¬s'.stack.size < s'.options.maxStack := by rwa [h.stack_size, h.options]
    rw [if_neg hroom, if_neg hroom']
    exact .error h (.refl _) (.refl _) (.plain _ rfl)

theorem pushAll {vs vs' : List Value} (hvs : List.Forall₂ (s.heap.Matches n s'.heap) vs vs') :
    Together n s s' (pushAll vs s) (pushAll vs' s') := by
  induction vs generalizing vs' s s' with
  | nil =>
    cases hvs
    exact .pure h trivial
  | cons v vs ih =>
    cases hvs with
    | cons hv hrest =>
      rw [pushAll_cons, pushAll_cons]
      refine (push h hv).bind fun _ _ t t' ht hs hs' _ ↦ ih ht ?_
      exact hrest.imp fun _ _ hw ↦ hw.mono hs.toGrows hs'.toGrows

/-- The tops of the two stacks, if there are any. -/
theorem back? : Option.Rel (s.heap.Matches n s'.heap) s.stack.back? s'.stack.back? := by
  have hentry := forall₂_getElem? h.stack (s.stack.size - 1)
  simp only [Array.getElem?_toList] at hentry
  rw [Array.back?, Array.back?, h.stack_size]
  exact hentry

theorem top : Peeks n (s.heap.Matches n s'.heap) s s' top top := by
  have htop := back? h
  cases hv : s.stack.back? with
  | none =>
    rw [hv] at htop
    cases hv' : s'.stack.back? with
    | none =>
      refine .error ?_ ?_ (.plain .operand rfl)
      · rw [top_apply, hv]
      · rw [top_apply, hv']
    | some v' =>
      rw [hv'] at htop
      cases htop
  | some v =>
    rw [hv] at htop
    cases hv' : s'.stack.back? with
    | none =>
      rw [hv'] at htop
      cases htop
    | some v' =>
      rw [hv'] at htop
      refine .ok ?_ ?_ (by cases htop; assumption)
      · rw [top_apply, hv]
      · rw [top_apply, hv']

/-- The values popped correspond already before. -/
theorem popped : Mirrored n (fun _ _ ↦ s.heap.Matches n s'.heap) s s' (pop s) (pop s') := by
  refine (top h).sync_bind h fun v v' hv ↦ ?_
  refine .ok (h.withStack ?_) (.refl _) (.refl _) hv
  simp only [Array.toList_pop]
  exact forall₂_dropLast h.stack

theorem pop : Mirrored n (fun k k' ↦ k.Matches n k') s s' (pop s) (pop s') :=
  (popped h).mono (fun _ _ ht _ _ ↦ ht) fun _ _ _ _ g g' hv ↦ hv.mono g.toGrows g'.toGrows

theorem popMany (count : Nat) :
    Mirrored n (fun k k' ↦ List.Forall₂ (k.Matches n k')) s s' (popMany count s)
      (popMany count s') := by
  rw [popMany_apply, popMany_apply]
  by_cases hfew : s.stack.size < count
  · have hfew' : s'.stack.size < count := by rwa [h.stack_size]
    rw [if_pos hfew, if_pos hfew']
    exact .error h (.refl _) (.refl _) (.plain _ rfl)
  · have hfew' : ¬s'.stack.size < count := by rwa [h.stack_size]
    rw [if_neg hfew, if_neg hfew', h.stack_size]
    refine .ok (h.withStack ?_) (.refl _) (.refl _) ?_
    · exact forall₂_shrink h.stack _
    · exact forall₂_extract h.stack _ _

theorem bytesValue (bytes : Bytes) :
    Mirrored n (fun k k' ↦ k.Matches n k') s s' (bytesValue bytes s) (bytesValue bytes s') := by
  have hvalue : (s.heap.intern bytes).2.Matches n (s'.heap.intern bytes).2
      (.string (s.heap.intern bytes).1) (.string (s'.heap.intern bytes).1) :=
    .string (Heap.bytes?_intern h.heap.exact.sound bytes)
      (Heap.bytes?_intern h.heap.exact'.sound bytes)
  exact (onHeap (P := fun k k' i j ↦ k.Matches n k' (.string i) (.string j)) h
    (h.heap.intern bytes) (.intern _ _) (.intern _ _) hvalue).bind
      fun i j t t' ht _ _ hij ↦ .pure ht hij

theorem newTable : Mirrored n (fun k k' ↦ k.Matches n k') s s' (newTable s) (newTable s') := by
  obtain ⟨hheap, hvalue⟩ := h.heap.allocTable (Table.twins_empty _)
  exact (onHeap (P := fun k k' i j ↦ k.Matches n k' (.table i) (.table j)) h hheap
    (.allocTable _ _) (.allocTable _ _) hvalue).bind fun i j t t' ht _ _ hij ↦ .pure ht hij

omit h in
theorem orOperand {α α' : Type} {Q : α → α' → Prop} {a : Option α} {a' : Option α'}
    (ha : Option.Rel Q a a') : Peeks n Q s s' (orOperand a) (orOperand a') := by
  cases ha with
  | none => exact .throw (.plain _ rfl)
  | some ha => exact .pure ha

theorem index {v v' key key' : Value} (hv : s.heap.Matches n s'.heap v v')
    (hkey : s.heap.Matches n s'.heap key key') :
    Peeks n (s.heap.Matches n s'.heap) s s' (index v key) (index v' key') := by
  refine Peeks.get.bind fun t t' ⟨ht, ht'⟩ ↦ ?_
  subst ht ht'
  cases hv with
  | table hi hi' => exact .pure (h.heap.rawGet (.table hi hi') hkey)
  | string hi hj => exact .pure (h.heap.rawGet h.stringMethods hkey)
  | nil | bool | int | float | closure | native => exact .throw (.plain _ rfl)

theorem setIndex {v v' key key' w w' : Value} (hv : s.heap.Matches n s'.heap v v')
    (hkey : s.heap.Matches n s'.heap key key') (hw : s.heap.Matches n s'.heap w w') :
    Together n s s' (setIndex v key w s) (setIndex v' key' w' s') := by
  cases hv with
  | @table i hi hi' =>
    have hk := hkey.key
    unfold Machine.setIndex
    rw [hkey.isNil]
    generalize Key.ofValue? key = k, Key.ofValue? key' = k' at hk
    cases hk with
    | none => exact .throw h (.plain _ rfl)
    | some hk =>
      refine Peeks.get.sync_bind h fun t t' ⟨ht, ht'⟩ ↦ ?_
      subst ht ht'
      rw [if_pos hi, if_pos hi']
      refine changeHeap h (h.heap.modifyTable i fun a b hab ↦ ?_) (.modifyTable _ _ _)
        (.modifyTable _ _ _)
      exact hab.set h.heap.pairing hk hw
  | nil | bool | int | float | string | closure | native => exact .throw h (.plain _ rfl)

section

variable {f f' : Frame} (hf : f.Twins (s.heap.Matches n s'.heap) f')

include hf

omit h in
theorem frameCell (slot : Nat) : Peeks n (· = ·) s s' (frameCell f slot) (frameCell f' slot) := by
  unfold Machine.frameCell
  rw [hf.cells]
  refine orOperand ?_
  cases f.cells.getD slot none with
  | none => exact .none
  | some cell => exact .some rfl

/-- The closures the two frames run. -/
theorem running : Option.Rel (fun c c' ↦ s.heap.ClosureTwins n s'.heap c c' ∧
    s.heap.Matches n s'.heap (.table c.env) (.table c'.env)) s.heap.closures[f.closure]?
    s'.heap.closures[f'.closure]? := by
  rw [hf.closure.closure_eq]
  exact h.heap.closure f.closure

theorem upvalueCell (slot : Nat) :
    Peeks n (· = ·) s s' (upvalueCell f slot) (upvalueCell f' slot) := by
  refine Peeks.get.bind fun t t' ⟨ht, ht'⟩ ↦ ?_
  subst ht ht'
  have hc := running h hf
  generalize t.heap.closures[f.closure]? = c, t'.heap.closures[f'.closure]? = c' at hc
  cases hc with
  | none => exact .throw (.plain _ rfl)
  | @some c c' hc =>
    dsimp only
    rw [hc.1.2]
    refine orOperand ?_
    cases c.upvalues[slot]? with
    | none => exact .none
    | some cell => exact .some rfl

theorem environment : Peeks n (s.heap.Matches n s'.heap) s s' (environment f) (environment f') := by
  refine Peeks.get.bind fun t t' ⟨ht, ht'⟩ ↦ ?_
  subst ht ht'
  have hc := running h hf
  generalize t.heap.closures[f.closure]? = c, t'.heap.closures[f'.closure]? = c' at hc
  cases hc with
  | none => exact .throw (.plain _ rfl)
  | some hc => exact .pure hc.2

omit h in
theorem captured (upvalues : Array Nat) (captures : List Capture) :
    Peeks n (List.Forall₂ (· = ·)) s s' (captured f upvalues captures)
      (captured f' upvalues captures) := by
  refine .mapM _ fun c ↦ ?_
  cases c with
  | cell slot => exact frameCell hf slot
  | upvalue i =>
    refine orOperand ?_
    cases upvalues[i]? with
    | none => exact .none
    | some cell => exact .some rfl

theorem makeClosure (x : Nat) :
    Mirrored n (fun k k' ↦ k.Matches n k') s s' (makeClosure f x s) (makeClosure f' x s') := by
  refine Peeks.get.sync_bind h fun t t' ⟨ht, ht'⟩ ↦ ?_
  subst ht ht'
  have hc := running h hf
  generalize t.heap.closures[f.closure]? = c, t'.heap.closures[f'.closure]? = c' at hc
  cases hc with
  | none => exact .throw h (.plain _ rfl)
  | @some c c' hc =>
    obtain ⟨⟨⟨d, hd⟩, hup⟩, henv⟩ := hc
    cases d with
    | zero => exact hd.elim
    | succ d =>
      obtain ⟨p, q, hp, hq, hpq⟩ := hd
      refine Peeks.get.sync_bind h fun t t' ⟨ht, ht'⟩ ↦ ?_
      subst ht ht'
      have hnested : Option.Rel (t.heap.CodeTwins n t'.heap d)
          ((t.heap.protos[c.proto]?).bind fun p ↦ p.protos[x]?)
          ((t'.heap.protos[c'.proto]?).bind fun p ↦ p.protos[x]?) := by
        have hentry := forall₂_getElem? hpq.protos x
        simp only [Array.getElem?_toList] at hentry
        rw [hp, hq]
        exact hentry
      refine (orOperand hnested).sync_bind h fun i j hij ↦
        Peeks.get.sync_bind h fun t t' ⟨ht, ht'⟩ ↦ ?_
      subst ht ht'
      cases d with
      | zero => exact hij.elim
      | succ d =>
        obtain ⟨p, q, hp, hq, hpq⟩ := id hij
        rw [hp, hq]
        dsimp only
        rw [hpq.captures, hup]
        refine (captured hf _ _).sync_bind h fun cells cells' hcells ↦ ?_
        rw [List.forall₂_eq_eq_eq] at hcells
        subst hcells
        have hcode : t.heap.ClosureTwins n t'.heap ⟨i, c.env, cells.toArray⟩
          ⟨j, c'.env, cells.toArray⟩ := ⟨⟨_, hij⟩, rfl⟩
        obtain ⟨hheap, hvalue⟩ := h.heap.allocClosure hcode henv
        exact (onHeap (P := fun k k' i j ↦ k.Matches n k' (.closure i) (.closure j)) h hheap
          (.allocClosure _ _) (.allocClosure _ _) hvalue).bind
            fun i j t t' ht _ _ hij ↦ .pure ht hij

omit h in
theorem loopCells (x : Nat) : Peeks n (· = ·) s s' (loopCells f x) (loopCells f' x) :=
  (frameCell hf _).bind fun _ _ ha ↦ ha ▸ (frameCell hf _).bind fun _ _ hb ↦ hb ▸
    (frameCell hf _).bind fun _ _ hc ↦ hc ▸ .pure rfl

end

theorem loadCell (cell : Nat) : Together n s s' (loadCell cell s) (loadCell cell s') := by
  refine Peeks.get.sync_bind h fun t t' ⟨ht, ht'⟩ ↦ ?_
  subst ht ht'
  exact push h (h.heap.cell cell)

theorem storeCell (cell : Nat) : Together n s s' (storeCell cell s) (storeCell cell s') :=
  (pop h).bind fun _ _ _ _ ht _ _ hv ↦
    changeHeap ht (ht.heap.setCell cell hv) (.setCell _ _ _) (.setCell _ _ _)

theorem loopNumber {v v' : Value} (hv : s.heap.Matches n s'.heap v v') (what : String) :
    Peeks n (fun w w' ↦ w = w' ∧ w.handle? = none) s s' (loopNumber v what)
      (loopNumber v' what) := by
  refine Peeks.get.bind fun t t' ⟨ht, ht'⟩ ↦ ?_
  subst ht ht'
  have hnumber := hv.number?
  cases hw : t.heap.number? v with
  | none =>
    rw [hw] at hnumber
    rw [← hnumber]
    exact .throw (.plain _ rfl)
  | some w =>
    rw [hw] at hnumber
    rw [← hnumber]
    exact .pure ⟨rfl, Operators.handle?_number? hw⟩

theorem prepareLoop (cells : LoopCells) :
    Together n s s' (prepareLoop cells s) (prepareLoop cells s') := by
  refine Peeks.get.sync_bind h fun t t' ⟨ht, ht'⟩ ↦ ?_
  subst ht ht'
  refine (loopNumber h (h.heap.cell _) _).sync_bind h fun counter _ ⟨hc, hcounter⟩ ↦
    (loopNumber h (h.heap.cell _) _).sync_bind h fun limit _ ⟨hl, hlimit⟩ ↦
      (loopNumber h (h.heap.cell _) _).sync_bind h fun step _ ⟨hs, hstep⟩ ↦ ?_
  subst hc hl hs
  have hstore {u u' : State} (hu : u.Twins n u') (cell : Nat) {v : Value} (hv : v.handle? = none) :
      Together n u u' (Machine.changeHeap (fun h ↦ h.setCell cell v) u)
        (Machine.changeHeap (fun h ↦ h.setCell cell v) u') :=
    changeHeap hu (hu.heap.setCell cell (.scalar hv)) (.setCell _ _ _) (.setCell _ _ _)
  have hall {a b c : Value} (ha : a.handle? = none) (hb : b.handle? = none)
      (hc : c.handle? = none) : Together n t t'
        ((do
          Machine.changeHeap fun h ↦ h.setCell cells.counter a
          Machine.changeHeap fun h ↦ h.setCell cells.limit b
          Machine.changeHeap fun h ↦ h.setCell cells.step c : Machine Unit) t)
        ((do
          Machine.changeHeap fun h ↦ h.setCell cells.counter a
          Machine.changeHeap fun h ↦ h.setCell cells.limit b
          Machine.changeHeap fun h ↦ h.setCell cells.step c : Machine Unit) t') :=
    (hstore h _ ha).bind fun _ _ _ _ hu _ _ _ ↦ (hstore hu _ hb).bind fun _ _ _ _ hu _ _ _ ↦
      hstore hu _ hc
  dsimp only
  split
  · exact hall rfl rfl rfl
  · exact hall rfl rfl rfl

theorem advanceLoop (cells : LoopCells) :
    Together n s s' (advanceLoop cells s) (advanceLoop cells s') := by
  refine changeHeap h ?_ (.setCell _ _ _) (.setCell _ _ _)
  rw [Operators.intOrFloat_of_matches _ _ (h.heap.cell cells.counter) (h.heap.cell cells.step)]
  exact h.heap.setCell _ (.scalar (Operators.handle?_intOrFloat _ _))

theorem loopGoes (cells : LoopCells) : loopGoes s.heap cells = loopGoes s'.heap cells := by
  have hcounter := h.heap.cell cells.counter
  have hlimit := h.heap.cell cells.limit
  have hpositive : isPositive (s.heap.cell cells.step) = isPositive (s'.heap.cell cells.step) := by
    have hstep := h.heap.cell cells.step
    generalize s.heap.cell cells.step = v, s'.heap.cell cells.step = v' at hstep
    cases hstep <;> rfl
  simp only [Machine.loopGoes, hpositive, numberLe_of_matches hcounter hlimit,
    numberLe_of_matches hlimit hcounter]

theorem changeFrame {f : Frame → Frame}
    (hf : ∀ a b : Frame, a.Twins (s.heap.Matches n s'.heap) b →
      (f a).Twins (s.heap.Matches n s'.heap) (f b)) :
    Together n s s' (changeFrame f s) (changeFrame f s') := by
  rw [changeFrame_apply, changeFrame_apply]
  have hcalls := h.activations
  cases hs : s.activations with
  | nil =>
    rw [hs] at hcalls
    cases hs' : s'.activations with
    | nil => exact .ok h (.refl _) (.refl _) trivial
    | cons a' rest' =>
      rw [hs'] at hcalls
      cases hcalls
  | cons a rest =>
    rw [hs] at hcalls
    cases hs' : s'.activations with
    | nil =>
      rw [hs'] at hcalls
      cases hcalls
    | cons a' rest' =>
      rw [hs'] at hcalls
      obtain ⟨ha, hrest⟩ := List.forall₂_cons.mp hcalls
      cases ha with
      | guest ha =>
        exact .ok (h.withActivations (.cons (.guest (hf _ _ ha)) hrest)) (.refl _) (.refl _) trivial
      | native ha => exact .ok h (.refl _) (.refl _) trivial

theorem goTo (x : Nat) : Together n s s' (goTo x s) (goTo x s') :=
  changeFrame h fun _ _ hf ↦ { hf with ip := rfl }

theorem jumpKeeping {keep : Value → Bool}
    (hkeep : ∀ {v v'}, s.heap.Matches n s'.heap v v' → keep v = keep v') (x : Nat) :
    Together n s s' (jumpKeeping keep x s) (jumpKeeping keep x s') := by
  refine (top h).sync_bind h fun v v' hv ↦ ?_
  rw [hkeep hv]
  split
  · exact goTo h x
  · exact (pop h).bind fun _ _ _ _ ht _ _ _ ↦ .pure ht trivial

omit h in
theorem plain {r r' : Except RuntimeError Value} (heq : r = r')
    (hok : ∀ v, r = .ok v → v.handle? = none) (herror : ∀ e, r = .error e → e.value? = none) :
    Peeks n (s.heap.Matches n s'.heap) s s' (lift r) (lift r') :=
  State.Linked.lift (exceptRel_of_eq heq hok herror)

omit h in
theorem plainBool {r r' : Except RuntimeError Bool} (heq : r = r')
    (herror : ∀ e, r = .error e → e.value? = none) :
    Peeks n (s.heap.Matches n s'.heap) s s' (Value.bool <$> lift r) (Value.bool <$> lift r') := by
  subst heq
  cases r with
  | ok b => exact .ok rfl rfl (.bool b)
  | error e => exact .error rfl rfl (.plain e (herror e rfl))

theorem binary (op : Opcode) : Together n s s' (binary op s) (binary op s') := by
  refine (pop h).bind fun b b' t t' ht _ _ hb ↦ (pop ht).bind fun a a' u u' hu ht₂ ht₂' ha ↦
    Peeks.get.sync_bind hu fun v v' ⟨hv, hv'⟩ ↦ ?_
  subst hv hv'
  have hb := hb.mono ht₂.toGrows ht₂'.toGrows
  have hpush {m m' : Machine Value} (hm : Peeks n (v.heap.Matches n v'.heap) v v' m m') :
      Together n v v' ((m >>= Machine.push) v) ((m' >>= Machine.push) v') :=
    hm.sync_bind hu fun w w' hw ↦ push hu hw
  cases op with
  | concat =>
    have hconcat : Peeks n (· = ·) v v' (lift (Operators.concat v.heap a b))
        (lift (Operators.concat v'.heap a' b')) := by
      rw [Operators.concat_of_matches ha hb]
      cases htext : Operators.concat v'.heap a' b' with
      | ok text => exact .pure rfl
      | error e => exact .throw (.plain e (Operators.value?_concat htext))
    refine hconcat.sync_bind hu fun text _ htext ↦ ?_
    subst htext
    exact (bytesValue hu text).bind fun _ _ _ _ hx _ _ hw ↦ push hx hw
  | eq => exact hpush (.pure (Operators.equal_of_matches hu.heap.toTwins ha hb ▸ .bool _))
  | ne => exact hpush (.pure (Operators.equal_of_matches hu.heap.toTwins ha hb ▸ .bool _))
  | lt =>
    exact hpush (plainBool (Operators.lessThan_of_matches ha hb) fun _ ↦ Operators.value?_ordered)
  | le =>
    exact hpush (plainBool (Operators.lessEqual_of_matches ha hb) fun _ ↦ Operators.value?_ordered)
  | gt =>
    exact hpush (plainBool (Operators.lessThan_of_matches hb ha) fun _ ↦ Operators.value?_ordered)
  | ge =>
    exact hpush (plainBool (Operators.lessEqual_of_matches hb ha) fun _ ↦ Operators.value?_ordered)
  | _ => exact hpush (State.Linked.lift (arith_related _ ha hb))

theorem operandCount (i : Instruction) : Peeks n (· = ·) s s' (operandCount i) (operandCount i) := by
  refine Peeks.get.bind fun t t' ⟨ht, ht'⟩ ↦ .pure ?_
  subst ht ht'
  rw [h.lastMulti]

theorem fillTable (start : Nat) : Together n s s' (fillTable start s) (fillTable start s') := by
  refine Peeks.get.sync_bind h fun t t' ⟨ht, ht'⟩ ↦ ?_
  subst ht ht'
  rw [h.lastMulti]
  refine (popMany h _).bind fun vs vs' u u' hu _ _ hvs ↦ (top hu).sync_bind hu fun v v' hv ↦ ?_
  cases hv with
  | @table i hi hi' =>
    refine Peeks.get.sync_bind hu fun w w' ⟨hw, hw'⟩ ↦ ?_
    subst hw hw'
    rw [if_pos hi, if_pos hi']
    refine changeHeap hu (hu.heap.modifyTable i fun a b hab ↦ ?_) (.modifyTable _ _ _)
      (.modifyTable _ _ _)
    exact hab.setAll hu.heap.pairing hvs start
  | nil | bool | int | float | string | closure | native => exact .throw hu (.plain _ rfl)

theorem placeResults {vs vs' : List Value} (hvs : List.Forall₂ (s.heap.Matches n s'.heap) vs vs')
    (expected : Option Nat) :
    Together n s s' (placeResults vs expected s) (placeResults vs' expected s') := by
  cases expected with
  | none =>
    have hmulti : State.Twins n { s with lastMulti := vs.length } { s' with lastMulti := vs'.length } :=
      { h with lastMulti := hvs.length_eq.symm }
    exact Sync.bind (Q := fun _ _ _ _ ↦ True) (.ok hmulti (.refl _) (.refl _) trivial)
      fun _ _ t t' ht hs hs' _ ↦ pushAll ht (hvs.imp fun _ _ hv ↦ hv.mono hs.toGrows hs'.toGrows)
  | some count =>
    refine pushAll h ?_
    rw [List.forall₂_map_left_iff, List.forall₂_map_right_iff, List.forall₂_same]
    intro i _
    simp only [List.getD_eq_getElem?_getD]
    exact rel_getD (forall₂_getElem? hvs i) .nil

end Mirrored

/-- What an instruction asks for is the same in both machines. -/
inductive Machine.Demand.Twins (R : Value → Value → Prop) : Demand → Demand → Prop
  | nothing : Twins R .nothing .nothing
  | call (argCount : Nat) (expected : Option Nat) :
      Twins R (.call argCount expected) (.call argCount expected)
  | ret {vs vs' : List Value} (h : List.Forall₂ R vs vs') : Twins R (.ret vs) (.ret vs')

namespace Mirrored

variable {n : Nat} {s s' : State}

/-- An effect on the state ends an instruction. -/
theorem settled {α α' : Type} {P : Heap → Heap → α → α' → Prop} {m : Machine α} {m' : Machine α'}
    (hm : Mirrored n P s s' (m s) (m' s')) :
    Mirrored n (fun k k' ↦ Demand.Twins (k.Matches n k')) s s'
      ((m >>= fun _ ↦ pure .nothing) s) ((m' >>= fun _ ↦ pure .nothing) s') :=
  hm.bind fun _ _ _ _ ht _ _ _ ↦ .pure ht .nothing

variable (h : s.Twins n s')

include h

theorem pushed {v v' : Value} (hv : s.heap.Matches n s'.heap v v') :
    Mirrored n (fun k k' ↦ Demand.Twins (k.Matches n k')) s s'
      ((Machine.push v >>= fun _ ↦ pure .nothing) s)
      ((Machine.push v' >>= fun _ ↦ pure .nothing) s') := settled (push h hv)

variable {f f' : Frame} (hf : f.Twins (s.heap.Matches n s'.heap) f')

include hf

theorem newCell (slot : Nat) :
    Mirrored n (fun k k' ↦ Demand.Twins (k.Matches n k')) s s'
      ((do
        let v ← Machine.pop
        let cell ← Machine.onHeap fun h ↦ h.allocCell v
        if slot < f.cells.size then
          Machine.changeFrame fun f ↦ { f with cells := f.cells.setIfInBounds slot (some cell) }
          pure .nothing
        else
          throw .operand
          pure .nothing : Machine Demand) s)
      ((do
        let v ← Machine.pop
        let cell ← Machine.onHeap fun h ↦ h.allocCell v
        if slot < f'.cells.size then
          Machine.changeFrame fun f ↦ { f with cells := f.cells.setIfInBounds slot (some cell) }
          pure .nothing
        else
          throw .operand
          pure .nothing : Machine Demand) s') := by
  refine (pop h).bind fun v v' t t' ht _ _ hv ↦ ?_
  obtain ⟨hheap, hcell⟩ := ht.heap.allocCell hv
  refine (onHeap (P := fun _ _ a a' ↦ a' = a) ht hheap (.allocCell _ _) (.allocCell _ _)
    hcell).bind fun cell cell' u u' hu _ _ hcells ↦ ?_
  subst hcells
  rw [hf.cells]
  split
  · exact settled (changeFrame hu fun a b hab ↦ { hab with
      cells := congrArg (Array.setIfInBounds · slot (some cell')) hab.cells })
  · exact .throw hu (.plain _ rfl)

theorem perform {constants constants' : Array Value}
    (hconstants : List.Forall₂ (s.heap.Matches n s'.heap) constants.toList constants'.toList)
    (i : Instruction) (op : Opcode) :
    Mirrored n (fun k k' ↦ Demand.Twins (k.Matches n k')) s s' (perform f constants i op s)
      (perform f' constants' i op s') := by
  have hconstant : Peeks n (s.heap.Matches n s'.heap) s s' (Machine.orOperand constants[i.x]?)
      (Machine.orOperand constants'[i.x]?) := by
    have hentry := forall₂_getElem? hconstants i.x
    simp only [Array.getElem?_toList] at hentry
    exact orOperand hentry
  unfold Machine.perform
  cases op with
  | loadNil => exact settled (pushAll h (List.forall₂_same.mpr fun v hv ↦
      (List.mem_replicate.mp hv).2 ▸ .nil))
  | loadTrue => exact pushed h (.bool true)
  | loadFalse => exact pushed h (.bool false)
  | loadConst => exact hconstant.sync_bind h fun v v' hv ↦ pushed h hv
  | getCell =>
    refine (frameCell hf i.x).sync_bind h fun cell _ hcell ↦ ?_
    subst hcell
    exact settled (loadCell h cell)
  | setCell =>
    refine (frameCell hf i.x).sync_bind h fun cell _ hcell ↦ ?_
    subst hcell
    exact settled (storeCell h cell)
  | newCell => exact newCell h hf i.x
  | getUpvalue =>
    refine (upvalueCell h hf i.x).sync_bind h fun cell _ hcell ↦ ?_
    subst hcell
    exact settled (loadCell h cell)
  | setUpvalue =>
    refine (upvalueCell h hf i.x).sync_bind h fun cell _ hcell ↦ ?_
    subst hcell
    exact settled (storeCell h cell)
  | getGlobal =>
    refine hconstant.sync_bind h fun key key' hkey ↦ (environment h hf).sync_bind h fun env env' henv ↦
      Peeks.get.sync_bind h fun t t' ⟨ht, ht'⟩ ↦ ?_
    subst ht ht'
    exact pushed h (h.heap.rawGet henv hkey)
  | setGlobal =>
    refine hconstant.sync_bind h fun key key' hkey ↦ (environment h hf).sync_bind h fun env env' henv ↦
      (pop h).bind fun v v' t t' ht g g' hv ↦ ?_
    exact settled (setIndex ht (henv.mono g.toGrows g'.toGrows) (hkey.mono g.toGrows g'.toGrows) hv)
  | getIndex =>
    refine (pop h).bind fun key key' t t' ht _ _ hkey ↦
      (pop ht).bind fun object object' u u' hu g g' hobject ↦ ?_
    exact (index hu hobject (hkey.mono g.toGrows g'.toGrows)).sync_bind hu fun v v' hv ↦ pushed hu hv
  | setIndex =>
    refine (pop h).bind fun key key' t t' ht _ _ hkey ↦
      (pop ht).bind fun object object' u u' hu g g' hobject ↦
        (pop hu).bind fun v v' w w' hw k k' hv ↦ ?_
    have hkey := (hkey.mono g.toGrows g'.toGrows).mono k.toGrows k'.toGrows
    exact settled (setIndex hw (hobject.mono k.toGrows k'.toGrows) hkey hv)
  | newTable => exact (newTable h).bind fun v v' t t' ht _ _ hv ↦ pushed ht hv
  | initIndex =>
    refine (pop h).bind fun v v' t t' ht _ _ hv ↦ (pop ht).bind fun key key' u u' hu g g' hkey ↦
      (top hu).sync_bind hu fun object object' hobject ↦ ?_
    exact settled (setIndex hu hobject hkey (hv.mono g.toGrows g'.toGrows))
  | setList => exact settled (fillTable h i.x)
  | self =>
    refine hconstant.sync_bind h fun key key' hkey ↦ (pop h).bind fun object object' t t' ht g g' hobject ↦ ?_
    refine (index ht hobject (hkey.mono g.toGrows g'.toGrows)).sync_bind ht fun v v' hv ↦ ?_
    refine (push ht hv).bind fun _ _ u u' hu k k' _ ↦ ?_
    exact pushed hu (hobject.mono k.toGrows k'.toGrows)
  | neg =>
    refine Peeks.get.sync_bind h fun t t' ⟨ht, ht'⟩ ↦ ?_
    subst ht ht'
    refine (popped h).bind fun v v' u u' hu g g' hv ↦ ?_
    exact (plain (Operators.negate_of_matches hv) (fun _ ↦ Operators.handle?_negate)
      fun _ ↦ Operators.value?_negate).sync_bind hu fun w w' hw ↦ pushed hu hw
  | not =>
    refine (pop h).bind fun v v' t t' ht _ _ hv ↦ ?_
    rw [hv.isFalsey]
    exact pushed ht (.bool _)
  | len =>
    refine Peeks.get.sync_bind h fun t t' ⟨ht, ht'⟩ ↦ ?_
    subst ht ht'
    refine (popped h).bind fun v v' u u' hu g g' hv ↦ ?_
    exact (plain (Operators.length_of_matches h.heap.toTwins hv) (fun _ ↦ Operators.handle?_length)
      fun _ ↦ Operators.value?_length).sync_bind hu fun w w' hw ↦ pushed hu hw
  | add | sub | mul | div | mod | pow | concat | eq | ne | lt | le | gt | ge =>
    exact settled (binary h _)
  | jump => exact settled (goTo h i.x)
  | jumpIfFalse =>
    refine (pop h).bind fun v v' t t' ht _ _ hv ↦ ?_
    rw [hv.isFalsey]
    split
    · exact settled (goTo ht i.x)
    · exact .pure ht .nothing
  | jumpIfFalseKeep => exact settled (jumpKeeping h (fun hv ↦ hv.isFalsey) i.x)
  | jumpIfTrueKeep => exact settled (jumpKeeping h (fun hv ↦ hv.isTruthy) i.x)
  | pop => exact settled (P := fun _ _ _ _ ↦ True) ((popMany h _).bind fun _ _ _ _ ht _ _ _ ↦
      .pure ht trivial)
  | forPrep =>
    refine (loopCells hf i.x).sync_bind h fun cells _ hcells ↦ ?_
    subst hcells
    exact settled (prepareLoop h cells)
  | forTest =>
    refine Peeks.get.sync_bind h fun t t' ⟨ht, ht'⟩ ↦ ?_
    subst ht ht'
    refine (loopCells hf i.x).sync_bind h fun cells _ hcells ↦ ?_
    subst hcells
    rw [loopGoes h]
    exact pushed h (.bool _)
  | forStep =>
    refine (loopCells hf i.x).sync_bind h fun cells _ hcells ↦ ?_
    subst hcells
    exact settled (advanceLoop h cells)
  | call =>
    refine (operandCount h i).sync_bind h fun count _ hcount ↦ ?_
    subst hcount
    exact .pure h (.call _ _)
  | ret =>
    refine (operandCount h i).sync_bind h fun count _ hcount ↦ ?_
    subst hcount
    exact (popMany h count).bind fun vs vs' t t' ht _ _ hvs ↦ .pure ht (.ret hvs)
  | varargs => exact settled (placeResults h hf.varargs _)
  | closure => exact (makeClosure h hf i.x).bind fun v v' t t' ht _ _ hv ↦ pushed ht hv

end Mirrored

/-- The prototypes of corresponding closures. -/
theorem State.Twins.proto? {n : Nat} {s s' : State} (h : s.Twins n s') {c c' : Nat}
    (hc : s.heap.Matches n s'.heap (.closure c) (.closure c')) :
    Option.Rel (fun p q ↦ ∃ d, p.Twins (s.heap.Matches n s'.heap) (s.heap.CodeTwins n s'.heap d) q)
      (s.proto? c) (s'.proto? c') := by
  obtain rfl := hc.closure_eq
  have hclosure := h.heap.closure c'
  unfold State.proto?
  generalize s.heap.closures[c']? = a, s'.heap.closures[c']? = b at hclosure
  cases hclosure with
  | none => exact .none
  | some hclosure =>
    obtain ⟨⟨⟨d, hd⟩, -⟩, -⟩ := hclosure
    cases d with
    | zero => exact hd.elim
    | succ d =>
      obtain ⟨p, q, hp, hq, hpq⟩ := hd
      simp only [Option.bind_some, hp, hq]
      exact .some ⟨d, hpq⟩

/-- An instruction does the same in machines that correspond. -/
theorem Mirrored.instruction {n : Nat} {s s' : State} (h : s.Twins n s') :
    Mirrored n (fun k k' ↦ Demand.Twins (k.Matches n k')) s s' (instruction s) (instruction s') := by
  unfold Machine.instruction
  refine Peeks.get.sync_bind h fun t t' ⟨ht, ht'⟩ ↦ ?_
  subst ht ht'
  have hcalls := h.activations
  generalize t.activations = calls, t'.activations = calls' at hcalls
  cases hcalls with
  | nil => exact .throw h (.plain _ rfl)
  | cons ha hrest =>
    cases ha with
    | native _ => exact .throw h (.plain _ rfl)
    | @guest f f' hf =>
      refine Peeks.get.sync_bind h fun u u' ⟨hu, hu'⟩ ↦ ?_
      subst hu hu'
      have hproto := h.proto? hf.closure
      generalize u.proto? f.closure = p, u'.proto? f'.closure = q at hproto
      cases hproto with
      | none => exact .throw h (.plain _ rfl)
      | @some p q hpq =>
        obtain ⟨d, hpq⟩ := hpq
        dsimp only
        rw [hpq.code, hf.ip]
        cases p.code[f.ip]? with
        | none => exact .pure h (.ret .nil)
        | some i =>
          refine (changeFrame (f := fun f ↦ { f with ip := f.ip + 1 }) h fun a b hab ↦
            { hab with ip := congrArg (· + 1) hab.ip }).bind fun _ _ t t' ht g g' _ ↦ ?_
          have hmono : ∀ v w, u.heap.Matches n u'.heap v w → t.heap.Matches n t'.heap v w :=
            fun _ _ hvw ↦ hvw.mono g.toGrows g'.toGrows
          cases i.opcode? with
          | none => exact .throw ht (.plain _ rfl)
          | some op => exact perform ht (hf.mono hmono) (hpq.constants.imp hmono) i op

end MiniLua
