import MiniLua.Proofs.Code.Laying

/-!
The operations that code is emitted with, and what each of them takes for granted: a scope can only
be closed if one is open, an instruction only be patched if it is there, a function only be left if
there is one around it, and counts must fit the fields they are kept in. `InRange` tells that a
program is put together from these operations so that they find what they need.
-/

namespace MiniLua

open Effects Emit

namespace Emit

/-- From states as `P` says the program runs through the operations below, each of which finds what
it needs when its turn comes, and ends as `Q` says if it does not fail. -/
inductive InRange : {α : Type} → (Assembly → Prop) → Emit α → (α → Assembly → Prop) → Prop
  | pure {α : Type} {Q : α → Assembly → Prop} (a : α) : InRange (Q a) (Pure.pure a) Q
  | bind {α β : Type} {P : Assembly → Prop} {R : α → Assembly → Prop} {Q : β → Assembly → Prop}
      {m : Emit α} {f : α → Emit β} (hm : InRange P m R) (hf : ∀ a, InRange (R a) (f a) Q) :
      InRange P (m >>= f) Q
  | imp {α : Type} {P P' : Assembly → Prop} {Q Q' : α → Assembly → Prop} {m : Emit α}
      (h : InRange P m Q) (hP : ∀ s, P' s → P s) (hQ : ∀ a s, Q a s → Q' a s) : InRange P' m Q'
  | throw {α : Type} {P : Assembly → Prop} {Q : α → Assembly → Prop} (e : CompileError) :
      InRange P (MonadExcept.throw e) Q
  | get {Q : Assembly → Assembly → Prop} : InRange (fun s ↦ Q s s) MonadState.get Q
  | setLine {Q : Unit → Assembly → Prop} (pos : Position) :
      InRange (fun s ↦ Q () { s with current := { s.current with line := pos.codeLine } })
        (Emit.setLine pos) Q
  | emit {Q : Unit → Assembly → Prop} (i : Instruction) :
      InRange (fun s ↦ Q () { s with current := s.current.emit i }) (build fun b ↦ b.emit i) Q
  | patch {Q : Unit → Assembly → Prop} (at_ target : Nat) :
      InRange (fun s ↦ at_ < s.current.code.size ∧
          Q () { s with current := s.current.patch at_ target })
        (build fun b ↦ b.patch at_ target) Q
  | openScope {Q : Unit → Assembly → Prop} :
      InRange (fun s ↦ Q () { s with current := s.current.openScope }) (build Builder.openScope) Q
  | closeScope {Q : Unit → Assembly → Prop} :
      InRange (fun s ↦ 0 < s.current.depth ∧ Q () { s with current := s.current.closeScope })
        (build Builder.closeScope) Q
  | loops {Q : Unit → Assembly → Prop} (f : List (List Nat) → List (List Nat)) :
      InRange (fun s ↦ Q () { s with current := { s.current with loops := f s.current.loops } })
        (build fun b ↦ { b with loops := f b.loops }) Q
  | constant {Q : Nat → Assembly → Prop} (v : Value) :
      InRange (fun s ↦ ∀ i b, s.current.addConstant v = .ok (i, b) → Q i { s with current := b })
        (Emit.constant v) Q
  | declare {Q : Nat → Assembly → Prop} (name : String) :
      InRange (fun s ↦ ∀ i b, s.current.declare name = .ok (i, b) → Q i { s with current := b })
        (Emit.declare name) Q
  | binding {Q : Binding → Assembly → Prop} (name : String) :
      InRange (fun s ↦ (∀ cell, s.current.resolve? name = some cell → Q (.cell cell) s) ∧
          ∀ found current enclosing,
            s.current.captureFrom name s.enclosing = .ok (found, current, enclosing) →
              Q (found.elim .global .upvalue) { s with current, enclosing })
        (Emit.binding name) Q
  | intern {Q : Nat → Assembly → Prop} (text : Bytes) :
      InRange (fun s ↦ Q (s.heap.intern text).1 { s with heap := (s.heap.intern text).2 })
        (modifyGet fun s ↦ ((s.heap.intern text).1, { s with heap := (s.heap.intern text).2 })) Q
  /-- A function begins; the number of its parameters is kept in 8 bits. -/
  | enter {Q : PUnit → Assembly → Prop} (name : String) (params : List String) (variadic : Bool)
      (line : Nat) :
      InRange (fun s ↦ params.length ≤ 255 ∧
          Q () { s with
            current := .start name params variadic line
            enclosing := s.current :: s.enclosing })
        (modify fun s ↦ { s with
          current := .start name params variadic line
          enclosing := s.current :: s.enclosing }) Q
  /-- A finished function; the numbers of its cells and of its captures are kept in 16 bits. -/
  | finish {Q : Nat → Assembly → Prop} (p : Prototype) :
      InRange (fun s ↦ (p.arity ≤ 255 ∧ p.cellCount ≤ 65535 ∧ p.captures.size ≤ 65535) ∧
          Q (s.heap.allocProto p).1 { s with heap := (s.heap.allocProto p).2 })
        (allocProto p) Q
  | leave {Q : PUnit → Assembly → Prop} :
      InRange (fun s ↦ s.enclosing ≠ [] ∧ ∀ parent outer, s.enclosing = parent :: outer →
          Q () { s with current := parent, enclosing := outer })
        (modify fun s ↦ match s.enclosing with
          | parent :: outer => { s with current := parent, enclosing := outer }
          | [] => s) Q
  | closure {Q : Unit → Assembly → Prop} (proto line : Nat) :
      InRange (fun s ↦ Q () { s with
          current := { s.current with protos := s.current.protos.push proto, line } })
        (build fun b ↦ { b with protos := b.protos.push proto, line }) Q

theorem InRange.inspect {α : Type} {Q : α → Assembly → Prop} (f : Builder → α) :
    InRange (fun s ↦ Q (f s.current) s) (Emit.inspect f) Q :=
  .bind (.get (Q := fun a s ↦ Q (f a.current) s)) fun s ↦ .pure (Q := Q) (f s.current)

/-- A jump without its target. -/
theorem InRange.jump {Q : Nat → Assembly → Prop} (o : Opcode) :
    InRange (fun s ↦ Q s.current.code.size { s with current := s.current.emit (.wide o.byte 0) })
      (Emit.jump o) Q := by
  refine .bind (R := fun at_ s ↦ Q at_ { s with current := s.current.emit (.wide o.byte 0) })
    (.inspect (Q := fun at_ s ↦ Q at_ { s with current := s.current.emit (.wide o.byte 0) })
      Builder.here) fun at_ ↦ ?_
  exact .bind (.emit (Q := fun _ ↦ Q at_) (.wide o.byte 0)) fun _ ↦ .pure (Q := Q) at_

/-- What is told of the end is so. -/
theorem InRange.run {α : Type} {P : Assembly → Prop} {Q : α → Assembly → Prop} {m : Emit α}
    (h : InRange P m Q) {s t : Assembly} {a : α} (hs : P s) (hm : m s = .ok a t) : Q a t := by
  induction h generalizing s t with
  | pure a =>
    obtain ⟨rfl, rfl⟩ := pure_eq_ok.mp hm
    exact hs
  | bind _ _ ihm ihf =>
    obtain ⟨b, u, hb, hf⟩ := bind_eq_ok.mp hm
    exact ihf b (ihm hs hb) hf
  | imp _ hP hQ ih => exact hQ _ _ (ih (hP _ hs) hm)
  | throw e => exact absurd hm throw_ne_ok
  | patch | closeScope | enter | finish =>
    cases hm
    exact hs.2
  | constant v | declare name =>
    obtain ⟨b, hb, rfl⟩ := tryBuild_eq_ok hm
    exact hs _ _ hb
  | @binding Q name =>
    unfold Emit.binding at hm
    obtain ⟨u, v, hu, hm⟩ := bind_eq_ok.mp hm
    cases hu
    cases hresolve : s.current.resolve? name with
    | some cell =>
      rw [hresolve] at hm
      cases hm
      exact hs.1 cell hresolve
    | none =>
      rw [hresolve] at hm
      dsimp only at hm
      cases hcapture : s.current.captureFrom name s.enclosing with
      | error e =>
        rw [hcapture] at hm
        exact absurd hm throw_ne_ok
      | ok result =>
        obtain ⟨found, current, enclosing⟩ := result
        rw [hcapture] at hm
        cases hm
        exact hs.2 found current enclosing hcapture
  | leave =>
    rw [modify_apply] at hm
    cases henclosing : s.enclosing with
    | nil => exact absurd henclosing hs.1
    | cons parent outer =>
      rw [henclosing] at hm
      cases hm
      exact hs.2 parent outer henclosing
  | _ =>
    cases hm
    exact hs

end Emit

/-- A function under construction at this depth of scopes, with at least so many instructions. Its
loops are left by instructions that are there, and its counts fit their fields. -/
structure Builder.Meets (q : Nat × Nat) (b : Builder) : Prop where
  depth : b.depth = q.1
  size : q.2 ≤ b.code.size
  exits : ∀ jumps ∈ b.loops, ∀ exit ∈ jumps, exit < b.code.size
  arity : b.arity ≤ 255
  cells : b.cellCount ≤ Builder.maxIndex
  captures : b.captures.size ≤ Builder.maxIndex

/-- The current function and those around it, innermost first. -/
def Assembly.Meets (qs : List (Nat × Nat)) (s : Assembly) : Prop :=
  List.Forall₂ Builder.Meets qs (s.current :: s.enclosing)

namespace Builder

variable {b b' : Builder} {q : Nat × Nat}

theorem Meets.grow {d n m : Nat} (h : b.Meets (d, n)) (hm : m ≤ b.code.size) : b.Meets (d, m) :=
  { h with size := hm }

theorem Meets.emit (h : b.Meets q) (i : Instruction) : (b.emit i).Meets q := by
  have hsize : (b.emit i).code.size = b.code.size + 1 := Array.size_push _
  exact { h with
    size := by rw [hsize]; exact Nat.le_succ_of_le h.size
    exits := by
      rw [hsize]
      exact fun jumps hjumps exit hexit ↦ Nat.lt_succ_of_lt (h.exits jumps hjumps exit hexit) }

theorem Meets.patch (h : b.Meets q) (at_ target : Nat) : (b.patch at_ target).Meets q := by
  have hsize : (b.patch at_ target).code.size = b.code.size := size_patch at_ target
  exact { h with
    size := by rw [hsize]; exact h.size
    exits := by rw [hsize]; exact h.exits }

theorem Meets.start (name : String) {params : List String} (variadic : Bool) (line : Nat)
    (hparams : params.length ≤ 255) : (start name params variadic line).Meets (0, 0) where
  depth := rfl
  size := Nat.zero_le _
  exits _ h := absurd h List.not_mem_nil
  arity := hparams
  cells := Nat.le_trans hparams (by decide)
  captures := Nat.zero_le _

theorem Meets.openScope {d n : Nat} (h : b.Meets (d, n)) : b.openScope.Meets (d + 1, n) :=
  { h with depth := congrArg Nat.succ h.depth }

theorem Meets.closeScope {d n : Nat} (h : b.Meets (d + 1, n)) : b.closeScope.Meets (d, n) :=
  { h with depth := congrArg Nat.pred h.depth }

theorem Meets.addConstant {v : Value} {i : Nat} (h : b.Meets q)
    (hadd : b.addConstant v = .ok (i, b')) : b'.Meets q := by
  rw [(addConstant_eq hadd).1]
  exact { h with }

theorem Meets.declare {name : String} {i : Nat} (h : b.Meets q)
    (hdeclare : b.declare name = .ok (i, b')) : b'.Meets q := by
  obtain ⟨-, hlt, rfl⟩ := declare_eq hdeclare
  exact { h with cells := Nat.max_le.mpr ⟨h.cells, hlt⟩ }

theorem Meets.addCapture {c : Capture} {i : Nat} (h : b.Meets q)
    (hadd : b.addCapture c = .ok (i, b')) : b'.Meets q := by
  unfold Builder.addCapture at hadd
  split at hadd
  · cases hadd
    exact h
  · split at hadd
    · rename_i hroom
      cases hadd
      exact { h with captures := by rw [Array.size_push]; exact hroom }
    · cases hadd

theorem meets_of_captureFrom {qs : List (Nat × Nat)} {name : String} {found : Option Nat}
    {enclosing outer : List Builder} (h : b.Meets q) (houter : List.Forall₂ Meets qs enclosing)
    (hcapture : b.captureFrom name enclosing = .ok (found, b', outer)) :
    b'.Meets q ∧ List.Forall₂ Meets qs outer := by
  induction houter generalizing b b' q found outer with
  | nil =>
    cases hcapture
    exact ⟨h, .nil⟩
  | cons hparent hrest ih =>
    obtain ⟨cell, i, -, hadd, -, rfl⟩ | ⟨-, parent', rest', rfl, hinner⟩ := captureFrom_eq_ok hcapture
    · exact ⟨h.addCapture hadd, .cons hparent hrest⟩
    · obtain ⟨hinner, -, rfl⟩ | ⟨n, i, hinner, hadd, -⟩ := hinner
      · exact ⟨h, .cons (ih hparent hinner).1 (ih hparent hinner).2⟩
      · exact ⟨h.addCapture hadd, .cons (ih hparent hinner).1 (ih hparent hinner).2⟩

end Builder

namespace Assembly

variable {s : Assembly} {q : Nat × Nat} {qs : List (Nat × Nat)}

theorem Meets.current (h : s.Meets (q :: qs)) : s.current.Meets q := by
  cases h with
  | cons h _ => exact h

theorem Meets.around (h : s.Meets (q :: qs)) : List.Forall₂ Builder.Meets qs s.enclosing := by
  cases h with
  | cons _ h => exact h

/-- Only the current function changes. -/
theorem Meets.change {q' : Nat × Nat} {b : Builder} (h : s.Meets (q :: qs)) (hb : b.Meets q') :
    Assembly.Meets (q' :: qs) { s with current := b } :=
  .cons hb h.around

/-- The function around the current one can be gone back to. -/
theorem Meets.leave {q' : Nat × Nat} (h : s.Meets (q' :: q :: qs)) : s.enclosing ≠ [] ∧
    ∀ parent outer, s.enclosing = parent :: outer →
      Assembly.Meets (q :: qs) { s with current := parent, enclosing := outer } := by
  have haround := h.around
  refine ⟨fun hnone ↦ ?_, fun parent outer houter ↦ ?_⟩
  · rw [hnone] at haround
    cases haround
  · rwa [houter] at haround

end Assembly

namespace Emit

variable {α β γ : Type} {k : Nat}

/-- Whatever the depth, and with at least `k` instructions, the operations of the program find what
they need, and afterwards nothing of that is lost. -/
class Steady (k : Nat) (m : Emit α) : Prop where
  inRange (d n : Nat) (qs : List (Nat × Nat)) (hk : k ≤ n) :
    InRange (Assembly.Meets ((d, n) :: qs)) m fun _ ↦ Assembly.Meets ((d, n) :: qs)

namespace Steady

theorem of_imp {m : Emit α} {P : Nat → Nat → List (Nat × Nat) → Assembly → Prop}
    (h : ∀ d n qs, InRange (P d n qs) m fun _ ↦ Assembly.Meets ((d, n) :: qs))
    (hP : ∀ d n qs s, Assembly.Meets ((d, n) :: qs) s → P d n qs s) : Steady k m :=
  ⟨fun d n qs _ ↦ .imp (h d n qs) (hP d n qs) fun _ _ h ↦ h⟩

theorem mono {m : Emit α} {k' : Nat} [h : Steady k m] (hk : k ≤ k') : Steady k' m :=
  ⟨fun d n qs hn ↦ h.inRange d n qs (Nat.le_trans hk hn)⟩

instance (a : α) : Steady k (pure a : Emit α) :=
  ⟨fun d n qs _ ↦ .pure (Q := fun _ ↦ Assembly.Meets ((d, n) :: qs)) a⟩

instance bind {m : Emit α} {f : α → Emit β} [hm : Steady k m] [hf : ∀ a, Steady k (f a)] :
    Steady k (m >>= f) :=
  ⟨fun d n qs hk ↦ .bind (hm.inRange d n qs hk) fun a ↦ (hf a).inRange d n qs hk⟩

theorem after {m : Emit α} {f : α → Emit β} [Steady k m] (hf : ∀ a, Steady k (f a)) :
    Steady k (m >>= f) := bind

instance {m : Emit α} {g : α → β} [Steady k m] : Steady k (g <$> m) :=
  inferInstanceAs (Steady k (m >>= fun a ↦ pure (g a)))

instance (c : Prop) [Decidable c] {m m' : Emit α} [Steady k m] [Steady k m'] :
    Steady k (if c then m else m') := by
  split <;> infer_instance

instance {f : γ → Emit PUnit} [∀ c, Steady k (f c)] (cs : List γ) : Steady k (cs.forM f) := by
  induction cs with
  | nil => exact inferInstanceAs (Steady k (pure ⟨⟩ : Emit PUnit))
  | cons c cs ih => exact inferInstanceAs (Steady k (f c >>= fun _ ↦ cs.forM f))

instance {f : γ → Emit β} [∀ c, Steady k (f c)] (cs : List γ) : Steady k (cs.mapM f) := by
  induction cs with
  | nil => exact inferInstanceAs (Steady k (pure [] : Emit (List β)))
  | cons c cs ih =>
    rw [List.mapM_cons]
    infer_instance

instance (e : CompileError) : Steady k (throw e : Emit α) := ⟨fun _ _ _ _ ↦ .throw e⟩

instance (f : CompileFault) (line : Nat) : Steady k (fault f line : Emit α) :=
  inferInstanceAs (Steady k (throw _ : Emit α))

/-- What stands behind a fault is never reached. -/
theorem fault_bind (f : CompileFault) (line : Nat) (g : α → Emit β) :
    Steady k ((fault f line : Emit α) >>= g) :=
  inferInstanceAs (Steady k (fault f line : Emit β))

instance : Steady k (get : Emit Assembly) := ⟨fun _ _ _ _ ↦ .get⟩

instance (f : Builder → α) : Steady k (inspect f) := by
  unfold inspect
  infer_instance

instance (pos : Position) : Steady k (setLine pos) :=
  of_imp (fun _ _ _ ↦ .setLine pos) fun _ _ _ _ h ↦ h.change { h.current with }

instance (i : Instruction) : Steady k (build fun b ↦ b.emit i) :=
  of_imp (fun _ _ _ ↦ .emit i) fun _ _ _ _ h ↦ h.change (h.current.emit i)

instance (o : Opcode) : Steady k (op o) := inferInstanceAs (Steady k (build fun b ↦ b.emit _))

instance (o : Opcode) (a : Nat) : Steady k (opA o a) :=
  inferInstanceAs (Steady k (build fun b ↦ b.emit _))

instance (o : Opcode) (x : Nat) : Steady k (opX o x) :=
  inferInstanceAs (Steady k (build fun b ↦ b.emit _))

instance : Steady k here := inferInstanceAs (Steady k (inspect _))

instance (v : Value) : Steady k (constant v) :=
  of_imp (fun _ _ _ ↦ .constant v) fun _ _ _ _ h _ _ hadd ↦ h.change (h.current.addConstant hadd)

instance (name : String) : Steady k (declare name) :=
  of_imp (fun _ _ _ ↦ .declare name) fun _ _ _ _ h _ _ hadd ↦ h.change (h.current.declare hadd)

instance (name : String) : Steady k (binding name) :=
  of_imp (fun _ _ _ ↦ .binding name) fun _ _ _ _ h ↦ ⟨fun _ _ ↦ h, fun _ _ _ hcapture ↦
    have hmeets := Builder.meets_of_captureFrom h.current h.around hcapture
    .cons hmeets.1 hmeets.2⟩

instance (text : Bytes) : Steady k (stringConstant text) := by
  have hintern : Steady k (modifyGet fun s ↦
      ((s.heap.intern text).1, { s with heap := (s.heap.intern text).2 }) : Emit Nat) :=
    of_imp (fun _ _ _ ↦ .intern text) fun _ _ _ _ h ↦ h
  exact @bind _ _ _ _ _ hintern fun _ ↦ inferInstance

instance (text : String) : Steady k (textConstant text) :=
  inferInstanceAs (Steady k (stringConstant _))

instance (v : Value) : Steady k (loadConst v) := by
  unfold loadConst
  infer_instance

instance (o : Opcode) (bound n : Nat) : Steady k (repeated o bound n) := by
  induction bound generalizing n with
  | zero => exact inferInstanceAs (Steady k (pure ⟨⟩ : Emit Unit))
  | succ bound ih =>
    unfold repeated
    infer_instance

instance (n : Nat) : Steady k (nils n) := inferInstanceAs (Steady k (repeated _ _ _))

instance (n : Nat) : Steady k (pops n) := inferInstanceAs (Steady k (repeated _ _ _))

instance (name : String) : Steady k (loadName name) := by
  unfold loadName
  refine .after fun b ↦ ?_
  split <;> infer_instance

instance (name : String) : Steady k (storeName name) := by
  unfold storeName
  refine .after fun b ↦ ?_
  split <;> infer_instance

instance (line : Nat) : Steady k (needVarargs line) := by
  unfold needVarargs
  infer_instance

instance (pushed : Nat) (want : Want) : Steady k (adjust pushed want) := by
  cases want <;> (unfold adjust; infer_instance)

instance (args : Nat) (multi : Bool) (want : Want) (pos : Position) :
    Steady k (emitCall args multi want pos) := by
  unfold emitCall
  cases want <;> infer_instance

instance (want : Want) (pos : Position) : Steady k (emitVarargs want pos) := by
  unfold emitVarargs
  cases want <;> infer_instance

/-- An instruction that is there can be patched. -/
theorem land {at_ : Nat} (hat : at_ < k) : Steady k (Emit.land at_) := by
  have hpatch (target : Nat) : Steady k (build fun b ↦ b.patch at_ target) :=
    ⟨fun d n qs hk ↦ .imp (.patch at_ target) (fun s h ↦
      ⟨Nat.lt_of_lt_of_le hat (Nat.le_trans hk h.current.size), h.change (h.current.patch _ _)⟩)
      fun _ _ h ↦ h⟩
  unfold Emit.land
  infer_instance

theorem landAll {jumps : List Nat} (hall : ∀ exit ∈ jumps, exit < k) :
    Steady k (Emit.landAll jumps) := by
  unfold Emit.landAll
  induction jumps with
  | nil => exact inferInstanceAs (Steady k (pure ⟨⟩ : Emit PUnit))
  | cons exit jumps ih =>
    have hexit := land (hall exit (by simp))
    have hrest := ih fun e he ↦ hall e (by simp [he])
    exact inferInstanceAs (Steady k (Emit.land exit >>= fun _ ↦ jumps.forM Emit.land))

end Steady

/-- The number of instructions that these jumps, and `n` more, ask for. -/
def above (n : Nat) (jumps : List Nat) : Nat := jumps.foldr (fun at_ m ↦ max (at_ + 1) m) n

theorem le_above (n : Nat) (jumps : List Nat) : n ≤ above n jumps := by
  induction jumps with
  | nil => exact Nat.le_refl n
  | cons _ _ ih => exact Nat.le_trans ih (Nat.le_max_right _ _)

theorem lt_above {n at_ : Nat} {jumps : List Nat} (h : at_ ∈ jumps) : at_ < above n jumps := by
  induction h with
  | head => exact Nat.le_max_left _ _
  | tail _ _ ih => exact Nat.lt_of_lt_of_le ih (Nat.le_max_right _ _)

theorem above_le {n m : Nat} {jumps : List Nat} (hn : n ≤ m) (h : ∀ at_ ∈ jumps, at_ < m) :
    above n jumps ≤ m := by
  induction jumps with
  | nil => exact hn
  | cons at_ jumps ih =>
    exact Nat.max_le.mpr ⟨h at_ List.mem_cons_self, ih fun a ha ↦ h a (List.mem_cons_of_mem _ ha)⟩

/-- A program as in `Steady` that also leaves instructions to be patched later. -/
structure Leaves (k : Nat) (m : Emit α) (exits : α → List Nat) : Prop where
  inRange (d n : Nat) (qs : List (Nat × Nat)) (hk : k ≤ n) :
    InRange (Assembly.Meets ((d, n) :: qs)) m fun a ↦ Assembly.Meets ((d, above n (exits a)) :: qs)

namespace Leaves

variable {m : Emit α} {f : α → Emit β} {exits : α → List Nat} {exits' : β → List Nat}

theorem of_steady [h : Steady k m] : Leaves k m fun _ ↦ [] := ⟨h.inRange⟩

theorem pure {a : α} (h : ∀ exit ∈ exits a, exit < k) : Leaves k (Pure.pure a) exits := by
  refine ⟨fun d n qs hk ↦ ?_⟩
  refine .imp (.pure (Q := fun a ↦ Assembly.Meets ((d, above n (exits a)) :: qs)) a) (fun s hs ↦ ?_)
    fun _ _ h ↦ h
  refine hs.change (hs.current.grow (above_le hs.current.size fun exit hexit ↦ ?_))
  exact Nat.lt_of_lt_of_le (h exit hexit) (Nat.le_trans hk hs.current.size)

theorem bind (hm : Leaves k m exits)
    (hf : ∀ a k', k ≤ k' → (∀ exit ∈ exits a, exit < k') → Leaves k' (f a) exits') :
    Leaves k (m >>= f) exits' := by
  refine ⟨fun d n qs hk ↦ .bind (hm.inRange d n qs hk) fun a ↦ ?_⟩
  have hn := le_above n (exits a)
  have hrest := hf a (above n (exits a)) (Nat.le_trans hk hn) fun _ ↦ lt_above
  refine .imp (hrest.inRange d _ qs (Nat.le_refl _)) (fun _ h ↦ h) fun b s h ↦ ?_
  refine h.change (h.current.grow (above_le ?_ fun exit hexit ↦ ?_))
  · exact Nat.le_trans hn (Nat.le_trans (le_above _ _) h.current.size)
  · exact Nat.lt_of_lt_of_le (lt_above hexit) h.current.size

theorem after [Steady k m] (hf : ∀ a, Leaves k (f a) exits') : Leaves k (m >>= f) exits' := by
  refine ⟨fun d n qs hk ↦ .bind (Steady.inRange d n qs hk) fun a ↦ (hf a).inRange d n qs hk⟩

theorem steady (hm : Leaves k m exits)
    (hf : ∀ a k', k ≤ k' → (∀ exit ∈ exits a, exit < k') → Steady k' (f a)) :
    Steady k (m >>= f) := by
  have hbound : Leaves k (m >>= f) fun _ ↦ [] :=
    hm.bind fun a k' hk hexits ↦ @of_steady _ _ _ (hf a k' hk hexits)
  exact ⟨hbound.inRange⟩

theorem jump (o : Opcode) : Leaves k (Emit.jump o) fun at_ ↦ [at_] := by
  refine ⟨fun d n qs hk ↦ .imp (.jump o) (fun s h ↦ ?_) fun _ _ h ↦ h⟩
  have hsize : (s.current.emit (.wide o.byte 0)).code.size = s.current.code.size + 1 :=
    Array.size_push _
  refine h.change ((h.current.emit _).grow (hsize ▸ above_le ?_ (by simp)))
  exact Nat.le_succ_of_le h.current.size

end Leaves

namespace Steady

/-- A program that needs the jump emitted before it. -/
theorem jump {o : Opcode} {f : Nat → Emit β}
    (hf : ∀ at_ k', k ≤ k' → at_ < k' → Steady k' (f at_)) : Steady k (Emit.jump o >>= f) :=
  (Leaves.jump o).steady fun at_ k' hk hexits ↦ hf at_ k' hk (hexits at_ List.mem_cons_self)

instance inScope (body : Emit Unit) [hbody : Steady k body] : Steady k (Emit.inScope body) := by
  refine ⟨fun d n qs hk ↦ ?_⟩
  refine .bind (R := fun _ ↦ Assembly.Meets ((d + 1, n) :: qs))
    (.imp .openScope (fun s h ↦ h.change h.current.openScope) fun _ _ h ↦ h) fun _ ↦ ?_
  refine .bind (hbody.inRange (d + 1) n qs hk) fun _ ↦ ?_
  refine .imp .closeScope (fun s h ↦ ⟨?_, h.change h.current.closeScope⟩) fun _ _ h ↦ h
  rw [h.current.depth]
  exact Nat.succ_pos d

/-- The jumps out of the innermost loop are there. -/
theorem exits_leave : Leaves k (inspect fun b ↦ (b.loops.headD []).reverse) id := by
  refine ⟨fun d n qs hk ↦ .imp (.inspect _) (fun s h ↦ ?_) fun _ _ h ↦ h⟩
  refine h.change (h.current.grow (above_le h.current.size fun exit hexit ↦ ?_))
  cases hloops : s.current.loops with
  | nil => simp [hloops] at hexit
  | cons jumps outer =>
    simp only [hloops, List.headD_cons, id, List.mem_reverse] at hexit
    exact h.current.exits jumps (by simp [hloops]) exit hexit

instance (body : Emit Unit) [hbody : Steady k body] : Steady k (looped body) := by
  have hopen : Steady k (build fun b ↦ { b with loops := [] :: b.loops }) :=
    of_imp (fun _ _ _ ↦ .loops _) fun _ _ _ s h ↦ h.change { h.current with
      exits := by simpa using h.current.exits }
  have hclose : Steady k (build fun b ↦ { b with loops := b.loops.tail }) :=
    of_imp (fun _ _ _ ↦ .loops _) fun _ _ _ s h ↦ h.change { h.current with
      exits := fun jumps hjumps ↦ h.current.exits jumps (List.mem_of_mem_tail hjumps) }
  refine .after fun _ ↦ .after fun _ ↦ exits_leave.steady fun jumps k' hk hexits ↦ ?_
  have hclose' := mono (h := hclose) hk
  exact .after fun _ ↦ landAll hexits

/-- The jump that leaves the loop is the last instruction when it is noted. -/
instance (line : Nat) : Steady k (leaveLoop line) := by
  refine ⟨fun d n qs hk ↦ ?_⟩
  refine .bind (R := fun loops s ↦ Assembly.Meets ((d, n) :: qs) s ∧ s.current.loops = loops)
    (.imp (.inspect Builder.loops) (fun s h ↦ ⟨h, rfl⟩) fun _ _ h ↦ h) fun loops ↦ ?_
  cases loops with
  | nil => exact .throw _
  | cons jumps outer =>
    refine .bind (R := fun at_ s ↦ Assembly.Meets ((d, n) :: qs) s ∧
        s.current.loops = jumps :: outer ∧ at_ < s.current.code.size)
      (.imp (.jump .jump) (fun s h ↦ ⟨h.1.change (h.1.current.emit _), h.2,
        Nat.lt_of_lt_of_eq (Nat.lt_succ_self _) (Array.size_push _).symm⟩) fun _ _ h ↦ h)
      fun exit ↦ .imp (.loops fun _ ↦ (exit :: jumps) :: outer) ?_ fun _ _ h ↦ h
    rintro s ⟨h, hloops, hexit⟩
    have hexits := h.current.exits
    rw [hloops, List.forall_mem_cons] at hexits
    exact h.change { h.current with
      exits := List.forall_mem_cons.mpr
        ⟨List.forall_mem_cons.mpr ⟨hexit, hexits.1⟩, hexits.2⟩ }

/-- A function inside another is entered, compiled from scratch, put on the heap and left. -/
theorem nested {name : String} {params : List String} {variadic : Bool} {line : Nat}
    {body : Emit Unit} (hparams : params.length ≤ 255) [hbody : Steady 0 body] :
    Steady k (Emit.nested name params variadic line body) := by
  refine ⟨fun d n qs hk ↦ ?_⟩
  refine .bind (R := fun _ ↦ Assembly.Meets ((0, 0) :: (d, n) :: qs))
    (.imp (.enter name params variadic line)
      (fun s h ↦ ⟨hparams, .cons (.start name variadic line hparams) h⟩) fun _ _ h ↦ h)
    fun _ ↦ .bind (hbody.inRange 0 0 _ (Nat.le_refl 0)) fun _ ↦
      .bind (Steady.inRange (m := op .ret) 0 0 _ (Nat.le_refl 0)) fun _ ↦ ?_
  refine .bind (R := fun p s ↦ Assembly.Meets ((0, 0) :: (d, n) :: qs) s ∧ p = s.current.toPrototype)
    (.imp (.inspect Builder.toPrototype) (fun s h ↦ ⟨h, rfl⟩) fun _ _ h ↦ h) fun p ↦ ?_
  refine .bind (R := fun _ ↦ Assembly.Meets ((0, 0) :: (d, n) :: qs)) (.imp (.finish p)
    (fun s ⟨h, hp⟩ ↦ ⟨hp ▸ ⟨h.current.arity, h.current.cells, h.current.captures⟩, h⟩)
    fun _ _ h ↦ h) fun proto ↦ ?_
  refine .bind (R := fun _ ↦ Assembly.Meets ((d, n) :: qs))
    (.imp .leave (fun s h ↦ h.leave) fun _ _ h ↦ h)
    fun _ ↦ .bind (Steady.inRange (m := inspect fun b ↦ b.protos.size) d n qs hk) fun index ↦ ?_
  exact .bind (.imp (.closure proto line) (fun s h ↦ .cons { h.current with } h.around) fun _ _ h ↦ h)
    fun _ ↦ Steady.inRange (m := opX .closure index) d n qs hk

end Steady

end Emit

end MiniLua
