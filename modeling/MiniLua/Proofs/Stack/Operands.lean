import MiniLua.Proofs.Stack.Chain

/-! An instruction of sound code finds its operands, and leaves those of the next. -/

namespace MiniLua

open Effects Machine

theorem Fits.uncons {slots : List Bool} {vs : List Value} (h : Fits slots vs) (hlen : 0 < slots.length) :
    ∃ v vs', vs = v :: vs' ∧ Fits (slots.drop 1) vs' := by
  cases h with
  | nil => exact absurd hlen (Nat.lt_irrefl 0)
  | cons _ hrest => exact ⟨_, _, rfl, hrest⟩

theorem Fits.uncons₂ {slots : List Bool} {vs : List Value} (h : Fits slots vs)
    (hlen : 1 < slots.length) : ∃ v w vs', vs = v :: w :: vs' ∧ Fits (slots.drop 2) vs' := by
  obtain ⟨v, vs, rfl, hrest⟩ := h.uncons (by omega)
  obtain ⟨w, vs, rfl, hlast⟩ := hrest.uncons (by rw [List.length_drop]; omega)
  rw [List.drop_drop] at hlast
  exact ⟨v, w, vs, rfl, hlast⟩

theorem Fits.uncons₃ {slots : List Bool} {vs : List Value} (h : Fits slots vs)
    (hlen : 2 < slots.length) :
    ∃ v w u vs', vs = v :: w :: u :: vs' ∧ Fits (slots.drop 3) vs' := by
  obtain ⟨v, w, vs, rfl, hrest⟩ := h.uncons₂ (by omega)
  obtain ⟨u, vs, rfl, hlast⟩ := hrest.uncons (by rw [List.length_drop]; omega)
  rw [List.drop_drop] at hlast
  exact ⟨v, w, u, vs, rfl, hlast⟩

theorem stack_cons {low : Array Value} {v : Value} {vs : List Value} {stack : Array Value}
    (h : stack = low ++ ((v :: vs).reverse ++ [])) : stack = (low ++ (vs.reverse ++ [])).push v := by
  rw [h, List.append_nil, List.append_nil, appendList_reverse_cons]

theorem stack_cons₂ {low : Array Value} {v w : Value} {vs : List Value} {stack : Array Value}
    (h : stack = low ++ ((v :: w :: vs).reverse ++ [])) :
    stack = ((low ++ (vs.reverse ++ [])).push w).push v := by rw [stack_cons h, stack_cons rfl]

theorem stack_cons₃ {low : Array Value} {v w u : Value} {vs : List Value} {stack : Array Value}
    (h : stack = low ++ ((v :: w :: u :: vs).reverse ++ [])) :
    stack = (((low ++ (vs.reverse ++ [])).push u).push w).push v := by
  rw [stack_cons₂ h, stack_cons rfl]

/-- An instruction has failed for a reason the program knows, or the frame stands at a sound point
again. -/
inductive Lands (low : Array Value) (rest : List Activation) (f : Frame) (p : Prototype) (h : Heap) :
    EStateM.Result RuntimeError State Demand → Prop
  | failed {e : RuntimeError} {t : State} (sober : ¬ e.Internal) : Lands low rest f p h (.error e t)
  | moved {t : State} {ip : Nat} {cells : Array (Option Nat)} {P : Point} {v w : List Value}
      (calls : t.activations = .guest { f with ip, cells } :: rest) (sound : Sound p h ip P)
      (slots : p.cellCount ≤ cells.size) (bound : ∀ n ∈ P.cells, ∃ cell, cells[n]? = some (some cell))
      (fits : Fits P.slots v) (multi : w.length = if P.multi then t.lastMulti else 0)
      (stack : t.stack = low ++ (v.reverse ++ w)) : Lands low rest f p h (.ok .nothing t)

section

variable {low : Array Value} {rest : List Activation} {f : Frame} {p : Prototype} {h : Heap}
  {s : State} {ip : Nat} {cells : Array (Option Nat)} {slots : List Bool} {C : List Nat}
  {vs : List Value}
  (hcalls : s.activations = .guest { f with ip, cells } :: rest)
  (hslots : p.cellCount ≤ cells.size) (hbound : ∀ n ∈ C, ∃ cell, cells[n]? = some (some cell))
  (hfits : Fits slots vs) (hstack : s.stack = low ++ (vs.reverse ++ []))

include hcalls hslots hbound hfits hstack

theorem lands_done (hsound : Sound p h ip ⟨slots, C, false⟩) : Lands low rest f p h (.ok .nothing s) :=
  .moved hcalls hsound hslots hbound hfits rfl hstack

theorem lands_give {gives : List Bool} {news : List Value} (hnews : Fits gives news.reverse)
    (hsound : Sound p h ip ⟨gives ++ slots, C, false⟩) : Lands low rest f p h (give news s) := by
  obtain hgive | ⟨pushed, hgive⟩ := give_cases news s
  · rw [hgive]
    refine .moved hcalls hsound hslots hbound (List.rel_append hnews hfits) (w := []) rfl ?_
    simp [hstack, appendList_append]
  · rw [hgive]
    exact .failed id

theorem lands_values (news : List Value)
    (hsound : Sound p h ip ⟨List.replicate news.length false ++ slots, C, false⟩) :
    Lands low rest f p h (give news s) :=
  lands_give hcalls hslots hbound hfits hstack (Fits.plain (List.length_reverse ..)) hsound

/-- A value is computed, and pushed. -/
theorem lands_compute {m : Machine Value} (hquiet : Quiet m) [hsober : Sober m]
    {f' : Value → List Value} {n : Nat} (hlength : ∀ v, (f' v).length = n)
    (hsound : Sound p h ip ⟨List.replicate n false ++ slots, C, false⟩) :
    Lands low rest f p h ((do give (f' (← m)) : Machine Demand) s) := by
  rw [bind_apply]
  have hs := hquiet s
  cases hm : m s with
  | error e t => exact .failed (hsober.sober s e t hm)
  | ok v t =>
    rw [hm] at hs
    exact lands_values (s := t) (hs.activations.trans hcalls) hslots hbound hfits
      (hs.stack.trans hstack) (f' v) (by rwa [hlength])

/-- A program that does its work on the heap. -/
theorem lands_act {m : Machine Unit} (hquiet : Quiet m) (hsober : ∀ e t, m s = .error e t → ¬ e.Internal)
    (hsound : Sound p h ip ⟨slots, C, false⟩) :
    Lands low rest f p h ((do m; pure .nothing : Machine Demand) s) := by
  rw [bind_apply]
  have hs := hquiet s
  cases hm : m s with
  | error e t => exact .failed (hsober e t hm)
  | ok v t =>
    rw [hm] at hs
    exact lands_done (s := t) (hs.activations.trans hcalls) hslots hbound hfits
      (hs.stack.trans hstack) hsound

end

instance (object key : Value) : Sober (index object key) := by
  refine Sober.after fun s ↦ ?_
  split <;> infer_instance

instance (v : Value) (what : String) : Sober (loopNumber v what) := by
  refine Sober.after fun s ↦ ?_
  split <;> infer_instance

instance (cells : LoopCells) : Sober (prepareLoop cells) := by
  refine Sober.after fun s ↦ Sober.after fun counter ↦ Sober.after fun limit ↦ Sober.after fun step ↦ ?_
  dsimp only
  split <;> infer_instance

theorem quiet_operate (op : Opcode) (a b : Value) : Quiet (operate op a b) := by
  refine Keeps.get.bind fun s ↦ ?_
  dsimp only
  split
  · exact (quiet_lift _).bind fun _ ↦ quiet_bytesValue _
  · exact .pure _
  · exact .pure _
  · exact (quiet_lift _).map _
  · exact (quiet_lift _).map _
  · exact (quiet_lift _).map _
  · exact (quiet_lift _).map _
  · exact quiet_lift _

theorem sober_operate {op : Opcode} (hop : IsBinary op) (a b : Value) : Sober (operate op a b) := by
  refine Sober.after fun s ↦ ?_
  have hordered {r : Except RuntimeError Bool} (hr : ∀ e, r = .error e → ¬ e.Internal) :
      Sober (Value.bool <$> lift r) := by
    have hlift := Sober.lift hr
    infer_instance
  have harith (hop : op = .add ∨ op = .sub ∨ op = .mul ∨ op = .div ∨ op = .pow ∨ op = .mod) :
      Sober (lift (Operators.arith s.heap op a b)) :=
    .lift fun _ he ↦ Operators.sober_arith he hop
  cases op
  case concat =>
    have hconcat := Sober.lift fun e (he : Operators.concat s.heap a b = .error e) ↦
      Operators.sober_concat he
    dsimp only
    infer_instance
  case eq | ne => exact inferInstanceAs (Sober (pure _))
  case lt | le | gt | ge => exact hordered fun _ he ↦ Operators.sober_ordered he
  case add | sub | mul | div | mod | pow => exact harith (by simp)
  all_goals exact hop.elim

theorem after_of_isBinary (P : Point) (i : Instruction) {op : Opcode} (hop : IsBinary op) :
    P.after i op = ⟨false :: P.slots.drop 2, P.cells, false⟩ := by
  cases op <;> first | exact hop.elim | rfl

theorem takes_of_isBinary {i : Instruction} {op : Opcode} (hop : IsBinary op)
    (hi : i.opcode? = some op) : i.takes 0 = 2 ∧ i.closes op = false := by
  rw [Instruction.takes, hi]
  cases op <;> first | exact hop.elim | exact ⟨rfl, rfl⟩

/-- Only a handle that is not in the heap would be an internal error. -/
theorem sober_setIndex {object key v : Value} {s : State}
    (h : ∀ t, object = .table t → t < s.heap.tables.size) {e : RuntimeError} {t : State}
    (he : setIndex object key v s = .error e t) : ¬ e.Internal := by
  cases object with
  | table i =>
    cases hkey : Key.ofValue? key with
    | none =>
      simp only [setIndex, hkey] at he
      cases he
      exact id
    | some k =>
      simp only [setIndex, hkey, bind_apply, get_apply, if_pos (h i rfl)] at he
      cases he
  | _ =>
    cases he
    exact id

theorem captured_eq_ok {f : Frame} {upvalues : Array Nat} {captures : List Capture}
    (h : ∀ c ∈ captures, ∃ cell, Frame.Captures f upvalues cell c) (s : State) :
    ∃ cells, captured f upvalues captures s = .ok cells s := by
  have hcells : ∃ cells, List.Forall₂ (fun c cell ↦ Frame.Captures f upvalues cell c) captures cells := by
    induction captures with
    | nil => exact ⟨[], .nil⟩
    | cons c captures ih =>
      obtain ⟨hc, hrest⟩ := List.forall_mem_cons.mp h
      obtain ⟨cell, hcell⟩ := hc
      obtain ⟨cells, hcells⟩ := ih hrest
      exact ⟨cell :: cells, .cons hcell hcells⟩
  obtain ⟨cells, hcells⟩ := hcells
  exact ⟨cells, captured_of_bound hcells⟩

/-- A frame of sound code that has moved on from an instruction, the operands of which are on top of
what lies below the frame. -/
structure Executes (s : State) (f : Frame) (c : Closure) (p : Prototype) (P : Point) (low : Array Value)
    (rest : List Activation) (vs ms : List Value) : Prop where
  calls : s.activations = .guest { f with ip := f.ip + 1 } :: rest
  closure : s.heap.closures[f.closure]? = some c
  proto : s.heap.protos[c.proto]? = some p
  upvalues : c.upvalues.size = p.captures.size
  slots : p.cellCount ≤ f.cells.size
  cells : ∀ n ∈ P.cells, ∃ cell, f.cells[n]? = some (some cell)
  fits : Fits P.slots vs
  multi : ms.length = if P.multi then s.lastMulti else 0
  stack : s.stack = low ++ (vs.reverse ++ ms)
  environment : c.env < s.heap.tables.size
  tables : ∀ t, .table t ∈ s.stack → t < s.heap.tables.size

namespace Executes

variable {s : State} {f : Frame} {c : Closure} {p : Prototype} {P : Point} {low : Array Value}
  {rest : List Activation} {vs ms : List Value} (h : Executes s f c p P low rest vs ms)
  {i : Instruction} {op : Opcode}

include h

theorem upvalue {n : Nat} (hn : n < p.captures.size) : ∃ cell, c.upvalues[n]? = some cell :=
  ⟨_, Array.getElem?_eq_getElem (h.upvalues ▸ hn)⟩

theorem makeClosure_eq_ok {x k : Nat} {q : Prototype} (hx : p.protos[x]? = some k)
    (hq : s.heap.protos[k]? = some q) (hsupplies : ∀ capture ∈ q.captures, P.Supplies p capture) :
    ∃ v t, makeClosure f x s = .ok v t ∧ t.stack = s.stack ∧ t.activations = s.activations := by
  have hcaptures : ∀ capture ∈ q.captures.toList,
      ∃ cell, Frame.Captures f c.upvalues cell capture := fun capture hc ↦ by
    have hc := hsupplies capture (Array.mem_toList_iff.mp hc)
    cases capture with
    | cell n => exact h.cells n hc
    | upvalue n => exact h.upvalue hc
  obtain ⟨cells, hcells⟩ := captured_eq_ok hcaptures s
  exact ⟨_, _, makeClosure_eq h.closure h.proto hx hq hcells, rfl, rfl⟩

theorem lands (htakes : i.takes 0 ≤ P.slots.length) (hop : i.opcode? = some op)
    (hmulti : P.multi = i.closes op) (hadmits : P.Admits p s.heap i op)
    (hfalls : op ≠ .jump → op ≠ .ret → Sound p s.heap (f.ip + 1) (P.after i op))
    (hjumps : ∀ P', P.jumped op = some P' → Sound p s.heap i.x P')
    (hcall : op ≠ .call) (hret : op ≠ .ret) :
    Lands low rest f p s.heap (perform f p.constants i op s) := by
  have hupvalue := fun n ↦ h.upvalue (n := n)
  have hmem : ∀ v ∈ vs, v ∈ s.stack := fun v hv ↦ by
    rw [h.stack, ← Array.mem_toList_iff, Array.toList_appendList]
    simp [hv]
  have hclosure_ok := fun x k q ↦ h.makeClosure_eq_ok (x := x) (k := k) (q := q)
  obtain ⟨slots, C, multi⟩ := P
  obtain ⟨hcalls, hclosure, hproto, hupvalues, hslots, hcells, hfits, hms, hstack, henv, htables⟩ := h
  by_cases hbinary : IsBinary op
  · obtain ⟨htwo, hcloses⟩ := takes_of_isBinary hbinary hop
    obtain rfl : multi = false := hmulti.trans hcloses
    obtain rfl : ms = [] := List.eq_nil_of_length_eq_zero hms
    rw [htwo] at htakes
    obtain ⟨b, a, vs, rfl, hrest⟩ := hfits.uncons₂ htakes
    have hsound := hfalls (by rintro rfl; exact hbinary) (by rintro rfl; exact hbinary)
    rw [after_of_isBinary _ _ hbinary] at hsound
    rw [perform_binary hbinary (stack_cons₂ hstack)]
    have hsober := sober_operate hbinary a b
    exact lands_compute (by exact hcalls) hslots hcells hrest rfl (quiet_operate _ _ _)
      (fun _ ↦ rfl) hsound
  rw [Instruction.takes, hop] at htakes
  dsimp only at htakes hmulti hadmits hfalls hjumps hcells hfits hms hstack
  cases op
  case call => exact absurd rfl hcall
  case ret => exact absurd rfl hret
  case setList =>
    obtain rfl : multi = true := hmulti
    replace hfalls := hfalls (by decide) (by decide)
    cases hfits with
    | nil => cases hadmits
    | @cons table v slots vs hv hfits =>
      obtain rfl : table = true := Option.some.inj hadmits
      obtain ⟨t, rfl⟩ := hv rfl
      rw [List.reverse_cons, List.append_assoc] at hstack
      have hs : s.stack = (low ++ (vs.reverse ++ [])).push (.table t) ++ ms := by
        rw [hstack]
        apply Array.ext'
        simp
      have ht : t < s.heap.tables.size := htables t (hmem _ (by simp))
      rw [perform_setList hs hms.symm ht]
      exact lands_done (by exact hcalls) hslots hcells (.cons (fun _ ↦ ⟨t, rfl⟩) hfits)
        (stack_cons rfl).symm hfalls
  all_goals
    obtain rfl : multi = false := hmulti
    obtain rfl : ms = [] := List.eq_nil_of_length_eq_zero hms
    try replace hfalls := hfalls (by decide) (by decide)
    simp only [Point.Admits] at hadmits
  case loadNil =>
    rw [perform_loadNil]
    exact lands_values hcalls hslots hcells hfits hstack _ (by simpa using hfalls)
  case loadTrue =>
    rw [perform_loadTrue]
    exact lands_values hcalls hslots hcells hfits hstack _ (by simpa using hfalls)
  case loadFalse =>
    rw [perform_loadFalse]
    exact lands_values hcalls hslots hcells hfits hstack _ (by simpa using hfalls)
  case loadConst =>
    obtain ⟨v, hv, -⟩ := hadmits
    rw [perform_loadConst hv]
    exact lands_values hcalls hslots hcells hfits hstack _ (by simpa using hfalls)
  case getCell =>
    obtain ⟨cell, hcell⟩ := hcells _ hadmits
    rw [perform_getCell hcell]
    exact lands_values hcalls hslots hcells hfits hstack _ (by simpa using hfalls)
  case getUpvalue =>
    obtain ⟨cell, hcell⟩ := hupvalue _ hadmits
    rw [perform_getUpvalue hclosure hcell]
    exact lands_values hcalls hslots hcells hfits hstack _ (by simpa using hfalls)
  case getGlobal =>
    obtain ⟨key, hkey, -⟩ := hadmits
    rw [perform_getGlobal hclosure hkey]
    exact lands_values hcalls hslots hcells hfits hstack _ (by simpa using hfalls)
  case forTest =>
    obtain ⟨h₀, h₁, h₂⟩ := hadmits
    obtain ⟨counter, hcounter⟩ := hcells _ h₀
    obtain ⟨limit, hlimit⟩ := hcells _ h₁
    obtain ⟨step, hstep⟩ := hcells _ h₂
    rw [perform_forTest hcounter hlimit hstep]
    exact lands_values hcalls hslots hcells hfits hstack _ (by simpa using hfalls)
  case newTable =>
    rw [perform_newTable]
    have hnews : Fits [true] [.table s.heap.tables.size] := .cons (fun _ ↦ ⟨_, rfl⟩) .nil
    exact lands_give (s := { s with heap := (s.heap.allocTable .empty).2 }) hcalls hslots hcells hfits
      hstack hnews hfalls
  case closure =>
    obtain ⟨k, q, hx, hq, hsupplies⟩ := hadmits
    obtain ⟨v, t, hmake, hs, hcalls'⟩ := hclosure_ok _ _ _ hx hq hsupplies
    rw [perform_closure, bind_of_ok hmake]
    exact lands_values (s := t) (hcalls'.trans hcalls) hslots hcells hfits (hs.trans hstack) _
      (by simpa using hfalls)
  case varargs =>
    rw [perform_varargs]
    by_cases ha : i.a.toNat = 0
    · have hopens : i.a = 0 := UInt8.toNat_inj.mp ha
      rw [if_pos ha]
      obtain hgive | ⟨pushed, hgive⟩ := give_cases (adjusted f.varargs none) (counted f.varargs none s)
      · rw [hgive]
        refine .moved (by exact hcalls) hfalls hslots hcells (by simpa [hopens] using hfits)
          (w := f.varargs) ?_ ?_
        · simp [hopens, counted]
        · simp [hstack, counted, adjusted, appendList_append]
      · rw [hgive]
        exact .failed id
    · have hopens : (i.a == 0) = false := beq_eq_false_iff_ne.mpr fun h ↦ ha (congrArg UInt8.toNat h)
      rw [if_neg ha]
      refine lands_values hcalls hslots hcells hfits hstack _ ?_
      simpa [hopens, length_adjusted] using hfalls
  case setCell =>
    obtain ⟨v, vs, rfl, hrest⟩ := hfits.uncons htakes
    obtain ⟨cell, hcell⟩ := hcells _ hadmits
    rw [perform_setCell hcell (stack_cons hstack)]
    exact lands_done (by exact hcalls) hslots hcells hrest rfl hfalls
  case setUpvalue =>
    obtain ⟨v, vs, rfl, hrest⟩ := hfits.uncons htakes
    obtain ⟨cell, hcell⟩ := hupvalue _ hadmits
    rw [perform_setUpvalue hclosure hcell (stack_cons hstack)]
    exact lands_done (by exact hcalls) hslots hcells hrest rfl hfalls
  case setGlobal =>
    obtain ⟨v, vs, rfl, hrest⟩ := hfits.uncons htakes
    obtain ⟨key, hkey, -⟩ := hadmits
    rw [perform_setGlobal hclosure hkey (stack_cons hstack)]
    refine lands_act (by exact hcalls) hslots hcells hrest rfl (quiet_setIndex _ _ _)
      (fun e t ↦ sober_setIndex fun t ht ↦ ?_) hfalls
    cases ht
    exact henv
  case newCell =>
    obtain ⟨v, vs, rfl, hrest⟩ := hfits.uncons htakes
    rw [perform_newCell (stack_cons hstack) hcalls (hadmits.trans_le hslots)]
    refine .moved rfl hfalls ?_ (fun n hn ↦ ?_) hrest (w := []) rfl rfl
    · simpa using hslots
    · simp only [Point.after, if_true] at hn
      by_cases hx : i.x = n
      · subst hx
        exact ⟨_, Array.getElem?_setIfInBounds_self_of_lt (hadmits.trans_le hslots)⟩
      · rw [Array.getElem?_setIfInBounds_ne hx]
        exact hcells n ((List.mem_cons.mp hn).resolve_left fun h ↦ hx h.symm)
  case neg =>
    obtain ⟨v, vs, rfl, hrest⟩ := hfits.uncons htakes
    rw [perform_neg (stack_cons hstack)]
    have hsober := Sober.lift fun e (he : Operators.negate s.heap v = .error e) ↦
      Operators.sober_negate he
    exact lands_compute (by exact hcalls) hslots hcells hrest rfl (quiet_lift _) (fun _ ↦ rfl) hfalls
  case len =>
    obtain ⟨v, vs, rfl, hrest⟩ := hfits.uncons htakes
    rw [perform_len (stack_cons hstack)]
    have hsober := Sober.lift fun e (he : Operators.length s.heap v = .error e) ↦
      Operators.sober_length he
    exact lands_compute (by exact hcalls) hslots hcells hrest rfl (quiet_lift _) (fun _ ↦ rfl) hfalls
  case not =>
    obtain ⟨v, vs, rfl, hrest⟩ := hfits.uncons htakes
    rw [perform_not (stack_cons hstack)]
    exact lands_values (by exact hcalls) hslots hcells hrest rfl _ hfalls
  case self =>
    obtain ⟨v, vs, rfl, hrest⟩ := hfits.uncons htakes
    obtain ⟨key, hkey, -⟩ := hadmits
    rw [perform_self hkey (stack_cons hstack)]
    exact lands_compute (by exact hcalls) hslots hcells hrest rfl (quiet_index _ _) (fun _ ↦ rfl) hfalls
  case getIndex =>
    obtain ⟨key, object, vs, rfl, hrest⟩ := hfits.uncons₂ htakes
    rw [perform_getIndex (stack_cons₂ hstack)]
    exact lands_compute (by exact hcalls) hslots hcells hrest rfl (quiet_index _ _) (fun _ ↦ rfl) hfalls
  case setIndex =>
    obtain ⟨key, object, v, vs, rfl, hrest⟩ := hfits.uncons₃ htakes
    rw [perform_setIndex (stack_cons₃ hstack)]
    refine lands_act (by exact hcalls) hslots hcells hrest rfl (quiet_setIndex _ _ _)
      (fun e t ↦ sober_setIndex fun t ht ↦ ?_) hfalls
    exact htables t (ht ▸ hmem object (by simp))
  case initIndex =>
    obtain ⟨v, key, vs, rfl, hrest⟩ := hfits.uncons₂ (Nat.lt_of_succ_lt htakes)
    obtain ⟨table, vs, rfl, -⟩ := hrest.uncons (by rw [List.length_drop]; exact Nat.lt_sub_of_add_lt htakes)
    rw [perform_initIndex (stack_cons₃ hstack)]
    refine lands_act (by exact hcalls) hslots hcells hrest ?_ (quiet_setIndex _ _ _)
      (fun e t ↦ sober_setIndex fun t ht ↦ ?_) hfalls
    · exact (stack_cons rfl).symm
    · exact htables t (ht ▸ hmem table (by simp))
  case pop =>
    have hsplit : s.stack = low ++ ((vs.drop i.a.toNat).reverse ++ []) ++ (vs.take i.a.toNat).reverse := by
      rw [hstack, appendList_append, List.append_nil, List.append_nil, ← List.reverse_append,
        List.take_append_drop]
    have hlength : i.a.toNat = (vs.take i.a.toNat).reverse.length := by
      have hle : i.a.toNat ≤ vs.length := List.Forall₂.length_eq hfits ▸ htakes
      simp [hle]
    rw [perform_pop hsplit hlength]
    exact lands_done (by exact hcalls) hslots hcells (List.forall₂_drop _ hfits) rfl hfalls
  case forPrep =>
    obtain ⟨h₀, h₁, h₂⟩ := hadmits
    obtain ⟨counter, hcounter⟩ := hcells _ h₀
    obtain ⟨limit, hlimit⟩ := hcells _ h₁
    obtain ⟨step, hstep⟩ := hcells _ h₂
    rw [perform_forPrep hcounter hlimit hstep]
    exact lands_act (by exact hcalls) hslots hcells hfits hstack (quiet_prepareLoop _)
      (Sober.sober s) (by simpa using hfalls)
  case forStep =>
    obtain ⟨h₀, h₁, h₂⟩ := hadmits
    obtain ⟨counter, hcounter⟩ := hcells _ h₀
    obtain ⟨limit, hlimit⟩ := hcells _ h₁
    obtain ⟨step, hstep⟩ := hcells _ h₂
    rw [perform_forStep hcounter hlimit hstep]
    exact lands_done (by exact hcalls) hslots hcells hfits hstack (by simpa using hfalls)
  case jump =>
    rw [perform_jump, jumped, hcalls]
    exact .moved rfl (hjumps _ rfl) hslots hcells hfits (w := []) rfl hstack
  case jumpIfFalse =>
    obtain ⟨v, vs, rfl, hrest⟩ := hfits.uncons htakes
    rw [perform_jumpIfFalse (stack_cons hstack)]
    split
    · rw [jumped, hcalls]
      exact .moved rfl (hjumps _ rfl) hslots hcells hrest (w := []) rfl rfl
    · exact lands_done (by exact hcalls) hslots hcells hrest rfl hfalls
  case jumpIfFalseKeep | jumpIfTrueKeep =>
    obtain ⟨v, vs, rfl, hrest⟩ := hfits.uncons htakes
    first
      | rw [perform_jumpIfFalseKeep (stack_cons hstack)]
      | rw [perform_jumpIfTrueKeep (stack_cons hstack)]
    split
    · rw [jumped, hcalls]
      exact .moved rfl (hjumps _ rfl) hslots hcells hfits (w := []) rfl hstack
    · exact lands_done (by exact hcalls) hslots hcells hrest rfl hfalls
  all_goals exact absurd trivial hbinary

end Executes

end MiniLua
