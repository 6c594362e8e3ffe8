import MiniLua.Proofs.Instances.Known

/-! Along the code of a text, instructions do what they stand for. -/

namespace MiniLua

namespace Walk

/-- All variables in scope, where the compiler has their locals. -/
def known (w : Walk) (locals : List Local) : Known := w.scope.zip (locals.map Local.cell)

/-- The text was read as far as the code goes before `pc`. -/
structure Ready (w : Walk) (p : Prototype) (locals : List Local) (pc : Nat) : Prop where
  count : w.seen.length = (p.touching pc).length
  names : List.Forall₂ (fun v l ↦ v.name = l.name) w.scope locals
  serials : ∀ v ∈ w.scope, v.serial < w.declared
  distinct : w.scope.Nodup
  apart : (locals.map Local.cell).Nodup

variable {w : Walk} {p : Prototype} {locals : List Local} {pc : Nat}

theorem held_of_names {scope : Scope} {K : Known}
    (h : List.Forall₂ (fun v l ↦ v.name = l.name) scope locals)
    (hK : scope.zip (locals.map Local.cell) ⊆ K) : scope.Held K locals := by
  induction h with
  | nil => exact .nil
  | cons hv _ ih =>
    obtain ⟨hfirst, hrest⟩ := List.cons_subset.mp hK
    exact .cons ⟨hv, hfirst⟩ (ih hrest)

theorem Ready.held (h : w.Ready p locals pc) : w.scope.Held (w.known locals) locals :=
  held_of_names h.names (List.Subset.refl _)

/-- The variables and the slots that are known are those in scope. -/
theorem mem_of_known {q : Variable × Nat} (h : q ∈ w.known locals) :
    q.1 ∈ w.scope ∧ q.2 ∈ locals.map Local.cell := List.of_mem_zip h

theorem Ready.declare {l : Local} (h : w.Ready p locals pc) (hl : ∀ l' ∈ locals, l'.cell ≠ l.cell) :
    (w.declare l.name).Ready p (l :: locals) pc where
  count := h.count
  names := .cons rfl h.names
  serials v hv := by
    obtain rfl | hv := List.mem_cons.mp hv
    · exact Nat.lt_succ_self _
    · exact (h.serials v hv).trans (Nat.lt_succ_self _)
  distinct := by
    refine List.nodup_cons.mpr ⟨fun hmem ↦ ?_, h.distinct⟩
    exact absurd (h.serials _ hmem) (Nat.lt_irrefl _)
  apart := by
    refine List.nodup_cons.mpr ⟨fun hmem ↦ ?_, h.apart⟩
    obtain ⟨l', hl', hcell⟩ := List.mem_map.mp hmem
    exact hl l' hl' hcell

theorem bindAll_eq (w : Walk) (vs : List Variable) : w.bindAll vs =
    { w with seen := w.seen ++ vs.map fun v ↦ ⟨w.scope, .bind v⟩ } := by
  induction vs generalizing w with
  | nil =>
    rw [List.map_nil, List.append_nil]
    rfl
  | cons v vs ih =>
    have hrest := ih (w.note (.bind v))
    simp only [bindAll, List.foldl_cons] at hrest ⊢
    rw [hrest]
    simp [note]

theorem seen_bindAll (w : Walk) (vs : List Variable) : w.seen <+: (w.bindAll vs).seen := by
  rw [bindAll_eq]
  exact List.prefix_append _ _

end Walk

namespace Home

variable {U : Home} {all : List Occurrence} {outs : List (Nat × Known)} {w u w' : Walk}
  {locals between locals' : List Local} {pc p pc' k : Nat} {K : Known}

variable (U all) in
/-- From fewer than `k` steps on, what is known at one of these places suffices there. -/
def Awaits (outs : List (Nat × Known)) (K : Known) (k : Nat) : Prop :=
  ∀ o ∈ outs, o.2 ⊆ K ∧ ∀ j < k, U.Minds all j o.1 o.2

theorem Awaits.mono {K' : Known} (h : U.Awaits all outs K k) (hK : K ⊆ K') :
    U.Awaits all outs K' k :=
  fun o ho ↦ ⟨List.Subset.trans (h o ho).1 hK, (h o ho).2⟩

variable (U all outs) in
/-- Over the code from one place to another the text is read on, and instructions do what they stand
for if they do so from there on and at the other places to which the code may go. -/
structure Relays (w : Walk) (locals : List Local) (pc : Nat) (w' : Walk) (locals' : List Local)
    (pc' : Nat) : Prop where
  le : pc ≤ pc'
  seen : w.seen <+: w'.seen
  declared : w.declared ≤ w'.declared
  more : w.known locals ⊆ w'.known locals'
  ready : w.Ready U.proto locals pc → w'.Ready U.proto locals' pc'
  minds : ∀ k, w'.seen <+: all → w.Ready U.proto locals pc → U.Awaits all outs (w.known locals) k →
    U.Minds all k pc' (w'.known locals') → U.Minds all k pc (w.known locals)

namespace Relays

theorem refl : U.Relays all outs w locals pc w locals pc :=
  ⟨Nat.le_refl _, List.prefix_refl _, Nat.le_refl _, List.Subset.refl _, id, fun _ _ _ _ h ↦ h⟩

theorem trans (h : U.Relays all outs w locals pc u between p)
    (h' : U.Relays all outs u between p w' locals' pc') :
    U.Relays all outs w locals pc w' locals' pc' where
  le := h.le.trans h'.le
  seen := h.seen.trans h'.seen
  declared := h.declared.trans h'.declared
  more := List.Subset.trans h.more h'.more
  ready hw := h'.ready (h.ready hw)
  minds k hseen hw hawaits hend :=
    h.minds k (h'.seen.trans hseen) hw hawaits
      (h'.minds k hseen (h.ready hw) (hawaits.mono h.more) hend)

/-- Variables are forgotten at the end of their scope. -/
theorem leave (h : U.Relays all outs w locals pc w' locals' pc') :
    U.Relays all outs w locals pc (w'.leave w) locals pc' where
  le := h.le
  seen := h.seen
  declared := h.declared
  more := List.Subset.refl _
  ready hw :=
    ⟨(h.ready hw).count, hw.names, fun v hv ↦ (hw.serials v hv).trans_le h.declared, hw.distinct,
      hw.apart⟩
  minds k hseen hw hawaits hend := h.minds k hseen hw hawaits (hend.mono h.more)

/-- Code that goes back to where it begins. -/
theorem loop (h : U.Relays all ((pc, w.known locals) :: outs) w locals pc w' locals' pc') :
    U.Relays all outs w locals pc w' locals' pc' where
  le := h.le
  seen := h.seen
  declared := h.declared
  more := h.more
  ready := h.ready
  minds k hseen hw hawaits hend := by
    induction k using Nat.strong_induction_on with
    | h k ih =>
      refine h.minds k hseen hw (List.forall_mem_cons.mpr ⟨⟨List.Subset.refl _, fun j hj ↦ ?_⟩,
        hawaits⟩) hend
      exact ih j hj (fun o ho ↦ ⟨(hawaits o ho).1, fun i hi ↦ (hawaits o ho).2 i (hi.trans hj)⟩)
        (hend.le hj.le)

/-- Code that goes to its end from inside. -/
theorem meet (h : U.Relays all ((pc', w.known locals) :: outs) w locals pc w' locals' pc')
    (hback : w'.known locals' ⊆ w.known locals) : U.Relays all outs w locals pc w' locals' pc' where
  le := h.le
  seen := h.seen
  declared := h.declared
  more := h.more
  ready := h.ready
  minds k hseen hw hawaits hend :=
    h.minds k hseen hw (List.forall_mem_cons.mpr ⟨⟨List.Subset.refl _, fun _ hj ↦
      (hend.le hj.le).mono hback⟩, hawaits⟩) hend

end Relays

variable {op : Opcode} {operands : Instruction → Prop} {m : Mention} {i : Instruction}

theorem occurrence?_eq_none (hi : U.proto.code[pc]? = some i) (hop : i.opcode? = some op)
    (htouches : op.touches = false) : U.proto.occurrence? all pc = none := by
  simp [Prototype.occurrence?, hi, Instruction.touches, hop, htouches]

/-- The instruction stands for what is met in the text there. -/
theorem occurrence?_note (hi : U.proto.code[pc]? = some i) (hop : i.opcode? = some op)
    (htouches : op.touches = true) (hcount : w.seen.length = (U.proto.touching pc).length)
    (hseen : (w.note m).seen <+: all) : U.proto.occurrence? all pc = some ⟨w.scope, m⟩ := by
  obtain ⟨rest, rfl⟩ := hseen
  simp [Prototype.occurrence?, hi, Instruction.touches, hop, htouches, Walk.note, ← hcount]

theorem length_touching_succ (hi : U.proto.code[pc]? = some i) (hop : i.opcode? = some op) :
    (U.proto.touching (pc + 1)).length =
      (U.proto.touching pc).length + (if op.touches then 1 else 0) := by
  rw [Prototype.touching_succ hi, List.length_append]
  cases htouches : op.touches <;> simp [Instruction.touches, hop, htouches]

theorem ready_skip (h : U.Has op operands pc pc') (htouches : op.touches = false)
    (hw : w.Ready U.proto locals pc) : w.Ready U.proto locals pc' := by
  obtain ⟨rfl, i, hi, hop, -⟩ := h
  refine ⟨?_, hw.names, hw.serials, hw.distinct, hw.apart⟩
  rw [length_touching_succ hi hop, htouches]
  exact hw.count

/-- One step of an instruction that reaches no variable, with what holds at its successors. -/
theorem minds_skip (h : U.Has op operands pc pc') (htouches : op.touches = false)
    (hcounts : op.counts → ∀ i, operands i → K.Counts i.x)
    (hfalls : op ≠ .jump → op ≠ .ret → U.Minds all k pc' K)
    (hjumps : op.jumps → ∀ i, operands i → U.Minds all k i.x K) : U.Minds all (k + 1) pc K := by
  obtain ⟨rfl, i, hi, hop, hoperands⟩ := h
  refine ⟨i, op, hi, hop, fun ht ↦ ?_, fun hc ↦ hcounts hc i hoperands, ?_,
    fun hj ↦ hjumps hj i hoperands⟩
  · rw [htouches] at ht
    cases ht
  · rw [occurrence?_eq_none hi hop htouches]
    exact hfalls

theorem le_of_has' (h : U.Has op operands pc pc') : pc ≤ pc' := h.1 ▸ Nat.le_succ pc

/-- An instruction that counts in the variables of a numeric loop. -/
theorem relays_count {x : Nat} (h : U.Wide op x pc pc') (htouches : op.touches = false)
    (hjumps : op.jumps = false) (hcounts : (w.known locals).Counts x) :
    U.Relays all outs w locals pc w locals pc' := by
  refine ⟨le_of_has' h, List.prefix_refl _, Nat.le_refl _, List.Subset.refl _, ready_skip h htouches,
    fun k _ _ _ hend ↦ ?_⟩
  refine (minds_skip h htouches (fun _ i hx ↦ hx ▸ hcounts) (fun _ _ ↦ hend) fun hj ↦ ?_).le
    (Nat.le_succ k)
  rw [hjumps] at hj
  cases hj

/-- An instruction that reaches no variable and goes on to the next. -/
theorem relays_skip (h : U.Has op operands pc pc') (htouches : op.touches = false)
    (hcounts : op.counts = false) (hjumps : op.jumps = false) :
    U.Relays all outs w locals pc w locals pc' := by
  refine ⟨le_of_has' h, List.prefix_refl _, Nat.le_refl _, List.Subset.refl _, ready_skip h htouches,
    fun k _ _ _ hend ↦ ?_⟩
  refine (minds_skip h htouches (fun hc ↦ ?_) (fun _ _ ↦ hend) fun hj ↦ ?_).le (Nat.le_succ k)
  · rw [hcounts] at hc
    cases hc
  · rw [hjumps] at hj
    cases hj

/-- The function ends. -/
theorem minds_return {n : Nat} {multi : Bool} (h : U.ReturnAt n multi pc pc') :
    U.Minds all k pc K :=
  (minds_skip h rfl (fun hc ↦ nomatch hc) (fun _ hret ↦ absurd rfl hret) fun hj ↦ nomatch hj).le
    (Nat.le_succ k)

theorem relays_return {n : Nat} {multi : Bool} (h : U.ReturnAt n multi pc pc') :
    U.Relays all outs w locals pc w locals pc' :=
  ⟨le_of_has' h, List.prefix_refl _, Nat.le_refl _, List.Subset.refl _, ready_skip h rfl,
    fun _ _ _ _ _ ↦ minds_return h⟩

/-- An instruction after which the code may go to one of the other places. -/
theorem relays_out {x : Nat} (h : U.Wide op x pc pc') (htouches : op.touches = false)
    (hcounts : op.counts = false) (hout : (x, K) ∈ outs) :
    U.Relays all outs w locals pc w locals pc' := by
  refine ⟨le_of_has' h, List.prefix_refl _, Nat.le_refl _, List.Subset.refl _, ready_skip h htouches,
    fun k _ _ hawaits hend ↦ ?_⟩
  cases k with
  | zero => trivial
  | succ k =>
    obtain ⟨hK, hminds⟩ := hawaits _ hout
    refine minds_skip h htouches (fun hc ↦ ?_) (fun _ _ ↦ hend.le (Nat.le_succ k)) fun _ i hx ↦ ?_
    · rw [hcounts] at hc
      cases hc
    · rw [hx]
      exact (hminds k (Nat.lt_succ_self k)).mono hK

theorem ready_note (h : U.Has op operands pc pc') (htouches : op.touches = true)
    (hw : w.Ready U.proto locals pc) : (w.note m).Ready U.proto locals pc' := by
  obtain ⟨rfl, i, hi, hop, -⟩ := h
  refine ⟨?_, hw.names, hw.serials, hw.distinct, hw.apart⟩
  rw [length_touching_succ hi hop, htouches, ← hw.count]
  simp [Walk.note]

/-- One step of an instruction that does what is met in the text. -/
theorem minds_note (h : U.Has op operands pc pc') (htouches : op.touches = true)
    (hcount : w.seen.length = (U.proto.touching pc).length) (hseen : (w.note m).seen <+: all)
    (hmeans : ∀ i, operands i → U.Means K pc i op ⟨w.scope, m⟩)
    (hfalls : ∀ i, operands i → U.Minds all k pc' (K.after i.x (some ⟨w.scope, m⟩))) :
    U.Minds all (k + 1) pc K := by
  obtain ⟨rfl, i, hi, hop, hoperands⟩ := h
  have hfound := occurrence?_note hi hop htouches hcount hseen
  refine ⟨i, op, hi, hop, fun _ ↦ ⟨_, hfound, hmeans i hoperands⟩, fun hc ↦ ?_, fun _ _ ↦ ?_,
    fun hj ↦ ?_⟩
  · cases op <;> simp_all [Opcode.touches, Opcode.counts]
  · rw [hfound]
    exact hfalls i hoperands
  · cases op <;> simp_all [Opcode.touches, Opcode.jumps]

/-- An access to a variable, or a function that is made. -/
theorem relays_note (h : U.Has op operands pc pc') (htouches : op.touches = true)
    (hbind : ∀ v, m ≠ .bind v)
    (hmeans : w.Ready U.proto locals pc → ∀ i, operands i →
      U.Means (w.known locals) pc i op ⟨w.scope, m⟩) :
    U.Relays all outs w locals pc (w.note m) locals pc' := by
  refine ⟨le_of_has' h, List.prefix_append _ _, Nat.le_refl _, List.Subset.refl _,
    ready_note h htouches, fun k hseen hw _ hend ↦ ?_⟩
  refine (minds_note h htouches hw.count hseen (hmeans hw) fun i _ ↦ ?_).le (Nat.le_succ k)
  cases m with
  | bind v => exact absurd rfl (hbind v)
  | read | write | make => exact hend

section

variable {route : Route} {name : String}

theorem accesses_of_names {b : Binding} (hw : w.Ready U.proto locals pc) (hb : U.Names locals name b)
    (hop : op = match b with | .cell _ => route.cell | .upvalue _ => route.upvalue | .global => route.global)
    (hx : ∀ n, b = .cell n ∨ b = .upvalue n → i.x = n) :
    U.Accesses (w.known locals) w.scope route name i op := by
  unfold Accesses
  cases b with
  | cell n =>
    obtain ⟨v, hfind, hv⟩ := hw.held.find_some hb
    rw [hfind, hx n (.inl rfl)]
    exact ⟨hop, hv⟩
  | upvalue n =>
    rw [hw.held.find_none hb.1, hx n (.inr rfl)]
    exact .inl ⟨hop, hb.2⟩
  | global =>
    rw [hw.held.find_none hb.1]
    exact .inr ⟨hop, hb.2⟩

variable (route) in
/-- An access to a variable, in the text and in the code. -/
theorem relays_nameAt (h : U.NameAt locals name route.cell route.upvalue route.global pc pc')
    (hroute : route.cell.touches = true ∧ route.upvalue.touches = true ∧
      route.global.touches = true) (hbind : ∀ v, m ≠ .bind v)
    (hm : ∀ K i op, U.Accesses K w.scope route name i op → U.Means K pc i op ⟨w.scope, m⟩) :
    U.Relays all outs w locals pc (w.note m) locals pc' := by
  obtain ⟨b, hb, h⟩ := h
  cases b with
  | cell n =>
    refine relays_note h hroute.1 hbind fun hw i hx ↦ hm _ _ _ (accesses_of_names hw hb rfl ?_)
    rintro _ (h | h) <;> cases h
    exact hx
  | upvalue n =>
    refine relays_note h hroute.2.1 hbind fun hw i hx ↦ hm _ _ _ (accesses_of_names hw hb rfl ?_)
    rintro _ (h | h) <;> cases h
    exact hx
  | global =>
    obtain ⟨k, -, h⟩ := h
    refine relays_note h hroute.2.2 hbind fun hw i hx ↦ hm _ _ _ (accesses_of_names hw hb rfl ?_)
    rintro _ (h | h) <;> cases h

theorem relays_read (h : U.LoadNameAt locals name pc pc') :
    U.Relays all outs w locals pc (w.note (.read name)) locals pc' :=
  relays_nameAt .load h ⟨rfl, rfl, rfl⟩ (fun _ h ↦ nomatch h) fun _ _ _ h ↦ h

theorem relays_write (h : U.StoreNameAt locals name pc pc') :
    U.Relays all outs w locals pc (w.note (.write name)) locals pc' :=
  relays_nameAt .store h ⟨rfl, rfl, rfl⟩ (fun _ h ↦ nomatch h) fun _ _ _ h ↦ h

end

section

variable {vs : List Variable} {cells : List Nat} {S : Known} {names : List String}

theorem le_of_newCellsAt (h : U.NewCellsAt cells pc pc') : pc ≤ pc' := by
  induction cells generalizing pc with
  | nil => exact Nat.le_of_eq h.symm
  | cons cell cells ih =>
    obtain ⟨p, hcell, hmore⟩ := h
    exact (le_of_has' hcell).trans (ih hmore)

theorem ready_bindAll (h : U.NewCellsAt cells pc pc') (hlength : vs.length = cells.length)
    (hw : w.Ready U.proto locals pc) : (w.bindAll vs).Ready U.proto locals pc' := by
  induction cells generalizing w vs pc with
  | nil =>
    obtain rfl := List.length_eq_zero_iff.mp hlength
    obtain rfl : pc' = pc := h
    exact hw
  | cons cell cells ih =>
    obtain ⟨p, hcell, hmore⟩ := h
    obtain ⟨v, vs, rfl⟩ := List.exists_cons_of_length_eq_add_one hlength
    exact ih (w := w.note (.bind v)) hmore (by simpa using hlength) (ready_note hcell rfl hw)

/-- Variables that get their first values one after the other are known behind that, and so is what
was known of others in other slots. -/
theorem minds_bindAll (h : U.NewCellsAt cells pc pc') (hlength : vs.length = cells.length)
    (hcount : w.seen.length = (U.proto.touching pc).length) (hseen : (w.bindAll vs).seen <+: all)
    (hvs : vs.Nodup) (hcells : cells.Nodup) (hother : ∀ q ∈ S, q.1 ∉ vs ∧ q.2 ∉ cells) (hS : S ⊆ K)
    (hend : ∀ K', vs.zip cells ++ S ⊆ K' → U.Minds all k pc' K') : U.Minds all k pc K := by
  induction cells generalizing w vs pc S K with
  | nil =>
    obtain rfl := List.length_eq_zero_iff.mp hlength
    obtain rfl : pc' = pc := h
    exact hend K hS
  | cons cell cells ih =>
    obtain ⟨p, hcell, hmore⟩ := h
    obtain ⟨v, vs, rfl⟩ := List.exists_cons_of_length_eq_add_one hlength
    obtain ⟨hv, hvs'⟩ := List.nodup_cons.mp hvs
    obtain ⟨hc, hcells'⟩ := List.nodup_cons.mp hcells
    refine (minds_note (m := .bind v) hcell rfl hcount
      ((Walk.seen_bindAll (w.note (.bind v)) vs).trans hseen) (fun _ _ ↦ rfl) ?_).le (Nat.le_succ k)
    rintro i rfl
    refine ih (w := w.note (.bind v)) (S := (v, i.x) :: S) hmore (by simpa using hlength) ?_ hseen hvs' hcells' ?_ ?_ ?_
    · obtain ⟨rfl, i, hi, hop, -⟩ := hcell
      rw [length_touching_succ hi hop, ← hcount]
      simp [Walk.note, Opcode.touches]
    · refine List.forall_mem_cons.mpr ⟨⟨hv, hc⟩, fun q hq ↦ ?_⟩
      exact ⟨fun hmem ↦ (hother q hq).1 (List.mem_cons_of_mem _ hmem),
        fun hmem ↦ (hother q hq).2 (List.mem_cons_of_mem _ hmem)⟩
    · refine List.cons_subset.mpr ⟨List.mem_cons_self, Known.subset_bind hS fun q hq ↦ ?_⟩
      obtain ⟨hne, hapart⟩ := hother q hq
      exact ⟨List.ne_of_not_mem_cons hne, List.ne_of_not_mem_cons hapart⟩
    · refine fun K' hK' ↦ hend K' fun q hq ↦ hK' ?_
      rw [List.zip_cons_cons, List.cons_append] at hq
      simp only [List.mem_cons, List.mem_append] at hq ⊢
      tauto

theorem ready_declareAll (h : U.Declares names cells locals locals')
    (hw : w.Ready U.proto locals pc) : (w.declareAll names).Ready U.proto locals' pc := by
  induction names generalizing w cells locals with
  | nil =>
    obtain ⟨-, rfl⟩ := h
    exact hw
  | cons name names ih =>
    obtain ⟨l, rest, rfl, hfresh, -, hmore⟩ := h
    exact ih hmore (hw.declare hfresh.cell_ne)

/-- New variables get their first values. -/
theorem relays_declareAll (h : U.Declares names cells locals locals')
    (hcells : U.NewCellsAt cells.reverse pc pc') :
    U.Relays all outs w locals pc ((w.declareAll names).bindLast names.length) locals' pc' := by
  obtain ⟨new, hlocals, hnew, hlength⟩ := h.exists_append
  have hdeclared := Walk.declareAll_eq w names
  obtain ⟨vs, hscope, hvs⟩ : ∃ vs, (w.declareAll names).scope = vs ++ w.scope ∧
      vs.length = names.length := ⟨_, by rw [hdeclared], by simp⟩
  have hlast : (w.declareAll names).bindLast names.length = (w.declareAll names).bindAll vs := by
    rw [Walk.bindLast, hscope, List.take_left' hvs]
  have hlengths : vs.length = cells.reverse.length := by rw [← hnew, List.length_map, hvs, hlength]
  have hknown : ((w.declareAll names).bindAll vs).known locals' =
      vs.zip cells.reverse ++ w.known locals := by
    rw [Walk.bindAll_eq, Walk.known, Walk.known, hscope, hlocals, List.map_append, hnew,
      List.zip_append hlengths]
  rw [hlast]
  refine ⟨le_of_newCellsAt hcells, ?_, ?_, ?_, fun hw ↦ ?_, fun k hseen hw _ hend ↦ ?_⟩
  · rw [Walk.bindAll_eq, hdeclared]
    exact List.prefix_append _ _
  · rw [Walk.bindAll_eq, hdeclared]
    exact Nat.le_add_right _ _
  · rw [hknown]
    exact List.subset_append_right _ _
  · exact ready_bindAll hcells hlengths (ready_declareAll h hw)
  · have hready := ready_declareAll h hw
    have hdistinct := hready.distinct
    have hapart := hready.apart
    rw [hscope, List.nodup_append'] at hdistinct
    rw [hlocals, List.map_append, hnew, List.nodup_append'] at hapart
    refine minds_bindAll (w := w.declareAll names) (S := w.known locals) hcells hlengths hready.count
      hseen hdistinct.1 hapart.1 (fun q hq ↦ ?_) (List.Subset.refl _) fun K' hK' ↦ ?_
    · obtain ⟨hv, hslot⟩ := Walk.mem_of_known hq
      exact ⟨fun hmem ↦ hdistinct.2.2 hmem hv, fun hmem ↦ hapart.2.2 hmem hslot⟩
    · rw [hknown] at hend
      exact hend.mono hK'

end

theorem relays_make {f : FunctionBody} (h : f.At U locals pc pc') :
    U.Relays all outs w locals pc (w.note (.make f)) locals pc' := by
  obtain ⟨params, variadic, body, pos⟩ := f
  have hat := h
  obtain ⟨x, k, proto, hclosure, -⟩ := h
  obtain rfl := hclosure.1
  exact relays_note hclosure rfl (fun _ h ↦ nomatch h) fun hw i hx ↦ ⟨rfl, locals, hat, hw.held⟩

theorem relays_loadAt {v : Value} (h : U.LoadAt v pc pc') :
    U.Relays all outs w locals pc w locals pc' := by
  obtain ⟨k, -, hload⟩ := h
  exact relays_skip hload rfl rfl rfl

theorem relays_loadTextAt {s : Bytes} (h : U.LoadTextAt s pc pc') :
    U.Relays all outs w locals pc w locals pc' := by
  obtain ⟨k, -, hload⟩ := h
  exact relays_skip hload rfl rfl rfl

theorem relays_repeatedAt {bound n : Nat} (htouches : op.touches = false)
    (hcounts : op.counts = false) (hjumps : op.jumps = false)
    (h : U.RepeatedAt op bound n pc pc') : U.Relays all outs w locals pc w locals pc' := by
  induction bound generalizing n pc with
  | zero =>
    obtain rfl : pc' = pc := h
    exact .refl
  | succ bound ih =>
    rw [RepeatedAt] at h
    split at h
    · subst h
      exact .refl
    · obtain ⟨p, hfirst, hmore⟩ := h
      exact (relays_skip hfirst htouches hcounts hjumps).trans (ih hmore)

theorem relays_adjustAt {pushed n : Nat} {want : Want} (h : U.AdjustAt pushed want pc pc' n) :
    U.Relays all outs w locals pc w locals pc' := by
  cases want with
  | all =>
    obtain ⟨-, rfl⟩ := h
    exact .refl
  | exactly m =>
    obtain ⟨-, h⟩ := h
    split at h
    · exact relays_repeatedAt rfl rfl rfl h
    · exact relays_repeatedAt rfl rfl rfl h

theorem relays_pathAt {keys : List String} (h : U.PathAt keys pc pc') :
    U.Relays all outs w locals pc w locals pc' := by
  induction keys generalizing pc with
  | nil =>
    obtain rfl : pc' = pc := h
    exact .refl
  | cons key keys ih =>
    obtain ⟨p, q, hkey, hindex, hmore⟩ := h
    exact ((relays_loadTextAt hkey).trans (relays_skip hindex rfl rfl rfl)).trans (ih hmore)

theorem relays_defineAt {name : FunctionName} (h : U.DefineAt locals name pc pc') :
    U.Relays all outs w locals pc (w.note name.mention) locals pc' := by
  unfold DefineAt at h
  unfold FunctionName.mention
  cases hkeys : name.fields ++ name.method.toList with
  | nil =>
    rw [hkeys] at h
    exact relays_write h
  | cons key keys =>
    rw [hkeys, List.getLast?_cons] at h
    obtain ⟨p, q, r, hfirst, hpath, hlast, hset⟩ := h
    exact (((relays_read hfirst).trans (relays_pathAt hpath)).trans
      (relays_loadTextAt hlast)).trans (relays_skip hset rfl rfl rfl)

end Home

end MiniLua
