import MiniLua.Proofs.Instances.Ledger

/-!
A function whose frame fits its text reaches variables where the text says: what the compiler knows of
slots is what the account knows of cells.
-/

namespace MiniLua

open Machine

namespace Heap

variable {h : Heap} {n : Nat}

theorem link_of_closure {c : Closure} (hc : h.closures[n]? = some c) :
    h.links[n]? = some (c.proto, c.upvalues) := by
  rw [links, Array.getElem?_map, hc, Option.map_some]

theorem closure_of_link {link : Nat × Array Nat} (hlink : h.links[n]? = some link) :
    ∃ c, h.closures[n]? = some c ∧ (c.proto, c.upvalues) = link := by
  rw [links, Array.getElem?_map] at hlink
  exact Option.map_eq_some_iff.mp hlink

end Heap

theorem exists_of_forall₂ {α β : Type} {R : α → β → Prop} {as : List α} {bs : List β}
    (h : List.Forall₂ R as bs) {b : β} (hb : b ∈ bs) : ∃ a ∈ as, R a b := by
  induction h with
  | nil => cases hb
  | @cons a b' as bs hab _ ih =>
    obtain rfl | hb := List.mem_cons.mp hb
    · exact ⟨a, List.mem_cons_self, hab⟩
    · obtain ⟨a', ha', hR⟩ := ih hb
      exact ⟨a', List.mem_cons_of_mem a ha', hR⟩

namespace Home

variable {U : Home} {K : Known} {pc : Nat} {i : Instruction} {op : Opcode} {o : Occurrence}

/-- Only one instruction binds variables, and only one makes functions. -/
theorem Means.cases (h : U.Means K pc i op o) :
    (op = .newCell ∧ ∃ v, o.mention = .bind v) ∨ (op = .closure ∧ ∃ body, o.mention = .make body) ∨
      op ≠ .newCell ∧ op ≠ .closure ∧ ∃ name, o.mention = .read name ∨ o.mention = .write name := by
  have haccess {scope : Scope} {route : Route} {name : String} (ha : U.Accesses K scope route name i op)
      (hroute : ∀ op ∈ [route.cell, route.upvalue, route.global], op ≠ .newCell ∧ op ≠ .closure) :
      op ≠ .newCell ∧ op ≠ .closure := by
    apply hroute
    unfold Accesses at ha
    split at ha
    · simp [ha.1]
    · obtain ⟨rfl, -⟩ | ⟨rfl, -⟩ := ha <;> simp
  obtain ⟨scope, m⟩ := o
  cases m with
  | bind v => exact .inl ⟨h, v, rfl⟩
  | make body => exact .inr (.inl ⟨h.1, body, rfl⟩)
  | read name =>
    obtain ⟨hnew, hmake⟩ := haccess h (by decide)
    exact .inr (.inr ⟨hnew, hmake, name, .inl rfl⟩)
  | write name =>
    obtain ⟨hnew, hmake⟩ := haccess h (by decide)
    exact .inr (.inr ⟨hnew, hmake, name, .inr rfl⟩)

/-- The function that an instruction makes is nested where its operand says. -/
theorem nested_of_at {locals : List Local} {params : List String} {variadic : Bool} {body : Block}
    {pos : Position} {pc' : Nat} (hbody : (FunctionBody.mk params variadic body pos).At U locals pc pc')
    (hi : U.proto.code[pc]? = some i) (hshort : U.proto.Short) :
    ∃ k q, U.proto.protos[i.x]? = some k ∧ U.heap.protos[k]? = some q ∧
      (∀ c ∈ q.captures, U.Supplies locals c) ∧ (U.inner locals q).Runs params variadic body := by
  obtain ⟨x, k, q, ⟨-, j, hj, -, hx⟩, hk, hq, harity, hfew, hcells, hvariadic, hsupplies, hcode⟩ := hbody
  obtain rfl : j = i := Option.some.inj (hj.symm.trans hi)
  have hlt : x < Instruction.wideLimit := (Array.getElem?_eq_some_iff.mp hk).1.trans hshort.protos
  rw [Nat.mod_eq_of_lt hlt] at hx
  exact ⟨k, q, hx ▸ hk, hq, hsupplies, harity, hfew, hcells, hvariadic, hcode⟩

end Home

namespace Life.Fits

variable {L : Life} {code h : Heap} {f : Frame} {U : Home} {link : Nat × Array Nat} {K : Known}
  {scope : Scope} {locals : List Local} {i : Instruction} {op : Opcode}

/-- The variables in scope have the cells that are in the slots of the compiler's locals. -/
theorem sees (hf : L.Fits code h f U link K) (hscope : scope.Held K locals) :
    U.Sees link.2 locals f.cells (L.bindings scope) := by
  refine ⟨_, _, rfl, ?_, hf.supplied⟩
  induction hscope with
  | nil => exact .nil
  | @cons v l scope locals hv _ ih =>
    obtain ⟨cell, hcell, hslot⟩ := hf.cells _ hv.2
    rw [List.filterMap_cons, hcell]
    exact .cons ⟨hv.1, hslot⟩ ih

theorem bound (hf : L.Fits code h f U link K) (hscope : scope.Held K locals) :
    ∀ v ∈ scope, ∃ cell, L.cells v = some cell := by
  intro v hv
  obtain ⟨l, -, -, hl⟩ := exists_of_forall₂ hscope.flip hv
  obtain ⟨cell, hcell, -⟩ := hf.cells _ hl
  exact ⟨cell, hcell⟩

theorem reaches (hf : L.Fits code h f U link K) {route : Route} {name : String}
    (ha : U.Accesses K scope route name i op) (hop : i.opcode? = some op) :
    L.Reaches f link.2 scope route name i := by
  unfold Home.Accesses at ha
  unfold Reaches
  cases hfind : scope.find name with
  | some v =>
    rw [hfind] at ha
    obtain ⟨rfl, hmem⟩ := ha
    exact ⟨hop, hf.cells _ hmem⟩
  | none =>
    rw [hfind] at ha
    obtain ⟨rfl, hcaptured⟩ | ⟨rfl, hnowhere⟩ := ha
    · obtain ⟨cell, haround, hcell⟩ := hf.supplied.captured hcaptured
      dsimp only
      rw [haround]
      exact ⟨hop, hcell⟩
    · dsimp only
      rw [hf.supplied.global hnowhere]
      exact hop

/-- What a function made here captures are cells of variables in scope. -/
theorem captures (hf : L.Fits code h f U link K)
    (haround : ∀ cell ∈ link.2, ∃ b ∈ L.routine.around, b.2 = cell) (hscope : scope.Held K locals)
    {d : Capture} (hd : U.Supplies locals d) :
    ∃ b ∈ L.bindings scope, Frame.Captures f link.2 b.2 d := by
  cases d with
  | cell n =>
    obtain ⟨l, hl, rfl⟩ := hd
    obtain ⟨v, hv, -, hmem⟩ := exists_of_forall₂ hscope hl
    obtain ⟨cell, hcell, hslot⟩ := hf.cells _ hmem
    refine ⟨(v.name, cell), List.mem_append_left _ (List.mem_filterMap.mpr ⟨v, hv, ?_⟩), hslot⟩
    rw [hcell]
    rfl
  | upvalue n =>
    have hn : n < link.2.size := hf.supplied.size ▸ hd
    obtain ⟨b, hb, hcell⟩ := haround _ (Array.getElem_mem hn)
    refine ⟨b, List.mem_append_right _ hb, ?_⟩
    rw [Frame.Captures, hcell]
    exact Array.getElem?_eq_getElem hn

/-- A function made here is supplied with the variables in scope. -/
theorem owns (hf : L.Fits code h f U link K)
    (haround : ∀ cell ∈ link.2, ∃ b ∈ L.routine.around, b.2 = cell) (hscope : scope.Held K locals)
    {params : List String} {variadic : Bool} {body : Block} {pos : Position} {pc k : Nat} {q : Prototype}
    {cells : List Nat} (hbody : (FunctionBody.mk params variadic body pos).At U locals f.ip pc)
    (hi : U.proto.code[f.ip]? = some i) (hk : U.proto.protos[i.x]? = some k)
    (hq : code.protos[k]? = some q)
    (hcells : List.Forall₂ (fun d cell ↦ Frame.Captures f link.2 cell d) q.captures.toList cells) :
    Routine.Owns ⟨params, variadic, body, L.bindings scope⟩ code (k, cells.toArray) := by
  obtain ⟨k', q', hk', hq', hsupplies, hruns⟩ := Home.nested_of_at hbody hi (hf.short.proto hf.proto)
  obtain rfl : k' = k := Option.some.inj (hk'.symm.trans hk)
  obtain rfl := hf.heap
  obtain rfl : q' = q := Option.some.inj (hq'.symm.trans hq)
  refine ⟨⟨q', _, hq', hf.short.nested hf.proto hk', hruns, (hf.sees hscope).inner rfl hcells⟩, ?_⟩
  intro cell hcell
  obtain ⟨d, hd, hcaptured⟩ := exists_of_forall₂ hcells (List.mem_toArray.mp hcell)
  obtain ⟨b, hb, hvariable⟩ := hf.captures haround hscope (hsupplies d (Array.mem_toList_iff.mp hd))
  refine ⟨b, hb, ?_⟩
  cases d with
  | cell n =>
    cases hvariable.symm.trans hcaptured
    rfl
  | upvalue n => exact Option.some.inj (hvariable.symm.trans hcaptured)

theorem does (hf : L.Fits code h f U link K)
    (haround : ∀ cell ∈ link.2, ∃ b ∈ L.routine.around, b.2 = cell)
    (hprotos : ∀ {k : Nat} {q : Prototype}, code.protos[k]? = some q → h.protos[k]? = some q)
    {o : Occurrence} (hmeans : U.Means K f.ip i op o) (hi : U.proto.code[f.ip]? = some i)
    (hop : i.opcode? = some op) : L.Does h U.proto f link.2 i o := by
  obtain ⟨scope, m⟩ := o
  cases m with
  | bind v =>
    obtain rfl : op = .newCell := hmeans
    exact hop
  | read name | write name => exact hf.reaches hmeans hop
  | make body =>
    obtain ⟨rfl, locals, hbody, hscope⟩ := hmeans
    obtain ⟨params, variadic, block, pos⟩ := body
    obtain ⟨k, q, hk, hq, hsupplies, -⟩ := Home.nested_of_at hbody hi (hf.short.proto hf.proto)
    rw [hf.heap] at hq
    exact ⟨hop, hf.bound hscope, k, q, hk, hprotos hq,
      fun d hd ↦ hf.captures haround hscope (hsupplies d hd)⟩

end Life.Fits

section

variable {code : Heap} {routines : Nat → Option Routine} {bound : List Nat} {L : Life}
  {lives : List (Option Life)} {calls : List (Option Frame)} {s : State} {f : Frame}

/-- The place of a function in its code, and what comes next in its text. -/
theorem Life.Fits.next? {U : Home} {link : Nat × Array Nat} {K : Known}
    (hf : L.Fits code s.heap f U link K)
    (hprotos : ∀ {k : Nat} {q : Prototype}, code.protos[k]? = some q → s.heap.protos[k]? = some q) :
    s.proto? f.closure = some U.proto ∧ L.next? s f = U.proto.occurrence? L.occurrences f.ip := by
  obtain ⟨c, hc, hlink⟩ := Heap.closure_of_link hf.closure
  subst hlink
  have hproto : s.proto? f.closure = some U.proto :=
    Option.bind_eq_some_iff.mpr ⟨c, hc, hprotos hf.proto⟩
  exact ⟨hproto, by rw [Life.next?, hproto]; rfl⟩

/-- A function whose text is known does what the text says. -/
theorem Ledger.heeds (hl : Ledger code routines bound s.heap (some L :: lives) (some f :: calls)) :
    L.Heeds s f := by
  obtain ⟨hhead, -⟩ := List.forall₂_cons.mp hl.each
  cases hhead with
  | @known _ _ U link K text fits =>
    obtain ⟨link', hlink', howns⟩ := hl.made text
    obtain rfl : link' = link := Option.some.inj (hlink'.symm.trans fits.closure)
    obtain ⟨c, hc, hlink⟩ := Heap.closure_of_link fits.closure
    obtain ⟨-, hnext⟩ := fits.next? hl.protos
    obtain ⟨i, op, hi, hop, htouches, hcounts, -, -⟩ := Home.next_of_minds fits.minds
    subst hlink
    refine ⟨c, U.proto, i, op, hc, hl.protos fits.proto, hi, hop, fun ht ↦ ?_, fun hcount j hj ↦ ?_⟩
    · obtain ⟨o, ho, hmeans⟩ := htouches ht
      exact ⟨o, hnext.trans ho, fits.does howns.around hl.protos hmeans hi hop⟩
    · obtain ⟨v, hv, hmem⟩ := hcounts hcount j hj
      obtain ⟨cell, hcell, hslot⟩ := fits.cells _ hmem
      exact ⟨v, cell, hv, hcell, hslot⟩

end

end MiniLua
