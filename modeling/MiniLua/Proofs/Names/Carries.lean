import MiniLua.Proofs.Code.Compiled
import MiniLua.Proofs.Names.Resolved

/-! Along the code of a text its variables are found in their slots. -/

namespace MiniLua

/-- The variables are these locals of the compiler. -/
def Scope.Lies (slots : List Nat) (scope : Scope) (locals : List Local) : Prop :=
  List.Forall₂ (fun v l ↦ v.name = l.name ∧ slots[v.serial]? = some l.cell) scope locals

namespace Scope.Lies

variable {slots final : List Nat} {scope : Scope} {locals : List Local}

theorem later (h : scope.Lies slots locals) (hfinal : slots <+: final) :
    scope.Lies final locals := by
  obtain ⟨more, rfl⟩ := hfinal
  refine h.imp fun v l hv ↦ ⟨hv.1, ?_⟩
  rw [List.getElem?_append_left (List.getElem?_eq_some_iff.mp hv.2).1]
  exact hv.2

theorem slots_eq (h : scope.Lies slots locals) :
    scope.map (fun v ↦ slots[v.serial]?) = (locals.map Local.cell).map some := by
  induction h with
  | nil => rfl
  | cons hv _ ih => rw [List.map_cons, ih, hv.2, List.map_cons, List.map_cons]

theorem find_some (h : scope.Lies slots locals) {name : String} {cell : Nat}
    (hname : resolve? locals name = some cell) :
    ∃ v ∈ scope, scope.find name = some v ∧ slots[v.serial]? = some cell := by
  induction h with
  | nil => cases hname
  | @cons v l scope locals hv hrest ih =>
    simp only [resolve?, Scope.find, List.find?_cons, hv.1] at ih hname ⊢
    cases hl : l.name == name with
    | true =>
      rw [hl] at hname
      obtain rfl : l.cell = cell := Option.some.inj hname
      exact ⟨v, List.mem_cons_self, rfl, hv.2⟩
    | false =>
      rw [hl] at hname
      obtain ⟨w, hw, hfound, hslot⟩ := ih hname
      exact ⟨w, List.mem_cons_of_mem _ hw, hfound, hslot⟩

theorem find_none (h : scope.Lies slots locals) {name : String}
    (hname : resolve? locals name = none) : scope.find name = none := by
  induction h with
  | nil => rfl
  | @cons v l scope locals hv hrest ih =>
    simp only [resolve?, Scope.find, List.find?_cons, hv.1] at ih hname ⊢
    cases hl : l.name == name with
    | true =>
      rw [hl] at hname
      cases hname
    | false =>
      rw [hl] at hname
      exact ih hname

theorem injective (h : scope.Lies slots locals) (hdistinct : (locals.map Local.cell).Nodup)
    {v w : Variable} (hv : v ∈ scope) (hw : w ∈ scope)
    (hslots : slots[v.serial]? = slots[w.serial]?) : v = w := by
  have hnodup : (scope.map fun v ↦ slots[v.serial]?).Nodup := by
    rw [h.slots_eq]
    exact hdistinct.map (Option.some_injective _)
  exact List.inj_on_of_nodup_map hnodup hv hw hslots

end Scope.Lies

/-- A function around as the compiler sees it. -/
structure Around.Is (level : Level) (around : Around) : Prop where
  captures : around.captures = level.captures
  lies : around.scope.Lies around.slots level.locals
  distinct : (level.locals.map Local.cell).Nodup

section

variable {levels : List Level} {outer : List Around} {captures : Array Capture} {name : String}

theorem findAround_of_captured (h : List.Forall₂ Around.Is levels outer) {i : Nat}
    (hi : Captured captures levels name i) :
    ∃ up v, findAround name outer = some (up, v) ∧ IsUpvalue captures outer i up v := by
  induction h generalizing captures i with
  | nil => exact hi.elim
  | @cons level around levels outer hlevel _ ih =>
    unfold Captured at hi
    split at hi
    · next cell hcell =>
      obtain ⟨v, hv, hfind, hslot⟩ := hlevel.lies.find_some hcell
      exact ⟨0, v, by rw [findAround, hfind], around, cell, rfl, hv, hslot, by rw [follow, hi]⟩
    · next hnone =>
      obtain ⟨j, hj, hcaptured⟩ := hi
      obtain ⟨up, v, hfind, site, slot, hup, hv, hslot, hfollow⟩ := ih hcaptured
      refine ⟨up + 1, v, ?_, site, slot, hup, hv, hslot, ?_⟩
      · rw [findAround, hlevel.lies.find_none hnone, hfind]
        rfl
      · rw [follow, hj]
        dsimp only
        rw [hlevel.captures, hfollow]
        rfl

theorem findAround_eq_none (h : List.Forall₂ Around.Is levels outer)
    (hnone : ∀ level ∈ levels, resolve? level.locals name = none) :
    findAround name outer = none := by
  induction h with
  | nil => rfl
  | cons hlevel _ ih =>
    obtain ⟨hfirst, hrest⟩ := List.forall_mem_cons.mp hnone
    rw [findAround, hlevel.lies.find_none hfirst, ih hrest]
    rfl

theorem exists_level (h : List.Forall₂ Around.Is levels outer) {around : Around}
    (haround : around ∈ outer) : ∃ level, Around.Is level around := by
  induction h with
  | nil => cases haround
  | cons hlevel _ ih =>
    obtain rfl | hmem := List.mem_cons.mp haround
    · exact ⟨_, hlevel⟩
    · exact ih hmem

/-- An upvalue leads to one slot, where one variable in scope is. -/
theorem isUpvalue_unique (h : List.Forall₂ Around.Is levels outer) {i up up' : Nat}
    {v w : Variable} (hv : IsUpvalue captures outer i up v)
    (hw : IsUpvalue captures outer i up' w) : up = up' ∧ v = w := by
  obtain ⟨site, slot, hup, hmem, hslot, hfollow⟩ := hv
  obtain ⟨site', slot', hup', hmem', hslot', hfollow'⟩ := hw
  obtain ⟨rfl, rfl⟩ := Prod.mk.inj (Option.some.inj (hfollow.symm.trans hfollow'))
  obtain rfl := Option.some.inj (hup.symm.trans hup')
  obtain ⟨level, hlevel⟩ := exists_level h (List.mem_of_getElem? hup)
  exact ⟨rfl, hlevel.lies.injective hlevel.distinct hmem hmem' (hslot.trans hslot'.symm)⟩

end

theorem DoesAll.append {S : Site} {seen more : List Occurrence} {code code' : List Instruction} :
    DoesAll S seen code → DoesAll S more code' → DoesAll S (seen ++ more) (code ++ code')
  | .nil, h => h
  | .access does rest, h => .access does (rest.append h)
  | .make closure operand nested there resolved rest, h =>
    .make closure operand nested there resolved (rest.append h)

namespace Prototype

variable (p : Prototype)

/-- The instructions before `pc` that reach variables or make functions. -/
def touching (pc : Nat) : List Instruction := (p.code.toList.take pc).filter Instruction.touches

variable {p} {pc : Nat} {i : Instruction}

theorem touching_succ (hi : p.code[pc]? = some i) :
    p.touching (pc + 1) = p.touching pc ++ [i].filter Instruction.touches := by
  unfold touching
  rw [List.take_add_one, List.filter_append, Array.getElem?_toList, hi]
  rfl

theorem touching_size : p.touching p.code.size = p.code.toList.filter Instruction.touches := by
  rw [touching, ← Array.length_toList, List.take_length]

end Prototype

/-- The code before `pc` has done what was met in the text, whatever slots the variables get that
are declared from there on. -/
structure Walk.Follows (S : Site) (w : Walk) (locals : List Local) (pc : Nat) : Prop where
  declared : S.slots.length = w.declared
  lies : w.scope.Lies S.slots locals
  distinct : (locals.map Local.cell).Nodup
  room : ∀ l ∈ locals, l.cell < S.proto.cellCount
  apart : ∀ slots, S.slots <+: slots → ∀ o ∈ w.seen, Site.Apart { S with slots } o.scope
  does : ∀ slots, S.slots <+: slots → DoesAll { S with slots } w.seen (S.proto.touching pc)

theorem Walk.Follows.apart_scope {S : Site} {w : Walk} {locals : List Local} {pc : Nat}
    (h : w.Follows S locals pc) {slots : List Nat} (hslots : S.slots <+: slots) :
    Site.Apart { S with slots } w.scope := by
  have hlies := h.lies.later hslots
  have hmap := hlies.slots_eq
  constructor
  · intro v hv
    have hslot : slots[v.serial]? ∈ (locals.map Local.cell).map some := by
      rw [← hmap]
      exact List.mem_map_of_mem hv
    obtain ⟨cell, hcell, hslot⟩ := List.mem_map.mp hslot
    obtain ⟨l, hl, rfl⟩ := List.mem_map.mp hcell
    exact ⟨l.cell, h.room l hl, hslot.symm⟩
  · rw [hmap]
    exact h.distinct.map (Option.some_injective _)

theorem Walk.declareAll_eq (w : Walk) (names : List String) :
    w.declareAll names = { w with
      scope := ((names.zipIdx w.declared).map fun (name, i) ↦ ⟨name, i⟩).reverse ++ w.scope
      declared := w.declared + names.length } := by
  induction names generalizing w with
  | nil => rfl
  | cons name names ih =>
    have hrest := ih (w.declare name)
    simp only [Walk.declareAll, List.foldl_cons] at hrest ⊢
    rw [hrest]
    simp [Walk.declare, List.zipIdx_cons, Nat.add_right_comm, Nat.add_assoc]

theorem cells_paramLocals (params : List String) :
    (paramLocals params).map Local.cell = (List.range params.length).reverse := by
  have hcells : (params.zipIdx.map fun (p, i) ↦ (⟨p, 0, i⟩ : Local)).map Local.cell =
      params.zipIdx.map Prod.snd := List.map_map
  rw [paramLocals, Builder.start, List.map_reverse, hcells, List.zipIdx_map_snd,
    List.range_eq_range']

/-- A function begins with its parameters in the first slots. -/
theorem Walk.follows_start {S : Site} (params : List String)
    (hslots : S.slots = List.range params.length) (hroom : params.length ≤ S.proto.cellCount) :
    (Walk.start params).Follows S (paramLocals params) 0 := by
  have hcells := cells_paramLocals params
  have hstart := Walk.declareAll_eq ⟨[], [], 0⟩ params
  refine ⟨?_, ?_, ?_, fun l hl ↦ ?_, fun slots _ o ho ↦ ?_, fun slots _ ↦ ?_⟩
  · rw [hslots, List.length_range, Walk.start, hstart, Nat.zero_add]
  · rw [hslots, Walk.start, hstart, List.append_nil, paramLocals, Builder.start]
    refine List.forall₂_reverse_iff.mpr (List.forall₂_map_left_iff.mpr
      (List.forall₂_map_right_iff.mpr (List.forall₂_same.mpr fun q hp ↦ ⟨rfl, ?_⟩)))
    have hlt := (List.mem_zipIdx hp).2.1
    exact List.getElem?_range (by simpa using hlt)
  · rw [hcells]
    exact List.nodup_reverse.mpr List.nodup_range
  · have hl : l.cell ∈ (List.range params.length).reverse := hcells ▸ List.mem_map_of_mem hl
    exact (List.mem_range.mp (List.mem_reverse.mp hl)).trans_le hroom
  · rw [Walk.start, hstart] at ho
    cases ho
  · rw [Walk.start, hstart]
    exact .nil

namespace Home

variable {U : Home} {outer : List Around} {w u w' : Walk} {locals between locals' : List Local}
  {pc p pc' : Nat}

variable (U outer) in
/-- Over the code from one place to another the text is read on. -/
def Carries (w : Walk) (locals : List Local) (pc : Nat) (w' : Walk) (locals' : List Local)
    (pc' : Nat) : Prop :=
  ∀ slots, w.Follows ⟨U.heap, outer, U.proto, slots⟩ locals pc →
    ∃ more, w'.Follows ⟨U.heap, outer, U.proto, slots ++ more⟩ locals' pc'

namespace Carries

theorem refl : U.Carries outer w locals pc w locals pc :=
  fun slots h ↦ ⟨[], by rwa [List.append_nil]⟩

theorem trans (h : U.Carries outer w locals pc u between p)
    (h' : U.Carries outer u between p w' locals' pc') :
    U.Carries outer w locals pc w' locals' pc' := by
  intro slots hw
  obtain ⟨more, hu⟩ := h slots hw
  obtain ⟨rest, hw'⟩ := h' _ hu
  exact ⟨more ++ rest, by rwa [← List.append_assoc]⟩

/-- Variables are forgotten at the end of their scope. -/
theorem leave (h : U.Carries outer w locals pc w' locals' pc') :
    U.Carries outer w locals pc (w'.leave w) locals pc' := by
  intro slots hw
  obtain ⟨more, hw'⟩ := h slots hw
  exact ⟨more, hw'.declared, hw.lies.later (List.prefix_append _ _), hw.distinct, hw.room,
    hw'.apart, hw'.does⟩

end Carries

variable {op : Opcode} {operands : Instruction → Prop} {m : Mention}

theorem carries_skip (h : U.Has op operands pc pc') (hop : op.touches = false) :
    U.Carries outer w locals pc w locals pc' := by
  obtain ⟨rfl, i, hi, hopcode, -⟩ := h
  refine fun slots hw ↦ ⟨[], ?_⟩
  rw [List.append_nil]
  refine ⟨hw.declared, hw.lies, hw.distinct, hw.room, hw.apart, fun final hfinal ↦ ?_⟩
  have hskip : [i].filter Instruction.touches = [] := by
    simp [Instruction.touches, hopcode, hop]
  rw [Prototype.touching_succ hi, hskip, List.append_nil]
  exact hw.does final hfinal

theorem carries_note (h : U.Has op operands pc pc') (hop : op.touches = true)
    (hdoes : ∀ slots i, w.scope.Lies slots locals → (locals.map Local.cell).Nodup →
      i.opcode? = some op → operands i →
      DoesAll ⟨U.heap, outer, U.proto, slots⟩ [⟨w.scope, m⟩] [i]) :
    U.Carries outer w locals pc (w.note m) locals pc' := by
  obtain ⟨rfl, i, hi, hopcode, hoperands⟩ := h
  refine fun slots hw ↦ ⟨[], ?_⟩
  rw [List.append_nil]
  refine ⟨hw.declared, hw.lies, hw.distinct, hw.room, fun final hfinal o ho ↦ ?_,
    fun final hfinal ↦ ?_⟩
  · obtain ho | ho := List.mem_append.mp ho
    · exact hw.apart final hfinal o ho
    · obtain rfl := List.mem_singleton.mp ho
      exact hw.apart_scope hfinal
  · have hnote : [i].filter Instruction.touches = [i] := by
      simp [Instruction.touches, hopcode, hop]
    rw [Prototype.touching_succ hi, hnote]
    exact (hw.does final hfinal).append
      (hdoes final i (hw.lies.later hfinal) hw.distinct hopcode hoperands)

theorem carries_declare {l : Local} (h : U.Fresh locals l) :
    U.Carries outer w locals pc (w.declare l.name) (l :: locals) pc := by
  intro slots hw
  have hlater {final : List Nat} (hfinal : slots ++ [l.cell] <+: final) : slots <+: final :=
    (List.prefix_append _ _).trans hfinal
  have hlies := hw.lies.later (List.prefix_append slots [l.cell])
  have hlast : (slots ++ [l.cell])[w.declared]? = some l.cell := by
    rw [← hw.declared]
    exact List.getElem?_concat_length
  refine ⟨[l.cell], ?_, .cons ⟨rfl, hlast⟩ hlies, ?_, ?_,
    fun final hfinal ↦ hw.apart final (hlater hfinal),
    fun final hfinal ↦ hw.does final (hlater hfinal)⟩
  · have hdeclared := hw.declared
    simp only [Walk.declare, List.length_append, List.length_singleton]
    dsimp only at hdeclared
    omega
  · rw [List.map_cons, List.nodup_cons]
    refine ⟨fun hmem ↦ ?_, hw.distinct⟩
    obtain ⟨l', hl', hcell⟩ := List.mem_map.mp hmem
    exact h.cell_ne l' hl' hcell
  · exact List.forall_mem_cons.mpr ⟨h.cell_lt, hw.room⟩

variable {l : Local} {names : List String} {cells : List Nat} {n : Nat} {name : String}

/-- Locals declared one after the other lie before those there were. -/
theorem Declares.exists_append (h : U.Declares names cells locals locals') :
    ∃ new, locals' = new ++ locals ∧ new.map Local.cell = cells.reverse ∧
      new.length = names.length := by
  induction names generalizing cells locals with
  | nil =>
    obtain ⟨rfl, rfl⟩ := h
    exact ⟨[], rfl, rfl, rfl⟩
  | cons name names ih =>
    obtain ⟨l, rest, -, -, rfl, hmore⟩ := h
    obtain ⟨new, rfl, hcells, hlength⟩ := ih hmore
    refine ⟨new ++ [l], by rw [List.append_assoc]; rfl, ?_, ?_⟩
    · rw [List.map_append, hcells, List.reverse_cons]
      rfl
    · rw [List.length_append, hlength]
      rfl

theorem carries_declareAll (h : U.Declares names cells locals locals') :
    U.Carries outer w locals pc (w.declareAll names) locals' pc := by
  induction names generalizing w cells locals with
  | nil =>
    obtain ⟨-, rfl⟩ := h
    exact .refl
  | cons name names ih =>
    obtain ⟨l, rest, rfl, hfresh, rfl, hmore⟩ := h
    exact (carries_declare hfresh).trans (ih hmore)

/-- Variables get their first values in the slots of these locals. -/
theorem carries_bindAll {vs : List Variable} {ls : List Local}
    (h : U.NewCellsAt (ls.map Local.cell) pc pc')
    (hlies : ∀ slots, w.scope.Lies slots locals → Scope.Lies slots vs ls) :
    U.Carries outer w locals pc (w.bindAll vs) locals pc' := by
  induction ls generalizing w vs pc with
  | nil =>
    obtain rfl : pc' = pc := h
    intro slots hw
    obtain rfl := List.forall₂_nil_right_iff.mp (hlies slots hw.lies)
    exact Carries.refl slots hw
  | cons l ls ih =>
    obtain ⟨p, hcell, hmore⟩ := h
    cases vs with
    | nil => exact fun slots hw ↦ nomatch hlies slots hw.lies
    | cons v vs =>
      have hbind : U.Carries outer w locals pc (w.note (.bind v)) locals p := by
        refine carries_note hcell rfl fun slots i hscope _ hop hx ↦ ?_
        obtain ⟨⟨-, hslot⟩, -⟩ := List.forall₂_cons.mp (hlies slots hscope)
        exact .access ⟨hop, hx ▸ hslot⟩ .nil
      exact hbind.trans (ih hmore fun slots hscope ↦ (List.forall₂_cons.mp (hlies slots hscope)).2)

theorem carries_bindLast (h : U.NewCellsAt ((locals.take n).map Local.cell) pc pc') :
    U.Carries outer w locals pc (w.bindLast n) locals pc' :=
  carries_bindAll h fun _ hlies ↦ List.forall₂_take n hlies

variable {route : Route}

section

variable {slots : List Nat} {scope : Scope} {i : Instruction}

theorem reaches_cell (hlies : scope.Lies slots locals) (hn : U.Names locals name (.cell n))
    (hop : i.opcode? = some route.cell) (hx : i.x = n) :
    Site.Reaches ⟨U.heap, outer, U.proto, slots⟩ scope route name i := by
  obtain ⟨v, -, hfind, hslot⟩ := hlies.find_some hn
  unfold Site.Reaches
  rw [hfind, hx]
  exact ⟨hop, hslot⟩

theorem reaches_upvalue (hout : List.Forall₂ Around.Is U.outer outer)
    (hlies : scope.Lies slots locals) (hn : U.Names locals name (.upvalue n))
    (hop : i.opcode? = some route.upvalue) (hx : i.x = n) :
    Site.Reaches ⟨U.heap, outer, U.proto, slots⟩ scope route name i := by
  obtain ⟨hnone, hcaptured⟩ := hn
  obtain ⟨up, v, hfind, hupvalue⟩ := findAround_of_captured hout hcaptured
  unfold Site.Reaches
  rw [hlies.find_none hnone, hx]
  dsimp only
  rw [hfind]
  exact ⟨hop, hupvalue⟩

theorem reaches_global (hout : List.Forall₂ Around.Is U.outer outer)
    (hlies : scope.Lies slots locals) (hn : U.Names locals name .global)
    (hop : i.opcode? = some route.global) (hk : U.Text (Bytes.ofText name) i.x) :
    Site.Reaches ⟨U.heap, outer, U.proto, slots⟩ scope route name i := by
  obtain ⟨hnone, hnowhere⟩ := hn
  unfold Site.Reaches
  rw [hlies.find_none hnone]
  dsimp only
  rw [findAround_eq_none hout hnowhere]
  exact ⟨hop, hk⟩

end

/-- An access to a variable, in the text and in the code. -/
theorem carries_nameAt (route : Route) (hout : List.Forall₂ Around.Is U.outer outer)
    (h : U.NameAt locals name route.cell route.upvalue route.global pc pc')
    (hroute : route.cell.touches = true ∧ route.upvalue.touches = true ∧
      route.global.touches = true)
    (hm : ∀ S : Site, ∀ i, S.Reaches w.scope route name i → S.Does w.scope m i) :
    U.Carries outer w locals pc (w.note m) locals pc' := by
  obtain ⟨b, hb, h⟩ := h
  cases b with
  | cell n =>
    exact carries_note h hroute.1 fun slots i hlies _ hop hx ↦
      .access (hm _ i (reaches_cell hlies hb hop hx)) .nil
  | upvalue n =>
    exact carries_note h hroute.2.1 fun slots i hlies _ hop hx ↦
      .access (hm _ i (reaches_upvalue hout hlies hb hop hx)) .nil
  | global =>
    obtain ⟨k, hk, h⟩ := h
    refine carries_note h hroute.2.2 fun slots i hlies _ hop hx ↦ ?_
    subst hx
    exact .access (hm _ i (reaches_global hout hlies hb hop hk)) .nil

theorem carries_read (hout : List.Forall₂ Around.Is U.outer outer)
    (h : U.LoadNameAt locals name pc pc') :
    U.Carries outer w locals pc (w.note (.read name)) locals pc' :=
  carries_nameAt .load hout h ⟨rfl, rfl, rfl⟩ fun _ _ hreach ↦ hreach

theorem carries_write (hout : List.Forall₂ Around.Is U.outer outer)
    (h : U.StoreNameAt locals name pc pc') :
    U.Carries outer w locals pc (w.note (.write name)) locals pc' :=
  carries_nameAt .store hout h ⟨rfl, rfl, rfl⟩ fun _ _ hreach ↦ hreach

theorem carries_loadAt {v : Value} (h : U.LoadAt v pc pc') :
    U.Carries outer w locals pc w locals pc' := by
  obtain ⟨k, -, hload⟩ := h
  exact carries_skip hload rfl

theorem carries_loadTextAt {s : Bytes} (h : U.LoadTextAt s pc pc') :
    U.Carries outer w locals pc w locals pc' := by
  obtain ⟨k, -, hload⟩ := h
  exact carries_skip hload rfl

theorem carries_repeatedAt {bound n : Nat} (hop : op.touches = false)
    (h : U.RepeatedAt op bound n pc pc') : U.Carries outer w locals pc w locals pc' := by
  induction bound generalizing n pc with
  | zero =>
    obtain rfl : pc' = pc := h
    exact .refl
  | succ bound ih =>
    rw [RepeatedAt] at h
    split at h
    · subst h
      exact .refl
    · obtain ⟨p, hfirst, hmore⟩ := h
      exact (carries_skip hfirst hop).trans (ih hmore)

theorem carries_adjustAt {pushed n : Nat} {want : Want} (h : U.AdjustAt pushed want pc pc' n) :
    U.Carries outer w locals pc w locals pc' := by
  cases want with
  | all =>
    obtain ⟨-, rfl⟩ := h
    exact .refl
  | exactly m =>
    obtain ⟨-, h⟩ := h
    split at h
    · exact carries_repeatedAt rfl h
    · exact carries_repeatedAt rfl h

theorem carries_pathAt {keys : List String} (h : U.PathAt keys pc pc') :
    U.Carries outer w locals pc w locals pc' := by
  induction keys generalizing pc with
  | nil =>
    obtain rfl : pc' = pc := h
    exact .refl
  | cons key keys ih =>
    obtain ⟨p, q, hkey, hindex, hmore⟩ := h
    exact ((carries_loadTextAt hkey).trans (carries_skip hindex rfl)).trans (ih hmore)

theorem carries_defineAt (hout : List.Forall₂ Around.Is U.outer outer) {name : FunctionName}
    (h : U.DefineAt locals name pc pc') :
    U.Carries outer w locals pc (w.note name.mention) locals pc' := by
  unfold DefineAt at h
  unfold FunctionName.mention
  cases hkeys : name.fields ++ name.method.toList with
  | nil =>
    rw [hkeys] at h
    exact carries_write hout h
  | cons key keys =>
    rw [hkeys, List.getLast?_cons] at h
    obtain ⟨p, q, r, hfirst, hpath, hlast, hset⟩ := h
    exact (((carries_read hout hfirst).trans (carries_pathAt hpath)).trans
      (carries_loadTextAt hlast)).trans (carries_skip hset rfl)

/-- A prototype whose code carries its text from the parameters to the end has the variables of
that text. -/
theorem resolved_of_carries (hout : List.Forall₂ Around.Is U.outer outer) {params : List String}
    {body : Block} {e : Nat} (harity : U.proto.arity = params.length)
    (hroom : params.length ≤ U.proto.cellCount)
    (hbody : U.Carries outer (.start params) (paramLocals params) 0 (body.walk (.start params))
      (paramLocals params) e)
    (hreturn : U.ReturnAt 0 false e U.proto.code.size) :
    Resolved U.heap outer U.proto params body := by
  have hstart := Walk.follows_start (S := ⟨U.heap, outer, U.proto, List.range params.length⟩)
    params rfl hroom
  obtain ⟨more, hend⟩ := hbody.trans (carries_skip hreturn rfl) _ hstart
  have hdoes := hend.does _ (List.prefix_refl _)
  rw [Prototype.touching_size] at hdoes
  exact .intro _ harity (List.prefix_append _ _) (hstart.apart_scope (List.prefix_append _ _))
    (hend.apart _ (List.prefix_refl _)) (fun _ _ _ _ _ ↦ isUpvalue_unique hout) hdoes

end Home

end MiniLua
