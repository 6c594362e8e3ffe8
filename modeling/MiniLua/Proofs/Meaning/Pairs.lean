import MiniLua.Proofs.Meaning.Evaluator
import MiniLua.Proofs.Stack.Closures

/-!
Machines whose data correspond, whatever code they run. Operations on data do the same in both.
-/

namespace MiniLua

open Effects Machine

namespace Heap

variable {n : Nat} {h h' k k' : Heap}

/-- The data of two heaps correspond, cells and all. -/
structure Pairs (n : Nat) (h h' : Heap) : Prop extends h.Twins n h' where
  cells : List.Forall₂ (h.Matches n h') h.cells.toList h'.cells.toList

namespace Pairs

variable (hh : h.Pairs n h')

include hh

theorem cell (i : Nat) : h.Matches n h' (h.cell i) (h'.cell i) := by
  have hentry := forall₂_getElem? hh.cells i
  simp only [Array.getElem?_toList] at hentry
  rw [Heap.cell, Heap.cell, Array.getD_eq_getD_getElem?, Array.getD_eq_getD_getElem?]
  exact rel_getD hentry .nil

theorem cells_size : h'.cells.size = h.cells.size := by simpa using hh.cells.length_eq.symm

omit hh in
/-- Heaps correspond if their contents do by an earlier correspondence. -/
theorem of_grows (g : h.Grows k) (g' : h'.Grows k') (exact : k.strings.Exact)
    (exact' : k'.strings.Exact)
    (tables : List.Forall₂ (Table.Twins (h.Matches n h')) k.tables.toList k'.tables.toList)
    (closures : List.Forall₂ (fun c c' ↦ h.Matches n h' (.table c.env) (.table c'.env))
      k.closures.toList k'.closures.toList)
    (cells : List.Forall₂ (h.Matches n h') k.cells.toList k'.cells.toList) : k.Pairs n k' := by
  have hmono {v w : Value} (hvw : h.Matches n h' v w) := hvw.mono g g'
  exact ⟨⟨exact, exact', tables.imp fun _ _ ht ↦ ht.mono fun _ _ ↦ hmono,
    closures.imp fun _ _ ↦ hmono⟩, cells.imp fun _ _ ↦ hmono⟩

theorem intern (bytes : Bytes) : (h.intern bytes).2.Pairs n (h'.intern bytes).2 :=
  of_grows (.intern h bytes) (.intern h' bytes) (hh.exact.intern bytes) (hh.exact'.intern bytes)
    hh.tables hh.closures hh.cells

/-- Code has its string constants from the start. -/
theorem intern_left (bytes : Bytes) : (h.intern bytes).2.Pairs n h' :=
  of_grows (.intern h bytes) (.refl h') (hh.exact.intern bytes) hh.exact' hh.tables hh.closures hh.cells

theorem setCell (i : Nat) {v v' : Value} (hv : h.Matches n h' v v') :
    (h.setCell i v).Pairs n (h'.setCell i v') := by
  refine of_grows (Evolves.setCell h i v).toGrows (Evolves.setCell h' i v').toGrows hh.exact
    hh.exact' hh.tables hh.closures ?_
  simp only [Heap.setCell, Array.toList_setIfInBounds]
  exact forall₂_set hh.cells i hv

theorem allocCell {v v' : Value} (hv : h.Matches n h' v v') :
    (h.allocCell v).2.Pairs n (h'.allocCell v').2 := by
  refine of_grows (Evolves.allocCell h v).toGrows (Evolves.allocCell h' v').toGrows hh.exact
    hh.exact' hh.tables hh.closures ?_
  simp only [Heap.allocCell, Array.toList_push]
  exact List.rel_append hh.cells (.cons hv .nil)

theorem allocTable {t t' : Table} (ht : t.Twins (h.Matches n h') t') :
    (h.allocTable t).2.Pairs n (h'.allocTable t').2 := by
  refine of_grows (Evolves.allocTable h t).toGrows (Evolves.allocTable h' t').toGrows hh.exact
    hh.exact' ?_ hh.closures hh.cells
  simp only [Heap.allocTable, Array.toList_push]
  exact List.rel_append hh.tables (.cons ht .nil)

theorem allocClosure {c c' : Closure} (henv : h.Matches n h' (.table c.env) (.table c'.env)) :
    (h.allocClosure c).2.Pairs n (h'.allocClosure c').2 := by
  refine of_grows (Evolves.allocClosure h c).toGrows (Evolves.allocClosure h' c').toGrows hh.exact
    hh.exact' hh.tables ?_ hh.cells
  simp only [Heap.allocClosure, Array.toList_push]
  exact List.rel_append hh.closures (.cons henv .nil)

theorem modifyTable (t : Nat) {f f' : Table → Table}
    (hf : ∀ a b : Table, a.Twins (h.Matches n h') b → (f a).Twins (h.Matches n h') (f' b)) :
    (h.modifyTable t f).Pairs n (h'.modifyTable t f') := by
  refine of_grows (Evolves.modifyTable h t f).toGrows (Evolves.modifyTable h' t f').toGrows hh.exact
    hh.exact' ?_ hh.closures hh.cells
  simp only [Heap.modifyTable, Array.toList_modify]
  exact forall₂_modify hh.tables t hf

omit hh in
/-- What a builtin leaves of both heaps. -/
theorem retained (hh : h.Pairs n h') (htwins : k.Twins n k') (g : h.Retains k) (g' : h'.Retains k') :
    k.Pairs n k' := by
  refine ⟨htwins, ?_⟩
  rw [g.cells, g'.cells]
  exact hh.cells.imp fun _ _ hv ↦ hv.mono g.grows g'.grows

theorem closure (c : Nat) : Option.Rel (fun c c' ↦ h.Matches n h' (.table c.env) (.table c'.env))
    h.closures[c]? h'.closures[c]? := by
  simpa only [Array.getElem?_toList] using forall₂_getElem? hh.closures c

end Pairs

/-- A later heap: handles stay good, and nothing that runs is lost. -/
structure Precedes (h k : Heap) : Prop extends h.Grows k where
  conserves : h.Conserves k

theorem Precedes.refl (h : Heap) : h.Precedes h := ⟨.refl h, .refl h⟩

theorem Precedes.trans {l : Heap} (g : h.Precedes k) (g' : k.Precedes l) : h.Precedes l :=
  ⟨g.toGrows.trans g'.toGrows, g.conserves.trans g'.conserves⟩

theorem Precedes.allocClosure (h : Heap) (c : Closure) : h.Precedes (h.allocClosure c).2 :=
  ⟨(Evolves.allocClosure h c).toGrows, .allocClosure h c⟩

theorem Retains.precedes (g : h.Retains k) : h.Precedes k := ⟨g.grows, g.sameLinks.conserves⟩

end Heap

/-- What the operations on data see of two machines corresponds. -/
structure State.Tallies (n : Nat) (s s' : State) : Prop where
  heap : s.heap.Pairs n s'.heap
  stringMethods : s.heap.Matches n s'.heap (.table s.stringMethods) (.table s'.stringMethods)
  host : s'.host = s.host
  frames : List.Forall₂ (fun f f' : Frame ↦
    s.heap.Matches n s'.heap (.closure f.closure) (.closure f'.closure)) s.frames s'.frames

/-- An operation has changed nothing but data. -/
structure State.Works (s t : State) : Prop where
  grows : s.heap.Grows t.heap
  links : s.heap.SameLinks t.heap
  rest : t = { s with heap := t.heap }

instance : Std.Refl State.Works := ⟨fun s ↦ ⟨.refl s.heap, .refl s.heap, rfl⟩⟩

instance : IsTrans State State.Works where
  trans _ _ _ h h' := ⟨h.grows.trans h'.grows, h.links.trans h'.links, by rw [h'.rest, h.rest]⟩

theorem State.Works.precedes {s t : State} (h : s.Works t) : s.heap.Precedes t.heap :=
  ⟨h.grows, h.links.conserves⟩

theorem State.Tallies.withHeap {n : Nat} {s s' : State} {h h' : Heap} (hs : s.Tallies n s')
    (hh : h.Pairs n h') (g : s.heap.Grows h) (g' : s'.heap.Grows h') :
    State.Tallies n { s with heap := h } { s' with heap := h' } where
  heap := hh
  stringMethods := hs.stringMethods.mono g g'
  host := hs.host
  frames := hs.frames.imp fun _ _ hf ↦ hf.mono g g'

/-- Two programs do the same on corresponding data. -/
abbrev Tallied {α α' : Type} (n : Nat) (P : Heap → Heap → α → α' → Prop) (s s' : State) :
    EStateM.Result RuntimeError State α → EStateM.Result RuntimeError State α' → Prop :=
  Sync (RuntimeError.Alike n) (State.Tallies n) State.Works (fun t t' ↦ P t.heap t'.heap) s s'

/-- What only looks at the machine leaves it as it was. -/
theorem Peeks.tallied {α α' : Type} {n : Nat} {P : α → α' → Prop} {Q : Heap → Heap → α → α' → Prop}
    {s s' : State} {m : Machine α} {m' : Machine α'} (h : Peeks n P s s' m m') (hs : s.Tallies n s')
    (hPQ : ∀ a a', P a a' → Q s.heap s'.heap a a') : Tallied n Q s s' (m s) (m' s') := by
  cases h with
  | ok hm hm' ha =>
    rw [hm, hm']
    exact .ok hs (Std.Refl.refl _) (Std.Refl.refl _) (hPQ _ _ ha)
  | error hm hm' he =>
    rw [hm, hm']
    exact .error hs (Std.Refl.refl _) (Std.Refl.refl _) he

namespace Tallied

variable {n : Nat} {s s' : State} (h : s.Tallies n s')

include h

theorem changeHeap {f f' : Heap → Heap} (hf : (f s.heap).Pairs n (f' s'.heap))
    (g : s.heap.Evolves (f s.heap)) (g' : s'.heap.Evolves (f' s'.heap))
    (hl : s.heap.SameLinks (f s.heap)) (hl' : s'.heap.SameLinks (f' s'.heap)) :
    Tallied n (fun _ _ _ _ ↦ True) s s' (changeHeap f s) (changeHeap f' s') :=
  .ok (h.withHeap hf g.toGrows g'.toGrows) ⟨g.toGrows, hl, rfl⟩ ⟨g'.toGrows, hl', rfl⟩ trivial

theorem setCell (cell : Nat) {v v' : Value} (hv : s.heap.Matches n s'.heap v v') :
    Tallied n (fun _ _ _ _ ↦ True) s s' (Machine.changeHeap (fun h ↦ h.setCell cell v) s)
      (Machine.changeHeap (fun h ↦ h.setCell cell v') s') :=
  changeHeap h (h.heap.setCell cell hv) (.setCell _ _ _) (.setCell _ _ _) ⟨rfl, rfl⟩ ⟨rfl, rfl⟩

theorem bytesValue (bytes : Bytes) :
    Tallied n (fun k k' ↦ k.Matches n k') s s' (bytesValue bytes s) (bytesValue bytes s') := by
  have hvalue : (s.heap.intern bytes).2.Matches n (s'.heap.intern bytes).2
      (.string (s.heap.intern bytes).1) (.string (s'.heap.intern bytes).1) :=
    .string (Heap.bytes?_intern h.heap.exact.sound bytes)
      (Heap.bytes?_intern h.heap.exact'.sound bytes)
  exact .ok (h.withHeap (h.heap.intern bytes) (.intern _ _) (.intern _ _))
    ⟨.intern _ _, ⟨rfl, rfl⟩, rfl⟩ ⟨.intern _ _, ⟨rfl, rfl⟩, rfl⟩ hvalue

/-- The evaluation makes a string that the code has as a constant. -/
theorem constant_bind {α α' : Type} {P : Heap → Heap → α → α' → Prop} {i : Nat} {bytes : Bytes}
    {f : Value → Machine α} {r' : EStateM.Result RuntimeError State α'}
    (hi : s'.heap.bytes? i = some bytes)
    (hf : ∀ key t, t.Tallies n s' → s.Works t → t.heap.Matches n s'.heap key (.string i) →
      Tallied n P t s' (f key t) r') :
    Tallied n P s s' ((Machine.bytesValue bytes >>= f) s) r' := by
  have hworks : s.Works { s with heap := (s.heap.intern bytes).2 } := ⟨.intern _ _, ⟨rfl, rfl⟩, rfl⟩
  have hkey : (s.heap.intern bytes).2.Matches n s'.heap (.string (s.heap.intern bytes).1) (.string i) :=
    .string (Heap.bytes?_intern h.heap.exact.sound bytes) hi
  have hrest := hf _ _ (h.withHeap (h.heap.intern_left bytes) (.intern _ _) (.refl _)) hworks hkey
  change Tallied n P s s' (f (.string (s.heap.intern bytes).1) { s with heap := (s.heap.intern bytes).2 }) r'
  generalize f _ _ = r at hrest ⊢
  cases hrest with
  | ok ht hs hs' ha => exact .ok ht (IsTrans.trans _ _ _ hworks hs) hs' ha
  | error ht hs hs' he => exact .error ht (IsTrans.trans _ _ _ hworks hs) hs' he

theorem constant {i : Nat} {bytes : Bytes} (hi : s'.heap.bytes? i = some bytes) :
    Tallied n (fun k k' ↦ k.Matches n k') s s' (Machine.bytesValue bytes s)
      ((pure (.string i) : Machine Value) s') := by
  have hpure := constant_bind h hi (f := pure) fun _ _ ht _ hkey ↦ Sync.pure ht hkey
  exact hpure

theorem newTable : Tallied n (fun k k' ↦ k.Matches n k') s s' (newTable s) (newTable s') := by
  have hpairs := h.heap.allocTable (Table.twins_empty (s.heap.Matches n s'.heap))
  have hvalue : (s.heap.allocTable .empty).2.Matches n (s'.heap.allocTable .empty).2
      (.table s.heap.tables.size) (.table s'.heap.tables.size) := by
    rw [← h.heap.tables_size]
    refine .table ?_ ?_
    · simp [Heap.allocTable]
    · simp [Heap.allocTable, h.heap.tables_size]
  have hgrows (h : Heap) : h.Grows (h.allocTable .empty).2 := (Heap.Evolves.allocTable h .empty).toGrows
  exact .ok (h.withHeap hpairs (hgrows _) (hgrows _)) ⟨hgrows _, ⟨rfl, rfl⟩, rfl⟩
    ⟨hgrows _, ⟨rfl, rfl⟩, rfl⟩ hvalue

theorem index {v v' key key' : Value} (hv : s.heap.Matches n s'.heap v v')
    (hkey : s.heap.Matches n s'.heap key key') :
    Peeks n (s.heap.Matches n s'.heap) s s' (index v key) (index v' key') := by
  refine Peeks.get.bind fun t t' ⟨ht, ht'⟩ ↦ ?_
  subst ht ht'
  cases hv with
  | table hi hi' => exact .pure (h.heap.rawGet (.table hi hi') hkey)
  | string hi hj => exact .pure (h.heap.rawGet h.stringMethods hkey)
  | nil | bool | int | float | closure | native => exact .throw (.plain _ rfl)

theorem setIndex {v v' key key' w w' : Value} (hv : s.heap.Matches n s'.heap v v')
    (hkey : s.heap.Matches n s'.heap key key') (hw : s.heap.Matches n s'.heap w w') :
    Tallied n (fun _ _ _ _ ↦ True) s s' (setIndex v key w s) (setIndex v' key' w' s') := by
  cases hv with
  | @table i hi hi' =>
    have hk := hkey.key
    unfold Machine.setIndex
    rw [hkey.isNil]
    generalize Key.ofValue? key = k, Key.ofValue? key' = k' at hk
    cases hk with
    | none => exact .throw h (.plain _ rfl)
    | some hk =>
      refine Peeks.get.sync_bind h fun t t' ⟨ht, ht'⟩ ↦ ?_
      subst ht ht'
      rw [if_pos hi, if_pos hi']
      refine changeHeap h (h.heap.modifyTable i fun a b hab ↦ ?_) (.modifyTable _ _ _)
        (.modifyTable _ _ _) ⟨rfl, rfl⟩ ⟨rfl, rfl⟩
      exact hab.set h.heap.pairing hk hw
  | nil | bool | int | float | string | closure | native => exact .throw h (.plain _ rfl)

theorem globals {c : Context} {r' : Closure} (hr' : s'.heap.closures[c.closure]? = some r') :
    ∃ env, c.globals s = .ok env s ∧ s.heap.Matches n s'.heap (.table env) (.table r'.env) := by
  have hr := h.heap.closure c.closure
  rw [hr'] at hr
  cases hr₀ : s.heap.closures[c.closure]? with
  | none =>
    rw [hr₀] at hr
    cases hr
  | some r =>
    rw [hr₀] at hr
    cases hr with
    | some henv =>
      refine ⟨r.env, ?_, henv⟩
      simp only [Context.globals, bind_apply, get_apply, hr₀]
      rfl

theorem loadGlobal {c : Context} {r' : Closure} {i : Nat} {name : String}
    (hr' : s'.heap.closures[c.closure]? = some r')
    (hi : s'.heap.bytes? i = some (Bytes.ofText name)) :
    Tallied n (fun k k' ↦ k.Matches n k') s s' (c.loadGlobal name s)
      ((pure (s'.heap.rawGet (.table r'.env) (.string i)) : Machine Value) s') := by
  refine constant_bind h hi fun key t ht _ hkey ↦ ?_
  obtain ⟨env, hread, henv⟩ := globals ht hr'
  rw [bind_of_ok hread]
  exact .pure ht (ht.heap.rawGet henv hkey)

theorem storeGlobal {c : Context} {r' : Closure} {i : Nat} {name : String} {v v' : Value}
    (hr' : s'.heap.closures[c.closure]? = some r')
    (hi : s'.heap.bytes? i = some (Bytes.ofText name)) (hv : s.heap.Matches n s'.heap v v') :
    Tallied n (fun _ _ _ _ ↦ True) s s' (c.storeGlobal name v s)
      (Machine.setIndex (.table r'.env) (.string i) v' s') := by
  refine constant_bind h hi fun key t ht hworks hkey ↦ ?_
  obtain ⟨env, hread, henv⟩ := globals ht hr'
  rw [bind_of_ok hread]
  exact setIndex ht henv hkey (hv.mono hworks.grows (.refl _))

/-- What lies under a key that the code has as a constant. -/
theorem indexText {i : Nat} {name : String} {v v' : Value} (hv : s.heap.Matches n s'.heap v v')
    (hi : s'.heap.bytes? i = some (Bytes.ofText name)) :
    Tallied n (fun k k' ↦ k.Matches n k') s s'
      ((do Machine.index v (← textValue name) : Machine Value) s)
      (Machine.index v' (.string i) s') := by
  refine constant_bind h hi fun key t ht hworks hkey ↦ ?_
  exact (index ht (hv.mono hworks.grows (.refl _)) hkey).tallied ht fun _ _ ↦ id

/-- An operator of which the result is no handle. -/
theorem lift_of_eq {r r' : Except RuntimeError Value} (heq : r = r')
    (hok : ∀ v, r = .ok v → v.handle? = none) (herror : ∀ e, r = .error e → e.value? = none) :
    Tallied n (fun k k' ↦ k.Matches n k') s s' (lift r s) (lift r' s') := by
  subst heq
  cases r with
  | ok v => exact .pure h (.scalar (hok v rfl))
  | error e => exact .throw h (.plain e (herror e rfl))

theorem arith {a a' b b' : Value} (op : Opcode) (ha : s.heap.Matches n s'.heap a a')
    (hb : s.heap.Matches n s'.heap b b') :
    Tallied n (fun k k' ↦ k.Matches n k') s s' (lift (Operators.arith s.heap op a b) s)
      (lift (Operators.arith s'.heap op a' b') s') :=
  lift_of_eq h (Operators.arith_of_matches op ha hb) (fun _ ↦ Operators.handle?_arith)
    fun _ ↦ Operators.value?_arith

/-- A comparison and a value that does not depend on the heap. -/
theorem test {r r' : Except RuntimeError Bool} (heq : r = r')
    (herror : ∀ e, r = .error e → e.value? = none) :
    Tallied n (fun k k' ↦ k.Matches n k') s s'
      ((do return .bool (← lift r) : Machine Value) s)
      ((do return .bool (← lift r') : Machine Value) s') := by
  subst heq
  cases r with
  | ok b => exact .pure h (.bool b)
  | error e => exact .throw h (.plain e (herror e rfl))

theorem apply {a a' b b' : Value} (op : BinaryOp) (ha : s.heap.Matches n s'.heap a a')
    (hb : s.heap.Matches n s'.heap b b') :
    Tallied n (fun k k' ↦ k.Matches n k') s s' (op.apply a b s) (op.apply a' b' s') := by
  refine Peeks.get.sync_bind h fun t t' ⟨ht, ht'⟩ ↦ ?_
  subst ht ht'
  cases op with
  | add | sub | mul | div | mod | pow => exact arith h _ ha hb
  | concat =>
    dsimp only
    have hconcat := Operators.concat_of_matches ha hb
    cases hc : Operators.concat t.heap a b with
    | error e =>
      rw [← hconcat, hc]
      exact .throw h (.plain e (Operators.value?_concat hc))
    | ok bytes =>
      rw [← hconcat, hc]
      exact bytesValue h bytes
  | eq => exact .pure h (Operators.equal_of_matches h.heap.toTwins ha hb ▸ .bool _)
  | neq => exact .pure h (Operators.equal_of_matches h.heap.toTwins ha hb ▸ .bool _)
  | lt => exact test h (Operators.lessThan_of_matches ha hb) fun _ ↦ Operators.value?_ordered
  | le => exact test h (Operators.lessEqual_of_matches ha hb) fun _ ↦ Operators.value?_ordered
  | gt => exact test h (Operators.lessThan_of_matches hb ha) fun _ ↦ Operators.value?_ordered
  | ge => exact test h (Operators.lessEqual_of_matches hb ha) fun _ ↦ Operators.value?_ordered
  | and =>
    dsimp only
    rw [ha.isFalsey]
    split
    · exact .pure h ha
    · exact .pure h hb
  | or =>
    dsimp only
    rw [ha.isFalsey]
    split
    · exact .pure h hb
    · exact .pure h ha

theorem negate {v v' : Value} (hv : s.heap.Matches n s'.heap v v') :
    Tallied n (fun k k' ↦ k.Matches n k') s s' (UnaryOp.neg.apply v s) (UnaryOp.neg.apply v' s') :=
  Peeks.get.sync_bind h fun t t' ⟨ht, ht'⟩ ↦ by
    subst ht ht'
    exact lift_of_eq h (Operators.negate_of_matches hv) (fun _ ↦ Operators.handle?_negate)
      fun _ ↦ Operators.value?_negate

theorem applyUnary {v v' : Value} (op : UnaryOp) (hv : s.heap.Matches n s'.heap v v') :
    Tallied n (fun k k' ↦ k.Matches n k') s s' (op.apply v s) (op.apply v' s') := by
  cases op with
  | neg => exact negate h hv
  | not => exact .pure h (hv.isFalsey ▸ .bool _)
  | len =>
    refine Peeks.get.sync_bind h fun t t' ⟨ht, ht'⟩ ↦ ?_
    subst ht ht'
    exact lift_of_eq h (Operators.length_of_matches h.heap.toTwins hv)
      (fun _ ↦ Operators.handle?_length) fun _ ↦ Operators.value?_length

theorem loopNumber {v v' : Value} (hv : s.heap.Matches n s'.heap v v') (what : String) :
    Peeks n (fun w w' ↦ w = w' ∧ w.handle? = none) s s' (loopNumber v what)
      (loopNumber v' what) := by
  refine Peeks.get.bind fun t t' ⟨ht, ht'⟩ ↦ ?_
  subst ht ht'
  have hnumber := hv.number?
  cases hw : t.heap.number? v with
  | none =>
    rw [← hnumber, hw]
    exact .throw (.plain _ rfl)
  | some w =>
    rw [← hnumber, hw]
    exact .pure ⟨rfl, Operators.handle?_number? hw⟩

theorem prepareLoop (cells : LoopCells) :
    Tallied n (fun _ _ _ _ ↦ True) s s' (prepareLoop cells s) (prepareLoop cells s') := by
  refine Peeks.get.sync_bind h fun t t' ⟨ht, ht'⟩ ↦ ?_
  subst ht ht'
  refine (loopNumber h (h.heap.cell _) _).sync_bind h fun counter _ ⟨hc, hcounter⟩ ↦
    (loopNumber h (h.heap.cell _) _).sync_bind h fun limit _ ⟨hl, hlimit⟩ ↦
      (loopNumber h (h.heap.cell _) _).sync_bind h fun step _ ⟨hs, hstep⟩ ↦ ?_
  subst hc hl hs
  have hall {a b c : Value} (ha : a.handle? = none) (hb : b.handle? = none)
      (hc : c.handle? = none) : Tallied n (fun _ _ _ _ ↦ True) t t'
        ((do
          Machine.changeHeap fun h ↦ h.setCell cells.counter a
          Machine.changeHeap fun h ↦ h.setCell cells.limit b
          Machine.changeHeap fun h ↦ h.setCell cells.step c : Machine Unit) t)
        ((do
          Machine.changeHeap fun h ↦ h.setCell cells.counter a
          Machine.changeHeap fun h ↦ h.setCell cells.limit b
          Machine.changeHeap fun h ↦ h.setCell cells.step c : Machine Unit) t') :=
    (setCell h _ (.scalar ha)).bind fun _ _ _ _ hu _ _ _ ↦
      (setCell hu _ (.scalar hb)).bind fun _ _ _ _ hu _ _ _ ↦ setCell hu _ (.scalar hc)
  dsimp only
  split
  · exact hall rfl rfl rfl
  · exact hall rfl rfl rfl

theorem advanceLoop (cells : LoopCells) :
    Tallied n (fun _ _ _ _ ↦ True) s s' (advanceLoop cells s) (advanceLoop cells s') := by
  have hsum := Operators.intOrFloat_of_matches (· + ·) (· + ·) (h.heap.cell cells.counter)
    (h.heap.cell cells.step)
  refine changeHeap h (h.heap.setCell _ ?_) (.setCell _ _ _) (.setCell _ _ _) ⟨rfl, rfl⟩ ⟨rfl, rfl⟩
  rw [← hsum]
  exact .scalar (Operators.handle?_intOrFloat _ _)

end Tallied

theorem loopGoes_of_pairs {n : Nat} {h h' : Heap} (hh : h.Pairs n h') (cells : LoopCells) :
    loopGoes h cells = loopGoes h' cells := by
  have hpositive {v v' : Value} (hv : h.Matches n h' v v') : isPositive v = isPositive v' := by
    cases hv <;> rfl
  simp only [loopGoes, hpositive (hh.cell cells.step),
    numberLe_of_matches (hh.cell cells.counter) (hh.cell cells.limit),
    numberLe_of_matches (hh.cell cells.limit) (hh.cell cells.counter)]

end MiniLua
