import MiniLua.Library.Registry
import MiniLua.Proofs.Twins.Programs

/-! Builtins that load nothing do the same in linked machines. -/

namespace MiniLua

open Effects Machine

/-- Started in two linked machines, the builtin ends in both, alike. -/
def Native.Parallel (b : Native) : Prop :=
  ∀ {n : Nat} {s s' : State}, s.Linked n s' →
    Agrees n (fun _ _ o o' ↦ o = .finished ∧ o' = .finished) s s' (b.start s) (b.start s')

theorem Native.Parallel.plain {name : String} {body : Machine Unit}
    (h : ∀ {n : Nat} {s s' : State}, s.Linked n s' →
      Agrees n (fun _ _ _ _ ↦ True) s s' (body s) (body s')) :
    (Native.plain name body).Parallel :=
  fun hs ↦ (h hs).bind fun _ _ _ _ ht _ _ _ ↦ .pure ht ⟨rfl, rfl⟩

/-- Whether a builtin makes new code. -/
def Builtin.loads : Builtin → Bool
  | loadfile | dofile | loadstring | load => true
  | _ => false

namespace Library

theorem parallel_assert : assert.Parallel := by
  apply Native.Parallel.plain
  intro n s s' h
  refine (h.argBool 0).sync_bind h fun passed _ hpassed ↦ ?_
  subst hpassed
  split
  · exact .pure h trivial
  · refine (h.arg 1).sync_bind h fun message message' hmessage ↦ ?_
    dsimp only
    rw [hmessage.isNil]
    have hrest {t t' : State} (ht : t.Linked n t') {v v' : Value}
        (hv : t.heap.Matches n t'.heap v v') :
        Agrees n (fun _ _ _ _ ↦ True) t t'
          ((do throw (.assertion v ((← get).heap.toText v)) : Machine Unit) t)
          ((do throw (.assertion v' ((← get).heap.toText v')) : Machine Unit) t') := by
      rw [bind_apply, bind_apply, get_apply, get_apply]
      dsimp only
      rw [hv.toText]
      exact .throw ht (.assertion _ hv)
    split
    · exact (Agrees.bytesValue h _).bind fun _ _ _ _ ht _ _ hv ↦ hrest ht hv
    · exact hrest h hmessage

theorem handle?_parsedNumber (base : Nat) (bytes : Bytes) :
    (parsedNumber base bytes).handle? = none := by
  unfold parsedNumber
  split
  · cases Numeral.ofBytes? bytes with
    | none => rfl
    | some x => cases x <;> rfl
  · cases radixInt? base bytes <;> rfl

theorem agrees_convert {n : Nat} {s s' : State} (h : s.Linked n s') (base : Int64) :
    let convert : Machine Unit := do
      if base < 2 ∨ 36 < base then throw (← badArgument 1 "base out of range")
      let v ← arg 0
      let heap := (← get).heap
      setResults [match v with
        | .int _ | .float _ => v
        | .string s => parsedNumber base.toInt.toNat ((heap.bytes? s).getD [])
        | _ => .nil]
    Agrees n (fun _ _ _ _ ↦ True) s s' (convert s) (convert s') := by
  dsimp only
  split
  · exact (h.badArgument _ _).sync_bind h fun e e' he ↦ Sync.throw h he
  · refine (h.arg 0).sync_bind h fun v v' hv ↦ Peeks.get.sync_bind h fun t t' ht ↦ ?_
    obtain ⟨rfl, rfl⟩ := ht
    apply Agrees.setResults h
    cases hv with
    | string hi hj =>
      dsimp only
      rw [hi, hj]
      exact .cons (.scalar (handle?_parsedNumber _ _)) .nil
    | int | float | nil | bool | table | closure | native => exact .cons (.scalar rfl) .nil

theorem parallel_tonumber : tonumber.Parallel := by
  apply Native.Parallel.plain
  intro n s s' h
  refine (h.arg 1).sync_bind h fun v v' hv ↦ ?_
  rw [hv.isNil]
  split
  · exact agrees_convert h 10
  · exact (h.argInt 1).sync_bind h fun base _ hbase ↦ hbase ▸ agrees_convert h base

theorem parallel_rawget : rawget.Parallel := by
  apply Native.Parallel.plain
  intro n s s' h
  refine Peeks.get.sync_bind h fun t t' ht ↦ (h.arg 0).sync_bind h fun v v' hv ↦
    (h.arg 1).sync_bind h fun k k' hk ↦ ?_
  obtain ⟨rfl, rfl⟩ := ht
  exact Agrees.setResults h (.cons (h.heap.rawGet hv hk) .nil)

theorem parallel_tostring : tostring.Parallel := by
  apply Native.Parallel.plain
  intro n s s' h
  refine Peeks.get.sync_bind h fun t t' ht ↦ (h.arg 0).sync_bind h fun v v' hv ↦ ?_
  obtain ⟨rfl, rfl⟩ := ht
  rw [hv.toStringBytes]
  exact (Agrees.bytesValue h _).bind fun _ _ _ _ ht _ _ hw ↦ Agrees.setResults ht (.cons hw .nil)

theorem peeks_listBound {n : Nat} {s s' : State} (h : s.Linked n s') (i : Nat) (default : Int) :
    Peeks n (· = ·) s s' (listBound i default) (listBound i default) := by
  refine (h.arg i).bind fun v v' hv ↦ ?_
  rw [hv.isNil]
  split
  · exact .pure rfl
  · exact (h.argInt i).bind fun n _ hn ↦ hn ▸ .pure rfl

theorem forall₂_range {R : Value → Value → Prop} (count : Nat) {f g : Nat → Value}
    (hfg : ∀ i, R (f i) (g i)) :
    List.Forall₂ R ((List.range count).map f) ((List.range count).map g) := by
  rw [List.forall₂_map_left_iff, List.forall₂_map_right_iff]
  exact List.forall₂_same.mpr fun i _ ↦ hfg i

theorem parallel_unpack : unpack.Parallel := by
  apply Native.Parallel.plain
  intro n s s' h
  refine (h.arg 0).sync_bind h fun list list' hlist ↦ Peeks.get.sync_bind h fun t t' ht ↦ ?_
  obtain ⟨rfl, rfl⟩ := ht
  have hfault : Agrees n (fun _ _ _ _ ↦ True) t t'
      ((typeError (.notList (t.heap.toText list)) : Machine Unit) t)
      ((typeError (.notList (t'.heap.toText list')) : Machine Unit) t') := by
    rw [hlist.toText]
    exact .throw h (.plain _ rfl)
  have hitems {table table' : Table} (htable : table.Twins (t.heap.Matches n t'.heap) table') :
      Agrees n (fun _ _ _ _ ↦ True) t t'
        ((do
          let first ← listBound 1 1
          let last ← listBound 2 table.length
          if last < first then setResults []
          else if maxUnpacked ≤ last - first then typeError .tooManyUnpacked
          else
            setResults ((List.range (last - first + 1).toNat).map fun (i : Nat) ↦
              table.get (.int (Int64.ofInt (first + i)))) : Machine Unit) t)
        ((do
          let first ← listBound 1 1
          let last ← listBound 2 table'.length
          if last < first then setResults []
          else if maxUnpacked ≤ last - first then typeError .tooManyUnpacked
          else
            setResults ((List.range (last - first + 1).toNat).map fun (i : Nat) ↦
              table'.get (.int (Int64.ofInt (first + i)))) : Machine Unit) t') := by
    rw [← htable.length]
    refine (peeks_listBound h 1 1).sync_bind h fun first _ hfirst ↦
      (peeks_listBound h 2 _).sync_bind h fun last _ hlast ↦ ?_
    subst hfirst hlast
    split
    · exact Agrees.setResults h .nil
    · split
      · exact .throw h (.plain _ rfl)
      · refine Agrees.setResults h (forall₂_range _ fun j ↦ htable.get h.heap.pairing ?_)
        exact .int _
  cases hlist with
  | @table i hi hi' =>
    have htable : Table.Twins (t.heap.Matches n t'.heap) (t.heap.tables.getD i .empty)
        (t'.heap.tables.getD i .empty) := by
      rw [Array.getD_eq_getD_getElem?, Array.getD_eq_getD_getElem?]
      exact rel_getD (h.heap.table i) (Table.twins_empty _)
    exact hitems htable
  | nil | bool | int | float | string | closure | native => exact hfault

theorem parallel_next : next.Parallel := by
  apply Native.Parallel.plain
  intro n s s' h
  exact .throw h (.plain _ rfl)

theorem parallel_print : print.Parallel := by
  apply Native.Parallel.plain
  intro n s s' h
  refine Peeks.get.sync_bind h fun t t' ht ↦ h.args.sync_bind h fun vs vs' hvs ↦
    Peeks.get.sync_bind h fun u u' hu ↦ ?_
  obtain ⟨rfl, rfl⟩ := hu
  obtain ⟨rfl, rfl⟩ := ht
  have htexts : vs.map t.heap.toStringBytes = vs'.map t'.heap.toStringBytes := by
    rw [← List.forall₂_eq_eq_eq, List.forall₂_map_left_iff, List.forall₂_map_right_iff]
    exact hvs.imp fun _ _ hv ↦ hv.toStringBytes
  rw [htexts, h.host]
  cases t.host.print _ with
  | error reason => exact .throw h (.plain _ rfl)
  | ok host =>
    have hprinted : State.Linked n { t with host } { t' with host } :=
      ⟨h.heap, rfl, h.frames, h.native⟩
    refine Sync.bind (Q := fun _ _ _ _ ↦ True) (.ok hprinted ?_ ?_ trivial) fun _ _ _ _ ht _ _ _ ↦
      Agrees.setResults ht .nil
    · exact { State.Retains.refl t with heap := .refl _ }
    · exact { State.Retains.refl t' with heap := .refl _ }

theorem parallel_collectgarbage : collectgarbage.Parallel := by
  apply Native.Parallel.plain
  intro n s s' h
  exact Agrees.setResults h .nil

theorem peeks_environmentTarget? {n : Nat} {s s' : State} (h : s.Linked n s') :
    Peeks n (Option.Rel fun c c' ↦ s.heap.Matches n s'.heap (.closure c) (.closure c')) s s'
      environmentTarget? environmentTarget? := by
  refine (h.arg 0).bind fun v v' hv ↦ ?_
  have hlevel : Peeks n (Option.Rel fun c c' ↦ s.heap.Matches n s'.heap (.closure c) (.closure c'))
      s s'
      (do
        let depth := (← argInt 0).toInt
        if depth = 0 then throw (.unsupported .threadEnvironment)
        if depth < 0 then throw (← badArgument 0 "level must be non-negative")
        return (← callFrame? depth.toNat).map Frame.closure)
      (do
        let depth := (← argInt 0).toInt
        if depth = 0 then throw (.unsupported .threadEnvironment)
        if depth < 0 then throw (← badArgument 0 "level must be non-negative")
        return (← callFrame? depth.toNat).map Frame.closure) := by
    refine (h.argInt 0).bind fun depth _ hdepth ↦ ?_
    subst hdepth
    dsimp only
    split
    · exact .error rfl rfl (.plain _ rfl)
    · split
      · exact (h.badArgument _ _).bind fun e e' he ↦ .error rfl rfl he
      · exact (h.callFrame? _).bind fun f f' hf ↦ .pure (rel_map hf fun _ _ hf ↦ hf)
  cases hv with
  | closure hc hc' => exact .pure (.some (.closure hc hc'))
  | int | float | string => exact hlevel
  | nil | bool | table | native => exact (h.badArgument _ _).bind fun e e' he ↦ .throw he

/-- The environment of a closure is changed in both machines. -/
theorem linked_setEnvironment {n : Nat} {s s' : State} (h : s.Linked n s') (c : Nat)
    {env env' : Nat} (henv : s.heap.Matches n s'.heap (.table env) (.table env')) :
    Agrees n (fun _ _ _ _ ↦ True) s s'
      (changeHeap (fun h ↦ { h with closures := h.closures.modify c fun c ↦ { c with env } }) s)
      (changeHeap (fun h ↦ { h with closures := h.closures.modify c fun c ↦ { c with env := env' } })
        s') := by
  have hkeeps (h : Heap) (env : Nat) :
      h.Retains { h with closures := h.closures.modify c fun c ↦ { c with env } } := by
    refine ⟨id, rfl, rfl, rfl, ?_⟩
    refine Array.ext_getElem? fun i ↦ ?_
    simp only [Array.getElem?_map, Array.getElem?_modify]
    split
    · cases h.closures[i]? <;> rfl
    · rfl
  have hmono {v w : Value} (hvw : s.heap.Matches n s'.heap v w) :=
    hvw.mono (hkeeps s.heap env).grows (hkeeps s'.heap env').grows
  have hretains (s : State) (env : Nat) : s.Retains { s with
      heap := { s.heap with closures := s.heap.closures.modify c fun c ↦ { c with env } } } :=
    { State.Retains.refl s with heap := hkeeps s.heap env }
  refine .ok ⟨⟨h.heap.exact, h.heap.exact', ?_, ?_⟩, h.host, ?_, ?_⟩ (hretains s env)
    (hretains s' env') trivial
  · exact h.heap.tables.imp fun _ _ ht ↦ ht.mono fun _ _ hv ↦ hmono hv
  · dsimp only
    rw [Array.toList_modify, Array.toList_modify]
    exact forall₂_modify (h.heap.closures.imp fun _ _ hc ↦ hmono hc) c fun _ _ _ ↦ hmono henv
  · exact h.frames.imp fun _ _ hf ↦ hmono hf
  · obtain ⟨call, call', hcall, hcall', hname, hcount, hexpected, hbase, hbase', hwindow⟩ := h.native
    exact ⟨call, call', hcall, hcall', hname, hcount, hexpected, hbase, hbase',
      hwindow.imp fun _ _ hv ↦ hmono hv⟩

theorem parallel_setfenv : setfenv.Parallel := by
  apply Native.Parallel.plain
  intro n s s' h
  refine (peeks_environmentTarget? h).sync_bind h fun target target' htarget ↦
    (h.arg 1).sync_bind h fun env env' henv ↦ ?_
  cases htarget with
  | none => exact Agrees.setResults h .nil
  | @some c c' hc =>
    have hchange {t t' : Nat} (ht : s.heap.Matches n s'.heap (.table t) (.table t')) :
        Agrees n (fun _ _ _ _ ↦ True) s s'
          ((do
            changeHeap fun h ↦
              { h with closures := h.closures.modify c fun c ↦ { c with env := t } }
            setResults [.closure c] : Machine Unit) s)
          ((do
            changeHeap fun h ↦
              { h with closures := h.closures.modify c' fun c ↦ { c with env := t' } }
            setResults [.closure c'] : Machine Unit) s') := by
      cases hc with
      | closure hc hc' =>
        refine (linked_setEnvironment h c ht).bind fun _ _ u u' hu hk hk' _ ↦
          Agrees.setResults hu (.cons (.closure ?_ ?_) .nil)
        · rw [hk.heap.closures_size]
          exact hc
        · rw [hk'.heap.closures_size]
          exact hc'
    cases henv with
    | table ht ht' => exact hchange (.table ht ht')
    | nil | bool | int | float | string | closure | native => exact Agrees.setResults h .nil

theorem selectedPosition?_of_matches {n : Nat} {h h' : Heap} {v w : Value}
    (hvw : h.Matches n h' v w) : selectedPosition? v = selectedPosition? w := by
  cases hvw <;> rfl

theorem parallel_select : select.Parallel := by
  apply Native.Parallel.plain
  intro n s s' h
  refine h.argCount.sync_bind h fun count _ hcount ↦ (h.arg 0).sync_bind h fun v v' hv ↦
    Peeks.get.sync_bind h fun t t' ht ↦ ?_
  obtain ⟨rfl, rfl⟩ := ht
  subst hcount
  rw [hv.stringOf?, selectedPosition?_of_matches hv]
  split
  · exact Agrees.setResults h (.cons (.int _) .nil)
  · cases selectedPosition? v' with
    | none => exact Agrees.setResults h .nil
    | some position =>
      refine h.expectedResults.sync_bind h fun expected _ hexpected ↦ ?_
      subst hexpected
      exact (Peeks.mapM _ fun _ ↦ h.arg _).sync_bind h fun vs vs' hvs ↦ Agrees.setResults h hvs

theorem parallel_foldArgs {pick : Heap → Value → Value → Except RuntimeError Value}
    (hpick : ∀ {n : Nat} {h h' : Heap} {a a' b b' : Value}, h.Matches n h' a a' →
      h.Matches n h' b b' →
      ExceptRel (RuntimeError.Matches (h.Matches n h')) (h.Matches n h') (pick h a b)
        (pick h' a' b')) {n : Nat} {s s' : State} (h : s.Linked n s') :
    Agrees n (fun _ _ _ _ ↦ True) s s' (foldArgs pick s) (foldArgs pick s') := by
  refine h.args.sync_bind h fun vs vs' hvs ↦ ?_
  cases hvs with
  | nil => exact (h.badArgument _ _).sync_bind h fun e e' he ↦ Sync.throw h he
  | @cons a a' rest rest' ha hrest =>
    refine Peeks.get.sync_bind h fun t t' ht ↦ ?_
    obtain ⟨rfl, rfl⟩ := ht
    have hfold : ExceptRel (RuntimeError.Matches (t.heap.Matches n t'.heap))
        (t.heap.Matches n t'.heap) (rest.foldlM (pick t.heap) a) (rest'.foldlM (pick t'.heap) a') := by
      induction hrest generalizing a a' with
      | nil => exact .ok ha
      | cons hb _ ih =>
        rw [List.foldlM_cons, List.foldlM_cons]
        have hab := hpick ha hb
        generalize pick t.heap a _ = r, pick t'.heap a' _ = r' at hab
        cases hab with
        | ok hc => exact ih hc
        | error he => exact .error he
    exact (State.Linked.lift hfold).sync_bind h fun v v' hv ↦
      Agrees.setResults h (.cons hv .nil)

theorem larger_related {n : Nat} {h h' : Heap} {a a' b b' : Value} (ha : h.Matches n h' a a')
    (hb : h.Matches n h' b b') :
    ExceptRel (RuntimeError.Matches (h.Matches n h')) (h.Matches n h') (larger h a b)
      (larger h' a' b') := by
  unfold larger
  rw [Operators.lessThan_of_matches hb ha]
  cases hless : Operators.lessThan h' b' a' with
  | error e => exact .error (.plain e (Operators.value?_ordered hless))
  | ok less =>
    cases less with
    | true => exact .ok ha
    | false => exact .ok hb

theorem smaller_related {n : Nat} {h h' : Heap} {a a' b b' : Value} (ha : h.Matches n h' a a')
    (hb : h.Matches n h' b b') :
    ExceptRel (RuntimeError.Matches (h.Matches n h')) (h.Matches n h') (smaller h a b)
      (smaller h' a' b') := by
  unfold smaller
  rw [Operators.lessThan_of_matches hb ha]
  cases hless : Operators.lessThan h' b' a' with
  | error e => exact .error (.plain e (Operators.value?_ordered hless))
  | ok less =>
    cases less with
    | true => exact .ok hb
    | false => exact .ok ha

theorem parallel_maximum : maximum.Parallel :=
  Native.Parallel.plain (parallel_foldArgs larger_related)

theorem parallel_minimum : minimum.Parallel :=
  Native.Parallel.plain (parallel_foldArgs smaller_related)

theorem peeks_numberArg {n : Nat} {s s' : State} (h : s.Linked n s') (i : Nat) :
    Peeks n (s.heap.Matches n s'.heap) s s' (numberArg i) (numberArg i) := by
  refine (h.arg i).bind fun v v' hv ↦ ?_
  have hfloat : Peeks n (s.heap.Matches n s'.heap) s s' (do return .ofFloat (← argFloat i))
      (do return .ofFloat (← argFloat i)) :=
    (h.argFloat i).bind fun x _ hx ↦ hx ▸ .pure (.scalar rfl)
  cases hv with
  | int | float => exact .pure (.scalar rfl)
  | nil | bool | string | table | closure | native => exact hfloat

theorem parallel_abs : abs.Parallel := by
  apply Native.Parallel.plain
  intro n s s' h
  refine (peeks_numberArg h 0).sync_bind h fun v v' hv ↦ Peeks.get.sync_bind h fun t t' ht ↦ ?_
  obtain ⟨rfl, rfl⟩ := ht
  have habs : ExceptRel (RuntimeError.Matches (t.heap.Matches n t'.heap))
      (t.heap.Matches n t'.heap)
      (do larger t.heap v (← Operators.arith t.heap .sub (.int 0) v))
      (do larger t'.heap v' (← Operators.arith t'.heap .sub (.int 0) v')) := by
    have hsub := arith_related (n := n) .sub (.int 0) hv
    generalize Operators.arith t.heap .sub (.int 0) v = r,
      Operators.arith t'.heap .sub (.int 0) v' = r' at hsub
    cases hsub with
    | ok hw => exact larger_related hv hw
    | error he => exact .error he
  exact (State.Linked.lift habs).sync_bind h fun w w' hw ↦ Agrees.setResults h (.cons hw .nil)

theorem parallel_modf : modf.Parallel := by
  apply Native.Parallel.plain
  intro n s s' h
  refine (h.argFloat 0).sync_bind h fun x _ hx ↦ ?_
  subst hx
  exact Agrees.setResults h (.cons (.scalar rfl) (.cons (.scalar rfl) .nil))

theorem parallel_sin : sin.Parallel := by
  apply Native.Parallel.plain
  intro n s s' h
  refine (h.argFloat 0).sync_bind h fun x _ hx ↦ ?_
  subst hx
  exact Agrees.setResults h (.cons (.scalar rfl) .nil)

theorem agrees_subText {n : Nat} {s s' : State} (h : s.Linked n s') (text : Bytes) (i j : Int64) :
    let subText : Machine Unit := do
      let (first, last) := normalizeRange text.length i.toInt j.toInt
      setResults [← bytesValue ((text.take last).drop first)]
    Agrees n (fun _ _ _ _ ↦ True) s s' (subText s) (subText s') :=
  (Agrees.bytesValue h _).bind fun _ _ _ _ ht _ _ hw ↦ Agrees.setResults ht (.cons hw .nil)

theorem parallel_sub : sub.Parallel := by
  apply Native.Parallel.plain
  intro n s s' h
  refine (h.argBytes 0).sync_bind h fun text _ htext ↦
    (h.argInt 1).sync_bind h fun i _ hi ↦ (h.arg 2).sync_bind h fun v v' hv ↦ ?_
  subst htext hi
  rw [hv.isNil]
  split
  · exact agrees_subText h text i (-1)
  · exact (h.argInt 2).sync_bind h fun j _ hj ↦ hj ▸ agrees_subText h text i j

theorem parallel_rep : rep.Parallel := by
  apply Native.Parallel.plain
  intro n s s' h
  refine (h.argBytes 0).sync_bind h fun text _ htext ↦
    (h.argInt 1).sync_bind h fun count _ hcount ↦ ?_
  subst htext hcount
  dsimp only
  split
  · exact Agrees.setResults h (.cons .nil .nil)
  · cases repeated? text count.toInt.toNat with
    | none => exact .throw h (.plain _ rfl)
    | some bytes =>
      exact (Agrees.bytesValue h _).bind fun _ _ _ _ ht _ _ hw ↦ Agrees.setResults ht (.cons hw .nil)

end Library

/-- Builtins that load nothing do the same in linked machines. -/
theorem Builtin.parallel {b : Builtin} (hb : b.loads = false) : b.native.Parallel := by
  cases b with
  | assert => exact Library.parallel_assert
  | tonumber => exact Library.parallel_tonumber
  | rawget => exact Library.parallel_rawget
  | setfenv => exact Library.parallel_setfenv
  | select => exact Library.parallel_select
  | collectgarbage => exact Library.parallel_collectgarbage
  | tostring => exact Library.parallel_tostring
  | unpack => exact Library.parallel_unpack
  | next => exact Library.parallel_next
  | print => exact Library.parallel_print
  | abs => exact Library.parallel_abs
  | max => exact Library.parallel_maximum
  | min => exact Library.parallel_minimum
  | modf => exact Library.parallel_modf
  | sin => exact Library.parallel_sin
  | rep => exact Library.parallel_rep
  | sub => exact Library.parallel_sub
  | loadfile | dofile | loadstring | load => cases hb

end MiniLua
