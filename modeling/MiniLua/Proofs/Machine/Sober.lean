import MiniLua.Library.Registry
import MiniLua.Proofs.Effects

/-! Builtins and operators never fail for a reason that lies in the bytecode or in the heap. -/

namespace MiniLua

open Effects

/-- An unknown opcode, a missing operand or handle. -/
def RuntimeError.Internal : RuntimeError → Prop
  | opcode _ | operand | noFunction => True
  | _ => False

/-- A program that has no internal errors. -/
class Sober {α : Type} (m : Machine α) : Prop where
  sober : ∀ s e t, m s = .error e t → ¬ e.Internal

namespace Sober

variable {α β : Type} {m : Machine α}

instance : Sober (get : Machine State) := ⟨fun _ _ _ h ↦ nomatch h⟩

instance (a : α) : Sober (pure a : Machine α) := ⟨fun _ _ _ h ↦ nomatch h⟩

instance (f : State → State) : Sober (modify f : Machine PUnit) := ⟨fun _ _ _ h ↦ nomatch h⟩

instance (f : State → α × State) : Sober (modifyGet f : Machine α) := ⟨fun _ _ _ h ↦ nomatch h⟩

theorem throw {e : RuntimeError} (h : ¬ e.Internal) : Sober (throw e : Machine α) where
  sober _ _ _ he := by
    cases he
    exact h

instance bind {f : α → Machine β} [hm : Sober m] [hf : ∀ a, Sober (f a)] : Sober (m >>= f) where
  sober s e t h := by
    rw [bind_apply] at h
    cases hr : m s with
    | error e' u =>
      rw [hr] at h
      cases h
      exact hm.sober _ _ _ hr
    | ok a u =>
      rw [hr] at h
      exact (hf a).sober _ _ _ h

theorem after {f : α → Machine β} [Sober m] (h : ∀ a, Sober (f a)) : Sober (m >>= f) := inferInstance

instance map {f : α → β} [hm : Sober m] : Sober (f <$> m) where
  sober s e t h := by
    rw [map_apply] at h
    cases hr : m s with
    | error e' u =>
      rw [hr] at h
      cases h
      exact hm.sober _ _ _ hr
    | ok a u =>
      rw [hr] at h
      cases h

instance ite {c : Prop} [Decidable c] {n : Machine α} [Sober m] [Sober n] :
    Sober (if c then m else n) := by
  split <;> assumption

instance mapM {γ : Type} {f : γ → Machine α} [∀ c, Sober (f c)] (cs : List γ) :
    Sober (cs.mapM f) := by
  induction cs with
  | nil => exact inferInstanceAs (Sober (Pure.pure _))
  | cons c cs ih =>
    rw [List.mapM_cons]
    infer_instance

theorem lift {r : Except RuntimeError α} (h : ∀ e, r = .error e → ¬ e.Internal) :
    Sober (Machine.lift r) := by
  cases r with
  | ok a => exact inferInstanceAs (Sober (Pure.pure a))
  | error e => exact throw (h e rfl)

end Sober

namespace Operators

variable {h : Heap} {a b : Value} {e : RuntimeError}

theorem sober_arith {op : Opcode} (he : arith h op a b = .error e)
    (hop : op = .add ∨ op = .sub ∨ op = .mul ∨ op = .div ∨ op = .pow ∨ op = .mod) :
    ¬ e.Internal := by
  unfold arith at he
  split at he
  · obtain rfl | rfl | rfl | rfl | rfl | rfl := hop <;> try cases he
    simp only [onNumbers, modulo] at he
    split at he
    · split at he <;> cases he
      exact id
    · cases he
  all_goals
    cases he
    exact id

theorem sober_negate (he : negate h a = .error e) : ¬ e.Internal := by
  unfold negate at he
  split at he
  · split at he <;> cases he
  · cases he
  · cases he
    exact id

theorem sober_concat (he : concat h a b = .error e) : ¬ e.Internal := by
  unfold concat at he
  split at he <;> cases he <;> exact id

theorem sober_length (he : length h a = .error e) : ¬ e.Internal := by
  unfold length at he
  split at he <;> cases he
  exact id

theorem sober_ordered {onInts : Int64 → Int64 → Bool} {onFloats : Float → Float → Bool}
    {onBytes : Ordering → Bool} (he : ordered h onInts onFloats onBytes a b = .error e) :
    ¬ e.Internal := by
  unfold ordered at he
  split at he <;> cases he
  exact id

end Operators

namespace Machine

variable {α : Type}

instance (fault : TypeFault) : Sober (typeError fault : Machine α) := Sober.throw id

instance (f : Heap → α × Heap) : Sober (onHeap f) := inferInstanceAs (Sober (modifyGet _))

instance (f : Heap → Heap) : Sober (changeHeap f) := inferInstanceAs (Sober (modify _))

instance (bytes : Bytes) : Sober (bytesValue bytes) := by
  unfold bytesValue
  infer_instance

instance (text : String) : Sober (textValue text) := inferInstanceAs (Sober (bytesValue _))

instance : Sober argCount := by
  unfold argCount
  infer_instance

instance (i : Nat) : Sober (arg i) := by
  refine Sober.after fun s ↦ ?_
  split <;> infer_instance

instance : Sober args := by
  unfold args
  infer_instance

instance : Sober expectedResults := by
  unfold expectedResults
  infer_instance

instance (values : List Value) : Sober (setResults values) := inferInstanceAs (Sober (modify _))

instance (depth : Nat) : Sober (callFrame? depth) := by
  unfold callFrame?
  infer_instance

/-- Complaints about arguments. -/
instance (i : Nat) (detail : String) (f : RuntimeError → Machine α)
    [∀ name, Sober (f (.type (.argument (i + 1) name detail)))] :
    Sober (badArgument i detail >>= f) where
  sober s e t h := by
    exact Sober.sober (m := f (.type (.argument (i + 1)
      ((s.native?.map NativeCall.name).getD "?") detail))) s e t h

instance (fault : TypeFault) : Sober (throw (.type fault) : Machine α) := Sober.throw id

instance (i : Nat) (wanted : String) : Sober (wrongType i wanted : Machine α) := by
  unfold wrongType
  infer_instance

instance (i : Nat) : Sober (argNumber? i) := by
  unfold argNumber?
  infer_instance

instance (i : Nat) : Sober (argInt i) := by
  refine Sober.after fun v ↦ ?_
  split <;> infer_instance

instance (i : Nat) : Sober (argFloat i) := by
  refine Sober.after fun v ↦ ?_
  split <;> infer_instance

instance (i : Nat) : Sober (argBytes i) := by
  refine Sober.after fun v ↦ ?_
  split
  · infer_instance
  · split <;> infer_instance

instance (i : Nat) : Sober (argBool i) := by
  unfold argBool
  infer_instance

end Machine

namespace Library

open Machine Loading

instance {body : Machine Unit} [Sober body] {name : String} : Sober (Native.plain name body).start :=
  inferInstanceAs (Sober (do body; return Outcome.finished))

instance {α : Type} (loader : Loader α) : Sober (attempt loader) where
  sober s e t h := by
    unfold attempt at h
    split at h <;> cases h

instance (i : Nat) : Sober (textArg? i) := by
  refine Sober.after fun v ↦ ?_
  infer_instance

instance (result : Except LoadError Value) : Sober (report result) := by
  cases result
  · exact inferInstanceAs (Sober (_ >>= _))
  · exact inferInstanceAs (Sober (setResults _))

instance (reader : Value) (chunkName : String) (text : Bytes) :
    Sober (askReader reader chunkName text) := by
  unfold askReader
  infer_instance

instance (i : Nat) (default : Int) : Sober (listBound i default) := by
  unfold listBound
  infer_instance

instance (v : Value) (f : RuntimeError → Machine α) [∀ text, Sober (f (.raised v text))] :
    Sober (raise v >>= f) where
  sober s e t h := Sober.sober (m := f (.raised v (s.heap.toText v))) s e t h

instance (v : Value) (text : String) : Sober (throw (.raised v text) : Machine α) := Sober.throw id

instance (v : Value) (text : String) : Sober (throw (.assertion v text) : Machine α) := Sober.throw id

instance (feature : Unsupported) : Sober (throw (.unsupported feature) : Machine α) := Sober.throw id

instance (reason : String) : Sober (throw (.io reason) : Machine α) := Sober.throw id

instance : Sober environmentTarget? := by
  refine Sober.after fun v ↦ ?_
  split <;> infer_instance

theorem sober_foldArgs {pick : Heap → Value → Value → Except RuntimeError Value}
    (hpick : ∀ h a b e, pick h a b = .error e → ¬ e.Internal) : Sober (foldArgs pick) := by
  have hfold (h : Heap) (vs : List Value) (v : Value) (e : RuntimeError)
      (he : vs.foldlM (pick h) v = .error e) : ¬ e.Internal := by
    induction vs generalizing v with
    | nil => cases he
    | cons w vs ih =>
      rw [List.foldlM_cons] at he
      cases hw : pick h v w with
      | error e' =>
        rw [hw] at he
        cases he
        exact hpick _ _ _ _ hw
      | ok u =>
        rw [hw] at he
        exact ih u he
  refine Sober.after fun vs ↦ ?_
  cases vs with
  | nil => exact inferInstanceAs (Sober (_ >>= _))
  | cons first rest =>
    refine Sober.after fun s ↦ ?_
    have hpicked := Sober.lift fun e ↦ hfold s.heap rest first e
    dsimp only
    infer_instance

theorem sober_larger (h : Heap) (a b : Value) (e : RuntimeError) (he : larger h a b = .error e) :
    ¬ e.Internal := by
  unfold larger at he
  cases hless : Operators.lessThan h b a with
  | error e' =>
    rw [hless] at he
    cases he
    exact Operators.sober_ordered hless
  | ok _ =>
    rw [hless] at he
    cases he

theorem sober_smaller (h : Heap) (a b : Value) (e : RuntimeError) (he : smaller h a b = .error e) :
    ¬ e.Internal := by
  unfold smaller at he
  cases hless : Operators.lessThan h b a with
  | error e' =>
    rw [hless] at he
    cases he
    exact Operators.sober_ordered hless
  | ok _ =>
    rw [hless] at he
    cases he

instance (i : Nat) : Sober (numberArg i) := by
  refine Sober.after fun v ↦ ?_
  split <;> infer_instance

theorem sober_abs : Sober abs.start := by
  have habs (h : Heap) (v : Value) (e : RuntimeError)
      (he : (do larger h v (← Operators.arith h .sub (.int 0) v)) = .error e) : ¬ e.Internal := by
    cases hneg : Operators.arith h .sub (.int 0) v with
    | error e' =>
      rw [hneg] at he
      cases he
      exact Operators.sober_arith hneg (by simp)
    | ok w =>
      rw [hneg] at he
      exact sober_larger _ _ _ _ he
  have hbody (v : Value) (s : State) :
      Sober (do setResults [← lift (do larger s.heap v (← Operators.arith s.heap .sub (.int 0) v))]) := by
    have hlarger := Sober.lift fun e ↦ habs s.heap v e
    infer_instance
  exact inferInstanceAs (Sober (Native.plain _ (do
    let v ← numberArg 0
    let heap := (← get).heap
    setResults [← lift (do larger heap v (← Operators.arith heap .sub (.int 0) v))])).start)

theorem sober_unpackList : Sober (do
    let list ← arg 0
    let heap := (← get).heap
    match list with
    | .table t =>
      let table := heap.tables.getD t .empty
      let first ← listBound 1 1
      let last ← listBound 2 table.length
      if last < first then setResults []
      else if maxUnpacked ≤ last - first then typeError .tooManyUnpacked
      else
        setResults ((List.range (last - first + 1).toNat).map fun (i : Nat) ↦
          table.get (.int (Int64.ofInt (first + i))))
    | v => typeError (.notList (heap.toText v))) := by
  refine Sober.after fun list ↦ Sober.after fun s ↦ ?_
  dsimp only
  split <;> infer_instance

theorem sober_unpack : Sober unpack.start := by
  have hlist := sober_unpackList
  exact inferInstanceAs (Sober (Native.plain _ _).start)

theorem sober_printLine (s : State) (line : Bytes) : Sober (match s.host.print line with
    | .ok host => do
      modify fun s ↦ { s with host }
      setResults []
    | .error reason => throw (.io reason)) := by
  split <;> infer_instance

theorem sober_print : Sober print.start := by
  have hline := sober_printLine
  exact inferInstanceAs (Sober (Native.plain _ _).start)

theorem sober_setTarget : Sober (do
    match ← environmentTarget?, ← arg 1 with
    | some c, .table env =>
      changeHeap fun h ↦ { h with closures := h.closures.modify c fun c ↦ { c with env } }
      setResults [.closure c]
    | _, _ => setResults []) := by
  refine Sober.after fun target ↦ Sober.after fun env ↦ ?_
  split <;> infer_instance

theorem sober_setfenv : Sober setfenv.start := by
  have htarget := sober_setTarget
  exact inferInstanceAs (Sober (Native.plain _ _).start)

theorem sober_selectFrom (count : Nat) (selector : Value) :
    Sober (match selectedPosition? selector with
      | none => setResults []
      | some position => do
        let length := windowLength count position ((← expectedResults).getD 0)
        setResults (← (List.range length).mapM fun i ↦ arg (position + i))) := by
  split <;> infer_instance

theorem sober_select : Sober select.start := by
  have hfrom := sober_selectFrom
  simp only [select]
  infer_instance

theorem sober_repeated (s : Bytes) (n : Int) : Sober (match repeated? s n.toNat with
    | some bytes => do setResults [← bytesValue bytes]
    | none => typeError .stringTooLarge) := by
  split <;> infer_instance

theorem sober_rep : Sober rep.start := by
  have hrepeated := sober_repeated
  simp only [rep]
  infer_instance

theorem sober_runLoaded (r : Except LoadError Value) : Sober (match r with
    | .ok closure => pure (Outcome.invoke closure [] .nothing)
    | .error (.notFound name) => do throw (← raise (← textValue ("file not found: " ++ name)))
    | .error e => do throw (← raise (← textValue e.message)) : Machine Outcome) := by
  split <;> infer_instance

theorem sober_dofile : Sober dofile.start := by
  have hloaded := sober_runLoaded
  simp only [dofile]
  infer_instance

theorem sober_load : Sober load.start := by
  simp only [load]
  infer_instance

end Library

/-- What a builtin fails with is no internal error. -/
theorem Builtin.sober_start (b : Builtin) : Sober b.native.start := by
  cases b
  case unpack => exact Library.sober_unpack
  case print => exact Library.sober_print
  case abs => exact Library.sober_abs
  case max =>
    have hbody := Library.sober_foldArgs Library.sober_larger
    exact inferInstanceAs (Sober (Native.plain _ _).start)
  case min =>
    have hbody := Library.sober_foldArgs Library.sober_smaller
    exact inferInstanceAs (Sober (Native.plain _ _).start)
  case setfenv => exact Library.sober_setfenv
  case select => exact Library.sober_select
  case dofile => exact Library.sober_dofile
  case load => exact Library.sober_load
  case rep => exact Library.sober_rep
  all_goals
    simp only [native, Library.assert, Library.loadfile, Library.tonumber, Library.rawget,
      Library.collectgarbage, Library.loadstring, Library.tostring, Library.next, Library.modf,
      Library.sin, Library.sub]
    infer_instance

/-- Nor is what it fails with when it goes on, unless it was told of one. -/
theorem Builtin.sober_resume (b : Builtin) (memo : Memo) {result : Except RuntimeError (List Value)}
    (h : ∀ e, result = .error e → ¬ e.Internal) : Sober (b.native.resume memo result) := by
  have hplain : Sober (pure .finished : Machine Outcome) := inferInstance
  cases b
  case dofile =>
    have hresult := Sober.lift h
    simp only [native, Library.dofile]
    infer_instance
  case load =>
    simp only [native, Library.load]
    split
    · split
      · infer_instance
      · refine Sober.after fun s ↦ ?_
        split <;> infer_instance
    · infer_instance
  all_goals exact hplain

end MiniLua
