import MiniLua.Proofs.Checked.Numbers
import MiniLua.Proofs.Machine.Primitives

/-!
Programs of the machine over operations that have ranges. Such a program can crash; it is the same
as one that cannot if on every state both end alike.
-/

namespace MiniLua.Checked

open Effects

/-- Why a program stops before its end. -/
inductive Stop
  | error (e : RuntimeError)
  | crash

abbrev Program := EStateM Stop State

section

variable {α β : Type}

/-- A program all of whose operations have results. -/
def total (m : Machine α) : Program α := fun s ↦
  match m s with
  | .ok a t => .ok a t
  | .error e t => .error (.error e) t

/-- The result of an operation that has a range. -/
def ranged (r : Option α) : Program α :=
  match r with
  | some a => pure a
  | none => throw .crash

/-- A number of 64 bits. -/
def word (n : Nat) : Program Nat := ranged (if n < 2 ^ 64 then some n else none)

def operandError : Program α := throw (.error .operand)

variable {c : Program α} {m : Machine α} {f : α → Program β} {g : α → Machine β} {s : State}

theorem total_bind (m : Machine α) (g : α → Machine β) :
    total (m >>= g) = total m >>= fun a ↦ total (g a) := by
  funext s
  rw [total, bind_apply, bind_apply, total]
  cases m s <;> rfl

theorem ranged_bind {a : α} {r : Option α} (h : r = some a) (f : α → Program β) :
    ranged r >>= f = f a := by
  rw [h]
  rfl

theorem word_bind {n : Nat} (h : n < 2 ^ 64) (f : Nat → Program β) : word n >>= f = f n :=
  ranged_bind (if_pos h) f

/-- What comes first ends alike, and so does what follows where it ends well. -/
theorem bind_total (hc : c s = total m s) (hf : ∀ a t, m s = .ok a t → f a t = total (g a) t) :
    (c >>= f) s = total (m >>= g) s := by
  rw [total_bind, bind_apply, bind_apply, hc, total]
  cases hm : m s with
  | ok a t => exact hf a t hm
  | error e t => rfl

theorem total_bind_total (hf : ∀ a t, m s = .ok a t → f a t = total (g a) t) :
    (total m >>= f) s = total (m >>= g) s := bind_total rfl hf

theorem get_bind_total {f : State → Program β} {g : State → Machine β} (h : f s s = total (g s) s) :
    (get >>= f) s = total (get >>= g) s := h

end

section

variable {s t : State}

/-! ### The stack -/

/-- Pops the top `n` values, the oldest first. -/
def popMany (n : Nat) : Program (List Value) := do
  let size := (← get).stack.size
  if size < n then operandError
  else
    let (stack, values) ← ranged (split (← get).stack (size - n))
    modify fun s ↦ { s with stack }
    return values

/-- The operand count of a call or return. -/
def operandCount (i : Instruction) : Program Nat := do
  let multi := (← get).lastMulti
  word (i.a.toNat + (if i.b = 0 then 0 else multi))

theorem popMany_eq (n : Nat) (s : State) : popMany n s = total (Machine.popMany n) s := by
  rw [total, Machine.popMany_apply]
  unfold popMany
  simp only [bind_apply, get_apply]
  split
  · rfl
  · rw [bind_apply, get_apply]
    dsimp only
    rw [ranged_bind (split_eq (Nat.sub_le _ _))]
    rfl

theorem operandCount_eq (h : s.lastMulti < 2 ^ 63) (i : Instruction) :
    operandCount i s = total (Machine.operandCount i) s := by
  have ha := i.a.toNat_lt
  have hcount : i.a.toNat + (if i.b = 0 then 0 else s.lastMulti) < 2 ^ 64 := by split <;> omega
  rw [operandCount, bind_apply, get_apply]
  dsimp only
  rw [word, if_pos hcount]
  rfl

/-! ### The innermost guest function -/

/-- Changes the guest function with so many others below it, the outermost activation first. -/
def changeAt (f : Frame → Frame) : Nat → List Activation → Option (List Activation)
  | _, [] => none
  | index, .native call :: rest => (changeAt f index rest).map (.native call :: ·)
  | 0, .guest frame :: rest => some (.guest (f frame) :: rest)
  | index + 1, .guest frame :: rest => (changeAt f index rest).map (.guest frame :: ·)

def frameAt (index : Nat) : Program Frame := do ranged (← get).frames.reverse[index]?

def changeFrame (index : Nat) (f : Frame → Frame) : Program Unit := do
  let activations ← ranged (changeAt f index (← get).activations.reverse)
  modify fun s ↦ { s with activations := activations.reverse }

/-- Continues at `x`. -/
def goTo (index x : Nat) : Program Unit := changeFrame index fun f ↦ { f with ip := x }

/-- A guest function is innermost, with so many others below it. -/
structure Running (index : Nat) (frame : Frame) (s : State) : Prop where
  innermost : ∃ rest, s.activations = .guest frame :: rest
  count : s.frames.length = index + 1

variable {index : Nat} {frame : Frame}

theorem Running.of_activations (h : Running index frame s) (hst : t.activations = s.activations) :
    Running index frame t where
  innermost := hst ▸ h.innermost
  count := by
    have hcount := h.count
    unfold State.frames at hcount ⊢
    rwa [hst]

theorem frames_of_guest {rest : List Activation} (h : s.activations = .guest frame :: rest) :
    s.frames = frame :: { s with activations := rest }.frames := by
  rw [State.frames, h]
  rfl

theorem frameAt_eq (h : Running index frame s) : frameAt index s = .ok frame s := by
  obtain ⟨rest, hrest⟩ := h.innermost
  have hcount := h.count
  rw [frames_of_guest hrest, List.length_cons] at hcount
  have hlast : s.frames.reverse[index]? = some frame := by
    rw [frames_of_guest hrest, List.reverse_cons,
      List.getElem?_append_right (by rw [List.length_reverse]; omega), List.length_reverse,
      Nat.sub_eq_zero_of_le (by omega)]
    rfl
  rw [frameAt, bind_apply, get_apply]
  dsimp only
  rw [hlast]
  rfl

theorem frameAt_bind {β : Type} (h : Running index frame s) (f : Frame → Program β) :
    (frameAt index >>= f) s = f frame s := bind_of_ok (frameAt_eq h)

theorem changeAt_append (f : Frame → Frame) (s : State) (below : List Activation) (frame : Frame) :
    changeAt f { s with activations := below }.frames.length (below ++ [.guest frame]) =
      some (below ++ [.guest (f frame)]) := by
  induction below with
  | nil => rfl
  | cons activation below ih =>
    cases activation with
    | guest g =>
      rw [frames_of_guest rfl, List.length_cons, List.cons_append, changeAt, ih]
      rfl
    | native call =>
      rw [List.cons_append, changeAt]
      exact congrArg (Option.map (Activation.native call :: ·)) ih

theorem changeFrame_eq (h : Running index frame s) (f : Frame → Frame) :
    changeFrame index f s = total (Machine.changeFrame f) s := by
  obtain ⟨rest, hrest⟩ := h.innermost
  have hcount : { s with activations := rest.reverse }.frames.length = index := by
    have hcount := h.count
    rw [frames_of_guest hrest, List.length_cons] at hcount
    unfold State.frames at hcount ⊢
    rw [List.filterMap_reverse, List.length_reverse]
    exact Nat.add_right_cancel hcount
  have hchange := changeAt_append f s rest.reverse frame
  rw [hcount] at hchange
  rw [total, Machine.changeFrame_apply, changeFrame, bind_apply, get_apply]
  dsimp only
  rw [hrest, List.reverse_cons, ranged_bind hchange, modify_apply]
  rw [List.reverse_append, List.reverse_reverse]
  rfl

theorem goTo_eq (h : Running index frame s) (x : Nat) :
    goTo index x s = total (Machine.goTo x) s := changeFrame_eq h _

end

/-! ### Tables -/

/-- The entry of a table; nil for everything else. -/
def rawGet (h : Heap) (table key : Value) : Option Value :=
  match table with
  | .table t =>
    match h.tables[t]? with
    | some table => entryOf table key
    | none => some .nil
  | _ => some .nil

/-- The entry of a table, or of the string methods for a string. -/
def index (object key : Value) : Program Value := do
  let s ← get
  match object with
  | .table _ => ranged (rawGet s.heap object key)
  | .string _ => ranged (rawGet s.heap (.table s.stringMethods) key)
  | v => throw (.error (.type (.index v.typeName)))

/-- Changes a table that exists. -/
def changeTable (t : Nat) (f : Table → Option Table) : Program Unit := do
  match (← get).heap.tables[t]? with
  | some table =>
    let table ← ranged (f table)
    modify fun s ↦
      { s with heap := { s.heap with tables := s.heap.tables.setIfInBounds t table } }
  | none => operandError

def setIndex (object key value : Value) : Program Unit := do
  match object with
  | .table t =>
    match Key.ofValue? key with
    | some k => changeTable t (store · k value)
    | none => throw (.error (.type (if key.isNil then .nilKey else .nanKey)))
  | v => throw (.error (.type (.index v.typeName)))

/-- Stores values from an index on; `start + i` is the place of the next one. -/
def setAll (start : Nat) (values : List Value) (t : Table) : Option Table :=
  values.zipIdx.foldlM (fun t (v, i) ↦ do
    let key ← add (Int64.ofNat start) (Int64.ofNat i)
    store t (.int key) v) t

/-- Pops a multi result into the table below it. -/
def fillTable (start : Nat) : Program Unit := do
  let values ← popMany (← get).lastMulti
  match ← total Machine.top with
  | .table t => changeTable t (setAll start values)
  | _ => operandError

/-- Tables that have room for so many entries more. -/
def State.Roomy (s : State) (n : Nat) : Prop := ∀ t ∈ s.heap.tables, t.room + n < Table.capacity

section

variable {s : State}

theorem rawGet_eq (h : Heap) (table key : Value) : rawGet h table key = some (h.rawGet table key) := by
  cases table with
  | table t =>
    unfold rawGet Heap.rawGet
    dsimp only
    cases h.tables[t]? with
    | none => rfl
    | some table => exact entryOf_eq table key
  | nil | bool | int | float | string | closure | native => rfl

theorem index_eq (object key : Value) (s : State) :
    index object key s = total (Machine.index object key) s := by
  unfold index Machine.index
  refine get_bind_total ?_
  cases object with
  | table | string =>
    dsimp only
    rw [rawGet_eq]
    rfl
  | nil | bool | int | float | closure | native => rfl

theorem modify_eq_setIfInBounds {tables : Array Table} {t : Nat} {table : Table}
    (h : tables[t]? = some table) (f : Table → Table) :
    tables.modify t f = tables.setIfInBounds t (f table) := by
  obtain ⟨ht, htable⟩ := Array.getElem?_eq_some_iff.mp h
  refine Array.ext (by simp) fun i hi hi' ↦ ?_
  rw [Array.getElem_modify, Array.getElem_setIfInBounds]
  split
  · next heq =>
    subst heq
    rw [htable]
  · rfl

/-- A change that all tables bear. -/
theorem changeTable_eq {t : Nat} {f : Table → Option Table} {g : Table → Table}
    (h : ∀ table ∈ s.heap.tables, f table = some (g table)) :
    changeTable t f s = total (do
      if t < (← get).heap.tables.size then Machine.changeHeap fun h ↦ h.modifyTable t g
      else throw .operand) s := by
  rw [changeTable, bind_apply, get_apply]
  dsimp only
  cases ht : s.heap.tables[t]? with
  | none =>
    have hge := Array.getElem?_eq_none_iff.mp ht
    rw [total, bind_apply, get_apply]
    dsimp only
    rw [if_neg (Nat.not_lt_of_le hge)]
    rfl
  | some table =>
    obtain ⟨hlt, rfl⟩ := Array.getElem?_eq_some_iff.mp ht
    dsimp only
    rw [ranged_bind (h _ (Array.getElem_mem hlt)), total, bind_apply, get_apply]
    dsimp only
    rw [if_pos hlt]
    simp only [Machine.changeHeap, modify_apply, Heap.modifyTable, modify_eq_setIfInBounds ht]

theorem setIndex_eq (h : State.Roomy s 1) (object key value : Value) :
    setIndex object key value s = total (Machine.setIndex object key value) s := by
  unfold setIndex Machine.setIndex
  cases object with
  | table t =>
    dsimp only
    cases hkey : Key.ofValue? key with
    | none => rfl
    | some k => exact changeTable_eq fun table htable ↦ store_eq (h table htable) k value
  | nil | bool | int | float | string | closure | native => rfl

theorem foldlM_set_eq {start : Nat} {values : List Value} {i : Nat} {t : Table}
    (hstart : start + i + values.length < 2 ^ 63) (h : t.room + values.length < Table.capacity) :
    (values.zipIdx i).foldlM (fun t (v, i) ↦ do
      let key ← add (Int64.ofNat start) (Int64.ofNat i)
      store t (.int key) v) t =
      some ((values.zipIdx (start + i)).foldl
        (fun t (v, i) ↦ t.set (.int (Int64.ofNat i)) v) t) := by
  induction values generalizing i t with
  | nil => rfl
  | cons v values ih =>
    rw [List.length_cons] at hstart h
    have hleft : (Int64.ofNat start).toInt = start := Int64.toInt_ofNat_of_lt (by omega)
    have hright : (Int64.ofNat i).toInt = i := Int64.toInt_ofNat_of_lt (by omega)
    have hkey : add (Int64.ofNat start) (Int64.ofNat i) = some (Int64.ofNat (start + i)) := by
      rw [add, hleft, hright, int64?_of_bounds (by omega)]
      rfl
    have hroom := Table.room_set_le t (.int (Int64.ofNat (start + i))) v
    rw [List.zipIdx_cons, List.foldlM_cons, List.zipIdx_cons, List.foldl_cons]
    dsimp only
    rw [hkey, Option.bind_eq_bind, Option.bind_eq_bind, Option.bind_some, store_eq (by omega),
      Option.bind_some]
    exact ih (by omega) (by omega)

theorem fillTable_eq {start : Nat} (hstart : start < 2 ^ 62) (hstack : s.stack.size < 2 ^ 62)
    (h : State.Roomy s s.stack.size) : fillTable start s = total (Machine.fillTable start) s := by
  unfold fillTable Machine.fillTable
  refine get_bind_total (bind_total (popMany_eq _ _) fun values t ht ↦
    total_bind_total fun top u hu ↦ ?_)
  rw [Machine.popMany_apply] at ht
  split at ht
  · cases ht
  · next hsize =>
    cases ht
    rw [Machine.top_apply] at hu
    split at hu
    · cases hu
      cases top with
      | table t =>
        dsimp only
        refine changeTable_eq fun table htable ↦ ?_
        have hlength : (s.stack.extract (s.stack.size - s.lastMulti) s.stack.size).toList.length ≤
            s.stack.size := by
          rw [Array.length_toList, Array.size_extract]
          omega
        have hroom := h table htable
        exact foldlM_set_eq (by omega) (by omega)
      | nil | bool | int | float | string | closure | native => rfl
    · cases hu

end

end MiniLua.Checked
