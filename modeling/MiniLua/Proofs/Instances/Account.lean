import MiniLua.Proofs.Instances.Turns
import MiniLua.Proofs.Instances.Known
import MiniLua.Proofs.Meaning.Spots

/-!
A run told by the texts of its functions. The account knows from which function's text a closure was
made, with the cells of the variables around it, and for each function that runs the cell that the
latest execution of each of its declarations bound.
-/

namespace MiniLua

/-- A function that runs, by its text. -/
structure Life where
  routine : Routine
  /-- The cell that the latest execution of the declaration bound. -/
  cells : Variable → Option Nat

namespace Life

def occurrences (L : Life) : List Occurrence :=
  MiniLua.occurrences L.routine.params L.routine.body

/-- The cell that the name stands for where these variables are in scope. -/
def cell? (L : Life) (scope : Scope) (name : String) : Option Nat :=
  match scope.find name with
  | some v => L.cells v
  | none => L.routine.around.cell? name

/-- What the names stand for in a function that is made where these variables are in scope. -/
def bindings (L : Life) (scope : Scope) : Bindings :=
  (scope.filterMap fun v ↦ (L.cells v).map fun cell ↦ (v.name, cell)) ++ L.routine.around

def bind (L : Life) (v : Variable) (cell : Nat) : Life :=
  { L with cells := Function.update L.cells v (some cell) }

/-- A function begins with its parameters bound to the first cells of its frame. -/
def begin (r : Routine) (f : Frame) : Life where
  routine := r
  cells v := if v ∈ (Walk.start r.params).scope then f.cells.getD v.serial none else none

/-- What the next instruction stands for. -/
def next? (L : Life) (s : State) (f : Frame) : Option Occurrence :=
  (s.proto? f.closure).bind fun p ↦ p.occurrence? L.occurrences f.ip

/-- The instruction reaches the latest cell of the innermost variable of the name: of a variable of the
function in a slot, of one around the function in its closure. If there is none it reaches a global
variable. -/
def Reaches (L : Life) (f : Frame) (upvalues : Array Nat) (scope : Scope) (route : Route)
    (name : String) (i : Instruction) : Prop :=
  match scope.find name with
  | some v =>
    i.opcode? = some route.cell ∧
      ∃ cell, L.cells v = some cell ∧ f.cells[i.x]? = some (some cell)
  | none =>
    match L.routine.around.cell? name with
    | some cell => i.opcode? = some route.upvalue ∧ upvalues[i.x]? = some cell
    | none => i.opcode? = some route.global

/-- The instruction does with cells what the text does with variables. Where a function is made all
variables in scope have cells, and all that the function captures are cells of variables in scope. -/
def Does (L : Life) (heap : Heap) (p : Prototype) (f : Frame) (upvalues : Array Nat)
    (i : Instruction) : Occurrence → Prop
  | ⟨_, .bind _⟩ => i.opcode? = some .newCell
  | ⟨scope, .read name⟩ => L.Reaches f upvalues scope .load name i
  | ⟨scope, .write name⟩ => L.Reaches f upvalues scope .store name i
  | ⟨scope, .make _⟩ =>
    i.opcode? = some .closure ∧ (∀ v ∈ scope, ∃ cell, L.cells v = some cell) ∧
      ∃ k q, p.protos[i.x]? = some k ∧ heap.protos[k]? = some q ∧
        ∀ c ∈ q.captures, ∃ b ∈ L.bindings scope, Machine.Frame.Captures f upvalues b.2 c

/-- The next instruction of the function reaches variables where their latest declarations put them. A
numeric loop counts in variables that no program can name. -/
def Heeds (L : Life) (s : State) (f : Frame) : Prop :=
  ∃ c p i op, s.heap.closures[f.closure]? = some c ∧ s.heap.protos[c.proto]? = some p ∧
    p.code[f.ip]? = some i ∧ i.opcode? = some op ∧
    (op.touches → ∃ o, L.next? s f = some o ∧ L.Does s.heap p f c.upvalues i o) ∧
    (op.counts → ∀ j < 3, ∃ v cell, Variable.Hidden v ∧ L.cells v = some cell ∧
      f.cells[i.x + j]? = some (some cell))

/-- The next instruction writes a variable that the cell stands for, or counts a loop in it. -/
def Assigns (L : Life) (s : State) (f : Frame) (cell : Nat) : Prop :=
  (∃ scope name, L.next? s f = some ⟨scope, .write name⟩ ∧ L.cell? scope name = some cell) ∨
    ∃ v, Variable.Hidden v ∧ L.cells v = some cell

end Life

/-- `lives` are the activations, innermost first, as far as their texts are known, and `bound` the
cells that declarations were given, the last first. -/
structure Account where
  lives : List (Option Life)
  routines : Nat → Option Routine
  bound : List Nat

namespace Account

/-- The innermost function binds a variable or makes a function, if a new cell or closure says so. -/
def execute (A : Account) (s t : State) : Account :=
  match A.lives, s.activations with
  | some L :: lives, .guest f :: _ =>
    match L.next? s f with
    | some ⟨_, .bind v⟩ =>
      if s.heap.cells.size < t.heap.cells.size then
        { A with
          lives := some (L.bind v s.heap.cells.size) :: lives
          bound := s.heap.cells.size :: A.bound }
      else A
    | some ⟨scope, .make (.mk params variadic body _)⟩ =>
      if s.heap.closures.size < t.heap.closures.size then
        let r : Routine := ⟨params, variadic, body, L.bindings scope⟩
        { A with routines := Function.update A.routines s.heap.closures.size (some r) }
      else A
    | _ => A
  | _, _ => A

/-- Activations ended, if there are no more than before, or one began. -/
def settle (A : Account) (t : State) : Account :=
  if A.lives.length < t.activations.length then
    match t.activations with
    | .guest f :: _ =>
      match A.routines f.closure with
      | some r =>
        { A with
          lives := some (.begin r f) :: A.lives
          bound := (f.cells.toList.take r.params.length).filterMap id ++ A.bound }
      | none => { A with lives := none :: A.lives }
    | _ => { A with lives := none :: A.lives }
  else { A with lives := A.lives.drop (A.lives.length - t.activations.length) }

/-- The account of one more step, from `s` to `t`. -/
def after (A : Account) (m : Mode) (s t : State) : Account :=
  match m with
  | .execute => (A.execute s t).settle t
  | _ => A.settle t

/-- The account of so many steps. -/
def follow (natives : Array Native) : Nat → Account → Mode → State → Account
  | 0, A, _, _ => A
  | k + 1, A, m, s =>
    match step natives m s with
    | .next m' t => follow natives k (A.after m s t) m' t
    | .halt .. => A

/-- Nothing is known but that this closure was made from the routine. -/
def start (s : State) (c : Nat) (r : Routine) : Account where
  lives := s.activations.map fun _ ↦ none
  routines := Function.update (fun _ ↦ none) c (some r)
  bound := []

end Account

/-- The cell is in a slot of one of these frames, or a closure captured it. -/
def Heap.Holds (h : Heap) (calls : List (Option Frame)) (cell : Nat) : Prop :=
  (∃ f, some f ∈ calls ∧ some cell ∈ f.cells) ∨ ∃ link ∈ h.links, cell ∈ link.2

namespace State

/-- A function that runs or a closure has the cell. -/
def Holds (s : State) (cell : Nat) : Prop := s.heap.Holds s.frames? cell

/-- What is held is there, and so are the closures that run. -/
structure Kept (s : State) : Prop where
  cells : ∀ cell, s.Holds cell → cell < s.heap.cells.size
  closures : ∀ f, some f ∈ s.frames? → f.closure < s.heap.closures.size

end State

end MiniLua
