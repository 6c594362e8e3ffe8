import MiniLua.Proofs.Meaning.Contents
import MiniLua.Proofs.Meaning.Programs

/-!
Assignments to several targets. The values are evaluated first; then the targets take theirs one after
the other, the last first, and each evaluates its object and key right before. Where evaluation stores
nothing, and no target stores what another one reads, that is as if all were stored at once.
-/

namespace MiniLua

open Effects Machine Eval Heap

/-- The world with other data. -/
def World.withHeap (w : World) (k : Heap) : World := { w with machine := { w.machine with heap := k } }

section

variable (c : Context) (env : Bindings) (w : World) (A : Set Address)

/-- Whatever lies at the addresses in `A`, the expression has this value, and evaluating it stores
nothing. -/
def Expr.Gives (e : Expr) (d : Datum) : Prop :=
  ∀ k : Heap, w.machine.heap.AgreesOff A k → k.Sane → ∃ v k',
    e.evalOne c env (w.withHeap k) = .ok v (w.withHeap k') ∧ k.Widens k' ∧ k'.datum? v = some d

/-- Whatever lies at the addresses in `A`, this is what a store in the target changes. -/
inductive Expr.Locates : Expr → Address → Prop
  | cell {name : String} {pos : Position} {i : Nat} (hname : env.cell? name = some i) :
      Locates (.name name pos) (.cell i)
  | global {name : String} {pos : Position} {closure : Closure} (hname : env.cell? name = none)
      (hclosure : w.machine.heap.closures[c.closure]? = some closure) :
      Locates (.name name pos) (.entry closure.env (.text (Bytes.ofText name)))
  | entry {object key : Expr} {pos : Position} {t : Nat} {d : Datum} {label : Label}
      (hobject : object.Gives c env w A (.value (.table t))) (hkey : key.Gives c env w A d)
      (hlabel : d.label? = some label) : Locates (.index object key pos) (.entry t label)

end

section

variable {c : Context} {env : Bindings} {w : World} {A B : Set Address} {k k' : Heap} {n m : Nat}

theorem Expr.Gives.anti {e : Expr} {d : Datum} (h : e.Gives c env w B d) (hAB : A ⊆ B) :
    e.Gives c env w A d := fun k hk ↦ h k (hk.mono hAB)

theorem Expr.Locates.anti {e : Expr} {a : Address} (h : e.Locates c env w B a) (hAB : A ⊆ B) :
    e.Locates c env w A a := by
  cases h with
  | cell hname => exact .cell hname
  | global hname hclosure => exact .global hname hclosure
  | entry hobject hkey hlabel => exact .entry (hobject.anti hAB) (hkey.anti hAB) hlabel

theorem gives_string (s : Bytes) (pos : Position) :
    (Expr.string s pos).Gives c env w A (.text s) := by
  intro k _ hsane
  refine ⟨.string (k.intern s).1, (k.intern s).2, rfl, .intern hsane s, ?_⟩
  rw [datum?, bytes?_intern hsane.exact.sound]
  rfl

end

/-- A target and a value of an assignment, with where the one lies and what the other is. -/
structure Assignment where
  target : Expr
  value : Expr
  place : Address
  datum : Datum

/-- The value is what it is before the assignment, and so is the place of the target, whatever is stored
at the addresses in `A`. -/
structure Assignment.Settled (c : Context) (env : Bindings) (w : World) (A : Set Address)
    (x : Assignment) : Prop where
  there : (w.machine.heap.content? x.place).isSome
  target : x.target.Locates c env w A x.place
  value : x.value.Gives c env w ∅ x.datum

/-- The places of the others. -/
def others (xs : List Assignment) (x : Assignment) : Set Address :=
  {a | a ∈ xs.map Assignment.place ∧ a ≠ x.place}

section

variable {c : Context} {env : Bindings} {w : World} {A B : Set Address} {k : Heap}
  {xs : List Assignment} {m : Nat}

theorem Assignment.Settled.anti {x : Assignment} (h : x.Settled c env w B) (hAB : A ⊆ B) :
    x.Settled c env w A := ⟨h.there, h.target.anti hAB, h.value⟩

end

section

variable {natives : Array Native} {code : Heap} {p : Spot} {U : Home} {c : Context} {pc pc' : Nat}
  {locals locals' : List Local} {env : Bindings} {cells : Array (Option Nat)} {S : Array Value}
  {w : World} {s : State}

end

end MiniLua
