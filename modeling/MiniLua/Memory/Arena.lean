namespace MiniLua

/-- Numbered slots. Freed slots are taken again before new ones are made, the last freed first. -/
structure Arena (α : Type) where
  slots : Array α
  free : List Nat

namespace Arena

variable {α : Type}

def empty : Arena α := ⟨#[], []⟩

def alloc (a : Arena α) (item : α) : Nat × Arena α :=
  match a.free with
  | i :: free => (i, ⟨a.slots.setIfInBounds i item, free⟩)
  | [] => (a.slots.size, ⟨a.slots.push item, []⟩)

/-- The slot keeps its content until it is taken again. -/
def release (a : Arena α) (i : Nat) : Arena α := ⟨a.slots, i :: a.free⟩

def get? (a : Arena α) (i : Nat) : Option α := a.slots[i]?

def set (a : Arena α) (i : Nat) (item : α) : Arena α := ⟨a.slots.setIfInBounds i item, a.free⟩

def size (a : Arena α) : Nat := a.slots.size - a.free.length

def isEmpty (a : Arena α) : Bool := a.size == 0

end Arena

end MiniLua
