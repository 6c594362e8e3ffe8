import MiniLua.Memory.Heap

/-!
Tables have no order of their own. Where one is shown, its entries come by key: truth values,
integers, floats by their bits, strings bytewise, and then the objects by handle.
-/

namespace MiniLua.Heap

/-- What the place of a key among others depends on, the most important first. -/
def sortKey (h : Heap) (key : Value) : Nat × Int × Bytes :=
  match key with
  | .nil => (0, 0, [])
  | .bool b => (0, b.toNat, [])
  | .int i => (1, i.toInt, [])
  | .float bits => (2, bits.toNat, [])
  | .string s => (3, 0, (h.bytes? s).getD [])
  | .table t => (4, t, [])
  | .closure c => (5, c, [])
  | .native n => (6, n, [])

def keyAtMost (h : Heap) (a b : Value) : Bool :=
  let (i, x, s) := h.sortKey a
  let (j, y, t) := h.sortKey b
  (((compare i j).then (compare x y)).then (compare s t)).isLE

def sortedEntries (h : Heap) (t : Table) : List (Value × Value) :=
  t.entries.mergeSort fun a b ↦ h.keyAtMost a.1 b.1

end MiniLua.Heap
