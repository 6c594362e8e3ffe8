import MiniLua.Memory.Key

/-!
Tables. The entries at `1, 2, ..., n` lie in an array whose last entry is never nil; all others are
in a map without nils. The length of a table is the length of that array.
-/

namespace MiniLua

structure Table where
  array : Array Value
  hash : Std.TreeMap Key Value

namespace Table

def empty : Table := ⟨#[], {}⟩

instance : Inhabited Table := ⟨empty⟩

/-- The border of the array part. -/
def length (t : Table) : Nat := t.array.size

def isEmpty (t : Table) : Bool := t.array.isEmpty && t.hash.isEmpty

/-- The place in the array part where an integer key is stored. -/
def slot? (t : Table) : Key → Option Nat
  | .int i => if 1 ≤ i.toInt ∧ i.toInt ≤ t.length then some (i.toInt.toNat - 1) else none
  | _ => none

/-- The key right after the array part. -/
def nextKey (t : Table) : Key := .int (Int64.ofInt (t.length + 1))

def get (t : Table) (key : Key) : Value :=
  match t.slot? key with
  | some n => t.array.getD n .nil
  | none => t.hash.getD key .nil

/-- The entry under a value, nil if that is no key. -/
def getValue (t : Table) (key : Value) : Value :=
  match Key.ofValue? key with
  | some key => t.get key
  | none => .nil

/-- Moves entries from the map to the array as long as they continue it. -/
def absorb : Nat → Table → Table
  | 0, t => t
  | bound + 1, t =>
    match t.hash[t.nextKey]? with
    | some v => absorb bound ⟨t.array.push v, t.hash.erase t.nextKey⟩
    | none => t

/-- The array without the nils it ends in. -/
def trimmed (values : Array Value) : Array Value := values.popWhile Value.isNil

def setSlot (t : Table) (n : Nat) (value : Value) : Table :=
  let array := t.array.setIfInBounds n value
  if value.isNil && n + 1 == t.length then ⟨trimmed array, t.hash⟩ else ⟨array, t.hash⟩

/-- Stores an entry; nil removes it. -/
def set (t : Table) (key : Key) (value : Value) : Table :=
  match t.slot? key with
  | some n => t.setSlot n value
  | none =>
    if value.isNil then ⟨t.array, t.hash.erase key⟩
    else if key = t.nextKey then
      absorb t.hash.size ⟨t.array.push value, t.hash.erase key⟩
    else ⟨t.array, t.hash.insert key value⟩

/-- Stores at the end of the array part. -/
def push (t : Table) (value : Value) : Table := t.set t.nextKey value

def ofList (values : List Value) : Table :=
  (values.zipIdx 1).foldl (fun t (v, i) ↦ t.set (.int (Int64.ofNat i)) v) empty

/-- All entries, the array part first. -/
def entries (t : Table) : List (Value × Value) :=
  let items := (t.array.toList.zipIdx 1).filter fun (v, _) ↦ !v.isNil
  items.map (fun (v, i) ↦ (.int (Int64.ofNat i), v)) ++
    t.hash.toList.map fun (k, v) ↦ (k.toValue, v)

/-- How many entries are not nil. -/
def entryCount (t : Table) : Nat := t.array.countP (!·.isNil) + t.hash.size

end Table

end MiniLua
