import MiniLua.Library.Base
import MiniLua.Library.Environment
import MiniLua.Library.Load
import MiniLua.Library.Math
import MiniLua.Library.Select
import MiniLua.Library.Strings

/-!
The builtins, by identifier, and their installation: base functions become globals, the others lie
in the `math` table and in the table of string methods, which is the global `string` as well.
-/

namespace MiniLua

inductive Builtin
  | assert | loadfile | tonumber | rawget | setfenv | select | collectgarbage | dofile | loadstring
  | load | tostring | unpack | next | print | abs | max | min | modf | sin | rep | sub
deriving DecidableEq, Repr

inductive Namespace
  | global
  | math
  | string
deriving DecidableEq, Repr

namespace Builtin

def all : List Builtin :=
  [assert, loadfile, tonumber, rawget, setfenv, select, collectgarbage, dofile, loadstring, load,
    tostring, unpack, next, print, abs, max, min, modf, sin, rep, sub]

theorem mem_all (b : Builtin) : b ∈ all := by cases b <;> decide

def native : Builtin → Native
  | assert => Library.assert
  | loadfile => Library.loadfile
  | tonumber => Library.tonumber
  | rawget => Library.rawget
  | setfenv => Library.setfenv
  | select => Library.select
  | collectgarbage => Library.collectgarbage
  | dofile => Library.dofile
  | loadstring => Library.loadstring
  | load => Library.load
  | tostring => Library.tostring
  | unpack => Library.unpack
  | next => Library.next
  | print => Library.print
  | abs => Library.abs
  | max => Library.maximum
  | min => Library.minimum
  | modf => Library.modf
  | sin => Library.sin
  | rep => Library.rep
  | sub => Library.sub

/-- The name within the namespace. -/
def name (b : Builtin) : String := b.native.name

def space : Builtin → Namespace
  | abs | max | min | modf | sin => .math
  | rep | sub => .string
  | _ => .global

end Builtin

/-- The handle every builtin got when it was installed. -/
structure Registry where
  handles : List (Builtin × Nat)

namespace Registry

def handle? (r : Registry) (b : Builtin) : Option Nat :=
  (r.handles.find? fun (c, _) ↦ c == b).map Prod.snd

def builtin? (r : Registry) (handle : Nat) : Option Builtin :=
  (r.handles.find? fun (_, h) ↦ h == handle).map Prod.fst

def size (r : Registry) : Nat := r.handles.length

def isEmpty (r : Registry) : Bool := r.handles.isEmpty

open Machine

/-- Stores a builtin where it belongs. -/
def place (math : Value) (b : Builtin) (v : Value) : Machine Unit := do
  match b.space with
  | .global => setGlobal b.name v
  | .math => setIndex math (← textValue b.name) v
  | .string => do
    let methods : Value := .table (← get).stringMethods
    setIndex methods (← textValue b.name) v

/-- The largest finite float. -/
def huge : Value := .float 0x7FEFFFFFFFFFFFFF

def pi : Value := .float 0x400921FB54442D18

/-- Adds all builtins to the natives that are there. Installing again gives them new handles. -/
def install (natives : Array Native) : Machine (Registry × Array Native) := do
  let math ← newTable
  let handles := Builtin.all.zipIdx natives.size
  handles.forM fun (b, h) ↦ place math b (.native h)
  setIndex math (← textValue "huge") huge
  setIndex math (← textValue "pi") pi
  setGlobal "math" math
  setGlobal "string" (.table (← get).stringMethods)
  return (⟨handles⟩, natives.appendList (Builtin.all.map Builtin.native))

end Registry

end MiniLua
