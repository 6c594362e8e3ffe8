import MiniLua.Library.Registry
import MiniLua.Proofs.Chunk.Loadable
import MiniLua.Proofs.Twins.Steps

/-! A script does the same whether it is compiled where it runs or loaded from its dump, in any two
machines that correspond. Machines that were set up alike do. -/

namespace MiniLua

open Effects

namespace Heap

variable {n : Nat} {h k l : Heap}

theorem Alike.eq {w u : Value} (hwu : k.Alike l w u) (hw : w.handle? = none) : u = w := by
  cases w with
  | string | table | closure | native => cases hw
  | nil | bool | int | float =>
    cases u with
    | string => exact hwu.elim
    | _ => exact Eq.symm hwu

end Heap

namespace State

end State

namespace Mirrored

open Machine

variable {n : Nat} {s s' : State} (h : s.Twins n s')

include h

theorem setGlobal (name : String) {v v' : Value} (hv : s.heap.Matches n s'.heap v v') :
    Together n s s' (setGlobal name v s) (setGlobal name v' s') := by
  have hbytes := Heap.bytes?_intern h.heap.exact.sound (Bytes.ofText name)
  have hbytes' := Heap.bytes?_intern h.heap.exact'.sound (Bytes.ofText name)
  refine (onHeap (P := fun k k' i j ↦ k.Matches n k' (.string i) (.string j)) h
    (h.heap.intern _) (.intern _ _) (.intern _ _) (.string hbytes hbytes')).bind
      fun i j t t' ht g g' hij ↦ ?_
  refine Peeks.get.sync_bind ht fun u u' ⟨hu, hu'⟩ ↦ ?_
  subst hu hu'
  dsimp only
  rw [← ht.globals.table_eq]
  refine changeHeap ht (ht.heap.modifyTable _ fun a b hab ↦ ?_) (.modifyTable _ _ _)
    (.modifyTable _ _ _)
  have hkey : u.heap.Matches n u'.heap (Key.string i).toValue (Key.string j).toValue := hij
  exact hab.set ht.heap.pairing hkey (hv.mono g.toGrows g'.toGrows)

theorem place {math math' : Value} (hmath : s.heap.Matches n s'.heap math math') (b : Builtin)
    {i : Nat} (hi : i < n) :
    Together n s s' (Registry.place math b (.native i) s) (Registry.place math' b (.native i) s') := by
  unfold Registry.place
  cases b.space with
  | global => exact setGlobal h _ (.native hi)
  | math =>
    refine (bytesValue h _).bind fun key key' t t' ht g g' hkey ↦ ?_
    exact setIndex ht (hmath.mono g.toGrows g'.toGrows) hkey (.native hi)
  | string =>
    refine Peeks.get.sync_bind h fun u u' ⟨hu, hu'⟩ ↦ ?_
    subst hu hu'
    refine (bytesValue h _).bind fun key key' t t' ht g g' hkey ↦ ?_
    exact setIndex ht (h.stringMethods.mono g.toGrows g'.toGrows) hkey (.native hi)

theorem placeAll {math math' : Value} (hmath : s.heap.Matches n s'.heap math math')
    {handles : List (Builtin × Nat)} (hhandles : ∀ p ∈ handles, p.2 < n) :
    Together n s s'
      ((handles.forM fun (b, i) ↦ Registry.place math b (.native i) : Machine PUnit) s)
      ((handles.forM fun (b, i) ↦ Registry.place math' b (.native i) : Machine PUnit) s') := by
  induction handles generalizing s s' with
  | nil => exact .pure h trivial
  | cons p handles ih =>
    obtain ⟨hp, hhandles⟩ := List.forall_mem_cons.mp hhandles
    exact (place h hmath p.1 hp).bind fun _ _ t t' ht g g' _ ↦
      ih ht (hmath.mono g.toGrows g'.toGrows) hhandles

/-- The library is installed alike in machines that correspond. -/
theorem install {natives : Array Native} (hn : natives.size + Builtin.all.length ≤ n) :
    Mirrored n (fun _ _ ↦ (· = ·)) s s' (Registry.install natives s)
      (Registry.install natives s') := by
  unfold Registry.install
  refine (newTable h).bind fun math math' t t' ht _ _ hmath ↦ ?_
  have hhandles : ∀ p ∈ Builtin.all.zipIdx natives.size, p.2 < n := fun p hp ↦
    (List.mem_zipIdx hp).2.1.trans_le hn
  refine (placeAll ht hmath hhandles).bind fun _ _ t t' ht g g' _ ↦ ?_
  replace hmath := hmath.mono g.toGrows g'.toGrows
  refine (bytesValue ht _).bind fun key key' t t' ht g g' hkey ↦ ?_
  replace hmath := hmath.mono g.toGrows g'.toGrows
  refine (setIndex ht hmath hkey (.float _)).bind fun _ _ t t' ht g g' _ ↦ ?_
  replace hmath := hmath.mono g.toGrows g'.toGrows
  refine (bytesValue ht _).bind fun key key' t t' ht g g' hkey ↦ ?_
  replace hmath := hmath.mono g.toGrows g'.toGrows
  refine (setIndex ht hmath hkey (.float _)).bind fun _ _ t t' ht g g' _ ↦ ?_
  replace hmath := hmath.mono g.toGrows g'.toGrows
  refine (setGlobal ht _ hmath).bind fun _ _ t t' ht _ _ _ ↦ ?_
  refine Peeks.get.sync_bind ht fun u u' ⟨hu, hu'⟩ ↦ ?_
  subst hu hu'
  exact (setGlobal ht _ ht.stringMethods).bind fun _ _ t t' ht _ _ _ ↦ .pure ht rfl

end Mirrored

end MiniLua
