import MiniLua.Proofs.Instances.Account

/-!
When an account of a run is true: the functions that run, and the closures, are those of their texts,
and variables are in the cells that the account says. Functions of other programs have none of these.
-/

namespace MiniLua

open Machine

/-- The function is at a place of its code from which on instructions do what the text says, with the
variables that are known there in their latest cells. -/
structure Life.Fits (L : Life) (code h : Heap) (f : Frame) (U : Home) (link : Nat × Array Nat)
    (K : Known) : Prop where
  heap : U.heap = code
  closure : h.links[f.closure]? = some link
  proto : code.protos[link.1]? = some U.proto
  short : code.Short link.1
  supplied : U.Supplied link.2 L.routine.around
  minds : ∀ k, U.Minds L.occurrences k f.ip K
  cells : ∀ q ∈ K, ∃ cell, L.cells q.1 = some cell ∧ f.cells[q.2]? = some (some cell)

/-- A closure was made from the text, and captured nothing but variables around it. -/
structure Routine.Owns (r : Routine) (code : Heap) (link : Nat × Array Nat) : Prop where
  made : r.Made code link.1 link.2
  around : ∀ cell ∈ link.2, ∃ b ∈ r.around, b.2 = cell

/-- What is known of an activation. A function whose text is not known has no cell of a variable whose
text is. -/
inductive Tells (code : Heap) (routines : Nat → Option Routine) (bound : List Nat) (h : Heap) :
    Option Life → Option Frame → Prop
  | native : Tells code routines bound h none none
  | stranger {f : Frame} (unknown : routines f.closure = none) (there : f.closure < h.closures.size)
      (apart : ∀ cell ∈ bound, some cell ∉ f.cells) : Tells code routines bound h none (some f)
  | known {L : Life} {f : Frame} {U : Home} {link : Nat × Array Nat} {K : Known}
      (text : routines f.closure = some L.routine) (fits : L.Fits code h f U link K) :
      Tells code routines bound h (some L) (some f)

/-- The account is true where these activations are there. -/
structure Ledger (code : Heap) (routines : Nat → Option Routine) (bound : List Nat) (h : Heap)
    (lives : List (Option Life)) (calls : List (Option Frame)) : Prop where
  protos {i : Nat} {p : Prototype} : code.protos[i]? = some p → h.protos[i]? = some p
  made {c : Nat} {r : Routine} : routines c = some r →
    ∃ link, h.links[c]? = some link ∧ r.Owns code link
  each : List.Forall₂ (Tells code routines bound h) lives calls
  held : ∀ cell, h.Holds calls cell → cell < h.cells.size
  below : ∀ cell ∈ bound, cell < h.cells.size
  distinct : bound.Nodup
  apart {c : Nat} {link : Nat × Array Nat} : routines c = none → h.links[c]? = some link →
    ∀ cell ∈ bound, cell ∉ link.2

namespace Heap

variable {h k : Heap} {calls : List (Option Frame)} {cell : Nat}

theorem size_links (h : Heap) : h.links.size = h.closures.size := Array.size_map

theorem lt_of_link {c : Nat} {link : Nat × Array Nat} (hlink : h.links[c]? = some link) :
    c < h.closures.size := by
  rw [← h.size_links]
  exact (Array.getElem?_eq_some_iff.mp hlink).1

theorem Conserves.lt_closures {c : Nat} (g : h.Conserves k) (hc : c < h.closures.size) :
    c < k.closures.size := by
  rw [← h.size_links] at hc
  exact lt_of_link (g.links (Array.getElem?_eq_getElem hc))

theorem holds_cons {x : Option Frame} (hcell : h.Holds (x :: calls) cell) :
    (∃ f, x = some f ∧ some cell ∈ f.cells) ∨ h.Holds calls cell := by
  obtain ⟨f, hf, hmem⟩ | hlink := hcell
  · obtain rfl | hf := List.mem_cons.mp hf
    · exact .inl ⟨f, rfl, hmem⟩
    · exact .inr (.inl ⟨f, hf, hmem⟩)
  · exact .inr (.inr hlink)

theorem Holds.mono {calls' : List (Option Frame)} (hcell : h.Holds calls cell) (hcalls : calls ⊆ calls') :
    h.Holds calls' cell := hcell.imp_left fun ⟨f, hf, hmem⟩ ↦ ⟨f, hcalls hf, hmem⟩

/-- Where no new closure captured anything but cells of which `P` holds, all that is held is of before
or of these. -/
theorem Holds.of_links {P : Nat → Prop} (hcell : k.Holds calls cell)
    (hlinks : ∀ (c : Nat) (link : Nat × Array Nat), k.links[c]? = some link →
      h.links[c]? = some link ∨ ∀ cell ∈ link.2, P cell) : h.Holds calls cell ∨ P cell := by
  obtain hframe | ⟨link, hlink, hmem⟩ := hcell
  · exact .inl (.inl hframe)
  · obtain ⟨c, hc, hlink⟩ := Array.mem_iff_getElem.mp hlink
    obtain hold | hnew := hlinks c link (by rw [Array.getElem?_eq_getElem hc, hlink])
    · exact .inl (.inr ⟨link, Array.mem_of_getElem? hold, hmem⟩)
    · exact .inr (hnew cell hmem)

end Heap

section

variable {code h k : Heap} {routines : Nat → Option Routine} {bound new : List Nat}
  {lives : List (Option Life)} {calls : List (Option Frame)} {life : Option Life} {x : Option Frame}

theorem Life.Fits.later {L : Life} {f : Frame} {U : Home} {link : Nat × Array Nat} {K : Known}
    (hf : L.Fits code h f U link K) (g : h.Conserves k) : L.Fits code k f U link K :=
  { hf with closure := g.links hf.closure }

/-- The function goes on elsewhere. -/
theorem Life.Fits.goes {L : Life} {f : Frame} {U : Home} {link : Nat × Array Nat} {K : Known} {pc : Nat}
    (hf : L.Fits code h f U link K) (hminds : ∀ k, U.Minds L.occurrences k pc K) :
    L.Fits code h { f with ip := pc } U link K :=
  { hf with minds := hminds }

/-- A variable is bound, in a slot. -/
theorem Life.Fits.binds {L : Life} {f : Frame} {U : Home} {link : Nat × Array Nat} {K : Known}
    {pc x : Nat} {v : Variable} (hf : L.Fits code h f U link K) (hx : x < f.cells.size)
    (hminds : ∀ k, U.Minds L.occurrences k pc (K.bind v x)) (cell : Nat) :
    (L.bind v cell).Fits code h { f with ip := pc, cells := f.cells.setIfInBounds x (some cell) } U link
      (K.bind v x) := by
  refine { hf with minds := hminds, cells := fun q hq ↦ ?_ }
  obtain rfl | hq := List.mem_cons.mp hq
  · exact ⟨cell, Function.update_self _ _ _, Array.getElem?_setIfInBounds_self_of_lt hx⟩
  · obtain ⟨hq, hother⟩ := List.mem_filter.mp hq
    obtain ⟨hv, hslot⟩ := of_decide_eq_true hother
    obtain ⟨old, hold, hcell⟩ := hf.cells q hq
    refine ⟨old, (Function.update_of_ne hv _ _).trans hold, ?_⟩
    rw [Array.getElem?_setIfInBounds_ne (Ne.symm hslot)]
    exact hcell

namespace Tells

theorem later (hx : Tells code routines bound h life x) (g : h.Conserves k) :
    Tells code routines bound k life x := by
  cases hx with
  | native => exact .native
  | stranger unknown there apart => exact .stranger unknown (g.lt_closures there) apart
  | known text fits => exact .known text (fits.later g)

/-- A closure is made, of a text that is known. -/
theorem learns (hx : Tells code routines bound h life x) (r : Routine) :
    Tells code (Function.update routines h.closures.size (some r)) bound h life x := by
  have hold {f : Frame} (hf : f.closure < h.closures.size) :
      Function.update routines h.closures.size (some r) f.closure = routines f.closure :=
    Function.update_of_ne (Nat.ne_of_lt hf) _ _
  cases hx with
  | native => exact .native
  | stranger unknown there apart => exact .stranger ((hold there).trans unknown) there apart
  | known text fits => exact .known ((hold (Heap.lt_of_link fits.closure)).trans text) fits

/-- Variables are bound to cells that nobody had. -/
theorem binds (hx : Tells code routines bound h life x)
    (hnew : ∀ f, x = some f → ∀ cell ∈ new, some cell ∉ f.cells) :
    Tells code routines (new ++ bound) h life x := by
  cases hx with
  | native => exact .native
  | known text fits => exact .known text fits
  | stranger unknown there apart =>
    refine .stranger unknown there fun cell hcell ↦ ?_
    obtain hcell | hcell := List.mem_append.mp hcell
    · exact hnew _ rfl cell hcell
    · exact apart cell hcell

end Tells

namespace Ledger

theorem suffix {calls' : List (Option Frame)} (hl : Ledger code routines bound h lives calls)
    (hcalls : calls' <:+ calls) :
    Ledger code routines bound h (lives.drop (lives.length - calls'.length)) calls' := by
  have hdrop := List.suffix_iff_eq_drop.mp hcalls
  have hlength := hl.each.length_eq
  refine { hl with
    each := ?_, held := fun cell hcell ↦ hl.held cell (hcell.mono hcalls.subset) }
  rw [hlength, hdrop, List.length_drop]
  have hsize : calls.length - (calls.length - (calls.length - calls'.length)) =
      calls.length - calls'.length := by omega
  rw [hsize]
  exact List.forall₂_drop _ hl.each

theorem tail (hl : Ledger code routines bound h (life :: lives) (x :: calls)) :
    Ledger code routines bound h lives calls :=
  { hl with
    each := (List.forall₂_cons.mp hl.each).2
    held := fun cell hcell ↦ hl.held cell (hcell.mono (List.subset_cons_self _ _)) }

theorem cons (hl : Ledger code routines bound h lives calls) (hx : Tells code routines bound h life x)
    (hcells : ∀ f, x = some f → ∀ cell, some cell ∈ f.cells → cell < h.cells.size) :
    Ledger code routines bound h (life :: lives) (x :: calls) :=
  { hl with
    each := .cons hx hl.each
    held := fun cell hcell ↦ by
      obtain ⟨f, hf, hmem⟩ | hcell := Heap.holds_cons hcell
      · exact hcells f hf cell hmem
      · exact hl.held cell hcell }

/-- Closures that are new captured no variable whose text is known. -/
theorem later (hl : Ledger code routines bound h lives calls) (g : h.Conserves k)
    (hcells : h.cells.size ≤ k.cells.size)
    (hlinks : ∀ (c : Nat) (link : Nat × Array Nat), k.links[c]? = some link →
      h.links[c]? = some link ∨ ∀ cell ∈ link.2, cell < k.cells.size ∧ cell ∉ bound) :
    Ledger code routines bound k lives calls where
  protos hp := g.protos (hl.protos hp)
  made hr := by
    obtain ⟨link, hlink, howns⟩ := hl.made hr
    exact ⟨link, g.links hlink, howns⟩
  each := hl.each.imp fun _ _ hx ↦ hx.later g
  held cell hcell := by
    obtain hold | hnew := hcell.of_links hlinks
    · exact (hl.held cell hold).trans_le hcells
    · exact hnew.1
  below cell hcell := (hl.below cell hcell).trans_le hcells
  distinct := hl.distinct
  apart {c link} hc hlink cell hcell hmem := by
    obtain hold | hnew := hlinks c link hlink
    · exact hl.apart hc hold cell hcell hmem
    · exact (hnew cell hmem).2 hcell

theorem bare (hl : Ledger code routines bound h lives calls) (g : h.Conserves k)
    (hcells : h.cells.size ≤ k.cells.size)
    (hbare : ∀ (c : Nat) (link : Nat × Array Nat), k.links[c]? = some link →
      h.links[c]? = some link ∨ link.2 = #[]) : Ledger code routines bound k lives calls := by
  refine hl.later g hcells fun c link hlink ↦ (hbare c link hlink).imp_right fun hnone cell hcell ↦ ?_
  rw [hnone] at hcell
  simp at hcell

/-- A closure is made from its text. -/
theorem learns (hl : Ledger code routines bound h lives calls) {c : Closure} {r : Routine}
    (howns : r.Owns code (c.proto, c.upvalues)) (hcells : ∀ cell ∈ c.upvalues, cell < h.cells.size) :
    Ledger code (Function.update routines h.closures.size (some r)) bound (h.allocClosure c).2 lives
      calls := by
  have hconserves : h.Conserves (h.allocClosure c).2 := .allocClosure h c
  have hlinks (i : Nat) (link : Nat × Array Nat) (hlink : (h.allocClosure c).2.links[i]? = some link) :
      i = h.closures.size ∧ link = (c.proto, c.upvalues) ∨ h.links[i]? = some link := by
    rw [Heap.links_allocClosure, Array.getElem?_push, h.size_links] at hlink
    split at hlink
    · next hi =>
      cases hlink
      exact .inl ⟨hi, rfl⟩
    · exact .inr hlink
  refine ⟨fun hp ↦ hl.protos hp, fun {i r'} hr ↦ ?_, ?_, fun cell hcell ↦ ?_, hl.below, hl.distinct,
    fun {i link} hi hlink ↦ ?_⟩
  · by_cases hi : i = h.closures.size
    · subst hi
      rw [Function.update_self] at hr
      cases hr
      exact ⟨_, by rw [Heap.links_allocClosure, ← h.size_links, Array.getElem?_push_size], howns⟩
    · rw [Function.update_of_ne hi] at hr
      obtain ⟨link, hlink, howns'⟩ := hl.made hr
      exact ⟨link, hconserves.links hlink, howns'⟩
  · exact hl.each.imp fun _ _ hx ↦ (hx.learns r).later hconserves
  · have hnew := hcell.of_links (P := fun cell ↦ cell ∈ c.upvalues) fun i link hlink ↦ by
      obtain ⟨-, rfl⟩ | hold := hlinks i link hlink
      · exact .inr fun _ ↦ id
      · exact .inl hold
    exact hnew.elim (hl.held cell) (hcells cell)
  · obtain ⟨rfl, -⟩ | hold := hlinks i link hlink
    · rw [Function.update_self] at hi
      cases hi
    · rw [Function.update_of_ne (Nat.ne_of_lt (Heap.lt_of_link hold))] at hi
      exact hl.apart hi hold

/-- Variables are bound to new cells. -/
theorem binds (hl : Ledger code routines bound h lives calls) (g : h.SameLinks k)
    (hcells : h.cells.size ≤ k.cells.size) (hdistinct : new.Nodup)
    (hnew : ∀ cell ∈ new, h.cells.size ≤ cell ∧ cell < k.cells.size) :
    Ledger code routines (new ++ bound) k lives calls := by
  have hlater := hl.later g.conserves hcells fun c link hlink ↦ .inl (g.links ▸ hlink)
  have hfree {calls' : List (Option Frame)} (hcalls : calls' ⊆ calls) : ∀ cell ∈ new, ¬ h.Holds calls' cell :=
    fun cell hcell hheld ↦ Nat.not_lt_of_le (hnew cell hcell).1 (hl.held cell (hheld.mono hcalls))
  refine { hlater with each := ?_, below := ?_, distinct := ?_, apart := ?_ }
  · obtain ⟨hlength, hzip⟩ := List.forall₂_iff_zip.mp hlater.each
    refine List.forall₂_iff_zip.mpr ⟨hlength, fun hmem ↦ (hzip hmem).binds fun f hf cell hcell hc ↦ ?_⟩
    exact hfree (List.Subset.refl _) cell hcell (.inl ⟨f, hf ▸ (List.of_mem_zip hmem).2, hc⟩)
  · intro cell hcell
    obtain hcell | hcell := List.mem_append.mp hcell
    · exact (hnew cell hcell).2
    · exact hlater.below cell hcell
  · refine hdistinct.append hl.distinct fun cell hcell hbound ↦ ?_
    exact Nat.not_lt_of_le (hnew cell hcell).1 (hl.below cell hbound)
  · intro c link hc hlink cell hcell hmem
    obtain hcell | hcell := List.mem_append.mp hcell
    · refine hfree (List.nil_subset _) cell hcell (.inr ⟨link, ?_, hmem⟩)
      rw [g.links] at hlink
      exact Array.mem_of_getElem? hlink
    · exact hlater.apart hc hlink cell hcell hmem

end Ledger

end

end MiniLua
