import MiniLua.Chunk.Reader
import MiniLua.Proofs.Twins.Machines

/-! Binary chunks are read alike into two heaps that correspond. -/

namespace MiniLua.Binary

open Effects

/-- The same bytes are to be read into two heaps. -/
structure Source.Twins (s s' : Source) : Prop where
  exact : s.heap.strings.Exact
  exact' : s'.heap.strings.Exact
  rest : s'.rest = s.rest

/-- Readers only add to the heap. -/
def Source.Adds (s t : Source) : Prop := s.heap.Adds t.heap

instance : Std.Refl Source.Adds := ⟨fun _ ↦ .refl _⟩

instance : IsTrans Source Source.Adds := ⟨fun _ _ _ ↦ .trans⟩

namespace Reader

/-- Two readers do the same. -/
abbrev Alike {α α' : Type} (P : Heap → Heap → α → α' → Prop) (s s' : Source) :
    EStateM.Result LoadError Source α → EStateM.Result LoadError Source α' → Prop :=
  Sync (fun _ _ ↦ Eq) Source.Twins Source.Adds (fun t t' ↦ P t.heap t'.heap) s s'

/-- Two readers find the same. -/
abbrev Same {α : Type} (s s' : Source) :
    EStateM.Result LoadError Source α → EStateM.Result LoadError Source α → Prop :=
  Alike (fun _ _ ↦ Eq) s s'

section

variable {n : Nat} {s s' : Source} (h : s.Twins s')

include h

theorem same_take (count : Nat) : Same s s' (take count s) (take count s') := by
  simp only [take, bind_apply, get_apply, h.rest]
  cases splitOff? count [] s.rest with
  | none => exact .throw h rfl
  | some parts => exact .ok ⟨h.exact, h.exact', rfl⟩ (.refl _) (.refl _) rfl

theorem same_number (bytes : Nat) : Same s s' (number bytes s) (number bytes s') :=
  (same_take h bytes).bind fun _ _ _ _ ht _ _ ha ↦ .pure ht (congrArg ofLittleEndian ha)

theorem same_byte : Same s s' (byte s) (byte s') :=
  (same_number h 1).bind fun _ _ _ _ ht _ _ ha ↦ .pure ht (congrArg Nat.toUInt8 ha)

theorem same_string (limit : Nat) (what : String) :
    Same s s' (string limit what s) (string limit what s') := by
  refine (same_number h 4).bind fun length _ t t' ht _ _ hlength ↦ ?_
  subst hlength
  dsimp only
  split
  · exact .throw ht rfl
  · exact same_take ht length

theorem same_count (limit : Nat) (what : String) :
    Same s s' (count limit what s) (count limit what s') := by
  refine (same_number h 4).bind fun k _ t t' ht _ _ hk ↦ ?_
  subst hk
  dsimp only
  split
  · exact .throw ht rfl
  · exact .pure ht rfl

/-- Items found earlier still correspond when the heaps have grown. -/
theorem alike_many {α α' : Type} {R : Heap → Heap → α → α' → Prop} {item : Reader α}
    {item' : Reader α'}
    (hmono : ∀ {h h' k k' : Heap} {a a'}, R h h' a a' → h.Adds k → h'.Adds k' → R k k' a a')
    (hitem : ∀ {s s'}, s.Twins s' → Alike R s s' (item s) (item' s')) (count : Nat)
    {found : List α} {found' : List α'} (hfound : List.Forall₂ (R s.heap s'.heap) found found') :
    Alike (fun k k' ↦ List.Forall₂ (R k k')) s s' (many item count found s)
      (many item' count found' s') := by
  induction count generalizing found found' s s' with
  | zero => exact .pure h (List.rel_reverse hfound)
  | succ count ih =>
    refine (hitem h).bind fun a a' t t' ht g g' ha ↦ ih ht (.cons ha ?_)
    exact hfound.imp fun _ _ hb ↦ hmono hb g g'

theorem same_many {α : Type} {item : Reader α}
    (hitem : ∀ {s s'}, s.Twins s' → Same s s' (item s) (item s')) (count : Nat) :
    Same s s' (many item count [] s) (many item count [] s') := by
  have hmany := alike_many (R := fun _ _ ↦ Eq) h (fun ha _ _ ↦ ha) hitem count .nil
  refine hmany.mono (fun _ _ ht _ _ ↦ ht) fun _ _ _ _ _ _ has ↦ ?_
  rwa [List.forall₂_eq_eq_eq] at has

theorem alike_constant :
    Alike (fun k k' ↦ k.Matches n k') s s' (constant s) (constant s') := by
  refine (same_byte h).bind fun tag _ t t' ht _ _ htag ↦ ?_
  subst htag
  dsimp only
  split
  · exact .pure ht .nil
  · split
    · exact .pure ht (.bool false)
    · split
      · exact .pure ht (.bool true)
      · split
        · exact (same_number ht 8).bind fun _ _ _ _ ht _ _ ha ↦ .pure ht (ha ▸ .int _)
        · split
          · exact (same_number ht 8).bind fun _ _ _ _ ht _ _ ha ↦ .pure ht (ha ▸ .float _)
          · split
            · refine (same_string ht _ _).bind fun bytes _ u u' hu _ _ hbytes ↦ ?_
              subst hbytes
              have hvalue : (u.heap.intern bytes).2.Matches n (u'.heap.intern bytes).2
                  (.string (u.heap.intern bytes).1) (.string (u'.heap.intern bytes).1) :=
                .string (Heap.bytes?_intern hu.exact.sound bytes)
                  (Heap.bytes?_intern hu.exact'.sound bytes)
              exact .ok ⟨hu.exact.intern _, hu.exact'.intern _, hu.rest⟩ (.intern _ _) (.intern _ _) hvalue
            · exact .throw ht rfl

theorem same_instruction : Same s s' (instruction s) (instruction s') := by
  refine (same_number h 4).bind fun k _ t t' ht _ _ hk ↦ ?_
  subst hk
  dsimp only
  split
  · exact .throw ht rfl
  · exact .pure ht rfl

theorem same_capture : Same s s' (capture s) (capture s') := by
  refine (same_byte h).bind fun tag _ t t' ht _ _ htag ↦
    (same_number ht 2).bind fun k _ u u' hu _ _ hk ↦ ?_
  subst htag hk
  dsimp only
  split
  · exact .pure hu rfl
  · split
    · exact .pure hu rfl
    · exact .throw hu rfl

theorem alike_proto (depth : Nat) :
    Alike (fun k k' ↦ k.SameCode n k') s s' (proto depth s) (proto depth s') := by
  induction depth generalizing s s' with
  | zero => exact .throw h rfl
  | succ depth ih =>
    unfold proto
    refine (same_string h _ _).bind fun text _ t t' h _ _ htext ↦ ?_
    subst htext
    cases Bytes.toText? text with
    | none => exact .throw h rfl
    | some name =>
      refine (same_byte h).bind fun arity _ t t' h _ _ harity ↦
        (same_byte h).bind fun variadic _ t t' h _ _ hvariadic ↦
          (same_number h 2).bind fun cellCount _ t t' h _ _ hcells ↦ ?_
      subst harity hvariadic hcells
      dsimp only
      split
      · exact .throw h rfl
      refine (same_count h _ _).bind fun constantCount _ t t' h _ _ hcount ↦ ?_
      subst hcount
      refine (alike_many (R := fun k k' ↦ k.Matches n k') h
        (fun hv g g' ↦ hv.mono g.evolves.toGrows g'.evolves.toGrows) alike_constant constantCount
        .nil).bind fun constants constants' u u' h _ _ hconstants ↦
          (same_count h _ _).bind fun codeCount _ _ _ h g₁ g₁' hcode ↦ ?_
      subst hcode
      refine (same_many h same_instruction codeCount).bind fun code _ _ _ h g₂ g₂' hcode ↦
        (same_count h _ _).bind fun lineCount _ _ _ h g₃ g₃' hlines ↦ ?_
      subst hcode hlines
      split
      · exact .throw h rfl
      refine (same_many h (fun h ↦ same_number h 4) lineCount).bind
        fun lines _ _ _ h g₄ g₄' hlines ↦
          (same_count h _ _).bind fun captureCount _ _ _ h g₅ g₅' hcount ↦ ?_
      subst hlines hcount
      refine (same_many h same_capture captureCount).bind fun captures _ _ _ h g₆ g₆' hcaptures ↦
        (same_count h _ _).bind fun protoCount _ _ _ h g₇ g₇' hcount ↦ ?_
      subst hcaptures hcount
      refine (alike_many h (fun hij g g' ↦ hij.mono g.evolves g'.evolves) ih protoCount .nil).bind
        fun protos protos' t t' h g₈ g₈' hprotos ↦ ?_
      have g : u.Adds t := (((((((g₁.trans g₂).trans g₃).trans g₄).trans g₅).trans g₆).trans g₇).trans g₈)
      have g' : u'.Adds t' :=
        (((((((g₁'.trans g₂').trans g₃').trans g₄').trans g₅').trans g₆').trans g₇').trans g₈')
      have hcode := Heap.SameCode.allocProto
        (p := ⟨name, arity.toNat, variadic != 0, cellCount, code.toArray, constants.toArray,
          protos.toArray, captures.toArray, lines.toArray⟩)
        (q := ⟨name, arity.toNat, variadic != 0, cellCount, code.toArray, constants'.toArray,
          protos'.toArray, captures.toArray, lines.toArray⟩)
        ⟨rfl, rfl, rfl, rfl, rfl, rfl, rfl,
          hconstants.imp fun _ _ hv ↦ hv.mono g.evolves.toGrows g'.evolves.toGrows, hprotos⟩
      exact .ok ⟨h.exact, h.exact', h.rest⟩ (.allocProto _ _) (.allocProto _ _) hcode

theorem alike_main :
    Alike (fun k k' ↦ k.SameCode n k') s s' (main s) (main s') := by
  refine (same_byte h).bind fun found _ t t' ht _ _ hfound ↦ ?_
  subst hfound
  dsimp only
  split
  · exact .throw ht rfl
  · exact alike_proto ht _

end

end Reader

end MiniLua.Binary

namespace MiniLua

open Effects

/-- A binary chunk holds the same code for any two heaps, or is refused for the same reason. -/
theorem readChunk_uniform {n : Nat} {h h' : Heap} (hh : h.strings.Exact) (hh' : h'.strings.Exact)
    (body : Bytes) :
    Sync (fun _ _ ↦ Eq) (fun k k' ↦ k.strings.Exact ∧ k'.strings.Exact) Heap.Adds
      (fun k k' ↦ k.SameCode n k') h h' (readChunk body h) (readChunk body h') := by
  have hstart : Binary.Source.Twins ⟨h, body⟩ ⟨h', body⟩ := ⟨hh, hh', rfl⟩
  have hmain := Binary.Reader.alike_main (n := n) hstart
  unfold readChunk
  generalize Binary.Reader.main ⟨h, body⟩ = r, Binary.Reader.main ⟨h', body⟩ = r' at hmain
  cases hmain with
  | ok ht hs hs' hij => exact .ok ⟨ht.exact, ht.exact'⟩ hs hs' hij
  | error ht hs hs' he => exact .error ⟨ht.exact, ht.exact'⟩ hs hs' he

end MiniLua
