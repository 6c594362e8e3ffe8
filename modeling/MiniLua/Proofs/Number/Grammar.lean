import Mathlib.Data.List.Forall2
import MiniLua.Proofs.Text.Spaced

/-!
The texts of numbers. A grammar says which texts denote a number and which number that is; numeric
strings are read by it, and so are the literals of the source language.
-/

namespace MiniLua.Numeral

/-- Digits of a base, with their values. -/
abbrev Spells (base : Nat) : Bytes → List Nat → Prop :=
  List.Forall₂ fun b d ↦ digitValue? base b = some d

/-- A sign, if there is one; true is minus. -/
inductive Sign : Bytes → Bool → Prop
  | none : Sign [] false
  | plus : Sign [43] false
  | minus : Sign [45] true

/-- A point and the digits behind it, if there are any of these. -/
inductive Fraction : Bytes → List Nat → Prop
  | none : Fraction [] []
  | point {text : Bytes} {ds : List Nat} (h : Spells 10 text ds) : Fraction (46 :: text) ds

def signed (negative : Bool) (n : Nat) : Int := if negative then -(n : Int) else n

/-- A mark and a number with or without a sign. Nothing stands for zero. -/
inductive Exponent : Bytes → Int → Prop
  | none : Exponent [] 0
  | mark {mark : UInt8} {sign text : Bytes} {negative : Bool} {ds : List Nat}
      (hmark : mark = 101 ∨ mark = 69) (hsign : Sign sign negative) (hsome : text ≠ [])
      (h : Spells 10 text ds) : Exponent (mark :: (sign ++ text)) (signed negative (digitsValue 10 ds))

/-- Digits, at least one, with perhaps a point among them and an exponent behind them. The value is the
nearest float. -/
inductive Magnitude : Bytes → Float → Prop
  | mk {whole fraction exponent : Bytes} {ds es : List Nat} {e : Int} (hwhole : Spells 10 whole ds)
      (hfraction : Fraction fraction es) (hexponent : Exponent exponent e) (hsome : ds ++ es ≠ []) :
      Magnitude (whole ++ (fraction ++ exponent)) (scale (ds ++ es) (e - es.length))

/-- A decimal behind its sign: an integer if it has digits only and fits with the sign, and else a
float. -/
inductive Decimal (negative : Bool) : Bytes → Numeral → Prop
  | int {text : Bytes} {ds : List Nat} {i : Int64} (hsome : text ≠ []) (h : Spells 10 text ds)
      (hfits : int64? (signed negative (digitsValue 10 ds)) = some i) : Decimal negative text (.int i)
  | float {text : Bytes} {x : Float} (h : Magnitude text x)
      (hlong : ∀ ds, Spells 10 text ds → int64? (signed negative (digitsValue 10 ds)) = none) :
      Decimal negative text (.float (if negative then -x else x))

/-- A number behind its sign. Of hexadecimal digits the low 64 bits count, and so they do of their
negation. -/
inductive Body (negative : Bool) : Bytes → Numeral → Prop
  | hex {x : UInt8} {text : Bytes} {ds : List Nat} (hx : x = 120 ∨ x = 88) (hsome : text ≠ [])
      (h : Spells 16 text ds) : Body negative (48 :: x :: text)
        (.int (if negative then -Int64.ofNat (digitsValue 16 ds) else Int64.ofNat (digitsValue 16 ds)))
  | decimal {text : Bytes} {v : Numeral} (h : Decimal negative text v) : Body negative text v

/-- A number with or without a sign, and blanks around it. -/
inductive Denotes : Bytes → Numeral → Prop
  | mk {before sign body after : Bytes} {negative : Bool} {v : Numeral}
      (hbefore : ∀ b ∈ before, isBlank b) (hsign : Sign sign negative) (hbody : Body negative body v)
      (hafter : ∀ b ∈ after, isBlank b) : Denotes (before ++ (sign ++ body) ++ after) v

/-! ### Digits -/

theorem mapM_eq_some {base : Nat} {text : Bytes} {ds : List Nat} :
    text.mapM (digitValue? base) = some ds ↔ Spells base text ds := by
  induction text generalizing ds with
  | nil =>
    rw [List.mapM_nil, Spells, List.forall₂_nil_left_iff]
    exact Option.some_inj.trans eq_comm
  | cons b text ih =>
    simp only [List.mapM_cons, Option.bind_eq_bind, Option.bind_eq_some_iff, Option.pure_def,
      Option.some_inj, ih, List.forall₂_cons_left_iff]
    constructor
    · rintro ⟨d, hd, ds, hds, rfl⟩
      exact ⟨d, ds, hd, hds, rfl⟩
    · rintro ⟨d, ds, hd, hds, rfl⟩
      exact ⟨d, hd, ds, hds, rfl⟩

theorem natural?_eq_some {base : Nat} {text : Bytes} {n : Nat} :
    natural? base text = some n ↔ text ≠ [] ∧ ∃ ds, Spells base text ds ∧ digitsValue base ds = n := by
  simp only [natural?, Option.ite_none_left_eq_some, Option.map_eq_some_iff, mapM_eq_some,
    List.isEmpty_iff, ne_eq]

theorem foldl_hex (ds : List Nat) :
    ds.foldl (fun value digit ↦ value * 16 + Int64.ofNat digit) 0 = Int64.ofNat (digitsValue 16 ds) := by
  refine List.foldl_hom Int64.ofNat fun n d ↦ ?_
  rw [Int64.ofNat_add, Int64.ofNat_mul]
  rfl

theorem hex?_eq_some {text : Bytes} {i : Int64} : hex? text = some i ↔
    text ≠ [] ∧ ∃ ds, Spells 16 text ds ∧ Int64.ofNat (digitsValue 16 ds) = i := by
  simp only [hex?, Option.ite_none_left_eq_some, Option.map_eq_some_iff, mapM_eq_some,
    List.isEmpty_iff, ne_eq, foldl_hex]

theorem Spells.digits {text : Bytes} {ds : List Nat} (h : Spells 10 text ds) :
    ∀ b ∈ text, isDigit b := by
  induction h with
  | nil => exact List.forall_mem_nil _
  | cons hb _ ih => exact List.forall_mem_cons.mpr ⟨Lexer.isDigit_of_digitValue? hb, ih⟩

/-! ### Signs -/

theorem Sign.of_splitSign (text : Bytes) :
    ∃ sign, Sign sign (splitSign text).1 ∧ text = sign ++ (splitSign text).2 := by
  unfold splitSign
  split
  · exact ⟨_, .minus, rfl⟩
  · exact ⟨_, .plus, rfl⟩
  · exact ⟨_, .none, rfl⟩

/-- A body starts with no sign. -/
def Unsigned (body : Bytes) : Prop := ∀ b ∈ body.head?, b ≠ 43 ∧ b ≠ 45

theorem Sign.splitSign_append {sign body : Bytes} {negative : Bool} (hsign : Sign sign negative)
    (hbody : Unsigned body) : splitSign (sign ++ body) = (negative, body) := by
  cases hsign with
  | plus | minus => rfl
  | none =>
    rw [List.nil_append]
    unfold splitSign
    split
    · exact absurd rfl (hbody _ rfl).2
    · exact absurd rfl (hbody _ rfl).1
    · rfl

theorem unsigned_of_isDigit {text : Bytes} (h : ∀ b ∈ text.head?, isDigit b ∨ b = 46) : Unsigned text := by
  intro b hb
  obtain ⟨-, hplus, hminus⟩ := Lexer.toNat_of_start (h b hb)
  exact ⟨fun heq ↦ hplus (heq ▸ rfl), fun heq ↦ hminus (heq ▸ rfl)⟩

theorem Spells.unsigned {text : Bytes} {ds : List Nat} (h : Spells 10 text ds) : Unsigned text :=
  unsigned_of_isDigit fun b hb ↦ .inl (h.digits b (List.mem_of_mem_head? hb))

theorem exponent?_eq_some {text : Bytes} {e : Int} : exponent? text = some e ↔ Exponent text e := by
  constructor
  · intro h
    cases text with
    | nil =>
      cases h
      exact .none
    | cons b rest =>
      rw [exponent?, Option.ite_none_right_eq_some] at h
      obtain ⟨hmark, h⟩ := h
      obtain ⟨sign, hsign, hrest⟩ := Sign.of_splitSign rest
      generalize splitSign rest = split at h hsign hrest
      subst hrest
      simp only [Option.map_eq_some_iff, Option.bind_eq_bind, Option.bind_eq_some_iff, Option.pure_def,
        Option.some_inj] at h
      obtain ⟨-, ⟨n, hn, rfl⟩, rfl⟩ := h
      obtain ⟨hsome, ds, hds, rfl⟩ := natural?_eq_some.mp hn
      exact .mark hmark hsign hsome hds
  · rintro (_ | ⟨hmark, hsign, hsome, hds⟩)
    · rfl
    · rw [exponent?, if_pos hmark, hsign.splitSign_append hds.unsigned]
      dsimp only
      rw [natural?_eq_some.mpr ⟨hsome, _, hds, rfl⟩]
      rfl

/-! ### Decimals -/

theorem span_digits {text rest : Bytes} {ds : List Nat} (h : Spells 10 text ds)
    (hrest : ∀ b ∈ rest.head?, isDigit b = false) :
    (text ++ rest).takeWhile isDigit = text ∧ (text ++ rest).dropWhile isDigit = rest := by
  rw [List.takeWhile_append_of_pos h.digits, List.dropWhile_append_of_pos h.digits]
  cases rest with
  | nil => exact ⟨List.append_nil text, rfl⟩
  | cons b rest =>
    have hb := Bool.eq_false_iff.mp (hrest b rfl)
    rw [List.takeWhile_cons_of_neg hb, List.dropWhile_cons_of_neg hb]
    exact ⟨List.append_nil text, rfl⟩

theorem Exponent.head {text : Bytes} {e : Int} (h : Exponent text e) :
    ∀ b ∈ text.head?, isDigit b = false ∧ b ≠ 46 := by
  cases h with
  | none => exact fun b hb ↦ nomatch hb
  | mark hmark =>
    intro b hb
    cases hb
    obtain rfl | rfl := hmark <;> decide

/-- What the parts of a decimal are worth. -/
theorem parts_eq_some {whole fraction exponent : Bytes} {x : Float} :
    (if whole.isEmpty && fraction.isEmpty then none
      else do
        let digits ← (whole ++ fraction).mapM (digitValue? 10)
        let e ← exponent? exponent
        return scale digits (e - fraction.length)) = some x ↔
      ∃ ds es e, Spells 10 whole ds ∧ Spells 10 fraction es ∧ Exponent exponent e ∧ ds ++ es ≠ [] ∧
        scale (ds ++ es) (e - es.length) = x := by
  have hempty {ds es : List Nat} (hds : Spells 10 whole ds) (hes : Spells 10 fraction es) :
      (whole.isEmpty && fraction.isEmpty) = true ↔ ds ++ es = [] := by
    rw [Bool.and_eq_true_iff, List.isEmpty_iff, List.isEmpty_iff, List.append_eq_nil_iff]
    refine and_congr ?_ ?_
    · rw [← List.length_eq_zero_iff, ← List.length_eq_zero_iff, hds.length_eq]
    · rw [← List.length_eq_zero_iff, ← List.length_eq_zero_iff, hes.length_eq]
  simp only [Option.ite_none_left_eq_some, Option.bind_eq_bind, Option.bind_eq_some_iff, Option.pure_def,
    Option.some_inj, exponent?_eq_some]
  constructor
  · rintro ⟨hsome, digits, hdigits, e, he, rfl⟩
    simp only [List.mapM_append, Option.bind_eq_bind, Option.bind_eq_some_iff, Option.pure_def,
      Option.some_inj, mapM_eq_some] at hdigits
    obtain ⟨ds, hds, es, hes, rfl⟩ := hdigits
    refine ⟨ds, es, e, hds, hes, he, mt (hempty hds hes).mpr hsome, ?_⟩
    rw [hes.length_eq]
  · rintro ⟨ds, es, e, hds, hes, he, hsome, rfl⟩
    refine ⟨mt (hempty hds hes).mp hsome, ds ++ es, mapM_eq_some.mpr (List.rel_append hds hes), e, he, ?_⟩
    rw [hes.length_eq]

theorem unsigned?_eq_some {text : Bytes} {x : Float} : unsigned? text = some x ↔ Magnitude text x := by
  constructor
  · intro h
    have hsplit : text.takeWhile isDigit ++ text.dropWhile isDigit = text :=
      List.takeWhile_append_dropWhile
    unfold unsigned? at h
    dsimp only at h
    generalize text.takeWhile isDigit = whole at h hsplit
    generalize text.dropWhile isDigit = rest at h hsplit
    subst hsplit
    split at h
    · next more =>
      obtain ⟨ds, es, e, hds, hes, he, hsome, rfl⟩ := parts_eq_some.mp h
      have hmk := Magnitude.mk hds (.point hes) he hsome
      rwa [List.cons_append, List.takeWhile_append_dropWhile] at hmk
    · obtain ⟨ds, es, e, hds, hes, he, hsome, rfl⟩ := parts_eq_some.mp h
      cases hes
      exact .mk hds .none he hsome
  · rintro ⟨hwhole, hfraction, hexponent, hsome⟩
    unfold unsigned?
    dsimp only
    cases hfraction with
    | none =>
      rw [List.nil_append]
      obtain ⟨htake, hdrop⟩ := span_digits hwhole fun b hb ↦ (hexponent.head b hb).1
      rw [htake, hdrop]
      split
      · next more => exact absurd rfl (hexponent.head 46 rfl).2
      · exact parts_eq_some.mpr ⟨_, _, _, hwhole, .nil, hexponent, hsome, rfl⟩
    | point hes =>
      have hpoint (more : Bytes) : ∀ b ∈ (46 :: more).head?, isDigit b = false := by
        intro b hb
        cases hb
        rfl
      obtain ⟨htake, hdrop⟩ := span_digits hwhole (hpoint _)
      rw [List.cons_append, htake, hdrop]
      split
      · next more heq =>
        obtain rfl := (List.cons.inj heq).2
        obtain ⟨htake, hdrop⟩ := span_digits hes fun b hb ↦ (hexponent.head b hb).1
        rw [htake, hdrop]
        exact parts_eq_some.mpr ⟨_, _, _, hwhole, hes, hexponent, hsome, rfl⟩
      · next hnot => exact absurd rfl (hnot _)

theorem float?_eq_some {text body : Bytes} {negative : Bool} {x : Float}
    (hsplit : splitSign text = (negative, body)) (hname : Nameless body) : float? text = some x ↔
      ∃ y, Magnitude body y ∧ (if negative then -y else y) = x := by
  simp only [float?_eq hsplit hname, Option.map_eq_some_iff, unsigned?_eq_some]

theorem int?_eq_some {text body : Bytes} {negative : Bool} {i : Int64}
    (hsplit : splitSign text = (negative, body)) : int? text = some i ↔
      body ≠ [] ∧ ∃ ds, Spells 10 body ds ∧ int64? (signed negative (digitsValue 10 ds)) = some i := by
  rw [int?, hsplit]
  simp only [Option.bind_eq_some_iff, natural?_eq_some, signed]
  constructor
  · rintro ⟨n, ⟨hsome, ds, hds, rfl⟩, hfits⟩
    exact ⟨hsome, ds, hds, hfits⟩
  · rintro ⟨hsome, ds, hds, hfits⟩
    exact ⟨_, ⟨hsome, ds, hds, rfl⟩, hfits⟩

/-- A byte that shows that a decimal is no integer. -/
def IsMark (b : UInt8) : Prop := b = 46 ∨ b = 101 ∨ b = 69

theorem hasByte_iff {bytes : Bytes} : hasByte bytes ['.', 'e', 'E'] ↔ ∃ b ∈ bytes, IsMark b := by
  have hbyte (b : UInt8) : ['.', 'e', 'E'].contains (Char.ofUInt8 b) ↔ IsMark b := by
    have hinj (c : UInt8) : Char.ofUInt8 b = Char.ofUInt8 c ↔ b = c :=
      ⟨fun h ↦ by rw [← Lexer.toUInt8_ofUInt8 b, h, Lexer.toUInt8_ofUInt8], fun h ↦ h ▸ rfl⟩
    rw [List.contains_iff_mem, List.mem_cons, List.mem_cons, List.mem_singleton]
    exact or_congr (hinj 46) (or_congr (hinj 101) (hinj 69))
  rw [hasByte, List.any_eq_true]
  exact exists_congr fun b ↦ and_congr_right fun _ ↦ hbyte b

theorem Spells.unmarked {text : Bytes} {ds : List Nat} (h : Spells 10 text ds) : ¬ ∃ b ∈ text, IsMark b := by
  rintro ⟨b, hb, hmark⟩
  have hdigit := h.digits b hb
  obtain rfl | rfl | rfl := hmark <;> cases hdigit

theorem Magnitude.ne_nil {text : Bytes} {x : Float} (h : Magnitude text x) : text ≠ [] := by
  obtain ⟨hwhole, hfraction, -, hsome⟩ := h
  intro hempty
  rw [List.append_eq_nil_iff, List.append_eq_nil_iff] at hempty
  obtain ⟨rfl, rfl, -⟩ := hempty
  cases hwhole
  cases hfraction
  exact hsome rfl

theorem decimal?_eq_some {text body : Bytes} {negative : Bool} {v : Numeral}
    (hsplit : splitSign text = (negative, body)) (hname : Nameless body) :
    decimal? text = some v ↔ Decimal negative body v := by
  have hmarks : (∃ b ∈ text, IsMark b) ↔ ∃ b ∈ body, IsMark b := by
    obtain ⟨sign, hsign, htext⟩ := Sign.of_splitSign text
    rw [hsplit] at hsign htext
    subst htext
    cases hsign <;> simp [IsMark]
  have hfloat : (float? text).map float = some v ↔
      ∃ x, Magnitude body x ∧ v = .float (if negative then -x else x) := by
    simp only [Option.map_eq_some_iff, float?_eq_some hsplit hname]
    constructor
    · rintro ⟨_, ⟨x, hx, rfl⟩, rfl⟩
      exact ⟨x, hx, rfl⟩
    · rintro ⟨x, hx, rfl⟩
      exact ⟨_, ⟨x, hx, rfl⟩, rfl⟩
  unfold decimal?
  split
  · next hmarked =>
    rw [hasByte_iff, hmarks] at hmarked
    rw [hfloat]
    constructor
    · rintro ⟨x, hx, rfl⟩
      exact .float hx fun ds hds ↦ absurd hmarked hds.unmarked
    · rintro (⟨-, hds, -⟩ | ⟨hx, -⟩)
      · exact absurd hmarked hds.unmarked
      · exact ⟨_, hx, rfl⟩
  · next hmarked =>
    rw [hasByte_iff, hmarks] at hmarked
    split
    · next i hi =>
      obtain ⟨hsome, ds, hds, hfits⟩ := (int?_eq_some hsplit).mp hi
      rw [Option.some_inj]
      constructor
      · rintro rfl
        exact .int hsome hds hfits
      · rintro (⟨hsome', hds', hfits'⟩ | ⟨-, hlong⟩)
        · have hi' := (int?_eq_some hsplit).mpr ⟨hsome', _, hds', hfits'⟩
          rw [hi, Option.some_inj] at hi'
          rw [hi']
        · exact nomatch (hlong ds hds).symm.trans hfits
    · next hi =>
      rw [hfloat]
      constructor
      · rintro ⟨x, hx, rfl⟩
        refine .float hx fun ds hds ↦ Option.eq_none_iff_forall_ne_some.mpr fun i hfits ↦ ?_
        exact nomatch hi.symm.trans ((int?_eq_some hsplit).mpr ⟨hx.ne_nil, ds, hds, hfits⟩)
      · rintro (⟨hsome, hds, hfits⟩ | ⟨hx, -⟩)
        · exact nomatch hi.symm.trans ((int?_eq_some hsplit).mpr ⟨hsome, _, hds, hfits⟩)
        · exact ⟨_, hx, rfl⟩

end MiniLua.Numeral
