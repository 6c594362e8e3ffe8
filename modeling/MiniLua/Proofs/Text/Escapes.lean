import Mathlib.Data.List.TakeWhile
import MiniLua.Proofs.Text.Scans

/-!
Texts between quotes. What the scanner reads between them stands there, and what stands there is
read, escape by escape, up to the second quote.
-/

namespace MiniLua

theorem isDigit_iff {b : UInt8} : isDigit b ↔ 48 ≤ b.toNat ∧ b.toNat ≤ 57 :=
  Bool.and_eq_true_iff.trans (and_congr (decide_eq_true_iff.trans UInt32.le_iff_toNat_le)
    (decide_eq_true_iff.trans UInt32.le_iff_toNat_le))

end MiniLua

namespace MiniLua.Lexer

/-- What the letters after a backslash denote; a quote, a backslash or a line break denotes
itself. -/
def namedEscapes : List (UInt8 × UInt8) :=
  [(110, 10), (116, 9), (114, 13), (97, 7), (98, 8), (102, 12), (118, 11), (92, 92), (34, 34),
    (39, 39), (10, 10)]

/-- Between quotes: bytes that stand for themselves, and escapes. Digits after a decimal escape of
less than three belong to it. -/
inductive Quoted (quote : UInt8) : Bytes → Bytes → Prop
  | nil : Quoted quote [] []
  | raw {b : UInt8} {text value : Bytes} (hquote : b ≠ quote) (hescape : b ≠ 92) (hbreak : b ≠ 10)
      (h : Quoted quote text value) : Quoted quote (b :: text) (b :: value)
  | named {letter b : UInt8} {text value : Bytes} (hletter : (letter, b) ∈ namedEscapes)
      (h : Quoted quote text value) : Quoted quote (92 :: letter :: text) (b :: value)
  | hex {high low : UInt8} {m n : Nat} {text value : Bytes} (hhigh : digitValue? 16 high = some m)
      (hlow : digitValue? 16 low = some n) (h : Quoted quote text value) :
      Quoted quote (92 :: 120 :: high :: low :: text) ((m * 16 + n).toUInt8 :: value)
  | decimal {digits text value : Bytes} (hsome : digits ≠ []) (hfew : digits.length ≤ 3)
      (hdigits : ∀ d ∈ digits, isDigit d)
      (hends : digits.length = 3 ∨ ∀ b ∈ text.head?, isDigit b = false)
      (hvalue : digitsValue 10 (digits.map fun d ↦ d.toNat - 48) ≤ 255)
      (h : Quoted quote text value) :
      Quoted quote (92 :: (digits ++ text))
        ((digitsValue 10 (digits.map fun d ↦ d.toNat - 48)).toUInt8 :: value)

/-- A quotation mark of either kind. -/
def IsQuote (quote : UInt8) : Prop := quote = 34 ∨ quote = 39

theorem toUInt8_ofUInt8 (b : UInt8) : (Char.ofUInt8 b).toUInt8 = b := UInt8.toUInt8_toUInt32 b

theorem escape_named {letter b : UInt8} (h : (letter, b) ∈ namedEscapes) (rest : Bytes) :
    escape (letter :: rest) = .ok (b, 1) := by
  simp only [namedEscapes, List.mem_cons, Prod.mk.injEq, List.not_mem_nil, or_false] at h
  obtain ⟨rfl, rfl⟩ | ⟨rfl, rfl⟩ | ⟨rfl, rfl⟩ | ⟨rfl, rfl⟩ | ⟨rfl, rfl⟩ | ⟨rfl, rfl⟩ | ⟨rfl, rfl⟩ |
    ⟨rfl, rfl⟩ | ⟨rfl, rfl⟩ | ⟨rfl, rfl⟩ | ⟨rfl, rfl⟩ := h
  all_goals rfl

theorem escape_hex {high low : UInt8} {m n : Nat} (hhigh : digitValue? 16 high = some m)
    (hlow : digitValue? 16 low = some n) (rest : Bytes) :
    escape (120 :: high :: low :: rest) = .ok ((m * 16 + n).toUInt8, 3) := by
  have hletter : escape (120 :: high :: low :: rest) = hexEscape (high :: low :: rest) := rfl
  rw [hletter, hexEscape, hhigh, hlow]

theorem escape_digit {b : UInt8} (hb : isDigit b) (rest : Bytes) :
    escape (b :: rest) = decimalEscape (b :: rest) := by
  have hchar : (Char.ofUInt8 b).isDigit := hb
  have hne {c : Char} (hc : c.isDigit = false) : Char.ofUInt8 b ≠ c := by
    rintro rfl
    rw [hchar] at hc
    cases hc
  unfold escape
  dsimp only
  split
  case h_12 hletter => exact absurd hletter (hne rfl)
  case h_13 => exact if_pos hb
  all_goals
    rename_i hletter
    exact absurd hletter (hne rfl)

/-- The three kinds of escapes. -/
theorem escape_cases {b byte : UInt8} {rest : Bytes} {n : Nat}
    (h : escape (b :: rest) = .ok (byte, n)) :
    n = 1 ∧ (b, byte) ∈ namedEscapes ∨
      (∃ high low more k m, b = 120 ∧ rest = high :: low :: more ∧ digitValue? 16 high = some k ∧
        digitValue? 16 low = some m ∧ byte = (k * 16 + m).toUInt8 ∧ n = 3) ∨
      isDigit b ∧ decimalEscape (b :: rest) = .ok (byte, n) := by
  have hletter {c : Char} (hc : Char.ofUInt8 b = c) : b = c.toUInt8 := by
    rw [← hc, toUInt8_ofUInt8]
  unfold escape at h
  dsimp only at h
  split at h
  case h_12 hx =>
    obtain rfl := hletter hx
    unfold hexEscape at h
    split at h
    · split at h
      · cases h
        exact .inr (.inl ⟨_, _, _, _, _, rfl, rfl, ‹_›, ‹_›, rfl, rfl⟩)
      · cases h
    · cases h
  case h_13 =>
    split at h
    · exact .inr (.inr ⟨‹_›, h⟩)
    · cases h
  all_goals
    rename_i hc
    obtain rfl := hletter hc
    cases h
    exact .inl ⟨rfl, by decide⟩

theorem takeWhile_take {digits rest : Bytes} (hfew : digits.length ≤ 3)
    (hdigits : ∀ d ∈ digits, isDigit d)
    (hends : digits.length = 3 ∨ ∀ b ∈ rest.head?, isDigit b = false) :
    ((digits ++ rest).take 3).takeWhile isDigit = digits := by
  rw [List.take_append, List.take_of_length_le hfew, List.takeWhile_append_of_pos hdigits]
  refine (congrArg (digits ++ ·) ?_).trans (List.append_nil digits)
  obtain hthree | hends := hends
  · rw [hthree]
    rfl
  · cases rest with
    | nil => simp
    | cons b rest =>
      cases 3 - digits.length with
      | zero => rfl
      | succ k => simp [hends b rfl]

theorem digitValue?_digit {b : UInt8} (hb : isDigit b) :
    digitValue? 10 b = some (b.toNat - 48) := by
  obtain ⟨hlow, hhigh⟩ := isDigit_iff.mp hb
  have hrange : 48 ≤ b ∧ b ≤ 57 := by
    rw [UInt8.le_iff_toNat_le, UInt8.le_iff_toNat_le]
    exact ⟨hlow, hhigh⟩
  rw [digitValue?, if_pos hrange, if_pos (by omega)]

theorem filterMap_digits {digits : Bytes} (h : ∀ d ∈ digits, isDigit d) :
    digits.filterMap (digitValue? 10) = digits.map fun d ↦ d.toNat - 48 := by
  induction digits with
  | nil => rfl
  | cons d digits ih =>
    obtain ⟨hd, hdigits⟩ := List.forall_mem_cons.mp h
    rw [List.filterMap_cons_some (digitValue?_digit hd), ih hdigits, List.map_cons]

theorem decimalEscape_of_digits {digits rest : Bytes} (hfew : digits.length ≤ 3)
    (hdigits : ∀ d ∈ digits, isDigit d)
    (hends : digits.length = 3 ∨ ∀ b ∈ rest.head?, isDigit b = false)
    (hvalue : digitsValue 10 (digits.map fun d ↦ d.toNat - 48) ≤ 255) :
    decimalEscape (digits ++ rest) =
      .ok ((digitsValue 10 (digits.map fun d ↦ d.toNat - 48)).toUInt8, digits.length) := by
  rw [decimalEscape, takeWhile_take hfew hdigits hends, filterMap_digits hdigits]
  exact if_pos hvalue

theorem takeWhile_take_ends {bytes digits rest : Bytes}
    (hdigits : (bytes.take 3).takeWhile isDigit = digits) (hbytes : bytes = digits ++ rest) :
    digits.length = 3 ∨ ∀ b ∈ rest.head?, isDigit b = false := by
  have hall : ∀ d ∈ digits, isDigit d := fun d hd ↦ List.mem_takeWhile_imp (hdigits ▸ hd)
  have hfew : digits.length ≤ 3 := by
    rw [← hdigits]
    exact Nat.le_trans (length_takeWhile_le isDigit _) (List.length_take_le 3 bytes)
  obtain hless | hthree := Nat.lt_or_eq_of_le hfew
  · refine .inr fun b hb ↦ Bool.eq_false_iff.mpr fun hdigit ↦ ?_
    obtain ⟨more, rfl⟩ := List.head?_eq_some_iff.mp hb
    rw [hbytes, List.take_append, List.take_of_length_le hfew, List.takeWhile_append_of_pos hall,
      show 3 - digits.length = 2 - digits.length + 1 by omega, List.take_succ_cons,
      List.takeWhile_cons_of_pos hdigit] at hdigits
    simpa using congrArg List.length hdigits
  · exact .inl hthree

/-- The digits a decimal escape is made of. -/
theorem digits_of_decimalEscape {bytes : Bytes} {byte : UInt8} {n : Nat}
    (h : decimalEscape bytes = .ok (byte, n)) : ∃ digits rest, bytes = digits ++ rest ∧
      digits.length = n ∧ digits.length ≤ 3 ∧ (∀ d ∈ digits, isDigit d) ∧
      (digits.length = 3 ∨ ∀ b ∈ rest.head?, isDigit b = false) ∧
      digitsValue 10 (digits.map fun d ↦ d.toNat - 48) ≤ 255 ∧
      byte = (digitsValue 10 (digits.map fun d ↦ d.toNat - 48)).toUInt8 := by
  have hprefix : (bytes.take 3).takeWhile isDigit <+: bytes :=
    (List.takeWhile_prefix isDigit).trans (List.take_prefix 3 bytes)
  obtain ⟨rest, hrest⟩ := hprefix
  have hdigits : ∀ d ∈ (bytes.take 3).takeWhile isDigit, isDigit d := fun _ ↦ List.mem_takeWhile_imp
  have hfew :=
    Nat.le_trans (length_takeWhile_le isDigit (bytes.take 3)) (List.length_take_le 3 bytes)
  rw [decimalEscape, filterMap_digits hdigits] at h
  split at h
  · next hvalue =>
    cases h
    exact ⟨_, rest, hrest.symm, rfl, hfew, hdigits, takeWhile_take_ends rfl hrest.symm, hvalue, rfl⟩
  · cases h

theorem IsQuote.facts {quote : UInt8} (h : IsQuote quote) :
    quote ≠ 10 ∧ quote ≠ 92 ∧ isDigit quote = false := by
  obtain rfl | rfl := h <;> decide

theorem quoted_escaped {quote byte : UInt8} (hquote : IsQuote quote) (used more : Bytes)
    (hescape : escape (used ++ more) = .ok (byte, used.length)) (bound : Nat) (value : Bytes)
    (count : Nat) : quoted quote (bound + 1) value count (92 :: (used ++ more)) =
      quoted quote bound (byte :: value) (count + 1 + used.length) more := by
  rw [quoted, if_neg (by decide), if_neg hquote.facts.2.1.symm, if_pos rfl, hescape]
  dsimp only
  rw [List.drop_left]

/-- What stands between quotes is read up to the second one. -/
theorem quoted_of_text {quote : UInt8} {text value' : Bytes} (hquote : IsQuote quote)
    (h : Quoted quote text value') (rest : Bytes) {bound : Nat} (hbound : text.length < bound)
    (value : Bytes) (count : Nat) : quoted quote bound value count (text ++ quote :: rest) =
      .ok (value.reverse ++ value', count + text.length + 1) := by
  obtain ⟨hbreak, -, hdigit⟩ := hquote.facts
  induction h generalizing bound value count with
  | nil =>
    obtain ⟨bound, rfl⟩ := Nat.exists_eq_succ_of_ne_zero (Nat.ne_zero_of_lt hbound)
    rw [List.nil_append, quoted, if_neg hbreak, if_pos rfl, List.append_nil]
    rfl
  | @raw b text value' hb hb' hb'' _ ih =>
    obtain ⟨bound, rfl⟩ := Nat.exists_eq_succ_of_ne_zero (Nat.ne_zero_of_lt hbound)
    rw [List.cons_append, quoted, if_neg hb'', if_neg hb, if_neg hb',
      ih (Nat.lt_of_succ_lt_succ hbound), List.reverse_cons, List.append_assoc, List.length_cons]
    congr 2
    omega
  | @named letter b text value' hletter _ ih =>
    obtain ⟨bound, rfl⟩ := Nat.exists_eq_succ_of_ne_zero (Nat.ne_zero_of_lt hbound)
    simp only [List.length_cons] at hbound
    refine (quoted_escaped hquote [letter] (text ++ quote :: rest) (escape_named hletter _) bound
      value count).trans ?_
    rw [ih (by omega), List.reverse_cons, List.append_assoc]
    simp only [List.length_cons, List.length_nil]
    congr 2
    omega
  | @hex high low m n text value' hhigh hlow _ ih =>
    obtain ⟨bound, rfl⟩ := Nat.exists_eq_succ_of_ne_zero (Nat.ne_zero_of_lt hbound)
    simp only [List.length_cons] at hbound
    refine (quoted_escaped hquote [120, high, low] (text ++ quote :: rest) (escape_hex hhigh hlow _)
      bound value count).trans ?_
    rw [ih (by omega), List.reverse_cons, List.append_assoc]
    simp only [List.length_cons, List.length_nil]
    congr 2
    omega
  | @decimal digits text value' hsome hfew hdigits hends hvalue _ ih =>
    obtain ⟨bound, rfl⟩ := Nat.exists_eq_succ_of_ne_zero (Nat.ne_zero_of_lt hbound)
    rw [List.length_cons, List.length_append] at hbound
    have hends' : digits.length = 3 ∨ ∀ b ∈ (text ++ quote :: rest).head?, isDigit b = false := by
      refine hends.imp_right fun hends ↦ ?_
      cases text with
      | nil =>
        rintro b ⟨⟩
        exact hdigit
      | cons c text => exact hends
    have hescape := decimalEscape_of_digits hfew hdigits hends' hvalue
    obtain ⟨d, more, rfl⟩ := List.exists_cons_of_ne_nil hsome
    rw [List.cons_append, ← escape_digit (hdigits d List.mem_cons_self)] at hescape
    rw [List.cons_append, List.append_assoc, quoted_escaped hquote _ _ hescape, ih (by omega),
      List.reverse_cons, List.append_assoc]
    simp only [List.length_cons, List.length_append]
    congr 2
    omega

/-- An escape that was read can be put before what was read after it. -/
theorem exists_escaped (quote : UInt8) {byte : UInt8} {bytes : Bytes} {n : Nat}
    (h : escape bytes = .ok (byte, n)) : ∃ used more, bytes = used ++ more ∧ used.length = n ∧
      ∀ text value rest, more = text ++ quote :: rest → Quoted quote text value →
        Quoted quote (92 :: (used ++ text)) (byte :: value) := by
  cases bytes with
  | nil => cases h
  | cons c bytes =>
    obtain ⟨rfl, hletter⟩ | ⟨high, low, more, m, m', rfl, rfl, hhigh, hlow, rfl, rfl⟩ |
      ⟨hdigit, hdecimal⟩ := escape_cases h
    · exact ⟨[c], bytes, rfl, rfl, fun _ _ _ _ ↦ .named hletter⟩
    · exact ⟨[120, high, low], more, rfl, rfl, fun _ _ _ _ ↦ .hex hhigh hlow⟩
    · obtain ⟨digits, more, hbytes, rfl, hfew, hdigits, hends, hvalue, rfl⟩ :=
        digits_of_decimalEscape hdecimal
      refine ⟨digits, more, hbytes, rfl, fun text value rest hmore ↦
        .decimal ?_ hfew hdigits ?_ hvalue⟩
      · rintro rfl
        obtain rfl : c :: bytes = more := hbytes
        simp [hdigit] at hends
      · refine hends.imp_right fun hends b hb ↦ hends b ?_
        obtain ⟨others, rfl⟩ := List.head?_eq_some_iff.mp hb
        rw [hmore]
        rfl

/-- What was read between quotes stands there. -/
theorem text_of_quoted {quote : UInt8} {bound count n : Nat} {value bytes value' : Bytes}
    (h : quoted quote bound value count bytes = .ok (value', n)) : ∃ text found rest,
      bytes = text ++ quote :: rest ∧ Quoted quote text found ∧ value' = value.reverse ++ found ∧
        n = count + text.length + 1 := by
  induction bound generalizing value count bytes with
  | zero => cases h
  | succ bound ih =>
    cases bytes with
    | nil => cases h
    | cons b bytes =>
      rw [quoted] at h
      split at h
      · cases h
      next hbreak =>
      split at h
      · next hquote =>
        cases h
        exact ⟨[], [], bytes, hquote ▸ rfl, .nil, (List.append_nil _).symm, rfl⟩
      next hquote =>
      split at h
      · next hescape =>
        cases hread : escape bytes with
        | error e =>
          rw [hread] at h
          cases h
        | ok read =>
          rw [hread] at h
          obtain ⟨used, more, rfl, hused, hescaped⟩ := exists_escaped quote hread
          dsimp only at h
          rw [← hused, List.drop_left] at h
          obtain ⟨text, found, rest, rfl, hfound, rfl, rfl⟩ := ih h
          refine ⟨92 :: (used ++ text), read.1 :: found, rest, ?_,
            hescaped text found rest rfl hfound, ?_, ?_⟩
          · rw [hescape, List.cons_append, List.append_assoc]
          · rw [List.reverse_cons, List.append_assoc]
            rfl
          · rw [List.length_cons, List.length_append]
            omega
      · next hescape =>
        obtain ⟨text, found, rest, rfl, hfound, rfl, rfl⟩ := ih h
        refine ⟨b :: text, b :: found, rest, rfl, .raw hquote hescape hbreak hfound, ?_, ?_⟩
        · rw [List.reverse_cons, List.append_assoc]
          rfl
        · rw [List.length_cons]
          omega

/-- Every string can be written between quotes. -/
theorem exists_quoted {quote : UInt8} (hquote : IsQuote quote) (value : Bytes) :
    ∃ text, Quoted quote text value := by
  induction value with
  | nil => exact ⟨[], .nil⟩
  | cons b value ih =>
    obtain ⟨text, htext⟩ := ih
    by_cases hb : b = quote ∨ b = 92 ∨ b = 10
    · refine ⟨92 :: b :: text, .named ?_ htext⟩
      obtain rfl | rfl | rfl := hb
      · obtain rfl | rfl := hquote <;> decide
      · decide
      · decide
    · obtain ⟨hb, hescape, hbreak⟩ := (not_or.trans (and_congr_right' not_or)).mp hb
      exact ⟨b :: text, .raw hb hescape hbreak htext⟩

end MiniLua.Lexer
