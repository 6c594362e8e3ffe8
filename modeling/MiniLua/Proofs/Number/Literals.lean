import MiniLua.Proofs.Number.Grammar
import MiniLua.Proofs.Text.Splits

/-!
Numeric strings and literals. The grammar of numbers says exactly which strings are read as numbers,
and a literal of the source language is read as the same number if it comes as a string.
-/

namespace MiniLua.Numeral

/-! ### The bytes of a number -/

/-- A byte that may be in a decimal. -/
def IsPlain (b : UInt8) : Prop := isDigit b ∨ IsMark b ∨ b = 43 ∨ b = 45

theorem IsPlain.range {b : UInt8} (h : IsPlain b) : 43 ≤ b.toNat ∧ b.toNat < 58 ∨ b = 69 ∨ b = 101 := by
  obtain hdigit | (rfl | rfl | rfl) | rfl | rfl := h
  · obtain ⟨hlow, hhigh⟩ := isDigit_iff.mp hdigit
    omega
  all_goals decide

theorem IsPlain.not_blank {b : UInt8} (h : IsPlain b) : isBlank b = false := by
  obtain ⟨hlow, -⟩ | rfl | rfl := h.range
  · exact Lexer.isBlank_of_lt (by omega)
  · rfl
  · rfl

theorem IsPlain.ne_letter {b : UInt8} (h : IsPlain b) {c : Char} (hc : c = 'i' ∨ c = 'n') :
    (Char.ofUInt8 b).toLower ≠ c := by
  obtain ⟨-, hhigh⟩ | rfl | rfl := h.range
  · exact toLower_ne hhigh hc
  all_goals
    obtain rfl | rfl := hc
    all_goals decide

theorem nameless_of_plain {body : Bytes} (h : ∀ b ∈ body, IsPlain b) : Nameless body := by
  intro b hb
  have hplain := h b (List.mem_of_mem_head? hb)
  exact ⟨hplain.ne_letter (.inl rfl), hplain.ne_letter (.inr rfl)⟩

theorem all_plain_iff {body : Bytes} :
    (body.all fun b ↦ isDigit b || hasByte [b] ['.', 'e', 'E', '+', '-']) ↔ ∀ b ∈ body, IsPlain b := by
  have hbyte (b : UInt8) : (isDigit b || hasByte [b] ['.', 'e', 'E', '+', '-']) ↔ IsPlain b := by
    have hinj (c : UInt8) : Char.ofUInt8 b = Char.ofUInt8 c ↔ b = c :=
      ⟨fun h ↦ by rw [← Lexer.toUInt8_ofUInt8 b, h, Lexer.toUInt8_ofUInt8], fun h ↦ h ▸ rfl⟩
    rw [Bool.or_eq_true_iff, hasByte, List.any_cons, List.any_nil, Bool.or_false, List.contains_iff_mem,
      IsPlain, IsMark]
    refine or_congr_right ?_
    simp only [List.mem_cons, List.not_mem_nil, or_false, or_assoc]
    exact or_congr (hinj 46) (or_congr (hinj 101) (or_congr (hinj 69) (or_congr (hinj 43) (hinj 45))))
  rw [List.all_eq_true]
  exact forall₂_congr fun b _ ↦ hbyte b

theorem Spells.plain {text : Bytes} {ds : List Nat} (h : Spells 10 text ds) : ∀ b ∈ text, IsPlain b :=
  fun b hb ↦ .inl (h.digits b hb)

theorem Sign.plain {sign : Bytes} {negative : Bool} (h : Sign sign negative) : ∀ b ∈ sign, IsPlain b := by
  cases h with
  | none => exact List.forall_mem_nil _
  | plus => exact List.forall_mem_singleton.mpr (.inr (.inr (.inl rfl)))
  | minus => exact List.forall_mem_singleton.mpr (.inr (.inr (.inr rfl)))

theorem Magnitude.plain {text : Bytes} {x : Float} (h : Magnitude text x) : ∀ b ∈ text, IsPlain b := by
  obtain ⟨hwhole, hfraction, hexponent, -⟩ := h
  refine List.forall_mem_append.mpr ⟨hwhole.plain, List.forall_mem_append.mpr ⟨?_, ?_⟩⟩
  · cases hfraction with
    | none => exact List.forall_mem_nil _
    | point h => exact List.forall_mem_cons.mpr ⟨.inr (.inl (.inl rfl)), h.plain⟩
  · cases hexponent with
    | none => exact List.forall_mem_nil _
    | mark hmark hsign _ h =>
      exact List.forall_mem_cons.mpr ⟨.inr (.inl (.inr hmark)), List.forall_mem_append.mpr ⟨hsign.plain, h.plain⟩⟩

theorem Decimal.plain {negative : Bool} {text : Bytes} {v : Numeral} (h : Decimal negative text v) :
    ∀ b ∈ text, IsPlain b := by
  cases h with
  | int _ h => exact h.plain
  | float h => exact h.plain

theorem Decimal.ne_nil {negative : Bool} {text : Bytes} {v : Numeral} (h : Decimal negative text v) :
    text ≠ [] := by
  cases h with
  | int hsome => exact hsome
  | float h => exact h.ne_nil

theorem Decimal.unsigned {negative : Bool} {text : Bytes} {v : Numeral} (h : Decimal negative text v) :
    Unsigned text := by
  cases h with
  | int _ h => exact h.unsigned
  | float h =>
    obtain ⟨hwhole, hfraction, -, hsome⟩ := h
    refine unsigned_of_isDigit fun b hb ↦ ?_
    cases hwhole with
    | cons hd _ =>
      cases hb
      exact .inl (Lexer.isDigit_of_digitValue? hd)
    | nil =>
      cases hfraction with
      | none => exact absurd rfl hsome
      | point =>
        cases hb
        exact .inr rfl

theorem Body.unsigned {negative : Bool} {text : Bytes} {v : Numeral} (h : Body negative text v) :
    Unsigned text := by
  cases h with
  | hex => exact unsigned_of_isDigit fun b hb ↦ by cases hb; exact .inl rfl
  | decimal h => exact h.unsigned

theorem not_blank_of_digitValue? {base : Nat} (hbase : base ≤ 36) {b : UInt8} {d : Nat}
    (h : digitValue? base b = some d) : isBlank b = false := by
  refine Lexer.isBlank_of_lt (Nat.lt_of_not_le fun hlow ↦ ?_)
  have hbelow {c : UInt8} (hc : 32 < c.toNat) : ¬ c ≤ b := fun hle ↦
    Nat.not_le_of_lt hc ((UInt8.le_iff_toNat_le.mp hle).trans hlow)
  simp only [digitValue?, Option.ite_none_right_eq_some] at h
  obtain ⟨hvalue, -⟩ := h
  have hdigit : ¬ (48 ≤ b ∧ b ≤ 57) := fun h ↦ hbelow (by decide) h.1
  have hlower : ¬ (97 ≤ b ∧ b ≤ 122) := fun h ↦ hbelow (by decide) h.1
  have hupper : ¬ (65 ≤ b ∧ b ≤ 90) := fun h ↦ hbelow (by decide) h.1
  rw [if_neg hdigit, if_neg hlower, if_neg hupper] at hvalue
  omega

theorem Spells.not_blank {base : Nat} (hbase : base ≤ 36) {text : Bytes} {ds : List Nat}
    (h : Spells base text ds) : ∀ b ∈ text, isBlank b = false := by
  induction h with
  | nil => exact List.forall_mem_nil _
  | cons hd _ ih => exact List.forall_mem_cons.mpr ⟨not_blank_of_digitValue? hbase hd, ih⟩

theorem Body.not_blank {negative : Bool} {text : Bytes} {v : Numeral} (h : Body negative text v) :
    ∀ b ∈ text, isBlank b = false := by
  cases h with
  | decimal h => exact fun b hb ↦ (h.plain b hb).not_blank
  | hex hx _ h =>
    refine List.forall_mem_cons.mpr ⟨rfl, List.forall_mem_cons.mpr ⟨?_, h.not_blank (by decide)⟩⟩
    obtain rfl | rfl := hx <;> rfl

/-! ### Blanks around a number -/

theorem trimmed_cases (bytes : Bytes) : ∃ before after, (∀ b ∈ before, isBlank b) ∧
    (∀ b ∈ after, isBlank b) ∧ bytes = before ++ trimmed bytes ++ after := by
  refine ⟨bytes.takeWhile isBlank, ((bytes.dropWhile isBlank).reverse.takeWhile isBlank).reverse,
    fun _ ↦ List.mem_takeWhile_imp, fun b hb ↦ List.mem_takeWhile_imp (List.mem_reverse.mp hb), ?_⟩
  rw [trimmed, List.append_assoc, ← List.reverse_append, List.takeWhile_append_dropWhile,
    List.reverse_reverse, List.takeWhile_append_dropWhile]

theorem trimmed_append {before text after : Bytes} (hbefore : ∀ b ∈ before, isBlank b)
    (htext : ∀ b ∈ text, isBlank b = false) (hafter : ∀ b ∈ after, isBlank b) :
    trimmed (before ++ text ++ after) = text := by
  have hdrop {text rest : Bytes} (htext : ∀ b ∈ text, isBlank b = false) (hrest : ∀ b ∈ rest, isBlank b) :
      text ≠ [] → (text ++ rest).dropWhile isBlank = text ++ rest := by
    intro hsome
    obtain ⟨b, more, rfl⟩ := List.exists_cons_of_ne_nil hsome
    exact List.dropWhile_cons_of_neg (Bool.eq_false_iff.mp (htext b (List.mem_cons_self ..)))
  rw [trimmed, List.append_assoc, List.dropWhile_append_of_pos hbefore]
  by_cases hsome : text = []
  · subst hsome
    rw [List.nil_append, List.dropWhile_eq_nil_iff.mpr hafter]
    rfl
  · have hreverse : ∀ b ∈ text.reverse, isBlank b = false := fun b hb ↦ htext b (List.mem_reverse.mp hb)
    rw [hdrop htext hafter hsome, List.reverse_append,
      List.dropWhile_append_of_pos fun b hb ↦ hafter b (List.mem_reverse.mp hb)]
    have hlast := hdrop hreverse (List.forall_mem_nil _) (mt List.reverse_eq_nil_iff.mp hsome)
    rw [List.append_nil] at hlast
    rw [hlast, List.reverse_reverse]

/-! ### Numeric strings -/

theorem denotes_of_ofBytes? {bytes : Bytes} {v : Numeral} (h : ofBytes? bytes = some v) :
    Denotes bytes v := by
  obtain ⟨before, after, hbefore, hafter, hbytes⟩ := trimmed_cases bytes
  obtain ⟨sign, hsign, htext⟩ := Sign.of_splitSign (trimmed bytes)
  have hmk {body : Bytes} (hsplit : (splitSign (trimmed bytes)).2 = body)
      (hbody : Body (splitSign (trimmed bytes)).1 body v) : Denotes bytes v := by
    rw [hsplit] at htext
    rw [hbytes, htext]
    exact .mk hbefore hsign hbody hafter
  unfold ofBytes? at h
  dsimp only at h
  split at h
  · next d ds hbody =>
    obtain ⟨i, hi, rfl⟩ := Option.map_eq_some_iff.mp h
    obtain ⟨hsome, values, hvalues, rfl⟩ := hex?_eq_some.mp hi
    exact hmk hbody (.hex (.inl rfl) hsome hvalues)
  · next d ds hbody =>
    obtain ⟨i, hi, rfl⟩ := Option.map_eq_some_iff.mp h
    obtain ⟨hsome, values, hvalues, rfl⟩ := hex?_eq_some.mp hi
    exact hmk hbody (.hex (.inr rfl) hsome hvalues)
  · rw [Option.ite_none_right_eq_some, Option.ite_none_left_eq_some] at h
    obtain ⟨hplain, -, h⟩ := h
    exact hmk rfl (.decimal ((decimal?_eq_some rfl (nameless_of_plain (all_plain_iff.mp hplain))).mp h))

theorem ofBytes?_of_denotes {bytes : Bytes} {v : Numeral} (h : Denotes bytes v) :
    ofBytes? bytes = some v := by
  obtain @⟨_, _, _, _, negative, _, hbefore, hsign, hbody, hafter⟩ := h
  have htext := List.forall_mem_append.mpr ⟨fun b hb ↦ (hsign.plain b hb).not_blank, hbody.not_blank⟩
  have hsplit := hsign.splitSign_append hbody.unsigned
  unfold ofBytes?
  dsimp only
  rw [trimmed_append hbefore htext hafter, hsplit]
  dsimp only
  cases hbody with
  | hex hx hsome h =>
    obtain ⟨d, ds, rfl⟩ := List.exists_cons_of_ne_nil hsome
    have hi := hex?_eq_some.mpr ⟨hsome, _, h, rfl⟩
    obtain rfl | rfl := hx
    all_goals exact congrArg (Option.map fun i ↦ int (if negative then -i else i)) hi
  | decimal h =>
    have hletter {x : UInt8} (hx : x = 120 ∨ x = 88) : ¬ IsPlain x := by
      intro hplain
      have hrange := hplain.range
      obtain rfl | rfl := hx <;> revert hrange <;> decide
    split
    · exact absurd (h.plain 120 (by simp)) (hletter (.inl rfl))
    · exact absurd (h.plain 88 (by simp)) (hletter (.inr rfl))
    · rw [if_pos (all_plain_iff.mpr h.plain), if_neg (mt List.isEmpty_iff.mp h.ne_nil)]
      exact (decimal?_eq_some hsplit (nameless_of_plain h.plain)).mpr h

theorem ofBytes?_eq_some {bytes : Bytes} {v : Numeral} : ofBytes? bytes = some v ↔ Denotes bytes v :=
  ⟨denotes_of_ofBytes?, ofBytes?_of_denotes⟩

/-! ### Literals -/

/-- Literals have no sign, and no blanks around them. -/
theorem body_of_literal? {text : Bytes} {v : Numeral} (hstart : Lexer.startsNumber text)
    (h : literal? text = some v) : Body false text v := by
  unfold literal? at h
  split at h
  · obtain ⟨i, hi, rfl⟩ := Option.map_eq_some_iff.mp h
    obtain ⟨hsome, values, hvalues, rfl⟩ := hex?_eq_some.mp hi
    exact .hex (.inl rfl) hsome hvalues
  · obtain ⟨i, hi, rfl⟩ := Option.map_eq_some_iff.mp h
    obtain ⟨hsome, values, hvalues, rfl⟩ := hex?_eq_some.mp hi
    exact .hex (.inr rfl) hsome hvalues
  · obtain ⟨b, text, rfl, hb⟩ := Lexer.startsNumber_cases hstart
    have hname := Lexer.nameless_of_start hb text
    exact .decimal ((decimal?_eq_some (Lexer.splitSign_cons hb) hname).mp h)

/-- A number token has a text that starts a number and is a literal. -/
theorem literal_of_splits {before source : Bytes} {lexemes : List Lexeme}
    (h : Lexer.Splits before source lexemes) {text : Bytes} (hmem : .number text ∈ lexemes.map Lexeme.token) :
    Lexer.startsNumber text ∧ ∃ v, literal? text = some v := by
  induction h with
  | eof =>
    cases List.mem_singleton.mp hmem
  | token _ _ htext _ ih =>
    obtain heq | hmem := List.mem_cons.mp hmem
    · cases heq
      cases htext with
      | number hstart hliteral => exact ⟨hstart, Option.isSome_iff_exists.mp hliteral⟩
    · exact ih hmem

/-- Numeric strings are the texts of numbers: blanks, a sign, and digits of either base, and what each
of them denotes is what it is read as. A number in a program is one of these texts. What the program
takes it for is what it is read as from a string, with a plus before it too, and with blanks around
it. -/
theorem numerals_agree :
    (∀ bytes v, ofBytes? bytes = some v ↔ Denotes bytes v) ∧
      ∀ source lexemes, tokenize source = .ok lexemes → ∀ text, .number text ∈ lexemes.map Lexeme.token →
        ∃ v, literal? text = some v ∧ ∀ before after, (∀ b ∈ before, isBlank b) → (∀ b ∈ after, isBlank b) →
          ofBytes? (before ++ text ++ after) = some v ∧
            ofBytes? (before ++ 43 :: text ++ after) = some v := by
  refine ⟨fun bytes v ↦ ofBytes?_eq_some, fun source lexemes htokens text hmem ↦ ?_⟩
  obtain ⟨line, rest, -, -, hsplits⟩ := splits_of_tokenize htokens
  obtain ⟨hstart, v, hliteral⟩ := literal_of_splits hsplits hmem
  have hbody := body_of_literal? hstart hliteral
  refine ⟨v, hliteral, fun before after hbefore hafter ↦ ⟨?_, ?_⟩⟩
  · exact ofBytes?_of_denotes (.mk hbefore .none hbody hafter)
  · exact ofBytes?_of_denotes (.mk hbefore .plus hbody hafter)

/-- All bits of a word, in hexadecimal digits. -/
def fullWord : Bytes := Bytes.ofText "0xFFFFFFFFFFFFFFFF"

def fullWordLexemes : List Lexeme :=
  [⟨.name "n", ⟨1, 1⟩⟩, ⟨.symbol .assign, ⟨1, 2⟩⟩, ⟨.number fullWord, ⟨1, 3⟩⟩, ⟨.eof, ⟨1, 21⟩⟩]

theorem numerals_agree_fullWord :
    tokenize (Bytes.ofText "n=" ++ fullWord) = .ok fullWordLexemes ∧
      ofBytes? ([9] ++ fullWord ++ [32, 10]) = some (.int (-1)) ∧
      ofBytes? ([9] ++ 43 :: fullWord ++ [32, 10]) = some (.int (-1)) := by
  have htokens : tokenize (Bytes.ofText "n=" ++ fullWord) = .ok fullWordLexemes := rfl
  have hmem : Token.number fullWord ∈ fullWordLexemes.map Lexeme.token := .tail _ (.tail _ (.head _))
  have hliteral : literal? fullWord = some (.int (-1)) := rfl
  obtain ⟨v, hv, hreads⟩ := numerals_agree.2 _ _ htokens fullWord hmem
  obtain rfl := Option.some.inj (hv.symm.trans hliteral)
  have hbefore : ∀ b ∈ ([9] : Bytes), isBlank b := by simp [isBlank]
  have hafter : ∀ b ∈ ([32, 10] : Bytes), isBlank b := by simp [isBlank]
  exact ⟨htokens, hreads [9] [32, 10] hbefore hafter⟩

end MiniLua.Numeral
