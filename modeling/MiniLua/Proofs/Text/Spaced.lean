import Mathlib.Data.List.Forall2
import MiniLua.Proofs.Text.Spelling

/-!
Tokens that are written with a space before each of them, however each is written, are the tokens
that the scanner finds.
-/

namespace MiniLua.Lexer

theorem isBlank_of_lt {b : UInt8} (h : 32 < b.toNat) : isBlank b = false := by
  have hspace : b ≠ 32 := by
    rintro rfl
    exact absurd h (by decide)
  have hlow : ¬ b ≤ 13 := by
    rw [UInt8.le_iff_toNat_le]
    exact Nat.not_le_of_lt (Nat.lt_trans (by decide) h)
  simp [isBlank, hspace, hlow]

theorem Scans.of_gap {c : Cursor} {n : Nat} {r : Except SyntaxError (List Lexeme)}
    (hgap : Lexer.gap c.rest = .ok (n + 1)) (h : Scans c r) : Scans (c.advance (n + 1)) r := by
  cases h with
  | done hrest =>
    rw [hrest] at hgap
    cases hgap
  | gap hgap' _ _ hr =>
    cases hgap.symm.trans hgap'
    exact hr
  | token hgap' => cases hgap.symm.trans hgap'
  | badGap hgap' => cases hgap.symm.trans hgap'
  | badToken hgap' => cases hgap.symm.trans hgap'

theorem Scans.of_token {c : Cursor} {t : Token} {n : Nat} {r : Except SyntaxError (List Lexeme)}
    (hgap : Lexer.gap c.rest = .ok 0) (hrest : c.rest ≠ [])
    (htoken : ∀ bound, c.rest.length ≤ bound → Lexer.token bound c.rest = .ok (t, n))
    (h : Scans c r) :
    ∃ r', Scans (c.advance n) r' ∧ r = r'.map (⟨t, c.pos⟩ :: ·) := by
  have htoken := htoken _ (Nat.le_refl _)
  cases h with
  | done hrest' => exact absurd hrest' hrest
  | gap hgap' hpos =>
    cases hgap.symm.trans hgap'
    cases hpos
  | token _ htoken' _ _ _ hr =>
    cases htoken.symm.trans (htoken' _ (Nat.le_refl _))
    exact ⟨_, hr, rfl⟩
  | badGap hgap' => cases hgap.symm.trans hgap'
  | badToken _ htoken' => cases htoken.symm.trans (htoken' _ (Nat.le_refl _))

theorem Scans.of_nil {c : Cursor} {r : Except SyntaxError (List Lexeme)} (hrest : c.rest = [])
    (h : Scans c r) : r = .ok [⟨.eof, c.pos⟩] := by
  cases h with
  | done => rfl
  | gap _ hpos hle =>
    rw [hrest] at hle
    exact absurd hle (Nat.not_le_of_lt hpos)
  | token _ _ _ hpos hle =>
    rw [hrest] at hle
    exact absurd hle (Nat.not_le_of_lt hpos)
  | badGap hgap =>
    rw [hrest] at hgap
    cases hgap
  | badToken _ htoken =>
    have htoken := htoken _ (Nat.le_refl _)
    rw [hrest] at htoken
    cases htoken

/-- A token starts with no blank, and the only one that starts with a dash is the dash. -/
theorem Written.starts {text : Bytes} {t : Token} (h : Written text t) :
    ∃ b more, text = b :: more ∧ isBlank b = false ∧ (b = 45 → more = []) := by
  have hname {text : Bytes} (h : IsName text) :
      ∃ b more, text = b :: more ∧ isBlank b = false ∧ (b = 45 → more = []) := by
    obtain ⟨b, more, rfl, hb, -⟩ := h
    refine ⟨b, more, rfl, ?_, ?_⟩
    · rw [isNameStart_iff] at hb
      exact isBlank_of_lt (by omega)
    · rintro rfl
      cases hb
  cases h with
  | number hstart =>
    obtain ⟨b, more, rfl, hb⟩ := startsNumber_cases hstart
    obtain ⟨-, -, hdash⟩ := toNat_of_start hb
    refine ⟨b, more, rfl, ?_, fun hdash' ↦ absurd (congrArg UInt8.toNat hdash') hdash⟩
    obtain hdigit | rfl := hb
    · obtain ⟨hlow, -⟩ := isDigit_iff.mp hdigit
      exact isBlank_of_lt (by omega)
    · rfl
  | name h => exact hname h
  | keyword word => exact hname (isName_keyword word)
  | symbol mark => cases mark <;> exact ⟨_, _, rfl, by decide, by decide⟩
  | quoted hquote =>
    obtain rfl | rfl := hquote
    all_goals exact ⟨_, _, rfl, by decide, fun hdash ↦ absurd hdash (by decide)⟩
  | long h =>
    cases h
    exact ⟨_, _, rfl, by decide, fun hdash ↦ absurd hdash (by decide)⟩

/-- Nothing is skipped before a token. -/
theorem gap_of_written {text rest : Bytes} {t : Token} (h : Written text t)
    (hrest : Separated rest) : gap (text ++ rest) = .ok 0 := by
  obtain ⟨b, more, rfl, hblank, hdash⟩ := h.starts
  rw [List.cons_append]
  unfold gap
  split
  · next heq =>
    obtain ⟨rfl, hmore⟩ := List.cons.inj heq
    rw [hdash rfl, List.nil_append] at hmore
    obtain rfl | ⟨others, rfl⟩ := hrest <;> cases hmore
  · rw [List.takeWhile_cons_of_neg (Bool.eq_false_iff.mp hblank)]
    rfl

/-- One space is skipped before a token. -/
theorem gap_space {rest : Bytes} (h : ∀ b ∈ rest.head?, isBlank b = false) :
    gap (32 :: rest) = .ok 1 := by
  have hblank : isBlank 32 = true := by decide
  cases rest with
  | nil => rfl
  | cons b rest =>
    have hgap : gap (32 :: b :: rest) = .ok ((32 :: b :: rest).takeWhile isBlank).length := rfl
    rw [hgap, List.takeWhile_cons_of_pos hblank,
      List.takeWhile_cons_of_neg (Bool.eq_false_iff.mp (h b rfl))]
    rfl

/-- After a space, the token that is written there comes first. -/
theorem Scans.of_written {c : Cursor} {text rest : Bytes} {t : Token} (ht : Written text t)
    (hrest : Separated rest) (hsplit : c.rest = 32 :: (text ++ rest))
    {r : Except SyntaxError (List Lexeme)} (h : Scans c r) :
    ∃ pos c' r', c'.rest = rest ∧ Scans c' r' ∧ r = r'.map (⟨t, pos⟩ :: ·) := by
  obtain ⟨b, more, htext, hblank, -⟩ := ht.starts
  have hspace : Lexer.gap c.rest = .ok 1 := by
    rw [hsplit, htext]
    refine gap_space fun x hx ↦ ?_
    cases hx
    exact hblank
  have hafter : (c.advance 1).rest = text ++ rest := by
    rw [Cursor.advance, hsplit]
    rfl
  have hgap : Lexer.gap (c.advance 1).rest = .ok 0 := by
    rw [hafter]
    exact gap_of_written ht hrest
  have hsome : (c.advance 1).rest ≠ [] := by
    rw [hafter, htext]
    exact List.cons_ne_nil _ _
  have htoken (bound : Nat) (hbound : (c.advance 1).rest.length ≤ bound) :
      Lexer.token bound (c.advance 1).rest = .ok (t, text.length) := by
    rw [hafter] at hbound ⊢
    exact token_of_written hrest ht hbound
  obtain ⟨r', hr', heq⟩ := (h.of_gap hspace).of_token hgap hsome htoken
  exact ⟨_, _, r', (congrArg (List.drop text.length) hafter).trans List.drop_left, hr', heq⟩

/-- The texts with a space before each. -/
def spaced (texts : List Bytes) : Bytes := texts.flatMap (32 :: ·)

theorem separated_spaced (texts : List Bytes) : Separated (spaced texts) := by
  cases texts with
  | nil => exact .inl rfl
  | cons text texts => exact .inr ⟨_, rfl⟩

theorem scans_spaced {texts : List Bytes} {tokens : List Token}
    (h : List.Forall₂ Written texts tokens) {c : Cursor} (hrest : c.rest = spaced texts)
    {r : Except SyntaxError (List Lexeme)} (hr : Scans c r) :
    ∃ lexemes, r = .ok lexemes ∧ lexemes.map Lexeme.token = tokens ++ [.eof] := by
  induction h generalizing c r with
  | nil => exact ⟨_, hr.of_nil hrest, rfl⟩
  | cons ht _ ih =>
    obtain ⟨pos, c', r, hrest', hr', rfl⟩ := hr.of_written ht (separated_spaced _) hrest
    obtain ⟨lexemes, rfl, hlexemes⟩ := ih hrest' hr'
    exact ⟨_, rfl, congrArg (_ :: ·) hlexemes⟩

theorem intercalate_eq (text : Bytes) (texts : List Bytes) :
    List.intercalate [32] (text :: texts) = text ++ spaced texts := by
  induction texts generalizing text with
  | nil => exact List.intercalate_singleton.trans (List.append_nil text).symm
  | cons text' texts ih =>
    rw [List.intercalate_cons_cons, ih, List.append_assoc]
    rfl

end MiniLua.Lexer

namespace MiniLua

open Lexer

/-- Tokens survive being written: with a space before each, the scanner finds them again. -/
theorem tokenize_spaced {texts : List Bytes} {tokens : List Token}
    (h : List.Forall₂ Written texts tokens) :
    ∃ lexemes, tokenize (32 :: List.intercalate [32] texts) = .ok lexemes ∧
      lexemes.map Lexeme.token = tokens ++ [.eof] := by
  cases h with
  | nil => exact ⟨[⟨.eof, ⟨1, 2⟩⟩], rfl, rfl⟩
  | cons ht htexts =>
    rw [intercalate_eq]
    exact scans_spaced (.cons ht htexts) rfl (scans_tokenize _)

/-- A string that holds a closing bracket of another level, and one with each kind of escape. -/
def sampleTexts : List Bytes :=
  [Bytes.ofText "s1", Bytes.ofText "..", Bytes.ofText "[=[\n]]]=]", Bytes.ofText "-",
    Bytes.ofText "'a\\n\\x41\\0427'", Bytes.ofText ".5e-1", Bytes.ofText "end"]

def sampleTokens : List Token :=
  [.name "s1", .symbol .concat, .string [93, 93], .symbol .minus, .string [97, 10, 65, 42, 55],
    .number (Bytes.ofText ".5e-1"), .keyword .kwEnd]

theorem written_sampleTexts : List.Forall₂ Written sampleTexts sampleTokens := by
  have hbracket : Bytes.ofText "[=[\n]]]=]" = opened 1 ([10] ++ ([93, 93] ++ closing 1)) := by
    decide
  have hunclosed : Unclosed 1 [93, 93] :=
    unclosed_cons.mpr ⟨by decide, unclosed_cons.mpr ⟨by decide, unclosed_nil 1⟩⟩
  have hescapes : Quoted 39 [97, 92, 110, 92, 120, 52, 49, 92, 48, 52, 50, 55]
      [97, 10, 65, 42, 55] := by
    have hdigits : ∀ d ∈ ([48, 52, 50] : Bytes), isDigit d := List.all_eq_true.mp rfl
    refine .raw (by decide) (by decide) (by decide) (.named (by decide) ?_)
    refine .hex (m := 4) (n := 1) rfl rfl (.decimal (by decide) (by decide) hdigits (.inl rfl) ?_ ?_)
    · decide
    · exact .raw (by decide) (by decide) (by decide) .nil
  refine .cons ?_ (.cons (.symbol .concat) (.cons ?_ (.cons (.symbol .minus)
    (.cons (.quoted (.inr rfl) hescapes) (.cons ?_ (.cons (.keyword .kwEnd) .nil))))))
  · exact .name ⟨_, _, rfl, rfl, List.all_eq_true.mp rfl⟩ (by decide)
  · rw [hbracket]
    exact .long (.mk .feed hunclosed)
  · exact .number (by decide) (by decide)

theorem tokenize_sampleTexts : ∃ lexemes,
    tokenize (32 :: List.intercalate [32] sampleTexts) = .ok lexemes ∧
      lexemes.map Lexeme.token = sampleTokens ++ [.eof] :=
  tokenize_spaced written_sampleTexts

end MiniLua
