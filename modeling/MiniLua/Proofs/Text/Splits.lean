import MiniLua.Proofs.Text.Spelling

/-!
What the scanner makes of a whole text: it is cut into tokens and what stands between them, with no
byte left out, and every token is at the place that the bytes before it lead to.
-/

namespace MiniLua

/-- The place after this text. Lines are counted by their breaks, columns from the last of these. -/
def placeAfter (before : Bytes) : Position :=
  ⟨1 + before.count 10, 1 + (before.reverse.takeWhile (· != 10)).length⟩

theorem after_placeAfter (before : Bytes) (b : UInt8) :
    (placeAfter before).after b = placeAfter (before ++ [b]) := by
  rw [Position.after, placeAfter, placeAfter, List.count_append, List.reverse_append]
  split
  · next hbreak =>
    subst hbreak
    rfl
  · next hbreak =>
    have hkept : ([b].reverse ++ before.reverse).takeWhile (· != 10) =
        b :: before.reverse.takeWhile (· != 10) :=
      List.takeWhile_cons_of_pos (bne_iff_ne.mpr hbreak)
    rw [hkept, List.count_singleton, if_neg (mt beq_iff_eq.mp hbreak), List.length_cons]
    rfl

theorem afterAll_placeAfter (before text : Bytes) :
    (placeAfter before).afterAll text = placeAfter (before ++ text) := by
  induction text generalizing before with
  | nil => rw [List.append_nil, Position.afterAll, List.foldl_nil]
  | cons b text ih =>
    have hfirst : (placeAfter before).afterAll (b :: text) =
        ((placeAfter before).after b).afterAll text := rfl
    rw [hfirst, after_placeAfter, ih, List.append_assoc, List.singleton_append]

end MiniLua

namespace MiniLua.Lexer

/-- The end of the text, or of a line. -/
def EndsLine (rest : Bytes) : Prop := ∀ b ∈ rest.head?, b = 10

/-- What may stand before `rest` and belong to no token: blanks, comments to the end of a line, and
comments in long brackets. -/
inductive Trivia (rest : Bytes) : Bytes → Prop
  | nil : Trivia rest []
  | blank {b : UInt8} {text : Bytes} (hb : isBlank b) (h : Trivia rest text) :
      Trivia rest (b :: text)
  | line {comment text : Bytes} (hcomment : 10 ∉ comment)
      (hopened : ∀ level body, comment ≠ opened level body) (hends : EndsLine (text ++ rest))
      (h : Trivia rest text) : Trivia rest (45 :: 45 :: (comment ++ text))
  | long {comment value text : Bytes} (hcomment : LongBracket comment value)
      (h : Trivia rest text) : Trivia rest (45 :: 45 :: (comment ++ text))

theorem Trivia.append {first second rest : Bytes} (hfirst : Trivia (second ++ rest) first)
    (hsecond : Trivia rest second) : Trivia rest (first ++ second) := by
  induction hfirst with
  | nil => exact hsecond
  | blank hb _ ih => exact .blank hb ih
  | @line comment text hcomment hopened hends _ ih =>
    rw [List.cons_append, List.cons_append, List.append_assoc]
    refine .line hcomment hopened ?_ ih
    rwa [List.append_assoc]
  | long hcomment _ ih =>
    rw [List.cons_append, List.cons_append, List.append_assoc]
    exact .long hcomment ih

theorem trivia_blanks {blanks : Bytes} (h : ∀ b ∈ blanks, isBlank b) (rest : Bytes) :
    Trivia rest blanks := by
  induction blanks with
  | nil => exact .nil
  | cons b blanks ih =>
    obtain ⟨hb, hblanks⟩ := List.forall_mem_cons.mp h
    exact .blank hb (ih hblanks)

/-- The bytes up to the end of the line. -/
theorem exists_line (bytes : Bytes) : ∃ line rest, bytes = line ++ rest ∧
    line = bytes.takeWhile (· != 10) ∧ 10 ∉ line ∧ EndsLine rest := by
  refine ⟨_, _, List.takeWhile_append_dropWhile.symm, rfl, fun hmem ↦ ?_, fun b hb ↦ ?_⟩
  · exact absurd (List.mem_takeWhile_imp hmem) (by decide)
  · have hnot := List.head?_dropWhile_not (· != 10) bytes
    rw [Option.mem_def.mp hb] at hnot
    simpa using hnot

theorem comment_opened (level : Nat) (body : Bytes) : comment (45 :: 45 :: opened level body) =
    (longBracket level "comment" (opened level body)).map fun p ↦ p.2 + 2 := by
  have hlevel : longLevel? (List.replicate level 61 ++ 91 :: body) = some level :=
    longLevel?_eq_some.mpr ⟨body, rfl⟩
  have hdrop : (45 :: 45 :: opened level body).drop 2 = opened level body := rfl
  rw [comment, hdrop]
  split
  · next rest hrest =>
    obtain rfl := (List.cons.inj hrest).2
    rw [hlevel]
    rfl
  · next hnot => exact absurd rfl (hnot _)

theorem comment_line {bytes : Bytes} (h : ∀ level body, bytes ≠ opened level body) :
    comment (45 :: 45 :: bytes) = .ok (2 + (bytes.takeWhile (· != 10)).length) := by
  have hdrop : (45 :: 45 :: bytes).drop 2 = bytes := rfl
  rw [comment, hdrop]
  split
  · next rest =>
    split
    · next level hlevel =>
      obtain ⟨body, rfl⟩ := longLevel?_eq_some.mp hlevel
      exact absurd rfl (h level body)
    · rfl
  · rfl

theorem trivia_of_comment {bytes : Bytes} {n : Nat} (h : comment (45 :: 45 :: bytes) = .ok n) :
    ∃ text rest, 45 :: 45 :: bytes = text ++ rest ∧ text.length = n ∧ Trivia rest text := by
  by_cases hopened : ∃ level body, bytes = opened level body
  · obtain ⟨level, body, rfl⟩ := hopened
    rw [comment_opened] at h
    obtain ⟨⟨value, m⟩, hread, rfl⟩ := map_eq_ok h
    obtain ⟨text, rest, hbytes, rfl, hlong⟩ := text_of_longBracket hread
    refine ⟨45 :: 45 :: (text ++ []), rest, ?_, ?_, .long hlong .nil⟩
    · rw [hbytes, List.append_nil]
      rfl
    · rw [List.append_nil]
      rfl
  · simp only [not_exists] at hopened
    rw [comment_line hopened] at h
    cases h
    obtain ⟨line, rest, hbytes, hline, hbreak, hends⟩ := exists_line bytes
    refine ⟨45 :: 45 :: (line ++ []), rest, ?_, ?_, .line hbreak ?_ hends .nil⟩
    · rw [hbytes, List.append_nil]
      rfl
    · rw [← hline, List.append_nil, List.length_cons, List.length_cons, Nat.add_comm 2]
    · rintro level body rfl
      exact hopened level (body ++ rest) (hbytes.trans (opened_append level body rest))

/-- What is taken for a gap belongs to no token. -/
theorem trivia_of_gap {bytes : Bytes} {n : Nat} (h : gap bytes = .ok n) :
    ∃ text rest, bytes = text ++ rest ∧ text.length = n ∧ Trivia rest text := by
  unfold gap at h
  split at h
  · exact trivia_of_comment h
  · cases h
    exact ⟨_, _, List.takeWhile_append_dropWhile.symm, rfl,
      trivia_blanks (fun _ ↦ List.mem_takeWhile_imp) _⟩

/-- A text after `before`, cut into its tokens and what stands before each of them. -/
inductive Splits : Bytes → Bytes → List Lexeme → Prop
  | eof {before trivia : Bytes} (htrivia : Trivia [] trivia) :
      Splits before trivia [⟨.eof, placeAfter (before ++ trivia)⟩]
  | token {before trivia text rest : Bytes} {t : Token} {lexemes : List Lexeme}
      (htrivia : Trivia (text ++ rest) trivia) (hsome : text ≠ []) (htext : Written text t)
      (h : Splits (before ++ trivia ++ text) rest lexemes) :
      Splits before (trivia ++ (text ++ rest)) (⟨t, placeAfter (before ++ trivia)⟩ :: lexemes)

theorem Splits.gap {before trivia rest : Bytes} {lexemes : List Lexeme}
    (htrivia : Trivia rest trivia) (h : Splits (before ++ trivia) rest lexemes) :
    Splits before (trivia ++ rest) lexemes := by
  cases h with
  | eof hmore =>
    rw [List.append_assoc]
    refine .eof (Trivia.append ?_ hmore)
    rwa [List.append_nil]
  | token hmore hsome htext h =>
    rw [List.append_assoc, ← List.append_assoc trivia]
    refine .token (Trivia.append htrivia hmore) hsome htext ?_
    rwa [← List.append_assoc]

theorem advance_placeAfter {c : Cursor} {before text rest : Bytes} (hpos : c.pos = placeAfter before)
    (hrest : c.rest = text ++ rest) :
    c.advance text.length = ⟨rest, placeAfter (before ++ text)⟩ := by
  rw [Cursor.advance, hpos, hrest, List.drop_left, List.take_left, afterAll_placeAfter]

theorem splits_of_scans {c : Cursor} {r : Except SyntaxError (List Lexeme)} (h : Scans c r)
    {before : Bytes} (hpos : c.pos = placeAfter before) {lexemes : List Lexeme}
    (hr : r = .ok lexemes) : Splits before c.rest lexemes := by
  induction h generalizing before lexemes with
  | @done c hrest =>
    cases hr
    have heof : Splits before [] [⟨.eof, placeAfter (before ++ [])⟩] := .eof .nil
    rwa [List.append_nil, ← hpos, ← hrest] at heof
  | @gap c n r hgap _ _ _ ih =>
    obtain ⟨text, rest, hrest, rfl, htrivia⟩ := trivia_of_gap hgap
    rw [advance_placeAfter hpos hrest] at ih
    rw [hrest]
    exact (ih rfl hr).gap htrivia
  | @token c t n r _ htoken _ hn hle _ ih =>
    obtain ⟨lexemes, rfl, rfl⟩ := map_eq_ok hr
    have hsome : c.rest ≠ [] := List.length_pos_iff.mp (Nat.lt_of_lt_of_le hn hle)
    obtain ⟨text, rest, hrest, rfl, hwritten⟩ := written_of_token hsome (htoken _ (Nat.le_refl _))
    rw [advance_placeAfter hpos hrest] at ih
    have hafter : Splits (before ++ [] ++ text) rest lexemes := by
      rw [List.append_nil]
      exact ih rfl rfl
    have hsplit := hafter.token .nil (List.length_pos_iff.mp hn) hwritten
    rwa [List.append_nil, ← hpos, List.nil_append, ← hrest] at hsplit
  | badGap => cases hr
  | badToken => cases hr

/-- The first line, if it starts with a hash sign. -/
inductive HashLine : Bytes → Bytes → Prop
  | none {rest : Bytes} (h : rest.head? ≠ some 35) : HashLine [] rest
  | line {line rest : Bytes} (hline : 10 ∉ line) (hends : EndsLine rest) :
      HashLine (35 :: line) rest

theorem withoutHashLine_cases (source : Bytes) : ∃ line rest, source = line ++ rest ∧
    HashLine line rest ∧ withoutHashLine source = ⟨rest, placeAfter line⟩ := by
  unfold withoutHashLine
  dsimp only
  split
  · next more =>
    obtain ⟨line, rest, rfl, hline, hbreak, hends⟩ := exists_line more
    refine ⟨35 :: line, rest, rfl, .line hbreak hends, ?_⟩
    have hlength : ((35 :: (line ++ rest)).takeWhile (· != 10)).length = (35 :: line).length := by
      rw [List.takeWhile_cons_of_pos (by decide), ← hline]
    rw [hlength]
    have hstart : Position.start = placeAfter [] := rfl
    exact advance_placeAfter (c := ⟨35 :: (line ++ rest), .start⟩) hstart rfl
  · next hhash =>
    refine ⟨[], source, rfl, .none fun hhead ↦ ?_, rfl⟩
    obtain ⟨more, rfl⟩ := List.head?_eq_some_iff.mp hhead
    exact hhash more rfl

end MiniLua.Lexer

namespace MiniLua

open Lexer

/-- Every byte of a text that scans is in the line before the program, in a token or between tokens,
and every token is where it says. -/
theorem splits_of_tokenize {source : Bytes} {lexemes : List Lexeme}
    (h : tokenize source = .ok lexemes) : ∃ line rest, source = line ++ rest ∧ HashLine line rest ∧
      Splits line rest lexemes := by
  obtain ⟨line, rest, hsource, hhash, hcursor⟩ := withoutHashLine_cases source
  have hscans := scans_tokenize source
  rw [hcursor] at hscans
  exact ⟨line, rest, hsource, hhash, splits_of_scans hscans rfl h⟩

/-- A string over two lines and a comment over two more, after a line that starts with a hash
sign. -/
def brokenSource : Bytes := Bytes.ofText "#!lua\n 'a\\\n' --[[\n]]< 0x1F--"

def brokenLexemes : List Lexeme :=
  [⟨.string [97, 10], ⟨2, 2⟩⟩, ⟨.symbol .lt, ⟨4, 3⟩⟩, ⟨.number (Bytes.ofText "0x1F"), ⟨4, 5⟩⟩,
    ⟨.eof, ⟨4, 11⟩⟩]

theorem splits_of_tokenize_brokenSource : tokenize brokenSource = .ok brokenLexemes ∧
    ∃ line rest, brokenSource = line ++ rest ∧ HashLine line rest ∧
      Splits line rest brokenLexemes :=
  ⟨rfl, splits_of_tokenize rfl⟩

end MiniLua
