import MiniLua.Proofs.Text.Brackets
import MiniLua.Proofs.Text.Numerals
import MiniLua.Proofs.Text.Utf8

/-!
How tokens are written. What the scanner takes for a token is written as that token, and whatever is
written as a token is taken for it, if a blank or the end of the text follows.
-/

namespace MiniLua

theorem isNameStart_iff {b : UInt8} : isNameStart b ↔
    65 ≤ b.toNat ∧ b.toNat ≤ 90 ∨ 97 ≤ b.toNat ∧ b.toNat ≤ 122 ∨ b.toNat = 95 := by
  have hupper : (Char.ofUInt8 b).isUpper ↔ 65 ≤ b.toNat ∧ b.toNat ≤ 90 :=
    decide_eq_true_iff.trans (and_congr UInt32.le_iff_toNat_le UInt32.le_iff_toNat_le)
  have hlower : (Char.ofUInt8 b).isLower ↔ 97 ≤ b.toNat ∧ b.toNat ≤ 122 :=
    Bool.and_eq_true_iff.trans (and_congr (decide_eq_true_iff.trans UInt32.le_iff_toNat_le)
      (decide_eq_true_iff.trans UInt32.le_iff_toNat_le))
  have halpha : (Char.ofUInt8 b).isAlpha ↔
      (Char.ofUInt8 b).isUpper ∨ (Char.ofUInt8 b).isLower := Bool.or_eq_true_iff
  have hscore : b = '_'.toUInt8 ↔ b.toNat = 95 := UInt8.toNat_inj.symm
  rw [isNameStart, Bool.or_eq_true_iff, beq_iff_eq, halpha, hupper, hlower, hscore, or_assoc]

theorem isNameByte_iff {b : UInt8} : isNameByte b ↔ isNameStart b ∨ isDigit b := by
  have halphanum : (Char.ofUInt8 b).isAlphanum ↔
      (Char.ofUInt8 b).isAlpha ∨ (Char.ofUInt8 b).isDigit := Bool.or_eq_true_iff
  rw [isNameByte, isNameStart, isDigit, Bool.or_eq_true_iff, Bool.or_eq_true_iff, halphanum]
  exact or_right_comm

end MiniLua

namespace MiniLua.Lexer

/-- A letter or an underscore, and more of these and digits. -/
def IsName (text : Bytes) : Prop :=
  ∃ b rest, text = b :: rest ∧ isNameStart b ∧ ∀ c ∈ rest, isNameByte c

/-- A token as it may be written. -/
inductive Written : Bytes → Token → Prop
  | number {text : Bytes} (hstart : startsNumber text) (hliteral : (Numeral.literal? text).isSome) :
      Written text (.number text)
  | name {name : String} (hname : IsName (Bytes.ofText name))
      (hword : Keyword.ofBytes? (Bytes.ofText name) = none) :
      Written (Bytes.ofText name) (.name name)
  | keyword (word : Keyword) : Written word.bytes (.keyword word)
  | symbol (mark : Symbol) : Written mark.bytes (.symbol mark)
  | quoted {quote : UInt8} {text value : Bytes} (hquote : IsQuote quote)
      (h : Quoted quote text value) : Written (quote :: (text ++ [quote])) (.string value)
  | long {text value : Bytes} (h : LongBracket text value) : Written text (.string value)

variable {rest : Bytes}

theorem startsNumber_of_isNameStart {b : UInt8} (hb : isNameStart b) (bytes : Bytes) :
    startsNumber (b :: bytes) = false := by
  rw [isNameStart_iff] at hb
  refine startsNumber_of_not (Bool.eq_false_iff.mpr fun hdigit ↦ ?_) ?_ bytes
  · obtain ⟨hlow, hhigh⟩ := isDigit_iff.mp hdigit
    omega
  · rintro rfl
    exact absurd hb (by decide)

theorem IsName.all {text : Bytes} (h : IsName text) : ∀ b ∈ text, isNameByte b := by
  obtain ⟨b, more, rfl, hb, hmore⟩ := h
  exact List.forall_mem_cons.mpr ⟨isNameByte_iff.mpr (.inl hb), hmore⟩

theorem isName_keyword (word : Keyword) : IsName word.bytes := by
  cases word
  all_goals exact ⟨_, _, rfl, rfl, List.all_eq_true.mp rfl⟩

theorem token_word (hrest : Separated rest) {text : Bytes} (h : IsName text) (bound : Nat) :
    token bound (text ++ rest) = .ok (word text) := by
  have htext : (text ++ rest).takeWhile isNameByte = text.takeWhile isNameByte := by
    rw [hrest.takeWhile rfl h.all, List.takeWhile_eq_self_iff.mpr h.all]
  obtain ⟨b, more, rfl, hb, -⟩ := h
  rw [List.cons_append] at htext ⊢
  rw [token, startsNumber_of_isNameStart hb, if_neg Bool.false_ne_true, if_pos hb, word, htext]
  rfl

theorem token_symbol (hrest : Separated rest) (mark : Symbol) (bound : Nat) :
    token bound (mark.bytes ++ rest) = .ok (.symbol mark, mark.bytes.length) := by
  obtain rfl | ⟨more, rfl⟩ := hrest
  · cases mark <;> rfl
  · cases mark <;> rfl

theorem token_quote {quote : UInt8} (hquote : IsQuote quote) (bound : Nat) (bytes : Bytes) :
    token bound (quote :: bytes) =
      (quoted quote bound [] 1 bytes).map fun p ↦ (.string p.1, p.2) := by
  obtain rfl | rfl := hquote <;> rfl

theorem token_opened (level bound : Nat) (body : Bytes) : token bound (opened level body) =
    (longBracket level "string" (opened level body)).map fun p ↦ (.string p.1, p.2) := by
  have hlevel : longLevel? (List.replicate level 61 ++ 91 :: body) = some level :=
    longLevel?_eq_some.mpr ⟨body, rfl⟩
  rw [opened, token, startsNumber_of_not (by decide) (by decide), if_neg Bool.false_ne_true,
    if_neg (by decide), if_neg (by decide), if_pos rfl, hlevel]

/-- What is written as a token and ends there is taken for it. -/
theorem token_of_written (hrest : Separated rest) {text : Bytes} {t : Token} (h : Written text t) {bound : Nat}
    (hbound : (text ++ rest).length ≤ bound) :
    token bound (text ++ rest) = .ok (t, text.length) := by
  cases h with
  | number hstart hliteral =>
    have hstart' : startsNumber (text ++ rest) := startsNumber_append hstart
    have hnumber := number_of_literal hrest hstart hliteral
    cases htext : text ++ rest with
    | nil =>
      rw [htext] at hstart'
      cases hstart'
    | cons b bytes =>
      rw [htext] at hstart' hnumber
      rw [token, if_pos hstart', hnumber]
  | name hname hword =>
    rw [token_word hrest hname, word, List.takeWhile_eq_self_iff.mpr hname.all, hword,
      Bytes.toTextLossy_ofText]
  | keyword k =>
    rw [token_word hrest (isName_keyword k), word,
      List.takeWhile_eq_self_iff.mpr (isName_keyword k).all,
      Keyword.ofBytes?_bytes]
  | symbol mark => exact token_symbol hrest mark bound
  | @quoted quote text value hquote h =>
    have htext : quote :: (text ++ [quote]) ++ rest = quote :: (text ++ quote :: rest) := by simp
    rw [htext] at hbound ⊢
    simp only [List.length_cons, List.length_append] at hbound
    have hread := quoted_of_text hquote h rest (Nat.lt_of_lt_of_le (by omega) hbound) [] 1
    rw [List.reverse_nil, List.nil_append] at hread
    rw [token_quote hquote, hread, List.length_cons, List.length_append, List.length_singleton,
      Nat.add_comm 1]
    rfl
  | long h =>
    obtain ⟨level, body, hopened, hread⟩ := longBracket_of_text h "string" rest
    rw [hopened] at hread ⊢
    rw [token_opened, hread]
    rfl


theorem written_number {bytes : Bytes} {t : Token} {n : Nat} (hstart : startsNumber bytes)
    (h : number bytes = .ok (t, n)) : n ≤ bytes.length ∧ Written (bytes.take n) t := by
  obtain ⟨-, hpos, hle⟩ := number_le h
  refine ⟨hle, ?_⟩
  rw [number] at h
  split at h
  · next hliteral =>
    cases h
    exact .number (startsNumber_take hstart hpos) (Bool.and_eq_true_iff.mp hliteral).2
  · cases h

theorem written_word {b : UInt8} {bytes : Bytes} (hb : isNameStart b) :
    Written ((b :: bytes).takeWhile isNameByte) (word (b :: bytes)).1 := by
  have hname : IsName ((b :: bytes).takeWhile isNameByte) := by
    rw [List.takeWhile_cons_of_pos (isNameByte_iff.mpr (.inl hb))]
    exact ⟨b, _, rfl, hb, fun _ ↦ List.mem_takeWhile_imp⟩
  rw [word]
  generalize (b :: bytes).takeWhile isNameByte = text at hname
  have hascii : ∀ c ∈ text, c.toNat < 0x80 := by
    intro c hc
    obtain hstart | hdigit := isNameByte_iff.mp (hname.all c hc)
    · rw [isNameStart_iff] at hstart
      omega
    · have hhigh := (isDigit_iff.mp hdigit).2
      omega
  obtain ⟨name, rfl⟩ := Bytes.exists_ofText hascii
  split
  · next k hk =>
    rw [← Keyword.bytes_of_ofBytes? hk]
    exact .keyword k
  · next hk =>
    rw [Bytes.toTextLossy_ofText]
    exact .name hname hk

theorem length_word (bytes : Bytes) : (word bytes).2 = (bytes.takeWhile isNameByte).length := by
  unfold word
  dsimp only
  split <;> rfl

/-- What is taken for a token is written as it. -/
theorem written_of_token {bound n : Nat} {bytes : Bytes} {t : Token} (hbytes : bytes ≠ [])
    (h : token bound bytes = .ok (t, n)) : ∃ text rest, bytes = text ++ rest ∧ text.length = n ∧
      Written text t := by
  cases bytes with
  | nil => exact absurd rfl hbytes
  | cons b bytes =>
    rw [token] at h
    split at h
    · next hstart =>
      obtain ⟨hle, hwritten⟩ := written_number hstart h
      exact ⟨_, _, (List.take_append_drop n _).symm, List.length_take_of_le hle, hwritten⟩
    split at h
    · next hb =>
      have hword := congrArg Prod.fst (Except.ok.inj h)
      have hlength := congrArg Prod.snd (Except.ok.inj h)
      obtain rfl : (word (b :: bytes)).1 = t := hword
      obtain rfl : (word (b :: bytes)).2 = n := hlength
      exact ⟨_, _, List.takeWhile_append_dropWhile.symm, (length_word _).symm, written_word hb⟩
    split at h
    · next hquote =>
      have hquote' : IsQuote b := by simpa [IsQuote] using hquote
      obtain ⟨⟨value, m⟩, hread, heq⟩ := map_eq_ok h
      cases heq
      obtain ⟨text, found, rest, rfl, hfound, rfl, rfl⟩ := text_of_quoted hread
      refine ⟨b :: (text ++ [b]), rest, ?_, ?_, .quoted hquote' hfound⟩
      · simp
      · simp only [List.length_cons, List.length_append, List.length_nil]
        omega
    split at h
    · next level hlevel =>
      rw [Option.ite_none_right_eq_some] at hlevel
      obtain ⟨rfl, hlevel⟩ := hlevel
      obtain ⟨body, rfl⟩ := longLevel?_eq_some.mp hlevel
      obtain ⟨⟨value, m⟩, hread, heq⟩ := map_eq_ok h
      cases heq
      obtain ⟨text, rest, hopened, hlength, hlong⟩ := text_of_longBracket hread
      exact ⟨text, rest, hopened, hlength, .long hlong⟩
    · split at h
      · next s hs =>
        cases h
        obtain ⟨rest, hrest⟩ := prefix_of_ofPrefix? hs
        exact ⟨s.bytes, rest, hrest.symm, rfl, .symbol s⟩
      · cases h

end MiniLua.Lexer
