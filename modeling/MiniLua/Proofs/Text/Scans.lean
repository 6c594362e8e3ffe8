import MiniLua.Token.Lexer

/-!
The scanner never leaves the text. What it takes for a lexeme or for a gap lies in the text ahead,
and every round takes some of it, so that the bounds on its loops are never met.
-/

namespace MiniLua.Lexer

theorem length_takeWhile_le (p : UInt8 → Bool) (bytes : Bytes) :
    (bytes.takeWhile p).length ≤ bytes.length :=
  (List.takeWhile_prefix p).length_le

theorem longEnd?_le {level count n : Nat} {bytes : Bytes} (h : longEnd? level count bytes = some n) :
    n + level + 2 ≤ count + bytes.length := by
  induction bytes generalizing count with
  | nil => cases h
  | cons b rest ih =>
    unfold longEnd? at h
    split at h
    · rename_i hcloses
      have hprefix : (List.replicate level (61 : UInt8) ++ [93]).isPrefixOf rest := by
        simp only [Bool.and_eq_true] at hcloses
        exact hcloses.2
      have hlen := (List.isPrefixOf_iff_prefix.mp hprefix).length_le
      cases h
      simp only [List.length_append, List.length_replicate, List.length_cons, List.length_nil]
        at hlen ⊢
      omega
    · have := ih h
      simp only [List.length_cons]
      omega

theorem longBracket_le {level n : Nat} {what : String} {bytes value : Bytes}
    (h : longBracket level what bytes = .ok (value, n)) : 0 < n ∧ n ≤ bytes.length := by
  unfold longBracket at h
  dsimp only at h
  split at h
  · rename_i m hm
    have hend := longEnd?_le hm
    simp only [List.length_drop] at hend
    cases h
    omega
  · cases h

theorem decimalEscape_le {bytes : Bytes} {b b' : UInt8} {n : Nat} (hb : isDigit b)
    (h : decimalEscape (b :: bytes) = .ok (b', n)) : 0 < n ∧ n ≤ (b :: bytes).length := by
  unfold decimalEscape at h
  dsimp only at h
  split at h
  · cases h
    refine ⟨?_, Nat.le_trans (length_takeWhile_le _ _) (List.length_take_le' ..)⟩
    simp [hb]
  · cases h

theorem hexEscape_le {bytes : Bytes} {b : UInt8} {n : Nat} (h : hexEscape bytes = .ok (b, n)) :
    0 < n ∧ n ≤ bytes.length + 1 := by
  unfold hexEscape at h
  split at h
  · split at h
    · cases h
      simp
    · cases h
  · cases h

theorem escape_le {bytes : Bytes} {b : UInt8} {n : Nat} (h : escape bytes = .ok (b, n)) :
    0 < n ∧ n ≤ bytes.length := by
  unfold escape at h
  split at h
  · cases h
  · rename_i c rest
    split at h
    case h_12 => exact hexEscape_le h
    case h_13 =>
      split at h
      · exact decimalEscape_le ‹_› h
      · cases h
    all_goals
      cases h
      simp

theorem quoted_le {quote : UInt8} {bound count n : Nat} {value bytes value' : Bytes}
    (h : quoted quote bound value count bytes = .ok (value', n)) :
    count < n ∧ n ≤ count + bytes.length := by
  induction bound generalizing value count bytes with
  | zero => cases h
  | succ bound ih =>
    cases bytes with
    | nil => cases h
    | cons b rest =>
      unfold quoted at h
      simp only [List.length_cons]
      split at h
      · cases h
      · split at h
        · cases h
          omega
        · split at h
          · split at h
            · cases h
            · rename_i c m hm
              have hescape := escape_le hm
              have hrest := ih h
              simp only [List.length_drop] at hrest
              omega
          · have := ih h
            omega

/-- A bound that covers the text ahead is never met. -/
theorem quoted_bound {quote : UInt8} {bound bound' count : Nat} {value bytes : Bytes}
    (h : bytes.length ≤ bound) (h' : bytes.length ≤ bound') :
    quoted quote bound value count bytes = quoted quote bound' value count bytes := by
  induction bound generalizing bound' value count bytes with
  | zero =>
    obtain rfl : bytes = [] := List.length_eq_zero_iff.mp (Nat.le_zero.mp h)
    cases bound' <;> rfl
  | succ bound ih =>
    cases bytes with
    | nil => cases bound' <;> rfl
    | cons b rest =>
      simp only [List.length_cons] at h h'
      obtain ⟨bound', rfl⟩ : ∃ k, bound' = k + 1 := ⟨bound' - 1, by omega⟩
      unfold quoted
      split
      · rfl
      · split
        · rfl
        · split
          · split
            · rfl
            · exact ih (by simp only [List.length_drop]; omega)
                (by simp only [List.length_drop]; omega)
          · exact ih (by omega) (by omega)

theorem decimalLength_le (mark : Bool) (bytes : Bytes) :
    decimalLength mark bytes ≤ bytes.length := by
  induction bytes generalizing mark with
  | nil => exact Nat.le_refl 0
  | cons b rest ih =>
    unfold decimalLength
    simp only [List.length_cons]
    split
    · exact Nat.succ_le_succ (ih _)
    · split
      · exact Nat.succ_le_succ (ih _)
      · split
        · exact Nat.succ_le_succ (ih _)
        · exact Nat.zero_le _

theorem numberLength_le (bytes : Bytes) : numberLength bytes ≤ bytes.length := by
  unfold numberLength
  split
  · rename_i rest
    have := length_takeWhile_le (fun b ↦ (digitValue? 16 b).isSome) rest
    simp only [List.length_cons]
    omega
  · rename_i rest
    have := length_takeWhile_le (fun b ↦ (digitValue? 16 b).isSome) rest
    simp only [List.length_cons]
    omega
  · exact decimalLength_le _ _

theorem literal?_nil : Numeral.literal? [] = none := rfl

theorem number_le {bytes : Bytes} {t : Token} {n : Nat} (h : number bytes = .ok (t, n)) :
    t ≠ .eof ∧ 0 < n ∧ n ≤ bytes.length := by
  unfold number at h
  dsimp only at h
  split at h
  · rename_i hliteral
    cases h
    refine ⟨by simp, Nat.pos_of_ne_zero fun hzero ↦ ?_, numberLength_le _⟩
    rw [hzero, List.take_zero, literal?_nil] at hliteral
    simp at hliteral
  · cases h

theorem word_le {b : UInt8} {rest : Bytes} (hb : isNameStart b) :
    (word (b :: rest)).1 ≠ .eof ∧ 0 < (word (b :: rest)).2 ∧
      (word (b :: rest)).2 ≤ (b :: rest).length := by
  have hname : isNameByte b := by
    unfold isNameStart at hb
    unfold isNameByte
    simp only [Bool.or_eq_true, Char.isAlphanum] at hb ⊢
    exact hb.imp_left .inl
  have hpos : 0 < ((b :: rest).takeWhile isNameByte).length := by simp [hname]
  have hle := length_takeWhile_le isNameByte (b :: rest)
  unfold word
  dsimp only
  split <;> exact ⟨by simp, hpos, hle⟩

theorem bytes_ne_nil (s : Symbol) : s.bytes ≠ [] := by
  cases s <;> decide

theorem eq_some_of_foldl {α : Type} {f : Option α → α → Option α}
    (hf : ∀ best a, f best a = best ∨ f best a = some a) {xs : List α} {x : α} {best : Option α}
    (h : xs.foldl f best = some x) : best = some x ∨ x ∈ xs := by
  induction xs generalizing best with
  | nil => exact .inl h
  | cons a xs ih =>
    rcases ih h with hx | hx
    · rcases hf best a with heq | heq
      · exact .inl (heq ▸ hx)
      · exact .inr (by simpa using .inl (Option.some.inj (hx.symm.trans heq)))
    · exact .inr (List.mem_cons_of_mem _ hx)

theorem prefix_of_ofPrefix? {bytes : Bytes} {s : Symbol} (h : Symbol.ofPrefix? bytes = some s) :
    s.bytes <+: bytes := by
  unfold Symbol.ofPrefix? at h
  dsimp only at h
  have hmem := (eq_some_of_foldl (fun best a ↦ ?_) h).resolve_left (by simp)
  · exact List.isPrefixOf_iff_prefix.mp (List.mem_filter.mp hmem).2
  · cases best with
    | none => exact .inr rfl
    | some b =>
      dsimp only
      split
      · exact .inr rfl
      · exact .inl rfl

theorem map_eq_ok {ε α β : Type} {f : α → β} {r : Except ε α} {b : β}
    (h : r.map f = .ok b) : ∃ a, r = .ok a ∧ f a = b := by
  cases r with
  | error e => cases h
  | ok a =>
    cases h
    exact ⟨a, rfl, rfl⟩

theorem token_le {bound n : Nat} {bytes : Bytes} {t : Token} (hbytes : bytes ≠ [])
    (h : token bound bytes = .ok (t, n)) : t ≠ .eof ∧ 0 < n ∧ n ≤ bytes.length := by
  unfold token at h
  split at h
  · exact absurd rfl hbytes
  · rename_i b rest
    split at h
    · exact number_le h
    · split at h
      · rename_i hstart
        cases hword : word (b :: rest) with
        | mk t' n' =>
          have : (word (b :: rest)).1 ≠ .eof ∧ 0 < (word (b :: rest)).2 ∧
              (word (b :: rest)).2 ≤ (b :: rest).length := word_le hstart
          rw [hword] at h this
          cases h
          exact this
      · split at h
        · obtain ⟨⟨value, m⟩, hquoted, heq⟩ := map_eq_ok h
          have := quoted_le hquoted
          cases heq
          exact ⟨by simp, by omega, by simp only [List.length_cons]; omega⟩
        · split at h
          · obtain ⟨⟨value, m⟩, hlong, heq⟩ := map_eq_ok h
            cases heq
            exact ⟨by simp, longBracket_le hlong⟩
          · split at h
            · rename_i s hs
              cases h
              exact ⟨by simp, List.length_pos_iff.mpr (bytes_ne_nil s),
                (prefix_of_ofPrefix? hs).length_le⟩
            · cases h

theorem token_bound {bound bound' : Nat} {bytes : Bytes} (h : bytes.length ≤ bound)
    (h' : bytes.length ≤ bound') : token bound bytes = token bound' bytes := by
  cases bytes with
  | nil => rfl
  | cons b rest =>
    simp only [List.length_cons] at h h'
    have hquoted : quoted b bound [] 1 rest = quoted b bound' [] 1 rest :=
      quoted_bound (by omega) (by omega)
    simp only [token, hquoted]

theorem comment_le {bytes : Bytes} {n : Nat} (hbytes : 2 ≤ bytes.length)
    (h : comment bytes = .ok n) : n ≤ bytes.length := by
  have hline := length_takeWhile_le (· != 10) (bytes.drop 2)
  rw [List.length_drop] at hline
  unfold comment at h
  dsimp only at h
  split at h
  · rename_i rest hrest
    have hdrop := congrArg List.length hrest
    rw [List.length_drop] at hdrop
    split at h
    · obtain ⟨⟨value, m⟩, hlong, heq⟩ := map_eq_ok h
      have := longBracket_le hlong
      cases heq
      omega
    · cases h
      omega
  · cases h
    omega

theorem gap_le {bytes : Bytes} {n : Nat} (h : gap bytes = .ok n) : n ≤ bytes.length := by
  unfold gap at h
  split at h
  · exact comment_le (by simp) h
  · cases h
    exact length_takeWhile_le _ _

/-- What comes of the text from the cursor on, one gap or lexeme at a time. Each of them is some of
the text ahead, and no bound that covers that text matters. -/
inductive Scans : Cursor → Except SyntaxError (List Lexeme) → Prop
  | done {c : Cursor} (h : c.rest = []) : Scans c (.ok [⟨.eof, c.pos⟩])
  | gap {c : Cursor} {n : Nat} {r : Except SyntaxError (List Lexeme)}
      (h : Lexer.gap c.rest = .ok n) (hpos : 0 < n) (hle : n ≤ c.rest.length)
      (hr : Scans (c.advance n) r) : Scans c r
  | token {c : Cursor} {t : Token} {n : Nat} {r : Except SyntaxError (List Lexeme)}
      (hgap : Lexer.gap c.rest = .ok 0)
      (h : ∀ bound, c.rest.length ≤ bound → Lexer.token bound c.rest = .ok (t, n))
      (ht : t ≠ .eof) (hpos : 0 < n) (hle : n ≤ c.rest.length) (hr : Scans (c.advance n) r) :
      Scans c (r.map (⟨t, c.pos⟩ :: ·))
  | badGap {c : Cursor} {e : SyntaxFault} (h : Lexer.gap c.rest = .error e) :
      Scans c (.error ⟨e, c.pos⟩)
  | badToken {c : Cursor} {e : SyntaxFault} (hgap : Lexer.gap c.rest = .ok 0)
      (h : ∀ bound, c.rest.length ≤ bound → Lexer.token bound c.rest = .error e) :
      Scans c (.error ⟨e, c.pos⟩)

theorem scans_scan {bound : Nat} {c : Cursor} (h : c.rest.length < bound) (found : List Lexeme) :
    ∃ r, Scans c r ∧ scan bound c found = r.map (found.reverse ++ ·) := by
  induction bound generalizing c found with
  | zero => cases h
  | succ bound ih =>
    have hless {n : Nat} (hpos : 0 < n) (hle : n ≤ c.rest.length) :
        (c.advance n).rest.length < bound := by
      simp only [Cursor.advance, List.length_drop]
      omega
    have hbound {r : Except SyntaxFault (Token × Nat)} (hr : token (bound + 1) c.rest = r)
        (bound' : Nat) (h' : c.rest.length ≤ bound') : token bound' c.rest = r :=
      (token_bound h' (by omega)).trans hr
    unfold scan
    split
    · rename_i e hgap
      exact ⟨_, .badGap hgap, rfl⟩
    · rename_i n hgap
      have hle := gap_le hgap
      obtain ⟨r, hr, heq⟩ := ih (hless (Nat.succ_pos n) hle) found
      exact ⟨r, .gap hgap (Nat.succ_pos n) hle hr, heq⟩
    · rename_i hgap
      by_cases hrest : c.rest = []
      · rw [hrest]
        exact ⟨_, .done hrest, by simp [token, Except.map]⟩
      · split
        · rename_i e htoken
          exact ⟨_, .badToken hgap (hbound htoken), rfl⟩
        · rename_i htoken
          exact absurd rfl (token_le hrest htoken).1
        · rename_i t n _ htoken
          obtain ⟨ht, hpos, hle⟩ := token_le hrest htoken
          obtain ⟨r, hr, heq⟩ := ih (hless hpos hle) (⟨t, c.pos⟩ :: found)
          refine ⟨_, .token hgap (hbound htoken) ht hpos hle hr, heq.trans ?_⟩
          cases r <;> simp [Except.map]

theorem length_withoutHashLine (source : Bytes) :
    (withoutHashLine source).rest.length ≤ source.length := by
  unfold withoutHashLine
  dsimp only
  split
  · simp only [Cursor.advance, List.length_drop]
    omega
  · exact Nat.le_refl _

theorem scans_tokenize (source : Bytes) : Scans (withoutHashLine source) (tokenize source) := by
  obtain ⟨r, hr, heq⟩ :=
    scans_scan (Nat.lt_succ_of_le (length_withoutHashLine source)) []
  have hmap : r.map ([] ++ ·) = r := by cases r <;> rfl
  unfold tokenize
  rwa [heq, List.reverse_nil, hmap]

end MiniLua.Lexer
