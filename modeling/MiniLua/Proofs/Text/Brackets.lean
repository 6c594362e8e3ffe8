import MiniLua.Proofs.Text.Scans

/-!
Texts in long brackets. What the scanner reads between such brackets stands there, and what stands
there is read, up to the first bracket that closes.
-/

namespace MiniLua.Lexer

/-- The bracket that closes a long string of this level. -/
def closing (level : Nat) : Bytes := 93 :: (List.replicate level 61 ++ [93])

/-- The opening bracket of a level, with what follows it. -/
def opened (level : Nat) (body : Bytes) : Bytes := 91 :: (List.replicate level 61 ++ 91 :: body)

/-- The line break after an opening bracket, which is no part of the text that follows it. -/
inductive Skipped : Bytes → Bytes → Prop
  | none {value : Bytes} (h : ∀ b ∈ value.head?, b ≠ 10 ∧ b ≠ 13) : Skipped [] value
  | feed {value : Bytes} : Skipped [10] value
  | carriage {value : Bytes} (h : value.head? ≠ some 10) : Skipped [13] value
  | both {value : Bytes} : Skipped [13, 10] value

/-- No closing bracket of this level begins in the text, not even with what closes it. -/
def Unclosed (level : Nat) (value : Bytes) : Prop :=
  ∀ back, back <:+ value → back ≠ [] → ¬ closing level <+: back ++ closing level

/-- A text in long brackets. -/
inductive LongBracket : Bytes → Bytes → Prop
  | mk {level : Nat} {skipped value : Bytes} (hskipped : Skipped skipped value)
      (hunclosed : Unclosed level value) :
      LongBracket (opened level (skipped ++ (value ++ closing level))) value

theorem longLevel?_eq_some {level : Nat} {bytes : Bytes} :
    longLevel? bytes = some level ↔ ∃ rest, bytes = List.replicate level 61 ++ 91 :: rest := by
  induction level generalizing bytes with
  | zero =>
    constructor
    · intro h
      unfold longLevel? at h
      split at h
      · cases hlevel : longLevel? _ with
        | none =>
          rw [hlevel] at h
          cases h
        | some n =>
          rw [hlevel] at h
          cases h
      · exact ⟨_, rfl⟩
      · cases h
    · rintro ⟨rest, rfl⟩
      rfl
  | succ level ih =>
    constructor
    · intro h
      unfold longLevel? at h
      split at h
      · obtain ⟨n, hn, hlevel⟩ := Option.map_eq_some_iff.mp h
        obtain rfl : n = level := Nat.succ.inj hlevel
        obtain ⟨rest, rfl⟩ := ih.mp hn
        exact ⟨rest, rfl⟩
      · cases h
      · cases h
    · rintro ⟨rest, rfl⟩
      rw [List.replicate_succ, List.cons_append, longLevel?, ih.mpr ⟨rest, rfl⟩]
      rfl

theorem closes_iff {level : Nat} {b : UInt8} {rest : Bytes} :
    (b = 93 && closesLong level rest) = true ↔ closing level <+: b :: rest := by
  rw [closing, List.cons_prefix_cons, Bool.and_eq_true, decide_eq_true_iff, closesLong,
    List.isPrefixOf_iff_prefix, eq_comm]

/-- Whether a bracket closes depends on no byte after it. -/
theorem closing_prefix_iff {level : Nat} {back rest : Bytes} :
    closing level <+: back ++ (closing level ++ rest) ↔
      closing level <+: back ++ closing level := by
  rw [← List.append_assoc]
  constructor
  · intro h
    refine List.prefix_of_prefix_length_le h (List.prefix_append _ rest) ?_
    rw [List.length_append]
    exact Nat.le_add_left _ _
  · exact fun h ↦ h.trans (List.prefix_append _ rest)

theorem unclosed_nil (level : Nat) : Unclosed level [] :=
  fun _ hback hne ↦ absurd (List.suffix_nil.mp hback) hne

theorem unclosed_cons {level : Nat} {b : UInt8} {value : Bytes} :
    Unclosed level (b :: value) ↔
      ¬ closing level <+: b :: value ++ closing level ∧ Unclosed level value := by
  constructor
  · intro h
    refine ⟨h _ (List.suffix_refl _) (List.cons_ne_nil _ _), fun back hback ↦ ?_⟩
    exact h back (hback.trans (List.suffix_cons b value))
  · rintro ⟨hfirst, h⟩ back hback hne
    obtain rfl | hback := List.suffix_cons_iff.mp hback
    · exact hfirst
    · exact h back hback hne

theorem longEnd?_eq_some {level count n : Nat} {bytes : Bytes} :
    longEnd? level count bytes = some n ↔ ∃ value rest,
      bytes = value ++ (closing level ++ rest) ∧ Unclosed level value ∧
        n = count + value.length := by
  induction bytes generalizing count with
  | nil =>
    constructor
    · rintro ⟨⟩
    · rintro ⟨value, rest, hbytes, -⟩
      simp [closing] at hbytes
  | cons b bytes ih =>
    rw [longEnd?]
    by_cases hcloses : (b = 93 && closesLong level bytes) = true
    · rw [if_pos hcloses]
      have hprefix := closes_iff.mp hcloses
      constructor
      · rintro ⟨⟩
        obtain ⟨rest, hrest⟩ := hprefix
        exact ⟨[], rest, hrest.symm, unclosed_nil level, rfl⟩
      · rintro ⟨value, rest, hbytes, hunclosed, rfl⟩
        cases value with
        | nil => rfl
        | cons c value =>
          rw [hbytes] at hprefix
          exact absurd (closing_prefix_iff.mp hprefix) (unclosed_cons.mp hunclosed).1
    · rw [if_neg hcloses, ih]
      have hprefix := mt closes_iff.mpr hcloses
      constructor
      · rintro ⟨value, rest, rfl, hunclosed, rfl⟩
        refine ⟨b :: value, rest, rfl, unclosed_cons.mpr ⟨?_, hunclosed⟩, ?_⟩
        · exact fun h ↦ hprefix ((closing_prefix_iff.mpr h : _ <+: b :: value ++ (closing level ++ rest)))
        · rw [List.length_cons]
          omega
      · rintro ⟨value, rest, hbytes, hunclosed, rfl⟩
        cases value with
        | nil =>
          rw [hbytes] at hprefix
          exact absurd (List.prefix_append _ _) hprefix
        | cons c value =>
          rw [List.cons_append, List.cons.injEq] at hbytes
          obtain ⟨rfl, rfl⟩ := hbytes
          refine ⟨value, rest, rfl, (unclosed_cons.mp hunclosed).2, ?_⟩
          rw [List.length_cons]
          omega

theorem firstBreak_eq {skipped value rest : Bytes} {b : UInt8} (hb : b ≠ 10 ∧ b ≠ 13)
    (h : Skipped skipped value) :
    firstBreak (skipped ++ (value ++ b :: rest)) = skipped.length := by
  cases h with
  | none h =>
    cases value with
    | nil =>
      unfold firstBreak
      split <;> simp_all
    | cons c value =>
      have hc := h c rfl
      unfold firstBreak
      split <;> simp_all
  | feed => rfl
  | both => rfl
  | carriage h =>
    cases value with
    | nil =>
      unfold firstBreak
      split <;> simp_all
    | cons c value =>
      have hc : c ≠ 10 := fun hc ↦ h (hc ▸ rfl)
      unfold firstBreak
      split <;> simp_all

theorem exists_skipped (bytes : Bytes) : ∃ skipped body, bytes = skipped ++ body ∧
    firstBreak bytes = skipped.length ∧
      ∀ value rest, body = value ++ rest → Skipped skipped value := by
  unfold firstBreak
  split
  · exact ⟨[13, 10], _, rfl, rfl, fun _ _ _ ↦ .both⟩
  · next body hnot =>
    refine ⟨[13], body, rfl, rfl, fun value rest hbody ↦ .carriage fun hhead ↦ ?_⟩
    obtain ⟨more, rfl⟩ := List.head?_eq_some_iff.mp hhead
    exact hnot (more ++ rest) hbody
  · exact ⟨[10], _, rfl, rfl, fun _ _ _ ↦ .feed⟩
  · next hboth hcarriage hfeed =>
    refine ⟨[], bytes, rfl, rfl, fun value rest hbody ↦ .none fun b hhead ↦ ?_⟩
    obtain ⟨more, rfl⟩ := List.head?_eq_some_iff.mp hhead
    constructor
    · rintro rfl
      exact hfeed _ hbody
    · rintro rfl
      exact hcarriage _ hbody

theorem drop_opened (level : Nat) (body : Bytes) : (opened level body).drop (level + 2) = body := by
  have hsplit : opened level body = (91 :: (List.replicate level 61 ++ [91])) ++ body := by
    simp [opened]
  have hlength : level + 2 = (91 :: (List.replicate level 61 ++ [91] : Bytes)).length := by simp
  rw [hsplit, hlength, List.drop_left]

theorem longBracket_opened (level : Nat) (what : String) (body : Bytes) :
    longBracket level what (opened level body) =
      (longEnd? level 0 (body.drop (firstBreak body))).elim (.error (.unfinishedLong what)) fun n ↦
        .ok ((body.drop (firstBreak body)).take n,
          level + 2 + firstBreak body + n + (level + 2)) := by
  rw [longBracket, drop_opened, ← List.drop_drop, drop_opened]
  cases longEnd? level 0 (body.drop (firstBreak body)) <;> rfl

theorem length_closing (level : Nat) : (closing level).length = level + 2 := by simp [closing]

theorem length_opened (level : Nat) (body : Bytes) :
    (opened level body).length = level + 2 + body.length := by
  simp [opened]
  omega

theorem opened_append (level : Nat) (body rest : Bytes) :
    opened level body ++ rest = opened level (body ++ rest) := by
  simp [opened]

/-- Long brackets are read to where they close. -/
theorem longBracket_of_text {text value : Bytes} (h : LongBracket text value) (what : String)
    (rest : Bytes) : ∃ level body, text ++ rest = opened level body ∧
      longBracket level what (text ++ rest) = .ok (value, text.length) := by
  obtain @⟨level, skipped, value, hskipped, hunclosed⟩ := h
  refine ⟨level, _, opened_append level _ rest, ?_⟩
  have hbreak : firstBreak (skipped ++ (value ++ (closing level ++ rest))) = skipped.length :=
    firstBreak_eq (by decide) hskipped
  have hend : longEnd? level 0 (value ++ (closing level ++ rest)) = some value.length :=
    longEnd?_eq_some.mpr ⟨value, rest, rfl, hunclosed, (Nat.zero_add _).symm⟩
  rw [opened_append, List.append_assoc, List.append_assoc, longBracket_opened, hbreak,
    List.drop_left, hend, Option.elim_some, List.take_left]
  simp only [length_opened, List.length_append, length_closing]
  congr 2
  omega

theorem text_of_longBracket {level n : Nat} {what : String} {body value : Bytes}
    (h : longBracket level what (opened level body) = .ok (value, n)) :
    ∃ text rest, opened level body = text ++ rest ∧ text.length = n ∧ LongBracket text value := by
  obtain ⟨skipped, body, rfl, hbreak, hskipped⟩ := exists_skipped body
  rw [longBracket_opened, hbreak, List.drop_left] at h
  cases hend : longEnd? level 0 body with
  | none =>
    rw [hend] at h
    cases h
  | some k =>
    rw [hend, Option.elim_some] at h
    obtain ⟨text, rest, rfl, hunclosed, rfl⟩ := longEnd?_eq_some.mp hend
    cases h
    rw [Nat.zero_add, List.take_left]
    refine ⟨_, rest, ?_, ?_, .mk (hskipped text _ rfl) hunclosed⟩
    · rw [opened_append, List.append_assoc, List.append_assoc]
    · simp only [length_opened, List.length_append, length_closing]
      omega

end MiniLua.Lexer
