import Mathlib.Data.Nat.Digits.Lemmas
import MiniLua.Number.Decimal
import MiniLua.Proofs.Checked.Numbers
import MiniLua.Proofs.Number.Floats
import MiniLua.Proofs.Number.Literals

/-!
Integers as text: decimal digits, behind a minus if the integer is negative. As a numeric string this
is the integer again. In a program the minus is an operator, and the digits alone are the literal; of
the smallest integer these are one too many for an integer. In other bases, too, the minus is put to what
the digits alone are, and there the smallest integer is none at all.
-/

namespace MiniLua.Numeral

theorem digitValue?_char {c : Char} (hc : c.isDigit) :
    ∃ b, String.utf8EncodeChar c = [b] ∧ digitValue? 10 b = some (c.toNat - '0'.toNat) := by
  have hrange : 48 ≤ c.toNat ∧ c.toNat ≤ 57 := by
    simpa [Char.isDigit, UInt32.le_iff_toNat_le] using hc
  have hbyte : (UInt8.ofNat c.toNat).toNat = c.toNat :=
    UInt8.toNat_ofNat_of_lt' (Nat.lt_of_le_of_lt hrange.2 (by decide))
  refine ⟨UInt8.ofNat c.toNat, ?_, ?_⟩
  · have hencode := Utf8.encode_one (Nat.lt_of_le_of_lt hrange.2 (by decide))
    rwa [Char.ofNat_toNat] at hencode
  · have hdigit : (48 : UInt8) ≤ UInt8.ofNat c.toNat ∧ UInt8.ofNat c.toNat ≤ 57 := by
      rw [UInt8.le_iff_toNat_le, UInt8.le_iff_toNat_le, hbyte]
      exact hrange
    have hten : c.toNat - 48 < 10 := by omega
    rw [digitValue?, if_pos hdigit, hbyte]
    exact if_pos hten

theorem spells_chars {cs : List Char} (hcs : ∀ c ∈ cs, c.isDigit) :
    ∃ ds, Spells 10 (Bytes.ofText (String.ofList cs)) ds ∧
      ∀ value, Nat.ofDigitChars 10 cs value = ds.foldl (fun value digit ↦ value * 10 + digit) value := by
  rw [Bytes.ofText_eq, String.toList_ofList]
  induction cs with
  | nil => exact ⟨[], .nil, fun _ ↦ rfl⟩
  | cons c cs ih =>
    obtain ⟨hc, hcs⟩ := List.forall_mem_cons.mp hcs
    obtain ⟨b, hencode, hdigit⟩ := digitValue?_char hc
    obtain ⟨ds, hds, hvalue⟩ := ih hcs
    refine ⟨(c.toNat - '0'.toNat) :: ds, ?_, fun value ↦ ?_⟩
    · rw [List.flatMap_cons, hencode]
      exact .cons hdigit hds
    · rw [Nat.ofDigitChars_cons, hvalue, List.foldl_cons, Nat.mul_comm]

/-- The decimal digits of a natural number. -/
def digits (n : Nat) : Bytes := Bytes.ofText (String.ofList (Nat.toDigits 10 n))

theorem spells_digits (n : Nat) : ∃ ds, Spells 10 (digits n) ds ∧ digitsValue 10 ds = n := by
  have hchars : ∀ c ∈ Nat.toDigits 10 n, c.isDigit := by
    intro c hc
    exact Nat.isDigit_of_mem_toDigits (by omega) (by omega) hc
  obtain ⟨ds, hds, hvalue⟩ := spells_chars hchars
  exact ⟨ds, hds, (hvalue 0).symm.trans Nat.ofDigitChars_ten_toDigits⟩

theorem digits_ne_nil (n : Nat) : digits n ≠ [] := by
  intro h
  have hlength := congrArg List.length h
  obtain ⟨c, cs, hcs⟩ := List.exists_cons_of_ne_nil (@Nat.toDigits_ne_nil n 10)
  have hpos := Char.utf8Size_pos c
  rw [digits, Bytes.ofText_eq, String.toList_ofList, hcs, List.flatMap_cons, List.length_append,
    String.length_utf8EncodeChar, List.length_nil] at hlength
  omega

theorem decimal_digits {negative : Bool} {n : Nat} {i : Int64} (h : signed negative n = i.toInt) :
    Decimal negative (digits n) (.int i) := by
  obtain ⟨ds, hds, rfl⟩ := spells_digits n
  exact .int (digits_ne_nil _) hds (int64?_eq_some.mpr h)

/-- The text of an integer. -/
theorem ofText_intText (i : Int64) : Bytes.ofText (intText i) =
    if 0 ≤ i.toInt then digits i.toInt.toNat else 45 :: digits (-i.toInt).toNat := by
  have htext : intText i = i.toInt.repr := rfl
  rw [htext, Int.repr_eq_if]
  split
  · rw [Nat.repr_eq_ofList_toDigits, digits]
  · rw [Nat.repr_eq_ofList_toDigits, Bytes.ofText_append]
    rfl

theorem denotes_intText (i : Int64) : Denotes (Bytes.ofText (intText i)) (.int i) := by
  have hmk {sign body : Bytes} {negative : Bool} (hsign : Sign sign negative)
      (hbody : Body negative body (.int i)) : Denotes (sign ++ body) (.int i) := by
    have hdenotes := Denotes.mk (List.forall_mem_nil _) hsign hbody (List.forall_mem_nil _)
    rwa [List.nil_append, List.append_nil] at hdenotes
  rw [ofText_intText]
  split
  · next hpos => exact hmk .none (.decimal (decimal_digits (Int.toNat_of_nonneg hpos)))
  · next hneg =>
    have hsigned : signed true (-i.toInt).toNat = i.toInt := by
      rw [signed, if_pos rfl]
      omega
    exact hmk .minus (.decimal (decimal_digits hsigned))

/-- Digits alone are a literal of what they denote. -/
theorem literal?_digits {n : Nat} {v : Numeral} (h : Decimal false (digits n) v) :
    literal? (digits n) = some v := by
  obtain ⟨ds, hds, -⟩ := spells_digits n
  have hdigits := hds.digits
  have hsplit : splitSign (digits n) = (false, digits n) := Sign.none.splitSign_append hds.unsigned
  have hdecimal : decimal? (digits n) = some v :=
    (decimal?_eq_some hsplit (nameless_of_plain hds.plain)).mpr h
  unfold literal?
  split
  · next heq => exact absurd (hdigits 120 (by simp [heq])) (by decide)
  · next heq => exact absurd (hdigits 88 (by simp [heq])) (by decide)
  · exact hdecimal

/-- The digits of the smallest integer are a float in a program. -/
theorem literal?_digits_least : ∃ x, literal? (digits 0x8000000000000000) = some (.float x) ∧
    (-x).toBits = 0xC3E0000000000000 := by
  have hdigits : digits 0x8000000000000000 = Bytes.ofText "9223372036854775808" := by decide
  rw [hdigits]
  exact ⟨_, rfl, by decide +kernel⟩

/-! ### Any base -/

/-- The digits of all bases in their order. -/
def smallDigits : Bytes := Bytes.ofText "0123456789abcdefghijklmnopqrstuvwxyz"

def capitalDigits : Bytes := Bytes.ofText "0123456789ABCDEFGHIJKLMNOPQRSTUVWXYZ"

/-- The byte is the digit with this value. -/
structure DigitOf (base : Nat) (b : UInt8) (d : Nat) : Prop where
  lt : d < base
  shown : smallDigits[d]? = some b ∨ capitalDigits[d]? = some b

/-- The text is an integer in a base: digits, at least one, behind a minus if there is one, and blanks
around them. The last digit counts ones, the one before it counts as many as the base, and so on. -/
inductive InBase (base : Nat) : Bytes → Int → Prop
  | mk {before digits after : Bytes} {ds : List Nat} (negative : Bool) (hbefore : ∀ b ∈ before, isBlank b)
      (hsome : digits ≠ []) (hdigits : List.Forall₂ (DigitOf base) digits ds)
      (hafter : ∀ b ∈ after, isBlank b) :
      InBase base (before ++ ((if negative then [45] else []) ++ digits) ++ after)
        (signed negative (Nat.ofDigits base ds.reverse))

/-- Digits of the base without zeros in front, with small letters. -/
def naturalText (base n : Nat) : Bytes :=
  if n = 0 then [48] else (Nat.digits base n).reverse.map fun d ↦ smallDigits.getD d 48

def integerText (base : Nat) (n : Int) : Bytes :=
  (if n < 0 then [45] else []) ++ naturalText base n.natAbs

theorem digitValue?_of_shown {d : Nat} (hd : d < 36) {b : UInt8}
    (h : smallDigits[d]? = some b ∨ capitalDigits[d]? = some b) : digitValue? 36 b = some d := by
  have hall : ∀ d < 36, smallDigits[d]?.bind (digitValue? 36) = some d ∧
      capitalDigits[d]?.bind (digitValue? 36) = some d := by decide +kernel
  obtain ⟨hsmall, hcapital⟩ := hall d hd
  rcases h with h | h
  · rwa [h] at hsmall
  · rwa [h] at hcapital

theorem shown_of_digitValue? {d : Nat} {b : UInt8} (h : digitValue? 36 b = some d) :
    smallDigits[d]? = some b ∨ capitalDigits[d]? = some b := by
  have hall : ∀ n < 256, ∀ d ∈ digitValue? 36 (UInt8.ofNat n),
      smallDigits[d]? = some (UInt8.ofNat n) ∨ capitalDigits[d]? = some (UInt8.ofNat n) := by decide +kernel
  have hb : UInt8.ofNat b.toNat = b := UInt8.ofNat_toNat
  exact hb ▸ hall b.toNat b.toNat_lt d (hb.symm ▸ h)

theorem digitValue?_eq_some {base : Nat} (hbase : base ≤ 36) {b : UInt8} {d : Nat} :
    digitValue? base b = some d ↔ DigitOf base b d := by
  have hfull : digitValue? base b = some d ↔ d < base ∧ digitValue? 36 b = some d := by
    simp only [digitValue?, Option.ite_none_right_eq_some, Option.some_inj]
    constructor
    · rintro ⟨hlt, rfl⟩
      exact ⟨hlt, hlt.trans_le hbase, rfl⟩
    · rintro ⟨hlt, -, rfl⟩
      exact ⟨hlt, rfl⟩
  rw [hfull]
  constructor
  · intro h
    exact ⟨h.1, shown_of_digitValue? h.2⟩
  · intro h
    exact ⟨h.lt, digitValue?_of_shown (h.lt.trans_le hbase) h.shown⟩

theorem spells_iff {base : Nat} (hbase : base ≤ 36) {text : Bytes} {ds : List Nat} :
    Spells base text ds ↔ List.Forall₂ (DigitOf base) text ds := by
  have hiff : (fun b d ↦ digitValue? base b = some d) = DigitOf base := by
    funext b d
    exact propext (digitValue?_eq_some hbase)
  rw [Spells, hiff]

theorem digitsValue_eq_ofDigits (base : Nat) (ds : List Nat) :
    digitsValue base ds = Nat.ofDigits base ds.reverse := by
  induction ds using List.reverseRecOn with
  | nil => rfl
  | append_singleton ds d ih =>
    rw [digitsValue_append, ih, List.reverse_append, List.reverse_singleton, List.singleton_append,
      Nat.ofDigits_cons]
    ring

/-- The sign is put to an integer that is not negative, and so it is never the smallest one. -/
theorem map_neg_int64? (n : Nat) (negative : Bool) :
    (int64? n).map (fun i ↦ if negative then -i else i) =
      (int64? (signed negative n)).filter (· ≠ Int64.minValue) := by
  have hleast : Int64.minValue.toInt = -0x8000000000000000 := by decide
  have hkeep {v : Int64} (hv : v.toInt = signed negative n) (hsmall : -0x8000000000000000 < v.toInt) :
      (int64? (signed negative n)).filter (· ≠ Int64.minValue) = some v := by
    have hne : v ≠ Int64.minValue := fun heq ↦ by rw [heq, hleast] at hsmall; omega
    rw [int64?_eq_some.mpr hv.symm]
    exact Option.filter_some_pos (decide_eq_true hne)
  by_cases hsmall : n < 0x8000000000000000
  · have hn : (Int64.ofNat n).toInt = n := Int64.toInt_ofNat_of_lt hsmall
    rw [Checked.int64?_natCast hsmall, Option.map_some]
    cases negative with
    | false => exact (hkeep hn (by omega)).symm
    | true =>
      have hneg : (-Int64.ofNat n).toInt = -n := by
        rw [Int64.toInt_neg, hn, Int.bmod_eq_of_le (by omega) (by omega)]
      exact (hkeep hneg (by omega)).symm
  · rw [Checked.int64?_natCast_eq_none (Nat.le_of_not_lt hsmall), Option.map_none]
    refine (Option.filter_eq_none_iff.mpr fun v hv ↦ ?_).symm
    have hvalue := toInt_of_int64? hv
    have hbounds := Checked.toInt_bounds v
    rw [decide_eq_true_eq, not_not, ← Int64.toInt_inj, hleast, hvalue]
    rw [hvalue] at hbounds
    unfold signed at *
    split at * <;> omega

/-- What is read is what is behind the blanks and the minus. -/
theorem radixInt?_of_trimmed {text digits : Bytes} {negative : Bool} (base : Nat)
    (htrimmed : trimmed text = (if negative then [45] else []) ++ digits)
    (hplain : negative = false → digits.head? ≠ some 45) :
    radixInt? base text = (natural? base digits).bind fun n ↦
      (int64? n).map fun i ↦ if negative then -i else i := by
  rw [radixInt?, htrimmed]
  cases negative with
  | true => rfl
  | false =>
    rw [if_neg Bool.false_ne_true, List.nil_append]
    dsimp only
    split
    · exact absurd rfl (hplain rfl)
    · rfl

theorem exists_minus (text : Bytes) : ∃ (negative : Bool) (digits : Bytes),
    text = (if negative then [45] else []) ++ digits ∧ (negative = false → digits.head? ≠ some 45) := by
  by_cases hminus : text.head? = some 45
  · obtain ⟨rest, rfl⟩ := List.head?_eq_some_iff.mp hminus
    exact ⟨true, rest, rfl, nofun⟩
  · exact ⟨false, text, rfl, fun _ ↦ hminus⟩

theorem inBase_of_radixInt? {base : Nat} (hbase : base ≤ 36) {text : Bytes} {v : Int64}
    (h : radixInt? base text = some v) : InBase base text v.toInt ∧ v ≠ Int64.minValue := by
  obtain ⟨before, after, hbefore, hafter, htext⟩ := trimmed_cases text
  obtain ⟨negative, digits, htrimmed, hplain⟩ := exists_minus (trimmed text)
  rw [radixInt?_of_trimmed base htrimmed hplain] at h
  obtain ⟨n, hn, hv⟩ := Option.bind_eq_some_iff.mp h
  obtain ⟨hsome, ds, hds, rfl⟩ := natural?_eq_some.mp hn
  rw [map_neg_int64?, Option.filter_eq_some_iff] at hv
  obtain ⟨hv, hleast⟩ := hv
  refine ⟨?_, of_decide_eq_true hleast⟩
  rw [htext, htrimmed, toInt_of_int64? hv, digitsValue_eq_ofDigits]
  exact .mk negative hbefore hsome ((spells_iff hbase).mp hds) hafter

theorem radixInt?_of_inBase {base : Nat} (hbase : base ≤ 36) {text : Bytes} {n : Int}
    (h : InBase base text n) : radixInt? base text = (int64? n).filter (· ≠ Int64.minValue) := by
  obtain @⟨before, digits, after, ds, negative, hbefore, hsome, hdigits, hafter⟩ := h
  have hds := (spells_iff hbase).mpr hdigits
  have hbody : ∀ b ∈ (if negative then [45] else []) ++ digits, isBlank b = false := by
    refine List.forall_mem_append.mpr ⟨?_, hds.not_blank hbase⟩
    cases negative
    · exact List.forall_mem_nil _
    · exact List.forall_mem_singleton.mpr (by decide)
  have hplain : negative = false → digits.head? ≠ some 45 := by
    intro _ hhead
    obtain ⟨rest, rfl⟩ := List.head?_eq_some_iff.mp hhead
    have hnone : digitValue? base 45 = none := if_neg (Nat.not_lt.mpr hbase)
    cases hds with
    | cons hd _ => exact absurd (hnone.symm.trans hd) nofun
  rw [radixInt?_of_trimmed base (trimmed_append hbefore hbody hafter) hplain,
    natural?_eq_some.mpr ⟨hsome, ds, hds, rfl⟩, Option.bind_some, map_neg_int64?, digitsValue_eq_ofDigits]

theorem digits_naturalText {base : Nat} (hbase : 2 ≤ base) (hbase' : base ≤ 36) (n : Nat) :
    naturalText base n ≠ [] ∧ ∃ ds, List.Forall₂ (DigitOf base) (naturalText base n) ds ∧
      Nat.ofDigits base ds.reverse = n := by
  have hdigit (d : Nat) (hd : d < base) : DigitOf base (smallDigits.getD d 48) d := by
    have hlength : d < smallDigits.length := hd.trans_le hbase'
    refine ⟨hd, .inl ?_⟩
    rw [List.getD_eq_getElem _ _ hlength, List.getElem?_eq_getElem hlength]
  unfold naturalText
  split
  · next hzero =>
    have hnought : DigitOf base 48 0 := hdigit 0 (by omega)
    exact ⟨List.cons_ne_nil _ _, [0], .cons hnought .nil, by simp [hzero]⟩
  · next hpos =>
    refine ⟨?_, (Nat.digits base n).reverse, ?_, ?_⟩
    · rw [ne_eq, List.map_eq_nil_iff, List.reverse_eq_nil_iff]
      exact Nat.digits_ne_nil_iff_ne_zero.mpr hpos
    · rw [List.forall₂_map_left_iff, List.forall₂_same]
      exact fun d hd ↦ hdigit d (Nat.digits_lt_base hbase (List.mem_reverse.mp hd))
    · rw [List.reverse_reverse, Nat.ofDigits_digits]

/-- Every integer can be written in every base. -/
theorem inBase_integerText {base : Nat} (hbase : 2 ≤ base) (hbase' : base ≤ 36) (n : Int) :
    InBase base (integerText base n) n := by
  obtain ⟨hsome, ds, hds, hvalue⟩ := digits_naturalText hbase hbase' n.natAbs
  have hmk (negative : Bool) : InBase base ((if negative then [45] else []) ++ naturalText base n.natAbs)
      (signed negative n.natAbs) := by
    have hin := InBase.mk negative (List.forall_mem_nil _) hsome hds (List.forall_mem_nil _)
    rwa [hvalue, List.nil_append, List.append_nil] at hin
  unfold integerText
  split
  · next hneg =>
    have hvalue : signed true n.natAbs = n := by
      rw [signed, if_pos rfl]
      omega
    have hminus := hmk true
    rwa [hvalue] at hminus
  · next hpos =>
    have hvalue : signed false n.natAbs = n := Int.natAbs_of_nonneg (Int.not_lt.mp hpos)
    have hplus := hmk false
    rwa [hvalue] at hplus

/-- A text is read as an integer in a base exactly if it is one there that 64 bits hold, and not the smallest
of these: the sign is put to a positive integer, and there is none to match it. So all integers but the
smallest are read again when they were written. Nothing overflows on the way. -/
theorem radix_integers {base : Nat} (hbase : 2 ≤ base) (hbase' : base ≤ 36) :
    (∀ text v, radixInt? base text = some v ↔ InBase base text v.toInt ∧ v ≠ Int64.minValue) ∧
      (∀ v : Int64, radixInt? base (integerText base v.toInt) =
        if v = Int64.minValue then none else some v) ∧
      ∀ text, Checked.radixInt base text = some (radixInt? base text) := by
  have hfits (v : Int64) : int64? v.toInt = some v := int64?_eq_some.mpr rfl
  refine ⟨fun text v ↦ ⟨inBase_of_radixInt? hbase', ?_⟩, fun v ↦ ?_,
    Checked.radixInt_eq ⟨hbase, hbase'⟩⟩
  · rintro ⟨h, hleast⟩
    rw [radixInt?_of_inBase hbase' h, hfits]
    exact Option.filter_some_pos (decide_eq_true hleast)
  · rw [radixInt?_of_inBase hbase' (inBase_integerText hbase hbase' _), hfits]
    split
    · next hleast => exact Option.filter_some_neg (by simp [hleast])
    · next hleast => exact Option.filter_some_pos (decide_eq_true hleast)

/-- Letters of both sizes and blanks around a hexadecimal. -/
theorem radix_integers_hex : InBase 16 (Bytes.ofText " -0Ff ") (-255) ∧
    radixInt? 16 (integerText 16 (-255)) = some (-255) := by
  obtain ⟨hread, hwritten, -⟩ := @radix_integers 16 (by decide) (by decide)
  exact ⟨((hread _ (-255)).mp (by decide)).1, hwritten (-255)⟩

/-- The smallest integer is not read. -/
theorem smallest_not_read : InBase 16 (Bytes.ofText "-8000000000000000") Int64.minValue.toInt ∧
    radixInt? 16 (Bytes.ofText "-8000000000000000") = none := by
  have hdigits : List.Forall₂ (DigitOf 16) (Bytes.ofText "8000000000000000") (8 :: List.replicate 15 0) :=
    (spells_iff (by decide)).mp (mapM_eq_some.mp (by decide))
  exact ⟨.mk true (List.forall_mem_nil _) (by decide) hdigits (List.forall_mem_nil _), by decide⟩

end MiniLua.Numeral
