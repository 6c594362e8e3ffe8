import MiniLua.Proofs.Text.Escapes

/-!
The text of a number. A literal that a blank or the end of the text follows is taken to its end, and
what is taken for a number is a literal.
-/

namespace MiniLua.Numeral

/-- A digit, or a byte below the digits, is no letter. -/
theorem toLower_ne {b : UInt8} (hb : b.toNat < 58) {c : Char} (hc : c = 'i' ∨ c = 'n') :
    (Char.ofUInt8 b).toLower ≠ c := by
  have hlower : (Char.ofUInt8 b).toLower = Char.ofUInt8 b := by
    refine dif_neg fun hupper ↦ ?_
    have hlow : 65 ≤ b.toNat := UInt32.le_iff_toNat_le.mp hupper.1
    omega
  rw [hlower]
  rintro rfl
  have hbyte := Lexer.toUInt8_ofUInt8 b
  obtain hc | hc := hc
  all_goals
    rw [hc] at hbyte
    subst hbyte
    exact absurd hb (by decide)

/-- The first byte of no name of a special value. -/
def Nameless (body : Bytes) : Prop :=
  ∀ b ∈ body.head?, (Char.ofUInt8 b).toLower ≠ 'i' ∧ (Char.ofUInt8 b).toLower ≠ 'n'

theorem lower_ne {body : Bytes} (h : Nameless body) {name : String} {c : Char} {cs : List Char}
    (hname : name.toList = c :: cs) (hc : c = 'i' ∨ c = 'n') : lower body ≠ name := by
  rintro rfl
  rw [lower, String.toList_ofList] at hname
  cases body with
  | nil => cases hname
  | cons b body =>
    obtain ⟨hi, hn⟩ := h b rfl
    obtain ⟨hb, -⟩ := List.cons.inj hname
    obtain rfl | rfl := hc
    · exact hi hb
    · exact hn hb

theorem float?_eq {text body : Bytes} {negative : Bool} (hsplit : splitSign text = (negative, body))
    (hname : Nameless body) :
    float? text = (unsigned? body).map fun x ↦ if negative then -x else x := by
  rw [float?, hsplit]
  dsimp only
  rw [if_neg (not_or.mpr ⟨lower_ne hname rfl (.inl rfl), lower_ne hname rfl (.inl rfl)⟩),
    if_neg (lower_ne hname rfl (.inr rfl))]
  cases unsigned? body <;> rfl

end MiniLua.Numeral

namespace MiniLua.Lexer

/-- The end of the text, or a space. -/
def Separated (rest : Bytes) : Prop := rest = [] ∨ ∃ more, rest = 32 :: more

variable {rest : Bytes}

theorem Separated.takeWhile (hrest : Separated rest) {p : UInt8 → Bool} (hp : p 32 = false)
    {text : Bytes} (htext : ∀ b ∈ text, p b) : (text ++ rest).takeWhile p = text := by
  rw [List.takeWhile_append_of_pos htext]
  obtain rfl | ⟨more, rfl⟩ := hrest
  · exact List.append_nil text
  · rw [List.takeWhile_cons_of_neg (by simp [hp]), List.append_nil]

theorem decimalLength_separated (hrest : Separated rest) : decimalLength false rest = 0 := by
  obtain rfl | ⟨more, rfl⟩ := hrest <;> rfl

theorem decimalLength_digit {d : UInt8} (hd : isDigit d) (mark : Bool) :
    decimalLength mark (d :: rest) = decimalLength false rest + 1 := by
  rw [decimalLength, hd]
  rfl

theorem decimalLength_digits {digits : Bytes} (h : ∀ d ∈ digits, isDigit d) :
    decimalLength false (digits ++ rest) = digits.length + decimalLength false rest := by
  induction digits with
  | nil => exact (Nat.zero_add _).symm
  | cons d digits ih =>
    obtain ⟨hd, hdigits⟩ := List.forall_mem_cons.mp h
    rw [List.cons_append, decimalLength_digit hd, ih hdigits, List.length_cons]
    omega

theorem isDigit_of_digitValue? {b : UInt8} {value : Nat} (h : digitValue? 10 b = some value) :
    isDigit b := by
  have hsmall := digitValue?_lt h
  simp only [digitValue?, Option.ite_none_right_eq_some, Option.some.injEq] at h
  obtain ⟨-, h⟩ := h
  rw [isDigit_iff]
  split at h
  · next hrange =>
    rwa [UInt8.le_iff_toNat_le, UInt8.le_iff_toNat_le] at hrange
  · split at h
    · next hrange =>
      have hlow : 97 ≤ b.toNat := UInt8.le_iff_toNat_le.mp hrange.1
      omega
    · split at h
      · next hrange =>
        have hlow : 65 ≤ b.toNat := UInt8.le_iff_toNat_le.mp hrange.1
        omega
      · omega

theorem forall_of_mapM {base : Nat} {bytes : Bytes} {digits : List Nat}
    (h : bytes.mapM (digitValue? base) = some digits) :
    ∀ b ∈ bytes, (digitValue? base b).isSome := by
  induction bytes generalizing digits with
  | nil => exact List.forall_mem_nil _
  | cons b bytes ih =>
    simp only [List.mapM_cons, Option.bind_eq_bind, Option.bind_eq_some_iff] at h
    obtain ⟨d, hd, ds, hds, -⟩ := h
    exact List.forall_mem_cons.mpr ⟨by rw [hd]; rfl, ih hds⟩

/-- Where a natural number is read there are digits. -/
theorem digits_of_natural? {bytes : Bytes} {n : Nat} (h : Numeral.natural? 10 bytes = some n) :
    bytes ≠ [] ∧ ∀ b ∈ bytes, isDigit b := by
  simp only [Numeral.natural?, Option.ite_none_left_eq_some, Option.map_eq_some_iff] at h
  obtain ⟨hsome, digits, hdigits, -⟩ := h
  refine ⟨by simpa using hsome, fun b hb ↦ ?_⟩
  obtain ⟨value, hvalue⟩ := Option.isSome_iff_exists.mp (forall_of_mapM hdigits b hb)
  exact isDigit_of_digitValue? hvalue

theorem splitSign_cases (bytes : Bytes) : bytes = (Numeral.splitSign bytes).2 ∨
    ∃ sign, (sign = 43 ∨ sign = 45) ∧ bytes = sign :: (Numeral.splitSign bytes).2 := by
  unfold Numeral.splitSign
  split
  · exact .inr ⟨45, .inr rfl, rfl⟩
  · exact .inr ⟨43, .inl rfl, rfl⟩
  · exact .inl rfl

theorem decimalLength_exponent (hrest : Separated rest) {bytes : Bytes} (h : (Numeral.exponent? bytes).isSome) :
    decimalLength false (bytes ++ rest) = bytes.length := by
  cases bytes with
  | nil => exact decimalLength_separated hrest
  | cons b bytes =>
    obtain ⟨e, h⟩ := Option.isSome_iff_exists.mp h
    rw [Numeral.exponent?, Option.ite_none_right_eq_some] at h
    obtain ⟨hmark, h⟩ := h
    have hfirst (more : Bytes) : decimalLength false (b :: more) = decimalLength true more + 1 := by
      obtain rfl | rfl := hmark <;> rfl
    have hcases := splitSign_cases bytes
    generalize Numeral.splitSign bytes = split at h hcases
    simp only [Option.map_eq_some_iff, Option.bind_eq_bind, Option.bind_eq_some_iff] at h
    obtain ⟨-, ⟨n, hn, -⟩, -⟩ := h
    obtain ⟨hsome, hdigits⟩ := digits_of_natural? hn
    rw [List.cons_append, hfirst, List.length_cons]
    obtain rfl | ⟨sign, hsign, rfl⟩ := hcases
    · obtain ⟨d, more, hmore⟩ := List.exists_cons_of_ne_nil hsome
      rw [hmore] at hdigits ⊢
      obtain ⟨hd, hmore⟩ := List.forall_mem_cons.mp hdigits
      rw [List.cons_append, decimalLength_digit hd, decimalLength_digits hmore,
        decimalLength_separated hrest]
      rfl
    · have hsecond (more : Bytes) :
          decimalLength true (sign :: more) = decimalLength false more + 1 := by
        obtain rfl | rfl := hsign <;> rfl
      rw [List.cons_append, hsecond, decimalLength_digits hdigits, decimalLength_separated hrest]
      rfl

theorem decimalLength_unsigned (hrest : Separated rest) {text : Bytes} (h : (Numeral.unsigned? text).isSome) :
    decimalLength false (text ++ rest) = text.length := by
  have hwhole : ∀ b ∈ text.takeWhile isDigit, isDigit b := fun _ ↦ List.mem_takeWhile_imp
  have hsplit : text.takeWhile isDigit ++ text.dropWhile isDigit = text :=
    List.takeWhile_append_dropWhile
  unfold Numeral.unsigned? at h
  generalize text.takeWhile isDigit = whole at h hwhole hsplit
  generalize text.dropWhile isDigit = more at h hsplit
  subst hsplit
  rw [List.append_assoc, decimalLength_digits hwhole, List.length_append]
  congr 1
  have hexponent {digits : Bytes} {fraction : Bytes × Bytes}
      (h : (do
        let digits ← digits.mapM (digitValue? 10)
        let exponent ← Numeral.exponent? fraction.2
        return Numeral.scale digits (exponent - fraction.1.length)).isSome) :
      (Numeral.exponent? fraction.2).isSome := by
    simp only [Option.isSome_iff_exists, Option.bind_eq_bind, Option.bind_eq_some_iff] at h
    obtain ⟨-, -, -, e, he, -⟩ := h
    exact Option.isSome_iff_exists.mpr ⟨e, he⟩
  dsimp only at h
  split at h
  · next point more =>
    split at h
    · cases h
    · have hpoint :
          decimalLength false (46 :: more ++ rest) = decimalLength false (more ++ rest) + 1 := rfl
      have hfraction : ∀ b ∈ more.takeWhile isDigit, isDigit b := fun _ ↦ List.mem_takeWhile_imp
      have hlength := decimalLength_exponent hrest (hexponent h)
      rw [hpoint, List.length_cons]
      conv => lhs; rw [← List.takeWhile_append_dropWhile (p := isDigit) (l := more)]
      conv => rhs; rw [← List.takeWhile_append_dropWhile (p := isDigit) (l := more)]
      rw [List.append_assoc, decimalLength_digits hfraction, hlength, List.length_append]
  · split at h
    · cases h
    · exact decimalLength_exponent hrest (hexponent h)

theorem toNat_of_start {b : UInt8} (hb : isDigit b ∨ b = 46) :
    b.toNat < 58 ∧ b.toNat ≠ 43 ∧ b.toNat ≠ 45 := by
  obtain hb | rfl := hb
  · obtain ⟨hlow, hhigh⟩ := isDigit_iff.mp hb
    omega
  · decide

theorem splitSign_cons {b : UInt8} {text : Bytes} (hb : isDigit b ∨ b = 46) :
    Numeral.splitSign (b :: text) = (false, b :: text) := by
  obtain ⟨-, hplus, hminus⟩ := toNat_of_start hb
  unfold Numeral.splitSign
  split
  · next heq =>
    cases heq
    exact absurd rfl hminus
  · next heq =>
    cases heq
    exact absurd rfl hplus
  · rfl

theorem nameless_of_start {b : UInt8} (hb : isDigit b ∨ b = 46) (text : Bytes) :
    Numeral.Nameless (b :: text) := by
  intro c hc
  cases hc
  have hsmall := toNat_of_start hb
  exact ⟨Numeral.toLower_ne hsmall.1 (.inl rfl), Numeral.toLower_ne hsmall.1 (.inr rfl)⟩

/-- What starts with a digit or a point has no sign, and is no name of a special value. -/
theorem unsigned_of_float? {b : UInt8} {text : Bytes} (hb : isDigit b ∨ b = 46)
    (h : (Numeral.float? (b :: text)).isSome) : (Numeral.unsigned? (b :: text)).isSome := by
  rw [Numeral.float?_eq (splitSign_cons hb) (nameless_of_start hb text), Option.isSome_map] at h
  exact h

theorem takeWhile_hex (hrest : Separated rest) {digits : Bytes} (h : (Numeral.hex? digits).isSome) :
    (digits ++ rest).takeWhile (fun b ↦ (digitValue? 16 b).isSome) = digits := by
  obtain ⟨value, h⟩ := Option.isSome_iff_exists.mp h
  rw [Numeral.hex?, Option.ite_none_left_eq_some, Option.map_eq_some_iff] at h
  obtain ⟨-, values, hvalues, -⟩ := h
  exact hrest.takeWhile rfl (forall_of_mapM hvalues)

theorem decimalLength_decimal (hrest : Separated rest) {b : UInt8} {text : Bytes} (hb : isDigit b ∨ b = 46)
    (h : (Numeral.decimal? (b :: text)).isSome) :
    decimalLength false (b :: text ++ rest) = (b :: text).length := by
  have hfloat (h : (Numeral.float? (b :: text)).isSome) :
      decimalLength false (b :: text ++ rest) = (b :: text).length :=
    decimalLength_unsigned hrest (unsigned_of_float? hb h)
  rw [Numeral.decimal?] at h
  split at h
  · exact hfloat (by rwa [Option.isSome_map] at h)
  · split at h
    · next i hi =>
      rw [Numeral.int?, splitSign_cons hb] at hi
      obtain ⟨n, hn, -⟩ := Option.bind_eq_some_iff.mp hi
      rw [decimalLength_digits (digits_of_natural? hn).2, decimalLength_separated hrest]
      rfl
    · exact hfloat (by rwa [Option.isSome_map] at h)

/-- What starts a number is a digit or a point. -/
theorem startsNumber_cases {text : Bytes} (h : startsNumber text) :
    ∃ b more, text = b :: more ∧ (isDigit b ∨ b = 46) := by
  unfold startsNumber at h
  split at h
  · exact ⟨_, _, rfl, .inr rfl⟩
  · exact ⟨_, _, rfl, .inl h⟩
  · cases h

/-- The text of a literal is taken to its end. -/
theorem numberLength_literal (hrest : Separated rest) {text : Bytes} (hstart : startsNumber text)
    (hliteral : (Numeral.literal? text).isSome) : numberLength (text ++ rest) = text.length := by
  unfold Numeral.literal? at hliteral
  split at hliteral
  · next digits =>
    rw [Option.isSome_map] at hliteral
    have hlength : numberLength (48 :: 120 :: digits ++ rest) =
        2 + ((digits ++ rest).takeWhile fun b ↦ (digitValue? 16 b).isSome).length := rfl
    rw [hlength, takeWhile_hex hrest hliteral, List.length_cons, List.length_cons]
    omega
  · next digits =>
    rw [Option.isSome_map] at hliteral
    have hlength : numberLength (48 :: 88 :: digits ++ rest) =
        2 + ((digits ++ rest).takeWhile fun b ↦ (digitValue? 16 b).isSome).length := rfl
    rw [hlength, takeWhile_hex hrest hliteral, List.length_cons, List.length_cons]
    omega
  · next hlower hupper =>
    obtain ⟨b, text, rfl, hb⟩ := startsNumber_cases hstart
    refine Eq.trans ?_ (decimalLength_decimal hrest hb hliteral)
    have hplain {x : UInt8} (hx : x ≠ 32) (more : Bytes)
        (hnot : ∀ digits, b :: text = 48 :: x :: digits → False) :
        b :: text ++ rest ≠ 48 :: x :: more := by
      intro heq
      rw [List.cons_append, List.cons.injEq] at heq
      obtain ⟨rfl, heq⟩ := heq
      cases text with
      | nil =>
        obtain rfl | ⟨more, rfl⟩ := hrest
        · cases heq
        · exact hx (List.cons.inj heq).1.symm
      | cons c text => exact hnot text (by rw [(List.cons.inj heq).1])
    unfold numberLength
    split
    · next heq => exact absurd heq (hplain (by decide) _ hlower)
    · next heq => exact absurd heq (hplain (by decide) _ hupper)
    · rfl

theorem number_of_literal (hrest : Separated rest) {text : Bytes} (hstart : startsNumber text)
    (hliteral : (Numeral.literal? text).isSome) :
    number (text ++ rest) = .ok (.number text, text.length) := by
  have htail : rest.takeWhile isNameByte = [] := by
    simpa using hrest.takeWhile rfl (List.forall_mem_nil fun b ↦ isNameByte b = true)
  rw [number, numberLength_literal hrest hstart hliteral, List.take_left, List.drop_left, htail,
    hliteral]
  rfl

theorem startsNumber_of_isDigit {b : UInt8} (hb : isDigit b) (bytes : Bytes) :
    startsNumber (b :: bytes) := by
  unfold startsNumber
  split
  · next heq =>
    obtain rfl := (List.cons.inj heq).1
    exact absurd hb (by decide)
  · next heq => exact (List.cons.inj heq).1 ▸ hb
  · next heq => cases heq

theorem startsNumber_append {text : Bytes} (h : startsNumber text) :
    startsNumber (text ++ rest) := by
  unfold startsNumber at h
  split at h
  · exact h
  · exact startsNumber_of_isDigit h _
  · cases h

/-- What starts with no digit and no point is no number. -/
theorem startsNumber_of_not {b : UInt8} (hb : isDigit b = false) (hpoint : b ≠ 46) (bytes : Bytes) :
    startsNumber (b :: bytes) = false := by
  unfold startsNumber
  split
  · next heq => exact absurd (List.cons.inj heq).1 hpoint
  · next heq => exact (List.cons.inj heq).1 ▸ hb
  · rfl


/-- A number is as long as what shows that it is one. -/
theorem startsNumber_take {bytes : Bytes} (h : startsNumber bytes) (hpos : 0 < numberLength bytes) :
    startsNumber (bytes.take (numberLength bytes)) := by
  unfold startsNumber at h
  split at h
  · next d more =>
    have hlength : numberLength (46 :: d :: more) = decimalLength false more + 1 + 1 :=
      congrArg (· + 1) (decimalLength_digit h false)
    rw [hlength, List.take_succ_cons, List.take_succ_cons]
    exact h
  · next b more hpoint =>
    obtain ⟨n, hn⟩ := Nat.exists_eq_succ_of_ne_zero (Nat.ne_zero_of_lt hpos)
    rw [hn, List.take_succ_cons]
    exact startsNumber_of_isDigit h _
  · cases h

end MiniLua.Lexer
