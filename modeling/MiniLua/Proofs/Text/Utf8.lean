import MiniLua.Text.Utf8

/-! The bytes of a text read as that text, and nothing else does. -/

namespace MiniLua

namespace Utf8

theorem lead_apply {n : Nat} (hn : n < 256) :
    lead (UInt8.ofNat n) =
      if n < 0x80 then completed (some (Char.ofNat n))
      else if n < 0xC2 then completed none
      else if n < 0xE0 then awaiting (n - 0xC0) 1 0x80 0xBF
      else if n < 0xF0 then
        awaiting (n - 0xE0) 2 (if n = 0xE0 then 0xA0 else 0x80) (if n = 0xED then 0x9F else 0xBF)
      else if n < 0xF5 then
        awaiting (n - 0xF0) 3 (if n = 0xF0 then 0x90 else 0x80) (if n = 0xF4 then 0x8F else 0xBF)
      else completed none := by
  have h : (UInt8.ofNat n).toNat = n := UInt8.toNat_ofNat_of_lt' hn
  unfold lead
  dsimp only
  rw [h]

variable {acc : List (Option Char)} {rest : Bytes} {bits k : Nat} {low high : UInt8}

theorem next_apply {needed : Nat} (hk : k < 64) (hlow : low.toNat ≤ k + 0x80)
    (hhigh : k + 0x80 ≤ high.toNat) :
    next (some ⟨bits, needed, low, high⟩) (UInt8.ofNat (k + 0x80)) =
      if needed = 1 then completed (some (Char.ofNat (bits * 64 + k)))
      else awaiting (bits * 64 + k) (needed - 1) 0x80 0xBF := by
  have hsize : k + 0x80 < UInt8.size := by
    rw [UInt8.size]
    omega
  have h : (UInt8.ofNat (k + 0x80)).toNat = k + 0x80 := UInt8.toNat_ofNat_of_lt' hsize
  have hrange : low ≤ UInt8.ofNat (k + 0x80) ∧ UInt8.ofNat (k + 0x80) ≤ high := by
    rw [UInt8.le_iff_toNat_le, UInt8.le_iff_toNat_le, h]
    exact ⟨hlow, hhigh⟩
  unfold next
  dsimp only
  rw [if_pos hrange, h, Nat.add_sub_cancel]

theorem decodeOnto_last (hk : k < 64) (hlow : low.toNat ≤ k + 0x80)
    (hhigh : k + 0x80 ≤ high.toNat) :
    decodeOnto acc (some ⟨bits, 1, low, high⟩) (UInt8.ofNat (k + 0x80) :: rest) =
      decodeOnto (some (Char.ofNat (bits * 64 + k)) :: acc) none rest := by
  rw [decodeOnto, next_apply hk hlow hhigh]
  rfl

theorem decodeOnto_more {n : Nat} (hk : k < 64) (hlow : low.toNat ≤ k + 0x80)
    (hhigh : k + 0x80 ≤ high.toNat) :
    decodeOnto acc (some ⟨bits, n + 2, low, high⟩) (UInt8.ofNat (k + 0x80) :: rest) =
      decodeOnto acc (some ⟨bits * 64 + k, n + 1, 0x80, 0xBF⟩) rest := by
  rw [decodeOnto, next_apply hk hlow hhigh]
  rfl

theorem decodeOnto_lead (b : UInt8) :
    decodeOnto acc none (b :: rest) =
      decodeOnto ((lead b).decoded.reverse ++ acc) (lead b).pending rest := rfl

theorem decodeOnto_char (c : Char) :
    decodeOnto acc none (String.utf8EncodeChar c ++ rest) = decodeOnto (some c :: acc) none rest := by
  have hvalid : c.val.toNat < 0xD800 ∨ 0xDFFF < c.val.toNat ∧ c.val.toNat < 0x110000 := c.valid
  have hc : Char.ofNat c.val.toNat = c := Char.ofNat_toNat c
  unfold String.utf8EncodeChar
  generalize c.val.toNat = v at hvalid hc
  dsimp only
  by_cases h1 : v ≤ 0x7f
  · rw [if_pos h1, List.cons_append, decodeOnto_lead, lead_apply (by omega), if_pos (by omega), hc]
    rfl
  rw [if_neg h1]
  by_cases h2 : v ≤ 0x7ff
  · rw [if_pos h2, List.cons_append, List.cons_append, decodeOnto_lead, lead_apply (by omega),
      if_neg (by omega), if_neg (by omega), if_pos (by omega)]
    refine (decodeOnto_last (k := v % 64) (by omega) (by simp) (by simp; omega)).trans ?_
    rw [show (v / 64 % 32 + 192 - 192) * 64 + v % 64 = v by omega, hc]
    rfl
  rw [if_neg h2]
  by_cases h3 : v ≤ 0xffff
  · rw [if_pos h3, List.cons_append, List.cons_append, List.cons_append, decodeOnto_lead,
      lead_apply (by omega), if_neg (by omega), if_neg (by omega), if_neg (by omega),
      if_pos (by omega)]
    have hlow : (if v / 4096 % 16 + 224 = 0xE0 then (0xA0 : UInt8) else 0x80).toNat ≤
        v / 64 % 64 + 0x80 := by
      split
      · simp only [UInt8.reduceToNat]
        omega
      · simp
    have hhigh : v / 64 % 64 + 0x80 ≤
        (if v / 4096 % 16 + 224 = 0xED then (0x9F : UInt8) else 0xBF).toNat := by
      split
      · simp only [UInt8.reduceToNat]
        omega
      · simp only [UInt8.reduceToNat]
        omega
    refine (decodeOnto_more (n := 0) (k := v / 64 % 64) (by omega) hlow hhigh).trans ?_
    refine (decodeOnto_last (k := v % 64) (by omega) (by simp) (by simp; omega)).trans ?_
    rw [show ((v / 4096 % 16 + 224 - 224) * 64 + v / 64 % 64) * 64 + v % 64 = v by omega, hc]
    rfl
  rw [if_neg h3, List.cons_append, List.cons_append, List.cons_append, List.cons_append,
    decodeOnto_lead, lead_apply (by omega), if_neg (by omega), if_neg (by omega),
    if_neg (by omega), if_neg (by omega), if_pos (by omega)]
  have hlow : (if v / 262144 % 8 + 240 = 0xF0 then (0x90 : UInt8) else 0x80).toNat ≤
      v / 4096 % 64 + 0x80 := by
    split
    · simp only [UInt8.reduceToNat]
      omega
    · simp
  have hhigh : v / 4096 % 64 + 0x80 ≤
      (if v / 262144 % 8 + 240 = 0xF4 then (0x8F : UInt8) else 0xBF).toNat := by
    split
    · simp only [UInt8.reduceToNat]
      omega
    · simp only [UInt8.reduceToNat]
      omega
  refine (decodeOnto_more (n := 1) (k := v / 4096 % 64) (by omega) hlow hhigh).trans ?_
  refine (decodeOnto_more (n := 0) (k := v / 64 % 64) (by omega) (by simp)
    (by simp; omega)).trans ?_
  refine (decodeOnto_last (k := v % 64) (by omega) (by simp) (by simp; omega)).trans ?_
  rw [show (((v / 262144 % 8 + 240 - 240) * 64 + v / 4096 % 64) * 64 + v / 64 % 64) * 64 + v % 64 =
    v by omega, hc]
  rfl

theorem decodeOnto_chars (cs : List Char) (acc : List (Option Char)) :
    decodeOnto acc none (cs.flatMap String.utf8EncodeChar) = (cs.map some).reverse ++ acc := by
  induction cs generalizing acc with
  | nil => rfl
  | cons c cs ih =>
    rw [List.flatMap_cons, decodeOnto_char, ih, List.map_cons, List.reverse_cons,
      List.append_assoc, List.singleton_append]

variable {bytes : Bytes} {l m n : Nat}

theorem mem_decodeOnto {item : Option Char} {p : Option Pending} (h : item ∈ acc) :
    item ∈ decodeOnto acc p bytes := by
  induction bytes generalizing acc p with
  | nil =>
    cases p with
    | none => exact h
    | some p => exact List.mem_cons_of_mem none h
  | cons b rest ih =>
    rw [decodeOnto]
    exact ih (List.mem_append_right _ h)

/-- A sequence in progress that is not malformed goes on. -/
theorem exists_of_awaiting {needed : Nat} (hlow : 0x80 ≤ low.toNat) (hhigh : high.toNat ≤ 0xBF)
    (h : none ∉ decodeOnto acc (some ⟨bits, needed, low, high⟩) bytes) :
    ∃ k rest, bytes = UInt8.ofNat (k + 0x80) :: rest ∧ k < 64 ∧ low.toNat ≤ k + 0x80 ∧
      k + 0x80 ≤ high.toNat := by
  cases bytes with
  | nil => exact absurd List.mem_cons_self h
  | cons b rest =>
    by_cases hb : low ≤ b ∧ b ≤ high
    · have hb' := hb
      rw [UInt8.le_iff_toNat_le, UInt8.le_iff_toNat_le] at hb'
      refine ⟨b.toNat - 0x80, rest, ?_, by omega, by omega, by omega⟩
      rw [Nat.sub_add_cancel (by omega), UInt8.ofNat_toNat]
    · have hnone : none ∈ (next (some ⟨bits, needed, low, high⟩) b).decoded.reverse ++ acc := by
        rw [next, if_neg hb]
        simp
      rw [decodeOnto] at h
      exact absurd (mem_decodeOnto hnone) h

theorem toNat_ofNat_of_valid (hn : n < 0xD800 ∨ 0xDFFF < n ∧ n < 0x110000) :
    (Char.ofNat n).val.toNat = n := by
  have hn : n.isValidChar := hn
  rw [Char.ofNat, dif_pos hn]
  rfl

theorem encode_one (hn : n < 0x80) : String.utf8EncodeChar (Char.ofNat n) = [UInt8.ofNat n] := by
  unfold String.utf8EncodeChar
  rw [toNat_ofNat_of_valid (by omega)]
  dsimp only
  rw [if_pos (by omega)]

theorem encode_two (hn : 0xC2 ≤ n) (hn' : n < 0xE0) (hk : k < 64) :
    String.utf8EncodeChar (Char.ofNat ((n - 0xC0) * 64 + k)) =
      [UInt8.ofNat n, UInt8.ofNat (k + 0x80)] := by
  unfold String.utf8EncodeChar
  rw [toNat_ofNat_of_valid (by omega)]
  dsimp only
  rw [if_neg (by omega), if_pos (by omega), show ((n - 0xC0) * 64 + k) / 64 % 32 + 0xC0 = n by omega,
    show ((n - 0xC0) * 64 + k) % 64 = k by omega]

theorem encode_three (hn : 0xE0 ≤ n) (hn' : n < 0xF0) (hk : k < 64) (hl : l < 64)
    (hlow : n = 0xE0 → 0x20 ≤ k) (hhigh : n = 0xED → k < 0x20) :
    String.utf8EncodeChar (Char.ofNat (((n - 0xE0) * 64 + k) * 64 + l)) =
      [UInt8.ofNat n, UInt8.ofNat (k + 0x80), UInt8.ofNat (l + 0x80)] := by
  unfold String.utf8EncodeChar
  rw [toNat_ofNat_of_valid (by omega)]
  dsimp only
  rw [if_neg (by omega), if_neg (by omega), if_pos (by omega),
    show (((n - 0xE0) * 64 + k) * 64 + l) / 4096 % 16 + 0xE0 = n by omega,
    show (((n - 0xE0) * 64 + k) * 64 + l) / 64 % 64 = k by omega,
    show (((n - 0xE0) * 64 + k) * 64 + l) % 64 = l by omega]

theorem encode_four (hn : 0xF0 ≤ n) (hn' : n < 0xF5) (hk : k < 64) (hl : l < 64) (hm : m < 64)
    (hlow : n = 0xF0 → 0x10 ≤ k) (hhigh : n = 0xF4 → k < 0x10) :
    String.utf8EncodeChar (Char.ofNat ((((n - 0xF0) * 64 + k) * 64 + l) * 64 + m)) =
      [UInt8.ofNat n, UInt8.ofNat (k + 0x80), UInt8.ofNat (l + 0x80), UInt8.ofNat (m + 0x80)] := by
  unfold String.utf8EncodeChar
  rw [toNat_ofNat_of_valid (by omega)]
  dsimp only
  rw [if_neg (by omega), if_neg (by omega), if_neg (by omega),
    show ((((n - 0xF0) * 64 + k) * 64 + l) * 64 + m) / 262144 % 8 + 0xF0 = n by omega,
    show ((((n - 0xF0) * 64 + k) * 64 + l) * 64 + m) / 4096 % 64 = k by omega,
    show ((((n - 0xF0) * 64 + k) * 64 + l) * 64 + m) / 64 % 64 = l by omega,
    show ((((n - 0xF0) * 64 + k) * 64 + l) * 64 + m) % 64 = m by omega]

theorem exists_three (hn : 0xE0 ≤ n) (hn' : n < 0xF0)
    (h : none ∉ decodeOnto acc (some ⟨n - 0xE0, 2, if n = 0xE0 then 0xA0 else 0x80,
      if n = 0xED then 0x9F else 0xBF⟩) bytes) :
    ∃ c rest, UInt8.ofNat n :: bytes = String.utf8EncodeChar c ++ rest := by
  obtain ⟨k, rest, rfl, hk, hlow, hhigh⟩ :=
    exists_of_awaiting (by split <;> decide) (by split <;> decide) h
  rw [decodeOnto_more hk hlow hhigh] at h
  obtain ⟨l, rest, rfl, hl, -, -⟩ := exists_of_awaiting (by decide) (by decide) h
  have hlow' : n = 0xE0 → 0x20 ≤ k := by
    rintro rfl
    exact Nat.le_of_add_le_add_right (b := 0x80) hlow
  have hhigh' : n = 0xED → k < 0x20 := by
    rintro rfl
    exact Nat.lt_succ_of_le (Nat.le_of_add_le_add_right hhigh)
  exact ⟨_, rest, by rw [encode_three hn hn' hk hl hlow' hhigh']; rfl⟩

theorem exists_four (hn : 0xF0 ≤ n) (hn' : n < 0xF5)
    (h : none ∉ decodeOnto acc (some ⟨n - 0xF0, 3, if n = 0xF0 then 0x90 else 0x80,
      if n = 0xF4 then 0x8F else 0xBF⟩) bytes) :
    ∃ c rest, UInt8.ofNat n :: bytes = String.utf8EncodeChar c ++ rest := by
  obtain ⟨k, rest, rfl, hk, hlow, hhigh⟩ :=
    exists_of_awaiting (by split <;> decide) (by split <;> decide) h
  rw [decodeOnto_more hk hlow hhigh] at h
  obtain ⟨l, rest, rfl, hl, hlow₂, hhigh₂⟩ := exists_of_awaiting (by decide) (by decide) h
  rw [decodeOnto_more hl hlow₂ hhigh₂] at h
  obtain ⟨m, rest, rfl, hm, -, -⟩ := exists_of_awaiting (by decide) (by decide) h
  have hlow' : n = 0xF0 → 0x10 ≤ k := by
    rintro rfl
    exact Nat.le_of_add_le_add_right (b := 0x80) hlow
  have hhigh' : n = 0xF4 → k < 0x10 := by
    rintro rfl
    exact Nat.lt_succ_of_le (Nat.le_of_add_le_add_right hhigh)
  exact ⟨_, rest, by rw [encode_four hn hn' hk hl hm hlow' hhigh']; rfl⟩

/-- Bytes without malformed stretches begin with a character. -/
theorem exists_char {b : UInt8} (h : none ∉ decodeOnto acc none (b :: rest)) :
    ∃ c rest', b :: rest = String.utf8EncodeChar c ++ rest' := by
  have hlt := b.toNat_lt
  have hbad : none ∈ (completed none).decoded.reverse ++ acc := List.mem_cons_self
  rw [← UInt8.ofNat_toNat (x := b)] at h ⊢
  generalize b.toNat = n at h hlt ⊢
  rw [decodeOnto_lead, lead_apply hlt] at h
  by_cases h1 : n < 0x80
  · exact ⟨_, rest, by rw [encode_one h1]; rfl⟩
  rw [if_neg h1] at h
  by_cases h2 : n < 0xC2
  · rw [if_pos h2] at h
    exact absurd (mem_decodeOnto hbad) h
  rw [if_neg h2] at h
  by_cases h3 : n < 0xE0
  · rw [if_pos h3] at h
    obtain ⟨k, rest, rfl, hk, -, -⟩ := exists_of_awaiting (by decide) (by decide) h
    exact ⟨_, rest, by rw [encode_two (Nat.le_of_not_lt h2) h3 hk]; rfl⟩
  rw [if_neg h3] at h
  by_cases h4 : n < 0xF0
  · rw [if_pos h4] at h
    exact exists_three (Nat.le_of_not_lt h3) h4 h
  rw [if_neg h4] at h
  by_cases h5 : n < 0xF5
  · rw [if_pos h5] at h
    exact exists_four (Nat.le_of_not_lt h4) h5 h
  · rw [if_neg h5] at h
    exact absurd (mem_decodeOnto hbad) h

theorem exists_chars (h : none ∉ decodeOnto acc none bytes) :
    ∃ cs : List Char, bytes = cs.flatMap String.utf8EncodeChar := by
  induction hn : bytes.length using Nat.strongRecOn generalizing acc bytes with
  | ind n ih =>
    cases bytes with
    | nil => exact ⟨[], rfl⟩
    | cons b rest =>
      obtain ⟨c, rest', hbytes⟩ := exists_char h
      rw [hbytes, decodeOnto_char] at h
      have hlength := congrArg List.length hbytes
      rw [List.length_append, String.length_utf8EncodeChar] at hlength
      have hpos := c.utf8Size_pos
      obtain ⟨cs, rfl⟩ := ih rest'.length (by omega) h rfl
      exact ⟨c :: cs, hbytes⟩

end Utf8

theorem Bytes.ofText_eq (text : String) :
    Bytes.ofText text = text.toList.flatMap String.utf8EncodeChar := by
  rw [Bytes.ofText, ← String.utf8Encode_toList, List.utf8Encode]
  simp

theorem Bytes.ofText_append (s t : String) :
    Bytes.ofText (s ++ t) = Bytes.ofText s ++ Bytes.ofText t := by
  simp [Bytes.ofText_eq]

theorem Bytes.toText?_ofText (text : String) : (Bytes.ofText text).toText? = some text := by
  have hmap (cs : List Char) : (cs.map some).mapM id = some cs := by
    induction cs with
    | nil => rfl
    | cons c cs ih => simp [ih]
  rw [Bytes.toText?, Utf8.decode, Bytes.ofText_eq, Utf8.decodeOnto_chars, List.append_nil,
    List.reverse_reverse, hmap, Option.map_some, String.ofList_toList]

/-- Bytes that read as a text are the bytes of that text. -/
theorem Bytes.ofText_of_toText? {bytes : Bytes} {text : String} (h : bytes.toText? = some text) :
    Bytes.ofText text = bytes := by
  rw [Bytes.toText?, Utf8.decode, Option.map_eq_some_iff] at h
  obtain ⟨cs, hcs, rfl⟩ := h
  have hall {items : List (Option Char)} {cs : List Char} (h : items.mapM id = some cs) :
      items = cs.map some := by
    induction items generalizing cs with
    | nil =>
      cases h
      rfl
    | cons item items ih =>
      simp only [List.mapM_cons, id, Option.bind_eq_bind, Option.bind_eq_some_iff] at h
      obtain ⟨c, rfl, cs, hcs, h⟩ := h
      cases h
      rw [ih hcs, List.map_cons]
  have hdecoded := hall hcs
  have hnone : none ∉ Utf8.decodeOnto [] none bytes := by
    rw [← List.mem_reverse, hdecoded]
    simp
  obtain ⟨ds, rfl⟩ := Utf8.exists_chars hnone
  rw [Utf8.decodeOnto_chars, List.append_nil, List.reverse_reverse] at hdecoded
  obtain rfl := (List.map_inj_right fun _ _ ↦ Option.some.inj).mp hdecoded
  rw [Bytes.ofText_eq, String.toList_ofList]

theorem Bytes.toTextLossy_ofText (text : String) : (Bytes.ofText text).toTextLossy = text := by
  have hmap (cs : List Char) : (cs.map some).map (fun item ↦ item.getD '\uFFFD') = cs := by
    simp [Function.comp_def]
  rw [Bytes.toTextLossy, Utf8.decode, Bytes.ofText_eq, Utf8.decodeOnto_chars, List.append_nil,
    List.reverse_reverse, hmap, String.ofList_toList]

/-- ASCII bytes are the bytes of a text. -/
theorem Bytes.exists_ofText {bytes : Bytes} (h : ∀ b ∈ bytes, b.toNat < 0x80) :
    ∃ text, Bytes.ofText text = bytes := by
  refine ⟨String.ofList (bytes.map fun b ↦ Char.ofNat b.toNat), ?_⟩
  rw [Bytes.ofText_eq, String.toList_ofList]
  induction bytes with
  | nil => rfl
  | cons b bytes ih =>
    obtain ⟨hb, hbytes⟩ := List.forall_mem_cons.mp h
    rw [List.map_cons, List.flatMap_cons, ih hbytes, Utf8.encode_one hb, UInt8.ofNat_toNat]
    rfl

end MiniLua
