import MiniLua.Machine.Operators
import MiniLua.Proofs.Checked.Ranges

/-! Reading numbers, remainders and parts of strings by operations that have ranges. -/

namespace MiniLua.Checked

/-! ### Numbers in strings -/

/-- A string without the blanks around it. -/
def trimmed (s : Bytes) : Option Bytes :=
  let first := s.findIdx (!isBlank ·)
  let last := ((s.reverse.findIdx? (!isBlank ·)).map (s.length - ·)).getD first
  slice s first last

/-- Splits a leading sign off; true is minus. -/
def splitSign (s : Bytes) : Option (Bool × Bytes) :=
  match s.head? with
  | some 45 => do return (true, ← slice s 1 s.length)
  | some 43 => do return (false, ← slice s 1 s.length)
  | _ => some (false, s)

/-- Whether a string begins as a hexadecimal number and goes on. -/
def isHex (s : Bytes) : Option Bool :=
  if 2 < s.length then do
    let zero ← s[0]?
    let x ← s[1]?
    return zero = 48 && (x = 120 || x = 88)
  else some false

/-- A numeric string. -/
def numeral (s : Bytes) : Option (Option Numeral) := do
  let text ← trimmed s
  let (negative, body) ← splitSign text
  if body.isEmpty then return none
  else if ← isHex body then
    let digits ← slice body 2 body.length
    return (Numeral.hex? digits).map fun i ↦ .int (if negative then -i else i)
  else if body.all fun b ↦ isDigit b || Numeral.hasByte [b] ['.', 'e', 'E', '+', '-'] then
    return Numeral.decimal? text
  else return none

/-- The value of a digit in a base that has one for each of its values. -/
def digit (base : Nat) (b : UInt8) : Option (Option Nat) :=
  if 2 ≤ base ∧ base ≤ 36 then some (digitValue? base b) else none

/-- Digits read one after the other, as long as the number has 64 bits. -/
def accumulate (base : Nat) : Bytes → Int64 → Option (Option Int64)
  | [], acc => some (some acc)
  | b :: rest, acc => do
    match ← digit base b with
    | none => return none
    | some d =>
      match (mul acc (Int64.ofNat base)).bind (add · (Int64.ofNat d)) with
      | none => return none
      | some acc => accumulate base rest acc

/-- Splits a minus off. -/
def splitMinus (s : Bytes) : Option (Bool × Bytes) :=
  match s.head? with
  | some 45 => do return (true, ← slice s 1 s.length)
  | _ => some (false, s)

/-- An integer of these digits. -/
def signedInt (base : Nat) (negative : Bool) (digits : Bytes) : Option (Option Int64) := do
  if digits.isEmpty then return none
  match ← accumulate base digits 0 with
  | none => return none
  | some acc => if negative then return some (← neg acc) else return some acc

/-- An integer in a base with an optional minus. -/
def radixInt (base : Nat) (s : Bytes) : Option (Option Int64) := do
  let text ← trimmed s
  let (negative, digits) ← splitMinus text
  signedInt base negative digits

theorem trimmed_eq (s : Bytes) : trimmed s = some (Numeral.trimmed s) := by
  have hs : s = s.takeWhile isBlank ++ s.dropWhile isBlank := List.takeWhile_append_dropWhile.symm
  have hfirst : s.findIdx (!isBlank ·) = (s.takeWhile isBlank).length := by
    rw [List.takeWhile_eq_take_findIdx_not, List.length_take,
      Nat.min_eq_left List.findIdx_le_length]
  have hlast : s.reverse.findIdx? (!isBlank ·) =
      ((s.dropWhile isBlank).reverse.findIdx? (!isBlank ·)) := by
    have hblank : (s.takeWhile isBlank).reverse.findIdx? (!isBlank ·) = none := by
      refine List.findIdx?_eq_none_iff.mpr fun b hb ↦ ?_
      rw [List.mem_takeWhile_imp (List.mem_reverse.mp hb)]
      rfl
    conv_lhs => rw [hs]
    rw [List.reverse_append, List.findIdx?_append, hblank, Option.map_none, Option.or_none]
  unfold trimmed Numeral.trimmed
  rw [hlast, hfirst]
  have hlength : s.length = (s.takeWhile isBlank).length + (s.dropWhile isBlank).length := by
    rw [← List.length_append, ← hs]
  generalize hd : s.dropWhile isBlank = d at *
  dsimp only
  rw [List.dropWhile_eq_drop_findIdx_not]
  cases hk : d.reverse.findIdx? (!isBlank ·) with
  | none =>
    have hblank : ∀ b ∈ s, isBlank b := by
      rw [hs]
      intro b hb
      obtain hb | hb := List.mem_append.mp hb
      · exact List.mem_takeWhile_imp hb
      · simpa using List.findIdx?_eq_none_iff.mp hk b (List.mem_reverse.mpr hb)
    obtain rfl : d = [] := hd.symm.trans (List.dropWhile_eq_nil_iff.mpr hblank)
    rw [Option.map_none, Option.getD_none, slice, if_pos ⟨Nat.le_refl _, by omega⟩,
      List.drop_eq_nil_of_le (List.length_take_le _ _)]
    rfl
  | some k =>
    obtain ⟨hlt, hindex⟩ := List.findIdx?_eq_some_iff_findIdx_eq.mp hk
    rw [List.length_reverse] at hlt
    rw [Option.map_some, Option.getD_some, slice, if_pos (by omega), hindex, List.reverse_drop,
      List.reverse_reverse, List.length_reverse]
    have hdrop : s.drop (s.takeWhile isBlank).length = d := by
      rw [← hfirst, ← List.dropWhile_eq_drop_findIdx_not, hd]
    rw [List.drop_take, hdrop]
    congr 2
    omega

theorem splitSign_eq (s : Bytes) : splitSign s = some (Numeral.splitSign s) := by
  unfold splitSign Numeral.splitSign
  cases s with
  | nil => rfl
  | cons b rest =>
    rw [slice_tail, List.head?_cons]
    split
    · next h =>
      cases h
      rfl
    · next h =>
      cases h
      rfl
    · next hminus hplus =>
      split
      · next h =>
        cases h
        exact absurd rfl hminus
      · next h =>
        cases h
        exact absurd rfl hplus
      · rfl

theorem isHex_of_hex (x d : UInt8) (ds : Bytes) (hx : x = 120 ∨ x = 88) :
    isHex (48 :: x :: d :: ds) = some true := by
  rw [isHex, if_pos (by simp)]
  obtain rfl | rfl := hx <;> rfl

theorem isHex_of_not_hex {s : Bytes} (h : ∀ d ds, s ≠ 48 :: 120 :: d :: ds)
    (h' : ∀ d ds, s ≠ 48 :: 88 :: d :: ds) : isHex s = some false := by
  match s with
  | [] | [_] | [_, _] => rw [isHex, if_neg (by simp)]
  | zero :: x :: d :: ds =>
    rw [isHex, if_pos (by simp)]
    refine congrArg some (Bool.eq_false_iff.mpr fun heq ↦ ?_)
    simp only [Bool.and_eq_true, Bool.or_eq_true, decide_eq_true_eq] at heq
    obtain ⟨rfl, rfl | rfl⟩ := heq
    · exact h d ds rfl
    · exact h' d ds rfl

theorem slice_hex (zero x d : UInt8) (ds : Bytes) :
    slice (zero :: x :: d :: ds) 2 (zero :: x :: d :: ds).length = some (d :: ds) := by
  rw [slice, if_pos ⟨by simp, Nat.le_refl _⟩, List.take_length]
  rfl

theorem numeral_eq (s : Bytes) : numeral s = some (Numeral.ofBytes? s) := by
  unfold numeral Numeral.ofBytes?
  rw [trimmed_eq, Option.bind_eq_bind, Option.bind_some, splitSign_eq, Option.bind_eq_bind,
    Option.bind_some]
  dsimp only
  generalize Numeral.splitSign (Numeral.trimmed s) = signed
  obtain ⟨negative, body⟩ := signed
  dsimp only
  by_cases hlower : ∃ d ds, body = 48 :: 120 :: d :: ds
  · obtain ⟨d, ds, rfl⟩ := hlower
    rw [isHex_of_hex 120 d ds (.inl rfl), slice_hex]
    rfl
  by_cases hupper : ∃ d ds, body = 48 :: 88 :: d :: ds
  · obtain ⟨d, ds, rfl⟩ := hupper
    rw [isHex_of_hex 88 d ds (.inr rfl), slice_hex]
    rfl
  rw [isHex_of_not_hex (fun d ds h ↦ hlower ⟨d, ds, h⟩) fun d ds h ↦ hupper ⟨d, ds, h⟩]
  cases body with
  | nil => rfl
  | cons b rest =>
    rw [List.isEmpty_cons, if_neg Bool.false_ne_true, Option.bind_eq_bind, Option.bind_some,
      if_neg Bool.false_ne_true]
    split <;> rename_i hall
    · split
      · next d ds h => exact absurd ⟨d, ds, h⟩ hlower
      · next d ds h => exact absurd ⟨d, ds, h⟩ hupper
      · rw [if_pos hall, List.isEmpty_cons, if_neg Bool.false_ne_true]
        rfl
    · split
      · next d ds h => exact absurd ⟨d, ds, h⟩ hlower
      · next d ds h => exact absurd ⟨d, ds, h⟩ hupper
      · rw [if_neg hall]
        rfl

/-! ### Integers in a base -/

theorem le_foldl_digits {base : Nat} (hbase : 1 ≤ base) (ds : List Nat) (n : Nat) :
    n ≤ ds.foldl (fun value digit ↦ value * base + digit) n := by
  induction ds generalizing n with
  | nil => exact Nat.le_refl n
  | cons d ds ih =>
    have hstep : n ≤ n * base + d := (Nat.le_mul_of_pos_right n hbase).trans (Nat.le_add_right _ d)
    exact hstep.trans (ih _)

theorem int64?_natCast {n : Nat} (h : n < 0x8000000000000000) : int64? n = some (Int64.ofNat n) := by
  rw [int64?_eq_some, Int64.toInt_ofNat_of_lt h]

theorem int64?_natCast_eq_none {n : Nat} (h : 0x8000000000000000 ≤ n) : int64? n = none := by
  rw [int64?, if_neg (by omega)]

/-- One more digit is read if the number still has 64 bits then. -/
theorem mul_bind_add {n base d : Nat} (hn : n < 0x8000000000000000) (hbase : base ≤ 36)
    (hd : d < base) :
    (mul (Int64.ofNat n) (Int64.ofNat base)).bind (add · (Int64.ofNat d)) =
      int64? (n * base + d : Nat) := by
  have hd' : (Int64.ofNat d).toInt = d := Int64.toInt_ofNat_of_lt (by omega)
  have hbase' : (Int64.ofNat base).toInt = base := Int64.toInt_ofNat_of_lt (by omega)
  rw [mul, Int64.toInt_ofNat_of_lt hn, hbase', ← Int.natCast_mul]
  by_cases hproduct : n * base < 0x8000000000000000
  · rw [int64?_natCast hproduct, Option.bind_some, add, Int64.toInt_ofNat_of_lt hproduct, hd',
      Int.natCast_add]
  · rw [int64?_natCast_eq_none (by omega), int64?_natCast_eq_none (by omega), Option.bind_none]

theorem accumulate_cons {base : Nat} (hbase : 2 ≤ base ∧ base ≤ 36) {b : UInt8} {rest : Bytes}
    {d n : Nat} (hd : digitValue? base b = some d) (hn : n < 0x8000000000000000) :
    accumulate base (b :: rest) (Int64.ofNat n) =
      if n * base + d < 0x8000000000000000 then accumulate base rest (Int64.ofNat (n * base + d))
      else some none := by
  rw [accumulate, digit, if_pos hbase, hd, Option.bind_eq_bind, Option.bind_some]
  dsimp only
  rw [mul_bind_add hn hbase.2 (digitValue?_lt hd)]
  by_cases hfits : n * base + d < 0x8000000000000000
  · rw [int64?_natCast hfits, if_pos hfits]
  · rw [int64?_natCast_eq_none (by omega), if_neg hfits]
    rfl

theorem accumulate_of_none {base : Nat} (hbase : 2 ≤ base ∧ base ≤ 36) {s : Bytes} {n : Nat}
    (hn : n < 0x8000000000000000) (hs : s.mapM (digitValue? base) = none) :
    accumulate base s (Int64.ofNat n) = some none := by
  induction s generalizing n with
  | nil => cases hs
  | cons b rest ih =>
    cases hd : digitValue? base b with
    | none =>
      rw [accumulate, digit, if_pos hbase, hd]
      rfl
    | some d =>
      rw [accumulate_cons hbase hd hn]
      split
      · next hfits =>
        refine ih hfits ?_
        rw [List.mapM_cons, hd] at hs
        cases hrest : rest.mapM (digitValue? base) with
        | none => rfl
        | some ds =>
          rw [hrest] at hs
          cases hs
      · rfl

theorem accumulate_of_some {base : Nat} (hbase : 2 ≤ base ∧ base ≤ 36) {s : Bytes} {n : Nat}
    {ds : List Nat} (hn : n < 0x8000000000000000) (hs : s.mapM (digitValue? base) = some ds) :
    accumulate base s (Int64.ofNat n) =
      some (int64? (ds.foldl (fun value digit ↦ value * base + digit) n : Nat)) := by
  induction s generalizing n ds with
  | nil =>
    rw [List.mapM_nil] at hs
    cases hs
    rw [List.foldl_nil, int64?_natCast hn, accumulate]
  | cons b rest ih =>
    rw [List.mapM_cons] at hs
    obtain ⟨d, hd, hs⟩ := Option.bind_eq_some_iff.mp hs
    obtain ⟨ds, hrest, hs⟩ := Option.bind_eq_some_iff.mp hs
    cases hs
    rw [accumulate_cons hbase hd hn, List.foldl_cons]
    split
    · next hfits => exact ih hfits hrest
    · have hgrown := le_foldl_digits (by omega : 1 ≤ base) ds (n * base + d)
      rw [int64?_natCast_eq_none (by omega)]

theorem neg_eq {i : Int64} (h : 0 ≤ i.toInt) : neg i = some (-i) := by
  have hbounds := toInt_bounds i
  rw [neg, int64?_eq_some, Int64.toInt_neg, Int.bmod_eq_of_le (by omega) (by omega)]

theorem signedInt_eq {base : Nat} (hbase : 2 ≤ base ∧ base ≤ 36) (negative : Bool)
    (digits : Bytes) :
    signedInt base negative digits = some ((Numeral.natural? base digits).bind fun n ↦
      (int64? n).map fun i ↦ if negative then -i else i) := by
  unfold signedInt Numeral.natural?
  cases digits with
  | nil => rfl
  | cons b rest =>
    rw [List.isEmpty_cons, if_neg Bool.false_ne_true, if_neg Bool.false_ne_true]
    have hzero : accumulate base (b :: rest) 0 = accumulate base (b :: rest) (Int64.ofNat 0) := rfl
    rw [hzero]
    cases hds : (b :: rest).mapM (digitValue? base) with
    | none =>
      rw [accumulate_of_none hbase (by omega) hds]
      rfl
    | some ds =>
      rw [accumulate_of_some hbase (by omega) hds, Option.bind_eq_bind, Option.bind_some,
        Option.map_some, Option.bind_some, digitsValue]
      cases hi : int64? (ds.foldl (fun value digit ↦ value * base + digit) 0 : Nat) with
      | none => rfl
      | some i =>
        have hpos : 0 ≤ i.toInt := by
          rw [← int64?_eq_some.mp hi]
          exact Int.natCast_nonneg _
        cases negative with
        | false => rfl
        | true =>
          dsimp only
          rw [neg_eq hpos]
          rfl

theorem radixInt_eq {base : Nat} (hbase : 2 ≤ base ∧ base ≤ 36) (s : Bytes) :
    radixInt base s = some (radixInt? base s) := by
  unfold radixInt radixInt?
  rw [trimmed_eq, Option.bind_eq_bind, Option.bind_some]
  generalize Numeral.trimmed s = text
  cases text with
  | nil => exact signedInt_eq hbase false []
  | cons b rest =>
    rw [splitMinus, slice_tail, List.head?_cons]
    by_cases hb : b = 45
    · subst hb
      exact signedInt_eq hbase true rest
    · split
      · next h => exact absurd (Option.some.inj h) hb
      · dsimp only
        split
        · next h => exact absurd (List.cons.inj h).1 hb
        · exact signedInt_eq hbase false (b :: rest)

/-! ### Remainders -/

/-- The remainder of integers with the sign of the divisor, from the one with the sign of the
dividend. -/
def floored (p q : Int64) : Option Int64 := do
  let r ← rem p q
  if r ≠ 0 ∧ r ^^^ q < 0 then add r q else return r

def modulo (a b : Value) : Option (Except RuntimeError Value) :=
  match a, b with
  | .int p, .int q =>
    if q = 0 then some (fail .zeroModulus) else (floored p q).map fun r ↦ .ok (.int r)
  | a, b => some (Operators.modulo a b)

theorem xor_neg_iff (i j : Int64) : i ^^^ j < 0 ↔ (i.toInt < 0 ↔ ¬ j.toInt < 0) := by
  have hsign (k : Int64) : k.toBitVec.msb = true ↔ k.toInt < 0 := by
    rw [BitVec.msb_eq_toInt, decide_eq_true_iff]
    rfl
  rw [Int64.lt_iff_toInt_lt, Int64.toInt_zero, ← hsign, ← hsign, ← hsign, Int64.toBitVec_xor,
    BitVec.msb_xor]
  cases i.toBitVec.msb <;> cases j.toBitVec.msb <;> decide

theorem floored_eq {p q : Int64} (hq : q ≠ 0) :
    floored p q = some (Int64.ofInt (Int.fmod p.toInt q.toInt)) := by
  have hzero {i : Int64} : i = 0 ↔ i.toInt = 0 := by rw [← Int64.toInt_inj, Int64.toInt_zero]
  have hr := Int64.toInt_mod p q
  have hbounds := toInt_bounds (p % q)
  have hbounds' := toInt_bounds q
  have hfloor := Int.fmod_eq_tmod (a := p.toInt) (b := q.toInt)
  have hdvd : q.toInt ∣ p.toInt ↔ (p % q).toInt = 0 := by
    rw [hr]
    exact Int.dvd_iff_tmod_eq_zero
  have hpos : 0 ≤ p.toInt → 0 ≤ (p % q).toInt := fun h ↦ hr ▸ Int.tmod_nonneg _ h
  have hneg : p.toInt ≤ 0 → (p % q).toInt ≤ 0 := by
    intro h
    have hmod := Int.tmod_nonneg q.toInt (Int.neg_nonneg_of_nonpos h)
    rw [Int.neg_tmod] at hmod
    omega
  rw [ne_eq, hzero] at hq
  rw [floored, rem, if_neg (hzero.not.mpr hq), Option.bind_eq_bind, Option.bind_some]
  rw [← hr] at hfloor
  split
  · next h =>
    obtain ⟨hne, hsign⟩ := h
    rw [xor_neg_iff] at hsign
    rw [ne_eq, hzero] at hne
    rw [add, int64?_of_bounds (by omega), hfloor, if_neg (hdvd.not.mpr hne)]
    refine congrArg some (congrArg Int64.ofInt ?_)
    split <;> split <;> omega
  · next h =>
    rw [xor_neg_iff, ne_eq, hzero] at h
    refine congrArg some (Int64.toInt_inj.mp ?_)
    have hsame : Int.fmod p.toInt q.toInt = (p % q).toInt := by
      rw [hfloor]
      split
      · omega
      · next hne =>
        rw [hdvd] at hne
        split <;> split <;> omega
    rw [hsame, Int64.ofInt_toInt]

theorem modulo_eq (a b : Value) : modulo a b = some (Operators.modulo a b) := by
  unfold modulo
  split
  · next p q =>
    rw [Operators.modulo]
    split
    · rfl
    · next hq => rw [floored_eq hq, Option.map_some]
  · rfl

/-! ### Operators -/

/-- Numbers as they are, and numeric strings. -/
def number (h : Heap) : Value → Option (Option Value)
  | .string s =>
    match h.bytes? s with
    | some s => (numeral s).map (Option.map Numeral.toValue)
    | none => some none
  | v => some (h.number? v)

def onNumbers (op : Opcode) (a b : Value) : Option (Except RuntimeError Value) :=
  match op with
  | .mod => modulo a b
  | op => some (Operators.onNumbers op a b)

def arith (h : Heap) (op : Opcode) (a b : Value) : Option (Except RuntimeError Value) := do
  let x ← number h a
  let y ← number h b
  match x, y with
  | some x, some y => onNumbers op x y
  | none, _ => return fail (.arithmetic a.typeName)
  | _, none => return fail (.arithmetic b.typeName)

def negate (h : Heap) (v : Value) : Option (Except RuntimeError Value) := do
  match ← number h v with
  | some (.int i) =>
    match neg i with
    | some n => return .ok (.int n)
    | none => return .ok (.ofFloat (-(floatOfInt i)))
  | some x => return .ok (.ofFloat (-x.toFloat))
  | none => return fail (.arithmetic v.typeName)

theorem number_eq (h : Heap) (v : Value) : number h v = some (h.number? v) := by
  unfold number
  split
  · next s =>
    rw [Heap.number?]
    cases h.bytes? s with
    | none => rfl
    | some s =>
      dsimp only
      rw [numeral_eq]
      rfl
  · rfl

theorem onNumbers_eq (op : Opcode) (a b : Value) :
    onNumbers op a b = some (Operators.onNumbers op a b) := by
  unfold onNumbers
  split
  · exact modulo_eq a b
  · rfl

theorem arith_eq (h : Heap) (op : Opcode) (a b : Value) :
    arith h op a b = some (Operators.arith h op a b) := by
  unfold arith Operators.arith
  rw [number_eq, number_eq]
  cases h.number? a with
  | none => rfl
  | some x =>
    cases h.number? b with
    | none => rfl
    | some y => exact onNumbers_eq op x y

theorem negate_eq (h : Heap) (v : Value) : negate h v = some (Operators.negate h v) := by
  unfold negate Operators.negate
  rw [number_eq, Option.bind_eq_bind, Option.bind_some]
  cases h.number? v with
  | none => rfl
  | some x =>
    cases x with
    | int i =>
      dsimp only
      unfold neg
      cases int64? (-i.toInt) <;> rfl
    | nil | bool | float | string | table | closure | native => rfl

end MiniLua.Checked
