import MiniLua.Proofs.Checked.Numbers

/-! Parts and copies of strings, taken by operations that have ranges. -/

namespace MiniLua.Checked

/-! ### Parts -/

/-- Where a range begins that is counted from one or, if negative, from the end. -/
def rangeStart (len i : Int64) : Option Int64 :=
  if i < 0 then some (max (saturated (len.toInt + i.toInt)) 0)
  else if i = 0 then some 0
  else sub i 1

def rangeEnd (len first j : Int64) : Int64 :=
  if j < 0 then max first (saturated ((saturated (len.toInt + j.toInt)).toInt + 1))
  else min (max first j) len

/-- A half-open range within the length. -/
def normalizeRange (length : Nat) (i j : Int64) : Option (Nat × Nat) := do
  let len := Int64.ofNat length
  let start ← rangeStart len i
  let first ← clamp start 0 len
  let last ← clamp (rangeEnd len start j) 0 len
  return (min first.toInt.toNat last.toInt.toNat, last.toInt.toNat)

/-- The bytes in a range. -/
def substring (s : Bytes) (i j : Int64) : Option Bytes := do
  let (first, last) ← normalizeRange s.length i j
  slice s first last

theorem toInt_max (i j : Int64) : (max i j).toInt = max i.toInt j.toInt := by
  change (if i ≤ j then j else i).toInt = _
  simp only [Int64.le_iff_toInt_le]
  split <;> omega

theorem toInt_min (i j : Int64) : (min i j).toInt = min i.toInt j.toInt := by
  change (if i ≤ j then i else j).toInt = _
  simp only [Int64.le_iff_toInt_le]
  split <;> omega

theorem clamp_eq {len : Int64} (h : 0 ≤ len.toInt) (i : Int64) :
    ∃ k, clamp i 0 len = some k ∧ k.toInt = min (max i.toInt 0) len.toInt := by
  have hle : 0 ≤ len := Int64.le_iff_toInt_le.mpr h
  refine ⟨_, if_pos hle, ?_⟩
  simp only [Int64.lt_iff_toInt_lt, Int64.toInt_zero]
  split
  · rw [Int64.toInt_zero]
    omega
  · split <;> omega

theorem rangeStart_eq {len : Int64} (h : 0 ≤ len.toInt) (i : Int64) :
    ∃ start, rangeStart len i = some start ∧
      start.toInt = if i.toInt < 0 then max (len.toInt + i.toInt) 0
        else if i.toInt = 0 then 0 else i.toInt - 1 := by
  have hbounds := toInt_bounds i
  have hbounds' := toInt_bounds len
  have hone : (1 : Int64).toInt = 1 := rfl
  simp only [rangeStart, Int64.lt_iff_toInt_lt, ← Int64.toInt_inj, Int64.toInt_zero]
  split
  · refine ⟨_, rfl, ?_⟩
    rw [toInt_max, toInt_saturated, Int64.toInt_zero]
    omega
  split
  · exact ⟨0, rfl, rfl⟩
  · refine ⟨Int64.ofInt (i.toInt - 1), ?_, Int64.toInt_ofInt_of_le (by omega) (by omega)⟩
    rw [sub, hone, int64?_of_bounds (by omega)]

theorem toInt_rangeEnd {len : Int64} (h : 0 ≤ len.toInt) (start j : Int64) :
    (rangeEnd len start j).toInt =
      if j.toInt < 0 then max start.toInt (len.toInt + j.toInt + 1)
      else min (max start.toInt j.toInt) len.toInt := by
  have hbounds := toInt_bounds j
  have hbounds' := toInt_bounds len
  simp only [rangeEnd, Int64.lt_iff_toInt_lt, Int64.toInt_zero]
  split
  · rw [toInt_max, toInt_saturated, toInt_saturated]
    omega
  · rw [toInt_min, toInt_max]

theorem normalizeRange_eq {length : Nat} (h : length < 2 ^ 63) (i j : Int64) :
    normalizeRange length i j = some (Library.normalizeRange length i.toInt j.toInt) := by
  have hlen : (Int64.ofNat length).toInt = length := Int64.toInt_ofNat_of_lt h
  have hpos : 0 ≤ (Int64.ofNat length).toInt := hlen ▸ Int.natCast_nonneg _
  obtain ⟨start, hstart, hvalue⟩ := rangeStart_eq hpos i
  obtain ⟨first, hfirst, hvalue'⟩ := clamp_eq hpos start
  obtain ⟨last, hlast, hvalue''⟩ := clamp_eq hpos (rangeEnd (Int64.ofNat length) start j)
  simp only [normalizeRange, hstart, hfirst, hlast, Option.bind_eq_bind, Option.bind_some, hvalue',
    hvalue'', toInt_rangeEnd hpos, hvalue, hlen]
  rfl

/-- A range lies within the length. -/
theorem normalizeRange_le (length : Nat) (i j : Int) :
    (Library.normalizeRange length i j).1 ≤ (Library.normalizeRange length i j).2 ∧
      (Library.normalizeRange length i j).2 ≤ length := by
  dsimp only [Library.normalizeRange]
  omega

theorem substring_eq {s : Bytes} (h : s.length < 2 ^ 63) (i j : Int64) :
    substring s i j = some (
      let (first, last) := Library.normalizeRange s.length i.toInt j.toInt
      (s.take last).drop first) := by
  rw [substring, normalizeRange_eq h, Option.bind_eq_bind, Option.bind_some]
  exact if_pos (normalizeRange_le s.length i.toInt j.toInt)

/-! ### Copies -/

/-- Doubles what is there of a string until it is complete. -/
def fill (total : Nat) : Nat → Bytes → Option Bytes
  | 0, buffer => some buffer
  | bound + 1, buffer =>
    if buffer.length < total then do
      let more ← slice buffer 0 (min (total - buffer.length) buffer.length)
      fill total bound (buffer ++ more)
    else some buffer

/-- Copies of a string in a row, if they are not too long. -/
def repeated (s : Bytes) (n : Nat) : Option (Option Bytes) :=
  let total := s.length * n
  if Library.maxStringLength < total then some none
  else if total = 0 then some (some [])
  else (fill total total s).map some

theorem fill_eq {total bound : Nat} {buffer : Bytes} (h : 0 < buffer.length)
    (hbound : total ≤ buffer.length + bound) :
    fill total bound buffer = some (Library.filled total buffer h) := by
  induction bound generalizing buffer with
  | zero => rw [fill, Library.filled, if_neg (by omega)]
  | succ bound ih =>
    rw [fill, Library.filled]
    split
    · have hlength := Library.length_doubled total buffer
      have hgrown : 0 < (Library.doubled total buffer).length := by omega
      rw [slice_take (Nat.min_le_right _ _), Option.bind_eq_bind, Option.bind_some]
      exact ih hgrown (by omega)
    · rfl

theorem repeated_eq (s : Bytes) (n : Nat) : repeated s n = some (Library.repeated? s n) := by
  unfold repeated Library.repeated?
  rw [Library.filter_wordProduct?]
  dsimp only
  split
  · rfl
  · rw [Option.map_some]
    split
    · rfl
    · rw [fill_eq _ (Nat.le_add_left _ _), Option.map_some]

end MiniLua.Checked
