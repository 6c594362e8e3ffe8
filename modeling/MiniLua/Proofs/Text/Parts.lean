import Mathlib.Data.Nat.Log
import MiniLua.Proofs.Calls.Facade
import MiniLua.Proofs.Checked.Strings

/-!
Parts and copies of a text. A part is the bytes between two places, each given by an index that may count
from the end. Copies are made by doubling what is there, so that there are only ever whole copies.
-/

namespace MiniLua

open Effects Machine

namespace Library

/-! ### Parts -/

/-- The place, counted from one, that an index names in a text of this length; a negative index counts from
the end. -/
def placeOf (length : Nat) (i : Int) : Int := if i < 0 then length + i + 1 else i

/-- The bytes of a text from one place to another, the first byte being at one. -/
def bytesBetween (s : Bytes) (low high : Int) : Bytes :=
  ((s.zipIdx 1).filter fun (_, place) ↦ low ≤ place ∧ place ≤ high).map Prod.fst

theorem filter_places (s : Bytes) (k : Nat) (low high : Int) :
    ((s.zipIdx k).filter fun (_, place) ↦ low ≤ place ∧ place ≤ high).map Prod.fst =
      (s.take (high - k + 1).toNat).drop (low - k).toNat := by
  induction s generalizing k with
  | nil => simp
  | cons b s ih =>
    rw [List.zipIdx_cons, List.filter_cons]
    by_cases hhigh : (k : Int) ≤ high
    · have htake : (high - k + 1).toNat = (high - (k + 1 : Nat) + 1).toNat + 1 := by omega
      rw [htake, List.take_succ_cons]
      by_cases hlow : low ≤ k
      · have hdrop : (low - k).toNat = 0 := by omega
        have hdrop' : (low - (k + 1 : Nat)).toNat = 0 := by omega
        rw [if_pos (decide_eq_true ⟨hlow, hhigh⟩), List.map_cons, ih, hdrop, hdrop']
        rfl
      · have hdrop : (low - k).toNat = (low - (k + 1 : Nat)).toNat + 1 := by omega
        rw [if_neg (by simp [hlow]), ih, hdrop, List.drop_succ_cons]
    · have htake : (high - k + 1).toNat = 0 := by omega
      have htake' : (high - (k + 1 : Nat) + 1).toNat = 0 := by omega
      rw [if_neg (by simp [hhigh]), ih, htake, htake', List.take_zero, List.take_zero, List.drop_nil,
        List.drop_nil]

theorem bytesBetween_eq (s : Bytes) (low high : Int) :
    bytesBetween s low high = (s.take high.toNat).drop (low - 1).toNat := by
  have hhigh : high - (1 : Nat) + 1 = high := by omega
  rw [bytesBetween, filter_places, hhigh]
  rfl

/-- The range in terms of the places that its ends name. -/
theorem normalizeRange_places (length : Nat) (i j : Int) :
    let first := (placeOf length i - 1).toNat
    normalizeRange length i j =
      (min first length, min (max first (placeOf length j).toNat) length) := by
  have hfirst : (if i < 0 then max ((length : Int) + i) 0 else if i = 0 then 0 else i - 1) =
      (placeOf length i - 1).toNat := by
    unfold placeOf
    split
    · omega
    · split <;> omega
  have hlast : placeOf length j = if j < 0 then (length : Int) + j + 1 else j := rfl
  dsimp only [normalizeRange]
  rw [hfirst, hlast]
  generalize (placeOf length i - 1).toNat = first
  split
  · apply Prod.ext <;> dsimp only <;> omega
  · apply Prod.ext <;> dsimp only <;> omega

theorem drop_take_clamped (s : Bytes) (first last : Nat) :
    (s.take (min (max first last) s.length)).drop (min first s.length) = (s.take last).drop first := by
  by_cases hfirst : first < min last s.length
  · have hlast : max first last = last := by omega
    have hfirst' : min first s.length = first := by omega
    rw [hlast, hfirst', ← List.take_eq_take_min]
  · -- nothing is left on either side
    rw [List.drop_eq_nil_of_le, List.drop_eq_nil_of_le]
    all_goals
      rw [List.length_take]
      omega

/-- The range selects the bytes from the one place to the other. -/
theorem drop_take_normalizeRange (s : Bytes) (i j : Int) :
    (s.take (normalizeRange s.length i j).2).drop (normalizeRange s.length i j).1 =
      bytesBetween s (placeOf s.length i) (placeOf s.length j) := by
  rw [bytesBetween_eq, normalizeRange_places]
  exact drop_take_clamped s _ _

end Library

section

variable {call : NativeCall} {rest : List Activation} {low : Array Value} {args : List Value} {s : State}

theorem Machine.argBytes_of_string {i k : Nat} {text : Bytes} (harg : arg i s = .ok (.string k) s)
    (hk : s.heap.bytes? k = some text) : argBytes i s = .ok text s := by
  rw [argBytes, bind_of_ok harg]
  dsimp only
  rw [bind_apply, get_apply]
  dsimp only
  rw [hk]
  rfl

/-- An argument that is an integer, or is left out and has a default. -/
theorem Machine.bind_argInt_or {β : Type} {i : Nat} {j default : Int64} {v : Value} (harg : arg i s = .ok v s)
    (hv : v = .int j ∨ v = .nil ∧ j = default) (f : Int64 → Machine β) :
    (do if (← arg i).isNil then pure default >>= f else argInt i >>= f : Machine β) s = f j s := by
  rw [bind_of_ok harg]
  rcases hv with rfl | ⟨rfl, rfl⟩
  · exact bind_of_ok (argInt_of_view harg rfl)
  · rfl

theorem Machine.bytesValue_serving (h : s.Serving call rest low args) (hstrings : s.heap.strings.Sound)
    (bytes : Bytes) : ∃ n t, bytesValue bytes s = .ok (.string n) t ∧ t.Serving call rest low args ∧
      t.heap.bytes? n = some bytes :=
  ⟨_, _, rfl, ⟨h.calls, h.base, h.stack⟩, Heap.bytes?_intern hstrings bytes⟩

end

namespace Library

theorem sub_serving {call : NativeCall} {rest : List Activation} {low : Array Value} {args : List Value}
    {s : State} (h : s.Serving call rest low args) (hcount : call.argCount = args.length)
    (hstrings : s.heap.strings.Sound) {k : Nat} {text : Bytes} {i j : Int64}
    (hs : args.getD 0 .nil = .string k) (hk : s.heap.bytes? k = some text) (hi : args.getD 1 .nil = .int i)
    (hj : args.getD 2 .nil = .int j ∨ args.getD 2 .nil = .nil ∧ j = -1) :
    ∃ n t, sub.start s = .ok .finished t ∧ t.Serving call rest low [Value.string n] ∧
      t.heap.bytes? n = some (bytesBetween text (placeOf text.length i.toInt) (placeOf text.length j.toInt)) := by
  have hbytes := argBytes_of_string (hs ▸ arg_of_count h hcount 0) hk
  have hfirst : argInt 1 s = .ok i s := argInt_of_view (hi ▸ arg_of_count h hcount 1) rfl
  obtain ⟨n, t, hvalue, ht, hn⟩ := bytesValue_serving h hstrings
    (bytesBetween text (placeOf text.length i.toInt) (placeOf text.length j.toInt))
  rw [← drop_take_normalizeRange] at hvalue
  refine ⟨n, { t with stack := low ++ [Value.string n] }, ?_, ⟨ht.calls, ht.base, rfl⟩, hn⟩
  unfold sub Native.plain
  dsimp only
  rw [bind_apply, bind_of_ok hbytes, bind_of_ok hfirst, bind_argInt_or (arg_of_count h hcount 2) hj,
    bind_of_ok hvalue, setResults_apply ht]
  rfl

/-- A part of a text is the bytes from the place that the one index names to the place that the other
names, whatever integers they are. It lies within the text, and nothing overflows on the way to it. The
builtin makes a string of it; without a second index it goes to the end. -/
theorem sub_selects_places (text : Bytes) (i j : Int64) :
    let range := normalizeRange text.length i.toInt j.toInt
    let part := bytesBetween text (placeOf text.length i.toInt) (placeOf text.length j.toInt)
    range.1 ≤ range.2 ∧ range.2 ≤ text.length ∧ (text.take range.2).drop range.1 = part ∧
      (text.length < 2 ^ 63 → Checked.normalizeRange text.length i j = some range ∧
        Checked.substring text i j = some part) ∧
      ∀ {call : NativeCall} {rest : List Activation} {low : Array Value} {args : List Value} {s : State}
        {k : Nat}, s.Serving call rest low args → call.argCount = args.length → s.heap.strings.Sound →
        args.getD 0 .nil = .string k → s.heap.bytes? k = some text → args.getD 1 .nil = .int i →
        (args.getD 2 .nil = .int j ∨ args.getD 2 .nil = .nil ∧ j = -1) →
        ∃ n t, sub.start s = .ok .finished t ∧ t.Serving call rest low [Value.string n] ∧
          t.heap.bytes? n = some part := by
  intro range part
  obtain ⟨hordered, hwithin⟩ := Checked.normalizeRange_le text.length i.toInt j.toInt
  have hpart := drop_take_normalizeRange text i.toInt j.toInt
  refine ⟨hordered, hwithin, hpart, fun hlength ↦ ⟨Checked.normalizeRange_eq hlength i j, ?_⟩, ?_⟩
  · rw [Checked.substring_eq hlength]
    exact congrArg some hpart
  · intro call rest low args s k h hcount hstrings hs hk hi hj
    exact sub_serving h hcount hstrings hs hk hi hj

/-- The last three bytes, up to the largest index there is. -/
theorem sub_selects_last :
    let text := Bytes.ofText "hello"
    let (k, heap) := Heap.empty.intern text
    let s := { called "sub" [.string k, .int (-3), .int Int64.maxValue] with heap }
    Checked.substring text (-3) Int64.maxValue = some (Bytes.ofText "llo") ∧
      ∃ n t, sub.start s = .ok .finished t ∧ t.heap.bytes? n = some (Bytes.ofText "llo") := by
  intro text
  obtain ⟨-, -, -, hchecked, hbuiltin⟩ := sub_selects_places text (-3) Int64.maxValue
  have hpart : bytesBetween text (placeOf text.length (-3)) (placeOf text.length Int64.maxValue.toInt) =
      Bytes.ofText "llo" := by decide
  have hsound : (Heap.empty.intern text).2.strings.Sound := StringPool.sound_empty.intern text
  have hserving : State.Serving ⟨0, "sub", 0, 3, none, .nothing⟩ [] #[]
      [.string (Heap.empty.intern text).1, .int (-3), .int Int64.maxValue]
      { called "sub" [.string (Heap.empty.intern text).1, .int (-3), .int Int64.maxValue] with
        heap := (Heap.empty.intern text).2 } := ⟨rfl, rfl, rfl⟩
  obtain ⟨n, t, hstart, -, hn⟩ := hbuiltin hserving rfl hsound rfl
    (Heap.bytes?_intern StringPool.sound_empty text) rfl (.inl rfl)
  exact ⟨hpart ▸ (hchecked (by decide)).2, n, t, hstart, hpart ▸ hn⟩

/-! ### Copies -/

section

variable (s : Bytes)

theorem length_copies (n : Nat) : (List.replicate n s).flatten.length = s.length * n := by
  rw [List.length_flatten, List.map_replicate, List.sum_replicate_nat, Nat.mul_comm]

theorem copies_add (k m : Nat) : (List.replicate (k + m) s).flatten =
    (List.replicate k s).flatten ++ (List.replicate m s).flatten := by
  rw [List.replicate_add, List.flatten_append]

theorem take_copies {k m : Nat} (h : m ≤ k) :
    (List.replicate k s).flatten.take (s.length * m) = (List.replicate m s).flatten := by
  obtain ⟨j, rfl⟩ := Nat.exists_eq_add_of_le h
  rw [copies_add, ← length_copies s m, List.take_left]

/-- What is copied is a whole number of copies, also the last time. -/
theorem doubled_copies {k n : Nat} (h : k ≤ n) :
    doubled (s.length * n) (List.replicate k s).flatten = (List.replicate (min (2 * k) n) s).flatten := by
  have hmore : min (s.length * n - s.length * k) (s.length * k) = s.length * min (n - k) k := by
    rw [← Nat.mul_sub, Nat.mul_min_mul_left]
  have hcount : min (2 * k) n = k + min (n - k) k := by omega
  rw [doubled, length_copies, hmore, take_copies s (Nat.min_le_right _ _), hcount, copies_add]

theorem iterate_doubled {n : Nat} (hn : 0 < n) (rounds : Nat) :
    (doubled (s.length * n))^[rounds] s = (List.replicate (min (2 ^ rounds) n) s).flatten := by
  induction rounds with
  | zero =>
    have hone : min (2 ^ 0) n = 1 := by omega
    rw [hone, Function.iterate_zero_apply, List.replicate_one, List.flatten_singleton]
  | succ rounds ih =>
    have hcount : min (2 * min (2 ^ rounds) n) n = min (2 ^ (rounds + 1)) n := by
      rw [Nat.pow_succ]
      omega
    rw [Function.iterate_succ_apply', ih, doubled_copies s (Nat.min_le_right _ _), hcount]

/-- A buffer of copies is filled with copies. -/
theorem filled_copies {k n : Nat} (hk : k ≤ n) {buffer : Bytes} (h : 0 < buffer.length)
    (hbuffer : buffer = (List.replicate k s).flatten) :
    filled (s.length * n) buffer h = (List.replicate n s).flatten := by
  -- each round leaves fewer copies to be made
  induction hmissing : n - k using Nat.strong_induction_on generalizing k buffer with
  | _ missing ih =>
    subst hbuffer
    have hlength := length_copies s k
    obtain ⟨hs, hcopies⟩ := CanonicallyOrderedAdd.mul_pos.mp (hlength ▸ h)
    rw [filled]
    split
    · next hlt =>
      rw [hlength] at hlt
      have hless : k < n := Nat.lt_of_mul_lt_mul_left hlt
      exact ih (n - min (2 * k) n) (by omega) (Nat.min_le_right _ _) _ (doubled_copies s hk) rfl
    · next hge =>
      rw [hlength, Nat.not_lt] at hge
      have hfull : k = n := Nat.le_antisymm hk (Nat.le_of_mul_le_mul_left hge hs)
      rw [hfull]

end

theorem repeated?_eq (s : Bytes) (n : Nat) : repeated? s n =
    if maxStringLength < s.length * n then none else some (List.replicate n s).flatten := by
  unfold repeated?
  rw [filter_wordProduct?]
  by_cases hlong : maxStringLength < s.length * n
  · rw [if_pos hlong, if_pos hlong]
    rfl
  · rw [if_neg hlong, if_neg hlong, Option.map_some]
    refine congrArg some ?_
    split
    · next hzero =>
      refine (List.eq_nil_of_length_eq_zero ?_).symm
      rw [length_copies, hzero]
    · next hpos =>
      have hn : 1 ≤ n := Nat.pos_of_ne_zero fun hn ↦ hpos (by rw [hn, Nat.mul_zero])
      exact filled_copies s hn _ (by simp)

/-- Copies of a string are made exactly if the product of its length and their number is no more than a
string can have, and they are that many copies, whatever the string and the number. Where there is something
to double, the doubling ends: it takes as many rounds as the binary logarithm of the number, rounded up, and
the buffer is full after the last of them only. -/
theorem repeated_by_doubling (s : Bytes) (n : Nat) :
    (repeated? s n = none ↔ maxStringLength < s.length * n) ∧
      (∀ bytes, repeated? s n = some bytes ↔
        s.length * n ≤ maxStringLength ∧ bytes = (List.replicate n s).flatten) ∧
      ∀ (h : 0 < s.length), 0 < n →
        filled (s.length * n) s h = (doubled (s.length * n))^[Nat.clog 2 n] s ∧
          ∀ rounds, ((doubled (s.length * n))^[rounds] s).length < s.length * n ↔ rounds < Nat.clog 2 n := by
  refine ⟨?_, fun bytes ↦ ?_, fun h hn ↦ ⟨?_, fun rounds ↦ ?_⟩⟩
  · rw [repeated?_eq, ite_eq_left_iff, Nat.not_lt]
    simp
  · rw [repeated?_eq, Option.ite_none_left_eq_some, Nat.not_lt, Option.some_inj, eq_comm (a := bytes)]
  · have hlast : min (2 ^ Nat.clog 2 n) n = n := Nat.min_eq_right (Nat.le_pow_clog Nat.one_lt_two n)
    rw [iterate_doubled s hn, hlast]
    exact filled_copies s hn h (by simp)
  · rw [iterate_doubled s hn, length_copies, Nat.mul_lt_mul_left h, Nat.lt_clog_iff_pow_lt Nat.one_lt_two]
    omega

/-- Five copies take three rounds, the last of which adds one copy. -/
theorem repeated_by_doubling_five :
    repeated? [97, 98] 5 = some [97, 98, 97, 98, 97, 98, 97, 98, 97, 98] ∧
      filled 10 [97, 98] Nat.two_pos = (doubled 10)^[3] [97, 98] ∧
      ((doubled 10)^[2] [97, 98]).length < 10 := by
  obtain ⟨-, hsome, hrounds⟩ := repeated_by_doubling [97, 98] 5
  obtain ⟨hfilled, hround⟩ := hrounds Nat.two_pos (by decide)
  have hclog : Nat.clog 2 5 = 3 := by decide
  rw [hclog] at hfilled
  refine ⟨(hsome _).mpr ⟨by decide, rfl⟩, hfilled, (hround 2).mpr ?_⟩
  rw [hclog]
  decide

end Library

end MiniLua
