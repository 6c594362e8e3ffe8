import MiniLua.Proofs.Loops.Counters

/-!
What a numeric loop over integers does: it runs its body for the values from the first one on in steps up to
the limit, in their order, and then ends, unless the counter overflows and its rounded value is not past the
limit.
-/

namespace MiniLua

open Effects Machine

/-- The body, whose code lies between `lo` and `hi`, is executed from `s` to its end in `t`, without being left
on the way, and there is room on the stack for what the loop does next. -/
def Completes (natives : Array Native) (d lo hi : Nat) (s t : State) : Prop :=
  ∃ k, run natives k .execute s = .running .execute t ∧ t.AtPoint d hi ∧
    t.stack.size < t.options.maxStack ∧
    ∀ j < k, ∀ m u, run natives j .execute s = .running m u → u.Inside d lo hi m

/-- From test to test the loop at `start` executes its body, with these values in its variable one after the
other. -/
inductive Rounds (natives : Array Native) (d start var last : Nat) : List Value → State → State → Prop
  | nil (s : State) : Rounds natives d start var last [] s s
  | cons {v : Value} {vs : List Value} {s b u w t : State}
      (begins : run natives 4 .execute s = .running .execute b) (sees : b.Sees d (start + 8) var v)
      (body : Completes natives d (start + 8) last b u)
      (again : run natives 2 .execute u = .running .execute w)
      (rest : Rounds natives d start var last vs w t) : Rounds natives d start var last (v :: vs) s t

/-- Whenever the body begins, it comes to its end. -/
def BodyEnds (natives : Array Native) (d start var last : Nat) (s : State) : Prop :=
  ∀ vs u v, Rounds natives d start var last vs s u → run natives 4 .execute u = .running .execute v →
    v.AtPoint d (start + 8) → ∃ w, Completes natives d (start + 8) last v w

namespace Count.At

variable {natives : Array Native} {C : Count} {counter limit step : Value} {start var last : Nat}
  {S : Array Value} {s t : State}

theorem atPoint {pc : Nat} (h : C.At counter limit step pc S s) : s.AtPoint C.below.length pc := by
  obtain ⟨A, f, hsecluded, hip⟩ := h.secluded
  obtain ⟨rest, hs, hrest⟩ := hsecluded.running
  exact ⟨f, rest, hs, hrest, hip⟩

variable (hloop : C.proto.IsLoop start C.slot var last)
  (hnatives : ∀ b ∈ natives, ∃ c : Builtin, b = c.native)

include hloop hnatives

theorem begins (h : C.At counter limit step (start + 4) S s) (hroom : S.size < s.options.maxStack)
    (hgoes : continues counter limit step = true) :
    ∃ b, run natives 4 .execute s = .running .execute b ∧ b.Sees C.below.length (start + 8) var counter ∧
      C.At counter limit step (start + 8) S b := by
  obtain ⟨s₁, hstep₁, hoptions₁, h₁⟩ := test hloop hnatives h hroom
  rw [hgoes] at h₁
  obtain ⟨s₂, hstep₂, hoptions₂, h₂⟩ := leave hloop hnatives h₁
  obtain ⟨s₃, hstep₃, -, h₃⟩ := load hloop hnatives h₂ (by rwa [hoptions₂, hoptions₁])
  obtain ⟨b, hstep₄, -, h₄, hsees⟩ := newVar hloop hnatives h₃
  refine ⟨b, ?_, hsees, h₄⟩
  rw [run_of_next hstep₁, run_of_next hstep₂, run_of_next hstep₃, run_of_next hstep₄]
  rfl

theorem ends (h : C.At counter limit step (start + 4) S s) (hroom : S.size < s.options.maxStack)
    (hstops : continues counter limit step = false) :
    ∃ t, run natives 2 .execute s = .running .execute t ∧ t.AtPoint C.below.length (last + 2) := by
  obtain ⟨s₁, hstep₁, -, h₁⟩ := test hloop hnatives h hroom
  rw [hstops] at h₁
  obtain ⟨t, hstep₂, -, h₂⟩ := leave hloop hnatives h₁
  refine ⟨t, ?_, h₂.atPoint⟩
  rw [run_of_next hstep₁, run_of_next hstep₂]
  rfl

/-- The body leaves the loop's values as they are. -/
theorem completes (h : C.At counter limit step (start + 8) S s)
    (hbody : Completes natives C.below.length (start + 8) last s t) :
    C.At counter limit step last t.stack t := by
  obtain ⟨k, hrun, ⟨g, rest, ht, hrest, hip⟩, -, hinside⟩ := hbody
  obtain ⟨A, f, hsecluded, -⟩ := h.secluded
  have hdepth : C.below.length < t.activations.length := by
    rw [ht, List.length_cons, hrest]
    exact Nat.lt_succ_self _
  obtain ⟨⟨A', front, f', hend⟩, hcells⟩ := hsecluded.run hnatives hloop.inside hrun hinside hdepth
  obtain ⟨rfl, rfl⟩ := hend.innermost ht hrest
  exact ⟨⟨A', f', hend, hip⟩, rfl, (hcells 2 (by decide)).trans h.counter,
    (hcells 1 (by decide)).trans h.limit, (hcells 0 (by decide)).trans h.step⟩

theorem again (h : C.At counter limit step last S s) :
    ∃ t, run natives 2 .execute s = .running .execute t ∧ t.options = s.options ∧
      C.At (advanced counter step) limit step (start + 4) S t := by
  obtain ⟨s₁, hstep₁, hoptions₁, h₁⟩ := advance hloop hnatives h
  obtain ⟨t, hstep₂, hoptions₂, h₂⟩ := back hloop hnatives h₁
  refine ⟨t, ?_, hoptions₂.trans hoptions₁, h₂⟩
  rw [run_of_next hstep₁, run_of_next hstep₂]
  rfl

end Count.At

/-- Not past the limit `b` in steps of `c`. -/
def Within (b c n : Int) : Prop := if 0 < c then n ≤ b else b ≤ n

instance (b c n : Int) : Decidable (Within b c n) := inferInstanceAs (Decidable (if 0 < c then n ≤ b else b ≤ n))

/-- All values from `a` on in steps of `c` that are not past `b`, in their order. -/
structure Counted (a b c : Int) (is : List Int64) : Prop where
  values : is.map Int64.toInt = (List.range is.length).map fun k : Nat ↦ a + k * c
  within : ∀ k < is.length, Within b c (a + k * c)
  past : ¬ Within b c (a + is.length * c)

/-- Behind `i` the counter is no integer, and as it is rounded it is not past the limit. -/
def Overruns (i b c : Int64) : Prop :=
  int64? (i.toInt + c.toInt) = none ∧
    continues (.ofFloat (floatOfInt i + floatOfInt c)) (.int b) (.int c) = true

instance (i b c : Int64) : Decidable (Overruns i b c) := inferInstanceAs (Decidable (_ ∧ _))

section

variable {i j b c : Int64}

theorem continues_ints : continues (.int i) (.int b) (.int c) = true ↔ Within b.toInt c.toInt i.toInt := by
  have hpositive : isPositive (.int c) = true ↔ 0 < c.toInt := by
    rw [isPositive, decide_eq_true_iff, Int64.lt_iff_toInt_lt, Int64.toInt_zero]
  unfold continues Within
  by_cases hc : 0 < c.toInt
  · rw [if_pos (hpositive.mpr hc), if_pos hc, numberLe, decide_eq_true_iff, Int64.le_iff_toInt_le]
  · rw [if_neg (fun h ↦ hc (hpositive.mp h)), if_neg hc, numberLe, decide_eq_true_iff, Int64.le_iff_toInt_le]

theorem advanced_of_fits (hj : j.toInt = i.toInt + c.toInt) : advanced (.int i) (.int c) = .int j := by
  rw [advanced, Operators.intOrFloat, int64?_eq_some.mpr hj.symm]

theorem advanced_of_overflow (h : int64? (i.toInt + c.toInt) = none) :
    advanced (.int i) (.int c) = .ofFloat (floatOfInt i + floatOfInt c) := by
  rw [advanced, Operators.intOrFloat, h]
  rfl

/-- A value that is not past the limit is an integer. -/
theorem fits_of_within (hi : Within b.toInt c.toInt (i.toInt + c.toInt)) :
    ∃ j : Int64, j.toInt = i.toInt + c.toInt := by
  have hilow := i.le_toInt
  have hihigh := i.toInt_lt
  have hblow := b.le_toInt
  have hbhigh := b.toInt_lt
  have hfits : -0x8000000000000000 ≤ i.toInt + c.toInt ∧ i.toInt + c.toInt < 0x8000000000000000 := by
    unfold Within at hi
    split at hi <;> omega
  exact ⟨_, toInt_of_int64? (if_pos hfits)⟩

end

namespace Counted

variable {a b c : Int} {i : Int64} {is : List Int64}

theorem nil (h : ¬ Within b c a) : Counted a b c [] where
  values := rfl
  within k hk := absurd hk (Nat.not_lt_zero k)
  past := by simpa using h

theorem cons (hi : Within b c i.toInt) (h : Counted (i.toInt + c) b c is) : Counted i.toInt b c (i :: is) := by
  have hshift (k : Nat) : i.toInt + (k + 1 : Nat) * c = i.toInt + c + k * c := by
    push_cast
    ring
  refine ⟨?_, fun k hk ↦ ?_, ?_⟩
  · rw [List.map_cons, h.values, List.length_cons, List.range_succ_eq_map, List.map_cons, List.map_map]
    simp [Function.comp_def, ← hshift]
  · cases k with
    | zero => simpa using hi
    | succ k =>
      rw [hshift]
      exact h.within k (Nat.lt_of_succ_lt_succ hk)
  · rw [List.length_cons, hshift]
    exact h.past

/-- How many values are left, as long as the next is not past the limit. -/
def left (a b c : Int) : Nat := if 0 < c then (b - a + 1).toNat else (a - b + 1).toNat

theorem left_lt (hc : c ≠ 0) (ha : Within b c a) : left (a + c) b c < left a b c := by
  unfold Within at ha
  unfold left
  split at ha
  · next hpos => rw [if_pos hpos, if_pos hpos]; omega
  · next hpos => rw [if_neg hpos, if_neg hpos]; omega

end Counted

/-- How a loop goes on behind its last value, if there was any: it ends, but for an overrun. -/
structure Finishes (natives : Array Native) (d start var last : Nat) (b c : Int64) (i : Option Int64)
    (s : State) : Prop where
  ends : (∀ j ∈ i, ¬ Overruns j b c) →
    ∃ t, run natives 2 .execute s = .running .execute t ∧ t.AtPoint d (last + 2)
  overruns : ∀ j ∈ i, Overruns j b c → ∃ t, run natives 4 .execute s = .running .execute t ∧
    t.Sees d (start + 8) var (.ofFloat (floatOfInt j + floatOfInt c))

theorem State.Sees.atPoint {d pc slot : Nat} {v : Value} {s : State} (h : s.Sees d pc slot v) :
    s.AtPoint d pc := by
  obtain ⟨f, rest, -, hs, hrest, hip, -⟩ := h
  exact ⟨f, rest, hs, hrest, hip⟩

theorem Finishes.cons {natives : Array Native} {d start var last : Nat} {i b c : Int64} {is : List Int64}
    {s : State} (h : Finishes natives d start var last b c is.getLast? s) (hi : ¬ Overruns i b c) :
    Finishes natives d start var last b c (i :: is).getLast? s := by
  cases is with
  | nil =>
    refine ⟨fun _ ↦ h.ends (fun j hj ↦ by cases hj), fun j hj hover ↦ ?_⟩
    obtain rfl : i = j := Option.some.inj hj
    exact absurd hover hi
  | cons j is =>
    rw [List.getLast?_cons_cons]
    exact h

/-- From its test on, a loop over integers executes its body for all values that are left. -/
theorem Count.At.rounds {natives : Array Native} {C : Count} {start var last : Nat} {S : Array Value}
    {i b c : Int64} {s : State} (hloop : C.proto.IsLoop start C.slot var last)
    (hnatives : ∀ b ∈ natives, ∃ c : Builtin, b = c.native) (hc : c ≠ 0)
    (h : C.At (.int i) (.int b) (.int c) (start + 4) S s) (hroom : S.size < s.options.maxStack)
    (hbody : BodyEnds natives C.below.length start var last s) :
    ∃ is w, Counted i.toInt b.toInt c.toInt is ∧
      Rounds natives C.below.length start var last (is.map .int) s w ∧
      Finishes natives C.below.length start var last b c is.getLast? w := by
  induction hleft : Counted.left i.toInt b.toInt c.toInt using Nat.strong_induction_on generalizing i S s with
  | _ n ih =>
  subst hleft
  by_cases hi : Within b.toInt c.toInt i.toInt
  · have hgoes : continues (.int i) (.int b) (.int c) = true := continues_ints.mpr hi
    obtain ⟨u, hbegins, hsees, hu⟩ := begins hloop hnatives h hroom hgoes
    obtain ⟨v, hcompletes⟩ := hbody [] s u (.nil s) hbegins hsees.atPoint
    have hv := completes hloop hnatives hu hcompletes
    obtain ⟨w, hagain, hoptions, hw⟩ := again hloop hnatives hv
    have hroom' : v.stack.size < w.options.maxStack := by
      obtain ⟨-, -, -, hroom', -⟩ := hcompletes
      rwa [hoptions]
    have hround {vs : List Value} {t : State} (hrest : Rounds natives C.below.length start var last vs w t) :
        Rounds natives C.below.length start var last (.int i :: vs) s t :=
      .cons hbegins hsees hcompletes hagain hrest
    cases hnext : int64? (i.toInt + c.toInt) with
    | some j =>
      have hj : j.toInt = i.toInt + c.toInt := toInt_of_int64? hnext
      rw [advanced_of_fits hj] at hw
      have hless : Counted.left j.toInt b.toInt c.toInt < Counted.left i.toInt b.toInt c.toInt := by
        rw [hj]
        exact Counted.left_lt (fun hzero ↦ hc (Int64.toInt_inj.mp hzero)) hi
      obtain ⟨is, t, hcounted, hrounds, hfinishes⟩ := ih _ hless hw hroom'
        (fun vs t t' hrest ↦ hbody _ t t' (hround hrest)) rfl
      refine ⟨i :: is, t, .cons hi (hj ▸ hcounted), hround hrounds, hfinishes.cons fun hover ↦ ?_⟩
      rw [hover.1] at hnext
      cases hnext
    | none =>
      rw [advanced_of_overflow hnext] at hw
      refine ⟨[i], w, .cons hi (.nil fun hwithin ↦ ?_), hround (.nil w), ⟨fun hends ↦ ?_, fun j hj hover ↦ ?_⟩⟩
      · obtain ⟨j, hj⟩ := fits_of_within hwithin
        rw [int64?_eq_some.mpr hj.symm] at hnext
        cases hnext
      · refine ends hloop hnatives hw hroom' (Bool.eq_false_iff.mpr fun hgoes ↦ ?_)
        exact hends i rfl ⟨hnext, hgoes⟩
      · obtain rfl : i = j := Option.some.inj hj
        obtain ⟨t, hrun, hsees, -⟩ := begins hloop hnatives hw hroom' hover.2
        exact ⟨t, hrun, hsees⟩
  · refine ⟨[], s, .nil hi, .nil s, ⟨fun _ ↦ ?_, fun j hj ↦ by cases hj⟩⟩
    exact ends hloop hnatives h hroom (Bool.eq_false_iff.mpr fun hgoes ↦ hi (continues_ints.mp hgoes))

section

variable {natives : Array Native} {code : Heap} {A : Account} {s : State} {f : Frame} {rest : List Activation}
  {r : Routine} {p : Prototype} {x : Nat}

end

/-- How many activations are below the innermost function, and its next instruction. -/
def State.point? (s : State) : Option (Nat × Nat) :=
  match s.activations with
  | .guest f :: rest => some (rest.length, f.ip)
  | _ => none

theorem State.AtPoint.iff {s : State} {d pc : Nat} : s.AtPoint d pc ↔ s.point? = some (d, pc) := by
  unfold AtPoint point?
  constructor
  · rintro ⟨f, rest, hs, rfl, rfl⟩
    rw [hs]
  · intro h
    split at h
    · next f rest hs =>
      obtain ⟨rfl, rfl⟩ := Prod.mk.inj (Option.some.inj h)
      exact ⟨f, rest, hs, rfl, rfl⟩
    · cases h

theorem Rounds.reaches {natives : Array Native} {d start var last : Nat} {vs : List Value} {s t : State}
    (h : Rounds natives d start var last vs s t) : ∃ k, run natives k .execute s = .running .execute t := by
  induction h with
  | nil => exact ⟨0, rfl⟩
  | cons begins _ body again _ ih =>
    obtain ⟨j, hj, -⟩ := body
    obtain ⟨k, hk⟩ := ih
    exact ⟨4 + (j + (2 + k)), by rw [run_of_running begins, run_of_running hj, run_of_running again, hk]⟩

end MiniLua
