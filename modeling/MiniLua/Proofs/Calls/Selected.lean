import MiniLua.Proofs.Calls.Outside
import MiniLua.Proofs.Calls.Windows

/-!
What `select` gives its caller. The builtin copies more than the arguments it selects if more are wanted, and
what it reads past them is nil; the machine would have added the same.
-/

namespace MiniLua

open Effects Machine

/-! ### As many as wanted -/

section

variable {vs : List Value} {m n : Nat}

theorem adjusted_length : adjusted vs (some vs.length) = vs := by
  apply List.ext_getElem
  · simp [adjusted]
  · intro i hi hi'
    simp [adjusted, hi']

theorem getD_adjusted (h : m < n) : (adjusted vs (some n)).getD m .nil = vs.getD m .nil := by
  simp [adjusted, h]

/-- Values that were added are cut off again or would be added again. -/
theorem adjusted_adjusted (h : m ≤ n) : adjusted (adjusted vs (some n)) (some m) = adjusted vs (some m) := by
  refine List.map_congr_left fun i hi ↦ getD_adjusted ?_
  exact Nat.lt_of_lt_of_le (List.mem_range.mp hi) h

end

/-! ### Calls of builtins -/

section

variable {s : State}

/-- Results that are the same when as many are taken as wanted are given alike. -/
theorem Transition.giveResults_congr {results results' : List Value} {expected : Option Nat}
    (hguest : IsGuest s.activations) (h : adjusted results expected = adjusted results' expected) :
    giveResults results expected s = giveResults results' expected s := by
  rw [giveResults_of_isGuest hguest, giveResults_of_isGuest hguest, h]
  cases expected with
  | none =>
    have hsame : results = results' := h
    rw [hsame]
  | some n => rfl

/-- Results lie on the stack of the caller, unless there is no room for them. -/
theorem Transition.giveResults_cases (hguest : IsGuest s.activations) (results : List Value)
    (expected : Option Nat) :
    giveResults results expected s = .next .execute { counted results expected s with
      stack := s.stack ++ adjusted results expected } ∨
      (¬ s.stack.size + (adjusted results expected).length ≤ s.options.maxStack ∧
        ∃ t, giveResults results expected s = .next (.deliver (.error .stackOverflow)) t) := by
  have hcounted : (counted results expected s).stack = s.stack := by cases expected <;> rfl
  have hoptions : (counted results expected s).options = s.options := by cases expected <;> rfl
  rw [giveResults_of_isGuest hguest, ← hcounted, ← hoptions]
  obtain hpush | ⟨pushed, hpush⟩ := pushAll_cases (adjusted results expected) (counted results expected s)
  · rw [hpush]
    exact .inl rfl
  · refine .inr ⟨fun hroom ↦ ?_, ?_⟩
    · rw [pushAll_of_room _ hroom] at hpush
      cases hpush
    · rw [hpush]
      obtain ⟨t, ht, -⟩ := guestError_apply .stackOverflow
        { counted results expected s with stack := (counted results expected s).stack ++ pushed }
      exact ⟨t, ht⟩

end

section

variable {call : NativeCall} {rest : List Activation} {low : Array Value} {args : List Value} {s : State}

theorem Machine.expectedResults_serving (h : s.Serving call rest low args) :
    expectedResults s = .ok call.expected s := by
  have hexpected : expectedResults s = .ok (s.native?.bind NativeCall.expected) s := rfl
  rw [hexpected, h.native?]
  rfl

/-- Arguments read from a position on are those there, and nil past the last one. -/
theorem Machine.mapM_arg_serving (h : s.Serving call rest low args) (hcount : call.argCount = args.length)
    (position length : Nat) : ((List.range length).mapM fun i ↦ arg (position + i)) s =
      .ok (adjusted (args.drop position) (some length)) s := by
  have hread (places : List Nat) : (places.mapM fun i ↦ arg (position + i)) s =
      .ok (places.map fun i ↦ (args.drop position).getD i .nil) s := by
    induction places with
    | nil => rfl
    | cons i places ih =>
      have harg : arg (position + i) s = .ok ((args.drop position).getD i .nil) s := by
        rw [arg_of_count h hcount, List.getD_eq_getElem?_getD, List.getD_eq_getElem?_getD, List.getElem?_drop]
      rw [List.mapM_cons, bind_of_ok harg, bind_of_ok ih]
      rfl
  exact hread (List.range length)

end

/-- There is room for a call that the host, or a builtin, makes. -/
def State.HasRoom (s : State) (args : List Value) : Prop :=
  s.activations.length < s.options.maxCallDepth ∧ s.stack.size + (args.length + 1) ≤ s.options.maxStack

/-- The host, or another builtin, calls a builtin, which starts if there is room. -/
theorem hostCall_native_cases {natives : Array Native} {b : Native} {slot : Nat} (hslot : natives[slot]? = some b)
    (args : List Value) (s : State) :
    (s.HasRoom args ∧ ∃ location, Transition.hostCall natives (.native slot) args s =
        Transition.afterNative (b.start (State.entering
          { s with location, stack := s.stack ++ (.native slot :: args) } slot b (s.stack.size + 1) args none))) ∨
      (¬ s.HasRoom args ∧ ∃ u, Transition.hostCall natives (.native slot) args s =
        .next (.deliver (.error .stackOverflow)) u ∧ u.heap = s.heap) := by
  obtain ⟨location, hplace⟩ := exists_location s
  unfold Transition.hostCall
  dsimp only
  rw [hplace]
  obtain hpush | ⟨pushed, hpush⟩ := pushAll_cases (.native slot :: args) { s with location }
  · have hroom := room_of_pushAll hpush
    rw [hpush]
    dsimp only
    rw [enterNative_apply hslot]
    by_cases hdepth : s.options.maxCallDepth ≤ s.activations.length
    · rw [if_pos hdepth]
      exact .inr ⟨fun h ↦ absurd h.1 (Nat.not_lt.mpr hdepth), _, rfl, rfl⟩
    · rw [if_neg hdepth]
      exact .inl ⟨⟨Nat.lt_of_not_le hdepth, hroom⟩, location, rfl⟩
  · rw [hpush]
    refine .inr ⟨fun hroom ↦ ?_, _, rfl, rfl⟩
    rw [pushAll_of_room _ hroom.2] at hpush
    cases hpush

/-! ### Selectors -/

theorem Binary.ratio_pos (b : Binary) : 0 < b.ratio.2 := by
  unfold ratio
  split
  · exact Nat.one_pos
  · exact Nat.pow_pos Nat.two_pos

/-- A number is cut down to a positive integer if it lies between that and the next one. -/
theorem Binary.truncate_eq_natCast {b : Binary} {n : Nat} (hpos : 0 < n) : b.truncate = n ↔
    b.negative = false ∧ n * b.ratio.2 ≤ b.ratio.1 ∧ b.ratio.1 < (n + 1) * b.ratio.2 := by
  have hdenominator := b.ratio_pos
  have hquotient : b.ratio.1 / b.ratio.2 = n ↔ n * b.ratio.2 ≤ b.ratio.1 ∧ b.ratio.1 < (n + 1) * b.ratio.2 := by
    rw [Nat.div_eq_iff hdenominator, Nat.add_mul, Nat.one_mul]
    omega
  rw [truncate, signed, ← hquotient]
  generalize b.ratio.1 / b.ratio.2 = quotient
  cases b.negative with
  | true =>
    rw [if_pos rfl]
    exact ⟨fun h ↦ absurd h (by omega), fun h ↦ nomatch h.1⟩
  | false =>
    rw [if_neg Bool.false_ne_true, Int.natCast_inj]
    exact ⟨fun h ↦ ⟨rfl, h⟩, And.right⟩

namespace Library

/-- The value is a positive integer, or a float that is one when its fraction is dropped. -/
inductive Selector : Value → Nat → Prop
  | int {i : Int64} {n : Nat} (hpos : 0 < n) (h : i.toInt = n) : Selector (.int i) n
  | float {bits : UInt64} {b : Binary} {n : Nat} (hpos : 0 < n) (hb : Binary.ofBits? bits = some b)
      (hsign : b.negative = false) (hlow : n * b.ratio.2 ≤ b.ratio.1) (hhigh : b.ratio.1 < (n + 1) * b.ratio.2) :
      Selector (.float bits) n

theorem selectedPosition?_eq_some {v : Value} {n : Nat} : selectedPosition? v = some n ↔ Selector v n := by
  constructor
  · intro h
    unfold selectedPosition? at h
    split at h
    · next i =>
      rw [Option.ite_none_right_eq_some, Option.some_inj, Int64.lt_iff_toInt_lt, Int64.toInt_zero] at h
      exact .int (by omega) (by omega)
    · next bits =>
      split at h
      · next k hk =>
        obtain ⟨b, hb, rfl⟩ := Option.map_eq_some_iff.mp hk
        rw [Option.ite_none_right_eq_some, Option.some_inj] at h
        have hpos : 0 < n := by omega
        have hvalue : b.truncate = n := by omega
        obtain ⟨hsign, hlow, hhigh⟩ := (Binary.truncate_eq_natCast hpos).mp hvalue
        exact .float hpos hb hsign hlow hhigh
      · cases h
    · cases h
  · intro h
    cases h with
    | @int i _ hpos h =>
      have hi : 0 < i := by
        rw [Int64.lt_iff_toInt_lt, Int64.toInt_zero]
        omega
      rw [selectedPosition?, if_pos hi, h, Int.toNat_natCast]
    | float hpos hb hsign hlow hhigh =>
      have htruncate := (Binary.truncate_eq_natCast hpos).mpr ⟨hsign, hlow, hhigh⟩
      rw [selectedPosition?, hb, Option.map_some, htruncate]
      dsimp only
      rw [if_pos (by omega), Int.toNat_natCast]

/-- What is selected of the values behind the selector: their number, or all from a position on. -/
inductive Picks (h : Heap) (behind : List Value) : Value → List Value → Prop
  | count {k : Nat} {i : Int64} (hk : h.bytes? k = some (Bytes.ofText "#")) (hi : i.toInt = behind.length) :
      Picks h behind (.string k) [.int i]
  | rest {v : Value} {n : Nat} (hn : Selector v n) : Picks h behind v (behind.drop (n - 1))

/-! ### The builtin -/

theorem Selector.pos {v : Value} {n : Nat} (h : Selector v n) : 0 < n := by
  cases h with
  | int hpos _ => exact hpos
  | float hpos _ _ _ _ => exact hpos

/-- The builtin leaves what it selects, with nils behind it that its caller would have added. -/
theorem select_serving {call : NativeCall} {rest : List Activation} {low : Array Value} {selector : Value}
    {behind picked : List Value} {s : State} (h : s.Serving call rest low (selector :: behind))
    (hcount : call.argCount = behind.length + 1) (hpicks : Picks s.heap behind selector picked) :
    ∃ window : List Value, select.start s = .ok .finished { s with stack := low ++ window } ∧
      adjusted window call.expected = adjusted picked call.expected := by
  have hselector := arg_of_count h hcount 0
  unfold select Native.plain
  dsimp only
  rw [bind_apply, bind_of_ok (argCount_serving h), bind_of_ok hselector, List.getD_cons_zero, bind_apply,
    get_apply]
  dsimp only
  cases hpicks with
  | @count k i hk hi =>
    have hhash : s.heap.stringOf? (.string k) = some [35] := hk
    have hnumber : Int64.ofNat (call.argCount - 1) = i := by
      rw [hcount, Nat.add_sub_cancel, ← Int64.ofInt_eq_ofNat, ← hi, Int64.ofInt_toInt]
    rw [if_pos hhash, hnumber, setResults_apply h]
    exact ⟨[.int i], rfl, rfl⟩
  | @rest _ n hn =>
    have hother : s.heap.stringOf? selector ≠ some [35] := by cases hn <;> exact nofun
    have hdrop : (selector :: behind).drop n = behind.drop (n - 1) := by
      obtain ⟨n, rfl⟩ := Nat.exists_eq_succ_of_ne_zero (Nat.ne_of_gt hn.pos)
      rfl
    have hread := mapM_arg_serving h hcount n (windowLength call.argCount n (call.expected.getD 0))
    rw [if_neg hother, selectedPosition?_eq_some.mpr hn]
    dsimp only
    rw [bind_of_ok (expectedResults_serving h), bind_of_ok hread, setResults_apply h, hdrop]
    refine ⟨_, rfl, ?_⟩
    cases call.expected with
    | none =>
      -- where all are wanted nothing is read past the arguments
      have hlength : windowLength call.argCount n 0 = (behind.drop (n - 1)).length := by
        have hpos := hn.pos
        rw [windowLength, hcount, List.length_drop]
        omega
      rw [Option.getD_none, hlength, adjusted_length]
    | some m => exact adjusted_adjusted (Nat.le_max_right _ _)

/-- The instruction in `s` calls `b` with these arguments, which lie on top of `low`. It has been read in `t`. -/
structure CallsBuiltin (natives : Array Native) (b : Native) (args : List Value) (expected : Option Nat)
    (low : Array Value) (s t : State) : Prop where
  called : ∃ slot, natives[slot]? = some b ∧ s.stack = low.push (.native slot) ++ args
  read : instruction s = .ok (.call args.length expected) t

theorem CallsBuiltin.isGuest {natives : Array Native} {b : Native} {args : List Value} {expected : Option Nat}
    {low : Array Value} {s t : State} (h : CallsBuiltin natives b args expected low s t) : IsGuest t.activations :=
  (sameCalls_instruction h.read).isGuest (instruction_guest h.read)

/-- Called with these arguments, the builtin leaves the values, or what its caller makes the same of. -/
def Leaves (b : Native) (h : Heap) (args : List Value) (expected : Option Nat) (values : List Value) : Prop :=
  ∀ {call : NativeCall} {rest : List Activation} {low : Array Value} {s : State},
    s.Serving call rest low args → call.argCount = args.length → call.expected = expected → s.heap = h →
      ∃ window : List Value, b.start s = .ok .finished { s with stack := low ++ window } ∧
        adjusted window expected = adjusted values expected

/-- Called with these arguments, the builtin fails and changes nothing. -/
def Refuses (b : Native) (h : Heap) (args : List Value) (e : RuntimeError) : Prop :=
  ∀ {call : NativeCall} {rest : List Activation} {low : Array Value} {s : State},
    s.Serving call rest low args → call.argCount = args.length → s.heap = h → b.start s = .error e s

section

variable {natives : Array Native} {b : Native} {args values : List Value} {expected : Option Nat}
  {low : Array Value} {s t : State} {slot : Nat} {e : RuntimeError}

theorem serving_entering (b : Native) (expected : Option Nat)
    (hstack : s.stack = low.push (.native slot) ++ args) :
    (s.entering slot b (low.size + 1) args expected).Serving
      ⟨slot, b.name, low.size + 1, args.length, expected, .nothing⟩ s.activations (low.push (.native slot)) args :=
  ⟨rfl, (Array.size_push _).symm, hstack⟩

theorem Leaves.afterNative (h : Leaves b s.heap args expected values)
    (hstack : s.stack = low.push (.native slot) ++ args) : ∃ window : List Value,
      Transition.afterNative (b.start (s.entering slot b (low.size + 1) args expected)) =
        Transition.giveResults window expected { s with stack := low } ∧
      adjusted window expected = adjusted values expected := by
  have hserving := serving_entering b expected hstack
  obtain ⟨window, hstart, hwindow⟩ := h hserving rfl rfl rfl
  have hleft : State.Serving ⟨slot, b.name, low.size + 1, args.length, expected, .nothing⟩ s.activations
      (low.push (.native slot)) window { s.entering slot b (low.size + 1) args expected with
        stack := low.push (.native slot) ++ window } := ⟨rfl, hserving.base, rfl⟩
  refine ⟨window, ?_, hwindow⟩
  rw [hstart, Transition.afterNative, hleft.nativeResults_callee]
  rfl

theorem CallsBuiltin.heap (h : CallsBuiltin natives b args expected low s t) : t.heap = s.heap := by
  rw [(instruction_call h.read).1, advance_heap]

theorem CallsBuiltin.enters (h : CallsBuiltin natives b args expected low s t) : ∃ slot,
    t.stack = low.push (.native slot) ++ args ∧ step natives .execute s =
      if t.options.maxCallDepth ≤ t.activations.length then Transition.guestError .stackOverflow t
      else Transition.afterNative (b.start (t.entering slot b (low.size + 1) args expected)) := by
  obtain ⟨⟨slot, hslot, hstack⟩, hcall⟩ := h
  have hstack' := (stack_of_call hcall).trans hstack
  refine ⟨slot, hstack', ?_⟩
  rw [step, hcall]
  exact guestCall_native hstack' hslot

/-- A function that calls a builtin finds what that leaves on its stack, if there is room. -/
theorem CallsBuiltin.gives (h : CallsBuiltin natives b args expected low s t)
    (hleaves : Leaves b s.heap args expected values) :
    step natives .execute s = .next .execute { counted values expected t with
      stack := low ++ adjusted values expected } ∨
    (¬ (t.activations.length < t.options.maxCallDepth ∧
        low.size + (adjusted values expected).length ≤ t.options.maxStack) ∧
      ∃ u, step natives .execute s = .next (.deliver (.error .stackOverflow)) u) := by
  obtain ⟨slot, hstack, hstep⟩ := h.enters
  have hlater : Leaves b t.heap args expected values := h.heap ▸ hleaves
  obtain ⟨window, hafter, hwindow⟩ := hlater.afterNative hstack
  rw [hstep]
  by_cases hdepth : t.options.maxCallDepth ≤ t.activations.length
  · rw [if_pos hdepth]
    obtain ⟨u, hu, -⟩ := Transition.guestError_apply .stackOverflow t
    exact .inr ⟨fun hroom ↦ absurd hroom.1 (Nat.not_lt.mpr hdepth), u, hu⟩
  · rw [if_neg hdepth, hafter, Transition.giveResults_congr (s := { t with stack := low }) h.isGuest hwindow]
    obtain hgives | ⟨hfull, hgives⟩ := Transition.giveResults_cases (s := { t with stack := low })
      h.isGuest values expected
    · left
      rw [hgives]
      cases expected <;> rfl
    · exact .inr ⟨fun hroom ↦ hfull hroom.2, hgives⟩

/-- The host, or a builtin, that calls a builtin gets what that leaves, if there is room for the call. -/
theorem enter_gives (hslot : natives[slot]? = some b) (hwaits : ¬ IsGuest s.activations)
    (hleaves : Leaves b s.heap args none values) :
    (∃ u, step natives (.enter (.native slot) args) s = .next (.deliver (.ok values)) u ∧
        u.stack = s.stack ∧ u.activations = s.activations) ∨
      (¬ (s.activations.length < s.options.maxCallDepth ∧
          s.stack.size + (args.length + 1) ≤ s.options.maxStack) ∧
        ∃ u, step natives (.enter (.native slot) args) s = .next (.deliver (.error .stackOverflow)) u) := by
  rw [step]
  obtain ⟨-, location, hcall⟩ | ⟨hshort, u, hu, -⟩ := hostCall_native_cases hslot args s
  · have hstack : s.stack ++ (.native slot :: args) = s.stack.push (.native slot) ++ args :=
      Array.appendList_cons
    obtain ⟨window, hafter, hwindow⟩ := Leaves.afterNative (s := { s with
      location, stack := s.stack ++ (.native slot :: args) }) hleaves hstack
    obtain rfl : window = values := hwindow
    have hgives := Transition.giveResults_of_waits (s := { s with location }) hwaits window none
    exact .inl ⟨{ s with location }, hcall.trans (hafter.trans hgives), rfl, rfl⟩
  · exact .inr ⟨hshort, u, hu⟩

/-- An error of a builtin is raised where it was called. -/
theorem CallsBuiltin.refuses (h : CallsBuiltin natives b args expected low s t)
    (hrefuses : Refuses b s.heap args e) :
    (∃ u, step natives .execute s = .next (.deliver (.error e)) u) ∨
    (¬ t.activations.length < t.options.maxCallDepth ∧
      ∃ u, step natives .execute s = .next (.deliver (.error .stackOverflow)) u) := by
  obtain ⟨slot, hstack, hstep⟩ := h.enters
  rw [hstep]
  by_cases hdepth : t.options.maxCallDepth ≤ t.activations.length
  · rw [if_pos hdepth]
    obtain ⟨u, hu, -⟩ := Transition.guestError_apply .stackOverflow t
    exact .inr ⟨Nat.not_lt.mpr hdepth, u, hu⟩
  · rw [if_neg hdepth, hrefuses (serving_entering b expected hstack) rfl h.heap]
    obtain ⟨u, hu, -⟩ := Transition.nativeError_guest (s := t.entering slot b (low.size + 1) args expected) rfl
      h.isGuest e
    exact .inl ⟨u, hu⟩

theorem enter_refuses (hslot : natives[slot]? = some b) (hwaits : ¬ IsGuest s.activations)
    (hrefuses : Refuses b s.heap args e) :
    (∃ u, step natives (.enter (.native slot) args) s = .next (.deliver (.error e)) u ∧
        u.stack = s.stack ∧ u.activations = s.activations) ∨
      (¬ (s.activations.length < s.options.maxCallDepth ∧
          s.stack.size + (args.length + 1) ≤ s.options.maxStack) ∧
        ∃ u, step natives (.enter (.native slot) args) s = .next (.deliver (.error .stackOverflow)) u) := by
  rw [step]
  obtain ⟨-, location, hcall⟩ | ⟨hshort, u, hu, -⟩ := hostCall_native_cases hslot args s
  · have hstack : s.stack ++ (.native slot :: args) = s.stack.push (.native slot) ++ args :=
      Array.appendList_cons
    have hserving := serving_entering b none (s := { s with
      location, stack := s.stack ++ (.native slot :: args) }) hstack
    refine .inl ⟨{ s with location }, hcall.trans ?_, rfl, rfl⟩
    rw [hrefuses hserving rfl rfl]
    exact Transition.nativeError_waits hserving hwaits e
  · exact .inr ⟨hshort, u, hu⟩

end

theorem leaves_select {h : Heap} {selector : Value} {behind picked : List Value} (expected : Option Nat)
    (hpicks : Picks h behind selector picked) : Leaves select h (selector :: behind) expected picked := by
  rintro call rest low s hserving hcount rfl rfl
  exact select_serving hserving hcount hpicks

/-- What `select` leaves on the stack of a function that called it is what it selects of the arguments behind
its selector, all of it or as many values as were wanted, with nil for those that are missing. A builtin or the
host that called it gets all of it. If this does not happen, there was no room for it or for the call. -/
theorem select_gives_picked {natives : Array Native} {selector : Value} {behind picked : List Value} :
    (∀ {expected : Option Nat} {low : Array Value} {s t : State},
      CallsBuiltin natives select (selector :: behind) expected low s t → Picks s.heap behind selector picked →
        step natives .execute s = .next .execute { counted picked expected t with
          stack := low ++ adjusted picked expected } ∨
        (¬ (t.activations.length < t.options.maxCallDepth ∧
            low.size + (adjusted picked expected).length ≤ t.options.maxStack) ∧
          ∃ u, step natives .execute s = .next (.deliver (.error .stackOverflow)) u)) ∧
      ∀ {slot : Nat} {s : State}, natives[slot]? = some select → ¬ IsGuest s.activations →
        Picks s.heap behind selector picked →
          (∃ u, step natives (.enter (.native slot) (selector :: behind)) s = .next (.deliver (.ok picked)) u ∧
            u.stack = s.stack ∧ u.activations = s.activations) ∨
          (¬ (s.activations.length < s.options.maxCallDepth ∧
              s.stack.size + (behind.length + 2) ≤ s.options.maxStack) ∧
            ∃ u, step natives (.enter (.native slot) (selector :: behind)) s =
              .next (.deliver (.error .stackOverflow)) u) := by
  exact ⟨fun hcall hpicks ↦ hcall.gives (leaves_select _ hpicks),
    fun hslot hwaits hpicks ↦ enter_gives hslot hwaits (leaves_select _ hpicks)⟩

/-- A selector of 1.9 is a one. Three values are wanted and there is only one behind it. -/
theorem select_gives_picked_padded :
    let s := { applyingState with stack := #[.int 5, .native 0, .float 0x3FFE666666666666, .int 9] }
    ∃ t, CallsBuiltin #[select] select [.float 0x3FFE666666666666, .int 9] (some 3) #[.int 5] s t ∧
      Picks s.heap [.int 9] (.float 0x3FFE666666666666) [.int 9] ∧
      step #[select] .execute s = .next .execute { t with stack := #[.int 5, .int 9, .nil, .nil] } := by
  intro s
  have hcall : CallsBuiltin #[select] select [.float 0x3FFE666666666666, .int 9] (some 3) #[.int 5] s
      (advance s) := ⟨⟨0, rfl, rfl⟩, rfl⟩
  have hselector : Selector (.float 0x3FFE666666666666) 1 :=
    .float Nat.one_pos rfl rfl (by decide) (by decide)
  have hpicks : Picks s.heap [.int 9] (.float 0x3FFE666666666666) [.int 9] := .rest hselector
  refine ⟨advance s, hcall, hpicks, ?_⟩
  obtain hgives | ⟨hshort, -⟩ := select_gives_picked.1 hcall hpicks
  · exact hgives
  · exact absurd ⟨by decide, by decide⟩ hshort

end Library

end MiniLua
