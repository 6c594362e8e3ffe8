import MiniLua.Proofs.Calls.Selected
import MiniLua.Proofs.Checked.Ranges

/-!
What `unpack` gives its caller: the elements of a table between two bounds, however far the bounds lie
apart or from zero.
-/

namespace MiniLua

open Effects Machine

namespace Library

/-- The bound that an argument stands for. -/
inductive Bound (h : Heap) (default : Int) : Value → Int → Prop
  | nil : Bound h default .nil default
  | zero {v : Value} (hview : (h.number? v).bind Value.int? = some 0) : Bound h default v default
  | int {v : Value} {n : Int64} (hview : (h.number? v).bind Value.int? = some n) (hn : n ≠ 0) :
      Bound h default v n.toInt

/-- The values are the elements of a table from `i` to `j` in their order, nil where there is none. -/
structure Elements (h : Heap) (t : Nat) (i j : Int) (values : List Value) : Prop where
  length : (values.length : Int) = max 0 (j - i + 1)
  element {k : Int64} (low : i ≤ k.toInt) (high : k.toInt ≤ j) :
    values[(k.toInt - i).toNat]? = some (h.rawGet (.table t) (.int k))

/-- The elements of a table that follow the one before `i`. -/
def elementsFrom (table : Table) (i : Int) (count : Nat) : List Value :=
  (List.range count).map fun (n : Nat) ↦ table.get (.int (Int64.ofInt (i + n)))

theorem elementsFrom_succ (table : Table) (i : Int) (count : Nat) : elementsFrom table i (count + 1) =
    table.get (.int (Int64.ofInt i)) :: elementsFrom table (i + 1) count := by
  rw [elementsFrom, List.range_succ_eq_map, List.map_cons, List.map_map, Int.natCast_zero, Int.add_zero]
  refine congrArg _ (List.map_congr_left fun n _ ↦ ?_)
  rw [Function.comp_apply, Nat.succ_eq_add_one, Int.natCast_add, Int.natCast_one, Int.add_comm (n : Int) 1,
    Int.add_assoc]

section

variable {h : Heap} {t : Nat} {i j : Int}

theorem rawGet_int (k : Int64) : h.rawGet (.table t) (.int k) = (h.tables.getD t .empty).get (.int k) := by
  rw [Heap.rawGet, Array.getD_eq_getD_getElem?]
  cases h.tables[t]? with
  | none =>
    have hslot : Table.empty.slot? (.int k) = none := if_neg fun hk ↦ absurd (hk.1.trans hk.2) (by decide)
    rw [Option.getD_none, Table.get, hslot]
    exact Std.TreeMap.getD_emptyc.symm
  | some table => rfl

theorem elements_elementsFrom :
    Elements h t i j (elementsFrom (h.tables.getD t .empty) i (j - i + 1).toNat) where
  length := by
    rw [elementsFrom, List.length_map, List.length_range]
    omega
  element {k} low high := by
    have hkey : Int64.ofInt (i + ((k.toInt - i).toNat : Nat)) = k := by
      rw [show i + ((k.toInt - i).toNat : Int) = k.toInt by omega, Int64.ofInt_toInt]
    rw [elementsFrom, List.getElem?_map, List.getElem?_range (by omega), Option.map_some, hkey, rawGet_int]

end

section

variable {call : NativeCall} {rest : List Activation} {low : Array Value} {args : List Value} {s : State}
  {t : Nat} {i j : Int}

theorem listBound_of_bound {k : Nat} {v : Value} {default n : Int} (harg : arg k s = .ok v s)
    (hn : Bound s.heap default v n) : listBound k default s = .ok n s := by
  rw [listBound, bind_of_ok harg]
  cases hn with
  | nil => rfl
  | zero hview =>
    have hnil : v.isNil = false := by
      cases v <;> first | rfl | cases hview
    rw [hnil]
    exact bind_of_ok (argInt_of_view harg hview)
  | int hview hne =>
    have hnil : v.isNil = false := by
      cases v <;> first | rfl | cases hview
    have hint : ∀ n : Int64, n ≠ 0 → n.toInt ≠ 0 := fun n hn hzero ↦ hn (Int64.toInt_inj.mp hzero)
    rw [hnil]
    refine (bind_of_ok (argInt_of_view harg hview)).trans ?_
    rw [if_neg (hint _ hne)]
    rfl

/-- The builtin leaves the elements, or fails where there are more than it takes. -/
theorem unpack_serving (h : s.Serving call rest low args) (hcount : call.argCount = args.length)
    (ht : args.getD 0 .nil = .table t) (hi : Bound s.heap 1 (args.getD 1 .nil) i)
    (hj : Bound s.heap (s.heap.tables.getD t .empty).length (args.getD 2 .nil) j) :
    unpack.start s = if 1000000 < j - i + 1 then .error (.type .tooManyUnpacked) s
      else .ok .finished { s with
        stack := low ++ elementsFrom (s.heap.tables.getD t .empty) i (j - i + 1).toNat } := by
  have hfirst := listBound_of_bound (arg_of_count h hcount 1) hi
  have hlast := listBound_of_bound (arg_of_count h hcount 2) hj
  unfold unpack Native.plain
  dsimp only
  rw [bind_apply, bind_of_ok (arg_of_count h hcount 0), bind_apply, get_apply, ht]
  dsimp only
  rw [bind_of_ok hfirst, bind_of_ok hlast]
  by_cases hmany : 1000000 < j - i + 1
  · rw [if_pos hmany, if_neg (show ¬ j < i by omega), if_pos (show maxUnpacked ≤ j - i by rw [maxUnpacked]; omega)]
    rfl
  · rw [if_neg hmany]
    by_cases hnone : j < i
    · rw [if_pos hnone, setResults_apply h, show (j - i + 1).toNat = 0 by omega]
      rfl
    · rw [if_neg hnone, if_neg (show ¬ maxUnpacked ≤ j - i by rw [maxUnpacked]; omega), setResults_apply h]
      rfl

end

end Library

namespace Checked

/-! ### Integers of 64 bits -/

/-- The elements of a table from `i` to `last`, as far as the rounds go. The key after `last` is not
computed. -/
def walk (table : Table) (last : Int64) : Nat → Int64 → Option (List Value)
  | 0, _ => none
  | rounds + 1, i => do
    let v ← entry table (.int i)
    if i < last then
      let rest ← walk table last rounds (← add i 1)
      return v :: rest
    else return [v]

/-- What `unpack` makes of two bounds. A distance without 64 bits is too long. -/
def unpacked (table : Table) (first last : Int64) : Option (Except TypeFault (List Value)) :=
  if last < first then some (.ok [])
  else
    match sub last first with
    | some span =>
      if span < 1000000 then (walk table last (span.toInt.toNat + 1) first).map .ok
      else some (.error .tooManyUnpacked)
    | none => some (.error .tooManyUnpacked)

theorem walk_eq (table : Table) {first last : Int64} {n : Nat} (h : last.toInt = first.toInt + n) :
    walk table last (n + 1) first = some (Library.elementsFrom table first.toInt (n + 1)) := by
  induction n generalizing first with
  | zero =>
    have hend : ¬ first < last := by
      rw [Int64.lt_iff_toInt_lt]
      omega
    rw [walk, entry_eq, Library.elementsFrom_succ, Int64.ofInt_toInt]
    dsimp only [bind, Option.bind]
    rw [if_neg hend]
    rfl
  | succ n ih =>
    have hlast := toInt_bounds last
    have hfirst := toInt_bounds first
    have hone : (1 : Int64).toInt = 1 := rfl
    have hless : first < last := by
      rw [Int64.lt_iff_toInt_lt]
      omega
    have hnext : add first 1 = some (Int64.ofInt (first.toInt + 1)) := by
      rw [add, hone, int64?_of_bounds (by omega)]
    have htoInt : (Int64.ofInt (first.toInt + 1)).toInt = first.toInt + 1 :=
      Int64.toInt_ofInt_of_le (by omega) (by omega)
    have hrest := ih (show last.toInt = (Int64.ofInt (first.toInt + 1)).toInt + n by omega)
    rw [walk, entry_eq, Library.elementsFrom_succ, Int64.ofInt_toInt]
    dsimp only [bind, Option.bind]
    rw [if_pos hless, hnext]
    dsimp only
    rw [hrest, htoInt]
    rfl

/-- No computation on 64 bits leaves its range, and the outcome is that of unbounded integers. -/
theorem unpacked_eq (table : Table) (first last : Int64) :
    unpacked table first last = some (if 1000000 < last.toInt - first.toInt + 1 then .error .tooManyUnpacked
      else .ok (Library.elementsFrom table first.toInt (last.toInt - first.toInt + 1).toNat)) := by
  unfold unpacked
  by_cases hless : last < first
  · have hnone : last.toInt < first.toInt := Int64.lt_iff_toInt_lt.mp hless
    rw [if_pos hless, if_neg (by omega), show (last.toInt - first.toInt + 1).toNat = 0 by omega]
    rfl
  · have hle : first.toInt ≤ last.toInt := by
      rw [Int64.lt_iff_toInt_lt] at hless
      omega
    rw [if_neg hless, sub]
    by_cases hwide : last.toInt - first.toInt < 0x8000000000000000
    · have hmax : (1000000 : Int64).toInt = 1000000 := rfl
      have hspan : (Int64.ofInt (last.toInt - first.toInt)).toInt = last.toInt - first.toInt :=
        Int64.toInt_ofInt_of_le (by omega) (by omega)
      rw [int64?_of_bounds (by omega)]
      dsimp only
      by_cases hfew : last.toInt - first.toInt < 1000000
      · have hwalk := walk_eq table (show last.toInt = first.toInt + (last.toInt - first.toInt).toNat by omega)
        rw [if_pos (by rw [Int64.lt_iff_toInt_lt]; omega), if_neg (by omega), hspan, hwalk,
          show (last.toInt - first.toInt + 1).toNat = (last.toInt - first.toInt).toNat + 1 by omega]
        rfl
      · rw [if_neg (by rw [Int64.lt_iff_toInt_lt]; omega), if_pos (by omega)]
    · rw [int64?, if_neg (by omega), if_pos (by omega)]

end Checked

namespace Library

theorem leaves_unpack {h : Heap} {args : List Value} {t : Nat} {i j : Int} (expected : Option Nat)
    (ht : args.getD 0 .nil = .table t) (hi : Bound h 1 (args.getD 1 .nil) i)
    (hj : Bound h (h.tables.getD t .empty).length (args.getD 2 .nil) j) (hfew : j - i + 1 ≤ 1000000) :
    Leaves unpack h args expected (elementsFrom (h.tables.getD t .empty) i (j - i + 1).toNat) := by
  rintro call rest low s hserving hcount rfl rfl
  rw [unpack_serving hserving hcount ht hi hj, if_neg (Int.not_lt.mpr hfew)]
  exact ⟨_, rfl, rfl⟩

theorem refuses_unpack {h : Heap} {args : List Value} {t : Nat} {i j : Int}
    (ht : args.getD 0 .nil = .table t) (hi : Bound h 1 (args.getD 1 .nil) i)
    (hj : Bound h (h.tables.getD t .empty).length (args.getD 2 .nil) j) (hmany : 1000000 < j - i + 1) :
    Refuses unpack h args (.type .tooManyUnpacked) := by
  rintro call rest low s hserving hcount rfl
  rw [unpack_serving hserving hcount ht hi hj, if_pos hmany]

/-- A call of `unpack` with a table and two bounds gives the elements between them, if these are a million
or fewer, to a function that made it and to a builtin or the host alike. Of more it says that they are too
many, and of no others. If neither happens, there was no room for the call or for the elements. No
computation on the bounds needs more than 64 bits. -/
theorem unpack_gives_range {natives : Array Native} {args : List Value} {t : Nat} {i j : Int}
    (ht : args.getD 0 .nil = .table t) :
    (∀ {expected : Option Nat} {low : Array Value} {s u : State},
      CallsBuiltin natives unpack args expected low s u → Bound s.heap 1 (args.getD 1 .nil) i →
        Bound s.heap (s.heap.tables.getD t .empty).length (args.getD 2 .nil) j →
          (j - i + 1 ≤ 1000000 → ∃ values, Elements s.heap t i j values ∧
            (step natives .execute s = .next .execute { counted values expected u with
              stack := low ++ adjusted values expected } ∨
            (¬ (u.activations.length < u.options.maxCallDepth ∧
                low.size + (adjusted values expected).length ≤ u.options.maxStack) ∧
              ∃ v, step natives .execute s = .next (.deliver (.error .stackOverflow)) v))) ∧
          (1000000 < j - i + 1 →
            (∃ v, step natives .execute s = .next (.deliver (.error (.type .tooManyUnpacked))) v) ∨
            (¬ u.activations.length < u.options.maxCallDepth ∧
              ∃ v, step natives .execute s = .next (.deliver (.error .stackOverflow)) v))) ∧
      (∀ {slot : Nat} {s : State}, natives[slot]? = some unpack → ¬ IsGuest s.activations →
        Bound s.heap 1 (args.getD 1 .nil) i →
          Bound s.heap (s.heap.tables.getD t .empty).length (args.getD 2 .nil) j →
            ∃ r : Except RuntimeError (List Value),
              (j - i + 1 ≤ 1000000 → ∃ values, r = .ok values ∧ Elements s.heap t i j values) ∧
              (1000000 < j - i + 1 → r = .error (.type .tooManyUnpacked)) ∧
              ((∃ v, step natives (.enter (.native slot) args) s = .next (.deliver r) v ∧
                  v.stack = s.stack ∧ v.activations = s.activations) ∨
                (¬ (s.activations.length < s.options.maxCallDepth ∧
                    s.stack.size + (args.length + 1) ≤ s.options.maxStack) ∧
                  ∃ v, step natives (.enter (.native slot) args) s =
                    .next (.deliver (.error .stackOverflow)) v))) ∧
      (∀ (h : Heap) (t : Nat) (i j : Int64),
        (j.toInt - i.toInt + 1 ≤ 1000000 → ∃ values, Elements h t i.toInt j.toInt values ∧
          Checked.unpacked (h.tables.getD t .empty) i j = some (.ok values)) ∧
        (1000000 < j.toInt - i.toInt + 1 →
          Checked.unpacked (h.tables.getD t .empty) i j = some (.error .tooManyUnpacked))) ∧
      (RuntimeError.type .tooManyUnpacked).message = "too many results to unpack" := by
  refine ⟨fun hcall hi hj ↦ ⟨fun hfew ↦ ?_, fun hmany ↦ ?_⟩, fun {slot s} hslot hwaits hi hj ↦ ?_,
    fun h t i j ↦ ⟨fun hfew ↦ ?_, fun hmany ↦ ?_⟩, rfl⟩
  · exact ⟨_, elements_elementsFrom, hcall.gives (leaves_unpack _ ht hi hj hfew)⟩
  · exact hcall.refuses (refuses_unpack ht hi hj hmany)
  · by_cases hmany : 1000000 < j - i + 1
    · exact ⟨_, fun hfew ↦ absurd hmany (Int.not_lt.mpr hfew), fun _ ↦ rfl,
        enter_refuses hslot hwaits (refuses_unpack ht hi hj hmany)⟩
    · exact ⟨_, fun _ ↦ ⟨_, rfl, elements_elementsFrom⟩, fun hmore ↦ absurd hmore hmany,
        enter_gives hslot hwaits (leaves_unpack _ ht hi hj (Int.not_lt.mp hmany))⟩
  · exact ⟨_, elements_elementsFrom, by rw [Checked.unpacked_eq, if_neg (Int.not_lt.mpr hfew)]⟩
  · rw [Checked.unpacked_eq, if_pos hmany]

/-- From a hole on to the end of a list of three. Three values are wanted and there are two. -/
theorem unpack_gives_range_hole :
    let list : Table := ⟨#[.int 7, .nil, .int 8], {}⟩
    let s := { applyingState with
      heap := { applyingState.heap with tables := #[list] }
      stack := #[.int 5, .native 0, .table 0, .int 2] }
    ∃ u, CallsBuiltin #[unpack] unpack [.table 0, .int 2] (some 3) #[.int 5] s u ∧
      Bound s.heap 1 (.int 2) 2 ∧ Bound s.heap 3 .nil 3 ∧
      step #[unpack] .execute s = .next .execute { u with stack := #[.int 5, .nil, .int 8, .nil] } := by
  intro list s
  have hcall : CallsBuiltin #[unpack] unpack [.table 0, .int 2] (some 3) #[.int 5] s (advance s) :=
    ⟨⟨0, rfl, rfl⟩, rfl⟩
  have hfirst : Bound s.heap 1 (.int 2) 2 := .int (n := 2) rfl (by decide)
  obtain ⟨hfew, -⟩ := (unpack_gives_range (t := 0) rfl).1 hcall hfirst .nil
  obtain ⟨values, helements, hgives⟩ := hfew (by decide)
  have hlength : values.length = 2 := Int.natCast_inj.mp helements.length
  have hhole : values[0]? = some .nil := helements.element (k := 2) (by decide) (by decide)
  have hlast : values[1]? = some (.int 8) := helements.element (k := 3) (by decide) (by decide)
  obtain rfl : values = [.nil, .int 8] := by
    match values, hlength with
    | [a, b], _ => rw [Option.some.inj hhole, Option.some.inj hlast]
  refine ⟨advance s, hcall, hfirst, .nil, ?_⟩
  obtain hgives | ⟨hshort, -⟩ := hgives
  · exact hgives
  · exact absurd ⟨by decide, by decide⟩ hshort

end Library

end MiniLua
