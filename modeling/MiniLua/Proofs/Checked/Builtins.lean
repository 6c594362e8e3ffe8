import MiniLua.Library.Registry
import MiniLua.Proofs.Checked.Programs
import MiniLua.Proofs.Checked.Strings
import MiniLua.Proofs.Checked.Texts

/-! Builtins over operations that have ranges. -/

namespace MiniLua.Checked

open Effects

/-! ### Arguments -/

def argNumber (i : Nat) : Program (Option Value) := do
  let h := (← get).heap
  let v ← total (Machine.arg i)
  ranged (number h v)

def argInt (i : Nat) : Program Int64 := do
  match (← argNumber i).bind Value.int? with
  | some n => return n
  | none => total (Machine.wrongType i "number")

def argFloat (i : Nat) : Program Float := do
  match (← argNumber i).bind Value.float? with
  | some x => return x
  | none => total (Machine.wrongType i "number")

def numberArg (i : Nat) : Program Value := do
  let v ← total (Machine.arg i)
  match v with
  | .int _ | .float _ => return v
  | _ => return .ofFloat (← argFloat i)

/-- The number a string writes in a base, nil if it writes none. -/
def parsedNumber (base : Nat) (bytes : Bytes) : Option Value :=
  if base = 10 then (numeral bytes).map fun n ↦ (n.map Numeral.toValue).getD .nil
  else (radixInt base bytes).map fun i ↦ (i.map Value.int).getD .nil

def listBound (i : Nat) (default : Int) : Program Int := do
  if (← total (Machine.arg i)).isNil then return default
  let n := (← argInt i).toInt
  return if n = 0 then default else n

def environmentTarget : Program (Option Nat) := do
  let target ← total (Machine.arg 0)
  match target with
  | .closure c => return some c
  | .int _ | .float _ | .string _ =>
    let depth := (← argInt 0).toInt
    total do
      if depth = 0 then throw (.unsupported .threadEnvironment)
      if depth < 0 then throw (← Machine.badArgument 0 "level must be non-negative")
      return (← Machine.callFrame? depth.toNat).map Frame.closure
  | v =>
    total do throw (← Machine.badArgument 0 ("function or number expected, got " ++ v.typeName))

/-! ### Builtins that need operations with a range -/

structure Native where
  start : Program Outcome
  resume : Memo → Except RuntimeError (List Value) → Program Outcome

def Native.plain (body : Program Unit) : Native where
  start := do
    body
    return .finished
  resume _ _ := return .finished

namespace Native

def tonumber : Native := .plain do
  let base ← if (← total (Machine.arg 1)).isNil then pure 10 else argInt 1
  if base < 2 ∨ 36 < base then
    throw (.error (← total (Machine.badArgument 1 "base out of range")))
  let v ← total (Machine.arg 0)
  let heap := (← get).heap
  let result ←
    match v with
    | .int _ | .float _ => pure v
    | .string s => ranged (parsedNumber base.toInt.toNat ((heap.bytes? s).getD []))
    | _ => pure .nil
  total (Machine.setResults [result])

def rawget : Native := .plain do
  let h := (← get).heap
  let table ← total (Machine.arg 0)
  let key ← total (Machine.arg 1)
  let v ← ranged (rawGet h table key)
  total (Machine.setResults [v])

def unpack : Native := .plain do
  let list ← total (Machine.arg 0)
  let heap := (← get).heap
  match list with
  | .table t =>
    let table := heap.tables.getD t .empty
    let first ← listBound 1 1
    let last ← listBound 2 table.length
    if last < first then total (Machine.setResults [])
    else if Library.maxUnpacked ≤ last - first then throw (.error (.type .tooManyUnpacked))
    else
      let values ← ranged ((List.range (last - first + 1).toNat).mapM fun (i : Nat) ↦
        entry table (.int (Int64.ofInt (first + i))))
      total (Machine.setResults values)
  | v => throw (.error (.type (.notList (heap.toText v))))

def setfenv : Native := .plain do
  let target ← environmentTarget
  let env ← total (Machine.arg 1)
  total <|
    match target, env with
    | some c, .table env => do
      Machine.changeHeap fun h ↦
        { h with closures := h.closures.modify c fun c ↦ { c with env } }
      Machine.setResults [.closure c]
    | _, _ => Machine.setResults []

def abs : Native := .plain do
  let v ← numberArg 0
  let heap := (← get).heap
  let negated ← ranged (arith heap .sub (.int 0) v)
  total do Machine.setResults [← Machine.lift (do Library.larger heap v (← negated))]

def modf : Native := .plain do
  let (whole, rest) := Library.splitFloat (← argFloat 0)
  total (Machine.setResults [.ofFloat whole, .ofFloat rest])

def sin : Native := .plain do
  let x ← argFloat 0
  total (Machine.setResults [.ofFloat x.sin])

def sub : Native := .plain do
  let s ← total (Machine.argBytes 0)
  let i ← argInt 1
  let j ← if (← total (Machine.arg 2)).isNil then pure (-1) else argInt 2
  let bytes ← ranged (substring s i j)
  total do Machine.setResults [← Machine.bytesValue bytes]

def rep : Native := .plain do
  let s ← total (Machine.argBytes 0)
  let n := (← argInt 1).toInt
  if n < 0 then total (Machine.setResults [.nil])
  else
    match ← ranged (repeated s n.toNat) with
    | some bytes => total do Machine.setResults [← Machine.bytesValue bytes]
    | none => throw (.error (.type .stringTooLarge))

end Native

/-- Builtins not listed here need no operation that has a range. -/
def builtin : Builtin → Native
  | .tonumber => .tonumber
  | .rawget => .rawget
  | .unpack => .unpack
  | .setfenv => .setfenv
  | .abs => .abs
  | .modf => .modf
  | .sin => .sin
  | .sub => .sub
  | .rep => .rep
  | b => ⟨total b.native.start, fun memo result ↦ total (b.native.resume memo result)⟩

section

variable {s : State}

theorem ite_total {α : Type} {p : Prop} [Decidable p] {c c' : Program α} {m m' : Machine α}
    (h : p → c s = total m s) (h' : ¬ p → c' s = total m' s) :
    (if p then c else c') s = total (if p then m else m') s := by
  split
  · next hp => exact h hp
  · next hp => exact h' hp

/-- What follows a choice is shared by its branches. -/
theorem ite_bind_total {α β : Type} {p : Prop} [Decidable p] {c c' : Program α} {m m' : Machine α}
    {f : α → Program β} {g : α → Machine β} (h : p → c s = total m s)
    (h' : ¬ p → c' s = total m' s) (hf : ∀ a t, f a t = total (g a) t) :
    (if p then c >>= f else c' >>= f) s = total (if p then m >>= g else m' >>= g) s :=
  ite_total (fun hp ↦ bind_total (h hp) fun a t _ ↦ hf a t) fun hp ↦
    bind_total (h' hp) fun a t _ ↦ hf a t

theorem argNumber_eq (i : Nat) (s : State) :
    argNumber i s = total (Machine.argNumber? i) s := by
  refine get_bind_total (total_bind_total fun v t _ ↦ ?_)
  rw [number_eq]
  rfl

theorem argInt_eq (i : Nat) (s : State) : argInt i s = total (Machine.argInt i) s := by
  refine bind_total (argNumber_eq i s) fun n t _ ↦ ?_
  cases n.bind Value.int? <;> rfl

theorem argFloat_eq (i : Nat) (s : State) : argFloat i s = total (Machine.argFloat i) s := by
  refine bind_total (argNumber_eq i s) fun n t _ ↦ ?_
  cases n.bind Value.float? <;> rfl

theorem ranged_bind_total {α β : Type} {r : Option α} {a : α} (h : r = some a)
    {f : α → Program β} {m : Machine β} (hf : f a s = total m s) : (ranged r >>= f) s = total m s := by
  rw [ranged_bind h, hf]

theorem parsedNumber_eq {base : Nat} (h : 2 ≤ base ∧ base ≤ 36) (bytes : Bytes) :
    parsedNumber base bytes = some (Library.parsedNumber base bytes) := by
  unfold parsedNumber Library.parsedNumber
  split
  · rw [numeral_eq]
    cases Numeral.ofBytes? bytes <;> rfl
  · rw [radixInt_eq h]
    cases radixInt? base bytes <;> rfl

theorem listBound_eq (i : Nat) (default : Int) (s : State) :
    listBound i default s = total (Library.listBound i default) s :=
  total_bind_total fun _ t _ ↦ ite_total (fun _ ↦ rfl) fun _ ↦
    bind_total (argInt_eq i t) fun _ _ _ ↦ rfl

theorem environmentTarget_eq (s : State) :
    environmentTarget s = total Library.environmentTarget? s := by
  refine total_bind_total fun target t _ ↦ ?_
  cases target with
  | int | float | string => exact bind_total (argInt_eq 0 t) fun _ _ _ ↦ rfl
  | nil | bool | table | closure | native => rfl

theorem plain_start {name : String} {c : Program Unit} {body : Machine Unit}
    (h : c s = total body s) :
    (Native.plain c).start s = total (MiniLua.Native.plain name body).start s :=
  bind_total h fun _ _ _ ↦ rfl

theorem tonumber_eq (s : State) : Native.tonumber.start s = total Library.tonumber.start s := by
  refine plain_start (total_bind_total fun v t _ ↦
    ite_bind_total (fun _ ↦ rfl) (fun _ ↦ argInt_eq 1 t) fun base u ↦
      ite_total (fun _ ↦ total_bind_total fun _ _ _ ↦ rfl) fun hbase ↦
        total_bind_total fun v w _ ↦ get_bind_total ?_)
  cases v with
  | string s =>
    have hlow : (2 : Int64).toInt = 2 := rfl
    have hhigh : (36 : Int64).toInt = 36 := rfl
    rw [not_or, Int64.lt_iff_toInt_lt, Int64.lt_iff_toInt_lt, hlow, hhigh] at hbase
    exact ranged_bind_total (parsedNumber_eq (by omega) _) rfl
  | nil | bool | int | float | table | closure | native => rfl

theorem rawget_eq (s : State) : Native.rawget.start s = total Library.rawget.start s :=
  plain_start (get_bind_total (total_bind_total fun _ _ _ ↦ total_bind_total fun _ _ _ ↦
    ranged_bind_total (rawGet_eq _ _ _) rfl))

theorem mapM_entry_eq (t : Table) (keys : List Nat) (key : Nat → Key) :
    (keys.mapM fun i ↦ entry t (key i)) = some (keys.map fun i ↦ t.get (key i)) := by
  simp only [entry_eq]
  exact List.mapM_pure

theorem unpack_eq (s : State) : Native.unpack.start s = total Library.unpack.start s := by
  refine plain_start (total_bind_total fun list t _ ↦ get_bind_total ?_)
  cases list with
  | table t =>
    refine bind_total (listBound_eq _ _ _) fun first u _ ↦ bind_total (listBound_eq _ _ _) fun last v _ ↦
      ite_total (fun _ ↦ rfl) fun _ ↦ ite_total (fun _ ↦ rfl) fun _ ↦
        ranged_bind_total (mapM_entry_eq _ _ _) rfl
  | nil | bool | int | float | string | closure | native => rfl

theorem setfenv_eq (s : State) : Native.setfenv.start s = total Library.setfenv.start s :=
  plain_start (bind_total (environmentTarget_eq s) fun _ _ _ ↦ total_bind_total fun _ _ _ ↦ rfl)

theorem numberArg_eq (i : Nat) (s : State) : numberArg i s = total (Library.numberArg i) s := by
  refine total_bind_total fun v t _ ↦ ?_
  cases v with
  | int | float => rfl
  | nil | bool | string | table | closure | native =>
    exact bind_total (argFloat_eq i t) fun _ _ _ ↦ rfl

theorem abs_eq (s : State) : Native.abs.start s = total Library.abs.start s :=
  plain_start (bind_total (numberArg_eq 0 s) fun _ _ _ ↦ get_bind_total
    (ranged_bind_total (arith_eq _ _ _ _) rfl))

theorem modf_eq (s : State) : Native.modf.start s = total Library.modf.start s :=
  plain_start (bind_total (argFloat_eq 0 s) fun _ _ _ ↦ rfl)

theorem sin_eq (s : State) : Native.sin.start s = total Library.sin.start s :=
  plain_start (bind_total (argFloat_eq 0 s) fun _ _ _ ↦ rfl)

theorem rep_eq (s : State) : Native.rep.start s = total Library.rep.start s := by
  refine plain_start (total_bind_total fun bytes t _ ↦ bind_total (argInt_eq 1 t) fun n u _ ↦
    ite_total (fun _ ↦ rfl) fun _ ↦ ranged_bind_total (repeated_eq _ _) ?_)
  cases Library.repeated? bytes n.toInt.toNat <;> rfl

/-- Strings whose length has 63 bits. -/
def State.Short (s : State) : Prop := ∀ bytes ∈ s.heap.strings.strings, bytes.length < 2 ^ 63

theorem returns_wrongType {α : Type} (i : Nat) (wanted : String) :
    Returns (fun _ ↦ False) (Machine.wrongType i wanted : Machine α) := by
  refine .bind fun count ↦ ?_
  split
  · exact .bind fun _ ↦ .bind fun _ ↦ .throw _
  · exact .bind fun _ ↦ .bind fun _ ↦ .throw _

theorem length_argBytes (h : State.Short s) {i : Nat} {bytes : Bytes} {t : State}
    (hb : Machine.argBytes i s = .ok bytes t) : bytes.length < 2 ^ 63 := by
  obtain ⟨v, u, hv, hb⟩ := bind_eq_ok.mp hb
  obtain rfl : u = s := by
    obtain ⟨u', s', hget, hv⟩ := bind_eq_ok.mp hv
    cases hget
    cases hcall : s.native? with
    | none =>
      rw [hcall] at hv
      cases hv
      rfl
    | some call =>
      rw [hcall] at hv
      cases hv
      rfl
  cases v with
  | string n =>
    obtain ⟨u', s', hget, hb⟩ := bind_eq_ok.mp hb
    cases hget
    cases hb
    cases hbytes : t.heap.bytes? n with
    | none => exact Nat.two_pow_pos 63
    | some bytes => exact h bytes (Array.mem_of_getElem? hbytes)
  | int k =>
    cases hb
    exact (length_numberText_le (v := .int k) rfl).trans_lt (by decide)
  | float bits =>
    cases hb
    exact (length_numberText_le (v := .float bits) rfl).trans_lt (by decide)
  | nil | bool | table | closure | native => exact (returns_wrongType _ _ _ _ _ hb).elim

theorem sub_eq (h : State.Short s) : Native.sub.start s = total Library.sub.start s :=
  plain_start (total_bind_total fun _ t hb ↦ bind_total (argInt_eq 1 t) fun _ _ _ ↦
    total_bind_total fun _ w _ ↦
      ite_bind_total (fun _ ↦ rfl) (fun _ ↦ argInt_eq 2 w) fun _ _ ↦
        ranged_bind_total (substring_eq (length_argBytes h hb) _ _) rfl)

/-- A builtin never crashes. -/
theorem start_eq (h : State.Short s) (b : Builtin) :
    (builtin b).start s = total b.native.start s := by
  cases b with
  | tonumber => exact tonumber_eq s
  | rawget => exact rawget_eq s
  | unpack => exact unpack_eq s
  | setfenv => exact setfenv_eq s
  | abs => exact abs_eq s
  | modf => exact modf_eq s
  | sin => exact sin_eq s
  | sub => exact sub_eq h
  | rep => exact rep_eq s
  | assert | loadfile | select | collectgarbage | dofile | loadstring | load | tostring | next
  | print | max | min => rfl

theorem resume_eq (b : Builtin) (memo : Memo) (result : Except RuntimeError (List Value))
    (s : State) : (builtin b).resume memo result s = total (b.native.resume memo result) s := by
  cases b <;> rfl

end

end MiniLua.Checked
