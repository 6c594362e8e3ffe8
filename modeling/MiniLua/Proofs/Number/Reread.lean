import MiniLua.Library.Base
import MiniLua.Library.Registry
import MiniLua.Proofs.Calls.Outside
import MiniLua.Proofs.Number.Digits

/-!
Integers that are printed and read again: by the builtin that reads numbers, as operands of arithmetic, and
as the text of a program. All of them come back, but the smallest comes back from a program as a float.
-/

namespace MiniLua

open Effects Machine Numeral

variable {natives : Array Native} {s : State}

/-! ### The builtin -/

theorem parsedNumber_intText (i : Int64) :
    Library.parsedNumber 10 (Bytes.ofText (intText i)) = .int i := by
  rw [Library.parsedNumber, if_pos rfl, ofBytes?_of_denotes (denotes_intText i)]
  rfl

theorem tonumber_string {k : Nat} {bytes : Bytes} (hargs : s.arguments = [.string k])
    (hk : s.heap.bytes? k = some bytes) : Library.tonumber.start s =
      (do setResults [Library.parsedNumber 10 bytes]; return .finished : Machine Outcome) s := by
  have hbase : arg 1 s = .ok .nil s := by
    rw [arg_eq, hargs]
    rfl
  have hvalue : arg 0 s = .ok (.string k) s := by
    rw [arg_eq, hargs]
    rfl
  have hnil : Value.nil.isNil = true := rfl
  have hten : ¬ ((10 : Int64) < 2 ∨ (36 : Int64) < 10) := by decide
  refine Native.plain_start "tonumber" ?_
  rw [bind_of_ok hbase]
  simp only [if_pos hnil, pure_bind, if_neg hten]
  rw [bind_of_ok hvalue, bind_apply, get_apply]
  dsimp only
  rw [hk]
  rfl

/-! ### Operands -/

theorem number?_intText {h : Heap} {k : Nat} {i : Int64}
    (hk : h.bytes? k = some (Bytes.ofText (intText i))) : h.number? (.string k) = some (.int i) := by
  rw [Heap.number?, hk, Option.bind_some, ofBytes?_of_denotes (denotes_intText i)]
  rfl

theorem arith_intText {h : Heap} {k : Nat} {i : Int64} (hk : h.bytes? k = some (Bytes.ofText (intText i)))
    (op : Opcode) (v : Value) :
    Operators.arith h op (.string k) v = Operators.arith h op (.int i) v ∧
      Operators.arith h op v (.string k) = Operators.arith h op v (.int i) := by
  have hint : h.number? (.int i) = some (.int i) := rfl
  unfold Operators.arith
  rw [number?_intText hk, hint]
  cases h.number? v <;> exact ⟨rfl, rfl⟩

theorem negate_intText {h : Heap} {k : Nat} {i : Int64} (hk : h.bytes? k = some (Bytes.ofText (intText i))) :
    Operators.negate h (.string k) = Operators.negate h (.int i) := by
  have hint : h.number? (.int i) = some (.int i) := rfl
  rw [Operators.negate, Operators.negate, number?_intText hk, hint]

/-! ### Programs -/

/-- What a program that returns this integer returns. -/
def returned (i : Int64) : Value := if i = Int64.minValue then .float 0xC3E0000000000000 else .int i

theorem startsNumber_digits (n : Nat) : Lexer.startsNumber (digits n) := by
  obtain ⟨ds, hds, -⟩ := spells_digits n
  obtain ⟨b, more, hmore⟩ := List.exists_cons_of_ne_nil (digits_ne_nil n)
  have hb := hds.digits b (by simp [hmore])
  rw [hmore]
  exact Lexer.startsNumber_of_isDigit hb more

/-- A minus before a literal is no operation of the program. -/
theorem emit_negative {e : Expr} {v : Value} {pos : Position} (h : negatedLiteral? .neg e = some v) :
    (Expr.unary .neg e pos).emit (.exactly 1) = Emit.loadConst v := by
  rw [Expr.emit, h]

theorem parse_intText (i : Int64) : ∃ e start,
    parse (Lexer.returning (Bytes.ofText (intText i))) = .ok (.mk [.returnValues [e] start] start) ∧
      e.isMulti = false ∧ e.emit (.exactly 1) = Emit.loadConst (returned i) := by
  have hlow := i.le_toInt
  rw [ofText_intText]
  split
  · next hpos =>
    have hleast : i ≠ Int64.minValue := by
      rintro rfl
      exact absurd hpos (by decide)
    have hliteral : literal? (digits i.toInt.toNat) = some (.int i) :=
      literal?_digits (decimal_digits (Int.toNat_of_nonneg hpos))
    obtain ⟨start, pos, hparse⟩ := parse_number (startsNumber_digits _) hliteral
    refine ⟨_, _, hparse, rfl, ?_⟩
    rw [returned, if_neg hleast, Numeral.toExpr, Expr.emit]
  · next hneg =>
    by_cases hleast : i = Int64.minValue
    · subst hleast
      obtain ⟨x, hliteral, hx⟩ := literal?_digits_least
      obtain ⟨start, pos, pos', hparse⟩ := parse_negative (startsNumber_digits _) hliteral
      refine ⟨_, _, hparse, rfl, ?_⟩
      rw [returned, if_pos rfl]
      exact emit_negative (congrArg (fun bits ↦ some (Value.float bits)) hx)
    · have hlow' : i.toInt ≠ -2 ^ 63 := fun heq ↦ hleast (Int64.toInt_inj.mp heq)
      have hopposite : (Int64.ofInt (-i.toInt)).toInt = -i.toInt :=
        Int64.toInt_ofInt_of_le (by omega) (by omega)
      have hsigned : signed false (-i.toInt).toNat = (Int64.ofInt (-i.toInt)).toInt := by
        rw [hopposite]
        exact Int.toNat_of_nonneg (by omega)
      have hliteral := literal?_digits (decimal_digits hsigned)
      obtain ⟨start, pos, pos', hparse⟩ := parse_negative (startsNumber_digits _) hliteral
      refine ⟨_, _, hparse, rfl, ?_⟩
      rw [returned, if_neg hleast]
      refine emit_negative ?_
      rw [Numeral.toExpr, negatedLiteral?, hopposite, Int.neg_neg, int64?_eq_some.mpr rfl]
      rfl

/-- A chunk that compiles is loaded as a closure of what it compiles to. -/
theorem loadBytes_of_compile {source : Bytes} {chunkName : String} {main : Nat} {heap : Heap}
    (hsource : binaryBody? source = none) (hcompiles : s.compiles)
    (hcompile : compile source chunkName s.heap = .ok main heap) :
    ∃ t : State, Loading.loadBytes source chunkName s = .ok (.closure heap.closures.size) t ∧
      t.heap = (heap.allocClosure ⟨main, s.globals, #[]⟩).2 ∧ t.stack = s.stack ∧
      t.activations = s.activations ∧ t.options = s.options := by
  have hdecode (host : Host) : Loading.decode source chunkName { s with host } =
      .ok main { s with host, heap } := by
    rw [Loading.decode, hsource]
    dsimp only
    rw [if_pos hcompiles, hcompile]
  have hload (host : Host) :
      (do Loading.decode (← Loading.drain ⟨.memory, source, none, none⟩ chunkName) chunkName :
        Loading.Loader Nat) { s with host } =
        .ok main { s with host := (host.read ⟨.memory, source, none, none⟩).2.2, heap } :=
    (bind_of_ok rfl).trans (hdecode _)
  have hnote : Loading.note (.opened .memory) s =
      .ok () { s with host := s.host.note (.opened .memory) } := rfl
  rw [Loading.loadBytes, bind_of_ok hnote, Loading.loadStream, hload]
  exact ⟨_, rfl, rfl, rfl, rfl, rfl⟩

theorem callValue_intText (i : Int64) (hcompiles : s.compiles) (hs : s.Ready 1) (chunkName : String) :
    ∃ closure t, Loading.loadBytes (Lexer.returning (Bytes.ofText (intText i))) chunkName s = .ok closure t ∧
      ∀ fuel, ∃ u, callValue natives (fuel + 4) closure [] t = .halted (.ok [returned i]) u := by
  obtain ⟨e, start, hparse, hmulti, hemit⟩ := parse_intText i
  have hcompile := compile_return hparse hmulti hemit chunkName s.heap
  obtain ⟨t, hload, hheap, hstack, hcalls, hoptions⟩ := loadBytes_of_compile rfl hcompiles hcompile
  have ht : t.Ready 1 := by
    refine ⟨hcalls.trans hs.idle, ?_, ?_⟩
    · rw [hoptions]
      exact hs.depth
    · rw [hoptions, hstack]
      exact hs.room
  have hproto : t.proto? s.heap.closures.size = some (constantFunction (returned i) start.codeLine) := by
    simp [State.proto?, hheap, Heap.allocClosure, Heap.allocProto]
  exact ⟨_, t, hload, callValue_constant ht hproto⟩

/-- The text of an integer, in a string, is read as the integer by the builtin that reads numbers, and
arithmetic makes no difference between the string and the integer. A program that returns the text
compiles, and returns the integer; of the smallest integer, whose digits are no integer, it returns the
float. -/
theorem integers_reread (natives : Array Native) (s : State) (i : Int64) :
    (∀ k, s.heap.bytes? k = some (s.heap.toStringBytes (.int i)) →
      (∀ native, natives[native]? = some Library.tonumber → s.Ready 2 → ∀ fuel,
        ∃ t, callValue natives (fuel + 2) (.native native) [.string k] s = .halted (.ok [.int i]) t) ∧
      s.heap.number? (.string k) = some (.int i) ∧
      (∀ op v, Operators.arith s.heap op (.string k) v = Operators.arith s.heap op (.int i) v ∧
        Operators.arith s.heap op v (.string k) = Operators.arith s.heap op v (.int i)) ∧
      Operators.negate s.heap (.string k) = Operators.negate s.heap (.int i)) ∧
    (s.compiles → s.Ready 1 → ∀ chunkName, ∃ closure t,
      Loading.loadBytes (Bytes.ofText "return " ++ s.heap.toStringBytes (.int i)) chunkName s =
          .ok closure t ∧
        ∀ fuel, ∃ u, callValue natives (fuel + 4) closure [] t = .halted
          (.ok [if i = Int64.minValue then .float 0xC3E0000000000000 else .int i]) u) := by
  refine ⟨fun k hk ↦ ⟨fun native hnative hs fuel ↦ ?_, number?_intText hk, arith_intText hk,
    negate_intText hk⟩, fun hcompiles hs chunkName ↦ callValue_intText i hcompiles hs chunkName⟩
  have hcall : s.Ready ([Value.string k].length + 1) := hs
  refine callValue_native hcall hnative (fun t hargs hheap ↦ ?_) fuel
  rw [tonumber_string hargs (hheap ▸ hk), Heap.toStringBytes, parsedNumber_intText]

/-- A machine at rest that knows the text of the smallest integer. -/
def leastState : State :=
  { State.start {} .empty true with
    heap := (Heap.empty.intern (Bytes.ofText "-9223372036854775808")).2 }

theorem integers_reread_least : ∃ closure t u v,
    callValue (Builtin.all.map Builtin.native).toArray 2 (.native 2) [.string 0] leastState =
        .halted (.ok [.int Int64.minValue]) u ∧
      Operators.negate leastState.heap (.string 0) = .ok (.float 0x43E0000000000000) ∧
      Loading.loadBytes (Bytes.ofText "return -9223372036854775808") "=least" leastState = .ok closure t ∧
      callValue (Builtin.all.map Builtin.native).toArray 4 closure [] t =
        .halted (.ok [.float 0xC3E0000000000000]) v := by
  have hready : leastState.Ready 2 := ⟨rfl, by decide, by decide⟩
  obtain ⟨hstring, hsource⟩ :=
    integers_reread (Builtin.all.map Builtin.native).toArray leastState Int64.minValue
  obtain ⟨htonumber, -, -, hnegate⟩ := hstring 0 (by decide +kernel)
  obtain ⟨u, hu⟩ := htonumber 2 rfl hready 0
  obtain ⟨closure, t, hload, hrun⟩ := hsource rfl ⟨rfl, by decide, by decide⟩ "=least"
  obtain ⟨v, hv⟩ := hrun 0
  have hopposite : Value.ofFloat (-floatOfInt Int64.minValue) = .float 0x43E0000000000000 := by
    decide +kernel
  exact ⟨closure, t, u, v, hu, hnegate.trans (congrArg Except.ok hopposite), hload, hv⟩

/-- The smallest integer is not what a program with its text returns. -/
theorem least_not_reread : ∃ closure t u v,
    Loading.loadBytes (Bytes.ofText "return " ++ Heap.empty.toStringBytes (.int Int64.minValue)) "=least"
        (State.start {} .empty true) = .ok closure t ∧
      callValue #[] 4 closure [] t = .halted (.ok [v]) u ∧ v ≠ .int Int64.minValue := by
  obtain ⟨closure, t, hload, hrun⟩ := @callValue_intText #[] (State.start {} .empty true)
    Int64.minValue rfl ⟨rfl, by decide, by decide⟩ "=least"
  obtain ⟨u, hu⟩ := hrun 0
  exact ⟨closure, t, u, _, hload, hu, by decide⟩

end MiniLua
