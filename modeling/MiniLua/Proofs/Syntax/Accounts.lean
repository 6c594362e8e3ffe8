import MiniLua.Proofs.Syntax.Precedence
import MiniLua.Proofs.Syntax.Reads

/-! The parsers of a level take what their trees are written as, and nothing else. -/

namespace MiniLua

namespace Parser

variable {β : Type}

namespace Levels

/-- What the parsers below take is what their trees are written as, one level further down. -/
structure Accounts (below : Levels) : Prop where
  operand (power : Nat) (next : Token → Prop) : Reads below.bound next (below.operand power)
    fun e r t ↦ (∃ left, below.left = left + 1 ∧ e.Written False left r) ∧ e.Above power ∧
      Stops power t
  block (next : Token → Prop) : Reads below.bound next below.block
    fun b r _ ↦ ∃ left, below.left = left + 1 ∧ b.Written False left r

variable (below : Levels) {next : Token → Prop}

theorem allow_reads {n extra : Nat} {f : Unit → Parser β} {S : β → List Token → Token → Prop}
    (hf : extra ≤ below.left → Reads n next (f ()) S) :
    Reads n next (below.allow extra >>= f) S := by
  intro ts hts hn hnext b ts'' h
  obtain ⟨_, ts', ha, hb⟩ := bind_eq_ok.mp h
  unfold Levels.allow at ha
  split at ha
  · obtain ⟨_, _, _, ha⟩ := bind_eq_ok.mp ha
    cases ha
  · cases ha
    exact hf (by omega) ts hts hn hnext b ts'' hb

theorem names_reads : Reads below.bound next below.names fun ns r _ ↦ NamesWritten ns r := by
  refine Reads.name.bind fun n r t hr ↦ ?_
  have hone : NamesWritten [n].reverse r := by
    subst hr
    exact .one n
  exact .mono (.weaken (Reads.commaList (E := fun _ ↦ True) (W := fun n r ↦ r = [.name n])
    (fun _ ↦ Reads.name.mono fun _ _ _ h ↦ ⟨h, trivial⟩) (fun ns n ts ts' h h' ↦ h' ▸ h.snoc n)
    (Nat.le_refl _) hone) fun _ _ ↦ trivial) fun _ _ _ h ↦ h.1

variable {below}

/-- Names found so far, with a comma after each. -/
def ParamsBefore (names : List String) (pre : List Token) : Prop :=
  names = [] ∧ pre = [] ∨ ∃ ts, NamesWritten names ts ∧ pre = ts ++ [.symbol .comma]

theorem ParamsBefore.written {names : List String} {pre : List Token}
    (h : ParamsBefore names pre) (name : String) :
    NamesWritten (names ++ [name]) (pre ++ [.name name]) := by
  rcases h with ⟨rfl, rfl⟩ | ⟨ts, hnames, rfl⟩
  · exact .one name
  · simpa using hnames.snoc name

theorem ParamsBefore.variadic {names : List String} {pre : List Token}
    (h : ParamsBefore names pre) : ParamsWritten names true (pre ++ [.symbol .ellipsis]) := by
  rcases h with ⟨rfl, rfl⟩ | ⟨ts, hnames, rfl⟩
  · exact .variadic
  · simpa using ParamsWritten.namedVariadic hnames

theorem params_reads (implicit names : List String) {n : Nat} {found : List String}
    {pre : List Token} (hfound : found.reverse = implicit ++ names)
    (hpre : ParamsBefore names pre) :
    Reads n next (params n found) fun q r _ ↦
      ∃ ps, q.1 = implicit ++ ps ∧ ParamsWritten ps q.2 (pre ++ r) := by
  induction n generalizing next names found pre with
  | zero =>
    intro ts hts hn
    cases hts <;> simp at hn
  | succ n ih =>
    unfold Levels.params
    refine .eat (.pure fun t _ ↦ ⟨names, by simpa using hfound, hpre.variadic⟩) ?_
    rw [if_neg Bool.false_ne_true]
    refine .name_bind fun param ↦ ?_
    have hmore : (param :: found).reverse = implicit ++ (names ++ [param]) := by
      simp [hfound]
    refine .eat_lt ?_ ?_
    · refine (ih _ hmore (.inr ⟨_, hpre.written param, rfl⟩)).mono fun q r t h ↦ ?_
      simpa using h
    · exact .pure fun t _ ↦ ⟨_, hmore, .named (hpre.written param)⟩

theorem path_reads {n : Nat} (found : List String) (hn : n ≤ below.bound) :
    Reads n next (path n found) fun fields r _ ↦ ∃ more, fields = found.reverse ++ more ∧
      r = more.flatMap fun field ↦ [.symbol .dot, .name field] := by
  induction n generalizing next found with
  | zero =>
    intro ts hts hn
    cases hts <;> simp at hn
  | succ n ih =>
    unfold path
    refine .eat_lt (.name_bind fun field ↦ ?_) (.pure fun _ _ ↦ ⟨[], by simp, rfl⟩)
    refine (ih (field :: found) (by omega)).mono ?_
    rintro fields r - ⟨more, rfl, rfl⟩
    exact ⟨field :: more, by simp, by simp⟩

variable (hb : below.Accounts)

include hb

theorem Accounts.expr : Reads below.bound next below.expr
    fun e r _ ↦ ∃ left, below.left = left + 1 ∧ e.Written False left r :=
  (hb.operand 0 next).mono fun _ _ _ h ↦ h.1

theorem Accounts.expr_at {left : Nat} (hl : below.left = left + 1) :
    Reads below.bound next below.expr fun e r _ ↦ e.Written False left r := by
  refine hb.expr.mono ?_
  rintro e r - ⟨left', hl', h⟩
  obtain rfl : left' = left := by omega
  exact h

theorem Accounts.block_at {left : Nat} (hl : below.left = left + 1) :
    Reads below.bound next below.block fun b r _ ↦ b.Written False left r := by
  refine (hb.block next).mono ?_
  rintro e r - ⟨left', hl', h⟩
  obtain rfl : left' = left := by omega
  exact h

theorem Accounts.exprs : Reads below.bound next below.exprs
    fun es r _ ↦ ∃ left, below.left = left + 1 ∧ ExprsWritten False left es r := by
  refine hb.expr.bind ?_
  rintro e r t ⟨left, hl, he⟩
  have hone : ExprsWritten False left [e].reverse r := .one he
  refine .mono (.weaken (Reads.commaList (E := fun _ ↦ True) (W := Expr.Written False left)
    (fun _ ↦ (hb.expr_at hl).mono fun _ _ _ h ↦ ⟨h, trivial⟩) (fun es e ts ts' h h' ↦ h.snoc h')
    (Nat.le_refl _) hone) fun _ _ ↦ trivial) fun es r' _ h ↦ ⟨left, hl, h.1⟩

theorem Accounts.functionBody (implicit : List String) (pos : Position) :
    Reads below.bound next (below.functionBody implicit pos)
      fun b r _ ↦ b.Written False implicit below.left r := by
  unfold Levels.functionBody
  refine .expect (.sees fun closed ↦ ?_)
  refine .ite_bind (R := fun q r _ ↦ ∃ ps, q.1 = implicit ++ ps ∧ ParamsWritten ps q.2 r)
    (.pure fun _ _ ↦ ⟨[], by simp, .none⟩)
    ((params_reads implicit [] (by simp) (.inl ⟨rfl, rfl⟩)).mono fun _ _ _ h ↦ h) ?_
  rintro q r t ⟨ps, hq, hps⟩
  refine .expect ((hb.block _).bind ?_)
  rintro body r' t' ⟨left, hl, hbody⟩
  refine .close (.pure fun _ _ ↦ ?_)
  rw [hl, hq]
  simpa using FunctionBody.Written.mk implicit pos hps hbody

theorem Accounts.field : Reads below.bound next below.field
    fun f r _ ↦ f.Written False below.left r := by
  intro ts hts hn hnext f ts' hf
  unfold Levels.field at hf
  obtain ⟨_, _, hget, h⟩ := bind_eq_ok.mp hf
  cases hget
  split at h
  · refine Reads.skip (t := .symbol .lbracket) (S := fun f r _ ↦ f.Written False below.left r) rfl
      (hb.expr.bind ?_) _ hts hn rfl f ts' h
    rintro key ks t ⟨left, hl, hkey⟩
    refine .expect (.expect ((hb.expr_at hl).bind fun value vs t hvalue ↦ .pure fun _ _ ↦ ?_))
    rw [hl]
    simpa using Field.Written.entry hkey hvalue
  · rename_i name pos pos' rest
    rw [Reads.skip_skip (by simp) (by simp)] at h
    have hvalue : Reads below.bound (fun _ ↦ True)
        (below.expr >>= fun value ↦ pure (Field.entry (.string (Bytes.ofText name) pos) value))
        fun f r _ ↦ f.Written False below.left (.name name :: .symbol .assign :: r) := by
      refine hb.expr.bind ?_
      rintro value vs t ⟨left, hl, hvalue⟩
      refine .pure fun _ _ ↦ ?_
      rw [hl]
      simpa using Field.Written.named name pos hvalue
    cases hts with | cons _ hts =>
    cases hts with | cons _ hts =>
    simp only [List.length_cons] at hn
    obtain ⟨used, rfl, hts', hf⟩ := hvalue rest hts (by omega) trivial f ts' h
    exact ⟨_ :: _ :: used, rfl, hts', hf⟩
  · refine Reads.bind (S := fun f r _ ↦ f.Written False below.left r) hb.expr ?_ _ hts hn hnext f ts' h
    rintro value vs t ⟨left, hl, hvalue⟩
    refine .pure fun _ _ ↦ ?_
    rw [hl]
    simpa using Field.Written.item hvalue

theorem Accounts.fields {n : Nat} (hn : n ≤ below.bound) {found : List Field} {pre : List Token}
    (hfound : FieldsWritten False below.left found.reverse pre)
    (hopen : ∀ fields ts, FieldsWritten False below.left fields ts →
      FieldsWritten False below.left (found.reverse ++ fields) (pre ++ ts)) :
    Reads n next (below.fields n found)
      fun fs r _ ↦ FieldsWritten False below.left fs (pre ++ r) := by
  induction n generalizing next found pre with
  | zero =>
    intro ts hts hn
    cases hts <;> simp at hn
  | succ n ih =>
    unfold Levels.fields
    refine .sees fun closed ↦ .ite (.pure fun _ _ ↦ by simpa using hfound) ?_
    refine (hb.field.of_le hn).bind fun field fs t hfield ↦ ?_
    have hlast : FieldsWritten False below.left (field :: found).reverse (pre ++ fs) := by
      simpa using hopen _ _ (.last hfield)
    have hmore (mark : Symbol) (hmark : mark = .comma ∨ mark = .semicolon) :
        Reads n (fun _ ↦ True) (below.fields n (field :: found))
          fun all r _ ↦ FieldsWritten False below.left all (pre ++ (fs ++ .symbol mark :: r)) := by
      have hnext : ∀ fields ts, FieldsWritten False below.left fields ts →
          FieldsWritten False below.left ((field :: found).reverse ++ fields)
            ((pre ++ fs ++ [.symbol mark]) ++ ts) := fun fields ts h ↦ by
        simpa using hopen _ _ (.cons mark hmark hfield h)
      refine (ih (by omega) ?_ hnext).mono fun all r t h ↦ by simpa using h
      simpa using hnext [] [] (.none _)
    refine .eat_lt (hmore .comma (.inl rfl)) ?_
    rw [if_neg Bool.false_ne_true]
    exact .eat_lt (hmore .semicolon (.inr rfl)) (.pure fun _ _ ↦ by simpa using hlast)

theorem Accounts.table : Reads below.bound next below.table
    fun e r _ ↦ e.Written False below.left r ∧ ∃ fields pos, e = .table fields pos := by
  refine .here fun pos ↦ .expect ?_
  refine (hb.fields (Nat.le_refl _) (.none _) fun _ _ h ↦ by simpa using h).bind
    fun fields fs t h ↦ ?_
  exact .close (.pure fun _ _ ↦ ⟨by simpa using Expr.Written.table pos h, fields, pos, rfl⟩)

theorem Accounts.callArgs : Reads below.bound next below.callArgs
    fun es r _ ↦ ArgsWritten False below.left es r := by
  unfold Levels.callArgs
  refine .peek fun l _ ↦ ?_
  dsimp only
  split
  · rename_i value heq
    exact .skip heq (.pure fun _ _ ↦ .string _ value _)
  · refine hb.table.bind ?_
    rintro e r t ⟨h, fields, pos, rfl⟩
    exact .pure fun _ _ ↦ by simpa using .table pos h
  · rename_i heq
    refine .skip heq (.sees fun closed ↦ .ite_bind
      (R := fun es r _ ↦ ArgsWritten False below.left es (.symbol .lparen :: r ++ [.symbol .rparen]))
      (.pure fun _ _ ↦ .none _) ?_ fun args r t h ↦ .close (.pure fun _ _ ↦ by simpa using h))
    refine hb.exprs.mono ?_
    rintro es r - ⟨left, hl, h⟩
    rw [hl]
    exact .some h
  · exact .unexpected _

theorem Accounts.primary : Reads below.bound next below.primary
    fun e r _ ↦ e.Written False below.left r ∧ e.isPrefix ∧ e.links = 0 := by
  unfold Levels.primary
  refine .peek fun l _ ↦ ?_
  dsimp only
  split
  · rename_i name heq
    exact .skip heq (.pure fun _ _ ↦ ⟨.name _ name _, rfl, rfl⟩)
  · rename_i heq
    refine .skip heq (hb.expr.bind ?_)
    rintro inner r t ⟨left, hl, h⟩
    refine .close (.pure fun _ _ ↦ ⟨?_, rfl, rfl⟩)
    rw [hl]
    simpa using Expr.Written.paren _ h
  · exact .unexpected _

/-- The room for a suffix is known only when the next is looked for. -/
theorem Accounts.suffixes {n k : Nat} (hk : k ≤ n) (hn : k ≤ below.bound) {object : Expr}
    {pre : List Token} (hhead : object.isPrefix)
    (hobject : object.links ≤ below.left → object.Written False below.left pre) :
    Reads k next (below.suffixes n object.links object)
      fun e r _ ↦ e.Written False below.left (pre ++ r) ∧ e.isPrefix := by
  induction n generalizing next k object pre with
  | zero =>
    intro ts hts hn
    cases hts <;> simp at hn <;> omega
  | succ n ih =>
    rcases k with _ | k
    · intro ts hts hn
      cases hts <;> simp at hn
    unfold Levels.suffixes
    refine allow_reads below fun hlinks ↦ .peek fun l _ ↦ ?_
    have hobject := hobject hlinks
    have hmore {next : Token → Prop} {longer : Expr} {pre' : List Token}
        (h : object.links < below.left → longer.Written False below.left pre')
        (hp : longer.isPrefix) (hl : longer.links = object.links + 1) :
        Reads k next (below.suffixes n (object.links + 1) longer)
          fun e r _ ↦ e.Written False below.left (pre' ++ r) ∧ e.isPrefix := by
      rw [← hl]
      exact ih (by omega) (by omega) hp fun hlonger ↦ h (by omega)
    have hcall (pos : Position) : Reads (k + 1) (· = l.token) (do
        let args ← below.callArgs
        below.suffixes n (object.links + 1) (.call object args pos))
        fun e r _ ↦ e.Written False below.left (pre ++ r) ∧ e.isPrefix := by
      refine (hb.callArgs.of_le hn).bind_lt (fun _ _ _ h ↦ h.ne_nil) fun args as t hargs ↦ ?_
      have hlonger (h : object.links < below.left) := Expr.Written.call pos hhead h hobject hargs
      exact (hmore hlonger rfl rfl).mono fun e r t h ↦ by simpa using h
    dsimp only
    split
    · rename_i heq
      refine .skip_lt heq (.here fun keyPos ↦ .name_bind fun key ↦ ?_)
      have hlonger (h : object.links < below.left) :=
        Expr.Written.member key keyPos l.pos hhead h hobject
      exact (hmore hlonger rfl rfl).mono fun e r t h ↦ by simpa using h
    · rename_i heq
      refine .skip_lt heq ((hb.expr.of_le (by omega)).bind ?_)
      rintro key ks t ⟨left, hl, hkey⟩
      refine .expect ?_
      have hlonger (h : object.links < below.left) : (Expr.index object key l.pos).Written False
          below.left (pre ++ .symbol .lbracket :: ks ++ [.symbol .rbracket]) := by
        rw [hl] at h hobject ⊢
        exact .index l.pos hhead h hobject hkey
      exact (hmore hlonger rfl rfl).mono fun e r t h ↦ by simpa using h
    · rename_i heq
      refine .skip_lt heq (.name_bind fun method ↦ (hb.callArgs.of_le (by omega)).bind
        fun args as t hargs ↦ ?_)
      have hlonger (h : object.links < below.left) :=
        Expr.Written.method method l.pos hhead h hobject hargs
      exact (hmore hlonger rfl rfl).mono fun e r t h ↦ by simpa using h
    · exact hcall _
    · exact hcall _
    · exact hcall _
    · exact .pure fun _ _ ↦ ⟨by simpa using hobject, hhead⟩

theorem Accounts.suffixed : Reads below.bound next below.suffixed
    fun e r _ ↦ e.Written False below.left r ∧ e.isPrefix := by
  refine hb.primary.bind ?_
  rintro e r t ⟨h, hhead, hlinks⟩
  have hs : Reads below.bound (· = t) (below.suffixes (below.bound + 1) e.links e) _ :=
    hb.suffixes (Nat.le_succ _) (Nat.le_refl _) hhead fun _ ↦ h
  rwa [hlinks] at hs

theorem Accounts.simple : Reads below.bound next below.simple
    fun e r _ ↦ e.Written False below.left r ∧ e.isSimple := by
  unfold Levels.simple
  refine .peek fun l _ ↦ ?_
  dsimp only
  split
  · exact .skip ‹_› (.pure fun _ _ ↦ ⟨.nil _ _, rfl⟩)
  · exact .skip ‹_› (.pure fun _ _ ↦ ⟨.true _ _, rfl⟩)
  · exact .skip ‹_› (.pure fun _ _ ↦ ⟨.false _ _, rfl⟩)
  · refine .skip ‹_› ?_
    split
    · exact .pure fun _ _ ↦ ⟨.int _ _ ‹_›, rfl⟩
    · exact .pure fun _ _ ↦ ⟨.float _ _ ‹_›, rfl⟩
    · exact .failAt _ _
  · exact .skip ‹_› (.pure fun _ _ ↦ ⟨.string _ _ _, rfl⟩)
  · exact .skip ‹_› (.pure fun _ _ ↦ ⟨.varargs _ _, rfl⟩)
  · exact .skip ‹_› ((hb.functionBody [] _).bind fun body r t h ↦ .pure fun _ _ ↦
      ⟨by simpa using Expr.Written.function h, rfl⟩)
  · refine hb.table.mono ?_
    rintro e r - ⟨h, fields, pos, rfl⟩
    exact ⟨h, rfl⟩
  · exact hb.suffixed.mono fun e r _ h ↦ ⟨h.1, Expr.isSimple_of_isPrefix h.2⟩

/-- `pre` is what the operators so far and their operands are written as. -/
theorem Accounts.infixes (power : Nat) {n : Nat} (hn : n ≤ below.bound) {lhs : Expr}
    {pre : List Token} (hlhs : lhs.Written False below.left pre) (habove : lhs.Above power) :
    Reads n (fun t ↦ ∀ op, t = BinaryOp.token op → lhs.LeftOf op)
      (below.infixes power n lhs.chain lhs)
      fun e r t ↦ e.Written False below.left (pre ++ r) ∧ e.Above power ∧ Stops power t := by
  induction n generalizing lhs pre with
  | zero =>
    intro ts hts hn
    cases hts <;> simp at hn
  | succ n ih =>
    unfold Levels.infixes
    refine .peek fun l hleft ↦ ?_
    dsimp only
    split
    · rename_i op left right hop
      obtain ⟨htoken, rfl, rfl⟩ := of_binaryOp? hop
      split
      · rename_i hless
        refine .pure fun t ht ↦ ⟨by simpa using hlhs, habove, fun op' hop' ↦ ?_⟩
        obtain rfl : op' = op := token_injective (hop'.symm.trans (ht.trans htoken))
        exact hless
      · rename_i hmore
        refine allow_reads below fun hchain ↦ .skip_lt htoken (((hb.operand _ _).of_le (by omega)).bind ?_)
        rintro rhs rs t ⟨⟨left, hl, hrhs⟩, hright, hstops⟩
        have hbinary : (Expr.binary op lhs rhs l.pos).Written False below.left
            (pre ++ op.token :: rs) := by
          rw [hl] at hchain hlhs ⊢
          exact .binary op l.pos hchain (hleft op htoken) (rightOf_iff.mpr hright) hlhs hrhs
        refine .mono (.weaken (ih (by omega) hbinary (Nat.le_of_not_lt hmore)) ?_) fun e r t h ↦ by
          simpa using h
        rintro t' rfl op' hop'
        exact leftOf_binary.mpr (hstops op' hop')
    · rename_i hnone
      refine .pure fun t ht ↦ ⟨by simpa using hlhs, habove, fun op hop ↦ ?_⟩
      subst ht
      rw [hop, binaryOp?_token] at hnone
      cases hnone

theorem Accounts.operandBody (power : Nat) : Reads below.bound next (below.operandBody power)
    fun e r t ↦ e.Written False below.left r ∧ e.Above power ∧ Stops power t := by
  unfold Levels.operandBody
  refine .peek fun l _ ↦ ?_
  dsimp only
  split
  · rename_i op hop
    simp only [pure_bind]
    refine .skip (of_unaryOp? hop) ((hb.operand unaryPower _).bind ?_)
    rintro operand r t ⟨⟨left, hl, h⟩, habove, hstops⟩
    have hunary : (Expr.unary op operand l.pos).Written False below.left (op.token :: r) := by
      rw [hl]
      exact .unary op l.pos (underUnary_iff.mpr habove) h
    refine .mono (.weaken (hb.infixes power (Nat.le_refl _) hunary trivial) ?_) fun e r' t' h ↦ by
      simpa using h
    rintro t' rfl op' hop'
    exact leftOf_unary.mpr (hstops op' hop')
  · refine hb.simple.bind fun e r t h ↦ ?_
    have hinfixes := hb.infixes power (Nat.le_refl _) h.1 (Expr.above_of_isSimple h.2 power)
    rw [Expr.chain_of_isSimple h.2] at hinfixes
    exact hinfixes.weaken fun _ _ op _ ↦ Expr.leftOf_of_isSimple h.2 op

theorem Accounts.returnStmt : Reads below.bound next below.returnStmt
    fun s r _ ↦ StmtsWritten False below.left [s] r := by
  unfold Levels.returnStmt
  refine .here fun pos ↦ .expect (.blockEnds fun ends ↦ .sees fun semicolon ↦
    .ite_bind (R := fun es r _ ↦ ReturnedWritten False below.left es r)
      (.pure fun _ _ ↦ .none _) ?_ fun values vs t hvalues ↦ ?_)
  · refine hb.exprs.mono ?_
    rintro es r - ⟨left, hl, h⟩
    rw [hl]
    exact .some h
  · refine .eat (.blockEnds fun _ ↦ .unless_bind (.pure fun _ _ ↦ ?_))
      (.blockEnds fun _ ↦ .unless_bind (.pure fun _ _ ↦ ?_))
    · simpa using StmtsWritten.returns [.symbol .semicolon] pos hvalues (.inl rfl)
    · simpa using StmtsWritten.returns [] pos hvalues (.inr ⟨not_false, rfl⟩)

theorem Accounts.guarded {left : Nat} (hl : below.left = left + 1) :
    Reads below.bound next below.guarded fun b r _ ↦ b.Written False left r :=
  (hb.expr_at hl).bind fun cond cs t hcond ↦ .expect ((hb.block_at hl).bind fun body bs t hbody ↦
    .pure fun _ _ ↦ by simpa using Branch.Written.mk hcond hbody)

theorem Accounts.loopBody (pos : Position) : Reads below.bound next (below.loopBody pos)
    fun b r _ ↦ ∃ left ts, below.left = left + 1 ∧ b.Written False left ts ∧
      r = .keyword .kwDo :: ts ++ [.keyword .kwEnd] := by
  refine .expect ((hb.block _).bind ?_)
  rintro body bs t ⟨left, hl, hbody⟩
  exact .close (.pure fun _ _ ↦ ⟨left, bs, hl, hbody, by simp⟩)

theorem Accounts.branches {left : Nat} (hl : below.left = left + 1) (pos : Position) {n k : Nat}
    (hk : k ≤ n) (hn : k ≤ below.bound) {first : Branch} {found rest : List Branch}
    (hfound : found.reverse = first :: rest) {pre : List Token}
    (hpre : BranchesWritten False left first rest pre) :
    Reads k next (below.branches pos n found) fun s r _ ↦
      s.Written False below.left (.keyword .kwIf :: pre ++ r) := by
  induction n generalizing next k found rest pre with
  | zero =>
    intro ts hts hn
    cases hts <;> simp at hn <;> omega
  | succ n ih =>
    rcases k with _ | k
    · intro ts hts hn
      cases hts <;> simp at hn
    unfold Levels.branches
    refine .eat_lt (((hb.guarded hl).of_le (by omega)).bind fun branch bs t hbranch ↦ ?_) ?_
    · have hmore : (branch :: found).reverse = first :: (rest ++ [branch]) := by simp [hfound]
      exact (ih (by omega) (by omega) hmore (hpre.snoc hbranch)).mono fun s r _ h ↦ by
        simpa using h
    · rw [if_neg Bool.false_ne_true]
      have hrest (otherwise : Option Block) (os : List Token)
          (h : OtherwiseWritten False left otherwise os) (E : Token → Prop) :
          Reads (k + 1) E (do
            close (.keyword .kwEnd) (.keyword .kwIf) pos
            return Stmt.branch found.reverse otherwise pos)
            fun s r _ ↦ s.Written False below.left (.keyword .kwIf :: pre ++ (os ++ r)) := by
        refine .close (.pure fun _ _ ↦ ?_)
        rw [hl, hfound]
        simpa using Stmt.Written.branch pos hpre h
      refine .eat ?_ (hrest none [] (.none left) _)
      rw [if_pos rfl]
      refine .bind (R := fun o r _ ↦ OtherwiseWritten False left o (.keyword .kwElse :: r))
        (.map (((hb.block_at hl).of_le hn).mono fun b r _ h ↦ .some h)) fun o os t h ↦ ?_
      exact hrest o _ h _

theorem Accounts.branchStmt : Reads below.bound next below.branchStmt
    fun s r _ ↦ s.Written False below.left r := by
  refine .here fun pos ↦ .expect ?_
  have hfirst : Reads below.bound (fun _ ↦ True) below.guarded
      fun b r _ ↦ ∃ left, below.left = left + 1 ∧ b.Written False left r := by
    refine hb.expr.bind ?_
    rintro cond cs t ⟨left, hl, hcond⟩
    exact .expect ((hb.block_at hl).bind fun body bs t hbody ↦
      .pure fun _ _ ↦ ⟨left, hl, by simpa using Branch.Written.mk hcond hbody⟩)
  refine hfirst.bind ?_
  rintro branch bs t ⟨left, hl, hbranch⟩
  exact (hb.branches hl pos (Nat.le_succ _) (Nat.le_refl _) rfl (.one hbranch)).mono
    fun s r _ h ↦ by simpa using h

theorem Accounts.forStmt : Reads below.bound next below.forStmt
    fun s r _ ↦ s.Written False below.left r := by
  unfold Levels.forStmt
  refine .here fun pos ↦ .expect (.name_bind fun first ↦ .eat ?_ ?_)
  · rw [if_pos rfl]
    refine hb.expr.bind ?_
    rintro start ss t ⟨left, hl, hstart⟩
    refine .expect ((hb.expr_at hl).bind fun limit ls t hlimit ↦ ?_)
    have hrest (step : Option Expr) (cs : List Token) (hstep : StepWritten False left step cs)
        (E : Token → Prop) : Reads below.bound E (do
          let body ← below.loopBody pos
          return Stmt.numericFor first start limit step body pos)
          fun s r _ ↦ s.Written False below.left (.keyword .kwFor :: .name first ::
            .symbol .assign :: (ss ++ .symbol .comma :: (ls ++ (cs ++ r)))) := by
      refine (hb.loopBody pos).bind ?_
      rintro body r t ⟨left', ts, hl', hbody, rfl⟩
      obtain rfl : left' = left := by omega
      refine .pure fun _ _ ↦ ?_
      rw [hl]
      simpa using Stmt.Written.numericFor first pos hstart hlimit hstep hbody
    refine .eat ?_ (hrest none [] (.none left) _)
    rw [if_pos rfl]
    refine .bind (R := fun o r _ ↦ StepWritten False left o (.symbol .comma :: r))
      (.map ((hb.expr_at hl).mono fun e r _ h ↦ .some h)) fun o cs t h ↦ ?_
    exact hrest o _ h _
  · rw [if_neg Bool.false_ne_true]
    have hone : NamesWritten [first].reverse [.name first] := .one first
    refine .bind (.weaken (Reads.commaList (E := fun _ ↦ True) (W := fun n r ↦ r = [.name n])
      (fun _ ↦ Reads.name.mono fun _ _ _ h ↦ ⟨h, trivial⟩) (fun ns n ts ts' h h' ↦ h' ▸ h.snoc n)
      (Nat.le_refl _) hone) fun _ _ ↦ trivial) fun names ns t hnames ↦ ?_
    dsimp only
    refine .eat ?_ ?_
    · rw [if_pos rfl]
      refine hb.exprs.bind ?_
      rintro values vs t' ⟨left, hl, hvalues⟩
      refine (hb.loopBody pos).bind ?_
      rintro body r t ⟨left', ts, hl', hbody, rfl⟩
      obtain rfl : left' = left := by omega
      refine .pure fun _ _ ↦ ?_
      rw [hl]
      simpa using Stmt.Written.genericFor pos hnames.1 hvalues hbody
    · rw [if_neg Bool.false_ne_true]
      exact .bind (R := fun _ _ _ ↦ False) (.unexpected _) fun _ _ _ h ↦ h.elim

theorem Accounts.functionStmt : Reads below.bound next below.functionStmt
    fun s r _ ↦ s.Written False below.left r := by
  unfold Levels.functionStmt
  refine .here fun pos ↦ .expect (.name_bind fun first ↦ ?_)
  refine (path_reads [] (Nat.le_refl _)).bind ?_
  rintro fields fs t ⟨_, rfl, hfs⟩
  have hrest (method : Option String) (ms : List Token)
      (hm : ms = method.toList.flatMap fun m ↦ [.symbol .colon, .name m]) (E : Token → Prop) :
      Reads below.bound E (do
        let implicit := if method.isSome then ["self"] else []
        return Stmt.defineFunction ⟨first, fields, method⟩ (← below.functionBody implicit pos) pos)
        fun s r _ ↦ s.Written False below.left
          (.keyword .kwFunction :: .name first :: (fs ++ (ms ++ r))) := by
    refine (hb.functionBody _ pos).bind fun body r t h ↦ .pure fun _ _ ↦ ?_
    have hstmt : Stmt.Written False below.left (.defineFunction ⟨first, fields, method⟩ body pos) _ :=
      .defineFunction pos h
    simpa [FunctionName.tokens, hm, hfs] using hstmt
  refine .eat ?_ (hrest none [] rfl _)
  rw [if_pos rfl]
  refine .bind (R := fun o r _ ↦ .symbol .colon :: r =
    o.toList.flatMap fun m ↦ [.symbol .colon, .name m]) (.map (Reads.name.mono ?_))
    fun o ms t h ↦ ?_
  · rintro name r - rfl
    simp
  · exact hrest o _ h _

theorem Accounts.localStmt : Reads below.bound next below.localStmt
    fun s r _ ↦ s.Written False below.left r := by
  unfold Levels.localStmt
  refine .here fun pos ↦ .expect (.eat (.name_bind fun name ↦ ?_) ?_)
  · exact (hb.functionBody [] pos).bind fun body r t h ↦ .pure fun _ _ ↦ by
      simpa using Stmt.Written.declareFunction name pos h
  · rw [if_neg Bool.false_ne_true]
    refine (names_reads below).bind fun names ns t hnames ↦ .eat ?_ ?_
    · rw [if_pos rfl]
      refine hb.exprs.bind ?_
      rintro values vs t ⟨left, hl, hvalues⟩
      refine .pure fun _ _ ↦ ?_
      rw [hl]
      simpa using Stmt.Written.declareValues pos hnames hvalues
    · rw [if_neg Bool.false_ne_true]
      exact .pure fun _ _ ↦ by simpa using Stmt.Written.declare below.left pos hnames

theorem Accounts.exprStmt : Reads below.bound next below.exprStmt
    fun s r _ ↦ s.Written False below.left r := by
  unfold Levels.exprStmt
  refine .here fun pos ↦ hb.suffixed.bind ?_
  rintro first fs t ⟨hfirst, hhead⟩
  refine .sees fun assigned ↦ .sees fun comma ↦ ?_
  dsimp only
  split
  · have hone : ExprsWritten False below.left [first].reverse fs := .one hfirst
    refine .bind (.weaken (Reads.commaList (E := fun _ ↦ True) (W := Expr.Written False below.left)
      (fun _ ↦ hb.suffixed.mono fun _ _ _ h ↦ ⟨h.1, trivial⟩) (fun ts t rs rs' h h' ↦ h.snoc h')
      (Nat.le_refl _) hone) fun _ _ ↦ trivial) fun targets ts t htargets ↦ ?_
    split
    · exact .bind (R := fun _ _ _ ↦ False) (.failAt _ _) fun _ _ _ h ↦ h.elim
    · rename_i hnone
      have hassignable : ∀ t ∈ targets, t.isAssignable := by
        have hfind := Option.eq_none_iff_forall_ne_some.mpr hnone
        simpa using hfind
      refine .expect (hb.exprs.bind ?_)
      rintro values vs t ⟨left, hl, hvalues⟩
      refine .pure fun _ _ ↦ ?_
      rw [hl] at htargets ⊢
      simpa using Stmt.Written.assign pos hassignable htargets.1 hvalues
  · split
    · rename_i hcall
      exact .pure fun _ _ ↦ by simpa using Stmt.Written.call hcall hfirst
    · exact .failAt _ _

theorem Accounts.stmt : Reads below.bound next below.stmt
    fun s r _ ↦ s.Written False below.left r := by
  unfold Levels.stmt
  refine .peek fun l _ ↦ ?_
  dsimp only
  split
  · exact hb.branchStmt
  · refine .skip ‹_› (hb.expr.bind ?_)
    rintro cond cs t ⟨left, hl, hcond⟩
    refine .expect ((hb.block_at hl).bind fun body bs t hbody ↦ .close (.pure fun _ _ ↦ ?_))
    rw [hl]
    simpa using Stmt.Written.whileLoop l.pos hcond hbody
  · refine .skip ‹_› ((hb.block _).bind ?_)
    rintro body bs t ⟨left, hl, hbody⟩
    refine .close (.pure fun _ _ ↦ ?_)
    rw [hl]
    simpa using Stmt.Written.block hbody
  · exact hb.forStmt
  · refine .skip ‹_› ((hb.block _).bind ?_)
    rintro body bs t ⟨left, hl, hbody⟩
    refine .close ((hb.expr_at hl).bind fun cond cs t hcond ↦ .pure fun _ _ ↦ ?_)
    rw [hl]
    simpa using Stmt.Written.repeatLoop l.pos hbody hcond
  · exact hb.functionStmt
  · exact hb.localStmt
  · exact .skip ‹_› (.pure fun _ _ ↦ .breakLoop _ _)
  · exact hb.exprStmt

/-- What is found can be followed by whatever statements may follow each other. -/
theorem Accounts.stmts {n k : Nat} (hk : k ≤ n) (hn : k ≤ below.bound) {found : List Stmt}
    {pre : List Token}
    (hfound : ∀ rest ts, StmtsWritten False below.left rest ts →
      StmtsWritten False below.left (found.reverse ++ rest) (pre ++ ts)) :
    Reads k next (below.stmts n found)
      fun ss r _ ↦ StmtsWritten False below.left ss (pre ++ r) := by
  have hall : StmtsWritten False below.left found.reverse pre := by
    simpa using hfound [] [] (.none _)
  induction n generalizing next k found pre with
  | zero =>
    intro ts hts hn
    cases hts <;> simp at hn <;> omega
  | succ n ih =>
    rcases k with _ | k
    · intro ts hts hn
      cases hts <;> simp at hn
    unfold Levels.stmts
    refine .blockEnds fun ends ↦ .ite (.pure fun _ _ ↦ by simpa using hall) (.eat_lt ?_ ?_)
    · have hmore (rest : List Stmt) (ts : List Token) (h : StmtsWritten False below.left rest ts) :
          StmtsWritten False below.left (found.reverse ++ rest) (pre ++ [.symbol .semicolon] ++ ts) := by
        simpa using hfound rest _ (.semicolon h)
      refine (ih (by omega) (by omega) hmore (by simpa using hmore [] [] (.none _))).mono
        fun ss r t h ↦ by simpa using h
    · rw [if_neg Bool.false_ne_true]
      refine .sees fun returns ↦ .ite ?_ ?_
      · exact (hb.returnStmt.of_le hn).bind fun s r t h ↦ .pure fun _ _ ↦ by
          simpa using hfound [s] r h
      · refine (hb.stmt.of_le hn).bind_lt (fun _ _ _ h ↦ h.ne_nil) fun s r t h ↦ ?_
        have hmore (rest : List Stmt) (ts : List Token)
            (hrest : StmtsWritten False below.left rest ts) :
            StmtsWritten False below.left ((s :: found).reverse ++ rest) (pre ++ r ++ ts) := by
          simpa using hfound _ _ (.cons h hrest False.elim)
        refine (ih (by omega) (by omega) hmore (by simpa using hmore [] [] (.none _))).mono
          fun ss r t h ↦ by simpa using h

theorem Accounts.blockBody : Reads below.bound next below.blockBody
    fun b r _ ↦ b.Written False below.left r := by
  refine .here fun pos ↦ ?_
  have hopen (rest : List Stmt) (ts : List Token) (h : StmtsWritten False below.left rest ts) :
      StmtsWritten False below.left ([].reverse ++ rest) ([] ++ ts) := h
  exact (hb.stmts (Nat.le_succ _) (Nat.le_refl _) hopen).bind fun stmts r t h ↦
    .pure fun _ _ ↦ by simpa using Block.Written.mk pos h

end Levels

theorem tooDeep_reads {n : Nat} {next : Token → Prop} {S : β → List Token → Token → Prop} :
    Reads n next (tooDeep : Parser β) S := .here fun _ ↦ .failAt _ _

theorem levels_account (bound left : Nat) : (levels bound left).Accounts := by
  induction left with
  | zero => exact ⟨fun _ _ ↦ tooDeep_reads, fun _ ↦ tooDeep_reads⟩
  | succ left ih =>
    have hleft : (levels bound left).left = left := by cases left <;> rfl
    have hbound : (levels bound left).bound = bound := by cases left <;> rfl
    refine ⟨fun power next ↦ ?_, fun next ↦ ?_⟩
    · have h : Reads _ next _ _ := ih.operandBody power
      rw [hbound, hleft] at h
      exact h.mono fun e r t h ↦ ⟨⟨left, rfl, h.1⟩, h.2⟩
    · have h : Reads _ next _ _ := ih.blockBody
      rw [hbound, hleft] at h
      exact h.mono fun b r t h ↦ ⟨left, rfl, h⟩

theorem chunk_reads (bound : Nat) : Reads bound (fun _ ↦ True) (chunk bound)
    fun b r t ↦ b.Written False (maxLevels - 1) r ∧ t = .eof := by
  refine Reads.bind (n := bound) ((levels_account bound maxLevels).block (fun _ ↦ True)) ?_
  rintro block r t ⟨left, hl, h⟩
  obtain rfl : left = maxLevels - 1 := by
    have hmax : (levels bound maxLevels).left = maxLevels := rfl
    omega
  refine .sees fun ends ↦ ?_
  dsimp only
  split
  · rename_i hends
    exact .pure fun t ht ↦ ⟨by simpa using h, by simpa [hends] using ht.2.symm⟩
  · exact .bind (R := fun _ _ _ ↦ False) (.unexpected _) fun _ _ _ h ↦ h.elim

end Parser

/-- A chunk that is parsed accounts for all tokens but the end of the text: it is written as
they are, and its operators stand as their ranks allow. -/
theorem written_of_chunk {lexemes : List Lexeme} {chunk : Chunk} (hended : Parser.Ended lexemes)
    (h : (Parser.chunk lexemes.length).run' lexemes = .ok chunk) :
    ∃ tokens, lexemes.map Lexeme.token = tokens ++ [.eof] ∧
      chunk.Written False (Parser.maxLevels - 1) tokens := by
  obtain ⟨rest, hrun⟩ : ∃ rest, Parser.chunk lexemes.length lexemes = .ok (chunk, rest) := by
    change ((Parser.chunk lexemes.length lexemes >>= fun p ↦ .ok p.1 : Except _ _)) = _ at h
    cases hrun : Parser.chunk lexemes.length lexemes with
    | error e =>
      rw [hrun] at h
      cases h
    | ok p =>
      rw [hrun] at h
      cases h
      exact ⟨p.2, rfl⟩
  obtain ⟨used, hused, hrest, hchunk, heof⟩ := Parser.chunk_reads _ lexemes hended
    (Nat.le_refl _) trivial chunk rest hrun
  cases hrest with
  | eof pos => exact ⟨used.map Lexeme.token, by simp [hused], hchunk⟩
  | cons hl _ => exact absurd heof hl

/-- The lexemes of `return a + b * c`. -/
def sumLexemes : List Lexeme :=
  [⟨.keyword .kwReturn, ⟨1, 1⟩⟩, ⟨.name "a", ⟨1, 8⟩⟩, ⟨.symbol .plus, ⟨1, 10⟩⟩,
    ⟨.name "b", ⟨1, 12⟩⟩, ⟨.symbol .star, ⟨1, 14⟩⟩, ⟨.name "c", ⟨1, 16⟩⟩, ⟨.eof, ⟨1, 17⟩⟩]

def sumChunk : Chunk :=
  .mk [.returnValues [.binary .add (.name "a" ⟨1, 8⟩)
    (.binary .mul (.name "b" ⟨1, 12⟩) (.name "c" ⟨1, 16⟩) ⟨1, 14⟩) ⟨1, 10⟩] ⟨1, 1⟩] ⟨1, 1⟩

theorem ended_sumLexemes : Parser.Ended sumLexemes := by
  repeat' first | exact .eof _ | refine .cons (by simp) ?_

theorem chunk_sumLexemes :
    (Parser.chunk sumLexemes.length).run' sumLexemes = .ok sumChunk := rfl

theorem written_sumLexemes : ∃ tokens, sumLexemes.map Lexeme.token = tokens ++ [.eof] ∧
    sumChunk.Written False (Parser.maxLevels - 1) tokens :=
  written_of_chunk ended_sumLexemes chunk_sumLexemes

end MiniLua
