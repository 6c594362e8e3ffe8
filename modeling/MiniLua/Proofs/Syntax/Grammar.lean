import MiniLua.Syntax.Parser

/-! The trees a level of the parser makes, of names and of the operands and blocks of the level
below. Properties of parsed trees follow by induction on the levels. -/

namespace MiniLua

/-- A token that may be taken: any but the end of the text. -/
class Token.Inner (t : Token) : Prop where
  ne_eof : t ≠ .eof

instance Token.inner_keyword (k : Keyword) : (Token.keyword k).Inner := ⟨by simp⟩

instance Token.inner_symbol (s : Symbol) : (Token.symbol s).Inner := ⟨by simp⟩

instance Token.inner_name (name : String) : (Token.name name).Inner := ⟨by simp⟩

instance Token.inner_number (text : Bytes) : (Token.number text).Inner := ⟨by simp⟩

instance Token.inner_string (text : Bytes) : (Token.string text).Inner := ⟨by simp⟩

namespace Parser

variable {α β : Type}

/-- A parser that gives back no lexeme it did not get. -/
class Consumes (p : Parser α) : Prop where
  sub : ∀ ts a ts', p ts = .ok (a, ts') → ts' ⊆ ts

theorem bind_eq_ok {m : Parser α} {f : α → Parser β} {ts ts'' : List Lexeme} {b : β} :
    (m >>= f) ts = .ok (b, ts'') ↔ ∃ a ts', m ts = .ok (a, ts') ∧ f a ts' = .ok (b, ts'') := by
  change (m ts >>= fun p ↦ f p.1 p.2) = _ ↔ _
  cases m ts with
  | error e => simp [bind, Except.bind]
  | ok p =>
    exact ⟨fun h ↦ ⟨p.1, p.2, rfl, h⟩, fun ⟨_, _, hp, h⟩ ↦ by cases hp; exact h⟩

instance consumes_pure (a : α) : Consumes (pure a : Parser α) where
  sub := by
    rintro ts a ts' ⟨⟩
    exact List.Subset.refl _

instance consumes_bind (m : Parser α) (f : α → Parser β) [hm : Consumes m]
    [hf : ∀ a, Consumes (f a)] : Consumes (m >>= f) where
  sub := by
    intro ts b ts'' h
    obtain ⟨a, ts', ha, hb⟩ := bind_eq_ok.mp h
    exact List.Subset.trans ((hf a).sub _ _ _ hb) (hm.sub _ _ _ ha)

instance consumes_ite (c : Prop) [Decidable c] (m n : Parser α) [Consumes m] [Consumes n] :
    Consumes (if c then m else n) := by
  split <;> infer_instance

instance consumes_map (f : α → β) (m : Parser α) [Consumes m] : Consumes (f <$> m) :=
  inferInstanceAs (Consumes (m >>= fun a ↦ pure (f a)))

instance consumes_get : Consumes (get : Parser (List Lexeme)) where
  sub := by
    rintro ts a ts' ⟨⟩
    exact List.Subset.refl _

instance consumes_failAt (pos : Position) (fault : SyntaxFault) :
    Consumes (failAt pos fault : Parser α) where
  sub := by rintro ts a ts' ⟨⟩

instance consumes_skip : Consumes skip where
  sub := by
    rintro (_ | ⟨t, ts⟩) a ts' h
    · cases h
      exact List.Subset.refl _
    · change Except.ok ((), if t.token = .eof then t :: ts else ts) = _ at h
      cases h
      split
      · exact List.Subset.refl _
      · exact List.subset_cons_self _ _

instance consumes_peek : Consumes peek := by unfold peek; infer_instance

instance consumes_sees (t : Token) : Consumes (sees t) := by unfold sees; infer_instance

instance consumes_here : Consumes here := by unfold here; infer_instance

instance consumes_eat (t : Token) : Consumes (eat t) := by unfold eat; infer_instance

instance consumes_unexpected (what : String) : Consumes (unexpected what : Parser α) := by
  unfold unexpected; infer_instance

instance consumes_expect (t : Token) : Consumes (expect t) := by unfold expect; infer_instance

instance consumes_close (closing opener : Token) (opened : Position) :
    Consumes (close closing opener opened) := by unfold close; infer_instance

instance consumes_name : Consumes name := by
  unfold name
  refine @consumes_bind _ _ _ _ _ fun l ↦ ?_
  split <;> infer_instance

instance consumes_blockEnds : Consumes blockEnds := by
  unfold blockEnds
  refine @consumes_bind _ _ _ _ _ fun l ↦ ?_
  split <;> infer_instance

instance consumes_path (bound : Nat) (found : List String) :
    Consumes (Levels.path bound found) := by
  induction bound generalizing found with
  | zero => exact consumes_pure _
  | succ bound ih => unfold Levels.path; infer_instance

/-- The names a list of lexemes holds are of the kind `N`. -/
def Named (N : String → Prop) (ts : List Lexeme) : Prop :=
  ∀ l ∈ ts, ∀ n, l.token = .name n → N n

theorem Named.ahead {N : String → Prop} {ts : List Lexeme} (h : Named N ts) {n : String}
    (hn : (ahead ts).token = .name n) : N n := by
  cases ts with
  | nil => cases hn
  | cons l ts => exact h l List.mem_cons_self n hn

/-- From lexemes whose names are of the kind `N`, the parser makes what has property `P`. -/
def Produces (N : String → Prop) (P : α → Prop) (p : Parser α) : Prop :=
  ∀ ts a ts', Named N ts → p ts = .ok (a, ts') → P a ∧ ts' ⊆ ts

namespace Produces

variable {N : String → Prop} {P : β → Prop}

theorem mono {P Q : α → Prop} {m : Parser α} (hm : Produces N Q m) (h : ∀ a, Q a → P a) :
    Produces N P m := fun ts a ts' hts ha ↦ ⟨h a (hm ts a ts' hts ha).1, (hm ts a ts' hts ha).2⟩

theorem pure {b : β} (h : P b) : Produces N P (pure b : Parser β) := by
  rintro ts b ts' - ⟨⟩
  exact ⟨h, List.Subset.refl _⟩

theorem bind {Q : α → Prop} {m : Parser α} {f : α → Parser β} (hm : Produces N Q m)
    (hf : ∀ a, Q a → Produces N P (f a)) : Produces N P (m >>= f) := by
  intro ts b ts'' hts h
  obtain ⟨a, ts', ha, hb⟩ := bind_eq_ok.mp h
  obtain ⟨hq, hsub⟩ := hm ts a ts' hts ha
  obtain ⟨hp, hsub'⟩ := hf a hq ts' b ts'' (fun l hl ↦ hts l (hsub hl)) hb
  exact ⟨hp, List.Subset.trans hsub' hsub⟩

/-- The result is the same kind of thing whatever was parsed before. -/
theorem after {m : Parser α} [hm : Consumes m] {f : α → Parser β}
    (hf : ∀ a, Produces N P (f a)) : Produces N P (m >>= f) :=
  bind (Q := fun _ ↦ True) (fun ts a ts' _ ha ↦ ⟨trivial, hm.sub ts a ts' ha⟩) fun a _ ↦ hf a

theorem ite_bind {Q : α → Prop} {c : Prop} [Decidable c] {m n : Parser α} {f : α → Parser β}
    (hm : Produces N Q m) (hn : Produces N Q n) (hf : ∀ a, Q a → Produces N P (f a)) :
    Produces N P (if c then m >>= f else n >>= f) := by
  split
  · exact hm.bind hf
  · exact hn.bind hf

theorem unless_bind {c : Prop} [Decidable c] {m : Parser Unit} [Consumes m]
    {f : Unit → Parser β} (hf : Produces N P (f ())) :
    Produces N P (if c then f () else m >>= f) := by
  split
  · exact hf
  · exact after fun _ ↦ hf

theorem failAt (pos : Position) (fault : SyntaxFault) :
    Produces N P (Parser.failAt pos fault : Parser β) := by
  rintro ts a ts' - ⟨⟩

theorem unexpected (what : String) : Produces N P (Parser.unexpected what : Parser β) :=
  after fun _ ↦ failAt _ _

theorem map {Q : α → Prop} {m : Parser α} (hm : Produces N Q m) {f : α → β}
    (hf : ∀ a, Q a → P (f a)) : Produces N P (f <$> m) := by
  intro ts b ts' hts h
  obtain ⟨a, ts₁, ha, hb⟩ := bind_eq_ok (f := fun a ↦ Pure.pure (f a)).mp h
  cases hb
  obtain ⟨hq, hsub⟩ := hm ts a ts' hts ha
  exact ⟨hf a hq, hsub⟩

theorem peek : Produces N (fun l ↦ ∀ n, l.token = .name n → N n) Parser.peek := by
  rintro ts l ts' hts ⟨⟩
  exact ⟨fun n hn ↦ hts.ahead hn, List.Subset.refl _⟩

theorem name : Produces N N Parser.name := by
  refine peek.bind fun l hl ↦ ?_
  split
  · exact after fun _ ↦ pure (hl _ ‹_›)
  · exact unexpected _

end Produces

theorem produces_commaList {N : String → Prop} {P : α → Prop} {item : Parser α}
    (hitem : Produces N P item) (bound : Nat) {found : List α} (hfound : ∀ a ∈ found, P a) :
    Produces N (fun as ↦ ∀ a ∈ as, P a) (commaList item bound found) := by
  induction bound generalizing found with
  | zero => exact .pure (by simpa using hfound)
  | succ bound ih =>
    refine .after fun more ↦ ?_
    split
    · exact hitem.bind fun a ha ↦ ih (by simpa [ha] using hfound)
    · exact .pure (by simpa using hfound)

/-- What a level makes its trees of, and how many operators or suffixes it may chain. -/
structure Parts where
  Name : String → Prop
  Operand : Expr → Prop
  Block : Block → Prop
  left : Nat

variable (P : Parts)

inductive FunctionMade : FunctionBody → Prop
  | mk (params : List String) (variadic : Bool) (body : Block) (pos : Position)
      (hparams : ∀ p ∈ params, P.Name p) (hbody : P.Block body) :
      FunctionMade (.mk params variadic body pos)

inductive FieldMade : Field → Prop
  | item (value : Expr) (hvalue : P.Operand value) : FieldMade (.item value)
  | named (name : String) (pos : Position) (value : Expr) (hvalue : P.Operand value) :
      FieldMade (.entry (.string (Bytes.ofText name) pos) value)
  | entry (key value : Expr) (hkey : P.Operand key) (hvalue : P.Operand value) :
      FieldMade (.entry key value)

inductive TableMade : Expr → Prop
  | mk (fields : List Field) (pos : Position) (hfields : ∀ f ∈ fields, FieldMade P f) :
      TableMade (.table fields pos)

inductive ArgMade : Expr → Prop
  | string (value : Bytes) (pos : Position) : ArgMade (.string value pos)
  | table (e : Expr) (h : TableMade P e) : ArgMade e
  | operand (e : Expr) (h : P.Operand e) : ArgMade e

inductive PrimaryMade : Expr → Prop
  | name (name : String) (pos : Position) (h : P.Name name) : PrimaryMade (.name name pos)
  | paren (inner : Expr) (pos : Position) (h : P.Operand inner) : PrimaryMade (.paren inner pos)

/-- A primary expression with so many suffixes. -/
inductive SuffixedMade : Nat → Expr → Prop
  | primary (e : Expr) (h : PrimaryMade P e) : SuffixedMade 0 e
  | member {links : Nat} {object : Expr} (key : Bytes) (keyPos pos : Position)
      (hobject : SuffixedMade links object) :
      SuffixedMade (links + 1) (.index object (.string key keyPos) pos)
  | index {links : Nat} {object key : Expr} (pos : Position) (hobject : SuffixedMade links object)
      (hkey : P.Operand key) : SuffixedMade (links + 1) (.index object key pos)
  | method {links : Nat} {object : Expr} {args : List Expr} (name : String) (pos : Position)
      (hobject : SuffixedMade links object) (hargs : ∀ a ∈ args, ArgMade P a) :
      SuffixedMade (links + 1) (.method object name args pos)
  | call {links : Nat} {object : Expr} {args : List Expr} (pos : Position)
      (hobject : SuffixedMade links object) (hargs : ∀ a ∈ args, ArgMade P a) :
      SuffixedMade (links + 1) (.call object args pos)

inductive SimpleMade : Expr → Prop
  | nil (pos : Position) : SimpleMade (.nil pos)
  | bool (value : Bool) (pos : Position) : SimpleMade (.bool value pos)
  | int (value : Int64) (pos : Position) : SimpleMade (.int value pos)
  | float (value : Float) (pos : Position) : SimpleMade (.float value pos)
  | string (value : Bytes) (pos : Position) : SimpleMade (.string value pos)
  | varargs (pos : Position) : SimpleMade (.varargs pos)
  | function (body : FunctionBody) (h : FunctionMade P body) : SimpleMade (.function body)
  | table (e : Expr) (h : TableMade P e) : SimpleMade e
  | suffixed {links : Nat} {e : Expr} (hlinks : links ≤ P.left + 1) (h : SuffixedMade P links e) :
      SimpleMade e

/-- A simple or unary expression on the left of so many infix operators. -/
inductive OperandMade : Nat → Expr → Prop
  | simple (e : Expr) (h : SimpleMade P e) : OperandMade 0 e
  | unary (op : UnaryOp) (operand : Expr) (pos : Position) (h : P.Operand operand) :
      OperandMade 0 (.unary op operand pos)
  | binary {chain : Nat} {lhs : Expr} (op : BinaryOp) (rhs : Expr) (pos : Position)
      (hchain : chain < P.left) (hlhs : OperandMade chain lhs) (hrhs : P.Operand rhs) :
      OperandMade (chain + 1) (.binary op lhs rhs pos)

def Target (e : Expr) : Prop := ∃ links ≤ P.left + 1, SuffixedMade P links e

inductive BranchMade : Branch → Prop
  | mk (cond : Expr) (body : Block) (hcond : P.Operand cond) (hbody : P.Block body) :
      BranchMade (.mk cond body)

inductive StmtMade : Stmt → Prop
  | declare (names : List String) (values : List Expr) (pos : Position)
      (hnames : ∀ n ∈ names, P.Name n) (hvalues : ∀ e ∈ values, P.Operand e) :
      StmtMade (.declare names values pos)
  | declareFunction (name : String) (body : FunctionBody) (pos : Position) (hname : P.Name name)
      (hbody : FunctionMade P body) : StmtMade (.declareFunction name body pos)
  | defineFunction (name : FunctionName) (body : FunctionBody) (pos : Position)
      (hname : P.Name name.first) (hbody : FunctionMade P body) :
      StmtMade (.defineFunction name body pos)
  | assign (targets values : List Expr) (pos : Position) (htargets : ∀ t ∈ targets, Target P t)
      (hvalues : ∀ e ∈ values, P.Operand e) : StmtMade (.assign targets values pos)
  | call (call : Expr) (h : Target P call) : StmtMade (.call call)
  | block (body : Block) (h : P.Block body) : StmtMade (.block body)
  | whileLoop (cond : Expr) (body : Block) (pos : Position) (hcond : P.Operand cond)
      (hbody : P.Block body) : StmtMade (.whileLoop cond body pos)
  | repeatLoop (body : Block) (cond : Expr) (pos : Position) (hbody : P.Block body)
      (hcond : P.Operand cond) : StmtMade (.repeatLoop body cond pos)
  | branch (branches : List Branch) (otherwise : Option Block) (pos : Position)
      (hbranches : ∀ b ∈ branches, BranchMade P b) (hotherwise : ∀ b ∈ otherwise, P.Block b) :
      StmtMade (.branch branches otherwise pos)
  | numericFor (var : String) (start limit : Expr) (step : Option Expr) (body : Block)
      (pos : Position) (hvar : P.Name var) (hstart : P.Operand start) (hlimit : P.Operand limit)
      (hstep : ∀ e ∈ step, P.Operand e) (hbody : P.Block body) :
      StmtMade (.numericFor var start limit step body pos)
  | genericFor (names : List String) (values : List Expr) (body : Block) (pos : Position)
      (hnames : ∀ n ∈ names, P.Name n) (hvalues : ∀ e ∈ values, P.Operand e)
      (hbody : P.Block body) : StmtMade (.genericFor names values body pos)
  | returnValues (values : List Expr) (pos : Position) (hvalues : ∀ e ∈ values, P.Operand e) :
      StmtMade (.returnValues values pos)
  | breakLoop (pos : Position) : StmtMade (.breakLoop pos)

namespace Levels

/-- The parsers below make the given parts. -/
structure Makes (below : Levels) (P : Parts) : Prop where
  left : below.left = P.left
  self : P.Name "self"
  operand (power : Nat) : Produces P.Name P.Operand (below.operand power)
  block : Produces P.Name P.Block below.block

theorem allow_produces (N : String → Prop) (below : Levels) (extra : Nat) :
    Produces N (fun _ ↦ extra ≤ below.left) (below.allow extra) := by
  unfold Levels.allow
  split
  · exact .after fun _ ↦ .failAt _ _
  · exact .pure (by omega)

theorem names_produces (N : String → Prop) (below : Levels) : Produces N (fun ns ↦ ∀ n ∈ ns, N n) below.names :=
  Produces.name.bind fun n hn ↦ produces_commaList .name below.bound (by simpa using hn)

theorem params_produces {N : String → Prop} (bound : Nat) {found : List String} (hfound : ∀ p ∈ found, N p) :
    Produces N (fun q ↦ ∀ p ∈ q.1, N p) (params bound found) := by
  induction bound generalizing found with
  | zero => exact .pure (by simpa using hfound)
  | succ bound ih =>
    unfold Levels.params
    refine .after fun ellipsis ↦ ?_
    split
    · exact .pure (by simpa using hfound)
    · refine Produces.name.bind fun param hparam ↦ .after fun comma ↦ ?_
      have hmore : ∀ p ∈ param :: found, N p := by simpa [hparam] using hfound
      split
      · exact ih hmore
      · exact .pure fun p hp ↦ hmore p (List.mem_reverse.mp hp)

variable {below : Levels} {P : Parts} (hb : below.Makes P)

include hb

theorem Makes.expr : Produces P.Name P.Operand below.expr := hb.operand 0

theorem Makes.exprs : Produces P.Name (fun es ↦ ∀ e ∈ es, P.Operand e) below.exprs :=
  hb.expr.bind fun e he ↦ produces_commaList hb.expr below.bound (by simpa using he)

theorem Makes.functionBody {implicit : List String} (himplicit : ∀ p ∈ implicit, P.Name p)
    (pos : Position) : Produces P.Name (FunctionMade P) (below.functionBody implicit pos) := by
  unfold Levels.functionBody
  refine .after fun _ ↦ .after fun closed ↦ ?_
  refine .ite_bind (Q := fun q ↦ ∀ p ∈ q.1, P.Name p) (.pure himplicit)
    (params_produces _ (by simpa using himplicit)) fun q hparams ↦ .after fun _ ↦ ?_
  exact hb.block.bind fun body hbody ↦ .after fun _ ↦ .pure (.mk _ _ _ _ hparams hbody)

theorem Makes.field : Produces P.Name (FieldMade P) below.field := by
  unfold Levels.field
  refine .after fun ts ↦ ?_
  split
  · exact .after fun _ ↦ hb.expr.bind fun key hkey ↦ .after fun _ ↦ .after fun _ ↦
      hb.expr.bind fun value hvalue ↦ .pure (.entry key value hkey hvalue)
  · exact .after fun _ ↦ .after fun _ ↦ hb.expr.bind fun value hvalue ↦
      .pure (.named _ _ value hvalue)
  · exact hb.expr.bind fun value hvalue ↦ .pure (.item value hvalue)

theorem Makes.fields (bound : Nat) {found : List Field} (hfound : ∀ f ∈ found, FieldMade P f) :
    Produces P.Name (fun fs ↦ ∀ f ∈ fs, FieldMade P f) (below.fields bound found) := by
  have hall : ∀ f ∈ found.reverse, FieldMade P f := fun f hf ↦ hfound f (List.mem_reverse.mp hf)
  induction bound generalizing found with
  | zero => exact .pure hall
  | succ bound ih =>
    unfold Levels.fields
    refine .after fun closed ↦ ?_
    split
    · exact .pure hall
    · refine hb.field.bind fun field hfield ↦ .after fun comma ↦ ?_
      have hmore : ∀ f ∈ field :: found, FieldMade P f := by simpa [hfield] using hfound
      have hmore' : ∀ f ∈ (field :: found).reverse, FieldMade P f := fun f hf ↦
        hmore f (List.mem_reverse.mp hf)
      split
      · exact ih hmore hmore'
      · refine .after fun semicolon ↦ ?_
        split
        · exact ih hmore hmore'
        · exact .pure hmore'

theorem Makes.table : Produces P.Name (TableMade P) below.table := by
  refine .after fun pos ↦ .after fun _ ↦ ?_
  exact (hb.fields below.bound (by simp)).bind fun fields hfields ↦ .after fun _ ↦
    .pure (.mk fields pos hfields)

theorem Makes.callArgs : Produces P.Name (fun es ↦ ∀ e ∈ es, ArgMade P e) below.callArgs := by
  unfold Levels.callArgs
  refine .after fun next ↦ ?_
  dsimp only
  split
  · exact .after fun _ ↦ .pure (by simpa using .string _ _)
  · exact hb.table.bind fun table htable ↦ .pure (by simpa using .table _ htable)
  · refine .after fun _ ↦ .after fun closed ↦ ?_
    have hargs : Produces P.Name (fun es ↦ ∀ e ∈ es, ArgMade P e) below.exprs :=
      hb.exprs.mono fun es hes e he ↦ .operand e (hes e he)
    exact .ite_bind (.pure (by simp)) hargs fun args hargs ↦ .after fun _ ↦ .pure hargs
  · exact .unexpected _

theorem Makes.primary : Produces P.Name (PrimaryMade P) below.primary := by
  unfold Levels.primary
  refine Produces.peek.bind fun next hnext ↦ ?_
  dsimp only
  split
  · exact .after fun _ ↦ .pure (.name _ _ (hnext _ ‹_›))
  · exact .after fun _ ↦ hb.expr.bind fun inner hinner ↦ .after fun _ ↦ .pure (.paren _ _ hinner)
  · exact .unexpected _

theorem Makes.suffixes (bound : Nat) {links : Nat} (hlinks : links ≤ P.left + 1) {object : Expr}
    (hobject : SuffixedMade P links object) :
    Produces P.Name (Target P) (below.suffixes bound links object) := by
  induction bound generalizing links object with
  | zero => exact .pure ⟨links, hlinks, hobject⟩
  | succ bound ih =>
    unfold Levels.suffixes
    refine (allow_produces _ _ _).bind fun _ hallow ↦ .after fun next ↦ ?_
    have hmore : links + 1 ≤ P.left + 1 := by
      rw [← hb.left]
      omega
    have hcall (pos : Position) : Produces P.Name (Target P) (do
        let args ← below.callArgs
        below.suffixes bound (links + 1) (.call object args pos)) :=
      hb.callArgs.bind fun args hargs ↦ ih hmore (.call pos hobject hargs)
    dsimp only
    split
    · exact .after fun _ ↦ .after fun _ ↦ .after fun _ ↦ ih hmore (.member _ _ _ hobject)
    · exact .after fun _ ↦ hb.expr.bind fun key hkey ↦ .after fun _ ↦
        ih hmore (.index _ hobject hkey)
    · exact .after fun _ ↦ .after fun _ ↦ hb.callArgs.bind fun args hargs ↦
        ih hmore (.method _ _ hobject hargs)
    · exact hcall _
    · exact hcall _
    · exact hcall _
    · exact .pure ⟨links, hlinks, hobject⟩

theorem Makes.suffixed : Produces P.Name (Target P) below.suffixed :=
  hb.primary.bind fun e he ↦ hb.suffixes _ (Nat.zero_le _) (.primary e he)

theorem Makes.simple : Produces P.Name (SimpleMade P) below.simple := by
  unfold Levels.simple
  refine .after fun next ↦ ?_
  dsimp only
  split
  · exact .after fun _ ↦ .pure (.nil _)
  · exact .after fun _ ↦ .pure (.bool _ _)
  · exact .after fun _ ↦ .pure (.bool _ _)
  · refine .after fun _ ↦ ?_
    split
    · exact .pure (.int _ _)
    · exact .pure (.float _ _)
    · exact .failAt _ _
  · exact .after fun _ ↦ .pure (.string _ _)
  · exact .after fun _ ↦ .pure (.varargs _)
  · exact .after fun _ ↦ (hb.functionBody (by simp) _).bind fun body hbody ↦
      .pure (.function body hbody)
  · exact hb.table.mono fun e he ↦ .table e he
  · exact hb.suffixed.mono fun e ⟨_, hlinks, he⟩ ↦ .suffixed hlinks he

theorem Makes.infixes (power bound : Nat) {chain : Nat} {lhs : Expr}
    (hlhs : OperandMade P chain lhs) :
    Produces P.Name (fun e ↦ ∃ chain, OperandMade P chain e)
      (below.infixes power bound chain lhs) := by
  induction bound generalizing chain lhs with
  | zero => exact .pure ⟨chain, hlhs⟩
  | succ bound ih =>
    unfold Levels.infixes
    refine .after fun next ↦ ?_
    dsimp only
    split
    · split
      · exact .pure ⟨chain, hlhs⟩
      · refine (allow_produces _ _ _).bind fun _ hallow ↦ .after fun _ ↦ ?_
        have hchain : chain < P.left := by
          rw [← hb.left]
          omega
        exact (hb.operand _).bind fun rhs hrhs ↦ ih (.binary _ rhs _ hchain hlhs hrhs)
    · exact .pure ⟨chain, hlhs⟩

theorem Makes.operandBody (power : Nat) :
    Produces P.Name (fun e ↦ ∃ chain, OperandMade P chain e) (below.operandBody power) := by
  unfold Levels.operandBody
  refine .after fun next ↦ ?_
  dsimp only
  split
  · exact .after fun _ ↦ (hb.operand _).bind fun operand hoperand ↦
      hb.infixes _ _ (.unary _ operand _ hoperand)
  · exact hb.simple.bind fun lhs hlhs ↦ hb.infixes _ _ (.simple lhs hlhs)

theorem Makes.returnStmt : Produces P.Name (StmtMade P) below.returnStmt :=
  .after fun pos ↦ .after fun _ ↦ .after fun _ ↦ .after fun _ ↦
    .ite_bind (.pure (P := fun es ↦ ∀ e ∈ es, P.Operand e) (by simp)) hb.exprs
      fun values hvalues ↦ .after fun _ ↦ .after fun _ ↦
        .unless_bind (.pure (.returnValues values pos hvalues))

theorem Makes.guarded : Produces P.Name (BranchMade P) below.guarded :=
  hb.expr.bind fun cond hcond ↦ .after fun _ ↦ hb.block.bind fun body hbody ↦
    .pure (.mk cond body hcond hbody)

theorem Makes.branches (pos : Position) (bound : Nat) {found : List Branch}
    (hfound : ∀ b ∈ found, BranchMade P b) :
    Produces P.Name (StmtMade P) (below.branches pos bound found) := by
  have hall : ∀ b ∈ found.reverse, BranchMade P b := fun b hb ↦ hfound b (List.mem_reverse.mp hb)
  induction bound generalizing found with
  | zero => exact .pure (.branch _ none pos hall (by simp))
  | succ bound ih =>
    unfold Levels.branches
    refine .after fun more ↦ ?_
    split
    · refine hb.guarded.bind fun branch hbranch ↦ ?_
      have hmore : ∀ b ∈ branch :: found, BranchMade P b := by simpa [hbranch] using hfound
      exact ih hmore fun b hb ↦ hmore b (List.mem_reverse.mp hb)
    · refine .after fun last ↦ ?_
      exact .ite_bind (hb.block.map (P := fun o ↦ ∀ b ∈ o, P.Block b) (by simp))
        (.pure (P := fun o ↦ ∀ b ∈ o, P.Block b) (by simp)) fun o ho ↦ .after fun _ ↦
          .pure (.branch _ o pos hall ho)

theorem Makes.branchStmt : Produces P.Name (StmtMade P) below.branchStmt :=
  .after fun _ ↦ .after fun _ ↦ hb.guarded.bind fun _ hbranch ↦
    hb.branches _ _ (by simpa using hbranch)

theorem Makes.loopBody (pos : Position) : Produces P.Name P.Block (below.loopBody pos) :=
  .after fun _ ↦ hb.block.bind fun _ hbody ↦ .after fun _ ↦ .pure hbody

theorem Makes.forStmt : Produces P.Name (StmtMade P) below.forStmt := by
  unfold Levels.forStmt
  refine .after fun pos ↦ .after fun _ ↦ Produces.name.bind fun first hfirst ↦
    .after fun numeric ↦ ?_
  split
  · exact hb.expr.bind fun start hstart ↦ .after fun _ ↦ hb.expr.bind fun limit hlimit ↦
      .after fun _ ↦ .ite_bind (hb.expr.map (P := fun o ↦ ∀ e ∈ o, P.Operand e) (by simp))
        (.pure (P := fun o ↦ ∀ e ∈ o, P.Operand e) (by simp)) fun step hstep ↦
          (hb.loopBody pos).bind fun body hbody ↦
            .pure (.numericFor first start limit step body pos hfirst hstart hlimit hstep hbody)
  · refine (produces_commaList .name _ (by simpa using hfirst)).bind fun names hnames ↦
      .after fun _ ↦ .unless_bind (hb.exprs.bind fun values hvalues ↦ ?_)
    exact (hb.loopBody pos).bind fun body hbody ↦
      .pure (.genericFor names values body pos hnames hvalues hbody)

theorem Makes.functionStmt : Produces P.Name (StmtMade P) below.functionStmt := by
  unfold Levels.functionStmt
  refine .after fun pos ↦ .after fun _ ↦ Produces.name.bind fun first hfirst ↦
    .after fun fields ↦ .after fun colon ↦ ?_
  have hrest (method : Option String) : Produces P.Name (StmtMade P) (do
      let implicit := if method.isSome then ["self"] else []
      return .defineFunction ⟨first, fields, method⟩ (← below.functionBody implicit pos) pos) := by
    refine (hb.functionBody ?_ pos).bind fun body hbody ↦
      .pure (.defineFunction _ body pos hfirst hbody)
    split <;> simp [hb.self]
  split
  · exact .after fun method ↦ hrest method
  · exact hrest none

theorem Makes.localStmt : Produces P.Name (StmtMade P) below.localStmt := by
  unfold Levels.localStmt
  refine .after fun pos ↦ .after fun _ ↦ .after fun isFunction ↦ ?_
  split
  · exact Produces.name.bind fun name hname ↦ (hb.functionBody (by simp) _).bind fun body hbody ↦
      .pure (.declareFunction name body pos hname hbody)
  · refine (names_produces _ _).bind fun names hnames ↦ .after fun assigned ↦ ?_
    exact .ite_bind hb.exprs (.pure (P := fun es ↦ ∀ e ∈ es, P.Operand e) (by simp))
      fun values hvalues ↦ .pure (.declare names values pos hnames hvalues)

theorem Makes.exprStmt : Produces P.Name (StmtMade P) below.exprStmt := by
  unfold Levels.exprStmt
  refine .after fun pos ↦ hb.suffixed.bind fun first hfirst ↦ .after fun assigned ↦
    .after fun comma ↦ ?_
  dsimp only
  split
  · refine (produces_commaList hb.suffixed _ (by simpa using hfirst)).bind fun targets htargets ↦ ?_
    have hrest : Produces P.Name (StmtMade P) (do
        expect (.symbol .assign)
        return .assign targets (← below.exprs) pos) :=
      .after fun _ ↦ hb.exprs.bind fun values hvalues ↦
        .pure (.assign targets values pos htargets hvalues)
    split
    · exact .after fun _ ↦ hrest
    · exact hrest
  · split
    · exact .pure (.call first hfirst)
    · exact .failAt _ _

theorem Makes.stmt : Produces P.Name (StmtMade P) below.stmt := by
  unfold Levels.stmt
  refine .after fun next ↦ ?_
  dsimp only
  split
  · exact hb.branchStmt
  · exact .after fun _ ↦ hb.expr.bind fun cond hcond ↦ .after fun _ ↦
      hb.block.bind fun body hbody ↦ .after fun _ ↦ .pure (.whileLoop cond body _ hcond hbody)
  · exact .after fun _ ↦ hb.block.bind fun body hbody ↦ .after fun _ ↦ .pure (.block body hbody)
  · exact hb.forStmt
  · exact .after fun _ ↦ hb.block.bind fun body hbody ↦ .after fun _ ↦
      hb.expr.bind fun cond hcond ↦ .pure (.repeatLoop body cond _ hbody hcond)
  · exact hb.functionStmt
  · exact hb.localStmt
  · exact .after fun _ ↦ .pure (.breakLoop _)
  · exact hb.exprStmt

theorem Makes.stmts (bound : Nat) {found : List Stmt} (hfound : ∀ s ∈ found, StmtMade P s) :
    Produces P.Name (fun ss ↦ ∀ s ∈ ss, StmtMade P s) (below.stmts bound found) := by
  have hall : ∀ s ∈ found.reverse, StmtMade P s := fun s hs ↦ hfound s (List.mem_reverse.mp hs)
  induction bound generalizing found with
  | zero => exact .pure hall
  | succ bound ih =>
    have hmore {stmt : Stmt} (h : StmtMade P stmt) : ∀ s ∈ stmt :: found, StmtMade P s := by
      simpa [h] using hfound
    have hmore' {stmt : Stmt} (h : StmtMade P stmt) :
        ∀ s ∈ (stmt :: found).reverse, StmtMade P s := fun s hs ↦ hmore h s (List.mem_reverse.mp hs)
    unfold Levels.stmts
    refine .after fun ends ↦ ?_
    split
    · exact .pure hall
    · refine .after fun semicolon ↦ ?_
      split
      · exact ih hfound hall
      · refine .after fun returns ↦ ?_
        split
        · exact hb.returnStmt.bind fun stmt hstmt ↦ .pure (hmore' hstmt)
        · exact hb.stmt.bind fun stmt hstmt ↦ ih (hmore hstmt) (hmore' hstmt)

theorem Makes.blockBody : Produces P.Name (fun b ↦ ∀ s ∈ b.stmts, StmtMade P s) below.blockBody :=
  .after fun _ ↦ (hb.stmts _ (by simp)).bind fun _ hstmts ↦ .pure hstmts

end Levels

theorem tooDeep_produces (N : String → Prop) (P : α → Prop) :
    Produces N P (tooDeep : Parser α) :=
  .after fun _ ↦ .failAt _ _

/-- What holds of all parts a level makes holds of the trees of every level. -/
theorem levels_make {parts : Nat → Parts} (bound : Nat) (hleft : ∀ left, (parts left).left = left)
    (hname : ∀ left, (parts left).Name = (parts 0).Name) (hself : (parts 0).Name "self")
    (hoperand : ∀ left chain e, OperandMade (parts left) chain e → (parts (left + 1)).Operand e)
    (hblock : ∀ left b, (∀ s ∈ b.stmts, StmtMade (parts left) s) → (parts (left + 1)).Block b)
    (left : Nat) : (levels bound left).Makes (parts left) := by
  induction left with
  | zero => exact ⟨(hleft 0).symm, hself, fun _ ↦ tooDeep_produces _ _, tooDeep_produces _ _⟩
  | succ left ih =>
    have hnames : (parts left).Name = (parts (left + 1)).Name :=
      (hname left).trans (hname (left + 1)).symm
    refine ⟨(hleft _).symm, by rwa [hname], fun power ↦ ?_, ?_⟩
    · have h := (ih.operandBody power).mono fun e ⟨chain, he⟩ ↦ hoperand left chain e he
      rwa [hnames] at h
    · have h := ih.blockBody.mono fun b hb ↦ hblock left b hb
      rwa [hnames] at h

/-- A chunk that is parsed is a block of the outermost level. -/
theorem block_of_parse {P : Parts} {source : Bytes} {chunk : Chunk}
    (hmakes : ∀ bound, (levels bound maxLevels).Makes P)
    (hnamed : ∀ lexemes, tokenize source = .ok lexemes → Named P.Name lexemes)
    (h : parse source = .ok chunk) : P.Block chunk := by
  unfold parse at h
  cases hlexemes : tokenize source with
  | error e =>
    rw [hlexemes] at h
    cases h
  | ok lexemes =>
    rw [hlexemes] at h
    have hchunk : Produces P.Name P.Block (Parser.chunk lexemes.length) :=
      (hmakes _).block.bind fun b hb ↦ .after fun _ ↦ .unless_bind (.pure hb)
    change ((Parser.chunk lexemes.length lexemes >>= fun p ↦ .ok p.1 : Except _ _)) = _ at h
    cases hrun : Parser.chunk lexemes.length lexemes with
    | error e =>
      rw [hrun] at h
      cases h
    | ok p =>
      rw [hrun] at h
      cases h
      exact (hchunk lexemes p.1 p.2 (hnamed lexemes hlexemes) hrun).1

end Parser

end MiniLua
