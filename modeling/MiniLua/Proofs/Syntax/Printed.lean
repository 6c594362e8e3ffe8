import MiniLua.Proofs.Syntax.Accepts
import MiniLua.Proofs.Syntax.Bare
import MiniLua.Proofs.Syntax.Precedence

/-!
Trees written with a semicolon after every statement are parsed to themselves. What an expression
may be followed by is said by the next token: none that starts a suffix, and no operator that
binds tighter than those on the right edge of the expression.
-/

namespace MiniLua

namespace Token

/-- Starts a suffix of a primary expression. -/
def opensSuffix : Token → Bool
  | .symbol .dot | .symbol .lbracket | .symbol .colon | .symbol .lparen | .symbol .lbrace
  | .string _ => true
  | _ => false

/-- Continues no expression. -/
def endsExpr (t : Token) : Bool := !t.opensSuffix && (Parser.binaryOp? t).isNone

/-- Starts a primary expression. -/
def startsPrefix : Token → Bool
  | .name _ | .symbol .lparen => true
  | _ => false

/-- Starts an expression. -/
def startsExpr : Token → Bool
  | .keyword .kwNil | .keyword .kwTrue | .keyword .kwFalse | .number _ | .string _
  | .symbol .ellipsis | .keyword .kwFunction | .symbol .lbrace | .symbol .minus | .keyword .kwNot
  | .symbol .hash | .name _ | .symbol .lparen => true
  | _ => false

theorem closes_of_startsExpr {t : Token} (h : t.startsExpr) : t.closes = false := by
  cases t with
  | keyword k => cases k <;> first | rfl | cases h
  | eof => cases h
  | _ => rfl

end Token

open Parser

/-- The first token of an expression, and that no `=` is second after a name. -/
structure Expr.Starts (e : Expr) (ts : List Token) : Prop where
  expr : Begins (fun t ↦ t.startsExpr ∧ (e.isPrefix → t.startsPrefix)) ts
  second (name : String) (rest : List Token) : ts ≠ .name name :: .symbol .assign :: rest

theorem Expr.Starts.append {e longer : Expr} {ts ts' : List Token} (h : e.Starts ts)
    (hhead : longer.isPrefix → e.isPrefix) (hts' : Begins (· ≠ .symbol .assign) ts') :
    longer.Starts (ts ++ ts') := by
  obtain ⟨⟨t', ts, rfl, hexpr, hhead'⟩, hsecond⟩ := h
  obtain ⟨t, rest, rfl, ht⟩ := hts'
  refine ⟨⟨t', ts ++ t :: rest, rfl, hexpr, fun h ↦ hhead' (hhead h)⟩, fun name rest' heq ↦ ?_⟩
  cases ts with
  | nil =>
    simp only [List.cons_append, List.nil_append, List.cons.injEq] at heq
    exact ht heq.2.1
  | cons t'' ts =>
    simp only [List.cons_append, List.cons.injEq] at heq
    exact hsecond name ts (by rw [heq.1, heq.2.1])

theorem Expr.Starts.single {e : Expr} {t : Token} {ts : List Token} (ht : t.startsExpr)
    (hhead : e.isPrefix → t.startsPrefix) (hsecond : (∀ name, t ≠ .name name) ∨ ts = []) :
    e.Starts (t :: ts) := by
  refine ⟨⟨t, ts, rfl, ht, hhead⟩, fun name rest heq ↦ ?_⟩
  cases heq
  rcases hsecond with h | h
  · exact h name rfl
  · cases h

theorem ArgsWritten.starts {strict : Prop} {left : Nat} {args : List Expr} {ts : List Token}
    (h : ArgsWritten strict left args ts) : Begins (fun t ↦ t.opensSuffix) ts := by
  cases h with
  | string => exact ⟨_, _, rfl, rfl⟩
  | table pos h => cases h; exact ⟨_, _, rfl, rfl⟩
  | none => exact ⟨_, _, rfl, rfl⟩
  | some => exact ⟨_, _, rfl, rfl⟩

theorem Expr.Written.starts {strict : Prop} {left : Nat} {e : Expr} {ts : List Token}
    (h : e.Written strict left ts) : e.Starts ts := by
  -- the first token is that of the object or the operand on the left
  induction hn : ts.length using Nat.strongRecOn generalizing left e ts with
  | _ n ih =>
    have hspine {first longer : Expr} {fs rs : List Token} (hlen : (fs ++ rs).length = n)
        (hfirst : first.Written strict left fs) (hhead : longer.isPrefix → first.isPrefix)
        (hrs : Begins (· ≠ .symbol .assign) rs) : longer.Starts (fs ++ rs) := by
      refine (ih fs.length ?_ hfirst rfl).append hhead hrs
      obtain ⟨t, rest, rfl, -⟩ := hrs
      simp only [List.length_append, List.length_cons] at hlen
      omega
    cases h with
    | nil | true | false | int | float | string | varargs | function | table =>
      exact .single rfl (fun h ↦ by cases h) (.inl (by simp))
    | name => exact .single rfl (fun _ ↦ rfl) (.inr rfl)
    | paren => exact .single rfl (fun _ ↦ rfl) (.inl (by simp))
    | unary op =>
      refine .single (by cases op <;> rfl) (fun h ↦ by cases h) (.inl ?_)
      cases op <;> simp [UnaryOp.token]
    | member key keyPos pos hhead hlinks hobject =>
      exact hspine hn hobject (fun _ ↦ hhead) ⟨_, _, rfl, by simp⟩
    | index pos hhead hlinks hobject hkey =>
      rw [List.append_assoc] at hn ⊢
      exact hspine hn hobject (fun _ ↦ hhead) ⟨_, _, rfl, by simp⟩
    | call pos hhead hlinks hcallee hargs =>
      refine hspine hn hcallee (fun _ ↦ hhead) (hargs.starts.mono ?_)
      rintro t ht rfl
      cases ht
    | method name pos hhead hlinks hobject ha =>
      exact hspine hn hobject (fun _ ↦ hhead) ⟨_, _, rfl, by simp⟩
    | binary op pos hchain hl hr hlhs hrhs =>
      exact hspine hn hlhs (fun h ↦ by cases h) ⟨_, _, rfl, by cases op <;> simp [BinaryOp.token]⟩

theorem Expr.Written.begins {strict : Prop} {left : Nat} {e : Expr} {ts : List Token}
    (h : e.Written strict left ts) : Begins (fun t ↦ t.startsExpr) ts :=
  h.starts.expr.mono fun _ ht ↦ ht.1

theorem ExprsWritten.begins {strict : Prop} {left : Nat} {es : List Expr} {ts : List Token}
    (h : ExprsWritten strict left es ts) : Begins (fun t ↦ t.startsExpr) ts := by
  cases h with
  | one h => exact h.begins
  | cons h hs => exact h.begins.append _

theorem Field.Written.begins {strict : Prop} {left : Nat} {field : Field} {ts : List Token}
    (h : field.Written strict left ts) : Begins (· ≠ .symbol .rbrace) ts := by
  cases h with
  | item h =>
    refine h.begins.mono ?_
    rintro t ht rfl
    cases ht
  | named name pos h => exact ⟨_, _, rfl, by simp⟩
  | entry hkey hvalue => exact ⟨_, _, rfl, by simp⟩

theorem NamesWritten.inv {names : List String} {ts : List Token} (h : NamesWritten names ts) :
    (∃ name, names = [name] ∧ ts = [.name name]) ∨ ∃ name rest ns rs, names = name :: rest ∧
      ts = ns ++ .symbol .comma :: rs ∧ ns = [.name name] ∧ NamesWritten rest rs := by
  cases h with
  | one name => exact .inl ⟨name, rfl, rfl⟩
  | cons name h => exact .inr ⟨name, _, [.name name], _, rfl, rfl, rfl, h⟩

theorem ParamsWritten.start {names : List String} {variadic : Bool} {ts : List Token}
    (h : ParamsWritten names variadic ts) : names = [] ∧ variadic = false ∧ ts = [] ∨
      ∃ t rest, ts = t :: rest ∧ t ≠ .symbol .rparen := by
  cases h with
  | none => exact .inl ⟨rfl, rfl, rfl⟩
  | variadic => exact .inr ⟨_, _, rfl, by simp⟩
  | named h => cases h <;> exact .inr ⟨_, _, rfl, by simp⟩
  | namedVariadic h => cases h <;> exact .inr ⟨_, _, rfl, by simp⟩

theorem ExprsWritten.inv {strict : Prop} {left : Nat} {es : List Expr} {ts : List Token}
    (h : ExprsWritten strict left es ts) :
    (∃ e, es = [e] ∧ e.Written strict left ts) ∨ ∃ e rest ns rs, es = e :: rest ∧
      ts = ns ++ .symbol .comma :: rs ∧ e.Written strict left ns ∧
      ExprsWritten strict left rest rs := by
  cases h with
  | one h => exact .inl ⟨_, rfl, h⟩
  | cons h hs => exact .inr ⟨_, _, _, _, rfl, rfl, h, hs⟩

theorem Expr.isPrefix_of_isAssignable {e : Expr} (h : e.isAssignable) : e.isPrefix := by
  cases e <;> first | rfl | cases h

theorem Expr.isPrefix_of_isCall {e : Expr} (h : e.isCall) : e.isPrefix := by
  cases e <;> first | rfl | cases h

theorem Stmt.Written.begins {strict : Prop} {left : Nat} {stmt : Stmt} {ts : List Token}
    (h : stmt.Written strict left ts) : Begins
      (fun t ↦ t.closes = false ∧ t ≠ .symbol .semicolon ∧ t ≠ .keyword .kwReturn) ts := by
  have hstarts {t : Token} (ht : t.startsExpr) :
      t.closes = false ∧ t ≠ .symbol .semicolon ∧ t ≠ .keyword .kwReturn := by
    refine ⟨Token.closes_of_startsExpr ht, ?_, ?_⟩
    all_goals
      rintro rfl
      cases ht
  cases h with
  | assign pos hassignable htargets => exact (htargets.begins.mono fun _ ↦ hstarts).append _
  | call hcall h => exact h.begins.mono fun _ ↦ hstarts
  | _ => exact ⟨_, _, rfl, rfl, by simp, by simp⟩

theorem OtherwiseWritten.begins {strict : Prop} {left : Nat} {otherwise : Option Block}
    {os : List Token} (h : OtherwiseWritten strict left otherwise os) :
    Begins (fun t ↦ t.closes) (os ++ [.keyword .kwEnd]) := by
  cases h <;> exact ⟨_, _, rfl, rfl⟩

theorem Expr.Written.simple_begins {strict : Prop} {left : Nat} {e : Expr} {ts : List Token}
    (h : e.Written strict left ts) (he : e.isSimple) :
    Begins (fun t ↦ Parser.unaryOp? t = none) ts := by
  have hstarts := h.starts.expr
  cases h with
  | binary | unary => cases he
  | member | index | call | method =>
    refine hstarts.mono fun t ht ↦ ?_
    have hhead := ht.2 rfl
    cases t with
    | name => rfl
    | symbol s => cases s <;> first | rfl | cases hhead
    | _ => cases hhead
  | _ => exact ⟨_, _, rfl, rfl⟩

theorem Expr.Written.chain_lt {strict : Prop} {left : Nat} {e : Expr} {ts : List Token}
    (h : e.Written strict left ts) : e.chain < ts.length := by
  induction hk : e.chain generalizing left e ts with
  | zero => exact List.length_pos_iff.mpr h.ne_nil
  | succ k ih =>
    cases h with
    | binary op pos hchain hl hr hlhs hrhs =>
      have := ih hlhs (Nat.succ.inj hk)
      simp only [List.length_append, List.length_cons]
      omega
    | _ => cases hk

theorem Expr.Written.links_le {strict : Prop} {left : Nat} {e : Expr} {ts : List Token}
    (h : e.Written strict left ts) : e.links ≤ left := by
  cases h with
  | member _ _ _ _ hlinks | index _ _ hlinks | call _ _ hlinks | method _ _ _ hlinks =>
    exact hlinks
  | _ => exact Nat.zero_le _

theorem Expr.Written.links_lt {strict : Prop} {left : Nat} {e : Expr} {ts : List Token}
    (h : e.Written strict left ts) : e.links < ts.length := by
  induction hk : e.links generalizing left e ts with
  | zero => exact List.length_pos_iff.mpr h.ne_nil
  | succ k ih =>
    cases h with
    | member key keyPos pos hhead hlinks hobject =>
      have := ih hobject (Nat.succ.inj hk)
      simp only [List.length_append, List.length_cons]
      omega
    | index pos hhead hlinks hobject hkey =>
      have := ih hobject (Nat.succ.inj hk)
      simp only [List.length_append, List.length_cons]
      omega
    | call pos hhead hlinks hcallee hargs =>
      have := ih hcallee (Nat.succ.inj hk)
      have := List.length_pos_iff.mpr hargs.ne_nil
      simp only [List.length_append]
      omega
    | method name pos hhead hlinks hobject hargs =>
      have := ih hobject (Nat.succ.inj hk)
      simp only [List.length_append, List.length_cons]
      omega
    | _ => cases hk

namespace Parser

/-- Nothing that starts an expression closes anything. -/
theorem Begins.ahead_ne {ts : List Token} (h : Begins (fun t ↦ t.startsExpr) ts) {s : Symbol}
    (hs : (Token.symbol s).startsExpr = false) : Begins (· ≠ .symbol s) ts := by
  refine h.mono ?_
  rintro t ht rfl
  simp [hs] at ht

namespace Accepts

variable {α γ : Type}

theorem commaList_end {item : Parser α} {C : Token → Prop} (hC : ∀ t, C t → t ≠ .symbol .comma)
    (n : Nat) {k : Nat} (found : List α) :
    Accepts k [] C (Parser.commaList item n found) (· = found.reverse) := by
  cases n with
  | zero => exact pure rfl
  | succ n =>
    unfold Parser.commaList
    exact eat_miss (by simpa using hC) (pure rfl)

/-- Items written as `W` says, after a first one, as a list is that `L` tells; of each result only
`g` matters. -/
theorem commaList {item : Parser α} {W : α → List Token → Prop} {L : List α → List Token → Prop}
    {g : α → γ} {C D : Token → Prop} {bound : Nat}
    (hL : ∀ as r, L as r → (∃ a, as = [a] ∧ W a r) ∨ ∃ a rest ts rs, as = a :: rest ∧
      r = ts ++ .symbol .comma :: rs ∧ W a ts ∧ L rest rs)
    (hitem : ∀ a r, W a r → Accepts bound r D item fun a' ↦ g a' = g a)
    (hcomma : D (.symbol .comma)) (hC : ∀ t, C t → D t ∧ t ≠ .symbol .comma) {n : Nat}
    (hn : n ≤ bound) {as : List α} {r : List Token} (h : L as r) (found : List α) :
    Accepts n (.symbol .comma :: r) C (Parser.commaList item n found)
      fun all ↦ all.map g = found.reverse.map g ++ as.map g := by
  induction n generalizing as r found with
  | zero =>
    intro used rest hused _ hn
    have hlen := congrArg List.length hused
    simp only [List.length_map, List.length_cons, List.length_append] at hlen hn
    omega
  | succ n ih =>
    unfold Parser.commaList
    refine eat_lt ?_
    rw [if_pos rfl]
    rcases hL as r h with ⟨a, rfl, ha⟩ | ⟨a, rest, ts, rs, rfl, rfl, ha, hrest⟩
    · refine last (((hitem a r ha).of_le (by omega)).weaken fun t ht ↦ (hC t ht).1) fun a' ha' ↦ ?_
      refine (commaList_end (fun t ht ↦ (hC t ht).2) n (a' :: found)).mono ?_
      rintro all rfl
      simp [ha']
    · refine bind ((hitem a ts ha).of_le (by omega)) (by simpa using hcomma) fun a' ha' ↦ ?_
      refine (ih (by omega) hrest (a' :: found)).mono fun all hall ↦ ?_
      simp [hall, ha']

theorem items {item : Parser α} {W : α → List Token → Prop} {L : List α → List Token → Prop}
    {g : α → γ} {C D : Token → Prop} {bound : Nat}
    (hL : ∀ as r, L as r → (∃ a, as = [a] ∧ W a r) ∨ ∃ a rest ts rs, as = a :: rest ∧
      r = ts ++ .symbol .comma :: rs ∧ W a ts ∧ L rest rs)
    (hitem : ∀ a r, W a r → Accepts bound r D item fun a' ↦ g a' = g a)
    (hcomma : D (.symbol .comma)) (hC : ∀ t, C t → D t ∧ t ≠ .symbol .comma) {as : List α}
    {r : List Token} (h : L as r) :
    Accepts bound r C (item >>= fun a ↦ Parser.commaList item bound [a])
      fun all ↦ all.map g = as.map g := by
  rcases hL as r h with ⟨a, rfl, ha⟩ | ⟨a, rest, ts, rs, rfl, rfl, ha, hrest⟩
  · refine last ((hitem a r ha).weaken fun t ht ↦ (hC t ht).1) fun a' ha' ↦ ?_
    refine (commaList_end (fun t ht ↦ (hC t ht).2) bound [a']).mono ?_
    rintro all rfl
    simp [ha']
  · refine bind (hitem a ts ha) (by simpa using hcomma) fun a' ha' ↦ ?_
    refine (commaList hL hitem hcomma hC (Nat.le_refl _) hrest [a']).mono fun all hall ↦ ?_
    simp [hall, ha']

end Accepts

/-- What may come after an expression: no suffix, and no operator that would become part of what
stands on its right edge. -/
def Borders (e : Expr) (t : Token) : Prop :=
  t.opensSuffix = false ∧ ∀ op : BinaryOp, t = op.token → e.LeftOf op

theorem borders_of_endsExpr {t : Token} (h : t.endsExpr) (e : Expr) : Borders e t := by
  simp only [Token.endsExpr, Bool.and_eq_true, Bool.not_eq_true'] at h
  refine ⟨h.1, fun op hop ↦ ?_⟩
  have hnone := h.2
  rw [hop, binaryOp?_token] at hnone
  cases hnone

theorem stops_of_endsExpr {t : Token} (h : t.endsExpr) (power : Nat) : Stops power t := by
  simp only [Token.endsExpr, Bool.and_eq_true] at h
  intro op hop
  have hnone := h.2
  rw [hop, binaryOp?_token] at hnone
  cases hnone

/-- What may come after an operation may come after its right operand. -/
theorem Borders.right {op : BinaryOp} {lhs rhs : Expr} {pos : Position} {t : Token}
    (h : Borders (.binary op lhs rhs pos) t) (hr : rhs.RightOf op) :
    Borders rhs t ∧ Stops op.rightPower t := by
  have hstops : Stops op.rightPower t := fun o ho ↦ leftOf_binary.mp (h.2 o ho)
  refine ⟨⟨h.1, fun o ho ↦ ?_⟩, hstops⟩
  have hless := hstops o ho
  have hright := rightOf_iff.mp hr
  have hop := powers op
  have hpo := powers o
  cases rhs with
  | binary o' =>
    have ho' := powers o'
    have habove : op.rightPower ≤ o'.leftPower := hright
    refine leftOf_binary.mpr ?_
    omega
  | unary o' =>
    refine leftOf_unary.mpr ?_
    have hpower : unaryPower = 13 := rfl
    omega
  | _ => trivial

theorem Borders.unary {o : UnaryOp} {operand : Expr} {pos : Position} {t : Token}
    (h : Borders (.unary o operand pos) t) (hu : operand.UnderUnary) :
    Borders operand t ∧ Stops unaryPower t := by
  have hstops : Stops unaryPower t := fun op hop ↦ leftOf_unary.mp (h.2 op hop)
  refine ⟨⟨h.1, fun op hop ↦ ?_⟩, hstops⟩
  have hless := hstops op hop
  have habove := underUnary_iff.mp hu
  have hpower : unaryPower = 13 := rfl
  have hpo := powers op
  cases operand with
  | binary o' =>
    have ho' := powers o'
    have habove : unaryPower ≤ o'.leftPower := habove
    refine leftOf_binary.mpr ?_
    omega
  | unary o' => exact leftOf_unary.mpr hless
  | _ => trivial

theorem above_of_leftOf {op : BinaryOp} {e : Expr} {power : Nat} (h : e.LeftOf op)
    (hop : power ≤ op.leftPower) : e.Above power := by
  cases e with
  | binary o' =>
    have hless := leftOf_binary.mp h
    have hpo := powers op
    have ho' := powers o'
    change power ≤ o'.leftPower
    omega
  | _ => trivial

namespace Levels

/-- The parsers below take what trees are written as one level further down, and make those. -/
structure Takes (below : Levels) : Prop where
  operand {left power : Nat} {e : Expr} {r : List Token} (hl : below.left = left + 1)
    (h : e.Written True left r) (habove : e.Above power) :
    Accepts below.bound r (fun t ↦ Borders e t ∧ Stops power t) (below.operand power)
      fun e' ↦ e'.bare = e.bare
  block {left : Nat} {b : Block} {r : List Token} (hl : below.left = left + 1)
    (h : b.Written True left r) :
    Accepts below.bound r (fun t ↦ t.closes) below.block fun b' ↦ b'.bare = b.bare

variable {below : Levels} (hb : below.Takes) {left : Nat} {C : Token → Prop}

theorem allow_accepts {β : Type} {n extra : Nat} {r : List Token} {f : Unit → Parser β}
    {S : β → Prop} (h : extra ≤ below.left) (hf : Accepts n r C (f ()) S) :
    Accepts n r C (below.allow extra >>= f) S := by
  unfold Levels.allow
  rw [if_neg (Nat.not_lt.mpr h)]
  exact hf

theorem name_accepts {n : Nat} (a : String) (r : List Token) (h : r = [.name a]) :
    Accepts n r C name fun a' ↦ id a' = id a := by
  subst h
  exact (Accepts.named a).mono fun _ h ↦ congrArg id h

theorem names_accepts {names : List String} {r : List Token} (h : NamesWritten names r)
    (hC : ∀ t, C t → t ≠ .symbol .comma) : Accepts below.bound r C below.names (· = names) := by
  refine (Accepts.items (D := fun _ ↦ True) (g := id) (fun _ _ h ↦ h.inv) name_accepts trivial
    (fun t ht ↦ ⟨trivial, hC t ht⟩) h).mono fun all hall ↦ ?_
  simpa using hall

/-- After the first of a list of names the parser takes the others. -/
theorem names_after {names : List String} {r : List Token} (h : NamesWritten names r)
    (hC : ∀ t, C t → t ≠ .symbol .comma) (n : Nat) : ∃ first rest, r = .name first :: rest ∧
      (rest = [] ∨ ∃ rest', rest = .symbol .comma :: rest') ∧
      Accepts n rest C (commaList name n [first]) (· = names) := by
  cases h with
  | one first => exact ⟨first, [], rfl, .inl rfl, Accepts.commaList_end hC n [first]⟩
  | cons first h =>
    refine ⟨first, _, rfl, .inr ⟨_, rfl⟩, ?_⟩
    have hitem (a : String) (r : List Token) (h : r = [.name a]) :
        Accepts n r (fun _ ↦ True) name fun a' ↦ id a' = id a := name_accepts a r h
    refine (Accepts.commaList (fun _ _ h ↦ h.inv) hitem trivial (fun t ht ↦ ⟨trivial, hC t ht⟩)
      (Nat.le_refl n) h [first]).mono fun all hall ↦ ?_
    simpa using hall

theorem path_accepts (hC : ∀ t, C t → t ≠ .symbol .dot) {n : Nat} (fields found : List String) :
    Accepts n (fields.flatMap fun field ↦ [.symbol .dot, .name field]) C (path n found)
      (· = found.reverse ++ fields) := by
  induction n generalizing fields found with
  | zero =>
    cases fields with
    | nil => exact .pure (by simp)
    | cons => exact .zero (by simp)
  | succ n ih =>
    unfold path
    cases fields with
    | nil => exact .eat_miss (by simpa using hC) (.pure (by simp))
    | cons field fields =>
      refine .eat_lt ?_
      rw [if_pos rfl]
      exact .name ((ih fields (field :: found)).mono (by simp))

theorem params_end {n : Nat} (found : List String) :
    Accepts n [.symbol .ellipsis] C (params n found) (· = (found.reverse, true)) := by
  cases n with
  | zero => exact .zero (by simp)
  | succ n => exact .eat (.pure rfl)

theorem params_names {names : List String} {ts tail : List Token} {variadic : Bool}
    (h : NamesWritten names ts) (htail : variadic = false ∧ tail = [] ∨
      variadic = true ∧ tail = [.symbol .comma, .symbol .ellipsis]) {n : Nat}
    (found : List String) : Accepts n (ts ++ tail) (· = .symbol .rparen) (params n found)
      (· = (found.reverse ++ names, variadic)) := by
  induction n generalizing names ts found with
  | zero => exact .zero (by cases h <;> simp)
  | succ n ih =>
    unfold Levels.params
    cases h with
    | one name =>
      refine .eat_miss (by simp) (.name ?_)
      rcases htail with ⟨rfl, rfl⟩ | ⟨rfl, rfl⟩
      · exact .eat_miss (by simp) (.pure (by simp))
      · exact .eat_lt ((params_end _).mono (by simp))
    | cons name h =>
      refine .eat_miss (by simp) (.name (.eat_lt ?_))
      exact (ih h (name :: found)).mono (by simp)

theorem params_accepts {names : List String} {variadic : Bool} {r : List Token}
    (h : ParamsWritten names variadic r) (hr : r ≠ []) {n : Nat} (found : List String) :
    Accepts n r (· = .symbol .rparen) (params n found) (· = (found.reverse ++ names, variadic)) := by
  cases h with
  | none => exact absurd rfl hr
  | variadic => exact (params_end found).mono (by simp)
  | named h => simpa using params_names h (.inl ⟨rfl, rfl⟩) found
  | namedVariadic h => exact params_names h (.inr ⟨rfl, rfl⟩) found

include hb

theorem Takes.expr (hl : below.left = left + 1) {e : Expr} {r : List Token}
    (h : e.Written True left r) :
    Accepts below.bound r (fun t ↦ t.endsExpr) below.expr fun e' ↦ e'.bare = e.bare := by
  have habove : e.Above 0 := by
    cases e <;> first | trivial | exact Nat.zero_le _
  exact (hb.operand hl h habove).weaken fun _ ht ↦
    ⟨borders_of_endsExpr ht e, stops_of_endsExpr ht 0⟩

theorem Takes.exprs (hl : below.left = left + 1) {es : List Expr} {r : List Token}
    (h : ExprsWritten True left es r) (hC : ∀ t, C t → t.endsExpr ∧ t ≠ .symbol .comma) :
    Accepts below.bound r C below.exprs fun es' ↦ es'.map Expr.bare = es.map Expr.bare :=
  .items (fun _ _ h ↦ h.inv) (fun _ _ h ↦ hb.expr hl h) rfl hC h

theorem Takes.functionBody {body : FunctionBody} {implicit : List String} {r : List Token}
    (h : body.Written True implicit below.left r) (pos : Position) :
    Accepts below.bound r C (below.functionBody implicit pos) fun b ↦ b.bare = body.bare := by
  generalize hl : below.left = k at h
  cases h with
  | mk implicit pos' hparams hbody =>
    rename_i left params variadic body ps ts
    unfold Levels.functionBody
    have hrest (q : List String × Bool) (hq : q = (implicit ++ params, variadic)) :
        Accepts below.bound (.symbol .rparen :: ts ++ [.keyword .kwEnd]) C (do
          expect (.symbol .rparen)
          let body ← below.block
          close (.keyword .kwEnd) (.keyword .kwFunction) pos
          return FunctionBody.mk q.1 q.2 body pos)
          fun b ↦ b.bare = (FunctionBody.mk (implicit ++ params) variadic body pos').bare := by
      subst hq
      refine .expect (.bind_cons (hb.block hl hbody) rfl fun body' hbody' ↦
        .close (.pure ?_))
      simp [FunctionBody.bare, hbody']
    simp only [List.cons_append, List.append_assoc]
    refine .expect ?_
    rcases hparams.start with ⟨rfl, rfl, rfl⟩ | ⟨t, ps', rfl, ht⟩
    · refine .sees_hit (by simp) ?_
      rw [if_pos rfl]
      exact hrest (implicit, false) (by simp)
    · refine .sees_miss (by simpa using ht) ?_
      rw [if_neg Bool.false_ne_true]
      have hparams := params_accepts (n := below.bound) hparams (by simp) implicit.reverse
      exact .bind_cons hparams rfl fun q hq ↦ hrest q (by simpa using hq)

theorem Takes.field {field : Field} {r : List Token} (h : field.Written True below.left r)
    (hC : ∀ t, C t → t.endsExpr ∧ t ≠ .symbol .assign) :
    Accepts below.bound r C below.field fun f ↦ f.bare = field.bare := by
  unfold Levels.field
  refine .get fun used rest hused hnext ↦ ?_
  generalize hl : below.left = k at h
  cases h with
  | item h =>
    obtain ⟨⟨t, ts, rfl, hstarts, -⟩, hsecond⟩ := h.starts
    obtain ⟨⟨t, pos⟩, used, rfl, rfl, rfl⟩ := List.map_eq_cons_iff.mp hused
    split
    · rename_i heq
      cases heq
      cases hstarts
    · rename_i name pos pos' after heq
      cases used with
      | nil =>
        simp only [List.cons_append, List.nil_append, List.cons.injEq] at heq
        rw [heq.2] at hnext
        exact absurd rfl (hC _ hnext).2
      | cons l used =>
        simp only [List.cons_append, List.cons.injEq] at heq
        obtain ⟨heq, rfl, -⟩ := heq
        cases heq
        exact absurd rfl (hsecond name (used.map Lexeme.token))
    · exact .last ((hb.expr hl h).weaken fun t ht ↦ (hC t ht).1) fun value' hvalue ↦
        .pure (by simp [Field.bare, hvalue])
  | named name pos h =>
    obtain ⟨⟨t, pos⟩, used, rfl, rfl, htail⟩ := List.map_eq_cons_iff.mp hused
    obtain ⟨⟨t, pos'⟩, used, rfl, rfl, rfl⟩ := List.map_eq_cons_iff.mp htail
    refine .skip (.skip (.last ((hb.expr hl h).weaken fun t ht ↦ (hC t ht).1) fun value' hvalue ↦
      .pure ?_))
    simp [Field.bare, Expr.bare, hvalue]
  | entry hkey hvalue =>
    obtain ⟨⟨t, pos⟩, used, rfl, rfl, -⟩ := List.map_eq_cons_iff.mp hused
    simp only [List.cons_append]
    refine .skip (.bind_cons (hb.expr hl hkey) rfl fun key' hkey' ↦
      .expect (.expect (.last ((hb.expr hl hvalue).weaken fun t ht ↦ (hC t ht).1)
        fun value' hvalue' ↦ .pure ?_)))
    simp [Field.bare, hkey', hvalue']

theorem Takes.fields {fields : List Field} {r : List Token}
    (h : FieldsWritten True below.left fields r) {n : Nat} (hn : n ≤ below.bound)
    (found : List Field) :
    Accepts n r (· = .symbol .rbrace) (below.fields n found)
      fun fs ↦ fs.map Field.bare = found.reverse.map Field.bare ++ fields.map Field.bare := by
  induction n generalizing fields r found with
  | zero =>
    cases h with
    | none => exact .pure (by simp)
    | last h => exact .zero h.ne_nil
    | cons mark hmark h hs => exact .zero (by simp)
  | succ n ih =>
    unfold Levels.fields
    cases h with
    | none =>
      exact .sees_hit (by simp) (.pure (by simp))
    | last h =>
      refine .sees_miss h.begins.ahead ?_
      rw [if_neg Bool.false_ne_true]
      refine .last ((hb.field h ?_).of_le hn) fun field' hfield ↦ ?_
      · rintro t rfl
        exact ⟨rfl, by simp⟩
      · exact .eat_miss (by simp) (.eat_miss (by simp) (.pure (by simp [hfield])))
    | cons mark hmark h hs =>
      rename_i field fields ts ts'
      refine .sees_miss (h.begins.append _).ahead ?_
      rw [if_neg Bool.false_ne_true]
      have hends : (Token.symbol mark).endsExpr ∧ Token.symbol mark ≠ .symbol .assign := by
        rcases hmark with rfl | rfl <;> exact ⟨rfl, by simp⟩
      refine .bind_cons (D := (· = .symbol mark)) ((hb.field h ?_).of_le hn) rfl
        fun field' hfield ↦ ?_
      · rintro t rfl
        exact hends
      · have hmore : Accepts n ts' (· = .symbol .rbrace) (below.fields n (field' :: found))
            fun fs ↦ fs.map Field.bare =
              found.reverse.map Field.bare ++ (field :: fields).map Field.bare :=
          (ih hs (by omega) (field' :: found)).mono fun fs h ↦ h.trans (by simp [hfield])
        rcases hmark with rfl | rfl
        · exact .eat_lt hmore
        · exact .eat_miss (by simp) (.eat_lt hmore)

theorem Takes.table {fields : List Field} {pos : Position} {r : List Token}
    (h : (Expr.table fields pos).Written True below.left r) :
    Accepts below.bound r C below.table fun e ↦ e.bare = (Expr.table fields pos).bare := by
  generalize hl : below.left = k at h
  cases h with
  | table pos h =>
    subst hl
    simp only [List.cons_append]
    refine .here fun pos ↦ .expect ?_
    exact .bind_cons (hb.fields h (Nat.le_refl _) []) rfl fun fields' hfields ↦
      .close (.pure (by simpa [Expr.bare, bareFields_eq] using hfields))

theorem Takes.callArgs {args : List Expr} {r : List Token}
    (h : ArgsWritten True below.left args r) :
    Accepts below.bound r C below.callArgs fun as ↦ as.map Expr.bare = args.map Expr.bare := by
  unfold Levels.callArgs
  generalize hl : below.left = k at h
  cases h with
  | string value pos => exact .peek_cons fun pos ↦ .skip (.pure rfl)
  | table pos h =>
    subst hl
    obtain ⟨ts, rfl⟩ : ∃ ts, r = .symbol .lbrace :: ts := by
      generalize below.left = k at h
      cases h with | table pos h => exact ⟨_, rfl⟩
    exact .peek_cons fun pos ↦ .last (hb.table h) fun e he ↦ .pure (by simp [he])
  | none =>
    refine .peek_cons fun pos ↦ .skip (.sees_hit (by simp) ?_)
    rw [if_pos rfl]
    rw [pure_bind]
    exact .close (.pure rfl)
  | some h =>
    simp only [List.cons_append]
    refine .peek_cons fun pos ↦ .skip (.sees_miss ((h.begins.ahead_ne rfl).append _).ahead ?_)
    rw [if_neg Bool.false_ne_true]
    refine .bind_cons (D := (· = .symbol .rparen)) (hb.exprs hl h ?_) rfl fun args' hargs ↦ ?_
    · rintro t rfl
      exact ⟨rfl, by simp⟩
    · exact .close (.pure hargs)

theorem Takes.primary {e : Expr} {r : List Token} (h : e.Written True below.left r)
    (hhead : e.isPrefix) (hlinks : e.links = 0) :
    Accepts below.bound r C below.primary fun e' ↦ e'.bare = e.bare := by
  unfold Levels.primary
  generalize hl : below.left = k at h
  cases h with
  | name left name pos => exact .peek_cons fun pos ↦ .skip (.pure rfl)
  | paren pos h =>
    simp only [List.cons_append]
    exact .peek_cons fun pos ↦ .skip (.bind_cons (hb.expr hl h) rfl fun inner hinner ↦
      .close (.pure (by simp [Expr.bare, hinner])))
  | nil | true | false | int | float | string | varargs | function | table | binary | unary =>
    cases hhead
  | member | index | call | method => cases hlinks

section Suffixes

variable {n m k : Nat} {object : Expr} {r : List Token} {S : Expr → Prop} (hk : k ≤ below.left)

include hk

omit hb in
theorem suffixes_member {key : String} (hrest : ∀ keyPos pos, Accepts n r C
      (below.suffixes m (k + 1) (.index object (.string (Bytes.ofText key) keyPos) pos)) S) :
    Accepts n (.symbol .dot :: .name key :: r) C (below.suffixes (m + 1) k object) S := by
  unfold Levels.suffixes
  exact allow_accepts hk (.peek_cons fun pos ↦ .skip (.here fun keyPos ↦ .name (hrest keyPos pos)))

theorem Takes.suffixes_index (hn : n ≤ below.bound) (hl : below.left = left + 1) {key : Expr}
    {ks : List Token} (hkey : key.Written True left ks)
    (hrest : ∀ key' pos, key'.bare = key.bare →
      Accepts n r C (below.suffixes m (k + 1) (.index object key' pos)) S) :
    Accepts n (.symbol .lbracket :: ks ++ .symbol .rbracket :: r) C
      (below.suffixes (m + 1) k object) S := by
  unfold Levels.suffixes
  exact allow_accepts hk (.peek_cons fun pos ↦ .skip (.bind_cons ((hb.expr hl hkey).of_le hn) rfl
    fun key' hkey' ↦ .expect (hrest key' pos hkey')))

theorem Takes.suffixes_method (hn : n ≤ below.bound) {name : String} {args : List Expr}
    {as : List Token} (hargs : ArgsWritten True below.left args as)
    (hrest : ∀ args' pos, args'.map Expr.bare = args.map Expr.bare →
      Accepts n r C (below.suffixes m (k + 1) (.method object name args' pos)) S) :
    Accepts n (.symbol .colon :: .name name :: as ++ r) C (below.suffixes (m + 1) k object) S := by
  unfold Levels.suffixes
  refine allow_accepts hk (.peek_cons fun pos ↦ .skip (.name ?_))
  exact .bind (D := fun _ ↦ True) ((hb.callArgs hargs).of_le hn) (fun _ _ ↦ trivial)
    fun args' hargs' ↦ hrest args' pos hargs'

theorem Takes.suffixes_call (hn : n ≤ below.bound) {args : List Expr} {as : List Token}
    (hargs : ArgsWritten True below.left args as)
    (hrest : ∀ args' pos, args'.map Expr.bare = args.map Expr.bare →
      Accepts n r C (below.suffixes m (k + 1) (.call object args' pos)) S) :
    Accepts n (as ++ r) C (below.suffixes (m + 1) k object) S := by
  unfold Levels.suffixes
  refine allow_accepts hk ?_
  have hcall (pos : Position) : Accepts n (as ++ r) C (do
      let args ← below.callArgs
      below.suffixes m (k + 1) (.call object args pos)) S :=
    .bind (D := fun _ ↦ True) ((hb.callArgs hargs).of_le hn) (fun _ _ ↦ trivial)
      fun args' hargs' ↦ hrest args' pos hargs'
  generalize below.left = left at hargs
  cases hargs with
  | string value pos => exact .peek_cons hcall
  | table pos h => cases h with | table pos h => exact .peek_cons hcall
  | none => exact .peek_cons hcall
  | some h => exact .peek_cons hcall

end Suffixes

/-- After a primary expression and its suffixes the parser looks for more of them. -/
theorem Takes.suffixed_of {e : Expr} {r r' : List Token} {S : Expr → Prop}
    (h : e.Written True below.left r) (he : e.isPrefix) (hr : e.links ≤ below.bound)
    (hrest : ∀ e', e'.bare = e.bare →
      Accepts below.bound r' C (below.suffixes (below.bound + 1 - e.links) e.links e') S) :
    Accepts below.bound (r ++ r') C below.suffixed S := by
  induction hk : e.links generalizing e r r' with
  | zero =>
    rw [hk] at hrest
    exact .bind (D := fun _ ↦ True) (hb.primary h he hk) (fun _ _ ↦ trivial) hrest
  | succ k ih =>
    rw [hk] at hr
    have hfuel : below.bound + 1 - k = below.bound + 1 - (k + 1) + 1 := by omega
    rw [hk] at hrest
    generalize hl : below.left = left at h
    cases h with
    | member key keyPos pos hhead hlinks hobject =>
      subst hl
      obtain rfl : _ = k := Nat.succ.inj hk
      rw [List.append_assoc]
      refine ih hobject hhead (by omega) (fun o' ho ↦ ?_) rfl
      rw [hfuel]
      exact suffixes_member (Nat.le_of_lt hlinks) fun keyPos' pos' ↦
        hrest _ (by simp [Expr.bare, ho])
    | index pos hhead hlinks hobject hkey =>
      obtain rfl : _ = k := Nat.succ.inj hk
      rw [List.append_assoc, List.append_assoc]
      refine ih (hl ▸ hobject) hhead (by omega) (fun o' ho ↦ ?_) rfl
      rw [hfuel]
      exact hb.suffixes_index (by omega) (Nat.le_refl _) hl hkey fun key' pos' hkey' ↦
        hrest _ (by simp [Expr.bare, ho, hkey'])
    | call pos hhead hlinks hcallee hargs =>
      subst hl
      obtain rfl : _ = k := Nat.succ.inj hk
      rw [List.append_assoc]
      refine ih hcallee hhead (by omega) (fun o' ho ↦ ?_) rfl
      rw [hfuel]
      exact hb.suffixes_call (Nat.le_of_lt hlinks) (Nat.le_refl _) hargs fun args' pos' hargs' ↦
        hrest _ (by simp [Expr.bare, bareExprs_eq, ho, hargs'])
    | method name pos hhead hlinks hobject hargs =>
      subst hl
      obtain rfl : _ = k := Nat.succ.inj hk
      rw [List.append_assoc]
      refine ih hobject hhead (by omega) (fun o' ho ↦ ?_) rfl
      rw [hfuel]
      exact hb.suffixes_method (Nat.le_of_lt hlinks) (Nat.le_refl _) hargs fun args' pos' hargs' ↦
        hrest _ (by simp [Expr.bare, bareExprs_eq, ho, hargs'])
    | nil | true | false | int | float | string | varargs | function | table | binary | unary =>
      cases he
    | name | paren => cases hk

theorem Takes.suffixed {e : Expr} {r : List Token} (h : e.Written True below.left r)
    (he : e.isPrefix) (hC : ∀ t, C t → t.opensSuffix = false) :
    Accepts below.bound r C below.suffixed fun e' ↦ e'.bare = e.bare := by
  refine .of_length fun hr ↦ ?_
  have hlinks := h.links_lt
  have hroom : e.links ≤ below.left := h.links_le
  rw [← List.append_nil r]
  refine hb.suffixed_of h he (by omega) fun e' he' ↦ ?_
  obtain ⟨m, hm⟩ : ∃ m, below.bound + 1 - e.links = m + 1 := ⟨below.bound - e.links, by omega⟩
  rw [hm]
  unfold Levels.suffixes
  refine allow_accepts hroom (.peek fun l hl ↦ ?_)
  have hclosed := hC _ (ahead_nil.mp hl)
  obtain ⟨t, pos⟩ := l
  dsimp only
  split <;> first | exact .pure he' | cases hclosed

theorem Takes.simple {e : Expr} {r : List Token} (h : e.Written True below.left r)
    (he : e.isSimple) (hC : ∀ t, C t → t.opensSuffix = false) :
    Accepts below.bound r C below.simple fun e' ↦ e'.bare = e.bare := by
  unfold Levels.simple
  have hsuffixed (hp : e.isPrefix) := hb.suffixed h hp hC
  have hstarts := h.starts.expr
  generalize hl : below.left = k at h
  cases h with
  | nil | true | false | string | varargs => exact .peek_cons fun pos ↦ .skip (.pure rfl)
  | int _ _ hvalue =>
    refine .peek_cons fun pos ↦ .skip ?_
    rw [hvalue]
    exact .pure rfl
  | float _ _ hvalue =>
    refine .peek_cons fun pos ↦ .skip ?_
    rw [hvalue]
    exact .pure rfl
  | function h =>
    subst hl
    exact .peek_cons fun pos ↦ .skip (.last (hb.functionBody h pos) fun body' hbody ↦
      .pure (by simp [Expr.bare, hbody]))
  | table pos h =>
    subst hl
    exact .peek_cons fun _ ↦ hb.table (.table pos h)
  | name | paren => exact .peek_cons fun _ ↦ hsuffixed rfl
  | member | index | call | method =>
    obtain ⟨t, rest, hr, -, ht⟩ := hstarts
    rw [hr] at hsuffixed ⊢
    refine .peek_cons fun pos ↦ ?_
    dsimp only
    split <;> first | exact hsuffixed rfl | cases ht rfl
  | binary | unary => cases he

/-- After an operand and the operators that follow it the parser looks for more of them. -/
theorem Takes.operandBody_of {power : Nat} {e : Expr} {r r' : List Token} {S : Expr → Prop}
    (h : e.Written True below.left r) (habove : e.Above power) (hr : e.chain ≤ below.bound)
    (hnext : ∀ t, Ahead r' C t → Borders e t)
    (hrest : ∀ e', e'.bare = e.bare →
      Accepts below.bound r' C (below.infixes power (below.bound - e.chain) e.chain e') S) :
    Accepts below.bound (r ++ r') C (below.operandBody power) S := by
  induction hk : e.chain generalizing e r r' with
  | zero =>
    rw [hk] at hrest
    unfold Levels.operandBody
    by_cases he : e.isSimple
    · refine .peek fun l hl ↦ ?_
      have hnone := (h.simple_begins he).append r' |>.ahead _ hl
      dsimp only
      rw [hnone]
      exact .bind (hb.simple h he fun t ht ↦ ht) (fun t ht ↦ (hnext t ht).1) hrest
    · generalize hl : below.left = left at h
      cases h with
      | unary op pos hu h =>
        refine .peek_cons fun pos ↦ ?_
        dsimp only
        rw [unaryOp?_token]
        simp only [pure_bind]
        refine .skip (.bind (hb.operand hl h (underUnary_iff.mp hu)) (fun t ht ↦ (hnext t ht).unary hu)
          fun operand' hoperand ↦ hrest _ (by simp [Expr.bare, hoperand]))
      | binary => cases hk
      | _ => exact absurd rfl he
  | succ k ih =>
    rw [hk] at hr hrest
    generalize hl : below.left = left at h
    cases h with
    | binary op pos hchain hleft hright hlhs hrhs =>
      rename_i left lhs rhs ls rs
      obtain rfl : lhs.chain = k := Nat.succ.inj hk
      obtain ⟨m, hm⟩ : ∃ m, below.bound - lhs.chain = m + 1 := ⟨below.bound - (lhs.chain + 1), by omega⟩
      have hm' : below.bound - (lhs.chain + 1) = m := by omega
      rw [List.append_assoc]
      refine ih (hl ▸ hlhs) (above_of_leftOf hleft habove) (by omega) (fun t ht ↦ ?_)
        (fun lhs' hlhs' ↦ ?_) rfl
      · obtain rfl := ahead_cons.mp ht
        refine ⟨by cases op <;> rfl, fun o ho ↦ ?_⟩
        exact token_injective ho ▸ hleft
      · rw [hm]
        unfold Levels.infixes
        refine .peek_cons fun pos' ↦ ?_
        dsimp only
        rw [binaryOp?_token]
        dsimp only
        rw [if_neg (Nat.not_lt.mpr habove)]
        refine allow_accepts (by omega) (.skip (.bind (hb.operand hl hrhs (rightOf_iff.mp hright))
          (fun t ht ↦ (hnext t ht).right hright) fun rhs' hrhs' ↦ ?_))
        rw [hm'] at hrest
        exact hrest _ (by simp [Expr.bare, hlhs', hrhs'])
    | _ => cases hk

theorem Takes.operandBody {power : Nat} {e : Expr} {r : List Token}
    (h : e.Written True below.left r) (habove : e.Above power) :
    Accepts below.bound r (fun t ↦ Borders e t ∧ Stops power t) (below.operandBody power)
      fun e' ↦ e'.bare = e.bare := by
  refine .of_length fun hr ↦ ?_
  have hchain := h.chain_lt
  rw [← List.append_nil r]
  refine hb.operandBody_of h habove (by omega) (fun t ht ↦ (ahead_nil.mp ht).1) fun e' he' ↦ ?_
  cases hm : below.bound - e.chain with
  | zero => exact .pure he'
  | succ m =>
    unfold Levels.infixes
    refine .peek fun l hl ↦ ?_
    have hstops := (ahead_nil.mp hl).2
    dsimp only
    split
    · rename_i op left right hop
      obtain ⟨htoken, rfl, rfl⟩ := of_binaryOp? hop
      rw [if_pos (hstops op htoken)]
      exact .pure he'
    · exact .pure he'

theorem Takes.returnStmt {values : List Expr} {r marks : List Token} (pos : Position)
    (h : ReturnedWritten True below.left values r)
    (hmarks : marks = [.symbol .semicolon] ∨ ¬True ∧ marks = []) :
    Accepts below.bound (.keyword .kwReturn :: r ++ marks) (fun t ↦ t.closes) below.returnStmt
      fun s ↦ s.bare = (Stmt.returnValues values pos).bare := by
  obtain rfl : marks = [.symbol .semicolon] := by simpa using hmarks
  unfold Levels.returnStmt
  refine .here fun pos' ↦ .expect ?_
  have hrest (values' : List Expr) (hvalues : values'.map Expr.bare = values.map Expr.bare) :
      Accepts below.bound [.symbol .semicolon] (fun t ↦ t.closes) (do
        let _ ← eat (.symbol .semicolon)
        unless ← blockEnds do unexpected "end"
        return Stmt.returnValues values' pos')
        fun s ↦ s.bare = (Stmt.returnValues values pos).bare := by
    refine .eat (.blockEnds_hit (by simp) ?_)
    dsimp only
    rw [if_pos rfl]
    exact .pure (by simp [Stmt.bare, bareExprs_eq, hvalues])
  generalize hl : below.left = k at h
  cases h with
  | none =>
    refine .blockEnds_miss (by simp [Token.closes]) (.sees_hit (by simp) ?_)
    simp only [Bool.or_true, if_true]
    rw [pure_bind]
    exact hrest [] rfl
  | some h =>
    have hmarks (C : Token → Prop) := (h.begins.append [.symbol .semicolon]).ahead (C := C)
    refine .blockEnds_miss (fun t ht ↦ Token.closes_of_startsExpr (hmarks _ t ht))
      (.sees_miss ((h.begins.ahead_ne rfl).append _).ahead ?_)
    simp only [Bool.or_false, Bool.false_eq_true, if_false]
    refine .bind_cons (D := (· = .symbol .semicolon)) (hb.exprs hl h ?_) rfl hrest
    rintro t rfl
    exact ⟨rfl, by simp⟩

theorem Takes.guarded (hl : below.left = left + 1) {branch : Branch} {r : List Token}
    (h : branch.Written True left r) :
    Accepts below.bound r (fun t ↦ t.closes) below.guarded fun b ↦ b.bare = branch.bare := by
  cases h with
  | mk hcond hbody =>
    exact .bind_cons (hb.expr hl hcond) rfl fun cond' hcond' ↦ .expect
      (.last (hb.block hl hbody) fun body' hbody' ↦ .pure (by simp [Branch.bare, hcond', hbody']))

theorem Takes.branches_end (hl : below.left = left + 1) {otherwise : Option Block}
    {os : List Token} (ho : OtherwiseWritten True left otherwise os) {n m : Nat}
    (hn : n ≤ below.bound) (pos pos' : Position) (found : List Branch) :
    Accepts n (os ++ [.keyword .kwEnd]) C (below.branches pos (m + 1) found)
      fun s ↦ s.bare = (Stmt.branch found.reverse otherwise pos').bare := by
  unfold Levels.branches
  cases ho with
  | none =>
    refine .eat_miss (by simp) ?_
    rw [if_neg Bool.false_ne_true]
    refine .eat_miss (by simp) ?_
    rw [if_neg Bool.false_ne_true, pure_bind]
    exact .close (.pure rfl)
  | some h =>
    rename_i block ts
    refine .eat_miss (by simp) ?_
    rw [if_neg Bool.false_ne_true]
    refine .eat ?_
    rw [if_pos rfl]
    have hblock := (hb.block hl h).of_le hn
    refine .bind_cons (R := fun o ↦ o.map Block.bare = some block.bare) (.map (hblock.mono fun b hb ↦ ?_))
      rfl fun o ho ↦ .close (.pure ?_)
    · exact congrArg some hb
    · simp [Stmt.bare, bareOtherwise_eq, ho]

theorem Takes.branches_more (hl : below.left = left + 1) {otherwise : Option Block}
    {os : List Token} (ho : OtherwiseWritten True left otherwise os) {next : Branch}
    {rest : List Branch} {bs : List Token} (h : BranchesWritten True left next rest bs) {n : Nat}
    (hn : n ≤ below.bound) (pos pos' : Position) (found : List Branch) :
    Accepts n (.keyword .kwElseif :: bs ++ (os ++ [.keyword .kwEnd])) C
      (below.branches pos (n + 1) found)
      fun s ↦ s.bare = (Stmt.branch (found.reverse ++ next :: rest) otherwise pos').bare := by
  have hcloses := ho.begins
  induction n generalizing next rest bs found with
  | zero => exact .zero (by simp)
  | succ n ih =>
    unfold Levels.branches
    cases h with
    | one h =>
      refine .eat_lt ?_
      rw [if_pos rfl]
      refine .bind ((hb.guarded hl h).of_le (by omega)) hcloses.ahead fun branch hbranch ↦ ?_
      refine (hb.branches_end hl ho (by omega) pos pos' (branch :: found)).mono fun s hs ↦ ?_
      simp [hs, Stmt.bare, bareBranches_eq, hbranch]
    | cons h hs =>
      simp only [List.cons_append, List.append_assoc]
      refine .eat_lt ?_
      rw [if_pos rfl]
      refine .bind_cons ((hb.guarded hl h).of_le (by omega)) rfl fun branch hbranch ↦ ?_
      refine (ih hs (by omega) (branch :: found)).mono fun s hs ↦ ?_
      simp [hs, Stmt.bare, bareBranches_eq, hbranch]

theorem Takes.branchStmt {first : Branch} {rest : List Branch} {otherwise : Option Block}
    {bs os : List Token} (pos : Position) (hl : below.left = left + 1)
    (h : BranchesWritten True left first rest bs) (ho : OtherwiseWritten True left otherwise os) :
    Accepts below.bound (.keyword .kwIf :: bs ++ os ++ [.keyword .kwEnd]) C below.branchStmt
      fun s ↦ s.bare = (Stmt.branch (first :: rest) otherwise pos).bare := by
  simp only [List.cons_append, List.append_assoc]
  refine .here fun pos' ↦ .expect ?_
  cases h with
  | one h =>
    refine .bind (hb.guarded hl h) ho.begins.ahead fun branch hbranch ↦ ?_
    refine (hb.branches_end hl ho (Nat.le_refl _) pos' pos [branch]).mono fun s hs ↦ ?_
    simp [hs, Stmt.bare, bareBranches_eq, hbranch]
  | cons h hs =>
    simp only [List.cons_append, List.append_assoc]
    refine .bind_cons (hb.guarded hl h) rfl fun branch hbranch ↦ ?_
    refine (hb.branches_more hl ho hs (Nat.le_refl _) pos' pos [branch]).mono fun s hs ↦ ?_
    simp [hs, Stmt.bare, bareBranches_eq, hbranch]

theorem Takes.loopBody (hl : below.left = left + 1) {body : Block} {r : List Token}
    (h : body.Written True left r) (pos : Position) :
    Accepts below.bound (.keyword .kwDo :: r ++ [.keyword .kwEnd]) C (below.loopBody pos)
      fun b ↦ b.bare = body.bare :=
  .expect (.bind_cons (hb.block hl h) rfl fun _ hbody ↦ .close (.pure hbody))

theorem Takes.numericFor (hl : below.left = left + 1) {start limit : Expr} {step : Option Expr}
    {body : Block} {ss ls cs ts : List Token} (var : String) (pos : Position)
    (hstart : start.Written True left ss) (hlimit : limit.Written True left ls)
    (hstep : StepWritten True left step cs) (hbody : body.Written True left ts) :
    Accepts below.bound (.keyword .kwFor :: .name var :: .symbol .assign :: ss ++
      .symbol .comma :: ls ++ cs ++ .keyword .kwDo :: ts ++ [.keyword .kwEnd]) C below.forStmt
      fun s ↦ s.bare = (Stmt.numericFor var start limit step body pos).bare := by
  simp only [List.cons_append, List.append_assoc]
  unfold Levels.forStmt
  refine .here fun pos' ↦ .expect (.name (.eat ?_))
  rw [if_pos rfl]
  refine .bind_cons (hb.expr hl hstart) rfl fun start' hstart' ↦ .expect ?_
  have hloop (limit' : Expr) (hlimit' : limit'.bare = limit.bare) (step' : Option Expr)
      (hstep' : step'.map Expr.bare = step.map Expr.bare) :
      Accepts below.bound (.keyword .kwDo :: (ts ++ [.keyword .kwEnd])) C (do
        let body ← below.loopBody pos'
        return Stmt.numericFor var start' limit' step' body pos')
        fun s ↦ s.bare = (Stmt.numericFor var start limit step body pos).bare :=
    .last (hb.loopBody hl hbody pos') fun body' hbody' ↦ .pure (by
      simp [Stmt.bare, bareStep_eq, hstart', hlimit', hstep', hbody'])
  cases hstep with
  | none =>
    refine .bind_cons (hb.expr hl hlimit) rfl fun limit' hlimit' ↦ .eat_miss (by simp) ?_
    rw [if_neg Bool.false_ne_true, pure_bind]
    exact hloop limit' hlimit' none rfl
  | some h =>
    rename_i step ks
    refine .bind_cons (hb.expr hl hlimit) rfl fun limit' hlimit' ↦ .eat ?_
    rw [if_pos rfl]
    refine .bind_cons (D := fun t ↦ t.endsExpr) (R := fun o ↦ o.map Expr.bare = some step.bare)
      (.map ((hb.expr hl h).mono fun e he ↦ ?_)) rfl (hloop limit' hlimit')
    exact congrArg some he

theorem Takes.genericFor (hl : below.left = left + 1) {names : List String} {values : List Expr}
    {body : Block} {ns vs ts : List Token} (pos : Position) (hnames : NamesWritten names ns)
    (hvalues : ExprsWritten True left values vs) (hbody : body.Written True left ts) :
    Accepts below.bound (.keyword .kwFor :: ns ++ .keyword .kwIn :: vs ++ .keyword .kwDo :: ts ++
      [.keyword .kwEnd]) C below.forStmt
      fun s ↦ s.bare = (Stmt.genericFor names values body pos).bare := by
  simp only [List.cons_append, List.append_assoc]
  unfold Levels.forStmt
  refine .here fun pos' ↦ .expect ?_
  have hloop (values' : List Expr) (hvalues' : values'.map Expr.bare = values.map Expr.bare) :
      Accepts below.bound (.keyword .kwDo :: (ts ++ [.keyword .kwEnd])) C (do
        let body ← below.loopBody pos'
        return Stmt.genericFor names values' body pos')
        fun s ↦ s.bare = (Stmt.genericFor names values body pos).bare :=
    .last (hb.loopBody hl hbody pos') fun body' hbody' ↦ .pure (by
      simp [Stmt.bare, bareExprs_eq, hvalues', hbody'])
  obtain ⟨first, rest, rfl, hrest, hall⟩ :=
    names_after (C := (· = .keyword .kwIn)) hnames (by simp) below.bound
  have hassign : Begins (· ≠ .symbol .assign) (rest ++ .keyword .kwIn ::
      (vs ++ .keyword .kwDo :: (ts ++ [.keyword .kwEnd]))) := by
    rcases hrest with rfl | ⟨rest', rfl⟩ <;> exact ⟨_, _, rfl, by simp⟩
  refine .name (.eat_miss hassign.ahead ?_)
  rw [if_neg Bool.false_ne_true]
  refine .bind_cons hall rfl fun names' hnames' ↦ .eat ?_
  dsimp only
  rw [if_pos rfl, hnames']
  refine .bind_cons (D := (· = .keyword .kwDo)) (hb.exprs hl hvalues ?_) rfl hloop
  rintro t rfl
  exact ⟨rfl, by simp⟩

theorem Takes.functionStmt {name : FunctionName} {body : FunctionBody} {ts : List Token}
    (pos : Position) (h : body.Written True name.implicit below.left ts) :
    Accepts below.bound (.keyword .kwFunction :: name.tokens ++ ts) C below.functionStmt
      fun s ↦ s.bare = (Stmt.defineFunction name body pos).bare := by
  obtain ⟨first, fields, method⟩ := name
  simp only [FunctionName.tokens, List.cons_append, List.append_assoc]
  refine .here fun pos' ↦ .expect (.name ?_)
  have hparen : Begins (· = .symbol .lparen) ts := by
    generalize below.left = k at h
    cases h with | mk => exact ⟨_, _, rfl, rfl⟩
  have hpath (C : Token → Prop) (hC : ∀ t, C t → t ≠ .symbol .dot) :=
    path_accepts (C := C) (n := below.bound) hC fields []
  have hbody (E : Token → Prop) : Accepts below.bound ts E (do
      let implicit := if method.isSome then ["self"] else []
      return Stmt.defineFunction ⟨first, fields, method⟩ (← below.functionBody implicit pos') pos')
      fun s ↦ s.bare = (Stmt.defineFunction ⟨first, fields, method⟩ body pos).bare :=
    .last (hb.functionBody h pos') fun body' hbody' ↦ .pure (by simp [Stmt.bare, hbody'])
  cases method with
  | none =>
    refine .bind (hpath (· = .symbol .lparen) (by simp)) hparen.ahead ?_
    rintro fields' rfl
    refine .eat_miss (fun t ht ↦ ?_) ?_
    · simp [hparen.ahead t ht]
    · rw [if_neg Bool.false_ne_true, pure_bind]
      exact hbody _
  | some m =>
    refine .bind_cons (hpath (· = .symbol .colon) (by simp)) rfl ?_
    rintro fields' rfl
    refine .eat ?_
    rw [if_pos rfl]
    refine .bind (R := (· = some m)) (.map (.mono (.named m) fun a ha ↦ congrArg some ha))
      (D := fun _ ↦ True) (fun _ _ ↦ trivial) ?_
    rintro method' rfl
    exact hbody _

theorem Takes.localStmt_function {body : FunctionBody} {ts : List Token} (name : String)
    (pos : Position) (h : body.Written True [] below.left ts) :
    Accepts below.bound (.keyword .kwLocal :: .keyword .kwFunction :: .name name :: ts) C
      below.localStmt fun s ↦ s.bare = (Stmt.declareFunction name body pos).bare := by
  refine .here fun pos' ↦ .expect (.eat ?_)
  rw [if_pos rfl]
  exact .name (.last (hb.functionBody h pos') fun body' hbody' ↦
    .pure (by simp [Stmt.bare, hbody']))

theorem Takes.localStmt {names : List String} {values : List Expr} {ns vs : List Token}
    (pos : Position) (hnames : NamesWritten names ns)
    (hvalues : values = [] ∧ vs = [] ∨ ∃ left ts, below.left = left + 1 ∧
      vs = .symbol .assign :: ts ∧ ExprsWritten True left values ts) :
    Accepts below.bound (.keyword .kwLocal :: ns ++ vs) (· = .symbol .semicolon)
      below.localStmt fun s ↦ s.bare = (Stmt.declare names values pos).bare := by
  refine .here fun pos' ↦ .expect (.eat_miss ?_ ?_)
  · cases hnames <;> simp
  · rw [if_neg Bool.false_ne_true]
    rcases hvalues with ⟨rfl, rfl⟩ | ⟨left, ts, hl, rfl, hvalues⟩
    · refine .bind (names_accepts hnames (C := (· = .symbol .semicolon)) (by simp)) (by simp) ?_
      rintro names' rfl
      refine .eat_miss (by simp) ?_
      rw [if_neg Bool.false_ne_true, pure_bind]
      exact .pure rfl
    · refine .bind_cons (names_accepts hnames (C := (· = .symbol .assign)) (by simp)) rfl ?_
      rintro names' rfl
      refine .eat ?_
      rw [if_pos rfl]
      refine .last (hb.exprs hl hvalues ?_) fun values' hvalues' ↦
        .pure (by simp [Stmt.bare, bareExprs_eq, hvalues'])
      rintro t rfl
      exact ⟨rfl, by simp⟩

theorem Takes.exprStmt_call {call : Expr} {r : List Token} (hcall : call.isCall)
    (h : call.Written True below.left r) :
    Accepts below.bound r (· = .symbol .semicolon) below.exprStmt
      fun s ↦ s.bare = (Stmt.call call).bare := by
  unfold Levels.exprStmt
  have hp := Expr.isPrefix_of_isCall hcall
  refine .here fun pos' ↦ ?_
  refine .last (hb.suffixed h hp (by rintro t rfl; rfl)) fun first hfirst ↦ ?_
  refine .sees_miss (by simp) (.sees_miss (by simp) ?_)
  have hcall' : first.isCall := by rw [← Expr.isCall_bare, hfirst, Expr.isCall_bare, hcall]
  dsimp only
  rw [Bool.or_false, if_neg Bool.false_ne_true, if_pos hcall']
  exact .pure (by simp [Stmt.bare, hfirst])

/-- What is read after the targets of an assignment. -/
theorem Takes.exprStmt_store (hl : below.left = left + 1) {targets targets' values : List Expr}
    {vs : List Token} (pos pos' : Position) (hassignable : ∀ t ∈ targets, t.isAssignable)
    (htargets : targets'.map Expr.bare = targets.map Expr.bare)
    (hvalues : ExprsWritten True left values vs) :
    Accepts below.bound (.symbol .assign :: vs) (· = .symbol .semicolon) (do
      if let some target := targets'.find? fun t ↦ !t.isAssignable then
        failAt target.pos .notAssignable
      expect (.symbol .assign)
      return Stmt.assign targets' (← below.exprs) pos')
      fun s ↦ s.bare = (Stmt.assign targets values pos).bare := by
  have hnone : targets'.find? (fun t ↦ !t.isAssignable) = none := by
    refine List.find?_eq_none.mpr fun t' ht' ↦ ?_
    obtain ⟨t, ht, hbare⟩ := List.mem_map.mp (htargets ▸ List.mem_map_of_mem ht')
    rw [← Expr.isAssignable_bare, ← hbare, Expr.isAssignable_bare, hassignable t ht]
    simp
  rw [hnone]
  refine .expect (.last (hb.exprs hl hvalues ?_) fun values' hvalues' ↦
    .pure (by simp [Stmt.bare, bareExprs_eq, htargets, hvalues']))
  rintro t rfl
  exact ⟨rfl, by simp⟩

theorem Takes.exprStmt_assign (hl : below.left = left + 1) {targets values : List Expr}
    {ts vs : List Token} (pos : Position) (hassignable : ∀ t ∈ targets, t.isAssignable)
    (htargets : ExprsWritten True (left + 1) targets ts)
    (hvalues : ExprsWritten True left values vs) :
    Accepts below.bound (ts ++ .symbol .assign :: vs) (· = .symbol .semicolon) below.exprStmt
      fun s ↦ s.bare = (Stmt.assign targets values pos).bare := by
  unfold Levels.exprStmt
  refine .here fun pos' ↦ ?_
  have hitem (t : Expr) (r : List Token) (ht : t.Written True below.left r ∧ t.isAssignable) :
      Accepts below.bound r (fun t ↦ t.opensSuffix = false) below.suffixed
        fun t' ↦ t'.bare = t.bare :=
    hb.suffixed ht.1 (Expr.isPrefix_of_isAssignable ht.2) fun _ h ↦ h
  rw [← hl] at htargets
  rcases htargets.inv with ⟨target, rfl, h⟩ | ⟨target, rest, ns, rs, rfl, rfl, h, hrest⟩
  · refine .bind_cons (hitem target ts ⟨h, hassignable _ (by simp)⟩) rfl fun first hfirst ↦ ?_
    refine .sees_hit (by simp) (.sees_miss (by simp) ?_)
    dsimp only
    rw [Bool.or_false, if_pos rfl]
    refine .bind (Accepts.commaList_end (C := (· = .symbol .assign)) (by simp) _ [first]) (by simp) ?_
    rintro targets' rfl
    exact hb.exprStmt_store hl pos pos' hassignable (by simp [hfirst]) hvalues
  · simp only [List.append_assoc, List.cons_append]
    refine .bind_cons (hitem target ns ⟨h, hassignable _ (by simp)⟩) rfl fun first hfirst ↦ ?_
    refine .sees_miss (by simp) (.sees_hit (by simp) ?_)
    rw [Bool.or_true, if_pos rfl]
    have hrest : ExprsWritten True below.left rest rs ∧ ∀ t ∈ rest, t.isAssignable :=
      ⟨hrest, fun t ht ↦ hassignable t (by simp [ht])⟩
    refine .bind_cons (D := (· = .symbol .assign)) (Accepts.commaList
      (W := fun t r ↦ t.Written True below.left r ∧ t.isAssignable)
      (L := fun ts r ↦ ExprsWritten True below.left ts r ∧ ∀ t ∈ ts, t.isAssignable)
      (D := fun t ↦ t.opensSuffix = false) (g := Expr.bare) ?_ hitem rfl ?_ (Nat.le_refl _) hrest
      [first]) rfl fun targets' h ↦ hb.exprStmt_store hl pos pos' hassignable ?_ hvalues
    · rintro ts r ⟨hs, hall⟩
      rcases hs.inv with ⟨t, rfl, h⟩ | ⟨t, rest, ns, rs, rfl, rfl, h, hrest⟩
      · exact .inl ⟨t, rfl, h, hall t (by simp)⟩
      · exact .inr ⟨t, rest, ns, rs, rfl, rfl, ⟨h, hall t (by simp)⟩, hrest,
          fun t ht ↦ hall t (by simp [ht])⟩
    · rintro t rfl
      exact ⟨rfl, by simp⟩
    · simp [h, hfirst]

omit hb in
theorem stmt_of_exprStmt {r : List Token} {S : Stmt → Prop} (hr : Begins (fun t ↦ t.startsPrefix) r)
    (h : Accepts below.bound r C below.exprStmt S) : Accepts below.bound r C below.stmt S := by
  obtain ⟨t, rest, rfl, ht⟩ := hr
  refine .peek_cons fun pos ↦ ?_
  dsimp only
  split <;> first | exact h | cases ht

theorem Takes.stmt {stmt : Stmt} {r : List Token} (h : stmt.Written True below.left r) :
    Accepts below.bound r (· = .symbol .semicolon) below.stmt fun s ↦ s.bare = stmt.bare := by
  generalize hl : below.left = k at h
  cases h with
  | declare left pos hnames =>
    have hdeclare := hb.localStmt pos hnames (.inl ⟨rfl, rfl⟩)
    rw [List.append_nil] at hdeclare
    exact .peek_cons fun _ ↦ hdeclare
  | declareValues pos hnames hvalues =>
    exact .peek_cons fun _ ↦ hb.localStmt pos hnames (.inr ⟨_, _, hl, rfl, hvalues⟩)
  | declareFunction name pos h =>
    subst hl
    exact .peek_cons fun _ ↦ hb.localStmt_function name pos h
  | defineFunction pos h =>
    subst hl
    exact .peek_cons fun _ ↦ hb.functionStmt pos h
  | assign pos hassignable htargets hvalues =>
    refine stmt_of_exprStmt ?_ (hb.exprStmt_assign hl pos hassignable htargets hvalues)
    rcases htargets.inv with ⟨target, rfl, h⟩ | ⟨target, rest, ns, rs, rfl, rfl, h, -⟩
    · have hhead := Expr.isPrefix_of_isAssignable (hassignable target (by simp))
      exact (h.starts.expr.mono fun t ht ↦ ht.2 hhead).append _
    · have hhead := Expr.isPrefix_of_isAssignable (hassignable target (by simp))
      exact ((h.starts.expr.mono fun t ht ↦ ht.2 hhead).append _).append _
  | call hcall h =>
    subst hl
    refine stmt_of_exprStmt (h.starts.expr.mono fun t ht ↦ ht.2 ?_) (hb.exprStmt_call hcall h)
    exact Expr.isPrefix_of_isCall hcall
  | block h =>
    simp only [List.cons_append]
    exact .peek_cons fun pos ↦ .skip (.bind_cons (hb.block hl h) rfl fun body' hbody' ↦
      .close (.pure (by simp [Stmt.bare, hbody'])))
  | whileLoop pos hcond hbody =>
    simp only [List.cons_append, List.append_assoc]
    exact .peek_cons fun pos ↦ .skip (.bind_cons (hb.expr hl hcond) rfl fun cond' hcond' ↦
      .expect (.bind_cons (hb.block hl hbody) rfl fun body' hbody' ↦
        .close (.pure (by simp [Stmt.bare, hcond', hbody']))))
  | repeatLoop pos hbody hcond =>
    simp only [List.cons_append]
    refine .peek_cons fun pos ↦ .skip (.bind_cons (hb.block hl hbody) rfl fun body' hbody' ↦
      .close (.last ((hb.expr hl hcond).weaken ?_) fun cond' hcond' ↦
        .pure (by simp [Stmt.bare, hcond', hbody'])))
    rintro t rfl
    rfl
  | branch pos hbranches hotherwise =>
    exact .peek_cons fun _ ↦ hb.branchStmt pos hl hbranches hotherwise
  | numericFor var pos hstart hlimit hstep hbody =>
    exact .peek_cons fun _ ↦ hb.numericFor hl var pos hstart hlimit hstep hbody
  | genericFor pos hnames hvalues hbody =>
    exact .peek_cons fun _ ↦ hb.genericFor hl pos hnames hvalues hbody
  | breakLoop left pos => exact .peek_cons fun pos ↦ .skip (.pure rfl)

theorem Takes.stmts {stmts : List Stmt} {r : List Token}
    (h : StmtsWritten True below.left stmts r) {n : Nat} (hn : n ≤ below.bound)
    (found : List Stmt) :
    Accepts n r (fun t ↦ t.closes) (below.stmts (n + 1) found)
      fun ss ↦ ss.map Stmt.bare = found.reverse.map Stmt.bare ++ stmts.map Stmt.bare := by
  induction n generalizing stmts r found with
  | zero =>
    cases h with
    | none =>
      unfold Levels.stmts
      exact .blockEnds_hit (by simp) (.pure (by simp))
    | cons h hs hstrict => exact .zero (by simp [h.ne_nil])
    | _ => exact .zero (by simp)
  | succ n ih =>
    unfold Levels.stmts
    cases h with
    | none => exact .blockEnds_hit (by simp) (.pure (by simp))
    | semicolon h =>
      refine .blockEnds_miss (by simp [Token.closes]) ?_
      rw [if_neg Bool.false_ne_true]
      refine .eat_lt ?_
      rw [if_pos rfl]
      exact ih h (by omega) found
    | @cons _ stmt stmts ts ts' h hs hstrict =>
      have hnext : ∀ t, Ahead ts' (fun t ↦ t.closes) t → t = .symbol .semicolon := by
        intro t ht
        rcases ht with ht | ⟨rfl, -⟩
        · exact Option.some.inj (ht.symm.trans (hstrict trivial))
        · cases hstrict trivial
      have hbegins := h.begins.append ts'
      refine .blockEnds_miss (fun t ht ↦ (hbegins.ahead t ht).1) ?_
      rw [if_neg Bool.false_ne_true]
      refine .eat_miss (fun t ht ↦ (hbegins.ahead t ht).2.1) ?_
      rw [if_neg Bool.false_ne_true]
      refine .sees_miss (fun t ht ↦ (hbegins.ahead t ht).2.2) ?_
      rw [if_neg Bool.false_ne_true]
      have hlen := List.length_pos_iff.mpr h.ne_nil
      refine .bind_of ((hb.stmt h).of_le hn) (k := n) (by omega) hnext fun s hstmt ↦ ?_
      refine (ih hs (by omega) (s :: found)).mono fun ss hss ↦ ?_
      simp [hss, hstmt]
    | returns marks pos h hmarks =>
      refine .blockEnds_miss (by simp [Token.closes]) ?_
      rw [if_neg Bool.false_ne_true]
      refine .eat_miss (by simp) ?_
      rw [if_neg Bool.false_ne_true]
      refine .sees_hit (by simp) ?_
      rw [if_pos rfl]
      exact .last ((hb.returnStmt pos h hmarks).of_le hn) fun s hs ↦ .pure (by simp [hs])

theorem Takes.blockBody {block : Block} {r : List Token} (h : block.Written True below.left r) :
    Accepts below.bound r (fun t ↦ t.closes) below.blockBody fun b ↦ b.bare = block.bare := by
  cases h with
  | mk pos h =>
    refine .here fun pos ↦ .last (hb.stmts h (Nat.le_refl _) []) fun stmts hstmts ↦ .pure ?_
    simpa [Block.bare, bareStmts_eq] using hstmts

end Levels

theorem levels_take (bound left : Nat) : (levels bound left).Takes := by
  induction left with
  | zero => exact ⟨fun hl ↦ absurd hl (by simp [levels]), fun hl ↦ absurd hl (by simp [levels])⟩
  | succ left ih =>
    have hleft : (levels bound left).left = left := by cases left <;> rfl
    have hbound : (levels bound left).bound = bound := by cases left <;> rfl
    refine ⟨fun {k power e r} hl h habove ↦ ?_, fun {k b r} hl h ↦ ?_⟩
    · obtain rfl : left = k := Nat.succ.inj hl
      have hbody : Accepts _ r _ _ _ := ih.operandBody (by rwa [hleft]) habove
      rwa [hbound] at hbody
    · obtain rfl : left = k := Nat.succ.inj hl
      have hbody : Accepts _ r _ _ _ := ih.blockBody (by rwa [hleft])
      rwa [hbound] at hbody

theorem chunk_accepts {chunk : Chunk} {tokens : List Token} (bound : Nat)
    (h : chunk.Written True (maxLevels - 1) tokens) :
    Accepts bound tokens (· = .eof) (Parser.chunk bound) fun c ↦ c.bare = chunk.bare := by
  have hblock : Accepts bound tokens _ _ _ := (levels_take bound maxLevels).block rfl h
  refine .last (hblock.weaken ?_) fun b hb ↦ .sees_hit (by simp) ?_
  · rintro t rfl
    rfl
  · rw [if_pos rfl]
    exact .pure hb

end Parser

/-- A tree that is written with a semicolon after every statement, and with no parentheses but its
own, is parsed from its tokens to itself, but for the places. -/
theorem chunk_of_written {lexemes : List Lexeme} {chunk : Chunk} {tokens : List Token}
    (h : chunk.Written True (Parser.maxLevels - 1) tokens)
    (htokens : lexemes.map Lexeme.token = tokens ++ [.eof]) :
    ∃ parsed, (Parser.chunk lexemes.length).run' lexemes = .ok parsed ∧
      parsed.bare = chunk.bare := by
  obtain ⟨used, last, rfl, hused, hlast⟩ := List.map_eq_append_iff.mp htokens
  have hahead : (Parser.ahead last).token = .eof := by
    obtain ⟨eof, rest, rfl, heof, -⟩ := List.map_eq_cons_iff.mp hlast
    exact heof
  obtain ⟨parsed, hrun, hbare⟩ :=
    Parser.chunk_accepts _ h used last hused hahead (Nat.le_refl _)
  refine ⟨parsed, ?_, hbare⟩
  change (Parser.chunk _ (used ++ last) >>= fun p ↦ .ok p.1 : Except _ _) = _
  rw [hrun]
  rfl

/-- The tokens of `x = -a ^ b .. c * d ;`. -/
def powerTokens : List Token :=
  [.name "x", .symbol .assign, .symbol .minus, .name "a", .symbol .caret, .name "b",
    .symbol .concat, .name "c", .symbol .star, .name "d", .symbol .semicolon]

/-- `x = (-(a ^ b)) .. (c * d)` -/
def powerChunk : Chunk :=
  let name (name : String) : Expr := .name name .start
  .mk [.assign [name "x"] [.binary .concat
    (.unary .neg (.binary .pow (name "a") (name "b") .start) .start)
    (.binary .mul (name "c") (name "d") .start) .start] .start] .start

theorem written_powerChunk : powerChunk.Written True (Parser.maxLevels - 1) powerTokens := by
  have hpow : Expr.Written True 197
      (.binary .pow (.name "a" .start) (.name "b" .start) .start) _ :=
    .binary .pow .start (by decide) trivial trivial (.name _ "a" _) (.name _ "b" _)
  have hmul : Expr.Written True 197
      (.binary .mul (.name "c" .start) (.name "d" .start) .start) _ :=
    .binary .mul .start (by decide) trivial trivial (.name _ "c" _) (.name _ "d" _)
  have hneg := Expr.Written.unary .neg .start
    (by simp [Expr.UnderUnary, BinaryOp.rank, UnaryOp.rank]) hpow
  have hconcat := Expr.Written.binary .concat .start (by decide)
    (by simp [Expr.LeftOf, BinaryOp.rank, UnaryOp.rank])
    (by simp [Expr.RightOf, BinaryOp.rank, BinaryOp.toRight]) hneg hmul
  exact .mk _ (.cons (.assign _ (by simp [Expr.isAssignable]) (.one (.name _ "x" _)) (.one hconcat))
    (.semicolon (.none _)) fun _ ↦ rfl)

def powerLexemes : List Lexeme := (powerTokens ++ [Token.eof]).map fun t ↦ ⟨t, .start⟩

theorem chunk_of_written_power : ∃ parsed,
    (Parser.chunk powerLexemes.length).run' powerLexemes = .ok parsed ∧
      parsed.bare = powerChunk.bare :=
  chunk_of_written written_powerChunk (by simp [powerLexemes, Function.comp_def])

end MiniLua
