import MiniLua.Proofs.Syntax.Accounts

/-!
The parser never looks behind the end of the text, and no bound on its loops is ever met: with
other bounds, and other lexemes behind the end, it does the same.
-/

namespace MiniLua.Parser

variable {α β : Type}

/-- The second result is the first, with more lexemes left behind the end. -/
def Follows (ts more : List Lexeme) (r r' : Except SyntaxError (α × List Lexeme)) : Prop :=
  (∃ e, r = .error e ∧ r' = .error e) ∨
    ∃ a ts', r = .ok (a, ts') ∧ r' = .ok (a, ts' ++ more) ∧ Ended ts' ∧ ts'.length ≤ ts.length

/-- On at most `n` lexemes that have an end both parsers do the same, whatever lies behind the end
before the second, and the end is still ahead afterwards. -/
class Tracks (n : Nat) (p p' : Parser α) : Prop where
  run (ts more : List Lexeme) (hts : Ended ts) (hn : ts.length ≤ n) :
    Follows ts more (p ts) (p' (ts ++ more))

/-- They do so where `t` is ahead. -/
structure TracksAt (t : Token) (n : Nat) (p p' : Parser α) : Prop where
  run (ts more : List Lexeme) (hts : Ended ts) (hn : ts.length ≤ n) (ht : (ahead ts).token = t) :
    Follows ts more (p ts) (p' (ts ++ more))

theorem TracksAt.of_tracks {t : Token} {n : Nat} {p p' : Parser α} (h : Tracks n p p') :
    TracksAt t n p p' :=
  ⟨fun ts more hts hlen _ ↦ h.run ts more hts hlen⟩

/-- At least one lexeme is taken. -/
def Advances (n : Nat) (p : Parser α) : Prop :=
  ∀ ts a ts', Ended ts → ts.length ≤ n → p ts = .ok (a, ts') → ts'.length < ts.length

theorem Ended.length_pos {ts : List Lexeme} (h : Ended ts) : 0 < ts.length := by
  cases h <;> exact Nat.succ_pos _

theorem Ended.ahead_append {ts : List Lexeme} (h : Ended ts) (more : List Lexeme) :
    ahead (ts ++ more) = ahead ts := by
  cases h <;> rfl

theorem Advances.of_le {n m : Nat} {p : Parser α} (h : Advances m p) (hn : n ≤ m) :
    Advances n p := fun ts a ts' hts hlen ↦ h ts a ts' hts (Nat.le_trans hlen hn)

theorem Reads.advances {n : Nat} {p : Parser α} {S : α → List Token → Token → Prop}
    (h : Reads n (fun _ ↦ True) p S) (hne : ∀ a r t, S a r t → r ≠ []) : Advances n p := by
  intro ts a ts' hts hn ha
  obtain ⟨used, rfl, -, hs⟩ := h ts hts hn trivial a ts' ha
  have hlen := List.length_pos_iff.mpr (hne _ _ _ hs)
  simp only [List.length_map, List.length_append] at hlen ⊢
  omega

namespace Tracks

variable {n : Nat} {p p' : Parser α} {f f' : α → Parser β}

theorem of_le {m : Nat} (h : Tracks m p p') (hn : n ≤ m) : Tracks n p p' :=
  ⟨fun ts more hts hlen ↦ h.run ts more hts (Nat.le_trans hlen hn)⟩

instance pure (a : α) : Tracks n (Pure.pure a : Parser α) (Pure.pure a) :=
  ⟨fun ts _ hts _ ↦ .inr ⟨a, ts, rfl, rfl, hts, Nat.le_refl _⟩⟩

/-- What comes next has fewer lexemes if the first parser takes some. -/
theorem bind_of {k : Nat} (hp : Tracks n p p')
    (hk : ∀ ts a ts', Ended ts → ts.length ≤ n → p ts = .ok (a, ts') → ts'.length ≤ ts.length →
      ts'.length ≤ k) (hf : ∀ a, Tracks k (f a) (f' a)) : Tracks n (p >>= f) (p' >>= f') := by
  refine ⟨fun ts more hts hlen ↦ ?_⟩
  rcases hp.run ts more hts hlen with ⟨e, he, he'⟩ | ⟨a, ts', ha, ha', hts', hle⟩
  · refine .inl ⟨e, ?_, ?_⟩
    · change (p ts >>= fun x ↦ f x.1 x.2) = _
      rw [he]
      rfl
    · change (p' (ts ++ more) >>= fun x ↦ f' x.1 x.2) = _
      rw [he']
      rfl
  · have hbind : (p >>= f) ts = f a ts' := by
      change (p ts >>= fun x ↦ f x.1 x.2) = _
      rw [ha]
      rfl
    have hbind' : (p' >>= f') (ts ++ more) = f' a (ts' ++ more) := by
      change (p' (ts ++ more) >>= fun x ↦ f' x.1 x.2) = _
      rw [ha']
      rfl
    rw [hbind, hbind']
    rcases (hf a).run ts' more hts' (hk ts a ts' hts hlen ha hle) with h | ⟨b, us, hb, hb', hus, hle'⟩
    · exact .inl h
    · exact .inr ⟨b, us, hb, hb', hus, Nat.le_trans hle' hle⟩

instance bind [hp : Tracks n p p'] [hf : ∀ a, Tracks n (f a) (f' a)] :
    Tracks n (p >>= f) (p' >>= f') :=
  hp.bind_of (fun _ _ _ _ hn _ hle ↦ Nat.le_trans hle hn) hf

theorem bind_lt {k : Nat} (hp : Tracks (k + 1) p p') (h : Advances (k + 1) p)
    (hf : ∀ a, Tracks k (f a) (f' a)) : Tracks (k + 1) (p >>= f) (p' >>= f') :=
  hp.bind_of (fun ts a ts' hts hn ha _ ↦
    Nat.le_of_lt_succ (Nat.lt_of_lt_of_le (h ts a ts' hts hn ha) hn)) hf

theorem after [hp : Tracks n p p'] (hf : ∀ a, Tracks n (f a) (f' a)) :
    Tracks n (p >>= f) (p' >>= f') := bind

theorem got {f f' : List Lexeme → Parser β}
    (hf : ∀ ts more, Ended ts → Tracks n (f ts) (f' (ts ++ more))) :
    Tracks n (get >>= f) (get >>= f') :=
  ⟨fun ts more hts hn ↦ (hf ts more hts).run ts more hts hn⟩

instance ite (c : Prop) [Decidable c] {q q' : Parser α} [Tracks n p p'] [Tracks n q q'] :
    Tracks n (if c then p else q) (if c then p' else q') := by
  split <;> infer_instance

instance map (g : α → β) [hp : Tracks n p p'] : Tracks n (g <$> p) (g <$> p') :=
  hp.after fun a ↦ pure (g a)

instance failAt (pos : Position) (fault : SyntaxFault) :
    Tracks n (Parser.failAt pos fault : Parser α) (Parser.failAt pos fault) :=
  ⟨fun _ _ _ _ ↦ .inl ⟨_, rfl, rfl⟩⟩

instance peek : Tracks n Parser.peek Parser.peek :=
  ⟨fun ts more hts _ ↦ .inr ⟨ahead ts, ts, rfl,
    congrArg (fun l ↦ Except.ok (l, ts ++ more)) (hts.ahead_append more), hts, Nat.le_refl _⟩⟩

/-- A parser that looks at the next lexeme first. -/
theorem look {f f' : Lexeme → Parser β} (hf : ∀ l, TracksAt l.token n (f l) (f' l)) :
    Tracks n (Parser.peek >>= f) (Parser.peek >>= f') := by
  refine ⟨fun ts more hts hn ↦ ?_⟩
  change Follows ts more (f (ahead ts) ts) (f' (ahead (ts ++ more)) (ts ++ more))
  rw [hts.ahead_append more]
  exact (hf _).run ts more hts hn rfl

end Tracks

theorem TracksAt.skip_lt {t : Token} (ht : t ≠ .eof) {n : Nat} {f f' : Unit → Parser β}
    (hf : Tracks n (f ()) (f' ())) : TracksAt t (n + 1) (Parser.skip >>= f) (Parser.skip >>= f') := by
  refine ⟨fun ts more hts hn hahead ↦ ?_⟩
  cases hts with
  | eof pos => exact absurd hahead.symm ht
  | @cons l rest hl hrest =>
    have hskip (rest' : List Lexeme) (g : Unit → Parser β) :
        (Parser.skip >>= g) (l :: rest') = g () rest' := by
      change g () (if l.token = .eof then l :: rest' else rest') = _
      rw [if_neg hl]
    rw [List.cons_append, hskip, hskip]
    rcases hf.run rest more hrest (Nat.le_of_succ_le_succ hn) with h | ⟨b, us, hb, hb', hus, hle⟩
    · exact .inl h
    · exact .inr ⟨b, us, hb, hb', hus, Nat.le_succ_of_le hle⟩

namespace Tracks

variable {n : Nat}

/-- There is always the end ahead. -/
theorem zero {p p' : Parser β} : Tracks 0 p p' :=
  ⟨fun _ _ hts hn ↦ absurd hts.length_pos (Nat.not_lt.mpr hn)⟩

instance skip : Tracks n Parser.skip Parser.skip := by
  refine ⟨fun ts more hts hn ↦ ?_⟩
  cases hts with
  | eof pos => exact .inr ⟨(), _, rfl, rfl, .eof pos, Nat.le_refl _⟩
  | @cons l rest hl hrest =>
    refine .inr ⟨(), rest, ?_, ?_, hrest, Nat.le_succ _⟩
    · change Except.ok ((), if l.token = .eof then l :: rest else rest) = _
      rw [if_neg hl]
    · change Except.ok ((), if l.token = .eof then l :: (rest ++ more) else rest ++ more) = _
      rw [if_neg hl]

instance sees (t : Token) : Tracks n (Parser.sees t) (Parser.sees t) := by
  unfold Parser.sees; infer_instance

instance placed : Tracks n Parser.here Parser.here := by unfold Parser.here; infer_instance

instance eat (t : Token) : Tracks n (Parser.eat t) (Parser.eat t) := by
  unfold Parser.eat; infer_instance

instance unexpected (what : String) :
    Tracks n (Parser.unexpected what : Parser β) (Parser.unexpected what) := by
  unfold Parser.unexpected; infer_instance

instance expect (t : Token) : Tracks n (Parser.expect t) (Parser.expect t) := by
  unfold Parser.expect; infer_instance

instance close (closing opener : Token) (opened : Position) :
    Tracks n (Parser.close closing opener opened) (Parser.close closing opener opened) := by
  unfold Parser.close; infer_instance

instance name : Tracks n Parser.name Parser.name := by
  unfold Parser.name
  refine look fun l ↦ .of_tracks ?_
  split <;> infer_instance

instance blockEnds : Tracks n Parser.blockEnds Parser.blockEnds := by
  unfold Parser.blockEnds
  refine look fun l ↦ .of_tracks ?_
  split <;> infer_instance

/-- After a token that is taken there is a lexeme less. -/
theorem eat_lt (t : Token) [ht : t.Inner] {f f' : Bool → Parser β}
    (hyes : Tracks n (f true) (f' true)) (hno : Tracks (n + 1) (f false) (f' false)) :
    Tracks (n + 1) (Parser.eat t >>= f) (Parser.eat t >>= f') := by
  unfold Parser.eat Parser.sees
  simp only [bind_assoc, pure_bind]
  refine look fun l ↦ ?_
  by_cases hl : l.token = t
  · simp only [hl, decide_true, if_true, bind_assoc, pure_bind]
    exact .skip_lt ht.ne_eof hyes
  · simp only [hl, decide_false, Bool.false_eq_true, if_false, pure_bind]
    exact .of_tracks hno

theorem commaList {item item' : Parser β} {k m m' : Nat} (hitem : Tracks k item item') (hn : n ≤ k)
    (hm : n ≤ m) (hm' : n ≤ m') (found : List β) :
    Tracks n (Parser.commaList item m found) (Parser.commaList item' m' found) := by
  induction n generalizing m m' found with
  | zero => exact .zero
  | succ n ih =>
    obtain ⟨m, rfl⟩ : ∃ j, m = j + 1 := ⟨m - 1, by omega⟩
    obtain ⟨m', rfl⟩ : ∃ j, m' = j + 1 := ⟨m' - 1, by omega⟩
    unfold Parser.commaList
    have hrest (found : List β) := ih (Nat.le_of_succ_le hn) (Nat.le_of_succ_le_succ hm)
      (Nat.le_of_succ_le_succ hm') found
    have hfirst : Tracks n item item' := hitem.of_le (Nat.le_of_succ_le hn)
    refine .eat_lt _ ?_ (.pure _)
    rw [if_pos rfl, if_pos rfl]
    infer_instance

end Tracks

namespace Levels

/-- Levels that do the same, where the second may have larger bounds. -/
structure Alike (below below' : Levels) : Prop where
  accounts : below.Accounts
  left_eq : below'.left = below.left
  bound_le : below.bound ≤ below'.bound
  block : Tracks below.bound below.block below'.block
  operand (power : Nat) : Tracks below.bound (below.operand power) (below'.operand power)

variable {below below' : Levels} (hb : below.Alike below')

include hb

theorem Alike.allow (extra : Nat) :
    Tracks below.bound (below.allow extra) (below'.allow extra) := by
  unfold Levels.allow
  rw [hb.left_eq]
  infer_instance

theorem Alike.allow_at {t : Token} {n extra : Nat} {f f' : Unit → Parser β}
    (hf : TracksAt t n (f ()) (f' ())) :
    TracksAt t n (below.allow extra >>= f) (below'.allow extra >>= f') := by
  unfold Levels.allow
  rw [hb.left_eq]
  split
  · refine .of_tracks ⟨fun ts more hts _ ↦ .inl ⟨⟨.tooManyLevels, (ahead ts).pos⟩, rfl, ?_⟩⟩
    rw [← hts.ahead_append more]
    rfl
  · exact hf

theorem Alike.expr : Tracks below.bound below.expr below'.expr := hb.operand 0

theorem Alike.exprs : Tracks below.bound below.exprs below'.exprs := by
  have hexpr := hb.expr
  have hrest (found : List Expr) :=
    hexpr.commaList (Nat.le_refl _) (Nat.le_refl _) hb.bound_le found
  unfold Levels.exprs
  infer_instance

theorem Alike.names : Tracks below.bound below.names below'.names := by
  have hrest (found : List String) :=
    Tracks.name.commaList (Nat.le_refl below.bound) (Nat.le_refl _) hb.bound_le found
  unfold Levels.names
  infer_instance

omit hb in
theorem params_tracks {n m m' : Nat} (hm : n ≤ m) (hm' : n ≤ m') (found : List String) :
    Tracks n (params m found) (params m' found) := by
  induction n generalizing m m' found with
  | zero => exact .zero
  | succ n ih =>
    obtain ⟨m, rfl⟩ : ∃ j, m = j + 1 := ⟨m - 1, by omega⟩
    obtain ⟨m', rfl⟩ : ∃ j, m' = j + 1 := ⟨m' - 1, by omega⟩
    have hrest (found : List String) := ih (Nat.le_of_succ_le_succ hm)
      (Nat.le_of_succ_le_succ hm') found
    unfold params
    refine .eat_lt _ inferInstance ?_
    rw [if_neg Bool.false_ne_true, if_neg Bool.false_ne_true]
    refine .after fun param ↦ .eat_lt _ ?_ (.pure _)
    rw [if_pos rfl, if_pos rfl]
    infer_instance

theorem Alike.functionBody (implicit : List String) (pos : Position) :
    Tracks below.bound (below.functionBody implicit pos) (below'.functionBody implicit pos) := by
  have hparams (found : List String) := params_tracks (Nat.le_refl _) hb.bound_le found
  have hblock := hb.block
  unfold Levels.functionBody
  refine .after fun _ ↦ .after fun _ ↦ ?_
  dsimp only
  split <;> exact .after fun _ ↦ inferInstance

theorem Alike.field : Tracks below.bound below.field below'.field := by
  have hexpr := hb.expr
  unfold Levels.field
  refine .got fun ts more hts ↦ ?_
  cases hts with
  | eof pos =>
    change Tracks _ (below.expr >>= fun value ↦ pure (Field.item value))
      (below'.expr >>= fun value ↦ pure (Field.item value))
    infer_instance
  | @cons l rest hl hrest =>
    obtain ⟨token, pos⟩ := l
    split
    · rename_i heq
      cases heq
      simp only [List.cons_append]
      infer_instance
    · rename_i heq
      cases heq
      simp only [List.cons_append]
      infer_instance
    · rename_i hbracket hname
      split
      · rename_i heq
        cases heq
        exact (hbracket _ _ rfl).elim
      · rename_i heq
        cases hrest <;> cases heq
        exact (hname _ _ _ _ rfl).elim
      · infer_instance

theorem Alike.fields {n m m' : Nat} (hn : n ≤ below.bound) (hm : n ≤ m) (hm' : n ≤ m')
    (found : List Field) : Tracks n (below.fields m found) (below'.fields m' found) := by
  induction n generalizing m m' found with
  | zero => exact .zero
  | succ n ih =>
    obtain ⟨m, rfl⟩ : ∃ j, m = j + 1 := ⟨m - 1, by omega⟩
    obtain ⟨m', rfl⟩ : ∃ j, m' = j + 1 := ⟨m' - 1, by omega⟩
    have hrest (found : List Field) := ih (Nat.le_of_succ_le hn) (Nat.le_of_succ_le_succ hm)
      (Nat.le_of_succ_le_succ hm') found
    have hfield : Tracks (n + 1) below.field below'.field := hb.field.of_le hn
    unfold Levels.fields
    refine .after fun closes ↦ ?_
    split
    · infer_instance
    · refine .after fun field ↦ .eat_lt _ ?_ (.eat_lt _ ?_ (.pure _))
      · rw [if_pos rfl, if_pos rfl]
        infer_instance
      · rw [if_pos rfl, if_pos rfl]
        infer_instance

theorem Alike.table : Tracks below.bound below.table below'.table := by
  have hfields := hb.fields (Nat.le_refl _) (Nat.le_refl _) hb.bound_le []
  unfold Levels.table
  infer_instance

theorem Alike.callArgs : Tracks below.bound below.callArgs below'.callArgs := by
  have htable := hb.table
  have hexprs := hb.exprs
  unfold Levels.callArgs
  refine .look fun l ↦ .of_tracks ?_
  dsimp only
  split <;> infer_instance

theorem Alike.primary : Tracks below.bound below.primary below'.primary := by
  have hexpr := hb.expr
  unfold Levels.primary
  refine .look fun l ↦ .of_tracks ?_
  dsimp only
  split <;> infer_instance

theorem Alike.suffixes {n m m' : Nat} (hn : n ≤ below.bound) (hm : n ≤ m) (hm' : n ≤ m')
    (links : Nat) (object : Expr) :
    Tracks n (below.suffixes m links object) (below'.suffixes m' links object) := by
  induction n generalizing m m' links object with
  | zero => exact .zero
  | succ n ih =>
    obtain ⟨m, rfl⟩ : ∃ j, m = j + 1 := ⟨m - 1, by omega⟩
    obtain ⟨m', rfl⟩ : ∃ j, m' = j + 1 := ⟨m' - 1, by omega⟩
    have hrest (links : Nat) (object : Expr) := ih (Nat.le_of_succ_le hn)
      (Nat.le_of_succ_le_succ hm) (Nat.le_of_succ_le_succ hm') links object
    have hallow : Tracks (n + 1) (below.allow links) (below'.allow links) :=
      (hb.allow links).of_le hn
    have hexpr : Tracks n below.expr below'.expr := hb.expr.of_le (Nat.le_of_succ_le hn)
    have hargs : Tracks n below.callArgs below'.callArgs :=
      hb.callArgs.of_le (Nat.le_of_succ_le hn)
    have hcall (pos : Position) : Tracks (n + 1)
        (below.callArgs >>= fun args ↦ below.suffixes m (links + 1) (.call object args pos))
        (below'.callArgs >>= fun args ↦ below'.suffixes m' (links + 1) (.call object args pos)) :=
      (hb.callArgs.of_le hn).bind_lt ((hb.accounts.callArgs.advances fun _ _ _ h ↦ h.ne_nil).of_le hn)
        fun args ↦ hrest _ _
    unfold Levels.suffixes
    refine .after fun _ ↦ .look fun l ↦ ?_
    dsimp only
    split
    · exact .skip_lt (by simp [*]) inferInstance
    · exact .skip_lt (by simp [*]) inferInstance
    · exact .skip_lt (by simp [*]) inferInstance
    · exact .of_tracks (hcall l.pos)
    · exact .of_tracks (hcall l.pos)
    · exact .of_tracks (hcall l.pos)
    · exact .of_tracks inferInstance

theorem Alike.suffixed : Tracks below.bound below.suffixed below'.suffixed := by
  have hprimary := hb.primary
  have hsuffixes (links : Nat) (object : Expr) := hb.suffixes (Nat.le_refl _)
    (Nat.le_succ _) (Nat.le_succ_of_le hb.bound_le) links object
  unfold Levels.suffixed
  infer_instance

theorem Alike.simple : Tracks below.bound below.simple below'.simple := by
  have hbody (implicit : List String) (pos : Position) := hb.functionBody implicit pos
  have htable := hb.table
  have hsuffixed := hb.suffixed
  unfold Levels.simple
  refine .look fun l ↦ .of_tracks ?_
  dsimp only
  split
  case h_4 =>
    refine .after fun _ ↦ ?_
    split <;> infer_instance
  all_goals infer_instance

theorem Alike.infixes (power : Nat) {n m m' : Nat} (hn : n ≤ below.bound) (hm : n ≤ m)
    (hm' : n ≤ m') (chain : Nat) (lhs : Expr) :
    Tracks n (below.infixes power m chain lhs) (below'.infixes power m' chain lhs) := by
  induction n generalizing m m' chain lhs with
  | zero => exact .zero
  | succ n ih =>
    obtain ⟨m, rfl⟩ : ∃ j, m = j + 1 := ⟨m - 1, by omega⟩
    obtain ⟨m', rfl⟩ : ∃ j, m' = j + 1 := ⟨m' - 1, by omega⟩
    have hrest (chain : Nat) (lhs : Expr) := ih (Nat.le_of_succ_le hn)
      (Nat.le_of_succ_le_succ hm) (Nat.le_of_succ_le_succ hm') chain lhs
    have hoperand (power : Nat) : Tracks n (below.operand power) (below'.operand power) :=
      (hb.operand power).of_le (Nat.le_of_succ_le hn)
    unfold Levels.infixes
    refine .look fun l ↦ ?_
    dsimp only
    split
    · rename_i op left right hop
      have hl : l.token ≠ .eof := by
        rintro heq
        rw [heq] at hop
        cases hop
      split
      · exact .of_tracks inferInstance
      · exact hb.allow_at (.skip_lt hl inferInstance)
    · exact .of_tracks inferInstance

theorem Alike.operandBody (power : Nat) :
    Tracks below.bound (below.operandBody power) (below'.operandBody power) := by
  have hoperand (power : Nat) := hb.operand power
  have hsimple := hb.simple
  have hinfixes (chain : Nat) (lhs : Expr) :=
    hb.infixes power (Nat.le_refl _) (Nat.le_refl _) hb.bound_le chain lhs
  unfold Levels.operandBody
  refine .look fun l ↦ .of_tracks ?_
  dsimp only
  split <;> infer_instance

theorem Alike.returnStmt : Tracks below.bound below.returnStmt below'.returnStmt := by
  have hexprs := hb.exprs
  unfold Levels.returnStmt
  refine .after fun pos ↦ .after fun _ ↦ .after fun ends ↦ .after fun semicolon ↦ ?_
  dsimp only
  split <;> exact .after fun values ↦ .after fun _ ↦ inferInstance

theorem Alike.guarded : Tracks below.bound below.guarded below'.guarded := by
  have hexpr := hb.expr
  have hblock := hb.block
  unfold Levels.guarded
  infer_instance

theorem Alike.branches (pos : Position) {n m m' : Nat} (hn : n ≤ below.bound) (hm : n ≤ m)
    (hm' : n ≤ m') (found : List Branch) :
    Tracks n (below.branches pos m found) (below'.branches pos m' found) := by
  induction n generalizing m m' found with
  | zero => exact .zero
  | succ n ih =>
    obtain ⟨m, rfl⟩ : ∃ j, m = j + 1 := ⟨m - 1, by omega⟩
    obtain ⟨m', rfl⟩ : ∃ j, m' = j + 1 := ⟨m' - 1, by omega⟩
    have hrest (found : List Branch) := ih (Nat.le_of_succ_le hn) (Nat.le_of_succ_le_succ hm)
      (Nat.le_of_succ_le_succ hm') found
    have hguarded : Tracks n below.guarded below'.guarded :=
      hb.guarded.of_le (Nat.le_of_succ_le hn)
    have hblock : Tracks (n + 1) below.block below'.block := hb.block.of_le hn
    unfold Levels.branches
    refine .eat_lt _ ?_ ?_
    · rw [if_pos rfl, if_pos rfl]
      infer_instance
    · rw [if_neg Bool.false_ne_true, if_neg Bool.false_ne_true]
      infer_instance

theorem Alike.branchStmt : Tracks below.bound below.branchStmt below'.branchStmt := by
  have hguarded := hb.guarded
  have hbranches (pos : Position) (found : List Branch) := hb.branches pos (Nat.le_refl _)
    (Nat.le_succ _) (Nat.le_succ_of_le hb.bound_le) found
  unfold Levels.branchStmt
  infer_instance

theorem Alike.loopBody (pos : Position) :
    Tracks below.bound (below.loopBody pos) (below'.loopBody pos) := by
  have hblock := hb.block
  unfold Levels.loopBody
  infer_instance

theorem Alike.forStmt : Tracks below.bound below.forStmt below'.forStmt := by
  have hexpr := hb.expr
  have hexprs := hb.exprs
  have hbody (pos : Position) := hb.loopBody pos
  have hnames (found : List String) :=
    Tracks.name.commaList (Nat.le_refl below.bound) (Nat.le_refl _) hb.bound_le found
  unfold Levels.forStmt
  refine .after fun pos ↦ .after fun _ ↦ .after fun first ↦ .after fun assigns ↦ ?_
  dsimp only
  split
  · exact .after fun start ↦ .after fun _ ↦ .after fun limit ↦ .after fun _ ↦ inferInstance
  · exact .after fun names ↦ .after fun _ ↦ inferInstance

omit hb in
theorem path_tracks {n m m' : Nat} (hm : n ≤ m) (hm' : n ≤ m') (found : List String) :
    Tracks n (path m found) (path m' found) := by
  induction n generalizing m m' found with
  | zero => exact .zero
  | succ n ih =>
    obtain ⟨m, rfl⟩ : ∃ j, m = j + 1 := ⟨m - 1, by omega⟩
    obtain ⟨m', rfl⟩ : ∃ j, m' = j + 1 := ⟨m' - 1, by omega⟩
    have hrest (found : List String) := ih (Nat.le_of_succ_le_succ hm)
      (Nat.le_of_succ_le_succ hm') found
    unfold path
    refine .eat_lt _ ?_ (.pure _)
    rw [if_pos rfl, if_pos rfl]
    infer_instance

theorem Alike.functionStmt : Tracks below.bound below.functionStmt below'.functionStmt := by
  have hbody (implicit : List String) (pos : Position) := hb.functionBody implicit pos
  have hpath (found : List String) := path_tracks (Nat.le_refl below.bound) hb.bound_le found
  unfold Levels.functionStmt
  dsimp only
  infer_instance

theorem Alike.localStmt : Tracks below.bound below.localStmt below'.localStmt := by
  have hbody (implicit : List String) (pos : Position) := hb.functionBody implicit pos
  have hnames := hb.names
  have hexprs := hb.exprs
  unfold Levels.localStmt
  refine .after fun pos ↦ .after fun _ ↦ .after fun isFunction ↦ ?_
  dsimp only
  split
  · infer_instance
  · exact .after fun names ↦ .after fun _ ↦ inferInstance

theorem Alike.exprStmt : Tracks below.bound below.exprStmt below'.exprStmt := by
  have hsuffixed := hb.suffixed
  have hexprs := hb.exprs
  have htargets (found : List Expr) :=
    hb.suffixed.commaList (Nat.le_refl _) (Nat.le_refl _) hb.bound_le found
  unfold Levels.exprStmt
  refine .after fun pos ↦ .after fun first ↦ .after fun _ ↦ .after fun _ ↦ ?_
  split
  · refine .after fun targets ↦ ?_
    dsimp only
    split <;> infer_instance
  · infer_instance

theorem Alike.stmt : Tracks below.bound below.stmt below'.stmt := by
  have hbranch := hb.branchStmt
  have hfor := hb.forStmt
  have hfunction := hb.functionStmt
  have hlocal := hb.localStmt
  have hexprStmt := hb.exprStmt
  have hexpr := hb.expr
  have hblock := hb.block
  unfold Levels.stmt
  refine .look fun l ↦ .of_tracks ?_
  dsimp only
  split <;> infer_instance

theorem Alike.stmts {n m m' : Nat} (hn : n ≤ below.bound) (hm : n ≤ m) (hm' : n ≤ m')
    (found : List Stmt) : Tracks n (below.stmts m found) (below'.stmts m' found) := by
  induction n generalizing m m' found with
  | zero => exact .zero
  | succ n ih =>
    obtain ⟨m, rfl⟩ : ∃ j, m = j + 1 := ⟨m - 1, by omega⟩
    obtain ⟨m', rfl⟩ : ∃ j, m' = j + 1 := ⟨m' - 1, by omega⟩
    have hrest (found : List Stmt) := ih (Nat.le_of_succ_le hn) (Nat.le_of_succ_le_succ hm)
      (Nat.le_of_succ_le_succ hm') found
    have hreturn : Tracks (n + 1) below.returnStmt below'.returnStmt := hb.returnStmt.of_le hn
    have hstmt : Tracks (n + 1)
        (below.stmt >>= fun stmt ↦ below.stmts m (stmt :: found))
        (below'.stmt >>= fun stmt ↦ below'.stmts m' (stmt :: found)) :=
      (hb.stmt.of_le hn).bind_lt ((hb.accounts.stmt.advances fun _ _ _ h ↦ h.ne_nil).of_le hn)
        fun stmt ↦ hrest _
    unfold Levels.stmts
    refine .after fun ends ↦ ?_
    split
    · infer_instance
    · refine .eat_lt _ ?_ ?_
      · rw [if_pos rfl, if_pos rfl]
        infer_instance
      · rw [if_neg Bool.false_ne_true, if_neg Bool.false_ne_true]
        infer_instance

theorem Alike.blockBody : Tracks below.bound below.blockBody below'.blockBody := by
  have hstmts (found : List Stmt) := hb.stmts (Nat.le_refl _) (Nat.le_succ _)
    (Nat.le_succ_of_le hb.bound_le) found
  unfold Levels.blockBody
  infer_instance

end Levels

/-- What is left after a successful parse: the end is ahead, and at least one lexeme was taken. -/
theorem levels_advance {bound left : Nat} :
    Advances bound (levels bound left).expr ∧ Advances bound (levels bound left).stmt ∧
      Advances bound (levels bound left).field := by
  have hb := levels_account bound left
  have hbound : (levels bound left).bound = bound := by cases left <;> rfl
  have hexpr : Advances (levels bound left).bound (levels bound left).expr :=
    hb.expr.advances fun e r t h ↦ by
      obtain ⟨left', -, h⟩ := h
      exact h.ne_nil
  have hstmt : Advances (levels bound left).bound (levels bound left).stmt :=
    hb.stmt.advances fun _ _ _ h ↦ h.ne_nil
  have hfield : Advances (levels bound left).bound (levels bound left).field :=
    hb.field.advances fun _ _ _ h ↦ h.ne_nil
  rw [hbound] at hexpr hstmt hfield
  exact ⟨hexpr, hstmt, hfield⟩

end MiniLua.Parser
