import MiniLua.Proofs.Syntax.Grammar

/-!
Tokens that a parser accepts, whatever follows them, if the next token is of a certain kind. The
lexemes ahead are counted as for `Reads`: one taken pays for a round of a loop.
-/

namespace MiniLua

/-- Ends a block that is read. -/
def Token.closes : Token → Bool
  | .eof | .keyword .kwEnd | .keyword .kwElse | .keyword .kwElseif | .keyword .kwUntil => true
  | _ => false

namespace Parser

variable {α β : Type}

/-- Of at most `n` lexemes the parser takes those with the tokens `r`, if the next is as `C` says,
and its result is as `S` says. -/
def Accepts (n : Nat) (r : List Token) (C : Token → Prop) (m : Parser α) (S : α → Prop) : Prop :=
  ∀ used rest, used.map Lexeme.token = r → C (ahead rest).token → (used ++ rest).length ≤ n →
    ∃ a, m (used ++ rest) = .ok (a, rest) ∧ S a

/-- What may stand ahead of the tokens `r`. -/
def Ahead (r : List Token) (C : Token → Prop) (t : Token) : Prop :=
  r.head? = some t ∨ r = [] ∧ C t

@[simp] theorem ahead_cons {t t' : Token} {r : List Token} {C : Token → Prop} :
    Ahead (t :: r) C t' ↔ t' = t := by
  simp [Ahead, eq_comm]

@[simp] theorem ahead_nil {t : Token} {C : Token → Prop} : Ahead [] C t ↔ C t := by
  simp [Ahead]

theorem ahead_append {used rest : List Lexeme} {C : Token → Prop} (h : C (ahead rest).token) :
    Ahead (used.map Lexeme.token) C (ahead (used ++ rest)).token := by
  cases used with
  | nil => exact ahead_nil.mpr h
  | cons l used => exact ahead_cons.mpr rfl

/-- The first token is as `P` says. -/
def Begins (P : Token → Prop) (ts : List Token) : Prop := ∃ t rest, ts = t :: rest ∧ P t

namespace Begins

variable {P Q : Token → Prop} {ts : List Token}

theorem ahead (h : Begins P ts) {C : Token → Prop} (t : Token) (ht : Ahead ts C t) : P t := by
  obtain ⟨t', rest, rfl, hp⟩ := h
  obtain rfl := ahead_cons.mp ht
  exact hp

theorem append (h : Begins P ts) (rest : List Token) : Begins P (ts ++ rest) := by
  obtain ⟨t, ts, rfl, hp⟩ := h
  exact ⟨t, ts ++ rest, rfl, hp⟩

theorem mono (h : Begins P ts) (hPQ : ∀ t, P t → Q t) : Begins Q ts := by
  obtain ⟨t, ts, rfl, hp⟩ := h
  exact ⟨t, ts, rfl, hPQ t hp⟩

end Begins

namespace Accepts

variable {n : Nat} {r r' : List Token} {t : Token} {C D : Token → Prop} {m : Parser α}
  {f : α → Parser β} {R : α → Prop} {S : β → Prop}

theorem mono {m : Parser β} {S' : β → Prop} (hm : Accepts n r C m S) (h : ∀ b, S b → S' b) :
    Accepts n r C m S' := by
  intro used rest hused hnext hn
  obtain ⟨b, hb, hs⟩ := hm used rest hused hnext hn
  exact ⟨b, hb, h b hs⟩

theorem weaken {m : Parser β} (hm : Accepts n r D m S) (h : ∀ t, C t → D t) :
    Accepts n r C m S :=
  fun used rest hused hnext hn ↦ hm used rest hused (h _ hnext) hn

theorem of_le {k : Nat} (hm : Accepts n r C m R) (hk : k ≤ n) : Accepts k r C m R :=
  fun used rest hused hnext hn ↦ hm used rest hused hnext (Nat.le_trans hn hk)

/-- There are at least as many lexemes as tokens that are taken. -/
theorem of_length {m : Parser β} (h : r.length ≤ n → Accepts n r C m S) : Accepts n r C m S := by
  intro used rest hused hnext hn
  refine h ?_ used rest hused hnext hn
  simp only [← hused, List.length_map, List.length_append] at hn ⊢
  omega

theorem pure {b : β} (h : S b) : Accepts n [] C (pure b : Parser β) S := by
  intro used rest hused _ _
  obtain rfl := List.map_eq_nil_iff.mp hused
  exact ⟨b, rfl, h⟩

theorem bind_of {k : Nat} (hm : Accepts n r D m R) (hk : n - r.length ≤ k)
    (hD : ∀ t, Ahead r' C t → D t) (hf : ∀ a, R a → Accepts k r' C (f a) S) :
    Accepts n (r ++ r') C (m >>= f) S := by
  intro used rest hused hnext hn
  obtain ⟨first, second, rfl, rfl, rfl⟩ := List.map_eq_append_iff.mp hused
  have hlen : (second ++ rest).length ≤ k := by
    simp only [List.length_append, List.length_map] at hn hk ⊢
    omega
  rw [List.append_assoc] at hn ⊢
  obtain ⟨a, ha, hr⟩ := hm first (second ++ rest) rfl (hD _ (ahead_append hnext)) hn
  obtain ⟨b, hb, hs⟩ := hf a hr second rest rfl hnext hlen
  exact ⟨b, bind_eq_ok.mpr ⟨a, _, ha, hb⟩, hs⟩

theorem bind (hm : Accepts n r D m R) (hD : ∀ t, Ahead r' C t → D t)
    (hf : ∀ a, R a → Accepts n r' C (f a) S) : Accepts n (r ++ r') C (m >>= f) S :=
  hm.bind_of (Nat.sub_le _ _) hD hf

/-- A parser that is followed by a known token. -/
theorem bind_cons (hm : Accepts n r D m R) (ht : D t)
    (hf : ∀ a, R a → Accepts n (t :: r') C (f a) S) : Accepts n (r ++ t :: r') C (m >>= f) S :=
  hm.bind (by simpa using ht) hf

/-- The last parser of a sequence. -/
theorem last (hm : Accepts n r C m R) (hf : ∀ a, R a → Accepts n [] C (f a) S) :
    Accepts n r C (m >>= f) S := by
  simpa using hm.bind (fun t ht ↦ by simpa using ht) hf

theorem map {g : α → β} (hm : Accepts n r C m fun a ↦ S (g a)) : Accepts n r C (g <$> m) S :=
  last (f := fun a ↦ Pure.pure (g a)) hm fun _ h ↦ pure h

theorem here {f : Position → Parser β} (hf : ∀ pos, Accepts n r C (f pos) S) :
    Accepts n r C (Parser.here >>= f) S := fun used rest ↦ hf _ used rest

theorem get {f : List Lexeme → Parser β}
    (hf : ∀ used rest, used.map Lexeme.token = r → C (ahead rest).token →
      Accepts n r C (f (used ++ rest)) S) :
    Accepts n r C (MonadState.get >>= f) S :=
  fun used rest hused hnext ↦ hf used rest hused hnext used rest hused hnext

theorem peek {f : Lexeme → Parser β}
    (hf : ∀ l : Lexeme, Ahead r C l.token → Accepts n r C (f l) S) :
    Accepts n r C (Parser.peek >>= f) S := by
  intro used rest hused hnext hn
  exact hf (ahead (used ++ rest)) (hused ▸ ahead_append hnext) used rest hused hnext hn

theorem peek_cons {f : Lexeme → Parser β} (hf : ∀ pos, Accepts n (t :: r) C (f ⟨t, pos⟩) S) :
    Accepts n (t :: r) C (Parser.peek >>= f) S := by
  refine peek fun l hl ↦ ?_
  obtain ⟨t', pos⟩ := l
  obtain rfl : t' = t := ahead_cons.mp hl
  exact hf pos

theorem skip_of {k : Nat} (hk : n ≤ k + 1) {f : Unit → Parser β} (ht : t ≠ .eof)
    (hf : Accepts k r C (f ()) S) : Accepts n (t :: r) C (Parser.skip >>= f) S := by
  intro used rest hused hnext hn
  obtain ⟨l, used, rfl, rfl, rfl⟩ := List.map_eq_cons_iff.mp hused
  have hlen : (used ++ rest).length ≤ k := by
    simp only [List.cons_append, List.length_cons] at hn
    omega
  obtain ⟨b, hb, hs⟩ := hf used rest rfl hnext hlen
  refine ⟨b, bind_eq_ok.mpr ⟨(), used ++ rest, ?_, hb⟩, hs⟩
  change Except.ok ((), if l.token = .eof then l :: used ++ rest else used ++ rest) = _
  rw [if_neg ht]

theorem skip [ht : t.Inner] {f : Unit → Parser β} (hf : Accepts n r C (f ()) S) :
    Accepts n (t :: r) C (Parser.skip >>= f) S := skip_of (Nat.le_succ _) ht.ne_eof hf

theorem sees_hit {f : Bool → Parser β} (ht : ∀ t', Ahead r C t' → t' = t)
    (hf : Accepts n r C (f true) S) : Accepts n r C (Parser.sees t >>= f) S := by
  unfold Parser.sees
  simp only [bind_assoc, pure_bind]
  exact peek fun l hl ↦ by simpa [ht _ hl] using hf

theorem sees_miss {f : Bool → Parser β} (ht : ∀ t', Ahead r C t' → t' ≠ t)
    (hf : Accepts n r C (f false) S) : Accepts n r C (Parser.sees t >>= f) S := by
  unfold Parser.sees
  simp only [bind_assoc, pure_bind]
  exact peek fun l hl ↦ by simpa [ht _ hl] using hf

theorem blockEnds_hit {f : Bool → Parser β} (ht : ∀ t', Ahead r C t' → t'.closes)
    (hf : Accepts n r C (f true) S) : Accepts n r C (Parser.blockEnds >>= f) S := by
  unfold Parser.blockEnds
  simp only [bind_assoc]
  refine peek fun l hl ↦ ?_
  have hcloses := ht _ hl
  unfold Token.closes at hcloses
  split <;> simp_all

theorem blockEnds_miss {f : Bool → Parser β} (ht : ∀ t', Ahead r C t' → t'.closes = false)
    (hf : Accepts n r C (f false) S) : Accepts n r C (Parser.blockEnds >>= f) S := by
  unfold Parser.blockEnds
  simp only [bind_assoc]
  refine peek fun l hl ↦ ?_
  have hcloses := ht _ hl
  unfold Token.closes at hcloses
  split <;> simp_all

theorem eat_of {k : Nat} (hk : n ≤ k + 1) {f : Bool → Parser β} (ht : t ≠ .eof)
    (hf : Accepts k r C (f true) S) : Accepts n (t :: r) C (Parser.eat t >>= f) S := by
  unfold Parser.eat
  simp only [bind_assoc]
  refine sees_hit (by simp) ?_
  rw [if_pos rfl]
  simp only [bind_assoc, pure_bind]
  exact skip_of hk ht hf

theorem eat [ht : t.Inner] {f : Bool → Parser β} (hf : Accepts n r C (f true) S) :
    Accepts n (t :: r) C (Parser.eat t >>= f) S := eat_of (Nat.le_succ _) ht.ne_eof hf

theorem eat_lt [ht : t.Inner] {f : Bool → Parser β} (hf : Accepts n r C (f true) S) :
    Accepts (n + 1) (t :: r) C (Parser.eat t >>= f) S := eat_of (Nat.le_refl _) ht.ne_eof hf

theorem eat_miss {f : Bool → Parser β} (ht : ∀ t', Ahead r C t' → t' ≠ t)
    (hf : Accepts n r C (f false) S) : Accepts n r C (Parser.eat t >>= f) S := by
  unfold Parser.eat
  simp only [bind_assoc]
  refine sees_miss ht ?_
  rw [if_neg Bool.false_ne_true]
  simpa using hf

theorem expect [t.Inner] {f : Unit → Parser β} (hf : Accepts n r C (f ()) S) :
    Accepts n (t :: r) C (Parser.expect t >>= f) S := by
  unfold Parser.expect
  simp only [bind_assoc]
  refine eat ?_
  simpa using hf

theorem close [t.Inner] {opener : Token} {opened : Position} {f : Unit → Parser β}
    (hf : Accepts n r C (f ()) S) :
    Accepts n (t :: r) C (Parser.close t opener opened >>= f) S := by
  unfold Parser.close
  simp only [bind_assoc]
  refine eat ?_
  simpa using hf

theorem zero {r : List Token} {m : Parser β} (hr : r ≠ []) : Accepts 0 r C m S := by
  intro used rest hused _ hn
  obtain rfl : used = [] := by
    simp only [List.length_append] at hn
    exact List.length_eq_zero_iff.mp (by omega)
  exact absurd hused.symm hr

theorem named (a : String) : Accepts n [.name a] C Parser.name (· = a) := by
  unfold Parser.name
  exact peek_cons fun pos ↦ skip (pure rfl)

theorem name {a : String} {f : String → Parser β} (hf : Accepts n r C (f a) S) :
    Accepts n (.name a :: r) C (Parser.name >>= f) S :=
  bind (D := fun _ ↦ True) (named a) (fun _ _ ↦ trivial) fun _ h ↦ h ▸ hf

end Accepts

end Parser

end MiniLua
