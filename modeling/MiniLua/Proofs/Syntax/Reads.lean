import MiniLua.Proofs.Syntax.Grammar

/-!
What a parser takes from the lexemes, told together with its result. A loop of the parser has as
much fuel as there are lexemes, so a lexeme taken pays for a round.
-/

namespace MiniLua

namespace Parser

variable {α β : Type}

/-- Lexemes of which the last and no other is the end of the text. -/
inductive Ended : List Lexeme → Prop
  | eof (pos : Position) : Ended [⟨.eof, pos⟩]
  | cons {l : Lexeme} {rest : List Lexeme} (h : l.token ≠ .eof) (hrest : Ended rest) :
      Ended (l :: rest)

/-- From at most `n` lexemes, the first of which is as `next` says, the parser takes some that
its result accounts for. What is left ends as before; `R` is also told what comes next. -/
def Reads (n : Nat) (next : Token → Prop) (m : Parser α) (R : α → List Token → Token → Prop) :
    Prop :=
  ∀ ts, Ended ts → ts.length ≤ n → next (ahead ts).token → ∀ a ts', m ts = .ok (a, ts') →
    ∃ used, ts = used ++ ts' ∧ Ended ts' ∧ R a (used.map Lexeme.token) (ahead ts').token

namespace Reads

variable {n : Nat} {next : Token → Prop} {m : Parser α} {f : α → Parser β}
  {R : α → List Token → Token → Prop} {S : β → List Token → Token → Prop}

theorem mono {S' : β → List Token → Token → Prop} {m : Parser β} (hm : Reads n next m S)
    (h : ∀ b r t, S b r t → S' b r t) : Reads n next m S' := by
  intro ts hts hn hnext b ts' hb
  obtain ⟨used, rfl, hts', hs⟩ := hm ts hts hn hnext b ts' hb
  exact ⟨used, rfl, hts', h _ _ _ hs⟩

theorem of_le {k : Nat} (hm : Reads n next m R) (hk : k ≤ n) : Reads k next m R :=
  fun ts hts hn ↦ hm ts hts (Nat.le_trans hn hk)

theorem weaken {next' : Token → Prop} (hm : Reads n next m R) (h : ∀ t, next' t → next t) :
    Reads n next' m R :=
  fun ts hts hn hnext ↦ hm ts hts hn (h _ hnext)

theorem pure {b : β} (h : ∀ t, next t → S b [] t) : Reads n next (pure b : Parser β) S := by
  rintro ts hts - hnext b ts' ⟨⟩
  exact ⟨[], rfl, hts, h _ hnext⟩

/-- What follows a parser gets fewer lexemes if that takes any. -/
theorem bind_of {k : Nat} (hm : Reads n next m R)
    (hk : ∀ a r t, R a r t → n - r.length ≤ k)
    (hf : ∀ a r t, R a r t → Reads k (· = t) (f a) fun b r' t' ↦ S b (r ++ r') t') :
    Reads n next (m >>= f) S := by
  intro ts hts hn hnext b ts'' h
  obtain ⟨a, ts', ha, hb⟩ := bind_eq_ok.mp h
  obtain ⟨used, rfl, hts', hr⟩ := hm ts hts hn hnext a ts' ha
  have hn' : ts'.length ≤ k := by
    have := hk _ _ _ hr
    simp only [List.length_append, List.length_map] at hn this
    omega
  obtain ⟨used', rfl, hts'', hs⟩ := hf _ _ _ hr ts' hts' hn' rfl b ts'' hb
  exact ⟨used ++ used', by simp, hts'', by simpa using hs⟩

theorem bind (hm : Reads n next m R)
    (hf : ∀ a r t, R a r t → Reads n (· = t) (f a) fun b r' t' ↦ S b (r ++ r') t') :
    Reads n next (m >>= f) S :=
  hm.bind_of (fun _ _ _ _ ↦ Nat.sub_le _ _) hf

theorem bind_lt (hm : Reads (n + 1) next m R) (hr : ∀ a r t, R a r t → r ≠ [])
    (hf : ∀ a r t, R a r t → Reads n (· = t) (f a) fun b r' t' ↦ S b (r ++ r') t') :
    Reads (n + 1) next (m >>= f) S := by
  refine hm.bind_of (fun a r t h ↦ ?_) hf
  have := List.length_pos_iff.mpr (hr a r t h)
  omega

theorem ite {c : Prop} [Decidable c] {m m' : Parser α} (hm : Reads n next m R)
    (hm' : Reads n next m' R) : Reads n next (if c then m else m') R := by
  split
  · exact hm
  · exact hm'

theorem ite_bind {c : Prop} [Decidable c] {m m' : Parser α} (hm : Reads n next m R)
    (hm' : Reads n next m' R)
    (hf : ∀ a r t, R a r t → Reads n (· = t) (f a) fun b r' t' ↦ S b (r ++ r') t') :
    Reads n next (if c then m >>= f else m' >>= f) S := ite (hm.bind hf) (hm'.bind hf)

theorem map {m : Parser α} {g : α → β} (hm : Reads n next m fun a r t ↦ S (g a) r t) :
    Reads n next (g <$> m) S :=
  bind (f := fun a ↦ Pure.pure (g a)) hm fun a r t h ↦ pure fun t' ht ↦ by
    subst ht
    simpa using h

theorem failAt (pos : Position) (fault : SyntaxFault) :
    Reads n next (Parser.failAt pos fault : Parser β) S := by
  rintro ts - - - a ts' ⟨⟩

theorem peek {f : Lexeme → Parser β}
    (hf : ∀ l : Lexeme, next l.token → Reads n (· = l.token) (f l) S) :
    Reads n next (Parser.peek >>= f) S := fun ts hts hn hnext ↦
  hf (ahead ts) hnext ts hts hn rfl

theorem unexpected (what : String) : Reads n next (Parser.unexpected what : Parser β) S :=
  peek fun _ _ ↦ failAt _ _

theorem unless_bind {c : Prop} [Decidable c] {what : String} {f : Unit → Parser β}
    (hf : Reads n next (f ()) S) :
    Reads n next (if c then f () else Parser.unexpected what >>= f) S :=
  ite hf (bind (R := fun _ _ _ ↦ False) (unexpected _) fun _ _ _ h ↦ h.elim)

theorem here {f : Position → Parser β} (hf : ∀ pos, Reads n next (f pos) S) :
    Reads n next (Parser.here >>= f) S := fun ts ↦ hf _ ts

theorem sees {t : Token} {f : Bool → Parser β}
    (hf : ∀ b, Reads n (fun t' ↦ next t' ∧ b = decide (t' = t)) (f b) S) :
    Reads n next (Parser.sees t >>= f) S := fun ts hts hn hnext ↦
  hf _ ts hts hn ⟨hnext, rfl⟩

theorem blockEnds {f : Bool → Parser β} (hf : ∀ b, Reads n next (f b) S) :
    Reads n next (Parser.blockEnds >>= f) S := by
  unfold Parser.blockEnds
  simp only [bind_assoc]
  refine peek fun l hl ↦ ?_
  have hf (b : Bool) : Reads n (· = l.token) (Pure.pure b >>= f) S := (hf b).weaken fun t ht ↦ ht ▸ hl
  split <;> exact hf _

/-- Past a lexeme that is known and not the end. -/
theorem skip_of {k : Nat} {t : Token} (hk : n ≤ k + 1) {f : Unit → Parser β} (ht : t ≠ .eof)
    (hf : Reads k (fun _ ↦ True) (f ()) fun b r t' ↦ S b (t :: r) t') :
    Reads n (· = t) (Parser.skip >>= f) S := by
  intro ts hts hn hnext b ts'' h
  cases hts with
  | eof pos => exact absurd hnext.symm ht
  | @cons l rest hl hrest =>
    obtain ⟨a, ts', ha, hb⟩ := bind_eq_ok.mp h
    change Except.ok ((), if l.token = .eof then l :: rest else rest) = _ at ha
    rw [if_neg hl] at ha
    cases ha
    have hn' : rest.length ≤ k := by
      simp only [List.length_cons] at hn
      omega
    obtain ⟨used, rfl, hts'', hs⟩ := hf rest hrest hn' trivial b ts'' hb
    obtain rfl : l.token = t := hnext
    exact ⟨l :: used, rfl, hts'', hs⟩

theorem skip {t t₀ : Token} [ht : t₀.Inner] (h : t = t₀) {f : Unit → Parser β}
    (hf : Reads n (fun _ ↦ True) (f ()) fun b r t' ↦ S b (t₀ :: r) t') :
    Reads n (· = t) (Parser.skip >>= f) S := by
  subst h
  exact skip_of (Nat.le_succ _) ht.ne_eof hf

theorem skip_lt {t t₀ : Token} [ht : t₀.Inner] (h : t = t₀) {f : Unit → Parser β}
    (hf : Reads n (fun _ ↦ True) (f ()) fun b r t' ↦ S b (t₀ :: r) t') :
    Reads (n + 1) (· = t) (Parser.skip >>= f) S := by
  subst h
  exact skip_of (Nat.le_refl _) ht.ne_eof hf

/-- Past two lexemes that are known. -/
theorem skip_skip {l l' : Lexeme} {rest : List Lexeme} (hl : l.token ≠ .eof)
    (hl' : l'.token ≠ .eof) (f : Unit → Parser β) :
    (Parser.skip >>= fun _ ↦ Parser.skip >>= f) (l :: l' :: rest) = f () rest := by
  change (fun ts ↦ (Parser.skip >>= f) ts) (if l.token = .eof then l :: l' :: rest else l' :: rest) = _
  rw [if_neg hl]
  change f () (if l'.token = .eof then l' :: rest else rest) = _
  rw [if_neg hl']

theorem eat_of {k : Nat} {t : Token} (hk : n ≤ k + 1) {f : Bool → Parser β} (ht : t ≠ .eof)
    (hyes : Reads k (fun _ ↦ True) (f true) fun b r t' ↦ S b (t :: r) t')
    (hno : Reads n (fun t' ↦ next t' ∧ t' ≠ t) (f false) S) :
    Reads n next (Parser.eat t >>= f) S := by
  intro ts hts hn hnext b ts'' h
  obtain ⟨a, ts', ha, hb⟩ := bind_eq_ok.mp h
  change (if decide ((ahead ts).token = t) = true then _ else _ : Parser Bool) ts = _ at ha
  by_cases hat : (ahead ts).token = t
  · rw [if_pos (by simpa using hat)] at ha
    obtain ⟨u, ts₁, hskip, ha⟩ := bind_eq_ok.mp ha
    cases ha
    exact skip_of hk ht hyes ts hts hn hat b ts'' ((bind_eq_ok (f := fun _ ↦ f true)).mpr ⟨u, _, hskip, hb⟩)
  · rw [if_neg (by simpa using hat)] at ha
    cases ha
    exact hno ts hts hn ⟨hnext, hat⟩ b ts'' hb

theorem eat {t : Token} [ht : t.Inner] {f : Bool → Parser β}
    (hyes : Reads n (fun _ ↦ True) (f true) fun b r t' ↦ S b (t :: r) t')
    (hno : Reads n (fun t' ↦ next t' ∧ t' ≠ t) (f false) S) :
    Reads n next (Parser.eat t >>= f) S := eat_of (Nat.le_succ _) ht.ne_eof hyes hno

theorem eat_lt {t : Token} [ht : t.Inner] {f : Bool → Parser β}
    (hyes : Reads n (fun _ ↦ True) (f true) fun b r t' ↦ S b (t :: r) t')
    (hno : Reads (n + 1) (fun t' ↦ next t' ∧ t' ≠ t) (f false) S) :
    Reads (n + 1) next (Parser.eat t >>= f) S := eat_of (Nat.le_refl _) ht.ne_eof hyes hno

theorem expect {t : Token} [t.Inner] {f : Unit → Parser β}
    (hf : Reads n (fun _ ↦ True) (f ()) fun b r t' ↦ S b (t :: r) t') :
    Reads n next (Parser.expect t >>= f) S := by
  unfold Parser.expect
  simp only [bind_assoc]
  exact eat hf (bind (R := fun _ _ _ ↦ False) (unexpected _) fun _ _ _ h ↦ h.elim)

theorem close {closing opener : Token} [closing.Inner] {opened : Position} {f : Unit → Parser β}
    (hf : Reads n (fun _ ↦ True) (f ()) fun b r t' ↦ S b (closing :: r) t') :
    Reads n next (Parser.close closing opener opened >>= f) S := by
  unfold Parser.close
  simp only [bind_assoc]
  refine eat hf ?_
  rw [if_neg Bool.false_ne_true, bind_assoc]
  refine peek fun l _ ↦ ?_
  split
  · exact bind (R := fun _ _ _ ↦ False) (unexpected _) fun _ _ _ h ↦ h.elim
  · exact bind (R := fun _ _ _ ↦ False) (failAt _ _) fun _ _ _ h ↦ h.elim

theorem name : Reads n next Parser.name fun a r _ ↦ r = [.name a] := by
  unfold Parser.name
  refine peek fun l _ ↦ ?_
  split
  · exact skip ‹_› (pure fun _ _ ↦ rfl)
  · exact unexpected _

theorem name_bind {f : String → Parser β}
    (hf : ∀ a, Reads n (fun _ ↦ True) (f a) fun b r t' ↦ S b (.name a :: r) t') :
    Reads n next (Parser.name >>= f) S :=
  name.bind fun a r t h ↦ by
    subst h
    exact (hf a).weaken fun _ _ ↦ trivial

/-- Items after commas: `L` says how a list is written, found so far as `pre`. -/
theorem commaList {item : Parser α} {W : α → List Token → Prop}
    {L : List α → List Token → Prop} {E : Token → Prop} {bound : Nat}
    (hitem : ∀ next, Reads bound next item fun a r t ↦ W a r ∧ E t)
    (hsnoc : ∀ as a ts ts', L as ts → W a ts' → L (as ++ [a]) (ts ++ .symbol .comma :: ts'))
    (hn : n ≤ bound) {found : List α} {pre : List Token} (hfound : L found.reverse pre) :
    Reads n E (Parser.commaList item n found) fun as r t ↦ L as (pre ++ r) ∧ E t := by
  induction n generalizing found pre with
  | zero =>
    intro ts hts hn
    cases hts <;> simp at hn
  | succ n ih =>
    unfold Parser.commaList
    refine eat_lt ?_ ?_
    · refine ((hitem _).of_le (by omega)).bind fun a r t h ↦ ?_
      have hmore : L (a :: found).reverse (pre ++ .symbol .comma :: r) := by
        simpa using hsnoc _ _ _ _ hfound h.1
      refine mono (weaken (ih (by omega) hmore) ?_) fun as r' t' h' ↦ by simpa using h'
      rintro t' rfl
      exact h.2
    · exact pure fun t ht ↦ ⟨by simpa using hfound, ht.1⟩

end Reads

end Parser

end MiniLua
