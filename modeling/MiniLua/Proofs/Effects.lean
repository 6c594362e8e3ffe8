import Mathlib.Order.Defs.Unbundled

/-!
Programs that may fail and keep their state when they do. Applied to a state they compute by the
equations here; what ends well is taken apart by `bind_eq_ok`. `Keeps` is about the states before
and after, however a program ends.
-/

namespace MiniLua.Effects

variable {ε σ α β : Type}

theorem bind_apply (m : EStateM ε σ α) (f : α → EStateM ε σ β) (s : σ) :
    (m >>= f) s = match m s with
      | .ok a t => f a t
      | .error e t => .error e t := rfl

theorem bind_of_ok {m : EStateM ε σ α} {f : α → EStateM ε σ β} {s t : σ} {a : α}
    (h : m s = .ok a t) : (m >>= f) s = f a t := by rw [bind_apply, h]

theorem bind_of_error {m : EStateM ε σ α} {f : α → EStateM ε σ β} {s t : σ} {e : ε}
    (h : m s = .error e t) : (m >>= f) s = .error e t := by rw [bind_apply, h]

theorem pure_apply (a : α) (s : σ) : (pure a : EStateM ε σ α) s = .ok a s := rfl

theorem map_apply (f : α → β) (m : EStateM ε σ α) (s : σ) :
    (f <$> m) s = match m s with
      | .ok a t => .ok (f a) t
      | .error e t => .error e t := rfl

theorem get_apply (s : σ) : (get : EStateM ε σ σ) s = .ok s s := rfl

theorem modify_apply (f : σ → σ) (s : σ) : (modify f : EStateM ε σ PUnit) s = .ok ⟨⟩ (f s) := rfl

theorem modifyGet_apply (f : σ → α × σ) (s : σ) :
    (modifyGet f : EStateM ε σ α) s = .ok (f s).1 (f s).2 := rfl

theorem throw_apply (e : ε) (s : σ) : (throw e : EStateM ε σ α) s = .error e s := rfl

theorem bind_eq_ok {m : EStateM ε σ α} {f : α → EStateM ε σ β} {s t : σ} {b : β} :
    (m >>= f) s = .ok b t ↔ ∃ a u, m s = .ok a u ∧ f a u = .ok b t := by
  rw [bind_apply]
  cases m s <;> grind

theorem pure_eq_ok {a b : α} {s t : σ} :
    (pure a : EStateM ε σ α) s = .ok b t ↔ a = b ∧ s = t := by
  rw [pure_apply, EStateM.Result.ok.injEq]

theorem map_eq_ok {m : EStateM ε σ α} {f : α → β} {s t : σ} {b : β} :
    (f <$> m) s = .ok b t ↔ ∃ a, m s = .ok a t ∧ f a = b := by
  rw [map_apply]
  cases m s <;> grind

theorem throw_ne_ok {e : ε} {a : α} {s t : σ} : (throw e : EStateM ε σ α) s ≠ .ok a t := by
  rw [throw_apply]
  exact fun h ↦ nomatch h

/-- The state a program ends in, well or not. -/
def final : EStateM.Result ε σ α → σ
  | .ok _ s => s
  | .error _ s => s

@[simp] theorem final_ok (a : α) (s : σ) : final (.ok a s : EStateM.Result ε σ α) = s := rfl

@[simp] theorem final_error (e : ε) (s : σ) :
    final (.error e s : EStateM.Result ε σ α) = s := rfl

/-- `R` holds between the state a program starts in and the state it ends in. -/
def Keeps (R : σ → σ → Prop) (m : EStateM ε σ α) : Prop := ∀ s, R s (final (m s))

namespace Keeps

variable {R : σ → σ → Prop} {m : EStateM ε σ α}

theorem mono {R' : σ → σ → Prop} (h : Keeps R m) (hR : ∀ s t, R s t → R' s t) : Keeps R' m :=
  fun s ↦ hR _ _ (h s)

theorem modifyGet {f : σ → α × σ} (h : ∀ s, R s (f s).2) :
    Keeps R (modifyGet f : EStateM ε σ α) := h

theorem modify {f : σ → σ} (h : ∀ s, R s (f s)) : Keeps R (modify f : EStateM ε σ PUnit) := h

theorem bind [IsTrans σ R] {f : α → EStateM ε σ β} (h : Keeps R m) (hf : ∀ a, Keeps R (f a)) :
    Keeps R (m >>= f) := by
  intro s
  have hs := h s
  rw [bind_apply]
  cases hm : m s with
  | error e t => rwa [hm] at hs
  | ok a t =>
    rw [hm, final_ok] at hs
    exact IsTrans.trans _ _ _ hs (hf a t)

theorem ite_bind [IsTrans σ R] {c : Prop} [Decidable c] {n : EStateM ε σ α}
    {f : α → EStateM ε σ β} (h : Keeps R m) (h' : Keeps R n) (hf : ∀ a, Keeps R (f a)) :
    Keeps R (if c then m >>= f else n >>= f) := by
  split
  · exact h.bind hf
  · exact h'.bind hf

theorem map (h : Keeps R m) (f : α → β) : Keeps R (f <$> m) := by
  intro s
  have hs := h s
  rw [map_apply]
  cases hm : m s <;> rwa [hm] at hs

variable [Std.Refl R]

theorem pure (a : α) : Keeps R (Pure.pure a : EStateM ε σ α) := fun s ↦ Std.Refl.refl s

theorem throw (e : ε) : Keeps R (throw e : EStateM ε σ α) := fun s ↦ Std.Refl.refl s

theorem get : Keeps R (get : EStateM ε σ σ) := fun s ↦ Std.Refl.refl s

theorem mapM [IsTrans σ R] {γ : Type} {f : γ → EStateM ε σ α} (hf : ∀ c, Keeps R (f c))
    (cs : List γ) : Keeps R (cs.mapM f) := by
  induction cs with
  | nil => exact pure _
  | cons c cs ih =>
    rw [List.mapM_cons]
    exact (hf c).bind fun _ ↦ ih.bind fun _ ↦ pure _

end Keeps

/-- What a program returns, if it ends well, has property `P`. -/
def Returns (P : α → Prop) (m : EStateM ε σ α) : Prop := ∀ s a t, m s = .ok a t → P a

namespace Returns

variable {P : β → Prop}

theorem pure {b : β} (h : P b) : Returns P (pure b : EStateM ε σ β) := by
  intro s a t ha
  obtain ⟨rfl, -⟩ := pure_eq_ok.mp ha
  exact h

theorem throw (e : ε) : Returns P (throw e : EStateM ε σ β) :=
  fun _ _ _ h ↦ absurd h throw_ne_ok

theorem bind {m : EStateM ε σ α} {f : α → EStateM ε σ β} (h : ∀ a, Returns P (f a)) :
    Returns P (m >>= f) := by
  intro s b t hb
  obtain ⟨a, u, -, hf⟩ := bind_eq_ok.mp hb
  exact h a u b t hf

end Returns

/-- Two programs run side by side and end alike. `I` relates the states they end in and `P` what
they return, or `E` their errors; each of them goes from its start to its end as `K` says. -/
inductive Sync {α' : Type} (E : σ → σ → ε → ε → Prop) (I K : σ → σ → Prop)
    (P : σ → σ → α → α' → Prop) (s s' : σ) : EStateM.Result ε σ α → EStateM.Result ε σ α' → Prop
  | ok {a : α} {a' : α'} {t t' : σ} (ht : I t t') (hs : K s t) (hs' : K s' t') (ha : P t t' a a') :
      Sync E I K P s s' (.ok a t) (.ok a' t')
  | error {e e' : ε} {t t' : σ} (ht : I t t') (hs : K s t) (hs' : K s' t') (he : E t t' e e') :
      Sync E I K P s s' (.error e t) (.error e' t')

namespace Sync

variable {α' β' : Type} {E : σ → σ → ε → ε → Prop} {I K : σ → σ → Prop} {P : σ → σ → α → α' → Prop}
  {s s' : σ}

theorem pure [Std.Refl K] (h : I s s') {a : α} {a' : α'} (ha : P s s' a a') :
    Sync E I K P s s' ((pure a : EStateM ε σ α) s) ((pure a' : EStateM ε σ α') s') :=
  .ok h (Std.Refl.refl s) (Std.Refl.refl s') ha

theorem throw [Std.Refl K] (h : I s s') {e e' : ε} (he : E s s' e e') :
    Sync E I K P s s' ((throw e : EStateM ε σ α) s) ((throw e' : EStateM ε σ α') s') :=
  .error h (Std.Refl.refl s) (Std.Refl.refl s') he

theorem bind [IsTrans σ K] {Q : σ → σ → α → α' → Prop} {P : σ → σ → β → β' → Prop}
    {m : EStateM ε σ α} {m' : EStateM ε σ α'} {f : α → EStateM ε σ β} {f' : α' → EStateM ε σ β'}
    (hm : Sync E I K Q s s' (m s) (m' s'))
    (hf : ∀ a a' t t', I t t' → K s t → K s' t' → Q t t' a a' →
      Sync E I K P t t' (f a t) (f' a' t')) :
    Sync E I K P s s' ((m >>= f) s) ((m' >>= f') s') := by
  rw [bind_apply, bind_apply]
  generalize m s = r, m' s' = r' at hm
  cases hm with
  | error ht hs hs' he => exact .error ht hs hs' he
  | ok ht hs hs' ha =>
    have h := hf _ _ _ _ ht hs hs' ha
    dsimp only
    generalize f _ _ = r, f' _ _ = r' at h
    cases h with
    | ok hu ht ht' hb =>
      exact .ok hu (IsTrans.trans _ _ _ hs ht) (IsTrans.trans _ _ _ hs' ht') hb
    | error hu ht ht' he =>
      exact .error hu (IsTrans.trans _ _ _ hs ht) (IsTrans.trans _ _ _ hs' ht') he

theorem mono {J : σ → σ → Prop} {Q : σ → σ → α → α' → Prop} {r : EStateM.Result ε σ α}
    {r' : EStateM.Result ε σ α'} (h : Sync E I K P s s' r r')
    (hIJ : ∀ t t', I t t' → K s t → K s' t' → J t t')
    (hPQ : ∀ t t' a a', K s t → K s' t' → P t t' a a' → Q t t' a a') : Sync E J K Q s s' r r' := by
  cases h with
  | ok ht hs hs' ha => exact .ok (hIJ _ _ ht hs hs') hs hs' (hPQ _ _ _ _ hs hs' ha)
  | error ht hs hs' he => exact .error (hIJ _ _ ht hs hs') hs hs' he

end Sync

end MiniLua.Effects
