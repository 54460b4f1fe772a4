import RegexMachine.Scan.State

/-!
# Computations that concur

Two computations over related states concur when they both return related values, or both fail with
the same failure, and leave related states. What concurs with itself over states that differ in some
part does not depend on that part. One computation follows another when it concurs with it unless it
is given up on the way.
-/

namespace RegexMachine

variable {ε σ α β γ δ : Type}

theorem run_get (s : σ) : (get : EStateM ε σ σ) s = .ok s s := rfl

theorem run_modify (f : σ → σ) (s : σ) : (modify f : EStateM ε σ PUnit) s = .ok ⟨⟩ (f s) := rfl

/-- Both return related values, or both fail with the same failure, and leave related states. -/
def Agree (R : σ → σ → Prop) (Q : α → β → Prop) :
    EStateM.Result ε σ α → EStateM.Result ε σ β → Prop
  | .ok a t, .ok b t' => Q a b ∧ R t t'
  | .error e t, .error e' t' => e = e' ∧ R t t'
  | _, _ => False

/-- Results that agree are two values or the same failure. -/
theorem Agree.exists_ends {R : σ → σ → Prop} {Q : α → β → Prop} {r : EStateM.Result ε σ α}
    {r' : EStateM.Result ε σ β} (h : Agree R Q r r') :
    (∃ a b t t', r = .ok a t ∧ r' = .ok b t' ∧ Q a b ∧ R t t') ∨
      ∃ e t t', r = .error e t ∧ r' = .error e t' ∧ R t t' := by
  cases r with
  | ok a t =>
    cases r' with
    | ok b t' => exact .inl ⟨a, b, t, t', rfl, rfl, h⟩
    | error e' t' => exact h.elim
  | error e t =>
    cases r' with
    | ok b t' => exact h.elim
    | error e' t' =>
      obtain ⟨rfl, ht⟩ := h
      exact .inr ⟨e, t, t', rfl, rfl, ht⟩

/-- From related states the first computation is given up with one of these failures, or the results
agree. -/
def Follows (A : ε → Prop) (R : σ → σ → Prop) (Q : α → β → Prop) (x : EStateM ε σ α)
    (y : EStateM ε σ β) : Prop :=
  ∀ s s', R s s' → (∃ e t, x s = .error e t ∧ A e) ∨ Agree R Q (x s) (y s')

/-- The results agree, as neither computation is given up. -/
abbrev Concurs (R : σ → σ → Prop) (Q : α → β → Prop) (x : EStateM ε σ α) (y : EStateM ε σ β) : Prop :=
  Follows (fun _ => False) R Q x y

variable {A : ε → Prop} {R : σ → σ → Prop} {Q : α → β → Prop}

theorem follows_pure {a : α} {b : β} (h : Q a b) :
    Follows A R Q (pure a : EStateM ε σ α) (pure b : EStateM ε σ β) :=
  fun _ _ hs => .inr ⟨h, hs⟩

theorem follows_throw (e : ε) :
    Follows A R Q (throw e : EStateM ε σ α) (throw e : EStateM ε σ β) :=
  fun _ _ hs => .inr ⟨rfl, hs⟩

theorem follows_get : Follows A R R (get : EStateM ε σ σ) (get : EStateM ε σ σ) :=
  fun _ _ hs => .inr ⟨hs, hs⟩

theorem follows_set {s s' : σ} (h : R s s') :
    Follows A R Eq (set s : EStateM ε σ PUnit) (set s' : EStateM ε σ PUnit) :=
  fun _ _ _ => .inr ⟨rfl, h⟩

theorem follows_modify {f g : σ → σ} (h : ∀ s s', R s s' → R (f s) (g s')) :
    Follows A R Eq (modify f : EStateM ε σ PUnit) (modify g : EStateM ε σ PUnit) :=
  fun s s' hs => .inr ⟨rfl, h s s' hs⟩

/-- What was given up stays given up; otherwise the rest goes on from related values and states. -/
theorem follows_bind_at {P : γ → δ → Prop} {x : EStateM ε σ α} {y : EStateM ε σ β}
    {f : α → EStateM ε σ γ} {g : β → EStateM ε σ δ} {s s' : σ}
    (h : (∃ e t, x s = .error e t ∧ A e) ∨ Agree R Q (x s) (y s'))
    (hfg : ∀ a b, Q a b → Follows A R P (f a) (g b)) :
    (∃ e t, (x >>= f) s = .error e t ∧ A e) ∨ Agree R P ((x >>= f) s) ((y >>= g) s') := by
  change (∃ e t, EStateM.bind x f s = .error e t ∧ A e) ∨
    Agree R P (EStateM.bind x f s) (EStateM.bind y g s')
  simp only [EStateM.bind]
  rcases h with ⟨e, t, hx, he⟩ | hxy
  · rw [hx]
    exact .inl ⟨e, t, rfl, he⟩
  obtain ⟨a, b, t, t', hx, hy, hab, ht⟩ | ⟨e, t, t', hx, hy, ht⟩ := hxy.exists_ends
  · rw [hx, hy]
    exact hfg a b hab t t' ht
  · rw [hx, hy]
    exact .inr ⟨rfl, ht⟩

theorem Follows.bind {P : γ → δ → Prop} {x : EStateM ε σ α} {y : EStateM ε σ β}
    {f : α → EStateM ε σ γ} {g : β → EStateM ε σ δ} (h : Follows A R Q x y)
    (hfg : ∀ a b, Q a b → Follows A R P (f a) (g b)) : Follows A R P (x >>= f) (y >>= g) :=
  fun s s' hs => follows_bind_at (h s s' hs) hfg

theorem Follows.andThen {P : γ → δ → Prop} {x y : EStateM ε σ α} {f : α → EStateM ε σ γ}
    {g : α → EStateM ε σ δ} (h : Follows A R Eq x y) (hfg : ∀ a, Follows A R P (f a) (g a)) :
    Follows A R P (x >>= f) (y >>= g) :=
  h.bind fun a b hab => by
    subst hab
    exact hfg a

theorem follows_self (x : EStateM ε σ α) : Follows A Eq Eq x x := by
  rintro s _ rfl
  cases x s <;> exact .inr ⟨rfl, rfl⟩

theorem Follows.imp {P : α → β → Prop} {x : EStateM ε σ α} {y : EStateM ε σ β}
    (h : Follows A R Q x y) (hQP : ∀ a b, Q a b → P a b) : Follows A R P x y := by
  intro s s' hs
  obtain hgiven | hagree := h s s' hs
  · exact .inl hgiven
  obtain ⟨a, b, t, t', hx, hy, hab, ht⟩ | ⟨e, t, t', hx, hy, ht⟩ := hagree.exists_ends
  · rw [hx, hy]
    exact .inr ⟨hQP a b hab, ht⟩
  · rw [hx, hy]
    exact .inr ⟨rfl, ht⟩

/-- What a computation answers: the value that it returns, or its failure. -/
def answer : EStateM.Result ε σ α → Except ε α
  | .ok a _ => .ok a
  | .error e _ => .error e

/-- The state that a computation leaves. -/
def stateLeft : EStateM.Result ε σ α → σ
  | .ok _ s | .error _ s => s

theorem Agree.answer_eq {r r' : EStateM.Result ε σ α} (h : Agree R Eq r r') :
    answer r = answer r' ∧ R (stateLeft r) (stateLeft r') := by
  obtain ⟨a, _, t, t', rfl, rfl, rfl, ht⟩ | ⟨e, t, t', rfl, rfl, ht⟩ := h.exists_ends
  · exact ⟨rfl, ht⟩
  · exact ⟨rfl, ht⟩

theorem Follows.answer_eq_or {x y : EStateM ε σ α} (h : Follows A R Eq x y) {s s' : σ} (hs : R s s') :
    (∃ e, answer (x s) = .error e ∧ A e) ∨ answer (x s) = answer (y s') := by
  rcases h s s' hs with ⟨e, t, hx, he⟩ | hxy
  · rw [hx]
    exact .inl ⟨e, rfl, he⟩
  · exact .inr hxy.answer_eq.1

theorem Concurs.agree {x : EStateM ε σ α} {y : EStateM ε σ β} (h : Concurs R Q x y) {s s' : σ}
    (hs : R s s') : Agree R Q (x s) (y s') :=
  (h s s' hs).resolve_left fun ⟨_, _, _, hfalse⟩ => hfalse

theorem Concurs.answer_eq {x y : EStateM ε σ α} (h : Concurs R Eq x y) {s s' : σ} (hs : R s s') :
    answer (x s) = answer (y s') ∧ R (stateLeft (x s)) (stateLeft (y s')) :=
  (h.agree hs).answer_eq

end RegexMachine
