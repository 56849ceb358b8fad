import Mathlib.Tactic.Common

/-! Sequential programs over a state that may fail, as a relation between the states before and after.

`Returns m s a s'` holds when `m` started in `s` comes back with `a` in `s'`. The rules take a program
apart at each bind; a program that fails has no result. -/

set_option autoImplicit false

namespace Semantics

open Except

variable {σ ε α β : Type} {m : StateT σ (Except ε) α} {f : α → StateT σ (Except ε) β} {s s' : σ} {a : α}

section Returns

def Returns (m : StateT σ (Except ε) α) (s : σ) (a : α) (s' : σ) : Prop := m.run s = .ok (a, s')

variable {s'' : σ} {b : α} {c : β}

@[simp] theorem returns_pure : Returns (pure a : StateT σ (Except ε) α) s b s' ↔ b = a ∧ s' = s := by
  change ok (a, s) = ok (b, s') ↔ _
  rw [ok.injEq, Prod.mk.injEq, eq_comm, @eq_comm _ s]

@[simp] theorem returns_bind : Returns (m >>= f) s c s'' ↔ ∃ a s', Returns m s a s' ∧ Returns (f a) s' c s'' := by
  unfold Returns
  rw [StateT.run_bind]
  cases m.run s with
  | error e => exact ⟨fun wrong => (nomatch wrong), fun ⟨_, _, wrong, _⟩ => (nomatch wrong)⟩
  | ok r =>
    refine ⟨fun run => ⟨r.1, r.2, rfl, run⟩, ?_⟩
    rintro ⟨a, s', same, run⟩
    cases same
    exact run

@[simp] theorem returns_map {g : α → β} : Returns (g <$> m) s c s' ↔ ∃ a, Returns m s a s' ∧ c = g a := by
  rw [map_eq_pure_bind, returns_bind]
  simp only [returns_pure]
  refine ⟨?_, ?_⟩
  · rintro ⟨a, s₁, run, rfl, rfl⟩
    exact ⟨a, run, rfl⟩
  · rintro ⟨a, run, rfl⟩
    exact ⟨a, s', run, rfl, rfl⟩

@[simp] theorem returns_get {t : σ} : Returns (get : StateT σ (Except ε) σ) s t s' ↔ t = s ∧ s' = s := by
  change ok (s, s) = ok (t, s') ↔ _
  rw [ok.injEq, Prod.mk.injEq, eq_comm, @eq_comm _ s]

@[simp] theorem returns_modify {g : σ → σ} {u : PUnit} :
    Returns (modify g : StateT σ (Except ε) PUnit) s u s' ↔ s' = g s := by
  change ok (PUnit.unit, g s) = ok (u, s') ↔ _
  rw [ok.injEq, Prod.mk.injEq, eq_comm, @eq_comm _ s', eq_comm]
  simp [eq_comm]

@[simp] theorem returns_throw {e : ε} : ¬Returns (throw e : StateT σ (Except ε) α) s a s' :=
  fun wrong => nomatch wrong

/-! The state a program reads or has just set needs no name of its own. -/

theorem returns_get_bind {f : σ → StateT σ (Except ε) β} :
    Returns (get >>= f) s c s'' ↔ Returns (f s) s c s'' := Iff.rfl

theorem returns_modify_bind {g : σ → σ} {f : PUnit → StateT σ (Except ε) β} :
    Returns (modify g >>= f) s c s'' ↔ Returns (f ⟨⟩) (g s) c s'' := Iff.rfl

theorem Returns.unique (first : Returns m s a s') (second : Returns m s b s'') : a = b ∧ s' = s'' := by
  have same := first.symm.trans second
  rw [ok.injEq, Prod.mk.injEq] at same
  exact same

def final (m : StateT σ (Except ε) α) (s : σ) : σ :=
  match m.run s with
  | .ok r => r.2
  | .error _ => s

theorem returns_final (value : (m.run s).toOption.map Prod.fst = some a) : Returns m s a (final m s) := by
  unfold Returns final
  cases run : m.run s with
  | error e =>
    rw [run] at value
    exact (nomatch value)
  | ok r =>
    rw [run] at value
    cases value
    rfl

end Returns

section Fails

def Fails (m : StateT σ (Except ε) α) (s : σ) (e : ε) : Prop := m.run s = .error e

variable {e e' : ε}

def failure (m : StateT σ (Except ε) α) (s : σ) : Option ε :=
  match m.run s with
  | .error e => some e
  | .ok _ => none

theorem fails_of_failure (value : failure m s = some e) : Fails m s e := by
  unfold failure at value
  unfold Fails
  cases run : m.run s with
  | error e' =>
    rw [run] at value
    exact congrArg error (Option.some.inj value)
  | ok r =>
    rw [run] at value
    exact (nomatch value)

@[simp] theorem fails_pure : ¬Fails (pure a : StateT σ (Except ε) α) s e := fun wrong => nomatch wrong

@[simp] theorem fails_get : ¬Fails (get : StateT σ (Except ε) σ) s e := fun wrong => nomatch wrong

@[simp] theorem fails_modify {g : σ → σ} : ¬Fails (modify g : StateT σ (Except ε) PUnit) s e :=
  fun wrong => nomatch wrong

@[simp] theorem fails_throw : Fails (throw e' : StateT σ (Except ε) α) s e ↔ e = e' := by
  change error e' = error e ↔ _
  rw [error.injEq, eq_comm]

@[simp] theorem fails_bind : Fails (m >>= f) s e ↔ Fails m s e ∨ ∃ a s', Returns m s a s' ∧ Fails (f a) s' e := by
  unfold Fails Returns
  rw [StateT.run_bind]
  cases run : m.run s with
  | error e' =>
    change error e' = error e ↔ _
    simp only [error.injEq, reduceCtorEq, false_and, exists_false, or_false]
  | ok r =>
    change (f r.1).run r.2 = error e ↔ _
    refine ⟨fun later => .inr ⟨r.1, r.2, rfl, later⟩, ?_⟩
    rintro (wrong | ⟨a, s', same, later⟩)
    · exact (nomatch wrong)
    · cases same
      exact later

theorem fails_map {g : α → β} : Fails (g <$> m) s e ↔ Fails m s e := by
  rw [map_eq_pure_bind, fails_bind]
  refine or_iff_left ?_
  rintro ⟨a, t, -, wrong⟩
  exact fails_pure wrong

theorem fails_get_bind {f : σ → StateT σ (Except ε) β} : Fails (get >>= f) s e ↔ Fails (f s) s e := Iff.rfl

theorem fails_modify_bind {g : σ → σ} {f : PUnit → StateT σ (Except ε) β} :
    Fails (modify g >>= f) s e ↔ Fails (f ⟨⟩) (g s) e := Iff.rfl

theorem Returns.not_fails (returns : Returns m s a s') : ¬Fails m s e := by
  intro fails
  have wrong := returns.symm.trans fails
  exact (nomatch wrong)

theorem Fails.unique {e' : ε} (first : Fails m s e) (second : Fails m s e') : e = e' := by
  unfold Fails at first second
  rw [first] at second
  exact error.inj second

theorem fails_bind_of_returns (first : Returns m s a s') : Fails (m >>= f) s e ↔ Fails (f a) s' e := by
  rw [fails_bind]
  constructor
  · rintro (early | ⟨b, t, second, later⟩)
    · exact absurd early first.not_fails
    · obtain ⟨rfl, rfl⟩ := first.unique second
      exact later
  · exact fun later => .inr ⟨a, s', first, later⟩

theorem returns_or_fails (m : StateT σ (Except ε) α) (s : σ) : (∃ a s', Returns m s a s') ∨ ∃ e, Fails m s e := by
  cases run : m.run s with
  | error e => exact .inr ⟨e, run⟩
  | ok r => exact .inl ⟨r.1, r.2, run⟩

def Never (m : StateT σ (Except ε) α) : Prop := ∀ s e, ¬Fails m s e

theorem Never.pure : Never (pure a : StateT σ (Except ε) α) := fun _ _ => fails_pure

theorem Never.get : Never (get : StateT σ (Except ε) σ) := fun _ _ => fails_get

theorem Never.modify {g : σ → σ} : Never (modify g : StateT σ (Except ε) PUnit) := fun _ _ => fails_modify

theorem Never.bind (first : Never m) (second : ∀ a, Never (f a)) : Never (m >>= f) := by
  intro s e fails
  rcases fails_bind.mp fails with early | ⟨a, s', -, late⟩
  · exact first s e early
  · exact second a s' e late

theorem Never.ite {c : Prop} [Decidable c] {m' : StateT σ (Except ε) α} (first : Never m)
    (second : Never m') : Never (if c then m else m') := by
  split
  · exact first
  · exact second

end Fails

section Within

def Within (R : σ → σ → Prop) (m : StateT σ (Except ε) α) : Prop := ∀ s a s', Returns m s a s' → R s s'

variable {R R' : σ → σ → Prop}

theorem Within.mono (smaller : ∀ s s', R s s' → R' s s') (first : Within R m) : Within R' m :=
  fun s a s' run => smaller s s' (first s a s' run)

theorem Within.throw {e : ε} : Within R (throw e : StateT σ (Except ε) α) :=
  fun _ _ _ run => absurd run returns_throw

theorem Within.modify {g : σ → σ} (step : ∀ s, R s (g s)) :
    Within R (modify g : StateT σ (Except ε) PUnit) := fun s _ _ run => by
  rw [returns_modify.mp run]
  exact step s

theorem Within.ite {c : Prop} [Decidable c] {m' : StateT σ (Except ε) α} (first : Within R m)
    (second : Within R m') : Within R (if c then m else m') := by
  split
  · exact first
  · exact second

theorem Within.pure [Std.Refl R] {a : α} : Within R (pure a : StateT σ (Except ε) α) := fun s _ _ run => by
  rw [(returns_pure.mp run).2]
  exact Std.Refl.refl s

theorem Within.get [Std.Refl R] : Within R (get : StateT σ (Except ε) σ) := fun s _ _ run => by
  rw [(returns_get.mp run).2]
  exact Std.Refl.refl s

theorem Within.bind [IsTrans σ R] (first : Within R m) (second : ∀ a, Within R (f a)) : Within R (m >>= f) := by
  intro s b s'' run
  obtain ⟨a, s', early, late⟩ := returns_bind.mp run
  exact IsTrans.trans _ _ _ (first s a s' early) (second a s' b s'' late)

end Within

end Semantics
