import DeisoXv6.Semantics.Returns

/-! Partial correctness with a condition on failures: what a program leaves when it returns, and in which
ways it can fail. -/

set_option autoImplicit false

namespace Semantics

variable {σ ε α β : Type}

/-- Started in `s`, the program returns only with `Q` and fails only with `F`. -/
structure Ensures (F : ε → Prop) (m : StateT σ (Except ε) α) (s : σ) (Q : α → σ → Prop) : Prop where
  returns : ∀ a s', Returns m s a s' → Q a s'
  fails : ∀ e, Fails m s e → F e

/-- In whatever state it is started, the program relates its states by `R` and fails only with `F`. -/
def Frames (F : ε → Prop) (R : σ → σ → Prop) (m : StateT σ (Except ε) α) : Prop :=
  ∀ s, Ensures F m s fun _ s' => R s s'

section Rules

variable {F F' : ε → Prop} {m m' : StateT σ (Except ε) α} {f : α → StateT σ (Except ε) β} {s s' : σ}
  {Q Q' : α → σ → Prop} {T : β → σ → Prop} {a : α} {e : ε}

variable {g : σ → σ} {c : Prop}

namespace Ensures

theorem mono (ensures : Ensures F m s Q) (post : ∀ a s', Q a s' → Q' a s') (faults : ∀ e, F e → F' e) :
    Ensures F' m s Q' :=
  ⟨fun a s' run => post a s' (ensures.returns a s' run), fun e run => faults e (ensures.fails e run)⟩

theorem post (ensures : Ensures F m s Q) (post : ∀ a s', Q a s' → Q' a s') : Ensures F m s Q' :=
  ensures.mono post fun _ => id

theorem get_bind {f : σ → StateT σ (Except ε) β} (rest : Ensures F (f s) s T) : Ensures F (get >>= f) s T :=
  ⟨fun b s' run => rest.returns b s' (returns_get_bind.mp run), fun e run => rest.fails e (fails_get_bind.mp run)⟩

theorem modify_bind {f : PUnit → StateT σ (Except ε) β} (rest : Ensures F (f ⟨⟩) (g s) T) :
    Ensures F (modify g >>= f) s T :=
  ⟨fun b s' run => rest.returns b s' (returns_modify_bind.mp run),
    fun e run => rest.fails e (fails_modify_bind.mp run)⟩

theorem pure (post : Q a s) : Ensures F (pure a) s Q :=
  ⟨fun _ _ run => by rwa [(returns_pure.mp run).1, (returns_pure.mp run).2], fun _ run => absurd run fails_pure⟩

theorem throw (fault : F e) : Ensures F (throw e) s Q :=
  ⟨fun _ _ run => absurd run returns_throw, fun _ run => by rwa [fails_throw.mp run]⟩

theorem modify {Q : PUnit → σ → Prop} (post : Q ⟨⟩ (g s)) : Ensures F (modify g) s Q :=
  ⟨fun _ _ run => by rwa [returns_modify.mp run], fun _ run => absurd run fails_modify⟩

theorem bind (first : Ensures F m s Q) (second : ∀ a s', Q a s' → Ensures F (f a) s' T) :
    Ensures F (m >>= f) s T := by
  refine ⟨fun b s'' run => ?_, fun e run => ?_⟩
  · obtain ⟨a, s', here, later⟩ := returns_bind.mp run
    exact (second a s' (first.returns a s' here)).returns b s'' later
  · rcases fails_bind.mp run with here | ⟨a, s', here, later⟩
    · exact first.fails e here
    · exact (second a s' (first.returns a s' here)).fails e later

theorem ite [Decidable c] (yes : c → Ensures F m s Q) (no : ¬c → Ensures F m' s Q) :
    Ensures F (if c then m else m') s Q := by
  split
  · exact yes ‹_›
  · exact no ‹_›

theorem of_returns (run : Returns m s a s') (post : Q a s') : Ensures F m s Q :=
  ⟨fun b t other => by
    obtain ⟨rfl, rfl⟩ := run.unique other
    exact post, fun _ wrong => absurd wrong run.not_fails⟩

theorem of_fails (run : Fails m s e) (fault : F e) : Ensures F m s Q :=
  ⟨fun _ _ other => absurd run other.not_fails, fun e' other => by
    rw [other.unique run]
    exact fault⟩

theorem meet (first : Ensures F m s Q) (second : Ensures F' m s Q') (apart : ∀ e, F e → ¬F' e) :
    ∃ a s', Q a s' ∧ Q' a s' := by
  rcases returns_or_fails m s with ⟨a, s', run⟩ | ⟨e, run⟩
  · exact ⟨a, s', first.returns a s' run, second.returns a s' run⟩
  · exact absurd (second.fails e run) (apart e (first.fails e run))

end Ensures

namespace Frames

variable {R R' : σ → σ → Prop}

theorem within (frames : Frames F R m) : Within R m := fun s => (frames s).returns

theorem mono (frames : Frames F R m) (smaller : ∀ s s', R s s' → R' s s') (faults : ∀ e, F e → F' e) :
    Frames F' R' m :=
  fun s => (frames s).mono (fun _ => smaller s) faults

theorem throw (fault : F e) : Frames F R (throw e : StateT σ (Except ε) α) := fun _ => .throw fault

theorem modify (step : ∀ s, R s (g s)) : Frames F R (modify g : StateT σ (Except ε) PUnit) :=
  fun s => .modify (step s)

theorem ite [Decidable c] (yes : Frames F R m) (no : Frames F R m') : Frames F R (if c then m else m') :=
  fun s => .ite (fun _ => yes s) fun _ => no s

theorem pure [Std.Refl R] : Frames F R (pure a : StateT σ (Except ε) α) := fun s => .pure (Std.Refl.refl s)

theorem get [Std.Refl R] : Frames F R (get : StateT σ (Except ε) σ) := fun s =>
  .of_returns (returns_get.mpr ⟨rfl, rfl⟩) (Std.Refl.refl s)

theorem bind [IsTrans σ R] (first : Frames F R m) (second : ∀ a, Frames F R (f a)) : Frames F R (m >>= f) :=
  fun s => (first s).bind fun a s' here => (second a s').post fun _ s'' later =>
    IsTrans.trans s s' s'' here later

end Frames

end Rules

end Semantics
