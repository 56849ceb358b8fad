import Mathlib.Data.Fintype.Basic

/-! Threads that run lock-protected code on several CPUs.

A thread is the list of statements it has still to execute. An action may put further statements
in front of the rest, move the CPU to another thread, or give a thread new code. Locks belong to
CPUs, so a lock can be taken on one thread and released on the next. -/

set_option autoImplicit false

namespace LockProgram

open List Function

inductive Stmt (Lock Act : Type) where
  | acquire : Lock → Stmt Lock Act
  | release : Lock → Stmt Lock Act
  | act : Act → Stmt Lock Act
  deriving DecidableEq

structure Outcome (Thread Lock Act Shared : Type) where
  shared : Shared
  push : List (Stmt Lock Act)
  switch : Option Thread
  fresh : Option (Thread × List (Stmt Lock Act))

structure Config (Cpu Thread Lock Act Shared : Type) where
  shared : Shared
  locks : Cpu → List Lock
  running : Cpu → Thread
  code : Thread → List (Stmt Lock Act)

variable {Cpu Thread Lock Act Shared : Type}

namespace Config

def Free (s : Config Cpu Thread Lock Act Shared) (l : Lock) : Prop := ∀ c, l ∉ s.locks c

instance [Fintype Cpu] [DecidableEq Lock] (s : Config Cpu Thread Lock Act Shared) (l : Lock) :
    Decidable (s.Free l) := inferInstanceAs (Decidable (∀ c, l ∉ s.locks c))

variable [DecidableEq Cpu] [DecidableEq Thread] [DecidableEq Lock]

def setCode (s : Config Cpu Thread Lock Act Shared) (t : Thread) (k : List (Stmt Lock Act)) :
    Config Cpu Thread Lock Act Shared :=
  { s with code := update s.code t k }

def take (s : Config Cpu Thread Lock Act Shared) (c : Cpu) (l : Lock) : Config Cpu Thread Lock Act Shared :=
  { s with locks := update s.locks c (l :: s.locks c) }

def drop (s : Config Cpu Thread Lock Act Shared) (c : Cpu) (l : Lock) : Config Cpu Thread Lock Act Shared :=
  { s with locks := update s.locks c ((s.locks c).erase l) }

/-- The effect of an action of CPU `c` whose thread goes on with `k`. -/
def apply (s : Config Cpu Thread Lock Act Shared) (c : Cpu) (k : List (Stmt Lock Act))
    (o : Outcome Thread Lock Act Shared) : Config Cpu Thread Lock Act Shared :=
  let s := { s.setCode (s.running c) (o.push ++ k) with shared := o.shared }
  let s := match o.fresh with
    | none => s
    | some (t, code) => s.setCode t code
  match o.switch with
  | none => s
  | some t => { s with running := update s.running c t }

/-- The next statement of CPU `c`; there is none while it spins or after it has panicked. -/
def step [Fintype Cpu] (exec : List Lock → Shared → Act → Option (Outcome Thread Lock Act Shared))
    (s : Config Cpu Thread Lock Act Shared) (c : Cpu) :
    Option (Config Cpu Thread Lock Act Shared) :=
  match s.code (s.running c) with
  | [] => none
  | .acquire l :: k => if s.Free l then some ((s.take c l).setCode (s.running c) k) else none
  | .release l :: k => if l ∈ s.locks c then some ((s.drop c l).setCode (s.running c) k) else none
  | .act a :: k => (exec (s.locks c) s.shared a).map (s.apply c k)

/-- An interrupt pushes its handler; it is taken only while the CPU holds no lock. -/
def interrupt (s : Config Cpu Thread Lock Act Shared) (c : Cpu) (handler : List (Stmt Lock Act)) :
    Option (Config Cpu Thread Lock Act Shared) :=
  if s.locks c = [] then some (s.setCode (s.running c) (handler ++ s.code (s.running c))) else none

end Config

section Held

variable [DecidableEq Lock] (consumes : Act → Lock → Bool)

/-- Whether the first operation of the code on a lock gives it back. An action gives back the locks
it consumes through the code it pushes. -/
def held : List (Stmt Lock Act) → Lock → Bool
  | [], _ => false
  | .acquire m :: k, l => !decide (m = l) && held k l
  | .release m :: k, l => decide (m = l) || held k l
  | .act a :: k, l => consumes a l || held k l

end Held

/-- What a development says about its actions: the locks an action consumes, the lock under which
it was scheduled, and when locks and actions may stand before a rest. -/
structure Discipline (Lock Act : Type) where
  consumes : Act → Lock → Bool
  scope : Act → Option Lock
  order : Lock → List (Stmt Lock Act) → Prop
  ok : Act → List (Stmt Lock Act) → Prop

variable [DecidableEq Lock]

namespace Discipline

variable (d : Discipline Lock Act)

/-- No scoped action on the lock is left. -/
def Unscoped (l : Lock) (k : List (Stmt Lock Act)) : Prop := ∀ a, .act a ∈ k → d.scope a ≠ some l

def Typed : List (Stmt Lock Act) → Prop
  | [] => True
  | .acquire l :: k => held d.consumes k l = true ∧ d.order l k ∧ d.Unscoped l k ∧ Typed k
  | .release l :: k => held d.consumes k l = false ∧ d.Unscoped l k ∧ Typed k
  | .act a :: k => d.ok a k ∧ Typed k

/-- Scoped actions stand only where their lock is held. -/
def Scoping : Prop :=
  ∀ a k l, d.ok a k → d.scope a = some l → (d.consumes a l || held d.consumes k l) = true

variable {d}

omit [DecidableEq Lock] in
theorem unscoped_acquire {l m : Lock} {k : List (Stmt Lock Act)} :
    d.Unscoped l (.acquire m :: k) ↔ d.Unscoped l k := by
  simp [Unscoped]

omit [DecidableEq Lock] in
theorem unscoped_release {l m : Lock} {k : List (Stmt Lock Act)} :
    d.Unscoped l (.release m :: k) ↔ d.Unscoped l k := by
  simp [Unscoped]

omit [DecidableEq Lock] in
theorem unscoped_act {l : Lock} {a : Act} {k : List (Stmt Lock Act)} :
    d.Unscoped l (.act a :: k) ↔ d.scope a ≠ some l ∧ d.Unscoped l k := by
  simp [Unscoped]

theorem Typed.held_of_pending (scoping : d.Scoping) {k : List (Stmt Lock Act)} (typed : d.Typed k)
    {a : Act} {l : Lock} (pending : .act a ∈ k) (scope : d.scope a = some l) : held d.consumes k l = true := by
  induction k with
  | nil => exact absurd pending not_mem_nil
  | cons first k ih =>
    cases first with
    | acquire m =>
      obtain ⟨-, -, unscoped, rest⟩ := typed
      have later : .act a ∈ k := by simpa using pending
      have other : m ≠ l := by
        rintro rfl
        exact unscoped a later scope
      simp [held, other, ih rest later]
    | release m =>
      obtain ⟨-, -, rest⟩ := typed
      have later : .act a ∈ k := by simpa using pending
      simp [held, ih rest later]
    | act b =>
      obtain ⟨fits, rest⟩ := typed
      rcases mem_cons.mp pending with same | later
      · cases same
        exact scoping a k l fits scope
      · simp [held, ih rest later]

end Discipline

/-- Every CPU runs its own thread and holds exactly the locks that the thread will give back. -/
structure Balanced (d : Discipline Lock Act) (s : Config Cpu Thread Lock Act Shared) : Prop where
  locks : ∀ c l, l ∈ s.locks c ↔ held d.consumes (s.code (s.running c)) l = true
  exclusive : ∀ c c' l, l ∈ s.locks c → l ∈ s.locks c' → c = c'
  nodup : ∀ c, (s.locks c).Nodup
  apart : ∀ c c', s.running c = s.running c' → c = c'

namespace Balanced

variable [DecidableEq Cpu] [DecidableEq Thread] {d : Discipline Lock Act}
  {s : Config Cpu Thread Lock Act Shared} {c : Cpu} {l : Lock} {k : List (Stmt Lock Act)}

omit [DecidableEq Cpu] in
theorem code_other (balanced : Balanced d s) {c' : Cpu} (other : c' ≠ c) :
    (s.setCode (s.running c) k).code (s.running c') = s.code (s.running c') :=
  update_of_ne (fun same => other (balanced.apart _ _ same)) _ _

theorem setCode (balanced : Balanced d s)
    (same : ∀ l, held d.consumes k l = held d.consumes (s.code (s.running c)) l) :
    Balanced d (s.setCode (s.running c) k) := by
  refine ⟨fun c' l => ?_, balanced.exclusive, balanced.nodup, balanced.apart⟩
  by_cases own : c' = c
  · subst own
    change l ∈ s.locks c' ↔ held d.consumes (update s.code (s.running c') k (s.running c')) l = true
    rw [update_self, same, balanced.locks]
  · change l ∈ s.locks c' ↔ held d.consumes ((s.setCode (s.running c) k).code (s.running c')) l = true
    rw [balanced.code_other own, balanced.locks]

theorem acquire (balanced : Balanced d s) (next : s.code (s.running c) = .acquire l :: k)
    (free : s.Free l) (gives : held d.consumes k l = true) : Balanced d ((s.take c l).setCode (s.running c) k) := by
  refine ⟨fun c' m => ?_, fun c₁ c₂ m first second => ?_, fun c' => ?_, balanced.apart⟩
  · by_cases own : c' = c
    · subst own
      have before := balanced.locks c' m
      rw [next, held] at before
      simp only [Config.setCode, Config.take, update_self, mem_cons, before]
      by_cases same : l = m
      · subst same
        simp [gives]
      · simp [same, Ne.symm same]
    · change m ∈ update s.locks c _ c' ↔ held d.consumes ((s.setCode (s.running c) k).code (s.running c')) m = true
      rw [update_of_ne own, balanced.code_other own, balanced.locks]
  · simp only [Config.setCode, Config.take, update_apply] at first second
    by_cases one : c₁ = c <;> by_cases two : c₂ = c
    · rw [one, two]
    · rw [if_pos one, mem_cons] at first
      rw [if_neg two] at second
      rcases first with rfl | old
      · exact absurd second (free c₂)
      · exact one.trans (balanced.exclusive _ _ _ old second)
    · rw [if_neg one] at first
      rw [if_pos two, mem_cons] at second
      rcases second with rfl | old
      · exact absurd first (free c₁)
      · exact (balanced.exclusive _ _ _ first old).trans two.symm
    · rw [if_neg one] at first
      rw [if_neg two] at second
      exact balanced.exclusive _ _ _ first second
  · simp only [Config.setCode, Config.take, update_apply]
    split
    · exact nodup_cons.mpr ⟨free c, balanced.nodup c⟩
    · exact balanced.nodup c'

theorem release (balanced : Balanced d s) (next : s.code (s.running c) = .release l :: k)
    (gone : held d.consumes k l = false) : Balanced d ((s.drop c l).setCode (s.running c) k) := by
  have fewer : ∀ c' m, m ∈ (s.drop c l).locks c' → m ∈ s.locks c' := by
    intro c' m member
    simp only [Config.drop, update_apply] at member
    split at member
    · rename_i own
      exact own ▸ mem_of_mem_erase member
    · exact member
  refine ⟨fun c' m => ?_, fun c₁ c₂ m first second => ?_, fun c' => ?_, balanced.apart⟩
  · by_cases own : c' = c
    · subst own
      have before := balanced.locks c' m
      rw [next, held] at before
      simp only [Config.setCode, Config.drop, update_self, (balanced.nodup c').mem_erase_iff, before]
      by_cases same : l = m
      · subst same
        simp [gone]
      · simp [same, Ne.symm same]
    · change m ∈ update s.locks c _ c' ↔ held d.consumes ((s.setCode (s.running c) k).code (s.running c')) m = true
      rw [update_of_ne own, balanced.code_other own, balanced.locks]
  · exact balanced.exclusive _ _ _ (fewer _ _ first) (fewer _ _ second)
  · simp only [Config.setCode, Config.drop, update_apply]
    split
    · exact (balanced.nodup c).erase l
    · exact balanced.nodup c'

omit [DecidableEq Thread] in
/-- Moving the CPU to a thread that no CPU runs and that expects the locks the CPU holds. -/
theorem switch (balanced : Balanced d s) {t : Thread} (idle : ∀ c', s.running c' ≠ t)
    (expects : ∀ l, held d.consumes (s.code t) l = held d.consumes (s.code (s.running c)) l) :
    Balanced d { s with running := update s.running c t } := by
  refine ⟨fun c' l => ?_, balanced.exclusive, balanced.nodup, fun c₁ c₂ same => ?_⟩
  · by_cases own : c' = c
    · subst own
      simp only [update_self]
      rw [expects, balanced.locks]
    · simp only [update_of_ne own]
      exact balanced.locks c' l
  · by_cases one : c₁ = c <;> by_cases two : c₂ = c
    · rw [one, two]
    · simp only [one, update_self, update_of_ne two] at same
      exact absurd same.symm (idle c₂)
    · simp only [two, update_self, update_of_ne one] at same
      exact absurd same (idle c₁)
    · simp only [update_of_ne one, update_of_ne two] at same
      exact balanced.apart _ _ same

omit [DecidableEq Cpu] in
theorem fresh (balanced : Balanced d s) {t : Thread} (idle : ∀ c', s.running c' ≠ t) :
    Balanced d (s.setCode t k) := by
  refine ⟨fun c' l => ?_, balanced.exclusive, balanced.nodup, balanced.apart⟩
  change l ∈ s.locks c' ↔ held d.consumes (update s.code t k (s.running c')) l = true
  rw [update_of_ne (idle c'), balanced.locks]

end Balanced

end LockProgram
