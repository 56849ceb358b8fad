import DeisoXv6.Proc.Actions

/-! Where each CPU's scheduler is, and what the process states, the locks and the pending actions
have to do with it. The step lemmas only use the facts derived here. -/

set_option autoImplicit false

namespace DeisoXv6

open Function LockProgram LockProgram.Stmt

/-- Where scheduler() of a CPU is; `idle` is everything outside the handling of a selection. -/
inductive Stage where
  | idle
  | selecting : ProcId → Stage
  | chosen : ProcId → Stage
  | marking : ProcId → Stage
  | posting : ProcId → Stage
  | leaving : ProcId → Stage
  | away : ProcId → Stage
  | back : ProcId → Stage
  deriving DecidableEq

/-- The process for which the CPU has taken `p->lock` and not yet cleared `c->proc`. -/
def Stage.engaged : Stage → Option ProcId
  | .idle | .selecting _ => none
  | .chosen p | .marking p | .posting p | .leaving p | .away p | .back p => some p

/-- The process that the CPU has picked and not yet stored RUNNING for. -/
def Stage.marks : Stage → Option ProcId
  | .selecting p | .chosen p | .marking p => some p
  | _ => none

variable {n : Nat}

def Phase (m : Machine n) (c : Fin n) : Stage → Prop
  | .idle => m.running c = .scheduler c ∧ m.shared.proc c = none ∧
      Acts (fun a => Posts a = false) (m.code (.scheduler c))
  | .selecting p => m.running c = .scheduler c ∧ m.shared.proc c = none ∧ m.code (.scheduler c) = selected p
  | .chosen p => m.running c = .scheduler c ∧ m.shared.proc c = none ∧ m.code (.scheduler c) = DeisoXv6.chosen p
  | .marking p => m.running c = .scheduler c ∧ m.shared.proc c = none ∧
      m.code (.scheduler c) = act (.setRunning p) :: act (.setProc p) :: act (.swtch p) :: resume p
  | .posting p => m.running c = .scheduler c ∧ m.shared.proc c = none ∧
      m.code (.scheduler c) = act (.setProc p) :: act (.swtch p) :: resume p ∧
      (m.table.proc p).state = .running
  | .leaving p => m.running c = .scheduler c ∧ m.shared.proc c = some p ∧
      m.code (.scheduler c) = act (.swtch p) :: resume p ∧ (m.table.proc p).state = .running
  | .away p => m.running c = .process p ∧ m.shared.proc c = some p ∧ m.code (.scheduler c) = resume p
  | .back p => m.running c = .scheduler c ∧ m.shared.proc c = some p ∧ m.code (.scheduler c) = resume p

def Belongs : Thread n → Act → Prop
  | .process p, a => IsScheduler a = false ∧ ∀ q, owner a = some q → q = p
  | .scheduler _, a => owner a = none

def publishes : Stmt → Option ProcId
  | .act (.publish np) => some np
  | _ => none

theorem mem_publishes {x : Stmt} {np : ProcId} : publishes x = some np ↔ x = act (.publish np) := by
  cases x with
  | act a => cases a <;> simp [publishes]
  | acquire l | release l => simp [publishes]

structure Inv (m : Machine n) (stage : Fin n → Stage) : Prop where
  typed : ∀ t, Typed (m.code t)
  balanced : Balanced discipline m
  belongs : ∀ t, Acts (Belongs t) (m.code t)
  phase : ∀ c, Phase m c (stage c)
  suspended : ∀ p, (∀ c, m.running c ≠ .process p) →
    Only (.proc p) (m.code (.process p)) ∧ Clear (m.code (.process p))
  runs : ∀ c p, m.running c = .process p → mustRun p (m.code (.process p)) = true → (m.table.proc p).state = .running
  known : ∀ t, Acts (Pre m.table) (m.code t)
  marks : ∀ c p, (stage c).marks = some p → (m.table.proc p).state = .runnable
  marksAlone : ∀ c c' p, (stage c).marks = some p → (stage c').marks = some p → c = c'
  alone : ∀ c c' p, (stage c).engaged = some p → (stage c').engaged = some p → c = c'
  forks : ∀ t np, act (.publish np) ∈ m.code t → (m.table.proc np).state = .used
  forksAlone : ∀ t t' np, act (.publish np) ∈ m.code t → act (.publish np) ∈ m.code t' → t = t'
  forksOnce : ∀ t, ((m.code t).filterMap publishes).Nodup
  forksFree : ∀ t t' np, act (.publish np) ∈ m.code t → act (.freeStore np) ∉ m.code t'

section Facts

variable {m : Machine n} {stage : Fin n → Stage} {c : Fin n} {k : List Stmt} {a : Act}

theorem Inv.lock_iff (inv : Inv m stage) (l : Lock) :
    l ∈ m.locks c ↔ holds (m.code (m.running c)) l = true := inv.balanced.locks c l

theorem Inv.running_cases (inv : Inv m stage) (c : Fin n) :
    m.running c = .scheduler c ∨ ∃ p, m.running c = .process p ∧ stage c = .away p := by
  have phase := inv.phase c
  cases at_ : stage c with
  | away p =>
    rw [at_] at phase
    exact .inr ⟨p, phase.1, rfl⟩
  | idle | selecting p | chosen p | marking p | posting p | leaving p | back p =>
    rw [at_] at phase
    exact .inl phase.1

theorem Inv.away (inv : Inv m stage) {p : ProcId} (process : m.running c = .process p) : stage c = .away p := by
  rcases inv.running_cases c with scheduler | ⟨q, same, at_⟩
  · rw [scheduler] at process
    contradiction
  · rw [same] at process
    cases process
    exact at_

theorem Inv.engaged_lock (inv : Inv m stage) {p : ProcId} (engaged : (stage c).engaged = some p)
    (scheduler : m.running c = .scheduler c) : .proc p ∈ m.locks c := by
  have phase := inv.phase c
  rw [inv.lock_iff, scheduler]
  cases at_ : stage c with
  | idle | selecting q =>
    rw [at_] at engaged
    contradiction
  | away q =>
    rw [at_] at phase
    rw [phase.1] at scheduler
    contradiction
  | chosen q | marking q | back q =>
    rw [at_] at engaged phase
    cases engaged
    rw [phase.2.2]
    simp [DeisoXv6.chosen, resume, consumes]
  | posting q | leaving q =>
    rw [at_] at engaged phase
    cases engaged
    rw [phase.2.2.1]
    simp [resume, consumes]

theorem Inv.selecting_tickets (inv : Inv m stage) {p : ProcId} (at_ : stage c = .selecting p) :
    .tickets ∈ m.locks c := by
  have phase := inv.phase c
  rw [at_] at phase
  rw [inv.lock_iff, phase.1, phase.2.2]
  simp [selected, DeisoXv6.chosen]

theorem Inv.selecting_of_selected (inv : Inv m stage) {p : ProcId}
    (code : m.code (m.running c) = selected p) : stage c = .selecting p := by
  have phase := inv.phase c
  cases at_ : stage c with
  | idle =>
    rw [at_] at phase
    have := phase.2.2 (.setRunning p) (by rw [← phase.1, code]; simp [selected, DeisoXv6.chosen])
    contradiction
  | away q =>
    rw [at_] at phase
    have belongs := inv.belongs (m.running c) (.setRunning p) (by rw [code]; simp [selected, DeisoXv6.chosen])
    rw [phase.1] at belongs
    exact absurd belongs.1 (by simp [IsScheduler, Posts])
  | selecting q =>
    rw [at_] at phase
    rw [phase.1, phase.2.2] at code
    simp only [selected, List.cons.injEq, acquire.injEq, Lock.proc.injEq] at code
    rw [code.1]
  | chosen q | marking q | back q =>
    rw [at_] at phase
    rw [phase.1, phase.2.2] at code
    simp [selected, DeisoXv6.chosen, resume] at code
  | posting q | leaving q =>
    rw [at_] at phase
    rw [phase.1, phase.2.2.1] at code
    simp [selected] at code

def Before (a : Act) (state : ProcState) : Prop :=
  match a with
  | .leave _ _ => state = .running
  | .setRunning _ => state = .runnable
  | .wakeStore _ => state = .sleeping
  | .freeStore _ => state = .zombie ∨ state = .used ∨ state = .runnable
  | .setUsed _ _ => state = .unused
  | .publish _ => state = .used
  | _ => True

theorem Inv.own_running (inv : Inv m stage) {p : ProcId} (process : m.running c = .process p)
    (next : m.code (m.running c) = act a :: k) (outside : IsSched a = false) : (m.table.proc p).state = .running := by
  refine inv.runs c p process ?_
  rw [process] at next
  rw [next, mustRun, outside]
  rfl

theorem Inv.owner_runs (inv : Inv m stage) (next : m.code (m.running c) = act a :: k) {p : ProcId}
    (own : owner a = some p) : m.running c = .process p := by
  have belongs := inv.belongs (m.running c) a (by rw [next]; simp)
  rcases inv.running_cases c with scheduler | ⟨q, process, -⟩
  · rw [scheduler] at belongs
    change owner a = none at belongs
    rw [belongs] at own
    contradiction
  · rw [process] at belongs ⊢
    rw [belongs.2 p own]

theorem Inv.marking_of_setRunning (inv : Inv m stage) {p : ProcId}
    (next : m.code (m.running c) = act (.setRunning p) :: k) : stage c = .marking p := by
  have belongs := inv.belongs (m.running c) (.setRunning p) (by rw [next]; simp)
  have phase := inv.phase c
  rcases inv.running_cases c with scheduler | ⟨q, process, -⟩
  · rw [scheduler] at next
    cases at_ : stage c with
    | idle =>
      rw [at_] at phase
      have := phase.2.2 (.setRunning p) (by rw [next]; simp)
      contradiction
    | away q =>
      rw [at_] at phase
      rw [phase.1] at scheduler
      contradiction
    | selecting q | chosen q | back q =>
      rw [at_] at phase
      rw [phase.2.2] at next
      simp [selected, DeisoXv6.chosen, resume] at next
    | posting q | leaving q =>
      rw [at_] at phase
      rw [phase.2.2.1] at next
      simp at next
    | marking q =>
      rw [at_] at phase
      rw [phase.2.2] at next
      simp only [List.cons.injEq, act.injEq, Act.setRunning.injEq] at next
      rw [next.1]
  · rw [process] at belongs
    exact absurd belongs.1 (by simp [IsScheduler, Posts])

theorem Inv.before (inv : Inv m stage) (next : m.code (m.running c) = act a :: k) {p : ProcId}
    {state : ProcState} (store : stores a = some (p, state)) : Before a (m.table.proc p).state := by
  have known := inv.known (m.running c) a (by rw [next]; simp)
  cases a with
  | leave how q =>
    have same : q = p := by cases how <;> simp_all [stores]
    subst same
    exact inv.own_running (inv.owner_runs next rfl) next rfl
  | setRunning q =>
    cases store
    exact inv.marks c p (by rw [inv.marking_of_setRunning next]; rfl)
  | wakeStore q | freeStore q | setUsed r q =>
    cases store
    exact known
  | publish q =>
    cases store
    exact inv.forks (m.running c) p (by rw [next]; simp)
  | _ => exact trivial

theorem Inv.store_locks (inv : Inv m stage) (next : m.code (m.running c) = act a :: k) {p : ProcId}
    {state : ProcState} (store : stores a = some (p, state)) :
    .proc p ∈ m.locks c ∧ (a = .setRunning p ∨ (∃ q, a = .setUsed q p) ∨ .tickets ∈ m.locks c) := by
  have typed := inv.typed (m.running c)
  rw [next] at typed
  have fits := typed.1
  simp only [inv.lock_iff, next, holds_act, Bool.or_eq_true]
  cases a with
  | leave how q =>
    have same : q = p := by cases how <;> simp_all [stores]
    subst same
    exact ⟨.inr fits.1.own, .inr (.inr (.inr fits.1.tickets))⟩
  | setRunning q =>
    cases store
    exact ⟨.inr ((fits _).mpr rfl), .inl rfl⟩
  | wakeStore q | freeStore q =>
    cases store
    exact ⟨.inr fits.own, .inr (.inr (.inr fits.tickets))⟩
  | setUsed r q =>
    cases store
    exact ⟨.inl (by simp [consumes]), .inr (.inl ⟨r, rfl⟩)⟩
  | publish q =>
    cases store
    exact ⟨.inl (by simp [consumes]), .inr (.inr (.inl (by simp [consumes])))⟩
  | _ => simp [stores] at store

variable {l : Lock} {t : Thread n} {b : Act}

theorem Inv.exclusive (inv : Inv m stage) {c' : Fin n} (mine : l ∈ m.locks c)
    (theirs : l ∈ m.locks c') : c' = c := inv.balanced.exclusive c' c l theirs mine

theorem Inv.scope_running (inv : Inv m stage) (pending : act b ∈ m.code t)
    (under : scope b = some l) : ∃ c, m.running c = t := by
  by_contra idle
  rw [not_exists] at idle
  cases t with
  | process p =>
    have := (inv.suspended p idle).2 b pending
    rw [this] at under
    contradiction
  | scheduler c =>
    rcases inv.running_cases c with scheduler | ⟨p, -, at_⟩
    · exact idle c scheduler
    · have phase := inv.phase c
      rw [at_] at phase
      rw [phase.2.2] at pending
      simp only [resume, List.mem_cons, act.injEq, reduceCtorEq, List.not_mem_nil, false_or, or_false] at pending
      rcases pending with rfl | rfl | rfl <;> contradiction

section Store

variable {p : ProcId} {state : ProcState} {c' : Fin n}

section

variable (inv : Inv m stage) (next : m.code (m.running c) = act a :: k) (store : stores a = some (p, state))

include inv next store

theorem Inv.store_not_running (other : c' ≠ c) (process : m.running c' = .process p)
    (must : mustRun p (m.code (.process p)) = true) : False := by
  have running := inv.runs c' p process must
  have before := inv.before next store
  rw [running] at before
  cases a with
  | leave how q =>
    have same : q = p := by cases how <;> simp_all [stores]
    subst same
    exact other (inv.balanced.apart _ _ (process.trans (inv.owner_runs next rfl).symm))
  | setRunning q | wakeStore q | freeStore q | setUsed r q | publish q => simp [Before] at before
  | _ => simp [stores] at store

theorem Inv.store_not_scoped (other : t ≠ m.running c) (pending : act b ∈ m.code t) : scope b ≠ some (.proc p) := by
  intro under
  obtain ⟨c', rfl⟩ := inv.scope_running pending under
  have theirs : .proc p ∈ m.locks c' :=
    (inv.lock_iff _).mpr ((inv.typed _).holds_of_pending pending under)
  exact other (by rw [inv.exclusive (inv.store_locks next store).1 theirs])

theorem Inv.store_not_marked (other : c' ≠ c) : (stage c').marks ≠ some p := by
  intro marked
  obtain ⟨lock, how⟩ := inv.store_locks next store
  have runnable := inv.marks c' p marked
  have phase := inv.phase c'
  cases at_ : stage c' with
  | selecting q =>
    rw [at_] at marked
    cases marked
    rcases how with rfl | ⟨q, rfl⟩ | tickets
    · have mine : (stage c).marks = some p := by
        rw [inv.marking_of_setRunning next]
        rfl
      exact other (inv.marksAlone c' c p (by rw [at_]; rfl) mine)
    · have unused := inv.before next store
      rw [runnable] at unused
      contradiction
    · exact other (inv.exclusive tickets (inv.selecting_tickets at_))
  | chosen q | marking q =>
    rw [at_] at marked phase
    cases marked
    exact other (inv.exclusive lock (inv.engaged_lock (by rw [at_]; rfl) phase.1))
  | idle | posting q | leaving q | away q | back q =>
    rw [at_] at marked
    contradiction

theorem Inv.store_not_engaged (other : c' ≠ c) (scheduler : m.running c' = .scheduler c') :
    (stage c').engaged ≠ some p := fun engaged =>
  other (inv.exclusive (inv.store_locks next store).1 (inv.engaged_lock engaged scheduler))

theorem Inv.store_forks (forks : act (.publish p) ∈ m.code t) : a = .publish p ∧ t = m.running c := by
  have used := inv.forks t p forks
  have before := inv.before next store
  rw [used] at before
  cases a with
  | publish q =>
    cases store
    exact ⟨rfl, inv.forksAlone _ _ p forks (by rw [next]; simp)⟩
  | freeStore q =>
    cases store
    exact absurd (by rw [next]; simp) (inv.forksFree t (m.running c) p forks)
  | leave how q | setRunning q | wakeStore q | setUsed r q => simp [Before] at before
  | _ => simp [stores] at store

theorem Inv.store_last (pending : act b ∈ k) : scope b ≠ some (.proc p) := by
  have typed := inv.typed (m.running c)
  rw [next] at typed
  obtain ⟨fits, rest⟩ := typed_act.mp typed
  have quiet_last : Quiet k → scope b ≠ some (.proc p) := fun quiet =>
    (rest.clear (quiet_noProc quiet)).unscoped (.proc p) b pending
  cases a with
  | leave how q =>
    have same : q = p := by cases how <;> simp_all [stores]
    subst same
    exact fits.1.last b pending
  | wakeStore q | freeStore q =>
    cases store
    exact fits.last b pending
  | setUsed r q | publish q =>
    exact quiet_last fits
  | setRunning q =>
    cases store
    have phase := inv.phase c
    rw [inv.marking_of_setRunning next] at phase
    rw [phase.1, phase.2.2] at next
    cases next
    simp only [resume, List.mem_cons, act.injEq, reduceCtorEq, List.not_mem_nil, false_or, or_false] at pending
    rcases pending with rfl | rfl | rfl | rfl | rfl <;> simp [scope]
  | _ => simp [stores] at store

end

end Store

theorem alone_update {f : Stage → Option ProcId} {st : Stage}
    (alone : ∀ c c' p, f (stage c) = some p → f (stage c') = some p → c = c')
    (others : ∀ p, f st = some p → ∀ c', c' ≠ c → f (stage c') ≠ some p) :
    ∀ c₁ c₂ p, f (update stage c st c₁) = some p → f (update stage c st c₂) = some p → c₁ = c₂ := by
  intro c₁ c₂ p first second
  by_cases one : c₁ = c <;> by_cases two : c₂ = c
  · rw [one, two]
  · rw [one, update_self] at first
    rw [update_of_ne two] at second
    exact absurd second (others p first c₂ two)
  · rw [two, update_self] at second
    rw [update_of_ne one] at first
    exact absurd first (others p second c₁ one)
  · rw [update_of_ne one] at first
    rw [update_of_ne two] at second
    exact alone c₁ c₂ p first second

end Facts

end DeisoXv6
