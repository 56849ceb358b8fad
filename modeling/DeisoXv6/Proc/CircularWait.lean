import DeisoXv6.Proc.Runs

/-! scheduler() takes tickets_lock and then a process lock, every other path the other way round. The
two orders meet on one process only where its lock is held by a CPU that is about to free it, or by
one that has picked it as well. -/

set_option autoImplicit false

namespace DeisoXv6

open LockProgram LockProgram.Stmt List

variable {n : Nat} {m m' : Machine n} {stage : Fin n → Stage} {c : Fin n}

namespace Machine

def WaitsFor (m : Machine n) (c : Fin n) (l : Lock) : Prop :=
  (m.code (m.running c)).head? = some (acquire l)

instance (m : Machine n) (c : Fin n) (l : Lock) : Decidable (m.WaitsFor c l) :=
  inferInstanceAs (Decidable (_ = _))

def CircularWait (m : Machine n) : Prop :=
  ∃ c c' p, c ≠ c' ∧ .tickets ∈ m.locks c ∧ m.WaitsFor c (.proc p) ∧ .proc p ∈ m.locks c' ∧ m.WaitsFor c' .tickets

end Machine

def Freeing (m : Machine n) (p : ProcId) : Prop := ∃ c, act (.freeStore p) ∈ m.code (m.running c)

instance (m : Machine n) (p : ProcId) : Decidable (Freeing m p) :=
  inferInstanceAs (Decidable (∃ c, act (.freeStore p) ∈ m.code (m.running c)))

/-- No scheduler picks a process that is claimed or being freed, and no fork fails on a process that
is claimed. -/
def KeepsApart (m : Machine n) : Event n → Prop
  | .cpu c choice =>
    ((m.code (m.running c)).head? = some (act .pick) → ∀ p ∈ m.table.pick.1, ¬Claimed m p ∧ ¬Freeing m p) ∧
    ∀ np, (m.code (m.running c)).head? = some (act (.forkCopy np)) → choice = .fail → ¬Claimed m np
  | .timer _ | .device _ _ _ => True

instance (m : Machine n) (e : Event n) : Decidable (KeepsApart m e) :=
  match e with
  | .cpu c choice => inferInstanceAs (Decidable (((m.code (m.running c)).head? = some (act .pick) →
        ∀ p ∈ m.table.pick.1, ¬Claimed m p ∧ ¬Freeing m p) ∧
      ∀ np, (m.code (m.running c)).head? = some (act (.forkCopy np)) → choice = .fail → ¬Claimed m np))
  | .timer _ | .device _ _ _ => .isTrue trivial

variable {e : Event n} {p : ProcId}

theorem KeepsApart.unclaimed (apart : KeepsApart m e) : PicksUnclaimed m e := by
  cases e with
  | cpu c choice => exact fun picks p picked => (apart.1 picks p picked).1
  | timer c | device c chan lk => trivial

theorem step_acts (ran : m.step e = some m') {t : Thread n} {b : Act} (pending : act b ∈ m'.code t) :
    act b ∈ m.code t ∨ HandlerAct b ∨ ∃ c choice a k o, e = .cpu c choice ∧
      m.code (m.running c) = act a :: k ∧ exec c choice (m.locks c) m.shared a = some o ∧
      t = m.running c ∧ act b ∈ o.push := by
  cases e with
  | cpu c choice =>
    simp only [Machine.step, Config.step] at ran
    split at ran
    · contradiction
    · rename_i l k next
      split at ran
      · cases ran
        exact .inl (mem_relocked_code next pending)
      · contradiction
    · rename_i l k next
      split at ran
      · cases ran
        exact .inl (mem_relocked_code next pending)
      · contradiction
    · rename_i a k next
      obtain ⟨o, done, rfl⟩ := Option.map_eq_some_iff.mp ran
      rcases mem_apply_code done pending with rfl | plainly
      · exact .inr (.inl (by simp [handlerAct_iff, owner, IsScheduler, Posts, scope]))
      · rcases mem_plain_code next plainly with ⟨here, pushed⟩ | old
        · exact .inr (.inr ⟨c, choice, a, k, o, rfl, next, done, here, pushed⟩)
        · exact .inl old
  | timer c =>
    simp only [Machine.step, Config.interrupt] at ran
    split at ran
    · cases ran
      rcases mem_interrupt_code pending with handler | old
      · exact .inr (.inl (acts_timerHandler m c b handler.1))
      · exact .inl old
    · contradiction
  | device c chan lk =>
    simp only [Machine.step, Config.interrupt] at ran
    split at ran
    · cases ran
      rcases mem_interrupt_code pending with handler | old
      · exact .inr (.inl (acts_deviceHandler chan lk b handler.1))
      · exact .inl old
    · contradiction

def Settled (m : Machine n) : Prop := ∀ p, Claimed m p → ∀ t, act (.freeStore p) ∉ m.code t

theorem boot_settled (n : Nat) : Settled (Machine.boot n) := by
  rintro p ⟨c, pending⟩
  simp [Machine.boot] at pending

theorem exec_free_fork {choice : Choice} {locks : List Lock} {s : Shared n} {o : Outcome n} {np : ProcId}
    (ran : exec c choice locks s (.forkCopy np) = some o) (frees : act (.freeStore np) ∈ o.push) :
    choice = .fail := by
  simp only [exec] at ran
  split at ran
  · rfl
  · cases ran
    simp at frees

theorem Inv.settled_step (inv : Inv m stage) (settled : Settled m)
    (ran : m.step e = some m') (apart : KeepsApart m e) : Settled m' := by
  rintro p ⟨c', claims⟩ t frees
  rcases step_acts ran claims with claimed | handler | ⟨c, choice, a, k, o, rfl, next, done, -, pushed⟩
  · -- an old claim: the process is RUNNABLE, so only the failing fork could free it now
    have claimed : Claimed m p := ⟨c', claimed⟩
    rcases step_acts ran frees with old | handler | ⟨c, choice, a, k, o, rfl, next, done, -, pushed⟩
    · exact settled p claimed t old
    · exact handler.frees p rfl
    · obtain ⟨d, marked⟩ := inv.marks_of_claimed claimed
      have runnable := inv.marks d p marked
      rcases (inv.pushed next done pushed).free p rfl with zombie | unused | rfl
      · exact absurd (runnable.symm.trans zombie) (by simp)
      · exact absurd (runnable.symm.trans unused) (by simp)
      · exact apart.2 p (by rw [next]; rfl) (exec_free_fork done pushed) claimed
  · exact absurd handler.elsewhere (by simp [IsScheduler, Posts])
  · -- a new claim: the scheduler has picked the process in this step
    obtain rfl := (inv.pushed next done pushed).posts rfl
    rcases exec_pick done with ⟨-, push⟩ | ⟨q, picked, push⟩
    · rw [push] at pushed
      simp at pushed
    · rw [push] at pushed
      obtain rfl : p = q := by simpa [selected, DeisoXv6.chosen, resume] using pushed
      have free := (apart.1 (by rw [next]; rfl) p picked).2
      rcases step_acts ran frees with old | handler | ⟨d, choice', b, k', o', same, next', done', -, pushed'⟩
      · obtain ⟨d, rfl⟩ := inv.scope_running old (by rfl)
        exact free ⟨d, old⟩
      · exact handler.frees p rfl
      · cases same
        cases next.symm.trans next'
        cases done.symm.trans done'
        rw [push] at pushed'
        simp [selected, DeisoXv6.chosen, resume] at pushed'

theorem Inv.selecting_of_waits (inv : Inv m stage) (lock : .tickets ∈ m.locks c)
    (waits : m.WaitsFor c (.proc p)) : stage c = .selecting p := by
  obtain ⟨k, next⟩ := head?_eq_some_iff.mp waits
  have typed := inv.typed (m.running c)
  rw [inv.lock_iff, next] at lock
  rw [next] at typed
  have held : holds k .tickets = true := by simpa using lock
  rcases typed.2.1.2 held with same | ⟨q, same, rest⟩
  · contradiction
  · cases same
    rw [rest] at next
    exact inv.selecting_of_selected next

/-- A CPU that waits for tickets_lock under `p->lock` will store the state of `p`, and the state it
finds is not RUNNABLE, unless it frees `p`. -/
theorem Inv.not_runnable_of_waits (inv : Inv m stage) (lock : .proc p ∈ m.locks c)
    (waits : m.WaitsFor c .tickets) (keeps : act (.freeStore p) ∉ m.code (m.running c)) :
    (m.table.proc p).state ≠ .runnable := by
  obtain ⟨k, next⟩ := head?_eq_some_iff.mp waits
  have typed := inv.typed (m.running c)
  rw [inv.lock_iff, next] at lock
  rw [next] at typed keeps
  obtain ⟨a, k, rfl, ticket⟩ := typed.2.1.1 rfl
  have fits : actOk a k := typed.2.2.2.1
  have pending : act a ∈ m.code (m.running c) := by
    rw [next]
    simp
  have lock : consumes a (.proc p) = true ∨ holds k (.proc p) = true := by simpa using lock
  have known := inv.known _ a pending
  -- the caller of a store into its own state is RUNNING
  have own : owner a = some p → IsSched a = false → (m.table.proc p).state ≠ .runnable := by
    intro own outside
    have belongs := inv.belongs _ a pending
    rcases inv.running_cases c with scheduler | ⟨q, process, -⟩
    · rw [scheduler] at belongs
      exact absurd (belongs.symm.trans own) (by simp)
    · rw [process] at belongs next
      cases belongs.2 p own
      rw [inv.runs c p process (by rw [next]; simp [mustRun, outside])]
      simp
  cases a with
  | pick =>
    cases fits
    simp [consumes] at lock
  | leave how q =>
    obtain rfl := fits.1.sole p (lock.resolve_left (by simp [consumes]))
    exact own rfl rfl
  | setTickets q count =>
    obtain rfl := fits.sole p (lock.resolve_left (by simp [consumes]))
    exact own rfl rfl
  | wakeStore q =>
    obtain rfl := fits.sole p (lock.resolve_left (by simp [consumes]))
    change (m.table.proc q).state = .sleeping at known
    rw [known]
    simp
  | freeStore q =>
    obtain rfl := fits.sole p (lock.resolve_left (by simp [consumes]))
    exact absurd (by simp) keeps
  | publish q =>
    have quiet : Quiet k := fits
    obtain rfl : q = p := by simpa [consumes, quiet (.proc p)] using lock
    rw [inv.forks _ q pending]
    simp
  | _ => contradiction

theorem Inv.not_circularWait (inv : Inv m stage) (settled : Settled m) : ¬m.CircularWait := by
  rintro ⟨c, c', p, -, tickets, waits, lock, waits'⟩
  have at_ := inv.selecting_of_waits tickets waits
  have marked : (stage c).marks = some p := by
    rw [at_]
    rfl
  exact inv.not_runnable_of_waits lock waits' (settled p (inv.claimed_of_marks marked) _) (inv.marks c p marked)

/-- In every state of every run that keeps picks apart from claimed processes and from freeproc. -/
theorem no_circular_wait {es : List (Event n)} (ran : (Machine.boot n).run es = some m)
    (apart : Machine.Along KeepsApart (Machine.boot n) es) : ¬m.CircularWait := by
  obtain ⟨⟨stage, inv⟩, settled⟩ := Machine.run_induction (P := fun m => (∃ stage, Inv m stage) ∧ Settled m)
    (fun ⟨⟨_, inv⟩, settled⟩ apart next =>
      ⟨inv.step next apart.unclaimed, inv.settled_step settled next apart⟩)
    ⟨⟨_, boot_inv n⟩, boot_settled n⟩ apart ran
  exact inv.not_circularWait settled

def forkToCopy : List (Event 2) :=
  replicate 9 (.cpu 0 .go) ++ .cpu 0 (.call .fork) :: replicate 20 (.cpu 0 .go)

/-- The copy fails, and CPU 1 draws once the child is free again. -/
theorem failedFork_no_circular_wait : ∃ m, (Machine.boot 2).run
    (forkToCopy ++ .cpu 0 .fail :: replicate 4 (.cpu 0 .go) ++ replicate 3 (.cpu 1 .go)) =
      some m ∧ ¬m.CircularWait := by
  have runs : ((Machine.boot 2).run (forkToCopy ++ .cpu 0 .fail :: replicate 4 (.cpu 0 .go) ++
      replicate 3 (.cpu 1 .go))).isSome := by decide +kernel
  obtain ⟨m, ran⟩ := Option.isSome_iff_exists.mp runs
  exact ⟨m, ran, no_circular_wait ran (by decide +kernel)⟩

/-- CPU 1 picks the child that fork has made RUNNABLE; the copy then fails, and freeproc waits for
tickets_lock with the child's lock held. -/
def pickedInFork : List (Event 2) :=
  forkToCopy ++ [.cpu 1 .go, .cpu 1 .go, .cpu 1 .go, .cpu 0 .fail, .cpu 0 .go]

theorem pickedInFork_circular_wait : ∃ m, (Machine.boot 2).run pickedInFork = some m ∧ m.CircularWait := by
  have facts : ((Machine.boot 2).run pickedInFork).map (fun m =>
      decide (.tickets ∈ m.locks 1 ∧ m.WaitsFor 1 (.proc 1) ∧ .proc 1 ∈ m.locks 0 ∧ m.WaitsFor 0 .tickets)) =
      some true := by decide +kernel
  obtain ⟨m, ran, waits⟩ := Option.map_eq_some_iff.mp facts
  exact ⟨m, ran, 1, 0, 1, by decide, of_decide_eq_true waits⟩

end DeisoXv6
