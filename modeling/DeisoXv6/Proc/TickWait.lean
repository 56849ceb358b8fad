import DeisoXv6.Proc.CircularWait
import DeisoXv6.Proc.Interleaving

/-! sched takes tickslock under `p->lock` to charge the process its ticks, and clockintr wakes processes up
under tickslock. The two orders meet on a process that one CPU gives up while the other one comes to it. -/

set_option autoImplicit false

namespace DeisoXv6

open List Function LockProgram LockProgram.Stmt Machine

variable {k : List Stmt} {a : Act} {n : Nat} {c : Fin n} {choice : Choice}

variable {chan : Option Chan}

section Code

variable {p : ProcId} {l : Lock}

/-- A rest that starts with tickslock is reached without a process lock. -/
def Unlocked : List Stmt → Prop
  | .acquire l :: k => l = .ticks → NoProc k
  | _ => True

def IsKill : Act → Bool
  | .killFrom _ _ | .killCheck _ _ => true
  | _ => false

/-- Under tickslock only sleep takes a process lock, the one of its own process. -/
def TickLock (k : List Stmt) (p : ProcId) : Prop :=
  holds k .ticks = false ∨ ∃ k', k = release .ticks :: k' ∧ act (.update (.charge p)) ∈ k'

/-- What may stand before a rest. sched takes tickslock right after its checks, and kill is not called
under it. -/
def TickOk : Stmt → List Stmt → Prop
  | .acquire l, k => (∀ p, l = .proc p → TickLock k p) ∧
      (l = .ticks → ∀ p, holds k (.proc p) = true → act (.update (.charge p)) ∈ k) ∧ Unlocked k
  | .release _, k => Unlocked k
  | .act a, k => (IsKill a = true → holds k .ticks = false) ∧ ((∀ p, a ≠ .schedCheck p) → Unlocked k)

def Ticked : List Stmt → Prop
  | [] => True
  | x :: k => TickOk x k ∧ Ticked k

@[simp] theorem unlocked_nil : Unlocked [] := trivial

@[simp] theorem unlocked_acquire : Unlocked (acquire l :: k) ↔ (l = .ticks → NoProc k) := Iff.rfl

@[simp] theorem unlocked_release : Unlocked (release l :: k) := trivial

@[simp] theorem unlocked_act : Unlocked (act a :: k) := trivial

@[simp] theorem tickLock_act : TickLock (act a :: k) p ↔ holds (act a :: k) .ticks = false := by
  simp [TickLock]

@[simp] theorem tickLock_acquire : TickLock (acquire l :: k) p ↔ holds (acquire l :: k) .ticks = false := by
  simp [TickLock]

@[simp] theorem tickLock_release : TickLock (release l :: k) p ↔
    (l ≠ .ticks ∧ holds k .ticks = false) ∨ (l = .ticks ∧ act (.update (.charge p)) ∈ k) := by
  simp [TickLock]

@[simp] theorem ticked_nil : Ticked [] := trivial

@[simp] theorem ticked_acquire : Ticked (acquire l :: k) ↔ ((∀ p, l = .proc p → TickLock k p) ∧
      (l = .ticks → ∀ p, holds k (.proc p) = true → act (.update (.charge p)) ∈ k) ∧ Unlocked k) ∧ Ticked k := Iff.rfl

@[simp] theorem ticked_release : Ticked (release l :: k) ↔ Unlocked k ∧ Ticked k := Iff.rfl

@[simp] theorem ticked_act : Ticked (act a :: k) ↔
    ((IsKill a = true → holds k .ticks = false) ∧ ((∀ p, a ≠ .schedCheck p) → Unlocked k)) ∧ Ticked k :=
  Iff.rfl

theorem unlocked_of_noProc (noProc : NoProc k) : Unlocked k := by
  unfold Unlocked
  split
  · rintro rfl p
    simpa using noProc p
  · trivial

theorem ticked_yield (noProc : NoProc k) (ticked : Ticked k) : Ticked (yield p ++ k) := by
  have without : ∀ q, holds k (.proc q) = false := noProc
  simp [yield, sched, IsKill, ticked, unlocked_of_noProc noProc, consumes, without]

theorem ticked_sleep {lk : Lock} (plain : ∀ q, lk ≠ .proc q) (noProc : NoProc k)
    (ticked : Ticked k) : Ticked (sleep p chan lk ++ k) := by
  have own : TickLock (release lk :: (sleep p chan lk).tail.tail ++ k) p := by
    by_cases same : lk = .ticks
    · refine .inr ⟨_, by rw [same]; rfl, by simp [sleep, sched]⟩
    · refine .inl ?_
      simp [sleep, sched, consumes, same]
  have shape : sleep p chan lk ++ k = acquire (.proc p) :: (release lk :: (sleep p chan lk).tail.tail ++ k) := rfl
  rw [shape, ticked_acquire]
  refine ⟨⟨fun q same => ?_, by rintro ⟨⟩, trivial⟩, ?_⟩
  · cases same
    exact own
  · have without : ∀ q, holds k (.proc q) = false := noProc
    simp [sleep, sched, IsKill, plain, ticked, unlocked_of_noProc noProc, noProc, consumes, without]

variable {t : Table} {call : Syscall} {code : List Stmt}

theorem ticked_syscall (ran : syscall t p call = some code)
    (quiet : Quiet k) (ticked : Ticked k) : Ticked (code ++ k) := by
  have noProc := quiet_noProc quiet
  have without : ∀ q, holds k (.proc q) = false := noProc
  have unlocked := unlocked_of_noProc noProc
  cases call with
  | fork | wait | kill pid =>
    cases ran
    simp [IsKill, ticked, unlocked, quiet .ticks]
  | exit status =>
    simp only [syscall] at ran
    split at ran
    · contradiction
    · cases ran
      simp [exit, sched, IsKill, ticked, unlocked, consumes, without]
  | settickets count =>
    cases ran
    unfold settickets
    split
    · exact ticked
    · simp [IsKill, ticked, unlocked, consumes, quiet .ticks]
  | sleep chan guard =>
    cases ran
    have plain := guard.lock_ne_proc
    have back : Ticked (release guard.lock :: k) := ⟨unlocked, ticked⟩
    have slept : Ticked (sleep p chan guard.lock ++ release guard.lock :: k) :=
      ticked_sleep plain (fun q => by simp [plain q, noProc q]) back
    have shape : (acquire guard.lock :: sleep p chan guard.lock ++ [release guard.lock]) ++ k =
        acquire guard.lock :: (sleep p chan guard.lock ++ release guard.lock :: k) := by simp
    rw [shape, ticked_acquire]
    refine ⟨⟨fun q same => absurd same (plain q), fun _ q held => ?_, by rintro ⟨⟩⟩, slept⟩
    -- sleep gives back only what it takes
    simp [sleep, sched, consumes, plain, without] at held
  | wakeup chan guard =>
    cases ran
    have plain := guard.lock_ne_proc
    simp [wakeup, IsKill, plain, ticked, unlocked, consumes, without]

theorem unlocked_syscall (ran : syscall t p call = some code) (quiet : Quiet k) : Unlocked (code ++ k) := by
  have without : ∀ q, holds k (.proc q) = false := quiet_noProc quiet
  have plain : ∀ (guard : Guard) q, guard.lock ≠ .proc q := fun guard q => by cases guard <;> simp [Guard.lock]
  cases call with
  | exit status =>
    simp only [syscall] at ran
    split at ran
    · contradiction
    · cases ran
      simp [exit]
  | settickets count =>
    cases ran
    unfold settickets
    split
    · exact unlocked_of_noProc without
    · simp
  | sleep chan guard =>
    cases ran
    simp [sleep, sched, NoProc, consumes, plain, without]
  | wakeup chan guard =>
    cases ran
    simp [wakeup, NoProc, consumes, plain, without]
  | fork | wait | kill pid =>
    cases ran
    simp

theorem ticked_selected : Ticked (selected p) := by
  simp [selected, chosen, resume, IsKill, NoProc, consumes]

theorem ticked_clockintr (noProc : NoProc k) (ticked : Ticked k) : Ticked (clockintr ++ k) := by
  have without : ∀ q, holds k (.proc q) = false := noProc
  simp [clockintr, wakeup, IsKill, ticked, unlocked_of_noProc noProc, consumes, without]

end Code

section Exec

variable {locks : List Lock} {s : Shared n} {o : Outcome n}

def ScansNext (p : ProcId) (k : List Stmt) : Prop :=
  ∃ chan k', k = acquire (.proc p) :: act (.wakeupCheck p chan) :: k'

theorem exec_ticked (ran : exec c choice locks s a = some o) (fits : actOk a k) (ticked : Ticked (act a :: k)) :
    Ticked (o.push ++ k) ∨ ∃ i chan, ∃ inside : i < NPROC, a = .wakeupFrom i chan ∧
      o.push = [acquire (.proc ⟨i, inside⟩), act (.wakeupCheck ⟨i, inside⟩ chan), release (.proc ⟨i, inside⟩),
        act (.wakeupFrom (i + 1) chan)] := by
  obtain ⟨⟨kill, unlocked⟩, rest⟩ := ticked
  cases a with
  | wakeupFrom i chan =>
    simp only [exec] at ran
    split at ran
    · split at ran <;> cases ran
      · simp [IsKill, rest, unlocked]
      · exact .inr ⟨i, chan, ‹_›, rfl, rfl⟩
    · cases ran
      exact .inl rest
  | loop =>
    cases fits
    cases ran
    simp [IsKill]
  | pick =>
    cases fits
    rcases exec_pick ran with ⟨-, push⟩ | ⟨p, -, push⟩
    · simp [push, IsKill]
    · simp [push, ticked_selected]
  | user =>
    have quiet : Quiet k := fits
    simp only [exec] at ran
    split at ran
    · split at ran
      · rename_i called
        cases ran
        have user : Ticked (act .user :: k) := by simp [IsKill, rest, unlocked]
        rw [append_assoc]
        exact .inl (ticked_syscall called (fun l => by simp [consumes, quiet l]) user)
      · contradiction
    · contradiction
  | trapYield =>
    have quiet : Quiet k := fits
    simp only [exec] at ran
    split at ran
    · cases ran
      exact .inl (ticked_yield (quiet_noProc quiet) rest)
    · contradiction
  | preempt =>
    have quiet : Quiet k := fits
    simp only [exec] at ran
    split at ran <;> cases ran
    · split
      · exact .inl (ticked_yield (quiet_noProc quiet) rest)
      · exact .inl rest
    · exact .inl rest
  | waitFrom p i havekids =>
    have quiet : Quiet k := fits
    have noProc := quiet_noProc quiet
    simp only [exec] at ran
    split at ran
    · split at ran <;> cases ran
      · simp [IsKill, rest, unlocked, consumes, quiet .ticks]
      · simp [IsKill, rest, unlocked]
    · split at ran <;> cases ran
      · simp [rest, unlocked]
      · rw [append_assoc]
        refine .inl (ticked_sleep (by simp) (fun q => ?_) ?_)
        · simp [consumes, noProc q]
        · simp [IsKill, rest, unlocked]
  | setRunning _ | setProc _ | swtch _ | clearProc | leave _ _ | switchBack _ | setTickets _ _ | wakeStore _
  | freeStore _ | update _ =>
    cases ran
    exact .inl rest
  | zombieExit p => contradiction
  | schedCheck p =>
    simp only [exec] at ran
    split at ran
    · cases ran
      exact .inl rest
    · contradiction
  | wakeupCheck p chan =>
    cases ran
    split
    · simp [IsKill, rest, unlocked]
    · exact .inl rest
  | wakeParent p =>
    cases ran
    simp [wakeup, IsKill, rest, unlocked]
  | reparentFrom p i =>
    simp only [exec] at ran
    repeat' split at ran
    all_goals
      cases ran
      simp [wakeup, IsKill, rest, unlocked]
  | killFrom i pid =>
    simp only [exec] at ran
    split at ran <;> cases ran
    · simp [IsKill, rest, unlocked, kill rfl, consumes]
    · exact .inl rest
  | killCheck p pid =>
    simp only [exec] at ran
    split at ran <;> cases ran
    · split <;> simp [IsKill, rest, unlocked]
    · simp [IsKill, rest, unlocked, kill rfl]
  | waitCheck p np =>
    simp only [exec] at ran
    repeat' split at ran
    all_goals
      cases ran
      simp [freeproc, IsKill, rest, unlocked]
  | allocFrom p i =>
    have quiet : Quiet k := fits
    simp only [exec] at ran
    split at ran <;> cases ran
    · simp [IsKill, rest, unlocked, consumes, quiet .ticks]
    · exact .inl rest
  | allocCheck p np =>
    simp only [exec] at ran
    split at ran <;> cases ran <;> simp [IsKill, rest, unlocked]
  | setUsed p np =>
    have quiet : Quiet k := fits
    simp only [exec] at ran
    split at ran <;> cases ran
    · simp [freeproc, IsKill, rest, unlocked]
    · simp [IsKill, rest, unlocked, consumes, quiet .ticks]
  | publish np =>
    cases ran
    simp [IsKill, rest, unlocked]
  | forkCopy np =>
    simp only [exec] at ran
    split at ran <;> cases ran <;> simp [freeproc, IsKill, rest, unlocked]

theorem exec_unlocked (ran : exec c choice locks s a = some o) (fits : actOk a k)
    (other : ∀ p, a ≠ .schedCheck p) (unlocked : Unlocked k) : Unlocked (o.push ++ k) := by
  cases a with
  | schedCheck p => exact absurd rfl (other p)
  | user =>
    have quiet : Quiet k := fits
    simp only [exec] at ran
    split at ran
    · split at ran
      · rename_i called
        cases ran
        rw [append_assoc]
        exact unlocked_syscall called fun l => by simp [consumes, quiet l]
      · contradiction
    · contradiction
  | _ =>
    simp only [exec] at ran
    repeat' split at ran
    all_goals first
      | contradiction
      | cases ran; simp [unlocked, selected, yield, sleep, wakeup, freeproc]

end Exec

variable {m m' : Machine n} {stage : Fin n → Stage}

/-- The code of a thread, which may have come to a process in wakeup. -/
def TickCode (k : List Stmt) : Prop :=
  Ticked k ∨ (∃ p, ScansNext p k) ∧ Ticked k.tail

structure TickInv (m : Machine n) : Prop where
  code : ∀ t, TickCode (m.code t)
  suspended : ∀ p, (∀ c, m.running c ≠ .process p) → Unlocked (m.code (.process p)) ∧ Ticked (m.code (.process p))

section TickCode

variable {x : Stmt}

theorem TickCode.rest (code : TickCode (x :: k)) : Ticked k := by
  rcases code with ticked | ⟨-, rest⟩
  · exact ticked.2
  · exact rest

theorem TickCode.act (code : TickCode (act a :: k)) : Ticked (.act a :: k) := by
  rcases code with ticked | ⟨⟨p, chan, k', shape⟩, -⟩
  · exact ticked
  · cases shape

theorem TickCode.ticked (code : TickCode k) (free : holds k .ticks = false) : Ticked k := by
  rcases code with ticked | ⟨⟨p, chan, k', rfl⟩, rest⟩
  · exact ticked
  · refine ⟨⟨fun q same => ?_, (fun wrong => nomatch wrong), trivial⟩, rest⟩
    simpa using free

theorem TickCode.unlocked (code : TickCode (x :: k)) (other : ∀ p, x ≠ .act (.schedCheck p)) : Unlocked k := by
  rcases code with ticked | ⟨⟨p, chan, k', shape⟩, -⟩
  · cases x with
    | acquire l => exact ticked.1.2.2
    | release l => exact ticked.1
    | act a => exact ticked.1.2 fun p same => other p (congrArg Stmt.act same)
  · cases shape
    trivial

theorem ticked_timerHandler (quiet : Quiet k) (ticked : Ticked k) : Ticked (m.timerHandler c ++ k) := by
  have noProc := quiet_noProc quiet
  have last : ∀ b, b = .trapYield ∨ b = .preempt → NoProc (.act b :: k) ∧ Ticked (.act b :: k) := by
    rintro b (rfl | rfl)
    · exact ⟨fun p => by simp [consumes, noProc p], by simp [IsKill, ticked, unlocked_of_noProc noProc]⟩
    · exact ⟨fun p => by simp [consumes, noProc p], by simp [IsKill, ticked, unlocked_of_noProc noProc]⟩
  obtain ⟨without, rest⟩ := last _ (by split <;> simp : (if (m.code (m.running c)).head? = some (.act .user)
    then Act.trapYield else .preempt) = .trapYield ∨ _ = Act.preempt)
  unfold timerHandler
  rw [append_assoc]
  split
  · exact ticked_clockintr without rest
  · exact rest

theorem ticked_deviceHandler {lk : Nat} (quiet : Quiet k) (ticked : Ticked k) :
    Ticked (deviceHandler chan lk ++ k) := by
  simp [deviceHandler, wakeup, IsKill, ticked, unlocked_of_noProc (quiet_noProc quiet)]

end TickCode

theorem Inv.tick_code (inv : Inv m stage) (ticks : TickInv m) (step : Interleaves m c choice m') :
    ∀ t, TickCode (m'.code t) := by
  have code := ticks.code (m.running c)
  have typed := inv.typed (m.running c)
  refine inv.code_step (P := fun _ => TickCode) step (fun t _ => ticks.code t) ?rest ?ran ?drawn ?timer ?device ?fresh
  case rest =>
    intro x k next lock
    rw [next] at code
    exact .inl code.rest
  case ran =>
    intro a k o next ran
    rw [next] at code typed
    rcases exec_ticked ran typed.1 code.act with ticked | ⟨i, chan, inside, rfl, push⟩
    · exact .inl ticked
    · rw [push]
      refine .inr ⟨⟨_, _, _, rfl⟩, ?_⟩
      simp [IsKill, code.rest, code.unlocked (by simp)]
  case drawn =>
    intro k next
    rw [next] at typed
    cases typed.1
    exact ⟨.inl (by simp [IsKill]), fun p => .inl (by simp [ticked_selected])⟩
  case timer =>
    intro free
    have quiet := inv.quiet free
    exact .inl (ticked_timerHandler quiet (code.ticked (quiet .ticks)))
  case device =>
    intro free chan lk
    have quiet := inv.quiet free
    exact .inl (ticked_deviceHandler quiet (code.ticked (quiet .ticks)))
  case fresh => exact fun p => .inl (by simp [forkret, IsKill])

theorem Inv.tick_step (inv : Inv m stage) (ticks : TickInv m) (step : Interleaves m c choice m') : TickInv m' := by
  refine ⟨inv.tick_code ticks step, fun p alone => ?_⟩
  by_cases before : ∀ c', m.running c' ≠ .process p
  · rcases inv.suspended_code step (before c) with same | ⟨same, -⟩
    · rw [same]
      exact ticks.suspended p before
    · rw [same]
      exact ⟨trivial, by simp [forkret, IsKill]⟩
  · simp only [not_forall, not_not] at before
    obtain ⟨c', process⟩ := before
    obtain ⟨-, next, -⟩ := inv.leaves_cpu step process (alone c')
    have code := ticks.code (.process p)
    rw [next] at code
    exact ⟨code.unlocked (by simp), code.rest⟩

theorem boot_tickInv (n : Nat) : TickInv (boot n) := by
  constructor
  · intro t
    cases t with
    | scheduler c => exact .inl (by simp [boot, IsKill])
    | process p => exact .inl (by simp [boot, forkret, IsKill])
  · exact fun p _ => ⟨trivial, by simp [boot, forkret, IsKill]⟩

def Machine.TickWait (m : Machine n) : Prop :=
  ∃ c c' p, c ≠ c' ∧ .ticks ∈ m.locks c ∧ m.WaitsFor c (.proc p) ∧ .proc p ∈ m.locks c' ∧ m.WaitsFor c' .ticks

/-- Some CPU holds `p->lock` and has still to charge process `p` its ticks in sched. -/
def InSched (m : Machine n) (p : ProcId) : Prop :=
  ∃ c, .proc p ∈ m.locks c ∧ act (.update (.charge p)) ∈ m.code (m.running c)

def Scanned (m : Machine n) (p : ProcId) : Prop :=
  ∃ c, .ticks ∈ m.locks c ∧ m.WaitsFor c (.proc p)

/-- The slot that wakeup looks at in the CPU's next step. -/
def Machine.wakesNext (m : Machine n) (c : Fin n) : Option Nat :=
  match (m.code (m.running c)).head? with
  | some (.act (.wakeupFrom i _)) => some i
  | _ => none

/-- The two sides stay apart: under tickslock wakeup comes to no process that a CPU is giving up, and no CPU
enters sched for a process that wakeup is waiting for. -/
def KeepsTicks (m : Machine n) (e : Event n) : Prop :=
  PicksUnclaimed m e ∧ (∀ p : ProcId, m.wakesNext e.cpuOf = some p.val → .ticks ∈ m.locks e.cpuOf → ¬InSched m p) ∧
    ∀ p, (m.code (m.running e.cpuOf)).head? = some (act (.schedCheck p)) → ¬Scanned m p

instance (m : Machine n) (p : ProcId) : Decidable (InSched m p) :=
  inferInstanceAs (Decidable (∃ c, .proc p ∈ m.locks c ∧ act (.update (.charge p)) ∈ m.code (m.running c)))

instance (m : Machine n) (p : ProcId) : Decidable (Scanned m p) :=
  inferInstanceAs (Decidable (∃ c, .ticks ∈ m.locks c ∧ m.WaitsFor c (.proc p)))

instance (m : Machine n) (e : Event n) : Decidable (KeepsTicks m e) :=
  inferInstanceAs (Decidable (_ ∧ _ ∧ _))

theorem TickInv.charges (ticks : TickInv m) (inv : Inv m stage) {p : ProcId} (lock : .proc p ∈ m.locks c)
    (waits : m.WaitsFor c .ticks) : act (.update (.charge p)) ∈ m.code (m.running c) := by
  obtain ⟨k, next⟩ := List.head?_eq_some_iff.mp waits
  have held := (inv.lock_iff (.proc p)).mp lock
  have code := ticks.code (m.running c)
  rw [next] at held code ⊢
  rcases code with ticked | ⟨⟨q, chan, k', shape⟩, -⟩
  · exact mem_cons_of_mem _ (ticked.1.2.1 rfl p (by simpa using held))
  · cases shape

theorem Inv.runs_of_charge (inv : Inv m stage) {p : ProcId}
    (pending : act (.update (.charge p)) ∈ m.code (m.running c)) : m.running c = .process p := by
  have belongs := inv.belongs (m.running c) _ pending
  rcases inv.running_cases c with scheduler | ⟨q, process, -⟩
  · rw [scheduler] at belongs
    cases belongs
  · rw [process] at belongs ⊢
    rw [belongs.2 p rfl]

theorem Inv.not_ticked (inv : Inv m stage) {c' : Fin n} {p : ProcId} (other : c ≠ c')
    (lock : .ticks ∈ m.locks c) (waits : m.WaitsFor c (.proc p))
    (charges : act (.update (.charge p)) ∈ m.code (m.running c')) : ¬Ticked (m.code (m.running c)) := by
  intro ticked
  obtain ⟨k, next⟩ := List.head?_eq_some_iff.mp waits
  have held := (inv.lock_iff .ticks).mp lock
  rw [next] at held ticked
  rcases ticked.1.1 p rfl with free | ⟨k', rfl, own⟩
  · simp [free] at held
  · -- sleep takes the lock of its own process, which runs on one CPU
    have mine : m.running c = .process p := inv.runs_of_charge (by rw [next]; simp [own])
    exact other (inv.balanced.apart _ _ (mine.trans (inv.runs_of_charge charges).symm))

theorem Inv.ticked_or_wakes (inv : Inv m stage) (ticks : TickInv m) (step : Interleaves m c choice m') :
    Ticked (m'.code (m'.running c)) ∨ m'.locks c = m.locks c ∧
      ∃ p : ProcId, m.wakesNext c = some p.val ∧ m'.WaitsFor c (.proc p) := by
  have code := ticks.code (m.running c)
  have typed := inv.typed (m.running c)
  have goes : ∀ {k}, m'.code (m'.running c) = k → Ticked k → Ticked (m'.code (m'.running c)) :=
    fun same ticked => same ▸ ticked
  cases step with
  | acquire choice next free | release choice next held =>
    rw [next] at code
    exact .inl (goes (update_self ..) code.rest)
  | idle choice seed next =>
    rw [next] at typed
    cases typed.1
    exact .inl (goes ((drawn_code ..).trans (if_pos rfl)) (by simp [IsKill]))
  | dispatch choice seed next _ _ =>
    rw [next] at typed
    cases typed.1
    exact .inl (goes ((drawn_code ..).trans (if_pos rfl)) (by simp [ticked_selected]))
  | timer free =>
    have quiet := inv.quiet free
    exact .inl (goes (update_self ..) (ticked_timerHandler quiet (code.ticked (quiet .ticks))))
  | device chan lk free =>
    have quiet := inv.quiet free
    exact .inl (goes (update_self ..) (ticked_deviceHandler quiet (code.ticked (quiet .ticks))))
  | act next pick ran =>
    rw [next] at code typed
    rcases inv.act_thread next ran with ⟨p, rfl, running, idle⟩ | ⟨p, rfl, running, -, resumes⟩ | ⟨running, pushed⟩
    · have kept := (inv.apply_code next ran (.process p)).resolve_right (by simp)
      rw [running, kept, if_neg (idle c).symm]
      exact .inl (ticks.suspended p idle).2
    · rw [running, resumes]
      exact .inl (by simp [resume, IsKill, NoProc, consumes])
    · rcases exec_ticked ran typed.1 code.act with ticked | ⟨i, chan, inside, rfl, push⟩
      · exact .inl (goes (by rw [running, pushed]) ticked)
      · refine .inr ⟨by rw [apply_locks], ⟨i, inside⟩, ?_, ?_⟩
        · rw [wakesNext, next]
          rfl
        · rw [WaitsFor, running, pushed, push]
          rfl

theorem Inv.unlocked_or_checks (inv : Inv m stage) (ticks : TickInv m) (step : Interleaves m c choice m') :
    Unlocked (m'.code (m'.running c)) ∨ m'.locks c = [] ∨ ∃ p, m'.locks c = [.proc p] ∧
      (m.code (m.running c)).head? = some (act (.schedCheck p)) := by
  have code := ticks.code (m.running c)
  have typed := inv.typed (m.running c)
  have goes : ∀ {k}, m'.code (m'.running c) = k → Unlocked k → Unlocked (m'.code (m'.running c)) :=
    fun same unlocked => same ▸ unlocked
  cases step with
  | acquire choice next free | release choice next held =>
    rw [next] at code
    exact .inl (goes (update_self ..) (code.unlocked (by simp)))
  | idle choice seed next | dispatch choice seed next _ _ =>
    exact .inl (goes ((drawn_code ..).trans (if_pos rfl)) (by simp [selected]))
  | timer free | device chan lk free => exact .inr (.inl free)
  | @act a _ _ _ next pick ran =>
    rw [next] at code typed
    rcases inv.act_thread next ran with ⟨p, rfl, running, idle⟩ | ⟨p, rfl, running, -, resumes⟩ | ⟨running, pushed⟩
    · have kept := (inv.apply_code next ran (.process p)).resolve_right (by simp)
      rw [running, kept, if_neg (idle c).symm]
      exact .inl (ticks.suspended p idle).1
    · rw [running, resumes]
      exact .inl trivial
    · by_cases checks : ∃ p, a = .schedCheck p
      · obtain ⟨p, rfl⟩ := checks
        simp only [exec] at ran
        split at ran
        · rename_i passed
          obtain ⟨l, sole⟩ := length_eq_one_iff.mp passed.2.1
          have own := passed.1
          rw [sole] at own
          cases mem_singleton.mp own
          exact .inr (.inr ⟨p, by rw [apply_locks, sole], by rw [next]; rfl⟩)
        · contradiction
      · have other := not_exists.mp checks
        rw [running, pushed]
        exact .inl (exec_unlocked ran typed.1 other (code.unlocked fun p same => other p (act.inj same)))

theorem Inv.not_tickWait_step (inv : Inv m stage) (ticks : TickInv m) (apart : ¬m.TickWait) {e : Event n}
    (ran : m.step e = some m') (keeps : KeepsTicks m e) : ¬m'.TickWait := by
  have step := step_interleaves ran keeps.1
  obtain ⟨stage', inv'⟩ := inv.interleaves step
  have ticks' := inv.tick_step ticks step
  rintro ⟨c, c', p, other, lock, waits, lock', waits'⟩
  have charges := ticks'.charges inv' lock' waits'
  by_cases scans : c = e.cpuOf
  · -- wakeup has come to the process, which the other CPU was already giving up
    subst scans
    obtain ⟨running, locks, code⟩ := inv.other_cpu step other.symm
    rcases inv.ticked_or_wakes ticks step with ticked | ⟨same, q, comes, waiting⟩
    · exact inv'.not_ticked other lock waits charges ticked
    · cases waits.symm.trans waiting
      rw [same] at lock
      rw [locks] at lock'
      rw [running, code] at charges
      exact keeps.2.1 p comes lock ⟨c', lock', charges⟩
  · obtain ⟨running, locks, code⟩ := inv.other_cpu step scans
    have stays : .ticks ∈ m.locks c ∧ m.WaitsFor c (.proc p) := by
      rw [locks] at lock
      rw [WaitsFor, running, code] at waits
      exact ⟨lock, waits⟩
    by_cases enters : c' = e.cpuOf
    · -- the other CPU has entered sched, while wakeup was already waiting
      subst enters
      rcases inv.unlocked_or_checks ticks step with unlocked | none | ⟨q, sole, checks⟩
      · obtain ⟨k, next⟩ := List.head?_eq_some_iff.mp waits'
        have held := (inv'.lock_iff (.proc p)).mp lock'
        rw [next] at unlocked held
        simp [unlocked rfl p] at held
      · rw [none] at lock'
        cases lock'
      · rw [sole] at lock'
        cases mem_singleton.mp lock'
        exact keeps.2.2 p checks ⟨c, stays⟩
    · obtain ⟨running', locks', code'⟩ := inv.other_cpu step enters
      rw [locks'] at lock'
      rw [WaitsFor, running', code'] at waits'
      exact apart ⟨c, c', p, other, stays.1, stays.2, lock', waits'⟩

/-- In every state of every run in which clockintr and sched do not meet on a process. -/
theorem no_tick_wait {es : List (Event n)} (ran : (boot n).run es = some m)
    (keeps : Along KeepsTicks (boot n) es) : ¬m.TickWait := by
  have start : ¬(boot n).TickWait := by
    rintro ⟨c, c', p, -, lock, -⟩
    cases lock
  exact (run_induction (P := fun m => ((∃ stage, Inv m stage) ∧ TickInv m) ∧ ¬m.TickWait)
    (fun ⟨⟨⟨_, inv⟩, ticks⟩, apart⟩ keeps next =>
      ⟨⟨inv.step next keeps.1, inv.tick_step ticks (step_interleaves next keeps.1)⟩,
        inv.not_tickWait_step ticks apart next keeps⟩)
    ⟨⟨⟨_, boot_inv n⟩, boot_tickInv n⟩, start⟩ keeps ran).2

def preempted : List (Event 2) :=
  List.replicate 9 (.cpu 1 .go) ++ .timer 1 :: List.replicate 6 (.cpu 1 .go)

/-- CPU 1 gives the process up, and then the clock of CPU 0 ticks and wakeup looks at it. -/
theorem preempted_no_tick_wait : ∃ m, (boot 2).run
    (preempted ++ List.replicate 6 (.cpu 1 .go) ++ .timer 0 :: List.replicate 6 (.cpu 0 .go)) =
      some m ∧ ¬m.TickWait := by
  have runs : ((boot 2).run (preempted ++ List.replicate 6 (.cpu 1 .go) ++
      .timer 0 :: List.replicate 6 (.cpu 0 .go))).isSome := by decide +kernel
  obtain ⟨m, ran⟩ := Option.isSome_iff_exists.mp runs
  exact ⟨m, ran, no_tick_wait ran (by decide +kernel)⟩

def tickInSched : List (Event 2) := preempted ++ .timer 0 :: List.replicate 3 (.cpu 0 .go)

theorem tickInSched_tick_wait : ∃ m, (boot 2).run tickInSched = some m ∧ m.TickWait := by
  have facts : ((boot 2).run tickInSched).map (fun m =>
      decide (.ticks ∈ m.locks 0 ∧ m.WaitsFor 0 (.proc 0) ∧ .proc 0 ∈ m.locks 1 ∧ m.WaitsFor 1 .ticks)) =
      some true := by decide +kernel
  obtain ⟨m, ran, waits⟩ := Option.map_eq_some_iff.mp facts
  exact ⟨m, ran, 0, 1, 0, by decide, of_decide_eq_true waits⟩

end DeisoXv6
