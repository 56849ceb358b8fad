import DeisoXv6.Proc.Sleeping

/-! exit, wait and fork under wait_lock. The holder of wait_lock is at one of the points of the three functions
that take it. What it has found out about the process table at each point stays true, because nobody else
makes a ZOMBIE, gives a process a parent or goes to sleep in wait. -/

set_option autoImplicit false

namespace DeisoXv6

open Function (update update_apply update_self)
open List LockProgram LockProgram.Stmt Machine

variable {n : Nat} {m m' : Machine n} {stage : Fin n → Stage} {c : Fin n} {choice : Choice} {p q z : ProcId}

def again (q : ProcId) : List Stmt := act (.waitFrom q 0 false) :: returns

/-- Process `q` has released wait_lock in wait, and nobody has woken it. -/
def DozesInWait (m : Machine n) (q : ProcId) : Prop := Dozing m q (some (.proc q)) .wait (again q)

/-- Process `q` calls wait or has been woken in it, and does not have wait_lock yet. -/
def AwakeInWait (m : Machine n) (q : ProcId) : Prop := Awake m q (acquire .wait :: again q)

def FallsAsleep (m : Machine n) (c : Fin n) (q : ProcId) : Prop :=
  m.running c = .process q ∧
    m.code (m.running c) = release .wait :: (doze q (some (.proc q)) ++ wakes q .wait (again q))

variable {k : List Stmt} {t : Thread n} {b a : Act} {o : Outcome n} {locks : List Lock} {s : Shared n}
  {havekids : Bool}

theorem Dozing.not_awake {chan : Option Chan} {lk : Lock} (dozing : Dozing m q chan lk k) :
    ¬Awake m q (acquire lk :: k) := by
  intro awake
  obtain ⟨i, dozes⟩ := dozing
  obtain ⟨before, code, handles⟩ := awake.code
  rcases Nat.lt_or_ge i 3 with early | late
  · have same : before = (doze q chan).drop i ++ [act (.update (.setChan q none)), release (.proc q)] := by
      refine append_cancel_right (?_ : _ ++ (acquire lk :: k) = _ ++ (acquire lk :: k))
      rw [← code, dozes.code]
      simp [wakes]
    have pending : act (.leave .sleep q) ∈ before := by
      rw [same]
      interval_cases i <;> simp [doze]
    cases handles _ pending
  · exact awake.state (dozes.state late)

theorem DozesInWait.code_eq (dozes : DozesInWait m q) :
    act (.waitFrom q 0 false) ∈ m.code (.process q) ∧ holds (m.code (.process q)) .wait = false ∧
      acquire .wait :: again q <:+ m.code (.process q) := by
  obtain ⟨i, dozes⟩ := dozes
  have bound := dozes.bound
  refine ⟨?_, ?_, ?_⟩
  · rw [dozes.code]
    simp [wakes, again]
  · rw [dozes.code]
    interval_cases i <;> simp [doze, sched, wakes, consumes]
  · rw [dozes.code]
    exact ⟨(doze q (some (.proc q))).drop i ++ [act (.update (.setChan q none)), release (.proc q)], by simp [wakes]⟩

theorem Inv.wait_step (inv : Inv m stage) (step : Interleaves m c choice m') (lock : .wait ∈ m.locks c) :
    (∃ k, m.code (m.running c) = release .wait :: k ∧ m' = (m.drop c .wait).setCode (m.running c) k) ∨
      .wait ∈ m'.locks c ∧ m'.running c = m.running c := by
  cases step with
  | acquire choice next free =>
    refine .inr ⟨?_, rfl⟩
    simp [Config.setCode, Config.take, lock]
  | @release l k choice next held =>
    by_cases same : l = .wait
    · subst same
      exact .inl ⟨k, next, rfl⟩
    · refine .inr ⟨?_, rfl⟩
      simp [Config.setCode, Config.drop, lock, Ne.symm same]
  | @act a k _ o next other ran =>
    refine .inr ⟨by rw [apply_locks]; exact lock, ?_⟩
    rw [apply_running, if_pos rfl, exec_switch ran]
    -- whoever calls swtch has no lock but that of the process
    have only : ∀ p, consumes a .wait = false → Only (.proc p) k → False := by
      intro p keeps only
      rw [inv.lock_iff, next, holds_act, keeps, Bool.false_or, only] at lock
      cases lock
    have typed := inv.typed (m.running c)
    rw [next] at typed
    cases a with
    | swtch p => exact (only p rfl typed.1).elim
    | switchBack p => exact (only p rfl typed.1.1).elim
    | _ => rfl
  | idle choice seed next | dispatch choice seed next _ _ =>
    exact .inr ⟨by rw [apply_locks]; exact lock, by rw [apply_running, if_pos rfl]; rfl⟩
  | timer free | device chan lk free =>
    rw [free] at lock
    cases lock

/-- The actions that handlers, schedulers and new processes start with. -/
def Routine : Act → Bool
  | .trapYield | .preempt | .wakeupFrom _ _ | .update .tick | .update .setLastStart | .user => true
  | a => IsScheduler a

theorem interleaves_pending (step : Interleaves m c choice m')
    (pending : act b ∈ m'.code t) (special : Routine b = false) :
    act b ∈ m.code t ∨ ∃ a k o, t = m.running c ∧ m.code (m.running c) = act a :: k ∧
      exec c choice (m.locks c) m.shared a = some o ∧ act b ∈ o.push ∧ m' = m.apply c k o := by
  have brought : ∀ {push k : List Stmt}, m'.code t = (if t = m.running c then push ++ k else m.code t) →
      (∀ x ∈ k, x ∈ m.code (m.running c)) → Acts (fun a => Routine a = true) push → act b ∈ m.code t := by
    intro push k code rest routine
    rw [code] at pending
    split at pending
    · rename_i own
      rcases mem_append.mp pending with new | old
      · have := (routine b new).symm.trans special
        contradiction
      · exact own ▸ rest _ old
    · exact pending
  have later : ∀ {x : Stmt} {k : List Stmt}, m.code (m.running c) = x :: k → ∀ y ∈ k, y ∈ m.code (m.running c) := by
    intro x k next y old
    rw [next]
    exact mem_cons_of_mem _ old
  cases step with
  | acquire choice next free | release choice next held =>
    exact .inl (mem_relocked_code next pending)
  | act next other ran =>
    rcases mem_apply_code ran pending with rfl | plainly
    · cases special
    · rcases mem_plain_code next plainly with ⟨here, pushed⟩ | old
      · exact .inr ⟨_, _, _, here, next, ran, pushed, rfl⟩
      · exact .inl old
  | idle choice seed next =>
    exact .inl (brought (drawn_code ..) (later next) (by simp [Routine, IsScheduler]))
  | dispatch choice seed next _ _ =>
    exact .inl (brought (drawn_code ..) (later next)
      (by simp [selected, chosen, resume, Routine, IsScheduler, Posts]))
  | timer free =>
    refine .inl (brought (update_apply ..) (fun _ old => old) ?_)
    unfold timerHandler
    split <;> split <;> simp [clockintr, wakeup, Routine]
  | device chan lk free =>
    exact .inl (brought (update_apply ..) (fun _ old => old) (by simp [deviceHandler, wakeup, Routine]))

theorem Inv.own_suffix (inv : Inv m stage) (step : Interleaves m c choice m') {x : Stmt}
    (next : m.code (m.running c) = x :: k) : k <:+ m'.code (m.running c) := by
  have own : ∀ {code : List Stmt}, m'.code (m.running c) = code → k <:+ code → k <:+ m'.code (m.running c) := by
    rintro code rfl inside
    exact inside
  cases step with
  | acquire choice here free | release choice here held =>
    cases here.symm.trans next
    exact own (update_self ..) (suffix_refl _)
  | act here other ran =>
    cases here.symm.trans next
    exact own (inv.own_code next ran) (suffix_append ..)
  | idle choice seed here =>
    cases here.symm.trans next
    refine own (drawn_code ..) ?_
    rw [if_pos rfl]
    exact suffix_append ..
  | dispatch choice seed here _ _ =>
    cases here.symm.trans next
    refine own (drawn_code ..) ?_
    rw [if_pos rfl]
    exact suffix_append ..
  | timer free | device chan lk free =>
    refine own (update_self ..) ?_
    rw [next]
    exact (suffix_cons ..).trans (suffix_append ..)

/-- The actions by which exit, wait and fork change the family of a process. -/
def IsFamily : Act → Bool
  | .leave .exit _ | .update (.setXstate _ _) | .waitFrom _ _ _ | .publish _ | .forkCopy _ | .freeStore _ => true
  | _ => false

theorem exec_user (ran : exec c choice locks s .user = some o) :
    ∃ call p code, choice = .call call ∧ s.proc c = some p ∧ syscall s.table p call = some code ∧
      o = ⟨s, code ++ returns, none, none⟩ := by
  simp only [exec] at ran
  split at ran
  · rename_i call p self
    split at ran
    · rename_i code called
      cases ran
      exact ⟨call, p, code, rfl, self, called, rfl⟩
    · contradiction
  · contradiction

theorem syscall_family {t : Table} {call : Syscall} {code : List Stmt} (ran : syscall t p call = some code) :
    (∃ status, call = .exit status ∧ t.initproc ≠ some p ∧ code = exit p status) ∨
      (call = .wait ∧ code = [acquire .wait, act (.waitFrom p 0 false)]) ∨
      Acts (fun a => IsFamily a = false) code := by
  cases call with
  | exit status =>
    simp only [syscall] at ran
    split at ran
    · contradiction
    · rename_i other
      cases ran
      exact .inl ⟨status, rfl, other, rfl⟩
  | wait =>
    cases ran
    exact .inr (.inl ⟨rfl, rfl⟩)
  | settickets count =>
    cases ran
    refine .inr (.inr ?_)
    unfold settickets
    split <;> simp [IsFamily]
  | fork | kill pid | sleep chan guard | wakeup chan guard =>
    cases ran
    refine .inr (.inr ?_)
    simp [sleep, sched, wakeup, IsFamily]

theorem user_family (ran : exec c choice locks s .user = some o)
    (pushed : act b ∈ o.push) (family : IsFamily b = true) :
    ∃ p, s.proc c = some p ∧ ((∃ status, choice = .call (.exit status) ∧ s.table.initproc ≠ some p ∧
      o = ⟨s, exit p status ++ returns, none, none⟩) ∨ o = ⟨s, acquire .wait :: again p, none, none⟩) := by
  obtain ⟨call, p, code, rfl, self, called, rfl⟩ := exec_user ran
  refine ⟨p, self, ?_⟩
  rcases syscall_family called with ⟨status, rfl, other, rfl⟩ | ⟨rfl, rfl⟩ | none
  · exact .inl ⟨status, rfl, other, rfl⟩
  · exact .inr rfl
  · rcases mem_append.mp pushed with here | here
    · have := (none b here).symm.trans family
      contradiction
    · cases mem_singleton.mp here
      cases family

def IsWait : Act → Bool
  | .waitFrom _ _ _ => true
  | _ => false

theorem exec_family (ran : exec c choice locks s a = some o) (pushed : act b ∈ o.push) (family : IsFamily b = true) :
    a = .user ∨ (IsWait b = true ∧ consumes a .wait = true) ∨
      (∃ p np, a = .waitCheck p np ∧ b = .freeStore np ∧ (s.table.proc np).state = .zombie) ∨
      (∃ p np, a = .setUsed p np ∧ (b = .publish np ∨ b = .freeStore np)) ∨
      (∃ np, a = .publish np ∧ b = .forkCopy np) ∨ ∃ np, a = .forkCopy np ∧ b = .freeStore np := by
  cases a with
  | user => exact .inl rfl
  | waitFrom p i havekids =>
    have waits : Acts (fun b => IsFamily b = true → IsWait b = true) o.push := by
      simp only [exec] at ran
      repeat' split at ran
      all_goals
        cases ran
        simp [sleep, sched, IsFamily, IsWait]
    exact .inr (.inl ⟨waits b pushed family, by simp [consumes]⟩)
  | waitCheck p np =>
    simp only [exec] at ran
    repeat' split at ran
    all_goals
      cases ran
      simp only [freeproc, mem_append, mem_cons, act.injEq, reduceCtorEq, not_mem_nil, or_false,
        false_or] at pushed
    · rcases pushed with rfl | rfl
      · cases family
      · exact .inr (.inr (.inl ⟨p, np, rfl, rfl, by assumption⟩))
    · exact .inr (.inl ⟨by rw [pushed]; rfl, by simp [consumes]⟩)
  | setUsed p np =>
    refine .inr (.inr (.inr (.inl ⟨p, np, rfl, ?_⟩)))
    simp only [exec] at ran
    split at ran <;> cases ran <;> simp only [freeproc, mem_append, mem_cons, act.injEq, reduceCtorEq,
      not_mem_nil, or_false, false_or] at pushed
    · rcases pushed with rfl | rfl
      · cases family
      · exact .inr rfl
    · rcases pushed with rfl | rfl | rfl
      · cases family
      · cases family
      · exact .inl rfl
  | publish np =>
    cases ran
    exact .inr (.inr (.inr (.inr (.inl ⟨np, rfl, by simpa using pushed⟩))))
  | forkCopy np =>
    refine .inr (.inr (.inr (.inr (.inr ⟨np, rfl, ?_⟩))))
    simp only [exec] at ran
    split at ran <;> cases ran <;> simp only [freeproc, mem_append, mem_cons, act.injEq, reduceCtorEq,
      not_mem_nil, or_false, false_or] at pushed
    rcases pushed with rfl | rfl
    · cases family
    · rfl
  | _ =>
    have none : Acts (fun b => IsFamily b = false) o.push := by
      simp only [exec] at ran
      repeat' split at ran
      all_goals first
        | contradiction
        | cases ran
          simp [selected, chosen, resume, wakeup, yield, sched, IsFamily]
    cases (none b pushed).symm.trans family

theorem exec_waits {i : Nat}
    (ran : exec c choice locks s a = some o) (waits : act (.waitFrom q i havekids) ∈ o.push) :
    a = .user ∧ o = ⟨s, acquire .wait :: again q, none, none⟩ ∨ consumes a .wait = true := by
  rcases exec_family ran waits rfl with rfl | ⟨-, held⟩ | ⟨_, _, _, other, -⟩ | ⟨_, _, _, other | other⟩ |
    ⟨_, _, other⟩ | ⟨_, _, other⟩
  · obtain ⟨p, -, ⟨status, -, -, rfl⟩ | rfl⟩ := user_family ran waits rfl
    · simp [exit, sched, returns] at waits
    · obtain ⟨rfl, -, -⟩ : q = p ∧ i = 0 ∧ havekids = false := by simpa [again, returns] using waits
      exact .inl ⟨rfl, rfl⟩
  · exact .inr held
  all_goals cases other

/-- A process in wait has wait_lock, dozes or is awake. -/
def WaitsSoundly (m : Machine n) : Prop :=
  ∀ q i havekids, act (.waitFrom q i havekids) ∈ m.code (.process q) →
    holds (m.code (.process q)) .wait = true ∨ DozesInWait m q ∨ AwakeInWait m q

theorem FallsAsleep.dozes (falls : FallsAsleep m c q)
    (code : m'.code (.process q) = doze q (some (.proc q)) ++ wakes q .wait (again q))
    (running : m'.running c = m.running c) : DozesInWait m' q :=
  ⟨0, code, by omega, by omega, by omega, fun _ => ⟨c, running.trans falls.1⟩⟩

theorem AwakeInWait.own_step (awake : AwakeInWait m q) (inv : Inv m stage) (step : Interleaves m c choice m')
    (process : m.running c = .process q) : .wait ∈ m'.locks c ∧ m'.running c = m.running c ∨ AwakeInWait m' q := by
  obtain ⟨before, code, -⟩ := awake.code
  by_cases inside : acquire .wait :: again q <:+ m'.code (.process q)
  · exact .inr (awake.step inv step inside)
  · refine .inl ?_
    rw [← process] at code inside
    cases before with
    | cons x before =>
      exact absurd ((suffix_append ..).trans (inv.own_suffix step code)) inside
    | nil =>
      cases step with
      | acquire choice next free =>
        cases next.symm.trans code
        exact ⟨by simp [Config.setCode, Config.take], rfl⟩
      | release choice next _ | act next _ _ | idle choice seed next | dispatch choice seed next _ _ =>
        cases next.symm.trans code
      | timer free | device chan lk free =>
        rw [show (m.setCode (m.running c) _).code (m.running c) = _ from update_self .., code] at inside
        exact absurd (suffix_append ..) inside

/-- A process in wait after a step: if it dozes, it dozed before or falls asleep in this step. -/
theorem WaitsSoundly.step (sound : WaitsSoundly m) (inv : Inv m stage) (shapely : Shapely m)
    (falls : ∀ {k q i havekids}, .wait ∈ m.locks c → m.code (m.running c) = release .wait :: k →
      act (.waitFrom q i havekids) ∈ k → m.running c = .process q → FallsAsleep m c q)
    (step : Interleaves m c choice m') {i : Nat} (waits : act (.waitFrom q i havekids) ∈ m'.code (.process q)) :
    holds (m'.code (.process q)) .wait = true ∨ DozesInWait m' q ∧ (DozesInWait m q ∨ FallsAsleep m c q) ∨
      AwakeInWait m' q := by
  obtain ⟨stage', inv'⟩ := inv.interleaves step
  have locked : m.running c = .process q → .wait ∈ m'.locks c ∧ m'.running c = m.running c →
      holds (m'.code (.process q)) .wait = true := by
    rintro process ⟨lock, running⟩
    rwa [inv'.lock_iff, running, process] at lock
  have dozed : DozesInWait m q → DozesInWait m' q ∧ (DozesInWait m q ∨ FallsAsleep m c q) ∨ AwakeInWait m' q := by
    intro dozing
    rcases Dozing.step dozing inv shapely step with still | ⟨code, state⟩
    · exact .inl ⟨still, .inl dozing⟩
    · exact .inr (.of_woken code state)
  by_cases process : m.running c = .process q
  · by_cases held : .wait ∈ m.locks c
    · rcases inv.wait_step step held with ⟨k, next, rfl⟩ | still
      · have code : ((m.drop c .wait).setCode (m.running c) k).code (.process q) = k := by
          rw [← process]
          exact update_self ..
        rw [code] at waits
        have asleep := falls held next waits process
        cases next.symm.trans asleep.2
        exact .inr (.inl ⟨asleep.dozes code rfl, .inr asleep⟩)
      · exact .inl (locked process still)
    · rcases interleaves_pending step waits rfl with old | ⟨a, k, o, -, next, ran, pushed, rfl⟩
      · rcases sound q i havekids old with lock | dozing | awake
        · rw [inv.lock_iff, process] at held
          exact absurd lock held
        · exact .inr (dozed dozing)
        · rcases awake.own_step inv step process with still | stays
          · exact .inl (locked process still)
          · exact .inr (.inr stays)
      · rcases exec_waits ran pushed with ⟨rfl, rfl⟩ | uses
        · -- the process calls wait
          have shape := shapely.shape (m.running c)
          rw [next] at shape
          obtain rfl : k = [] := shape.1
          have own := inv.own_code next ran
          rw [append_nil, process] at own
          refine .inr (.inr ⟨⟨[], own, by simp⟩, ?_⟩)
          rw [table, apply_shared]
          intro asleep
          have running := inv.own_running process next rfl
          cases running.symm.trans asleep
        · rw [inv.lock_iff, next, holds_act, uses] at held
          simp at held
  · rcases inv.suspended_code step process with same | ⟨fresh, -⟩
    · rw [same] at waits
      rcases sound q i havekids waits with lock | dozing | awake
      · exact .inl (same ▸ lock)
      · exact .inr (dozed dozing)
      · obtain ⟨before, code, -⟩ := awake.code
        exact .inr (.inr (awake.step inv step ⟨before, by rw [same, code]⟩))
    · rw [fresh] at waits
      simp [forkret] at waits

theorem WaitsSoundly.dozes_back (sound : WaitsSoundly m) (inv : Inv m stage) (shapely : Shapely m)
    (falls : ∀ {k q i havekids}, .wait ∈ m.locks c → m.code (m.running c) = release .wait :: k →
      act (.waitFrom q i havekids) ∈ k → m.running c = .process q → FallsAsleep m c q)
    (step : Interleaves m c choice m') (dozing : DozesInWait m' q) : DozesInWait m q ∨ FallsAsleep m c q := by
  obtain ⟨waits, free, -⟩ := dozing.code_eq
  rcases sound.step inv shapely falls step waits with lock | ⟨-, before⟩ | awake
  · rw [free] at lock
    cases lock
  · exact before
  · exact absurd awake dozing.not_awake

/-- Nobody that dozes in wait has a ZOMBIE child. -/
def Calm (m : Machine n) : Prop :=
  ∀ q z, DozesInWait m q → (m.table.proc z).parent = some q → (m.table.proc z).state ≠ .zombie

def Childless (m : Machine n) (p : ProcId) (i : Nat) : Prop :=
  ∀ z : ProcId, z.val < i → (m.table.proc z).parent ≠ some p

def NoneDead (m : Machine n) (p : ProcId) (i : Nat) : Prop :=
  ∀ z : ProcId, z.val < i → (m.table.proc z).parent = some p → (m.table.proc z).state ≠ .zombie

def Over (k : List Stmt) : Prop :=
  Acts (fun a => (∀ q i havekids, a ≠ .waitFrom q i havekids) ∧ ∀ z, a ≠ .freeStore z) k

/-- Where the holder of wait_lock is, and what it knows. -/
inductive WaitSection (m : Machine n) : List Stmt → Prop where
  | reparents {p : ProcId} {status : Int} {i : Nat} (calm : Calm m) (done : Childless m p i) :
      WaitSection m (act (.reparentFrom p i) :: act (.wakeParent p) :: (exitBody p status ++ returns))
  -- init may doze until its wakeup has come to it
  | adopts {p : ProcId} {status : Int} {i : Nat} {scan : List Stmt}
      (scans : Scan m.table (m.table.initproc.map .proc) NPROC scan)
      (calm : ∀ q z, DozesInWait m q → (m.table.proc z).parent = some q → (m.table.proc z).state = .zombie →
        m.table.initproc = some q ∧ Scan m.table (m.table.initproc.map .proc) q scan)
      (done : Childless m p i) :
      WaitSection m (scan ++ act (.reparentFrom p i) :: act (.wakeParent p) :: (exitBody p status ++ returns))
  | wakesParent {p : ProcId} {status : Int} (calm : Calm m) (done : Childless m p NPROC) :
      WaitSection m (act (.wakeParent p) :: (exitBody p status ++ returns))
  | tells {p : ProcId} {status : Int} {chan : Option Chan} {scan : List Stmt} (scans : Scan m.table chan NPROC scan)
      (calm : Calm m) (done : Childless m p NPROC)
      (told : ∀ q : ProcId, (m.table.proc p).parent = some q → DozesInWait m q →
        chan = some (.proc q) ∧ Scan m.table chan q scan) :
      WaitSection m (scan ++ (exitBody p status ++ returns))
  | exits {p : ProcId} {status : Int} {i : Nat} (bound : i ≤ 3) (calm : Calm m) (done : Childless m p NPROC)
      (told : ∀ q, (m.table.proc p).parent = some q → ¬DozesInWait m q) :
      WaitSection m ((exitBody p status).drop i ++ returns)
  | exited {p : ProcId} (calm : Calm m) :
      WaitSection m (release .tickets :: release .wait :: (sched p ++ act (.zombieExit p) :: returns))
  | looks {p : ProcId} {i : Nat} {havekids : Bool} (calm : Calm m) (looked : NoneDead m p i) :
      WaitSection m (act (.waitFrom p i havekids) :: returns)
  | locks {p z : ProcId} (calm : Calm m) (looked : NoneDead m p z)
      (child : (m.table.proc z).state = .zombie → (m.table.proc z).parent = some p) :
      WaitSection m (acquire (.proc z) :: act (.waitCheck p z) :: returns)
  | checks {p z : ProcId} (calm : Calm m) (looked : NoneDead m p z)
      (child : (m.table.proc z).state = .zombie → (m.table.proc z).parent = some p) :
      WaitSection m (act (.waitCheck p z) :: returns)
  | passes {p z : ProcId} (calm : Calm m) (looked : NoneDead m p (z + 1)) :
      WaitSection m (release (.proc z) :: act (.waitFrom p (z + 1) true) :: returns)
  | reaps {z : ProcId} {i : Nat} (bound : i ≤ 4) (calm : Calm m) :
      WaitSection m ((freeproc z).drop i ++ release (.proc z) :: release .wait :: returns)
  | falls {p : ProcId} {i : Nat} (bound : i ≤ 1) (calm : Calm m) (looked : NoneDead m p NPROC) :
      WaitSection m ((sleep p (some (.proc p)) .wait).drop i ++ again p)
  | forks {p np : ProcId} (calm : Calm m) : WaitSection m (forkBody p np)
  | leaves {k : List Stmt} (calm : Calm m) (done : Over k) : WaitSection m (release .wait :: k)

/-- What a step does to the family, when it is none of the steps that change it. -/
structure Outside (m m' : Machine n) : Prop where
  zombie : ∀ z, (m'.table.proc z).state = .zombie → (m.table.proc z).state = .zombie
  parent : ∀ z q, (m'.table.proc z).parent = some q → (m.table.proc z).parent = some q
  dozes : ∀ q, DozesInWait m' q → DozesInWait m q
  initproc : m'.table.initproc = m.table.initproc

section Outside

theorem Outside.calm (outside : Outside m m') (calm : Calm m) : Calm m' := by
  intro q z dozing parent zombie
  exact calm q z (outside.dozes q dozing) (outside.parent z q parent) (outside.zombie z zombie)

theorem Outside.childless (outside : Outside m m') {i : Nat} (done : Childless m p i) : Childless m' p i := by
  intro z below parent
  exact done z below (outside.parent z p parent)

theorem Outside.noneDead (outside : Outside m m') {i : Nat} (looked : NoneDead m p i) : NoneDead m' p i := by
  intro z below parent zombie
  exact looked z below (outside.parent z p parent) (outside.zombie z zombie)

theorem WaitSection.other_step {code : List Stmt} (inside : WaitSection m code) (outside : Outside m m')
    (dead : ∀ z, (m'.table.proc z).state = .zombie → (m'.table.proc z).parent = (m.table.proc z).parent)
    (scanned : ∀ {chan b scan y}, code = scan ++ y → Scan m.table chan b scan → Scan m'.table chan b scan) :
    WaitSection m' code := by
  have calm := outside.calm
  have still : ∀ {p z}, ((m.table.proc z).state = .zombie → (m.table.proc z).parent = some p) →
      (m'.table.proc z).state = .zombie → (m'.table.proc z).parent = some p := by
    intro p z child zombie
    rw [dead z zombie]
    exact child (outside.zombie z zombie)
  cases inside with
  | reparents quiet done => exact .reparents (calm quiet) (outside.childless done)
  | adopts scans quiet done =>
    refine .adopts ?_ (fun q z dozing parent zombie => ?_) (outside.childless done)
    · rw [outside.initproc]
      exact scanned rfl scans
    · obtain ⟨init, scan⟩ := quiet q z (outside.dozes q dozing) (outside.parent z q parent) (outside.zombie z zombie)
      rw [outside.initproc]
      exact ⟨init, scanned rfl scan⟩
  | wakesParent quiet done => exact .wakesParent (calm quiet) (outside.childless done)
  | tells scans quiet done told =>
    refine .tells (scanned rfl scans) (calm quiet) (outside.childless done) fun q parent dozing => ?_
    obtain ⟨same, scan⟩ := told q (outside.parent _ q parent) (outside.dozes q dozing)
    exact ⟨same, scanned rfl scan⟩
  | exits bound quiet done told =>
    exact .exits bound (calm quiet) (outside.childless done) fun q parent dozing =>
      told q (outside.parent _ q parent) (outside.dozes q dozing)
  | exited quiet => exact .exited (calm quiet)
  | looks quiet looked => exact .looks (calm quiet) (outside.noneDead looked)
  | locks quiet looked child => exact .locks (calm quiet) (outside.noneDead looked) (still child)
  | checks quiet looked child => exact .checks (calm quiet) (outside.noneDead looked) (still child)
  | passes quiet looked => exact .passes (calm quiet) (outside.noneDead looked)
  | reaps bound quiet => exact .reaps bound (calm quiet)
  | falls bound quiet looked => exact .falls bound (calm quiet) (outside.noneDead looked)
  | forks quiet => exact .forks (calm quiet)
  | leaves quiet done => exact .leaves (calm quiet) done

end Outside

/-- The actions that make a ZOMBIE or give a process a parent. -/
def Changes : Act → Bool
  | .leave .exit _ | .update (.setParent _ _) | .reparentFrom _ _ => true
  | _ => false

theorem outside_step (shapely : Shapely m) (step : Interleaves m c choice m')
    (back : ∀ q, DozesInWait m' q → DozesInWait m q)
    (plain : ∀ a k, m.code (m.running c) = act a :: k → Changes a = false) : Outside m m' where
  zombie := by
    intro z zombie
    rcases interleaves_state step z with same | ⟨a, k, next, store⟩
    · exact same ▸ zombie
    · rw [zombie] at store
      have changes := plain a k next
      cases a with
      | leave how p =>
        cases how with
        | exit => cases changes
        | yield | sleep => cases store
      | _ => cases store
  parent := by
    intro z q parent
    rcases shapely.parent_step step z with same | ⟨p, -, next, -⟩ | ⟨k, -, none⟩ | ⟨p, k, next, -⟩
    · exact same ▸ parent
    · cases plain _ _ next
    · rw [none] at parent
      cases parent
    · cases plain _ _ next
  dozes := back
  initproc := interleaves_initproc step

section Own

variable {code y scan : List Stmt} {chan : Option Chan}

theorem Scan.plain {t : Table} {b : Nat} (scans : Scan t chan b scan)
    (next : scan ++ y = act a :: k) : Changes a = false := by
  cases scans <;> cases next <;> rfl

theorem Scan.wait_step (scans : Scan m.table chan NPROC scan) (inv : Inv m stage) (busy : m.locks c ≠ [])
    (next : m.code (m.running c) = scan ++ y) (step : Interleaves m c choice m') :
    (∃ scan', m'.code (m.running c) = scan' ++ y ∧ Scan m'.table chan NPROC scan' ∧
      ∀ q : ProcId, DozesInWait m q → DozesInWait m' q → chan = some (.proc q) → Scan m.table chan q scan →
        Scan m'.table chan q scan') ∨
    m'.code (m.running c) = y ∧ ∀ q : ProcId, DozesInWait m q → DozesInWait m' q → chan = some (.proc q) →
      ¬Scan m.table chan q scan := by
  have stays : ∀ q : ProcId, DozesInWait m q → DozesInWait m' q → chan = some (.proc q) →
      Scan m.table chan q scan → ∃ scan', m'.code (m.running c) = scan' ++ y ∧ Scan m'.table chan q scan' := by
    rintro q before after rfl here
    rcases here.own_step inv busy next step with on | ⟨all, -⟩ | ⟨p, x, same, head, passes⟩
    · exact on
    · exact absurd q.isLt (by omega)
    · obtain rfl := Fin.ext same
      obtain ⟨rest, rfl⟩ := List.head?_eq_some_iff.mp head
      exact (before.not_passed inv step after next passes).elim
  rcases scans.own_step inv busy next step with ⟨scan', code, on⟩ | ⟨-, code⟩ | ⟨p, x, same, -⟩
  · refine .inl ⟨scan', code, on, fun q before after self here => ?_⟩
    obtain ⟨scan'', code', on'⟩ := stays q before after self here
    cases append_cancel_right (code.symm.trans code')
    exact on'
  · refine .inr ⟨code, fun q before after self here => ?_⟩
    obtain ⟨scan', code', on⟩ := stays q before after self here
    exact on.nonempty (self_eq_append_left.mp (code.symm.trans code'))
  · exact absurd p.isLt (by omega)

theorem WaitSection.calm_release (inside : WaitSection m (release .wait :: k))
    (next : m.code (m.running c) = release .wait :: k) (same : m'.table = m.table)
    (back : ∀ q, DozesInWait m' q → DozesInWait m q ∨ FallsAsleep m c q) : Calm m' := by
  have quiet : Calm m → (∀ q z, FallsAsleep m c q → (m.table.proc z).parent = some q →
      (m.table.proc z).state ≠ .zombie) → Calm m' := by
    intro calm asleep q z dozing parent zombie
    rw [same] at parent zombie
    rcases back q dozing with before | falls
    · exact calm q z before parent zombie
    · exact asleep q z falls parent zombie
  generalize whole : release .wait :: k = code at inside
  cases inside with
  | leaves calm done =>
    cases whole
    refine quiet calm fun q z falls => ?_
    cases next.symm.trans falls.2
    exact absurd rfl ((done (.waitFrom q 0 false) (by simp [wakes, again])).1 q 0 false)
  | @falls p i bound calm looked =>
    refine quiet calm fun q z falls parent zombie => ?_
    have at_ : i = 1 := by
      interval_cases i
      · cases whole
      · rfl
    subst at_
    have code := falls.2
    rw [next, whole] at code
    obtain rfl : p = q := by
      cases code
      rfl
    exact looked z z.isLt parent zombie
  | adopts scans | tells scans => cases scans <;> cases whole
  | @exits p status i bound calm done told => interval_cases i <;> cases whole
  | @reaps z i bound calm => interval_cases i <;> cases whole
  | reparents | wakesParent | exited | looks | locks | checks | passes | forks => cases whole

section Points

variable {status : Int} {i : Nat} (inv : Inv m stage) (shapely : Shapely m) (busy : m.locks c ≠ [])
  (step : Interleaves m c choice m')

include inv busy step

theorem reparents_step
    (next : m.code (m.running c) = act (.reparentFrom p i) :: act (.wakeParent p) :: (exitBody p status ++ returns))
    (dozes : ∀ q, DozesInWait m' q → DozesInWait m q) (other : m.table.initproc ≠ some p) (calm : Calm m)
    (done : Childless m p i) : WaitSection m' (m'.code (m.running c)) := by
  have init := interleaves_initproc step
  obtain ⟨o, ran, after⟩ := interleaves_act step next busy (by simp)
  have own := inv.own_code next ran
  rw [← after] at own
  have zombie : ∀ z, (m'.table.proc z).state = .zombie → (m.table.proc z).state = .zombie := by
    intro z dead
    rw [after, table, apply_shared, exec_state ran z] at dead
    exact dead
  have moved : ∀ z, (m'.table.proc z).parent =
      if z.val = i ∧ (m.table.proc z).parent = some p then m.table.initproc else (m.table.proc z).parent := by
    intro z
    rw [after, table, apply_shared, (exec_written ran z).parent, written]
    exact apply_ite Proc.parent ..
  have passes : (∀ z : ProcId, z.val = i → (m.table.proc z).parent ≠ some p) → Outside m m' := by
    intro none
    refine ⟨zombie, fun z q parent => ?_, dozes, init⟩
    rwa [moved, if_neg fun child => none z child.1 child.2] at parent
  have further : (∀ z : ProcId, z.val = i → (m.table.proc z).parent ≠ some p) → Childless m p (i + 1) := by
    intro none z below
    rcases Nat.lt_or_eq_of_le (Nat.le_of_lt_succ below) with earlier | here
    · exact done z earlier
    · exact none z here
  simp only [exec] at ran
  split at ran
  · rename_i inside
    split at ran <;> rename_i child <;> cases ran <;> rw [own]
    · have scans : ∀ b, Scan m'.table (m'.table.initproc.map .proc) b
          [act (.wakeupFrom 0 (m.table.initproc.map .proc))] := by
        intro b
        rw [init]
        exact .next (Nat.zero_le _)
      refine .adopts (scans NPROC) (fun q z dozing parent dead => ?_) fun z below => ?_
      · rw [moved] at parent
        split at parent
        · exact ⟨init.trans parent, scans q⟩
        · exact absurd (zombie z dead) (calm q z (dozes q dozing) parent)
      · rw [moved]
        split
        · exact other
        · rename_i elsewhere
          rcases Nat.lt_or_eq_of_le (Nat.le_of_lt_succ below) with earlier | here
          · exact done z earlier
          · exact fun parent => elsewhere ⟨here, parent⟩
    · have none : ∀ z : ProcId, z.val = i → (m.table.proc z).parent ≠ some p := by
        rintro z rfl
        exact child
      exact .reparents ((passes none).calm calm) ((passes none).childless (further none))
  · cases ran
    have out := passes fun z here => absurd z.isLt (by omega)
    rw [own]
    exact .wakesParent (out.calm calm) (out.childless fun z _ => done z (by omega))

theorem exits_step (next : m.code (m.running c) = (exitBody p status).drop i ++ returns) (bound : i ≤ 3)
    (dozes : ∀ q, DozesInWait m' q → DozesInWait m q) (outside : i ≠ 3 → Outside m m') (calm : Calm m)
    (done : Childless m p NPROC) (told : ∀ q, (m.table.proc p).parent = some q → ¬DozesInWait m q) :
    WaitSection m' (m'.code (m.running c)) := by
  have on : i ≠ 3 → m'.code (m.running c) = (exitBody p status).drop (i + 1) ++ returns →
      WaitSection m' (m'.code (m.running c)) := by
    intro before own
    have out := outside before
    rw [own]
    exact .exits (by omega) (out.calm calm) (out.childless done) fun q parent dozing =>
      told q (out.parent p q parent) (out.dozes q dozing)
  interval_cases i
  case «0» | «2» =>
    obtain ⟨-, rfl⟩ := interleaves_acquire step next busy
    exact on (by omega) (update_self ..)
  case «1» =>
    obtain ⟨o, ran, rfl⟩ := interleaves_act step next busy (by simp)
    have own := inv.own_code next ran
    cases ran
    exact on (by omega) own
  case «3» =>
    obtain ⟨o, ran, rfl⟩ := interleaves_act step next busy (by simp)
    have own := inv.own_code next ran
    have state := exec_state ran
    have fields := exec_written ran
    cases ran
    rw [own]
    refine .exited fun q z dozing parent zombie => ?_
    rw [table, apply_shared, (fields z).parent] at parent
    rw [table, apply_shared, state z] at zombie
    by_cases same : z = p
    · subst same
      exact told q parent (dozes q dozing)
    · rw [newState_of_ne (by simp [stores, Ne.symm same])] at zombie
      exact calm q z (dozes q dozing) parent zombie

theorem looks_step (next : m.code (m.running c) = act (.waitFrom p i havekids) :: returns)
    (out : Outside m m') (calm : Calm m) (looked : NoneDead m p i) : WaitSection m' (m'.code (m.running c)) := by
  obtain ⟨o, ran, rfl⟩ := interleaves_act step next busy (by simp)
  have own := inv.own_code next ran
  simp only [exec] at ran
  split at ran
  · split at ran <;> rename_i child <;> cases ran <;> rw [own]
    · refine .locks (out.calm calm) (out.noneDead looked) fun _ => ?_
      rw [table, apply_shared]
      exact child
    · refine .looks (out.calm calm) (out.noneDead fun z below parent => ?_)
      rcases Nat.lt_or_eq_of_le (Nat.le_of_lt_succ below) with earlier | rfl
      · exact looked z earlier parent
      · exact absurd parent child
  · split at ran <;> cases ran <;> rw [own]
    · exact .leaves (out.calm calm) (by simp [Over, returns])
    · exact .falls (i := 0) (by omega) (out.calm calm) (out.noneDead fun z _ => looked z (by omega))

theorem checks_step (next : m.code (m.running c) = act (.waitCheck p z) :: returns) (out : Outside m m')
    (calm : Calm m) (looked : NoneDead m p z) : WaitSection m' (m'.code (m.running c)) := by
  obtain ⟨o, ran, rfl⟩ := interleaves_act step next busy (by simp)
  have own := inv.own_code next ran
  simp only [exec] at ran
  split at ran
  · split at ran <;> cases ran <;> rw [own]
    · exact .reaps (i := 4) (by omega) (out.calm calm)
    · exact .reaps (i := 0) (by omega) (out.calm calm)
  · rename_i lives
    cases ran
    rw [own]
    refine .passes (out.calm calm) (out.noneDead fun z' below parent => ?_)
    rcases Nat.lt_or_eq_of_le (Nat.le_of_lt_succ below) with earlier | here
    · exact looked z' earlier parent
    · obtain rfl := Fin.ext here
      exact lives

theorem reaps_step
    (next : m.code (m.running c) = (freeproc z).drop i ++ release (.proc z) :: release .wait :: returns)
    (bound : i ≤ 4) (out : Outside m m') (calm : Calm m) : WaitSection m' (m'.code (m.running c)) := by
  have on : i < 4 → m'.code (m.running c) = (freeproc z).drop (i + 1) ++ release (.proc z) :: release .wait :: returns →
      WaitSection m' (m'.code (m.running c)) := by
    intro before own
    rw [own]
    exact .reaps (by omega) (out.calm calm)
  interval_cases i
  case «0» | «2» =>
    obtain ⟨o, ran, rfl⟩ := interleaves_act step next busy (by simp)
    have own := inv.own_code next ran
    cases ran
    exact on (by omega) own
  case «1» =>
    obtain ⟨-, rfl⟩ := interleaves_acquire step next busy
    exact on (by omega) (update_self ..)
  case «3» =>
    obtain rfl := interleaves_release step next busy
    exact on (by omega) (update_self ..)
  case «4» =>
    obtain rfl := interleaves_release step next busy
    rw [show (Config.setCode _ _ _).code _ = _ from update_self ..]
    exact .leaves (out.calm calm) (by simp [Over, returns])

include shapely

theorem forks_step {np : ProcId} (next : m.code (m.running c) = forkBody p np)
    (dozes : ∀ q, DozesInWait m' q → DozesInWait m q) (lock : .wait ∈ m.locks c) (calm : Calm m) :
    WaitSection m' (m'.code (m.running c)) := by
  rw [inv.lock_iff] at lock
  obtain ⟨o, ran, rfl⟩ := interleaves_act step next busy (by simp)
  have own := inv.own_code next ran
  have state := exec_state ran
  cases ran
  rw [own]
  refine .leaves (fun q z dozing parent zombie => ?_) (by simp [Over, returns])
  have asleep := dozes q dozing
  rw [table, apply_shared, state z] at zombie
  rcases shapely.parent_step step z with same | ⟨p', process, -, self⟩ | ⟨k, here, -⟩ | ⟨p', k, here, -⟩
  · exact calm q z asleep (same ▸ parent) zombie
  · cases self.symm.trans parent
    rw [process] at lock
    cases lock.symm.trans asleep.code_eq.2.1
  · cases here.symm.trans next
  · cases here.symm.trans next

end Points

/-- The holder of wait_lock goes from one point to the next, unless it releases the lock. -/
theorem WaitSection.own_step (inside : WaitSection m code) (next : m.code (m.running c) = code) (inv : Inv m stage)
    (shapely : Shapely m) (lock : .wait ∈ m.locks c) (step : Interleaves m c choice m')
    (spares : ∀ p, act (.leave .exit p) ∈ code → m.table.initproc ≠ some p)
    (back : (∀ k, code ≠ release .wait :: k) → ∀ q, DozesInWait m' q → DozesInWait m q) :
    (∃ k, code = release .wait :: k) ∨ WaitSection m' (m'.code (m.running c)) := by
  have busy : m.locks c ≠ [] := ne_nil_of_mem lock
  have outside : (∀ k, code ≠ release .wait :: k) → (∀ a k, code = act a :: k → Changes a = false) →
      Outside m m' := by
    intro keeps plain
    exact outside_step shapely step (back keeps) fun a k here => plain a k (next.symm.trans here)
  have goes : ∀ {code'}, m'.code (m.running c) = code' → WaitSection m' code' → WaitSection m' (m'.code (m.running c)) := by
    rintro code' rfl on
    exact on
  cases inside with
  | @reparents p status i calm done =>
    exact .inr (reparents_step inv busy step next (back (by simp)) (spares p (by simp [exitBody])) calm done)
  | @adopts p status i scan scans calm done =>
    have out := outside (fun k here => by cases scans <;> cases here) fun a k here => scans.plain here
    have adopted : ∀ q z, DozesInWait m' q → (m'.table.proc z).parent = some q →
        (m'.table.proc z).state = .zombie → DozesInWait m q ∧ m.table.initproc = some q ∧
          Scan m.table (m.table.initproc.map .proc) q scan := by
      intro q z dozing parent zombie
      exact ⟨out.dozes q dozing, calm q z (out.dozes q dozing) (out.parent z q parent) (out.zombie z zombie)⟩
    rcases scans.wait_step inv busy next step with ⟨scan', own, on, keeps⟩ | ⟨own, none⟩
    · refine .inr (goes own (.adopts ?_ (fun q z dozing parent zombie => ?_) (out.childless done)))
      · rw [out.initproc]
        exact on
      · obtain ⟨before, init, here⟩ := adopted q z dozing parent zombie
        rw [out.initproc]
        exact ⟨init, keeps q before dozing (by rw [init]; rfl) here⟩
    · refine .inr (goes own (.reparents (fun q z dozing parent zombie => ?_) (out.childless done)))
      obtain ⟨before, init, here⟩ := adopted q z dozing parent zombie
      exact none q before dozing (by rw [init]; rfl) here
  | @wakesParent p status calm done =>
    have out := outside (fun k here => by cases here) fun a k here => by cases here; rfl
    have scans : ∀ b, Scan m'.table ((m.table.proc p).parent.map .proc) b
        [act (.wakeupFrom 0 ((m.table.proc p).parent.map .proc))] := fun _ => .next (Nat.zero_le _)
    obtain ⟨o, ran, rfl⟩ := interleaves_act step next busy (by simp)
    have own := inv.own_code next ran
    cases ran
    refine .inr (goes own (.tells (scans NPROC) (out.calm calm) (out.childless done) fun q parent dozing => ?_))
    have same := out.parent p q parent
    exact ⟨congrArg (Option.map Chan.proc) same, scans q⟩
  | @tells p status chan scan scans calm done told =>
    have out := outside (fun k here => by cases scans <;> cases here) fun a k here => scans.plain here
    rcases scans.wait_step inv busy next step with ⟨scan', own, on, keeps⟩ | ⟨own, none⟩
    · refine .inr (goes own (.tells on (out.calm calm) (out.childless done) fun q parent dozing => ?_))
      obtain ⟨self, here⟩ := told q (out.parent p q parent) (out.dozes q dozing)
      exact ⟨self, keeps q (out.dozes q dozing) dozing self here⟩
    · refine .inr (goes own (.exits (i := 0) (by omega) (out.calm calm) (out.childless done)
        fun q parent dozing => ?_))
      obtain ⟨self, here⟩ := told q (out.parent p q parent) (out.dozes q dozing)
      exact none q (out.dozes q dozing) dozing self here
  | @exits p status i bound calm done told =>
    have keeps : ∀ k, (exitBody p status).drop i ++ returns ≠ release .wait :: k := by
      interval_cases i <;> simp [exitBody]
    refine .inr (exits_step inv busy step next bound (back keeps) (fun before => ?_) calm done told)
    refine outside keeps fun a k here => ?_
    interval_cases i <;> cases here
    · rfl
    · exact absurd rfl before
  | @exited p calm =>
    have out := outside (fun k here => by cases here) fun a k here => by cases here
    obtain rfl := interleaves_release step next busy
    exact .inr (goes (update_self ..) (.leaves (out.calm calm) (by simp [Over, sched, returns])))
  | @looks p i havekids calm looked =>
    have out := outside (fun k here => by cases here) fun a k here => by cases here; rfl
    exact .inr (looks_step inv busy step next out calm looked)
  | @locks p z calm looked child =>
    have out := outside (fun k here => by cases here) fun a k here => by cases here
    obtain ⟨-, rfl⟩ := interleaves_acquire step next busy
    exact .inr (goes (update_self ..) (.checks (out.calm calm) (out.noneDead looked) child))
  | @checks p z calm looked child =>
    have out := outside (fun k here => by cases here) fun a k here => by cases here; rfl
    exact .inr (checks_step inv busy step next out calm looked)
  | @passes p z calm looked =>
    have out := outside (fun k here => by cases here) fun a k here => by cases here
    obtain rfl := interleaves_release step next busy
    exact .inr (goes (update_self ..) (.looks (out.calm calm) (out.noneDead looked)))
  | @reaps z i bound calm =>
    refine .inr (reaps_step inv busy step next bound (outside ?_ fun a k here => ?_) calm)
    · interval_cases i <;> simp [freeproc]
    · interval_cases i <;> cases here <;> rfl
  | @falls p i bound calm looked =>
    interval_cases i
    · have out := outside (fun k here => by cases here) fun a k here => by cases here
      obtain ⟨-, rfl⟩ := interleaves_acquire step next busy
      exact .inr (goes (update_self ..) (.falls (i := 1) (by omega) (out.calm calm) (out.noneDead looked)))
    · exact .inl ⟨_, rfl⟩
  | @forks p np calm => exact .inr (forks_step inv shapely busy step next (back (fun k here => by cases here)) lock calm)
  | leaves calm done => exact .inl ⟨_, rfl⟩

end Own

structure Waits (m : Machine n) : Prop where
  holder : ∀ c, .wait ∈ m.locks c → WaitSection m (m.code (m.running c))
  free : m.Free .wait → Calm m
  sound : WaitsSoundly m
  spares : ∀ t p, act (.leave .exit p) ∈ m.code t → m.table.initproc ≠ some p
  frees : ∀ t z, act (.freeStore z) ∈ m.code t → (m.table.proc z).state = .zombie → holds (m.code t) .wait = true

theorem WaitSection.release_cases (inside : WaitSection m (release .wait :: k)) :
    Over k ∨ ∃ p, k = doze p (some (.proc p)) ++ wakes p .wait (again p) := by
  generalize whole : release .wait :: k = code at inside
  cases inside with
  | leaves calm done =>
    cases whole
    exact .inl done
  | @falls p i bound calm looked =>
    interval_cases i <;> cases whole
    exact .inr ⟨p, rfl⟩
  | adopts scans | tells scans => cases scans <;> cases whole
  | @exits p status i bound calm done told => interval_cases i <;> cases whole
  | @reaps z i bound calm => interval_cases i <;> cases whole
  | reparents | wakesParent | exited | looks | locks | checks | passes | forks => cases whole

theorem Waits.falls (waits : Waits m) {i : Nat} (lock : .wait ∈ m.locks c)
    (next : m.code (m.running c) = release .wait :: k) (pending : act (.waitFrom q i havekids) ∈ k)
    (process : m.running c = .process q) : FallsAsleep m c q := by
  have inside := waits.holder c lock
  rw [next] at inside
  rcases inside.release_cases with done | ⟨p, rfl⟩
  · exact absurd rfl ((done _ pending).1 q i havekids)
  · have same : q = p := by simp [doze, sched, wakes, again, returns] at pending; exact pending.1
    subst same
    exact ⟨process, next⟩

theorem Waits.dozes_back (waits : Waits m) (inv : Inv m stage) (shapely : Shapely m)
    (step : Interleaves m c choice m') (dozing : DozesInWait m' q) : DozesInWait m q ∨ FallsAsleep m c q :=
  waits.sound.dozes_back inv shapely waits.falls step dozing

theorem Shapely.changes_locked (shapely : Shapely m) (inv : Inv m stage)
    (next : m.code (m.running c) = act a :: k) (changes : Changes a = true) : .wait ∈ m.locks c := by
  have shape := shapely.shape (m.running c)
  rw [inv.lock_iff, next]
  rw [next] at shape
  cases a with
  | leave how p =>
    cases how with
    | exit =>
      rw [shape.1]
      simp
    | yield | sleep => cases changes
  | update u =>
    cases u with
    | setParent p np =>
      have code : act (.update (.setParent p np)) :: k = forkBody p np := shape.1
      rw [code]
      simp [forkBody]
    | _ => cases changes
  | reparentFrom p i =>
    obtain ⟨status, rfl⟩ := shape.1
    simp [exitBody]
  | _ => cases changes

theorem Waits.outside (waits : Waits m) (inv : Inv m stage) (shapely : Shapely m)
    (step : Interleaves m c choice m') (other : .wait ∉ m.locks c) : Outside m m' := by
  refine outside_step shapely step (fun q dozing => ?_) fun a k next => ?_
  · rcases waits.dozes_back inv shapely step dozing with before | ⟨-, next⟩
    · exact before
    · rw [inv.lock_iff, next] at other
      simp at other
  · by_contra changes
    exact other (shapely.changes_locked inv next (by simpa using changes))

theorem interleaves_wait_acquired (step : Interleaves m c choice m') (before : .wait ∉ m.locks c)
    (after : .wait ∈ m'.locks c) : ∃ k, m.code (m.running c) = acquire .wait :: k ∧ m.Free .wait ∧
      m' = (m.take c .wait).setCode (m.running c) k := by
  cases step with
  | @acquire l k choice next free =>
    have same : l = .wait := by
      by_contra other
      simp [Config.setCode, Config.take, before, Ne.symm other] at after
    subst same
    exact ⟨k, next, free, rfl⟩
  | release choice next held =>
    refine absurd ?_ before
    simp only [Config.setCode, Config.drop, update_self] at after
    exact mem_of_mem_erase after
  | act next other ran | idle choice seed next | dispatch choice seed next _ _ =>
    rw [apply_locks] at after
    exact absurd after before
  | timer free | device chan lk free => exact absurd after before

theorem Entry.waitSection (entry : Entry k) (calm : Calm m) : WaitSection m k := by
  cases entry with
  | exit p status => exact .reparents calm fun z below => absurd below (Nat.not_lt_zero _)
  | wait p => exact .looks calm fun z below => absurd below (Nat.not_lt_zero _)
  | fork p np => exact .forks calm

theorem Waits.holder_step (waits : Waits m) (inv : Inv m stage) (shapely : Shapely m)
    (step : Interleaves m c choice m') (c' : Fin n) (lock : .wait ∈ m'.locks c') :
    WaitSection m' (m'.code (m'.running c')) := by
  by_cases same : c' = c
  · subst same
    by_cases held : .wait ∈ m.locks c'
    · have keeps : ∀ k, m.code (m.running c') ≠ release .wait :: k := by
        intro k next
        have after := interleaves_release step next (ne_nil_of_mem held)
        rw [after] at lock
        simp only [Config.setCode, Config.drop, update_self] at lock
        exact (inv.balanced.nodup c').not_mem_erase lock
      rcases inv.wait_step step held with ⟨k, next, -⟩ | ⟨-, running⟩
      · exact absurd next (keeps k)
      · rw [running]
        refine ((waits.holder c' held).own_step rfl inv shapely held step (waits.spares _) fun _ q dozing => ?_).resolve_left
          (not_exists.mpr keeps)
        exact (waits.dozes_back inv shapely step dozing).resolve_right fun falls => keeps _ falls.2
    · obtain ⟨k, next, free, after⟩ := interleaves_wait_acquired step held lock
      have calm := (waits.outside inv shapely step held).calm (waits.free free)
      have shape := shapely.shape (m.running c')
      rw [next] at shape
      have own : m'.code (m'.running c') = k := by
        rw [after]
        exact update_self ..
      rw [own]
      exact Entry.waitSection shape.1 calm
  · obtain ⟨running, locks, code⟩ := inv.other_cpu step same
    rw [locks] at lock
    have apart : .wait ∉ m.locks c := fun mine => same (inv.exclusive mine lock)
    have outside := waits.outside inv shapely step apart
    rw [running, code]
    refine (waits.holder c' lock).other_step outside (fun z zombie => ?_) fun whole scan =>
      scan.other_step inv shapely same whole step
    rcases shapely.parent_step step z with same | ⟨p, -, next, -⟩ | ⟨k, next, -⟩ | ⟨p, k, next, -⟩
    · exact same
    · exact absurd (shapely.changes_locked inv next rfl) apart
    · have held := waits.frees _ z (shapely.frees inv next).2 (outside.zombie z zombie)
      rw [← inv.lock_iff] at held
      exact absurd held apart
    · exact absurd (shapely.changes_locked inv next rfl) apart

theorem Waits.free_step (waits : Waits m) (inv : Inv m stage) (shapely : Shapely m)
    (step : Interleaves m c choice m') (free : m'.Free .wait) : Calm m' := by
  by_cases held : .wait ∈ m.locks c
  · rcases inv.wait_step step held with ⟨k, next, after⟩ | ⟨still, -⟩
    · have inside := waits.holder c held
      rw [next] at inside
      exact inside.calm_release next (by rw [after]; rfl) fun q => waits.dozes_back inv shapely step
    · exact absurd still (free c)
  · refine (waits.outside inv shapely step held).calm (waits.free fun c' lock => ?_)
    by_cases same : c' = c
    · exact held (same ▸ lock)
    · apply free c'
      rw [(inv.other_cpu step same).2.1]
      exact lock

theorem Waits.spares_step (waits : Waits m) (step : Interleaves m c choice m')
    (leaves : act (.leave .exit p) ∈ m'.code t) : m'.table.initproc ≠ some p := by
  rw [interleaves_initproc step]
  rcases interleaves_pending step leaves rfl with old | ⟨a, k, o, -, -, ran, pushed, -⟩
  · exact waits.spares t p old
  · rcases exec_family ran pushed rfl with rfl | ⟨other, -⟩ | ⟨_, _, _, other, -⟩ | ⟨_, _, _, other | other⟩ |
      ⟨_, _, other⟩ | ⟨_, _, other⟩
    · obtain ⟨q, -, ⟨status, -, spared, rfl⟩ | rfl⟩ := user_family ran pushed rfl
      · obtain rfl : p = q := by simpa [exit, sched, returns] using pushed
        exact spared
      · simp [again, returns] at pushed
    all_goals cases other

theorem Inv.zombie_back (inv : Inv m stage) (step : Interleaves m c choice m')
    (zombie : (m'.table.proc z).state = .zombie) : (m.table.proc z).state = .zombie ∨ ∃ k, m.running c = .process z ∧
      m.code (m.running c) = act (.leave .exit z) :: k := by
  rcases interleaves_state step z with same | ⟨a, k, next, store⟩
  · exact .inl (same ▸ zombie)
  · rw [zombie] at store
    cases a with
    | leave how p =>
      cases how with
      | exit =>
        cases store
        exact .inr ⟨k, inv.owner_runs next rfl, next⟩
      | yield | sleep => cases store
    | _ => cases store

theorem Inv.zombie_freed (inv : Inv m stage) (step : Interleaves m c choice m')
    (freed : act (.freeStore z) ∈ m.code t) (zombie : (m'.table.proc z).state = .zombie) :
    (m.table.proc z).state = .zombie := by
  refine (inv.zombie_back step zombie).resolve_right ?_
  rintro ⟨k, -, next⟩
  by_cases own : t = m.running c
  · rw [own, next] at freed
    simp only [mem_cons, act.injEq, reduceCtorEq, false_or] at freed
    exact inv.store_last next rfl freed rfl
  · exact inv.store_not_scoped next rfl own freed rfl

theorem Waits.frees_step (waits : Waits m) (inv : Inv m stage) (step : Interleaves m c choice m')
    (freed : act (.freeStore z) ∈ m'.code t) (zombie : (m'.table.proc z).state = .zombie) :
    holds (m'.code t) .wait = true := by
  obtain ⟨stage', inv'⟩ := inv.interleaves step
  have locked : t = m.running c → .wait ∈ m.locks c → (∀ k, m.code (m.running c) ≠ release .wait :: k) →
      holds (m'.code t) .wait = true := by
    rintro rfl lock keeps
    rcases inv.wait_step step lock with ⟨k, next, -⟩ | ⟨still, running⟩
    · exact absurd next (keeps k)
    · rwa [inv'.lock_iff, running] at still
  rcases interleaves_pending step freed rfl with old | ⟨a, k, o, here, next, ran, pushed, after⟩
  · have held := waits.frees t z old (inv.zombie_freed step old zombie)
    by_cases own : t = m.running c
    · subst own
      rw [← inv.lock_iff] at held
      refine locked rfl held fun k next => ?_
      have inside := waits.holder c held
      rw [next] at inside old
      rcases inside.release_cases with done | ⟨p, rfl⟩
      · exact (done (.freeStore z) (by simpa using old)).2 z rfl
      · simp [doze, sched, wakes, again, returns] at old
    · rcases inv.thread_code step own with same | ⟨p, -, same, -⟩
      · rwa [same]
      · rw [same] at freed
        simp [forkret] at freed
  · have keeps : ∀ k', m.code (m.running c) ≠ release .wait :: k' := by simp [next]
    have state := exec_state ran z
    rw [after, table, apply_shared, state] at zombie
    rcases exec_family ran pushed rfl with rfl | ⟨other, -⟩ | ⟨p, np, rfl, -⟩ | ⟨p, np, rfl, other | other⟩ |
      ⟨_, _, other⟩ | ⟨np, rfl, other⟩
    · obtain ⟨q, -, ⟨status, -, -, rfl⟩ | rfl⟩ := user_family ran pushed rfl
      · simp [exit, sched, returns] at pushed
      · simp [again, returns] at pushed
    · cases other
    · refine locked here ?_ keeps
      rw [inv.lock_iff, next]
      simp [consumes]
    · cases other
    · cases other
      simp [newState, stores] at zombie
    · cases other
    · cases other
      have runnable : (m.table.proc z).state = .runnable := inv.known _ (.forkCopy z) (by rw [next]; simp)
      cases runnable.symm.trans zombie

theorem Waits.step (waits : Waits m) (inv : Inv m stage) (shapely : Shapely m)
    (step : Interleaves m c choice m') : Waits m' where
  holder := waits.holder_step inv shapely step
  free := waits.free_step inv shapely step
  sound q i havekids pending := by
    rcases waits.sound.step inv shapely waits.falls step pending with held | ⟨dozing, -⟩ | awake
    · exact .inl held
    · exact .inr (.inl dozing)
    · exact .inr (.inr awake)
  spares t p := waits.spares_step step
  frees t z := waits.frees_step inv step

theorem boot_waits (n : Nat) : Waits (boot n) where
  holder c lock := by cases lock
  free _ q z dozing := by
    have pending := dozing.code_eq.1
    simp [boot, forkret] at pending
  sound q i havekids pending := by simp [boot, forkret] at pending
  spares t p pending := by cases t <;> simp [boot, forkret] at pending
  frees t z pending := by cases t <;> simp [boot, forkret] at pending

end DeisoXv6
