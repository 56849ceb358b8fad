import DeisoXv6.Proc.Shapes
import Mathlib.Tactic.IntervalCases

/-! sleep and wakeup. A process that has released the lock inside sleep dozes: it holds its own lock until it
is off its CPU, and from then on it is SLEEPING on its channel until a wakeup or a kill stores RUNNABLE. So
a scan of wakeup that passes it finds it SLEEPING. -/

set_option autoImplicit false

namespace DeisoXv6

open Function (update update_self)
open List LockProgram LockProgram.Stmt

/-- sleep, from the release of the lock to the switch to the scheduler. -/
def doze (q : ProcId) (chan : Option Chan) : List Stmt :=
  [act (.update (.setChan q chan)), acquire .tickets, act (.leave .sleep q), release .tickets] ++ sched q

theorem doze_length (q : ProcId) (chan : Option Chan) : (doze q chan).length = 9 := rfl

/-- sleep, after the process has been scheduled again. -/
def wakes (q : ProcId) (lk : Lock) (k : List Stmt) : List Stmt :=
  act (.update (.setChan q none)) :: release (.proc q) :: acquire lk :: k

variable {n : Nat} {m m' : Machine n} {stage : Fin n → Stage} {c : Fin n} {choice : Choice} {q : ProcId}
  {chan : Option Chan} {lk : Lock} {k : List Stmt} {i : Nat}

/-- Process `q` has executed `i` statements of `doze`, and nobody has woken it. -/
structure Dozes (m : Machine n) (q : ProcId) (chan : Option Chan) (lk : Lock) (k : List Stmt) (i : Nat) : Prop where
  code : m.code (.process q) = (doze q chan).drop i ++ wakes q lk k
  bound : i ≤ 9
  chan : 1 ≤ i → (m.table.proc q).chan = chan
  state : 3 ≤ i → (m.table.proc q).state = .sleeping
  running : i < 9 → ∃ c, m.running c = .process q

def Dozing (m : Machine n) (q : ProcId) (chan : Option Chan) (lk : Lock) (k : List Stmt) : Prop :=
  ∃ i, Dozes m q chan lk k i

theorem Dozes.lock (dozes : Dozes m q chan lk k i) (inv : Inv m stage) (process : m.running c = .process q) :
    .proc q ∈ m.locks c := by
  rw [inv.lock_iff, process, dozes.code]
  have bound := dozes.bound
  interval_cases i <;> simp [doze, sched, wakes, consumes]

theorem Dozes.suspended (dozes : Dozes m q chan lk k 9) (inv : Inv m stage) (c : Fin n) :
    m.running c ≠ .process q := by
  intro process
  have running := inv.runs c q process (by rw [dozes.code]; rfl)
  rw [dozes.state (by omega)] at running
  cases running

theorem Dozes.lock_step (dozes : Dozes m q chan lk k i) (process : m.running c = .process q) (busy : i < 8)
    (code : m'.code (m.running c) = (doze q chan).drop (i + 1) ++ wakes q lk k) (same : m'.table = m.table)
    (running : m'.running = m.running) (stores : i ≠ 0 ∧ i ≠ 2) : Dozes m' q chan lk k (i + 1) where
  code := process ▸ code
  bound := by omega
  chan := fun _ => by
    rw [same]
    exact dozes.chan (by omega)
  state := fun later => by
    rw [same]
    exact dozes.state (by omega)
  running := fun _ => ⟨c, by rw [running, process]⟩

theorem act_dozes (inv : Inv m stage) (process : m.running c = .process q) {a : Act} {o : Outcome n} (bound : i < 9)
    (next : m.code (m.running c) = act a :: ((doze q chan).drop (i + 1) ++ wakes q lk k))
    (ran : exec c choice (m.locks c) m.shared a = some o) (push : o.push = [])
    (chan' : (written m.table a q).chan = chan) (state' : 2 ≤ i → newState a q (m.table.proc q).state = .sleeping)
    (stays : i < 8 → o.switch = none) :
    Dozes (m.apply c ((doze q chan).drop (i + 1) ++ wakes q lk k) o) q chan lk k (i + 1) where
  code := by
    have own := inv.own_code next ran
    rwa [push, process] at own
  bound := bound
  chan := fun _ => by
    rw [Machine.table, apply_shared, (exec_written ran q).chan]
    exact chan'
  state := fun later => by
    rw [Machine.table, apply_shared, exec_state ran q]
    exact state' (by omega)
  running := fun busy => ⟨c, by rw [apply_running, if_pos rfl, stays (by omega)]; exact process⟩

section

variable (dozes : Dozes m q chan lk k i) (inv : Inv m stage)

include dozes inv

theorem Dozes.own_step (step : Interleaves m c choice m')
    (process : m.running c = .process q) : Dozes m' q chan lk k (i + 1) := by
  have busy : m.locks c ≠ [] := ne_nil_of_mem (dozes.lock inv process)
  have next := dozes.code
  rw [← process] at next
  have bound : i < 9 := by
    refine lt_of_le_of_ne dozes.bound ?_
    rintro rfl
    exact dozes.suspended inv c process
  have chan' := dozes.chan
  have state' := dozes.state
  interval_cases i
  case «1» | «5» =>
    obtain ⟨-, rfl⟩ := interleaves_acquire step next busy
    exact dozes.lock_step process (by omega) (update_self ..) rfl rfl (by omega)
  case «3» | «7» =>
    obtain rfl := interleaves_release step next busy
    exact dozes.lock_step process (by omega) (update_self ..) rfl rfl (by omega)
  case «0» =>
    obtain ⟨o, ran, rfl⟩ := interleaves_act step next busy (by simp)
    refine act_dozes (i := 0) inv process (by omega) next ran (by cases ran; rfl) ?_ (by omega) fun _ => exec_switch ran
    simp [written]
  case «2» =>
    obtain ⟨o, ran, rfl⟩ := interleaves_act step next busy (by simp)
    refine act_dozes (i := 2) inv process (by omega) next ran (by cases ran; rfl) (chan' (by omega)) (fun _ => ?_)
      fun _ => exec_switch ran
    simp [newState, stores]
  case «4» =>
    obtain ⟨o, ran, rfl⟩ := interleaves_act step next busy (by simp)
    refine act_dozes (i := 4) inv process (by omega) next ran ?_ (chan' (by omega)) (fun _ => state' (by omega))
      fun _ => exec_switch ran
    simp only [exec] at ran
    split at ran
    · cases ran
      rfl
    · contradiction
  case «6» =>
    obtain ⟨o, ran, rfl⟩ := interleaves_act step next busy (by simp)
    exact act_dozes (i := 6) inv process (by omega) next ran (by cases ran; rfl) (chan' (by omega))
      (fun _ => state' (by omega)) fun _ => exec_switch ran
  case «8» =>
    obtain ⟨o, ran, rfl⟩ := interleaves_act step next busy (by simp)
    exact act_dozes (i := 8) inv process (by omega) next ran (by cases ran; rfl) (chan' (by omega))
      (fun _ => state' (by omega)) (by omega)

theorem Dozes.unlocked (other : m.running c ≠ .process q) (busy : i < 9) : .proc q ∉ m.locks c := by
  intro lock
  obtain ⟨c', process⟩ := dozes.running busy
  obtain rfl := inv.exclusive lock (dozes.lock inv process)
  exact other process

theorem Dozes.code_step (step : Interleaves m c choice m')
    (other : m.running c ≠ .process q) : m'.code (.process q) = m.code (.process q) := by
  rcases Nat.lt_or_eq_of_le dozes.bound with busy | rfl
  · obtain ⟨c', process⟩ := dozes.running busy
    have elsewhere : c' ≠ c := fun same => other (same ▸ process)
    have kept := (inv.other_cpu step elsewhere).2.2
    rwa [process] at kept
  · rcases inv.suspended_code step other with same | ⟨-, p, k', next⟩
    · exact same
    · have unused : (m.table.proc q).state = .unused := inv.before next rfl
      rw [dozes.state (by omega)] at unused
      cases unused

theorem Dozes.chan_step (shapely : Shapely m) (step : Interleaves m c choice m') (other : m.running c ≠ .process q) :
    (m'.table.proc q).chan = (m.table.proc q).chan := by
  rcases shapely.chan_step step q with same | ⟨own, -⟩ | ⟨k', next⟩
  · exact same
  · exact absurd own other
  · -- freeproc has the lock and does not find the process SLEEPING
    obtain ⟨lock, pending⟩ := shapely.frees inv next
    have known : _ ∨ _ := inv.known _ _ pending
    rcases Nat.lt_or_ge i 9 with busy | later
    · exact absurd lock (dozes.unlocked inv other busy)
    · rw [dozes.state (by omega)] at known
      rcases known with wrong | wrong | wrong <;> cases wrong

end

theorem Inv.wakes_of_store (inv : Inv m stage) {a : Act} {state : ProcState}
    (next : m.code (m.running c) = act a :: k) (store : stores a = some (q, state))
    (asleep : (m.table.proc q).state = .sleeping) : a = .wakeStore q ∧ state = .runnable := by
  have before := inv.before next store
  rw [asleep] at before
  cases a with
  | wakeStore p =>
    cases store
    exact ⟨rfl, rfl⟩
  | leave how p | setRunning p | setUsed r p | publish p => cases before
  | freeStore p => rcases before with wrong | wrong | wrong <;> cases wrong
  | _ => cases store

theorem Dozing.step (dozing : Dozing m q chan lk k) (inv : Inv m stage) (shapely : Shapely m)
    (step : Interleaves m c choice m') :
    Dozing m' q chan lk k ∨ m'.code (.process q) = wakes q lk k ∧ (m'.table.proc q).state = .runnable := by
  obtain ⟨i, dozes⟩ := dozing
  by_cases process : m.running c = .process q
  · exact .inl ⟨i + 1, dozes.own_step inv step process⟩
  have code := dozes.code_step inv step process
  have chan' := dozes.chan_step inv shapely step process
  rcases interleaves_state step q with same | ⟨a, k', next, store⟩
  · refine .inl ⟨i, code.trans dozes.code, dozes.bound, fun later => chan'.trans (dozes.chan later),
      fun later => same.trans (dozes.state later), fun busy => ?_⟩
    obtain ⟨c', there⟩ := dozes.running busy
    have elsewhere : c' ≠ c := fun same => process (same ▸ there)
    exact ⟨c', (inv.other_cpu step elsewhere).1.trans there⟩
  · -- a store needs the lock, so the process is off its CPU
    have lock := (inv.store_locks next store).1
    obtain rfl : i = 9 := by
      refine le_antisymm dozes.bound (Nat.le_of_not_lt fun busy => ?_)
      exact dozes.unlocked inv process busy lock
    obtain ⟨-, woken⟩ := inv.wakes_of_store next store (dozes.state (by omega))
    exact .inr ⟨code.trans dozes.code, woken⟩

/-- The actions of interrupt handlers, and of sleep behind sched. -/
def Handles : Act → Bool
  | .trapYield | .preempt | .leave .yield _ | .schedCheck _ | .switchBack _ | .wakeupFrom _ _
  | .wakeupCheck _ _ | .wakeStore _ | .update _ => true
  | _ => false

theorem exec_handles {a : Act} {locks : List Lock} {s : Shared n} {o : Outcome n}
    (ran : exec c choice locks s a = some o) (handles : Handles a = true) :
    Acts (fun b => Handles b = true) o.push := by
  cases a with
  | trapYield | preempt | leave how p | schedCheck p | switchBack p | wakeupFrom j chan | wakeupCheck p chan
  | wakeStore p | update u =>
    simp only [exec] at ran
    repeat' split at ran
    all_goals first
      | contradiction
      | cases ran; simp [yield, sched, Handles]
  | _ => cases handles

theorem handles_timerHandler : Acts (fun b => Handles b = true) (m.timerHandler c) := by
  unfold Machine.timerHandler
  split <;> split <;> simp [clockintr, wakeup, Handles]

structure Awake (m : Machine n) (q : ProcId) (k : List Stmt) : Prop where
  code : ∃ before, m.code (.process q) = before ++ k ∧ Acts (fun a => Handles a = true) before
  state : (m.table.proc q).state ≠ .sleeping

theorem Awake.of_woken (code : m.code (.process q) = wakes q lk k)
    (state : (m.table.proc q).state = .runnable) : Awake m q (acquire lk :: k) where
  code := ⟨[act (.update (.setChan q none)), release (.proc q)], code, by simp [Handles]⟩
  state := by simp [state]

theorem Awake.state_step (awake : Awake m q (acquire lk :: k)) (inv : Inv m stage)
    (step : Interleaves m c choice m') : (m'.table.proc q).state ≠ .sleeping := by
  intro asleep
  rcases interleaves_state step q with same | ⟨a, k', next, store⟩
  · exact awake.state (same.symm.trans asleep)
  · rw [asleep] at store
    obtain rfl : a = .leave .sleep q := by
      cases a with
      | leave how p =>
        cases how with
        | sleep =>
          cases store
          rfl
        | yield | exit => cases store
      | _ => cases store
    -- only sleep itself stores SLEEPING, and its store is behind the process
    have process := inv.owner_runs next rfl
    obtain ⟨before, code, handles⟩ := awake.code
    rw [process, code] at next
    cases before with
    | nil => cases next
    | cons x before =>
      cases next
      cases (acts_act.mp handles).1

theorem Awake.step (awake : Awake m q (acquire lk :: k)) (inv : Inv m stage) (step : Interleaves m c choice m')
    (inside : acquire lk :: k <:+ m'.code (.process q)) : Awake m' q (acquire lk :: k) := by
  refine ⟨?_, awake.state_step inv step⟩
  obtain ⟨before, code, handles⟩ := awake.code
  refine inv.code_step step (t := .process q) (P := fun t code => t = .process q → acquire lk :: k <:+ code →
    ∃ before, code = before ++ acquire lk :: k ∧ Acts (fun a => Handles a = true) before)
    ?others ?rest ?ran ?drawn ?timer ?device ?fresh rfl inside
  case others =>
    rintro t - rfl -
    exact ⟨before, code, handles⟩
  case rest =>
    intro x k' next lock process still
    rw [process, code] at next
    cases before with
    | nil =>
      -- the process gets the lock back and leaves the call
      cases next
      have := still.length_le
      simp at this
    | cons y before =>
      cases next
      refine ⟨before, rfl, ?_⟩
      intro a pending
      exact handles a (mem_cons_of_mem _ pending)
  case ran =>
    intro a k' o next ran process _
    rw [process, code] at next
    cases before with
    | nil => cases next
    | cons y before =>
      cases next
      obtain ⟨here, later⟩ := acts_act.mp handles
      refine ⟨o.push ++ before, by simp, acts_append.mpr ⟨exec_handles ran here, later⟩⟩
  case drawn =>
    intro k' next
    refine ⟨fun process => ?_, fun p process => ?_⟩ <;> rw [process, code] at next <;> cases before with
    | nil => cases next
    | cons y before =>
      cases next
      cases (acts_act.mp handles).1
  case timer =>
    intro _ process _
    rw [process, code]
    exact ⟨m.timerHandler c ++ before, by simp, acts_append.mpr ⟨handles_timerHandler, handles⟩⟩
  case device =>
    intro _ chan lk' process _
    rw [process, code]
    refine ⟨deviceHandler chan lk' ++ before, by simp, acts_append.mpr ⟨?_, handles⟩⟩
    simp [deviceHandler, wakeup, Handles]
  case fresh =>
    intro p _ still
    have := still.subset (mem_cons_self ..)
    simp [forkret] at this

section Scan

variable {t t' : Table} {b : Nat} {code y : List Stmt}

/-- Where wakeup is, before it has dealt with slot `b`. -/
inductive Scan (t : Table) (chan : Option Chan) (b : Nat) : List Stmt → Prop where
  | next {j : Nat} (before : j ≤ b) : Scan t chan b [act (.wakeupFrom j chan)]
  | lock {p : ProcId} (before : p.val ≤ b) : Scan t chan b [acquire (.proc p), act (.wakeupCheck p chan),
      release (.proc p), act (.wakeupFrom (p + 1) chan)]
  | check {p : ProcId} (before : p.val ≤ b) : Scan t chan b [act (.wakeupCheck p chan), release (.proc p),
      act (.wakeupFrom (p + 1) chan)]
  | tickets {p : ProcId} (before : p.val ≤ b) (asleep : t.SleepsOn p chan) : Scan t chan b [acquire .tickets,
      act (.wakeStore p), release .tickets, release (.proc p), act (.wakeupFrom (p + 1) chan)]
  | store {p : ProcId} (before : p.val ≤ b) (asleep : t.SleepsOn p chan) : Scan t chan b [act (.wakeStore p),
      release .tickets, release (.proc p), act (.wakeupFrom (p + 1) chan)]
  | stored {p : ProcId} (before : p.val < b) : Scan t chan b [release .tickets, release (.proc p),
      act (.wakeupFrom (p + 1) chan)]
  | unlock {p : ProcId} (before : p.val < b) : Scan t chan b [release (.proc p), act (.wakeupFrom (p + 1) chan)]

inductive Passes (m : Machine n) (c : Fin n) (chan : Option Chan) (p : ProcId) : Stmt → Prop where
  | own (self : m.shared.proc c = some p) : Passes m c chan p (act (.wakeupFrom p chan))
  | awake (awake : ¬m.table.SleepsOn p chan) : Passes m c chan p (act (.wakeupCheck p chan))
  | store : Passes m c chan p (act (.wakeStore p))

theorem Scan.own_step (scan : Scan m.table chan b code) (inv : Inv m stage) (busy : m.locks c ≠ [])
    (next : m.code (m.running c) = code ++ y) (step : Interleaves m c choice m') :
    (∃ code', m'.code (m.running c) = code' ++ y ∧ Scan m'.table chan b code') ∨
      (NPROC ≤ b ∧ m'.code (m.running c) = y) ∨
      ∃ (p : ProcId) (x : Stmt), p.val = b ∧ x ∈ code.head? ∧ Passes m c chan p x := by
  cases scan with
  | @next j before =>
    obtain ⟨o, ran, rfl⟩ := interleaves_act step next busy (by simp)
    have own := inv.own_code next ran
    simp only [exec] at ran
    split at ran
    · rename_i inside
      split at ran <;> rename_i self <;> cases ran
      · rcases Nat.lt_or_eq_of_le before with earlier | rfl
        · exact .inl ⟨_, own, .next earlier⟩
        · exact .inr (.inr ⟨⟨j, inside⟩, _, rfl, rfl, .own self⟩)
      · exact .inl ⟨_, own, .lock (p := ⟨j, inside⟩) before⟩
    · cases ran
      exact .inr (.inl ⟨by omega, own⟩)
  | @lock p before =>
    obtain ⟨-, rfl⟩ := interleaves_acquire step next busy
    exact .inl ⟨_, update_self .., .check before⟩
  | @check p before =>
    obtain ⟨o, ran, rfl⟩ := interleaves_act step next busy (by simp)
    have own := inv.own_code next ran
    have table : o.shared.table = m.table := by
      cases ran
      rfl
    have push : o.push = if m.table.SleepsOn p chan
        then [acquire .tickets, act (.wakeStore p), release .tickets] else [] := by
      cases ran
      rfl
    by_cases asleep : m.table.SleepsOn p chan
    · rw [push, if_pos asleep] at own
      refine .inl ⟨[_, _, _, _, _], own, ?_⟩
      rw [Machine.table, apply_shared, table]
      exact .tickets before asleep
    · rcases Nat.lt_or_eq_of_le before with earlier | rfl
      · rw [push, if_neg asleep] at own
        exact .inl ⟨_, own, .unlock earlier⟩
      · exact .inr (.inr ⟨p, _, rfl, rfl, .awake asleep⟩)
  | @tickets p before asleep =>
    obtain ⟨-, rfl⟩ := interleaves_acquire step next busy
    exact .inl ⟨_, update_self .., .store before asleep⟩
  | @store p before asleep =>
    obtain ⟨o, ran, rfl⟩ := interleaves_act step next busy (by simp)
    have own := inv.own_code next ran
    cases ran
    rcases Nat.lt_or_eq_of_le before with earlier | rfl
    · exact .inl ⟨_, own, .stored earlier⟩
    · exact .inr (.inr ⟨p, _, rfl, rfl, .store⟩)
  | @stored p before =>
    obtain rfl := interleaves_release step next busy
    exact .inl ⟨_, update_self .., .unlock before⟩
  | @unlock p before =>
    obtain rfl := interleaves_release step next busy
    exact .inl ⟨_, update_self .., .next before⟩

theorem Scan.nonempty (scan : Scan t chan b code) : code ≠ [] := by
  cases scan <;> simp

theorem Scan.other_step (scan : Scan m.table chan b code) (inv : Inv m stage) (shapely : Shapely m)
    {c' : Fin n} (other : c' ≠ c) (next : m.code (m.running c') = code ++ y)
    (step : Interleaves m c choice m') : Scan m'.table chan b code := by
  have still : ∀ {p : ProcId}, holds (m.code (m.running c')) (.proc p) = true → m.table.SleepsOn p chan →
      m'.table.SleepsOn p chan := by
    intro p held asleep
    obtain ⟨state, chan'⟩ := shapely.locked_step inv step other ((inv.lock_iff _).mpr held)
    exact ⟨state.trans asleep.1, chan'.trans asleep.2⟩
  cases scan with
  | next before => exact .next before
  | lock before => exact .lock before
  | check before => exact .check before
  | tickets before asleep => exact .tickets before (still (by rw [next]; simp [consumes]) asleep)
  | store before asleep => exact .store before (still (by rw [next]; simp [consumes]) asleep)
  | stored before => exact .stored before
  | unlock before => exact .unlock before

end Scan

/-- Process `q` calls sleep at time `s` and is still in that call at time `e`. -/
structure Sleeps (r : Run n) (q : ProcId) (chan : Option Chan) (lk : Lock) (k : List Stmt) (s e : Nat) : Prop where
  call : (r.state s).code (.process q) = sleep q chan lk ++ k
  inside : ∀ i, s ≤ i → i ≤ e → acquire lk :: k <:+ (r.state i).code (.process q)

/-- The step at time `i` is the release of the lock in that call. -/
def ReleasesAt (r : Run n) (q : ProcId) (chan : Option Chan) (lk : Lock) (k : List Stmt) (i : Nat) : Prop :=
  (r.state i).code (.process q) = release lk :: (doze q chan ++ wakes q lk k) ∧
    (r.state (i + 1)).code (.process q) = doze q chan ++ wakes q lk k

/-- Thread `t` acquires the lock at time `a`, calls wakeup at time `w` and returns from it at time `e`. -/
structure WakesUp (r : Run n) (t : Thread n) (chan : Option Chan) (lk : Lock) (a w e : Nat) : Prop where
  acquires : ∃ k, (r.state a).code t = acquire lk :: k ∧ (r.state (a + 1)).code t = k
  locked : ∀ i, a < i → i ≤ e → ∃ c, (r.state i).running c = t ∧ lk ∈ (r.state i).locks c
  order : a < w ∧ w < e
  call : ∃ k, (r.state w).code t = act (.wakeupFrom 0 chan) :: k ∧ (r.state e).code t = k ∧
    ∀ i, w ≤ i → i < e → (r.state i).code t ≠ k

section Runs

variable {r : Run n} {t : Thread n} {s a b w e : Nat}

theorem ReleasesAt.dozes (released : ReleasesAt r q chan lk k b) (within : b < r.length) :
    Dozes (r.state (b + 1)) q chan lk k 0 := by
  obtain ⟨before, after⟩ := released
  obtain ⟨stage, inv⟩ := r.inv (within.le)
  have step := r.step b within
  refine ⟨after, by omega, by omega, by omega, fun _ => ?_⟩
  -- the process holds a lock besides its own, so some CPU runs it
  obtain ⟨c, process⟩ : ∃ c, (r.state b).running c = .process q := by
    by_contra idle
    obtain ⟨only, -⟩ := inv.suspended q (not_exists.mp idle)
    have typed := inv.typed (.process q)
    rw [before] at only typed
    have same := (only lk).mp (by simp)
    have gone : holds (doze q chan ++ wakes q lk k) lk = false := typed.1
    rw [← same] at gone
    simp [doze, sched, wakes, consumes] at gone
  have shorter : (r.state b).code (.process q) ≠ (r.state (b + 1)).code (.process q) := by
    rw [before, after]
    exact fun same => by simpa using congrArg List.length same
  by_cases own : c = r.cpu b
  · subst own
    have held : lk ∈ (r.state b).locks (r.cpu b) := by
      rw [inv.lock_iff, process, before]
      simp
    rw [← process] at before
    have moved := interleaves_release step before (ne_nil_of_mem held)
    exact ⟨r.cpu b, by rw [moved]; exact process⟩
  · have kept := (inv.other_cpu step own).2.2
    rw [process] at kept
    exact absurd kept.symm shorter

theorem Sleeps.dozing_or_awake (sleeps : Sleeps r q chan lk k s e) (released : ReleasesAt r q chan lk k b)
    (order : s ≤ b) (within : e ≤ r.length) {i : Nat} (after : b < i) (before : i ≤ e) :
    Dozing (r.state i) q chan lk k ∨ Awake (r.state i) q (acquire lk :: k) := by
  induction i, after using Nat.le_induction with
  | base => exact .inl ⟨0, released.dozes (by omega)⟩
  | succ i after ih =>
    obtain ⟨stage, inv⟩ := r.inv (i := i) (by omega)
    have step := r.step i (by omega)
    rcases ih (by omega) with dozing | awake
    · rcases dozing.step inv (r.shapely (by omega)) step with still | ⟨code, state⟩
      · exact .inl still
      · exact .inr (.of_woken code state)
    · exact .inr (awake.step inv step (sleeps.inside (i + 1) (by omega) before))

theorem Sleeps.awake_stays (sleeps : Sleeps r q chan lk k s e) (within : e ≤ r.length) {i j : Nat} (after : s ≤ i)
    (awake : Awake (r.state i) q (acquire lk :: k)) (later : i ≤ j) (before : j ≤ e) :
    Awake (r.state j) q (acquire lk :: k) := by
  induction j, later using Nat.le_induction with
  | base => exact awake
  | succ j later ih =>
    obtain ⟨stage, inv⟩ := r.inv (i := j) (by omega)
    exact (ih (by omega)).step inv (r.step j (by omega)) (sleeps.inside (j + 1) (by omega) before)

theorem WakesUp.scan_step (wakes : WakesUp r t chan lk a w e) (within : e ≤ r.length) {i : Nat} {code y : List Stmt}
    (after : w ≤ i) (before : i < e) (next : (r.state i).code t = code ++ y)
    (scan : Scan (r.state i).table chan b code) :
    (∃ code', (r.state (i + 1)).code t = code' ++ y ∧ Scan (r.state (i + 1)).table chan b code') ∨
      (NPROC ≤ b ∧ (r.state (i + 1)).code t = y) ∨ (r.state i).running (r.cpu i) = t ∧
        ∃ (p : ProcId) (x : Stmt), p.val = b ∧ x ∈ code.head? ∧ Passes (r.state i) (r.cpu i) chan p x := by
  obtain ⟨stage, inv⟩ := r.inv (i := i) (by omega)
  have step := r.step i (by omega)
  obtain ⟨c, rfl, lock⟩ := wakes.locked i (by have := wakes.order; omega) (by omega)
  by_cases own : c = r.cpu i
  · subst own
    rcases scan.own_step inv (ne_nil_of_mem lock) next step with on | done | passes
    · exact .inl on
    · exact .inr (.inl done)
    · exact .inr (.inr ⟨rfl, passes⟩)
  · refine .inl ⟨code, (inv.other_cpu step own).2.2.trans next, ?_⟩
    exact scan.other_step inv (r.shapely (by omega)) own next step

theorem WakesUp.scans (wakes : WakesUp r t chan lk a w e) (within : e ≤ r.length) {k : List Stmt}
    (call : (r.state w).code t = act (.wakeupFrom 0 chan) :: k)
    (inside : ∀ i, w ≤ i → i < e → (r.state i).code t ≠ k) {i : Nat} (after : w ≤ i) (before : i < e) :
    ∃ code, (r.state i).code t = code ++ k ∧ Scan (r.state i).table chan NPROC code := by
  induction i, after using Nat.le_induction with
  | base => exact ⟨[_], call, .next (Nat.zero_le _)⟩
  | succ i after ih =>
    obtain ⟨code, next, scan⟩ := ih (by omega)
    rcases wakes.scan_step within after (by omega) next scan with on | ⟨-, done⟩ | ⟨-, p, x, last, -⟩
    · exact on
    · exact absurd done (inside (i + 1) (by omega) before)
    · exact absurd last (by omega)

theorem Dozes.not_passing (dozes : Dozes m q chan lk k i) {x : Stmt} {y : List Stmt}
    (next : m.code (.process q) = x :: y) : ¬Passes m c chan q x := by
  intro passes
  have code := dozes.code
  rw [next] at code
  have bound := dozes.bound
  cases passes <;> interval_cases i <;> cases code

theorem Dozing.not_passed (dozing : Dozing m q chan lk k) (inv : Inv m stage)
    (step : Interleaves m c choice m') (dozing' : Dozing m' q chan lk k) {x : Stmt} {y : List Stmt}
    (next : m.code (m.running c) = x :: y) (passes : Passes m c chan q x) : False := by
  obtain ⟨i, dozes⟩ := dozing
  have other : m.running c ≠ .process q := by
    intro process
    rw [process] at next
    exact dozes.not_passing next passes
  have off : .proc q ∈ m.locks c → i = 9 := fun lock =>
    le_antisymm dozes.bound (Nat.le_of_not_lt fun busy => dozes.unlocked inv other busy lock)
  cases passes with
  | own self =>
    rcases inv.running_cases c with scheduler | ⟨p, process, at_⟩
    · rw [inv.proc_none next scheduler rfl] at self
      cases self
    · have phase := inv.phase c
      rw [at_] at phase
      cases phase.2.1.symm.trans self
      exact other process
  | awake awake =>
    have typed := inv.typed (m.running c)
    rw [next] at typed
    have lock : .proc q ∈ m.locks c := (inv.lock_iff _).mpr (by rw [next]; simp [typed.1.1])
    obtain rfl := off lock
    exact awake ⟨dozes.state (by omega), dozes.chan (by omega)⟩
  | store =>
    have lock := (inv.store_locks next rfl).1
    obtain rfl := off lock
    have code := (dozes.code_step inv step other).trans dozes.code
    obtain ⟨o, ran, rfl⟩ := interleaves_act step next (ne_nil_of_mem lock) (by simp)
    obtain ⟨j, dozes'⟩ := dozing'
    have same : j = 9 := by
      have lengths := congrArg List.length (dozes'.code.symm.trans code)
      have bound := dozes'.bound
      simp only [length_append, length_drop, doze_length] at lengths
      omega
    have asleep := dozes'.state (by omega)
    rw [Machine.table, apply_shared, exec_state ran q] at asleep
    simp [newState, stores] at asleep

/-- Every process that had released the lock inside sleep before the waker acquired it is no longer SLEEPING
in that call when wakeup returns; and wakeup changes the state of a process only if it is SLEEPING on the
channel. -/
theorem no_lost_wakeup (wakes : WakesUp r t chan lk a w e) (within : e ≤ r.length) :
    (∀ q k s b, Sleeps r q chan lk k s e → ReleasesAt r q chan lk k b → s ≤ b → b < a →
      ((r.state e).table.proc q).state ≠ .sleeping) ∧ ∀ i, w ≤ i → i < e → (r.state i).running (r.cpu i) = t → ∀ p,
      ((r.state (i + 1)).table.proc p).state ≠ ((r.state i).table.proc p).state →
        (r.state i).table.SleepsOn p chan := by
  obtain ⟨y, call, returns, inside⟩ := wakes.call
  obtain ⟨acquired, called⟩ := wakes.order
  constructor
  · intro q k s b sleeps released order earlier asleep
    -- it has dozed all along, for it cannot have fallen asleep again
    have dozing : ∀ i, b < i → i ≤ e → Dozing (r.state i) q chan lk k := by
      intro i after before
      rcases sleeps.dozing_or_awake released order within after before with still | awake
      · exact still
      · exact absurd asleep (sleeps.awake_stays within (by omega) awake before (Nat.le_refl e)).state
    have next : ∀ {i code}, w ≤ i → i < e → (r.state i).code t = code ++ y →
        Scan (r.state i).table chan q.val code → ∃ code', (r.state (i + 1)).code t = code' ++ y ∧
          Scan (r.state (i + 1)).table chan q.val code' := by
      intro i code after before here scan
      obtain ⟨stage, inv⟩ := r.inv (i := i) (by omega)
      rcases wakes.scan_step within after before here scan with on | ⟨all, -⟩ | ⟨own, p, x, same, head, passes⟩
      · exact on
      · exact absurd q.isLt (by omega)
      · obtain rfl := Fin.ext same
        obtain ⟨rest, rfl⟩ := List.head?_eq_some_iff.mp head
        rw [← own] at here
        exact ((dozing i (by omega) (by omega)).not_passed inv (r.step i (by omega))
          (dozing (i + 1) (by omega) (by omega)) here passes).elim
    have scans : ∀ i, w ≤ i → i ≤ e → ∃ code, (r.state i).code t = code ++ y ∧
        Scan (r.state i).table chan q.val code := by
      intro i after
      induction i, after using Nat.le_induction with
      | base => exact fun _ => ⟨[_], call, .next (Nat.zero_le _)⟩
      | succ i after ih =>
        intro before
        obtain ⟨code, here, scan⟩ := ih (by omega)
        exact next after (by omega) here scan
    -- so the scan has not ended
    obtain ⟨code, here, scan⟩ := scans e (by omega) (Nat.le_refl e)
    rw [returns] at here
    exact scan.nonempty (self_eq_append_left.mp here)
  · intro i after before own p changed
    obtain ⟨code, next, scan⟩ := wakes.scans within call inside after before
    rcases interleaves_state (r.step i (by omega)) p with same | ⟨b, k, head, store⟩
    · exact absurd same changed
    · rw [own, next] at head
      cases scan with
      | store _ asleep =>
        cases head
        simp only [stores, Option.some.injEq, Prod.mk.injEq] at store
        exact store.1 ▸ asleep
      | next | check =>
        cases head
        cases store
      | lock | tickets | stored | unlock => cases head

end Runs

def sleepAndWake : List (Event 2) :=
  List.replicate 9 (.cpu 0 .go) ++ .cpu 0 (.call (.sleep (some (.address 0)) (.other 0))) ::
    List.replicate 14 (.cpu 0 .go) ++ .device 1 (some (.address 0)) 0 :: List.replicate 261 (.cpu 1 .go)

def sleeperRest : List Stmt := [release (.other 0), act .user]

def wakerRest : List Stmt := [release (.other 0), act .loop]

def SleeperAt (i : Nat) (m : Machine 2) : Prop :=
  (i = 11 → m.code (.process 0) = sleep 0 (some (.address 0)) (.other 0) ++ sleeperRest) ∧
  (11 ≤ i → acquire (.other 0) :: sleeperRest <:+ m.code (.process 0)) ∧
  (i = 12 → m.code (.process 0) =
    release (.other 0) :: (doze 0 (some (.address 0)) ++ wakes 0 (.other 0) sleeperRest)) ∧
  (i = 13 → m.code (.process 0) = doze 0 (some (.address 0)) ++ wakes 0 (.other 0) sleeperRest)

def WakerAt (i : Nat) (m : Machine 2) : Prop :=
  (i = 25 → m.code (.scheduler 1) = acquire (.other 0) :: act (.wakeupFrom 0 (some (.address 0))) :: wakerRest) ∧
  (i = 26 → m.code (.scheduler 1) = act (.wakeupFrom 0 (some (.address 0))) :: wakerRest) ∧
  (25 < i → m.running 1 = .scheduler 1 ∧ .other 0 ∈ m.locks 1) ∧
  (26 ≤ i → i < 286 → m.code (.scheduler 1) ≠ wakerRest) ∧ (i = 286 → m.code (.scheduler 1) = wakerRest)

instance (i : Nat) (m : Machine 2) : Decidable (SleeperAt i m) :=
  inferInstanceAs (Decidable (_ ∧ _ ∧ _ ∧ _))

instance (i : Nat) (m : Machine 2) : Decidable (WakerAt i m) :=
  inferInstanceAs (Decidable (_ ∧ _ ∧ _ ∧ _ ∧ _))

theorem sleepAndWake_no_lost_wakeup : ∃ r : Run 2, r.length = 286 ∧
    WakesUp r (.scheduler 1) (some (.address 0)) (.other 0) 25 26 286 ∧
    Sleeps r 0 (some (.address 0)) (.other 0) sleeperRest 11 286 ∧
    ReleasesAt r 0 (some (.address 0)) (.other 0) sleeperRest 12 ∧
    ((r.state 286).table.proc 0).state ≠ .sleeping := by
  have runs : ((Machine.boot 2).run sleepAndWake).isSome := by decide +kernel
  obtain ⟨m, ran⟩ := Option.isSome_iff_exists.mp runs
  have all : Machine.Throughout (fun i m => SleeperAt i m ∧ WakerAt i m) 0 (Machine.boot 2) sleepAndWake := by
    decide +kernel
  have length : sleepAndWake.length = 286 := by decide +kernel
  let r := Run.ofEvents sleepAndWake (.cpu 0 .go) ran (by decide +kernel)
  have at_ : ∀ i, i ≤ 286 → SleeperAt i (r.state i) ∧ WakerAt i (r.state i) := by
    intro i within
    have here := all.after ran (i := i) (by omega)
    rwa [Nat.zero_add] at here
  have total : r.length = 286 := length
  clear_value r
  have wakes : WakesUp r (.scheduler 1) (some (.address 0)) (.other 0) 25 26 286 := by
    obtain ⟨-, acquires, -⟩ := at_ 25 (by omega)
    obtain ⟨-, -, calls, -⟩ := at_ 26 (by omega)
    obtain ⟨-, -, -, -, -, returns⟩ := at_ 286 (by omega)
    refine ⟨⟨_, acquires rfl, calls rfl⟩, fun i after before => ?_, by omega, wakerRest, calls rfl, returns rfl,
      fun i after before => ?_⟩
    · obtain ⟨-, -, -, locked, -⟩ := at_ i before
      exact ⟨1, locked after⟩
    · obtain ⟨-, -, -, -, inside, -⟩ := at_ i (by omega)
      exact inside after before
  have sleeps : Sleeps r 0 (some (.address 0)) (.other 0) sleeperRest 11 286 :=
    ⟨(at_ 11 (by omega)).1.1 rfl, fun i after before => (at_ i before).1.2.1 after⟩
  have released : ReleasesAt r 0 (some (.address 0)) (.other 0) sleeperRest 12 :=
    ⟨(at_ 12 (by omega)).1.2.2.1 rfl, (at_ 13 (by omega)).1.2.2.2 rfl⟩
  exact ⟨r, total, wakes, sleeps, released,
    (no_lost_wakeup wakes (Nat.le_of_eq total.symm)).1 0 _ 11 12 sleeps released (by omega) (by omega)⟩

end DeisoXv6
