import DeisoXv6.Proc.Lottery
import DeisoXv6.Proc.Kernel
import DeisoXv6.Semantics.Trace

/-! What sched charges a process on one CPU, and the clock ticks that have come while it was RUNNING. The start of
a slice is stored when a process stops, not when the next one starts. -/

set_option autoImplicit false

namespace DeisoXv6

open Table

structure Cpu where
  table : Table
  proc : Option ProcId

inductive CpuEvent where
  | dispatch : ProcId → CpuEvent
  | tick
  | sched : Leave → CpuEvent
  | wake : ProcId → CpuEvent
  | fork : ProcId → CpuEvent
  | reap : ProcId → CpuEvent
  deriving DecidableEq

def Table.wakeup (t : Table) (self : Option ProcId) (chan : Option Chan) : Table :=
  (List.finRange NPROC).foldl (fun t p => if some p ≠ self ∧ t.SleepsOn p chan then t.wake p else t) t

namespace Cpu

def boot : Cpu := ⟨Table.boot.userinit, none⟩

def dispatch (s : Cpu) (p : ProcId) : Cpu := ⟨s.table.setRunning p, some p⟩

def clockintr (s : Cpu) : Cpu := { s with table := (Update.tick.apply s.table).wakeup s.proc (some .ticks) }

/-- Process `p` stores its state and calls sched; scheduler goes on up to its loop. -/
def sched (s : Cpu) (how : Leave) (p : ProcId) : Cpu :=
  ⟨Update.setLastStart.apply ((Update.charge p).apply (how.apply s.table p)), none⟩

def fork (s : Cpu) (p np : ProcId) : Cpu :=
  { s with table := ((((s.table.allocpid np).setUsed np).inherit p np).setParent p np).publish np }

def step (s : Cpu) : CpuEvent → Option Cpu
  | .dispatch p => if s.proc = none ∧ (s.table.proc p).state = .runnable then some (s.dispatch p) else none
  | .tick => some s.clockintr
  | .sched how => s.proc.map (s.sched how)
  | .wake p => if (s.table.proc p).state = .sleeping then some { s with table := s.table.wake p } else none
  | .fork np => if (s.table.proc np).state = .unused then s.proc.map (s.fork · np) else none
  | .reap p => if (s.table.proc p).state = .zombie
      then some { s with table := (s.table.freeFields p).free p } else none

end Cpu

abbrev CpuRun := Semantics.Trace Cpu.step fun s => s = Cpu.boot

namespace CpuRun

/-- A life of slot `p` begins at time `i` and has not ended by time `j`. -/
structure Lives (r : CpuRun) (p : ProcId) (i j : Nat) : Prop where
  begins : i = 0 ∨ ∃ k, i = k + 1 ∧ r.event k = .fork p
  ordered : i ≤ j ∧ j ≤ r.length
  goes : ∀ k, i ≤ k → k < j → r.event k ≠ .fork p ∧ r.event k ≠ .reap p

/-- The ticks that come while `p` is RUNNING, from time `i` to time `j`. -/
def ran (r : CpuRun) (p : ProcId) (i j : Nat) : Nat :=
  r.count (fun s e => e = .tick ∧ (s.table.proc p).state = .running) i j

/-- What has been added to `p->ticks` since time `i` is the time that `p` has run. -/
def Charges (r : CpuRun) (p : ProcId) (i j : Nat) : Prop :=
  (((r.state j).table).proc p).state ≠ .running → ((r.state j).table.proc p).ticks = int (r.ran p i j)

/-- Every process that is selected before time `j` is selected at the tick at which the last one has stopped. -/
def Prompt (r : CpuRun) (j : Nat) : Prop :=
  ∀ k < j, ∀ p, r.event k = .dispatch p → (r.state k).table.ticks = (r.state k).table.ticksLastStart

end CpuRun

/-- For slot `q` nothing has changed that bears on its ticks. -/
structure Table.SameClock (t t' : Table) (q : ProcId) : Prop where
  running : (t'.proc q).state = .running ↔ (t.proc q).state = .running
  charged : (t'.proc q).ticks = (t.proc q).ticks
  ticks : t'.ticks = t.ticks
  lastStart : t'.ticksLastStart = t.ticksLastStart

section Steps

variable {t t' : Table} {s s' : Cpu} {p q : ProcId} {e : CpuEvent} {n : Nat}

theorem Table.SameClock.refl : t.SameClock t q := ⟨Iff.rfl, rfl, rfl, rfl⟩

theorem Table.SameClock.trans {t'' : Table} (first : t.SameClock t' q) (second : t'.SameClock t'' q) :
    t.SameClock t'' q :=
  ⟨second.running.trans first.running, second.charged.trans first.charged, second.ticks.trans first.ticks,
    second.lastStart.trans first.lastStart⟩

theorem Table.SameClock.of_proc (same : t'.proc q = t.proc q) (ticks : t'.ticks = t.ticks)
    (lastStart : t'.ticksLastStart = t.ticksLastStart) : t.SameClock t' q :=
  ⟨by rw [same], by rw [same], ticks, lastStart⟩

theorem sameClock_addTickets {x : Int} : t.SameClock (t.addTickets x) q := ⟨Iff.rfl, rfl, rfl, rfl⟩

theorem sameClock_withdraw : t.SameClock (t.withdraw p) q := by
  unfold withdraw
  split
  · exact sameClock_addTickets
  · exact .refl

theorem setState_clock {state : ProcState} (other : state ≠ .running) :
    (((t.setState p state).proc q).state = .running ↔ q ≠ p ∧ (t.proc q).state = .running) ∧
      ((t.setState p state).proc q).ticks = (t.proc q).ticks := by
  unfold setState
  rw [modify_proc]
  split
  · rename_i same
    subst same
    exact ⟨iff_of_false other fun wrong => wrong.1 rfl, rfl⟩
  · rename_i differs
    exact ⟨(and_iff_right differs).symm, rfl⟩

theorem sameClock_wake (asleep : (t.proc p).state = .sleeping) : t.SameClock (t.wake p) q := by
  refine Table.SameClock.trans ?_ sameClock_addTickets
  have runnable : ProcState.runnable ≠ .running := nofun
  obtain ⟨running, charged⟩ := setState_clock (t := t) (p := p) (q := q) runnable
  refine ⟨running.trans (and_iff_right_of_imp fun runs same => ?_), charged, rfl, rfl⟩
  rw [same, asleep] at runs
  contradiction

theorem sameClock_wakeup {self : Option ProcId} {chan : Option Chan} : t.SameClock (t.wakeup self chan) q := by
  unfold Table.wakeup
  induction List.finRange NPROC generalizing t with
  | nil => exact .refl
  | cons p ps ih =>
    refine Table.SameClock.trans ?_ ih
    dsimp only
    split
    · rename_i asleep
      exact sameClock_wake asleep.2.1
    · exact .refl

theorem leave_clock (how : Leave) : ∃ t' state, state ≠ .running ∧ t.SameClock t' q ∧
    how.apply t p = t'.setState p state := by
  cases how with
  | yield =>
    refine ⟨_, .runnable, by decide, ?_, rfl⟩
    split
    · exact sameClock_addTickets
    · exact .refl
  | sleep => exact ⟨_, .sleeping, by decide, sameClock_withdraw, rfl⟩
  | exit => exact ⟨_, .zombie, by decide, sameClock_withdraw, rfl⟩

def Cpu.Sound (s : Cpu) : Prop := ∀ q, (s.table.proc q).state = .running ↔ s.proc = some q

inductive Cpu.Clocks (s : Cpu) (q : ProcId) : CpuEvent → Cpu → Prop
  | same {e : CpuEvent} {s' : Cpu} (proc : s'.proc = s.proc) (clock : s.table.SameClock s'.table q)
      (quiet : e ≠ .tick ∧ e ≠ .fork q) : Clocks s q e s'
  | dispatch {p : ProcId} {s' : Cpu} (idle : s.proc = none) (proc : s'.proc = some p)
      (running : (s'.table.proc q).state = .running ↔ q = p) (charged : (s'.table.proc q).ticks = (s.table.proc q).ticks)
      (ticks : s'.table.ticks = s.table.ticks ∧ s'.table.ticksLastStart = s.table.ticksLastStart) :
      Clocks s q (.dispatch p) s'
  | tick {s' : Cpu} (proc : s'.proc = s.proc) (clock : (Update.tick.apply s.table).SameClock s'.table q) :
      Clocks s q .tick s'
  | sched {p : ProcId} {how : Leave} {s' : Cpu} (runs : s.proc = some p) (proc : s'.proc = none)
      (running : (s'.table.proc q).state ≠ .running)
      (charged : (s'.table.proc q).ticks = if q = p then
        int ((s.table.proc q).ticks + (s.table.ticks - s.table.ticksLastStart)) else (s.table.proc q).ticks) :
      Clocks s q (.sched how) s'
  | begins {e : CpuEvent} {s' : Cpu} (own : e = .fork q ∨ e = .reap q) (proc : s'.proc = s.proc)
      (running : (s.table.proc q).state ≠ .running ∧ (s'.table.proc q).state ≠ .running)
      (charged : (s'.table.proc q).ticks = 0) : Clocks s q e s'

theorem Cpu.Sound.clocks (sound : s.Sound) (step : s.step e = some s') (q : ProcId) : s.Clocks q e s' := by
  cases e with
  | dispatch p =>
    simp only [Cpu.step] at step
    split at step
    · rename_i free
      cases step
      refine .dispatch free.1 rfl ?_ ?_ ⟨rfl, rfl⟩
      · unfold Cpu.dispatch setRunning setState
        rw [modify_proc]
        split
        · rename_i same
          exact iff_of_true rfl same
        · rename_i other
          rw [sound q, free.1]
          exact iff_of_false (by rintro ⟨⟩) other
      · unfold Cpu.dispatch setRunning setState
        rw [modify_proc]
        split
        · rename_i same
          rw [same]
        · rfl
    · contradiction
  | tick =>
    cases step
    exact .tick rfl sameClock_wakeup
  | sched how =>
    obtain ⟨p, runs, rfl⟩ := Option.map_eq_some_iff.mp step
    obtain ⟨t', state, other, clock, leaves⟩ := leave_clock (t := s.table) (p := p) (q := q) how
    obtain ⟨running, charged⟩ := setState_clock (t := t') (p := p) (q := q) other
    have final : (s.sched how p).table.proc q = if q = p then { (t'.setState p state).proc p with
        ticks := int (((t'.setState p state).proc p).ticks + (t'.ticks - t'.ticksLastStart)) }
        else (t'.setState p state).proc q := by
      unfold Cpu.sched
      rw [leaves]
      exact modify_proc (t := t'.setState p state) (p := p) (fun proc => { proc with
        ticks := int (proc.ticks + (t'.ticks - t'.ticksLastStart)) }) q
    refine .sched runs rfl ?_ ?_
    · have left : ((t'.setState p state).proc q).state ≠ .running := by
        rw [Ne, running, clock.running, sound q, runs]
        rintro ⟨differs, ⟨⟩⟩
        exact differs rfl
      rw [final]
      split
      · rename_i same
        exact same ▸ left
      · exact left
    · rw [final, ← clock.charged, ← clock.ticks, ← clock.lastStart, ← charged]
      split
      · rename_i same
        rw [same]
      · rfl
  | wake p =>
    simp only [Cpu.step] at step
    split at step
    · rename_i asleep
      cases step
      exact .same rfl (sameClock_wake asleep) (by constructor <;> rintro ⟨⟩)
    · contradiction
  | fork np =>
    simp only [Cpu.step] at step
    split at step
    · rename_i unused
      obtain ⟨p, runs, rfl⟩ := Option.map_eq_some_iff.mp step
      by_cases own : q = np
      · subst own
        refine .begins (.inl rfl) rfl ⟨by simp [unused], ?_⟩ ?_
        · simp [Cpu.fork, publish, setState]
        · simp [Cpu.fork, publish, setState, setParent, Table.inherit]
      · have same : (s.fork p np).table.proc q = s.table.proc q := by
          simp [Cpu.fork, publish, setState, setParent, Table.inherit, setUsed, allocpid, own]
        exact .same rfl (.of_proc same rfl rfl) ⟨by rintro ⟨⟩, fun forked => own (CpuEvent.fork.inj forked).symm⟩
    · contradiction
  | reap p =>
    simp only [Cpu.step] at step
    split at step
    · rename_i zombie
      cases step
      by_cases own : q = p
      · subst own
        refine .begins (.inr rfl) rfl ⟨by simp [zombie], ?_⟩ ?_
        · simp [free]
        · simp [free, freeFields]
      · have withdrawn := sameClock_withdraw (t := s.table.freeFields p) (p := p) (q := q)
        have same : ((s.table.freeFields p).free p).proc q = s.table.proc q := by simp [free, freeFields, own]
        exact .same rfl (.of_proc same withdrawn.ticks withdrawn.lastStart) (by constructor <;> rintro ⟨⟩)
    · contradiction

theorem Cpu.Sound.step (sound : s.Sound) (step : s.step e = some s') : s'.Sound := by
  intro q
  cases sound.clocks step q with
  | same proc clock _ => rw [proc, clock.running, sound q]
  | dispatch idle proc running _ _ =>
    rw [proc, running, Option.some.injEq]
    exact eq_comm
  | tick proc clock => rw [proc, clock.running, ← sound q]; rfl
  | sched runs proc running _ =>
    rw [proc]
    exact iff_of_false running nofun
  | begins own proc running _ =>
    rw [proc, ← sound q]
    exact iff_of_false running.2 running.1

/-- What process `q` has been charged, and what it will be charged for this slice, against `n` ticks. -/
structure Cpu.Charged (s : Cpu) (q : ProcId) (n : Nat) : Prop where
  stopped : (s.table.proc q).state ≠ .running → (s.table.proc q).ticks = int n
  runs : (s.table.proc q).state = .running →
    int ((s.table.proc q).ticks + (s.table.ticks - s.table.ticksLastStart)) = int n

theorem int_int_add (x y : Int) : int (int x + y) = int (x + y) := Int.bmod_add_bmod ..

theorem int_uint_add (x y : Int) : int (x + uint (y + 1)) = int (x + y + 1) := by
  have same : (x + uint (y + 1)) % (2 ^ 32 : Nat) = (x + y + 1) % (2 ^ 32 : Nat) := by
    unfold uint
    omega
  unfold int
  rw [Int.bmod_def, Int.bmod_def, same]

theorem Cpu.Charged.step (charged : s.Charged q n) (sound : s.Sound) (step : s.step e = some s')
    (lives : e ≠ .fork q ∧ e ≠ .reap q) (prompt : ∀ p, e = .dispatch p → s.table.ticks = s.table.ticksLastStart) :
    s'.Charged q (n + if e = .tick ∧ (s.table.proc q).state = .running then 1 else 0) := by
  cases sound.clocks step q with
  | same proc clock quiet =>
    rw [if_neg fun tick => quiet.1 tick.1, Nat.add_zero]
    refine ⟨fun stopped => ?_, fun runs => ?_⟩
    · rw [clock.charged, charged.stopped (mt clock.running.mpr stopped)]
    · rw [clock.charged, clock.ticks, clock.lastStart, charged.runs (clock.running.mp runs)]
  | @dispatch p _ idle proc running same ticks =>
    have before : (s.table.proc q).ticks = int n := charged.stopped (by rw [Ne, sound q, idle]; exact nofun)
    rw [if_neg fun tick => nomatch tick.1, Nat.add_zero]
    refine ⟨fun _ => same.trans before, fun _ => ?_⟩
    rw [same, ticks.1, ticks.2, prompt p rfl, sub_self, add_zero, before]
    exact Int.bmod_bmod ..
  | tick proc clock =>
    refine ⟨fun stopped => ?_, fun runs => ?_⟩
    · have before := mt clock.running.mpr stopped
      rw [if_neg fun tick => before tick.2, clock.charged]
      exact charged.stopped before
    · have before := clock.running.mp runs
      have ticks : s'.table.ticks = uint (s.table.ticks + 1) := clock.ticks
      have lastStart : s'.table.ticksLastStart = s.table.ticksLastStart := clock.lastStart
      have same : (s'.table.proc q).ticks = (s.table.proc q).ticks := clock.charged
      rw [if_pos ⟨rfl, before⟩, same, ticks, lastStart, add_sub_left_comm, add_comm _ (_ - _), int_uint_add]
      rw [Nat.cast_add, ← int_int_add n, ← charged.runs before, int_int_add]
      refine congrArg int ?_
      omega
  | @sched p how _ runs proc running same =>
    rw [if_neg fun tick => nomatch tick.1, Nat.add_zero]
    refine ⟨fun _ => ?_, fun wrong => absurd wrong running⟩
    rw [same]
    split
    · rename_i own
      exact charged.runs ((sound q).mpr (own ▸ runs))
    · rename_i other
      refine charged.stopped fun wrong => other ?_
      exact Option.some.inj (((sound q).mp wrong).symm.trans runs)
  | begins own _ _ _ => exact (own.elim lives.1 lives.2).elim

end Steps

theorem Cpu.boot_sound : Cpu.boot.Sound := by
  unfold Cpu.Sound
  decide +kernel

theorem Cpu.boot_charged (q : ProcId) : Cpu.boot.Charged q 0 := by
  refine ⟨fun _ => ?_, fun running => absurd ((Cpu.boot_sound q).mp running) nofun⟩
  revert q
  decide +kernel

namespace CpuRun

variable {r : CpuRun} {p : ProcId} {i j : Nat}

theorem sound (within : j ≤ r.length) : (r.state j).Sound :=
  r.invariant (fun _ start => start ▸ Cpu.boot_sound) (fun k before ok => ok.step (r.step k before)) within

theorem Lives.charged_first (lives : r.Lives p i j) : (r.state i).Charged p 0 := by
  rcases lives.begins with rfl | ⟨k, rfl, forked⟩
  · rw [r.start]
    exact Cpu.boot_charged p
  · have within := lives.ordered
    have before : k < r.length := by omega
    have step := r.step k before
    rw [forked] at step
    cases (r.sound (before.le)).clocks step p with
    | begins _ _ running charged => exact ⟨fun _ => charged, fun wrong => absurd wrong running.2⟩
    | same _ _ quiet => exact absurd rfl quiet.2

theorem Lives.charged (lives : r.Lives p i j) (prompt : r.Prompt j) : (r.state j).Charged p (r.ran p i j) := by
  obtain ⟨d, rfl⟩ := Nat.exists_eq_add_of_le lives.ordered.1
  induction d with
  | zero =>
    unfold ran
    rw [Nat.add_zero, r.count_self]
    exact lives.charged_first
  | succ d ih =>
    have bound := lives.ordered.2
    have before : i + d < r.length := by omega
    have now := ih ⟨lives.begins, ⟨Nat.le_add_right .., before.le⟩, fun k first last => lives.goes k first (by omega)⟩
      fun k less => prompt k (by omega)
    have next := now.step (sound before.le) (r.step _ before) (lives.goes _ (Nat.le_add_right ..) (by omega))
      (prompt (i + d) (by omega))
    unfold ran at next ⊢
    rw [← Nat.add_assoc, r.count_succ _ (Nat.le_add_right ..)]
    simpa using next

/-- In a run in which every process is selected at the tick at which the last one has stopped, a process is charged
the ticks that have come while it was RUNNING. -/
theorem charges_running_time (lives : r.Lives p i j) (prompt : r.Prompt j) : r.Charges p i j :=
  (lives.charged prompt).stopped

def slice : CpuRun :=
  .ofEvents .boot rfl [.dispatch 0, .tick, .sched .yield] .tick (by decide +kernel)

theorem slice_charged : slice.Charges 0 0 3 ∧ ((slice.state 3).table.proc 0).ticks = 1 :=
  ⟨charges_running_time ⟨.inl rfl, by decide +kernel, by decide +kernel⟩ (by unfold Prompt; decide +kernel),
    by decide +kernel⟩

/-- The only process sleeps, the clock ticks, the process is woken and stops again. -/
def idleTick : CpuRun :=
  .ofEvents .boot rfl [.dispatch 0, .sched .sleep, .tick, .wake 0, .dispatch 0, .sched .yield] .tick (by decide +kernel)

theorem idleTick_charged : idleTick.Lives 0 0 6 ∧ idleTick.ran 0 0 6 = 0 ∧ ¬idleTick.Charges 0 0 6 := by
  refine ⟨⟨.inl rfl, by decide +kernel, by decide +kernel⟩, by decide +kernel, ?_⟩
  unfold Charges
  decide +kernel

end CpuRun

end DeisoXv6
