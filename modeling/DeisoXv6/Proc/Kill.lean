import DeisoXv6.Proc.Tickets

/-! kill against the recycling of slots. kill() compares `p->pid` and does not look at the state, so that it relies
on the pids that freeproc leaves behind. -/

set_option autoImplicit false

namespace DeisoXv6

open List

namespace Table

def killSlot (t : Table) (p : ProcId) : Table :=
  if ((t.setKilled p).proc p).state = .sleeping then (t.setKilled p).wake p else t.setKilled p

/-- The loop of kill over `proc[]`, with its return value. -/
def killLoop (t : Table) (pid : Int) : List ProcId → Int × Table
  | [] => (-1, t)
  | p :: ps => if (t.proc p).pid = pid then (0, t.killSlot p) else killLoop t pid ps

def kill (t : Table) (pid : Int) : Int × Table := t.killLoop pid (List.finRange NPROC)

/-- An unused slot has been cleared by freeproc, or never been used. -/
def Cleared (t : Table) : Prop := ∀ p, (t.proc p).state = .unused → (t.proc p).pid = 0 ∧ (t.proc p).killed = false

/-- kill finds a process if there is one, and changes no other slot than its own. -/
structure KillsLive (t : Table) (pid : Int) : Prop where
  returns : (t.kill pid).1 = 0 ↔ ∃ p, (t.proc p).state ≠ .unused ∧ (t.proc p).pid = pid
  marks : (t.kill pid).1 = 0 → ∃ p, (t.proc p).state ≠ .unused ∧ (t.proc p).pid = pid ∧
    ∀ q, (t.kill pid).2.proc q = if q = p then { t.proc p with
      killed := true
      state := if (t.proc p).state = .sleeping then .runnable else (t.proc p).state } else t.proc q
  fails : (t.kill pid).1 ≠ 0 → t.kill pid = (-1, t)

variable {t : Table} {p q : ProcId} {pid : Int}

theorem killSlot_proc : (t.killSlot p).proc q = if q = p then { t.proc p with
    killed := true
    state := if (t.proc p).state = .sleeping then .runnable else (t.proc p).state } else t.proc q := by
  have same : ((t.setKilled p).proc p).state = (t.proc p).state := by simp [setKilled]
  rw [killSlot, same]
  by_cases asleep : (t.proc p).state = .sleeping <;> by_cases own : q = p <;>
    simp [asleep, own, wake, setState, setKilled]

theorem killLoop_cases (t : Table) (pid : Int) (ps : List ProcId) :
    (∃ p ∈ ps, (t.proc p).pid = pid ∧ t.killLoop pid ps = (0, t.killSlot p)) ∨
      (∀ p ∈ ps, (t.proc p).pid ≠ pid) ∧ t.killLoop pid ps = (-1, t) := by
  induction ps with
  | nil => exact .inr ⟨nofun, rfl⟩
  | cons p ps ih =>
    by_cases found : (t.proc p).pid = pid
    · exact .inl ⟨p, mem_cons_self, found, if_pos found⟩
    · rw [killLoop, if_neg found]
      rcases ih with ⟨q, mem, same, ran⟩ | ⟨missing, ran⟩
      · exact .inl ⟨q, mem_cons_of_mem _ mem, same, ran⟩
      · refine .inr ⟨fun q mem => ?_, ran⟩
        rcases mem_cons.mp mem with rfl | mem
        · exact found
        · exact missing q mem

theorem Cleared.killsLive (cleared : t.Cleared) (some : pid ≠ 0) : t.KillsLive pid := by
  have live : ∀ p, (t.proc p).pid = pid → (t.proc p).state ≠ .unused := by
    intro p same unused
    exact some (same.symm.trans (cleared p unused).1)
  rcases killLoop_cases t pid (List.finRange NPROC) with ⟨p, -, same, ran⟩ | ⟨missing, ran⟩
  · have killed : t.kill pid = (0, t.killSlot p) := ran
    refine ⟨?_, ?_, ?_⟩ <;> rw [killed]
    · exact ⟨fun _ => ⟨p, live p same, same⟩, fun _ => rfl⟩
    · exact fun _ => ⟨p, live p same, same, fun q => killSlot_proc⟩
    · exact fun failed => absurd rfl failed
  · have failed : t.kill pid = (-1, t) := ran
    refine ⟨?_, ?_, ?_⟩ <;> rw [failed]
    · refine ⟨nofun, ?_⟩
      rintro ⟨p, -, same⟩
      exact absurd same (missing p (mem_finRange p))
    · exact nofun
    · exact fun _ => rfl

theorem Cleared.boot : Table.boot.Cleared := fun _ _ => ⟨rfl, rfl⟩

theorem Cleared.congr {u : Table} (cleared : t.Cleared) (slots : u.proc = t.proc) : u.Cleared := by
  rw [Cleared, slots]
  exact cleared

theorem Cleared.store {u : Table} (cleared : t.Cleared) (p : ProcId) (others : ∀ q, q ≠ p → u.proc q = t.proc q)
    (own : (u.proc p).state = .unused → (u.proc p).pid = 0 ∧ (u.proc p).killed = false) : u.Cleared := by
  intro q unused
  by_cases same : q = p
  · subst same
    exact own unused
  · rw [others q same] at unused ⊢
    exact cleared q unused

theorem Cleared.wake (cleared : t.Cleared) : (t.wake p).Cleared :=
  cleared.store p (fun q other => by simp [Table.wake, setState, other]) (by simp [Table.wake, setState])

theorem Cleared.userinit (cleared : t.Cleared) : t.userinit.Cleared := by
  unfold Table.userinit
  split
  · exact cleared
  · rename_i p _
    refine cleared.store p (fun q other => ?_) ?_
    · simp [Table.publish, setState, setUsed, allocpid, other]
    · simp [Table.publish, setState]

end Table

namespace Forks

open Table

variable {s : Forks} {p : ProcId} {pid : Int}

def killSections (t : Table) (pid : Int) : List ProcId → List Section
  | [] => []
  | p :: ps => .kill p pid :: if (t.proc p).pid = pid then [] else killSections t pid ps

theorem run_killSections (s : Forks) (pid : Int) (ps : List ProcId) :
    run s (killSections s.table pid ps) = { s with table := (s.table.killLoop pid ps).2 } := by
  induction ps with
  | nil => rfl
  | cons p ps ih =>
    by_cases found : (s.table.proc p).pid = pid
    · simp only [killSections, run, Forks.step, killLoop, if_pos found]
      rfl
    · simp only [killSections, run, Forks.step, killLoop, if_neg found]
      exact ih

def Sane : Section → Prop
  | .kill _ pid => pid ≠ 0
  | _ => True

instance Sane.decidable : (e : Section) → Decidable (Sane e)
  | .kill _ pid => inferInstanceAs (Decidable (pid ≠ 0))
  | .userinit | .fork _ _ | .allocFails _ | .setParent _ _ | .publish _ | .freeproc _ | .reparent _ | .exit _ _
  | .sleep _ _ | .wakeup _ _ | .yield _ | .settickets _ _ | .pick | .setRunning _ => isTrue trivial

theorem cleared_step {e : Section} (cleared : s.table.Cleared) (sane : Sane e) (legal : s.Legal e) :
    (s.step e).table.Cleared := by
  cases e with
  | userinit => exact cleared.userinit
  | fork p np =>
    refine cleared.store np (fun q other => ?_) ?_
    · simp [Forks.step, Table.inherit, setUsed, setState, allocpid, other]
    · simp [Forks.step, Table.inherit, setUsed, setState]
  | allocFails np =>
    refine cleared.store np (fun q other => ?_) fun _ => ?_
    · simp [Forks.step, Table.free, freeFields, setUsed, setState, allocpid, other]
    · simp [Forks.step, Table.free, freeFields]
  | setParent p np =>
    refine cleared.store np (fun q other => ?_) ?_
    · simp [Forks.step, Table.setParent, other]
    · simpa [Forks.step, Table.setParent] using cleared np
  | publish np =>
    refine cleared.store np (fun q other => ?_) ?_
    · simp [Forks.step, Table.publish, setState, other]
    · simp [Forks.step, Table.publish, setState]
  | freeproc p =>
    refine cleared.store p (fun q other => ?_) fun _ => ?_
    · simp [Forks.step, Table.free, freeFields, other]
    · simp [Forks.step, Table.free, freeFields]
  | reparent p =>
    refine cleared.store p (fun q other => ?_) ?_
    · simp [Forks.step, Table.reparent, other]
    · simpa [Forks.step, Table.reparent] using cleared p
  | exit p status =>
    refine cleared.store p (fun q other => ?_) ?_
    · simp [Forks.step, Table.exit, setState, setXstate, other]
    · simp [Forks.step, Table.exit, setState]
  | sleep p chan =>
    refine cleared.store p (fun q other => ?_) ?_
    · simp [Forks.step, Table.sleep, setState, setChan, other]
    · simp [Forks.step, Table.sleep, setState]
  | wakeup p chan =>
    simp only [Forks.step]
    split
    · exact cleared.wake
    · exact cleared
  | kill p pid =>
    by_cases found : (s.table.proc p).pid = pid
    · have ran : (s.step (.kill p pid)).table = s.table.killSlot p := by
        simp only [Forks.step, if_pos found]
        rfl
      rw [ran]
      refine cleared.store p (fun q other => killSlot_proc.trans (if_neg other)) fun unused => ?_
      -- a slot that is unused after the kill was unused before it, and then its pid is 0
      rw [killSlot_proc, if_pos rfl] at unused
      dsimp only at unused
      split at unused
      · cases unused
      · exact absurd (found.symm.trans (cleared p unused).1) sane
    · simpa only [Forks.step, if_neg found] using cleared
  | yield p =>
    have running : (s.table.proc p).state = .running := legal
    refine cleared.store p (fun q other => ?_) ?_
    · simp [Forks.step, Table.yield, setState, running, other]
    · simp [Forks.step, Table.yield, setState]
  | settickets p n =>
    simp only [Forks.step]
    split
    · exact cleared
    · refine cleared.store p (fun q other => ?_) ?_
      · simp [Table.settickets, other]
      · simpa [Table.settickets] using cleared p
  | pick =>
    simp only [Forks.step, Table.pick]
    split
    · exact cleared
    · exact cleared.congr rfl
  | setRunning p =>
    refine cleared.store p (fun q other => ?_) ?_
    · simp [Forks.step, Table.setRunning, setState, other]
    · simp [Forks.step, Table.setRunning, setState]

theorem cleared_run {es : List Section} (cleared : s.table.Cleared) (sane : ∀ e ∈ es, Sane e) (legal : LegalRun s es) :
    (run s es).table.Cleared := by
  induction es generalizing s with
  | nil => exact cleared
  | cons e es ih =>
    have next := cleared_step cleared (sane e mem_cons_self) legal.1
    exact ih next (fun e mem => sane e (mem_cons_of_mem _ mem)) legal.2

/-- In every run without a kill(0), a kill with another pid reaches a process that is in use if and only if there is
one with that pid, and a slot that fork takes is not marked killed. -/
theorem kill_reaches_live (es : List Section) (legal : LegalRun boot es) (sane : ∀ e ∈ es, Sane e) :
    (∀ pid, pid ≠ 0 → (run boot es).table.KillsLive pid) ∧
    ∀ p np, (run boot es).Legal (.fork p np) → (((run boot es).step (.fork p np)).table.proc np).killed = false := by
  have cleared := cleared_run .boot sane legal
  refine ⟨fun pid some => cleared.killsLive some, fun p np unused => ?_⟩
  have before := (cleared np unused).2
  simpa [Forks.step, Table.inherit, setUsed, setState, allocpid] using before

def killedChild : List Section :=
  [.userinit, .pick, .setRunning 0, .fork 0 1, .setParent 0 1, .publish 1, .kill 0 2, .kill 1 2, .setRunning 1,
    .exit 1 (-1), .freeproc 1]

theorem killedChild_kill_reaches_live : LegalRun boot killedChild ∧ (∀ e ∈ killedChild, Sane e) ∧
    (run boot killedChild).table.KillsLive 2 ∧
    (((run boot killedChild).step (.fork 0 1)).table.proc 1).killed = false := by
  have legal : LegalRun boot killedChild := by decide +kernel
  have sane : ∀ e ∈ killedChild, Sane e := by decide +kernel
  obtain ⟨live, fresh⟩ := kill_reaches_live killedChild legal sane
  exact ⟨legal, sane, live 2 (by decide), fresh 0 1 (by decide +kernel)⟩

/-- After boot no process has pid 0, and yet kill(0) returns 0; it marks slot 1, which is unused, and the child that
init then forks into that slot is killed from the start. -/
theorem kill_zero_marks_unused : LegalRun boot [.userinit] ∧ ((run boot [.userinit]).table.kill 0).1 = 0 ∧
    (¬∃ p, ((run boot [.userinit]).table.proc p).state ≠ .unused ∧ ((run boot [.userinit]).table.proc p).pid = 0) ∧
    LegalRun boot [.userinit, .kill 0 0, .kill 1 0, .pick, .setRunning 0, .fork 0 1] ∧
    ((run boot [.userinit, .kill 0 0, .kill 1 0]).table = ((run boot [.userinit]).table.kill 0).2) ∧
    ((run boot [.userinit, .kill 0 0, .kill 1 0, .pick, .setRunning 0, .fork 0 1]).table.proc 1).killed = true := by
  refine ⟨by decide +kernel, by decide +kernel, by decide +kernel, by decide +kernel, ?_, by decide +kernel⟩
  have call := run_killSections (run boot [.userinit]) 0 (List.finRange NPROC)
  have sections : killSections (run boot [.userinit]).table 0 (List.finRange NPROC) = [.kill 0 0, .kill 1 0] := by
    decide +kernel
  rw [sections] at call
  exact congrArg Forks.table call

end Forks

end DeisoXv6
