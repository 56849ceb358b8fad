import DeisoXv6.Proc.Runs

/-! A process runs on at most one CPU, as long as no scheduler picks a process that another CPU has
picked and not yet marked RUNNING. scheduler() releases tickets_lock between its pick and that store,
so without the condition two CPUs can switch to one process. -/

set_option autoImplicit false

namespace DeisoXv6

open LockProgram LockProgram.Stmt

namespace Machine

variable {n : Nat}

def OneCpu (m : Machine n) : Prop :=
  ∀ c c' p, m.shared.proc c = some p → m.shared.proc c' = some p → c = c'

/-- A scheduler that gets the lock of the process it has selected finds it RUNNABLE. -/
def LocksRunnable (m : Machine n) : Prop :=
  ∀ c p, m.code (m.running c) = selected p → m.Free (.proc p) → (m.table.proc p).state = .runnable

end Machine

variable {n : Nat} {m : Machine n} {stage : Fin n → Stage} {c : Fin n}

theorem Inv.engaged_of_proc (inv : Inv m stage) {p : ProcId} (current : m.shared.proc c = some p) :
    (stage c).engaged = some p := by
  have phase := inv.phase c
  cases at_ : stage c with
  | leaving q | away q | back q =>
    rw [at_] at phase
    exact phase.2.1.symm.trans current
  | idle | selecting q | chosen q | marking q | posting q =>
    rw [at_] at phase
    rw [phase.2.1] at current
    contradiction

theorem Inv.oneCpu (inv : Inv m stage) : m.OneCpu := fun c c' p first second =>
  inv.alone c c' p (inv.engaged_of_proc first) (inv.engaged_of_proc second)

theorem Inv.locksRunnable (inv : Inv m stage) : m.LocksRunnable := fun c p code _ =>
  inv.marks c p (by rw [inv.selecting_of_selected code]; rfl)

/-- In every state of every run in which schedulers pick unclaimed processes only. -/
theorem one_cpu_per_process {es : List (Event n)} (ran : (Machine.boot n).run es = some m)
    (unclaimed : Machine.Along PicksUnclaimed (Machine.boot n) es) : m.OneCpu ∧ m.LocksRunnable := by
  obtain ⟨stage, inv⟩ := inv_of_run ran unclaimed
  exact ⟨inv.oneCpu, inv.locksRunnable⟩

def forkedPair : List (Event 2) :=
  List.replicate 9 (.cpu 0 .go) ++ .cpu 0 (.call .fork) :: List.replicate 22 (.cpu 0 .go) ++
    List.replicate 8 (.cpu 1 .go)

theorem forkedPair_one_cpu : ∃ m, (Machine.boot 2).run forkedPair = some m ∧
    m.shared.proc 0 = some 0 ∧ m.shared.proc 1 = some 1 ∧ m.OneCpu ∧ m.LocksRunnable := by
  have both : ((Machine.boot 2).run forkedPair).map (fun m => (m.shared.proc 0, m.shared.proc 1)) =
      some (some 0, some 1) := by decide +kernel
  obtain ⟨m, ran, procs⟩ := Option.map_eq_some_iff.mp both
  exact ⟨m, ran, congrArg Prod.fst procs, congrArg Prod.snd procs, one_cpu_per_process ran (by decide +kernel)⟩

/-- CPU 1 picks process 0 while CPU 0 has released tickets_lock and not yet stored RUNNING. -/
def doublePick : List (Event 2) :=
  [.cpu 0 .go, .cpu 0 .go, .cpu 0 .go, .cpu 0 .go, .cpu 0 .go, .cpu 1 .go, .cpu 1 .go, .cpu 1 .go,
    .cpu 0 .go, .cpu 0 .go, .cpu 0 .go, .cpu 0 .go,
    .cpu 1 .go, .cpu 1 .go, .cpu 1 .go, .cpu 1 .go]

theorem doublePick_two_cpus : ∃ m, (Machine.boot 2).run doublePick = some m ∧ ¬m.OneCpu := by
  have both : ((Machine.boot 2).run doublePick).map (fun m => (m.shared.proc 0, m.shared.proc 1)) =
      some (some 0, some 0) := by decide +kernel
  obtain ⟨m, ran, procs⟩ := Option.map_eq_some_iff.mp both
  refine ⟨m, ran, fun one => ?_⟩
  have same := one 0 1 0 (congrArg Prod.fst procs) (congrArg Prod.snd procs)
  contradiction

end DeisoXv6
