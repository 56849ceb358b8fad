import DeisoXv6.Proc.Table
import Mathlib.Algebra.BigOperators.Fin

/-! Ticket conservation: the counter of the lottery against the process table.

A state between two sections is one in which tickets_lock is free. The sections of different
functions interleave freely here; only what its own caller has just established under `p->lock`
restricts a section. -/

set_option autoImplicit false

namespace DeisoXv6

open Finset Table

def share (proc : Proc) : Int := if Counted proc.state then proc.tickets else 0

def Table.exactTickets (t : Table) : Int := ∑ p, share (t.proc p)

def Table.Conserved (t : Table) : Prop := t.totalTickets = uint t.exactTickets

section Shares

variable {proc : Proc}

theorem share_counted (counted : Counted proc.state) : share proc = proc.tickets := if_pos counted

theorem share_of_not_counted (idle : ¬ Counted proc.state) : share proc = 0 := if_neg idle

theorem share_of_state (state : ProcState) (same : proc.state = state) (idle : ¬ Counted state) :
    share proc = 0 := share_of_not_counted (same ▸ idle)

end Shares

theorem uint_uint_add (a b : Int) : uint (uint a + b) = uint (a + b) := Int.emod_add_emod ..

namespace Table

variable {t : Table} {p : ProcId}

theorem exactTickets_modify (f : Proc → Proc) :
    (t.modify p f).exactTickets = t.exactTickets + (share (f (t.proc p)) - share (t.proc p)) := by
  have before : t.exactTickets = share (t.proc p) + ∑ q ∈ Finset.univ.erase p, share (t.proc q) :=
    (add_sum_erase _ _ (mem_univ p)).symm
  have after : (t.modify p f).exactTickets = share (f (t.proc p)) + ∑ q ∈ Finset.univ.erase p, share (t.proc q) := by
    rw [exactTickets, ← add_sum_erase _ _ (mem_univ p), modify_proc, if_pos rfl]
    congr 1
    refine sum_congr rfl fun q other => ?_
    rw [modify_proc, if_neg (ne_of_mem_erase other)]
  omega

theorem Conserved.congr {u : Table} (kept : t.Conserved) (slots : u.proc = t.proc)
    (total : u.totalTickets = t.totalTickets) : u.Conserved := by
  rw [Conserved, exactTickets, slots, total]
  exact kept

variable {f : Proc → Proc}

section

variable (kept : t.Conserved)

include kept

theorem Conserved.modify (same : share (f (t.proc p)) = share (t.proc p)) : (t.modify p f).Conserved := by
  rw [Conserved, exactTickets_modify, same, sub_self, add_zero]
  exact kept

theorem Conserved.adjust {x : Int} (change : share (f (t.proc p)) = share (t.proc p) + x) :
    ((t.addTickets x).modify p f).Conserved := by
  have moved : ((t.addTickets x).modify p f).exactTickets = t.exactTickets + x := by
    have delta := exactTickets_modify (t := t.addTickets x) (p := p) f
    rw [delta, addTickets_proc, change]
    change t.exactTickets + _ = _
    omega
  rw [Conserved, moved, modify_totalTickets, addTickets_totalTickets, kept, uint_uint_add]

theorem Conserved.withdraw (leaves : share (f (t.proc p)) = 0) : ((t.withdraw p).modify p f).Conserved := by
  by_cases counted : Counted (t.proc p).state
  · rw [Table.withdraw, if_pos counted]
    exact kept.adjust (by rw [leaves, share_counted counted, add_neg_cancel])
  · rw [Table.withdraw, if_neg counted]
    exact kept.modify (by rw [leaves, share_of_not_counted counted])

theorem Conserved.yield : (t.yield p).Conserved := by
  by_cases counted : Counted (t.proc p).state
  · have stays : ¬ ((t.proc p).state ≠ .runnable ∧ (t.proc p).state ≠ .running) := by
      rintro ⟨notRunnable, notRunning⟩
      exact counted.elim notRunning notRunnable
    simp only [Table.yield, if_neg stays]
    exact kept.modify (by rw [share_counted counted, share_counted (Or.inr rfl)])
  · have enters : (t.proc p).state ≠ .runnable ∧ (t.proc p).state ≠ .running :=
      ⟨fun same => counted (Or.inr same), fun same => counted (Or.inl same)⟩
    simp only [Table.yield, if_pos enters]
    refine kept.adjust ?_
    rw [share_of_not_counted counted, share_counted (Or.inr rfl), zero_add]

theorem Conserved.sleep : (t.sleep p).Conserved :=
  kept.withdraw (share_of_state .sleeping rfl (by decide))

theorem Conserved.exit : (t.exit p).Conserved :=
  kept.withdraw (share_of_state .zombie rfl (by decide))

theorem Conserved.free : (t.free p).Conserved :=
  kept.withdraw (share_of_state .unused rfl (by decide))

theorem Conserved.wake (asleep : (t.proc p).state = .sleeping) : (t.wake p).Conserved := by
  refine kept.adjust (p := p) (f := fun proc => { proc with state := .runnable }) ?_
  rw [share_of_state .sleeping asleep (by decide), share_counted (Or.inr rfl), zero_add]

theorem Conserved.publish (idle : ¬ Counted (t.proc p).state) : (t.publish p).Conserved :=
  kept.adjust (by rw [share_of_not_counted idle, share_counted (Or.inr rfl), zero_add])

theorem Conserved.settickets (counted : Counted (t.proc p).state) (n : Int) : (t.settickets p n).Conserved := by
  have after : share { t.proc p with tickets := n } = n := share_counted counted
  exact kept.adjust (by rw [after, share_counted counted]; omega)

theorem Conserved.setRunning (counted : Counted (t.proc p).state) : (t.setRunning p).Conserved :=
  kept.modify (by rw [share_counted counted, share_counted (Or.inl rfl)])

theorem Conserved.allocproc (unused : (t.proc p).state = .unused) : ((t.allocpid p).setUsed p).Conserved := by
  have numbered : (t.allocpid p).Conserved :=
    (kept.modify (p := p) (f := fun proc => { proc with pid := t.nextpid }) rfl).congr rfl rfl
  have same : ((t.allocpid p).proc p).state = .unused := by simpa [allocpid] using unused
  exact numbered.modify (by
    rw [share_of_state .used rfl (by decide), share_of_state .unused same (by decide)])

theorem Conserved.modify_used (used : (t.proc p).state = .used) (stays : (f (t.proc p)).state = .used) :
    (t.modify p f).Conserved :=
  kept.modify (by rw [share_of_state .used stays (by decide), share_of_state .used used (by decide)])

end

theorem Conserved.boot : Table.boot.Conserved := by
  have empty : Table.boot.exactTickets = 0 := sum_eq_zero fun p _ => rfl
  rw [Conserved, empty]
  rfl

end Table

/-- The table with the slots that a fork has taken from allocproc and not yet made RUNNABLE. -/
structure Forks where
  table : Table
  pending : Finset ProcId

inductive Section where
  | userinit
  | fork : ProcId → ProcId → Section
  | allocFails : ProcId → Section
  | setParent : ProcId → ProcId → Section
  | publish : ProcId → Section
  | freeproc : ProcId → Section
  | reparent : ProcId → Section
  | exit : ProcId → Int → Section
  | sleep : ProcId → Option Chan → Section
  | wakeup : ProcId → Option Chan → Section
  | kill : ProcId → Int → Section
  | yield : ProcId → Section
  | settickets : ProcId → Int32 → Section
  | pick
  | setRunning : ProcId → Section
  deriving DecidableEq

namespace Forks

def boot : Forks := ⟨.boot, ∅⟩

def step (s : Forks) : Section → Forks
  | .userinit => { s with table := s.table.userinit }
  -- allocproc and the copies that fork makes before it first releases np->lock
  | .fork p np => ⟨((s.table.allocpid np).setUsed np).inherit p np, insert np s.pending⟩
  | .allocFails np => { s with table := (((s.table.allocpid np).setUsed np).freeFields np).free np }
  | .setParent p np => { s with table := s.table.setParent p np }
  | .publish np => ⟨s.table.publish np, s.pending.erase np⟩
  -- in wait, and in fork after a failed copy
  | .freeproc p => ⟨(s.table.freeFields p).free p, s.pending.erase p⟩
  | .reparent p => { s with table := s.table.reparent p }
  | .exit p status => { s with table := (s.table.setXstate p status).exit p }
  | .sleep p chan => { s with table := (s.table.setChan p chan).sleep p }
  | .wakeup p chan => { s with table := if s.table.SleepsOn p chan then s.table.wake p else s.table }
  | .kill p pid =>
    if (s.table.proc p).pid = pid then
      let t := s.table.setKilled p
      { s with table := if (t.proc p).state = .sleeping then t.wake p else t }
    else s
  | .yield p => { s with table := s.table.yield p }
  | .settickets p n =>
    if n.toInt < MINTICKETS then s else { s with table := s.table.settickets p n.toInt }
  | .pick => { s with table := s.table.pick.2 }
  | .setRunning p => { s with table := s.table.setRunning p }

/-- A process that sleeps, yields, exits or sets its tickets is RUNNING. allocproc has found its
slot UNUSED, a fork writes to the slot it has pending, and the store of the scheduler meets a
process that was RUNNABLE when it was picked and may since have been picked by another CPU. -/
def Legal (s : Forks) : Section → Prop
  | .fork _ np | .allocFails np => (s.table.proc np).state = .unused
  | .setParent _ np | .publish np => np ∈ s.pending
  | .exit p _ | .sleep p _ | .yield p | .settickets p _ => (s.table.proc p).state = .running
  | .setRunning p => Counted (s.table.proc p).state
  | _ => True

instance Legal.decidable (s : Forks) : (e : Section) → Decidable (s.Legal e)
  | .fork _ np | .allocFails np => inferInstanceAs (Decidable ((s.table.proc np).state = .unused))
  | .setParent _ np | .publish np => inferInstanceAs (Decidable (np ∈ s.pending))
  | .exit p _ | .sleep p _ | .yield p | .settickets p _ =>
    inferInstanceAs (Decidable ((s.table.proc p).state = .running))
  | .setRunning p => inferInstanceAs (Decidable (Counted (s.table.proc p).state))
  | .userinit | .freeproc _ | .reparent _ | .wakeup _ _ | .kill _ _ | .pick => isTrue trivial

def run : Forks → List Section → Forks
  | s, [] => s
  | s, e :: es => run (s.step e) es

def LegalRun : Forks → List Section → Prop
  | _, [] => True
  | s, e :: es => s.Legal e ∧ LegalRun (s.step e) es

instance LegalRun.decidable : (s : Forks) → (es : List Section) → Decidable (LegalRun s es)
  | _, [] => isTrue trivial
  | s, e :: es =>
    have := LegalRun.decidable (s.step e) es
    inferInstanceAs (Decidable (s.Legal e ∧ LegalRun (s.step e) es))

structure Inv (s : Forks) : Prop where
  conserved : s.table.Conserved
  used : ∀ np ∈ s.pending, (s.table.proc np).state = .used

variable {s : Forks} {p : ProcId}

theorem Inv.boot : Inv boot := ⟨.boot, fun _ member => absurd member (notMem_empty _)⟩

section

variable (inv : s.Inv)

include inv

theorem Inv.ne_of_state {state : ProcState} (now : (s.table.proc p).state = state)
    (other : state ≠ .used) : ∀ np ∈ s.pending, np ≠ p := by
  rintro np member rfl
  exact other (now.symm.trans (inv.used np member))

theorem Inv.keep {t : Table} (kept : t.Conserved)
    (same : ∀ np ∈ s.pending, (t.proc np).state = (s.table.proc np).state) : Inv ⟨t, s.pending⟩ :=
  ⟨kept, fun np member => (same np member).trans (inv.used np member)⟩

theorem Inv.ne_of_counted (counted : Counted (s.table.proc p).state) : ∀ np ∈ s.pending, np ≠ p :=
  counted.elim (fun now => inv.ne_of_state now (by decide)) fun now => inv.ne_of_state now (by decide)

theorem Inv.wake (asleep : (s.table.proc p).state = .sleeping) : Inv { s with table := s.table.wake p } := by
  refine inv.keep (inv.conserved.wake asleep) fun np member => ?_
  have other := inv.ne_of_state asleep (by decide) np member
  simp [Table.wake, setState, other]

theorem Inv.userinit : Inv { s with table := s.table.userinit } := by
  unfold Table.userinit
  split
  · exact inv
  · rename_i p found
    have unused : (s.table.proc p).state = .unused := by simpa using List.find?_some found
    have taken : { (s.table.allocpid p).setUsed p with initproc := some p }.Conserved :=
      (inv.conserved.allocproc unused).congr rfl rfl
    have used : (((s.table.allocpid p).setUsed p).proc p).state = .used := by simp [setUsed, setState]
    refine inv.keep ?_ fun np member => ?_
    · refine Conserved.publish (taken.modify_used used used) ?_
      rw [modify_proc, if_pos rfl]
      exact used ▸ (by decide : ¬ Counted .used)
    · have other := inv.ne_of_state unused (by decide) np member
      simp [Table.publish, setState, setUsed, allocpid, other]

theorem Inv.freeproc : Inv (s.step (.freeproc p)) := by
  have cleared : (s.table.freeFields p).Conserved := inv.conserved.modify rfl
  refine ⟨cleared.free, fun np member => ?_⟩
  have other : np ≠ p := ne_of_mem_erase member
  simpa [step, Table.free, freeFields, other] using inv.used np (mem_of_mem_erase member)

theorem Inv.kill {pid : Int} : Inv (s.step (.kill p pid)) := by
  simp only [step]
  split
  · have marked : Inv { s with table := s.table.setKilled p } := by
      refine inv.keep (inv.conserved.modify rfl) fun np _ => ?_
      by_cases same : np = p <;> simp [setKilled, same]
    by_cases asleep : ((s.table.setKilled p).proc p).state = .sleeping
    · simpa only [if_pos asleep] using marked.wake asleep
    · simpa only [if_neg asleep] using marked
  · exact inv

theorem Inv.pick : Inv (s.step .pick) := by
  simp only [step, Table.pick]
  split
  · exact inv
  · exact ⟨inv.conserved.congr rfl rfl, inv.used⟩

theorem Inv.step {e : Section} (legal : s.Legal e) : (s.step e).Inv := by
  cases e with
  | userinit => exact inv.userinit
  | fork p np =>
    have unused : (s.table.proc np).state = .unused := legal
    have used : (((s.table.allocpid np).setUsed np).proc np).state = .used := by
      simp [setUsed, setState]
    refine ⟨(inv.conserved.allocproc unused).modify_used used used, fun slot member => ?_⟩
    rcases mem_insert.mp member with rfl | old
    · simp [Forks.step, Table.inherit, setUsed, setState]
    · have other := inv.ne_of_state unused (by decide) slot old
      simpa [Forks.step, Table.inherit, setUsed, setState, allocpid, other] using inv.used slot old
  | allocFails np =>
    have unused : (s.table.proc np).state = .unused := legal
    have cleared : (((s.table.allocpid np).setUsed np).freeFields np).Conserved :=
      (inv.conserved.allocproc unused).modify rfl
    refine inv.keep cleared.free fun slot member => ?_
    have other := inv.ne_of_state unused (by decide) slot member
    simp [Table.free, freeFields, setUsed, setState, allocpid, other]
  | setParent p np =>
    refine inv.keep (inv.conserved.modify rfl) fun slot _ => ?_
    by_cases same : slot = np <;> simp [Table.setParent, same]
  | publish np =>
    have idle : ¬ Counted (s.table.proc np).state := by rw [inv.used np legal]; decide
    refine ⟨inv.conserved.publish idle, fun slot member => ?_⟩
    have other : slot ≠ np := ne_of_mem_erase member
    simpa [Forks.step, Table.publish, setState, other] using inv.used slot (mem_of_mem_erase member)
  | freeproc p => exact inv.freeproc
  | reparent p =>
    refine inv.keep (inv.conserved.modify rfl) fun slot _ => ?_
    by_cases same : slot = p <;> simp [Table.reparent, same]
  | exit p status =>
    have marked : (s.table.setXstate p status).Conserved := inv.conserved.modify rfl
    refine inv.keep marked.exit fun slot member => ?_
    have other := inv.ne_of_state legal (by decide) slot member
    simp [Table.exit, setState, setXstate, other]
  | sleep p chan =>
    have marked : (s.table.setChan p chan).Conserved := inv.conserved.modify rfl
    refine inv.keep marked.sleep fun slot member => ?_
    have other := inv.ne_of_state legal (by decide) slot member
    simp [Table.sleep, setState, setChan, other]
  | wakeup p chan =>
    by_cases asleep : s.table.SleepsOn p chan
    · simpa only [Forks.step, if_pos asleep] using inv.wake asleep.1
    · simpa only [Forks.step, if_neg asleep] using inv
  | kill p pid => exact inv.kill
  | yield p =>
    refine inv.keep inv.conserved.yield fun slot member => ?_
    have other := inv.ne_of_state legal (by decide) slot member
    have running : (s.table.proc p).state = .running := legal
    simp [Table.yield, setState, running, other]
  | settickets p n =>
    by_cases small : n.toInt < MINTICKETS
    · simpa only [Forks.step, if_pos small] using inv
    · simp only [Forks.step, if_neg small]
      refine inv.keep (inv.conserved.settickets (Or.inl legal) n.toInt) fun slot member => ?_
      have other := inv.ne_of_state legal (by decide) slot member
      simp [Table.settickets, other]
  | pick => exact inv.pick
  | setRunning p =>
    refine inv.keep (inv.conserved.setRunning legal) fun slot member => ?_
    have other := inv.ne_of_counted legal slot member
    simp [Table.setRunning, setState, other]

theorem Inv.run {es : List Section} (legal : LegalRun s es) : (run s es).Inv := by
  induction es generalizing s with
  | nil => exact inv
  | cons e es ih => exact ih (inv.step legal.1) legal.2

end

/-- From boot, whatever the interleaving of the sections, the counter agrees modulo 2^32 with the
tickets of exactly the RUNNABLE and RUNNING processes whenever tickets_lock is free. -/
theorem tickets_conserved (es : List Section) (legal : LegalRun boot es) : (run boot es).table.totalTickets =
      uint (∑ p, if Counted ((run boot es).table.proc p).state then ((run boot es).table.proc p).tickets else 0) :=
  (Inv.boot.run legal).conserved

def family : List Section :=
  [.userinit, .pick, .setRunning 0, .fork 0 1, .setParent 0 1, .publish 1,
    .sleep 0 (some (.proc 0)), .setRunning 1, .settickets 1 70, .wakeup 0 (some (.proc 0)),
    .exit 1 3, .setRunning 0, .freeproc 1, .fork 0 1, .publish 1, .freeproc 1, .allocFails 2,
    .yield 0]

theorem family_tickets_conserved : LegalRun boot family ∧ (run boot family).table.Conserved :=
  have legal : LegalRun boot family := by decide
  ⟨legal, tickets_conserved family legal⟩

end Forks

end DeisoXv6
