import DeisoXv6.Proc.Interleaving

/-! What surrounds the stores into the other fields of a process: `chan`, `parent`, `xstate` and `pid`. Each
store stands in one place of one function, and so do the acquisitions of wait_lock. -/

set_option autoImplicit false

namespace DeisoXv6

open LockProgram LockProgram.Stmt Machine

def exitBody (p : ProcId) (status : Int) : List Stmt :=
  [acquire (.proc p), act (.update (.setXstate p status)), acquire .tickets, act (.leave .exit p),
    release .tickets, release .wait] ++ sched p ++ [act (.zombieExit p)]

def returns : List Stmt := [act .user]

def forkBody (p np : ProcId) : List Stmt :=
  act (.update (.setParent p np)) :: release .wait :: acquire (.proc np) :: acquire .tickets ::
    act (.publish np) :: returns

inductive Entry : List Stmt → Prop where
  | exit (p : ProcId) (status : Int) :
      Entry (act (.reparentFrom p 0) :: act (.wakeParent p) :: (exitBody p status ++ returns))
  | wait (p : ProcId) : Entry (act (.waitFrom p 0 false) :: returns)
  | fork (p np : ProcId) : Entry (forkBody p np)

def Shaped : Stmt → List Stmt → Prop
  | .acquire .wait, k => Entry k
  | .act .user, k => k = []
  | .act (.reparentFrom p _), k => ∃ status, k = act (.wakeParent p) :: (exitBody p status ++ returns)
  | .act (.wakeParent p), k => ∃ status, k = exitBody p status ++ returns
  | .act (.leave .exit p), k =>
    k = release .tickets :: release .wait :: (sched p ++ act (.zombieExit p) :: returns)
  | .act (.update (.setXstate p _)), k =>
    ∃ k', k = acquire .tickets :: act (.leave .exit p) :: k'
  | .act (.update (.setChan p _)), k => holds k (.proc p) = true
  | .act (.update (.setParent p np)), k => act (.update (.setParent p np)) :: k = forkBody p np
  | .act (.update (.freeFields p)), k =>
    ∃ k', k = acquire .tickets :: act (.freeStore p) :: release .tickets :: release (.proc p) :: k'
  | .act (.update (.allocpid np)), k => ∃ p k', k = release .pid :: act (.setUsed p np) :: k'
  | .act (.waitFrom _ _ _), k | .act (.waitCheck _ _), k | .act (.allocFrom _ _), k | .act (.allocCheck _ _), k
  | .act (.setUsed _ _), k | .act (.publish _), k | .act (.forkCopy _), k => k = returns
  | _, _ => True

def Shape : List Stmt → Prop
  | [] => True
  | x :: k => Shaped x k ∧ Shape k

def storer : Act → Option ProcId
  | .update (.setChan p _) | .update (.setXstate p _) | .update (.setParent p _) => some p
  | _ => none

variable {k : List Stmt} {n : Nat} {c : Fin n} {choice : Choice} {locks : List Lock} {s : Shared n} {a : Act}
  {o : Outcome n}

variable {call : Syscall} {code : List Stmt}

section Code

variable {p : ProcId}

@[simp] theorem shape_nil : Shape [] := trivial

theorem shape_returns : Shape returns := ⟨rfl, trivial⟩

@[simp] theorem shape_cons {x : Stmt} : Shape (x :: k) ↔ Shaped x k ∧ Shape k := Iff.rfl

variable {l : Lock} {status : Int}

@[simp] theorem shaped_release : Shaped (release l) k := trivial

theorem shaped_acquire (other : l ≠ .wait) : Shaped (acquire l) k := by
  cases l with
  | wait => exact absurd rfl other
  | _ => trivial

theorem shape_sched (shape : Shape k) : Shape (sched p ++ k) :=
  ⟨trivial, trivial, trivial, trivial, trivial, shape⟩

theorem shape_yield (shape : Shape k) : Shape (yield p ++ k) := by
  rw [yield, List.append_assoc, List.append_assoc]
  exact ⟨trivial, trivial, trivial, trivial, shape_sched ⟨trivial, shape⟩⟩

theorem shape_freeproc (shape : Shape (release (.proc p) :: k)) : Shape (freeproc p ++ release (.proc p) :: k) :=
  ⟨⟨k, rfl⟩, trivial, trivial, trivial, shape⟩

theorem shape_exitBody : Shape (exitBody p status ++ returns) := by
  rw [exitBody, List.append_assoc, List.append_assoc]
  exact ⟨trivial, ⟨_, rfl⟩, trivial, rfl, trivial, trivial, shape_sched ⟨trivial, shape_returns⟩⟩

theorem shape_sleep {chan : Option Chan} {lk : Lock} (reacquires : Shape (acquire lk :: k)) :
    Shape (sleep p chan lk ++ k) := by
  -- setChan is made twice, each time before p->lock is given back
  refine ⟨trivial, trivial, ?_, trivial, trivial, trivial, ?_⟩
  · change holds _ _ = true
    simp [sched, consumes]
  · refine shape_sched ⟨?_, trivial, reacquires⟩
    change holds _ _ = true
    simp

theorem shape_exit : Shape (exit p status ++ returns) := by
  have code : exit p status ++ returns = acquire .wait :: act (.reparentFrom p 0) :: act (.wakeParent p) ::
      (exitBody p status ++ returns) := by
    simp [exit, exitBody]
  rw [code]
  exact ⟨.exit p status, ⟨status, rfl⟩, ⟨status, rfl⟩, shape_exitBody⟩

theorem shape_syscall {t : Table} (ran : syscall t p call = some code) : Shape (code ++ returns) := by
  have shape := shape_returns
  have guarded : ∀ (guard : Guard) {k'}, Shaped (acquire guard.lock) k' := by
    intro guard k'
    apply shaped_acquire
    cases guard <;> simp [Guard.lock]
  cases call with
  | fork =>
    cases ran
    exact ⟨rfl, shape⟩
  | kill pid =>
    cases ran
    exact ⟨trivial, shape⟩
  | wait =>
    cases ran
    exact ⟨.wait p, rfl, shape⟩
  | exit status =>
    simp only [syscall] at ran
    split at ran
    · contradiction
    · cases ran
      exact shape_exit
  | settickets count =>
    cases ran
    unfold settickets
    split
    · exact shape
    · exact ⟨trivial, trivial, trivial, trivial, trivial, shape⟩
  | sleep chan guard =>
    cases ran
    have code : (acquire guard.lock :: sleep p chan guard.lock ++ [release guard.lock]) ++ returns =
        acquire guard.lock :: (sleep p chan guard.lock ++ release guard.lock :: returns) := by simp
    rw [code]
    exact ⟨guarded guard, shape_sleep ⟨guarded guard, trivial, shape⟩⟩
  | wakeup chan guard =>
    cases ran
    exact ⟨guarded guard, trivial, trivial, shape⟩

end Code

theorem exec_shape (ran : exec c choice locks s a = some o) (shape : Shape (act a :: k)) : Shape (o.push ++ k) := by
  obtain ⟨here, rest⟩ := shape
  cases a with
  | user =>
    simp only [exec] at ran
    split at ran
    · split at ran
      · rename_i called
        cases ran
        obtain rfl : k = [] := here
        rw [List.append_nil]
        exact shape_syscall called
      · contradiction
    · contradiction
  | trapYield =>
    simp only [exec] at ran
    split at ran
    · cases ran
      exact shape_yield rest
    · contradiction
  | preempt =>
    simp only [exec] at ran
    split at ran <;> cases ran
    · split
      · exact shape_yield rest
      · exact rest
    · exact rest
  | waitFrom p i havekids =>
    obtain rfl : k = returns := here
    simp only [exec] at ran
    split at ran
    · split at ran <;> cases ran <;> simp [Shaped, rest]
    · split at ran <;> cases ran
      · simp [rest]
      · rw [List.append_assoc]
        exact shape_sleep ⟨.wait p, rfl, rest⟩
  | reparentFrom p i =>
    simp only [exec] at ran
    repeat' split at ran
    all_goals
      cases ran
      first
        | exact rest
        | exact ⟨here, rest⟩
        | exact ⟨trivial, here, rest⟩
  | setUsed p np =>
    obtain rfl : k = returns := here
    simp only [exec] at ran
    split at ran <;> cases ran
    · exact shape_freeproc ⟨trivial, rest⟩
    · exact ⟨trivial, trivial, .fork p np, rfl, trivial, trivial, trivial, rfl, rest⟩
  | waitCheck p np | allocFrom p i | allocCheck p np | publish np =>
    obtain rfl : k = returns := here
    simp only [exec] at ran
    repeat' split at ran
    all_goals
      cases ran
      simp [freeproc, Shaped, rest]
  | loop | pick | setRunning _ | setProc _ | swtch _ | clearProc | leave _ _ | schedCheck _ | switchBack _
  | zombieExit _ | setTickets _ _ | wakeupFrom _ _ | wakeupCheck _ _ | wakeStore _ | killFrom _ _
  | killCheck _ _ | wakeParent _ | freeStore _ | forkCopy _ | update _ =>
    simp only [exec] at ran
    repeat' split at ran
    all_goals first
      | contradiction
      | cases ran; simp [selected, chosen, resume, wakeup, freeproc, Shaped, rest]

theorem storer_syscall {t : Table} {p : ProcId}
    (ran : syscall t p call = some code) : Acts (fun b => ∀ q, storer b = some q → q = p) code := by
  cases call with
  | exit status =>
    simp only [syscall] at ran
    split at ran
    · contradiction
    · cases ran
      simp [exit, sched, storer]
  | settickets count =>
    cases ran
    unfold settickets
    split <;> simp [storer]
  | sleep chan guard =>
    cases ran
    simp [sleep, sched, storer]
  | fork | wait | kill pid | wakeup chan guard =>
    cases ran
    simp [wakeup, storer]

theorem exec_storer (ran : exec c choice locks s a = some o) :
    Acts (fun b => ∀ p, storer b = some p → owner a = some p ∨ s.proc c = some p) o.push := by
  cases a with
  | user =>
    simp only [exec] at ran
    split at ran
    · rename_i q self
      split at ran
      · rename_i code called
        cases ran
        refine acts_append.mpr ⟨(storer_syscall called).mono fun b own p stores => ?_, by simp [storer]⟩
        rw [own p stores]
        exact .inr self
      · contradiction
    · contradiction
  | waitFrom q i havekids =>
    simp only [exec] at ran
    repeat' split at ran
    all_goals
      cases ran
      simp [sleep, sched, storer, owner]
  | setUsed q np =>
    simp only [exec] at ran
    split at ran <;> cases ran <;> simp [freeproc, storer, owner]
  | loop | pick | setRunning _ | setProc _ | swtch _ | clearProc | trapYield | preempt | leave _ _
  | schedCheck _ | switchBack _ | zombieExit _ | setTickets _ _ | wakeupFrom _ _ | wakeupCheck _ _
  | wakeStore _ | killFrom _ _ | killCheck _ _ | reparentFrom _ _ | wakeParent _ | waitCheck _ _
  | freeStore _ | allocFrom _ _ | allocCheck _ _ | publish _ | forkCopy _ | update _ =>
    simp only [exec] at ran
    repeat' split at ran
    all_goals first
      | contradiction
      | cases ran
        simp [selected, chosen, resume, wakeup, freeproc, yield, sched, storer]

/-- The fields besides the state that the results below are about. -/
structure SameFields (new old : Proc) : Prop where
  chan : new.chan = old.chan
  parent : new.parent = old.parent
  xstate : new.xstate = old.xstate
  pid : new.pid = old.pid

def written (t : Table) (a : Act) (q : ProcId) : Proc :=
  match a with
  | .update (.setChan p chan) => if q = p then { t.proc q with chan := chan } else t.proc q
  | .update (.setXstate p status) => if q = p then { t.proc q with xstate := status } else t.proc q
  | .update (.setParent p np) => if q = np then { t.proc q with parent := some p } else t.proc q
  | .update (.allocpid p) => if q = p then { t.proc q with pid := t.nextpid } else t.proc q
  | .update (.freeFields p) =>
    if q = p then { t.proc q with pid := 0, parent := none, chan := none, xstate := 0 } else t.proc q
  | .reparentFrom p i =>
    if q.val = i ∧ (t.proc q).parent = some p then { t.proc q with parent := t.initproc } else t.proc q
  | _ => t.proc q

section Written

variable {t : Table} {q : ProcId}

theorem sameFields_refl (proc : Proc) : SameFields proc proc := ⟨rfl, rfl, rfl, rfl⟩

theorem written_update (u : Update) : SameFields ((u.apply t).proc q) (written t (.update u) q) := by
  cases u with
  | setLastStart | tick => exact sameFields_refl _
  | setChan p _ | setXstate p _ | charge p | allocpid p | freeFields p =>
    by_cases same : q = p
    · subst same
      constructor <;> simp [Update.apply, Table.setChan, Table.setXstate, Table.allocpid, Table.freeFields, written]
    · constructor <;> simp [Update.apply, Table.setChan, Table.setXstate, Table.allocpid, Table.freeFields,
        written, same]
  | inherit p np | setParent p np =>
    by_cases same : q = np
    · subst same
      constructor <;> simp [Update.apply, Table.inherit, Table.setParent, written]
    · constructor <;> simp [Update.apply, Table.inherit, Table.setParent, written, same]

theorem sameFields_setState {p : ProcId} (state : ProcState) :
    SameFields ((t.setState p state).proc q) (t.proc q) := by
  by_cases same : q = p
  · subst same
    constructor <;> simp [Table.setState]
  · constructor <;> simp [Table.setState, same]

theorem exec_written (ran : exec c choice locks s a = some o) (q : ProcId) :
    SameFields (o.shared.table.proc q) (written s.table a q) := by
  cases a with
  | update u =>
    cases ran
    exact written_update u
  | leave how p =>
    cases ran
    cases how with
    | yield =>
      simp only [Leave.apply, Table.yield]
      split <;> exact sameFields_setState _
    | sleep | exit =>
      have moved := sameFields_setState (t := s.table.withdraw p) (q := q) (p := p)
      simp only [Table.withdraw_proc] at moved
      exact moved _
  | setRunning p | wakeStore p | publish p =>
    cases ran
    exact sameFields_setState _
  | setUsed p np =>
    simp only [exec] at ran
    split at ran <;> cases ran <;> exact sameFields_setState _
  | freeStore p =>
    cases ran
    by_cases same : q = p <;> constructor <;> simp [Table.free, written, same]
  | setTickets p count =>
    cases ran
    by_cases same : q = p <;> constructor <;> simp [Table.settickets, written, same]
  | killCheck p pid =>
    simp only [exec] at ran
    split at ran <;> cases ran
    · by_cases same : q = p <;> constructor <;> simp [Table.setKilled, written, same]
    · exact sameFields_refl _
  | pick =>
    have same := pick_proc s.table
    simp only [exec] at ran
    split at ran <;> rename_i picked <;> cases ran <;> rw [picked] at same <;> rw [same] <;> exact sameFields_refl _
  | reparentFrom p i =>
    simp only [exec] at ran
    split at ran
    · rename_i inside
      split at ran <;> cases ran <;> rename_i child
      · by_cases same : q = ⟨i, inside⟩
        · subst same
          constructor <;> simp [Table.reparent, written, child]
        · have other : q.val ≠ i := fun here => same (Fin.ext here)
          constructor <;> simp [Table.reparent, written, same, other]
      · have other : ¬(q.val = i ∧ (s.table.proc q).parent = some p) := by
          rintro ⟨rfl, parent⟩
          exact child parent
        rw [written, if_neg other]
        exact sameFields_refl _
    · rename_i outside
      cases ran
      have other : q.val ≠ i := fun here => outside (here ▸ q.isLt)
      rw [written, if_neg fun both => other both.1]
      exact sameFields_refl _
  | _ =>
    simp only [exec] at ran
    repeat' split at ran
    all_goals first
      | contradiction
      | cases ran; exact sameFields_refl _

end Written

section Threads

variable {m m' : Machine n} {stage : Fin n → Stage}

def StoresOwn (t : Thread n) (k : List Stmt) : Prop := Acts (fun a => ∀ p, storer a = some p → t = .process p) k

structure Shapely (m : Machine n) : Prop where
  shape : ∀ t, Shape (m.code t)
  own : ∀ t, StoresOwn t (m.code t)

theorem Inv.runs_pusher (inv : Inv m stage) {a : Act} {k : List Stmt} {o : Outcome n} {b : Act} {p : ProcId}
    (next : m.code (m.running c) = act a :: k) (ran : exec c choice (m.locks c) m.shared a = some o)
    (pushed : act b ∈ o.push) (self : owner a = some p ∨ m.shared.proc c = some p) : m.running c = .process p := by
  rcases self with own | current
  · exact inv.owner_runs next own
  · rcases inv.running_cases c with scheduler | ⟨q, process, at_⟩
    · have outside : Posts a = false := by
        by_contra posts
        rw [exec_posts_push ran (by simpa using posts)] at pushed
        cases pushed
      rw [inv.proc_none next scheduler outside] at current
      cases current
    · have phase := inv.phase c
      rw [at_] at phase
      cases phase.2.1.symm.trans current
      exact process

theorem shape_timerHandler {k : List Stmt} (shape : Shape k) : Shape (m.timerHandler c ++ k) := by
  unfold timerHandler
  split <;> split <;> simp [clockintr, wakeup, Shaped, shape]

theorem storesOwn_timerHandler {t : Thread n} {k : List Stmt} (own : StoresOwn t k) :
    StoresOwn t (m.timerHandler c ++ k) := by
  refine acts_append.mpr ⟨?_, own⟩
  unfold timerHandler
  split <;> split <;> simp [clockintr, wakeup, storer]

theorem Inv.shapely_step (inv : Inv m stage) (shapely : Shapely m) (step : Interleaves m c choice m') :
    Shapely m' := by
  have shape := shapely.shape (m.running c)
  have own := shapely.own (m.running c)
  constructor
  · refine inv.code_step (P := fun _ => Shape) step (fun t _ => shapely.shape t) ?_ ?_ ?_
      (fun _ => shape_timerHandler shape) ?_ ?_
    · intro x k next _
      rw [next] at shape
      exact shape.2
    · intro a k o next ran
      rw [next] at shape
      exact exec_shape ran shape
    · intro k next
      rw [next] at shape
      exact ⟨by simp [Shaped, shape.2], fun p => by simp [selected, chosen, resume, Shaped, shape.2]⟩
    · intro _ chan lk
      simp [deviceHandler, wakeup, Shaped, shape]
    · intro p
      simp [forkret, Shaped]
  · refine inv.code_step (P := StoresOwn) step (fun t _ => shapely.own t) ?_ ?_ ?_
      (fun _ => storesOwn_timerHandler own) ?_ ?_
    · intro x k next _ a pending
      exact own a (by rw [next]; exact List.mem_cons_of_mem _ pending)
    · intro a k o next ran
      rw [next] at own
      refine acts_append.mpr ⟨fun b pushed p stores => ?_, (acts_act.mp own).2⟩
      exact inv.runs_pusher next ran pushed (exec_storer ran b pushed p stores)
    · intro k next
      rw [next] at own
      have rest : StoresOwn (m.running c) k := (acts_act.mp own).2
      exact ⟨by simpa [StoresOwn, storer] using rest,
        fun p => by simpa [StoresOwn, selected, chosen, resume, storer] using rest⟩
    · intro _ chan lk
      exact acts_append.mpr ⟨by simp [deviceHandler, wakeup, storer], own⟩
    · intro p
      simp [StoresOwn, forkret, storer]

theorem boot_shapely (n : Nat) : Shapely (boot n) := by
  constructor
  · intro t
    cases t <;> simp [boot, forkret, Shaped]
  · intro t
    cases t <;> simp [boot, forkret, StoresOwn, storer]

theorem Shapely.frees (shapely : Shapely m) (inv : Inv m stage) {q : ProcId} {k : List Stmt}
    (next : m.code (m.running c) = act (.update (.freeFields q)) :: k) :
    .proc q ∈ m.locks c ∧ act (.freeStore q) ∈ m.code (m.running c) := by
  have shape := shapely.shape (m.running c)
  rw [next] at shape
  obtain ⟨k', rfl⟩ := shape.1
  have pending : act (.freeStore q) ∈ m.code (m.running c) := by
    rw [next]
    simp
  exact ⟨(inv.lock_iff _).mpr ((inv.typed _).holds_of_pending pending rfl), pending⟩

theorem Shapely.chan_step (shapely : Shapely m) (step : Interleaves m c choice m') (q : ProcId) :
    (m'.table.proc q).chan = (m.table.proc q).chan ∨
      (m.running c = .process q ∧ ∃ chan k, m.code (m.running c) = act (.update (.setChan q chan)) :: k ∧
        (m'.table.proc q).chan = chan) ∨ ∃ k, m.code (m.running c) = act (.update (.freeFields q)) :: k := by
  rcases interleaves_procs step with ⟨same, -⟩ | ⟨a, k, o, next, ran, rfl⟩
  · exact .inl (by rw [same])
  · rw [table, apply_shared, (exec_written ran q).chan]
    unfold written
    split
    · rename_i p chan
      split
      · rename_i same
        subst same
        have own := shapely.own (m.running c) (.update (.setChan q chan)) (by rw [next]; simp) q rfl
        exact .inr (.inl ⟨own, chan, k, next, rfl⟩)
      · exact .inl rfl
    · split <;> exact .inl rfl
    · split <;> exact .inl rfl
    · split <;> exact .inl rfl
    · split
      · rename_i same
        subst same
        exact .inr (.inr ⟨k, next⟩)
      · exact .inl rfl
    · split <;> exact .inl rfl
    · exact .inl rfl

theorem exec_initproc {locks : List Lock} {s : Shared n} {a : Act} {o : Outcome n}
    (ran : exec c choice locks s a = some o) : o.shared.table.initproc = s.table.initproc := by
  cases a with
  | pick =>
    obtain ⟨seed, ⟨-, rfl⟩ | ⟨p, -, rfl⟩⟩ := exec_pick_drawn ran <;> rfl
  | leave how p =>
    cases ran
    cases how <;> simp only [Leave.apply, Table.yield, Table.sleep, Table.exit, Table.withdraw, Table.setState,
      Table.modify, Table.addTickets] <;> split <;> rfl
  | freeStore p =>
    cases ran
    simp only [Table.free, Table.withdraw]
    split <;> rfl
  | update u =>
    cases ran
    cases u <;> rfl
  | _ =>
    simp only [exec] at ran
    repeat' split at ran
    all_goals first
      | contradiction
      | cases ran; rfl

theorem interleaves_initproc (step : Interleaves m c choice m') : m'.table.initproc = m.table.initproc := by
  rcases interleaves_procs step with ⟨-, same⟩ | ⟨a, k, o, -, ran, rfl⟩
  · exact same
  · rw [table, apply_shared]
    exact exec_initproc ran

theorem Shapely.parent_step (shapely : Shapely m) (step : Interleaves m c choice m') (z : ProcId) :
    (m'.table.proc z).parent = (m.table.proc z).parent ∨
      (∃ p, m.running c = .process p ∧ m.code (m.running c) = forkBody p z ∧ (m'.table.proc z).parent = some p) ∨
      (∃ k, m.code (m.running c) = act (.update (.freeFields z)) :: k ∧ (m'.table.proc z).parent = none) ∨
      ∃ p k, m.code (m.running c) = act (.reparentFrom p z) :: k ∧ (m.table.proc z).parent = some p ∧
        (m'.table.proc z).parent = m.table.initproc := by
  rcases interleaves_procs step with ⟨same, -⟩ | ⟨a, k, o, next, ran, rfl⟩
  · exact .inl (by rw [same])
  · have shape := shapely.shape (m.running c)
    rw [table, apply_shared, (exec_written ran z).parent]
    unfold written
    split
    case h_3 p np =>
      split
      · rename_i same
        subst same
        have own := shapely.own (m.running c) (.update (.setParent p z)) (by rw [next]; simp) p rfl
        rw [next] at shape
        exact .inr (.inl ⟨p, own, next.trans shape.1, rfl⟩)
      · exact .inl rfl
    case h_5 p =>
      split
      · rename_i same
        subst same
        exact .inr (.inr (.inl ⟨k, next, rfl⟩))
      · exact .inl rfl
    case h_6 p i =>
      split
      · rename_i child
        obtain ⟨rfl, parent⟩ := child
        exact .inr (.inr (.inr ⟨p, k, next, parent, rfl⟩))
      · exact .inl rfl
    case h_7 => exact .inl rfl
    all_goals split <;> exact .inl rfl

theorem Shapely.locked_step (shapely : Shapely m) (inv : Inv m stage) (step : Interleaves m c choice m')
    {c' : Fin n} (other : c' ≠ c) {p : ProcId} (lock : .proc p ∈ m.locks c') :
    (m'.table.proc p).state = (m.table.proc p).state ∧ (m'.table.proc p).chan = (m.table.proc p).chan := by
  constructor
  · rcases interleaves_state step p with same | ⟨a, k, next, store⟩
    · exact same
    · exact absurd (inv.exclusive (inv.store_locks next store).1 lock) other
  · rcases shapely.chan_step step p with same | ⟨-, chan, k, next, -⟩ | ⟨k, next⟩
    · exact same
    · have shape := shapely.shape (m.running c)
      rw [next] at shape
      have held : holds k (.proc p) = true := shape.1
      have mine : .proc p ∈ m.locks c := (inv.lock_iff _).mpr (by rw [next]; simp [held])
      exact absurd (inv.exclusive mine lock) other
    · exact absurd (inv.exclusive (shapely.frees inv next).1 lock) other

end Threads

theorem Run.shapely {n : Nat} (r : Run n) {i : Nat} (within : i ≤ r.length) : Shapely (r.state i) := by
  induction i with
  | zero =>
    rw [r.start]
    exact boot_shapely n
  | succ i ih =>
    obtain ⟨stage, inv⟩ := r.inv (i := i) (by omega)
    exact inv.shapely_step (ih (by omega)) (r.step i within)

end DeisoXv6
