import DeisoXv6.Proc.Locking

/-! What one action can do: the state it stores, and what the code it pushes relies on. Everything
that is proved about runs of the machine is derived from these lemmas. -/

set_option autoImplicit false

namespace DeisoXv6

open List LockProgram LockProgram.Stmt

def stores : Act → Option (ProcId × ProcState)
  | .leave .yield p => some (p, .runnable)
  | .leave .sleep p => some (p, .sleeping)
  | .leave .exit p => some (p, .zombie)
  | .setRunning p => some (p, .running)
  | .wakeStore p => some (p, .runnable)
  | .freeStore p => some (p, .unused)
  | .setUsed _ p => some (p, .used)
  | .publish p => some (p, .runnable)
  | _ => none

/-- What an action knows about a state since the check that scheduled it. -/
def Pre (t : Table) : Act → Prop
  | .wakeStore p => (t.proc p).state = .sleeping
  | .setUsed _ p => (t.proc p).state = .unused
  | .freeStore p => (t.proc p).state = .zombie ∨ (t.proc p).state = .used ∨ (t.proc p).state = .runnable
  | .forkCopy p => (t.proc p).state = .runnable
  | _ => True

/-- The process that executes an action, for the actions that only one process executes. -/
def owner : Act → Option ProcId
  | .leave _ p | .schedCheck p | .switchBack p | .zombieExit p | .setTickets p _ | .reparentFrom p _
  | .wakeParent p | .waitFrom p _ _ | .waitCheck p _ | .allocFrom p _ | .allocCheck p _ | .setUsed p _
  | .update (.charge p) => some p
  | _ => none

/-- The actions of scheduler from the selection to its return from swtch. -/
def Posts : Act → Bool
  | .setRunning _ | .setProc _ | .swtch _ | .clearProc => true
  | _ => false

def IsScheduler (a : Act) : Bool :=
  Posts a || match a with
    | .loop | .pick => true
    | _ => false

def Acts (P : Act → Prop) (k : List Stmt) : Prop := ∀ a, act a ∈ k → P a

section Acts

variable {P : Act → Prop} {k k' : List Stmt} {l : Lock} {a : Act}

@[simp] theorem acts_nil : Acts P [] := fun _ pending => absurd pending not_mem_nil

@[simp] theorem acts_acquire : Acts P (acquire l :: k) ↔ Acts P k := by simp [Acts]

@[simp] theorem acts_release : Acts P (release l :: k) ↔ Acts P k := by simp [Acts]

@[simp] theorem acts_act : Acts P (act a :: k) ↔ P a ∧ Acts P k := by simp [Acts]

@[simp] theorem acts_append : Acts P (k ++ k') ↔ Acts P k ∧ Acts P k' := by
  constructor
  · exact fun all => ⟨fun a pending => all a (by simp [pending]), fun a pending => all a (by simp [pending])⟩
  · rintro ⟨left, right⟩ a pending
    exact (mem_append.mp pending).elim (left a) (right a)

end Acts

section State

variable {t : Table} {p q : ProcId}

theorem update_state (u : Update) : ((u.apply t).proc q).state = (t.proc q).state := by
  cases u with
  | setLastStart | tick => rfl
  | setChan p _ | setXstate p _ | charge p | allocpid p | freeFields p =>
    by_cases same : q = p <;> simp [Update.apply, Table.setChan, Table.setXstate, Table.allocpid,
      Table.freeFields, same]
  | inherit p np | setParent p np =>
    by_cases same : q = np <;> simp [Update.apply, Table.inherit, Table.setParent, same]

theorem setState_state (state : ProcState) :
    ((t.setState p state).proc q).state = if q = p then state else (t.proc q).state := by
  by_cases same : q = p <;> simp [Table.setState, same]

theorem leave_state (how : Leave) : ((how.apply t p).proc q).state =
      if q = p then (match how with | .yield => .runnable | .sleep => .sleeping | .exit => .zombie)
      else (t.proc q).state := by
  cases how with
  | yield =>
    simp only [Leave.apply, Table.yield, setState_state]
    split
    · rfl
    · split <;> rfl
  | sleep => simp only [Leave.apply, Table.sleep, setState_state, Table.withdraw_proc]
  | exit => simp only [Leave.apply, Table.exit, setState_state, Table.withdraw_proc]

end State

section Exec

variable {n : Nat} {c : Fin n} {choice : Choice} {locks : List Lock} {s : Shared n} {a : Act} {o : Outcome n}

def newState (a : Act) (q : ProcId) (old : ProcState) : ProcState :=
  match stores a with
  | some (p, state) => if q = p then state else old
  | none => old

theorem pick_proc (t : Table) : t.pick.2.proc = t.proc := by
  unfold Table.pick
  split <;> rfl

theorem drawLoop_runnable {t : Table} {target : Int} {ps : List ProcId} {cum : Int} {d : Draw} {p : ProcId}
    (start : ∀ q, d.selected = some q → (t.proc q).state = .runnable)
    (found : (drawLoop t target ps cum d).selected = some p) : (t.proc p).state = .runnable := by
  induction ps generalizing cum d with
  | nil => exact start p found
  | cons q ps ih =>
    rw [drawLoop] at found
    split at found
    · rename_i runnable
      have here : ∀ r, some q = some r → (t.proc r).state = .runnable := fun r same =>
        Option.some.inj same ▸ runnable
      simp only at found
      split at found
      · exact here p found
      · exact ih here found
    · exact ih start found

theorem pick_runnable {t : Table} {p : ProcId} (picked : t.pick.1 = some p) : (t.proc p).state = .runnable := by
  unfold Table.pick at picked
  split at picked
  · contradiction
  · exact drawLoop_runnable (d := ⟨none, false⟩) (by simp) picked

theorem exec_state (ran : exec c choice locks s a = some o) (q : ProcId) :
    (o.shared.table.proc q).state = newState a q (s.table.proc q).state := by
  cases a with
  | leave how p =>
    cases ran
    rw [leave_state]
    cases how <;> rfl
  | setRunning p => cases ran; exact setState_state _
  | wakeStore p => cases ran; exact setState_state _
  | setUsed p np =>
    simp only [exec] at ran
    split at ran <;> cases ran <;> exact setState_state _
  | publish p =>
    cases ran
    exact setState_state _
  | freeStore p =>
    cases ran
    by_cases same : q = p <;> simp [Table.free, newState, stores, same]
  | update u => cases ran; exact update_state u
  | pick =>
    have same := pick_proc s.table
    simp only [exec] at ran
    split at ran <;> rename_i picked <;> cases ran <;> rw [picked] at same <;> exact congrArg _ (congrFun same q)
  | setTickets p count =>
    cases ran
    by_cases same : q = p <;> simp [Table.settickets, newState, stores, same]
  | killCheck p pid =>
    simp only [exec] at ran
    split at ran <;> cases ran
    · by_cases same : q = p <;> simp [Table.setKilled, newState, stores, same]
    · rfl
  | reparentFrom p i =>
    simp only [exec] at ran
    split at ran
    · split at ran <;> cases ran
      · rename_i inside _
        by_cases same : q = ⟨i, inside⟩ <;> simp [Table.reparent, newState, stores, same]
      · rfl
    · cases ran
      rfl
  | zombieExit p => contradiction
  | user =>
    simp only [exec] at ran
    split at ran
    · split at ran
      · cases ran
        rfl
      · contradiction
    · contradiction
  | loop | setProc _ | swtch _ | clearProc | switchBack _ | wakeupCheck _ _ | wakeParent _ =>
    cases ran
    rfl
  | trapYield | preempt | schedCheck _ | wakeupFrom _ _ | killFrom _ _ | waitFrom _ _ _
  | waitCheck _ _ | allocFrom _ _ | allocCheck _ _ | forkCopy _ =>
    simp only [exec] at ran
    repeat' split at ran
    all_goals first
      | contradiction
      | cases ran; rfl

structure Pushed (c : Fin n) (s : Shared n) (a : Act) (t : Table) (b : Act) : Prop where
  owned : ∀ q, owner b = some q → owner a = some q ∨ s.proc c = some q
  scheduler : IsScheduler b = true → IsScheduler a = true
  posts : Posts b = true → a = .pick
  pre : Pre t b
  publish : ∀ np, b = .publish np → ∃ p, a = .setUsed p np
  free : ∀ np, b = .freeStore np →
    (s.table.proc np).state = .zombie ∨ (s.table.proc np).state = .unused ∨ a = .forkCopy np

/-- An action of process `p`, or of nobody in particular, that relies on no state. -/
structure OwnAct (p : ProcId) (b : Act) : Prop where
  owned : owner b = some p ∨ owner b = none
  elsewhere : IsScheduler b = false
  free : scope b = none
  forks : ∀ np, b ≠ .publish np

theorem OwnAct.pushed {t : Table} {b : Act} {p : ProcId} (own : OwnAct p b)
    (self : owner a = some p ∨ s.proc c = some p) : Pushed c s a t b where
  owned q found := by
    rcases own.owned with same | same
    · rw [same] at found
      cases found
      exact self
    · rw [same] at found
      contradiction
  scheduler same := by rw [own.elsewhere] at same; contradiction
  posts same := by
    have := own.elsewhere
    simp [IsScheduler, same] at this
  pre := by
    have := own.free
    cases b <;> trivial
  publish np same := absurd same (own.forks np)
  free np same := by
    have := own.free
    simp [same, scope] at this

theorem Pushed.unowned {t : Table} {b : Act} (nobody : owner b = none) (elsewhere : IsScheduler b = false)
    (known : Pre t b) (forks : ∀ np, b ≠ .publish np) (frees : ∀ np, b = .freeStore np →
      (s.table.proc np).state = .zombie ∨ (s.table.proc np).state = .unused ∨ a = .forkCopy np) :
    Pushed c s a t b where
  owned q found := by rw [nobody] at found; contradiction
  scheduler same := by rw [elsewhere] at same; contradiction
  posts same := by simp [IsScheduler, same] at elsewhere
  pre := known
  publish np same := absurd same (forks np)
  free := frees

theorem acts_freeproc {t : Table} {np : ProcId} (known : Pre t (.freeStore np))
    (frees : (s.table.proc np).state = .zombie ∨ (s.table.proc np).state = .unused ∨ a = .forkCopy np) :
    Acts (Pushed c s a t) (freeproc np) := by
  simp only [freeproc, acts_act, acts_acquire, acts_release, acts_nil, and_true]
  refine ⟨.unowned rfl rfl trivial (by simp) (by simp), .unowned rfl rfl known (by simp) ?_⟩
  rintro q same
  cases same
  exact frees

theorem Acts.mono {P Q : Act → Prop} {k : List Stmt} (all : Acts P k) (imp : ∀ a, P a → Q a) :
    Acts Q k := fun a pending => imp a (all a pending)

@[simp] theorem ownAct_iff {p : ProcId} {b : Act} : OwnAct p b ↔
    (owner b = some p ∨ owner b = none) ∧ IsScheduler b = false ∧ scope b = none ∧ ∀ np, b ≠ .publish np :=
  ⟨fun own => ⟨own.1, own.2, own.3, own.4⟩, fun ⟨one, two, three, four⟩ => ⟨one, two, three, four⟩⟩

theorem acts_sched (p : ProcId) : Acts (OwnAct p) (sched p) := by
  simp only [sched, acts_act, acts_acquire, acts_release, acts_nil, and_true]
  exact ⟨⟨.inl rfl, rfl, rfl, by simp⟩, ⟨.inl rfl, rfl, rfl, by simp⟩, ⟨.inl rfl, rfl, rfl, by simp⟩⟩

theorem acts_yield (p : ProcId) : Acts (OwnAct p) (yield p) := by
  simp only [yield, acts_append, acts_acquire, acts_act, acts_release, acts_nil, and_true]
  exact ⟨⟨.inl rfl, rfl, rfl, by simp⟩, acts_sched p⟩

theorem acts_sleep (p : ProcId) (chan : Option Chan) (lk : Lock) : Acts (OwnAct p) (sleep p chan lk) := by
  simp only [sleep, acts_append, acts_acquire, acts_act, acts_release, acts_nil, and_true]
  exact ⟨⟨⟨⟨.inr rfl, rfl, rfl, by simp⟩, ⟨.inl rfl, rfl, rfl, by simp⟩⟩, acts_sched p⟩, ⟨.inr rfl, rfl, rfl, by simp⟩⟩

theorem acts_wakeup (p : ProcId) (chan : Option Chan) : Acts (OwnAct p) (wakeup chan) :=
  acts_act.mpr ⟨⟨.inr rfl, rfl, rfl, by simp⟩, acts_nil⟩

theorem acts_syscall {t : Table} {p : ProcId} {call : Syscall} {code : List Stmt}
    (ran : syscall t p call = some code) : Acts (OwnAct p) code := by
  cases call with
  | exit status =>
    simp only [syscall] at ran
    split at ran
    · contradiction
    · cases ran
      simp [exit, sched, owner, IsScheduler, Posts, scope]
  | settickets count =>
    cases ran
    unfold settickets
    split <;> simp [owner, IsScheduler, Posts, scope]
  | sleep chan guard =>
    cases ran
    rw [cons_append, acts_acquire, acts_append]
    exact ⟨acts_sleep p chan _, by simp⟩
  | wakeup chan guard =>
    cases ran
    rw [cons_append, acts_acquire, acts_append]
    exact ⟨acts_wakeup p chan, by simp⟩
  | fork | wait | kill _ =>
    cases ran
    simp [owner, IsScheduler, Posts, scope]

section

variable (ran : exec c choice locks s a = some o)

include ran

theorem exec_push (known : Pre s.table a) : Acts (Pushed c s a o.shared.table) o.push := by
  cases a with
  | loop =>
    cases ran
    simp only [acts_acquire, acts_act, acts_nil, and_true]
    exact ⟨by simp [owner], fun _ => rfl, by simp [Posts], trivial, by simp, by simp⟩
  | pick =>
    simp only [exec] at ran
    split at ran
    · cases ran
      simp only [acts_release, acts_act, acts_nil, and_true]
      exact ⟨by simp [owner], fun _ => rfl, by simp [Posts], trivial, by simp, by simp⟩
    · cases ran
      simp only [selected, chosen, resume, cons_append, nil_append, acts_acquire, acts_release,
        acts_act, acts_nil, and_true]
      refine ⟨?_, ?_, ?_, ?_, ?_, ?_⟩
      all_goals exact ⟨by simp [owner], fun _ => rfl, fun _ => rfl, trivial, by simp, by simp⟩
  | user =>
    simp only [exec] at ran
    split at ran
    · rename_i p self
      split at ran
      · rename_i code called
        cases ran
        refine acts_append.mpr ⟨(acts_syscall called).mono fun b own => own.pushed (.inr self), ?_⟩
        simp only [acts_act, acts_nil, and_true]
        exact ⟨by simp [owner], by simp [IsScheduler, Posts], by simp [Posts], trivial, by simp, by simp⟩
      · contradiction
    · contradiction
  | trapYield =>
    simp only [exec] at ran
    split at ran
    · rename_i p self
      cases ran
      exact (acts_yield p).mono fun b own => own.pushed (.inr self)
    · contradiction
  | preempt =>
    simp only [exec] at ran
    split at ran
    · rename_i p self
      cases ran
      split
      · exact (acts_yield p).mono fun b own => own.pushed (.inr self)
      · exact acts_nil
    · cases ran
      exact acts_nil
  | setRunning _ | setProc _ | swtch _ | clearProc | leave _ _ | switchBack _ | setTickets _ _
  | wakeStore _ | freeStore _ | update _ =>
    cases ran
    exact acts_nil
  | schedCheck p =>
    simp only [exec] at ran
    split at ran
    · cases ran
      exact acts_nil
    · contradiction
  | zombieExit p => contradiction
  | wakeupFrom i chan =>
    simp only [exec] at ran
    split at ran
    · split at ran <;> cases ran <;>
        simp only [acts_act, acts_acquire, acts_release, acts_nil, and_true]
      · exact .unowned rfl rfl trivial (by simp) (by simp)
      · exact ⟨.unowned rfl rfl trivial (by simp) (by simp), .unowned rfl rfl trivial (by simp) (by simp)⟩
    · cases ran
      exact acts_nil
  | wakeupCheck p chan =>
    cases ran
    split
    · rename_i asleep
      simp only [acts_act, acts_acquire, acts_release, acts_nil, and_true]
      exact .unowned rfl rfl asleep.1 (by simp) (by simp)
    · exact acts_nil
  | killFrom i pid =>
    simp only [exec] at ran
    split at ran
    · cases ran
      simp only [acts_act, acts_acquire, acts_nil, and_true]
      exact .unowned rfl rfl trivial (by simp) (by simp)
    · cases ran
      exact acts_nil
  | killCheck p pid =>
    simp only [exec] at ran
    split at ran
    · cases ran
      split
      · rename_i asleep
        have still : ((s.table.setKilled p).proc p).state = .sleeping := by
          simpa [Table.setKilled] using asleep
        simp only [acts_act, acts_acquire, acts_release, acts_nil, and_true]
        exact .unowned rfl rfl still (by simp) (by simp)
      · simp
    · cases ran
      simp only [acts_act, acts_release, acts_nil, and_true]
      exact .unowned rfl rfl trivial (by simp) (by simp)
  | reparentFrom p i =>
    have self : ∀ j t, Pushed c s (.reparentFrom p i) t (.reparentFrom p j) := fun j t =>
      OwnAct.pushed (p := p) (by simp [owner, IsScheduler, Posts, scope]) (.inl rfl)
    simp only [exec] at ran
    split at ran
    · split at ran <;> cases ran <;> simp only [acts_append, acts_act, acts_nil, and_true, wakeup]
      · exact ⟨.unowned rfl rfl trivial (by simp) (by simp), self _ _⟩
      · exact self _ _
    · cases ran
      exact acts_nil
  | wakeParent p =>
    cases ran
    simp only [wakeup, acts_act, acts_nil, and_true]
    exact .unowned rfl rfl trivial (by simp) (by simp)
  | waitFrom p i havekids =>
    have self : ∀ b t, OwnAct p b → Pushed c s (.waitFrom p i havekids) t b := fun b t own =>
      own.pushed (.inl rfl)
    simp only [exec] at ran
    split at ran
    · split at ran <;> cases ran <;> simp only [acts_acquire, acts_act, acts_nil, and_true]
      · exact self _ _ (by simp [owner, IsScheduler, Posts, scope])
      · exact self _ _ (by simp [owner, IsScheduler, Posts, scope])
    · split at ran <;> cases ran
      · simp
      · refine acts_append.mpr ⟨(acts_sleep p _ _).mono fun b own => self _ _ own, ?_⟩
        simp only [acts_act, acts_nil, and_true]
        exact self _ _ (by simp [owner, IsScheduler, Posts, scope])
  | waitCheck p np =>
    simp only [exec] at ran
    split at ran
    · rename_i zombie
      split at ran <;> cases ran
      · simp
      · refine acts_append.mpr ⟨acts_freeproc (.inl zombie) (.inl zombie), by simp⟩
    · cases ran
      simp only [acts_release, acts_act, acts_nil, and_true]
      exact OwnAct.pushed (p := p) (by simp [owner, IsScheduler, Posts, scope]) (.inl rfl)
  | allocFrom p i =>
    simp only [exec] at ran
    split at ran
    · cases ran
      simp only [acts_acquire, acts_act, acts_nil, and_true]
      exact OwnAct.pushed (p := p) (by simp [owner, IsScheduler, Posts, scope]) (.inl rfl)
    · cases ran
      exact acts_nil
  | allocCheck p np =>
    simp only [exec] at ran
    split at ran
    · rename_i unused
      cases ran
      simp only [acts_acquire, acts_release, acts_act, acts_nil, and_true]
      refine ⟨.unowned rfl rfl trivial (by simp) (by simp), ?_⟩
      exact ⟨by simp [owner], by simp [IsScheduler, Posts], by simp [Posts], unused, by simp, by simp⟩
    · cases ran
      simp only [acts_release, acts_act, acts_nil, and_true]
      exact OwnAct.pushed (p := p) (by simp [owner, IsScheduler, Posts, scope]) (.inl rfl)
  | setUsed p np =>
    have used : ((s.table.setUsed np).proc np).state = .used := by simp [Table.setUsed, Table.setState]
    simp only [exec] at ran
    split at ran <;> cases ran
    · exact acts_append.mpr ⟨acts_freeproc (.inr (.inl used)) (.inr (.inl known)), by simp⟩
    · simp only [acts_acquire, acts_release, acts_act, acts_nil, and_true]
      refine ⟨.unowned rfl rfl trivial (by simp) (by simp), .unowned rfl rfl trivial (by simp) (by simp), ?_⟩
      refine ⟨by simp [owner], by simp [IsScheduler, Posts], by simp [Posts], trivial, ?_, by simp⟩
      rintro q same
      cases same
      exact ⟨p, rfl⟩
  | publish np =>
    have runnable : ((s.table.publish np).proc np).state = .runnable := by
      simp [Table.publish, Table.setState]
    cases ran
    simp only [acts_release, acts_act, acts_nil, and_true]
    exact .unowned rfl rfl runnable (by simp) (by simp)
  | forkCopy np =>
    simp only [exec] at ran
    split at ran <;> cases ran
    · exact acts_append.mpr ⟨acts_freeproc (.inr (.inr known)) (.inr (.inr rfl)), by simp⟩
    · simp

theorem exec_publish_not_free (known : Pre s.table a)
    {np : ProcId} (forks : act (.publish np) ∈ o.push) : act (.freeStore np) ∉ o.push := by
  obtain ⟨p, rfl⟩ := (exec_push ran known _ forks).publish np rfl
  simp only [exec] at ran
  split at ran <;> cases ran
  · simp [freeproc] at forks
  · simp

theorem exec_switch : o.switch = match a with
      | .swtch p => some (.process p)
      | .switchBack _ => some (.scheduler c)
      | _ => none := by
  cases a with
  | swtch p => cases ran; rfl
  | switchBack p => cases ran; rfl
  | _ =>
    simp only [exec] at ran
    repeat' split at ran
    all_goals first
      | contradiction
      | cases ran; rfl

theorem exec_fresh : o.fresh = none ∨ ∃ p np, a = .setUsed p np ∧ o.fresh = some (.process np, forkret np) := by
  cases a with
  | setUsed p np =>
    simp only [exec] at ran
    split at ran <;> cases ran
    · exact .inl rfl
    · exact .inr ⟨p, np, rfl, rfl⟩
  | _ =>
    left
    simp only [exec] at ran
    repeat' split at ran
    all_goals first
      | contradiction
      | cases ran; rfl

theorem exec_proc : o.shared.proc = match a with
      | .setProc p => Function.update s.proc c (some p)
      | .clearProc => Function.update s.proc c none
      | _ => s.proc := by
  cases a with
  | setProc p => cases ran; rfl
  | clearProc => cases ran; rfl
  | _ =>
    simp only [exec] at ran
    repeat' split at ran
    all_goals first
      | contradiction
      | cases ran; rfl

theorem exec_posts_push (posts : Posts a = true) : o.push = [] := by
  cases a <;> first
    | contradiction
    | cases ran; rfl

end

end Exec

end DeisoXv6
