import DeisoXv6.Proc.Waiting

/-! Parents and children. A parent is alive as long as it has children, every process but init has one, and a
ZOMBIE keeps the status of its exit until its parent's wait has reaped it. -/

set_option autoImplicit false

namespace DeisoXv6

open List LockProgram LockProgram.Stmt Machine

variable {n : Nat} {m m' : Machine n} {stage : Fin n → Stage} {c : Fin n} {choice : Choice} {p q z : ProcId}

def Live (m : Machine n) (q : ProcId) : Prop :=
  (m.table.proc q).state = .sleeping ∨ (m.table.proc q).state = .runnable ∨ (m.table.proc q).state = .running

instance (m : Machine n) (q : ProcId) : Decidable (Live m q) := inferInstanceAs (Decidable (_ ∨ _ ∨ _))

def InTransit (m : Machine n) (z : ProcId) : Prop :=
  ∃ t, act (.forkCopy z) ∈ m.code t ∨ act (.freeStore z) ∈ m.code t

def Idle (m : Machine n) (z : ProcId) : Prop :=
  (m.table.proc z).state = .unused ∨ (m.table.proc z).state = .used ∨ (m.table.proc z).state = .zombie ∨ InTransit m z

/-- Process `z` is nobody's parent and not the one that adopts children. -/
def Barren (m : Machine n) (z : ProcId) : Prop :=
  m.table.initproc ≠ some z ∧ ∀ z', (m.table.proc z').parent ≠ some z

structure Family (m : Machine n) : Prop where
  kin : ∀ z q, (m.table.proc z).parent = some q → Live m q
  init : ∃ q, m.table.initproc = some q ∧ Live m q
  transit : ∀ z, InTransit m z → Barren m z
  born : ∀ z, m.table.initproc ≠ some z → (m.table.proc z).state ≠ .unused → (m.table.proc z).state ≠ .used →
    (m.table.proc z).parent = none → ∃ t, act (.freeStore z) ∈ m.code t
  carries : ∀ t z, act (.publish z) ∈ m.code t →
    (m.table.proc z).parent ≠ none ∨ ∃ p, act (.update (.setParent p z)) ∈ m.code t
  still : ∀ z, Idle m z → act (.leave .exit z) ∉ m.code (.process z)

variable {k : List Stmt} {t : Thread n} {b : Act}

theorem WaitSection.childless (inside : WaitSection m (act (.leave .exit p) :: k)) : Childless m p NPROC := by
  generalize whole : act (.leave .exit p) :: k = code at inside
  cases inside with
  | @exits q status i bound calm done told =>
    interval_cases i <;> cases whole
    exact done
  | adopts scans | tells scans => cases scans <;> cases whole
  | @reaps z i bound calm => interval_cases i <;> cases whole
  | @falls q i bound calm looked => interval_cases i <;> cases whole
  | reparents | wakesParent | exited | looks | locks | checks | passes | forks | leaves => cases whole

section

variable (inv : Inv m stage)

include inv

theorem Inv.pending_kept (step : Interleaves m c choice m') (pending : act b ∈ m.code t) :
    act b ∈ m'.code t ∨ (t = m.running c ∧ ∃ k, m.code (m.running c) = act b :: k) ∨
      ∃ np, t = .process np ∧ m'.code t = forkret np ∧ ∀ c', m.running c' ≠ .process np := by
  by_cases own : t = m.running c
  · subst own
    cases code : m.code (m.running c) with
    | nil =>
      rw [code] at pending
      cases pending
    | cons x k =>
      have suffix := inv.own_suffix step code
      rw [code] at pending
      rcases mem_cons.mp pending with rfl | later
      · exact .inr (.inl ⟨rfl, k, rfl⟩)
      · exact .inl (suffix.subset later)
  · rcases inv.thread_code step own with same | ⟨np, rfl, fresh, q, k, next⟩
    · exact .inl (same ▸ pending)
    · exact .inr (.inr ⟨np, rfl, fresh, inv.unused_idle next⟩)

theorem Inv.live_step (step : Interleaves m c choice m') (live : Live m q) :
    Live m' q ∨ ∃ k, m.code (m.running c) = act (.leave .exit q) :: k ∨
      m.code (m.running c) = act (.freeStore q) :: k := by
  unfold Live at live ⊢
  rcases interleaves_state step q with same | ⟨a, k, next, store⟩
  · rw [same]
    exact .inl live
  · generalize (m'.table.proc q).state = state at store ⊢
    cases a with
    | leave how p =>
      cases how with
      | exit =>
        cases store
        exact .inr ⟨k, .inl next⟩
      | yield | sleep =>
        cases store
        simp
    | setRunning p | wakeStore p | publish p =>
      cases store
      simp
    | freeStore p =>
      cases store
      exact .inr ⟨k, .inr next⟩
    | setUsed r p =>
      cases store
      have unused : (m.table.proc q).state = .unused := inv.before next rfl
      rw [unused] at live
      simp at live
    | _ => cases store

theorem Inv.transit_state (transit : InTransit m z) :
    (m.table.proc z).state = .zombie ∨ (m.table.proc z).state = .used ∨ (m.table.proc z).state = .runnable := by
  obtain ⟨t, copies | frees⟩ := transit
  · exact .inr (.inr (inv.known t _ copies))
  · exact inv.known t _ frees

theorem Inv.idle_not_running (idle : Idle m z) : (m.table.proc z).state ≠ .running := by
  intro running
  unfold Idle at idle
  rw [running] at idle
  rcases idle with wrong | wrong | wrong | transit
  · cases wrong
  · cases wrong
  · cases wrong
  · have state := inv.transit_state transit
    rw [running] at state
    simp at state

theorem Inv.transit_back (step : Interleaves m c choice m') (transit : InTransit m' z) : Idle m z := by
  obtain ⟨t, pending⟩ := transit
  have back : ∀ b, (b = .forkCopy z ∨ b = .freeStore z) → act b ∈ m'.code t → IsFamily b = true →
      Routine b = false → Idle m z := by
    intro b which pending family special
    rcases interleaves_pending step pending special with old | ⟨a, k, o, -, next, ran, pushed, -⟩
    · rcases which with rfl | rfl
      · exact .inr (.inr (.inr ⟨t, .inl old⟩))
      · exact .inr (.inr (.inr ⟨t, .inr old⟩))
    · have here : act a ∈ m.code (m.running c) := by
        rw [next]
        simp
      rcases exec_family ran pushed family with rfl | ⟨wrong, -⟩ | ⟨p, np, rfl, rfl, zombie⟩ | ⟨p, np, rfl, rfl | rfl⟩ |
        ⟨np, rfl, rfl⟩ | ⟨np, rfl, rfl⟩
      · obtain ⟨q, -, ⟨status, -, -, rfl⟩ | rfl⟩ := user_family ran pushed family
        · rcases which with rfl | rfl <;> simp [exit, sched, returns] at pushed
        · rcases which with rfl | rfl <;> simp [again, returns] at pushed
      · rcases which with rfl | rfl <;> cases wrong
      · obtain rfl : np = z := by simpa using which
        exact .inr (.inr (.inl zombie))
      · rcases which with wrong | wrong <;> cases wrong
      · obtain rfl : np = z := by simpa using which
        exact .inl (inv.known _ _ here)
      · obtain rfl : np = z := by simpa using which
        exact .inr (.inl (inv.forks _ _ here))
      · obtain rfl : np = z := by simpa using which
        exact .inr (.inr (.inr ⟨_, .inl here⟩))
  rcases pending with copies | frees
  · exact back _ (.inl rfl) copies rfl rfl
  · exact back _ (.inr rfl) frees rfl rfl

theorem Inv.idle_back (step : Interleaves m c choice m') (idle : Idle m' z) :
    Idle m z ∨ ∃ k, m.running c = .process z ∧ m.code (m.running c) = act (.leave .exit z) :: k := by
  have stored : ∀ state, (m'.table.proc z).state = state → state = .unused ∨ state = .used → Idle m z := by
    intro state after which
    rcases interleaves_state step z with same | ⟨a, k, next, store⟩
    · rw [same] at after
      rcases which with rfl | rfl
      · exact .inl after
      · exact .inr (.inl after)
    · rw [after] at store
      cases a with
      | leave how p => cases how <;> cases store <;> simp at which
      | setRunning p | wakeStore p | publish p =>
        cases store
        simp at which
      | freeStore p =>
        cases store
        exact .inr (.inr (.inr ⟨_, .inr (by rw [next]; simp)⟩))
      | setUsed r p =>
        cases store
        exact .inl (inv.before next rfl)
      | _ => cases store
  rcases idle with unused | used | zombie | transit
  · exact .inl (stored _ unused (.inl rfl))
  · exact .inl (stored _ used (.inr rfl))
  · rcases inv.zombie_back step zombie with before | left
    · exact .inl (.inr (.inr (.inl before)))
    · exact .inr left
  · exact .inl (inv.transit_back step transit)

end

theorem Family.barren (family : Family m) (idle : Idle m z) : Barren m z := by
  by_cases transit : InTransit m z
  · exact family.transit z transit
  · have dead : ¬Live m z := by
      unfold Idle at idle
      unfold Live
      rcases idle with state | state | state | wrong
      · simp [state]
      · simp [state]
      · simp [state]
      · exact absurd wrong transit
    refine ⟨fun init => ?_, fun z' child => dead (family.kin z' z child)⟩
    obtain ⟨q, same, live⟩ := family.init
    cases same.symm.trans init
    exact dead live

theorem Waits.exit_childless (waits : Waits m) (inv : Inv m stage) (shapely : Shapely m)
    (next : m.code (m.running c) = act (.leave .exit p) :: k) : (m.table.proc z).parent ≠ some p := by
  have inside := waits.holder c (shapely.changes_locked inv next rfl)
  rw [next] at inside
  exact inside.childless z z.isLt

section

variable (family : Family m) (inv : Inv m stage) (shapely : Shapely m)

include family inv shapely

section

variable (waits : Waits m) (step : Interleaves m c choice m')

include waits step

theorem Family.live_step (live : Live m q)
    (needed : (∃ z, (m.table.proc z).parent = some q) ∨ m.table.initproc = some q) : Live m' q := by
  rcases inv.live_step step live with still | ⟨k, next | next⟩
  · exact still
  · rcases needed with ⟨z, child⟩ | init
    · exact absurd child (waits.exit_childless inv shapely next)
    · exact absurd init (waits.spares _ q (by rw [next]; simp))
  · obtain ⟨other, none⟩ := family.transit q ⟨_, .inr (by rw [next]; simp)⟩
    rcases needed with ⟨z, child⟩ | init
    · exact absurd child (none z)
    · exact absurd init other

theorem Family.kin_step (child : (m'.table.proc z).parent = some q) : Live m' q := by
  rcases shapely.parent_step step z with same | ⟨p, process, next, self⟩ | ⟨k, -, none⟩ | ⟨p, k, next, -, init⟩
  · rw [same] at child
    exact family.live_step inv shapely waits step (family.kin z q child) (.inl ⟨z, child⟩)
  · -- the parent of a new process is the one that forks
    cases self.symm.trans child
    have running := inv.own_running process next rfl
    rcases inv.live_step step (.inr (.inr running)) with still | ⟨k, here | here⟩
    · exact still
    · cases here.symm.trans next
    · cases here.symm.trans next
  · rw [none] at child
    cases child
  · obtain ⟨q', same, live⟩ := family.init
    cases same.symm.trans (init.symm.trans child)
    exact family.live_step inv shapely waits step live (.inr same)

theorem Family.init_step : ∃ q, m'.table.initproc = some q ∧ Live m' q := by
  obtain ⟨q, init, live⟩ := family.init
  exact ⟨q, (interleaves_initproc step).trans init, family.live_step inv shapely waits step live (.inr init)⟩

end

theorem Family.transit_step (step : Interleaves m c choice m') (transit : InTransit m' z) : Barren m' z := by
  have idle := inv.transit_back step transit
  obtain ⟨other, none⟩ := family.barren idle
  refine ⟨by rwa [interleaves_initproc step], fun z' child => ?_⟩
  rcases shapely.parent_step step z' with same | ⟨p, process, next, self⟩ | ⟨k, -, orphan⟩ | ⟨p, k, -, -, init⟩
  · exact none z' (same ▸ child)
  · cases self.symm.trans child
    exact inv.idle_not_running idle (inv.own_running process next rfl)
  · cases orphan.symm.trans child
  · exact other (init.symm.trans child)

end

theorem Inv.frees_kept (inv : Inv m stage) (step : Interleaves m c choice m')
    (frees : act (.freeStore z) ∈ m.code t) (used : (m'.table.proc z).state ≠ .unused) :
    act (.freeStore z) ∈ m'.code t := by
  rcases inv.pending_kept step frees with still | ⟨rfl, k, next⟩ | ⟨np, rfl, -, idle⟩
  · exact still
  · have lock := (inv.store_locks next rfl).1
    obtain ⟨o, ran, rfl⟩ := interleaves_act step next (ne_nil_of_mem lock) (by simp)
    rw [table, apply_shared, exec_state ran z] at used
    simp [newState, stores] at used
  · obtain ⟨c', process⟩ := inv.scope_running frees rfl
    exact absurd process (idle c')

theorem Inv.frees_alone (inv : Inv m stage) (frees : act (.freeStore z) ∈ m.code t) {a : Act}
    (next : m.code (m.running c) = act a :: k) {state : ProcState}
    (store : stores a = some (z, state)) : a = .freeStore z := by
  by_cases own : t = m.running c
  · rw [own, next] at frees
    rcases mem_cons.mp frees with same | later
    · cases same
      rfl
    · exact absurd rfl (inv.store_last next store later)
  · exact absurd rfl (inv.store_not_scoped next store own frees)

section

variable (family : Family m) (inv : Inv m stage) (shapely : Shapely m)

include family inv shapely

section

variable (step : Interleaves m c choice m')

include step

theorem Family.born_step (other : m'.table.initproc ≠ some z)
    (allocated : (m'.table.proc z).state ≠ .unused) (published : (m'.table.proc z).state ≠ .used)
    (orphan : (m'.table.proc z).parent = none) : ∃ t, act (.freeStore z) ∈ m'.code t := by
  rw [interleaves_initproc step] at other
  rcases shapely.parent_step step z with same | ⟨p, -, -, self⟩ | ⟨k, next, -⟩ | ⟨p, k, -, -, init⟩
  · rw [same] at orphan
    have before : (m.table.proc z).state ≠ .unused → (m.table.proc z).state ≠ .used →
        ∃ t, act (.freeStore z) ∈ m.code t := fun unused used => family.born z other unused used orphan
    rcases interleaves_state step z with kept | ⟨a, k, next, store⟩
    · rw [kept] at published
      obtain ⟨t, frees⟩ := before (kept ▸ allocated) published
      exact ⟨t, inv.frees_kept step frees allocated⟩
    · have found := inv.before next store
      have freed : (∃ t, act (.freeStore z) ∈ m.code t) → a = .freeStore z := by
        rintro ⟨t, frees⟩
        exact inv.frees_alone frees next store
      generalize (m'.table.proc z).state = state at store allocated published
      cases a with
      | publish np =>
        -- fork has set the parent
        cases store
        have shape := shapely.shape (m.running c)
        rw [next] at shape
        obtain rfl : k = returns := shape.1
        rcases family.carries (m.running c) z (by rw [next]; simp) with parent | ⟨p, pending⟩
        · exact absurd orphan parent
        · rw [next] at pending
          simp [returns] at pending
      | leave how np =>
        obtain rfl : np = z := by cases how <;> cases store <;> rfl
        rw [show (m.table.proc np).state = .running from found] at before
        cases freed (before (by simp) (by simp))
      | setRunning np | wakeStore np =>
        cases store
        rw [show (m.table.proc z).state = _ from found] at before
        cases freed (before (by simp) (by simp))
      | freeStore np | setUsed r np =>
        simp only [stores, Option.some.injEq, Prod.mk.injEq] at store
        simp [← store.2] at allocated published
      | _ => cases store
  · cases self.symm.trans orphan
  · exact ⟨_, inv.frees_kept step (shapely.frees inv next).2 allocated⟩
  · obtain ⟨q, some, -⟩ := family.init
    cases some.symm.trans (init.symm.trans orphan)

theorem Family.carries_step (publishes : act (.publish z) ∈ m'.code t) :
    (m'.table.proc z).parent ≠ none ∨ ∃ p, act (.update (.setParent p z)) ∈ m'.code t := by
  rcases interleaves_pending step publishes rfl with old | ⟨a, k, o, here, next, ran, pushed, after⟩
  · rcases family.carries t z old with parent | ⟨p, pending⟩
    · refine .inl fun orphan => ?_
      rcases shapely.parent_step step z with same | ⟨p, -, -, self⟩ | ⟨k, next, -⟩ | ⟨p, k, -, -, init⟩
      · exact parent (same ▸ orphan)
      · cases self.symm.trans orphan
      · exact inv.forksFree t _ z old (shapely.frees inv next).2
      · obtain ⟨q, some, -⟩ := family.init
        cases some.symm.trans (init.symm.trans orphan)
    · rcases inv.pending_kept step pending with still | ⟨rfl, k, next⟩ | ⟨np, -, fresh, -⟩
      · exact .inr ⟨p, still⟩
      · have changed := shapely.changes_locked inv next rfl
        obtain ⟨o, ran, rfl⟩ := interleaves_act step next (ne_nil_of_mem changed) (by simp)
        refine .inl ?_
        rw [table, apply_shared, (exec_written ran z).parent]
        simp [written]
      · rw [fresh] at publishes
        simp [forkret] at publishes
  · rcases exec_family ran pushed rfl with rfl | ⟨wrong, -⟩ | ⟨_, _, -, wrong, -⟩ | ⟨p, np, rfl, same | wrong⟩ |
      ⟨_, -, wrong⟩ | ⟨_, -, wrong⟩
    · obtain ⟨q, -, ⟨status, -, -, rfl⟩ | rfl⟩ := user_family ran pushed rfl
      · simp [exit, sched, returns] at pushed
      · simp [again, returns] at pushed
    · cases wrong
    · cases wrong
    · cases same
      refine .inr ⟨p, ?_⟩
      have own := inv.own_code next ran
      rw [here, after, own]
      simp only [exec] at ran
      split at ran <;> cases ran <;> simp [freeproc] at pushed ⊢
    · cases wrong
    · cases wrong
    · cases wrong

theorem Family.still_step (idle : Idle m' z) : act (.leave .exit z) ∉ m'.code (.process z) := by
  intro leaves
  rcases interleaves_pending step leaves rfl with old | ⟨a, k, o, here, next, ran, pushed, after⟩
  · rcases inv.idle_back step idle with before | ⟨k, process, next⟩
    · exact family.still z before old
    · -- behind its exit the process only calls sched
      have shape := shapely.shape (m.running c)
      rw [next] at shape
      obtain rfl : k = release .tickets :: release .wait :: (sched z ++ act (.zombieExit z) :: returns) := shape.1
      have lock := shapely.changes_locked inv next rfl
      obtain ⟨o, ran, rfl⟩ := interleaves_act step next (ne_nil_of_mem lock) (by simp)
      have own := inv.own_code next ran
      cases ran
      rw [← process, own] at leaves
      simp [sched, returns] at leaves
  · rcases exec_family ran pushed rfl with rfl | ⟨wrong, -⟩ | ⟨_, _, -, wrong, -⟩ | ⟨_, _, -, wrong | wrong⟩ |
      ⟨_, -, wrong⟩ | ⟨_, -, wrong⟩
    · -- a process that calls exit is running
      have running := inv.own_running here.symm next rfl
      rcases inv.idle_back step idle with before | ⟨k', -, other⟩
      · exact inv.idle_not_running before running
      · cases other.symm.trans next
    all_goals cases wrong

end

theorem Family.step (waits : Waits m) (step : Interleaves m c choice m') : Family m' where
  kin _ _ := family.kin_step inv shapely waits step
  init := family.init_step inv shapely waits step
  transit _ := family.transit_step inv shapely step
  born _ := family.born_step inv shapely step
  carries _ _ := family.carries_step inv shapely step
  still _ := family.still_step inv shapely step

end

theorem boot_table : Table.boot.userinit.initproc = some 0 ∧ (Table.boot.userinit.proc 0).state = .runnable ∧
    (∀ z, (Table.boot.userinit.proc z).parent = none) ∧
    ∀ z, z ≠ 0 → (Table.boot.userinit.proc z).state = .unused := by
  decide +kernel

theorem boot_family (n : Nat) : Family (boot n) where
  kin z q child := by
    cases (boot_table.2.2.1 z).symm.trans child
  init := ⟨0, boot_table.1, .inr (.inl boot_table.2.1)⟩
  transit z := by
    rintro ⟨t, pending⟩
    cases t <;> simp [boot, forkret] at pending
  born z other unused := by
    refine absurd (boot_table.2.2.2 z ?_) unused
    rintro rfl
    exact other boot_table.1
  carries t z pending := by cases t <;> simp [boot, forkret] at pending
  still z _ pending := by simp [boot, forkret] at pending

theorem Shapely.kept_step (shapely : Shapely m) (step : Interleaves m c choice m') (z : ProcId) :
    (m'.table.proc z).xstate = (m.table.proc z).xstate ∧ (m'.table.proc z).pid = (m.table.proc z).pid ∨
      (m.running c = .process z ∧ ∃ status k, m.code (m.running c) = act (.update (.setXstate z status)) :: k ∧
        (m'.table.proc z).xstate = status ∧ (m'.table.proc z).pid = (m.table.proc z).pid) ∨
      ∃ k, m.code (m.running c) = act (.update (.freeFields z)) :: k ∨
        m.code (m.running c) = act (.update (.allocpid z)) :: k := by
  rcases interleaves_procs step with ⟨same, -⟩ | ⟨a, k, o, next, ran, rfl⟩
  · exact .inl ⟨by rw [same], by rw [same]⟩
  · rw [table, apply_shared, (exec_written ran z).xstate, (exec_written ran z).pid]
    unfold written
    split
    case h_2 p status =>
      split
      · rename_i same
        subst same
        have own := shapely.own (m.running c) (.update (.setXstate z status)) (by rw [next]; simp) z rfl
        exact .inr (.inl ⟨own, status, k, next, rfl, rfl⟩)
      · exact .inl ⟨rfl, rfl⟩
    case h_4 p =>
      split
      · rename_i same
        subst same
        exact .inr (.inr ⟨k, .inr next⟩)
      · exact .inl ⟨rfl, rfl⟩
    case h_5 p =>
      split
      · rename_i same
        subst same
        exact .inr (.inr ⟨k, .inl next⟩)
      · exact .inl ⟨rfl, rfl⟩
    case h_7 => exact .inl ⟨rfl, rfl⟩
    all_goals split <;> exact .inl ⟨rfl, rfl⟩

theorem Inv.cleared_idle (inv : Inv m stage) (shapely : Shapely m)
    (next : m.code (m.running c) = act (.update (.freeFields z)) :: k ∨
      m.code (m.running c) = act (.update (.allocpid z)) :: k) : Idle m z := by
  rcases next with frees | allocates
  · exact .inr (.inr (.inr ⟨_, .inr (shapely.frees inv frees).2⟩))
  · have shape := shapely.shape (m.running c)
    rw [allocates] at shape
    obtain ⟨p, k', rfl⟩ := shape.1
    exact .inl (inv.known (m.running c) (.setUsed p z) (by rw [allocates]; simp))

section History

variable {r : Run n} {i j e : Nat} {status : Int}

structure ExitsAt (r : Run n) (i : Nat) (z : ProcId) (status : Int) : Prop where
  within : i < r.length
  process : (r.state i).running (r.cpu i) = .process z
  code : (r.state i).code (.process z) = [act .user]
  call : r.choice i = .call (.exit status)

/-- The wait of process `p` finds the ZOMBIE `z` at time `i` and reaps it. -/
structure ReapsAt (r : Run n) (i : Nat) (p z : ProcId) : Prop where
  within : i < r.length
  process : (r.state i).running (r.cpu i) = .process p
  code : (r.state i).code (.process p) = act (.waitCheck p z) :: returns
  zombie : ((r.state i).table.proc z).state = .zombie
  copies : r.choice i ≠ .fail

/-- The pid that this wait returns and the status that it copies out. -/
def reaped (m : Machine n) (z : ProcId) : Int × Int := ((m.table.proc z).pid, (m.table.proc z).xstate)

/-- Process `z` has called exit(status) at time `e`, and nothing has been made of it until time `i`. -/
structure Exited (r : Run n) (e i : Nat) (z : ProcId) (status : Int) : Prop where
  exits : ExitsAt r e z status
  before : e < i
  pid : ((r.state i).table.proc z).pid = ((r.state e).table.proc z).pid
  alone : ∀ j, e < j → j < i → (∀ status, ¬ExitsAt r j z status) ∧ ∀ p, ¬ReapsAt r j p z

/-- What is known of the exits that have not been reaped at time `i`. -/
structure History (r : Run n) (i : Nat) : Prop where
  stores : ∀ z status, act (.update (.setXstate z status)) ∈ (r.state i).code (.process z) →
    ∃ e, Exited r e i z status
  leaves : ∀ z, act (.leave .exit z) ∈ (r.state i).code (.process z) →
    (∀ status, act (.update (.setXstate z status)) ∉ (r.state i).code (.process z)) →
    ∃ e, Exited r e i z ((r.state i).table.proc z).xstate
  zombies : ∀ z, ((r.state i).table.proc z).state = .zombie → (∀ t, act (.freeStore z) ∉ (r.state i).code t) →
    ∃ e, Exited r e i z ((r.state i).table.proc z).xstate

theorem Exited.step (exited : Exited r e i z status)
    (pid : ((r.state (i + 1)).table.proc z).pid = ((r.state i).table.proc z).pid)
    (quiet : ∀ status, ¬ExitsAt r i z status) (unreaped : ∀ p, ¬ReapsAt r i p z) : Exited r e (i + 1) z status where
  exits := exited.exits
  before := Nat.lt_succ_of_lt exited.before
  pid := pid.trans exited.pid
  alone j after before := by
    rcases Nat.lt_or_eq_of_le (Nat.le_of_lt_succ before) with earlier | rfl
    · exact exited.alone j after earlier
    · exact ⟨quiet, unreaped⟩

theorem Run.waits (r : Run n) (within : i ≤ r.length) : Waits (r.state i) := by
  induction i with
  | zero =>
    rw [r.start]
    exact boot_waits n
  | succ i ih =>
    obtain ⟨stage, inv⟩ := r.inv (i := i) (by omega)
    exact (ih (by omega)).step inv (r.shapely (by omega)) (r.step i within)

theorem Run.family (r : Run n) (within : i ≤ r.length) : Family (r.state i) := by
  induction i with
  | zero =>
    rw [r.start]
    exact boot_family n
  | succ i ih =>
    obtain ⟨stage, inv⟩ := r.inv (i := i) (by omega)
    exact (ih (by omega)).step inv (r.shapely (by omega)) (r.waits (by omega)) (r.step i within)

/-- The parent of a process is alive, as init is, and every process that sleeps or runs has one but for init. -/
theorem Run.parents_live (r : Run n) (i : Fin (r.length + 1)) :
    (∀ z q, ((r.state i).table.proc z).parent = some q → Live (r.state i) q) ∧
    (∃ q, (r.state i).table.initproc = some q ∧ Live (r.state i) q) ∧
    ∀ z, (r.state i).table.initproc ≠ some z → ((r.state i).table.proc z).state = .sleeping ∨
      ((r.state i).table.proc z).state = .running → ((r.state i).table.proc z).parent ≠ none := by
  obtain ⟨stage, inv⟩ := r.inv i.is_le
  have family := r.family i.is_le
  refine ⟨family.kin, family.init, fun z other awake orphan => ?_⟩
  -- only a slot that is being freed has lost its parent
  obtain ⟨t, frees⟩ := family.born z other (by grind) (by grind) orphan
  have known : _ ∨ _ ∨ _ := inv.known t _ frees
  grind

theorem Run.exits_now (r : Run n) (within : i < r.length)
    (pushes : ∃ a k o, .process z = (r.state i).running (r.cpu i) ∧
      (r.state i).code ((r.state i).running (r.cpu i)) = act a :: k ∧
      exec (r.cpu i) (r.choice i) ((r.state i).locks (r.cpu i)) (r.state i).shared a = some o ∧ act b ∈ o.push ∧
      r.state (i + 1) = (r.state i).apply (r.cpu i) k o)
    (which : b = .leave .exit z ∨ ∃ status, b = .update (.setXstate z status)) :
    ∃ status, (r.state (i + 1)).code (.process z) = exit z status ++ returns ∧ Exited r i (i + 1) z status := by
  obtain ⟨a, k, o, process, next, ran, pushed, after⟩ := pushes
  obtain ⟨stage, inv⟩ := r.inv (i := i) (by omega)
  have shape := (r.shapely (i := i) (by omega)).shape ((r.state i).running (r.cpu i))
  have family : IsFamily b = true := by rcases which with rfl | ⟨status, rfl⟩ <;> rfl
  obtain rfl : a = .user := by
    rcases exec_family ran pushed family with same | ⟨wrong, -⟩ | ⟨_, _, -, rfl, -⟩ | ⟨_, _, -, rfl | rfl⟩ |
      ⟨_, -, rfl⟩ | ⟨_, -, rfl⟩
    · exact same
    · rcases which with rfl | ⟨status, rfl⟩ <;> cases wrong
    all_goals simp at which
  rw [next] at shape
  obtain rfl : k = [] := shape.1
  have own := inv.own_code next ran
  rw [← after, ← process, append_nil] at own
  obtain ⟨p, -, ⟨status, call, -, rfl⟩ | rfl⟩ := user_family ran pushed family
  · obtain rfl : z = p := by
      rcases which with rfl | ⟨status', rfl⟩
      · simpa [exit, sched, returns] using pushed
      · have both : z = p ∧ status' = status := by simpa [exit, sched, returns] using pushed
        exact both.1
    rw [← process] at next
    refine ⟨status, own, ⟨within, process.symm, next, call⟩, Nat.lt_succ_self i, ?_, by omega⟩
    rw [after, table, apply_shared]
    rfl
  · rcases which with rfl | ⟨status, rfl⟩ <;> simp [again, returns] at pushed

theorem Shape.leaves (shape : Shape k) (pending : act (.update (.setXstate z status)) ∈ k) :
    act (.leave .exit z) ∈ k := by
  induction k with
  | nil => cases pending
  | cons x k ih =>
    rcases mem_cons.mp pending with rfl | later
    · obtain ⟨k', rfl⟩ := shape.1
      simp
    · exact mem_cons_of_mem _ (ih shape.2 later)

theorem Run.leaving_step (r : Run n) (within : i < r.length)
    (leaves : act (.leave .exit z) ∈ (r.state i).code (.process z)) :
    (∀ {e status}, Exited r e i z status → Exited r e (i + 1) z status) ∧
      ((∀ status, act (.update (.setXstate z status)) ∉ (r.state i).code (.process z)) →
        ((r.state (i + 1)).table.proc z).xstate = ((r.state i).table.proc z).xstate) := by
  obtain ⟨stage, inv⟩ := r.inv (i := i) (by omega)
  have shapely := r.shapely (i := i) (by omega)
  have busy : ¬Idle (r.state i) z := fun idle => (r.family (i := i) (by omega)).still z idle leaves
  have goes : ((r.state (i + 1)).table.proc z).pid = ((r.state i).table.proc z).pid →
      ∀ {e status}, Exited r e i z status → Exited r e (i + 1) z status := by
    intro pid e status exited
    refine exited.step pid (fun status exits => ?_) fun p reaps => busy (.inr (.inr (.inl reaps.zombie)))
    rw [exits.code] at leaves
    simp at leaves
  rcases shapely.kept_step (r.step i within) z with ⟨xstate, pid⟩ | ⟨process, status, k, next, -, pid⟩ | ⟨k, next⟩
  · exact ⟨goes pid, fun _ => xstate⟩
  · refine ⟨goes pid, fun stored => absurd ?_ (stored status)⟩
    rw [← process, next]
    simp
  · exact absurd (inv.cleared_idle shapely next) busy

theorem Inv.xstate_step (inv : Inv m stage) (shapely : Shapely m) (step : Interleaves m c choice m')
    (next : m.code (m.running c) = act (.update (.setXstate z status)) :: k) : (m'.table.proc z).xstate = status := by
  have shape := shapely.shape (m.running c)
  rw [next] at shape
  obtain ⟨here, rest⟩ := shape
  obtain ⟨k', rfl⟩ := here
  obtain rfl : k' = _ := rest.2.1
  have lock : .wait ∈ m.locks c := by
    rw [inv.lock_iff, next]
    simp
  obtain ⟨o, ran, rfl⟩ := interleaves_act step next (ne_nil_of_mem lock) (by simp)
  rw [table, apply_shared, (exec_written ran z).xstate]
  simp [written]

theorem ReapsAt.frees (reaps : ReapsAt r i p z) : act (.freeStore z) ∈ (r.state (i + 1)).code (.process p) := by
  obtain ⟨stage, inv⟩ := r.inv (i := i) (reaps.within.le)
  have next := reaps.code
  have copies := reaps.copies
  rw [← reaps.process] at next ⊢
  have lock : .wait ∈ (r.state i).locks (r.cpu i) := by
    rw [inv.lock_iff, next]
    simp [consumes]
  obtain ⟨o, ran, after⟩ := interleaves_act (r.step i reaps.within) next (ne_nil_of_mem lock) (by simp)
  rw [after, inv.own_code next ran]
  simp only [exec] at ran
  split at ran
  · cases ran
    simp [freeproc]
  · rename_i lives
    exact absurd reaps.zombie lives

section

variable (history : History r i) (within : i < r.length)

include history within

theorem History.stores_step (pending : act (.update (.setXstate z status)) ∈ (r.state (i + 1)).code (.process z)) :
    ∃ e, Exited r e (i + 1) z status := by
  rcases interleaves_pending (r.step i within) pending rfl with old | pushed
  · obtain ⟨e, exited⟩ := history.stores z status old
    have leaves := ((r.shapely (i := i) (by omega)).shape (.process z)).leaves old
    exact ⟨e, (r.leaving_step within leaves).1 exited⟩
  · obtain ⟨status', code, exited⟩ := r.exits_now within pushed (.inr ⟨status, rfl⟩)
    rw [code] at pending
    obtain rfl : status = status' := by simpa [exit, sched, returns] using pending
    exact ⟨i, exited⟩

theorem History.leaves_step (leaves : act (.leave .exit z) ∈ (r.state (i + 1)).code (.process z))
    (stored : ∀ status, act (.update (.setXstate z status)) ∉ (r.state (i + 1)).code (.process z)) :
    ∃ e, Exited r e (i + 1) z ((r.state (i + 1)).table.proc z).xstate := by
  obtain ⟨stage, inv⟩ := r.inv (i := i) (by omega)
  rcases interleaves_pending (r.step i within) leaves rfl with old | pushed
  · obtain ⟨goes, xstate⟩ := r.leaving_step within old
    by_cases before : ∃ status, act (.update (.setXstate z status)) ∈ (r.state i).code (.process z)
    · -- the status is stored in this step
      obtain ⟨status, pending⟩ := before
      obtain ⟨e, exited⟩ := history.stores z status pending
      rcases inv.pending_kept (r.step i within) pending with still | ⟨process, k, next⟩ | ⟨np, -, fresh, -⟩
      · exact absurd still (stored status)
      · rw [inv.xstate_step (r.shapely (by omega)) (r.step i within) next]
        exact ⟨e, goes exited⟩
      · rw [fresh] at leaves
        simp [forkret] at leaves
    · rw [xstate (not_exists.mp before)]
      obtain ⟨e, exited⟩ := history.leaves z old (not_exists.mp before)
      exact ⟨e, goes exited⟩
  · obtain ⟨status, code, -⟩ := r.exits_now within pushed (.inl rfl)
    rw [code] at stored
    exact absurd (by simp [exit]) (stored status)

theorem History.zombies_step (zombie : ((r.state (i + 1)).table.proc z).state = .zombie)
    (kept : ∀ t, act (.freeStore z) ∉ (r.state (i + 1)).code t) :
    ∃ e, Exited r e (i + 1) z ((r.state (i + 1)).table.proc z).xstate := by
  obtain ⟨stage, inv⟩ := r.inv (i := i) (by omega)
  have shapely := r.shapely (i := i) (by omega)
  have step := r.step i within
  rcases inv.zombie_back step zombie with before | ⟨k, process, next⟩
  · have unfreed : ∀ t, act (.freeStore z) ∉ (r.state i).code t := by
      intro t frees
      exact kept t (inv.frees_kept step frees (by simp [zombie]))
    have idle : (r.state i).running (r.cpu i) = .process z → ∀ {a k},
        (r.state i).code ((r.state i).running (r.cpu i)) = act a :: k → IsSched a = false → False := by
      intro process a k next outside
      cases (inv.own_running process next outside).symm.trans before
    obtain ⟨e, exited⟩ := history.zombies z before unfreed
    rcases shapely.kept_step step z with ⟨xstate, pid⟩ | ⟨process, status, k, next, -⟩ | ⟨k, next | next⟩
    · rw [xstate]
      refine ⟨e, exited.step pid (fun status exits => ?_) fun p reaps => kept _ reaps.frees⟩
      exact idle exits.process (by rw [exits.process]; exact exits.code) rfl
    · exact (idle process next rfl).elim
    · exact absurd (shapely.frees inv next).2 (unfreed _)
    · have shape := shapely.shape ((r.state i).running (r.cpu i))
      rw [next] at shape
      obtain ⟨p, k', rfl⟩ := shape.1
      have unused : _ = _ := inv.known _ (.setUsed p z) (by rw [next]; simp)
      cases unused.symm.trans before
  · have shape := shapely.shape ((r.state i).running (r.cpu i))
    rw [next] at shape
    obtain rfl : k = _ := shape.1
    rw [process] at next
    have leaves : act (.leave .exit z) ∈ (r.state i).code (.process z) := by
      rw [next]
      simp
    have stored : ∀ status, act (.update (.setXstate z status)) ∉ (r.state i).code (.process z) := by
      rw [next]
      simp [sched, returns]
    obtain ⟨e, exited⟩ := history.leaves z leaves stored
    obtain ⟨goes, xstate⟩ := r.leaving_step within leaves
    rw [xstate stored]
    exact ⟨e, goes exited⟩

end

theorem Run.history (r : Run n) (within : i ≤ r.length) : History r i := by
  induction i with
  | zero =>
    refine ⟨fun z status pending => ?_, fun z pending => ?_, fun z zombie => ?_⟩
    · simp [r.start, boot, forkret] at pending
    · simp [r.start, boot, forkret] at pending
    · rw [r.start] at zombie
      by_cases first : z = 0
      · subst first
        cases boot_table.2.1.symm.trans zombie
      · cases (boot_table.2.2.2 z first).symm.trans zombie
  | succ i ih =>
    have history := ih (by omega)
    exact ⟨fun z status => history.stores_step within, fun z => history.leaves_step within,
      fun z => history.zombies_step within⟩

structure SleepsInWait (m : Machine n) (q : ProcId) : Prop where
  code : m.code (.process q) = wakes q .wait (again q)
  state : (m.table.proc q).state = .sleeping
  chan : (m.table.proc q).chan = some (.proc q)

theorem SleepsInWait.dozes (sleeps : SleepsInWait m q) : DozesInWait m q :=
  ⟨9, sleeps.code, by omega, fun _ => sleeps.chan, fun _ => sleeps.state, by omega⟩

theorem WaitSection.child (inside : WaitSection m (act (.waitCheck p z) :: k))
    (zombie : (m.table.proc z).state = .zombie) : (m.table.proc z).parent = some p := by
  generalize whole : act (.waitCheck p z) :: k = code at inside
  cases inside with
  | checks calm looked child =>
    cases whole
    exact child zombie
  | @exits q status i bound calm done told => interval_cases i <;> cases whole
  | adopts scans | tells scans => cases scans <;> cases whole
  | @reaps z i bound calm => interval_cases i <;> cases whole
  | @falls q i bound calm looked => interval_cases i <;> cases whole
  | reparents | wakesParent | exited | looks | locks | passes | forks | leaves => cases whole

end History

def forkExitWait : List (Event 1) :=
  List.replicate 9 (.cpu 0 .go) ++ .cpu 0 (.call .fork) :: List.replicate 22 (.cpu 0 .go) ++
    .cpu 0 (.call .wait) :: List.replicate 94 (.cpu 0 .go) ++ .cpu 0 (.call (.exit 7)) ::
    List.replicate 355 (.cpu 0 .go)

/-- The child exits at time 127, when init sleeps; it is a ZOMBIE at time 470 and is found by wait at 482. -/
def FamilyAt (i : Nat) (m : Machine 1) : Prop :=
  (i = 127 → m.Free .wait ∧ (m.code (.process 0) = wakes 0 .wait (again 0) ∧
    (m.table.proc 0).state = .sleeping ∧ (m.table.proc 0).chan = some (.proc 0)) ∧
    (m.table.proc 1).parent = some 0) ∧
  (i = 470 → m.Free .wait ∧ (m.table.proc 1).state = .zombie) ∧
  (i = 482 → m.running 0 = .process 0 ∧ m.code (.process 0) = act (.waitCheck 0 1) :: returns ∧
    (m.table.proc 1).state = .zombie)

instance (i : Nat) (m : Machine 1) : Decidable (FamilyAt i m) :=
  inferInstanceAs (Decidable (_ ∧ _ ∧ _))

end DeisoXv6
