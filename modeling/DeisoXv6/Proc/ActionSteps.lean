import DeisoXv6.Proc.Invariant

/-! Every action keeps the invariant, as long as no scheduler picks a process that another CPU has
picked and not yet marked RUNNING. -/

set_option autoImplicit false

namespace DeisoXv6

open List Function LockProgram LockProgram.Stmt

section Steps

variable {n : Nat} {m : Machine n} {stage : Fin n → Stage} {c : Fin n} {k : List Stmt} {a : Act}

section Action

variable {choice : Choice} {o : Outcome n}

/-- The machine after an action that neither switches threads nor sets one up. -/
def plain (m : Machine n) (c : Fin n) (k : List Stmt) (o : Outcome n) : Machine n :=
  { m.setCode (m.running c) (o.push ++ k) with shared := o.shared }

theorem plain_code (t : Thread n) : (plain m c k o).code t = if t = m.running c then o.push ++ k else m.code t :=
  update_apply ..

variable {t : Thread n} {b : Act} {q p np : ProcId} {c' : Fin n} {st : Stage} {s : Shared n} {locks : List Lock}

theorem mem_plain_code {x : Stmt} (next : m.code (m.running c) = act a :: k)
    (member : x ∈ (plain m c k o).code t) : (t = m.running c ∧ x ∈ o.push) ∨ x ∈ m.code t := by
  rw [plain_code] at member
  split at member
  · rename_i same
    rcases mem_append.mp member with pushed | old
    · exact .inl ⟨same, pushed⟩
    · exact .inr (by rw [same, next]; exact mem_cons_of_mem _ old)
  · exact .inr member

theorem mem_apply_code (ran : exec c choice (m.locks c) m.shared a = some o)
    (pending : act b ∈ (m.apply c k o).code t) : b = .user ∨ act b ∈ (plain m c k o).code t := by
  rcases exec_fresh ran with none | ⟨p, np, -, some⟩
  · have code : (m.apply c k o).code = (plain m c k o).code := by
      rw [Config.apply, none]
      cases o.switch <;> rfl
    rw [code] at pending
    exact .inr pending
  · have code : (m.apply c k o).code t = if t = .process np then forkret np else (plain m c k o).code t := by
      rw [← update_apply, Config.apply, some]
      cases o.switch <;> rfl
    rw [code] at pending
    split at pending
    · exact .inl (by simpa [forkret] using pending)
    · exact .inr pending

theorem newState_of_ne {old : ProcState} (other : ∀ state, stores a ≠ some (q, state)) : newState a q old = old := by
  unfold newState
  split
  · rename_i p state store
    by_cases same : q = p
    · subst same
      exact absurd store (other state)
    · exact if_neg same
  · rfl

theorem plain_state (ran : exec c choice (m.locks c) m.shared a = some o)
    (other : ∀ state, stores a ≠ some (q, state)) : ((plain m c k o).table.proc q).state = (m.table.proc q).state :=
  (exec_state ran q).trans (newState_of_ne other)

theorem pre_congr {t u : Table} (known : Pre t b)
    (same : ∀ q, scope b = some (.proc q) → (u.proc q).state = (t.proc q).state) : Pre u b := by
  cases b with
  | wakeStore q | freeStore q | setUsed r q | forkCopy q =>
    simp only [Pre, same q rfl] at known ⊢
    exact known
  | _ => trivial

section

variable (inv : Inv m stage) (next : m.code (m.running c) = act a :: k)

include inv next

section

variable (ran : exec c choice (m.locks c) m.shared a = some o)

include ran

theorem Inv.plain_typed (t : Thread n) : Typed ((plain m c k o).code t) := by
  have typed := inv.typed (m.running c)
  rw [next] at typed
  rw [plain_code]
  split
  · exact (exec_fits ran typed.1 typed.2).1
  · exact inv.typed t

theorem Inv.plain_balanced : Balanced discipline (plain m c k o) := by
  have typed := inv.typed (m.running c)
  rw [next] at typed
  have same : ∀ l, holds (o.push ++ k) l = holds (m.code (m.running c)) l := by
    rw [next]
    exact (exec_fits ran typed.1 typed.2).2
  have moved := inv.balanced.setCode same
  exact ⟨moved.locks, moved.exclusive, moved.nodup, moved.apart⟩

theorem Inv.pushed (pushed : act b ∈ o.push) : Pushed c m.shared a o.shared.table b :=
  exec_push ran (inv.known (m.running c) a (by rw [next]; simp)) b pushed

end

theorem Inv.proc_none (scheduler : m.running c = .scheduler c) (outside : Posts a = false) :
    m.shared.proc c = none := by
  have phase := inv.phase c
  rw [scheduler] at next
  cases at_ : stage c with
  | idle =>
    rw [at_] at phase
    exact phase.2.1
  | away q =>
    rw [at_] at phase
    rw [phase.1] at scheduler
    contradiction
  | selecting q | chosen q | marking q | back q =>
    rw [at_] at phase
    rw [phase.2.2] at next
    cases next
    all_goals contradiction
  | posting q | leaving q =>
    rw [at_] at phase
    rw [phase.2.2.1] at next
    cases next
    contradiction

theorem Inv.plain_belongs (ran : exec c choice (m.locks c) m.shared a = some o) (t : Thread n) :
    Acts (Belongs t) ((plain m c k o).code t) := by
  intro b pending
  rcases mem_plain_code next pending with ⟨rfl, pushed⟩ | old
  · have facts := inv.pushed next ran pushed
    have own := inv.belongs (m.running c) a (by rw [next]; simp)
    rcases inv.running_cases c with scheduler | ⟨p, process, at_⟩
    · have outside : Posts a = false := by
        by_contra posts
        rw [exec_posts_push ran (by simpa using posts)] at pushed
        exact absurd pushed not_mem_nil
      have none := inv.proc_none next scheduler outside
      rw [scheduler] at own ⊢
      cases owned : owner b with
      | none => exact owned
      | some q =>
        rcases facts.owned q owned with same | same
        · change owner a = .none at own
          rw [own] at same
          contradiction
        · rw [none] at same
          contradiction
    · have phase := inv.phase c
      rw [at_] at phase
      rw [process] at own ⊢
      refine ⟨?_, fun q owned => ?_⟩
      · by_contra scheduler
        have := facts.scheduler (by simpa using scheduler)
        rw [own.1] at this
        contradiction
      · rcases facts.owned q owned with same | same
        · exact own.2 q same
        · rw [phase.2.1] at same
          exact (Option.some.inj same).symm
  · exact inv.belongs t b old

end

theorem Inv.scheduler_ne (inv : Inv m stage) (other : c' ≠ c) : Thread.scheduler c' ≠ m.running c := by
  rcases inv.running_cases c with scheduler | ⟨p, process, -⟩
  · rw [scheduler]
    exact fun same => other (Thread.scheduler.inj same)
  · rw [process]
    simp

theorem Phase.congr {m' : Machine n} (phase : Phase m c st)
    (running : m'.running c = m.running c) (proc : m'.shared.proc c = m.shared.proc c)
    (code : m'.code (.scheduler c) = m.code (.scheduler c))
    (state : ∀ p, st.engaged = some p → m.running c = .scheduler c →
      (m'.table.proc p).state = (m.table.proc p).state) : Phase m' c st := by
  cases st with
  | posting p | leaving p =>
    obtain ⟨here, current, rest, now⟩ := phase
    refine ⟨running.trans here, proc.trans current, code.trans rest, ?_⟩
    rw [state p rfl here]
    exact now
  | idle =>
    obtain ⟨here, current, rest⟩ := phase
    exact ⟨running.trans here, proc.trans current, by rw [code]; exact rest⟩
  | selecting p | chosen p | marking p | away p | back p =>
    obtain ⟨here, current, rest⟩ := phase
    exact ⟨running.trans here, proc.trans current, code.trans rest⟩

theorem exec_proc_other (ran : exec c choice locks s a = some o) (other : c' ≠ c) : o.shared.proc c' = s.proc c' := by
  rw [exec_proc ran]
  split
  · exact update_of_ne other _ _
  · exact update_of_ne other _ _
  · rfl

theorem Inv.plain_phase_other (inv : Inv m stage) (next : m.code (m.running c) = act a :: k)
    (ran : exec c choice (m.locks c) m.shared a = some o) (other : c' ≠ c) : Phase (plain m c k o) c' (stage c') := by
  refine (inv.phase c').congr rfl (exec_proc_other ran other) ?_ fun p engaged scheduler => ?_
  · rw [plain_code, if_neg (inv.scheduler_ne other)]
  · exact plain_state ran fun state store =>
      inv.store_not_engaged next store other scheduler engaged

theorem Inv.plain_suspended (inv : Inv m stage) (p : ProcId) (idle : ∀ c', (plain m c k o).running c' ≠ .process p) :
    Only (.proc p) ((plain m c k o).code (.process p)) ∧ Clear ((plain m c k o).code (.process p)) := by
  have elsewhere : Thread.process p ≠ m.running c := (idle c).symm
  rw [plain_code, if_neg elsewhere]
  exact inv.suspended p idle

theorem mustRun_of_isSched (fits : actOk a k) (sched : IsSched a = true)
    (stays : ∀ q, a ≠ .switchBack q) (own : ∀ q, owner a = some q → q = p) : mustRun p k = false := by
  cases a with
  | schedCheck q =>
    cases own q rfl
    exact fits.2
  | switchBack q => exact absurd rfl (stays q)
  | update u =>
    cases u with
    | charge q =>
      cases own q rfl
      exact fits.2
    | _ => contradiction
  | _ => contradiction

section

variable (inv : Inv m stage) (next : m.code (m.running c) = act a :: k)
  (ran : exec c choice (m.locks c) m.shared a = some o)

include inv next ran

theorem Inv.plain_runs (stays : ∀ q, a ≠ .switchBack q)
    (c' : Fin n) (p : ProcId) (process : m.running c' = .process p)
    (must : mustRun p ((plain m c k o).code (.process p)) = true) :
    ((plain m c k o).table.proc p).state = .running := by
  by_cases same : c' = c
  · subst same
    rw [plain_code, if_pos process.symm] at must
    have typed := inv.typed (m.running c')
    rw [next] at typed
    have own := inv.belongs (m.running c') a (by rw [next]; simp)
    rw [process] at own
    by_cases sched : IsSched a = true
    · -- nothing is pushed in sched, and the rest of it does not claim to be RUNNING
      have none : o.push = [] := by
        cases a with
        | schedCheck q =>
          simp only [exec] at ran
          split at ran
          · cases ran
            rfl
          · contradiction
        | switchBack q => exact absurd rfl (stays q)
        | update u =>
          cases ran
          rfl
        | _ => contradiction
      rw [none, nil_append, mustRun_of_isSched typed.1 sched stays own.2] at must
      contradiction
    · have running := inv.own_running process next (by simpa using sched)
      by_cases stored : ∃ state, stores a = some (p, state)
      · obtain ⟨state, store⟩ := stored
        have before := inv.before next store
        rw [running] at before
        cases a with
        | leave how q =>
          cases own.2 q rfl
          cases ran
          rw [nil_append, typed.1.2] at must
          contradiction
        | setRunning q => exact absurd own.1 (by simp [IsScheduler, Posts])
        | wakeStore q | freeStore q | setUsed r q | publish q => simp [Before] at before
        | _ => simp [stores] at store
      · rw [plain_state ran (not_exists.mp stored)]
        exact running
  · have apart : Thread.process p ≠ m.running c := by
      rw [← process]
      exact fun same' => same (inv.balanced.apart _ _ same')
    rw [plain_code, if_neg apart] at must
    rw [plain_state ran fun state store => inv.store_not_running next store same process must]
    exact inv.runs c' p process must

theorem Inv.plain_known (t : Thread n) : Acts (Pre (plain m c k o).table) ((plain m c k o).code t) := by
  intro b pending
  rw [plain_code] at pending
  split at pending
  · rename_i here
    rcases mem_append.mp pending with pushed | old
    · exact (inv.pushed next ran pushed).pre
    · refine pre_congr (inv.known (m.running c) b (by rw [next]; exact mem_cons_of_mem _ old))
        fun q under => plain_state ran fun state store => inv.store_last next store old under
  · rename_i elsewhere
    exact pre_congr (inv.known t b pending) fun q under => plain_state ran fun state store =>
      inv.store_not_scoped next store elsewhere pending under

theorem Inv.plain_forks (t : Thread n) (np : ProcId) (forks : act (.publish np) ∈ (plain m c k o).code t) :
    ((plain m c k o).table.proc np).state = .used := by
  rcases mem_plain_code next forks with ⟨rfl, pushed⟩ | old
  · obtain ⟨p, rfl⟩ := (inv.pushed next ran pushed).publish np rfl
    exact (exec_state ran np).trans (if_pos rfl)
  · rw [plain_state ran fun state store => ?_]
    · exact inv.forks t np old
    · -- the thread has published this slot just now, and it does so once
      obtain ⟨rfl, rfl⟩ := inv.store_forks next store old
      have once := inv.forksOnce (m.running c)
      rw [next] at once
      rw [plain_code, if_pos rfl] at forks
      cases ran
      have later : act (.publish np) ∈ k := by simpa using forks
      exact (nodup_cons.mp once).1 (mem_filterMap.mpr ⟨_, later, rfl⟩)

theorem Inv.plain_forksAlone (t t' : Thread n) (np : ProcId) (first : act (.publish np) ∈ (plain m c k o).code t)
    (second : act (.publish np) ∈ (plain m c k o).code t') : t = t' := by
  have fresh : act (.publish np) ∈ o.push → ∀ t, act (.publish np) ∉ m.code t := by
    intro pushed t old
    obtain ⟨p, rfl⟩ := (inv.pushed next ran pushed).publish np rfl
    have unused : (m.table.proc np).state = .unused :=
      inv.known (m.running c) (.setUsed p np) (by rw [next]; simp)
    rw [inv.forks t np old] at unused
    contradiction
  rcases mem_plain_code next first with ⟨rfl, pushed⟩ | old
  · rcases mem_plain_code next second with ⟨rfl, -⟩ | old'
    · rfl
    · exact absurd old' (fresh pushed t')
  · rcases mem_plain_code next second with ⟨rfl, pushed⟩ | old'
    · exact absurd old (fresh pushed t)
    · exact inv.forksAlone t t' np old old'

end

theorem exec_publishes_nodup (ran : exec c choice locks s a = some o) (known : Pre s.table a) :
    (o.push.filterMap publishes).Nodup := by
  by_cases forks : ∃ p np, a = .setUsed p np
  · obtain ⟨p, np, rfl⟩ := forks
    simp only [exec] at ran
    split at ran <;> cases ran <;> simp [publishes, freeproc, filterMap_cons]
  · have none : o.push.filterMap publishes = [] := by
      rw [filterMap_eq_nil_iff]
      intro x pushed
      cases found : publishes x with
      | none => rfl
      | some np =>
        obtain rfl : x = act (.publish np) := mem_publishes.mp found
        obtain ⟨p, same⟩ := (exec_push ran known _ pushed).publish np rfl
        exact absurd ⟨p, np, same⟩ forks
    rw [none]
    exact nodup_nil

section

variable (inv : Inv m stage) (next : m.code (m.running c) = act a :: k)
  (ran : exec c choice (m.locks c) m.shared a = some o)

include inv next ran

theorem Inv.plain_forksOnce (t : Thread n) : (((plain m c k o).code t).filterMap publishes).Nodup := by
  rw [plain_code]
  split
  · have once := inv.forksOnce (m.running c)
    have known := inv.known (m.running c) a (by rw [next]; simp)
    rw [next, filterMap_cons] at once
    have rest : (k.filterMap publishes).Nodup := by
      split at once
      · exact once
      · exact once.of_cons
    rw [filterMap_append, nodup_append']
    refine ⟨exec_publishes_nodup ran known, rest, fun np pushed old => ?_⟩
    -- the slot was UNUSED before the fork and USED before its publication
    obtain ⟨x, pushed, found⟩ := mem_filterMap.mp pushed
    obtain rfl := mem_publishes.mp found
    obtain ⟨y, old, found⟩ := mem_filterMap.mp old
    obtain rfl := mem_publishes.mp found
    obtain ⟨p, rfl⟩ := (inv.pushed next ran pushed).publish np rfl
    have used := inv.forks (m.running c) np (by rw [next]; exact mem_cons_of_mem _ old)
    change (m.table.proc np).state = .unused at known
    rw [used] at known
    contradiction
  · exact inv.forksOnce t

theorem Inv.plain_forksFree (t t' : Thread n) (np : ProcId) (forks : act (.publish np) ∈ (plain m c k o).code t) :
    act (.freeStore np) ∉ (plain m c k o).code t' := by
  intro frees
  have known := inv.known (m.running c) a (by rw [next]; simp)
  rcases mem_plain_code next forks with ⟨rfl, pushed⟩ | old
  · rcases mem_plain_code next frees with ⟨rfl, pushed'⟩ | old'
    · exact exec_publish_not_free ran known pushed pushed'
    · obtain ⟨p, rfl⟩ := (inv.pushed next ran pushed).publish np rfl
      have freed := inv.known t' (.freeStore np) old'
      change (m.table.proc np).state = .unused at known
      simp [Pre, known] at freed
  · rcases mem_plain_code next frees with ⟨rfl, pushed'⟩ | old'
    · have used := inv.forks t np old
      rcases (inv.pushed next ran pushed').free np rfl with zombie | unused | rfl
      · exact absurd (used.symm.trans zombie) (by simp)
      · exact absurd (used.symm.trans unused) (by simp)
      · exact absurd (used.symm.trans known) (by simp)
    · exact inv.forksFree t t' np old old'

theorem Inv.plain_step (stays : ∀ q, a ≠ .switchBack q)
    (phase : Phase (plain m c k o) c st) (engaged : ∀ p, st.engaged = some p → (stage c).engaged = some p)
    (marks : ∀ p, st.marks = some p → ((plain m c k o).table.proc p).state = .runnable ∧
      ∀ c', c' ≠ c → (stage c').marks ≠ some p) : Inv (plain m c k o) (update stage c st) where
  typed := inv.plain_typed next ran
  balanced := inv.plain_balanced next ran
  belongs := inv.plain_belongs next ran
  phase c' := by
    by_cases same : c' = c
    · subst same
      rw [update_self]
      exact phase
    · rw [update_of_ne same]
      exact inv.plain_phase_other next ran same
  suspended := inv.plain_suspended
  runs := inv.plain_runs next ran stays
  known := inv.plain_known next ran
  marks c' p marked := by
    by_cases same : c' = c
    · subst same
      rw [update_self] at marked
      exact (marks p marked).1
    · rw [update_of_ne same] at marked
      rw [plain_state ran fun state store => inv.store_not_marked next store same marked]
      exact inv.marks c' p marked
  marksAlone := alone_update inv.marksAlone fun p marked c' other => (marks p marked).2 c' other
  alone := alone_update inv.alone fun p held c' other held' =>
    other (inv.alone c' c p held' (engaged p held))
  forks := inv.plain_forks next ran
  forksAlone := inv.plain_forksAlone next ran
  forksOnce := inv.plain_forksOnce next ran
  forksFree := inv.plain_forksFree next ran

end

def Claimed (m : Machine n) (p : ProcId) : Prop :=
  ∃ c, act (.setRunning p) ∈ m.code (.scheduler c)

theorem Inv.claimed_of_marks (inv : Inv m stage) (marked : (stage c).marks = some p) : Claimed m p := by
  have phase := inv.phase c
  refine ⟨c, ?_⟩
  cases at_ : stage c with
  | selecting q | chosen q | marking q =>
    rw [at_] at marked phase
    cases marked
    rw [phase.2.2]
    simp [selected, DeisoXv6.chosen]
  | idle | posting q | leaving q | away q | back q =>
    rw [at_] at marked
    contradiction

theorem Inv.marks_of_claimed (inv : Inv m stage) (claimed : Claimed m p) : ∃ c, (stage c).marks = some p := by
  obtain ⟨c, pending⟩ := claimed
  have phase := inv.phase c
  refine ⟨c, ?_⟩
  cases at_ : stage c with
  | idle =>
    rw [at_] at phase
    exact absurd (phase.2.2 _ pending) (by simp [Posts])
  | selecting q | chosen q | marking q =>
    rw [at_] at phase
    rw [phase.2.2] at pending
    have same : p = q := by simpa [selected, DeisoXv6.chosen, resume] using pending
    rw [same]
    rfl
  | posting q | leaving q =>
    rw [at_] at phase
    rw [phase.2.2.1] at pending
    simp [resume] at pending
  | away q | back q =>
    rw [at_] at phase
    rw [phase.2.2] at pending
    simp [resume] at pending

theorem exec_pick (ran : exec c choice locks s .pick = some o) :
    (s.table.pick.1 = none ∧ o.push = [release .tickets, act .loop]) ∨
      ∃ p, s.table.pick.1 = some p ∧ o.push = selected p := by
  simp only [exec] at ran
  split at ran
  · rename_i picked
    cases ran
    exact .inl ⟨by rw [picked], rfl⟩
  · rename_i p t picked
    cases ran
    exact .inr ⟨p, by rw [picked], rfl⟩

theorem Inv.plain_idle (inv : Inv m stage) (next : m.code (m.running c) = act a :: k)
    (ran : exec c choice (m.locks c) m.shared a = some o) (at_ : stage c = .idle) : Phase (plain m c k o) c .idle ∨
      ∃ p, a = .pick ∧ m.table.pick.1 = some p ∧ Phase (plain m c k o) c (.selecting p) := by
  have phase := inv.phase c
  rw [at_] at phase
  obtain ⟨scheduler, none, outside⟩ := phase
  have posts : Acts (fun b => Posts b = false) (act a :: k) := by
    rw [← next, scheduler]
    exact outside
  rw [acts_act] at posts
  have proc : o.shared.proc c = .none := by
    rw [exec_proc ran]
    cases a with
    | setProc p | clearProc => exact absurd posts.1 (by simp [Posts])
    | _ => exact none
  have code : (plain m c k o).code (.scheduler c) = o.push ++ k := by
    rw [plain_code, if_pos scheduler.symm]
  by_cases picks : a = .pick
  · subst picks
    have typed := inv.typed (m.running c)
    rw [next] at typed
    obtain rfl : k = [] := typed.1
    rw [append_nil] at code
    rcases exec_pick ran with ⟨-, push⟩ | ⟨p, picked, push⟩
    · refine .inl ⟨scheduler, proc, ?_⟩
      rw [code, push]
      simp [Posts]
    · exact .inr ⟨p, rfl, picked, scheduler, proc, code.trans push⟩
  · refine .inl ⟨scheduler, proc, ?_⟩
    rw [code, acts_append]
    refine ⟨fun b pushed => ?_, posts.2⟩
    by_contra posting
    exact picks ((inv.pushed next ran pushed).posts (by simpa using posting))

theorem Inv.plain_stage (inv : Inv m stage) (next : m.code (m.running c) = act a :: k)
    (ran : exec c choice (m.locks c) m.shared a = some o)
    (unclaimed : a = .pick → ∀ p, m.table.pick.1 = some p → ¬Claimed m p) :
    ∃ st, Phase (plain m c k o) c st ∧ (∀ p, st.engaged = some p → (stage c).engaged = some p) ∧
      (∀ p, st.marks = some p → ((plain m c k o).table.proc p).state = .runnable ∧
        ∀ c', c' ≠ c → (stage c').marks ≠ some p) ∧ ∀ p, a = .swtch p → stage c = .leaving p ∧ st = .back p := by
  have phase := inv.phase c
  have code : m.running c = .scheduler c → (plain m c k o).code (.scheduler c) = o.push ++ k := by
    intro scheduler
    rw [plain_code, if_pos scheduler.symm]
  cases at_ : stage c with
  | idle =>
    have leaves : ∀ p, a ≠ .swtch p := by
      rintro p rfl
      rw [at_] at phase
      have := phase.2.2 (.swtch p) (by rw [← phase.1, next]; simp)
      contradiction
    rcases inv.plain_idle next ran at_ with stays | ⟨p, rfl, picked, moves⟩
    · exact ⟨.idle, stays, by simp [Stage.engaged], by simp [Stage.marks], fun p same => absurd same (leaves p)⟩
    · refine ⟨.selecting p, moves, by simp [Stage.engaged], fun q same => ?_, by simp⟩
      cases same
      refine ⟨?_, fun c' other marked => unclaimed rfl p picked (inv.claimed_of_marks marked)⟩
      rw [plain_state ran (by simp [stores])]
      exact pick_runnable picked
  | away p =>
    rw [at_] at phase
    have belongs := inv.belongs (m.running c) a (by rw [next]; simp)
    rw [phase.1] at belongs
    have proc : o.shared.proc c = m.shared.proc c := by
      rw [exec_proc ran]
      cases a with
      | setProc q | clearProc => exact absurd belongs.1 (by simp [IsScheduler, Posts])
      | _ => rfl
    refine ⟨.away p, ⟨phase.1, proc.trans phase.2.1, ?_⟩, by simp, by simp [Stage.marks], ?_⟩
    · rw [plain_code, if_neg (by rw [phase.1]; simp)]
      exact phase.2.2
    · rintro q rfl
      exact absurd belongs.1 (by simp [IsScheduler, Posts])
  | selecting p | chosen p =>
    rw [at_] at phase
    rw [phase.1, phase.2.2] at next
    simp [selected, DeisoXv6.chosen] at next
  | marking p =>
    rw [at_] at phase
    have code := code phase.1
    rw [phase.1, phase.2.2] at next
    cases next
    refine ⟨.posting p, ⟨phase.1, ?_, ?_, ?_⟩, by simp [Stage.engaged], by simp [Stage.marks], by simp⟩
    · exact (congrFun (exec_proc ran) c).trans phase.2.1
    · rw [code, exec_posts_push ran rfl, nil_append]
    · exact (exec_state ran p).trans (if_pos rfl)
  | posting p =>
    rw [at_] at phase
    have code := code phase.1
    rw [phase.1, phase.2.2.1] at next
    cases next
    refine ⟨.leaving p, ⟨phase.1, ?_, ?_, ?_⟩, by simp [Stage.engaged], by simp [Stage.marks], by simp⟩
    · exact (congrFun (exec_proc ran) c).trans (update_self ..)
    · rw [code, exec_posts_push ran rfl, nil_append]
    · rw [plain_state ran (by simp [stores])]
      exact phase.2.2.2
  | leaving p =>
    rw [at_] at phase
    have code := code phase.1
    rw [phase.1, phase.2.2.1] at next
    cases next
    refine ⟨.back p, ⟨phase.1, ?_, ?_⟩, by simp [Stage.engaged], by simp [Stage.marks], by simp⟩
    · exact (congrFun (exec_proc ran) c).trans phase.2.1
    · rw [code, exec_posts_push ran rfl, nil_append]
  | back p =>
    rw [at_] at phase
    have code := code phase.1
    rw [phase.1, phase.2.2] at next
    cases next
    refine ⟨.idle, ⟨phase.1, ?_, ?_⟩, by simp [Stage.engaged], by simp [Stage.marks], by simp⟩
    · exact (congrFun (exec_proc ran) c).trans (update_self ..)
    · rw [code, exec_posts_push ran rfl, nil_append]
      simp [Posts]

theorem holds_of_mustRun (typed : Typed k) (belongs : Acts (Belongs (.process p : Thread n)) k)
    (sched : mustRun p k = false) : holds k (.proc p) = true := by
  induction k with
  | nil => contradiction
  | cons x k ih =>
    cases x with
    | acquire l =>
      rw [mustRun] at sched
      split at sched
      · contradiction
      · rename_i other
        simp [other, ih typed.2.2.2 (acts_acquire.mp belongs) sched]
    | release l =>
      rw [mustRun] at sched
      split at sched
      · contradiction
      · simp [ih typed.2.2 (acts_release.mp belongs) sched]
    | act a =>
      have own := (acts_act.mp belongs).1.2
      have fits := typed.1
      rw [holds_act, Bool.or_eq_true]
      right
      cases a with
      | schedCheck q =>
        cases own q rfl
        exact fits.1
      | switchBack q =>
        cases own q rfl
        exact (fits.1 _).mpr rfl
      | update u =>
        cases u with
        | charge q =>
          cases own q rfl
          exact fits.1
        | _ => contradiction
      | _ => contradiction

theorem Inv.running_or_locked (inv : Inv m stage) (process : m.running c = .process p) :
    (m.table.proc p).state = .running ∨ .proc p ∈ m.locks c := by
  cases must : mustRun p (m.code (.process p)) with
  | true => exact .inl (inv.runs c p process must)
  | false =>
    right
    rw [inv.lock_iff, process]
    exact holds_of_mustRun (inv.typed _) (inv.belongs _) must

theorem Inv.unused_idle (inv : Inv m stage) (next : m.code (m.running c) = act (.setUsed p np) :: k) (c' : Fin n) :
    m.running c' ≠ .process np := by
  intro process
  have unused : (m.table.proc np).state = .unused := inv.before next rfl
  rcases inv.running_or_locked process with running | lock
  · rw [unused] at running
    contradiction
  · obtain rfl := inv.exclusive (inv.store_locks next rfl).1 lock
    have running := inv.own_running process next rfl
    rw [unused] at running
    contradiction

theorem Inv.fresh_step (inv : Inv m stage) (idle : ∀ c, m.running c ≠ .process np) :
    Inv (m.setCode (.process np) (forkret np)) stage := by
  have code : ∀ t, (m.setCode (.process np) (forkret np)).code t =
      if t = .process np then forkret np else m.code t := fun t => update_apply ..
  have old : ∀ {t a}, act a ∈ (m.setCode (.process np) (forkret np)).code t →
      (t = .process np ∧ a = .user) ∨ act a ∈ m.code t := by
    intro t a pending
    rw [code] at pending
    split at pending
    · rename_i same
      exact .inl ⟨same, by simpa [forkret] using pending⟩
    · exact .inr pending
  have forks : ∀ {t q}, act (.publish q) ∈ (m.setCode (.process np) (forkret np)).code t →
      act (.publish q) ∈ m.code t := fun pending => (old pending).resolve_left (by simp)
  refine ⟨fun t => ?_, inv.balanced.fresh idle, fun t a pending => ?_, fun c => ?_, fun p alone => ?_,
    fun c p process must => ?_, fun t a pending => ?_, inv.marks, inv.marksAlone, inv.alone,
    fun t q pending => inv.forks t q (forks pending),
    fun t t' q first second => inv.forksAlone t t' q (forks first) (forks second), fun t => ?_,
    fun t t' q pending freed => inv.forksFree t t' q (forks pending) ((old freed).resolve_left (by simp))⟩
  · rw [code]
    split
    · exact typed_forkret np
    · exact inv.typed t
  · rcases old pending with ⟨rfl, rfl⟩ | before
    · exact ⟨rfl, by simp [owner]⟩
    · exact inv.belongs t a before
  · exact (inv.phase c).congr rfl rfl (by rw [code, if_neg (by simp)]) fun _ _ _ => rfl
  · rw [code]
    split
    · rename_i same
      cases same
      exact ⟨fun l => by simp [forkret, consumes], by simp [forkret, Clear, scope]⟩
    · exact inv.suspended p alone
  · have other : Thread.process p ≠ .process np := fun same => idle c (process.trans same)
    rw [code, if_neg other] at must
    exact inv.runs c p process must
  · rcases old pending with ⟨rfl, rfl⟩ | before
    · trivial
    · exact inv.known t a before
  · rw [code]
    split
    · exact nodup_nil
    · exact inv.forksOnce t

theorem only_resume (p : ProcId) : Only (.proc p) (resume p) := by
  intro l
  by_cases ticks : Lock.ticks = l
  · simp [resume, consumes, ← ticks]
  · simp [resume, consumes, ticks]

theorem Inv.swtch_step (inv : Inv m stage) (at_ : stage c = .back p) (running : (m.table.proc p).state = .running) :
    Inv { m with running := update m.running c (.process p) } (update stage c (.away p)) := by
  have phase := inv.phase c
  rw [at_] at phase
  have idle : ∀ c', m.running c' ≠ .process p := by
    intro c' process
    have away := inv.away process
    obtain rfl := inv.alone c' c p (by rw [away]; rfl) (by rw [at_]; rfl)
    rw [at_] at away
    contradiction
  have only := (inv.suspended p idle).1
  refine ⟨inv.typed, inv.balanced.switch idle fun l => ?_, inv.belongs, fun c' => ?_, fun q alone => ?_,
    fun c' q process must => ?_, inv.known, fun c' q marked => ?_,
    alone_update inv.marksAlone (by simp [Stage.marks]), alone_update inv.alone ?_, inv.forks,
    inv.forksAlone, inv.forksOnce, inv.forksFree⟩
  · rw [phase.1, phase.2.2, Bool.eq_iff_iff]
    exact (only l).trans (only_resume p l).symm
  · by_cases same : c' = c
    · subst same
      rw [update_self]
      exact ⟨update_self .., phase.2.1, phase.2.2⟩
    · rw [update_of_ne same]
      exact (inv.phase c').congr (update_of_ne same ..) rfl rfl fun _ _ _ => rfl
  · refine inv.suspended q fun c' process => ?_
    by_cases same : c' = c
    · rw [same, phase.1] at process
      contradiction
    · exact alone c' ((update_of_ne same ..).trans process)
  · by_cases same : c' = c
    · subst same
      cases (update_self ..).symm.trans process
      exact running
    · exact inv.runs c' q ((update_of_ne same ..).symm.trans process) must
  · by_cases same : c' = c
    · rw [same, update_self] at marked
      contradiction
    · rw [update_of_ne same] at marked
      exact inv.marks c' q marked
  · intro q engaged c' other theirs
    cases engaged
    exact other (inv.alone c' c p theirs (by rw [at_]; rfl))

theorem Inv.switchBack_step (inv : Inv m stage) (next : m.code (m.running c) = act (.switchBack p) :: k) :
    Inv { m.setCode (m.running c) k with running := update m.running c (.scheduler c) }
      (update stage c (.back p)) := by
  have process := inv.owner_runs next rfl
  have at_ := inv.away process
  have phase := inv.phase c
  rw [at_] at phase
  have fits : Only (.proc p) k ∧ Clear k := by
    have typed := inv.typed (m.running c)
    rw [next] at typed
    exact typed.1
  have ran : exec c .go (m.locks c) m.shared (.switchBack p) = some ⟨m.shared, [], some (.scheduler c), none⟩ :=
    rfl
  have idle : ∀ c', m.running c' ≠ .scheduler c := by
    intro c' scheduler
    rcases inv.running_cases c' with same | ⟨q, same, -⟩
    · rw [same] at scheduler
      cases scheduler
      rw [process] at same
      contradiction
    · rw [same] at scheduler
      contradiction
  have code : ∀ t, (m.setCode (m.running c) k).code t = if t = m.running c then k else m.code t :=
    fun t => update_apply ..
  refine ⟨inv.plain_typed next ran, (inv.plain_balanced next ran).switch idle fun l => ?_,
    inv.plain_belongs next ran, fun c' => ?_, fun q alone => ?_, fun c' q running must => ?_,
    inv.plain_known next ran, fun c' q marked => ?_, alone_update inv.marksAlone (by simp [Stage.marks]),
    alone_update inv.alone ?_, inv.plain_forks next ran, inv.plain_forksAlone next ran,
    inv.plain_forksOnce next ran, inv.plain_forksFree next ran⟩
  · change holds ((m.setCode (m.running c) k).code (.scheduler c)) l =
      holds ((m.setCode (m.running c) k).code (m.running c)) l
    rw [code, code, if_pos rfl, if_neg (Ne.symm (idle c)), phase.2.2, Bool.eq_iff_iff]
    exact (only_resume p l).trans (fits.1 l).symm
  · by_cases same : c' = c
    · subst same
      rw [update_self]
      refine ⟨update_self .., phase.2.1, ?_⟩
      exact ((code _).trans (if_neg (Ne.symm (idle c')))).trans phase.2.2
    · rw [update_of_ne same]
      exact (inv.plain_phase_other next ran same).congr (update_of_ne same ..) rfl rfl fun _ _ _ => rfl
  · change Only _ ((m.setCode (m.running c) k).code _) ∧ Clear ((m.setCode (m.running c) k).code _)
    rw [code]
    split
    · rename_i same
      cases same.trans process
      exact fits
    · rename_i other
      refine inv.suspended q fun c' there => ?_
      by_cases same : c' = c
      · exact other (same ▸ there.symm)
      · exact alone c' ((update_of_ne same ..).trans there)
  · by_cases same : c' = c
    · cases (congrArg _ same).trans ((update_self ..).symm.trans (same ▸ running))
    · have there : m.running c' = .process q := (update_of_ne same ..).symm.trans running
      have other : Thread.process q ≠ m.running c := fun mine =>
        same (inv.balanced.apart _ _ (there.trans mine))
      refine inv.runs c' q there ?_
      rw [← must]
      exact congrArg _ ((code _).trans (if_neg other)).symm
  · by_cases same : c' = c
    · rw [same, update_self] at marked
      contradiction
    · rw [update_of_ne same] at marked
      exact inv.marks c' q marked
  · intro q engaged c' other theirs
    cases engaged
    exact other (inv.alone c' c p theirs (by rw [at_]; rfl))

/-- Every action keeps the invariant, as long as no scheduler picks a claimed process. -/
theorem Inv.act_step (inv : Inv m stage) (next : m.code (m.running c) = act a :: k)
    (ran : exec c choice (m.locks c) m.shared a = some o)
    (unclaimed : a = .pick → ∀ p, m.table.pick.1 = some p → ¬Claimed m p) : ∃ stage', Inv (m.apply c k o) stage' := by
  have switch := exec_switch ran
  by_cases back : ∃ p, a = .switchBack p
  · obtain ⟨p, rfl⟩ := back
    cases ran
    exact ⟨_, inv.switchBack_step next⟩
  obtain ⟨st, phase, engaged, marks, leaves⟩ := inv.plain_stage next ran unclaimed
  have moved := inv.plain_step next ran (not_exists.mp back) phase engaged marks
  by_cases away : ∃ p, a = .swtch p
  · obtain ⟨p, rfl⟩ := away
    obtain ⟨at_, rfl⟩ := leaves p rfl
    have before := inv.phase c
    rw [at_] at before
    have running : ((plain m c k o).table.proc p).state = .running := by
      rw [plain_state ran (by simp [stores])]
      exact before.2.2.2
    cases ran
    exact ⟨_, moved.swtch_step (update_self ..) running⟩
  · have stays : o.switch = none := by
      rw [switch]
      split
      · exact absurd ⟨_, rfl⟩ away
      · exact absurd ⟨_, rfl⟩ back
      · rfl
    refine ⟨update stage c st, ?_⟩
    rcases exec_fresh ran with none | ⟨p, np, rfl, some⟩
    · rw [Config.apply, none, stays]
      exact moved
    · rw [Config.apply, some, stays]
      exact moved.fresh_step (inv.unused_idle next)

end Action

end Steps

end DeisoXv6
