import DeisoXv6.Proc.Runs

/-! Interleavings of processes. The lottery is forgotten: a scheduler dispatches any RUNNABLE process that no
other CPU has picked, so that a process is on one CPU at a time. The runs of the kernel whose picks are of
unclaimed processes are among these. -/

set_option autoImplicit false

namespace DeisoXv6

open Function LockProgram LockProgram.Stmt Machine Table

variable {n : Nat}

def Shared.drawn (s : Shared n) (seed : UInt32) (push : List Stmt) : Outcome n :=
  ⟨{ s with table := { s.table with randomSeed := seed } }, push, none, none⟩

def deviceHandler (chan : Option Chan) (lk : Nat) : List Stmt :=
  acquire (.other lk) :: wakeup chan ++ [release (.other lk)]

inductive Interleaves (m : Machine n) (c : Fin n) : Choice → Machine n → Prop where
  | acquire {l : Lock} {k : List Stmt} (choice : Choice) (next : m.code (m.running c) = acquire l :: k)
      (free : m.Free l) : Interleaves m c choice ((m.take c l).setCode (m.running c) k)
  | release {l : Lock} {k : List Stmt} (choice : Choice) (next : m.code (m.running c) = release l :: k)
      (held : l ∈ m.locks c) : Interleaves m c choice ((m.drop c l).setCode (m.running c) k)
  | act {a : Act} {k : List Stmt} {choice : Choice} {o : Outcome n}
      (next : m.code (m.running c) = act a :: k) (other : a ≠ .pick)
      (ran : exec c choice (m.locks c) m.shared a = some o) : Interleaves m c choice (m.apply c k o)
  | idle {k : List Stmt} (choice : Choice) (seed : UInt32) (next : m.code (m.running c) = act .pick :: k) :
      Interleaves m c choice (m.apply c k (m.shared.drawn seed [release .tickets, act .loop]))
  | dispatch {k : List Stmt} {p : ProcId} (choice : Choice) (seed : UInt32)
      (next : m.code (m.running c) = act .pick :: k) (runnable : (m.table.proc p).state = .runnable)
      (unclaimed : ¬Claimed m p) : Interleaves m c choice (m.apply c k (m.shared.drawn seed (selected p)))
  | timer (free : m.locks c = []) :
      Interleaves m c .go (m.setCode (m.running c) (m.timerHandler c ++ m.code (m.running c)))
  | device (chan : Option Chan) (lk : Nat) (free : m.locks c = []) :
      Interleaves m c .go (m.setCode (m.running c) (deviceHandler chan lk ++ m.code (m.running c)))

def Event.cpuOf : Event n → Fin n
  | .cpu c _ | .timer c | .device c _ _ => c

def Event.choice : Event n → Choice
  | .cpu _ choice => choice
  | .timer _ | .device _ _ _ => .go

variable {e : Event n} {i : Nat} {es : List (Event n)}

section Steps

variable {m m' : Machine n} {stage : Fin n → Stage} {c : Fin n} {choice : Choice}

variable {s : Shared n} {t : Table} {p : ProcId} {l : Lock} {c' : Fin n}

theorem exec_pick_drawn {locks : List Lock} {o : Outcome n} (ran : exec c choice locks s .pick = some o) :
    ∃ seed, (s.table.pick.1 = none ∧ o = s.drawn seed [release .tickets, act .loop]) ∨
      ∃ p, s.table.pick.1 = some p ∧ o = s.drawn seed (selected p) := by
  have seeded : ∃ seed, s.table.pick.2 = { s.table with randomSeed := seed } := by
    unfold pick
    split
    · exact ⟨s.table.randomSeed, rfl⟩
    · exact ⟨_, rfl⟩
  obtain ⟨seed, table⟩ := seeded
  refine ⟨seed, ?_⟩
  simp only [exec] at ran
  split at ran
  · rename_i t picked
    rw [picked] at table
    cases ran
    change t = _ at table
    exact .inl ⟨by rw [picked], by rw [table]; rfl⟩
  · rename_i p t picked
    rw [picked] at table
    cases ran
    change t = _ at table
    exact .inr ⟨p, by rw [picked], by rw [table]; rfl⟩

theorem step_interleaves (ran : m.step e = some m') (unclaimed : PicksUnclaimed m e) :
    Interleaves m e.cpuOf e.choice m' := by
  cases e with
  | cpu c choice =>
    simp only [step, Config.step] at ran
    split at ran
    · contradiction
    · rename_i l k next
      split at ran
      · rename_i free
        cases ran
        exact .acquire choice next free
      · contradiction
    · rename_i l k next
      split at ran
      · rename_i held
        cases ran
        exact .release choice next held
      · contradiction
    · rename_i a k next
      obtain ⟨o, done, rfl⟩ := Option.map_eq_some_iff.mp ran
      by_cases picks : a = .pick
      · subst picks
        obtain ⟨seed, ⟨-, rfl⟩ | ⟨p, picked, rfl⟩⟩ := exec_pick_drawn done
        · exact .idle choice seed next
        · exact .dispatch choice seed next (pick_runnable picked) (unclaimed (by rw [next]; rfl) p picked)
      · exact .act next picks done
  | timer c =>
    simp only [step, Config.interrupt] at ran
    split at ran
    · rename_i free
      cases ran
      exact .timer free
    · contradiction
  | device c chan lk =>
    simp only [step, Config.interrupt] at ran
    split at ran
    · rename_i free
      cases ran
      exact .device chan lk free
    · contradiction

theorem Inv.congr_shared (inv : Inv m stage) (proc : s.proc = m.shared.proc)
    (state : ∀ p, (s.table.proc p).state = (m.table.proc p).state) : Inv { m with shared := s } stage where
  typed := inv.typed
  balanced := ⟨inv.balanced.locks, inv.balanced.exclusive, inv.balanced.nodup, inv.balanced.apart⟩
  belongs := inv.belongs
  phase c := (inv.phase c).congr rfl (congrFun proc c) rfl fun p _ _ => state p
  suspended := inv.suspended
  runs c p process must := (state p).trans (inv.runs c p process must)
  known t b pending := pre_congr (inv.known t b pending) fun q _ => state q
  marks c p marked := (state p).trans (inv.marks c p marked)
  marksAlone := inv.marksAlone
  alone := inv.alone
  forks t np pending := (state np).trans (inv.forks t np pending)
  forksAlone := inv.forksAlone
  forksOnce := inv.forksOnce
  forksFree := inv.forksFree

def Table.favours (t : Table) (p : ProcId) : Table :=
  { t with
    proc := fun q => { t.proc q with tickets := if q = p then 1 else 0 }
    totalTickets := 1 }

theorem drawLoop_favours (runnable : (t.proc p).state = .runnable) {ps : List ProcId} (member : p ∈ ps) (d : Draw) :
    (drawLoop (t.favours p) 1 ps 0 d).selected = some p := by
  induction ps generalizing d with
  | nil => exact absurd member List.not_mem_nil
  | cons q ps ih =>
    rw [drawLoop]
    by_cases same : q = p
    · subst same
      have here : ((t.favours q).proc q).state = .runnable := runnable
      have ticket : int (0 + ((t.favours q).proc q).tickets) = 1 := by
        simp [favours, int]
      simp only [here, ticket, if_true, Int.le_refl]
    · have later : p ∈ ps := by simpa [Ne.symm same] using member
      have none : int (0 + ((t.favours p).proc q).tickets) = 0 := by
        simp [favours, same, int]
      split
      · simp only [none]
        exact ih later _
      · exact ih later d

theorem pick_favours (runnable : (t.proc p).state = .runnable) : (t.favours p).pick.1 = some p := by
  have target : targetTickets (t.favours p) (lcgParkmiller (t.favours p).randomSeed) = 1 := by
    simp [targetTickets, favours, uint, int]
  unfold pick
  rw [if_neg (by simp [favours])]
  simp only [draw, target]
  exact drawLoop_favours runnable (List.mem_finRange p) _

theorem Inv.drawn_step (inv : Inv m stage) {k : List Stmt} (seed : UInt32)
    (next : m.code (m.running c) = act .pick :: k) (state : ∀ p, (t.proc p).state = (m.table.proc p).state)
    (unclaimed : ∀ p, t.pick.1 = some p → ¬Claimed m p) {push : List Stmt}
    (pushes : (t.pick.1 = none ∧ push = [release .tickets, act .loop]) ∨ ∃ p, t.pick.1 = some p ∧ push = selected p) :
    ∃ stage', Inv (m.apply c k (m.shared.drawn seed push)) stage' := by
  have inv' : Inv { m with shared := ⟨t, m.shared.proc⟩ } stage := inv.congr_shared rfl state
  obtain ⟨o, ran⟩ : ∃ o, exec c .go (m.locks c) ⟨t, m.shared.proc⟩ .pick = some o := by
    simp only [exec]
    split <;> exact ⟨_, rfl⟩
  obtain ⟨stage', after⟩ := inv'.act_step next ran fun _ p picked => unclaimed p picked
  refine ⟨stage', ?_⟩
  obtain ⟨seed', drawn⟩ := exec_pick_drawn ran
  have same : o = Shared.drawn ⟨t, m.shared.proc⟩ seed' push := by
    rcases pushes with ⟨none, rfl⟩ | ⟨p, picked, rfl⟩ <;> rcases drawn with ⟨none', rfl⟩ | ⟨p', picked', rfl⟩ <;>
      simp_all
  subst same
  exact after.congr_shared (s := (m.shared.drawn seed push).shared) rfl fun p => (state p).symm

theorem Inv.interleaves (inv : Inv m stage) (step : Interleaves m c choice m') : ∃ stage', Inv m' stage' := by
  cases step with
  | acquire choice next free => exact inv.acquire_step next free
  | release choice next held => exact inv.release_step next
  | act next other ran => exact inv.act_step next ran fun picks => absurd picks other
  | idle choice seed next =>
    exact inv.drawn_step (t := { m.table with totalTickets := 0 }) seed next (fun _ => rfl)
      (fun p picked => by simp [pick] at picked) (.inl ⟨by simp [pick], rfl⟩)
  | dispatch choice seed next runnable unclaimed =>
    rename_i k p
    have picks := pick_favours runnable
    refine inv.drawn_step (t := m.table.favours p) seed next (fun _ => rfl) (fun q picked => ?_)
      (.inr ⟨p, picks, rfl⟩)
    cases picks.symm.trans picked
    exact unclaimed
  | timer free => exact ⟨stage, inv.timer_step free⟩
  | device chan lk free => exact ⟨stage, inv.device_step free chan lk⟩

section Apply

variable {k : List Stmt} {a : Act} {o : Outcome n}

theorem apply_locks : (m.apply c k o).locks = m.locks := by
  unfold Config.apply
  cases o.fresh <;> cases o.switch <;> rfl

theorem apply_shared : (m.apply c k o).shared = o.shared := by
  unfold Config.apply
  cases o.fresh <;> cases o.switch <;> rfl

theorem apply_running (c' : Fin n) :
    (m.apply c k o).running c' = if c' = c then o.switch.getD (m.running c) else m.running c' := by
  unfold Config.apply
  cases o.fresh <;> cases o.switch <;> by_cases same : c' = c <;> simp [Config.setCode, same]

theorem Inv.apply_code (inv : Inv m stage) (next : m.code (m.running c) = act a :: k)
    (ran : exec c choice (m.locks c) m.shared a = some o) (t : Thread n) :
    (m.apply c k o).code t = (if t = m.running c then o.push ++ k else m.code t) ∨
      ∃ p np, a = .setUsed p np ∧ t = .process np ∧ (∀ c', m.running c' ≠ .process np) ∧
        (m.apply c k o).code t = forkret np := by
  rcases exec_fresh ran with none | ⟨p, np, rfl, some⟩
  · refine .inl ((?_ : _ = (plain m c k o).code t).trans (plain_code t))
    rw [Config.apply, none]
    cases o.switch <;> rfl
  · have code : (m.apply c k o).code t = if t = .process np then forkret np else (plain m c k o).code t := by
      rw [← update_apply, Config.apply, some]
      cases o.switch <;> rfl
    by_cases same : t = .process np
    · exact .inr ⟨p, np, rfl, same, inv.unused_idle next, by rw [code, if_pos same]⟩
    · exact .inl (by rw [code, if_neg same, plain_code])

theorem Inv.own_code (inv : Inv m stage) (next : m.code (m.running c) = act a :: k)
    (ran : exec c choice (m.locks c) m.shared a = some o) : (m.apply c k o).code (m.running c) = o.push ++ k := by
  have code := (inv.apply_code next ran (m.running c)).resolve_right fun ⟨_, _, _, same, idle, _⟩ => idle c same
  rwa [if_pos rfl] at code

theorem drawn_code (seed : UInt32) (push : List Stmt) (t : Thread n) :
    (m.apply c k (m.shared.drawn seed push)).code t = if t = m.running c then push ++ k else m.code t :=
  update_apply ..

end Apply

section

variable (step : Interleaves m c choice m')

include step

theorem interleaves_acquire {k : List Stmt} (next : m.code (m.running c) = acquire l :: k) (busy : m.locks c ≠ []) :
    m.Free l ∧ m' = (m.take c l).setCode (m.running c) k := by
  cases step with
  | acquire choice here free =>
    cases here.symm.trans next
    exact ⟨free, rfl⟩
  | release choice here _ | act here _ _ | idle choice seed here | dispatch choice seed here _ _ =>
    cases here.symm.trans next
  | timer free | device chan lk free => exact absurd free busy

theorem interleaves_release {k : List Stmt} (next : m.code (m.running c) = release l :: k) (busy : m.locks c ≠ []) :
    m' = (m.drop c l).setCode (m.running c) k := by
  cases step with
  | release choice here _ =>
    cases here.symm.trans next
    rfl
  | acquire choice here _ | act here _ _ | idle choice seed here | dispatch choice seed here _ _ =>
    cases here.symm.trans next
  | timer free | device chan lk free => exact absurd free busy

theorem interleaves_act {a : Act} {k : List Stmt}
    (next : m.code (m.running c) = act a :: k) (busy : m.locks c ≠ []) (other : a ≠ .pick) :
    ∃ o, exec c choice (m.locks c) m.shared a = some o ∧ m' = m.apply c k o := by
  cases step with
  | act here _ ran =>
    cases here.symm.trans next
    exact ⟨_, ran, rfl⟩
  | acquire choice here _ | release choice here _ => cases here.symm.trans next
  | idle choice seed here | dispatch choice seed here _ _ =>
    cases here.symm.trans next
    exact absurd rfl other
  | timer free | device chan lk free => exact absurd free busy

theorem interleaves_procs : (m'.table.proc = m.table.proc ∧ m'.table.initproc = m.table.initproc) ∨
      ∃ a k o, m.code (m.running c) = act a :: k ∧ exec c choice (m.locks c) m.shared a = some o ∧
        m' = m.apply c k o := by
  cases step with
  | acquire choice next free | release choice next held | timer free | device chan lk free => exact .inl ⟨rfl, rfl⟩
  | idle choice seed next | dispatch choice seed next _ _ =>
    refine .inl ⟨?_, ?_⟩ <;> rw [table, apply_shared] <;> rfl
  | act next _ ran => exact .inr ⟨_, _, _, next, ran, rfl⟩

theorem interleaves_state (q : ProcId) :
    (m'.table.proc q).state = (m.table.proc q).state ∨ ∃ a k, m.code (m.running c) = act a :: k ∧
      stores a = some (q, (m'.table.proc q).state) := by
  rcases interleaves_procs step with ⟨same, -⟩ | ⟨a, k, o, next, ran, rfl⟩
  · exact .inl (by rw [same])
  · have moved := exec_state ran q
    rw [table, apply_shared]
    by_cases other : ∀ state, stores a ≠ some (q, state)
    · exact .inl (moved.trans (newState_of_ne other))
    · simp only [not_forall, not_not] at other
      obtain ⟨state, store⟩ := other
      refine .inr ⟨a, k, next, ?_⟩
      simp [moved, newState, store]

end

section

variable (inv : Inv m stage)

include inv

theorem Inv.code_step (step : Interleaves m c choice m') {P : Thread n → List Stmt → Prop}
    (others : ∀ t, t ≠ m.running c → P t (m.code t))
    (rest : ∀ {x k}, m.code (m.running c) = x :: k → (∀ a, x ≠ act a) → P (m.running c) k)
    (ran : ∀ {a k o}, m.code (m.running c) = act a :: k → exec c choice (m.locks c) m.shared a = some o →
      P (m.running c) (o.push ++ k))
    (drawn : ∀ {k}, m.code (m.running c) = act .pick :: k → P (m.running c) (release .tickets :: act .loop :: k) ∧
      ∀ p, P (m.running c) (selected p ++ k))
    (timer : m.locks c = [] → P (m.running c) (m.timerHandler c ++ m.code (m.running c)))
    (device : m.locks c = [] → ∀ chan lk, P (m.running c) (deviceHandler chan lk ++ m.code (m.running c)))
    (fresh : ∀ p, P (.process p) (forkret p)) (t : Thread n) : P t (m'.code t) := by
  have moved : ∀ {k}, m'.code t = (if t = m.running c then k else m.code t) → P (m.running c) k →
      P t (m'.code t) := by
    intro k same kept
    rw [same]
    split
    · rename_i own
      exact own ▸ kept
    · rename_i other
      exact others t other
  cases step with
  | acquire choice next free | release choice next held =>
    exact moved (update_apply ..) (rest next (by simp))
  | idle choice seed next => exact moved (drawn_code ..) (drawn next).1
  | dispatch choice seed next _ _ => exact moved (drawn_code ..) ((drawn next).2 _)
  | timer free => exact moved (update_apply ..) (timer free)
  | device chan lk free => exact moved (update_apply ..) (device free chan lk)
  | act next _ done =>
    rcases inv.apply_code next done t with same | ⟨p, np, -, rfl, -, same⟩
    · exact moved same (ran next done)
    · rw [same]
      exact fresh np

theorem Inv.other_cpu (step : Interleaves m c choice m') (other : c' ≠ c) :
    m'.running c' = m.running c' ∧ m'.locks c' = m.locks c' ∧ m'.code (m.running c') = m.code (m.running c') := by
  have away : m.running c' ≠ m.running c := fun same => other (inv.balanced.apart _ _ same)
  cases step with
  | acquire choice next free | release choice next held =>
    exact ⟨rfl, update_of_ne other .., update_of_ne away ..⟩
  | act next _ ran =>
    refine ⟨by rw [apply_running, if_neg other], by rw [apply_locks], ?_⟩
    rcases inv.apply_code next ran (m.running c') with code | ⟨p, np, -, same, idle, -⟩
    · rw [code, if_neg away]
    · exact absurd same (idle c')
  | idle choice seed next | dispatch choice seed next _ _ =>
    exact ⟨by rw [apply_running, if_neg other], by rw [apply_locks], by rw [drawn_code, if_neg away]⟩
  | timer free | device chan lk free => exact ⟨rfl, rfl, update_of_ne away ..⟩

theorem Inv.act_thread {a : Act} {k : List Stmt} {o : Outcome n}
    (next : m.code (m.running c) = act a :: k) (ran : exec c choice (m.locks c) m.shared a = some o) :
    (∃ p, a = .swtch p ∧ (m.apply c k o).running c = .process p ∧ ∀ c', m.running c' ≠ .process p) ∨
    (∃ p, a = .switchBack p ∧ (m.apply c k o).running c = .scheduler c ∧ m.running c = .process p ∧
      (m.apply c k o).code (.scheduler c) = resume p) ∨
    (m.apply c k o).running c = m.running c ∧ (m.apply c k o).code (m.running c) = o.push ++ k := by
  have running := apply_running (m := m) (c := c) (k := k) (o := o) c
  rw [if_pos rfl, exec_switch ran] at running
  have own := inv.own_code next ran
  cases a with
  | swtch p =>
    obtain ⟨_, -, -, -, leaves⟩ := inv.plain_stage next ran (by simp)
    refine .inl ⟨p, rfl, running, fun c' process => ?_⟩
    have there := inv.away process
    have here := (leaves p rfl).1
    obtain rfl := inv.alone c' c p (by rw [there]; rfl) (by rw [here]; rfl)
    cases there.symm.trans here
  | switchBack p =>
    have process := inv.owner_runs next rfl
    have phase := inv.phase c
    rw [inv.away process] at phase
    have code := (inv.apply_code next ran (.scheduler c)).resolve_right (by simp)
    rw [process, if_neg (by simp), phase.2.2] at code
    exact .inr (.inl ⟨p, rfl, running, process, code⟩)
  | _ => exact .inr (.inr ⟨running, own⟩)

section

variable (step : Interleaves m c choice m')

include step

theorem Inv.leaves_cpu (before : m.running c' = .process p) (after : m'.running c' ≠ .process p) :
    c' = c ∧ m.code (.process p) = act (.switchBack p) :: m'.code (.process p) ∧ m'.locks = m.locks ∧
      m'.shared = m.shared := by
  by_cases same : c' = c
  · subst same
    refine ⟨rfl, ?_⟩
    cases step with
    | acquire choice next free | release choice next held | timer free | device chan lk free =>
      exact absurd before after
    | idle choice seed next | dispatch choice seed next _ _ =>
      rw [apply_running, if_pos rfl] at after
      exact absurd before after
    | @act a _ _ _ next _ ran =>
      rw [apply_running, if_pos rfl, exec_switch ran] at after
      cases a with
      | swtch q =>
        have belongs := inv.belongs (m.running c') (.swtch q) (by rw [next]; simp)
        rw [before] at belongs
        exact absurd belongs.1 (by simp [IsScheduler, Posts])
      | switchBack q =>
        cases before.symm.trans (inv.owner_runs next rfl)
        have code := (inv.apply_code next ran (.process p)).resolve_right (by simp)
        rw [if_pos before.symm] at code
        cases ran
        refine ⟨?_, apply_locks, apply_shared⟩
        rw [code, ← before]
        exact next
      | _ => exact absurd before after
  · rw [(inv.other_cpu step same).1] at after
    exact absurd before after

theorem Inv.thread_code {t : Thread n} (other : t ≠ m.running c) :
    m'.code t = m.code t ∨ ∃ p, t = .process p ∧ m'.code t = forkret p ∧
      ∃ q k, m.code (m.running c) = act (.setUsed q p) :: k := by
  cases step with
  | acquire choice next free | release choice next held | timer free | device chan lk free =>
    exact .inl (update_of_ne other ..)
  | idle choice seed next | dispatch choice seed next _ _ => exact .inl (by rw [drawn_code, if_neg other])
  | act next _ ran =>
    rcases inv.apply_code next ran t with code | ⟨q, np, rfl, same, -, code⟩
    · exact .inl (by rw [code, if_neg other])
    · exact .inr ⟨np, same, code, q, _, next⟩

theorem Inv.suspended_code (other : m.running c ≠ .process p) : m'.code (.process p) = m.code (.process p) ∨
      m'.code (.process p) = forkret p ∧ ∃ q k, m.code (m.running c) = act (.setUsed q p) :: k := by
  rcases inv.thread_code step other.symm with same | ⟨q, own, fresh⟩
  · exact .inl same
  · cases own
    exact .inr fresh

end

end

end Steps

/-- The states of a machine from boot on, with the CPU that makes each step. -/
structure Run (n : Nat) where
  length : Nat
  state : Nat → Machine n
  cpu : Nat → Fin n
  choice : Nat → Choice
  start : state 0 = boot n
  step : ∀ i, i < length → Interleaves (state i) (cpu i) (choice i) (state (i + 1))

theorem Run.inv (r : Run n) (within : i ≤ r.length) : ∃ stage, Inv (r.state i) stage := by
  induction i with
  | zero =>
    rw [r.start]
    exact ⟨_, boot_inv n⟩
  | succ i ih =>
    obtain ⟨stage, inv⟩ := ih (by omega)
    exact inv.interleaves (r.step i within)

/-- The checks of acquire, release and sched hold, and user code runs without locks. -/
structure Machine.Disciplined (m : Machine n) (c : Fin n) : Prop where
  takes : ∀ l k, m.code (m.running c) = acquire l :: k → l ∉ m.locks c
  gives : ∀ l k, m.code (m.running c) = release l :: k → l ∈ m.locks c
  alone : ∀ l c', l ∈ m.locks c → l ∈ m.locks c' → c = c'
  sched : ∀ p k, m.code (m.running c) = act (.schedCheck p) :: k → .proc p ∈ m.locks c
  swtch : ∀ p k, m.code (m.running c) = act (.switchBack p) :: k → m.locks c = [.proc p]
  user : ∀ k, m.code (m.running c) = act .user :: k → m.locks c = []

theorem Run.lock_discipline (r : Run n) (i : Fin (r.length + 1)) (c : Fin n) : (r.state i).Disciplined c := by
  obtain ⟨stage, inv⟩ := r.inv i.is_le
  have typed := inv.typed ((r.state i).running c)
  constructor
  · intro l k next
    simp [inv.lock_iff, next]
  · intro l k next
    simp [inv.lock_iff, next]
  · exact fun l c' => inv.balanced.exclusive c c' l
  · intro p k next
    rw [next] at typed
    simp [inv.lock_iff, next, typed.1.1]
  · intro p k next
    rw [next] at typed
    refine List.perm_singleton.mp ((List.perm_ext_iff_of_nodup (inv.balanced.nodup c) (List.nodup_singleton _)).mpr ?_)
    intro l
    rw [inv.lock_iff, next, holds_act, List.mem_singleton]
    exact (typed.1.1 l).trans eq_comm
  · intro k next
    rw [next] at typed
    refine List.eq_nil_iff_forall_not_mem.mpr fun l => ?_
    rw [inv.lock_iff, next, holds_act, typed.1 l]
    exact Bool.false_ne_true

/-- A CPU runs the process of its `c->proc` and no other CPU runs it; in user mode that process is RUNNING. -/
theorem Run.current_process (r : Run n) (i : Fin (r.length + 1)) :
    (∀ c c' p, (r.state i).running c = .process p → (r.state i).running c' = .process p → c = c') ∧
    ∀ c p, (r.state i).running c = .process p → (r.state i).shared.proc c = some p ∧
      ∀ k, (r.state i).code (.process p) = act .user :: k → ((r.state i).table.proc p).state = .running := by
  obtain ⟨stage, inv⟩ := r.inv i.is_le
  refine ⟨fun c c' p first second => inv.balanced.apart c c' (first.trans second.symm), fun c p runs => ⟨?_, ?_⟩⟩
  · have phase := inv.phase c
    rw [inv.away runs] at phase
    exact phase.2.1
  · intro k next
    exact inv.runs c p runs (by rw [next]; rfl)

def Machine.after (m : Machine n) (es : List (Event n)) (i : Nat) : Machine n := (m.run (es.take i)).getD m

theorem run_take_succ {m m' : Machine n} (stepped : m.step e = some m')
    (i : Nat) : m.run ((e :: es).take (i + 1)) = m'.run (es.take i) := by
  simp only [List.take_succ_cons, run, stepped]

theorem run_take {m m' : Machine n} (ran : m.run es = some m') (i : Nat) : ∃ mid, m.run (es.take i) = some mid := by
  induction es generalizing m i with
  | nil => exact ⟨m, by simp [run]⟩
  | cons e es ih =>
    rw [run] at ran
    split at ran
    · contradiction
    · rename_i next stepped
      cases i with
      | zero => exact ⟨m, rfl⟩
      | succ i =>
        rw [run_take_succ stepped]
        exact ih ran i

theorem after_succ {m next m' : Machine n} (stepped : m.step e = some next)
    (ran : next.run es = some m') (i : Nat) : m.after (e :: es) (i + 1) = next.after es i := by
  obtain ⟨mid, here⟩ := run_take ran i
  rw [after, run_take_succ stepped, after, here]
  rfl

theorem after_step {allowed : Machine n → Event n → Prop} {m m' : Machine n}
    (ran : m.run es = some m') (along : Along allowed m es)
    (event : es[i]? = some e) : (m.after es i).step e = some (m.after es (i + 1)) ∧ allowed (m.after es i) e := by
  induction es generalizing m i with
  | nil => cases event
  | cons first es ih =>
    rw [run] at ran
    split at ran
    · contradiction
    · rename_i next stepped
      cases i with
      | zero =>
        cases event
        refine ⟨?_, along.1⟩
        rw [after, after, run_take_succ stepped]
        exact stepped
      | succ i =>
        rw [after_succ stepped ran, after_succ stepped ran]
        exact ih ran (along.2 next stepped) event

/-- A run of the kernel whose schedulers pick unclaimed processes; `spare` is the event after the last. -/
def Run.ofEvents (es : List (Event n)) (spare : Event n) {m : Machine n} (ran : (boot n).run es = some m)
    (unclaimed : Along PicksUnclaimed (boot n) es) : Run n where
  length := es.length
  state := (boot n).after es
  cpu i := (es.getD i spare).cpuOf
  choice i := (es.getD i spare).choice
  start := rfl
  step i within := by
    have event : es[i]? = some (es.getD i spare) := by
      rw [List.getD_eq_getElem?_getD, List.getElem?_eq_getElem within]
      rfl
    obtain ⟨stepped, allowed⟩ := after_step ran unclaimed event
    exact step_interleaves stepped allowed

def Machine.Throughout (P : Nat → Machine n → Prop) : Nat → Machine n → List (Event n) → Prop
  | i, m, [] => P i m
  | i, m, e :: es => P i m ∧ ∀ m' ∈ m.step e, Throughout P (i + 1) m' es

instance Machine.decidableThroughout {P : Nat → Machine n → Prop} [decided : ∀ i m, Decidable (P i m)] (i : Nat)
    (m : Machine n) (es : List (Event n)) : Decidable (Throughout P i m es) :=
  match es with
  | [] => decided i m
  | e :: es =>
    match decided i m with
    | .isFalse no => .isFalse fun all => no all.1
    | .isTrue yes =>
      match next : m.step e with
      | none => .isTrue ⟨yes, by simp [next]⟩
      | some m' =>
        match decidableThroughout (i + 1) m' es with
        | .isTrue rest => .isTrue ⟨yes, by simpa [next] using rest⟩
        | .isFalse no => .isFalse fun all => no (all.2 m' next)

theorem Machine.Throughout.after {P : Nat → Machine n → Prop} {m m' : Machine n}
    {start : Nat} (all : Throughout P start m es) (ran : m.run es = some m')
    (within : i ≤ es.length) : P (start + i) (m.after es i) := by
  induction es generalizing m i start with
  | nil =>
    obtain rfl : i = 0 := Nat.le_zero.mp within
    exact all
  | cons e es ih =>
    rw [run] at ran
    split at ran
    · contradiction
    · rename_i next stepped
      cases i with
      | zero => exact all.1
      | succ i =>
        rw [after_succ stepped ran, ← Nat.add_assoc, Nat.add_right_comm]
        exact ih (all.2 next stepped) ran (by simpa using within)

end DeisoXv6
