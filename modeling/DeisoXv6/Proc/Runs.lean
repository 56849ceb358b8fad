import DeisoXv6.Proc.ActionSteps

/-! Lock operations and interrupts keep the invariant, and so does every run from boot whose picks
are of unclaimed processes. -/

set_option autoImplicit false

namespace DeisoXv6

open List Function LockProgram LockProgram.Stmt

section Steps

variable {n : Nat} {m : Machine n} {stage : Fin n → Stage} {c : Fin n} {k : List Stmt}

variable {t : Thread n}

section Lock

variable {x : Stmt} {locks : Fin n → List Lock}

/-- The machine after CPU `c` has acquired or released a lock and goes on with `k`. -/
def relocked (m : Machine n) (c : Fin n) (k : List Stmt) (locks : Fin n → List Lock) : Machine n :=
  { m.setCode (m.running c) k with locks := locks }

theorem relocked_code (t : Thread n) : (relocked m c k locks).code t = if t = m.running c then k else m.code t :=
  update_apply ..

theorem mem_relocked_code {y : Stmt} (next : m.code (m.running c) = x :: k)
    (member : y ∈ (relocked m c k locks).code t) : y ∈ m.code t := by
  rw [relocked_code] at member
  split at member
  · rename_i same
    rw [same, next]
    exact mem_cons_of_mem _ member
  · exact member

variable {p : ProcId}

theorem mustRun_of_tail (lock : ∀ a, x ≠ act a) (must : mustRun p k = true) : mustRun p (x :: k) = true := by
  cases x with
  | act a => exact absurd rfl (lock a)
  | acquire l | release l =>
    rw [mustRun, must]
    exact ite_self _

theorem Inv.lock_step (inv : Inv m stage) (next : m.code (m.running c) = x :: k) (lock : ∀ a, x ≠ act a)
    (typed : Typed k) (balanced : Balanced discipline (relocked m c k locks)) {st : Stage}
    (phase : Phase (relocked m c k locks) c st) (marks : ∀ p, st.marks = some p → (stage c).marks = some p)
    (engaged : ∀ p, st.engaged = some p → ∀ c', c' ≠ c → (stage c').engaged ≠ some p) :
    Inv (relocked m c k locks) (update stage c st) := by
  refine ⟨fun t => ?_, balanced, fun t a pending => inv.belongs t a (mem_relocked_code next pending),
    fun c' => ?_, fun p idle => ?_, fun c' p process must => inv.runs c' p process ?_,
    fun t a pending => inv.known t a (mem_relocked_code next pending), fun c' p marked => ?_,
    alone_update inv.marksAlone fun p marked c' other marked' =>
      other (inv.marksAlone c' c p marked' (marks p marked)),
    alone_update inv.alone engaged,
    fun t np pending => inv.forks t np (mem_relocked_code next pending),
    fun t t' np first second =>
      inv.forksAlone t t' np (mem_relocked_code next first) (mem_relocked_code next second),
    fun t => ?_,
    fun t t' np pending freed =>
      inv.forksFree t t' np (mem_relocked_code next pending) (mem_relocked_code next freed)⟩
  · rw [relocked_code]
    split
    · exact typed
    · exact inv.typed t
  · by_cases same : c' = c
    · subst same
      rw [update_self]
      exact phase
    · rw [update_of_ne same]
      refine (inv.phase c').congr rfl rfl ?_ fun _ _ _ => rfl
      rw [relocked_code, if_neg (inv.scheduler_ne same)]
  · have elsewhere : Thread.process p ≠ m.running c := (idle c).symm
    rw [relocked_code, if_neg elsewhere]
    exact inv.suspended p idle
  · rw [relocked_code] at must
    split at must
    · rename_i same
      rw [same, next]
      exact mustRun_of_tail lock must
    · exact must
  · by_cases same : c' = c
    · rw [same, update_self] at marked
      exact inv.marks c p (marks p marked)
    · rw [update_of_ne same] at marked
      exact inv.marks c' p marked
  · rw [relocked_code]
    split
    · have once := inv.forksOnce (m.running c)
      rw [next, filterMap_cons] at once
      split at once
      · exact once
      · exact once.of_cons
    · exact inv.forksOnce t

theorem Inv.selecting_alone (inv : Inv m stage) (at_ : stage c = .selecting p)
    (free : m.Free (.proc p)) (c' : Fin n) : (stage c').engaged ≠ some p := by
  intro engaged
  rcases inv.running_cases c' with scheduler | ⟨q, process, away⟩
  · exact free c' (inv.engaged_lock engaged scheduler)
  · rw [away] at engaged
    cases engaged
    rcases inv.running_or_locked process with running | lock
    · have runnable := inv.marks c p (by rw [at_]; rfl)
      rw [running] at runnable
      contradiction
    · exact free c' lock

theorem Inv.relocked_stage (inv : Inv m stage) (locks : Fin n → List Lock) (next : m.code (m.running c) = x :: k)
    (lock : ∀ a, x ≠ act a) (free : ∀ l, x = acquire l → m.Free l) :
    ∃ st, Phase (relocked m c k locks) c st ∧ (∀ p, st.marks = some p → (stage c).marks = some p) ∧
      ∀ p, st.engaged = some p → ∀ c', c' ≠ c → (stage c').engaged ≠ some p := by
  have phase := inv.phase c
  have code : m.running c = .scheduler c → (relocked m c k locks).code (.scheduler c) = k := by
    intro scheduler
    rw [relocked_code, if_pos scheduler.symm]
  have keeps : ∀ p, (stage c).engaged = some p → ∀ c', c' ≠ c → (stage c').engaged ≠ some p :=
    fun p mine c' other theirs => other (inv.alone c' c p theirs mine)
  cases at_ : stage c with
  | idle =>
    rw [at_] at phase
    refine ⟨.idle, ⟨phase.1, phase.2.1, fun a pending => ?_⟩, by simp, by simp [Stage.engaged]⟩
    exact phase.2.2 a (mem_relocked_code next pending)
  | away p =>
    rw [at_] at phase keeps
    refine ⟨.away p, ⟨phase.1, phase.2.1, ?_⟩, by simp, keeps⟩
    rw [relocked_code, if_neg (by rw [phase.1]; simp)]
    exact phase.2.2
  | selecting p =>
    rw [at_] at phase
    have code := code phase.1
    rw [phase.1, phase.2.2] at next
    cases next
    refine ⟨.chosen p, ⟨phase.1, phase.2.1, code⟩, by simp [Stage.marks], fun q same c' _ => ?_⟩
    cases same
    exact inv.selecting_alone at_ (free _ rfl) c'
  | chosen p =>
    rw [at_] at phase keeps
    have code := code phase.1
    rw [phase.1, phase.2.2] at next
    cases next
    exact ⟨.marking p, ⟨phase.1, phase.2.1, code⟩, by simp [Stage.marks], keeps⟩
  | marking p | back p =>
    rw [at_] at phase
    rw [phase.1, phase.2.2] at next
    cases next
    exact absurd rfl (lock _)
  | posting p | leaving p =>
    rw [at_] at phase
    rw [phase.1, phase.2.2.1] at next
    cases next
    exact absurd rfl (lock _)

variable {l : Lock}

theorem Inv.acquire_step (inv : Inv m stage) (next : m.code (m.running c) = acquire l :: k)
    (free : m.Free l) : ∃ stage', Inv ((m.take c l).setCode (m.running c) k) stage' := by
  have typed := inv.typed (m.running c)
  rw [next] at typed
  obtain ⟨gives, -, -, rest⟩ := typed
  obtain ⟨st, phase, marks, engaged⟩ :=
    inv.relocked_stage ((m.take c l).setCode (m.running c) k).locks next (by simp)
      fun l' same => by cases same; exact free
  exact ⟨_, inv.lock_step next (by simp) rest (inv.balanced.acquire next free gives) phase marks engaged⟩

theorem Inv.release_step (inv : Inv m stage) (next : m.code (m.running c) = release l :: k) :
    ∃ stage', Inv ((m.drop c l).setCode (m.running c) k) stage' := by
  have typed := inv.typed (m.running c)
  rw [next] at typed
  obtain ⟨gone, -, rest⟩ := typed
  obtain ⟨st, phase, marks, engaged⟩ :=
    inv.relocked_stage ((m.drop c l).setCode (m.running c) k).locks next (by simp) (by simp)
  exact ⟨_, inv.lock_step next (by simp) rest (inv.balanced.release next gone) phase marks engaged⟩

end Lock


/-- What an interrupt handler may hold: actions of no process in particular. -/
structure HandlerAct (b : Act) : Prop where
  nobody : owner b = none
  elsewhere : IsScheduler b = false
  free : scope b = none
  forks : ∀ np, b ≠ .publish np
  frees : ∀ np, b ≠ .freeStore np

theorem handlerAct_iff {b : Act} : HandlerAct b ↔ owner b = none ∧ IsScheduler b = false ∧
    scope b = none ∧ (∀ np, b ≠ .publish np) ∧ ∀ np, b ≠ .freeStore np :=
  ⟨fun ⟨one, two, three, four, five⟩ => ⟨one, two, three, four, five⟩,
    fun ⟨one, two, three, four, five⟩ => ⟨one, two, three, four, five⟩⟩

theorem acts_deviceHandler (chan : Option Chan) (lk : Nat) :
    Acts HandlerAct (acquire (.other lk) :: wakeup chan ++ [release (.other lk)]) := by
  simp [wakeup, handlerAct_iff, owner, IsScheduler, Posts, scope]

theorem acts_timerHandler (m : Machine n) (c : Fin n) : Acts HandlerAct (m.timerHandler c) := by
  unfold Machine.timerHandler
  rw [acts_append]
  constructor
  · split <;> simp [clockintr, wakeup, handlerAct_iff, owner, IsScheduler, Posts, scope]
  · split <;> simp [handlerAct_iff, owner, IsScheduler, Posts, scope]

variable {handler : List Stmt}

theorem mem_interrupt_code {x : Stmt}
    (member : x ∈ (m.setCode (m.running c) (handler ++ m.code (m.running c))).code t) :
    (x ∈ handler ∧ t = m.running c) ∨ x ∈ m.code t := by
  have code : (m.setCode (m.running c) (handler ++ m.code (m.running c))).code t =
      if t = m.running c then handler ++ m.code (m.running c) else m.code t :=
    update_apply ..
  rw [code] at member
  split at member
  · rename_i same
    rcases mem_append.mp member with new | old
    · exact .inl ⟨new, same⟩
    · exact .inr (by rw [same]; exact old)
  · exact .inr member

section

variable (inv : Inv m stage) (none : m.locks c = [])

include inv none

theorem Inv.quiet : Quiet (m.code (m.running c)) := by
  intro l
  rw [Bool.eq_false_iff]
  intro held
  have := (inv.lock_iff l).mpr held
  rw [none] at this
  exact absurd this not_mem_nil

theorem Inv.interrupt_stage : stage c = .idle ∨ ∃ p, stage c = .away p := by
  have phase := inv.phase c
  cases at_ : stage c with
  | idle => exact .inl rfl
  | away p => exact .inr ⟨p, rfl⟩
  | selecting p =>
    have lock := inv.selecting_tickets at_
    rw [none] at lock
    exact absurd lock not_mem_nil
  | chosen p | marking p | posting p | leaving p | back p =>
    rw [at_] at phase
    have lock : .proc p ∈ m.locks c := inv.engaged_lock (by rw [at_]; rfl) phase.1
    rw [none] at lock
    exact absurd lock not_mem_nil

theorem Inv.interrupt_step (typed : Typed (handler ++ m.code (m.running c)))
    (quiet : Quiet (handler ++ m.code (m.running c))) (acts : Acts HandlerAct handler) :
    Inv (m.setCode (m.running c) (handler ++ m.code (m.running c))) stage := by
  have still := inv.quiet none
  have code : ∀ t, (m.setCode (m.running c) (handler ++ m.code (m.running c))).code t =
      if t = m.running c then handler ++ m.code (m.running c) else m.code t :=
    fun t => update_apply ..
  have cases : ∀ {t b}, act b ∈ (m.setCode (m.running c) (handler ++ m.code (m.running c))).code t →
      (HandlerAct b ∧ t = m.running c) ∨ act b ∈ m.code t := by
    intro t b pending
    exact (mem_interrupt_code pending).imp_left fun new => ⟨acts b new.1, new.2⟩
  have forks : ∀ {t np}, act (.publish np) ∈
      (m.setCode (m.running c) (handler ++ m.code (m.running c))).code t → act (.publish np) ∈ m.code t :=
    fun pending => (cases pending).resolve_left fun new => new.1.forks _ rfl
  refine ⟨fun t => ?_, inv.balanced.setCode fun l => ?_, fun t b pending => ?_, fun c' => ?_,
    fun p idle => ?_, fun c' p process must => ?_, fun t b pending => ?_, inv.marks, inv.marksAlone,
    inv.alone, fun t np pending => inv.forks t np (forks pending),
    fun t t' np first second => inv.forksAlone t t' np (forks first) (forks second), fun t => ?_,
    fun t t' np pending freed => inv.forksFree t t' np (forks pending)
      ((cases freed).resolve_left fun new => new.1.frees _ rfl)⟩
  · rw [code]
    split
    · exact typed
    · exact inv.typed t
  · exact (quiet l).trans (still l).symm
  · rcases cases pending with ⟨new, rfl⟩ | old
    · rcases inv.running_cases c with scheduler | ⟨p, process, -⟩
      · rw [scheduler]
        exact new.nobody
      · rw [process]
        exact ⟨new.elsewhere, by simp [new.nobody]⟩
    · exact inv.belongs t b old
  · by_cases same : c' = c
    · subst same
      have phase := inv.phase c'
      rcases inv.interrupt_stage none with at_ | ⟨p, at_⟩
      · rw [at_] at phase ⊢
        refine ⟨phase.1, phase.2.1, fun b pending => ?_⟩
        rcases cases pending with ⟨new, -⟩ | old
        · exact (Bool.or_eq_false_iff.mp new.elsewhere).1
        · exact phase.2.2 b old
      · refine phase.congr rfl rfl ?_ fun _ _ _ => rfl
        rw [at_] at phase
        rw [code, if_neg (by rw [phase.1]; simp)]
    · refine (inv.phase c').congr rfl rfl ?_ fun _ _ _ => rfl
      rw [code, if_neg (inv.scheduler_ne same)]
  · have elsewhere : Thread.process p ≠ m.running c := (idle c).symm
    rw [code, if_neg elsewhere]
    exact inv.suspended p idle
  · rw [code] at must
    split at must
    · -- the interrupted process holds no lock, so it was not in sched
      rename_i mine
      rcases inv.running_or_locked process with running | lock
      · exact running
      · rw [inv.balanced.apart c' c (process.trans mine), none] at lock
        exact absurd lock not_mem_nil
    · exact inv.runs c' p process must
  · rcases cases pending with ⟨new, -⟩ | old
    · have free := new.free
      cases b with
      | wakeStore _ | setUsed _ _ | freeStore _ | forkCopy _ => contradiction
      | _ => trivial
    · exact inv.known t b old
  · rw [code]
    split
    · have empty : handler.filterMap publishes = [] := by
        rw [filterMap_eq_nil_iff]
        intro y member
        cases found : publishes y with
        | none => rfl
        | some np =>
          rw [mem_publishes] at found
          subst found
          exact absurd rfl ((acts _ member).forks np)
      rw [filterMap_append, empty, nil_append]
      exact inv.forksOnce _
    · exact inv.forksOnce t

end

theorem typed_wakeup_section (chan : Option Chan) (lk : Lock) (plain : ∀ q, lk ≠ .proc q)
    (other : lk ≠ .tickets) (typed : Typed k) (quiet : Quiet k) :
    Typed (acquire lk :: act (.wakeupFrom 0 chan) :: release lk :: k) ∧
      Quiet (acquire lk :: act (.wakeupFrom 0 chan) :: release lk :: k) := by
  constructor
  · simp [acquireOk, actOk, NoProc, consumes, other, plain, quiet _, unscoped_of_ne plain, typed]
  · intro l
    by_cases same : lk = l <;> simp [consumes, same, quiet l]

theorem Inv.device_step (inv : Inv m stage) (none : m.locks c = []) (chan : Option Chan) (lk : Nat) :
    Inv (m.setCode (m.running c) ((acquire (.other lk) :: wakeup chan ++ [release (.other lk)]) ++
      m.code (m.running c))) stage := by
  obtain ⟨typed, quiet⟩ := typed_wakeup_section chan (.other lk) (by simp) (by simp)
    (inv.typed (m.running c)) (inv.quiet none)
  exact inv.interrupt_step none typed quiet (acts_deviceHandler chan lk)

theorem Inv.timer_step (inv : Inv m stage) (none : m.locks c = []) :
    Inv (m.setCode (m.running c) (m.timerHandler c ++ m.code (m.running c))) stage := by
  have still := inv.quiet none
  -- the yield that usertrap or kerneltrap makes once devintr has returned
  obtain ⟨last, shape, fits, keeps⟩ : ∃ last : Act,
      m.timerHandler c = (if c.val = 0 then clockintr else []) ++ [act last] ∧
        actOk last (m.code (m.running c)) ∧ ∀ l, consumes last l = false := by
    refine ⟨_, rfl, ?_⟩
    split
    · exact ⟨still, fun _ => rfl⟩
    · exact ⟨still, fun _ => rfl⟩
  have typed : Typed (act last :: m.code (m.running c)) := typed_act.mpr ⟨fits, inv.typed _⟩
  have quiet : Quiet (act last :: m.code (m.running c)) := fun l => by simp [keeps l, still l]
  obtain ⟨woken, calm⟩ := typed_wakeup_section (some .ticks) .ticks (by simp) (by simp) typed quiet
  have handled : Typed (m.timerHandler c ++ m.code (m.running c)) ∧
      Quiet (m.timerHandler c ++ m.code (m.running c)) := by
    rw [shape]
    split
    · have tick : (clockintr ++ [act last]) ++ m.code (m.running c) =
          acquire .ticks :: act (.update .tick) :: act (.wakeupFrom 0 (some .ticks)) :: release .ticks ::
            act last :: m.code (m.running c) := by
        simp [clockintr, wakeup]
      rw [tick]
      refine ⟨⟨woken.1, ⟨by simp, fun held => ?_⟩, by simp, trivial, woken.2.2.2⟩, calm⟩
      exact absurd ((calm .tickets).symm.trans held) (by simp)
    · exact ⟨typed, quiet⟩
  exact inv.interrupt_step none handled.1 handled.2 (acts_timerHandler m c)

/-- A scheduler picks only processes that no CPU has claimed. -/
def PicksUnclaimed (m : Machine n) : Event n → Prop
  | .cpu c _ => (m.code (m.running c)).head? = some (act .pick) → ∀ p ∈ m.table.pick.1, ¬Claimed m p
  | .timer _ | .device _ _ _ => True

theorem Inv.step (inv : Inv m stage) {e : Event n} {m' : Machine n} (ran : m.step e = some m')
    (unclaimed : PicksUnclaimed m e) : ∃ stage', Inv m' stage' := by
  cases e with
  | cpu c choice =>
    simp only [Machine.step, Config.step] at ran
    split at ran
    · contradiction
    · rename_i l k next
      split at ran
      · rename_i free
        cases ran
        exact inv.acquire_step next free
      · contradiction
    · rename_i l k next
      split at ran
      · cases ran
        exact inv.release_step next
      · contradiction
    · rename_i a k next
      obtain ⟨o, done, rfl⟩ := Option.map_eq_some_iff.mp ran
      refine inv.act_step next done fun picks p picked => ?_
      subst picks
      exact unclaimed (by rw [next]; rfl) p picked
  | timer c =>
    simp only [Machine.step, Config.interrupt] at ran
    split at ran
    · rename_i none
      cases ran
      exact ⟨stage, inv.timer_step none⟩
    · contradiction
  | device c chan lk =>
    simp only [Machine.step, Config.interrupt] at ran
    split at ran
    · rename_i none
      cases ran
      exact ⟨stage, inv.device_step none chan lk⟩
    · contradiction

theorem boot_inv (n : Nat) : Inv (Machine.boot n) (fun _ => .idle) where
  typed t := by
    cases t with
    | scheduler c => exact ⟨rfl, trivial⟩
    | process p => exact typed_forkret p
  balanced := ⟨by simp [Machine.boot, discipline, consumes], by simp [Machine.boot],
    by simp [Machine.boot], fun c c' same => by simpa [Machine.boot] using same⟩
  belongs t := by
    cases t with
    | scheduler c => simp [Machine.boot, Belongs, owner]
    | process p => simp [Machine.boot, forkret, Belongs, owner, IsScheduler, Posts]
  phase c := ⟨rfl, rfl, by simp [Machine.boot, Posts]⟩
  suspended p _ := ⟨fun l => by simp [Machine.boot, forkret, consumes], by simp [Machine.boot, forkret, Clear, scope]⟩
  runs c p running := by simp [Machine.boot] at running
  known t := by
    cases t with
    | scheduler c => simp [Machine.boot, Pre]
    | process p => simp [Machine.boot, forkret, Pre]
  marks := by simp [Stage.marks]
  marksAlone := by simp [Stage.marks]
  alone := by simp [Stage.engaged]
  forks t np pending := by cases t <;> simp [Machine.boot, forkret] at pending
  forksAlone t _ np pending := by cases t <;> simp [Machine.boot, forkret] at pending
  forksOnce t := by cases t <;> exact nodup_nil
  forksFree t _ np pending := by cases t <;> simp [Machine.boot, forkret] at pending

end Steps

namespace Machine

variable {n : Nat} {allowed : Machine n → Event n → Prop}

/-- Every event of a run meets a condition on the state it is taken in. -/
def Along (allowed : Machine n → Event n → Prop) : Machine n → List (Event n) → Prop
  | _, [] => True
  | m, e :: es => allowed m e ∧ ∀ m' ∈ m.step e, Along allowed m' es

theorem run_induction {P : Machine n → Prop}
    (step : ∀ {m e m'}, P m → allowed m e → m.step e = some m' → P m') {m m' : Machine n}
    {es : List (Event n)} (start : P m) (along : Along allowed m es) (ran : m.run es = some m') : P m' := by
  induction es generalizing m with
  | nil =>
    cases ran
    exact start
  | cons e es ih =>
    rw [run] at ran
    split at ran
    · contradiction
    · rename_i next stepped
      exact ih (step start along.1 stepped) (along.2 next stepped) ran

instance instDecidableAlong [decided : ∀ m e, Decidable (allowed m e)] (m : Machine n) (es : List (Event n)) :
    Decidable (Along allowed m es) :=
  match es with
  | [] => .isTrue trivial
  | e :: es =>
    match decided m e with
    | .isFalse no => .isFalse fun along => no along.1
    | .isTrue yes =>
      match next : m.step e with
      | none => .isTrue ⟨yes, by simp [next]⟩
      | some m' =>
        match instDecidableAlong m' es with
        | .isTrue rest => .isTrue ⟨yes, by simpa [next] using rest⟩
        | .isFalse no => .isFalse fun along => no (along.2 m' next)

end Machine

instance {n : Nat} (m : Machine n) (p : ProcId) : Decidable (Claimed m p) :=
  inferInstanceAs (Decidable (∃ c, act (.setRunning p) ∈ m.code (.scheduler c)))

instance {n : Nat} (m : Machine n) (e : Event n) : Decidable (PicksUnclaimed m e) :=
  match e with
  | .cpu c _ => inferInstanceAs (Decidable ((m.code (m.running c)).head? = some (act .pick) →
      ∀ p ∈ m.table.pick.1, ¬Claimed m p))
  | .timer _ | .device _ _ _ => .isTrue trivial

theorem inv_of_run {n : Nat} {m : Machine n} {es : List (Event n)} (ran : (Machine.boot n).run es = some m)
    (unclaimed : Machine.Along PicksUnclaimed (Machine.boot n) es) : ∃ stage, Inv m stage :=
  Machine.run_induction (P := fun m => ∃ stage, Inv m stage)
    (fun ⟨_, inv⟩ allowed next => inv.step next allowed) ⟨_, boot_inv n⟩ unclaimed ran

end DeisoXv6
