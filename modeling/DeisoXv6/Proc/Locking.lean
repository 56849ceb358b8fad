import DeisoXv6.Proc.Kernel

/-! The lock discipline of the kernel code: which locks a rest of code gives back, and under which
locks each action stands. It is a property of the code alone; every action keeps it. -/

set_option autoImplicit false

namespace DeisoXv6

open List LockProgram LockProgram.Stmt LockProgram.Discipline

/-- The locks that an action gives back in the code it pushes. -/
def consumes (a : Act) (l : Lock) : Bool :=
  match a with
  | .pick => decide (.tickets = l)
  | .zombieExit p | .killCheck p _ | .allocCheck _ p | .setUsed _ p | .forkCopy p =>
    decide (.proc p = l)
  | .waitFrom _ _ _ => decide (.wait = l)
  | .waitCheck _ np => decide (.wait = l ∨ .proc np = l)
  | .publish np => decide (.tickets = l ∨ .proc np = l)
  | _ => false

abbrev holds (k : List Stmt) (l : Lock) : Bool := held consumes k l

/-- The process whose state an action relies on since a check it made under that `p->lock`. -/
def scope (a : Act) : Option Lock :=
  match a with
  | .wakeStore p | .freeStore p | .setUsed _ p | .forkCopy p => some (.proc p)
  | _ => none

def IsSched (a : Act) : Bool :=
  match a with
  | .schedCheck _ | .update (.charge _) | .switchBack _ => true
  | _ => false

/-- Whether process `p`, with this code to run, has its state store still ahead of it or behind the
swtch that follows; in sched it has just stored something else. -/
def mustRun (p : ProcId) : List Stmt → Bool
  | [] => true
  | .acquire l :: k | .release l :: k => if l = .proc p then true else mustRun p k
  | .act a :: _ => !IsSched a

def Quiet (k : List Stmt) : Prop := ∀ l, holds k l = false

def Only (l : Lock) (k : List Stmt) : Prop := ∀ m, holds k m = true ↔ l = m

def NoProc (k : List Stmt) : Prop := ∀ p, holds k (.proc p) = false

/-- Both locks of a section that stores the state of `p`, and no other process's lock. Nothing that
follows relies on the state before the store. -/
structure InSection (p : ProcId) (k : List Stmt) : Prop where
  tickets : holds k .tickets = true
  own : holds k (.proc p) = true
  sole : ∀ q, holds k (.proc q) = true → p = q
  last : ∀ a, act a ∈ k → scope a ≠ some (.proc p)

def Clear (k : List Stmt) : Prop := ∀ a, act a ∈ k → scope a = none

def actOk (a : Act) (k : List Stmt) : Prop :=
  match a with
  -- the rest of the scheduler's stack is empty
  | .loop | .pick => k = []
  | .user | .trapYield | .preempt | .zombieExit _ | .waitFrom _ _ _ | .waitCheck _ _
  | .allocFrom _ _ | .allocCheck _ _ | .setUsed _ _ | .publish _ | .forkCopy _ => Quiet k
  | .setRunning p | .setProc p | .swtch p => Only (.proc p) k
  | .leave _ p => InSection p k ∧ mustRun p k = false
  | .schedCheck p | .update (.charge p) => holds k (.proc p) = true ∧ mustRun p k = false
  | .switchBack p => Only (.proc p) k ∧ Clear k
  | .setTickets p _ | .wakeStore p | .freeStore p => InSection p k
  | .wakeupFrom _ _ | .killFrom _ _ | .killCheck _ _ | .reparentFrom _ _ | .wakeParent _ =>
    NoProc k ∧ holds k .tickets = false
  | .wakeupCheck p _ =>
    holds k (.proc p) = true ∧ (∀ q, holds k (.proc q) = true → p = q) ∧ holds k .tickets = false ∧
      ∀ a, act a ∈ k → scope a ≠ some (.proc p)
  | .clearProc | .update _ => True

def IsTicketAct (a : Act) : Bool :=
  match a with
  | .pick | .leave _ _ | .setTickets _ _ | .wakeStore _ | .freeStore _ | .publish _ => true
  | _ => false

/-- tickets_lock is taken for one action, and only the scheduler takes a further lock under it. -/
def acquireOk (l : Lock) (k : List Stmt) : Prop :=
  (l = .tickets → ∃ a k', k = act a :: k' ∧ IsTicketAct a = true) ∧
    (holds k .tickets = true → l = .tickets ∨ ∃ p, l = .proc p ∧ k = chosen p)

def discipline : Discipline Lock Act := ⟨consumes, scope, acquireOk, actOk⟩

abbrev Typed (k : List Stmt) : Prop := discipline.Typed k

theorem scoping : discipline.Scoping := by
  intro a k l fits under
  cases a <;> simp_all [discipline, scope, consumes]
  case wakeStore p => exact under ▸ fits.own
  case freeStore p => exact under ▸ fits.own

theorem scope_proc {a : Act} {l : Lock} (under : scope a = some l) : ∃ p, l = .proc p := by
  cases a <;> simp_all [scope]
  all_goals exact ⟨_, under.symm⟩

variable {k : List Stmt}

theorem Typed.holds_of_pending (typed : Typed k) {a : Act} {l : Lock} (pending : act a ∈ k)
    (under : scope a = some l) : holds k l = true :=
  typed.held_of_pending scoping pending under

theorem Typed.clear (typed : Typed k) (none : NoProc k) : Clear k := by
  intro a pending
  cases under : scope a with
  | none => rfl
  | some l =>
    obtain ⟨p, rfl⟩ := scope_proc under
    have := typed.holds_of_pending pending under
    rw [none p] at this
    contradiction

theorem Clear.unscoped (clear : Clear k) (l : Lock) : discipline.Unscoped l k := by
  intro a pending under
  have none := clear a pending
  change scope a = some l at under
  rw [none] at under
  contradiction

section Simp

variable {l m : Lock} {a : Act}

@[simp] theorem typed_nil : Typed [] := trivial

@[simp] theorem holds_nil : holds [] l = false := rfl

@[simp] theorem unscoped_nil : discipline.Unscoped l [] := fun _ pending => absurd pending not_mem_nil

@[simp] theorem typed_acquire : Typed (acquire l :: k) ↔
    holds k l = true ∧ acquireOk l k ∧ discipline.Unscoped l k ∧ Typed k := Iff.rfl

@[simp] theorem typed_release : Typed (release l :: k) ↔
    holds k l = false ∧ discipline.Unscoped l k ∧ Typed k := Iff.rfl

@[simp] theorem typed_act : Typed (act a :: k) ↔ actOk a k ∧ Typed k := Iff.rfl

@[simp] theorem holds_acquire : holds (acquire l :: k) m = (!decide (l = m) && holds k m) := rfl

@[simp] theorem holds_release : holds (release l :: k) m = (decide (l = m) || holds k m) := rfl

@[simp] theorem holds_act : holds (act a :: k) m = (consumes a m || holds k m) := rfl

@[simp] theorem discipline_scope : discipline.scope a = scope a := rfl

theorem unscoped_of_ne (other : ∀ p, l ≠ .proc p) : discipline.Unscoped l k := by
  intro a _ under
  obtain ⟨p, same⟩ := scope_proc under
  exact other p same

@[simp] theorem unscoped_tickets : discipline.Unscoped .tickets k := unscoped_of_ne (by simp)

@[simp] theorem unscoped_ticks : discipline.Unscoped .ticks k := unscoped_of_ne (by simp)

@[simp] theorem unscoped_wait : discipline.Unscoped .wait k := unscoped_of_ne (by simp)

@[simp] theorem unscoped_pid : discipline.Unscoped .pid k := unscoped_of_ne (by simp)

end Simp

theorem quiet_noProc (quiet : Quiet k) : NoProc k := fun p => quiet (.proc p)

theorem Only.eq_false {l m : Lock} (only : Only l k) (other : l ≠ m) : holds k m = false := by
  rw [Bool.eq_false_iff]
  exact fun held => other ((only _).mp held)

theorem typed_sched (p : ProcId) (only : Only (.proc p) k) (clear : Clear k) (typed : Typed k) :
    Typed (sched p ++ k) ∧ ∀ l, holds (sched p ++ k) l = holds k l := by
  have own : holds k (.proc p) = true := (only _).mpr rfl
  have ticks : holds k .ticks = false := only.eq_false (by simp)
  have tickets : holds k .tickets = false := only.eq_false (by simp)
  constructor
  · simp [sched, actOk, acquireOk, consumes, mustRun, IsSched, own, ticks, tickets, only, clear, typed]
  · intro l
    by_cases same : Lock.ticks = l
    · subst same
      simp [sched, consumes, ticks]
    · simp [sched, consumes, same]

theorem typed_section {a : Act} (ticket : IsTicketAct a = true) (keeps : ∀ l, consumes a l = false)
    (fits : actOk a (release .tickets :: k)) (free : holds k .tickets = false) (typed : Typed k) :
    Typed (acquire .tickets :: act a :: release .tickets :: k) ∧
      ∀ l, holds (acquire .tickets :: act a :: release .tickets :: k) l = holds k l := by
  constructor
  · simp [acquireOk, keeps, fits, free, typed, ticket]
  · intro l
    by_cases same : Lock.tickets = l
    · subst same
      simp [free]
    · simp [keeps, same]

theorem inSection_release (p : ProcId) (own : holds k (.proc p) = true)
    (sole : ∀ q, holds k (.proc q) = true → p = q) (last : discipline.Unscoped (.proc p) k) :
    InSection p (release .tickets :: k) :=
  ⟨by simp, by simp [own], fun q => by simpa using sole q, fun a pending => last a (by simpa using pending)⟩

theorem typed_yield (p : ProcId) (quiet : Quiet k) (typed : Typed k) :
    Typed (yield p ++ k) ∧ Quiet (yield p ++ k) := by
  have clear := typed.clear (quiet_noProc quiet)
  have only : Only (.proc p) (release (.proc p) :: k) := fun m => by simp [quiet m]
  have back : Typed (release (.proc p) :: k) := by simp [quiet (.proc p), clear.unscoped, typed]
  have backClear : Clear (release (.proc p) :: k) := fun a pending => clear a (by simpa using pending)
  obtain ⟨scheduled, same⟩ := typed_sched p only backClear back
  have own : holds (sched p ++ release (.proc p) :: k) (.proc p) = true := by simp [same]
  have sole : ∀ q, holds (sched p ++ release (.proc p) :: k) (.proc q) = true → p = q := fun q => by
    simp [same, quiet (.proc q)]
  have last : discipline.Unscoped (.proc p) (sched p ++ release (.proc p) :: k) := by
    simp [unscoped_acquire, unscoped_act, unscoped_release, sched, scope, clear.unscoped]
  obtain ⟨stored, kept⟩ := typed_section (a := .leave .yield p) rfl (fun _ => rfl)
    ⟨inSection_release p own sole last, rfl⟩ (by simp [same, quiet .tickets]) scheduled
  have shape : yield p ++ k = acquire (.proc p) :: acquire .tickets :: act (.leave .yield p) ::
      release .tickets :: (sched p ++ (release (.proc p) :: k)) := by
    simp [yield]
  rw [shape]
  constructor
  · refine typed_acquire.mpr ⟨?_, ?_, ?_, stored⟩
    · rw [kept, own]
    · constructor
      · simp
      · simp [kept, same, quiet .tickets]
    · simpa [unscoped_acquire, unscoped_act, unscoped_release, scope] using last
  · intro l
    by_cases proc : Lock.proc p = l
    · simp [proc]
    · have := kept l
      simp_all [quiet l]

theorem typed_sleep (p : ProcId) (chan : Option Chan) {lk : Lock} (only : Only lk k)
    (plain : ∀ q, lk ≠ .proc q) (other : lk ≠ .tickets) (typed : Typed k) :
    Typed (sleep p chan lk ++ k) ∧ ∀ l, holds (sleep p chan lk ++ k) l = holds k l := by
  have noProc : NoProc k := fun q => only.eq_false (plain q)
  have noTickets : holds k .tickets = false := only.eq_false other
  have clear := typed.clear noProc
  have gives : holds k lk = true := (only lk).mpr rfl
  -- the code after sched returns
  let back := act (.update (.setChan p none)) :: release (.proc p) :: acquire lk :: k
  have backOnly : Only (.proc p) back := fun m => by
    by_cases guard : lk = m
    · simp [back, consumes, guard]
    · simp [back, consumes, guard, only.eq_false guard]
  have backClear : Clear back := fun a pending => by
    simp only [back, mem_cons, reduceCtorEq, false_or] at pending
    rcases pending with same | pending
    · cases same
      rfl
    · exact clear a pending
  have backTyped : Typed back := by
    simp [back, actOk, acquireOk, plain p, noProc p, unscoped_acquire, clear.unscoped, gives, other, noTickets, typed]
  obtain ⟨scheduled, same⟩ := typed_sched p backOnly backClear backTyped
  have own : holds (sched p ++ back) (.proc p) = true := by rw [same, (backOnly _).mpr rfl]
  have sole : ∀ q, holds (sched p ++ back) (.proc q) = true → p = q := fun q held => by
    rw [same, backOnly] at held
    exact Lock.proc.inj held
  have last : discipline.Unscoped (.proc p) (sched p ++ back) := by
    simp [unscoped_acquire, unscoped_act, unscoped_release, sched, scope, back, clear.unscoped]
  obtain ⟨stored, kept⟩ := typed_section (a := .leave .sleep p) rfl (fun _ => rfl)
    ⟨inSection_release p own sole last, rfl⟩ (by rw [same, backOnly.eq_false (by simp)]) scheduled
  have shape : sleep p chan lk ++ k = acquire (.proc p) :: release lk ::
      act (.update (.setChan p chan)) :: acquire .tickets :: act (.leave .sleep p) ::
      release .tickets :: (sched p ++ back) := by
    simp [sleep, back]
  rw [shape]
  constructor
  · refine typed_acquire.mpr ⟨?_, ⟨by simp, ?_⟩, ?_, typed_release.mpr ⟨?_, unscoped_of_ne plain,
      typed_act.mpr ⟨trivial, stored⟩⟩⟩
    · rw [holds_release, holds_act, kept, own]
      simp
    · rw [holds_release, holds_act, kept, same, backOnly.eq_false (by simp)]
      simp [consumes, other]
    · simpa [unscoped_acquire, unscoped_act, unscoped_release, scope] using last
    · rw [holds_act, kept, same, backOnly.eq_false (Ne.symm (plain p))]
      rfl
  · intro l
    rw [holds_acquire, holds_release, holds_act, kept, same]
    by_cases proc : Lock.proc p = l
    · simp [← proc, noProc p]
    · rw [backOnly.eq_false proc]
      by_cases guard : lk = l
      · simp [← guard, gives, Ne.symm (plain p)]
      · simp [proc, guard, consumes, only.eq_false guard]

theorem typed_unlock (p : ProcId) (noProc : NoProc k) (typed : Typed k) : Typed (release (.proc p) :: k) := by
  simp [noProc p, (typed.clear noProc).unscoped, typed]

theorem typed_freeproc (p : ProcId) (noProc : NoProc k) (free : holds k .tickets = false) (typed : Typed k) :
    Typed (freeproc p ++ release (.proc p) :: k) ∧
      ∀ l, holds (freeproc p ++ release (.proc p) :: k) l = holds (release (.proc p) :: k) l := by
  obtain ⟨stored, kept⟩ := typed_section (a := .freeStore p) rfl (fun _ => rfl)
    (inSection_release p (by simp) (fun q => by simp [noProc q])
      (unscoped_release.mpr ((typed.clear noProc).unscoped _))) (by simp [free]) (typed_unlock p noProc typed)
  exact ⟨typed_act.mpr ⟨trivial, stored⟩, fun l => kept l⟩

theorem Guard.lock_ne_proc (guard : Guard) (p : ProcId) : guard.lock ≠ .proc p := by
  cases guard <;> simp [Guard.lock]

theorem Guard.lock_ne_tickets (guard : Guard) : guard.lock ≠ .tickets := by
  cases guard <;> simp [Guard.lock]

theorem typed_exit (p : ProcId) (status : Int) (quiet : Quiet k) (typed : Typed k) :
    Typed (exit p status ++ k) ∧ Quiet (exit p status ++ k) := by
  have clear := typed.clear (quiet_noProc quiet)
  let back := act (.zombieExit p) :: k
  have backOnly : Only (.proc p) back := fun m => by simp [back, consumes, quiet m]
  have backClear : Clear back := fun a pending => by
    rcases mem_cons.mp pending with same | pending
    · cases same
      rfl
    · exact clear a pending
  obtain ⟨scheduled, same⟩ := typed_sched p backOnly backClear (typed_act.mpr ⟨quiet, typed⟩)
  let rest := release .wait :: (sched p ++ back)
  have restTyped : Typed rest := typed_release.mpr ⟨by rw [same, backOnly.eq_false (by simp)], by simp, scheduled⟩
  have own : holds rest (.proc p) = true := by
    rw [holds_release, same, (backOnly _).mpr rfl]
    rfl
  have sole : ∀ q, holds rest (.proc q) = true → p = q := fun q held => by
    rw [holds_release, same] at held
    simpa [back, consumes, quiet (.proc q)] using held
  have noTickets : holds rest .tickets = false := by
    rw [holds_release, same, backOnly.eq_false (by simp)]
    rfl
  have last : discipline.Unscoped (.proc p) rest := by
    simp [unscoped_acquire, unscoped_act, unscoped_release, rest, sched, scope, back, clear.unscoped]
  obtain ⟨stored, kept⟩ := typed_section (a := .leave .exit p) rfl (fun _ => rfl)
    ⟨inSection_release p own sole last, rfl⟩ noTickets restTyped
  -- from the acquisition of p->lock on, only wait_lock is held besides
  let locked := acquire (.proc p) :: act (.update (.setXstate p status)) :: acquire .tickets ::
    act (.leave .exit p) :: release .tickets :: rest
  have lockedHolds : ∀ l, holds locked l = decide (.wait = l) := fun l => by
    rw [holds_acquire, holds_act, kept, holds_release, same]
    by_cases proc : Lock.proc p = l
    · simp [← proc]
    · rw [backOnly.eq_false proc]
      simp [proc, consumes]
  have lockedTyped : Typed locked := by
    refine typed_acquire.mpr ⟨?_, ⟨by simp, ?_⟩, ?_, typed_act.mpr ⟨trivial, stored⟩⟩
    · rw [holds_act, kept, own]
      rfl
    · rw [holds_act, kept, noTickets]
      simp [consumes]
    · simpa [unscoped_acquire, unscoped_act, unscoped_release, scope] using last
  have shape : exit p status ++ k = acquire .wait :: act (.reparentFrom p 0) :: act (.wakeParent p) :: locked := by
    simp [exit, locked, rest, back]
  rw [shape]
  constructor
  · simp [lockedTyped, lockedHolds, acquireOk, actOk, NoProc, consumes]
  · intro l
    simp [lockedHolds, consumes]

/-- The code that an action leaves for its thread, with the locks that code gives back. -/
def Fits (code : List Stmt) (a : Act) (k : List Stmt) : Prop :=
  Typed code ∧ ∀ l, holds code l = holds (act a :: k) l

variable {code : List Stmt}

theorem syscall_fits {t : Table} {p : ProcId} {call : Syscall}
    (ran : syscall t p call = some code) (quiet : Quiet k) (typed : Typed k) :
    Typed (code ++ k) ∧ Quiet (code ++ k) := by
  have noProc := quiet_noProc quiet
  have clear := typed.clear noProc
  cases call with
  | fork =>
    cases ran
    exact ⟨typed_act.mpr ⟨quiet, typed⟩, fun l => by simp [consumes, quiet l]⟩
  | exit status =>
    simp only [syscall] at ran
    split at ran
    · contradiction
    · cases ran
      exact typed_exit p status quiet typed
  | wait =>
    cases ran
    refine ⟨?_, fun l => ?_⟩
    · simp [acquireOk, actOk, consumes, quiet .tickets, quiet, typed]
    · by_cases same : Lock.wait = l <;> simp [consumes, quiet l, same]
  | kill pid =>
    cases ran
    exact ⟨typed_act.mpr ⟨⟨noProc, quiet .tickets⟩, typed⟩, fun l => by simp [consumes, quiet l]⟩
  | settickets count =>
    cases ran
    unfold settickets
    split
    · exact ⟨typed, quiet⟩
    · have back := typed_unlock p noProc typed
      obtain ⟨stored, kept⟩ := typed_section (a := .setTickets p count) rfl (fun _ => rfl)
        (inSection_release p (by simp) (fun q => by simp [noProc q]) (unscoped_release.mpr (clear.unscoped _)))
        (by simp [quiet .tickets]) back
      simp only [cons_append, nil_append]
      constructor
      · refine typed_acquire.mpr ⟨by rw [kept]; simp, ⟨by simp, ?_⟩, ?_, stored⟩
        · rw [kept]
          simp [quiet .tickets]
        · simp [unscoped_acquire, unscoped_act, unscoped_release, scope, clear.unscoped]
      · intro l
        rw [holds_acquire, kept]
        by_cases same : Lock.proc p = l <;> simp [same, quiet l]
  | sleep chan guard =>
    cases ran
    have plain := guard.lock_ne_proc
    have other := guard.lock_ne_tickets
    have only : Only guard.lock (release guard.lock :: k) := fun m => by simp [quiet m]
    have back : Typed (release guard.lock :: k) := by
      simp [quiet guard.lock, unscoped_of_ne plain, typed]
    obtain ⟨slept, kept⟩ := typed_sleep p chan only plain other back
    have shape : (acquire guard.lock :: sleep p chan guard.lock ++ [release guard.lock]) ++ k =
        acquire guard.lock :: (sleep p chan guard.lock ++ release guard.lock :: k) := by simp
    rw [shape]
    constructor
    · refine typed_acquire.mpr ⟨by rw [kept]; simp, ⟨fun same => absurd same other, ?_⟩, unscoped_of_ne plain, slept⟩
      rw [kept]
      simp [other, quiet .tickets]
    · intro l
      rw [holds_acquire, kept]
      by_cases same : guard.lock = l <;> simp [same, quiet l]
  | wakeup chan guard =>
    cases ran
    have plain := guard.lock_ne_proc
    have other := guard.lock_ne_tickets
    constructor
    · simp [wakeup, acquireOk, actOk, NoProc, consumes, other, plain, noProc _, quiet .tickets,
        quiet guard.lock, unscoped_of_ne plain, typed]
    · intro l
      by_cases same : guard.lock = l <;> simp [wakeup, consumes, same, quiet l]

theorem fits_of_same {a : Act} (typed : Typed code)
    (same : ∀ l, holds code l = holds k l) (keeps : ∀ l, consumes a l = false) : Fits code a k :=
  ⟨typed, fun l => by rw [same, holds_act, keeps, Bool.false_or]⟩

theorem fits_done {a : Act} (typed : Typed k) (keeps : ∀ l, consumes a l = false) : Fits k a k :=
  fits_of_same typed (fun _ => rfl) keeps

theorem fits_of_quiet {a : Act} (typed : Typed code) (still : Quiet code)
    (quiet : Quiet k) (keeps : ∀ l, consumes a l = false) : Fits code a k :=
  fits_of_same typed (fun l => by rw [still, quiet]) keeps

theorem typed_selected (p : ProcId) : Fits (selected p) .pick [] := by
  refine ⟨?_, fun l => ?_⟩
  · simp [selected, chosen, resume, actOk, acquireOk, consumes, unscoped_act, unscoped_release,
      unscoped_acquire, scope, Only]
  · by_cases proc : Lock.proc p = l
    · simp [selected, ← proc, consumes]
    · by_cases ticks : Lock.ticks = l <;> simp [selected, chosen, resume, consumes, proc, ticks]

theorem typed_forkret (p : ProcId) : Typed (forkret p) := by
  simp [forkret, actOk, Quiet, consumes, unscoped_act, scope]

section Exec

variable {n : Nat} {c : Fin n} {choice : Choice} {locks : List Lock} {s : Shared n} {a : Act} {o : Outcome n}

theorem exec_fits (ran : exec c choice locks s a = some o) (fits : actOk a k) (typed : Typed k) :
    Fits (o.push ++ k) a k := by
  cases a with
  | loop =>
    cases fits
    cases ran
    refine ⟨?_, fun l => ?_⟩
    · simp [acquireOk, actOk, consumes, IsTicketAct, typed]
    · by_cases same : Lock.tickets = l <;> simp [consumes, same]
  | pick =>
    cases fits
    simp only [exec] at ran
    split at ran
    · cases ran
      refine ⟨?_, fun l => ?_⟩
      · simp [actOk, consumes]
      · simp [consumes]
    · cases ran
      exact typed_selected _
  | user =>
    have quiet : Quiet k := fits
    simp only [exec] at ran
    split at ran
    · split at ran
      · rename_i code called
        cases ran
        have back : Quiet (act .user :: k) := fun l => by simp [consumes, quiet l]
        obtain ⟨typed, still⟩ := syscall_fits called back (typed_act.mpr ⟨quiet, typed⟩)
        simp only [append_assoc, cons_append, nil_append]
        exact fits_of_quiet typed still quiet fun _ => rfl
      · contradiction
    · contradiction
  | trapYield =>
    have quiet : Quiet k := fits
    simp only [exec] at ran
    split at ran
    · rename_i p _
      cases ran
      obtain ⟨typed, still⟩ := typed_yield p quiet typed
      exact fits_of_quiet typed still quiet fun _ => rfl
    · contradiction
  | preempt =>
    have quiet : Quiet k := fits
    simp only [exec] at ran
    split at ran
    · rename_i p _
      cases ran
      split
      · obtain ⟨typed, still⟩ := typed_yield p quiet typed
        exact fits_of_quiet typed still quiet fun _ => rfl
      · exact fits_done typed fun _ => rfl
    · cases ran
      exact fits_done typed fun _ => rfl
  | schedCheck p =>
    simp only [exec] at ran
    split at ran
    · cases ran
      exact fits_done typed fun _ => rfl
    · contradiction
  | zombieExit p => contradiction
  | setRunning _ | setProc _ | swtch _ | clearProc | leave _ _ | switchBack _ | setTickets _ _ | wakeStore _
  | freeStore _ =>
    cases ran
    exact fits_done typed fun _ => rfl
  | update u => cases ran; exact fits_done typed fun _ => by cases u <;> rfl
  | wakeupFrom i chan =>
    obtain ⟨noProc, noTickets⟩ := fits
    have clear := typed.clear noProc
    have next : Typed (act (.wakeupFrom (i + 1) chan) :: k) := typed_act.mpr ⟨⟨noProc, noTickets⟩, typed⟩
    simp only [exec] at ran
    split at ran
    · split at ran
      · cases ran
        exact fits_of_same next (fun _ => rfl) fun _ => rfl
      · rename_i inside _
        cases ran
        refine fits_of_same ?_ (fun l => ?_) fun _ => rfl
        · simp [acquireOk, actOk, consumes, scope, unscoped_act, unscoped_release, clear.unscoped, noTickets,
            noProc _, noProc, typed]
          exact clear.unscoped (.proc ⟨i, inside⟩)
        · by_cases same : Lock.proc ⟨i, inside⟩ = l
          · simp [← same, noProc _]
          · simp [consumes, same]
    · cases ran
      exact fits_done typed fun _ => rfl
  | wakeupCheck p chan =>
    obtain ⟨own, sole, noTickets, last⟩ := fits
    cases ran
    split
    · obtain ⟨stored, kept⟩ := typed_section (a := .wakeStore p) rfl (fun _ => rfl)
        (inSection_release p own sole last) noTickets typed
      exact fits_of_same stored kept fun _ => rfl
    · exact fits_done typed fun _ => rfl
  | killFrom i pid =>
    obtain ⟨noProc, noTickets⟩ := fits
    have clear := typed.clear noProc
    simp only [exec] at ran
    split at ran
    · rename_i inside
      cases ran
      refine fits_of_same ?_ (fun l => ?_) fun _ => rfl
      · simp [acquireOk, actOk, consumes, scope, unscoped_act, clear.unscoped, noTickets, noProc, typed]
      · by_cases same : Lock.proc ⟨i, inside⟩ = l
        · simp [← same, noProc _]
        · simp [consumes, same]
    · cases ran
      exact fits_done typed fun _ => rfl
  | killCheck p pid =>
    obtain ⟨noProc, noTickets⟩ := fits
    have clear := typed.clear noProc
    have back := typed_unlock p noProc typed
    simp only [exec] at ran
    split at ran
    · cases ran
      split
      · obtain ⟨stored, kept⟩ := typed_section (a := .wakeStore p) rfl (fun _ => rfl)
          (inSection_release p (by simp) (fun q => by simp [noProc q])
            (unscoped_release.mpr (clear.unscoped _))) (by simp [noTickets]) back
        exact ⟨stored, fun l => kept l⟩
      · exact ⟨back, fun _ => rfl⟩
    · cases ran
      refine ⟨?_, fun l => by simp [consumes]⟩
      simp [actOk, consumes, scope, unscoped_act, clear.unscoped, noTickets, noProc _, noProc, typed]
  | reparentFrom p i =>
    have next : Typed (act (.reparentFrom p (i + 1)) :: k) := typed_act.mpr ⟨fits, typed⟩
    simp only [exec] at ran
    split at ran
    · split at ran
      · cases ran
        refine fits_of_same (typed_act.mpr ⟨⟨fun q => ?_, ?_⟩, next⟩) (fun _ => rfl) fun _ => rfl
        · exact fits.1 q
        · exact fits.2
      · cases ran
        exact fits_of_same next (fun _ => rfl) fun _ => rfl
    · cases ran
      exact fits_done typed fun _ => rfl
  | wakeParent p =>
    cases ran
    exact fits_of_same (typed_act.mpr ⟨fits, typed⟩) (fun _ => rfl) fun _ => rfl
  | waitFrom p i havekids =>
    have quiet : Quiet k := fits
    have clear := typed.clear (quiet_noProc quiet)
    have again : ∀ i b, Typed (act (.waitFrom p i b) :: k) := fun _ _ => typed_act.mpr ⟨quiet, typed⟩
    simp only [exec] at ran
    split at ran
    · rename_i inside
      split at ran
      · cases ran
        refine ⟨?_, fun l => ?_⟩
        · simp [acquireOk, actOk, consumes, scope, unscoped_act, clear.unscoped, quiet .tickets, quiet, typed]
        · by_cases same : Lock.proc ⟨i, inside⟩ = l
          · simp [← same, consumes, quiet _]
          · simp [consumes, same]
      · cases ran
        exact ⟨again _ _, fun _ => rfl⟩
    · split at ran
      · cases ran
        exact ⟨by simp [quiet .wait, typed], fun l => by simp [consumes]⟩
      · cases ran
        have only : Only .wait (act (.waitFrom p 0 false) :: k) := fun m => by
          simp [consumes, quiet m]
        obtain ⟨slept, kept⟩ := typed_sleep p (some (.proc p)) only (by simp) (by simp) (again 0 false)
        simp only [append_assoc, cons_append, nil_append]
        exact ⟨slept, fun l => by rw [kept]; rfl⟩
  | waitCheck p np =>
    have quiet : Quiet k := fits
    have clear := typed.clear (quiet_noProc quiet)
    have back : Typed (release (.proc np) :: release .wait :: k) := by
      simp [quiet (.proc np), quiet .wait, unscoped_release, clear.unscoped, typed]
    have same : ∀ l, holds (release (.proc np) :: release .wait :: k) l =
        holds (act (.waitCheck p np) :: k) l := fun l => by
      by_cases wait : Lock.wait = l <;> by_cases proc : Lock.proc np = l <;>
        simp [consumes, wait, proc, quiet l]
    simp only [exec] at ran
    split at ran
    · split at ran
      · cases ran
        exact ⟨back, same⟩
      · cases ran
        obtain ⟨freed, kept⟩ := typed_freeproc np (k := release .wait :: k) (fun q => by simp [quiet (.proc q)])
          (by simp [quiet .tickets]) (by simp [quiet .wait, typed])
        simp only [append_assoc, cons_append, nil_append]
        exact ⟨freed, fun l => by rw [kept, same]⟩
    · cases ran
      refine ⟨?_, fun l => ?_⟩
      · simp [actOk, consumes, scope, unscoped_act, clear.unscoped, quiet _, quiet, typed]
      · by_cases wait : Lock.wait = l <;> by_cases proc : Lock.proc np = l <;>
          simp [consumes, wait, proc, quiet l]
  | allocFrom p i =>
    have quiet : Quiet k := fits
    have clear := typed.clear (quiet_noProc quiet)
    simp only [exec] at ran
    split at ran
    · rename_i inside
      cases ran
      refine fits_of_same ?_ (fun l => ?_) fun _ => rfl
      · simp [acquireOk, actOk, consumes, scope, unscoped_act, clear.unscoped, quiet .tickets, quiet, typed]
      · by_cases same : Lock.proc ⟨i, inside⟩ = l
        · simp [← same, quiet _]
        · simp [consumes, same]
    · cases ran
      exact fits_done typed fun _ => rfl
  | allocCheck p np =>
    have quiet : Quiet k := fits
    have clear := typed.clear (quiet_noProc quiet)
    simp only [exec] at ran
    split at ran
    · cases ran
      refine ⟨?_, fun l => ?_⟩
      · simp [acquireOk, actOk, consumes, quiet .tickets, quiet .pid, quiet, typed]
      · by_cases same : Lock.pid = l
        · simp [← same, consumes, quiet _]
        · simp [consumes, same]
    · cases ran
      refine ⟨?_, fun l => by simp [consumes]⟩
      simp [actOk, consumes, scope, unscoped_act, clear.unscoped, quiet _, quiet, typed]
  | setUsed p np =>
    have quiet : Quiet k := fits
    have clear := typed.clear (quiet_noProc quiet)
    simp only [exec] at ran
    split at ran
    · cases ran
      obtain ⟨freed, kept⟩ := typed_freeproc np (quiet_noProc quiet) (quiet .tickets) typed
      simp only [append_assoc, cons_append, nil_append]
      exact ⟨freed, fun l => by rw [kept]; rfl⟩
    · cases ran
      refine ⟨?_, fun l => ?_⟩
      · simp [acquireOk, actOk, consumes, scope, unscoped_act, unscoped_acquire, unscoped_release,
          clear.unscoped, IsTicketAct, quiet .tickets, quiet .wait, quiet, typed]
      · by_cases proc : Lock.proc np = l
        · simp [← proc, consumes]
        · by_cases tickets : Lock.tickets = l
          · simp [← tickets, consumes, quiet _]
          · by_cases wait : Lock.wait = l
            · simp [← wait, consumes, quiet _]
            · simp [consumes, proc, tickets, wait]
  | publish np =>
    have quiet : Quiet k := fits
    cases ran
    refine ⟨?_, fun l => ?_⟩
    · simp [actOk, consumes, quiet .tickets, quiet, typed]
    · by_cases proc : Lock.proc np = l <;> simp [consumes, proc]
  | forkCopy np =>
    have quiet : Quiet k := fits
    simp only [exec] at ran
    split at ran
    · cases ran
      obtain ⟨freed, kept⟩ := typed_freeproc np (quiet_noProc quiet) (quiet .tickets) typed
      simp only [append_assoc, cons_append, nil_append]
      exact ⟨freed, fun l => by rw [kept]; rfl⟩
    · cases ran
      exact ⟨typed_unlock np (quiet_noProc quiet) typed, fun _ => rfl⟩

end Exec

end DeisoXv6
