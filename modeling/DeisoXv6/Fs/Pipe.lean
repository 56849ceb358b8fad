import DeisoXv6.Data.Ring
import DeisoXv6.Fs.ReadWrite

/-! pipe.c. A pipe is a ring with two free-running counters, and pipewrite and piperead are interleaved by any
number of processes. A step is a lock operation, a test of a loop or the copy of one byte; sleep gives up the
lock in one step, as it does under `p->lock`. -/

set_option autoImplicit false

namespace DeisoXv6

open List Ring
open Function (update update_apply update_of_ne update_self)

instance : NeZero PIPESIZE := ⟨by decide⟩

/-- `struct pipe`, without its lock. -/
structure PipeRing where
  data : Fin PIPESIZE → UInt8
  nread : BitVec 32
  nwrite : BitVec 32
  readopen : Bool
  writeopen : Bool

namespace PipeRing

def Full (pi : PipeRing) : Prop := pi.nwrite = pi.nread + BitVec.ofNat 32 PIPESIZE

instance (pi : PipeRing) : Decidable pi.Full := inferInstanceAs (Decidable (_ = _))

/-- `pi->data[pi->nwrite++ % PIPESIZE] = ch`. -/
def put (pi : PipeRing) (ch : UInt8) : PipeRing :=
  { pi with
    data := update pi.data (slot PIPESIZE pi.nwrite) ch
    nwrite := pi.nwrite + 1#32 }

/-- `pi->data[pi->nread++ % PIPESIZE]`. -/
def take (pi : PipeRing) : UInt8 × PipeRing :=
  (pi.data (slot PIPESIZE pi.nread), { pi with nread := pi.nread + 1#32 })

end PipeRing

inductive PipeCall where
  /-- The bytes that copyin finds at `addr`, `addr + 1` and so on, and how many to write. -/
  | write (src : Nat → UInt8) (n : Int)
  | read (n : Int)

/-- `&pi->nread` and `&pi->nwrite`. -/
inductive PipeChan where
  | nread
  | nwrite
  deriving DecidableEq

inductive PipePoint where
  | user
  | enters (call : PipeCall)
  /-- The while loop of pipewrite, at its tests. -/
  | writes (src : Nat → UInt8) (n : Int) (i : Nat)
  | puts (src : Nat → UInt8) (n : Int) (i : Nat)
  /-- The while loop of piperead. -/
  | waits (n : Int)
  /-- The for loop of piperead, at its tests. -/
  | reads (n : Int) (i : Nat)
  | gets (n : Int) (i : Nat)
  | writeSleeps (src : Nat → UInt8) (n : Int) (i : Nat) (woken : Bool)
  | readSleeps (n : Int) (woken : Bool)

inductive PipeEvent (Tid : Type) where
  | call (t : Tid) (call : PipeCall)
  /-- The next step of a process; `copied` is whether its copyin or copyout succeeds. -/
  | run (t : Tid) (copied : Bool)
  | kill (t : Tid)
  | close (writable : Bool)

/-- Whether the user copy of the step succeeds, if it makes one. -/
def PipeEvent.copied {Tid : Type} : PipeEvent Tid → Bool
  | run _ copied => copied
  | _ => true

inductive PipeLabel (Tid : Type) where
  | silent
  | accepts (t : Tid) (ch : UInt8)
  | delivers (t : Tid) (ch : UInt8)
  | returns (t : Tid) (value : Int)
  deriving DecidableEq

structure PipeState (Tid : Type) where
  pipe : PipeRing
  lock : Option Tid
  point : Tid → PipePoint
  killed : Tid → Bool

namespace PipePoint

def sleepsOn : PipePoint → Option PipeChan
  | writeSleeps _ _ _ _ => some .nwrite
  | readSleeps _ _ => some .nread
  | _ => none

def woken : PipePoint → PipePoint
  | writeSleeps src n i _ => writeSleeps src n i true
  | readSleeps n _ => readSleeps n true
  | point => point

def entered : PipeCall → PipePoint
  | .write src n => writes src n 0
  | .read n => waits n

end PipePoint

namespace PipeState

variable {Tid : Type} [DecidableEq Tid]

def go (s : PipeState Tid) (t : Tid) (point : PipePoint) : PipeState Tid :=
  { s with point := update s.point t point }

def wakeup (s : PipeState Tid) (chan : PipeChan) : PipeState Tid :=
  { s with point := fun t => if (s.point t).sleepsOn = some chan then (s.point t).woken else s.point t }

def acquire (s : PipeState Tid) (t : Tid) (point : PipePoint) : Option (PipeState Tid × PipeLabel Tid) :=
  if s.lock = none then some ({ s.go t point with lock := some t }, .silent) else none

def leave (s : PipeState Tid) (t : Tid) (value : Int) : Option (PipeState Tid × PipeLabel Tid) :=
  some ({ s.go t .user with lock := none }, .returns t value)

def sleep (s : PipeState Tid) (t : Tid) (point : PipePoint) : Option (PipeState Tid × PipeLabel Tid) :=
  some ({ s.go t point with lock := none }, .silent)

def pass (s : PipeState Tid) (t : Tid) (point : PipePoint) : Option (PipeState Tid × PipeLabel Tid) :=
  some (s.go t point, .silent)

/-- A step of process `t`; `none` if it waits for the lock or for a wakeup. -/
def run (s : PipeState Tid) (t : Tid) (copied : Bool) : Option (PipeState Tid × PipeLabel Tid) :=
  match s.point t with
  | .user => none
  | .enters call => s.acquire t (.entered call)
  | .writes src n i =>
    if i < n then
      if s.pipe.readopen = false ∨ s.killed t = true then s.leave t (-1)
      else if s.pipe.Full then (s.wakeup .nread).sleep t (.writeSleeps src n i false)
      else s.pass t (.puts src n i)
    else (s.wakeup .nread).leave t i
  | .puts src n i =>
    if copied then some ({ s.go t (.writes src n (i + 1)) with pipe := s.pipe.put (src i) }, .accepts t (src i))
    else (s.wakeup .nread).leave t i
  | .waits n =>
    if s.pipe.nread = s.pipe.nwrite ∧ s.pipe.writeopen = true then
      if s.killed t = true then s.leave t (-1)
      else s.sleep t (.readSleeps n false)
    else s.pass t (.reads n 0)
  | .reads n i =>
    if i < n ∧ s.pipe.nread ≠ s.pipe.nwrite then s.pass t (.gets n i)
    else (s.wakeup .nwrite).leave t i
  | .gets n i =>
    let (ch, pipe) := s.pipe.take
    if copied then some ({ s.go t (.reads n (i + 1)) with pipe := pipe }, .delivers t ch)
    else ({ s with pipe := pipe }.wakeup .nwrite).leave t i
  | .writeSleeps src n i woken => if woken then s.acquire t (.writes src n i) else none
  | .readSleeps n woken => if woken then s.acquire t (.waits n) else none

/-- The stores and the wakeup of pipeclose. -/
def closed (s : PipeState Tid) : Bool → PipeState Tid
  | true => { s with pipe := { s.pipe with writeopen := false } }.wakeup .nread
  | false => { s with pipe := { s.pipe with readopen := false } }.wakeup .nwrite

/-- pipeclose; when both ends are closed the pipe is freed, and the run is over. -/
def pipeclose (s : PipeState Tid) (writable : Bool) : Option (PipeState Tid × PipeLabel Tid) :=
  if s.lock ≠ none ∨ ((s.closed writable).pipe.readopen = false ∧ (s.closed writable).pipe.writeopen = false)
  then none else some (s.closed writable, .silent)

def step (s : PipeState Tid) : PipeEvent Tid → Option (PipeState Tid × PipeLabel Tid)
  | .call t call => match s.point t with
    | .user => s.pass t (.enters call)
    | _ => none
  | .run t copied => s.run t copied
  | .kill t => some ({ s.go t (s.point t).woken with killed := update s.killed t true }, .silent)
  | .close writable => s.pipeclose writable

/-- pipealloc; the page holds whatever it held before. -/
def pipealloc (data : Fin PIPESIZE → UInt8) (killed : Tid → Bool) : PipeState Tid where
  pipe := ⟨data, 0, 0, true, true⟩
  lock := none
  point _ := .user
  killed := killed

end PipeState

namespace PipeRing

variable {pi : PipeRing}

def contents (pi : PipeRing) : List UInt8 := window pi.data pi.nread pi.nwrite

def view (pi : PipeRing) (fits : pi.contents.length ≤ PIPESIZE) : Pipe :=
  ⟨pi.contents, fits, pi.readopen, pi.writeopen⟩

theorem length_contents : pi.contents.length = (pi.nwrite - pi.nread).toNat := length_window

theorem full_iff : pi.Full ↔ pi.contents.length = PIPESIZE := by
  rw [length_contents]
  constructor
  · intro full
    rw [show pi.nwrite = _ from full, BitVec.add_comm, BitVec.add_sub_cancel]
    rfl
  · intro length
    have same := add_sub_self pi.nread pi.nwrite
    rw [length] at same
    exact same.symm

theorem empty_iff : pi.nread = pi.nwrite ↔ pi.contents = [] := by
  constructor
  · intro same
    rw [contents, same]
    exact window_self
  · intro none
    by_contra some
    rw [contents, window_pop some] at none
    cases none

theorem contents_put (room : pi.contents.length < PIPESIZE) (ch : UInt8) :
    (pi.put ch).contents = pi.contents ++ [ch] := by
  rw [length_contents] at room
  exact window_push ⟨2 ^ 23, by decide⟩ (by decide) room ch

theorem contents_take (some : pi.nread ≠ pi.nwrite) : pi.contents = pi.take.1 :: pi.take.2.contents :=
  window_pop some

/-- The ring is the queue: a byte put where the test finds room is pushed, and a byte taken is popped. -/
theorem refines_queue (pi : PipeRing) (fits : pi.contents.length ≤ PIPESIZE) :
    (∀ (room : ¬pi.Full) ch, ∃ fits', (pi.put ch).view fits' = (pi.view fits).push ch (mt full_iff.mpr room)) ∧
    (pi.nread = pi.nwrite → (pi.view fits).data = []) ∧
    (pi.nread ≠ pi.nwrite → (pi.view fits).data = pi.take.1 :: (pi.view fits).pop.data ∧
      ∃ fits', pi.take.2.view fits' = (pi.view fits).pop) := by
  refine ⟨fun room ch => ?_, empty_iff.mp, fun nonempty => ?_⟩
  · have contents := contents_put (lt_of_le_of_ne fits (mt full_iff.mpr room)) ch
    refine ⟨by rw [contents]; exact ((pi.view fits).push ch (mt full_iff.mpr room)).fits, ?_⟩
    simp only [view, Pipe.push, contents]
    rfl
  · have contents := contents_take nonempty
    have tail : pi.contents.tail = pi.take.2.contents := by rw [contents, tail_cons]
    simp only [view, Pipe.pop, tail]
    exact ⟨contents, tail ▸ (pi.view fits).pop.fits, rfl⟩

/-- The counters as nwrite wraps. -/
def wrapped : PipeRing := ⟨fun _ => 7, 0xffffffff, 0, true, true⟩

theorem wrapped_refines_queue : ∃ fits room fits', (wrapped.put 9).view fits' = (wrapped.view fits).push 9 room := by
  have fits : wrapped.contents.length ≤ PIPESIZE := by decide +kernel
  exact ⟨fits, _, (refines_queue wrapped fits).1 (by unfold Full; decide +kernel) 9⟩

end PipeRing

def PipePoint.Inside : PipePoint → Prop
  | writes _ _ _ | puts _ _ _ | waits _ | reads _ _ | gets _ _ => True
  | user | enters _ | writeSleeps _ _ _ _ | readSleeps _ _ => False

variable {point : PipePoint}

theorem PipePoint.inside_woken (inside : point.woken.Inside) : point.Inside := by
  cases point with
  | writeSleeps | readSleeps => cases inside
  | _ => exact inside

theorem PipePoint.woken_inside (inside : point.Inside) : point.woken = point := by
  cases point with
  | writeSleeps | readSleeps => cases inside
  | _ => rfl

section Step

variable {Tid : Type} {s s' : PipeState Tid} {t : Tid} {e : PipeEvent Tid} {label : PipeLabel Tid}

structure PipeInv (s : PipeState Tid) : Prop where
  exclusive : ∀ t, (s.point t).Inside → s.lock = some t
  fits : s.pipe.contents.length ≤ PIPESIZE
  room : ∀ t src n i, s.point t = .puts src n i → ¬s.pipe.Full
  nonempty : ∀ t n i, s.point t = .gets n i → s.pipe.nread ≠ s.pipe.nwrite

def Queued (before after : List UInt8) : PipeLabel Tid → Prop
  | .accepts _ ch => after = before ++ [ch]
  | .delivers _ ch => before = ch :: after
  | .silent | .returns _ _ => after = before

theorem pipealloc_inv (data : Fin PIPESIZE → UInt8) (killed : Tid → Bool) :
    PipeInv (PipeState.pipealloc data killed) where
  exclusive t inside := inside.elim
  fits := by simp [PipeState.pipealloc, PipeRing.length_contents]
  room t src n i here := by cases here
  nonempty t n i here := by cases here

theorem wakeup_point (s : PipeState Tid) (chan : PipeChan) (t : Tid) :
    (s.wakeup chan).point t = s.point t ∨ (s.wakeup chan).point t = (s.point t).woken := by
  simp only [PipeState.wakeup]
  split
  · exact .inr rfl
  · exact .inl rfl

theorem PipeInv.wakeup (inv : PipeInv s) (chan : PipeChan) : PipeInv (s.wakeup chan) := by
  have same : ∀ {t}, ((s.wakeup chan).point t).Inside → (s.wakeup chan).point t = s.point t := by
    intro t inside
    rcases wakeup_point s chan t with same | woken
    · exact same
    · rw [woken] at inside ⊢
      exact PipePoint.woken_inside (PipePoint.inside_woken inside)
  refine ⟨fun t inside => inv.exclusive t (same inside ▸ inside), inv.fits, fun t src n i here => ?_,
    fun t n i here => ?_⟩
  · exact inv.room t src n i ((same (by rw [here]; trivial)).symm.trans here)
  · exact inv.nonempty t n i ((same (by rw [here]; trivial)).symm.trans here)

theorem PipeInv.closed (inv : PipeInv s) (writable : Bool) :
    PipeInv (s.closed writable) ∧ (s.closed writable).pipe.contents = s.pipe.contents := by
  have flags : ∀ readopen writeopen, PipeInv { s with pipe := { s.pipe with readopen, writeopen } } :=
    fun _ _ => ⟨inv.exclusive, inv.fits, inv.room, inv.nonempty⟩
  cases writable with
  | true => exact ⟨(flags _ _).wakeup .nread, rfl⟩
  | false => exact ⟨(flags _ _).wakeup .nwrite, rfl⟩

variable [DecidableEq Tid]

section

variable (inv : PipeInv s)

include inv

theorem PipeInv.go (free : s.lock = none ∨ s.lock = some t) {lock : Option Tid}
    {pipe : PipeRing} (own : point.Inside → lock = some t) (fits : pipe.contents.length ≤ PIPESIZE)
    (room : ∀ src n i, point = .puts src n i → ¬pipe.Full)
    (nonempty : ∀ n i, point = .gets n i → pipe.nread ≠ pipe.nwrite) :
    PipeInv { s.go t point with lock := lock, pipe := pipe } := by
  have alone : ∀ t', t' ≠ t → ¬(s.point t').Inside := by
    intro t' other inside
    rw [inv.exclusive t' inside] at free
    rcases free with wrong | same
    · cases wrong
    · cases same
      exact other rfl
  have points : ∀ t', update s.point t point t' = if t' = t then point else s.point t' := fun t' =>
    update_apply ..
  refine ⟨fun t' inside => ?_, fits, fun t' src n i here => ?_, fun t' n i here => ?_⟩
  · simp only [PipeState.go, points] at inside
    split at inside
    · rename_i same
      exact same ▸ own inside
    · rename_i other
      exact absurd inside (alone t' other)
  · simp only [PipeState.go, points] at here
    split at here
    · exact room src n i here
    · rename_i other
      exact absurd (by rw [here]; trivial) (alone t' other)
  · simp only [PipeState.go, points] at here
    split at here
    · exact nonempty n i here
    · rename_i other
      exact absurd (by rw [here]; trivial) (alone t' other)

theorem PipeInv.elsewhere (point : PipePoint) (outside : point.Inside → point = s.point t)
    (killed : Tid → Bool) : PipeInv { s.go t point with killed := killed } := by
  have same : ∀ {t'}, ((s.go t point).point t').Inside → (s.go t point).point t' = s.point t' := by
    intro t' inside
    by_cases own : t' = t
    · subst own
      simp only [PipeState.go, update_self] at inside ⊢
      exact outside inside
    · exact update_of_ne own ..
  refine ⟨fun t' inside => inv.exclusive t' (same inside ▸ inside), inv.fits, fun t' src n i here => ?_,
    fun t' n i here => ?_⟩
  · exact inv.room t' src n i ((same (by rw [here]; trivial)).symm.trans here)
  · exact inv.nonempty t' n i ((same (by rw [here]; trivial)).symm.trans here)

theorem PipeInv.acquire (tests : ∀ src n i, point ≠ .puts src n i)
    (tests' : ∀ n i, point ≠ .gets n i) (ran : s.acquire t point = some (s', label)) :
    PipeInv s' ∧ Queued s.pipe.contents s'.pipe.contents label := by
  unfold PipeState.acquire at ran
  split at ran
  · rename_i free
    cases ran
    exact ⟨inv.go (.inl free) (fun _ => rfl) inv.fits (fun src n i here => absurd here (tests src n i))
      fun n i here => absurd here (tests' n i), rfl⟩
  · contradiction

theorem PipeInv.leave (mine : s.lock = some t) {value : Int}
    (ran : s.leave t value = some (s', label)) : PipeInv s' ∧ Queued s.pipe.contents s'.pipe.contents label := by
  cases ran
  exact ⟨inv.go (.inr mine) (fun inside => inside.elim) inv.fits (by simp) (by simp), rfl⟩

theorem PipeInv.sleep (mine : s.lock = some t) (asleep : ¬point.Inside)
    (ran : s.sleep t point = some (s', label)) : PipeInv s' ∧ Queued s.pipe.contents s'.pipe.contents label := by
  cases ran
  refine ⟨inv.go (.inr mine) (fun inside => absurd inside asleep) inv.fits ?_ ?_, rfl⟩
  · rintro src n i rfl
    exact absurd trivial asleep
  · rintro n i rfl
    exact absurd trivial asleep

theorem PipeInv.run (ran : s.run t true = some (s', label)) :
    PipeInv s' ∧ Queued s.pipe.contents s'.pipe.contents label := by
  have mine := inv.exclusive t
  unfold PipeState.run at ran
  cases here : s.point t with
  | user =>
    rw [here] at ran
    cases ran
  | enters call =>
    rw [here] at ran
    cases call <;> exact inv.acquire (by simp [PipePoint.entered]) (by simp [PipePoint.entered]) ran
  | writes src n i =>
    have mine := mine (by rw [here]; trivial)
    simp only [here] at ran
    split at ran
    · split at ran
      · exact inv.leave mine ran
      · split at ran
        · exact (inv.wakeup .nread).sleep mine (by exact not_false) ran
        · rename_i room
          cases ran
          exact ⟨inv.go (.inr mine) (fun _ => mine) inv.fits (fun _ _ _ _ => room) (by simp), rfl⟩
    · exact (inv.wakeup .nread).leave mine ran
  | puts src n i =>
    have mine := mine (by rw [here]; trivial)
    have room := inv.room t src n i here
    have less := lt_of_le_of_ne inv.fits fun full => room (PipeRing.full_iff.mpr full)
    have queued := PipeRing.contents_put less (src i)
    simp only [here, if_true] at ran
    cases ran
    refine ⟨inv.go (.inr mine) (fun _ => mine) ?_ (by simp) (by simp), queued⟩
    rw [queued, length_append, length_singleton]
    exact less
  | waits n =>
    have mine := mine (by rw [here]; trivial)
    simp only [here] at ran
    split at ran
    · split at ran
      · exact inv.leave mine ran
      · exact inv.sleep mine (by exact not_false) ran
    · cases ran
      exact ⟨inv.go (.inr mine) (fun _ => mine) inv.fits (by simp) (by simp), rfl⟩
  | reads n i =>
    have mine := mine (by rw [here]; trivial)
    simp only [here] at ran
    split at ran
    · rename_i more
      cases ran
      exact ⟨inv.go (.inr mine) (fun _ => mine) inv.fits (by simp) (fun _ _ _ => more.2), rfl⟩
    · exact (inv.wakeup .nwrite).leave mine ran
  | gets n i =>
    have mine := mine (by rw [here]; trivial)
    have taken := PipeRing.contents_take (inv.nonempty t n i here)
    simp only [here, if_true] at ran
    cases ran
    refine ⟨inv.go (.inr mine) (fun _ => mine) ?_ (by simp) (by simp), taken⟩
    have fits := inv.fits
    rw [taken, length_cons] at fits
    omega
  | writeSleeps src n i woken =>
    simp only [here] at ran
    split at ran
    · exact inv.acquire (by simp) (by simp) ran
    · contradiction
  | readSleeps n woken =>
    simp only [here] at ran
    split at ran
    · exact inv.acquire (by simp) (by simp) ran
    · contradiction

theorem PipeInv.step (ran : s.step e = some (s', label)) (copies : e.copied = true) :
    PipeInv s' ∧ Queued s.pipe.contents s'.pipe.contents label := by
  cases e with
  | call t call =>
    simp only [PipeState.step] at ran
    split at ran
    · cases ran
      exact ⟨inv.elsewhere (.enters call) (fun inside => inside.elim) s.killed, rfl⟩
    · contradiction
  | run t copied =>
    obtain rfl : copied = true := copies
    exact inv.run ran
  | kill t =>
    cases ran
    exact ⟨inv.elsewhere _ (fun inside => PipePoint.woken_inside (PipePoint.inside_woken inside)) _, rfl⟩
  | close writable =>
    simp only [PipeState.step, PipeState.pipeclose] at ran
    split at ran
    · contradiction
    · cases ran
      exact inv.closed writable

end

end Step

/-- The states of a pipe from pipealloc on, with what happens at each time. -/
structure PipeRun (Tid : Type) [DecidableEq Tid] where
  length : Nat
  state : Nat → PipeState Tid
  event : Nat → PipeEvent Tid
  label : Nat → PipeLabel Tid
  start : ∃ data killed, state 0 = .pipealloc data killed
  step : ∀ i, i < length → (state i).step (event i) = some (state (i + 1), label i)

namespace PipeLabel

variable {Tid : Type}

def accepted : PipeLabel Tid → Option UInt8
  | accepts _ ch => some ch
  | _ => none

def acceptedBy [DecidableEq Tid] (t : Tid) : PipeLabel Tid → Option UInt8
  | accepts t' ch => if t' = t then some ch else none
  | _ => none

def delivered : PipeLabel Tid → Option UInt8
  | delivers _ ch => some ch
  | _ => none

end PipeLabel

section Runs

variable {Tid : Type} [DecidableEq Tid] {r : PipeRun Tid} {i s : Nat} {t : Tid} {src : Nat → UInt8} {n value : Int}

def PipeRun.accepted (r : PipeRun Tid) (i : Nat) : List UInt8 := (List.range i).filterMap fun j => (r.label j).accepted

def PipeRun.delivered (r : PipeRun Tid) (i : Nat) : List UInt8 := (List.range i).filterMap fun j => (r.label j).delivered

def PipeRun.acceptedBy (r : PipeRun Tid) (t : Tid) (s i : Nat) : List UInt8 :=
  (List.range' s (i - s)).filterMap fun j => (r.label j).acceptedBy t

def PipeRun.Copies (r : PipeRun Tid) : Prop := ∀ i, i < r.length → (r.event i).copied = true

/-- Process `t` calls pipewrite at time `s` and returns `value` from that call at time `i`. -/
structure PipeRun.Writes (r : PipeRun Tid) (t : Tid) (src : Nat → UInt8) (n : Int) (s i : Nat) (value : Int) : Prop where
  order : s < i ∧ i < r.length
  calls : r.event s = .call t (.write src n)
  inside : ∀ j, s < j → j < i → ∀ value, r.label j ≠ .returns t value
  returns : r.label i = .returns t value

theorem PipeRun.queue (r : PipeRun Tid) (copies : r.Copies) (within : i ≤ r.length) :
    PipeInv (r.state i) ∧ r.accepted i = r.delivered i ++ (r.state i).pipe.contents := by
  induction i with
  | zero =>
    obtain ⟨data, killed, start⟩ := r.start
    rw [start]
    refine ⟨pipealloc_inv data killed, ?_⟩
    simp [PipeRun.accepted, PipeRun.delivered, PipeState.pipealloc, PipeRing.contents]
  | succ i ih =>
    obtain ⟨inv, trace⟩ := ih (by omega)
    obtain ⟨inv', queued⟩ := inv.step (r.step i within) (copies i within)
    refine ⟨inv', ?_⟩
    have accepts : r.accepted (i + 1) = r.accepted i ++ (r.label i).accepted.toList := by
      rw [PipeRun.accepted, range_succ, filterMap_append]
      cases label : (r.label i).accepted <;> simp [PipeRun.accepted, label]
    have delivers : r.delivered (i + 1) = r.delivered i ++ (r.label i).delivered.toList := by
      rw [PipeRun.delivered, range_succ, filterMap_append]
      cases label : (r.label i).delivered <;> simp [PipeRun.delivered, label]
    rw [accepts, delivers, trace]
    cases label : r.label i with
    | silent | returns =>
      rw [label] at queued
      simp [PipeLabel.accepted, PipeLabel.delivered, show _ = _ from queued]
    | accepts t ch =>
      rw [label] at queued
      simp [PipeLabel.accepted, PipeLabel.delivered, show _ = _ from queued]
    | delivers t ch =>
      rw [label] at queued
      simp [PipeLabel.accepted, PipeLabel.delivered, show _ = _ from queued]

inductive Writing (src : Nat → UInt8) (n : Int) : PipePoint → Nat → Prop where
  | enters : Writing src n (.enters (.write src n)) 0
  | writes (k : Nat) : Writing src n (.writes src n k) k
  | puts (k : Nat) : Writing src n (.puts src n k) k
  | sleeps (k : Nat) (woken : Bool) : Writing src n (.writeSleeps src n k woken) k

variable {st st' : PipeState Tid} {e : PipeEvent Tid} {label : PipeLabel Tid} {k : Nat}

theorem Writing.woken (writing : Writing src n point k) : Writing src n point.woken k := by
  cases writing with
  | enters => exact .enters
  | writes => exact .writes k
  | puts => exact .puts k
  | sleeps => exact .sleeps k true

structure Unseen (st st' : PipeState Tid) (t : Tid) (label : PipeLabel Tid) : Prop where
  point : st'.point t = st.point t ∨ st'.point t = (st.point t).woken
  accepted : label.acceptedBy t = none
  returns : ∀ value, label ≠ .returns t value

variable {t' : Tid} {copied : Bool}

theorem Unseen.of_go {u : PipeState Tid} (woken : u.point t = st.point t ∨ u.point t = (st.point t).woken)
    (other : t ≠ t') (point : PipePoint) (lock : Option Tid) (pipe : PipeRing) (accepted : label.acceptedBy t = none)
    (returns : ∀ value, label ≠ .returns t value) :
    Unseen st { u.go t' point with lock := lock, pipe := pipe } t label := by
  refine ⟨?_, accepted, returns⟩
  change update u.point t' point t = _ ∨ update u.point t' point t = _
  rw [update_of_ne other]
  exact woken

theorem run_unseen (other : t ≠ t') (ran : st.run t' copied = some (st', label)) : Unseen st st' t label := by
  have leaves : ∀ {u : PipeState Tid} {value}, (u.point t = st.point t ∨ u.point t = (st.point t).woken) →
      u.leave t' value = some (st', label) → Unseen st st' t label := by
    intro u value woken ran
    cases ran
    exact .of_go woken other _ _ _ rfl (by simp [other.symm])
  have sleeps : ∀ {u : PipeState Tid} {point}, (u.point t = st.point t ∨ u.point t = (st.point t).woken) →
      u.sleep t' point = some (st', label) → Unseen st st' t label := by
    intro u point woken ran
    cases ran
    exact .of_go woken other _ _ _ rfl (by simp)
  have acquires : ∀ {point}, st.acquire t' point = some (st', label) → Unseen st st' t label := by
    intro point ran
    unfold PipeState.acquire at ran
    split at ran
    · cases ran
      exact .of_go (.inl rfl) other _ _ _ rfl (by simp)
    · contradiction
  have passes : ∀ {point}, st.pass t' point = some (st', label) → Unseen st st' t label := by
    intro point ran
    cases ran
    exact .of_go (.inl rfl) other _ _ _ rfl (by simp)
  unfold PipeState.run at ran
  cases here : st.point t' with
  | user =>
    rw [here] at ran
    cases ran
  | enters call =>
    rw [here] at ran
    exact acquires ran
  | writes src n i =>
    simp only [here] at ran
    split at ran
    · split at ran
      · exact leaves (.inl rfl) ran
      · split at ran
        · exact sleeps (wakeup_point ..) ran
        · exact passes ran
    · exact leaves (wakeup_point ..) ran
  | puts src n i =>
    simp only [here] at ran
    split at ran
    · cases ran
      exact .of_go (.inl rfl) other _ _ _ (by simp [PipeLabel.acceptedBy, other.symm]) (by simp)
    · exact leaves (wakeup_point ..) ran
  | waits n =>
    simp only [here] at ran
    split at ran
    · split at ran
      · exact leaves (.inl rfl) ran
      · exact sleeps (.inl rfl) ran
    · exact passes ran
  | reads n i =>
    simp only [here] at ran
    split at ran
    · exact passes ran
    · exact leaves (wakeup_point ..) ran
  | gets n i =>
    simp only [here] at ran
    split at ran
    · cases ran
      exact .of_go (.inl rfl) other _ _ _ rfl (by simp)
    · exact leaves (wakeup_point { st with pipe := st.pipe.take.2 } ..) ran
  | writeSleeps src n i woken | readSleeps n woken =>
    simp only [here] at ran
    split at ran
    · exact acquires ran
    · contradiction

theorem Writing.run (writing : Writing src n (st.point t) k) (ran : st.run t copied = some (st', label)) :
    (Writing src n (st'.point t) k ∧ label = .silent) ∨
      (Writing src n (st'.point t) (k + 1) ∧ label = .accepts t (src k)) ∨
      ∃ value, label = .returns t value ∧ (0 ≤ value → value = k) := by
  have moved : ∀ (u : PipeState Tid) point, (u.go t point).point t = point := fun u point => update_self ..
  have acquires : ∀ {point}, Writing src n point k → st.acquire t point = some (st', label) →
      Writing src n (st'.point t) k ∧ label = .silent := by
    intro point writing ran
    unfold PipeState.acquire at ran
    split at ran
    · cases ran
      exact ⟨by rwa [moved], rfl⟩
    · contradiction
  have leaves : ∀ {u : PipeState Tid} {value}, (0 ≤ value → value = (k : Int)) →
      u.leave t value = some (st', label) → ∃ value, label = .returns t value ∧ (0 ≤ value → value = k) := by
    intro u value count ran
    cases ran
    exact ⟨value, rfl, count⟩
  unfold PipeState.run at ran
  generalize here : st.point t = point at writing ran
  cases writing with
  | enters => exact .inl (acquires (.writes 0) ran)
  | writes =>
    simp only at ran
    split at ran
    · split at ran
      · exact .inr (.inr (leaves (by omega) ran))
      · split at ran
        · cases ran
          exact .inl ⟨by rw [moved]; exact .sleeps k false, rfl⟩
        · cases ran
          exact .inl ⟨by rw [moved]; exact .puts k, rfl⟩
    · exact .inr (.inr (leaves (fun _ => rfl) ran))
  | puts =>
    simp only at ran
    split at ran
    · cases ran
      exact .inr (.inl ⟨by rw [moved]; exact .writes (k + 1), rfl⟩)
    · exact .inr (.inr (leaves (fun _ => rfl) ran))
  | sleeps k woken =>
    simp only at ran
    split at ran
    · exact .inl (acquires (.writes k) ran)
    · contradiction

theorem Writing.step (writing : Writing src n (st.point t) k) (ran : st.step e = some (st', label)) :
    (Writing src n (st'.point t) k ∧ label.acceptedBy t = none ∧ ∀ value, label ≠ .returns t value) ∨
      (Writing src n (st'.point t) (k + 1) ∧ label.acceptedBy t = some (src k)) ∨
      ∃ value, label = .returns t value ∧ (0 ≤ value → value = k) := by
  have unseen : Unseen st st' t label →
      Writing src n (st'.point t) k ∧ label.acceptedBy t = none ∧ ∀ value, label ≠ .returns t value := by
    intro unseen
    refine ⟨?_, unseen.accepted, unseen.returns⟩
    rcases unseen.point with same | woken
    · rwa [same]
    · rw [woken]
      exact writing.woken
  cases e with
  | call t' call =>
    simp only [PipeState.step] at ran
    split at ran
    · rename_i idle
      cases ran
      by_cases own : t = t'
      · subst own
        rw [idle] at writing
        cases writing
      · exact .inl (unseen (.of_go (.inl rfl) own _ _ _ rfl (by simp)))
    · contradiction
  | run t' copied =>
    by_cases own : t = t'
    · subst own
      rcases writing.run ran with ⟨on, rfl⟩ | ⟨on, rfl⟩ | returned
      · exact .inl ⟨on, rfl, by simp⟩
      · exact .inr (.inl ⟨on, by simp [PipeLabel.acceptedBy]⟩)
      · exact .inr (.inr returned)
    · exact .inl (unseen (run_unseen own ran))
  | kill t' =>
    cases ran
    refine .inl (unseen ⟨?_, rfl, by simp⟩)
    by_cases own : t = t'
    · subst own
      exact .inr (update_self ..)
    · exact .inl (update_of_ne own ..)
  | close writable =>
    simp only [PipeState.step, PipeState.pipeclose] at ran
    split at ran
    · contradiction
    · cases ran
      refine .inl (unseen ⟨?_, rfl, by simp⟩)
      cases writable <;> exact wakeup_point ..

theorem PipeRun.acceptedBy_succ (r : PipeRun Tid) (after : s ≤ i) :
    r.acceptedBy t s (i + 1) = r.acceptedBy t s i ++ ((r.label i).acceptedBy t).toList := by
  unfold PipeRun.acceptedBy
  rw [Nat.succ_sub after, List.range'_concat, filterMap_append, Nat.one_mul, Nat.add_sub_cancel' after]
  cases label : (r.label i).acceptedBy t <;> simp [label]

theorem PipeRun.writing (r : PipeRun Tid) (calls : r.event s = .call t (.write src n)) (after : s < i)
    (within : i ≤ r.length) (inside : ∀ j, s < j → j < i → ∀ value, r.label j ≠ .returns t value) :
    ∃ k, Writing src n ((r.state i).point t) k ∧ r.acceptedBy t s i = (List.range k).map src := by
  induction i, after using Nat.le_induction with
  | base =>
    have ran := r.step s within
    rw [calls] at ran
    simp only [PipeState.step] at ran
    split at ran
    · simp only [PipeState.pass, Option.some.injEq, Prod.mk.injEq] at ran
      obtain ⟨after, silent⟩ := ran
      refine ⟨0, ?_, ?_⟩
      · have point : (r.state (s + 1)).point t = .enters (.write src n) := by
          rw [← after]
          exact update_self ..
        rw [point]
        exact .enters
      · rw [r.acceptedBy_succ (Nat.le_refl s), ← silent]
        simp [PipeRun.acceptedBy, PipeLabel.acceptedBy]
    · contradiction
  | succ i after ih =>
    obtain ⟨k, writing, bytes⟩ := ih (by omega) fun j low high => inside j low (by omega)
    rw [r.acceptedBy_succ (by omega), bytes]
    rcases writing.step (r.step i (by omega)) with ⟨on, none, -⟩ | ⟨on, byte⟩ | ⟨value, returned, -⟩
    · exact ⟨k, on, by simp [none]⟩
    · exact ⟨k + 1, on, by simp [byte, range_succ]⟩
    · exact absurd returned (inside i (by omega) (by omega) value)

/-- A pipe is a lossless queue: it never holds more than PIPESIZE bytes, what the readers have got is what the
writers have put in but for the bytes between the two counters, and a pipewrite that returns a number of bytes
has put in exactly that many from the first on. -/
theorem pipe_fifo (r : PipeRun Tid) (copies : r.Copies) (within : i ≤ r.length) :
    ((r.state i).pipe.nwrite - (r.state i).pipe.nread).toNat ≤ PIPESIZE ∧
    (∃ rest, r.accepted i = r.delivered i ++ rest ∧
      rest.length = ((r.state i).pipe.nwrite - (r.state i).pipe.nread).toNat) ∧
    ∀ t src n s value, r.Writes t src n s i value → 0 ≤ value →
      r.acceptedBy t s (i + 1) = (List.range value.toNat).map src := by
  obtain ⟨inv, trace⟩ := r.queue copies within
  have length : (r.state i).pipe.contents.length = ((r.state i).pipe.nwrite - (r.state i).pipe.nread).toNat :=
    PipeRing.length_contents
  refine ⟨length ▸ inv.fits, ⟨_, trace, length⟩, fun t src n s value writes positive => ?_⟩
  obtain ⟨k, writing, bytes⟩ := r.writing writes.calls writes.order.1 within writes.inside
  rw [r.acceptedBy_succ (by have := writes.order; omega), bytes, writes.returns]
  have ran := r.step i writes.order.2
  rw [writes.returns] at ran
  rcases writing.step ran with ⟨-, -, stays⟩ | ⟨-, byte⟩ | ⟨value', returned, count⟩
  · exact absurd rfl (stays value)
  · cases byte
  · cases returned
    rw [count positive]
    simp [PipeLabel.acceptedBy]

def PipeState.track (st : PipeState Tid) : List (PipeEvent Tid) → Nat → PipeState Tid × PipeLabel Tid
  | [], _ => (st, .silent)
  | e :: _, 0 => (st, ((st.step e).map Prod.snd).getD .silent)
  | e :: es, i + 1 => match st.step e with
    | some (next, _) => next.track es i
    | none => (st, .silent)

def PipeState.Runs (st : PipeState Tid) : List (PipeEvent Tid) → Bool
  | [] => true
  | e :: es => match st.step e with
    | some (next, _) => next.Runs es
    | none => false

theorem track_zero (st : PipeState Tid) (es : List (PipeEvent Tid)) : (st.track es 0).1 = st := by
  cases es <;> rfl

theorem track_step {st : PipeState Tid} {es : List (PipeEvent Tid)} (runs : st.Runs es = true) {i : Nat}
    {e : PipeEvent Tid} (event : es[i]? = some e) :
    (st.track es i).1.step e = some ((st.track es (i + 1)).1, (st.track es i).2) := by
  induction es generalizing st i with
  | nil => cases event
  | cons first es ih =>
    simp only [PipeState.Runs] at runs
    split at runs
    · rename_i next label stepped
      cases i with
      | zero =>
        cases event
        simp [PipeState.track, stepped, track_zero]
      | succ i =>
        simp only [PipeState.track, stepped]
        exact ih runs event
    · contradiction

def PipeRun.ofEvents (data : Fin PIPESIZE → UInt8) (killed : Tid → Bool) (es : List (PipeEvent Tid))
    (spare : PipeEvent Tid) (runs : (PipeState.pipealloc data killed).Runs es = true) : PipeRun Tid where
  length := es.length
  state i := ((PipeState.pipealloc data killed).track es i).1
  event i := es.getD i spare
  label i := ((PipeState.pipealloc data killed).track es i).2
  start := ⟨data, killed, track_zero ..⟩
  step i within := by
    refine track_step runs ?_
    rw [getD_eq_getElem?_getD, List.getElem?_eq_getElem within]
    rfl

end Runs

def letters (i : Nat) : UInt8 := 65 + i.toUInt8

def writeThenRead : List (PipeEvent (Fin 2)) :=
  .call 0 (.write letters 3) :: List.replicate 7 (.run 0 true) ++ .call 1 (.read 2) :: .run 0 true ::
    List.replicate 4 (.run 1 true)

theorem writeThenRead_pipe_fifo : ∃ r : PipeRun (Fin 2), r.length = 14 ∧ r.Copies ∧ r.Writes 0 letters 3 0 9 3 ∧
    r.acceptedBy 0 0 10 = (List.range 3).map letters ∧
    ((r.state 14).pipe.nwrite - (r.state 14).pipe.nread).toNat ≤ PIPESIZE ∧
    ∃ rest, r.accepted 14 = r.delivered 14 ++ rest ∧
      rest.length = ((r.state 14).pipe.nwrite - (r.state 14).pipe.nread).toNat := by
  let r := PipeRun.ofEvents (fun _ => 0) (fun _ => false) writeThenRead (.kill 0) (by decide +kernel)
  have copies : r.Copies := by
    have all : ∀ i, i < 14 → (writeThenRead.getD i (.kill 0)).copied = true := by decide
    exact all
  have quiet : ∀ j, j < 9 → (match r.label j with | .returns _ _ => true | _ => false) = false := by decide +kernel
  have writes : r.Writes 0 letters 3 0 9 3 := by
    refine ⟨⟨by decide, by decide⟩, rfl, fun j _ before value returned => ?_, by decide +kernel⟩
    have none := quiet j before
    rw [returned] at none
    cases none
  obtain ⟨-, -, bytes⟩ := pipe_fifo r copies (i := 9) (by decide)
  obtain ⟨bound, queue, -⟩ := pipe_fifo r copies (i := 14) (by decide)
  exact ⟨r, rfl, copies, writes, bytes 0 letters 3 0 3 writes (by decide), bound, queue⟩

end DeisoXv6
