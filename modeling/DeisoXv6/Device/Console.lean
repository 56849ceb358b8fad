import DeisoXv6.Data.Ring
import DeisoXv6.Semantics.Trace

/-! console.c: the input side. The interrupt handler edits a line between `cons.w` and `cons.e` and commits it by
moving `cons.w`; readers take what is between `cons.r` and `cons.w`. The three indices run freely over one ring.
`Line` is the same without the ring. -/

set_option autoImplicit false

namespace DeisoXv6

open Ring

open Function (update update_of_ne update_self)

def INPUT_BUF : Nat := 128

instance : NeZero INPUT_BUF := ⟨by decide⟩

/-- `C(x)`. -/
def ctrl (x : Char) : UInt8 := (x.toNat - '@'.toNat).toUInt8

def newline : UInt8 := '\n'.toNat.toUInt8

/-- `cons`, without its lock. -/
structure Cons where
  buf : Fin INPUT_BUF → UInt8
  r : BitVec 32
  w : BitVec 32
  e : BitVec 32

namespace Cons

/-- The loop of ^U; it makes at most `cons.e - cons.w` turns. -/
def killLine : Nat → Cons → Cons
  | 0, cons => cons
  | fuel + 1, cons =>
    if cons.e ≠ cons.w ∧ cons.buf (slot INPUT_BUF (cons.e - 1#32)) ≠ newline
    then killLine fuel { cons with e := cons.e - 1#32 } else cons

def pop (cons : Cons) : Cons := { cons with r := cons.r + 1#32 }

/-- `cons.buf[cons.e++ % INPUT_BUF] = c`. -/
def put (cons : Cons) (c : UInt8) : Cons :=
  { cons with buf := update cons.buf (slot INPUT_BUF cons.e) c, e := cons.e + 1#32 }

/-- The test after the store of `c`. -/
def Commits (cons : Cons) (c : UInt8) : Prop :=
  c = newline ∨ c = ctrl 'D' ∨ cons.e = cons.r + BitVec.ofNat 32 INPUT_BUF

instance (cons : Cons) (c : UInt8) : Decidable (cons.Commits c) := inferInstanceAs (Decidable (_ ∨ _ ∨ _))

/-- The default case of consoleintr, after the translation of `'\r'`. -/
def store (cons : Cons) (c : UInt8) : Cons × Bool :=
  if (cons.put c).Commits c then ({ cons.put c with w := (cons.put c).e }, true) else (cons.put c, false)

/-- consoleintr, and whether it wakes the readers up. -/
def consoleintr (cons : Cons) (c : UInt8) : Cons × Bool :=
  if c = ctrl 'P' then (cons, false)
  else if c = ctrl 'U' then (cons.killLine (cons.e - cons.w).toNat, false)
  else if c = ctrl 'H' ∨ c = 0x7f then (if cons.e ≠ cons.w then { cons with e := cons.e - 1#32 } else cons, false)
  else if c ≠ 0 ∧ (cons.e - cons.r).toNat < INPUT_BUF then cons.store (if c = '\r'.toNat.toUInt8 then newline else c)
  else (cons, false)

end Cons

/-- Where a process is in consoleread; `target` and `n` as there. -/
inductive ReadPoint where
  | user
  | enters (n : Int)
  /-- The while loop on `n`. -/
  | loops (target n : Int)
  | sleeps (target n : Int) (woken : Bool)
  /-- Behind the loop. -/
  | ends (target n : Int)

inductive ConsoleEvent (Tid : Type) where
  | intr (c : UInt8)
  | read (t : Tid) (n : Int)
  | run (t : Tid)
  | kill (t : Tid)

inductive ConsoleLabel (Tid : Type) where
  | silent
  | delivers (t : Tid) (c : UInt8)
  /-- A reader meets ^D. -/
  | eof (t : Tid)
  | returns (t : Tid) (value : Int)
  deriving DecidableEq

structure Console (Tid : Type) where
  cons : Cons
  lock : Option Tid
  point : Tid → ReadPoint
  killed : Tid → Bool

def ReadPoint.woken : ReadPoint → ReadPoint
  | sleeps target n _ => sleeps target n true
  | point => point

namespace Console

variable {Tid : Type}

/-- `wakeup(&cons.r)`. -/
def wakeup (s : Console Tid) : Console Tid := { s with point := fun t => (s.point t).woken }

/-- consoleinit; the buffer is static and its contents are never read before they are written. -/
def init (buf : Fin INPUT_BUF → UInt8) (killed : Tid → Bool) : Console Tid where
  cons := ⟨buf, 0, 0, 0⟩
  lock := none
  point _ := .user
  killed := killed

def intr (s : Console Tid) (c : UInt8) : Console Tid :=
  if (s.cons.consoleintr c).2 then { s with cons := (s.cons.consoleintr c).1 }.wakeup
  else { s with cons := (s.cons.consoleintr c).1 }

variable [DecidableEq Tid]

def go (s : Console Tid) (t : Tid) (point : ReadPoint) : Console Tid :=
  { s with point := update s.point t point }

def acquire (s : Console Tid) (t : Tid) (point : ReadPoint) : Option (Console Tid × ConsoleLabel Tid) :=
  if s.lock = none then some ({ s.go t point with lock := some t }, .silent) else none

def leave (s : Console Tid) (t : Tid) (value : Int) : Option (Console Tid × ConsoleLabel Tid) :=
  some ({ s.go t .user with lock := none }, .returns t value)

/-- A turn of the loop of consoleread on a character: `cons.r` has not moved yet. -/
def take (s : Console Tid) (t : Tid) (target n : Int) (c : UInt8) : Console Tid × ConsoleLabel Tid :=
  if c = ctrl 'D' then
    -- `cons.r++`, and `cons.r--` if there are bytes to return first
    (if n < target then s.go t (.ends target n) else { s.go t (.ends target n) with cons := s.cons.pop }, .eof t)
  else ({ s.go t (if c = newline then .ends target (n - 1) else .loops target (n - 1)) with cons := s.cons.pop },
    .delivers t c)

/-- A step of a reader; `none` if it waits for the lock or for a wakeup. The copies to the user succeed. -/
def run (s : Console Tid) (t : Tid) : Option (Console Tid × ConsoleLabel Tid) :=
  match s.point t with
  | .user => none
  | .enters n => s.acquire t (.loops n n)
  | .loops target n =>
    if 0 < n then
      if s.cons.r = s.cons.w then
        if s.killed t then s.leave t (-1)
        else some ({ s.go t (.sleeps target n false) with lock := none }, .silent)
      else some (s.take t target n (s.cons.buf (slot INPUT_BUF s.cons.r)))
    else some (s.go t (.ends target n), .silent)
  | .sleeps target n woken => if woken then s.acquire t (.loops target n) else none
  | .ends target n => s.leave t (target - n)

def step (s : Console Tid) : ConsoleEvent Tid → Option (Console Tid × ConsoleLabel Tid)
  | .intr c => if s.lock = none then some (s.intr c, .silent) else none
  | .read t n => match s.point t with
    | .user => some (s.go t (.enters n), .silent)
    | _ => none
  | .run t => s.run t
  | .kill t => some ({ s.go t (s.point t).woken with killed := update s.killed t true }, .silent)

end Console

/-- What has been committed and not read, and what has been typed since. -/
structure Line where
  unread : List UInt8
  typed : List UInt8

namespace Line

/-- A character that is no command. It commits the line if it ends it or fills the buffer. -/
def append (l : Line) (c : UInt8) : Line × List UInt8 :=
  if c = newline ∨ c = ctrl 'D' ∨ l.unread.length + l.typed.length + 1 = INPUT_BUF
  then (⟨l.unread ++ (l.typed ++ [c]), []⟩, l.typed ++ [c]) else (⟨l.unread, l.typed ++ [c]⟩, [])

def type (l : Line) (c : UInt8) : Line × List UInt8 :=
  if c = ctrl 'P' then (l, [])
  else if c = ctrl 'U' then (⟨l.unread, []⟩, [])
  else if c = ctrl 'H' ∨ c = 0x7f then (⟨l.unread, l.typed.dropLast⟩, [])
  else if c ≠ 0 ∧ l.unread.length + l.typed.length < INPUT_BUF then
    l.append (if c = '\r'.toNat.toUInt8 then newline else c)
  else (l, [])

end Line

namespace Cons

def line (cons : Cons) : Line := ⟨window cons.buf cons.r cons.w, window cons.buf cons.w cons.e⟩

def committed (before after : Cons) : List UInt8 := window after.buf before.w after.w

structure Ok (cons : Cons) : Prop where
  order : (cons.w - cons.r).toNat ≤ (cons.e - cons.r).toNat
  bound : (cons.e - cons.r).toNat ≤ INPUT_BUF
  editing : newline ∉ cons.line.typed

variable {cons cons' : Cons} {c : UInt8}

theorem Ok.length (ok : cons.Ok) : cons.line.unread.length + cons.line.typed.length = (cons.e - cons.r).toNat := by
  simp only [line, length_window]
  rw [toNat_split ok.order]
  have := ok.order
  omega

theorem typed_eq_nil (same : cons.e = cons.w) : cons.line.typed = [] := by
  simp only [line, same]
  exact window_self

theorem typed_eq_append (some : cons.e ≠ cons.w) : cons.line.typed =
    { cons with e := cons.e - 1#32 }.line.typed ++ [cons.buf (slot INPUT_BUF (cons.e - 1#32))] :=
  window_pred (Ne.symm some)

theorem Ok.erase (ok : cons.Ok) (some : cons.e ≠ cons.w) : { cons with e := cons.e - 1#32 }.Ok ∧
      { cons with e := cons.e - 1#32 }.line = ⟨cons.line.unread, cons.line.typed.dropLast⟩ := by
  have last := typed_eq_append some
  have longer : (cons.w - cons.r).toNat < (cons.e - cons.r).toNat := by
    have length := ok.length
    rw [last, List.length_append, List.length_singleton] at length
    have unread : cons.line.unread.length = (cons.w - cons.r).toNat := length_window
    omega
  have apart : cons.r ≠ cons.e := by
    intro same
    rw [same, BitVec.sub_self] at longer
    exact absurd longer (Nat.not_lt_zero _)
  have distance := toNat_pred apart
  have bound := ok.bound
  refine ⟨⟨?_, ?_, ?_⟩, ?_⟩
  · dsimp only
    omega
  · dsimp only
    omega
  · intro mem
    exact ok.editing (last ▸ List.mem_append_left _ mem)
  · rw [last, List.dropLast_concat]
    rfl

theorem Ok.killLine {fuel : Nat} (ok : cons.Ok) (enough : cons.line.typed.length ≤ fuel) :
    (cons.killLine fuel).Ok ∧ (cons.killLine fuel).line = ⟨cons.line.unread, []⟩ ∧
      (cons.killLine fuel).w = cons.w := by
  induction fuel generalizing cons with
  | zero =>
    have none : cons.line.typed = [] := List.length_eq_zero_iff.mp (by omega)
    exact ⟨ok, by rw [← none]; rfl, rfl⟩
  | succ fuel ih =>
    rw [Cons.killLine]
    by_cases more : cons.e = cons.w
    · rw [if_neg (fun both => both.1 more)]
      exact ⟨ok, by rw [← typed_eq_nil more], rfl⟩
    · have last := typed_eq_append more
      have plain : cons.buf (slot INPUT_BUF (cons.e - 1#32)) ≠ newline := by
        intro same
        refine ok.editing ?_
        rw [last, same]
        exact List.mem_append_right _ (List.mem_singleton.mpr rfl)
      obtain ⟨ok', line⟩ := ok.erase more
      rw [if_pos ⟨more, plain⟩]
      have shorter : { cons with e := cons.e - 1#32 }.line.typed.length ≤ fuel := by
        rw [last, List.length_append, List.length_singleton] at enough
        omega
      obtain ⟨ok'', line', w⟩ := ih ok' shorter
      exact ⟨ok'', by rw [line', line], w⟩

theorem Ok.put (ok : cons.Ok) (room : (cons.e - cons.r).toNat < INPUT_BUF) :
    ((cons.put c).e - cons.r).toNat = (cons.e - cons.r).toNat + 1 ∧
      (cons.put c).line = ⟨cons.line.unread, cons.line.typed ++ [c]⟩ := by
  have order := ok.order
  have near : (cons.e - cons.w).toNat < INPUT_BUF := by
    rw [toNat_split order]
    omega
  have typed : window (cons.put c).buf cons.w cons.e = cons.line.typed :=
    window_store ⟨2 ^ 25, by decide⟩ near c
  have all : window (cons.put c).buf cons.r cons.e = window cons.buf cons.r cons.e :=
    window_store ⟨2 ^ 25, by decide⟩ room c
  have unread : window (cons.put c).buf cons.r cons.w = cons.line.unread := by
    rw [window_append order, window_append order, typed] at all
    exact List.append_cancel_right all
  have pushed : window (cons.put c).buf cons.w (cons.put c).e = cons.line.typed ++ [c] :=
    window_push ⟨2 ^ 25, by decide⟩ (by decide) near c
  refine ⟨toNat_push ?_, ?_⟩
  · unfold INPUT_BUF at room
    omega
  · rw [← unread, ← pushed]
    rfl

theorem Ok.full_iff (ok : cons.Ok) (room : (cons.e - cons.r).toNat < INPUT_BUF) :
    (cons.put c).e = (cons.put c).r + BitVec.ofNat 32 INPUT_BUF ↔
      cons.line.unread.length + cons.line.typed.length + 1 = INPUT_BUF := by
  rw [ok.length, ← (ok.put (c := c) room).1]
  constructor
  · intro full
    rw [full, BitVec.add_comm]
    exact congrArg BitVec.toNat (BitVec.add_sub_cancel (BitVec.ofNat 32 INPUT_BUF) cons.r)
  · intro length
    have same := add_sub_self cons.r (cons.put c).e
    rw [length] at same
    exact same.symm

theorem committed_self (same : cons'.w = cons.w) : cons.committed cons' = [] := by
  rw [committed, same]
  exact window_self

theorem Ok.store (ok : cons.Ok) (room : (cons.e - cons.r).toNat < INPUT_BUF) (c : UInt8) :
    (cons.store c).1.Ok ∧ (cons.store c).1.line = (cons.line.append c).1 ∧
      cons.committed (cons.store c).1 = (cons.line.append c).2 := by
  obtain ⟨distance, line⟩ := ok.put (c := c) room
  have full := ok.full_iff (c := c) room
  have order : (cons.w - cons.r).toNat ≤ ((cons.put c).e - cons.r).toNat := by
    have := ok.order
    omega
  have bound : ((cons.put c).e - cons.r).toNat ≤ INPUT_BUF := by omega
  by_cases commits : (cons.put c).Commits c
  · have ends : c = newline ∨ c = ctrl 'D' ∨ cons.line.unread.length + cons.line.typed.length + 1 = INPUT_BUF :=
      commits.imp_right (Or.imp_right full.mp)
    have typed : window (cons.put c).buf cons.w (cons.put c).e = cons.line.typed ++ [c] :=
      congrArg Line.typed line
    have unread : window (cons.put c).buf cons.r cons.w = cons.line.unread := congrArg Line.unread line
    rw [Cons.store, if_pos commits, Line.append, if_pos ends]
    refine ⟨⟨le_rfl, bound, ?_⟩, ?_, typed⟩
    · rw [typed_eq_nil rfl]
      exact List.not_mem_nil
    · have whole : window (cons.put c).buf cons.r (cons.put c).e = _ := window_append order
      rw [unread, typed] at whole
      exact congrArg₂ Line.mk whole window_self
  · have plain : ¬(c = newline ∨ c = ctrl 'D' ∨ cons.line.unread.length + cons.line.typed.length + 1 = INPUT_BUF) :=
      fun ends => commits (ends.imp_right (Or.imp_right full.mpr))
    rw [Cons.store, if_neg commits, Line.append, if_neg plain]
    refine ⟨⟨order, bound, ?_⟩, line, committed_self rfl⟩
    rw [line]
    simp only [List.mem_append, List.mem_singleton, not_or]
    exact ⟨ok.editing, fun same => plain (.inl same.symm)⟩

theorem Ok.consoleintr (ok : cons.Ok) (c : UInt8) :
    (cons.consoleintr c).1.Ok ∧ (cons.consoleintr c).1.line = (cons.line.type c).1 ∧
      cons.committed (cons.consoleintr c).1 = (cons.line.type c).2 := by
  unfold Cons.consoleintr Line.type
  by_cases list : c = ctrl 'P'
  · rw [if_pos list, if_pos list]
    exact ⟨ok, rfl, committed_self rfl⟩
  rw [if_neg list, if_neg list]
  by_cases kill : c = ctrl 'U'
  · rw [if_pos kill, if_pos kill]
    have length : cons.line.typed.length = (cons.e - cons.w).toNat := length_window
    obtain ⟨ok', line, w⟩ := ok.killLine length.le
    exact ⟨ok', line, committed_self w⟩
  rw [if_neg kill, if_neg kill]
  by_cases erase : c = ctrl 'H' ∨ c = 0x7f
  · rw [if_pos erase, if_pos erase]
    by_cases some : cons.e = cons.w
    · rw [if_neg (not_not.mpr some)]
      refine ⟨ok, ?_, committed_self rfl⟩
      rw [typed_eq_nil some, List.dropLast_nil, ← typed_eq_nil some]
    · rw [if_pos some]
      obtain ⟨ok', line⟩ := ok.erase some
      exact ⟨ok', line, committed_self rfl⟩
  rw [if_neg erase, if_neg erase, ok.length]
  by_cases room : c ≠ 0 ∧ (cons.e - cons.r).toNat < INPUT_BUF
  · rw [if_pos room, if_pos room]
    exact ok.store room.2 _
  · rw [if_neg room, if_neg room]
    exact ⟨ok, rfl, committed_self rfl⟩

theorem Ok.pop (ok : cons.Ok) (some : cons.r ≠ cons.w) :
    cons.pop.Ok ∧ cons.line.unread = cons.buf (slot INPUT_BUF cons.r) :: cons.pop.line.unread := by
  have first : cons.line.unread = _ := window_pop some
  have order := ok.order
  have bound := ok.bound
  have apart : cons.r ≠ cons.e := by
    intro same
    have nothing : (cons.w - cons.r).toNat = 0 := by
      rw [← same, BitVec.sub_self] at order
      exact Nat.le_zero.mp order
    have := toNat_pop some
    omega
  have fewer := toNat_pop some
  have fewer' := toNat_pop apart
  refine ⟨⟨?_, ?_, ok.editing⟩, first⟩
  · simp only [Cons.pop]
    omega
  · simp only [Cons.pop]
    omega

end Cons

namespace Line

variable {l : Line} {c : UInt8}

theorem type_unread : (l.type c).1.unread = l.unread ++ (l.type c).2 := by
  unfold type append
  split_ifs <;> simp

def Erases (c : UInt8) : Prop := c = ctrl 'U' ∨ c = ctrl 'H' ∨ c = 0x7f

theorem type_erases (erases : Erases c) :
    (l.type c).1.unread = l.unread ∧ (l.type c).1.typed <+: l.typed ∧ (l.type c).2 = [] := by
  have other : c ≠ ctrl 'P' := by
    rcases erases with rfl | rfl | rfl <;> decide
  rw [type, if_neg other]
  by_cases kill : c = ctrl 'U'
  · rw [if_pos kill]
    exact ⟨rfl, List.nil_prefix, rfl⟩
  · rw [if_neg kill, if_pos (erases.resolve_left kill)]
    exact ⟨rfl, List.dropLast_prefix _, rfl⟩

end Line

section Steps

variable {Tid : Type}

/-- A process that is in consoleread and has been given the bytes `bs`; `eof` says that it has met ^D. -/
inductive Reading (target : Int) (eof : Prop) : ReadPoint → List UInt8 → Prop where
  | enters : Reading target eof (.enters target) []
  | loops {n : Int} {bs : List UInt8} (count : n + bs.length = target) (plain : newline ∉ bs) :
    Reading target eof (.loops target n) bs
  | sleeps {n : Int} {bs : List UInt8} {woken : Bool} (count : n + bs.length = target) (plain : newline ∉ bs) :
    Reading target eof (.sleeps target n woken) bs
  | ends {n : Int} {bs : List UInt8} (count : n + bs.length = target) (plain : newline ∉ bs.dropLast)
    (reason : n ≤ 0 ∨ bs.getLast? = some newline ∨ eof) : Reading target eof (.ends target n) bs

variable {target : Int} {point : ReadPoint} {bs : List UInt8}

theorem Reading.mono {eof eof' : Prop}
    (reading : Reading target eof point bs) (weaker : eof → eof') : Reading target eof' point bs := by
  cases reading with
  | enters => exact .enters
  | loops count plain => exact .loops count plain
  | sleeps count plain => exact .sleeps count plain
  | ends count plain reason => exact .ends count plain (reason.imp_right (Or.imp_right weaker))

theorem Reading.of_eq {eof : Prop} {point' : ReadPoint} (same : point' = point)
    (reading : Reading target eof point bs) : Reading target eof point' bs := same ▸ reading

theorem Reading.woken {eof : Prop} (reading : Reading target eof point bs) : Reading target eof point.woken bs := by
  cases reading with
  | enters => exact .enters
  | loops count plain => exact .loops count plain
  | sleeps count plain => exact .sleeps count plain
  | ends count plain reason => exact .ends count plain reason

def ConsoleLabel.delivered : ConsoleLabel Tid → Option UInt8
  | delivers _ c => some c
  | silent | eof _ | returns _ _ => none

def ConsoleLabel.deliveredTo [DecidableEq Tid] (t : Tid) : ConsoleLabel Tid → Option UInt8
  | delivers t' c => if t' = t then some c else none
  | silent | eof _ | returns _ _ => none

variable {s s' : Console Tid} {label : ConsoleLabel Tid} {e : ConsoleEvent Tid} {t u : Tid} {c : UInt8}

structure Moves (s s' : Console Tid) (label : ConsoleLabel Tid) : Prop where
  ok : s'.cons.Ok
  queue : ∃ taken, s.cons.line.unread ++ s.cons.committed s'.cons = taken ++ s'.cons.line.unread ∧
    label.delivered.toList = taken.filter (· ≠ ctrl 'D')

theorem Moves.still (ok : s.cons.Ok) (same : s'.cons = s.cons) (quiet : label.delivered = none) : Moves s s' label where
  ok := same ▸ ok
  queue := ⟨[], by rw [same, Cons.committed_self rfl, List.append_nil]; rfl, by rw [quiet]; rfl⟩

theorem Moves.popped (ok : s.cons.pop.Ok) (first : s.cons.line.unread = c :: s.cons.pop.line.unread)
    (cons : s'.cons = s.cons.pop) (delivered : label.delivered.toList = [c].filter (· ≠ ctrl 'D')) :
    Moves s s' label where
  ok := cons ▸ ok
  queue := by
    have none : s.cons.committed s.cons.pop = [] := Cons.committed_self rfl
    refine ⟨[c], ?_, delivered⟩
    rw [cons, none, List.append_nil]
    exact first

variable [DecidableEq Tid]

theorem take_moves (ok : s.cons.Ok) (some : s.cons.r ≠ s.cons.w) {n : Int}
    (taken : s.take t target n (s.cons.buf (slot INPUT_BUF s.cons.r)) = (s', label)) : Moves s s' label := by
  obtain ⟨ok', first⟩ := ok.pop some
  generalize s.cons.buf (slot INPUT_BUF s.cons.r) = c at first taken
  unfold Console.take at taken
  split at taken
  · rename_i eof
    split at taken
    · cases taken
      exact .still ok rfl rfl
    · cases taken
      exact .popped ok' first rfl (by simp [ConsoleLabel.delivered, eof])
  · rename_i plain
    cases taken
    exact .popped ok' first rfl (by simp [ConsoleLabel.delivered, plain])

theorem acquire_moves (ok : s.cons.Ok) (acquired : s.acquire t point = some (s', label)) : Moves s s' label := by
  unfold Console.acquire at acquired
  split at acquired
  · cases acquired
    exact .still ok rfl rfl
  · cases acquired

theorem run_moves (ok : s.cons.Ok) (ran : s.run t = some (s', label)) : Moves s s' label := by
  unfold Console.run at ran
  split at ran
  · cases ran
  · exact acquire_moves ok ran
  · split at ran
    · split at ran
      · split at ran
        · cases ran
          exact .still ok rfl rfl
        · cases ran
          exact .still ok rfl rfl
      · rename_i some
        exact take_moves ok some (Option.some.inj ran)
    · cases ran
      exact .still ok rfl rfl
  · split at ran
    · exact acquire_moves ok ran
    · cases ran
  · cases ran
    exact .still ok rfl rfl

theorem step_moves (ok : s.cons.Ok) (stepped : s.step e = some (s', label)) : Moves s s' label := by
  cases e with
  | intr c =>
    simp only [Console.step] at stepped
    split at stepped
    · cases stepped
      obtain ⟨ok', line, committed⟩ := ok.consoleintr c
      have cons : (s.intr c).cons = (s.cons.consoleintr c).1 := by
        unfold Console.intr
        split <;> rfl
      refine ⟨cons ▸ ok', [], ?_, rfl⟩
      rw [cons, line, committed, Line.type_unread]
      rfl
    · cases stepped
  | read t n =>
    simp only [Console.step] at stepped
    split at stepped
    · cases stepped
      exact .still ok rfl rfl
    · cases stepped
  | run t => exact run_moves ok stepped
  | kill t =>
    cases stepped
    exact .still ok rfl rfl

inductive ReadStep (target : Int) (eof : Prop) (t : Tid) (bs : List UInt8) (after : ReadPoint) : ConsoleLabel Tid → Prop where
  | goes {label : ConsoleLabel Tid} (quiet : label.deliveredTo t = none) (on : ∀ value, label ≠ .returns t value)
    (reading : Reading target eof after bs) : ReadStep target eof t bs after label
  | gets {c : UInt8} (reading : Reading target eof after (bs ++ [c])) : ReadStep target eof t bs after (.delivers t c)
  | stops (reading : Reading target True after bs) : ReadStep target eof t bs after (.eof t)
  | fails : ReadStep target eof t bs after (.returns t (-1))
  | returns (plain : newline ∉ bs.dropLast) (reason : (bs.length : Int) < target → bs.getLast? = some newline ∨ eof) :
    ReadStep target eof t bs after (.returns t bs.length)

theorem run_other (ran : s.run u = some (s', label)) (other : t ≠ u) :
    s'.point t = s.point t ∧ label.deliveredTo t = none ∧ ∀ value, label ≠ .returns t value := by
  have same : ∀ point : ReadPoint, update s.point u point t = s.point t :=
    fun point => update_of_ne other ..
  have acquires : ∀ {point}, s.acquire u point = some (s', label) →
      s'.point t = s.point t ∧ label.deliveredTo t = none ∧ ∀ value, label ≠ .returns t value := by
    intro point acquired
    unfold Console.acquire at acquired
    split at acquired
    · cases acquired
      exact ⟨same _, rfl, by rintro _ ⟨⟩⟩
    · cases acquired
  unfold Console.run at ran
  split at ran
  · cases ran
  · exact acquires ran
  · split at ran
    · split at ran
      · split at ran
        · cases ran
          refine ⟨same _, rfl, fun value => ?_⟩
          rintro ⟨⟩
          exact other rfl
        · cases ran
          exact ⟨same _, rfl, by rintro _ ⟨⟩⟩
      · unfold Console.take at ran
        split at ran
        · cases ran
          refine ⟨?_, rfl, by rintro _ ⟨⟩⟩
          split <;> exact same _
        · cases ran
          exact ⟨same _, if_neg (Ne.symm other), by rintro _ ⟨⟩⟩
    · cases ran
      exact ⟨same _, rfl, by rintro _ ⟨⟩⟩
  · split at ran
    · exact acquires ran
    · cases ran
  · cases ran
    refine ⟨same _, rfl, fun value => ?_⟩
    rintro ⟨⟩
    exact other rfl

theorem Reading.take {n : Int} {eof : Prop} {c : UInt8} (count : n + bs.length = target)
    (plain : newline ∉ bs) (taken : s.take t target n c = (s', label)) :
    ReadStep target eof t bs (s'.point t) label := by
  have own : ∀ point : ReadPoint, update s.point t point t = point := fun _ => update_self ..
  have plain' : newline ∉ bs.dropLast := fun mem => plain (List.mem_of_mem_dropLast mem)
  unfold Console.take at taken
  split at taken
  · have reading : Reading target True (.ends target n) bs := .ends count plain' (.inr (.inr trivial))
    have point : s'.point t = .ends target n := by
      rw [← (Prod.mk.inj taken).1]
      split <;> exact own _
    rw [← (Prod.mk.inj taken).2, point]
    exact .stops reading
  · have point : s'.point t = if c = newline then .ends target (n - 1) else .loops target (n - 1) := by
      rw [← (Prod.mk.inj taken).1]
      exact own _
    have count' : n - 1 + (bs ++ [c]).length = target := by
      rw [List.length_append, List.length_singleton]
      omega
    rw [← (Prod.mk.inj taken).2, point]
    refine .gets ?_
    by_cases line : c = newline
    · rw [if_pos line]
      refine .ends count' ?_ (.inr (.inl ?_))
      · rw [List.dropLast_concat]
        exact plain
      · rw [List.getLast?_concat, line]
    · rw [if_neg line]
      refine .loops count' fun mem => ?_
      rcases List.mem_append.mp mem with old | new
      · exact plain old
      · exact line (List.mem_singleton.mp new).symm

theorem Reading.run {eof : Prop} (reading : Reading target eof (s.point t) bs)
    (ran : s.run t = some (s', label)) : ReadStep target eof t bs (s'.point t) label := by
  have own : ∀ point : ReadPoint, update s.point t point t = point := fun _ => update_self ..
  have acquires : ∀ {point}, Reading target eof point bs → s.acquire t point = some (s', label) →
      ReadStep target eof t bs (s'.point t) label := by
    intro point reading acquired
    unfold Console.acquire at acquired
    split at acquired
    · cases acquired
      exact .goes rfl nofun (.of_eq (own point) reading)
    · cases acquired
  generalize now : s.point t = point at reading
  unfold Console.run at ran
  rw [now] at ran
  cases reading with
  | enters => exact acquires (.loops (by simp) List.not_mem_nil) ran
  | @loops n bs count plain =>
    dsimp only at ran
    split at ran
    · split at ran
      · split at ran
        · cases ran
          exact .fails
        · cases ran
          exact .goes rfl nofun (.of_eq (own _) (.sleeps count plain))
      · exact Reading.take count plain (Option.some.inj ran)
    · rename_i done
      cases ran
      have plain' : newline ∉ bs.dropLast := fun mem => plain (List.mem_of_mem_dropLast mem)
      exact .goes rfl nofun (.of_eq (own _) (.ends count plain' (.inl (Int.not_lt.mp done))))
  | @sleeps n bs woken count plain =>
    dsimp only at ran
    split at ran
    · exact acquires (.loops count plain) ran
    · cases ran
  | @ends n bs count plain reason =>
    have value : target - n = bs.length := by omega
    dsimp only at ran
    rw [value] at ran
    cases ran
    refine .returns plain fun short => ?_
    exact reason.resolve_left (by omega)

theorem Reading.step {eof : Prop} (reading : Reading target eof (s.point t) bs)
    (stepped : s.step e = some (s', label)) : ReadStep target eof t bs (s'.point t) label := by
  cases e with
  | intr c =>
    simp only [Console.step] at stepped
    split at stepped
    · cases stepped
      refine .goes rfl nofun ?_
      unfold Console.intr
      split
      · exact reading.woken
      · exact reading
    · cases stepped
  | read u n =>
    simp only [Console.step] at stepped
    split at stepped
    · rename_i idle
      cases stepped
      have other : t ≠ u := by
        rintro rfl
        rw [idle] at reading
        cases reading
      have same : update s.point u (.enters n) t = s.point t := update_of_ne other ..
      exact .goes rfl nofun (.of_eq same reading)
    · cases stepped
  | run u =>
    by_cases own : t = u
    · subst own
      exact reading.run stepped
    · obtain ⟨same, quiet, on⟩ := run_other stepped own
      exact .goes quiet on (.of_eq same reading)
  | kill u =>
    cases stepped
    refine .goes rfl nofun ?_
    by_cases own : t = u
    · subst own
      have point : update s.point t (s.point t).woken t = (s.point t).woken := update_self ..
      exact .of_eq point reading.woken
    · have same : update s.point u (s.point u).woken t = s.point t := update_of_ne own ..
      exact .of_eq same reading

end Steps

abbrev ConsoleRun (Tid : Type) [DecidableEq Tid] : Type :=
  Semantics.Trace (fun (s : Console Tid × ConsoleLabel Tid) (e : ConsoleEvent Tid) => s.1.step e)
    fun s => ∃ buf killed, s.1 = .init buf killed

namespace ConsoleRun

variable {Tid : Type} [DecidableEq Tid] {r : ConsoleRun Tid} {i s : Nat} {t : Tid} {n value : Int}

def cons (r : ConsoleRun Tid) (i : Nat) : Cons := (r.state i).1.cons

def label (r : ConsoleRun Tid) (i : Nat) : ConsoleLabel Tid := (r.state (i + 1)).2

def committed (r : ConsoleRun Tid) (i : Nat) : List UInt8 :=
  (List.range i).flatMap fun k => (r.cons k).committed (r.cons (k + 1))

def delivered (r : ConsoleRun Tid) (i : Nat) : List UInt8 := (List.range i).filterMap fun k => (r.label k).delivered

def deliveredTo (r : ConsoleRun Tid) (t : Tid) (s i : Nat) : List UInt8 :=
  (List.range' s (i - s)).filterMap fun k => (r.label k).deliveredTo t

/-- `t` calls consoleread at time `s`, and the call returns `value` with step `i`. -/
structure Reads (r : ConsoleRun Tid) (t : Tid) (n : Int) (s i : Nat) (value : Int) : Prop where
  order : s < i ∧ i < r.length
  calls : r.event s = .read t n
  inside : ∀ k, s < k → k < i → ∀ value, r.label k ≠ .returns t value
  returns : r.label i = .returns t value

theorem step (r : ConsoleRun Tid) (within : i < r.length) :
    (r.state i).1.step (r.event i) = some ((r.state (i + 1)).1, r.label i) :=
  Semantics.Trace.step r i within

theorem queue (r : ConsoleRun Tid) (within : i ≤ r.length) : (r.cons i).Ok ∧
    ∃ consumed, r.committed i = consumed ++ (r.cons i).line.unread ∧ r.delivered i = consumed.filter (· ≠ ctrl 'D') := by
  induction i with
  | zero =>
    obtain ⟨buf, killed, start⟩ := r.start
    have cons : r.cons 0 = ⟨buf, 0, 0, 0⟩ := congrArg Console.cons start
    rw [cons]
    refine ⟨⟨le_rfl, by simp, ?_⟩, [], ?_, rfl⟩
    · simp [Cons.line]
    · simp [committed, Cons.line]
  | succ i ih =>
    obtain ⟨ok, consumed, trace, delivered⟩ := ih (by omega)
    obtain ⟨ok', taken, queue, gets⟩ := step_moves ok (r.step within)
    refine ⟨ok', consumed ++ taken, ?_, ?_⟩
    · have more : r.committed (i + 1) = r.committed i ++ (r.cons i).committed (r.cons (i + 1)) := by
        simp [committed, List.range_succ]
      rw [more, trace, List.append_assoc, List.append_assoc]
      exact congrArg _ queue
    · have more : r.delivered (i + 1) = r.delivered i ++ (r.label i).delivered.toList := by
        rw [ConsoleRun.delivered, List.range_succ, List.filterMap_append]
        cases label : (r.label i).delivered <;> simp [ConsoleRun.delivered, label]
      rw [more, delivered, gets, List.filter_append]

theorem deliveredTo_succ (r : ConsoleRun Tid) (t : Tid) (later : s ≤ i) :
    r.deliveredTo t s (i + 1) = r.deliveredTo t s i ++ ((r.label i).deliveredTo t).toList := by
  have split : i + 1 - s = i - s + 1 := by omega
  have last : s + (i - s) = i := by omega
  rw [deliveredTo, split, List.range'_concat, List.filterMap_append, Nat.one_mul, last]
  cases label : (r.label i).deliveredTo t <;> simp [deliveredTo, label]

theorem reading (r : ConsoleRun Tid) (calls : r.event s = .read t n) (later : s < i) (within : i ≤ r.length)
    (inside : ∀ k, s < k → k < i → ∀ value, r.label k ≠ .returns t value) :
    Reading n (∃ k, s < k ∧ k < i ∧ r.label k = .eof t) ((r.state i).1.point t) (r.deliveredTo t s i) := by
  induction i, later using Nat.le_induction with
  | base =>
    have step := r.step within
    simp only [Console.step, calls] at step
    split at step
    · have pair := Prod.mk.inj (Option.some.inj step)
      have point : (r.state (s + 1)).1.point t = .enters n := by
        rw [← pair.1]
        exact update_self ..
      have none : r.deliveredTo t s (s + 1) = [] := by
        rw [r.deliveredTo_succ t le_rfl, ← pair.2]
        simp [deliveredTo, ConsoleLabel.deliveredTo]
      rw [none]
      exact .of_eq point .enters
    · cases step
  | succ i later ih =>
    have before := ih (by omega) fun k low high => inside k low (by omega)
    have on := inside i later (by omega)
    have outcome := before.step (r.step within)
    rw [r.deliveredTo_succ t (by omega)]
    generalize shown : r.label i = label at outcome on
    cases outcome with
    | goes quiet _ reading =>
      rw [quiet, Option.toList_none, List.append_nil]
      exact reading.mono fun ⟨k, low, high, eof⟩ => ⟨k, low, by omega, eof⟩
    | @gets c reading =>
      have byte : ((.delivers t c : ConsoleLabel Tid).deliveredTo t).toList = [c] := by simp [ConsoleLabel.deliveredTo]
      rw [byte]
      exact reading.mono fun ⟨k, low, high, eof⟩ => ⟨k, low, by omega, eof⟩
    | stops reading =>
      have none : ((.eof t : ConsoleLabel Tid).deliveredTo t).toList = [] := rfl
      rw [none, List.append_nil]
      exact reading.mono fun _ => ⟨i, later, by omega, shown⟩
    | fails => exact absurd rfl (on _)
    | returns => exact absurd rfl (on _)

/-- A process asks for five bytes and sleeps; "hx", DEL, "i" and a return are typed. -/
def typing : List (ConsoleEvent Unit) :=
  [.read () 5, .run (), .run (), .intr 104, .intr 120, .intr 0x7f, .intr 105, .intr 13, .run (), .run (), .run (), .run (),
    .run ()]

end ConsoleRun

end DeisoXv6
