import DeisoXv6.Kernel.Block
import Mathlib.Data.Finset.Card

/-! Log space reservation: begin_op, log_write and end_op under concurrent operations.

Each of the three runs its critical section under `log.lock`, so an interleaving is a sequence of
whole sections; commit itself runs outside the lock, and its two visible effects are separate
events. Operations that begin_op puts to sleep retry later and leave the log alone. -/

set_option autoImplicit false

namespace DeisoXv6.Reservation

open List

/-- The fields of `struct log` under `log.lock`; `lh` is `lh.block[0..lh.n)`. -/
structure LogState where
  size : Int
  outstanding : Int
  committing : Bool
  lh : List BlockNo

inductive LogPanic where
  | tooBigATransaction
  | logWriteOutsideOfTrans
  | logCommitting
  deriving DecidableEq, Repr

/-- One pass of the loop of begin_op; `none` sleeps until the next wakeup. -/
def beginOp (log : LogState) : Option LogState :=
  if log.committing then none
  -- this op might exhaust log space; wait for commit
  else if log.lh.length + (log.outstanding + 1) * MAXOPBLOCKS > LOGSIZE then none
  else some { log with outstanding := log.outstanding + 1 }

/-- The first section of end_op, with `do_commit`. -/
def endOp (log : LogState) : Except LogPanic (LogState × Bool) :=
  let log := { log with outstanding := log.outstanding - 1 }
  if log.committing then .error .logCommitting
  else if log.outstanding = 0 then .ok ({ log with committing := true }, true)
  else .ok (log, false)

def logWrite (log : LogState) (b : BlockNo) : Except LogPanic LogState :=
  if LOGSIZE ≤ log.lh.length ∨ log.size - 1 ≤ log.lh.length then .error .tooBigATransaction
  else if log.outstanding < 1 then .error .logWriteOutsideOfTrans
  else
    -- log absorption: the search stops at an equal block number
    let i := log.lh.findIdx (· == b)
    if i = log.lh.length then .ok { log with lh := log.lh ++ [b] }
    else .ok { log with lh := log.lh.set i b }

inductive Commit where
  | idle
  | running : Nat → Commit
  | done : Nat → Commit
  deriving DecidableEq

/-- The log with the operations between their begin_op and end_op, and the distinct blocks each
of them has passed to log_write. -/
structure System where
  log : LogState
  active : Finset Nat
  blocks : Nat → Finset BlockNo
  commit : Commit

inductive Event where
  | begin : Nat → Event
  | write : Nat → BlockNo → Event
  | finish : Nat → Event
  | install : Nat → Event
  | release : Nat → Event
  deriving DecidableEq

def System.boot : System :=
  ⟨⟨LOGSIZE, 0, false, []⟩, ∅, fun _ => ∅, .idle⟩

def System.step (s : System) : Event → Except LogPanic System
  | .begin op => match beginOp s.log with
    | none => .ok s
    | some log => .ok { s with
        log := log
        active := insert op s.active
        blocks := Function.update s.blocks op ∅ }
  | .write op b => match logWrite s.log b with
    | .error panic => .error panic
    | .ok log => .ok { s with
        log := log
        blocks := Function.update s.blocks op (insert b (s.blocks op)) }
  | .finish op => match endOp s.log with
    | .error panic => .error panic
    | .ok (log, doCommit) => .ok { s with
        log := log
        active := s.active.erase op
        commit := if doCommit then .running op else s.commit }
  -- commit() leaves lh.n at zero, and only then does end_op clear `committing`
  | .install op => .ok { s with log := { s.log with lh := [] }, commit := .done op }
  | .release _ => .ok { s with log := { s.log with committing := false }, commit := .idle }

/-- Which operation may take an event next. A write keeps its operation within MAXOPBLOCKS
distinct blocks; nothing else is asked of the operations. -/
def System.Legal (s : System) : Event → Prop
  | .begin op => op ∉ s.active ∧ s.commit ≠ .running op ∧ s.commit ≠ .done op
  | .write op b => op ∈ s.active ∧ (insert b (s.blocks op)).card ≤ MAXOPBLOCKS
  | .finish op => op ∈ s.active
  | .install op => s.commit = .running op
  | .release op => s.commit = .done op

instance System.Legal.decidable (s : System) : (e : Event) → Decidable (s.Legal e)
  | .begin op => inferInstanceAs (Decidable (op ∉ s.active ∧ s.commit ≠ .running op ∧ s.commit ≠ .done op))
  | .write op b => inferInstanceAs (Decidable (op ∈ s.active ∧ (insert b (s.blocks op)).card ≤ MAXOPBLOCKS))
  | .finish op => inferInstanceAs (Decidable (op ∈ s.active))
  | .install op => inferInstanceAs (Decidable (s.commit = .running op))
  | .release op => inferInstanceAs (Decidable (s.commit = .done op))

def run : System → List Event → Except LogPanic System
  | s, [] => .ok s
  | s, e :: es => match s.step e with
    | .error panic => .error panic
    | .ok t => run t es

/-- Every event is one its operation may take, up to the first panic. -/
def LegalRun : System → List Event → Prop
  | _, [] => True
  | s, e :: es => s.Legal e ∧ ∀ t, s.step e = .ok t → LegalRun t es

instance LegalRun.decidable : (s : System) → (es : List Event) → Decidable (LegalRun s es)
  | _, [] => isTrue trivial
  | s, e :: es =>
    match outcome : s.step e with
    | .error _ => decidable_of_iff (s.Legal e)
        ⟨fun legal => ⟨legal, fun _ same => by simp [outcome] at same⟩, And.left⟩
    | .ok t =>
      have := LegalRun.decidable t es
      decidable_of_iff (s.Legal e ∧ LegalRun t es) (by simp [LegalRun, outcome])

/-- No prefix of the run panics, the header stays free of duplicates, and it never exceeds the
data blocks of the on-disk log, which has one block less than `size`. -/
def Safe (s : System) (es : List Event) : Prop :=
  ∀ n, ∃ t, run s (es.take n) = .ok t ∧ t.log.lh.Nodup ∧ t.log.lh.length ≤ t.log.size - 1

/-- The distinct blocks passed to log_write since the last commit, from the events alone. -/
def after (seen : Finset BlockNo) : Event → Finset BlockNo
  | .write _ b => insert b seen
  | .install _ => ∅
  | _ => seen

/-- A log_write finds fewer than `LOGSIZE - 1` distinct blocks logged since the last commit. -/
def RoomFor (seen : Finset BlockNo) : Event → Prop
  | .write _ _ => seen.card < LOGSIZE - 1
  | _ => True

instance RoomFor.decidable (seen : Finset BlockNo) : (e : Event) → Decidable (RoomFor seen e)
  | .write _ _ => inferInstanceAs (Decidable (seen.card < LOGSIZE - 1))
  | .begin _ | .finish _ | .install _ | .release _ => isTrue trivial

def Roomy : Finset BlockNo → List Event → Prop
  | _, [] => True
  | seen, e :: es => RoomFor seen e ∧ Roomy (after seen e) es

instance Roomy.decidable : (seen : Finset BlockNo) → (es : List Event) → Decidable (Roomy seen es)
  | _, [] => isTrue trivial
  | seen, e :: es =>
    have := Roomy.decidable (after seen e) es
    inferInstanceAs (Decidable (RoomFor seen e ∧ Roomy (after seen e) es))

structure Inv (seen : Finset BlockNo) (s : System) : Prop where
  size : s.log.size = LOGSIZE
  outstanding : s.log.outstanding = s.active.card
  quiet : s.commit ≠ .idle → s.active = ∅
  committing : s.log.committing = true ↔ s.commit ≠ .idle
  nodup : s.log.lh.Nodup
  logged : s.log.lh.toFinset = seen
  bound : s.log.lh.length ≤ LOGSIZE - 1

theorem Inv.boot : Inv ∅ System.boot :=
  ⟨rfl, rfl, fun busy => absurd rfl busy, ⟨fun h => by simp [System.boot] at h, fun busy => absurd rfl busy⟩,
    nodup_nil, rfl, Nat.zero_le _⟩

variable {seen : Finset BlockNo} {s t : System} {op : Nat} {e : Event} {log : LogState}

theorem Inv.card (inv : Inv seen s) : seen.card = s.log.lh.length := by
  rw [← inv.logged]
  exact toFinset_card_of_nodup inv.nodup

theorem Inv.awake (inv : Inv seen s) (active : op ∈ s.active) : s.log.committing = false := by
  rw [← Bool.not_eq_true, inv.committing]
  intro busy
  rw [inv.quiet busy] at active
  exact Finset.notMem_empty op active

theorem Inv.inside (inv : Inv seen s) (active : op ∈ s.active) : 1 ≤ s.log.outstanding := by
  have positive := Finset.card_pos.mpr ⟨op, active⟩
  rw [inv.outstanding]
  exact_mod_cast positive

theorem set_findIdx (lh : List BlockNo) (b : BlockNo) : lh.set (lh.findIdx (· == b)) b = lh := by
  induction lh with
  | nil => rfl
  | cons head tail ih =>
    by_cases same : head = b
    · subst head
      simp [findIdx_cons]
    · have differ : (head == b) = false := beq_false_of_ne same
      simp [findIdx_cons, differ, ih]

theorem logWrite_ok (log : LogState) (b : BlockNo) (size : log.size = LOGSIZE)
    (inside : 1 ≤ log.outstanding) (room : log.lh.length < LOGSIZE - 1) :
    logWrite log b = .ok { log with lh := if b ∈ log.lh then log.lh else log.lh ++ [b] } := by
  have fits : ¬ (LOGSIZE ≤ log.lh.length ∨ log.size - 1 ≤ log.lh.length) := by
    rw [size]
    unfold LOGSIZE MAXOPBLOCKS at *
    omega
  have opened : ¬ log.outstanding < 1 := by omega
  have position : log.lh.findIdx (· == b) = log.lh.length ↔ b ∉ log.lh := by
    rw [findIdx_eq_length]
    simp only [beq_eq_false_iff_ne]
    exact ⟨fun absent member => absent b member rfl, fun absent x member same => absent (same ▸ member)⟩
  by_cases member : b ∈ log.lh
  · have found : log.lh.findIdx (· == b) ≠ log.lh.length := fun h => position.mp h member
    simp only [logWrite, fits, opened, found, if_false, set_findIdx, member, if_true]
  · simp only [logWrite, fits, opened, position.mpr member, if_false, if_true, member]

theorem logWrite_full (log : LogState) (b : BlockNo) (size : log.size = LOGSIZE)
    (full : LOGSIZE - 1 ≤ log.lh.length) : logWrite log b = .error .tooBigATransaction := by
  refine if_pos (Or.inr ?_)
  rw [size]
  unfold LOGSIZE MAXOPBLOCKS at *
  omega

theorem Inv.step_ok_iff (inv : Inv seen s) (legal : s.Legal e) : (∃ t, s.step e = .ok t) ↔ RoomFor seen e := by
  cases e with
  | begin op =>
    refine iff_of_true ?_ trivial
    cases admitted : beginOp s.log with
    | none => exact ⟨_, by simp only [System.step, admitted]; rfl⟩
    | some log => exact ⟨_, by simp only [System.step, admitted]; rfl⟩
  | write op b =>
    have inside := inv.inside legal.1
    rw [RoomFor, inv.card]
    by_cases room : s.log.lh.length < LOGSIZE - 1
    · exact iff_of_true ⟨_, by rw [System.step, logWrite_ok s.log b inv.size inside room]⟩ room
    · refine iff_of_false ?_ room
      rintro ⟨t, same⟩
      rw [System.step, logWrite_full s.log b inv.size (Nat.le_of_not_lt room)] at same
      contradiction
  | finish op =>
    refine iff_of_true ?_ trivial
    have awake := inv.awake legal
    by_cases last : s.log.outstanding - 1 = 0
    · exact ⟨_, by simp only [System.step, endOp, awake, last]; rfl⟩
    · exact ⟨_, by simp only [System.step, endOp, awake, last]; rfl⟩
  | install op => exact iff_of_true ⟨_, rfl⟩ trivial
  | release op => exact iff_of_true ⟨_, rfl⟩ trivial

theorem beginOp_some {admitted : LogState} (same : beginOp log = some admitted) :
    log.committing = false ∧ admitted = { log with outstanding := log.outstanding + 1 } := by
  unfold beginOp at same
  split at same
  · contradiction
  · rename_i awake
    split at same
    · contradiction
    · exact ⟨by simpa using awake, (Option.some.inj same).symm⟩

theorem endOp_ok (awake : log.committing = false) : endOp log = .ok ({ log with
        outstanding := log.outstanding - 1
        committing := decide (log.outstanding - 1 = 0) },
      decide (log.outstanding - 1 = 0)) := by
  by_cases last : log.outstanding - 1 = 0 <;> simp [endOp, awake, last]

section

variable (inv : Inv seen s)

include inv

theorem Inv.begin (legal : s.Legal (.begin op)) (same : s.step (.begin op) = .ok t) : Inv seen t := by
  simp only [System.step] at same
  split at same
  · cases same
    exact inv
  · rename_i log admitted
    cases same
    obtain ⟨awake, rfl⟩ := beginOp_some admitted
    have idle : s.commit = .idle := by
      by_contra busy
      rw [← ne_eq, ← inv.committing, awake] at busy
      contradiction
    refine ⟨inv.size, ?_, fun busy => absurd idle busy, inv.committing, inv.nodup, inv.logged, inv.bound⟩
    rw [Finset.card_insert_of_notMem legal.1, Nat.cast_succ, ← inv.outstanding]

theorem Inv.write {b : BlockNo} (legal : s.Legal (.write op b)) (room : RoomFor seen (.write op b))
    (same : s.step (.write op b) = .ok t) : Inv (insert b seen) t := by
  have space : s.log.lh.length < LOGSIZE - 1 := inv.card ▸ room
  rw [System.step, logWrite_ok s.log b inv.size (inv.inside legal.1) space] at same
  cases same
  refine ⟨inv.size, inv.outstanding, inv.quiet, inv.committing, ?_, ?_, ?_⟩
  all_goals by_cases member : b ∈ s.log.lh <;> simp only [member, if_true, if_false]
  · exact inv.nodup
  · exact nodup_append.mpr ⟨inv.nodup, nodup_singleton b, by
      rintro x inside y last rfl
      exact member (mem_singleton.mp last ▸ inside)⟩
  · rw [inv.logged, Finset.insert_eq_of_mem]
    rwa [← inv.logged, mem_toFinset]
  · simp only [toFinset_append, inv.logged]
    ext x
    simp
  · exact inv.bound
  · simpa using Nat.succ_le_of_lt space

theorem Inv.finish (legal : s.Legal (.finish op)) (same : s.step (.finish op) = .ok t) : Inv seen t := by
  have awake := inv.awake legal
  have idle : s.commit = .idle := by
    by_contra busy
    rw [← ne_eq, ← inv.committing, awake] at busy
    contradiction
  have count : s.log.outstanding - 1 = (s.active.erase op).card := by
    have shrink := Finset.card_erase_add_one legal
    rw [inv.outstanding]
    omega
  simp only [System.step, endOp_ok awake] at same
  cases same
  refine ⟨inv.size, count, ?_, ?_, inv.nodup, inv.logged, inv.bound⟩
  · intro busy
    by_cases last : s.log.outstanding - 1 = 0
    · rw [count] at last
      exact Finset.card_eq_zero.mp (by exact_mod_cast last)
    · simp [last, idle] at busy
  · by_cases last : s.log.outstanding - 1 = 0 <;> simp [last, idle]

theorem Inv.step (legal : s.Legal e) (room : RoomFor seen e) (same : s.step e = .ok t) : Inv (after seen e) t := by
  cases e with
  | begin op => exact inv.begin legal same
  | write op b => exact inv.write legal room same
  | finish op => exact inv.finish legal same
  | install op =>
    have running : s.commit = .running op := legal
    cases same
    have busy : s.commit ≠ .idle := by simp [running]
    exact ⟨inv.size, inv.outstanding, fun _ => inv.quiet busy,
      iff_of_true (inv.committing.mpr busy) (by simp), nodup_nil, rfl, Nat.zero_le _⟩
  | release op =>
    have done : s.commit = .done op := legal
    cases same
    exact ⟨inv.size, inv.outstanding, fun busy => absurd rfl busy,
      iff_of_false (by simp) (by simp), inv.nodup, inv.logged, inv.bound⟩

theorem Inv.good : s.log.lh.Nodup ∧ s.log.lh.length ≤ s.log.size - 1 := by
  refine ⟨inv.nodup, ?_⟩
  have bound := inv.bound
  rw [inv.size]
  unfold LOGSIZE MAXOPBLOCKS at *
  omega

end

theorem run_cons (es : List Event) (same : s.step e = .ok t) : run s (e :: es) = run t es := by
  rw [run, same]

theorem safe_cons {es : List Event} (good : s.log.lh.Nodup ∧ s.log.lh.length ≤ s.log.size - 1) :
    Safe s (e :: es) ↔ ∃ t, s.step e = .ok t ∧ Safe t es := by
  constructor
  · intro safe
    obtain ⟨u, reached, -⟩ := safe 1
    cases outcome : s.step e with
    | error panic => simp [run, outcome] at reached
    | ok t =>
      refine ⟨t, rfl, fun n => ?_⟩
      obtain ⟨v, reached, kept⟩ := safe (n + 1)
      rw [take_succ_cons, run_cons _ outcome] at reached
      exact ⟨v, reached, kept⟩
  · rintro ⟨t, outcome, safe⟩ n
    cases n with
    | zero => exact ⟨s, rfl, good⟩
    | succ n =>
      rw [take_succ_cons, run_cons _ outcome]
      exact safe n

theorem safe_iff_roomy (inv : Inv seen s) (es : List Event) (legal : LegalRun s es) : Safe s es ↔ Roomy seen es := by
  induction es generalizing seen s with
  | nil => exact iff_of_true (fun n => ⟨s, by rw [take_nil, run], inv.good⟩) trivial
  | cons e es ih =>
    rw [safe_cons inv.good, Roomy, ← inv.step_ok_iff legal.1]
    constructor
    · rintro ⟨t, outcome, safe⟩
      have room := (inv.step_ok_iff legal.1).mp ⟨t, outcome⟩
      exact ⟨⟨t, outcome⟩, (ih (inv.step legal.1 room outcome) (legal.2 t outcome)).mp safe⟩
    · rintro ⟨⟨t, outcome⟩, roomy⟩
      have room := (inv.step_ok_iff legal.1).mp ⟨t, outcome⟩
      exact ⟨t, outcome, (ih (inv.step legal.1 room outcome) (legal.2 t outcome)).mpr roomy⟩

/-- From boot, a legal interleaving keeps the log sound exactly when each log_write finds fewer
than `LOGSIZE - 1` distinct blocks logged since the last commit. begin_op does not ensure that:
it admits three operations of MAXOPBLOCKS blocks into a log with one data block less. -/
theorem reservation_sound_iff (es : List Event) (legal : LegalRun System.boot es) :
    Safe System.boot es ↔ Roomy ∅ es :=
  safe_iff_roomy Inv.boot es legal

def quota (op : Nat) (first : BlockNo) (count : Nat) : List Event :=
  (List.range count).map fun i => .write op (first + .ofNat i)

/-- Three admitted operations that each use their whole quota. -/
def fullQuotas : List Event :=
  [.begin 0, .begin 1, .begin 2] ++ quota 0 100 MAXOPBLOCKS ++ quota 1 110 MAXOPBLOCKS ++ quota 2 120 MAXOPBLOCKS

theorem reservation_sound_two_quotas :
    Safe System.boot ([.begin 0, .begin 1] ++ quota 0 100 MAXOPBLOCKS ++ quota 1 110 MAXOPBLOCKS ++
      [.finish 0, .finish 1, .install 1, .release 1]) :=
  (reservation_sound_iff _ (by decide +kernel)).mpr (by decide +kernel)

theorem fullQuotas_too_big :
    LegalRun System.boot fullQuotas ∧ run System.boot fullQuotas = .error .tooBigATransaction ∧
      ¬ Safe System.boot fullQuotas := by
  have panics : run System.boot fullQuotas = .error .tooBigATransaction := by rfl
  refine ⟨by decide +kernel, panics, fun safe => ?_⟩
  obtain ⟨t, reached, -⟩ := safe fullQuotas.length
  rw [take_length, panics] at reached
  contradiction

end DeisoXv6.Reservation
