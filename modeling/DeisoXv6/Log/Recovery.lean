import DeisoXv6.Log.Commit

/-! Crash atomicity of the redo log.

The header block is the only commit point. Until the first header write a crash leaves the home
blocks alone; from then on the disk is committed, and recovery, interrupted any number of times,
keeps it committed until it has installed every block and cleared the header. -/

set_option autoImplicit false

namespace DeisoXv6.RedoLog

open Function BlockDevice Store Prog

abbrev Disk := BlockNo → Block

/-- A block outside the area that the superblock gives to the log. -/
def Log.Outside (log : Log) (b : BlockNo) : Prop := ∀ i, i < log.size → b ≠ log.start + UInt32.ofNat i

def LogHeader.Home (lh : LogHeader) (b : BlockNo) : Prop := ∃ i, i < lh.n ∧ lh.block i = b

instance (lh : LogHeader) (b : BlockNo) : Decidable (lh.Home b) :=
  inferInstanceAs (Decidable (∃ i, i < lh.n ∧ lh.block i = b))

/-- A transaction that fits the log: the header array holds it, the log area has a slot for every
block after its header, and no home block lies in the area. -/
structure Recorded (log : Log) (lh : LogHeader) : Prop where
  capacity : lh.n ≤ LOGSIZE
  fits : lh.n + 1 ≤ log.size
  outside : ∀ i, i < lh.n → log.Outside (lh.block i)

/-- The home blocks as the transaction leaves them: cached contents for the recorded blocks, and
the disk's for all others. -/
def transaction (lh : LogHeader) (s : Store BlockNo Block) : Disk := fun b =>
  if lh.Home b then s.read b else s.disk b

/-- Crash recovery at boot, run to its end after crashing once for each entry of `crashes`, with
that many block writes completed. -/
def recoverAfter (log : Log) (disk : Disk) : List Nat → Disk
  | [] => ((recoverFromLog log).run (boot disk)).2.disk
  | writes :: crashes => recoverAfter log ((recoverFromLog log).crash (boot disk) writes) crashes

structure Clean (log : Log) (home disk : Disk) : Prop where
  count : (disk log.start).word 0 = 0
  homes : ∀ b, log.Outside b → disk b = home b

/-- A committed log: the header names the transaction and every slot holds its block. The home
blocks themselves may be installed or not. -/
structure Committed (log : Log) (lh : LogHeader) (home disk : Disk) : Prop where
  count : (disk log.start).word 0 = lh.n
  names : ∀ i, i < lh.n → (disk log.start).word (1 + i) = (lh.block i).toNat
  slots : ∀ i, i < lh.n → disk (log.slot i) = home (lh.block i)
  others : ∀ b, log.Outside b → ¬ lh.Home b → disk b = home b

variable {log : Log} {lh : LogHeader} {home : Disk}

variable {survives : Disk → Prop} {disk : Disk}

section
theorem slot_ne_start (tail : Nat) (small : tail + 1 < 2 ^ 32) : log.slot tail ≠ log.start := by
  intro same
  have zero : UInt32.ofNat (tail + 1) = 0 := by
    have cancelled : log.start + UInt32.ofNat (tail + 1) = log.start + 0 := by simpa [Log.slot] using same
    exact UInt32.add_right_inj _ |>.mp cancelled
  have value := congrArg UInt32.toNat zero
  rw [UInt32.toNat_ofNat_of_lt' small] at value
  simp at value

variable {i j : Nat} {b : BlockNo} {pre : Store BlockNo Block → Prop} {post : Unit → Store BlockNo Block → Prop}
  {t : Store BlockNo Block}

theorem slot_injective (first : i + 1 < 2 ^ 32) (second : j + 1 < 2 ^ 32)
    (same : log.slot i = log.slot j) : i = j := by
  have words : UInt32.ofNat (i + 1) = UInt32.ofNat (j + 1) := UInt32.add_right_inj _ |>.mp same
  have values := congrArg UInt32.toNat words
  rw [UInt32.toNat_ofNat_of_lt' first, UInt32.toNat_ofNat_of_lt' second] at values
  omega

theorem Log.Outside.ne_start (outside : log.Outside b) (positive : 0 < log.size) : b ≠ log.start := by
  simpa using outside 0 positive

theorem Log.Outside.ne_slot (outside : log.Outside b) (tail : Nat)
    (inside : tail + 1 < log.size) : b ≠ log.slot tail := outside (tail + 1) inside

section

variable (recorded : Recorded log lh)

include recorded

theorem Recorded.home_ne_slot (first : i < lh.n) (second : j < lh.n) : log.slot j ≠ lh.block i :=
  ((recorded.outside i first).ne_slot j (by have := recorded.fits; omega)).symm

theorem Recorded.home_ne_start (index : i < lh.n) : log.start ≠ lh.block i :=
  ((recorded.outside i index).ne_start (by have := recorded.fits; omega)).symm

theorem Recorded.slot_small (index : i < lh.n) : i + 1 < 2 ^ 32 := by
  have capacity := recorded.capacity
  unfold LOGSIZE MAXOPBLOCKS at capacity
  omega

theorem Recorded.slot_ne (first : i < lh.n)
    (second : j < lh.n) (apart : i ≠ j) : log.slot i ≠ log.slot j := fun same =>
  apart (slot_injective (recorded.slot_small first) (recorded.slot_small second) same)

end

/-- The shape of every loop body of the log: two buffers are read, one block is written. -/
theorem copy_spec (a b target : BlockNo) (value : Block → Block → Block) (kept : ∀ s, pre s → survives s.disk ∧
      survives (update s.disk target (value (s.read a) (s.read b))) ∧
      post () (((s.fill a).fill b).write target (value (s.read a) (s.read b)))) :
    Spec pre (do let x ← bread a; let y ← bread b; bwrite target (value x y)) post survives := by
  intro s holds
  obtain ⟨before, after, final⟩ := kept s holds
  have seen : (s.fill a).read b = s.read b := read_fill s a b
  constructor
  · intro n
    cases n with
    | zero => rw [crash_zero]; exact before
    | succ n =>
      change survives (update s.disk target (value (s.read a) ((s.fill a).read b)))
      rw [seen]
      exact after
  · change post () (((s.fill a).fill b).write target (value (s.read a) ((s.fill a).read b)))
    rw [seen]
    exact final

theorem writeHead_spec (log : Log) (lh : LogHeader) (kept : ∀ s, pre s → survives s.disk ∧
      survives (update s.disk log.start (putBlocks ((s.read log.start).setWord 0 lh.n) lh.block lh.n)) ∧
      post () ((s.fill log.start).write log.start (putBlocks ((s.read log.start).setWord 0 lh.n) lh.block lh.n))) :
    Spec pre (writeHead log lh) post survives := by
  intro s holds
  obtain ⟨before, after, final⟩ := kept s holds
  refine ⟨fun n => ?_, final⟩
  cases n with
  | zero => rw [crash_zero]; exact before
  | succ n => exact after

theorem word_header_count (hb : Block) (lh : LogHeader) (capacity : lh.n ≤ LOGSIZE) :
    (putBlocks (hb.setWord 0 lh.n) lh.block lh.n).word 0 = lh.n := by
  rw [word_putBlocks_zero]
  refine Block.word_setWord_same _ _ _ (by decide) ?_
  unfold LOGSIZE MAXOPBLOCKS at capacity
  omega

/-- Copying to the log touches neither the header nor a home block. -/
structure Copied (log : Log) (lh : LogHeader) (s : Store BlockNo Block) (done : Nat)
    (t : Store BlockNo Block) : Prop where
  header : t.disk log.start = s.disk log.start
  homes : ∀ b, log.Outside b → t.disk b = s.disk b
  cached : ∀ b, log.Outside b → t.read b = s.read b
  slots : ∀ j, j < done → t.disk (log.slot j) = s.read (lh.block j)
  copies : ∀ j, j < done → t.read (log.slot j) = s.read (lh.block j)

theorem writeLog_spec (s : Store BlockNo Block) (recorded : Recorded log lh) (empty : (s.disk log.start).word 0 = 0) :
    Spec (Copied log lh s 0) (writeLog log lh) (fun _ => Copied log lh s lh.n) (Clean log s.disk) := by
  have survivesInv : ∀ i t, i ≤ lh.n → Copied log lh s i t → Clean log s.disk t.disk :=
    fun _ _ _ copied => ⟨by rw [copied.header]; exact empty, copied.homes⟩
  refine Spec.forFrom survivesInv (fun i index => ?_) 0 lh.n (Nat.zero_add _)
  apply copy_spec _ _ _ fun _ block => block
  intro t copied
  have notStart : log.slot i ≠ log.start := slot_ne_start i (recorded.slot_small index)
  have notHome : ∀ b, log.Outside b → b ≠ log.slot i :=
    fun b outside => outside.ne_slot i (by have := recorded.fits; omega)
  have source := copied.cached _ (recorded.outside i index)
  refine ⟨survivesInv i t index.le copied, ⟨?_, fun b outside => ?_⟩, ?_⟩
  · rw [update_of_ne notStart.symm, copied.header]
    exact empty
  · rw [update_of_ne (notHome b outside)]
    exact copied.homes b outside
  · constructor
    · rw [write_disk, update_of_ne notStart.symm]
      exact copied.header
    · intro b outside
      rw [write_disk, update_of_ne (notHome b outside)]
      exact copied.homes b outside
    · intro b outside
      rw [read_write, if_neg (notHome b outside), read_fill, read_fill]
      exact copied.cached b outside
    -- the slot just written holds the cached block, the earlier ones are at other addresses
    · intro j below
      rw [write_disk]
      by_cases last : j = i
      · subst j
        rw [update_self, source]
      · have other := recorded.slot_ne (by omega) index last
        rw [update_of_ne other]
        exact copied.slots j (by omega)
    · intro j below
      rw [read_write]
      by_cases last : j = i
      · subst j
        rw [if_pos rfl, source]
      · have other := recorded.slot_ne (by omega) index last
        rw [if_neg other, read_fill, read_fill]
        exact copied.copies j (by omega)

/-- A committed store while the first `done` blocks are at home; the log is still readable. -/
structure Installing (log : Log) (lh : LogHeader) (home : Disk) (done : Nat)
    (t : Store BlockNo Block) : Prop where
  committed : Committed log lh home t.disk
  copies : ∀ j, j < lh.n → t.read (log.slot j) = home (lh.block j)
  installed : ∀ j, j < done → t.disk (lh.block j) = home (lh.block j)

theorem Committed.install (recorded : Recorded log lh)
    (committed : Committed log lh home disk) (index : i < lh.n) (value : Block) :
    Committed log lh home (update disk (lh.block i) value) := by
  have header := update_of_ne (recorded.home_ne_start index) value disk
  refine ⟨?_, fun j below => ?_, fun j below => ?_, fun b outside other => ?_⟩
  · rw [header]; exact committed.count
  · rw [header]; exact committed.names j below
  · rw [update_of_ne (recorded.home_ne_slot index below)]
    exact committed.slots j below
  · have apart : b ≠ lh.block i := fun same => other ⟨i, index, same.symm⟩
    rw [update_of_ne apart]
    exact committed.others b outside other

theorem installTrans_spec (recorded : Recorded log lh) :
    Spec (Installing log lh home 0) (installTrans log lh) (fun _ => Installing log lh home lh.n)
      (Committed log lh home) := by
  refine Spec.forFrom (fun _ _ _ installing => installing.committed) (fun i index => ?_)
    0 lh.n (Nat.zero_add _)
  apply copy_spec _ _ _ fun block _ => block
  intro t installing
  have kept := installing.committed.install recorded index (t.read (log.slot i))
  refine ⟨installing.committed, kept, kept, fun j below => ?_, fun j below => ?_⟩
  · rw [read_write, if_neg (recorded.home_ne_slot index below), read_fill,
      read_fill]
    exact installing.copies j below
  · rw [write_disk]
    -- a block recorded twice is installed twice with the same contents
    by_cases same : lh.block j = lh.block i
    · rw [same, update_self, installing.copies i index]
    · have earlier : j < i := by
        rcases Nat.lt_succ_iff_lt_or_eq.mp below with earlier | last
        · exact earlier
        · exact absurd (congrArg lh.block last) same
      rw [update_of_ne same]
      exact installing.installed j earlier

theorem Installing.homes (installing : Installing log lh home lh.n t) (b : BlockNo) (outside : log.Outside b) :
    t.disk b = home b := by
  by_cases recordedHome : lh.Home b
  · obtain ⟨i, index, rfl⟩ := recordedHome
    exact installing.installed i index
  · exact installing.committed.others b outside recordedHome

theorem clearHead_spec (recorded : Recorded log lh) :
    Spec (Installing log lh home lh.n) (writeHead log { lh with n := 0 })
      (fun _ t => Clean log home t.disk)
      (fun disk => Committed log lh home disk ∨ Clean log home disk) := by
  apply writeHead_spec
  intro t installing
  have positive : 0 < log.size := by have := recorded.fits; omega
  have cleared : Clean log home (update t.disk log.start
      (putBlocks ((t.read log.start).setWord 0 0) lh.block 0)) := by
    refine ⟨?_, fun b outside => ?_⟩
    · rw [update_self]
      exact word_header_count _ { lh with n := 0 } (Nat.zero_le _)
    · rw [update_of_ne (outside.ne_start positive)]
      exact installing.homes b outside
  exact ⟨Or.inl installing.committed, Or.inr cleared, cleared⟩

theorem Copied.commits (recorded : Recorded log lh) {s : Store BlockNo Block} (copied : Copied log lh s lh.n t) :
    Installing log lh (transaction lh s) 0 ((t.fill log.start).write log.start
      (putBlocks ((t.read log.start).setWord 0 lh.n) lh.block lh.n)) := by
  have positive : 0 < log.size := by have := recorded.fits; omega
  have moved : ∀ i, i < lh.n → transaction lh s (lh.block i) = s.read (lh.block i) :=
    fun i index => if_pos ⟨i, index, rfl⟩
  have away : ∀ i, i < lh.n → log.slot i ≠ log.start :=
    fun i index => slot_ne_start i (recorded.slot_small index)
  refine ⟨⟨?_, fun i index => ?_, fun i index => ?_, fun b outside other => ?_⟩,
    fun i index => ?_, fun i none => absurd none (Nat.not_lt_zero i)⟩
  · rw [write_disk, update_self]
    exact word_header_count _ lh recorded.capacity
  · rw [write_disk, update_self]
    exact word_putBlocks _ _ _ _ recorded.capacity index
  · rw [write_disk, update_of_ne (away i index), moved i index]
    exact copied.slots i index
  · rw [write_disk, update_of_ne (outside.ne_start positive), transaction, if_neg other]
    exact copied.homes b outside
  · rw [read_write, if_neg (away i index), read_fill, moved i index]
    exact copied.copies i index

end

/-- A disk from which recovery produces `home`: committed to it, or holding it already. -/
def Recoverable (log : Log) (home disk : Disk) : Prop :=
  (∃ lh, Recorded log lh ∧ Committed log lh home disk) ∨ Clean log home disk

theorem headerOf_empty (buf : Block) (empty : buf.word 0 = 0) : (headerOf buf).n = 0 := by
  simp [headerOf, empty, intOfWord]

theorem Committed.reread (recorded : Recorded log lh) (committed : Committed log lh home disk) :
    Recorded log (headerOf (disk log.start)) ∧ Committed log (headerOf (disk log.start)) home disk := by
  have capacity := recorded.capacity
  have count : (headerOf (disk log.start)).n = lh.n := by
    have small : lh.n < 2 ^ 31 := by unfold LOGSIZE MAXOPBLOCKS at capacity; omega
    simp only [headerOf, committed.count, intOfWord, small, if_true, Int.toNat_natCast]
  have names : ∀ i, i < lh.n → (headerOf (disk log.start)).block i = lh.block i := by
    intro i index
    simp only [headerOf, committed.names i index, UInt32.ofNat_toNat]
  constructor
  · refine ⟨by rw [count]; exact capacity, by rw [count]; exact recorded.fits, fun i index => ?_⟩
    rw [count] at index
    rw [names i index]
    exact recorded.outside i index
  · refine ⟨by rw [count]; exact committed.count, fun i index => ?_, fun i index => ?_, ?_⟩
    · rw [count] at index
      rw [names i index]
      exact committed.names i index
    · rw [count] at index
      rw [names i index]
      exact committed.slots i index
    · intro b outside other
      refine committed.others b outside fun same => other ?_
      obtain ⟨i, index, rfl⟩ := same
      exact ⟨i, by rw [count]; exact index, names i index⟩

theorem readHead_spec (disk : Disk) (survivesDisk : survives disk) : Spec (fun s => s = boot disk) (readHead log)
      (fun read t => read = headerOf (disk log.start) ∧ t = (boot disk).fill log.start) survives := by
  rintro s rfl
  exact ⟨fun _ => survivesDisk, rfl, rfl⟩

/-- Recovery of a committed log installs the transaction, and a crash leaves it recoverable. -/
theorem recover_committed_spec (recorded : Recorded log lh) (committed : Committed log lh home disk) :
    Spec (fun s => s = boot disk) (recoverFromLog log) (fun _ t => Clean log home t.disk) (Recoverable log home) := by
  obtain ⟨recorded', committed'⟩ := committed.reread recorded
  have stays : ∀ d, Committed log (headerOf (disk log.start)) home d → Recoverable log home d :=
    fun d kept => Or.inl ⟨_, recorded', kept⟩
  refine Spec.bind (readHead_spec disk (stays disk committed')) fun read => ?_
  rintro t ⟨rfl, rfl⟩
  have start : Installing log (headerOf (disk log.start)) home 0 ((boot disk).fill log.start) := by
    refine ⟨committed', fun j below => ?_, fun j none => absurd none (Nat.not_lt_zero j)⟩
    rw [read_fill, read_boot]
    exact committed'.slots j below
  refine Spec.bind ((installTrans_spec recorded').weaken (fun _ => id) (fun _ _ => id) stays)
    (fun _ => (clearHead_spec recorded').weaken (fun _ => id) (fun _ _ => id) ?_) _ start
  intro d survived
  exact survived.elim (stays d) Or.inr

theorem recover_clean_spec (positive : 0 < log.size) (clean : Clean log home disk) :
    Spec (fun s => s = boot disk) (recoverFromLog log) (fun _ t => Clean log home t.disk) (Clean log home) := by
  refine Spec.bind (readHead_spec disk clean) fun read => ?_
  rintro t ⟨rfl, rfl⟩
  have none := headerOf_empty _ clean.count
  have nothing : installTrans log (headerOf (disk log.start)) = .done () := by
    rw [installTrans, none]
    rfl
  rw [nothing]
  have cleared : Spec (fun t : Store BlockNo Block => t.disk = disk)
      (writeHead log { headerOf (disk log.start) with n := 0 })
      (fun _ t => Clean log home t.disk) (Clean log home) := by
    apply writeHead_spec
    rintro t same
    have kept : Clean log home (update t.disk log.start
        (putBlocks ((t.read log.start).setWord 0 0) (headerOf (disk log.start)).block 0)) := by
      refine ⟨?_, fun b outside => ?_⟩
      · rw [update_self]
        exact word_header_count _ { headerOf (disk log.start) with n := 0 } (Nat.zero_le _)
      · rw [update_of_ne (outside.ne_start positive), same]
        exact clean.homes b outside
    exact ⟨by rw [same]; exact clean, kept, kept⟩
  exact cleared _ rfl

theorem Recoverable.recover_spec (positive : 0 < log.size) (recoverable : Recoverable log home disk) :
    Spec (fun s => s = boot disk) (recoverFromLog log) (fun _ t => Clean log home t.disk) (Recoverable log home) := by
  rcases recoverable with ⟨lh, recorded, committed⟩ | clean
  · exact recover_committed_spec recorded committed
  · exact (recover_clean_spec positive clean).weaken (fun _ => id) (fun _ _ => id)
      fun _ => Or.inr

theorem Recoverable.recoverAfter (positive : 0 < log.size)
    (recoverable : Recoverable log home disk) (crashes : List Nat) :
    Clean log home (recoverAfter log disk crashes) := by
  induction crashes generalizing disk with
  | nil => exact (recoverable.recover_spec positive (boot disk) rfl).2
  | cons writes crashes ih =>
    exact ih ((recoverable.recover_spec positive (boot disk) rfl).1 writes)

/-- The block writes of commit up to and including its first header write. -/
def commitPoint (log : Log) (lh : LogHeader) (s : Store BlockNo Block) : Nat :=
  ((writeLog log lh).bind fun _ => writeHead log lh).writes s

theorem commitPoint_eq (log : Log) (lh : LogHeader) (s : Store BlockNo Block) : commitPoint log lh s = lh.n + 1 := by
  have copies : (writeLog log lh).writes s = lh.n := writes_forFrom _ (fun _ _ => rfl) 0 lh.n s
  rw [commitPoint, writes_bind, copies]
  rfl

section
variable {s : Store BlockNo Block}

theorem Clean.transaction_of_empty (none : lh.n = 0) (clean : Clean log s.disk disk) :
    Clean log (transaction lh s) disk := by
  refine ⟨clean.count, fun b outside => ?_⟩
  have other : ¬ lh.Home b := fun ⟨i, index, _⟩ => by omega
  rw [transaction, if_neg other]
  exact clean.homes b outside

theorem install_and_clear_spec (recorded : Recorded log lh) (home : Disk) : Spec (Installing log lh home 0)
      ((installTrans log lh).bind fun _ => (writeHead log { lh with n := 0 }).bind fun _ =>
        .done { lh with n := 0 })
      (fun _ t => Clean log home t.disk) (Recoverable log home) := by
  have stays : ∀ d, Committed log lh home d → Recoverable log home d :=
    fun d kept => Or.inl ⟨lh, recorded, kept⟩
  refine Spec.bind ((installTrans_spec recorded).weaken (fun _ => id) (fun _ _ => id) stays)
    fun _ => Spec.bind ((clearHead_spec recorded).weaken (fun _ => id) (fun _ _ => id) ?_)
      fun _ => Spec.done fun t clean => ⟨Or.inr clean, clean⟩
  intro d survived
  exact survived.elim (stays d) Or.inr

theorem commit_crash (recorded : Recorded log lh) (empty : (s.disk log.start).word 0 = 0) (writes : Nat) :
    (writes < commitPoint log lh s → Clean log s.disk ((commit log lh).crash s writes)) ∧
    (commitPoint log lh s ≤ writes → Recoverable log (transaction lh s) ((commit log lh).crash s writes)) := by
  rw [commitPoint_eq]
  have unchanged : Clean log s.disk s.disk := ⟨empty, fun _ _ => rfl⟩
  by_cases positive : 0 < lh.n
  · have expand : commit log lh = (writeLog log lh).bind fun _ => (writeHead log lh).bind fun _ =>
        (installTrans log lh).bind fun _ => (writeHead log { lh with n := 0 }).bind fun _ =>
          .done { lh with n := 0 } := if_pos positive
    have start : Copied log lh s 0 s :=
      ⟨rfl, fun _ _ => rfl, fun _ _ => rfl, fun j none => absurd none (Nat.not_lt_zero j),
        fun j none => absurd none (Nat.not_lt_zero j)⟩
    obtain ⟨early, copied⟩ := writeLog_spec s recorded empty s start
    have copies : (writeLog log lh).writes s = lh.n := writes_forFrom _ (fun _ _ => rfl) 0 lh.n s
    rw [expand]
    constructor
    · intro before
      rw [crash_bind_of_le _ _ _ _ (by omega)]
      exact early writes
    -- one more write is the header, and installation follows it
    · intro after
      rw [crash_bind_of_ge _ _ _ _ (by omega), crash_bind_of_ge _ _ _ _ (by
        rw [copies]
        change 1 ≤ writes - lh.n
        omega)]
      exact (install_and_clear_spec recorded _ _ (copied.commits recorded)).1 _
  · have idle : commit log lh = .done lh := if_neg positive
    have none : lh.n = 0 := by omega
    rw [idle]
    exact ⟨fun _ => unchanged, fun _ => Or.inr (unchanged.transaction_of_empty none)⟩

end

/-- A crash between any two block writes of commit, followed by recovery that is itself
interrupted any number of times, leaves every home block as before the transaction or every one
as in it; from the completion of the first header write on, as in it. -/
theorem commit_crash_atomic (log : Log) (lh : LogHeader) (s : Store BlockNo Block)
    (recorded : Recorded log lh) (empty : (s.disk log.start).word 0 = 0) (writes : Nat) (crashes : List Nat) :
    (writes < commitPoint log lh s → ∀ b, log.Outside b →
      recoverAfter log ((commit log lh).crash s writes) crashes b = s.disk b) ∧
    (commitPoint log lh s ≤ writes → ∀ b, log.Outside b →
      recoverAfter log ((commit log lh).crash s writes) crashes b = transaction lh s b) := by
  have positive : 0 < log.size := by have := recorded.fits; omega
  obtain ⟨before, after⟩ := commit_crash recorded empty writes
  exact ⟨fun early => (Recoverable.recoverAfter positive (Or.inr (before early)) crashes).homes,
    fun late => (Recoverable.recoverAfter positive (after late) crashes).homes⟩

/-- A log of two blocks at block 2 and a transaction of ones for block 9: a crash after the log
block is copied loses it, a crash after the header keeps it through two more crashes. -/
theorem commit_crash_atomic_one_block : let log : Log := ⟨2, 2⟩
    let lh : LogHeader := ⟨1, fun _ => 9⟩
    let s : Store BlockNo Block :=
      ⟨fun _ => ⟨fun _ => 0⟩, update (fun _ => none) 9 (some ⟨fun _ => 1⟩)⟩
    recoverAfter log ((commit log lh).crash s 1) [1] 9 = ⟨fun _ => 0⟩ ∧
    recoverAfter log ((commit log lh).crash s 2) [0, 1] 9 = ⟨fun _ => 1⟩ := by
  intro log lh s
  have outside : log.Outside 9 := by unfold Log.Outside; decide
  have recorded : Recorded log lh := ⟨by decide, by decide, fun _ _ => outside⟩
  have empty : (s.disk log.start).word 0 = 0 := by decide
  have point := commitPoint_eq log lh s
  exact ⟨(commit_crash_atomic log lh s recorded empty 1 [1]).1 (by rw [point]; decide) 9 outside,
    (commit_crash_atomic log lh s recorded empty 2 [0, 1]).2 (by rw [point]) 9 outside⟩

end DeisoXv6.RedoLog
