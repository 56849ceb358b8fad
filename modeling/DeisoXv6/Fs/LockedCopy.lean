import DeisoXv6.Vm.Prefault

/-! The copies that wait, the pipes and the console make with a spin lock held, byte by byte or at once:
when they come to a page that has to be read from a file, sched panics. -/

set_option autoImplicit false

namespace DeisoXv6

open List Function Semantics

/-- A copy of `m` bytes from `addr` on comes to a page that has to be read from a file. -/
def Sys.Stuck (s : Sys) (root : PageNo) (addr m : Nat) : Prop :=
  ∃ i < m, s.Sticks root (addr / PGSIZE) ((addr + i) / PGSIZE)

structure Passed (root : PageNo) (addr : Nat) (s : Sys) (g' : Layout) (s' : Sys) : Prop where
  prepared : Prepared g' s' root
  low : addr < MAXVA
  locks : s'.spinlocks = s.spinlocks
  proc : s'.proc = s.proc
  current : s'.current = s.current
  pipe : s'.pipe = s.pipe
  stuck : ∀ m, s.Stuck root addr (m + 1) ↔ s'.Stuck root (addr + 1) m

variable {g : Layout} {s s' : Sys} {root : PageNo} {addr m : Nat}

section Byte

variable {g' : Layout} {page : PageNo} {n : Nat} {ch : UInt8}

theorem Sys.Stuck.mono (stuck : s.Stuck root addr m) (le : m ≤ n) : s.Stuck root addr n := by
  obtain ⟨i, less, sticks⟩ := stuck
  exact ⟨i, less.trans_le le, sticks⟩

theorem not_stuck_zero : ¬s.Stuck root addr 0 := fun ⟨_, less, _⟩ => absurd less (Nat.not_lt_zero _)

theorem stuck_aside {pipe : PageNo → Pipe} {spinlocks : Nat} :
    { s with pipe, spinlocks }.Stuck root addr m ↔ s.Stuck root addr m :=
  exists_congr fun _ => and_congr_right fun _ => sticks_aside

theorem page_succ (addr : Nat) : (addr + 1) / PGSIZE = addr / PGSIZE ∨ (addr + 1) / PGSIZE = addr / PGSIZE + 1 := by
  unfold PGSIZE
  omega

theorem Maps.stuck (maps : Maps root (addr / PGSIZE) page g s g' s') (prepared : Prepared g s root)
    (opened : s.Open root (addr / PGSIZE * PGSIZE)) (calm : ¬s.Sticks root (addr / PGSIZE) (addr / PGSIZE)) :
    s.Stuck root addr (m + 1) ↔ s'.Stuck root (addr + 1) m := by
  have present : s'.Present root (addr / PGSIZE * PGSIZE) :=
    maps.covers.present _ (Finset.mem_singleton_self _)
  have again : s'.Open root (addr / PGSIZE * PGSIZE) :=
    ⟨opened.low, maps.covers.vmaAt _ ▸ opened.vma, fun _ => maps.user⟩
  have data : g'.Data (pte2pa (s'.entry root (addr / PGSIZE * PGSIZE))) := by
    rw [maps.place prepared.clean]
    exact maps.data
  have stays := Maps.present_already maps.tables again present data
  rw [Nat.mul_div_cancel _ (by decide)] at stays
  have onward : ∀ q, addr / PGSIZE < q →
      (s.Sticks root (addr / PGSIZE) q ↔ s'.Sticks root ((addr + 1) / PGSIZE) q) := by
    intro q after
    rcases page_succ addr with same | next
    · rw [same, maps.sticks opened after, stays.sticks again after]
    · rw [next, maps.sticks opened after]
  constructor
  · rintro ⟨i, less, sticks⟩
    cases i with
    | zero => exact absurd sticks calm
    | succ i =>
      refine ⟨i, by omega, ?_⟩
      rw [show addr + 1 + i = addr + (i + 1) by omega]
      rcases Nat.eq_or_lt_of_le (Nat.div_le_div_right (Nat.le_add_right addr (i + 1))) with here | after
      · rw [← here] at sticks
        exact absurd sticks calm
      · exact (onward _ after).mp sticks
  · rintro ⟨i, less, sticks⟩
    rw [show addr + 1 + i = addr + (i + 1) by omega] at sticks
    refine ⟨i + 1, by omega, ?_⟩
    rcases Nat.eq_or_lt_of_le (Nat.div_le_div_right (Nat.le_add_right addr (i + 1))) with here | after
    · rw [← here] at sticks
      exact absurd present sticks.absent
    · exact (onward _ after).mpr sticks

theorem low_of_page (low : addr / PGSIZE * PGSIZE < MAXVA) : addr < MAXVA := by
  unfold PGSIZE MAXVA at *
  omega

theorem Maps.passed (maps : Maps root (addr / PGSIZE) page g s g' s') (prepared : Prepared g s root)
    (opened : s.Open root (addr / PGSIZE * PGSIZE)) (calm : ¬s.Sticks root (addr / PGSIZE) (addr / PGSIZE)) :
    Passed root addr s g' s' := by
  refine ⟨prepared.maps maps, low_of_page opened.low, maps.files.spinlocks, ?_, maps.files.current, ?_,
    fun m => maps.stuck prepared opened calm⟩
  · rw [maps.rest]
  · rw [maps.rest]

theorem Passed.store {off : Nat} {bytes : List UInt8} (passed : Passed root addr s g' s')
    (data : g'.Data page) : Passed root addr s g' (s'.store page off bytes) := by
  refine ⟨passed.prepared.store data, passed.low, passed.locks, passed.proc, passed.current, passed.pipe,
    fun m => (passed.stuck m).trans ?_⟩
  exact exists_congr fun i => and_congr_right fun _ => (passed.prepared.tables.sticks_store data passed.prepared.known).symm

inductive ByteCopy (root : PageNo) (addr : Nat) (s : Sys) {α : Type} (copy : KernelM α) (refused : α)
    (copied : α → Prop) : Prop where
  | panics (fails : Fails copy s (.panic .sched)) (stuck : ∀ m, s.Stuck root addr (m + 1))
  | refuses (s' : Sys) (run : Returns copy s refused s') (never : ∀ m, ¬s.Stuck root addr m)
  | passes (g' : Layout) (s' : Sys) (a : α) (run : Returns copy s a s') (good : copied a)
      (passed : Passed root addr s g' s')

theorem stuck_of_sticks (sticks : s.Sticks root (addr / PGSIZE) (addr / PGSIZE)) (m : Nat) :
    s.Stuck root addr (m + 1) := ⟨0, Nat.succ_pos m, sticks⟩

theorem never_stuck (never : ∀ q, addr / PGSIZE ≤ q → ¬s.Sticks root (addr / PGSIZE) q) (m : Nat) :
    ¬s.Stuck root addr m := fun ⟨i, _, sticks⟩ =>
  never _ (Nat.div_le_div_right (Nat.le_add_right addr i)) sticks

theorem copyout_byte (prepared : Prepared g s root) (held : s.spinlocks ≠ 0) :
    ByteCopy root addr s (copyout root addr [ch]) (0, false) (fun r => r.2 = true) := by
  rw [copyout, length_singleton, copyoutLoop, if_neg (cons_ne_nil ch [])]
  dsimp only
  rw [pgrounddown_eq_mul]
  generalize addr - addr / PGSIZE * PGSIZE = off
  generalize min (PGSIZE - off) [ch].length = k
  rcases walkaddr_locked prepared held (addr / PGSIZE) with ⟨fails, sticks⟩ | ⟨s', run, never⟩ |
    ⟨page, g', s', run, opened, calm, maps⟩
  · exact .panics (fails_bind.mpr (.inl fails)) (stuck_of_sticks sticks)
  · exact .refuses s' (returns_bind.mpr ⟨none, s', run, returns_pure.mpr ⟨rfl, rfl⟩⟩) (never_stuck never)
  · refine .passes g' (s'.store page off ([ch].take k)) (k, true)
      (returns_bind.mpr ⟨some page, s', run, returns_modify_bind.mpr (returns_pure.mpr ⟨rfl, rfl⟩)⟩) rfl
      ((maps.passed prepared opened calm).store maps.data)

theorem copyin_byte (prepared : Prepared g s root) (held : s.spinlocks ≠ 0) :
    ByteCopy root addr s (copyin root addr 1) ([], false) (fun r => ∃ ch, r = ([ch], true)) := by
  unfold copyin copyinLoop
  rw [if_neg Nat.one_ne_zero]
  dsimp only
  rw [pgrounddown_eq_mul]
  have room : min (PGSIZE - (addr - addr / PGSIZE * PGSIZE)) 1 = 1 := by
    unfold PGSIZE
    omega
  rcases walkaddr_locked prepared held (addr / PGSIZE) with ⟨fails, sticks⟩ | ⟨s', run, never⟩ |
    ⟨page, g', s', run, opened, calm, maps⟩
  · exact .panics (fails_bind.mpr (.inl fails)) (stuck_of_sticks sticks)
  · exact .refuses s' (returns_bind.mpr ⟨none, s', run, returns_pure.mpr ⟨rfl, rfl⟩⟩) (never_stuck never)
  · refine .passes g' s' ([s'.mem page (addr - addr / PGSIZE * PGSIZE)], true)
      (returns_bind.mpr ⟨some page, s', run, returns_get_bind.mpr ?_⟩) ⟨_, rfl⟩
      (maps.passed prepared opened calm)
    rw [room]
    exact returns_pure.mpr ⟨rfl, rfl⟩

end Byte

section Loops

variable {pi : PageNo} {n fuel : Nat} {wakes : List Pipe}

theorem u64_succ (low : addr < MAXVA) : u64 (addr + 1) = addr + 1 := by
  unfold MAXVA at low
  unfold u64
  omega

section Turn

variable {α β : Type} {copy : KernelM α} {refused : α} {copied : α → Prop} {next : α → KernelM β}

theorem ByteCopy.stuck_of_fails (turn : ByteCopy root addr s copy refused copied)
    (stops : ∀ s', ¬Fails (next refused) s' (.panic .sched))
    (goes : ∀ g' s' a, copied a → Passed root addr s g' s' → Fails (next a) s' (.panic .sched) →
      s'.Stuck root (addr + 1) m) (fails : Fails (copy >>= next) s (.panic .sched)) : s.Stuck root addr (m + 1) := by
  cases turn with
  | panics _ stuck => exact stuck m
  | refuses s' run _ => exact absurd ((fails_bind_of_returns run).mp fails) (stops s')
  | passes g' s' a run good passed =>
    exact (passed.stuck m).mpr (goes g' s' a good passed ((fails_bind_of_returns run).mp fails))

theorem ByteCopy.fails_of_stuck (turn : ByteCopy root addr s copy refused copied)
    (goes : ∀ g' s' a, copied a → Passed root addr s g' s' → s'.Stuck root (addr + 1) m →
      Fails (next a) s' (.panic .sched))
    (stuck : s.Stuck root addr (m + 1)) : Fails (copy >>= next) s (.panic .sched) := by
  cases turn with
  | panics fails _ => exact fails_bind.mpr (.inl fails)
  | refuses _ _ never => exact absurd stuck (never _)
  | passes g' s' a run good passed =>
    exact (fails_bind_of_returns run).mpr (goes g' s' a good passed ((passed.stuck m).mp stuck))

end Turn

theorem pipereadLoop_fails (prepared : Prepared g s root) (held : s.spinlocks ≠ 0)
    (mine : s.pagetable = root) : Fails (pipereadLoop pi n addr) s (.panic .sched) ↔
      s.Stuck root addr (min n (s.pipe pi).data.length) := by
  induction n generalizing g s addr with
  | zero =>
    rw [Nat.zero_min]
    exact iff_of_false fails_pure not_stuck_zero
  | succ n ih =>
    unfold pipereadLoop
    rw [fails_get_bind]
    split
    · rename_i empty
      rw [empty, length_nil, Nat.min_zero]
      exact iff_of_false fails_pure not_stuck_zero
    · rename_i ch rest data
      rw [fails_modify_bind, mine, data, length_cons, Nat.succ_min_succ]
      have prepared' : Prepared g (s.setPipe pi (s.pipe pi).pop) root := prepared.aside
      have turn : ByteCopy root addr (s.setPipe pi (s.pipe pi).pop) (copyout root addr [ch]) (0, false)
          fun r => r.2 = true := copyout_byte prepared' held
      have onward : ∀ (g' : Layout) (s' : Sys) (a : Nat × Bool), a.2 = true →
          Passed root addr (s.setPipe pi (s.pipe pi).pop) g' s' →
          (Fails (if a.2 then (· + 1) <$> pipereadLoop pi n (u64 (addr + 1)) else pure 0) s' (.panic .sched) ↔
            s'.Stuck root (addr + 1) (min n rest.length)) := by
        intro g' s' a good passed
        have popped : (s'.pipe pi).data = rest := by simp [passed.pipe, Sys.setPipe, Pipe.pop, data]
        have mine' : s'.pagetable = root := by
          rw [Sys.pagetable, passed.proc, passed.current]
          exact mine
        rw [if_pos good, fails_map, u64_succ passed.low, ih passed.prepared (passed.locks ▸ held) mine', popped]
      rw [← stuck_aside (s := s)]
      refine ⟨fun fails => turn.stuck_of_fails ?_ (fun g' s' a good passed => (onward g' s' a good passed).mp) fails,
        turn.fails_of_stuck fun g' s' a good passed => (onward g' s' a good passed).mpr⟩
      exact fun _ => fails_pure

theorem setPipe_self {pipe : Pipe} : (s.setPipe pi pipe).pipe pi = pipe := update_self ..

/-- The bytes that a reader of the pipe can get with one call. -/
def Sys.pipeBytes (s : Sys) (pi : PageNo) : Nat :=
  if (s.pipe pi).data = [] ∧ (s.pipe pi).writeopen = true then
    if s.killed then 0 else PIPESIZE
  else (s.pipe pi).data.length

theorem pipeAwait_fails : ¬Fails (pipeAwait pi wakes) s (.panic .sched) := by
  induction wakes generalizing s with
  | nil =>
    unfold pipeAwait
    rw [fails_get_bind]
    split
    · split
      · exact fails_pure
      · rw [fails_throw]
        exact fun wrong => nomatch wrong
    · exact fails_pure
  | cons next wakes ih =>
    unfold pipeAwait
    rw [fails_get_bind]
    split
    · split
      · exact fails_pure
      · rw [fails_modify_bind]
        exact ih
    · exact fails_pure

theorem pipeAwait_within {b : Bool} (run : Returns (pipeAwait pi wakes) s b s') : ∃ pipe, s' = s.setPipe pi pipe := by
  have same : s.setPipe pi (s.pipe pi) = s := by rw [Sys.setPipe, update_eq_self]
  induction wakes generalizing s with
  | nil =>
    unfold pipeAwait at run
    rw [returns_get_bind] at run
    split at run
    · split at run
      · exact ⟨s.pipe pi, (returns_pure.mp run).2.trans same.symm⟩
      · exact absurd run returns_throw
    · exact ⟨s.pipe pi, (returns_pure.mp run).2.trans same.symm⟩
  | cons next wakes ih =>
    unfold pipeAwait at run
    rw [returns_get_bind] at run
    split at run
    · split at run
      · exact ⟨s.pipe pi, (returns_pure.mp run).2.trans same.symm⟩
      · rw [returns_modify_bind] at run
        obtain ⟨pipe, later⟩ := ih run (by rw [Sys.setPipe, update_eq_self])
        refine ⟨pipe, later.trans ?_⟩
        unfold Sys.setPipe
        rw [update_idem]
    · exact ⟨s.pipe pi, (returns_pure.mp run).2.trans same.symm⟩

theorem pipeAwait_returns (run : Returns (pipeAwait pi wakes) s true s') :
    ∃ pipe, s' = s.setPipe pi pipe ∧ pipe.data.length ≤ s.pipeBytes pi := by
  obtain ⟨pipe, rfl⟩ := pipeAwait_within run
  refine ⟨pipe, rfl, ?_⟩
  unfold pipeAwait at run
  rw [returns_get_bind] at run
  unfold Sys.pipeBytes
  split at run
  · rename_i waits
    split at run
    · exact absurd (returns_pure.mp run).1 (by simp)
    · rename_i alive
      rw [if_pos waits, if_neg alive]
      exact pipe.fits
  · rename_i there
    have same := congrArg (fun t => (t.pipe pi).data.length) (returns_pure.mp run).2
    rw [if_neg there, ← same, setPipe_self]

def Pipe.full : Pipe := ⟨List.replicate PIPESIZE 0, Nat.le_of_eq length_replicate, true, true⟩

theorem pipeAwait_offers (offers : s.pipeBytes pi ≠ 0) :
    ∃ wakes pipe, Returns (pipeAwait pi wakes) s true (s.setPipe pi pipe) ∧ pipe.data.length = s.pipeBytes pi := by
  unfold Sys.pipeBytes at offers ⊢
  by_cases waits : (s.pipe pi).data = [] ∧ (s.pipe pi).writeopen = true
  · rw [if_pos waits] at offers ⊢
    have alive : ¬s.killed = true := fun killed => offers (if_pos killed)
    rw [if_neg alive]
    refine ⟨[.full], .full, ?_, length_replicate⟩
    have there : ¬(((s.setPipe pi .full).pipe pi).data = [] ∧ ((s.setPipe pi .full).pipe pi).writeopen = true) := by
      rw [setPipe_self]
      exact fun wrong => absurd wrong.1 (by decide)
    unfold pipeAwait
    rw [returns_get_bind, if_pos waits, if_neg alive, returns_modify_bind]
    unfold pipeAwait
    rw [returns_get_bind, if_neg there]
    exact returns_pure.mpr ⟨rfl, rfl⟩
  · rw [if_neg waits]
    refine ⟨[], s.pipe pi, ?_, rfl⟩
    unfold pipeAwait
    rw [returns_get_bind, if_neg waits, Sys.setPipe, update_eq_self]
    exact returns_pure.mpr ⟨rfl, rfl⟩

theorem piperead_fails {n : Int} (prepared : Prepared g s root) (mine : s.pagetable = root) :
    (∃ wakes, Fails (piperead pi addr n wakes) s (.panic .sched)) ↔
      s.Stuck root addr (min n.toNat (s.pipeBytes pi)) := by
  have loop (pipe : Pipe) : Fails (pipereadLoop pi n.toNat addr) (s.locked.setPipe pi pipe) (.panic .sched) ↔
      s.Stuck root addr (min n.toNat pipe.data.length) := by
    have prepared' : Prepared g (s.locked.setPipe pi pipe) root := prepared.aside
    rw [pipereadLoop_fails prepared' (Nat.succ_ne_zero _) mine, setPipe_self]
    exact stuck_aside (s := s)
  unfold piperead acquire
  simp only [fails_modify_bind]
  constructor
  · rintro ⟨wakes, fails⟩
    rcases fails_bind.mp fails with wrong | ⟨b, s', awaited, later⟩
    · exact absurd wrong pipeAwait_fails
    · split at later
      · rename_i good
        rw [good] at awaited
        obtain ⟨pipe, rfl, bound⟩ := pipeAwait_returns awaited
        rcases fails_bind.mp later with fails | ⟨_, _, -, wrong⟩
        · refine ((loop pipe).mp fails).mono (min_le_min_left _ ?_)
          exact bound
        · exact absurd wrong (Never.bind .modify (fun _ => .pure) _ _)
      · exact absurd later (Never.bind .modify (fun _ => .pure) _ _)
  · intro stuck
    have offers : s.locked.pipeBytes pi ≠ 0 := by
      intro none
      change s.pipeBytes pi = 0 at none
      rw [none, Nat.min_zero] at stuck
      exact not_stuck_zero stuck
    obtain ⟨wakes, pipe, awaited, bytes⟩ := pipeAwait_offers offers
    refine ⟨wakes, (fails_bind_of_returns awaited).mpr ?_⟩
    rw [if_pos rfl]
    refine fails_bind.mpr (.inl ((loop pipe).mpr ?_))
    rw [bytes]
    exact stuck

theorem Passed.pagetable {g' : Layout} (passed : Passed root addr s g' s') : s'.pagetable = s.pagetable := by
  rw [Sys.pagetable, passed.proc, passed.current]
  rfl

theorem Passed.killed {g' : Layout} (passed : Passed root addr s g' s') : s'.killed = s.killed := by
  rw [Sys.killed, passed.proc, passed.current]
  rfl

theorem pipewriteLoop_stuck (prepared : Prepared g s root) (held : s.spinlocks ≠ 0)
    (mine : s.pagetable = root) (fails : Fails (pipewriteLoop pi fuel addr n wakes) s (.panic .sched)) :
    s.Stuck root addr n := by
  induction fuel generalizing g s addr n wakes with
  | zero => exact absurd fails fails_pure
  | succ fuel ih =>
    unfold pipewriteLoop at fails
    split at fails
    · exact absurd fails fails_pure
    · rename_i more
      obtain ⟨m, rfl⟩ := Nat.exists_eq_succ_of_ne_zero more
      rw [fails_get_bind] at fails
      split at fails
      · exact absurd fails fails_pure
      · split at fails
        · rename_i room
          rw [mine] at fails
          refine (copyin_byte prepared held).stuck_of_fails ?_ ?_ fails
          · exact fun _ => fails_pure
          · rintro g' s' a ⟨ch, rfl⟩ passed later
            dsimp only at later
            rw [fails_modify_bind, fails_map, u64_succ passed.low] at later
            have prepared' : Prepared g' (s'.setPipe pi ((s.pipe pi).push ch room)) root :=
              passed.prepared.aside
            have stuck := ih prepared' (passed.locks ▸ held) (passed.pagetable.trans mine) later
            exact (stuck_aside (s := s')).mp stuck
        · split at fails
          · exact absurd (fails_throw.mp fails) (by simp)
          · rename_i next rest
            rw [fails_modify_bind] at fails
            have prepared' : Prepared g (s.setPipe pi next) root := prepared.aside
            exact (stuck_aside (s := s)).mp (ih prepared' held mine fails)

def Pipe.empty : Pipe := ⟨[], Nat.zero_le _, true, true⟩

theorem pipewriteLoop_panics {k : Nat} (prepared : Prepared g s root) (held : s.spinlocks ≠ 0)
    (mine : s.pagetable = root) (alive : s.killed = false) (reader : (s.pipe pi).readopen = true)
    (wake : n ≤ k) (enough : 2 * n ≤ fuel) (stuck : s.Stuck root addr n) :
    Fails (pipewriteLoop pi fuel addr n (List.replicate k .empty)) s (.panic .sched) := by
  induction n generalizing g s addr fuel k with
  | zero => exact absurd stuck not_stuck_zero
  | succ n ih =>
    -- a turn that finds room
    have turn : ∀ {t : Sys} {fuel k : Nat}, Prepared g t root → t.spinlocks ≠ 0 → t.pagetable = root →
        t.killed = false → (t.pipe pi).readopen = true → (t.pipe pi).data.length ≠ PIPESIZE → n ≤ k →
        2 * n + 1 ≤ fuel → t.Stuck root addr (n + 1) →
        Fails (pipewriteLoop pi fuel addr (n + 1) (List.replicate k .empty)) t (.panic .sched) := by
      intro t fuel k prepared held mine alive reader room wake enough stuck
      obtain ⟨fuel, rfl⟩ := Nat.exists_eq_succ_of_ne_zero (show fuel ≠ 0 by omega)
      have goes : ¬((t.pipe pi).readopen = false ∨ t.killed = true) := by
        rw [alive, reader]
        simp
      unfold pipewriteLoop
      rw [if_neg (Nat.succ_ne_zero n), fails_get_bind, if_neg goes, dif_pos room, mine]
      refine (copyin_byte prepared held).fails_of_stuck ?_ stuck
      rintro g' s' a ⟨ch, rfl⟩ passed stuck
      dsimp only
      rw [fails_modify_bind, fails_map, u64_succ passed.low]
      have prepared' : Prepared g' (s'.setPipe pi ((t.pipe pi).push ch room)) root := passed.prepared.aside
      refine ih prepared' (passed.locks ▸ held) (passed.pagetable.trans mine) (passed.killed.trans alive) ?_
        wake (by omega) ((stuck_aside (s := s')).mpr stuck)
      rw [setPipe_self]
      exact reader
    by_cases room : (s.pipe pi).data.length ≠ PIPESIZE
    · exact turn prepared held mine alive reader room (by omega) (by omega) stuck
    · obtain ⟨fuel, rfl⟩ := Nat.exists_eq_succ_of_ne_zero (show fuel ≠ 0 by omega)
      obtain ⟨k, rfl⟩ := Nat.exists_eq_succ_of_ne_zero (show k ≠ 0 by omega)
      have goes : ¬((s.pipe pi).readopen = false ∨ s.killed = true) := by
        rw [alive, reader]
        simp
      unfold pipewriteLoop
      rw [if_neg (Nat.succ_ne_zero n), fails_get_bind, if_neg goes, dif_neg room, replicate_succ]
      dsimp only
      rw [fails_modify_bind]
      have prepared' : Prepared g (s.setPipe pi .empty) root := prepared.aside
      refine turn prepared' held mine alive ?_ ?_ (by omega) (by omega) ((stuck_aside (s := s)).mpr stuck)
      · rw [setPipe_self]
        rfl
      · rw [setPipe_self]
        decide

/-- The bytes that a writer to the pipe can give with one call. -/
def Sys.pipeTakes (s : Sys) (pi : PageNo) (n : Nat) : Nat :=
  if (s.pipe pi).readopen = false ∨ s.killed = true then 0 else n

theorem pipewriteLoop_gone (gone : (s.pipe pi).readopen = false ∨ s.killed = true) :
    ¬Fails (pipewriteLoop pi fuel addr n wakes) s (.panic .sched) := by
  cases fuel with
  | zero => exact fails_pure
  | succ fuel =>
    unfold pipewriteLoop
    split
    · exact fails_pure
    · rw [fails_get_bind, if_pos gone]
      exact fails_pure

theorem pipewrite_fails {n : Int} (prepared : Prepared g s root) (mine : s.pagetable = root) :
    (∃ wakes, Fails (pipewrite pi addr n wakes) s (.panic .sched)) ↔ s.Stuck root addr (s.pipeTakes pi n.toNat) := by
  have prepared' : Prepared g s.locked root := prepared.aside
  have held : s.locked.spinlocks ≠ 0 := Nat.succ_ne_zero _
  unfold pipewrite acquire Sys.pipeTakes
  simp only [fails_modify_bind]
  constructor
  · rintro ⟨wakes, fails⟩
    rcases fails_bind.mp fails with loop | ⟨_, _, -, wrong⟩
    · split
      · rename_i gone
        exact absurd loop (pipewriteLoop_gone (s := s.locked) gone)
      · exact (stuck_aside (s := s)).mp (pipewriteLoop_stuck prepared' held mine loop)
    · exact absurd wrong (Never.bind .modify (fun _ => .pure) _ _)
  · intro stuck
    split at stuck
    · exact absurd stuck not_stuck_zero
    · rename_i goes
      rw [not_or, Bool.not_eq_false, Bool.not_eq_true] at goes
      refine ⟨List.replicate n.toNat .empty, fails_bind.mpr (.inl ?_)⟩
      rw [length_replicate]
      exact pipewriteLoop_panics prepared' held mine goes.2 goes.1 (le_rfl) (by omega)
        ((stuck_aside (s := s)).mpr stuck)

variable {lines : List (List UInt8)}

theorem consolereadLoop_stuck {input : List UInt8} (prepared : Prepared g s root)
    (held : s.spinlocks ≠ 0) (mine : s.pagetable = root)
    (fails : Fails (consolereadLoop fuel addr n input lines) s (.panic .sched)) : s.Stuck root addr n := by
  induction fuel generalizing g s addr n input lines with
  | zero => exact absurd fails fails_pure
  | succ fuel ih =>
    unfold consolereadLoop at fails
    split at fails
    · exact absurd fails fails_pure
    · rename_i more
      obtain ⟨m, rfl⟩ := Nat.exists_eq_succ_of_ne_zero more
      split at fails
      · rw [fails_get_bind] at fails
        split at fails
        · exact absurd fails fails_pure
        · split at fails
          · exact absurd (fails_throw.mp fails) (by simp)
          · exact ih prepared held mine fails
      · split at fails
        · exact absurd fails fails_pure
        · rw [fails_get_bind, mine] at fails
          refine (copyout_byte prepared held).stuck_of_fails ?_ ?_ fails
          · exact fun _ => fails_pure
          · intro g' s' a good passed later
            rw [if_pos good] at later
            split at later
            · exact absurd later fails_pure
            · rw [fails_map, u64_succ passed.low] at later
              exact ih passed.prepared (passed.locks ▸ held) (passed.pagetable.trans mine) later

theorem consolereadLoop_panics (prepared : Prepared g s root)
    (held : s.spinlocks ≠ 0) (mine : s.pagetable = root) (enough : n ≤ fuel) (stuck : s.Stuck root addr n) :
    Fails (consolereadLoop fuel addr n (List.replicate n 0) lines) s (.panic .sched) := by
  induction n generalizing g s addr fuel with
  | zero => exact absurd stuck not_stuck_zero
  | succ n ih =>
    obtain ⟨fuel, rfl⟩ := Nat.exists_eq_succ_of_ne_zero (show fuel ≠ 0 by omega)
    unfold consolereadLoop
    rw [if_neg (Nat.succ_ne_zero n), replicate_succ]
    dsimp only
    rw [if_neg (by decide), fails_get_bind, mine]
    refine (copyout_byte prepared held).fails_of_stuck ?_ stuck
    intro g' s' a good passed stuck
    rw [if_pos good, if_neg (by decide), fails_map, u64_succ passed.low]
    exact ih passed.prepared (passed.locks ▸ held) (passed.pagetable.trans mine) (by omega) stuck

theorem consoleread_fails {n : Int} (prepared : Prepared g s root) (mine : s.pagetable = root) :
    (∃ input lines, Fails (consoleread addr n input lines) s (.panic .sched)) ↔ s.Stuck root addr n.toNat := by
  have prepared' : Prepared g s.locked root := prepared.aside
  have held : s.locked.spinlocks ≠ 0 := Nat.succ_ne_zero _
  unfold consoleread acquire
  simp only [fails_modify_bind]
  constructor
  · rintro ⟨input, lines, fails⟩
    rcases fails_bind.mp fails with loop | ⟨_, _, -, wrong⟩
    · exact (stuck_aside (s := s)).mp (consolereadLoop_stuck prepared' held mine loop)
    · exact absurd wrong (Never.bind .modify (fun _ => .pure) _ _)
  · intro stuck
    refine ⟨List.replicate n.toNat 0, [], fails_bind.mpr (.inl ?_)⟩
    exact consolereadLoop_panics prepared' held mine (Nat.le_add_right ..) ((stuck_aside (s := s)).mpr stuck)

theorem Maps.stuck_turn {g' : Layout} {page : PageNo} {len : Nat}
    (maps : Maps root (addr / PGSIZE) page g s g' s') (opened : s.Open root (addr / PGSIZE * PGSIZE))
    (calm : ¬s.Sticks root (addr / PGSIZE) (addr / PGSIZE)) (size : min (PGSIZE - addr % PGSIZE) len = n) :
    s'.Stuck root ((addr / PGSIZE + 1) * PGSIZE) (len - n) ↔ s.Stuck root addr len := by
  have next : (addr / PGSIZE + 1) * PGSIZE / PGSIZE = addr / PGSIZE + 1 := Nat.mul_div_cancel _ (by decide)
  constructor
  · rintro ⟨i, less, sticks⟩
    have later : PGSIZE - addr % PGSIZE ≤ i + (PGSIZE - addr % PGSIZE) := Nat.le_add_left ..
    have place := add_of_ge later
    rw [Nat.add_sub_cancel] at place
    rw [next, place, ← maps.sticks opened (page_of_ge later)] at sticks
    exact ⟨i + (PGSIZE - addr % PGSIZE), by omega, sticks⟩
  · rintro ⟨i, less, sticks⟩
    by_cases first : i < PGSIZE - addr % PGSIZE
    · rw [page_of_lt first] at sticks
      exact absurd sticks calm
    · have later : PGSIZE - addr % PGSIZE ≤ i := Nat.le_of_not_lt first
      refine ⟨i - (PGSIZE - addr % PGSIZE), by omega, ?_⟩
      rw [next, add_of_ge later, ← maps.sticks opened (page_of_ge later)]
      exact sticks

theorem copyoutLoop_fails {src : List UInt8} (prepared : Prepared g s root) (held : s.spinlocks ≠ 0)
    (enough : src.length ≤ fuel) :
    Fails (copyoutLoop root fuel addr src) s (.panic .sched) ↔ s.Stuck root addr src.length := by
  induction fuel generalizing g s addr src with
  | zero =>
    rw [Nat.le_zero.mp enough]
    exact iff_of_false fails_pure not_stuck_zero
  | succ fuel ih =>
    unfold copyoutLoop
    split
    · rename_i empty
      rw [empty]
      exact iff_of_false fails_pure not_stuck_zero
    · rename_i more
      have positive : 0 < src.length := length_pos_iff.mpr more
      dsimp only
      rw [pgrounddown_eq_mul]
      rcases walkaddr_locked prepared held (addr / PGSIZE) with ⟨fails, sticks⟩ | ⟨s', run, never⟩ |
        ⟨page, g', s', run, opened, calm, maps⟩
      · exact iff_of_true (fails_bind.mpr (.inl fails)) ⟨0, positive, sticks⟩
      · rw [fails_bind_of_returns run]
        exact iff_of_false fails_pure (never_stuck never _)
      · have room : 0 < PGSIZE - addr % PGSIZE := Nat.sub_pos_of_lt (Nat.mod_lt _ (by decide))
        rw [fails_bind_of_returns run, fails_modify_bind, ← pgrounddown_eq_mul, sub_pgrounddown,
          pgrounddown_eq_mul, next_page opened.low]
        generalize size : min (PGSIZE - addr % PGSIZE) src.length = n
        have prepared' : Prepared g' (s'.store page (addr % PGSIZE) (src.take n)) root :=
          (prepared.maps maps).store maps.data
        rw [fails_bind, ih prepared' (maps.files.spinlocks ▸ held) (by rw [length_drop]; omega),
          length_drop, ← maps.stuck_turn opened calm size]
        refine (or_iff_left ?_).trans ?_
        · rintro ⟨_, _, -, wrong⟩
          exact fails_pure wrong
        · exact exists_congr fun i => and_congr_right fun _ => maps.tables.sticks_store maps.data (prepared.maps maps).known

theorem waitCopy_fails {xstate : List UInt8} (prepared : Prepared g s root) (mine : s.pagetable = root) :
    Fails (waitCopy addr xstate) s (.panic .sched) ↔ addr ≠ 0 ∧ s.Stuck root addr xstate.length := by
  have prepared' : Prepared g s.locked.locked root := prepared.aside
  unfold waitCopy acquire
  rw [fails_modify_bind, fails_modify_bind, fails_get_bind]
  split
  · rename_i null
    exact iff_of_false fails_pure fun wrong => wrong.1 null
  · rename_i real
    have copy : Fails (copyout root addr xstate) s.locked.locked (.panic .sched) ↔
        s.locked.locked.Stuck root addr xstate.length :=
      copyoutLoop_fails prepared' (Nat.succ_ne_zero _) (le_rfl)
    have later : ∀ (r : Nat × Bool) s', ¬Fails (if r.2 then pure true else do
        release
        release
        pure false) s' (.panic .sched) := fun _ s' =>
      Never.ite .pure (.bind .modify fun _ => .bind .modify fun _ => .pure) s' _
    have same : s.locked.locked.Stuck root addr xstate.length ↔ s.Stuck root addr xstate.length :=
      stuck_aside (s := s)
    have table : s.locked.locked.pagetable = root := mine
    rw [and_iff_right real, ← same, fails_bind, ← copy, table]
    refine or_iff_left ?_
    rintro ⟨r, s', -, wrong⟩
    exact later r s' wrong

end Loops

/-- After the pages of a buffer of `n` bytes have been asked for, a copy of its first `m` bytes comes to a
page that has to be read from a file. -/
def Sys.Caught (s : Sys) (root : PageNo) (addr n m : Nat) : Prop :=
  ∃ i < m, s.Catches root (s.asked root addr n) (addr / PGSIZE) ((addr + i) / PGSIZE)

section Calls

variable {n : BitVec 32}

theorem size64_of_nonneg (nonneg : 0 ≤ n.toInt) : size64 n.toInt = n.toInt.toNat := by
  have small := BitVec.toInt_lt (x := n)
  unfold size64
  omega

theorem caught_iff {α ω : Type} {m : Nat} {copies : ω → KernelM α} (prepared : Prepared g s s.pagetable)
    (idle : s.spinlocks = 0) (within : m ≤ n.toInt.toNat)
    (stuck : ∀ g' s', Prepared g' s' s.pagetable → Undisturbed s s' →
      ((∃ w, Fails (copies w) s' (.panic .sched)) ↔ s'.Stuck s.pagetable addr m)) :
    (∃ w, Fails (allocrange s.pagetable addr (size64 n.toInt) >>= fun _ => copies w) s (.panic .sched)) ↔
      s.Caught s.pagetable addr n.toInt.toNat m := by
  by_cases usual : addr < MAXVA ∧ 0 ≤ n.toInt
  · obtain ⟨low, nonneg⟩ := usual
    have small := BitVec.toInt_lt (x := n)
    obtain ⟨s', run, prefaulted⟩ := allocrange_prefaults (n := n.toInt.toNat) prepared idle low (by omega)
    obtain ⟨g', prepared', kept⟩ := allocrangeLoop_kept prepared idle run
    rw [size64_of_nonneg nonneg]
    simp only [fails_bind_of_returns run]
    rw [stuck g' s' prepared' kept]
    exact exists_congr fun i => and_congr_right fun _ =>
      prefaulted.sticks kept.files (Nat.div_le_div_right (Nat.le_add_right ..))
  · -- beyond the addresses of users, or with a negative number of bytes, nothing is copied
    refine iff_of_false ?_ ?_
    · rintro ⟨w, fails⟩
      rcases fails_bind.mp fails with wrong | ⟨u, s', run, later⟩
      · exact allocrangeLoop_fails prepared idle wrong
      · obtain ⟨g', prepared', kept⟩ := allocrangeLoop_kept prepared idle run
        obtain ⟨i, less, sticks⟩ := (stuck g' s' prepared' kept).mp ⟨w, later⟩
        have low := low_of_page (sticks.opened _ (le_rfl) (Nat.div_le_div_right (Nat.le_add_right ..))).low
        exact usual ⟨low, by omega⟩
    · rintro ⟨i, less, catches⟩
      have low := low_of_page (catches.opened _ (le_rfl) (Nat.div_le_div_right (Nat.le_add_right ..))).low
      exact usual ⟨low, by omega⟩

theorem Undisturbed.pagetable {s' : Sys} (kept : Undisturbed s s') : s'.pagetable = s.pagetable := by
  rw [Sys.pagetable, kept.proc, kept.files.current]
  rfl

theorem Undisturbed.pipeBytes {s' : Sys} {pi : PageNo} (kept : Undisturbed s s') : s'.pipeBytes pi = s.pipeBytes pi := by
  unfold Sys.pipeBytes Sys.killed
  rw [kept.pipe, kept.proc, kept.files.current]

theorem Undisturbed.pipeTakes {s' : Sys} {pi : PageNo} {m : Nat} (kept : Undisturbed s s') :
    s'.pipeTakes pi m = s.pipeTakes pi m := by
  unfold Sys.pipeTakes Sys.killed
  rw [kept.pipe, kept.proc, kept.files.current]

variable {f : FileId}

theorem exists_pipes (P : List Pipe → Prop) : (∃ pipes, P pipes) ↔ ∃ wakes : Wakes, P wakes.pipes :=
  Function.Surjective.exists fun pipes => ⟨⟨pipes, [], []⟩, rfl⟩

section

variable (prepared : Prepared g s s.pagetable) (idle : s.spinlocks = 0)

include prepared idle

theorem fileread_pipe_fails (type : (s.file f).type = .pipe) :
    (∃ wakes, Fails (fileread f addr n.toInt wakes) s (.panic .sched)) ↔ (s.file f).readable = true ∧
      s.Caught s.pagetable addr n.toInt.toNat (min n.toInt.toNat (s.pipeBytes (s.file f).pipe)) := by
  unfold fileread
  simp only [fails_get_bind, type]
  by_cases shut : (s.file f).readable = false
  · simp only [if_pos shut, fails_pure, exists_false]
    exact iff_of_false id fun wrong => by simp [shut] at wrong
  · simp only [if_neg shut]
    rw [and_iff_right (by simpa using shut)]
    refine caught_iff prepared idle (Nat.min_le_left ..) fun g' s' prepared' kept => ?_
    rw [← kept.pipeBytes, ← piperead_fails prepared' kept.pagetable]
    rw [exists_pipes]

theorem fileread_console_fails (type : (s.file f).type = .device) (major : (s.file f).major = CONSOLE) :
    (∃ wakes, Fails (fileread f addr n.toInt wakes) s (.panic .sched)) ↔ (s.file f).readable = true ∧
      s.Caught s.pagetable addr n.toInt.toNat n.toInt.toNat := by
  unfold fileread
  simp only [fails_get_bind, type, if_pos major]
  by_cases shut : (s.file f).readable = false
  · simp only [if_pos shut, fails_pure, exists_false]
    exact iff_of_false id fun wrong => by simp [shut] at wrong
  · simp only [if_neg shut]
    rw [and_iff_right (by simpa using shut)]
    refine caught_iff prepared idle (le_rfl) fun g' s' prepared' kept => ?_
    rw [← consoleread_fails prepared' kept.pagetable]
    constructor
    · rintro ⟨wakes, fails⟩
      exact ⟨wakes.input, wakes.lines, fails⟩
    · rintro ⟨input, lines, fails⟩
      exact ⟨⟨[], input, lines⟩, fails⟩

theorem filewrite_pipe_fails (type : (s.file f).type = .pipe) :
    (∃ wakes, Fails (filewrite f addr n.toInt wakes) s (.panic .sched)) ↔ (s.file f).writable = true ∧
      s.Caught s.pagetable addr n.toInt.toNat (s.pipeTakes (s.file f).pipe n.toInt.toNat) := by
  unfold filewrite
  simp only [fails_get_bind, type]
  by_cases shut : (s.file f).writable = false
  · simp only [if_pos shut, fails_pure, exists_false]
    exact iff_of_false id fun wrong => by simp [shut] at wrong
  · simp only [if_neg shut]
    rw [and_iff_right (by simpa using shut)]
    refine caught_iff prepared idle ?_ fun g' s' prepared' kept => ?_
    · unfold Sys.pipeTakes
      split
      · exact Nat.zero_le _
      · exact le_rfl
    · rw [← kept.pipeTakes, ← pipewrite_fails prepared' kept.pagetable]
      rw [exists_pipes]

end

/-- No copy under a spin lock has to read a page from a file, and sched does not panic, exactly when there
is no such page among those that the copy comes to: for wait, which asks for no pages first, from the
start; for the pipes and the console, after allocrange has asked for its pages. -/
theorem locked_copies_iff (prepared : Prepared g s s.pagetable) (idle : s.spinlocks = 0) (addr : Nat) :
    ((∀ xstate : List UInt8, xstate.length = 4 → ¬Fails (waitCopy addr xstate) s (.panic .sched)) ↔
      (addr ≠ 0 → ¬s.Stuck s.pagetable addr 4)) ∧ ∀ (f : FileId) (n : BitVec 32), ((s.file f).type = .pipe →
        ((∀ wakes, ¬Fails (fileread f addr n.toInt wakes) s (.panic .sched)) ↔
          ((s.file f).readable = true → ¬s.Caught s.pagetable addr n.toInt.toNat
            (min n.toInt.toNat (s.pipeBytes (s.file f).pipe)))) ∧
        ((∀ wakes, ¬Fails (filewrite f addr n.toInt wakes) s (.panic .sched)) ↔
          ((s.file f).writable = true → ¬s.Caught s.pagetable addr n.toInt.toNat
            (s.pipeTakes (s.file f).pipe n.toInt.toNat)))) ∧ ((s.file f).type = .device → (s.file f).major = CONSOLE →
        ((∀ wakes, ¬Fails (fileread f addr n.toInt wakes) s (.panic .sched)) ↔
          ((s.file f).readable = true → ¬s.Caught s.pagetable addr n.toInt.toNat n.toInt.toNat))) := by
  refine ⟨?_, fun f n => ⟨fun type => ⟨?_, ?_⟩, fun type major => ?_⟩⟩
  · constructor
    · intro never real stuck
      exact never [0, 0, 0, 0] rfl ((waitCopy_fails prepared rfl).mpr ⟨real, stuck⟩)
    · intro free xstate size fails
      obtain ⟨real, stuck⟩ := (waitCopy_fails prepared rfl).mp fails
      exact free real (size ▸ stuck)
  · rw [← not_exists, fileread_pipe_fails prepared idle type, not_and]
  · rw [← not_exists, filewrite_pipe_fails prepared idle type, not_and]
  · rw [← not_exists, fileread_console_fails prepared idle type major, not_and]

end Calls

def unmappedProcess : Sys :=
  .single ⟨true, 0, 5000, 5000, some 0, 0, PROT_READ ||| PROT_WRITE, MAP_PRIVATE, none⟩
    [0x87ff0, 0x87ff1, 0x87ff2, 0x87ff3]

def pipeProcess : Sys :=
  { unmappedProcess with
    file := update unmappedProcess.file 1 ⟨.pipe, 1, true, false, 0x87ff8, none, 0, 0⟩
    pipe := fun _ => ⟨List.replicate 200 7, length_replicate.trans_le (by decide), true, true⟩ }

/-- wait stores into a page that is not mapped yet; a read of 200 bytes at 4000 crosses into a page that
allocrange has not asked for. -/
theorem locked_copy_panics : WellFormed ([VmaRef.start 0, .slot 0].map fun r => (unmappedProcess.vmas.get r).region) ∧
    Fails (waitCopy 4 [0, 0, 0, 0]) unmappedProcess (.panic .sched) ∧ pipeProcess.vmas = unmappedProcess.vmas ∧
    Fails (fileread 1 4000 200 ⟨[], [], []⟩) pipeProcess (.panic .sched) :=
  ⟨single_wellFormed ⟨by decide, by decide⟩ (by decide), fails_of_failure (by decide +kernel), rfl,
    fails_of_failure (by decide +kernel)⟩

theorem heapProcess_prepared : Prepared (.single heapProcess.freelist) heapProcess heapProcess.pagetable := by
  refine ⟨heapProcess_tables, single_tree _, fun q _ _ present => absurd present single_absent,
    fun vma => (heapProcess_vma vma).2, ⟨_, rfl⟩, fun vma f file => ?_⟩
  rw [(heapProcess_vma vma).1] at file
  contradiction

/-- The heap is not read from a file. -/
theorem heap_copy_returns : heapProcess.spinlocks = 0 ∧ ∀ xstate : List UInt8, xstate.length = 4 →
    ¬Fails (waitCopy PGSIZE xstate) heapProcess (.panic .sched) := by
  refine ⟨rfl, (locked_copies_iff heapProcess_prepared rfl PGSIZE).1.mpr fun _ stuck => ?_⟩
  obtain ⟨i, -, sticks⟩ := stuck
  obtain ⟨vma, -, loads⟩ := sticks.loads
  have file := loads.1
  rw [(heapProcess_vma vma).1] at file
  contradiction

end DeisoXv6
