import DeisoXv6.Proc.Allocproc

/-! What a child gets from its parent besides memory: the registers, the open files and the directory. -/

set_option autoImplicit false

namespace DeisoXv6

open Function Semantics

section Inherit

variable {s s' : Sys} {p np : ProcId} {f : FileId} {fd : Fin NOFILE}

def File.more (file : File) (n : Nat) : File := { file with ref := file.ref + n }

variable {file : File} {u parent : UserProc} {fds : List (Fin NOFILE)} {page : PageNo}

theorem more_zero : file.more 0 = file := by
  simp [File.more]

theorem more_more {n k : Nat} : (file.more n).more k = file.more (n + k) := by
  simp [File.more, Int.add_assoc]

def UserProc.handles (u : UserProc) (fds : List (Fin NOFILE)) (f : FileId) : Nat :=
  fds.countP fun fd => u.ofile fd = some f

def UserProc.withFiles (u parent : UserProc) (fds : List (Fin NOFILE)) : UserProc :=
  { u with ofile := fun fd => if fd ∈ fds then (parent.ofile fd).or (u.ofile fd) else u.ofile fd }

def UserProc.opened (u : UserProc) (fd : Fin NOFILE) (f : FileId) : UserProc :=
  { u with ofile := update u.ofile fd (some f) }

structure FilesCopied (p np : ProcId) (fds : List (Fin NOFILE)) (s s' : Sys) : Prop where
  rest : s' = { s with proc := s'.proc, file := s'.file }
  proc : s'.proc = update s.proc np ((s.proc np).withFiles (s.proc p) fds)
  file : ∀ f, s'.file f = (s.file f).more ((s.proc p).handles fds f)

theorem withFiles_nil : u.withFiles parent [] = u := by
  simp [UserProc.withFiles]

theorem withFiles_closed (closed : parent.ofile fd = none) :
    u.withFiles parent fds = u.withFiles parent (fd :: fds) := by
  unfold UserProc.withFiles
  congr 1
  funext fd'
  by_cases here : fd' = fd
  · subst here
    simp [closed]
  · simp [here]

theorem withFiles_open (opened : parent.ofile fd = some f) :
    (u.opened fd f).withFiles parent fds = u.withFiles parent (fd :: fds) := by
  unfold UserProc.withFiles UserProc.opened
  congr 1
  funext fd'
  by_cases here : fd' = fd
  · subst here
    simp [opened]
  · simp [here]

theorem forkFiles_copied (other : np ≠ p) (run : Returns (forkFiles p np fds) s () s') :
    FilesCopied p np fds s s' := by
  induction fds generalizing s with
  | nil =>
    obtain ⟨-, rfl⟩ := returns_pure.mp run
    refine ⟨rfl, ?_, fun f => more_zero.symm⟩
    rw [withFiles_nil, update_eq_self]
  | cons fd rest ih =>
    unfold forkFiles at run
    rw [returns_get_bind] at run
    cases opened : (s.proc p).ofile fd with
    | none =>
      rw [opened] at run
      have later := ih run
      refine ⟨later.rest, ?_, fun f => ?_⟩
      · rw [later.proc, withFiles_closed opened]
      · rw [later.file, UserProc.handles, UserProc.handles, List.countP_cons_of_neg (by simp [opened])]
    | some f =>
      rw [opened] at run
      obtain ⟨_, s₁, dup, run⟩ := returns_bind.mp run
      obtain ⟨-, rfl⟩ := returns_filedup.mp dup
      rw [returns_modify_bind] at run
      obtain ⟨t, only, procs, files, run⟩ : ∃ t : Sys, t = { s with proc := t.proc, file := t.file } ∧
          t.proc = update s.proc np ((s.proc np).opened fd f) ∧
          t.file = update s.file f ((s.file f).more 1) ∧ Returns (forkFiles p np rest) t () s' :=
        ⟨_, rfl, rfl, rfl, run⟩
      have later := ih run
      have parent : t.proc p = s.proc p := by rw [procs, update_of_ne (Ne.symm other)]
      have child : t.proc np = (s.proc np).opened fd f := by rw [procs, update_self]
      refine ⟨?_, ?_, fun f' => ?_⟩
      · rw [later.rest, only]
      · rw [later.proc, parent, child, procs, update_idem, withFiles_open opened]
      · rw [later.file, parent, files]
        by_cases same : f' = f
        · subst same
          rw [update_self, more_more, UserProc.handles, UserProc.handles,
            List.countP_cons_of_pos (by simp [opened]), Nat.add_comm]
        · rw [update_of_ne same, UserProc.handles, UserProc.handles,
            List.countP_cons_of_neg (by simp [opened, Ne.symm same])]

structure Inherited (p np : ProcId) (s s' : Sys) : Prop where
  rest : s' = { s with mem := s'.mem, proc := s'.proc, file := s'.file, inode := s'.inode }
  mem : ∀ page, page ≠ (s.proc np).trapframe → s'.mem page = s.mem page
  proc : s'.proc = update s.proc np
    { (s.proc np).withFiles (s.proc p) (List.finRange NOFILE) with sz := (s.proc p).sz, cwd := (s.proc p).cwd }
  file : ∀ f, s'.file f = (s.file f).more ((s.proc p).handles (List.finRange NOFILE) f)

theorem copyTrapframe_mem {source target : PageNo} (other : page ≠ target) :
    (s.copyTrapframe source target).mem page = s.mem page := by
  unfold Sys.copyTrapframe Sys.store
  simp [other]

theorem forkInherit_inherited (other : np ≠ p) (run : Returns (forkInherit p np) s () s') : Inherited p np s s' := by
  unfold forkInherit at run
  rw [returns_modify_bind, returns_modify_bind] at run
  obtain ⟨_, s₁, files, rest⟩ := returns_bind.mp run
  rw [returns_get_bind] at rest
  obtain ⟨_, s₂, dup, last⟩ := returns_bind.mp rest
  obtain ⟨t, only, procs, mem, files⟩ : ∃ t : Sys, t = { s with mem := t.mem, proc := t.proc } ∧
      t.proc = update s.proc np { s.proc np with sz := (s.proc p).sz } ∧
      (∀ page, page ≠ (t.proc np).trapframe → t.mem page = s.mem page) ∧
      Returns (forkFiles p np (List.finRange NOFILE)) t () s₁ :=
    ⟨_, rfl, rfl, fun _ => copyTrapframe_mem, files⟩
  have copied := forkFiles_copied other files
  have parent : t.proc p = s.proc p := by rw [procs, update_of_ne (Ne.symm other)]
  have child : t.proc np = { s.proc np with sz := (s.proc p).sz } := by rw [procs, update_self]
  have parent' : s₁.proc p = s.proc p := by
    rw [copied.proc, update_of_ne (Ne.symm other), parent]
  have duped : s₂ = { s₁ with inode := s₂.inode } := by
    cases directory : (s₁.proc p).cwd with
    | none =>
      rw [directory] at dup
      exact absurd dup returns_throw
    | some i =>
      rw [directory] at dup
      have done := returns_modify.mp dup
      rw [done]
      rfl
  have done := returns_modify.mp last
  subst done
  have unchanged : s₂.proc = s₁.proc := by rw [duped]
  refine ⟨?_, fun page apart => ?_, ?_, fun f => ?_⟩
  · rw [duped, copied.rest, only]
    rfl
  · rw [child] at mem
    rw [← mem page apart]
    change s₂.mem page = t.mem page
    rw [duped, copied.rest]
  · change update s₂.proc np { s₂.proc np with cwd := (s₁.proc p).cwd } = _
    rw [unchanged, parent', copied.proc, update_idem, update_self, parent, child, procs, update_idem]
    rfl
  · change s₂.file f = _
    rw [duped, ← parent]
    change s₁.file f = _
    rw [copied.file, only]

/-! The slot has memory by then. The registers go to the trapframe, which is part of no page table. -/

variable {g g' : Layout} {s₁ : Sys} {trapframe root : PageNo}

section

variable (inherited : Inherited p np s₁ s') (memory : Allocated g s np trapframe root g' s₁)

include inherited memory

theorem Inherited.mem_used (used : g'.own page ≠ .other) : s'.mem page = s₁.mem page := by
  refine inherited.mem page ?_
  rintro rfl
  have slot : (s₁.proc np).trapframe = trapframe := by rw [memory.proc, update_self]
  rw [slot] at used
  exact used memory.own

theorem Inherited.tables : Tables g' s' := by
  refine memory.evolves.tables.frame (fun r path page node => ?_) ?_ ?_
  · refine inherited.mem_used memory ?_
    rw [memory.evolves.tables.table r path page node]
    exact fun wrong => nomatch wrong
  · rw [inherited.rest]
  · rw [inherited.rest]

theorem Inherited.entry {r : PageNo} {va : Nat} (known : g'.tree r [] = some r) : s'.entry r va = s₁.entry r va := by
  refine memory.evolves.tables.entry_same (inherited.tables memory) rfl known fun path page node => ?_
  refine inherited.mem_used memory ?_
  rw [memory.evolves.tables.table r path page node]
  exact fun wrong => nomatch wrong

end

end Inherit

end DeisoXv6
