import DeisoXv6.Proc.Fork
import DeisoXv6.Fs.Frame
import DeisoXv6.Vm.Walk

/-! What the memory and file code that fork calls leaves alone. It changes pages, inodes, files and VMAs,
and no process. -/

set_option autoImplicit false

namespace DeisoXv6

open Semantics

def MemFs (s s' : Sys) : Prop :=
  s' = { s with
    mem := s'.mem, freelist := s'.freelist, inode := s'.inode, dinode := s'.dinode, bitmap := s'.bitmap
    block := s'.block, outstanding := s'.outstanding }

instance : Std.Refl MemFs := ⟨fun _ => rfl⟩

instance : IsTrans Sys MemFs := ⟨fun s s' s'' first second => by
  unfold MemFs at first second ⊢
  rw [second, first]⟩

theorem MemOnly.memFs (s s' : Sys) (only : MemOnly s s') : MemFs s s' := by
  unfold MemOnly at only
  unfold MemFs
  rw [only]

theorem OnlyPage.memFs {page : PageNo} (s s' : Sys) (only : OnlyPage page s s') : MemFs s s' := by
  unfold MemFs
  rw [only.rest]

theorem FsOnly.memFs (s s' : Sys) (only : FsOnly s s') : MemFs s s' := by
  unfold FsOnly at only
  unfold MemFs
  rw [only]

theorem FsCall.memFs (s s' : Sys) (only : FsCall s s') : MemFs s s' := by
  unfold FsCall at only
  unfold MemFs
  rw [only]

variable {stop fuel : Nat} {vma : VmaRef} {f : Option FileId}

section Memory

variable {root page : PageNo} {va n : Nat}

theorem kfree_within : Within MemOnly (kfree page) :=
  .bind .get fun _ => .bind failIf_within fun _ => .bind (.modify fun _ => rfl) fun _ => .modify fun _ => rfl

variable {doFree : Bool} {old new : PageNo} {len : Nat}

theorem uvmunmapLoop_within : Within MemOnly (uvmunmapLoop root doFree n va) := by
  induction n generalizing va with
  | zero => exact .pure
  | succ n ih =>
    refine .bind walk_within fun found => ?_
    cases found with
    | none => exact ih
    | some place =>
      exact .bind .get fun _ => .ite ih (.bind failIf_within fun _ => .bind (onlyIf_within kfree_within) fun _ =>
        .bind (.modify fun _ => rfl) fun _ => ih)

theorem uvmunmap_within : Within MemOnly (uvmunmap root va n doFree) :=
  .bind failIf_within fun _ => uvmunmapLoop_within

theorem freewalkLoop_within {freewalk : PageNo → KernelM Unit} {indices : List Nat}
    (below : ∀ page, Within MemOnly (freewalk page)) : Within MemOnly (freewalkLoop freewalk page indices) := by
  induction indices with
  | nil => exact kfree_within
  | cons i rest ih =>
    exact .bind .get fun _ => .ite (.bind (below _) fun _ => .bind (.modify fun _ => rfl) fun _ => ih)
      (.bind failIf_within fun _ => ih)

theorem freewalkFrom_within {depth : Nat} : Within MemOnly (freewalkFrom depth page) := by
  induction depth generalizing page with
  | zero => exact .throw
  | succ depth ih => exact freewalkLoop_within fun _ => ih

theorem procFreepagetable_within : Within MemOnly (procFreepagetable root n) :=
  .bind uvmunmap_within fun _ => .bind uvmunmap_within fun _ => .bind (onlyIf_within uvmunmap_within) fun _ =>
    freewalkFrom_within

theorem uvmcopyPage_within : Within MemOnly (uvmcopyPage old new va) := by
  refine .bind walk_within fun found => ?_
  cases found with
  | none => exact .pure
  | some place =>
    refine .bind .get fun _ => .ite .pure (.bind kalloc_within fun page => ?_)
    cases page with
    | none => exact .pure
    | some page =>
      exact .bind (.modify fun _ => rfl) fun _ => .bind mappages_within fun _ =>
        .ite .pure (.bind kfree_within fun _ => .pure)

theorem uvmcopyLoop_within {start : Nat} : Within MemOnly (uvmcopyLoop old new start stop fuel va) := by
  induction fuel generalizing va with
  | zero => exact .throw
  | succ fuel ih =>
    exact .ite (.bind uvmcopyPage_within fun _ => .ite ih (.bind uvmunmap_within fun _ => .pure)) .pure

theorem lazyalloc_within : Within MemFs (lazyalloc root va vma) := by
  refine .bind (kalloc_within.mono MemOnly.memFs) fun page => ?_
  cases page with
  | none => exact .pure
  | some page =>
    exact .bind (.modify fun _ => rfl) fun _ => .bind .get fun _ =>
      .bind (loadPage_within.mono OnlyPage.memFs) fun _ => .bind (mappages_within.mono MemOnly.memFs) fun _ =>
      .ite .pure (.bind (kfree_within.mono MemOnly.memFs) fun _ => .pure)

theorem findVma_within : Within MemFs (findVma va) := by
  refine .bind .get fun s => ?_
  split
  · exact .throw
  · exact .pure

theorem walkaddr_within : Within MemFs (walkaddr root va) := by
  refine .ite .pure (.bind findVma_within fun found => ?_)
  cases found with
  | none => exact .pure
  | some vma =>
    refine .bind (walk_within.mono MemOnly.memFs) fun place => ?_
    cases place with
    | none => exact lazyalloc_within
    | some place => exact .bind .get fun _ => .ite lazyalloc_within (.ite .pure .pure)

theorem copyinLoop_within : Within MemFs (copyinLoop root fuel va len) := by
  induction fuel generalizing va len with
  | zero => exact .pure
  | succ fuel ih =>
    refine .ite .pure (.bind walkaddr_within fun page => ?_)
    cases page with
    | none => exact .pure
    | some page => exact .bind .get fun _ => .bind ih fun _ => .pure

theorem copyinUser_within : Within MemFs (copyinUser va len) :=
  .bind .get fun _ => .bind copyinLoop_within fun _ => .pure

end Memory

section Files

variable {i : InodeId} {root : PageNo}

variable {off src pos addr : Nat} {turn : Turn} {v : Vma}

theorem writeLoop_within {n : Nat} : Within MemFs (writeLoop copyinUser i fuel off n src) := by
  induction fuel generalizing off n src with
  | zero => exact .pure
  | succ fuel ih =>
    refine .ite .pure (.bind (bmap_frames.within.mono FsOnly.memFs) fun _ => .bind copyinUser_within fun copied =>
      .bind (.modify fun _ => rfl) fun _ => ?_)
    split
    · exact .pure
    · exact .bind (logWrite_frames.within.mono FsOnly.memFs) fun _ => ih

theorem writei_within {n : Nat} : Within MemFs (writei copyinUser i src off n) :=
  .bind .get fun _ => .ite .pure (.ite .pure (.bind writeLoop_within fun _ =>
    .bind (.modify fun _ => rfl) fun _ => .bind (iupdate_frames.within.mono FsOnly.memFs) fun _ => .pure))

theorem writeBack_within : Within MemFs (writeBack turn f) := by
  cases f with
  | none => exact .pure
  | some f =>
    exact .bind (.modify fun _ => rfl) fun _ => .bind .get fun _ =>
      .bind (ilock_frames.within.mono FsOnly.memFs) fun _ => .bind writei_within fun _ =>
      .bind (iunlock_frames.within.mono FsOnly.memFs) fun _ => .modify fun _ => rfl

theorem memset_within {place : Option PageNo} {n : Nat} : Within MemFs (memset place off n) := by
  refine .ite .pure ?_
  cases place with
  | none => exact .throw
  | some page => exact .ite (.modify fun _ => rfl) .throw

theorem isPageMapped_within {va : Nat} : Within MemFs (isPageMapped root va) := by
  refine .bind (walk_within.mono MemOnly.memFs) fun found => ?_
  cases found with
  | none => exact .pure
  | some place => exact .bind .get fun _ => .pure

theorem freePage_within : Within MemFs (freePage root v turn pos) :=
  .bind isPageMapped_within fun _ => .ite
    (.bind writeBack_within fun _ => .ite (.bind walkaddr_within fun _ => memset_within)
      (uvmunmap_within.mono MemOnly.memFs)) .pure

theorem vmaFreeMemLoop_within : Within MemFs (vmaFreeMemLoop root v addr stop fuel pos) := by
  induction fuel generalizing pos with
  | zero => exact .throw
  | succ fuel ih => exact .ite (.bind freePage_within fun _ => ih) .pure

theorem vmaFreeMem_within {length : Nat} : Within MemFs (vmaFreeMem root vma addr length) :=
  .bind .get fun _ => vmaFreeMemLoop_within

end Files

section Processes

variable {p np : ProcId} {root : PageNo}

def SameProcs (s s' : Sys) : Prop := s'.proc = s.proc

instance : Std.Refl SameProcs := ⟨fun _ => rfl⟩

instance : IsTrans Sys SameProcs := ⟨fun _ _ _ first second => second.trans first⟩

theorem MemFs.sameProcs (s s' : Sys) (only : MemFs s s') : SameProcs s s' := by
  unfold SameProcs
  rw [only]

theorem MemOnly.sameProcs (s s' : Sys) (only : MemOnly s s') : SameProcs s s' := (only.memFs).sameProcs

theorem freeprocMemory_proc {s s' : Sys} (run : Returns (freeprocMemory p) s () s') :
    s'.proc = Function.update s.proc p (s.proc p).freed := by
  unfold freeprocMemory at run
  rw [returns_get_bind] at run
  obtain ⟨_, s₁, trapframe, rest⟩ := returns_bind.mp run
  obtain ⟨_, s₂, table, last⟩ := returns_bind.mp rest
  rw [returns_modify_bind, returns_modify] at last
  have first : MemOnly s s₁ := onlyIf_within kfree_within _ _ _ trapframe
  have second : MemOnly s₁ s₂ := onlyIf_within procFreepagetable_within _ _ _ table
  have same : s₂.proc = s.proc := MemOnly.sameProcs s s₂ (IsTrans.trans _ _ _ first second)
  subst last
  change Function.update s₂.proc p (s₂.proc p).freed = _
  rw [same]

theorem fileclose_within {f : FileId} : Within SameProcs (fileclose f) := by
  refine .bind .get fun s => .bind failIf_within fun _ => .ite (.modify fun _ => rfl)
    (.bind (.modify fun _ => rfl) fun _ => ?_)
  have put : Within SameProcs (putInode (s.file f).ip) :=
    putInode_frames.within.mono fun s s' only => (FsCall.memFs s s' only).sameProcs
  unfold closeLast
  split
  · exact .bind (.modify fun _ => rfl) fun _ => .bind .get fun _ => onlyIf_within (kfree_within.mono MemOnly.sameProcs)
  · exact put
  · exact put
  · exact .pure

theorem vmaFree_within : Within SameProcs (vmaFree root vma) := by
  refine .bind .get fun s => .bind (vmaFreeMem_within.mono MemFs.sameProcs) fun _ => .bind ?_ fun _ =>
    .modify fun _ => rfl
  cases (s.vmas.get vma).file with
  | none => exact .pure
  | some f => exact fileclose_within

theorem vmaFreeList_within {refs : List VmaRef} : Within SameProcs (vmaFreeList root refs) := by
  induction refs with
  | nil => exact .pure
  | cons it rest ih => exact .bind vmaFree_within fun _ => ih

theorem forkVmasErr_within : Within SameProcs (forkVmasErr np) := by
  refine .bind .get fun s => ?_
  split
  · exact .throw
  · exact .bind vmaFreeList_within fun _ => .pure

theorem dupFile_within : Within SameProcs (dupFile f) := by
  cases f with
  | none => exact .pure
  | some f => exact .bind .get fun _ => .bind failIf_within fun _ => .modify fun _ => rfl

theorem forkVmasLoop_within {it2 : VmaRef} {rest : List VmaRef} : Within SameProcs (forkVmasLoop p np it2 rest) := by
  induction rest generalizing it2 with
  | nil => exact .bind (.modify fun _ => rfl) fun _ => .pure
  | cons it1 rest ih =>
    refine .bind .get fun s => .bind (.modify fun _ => rfl) fun _ => ?_
    split
    · exact forkVmasErr_within
    · exact .bind .get fun _ => .bind (uvmcopyLoop_within.mono MemOnly.sameProcs) fun _ => .ite
        (.bind (.modify fun _ => rfl) fun _ => .bind dupFile_within fun _ => .bind (.modify fun _ => rfl) fun _ => ih)
        forkVmasErr_within

theorem forkVmas_within : Within SameProcs (forkVmas p np) := by
  refine .bind (.modify fun _ => rfl) fun _ => .bind .get fun s => ?_
  split
  · exact .throw
  · exact forkVmasLoop_within

end Processes

end DeisoXv6
