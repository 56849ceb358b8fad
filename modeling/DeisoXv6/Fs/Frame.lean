import DeisoXv6.Semantics.Ensures
import DeisoXv6.Vm.Access

/-! What the file system leaves alone. Reading a file changes the inode table and the disk only, and the
pages that its copies go to. -/

set_option autoImplicit false

namespace DeisoXv6

open Semantics Fault

def FsOnly (s s' : Sys) : Prop :=
  s' = { s with inode := s'.inode, dinode := s'.dinode, bitmap := s'.bitmap, block := s'.block }

instance : Std.Refl FsOnly := ⟨fun _ => rfl⟩

instance : IsTrans Sys FsOnly := ⟨fun s s' s'' first second => by
  unfold FsOnly at first second ⊢
  rw [second, first]⟩

structure OnlyPage (page : PageNo) (s s' : Sys) : Prop where
  mem : ∀ p, p ≠ page → s'.mem p = s.mem p
  rest : s' = { s with
    mem := s'.mem, inode := s'.inode, dinode := s'.dinode, bitmap := s'.bitmap, block := s'.block }

instance (page : PageNo) : Std.Refl (OnlyPage page) := ⟨fun _ => ⟨fun _ _ => rfl, rfl⟩⟩

instance (page : PageNo) : IsTrans Sys (OnlyPage page) := ⟨fun s s' s'' first second =>
  ⟨fun p other => (second.mem p other).trans (first.mem p other), by rw [second.rest, first.rest]⟩⟩

variable {page : PageNo} {condition : Prop}

theorem FsOnly.onlyPage (s s' : Sys) (only : FsOnly s s') : OnlyPage page s s' :=
  ⟨fun p _ => by rw [only], by rw [only]⟩

/-- Besides, a transaction may have begun or ended. -/
def FsCall (s s' : Sys) : Prop :=
  s' = { s with
    inode := s'.inode, dinode := s'.dinode, bitmap := s'.bitmap, block := s'.block
    outstanding := s'.outstanding }

instance : Std.Refl FsCall := ⟨fun _ => rfl⟩

instance : IsTrans Sys FsCall := ⟨fun s s' s'' first second => by
  unfold FsCall at first second ⊢
  rw [second, first]⟩

theorem FsOnly.call (s s' : Sys) (only : FsOnly s s') : FsCall s s' := by
  unfold FsOnly at only
  unfold FsCall
  rw [only]

/-- How the file system fails: for want of blocks, or because an inode is not what it should be. -/
def Fault.OfFiles : Fault → Prop
  | .nullInode | .deadlock => True
  | .panic reason => reason ∈ [.balloc, .bfree, .bmap, .ilock, .ilockType, .iunlock, .fileclose, .logWrite]
  | _ => False

instance : DecidablePred OfFiles := fun e => by
  cases e with
  | panic reason => exact inferInstanceAs (Decidable (reason ∈ _))
  | nullInode => exact .isTrue trivial
  | deadlock => exact .isTrue trivial
  | _ => exact .isFalse id

theorem failIf_frames {F : Fault → Prop} {R : Sys → Sys → Prop} [Std.Refl R]
    [Decidable condition] {fault : Fault} (kind : F fault) : Frames F R (failIf condition fault) :=
  .ite (.throw kind) .pure

theorem onlyIf_frames {F : Fault → Prop} {R : Sys → Sys → Prop} [Std.Refl R]
    [Decidable condition] {body : KernelM Unit} (inner : Frames F R body) : Frames F R (onlyIf condition body) :=
  .ite inner .pure

section Inode

variable {i : InodeId}

theorem logWrite_frames : Frames OfFiles FsOnly logWrite := .bind .get fun _ => failIf_frames (by decide)

theorem balloc_frames : Frames OfFiles FsOnly balloc := by
  refine .bind .get fun s => ?_
  split
  · exact .throw (by decide)
  · exact .bind logWrite_frames fun _ => .bind (.modify fun _ => rfl) fun _ =>
      .bind (.modify fun _ => rfl) fun _ => .pure

variable {b bn : Nat} {ip : Option InodeId}

theorem bfree_frames : Frames OfFiles FsOnly (bfree b) :=
  .bind .get fun _ => .bind (failIf_frames (by decide)) fun _ => .bind logWrite_frames fun _ =>
    .modify fun _ => rfl

theorem iupdate_frames : Frames OfFiles FsOnly (iupdate i) :=
  .bind logWrite_frames fun _ => .modify fun _ => rfl

theorem ilock_frames : Frames OfFiles FsOnly (ilock ip) := by
  cases ip with
  | none => exact .throw (by decide)
  | some i =>
    refine .bind .get fun s => .bind (failIf_frames (by decide)) fun _ =>
      .bind (failIf_frames (by decide)) fun _ => .ite ?_ ?_
    · exact .bind (.modify fun _ => rfl) fun _ => .pure
    · exact .bind (.modify fun _ => rfl) fun _ => .bind (failIf_frames (by decide)) fun _ => .pure

theorem iunlock_frames : Frames OfFiles FsOnly (iunlock i) :=
  .bind .get fun _ => .bind (failIf_frames (by decide)) fun _ => .modify fun _ => rfl

theorem addrAlloc_frames {k : Fin (NDIRECT + 1)} : Frames OfFiles FsOnly (addrAlloc i k) :=
  .bind .get fun _ => .ite .pure (.bind balloc_frames fun _ => .bind (.modify fun _ => rfl) fun _ => .pure)

theorem indirectAlloc_frames : Frames OfFiles FsOnly (indirectAlloc b bn) :=
  .bind .get fun _ => .ite .pure (.bind balloc_frames fun _ => .bind (.modify fun _ => rfl) fun _ =>
      .bind logWrite_frames fun _ => .pure)

theorem bmap_frames : Frames OfFiles FsOnly (bmap i bn) := by
  unfold bmap
  split
  · exact addrAlloc_frames
  · exact .ite (.bind addrAlloc_frames fun _ => indirectAlloc_frames) (.throw (by decide))

theorem freeAddrs_frames {ks : List (Fin (NDIRECT + 1))} : Frames OfFiles FsOnly (freeAddrs i ks) := by
  induction ks with
  | nil => exact .pure
  | cons k rest ih =>
    exact .bind .get fun _ => .bind (onlyIf_frames (.bind bfree_frames fun _ => .modify fun _ => rfl)) fun _ => ih

theorem freeEntries_frames {bns : List Nat} : Frames OfFiles FsOnly (freeEntries b bns) := by
  induction bns with
  | nil => exact .pure
  | cons bn rest ih => exact .bind .get fun _ => .bind (onlyIf_frames bfree_frames) fun _ => ih

theorem itrunc_frames : Frames OfFiles FsOnly (itrunc i) :=
  .bind freeAddrs_frames fun _ => .bind .get fun _ =>
    .bind (onlyIf_frames (.bind freeEntries_frames fun _ => freeAddrs_frames)) fun _ =>
      .bind (.modify fun _ => rfl) fun _ => iupdate_frames

theorem iput_frames : Frames OfFiles FsOnly (iput i) :=
  .bind .get fun _ => .bind (onlyIf_frames (.bind (failIf_frames (by decide)) fun _ => .bind itrunc_frames fun _ =>
      .bind (.modify fun _ => rfl) fun _ => .bind iupdate_frames fun _ => .modify fun _ => rfl))
    fun _ => .modify fun _ => rfl

theorem putInode_frames : Frames OfFiles FsCall (putInode ip) := by
  cases ip with
  | none => exact .throw (by decide)
  | some i =>
    exact .bind (.modify fun _ => rfl) fun _ =>
      .bind (iput_frames.mono FsOnly.call fun _ => id) fun _ => .modify fun _ => rfl

end Inode

section Contents

variable {α : Type} {F : Fault → Prop} {R : Sys → Sys → Prop} [Std.Refl R] [IsTrans Sys R]
  {copyout : α → List UInt8 → KernelM (Option α)} {i : InodeId}

theorem readLoop_frames (faults : ∀ e, OfFiles e → F e) (smaller : ∀ s s', FsOnly s s' → R s s')
    (copies : ∀ dst bytes, Frames F R (copyout dst bytes)) (fuel off n : Nat) (dst : α) :
    Frames F R (readLoop copyout i fuel off n dst) := by
  induction fuel generalizing off n dst with
  | zero => exact .pure
  | succ fuel ih =>
    refine .ite .pure (.bind (bmap_frames.mono smaller faults) fun _ => .bind .get fun _ =>
      .bind (copies _ _) fun next => ?_)
    cases next with
    | none => exact .pure
    | some dst => exact ih _ _ dst

theorem readi_frames (faults : ∀ e, OfFiles e → F e) (smaller : ∀ s s', FsOnly s s' → R s s')
    (copies : ∀ dst bytes, Frames F R (copyout dst bytes)) (off n : Nat) (dst : α) :
    Frames F R (readi copyout i off n dst) :=
  .bind .get fun _ => .ite .pure (.bind (readLoop_frames faults smaller copies _ _ _ _) fun _ => .pure)

end Contents

theorem storeAt_frames {F : Fault → Prop} {off : Nat} {bytes : List UInt8} :
    Frames F (OnlyPage page) (storeAt page off bytes) :=
  .bind (.modify fun _ => ⟨fun _ other => Function.update_of_ne other .., rfl⟩) fun _ => .pure

theorem loadPage_within {v : Vma} {va : Nat} : Within (OnlyPage page) (loadPage page v va) := by
  have frames : Frames (fun _ => True) (OnlyPage page) (loadPage page v va) := by
    unfold loadPage
    split
    · exact .pure
    · exact onlyIf_frames (.bind .get fun _ => .bind (failIf_frames trivial) fun _ =>
        .bind (ilock_frames.mono FsOnly.onlyPage fun _ _ => trivial) fun _ =>
        .bind (readi_frames (fun _ _ => trivial) FsOnly.onlyPage (fun _ _ => storeAt_frames) _ _ _) fun _ =>
        iunlock_frames.mono FsOnly.onlyPage fun _ _ => trivial)
  exact frames.within

end DeisoXv6
