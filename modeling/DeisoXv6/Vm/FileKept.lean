import DeisoXv6.Vm.Reserved
import DeisoXv6.Vm.SysMmap
import DeisoXv6.Vm.WriteBack

/-! When the file behind a mapping outlives the mapping as it was. vma_free_mem asks for MAP_SHARED only: not
whether the process may write to the mapping, nor where the file ends. -/

set_option autoImplicit false

namespace DeisoXv6

open Semantics Sys

/-- The file has the size that it had, and the bytes that it had but for positions that are exempt. -/
structure FileKept (i : InodeId) (exempt : Nat → Prop) (s t : Sys) : Prop where
  size : (t.copyOf i).size = (s.copyOf i).size
  bytes : ∀ x < (s.copyOf i).size, ¬exempt x → t.fileByte (t.copyOf i) x = s.fileByte (s.copyOf i) x

/-- No page of the range that is written back reaches beyond the end of the file, and at a position that is not
exempt the last of them has what the file has there. -/
structure Sys.LeavesFile (s : Sys) (v : Vma) (i : InodeId) (addr stop : Nat) (exempt : Nat → Prop) : Prop where
  ends : ∀ p, s.SavesAt v i addr stop p →
    (v.turn addr stop (p * PGSIZE)).off + (v.turn addr stop (p * PGSIZE)).count ≤ (s.copyOf i).size
  same : ∀ p x, s.LastSaves v i addr stop (addr / PGSIZE) x p → ¬exempt x →
    s.savedByte v addr stop p x = s.fileByte (s.copyOf i) x

section Kept

variable {s t : Sys} {i : InodeId} {v : Vma} {addr stop p p' q x : Nat} {exempt : Nat → Prop}

theorem Sys.SavesAt.behind (saves : s.SavesAt v i addr stop p) : addr / PGSIZE ≤ p := by
  have first := saves.1.1
  rw [pgrounddown_eq_mul] at first
  exact Nat.le_of_mul_le_mul_right first (by decide)

theorem Sys.LastSaves.unique (last : s.LastSaves v i addr stop q x p) (last' : s.LastSaves v i addr stop q x p') :
    p = p' := by
  rcases Nat.lt_trichotomy p p' with less | same | more
  · exact absurd last'.covers (last.last p' less last'.saves)
  · exact same
  · exact absurd last.covers (last'.last p more last.saves)

theorem LoopDone.kept_iff (done : LoopDone s v i addr stop (addr / PGSIZE) t) :
    FileKept i exempt s t ↔ s.LeavesFile v i addr stop exempt := by
  constructor
  · intro kept
    have ends : ∀ p, s.SavesAt v i addr stop p →
        (v.turn addr stop (p * PGSIZE)).off + (v.turn addr stop (p * PGSIZE)).count ≤ (s.copyOf i).size := by
      intro p saves
      by_contra long
      have grown := done.grows p saves.behind saves (Nat.lt_of_not_le long)
      rw [kept.size] at grown
      exact absurd grown (lt_irrefl _)
    refine ⟨ends, fun p x last other => ?_⟩
    have inside : x < (s.copyOf i).size := last.covers.2.trans_le (ends p last.saves)
    rw [← kept.bytes x inside other]
    rcases (done.bytes fun p _ => ends p).2 x inside with ⟨p', last', byte⟩ | ⟨none, -⟩
    · rw [byte, last.unique last']
    · exact absurd last.covers (none p last.behind last.saves)
  · intro leaves
    obtain ⟨size, all⟩ := done.bytes fun p _ => leaves.ends p
    refine ⟨size, fun x inside other => ?_⟩
    rcases all x inside with ⟨p, last, byte⟩ | ⟨-, byte⟩
    · rw [byte, leaves.same p x last other]
    · exact byte

end Kept

def touchedHeap : Sys := final (walkaddr emptyRoot PGSIZE) heapProcess

def fileProcess (prot flags : BitVec 32) : Sys :=
  { single ⟨true, PGSIZE, 2 * PGSIZE, 2 * PGSIZE, some 0, 0, prot, flags, none⟩ [] with
    mem := touchedHeap.mem
    freelist := touchedHeap.freelist }

theorem touchedHeap_held : ∃ g, Held g touchedHeap emptyRoot := by
  have run := returns_final (m := walkaddr emptyRoot PGSIZE) (s := heapProcess) (a := some 0x87ff0) (by decide +kernel)
  exact heapProcess_mapped.held.walkaddr (fun vma _ => (heapProcess_vma vma).2) run

theorem single_filed {v : Vma} {pages : List PageNo} {i : InodeId} : (single v pages).Filed i := by
  have block (bn : Nat) : (single v pages).blockOf ((single v pages).copyOf i) bn =
      if bn < 6 then 50 + bn else 0 := by
    by_cases direct : bn < NDIRECT
    · rw [blockOf_direct direct]
      rfl
    · have high : ¬bn < 6 := by
        unfold NDIRECT at direct
        omega
      rw [blockOf_indirect direct, if_neg fun both => both.2 rfl, if_neg high]
  have marked (b : Nat) : (single v pages).bitmap b = decide (b < 56) := rfl
  have table : ((single v pages).copyOf i).table = 0 := rfl
  refine ⟨⟨show 1000 ≤ 2 ^ 32 by decide, rfl, fun b has => ?_, fun m n here same => ?_, fun bn here => ?_⟩,
    fun bn below => ?_⟩
  · obtain ⟨used, rfl | ⟨bn, rfl⟩⟩ := has
    · exact absurd table used
    · rw [block] at used ⊢
      rw [marked, decide_eq_true_eq]
      split at used
      · rw [if_pos ‹_›]
        omega
      · contradiction
  · rw [block] at here
    rw [block, block] at same
    split at here
    · rw [if_pos ‹_›] at same
      split at same
      · omega
      · omega
    · contradiction
  · rw [table]
    exact here
  · change bn * 1024 < 6000 at below
    rw [block, if_pos (by omega)]
    omega

theorem fileProcess_backed (prot flags : BitVec 32) : ∃ g, Backed g (fileProcess prot flags) 0 0 := by
  obtain ⟨g, held⟩ := touchedHeap_held
  have kernelEnd : touchedHeap.kernelEnd = 0x80030000 := by decide +kernel
  have trapframe : (touchedHeap.proc touchedHeap.current).trapframe = 0x87ffe := by decide +kernel
  have trampoline : touchedHeap.trampoline = 0x80007 := by decide +kernel
  refine ⟨g, ⟨held.tables.frame (fun _ _ _ _ => rfl) rfl kernelEnd.symm, held.known, fun q low present => ?_,
    ?_, ?_, fun f pipe => absurd pipe (by simp [fileProcess, single])⟩, ⟨[.start 0, .slot 0], rfl⟩, rfl, ?_⟩
  · have user := held.user q low present
    rw [kernelEnd] at user
    exact user
  · have mine := held.trapframe
    rw [trapframe] at mine
    exact mine
  · have mine := held.trampoline
    rw [trampoline] at mine
    exact mine
  · exact Filed.congr (@single_filed heapVma [] 0) rfl rfl rfl rfl

def twoShared (prot : BitVec 32) : MmapArgs := ⟨0, 2 * 4096, prot, MAP_SHARED, 0, 0⟩

/-- Position `x` of the file belongs to an address of the range that is mapped. -/
def Sys.RemovedAt (s : Sys) (v : Vma) (addr length x : Nat) : Prop :=
  ∃ a, addr ≤ a ∧ a < addr + length ∧ s.Present s.pagetable a ∧ x = v.offset + (a - v.start)

section Removed

variable {g : Layout} {s t : Sys} {f : FileId} {i : InodeId} {v : Vma} {addr length p x : Nat}

theorem Turn.Covers.removed (first : v.start ≤ addr) (low : addr + length ≤ RESERVED)
    (small : v.offset + (addr + length - v.start) ≤ 2 ^ 32) (saves : s.SavesAt v i addr (addr + length) p)
    (covers : (v.turn addr (addr + length) (p * PGSIZE)).Covers x) : s.RemovedAt v addr length x := by
  have below : p * PGSIZE < MAXVA := by
    refine saves.1.2.trans_le (low.trans ?_)
    decide
  obtain ⟨here, there⟩ := @Vma.turn_start _ _ (addr + length) v saves.1.1
  have ended : (v.turn addr (addr + length) (p * PGSIZE)).writeEnd ≤ min (addr + length) (p * PGSIZE + PGSIZE) := by
    rw [← @Vma.turn_stop _ addr _ v below]
    exact Vma.turn_writeEnd_le
  have begun : addr ≤ (v.turn addr (addr + length) (p * PGSIZE)).start := by
    change addr ≤ if addr > p * PGSIZE then addr else p * PGSIZE
    split
    · exact le_rfl
    · exact Nat.le_of_not_lt ‹_›
  have off : (v.turn addr (addr + length) (p * PGSIZE)).off =
      v.offset + ((v.turn addr (addr + length) (p * PGSIZE)).start - v.start) := by
    have more := saves.2.2.2.2.1
    change u32 (u64 (sub64 (v.turn addr (addr + length) (p * PGSIZE)).start v.start + v.offset)) = _
    unfold RESERVED MAXVA at low
    rw [sub64_eq (by omega) (by omega)]
    unfold u32 u64
    omega
  unfold Turn.Covers Turn.count at covers
  generalize v.turn addr (addr + length) (p * PGSIZE) = turn at *
  refine ⟨turn.start + (x - turn.off), by omega, by omega, ?_, by omega⟩
  rw [← present_page, show (turn.start + (x - turn.off)) / PGSIZE = p by unfold PGSIZE at *; omega]
  exact saves.2.1

theorem Sys.LeavesFile.of_ends (first : v.start ≤ addr) (low : addr + length ≤ RESERVED)
    (small : v.offset + (addr + length - v.start) ≤ 2 ^ 32)
    (ends : ∀ p, s.SavesAt v i addr (addr + length) p → (v.turn addr (addr + length) (p * PGSIZE)).off +
      (v.turn addr (addr + length) (p * PGSIZE)).count ≤ (s.copyOf i).size) :
    s.LeavesFile v i addr (addr + length) (s.RemovedAt v addr length) :=
  ⟨ends, fun _ _ last other => absurd (last.covers.removed first low small last.saves) other⟩

/-- vma_free_mem keeps the size of the file and its bytes outside the range exactly when no page that it writes
ends behind the file, and none is written to a position that is not its own. -/
theorem vmaFreeMem_keeps_file_iff {ref : VmaRef} {u : Unit} (backed : Backed g s f i)
    (file : (s.vmas.get ref).file = some f) (low : addr + length ≤ RESERVED)
    (run : Returns (vmaFreeMem s.pagetable ref addr length) s u t) :
    FileKept i (s.RemovedAt (s.vmas.get ref) addr length) s t ↔
      s.LeavesFile (s.vmas.get ref) i addr (addr + length) (s.RemovedAt (s.vmas.get ref) addr length) :=
  (vmaFreeMem_done backed file low run).kept_iff

end Removed

/-- The first page is unmapped, which writes it to the file. -/
theorem unmapping_keeps_end : ∃ t,
    Returns (vmaFreeMem emptyRoot (.slot 0) PGSIZE PGSIZE) (fileProcess (PROT_READ ||| PROT_WRITE) MAP_SHARED) () t ∧
    FileKept 0 ((fileProcess (PROT_READ ||| PROT_WRITE) MAP_SHARED).RemovedAt
      ((fileProcess (PROT_READ ||| PROT_WRITE) MAP_SHARED).vmas.get (.slot 0)) PGSIZE PGSIZE)
      (fileProcess (PROT_READ ||| PROT_WRITE) MAP_SHARED) t := by
  obtain ⟨g, backed⟩ := fileProcess_backed (PROT_READ ||| PROT_WRITE) MAP_SHARED
  have run := returns_final (m := vmaFreeMem emptyRoot (.slot 0) PGSIZE PGSIZE)
    (s := fileProcess (PROT_READ ||| PROT_WRITE) MAP_SHARED) (a := ()) (by decide +kernel)
  refine ⟨_, run, (vmaFreeMem_keeps_file_iff backed rfl (by decide) run).mpr ?_⟩
  refine .of_ends le_rfl (by decide) (by decide) fun p saves => ?_
  obtain rfl : p = 1 := by
    have range := saves.1
    unfold pgrounddown PGSIZE at range
    omega
  decide +kernel

/-- The second page of a file of 6000 bytes is touched and unmapped, and the file has 8192 bytes. -/
theorem munmap_grows_file : ∃ s₁ s₂ t,
    Returns (sysMmap (twoShared (PROT_READ ||| PROT_WRITE))) (openProcess regularFile)
      (some (MAXVA - 4 * PGSIZE)) s₁ ∧ Returns (usertrapFault (MAXVA - 3 * PGSIZE)) s₁ () s₂ ∧
    Returns (sysMunmap (MAXVA - 3 * PGSIZE) PGSIZE) s₂ (some 0) t ∧
    (s₂.copyOf 0).size = 6000 ∧ (t.copyOf 0).size = 8192 :=
  ⟨_, _, _, returns_final (by decide +kernel), returns_final (by decide +kernel),
    returns_final (by decide +kernel), by decide +kernel, by decide +kernel⟩

section Closing

variable {s t : Sys} {f : FileId} {i : InodeId} {u : Unit}

/-- Closing file `f` does not delete the file behind it. -/
def Sys.Stays (s : Sys) (f : FileId) (i : InodeId) : Prop :=
  1 < (s.file f).ref ∨ (s.inode i).ref ≠ 1 ∨ (s.copyOf i).nlink ≠ 0

theorem iput_kept (stays : (s.inode i).ref ≠ 1 ∨ (s.copyOf i).nlink ≠ 0) (run : Returns (iput i) s u t) :
    t.copyOf i = s.copyOf i ∧ t.block = s.block := by
  unfold iput onlyIf at run
  rw [returns_get_bind] at run
  split at run
  · rename_i last
    -- the copy in memory is the file
    rw [copyOf_valid last.2.1] at stays
    rcases stays with more | linked
    · exact absurd last.1 more
    · exact absurd last.2.2 linked
  · rw [returns_bind] at run
    obtain ⟨_, s₁, nothing, run⟩ := run
    obtain ⟨-, rfl⟩ := returns_pure.mp nothing
    obtain rfl := returns_modify.mp run
    refine ⟨?_, rfl⟩
    simp [copyOf, setInode]

theorem fileclose_kept (regular : (s.file f).type = .inode) (place : (s.file f).ip = some i) (stays : s.Stays f i)
    (run : Returns (fileclose f) s u t) : t.copyOf i = s.copyOf i ∧ t.block = s.block := by
  unfold fileclose at run
  rw [returns_get_bind, returns_failIf_bind] at run
  replace run := run.2
  split at run
  · obtain rfl := returns_modify.mp run
    exact ⟨rfl, rfl⟩
  · rename_i last
    have stays' : (s.inode i).ref ≠ 1 ∨ (s.copyOf i).nlink ≠ 0 := stays.resolve_left (by omega)
    unfold closeLast at run
    rw [returns_modify_bind, regular] at run
    dsimp only at run
    rw [place] at run
    unfold putInode beginOp at run
    rw [returns_modify_bind] at run
    obtain ⟨_, s₁, puts, run⟩ := returns_bind.mp run
    obtain rfl := returns_modify.mp run
    obtain ⟨copy, block⟩ := iput_kept (t := s₁) (by exact stays') puts
    exact ⟨copy, block⟩

theorem vmaFree_parts {root : PageNo} {ref : VmaRef} (file : (s.vmas.get ref).file = some f)
    (run : Returns (vmaFree root ref) s u t) : ∃ s₁,
      Returns (vmaFreeMem root ref (s.vmas.get ref).start (s.vmas.get ref).length) s () s₁ ∧
      ((s₁.file f).type = .inode → (s₁.file f).ip = some i → s₁.Stays f i →
        t.copyOf i = s₁.copyOf i ∧ t.block = s₁.block) := by
  unfold vmaFree at run
  rw [returns_get_bind, file] at run
  obtain ⟨_, s₁, freed, run⟩ := returns_bind.mp run
  obtain ⟨_, s₂, closed, run⟩ := returns_bind.mp run
  obtain rfl := returns_modify.mp run
  refine ⟨s₁, freed, fun regular place stays => ?_⟩
  obtain ⟨copy, block⟩ := fileclose_kept regular place stays closed
  exact ⟨copy, block⟩

theorem FileKept.congr {s₁ : Sys} {exempt : Nat → Prop} (copy : t.copyOf i = s₁.copyOf i)
    (block : t.block = s₁.block) : FileKept i exempt s t ↔ FileKept i exempt s s₁ := by
  refine ⟨fun ⟨size, bytes⟩ => ⟨?_, ?_⟩, fun ⟨size, bytes⟩ => ⟨?_, ?_⟩⟩
  · rw [← copy, size]
  · simpa only [copy, fileByte_congr block] using bytes
  · rw [copy, size]
  · simpa only [copy, fileByte_congr block] using bytes

end Closing

section Whole

variable {g : Layout} {s t : Sys} {f : FileId} {i : InodeId} {v : Vma} {root : PageNo} {addr stop q fuel : Nat} {u : Unit}

theorem Sheds.stays {g' : Layout} (sheds : Sheds root s g' t) (ref : (t.inode i).ref = (s.inode i).ref)
    (nlink : (t.copyOf i).nlink = (s.copyOf i).nlink) (stays : s.Stays f i) : t.Stays f i := by
  have file : t.file = s.file := by rw [sheds.rest]
  unfold Stays
  rw [file, ref, nlink]
  exact stays

/-- No page that would be written back is in a VMA of the process as it is now. -/
def Sys.Unseen (s : Sys) (root : PageNo) (v : Vma) (stop q : Nat) : Prop :=
  has v.flags MAP_SHARED = true → ∀ p, q ≤ p → p * PGSIZE < stop → s.Present root (p * PGSIZE) →
    s.vmaAt (p * PGSIZE) = none

theorem vmaFreeMemLoop_unseen (held : Held g s root) (listed : s.Listed) (place : (s.file f).ip = some i)
    (filed : s.Filed i) (file : v.file = some f) (first : pgrounddown addr ≤ q * PGSIZE) (low : stop ≤ RESERVED)
    (unseen : s.Unseen root v stop q) (run : Returns (vmaFreeMemLoop root v addr stop fuel (q * PGSIZE)) s u t) :
    ∃ g', Sheds root s g' t ∧ Written i 0 [] s t := by
  induction fuel generalizing g s q with
  | zero => exact absurd run returns_throw
  | succ fuel ih =>
    unfold vmaFreeMemLoop at run
    split at run
    · rename_i more
      obtain ⟨_, s', turned, run⟩ := returns_bind.mp run
      have below : q * PGSIZE < RESERVED := more.trans_le low
      have space : q * PGSIZE < MAXVA := below.trans_le (by decide)
      have shut (present : s.Present root (q * PGSIZE)) (shared : has v.flags MAP_SHARED = true) :
          ¬s.Open s.pagetable (q * PGSIZE) := by
        intro opened
        have found := opened.vma
        rw [unseen shared q le_rfl more present] at found
        contradiction
      obtain ⟨start, there⟩ := @Vma.turn_start _ addr stop v first
      obtain ⟨g', sheds, -, wrote⟩ := freePage_cases held listed place filed file below start there
        (Vma.turn_writeEnd space) (fun present shared opened => absurd opened (shut present shared)) turned
      rw [if_neg fun all => shut all.1 all.2.2.1 all.2.1] at wrote
      have next : u64 (q * PGSIZE + PGSIZE) = (q + 1) * PGSIZE := by
        rw [Nat.succ_mul, page_after space]
      rw [next] at run
      have place' : (s'.file f).ip = some i := by
        rw [sheds.rest]
        exact place
      have unseen' : s'.Unseen root v stop (q + 1) := by
        intro shared p behind inside present
        have early : p * PGSIZE < MAXVA := Nat.lt_of_lt_of_le (inside.trans_le low) (by decide)
        rw [sheds.vmaAt]
        exact unseen shared p (by omega) inside (sheds.fewer _ early present)
      have first' : pgrounddown addr ≤ (q + 1) * PGSIZE := by
        rw [Nat.succ_mul]
        omega
      obtain ⟨g'', rest, wrote'⟩ := ih sheds.held (sheds.listed listed) place' wrote.filed first' unseen' run
      exact ⟨g'', sheds.trans rest, wrote.nothing_trans wrote'⟩
    · obtain ⟨-, rfl⟩ := returns_pure.mp run
      exact ⟨g, .refl held, .refl filed⟩

theorem Written.kept {exempt : Nat → Prop} (written : Written i 0 [] s t) : FileKept i exempt s t := by
  have size : (t.copyOf i).size = (s.copyOf i).size := by
    rw [written.size]
    exact Nat.max_eq_left (Nat.zero_le _)
  refine ⟨size, fun x inside _ => ?_⟩
  rw [written.bytes x (size.symm ▸ inside), Bytes.overlay_nil]

theorem Sys.LeavesFile.of_private {exempt : Nat → Prop} (shared : has v.flags MAP_SHARED = false) :
    s.LeavesFile v i addr stop exempt := by
  have none : ∀ p, ¬s.SavesAt v i addr stop p := by
    intro p saves
    have wrong := saves.2.2.2.1
    rw [shared] at wrong
    contradiction
  exact ⟨fun p saves => absurd saves (none p), fun p x last => absurd last.saves (none p)⟩

/-- When a mapping goes, by vma_free_mem or vma_free, the file stays the same exactly when every page that is
written back has what the file has. In exec the old pages go while the process has its new image; it is enough
that none of them is where the new image has a VMA. -/
theorem removal_keeps_file_iff {ref : VmaRef} (listed : s.Listed) (file : (s.vmas.get ref).file = some f)
    (place : (s.file f).ip = some i) (filed : s.Filed i) :
    (∀ g addr length t, Held g s s.pagetable → addr + length ≤ RESERVED →
      Returns (vmaFreeMem s.pagetable ref addr length) s () t →
      (FileKept i (fun _ => False) s t ↔ s.LeavesFile (s.vmas.get ref) i addr (addr + length) fun _ => False)) ∧
    ∀ g root t, Held g s root → (s.vmas.get ref).start + (s.vmas.get ref).length ≤ RESERVED →
      (s.file f).type = .inode → s.Stays f i → Returns (vmaFree root ref) s () t →
      (root = s.pagetable → (FileKept i (fun _ => False) s t ↔ s.LeavesFile (s.vmas.get ref) i (s.vmas.get ref).start
          ((s.vmas.get ref).start + (s.vmas.get ref).length) fun _ => False)) ∧
      (s.Unseen root (s.vmas.get ref) ((s.vmas.get ref).start + (s.vmas.get ref).length)
        ((s.vmas.get ref).start / PGSIZE) → FileKept i (fun _ => False) s t) := by
  refine ⟨fun g addr length t held low run => ?_, fun g root t held low regular stays run => ⟨?_, fun unseen => ?_⟩⟩
  · exact (vmaFreeMem_done ⟨held, listed, place, filed⟩ file low run).kept_iff
  · rintro rfl
    obtain ⟨s₁, freed, closed⟩ := vmaFree_parts (i := i) file run
    have done := vmaFreeMem_done ⟨held, listed, place, filed⟩ file low freed
    obtain ⟨g', sheds⟩ := done.sheds
    have same : s₁.file = s.file := by rw [sheds.rest]
    obtain ⟨copy, block⟩ := closed (same ▸ regular) (same ▸ place) (sheds.stays done.ref done.nlink stays)
    rw [FileKept.congr copy block]
    exact done.kept_iff
  · obtain ⟨s₁, freed, closed⟩ := vmaFree_parts (i := i) file run
    have whole : u64 ((s.vmas.get ref).start + (s.vmas.get ref).length) =
        (s.vmas.get ref).start + (s.vmas.get ref).length := Nat.mod_eq_of_lt (low.trans_lt (by decide))
    unfold vmaFreeMem at freed
    rw [returns_get_bind, whole, pgrounddown_eq_mul] at freed
    obtain ⟨g', sheds, written⟩ := vmaFreeMemLoop_unseen held listed place filed file
      (pgrounddown_eq_mul ▸ le_rfl) low unseen freed
    have same : s₁.file = s.file := by rw [sheds.rest]
    obtain ⟨copy, block⟩ := closed (same ▸ regular) (same ▸ place) (sheds.stays written.ref written.nlink stays)
    rw [FileKept.congr copy block]
    exact written.kept

end Whole

/-- A page is mapped for reading only. After it has been loaded a write changes the first byte of the file from
50 to 51, and munmap puts the 50 back. -/
theorem read_only_mapping_overwrites : ∃ s₁ s₂ s₃ t,
    Returns (sysMmap (twoShared PROT_READ)) (openProcess regularFile) (some (MAXVA - 4 * PGSIZE)) s₁ ∧
    Returns (usertrapFault (MAXVA - 4 * PGSIZE)) s₁ () s₂ ∧
    Returns (filewrite 0 (MAXVA - 4 * PGSIZE + BSIZE) 1 ⟨[], [], []⟩) s₂ (some 1) s₃ ∧
    Returns (sysMunmap (MAXVA - 4 * PGSIZE) PGSIZE) s₃ (some 0) t ∧
    s₂.fileByte (s₂.copyOf 0) 0 = 50 ∧ s₃.fileByte (s₃.copyOf 0) 0 = 51 ∧ t.fileByte (t.copyOf 0) 0 = 50 :=
  ⟨_, _, _, _, returns_final (by decide +kernel), returns_final (by decide +kernel),
    returns_final (by decide +kernel), returns_final (by decide +kernel), by decide +kernel, by decide +kernel,
    by decide +kernel⟩

theorem private_mapping_goes : ∃ t,
    Returns (vmaFree emptyRoot (.slot 0)) (fileProcess (PROT_READ ||| PROT_WRITE) MAP_PRIVATE) () t ∧
    FileKept 0 (fun _ => False) (fileProcess (PROT_READ ||| PROT_WRITE) MAP_PRIVATE) t := by
  obtain ⟨g, backed⟩ := fileProcess_backed (PROT_READ ||| PROT_WRITE) MAP_PRIVATE
  have run := returns_final (m := vmaFree emptyRoot (.slot 0))
    (s := fileProcess (PROT_READ ||| PROT_WRITE) MAP_PRIVATE) (a := ()) (by decide +kernel)
  have file : ((fileProcess (PROT_READ ||| PROT_WRITE) MAP_PRIVATE).vmas.get (.slot 0)).file = some 0 := rfl
  have removal := removal_keeps_file_iff backed.listed file backed.inode backed.filed
  have keeps := (removal.2 g emptyRoot _ backed.held (by decide) rfl (.inr (.inr (by decide))) run).1 rfl
  exact ⟨_, run, keeps.mpr (.of_private rfl)⟩

end DeisoXv6
