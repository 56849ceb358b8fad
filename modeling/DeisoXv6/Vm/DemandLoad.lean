import DeisoXv6.Fs.Contents
import DeisoXv6.Vm.PageFault

/-! What a page holds when lazyalloc maps it: the bytes of the file and zeroes behind them. -/

set_option autoImplicit false

namespace DeisoXv6

open Semantics Bytes

/-- A VMA as exec and sys_mmap fill it in: memsz is at least filesz, a mapping has one length. -/
structure Vma.Filled (v : Vma) : Prop where
  aligned : v.start % PGSIZE = 0
  uint : v.start < 2 ^ 64 ∧ v.length < 2 ^ 64
  file : v.fileLength ≤ v.length

theorem Mmap.filled (call : VmaTable.Mmap) {it : Vma} (aligned : it.start % PGSIZE = 0) : (call.vma it).Filled := by
  refine ⟨?_, ⟨Nat.mod_lt _ (by decide), call.length.toNat_lt⟩, le_rfl⟩
  change sub64 (pgrounddown it.start) (pgroundup call.length.toNat) % PGSIZE = 0
  unfold sub64 pgroundup pgrounddown u64
  unfold PGSIZE at *
  omega

def Sys.inodeOf (s : Sys) (v : Vma) : Option InodeId := v.file.bind fun f => (s.file f).ip

structure Vma.OnPage (v : Vma) (va a : Nat) : Prop where
  low : v.start ≤ a
  high : a < v.start + v.length
  page : a / PGSIZE = va / PGSIZE

/-- What should be at `a`: the byte of the file, in the part that has one, and 0 elsewhere. -/
def Sys.shownByte (s : Sys) (v : Vma) (a : Nat) : UInt8 :=
  match s.inodeOf v with
  | none => 0
  | some i =>
    if a - v.start < v.fileLength ∧ v.offset + (a - v.start) < (s.copyOf i).size then
      s.fileByte (s.copyOf i) (v.offset + (a - v.start))
    else 0

/-- Where lazyalloc reads the byte for `a`: the offset of its page is converted to an int. -/
def Vma.readPos (v : Vma) (a : Nat) : Nat := u32 (pgrounddown (a - v.start) + v.offset) + a % PGSIZE

/-- The file has nothing but zeroes where lazyalloc reads beyond `file_length`, or at a position that
an int cannot hold. -/
def Sys.StrayZero (s : Sys) (v : Vma) (va : Nat) : Prop :=
  ∀ i, s.inodeOf v = some i → ∀ a, v.OnPage va a →
    v.fileLength ≤ a - v.start ∨ 2 ^ 32 ≤ pgrounddown (a - v.start) + v.offset →
    a - v.start < v.fileLength + v.start → v.readPos a < (s.copyOf i).size →
    s.fileByte (s.copyOf i) (v.readPos a) = 0

section Load

variable {s : Sys} {v : Vma} {va a : Nat} {i : InodeId}

theorem Vma.Filled.no_wrap (filled : v.Filled) (holds : v.Holds va) : v.start + v.length < 2 ^ 64 := by
  obtain ⟨low, high⟩ := holds
  have start := filled.uint.1
  have length := filled.uint.2
  unfold Vma.stop u64 at high
  omega

theorem Vma.Filled.page_offset (filled : v.Filled) (holds : v.Holds va) (here : v.OnPage va a) :
    pgrounddown (sub64 va v.start) = pgrounddown (a - v.start) ∧
      a - v.start = pgrounddown (a - v.start) + a % PGSIZE := by
  have wrap := filled.no_wrap holds
  have aligned := filled.aligned
  have page := here.page
  have low := here.low
  have low' := holds.1
  have high : va < 2 ^ 64 := holds.2.trans_le (Nat.le_of_lt (Nat.mod_lt _ (by decide)))
  unfold pgrounddown sub64 u64
  unfold PGSIZE at *
  omega

theorem lt_readLength {size off n k : Nat} (small : size < 2 ^ 31) (short : n ≤ PGSIZE) :
    k < readLength size off n ↔ k < n ∧ off + k < size := by
  unfold readLength u32
  unfold PGSIZE at short
  split
  · omega
  · split
    · omega
    · omega

theorem loaded_byte (filled : v.Filled) (holds : v.Holds va) (here : v.OnPage va a)
    (behind : s.inodeOf v = some i) (solid : s.Solid (s.copyOf i)) :
    overlay (fun _ => 0) 0 (s.pageBytes v va) (a % PGSIZE) =
      if a - v.start < v.fileLength + v.start ∧ v.readPos a < (s.copyOf i).size then
        s.fileByte (s.copyOf i) (v.readPos a) else 0 := by
  obtain ⟨offset, relative⟩ := filled.page_offset holds here
  have wrap := filled.no_wrap holds
  have file := filled.file
  have stop : u64 (v.fileLength + v.start) = v.fileLength + v.start := Nat.mod_eq_of_lt (by omega)
  have small : (s.copyOf i).size < 2 ^ 31 := solid.small.trans_lt (by decide)
  have inPage : a % PGSIZE < PGSIZE := Nat.mod_lt _ (by decide)
  unfold Sys.inodeOf at behind
  unfold Sys.pageBytes Vma.readPos
  rw [behind, offset, stop]
  dsimp only
  generalize pgrounddown (a - v.start) = pa at *
  by_cases part : v.fileLength + v.start > pa
  · rw [if_pos part]
    have remaining : sub64 (v.fileLength + v.start) pa = v.fileLength + v.start - pa := by
      unfold sub64 u64
      omega
    rw [remaining]
    have count : a % PGSIZE < readLength (s.copyOf i).size (u32 (pa + v.offset))
        (min PGSIZE (v.fileLength + v.start - pa)) ↔ _ := lt_readLength small (Nat.min_le_left ..)
    by_cases read : a % PGSIZE < readLength (s.copyOf i).size (u32 (pa + v.offset))
        (min PGSIZE (v.fileLength + v.start - pa))
    · rw [overlay_slice (Nat.zero_le _) (by omega), Nat.sub_zero, if_pos]
      exact ⟨by omega, (count.mp read).2⟩
    · rw [overlay_outside (by rw [length_slice]; omega), if_neg]
      intro inside
      exact read (count.mpr ⟨by omega, inside.2⟩)
  · rw [if_neg part, overlay_nil, if_neg (by omega)]

theorem loaded_byte_iff (filled : v.Filled) (holds : v.Holds va) (here : v.OnPage va a)
    (solid : ∀ i, s.inodeOf v = some i → s.Solid (s.copyOf i)) :
    overlay (fun _ => 0) 0 (s.pageBytes v va) (a % PGSIZE) = s.shownByte v a ↔ ∀ i, s.inodeOf v = some i →
        v.fileLength ≤ a - v.start ∨ 2 ^ 32 ≤ pgrounddown (a - v.start) + v.offset →
        a - v.start < v.fileLength + v.start → v.readPos a < (s.copyOf i).size →
        s.fileByte (s.copyOf i) (v.readPos a) = 0 := by
  unfold Sys.shownByte
  cases behind : s.inodeOf v with
  | none =>
    unfold Sys.inodeOf at behind
    unfold Sys.pageBytes
    rw [behind]
    simp
  | some i =>
    have solid := solid i behind
    have small : (s.copyOf i).size < 2 ^ 31 := solid.small.trans_lt (by decide)
    have relative := (filled.page_offset holds here).2
    rw [loaded_byte filled holds here behind solid]
    simp only [Option.some.injEq, forall_eq']
    by_cases stray : v.fileLength ≤ a - v.start ∨ 2 ^ 32 ≤ pgrounddown (a - v.start) + v.offset
    · have unseen : ¬(a - v.start < v.fileLength ∧ v.offset + (a - v.start) < (s.copyOf i).size) := by omega
      rw [if_neg unseen]
      simp only [stray, true_implies]
      split
      · rename_i read
        exact ⟨fun zero _ _ => zero, fun zero => zero read.1 read.2⟩
      · rename_i unread
        exact iff_of_true rfl fun part read => absurd ⟨part, read⟩ unread
    · have position : v.readPos a = v.offset + (a - v.start) := by
        unfold Vma.readPos u32
        omega
      simp only [stray, false_implies, iff_true, position]
      rw [not_or, Nat.not_le, Nat.not_le] at stray
      by_cases inside : v.offset + (a - v.start) < (s.copyOf i).size
      · rw [if_pos ⟨by omega, inside⟩, if_pos ⟨stray.1, inside⟩]
      · rw [if_neg fun wrong => inside wrong.2, if_neg fun wrong => inside wrong.2]

end Load

theorem lazyalloc_low {s s' : Sys} {root page : PageNo} {va : Nat} {vma : VmaRef}
    (run : Returns (lazyalloc root va vma) s (some page) s') : va < MAXVA := by
  simp only [lazyalloc, returns_bind, returns_kalloc] at run
  obtain ⟨_, _, ⟨-, rfl, -⟩ | ⟨page, pages, -, rfl, rfl⟩, run⟩ := run
  · exact absurd run (by simp)
  · rw [returns_bind] at run
    obtain ⟨_, _, -, run⟩ := run
    rw [returns_get_bind, returns_bind] at run
    obtain ⟨_, _, -, run⟩ := run
    obtain ⟨_, _, mapped, -⟩ := returns_bind.mp run
    unfold mappages at mapped
    rw [returns_failIf_bind] at mapped
    obtain ⟨_, _, walked, -⟩ := returns_bind.mp mapped.2
    unfold walk at walked
    rw [returns_failIf_bind] at walked
    have low := Nat.lt_of_not_le walked.1
    unfold pgrounddown PGSIZE MAXVA at low
    unfold MAXVA
    omega

def bssProcess : Sys :=
  .single ⟨true, PGSIZE, PGSIZE, 16, some 0, 0, PROT_READ ||| PROT_WRITE, MAP_PRIVATE, none⟩
    [0x87ff0, 0x87ff1, 0x87ff2]

theorem bssProcess_filled : (bssProcess.vmas.get (.slot 0)).Filled :=
  ⟨by decide, by decide, by decide⟩

def textProcess : Sys :=
  .single ⟨true, 0, 5000, 5000, some 0, 0, PROT_READ ||| PROT_EXEC, MAP_PRIVATE, none⟩ [0x87ff0, 0x87ff1, 0x87ff2]

theorem textProcess_solid : textProcess.Solid (textProcess.copyOf 0) := by
  intro bn below
  have small : bn < 6 := by
    change bn * 1024 < 6000 at below
    omega
  have direct : textProcess.blockOf (textProcess.copyOf 0) bn = 50 + bn := by
    unfold Sys.blockOf
    rw [dif_pos (show bn < NDIRECT by unfold NDIRECT; omega)]
    exact if_pos small
  rw [direct]
  omega

end DeisoXv6
