import DeisoXv6.Vm.FileKept

/-! Writes that end early. either_copyin stores page after page into the cached block, so when it fails it may
have stored bytes that writei neither reports nor logs. -/

set_option autoImplicit false

namespace DeisoXv6

open Function Semantics Bytes

section Short

variable (i : InodeId) (off k tot : Nat) (data : Nat → UInt8) (logged : Nat → Prop) (disk : Nat → Block) (s t : Sys)

/-- The blocks that writei passes to log_write on its way from `s` to `t`: the ones that balloc clears, the
indirect block if it gets an entry, and those into which all bytes have been copied. -/
def Logs (b : Nat) : Prop :=
  s.bitmap b = false ∧ t.bitmap b = true ∨ b = (s.inode i).copy.table ∧ t.block b ≠ s.block b ∨
    ∃ pos, off ≤ pos ∧ pos < off + tot ∧ t.blockOf (t.inode i).copy (pos / BSIZE) = b

/-- Only the `tot` bytes that writei reports are in the file, and a cached block that the log will not write is
the one on the disk. -/
structure LeavesUnreported : Prop where
  size : (t.inode i).copy.size = max (s.inode i).copy.size (off + tot)
  bytes : ∀ pos < (t.inode i).copy.size,
    t.fileByte (t.inode i).copy pos = overlay (s.fileByte (s.inode i).copy) off (slice data 0 tot) pos
  cached : ∀ b, logged b ∨ Logs i off tot s t b ∨ t.block b = disk b

/-- What the failing copy got is what was there, as far as it went to bytes of the file or to a block of the file
that the log was not going to write. -/
def Repeats : Prop :=
  ∀ pos, stopAt off k ≤ pos → pos < off + k → pos < (s.inode i).copy.size ∨
      s.blockOf (s.inode i).copy (pos / BSIZE) ≠ 0 ∧ ¬logged (s.blockOf (s.inode i).copy (pos / BSIZE)) →
    s.fileByte (s.inode i).copy pos = data (pos - off)

end Short

section Iff

variable {s t u : Sys} {i : InodeId} {off n k tot : Nat} {data : Nat → UInt8} {logged : Nat → Prop}
  {disk : Nat → Block}

theorem block_eq_of_fileByte {d d' : Dinode} {bn : Nat} (same : t.blockOf d' bn = s.blockOf d bn)
    (bytes : ∀ pos, pos / BSIZE = bn → t.fileByte d' pos = s.fileByte d pos) :
    t.block (s.blockOf d bn) = s.block (s.blockOf d bn) := by
  ext x
  have small := x.isLt
  have place : (bn * BSIZE + x) / BSIZE = bn ∧ (bn * BSIZE + x) % BSIZE = x := by
    unfold BSIZE at *
    omega
  have byte := bytes (bn * BSIZE + x) place.1
  unfold Sys.fileByte Block.bytes at byte
  rw [place.1, place.2, same, dif_pos small, dif_pos small] at byte
  exact congrArg UInt8.toNat byte

theorem leavesUnreported_iff (wrote : Wrote i off (slice data 0 k) s (s.withFile i u))
    (laid : s.Laid (s.inode i).copy) (solid : s.Solid (s.inode i).copy) (inside : off ≤ (s.inode i).copy.size)
    (stops : stopAt off k = off + tot) (synced : ∀ b, logged b ∨ s.block b = disk b) :
    LeavesUnreported i off tot data logged disk s (u.resized i (max (u.inode i).copy.size (off + tot))) ↔
      Repeats i off k data logged s := by
  generalize after : u.resized i (max (u.inode i).copy.size (off + tot)) = t
  have here : (s.withFile i u).inode i = u.inode i := update_self ..
  have copy : (t.inode i).copy = { (u.inode i).copy with size := max (u.inode i).copy.size (off + tot) } := by
    rw [← after]
    simp only [Sys.resized, Sys.setCopy, Sys.setInode, update_self]
  have block : t.block = u.block := by rw [← after]; rfl
  have bitmap : t.bitmap = u.bitmap := by rw [← after]; rfl
  have size : (u.inode i).copy.size = (s.inode i).copy.size := by rw [← here, wrote.size]
  have blocks : ∀ bn, t.blockOf (t.inode i).copy bn =
      (s.withFile i u).blockOf ((s.withFile i u).inode i).copy bn := by
    intro bn
    rw [here, copy, blockOf_congr block]
    rfl
  have kept : ∀ bn, s.blockOf (s.inode i).copy bn ≠ 0 →
      t.blockOf (t.inode i).copy bn = s.blockOf (s.inode i).copy bn := fun bn present =>
    (blocks bn).trans (wrote.kept bn present)
  have bytes : ∀ pos, s.blockOf (s.inode i).copy (pos / BSIZE) ≠ 0 ∨ (off ≤ pos ∧ pos < off + k) →
      t.fileByte (t.inode i).copy pos = overlay (s.fileByte (s.inode i).copy) off (slice data 0 k) pos := by
    intro pos inside
    rw [← wrote.bytes pos (by rwa [length_slice]), here, copy, fileByte_congr block]
    rfl
  have short : off + tot ≤ off + k := by
    unfold stopAt BSIZE at stops
    omega
  have copied : ∀ pos, off ≤ pos → pos < off + k → t.fileByte (t.inode i).copy pos = data (pos - off) := by
    intro pos low high
    rw [bytes pos (.inr ⟨low, high⟩), overlay_slice low high, Nat.zero_add]
  constructor
  · intro leaves pos low high reason
    rw [stops] at low
    rw [← copied pos (by omega) high]
    rcases reason with old | ⟨present, unlogged⟩
    · have new := leaves.bytes pos (by rw [leaves.size]; omega)
      rw [overlay_outside (.inr (by rwa [length_slice]))] at new
      exact new.symm
    · have clean : t.block (s.blockOf (s.inode i).copy (pos / BSIZE)) =
          s.block (s.blockOf (s.inode i).copy (pos / BSIZE)) := by
        rcases leaves.cached _ with wrong | (⟨free, -⟩ | ⟨table, -⟩ | ⟨earlier, from_, upto, same⟩) | synced'
        · contradiction
        · rw [laid.marked _ ⟨present, .inr ⟨_, rfl⟩⟩] at free
          contradiction
        · exact absurd table (laid.table _ present)
        · -- a block that was filled ends before the place where writei stops
          rw [← kept _ present, blocks, blocks] at same
          have one := wrote.laid.apart _ _ (same ▸ wrote.kept _ present ▸ present) same
          unfold stopAt BSIZE at *
          omega
        · rw [synced', (synced _).resolve_left unlogged]
      unfold Sys.fileByte
      rw [kept _ present, clean]
  · intro repeats
    refine ⟨by rw [copy, ← size], fun pos below => ?_, fun b => ?_⟩
    · have reach : pos < max (s.inode i).copy.size (off + tot) := by rwa [copy, size] at below
      by_cases gap : off + tot ≤ pos ∧ pos < off + k
      · rw [copied pos (by omega) gap.2, overlay_outside (.inr (by rw [length_slice]; exact gap.1))]
        exact (repeats pos (stops ▸ gap.1) gap.2 (.inl (by omega))).symm
      · have covered : s.blockOf (s.inode i).copy (pos / BSIZE) ≠ 0 ∨ (off ≤ pos ∧ pos < off + k) := by
          by_cases old : pos < (s.inode i).copy.size
          · exact .inl (solid.block old)
          · exact .inr (by omega)
        rw [bytes pos covered]
        by_cases new : off ≤ pos ∧ pos < off + tot
        · rw [overlay_slice new.1 new.2, overlay_slice new.1 (by omega)]
        · rw [overlay_outside (by rw [length_slice]; omega), overlay_outside (by rw [length_slice]; omega)]
    · by_cases old : logged b
      · exact .inl old
      · rw [← (synced b).resolve_left old]
        refine .inr ?_
        by_contra neither
        obtain ⟨unlogged, differs⟩ := not_or.mp neither
        have used : s.bitmap b = true := by
          by_contra free
          have free : s.bitmap b = false := by simpa using free
          cases now : t.bitmap b with
          | true => exact unlogged (.inl ⟨free, now⟩)
          | false => exact differs (block ▸ wrote.spare b (bitmap ▸ now))
        by_cases has : s.HasBlock (s.inode i).copy b
        · obtain ⟨present, rfl | ⟨bn, rfl⟩⟩ := has
          · exact unlogged (.inr (.inl ⟨rfl, differs⟩))
          · refine differs (block_eq_of_fileByte (kept bn present) fun pos place => ?_)
            subst place
            rw [bytes pos (.inl present)]
            by_cases copied : off ≤ pos ∧ pos < off + k
            · have late : off + tot ≤ pos := by
                by_contra early
                exact unlogged (.inr (.inr ⟨pos, copied.1, by omega, kept _ present⟩))
              rw [overlay_slice copied.1 copied.2, Nat.zero_add]
              exact (repeats pos (stops ▸ late) copied.2 (.inr ⟨present, old⟩)).symm
            · rw [overlay_outside (by rw [length_slice]; omega)]
        · exact differs (block ▸ wrote.others b used has)

section Writei

variable {α : Type} {copyin : α → Nat → KernelM (List UInt8 × Option α)} {src : Nat → α} {Holds : Sys → Prop}
  {r : Option Nat}

end Writei

end Iff

def unreadableWrite : Sys := { Sys.single heapVma [] with outstanding := 1 }

theorem unreadable_source (n : Nat) : Source copyinUser (fun _ => MAXVA) (fun _ => 0) 0 n 0 fun _ => True := by
  refine ⟨fun _ _ _ _ _ _ => trivial, fun s _ j m more _ r t run => ?_⟩
  obtain ⟨a, t₁, walked, refused, -⟩ := copyinUser_first (show _ = MAXVA by decide) more run
  unfold walkaddr at walked
  rw [if_pos (le_rfl)] at walked
  obtain ⟨rfl, rfl⟩ := returns_pure.mp walked
  obtain ⟨rfl, rfl⟩ := refused rfl
  refine ⟨?_, trivial, rfl, rfl, rfl, rfl⟩
  rw [if_neg (by omega), Nat.zero_sub, Nat.min_zero]
  rfl

end DeisoXv6
