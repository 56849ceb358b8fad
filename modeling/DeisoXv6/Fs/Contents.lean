import DeisoXv6.Vm.Access

/-! The contents of a file, and that readi reads them. Files have no holes below their size, as the
operations of the file system keep them. -/

set_option autoImplicit false

namespace DeisoXv6

open Function Semantics Bytes Sys

/-- What ilock makes of the inode: the copy in memory, or the one on disk where that is not valid. -/
def Sys.copyOf (s : Sys) (i : InodeId) : Dinode :=
  if (s.inode i).valid then (s.inode i).copy else s.dinode (s.inode i).inum

section Bytes

variable (s : Sys) (d : Dinode)

/-- The disk block of block `bn` of the file, 0 where it has none. -/
def Sys.blockOf (bn : Nat) : Nat :=
  if direct : bn < NDIRECT then d.addrs ⟨bn, Nat.lt_succ_of_lt direct⟩
  else if bn - NDIRECT < NINDIRECT ∧ d.addrs (Fin.last NDIRECT) ≠ 0 then
    (s.block (d.addrs (Fin.last NDIRECT))).word (bn - NDIRECT)
  else 0

def Sys.fileByte (pos : Nat) : UInt8 := (s.block (s.blockOf d (pos / BSIZE))).bytes (pos % BSIZE)

def Sys.Solid : Prop := ∀ bn, bn * BSIZE < d.size → s.blockOf d bn ≠ 0

end Bytes

variable {bn off : Nat} {e : Fault} {u : Unit}

section Blocks

variable {s s' : Sys} {d : Dinode} {i : InodeId}

theorem blockOf_congr (same : s'.block = s.block) : s'.blockOf d bn = s.blockOf d bn := by
  unfold blockOf
  rw [same]

theorem fileByte_congr (same : s'.block = s.block) : s'.fileByte d = s.fileByte d := by
  funext pos
  unfold fileByte
  rw [blockOf_congr same, same]

theorem Sys.Solid.small (solid : s.Solid d) : d.size ≤ MAXFILE * BSIZE := by
  by_contra large
  refine solid MAXFILE (by omega) ?_
  unfold blockOf
  rw [dif_neg (by decide), if_neg]
  exact fun wrong => absurd wrong.1 (by decide)

theorem Sys.Solid.block (solid : s.Solid d) {pos : Nat} (below : pos < d.size) : s.blockOf d (pos / BSIZE) ≠ 0 :=
  solid _ (by unfold BSIZE; omega)

variable {a : Nat}

theorem returns_addrAlloc {k : Fin (NDIRECT + 1)} (present : (s.inode i).copy.addrs k ≠ 0)
    (run : Returns (addrAlloc i k) s a s') : a = (s.inode i).copy.addrs k ∧ s' = s := by
  unfold addrAlloc at run
  rw [returns_get_bind, if_pos present] at run
  exact returns_pure.mp run

theorem returns_bmap (present : s.blockOf (s.inode i).copy bn ≠ 0)
    (run : Returns (bmap i bn) s a s') : a = s.blockOf (s.inode i).copy bn ∧ s' = s := by
  unfold bmap at run
  unfold blockOf at present ⊢
  split at run
  · rename_i direct
    rw [dif_pos direct] at present ⊢
    exact returns_addrAlloc present run
  · rename_i indirect
    rw [dif_neg indirect] at present ⊢
    split at present
    · rename_i here
      rw [if_pos here.1, returns_bind] at run
      obtain ⟨b, t, first, run⟩ := run
      obtain ⟨rfl, rfl⟩ := returns_addrAlloc here.2 first
      unfold indirectAlloc at run
      rw [returns_get_bind, if_pos present] at run
      rw [if_pos here]
      exact returns_pure.mp run
    · contradiction

theorem slice_block {m : Nat} (inside : m ≤ BSIZE - off % BSIZE) :
    slice (s.block (s.blockOf d (off / BSIZE))).bytes (off % BSIZE) m = slice (s.fileByte d) off m := by
  refine List.map_congr_left fun k member => ?_
  have small : k < m := List.mem_range.mp member
  unfold fileByte BSIZE at *
  rw [show (off + k) / 1024 = off / 1024 by omega, show (off + k) % 1024 = off % 1024 + k by omega]

end Blocks

section Read

variable {s s' : Sys} {page : PageNo} {i : InodeId}

theorem store_nil : s.store page off [] = s := by
  unfold store
  rw [overlay_nil, update_eq_self]

theorem store_store {first second : List UInt8} :
    (s.store page off first).store page (off + first.length) second = s.store page off (first ++ second) := by
  unfold store
  simp only [update_self, update_idem, overlay_append]

variable {fuel n dst : Nat}

theorem returns_readLoop {r : Option Nat} (enough : n ≤ fuel)
    (solid : s.Solid (s.inode i).copy) (inside : off + n ≤ (s.inode i).copy.size)
    (run : Returns (readLoop (storeAt page) i fuel off n dst) s r s') :
    s' = s.store page dst (slice (s.fileByte (s.inode i).copy) off n) := by
  induction fuel generalizing off n dst s with
  | zero =>
    obtain rfl : n = 0 := by omega
    rw [(returns_pure.mp run).2]
    exact store_nil.symm
  | succ fuel ih =>
    unfold readLoop at run
    split at run
    · rename_i empty
      subst empty
      rw [(returns_pure.mp run).2]
      exact store_nil.symm
    · rename_i more
      obtain ⟨addr, t, mapped, run⟩ := returns_bind.mp run
      obtain ⟨rfl, rfl⟩ := returns_bmap (solid.block (by omega)) mapped
      rw [returns_get_bind] at run
      have turn : 0 < BSIZE - off % BSIZE := Nat.sub_pos_of_lt (Nat.mod_lt _ (by decide))
      generalize turn_eq : min n (BSIZE - off % BSIZE) = m at run
      dsimp only at run
      rw [slice_block (by omega)] at run
      simp only [storeAt, bind_assoc, returns_modify_bind, pure_bind, length_slice] at run
      have rest := ih (s := t.store page dst (slice (t.fileByte (t.inode i).copy) off m)) (by omega) solid
        (by change off + m + (n - m) ≤ (t.inode i).copy.size; omega) run
      rw [rest]
      have split : slice (t.fileByte (t.inode i).copy) off n =
          slice (t.fileByte (t.inode i).copy) off m ++ slice (t.fileByte (t.inode i).copy) (off + m) (n - m) := by
        rw [← slice_add, Nat.add_sub_cancel' (by omega)]
      rw [split, ← store_store, length_slice]
      rfl

def readLength (size off n : Nat) : Nat :=
  if off > size ∨ u32 (off + n) < off then 0 else if u32 (off + n) > size then size - off else n

theorem returns_readi {r : Option (Nat × Nat)} (solid : s.Solid (s.inode i).copy)
    (uint : n < 2 ^ 32) (run : Returns (readi (storeAt page) i off n 0) s r s') :
    s' = s.store page 0 (slice (s.fileByte (s.inode i).copy) off (readLength (s.inode i).copy.size off n)) := by
  have small := solid.small
  unfold readi at run
  unfold readLength
  rw [returns_get_bind] at run
  dsimp only at run
  split at run
  · rename_i outside
    rw [if_pos outside, (returns_pure.mp run).2]
    exact store_nil.symm
  · rename_i inside
    rw [if_neg inside]
    obtain ⟨last, t, loop, run⟩ := returns_bind.mp run
    rw [(returns_pure.mp run).2]
    refine returns_readLoop (le_rfl) solid ?_ loop
    have bound : MAXFILE * BSIZE < 2 ^ 31 := by decide
    unfold u32 at inside ⊢
    split
    · omega
    · omega

theorem fails_bmap (present : s.blockOf (s.inode i).copy bn ≠ 0) : ¬Fails (bmap i bn) s e := by
  intro fails
  unfold bmap at fails
  unfold blockOf at present
  split at fails
  · rename_i direct
    rw [dif_pos direct] at present
    unfold addrAlloc at fails
    rw [fails_get_bind, if_pos present] at fails
    exact fails_pure fails
  · rename_i indirect
    rw [dif_neg indirect] at present
    split at present
    · rename_i here
      rw [if_pos here.1] at fails
      rcases fails_bind.mp fails with early | ⟨b, t, first, later⟩
      · unfold addrAlloc at early
        rw [fails_get_bind, if_pos here.2] at early
        exact fails_pure early
      · obtain ⟨rfl, rfl⟩ := returns_addrAlloc here.2 first
        unfold indirectAlloc at later
        rw [fails_get_bind, if_pos present] at later
        exact fails_pure later
    · contradiction

theorem fails_readLoop (solid : s.Solid (s.inode i).copy)
    (inside : off + n ≤ (s.inode i).copy.size) : ¬Fails (readLoop (storeAt page) i fuel off n dst) s e := by
  induction fuel generalizing off n dst s with
  | zero => exact fails_pure
  | succ fuel ih =>
    unfold readLoop
    split
    · exact fails_pure
    · rename_i more
      intro fails
      rcases fails_bind.mp fails with early | ⟨addr, t, mapped, later⟩
      · exact fails_bmap (solid.block (by omega)) early
      · obtain ⟨-, rfl⟩ := returns_bmap (solid.block (by omega)) mapped
        rw [fails_get_bind] at later
        generalize turn_eq : min n (BSIZE - off % BSIZE) = m at later
        simp only [storeAt, bind_assoc, fails_modify_bind, pure_bind] at later
        refine ih ?_ ?_ later
        · exact solid
        · change off + m + (n - m) ≤ (t.inode i).copy.size
          omega

theorem fails_readi (solid : s.Solid (s.inode i).copy) (uint : n < 2 ^ 32) :
    ¬Fails (readi (storeAt page) i off n 0) s e := by
  have small := solid.small
  have bound : MAXFILE * BSIZE < 2 ^ 31 := by decide
  unfold readi
  rw [fails_get_bind]
  dsimp only
  split
  · exact fails_pure
  · rename_i inside
    intro fails
    rcases fails_bind.mp fails with early | ⟨last, t, loop, later⟩
    · refine fails_readLoop solid ?_ early
      unfold u32 at inside ⊢
      split
      · omega
      · omega
    · exact fails_pure later

structure Sys.Ready (s : Sys) (i : InodeId) : Prop where
  ref : 1 ≤ (s.inode i).ref
  unlocked : (s.inode i).locked = false
  typed : (s.copyOf i).type ≠ .free
  solid : s.Solid (s.copyOf i)

theorem fails_ilock (ready : s.Ready i) : ¬Fails (ilock (some i)) s e := by
  have typed := ready.typed
  unfold ilock
  rw [fails_get_bind, fails_failIf_bind, fails_failIf_bind]
  rintro (⟨unused, -⟩ | ⟨-, ⟨locked, -⟩ | ⟨-, later⟩⟩)
  · exact absurd ready.ref (by omega)
  · rw [ready.unlocked] at locked
    contradiction
  · unfold copyOf at typed
    split at later
    · exact (Never.bind .modify fun _ => .pure) _ _ later
    · rename_i stale
      rw [if_neg stale] at typed
      rw [fails_modify_bind, fails_failIf_bind] at later
      rcases later with ⟨wrong, -⟩ | ⟨-, later⟩
      · exact typed wrong
      · exact fails_pure later

theorem fails_iunlock (locked : (s.inode i).locked = true) (ref : 1 ≤ (s.inode i).ref) : ¬Fails (iunlock i) s e := by
  unfold iunlock
  rw [fails_get_bind, fails_failIf_bind]
  rintro (⟨wrong | wrong, -⟩ | ⟨-, later⟩)
  · rw [locked] at wrong
    contradiction
  · omega
  · exact fails_modify later

def Sys.refreshed (s : Sys) (i : InodeId) : Sys :=
  s.setInode i { s.inode i with valid := true, copy := s.copyOf i }

def Sys.setLocked (s : Sys) (i : InodeId) (locked : Bool) : Sys :=
  s.setInode i { s.inode i with locked }

theorem returns_ilock {a : InodeId} (run : Returns (ilock (some i)) s a s') :
    a = i ∧ (s.inode i).locked = false ∧ s' = (s.refreshed i).setLocked i true := by
  unfold ilock at run
  rw [returns_get_bind, returns_failIf_bind, returns_failIf_bind] at run
  obtain ⟨-, unlocked, run⟩ := run
  have state : ∀ ip, (s.setInode i ip).setLocked i true = s.setInode i { ip with locked := true } := by
    intro ip
    simp only [setLocked, setInode, update_self, update_idem]
  unfold refreshed
  rw [state, copyOf]
  split at run
  · rename_i valid
    rw [returns_modify_bind] at run
    obtain ⟨rfl, rfl⟩ := returns_pure.mp run
    refine ⟨rfl, by simpa using unlocked, ?_⟩
    rw [if_pos valid, ← valid]
  · rename_i stale
    rw [returns_modify_bind, returns_failIf_bind] at run
    obtain ⟨rfl, rfl⟩ := returns_pure.mp run.2
    refine ⟨rfl, by simpa using unlocked, ?_⟩
    rw [if_neg stale]

theorem returns_iunlock (run : Returns (iunlock i) s u s') : s' = s.setLocked i false := by
  unfold iunlock at run
  rw [returns_get_bind, returns_failIf_bind] at run
  exact returns_modify.mp run.2

end Read

/-- The bytes that lazyalloc reads for the page of `va`. -/
def Sys.pageBytes (s : Sys) (v : Vma) (va : Nat) : List UInt8 :=
  match v.file.bind fun f => (s.file f).ip with
  | none => []
  | some i =>
    let pa := pgrounddown (sub64 va v.start)
    let stop := u64 (v.fileLength + v.start)
    let off := u32 (pa + v.offset)
    if stop > pa then
      slice (s.fileByte (s.copyOf i)) off (readLength (s.copyOf i).size off (min PGSIZE (sub64 stop pa)))
    else []

section Load

variable {s s' : Sys} {page : PageNo} {v : Vma} {va : Nat}

variable {j : InodeId}

theorem copyOf_refreshed {i : InodeId} : (s.refreshed i).copyOf j = s.copyOf j := by
  unfold refreshed setInode
  by_cases same : j = i
  · subst same
    simp [copyOf]
  · simp [copyOf, same]

theorem copyOf_setLocked {i : InodeId} {locked : Bool} : (s.setLocked i locked).copyOf j = s.copyOf j := by
  unfold setLocked setInode
  by_cases same : j = i
  · subst same
    simp [copyOf]
  · simp [copyOf, same]

theorem returns_loadPage (solid : ∀ f i, v.file = some f → (s.file f).ip = some i → s.Solid (s.copyOf i))
    (run : Returns (loadPage page v va) s u s') :
    s'.mem page = overlay (s.mem page) 0 (s.pageBytes v va) ∧ s'.block = s.block ∧
      ∀ j, s'.copyOf j = s.copyOf j ∧ (s'.inode j).ref = (s.inode j).ref ∧
        (s'.inode j).locked = (s.inode j).locked := by
  unfold loadPage at run
  unfold pageBytes
  split at run
  · rename_i none
    rw [none, Option.bind_none, (returns_pure.mp run).2]
    exact ⟨overlay_nil.symm, rfl, fun _ => ⟨rfl, rfl, rfl⟩⟩
  · rename_i f file
    rw [file, Option.bind_some]
    dsimp only at run ⊢
    unfold onlyIf at run
    split at run
    · rename_i part
      rw [returns_get_bind, returns_failIf_bind] at run
      obtain ⟨i, t, locks, run⟩ := returns_bind.mp run.2
      cases place : (s.file f).ip with
      | none =>
        rw [place] at locks
        exact absurd locks returns_throw
      | some ip =>
        rw [place] at locks
        obtain ⟨rfl, unlocked, rfl⟩ := returns_ilock locks
        obtain ⟨r, t, reads, run⟩ := returns_bind.mp run
        rw [← min_def'] at reads
        have copy : (((s.refreshed i).setLocked i true).inode i).copy = s.copyOf i := by
          simp [setLocked, refreshed, setInode]
        have whole : ((s.refreshed i).setLocked i true).Solid (s.copyOf i) := fun bn below =>
          blockOf_congr rfl ▸ solid f i file place bn below
        have short : min PGSIZE (sub64 (u64 (v.fileLength + v.start)) (pgrounddown (sub64 va v.start))) <
            2 ^ 32 := Nat.lt_of_le_of_lt (Nat.min_le_left ..) (by decide)
        have page' := returns_readi (copy ▸ whole) short reads
        have bytes : ((s.refreshed i).setLocked i true).fileByte (s.copyOf i) = s.fileByte (s.copyOf i) :=
          fileByte_congr rfl
        rw [copy, bytes] at page'
        dsimp only
        rw [returns_iunlock run, page', if_pos part]
        refine ⟨update_self .., rfl, fun j => ⟨?_, ?_⟩⟩
        · rw [copyOf_setLocked]
          exact (copyOf_setLocked (s := s.refreshed i)).trans copyOf_refreshed
        · by_cases same : j = i
          · subst same
            simp [setLocked, refreshed, setInode, store, unlocked]
          · simp [setLocked, refreshed, setInode, store, same]
    · rename_i outside
      rw [(returns_pure.mp run).2]
      refine ⟨?_, rfl, fun _ => ⟨rfl, rfl, rfl⟩⟩
      split
      · exact overlay_nil.symm
      · rw [if_neg outside]
        exact overlay_nil.symm

/-- lazyalloc reads from the file for the page of `va`. -/
def Vma.Loads (v : Vma) (va : Nat) : Prop :=
  v.file.isSome ∧ u64 (v.fileLength + v.start) > pgrounddown (sub64 va v.start)

theorem fails_loadPage (ready : ∀ f, v.file = some f → ∃ i, (s.file f).ip = some i ∧ s.Ready i) :
    Fails (loadPage page v va) s e ↔ v.Loads va ∧ s.spinlocks ≠ 0 ∧ e = .panic .sched := by
  unfold loadPage Vma.Loads
  cases file : v.file with
  | none => simp
  | some f =>
    obtain ⟨i, place, ready⟩ := ready f file
    dsimp only
    unfold onlyIf
    split
    · rename_i part
      rw [fails_get_bind, fails_failIf_bind, place]
      simp only [Option.isSome_some, part, and_self, true_and]
      refine or_iff_left fun later => ?_
      rcases fails_bind.mp later.2 with early | ⟨a, t, locks, later⟩
      · exact fails_ilock ready early
      · obtain ⟨rfl, -, rfl⟩ := returns_ilock locks
        have copy : (((s.refreshed a).setLocked a true).inode a).copy = s.copyOf a := by
          simp [setLocked, refreshed, setInode]
        have solid : ((s.refreshed a).setLocked a true).Solid (s.copyOf a) := fun bn below =>
          blockOf_congr rfl ▸ ready.solid bn below
        rw [← min_def'] at later
        have short : min PGSIZE (sub64 (u64 (v.fileLength + v.start)) (pgrounddown (sub64 va v.start))) <
            2 ^ 32 := Nat.lt_of_le_of_lt (Nat.min_le_left ..) (by decide)
        rcases fails_bind.mp later with reading | ⟨r, t, reads, later⟩
        · exact fails_readi (copy ▸ solid) short reading
        · rw [returns_readi (copy ▸ solid) short reads] at later
          refine fails_iunlock ?_ ?_ later
          · simp [setLocked, setInode, store]
          · have ref := ready.ref
            simpa [setLocked, refreshed, setInode, store] using ref
    · rename_i none
      simp [none]

end Load

end DeisoXv6
