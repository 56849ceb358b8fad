import DeisoXv6.Fs.Contents
import DeisoXv6.Fs.Frame

/-! What writei makes of the contents of a file. Its turns allocate blocks and store bytes in them; each of
these is a write to the file in the sense of `Wrote`, which composes. -/

set_option autoImplicit false

namespace DeisoXv6

open List Function Semantics Bytes

def Dinode.table (d : Dinode) : Nat := d.addrs (Fin.last NDIRECT)

def Sys.HasBlock (s : Sys) (d : Dinode) (b : Nat) : Prop := b ≠ 0 ∧ (b = d.table ∨ ∃ bn, s.blockOf d bn = b)

/-- The blocks of the file are marked in the bitmap, and none serves twice. -/
structure Sys.Laid (s : Sys) (d : Dinode) : Prop where
  uint : s.blocks ≤ 2 ^ 32
  boot : s.bitmap 0 = true
  marked : ∀ b, s.HasBlock d b → s.bitmap b = true
  apart : ∀ m n, s.blockOf d m ≠ 0 → s.blockOf d m = s.blockOf d n → m = n
  table : ∀ bn, s.blockOf d bn ≠ 0 → s.blockOf d bn ≠ d.table

/-- The bytes from `off` on have been written to the file of inode `i`. Its size is as it was, and blocks
that were in use for anything else are, too. -/
structure Wrote (i : InodeId) (off : Nat) (bytes : List UInt8) (s t : Sys) : Prop where
  only : t = { s with inode := t.inode, bitmap := t.bitmap, block := t.block }
  inode : t.inode = update s.inode i
    { s.inode i with copy := { (s.inode i).copy with addrs := (t.inode i).copy.addrs } }
  laid : t.Laid (t.inode i).copy
  kept : ∀ bn, s.blockOf (s.inode i).copy bn ≠ 0 → t.blockOf (t.inode i).copy bn = s.blockOf (s.inode i).copy bn
  here : ∀ pos, off ≤ pos → pos < off + bytes.length → t.blockOf (t.inode i).copy (pos / BSIZE) ≠ 0
  bytes : ∀ pos, s.blockOf (s.inode i).copy (pos / BSIZE) ≠ 0 ∨ (off ≤ pos ∧ pos < off + bytes.length) →
    t.fileByte (t.inode i).copy pos = overlay (s.fileByte (s.inode i).copy) off bytes pos
  marked : ∀ b, s.bitmap b = true → t.bitmap b = true
  own : ∀ b, t.HasBlock (t.inode i).copy b → s.HasBlock (s.inode i).copy b ∨ s.bitmap b = false
  others : ∀ b, s.bitmap b = true → ¬s.HasBlock (s.inode i).copy b → t.block b = s.block b
  spare : ∀ b, t.bitmap b = false → t.block b = s.block b

variable {s t u : Sys} {off : Nat} {α : Type} {bytes : List UInt8}

section Wrote

variable {i : InodeId} {first second : List UInt8}

theorem Wrote.refl (laid : s.Laid (s.inode i).copy) : Wrote i off [] s s where
  only := rfl
  inode := (update_eq_self i s.inode).symm
  laid := laid
  kept _ _ := rfl
  here pos low high := absurd high (by simpa using low)
  bytes pos _ := by rw [overlay_nil]
  marked _ := id
  own _ := .inl
  others _ _ _ := rfl
  spare _ _ := rfl

theorem Wrote.size (wrote : Wrote i off first s t) : (t.inode i).copy.size = (s.inode i).copy.size := by
  rw [wrote.inode, update_self]

theorem Wrote.trans (wrote : Wrote i off first s t) (later : Wrote i (off + first.length) second t u) :
    Wrote i off (first ++ second) s u where
  only := by
    have only := later.only
    rw [wrote.only] at only
    exact only
  inode := by
    have inode := later.inode
    rw [wrote.inode] at inode
    simpa only [update_idem, update_self] using inode
  laid := later.laid
  kept bn present := by
    have same := wrote.kept bn present
    rw [later.kept bn (same ▸ present), same]
  here pos low high := by
    rw [length_append] at high
    by_cases early : pos < off + first.length
    · have present := wrote.here pos low early
      rw [later.kept _ present]
      exact present
    · exact later.here pos (by omega) (by omega)
  bytes pos inside := by
    rw [← overlay_append]
    by_cases late : off + first.length ≤ pos ∧ pos < off + first.length + second.length
    · rw [later.bytes pos (.inr late)]
      unfold overlay
      rw [if_pos late, if_pos late]
    · have early : s.blockOf (s.inode i).copy (pos / BSIZE) ≠ 0 ∨ (off ≤ pos ∧ pos < off + first.length) := by
        rcases inside with old | new
        · exact .inl old
        · rw [length_append] at new
          exact .inr (by omega)
      have present : t.blockOf (t.inode i).copy (pos / BSIZE) ≠ 0 := by
        rcases early with old | new
        · rw [wrote.kept _ old]
          exact old
        · exact wrote.here pos new.1 new.2
      rw [later.bytes pos (.inl present), overlay_outside (by omega), overlay_outside (by omega)]
      exact wrote.bytes pos early
  marked b used := later.marked b (wrote.marked b used)
  own b has := by
    rcases later.own b has with before | free
    · exact wrote.own b before
    · refine .inr ?_
      by_contra used
      rw [wrote.marked b (by simpa using used)] at free
      contradiction
  others b used stranger := by
    rw [later.others b (wrote.marked b used), wrote.others b used stranger]
    intro has
    rcases wrote.own b has with before | free
    · exact stranger before
    · rw [free] at used
      contradiction
  spare b free := by
    have still : t.bitmap b = false := by
      by_contra used
      rw [later.marked b (by simpa using used)] at free
      contradiction
    rw [later.spare b free, wrote.spare b still]

end Wrote

section Alloc

variable {i : InodeId} {d : Dinode} {b bn : Nat}

def Sys.taken (s : Sys) (b : Nat) : Sys := (s.setBitmap b true).setBlock b .zero

theorem returns_logWrite {u : Unit} (run : Returns logWrite s u t) : t = s := by
  unfold logWrite at run
  rw [returns_get_bind] at run
  exact (returns_failIf.mp run).2

theorem returns_balloc (run : Returns balloc s b t) : s.bitmap b = false ∧ b < s.blocks ∧ t = s.taken b := by
  unfold balloc at run
  rw [returns_get_bind] at run
  split at run
  · exact absurd run returns_throw
  · rename_i b' found
    obtain ⟨_, s₁, logged, rest⟩ := returns_bind.mp run
    obtain rfl := returns_logWrite logged
    rw [returns_modify_bind, returns_modify_bind] at rest
    obtain ⟨rfl, rfl⟩ := returns_pure.mp rest
    refine ⟨by simpa using List.find?_some found, ?_, rfl⟩
    exact mem_range.mp (mem_of_find?_eq_some found)

theorem wrote_fresh (place : Option Nat) (laid : s.Laid (s.inode i).copy) (free : s.bitmap b = false)
    (only : t = { s with inode := t.inode, bitmap := t.bitmap, block := t.block })
    (inode : t.inode = update s.inode i
      { s.inode i with copy := { (s.inode i).copy with addrs := (t.inode i).copy.addrs } })
    (bitmap : t.bitmap = update s.bitmap b true)
    (block : ∀ c, c ≠ b → (c = (s.inode i).copy.table → c = 0) → t.block c = s.block c)
    (absent : ∀ m, place = some m → s.blockOf (s.inode i).copy m = 0)
    (blocks : ∀ m, t.blockOf (t.inode i).copy m = if place = some m then b else s.blockOf (s.inode i).copy m)
    (table : (t.inode i).copy.table = if place = none then b else (s.inode i).copy.table) :
    Wrote i off [] s t := by
  have nonzero : b ≠ 0 := by
    rintro rfl
    rw [laid.boot] at free
    contradiction
  have other : ∀ c, s.bitmap c = true → c ≠ b := by
    rintro c used rfl
    rw [free] at used
    contradiction
  have old : ∀ m, s.blockOf (s.inode i).copy m ≠ 0 → s.blockOf (s.inode i).copy m ≠ b := fun m present =>
    other _ (laid.marked _ ⟨present, .inr ⟨m, rfl⟩⟩)
  have kept : ∀ m, s.blockOf (s.inode i).copy m ≠ 0 →
      t.blockOf (t.inode i).copy m = s.blockOf (s.inode i).copy m := by
    intro m present
    rw [blocks, if_neg fun here => present (absent m here)]
  have own : ∀ c, t.HasBlock (t.inode i).copy c → s.HasBlock (s.inode i).copy c ∨ c = b := by
    rintro c ⟨used, rfl | ⟨m, rfl⟩⟩
    · rw [table] at used ⊢
      split at used
      · exact .inr (if_pos ‹_›)
      · rw [if_neg ‹_›]
        exact .inl ⟨used, .inl rfl⟩
    · rw [blocks] at used ⊢
      split at used
      · exact .inr (if_pos ‹_›)
      · rw [if_neg ‹_›]
        exact .inl ⟨used, .inr ⟨m, rfl⟩⟩
  have fresh : ∀ m, t.blockOf (t.inode i).copy m = b → place = some m := by
    intro m here
    by_contra other
    rw [blocks, if_neg other] at here
    exact old m (here ▸ nonzero) here
  have stays : ∀ m, t.blockOf (t.inode i).copy m ≠ b →
      t.blockOf (t.inode i).copy m = s.blockOf (s.inode i).copy m := by
    intro m here
    rw [blocks] at here ⊢
    split
    · exact absurd (if_pos ‹_›) here
    · rfl
  refine ⟨only, inode, ⟨by rw [only]; exact laid.uint, ?_, ?_, ?_, ?_⟩, kept, ?_, ?_, ?_, ?_, ?_, ?_⟩
  · rw [bitmap, update_of_ne nonzero.symm]
    exact laid.boot
  · intro c has
    rw [bitmap]
    rcases own c has with before | rfl
    · have used := laid.marked c before
      rw [update_of_ne (other c used)]
      exact used
    · exact update_self ..
  · intro m n present same
    by_cases here : t.blockOf (t.inode i).copy m = b
    · have second := fresh n (same ▸ here)
      rw [fresh m here] at second
      exact Option.some.inj second
    · rw [stays n (same ▸ here)] at same
      rw [stays m here] at present same
      exact laid.apart m n present same
  · intro m present
    by_cases here : t.blockOf (t.inode i).copy m = b
    · rw [here, table, fresh m here, if_neg (by simp)]
      intro same
      exact other _ (laid.marked _ ⟨same ▸ nonzero, .inl rfl⟩) same.symm
    · rw [stays m here] at present ⊢
      rw [table]
      split
      · exact old m present
      · exact laid.table m present
  · exact fun pos low high => absurd high (by simpa using low)
  · intro pos inside
    have present : s.blockOf (s.inode i).copy (pos / BSIZE) ≠ 0 := by
      rcases inside with present | none
      · exact present
      · exact absurd none.2 (by simpa using none.1)
    rw [overlay_nil]
    unfold Sys.fileByte
    rw [kept _ present, block _ (old _ present) fun same => absurd same (laid.table _ present)]
  · intro c used
    rw [bitmap, update_of_ne (other c used)]
    exact used
  · intro c has
    rcases own c has with before | rfl
    · exact .inl before
    · exact .inr free
  · intro c used stranger
    exact block c (other c used) fun same => by
      by_contra nonzero
      exact stranger ⟨nonzero, .inl same⟩
  · intro c unused
    rw [bitmap, update_apply] at unused
    split at unused
    · contradiction
    · refine block c ‹_› fun same => ?_
      by_contra nonzero
      rw [laid.marked c ⟨nonzero, .inl same⟩] at unused
      contradiction

theorem Sys.Laid.fresh (laid : s.Laid d) (free : s.bitmap b = false) {c : Nat} (has : s.HasBlock d c) : c ≠ b := by
  rintro rfl
  rw [laid.marked c has] at free
  contradiction

theorem word_zero {n : Nat} : Block.zero.word n = 0 := by
  have zero : Block.zero.bytes = fun _ => 0 := by
    funext x
    unfold Block.bytes Block.zero
    split <;> rfl
  rw [Block.word, zero, LittleEndian.load_zero]

theorem blockOf_direct {bn : Nat} (direct : bn < NDIRECT) :
    s.blockOf d bn = d.addrs ⟨bn, Nat.lt_succ_of_lt direct⟩ := dif_pos direct

theorem blockOf_indirect {bn : Nat} (indirect : ¬bn < NDIRECT) : s.blockOf d bn =
    if bn - NDIRECT < NINDIRECT ∧ d.table ≠ 0 then (s.block d.table).word (bn - NDIRECT) else 0 := dif_neg indirect

theorem wrote_setAddr {k : Fin (NDIRECT + 1)} (laid : s.Laid (s.inode i).copy) (free : s.bitmap b = false)
    (absent : (s.inode i).copy.addrs k = 0) : Wrote i off [] s ((s.taken b).setAddr i k b) := by
  have addrs : (((s.taken b).setAddr i k b).inode i).copy.addrs = update (s.inode i).copy.addrs k b := by
    simp only [Sys.setAddr, Sys.setCopy, Sys.setInode, update_self]
    rfl
  have table : (((s.taken b).setAddr i k b).inode i).copy.table =
      if k = Fin.last NDIRECT then b else (s.inode i).copy.table := by
    rw [Dinode.table, addrs]
    split
    · rename_i last
      rw [last, update_self]
    · rename_i other
      rw [update_of_ne (Ne.symm other)]
      rfl
  have block : ((s.taken b).setAddr i k b).block = update s.block b .zero := rfl
  refine wrote_fresh (if k = Fin.last NDIRECT then none else some k) laid free rfl ?_ rfl ?_ ?_ ?_ ?_
  · simp only [Sys.setAddr, Sys.setCopy, Sys.setInode, update_self]
    rfl
  · intro c other _
    rw [block, update_of_ne other]
  · intro m here
    split at here
    · contradiction
    · rename_i direct
      obtain rfl := Option.some.inj here
      have small : k.val < NDIRECT := Fin.val_lt_last direct
      rw [blockOf_direct small]
      exact absent
  · intro m
    by_cases direct : m < NDIRECT
    · rw [blockOf_direct direct, blockOf_direct direct, addrs, update_apply]
      have same : (⟨m, by omega⟩ : Fin (NDIRECT + 1)) = k ↔
          (if k = Fin.last NDIRECT then none else some k.val) = some m := by
        split
        · rename_i last
          subst last
          simp only [reduceCtorEq, iff_false]
          intro same
          exact absurd (congrArg Fin.val same) (Nat.ne_of_lt direct)
        · rw [Fin.ext_iff, Option.some.injEq, eq_comm]
      simp only [same]
    · have elsewhere : (if k = Fin.last NDIRECT then none else some k.val) ≠ some m := by
        split
        · simp
        · rename_i other
          have small : k.val < NDIRECT := Fin.val_lt_last other
          intro same
          exact direct (Option.some.inj same ▸ small)
      rw [if_neg elsewhere, blockOf_indirect direct, blockOf_indirect direct, table, block]
      by_cases last : k = Fin.last NDIRECT
      · -- the new table is empty, as the missing one was
        subst last
        have none : (s.inode i).copy.table = 0 := absent
        rw [if_pos rfl, update_self, word_zero, none]
        simp
      · rw [if_neg last]
        by_cases none : (s.inode i).copy.table = 0
        · simp [none]
        · rw [update_of_ne (laid.fresh free ⟨none, .inl rfl⟩)]
  · rw [table]
    by_cases last : k = Fin.last NDIRECT
    · simp [last]
    · simp [last]

theorem wrote_setEntry (laid : s.Laid (s.inode i).copy) (free : s.bitmap b = false) (small : b < s.blocks)
    (inside : bn < NINDIRECT) (present : (s.inode i).copy.table ≠ 0)
    (absent : (s.block (s.inode i).copy.table).word bn = 0) :
    Wrote i off [] s ((s.taken b).setBlock (s.inode i).copy.table
      (((s.taken b).block (s.inode i).copy.table).setWord bn b)) := by
  have apart : (s.inode i).copy.table ≠ b := laid.fresh free ⟨present, .inl rfl⟩
  have old : (s.taken b).block (s.inode i).copy.table = s.block (s.inode i).copy.table :=
    update_of_ne apart ..
  rw [old]
  refine wrote_fresh (some (NDIRECT + bn)) laid free rfl (update_eq_self i s.inode).symm rfl ?_ ?_ ?_ rfl
  · intro c other elsewhere
    by_cases same : c = (s.inode i).copy.table
    · exact absurd (elsewhere same) (same ▸ present)
    · change update (update s.block b .zero) _ _ c = _
      rw [update_of_ne same, update_of_ne other]
  · intro m here
    obtain rfl := Option.some.inj here
    rw [blockOf_indirect (by omega), Nat.add_sub_cancel_left, absent, ite_self]
  · intro m
    change Sys.blockOf _ (s.inode i).copy m = _
    by_cases direct : m < NDIRECT
    · rw [blockOf_direct direct, blockOf_direct direct, if_neg (by simp; omega)]
    · rw [blockOf_indirect direct, blockOf_indirect direct]
      change (if _ then (update (s.taken b).block (s.inode i).copy.table _ _).word _ else 0) = _
      rw [update_self]
      by_cases here : NDIRECT + bn = m
      · subst here
        rw [if_pos rfl, Nat.add_sub_cancel_left, if_pos ⟨inside, present⟩]
        exact Block.word_setWord_same _ _ _ inside (small.trans_le laid.uint)
      · have elsewhere : some (NDIRECT + bn) ≠ some m := fun same => here (Option.some.inj same)
        rw [if_neg elsewhere]
        by_cases within : m - NDIRECT < NINDIRECT
        · rw [Block.word_setWord_ne _ _ _ _ within (by omega)]
        · rw [if_neg fun wrong => within wrong.1, if_neg fun wrong => within wrong.1]

theorem addrAlloc_wrote (off : Nat) {k : Fin (NDIRECT + 1)} {a : Nat} (laid : s.Laid (s.inode i).copy)
    (run : Returns (addrAlloc i k) s a t) : Wrote i off [] s t ∧ a = (t.inode i).copy.addrs k ∧ a ≠ 0 := by
  by_cases present : (s.inode i).copy.addrs k = 0
  · unfold addrAlloc at run
    rw [returns_get_bind, if_neg (by simpa using present)] at run
    obtain ⟨b, s₁, taken, rest⟩ := returns_bind.mp run
    obtain ⟨free, -, rfl⟩ := returns_balloc taken
    rw [returns_modify_bind] at rest
    obtain ⟨rfl, rfl⟩ := returns_pure.mp rest
    refine ⟨wrote_setAddr laid free present, ?_, ?_⟩
    · simp only [Sys.setAddr, Sys.setCopy, Sys.setInode, update_self]
    · rintro rfl
      rw [laid.boot] at free
      contradiction
  · obtain ⟨rfl, rfl⟩ := returns_addrAlloc present run
    exact ⟨.refl laid, rfl, present⟩

theorem indirectAlloc_wrote (off : Nat) {a : Nat} (laid : s.Laid (s.inode i).copy) (inside : bn < NINDIRECT)
    (present : (s.inode i).copy.table ≠ 0) (run : Returns (indirectAlloc (s.inode i).copy.table bn) s a t) :
    Wrote i off [] s t ∧ a = t.blockOf (t.inode i).copy (NDIRECT + bn) ∧ a ≠ 0 := by
  have entry : ∀ u : Sys, u.inode i = s.inode i → u.blockOf (u.inode i).copy (NDIRECT + bn) =
      (u.block (s.inode i).copy.table).word bn := by
    intro u same
    rw [same, blockOf_indirect (by omega), Nat.add_sub_cancel_left, if_pos ⟨inside, present⟩]
  unfold indirectAlloc at run
  rw [returns_get_bind] at run
  split at run
  · rename_i used
    obtain ⟨rfl, rfl⟩ := returns_pure.mp run
    exact ⟨.refl laid, (entry _ rfl).symm, used⟩
  · rename_i unused
    obtain ⟨b, s₁, taken, rest⟩ := returns_bind.mp run
    obtain ⟨free, small, rfl⟩ := returns_balloc taken
    rw [returns_modify_bind] at rest
    obtain ⟨_, s₂, logged, rest⟩ := returns_bind.mp rest
    obtain rfl := returns_logWrite logged
    obtain ⟨rfl, rfl⟩ := returns_pure.mp rest
    refine ⟨wrote_setEntry laid free small inside present (by simpa using unused), ?_, ?_⟩
    · refine Eq.trans ?_ (entry ((s.taken a).setBlock _ _) rfl).symm
      simp only [Sys.setBlock, update_self]
      exact (Block.word_setWord_same _ _ _ inside (small.trans_le laid.uint)).symm
    · rintro rfl
      rw [laid.boot] at free
      contradiction

theorem bmap_wrote (off : Nat) {a : Nat} (laid : s.Laid (s.inode i).copy) (run : Returns (bmap i bn) s a t) :
    Wrote i off [] s t ∧ a = t.blockOf (t.inode i).copy bn ∧ a ≠ 0 := by
  unfold bmap at run
  split at run
  · rename_i direct
    obtain ⟨wrote, rfl, present⟩ := addrAlloc_wrote off laid run
    exact ⟨wrote, (blockOf_direct direct).symm, present⟩
  · rename_i indirect
    split at run
    · rename_i inside
      obtain ⟨table, s₁, first, second⟩ := returns_bind.mp run
      obtain ⟨wrote, rfl, present⟩ := addrAlloc_wrote off laid first
      obtain ⟨wrote', rfl, present'⟩ := indirectAlloc_wrote off wrote.laid inside present second
      refine ⟨wrote.trans wrote', ?_, present'⟩
      rw [Nat.add_sub_cancel' (Nat.le_of_not_lt indirect)]
    · exact absurd run returns_throw

end Alloc

section Source

variable (copyin : α → Nat → KernelM (List UInt8 × Option α)) (src : Nat → α) (data : Nat → UInt8) (k n : Nat)
  (i : InodeId)

def Sys.SameFile (s t : Sys) : Prop :=
  t.inode i = s.inode i ∧ t.blocks = s.blocks ∧ t.bitmap = s.bitmap ∧ t.block = s.block

/-- The source of a write of `n` bytes to the file of inode `i` is unreadable from byte `k` on. Loading its pages
may change the state, but neither this file nor what the source holds. -/
structure Source (Holds : Sys → Prop) : Prop where
  apart : ∀ s t off bytes, Holds s → Wrote i off bytes s t → Holds t
  copies : ∀ s, Holds s → ∀ j m, 0 < m → j + m ≤ n → ∀ r t, Returns (copyin (src j) m) s r t →
    r = (slice data j (min m (k - j)), if j + m ≤ k then some (src (j + m)) else none) ∧ Holds t ∧ s.SameFile i t

end Source

/-- The state `s` with the file of inode `i` as it is in `t`. -/
def Sys.withFile (s : Sys) (i : InodeId) (t : Sys) : Sys :=
  { s with inode := update s.inode i (t.inode i), bitmap := t.bitmap, block := t.block }

/-- Where writei stops in a file if the copy fails after `k` bytes: at the block that it could not fill. -/
def stopAt (off k : Nat) : Nat := max off ((off + k) / BSIZE * BSIZE)

section Loop

variable {i : InodeId} {n : Nat}

theorem Sys.Laid.blockOf_setBlock {d : Dinode} (laid : s.Laid d) {bn : Nat} (here : s.blockOf d bn ≠ 0) (b : Block) (m : Nat) :
    (s.setBlock (s.blockOf d bn) b).blockOf d m = s.blockOf d m := by
  by_cases direct : m < NDIRECT
  · rw [blockOf_direct direct, blockOf_direct direct]
  · rw [blockOf_indirect direct, blockOf_indirect direct]
    have same : (s.setBlock (s.blockOf d bn) b).block d.table = s.block d.table :=
      update_of_ne (laid.table bn here).symm ..
    rw [same]

theorem fileByte_setBlock {d : Dinode} (laid : s.Laid d) (here : s.blockOf d (off / BSIZE) ≠ 0)
    (short : bytes.length ≤ BSIZE - off % BSIZE) : (s.setBlock (s.blockOf d (off / BSIZE))
      ⟨fun j => overlay (s.block (s.blockOf d (off / BSIZE))).bytes (off % BSIZE) bytes j⟩).fileByte d =
      overlay (s.fileByte d) off bytes := by
  have width : off % BSIZE < BSIZE := Nat.mod_lt _ (by decide)
  funext pos
  have place : pos % BSIZE < BSIZE := Nat.mod_lt _ (by decide)
  unfold Sys.fileByte
  rw [laid.blockOf_setBlock here]
  change (update s.block _ _ _).bytes _ = _
  by_cases same : pos / BSIZE = off / BSIZE
  · rw [same, update_self]
    unfold Block.bytes overlay
    rw [dif_pos place]
    have inside : off % BSIZE ≤ pos % BSIZE ∧ pos % BSIZE < off % BSIZE + bytes.length ↔
        off ≤ pos ∧ pos < off + bytes.length := by
      unfold BSIZE at *
      omega
    have distance : pos % BSIZE - off % BSIZE = pos - off := by
      unfold BSIZE at *
      omega
    simp only [inside, distance, same, dif_pos place]
  · have other : s.blockOf d (pos / BSIZE) ≠ s.blockOf d (off / BSIZE) := fun hit =>
      same (laid.apart _ _ here hit.symm).symm
    rw [update_of_ne other, overlay_outside]
    unfold BSIZE at *
    omega

theorem wrote_setBlock (bytes : List UInt8) (laid : s.Laid (s.inode i).copy) (here : s.blockOf (s.inode i).copy (off / BSIZE) ≠ 0)
    (short : bytes.length ≤ BSIZE - off % BSIZE) :
    Wrote i off bytes s (s.setBlock (s.blockOf (s.inode i).copy (off / BSIZE))
      ⟨fun j => overlay (s.block (s.blockOf (s.inode i).copy (off / BSIZE))).bytes (off % BSIZE) bytes j⟩) := by
  generalize after : s.setBlock (s.blockOf (s.inode i).copy (off / BSIZE))
    ⟨fun j => overlay (s.block (s.blockOf (s.inode i).copy (off / BSIZE))).bytes (off % BSIZE) bytes j⟩ = t
  have inode : t.inode = s.inode := by rw [← after]; rfl
  have same : ∀ m, t.blockOf (s.inode i).copy m = s.blockOf (s.inode i).copy m := by
    intro m
    rw [← after]
    exact laid.blockOf_setBlock here _ m
  have bitmap : t.bitmap = s.bitmap := by rw [← after]; rfl
  have has : ∀ b, t.HasBlock (s.inode i).copy b ↔ s.HasBlock (s.inode i).copy b := by
    intro b
    simp only [Sys.HasBlock, same]
  have width : off % BSIZE < BSIZE := Nat.mod_lt _ (by decide)
  refine ⟨?_, ?_, ?_, ?_, ?_, ?_, ?_, ?_, ?_, ?_⟩
  · rw [← after]
    rfl
  · rw [inode]
    exact (update_eq_self i s.inode).symm
  · rw [inode]
    refine ⟨by rw [← after]; exact laid.uint, by rw [bitmap]; exact laid.boot, ?_, ?_, ?_⟩
    · intro b used
      rw [bitmap]
      exact laid.marked b ((has b).mp used)
    · intro m n
      rw [same, same]
      exact laid.apart m n
    · intro m
      rw [same]
      exact laid.table m
  · intro bn _
    rw [inode]
    exact same bn
  · intro pos low high
    rw [inode, same]
    have page : pos / BSIZE = off / BSIZE := by
      unfold BSIZE at *
      omega
    rw [page]
    exact here
  · intro pos _
    rw [inode]
    have byte : t.fileByte (s.inode i).copy = overlay (s.fileByte (s.inode i).copy) off bytes := by
      rw [← after]
      exact fileByte_setBlock laid here short
    rw [byte]
  · rw [bitmap]
    exact fun _ => id
  · intro b used
    rw [inode] at used
    exact .inl ((has b).mp used)
  · intro b used stranger
    rw [← after]
    refine update_of_ne ?_ ..
    rintro rfl
    exact stranger ⟨here, .inr ⟨_, rfl⟩⟩
  · intro b free
    rw [bitmap] at free
    rw [← after]
    refine update_of_ne ?_ ..
    rintro rfl
    rw [laid.marked _ ⟨here, .inr ⟨_, rfl⟩⟩] at free
    contradiction

/-- From `s` on the copies take the bytes of `data` one after the other, `n` in all. -/
def Copies {α : Type} (copyin : α → Nat → KernelM (List UInt8 × Option α)) (src : Nat → α) (data : Nat → UInt8)
    (n : Nat) (s : Sys) : Prop :=
  ∀ t, FsOnly s t → ∀ k m, 0 < m → k + m ≤ n → ∀ r u, Returns (copyin (src k) m) t r u →
    r = (slice data k m, some (src (k + m))) ∧ u = t

def Refuses {α : Type} (copyin : α → Nat → KernelM (List UInt8 × Option α)) (src : α) (s : Sys) : Prop :=
  ∀ t, FsOnly s t → ∀ m, 0 < m → ∀ r u, Returns (copyin src m) t r u → r = ([], none) ∧ u = t

theorem Wrote.fsOnly (wrote : Wrote i off bytes s t) : FsOnly s t := by
  have only := wrote.only
  have same : t.dinode = s.dinode := by rw [only]
  unfold FsOnly
  rw [same]
  exact only

theorem withFile_self : s.withFile i s = s := by
  unfold Sys.withFile
  rw [update_eq_self]

theorem withFile_withFile : s.withFile i (t.withFile i u) = s.withFile i u := by
  simp only [Sys.withFile, update_self]

theorem withFile_idem : (s.withFile i t).withFile i u = s.withFile i u := by
  simp only [Sys.withFile, update_idem]

theorem Wrote.withFile (wrote : Wrote i off bytes s t) : s.withFile i t = t := by
  have inode : update s.inode i (t.inode i) = t.inode := by
    rw [wrote.inode, update_self]
  unfold Sys.withFile
  rw [inode]
  exact wrote.only.symm

theorem Wrote.carried (wrote : Wrote i off bytes s t) (blocks : u.blocks = s.blocks) :
    Wrote i off bytes (u.withFile i s) (u.withFile i t) := by
  have here : ∀ t : Sys, (u.withFile i t).inode i = t.inode i := fun t => update_self ..
  have inode := congrFun wrote.inode i
  rw [update_self] at inode
  refine ⟨rfl, ?_, ?_, ?_, ?_, ?_, wrote.marked, ?_, ?_, wrote.spare⟩
  · rw [here, here, ← inode]
    exact (update_idem ..).symm
  · have laid := wrote.laid
    rw [here]
    have size : t.blocks = s.blocks := by rw [wrote.only]
    exact ⟨show u.blocks ≤ _ from blocks ▸ size ▸ laid.uint, laid.boot, laid.marked, laid.apart, laid.table⟩
  · rw [here, here]
    exact wrote.kept
  · rw [here]
    exact wrote.here
  · rw [here, here]
    exact wrote.bytes
  · rw [here, here]
    exact wrote.own
  · rw [here]
    exact wrote.others

variable {copyin : α → Nat → KernelM (List UInt8 × Option α)} {src : Nat → α} {data : Nat → UInt8}
  {total j k fuel last : Nat} {Holds : Sys → Prop}

theorem writeLoop_stops (source : Source copyin src data k total i Holds) (enough : n ≤ fuel)
    (bound : j + n ≤ total) (holds : Holds s) (laid : s.Laid (s.inode i).copy)
    (run : Returns (writeLoop copyin i fuel off n (src j)) s last u) :
    last = (if n ≤ k - j then off + n else stopAt off (k - j)) ∧
      Wrote i off (slice data j (min n (k - j))) s (s.withFile i u) ∧ Holds u := by
  have whole : Wrote i off [] s (s.withFile i s) := by
    rw [withFile_self]
    exact .refl laid
  induction fuel generalizing off n j s with
  | zero =>
    obtain rfl : n = 0 := by omega
    obtain ⟨rfl, rfl⟩ := returns_pure.mp run
    rw [if_pos (Nat.zero_le _), Nat.zero_min]
    exact ⟨rfl, whole, holds⟩
  | succ fuel ih =>
    unfold writeLoop at run
    split at run
    · rename_i empty
      subst empty
      obtain ⟨rfl, rfl⟩ := returns_pure.mp run
      rw [if_pos (Nat.zero_le _), Nat.zero_min]
      exact ⟨rfl, whole, holds⟩
    · obtain ⟨addr, s₁, mapped, run⟩ := returns_bind.mp run
      obtain ⟨grown, rfl, present⟩ := bmap_wrote off laid mapped
      have width : off % BSIZE < BSIZE := Nat.mod_lt _ (by decide)
      generalize turn : min n (BSIZE - off % BSIZE) = m at run
      dsimp only at run
      obtain ⟨copied, s₂, copy, run⟩ := returns_bind.mp run
      have holds₁ := source.apart _ _ _ _ holds grown
      obtain ⟨rfl, holds₂, inode, blocks, bitmap, block⟩ :=
        source.copies s₁ holds₁ j m (by omega) (by omega) copied s₂ copy
      have same : ∀ d bn, s₂.blockOf d bn = s₁.blockOf d bn := fun d bn => blockOf_congr block
      have laid₂ : s₂.Laid (s₂.inode i).copy := by
        obtain ⟨uint, boot, marked, apart, table⟩ := grown.laid
        rw [inode]
        refine ⟨blocks ▸ uint, bitmap ▸ boot, ?_, ?_, ?_⟩
        · simpa only [Sys.HasBlock, same, bitmap] using marked
        · simpa only [same] using apart
        · simpa only [same] using table
      rw [← same, ← inode] at present run
      -- the copy leaves the file as bmap left it
      have still : s.withFile i s₂ = s₁ := by
        have copied : s.withFile i s₂ = s.withFile i s₁ := by
          unfold Sys.withFile
          rw [inode, bitmap, block]
        rw [copied, grown.withFile]
      have size : s.blocks = s₂.blocks := by rw [blocks, grown.only]
      have stored := wrote_setBlock (slice data j (min m (k - j))) laid₂ present (by rw [length_slice]; omega)
      have first := stored.carried size
      rw [still] at first
      replace first := grown.trans first
      rw [List.nil_append] at first
      rw [returns_modify_bind] at run
      dsimp only at run
      split at run
      · -- the copy has failed
        rename_i failed
        obtain ⟨rfl, rfl⟩ := returns_pure.mp run
        have short : ¬j + m ≤ k := fun fits => by simp [fits] at failed
        rw [if_neg (by omega), show min n (k - j) = min m (k - j) by omega]
        refine ⟨?_, first, source.apart _ _ _ _ holds₂ stored⟩
        unfold stopAt
        unfold BSIZE at *
        omega
      · rename_i next copied
        obtain ⟨fits, rfl⟩ : j + m ≤ k ∧ src (j + m) = next := by simpa using copied
        have full : min m (k - j) = m := by omega
        rw [full] at stored first run
        obtain ⟨_, s₃, logged, run⟩ := returns_bind.mp run
        obtain rfl := returns_logWrite logged
        obtain ⟨rfl, rest, holds'⟩ := ih (n := n - m) (by omega) (by omega) (source.apart _ _ _ _ holds₂ stored)
          stored.laid run (by rw [withFile_self]; exact .refl stored.laid)
        refine ⟨?_, ?_, holds'⟩
        · unfold stopAt
          unfold BSIZE at *
          split
          · rw [if_pos (by omega)]
            omega
          · rw [if_neg (by omega)]
            omega
        · have split : slice data j (min n (k - j)) =
              slice data j m ++ slice data (j + m) (min (n - m) (k - (j + m))) := by
            rw [← slice_add]
            congr 1
            omega
          rw [split]
          refine first.trans ?_
          have later := rest.carried size
          rw [withFile_withFile] at later
          rw [length_slice]
          exact later

theorem apart_withFile {r : Sys} (same : r.withFile i s = s) (wrote : Wrote i off bytes s t) : r.withFile i t = t := by
  rw [← wrote.withFile, ← withFile_idem (t := s), same, withFile_withFile]

theorem Copies.source (copies : Copies copyin src data n s) :
    Source copyin src data n n i fun t => s.withFile i t = t := by
  refine ⟨fun _ _ _ _ same wrote => apart_withFile same wrote, fun t same j m more bound r u run => ?_⟩
  obtain ⟨rfl, rfl⟩ := copies t (by rw [← same]; rfl) j m more bound r u run
  refine ⟨?_, same, rfl, rfl, rfl, rfl⟩
  rw [if_pos bound, Nat.min_eq_left (by omega)]

theorem Refuses.source {start : α} (refuses : Refuses copyin start s) :
    Source copyin (fun _ => start) (fun _ => 0) 0 n i fun t => s.withFile i t = t := by
  refine ⟨fun _ _ _ _ same wrote => apart_withFile same wrote, fun t same j m more bound r u run => ?_⟩
  obtain ⟨rfl, rfl⟩ := refuses t (by rw [← same]; rfl) m more r u run
  refine ⟨?_, same, rfl, rfl, rfl, rfl⟩
  rw [if_neg (by omega), Nat.zero_sub, Nat.min_zero]
  rfl

end Loop

/-- The file of inode `i` is well formed: it has its blocks for itself and no hole below its size. -/
structure Sys.Filed (s : Sys) (i : InodeId) : Prop where
  laid : s.Laid (s.copyOf i)
  solid : s.Solid (s.copyOf i)

/-- The file of inode `i` has got the bytes from `off` on, and no other file anything. -/
structure Written (i : InodeId) (off : Nat) (bytes : List UInt8) (s t : Sys) : Prop where
  filed : t.Filed i
  ref : (t.inode i).ref = (s.inode i).ref
  nlink : (t.copyOf i).nlink = (s.copyOf i).nlink
  size : (t.copyOf i).size = max (s.copyOf i).size (off + bytes.length)
  bytes : ∀ pos < (t.copyOf i).size, t.fileByte (t.copyOf i) pos = overlay (s.fileByte (s.copyOf i)) off bytes pos
  marked : ∀ b, s.bitmap b = true → t.bitmap b = true
  own : ∀ b, t.HasBlock (t.copyOf i) b → s.HasBlock (s.copyOf i) b ∨ s.bitmap b = false
  others : ∀ b, s.bitmap b = true → ¬s.HasBlock (s.copyOf i) b → t.block b = s.block b

section Written

variable {i : InodeId} {n : Nat}

theorem copyOf_valid (valid : (s.inode i).valid = true) : s.copyOf i = (s.inode i).copy := if_pos valid

theorem Written.refl (filed : s.Filed i) : Written i 0 [] s s where
  filed := filed
  ref := rfl
  nlink := rfl
  size := by simp
  bytes pos _ := by rw [overlay_nil]
  marked _ := id
  own _ := .inl
  others _ _ _ := rfl

theorem Sys.Filed.congr (filed : s.Filed i) (copy : t.copyOf i = s.copyOf i) (blocks : t.blocks = s.blocks)
    (bitmap : t.bitmap = s.bitmap) (block : t.block = s.block) : t.Filed i := by
  have same : ∀ d bn, t.blockOf d bn = s.blockOf d bn := fun d bn => blockOf_congr block
  obtain ⟨⟨uint, boot, marked, apart, table⟩, solid⟩ := filed
  refine ⟨⟨by rw [blocks]; exact uint, by rw [bitmap]; exact boot, ?_, ?_, ?_⟩, ?_⟩
  · simpa only [copy, bitmap, Sys.HasBlock, same] using marked
  · simpa only [copy, same] using apart
  · simpa only [copy, same] using table
  · simpa only [copy, Sys.Solid, same] using solid

theorem Written.after (written : Written i off bytes s t) {r : Sys} (ref : (s.inode i).ref = (r.inode i).ref)
    (copy : s.copyOf i = r.copyOf i) (bitmap : s.bitmap = r.bitmap) (block : s.block = r.block) :
    Written i off bytes r t := by
  have same : ∀ d b, s.HasBlock d b ↔ r.HasBlock d b := by
    intro d b
    simp only [Sys.HasBlock, blockOf_congr block]
  obtain ⟨filed, ref', nlink, size, bytes', marked, own, others⟩ := written
  rw [copy] at nlink size
  simp only [copy, fileByte_congr block] at bytes'
  simp only [copy, same, bitmap] at own
  simp only [copy, same, bitmap, block] at others
  rw [bitmap] at marked
  exact ⟨filed, ref'.trans ref, nlink, size, bytes', marked, own, others⟩

theorem Written.before (written : Written i off bytes s t) (ref : (u.inode i).ref = (t.inode i).ref)
    (copy : u.copyOf i = t.copyOf i) (blocks : u.blocks = t.blocks) (bitmap : u.bitmap = t.bitmap)
    (block : u.block = t.block) : Written i off bytes s u := by
  have same : ∀ d b, u.HasBlock d b ↔ t.HasBlock d b := by
    intro d b
    simp only [Sys.HasBlock, blockOf_congr block]
  obtain ⟨filed, ref', nlink, size, bytes', marked, own, others⟩ := written
  refine ⟨filed.congr copy blocks bitmap block, ref.trans ref', ?_, ?_, ?_, ?_, ?_, ?_⟩
  · rw [copy, nlink]
  · rw [copy, size]
  · simpa only [copy, fileByte_congr block] using bytes'
  · rw [bitmap]
    exact marked
  · simpa only [copy, same] using own
  · rw [block]
    exact others

theorem Written.nothing (written : Written i off [] s t) (inside : off ≤ (s.copyOf i).size) : Written i 0 [] s t where
  filed := written.filed
  ref := written.ref
  nlink := written.nlink
  size := by
    rw [written.size, length_nil, Nat.add_zero, Nat.max_eq_left inside, Nat.add_zero, Nat.max_zero]
  bytes pos below := by rw [written.bytes pos below, overlay_nil, overlay_nil]
  marked := written.marked
  own := written.own
  others := written.others

theorem Written.nothing_trans (first : Written i 0 [] s t) (second : Written i 0 [] t u) : Written i 0 [] s u where
  filed := second.filed
  ref := second.ref.trans first.ref
  nlink := second.nlink.trans first.nlink
  size := by
    rw [second.size, first.size]
    exact Nat.max_eq_left (Nat.le_max_right ..)
  bytes pos below := by
    have before : pos < (t.copyOf i).size := by
      rw [second.size] at below
      simpa using below
    rw [second.bytes pos below, overlay_nil, first.bytes pos before]
  marked b used := second.marked b (first.marked b used)
  own b has := by
    rcases second.own b has with old | unused
    · exact first.own b old
    · cases used : s.bitmap b with
      | false => exact .inr rfl
      | true =>
        rw [first.marked b used] at unused
        contradiction
  others b used other := by
    have still : ¬t.HasBlock (t.copyOf i) b := fun has => by
      rcases first.own b has with old | unused
      · exact other old
      · rw [used] at unused
        contradiction
    rw [second.others b (first.marked b used) still, first.others b used other]

/-- The new size takes effect, in memory and on disk. -/
def Sys.resized (s : Sys) (i : InodeId) (size : Nat) : Sys :=
  let t := s.setCopy i { (s.inode i).copy with size }
  { t with dinode := update t.dinode (t.inode i).inum (t.inode i).copy }

theorem Wrote.written (wrote : Wrote i off bytes s t) (valid : (s.inode i).valid = true)
    (solid : s.Solid (s.inode i).copy) (inside : off ≤ (s.inode i).copy.size) :
    Written i off bytes s (t.resized i (max (t.inode i).copy.size (off + bytes.length))) := by
  generalize width : max (t.inode i).copy.size (off + bytes.length) = size
  have still : ((t.resized i size).inode i).valid = true := by
    simp only [Sys.resized, Sys.setCopy, Sys.setInode, update_self]
    rw [wrote.inode, update_self]
    exact valid
  have copy : (t.resized i size).copyOf i = { (t.inode i).copy with size } := by
    rw [copyOf_valid still]
    simp only [Sys.resized, Sys.setCopy, Sys.setInode, update_self]
  have same : ∀ bn, (t.resized i size).blockOf { (t.inode i).copy with size } bn = t.blockOf (t.inode i).copy bn :=
    fun _ => rfl
  -- every position below the new size is an old one or has been written
  have covered : ∀ pos < size, s.blockOf (s.inode i).copy (pos / BSIZE) ≠ 0 ∨
      (off ≤ pos ∧ pos < off + bytes.length) := by
    intro pos below
    by_cases old : pos < (s.inode i).copy.size
    · exact .inl (solid.block old)
    · rw [wrote.size] at width
      exact .inr (by omega)
  refine ⟨⟨?_, ?_⟩, ?_, ?_, ?_, ?_, ?_, ?_, ?_⟩
  · rw [copy]
    exact ⟨wrote.laid.uint, wrote.laid.boot, wrote.laid.marked, wrote.laid.apart, wrote.laid.table⟩
  · rw [copy]
    intro bn below
    rw [same]
    have place : bn * BSIZE / BSIZE = bn := Nat.mul_div_cancel _ (by decide)
    rcases covered (bn * BSIZE) below with old | new
    · rw [place] at old
      rw [wrote.kept bn old]
      exact old
    · have here := wrote.here (bn * BSIZE) new.1 new.2
      rwa [place] at here
  · simp only [Sys.resized, Sys.setCopy, Sys.setInode, update_self]
    rw [wrote.inode, update_self]
  · rw [copy, copyOf_valid valid]
    dsimp only
    rw [wrote.inode, update_self]
  · rw [copy, copyOf_valid valid, ← wrote.size]
    exact width.symm
  · rw [copy, copyOf_valid valid]
    exact fun pos below => wrote.bytes pos (covered pos below)
  · exact wrote.marked
  · rw [copy, copyOf_valid valid]
    exact wrote.own
  · rw [copyOf_valid valid]
    exact wrote.others

theorem returns_iupdate {a : Unit} (run : Returns (iupdate i) s a t) :
    t = { s with dinode := update s.dinode (s.inode i).inum (s.inode i).copy } := by
  unfold iupdate at run
  obtain ⟨_, s₁, logged, rest⟩ := returns_bind.mp run
  obtain rfl := returns_logWrite logged
  exact returns_modify.mp rest

def Accepts (size off n : Nat) : Prop := off ≤ size ∧ off + n ≤ MAXFILE * BSIZE

instance (size off n : Nat) : Decidable (Accepts size off n) := inferInstanceAs (Decidable (_ ∧ _))

section Writei

variable {copyin : α → Nat → KernelM (List UInt8 × Option α)} {start : α} {r : Option Nat}

section

variable (uint : off < 2 ^ 32) (uint' : n < 2 ^ 32)

include uint uint'

theorem returns_writei (run : Returns (writei copyin i start off n) s r t) :
    (¬Accepts (s.inode i).copy.size off n ∧ r = none ∧ t = s) ∨
      (Accepts (s.inode i).copy.size off n ∧ ∃ last u, Returns (writeLoop copyin i n off n start) s last u ∧
        r = some (last - off) ∧ t = u.resized i (max (u.inode i).copy.size last)) := by
  have bound : MAXFILE * BSIZE < 2 ^ 31 := by decide
  unfold writei at run
  rw [returns_get_bind] at run
  split at run
  · rename_i outside
    obtain ⟨rfl, rfl⟩ := returns_pure.mp run
    refine .inl ⟨fun accepts => ?_, rfl, rfl⟩
    unfold Accepts at accepts
    unfold u32 at outside
    omega
  · rename_i inside
    split at run
    · rename_i large
      obtain ⟨rfl, rfl⟩ := returns_pure.mp run
      refine .inl ⟨fun accepts => ?_, rfl, rfl⟩
      unfold Accepts at accepts
      unfold u32 at large
      omega
    · rename_i small
      obtain ⟨last, u, looped, run⟩ := returns_bind.mp run
      rw [returns_modify_bind] at run
      obtain ⟨_, u', updated, run⟩ := returns_bind.mp run
      obtain ⟨rfl, rfl⟩ := returns_pure.mp run
      refine .inr ⟨?_, last, u, looped, rfl, returns_iupdate updated⟩
      unfold Accepts
      unfold u32 at inside small
      omega

theorem writei_written {src : Nat → α} {data : Nat → UInt8}
    (valid : (s.inode i).valid = true) (filed : s.Filed i) (copies : Copies copyin src data n s)
    (run : Returns (writei copyin i (src 0) off n) s r t) : (¬Accepts (s.copyOf i).size off n ∧ r = none ∧ t = s) ∨
      (Accepts (s.copyOf i).size off n ∧ r = some n ∧ FsOnly s t ∧ Written i off (slice data 0 n) s t) := by
  have copy := copyOf_valid valid
  have laid := filed.laid
  have solid := filed.solid
  rw [copy] at laid solid ⊢
  rcases returns_writei uint uint' run with refused | ⟨accepts, last, u, looped, rfl, rfl⟩
  · exact .inl refused
  · obtain ⟨place, wrote, same⟩ := writeLoop_stops copies.source (Nat.le_refl n) (Nat.zero_add n).le withFile_self laid looped
    rw [Nat.sub_zero, if_pos (Nat.le_refl n)] at place
    rw [Nat.sub_zero, Nat.min_self, same] at wrote
    subst place
    refine .inr ⟨accepts, by rw [Nat.add_sub_cancel_left], IsTrans.trans _ _ _ wrote.fsOnly rfl, ?_⟩
    have written := wrote.written valid solid accepts.1
    rwa [length_slice] at written

theorem writei_refused (more : n ≠ 0)
    (valid : (s.inode i).valid = true) (filed : s.Filed i) (refuses : Refuses copyin start s)
    (run : Returns (writei copyin i start off n) s r t) : t = s ∨
      (Accepts (s.copyOf i).size off n ∧ FsOnly s t ∧ Written i off [] s t) := by
  have copy := copyOf_valid valid
  have laid := filed.laid
  have solid := filed.solid
  rw [copy] at laid solid ⊢
  rcases returns_writei uint uint' run with refused | ⟨accepts, last, u, looped, rfl, rfl⟩
  · exact .inl refused.2.2
  · obtain ⟨place, wrote, same⟩ := writeLoop_stops (j := 0) refuses.source (Nat.le_refl n)
      (Nat.zero_add n).le withFile_self laid looped
    rw [if_neg (by omega), Nat.zero_sub, stopAt, Nat.add_zero, Nat.max_eq_left (Nat.div_mul_le_self ..)] at place
    rw [Nat.zero_sub, Nat.min_zero, same] at wrote
    subst place
    exact .inr ⟨accepts, IsTrans.trans _ _ _ wrote.fsOnly rfl, wrote.written valid solid accepts.1⟩

end

end Writei

end Written

end DeisoXv6
