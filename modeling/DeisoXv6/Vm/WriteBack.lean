import DeisoXv6.Fs.Writes
import DeisoXv6.Vm.Dropped

/-! What vma_free_mem makes of the file of a shared mapping. Page by page it writes to the position that the
VMA has for the page, cut to 32 bits, whether or not the page has been changed and whoever has written to the
file since it was loaded. -/

set_option autoImplicit false

namespace DeisoXv6

open Semantics Bytes

variable {root : PageNo} {u : Unit}

section Copy

variable {s t : Sys} {pos src n : Nat}

theorem FsCall.open_iff {va : Nat} (call : FsCall s t) : t.Open root va ↔ s.Open root va := by
  unfold FsCall at call
  rw [call]
  exact ⟨fun ⟨low, found, user⟩ => ⟨low, found, user⟩, fun ⟨low, found, user⟩ => ⟨low, found, user⟩⟩

theorem copyinUser_first (here : pgrounddown src = pos) (more : 0 < n) {r : List UInt8 × Option Nat}
    (run : Returns (copyinUser src n) s r t) : ∃ a t₁, Returns (walkaddr s.pagetable pos) s a t₁ ∧
      (a = none → r = ([], none) ∧ t = t₁) ∧ ∀ page, a = some page → src + n ≤ pos + PGSIZE →
        r = (slice (t₁.mem page) (src - pos) n, some (u64 (src + n))) ∧ t = t₁ := by
  unfold copyinUser at run
  rw [returns_get_bind] at run
  obtain ⟨copied, t₀, copy, run⟩ := returns_bind.mp run
  obtain ⟨rfl, rfl⟩ := returns_pure.mp run
  obtain ⟨m, rfl⟩ : ∃ m, n = m + 1 := ⟨n - 1, by omega⟩
  unfold copyin copyinLoop at copy
  rw [if_neg (Nat.succ_ne_zero m), here] at copy
  dsimp only at copy
  obtain ⟨a, t₁, walked, copy⟩ := returns_bind.mp copy
  refine ⟨a, t₁, walked, fun none => ?_, fun page some last => ?_⟩
  · subst none
    obtain ⟨rfl, rfl⟩ := returns_pure.mp copy
    exact ⟨rfl, rfl⟩
  · subst some
    have first : pos ≤ src := here ▸ Nat.sub_le ..
    have whole : min (PGSIZE - (src - pos)) (m + 1) = m + 1 := by omega
    rw [returns_get_bind, whole, Nat.sub_self] at copy
    obtain ⟨rest, t₂, none, copy⟩ := returns_bind.mp copy
    obtain ⟨rfl, rfl⟩ := copyinLoop_zero.unique none
    obtain ⟨rfl, rfl⟩ := returns_pure.mp copy
    rw [List.append_nil]
    exact ⟨rfl, rfl⟩

variable {a : Option PageNo}

theorem walkaddr_shut (shut : ¬s.Open root pos) (run : Returns (walkaddr root pos) s a t) : a = none ∧ t = s := by
  rcases walkaddr_returns run with ⟨-, none, same⟩ | ⟨opened, -⟩ | ⟨opened, -⟩
  · exact ⟨none, same⟩
  · exact absurd opened shut
  · exact absurd opened shut

theorem walkaddr_opened (opened : s.Open root pos)
    (present : s.Present root pos) (run : Returns (walkaddr root pos) s a t) :
    a = some (pte2pa (s.entry root pos)) ∧ t = s := by
  rcases walkaddr_returns run with ⟨shut, -⟩ | ⟨-, -, page, same⟩ | ⟨-, absent, -⟩
  · exact absurd opened shut
  · exact ⟨page, same⟩
  · exact absurd present absent

theorem FsCall.page (call : FsCall s t) : (t.Present t.pagetable pos ↔ s.Present s.pagetable pos) ∧
    (t.Open t.pagetable pos ↔ s.Open s.pagetable pos) ∧
      t.mem (pte2pa (t.entry t.pagetable pos)) = s.mem (pte2pa (s.entry s.pagetable pos)) := by
  rw [call.pagetable]
  refine ⟨call.present, call.open_iff, ?_⟩
  unfold FsCall at call
  rw [call]
  rfl

theorem copies_user (present : s.Present s.pagetable pos) (opened : s.Open s.pagetable pos)
    (aligned : pos % PGSIZE = 0) (first : pos ≤ src) (last : src + n ≤ pos + PGSIZE) :
    Copies copyinUser (src + ·) (fun k => s.mem (pte2pa (s.entry s.pagetable pos)) (src - pos + k)) n s := by
  intro t only k m more bound r u run
  obtain ⟨present', same, mem⟩ := @FsCall.page _ _ pos (FsOnly.call _ _ only)
  have here : pgrounddown (src + k) = pos := by
    unfold pgrounddown
    unfold PGSIZE at *
    omega
  obtain ⟨a, t₁, walked, -, copied⟩ := copyinUser_first here more run
  obtain ⟨rfl, rfl⟩ := walkaddr_opened (same.mpr opened) (present'.mpr present) walked
  obtain ⟨rfl, rfl⟩ := copied _ rfl (by omega)
  have place : u64 (src + k + m) = src + (k + m) := by
    have low := opened.low
    unfold MAXVA at low
    unfold u64
    unfold PGSIZE at last
    omega
  have distance : src + k - pos = src - pos + k := by omega
  refine ⟨?_, rfl⟩
  rw [mem, place, distance]
  refine congrArg (·, _) (List.map_congr_left fun j _ => ?_)
  rw [Nat.add_assoc]

theorem refuses_user (shut : ¬s.Open s.pagetable pos) (here : pgrounddown src = pos) : Refuses copyinUser src s := by
  intro t only m more r u run
  obtain ⟨-, same, -⟩ := @FsCall.page _ _ pos (FsOnly.call _ _ only)
  obtain ⟨a, t₁, walked, refused, -⟩ := copyinUser_first here more run
  obtain ⟨rfl, rfl⟩ := walkaddr_shut (fun opened => shut (same.mp opened)) walked
  exact refused rfl

end Copy

/-- Where in the file a turn writes, as writei gets it. -/
def Turn.off (turn : Turn) : Nat := u32 turn.filePos

def Turn.count (turn : Turn) : Nat := turn.writeEnd - turn.start

/-- The turn writes to position `x` of the file, if it writes at all. -/
def Turn.Covers (turn : Turn) (x : Nat) : Prop := turn.off ≤ x ∧ x < turn.off + turn.count

/-- The file of inode `i` can be reached through file `f`, and the memory of the process is its own. -/
structure Backed (g : Layout) (s : Sys) (f : FileId) (i : InodeId) : Prop where
  held : Held g s s.pagetable
  listed : s.Listed
  inode : (s.file f).ip = some i
  filed : s.Filed i

section Turn

variable {g : Layout} {s t : Sys} {f : FileId} {i : InodeId} {turn : Turn} {v : Vma} {q : Nat}

def Sys.pageSlice (s : Sys) (turn : Turn) (pos : Nat) : List UInt8 :=
  slice (s.mem (pte2pa (s.entry s.pagetable pos))) (turn.start - pos) turn.count

theorem length_pageSlice {pos : Nat} : (s.pageSlice turn pos).length = turn.count := length_slice

theorem Turn.count_eq {pos : Nat} (low : pos < MAXVA) (more : turn.start < turn.writeEnd)
    (last : turn.writeEnd ≤ pos + PGSIZE) (first : pos ≤ turn.start) :
    u32 (sub64 turn.writeEnd turn.start) = turn.count := by
  have short : sub64 turn.writeEnd turn.start = turn.writeEnd - turn.start :=
    sub64_eq more.le (by unfold MAXVA at low; unfold PGSIZE at *; omega)
  rw [short]
  unfold PGSIZE at last
  exact Nat.mod_eq_of_lt (by omega)

theorem writeBack_cases {pos : Nat} (place : (s.file f).ip = some i) (filed : s.Filed i)
    (aligned : pos % PGSIZE = 0) (low : pos < MAXVA) (first : pos ≤ turn.start) (more : turn.start < turn.writeEnd)
    (last : turn.writeEnd ≤ pos + PGSIZE) (present : s.Open s.pagetable pos → s.Present s.pagetable pos)
    (run : Returns (writeBack turn (some f)) s u t) :
    FsCall s t ∧ if s.Open s.pagetable pos ∧ Accepts (s.copyOf i).size turn.off turn.count then
      Written i turn.off (s.pageSlice turn pos) s t else Written i 0 [] s t := by
  have count := Turn.count_eq low more last first
  have some : turn.count ≠ 0 := Nat.sub_ne_zero_of_lt more
  have uint : turn.off < 2 ^ 32 := Nat.mod_lt _ (by decide)
  have uint' : turn.count < 2 ^ 32 := by
    unfold Turn.count
    unfold PGSIZE at last
    omega
  unfold writeBack at run
  rw [beginOp, returns_modify_bind, returns_get_bind] at run
  dsimp only at run
  rw [place, count] at run
  obtain ⟨i', s₁, locks, run⟩ := returns_bind.mp run
  obtain ⟨rfl, -, rfl⟩ := returns_ilock locks
  obtain ⟨r, s₂, writes, run⟩ := returns_bind.mp run
  obtain ⟨_, s₃, unlocks, run⟩ := returns_bind.mp run
  obtain rfl := returns_iunlock unlocks
  obtain rfl := returns_modify.mp run
  -- the state in which writei starts has the same file and the same memory
  generalize start : (Sys.refreshed _ i').setLocked i' true = s₁ at writes
  have call : FsCall s s₁ := by
    rw [← start]
    rfl
  have valid : (s₁.inode i').valid = true := by
    rw [← start]
    simp [Sys.setLocked, Sys.refreshed, Sys.setInode]
  have copy : s₁.copyOf i' = s.copyOf i' := by
    rw [← start, copyOf_setLocked, copyOf_refreshed]
    rfl
  have ref : (s₁.inode i').ref = (s.inode i').ref := by
    rw [← start]
    simp [Sys.setLocked, Sys.refreshed, Sys.setInode]
  have bitmap : s₁.bitmap = s.bitmap := by rw [← start]; rfl
  have block : s₁.block = s.block := by rw [← start]; rfl
  have blocks : s₁.blocks = s.blocks := by rw [← start]; rfl
  have filed₁ : s₁.Filed i' := filed.congr copy blocks bitmap block
  obtain ⟨present₁, opened, mem⟩ := @FsCall.page _ _ pos call
  generalize stop : ({ s₂.setLocked i' false with
    outstanding := (s₂.setLocked i' false).outstanding - 1 } : Sys) = s₃
  have finish : ∀ {off bytes}, Written i' off bytes s₁ s₂ → Written i' off bytes s s₃ := by
    intro off bytes written
    rw [← stop]
    refine (written.after ref copy bitmap block).before ?_ ?_ rfl rfl rfl
    · simp [Sys.setLocked, Sys.setInode]
    · exact copyOf_setLocked
  have calls : FsOnly s₁ s₂ → FsCall s s₃ := by
    intro only
    rw [← stop]
    exact IsTrans.trans _ _ _ (IsTrans.trans _ _ _ call (FsOnly.call _ _ only)) rfl
  by_cases reached : s.Open s.pagetable pos
  · have copies := copies_user (n := turn.count) (present₁.mpr (present reached)) (opened.mpr reached) aligned first
      (by unfold Turn.count; omega)
    rcases writei_written uint uint' valid filed₁ copies writes with ⟨refused, -, rfl⟩ | ⟨accepts, -, only, written⟩
    · rw [copy] at refused
      rw [if_neg fun both => refused both.2]
      exact ⟨calls (Std.Refl.refl _), finish (.refl filed₁)⟩
    · rw [copy] at accepts
      rw [if_pos ⟨reached, accepts⟩]
      have same : slice (fun k => s₁.mem (pte2pa (s₁.entry s₁.pagetable pos)) (turn.start - pos + k)) 0 turn.count =
          s.pageSlice turn pos := by
        rw [mem]
        refine List.map_congr_left fun k _ => ?_
        rw [Nat.zero_add]
      exact ⟨calls only, finish (same ▸ written)⟩
  · rw [if_neg fun both => reached both.1]
    have here : pgrounddown turn.start = pos := by
      unfold pgrounddown
      unfold PGSIZE at *
      omega
    have refuses := refuses_user (fun hit => reached (opened.mp hit)) here
    rcases writei_refused uint uint' some valid filed₁ refuses writes with rfl | ⟨accepts, only, written⟩
    · exact ⟨calls (Std.Refl.refl _), finish (.refl filed₁)⟩
    · exact ⟨calls only, finish (written.nothing accepts.1)⟩

/-- The turn writes to the file: the page is mapped and in a VMA that walkaddr finds, the mapping is shared, and
writei takes what there is. -/
def Sys.Saves (s : Sys) (v : Vma) (i : InodeId) (turn : Turn) (pos : Nat) : Prop :=
  s.Present s.pagetable pos ∧ (s.vmaAt pos).isSome ∧ has v.flags MAP_SHARED = true ∧
    turn.start < turn.writeEnd ∧ DeisoXv6.Accepts (s.copyOf i).size turn.off turn.count

instance (s : Sys) (v : Vma) (i : InodeId) (turn : Turn) (pos : Nat) : Decidable (s.Saves v i turn pos) :=
  inferInstanceAs (Decidable (_ ∧ _))

theorem Held.open_iff (held : Held g s root) (low : q * PGSIZE < RESERVED)
    (present : s.Present root (q * PGSIZE)) : s.Open root (q * PGSIZE) ↔ (s.vmaAt (q * PGSIZE)).isSome := by
  refine ⟨fun opened => opened.vma, fun found => ⟨low.trans_le (by decide), found, fun _ => ?_⟩⟩
  obtain ⟨user, -, above, -⟩ := held.user q low present
  refine ⟨user, fun null => ?_⟩
  have kernel := held.tables.kernel
  rw [null] at above
  omega

structure TurnDone (s : Sys) (v : Vma) (i : InodeId) (turn : Turn) (q : Nat) (g' : Layout) (t : Sys) : Prop where
  sheds : Sheds s.pagetable s g' t
  others : OtherPages s.pagetable q s t
  file : if s.Saves v i turn (q * PGSIZE) then Written i turn.off (s.pageSlice turn (q * PGSIZE)) s t
    else Written i 0 [] s t

theorem freePage_cases (held : Held g s root) (listed : s.Listed) (place : (s.file f).ip = some i)
    (filed : s.Filed i) (file : v.file = some f) (low : q * PGSIZE < RESERVED) (first : q * PGSIZE ≤ turn.start)
    (last : turn.start < q * PGSIZE + PGSIZE) (written : turn.writeEnd ≤ q * PGSIZE + PGSIZE)
    (seen : s.Present root (q * PGSIZE) → has v.flags MAP_SHARED = true → s.Open s.pagetable (q * PGSIZE) →
      s.Present s.pagetable (q * PGSIZE)) (run : Returns (freePage root v turn (q * PGSIZE)) s u t) :
    ∃ g', Sheds root s g' t ∧ OtherPages root q s t ∧
      if s.Present root (q * PGSIZE) ∧ s.Open s.pagetable (q * PGSIZE) ∧ has v.flags MAP_SHARED = true ∧
          turn.start < turn.writeEnd ∧ Accepts (s.copyOf i).size turn.off turn.count then
        Written i turn.off (s.pageSlice turn (q * PGSIZE)) s t else Written i 0 [] s t := by
  have below : q * PGSIZE < MAXVA := low.trans_le (by decide)
  unfold freePage at run
  obtain ⟨mapped, s₁, asked, run⟩ := returns_bind.mp run
  obtain ⟨rfl, rfl⟩ := (isPageMapped_returns below).unique asked
  by_cases present : s.Present root (q * PGSIZE)
  · rw [decide_eq_true present, if_pos rfl] at run
    obtain ⟨_, s₂, saved, dropped⟩ := returns_bind.mp run
    have effect : FsCall s s₂ ∧ if s.Present root (q * PGSIZE) ∧ s.Open s.pagetable (q * PGSIZE) ∧
          has v.flags MAP_SHARED = true ∧ turn.start < turn.writeEnd ∧
          Accepts (s.copyOf i).size turn.off turn.count then
        Written i turn.off (s.pageSlice turn (q * PGSIZE)) s s₂ else Written i 0 [] s s₂ := by
      by_cases back : has v.flags MAP_SHARED = true ∧ turn.writeEnd > turn.start
      · have target : v.writes turn = some f := by rw [Vma.writes, if_pos back, file]
        rw [target] at saved
        have cases := writeBack_cases place filed (Nat.mul_mod_left ..) below first back.2 written
          (seen present back.1) saved
        have shared := back.1
        have more : turn.start < turn.writeEnd := back.2
        simp only [present, shared, more, true_and]
        exact cases
      · have target : v.writes turn = none := if_neg back
        rw [target] at saved
        obtain ⟨-, rfl⟩ := returns_pure.mp saved
        rw [if_neg fun all => back ⟨all.2.2.1, all.2.2.2.1⟩]
        exact ⟨rfl, .refl filed⟩
    obtain ⟨call, wrote⟩ := effect
    have shed := held.call call
    obtain ⟨g', sheds, others, -, disk⟩ := dropPage_dropped shed.held (call.listed listed) low
      (call.present.mpr present) first last dropped
    have copy : t.copyOf i = s₂.copyOf i := by
      unfold Sys.copyOf
      rw [disk.inode, disk.dinode]
    have ref : (t.inode i).ref = (s₂.inode i).ref := by rw [disk.inode]
    refine ⟨g', shed.trans sheds, call.others others, ?_⟩
    split at wrote
    · rw [if_pos ‹_›]
      exact wrote.before ref copy disk.blocks disk.bitmap disk.block
    · rw [if_neg ‹_›]
      exact wrote.before ref copy disk.blocks disk.bitmap disk.block
  · rw [decide_eq_false present, if_neg (by simp)] at run
    obtain ⟨-, rfl⟩ := returns_pure.mp run
    refine ⟨g, .refl held, ⟨fun _ _ _ => rfl, fun _ _ _ _ => rfl⟩, ?_⟩
    rw [if_neg fun all => present all.1]
    exact .refl filed

theorem freePage_done (backed : Backed g s f i) (file : v.file = some f) (low : q * PGSIZE < RESERVED)
    (first : q * PGSIZE ≤ turn.start) (last : turn.start < q * PGSIZE + PGSIZE)
    (written : turn.writeEnd ≤ q * PGSIZE + PGSIZE)
    (run : Returns (freePage s.pagetable v turn (q * PGSIZE)) s u t) : ∃ g', TurnDone s v i turn q g' t := by
  obtain ⟨g', sheds, others, wrote⟩ := freePage_cases backed.held backed.listed backed.inode backed.filed file low
    first last written (fun present _ _ => present) run
  refine ⟨g', sheds, others, ?_⟩
  have saves : s.Saves v i turn (q * PGSIZE) ↔ s.Present s.pagetable (q * PGSIZE) ∧
      s.Open s.pagetable (q * PGSIZE) ∧ has v.flags MAP_SHARED = true ∧ turn.start < turn.writeEnd ∧
      Accepts (s.copyOf i).size turn.off turn.count :=
    and_congr_right fun present => and_congr_left' (backed.held.open_iff low present).symm
  simp only [saves]
  exact wrote

end Turn

def Sys.SavesAt (s : Sys) (v : Vma) (i : InodeId) (addr stop p : Nat) : Prop :=
  (pgrounddown addr ≤ p * PGSIZE ∧ p * PGSIZE < stop) ∧ s.Saves v i (v.turn addr stop (p * PGSIZE)) (p * PGSIZE)

/-- The byte that page `p` has for position `x` of the file. -/
def Sys.savedByte (s : Sys) (v : Vma) (addr stop p x : Nat) : UInt8 :=
  s.mem (pte2pa (s.entry s.pagetable (p * PGSIZE)))
    ((v.turn addr stop (p * PGSIZE)).start - p * PGSIZE + (x - (v.turn addr stop (p * PGSIZE)).off))

/-- Page `p` is the last one from `q` on that writes to position `x`. -/
structure Sys.LastSaves (s : Sys) (v : Vma) (i : InodeId) (addr stop q x p : Nat) : Prop where
  behind : q ≤ p
  saves : s.SavesAt v i addr stop p
  covers : (v.turn addr stop (p * PGSIZE)).Covers x
  last : ∀ p', p < p' → s.SavesAt v i addr stop p' → ¬(v.turn addr stop (p' * PGSIZE)).Covers x

structure LoopDone (s : Sys) (v : Vma) (i : InodeId) (addr stop q : Nat) (t : Sys) : Prop where
  sheds : ∃ g', Sheds s.pagetable s g' t
  ref : (t.inode i).ref = (s.inode i).ref
  nlink : (t.copyOf i).nlink = (s.copyOf i).nlink
  filed : t.Filed i
  larger : (s.copyOf i).size ≤ (t.copyOf i).size
  grows : ∀ p, q ≤ p → s.SavesAt v i addr stop p →
    (s.copyOf i).size < (v.turn addr stop (p * PGSIZE)).off + (v.turn addr stop (p * PGSIZE)).count →
    (s.copyOf i).size < (t.copyOf i).size
  bytes : (∀ p, q ≤ p → s.SavesAt v i addr stop p →
      (v.turn addr stop (p * PGSIZE)).off + (v.turn addr stop (p * PGSIZE)).count ≤ (s.copyOf i).size) →
    (t.copyOf i).size = (s.copyOf i).size ∧ ∀ x < (s.copyOf i).size, (∃ p, s.LastSaves v i addr stop q x p ∧
        t.fileByte (t.copyOf i) x = s.savedByte v addr stop p x) ∨
      ((∀ p, q ≤ p → s.SavesAt v i addr stop p → ¬(v.turn addr stop (p * PGSIZE)).Covers x) ∧
        t.fileByte (t.copyOf i) x = s.fileByte (s.copyOf i) x)

section Loop

variable {g g' : Layout} {s s' t : Sys} {f : FileId} {i : InodeId} {v : Vma} {addr stop p q x : Nat}

theorem LoopDone.finished (backed : Backed g s f i) (ended : stop ≤ q * PGSIZE) : LoopDone s v i addr stop q s := by
  have none : ∀ p, q ≤ p → ¬s.SavesAt v i addr stop p := by
    intro p behind saves
    have before := saves.1.2
    have order := Nat.mul_le_mul_right PGSIZE behind
    omega
  refine ⟨⟨g, .refl backed.held⟩, rfl, rfl, backed.filed, le_rfl, fun p behind saves => absurd saves (none p behind), ?_⟩
  exact fun _ => ⟨rfl, fun x _ => .inr ⟨fun p behind saves => absurd saves (none p behind), rfl⟩⟩

namespace TurnDone

variable {turn : Turn}

section

variable (done : TurnDone s v i turn q g' s')

include done

theorem pagetable : s'.pagetable = s.pagetable := by
  rw [done.sheds.rest]
  rfl

theorem file_written : ∃ off bytes, Written i off bytes s s' := by
  have file := done.file
  split at file
  · exact ⟨_, _, file⟩
  · exact ⟨_, _, file⟩

theorem backed (backed : Backed g s f i) : Backed g' s' f i := by
  obtain ⟨off, bytes, written⟩ := done.file_written
  refine ⟨done.pagetable ▸ done.sheds.held, done.sheds.listed backed.listed, ?_, written.filed⟩
  rw [done.sheds.rest]
  exact backed.inode

theorem entry (other : p ≠ q) (low : p * PGSIZE < RESERVED) :
    s'.entry s'.pagetable (p * PGSIZE) = s.entry s.pagetable (p * PGSIZE) := by
  rw [done.pagetable]
  exact done.others.entry p other low

theorem savesAt_iff (low : stop ≤ RESERVED) (other : p ≠ q)
    (size : (s'.copyOf i).size = (s.copyOf i).size) : s'.SavesAt v i addr stop p ↔ s.SavesAt v i addr stop p := by
  unfold Sys.SavesAt
  refine and_congr_right fun range => ?_
  unfold Sys.Saves Sys.Present
  rw [done.entry other (range.2.trans_le low), done.sheds.vmaAt, size]

theorem savedByte (low : stop ≤ RESERVED) (other : p ≠ q)
    (saves : s.SavesAt v i addr stop p) : s'.savedByte v addr stop p x = s.savedByte v addr stop p x := by
  have below := saves.1.2.trans_le low
  unfold Sys.savedByte
  rw [done.entry other below, done.others.mem p other below saves.2.1]

theorem lastSaves (low : stop ≤ RESERVED)
    (size : (s'.copyOf i).size = (s.copyOf i).size) (last : s'.LastSaves v i addr stop (q + 1) x p) :
    s.LastSaves v i addr stop q x p := by
  have behind := last.behind
  refine ⟨by omega, (done.savesAt_iff low (by omega) size).mp last.saves, last.covers, fun p' later saves => ?_⟩
  exact last.last p' later ((done.savesAt_iff low (by omega) size).mpr saves)

end

end TurnDone

theorem LoopDone.cons (low : stop ≤ RESERVED) (first : pgrounddown addr ≤ q * PGSIZE) (more : q * PGSIZE < stop)
    (done : TurnDone s v i (v.turn addr stop (q * PGSIZE)) q g' s') (rest : LoopDone s' v i addr stop (q + 1) t) :
    LoopDone s v i addr stop q t := by
  obtain ⟨off, bytes, written⟩ := done.file_written
  have larger : (s.copyOf i).size ≤ (s'.copyOf i).size := by
    rw [written.size]
    exact Nat.le_max_left ..
  have here : s.SavesAt v i addr stop q ↔ s.Saves v i (v.turn addr stop (q * PGSIZE)) (q * PGSIZE) :=
    and_iff_right ⟨first, more⟩
  refine ⟨?_, rest.ref.trans written.ref, rest.nlink.trans written.nlink, rest.filed, larger.trans rest.larger, ?_, ?_⟩
  · obtain ⟨g'', sheds⟩ := rest.sheds
    exact ⟨g'', done.sheds.trans (done.pagetable ▸ sheds)⟩
  · intro p behind saves long
    rcases Nat.eq_or_lt_of_le larger with same | grown
    · rcases Nat.eq_or_lt_of_le behind with rfl | later
      · -- the page has been written without a change of the size
        have file := done.file
        rw [if_pos (here.mp saves)] at file
        have size := file.size
        rw [length_pageSlice] at size
        omega
      · have saves' := (done.savesAt_iff low (by omega) same.symm).mpr saves
        rw [same] at long ⊢
        exact rest.grows p later saves' long
    · exact grown.trans_le rest.larger
  · intro short
    have same : (s'.copyOf i).size = (s.copyOf i).size := by
      have file := done.file
      split at file
      · rename_i saves
        have fits := short q le_rfl (here.mpr saves)
        rw [file.size, length_pageSlice, Nat.max_eq_left fits]
      · rw [file.size, List.length_nil, Nat.add_zero, Nat.max_zero]
    obtain ⟨size, all⟩ := rest.bytes fun p behind saves => by
      rw [same]
      exact short p (by omega) ((done.savesAt_iff low (by omega) same).mp saves)
    refine ⟨size.trans same, fun x inside => ?_⟩
    rcases all x (same.symm ▸ inside) with ⟨p, last, byte⟩ | ⟨none, byte⟩
    · have before := done.lastSaves low same last
      have behind := last.behind
      exact .inl ⟨p, before, byte.trans (done.savedByte low (by omega) before.saves)⟩
    · -- no later page writes here
      have none' : ∀ p, q < p → s.SavesAt v i addr stop p → ¬(v.turn addr stop (p * PGSIZE)).Covers x :=
        fun p later saves => none p later ((done.savesAt_iff low (by omega) same).mpr saves)
      have file := done.file
      split at file
      · rename_i saves
        rw [file.bytes x (same.symm ▸ inside)] at byte
        by_cases covers : (v.turn addr stop (q * PGSIZE)).Covers x
        · refine .inl ⟨q, ⟨le_rfl, here.mpr saves, covers, none'⟩, ?_⟩
          rw [byte]
          exact overlay_slice covers.1 covers.2
        · refine .inr ⟨fun p behind saves => ?_, ?_⟩
          · rcases Nat.eq_or_lt_of_le behind with rfl | later
            · exact covers
            · exact none' p later saves
          · rw [byte, overlay_outside]
            rw [length_pageSlice]
            unfold Turn.Covers at covers
            omega
      · rename_i skipped
        rw [file.bytes x (same.symm ▸ inside), overlay_nil] at byte
        refine .inr ⟨fun p behind saves => ?_, byte⟩
        rcases Nat.eq_or_lt_of_le behind with rfl | later
        · exact absurd (here.mp saves) skipped
        · exact none' p later saves

theorem vmaFreeMemLoop_done {fuel : Nat} (backed : Backed g s f i) (file : v.file = some f)
    (first : pgrounddown addr ≤ q * PGSIZE) (low : stop ≤ RESERVED)
    (run : Returns (vmaFreeMemLoop s.pagetable v addr stop fuel (q * PGSIZE)) s u t) :
    LoopDone s v i addr stop q t := by
  induction fuel generalizing g s q with
  | zero => exact absurd run returns_throw
  | succ fuel ih =>
    unfold vmaFreeMemLoop at run
    split at run
    · rename_i more
      obtain ⟨_, s', turned, run⟩ := returns_bind.mp run
      have below : q * PGSIZE < RESERVED := more.trans_le low
      have space : q * PGSIZE < MAXVA := below.trans_le (by decide)
      obtain ⟨g', done⟩ := freePage_done backed file below (Vma.turn_start first).1 (Vma.turn_start first).2
        (Vma.turn_writeEnd space) turned
      have next : u64 (q * PGSIZE + PGSIZE) = (q + 1) * PGSIZE := by
        rw [Nat.succ_mul, page_after space]
      rw [next, ← done.pagetable] at run
      refine .cons low first more done (ih (done.backed backed) ?_ run)
      rw [Nat.succ_mul]
      omega
    · rename_i ended
      obtain ⟨-, rfl⟩ := returns_pure.mp run
      exact .finished backed (Nat.le_of_not_lt ended)

theorem vmaFreeMem_done {ref : VmaRef} {length : Nat} (backed : Backed g s f i)
    (file : (s.vmas.get ref).file = some f) (low : addr + length ≤ RESERVED)
    (run : Returns (vmaFreeMem s.pagetable ref addr length) s u t) :
    LoopDone s (s.vmas.get ref) i addr (addr + length) (addr / PGSIZE) t := by
  have whole : u64 (addr + length) = addr + length := Nat.mod_eq_of_lt (low.trans_lt (by decide))
  unfold vmaFreeMem at run
  rw [returns_get_bind, whole, pgrounddown_eq_mul] at run
  exact vmaFreeMemLoop_done backed file (pgrounddown_eq_mul ▸ le_rfl) low run

end Loop

end DeisoXv6
