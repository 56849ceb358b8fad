import DeisoXv6.Fs.ReadWrite
import DeisoXv6.Vm.Copy

/-! Copies with a spin lock held. A page that has to be read from a file puts the process to sleep, and
sched panics if it holds a spin lock; wait, the pipes and the console copy with one. fileread and
filewrite call allocrange first, which is to map the pages beforehand. -/

set_option autoImplicit false

namespace DeisoXv6

open Finset Semantics Bytes

/-- The list can be walked, and the files behind its VMAs can be read. -/
structure Sys.FilesReady (s : Sys) : Prop where
  list : ∃ refs, s.vmas.refs s.current = .ok refs
  files : ∀ vma f, (s.vmas.get vma).file = some f → ∃ i, (s.file f).ip = some i ∧ s.Ready i

structure Sys.ReadyAt (s : Sys) (va : Nat) : Prop where
  list : ∃ refs, s.vmas.refs s.current = .ok refs
  file : ∀ vma, s.vmaAt va = some vma → ∀ f, (s.vmas.get vma).file = some f → ∃ i, (s.file f).ip = some i ∧ s.Ready i

def Sys.LoadsAt (s : Sys) (va : Nat) : Prop := ∃ vma, s.vmaAt va = some vma ∧ (s.vmas.get vma).Loads va

variable {g g' : Layout} {s' : Sys} {va p q : Nat} {page : PageNo}

section Fails

variable {s : Sys} {root : PageNo} {e : Fault}

theorem Sys.FilesReady.solid (ready : s.FilesReady) : s.SolidFiles := by
  intro vma f i file place
  obtain ⟨j, place', here⟩ := ready.files vma f file
  rw [place] at place'
  cases place'
  exact here.solid

theorem Sys.Ready.takeZeroed {i : InodeId} {page : PageNo} {pages : List PageNo} (ready : s.Ready i) :
    (s.takeZeroed page pages).Ready i :=
  ⟨ready.ref, ready.unlocked, ready.typed, ready.solid⟩

theorem Sys.FilesReady.around (ready : s.FilesReady) : s.ReadyAt va :=
  ⟨ready.list, fun vma _ f => ready.files vma f⟩

variable {vma : VmaRef}

theorem fails_lazyalloc_load (tables : Tables g s) (low : va < MAXVA) :
    Fails (lazyalloc root va vma) s e ↔ ∃ page pages, s.freelist = page :: pages ∧
      Fails (loadPage page (s.vmas.get vma) va) (s.takeZeroed page pages) e := by
  unfold lazyalloc
  rw [fails_bind, or_iff_right (kalloc_never s e)]
  constructor
  · rintro ⟨a, t, taken, later⟩
    rcases returns_kalloc.mp taken with ⟨-, rfl, rfl⟩ | ⟨page, pages, first, rfl, rfl⟩
    · exact absurd later fails_pure
    · dsimp only at later
      rw [fails_modify_bind, fails_get_bind] at later
      rcases fails_bind.mp later with load | ⟨_, t, load, later⟩
      · exact ⟨page, pages, first, load⟩
      · have lowPage : pgrounddown va < MAXVA := Nat.lt_of_le_of_lt (Nat.sub_le ..) low
        have aligned : pgrounddown va % PGSIZE = 0 := by
          unfold pgrounddown PGSIZE
          omega
        rcases fails_bind.mp later with early | ⟨ok, t', mapped, later⟩
        · exact absurd early (fails_mappages_page lowPage aligned)
        · split at later
          · exact absurd later fails_pure
          · rcases fails_bind.mp later with early | ⟨_, _, -, later⟩
            · -- the page came from the free list
              have ram := tables.ram page (by simp [first])
              have kernel : t'.kernelEnd = s.kernelEnd := by
                rw [mappages_within _ _ _ mapped, (loadPage_within _ _ _ load).rest]
                rfl
              unfold kfree at early
              rw [fails_get_bind, fails_failIf_bind, kernel] at early
              rcases early with ⟨below | above, -⟩ | ⟨-, later⟩
              · exact absurd ram.1 (Nat.not_le.mpr below)
              · exact absurd ram.2 (Nat.not_lt.mpr above)
              · exact absurd later (Never.bind .modify (fun _ => .modify) _ _)
            · exact absurd later fails_pure
  · rintro ⟨page, pages, first, load⟩
    refine ⟨some page, _, returns_kalloc.mpr (.inr ⟨page, pages, first, rfl, rfl⟩), ?_⟩
    dsimp only
    rw [fails_modify_bind, fails_get_bind]
    exact fails_bind.mpr (.inl load)

theorem fails_lazyalloc (tables : Tables g s) (low : va < MAXVA)
    (ready : ∀ f, (s.vmas.get vma).file = some f → ∃ i, (s.file f).ip = some i ∧ s.Ready i) :
    Fails (lazyalloc root va vma) s e ↔
      s.freelist ≠ [] ∧ (s.vmas.get vma).Loads va ∧ s.spinlocks ≠ 0 ∧ e = .panic .sched := by
  have loaded (page : PageNo) (pages : List PageNo) : ∀ f, (s.vmas.get vma).file = some f →
      ∃ i, ((s.takeZeroed page pages).file f).ip = some i ∧ (s.takeZeroed page pages).Ready i := by
    intro f file
    obtain ⟨i, place, here⟩ := ready f file
    exact ⟨i, place, here.takeZeroed⟩
  rw [fails_lazyalloc_load tables low]
  constructor
  · rintro ⟨page, pages, first, load⟩
    exact ⟨by simp [first], (fails_loadPage (loaded page pages)).mp load⟩
  · rintro ⟨free, rest⟩
    obtain ⟨page, pages, first⟩ := List.exists_cons_of_ne_nil free
    exact ⟨page, pages, first, (fails_loadPage (loaded page pages)).mpr rest⟩

theorem fails_findVma (listed : ∃ refs, s.vmas.refs s.current = .ok refs) : ¬Fails (findVma va) s e := by
  obtain ⟨refs, list⟩ := listed
  unfold findVma
  rw [fails_get_bind, list]
  exact fails_pure

theorem fails_walkaddr_alloc (listed : ∃ refs, s.vmas.refs s.current = .ok refs) :
    Fails (walkaddr root va) s e ↔ s.Open root va ∧ ¬s.Present root va ∧
      ∃ vma, s.vmaAt va = some vma ∧ Fails (lazyalloc root va vma) s e := by
  unfold walkaddr
  split
  · rename_i high
    exact iff_of_false fails_pure fun wrong => Nat.not_lt.mpr high wrong.1.low
  · rename_i low
    have low := Nat.lt_of_not_le low
    have found : Returns (findVma va) s (s.vmaAt va) s := by
      rcases returns_or_fails (findVma va) s with ⟨a, t, run⟩ | ⟨e, fails⟩
      · obtain ⟨rfl, rfl⟩ := returns_findVma run
        exact run
      · exact absurd fails (fails_findVma listed)
    rw [fails_bind_of_returns found]
    cases place : s.vmaAt va with
    | none => exact iff_of_false fails_pure fun wrong => by simpa [place] using wrong.1.vma
    | some vma =>
      have here : (s.vmaAt va).isSome := by rw [place, Option.isSome_some]
      have alloc (absent : ¬s.Present root va) : Fails (lazyalloc root va vma) s e ↔ s.Open root va ∧
          ¬s.Present root va ∧ ∃ vma', some vma = some vma' ∧ Fails (lazyalloc root va vma') s e := by
        have opened : s.Open root va := ⟨low, here, fun present => absurd present absent⟩
        simp only [opened, absent, not_false_iff, true_and, Option.some.injEq, exists_eq_left']
      dsimp only
      rw [fails_bind_of_returns (returns_walk_false.mpr ⟨low, rfl, rfl⟩)]
      cases leaf : s.walkDown root (upper va) with
      | none =>
        refine alloc ?_
        unfold Sys.Present Sys.entry
        rw [leaf, has_zero]
        exact Bool.false_ne_true
      | some table =>
        have entry : s.pte table (px 0 va) = s.entry root va := by
          unfold Sys.entry
          rw [leaf]
        rw [Option.map_some]
        dsimp only
        rw [fails_get_bind, entry]
        split
        · rename_i invalid
          refine alloc ?_
          unfold Sys.Present
          rw [invalid]
          exact Bool.false_ne_true
        · rename_i valid
          have present : s.Present root va := by simpa [Sys.Present] using valid
          split
          · exact iff_of_false fails_pure fun wrong => wrong.2.1 present
          · exact iff_of_false fails_pure fun wrong => wrong.2.1 present

theorem fails_walkaddr (tables : Tables g s) (ready : s.ReadyAt va) :
    Fails (walkaddr root va) s e ↔ s.Open root va ∧ ¬s.Present root va ∧ s.LoadsAt va ∧
      s.freelist ≠ [] ∧ s.spinlocks ≠ 0 ∧ e = .panic .sched := by
  rw [fails_walkaddr_alloc ready.list]
  refine and_congr_right fun opened => and_congr_right fun _ => ?_
  unfold Sys.LoadsAt
  constructor
  · rintro ⟨vma, place, alloc⟩
    obtain ⟨free, loads, rest⟩ := (fails_lazyalloc tables opened.low (ready.file vma place)).mp alloc
    exact ⟨⟨vma, place, loads⟩, free, rest⟩
  · rintro ⟨⟨vma, place, loads⟩, free, rest⟩
    exact ⟨vma, place, (fails_lazyalloc tables opened.low (ready.file vma place)).mpr ⟨free, loads, rest⟩⟩

end Fails

/-- What the copies of a process rely on: its page table, the pages behind it, its VMAs and their files. -/
structure Prepared (g : Layout) (s : Sys) (root : PageNo) : Prop where
  tables : Tables g s
  known : g.tree root [] = some root
  safe : SafeFrom g s root 0
  clean : ∀ vma, CleanProt (s.vmas.get vma).permission
  ready : s.FilesReady

/-- From page `p` on a copy comes to page `q`, which has to be read from a file. -/
structure Sys.Sticks (s : Sys) (root : PageNo) (p q : Nat) : Prop where
  opened : ∀ r, p ≤ r → r ≤ q → s.Open root (r * PGSIZE)
  absent : ¬s.Present root (q * PGSIZE)
  loads : s.LoadsAt (q * PGSIZE)
  memory : s.need root (Ico p q) < s.freelist.length

section Sticks

variable {s : Sys} {root : PageNo}

theorem SameFiles.trans {s'' : Sys} (first : SameFiles s s') (second : SameFiles s' s'') : SameFiles s s'' :=
  ⟨second.vmas.trans first.vmas, second.current.trans first.current, second.file.trans first.file,
    second.spinlocks.trans first.spinlocks, second.block.trans first.block, fun i =>
      ⟨(second.inode i).1.trans (first.inode i).1, (second.inode i).2.1.trans (first.inode i).2.1,
        (second.inode i).2.2.trans (first.inode i).2.2⟩⟩

theorem SameFiles.ready (same : SameFiles s s') (ready : s.FilesReady) : s'.FilesReady := by
  refine ⟨?_, fun vma f file => ?_⟩
  · rw [same.vmas, same.current]
    exact ready.list
  · rw [same.vmas] at file
    rw [same.file]
    obtain ⟨i, place, here⟩ := ready.files vma f file
    obtain ⟨copy, ref, locked⟩ := same.inode i
    refine ⟨i, place, ref ▸ here.ref, locked ▸ here.unlocked, copy ▸ here.typed, ?_⟩
    rw [copy]
    exact fun bn below => blockOf_congr same.block ▸ here.solid bn below

variable {pipe : PageNo → Pipe} {spinlocks off : Nat} {bytes : List UInt8}

theorem Sys.FilesReady.aside {mem : PageNo → Nat → UInt8}
    (ready : s.FilesReady) : { s with mem, pipe, spinlocks }.FilesReady := by
  refine ⟨ready.list, fun vma f file => ?_⟩
  obtain ⟨i, place, here⟩ := ready.files vma f file
  exact ⟨i, place, here.ref, here.unlocked, here.typed, here.solid⟩

theorem SameFiles.loadsAt (same : SameFiles s s') : s'.LoadsAt va ↔ s.LoadsAt va := by
  unfold Sys.LoadsAt
  rw [vmaAt_congr same.vmas same.current, same.vmas]

section

variable (prepared : Prepared g s root)

include prepared

theorem Prepared.maps (maps : Maps root p page g s g' s') : Prepared g' s' root := by
  refine ⟨maps.tables, maps.tree _ _ _ prepared.known, fun q _ low present user => ?_,
    maps.files.vmas ▸ prepared.clean, maps.files.ready prepared.ready⟩
  by_cases here : q = p
  · rw [here, maps.place prepared.clean]
    exact maps.data
  · unfold Sys.Present at present
    rw [maps.covers.entry q (by rwa [mem_singleton]) low] at present user ⊢
    have data := prepared.safe q (Nat.zero_le _) low present user
    exact data.kept (maps.own _ data.used)

theorem Prepared.stalls (stalls : Stalls root g s g' s') : Prepared g' s' root := by
  refine ⟨stalls.tables, stalls.tree _ _ _ prepared.known, fun q _ low present user => ?_,
    stalls.files.vmas ▸ prepared.clean, stalls.files.ready prepared.ready⟩
  unfold Sys.Present at present
  rw [stalls.entry root _ prepared.known] at present user ⊢
  have data := prepared.safe q (Nat.zero_le _) low present user
  exact data.kept (stalls.own _ data.used)

theorem Prepared.store (data : g.Data page) : Prepared g (s.store page off bytes) root :=
  ⟨prepared.tables.store data, prepared.known, prepared.safe.store prepared.tables data prepared.known,
    prepared.clean, prepared.ready.aside⟩

theorem Prepared.aside : Prepared g { s with pipe, spinlocks } root :=
  ⟨prepared.tables.frame (fun _ _ _ _ => rfl) rfl rfl, prepared.known, prepared.safe, prepared.clean,
    prepared.ready.aside⟩

end

theorem open_aside : { s with pipe, spinlocks }.Open root va ↔ s.Open root va := open_congr rfl fun _ => rfl

theorem sticks_aside : { s with pipe, spinlocks }.Sticks root p q ↔ s.Sticks root p q := by
  have need : { s with pipe, spinlocks }.need root (Ico p q) = s.need root (Ico p q) :=
    need_congr rfl
  constructor
  · rintro ⟨opened, absent, loads, memory⟩
    exact ⟨fun r first last => open_aside.mp (opened r first last), absent, loads, need ▸ memory⟩
  · rintro ⟨opened, absent, loads, memory⟩
    exact ⟨fun r first last => open_aside.mpr (opened r first last), absent, loads, need.symm ▸ memory⟩

theorem Maps.need_Ico (maps : Maps root p page g s g' s') (after : p < q)
    (low : ∀ r, p + 1 ≤ r → r < q → r * PGSIZE < MAXVA) :
    s.need root (Ico p q) = s.cost root p + s'.need root (Ico (p + 1) q) := by
  have split : Ico p q = {p} ∪ Ico (p + 1) q := by
    ext r
    rw [mem_union, mem_singleton, mem_Ico, mem_Ico]
    omega
  rw [split, maps.covers.need_union fun r member => ?_, need_singleton]
  rw [mem_Ico] at member
  exact low r member.1 member.2

theorem Maps.sticks (maps : Maps root p page g s g' s') (opened : s.Open root (p * PGSIZE)) (after : p < q) :
    s.Sticks root p q ↔ s'.Sticks root (p + 1) q := by
  have other : ∀ r, p + 1 ≤ r → r ∉ ({p} : Finset Nat) := fun r first => by
    rw [mem_singleton]
    omega
  have free := maps.free
  constructor
  · rintro ⟨all, absent, loads, memory⟩
    rw [maps.need_Ico after fun r first last => (all r (by omega) (by omega)).low] at memory
    refine ⟨fun r first last => (maps.covers.open_iff (other r first)).mpr (all r (by omega) last), ?_,
      maps.files.loadsAt.mpr loads, by omega⟩
    rw [maps.covers.present_iff (all q (by omega) (le_rfl)).low, not_or]
    exact ⟨absent, other q after⟩
  · rintro ⟨all, absent, loads, memory⟩
    refine ⟨fun r first last => ?_, ?_, maps.files.loadsAt.mp loads, ?_⟩
    · rcases Nat.eq_or_lt_of_le first with rfl | first
      · exact opened
      · exact (maps.covers.open_iff (other r first)).mp (all r first last)
    · rw [maps.covers.present_iff (all q after (le_rfl)).low, not_or] at absent
      exact absent.1
    · rw [maps.need_Ico after fun r first last => (all r first (by omega)).low]
      omega

theorem Tables.sticks_store (tables : Tables g s) (data : g.Data page)
    (known : g.tree root [] = some root) : (s.store page off bytes).Sticks root p q ↔ s.Sticks root p q := by
  have opened {va : Nat} : (s.store page off bytes).Open root va ↔ s.Open root va :=
    tables.open_store data known
  have present : ¬(s.store page off bytes).Present root (q * PGSIZE) ↔ ¬s.Present root (q * PGSIZE) :=
    not_congr (tables.present_store data known)
  have need : (s.store page off bytes).need root (Ico p q) = s.need root (Ico p q) :=
    tables.need_store data known
  constructor
  · rintro ⟨all, absent, loads, memory⟩
    exact ⟨fun r first last => opened.mp (all r first last), present.mp absent, loads, need ▸ memory⟩
  · rintro ⟨all, absent, loads, memory⟩
    exact ⟨fun r first last => opened.mpr (all r first last), present.mpr absent, loads, need.symm ▸ memory⟩

/-- walkaddr with a lock held: it panics, it refuses the page and with it the rest, or it maps it. -/
theorem walkaddr_locked (prepared : Prepared g s root) (held : s.spinlocks ≠ 0) (p : Nat) :
    (Fails (walkaddr root (p * PGSIZE)) s (.panic .sched) ∧ s.Sticks root p p) ∨
      (∃ s', Returns (walkaddr root (p * PGSIZE)) s none s' ∧ ∀ q, p ≤ q → ¬s.Sticks root p q) ∨
      ∃ page g' s', Returns (walkaddr root (p * PGSIZE)) s (some page) s' ∧
        s.Open root (p * PGSIZE) ∧ ¬s.Sticks root p p ∧ Maps root p page g s g' s' := by
  have panics : s.Sticks root p p ↔ Fails (walkaddr root (p * PGSIZE)) s (.panic .sched) := by
    rw [fails_walkaddr prepared.tables prepared.ready.around, ← List.length_pos_iff]
    constructor
    · rintro ⟨all, absent, loads, memory⟩
      exact ⟨all p (le_rfl) (le_rfl), absent, loads, by omega, held, rfl⟩
    · rintro ⟨opened, absent, loads, memory, -, -⟩
      refine ⟨fun r first last => ?_, absent, loads, ?_⟩
      · rw [le_antisymm last first]
        exact opened
      · rw [Ico_self]
        exact memory
  rcases returns_or_fails (walkaddr root (p * PGSIZE)) s with ⟨a, s', run⟩ | ⟨e, fails⟩
  · have calm : ¬s.Sticks root p p := fun sticks => run.not_fails (panics.mp sticks)
    have result := walkaddr_maps prepared.tables prepared.known (fun q _ => prepared.safe q (Nat.zero_le _))
      prepared.ready.solid run
    rw [Nat.mul_div_cancel _ (by decide)] at result
    rcases result with ⟨rfl, shut, -⟩ | ⟨rfl, opened, few, -⟩ | ⟨page, g', rfl, opened, maps⟩
    · exact .inr (.inl ⟨s', run, fun q after sticks => shut (sticks.opened p (le_rfl) after)⟩)
    · refine .inr (.inl ⟨s', run, fun q after sticks => ?_⟩)
      rcases Nat.eq_or_lt_of_le after with rfl | after
      · exact calm sticks
      · have memory := sticks.memory
        have first : s.need root {p} ≤ s.need root (Ico p q) :=
          need_mono (singleton_subset_iff.mpr (mem_Ico.mpr ⟨le_rfl, after⟩))
        rw [need_singleton] at first
        omega
    · exact .inr (.inr ⟨page, g', s', run, opened, calm, maps⟩)
  · obtain ⟨-, -, -, -, -, rfl⟩ := (fails_walkaddr prepared.tables prepared.ready.around).mp fails
    exact .inl ⟨fails, panics.mpr fails⟩

end Sticks

namespace Sys

variable (s : Sys) (root : PageNo)

/-- The pages that are mapped when one after the other is asked for, until the memory runs out. -/
def served (pages : Finset Nat) : Finset Nat :=
  pages.filter fun p => s.need root (pages.filter (· ≤ p)) ≤ s.freelist.length

/-- The free pages that are left then. When the memory has run out one page stays, unless it is enough
for a page further on. -/
def leftover (pages : Finset Nat) : Nat :=
  if s.need root pages ≤ s.freelist.length then s.freelist.length - s.need root pages
  else if s.need root (s.served root pages) < s.freelist.length ∧
      ∀ p ∈ pages, s.need root (insert p (s.served root pages)) ≠ s.need root (s.served root pages) + 1 then 1
  else 0

end Sys

/-- The pages have been asked for, one after the other. -/
structure Prefaulted (root : PageNo) (pages : Finset Nat) (s s' : Sys) : Prop where
  free : s'.freelist.length = s.leftover root pages
  opened : s'.freelist ≠ [] → ∀ va, s'.Open root va ↔ s.Open root va
  present : s'.freelist ≠ [] → ∀ q, q * PGSIZE < MAXVA →
    (s'.Present root (q * PGSIZE) ↔ s.Present root (q * PGSIZE) ∨ q ∈ s.served root pages)
  memory : ∀ more : Finset Nat, (∀ r ∈ more, r * PGSIZE < MAXVA) → (s'.need root more < s'.freelist.length ↔
      s.need root (s.served root pages ∪ more) < s.need root (s.served root pages) + s'.freelist.length)

section Accounts

variable {s s'' : Sys} {root : PageNo} {pages : Finset Nat}

theorem served_cons (covers : Covers root {p} s s') (free : s.freelist.length = s.cost root p + s'.freelist.length)
    (after : ∀ q ∈ pages, p < q ∧ q * PGSIZE < MAXVA) : s.served root ({p} ∪ pages) = {p} ∪ s'.served root pages := by
  ext q
  simp only [Sys.served, mem_filter, mem_union, mem_singleton]
  have upto (le : p ≤ q) : ({p} ∪ pages).filter (· ≤ q) = {p} ∪ pages.filter (· ≤ q) := by
    rw [filter_union, filter_singleton, if_pos le]
  have sum : s.need root ({p} ∪ pages.filter (· ≤ q)) = s.cost root p + s'.need root (pages.filter (· ≤ q)) := by
    rw [covers.need_union fun r member => (after r (mem_of_mem_filter r member)).2, need_singleton]
  constructor
  · rintro ⟨rfl | member, enough⟩
    · exact .inl rfl
    · rw [upto (after q member).1.le, sum] at enough
      exact .inr ⟨member, by omega⟩
  · rintro (rfl | ⟨member, enough⟩)
    · refine ⟨.inl rfl, ?_⟩
      have none : pages.filter (· ≤ q) = ∅ := by
        rw [filter_eq_empty_iff]
        exact fun r member => Nat.not_le.mpr (after r member).1
      rw [upto (le_rfl), none, union_empty, need_singleton]
      omega
    · refine ⟨.inr member, ?_⟩
      rw [upto (after q member).1.le, sum]
      omega

theorem leftover_cons (covers : Covers root {p} s s') (free : s.freelist.length = s.cost root p + s'.freelist.length)
    (after : ∀ q ∈ pages, p < q ∧ q * PGSIZE < MAXVA) : s.leftover root ({p} ∪ pages) = s'.leftover root pages := by
  have sum {more : Finset Nat} (subset : more ⊆ pages) :
      s.need root ({p} ∪ more) = s.cost root p + s'.need root more := by
    rw [covers.need_union fun r member => (after r (subset member)).2, need_singleton]
  have served : s'.served root pages ⊆ pages := filter_subset ..
  have fits : (∀ q ∈ ({p} ∪ pages : Finset Nat), s.need root (insert q ({p} ∪ s'.served root pages)) ≠
        s.need root ({p} ∪ s'.served root pages) + 1) ↔
      ∀ q ∈ pages, s'.need root (insert q (s'.served root pages)) ≠ s'.need root (s'.served root pages) + 1 := by
    have one (q : Nat) (member : q ∈ pages) : s.need root (insert q ({p} ∪ s'.served root pages)) =
        s.cost root p + s'.need root (insert q (s'.served root pages)) := by
      rw [← union_insert, sum (insert_subset member served)]
    constructor
    · intro all q member
      have here := all q (mem_union_right _ member)
      rw [one q member, sum served] at here
      omega
    · intro all q member
      rcases mem_union.mp member with here | member
      · rw [insert_eq_self.mpr (mem_union_left _ here)]
        exact Nat.succ_ne_self _ ∘ Eq.symm
      · have there := all q member
        rw [one q member, sum served]
        omega
  unfold Sys.leftover
  rw [served_cons covers free after]
  refine if_congr ?_ ?_ (if_congr (and_congr ?_ fits) rfl rfl)
  · rw [sum (Finset.Subset.refl _), free, Nat.add_le_add_iff_left]
  · rw [sum (Finset.Subset.refl _), free, Nat.add_sub_add_left]
  · rw [sum served, free, Nat.add_lt_add_iff_left]

theorem Maps.open_iff (maps : Maps root (va / PGSIZE) page g s g' s') (opened : s.Open root va) (va' : Nat) :
    s'.Open root va' ↔ s.Open root va' := by
  by_cases here : va' / PGSIZE = va / PGSIZE
  · have user := maps.user
    rw [← here, entry_page] at user
    have entry : s.entry root va' = s.entry root va := by rw [← entry_page, here, entry_page]
    constructor
    · rintro ⟨low, vma, -⟩
      refine ⟨low, maps.covers.vmaAt _ ▸ vma, fun present => ?_⟩
      unfold Sys.Present at present
      rw [entry] at present ⊢
      exact opened.user present
    · rintro ⟨low, vma, -⟩
      exact ⟨low, (maps.covers.vmaAt _).symm ▸ vma, fun _ => user⟩
  · refine open_congr (maps.covers.vmaAt _) fun low => ?_
    rw [← entry_page, maps.covers.entry _ (by rwa [mem_singleton])
      (Nat.lt_of_le_of_lt (Nat.div_mul_le_self ..) low), entry_page]

theorem Prefaulted.cons (maps : Maps root (va / PGSIZE) page g s g' s') (opened : s.Open root va)
    (after : ∀ q ∈ pages, va / PGSIZE < q ∧ q * PGSIZE < MAXVA) (rest : Prefaulted root pages s' s'') :
    Prefaulted root ({va / PGSIZE} ∪ pages) s s'' := by
  have served := served_cons maps.covers maps.free after
  have inside : ∀ q ∈ s'.served root pages, q * PGSIZE < MAXVA := fun q member =>
    (after q (mem_of_mem_filter q member)).2
  refine ⟨rest.free.trans (leftover_cons maps.covers maps.free after).symm, fun left va' => ?_,
    fun left q low => ?_, fun more low => ?_⟩
  · exact (rest.opened left va').trans (maps.open_iff opened va')
  · rw [rest.present left q low, maps.covers.present_iff low, served, mem_union, or_assoc]
  · rw [rest.memory more low, served, union_assoc, maps.covers.need_union inside,
      maps.covers.need_union fun r member => ?_]
    · omega
    · rcases mem_union.mp member with member | member
      · exact inside r member
      · exact low r member

/-- Nothing has changed for the pages, apart from tables that lead nowhere yet. -/
structure Unmoved (root : PageNo) (s s' : Sys) : Prop where
  opened : ∀ va, s'.Open root va ↔ s.Open root va
  present : ∀ q, q * PGSIZE < MAXVA → (s'.Present root (q * PGSIZE) ↔ s.Present root (q * PGSIZE))
  lacks : ∀ va, s'.lacks root va = ∅ ↔ s.lacks root va = ∅

theorem Unmoved.refl : Unmoved root s s := ⟨fun _ => .rfl, fun _ _ => .rfl, fun _ => .rfl⟩

theorem Unmoved.trans (first : Unmoved root s s') (second : Unmoved root s' s'') : Unmoved root s s'' :=
  ⟨fun va => (second.opened va).trans (first.opened va),
    fun q low => (second.present q low).trans (first.present q low),
    fun va => (second.lacks va).trans (first.lacks va)⟩

theorem Tables.lacks_eq_empty (tables : Tables g s) (known : g.tree root [] = some root) :
    s.lacks root va = ∅ ↔ (g.tree root (upper va)).isSome := by
  rw [eq_empty_iff_forall_notMem]
  constructor
  · intro none
    by_contra absent
    refine none (upper va) ((tables.mem_lacks known).mpr ⟨⟨by simp [upper], List.prefix_rfl⟩, ?_⟩)
    rwa [Option.not_isSome_iff_eq_none] at absent
  · intro leaf path member
    obtain ⟨⟨-, rest, below⟩, absent⟩ := (tables.mem_lacks known).mp member
    have gone : g.tree root (path ++ rest) = none := tables.none_below absent
    rw [below] at gone
    rw [gone] at leaf
    contradiction

theorem Stalls.unmoved (stalls : Stalls root g s g' s') (tables : Tables g s)
    (known : g.tree root [] = some root) : Unmoved root s s' := by
  have entry (va : Nat) : s'.entry root va = s.entry root va := stalls.entry root va known
  refine ⟨fun va => open_congr (vmaAt_congr stalls.files.vmas stalls.files.current) fun _ => entry va,
    fun q _ => present_congr (entry _), fun va => ?_⟩
  rw [stalls.tables.lacks_eq_empty (stalls.tree _ _ _ known), tables.lacks_eq_empty known]
  exact stalls.leaves va

theorem Maps.unmoved (maps : Maps root (va / PGSIZE) page g s g' s') (opened : s.Open root va)
    (present : s.Present root (va / PGSIZE * PGSIZE)) : Unmoved root s s' := by
  refine ⟨maps.open_iff opened, fun q low => ?_, fun va' => ?_⟩
  · rw [maps.covers.present_iff low, mem_singleton]
    refine or_iff_left_of_imp ?_
    rintro rfl
    exact present
  · rw [maps.covers.lacks, newTables_singleton, if_pos present, sdiff_empty]

theorem cost_eq_one : s.cost root p = 1 ↔ ¬s.Present root (p * PGSIZE) ∧ s.lacks root (p * PGSIZE) = ∅ := by
  unfold Sys.cost
  split
  · rename_i present
    exact iff_of_false (by decide) fun wrong => wrong.1 present
  · rename_i absent
    rw [← card_eq_zero, and_iff_right absent]
    omega

theorem Unmoved.cost (unmoved : Unmoved root s s') (low : p * PGSIZE < MAXVA) :
    s'.cost root p = 1 ↔ s.cost root p = 1 := by
  rw [cost_eq_one, cost_eq_one, unmoved.present p low, unmoved.lacks]

theorem Unmoved.need (unmoved : Unmoved root s s') (low : ∀ r ∈ pages, r * PGSIZE < MAXVA) :
    s'.need root pages = 0 ↔ s.need root pages = 0 := by
  have zero (t : Sys) : t.need root pages = 0 ↔ t.unmapped root pages = ∅ := by
    unfold Sys.need Sys.newTables
    rw [Nat.add_eq_zero_iff, card_eq_zero, card_eq_zero]
    refine and_iff_left_of_imp fun none => ?_
    rw [none, biUnion_empty]
  rw [zero, zero]
  have same : s'.unmapped root pages = s.unmapped root pages :=
    filter_congr fun r member => not_congr (unmoved.present r (low r member))
  rw [same]

inductive Touched (root : PageNo) (va : Nat) (g : Layout) (s : Sys) : Layout → Sys → Prop where
  | shut (refused : ¬s.Open root va) : Touched root va g s g s
  | stalled {g' : Layout} {s' : Sys} (opened : s.Open root va)
      (few : s.freelist.length < s.cost root (va / PGSIZE)) (stalls : Stalls root g s g' s') :
      Touched root va g s g' s'
  | mapped {g' : Layout} {s' : Sys} (page : PageNo) (opened : s.Open root va)
      (maps : Maps root (va / PGSIZE) page g s g' s') : Touched root va g s g' s'

structure Undisturbed (s s' : Sys) : Prop where
  files : SameFiles s s'
  proc : s'.proc = s.proc
  pipe : s'.pipe = s.pipe

theorem Undisturbed.refl : Undisturbed s s := ⟨.refl, rfl, rfl⟩

theorem Undisturbed.trans (first : Undisturbed s s') (second : Undisturbed s' s'') : Undisturbed s s'' :=
  ⟨first.files.trans second.files, second.proc.trans first.proc, second.pipe.trans first.pipe⟩

theorem Touched.kept (touched : Touched root va g s g' s') : Undisturbed s s' := by
  cases touched with
  | shut => exact .refl
  | stalled _ _ stalls => exact ⟨stalls.files, by rw [stalls.rest], by rw [stalls.rest]⟩
  | mapped _ _ maps => exact ⟨maps.files, by rw [maps.rest], by rw [maps.rest]⟩

theorem Touched.prepared (touched : Touched root va g s g' s') (prepared : Prepared g s root) :
    Prepared g' s' root := by
  cases touched with
  | shut => exact prepared
  | stalled _ _ stalls => exact prepared.stalls stalls
  | mapped _ _ maps => exact prepared.maps maps

theorem walkaddr_unlocked (prepared : Prepared g s root) (idle : s.spinlocks = 0) (va : Nat) :
    ∃ a g' s', Returns (walkaddr root va) s a s' ∧ Touched root va g s g' s' := by
  rcases returns_or_fails (walkaddr root va) s with ⟨a, s', run⟩ | ⟨e, fails⟩
  · rcases walkaddr_maps prepared.tables prepared.known (fun q _ => prepared.safe q (Nat.zero_le _))
      prepared.ready.solid run with ⟨-, shut, rfl⟩ | ⟨-, opened, few, g', stalls⟩ | ⟨page, g', -, opened, maps⟩
    · exact ⟨a, g, s', run, .shut shut⟩
    · exact ⟨a, g', s', run, .stalled opened few stalls⟩
    · exact ⟨a, g', s', run, .mapped page opened maps⟩
  · obtain ⟨-, -, -, -, held, -⟩ := (fails_walkaddr prepared.tables prepared.ready.around).mp fails
    exact absurd idle held

variable {fuel stop : Nat}

theorem allocrangeLoop_kept {u : Unit} (prepared : Prepared g s root)
    (idle : s.spinlocks = 0) (run : Returns (allocrangeLoop root stop fuel va) s u s') :
    ∃ g', Prepared g' s' root ∧ Undisturbed s s' := by
  induction fuel generalizing g s va with
  | zero => exact absurd run returns_throw
  | succ fuel ih =>
    unfold allocrangeLoop at run
    split at run
    · obtain ⟨a, g', t, walked, touched⟩ := walkaddr_unlocked prepared idle va
      obtain ⟨a', t', walked', later⟩ := returns_bind.mp run
      obtain ⟨-, rfl⟩ := walked.unique walked'
      obtain ⟨g'', prepared'', kept⟩ := ih (touched.prepared prepared) (touched.kept.files.spinlocks.trans idle) later
      exact ⟨g'', prepared'', touched.kept.trans kept⟩
    · rw [(returns_pure.mp run).2]
      exact ⟨g, prepared, .refl⟩

theorem allocrangeLoop_fails (prepared : Prepared g s root) (idle : s.spinlocks = 0) :
    ¬Fails (allocrangeLoop root stop fuel va) s (.panic .sched) := by
  induction fuel generalizing g s va with
  | zero =>
    unfold allocrangeLoop
    rw [fails_throw]
    exact fun wrong => nomatch wrong
  | succ fuel ih =>
    unfold allocrangeLoop
    split
    · obtain ⟨a, g', t, walked, touched⟩ := walkaddr_unlocked prepared idle va
      rw [fails_bind_of_returns walked]
      exact ih (touched.prepared prepared) (touched.kept.files.spinlocks.trans idle)
    · exact fails_pure

/-- The pages, `k` of them from `p` on, that are open at offset `o`. -/
def Sys.covered (s : Sys) (root : PageNo) (o p k : Nat) : Finset Nat :=
  (Ico p (p + k)).filter fun q => s.Open root (q * PGSIZE + o)

/-- walkaddr for `k` pages from `p` on, at offset `o` of each. -/
inductive TouchedAll (root : PageNo) (o : Nat) : Nat → Nat → Layout → Sys → Layout → Sys → Prop where
  | nil {p : Nat} {g : Layout} {s : Sys} : TouchedAll root o p 0 g s g s
  | cons {p k : Nat} {g g' g'' : Layout} {s s' s'' : Sys} (first : Touched root (p * PGSIZE + o) g s g' s')
      (rest : TouchedAll root o (p + 1) k g' s' g'' s'') : TouchedAll root o p (k + 1) g s g'' s''

section TouchedAll

variable {o k : Nat}

theorem page_offset (inside : o < PGSIZE) : (p * PGSIZE + o) / PGSIZE = p := by
  rw [Nat.mul_comm, Nat.mul_add_div (by decide), Nat.div_eq_of_lt inside, Nat.add_zero]

theorem allocrangeLoop_touches (prepared : Prepared g s root) (idle : s.spinlocks = 0)
    (small : (p + k) * PGSIZE + o < 2 ^ 64) (last : (p + k) * PGSIZE + o < stop + PGSIZE)
    (done : stop ≤ (p + k) * PGSIZE + o) (enough : k < fuel) :
    ∃ g' s', Returns (allocrangeLoop root stop fuel (p * PGSIZE + o)) s () s' ∧ TouchedAll root o p k g s g' s' := by
  induction k generalizing g s p fuel with
  | zero =>
    obtain ⟨fuel, rfl⟩ := Nat.exists_eq_succ_of_ne_zero (show fuel ≠ 0 by omega)
    refine ⟨g, s, ?_, .nil⟩
    unfold allocrangeLoop
    rw [Nat.add_zero] at done
    rw [if_neg (Nat.not_lt.mpr done)]
    exact returns_pure.mpr ⟨rfl, rfl⟩
  | succ k ih =>
    obtain ⟨fuel, rfl⟩ := Nat.exists_eq_succ_of_ne_zero (show fuel ≠ 0 by omega)
    have same : p + (k + 1) = p + 1 + k := by omega
    rw [same] at small last done
    have onward : (p + 1) * PGSIZE ≤ (p + 1 + k) * PGSIZE := Nat.mul_le_mul_right _ (Nat.le_add_right ..)
    have step : (p + 1) * PGSIZE = p * PGSIZE + PGSIZE := Nat.succ_mul ..
    have more : p * PGSIZE + o < stop := by omega
    have next : u64 (p * PGSIZE + o + PGSIZE) = (p + 1) * PGSIZE + o := by
      rw [Nat.add_right_comm, ← step]
      exact Nat.mod_eq_of_lt (by omega)
    obtain ⟨a, g', t, walked, touched⟩ := walkaddr_unlocked prepared idle (p * PGSIZE + o)
    obtain ⟨g'', s', run, all⟩ := ih (p := p + 1) (touched.prepared prepared)
      (touched.kept.files.spinlocks.trans idle) small last done (show k < fuel by omega)
    refine ⟨g'', s', ?_, .cons touched all⟩
    unfold allocrangeLoop
    rw [if_pos more, returns_bind]
    refine ⟨a, t, walked, ?_⟩
    rw [next]
    exact run

theorem mem_covered : q ∈ s.covered root o p k ↔ (p ≤ q ∧ q < p + k) ∧ s.Open root (q * PGSIZE + o) := by
  rw [Sys.covered, mem_filter, mem_Ico]

theorem covered_zero : s.covered root o p 0 = ∅ := by
  rw [Sys.covered, Nat.add_zero, Ico_self, filter_empty]

theorem covered_succ_shut (shut : ¬s.Open root (p * PGSIZE + o)) :
    s.covered root o p (k + 1) = s.covered root o (p + 1) k := by
  ext q
  rw [mem_covered, mem_covered]
  constructor
  · rintro ⟨⟨first, last⟩, opened⟩
    have other : q ≠ p := by
      rintro rfl
      exact shut opened
    exact ⟨by omega, opened⟩
  · rintro ⟨⟨first, last⟩, opened⟩
    exact ⟨by omega, opened⟩

theorem covered_succ_open (opened : s.Open root (p * PGSIZE + o)) (same : ∀ va, s'.Open root va ↔ s.Open root va) :
    s.covered root o p (k + 1) = {p} ∪ s'.covered root o (p + 1) k := by
  ext q
  rw [mem_union, mem_singleton, mem_covered, mem_covered, same]
  constructor
  · rintro ⟨⟨first, last⟩, here⟩
    by_cases head : q = p
    · exact .inl head
    · exact .inr ⟨by omega, here⟩
  · rintro (rfl | ⟨⟨first, last⟩, here⟩)
    · exact ⟨by omega, opened⟩
    · exact ⟨by omega, here⟩

theorem covered_low (member : q ∈ s.covered root o p k) : q * PGSIZE < MAXVA :=
  Nat.lt_of_le_of_lt (Nat.le_add_right ..) (mem_covered.mp member).2.low

theorem TouchedAll.short (all : TouchedAll root o p k g s g' s') (inside : o < PGSIZE)
    (prepared : Prepared g s root) (few : s.freelist.length ≤ 1) :
    (s'.freelist.length = if s.freelist.length = 1 ∧ ∀ q ∈ s.covered root o p k, s.cost root q ≠ 1 then 1 else 0) ∧
      (s'.freelist.length = 1 → Unmoved root s s') := by
  induction all with
  | nil =>
    refine ⟨?_, fun _ => .refl⟩
    rw [covered_zero]
    simp only [notMem_empty, false_implies, implies_true, and_true]
    split
    · assumption
    · omega
  | @cons p k g g₁ g' s s₁ s' first rest ih =>
    specialize ih (first.prepared prepared)
    cases first with
    | shut refused =>
      rw [covered_succ_shut refused]
      exact ih few
    | stalled opened costly stalls =>
      rw [page_offset inside] at costly
      have unmoved := stalls.unmoved prepared.tables prepared.known
      have same : s₁.freelist.length = s.freelist.length := by
        rw [stalls.free, List.length_take]
        omega
      obtain ⟨free, kept⟩ := ih (same ▸ few)
      refine ⟨free.trans (if_congr ?_ rfl rfl), fun one => unmoved.trans (kept one)⟩
      rw [same, covered_succ_open opened unmoved.opened]
      refine and_congr_right fun one => ?_
      simp only [mem_union, mem_singleton, forall_eq_or_imp]
      rw [and_iff_right (by omega)]
      exact forall₂_congr fun q member => not_congr (unmoved.cost (covered_low member))
    | mapped page opened maps =>
      have number : (p * PGSIZE + o) / PGSIZE = p := page_offset inside
      have free := maps.free
      rw [number] at free
      obtain ⟨free', kept⟩ := ih (by omega)
      have split := covered_succ_open (k := k) opened (maps.open_iff opened)
      by_cases present : s.Present root (p * PGSIZE)
      · have nothing : s.cost root p = 0 := if_pos present
        have unmoved : Unmoved root s s₁ := maps.unmoved opened (by rwa [number])
        refine ⟨free'.trans (if_congr ?_ rfl rfl), fun one => unmoved.trans (kept one)⟩
        rw [split, show s₁.freelist.length = s.freelist.length by omega]
        refine and_congr_right fun one => ?_
        simp only [mem_union, mem_singleton, forall_eq_or_imp]
        rw [and_iff_right (by omega)]
        exact forall₂_congr fun q member => not_congr (unmoved.cost (covered_low member))
      · -- the last page goes here
        have cost : s.cost root p = 1 + (s.lacks root (p * PGSIZE)).card := if_neg present
        have none : s'.freelist.length = 0 := free'.trans (if_neg fun wrong => by omega)
        refine ⟨none.trans (if_neg fun wrong => ?_).symm, fun one => by omega⟩
        refine wrong.2 p ?_ (by omega)
        rw [split]
        exact mem_union_left _ (mem_singleton_self p)

theorem served_of_costly (head : p ∈ pages) (first : ∀ q ∈ pages, p ≤ q)
    (costly : s.freelist.length < s.cost root p) : s.served root pages = ∅ ∧ s.leftover root pages =
      if s.freelist ≠ [] ∧ ∀ q ∈ pages, s.cost root q ≠ 1 then 1 else 0 := by
  have beyond {more : Finset Nat} (member : p ∈ more) : s.freelist.length < s.need root more := by
    refine costly.trans_le ?_
    rw [← need_singleton]
    exact need_mono (singleton_subset_iff.mpr member)
  have none : s.served root pages = ∅ := filter_eq_empty_iff.mpr fun q member =>
    Nat.not_le.mpr (beyond (mem_filter.mpr ⟨head, first q member⟩))
  refine ⟨none, ?_⟩
  unfold Sys.leftover
  rw [if_neg (Nat.not_le.mpr (beyond head)), none, need_empty]
  refine if_congr (and_congr List.length_pos_iff ?_) rfl rfl
  exact forall₂_congr fun q _ => by rw [insert_empty_eq, need_singleton, Nat.zero_add]

theorem TouchedAll.prefaulted (all : TouchedAll root o p k g s g' s') (inside : o < PGSIZE)
    (prepared : Prepared g s root) : Prefaulted root (s.covered root o p k) s s' := by
  induction all with
  | nil =>
    rename_i s
    have none : s.served root ∅ = ∅ := rfl
    rw [covered_zero]
    refine ⟨?_, fun _ _ => .rfl, fun _ q _ => ?_, fun more _ => ?_⟩
    · rw [Sys.leftover, need_empty, if_pos (Nat.zero_le _), Nat.sub_zero]
    · rw [none, or_iff_left (notMem_empty q)]
    · rw [none, empty_union, need_empty, Nat.zero_add]
  | @cons p k g g₁ g' s s₁ s' first rest ih =>
    have number : (p * PGSIZE + o) / PGSIZE = p := page_offset inside
    specialize ih (first.prepared prepared)
    cases first with
    | shut refused =>
      rw [covered_succ_shut refused]
      exact ih
    | stalled opened costly stalls =>
      rw [number] at costly
      have unmoved := stalls.unmoved prepared.tables prepared.known
      have one : s₁.freelist.length ≤ 1 := by
        rw [stalls.free, List.length_take]
        exact Nat.min_le_left ..
      obtain ⟨free, kept⟩ := rest.short inside (prepared.stalls stalls) one
      have split := covered_succ_open (k := k) opened unmoved.opened
      have head : p ∈ s.covered root o p (k + 1) := by
        rw [split]
        exact mem_union_left _ (mem_singleton_self p)
      obtain ⟨none, left⟩ := served_of_costly head (fun q member => (mem_covered.mp member).1.1) costly
      have same : s'.freelist.length = s.leftover root (s.covered root o p (k + 1)) := by
        have rest : (∀ q ∈ s₁.covered root o (p + 1) k, s₁.cost root q ≠ 1) ↔
            ∀ q ∈ s₁.covered root o (p + 1) k, s.cost root q ≠ 1 :=
          forall₂_congr fun q member => not_congr (unmoved.cost (covered_low member))
        rw [free, left, stalls.free, List.length_take]
        refine if_congr ?_ rfl rfl
        rw [split, ← List.length_pos_iff, rest]
        simp only [mem_union, mem_singleton, forall_eq_or_imp]
        constructor
        · rintro ⟨one, none⟩
          exact ⟨by omega, by omega, none⟩
        · rintro ⟨some, -, none⟩
          exact ⟨by omega, none⟩
      have atMost : s'.freelist.length ≤ 1 := by
        rw [free]
        split
        · exact le_rfl
        · exact Nat.zero_le _
      have still (left : s'.freelist ≠ []) : Unmoved root s s' := by
        have positive := List.length_pos_iff.mpr left
        exact unmoved.trans (kept (by omega))
      refine ⟨same, fun left => (still left).opened, fun left q low => ?_, fun more low => ?_⟩
      · rw [none, (still left).present q low, or_iff_left (notMem_empty q)]
      · rw [none, empty_union, need_empty, Nat.zero_add]
        by_cases left : s'.freelist = []
        · rw [left, List.length_nil]
          exact iff_of_false (Nat.not_lt_zero _) (Nat.not_lt_zero _)
        · have positive := List.length_pos_iff.mpr left
          have zero := (still left).need low
          rw [show s'.freelist.length = 1 by omega, Nat.lt_one_iff, Nat.lt_one_iff]
          exact zero
    | mapped page opened maps =>
      have result := Prefaulted.cons maps opened (fun q member => ?_) ih
      · rw [covered_succ_open opened (maps.open_iff opened)]
        rwa [number] at result
      · rw [number]
        exact ⟨(mem_covered.mp member).1.1, covered_low member⟩

/-- The pages that allocrange asks for: those of `addr`, `addr + PGSIZE` and so on. -/
def Sys.asked (s : Sys) (root : PageNo) (addr n : Nat) : Finset Nat :=
  s.covered root (addr % PGSIZE) (addr / PGSIZE) ((n + PGSIZE - 1) / PGSIZE)

theorem allocrange_prefaults {addr n : Nat} (prepared : Prepared g s root) (idle : s.spinlocks = 0)
    (low : addr < MAXVA) (int : n < 2 ^ 31) :
    ∃ s', Returns (allocrange root addr n) s () s' ∧ Prefaulted root (s.asked root addr n) s s' := by
  have stop : u64 (addr + n) = addr + n := by
    unfold MAXVA at low
    exact Nat.mod_eq_of_lt (by omega)
  have inside : addr % PGSIZE < PGSIZE := Nat.mod_lt _ (by decide)
  have place : addr / PGSIZE * PGSIZE + addr % PGSIZE = addr := Nat.div_add_mod' ..
  have turns : (addr / PGSIZE + (n + PGSIZE - 1) / PGSIZE) * PGSIZE + addr % PGSIZE =
      addr + (n + PGSIZE - 1) / PGSIZE * PGSIZE := by
    rw [Nat.add_mul]
    omega
  have count : n ≤ (n + PGSIZE - 1) / PGSIZE * PGSIZE ∧ (n + PGSIZE - 1) / PGSIZE * PGSIZE < n + PGSIZE := by
    unfold PGSIZE
    omega
  have page : PGSIZE = 4096 := rfl
  obtain ⟨g', s', run, all⟩ := allocrangeLoop_touches (p := addr / PGSIZE) (o := addr % PGSIZE)
    (k := (n + PGSIZE - 1) / PGSIZE) prepared idle
    (by rw [turns]; unfold MAXVA at low; omega) (show _ < addr + n + PGSIZE by rw [turns]; omega)
    (by rw [turns]; omega) (show _ < 2 ^ 64 / PGSIZE + 1 by rw [page]; omega)
  refine ⟨s', ?_, all.prefaulted inside prepared⟩
  unfold allocrange
  rw [stop]
  rwa [place] at run

/-- From page `p` on a copy comes to page `q`, which has to be read from a file, after the given pages
have been asked for. -/
structure Sys.Catches (s : Sys) (root : PageNo) (pages : Finset Nat) (p q : Nat) : Prop where
  opened : ∀ r, p ≤ r → r ≤ q → s.Open root (r * PGSIZE)
  absent : ¬s.Present root (q * PGSIZE)
  missed : q ∉ s.served root pages
  loads : s.LoadsAt (q * PGSIZE)
  memory : s.need root (s.served root pages ∪ Ico p q) < s.need root (s.served root pages) + s.leftover root pages

theorem Prefaulted.sticks (prefaulted : Prefaulted root pages s s') (files : SameFiles s s') (le : p ≤ q) :
    s'.Sticks root p q ↔ s.Catches root pages p q := by
  have free := prefaulted.free
  by_cases left : s'.freelist = []
  · refine iff_of_false (fun sticks => ?_) fun catches => ?_
    · have memory := sticks.memory
      rw [left, List.length_nil] at memory
      omega
    · have memory := catches.memory
      have less : s.need root (s.served root pages) ≤ s.need root (s.served root pages ∪ Ico p q) :=
        need_mono subset_union_left
      rw [left, List.length_nil] at free
      omega
  · have opened := prefaulted.opened left
    have memory (low : q * PGSIZE < MAXVA) := prefaulted.memory (Ico p q) fun r member =>
      (Nat.mul_le_mul_right _ (mem_Ico.mp member).2.le).trans_lt low
    constructor
    · rintro ⟨all, absent, loads, enough⟩
      have low : q * PGSIZE < MAXVA := (all q le (le_rfl)).low
      rw [prefaulted.present left q low, not_or] at absent
      refine ⟨fun r first last => (opened _).mp (all r first last), absent.1, absent.2, files.loadsAt.mp loads, ?_⟩
      rw [← free]
      exact (memory low).mp enough
    · rintro ⟨all, absent, missed, loads, enough⟩
      have low : q * PGSIZE < MAXVA := (all q le (le_rfl)).low
      refine ⟨fun r first last => (opened _).mpr (all r first last), ?_, files.loadsAt.mpr loads, ?_⟩
      · rw [prefaulted.present left q low, not_or]
        exact ⟨absent, missed⟩
      · rw [← free] at enough
        exact (memory low).mpr enough

end TouchedAll

end Accounts

end DeisoXv6
