import DeisoXv6.Fs.Contents
import DeisoXv6.Vm.Lazy
import Mathlib.Order.Interval.Finset.Nat

/-! How far a copy gets that touches one page after the other. It stops at the first page that walkaddr
refuses, or for which there is no memory; both can be told before the copy starts. -/

set_option autoImplicit false

namespace DeisoXv6

open Finset Function Semantics Bytes

namespace Sys

variable (s : Sys) (root : PageNo)

def unmapped (pages : Finset Nat) : Finset Nat := pages.filter fun p => ¬s.Present root (p * PGSIZE)

def newTables (pages : Finset Nat) : Finset (List Nat) :=
  (s.unmapped root pages).biUnion fun p => s.lacks root (p * PGSIZE)

/-- How many free pages it takes to map them: one for each, and one for each table that is missing. -/
def need (pages : Finset Nat) : Nat := (s.unmapped root pages).card + (s.newTables root pages).card

def cost (p : Nat) : Nat := if s.Present root (p * PGSIZE) then 0 else 1 + (s.lacks root (p * PGSIZE)).card

/-- Page by page, every page from `first` to `last` can be had. -/
structure Reaches (first last : Nat) : Prop where
  opened : ∀ p, first ≤ p → p ≤ last → s.Open root (p * PGSIZE)
  memory : s.need root (Icc first last) ≤ s.freelist.length

end Sys

/-- The pages are mapped, with the tables that they lacked, and no others. -/
structure Covers (root : PageNo) (pages : Finset Nat) (s s' : Sys) : Prop where
  vmaAt : ∀ va, s'.vmaAt va = s.vmaAt va
  entry : ∀ q ∉ pages, q * PGSIZE < MAXVA → s'.entry root (q * PGSIZE) = s.entry root (q * PGSIZE)
  present : ∀ q ∈ pages, s'.Present root (q * PGSIZE)
  lacks : ∀ va, s'.lacks root va = s.lacks root va \ s.newTables root pages

theorem pgrounddown_eq_mul {va : Nat} : pgrounddown va = va / PGSIZE * PGSIZE := by
  unfold pgrounddown PGSIZE
  omega

section Need

variable {root : PageNo} {p q : Nat} {pages more : Finset Nat} {s s' : Sys}

theorem mem_unmapped : p ∈ s.unmapped root pages ↔ p ∈ pages ∧ ¬s.Present root (p * PGSIZE) := mem_filter

theorem need_mono (subset : pages ⊆ more) : s.need root pages ≤ s.need root more := by
  have smaller : s.unmapped root pages ⊆ s.unmapped root more := filter_subset_filter _ subset
  exact Nat.add_le_add (card_le_card smaller) (card_le_card (biUnion_subset_biUnion_of_subset_left _ smaller))

theorem unmapped_singleton : s.unmapped root {p} = if s.Present root (p * PGSIZE) then ∅ else {p} := by
  unfold Sys.unmapped
  rw [filter_singleton, ite_not]

theorem newTables_singleton :
    s.newTables root {p} = if s.Present root (p * PGSIZE) then ∅ else s.lacks root (p * PGSIZE) := by
  unfold Sys.newTables
  rw [unmapped_singleton]
  split
  · exact biUnion_empty
  · exact singleton_biUnion

theorem need_singleton : s.need root {p} = s.cost root p := by
  unfold Sys.need Sys.cost
  rw [unmapped_singleton, newTables_singleton]
  split
  · rfl
  · rw [card_singleton]

theorem need_empty : s.need root ∅ = 0 := by
  simp [Sys.need, Sys.newTables, Sys.unmapped]

theorem need_congr (same : s'.mem = s.mem) : s'.need root pages = s.need root pages := by
  have pte : ∀ table i, s'.pte table i = s.pte table i := fun _ _ => pte_congr (congrFun same _)
  have down : ∀ path table, s'.walkDown table path = s.walkDown table path := by
    intro path
    induction path with
    | nil => exact fun _ => rfl
    | cons i rest ih =>
      intro table
      rw [Sys.walkDown, Sys.walkDown, pte, ih]
  have unmapped : s'.unmapped root pages = s.unmapped root pages := filter_congr fun r _ => by
    unfold Sys.Present Sys.entry
    simp only [down, pte]
  have lacks : ∀ va, s'.lacks root va = s.lacks root va := fun va => filter_congr fun path _ => by
    rw [down]
  unfold Sys.need Sys.newTables
  rw [unmapped]
  simp only [lacks]

section

variable (covers : Covers root pages s s')

include covers

theorem Covers.present_iff (low : q * PGSIZE < MAXVA) :
    s'.Present root (q * PGSIZE) ↔ s.Present root (q * PGSIZE) ∨ q ∈ pages := by
  by_cases inside : q ∈ pages
  · exact iff_of_true (covers.present q inside) (.inr inside)
  · rw [present_congr (covers.entry q inside low), or_iff_left inside]

theorem Covers.open_iff (other : q ∉ pages) : s'.Open root (q * PGSIZE) ↔ s.Open root (q * PGSIZE) :=
  open_congr (covers.vmaAt _) (covers.entry q other)

section

variable (low : ∀ r ∈ more, r * PGSIZE < MAXVA)

include low

theorem Covers.newTables : s'.newTables root more = s.newTables root (pages ∪ more) \ s.newTables root pages := by
  ext path
  simp only [Sys.newTables, mem_sdiff, mem_biUnion, mem_unmapped, covers.lacks, mem_union]
  constructor
  · rintro ⟨r, ⟨member, absent⟩, lacks, new⟩
    rw [covers.present_iff (low r member), not_or] at absent
    exact ⟨⟨r, ⟨.inr member, absent.1⟩, lacks⟩, new⟩
  · rintro ⟨⟨r, ⟨member, absent⟩, lacks⟩, new⟩
    have other : r ∉ pages := fun inside => new ⟨r, ⟨inside, absent⟩, lacks⟩
    have member := member.resolve_left other
    refine ⟨r, ⟨member, ?_⟩, lacks, new⟩
    rw [covers.present_iff (low r member), not_or]
    exact ⟨absent, other⟩

theorem Covers.unmapped : s'.unmapped root more = s.unmapped root (pages ∪ more) \ s.unmapped root pages := by
  ext r
  simp only [mem_sdiff, mem_unmapped, mem_union]
  by_cases member : r ∈ more
  · rw [covers.present_iff (low r member)]
    generalize s.Present root (r * PGSIZE) = present
    tauto
  · generalize s.Present root (r * PGSIZE) = present
    tauto

theorem Covers.need_union : s.need root (pages ∪ more) = s.need root pages + s'.need root more := by
  have fewer : s.unmapped root pages ⊆ s.unmapped root (pages ∪ more) :=
    filter_subset_filter _ subset_union_left
  have tables : s.newTables root pages ⊆ s.newTables root (pages ∪ more) :=
    biUnion_subset_biUnion_of_subset_left _ fewer
  have first := card_sdiff_add_card_eq_card fewer
  have second := card_sdiff_add_card_eq_card tables
  rw [← covers.unmapped low] at first
  rw [← covers.newTables low] at second
  unfold Sys.need
  omega

end

end

theorem insert_Icc (le : p ≤ q) : Icc p q = {p} ∪ Icc (p + 1) q := by
  ext r
  rw [mem_union, mem_singleton, mem_Icc, mem_Icc]
  omega

theorem Covers.reaches_iff (covers : Covers root {p} s s') (after : p < q)
    (opened : s.Open root (p * PGSIZE)) (free : s.freelist.length = s.cost root p + s'.freelist.length) :
    s.Reaches root p q ↔ s'.Reaches root (p + 1) q := by
  have other : ∀ r, p + 1 ≤ r → r ∉ ({p} : Finset Nat) := fun r first => by
    rw [mem_singleton]
    omega
  have sum (low : ∀ r, p + 1 ≤ r → r ≤ q → r * PGSIZE < MAXVA) :
      s.need root ({p} ∪ Icc (p + 1) q) = s.cost root p + s'.need root (Icc (p + 1) q) := by
    rw [covers.need_union fun r member => ?_, need_singleton]
    rw [mem_Icc] at member
    exact low r member.1 member.2
  constructor
  · rintro ⟨all, memory⟩
    have sum := sum fun r first last => (all r (by omega) last).low
    rw [insert_Icc (after.le)] at memory
    exact ⟨fun r first last => (covers.open_iff (other r first)).mpr (all r (by omega) last), by omega⟩
  · rintro ⟨all, memory⟩
    have sum := sum fun r first last => (all r first last).low
    refine ⟨fun r first last => ?_, by rw [insert_Icc (after.le)]; omega⟩
    rcases Nat.eq_or_lt_of_le first with rfl | first
    · exact opened
    · exact (covers.open_iff (other r first)).mp (all r first last)

end Need

/-- A page that is in use and not part of a page table. -/
structure Layout.Data (g : Layout) (page : PageNo) : Prop where
  used : g.own page ≠ .free
  outside : ∀ r path, g.own page ≠ .table r path

def SafeFrom (g : Layout) (s : Sys) (root : PageNo) (p : Nat) : Prop :=
  ∀ q, p ≤ q → q * PGSIZE < MAXVA → s.Present root (q * PGSIZE) →
    Pte.has (s.entry root (q * PGSIZE)) PTE_U = true → g.Data (pte2pa (s.entry root (q * PGSIZE)))

def Sys.SolidFiles (s : Sys) : Prop :=
  ∀ vma f i, (s.vmas.get vma).file = some f → (s.file f).ip = some i → s.Solid (s.copyOf i)

/-- The VMAs and the contents of files are the same. -/
structure SameFiles (s s' : Sys) : Prop where
  vmas : s'.vmas = s.vmas
  current : s'.current = s.current
  file : s'.file = s.file
  spinlocks : s'.spinlocks = s.spinlocks
  block : s'.block = s.block
  inode : ∀ i, s'.copyOf i = s.copyOf i ∧ (s'.inode i).ref = (s.inode i).ref ∧
    (s'.inode i).locked = (s.inode i).locked

/-- Page `p` is mapped to `page` for the user, and what is left for the others. -/
structure Maps (root : PageNo) (p : Nat) (page : PageNo) (g : Layout) (s : Sys) (g' : Layout) (s' : Sys) :
    Prop extends Evolves g s g' s' where
  data : g'.Data page
  files : SameFiles s s'
  covers : Covers root {p} s s'
  free : s.freelist.length = s.cost root p + s'.freelist.length
  user : Pte.has (s'.entry root (p * PGSIZE)) PTE_U = true ∧ pte2pa (s'.entry root (p * PGSIZE)) ≠ 0
  place : (∀ vma, CleanProt (s.vmas.get vma).permission) → pte2pa (s'.entry root (p * PGSIZE)) = page

/-- There was no memory to map a page: the last free page stays, and no entry is set. -/
structure Stalls (root : PageNo) (g : Layout) (s : Sys) (g' : Layout) (s' : Sys) : Prop extends Grows g s g' s' where
  files : SameFiles s s'
  leaves : g.SameLeaves g' root
  free : s'.freelist = s.freelist.take 1

/-- What a page holds, or will hold once it is mapped. -/
def Sys.pageAt (s : Sys) (root : PageNo) (p : Nat) : Nat → UInt8 :=
  if s.Present root (p * PGSIZE) then s.mem (pte2pa (s.entry root (p * PGSIZE)))
  else match s.vmaAt (p * PGSIZE) with
    | none => fun _ => 0
    | some vma => overlay (fun _ => 0) 0 (s.pageBytes (s.vmas.get vma) (p * PGSIZE))

theorem ram_bit {page kernelEnd : Nat} (kernel : 0x80000000 ≤ kernelEnd)
    (ram : kernelEnd ≤ page * PGSIZE ∧ page * PGSIZE < PHYSTOP) : page.testBit 19 = true := by
  unfold PGSIZE PHYSTOP at ram
  rw [Nat.testBit_eq_decide_div_mod_eq, decide_eq_true_eq]
  omega

variable {a : Option PageNo}

section Maps

variable {root page : PageNo} {p q va : Nat} {g g' : Layout} {s s' : Sys}

theorem vmaAt_congr (vmas : s'.vmas = s.vmas) (current : s'.current = s.current) : s'.vmaAt va = s.vmaAt va := by
  unfold Sys.vmaAt
  rw [vmas, current]

theorem SameFiles.refl : SameFiles s s := ⟨rfl, rfl, rfl, rfl, rfl, fun _ => ⟨rfl, rfl, rfl⟩⟩

theorem SameFiles.solid (same : SameFiles s s') (solid : s.SolidFiles) : s'.SolidFiles := by
  intro vma f i file place
  rw [same.vmas] at file
  rw [same.file] at place
  rw [(same.inode i).1]
  exact fun bn below => blockOf_congr same.block ▸ solid vma f i file place bn below

variable {v : Vma} {vma : VmaRef}

theorem SameFiles.pageBytes (same : SameFiles s s') : s'.pageBytes v va = s.pageBytes v va := by
  unfold Sys.pageBytes
  simp only [same.file, fun i => (same.inode i).1, fileByte_congr same.block]

theorem pageAt_present (present : s.Present root (p * PGSIZE)) :
    s.pageAt root p = s.mem (pte2pa (s.entry root (p * PGSIZE))) := if_pos present

theorem pageAt_absent (absent : ¬s.Present root (p * PGSIZE)) (place : s.vmaAt (p * PGSIZE) = some vma) :
    s.pageAt root p = overlay (fun _ => 0) 0 (s.pageBytes (s.vmas.get vma) (p * PGSIZE)) := by
  unfold Sys.pageAt
  rw [if_neg absent, place]

theorem Layout.Data.kept (data : g.Data page) (same : g'.own page = g.own page) : g'.Data page :=
  ⟨same ▸ data.used, same ▸ data.outside⟩

theorem Layout.Data.user {r : PageNo} {vpn : Nat} (mine : g.own page = .user r vpn) : g.Data page :=
  ⟨by simp [mine], by simp [mine]⟩

theorem Sys.Reaches.le (reaches : s.Reaches root p q) {r : Nat} (le : r ≤ q) : s.Reaches root p r :=
  ⟨fun t first last => reaches.opened t first (last.trans le),
    (need_mono (Icc_subset_Icc_right le)).trans reaches.memory⟩

theorem Remaps.lacks {pte : Pte} {va' : Nat} (remaps : Remaps root va pte g s g' s') (tables : Tables g s)
    (known : g.tree root [] = some root) : s'.lacks root va' = s.lacks root va' \ s.lacks root va := by
  ext path
  rw [mem_sdiff, tables.mem_lacks known, tables.mem_lacks known,
    remaps.tables.mem_lacks (remaps.tree _ _ _ known), ← Option.not_isSome_iff_eq_none,
    ← Option.not_isSome_iff_eq_none, remaps.nodes root path]
  tauto

theorem Loads.contents {pages : List PageNo} (loads : Loads s va v page pages s')
    (solid : ∀ f i, v.file = some f → (s.file f).ip = some i → s.Solid (s.copyOf i)) :
    s'.mem page = overlay (fun _ => 0) 0 (s.pageBytes v va) ∧ s'.block = s.block ∧
      ∀ i, s'.copyOf i = s.copyOf i ∧ (s'.inode i).ref = (s.inode i).ref ∧
        (s'.inode i).locked = (s.inode i).locked := by
  obtain ⟨t, load, kept, rest⟩ := loads.loaded
  obtain ⟨bytes, block, inode⟩ := returns_loadPage (s := s.takeZeroed page pages) solid load
  have zero : (s.takeZeroed page pages).mem page = fun _ => 0 := update_self ..
  rw [zero] at bytes
  refine ⟨kept.trans bytes, ?_, fun i => ?_⟩
  · rw [rest]
    exact block
  · have same : s'.copyOf i = t.copyOf i := by
      rw [rest]
      rfl
    have table : s'.inode = t.inode := by rw [rest]
    rw [same, table]
    exact inode i

theorem lazyalloc_files
    (solid : ∀ f i, (s.vmas.get vma).file = some f → (s.file f).ip = some i → s.Solid (s.copyOf i))
    (run : Returns (lazyalloc root va vma) s a s') : SameFiles s s' := by
  unfold lazyalloc at run
  obtain ⟨taken, t, alloc, later⟩ := returns_bind.mp run
  rcases returns_kalloc.mp alloc with ⟨-, rfl, rfl⟩ | ⟨page, pages, -, rfl, rfl⟩
  · rw [(returns_pure.mp later).2]
    exact .refl
  · dsimp only at later
    rw [returns_modify_bind, returns_get_bind] at later
    obtain ⟨_, t, load, later⟩ := returns_bind.mp later
    obtain ⟨ok, t', mapped, later⟩ := returns_bind.mp later
    have loaded : SameFiles s t := by
      have rest := (loadPage_within _ _ _ load).rest
      obtain ⟨-, block, inode⟩ := returns_loadPage (s := s.takeZeroed page pages) solid load
      exact ⟨by rw [rest]; rfl, by rw [rest]; rfl, by rw [rest]; rfl, by rw [rest]; rfl, block, inode⟩
    have linked : SameFiles s t' := by
      rw [mappages_within _ _ _ mapped]
      exact ⟨loaded.vmas, loaded.current, loaded.file, loaded.spinlocks, loaded.block, loaded.inode⟩
    split at later
    · rw [(returns_pure.mp later).2]
      exact linked
    · obtain ⟨_, t'', freed, last⟩ := returns_bind.mp later
      rw [(returns_pure.mp last).2, (returns_kfree.mp freed).2]
      exact ⟨linked.vmas, linked.current, linked.file, linked.spinlocks, linked.block, linked.inode⟩

theorem entry_page : s.entry root (va / PGSIZE * PGSIZE) = s.entry root va := by
  rw [← pgrounddown_eq_mul, entry_pgrounddown]

theorem lacks_page : s.lacks root (va / PGSIZE * PGSIZE) = s.lacks root va := by
  unfold Sys.lacks
  rw [← pgrounddown_eq_mul, upper_pgrounddown, px_pgrounddown]

theorem present_page : s.Present root (va / PGSIZE * PGSIZE) ↔ s.Present root va := by
  unfold Sys.Present
  rw [entry_page]

theorem Maps.present_already (tables : Tables g s) (opened : s.Open root va) (present : s.Present root va)
    (data : g.Data (pte2pa (s.entry root va))) : Maps root (va / PGSIZE) (pte2pa (s.entry root va)) g s g s := by
  have here := present_page.mpr present
  refine ⟨.refl tables, data, .refl, ⟨fun _ => rfl, fun _ _ _ => rfl, fun q same => ?_, fun _ => ?_⟩, ?_, ?_, ?_⟩
  · rw [mem_singleton.mp same]
    exact here
  · rw [newTables_singleton, if_pos here, sdiff_empty]
  · rw [Sys.cost, if_pos here, Nat.zero_add]
  · rw [entry_page]
    exact opened.user present
  · rw [entry_page]
    exact fun _ => rfl

theorem Maps.loaded {pages : List PageNo} (tables : Tables g s)
    (known : g.tree root [] = some root) (solid : s.SolidFiles) (absent : ¬s.Present root va)
    (loads : Loads s va (s.vmas.get vma) page pages s') (enough : g.missing root va ≤ pages.length)
    (left : s'.freelist = pages.drop (g.missing root va)) (mine : g'.own page = .user root (va / PGSIZE))
    (remaps : Remaps root va (lazyPte page (s.vmas.get vma)) g s g' s') : Maps root (va / PGSIZE) page g s g' s' := by
  obtain ⟨-, block, inode⟩ := loads.contents (solid vma)
  have gone := mt present_page.mp absent
  have files : SameFiles s s' :=
    ⟨by rw [remaps.rest], by rw [remaps.rest], by rw [remaps.rest], by rw [remaps.rest], block, inode⟩
  have ram := tables.ram page (by simp [loads.list])
  refine ⟨remaps.toEvolves, .user mine, files, ⟨fun _ => vmaAt_congr files.vmas files.current,
    fun q other low => ?_, fun q same => ?_, fun _ => ?_⟩, ?_, ?_, fun clean => ?_⟩
  · refine remaps.others root _ known low fun _ => ?_
    rwa [Nat.mul_div_cancel _ (by decide), Ne, ← mem_singleton]
  · rw [mem_singleton.mp same, present_page, Sys.Present, remaps.entry]
    exact lazyPte_valid
  · rw [newTables_singleton, if_neg gone, lacks_page]
    exact remaps.lacks tables known
  · rw [Sys.cost, if_neg gone, lacks_page, loads.list, left, List.length_cons, List.length_drop,
      ← tables.missing_eq known]
    omega
  · rw [entry_page, remaps.entry]
    refine ⟨lazyPte_user, pte2pa_lazyPte_ne_zero ?_ (page_lt_of_ram ram.2)⟩
    rintro rfl
    have kernel := tables.kernel
    omega
  · rw [entry_page, remaps.entry]
    exact ((lazyPte_iff (page_lt_of_ram ram.2)).mpr ((clean vma).fits (ram_bit tables.kernel ram))).1

/-- walkaddr maps the page of an address, unless the address is refused or there is no memory. -/
theorem walkaddr_maps (tables : Tables g s) (known : g.tree root [] = some root)
    (safe : SafeFrom g s root (va / PGSIZE)) (solid : s.SolidFiles) (run : Returns (walkaddr root va) s a s') :
    (a = none ∧ ¬s.Open root va ∧ s' = s) ∨
      (a = none ∧ s.Open root va ∧ s.freelist.length < s.cost root (va / PGSIZE) ∧ ∃ g', Stalls root g s g' s') ∨
      ∃ page g', a = some page ∧ s.Open root va ∧ Maps root (va / PGSIZE) page g s g' s' := by
  rcases walkaddr_returns run with ⟨shut, rfl, rfl⟩ | ⟨opened, present, rfl, rfl⟩ |
    ⟨opened, absent, vma, place, alloc⟩
  · exact .inl ⟨rfl, shut, rfl⟩
  · refine .inr (.inr ⟨_, g, rfl, opened, .present_already tables opened present ?_⟩)
    have data := safe (va / PGSIZE) (le_rfl)
      (Nat.lt_of_le_of_lt (Nat.div_mul_le_self ..) opened.low) (present_page.mpr present)
    rw [entry_page] at data
    exact data (opened.user present).1
  · rcases lazyalloc_returns tables known opened.low alloc with
      ⟨page, pages, g', rfl, loads, enough, left, mine, remaps⟩ | ⟨rfl, few, left, g', grown, leaves⟩
    · exact .inr (.inr ⟨page, g', rfl, opened, .loaded tables known solid absent loads enough left mine remaps⟩)
    · refine .inr (.inl ⟨rfl, opened, ?_, g', grown, lazyalloc_files (solid vma) alloc, leaves, left⟩)
      rw [Sys.cost, if_neg (mt present_page.mp absent), lacks_page, ← tables.missing_eq known]
      omega

theorem SafeFrom.tail (safe : SafeFrom g s root p) : SafeFrom g s root (p + 1) := fun q after =>
  safe q (Nat.le_of_succ_le after)

section

variable (maps : Maps root p page g s g' s')

include maps

theorem Maps.safe (safe : SafeFrom g s root (p + 1)) : SafeFrom g' s' root (p + 1) := by
  intro q after low present user
  unfold Sys.Present at present
  rw [maps.covers.entry q (by rw [mem_singleton]; omega) low] at present user ⊢
  have data := safe q after low present user
  exact data.kept (maps.own _ data.used)

theorem Maps.reaches (opened : s.Open root (p * PGSIZE)) (after : p < q) :
    s.Reaches root p q ↔ s'.Reaches root (p + 1) q :=
  maps.covers.reaches_iff after opened maps.free

theorem Maps.reaches_self (opened : s.Open root (p * PGSIZE)) : s.Reaches root p p := by
  refine ⟨fun q first last => ?_, ?_⟩
  · rw [show q = p by omega]
    exact opened
  · rw [Icc_self, need_singleton, maps.free]
    exact Nat.le_add_right ..

theorem Maps.pageAt (safe : SafeFrom g s root (p + 1)) (after : p < q)
    (opened : s.Open root (q * PGSIZE)) : s'.pageAt root q = s.pageAt root q := by
  have same := maps.covers.entry q (by rw [mem_singleton]; omega) opened.low
  have iff := present_congr same
  by_cases present : s.Present root (q * PGSIZE)
  · have data := safe q after opened.low present (opened.user present).1
    rw [pageAt_present present, pageAt_present (iff.mpr present), same]
    exact maps.mem _ data.used data.outside
  · obtain ⟨vma, place⟩ := Option.isSome_iff_exists.mp opened.vma
    rw [pageAt_absent present place, pageAt_absent (mt iff.mp present) ((maps.covers.vmaAt _).trans place),
      maps.files.pageBytes, maps.files.vmas]

end

end Maps

/-- walkaddr for the start of page `p` has returned `page`, with its contents. -/
structure Steps (root : PageNo) (p : Nat) (page : PageNo) (g : Layout) (s : Sys) (g' : Layout) (s' : Sys) :
    Prop extends Maps root p page g s g' s' where
  opened : s.Open root (p * PGSIZE)
  contents : s'.mem page = s.pageAt root p

section Walk

variable {root page : PageNo} {p q : Nat} {g g' : Layout} {s s' : Sys}

theorem walkaddr_step (tables : Tables g s) (known : g.tree root [] = some root)
    (safe : SafeFrom g s root p) (solid : s.SolidFiles) (run : Returns (walkaddr root (p * PGSIZE)) s a s') :
    (a = none ∧ ∀ q, p ≤ q → ¬s.Reaches root p q) ∨ ∃ page g', a = some page ∧ Steps root p page g s g' s' := by
  have number : p * PGSIZE / PGSIZE = p := Nat.mul_div_cancel _ (by decide)
  rcases walkaddr_returns run with ⟨shut, rfl, -⟩ | ⟨opened, present, rfl, rfl⟩ | ⟨opened, absent, vma, place, alloc⟩
  · exact .inl ⟨rfl, fun q after reach => shut (reach.opened p (le_rfl) after)⟩
  · have maps := Maps.present_already tables opened present
      (safe p (le_rfl) opened.low present (opened.user present).1)
    rw [number] at maps
    exact .inr ⟨_, g, rfl, maps, opened, (pageAt_present present).symm⟩
  · rcases lazyalloc_returns tables known opened.low alloc with
      ⟨page, pages, g', rfl, loads, enough, left, mine, remaps⟩ | ⟨rfl, few, -⟩
    · have maps := Maps.loaded tables known solid absent loads enough left mine remaps
      rw [number] at maps
      exact .inr ⟨page, g', rfl, maps, opened, (loads.contents (solid vma)).1.trans (pageAt_absent absent place).symm⟩
    · refine .inl ⟨rfl, fun q after reach => ?_⟩
      have memory := (reach.le after).memory
      rw [Icc_self, need_singleton, Sys.cost, if_neg absent, ← tables.missing_eq known] at memory
      omega

variable {off : Nat} {bytes : List UInt8}

theorem Tables.store (tables : Tables g s) (data : g.Data page) : Tables g (s.store page off bytes) :=
  tables.frame (fun r path p node => update_of_ne (by
    rintro rfl
    exact data.outside _ _ (tables.table _ _ _ node)) ..) rfl rfl

theorem Tables.entry_store {va : Nat} (tables : Tables g s) (data : g.Data page)
    (known : g.tree root [] = some root) : (s.store page off bytes).entry root va = s.entry root va := by
  refine tables.entry_same (tables.store data) rfl known fun path p node => update_of_ne ?_ ..
  rintro rfl
  exact data.outside _ _ (tables.table _ _ _ node)

theorem SafeFrom.store (safe : SafeFrom g s root p) (tables : Tables g s)
    (data : g.Data page) (known : g.tree root [] = some root) : SafeFrom g (s.store page off bytes) root p := by
  intro q after low present user
  unfold Sys.Present at present
  rw [tables.entry_store data known] at present user ⊢
  exact safe q after low present user

section

variable (tables : Tables g s) (data : g.Data page) (known : g.tree root [] = some root)

include tables data known

theorem Tables.present_store {va : Nat} : (s.store page off bytes).Present root va ↔ s.Present root va :=
  present_congr (tables.entry_store data known)

theorem Tables.open_store {va : Nat} : (s.store page off bytes).Open root va ↔ s.Open root va :=
  open_congr rfl fun _ => tables.entry_store data known

theorem Tables.need_store {pages : Finset Nat} : (s.store page off bytes).need root pages = s.need root pages := by
  have lacks : ∀ va, (s.store page off bytes).lacks root va = s.lacks root va := by
    intro va
    ext path
    rw [tables.mem_lacks known, (tables.store data).mem_lacks known]
  have same : (s.store page off bytes).unmapped root pages = s.unmapped root pages :=
    filter_congr fun r _ => not_congr (tables.present_store data known)
  unfold Sys.need Sys.newTables
  rw [same]
  simp only [lacks]

theorem Tables.reaches_store : (s.store page off bytes).Reaches root p q ↔ s.Reaches root p q := by
  constructor
  · rintro ⟨all, memory⟩
    rw [tables.need_store data known] at memory
    exact ⟨fun r first last => (tables.open_store data known).mp (all r first last), memory⟩
  · rintro ⟨all, memory⟩
    refine ⟨fun r first last => (tables.open_store data known).mpr (all r first last), ?_⟩
    rw [tables.need_store data known]
    exact memory

end

end Walk

end DeisoXv6
