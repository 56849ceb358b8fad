import DeisoXv6.Fs.Frame
import DeisoXv6.Vm.Walk
import Mathlib.Data.Finset.Card

/-! lazyalloc and walkaddr over a layout: which page they return, what they map and how much memory it
takes. -/

set_option autoImplicit false

namespace DeisoXv6

open Function Semantics

def Sys.takeZeroed (s : Sys) (page : PageNo) (pages : List PageNo) : Sys :=
  ({ s with freelist := pages }.fill page 5).fill page 0

def Sys.freed (s : Sys) (page : PageNo) : Sys :=
  { s.fill page 1 with freelist := page :: s.freelist }

def Layout.assign (g : Layout) (page : PageNo) (owner : Owner) : Layout :=
  { g with own := update g.own page owner }

variable {g : Layout} {s s' : Sys} {root : PageNo} {va : Nat} {a : Option PageNo}

section Pages

variable {g' : Layout} {page : PageNo} {pages : List PageNo}

variable {owner : Owner} {p : PageNo}

theorem assign_own : (g.assign page owner).own page = owner := update_self ..

theorem missing_assign : (g.assign page owner).missing root va = g.missing root va := by
  have along : ∀ path rest, (g.assign page owner).missingFrom root path rest = g.missingFrom root path rest := by
    intro path rest
    induction rest generalizing path with
    | nil => rfl
    | cons i rest ih =>
      rw [Layout.missingFrom, ih, Layout.missingFrom]
      rfl
  exact along [] (upper va)

theorem missing_pgrounddown : g.missing root (pgrounddown va) = g.missing root va := by
  unfold Layout.missing
  rw [upper_pgrounddown]

theorem returns_kfree {u : Unit} : Returns (kfree page) s u s' ↔
    (s.kernelEnd ≤ page * PGSIZE ∧ page * PGSIZE < PHYSTOP) ∧ s' = s.freed page := by
  simp only [kfree, returns_bind, returns_get, returns_failIf, returns_modify, not_or, Nat.not_lt,
    ge_iff_le, Nat.not_le]
  constructor
  · rintro ⟨_, _, ⟨rfl, rfl⟩, _, _, ⟨ram, rfl⟩, _, _, rfl, rfl⟩
    exact ⟨ram, rfl⟩
  · rintro ⟨ram, rfl⟩
    exact ⟨_, _, ⟨rfl, rfl⟩, (), _, ⟨ram, rfl⟩, (), _, rfl, rfl⟩

theorem takeZeroed_mem (other : p ≠ page) : (s.takeZeroed page pages).mem p = s.mem p := by
  unfold Sys.takeZeroed
  rw [mem_fill, update_of_ne other, mem_fill, update_of_ne other]

theorem freed_mem (other : p ≠ page) : (s.freed page).mem p = s.mem p :=
  update_of_ne other ..

theorem Tables.entry_same (tables : Tables g s) (tables' : Tables g' s')
    (tree : g'.tree = g.tree) (known : g.tree root [] = some root)
    (same : ∀ path p, g.tree root path = some p → s'.mem p = s.mem p) : s'.entry root va = s.entry root va := by
  rw [tables.entry_eq known, tables'.entry_eq (by rw [tree, known]), tree]
  cases leaf : g.tree root (upper va) with
  | none => rfl
  | some table => exact pte_congr (same _ _ leaf)

theorem Tables.hand (tables : Tables g s) (first : s.freelist = page :: pages)
    (taken : owner ≠ .free) (changed : OnlyPage page (s.takeZeroed page pages) s') :
    Grows g s (g.assign page owner) s' := by
  have free : g.own page = .free := (tables.free page).mp (by simp [first])
  have list : s'.freelist = pages := by
    rw [changed.rest]
    rfl
  have kernel : s'.kernelEnd = s.kernelEnd := by
    rw [changed.rest]
    rfl
  have same : ∀ p, p ≠ page → s'.mem p = s.mem p := fun p other =>
    (changed.mem p other).trans (takeZeroed_mem other)
  have other : ∀ p, g.own p ≠ .free → p ≠ page := by
    rintro p used rfl
    exact used free
  have tables' := tables.take first list kernel same taken
  refine ⟨⟨tables', fun _ _ _ node => node, fun p used => update_of_ne (other p used) ..,
    fun p used _ => same p (other p used), ?_⟩, fun r va known => ?_⟩
  · rw [changed.rest]
    rfl
  · exact tables.entry_same tables' rfl known fun path p node => same p (other p (tables.not_free node))

theorem Grows.giveBack (grown : Grows g s g' s') (used : g'.own page ≠ .free)
    (outside : ∀ r path, g'.own page ≠ .table r path) (free : g.own page = .free)
    (above : s'.kernelEnd ≤ page * PGSIZE) (below : page * PGSIZE < PHYSTOP) :
    Grows g s (g'.assign page .free) (s'.freed page) := by
  have other : ∀ p, g.own p ≠ .free → p ≠ page := by
    rintro p busy rfl
    exact busy free
  have tables' : Tables (g'.assign page .free) (s'.freed page) :=
    grown.tables.give rfl rfl (fun _ => freed_mem) used outside above below
  refine ⟨⟨tables', grown.tree, fun p used => ?_, fun p used table => ?_, ?_⟩, fun r va known => ?_⟩
  · exact (update_of_ne (other p used) ..).trans (grown.own p used)
  · exact (freed_mem (other p used)).trans (grown.mem p used table)
  · rw [grown.rest]
    rfl
  · rw [← grown.entry r va known]
    refine grown.tables.entry_same tables' rfl (grown.tree r [] r known) fun path p node => freed_mem ?_
    rintro rfl
    exact outside _ _ (grown.tables.table _ _ _ node)

end Pages

theorem Remaps.of_pgrounddown {root : PageNo} {va : Nat} {pte : Pte} {g g' : Layout} {s s' : Sys}
    (remaps : Remaps root (pgrounddown va) pte g s g' s') : Remaps root va pte g s g' s' := by
  have page : pgrounddown va / PGSIZE = va / PGSIZE := by
    unfold pgrounddown PGSIZE
    omega
  obtain ⟨evolves, entry, others, nodes⟩ := remaps
  rw [entry_pgrounddown] at entry
  rw [page] at others
  rw [upper_pgrounddown] at nodes
  exact ⟨evolves, entry, others, nodes⟩

/-- The ways to the tables, below the root, that are missing for an address. -/
def Sys.lacks (s : Sys) (root : PageNo) (va : Nat) : Finset (List Nat) :=
  ({[px 2 va], upper va} : Finset (List Nat)).filter fun path => s.walkDown root path = none

section Lacks

variable {path : List Nat}

theorem mem_ways : path ∈ ({[px 2 va], upper va} : Finset (List Nat)) ↔ path ≠ [] ∧ path <+: upper va := by
  rw [Finset.mem_insert, Finset.mem_singleton]
  constructor
  · rintro (rfl | rfl)
    · exact ⟨by simp, by simp [upper]⟩
    · exact ⟨by simp [upper], List.prefix_rfl⟩
  · rintro ⟨real, rest, whole⟩
    rcases path with _ | ⟨i, _ | ⟨j, _ | ⟨k, path⟩⟩⟩ <;> simp_all [upper]

section

variable (tables : Tables g s) (known : g.tree root [] = some root)

include tables known

theorem Tables.walkDown_way (way : path <+: upper va) : s.walkDown root path = g.tree root path := by
  have short : path.length ≤ 2 := way.length_le
  exact tables.walkDown_eq known (by simpa using short) fun i member => upper_lt i (way.subset member)

theorem Tables.mem_lacks : path ∈ s.lacks root va ↔ (path ≠ [] ∧ path <+: upper va) ∧ g.tree root path = none := by
  unfold Sys.lacks
  rw [Finset.mem_filter, mem_ways]
  exact and_congr_right fun way => by rw [tables.walkDown_way known way.2]

theorem Tables.missing_eq : g.missing root va = (s.lacks root va).card := by
  unfold Sys.lacks
  rw [Finset.filter_insert, Finset.filter_singleton, tables.walkDown_way known (List.prefix_rfl (l := upper va)),
    tables.walkDown_way known (show [px 2 va] <+: upper va from ⟨[px 1 va], rfl⟩)]
  change (if (g.tree root [px 2 va]).isSome then 0 else 1) +
    ((if (g.tree root (upper va)).isSome then 0 else 1) + 0) = _
  have apart : [px 2 va] ≠ upper va := by simp [upper]
  by_cases first : g.tree root [px 2 va] = none
  · have second : g.tree root ([px 2 va] ++ [px 1 va]) = none := tables.none_below first
    rw [show [px 2 va] ++ [px 1 va] = upper va from rfl] at second
    simp [first, second, apart]
  · by_cases second : g.tree root (upper va) = none
    · simp [first, second, Option.isSome_iff_ne_none]
    · simp [first, second, Option.isSome_iff_ne_none]

end

end Lacks

section Lazyalloc

variable {vma : VmaRef}

/-- lazyalloc maps the first free page, with the contents that loadPage has left in it. -/
structure Loads (s : Sys) (va : Nat) (v : Vma) (page : PageNo) (pages : List PageNo) (s' : Sys) : Prop where
  list : s.freelist = page :: pages
  loaded : ∃ t, Returns (loadPage page v va) (s.takeZeroed page pages) () t ∧ s'.mem page = t.mem page ∧
    s' = { t with mem := s'.mem, freelist := s'.freelist }

theorem lazyalloc_returns (tables : Tables g s) (known : g.tree root [] = some root) (low : va < MAXVA)
    (run : Returns (lazyalloc root va vma) s a s') :
    (∃ page pages g', a = some page ∧ Loads s va (s.vmas.get vma) page pages s' ∧
        g.missing root va ≤ pages.length ∧ s'.freelist = pages.drop (g.missing root va) ∧
        g'.own page = .user root (va / PGSIZE) ∧ Remaps root va (lazyPte page (s.vmas.get vma)) g s g' s') ∨
      (a = none ∧ s.freelist.length ≤ g.missing root va ∧ s'.freelist = s.freelist.take 1 ∧
        ∃ g', Grows g s g' s' ∧ g.SameLeaves g' root) := by
  simp only [lazyalloc, returns_bind, returns_kalloc] at run
  obtain ⟨_, _, taken, run⟩ := run
  rcases taken with ⟨empty, rfl, rfl⟩ | ⟨page, pages, first, rfl, rfl⟩
  · obtain ⟨rfl, rfl⟩ := returns_pure.mp run
    refine .inr ⟨rfl, ?_, ?_, g, .refl tables, fun _ => .rfl⟩
    · rw [empty]
      exact Nat.zero_le _
    · rw [empty, List.take_nil]
  · simp only [returns_bind, returns_modify, returns_get] at run
    obtain ⟨_, _, rfl, _, _, ⟨rfl, rfl⟩, _, t, load, ok, t', mapped, run⟩ := run
    have changed : OnlyPage page (s.takeZeroed page pages) t := loadPage_within _ _ _ load
    have handed : Grows g s (g.assign page (.user root (va / PGSIZE))) t :=
      tables.hand first (by simp) changed
    have list : t.freelist = pages := by
      rw [changed.rest]
      rfl
    have lowPage : pgrounddown va < MAXVA := Nat.lt_of_le_of_lt (Nat.sub_le ..) low
    have aligned : pgrounddown va % PGSIZE = 0 := by
      unfold pgrounddown PGSIZE
      omega
    obtain ⟨g', result⟩ := mappages_page handed.tables known lowPage aligned mapped
    rw [list, missing_assign, missing_pgrounddown] at result
    rcases result with ⟨rfl, enough, left, remaps⟩ | ⟨rfl, few, left, grown, leaves⟩
    · -- mappages has mapped it
      obtain ⟨rfl, rfl⟩ := returns_pure.mp run
      have kept := remaps.mem page (by simp [assign_own]) (by simp [assign_own])
      refine .inl ⟨page, pages, g', rfl, ⟨first, t, load, kept, mappages_within _ _ _ mapped⟩, enough, left, ?_, ?_⟩
      · rw [remaps.own page (by simp [assign_own]), assign_own]
      · have remaps := remaps.of_pgrounddown
        exact ⟨handed.toEvolves.trans remaps.toEvolves, remaps.entry, fun r va' knownR low' other =>
          (remaps.others r va' knownR low' other).trans (handed.entry r va' knownR), remaps.nodes⟩
    · -- there was no memory for the tables, and the page goes back
      simp only [if_neg Bool.false_ne_true, returns_bind, returns_kfree, returns_pure] at run
      obtain ⟨_, _, ⟨⟨above, below⟩, rfl⟩, rfl, rfl⟩ := run
      have mine : g'.own page = .user root (va / PGSIZE) := by
        rw [grown.own page (by simp [assign_own]), assign_own]
      have back := (handed.trans grown).giveBack (by simp [mine]) (by simp [mine])
        ((tables.free page).mp (by simp [first])) above below
      refine .inr ⟨rfl, ?_, ?_, _, back, leaves⟩
      · rw [first, List.length_cons]
        exact few
      · rw [first]
        exact congrArg (page :: ·) left

end Lazyalloc

def Sys.vmaAt (s : Sys) (va : Nat) : Option VmaRef :=
  (s.vmas.refs s.current).toOption.bind fun refs => refs.find? fun r => (s.vmas.get r).Holds va

def Sys.Present (s : Sys) (root : PageNo) (va : Nat) : Prop := Pte.has (s.entry root va) PTE_V = true

instance (s : Sys) (root : PageNo) (va : Nat) : Decidable (s.Present root va) :=
  inferInstanceAs (Decidable (_ = _))

/-- walkaddr refuses an address without a VMA, and a page that is not for the user. -/
structure Sys.Open (s : Sys) (root : PageNo) (va : Nat) : Prop where
  low : va < MAXVA
  vma : (s.vmaAt va).isSome
  user : s.Present root va → Pte.has (s.entry root va) PTE_U = true ∧ pte2pa (s.entry root va) ≠ 0

instance (s : Sys) (root : PageNo) (va : Nat) : Decidable (s.Open root va) :=
  decidable_of_iff (va < MAXVA ∧ (s.vmaAt va).isSome ∧ (s.Present root va →
      Pte.has (s.entry root va) PTE_U = true ∧ pte2pa (s.entry root va) ≠ 0))
    ⟨fun ⟨low, vma, user⟩ => ⟨low, vma, user⟩, fun ⟨low, vma, user⟩ => ⟨low, vma, user⟩⟩

theorem present_congr (entry : s'.entry root va = s.entry root va) : s'.Present root va ↔ s.Present root va := by
  unfold Sys.Present
  rw [entry]

theorem open_congr (vmaAt : s'.vmaAt va = s.vmaAt va)
    (entry : va < MAXVA → s'.entry root va = s.entry root va) : s'.Open root va ↔ s.Open root va := by
  constructor
  · rintro ⟨low, vma, user⟩
    rw [present_congr (entry low), entry low] at user
    exact ⟨low, vmaAt ▸ vma, user⟩
  · rintro ⟨low, vma, user⟩
    rw [← present_congr (entry low), ← entry low] at user
    exact ⟨low, vmaAt.symm ▸ vma, user⟩

theorem returns_findVma {a : Option VmaRef} (run : Returns (findVma va) s a s') : a = s.vmaAt va ∧ s' = s := by
  unfold findVma at run
  rw [returns_get_bind] at run
  unfold Sys.vmaAt
  cases list : s.vmas.refs s.current with
  | error fault =>
    rw [list] at run
    exact absurd run returns_throw
  | ok refs =>
    rw [list] at run
    exact returns_pure.mp run

theorem walkaddr_returns (run : Returns (walkaddr root va) s a s') : (¬s.Open root va ∧ a = none ∧ s' = s) ∨
      (s.Open root va ∧ s.Present root va ∧ a = some (pte2pa (s.entry root va)) ∧ s' = s) ∨
      (s.Open root va ∧ ¬s.Present root va ∧
        ∃ vma, s.vmaAt va = some vma ∧ Returns (lazyalloc root va vma) s a s') := by
  unfold walkaddr at run
  split at run
  · rename_i high
    exact .inl ⟨fun opened => Nat.not_lt.mpr high opened.low, returns_pure.mp run⟩
  · rename_i low
    have low := Nat.lt_of_not_le low
    obtain ⟨vma, t, found, run⟩ := returns_bind.mp run
    obtain ⟨place, same⟩ := returns_findVma found
    rw [place, same] at run
    cases place : s.vmaAt va with
    | none =>
      rw [place] at run
      exact .inl ⟨fun opened => by simpa [place] using opened.vma, returns_pure.mp run⟩
    | some vma =>
      rw [place] at run
      obtain ⟨found, t', walked, run⟩ := returns_bind.mp run
      obtain ⟨-, entry, same⟩ := returns_walk_false.mp walked
      rw [entry, same] at run
      have here : (s.vmaAt va).isSome := by rw [place, Option.isSome_some]
      cases leaf : s.walkDown root (upper va) with
      | none =>
        rw [leaf, Option.map_none] at run
        have absent : ¬s.Present root va := by
          unfold Sys.Present Sys.entry
          rw [leaf, has_zero]
          exact Bool.false_ne_true
        exact .inr (.inr ⟨⟨low, here, fun present => absurd present absent⟩, absent, vma, rfl, run⟩)
      | some table =>
        rw [leaf] at run
        have entry : s.pte table (px 0 va) = s.entry root va := by
          unfold Sys.entry
          rw [leaf]
        rw [Option.map_some] at run
        dsimp only at run
        rw [returns_get_bind, entry] at run
        split at run
        · rename_i invalid
          have absent : ¬s.Present root va := by
            unfold Sys.Present
            rw [invalid]
            exact Bool.false_ne_true
          exact .inr (.inr ⟨⟨low, here, fun present => absurd present absent⟩, absent, vma, rfl, run⟩)
        · rename_i valid
          have present : s.Present root va := by simpa [Sys.Present] using valid
          split at run
          · rename_i kernel
            refine .inl ⟨fun opened => ?_, returns_pure.mp run⟩
            have user := (opened.user present).1
            rw [kernel] at user
            contradiction
          · rename_i user
            obtain ⟨rfl, rfl⟩ := returns_pure.mp run
            unfold nonNull
            split
            · rename_i null
              exact .inl ⟨fun opened => (opened.user present).2 null, rfl, rfl⟩
            · rename_i real
              exact .inr (.inl ⟨⟨low, here, fun _ => ⟨by simpa using user, real⟩⟩, present, rfl, rfl⟩)

end DeisoXv6
