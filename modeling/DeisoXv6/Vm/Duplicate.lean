import DeisoXv6.Vm.Lazy
import DeisoXv6.Vm.UserTable
import DeisoXv6.Vm.WellFormed

/-! uvmcopy_offseted gives a second page table a fresh copy of every page that is mapped in a range of the
first one. -/

set_option autoImplicit false

namespace DeisoXv6

open Function Semantics BitVec Sys

def copyPte (page : PageNo) (pte : Pte) : Pte :=
  pa2pte page ||| ((pteFlags pte).truncate 32).signExtend 64 ||| PTE_V

/-- `new` holds a copy of the pages of `old` in `done`, as they were in `s₀`, and nothing else of the user. -/
structure Duplicate (old new : PageNo) (g₀ : Layout) (s₀ : Sys) (done : Nat → Prop) (g : Layout) (s : Sys) :
    Prop where
  tables : Tables g s
  known : g.tree new [] = some new
  apart : g₀.tree new [] = none
  tree : ∀ r path p, g₀.tree r path = some p → g.tree r path = some p
  own : ∀ p, g₀.own p ≠ .free → g.own p = g₀.own p
  mem : ∀ p, g₀.own p ≠ .free → (∀ r path, g₀.own p ≠ .table r path) → s.mem p = s₀.mem p
  others : ∀ r va, g₀.tree r [] = some r → va < MAXVA → s.entry r va = s₀.entry r va
  copied : ∀ q, q * PGSIZE < RESERVED → done q → s₀.Present old (q * PGSIZE) → ∃ page,
    g₀.own page = .free ∧ page < 2 ^ 20 ∧ g.own page = .user new q ∧
      s.entry new (q * PGSIZE) = copyPte page (s₀.entry old (q * PGSIZE)) ∧
      s.mem page = s₀.mem (pte2pa (s₀.entry old (q * PGSIZE)))
  absent : ∀ q, q * PGSIZE < RESERVED → ¬(done q ∧ s₀.Present old (q * PGSIZE)) → s.entry new (q * PGSIZE) = 0

structure PageCopied (old new : PageNo) (va : Nat) (page : PageNo) (g : Layout) (s : Sys) (g' : Layout) (s' : Sys) :
    Prop extends Evolves g s g' s' where
  free : g.own page = .free
  small : page < 2 ^ 20
  taken : g'.own page = .user new (va / PGSIZE)
  entry : s'.entry new va = copyPte page (s.entry old va)
  others : ∀ r va', g.tree r [] = some r → va' < MAXVA → (r = new → va' / PGSIZE ≠ va / PGSIZE) →
    s'.entry r va' = s.entry r va'
  contents : s'.mem page = s.mem (pte2pa (s.entry old va))

section CopyPte

variable {page : PageNo} {pte : Pte}

theorem flags_as_int : ((pteFlags pte).truncate 32).signExtend 64 = pteFlags pte := by
  refine eq_of_getLsbD_eq fun i inside => ?_
  rw [getLsbD_signExtend, msb_eq_getLsbD_last, getLsbD_setWidth, getLsbD_setWidth,
    getLsbD_pteFlags, getLsbD_pteFlags]
  by_cases low : i < 10
  · simp [low, inside, show i < 32 by omega]
  · simp [low]

theorem getLsbD_copyPte {i : Nat} : (copyPte page pte).getLsbD i =
    ((decide (10 ≤ i ∧ i < 64) && page.testBit (i - 10)) || (decide (i < 10) && pte.getLsbD i) || decide (i = 0)) := by
  unfold copyPte PTE_V
  rw [flags_as_int, getLsbD_or, getLsbD_or, getLsbD_pa2pte, getLsbD_pteFlags, getLsbD_bit (by decide)]

theorem copyPte_valid : Pte.has (copyPte page pte) PTE_V = true := by
  unfold PTE_V
  rw [has_bit (by decide), getLsbD_copyPte]
  simp

theorem copyPte_flags (valid : Pte.has pte PTE_V = true) : pteFlags (copyPte page pte) = pteFlags pte := by
  unfold PTE_V at valid
  rw [has_bit (by decide)] at valid
  refine eq_of_getLsbD_eq fun i inside => ?_
  rw [getLsbD_pteFlags, getLsbD_pteFlags, getLsbD_copyPte]
  by_cases low : i < 10
  · by_cases zero : i = 0
    · simp [zero, valid]
    · simp [low, zero, show ¬10 ≤ i by omega]
  · simp [low]

theorem copyPte_page (small : page < 2 ^ 20) : pte2pa (copyPte page pte) = page := by
  refine Nat.eq_of_testBit_eq fun k => ?_
  rw [testBit_pte2pa, getLsbD_copyPte]
  by_cases inside : k < 52
  · simp [inside, show 10 + k < 64 by omega]
  · simp [inside, testBit_ram small (show 20 ≤ k by omega)]

end CopyPte

section Duplicate

variable {old new page : PageNo} {pages : List PageNo} {g₀ g g' : Layout} {s₀ s s' : Sys} {done : Nat → Prop}
  {q va : Nat}

def Sys.takeCopy (s : Sys) (page source : PageNo) (pages : List PageNo) : Sys :=
  ({ s with freelist := pages }.fill page 5).copyPage page source

theorem takeCopy_mem {source p : PageNo} (other : p ≠ page) : (s.takeCopy page source pages).mem p = s.mem p := by
  unfold takeCopy copyPage
  dsimp only
  rw [update_of_ne other, mem_fill, update_of_ne other]

theorem takeCopy_page {source : PageNo} (other : source ≠ page) :
    (s.takeCopy page source pages).mem page = s.mem source := by
  unfold takeCopy copyPage
  dsimp only
  rw [update_self, mem_fill, update_of_ne other]

theorem takeCopy_grows {source : PageNo} {owner : Owner} (tables : Tables g s) (first : s.freelist = page :: pages)
    (taken : owner ≠ .free) : Grows g s (g.assign page owner) (s.takeCopy page source pages) := by
  have free : g.own page = .free := (tables.free page).mp (by simp [first])
  have other : ∀ p, g.own p ≠ .free → p ≠ page := by
    rintro p used rfl
    exact used free
  have tables' : Tables (g.assign page owner) (s.takeCopy page source pages) :=
    tables.take first rfl rfl (fun _ => takeCopy_mem) taken
  refine ⟨⟨tables', fun _ _ _ node => node, fun p used => update_of_ne (other p used) ..,
    fun p used _ => takeCopy_mem (other p used), rfl⟩, fun r va known => ?_⟩
  exact tables.entry_same tables' rfl known fun path p node => takeCopy_mem (other p (tables.not_free node))

theorem mapped_copied (tables : Tables g s) (knownNew : g.tree new [] = some new) (low : va < MAXVA)
    (aligned : va % PGSIZE = 0) (first : s.freelist = page :: pages) (used : g.own (pte2pa (s.entry old va)) ≠ .free)
    (mapped : Returns (mappages new va PGSIZE page ((pteFlags (s.entry old va)).truncate 32))
      (s.takeCopy page (pte2pa (s.entry old va)) pages) true s') : ∃ g', PageCopied old new va page g s g' s' := by
  have free : g.own page = .free := (tables.free page).mp (by simp [first])
  have apart : pte2pa (s.entry old va) ≠ page := by
    intro same
    rw [same] at used
    exact used free
  have grown : Grows g s (g.assign page (.user new (va / PGSIZE))) (s.takeCopy page (pte2pa (s.entry old va)) pages) :=
    takeCopy_grows tables first (fun wrong => nomatch wrong)
  obtain ⟨g', ⟨-, -, -, remaps⟩ | ⟨wrong, -⟩⟩ := mappages_page grown.tables knownNew low aligned mapped
  · have owner : (g.assign page (.user new (va / PGSIZE))).own page = .user new (va / PGSIZE) := assign_own
    have busy : (g.assign page (.user new (va / PGSIZE))).own page ≠ .free := by simp [owner]
    refine ⟨g', grown.toEvolves.trans remaps.toEvolves, free, page_lt_of_ram (tables.ram page (by simp [first])).2,
      (remaps.own page busy).trans owner, remaps.entry, fun r va' known low' other => ?_, ?_⟩
    · rw [remaps.others r va' known low' other, grown.entry r va' known]
    · rw [remaps.mem page busy (by simp [owner]), takeCopy_page apart]
  · contradiction

theorem uvmcopyPage_copied (tables : Tables g s) (knownOld : g.tree old [] = some old)
    (knownNew : g.tree new [] = some new) (low : va < MAXVA) (aligned : va % PGSIZE = 0)
    (used : s.Present old va → g.own (pte2pa (s.entry old va)) ≠ .free)
    (run : Returns (uvmcopyPage old new va) s true s') :
    (¬s.Present old va ∧ s' = s) ∨ (s.Present old va ∧ ∃ page g', PageCopied old new va page g s g' s') := by
  unfold uvmcopyPage at run
  obtain ⟨found, s₁, walked, rest⟩ := returns_bind.mp run
  obtain ⟨-, rfl, rfl⟩ := returns_walk_false.mp walked
  rw [tables.walkDown_upper knownOld] at rest
  have entry := @Tables.entry_eq g s₁ old va tables knownOld
  cases leaf : g.tree old (upper va) with
  | none =>
    rw [leaf] at rest entry
    obtain ⟨-, rfl⟩ := returns_pure.mp rest
    refine .inl ⟨fun present => ?_, rfl⟩
    rw [Present, entry, has_zero] at present
    contradiction
  | some table =>
    rw [leaf] at rest entry
    dsimp only [Option.map_some] at rest entry
    rw [returns_get_bind, ← entry] at rest
    by_cases present : s₁.Present old va
    · rw [if_neg (by rw [Present] at present; simp [present])] at rest
      obtain ⟨taken, s₂, alloc, rest⟩ := returns_bind.mp rest
      rcases returns_kalloc.mp alloc with ⟨-, rfl, -⟩ | ⟨page, pages, first, rfl, rfl⟩
      · exact absurd (returns_pure.mp rest).1 (by simp)
      · dsimp only at rest
        rw [returns_modify_bind] at rest
        obtain ⟨ok, s₃, mapped, rest⟩ := returns_bind.mp rest
        cases ok with
        | false =>
          rw [if_neg (by simp)] at rest
          obtain ⟨_, _, _, wrong⟩ := returns_bind.mp rest
          exact absurd (returns_pure.mp wrong).1 (by simp)
        | true =>
          rw [if_pos rfl] at rest
          obtain ⟨-, rfl⟩ := returns_pure.mp rest
          exact .inr ⟨present, page, mapped_copied tables knownNew low aligned first (used present) mapped⟩
    · rw [if_pos (by rw [Present] at present; simpa using present)] at rest
      obtain ⟨-, rfl⟩ := returns_pure.mp rest
      exact .inl ⟨present, rfl⟩

namespace Duplicate

theorem congr {done' : Nat → Prop} (dup : Duplicate old new g₀ s₀ done g s) (same : ∀ x, done x ↔ done' x) :
    Duplicate old new g₀ s₀ done' g s := by
  obtain rfl : done = done' := funext fun x => propext (same x)
  exact dup

theorem frame (dup : Duplicate old new g₀ s₀ done g s) (mem : s'.mem = s.mem) (list : s'.freelist = s.freelist)
    (kernel : s'.kernelEnd = s.kernelEnd) : Duplicate old new g₀ s₀ done g s' := by
  have tables : Tables g s' := dup.tables.frame (fun _ _ p _ => congrFun mem p) list kernel
  have entry : ∀ r va, g.tree r [] = some r → s'.entry r va = s.entry r va := fun r va known =>
    dup.tables.entry_same tables rfl known fun _ p _ => congrFun mem p
  refine ⟨tables, dup.known, dup.apart, dup.tree, dup.own, fun p used outside => ?_, fun r va known low => ?_,
    fun q low here present => ?_, fun q low none => ?_⟩
  · rw [mem]
    exact dup.mem p used outside
  · rw [entry r va (dup.tree r [] r known)]
    exact dup.others r va known low
  · rw [entry new _ dup.known, mem]
    exact dup.copied q low here present
  · rw [entry new _ dup.known]
    exact dup.absent q low none

variable (known : g₀.tree old [] = some old) (user : ∀ q, q * PGSIZE < RESERVED → s₀.Present old (q * PGSIZE) →
    g₀.own (pte2pa (s₀.entry old (q * PGSIZE))) = .user old q)

include known user

section

variable (dup : Duplicate old new g₀ s₀ done g s)

include dup

theorem step (low : q * PGSIZE < RESERVED) (run : Returns (uvmcopyPage old new (q * PGSIZE)) s true s') :
    ∃ g', Duplicate old new g₀ s₀ (fun x => done x ∨ x = q) g' s' := by
  have below : q * PGSIZE < MAXVA := low.trans_le (by decide)
  have source : s.entry old (q * PGSIZE) = s₀.entry old (q * PGSIZE) := dup.others old _ known below
  have same : s.Present old (q * PGSIZE) ↔ s₀.Present old (q * PGSIZE) := by rw [Present, source, Present]
  have owner : s₀.Present old (q * PGSIZE) → g.own (pte2pa (s₀.entry old (q * PGSIZE))) = .user old q := by
    intro present
    rw [dup.own _ (by simp [user q low present]), user q low present]
  have used : s.Present old (q * PGSIZE) → g.own (pte2pa (s.entry old (q * PGSIZE))) ≠ .free := by
    intro present
    simp [source, owner (same.mp present)]
  rcases uvmcopyPage_copied dup.tables (dup.tree old [] old known) dup.known below (by simp) used run with
    ⟨absent, rfl⟩ | ⟨present, page, g', step⟩
  · refine ⟨g, { dup with copied := fun x low' here present => ?_, absent := fun x low' none => ?_ }⟩
    · rcases here with before | rfl
      · exact dup.copied x low' before present
      · exact absurd (same.mpr present) absent
    · exact dup.absent x low' fun both => none ⟨.inl both.1, both.2⟩
  · have number : q * PGSIZE / PGSIZE = q := Nat.mul_div_cancel _ (by decide)
    have elsewhere : ∀ x, x ≠ q → x * PGSIZE / PGSIZE ≠ q * PGSIZE / PGSIZE := by
      intro x other
      rw [number, Nat.mul_div_cancel _ (by decide)]
      exact other
    have fresh : g₀.own page = .free := by
      by_contra busy
      exact busy ((dup.own page busy).symm.trans step.free)
    refine ⟨g', step.tables, step.tree _ _ _ dup.known, dup.apart, fun r path p node => step.tree _ _ _ (dup.tree _ _ _ node),
      fun p busy => ?_, fun p busy outside => ?_, fun r va knownR low' => ?_, fun x low' here present' => ?_,
      fun x low' none => ?_⟩
    · have mine := dup.own p busy
      rw [step.own p (by rw [mine]; exact busy), mine]
    · have mine := dup.own p busy
      rw [step.mem p (by rw [mine]; exact busy) (by rw [mine]; exact outside), dup.mem p busy outside]
    · rw [step.others r va (dup.tree _ _ _ knownR) low' ?_, dup.others r va knownR low']
      rintro rfl
      rw [dup.apart] at knownR
      contradiction
    · by_cases here' : x = q
      · subst here'
        refine ⟨page, fresh, step.small, number ▸ step.taken, ?_, ?_⟩
        · rw [step.entry, source]
        · rw [step.contents, source]
          exact dup.mem _ (by simp [user x low' present']) (by simp [user x low' present'])
      · obtain ⟨page', free', small', owner', entry', contents'⟩ :=
          dup.copied x low' (here.resolve_right here') present'
        refine ⟨page', free', small', ?_, ?_, ?_⟩
        · rw [step.own page' (by simp [owner']), owner']
        · rw [step.others new _ dup.known (low'.trans_le (by decide)) fun _ => elsewhere x here', entry']
        · rw [step.mem page' (by simp [owner']) (by simp [owner']), contents']
    · have other : x ≠ q := by
        rintro rfl
        exact none ⟨.inr rfl, same.mp present⟩
      rw [step.others new _ dup.known (low'.trans_le (by decide)) fun _ => elsewhere x other]
      exact dup.absent x low' fun both => none ⟨.inl both.1, both.2⟩

theorem loop {start stop fuel : Nat} (low : stop ≤ RESERVED)
    (run : Returns (uvmcopyLoop old new start stop fuel (q * PGSIZE)) s true s') :
    ∃ g', Duplicate old new g₀ s₀ (fun x => done x ∨ (q ≤ x ∧ x * PGSIZE < stop)) g' s' := by
  induction fuel generalizing q s g done with
  | zero => exact absurd run returns_throw
  | succ fuel ih =>
    unfold uvmcopyLoop at run
    by_cases more : q * PGSIZE < stop
    · rw [if_pos more] at run
      obtain ⟨ok, s₁, first, rest⟩ := returns_bind.mp run
      cases ok with
      | false =>
        rw [if_neg (by simp)] at rest
        obtain ⟨_, _, _, wrong⟩ := returns_bind.mp rest
        exact absurd (returns_pure.mp wrong).1 (by simp)
      | true =>
        have below : q * PGSIZE < RESERVED := more.trans_le low
        have next : u64 (q * PGSIZE + PGSIZE) = (q + 1) * PGSIZE := by
          unfold RESERVED MAXVA at below
          unfold u64 PGSIZE at *
          omega
        rw [if_pos rfl, next] at rest
        obtain ⟨g₁, dup₁⟩ := dup.step known user below first
        obtain ⟨g', dup'⟩ := ih dup₁ rest
        refine ⟨g', dup'.congr fun x => ?_⟩
        constructor
        · rintro ((before | rfl) | ⟨later, inside⟩)
          · exact .inl before
          · exact .inr ⟨le_rfl, more⟩
          · exact .inr ⟨Nat.le_of_succ_le later, inside⟩
        · rintro (before | ⟨later, inside⟩)
          · exact .inl (.inl before)
          · rcases Nat.eq_or_lt_of_le later with rfl | beyond
            · exact .inl (.inr rfl)
            · exact .inr ⟨beyond, inside⟩
    · rw [if_neg more] at run
      obtain ⟨-, rfl⟩ := returns_pure.mp run
      refine ⟨g, dup.congr fun x => (or_iff_left ?_).symm⟩
      rintro ⟨later, inside⟩
      have : q * PGSIZE ≤ x * PGSIZE := Nat.mul_le_mul_right _ later
      omega

theorem range {v : Vma} (placed : v.region.Placed)
    (low : v.start + v.length ≤ RESERVED) (run : Returns (uvmcopyOffseted old new v.start v.length) s true s') :
    ∃ g', Duplicate old new g₀ s₀
      (fun x => done x ∨ (v.start / PGSIZE ≤ x ∧ x * PGSIZE < v.start + v.length)) g' s' := by
  have first : pgrounddown v.start = v.start / PGSIZE * PGSIZE := by
    unfold pgrounddown PGSIZE
    omega
  have stop : u64 (v.length + v.start) = v.start + v.length := by
    rw [Nat.add_comm]
    exact Nat.mod_eq_of_lt placed.inside
  unfold uvmcopyOffseted at run
  rw [first, stop] at run
  exact dup.loop known user low run

end

end Duplicate

end Duplicate

end DeisoXv6
