import DeisoXv6.Vm.Freewalk

/-! The page table that proc_pagetable makes: the trampoline and the trapframe and nothing else, or no
page is missing from the free list. -/

set_option autoImplicit false

namespace DeisoXv6

open Function Semantics

/-- A page table is named by the page of its root, and the pages that are tables are nodes. -/
structure Layout.Sound (g : Layout) : Prop where
  rooted : ∀ r path p, g.tree r path = some p → g.tree r [] = some r
  node : ∀ p r path, g.own p = .table r path → g.tree r path = some p

/-- The layout with a new page table that consists of its root. -/
def Layout.plant (g : Layout) (page : PageNo) : Layout where
  own := update g.own page (.table page [])
  tree := fun r path => if r = page then if path = [] then some page else none else g.tree r path

section Plant

variable {g g' : Layout} {s s' : Sys} {root page trapframe : PageNo} {path : List Nat} {pages : List PageNo} {va : Nat}

theorem Layout.Sound.no_tree (sound : g.Sound) (tables : Tables g s) (free : g.own page = .free) :
    g.tree page path = none := by
  cases node : g.tree page path with
  | none => rfl
  | some p => exact absurd free (tables.not_free (sound.rooted page path p node))

theorem plant_tree_other (other : root ≠ page) : (g.plant page).tree root path = g.tree root path := if_neg other

theorem plant_root : (g.plant page).tree page [] = some page := (if_pos rfl).trans (if_pos rfl)

theorem plant_below (deeper : path ≠ []) : (g.plant page).tree page path = none :=
  (if_pos rfl).trans (if_neg deeper)

theorem takeZeroed_pte {i : Nat} : (s.takeZeroed page pages).pte page i = 0 := pte_fill_zero

theorem grows_plant (tables : Tables g s) (sound : g.Sound) (first : s.freelist = page :: pages) :
    Grows g s (g.plant page) (s.takeZeroed page pages) := by
  have free : g.own page = .free := (tables.free page).mp (by simp [first])
  have absent : ∀ path, g.tree page path = none := fun path => sound.no_tree tables free
  have other : ∀ {r path p}, g.tree r path = some p → r ≠ page ∧ p ≠ page := by
    intro r path p node
    refine ⟨?_, ?_⟩
    · rintro rfl
      rw [absent] at node
      contradiction
    · rintro rfl
      exact tables.not_free node free
  have taken : Tables { g with own := update g.own page (.table page []) } (s.takeZeroed page pages) :=
    tables.take first rfl rfl (fun p apart => takeZeroed_mem apart) (fun wrong => nomatch wrong)
  have planted : Tables (g.plant page) (s.takeZeroed page pages) := by
    refine ⟨taken.nodup, taken.free, taken.ram, taken.kernel, fun r path p node => ?_, fun r path p node => ?_,
      fun r path i gone => ?_, fun r path p i node short inside => ?_⟩
    · by_cases here : r = page
      · subst here
        by_cases top : path = []
        · subst top
          cases plant_root.symm.trans node
          exact update_self ..
        · rw [plant_below top] at node
          contradiction
      · rw [plant_tree_other here] at node
        exact taken.table r path p node
    · by_cases here : r = page
      · subst here
        by_cases top : path = []
        · subst top
          cases plant_root.symm.trans node
          exact Nat.lt_trans (page_lt_of_ram (tables.ram r (by simp [first])).2) (by decide)
        · rw [plant_below top] at node
          contradiction
      · rw [plant_tree_other here] at node
        exact tables.small r path p node
    · by_cases here : r = page
      · subst here
        exact plant_below (by simp)
      · rw [plant_tree_other here] at gone ⊢
        exact tables.parent r path i gone
    · by_cases here : r = page
      · subst here
        by_cases top : path = []
        · subst top
          cases plant_root.symm.trans node
          rw [plant_below (by simp), Points, takeZeroed_pte, has_zero]
        · rw [plant_below top] at node
          contradiction
      · rw [plant_tree_other here] at node ⊢
        exact points_congr (takeZeroed_mem (other node).2) (tables.points r path p i node short inside)
  refine ⟨⟨planted, fun r path p node => ?_, fun p used => ?_, fun p used _ => takeZeroed_mem ?_, rfl⟩, ?_⟩
  · rw [plant_tree_other (other node).1, node]
  · refine update_of_ne ?_ ..
    rintro rfl
    exact used free
  · rintro rfl
    exact used free
  · intro r va known
    rw [planted.entry_eq (by rw [plant_tree_other (other known).1, known]), tables.entry_eq known,
      plant_tree_other (other known).1]
    cases leaf : g.tree r (upper va) with
    | none => rfl
    | some table => exact pte_congr (takeZeroed_mem (other leaf).2)

theorem takes_plant : g.Takes (g.plant page) page := by
  intro p free
  by_cases here : p = page
  · subst here
    exact .inr ⟨[], plant_root⟩
  · exact .inl ((update_of_ne here ..).trans free)

theorem returns_uvmcreate {a : Option PageNo} : Returns uvmcreate s a s' ↔
    (s.freelist = [] ∧ a = none ∧ s' = s) ∨ ∃ page pages, s.freelist = page :: pages ∧ a = some page ∧
      s' = s.takeZeroed page pages := by
  unfold uvmcreate
  rw [returns_bind]
  constructor
  · rintro ⟨_, _, taken, run⟩
    rcases returns_kalloc.mp taken with ⟨empty, rfl, rfl⟩ | ⟨page, pages, first, rfl, rfl⟩
    · obtain ⟨rfl, rfl⟩ := returns_pure.mp run
      exact .inl ⟨empty, rfl, rfl⟩
    · rw [returns_modify_bind, returns_pure] at run
      obtain ⟨rfl, rfl⟩ := run
      exact .inr ⟨page, pages, first, rfl, rfl⟩
  · rintro (⟨empty, rfl, rfl⟩ | ⟨page, pages, first, rfl, rfl⟩)
    · exact ⟨none, s', returns_kalloc.mpr (.inl ⟨empty, rfl, rfl⟩), returns_pure.mpr ⟨rfl, rfl⟩⟩
    · refine ⟨_, _, returns_kalloc.mpr (.inr ⟨page, pages, first, rfl, rfl⟩), ?_⟩
      rw [returns_modify_bind, returns_pure]
      exact ⟨rfl, rfl⟩

theorem upper_trapframe : upper TRAPFRAME = upper TRAMPOLINE := by decide

theorem missing_plant : (g.plant page).missing page TRAMPOLINE = 2 := by
  rw [Layout.missing, upper, Layout.missingFrom, plant_below (by simp), Layout.missingFrom, plant_below (by simp),
    Layout.missingFrom]
  rfl

theorem new_nodes {s₁ : Sys} (tables : Tables g s) (sound : g.Sound) (evolves : Evolves g s g' s₁)
    (fresh : g.own root = .free) : ∀ p ∈ g'.nodes root 2 [], g.own p = .free ∧ s.InRam p := by
  intro p member
  have free : g.own p = .free := by
    obtain ⟨rest, -, -, node⟩ := mem_nodes.mp member
    by_contra used
    have same := evolves.own p used
    rw [evolves.tables.table _ _ _ node] at same
    have wrong := sound.node p root _ same.symm
    rw [sound.no_tree tables fresh] at wrong
    contradiction
  exact ⟨free, tables.ram p ((tables.free p).mpr free)⟩

theorem freewalk_restores {s₁ : Sys} (tables : Tables g s) (sound : g.Sound) (grown : Grows g s g' s₁)
    (known : g'.tree root [] = some root) (fresh : g.own root = .free) (takes : g.Takes g' root)
    (short : ∀ path, (g'.tree root path).isSome → path.length < 2 ∧ ∀ i ∈ path, i < 512) :
    ∃ s', Returns (freewalk root) s₁ () s' ∧ MemOnly s₁ s' ∧ ∀ p, p ∈ s'.freelist ↔ p ∈ s.freelist := by
  have new := new_nodes tables sound grown.toEvolves fresh
  have ram : ∀ p ∈ g'.nodes root 2 [], s₁.InRam p := by
    intro p member
    unfold Sys.InRam
    rw [grown.rest]
    exact (new p member).2
  have leafless : Leafless g' s₁ root := by
    intro path table i node long _
    have := (short path (by rw [node]; rfl)).1
    omega
  obtain ⟨s', run, frees⟩ := freewalk_frees grown.tables known leafless ram
  refine ⟨s', run, frees.rest, fun p => ?_⟩
  rw [frees.list.mem_iff, List.mem_append, grown.tables.free, tables.free]
  constructor
  · rintro (node | still)
    · exact (new p node).1
    · by_contra used
      rw [grown.own p used] at still
      exact used still
  · intro free
    rcases takes p free with still | ⟨path, node⟩
    · exact .inr still
    · obtain ⟨long, inside⟩ := short path (by rw [node]; rfl)
      exact .inl (mem_nodes.mpr ⟨path, by omega, inside, node⟩)

theorem Remaps.missing {pte : Pte} (remaps : Remaps root va pte g s g' s') : g'.missing root va = 0 := by
  have here : ∀ path, path <+: upper va → (g'.tree root path).isSome := fun path way =>
    (remaps.nodes root path).mpr (.inr ⟨rfl, way⟩)
  rw [Layout.missing, upper, Layout.missingFrom, if_pos (here _ (by simp [upper])), Layout.missingFrom,
    if_pos (here _ (by simp [upper])), Layout.missingFrom]

def Layout.Reached (g : Layout) (root : PageNo) : Prop :=
  ∀ path, (g.tree root path).isSome → ∃ va, va < MAXVA ∧ path <+: upper va

theorem reached_plant : (g.plant root).Reached root := by
  intro path node
  by_cases top : path = []
  · subst top
    exact ⟨0, by decide, List.nil_prefix⟩
  · rw [plant_below top] at node
    contradiction

theorem Layout.Adds.reached (adds : g.Adds g' root (upper va)) (low : va < MAXVA) (reached : g.Reached root) :
    g'.Reached root := by
  intro path node
  rcases adds root path node with old | ⟨-, way⟩
  · exact reached path old
  · exact ⟨va, low, way⟩

structure NewTable (g : Layout) (s : Sys) (page root : PageNo) (g' : Layout) (s' : Sys) : Prop extends
    Evolves g s g' s' where
  known : g'.tree root [] = some root
  fresh : g.own root = .free
  others : ∀ r va, g.tree r [] = some r → va < MAXVA → s'.entry r va = s.entry r va
  trampoline : s'.entry root TRAMPOLINE = pa2pte s.trampoline ||| PERM_TRAMPOLINE.signExtend 64 ||| PTE_V
  trapframe : s'.entry root TRAPFRAME = pa2pte page ||| PERM_TRAPFRAME.signExtend 64 ||| PTE_V
  empty : ∀ va, va < TRAPFRAME → s'.entry root va = 0
  takes : g.Takes g' root
  reached : g'.Reached root
  ram : ∀ p ∈ g'.nodes root 2 [], s.InRam p
  enough : 3 ≤ s.freelist.length
  left : s'.freelist = s.freelist.drop 3

theorem newTable_planted {s₂ : Sys} {g₂ : Layout} (tables : Tables g s) (sound : g.Sound)
    (first : s.freelist = root :: pages)
    (enough : 2 ≤ pages.length) (left : s₂.freelist = pages.drop 2) (takes₁ : (g.plant root).Takes g₂ root)
    (takes₂ : g₂.Takes g' root)
    (upperHalf : Remaps root TRAMPOLINE (pa2pte s.trampoline ||| PERM_TRAMPOLINE.signExtend 64 ||| PTE_V)
      (g.plant root) (s.takeZeroed root pages) g₂ s₂)
    (lowerHalf : Remaps root TRAPFRAME (pa2pte trapframe ||| PERM_TRAPFRAME.signExtend 64 ||| PTE_V) g₂ s₂ g' s')
    (same : s'.freelist = s₂.freelist) (reached : g'.Reached root) : NewTable g s trapframe root g' s' := by
  have planted := grows_plant tables sound first
  have known₂ := upperHalf.tree root [] root plant_root
  have free : g.own root = .free := (tables.free root).mp (by simp [first])
  have evolves := (planted.toEvolves.trans upperHalf.toEvolves).trans lowerHalf.toEvolves
  refine ⟨evolves, lowerHalf.tree root [] root known₂, free, fun r va knownR low => ?_, ?_, lowerHalf.entry, fun va low => ?_,
    (takes_plant.trans takes₁ upperHalf.tree).trans takes₂ lowerHalf.tree, reached,
    fun p member => (new_nodes tables sound evolves free p member).2, by simp [first]; omega, ?_⟩
  · have other : r ≠ root := by
      rintro rfl
      exact tables.not_free knownR free
    have known₁ := planted.tree r [] r knownR
    rw [lowerHalf.others r va (upperHalf.tree r [] r known₁) low (fun here => absurd here other),
      upperHalf.others r va known₁ low (fun here => absurd here other), planted.entry r va knownR]
  · rw [lowerHalf.others root TRAMPOLINE known₂ (by decide) (fun _ => by decide), upperHalf.entry]
  · have inside : va < MAXVA := Nat.lt_trans low (by decide)
    have notTrapframe : va / PGSIZE ≠ TRAPFRAME / PGSIZE := by
      simp only [TRAPFRAME, TRAMPOLINE, MAXVA, PGSIZE] at low ⊢
      omega
    have notTrampoline : va / PGSIZE ≠ TRAMPOLINE / PGSIZE := by
      simp only [TRAPFRAME, TRAMPOLINE, MAXVA, PGSIZE] at low ⊢
      omega
    rw [lowerHalf.others root va known₂ inside (fun _ => notTrapframe),
      upperHalf.others root va plant_root inside (fun _ => notTrampoline),
      planted.tables.entry_eq plant_root, plant_below (by simp [upper])]
  · rw [same, left, first]
    rfl

theorem procPagetable_spec {a : Option PageNo} (tables : Tables g s) (sound : g.Sound)
    (run : Returns (procPagetable trapframe) s a s') :
    (∃ root g', a = some root ∧ NewTable g s trapframe root g' s') ∨
      (a = none ∧ s.freelist.length < 3 ∧ MemOnly s s' ∧ ∀ p, p ∈ s'.freelist ↔ p ∈ s.freelist) := by
  unfold procPagetable at run
  obtain ⟨created, s₁, taken, rest⟩ := returns_bind.mp run
  rcases returns_uvmcreate.mp taken with ⟨empty, rfl, rfl⟩ | ⟨root, pages, first, rfl, rfl⟩
  · obtain ⟨rfl, rfl⟩ := returns_pure.mp rest
    exact .inr ⟨rfl, by simp [empty], rfl, fun _ => Iff.rfl⟩
  · have planted := grows_plant tables sound first
    have free : g.own root = .free := (tables.free root).mp (by simp [first])
    dsimp only at rest
    rw [returns_get_bind] at rest
    obtain ⟨ok, s₂, mapped, rest⟩ := returns_bind.mp rest
    obtain ⟨g₂, takes, adds, result⟩ := mappages_takes planted.tables plant_root (by decide) (by decide) mapped
    rw [missing_plant] at result
    rcases result with ⟨rfl, enough, left, upperHalf⟩ | ⟨rfl, few, -, grown, leaves⟩
    · rw [if_pos rfl] at rest
      obtain ⟨ok, s₃, mapped', rest⟩ := returns_bind.mp rest
      obtain ⟨g₃, takes', adds', result⟩ := mappages_takes upperHalf.tables (upperHalf.tree root [] root plant_root)
        (by decide) (by decide) mapped'
      have none : g₂.missing root TRAPFRAME = 0 := by
        rw [Layout.missing, upper_trapframe]
        exact upperHalf.missing
      rw [none] at result
      rcases result with ⟨rfl, -, same, lowerHalf⟩ | ⟨-, few, -⟩
      · rw [if_pos rfl] at rest
        obtain ⟨rfl, rfl⟩ := returns_pure.mp rest
        exact .inl ⟨root, g₃, rfl, newTable_planted tables sound first enough left takes takes' upperHalf lowerHalf same
          (adds'.reached (by decide) (adds.reached (by decide) reached_plant))⟩
      · omega
    · have known := grown.tree root [] root plant_root
      have short : ∀ path, (g₂.tree root path).isSome → path.length < 2 ∧ ∀ i ∈ path, i < 512 := by
        intro path node
        by_cases top : path = []
        · subst top
          exact ⟨by simp, by simp⟩
        · rcases adds root path node with old | ⟨-, way⟩
          · rw [plant_below top] at old
            contradiction
          · refine ⟨?_, fun i member => upper_lt i (way.subset member)⟩
            have notWhole : path.length ≠ 2 := by
              intro whole
              rw [way.eq_of_length whole, leaves, plant_below (by simp [upper])] at node
              contradiction
            have atMost : path.length ≤ 2 := way.length_le
            omega
      have few : pages.length < 2 := few
      have before : MemOnly (s.takeZeroed root pages) s₂ := mappages_within _ _ _ mapped
      rw [if_neg (by simp), uvmfree, onlyIf, if_neg (by simp)] at rest
      obtain ⟨_, s₃, freed, rest⟩ := returns_bind.mp rest
      obtain ⟨rfl, rfl⟩ := returns_pure.mp rest
      obtain ⟨s₄, freed', only, list⟩ := freewalk_restores tables sound (planted.trans grown) known free
        (takes_plant.trans takes grown.tree) short
      obtain ⟨_, _, skip, freed⟩ := returns_bind.mp freed
      obtain ⟨-, rfl⟩ := returns_pure.mp skip
      obtain ⟨-, rfl⟩ := freed.unique freed'
      refine .inr ⟨rfl, by simp [first]; omega, ?_, list⟩
      have start : MemOnly s (s.takeZeroed root pages) := rfl
      exact IsTrans.trans _ _ _ start (IsTrans.trans _ _ _ before only)

end Plant

section FreeTable

variable {g : Layout} {s : Sys} {root : PageNo} {path : List Nat} {va i : Nat}

theorem entry_address (low : va < MAXVA) (inside : i < 512) :
    ∃ va', va' < MAXVA ∧ upper va' = upper va ∧ px 0 va' = i := by
  refine ⟨va / 2 ^ 21 * 2 ^ 21 + i * 2 ^ 12, ?_, ?_, ?_⟩
  · unfold MAXVA at *
    omega
  · simp only [upper, px]
    congr 1
    · omega
    · congr 1
      omega
  · simp only [px]
    omega

theorem Tables.leafless (tables : Tables g s) (known : g.tree root [] = some root) (reached : g.Reached root)
    (none : ∀ va, va < MAXVA → Pte.has (s.entry root va) PTE_V = false) : Leafless g s root := by
  intro path table i node long inside
  obtain ⟨va, low, way⟩ := reached path (by rw [node]; rfl)
  obtain ⟨va', low', same, index⟩ := entry_address low inside
  have clear := none va' low'
  rw [tables.entry_eq known, same, ← way.eq_of_length long, node, index] at clear
  exact clear

theorem uvmunmap_keeps (tables : Tables g s) (known : g.tree root [] = some root) (low : va < MAXVA)
    (aligned : va % PGSIZE = 0) (valid : Pte.has (s.entry root va) PTE_V = true)
    (leaf : pteFlags (s.entry root va) ≠ PTE_V) :
    ∃ s', Returns (uvmunmap root va 1 false) s () s' ∧ MemOnly s s' ∧ s'.freelist = s.freelist ∧
      Remaps root va 0 g s g s' := by
  cases node : g.tree root (upper va) with
  | none =>
    rw [tables.entry_eq known, node, has_zero] at valid
    contradiction
  | some table =>
    have down : s.walkDown root (upper va) = some table := by rw [tables.walkDown_upper known, node]
    have entry : s.pte table (px 0 va) = s.entry root va := by rw [tables.entry_eq known, node]
    have once : (u64 (va + 1 * PGSIZE) - va) / PGSIZE = 1 := by
      unfold u64
      unfold MAXVA at low
      unfold PGSIZE at *
      omega
    refine ⟨s.setPte table (px 0 va) 0, ?_, rfl, rfl, (Grows.refl tables).setLeaf (fun _ _ => .inl) known low node⟩
    unfold uvmunmap
    rw [returns_failIf_bind, once]
    refine ⟨by simp [aligned], ?_⟩
    unfold uvmunmapLoop
    rw [returns_bind]
    refine ⟨_, s, returns_walk_false.mpr ⟨low, rfl, rfl⟩, ?_⟩
    rw [down, Option.map_some]
    dsimp only
    rw [returns_get_bind, entry, if_neg (by rw [valid]; simp), returns_failIf_bind]
    refine ⟨leaf, ?_⟩
    unfold onlyIf
    rw [if_neg (by simp), returns_bind]
    exact ⟨(), s, returns_pure.mpr ⟨rfl, rfl⟩, returns_modify_bind.mpr (returns_pure.mpr ⟨rfl, rfl⟩)⟩

theorem readable_leaf {page : PageNo} {perm : BitVec 32} (readable : (perm.signExtend 64).getLsbD 1 = true) :
    Pte.has (pa2pte page ||| perm.signExtend 64 ||| PTE_V) PTE_V = true ∧
      pteFlags (pa2pte page ||| perm.signExtend 64 ||| PTE_V) ≠ PTE_V := by
  constructor
  · unfold PTE_V
    rw [has_bit (by decide), BitVec.getLsbD_or, getLsbD_bit (by decide)]
    simp
  · intro same
    have bit := congrArg (·.getLsbD 1) same
    unfold PTE_V at bit
    simp only [getLsbD_pteFlags, BitVec.getLsbD_or, readable, getLsbD_bit (show 0 < 64 by decide)] at bit
    simp at bit

/-- A page table that maps the trampoline and the trapframe and no page of the user. -/
structure Uninhabited (s : Sys) (root : PageNo) : Prop where
  trampoline : ∃ page, s.entry root TRAMPOLINE = pa2pte page ||| PERM_TRAMPOLINE.signExtend 64 ||| PTE_V
  trapframe : ∃ page, s.entry root TRAPFRAME = pa2pte page ||| PERM_TRAPFRAME.signExtend 64 ||| PTE_V
  empty : ∀ va, va < TRAPFRAME → Pte.has (s.entry root va) PTE_V = false

theorem Uninhabited.congr {s' : Sys} (bare : Uninhabited s root) (same : ∀ va, s'.entry root va = s.entry root va) :
    Uninhabited s' root := by
  refine ⟨?_, ?_, fun va low => ?_⟩
  · rw [same]
    exact bare.trampoline
  · rw [same]
    exact bare.trapframe
  · rw [same]
    exact bare.empty va low

theorem procFreepagetable_frees (tables : Tables g s) (known : g.tree root [] = some root)
    (reached : g.Reached root) (bare : Uninhabited s root) (ram : ∀ p ∈ g.nodes root 2 [], s.InRam p) :
    ∃ s', Returns (procFreepagetable root 0) s () s' ∧ MemOnly s s' ∧
      s'.freelist.Perm (g.nodes root 2 [] ++ s.freelist) := by
  obtain ⟨page, trampoline⟩ := bare.trampoline
  obtain ⟨page', trapframe⟩ := bare.trapframe
  obtain ⟨valid, leaf⟩ := @readable_leaf page PERM_TRAMPOLINE (by decide)
  obtain ⟨valid', leaf'⟩ := @readable_leaf page' PERM_TRAPFRAME (by decide)
  rw [← trampoline] at valid leaf
  obtain ⟨s₁, first, only₁, list₁, cleared⟩ := uvmunmap_keeps tables known (by decide) (by decide) valid leaf
  have kept : s₁.entry root TRAPFRAME = s.entry root TRAPFRAME :=
    cleared.others root TRAPFRAME known (by decide) fun _ => by decide
  rw [← trapframe, ← kept] at valid' leaf'
  obtain ⟨s₂, second, only₂, list₂, cleared'⟩ := uvmunmap_keeps cleared.tables known (by decide) (by decide) valid' leaf'
  have none : ∀ va, va < MAXVA → Pte.has (s₂.entry root va) PTE_V = false := by
    intro va low
    by_cases second : va / PGSIZE = TRAPFRAME / PGSIZE
    · have same : pgrounddown va = TRAPFRAME := by
        simp only [TRAPFRAME, TRAMPOLINE, MAXVA, PGSIZE, pgrounddown] at second ⊢
        omega
      rw [← entry_pgrounddown, same, cleared'.entry, has_zero]
    · rw [cleared'.others root va known low fun _ => second]
      by_cases first : va / PGSIZE = TRAMPOLINE / PGSIZE
      · have same : pgrounddown va = TRAMPOLINE := by
          simp only [TRAMPOLINE, MAXVA, PGSIZE, pgrounddown] at first ⊢
          omega
        rw [← entry_pgrounddown, same, cleared.entry, has_zero]
      · rw [cleared.others root va known low fun _ => first]
        refine bare.empty va ?_
        simp only [TRAPFRAME, TRAMPOLINE, MAXVA, PGSIZE] at first second low ⊢
        omega
  obtain ⟨s₃, third, frees⟩ := freewalk_frees cleared'.tables known (cleared'.tables.leafless known reached none)
    (fun p member => by
      have here := ram p member
      unfold Sys.InRam at here ⊢
      rw [only₂, only₁]
      exact here)
  have only : MemOnly s s₃ := IsTrans.trans _ _ _ only₁ (IsTrans.trans _ _ _ only₂ frees.rest)
  refine ⟨s₃, ?_, only, by rw [← list₁, ← list₂]; exact frees.list⟩
  unfold procFreepagetable uvmfree
  refine returns_bind.mpr ⟨(), s₁, first, returns_bind.mpr ⟨(), s₂, second, ?_⟩⟩
  unfold onlyIf
  rw [if_neg (by decide)]
  exact returns_bind.mpr ⟨(), s₂, returns_pure.mpr ⟨rfl, rfl⟩, third⟩

end FreeTable

end DeisoXv6
