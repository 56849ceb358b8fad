import DeisoXv6.Vm.Layout

/-! What walk and mappages do to the trees when they allocate: the tables they need are added one by
one from the free list, and no entry that was there changes. -/

set_option autoImplicit false

namespace DeisoXv6

open List Function Semantics

section Walk

variable {g g' g'' : Layout} {s s' s'' : Sys} {root table page : PageNo} {path rest : List Nat}
  {pages : List PageNo} {va i : Nat}

variable {a : Option PageNo} {alloc ok : Bool} {perm : BitVec 32} {e : Fault} {path' : List Nat} {j : Nat}

theorem returns_kalloc : Returns kalloc s a s' ↔
    (s.freelist = [] ∧ a = none ∧ s' = s) ∨ ∃ page pages, s.freelist = page :: pages ∧ a = some page ∧
      s' = { s with freelist := pages }.fill page 5 := by
  simp only [kalloc, returns_bind, returns_get]
  cases list : s.freelist with
  | nil =>
    constructor
    · rintro ⟨_, _, ⟨rfl, rfl⟩, run⟩
      rw [list] at run
      exact .inl ⟨rfl, returns_pure.mp run⟩
    · rintro (⟨-, rfl, rfl⟩ | ⟨_, _, wrong, _⟩)
      · refine ⟨_, _, ⟨rfl, rfl⟩, ?_⟩
        rw [list]
        exact returns_pure.mpr ⟨rfl, rfl⟩
      · contradiction
  | cons page pages =>
    constructor
    · rintro ⟨_, _, ⟨rfl, rfl⟩, run⟩
      rw [list] at run
      simp only [returns_bind, returns_modify, returns_pure] at run
      obtain ⟨_, _, rfl, _, _, rfl, rfl, rfl⟩ := run
      exact .inr ⟨page, pages, rfl, rfl, rfl⟩
    · rintro (⟨wrong, _⟩ | ⟨page', pages', same, rfl, rfl⟩)
      · contradiction
      · cases same
        refine ⟨_, _, ⟨rfl, rfl⟩, ?_⟩
        rw [list]
        simp

def MemOnly (s s' : Sys) : Prop := s' = { s with mem := s'.mem, freelist := s'.freelist }

instance : Std.Refl MemOnly := ⟨fun _ => rfl⟩

instance : IsTrans Sys MemOnly := ⟨fun s s' s'' first second => by
  unfold MemOnly at first second ⊢
  rw [second, first]⟩

theorem kalloc_within : Within MemOnly kalloc := by
  refine .bind .get fun s => ?_
  split
  · exact .pure
  · exact .bind (.modify fun _ => rfl) fun _ => .bind (.modify fun _ => rfl) fun _ => .pure

theorem walkFrom_within : Within MemOnly (walkFrom alloc table path) := by
  induction path generalizing table with
  | nil => exact .pure
  | cons i rest ih =>
    refine .bind .get fun s => .ite ih (.ite .pure (.bind kalloc_within fun page => ?_))
    cases page with
    | none => exact .pure
    | some page => exact .bind (.modify fun _ => rfl) fun _ => .bind (.modify fun _ => rfl) fun _ => ih

theorem walk_within : Within MemOnly (walk root va alloc) :=
  .bind failIf_within fun _ => .bind walkFrom_within fun _ => .pure

theorem mapLoop_within {n : Nat} : Within MemOnly (mapLoop root perm n va page) := by
  induction n generalizing va page with
  | zero => exact .pure
  | succ n ih =>
    refine .bind walk_within fun found => ?_
    cases found with
    | none => exact .pure
    | some place => exact .bind (.modify fun _ => rfl) fun _ => ih

theorem mappages_within {size : Nat} : Within MemOnly (mappages root va size page perm) :=
  .bind failIf_within fun _ => mapLoop_within

theorem kalloc_never : Never kalloc := by
  refine .bind .get fun s => ?_
  split
  · exact .pure
  · exact .bind .modify fun _ => .bind .modify fun _ => .pure

theorem walkFrom_never : Never (walkFrom alloc table path) := by
  induction path generalizing table with
  | nil => exact .pure
  | cons i rest ih =>
    refine .bind .get fun s => .ite ih (.ite .pure (.bind kalloc_never fun page => ?_))
    cases page with
    | none => exact .pure
    | some page => exact .bind .modify fun _ => .bind .modify fun _ => ih

theorem fails_walk : Fails (walk root va alloc) s e ↔ MAXVA ≤ va ∧ e = .panic .walk := by
  unfold walk
  rw [fails_failIf_bind]
  refine or_iff_left fun later => ?_
  exact (walkFrom_never.bind fun _ => .pure) _ _ later.2

/-- Pages are taken from the free list, and what was in use stays: the trees may grow, the pages of
users and others keep their contents. The entries are not spoken of. -/
structure Evolves (g : Layout) (s : Sys) (g' : Layout) (s' : Sys) : Prop where
  tables : Tables g' s'
  tree : ∀ r path p, g.tree r path = some p → g'.tree r path = some p
  own : ∀ p, g.own p ≠ .free → g'.own p = g.own p
  mem : ∀ p, g.own p ≠ .free → (∀ r path, g.own p ≠ .table r path) → s'.mem p = s.mem p
  rest : s' = { s with
    mem := s'.mem, freelist := s'.freelist, inode := s'.inode, dinode := s'.dinode, bitmap := s'.bitmap,
    block := s'.block }

namespace Evolves

theorem refl (tables : Tables g s) : Evolves g s g s :=
  ⟨tables, fun _ _ _ node => node, fun _ _ => rfl, fun _ _ _ => rfl, rfl⟩

theorem trans (first : Evolves g s g' s') (second : Evolves g' s' g'' s'') : Evolves g s g'' s'' := by
  refine ⟨second.tables, fun r path p node => second.tree r path p (first.tree r path p node),
    fun p used => ?_, fun p used outside => ?_, ?_⟩
  · have same := first.own p used
    exact (second.own p (same ▸ used)).trans same
  · have same := first.own p used
    exact (second.mem p (same ▸ used) (same ▸ outside)).trans (first.mem p used outside)
  · rw [second.rest, first.rest]

end Evolves

structure Grows (g : Layout) (s : Sys) (g' : Layout) (s' : Sys) : Prop extends Evolves g s g' s' where
  entry : ∀ r va, g.tree r [] = some r → s'.entry r va = s.entry r va

namespace Grows

theorem refl (tables : Tables g s) : Grows g s g s := ⟨.refl tables, fun _ _ _ => rfl⟩

theorem trans (first : Grows g s g' s') (second : Grows g' s' g'' s'') : Grows g s g'' s'' :=
  ⟨first.toEvolves.trans second.toEvolves, fun r va known =>
    (second.entry r va (first.tree r [] r known)).trans (first.entry r va known)⟩

end Grows

/-- The nodes that `g'` has more than `g` are on the way to `target`. -/
def Layout.Adds (g g' : Layout) (root : PageNo) (target : List Nat) : Prop :=
  ∀ r path, (g'.tree r path).isSome → (g.tree r path).isSome ∨ (r = root ∧ path <+: target)

/-- The pages that are no longer free are nodes of `root`. -/
def Layout.Takes (g g' : Layout) (root : PageNo) : Prop :=
  ∀ p, g.own p = .free → g'.own p = .free ∨ ∃ path, g'.tree root path = some p

theorem Layout.Takes.trans (first : g.Takes g' root) (second : g'.Takes g'' root)
    (tree : ∀ r path p, g'.tree r path = some p → g''.tree r path = some p) : g.Takes g'' root := by
  intro p free
  rcases first p free with still | ⟨path, node⟩
  · exact second p still
  · exact .inr ⟨path, tree root path p node⟩

theorem takes_grow : g.Takes (g.grow root path page) root := by
  intro p free
  by_cases here : p = page
  · subst here
    exact .inr ⟨path, if_pos ⟨rfl, rfl⟩⟩
  · exact .inl ((update_of_ne here ..).trans free)

def Layout.SameLeaves (g g' : Layout) (root : PageNo) : Prop :=
  ∀ va, (g'.tree root (upper va)).isSome ↔ (g.tree root (upper va)).isSome

theorem Grows.sameLeaves (grown : Grows g s g' s') (adds : g.Adds g' root (upper va))
    (gone : g'.tree root (upper va) = none) : g.SameLeaves g' root := by
  intro va'
  constructor
  · intro new
    rcases adds root _ new with old | ⟨-, way⟩
    · exact old
    · rw [way.eq_of_length rfl, gone] at new
      contradiction
  · intro old
    obtain ⟨p, node⟩ := Option.isSome_iff_exists.mp old
    rw [grown.tree _ _ _ node, Option.isSome_some]

theorem grow_tree_other {r : PageNo} (other : r ≠ root ∨ path' ≠ path) :
    (g.grow root path page).tree r path' = g.tree r path' :=
  if_neg (by tauto)

/-- One table more: what a turn of the loop in walk does when it has to allocate. -/
def Sys.linkTable (s : Sys) (pages : List PageNo) (page table : PageNo) (i : Nat) : Sys :=
  (({ s with freelist := pages }.fill page 5).fill page 0).setPte table i (pa2pte page ||| PTE_V)

theorem linkTable_mem {p : PageNo} (notPage : p ≠ page) (notTable : p ≠ table) :
    (s.linkTable pages page table i).mem p = s.mem p := by
  unfold Sys.linkTable
  rw [mem_setPte, update_of_ne notTable, mem_fill, update_of_ne notPage, mem_fill, update_of_ne notPage]

theorem linkTable_zero (apart : table ≠ page) : (s.linkTable pages page table i).pte page j = 0 := by
  unfold Sys.linkTable
  rw [pte_setPte_page apart.symm, pte_fill_zero]

theorem linkTable_pointer : (s.linkTable pages page table i).pte table i = pa2pte page ||| PTE_V := by
  unfold Sys.linkTable
  exact pte_setPte_same

theorem linkTable_others (apart : table ≠ page) (other : j ≠ i) :
    (s.linkTable pages page table i).pte table j = s.pte table j := by
  unfold Sys.linkTable
  rw [pte_setPte_index other]
  refine pte_congr ?_
  rw [mem_fill, update_of_ne apart, mem_fill, update_of_ne apart]

theorem linkTable_rest : s.linkTable pages page table i =
    { s with mem := (s.linkTable pages page table i).mem, freelist := pages } := rfl

theorem grows_linkTable (tables : Tables g s) (node : g.tree root path = some table)
    (short : path.length < 2) (absent : g.tree root (path ++ [i]) = none) (first : s.freelist = page :: pages) :
    Grows g s (g.grow root (path ++ [i]) page) (s.linkTable pages page table i) := by
  have free : g.own page = .free := (tables.free page).mp (by simp [first])
  have apart : table ≠ page := by
    rintro rfl
    exact tables.not_free node free
  have grown : Tables (g.grow root (path ++ [i]) page) (s.linkTable pages page table i) :=
    tables.grow node short absent first rfl rfl (fun _ => linkTable_mem) (fun _ => linkTable_zero apart)
      linkTable_pointer fun _ => linkTable_others apart
  refine ⟨⟨grown, fun r path' p old => ?_, fun p used => ?_, fun p used outside => ?_, linkTable_rest⟩,
    fun r va known => ?_⟩
  · refine (grow_tree_other ?_).trans old
    by_contra both
    obtain ⟨rfl, rfl⟩ : r = root ∧ path' = path ++ [i] := by tauto
    rw [absent] at old
    contradiction
  · refine update_of_ne ?_ ..
    rintro rfl
    exact used free
  · refine linkTable_mem ?_ ?_
    · rintro rfl
      exact used free
    · rintro rfl
      exact outside _ _ (tables.table _ _ _ node)
  · have known' : (g.grow root (path ++ [i]) page).tree r [] = some r := by
      rw [grow_tree_other (.inr (by simp)), known]
    rw [grown.entry_eq known', tables.entry_eq known]
    by_cases here : r = root ∧ upper va = path ++ [i]
    · obtain ⟨rfl, index⟩ := here
      rw [index, absent, show (g.grow r (path ++ [i]) page).tree r (path ++ [i]) = some page from if_pos ⟨rfl, rfl⟩]
      exact linkTable_zero apart
    · rw [grow_tree_other (by tauto)]
      cases leaf : g.tree r (upper va) with
      | none => rfl
      | some p =>
        refine pte_congr (linkTable_mem ?_ ?_)
        · rintro rfl
          exact tables.not_free leaf free
        · rintro rfl
          obtain ⟨-, rfl⟩ := tables.node_unique node leaf
          simp [upper] at short

/-- How many tables are missing on the way from the node at `path` along `rest`. -/
def Layout.missingFrom (g : Layout) (root : PageNo) : List Nat → List Nat → Nat
  | _, [] => 0
  | path, i :: rest =>
    (if (g.tree root (path ++ [i])).isSome then 0 else 1) + g.missingFrom root (path ++ [i]) rest

theorem missingFrom_grow (longer : path.length ≤ path'.length) :
    (g.grow root path page).missingFrom root path' rest = g.missingFrom root path' rest := by
  induction rest generalizing path' with
  | nil => rfl
  | cons i rest ih =>
    have other : path' ++ [i] ≠ path := by
      intro same
      have length := congrArg List.length same
      rw [length_append, length_singleton] at length
      omega
    rw [Layout.missingFrom, Layout.missingFrom, grow_tree_other (.inr other),
      ih (by rw [length_append, length_singleton]; omega)]

/-- walk with `alloc` finds the leaf page or builds the way to it, unless the memory runs out. -/
theorem walkFrom_true (tables : Tables g s) (node : g.tree root path = some table)
    (short : path.length + rest.length = 2) (inside : ∀ i ∈ rest, i < 512)
    (run : Returns (walkFrom true table rest) s a s') :
    ∃ g', Grows g s g' s' ∧ g.Adds g' root (path ++ rest) ∧ g.Takes g' root ∧ a = g'.tree root (path ++ rest) ∧
      ((a.isSome ∧ g.missingFrom root path rest ≤ s.freelist.length ∧
          s'.freelist = s.freelist.drop (g.missingFrom root path rest)) ∨
        (a = none ∧ s.freelist.length < g.missingFrom root path rest ∧ s'.freelist = [])) := by
  induction rest generalizing path table g s with
  | nil =>
    obtain ⟨rfl, rfl⟩ := returns_pure.mp run
    exact ⟨g, .refl tables, fun _ _ => .inl, fun _ => .inl, by rw [append_nil, node], .inl ⟨rfl, Nat.zero_le _, rfl⟩⟩
  | cons i rest ih =>
    rw [length_cons] at short
    have points := tables.points root path table i node (by omega) (inside i (by simp))
    have length : (path ++ [i]).length = path.length + 1 := by simp
    have inside' : ∀ j ∈ rest, j < 512 := fun j member => inside j (mem_cons_of_mem _ member)
    rw [append_cons, Layout.missingFrom]
    simp only [walkFrom, returns_bind, returns_get] at run
    obtain ⟨_, _, ⟨rfl, rfl⟩, run⟩ := run
    cases child : g.tree root (path ++ [i]) with
    | some page =>
      rw [child, Points] at points
      rw [points, if_pos has_valid_table, pte2pa_table (tables.small _ _ _ child)] at run
      rw [Option.isSome_some, if_pos rfl, Nat.zero_add]
      exact ih tables child (by omega) inside' run
    | none =>
      rw [child, Points] at points
      rw [points, if_neg (by simp), if_neg (by simp)] at run
      rw [Option.isSome_none, if_neg (by simp)]
      simp only [returns_bind, returns_kalloc] at run
      obtain ⟨_, _, taken, run⟩ := run
      rcases taken with ⟨empty, rfl, rfl⟩ | ⟨page, pages, first, rfl, rfl⟩
      · obtain ⟨rfl, rfl⟩ := returns_pure.mp run
        refine ⟨g, .refl tables, fun _ _ => .inl, fun _ => .inl, (tables.none_below child).symm,
          .inr ⟨rfl, ?_, empty⟩⟩
        rw [empty, length_nil]
        omega
      · simp only [returns_bind, returns_modify] at run
        obtain ⟨_, _, rfl, _, _, rfl, run⟩ := run
        have step := grows_linkTable tables node (by omega) child first
        have node' : (g.grow root (path ++ [i]) page).tree root (path ++ [i]) = some page :=
          if_pos ⟨rfl, rfl⟩
        obtain ⟨g', grown, adds, takes, leaf, count⟩ := ih step.tables node' (by omega) inside' run
        rw [missingFrom_grow (le_rfl)] at count
        refine ⟨g', step.trans grown, fun r path' new => ?_, takes_grow.trans takes grown.tree, leaf, ?_⟩
        · rcases adds r path' new with old | here
          · by_cases same : r = root ∧ path' = path ++ [i]
            · obtain ⟨rfl, rfl⟩ := same
              exact .inr ⟨rfl, prefix_append ..⟩
            · rw [grow_tree_other (by tauto)] at old
              exact .inl old
          · exact .inr here
        rw [first, length_cons]
        rcases count with ⟨some, enough, left⟩ | ⟨none, few, left⟩
        · have enough : g.missingFrom root (path ++ [i]) rest ≤ pages.length := enough
          refine .inl ⟨some, by omega, left.trans ?_⟩
          rw [Nat.add_comm, drop_succ_cons]
          rfl
        · have few : pages.length < g.missingFrom root (path ++ [i]) rest := few
          exact .inr ⟨none, by omega, left⟩

def Layout.missing (g : Layout) (root : PageNo) (va : Nat) : Nat := g.missingFrom root [] (upper va)

theorem walk_true {a : Option (PageNo × Nat)} (tables : Tables g s) (known : g.tree root [] = some root)
    (run : Returns (walk root va true) s a s') : ∃ g', Grows g s g' s' ∧ g.Adds g' root (upper va) ∧ g.Takes g' root ∧
      a = (g'.tree root (upper va)).map (·, px 0 va) ∧
      ((a.isSome ∧ g.missing root va ≤ s.freelist.length ∧ s'.freelist = s.freelist.drop (g.missing root va)) ∨
        (a = none ∧ s.freelist.length < g.missing root va ∧ s'.freelist = [])) := by
  simp only [walk, returns_bind, returns_failIf, returns_pure] at run
  obtain ⟨_, _, ⟨_, rfl⟩, leaf, _, down, rfl, rfl⟩ := run
  obtain ⟨g', grown, adds, takes, rfl, count⟩ := walkFrom_true tables known (by simp [upper]) upper_lt down
  rw [nil_append] at adds count ⊢
  exact ⟨g', grown, adds, takes, rfl, by simpa [Layout.missing] using count⟩

/-- One leaf entry is set, after the tables on the way to it have been added. -/
structure Remaps (root : PageNo) (va : Nat) (pte : Pte) (g : Layout) (s : Sys) (g' : Layout) (s' : Sys) :
    Prop extends Evolves g s g' s' where
  entry : s'.entry root va = pte
  others : ∀ r va', g.tree r [] = some r → va' < MAXVA → (r = root → va' / PGSIZE ≠ va / PGSIZE) →
    s'.entry r va' = s.entry r va'
  nodes : ∀ r path, (g'.tree r path).isSome ↔ (g.tree r path).isSome ∨ (r = root ∧ path <+: upper va)

theorem Grows.setLeaf {pte : Pte} (grown : Grows g s g' s') (adds : g.Adds g' root (upper va))
    (known : g.tree root [] = some root) (low : va < MAXVA) (leaf : g'.tree root (upper va) = some table) :
    Remaps root va pte g s g' (s'.setPte table (px 0 va) pte) := by
  have tables : Tables g' (s'.setPte table (px 0 va) pte) := grown.tables.setLeaf leaf rfl
  have known' := grown.tree root [] root known
  refine ⟨⟨tables, grown.tree, grown.own, fun p used outside => ?_, ?_⟩, ?_,
    fun r va' knownR low' other => ?_, fun r path => ⟨adds r path, ?_⟩⟩
  · have notLeaf : p ≠ table := by
      rintro rfl
      have owner := grown.tables.table _ _ _ leaf
      rw [grown.own p used] at owner
      exact outside _ _ owner
    rw [mem_setPte, update_of_ne notLeaf]
    exact grown.mem p used outside
  · rw [grown.rest]
    rfl
  · rw [tables.entry_eq known', leaf]
    exact pte_setPte_same
  · have knownR' := grown.tree r [] r knownR
    rw [← grown.entry r va' knownR, tables.entry_eq knownR', grown.tables.entry_eq knownR']
    cases leaf' : g'.tree r (upper va') with
    | none => rfl
    | some table' =>
      by_cases here : table' = table
      · subst here
        obtain ⟨rfl, same⟩ := grown.tables.node_unique leaf leaf'
        refine pte_setPte_index fun index => ?_
        exact other rfl (page_eq_of_px low low' same index.symm).symm
      · exact pte_setPte_page here
  · rintro (old | ⟨rfl, rest, below⟩)
    · obtain ⟨p, node⟩ := Option.isSome_iff_exists.mp old
      rw [grown.tree r path p node, Option.isSome_some]
    · by_contra absent
      rw [Option.not_isSome_iff_eq_none] at absent
      have gone : g'.tree r (path ++ rest) = none := grown.tables.none_below absent
      rw [below, leaf] at gone
      contradiction

theorem mapped_once (low : va < MAXVA) (aligned : va % PGSIZE = 0) :
    pgrounddown va = va ∧ sub64 (pgrounddown (u64 (va + PGSIZE - 1))) va / PGSIZE + 1 = 1 := by
  unfold MAXVA at low
  unfold pgrounddown sub64 u64
  unfold PGSIZE at *
  omega

theorem mappages_takes (tables : Tables g s)
    (known : g.tree root [] = some root) (low : va < MAXVA) (aligned : va % PGSIZE = 0)
    (run : Returns (mappages root va PGSIZE page perm) s ok s') :
    ∃ g', g.Takes g' root ∧ g.Adds g' root (upper va) ∧ ((ok = true ∧ g.missing root va ≤ s.freelist.length ∧
          s'.freelist = s.freelist.drop (g.missing root va) ∧
          Remaps root va (pa2pte page ||| perm.signExtend 64 ||| PTE_V) g s g' s') ∨
        (ok = false ∧ s.freelist.length < g.missing root va ∧ s'.freelist = [] ∧ Grows g s g' s' ∧
          g.SameLeaves g' root)) := by
  obtain ⟨first, once⟩ := mapped_once low aligned
  unfold mappages at run
  rw [returns_failIf_bind, first] at run
  replace run := run.2
  dsimp only at run
  rw [once] at run
  simp only [mapLoop, returns_bind] at run
  obtain ⟨found, t, walked, run⟩ := run
  obtain ⟨g', grown, adds, takes, rfl, count⟩ := walk_true tables known walked
  cases leaf : g'.tree root (upper va) with
  | none =>
    rw [leaf, Option.map_none] at run count
    obtain ⟨rfl, rfl⟩ := returns_pure.mp run
    rcases count with ⟨wrong, _⟩ | ⟨_, few, left⟩
    · exact absurd wrong (by simp)
    · exact ⟨g', takes, adds, .inr ⟨rfl, few, left, grown, grown.sameLeaves adds leaf⟩⟩
  | some table =>
    rw [leaf, Option.map_some] at run count
    simp only [returns_bind, returns_modify, returns_pure] at run
    obtain ⟨_, _, rfl, rfl, rfl⟩ := run
    rcases count with ⟨_, enough, left⟩ | ⟨wrong, _⟩
    · exact ⟨g', takes, adds, .inl ⟨rfl, enough, left, grown.setLeaf adds known low leaf⟩⟩
    · exact absurd wrong (by simp)

theorem mappages_page (tables : Tables g s)
    (known : g.tree root [] = some root) (low : va < MAXVA) (aligned : va % PGSIZE = 0)
    (run : Returns (mappages root va PGSIZE page perm) s ok s') :
    ∃ g', (ok = true ∧ g.missing root va ≤ s.freelist.length ∧ s'.freelist = s.freelist.drop (g.missing root va) ∧
          Remaps root va (pa2pte page ||| perm.signExtend 64 ||| PTE_V) g s g' s') ∨
        (ok = false ∧ s.freelist.length < g.missing root va ∧ s'.freelist = [] ∧ Grows g s g' s' ∧
          g.SameLeaves g' root) := by
  obtain ⟨g', -, -, result⟩ := mappages_takes tables known low aligned run
  exact ⟨g', result⟩

theorem fails_mappages_page (low : va < MAXVA) (aligned : va % PGSIZE = 0) :
    ¬Fails (mappages root va PGSIZE page perm) s e := by
  obtain ⟨first, once⟩ := mapped_once low aligned
  unfold mappages
  rw [fails_failIf_bind, first]
  rintro (⟨wrong, -⟩ | ⟨-, later⟩)
  · exact absurd wrong (by decide)
  · dsimp only at later
    rw [once] at later
    unfold mapLoop at later
    rcases fails_bind.mp later with high | ⟨found, t, -, later⟩
    · exact Nat.not_le.mpr low (fails_walk.mp high).1
    · cases found with
      | none => exact fails_pure later
      | some place => exact (Never.bind .modify fun _ => .pure) _ _ later

end Walk

end DeisoXv6
