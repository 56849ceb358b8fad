import DeisoXv6.Vm.Pte

/-! Who owns which physical page, and the trees that page tables form in memory.

The layout is a ghost: it names the page of every node of every page table, so that a page belongs to
one node of one tree at most, and a page on the free list to none. -/

set_option autoImplicit false

namespace DeisoXv6

open List Function Semantics LittleEndian

namespace Sys

variable (s : Sys)

/-- The page that the entries at the given indices lead to. -/
def walkDown : PageNo → List Nat → Option PageNo
  | table, [] => some table
  | table, i :: rest =>
    if Pte.has (s.pte table i) PTE_V then walkDown (pte2pa (s.pte table i)) rest else none

end Sys

def upper (va : Nat) : List Nat := [px 2 va, px 1 va]

/-- The leaf entry for an address; 0 where the table has none. -/
def Sys.entry (s : Sys) (root : PageNo) (va : Nat) : Pte :=
  match s.walkDown root (upper va) with
  | some table => s.pte table (px 0 va)
  | none => 0

section Lookup

variable {s s' : Sys} {table root : PageNo} {path : List Nat} {va : Nat}

theorem returns_walkFrom_false {a : Option PageNo} :
    Returns (walkFrom false table path) s a s' ↔ a = s.walkDown table path ∧ s' = s := by
  induction path generalizing table with
  | nil => exact returns_pure
  | cons i rest ih =>
    simp only [walkFrom, returns_bind, returns_get]
    rw [Sys.walkDown]
    constructor
    · rintro ⟨_, _, ⟨rfl, rfl⟩, run⟩
      split at run
      · rename_i valid
        rw [if_pos valid]
        exact ih.mp run
      · rename_i invalid
        rw [if_neg invalid]
        simpa using run
    · rintro ⟨found, rfl⟩
      refine ⟨_, _, ⟨rfl, rfl⟩, ?_⟩
      split
      · rename_i valid
        rw [if_pos valid] at found
        exact ih.mpr ⟨found, rfl⟩
      · rename_i invalid
        rw [if_neg invalid] at found
        simpa using found

theorem returns_walk_false {a : Option (PageNo × Nat)} : Returns (walk root va false) s a s' ↔
    va < MAXVA ∧ a = (s.walkDown root (upper va)).map (·, px 0 va) ∧ s' = s := by
  simp only [walk, returns_bind, returns_failIf, returns_walkFrom_false, returns_pure]
  constructor
  · rintro ⟨_, _, ⟨low, rfl⟩, _, _, ⟨rfl, rfl⟩, rfl, rfl⟩
    exact ⟨Nat.lt_of_not_le low, rfl, rfl⟩
  · rintro ⟨low, rfl, rfl⟩
    exact ⟨(), _, ⟨Nat.not_le.mpr low, rfl⟩, _, _, ⟨rfl, rfl⟩, rfl, rfl⟩

theorem px_lt {level : Nat} : px level va < 512 := Nat.mod_lt _ (by decide)

theorem upper_lt : ∀ i ∈ upper va, i < 512 := by
  intro i member
  rcases mem_pair.mp member with rfl | rfl
  · exact px_lt
  · exact px_lt

theorem page_eq_of_px {va' : Nat} (low : va < MAXVA) (low' : va' < MAXVA) (tables : upper va = upper va')
    (leaf : px 0 va = px 0 va') : va / PGSIZE = va' / PGSIZE := by
  simp only [upper, List.cons.injEq, and_true] at tables
  unfold px at tables leaf
  unfold MAXVA at low low'
  unfold PGSIZE
  omega

theorem px_pgrounddown {level : Nat} : px level (pgrounddown va) = px level va := by
  unfold px pgrounddown PGSIZE
  rw [pow_add, ← Nat.div_div_eq_div_mul, ← Nat.div_div_eq_div_mul]
  have same : (va - va % 4096) / 2 ^ 12 = va / 2 ^ 12 := by omega
  rw [same]

theorem upper_pgrounddown : upper (pgrounddown va) = upper va := by
  simp only [upper, px_pgrounddown]

theorem entry_pgrounddown : s.entry root (pgrounddown va) = s.entry root va := by
  simp only [Sys.entry, upper_pgrounddown, px_pgrounddown]

end Lookup

section Entries

variable {s s' : Sys} {table page : PageNo} {i j : Nat} {pte : Pte}

theorem mem_setPte : (s.setPte table i pte).mem =
    update s.mem table (store 8 (s.mem table) (8 * i) pte.toNat) := rfl

theorem mem_fill {c : UInt8} : (s.fill page c).mem = update s.mem page fun _ => c := rfl

theorem pte_congr (same : s'.mem table = s.mem table) : s'.pte table i = s.pte table i := by
  unfold Sys.pte
  rw [same]

@[simp] theorem pte_setPte_same : (s.setPte table i pte).pte table i = pte := by
  unfold Sys.pte
  have wide : 256 ^ 8 = 2 ^ 64 := by norm_num
  rw [mem_setPte, update_self, load_store_same, wide, Nat.mod_eq_of_lt pte.isLt,
    BitVec.ofNat_toNat, BitVec.setWidth_eq]

theorem pte_setPte_index (other : j ≠ i) : (s.setPte table i pte).pte table j = s.pte table j := by
  unfold Sys.pte
  rw [mem_setPte, update_self, load_store_disjoint _ _ _ _ _ _ (by omega)]

theorem pte_setPte_page (other : page ≠ table) : (s.setPte table i pte).pte page j = s.pte page j :=
  pte_congr (by rw [mem_setPte, update_of_ne other])

@[simp] theorem pte_fill_zero : (s.fill page 0).pte page i = 0 := by
  unfold Sys.pte
  rw [mem_fill, update_self, load_zero]
  rfl

theorem has_zero {mask : Pte} : Pte.has 0 mask = false := by
  simp [Pte.has]

theorem page_lt_of_ram {n : Nat} (ram : n * PGSIZE < PHYSTOP) : n < 2 ^ 20 := by
  unfold PGSIZE PHYSTOP at ram
  omega

end Entries

inductive Owner where
  | free
  | table : PageNo → List Nat → Owner
  | user : PageNo → Nat → Owner
  | other

/-- A page table is named by the page of its root, a node by the indices that lead to it. -/
structure Layout where
  own : PageNo → Owner
  tree : PageNo → List Nat → Option PageNo

def Layout.grow (g : Layout) (root : PageNo) (path : List Nat) (page : PageNo) : Layout where
  own := update g.own page (.table root path)
  tree := fun r path' => if r = root ∧ path' = path then some page else g.tree r path'

/-- What entry `i` of an upper-level page holds, given the child there. -/
def Points (s : Sys) (table : PageNo) (i : Nat) : Option PageNo → Prop
  | some child => s.pte table i = pa2pte child ||| PTE_V
  | none => Pte.has (s.pte table i) PTE_V = false

/-- The memory holds the trees of the layout, and the free list the pages that are free in it. -/
structure Tables (g : Layout) (s : Sys) : Prop where
  nodup : s.freelist.Nodup
  free : ∀ p, p ∈ s.freelist ↔ g.own p = .free
  ram : ∀ p ∈ s.freelist, s.kernelEnd ≤ p * PGSIZE ∧ p * PGSIZE < PHYSTOP
  kernel : 0x80000000 ≤ s.kernelEnd
  table : ∀ r path p, g.tree r path = some p → g.own p = .table r path
  small : ∀ r path (p : Nat), g.tree r path = some p → p < 2 ^ 52
  parent : ∀ r path i, g.tree r path = none → g.tree r (path ++ [i]) = none
  points : ∀ r path p i, g.tree r path = some p → path.length < 2 → i < 512 → Points s p i (g.tree r (path ++ [i]))

namespace Tables

variable {g : Layout} {s : Sys} {root table page : PageNo} {path rest : List Nat} {va i : Nat}

section

variable (tables : Tables g s)

include tables

theorem none_below (absent : g.tree root path = none) : g.tree root (path ++ rest) = none := by
  induction rest using List.reverseRecOn with
  | nil => rw [append_nil, absent]
  | append_singleton rest i ih =>
    rw [← append_assoc]
    exact tables.parent _ _ _ ih

theorem walkDown_eq (node : g.tree root path = some table)
    (short : path.length + rest.length ≤ 2) (inside : ∀ i ∈ rest, i < 512) :
    s.walkDown table rest = g.tree root (path ++ rest) := by
  induction rest generalizing path table with
  | nil => rw [append_nil, node, Sys.walkDown]
  | cons i rest ih =>
    rw [length_cons] at short
    have points := tables.points root path table i node (by omega) (inside i (by simp))
    rw [Sys.walkDown, append_cons]
    cases child : g.tree root (path ++ [i]) with
    | some page =>
      rw [child, Points] at points
      rw [points, if_pos has_valid_table, pte2pa_table (tables.small _ _ _ child)]
      refine ih child ?_ fun j member => inside j (mem_cons_of_mem _ member)
      rw [length_append, length_singleton]
      omega
    | none =>
      rw [child, Points] at points
      rw [points, if_neg (by simp)]
      exact (tables.none_below child).symm

theorem walkDown_upper (known : g.tree root [] = some root) : s.walkDown root (upper va) = g.tree root (upper va) :=
  tables.walkDown_eq known (by simp [upper]) upper_lt

theorem entry_eq (known : g.tree root [] = some root) : s.entry root va = match g.tree root (upper va) with
      | some table => s.pte table (px 0 va)
      | none => 0 := by
  rw [Sys.entry, tables.walkDown_upper known]

theorem not_free (node : g.tree root path = some table) : g.own table ≠ .free := by
  rw [tables.table _ _ _ node]
  exact fun wrong => nomatch wrong

theorem node_unique {root' : PageNo} {path' : List Nat}
    (first : g.tree root path = some page) (second : g.tree root' path' = some page) :
    root = root' ∧ path = path' := by
  have same := (tables.table _ _ _ first).symm.trans (tables.table _ _ _ second)
  injection same with roots paths
  exact ⟨roots, paths⟩

theorem frame {s' : Sys} (same : ∀ r path p, g.tree r path = some p → s'.mem p = s.mem p)
    (list : s'.freelist = s.freelist) (kernel : s'.kernelEnd = s.kernelEnd) : Tables g s' := by
  refine ⟨list ▸ tables.nodup, list ▸ tables.free, ?_, kernel ▸ tables.kernel, tables.table, tables.small,
    tables.parent, fun r path p i node short inside => ?_⟩
  · rw [list, kernel]
    exact tables.ram
  · have old := tables.points r path p i node short inside
    cases child : g.tree r (path ++ [i]) with
    | some q =>
      rw [child] at old
      exact (pte_congr (same r path p node)).trans old
    | none =>
      rw [child] at old
      exact (congrArg (Pte.has · PTE_V) (pte_congr (same r path p node))).trans old

theorem take {s' : Sys} {pages : List PageNo} {owner : Owner}
    (first : s.freelist = page :: pages) (list : s'.freelist = pages)
    (kernel : s'.kernelEnd = s.kernelEnd) (same : ∀ p, p ≠ page → s'.mem p = s.mem p)
    (taken : owner ≠ .free) : Tables { g with own := update g.own page owner } s' := by
  have once := tables.nodup
  rw [first] at once
  obtain ⟨absent, nodup⟩ := nodup_cons.mp once
  have free : g.own page = .free := (tables.free page).mp (by simp [first])
  have other : ∀ r path p, g.tree r path = some p → p ≠ page := by
    rintro r path p node rfl
    exact tables.not_free node free
  have kept : Tables g { s' with freelist := s.freelist } := tables.frame
    (fun r path p node => same p (other r path p node)) rfl kernel
  refine ⟨list ▸ nodup, fun p => ?_, fun p member => ?_, kept.kernel, fun r path p node => ?_, kept.small,
    kept.parent, kept.points⟩
  · change p ∈ s'.freelist ↔ update g.own page owner p = .free
    by_cases here : p = page
    · rw [here, update_self, list]
      exact iff_of_false absent taken
    · rw [update_of_ne here, ← tables.free p, first, list, mem_cons, or_iff_right here]
  · exact kept.ram p (by rw [first]; exact mem_cons_of_mem _ (list ▸ member))
  · exact (update_of_ne (other r path p node) ..).trans (tables.table r path p node)

theorem give {s' : Sys} (list : s'.freelist = page :: s.freelist)
    (kernel : s'.kernelEnd = s.kernelEnd) (same : ∀ p, p ≠ page → s'.mem p = s.mem p)
    (used : g.own page ≠ .free) (outside : ∀ r path, g.own page ≠ .table r path)
    (low : s.kernelEnd ≤ page * PGSIZE) (high : page * PGSIZE < PHYSTOP) :
    Tables { g with own := update g.own page .free } s' := by
  have other : ∀ r path p, g.tree r path = some p → p ≠ page := by
    rintro r path p node rfl
    exact outside r path (tables.table r path p node)
  have kept : Tables g { s' with freelist := s.freelist } := tables.frame
    (fun r path p node => same p (other r path p node)) rfl kernel
  refine ⟨?_, fun p => ?_, fun p member => ?_, kept.kernel, fun r path p node => ?_, kept.small,
    kept.parent, kept.points⟩
  · rw [list]
    exact nodup_cons.mpr ⟨fun member => used ((tables.free page).mp member), tables.nodup⟩
  · change p ∈ s'.freelist ↔ update g.own page .free p = .free
    by_cases here : p = page
    · rw [here, update_self, list]
      exact iff_of_true (mem_cons_self ..) rfl
    · rw [update_of_ne here, ← tables.free p, list, mem_cons, or_iff_right here]
  · rw [list] at member
    rcases mem_cons.mp member with rfl | old
    · exact kernel ▸ ⟨low, high⟩
    · exact kept.ram p old
  · exact (update_of_ne (other r path p node) ..).trans (tables.table r path p node)

theorem setLeaf {pte : Pte} (node : g.tree root path = some table)
    (leaf : path.length = 2) : Tables g (s.setPte table i pte) := by
  refine ⟨tables.nodup, tables.free, tables.ram, tables.kernel, tables.table, tables.small, tables.parent,
    fun r path' p j node' short inside => ?_⟩
  have other : p ≠ table := by
    rintro rfl
    obtain ⟨-, rfl⟩ := tables.node_unique node node'
    omega
  have old := tables.points r path' p j node' short inside
  cases child : g.tree r (path' ++ [j]) with
  | some q =>
    rw [child] at old
    exact (pte_setPte_page other).trans old
  | none =>
    rw [child] at old
    exact (congrArg (Pte.has · PTE_V) (pte_setPte_page other)).trans old

theorem grow {s' : Sys} {pages : List PageNo} (node : g.tree root path = some table)
    (short : path.length < 2) (absent : g.tree root (path ++ [i]) = none)
    (first : s.freelist = page :: pages) (list : s'.freelist = pages)
    (kernel : s'.kernelEnd = s.kernelEnd) (same : ∀ p, p ≠ page → p ≠ table → s'.mem p = s.mem p)
    (zero : ∀ j, s'.pte page j = 0) (pointer : s'.pte table i = pa2pte page ||| PTE_V)
    (others : ∀ j, j ≠ i → s'.pte table j = s.pte table j) : Tables (g.grow root (path ++ [i]) page) s' := by
  have free : g.own page = .free := (tables.free page).mp (by simp [first])
  have other : ∀ r path p, g.tree r path = some p → p ≠ page := by
    rintro r path p node rfl
    exact tables.not_free node free
  have taken : Tables { g with own := update g.own page (.table root (path ++ [i])) } { s with freelist := pages } :=
    tables.take first rfl rfl (fun _ _ => rfl) (fun wrong => nomatch wrong)
  have ram := tables.ram page (by simp [first])
  refine ⟨list ▸ taken.nodup, list ▸ taken.free, ?_, kernel ▸ tables.kernel, ?_, ?_, ?_, ?_⟩
  · rw [list, kernel]
    exact taken.ram
  · intro r path' p new
    change update g.own page _ p = _
    simp only [Layout.grow] at new
    split at new
    · rename_i here
      obtain ⟨rfl, rfl⟩ := here
      cases new
      exact update_self ..
    · exact taken.table r path' p new
  · intro r path' p new
    simp only [Layout.grow] at new
    split at new
    · cases new
      exact Nat.lt_trans (page_lt_of_ram ram.2) (by decide)
    · exact tables.small r path' p new
  · intro r path' j gone
    simp only [Layout.grow] at gone ⊢
    split at gone
    · contradiction
    · have older := tables.parent r path' j gone
      split
      · rename_i here
        -- the parent of the new node is there
        obtain ⟨rfl, same⟩ := here
        obtain ⟨rfl, -⟩ := append_inj' same rfl
        rw [node] at gone
        contradiction
      · exact older
  · intro r path' p j new short' inside'
    simp only [Layout.grow] at new
    split at new
    · -- the new node has no children yet
      rename_i here
      obtain ⟨rfl, rfl⟩ := here
      cases new
      have below : (g.grow r (path ++ [i]) page).tree r (path ++ [i] ++ [j]) = none := by
        simp only [Layout.grow]
        rw [if_neg (by simp), tables.parent _ _ _ absent]
      rw [below, Points, zero, has_zero]
    · have old := tables.points r path' p j new short' inside'
      have apart := other r path' p new
      simp only [Layout.grow]
      by_cases here : p = table
      · subst here
        obtain ⟨rfl, rfl⟩ := tables.node_unique node new
        by_cases index : j = i
        · subst index
          rw [if_pos ⟨rfl, rfl⟩]
          exact pointer
        · rw [if_neg (by simp [index])]
          cases child : g.tree root (path ++ [j]) with
          | some q =>
            rw [child] at old
            exact (others j index).trans old
          | none =>
            rw [child] at old
            exact (congrArg (Pte.has · PTE_V) (others j index)).trans old
      · have elsewhere : ¬(r = root ∧ path' ++ [j] = path ++ [i]) := by
          rintro ⟨rfl, same⟩
          obtain ⟨rfl, -⟩ := append_inj' same rfl
          rw [node] at new
          exact here (Option.some.inj new).symm
        rw [if_neg elsewhere]
        cases child : g.tree r (path' ++ [j]) with
        | some q =>
          rw [child] at old
          exact (pte_congr (same p apart here)).trans old
        | none =>
          rw [child] at old
          exact (congrArg (Pte.has · PTE_V) (pte_congr (same p apart here))).trans old

end

end Tables

end DeisoXv6
