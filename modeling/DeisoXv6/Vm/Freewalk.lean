import DeisoXv6.Vm.Lazy
import DeisoXv6.Vm.UserTable

/-! freewalk gives the pages of a page table back once its leaf entries are gone. -/

set_option autoImplicit false

namespace DeisoXv6

open List Semantics Layout

/-- The entry is not valid, or it leads to a subtree with the pages `below`. -/
def BareAt (s : Sys) (node : PageNo → List PageNo → Prop) (table : PageNo) (i : Nat) (below : List PageNo) : Prop :=
  (Pte.has (s.pte table i) PTE_V = false ∧ below = []) ∨
    ∃ child, s.pte table i = pa2pte child ||| PTE_V ∧ child < 2 ^ 52 ∧ node child below

/-- A subtree of a page table without leaf entries, of less than the given height, with its pages in the
order in which freewalk comes back from them. -/
def Bare (s : Sys) : Nat → PageNo → List PageNo → Prop
  | 0, _, _ => False
  | h + 1, table, pages => ∃ below : Nat → List PageNo, pages = entryIndices.flatMap below ++ [table] ∧
      ∀ i < 512, BareAt s (Bare s h) table i (below i)

structure Frees (s : Sys) (pages : List PageNo) (s' : Sys) : Prop where
  list : s'.freelist.Perm (pages ++ s.freelist)
  mem : ∀ p, p ∉ pages → s'.mem p = s.mem p
  rest : MemOnly s s'

def Sys.InRam (s : Sys) (page : PageNo) : Prop := s.kernelEnd ≤ page * PGSIZE ∧ page * PGSIZE < PHYSTOP

theorem mem_entryIndices {i : Nat} : i ∈ entryIndices ↔ i < 512 := by
  unfold entryIndices
  exact mem_range

theorem entryIndices_nodup : entryIndices.Nodup := by
  unfold entryIndices
  exact nodup_range

section Freewalk

variable {s s' s'' : Sys} {table child page : PageNo} {pages more below : List PageNo} {h i : Nat}

theorem Frees.kernelEnd (frees : Frees s pages s') : s'.kernelEnd = s.kernelEnd := by
  rw [frees.rest]

theorem Frees.trans (first : Frees s pages s') (second : Frees s' more s'') : Frees s (pages ++ more) s'' := by
  refine ⟨?_, fun p outside => ?_, IsTrans.trans _ _ _ first.rest second.rest⟩
  · calc s''.freelist.Perm (more ++ s'.freelist) := second.list
      _ |>.Perm (more ++ (pages ++ s.freelist)) := first.list.append_left more
      _ |>.Perm (pages ++ more ++ s.freelist) := by
        rw [← append_assoc]
        exact perm_append_comm.append_right _
  · rw [mem_append, not_or] at outside
    rw [second.mem p outside.2, first.mem p outside.1]

theorem Frees.touched {pte : Pte} (frees : Frees (s.setPte table i pte) pages s') (member : table ∈ pages) :
    Frees s pages s' := by
  refine ⟨frees.list, fun p outside => ?_, ?_⟩
  · have other : p ≠ table := fun same => outside (same ▸ member)
    rw [frees.mem p outside, mem_setPte, Function.update_of_ne other]
  · rw [MemOnly, frees.rest]
    rfl

theorem kfree_frees (ram : s.InRam page) : ∃ s', Returns (kfree page) s () s' ∧ Frees s [page] s' := by
  refine ⟨s.freed page, returns_kfree.mpr ⟨ram, rfl⟩, List.Perm.refl _, fun p outside => freed_mem ?_, rfl⟩
  simpa using outside

theorem table_not_leaf : Pte.has (pa2pte child ||| PTE_V) (PTE_R ||| PTE_W ||| PTE_X) = false := by
  rw [Pte.has, bne_eq_false_iff_eq]
  refine BitVec.eq_of_getLsbD_eq fun i _ => ?_
  unfold PTE_R PTE_W PTE_X PTE_V
  rw [BitVec.getLsbD_and, BitVec.getLsbD_or, BitVec.getLsbD_or, BitVec.getLsbD_or, getLsbD_pa2pte,
    getLsbD_bit (by decide), getLsbD_bit (by decide), getLsbD_bit (by decide), getLsbD_bit (by decide)]
  by_cases high : 10 ≤ i
  · simp [show i ≠ 1 by omega, show i ≠ 2 by omega, show i ≠ 3 by omega]
  · by_cases zero : i = 0
    · simp [zero]
    · simp [high, zero]

theorem BareAt.congr {node node' : PageNo → List PageNo → Prop} (bare : BareAt s node table i below)
    (entry : s'.pte table i = s.pte table i) (deeper : ∀ child, node child below → node' child below) :
    BareAt s' node' table i below := by
  unfold BareAt
  rw [entry]
  rcases bare with invalid | ⟨child, pointer, small, rest⟩
  · exact .inl invalid
  · exact .inr ⟨child, pointer, small, deeper child rest⟩

theorem Bare.congr (bare : Bare s h table pages) (same : ∀ p ∈ pages, s'.mem p = s.mem p) : Bare s' h table pages := by
  induction h generalizing table pages with
  | zero => exact bare
  | succ h ih =>
    obtain ⟨below, rfl, entries⟩ := bare
    refine ⟨below, rfl, fun i inside => (entries i inside).congr (pte_congr (same table (by simp))) ?_⟩
    intro child rest
    refine ih rest fun p member => same p (mem_append_left _ ?_)
    exact mem_flatMap.mpr ⟨i, mem_entryIndices.mpr inside, member⟩

theorem freewalkLoop_bare {node : PageNo → KernelM Unit} {below : Nat → List PageNo} {rest : List Nat}
    (recurse : ∀ s child pages, Bare s h child pages → pages.Nodup → (∀ p ∈ pages, s.InRam p) →
      ∃ s', Returns (node child) s () s' ∧ Frees s pages s')
    (once : rest.Nodup) (entries : ∀ i ∈ rest, BareAt s (Bare s h) table i (below i))
    (apart : (rest.flatMap below ++ [table]).Nodup) (ram : ∀ p ∈ rest.flatMap below ++ [table], s.InRam p) :
    ∃ s', Returns (freewalkLoop node table rest) s () s' ∧ Frees s (rest.flatMap below ++ [table]) s' := by
  induction rest generalizing s with
  | nil => exact kfree_frees (ram table (by simp))
  | cons i rest ih =>
    rw [flatMap_cons, append_assoc] at apart ram ⊢
    obtain ⟨new, once⟩ := nodup_cons.mp once
    obtain ⟨apartHere, apartRest, disjoint⟩ := nodup_append.mp apart
    rcases entries i mem_cons_self with ⟨invalid, empty⟩ | ⟨child, pointer, small, bare⟩
    · obtain ⟨s', run, frees⟩ := ih once (fun j member => entries j (mem_cons_of_mem _ member)) apartRest
        fun p member => ram p (mem_append_right _ member)
      refine ⟨s', ?_, by rwa [empty]⟩
      rw [freewalkLoop, returns_get_bind, if_neg (by simp [invalid]), returns_failIf_bind]
      exact ⟨by simp [invalid], run⟩
    · obtain ⟨s₁, freed, frees₁⟩ := recurse s child (below i) bare apartHere fun p member =>
        ram p (mem_append_left _ member)
      -- what is left of the tree is not among the pages that went
      have outside : ∀ p ∈ rest.flatMap below ++ [table], p ∉ below i := fun p member gone =>
        disjoint p gone p member rfl
      have still : ∀ p ∈ rest.flatMap below, (s₁.setPte table i 0).mem p = s.mem p := by
        intro p member
        have notTable : p ≠ table := (nodup_append.mp apartRest).2.2 p member table (by simp)
        rw [mem_setPte, Function.update_of_ne notTable]
        exact frees₁.mem p (outside p (mem_append_left _ member))
      have entries' : ∀ j ∈ rest, BareAt (s₁.setPte table i 0) (Bare (s₁.setPte table i 0) h) table j (below j) := by
        intro j member
        have other : j ≠ i := fun same => new (same ▸ member)
        refine (entries j (mem_cons_of_mem _ member)).congr ?_ fun child rest => ?_
        · rw [pte_setPte_index other]
          exact pte_congr (frees₁.mem table (outside table (by simp)))
        · exact rest.congr fun p inside => still p (mem_flatMap.mpr ⟨j, member, inside⟩)
      obtain ⟨s', run, frees⟩ := ih once entries' apartRest fun p member => by
        have here := ram p (mem_append_right _ member)
        unfold Sys.InRam at here ⊢
        rw [← frees₁.kernelEnd] at here
        exact here
      refine ⟨s', ?_, ?_⟩
      · rw [freewalkLoop, returns_get_bind]
        have valid : Pte.has (s.pte table i) PTE_V = true ∧
            Pte.has (s.pte table i) (PTE_R ||| PTE_W ||| PTE_X) = false := by
          rw [pointer]
          exact ⟨has_valid_table, table_not_leaf⟩
        dsimp only
        rw [if_pos valid, pointer, pte2pa_table small]
        exact returns_bind.mpr ⟨(), s₁, freed, returns_modify_bind.mpr run⟩
      · exact frees₁.trans (frees.touched (by simp))

theorem freewalkFrom_bare {depth : Nat} (deep : h ≤ depth) (bare : Bare s h table pages) (apart : pages.Nodup)
    (ram : ∀ p ∈ pages, s.InRam p) : ∃ s', Returns (freewalkFrom depth table) s () s' ∧ Frees s pages s' := by
  induction h generalizing s table pages depth with
  | zero => exact bare.elim
  | succ h ih =>
    obtain ⟨below, rfl, entries⟩ := bare
    obtain ⟨depth, rfl⟩ : ∃ d, depth = d + 1 := ⟨depth - 1, by omega⟩
    refine freewalkLoop_bare ?_ entryIndices_nodup (fun i member => entries i (mem_entryIndices.mp member)) apart ram
    exact fun s child pages bare apart ram => ih (by omega) bare apart ram

end Freewalk

/-- The pages of the subtree at `path`, `h` levels above the leaf tables. -/
def Layout.nodes (g : Layout) (root : PageNo) : Nat → List Nat → List PageNo
  | 0, path => (g.tree root path).toList
  | h + 1, path => entryIndices.flatMap (fun i => g.nodes root h (path ++ [i])) ++ (g.tree root path).toList

def Leafless (g : Layout) (s : Sys) (root : PageNo) : Prop :=
  ∀ path table i, g.tree root path = some table → path.length = 2 → i < 512 → Pte.has (s.pte table i) PTE_V = false

section Uproot

variable {g : Layout} {s s' : Sys} {root table page : PageNo} {path rest : List Nat} {h i : Nat}

theorem mem_nodes : page ∈ g.nodes root h path ↔
    ∃ rest, rest.length ≤ h ∧ (∀ i ∈ rest, i < 512) ∧ g.tree root (path ++ rest) = some page := by
  induction h generalizing path with
  | zero =>
    rw [nodes, Option.mem_toList]
    constructor
    · intro node
      exact ⟨[], le_refl _, by simp, by rwa [append_nil]⟩
    · rintro ⟨rest, short, -, node⟩
      rwa [eq_nil_of_length_eq_zero (Nat.le_zero.mp short), append_nil] at node
  | succ h ih =>
    rw [nodes, mem_append, mem_flatMap, Option.mem_toList]
    constructor
    · rintro (⟨i, member, deeper⟩ | node)
      · obtain ⟨rest, short, inside, node⟩ := ih.mp deeper
        refine ⟨i :: rest, Nat.succ_le_succ short, ?_, by rwa [append_cons]⟩
        intro j here
        rcases mem_cons.mp here with rfl | later
        · exact mem_entryIndices.mp member
        · exact inside j later
      · exact ⟨[], Nat.zero_le _, by simp, by rwa [append_nil]⟩
    · rintro ⟨rest, short, inside, node⟩
      cases rest with
      | nil =>
        rw [append_nil] at node
        exact .inr node
      | cons i rest =>
        refine .inl ⟨i, mem_entryIndices.mpr (inside i (by simp)), ih.mpr ⟨rest, Nat.le_of_succ_le_succ short, ?_, ?_⟩⟩
        · exact fun j member => inside j (mem_cons_of_mem _ member)
        · rwa [← append_cons]

theorem nodes_congr {g' : Layout} (same : g'.tree = g.tree) : g'.nodes root h path = g.nodes root h path := by
  induction h generalizing path with
  | zero => rw [nodes, nodes, same]
  | succ h ih => rw [nodes, nodes, same, funext fun i => ih]

section

variable (tables : Tables g s)

include tables

theorem nodes_nodup : (g.nodes root h path).Nodup := by
  have single : ∀ node : Option PageNo, node.toList.Nodup := by
    intro node
    cases node <;> simp
  induction h generalizing path with
  | zero => exact single _
  | succ h ih =>
    refine nodup_append.mpr ⟨nodup_flatMap.mpr ⟨fun i _ => ih, ?_⟩, single _, ?_⟩
    · refine entryIndices_nodup.imp fun {i j} other => ?_
      intro p first second
      obtain ⟨rest, -, -, node⟩ := mem_nodes.mp first
      obtain ⟨rest', -, -, node'⟩ := mem_nodes.mp second
      have same := (tables.node_unique node node').2
      simp only [append_assoc, singleton_append] at same
      exact other (List.cons.inj (append_cancel_left same)).1
    · rintro p first q last rfl
      obtain ⟨i, -, deeper⟩ := mem_flatMap.mp first
      obtain ⟨rest, -, -, node⟩ := mem_nodes.mp deeper
      have same := congrArg List.length (tables.node_unique node (Option.mem_toList.mp last)).2
      simp only [length_append, length_singleton] at same
      omega

theorem Tables.nodes_empty (absent : g.tree root path = none) : g.nodes root h path = [] := by
  refine eq_nil_iff_forall_not_mem.mpr fun p member => ?_
  obtain ⟨rest, -, -, node⟩ := mem_nodes.mp member
  rw [tables.none_below absent] at node
  contradiction

theorem Tables.bare (leafless : Leafless g s root) (node : g.tree root path = some table)
    (height : path.length + h = 2) : Bare s (h + 1) table (g.nodes root h path) := by
  induction h generalizing path table with
  | zero =>
    refine ⟨fun _ => [], by simp [nodes, node], fun i inside => .inl ⟨?_, rfl⟩⟩
    exact leafless path table i node height inside
  | succ h ih =>
    refine ⟨fun i => g.nodes root h (path ++ [i]), by simp [nodes, node], fun i inside => ?_⟩
    have points := tables.points root path table i node (by omega) inside
    cases child : g.tree root (path ++ [i]) with
    | none =>
      rw [child] at points
      exact .inl ⟨points, tables.nodes_empty child⟩
    | some page =>
      rw [child] at points
      refine .inr ⟨page, points, tables.small _ _ _ child, ih child ?_⟩
      rw [length_append, length_singleton]
      omega

theorem freewalk_frees (known : g.tree root [] = some root) (leafless : Leafless g s root)
    (ram : ∀ p ∈ g.nodes root 2 [], s.InRam p) :
    ∃ s', Returns (freewalk root) s () s' ∧ Frees s (g.nodes root 2 []) s' :=
  freewalkFrom_bare (by omega) (tables.bare leafless known rfl) (nodes_nodup tables) ram

end

theorem points_congr {child : Option PageNo} (same : s'.mem table = s.mem table) (points : Points s table i child) :
    Points s' table i child := by
  cases child with
  | some page => exact (pte_congr same).trans points
  | none => exact (congrArg (Pte.has · PTE_V) (pte_congr same)).trans points

end Uproot

end DeisoXv6
