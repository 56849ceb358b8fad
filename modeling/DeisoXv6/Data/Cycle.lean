import Mathlib.Data.Finset.Max

/-! Circular lists in ascending order: every node points at the next larger one, and the largest at the smallest.
A list is given by its nodes; the order decides the links. -/

set_option autoImplicit false

namespace Cycle

open Finset

variable {α : Type*} [LinearOrder α]

/-- `c` is passed on the way up from `a` to `b`, around the end when `b` is not above `a`. -/
def Between (a b c : α) : Prop := (a < c ∧ c < b) ∨ (b ≤ a ∧ (a < c ∨ c < b))

instance (a b c : α) : Decidable (Between a b c) := inferInstanceAs (Decidable (_ ∨ _))

/-- `next` links the nodes in a circle that skips none of them. -/
structure Cyclic (nodes : Finset α) (next : α → α) : Prop where
  closed : ∀ a ∈ nodes, next a ∈ nodes
  adjacent : ∀ a ∈ nodes, ∀ c ∈ nodes, ¬ Between a (next a) c

variable {nodes : Finset α} {next next' : α → α} {a b c p q x : α}

theorem Between.of_after (outer : Between a b x) (inner : Between x b c) : Between a b c := by
  unfold Between at *
  grind

theorem Between.of_before (outer : Between a b x) (inner : Between a x c) : Between a b c := by
  unfold Between at *
  grind

theorem not_between_left (a b : α) : ¬ Between a b a := by
  unfold Between
  grind

theorem not_between_right (a b : α) : ¬ Between a b b := by
  unfold Between
  grind

theorem Between.split (between : Between p b c) (middle : ¬ Between q b p) : Between p q c ∨ c = q ∨ Between q b c := by
  unfold Between at *
  grind

namespace Cyclic

theorem singleton (fixed : next a = a) : Cyclic {a} next := by
  constructor
  · intro b mem
    cases mem_singleton.mp mem
    rw [fixed]
    exact mem_singleton_self a
  · intro b mem c mem'
    cases mem_singleton.mp mem
    cases mem_singleton.mp mem'
    exact not_between_left _ _

section

variable (cyclic : Cyclic nodes next)

include cyclic

theorem congr (same : ∀ a ∈ nodes, next' a = next a) : Cyclic nodes next' := by
  constructor
  · intro a mem
    rw [same a mem]
    exact cyclic.closed a mem
  · intro a mem
    rw [same a mem]
    exact cyclic.adjacent a mem

theorem next_injective (mem : a ∈ nodes) (mem' : b ∈ nodes) (same : next a = next b) : a = b := by
  have first := cyclic.adjacent a mem b mem'
  have second := cyclic.adjacent b mem' a mem
  rw [same] at first
  unfold Between at first second
  grind

theorem between_unique (mem : a ∈ nodes) (mem' : p ∈ nodes) (here : Between a (next a) x)
    (there : Between p (next p) x) : a = p := by
  have first := cyclic.adjacent a mem p mem'
  have second := cyclic.adjacent p mem' a mem
  have third := cyclic.adjacent a mem (next p) (cyclic.closed p mem')
  have fourth := cyclic.adjacent p mem' (next a) (cyclic.closed a mem)
  unfold Between at *
  grind

theorem next_ne (mem : p ∈ nodes) (mem' : q ∈ nodes) (other : p ≠ q) : next q ≠ q := by
  intro fixed
  have skipped := cyclic.adjacent q mem' p mem
  rw [fixed] at skipped
  unfold Between at skipped
  grind

end

theorem insert [DecidableEq α] (cyclic : Cyclic nodes next) (mem : p ∈ nodes) (between : Between p (next p) x)
    (new : next' x = next p) (link : next' p = x) (others : ∀ a ∈ nodes, a ≠ p → next' a = next a) :
    Cyclic (insert x nodes) next' := by
  have target := cyclic.closed p mem
  constructor
  · intro a member
    rcases mem_insert.mp member with rfl | old
    · rw [new]
      exact mem_insert_of_mem target
    · by_cases same : a = p
      · rw [same, link]
        exact mem_insert_self x nodes
      · rw [others a old same]
        exact mem_insert_of_mem (cyclic.closed a old)
  · intro a member c member'
    rcases mem_insert.mp member with rfl | old
    · rw [new]
      rcases mem_insert.mp member' with rfl | old'
      · exact not_between_left _ _
      · exact fun inner => cyclic.adjacent p mem c old' (between.of_after inner)
    · by_cases same : a = p
      · rw [same, link]
        rcases mem_insert.mp member' with rfl | old'
        · exact not_between_right _ _
        · exact fun inner => cyclic.adjacent p mem c old' (between.of_before inner)
      · rw [others a old same]
        rcases mem_insert.mp member' with rfl | old'
        · exact fun here => same (cyclic.between_unique old mem here between)
        · exact cyclic.adjacent a old c old'

theorem erase [DecidableEq α] (cyclic : Cyclic nodes next) (mem : p ∈ nodes) (link : next p = q) (other : p ≠ q)
    (skip : next' p = next q) (others : ∀ a ∈ nodes, a ≠ p → a ≠ q → next' a = next a) : Cyclic (nodes.erase q) next' := by
  have mem' : q ∈ nodes := link ▸ cyclic.closed p mem
  constructor
  · intro a member
    obtain ⟨off, old⟩ := mem_erase.mp member
    by_cases same : a = p
    · rw [same, skip]
      exact mem_erase.mpr ⟨cyclic.next_ne mem mem' other, cyclic.closed q mem'⟩
    · rw [others a old same off]
      refine mem_erase.mpr ⟨?_, cyclic.closed a old⟩
      exact fun hit => same (cyclic.next_injective old mem (hit.trans link.symm))
  · intro a member c member'
    obtain ⟨off, old⟩ := mem_erase.mp member
    obtain ⟨off', old'⟩ := mem_erase.mp member'
    by_cases same : a = p
    · rw [same, skip]
      intro passed
      rcases passed.split (cyclic.adjacent q mem' p mem) with first | here | second
      · exact cyclic.adjacent p mem c old' (link ▸ first)
      · exact off' here
      · exact cyclic.adjacent q mem' c old' second
    · rw [others a old same off]
      exact cyclic.adjacent a old c old'

theorem exists_between (cyclic : Cyclic nodes next) (nonempty : nodes.Nonempty) (off : x ∉ nodes) :
    ∃ p ∈ nodes, Between p (next p) x := by
  by_cases below : ∃ a ∈ nodes, a < x
  · have some : (nodes.filter (· < x)).Nonempty := by
      obtain ⟨a, mem, less⟩ := below
      exact ⟨a, mem_filter.mpr ⟨mem, less⟩⟩
    obtain ⟨mem, less⟩ := mem_filter.mp (max'_mem _ some)
    have largest : ∀ c ∈ nodes, c < x → c ≤ (nodes.filter (· < x)).max' some :=
      fun c mem' less' => le_max' _ c (mem_filter.mpr ⟨mem', less'⟩)
    refine ⟨_, mem, ?_⟩
    have target := cyclic.closed _ mem
    have bound := largest _ target
    have other : next ((nodes.filter (· < x)).max' some) ≠ x := fun hit => off (hit ▸ target)
    unfold Between
    grind
  · have above : ∀ a ∈ nodes, x < a := by
      intro a mem
      rcases lt_trichotomy x a with less | same | greater
      · exact less
      · exact absurd (same ▸ mem) off
      · exact absurd ⟨a, mem, greater⟩ below
    have mem := max'_mem _ nonempty
    refine ⟨_, mem, .inr ⟨le_max' _ _ (cyclic.closed _ mem), .inr (above _ (cyclic.closed _ mem))⟩⟩

theorem existsUnique_wrap (cyclic : Cyclic nodes next) (nonempty : nodes.Nonempty) : ∃! a, a ∈ nodes ∧ next a ≤ a := by
  have mem := max'_mem _ nonempty
  refine ⟨_, ⟨mem, le_max' _ _ (cyclic.closed _ mem)⟩, ?_⟩
  rintro a ⟨mem', wraps⟩
  have below := le_max' _ a mem'
  have skipped := cyclic.adjacent a mem' _ mem
  unfold Between at skipped
  grind

def way (nodes : Finset α) (a b : α) : Finset α := nodes.filter (Between a b)

theorem way_next (cyclic : Cyclic nodes next) (mem : a ∈ nodes) (mem' : b ∈ nodes) (short : next a ≠ b) :
    (way nodes (next a) b).card < (way nodes a b).card := by
  have passed : Between a b (next a) := by
    have skipped := cyclic.adjacent a mem b mem'
    unfold Between at *
    grind
  apply card_lt_card
  refine ⟨?_, ?_⟩
  · intro c member
    obtain ⟨old, inner⟩ := mem_filter.mp member
    exact mem_filter.mpr ⟨old, passed.of_after inner⟩
  · intro all
    have member := all (mem_filter.mpr ⟨cyclic.closed a mem, passed⟩)
    exact not_between_left _ _ (mem_filter.mp member).2

theorem reach (cyclic : Cyclic nodes next) (mem : a ∈ nodes) (mem' : b ∈ nodes) : ∃ k ≤ nodes.card, next^[k] a = b := by
  have steps : ∃ k ≤ (way nodes a b).card + 1, next^[k] a = b := by
    induction size : (way nodes a b).card using Nat.strongRecOn generalizing a with
    | ind n ih =>
      by_cases same : a = b
      · exact ⟨0, Nat.zero_le _, same⟩
      · by_cases short : next a = b
        · exact ⟨1, Nat.le_add_left _ _, short⟩
        · have fewer := cyclic.way_next mem mem' short
          obtain ⟨k, few, hit⟩ := ih _ (size ▸ fewer) (cyclic.closed a mem) rfl
          exact ⟨k + 1, by omega, hit⟩
  obtain ⟨k, few, hit⟩ := steps
  have fewer : (way nodes a b).card < nodes.card := by
    apply card_lt_card
    refine ⟨filter_subset _ _, ?_⟩
    intro all
    exact not_between_left _ _ (mem_filter.mp (all mem)).2
  exact ⟨k, by omega, hit⟩

theorem iterate_mem (cyclic : Cyclic nodes next) (mem : a ∈ nodes) (k : Nat) : next^[k] a ∈ nodes := by
  induction k generalizing a with
  | zero => exact mem
  | succ k ih => exact ih (cyclic.closed a mem)

end Cyclic

end Cycle
