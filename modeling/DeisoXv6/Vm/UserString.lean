import DeisoXv6.Vm.CopyExact

/-! Strings of a process. copyinstr reads page by page up to a null byte; fetchstr returns where it is. -/

set_option autoImplicit false

namespace DeisoXv6

open Semantics Bytes

def strlen (s : List UInt8) : Nat := (s.takeWhile (· ≠ 0)).length

def fetchstr (addr max : Nat) : KernelM (List UInt8 × Option Nat) := do
  let s ← get
  let buf ← copyinstr (s.proc s.current).pagetable addr max
  pure (buf.1, if buf.2 then some (strlen buf.1) else none)

/-- A copy from `va` on comes to `a` and gets the page there. -/
def Sys.Accessible (s : Sys) (root : PageNo) (va a : Nat) : Prop :=
  s.Reaches root (va / PGSIZE) (a / PGSIZE) ∧ ¬s.Blocked root (va / PGSIZE) (a / PGSIZE)

/-- The process has a string of `k` bytes at `va`, with its null byte among the first `max`. -/
structure Sys.StringAt (s : Sys) (root : PageNo) (va max k : Nat) : Prop where
  within : k < max
  null : s.byteAt root (va + k) = 0
  earlier : ∀ j < k, s.byteAt root (va + j) ≠ 0
  pages : ∀ i ≤ k, s.Accessible root va (va + i)

section Blocked

variable {g g' : Layout} {s s' t : Sys} {root page : PageNo} {wild : Set Nat} {fuel va max : Nat}

theorem Sys.Blocked.reaches {p q r : Nat} (blocked : s.Blocked root p r) (before : q < r) : s.Reaches root p q := by
  refine ⟨fun k low high => blocked.opened k low (by omega), (need_mono fun k member => ?_).trans blocked.memory.le⟩
  rw [Finset.mem_Icc] at member
  exact Finset.mem_Ico.mpr ⟨member.1, by omega⟩

theorem copyinstrLoop_blocked (own : OwnPages g s root wild) (before : ∀ q ∈ wild, q < va / PGSIZE)
    (enough : max ≤ fuel) : (∃ e, Fails (copyinstrLoop root fuel va max) s e) ↔
      ∃ i < max, s.Blocked root (va / PGSIZE) ((va + i) / PGSIZE) ∧ ∀ j < i, s.byteAt root (va + j) ≠ 0 := by
  have safe := own.safe before
  constructor
  · rintro ⟨e, fails⟩
    obtain ⟨stops, clean⟩ := fails_copyinstrLoop fails
    classical
    have some := (copyinLoop_blocked own before enough).mp ⟨e, stops⟩
    obtain ⟨small, blocked⟩ := Nat.find_spec some
    refine ⟨Nat.find some, small, blocked, fun j less null => ?_⟩
    -- the copy of the bytes before the first page that is blocked returns
    have calm : ∀ k < j + 1, ¬s.Blocked root (va / PGSIZE) ((va + k) / PGSIZE) := fun k le wrong =>
      Nat.find_min some (m := k) (by omega) ⟨by omega, wrong⟩
    rcases returns_or_fails (copyinLoop root fuel va (j + 1)) s with ⟨⟨bytes, ok⟩, t, run⟩ | fails
    · obtain ⟨count, whole, bound, same⟩ :=
        copyinLoop_count own.tables own.known safe own.files.solid (by omega) run
      have page : (va + j) / PGSIZE < (va + Nat.find some) / PGSIZE := by
        refine Nat.lt_of_le_of_ne (Nat.div_le_div_right (by omega)) fun same => calm j (by omega) ?_
        rwa [same]
      have inside := (count j (by omega)).mpr (blocked.reaches page)
      have done : ok = true := whole.mpr (by dsimp only at *; omega)
      subst done
      exact clean (j + 1) (by omega) bytes t run (null ▸ same j inside ▸ getD_mem inside)
    · obtain ⟨k, le, wrong⟩ := (copyinLoop_blocked own before (by omega)).mp fails
      exact calm k le wrong
  · rintro ⟨i, small, blocked, nonzero⟩
    rcases returns_or_fails (copyinstrLoop root fuel va max) s with ⟨r, t, run⟩ | fails
    · have long : ∀ len bytes, i < len → len ≤ fuel → ¬Returns (copyinLoop root fuel va len) s bytes t :=
        fun len bytes less short copied =>
          have ⟨_, fails⟩ := (copyinLoop_blocked own before short).mpr ⟨i, less, blocked⟩
          copied.not_fails fails
      obtain ⟨count, null, bound, -⟩ := copyinstrLoop_count own.tables own.known safe own.files.solid enough run
      rcases copyinstrLoop_copyin run with ⟨found, -, copied, -⟩ | ⟨-, -, ok, copied⟩
      · obtain ⟨j, less, zero⟩ := null.mp found
        have late : i ≤ j := Nat.le_of_not_lt fun early => nonzero j early zero
        exact absurd copied (long _ _ (by omega) (by omega))
      · exact absurd copied (long _ _ small enough)
    · exact fails

end Blocked

section Strings

variable {g : Layout} {s t : Sys} {root : PageNo} {va max k : Nat}

theorem Sys.StringAt.returns (own : OwnPages g s root ∅) (string : s.StringAt root va max k) :
    ∃ t, Returns (copyinstr root va max) s (slice (s.byteAt root) va (k + 1), true) t := by
  have before : ∀ q ∈ (∅ : Set Nat), q < va / PGSIZE := fun q inside => absurd inside (Set.notMem_empty q)
  rcases returns_or_fails (copyinstr root va max) s with ⟨r, t, run⟩ | fails
  · obtain ⟨count, null, bound, bytes⟩ :=
      copyinstrLoop_count own.tables own.known (own.safe before) own.files.solid (le_rfl) run
    have reads : k < r.1.length := (count k string.within).mpr ⟨(string.pages k (Nat.le_refl k)).1, string.earlier⟩
    have stops : r.1.length ≤ k + 1 := by
      by_contra more
      have next := (count (k + 1) (by omega)).mp (by omega)
      exact next.2 k (Nat.lt_succ_self k) string.null
    have length : r.1.length = k + 1 := by omega
    have text : r.1 = slice (s.byteAt root) va (k + 1) := eq_slice length fun i small => bytes i (by omega)
    have pair : r = (slice (s.byteAt root) va (k + 1), true) := Prod.ext text (null.mpr ⟨k, reads, string.null⟩)
    exact ⟨t, pair ▸ run⟩
  · obtain ⟨i, small, blocked, nonzero⟩ := (copyinstrLoop_blocked own before (le_rfl)).mp fails
    have inside : i ≤ k := Nat.le_of_not_lt fun past => nonzero k past string.null
    exact absurd blocked (string.pages i inside).2

theorem Sys.StringAt.of_returns {dst : List UInt8} (own : OwnPages g s root ∅)
    (run : Returns (copyinstr root va max) s (dst, true) t) : ∃ k, s.StringAt root va max k := by
  have before : ∀ q ∈ (∅ : Set Nat), q < va / PGSIZE := fun q inside => absurd inside (Set.notMem_empty q)
  obtain ⟨count, null, bound, -⟩ :=
    copyinstrLoop_count own.tables own.known (own.safe before) own.files.solid (le_rfl) run
  obtain ⟨k, inside, zero⟩ := null.mp rfl
  dsimp only at count bound inside
  have reached (i : Nat) (le : i ≤ k) := (count i (by omega)).mp (by omega)
  refine ⟨k, by omega, zero, (reached k (Nat.le_refl k)).2, fun i le => ⟨(reached i le).1, fun blocked => ?_⟩⟩
  obtain ⟨e, fails⟩ := (copyinstrLoop_blocked own before (Nat.le_refl max)).mpr
    ⟨i, by omega, blocked, (reached i le).2⟩
  exact run.not_fails fails

theorem strlen_slice (nonzero : ∀ j < k, s.byteAt root (va + j) ≠ 0) (null : s.byteAt root (va + k) = 0) :
    strlen (slice (s.byteAt root) va (k + 1)) = k := by
  have text : ∀ x ∈ slice (s.byteAt root) va k, decide (x ≠ 0) = true := by
    intro x member
    obtain ⟨j, less, rfl⟩ := mem_slice.mp member
    exact decide_eq_true (nonzero j less)
  rw [strlen, slice_add, List.takeWhile_append_of_pos text, slice_succ, null]
  simp [slice]

theorem returns_fetchstr {r : List UInt8 × Option Nat} : Returns (fetchstr va max) s r t ↔
    ∃ buf, Returns (copyinstr (s.proc s.current).pagetable va max) s buf t ∧
      r = (buf.1, if buf.2 then some (strlen buf.1) else none) := by
  unfold fetchstr
  rw [returns_get_bind, returns_bind]
  constructor
  · rintro ⟨buf, t', run, rest⟩
    obtain ⟨rfl, rfl⟩ := returns_pure.mp rest
    exact ⟨buf, run, rfl⟩
  · rintro ⟨buf, run, rfl⟩
    exact ⟨buf, t, run, returns_pure.mpr ⟨rfl, rfl⟩⟩

/-- What copyinstr and fetchstr say of the string at `va`. -/
structure FindsString (s : Sys) (root : PageNo) (va max : Nat) : Prop where
  found : (∃ dst t, Returns (copyinstr root va max) s (dst, true) t) ↔ ∃ k, s.StringAt root va max k
  text : ∀ k dst t, s.StringAt root va max k → Returns (copyinstr root va max) s (dst, true) t →
    dst = slice (s.byteAt root) va (k + 1)
  bound : ∀ r t, Returns (copyinstr root va max) s r t → r.1.length ≤ max
  length : (s.proc s.current).pagetable = root → ∀ k,
    (∃ buf t, Returns (fetchstr va max) s (buf, some k) t) ↔ s.StringAt root va max k

theorem finds_string (own : OwnPages g s root ∅) : FindsString s root va max where
  found := ⟨fun ⟨_, _, run⟩ => Sys.StringAt.of_returns own run, fun ⟨_, string⟩ => ⟨_, string.returns own⟩⟩
  text := by
    intro k dst t string run
    obtain ⟨t', run'⟩ := string.returns own
    exact congrArg Prod.fst (run.unique run').1
  bound := by
    intro r t run
    exact (copyinstrLoop_count own.tables own.known
      (own.safe fun q inside => absurd inside (Set.notMem_empty q)) own.files.solid (le_rfl) run).2.2.1
  length := by
    rintro rfl k
    constructor
    · rintro ⟨buf, t, run⟩
      obtain ⟨⟨dst, ok⟩, copied, result⟩ := returns_fetchstr.mp run
      cases ok with
      | false => exact absurd (congrArg Prod.snd result) (by simp)
      | true =>
        obtain ⟨m, string⟩ := Sys.StringAt.of_returns own copied
        obtain ⟨t', run'⟩ := string.returns own
        have same : dst = slice (s.byteAt (s.proc s.current).pagetable) va (m + 1) :=
          congrArg Prod.fst (copied.unique run').1
        have length := congrArg Prod.snd result
        rw [if_pos rfl] at length
        rw [Option.some.inj length, same, strlen_slice string.earlier string.null]
        exact string
    · intro string
      obtain ⟨t, run⟩ := string.returns own
      refine ⟨slice (s.byteAt (s.proc s.current).pagetable) va (k + 1), t, returns_fetchstr.mpr ⟨_, run, ?_⟩⟩
      rw [if_pos rfl, strlen_slice string.earlier string.null]

end Strings

/-- The empty string on a page of the heap that is not mapped yet. -/
theorem finds_string_on_heap : FindsString heapProcess emptyRoot 5000 10 ∧
    ∃ t, Returns (copyinstr emptyRoot 5000 10) heapProcess ([0], true) t :=
  ⟨finds_string heapProcess_own, _, returns_final (by decide +kernel)⟩

end DeisoXv6
