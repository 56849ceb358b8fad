import DeisoXv6.Vm.FreeMem
import DeisoXv6.Vm.Mmap
import DeisoXv6.Vm.PageFault

/-! sys_mmap from its raw arguments on: where the mapping goes, and what the descriptor may name. -/

set_option autoImplicit false

namespace DeisoXv6

open List Function Semantics VmaTable

/-- What the user passes; sys_mmap does not use `addr`. -/
structure MmapArgs where
  addr : UInt64
  length : UInt64
  prot : BitVec 32
  flags : BitVec 32
  fd : BitVec 32
  offset : UInt64

def MmapArgs.Inside (args : MmapArgs) : Prop := 0 ≤ args.fd.toInt ∧ args.fd.toInt < NOFILE

instance (args : MmapArgs) : Decidable args.Inside := inferInstanceAs (Decidable (_ ∧ _))

def MmapArgs.index (args : MmapArgs) (inside : args.Inside) : Fin NOFILE :=
  ⟨args.fd.toInt.toNat, by
    obtain ⟨low, high⟩ := inside
    omega⟩

def MmapArgs.call (args : MmapArgs) (f : FileId) (file : File) : VmaTable.Mmap where
  file := f
  readable := file.readable
  writable := file.writable
  length := args.length
  prot := args.prot
  flags := args.flags
  offset := args.offset

def sysMmap (args : MmapArgs) : KernelM (Option Nat) := do
  let s ← get
  -- f = p->ofile[fd], with any int
  if inside : args.Inside then
    match (s.proc s.current).ofile (args.index inside) with
    | none => pure none
    | some f => match s.vmas.mmap s.current (args.call f (s.file f)) with
      | .error fault => throw fault
      | .ok (none, _) => pure none
      | .ok (some start, vmas) => do
        filedup f
        modify (·.setVmas vmas)
        pure (some start)
  else throw .outOfBounds

namespace VmaTable

def Fits (t : VmaTable) (n : Nat) (a b : VmaRef) : Prop :=
  (t.get b).start + (t.get b).length + n ≤ (t.get a).start

/-- Two consecutive elements have `n` bytes between them. -/
def HasGap (t : VmaTable) (n : Nat) (refs : List VmaRef) : Prop :=
  ∃ pre a b post, refs = pre ++ a :: b :: post ∧ t.Fits n a b

end VmaTable

section Gaps

variable {t : VmaTable} {a b it : VmaRef} {refs pre : List VmaRef} {length n : Nat}

theorem hasGap_cons : t.HasGap n (a :: b :: refs) ↔ t.Fits n a b ∨ t.HasGap n (b :: refs) := by
  constructor
  · rintro ⟨pre, x, y, post, shape, fits⟩
    cases pre with
    | nil =>
      cases shape
      exact .inl fits
    | cons z pre =>
      obtain ⟨rfl, rest⟩ := List.cons.inj shape
      exact .inr ⟨pre, x, y, post, rest, fits⟩
  · rintro (fits | ⟨pre, x, y, post, shape, fits⟩)
    · exact ⟨[], a, b, refs, rfl, fits⟩
    · exact ⟨a :: pre, x, y, post, congrArg (a :: ·) shape, fits⟩

theorem not_hasGap_single : ¬t.HasGap n [a] := by
  rintro ⟨pre, x, y, post, shape, -⟩
  have short := congrArg List.length shape
  simp only [length_append, length_cons, length_nil] at short
  omega

theorem availableSpace_iff (upper : (t.get a).region.Placed) (lower : (t.get b).region.Placed)
    (below : Below (t.get a).region (t.get b).region) (bounded : (t.get a).start ≤ RESERVED)
    (short : length ≤ 2 ^ 64 - PGSIZE) : t.availableSpace a b ≥ pgroundup length ↔ t.Fits (pgroundup length) a b := by
  have aligned : (t.get a).start % PGSIZE = 0 := upper.aligned
  have lowest : pageUp ((t.get b).start + (t.get b).length) ≤ (t.get a).start := below
  unfold RESERVED MAXVA at bounded
  unfold VmaTable.availableSpace VmaTable.Fits
  have ends := (le_pageUp ((t.get b).start + (t.get b).length)).trans lowest
  rw [Vma.stop_eq lower, pgrounddown_eq aligned, pgroundup_eq short,
    pgroundup_eq (show (t.get b).start + (t.get b).length ≤ 2 ^ 64 - PGSIZE by unfold PGSIZE; omega),
    sub64_eq lowest (by omega)]
  have whole : pageUp length % PGSIZE = 0 := Nat.mul_mod_left ..
  constructor
  · intro room
    have fits := le_pageUp ((t.get b).start + (t.get b).length)
    omega
  · intro fits
    -- the start above and the length are whole pages, and so the rounded end fits as well
    have up : pageUp ((t.get b).start + (t.get b).length) ≤ (t.get a).start - pageUp length := by
      refine pageUp_le ?_ (by omega)
      rw [← Nat.mod_add_div (t.get a).start PGSIZE, ← Nat.mod_add_div (pageUp length) PGSIZE, aligned, whole,
        Nat.zero_add, Nat.zero_add, ← Nat.mul_sub, Nat.mul_mod_right]
    omega

theorem mmapGap_cases (wf : WellFormed (t.regions (pre ++ refs))) (short : length ≤ 2 ^ 64 - PGSIZE) :
    (t.mmapGap length refs = none ∧ ¬t.HasGap (pgroundup length) refs) ∨
      ∃ front it next post, refs = front ++ it :: next :: post ∧ t.mmapGap length refs = some it ∧
        t.Fits (pgroundup length) it next ∧ ¬t.HasGap (pgroundup length) (front ++ [it]) := by
  induction refs generalizing pre with
  | nil => exact .inl ⟨rfl, fun ⟨_, _, _, _, shape, _⟩ => by simp at shape⟩
  | cons a rest ih =>
    cases rest with
    | nil => exact .inl ⟨rfl, not_hasGap_single⟩
    | cons b rest =>
      have whole := wf
      rw [regions_append, regions_cons, regions_cons] at whole
      have here := availableSpace_iff (whole.placed _ (by simp)) (whole.placed _ (by simp)) whole.last_below
        (whole.start_le (t.get a).region (by simp)) short
      unfold mmapGap
      by_cases fits : t.Fits (pgroundup length) a b
      · rw [if_pos (here.mpr fits)]
        exact .inr ⟨[], a, b, rest, rfl, rfl, fits, not_hasGap_single⟩
      · rw [if_neg (mt here.mp fits)]
        rw [append_cons] at wf
        rcases ih wf with ⟨missed, gaps⟩ | ⟨front, it, next, post, shape, found, room, gaps⟩
        · exact .inl ⟨missed, fun some => (hasGap_cons.mp some).elim fits gaps⟩
        · refine .inr ⟨a :: front, it, next, post, congrArg (a :: ·) shape, found, room, ?_⟩
          cases front with
          | nil =>
            obtain ⟨rfl, -⟩ := List.cons.inj shape
            exact fun some => (hasGap_cons.mp some).elim fits gaps
          | cons c front =>
            obtain ⟨rfl, -⟩ := List.cons.inj shape
            exact fun some => (hasGap_cons.mp some).elim fits gaps

end Gaps

/-- A mapping of `n` bytes, `pages` rounded up, is at `r`: below `it`, the element above the highest gap
that fits, in slot `i`. -/
structure MmapPlaced (args : MmapArgs) (f : FileId) (s : Sys) (refs : List VmaRef) (r : Nat) (s' : Sys) : Prop where
  aligned : r % PGSIZE = 0
  disjoint : ∀ q ∈ refs, (s.vmas.get q).region.pageEnd ≤ r ∨ r + pgroundup args.length.toNat ≤ (s.vmas.get q).start
  inserted : ∃ pre it next post i, refs = pre ++ it :: next :: post ∧ (s.vmas.slot i).used = false ∧
    s.vmas.Fits (pgroundup args.length.toNat) it next ∧ ¬s.vmas.HasGap (pgroundup args.length.toNat) (pre ++ [it]) ∧
    r + pgroundup args.length.toNat = (s.vmas.get it).start ∧
    s'.vmas.refs s.current = .ok (pre ++ it :: .slot i :: next :: post) ∧
    s'.vmas.get (.slot i) = ⟨true, r, args.length.toNat, args.length.toNat, some f, args.offset.toNat, args.prot,
      args.flags, (s.vmas.get it).next⟩ ∧
    s'.vmas.get it = { s.vmas.get it with next := some i } ∧
    ∀ q, q ≠ it → q ≠ .slot i → s'.vmas.get q = s.vmas.get q
  file : s'.file f = { s.file f with ref := (s.file f).ref + 1 }
  rest : s' = { s with vmas := s'.vmas, file := update s.file f (s'.file f) }
  heap : s'.vmas.heap = s.vmas.heap

variable {p : ProcId} {call : VmaTable.Mmap} {v : Vma} {i : VmaId} {file : File}

section Placement

variable {args : MmapArgs} {f : FileId} {s : Sys} {live : ProcId → Bool} {lists : ProcId → List VmaRef}

theorem returns_sysMmap {a : Option Nat} {s' : Sys} (inside : args.Inside)
    (opened : (s.proc s.current).ofile (args.index inside) = some f) : Returns (sysMmap args) s a s' ↔
      (a = none ∧ s' = s ∧ ∃ t, s.vmas.mmap s.current (args.call f (s.file f)) = .ok (none, t)) ∨
      ∃ start t, s.vmas.mmap s.current (args.call f (s.file f)) = .ok (some start, t) ∧ 1 ≤ (s.file f).ref ∧
        a = some start ∧ s' = (s.setFile f { s.file f with ref := (s.file f).ref + 1 }).setVmas t := by
  unfold sysMmap
  rw [returns_get_bind, dif_pos inside, opened]
  dsimp only
  cases s.vmas.mmap s.current (args.call f (s.file f)) with
  | error fault => simp
  | ok result =>
    obtain ⟨start, t⟩ := result
    cases start with
    | none => simp
    | some start =>
      constructor
      · intro run
        obtain ⟨_, t', dup, run⟩ := returns_bind.mp run
        obtain ⟨held, rfl⟩ := returns_filedup.mp dup
        rw [returns_modify_bind] at run
        obtain ⟨rfl, rfl⟩ := returns_pure.mp run
        exact .inr ⟨start, t, rfl, held, rfl, rfl⟩
      · rintro (⟨-, -, _, wrong⟩ | ⟨_, _, same, held, rfl, rfl⟩)
        · cases wrong
        · cases same
          exact returns_bind.mpr ⟨(), _, returns_filedup.mpr ⟨held, rfl⟩, returns_modify_bind.mpr (returns_pure.mpr ⟨rfl, rfl⟩)⟩

theorem mmap_eq {t : VmaTable} {refs : List VmaRef} (permitted : call.permitted = true) (list : t.refs p = .ok refs) :
    t.mmap p call = match t.mmapGap call.length.toNat refs, t.vmaAlloc with
      | some it, some i => .ok (some (call.vma (t.get it)).start,
          (t.modify (fun _ => call.vma (t.get it)) (.slot i)).setNext it (some i))
      | _, _ => .ok (none, t) := by
  unfold VmaTable.mmap
  rw [if_neg (by simp [permitted])]
  exact list ▸ rfl

theorem vmaAlloc_eq_none {t : VmaTable} : t.vmaAlloc = none ↔ ∀ i, (t.slot i).used = true := by
  unfold VmaTable.vmaAlloc
  simp

theorem pageUp_add {a n : Nat} (aligned : a % PGSIZE = 0) : pageUp (a + n) = a + pageUp n := by
  unfold PGSIZE at aligned
  unfold pageUp PGSIZE
  omega

theorem mmap_start {n : Nat} (upper : v.region.Placed) (bounded : v.start ≤ RESERVED)
    (fits : n + pgroundup call.length.toNat ≤ v.start) :
    (call.vma v).start + pgroundup call.length.toNat = v.start := by
  have aligned : v.start % PGSIZE = 0 := upper.aligned
  unfold RESERVED MAXVA at bounded
  have start : (call.vma v).start = v.start - pgroundup call.length.toNat := by
    unfold VmaTable.Mmap.vma
    rw [pgrounddown_eq aligned]
    exact sub64_eq (by omega) (by omega)
  omega

theorem mmapPlaced {pre post : List VmaRef} {it next : VmaRef}
    (listed : Listed ⟨s.vmas, live⟩ lists s.current) (shape : lists s.current = pre ++ it :: next :: post)
    (short : args.length.toNat ≤ 2 ^ 64 - PGSIZE) (fits : s.vmas.Fits (pgroundup args.length.toNat) it next)
    (gaps : ¬s.vmas.HasGap (pgroundup args.length.toNat) (pre ++ [it])) (unused : (s.vmas.slot i).used = false) :
    MmapPlaced args f s (lists s.current) ((args.call f (s.file f)).vma (s.vmas.get it)).start
      ((s.setFile f { s.file f with ref := (s.file f).ref + 1 }).setVmas
        ((s.vmas.modify (fun _ => (args.call f (s.file f)).vma (s.vmas.get it)) (.slot i)).setNext it (some i))) := by
  have wf := listed.wf _ listed.alive
  rw [shape, regions_append, regions_cons, regions_cons] at wf
  have upper : (s.vmas.get it).region.Placed := wf.placed _ (by simp)
  have lower : (s.vmas.get next).region.Placed := wf.placed _ (by simp)
  have bounded : (s.vmas.get it).start ≤ RESERVED := wf.start_le (s.vmas.get it).region (by simp)
  have room := (availableSpace_iff upper lower wf.last_below bounded short).mpr fits
  obtain ⟨placed, under, beyond⟩ :=
    (@mmap_region (args.call f (s.file f)) _ _ upper lower wf.last_below bounded room).mp short
  generalize new : (args.call f (s.file f)).vma (s.vmas.get it) = v at placed under beyond ⊢
  have top : v.start + pgroundup args.length.toNat = (s.vmas.get it).start := by
    rw [← new]
    exact mmap_start upper bounded fits
  have length : v.length = args.length.toNat := by rw [← new]; rfl
  have absent : VmaRef.slot i ∉ lists s.current := listed.owned.unused_not_mem listed.alive unused
  have other : it ≠ .slot i := fun same => absent (same ▸ by simp [shape])
  have owned := listed.owned.insert listed.alive shape unused (v := v) (by rw [← new]; rfl) (by rw [← new]; rfl)
  have list := owned.refs listed.alive
  rw [update_self] at list
  have order := (wf.insert placed under beyond).pairwise
  refine ⟨placed.aligned, fun q member => ?_, ⟨pre, it, next, post, i, shape, unused, fits, gaps, top, list, ?_, ?_, ?_⟩,
    update_self .., ?_, ?_⟩
  · have ends : v.region.pageEnd = v.start + pgroundup args.length.toNat := by
      rw [pgroundup_eq short, ← length]
      exact pageUp_add placed.aligned
    rw [pairwise_append, pairwise_cons, pairwise_cons] at order
    obtain ⟨-, ⟨above, behind, -⟩, before⟩ := order
    have cases : q ∈ pre ∨ q = it ∨ q ∈ next :: post := by simpa [shape] using member
    rcases cases with high | rfl | low
    · exact .inr (ends ▸ before _ (mem_map_of_mem high) v.region (by simp))
    · exact .inr top.le
    · have here : (s.vmas.get q).region ∈ s.vmas.regions (next :: post) := mem_map_of_mem low
      exact .inl (behind _ here)
  · change VmaTable.get (setNext _ it _) (.slot i) = _
    rw [setNext, get_modify_other (Ne.symm other), get_modify_same, ← new]
    rfl
  · change VmaTable.get (setNext _ it _) it = _
    rw [setNext, get_modify_same, get_modify_other other]
  · intro q notIt notNew
    change VmaTable.get (setNext _ it _) q = _
    rw [setNext, get_modify_other notIt, get_modify_other notNew]
  · change _ = { s with vmas := _, file := update s.file f (update s.file f _ f) }
    rw [update_self]
    rfl
  · exact heap_modify.trans heap_modify

/-- sys_mmap refuses when no gap fits or the pool is empty, and otherwise takes the highest gap. -/
theorem mmap_places (listed : Listed ⟨s.vmas, live⟩ lists s.current) (inside : args.Inside)
    (opened : (s.proc s.current).ofile (args.index inside) = some f) (held : 1 ≤ (s.file f).ref)
    (permitted : (args.call f (s.file f)).permitted = true) (short : args.length.toNat ≤ 2 ^ 64 - PGSIZE) :
    (Returns (sysMmap args) s none s ↔ ¬s.vmas.HasGap (pgroundup args.length.toNat) (lists s.current) ∨
      ∀ i, (s.vmas.slot i).used = true) ∧
    (s.vmas.HasGap (pgroundup args.length.toNat) (lists s.current) → (∃ i, (s.vmas.slot i).used = false) →
      ∃ r s', Returns (sysMmap args) s (some r) s' ∧ MmapPlaced args f s (lists s.current) r s') := by
  have call := mmap_eq permitted listed.refs
  have wf : WellFormed (s.vmas.regions ([] ++ lists s.current)) := listed.wf _ listed.alive
  rcases mmapGap_cases wf short with ⟨missed, gaps⟩ | ⟨pre, it, next, post, shape, found, fits, gaps⟩
  · rw [show (args.call f (s.file f)).length = args.length from rfl, missed] at call
    have refused : Returns (sysMmap args) s none s := (returns_sysMmap inside opened).mpr (.inl ⟨rfl, rfl, _, call⟩)
    exact ⟨iff_of_true refused (.inl gaps), fun some => absurd some gaps⟩
  · rw [show (args.call f (s.file f)).length = args.length from rfl, found] at call
    have gap : s.vmas.HasGap (pgroundup args.length.toNat) (lists s.current) := ⟨pre, it, next, post, shape, fits⟩
    cases taken : s.vmas.vmaAlloc with
    | none =>
      rw [taken] at call
      have refused : Returns (sysMmap args) s none s := (returns_sysMmap inside opened).mpr (.inl ⟨rfl, rfl, _, call⟩)
      have full := vmaAlloc_eq_none.mp taken
      refine ⟨iff_of_true refused (.inr full), fun _ ⟨i, unused⟩ => ?_⟩
      exact Bool.noConfusion ((full i).symm.trans unused)
    | some i =>
      rw [taken] at call
      have unused := vmaAlloc_unused taken
      have run := (returns_sysMmap inside opened).mpr (.inr ⟨_, _, call, held, rfl, rfl⟩)
      refine ⟨iff_of_false (fun refused => ?_) ?_, fun _ _ => ⟨_, _, run, ?_⟩⟩
      · exact nomatch (run.unique refused).1
      · rintro (none | full)
        · exact none gap
        · exact Bool.noConfusion ((full i).symm.trans unused)
      · exact mmapPlaced listed shape short fits gaps unused

end Placement

structure Sys.Regular (s : Sys) (f : FileId) : Prop where
  type : (s.file f).type = .inode
  inode : ∃ i, (s.file f).ip = some i ∧ 1 ≤ (s.inode i).ref

/-- A later state, in which `f` has not been closed: the entry is the same file, with its inode in use. -/
structure FileHeld (f : FileId) (s t : Sys) : Prop where
  type : (t.file f).type = (s.file f).type
  ip : (t.file f).ip = (s.file f).ip
  inode : ∀ i, (s.file f).ip = some i → 1 ≤ (s.inode i).ref → 1 ≤ (t.inode i).ref

/-- What sys_mmap is to make sure of. The inode that a page fault or an unmap of the mapping locks later is
the one of the file, and ilock does not panic on it. -/
structure MmapValidates (args : MmapArgs) (s : Sys) : Prop where
  index : ¬Fails (sysMmap args) s .outOfBounds
  file : ∀ r s' i, Returns (sysMmap args) s (some r) s' → s.vmas.vmaAlloc = some i →
    ∃ f, (s'.vmas.slot i).file = some f ∧ s'.Regular f ∧
      ∀ t, FileHeld f s' t → (t.file f).ip = (s'.file f).ip ∧ ¬Fails (ilock (t.file f).ip) t (.panic .ilock)

/-- The call passes the checks of sys_mmap on `f`, and finds a gap and a free slot. -/
structure Sys.Accepts (s : Sys) (args : MmapArgs) (f : FileId) : Prop where
  opened : ∃ inside, (s.proc s.current).ofile (args.index inside) = some f
  permitted : (args.call f (s.file f)).permitted = true
  gap : ∃ refs, s.vmas.refs s.current = .ok refs ∧ (s.vmas.mmapGap args.length.toNat refs).isSome
  slot : s.vmas.vmaAlloc.isSome

section Descriptor

variable {args : MmapArgs} {f : FileId} {s t : Sys}

theorem mmap_some {t t' : VmaTable} {r : Nat} :
    t.mmap p call = .ok (some r, t') ↔ call.permitted = true ∧ ∃ refs it i, t.refs p = .ok refs ∧
      t.mmapGap call.length.toNat refs = some it ∧ t.vmaAlloc = some i ∧ r = (call.vma (t.get it)).start ∧
      t' = (t.modify (fun _ => call.vma (t.get it)) (.slot i)).setNext it (some i) := by
  by_cases permitted : call.permitted = true
  · cases list : t.refs p with
    | error fault =>
      unfold VmaTable.mmap
      simp [permitted, list]
    | ok refs =>
      rw [mmap_eq permitted list]
      cases gap : t.mmapGap call.length.toNat refs with
      | none => simp [gap]
      | some it =>
        cases slot : t.vmaAlloc with
        | none => simp
        | some i => simp [permitted, gap, eq_comm]
  · unfold VmaTable.mmap
    simp [permitted]

theorem mmap_error {t : VmaTable} {fault : Fault} (wrong : t.mmap p call = .error fault) : fault = .endless := by
  unfold VmaTable.mmap at wrong
  split at wrong
  · cases wrong
  · split at wrong
    · rename_i list
      cases wrong
      unfold VmaTable.refs at list
      split at list
      · cases list
      · exact (Except.error.inj list).symm
    · split at wrong <;> cases wrong

theorem fails_outOfBounds : Fails (sysMmap args) s .outOfBounds ↔ ¬args.Inside := by
  unfold sysMmap
  rw [fails_get_bind]
  split
  · rename_i inside
    refine iff_of_false (fun fails => ?_) (not_not.mpr inside)
    cases opened : (s.proc s.current).ofile (args.index inside) with
    | none =>
      rw [opened] at fails
      exact fails_pure fails
    | some f =>
      rw [opened] at fails
      dsimp only at fails
      cases mapped : s.vmas.mmap s.current (args.call f (s.file f)) with
      | error fault =>
        rw [mapped] at fails
        exact nomatch (fails_throw.mp fails).trans (mmap_error mapped)
      | ok result =>
        obtain ⟨start, t⟩ := result
        rw [mapped] at fails
        cases start with
        | none => exact fails_pure fails
        | some start =>
          rcases fails_bind.mp fails with fails | ⟨_, t', -, fails⟩
          · unfold filedup at fails
            rw [fails_get_bind, fails_failIf_bind] at fails
            rcases fails with ⟨-, wrong⟩ | ⟨-, wrong⟩
            · exact nomatch wrong
            · exact fails_modify wrong
          · rw [fails_modify_bind] at fails
            exact fails_pure fails
  · rename_i outside
    exact iff_of_true (fails_throw.mpr rfl) outside

theorem Sys.Regular.locks (regular : s.Regular f) : ¬Fails (ilock (s.file f).ip) s (.panic .ilock) := by
  obtain ⟨i, place, used⟩ := regular.inode
  rw [place]
  unfold ilock
  rw [fails_get_bind, fails_failIf_bind, fails_failIf_bind]
  rintro (⟨unused, -⟩ | ⟨-, ⟨-, wrong⟩ | ⟨-, later⟩⟩)
  · omega
  · cases wrong
  · split at later
    · rw [fails_modify_bind] at later
      exact fails_pure later
    · rw [fails_modify_bind, fails_failIf_bind] at later
      rcases later with ⟨-, wrong⟩ | ⟨-, later⟩
      · cases wrong
      · exact fails_pure later

variable {u : VmaTable}

theorem slot_file {it : VmaRef} (same : v.file = some f) :
    (((s.setFile f file).setVmas ((u.modify (fun _ => v) (.slot i)).setNext it (some i))).vmas.slot i).file = some f := by
  change (VmaTable.get (setNext _ it _) (.slot i)).file = _
  rw [setNext, get_modify]
  split
  · rename_i here
    rw [← here, get_modify_same]
    exact same
  · rw [get_modify_same]
    exact same

theorem fileHeld_dup : FileHeld f s ((s.setFile f { s.file f with ref := (s.file f).ref + 1 }).setVmas u) := by
  have entry : ((s.setFile f { s.file f with ref := (s.file f).ref + 1 }).setVmas u).file f =
      { s.file f with ref := (s.file f).ref + 1 } := update_self ..
  refine ⟨?_, ?_, fun _ _ used => used⟩
  · rw [entry]
  · rw [entry]

theorem FileHeld.regular (kept : FileHeld f s t) (regular : s.Regular f) : t.Regular f := by
  obtain ⟨type, i, place, used⟩ := regular
  exact ⟨kept.type.trans type, i, kept.ip.trans place, kept.inode i place used⟩

theorem Sys.Accepts.returns (accepts : s.Accepts args f)
    (held : ∀ fd f, (s.proc s.current).ofile fd = some f → 1 ≤ (s.file f).ref) :
    ∃ s' r i, Returns (sysMmap args) s (some r) s' ∧ s.vmas.vmaAlloc = some i ∧
      (s'.vmas.slot i).file = some f ∧ FileHeld f s s' := by
  obtain ⟨⟨inside, opened⟩, permitted, ⟨refs, list, gap⟩, slot⟩ := accepts
  obtain ⟨it, gap⟩ := Option.isSome_iff_exists.mp gap
  obtain ⟨i, slot⟩ := Option.isSome_iff_exists.mp slot
  have mapped := mmap_some.mpr ⟨permitted, refs, it, i, list, gap, slot, rfl, rfl⟩
  exact ⟨_, _, i, (returns_sysMmap inside opened).mpr (.inr ⟨_, _, mapped, held _ _ opened, rfl, rfl⟩), slot,
    slot_file rfl, fileHeld_dup⟩

end Descriptor

theorem single_owned {pages : List PageNo} {heap : ProcId → Option VmaId} (used : v.used = true)
    (last : v.next = none) :
    Owned { (Sys.single v pages).vmas with heap } (fun p => p = 0) fun _ => [.start 0, .slot 0] := by
  refine ⟨fun p alive => ?_, fun p i _ member => ?_, fun p q i alive alive' _ _ => ?_, fun i unused => ?_⟩
  · obtain rfl : p = 0 := of_decide_eq_true alive
    refine ⟨rfl, rfl, ?_⟩
    exact congrArg (Option.map VmaRef.slot) last
  · obtain rfl : i = 0 := by simpa using member
    exact used
  · exact (of_decide_eq_true alive).trans (of_decide_eq_true alive').symm
  · change (update (fun _ => Vma.free) 0 v i).used = false at unused
    change (update (fun _ => Vma.free) 0 v i).next = none
    by_cases first : i = 0
    · rw [first, update_self, used] at unused
      contradiction
    · rw [update_of_ne first]
      rfl

def openProcess (file : File) : Sys :=
  { heapProcess with
    proc := fun _ => ⟨emptyRoot, 0x87ffe, 0, fun fd => if fd.val = 0 then some 0 else none, none, false⟩
    file := fun _ => file }

def regularFile : File := ⟨.inode, 1, true, true, 0, some 0, 0, 0⟩

def twoPagesOf (fd : BitVec 32) : MmapArgs := ⟨0, 5000, PROT_READ ||| PROT_WRITE, MAP_PRIVATE, fd, 0⟩

theorem openProcess_listed : Listed ⟨(openProcess file).vmas, fun p => p = 0⟩ (fun _ => [.start 0, .slot 0]) 0 := by
  refine ⟨@single_owned heapVma heapProcess.freelist (fun _ => none) rfl rfl, rfl, fun q alive => ?_⟩
  exact @single_wellFormed heapVma heapProcess.freelist ⟨by decide, by decide⟩ (by decide)

theorem two_pages_placed : ∃ r s', Returns (sysMmap (twoPagesOf 0)) (openProcess regularFile) (some r) s' ∧
    MmapPlaced (twoPagesOf 0) 0 (openProcess regularFile) [.start 0, .slot 0] r s' := by
  have gap : (openProcess regularFile).vmas.HasGap (pgroundup (twoPagesOf 0).length.toNat) [.start 0, .slot 0] :=
    ⟨[], .start 0, .slot 0, [], rfl, show _ ≤ _ by decide⟩
  have listed : Listed ⟨(openProcess regularFile).vmas, fun p => p = 0⟩ _ (openProcess regularFile).current :=
    openProcess_listed
  exact (mmap_places listed (show (twoPagesOf 0).Inside by decide) (f := 0) (by decide) (by decide) (by decide)
    (by decide)).2 gap ⟨1, by decide⟩

def pipeFile : File := ⟨.pipe, 1, true, false, 0x87000, none, 0, 0⟩

end DeisoXv6
