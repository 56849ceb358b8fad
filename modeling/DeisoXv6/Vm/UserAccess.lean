import DeisoXv6.Vm.Dropped
import DeisoXv6.Vm.Prefault

/-! Loads and stores of a process. On a page fault usertrap maps the page and the instruction is tried again; a
process that is killed does not get that far. -/

set_option autoImplicit false

namespace DeisoXv6

open Semantics Bytes

/-- The page that an instruction gets to, or `none` if it is its last. -/
def userAccess (kind : Access) (va : Nat) : KernelM (Option PageNo) := do
  let s ← get
  if va < MAXVA ∧ Permits (s.entry s.pagetable va) kind then pure (some (pte2pa (s.entry s.pagetable va)))
  else do
    usertrapFault va
    let s ← get
    if (s.proc s.current).killed = true then pure none
    else if va < MAXVA ∧ Permits (s.entry s.pagetable va) kind then
      pure (some (pte2pa (s.entry s.pagetable va)))
    -- the next fault is like this one
    else throw .endless

def userLoad (va : Nat) : KernelM (Option UInt8) := do
  match ← userAccess .load va with
  | none => pure none
  | some page => do
    let s ← get
    pure (some (s.mem page (va % PGSIZE)))

def userStore (va : Nat) (byte : UInt8) : KernelM (Option Unit) := do
  match ← userAccess .store va with
  | none => pure none
  | some page => do
    modify (·.store page (va % PGSIZE) [byte])
    pure (some ())

/-- The page of an address has been mapped for a VMA without a file, if it was not, and no byte of the process
is another. -/
structure Faulted (s : Sys) (va : Nat) (v : Vma) (g' : Layout) (t : Sys) : Prop where
  held : Held g' t s.pagetable
  present : t.Present s.pagetable va
  bytes : ∀ a < RESERVED, t.memByte s.pagetable a = s.memByte s.pagetable a
  entry : ∀ a < RESERVED, t.entry s.pagetable a = s.entry s.pagetable a ∨
    ∃ page, t.entry s.pagetable a = lazyPte page v
  rest : t = { s with
    mem := t.mem, freelist := t.freelist, inode := t.inode, dinode := t.dinode, bitmap := t.bitmap
    block := t.block }

section Access

variable {g g' : Layout} {s t : Sys} {va : Nat} {vma : VmaRef} {kind : Access} {root : PageNo}

theorem Faulted.refl (held : Held g s s.pagetable) (present : s.Present s.pagetable va) :
    Faulted s va (s.vmas.get vma) g s :=
  ⟨held, present, fun _ _ => rfl, fun _ _ => .inl rfl, rfl⟩

theorem Faulted.loaded {page : PageNo} {pages : List PageNo} (held : Held g s s.pagetable)
    (file : (s.vmas.get vma).file = none) (clean : CleanProt (s.vmas.get vma).permission)
    (absent : ¬s.Present s.pagetable va) (loads : Loads s va (s.vmas.get vma) page pages t)
    (mine : g'.own page = .user s.pagetable (va / PGSIZE))
    (remaps : Remaps s.pagetable va (lazyPte page (s.vmas.get vma)) g s g' t) :
    Faulted s va (s.vmas.get vma) g' t := by
  have ram := held.tables.ram page (by simp [loads.list])
  have number : pte2pa (lazyPte page (s.vmas.get vma)) = page :=
    ((lazyPte_iff (page_lt_of_ram ram.2)).mpr (clean.fits (ram_bit held.tables.kernel ram))).1
  have present : t.Present s.pagetable va := by
    unfold Sys.Present
    rw [remaps.entry]
    exact lazyPte_valid
  have zero : t.mem page = fun _ => 0 := by
    have none : s.pageBytes (s.vmas.get vma) va = [] := by
      unfold Sys.pageBytes
      rw [file]
      rfl
    have solid : ∀ f i, (s.vmas.get vma).file = some f → (s.file f).ip = some i → s.Solid (s.copyOf i) := by
      intro f i behind
      rw [file] at behind
      exact nomatch behind
    rw [(loads.contents solid).1, none, overlay_nil]
  have here {a : Nat} (same : a / PGSIZE = va / PGSIZE) : t.entry s.pagetable a = lazyPte page (s.vmas.get vma) := by
    rw [← entry_page, same, entry_page, remaps.entry]
  have others {a : Nat} (low : a < RESERVED) (other : a / PGSIZE ≠ va / PGSIZE) :
      t.entry s.pagetable a = s.entry s.pagetable a :=
    remaps.others _ a held.known (low.trans_le (by decide)) fun _ => other
  refine ⟨held.evolves remaps.toEvolves fun q low here' => ?_, present, fun a low => ?_, fun a low => ?_, remaps.rest⟩
  · by_cases same : q = va / PGSIZE
    · subst same
      rw [entry_page, remaps.entry, number]
      exact .inr ⟨lazyPte_user, mine, ram⟩
    · refine .inl (others low ?_)
      rwa [Nat.mul_div_cancel _ (by decide)]
  · by_cases same : a / PGSIZE = va / PGSIZE
    · -- the new page is as empty as no page
      have before : ¬s.Present s.pagetable a := by
        rw [← present_page, same, present_page]
        exact absent
      have after : t.Present s.pagetable a := by
        rw [← present_page, same, present_page]
        exact present
      unfold Sys.memByte
      rw [if_neg before, if_pos after, here same, number, zero]
    · refine memByte_of_page (others low same) fun mapped => ?_
      have data := held.page_other (page_low low) (present_page.mpr mapped)
      rw [entry_page] at data
      exact remaps.mem _ data.used data.outside
  · by_cases same : a / PGSIZE = va / PGSIZE
    · exact .inr ⟨page, here same⟩
    · exact .inl (others low same)

theorem Faulted.pagetable {v : Vma} (faulted : Faulted s va v g' t) : t.pagetable = s.pagetable := by
  rw [faulted.rest]
  rfl

/-- The process has been killed because no memory is left. -/
structure Exhausted (t : Sys) : Prop where
  killed : (t.proc t.current).killed = true
  memory : t.freelist.length ≤ 1

theorem usertrapFault_faults (held : Held g s s.pagetable) (listed : s.Listed) (low : va < RESERVED)
    (place : s.vmaAt va = some vma) (file : (s.vmas.get vma).file = none)
    (clean : CleanProt (s.vmas.get vma).permission) (absent : ¬s.Present s.pagetable va) :
    ∃ t, Returns (usertrapFault va) s () t ∧ ((∃ g', Faulted s va (s.vmas.get vma) g' t ∧
      ∃ page, t.entry s.pagetable va = lazyPte page (s.vmas.get vma)) ∨ Exhausted t) := by
  have below : va < MAXVA := low.trans_le (by decide)
  have ready : s.ReadyAt va := by
    refine ⟨listed, fun vma' place' f some => ?_⟩
    rw [place] at place'
    cases place'
    rw [file] at some
    contradiction
  unfold usertrapFault
  rcases returns_or_fails (walkaddr s.pagetable va) s with ⟨a, t, walked⟩ | ⟨e, fails⟩
  · rcases walkaddr_returns walked with ⟨shut, -⟩ | ⟨-, present, -⟩ | ⟨-, -, vma', place', alloc⟩
    · refine absurd ⟨below, by rw [place]; rfl, fun present => absurd present absent⟩ shut
    · exact absurd present absent
    · rw [place] at place'
      cases place'
      rcases lazyalloc_returns held.tables held.known below alloc with
        ⟨page, pages, g', rfl, loads, -, -, mine, remaps⟩ | ⟨rfl, -, left, -⟩
      · refine ⟨t, ?_, .inl ⟨g', .loaded held file clean absent loads mine remaps, page, remaps.entry⟩⟩
        exact returns_get_bind.mpr (returns_bind.mpr ⟨some page, t, walked, returns_pure.mpr ⟨rfl, rfl⟩⟩)
      · refine ⟨_, returns_get_bind.mpr (returns_bind.mpr ⟨none, t, walked, returns_modify.mpr rfl⟩), .inr ⟨?_, ?_⟩⟩
        · simp
        · change t.freelist.length ≤ 1
          rw [left]
          exact List.length_take_le ..
  · obtain ⟨-, -, ⟨vma', place', some, -⟩, -⟩ := (fails_walkaddr held.tables ready).mp fails
    rw [place] at place'
    cases place'
    rw [file] at some
    contradiction

variable (held : Held g s s.pagetable) (listed : s.Listed) (alive : (s.proc s.current).killed = false)
  (low : va < RESERVED) (place : s.vmaAt va = some vma) (file : (s.vmas.get vma).file = none)
  (clean : CleanProt (s.vmas.get vma).permission)

include held listed alive low place file clean

theorem userAccess_faults (allows : (s.vmas.get vma).Allows kind)
    (permits : s.Present s.pagetable va → Permits (s.entry s.pagetable va) kind) :
    ∃ r t, Returns (userAccess kind va) s r t ∧
      ((∃ g', r = some (pte2pa (t.entry s.pagetable va)) ∧ Faulted s va (s.vmas.get vma) g' t) ∨
        (r = none ∧ Exhausted t)) := by
  have below : va < MAXVA := low.trans_le (by decide)
  unfold userAccess
  simp only [returns_get_bind, below, true_and]
  by_cases present : s.Present s.pagetable va
  · rw [if_pos (permits present)]
    exact ⟨_, s, returns_pure.mpr ⟨rfl, rfl⟩, .inl ⟨g, rfl, .refl held present⟩⟩
  · rw [if_neg fun permitted => present permitted.valid]
    obtain ⟨t, trapped, ⟨g', faulted, page, entry⟩ | exhausted⟩ :=
      usertrapFault_faults held listed low place file clean present
    · have still : (t.proc t.current).killed = false := by
        rw [faulted.rest]
        exact alive
      refine ⟨_, t, returns_bind.mpr ⟨(), t, trapped, returns_get_bind.mpr ?_⟩, .inl ⟨g', rfl, faulted⟩⟩
      have permitted : Permits (t.entry t.pagetable va) kind := by
        rw [faulted.pagetable, entry]
        exact lazyPte_permits.mpr allows
      rw [if_neg (by rw [still]; exact Bool.false_ne_true), if_pos permitted, faulted.pagetable]
      exact returns_pure.mpr ⟨rfl, rfl⟩
    · refine ⟨none, t, returns_bind.mpr ⟨(), t, trapped, returns_get_bind.mpr ?_⟩, .inr ⟨rfl, exhausted⟩⟩
      rw [if_pos exhausted.killed]
      exact returns_pure.mpr ⟨rfl, rfl⟩

theorem userLoad_faults (allows : (s.vmas.get vma).Allows .load)
    (permits : s.Present s.pagetable va → Permits (s.entry s.pagetable va) .load) :
    ∃ r t, Returns (userLoad va) s r t ∧
      ((∃ g', r = some (s.memByte s.pagetable va) ∧ Faulted s va (s.vmas.get vma) g' t) ∨ (r = none ∧ Exhausted t)) := by
  obtain ⟨r, t, access, ⟨g', rfl, faulted⟩ | ⟨rfl, exhausted⟩⟩ :=
    userAccess_faults held listed alive low place file clean allows permits
  · refine ⟨_, t, returns_bind.mpr ⟨_, t, access, returns_get_bind.mpr (returns_pure.mpr ⟨rfl, rfl⟩)⟩, .inl ⟨g', ?_, faulted⟩⟩
    rw [← faulted.bytes va low, Sys.memByte, if_pos faulted.present]
  · exact ⟨none, t, returns_bind.mpr ⟨none, t, access, returns_pure.mpr ⟨rfl, rfl⟩⟩, .inr ⟨rfl, exhausted⟩⟩

theorem userStore_faults (byte : UInt8) (allows : (s.vmas.get vma).Allows .store)
    (permits : s.Present s.pagetable va → Permits (s.entry s.pagetable va) .store) :
    ∃ r t, Returns (userStore va byte) s r t ∧ ((∃ g' t', r = some () ∧ Faulted s va (s.vmas.get vma) g' t' ∧
        t = t'.store (pte2pa (t'.entry s.pagetable va)) (va % PGSIZE) [byte]) ∨ (r = none ∧ Exhausted t)) := by
  obtain ⟨r, t, access, ⟨g', rfl, faulted⟩ | ⟨rfl, exhausted⟩⟩ :=
    userAccess_faults held listed alive low place file clean allows permits
  · exact ⟨_, _, returns_bind.mpr ⟨_, t, access, returns_modify_bind.mpr (returns_pure.mpr ⟨rfl, rfl⟩)⟩,
      .inl ⟨g', t, rfl, faulted, rfl⟩⟩
  · exact ⟨none, t, returns_bind.mpr ⟨none, t, access, returns_pure.mpr ⟨rfl, rfl⟩⟩, .inr ⟨rfl, exhausted⟩⟩

end Access

theorem Held.memByte_store {g : Layout} {s : Sys} {root : PageNo} {va a : Nat} {byte : UInt8} (held : Held g s root)
    (low : va < RESERVED) (present : s.Present root va) (low' : a < RESERVED) :
    (s.store (pte2pa (s.entry root va)) (va % PGSIZE) [byte]).memByte root a =
      if a = va then byte else s.memByte root a := by
  have data := held.page_other (page_low low) (present_page.mpr present)
  rw [entry_page] at data
  have entry : (s.store (pte2pa (s.entry root va)) (va % PGSIZE) [byte]).entry root a = s.entry root a :=
    held.tables.entry_store data held.known
  by_cases same : a / PGSIZE = va / PGSIZE
  · have here : s.Present root a := by
      rw [← present_page, same, present_page]
      exact present
    have page : s.entry root a = s.entry root va := by
      rw [← entry_page, same, entry_page]
    have after : (s.store (pte2pa (s.entry root va)) (va % PGSIZE) [byte]).Present root a := by
      unfold Sys.Present
      rw [entry]
      exact here
    have offset : a % PGSIZE = va % PGSIZE ↔ a = va := by
      unfold PGSIZE at *
      omega
    have byteOf : (s.store (pte2pa (s.entry root va)) (va % PGSIZE) [byte]).mem (pte2pa (s.entry root va)) =
        overlay (s.mem (pte2pa (s.entry root va))) (va % PGSIZE) [byte] := Function.update_self ..
    rw [Sys.memByte, if_pos after, entry, page, byteOf, overlay_singleton, Sys.memByte, if_pos here, page]
    simp only [offset]
  · have other : a ≠ va := fun equal => same (equal ▸ rfl)
    rw [if_neg other]
    refine memByte_of_page entry fun mapped => ?_
    have apart := held.page_apart (page_low low) (present_page.mpr present) (page_low low') (present_page.mpr mapped) same
    rw [entry_page, entry_page] at apart
    unfold Sys.store
    dsimp only
    rw [Function.update_of_ne apart]

end DeisoXv6
