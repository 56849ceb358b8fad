import DeisoXv6.Vm.Copy
import DeisoXv6.Vm.FreeMem

/-! What vma_free does to memory: pages of the process go, what a shared mapping has in them goes to its
file, and the trapframe and the trampoline stay. -/

set_option autoImplicit false

namespace DeisoXv6

open Function Semantics Vma Fault Sys

section Present

variable {s t : Sys} {root : PageNo} {va pos src m : Nat}

def Sys.Listed (s : Sys) : Prop := ∃ refs, s.vmas.refs s.current = .ok refs

theorem findVma_returns (listed : s.Listed) : Returns (findVma va) s (s.vmaAt va) s := by
  obtain ⟨refs, list⟩ := listed
  unfold findVma vmaAt
  rw [returns_get_bind, list]
  exact returns_pure.mpr ⟨rfl, rfl⟩

theorem not_fails_walkaddr_present {e : Fault} (listed : s.Listed) (present : s.Present root va) :
    ¬Fails (walkaddr root va) s e := by
  unfold walkaddr
  split
  · exact fails_pure
  · rename_i low
    rw [fails_bind_of_returns (findVma_returns listed)]
    cases s.vmaAt va with
    | none => exact fails_pure
    | some vma =>
      dsimp only
      rw [fails_bind_of_returns (returns_walk_false.mpr ⟨Nat.lt_of_not_le low, rfl, rfl⟩)]
      unfold Present entry at present
      cases leaf : s.walkDown root (upper va) with
      | none =>
        rw [leaf, has_zero] at present
        contradiction
      | some table =>
        rw [leaf] at present
        rw [Option.map_some]
        dsimp only
        rw [fails_get_bind, if_neg (by rw [present]; simp)]
        split
        · exact fails_pure
        · exact fails_pure

theorem walkaddr_present (listed : s.Listed) (present : s.Present root va) : ∃ a, Returns (walkaddr root va) s a s ∧
      ((a = none ∧ ¬s.Open root va) ∨ (a = some (pte2pa (s.entry root va)) ∧ s.Open root va)) := by
  rcases returns_or_fails (walkaddr root va) s with ⟨a, s', run⟩ | ⟨e, fails⟩
  · rcases walkaddr_returns run with ⟨shut, rfl, rfl⟩ | ⟨opened, -, rfl, rfl⟩ | ⟨-, absent, -⟩
    · exact ⟨none, run, .inl ⟨rfl, shut⟩⟩
    · exact ⟨_, run, .inr ⟨rfl, opened⟩⟩
    · exact absurd present absent
  · exact absurd fails (not_fails_walkaddr_present listed present)

theorem isPageMapped_returns (low : va < MAXVA) :
    Returns (isPageMapped root va) s (decide (s.Present root va)) s := by
  unfold isPageMapped
  rw [returns_bind]
  refine ⟨_, s, returns_walk_false.mpr ⟨low, rfl, rfl⟩, ?_⟩
  cases leaf : s.walkDown root (upper va) with
  | none =>
    have absent : ¬s.Present root va := by
      unfold Present entry
      rw [leaf, has_zero]
      exact Bool.false_ne_true
    rw [Option.map_none, decide_eq_false absent]
    exact returns_pure.mpr ⟨rfl, rfl⟩
  | some table =>
    have entry : s.entry root va = s.pte table (px 0 va) := by
      unfold entry
      rw [leaf]
    have same : decide (s.Present root va) = Pte.has (s.pte table (px 0 va)) PTE_V := by
      rw [← entry]
      exact Bool.decide_eq_true
    rw [Option.map_some, same]
    exact returns_get_bind.mpr (returns_pure.mpr ⟨rfl, rfl⟩)

theorem copyin_present (listed : s.Listed) (present : s.Present root pos) (aligned : pos % PGSIZE = 0)
    (first : pos ≤ src) (last : src + m ≤ pos + PGSIZE) : ∃ r, Returns (copyin root src m) s r s := by
  cases m with
  | zero => exact ⟨_, copyinLoop_zero⟩
  | succ m =>
    have start : pgrounddown src = pos := by
      unfold pgrounddown
      unfold PGSIZE at *
      omega
    obtain ⟨a, walked, -⟩ := walkaddr_present listed present
    unfold copyin copyinLoop
    rw [if_neg (Nat.succ_ne_zero m), start]
    dsimp only
    cases a with
    | none => exact ⟨_, returns_bind.mpr ⟨none, s, walked, returns_pure.mpr ⟨rfl, rfl⟩⟩⟩
    | some page =>
      have whole : min (PGSIZE - (src - pos)) (m + 1) = m + 1 := by omega
      rw [whole, Nat.sub_self]
      exact ⟨_, returns_bind.mpr ⟨some page, s, walked, returns_get_bind.mpr
        (returns_bind.mpr ⟨_, s, copyinLoop_zero, returns_pure.mpr ⟨rfl, rfl⟩⟩)⟩⟩

end Present

variable {file : Option FileId}

section WriteBack

variable {s t : Sys} {pos src n off fuel : Nat} {i : InodeId} {turn : Turn}

theorem FsCall.present {root : PageNo} {va : Nat} (call : FsCall s t) : t.Present root va ↔ s.Present root va := by
  unfold FsCall at call
  rw [call]
  exact .rfl

theorem FsCall.listed (call : FsCall s t) (listed : s.Listed) : t.Listed := by
  unfold FsCall at call
  rw [call]
  exact listed

theorem FsCall.pagetable (call : FsCall s t) : t.pagetable = s.pagetable := by
  unfold FsCall at call
  rw [call]
  rfl

section

variable (listed : s.Listed) (present : s.Present s.pagetable pos) (aligned : pos % PGSIZE = 0)

include listed present aligned

theorem copyinUser_present {m : Nat} (first : pos ≤ src) (last : src + m ≤ pos + PGSIZE) :
    ∃ bytes next, Returns (copyinUser src m) s (bytes, next) s ∧ ∀ src', next = some src' → src' = u64 (src + m) := by
  obtain ⟨r, copied⟩ := copyin_present listed present aligned first last
  refine ⟨r.1, if r.2 then some (u64 (src + m)) else none, ?_, fun src' same => ?_⟩
  · unfold copyinUser
    rw [returns_get_bind, returns_bind]
    exact ⟨r, s, copied, returns_pure.mpr ⟨rfl, rfl⟩⟩
  · split at same
    · exact (Option.some.inj same).symm
    · contradiction

theorem writeLoop_present (low : pos < MAXVA) (first : pos ≤ src) (last : src + n ≤ pos + PGSIZE)
    (call : FsCall s t) :
    Ensures OfFiles (writeLoop copyinUser i fuel off n src) t fun _ t' => FsCall s t' := by
  induction fuel generalizing t off n src with
  | zero => exact .pure call
  | succ fuel ih =>
    refine .ite (fun _ => .pure call) fun _ => ?_
    refine ((bmap_frames.mono FsOnly.call fun _ => id) t).bind fun addr t₁ mapped => ?_
    have call₁ : FsCall s t₁ := IsTrans.trans _ _ _ call mapped
    obtain ⟨bytes, next, copied, moved⟩ := copyinUser_present (m := min n (BSIZE - off % BSIZE))
      (call₁.listed listed) (call₁.pagetable.symm ▸ call₁.present.mpr present) aligned first (by omega)
    refine (Ensures.of_returns (Q := fun r t' => r = (bytes, next) ∧ t' = t₁) copied ⟨rfl, rfl⟩).bind ?_
    rintro _ t₂ ⟨rfl, rfl⟩
    refine .modify_bind ?_
    have call₂ : FsCall s (t₂.setBlock addr ⟨fun j => Bytes.overlay (t₂.block addr).bytes (off % BSIZE) bytes j⟩) :=
      IsTrans.trans _ _ _ call₁ rfl
    cases next with
    | none => exact .pure call₂
    | some src' =>
      have place : src' = src + min n (BSIZE - off % BSIZE) := by
        rw [moved src' rfl]
        unfold MAXVA at low
        unfold PGSIZE at last
        exact Nat.mod_eq_of_lt (by omega)
      refine ((logWrite_frames.mono FsOnly.call fun _ => id) _).bind fun _ t₃ logged => ?_
      exact ih (by omega) (by omega) (IsTrans.trans _ _ _ call₂ logged)

theorem writei_present (low : pos < MAXVA) (first : pos ≤ src) (last : src + n ≤ pos + PGSIZE) (call : FsCall s t) :
    Ensures OfFiles (writei copyinUser i src off n) t fun _ t' => FsCall s t' := by
  refine .get_bind (.ite (fun _ => .pure call) fun _ => .ite (fun _ => .pure call) fun _ => ?_)
  refine (writeLoop_present listed present aligned low first last call).bind fun stop t₁ call₁ => ?_
  have sized : FsCall t₁ (t₁.setCopy i { (t₁.inode i).copy with size := max (t₁.inode i).copy.size stop }) := rfl
  refine .modify_bind (((iupdate_frames.mono FsOnly.call fun _ => id) _).bind fun _ t₂ updated => ?_)
  exact .pure (IsTrans.trans _ _ _ (IsTrans.trans _ _ _ call₁ sized) updated)

theorem writeBack_present (low : pos < MAXVA) (first : pos ≤ turn.start)
    (some : file ≠ none → turn.start + u32 (sub64 turn.writeEnd turn.start) ≤ pos + PGSIZE) :
    Ensures OfFiles (writeBack turn file) s fun _ t => FsCall s t := by
  cases file with
  | none => exact .pure rfl
  | some f =>
    refine .modify_bind (.get_bind (((ilock_frames.mono FsOnly.call fun _ => id) _).bind fun i t₁ locked => ?_))
    have call : FsCall s t₁ := by
      refine IsTrans.trans _ _ _ ?_ locked
      rfl
    refine (writei_present listed present aligned low first (some (by simp)) call).bind fun _ t₂ call₂ => ?_
    refine ((iunlock_frames.mono FsOnly.call fun _ => id) _).bind fun _ t₃ unlocked => .modify ?_
    refine IsTrans.trans _ _ _ (IsTrans.trans _ _ _ call₂ unlocked) ?_
    rfl

end

end WriteBack

structure PipePage (g : Layout) (kernelEnd : Nat) (trapframe trampoline page : PageNo) : Prop where
  other : g.own page = .other
  ram : kernelEnd ≤ page * PGSIZE ∧ page * PGSIZE < PHYSTOP
  trapframe : page ≠ trapframe
  trampoline : page ≠ trampoline

/-- What is mapped below the reserved VMA are pages of the process, and of nobody else. -/
structure Held (g : Layout) (s : Sys) (root : PageNo) : Prop where
  tables : Tables g s
  known : g.tree root [] = some root
  user : ∀ q, q * PGSIZE < RESERVED → s.Present root (q * PGSIZE) →
    Pte.has (s.entry root (q * PGSIZE)) PTE_U = true ∧ g.own (pte2pa (s.entry root (q * PGSIZE))) = .user root q ∧
      s.kernelEnd ≤ pte2pa (s.entry root (q * PGSIZE)) * PGSIZE ∧
      pte2pa (s.entry root (q * PGSIZE)) * PGSIZE < PHYSTOP
  trapframe : g.own (s.proc s.current).trapframe = .other
  trampoline : g.own s.trampoline = .other
  pipes : ∀ f, (s.file f).type = .pipe →
    PipePage g s.kernelEnd (s.proc s.current).trapframe s.trampoline (s.file f).pipe

/-- Pages below the reserved VMA may have gone, and files may have changed. -/
structure Sheds (root : PageNo) (s : Sys) (g' : Layout) (s' : Sys) : Prop where
  held : Held g' s' root
  entry : ∀ va, RESERVED ≤ va → va < MAXVA → s'.entry root va = s.entry root va
  fewer : ∀ va, va < MAXVA → s'.Present root va → s.Present root va
  rest : s' = { s with
    mem := s'.mem, freelist := s'.freelist, inode := s'.inode, dinode := s'.dinode, bitmap := s'.bitmap
    block := s'.block, outstanding := s'.outstanding }

section Sheds

variable {g g' g'' : Layout} {s s' s'' : Sys} {root : PageNo} {q : Nat}

theorem Sheds.refl (held : Held g s root) : Sheds root s g s :=
  ⟨held, fun _ _ _ => rfl, fun _ _ => id, rfl⟩

theorem Sheds.trans (first : Sheds root s g' s') (second : Sheds root s' g'' s'') : Sheds root s g'' s'' :=
  ⟨second.held, fun va high low => (second.entry va high low).trans (first.entry va high low),
    fun va low present => first.fewer va low (second.fewer va low present), by
      rw [second.rest, first.rest]⟩

theorem Held.call (held : Held g s root) (call : FsCall s s') : Sheds root s g s' := by
  refine ⟨?_, fun va _ _ => ?_, fun va _ => call.present.mp, ?_⟩ <;> unfold FsCall at call
  · rw [call]
    exact ⟨held.tables.frame (fun _ _ _ _ => rfl) rfl rfl, held.known, held.user, held.trapframe,
      held.trampoline, held.pipes⟩
  · rw [call]
    rfl
  · rw [call]

variable {page : PageNo} {a : Option PageNo} {addr stop : Nat} {ref : VmaRef}

theorem Held.store {off : Nat} {bytes : List UInt8} (held : Held g s root)
    (data : g.Data page) : Sheds root s g (s.store page off bytes) := by
  have entry (va : Nat) : (s.store page off bytes).entry root va = s.entry root va :=
    held.tables.entry_store data held.known
  refine ⟨⟨held.tables.store data, held.known, fun q low present => ?_, held.trapframe, held.trampoline,
    held.pipes⟩, fun va _ _ => entry va, fun va _ present => ?_, rfl⟩ <;> unfold Present at present
  · rw [entry] at present ⊢
    exact held.user q low present
  · rwa [entry] at present

theorem Held.page_other (held : Held g s root) (low : q * PGSIZE < RESERVED)
    (present : s.Present root (q * PGSIZE)) : g.Data (pte2pa (s.entry root (q * PGSIZE))) :=
  .user (held.user q low present).2.1

/-- The state after the page of an entry has been freed and the entry cleared. -/
def Sys.unmapped1 (s : Sys) (table page : PageNo) (i : Nat) : Sys := (s.freed page).setPte table i 0

section Unmap

variable {table : PageNo} (held : Held g s root) (low : q * PGSIZE < RESERVED)
  (present : s.Present root (q * PGSIZE)) (leaf : g.tree root (upper (q * PGSIZE)) = some table)

include held low present

theorem Held.freed : Tables (g.assign (pte2pa (s.entry root (q * PGSIZE))) .free)
    (s.freed (pte2pa (s.entry root (q * PGSIZE)))) := by
  obtain ⟨-, mine, above, ram⟩ := held.user q low present
  exact held.tables.give rfl rfl (fun _ => freed_mem) (by simp [mine]) (by simp [mine]) above ram

include leaf

theorem Held.unmap_remaps : Remaps root (q * PGSIZE) 0 (g.assign (pte2pa (s.entry root (q * PGSIZE))) .free)
    (s.freed (pte2pa (s.entry root (q * PGSIZE)))) (g.assign (pte2pa (s.entry root (q * PGSIZE))) .free)
    (s.unmapped1 table (pte2pa (s.entry root (q * PGSIZE))) (px 0 (q * PGSIZE))) :=
  (Grows.refl (held.freed low present)).setLeaf (fun _ _ => .inl) held.known (low.trans_le (by decide)) leaf

theorem Held.unmap_entry {va : Nat} (below : va < MAXVA) (other : va / PGSIZE ≠ q) :
    (s.unmapped1 table (pte2pa (s.entry root (q * PGSIZE))) (px 0 (q * PGSIZE))).entry root va = s.entry root va := by
  obtain ⟨-, mine, -, -⟩ := held.user q low present
  have kept : (s.freed (pte2pa (s.entry root (q * PGSIZE)))).entry root va = s.entry root va := by
    refine held.tables.entry_same (held.freed low present) rfl held.known fun path p node => freed_mem ?_
    rintro rfl
    have tabled := held.tables.table _ _ _ node
    rw [mine] at tabled
    contradiction
  rw [(held.unmap_remaps low present leaf).others root va held.known below fun _ => ?_, kept]
  rwa [Nat.mul_div_cancel _ (by decide)]

theorem Held.unmap : Sheds root s (g.assign (pte2pa (s.entry root (q * PGSIZE))) .free)
    (s.unmapped1 table (pte2pa (s.entry root (q * PGSIZE))) (px 0 (q * PGSIZE))) := by
  have cleared := held.unmap_remaps low present leaf
  have others (va : Nat) (below : va < MAXVA) (other : va / PGSIZE ≠ q) :=
    held.unmap_entry low present leaf below other
  obtain ⟨user, mine, above, ram⟩ := held.user q low present
  generalize pte2pa (s.entry root (q * PGSIZE)) = page at mine above ram cleared others
  have apart : ∀ p, g.own p = .other → (g.assign page .free).own p = .other := by
    intro p other
    refine (update_of_ne ?_ ..).trans other
    rintro rfl
    rw [mine] at other
    contradiction
  refine ⟨⟨cleared.tables, held.known, fun q' low' present' => ?_, apart _ held.trapframe,
    apart _ held.trampoline, fun f pipe => { held.pipes f pipe with other := apart _ (held.pipes f pipe).other }⟩,
    fun va high low' => others va low' ?_, fun va low' present' => ?_, rfl⟩
  · have other : q' ≠ q := by
      rintro rfl
      rw [Present, cleared.entry, has_zero] at present'
      contradiction
    unfold Present at present'
    rw [others (q' * PGSIZE) (low'.trans_le (by decide))
      (by rwa [Nat.mul_div_cancel _ (by decide)])] at present' ⊢
    obtain ⟨user', mine', above', ram'⟩ := held.user q' low' present'
    refine ⟨user', ?_, above', ram'⟩
    refine (update_of_ne (fun same => ?_) ..).trans mine'
    rw [same, mine] at mine'
    exact other (Owner.user.inj mine').2.symm
  · rintro rfl
    unfold RESERVED MAXVA PGSIZE at *
    omega
  · by_cases other : va / PGSIZE = q
    · rw [← present_page, other]
      exact present
    · rwa [Present, others va low' other] at present'

end Unmap

section

variable (held : Held g s root)

include held

theorem uvmunmap_returns (low : q * PGSIZE < RESERVED)
    (present : s.Present root (q * PGSIZE)) : ∃ table, g.tree root (upper (q * PGSIZE)) = some table ∧
      Returns (uvmunmap root (q * PGSIZE) 1 true) s ()
        (s.unmapped1 table (pte2pa (s.entry root (q * PGSIZE))) (px 0 (q * PGSIZE))) := by
  have below : q * PGSIZE < MAXVA := low.trans_le (by decide)
  obtain ⟨user, mine, above, ram⟩ := held.user q low present
  cases leaf : g.tree root (upper (q * PGSIZE)) with
  | none =>
    rw [Present, held.tables.entry_eq held.known, leaf, has_zero] at present
    contradiction
  | some table =>
    refine ⟨table, rfl, ?_⟩
    have down : s.walkDown root (upper (q * PGSIZE)) = some table := by
      rw [held.tables.walkDown_upper held.known, leaf]
    have entry : s.pte table (px 0 (q * PGSIZE)) = s.entry root (q * PGSIZE) := by
      rw [held.tables.entry_eq held.known, leaf]
    have once : (u64 (q * PGSIZE + 1 * PGSIZE) - q * PGSIZE) / PGSIZE = 1 := by
      unfold u64
      unfold MAXVA at below
      unfold PGSIZE at *
      omega
    unfold uvmunmap
    rw [returns_failIf_bind, once]
    refine ⟨by simp, ?_⟩
    unfold uvmunmapLoop
    rw [returns_bind]
    refine ⟨_, s, returns_walk_false.mpr ⟨below, rfl, rfl⟩, ?_⟩
    rw [down, Option.map_some]
    dsimp only
    rw [returns_get_bind, entry, if_neg (by rw [present]; simp), returns_failIf_bind]
    refine ⟨pteFlags_ne_valid user, ?_⟩
    unfold onlyIf
    rw [if_pos rfl, returns_bind]
    exact ⟨(), _, returns_kfree.mpr ⟨⟨above, ram⟩, rfl⟩, returns_modify_bind.mpr (returns_pure.mpr ⟨rfl, rfl⟩)⟩

theorem uvmunmap_sheds (low : q * PGSIZE < RESERVED) (present : s.Present root (q * PGSIZE)) :
    ∃ g' s', Returns (uvmunmap root (q * PGSIZE) 1 true) s () s' ∧ Sheds root s g' s' := by
  obtain ⟨table, leaf, run⟩ := uvmunmap_returns held low present
  exact ⟨_, _, run, held.unmap low present leaf⟩

theorem Held.evolves (evolves : Evolves g s g' s')
    (mapped : ∀ q, q * PGSIZE < RESERVED → s'.Present root (q * PGSIZE) →
      s'.entry root (q * PGSIZE) = s.entry root (q * PGSIZE) ∨ (Pte.has (s'.entry root (q * PGSIZE)) PTE_U = true ∧
        g'.own (pte2pa (s'.entry root (q * PGSIZE))) = .user root q ∧
        s.kernelEnd ≤ pte2pa (s'.entry root (q * PGSIZE)) * PGSIZE ∧
        pte2pa (s'.entry root (q * PGSIZE)) * PGSIZE < PHYSTOP)) : Held g' s' root := by
  have kernelEnd : s'.kernelEnd = s.kernelEnd := by rw [evolves.rest]
  have proc : s'.proc = s.proc := by rw [evolves.rest]
  have current : s'.current = s.current := by rw [evolves.rest]
  have trampoline : s'.trampoline = s.trampoline := by rw [evolves.rest]
  have file : s'.file = s.file := by rw [evolves.rest]
  have other {p : PageNo} (mine : g.own p = .other) : g'.own p = .other :=
    (evolves.own p (by simp [mine])).trans mine
  refine ⟨evolves.tables, evolves.tree _ _ _ held.known, fun q low present => ?_, ?_, ?_, fun f pipe => ?_⟩
  · rw [kernelEnd]
    rcases mapped q low present with same | new
    · unfold Present at present
      rw [same] at present ⊢
      obtain ⟨user, mine, ram⟩ := held.user q low present
      exact ⟨user, (evolves.own _ (by simp [mine])).trans mine, ram⟩
    · exact new
  · rw [proc, current]
    exact other held.trapframe
  · rw [trampoline]
    exact other held.trampoline
  · rw [file] at pipe
    rw [kernelEnd, proc, current, trampoline, file]
    exact { held.pipes f pipe with other := other (held.pipes f pipe).other }

theorem Held.lazyalloc {va : Nat} {vma : VmaRef} (low : va < MAXVA)
    (clean : CleanProt (s.vmas.get vma).permission) (run : Returns (lazyalloc root va vma) s a s') :
    ∃ g', Held g' s' root := by
  rcases lazyalloc_returns held.tables held.known low run with
    ⟨page, pages, g', -, loads, -, -, mine, remaps⟩ | ⟨-, -, -, g', grown, -⟩
  · refine ⟨g', held.evolves remaps.toEvolves fun q low' present => ?_⟩
    by_cases here : q = va / PGSIZE
    · have ram := held.tables.ram page (by simp [loads.list])
      have number : pte2pa (lazyPte page (s.vmas.get vma)) = page :=
        ((lazyPte_iff (page_lt_of_ram ram.2)).mpr (clean.fits (ram_bit held.tables.kernel ram))).1
      rw [here, entry_page, remaps.entry, number]
      exact .inr ⟨lazyPte_user, mine, ram⟩
    · refine .inl (remaps.others root _ held.known (low'.trans_le (by decide)) fun _ => ?_)
      rwa [Nat.mul_div_cancel _ (by decide)]
  · exact ⟨g', held.evolves grown.toEvolves fun q _ _ => .inl (grown.entry _ _ held.known)⟩

theorem Held.walkaddr {va : Nat} (clean : ∀ vma, s.vmaAt va = some vma → CleanProt (s.vmas.get vma).permission)
    (run : Returns (walkaddr root va) s a s') : ∃ g', Held g' s' root := by
  rcases walkaddr_returns run with ⟨-, -, rfl⟩ | ⟨-, -, -, rfl⟩ | ⟨opened, -, vma, place, alloc⟩
  · exact ⟨g, held⟩
  · exact ⟨g, held⟩
  · exact held.lazyalloc opened.low (clean vma place) alloc

end

/-- What a turn must be like for memset to stay in the page. -/
def Turn.Fits (turn : Turn) (s : Sys) (pos : Nat) : Prop :=
  u32 (sub64 turn.stop turn.start) = 0 ∨
    (turn.start - pos + u32 (sub64 turn.stop turn.start) ≤ PGSIZE ∧ (s.vmaAt turn.start).isSome)

theorem memset_returns (s : Sys) (page : PageNo) {off n : Nat} (inside : off + n ≤ PGSIZE) :
    ∃ bytes, Returns (memset (some page) off n) s () (s.store page off bytes) := by
  unfold memset
  split
  · refine ⟨[], returns_pure.mpr ⟨rfl, ?_⟩⟩
    unfold store
    rw [Bytes.overlay_nil, update_eq_self]
  · exact ⟨_, returns_modify.mpr rfl⟩

variable {v : Vma} {turn : Turn}

theorem dropPage_sheds (held : Held g s root) (listed : s.Listed) (low : q * PGSIZE < RESERVED)
    (present : s.Present root (q * PGSIZE)) (first : q * PGSIZE ≤ turn.start)
    (last : turn.start < q * PGSIZE + PGSIZE) (fits : v.Shares turn (q * PGSIZE) → turn.Fits s (q * PGSIZE)) :
    ∃ g' s', Returns (dropPage root v turn (q * PGSIZE)) s () s' ∧ Sheds root s g' s' := by
  unfold dropPage
  split
  · rename_i shares
    have page : turn.start / PGSIZE = q := by
      unfold PGSIZE at *
      omega
    have here : s.Present root turn.start := by
      rw [← present_page, page]
      exact present
    obtain ⟨user, mine, above, -⟩ := held.user q low present
    have entry : s.entry root turn.start = s.entry root (q * PGSIZE) := by
      rw [← entry_page, page]
    obtain ⟨a, walked, result⟩ := walkaddr_present listed here
    rcases fits shares with none | ⟨inside, vma⟩
    · refine ⟨g, s, returns_bind.mpr ⟨a, s, walked, ?_⟩, .refl held⟩
      rw [none]
      exact returns_pure.mpr ⟨rfl, rfl⟩
    · have opened : s.Open root turn.start := by
        refine ⟨?_, vma, fun _ => ?_⟩
        · unfold RESERVED at low
          unfold PGSIZE MAXVA at *
          omega
        · rw [entry]
          refine ⟨user, fun null => ?_⟩
          have kernel := held.tables.kernel
          rw [null] at above
          omega
      rcases result with ⟨-, shut⟩ | ⟨rfl, -⟩
      · exact absurd opened shut
      · rw [entry] at walked
        obtain ⟨bytes, filled⟩ := memset_returns s (pte2pa (s.entry root (q * PGSIZE))) inside
        exact ⟨g, _, returns_bind.mpr ⟨_, s, walked, filled⟩, held.store (.user mine)⟩
  · exact uvmunmap_sheds held low present

theorem Sheds.listed (sheds : Sheds root s g' s') (listed : s.Listed) : s'.Listed := by
  rw [sheds.rest]
  exact listed

theorem Sheds.vmaAt (sheds : Sheds root s g' s') (va : Nat) : s'.vmaAt va = s.vmaAt va := by
  rw [sheds.rest]
  rfl

theorem Vma.writes_lt (some : v.writes turn ≠ none) : turn.start < turn.writeEnd := by
  unfold writes at some
  split at some
  · exact (‹_ ∧ _›).2
  · contradiction

theorem freePage_sheds (held : Held g s s.pagetable) (listed : s.Listed) (low : q * PGSIZE < RESERVED)
    (first : q * PGSIZE ≤ turn.start) (last : turn.start < q * PGSIZE + PGSIZE)
    (written : turn.writeEnd ≤ q * PGSIZE + PGSIZE)
    (fits : s.Present s.pagetable (q * PGSIZE) → v.Shares turn (q * PGSIZE) → turn.Fits s (q * PGSIZE)) :
    Ensures OfFiles (freePage s.pagetable v turn (q * PGSIZE)) s
      fun _ s' => ∃ g', Sheds s.pagetable s g' s' := by
  have below : q * PGSIZE < MAXVA := low.trans_le (by decide)
  refine (Ensures.of_returns (Q := fun b t => b = decide (s.Present s.pagetable (q * PGSIZE)) ∧ t = s)
    (isPageMapped_returns below) ⟨rfl, rfl⟩).bind ?_
  rintro b t ⟨rfl, rfl⟩
  refine .ite (fun mapped => ?_) fun _ => .pure ⟨g, .refl held⟩
  have present := of_decide_eq_true mapped
  refine (writeBack_present listed present (Nat.mul_mod_left ..) below first fun some => ?_).bind fun _ t₁ call => ?_
  · have later := writes_lt some
    have short : sub64 turn.writeEnd turn.start = turn.writeEnd - turn.start :=
      sub64_eq later.le (by unfold MAXVA at below; unfold PGSIZE at *; omega)
    have small := Nat.mod_le (turn.writeEnd - turn.start) (2 ^ 32)
    rw [short]
    unfold u32
    omega
  · have sheds := held.call call
    have same := call.pagetable
    obtain ⟨g', t₂, dropped, more⟩ := dropPage_sheds (v := v) sheds.held (sheds.listed listed) low
      (call.present.mpr present) first last fun shares => by
        unfold Turn.Fits
        rw [sheds.vmaAt]
        exact fits present shares
    exact .of_returns dropped ⟨g', sheds.trans more⟩

theorem page_after {pos : Nat} (low : pos < MAXVA) : u64 (pos + PGSIZE) = pos + PGSIZE := by
  unfold MAXVA at low
  unfold u64 PGSIZE
  omega

theorem Vma.turn_start (first : pgrounddown addr ≤ q * PGSIZE) : q * PGSIZE ≤ (v.turn addr stop (q * PGSIZE)).start ∧
      (v.turn addr stop (q * PGSIZE)).start < q * PGSIZE + PGSIZE := by
  unfold pgrounddown PGSIZE at first
  unfold turn PGSIZE
  dsimp only
  split <;> omega

theorem Vma.turn_stop (low : q * PGSIZE < MAXVA) :
    (v.turn addr stop (q * PGSIZE)).stop = min stop (q * PGSIZE + PGSIZE) := by
  rw [min_def_lt]
  unfold turn
  dsimp only
  rw [page_after low]

theorem Vma.shares_back (first : pgrounddown addr ≤ q * PGSIZE) (low : q * PGSIZE < MAXVA)
    (shares : v.Shares (v.turn addr v.stop (q * PGSIZE)) (q * PGSIZE)) :
    pgrounddown addr = q * PGSIZE ∧ (v.turn addr v.stop (q * PGSIZE)).start = addr := by
  unfold Shares at shares
  rw [turn_stop low, page_after low] at shares
  have start : (v.turn addr v.stop (q * PGSIZE)).start = if addr > q * PGSIZE then addr else q * PGSIZE := rfl
  by_cases later : addr > q * PGSIZE
  · refine ⟨?_, start.trans (if_pos later)⟩
    unfold pgrounddown at *
    unfold PGSIZE at *
    omega
  · rw [start, if_neg later] at shares
    omega

theorem Vma.fits_back (first : pgrounddown addr ≤ q * PGSIZE) (low : q * PGSIZE < MAXVA)
    (shares : v.Shares (v.turn addr v.stop (q * PGSIZE)) (q * PGSIZE)) (straight : addr ≤ v.stop)
    (found : addr < v.stop → (s.vmaAt addr).isSome) : (v.turn addr v.stop (q * PGSIZE)).Fits s (q * PGSIZE) := by
  obtain ⟨page, start⟩ := shares_back first low shares
  unfold pgrounddown at page
  have offset : addr % PGSIZE < PGSIZE := Nat.mod_lt _ (by decide)
  have size : sub64 (min v.stop (q * PGSIZE + PGSIZE)) addr = min v.stop (q * PGSIZE + PGSIZE) - addr := by
    refine sub64_eq (by omega) (Nat.lt_of_le_of_lt (Nat.min_le_right ..) ?_)
    rw [← page_after low]
    exact Nat.mod_lt _ (by decide)
  have least : u32 (min v.stop (q * PGSIZE + PGSIZE) - addr) ≤ min v.stop (q * PGSIZE + PGSIZE) - addr :=
    Nat.mod_le ..
  unfold Turn.Fits
  rw [start, turn_stop low, size]
  by_cases none : addr < v.stop
  · refine .inr ⟨?_, found none⟩
    omega
  · refine .inl ?_
    have empty : min v.stop (q * PGSIZE + PGSIZE) - addr = 0 := by omega
    rw [empty]
    rfl

theorem Vma.turn_writeEnd_le {pos : Nat} : (v.turn addr stop pos).writeEnd ≤ (v.turn addr stop pos).stop := by
  have least : (v.turn addr stop pos).writeEnd = min (u64 (v.start + v.fileLength)) (v.turn addr stop pos).stop := by
    simp only [min_def_lt, turn, gt_iff_lt]
  rw [least]
  exact Nat.min_le_right ..

theorem Vma.turn_writeEnd (low : q * PGSIZE < MAXVA) :
    (v.turn addr stop (q * PGSIZE)).writeEnd ≤ q * PGSIZE + PGSIZE := by
  refine turn_writeEnd_le.trans ?_
  rw [turn_stop low]
  exact Nat.min_le_right ..

theorem Vma.not_shares (aligned : addr % PGSIZE = 0)
    (first : pgrounddown addr ≤ q * PGSIZE) (more : q * PGSIZE < stop) (low : stop ≤ RESERVED)
    (ends : stop % PGSIZE = 0 ∨ v.stop ≤ stop) : ¬v.Shares (v.turn addr stop (q * PGSIZE)) (q * PGSIZE) := by
  have space : q * PGSIZE < MAXVA := more.trans_le (low.trans (by decide))
  rw [pgrounddown_eq aligned] at first
  have start : (v.turn addr stop (q * PGSIZE)).start = q * PGSIZE := if_neg (Nat.not_lt.mpr first)
  unfold Shares
  rw [start, turn_stop space, page_after space]
  unfold PGSIZE at *
  omega

theorem vmaFreeMemLoop_sheds {fuel : Nat} (held : Held g s root) (here : s.pagetable = root)
    (listed : s.Listed) (first : pgrounddown addr ≤ q * PGSIZE) (low : stop ≤ RESERVED)
    (enough : stop ≤ q * PGSIZE + fuel * PGSIZE)
    (fits : ∀ q, pgrounddown addr ≤ q * PGSIZE → q * PGSIZE < stop → s.Present root (q * PGSIZE) →
      v.Shares (v.turn addr stop (q * PGSIZE)) (q * PGSIZE) → (v.turn addr stop (q * PGSIZE)).Fits s (q * PGSIZE)) :
    Ensures OfFiles (vmaFreeMemLoop root v addr stop (fuel + 1) (q * PGSIZE)) s
      fun _ s' => ∃ g', Sheds root s g' s' := by
  induction fuel generalizing g s q with
  | zero =>
    refine .ite (fun more => ?_) fun _ => .pure ⟨g, .refl held⟩
    omega
  | succ fuel ih =>
    refine .ite (fun more => ?_) fun _ => .pure ⟨g, .refl held⟩
    have below : q * PGSIZE < RESERVED := more.trans_le low
    have space : q * PGSIZE < MAXVA := below.trans_le (by decide)
    have next : u64 (q * PGSIZE + PGSIZE) = (q + 1) * PGSIZE := by
      rw [Nat.succ_mul, page_after space]
    subst here
    refine (freePage_sheds held listed below (turn_start first).1 (turn_start first).2
      (turn_writeEnd space) (fits q first more)).bind ?_
    rintro _ t ⟨g₁, sheds⟩
    have same : t.pagetable = s.pagetable := by rw [sheds.rest]; rfl
    rw [next]
    refine (ih sheds.held same (sheds.listed listed) ?_ ?_ fun q after before present shares => ?_).post ?_
    · rw [Nat.succ_mul]
      omega
    · rw [Nat.succ_mul] at enough ⊢
      omega
    · unfold Turn.Fits
      rw [sheds.vmaAt]
      exact fits q after before (sheds.fewer _ (before.trans_le (low.trans (by decide))) present) shares
    · rintro _ t' ⟨g₂, more⟩
      exact ⟨g₂, sheds.trans more⟩

theorem vmaFreeMem_sheds {length : Nat} (held : Held g s root)
    (here : s.pagetable = root) (listed : s.Listed) (low : u64 (addr + length) ≤ RESERVED)
    (fits : ∀ q, pgrounddown addr ≤ q * PGSIZE → q * PGSIZE < u64 (addr + length) → s.Present root (q * PGSIZE) →
      (s.vmas.get ref).Shares ((s.vmas.get ref).turn addr (u64 (addr + length)) (q * PGSIZE)) (q * PGSIZE) →
      ((s.vmas.get ref).turn addr (u64 (addr + length)) (q * PGSIZE)).Fits s (q * PGSIZE)) :
    Ensures OfFiles (vmaFreeMem root ref addr length) s fun _ s' => ∃ g', Sheds root s g' s' := by
  refine .get_bind ?_
  rw [pgrounddown_eq_mul]
  refine vmaFreeMemLoop_sheds held here listed pgrounddown_eq_mul.le low ?_ fits
  have bound : u64 (addr + length) < 2 ^ 64 := Nat.mod_lt _ (by decide)
  unfold PGSIZE
  omega

/-- The trapframe and the trampoline are where they were, and kfree has not got them. -/
structure Spares (root : PageNo) (s s' : Sys) : Prop where
  trampolineEntry : s'.entry root TRAMPOLINE = s.entry root TRAMPOLINE
  trapframeEntry : s'.entry root TRAPFRAME = s.entry root TRAPFRAME
  trapframe : (s.proc s.current).trapframe ∉ s'.freelist
  trampoline : s.trampoline ∉ s'.freelist

theorem Held.not_free (held : Held g s root) (other : g.own page = .other) : page ∉ s.freelist := by
  rw [held.tables.free, other]
  simp

theorem Sheds.spares (sheds : Sheds root s g' s') : Spares root s s' := by
  have rest := sheds.rest
  have same : (s'.proc s'.current).trapframe = (s.proc s.current).trapframe := by rw [rest]
  have code : s'.trampoline = s.trampoline := by rw [rest]
  exact ⟨sheds.entry _ (by decide) (by decide), sheds.entry _ (by decide) (by decide),
    same ▸ sheds.held.not_free sheds.held.trapframe, code ▸ sheds.held.not_free sheds.held.trampoline⟩

/-- Files take no memory, but for the pages of pipes. -/
def FilesOnly (s s' : Sys) : Prop :=
  s' = { s with
    file := s'.file, pipe := s'.pipe, inode := s'.inode, dinode := s'.dinode, bitmap := s'.bitmap
    block := s'.block, outstanding := s'.outstanding }

theorem Sheds.closes {t : Sys} (sheds : Sheds root s g' s') (only : FilesOnly s' t) : Spares root s t := by
  obtain ⟨code, frame, here, there⟩ := sheds.spares
  unfold FilesOnly at only
  rw [only]
  exact ⟨code, frame, here, there⟩

theorem Sheds.freed {t : Sys} (sheds : Sheds root s g' s') (pipe : PipePage g' s'.kernelEnd (s'.proc s'.current).trapframe s'.trampoline page)
    (only : FilesOnly s' t) : Spares root s (t.freed page) := by
  have used : g'.own page ≠ .free := by simp [pipe.other]
  have outside : ∀ r path, g'.own page ≠ .table r path := by simp [pipe.other]
  have freed : Tables (g'.assign page .free) (s'.freed page) :=
    sheds.held.tables.give rfl rfl (fun _ => freed_mem) used outside pipe.ram.1 pipe.ram.2
  have kept (va : Nat) : (s'.freed page).entry root va = s'.entry root va := by
    refine sheds.held.tables.entry_same freed rfl sheds.held.known fun path p node => freed_mem ?_
    rintro rfl
    exact outside _ _ (sheds.held.tables.table _ _ _ node)
  have rest := sheds.rest
  have frame : (s'.proc s'.current).trapframe = (s.proc s.current).trapframe := by rw [rest]
  have code : s'.trampoline = s.trampoline := by rw [rest]
  have same (va : Nat) : (t.freed page).entry root va = s'.entry root va := by
    rw [← kept, only]
    rfl
  have list : (t.freed page).freelist = page :: s'.freelist := by
    rw [only]
    rfl
  obtain ⟨trampoline, trapframe, here, there⟩ := sheds.spares
  refine ⟨(same _).trans trampoline, (same _).trans trapframe, ?_, ?_⟩
  · rw [list, List.mem_cons, not_or]
    exact ⟨(frame ▸ pipe.trapframe).symm, here⟩
  · rw [list, List.mem_cons, not_or]
    exact ⟨(code ▸ pipe.trampoline).symm, there⟩

theorem pipeclose_spares {writable : Bool} {t : Sys} (sheds : Sheds root s g' s')
    (pipe : PipePage g' s'.kernelEnd (s'.proc s'.current).trapframe s'.trampoline page) (only : FilesOnly s' t) :
    Ensures OfFiles (pipeclose page writable) t fun _ t' => Spares root s t' ∧ t'.vmas = s'.vmas := by
  refine .modify_bind (.get_bind ?_)
  generalize next : ({ t with pipe := update t.pipe page ((t.pipe page).closeEnd writable) } : Sys) = t'
  have only' : FilesOnly s' t' := by
    unfold FilesOnly at only ⊢
    rw [← next, only]
  have vmas : t'.vmas = s'.vmas := by rw [only']
  have ram : t'.kernelEnd ≤ page * PGSIZE ∧ page * PGSIZE < PHYSTOP := by
    rw [only']
    exact pipe.ram
  exact .ite (fun _ => .of_returns (a := ()) (returns_kfree.mpr ⟨ram, rfl⟩) ⟨sheds.freed pipe only', vmas⟩)
    fun _ => .pure ⟨sheds.closes only', vmas⟩

theorem fileclose_spares {f : FileId} (sheds : Sheds root s g' s') :
    Ensures OfFiles (fileclose f) s' fun _ t => Spares root s t ∧ t.vmas = s'.vmas := by
  have setFile (file : File) : FilesOnly s' (s'.setFile f file) := rfl
  refine .get_bind ((failIf_frames (R := Eq) (by decide) s').bind ?_)
  rintro _ t rfl
  refine .ite (fun _ => .modify ⟨sheds.closes (setFile _), rfl⟩) fun _ => .modify_bind ?_
  have put (ip : Option InodeId) (file : File) : Ensures OfFiles (putInode ip) (s'.setFile f file)
      fun _ t => Spares root s t ∧ t.vmas = s'.vmas :=
    (putInode_frames _).post fun _ t call => by
      have only : FilesOnly s' t := by
        unfold FsCall at call
        rw [call]
        rfl
      exact ⟨sheds.closes only, by rw [only]⟩
  unfold closeLast
  split
  · rename_i kind
    exact pipeclose_spares sheds (sheds.held.pipes f kind) (setFile _)
  · exact put _ _
  · exact put _ _
  · exact .pure ⟨sheds.closes (setFile _), rfl⟩

theorem closeFile_spares (sheds : Sheds root s g' s') :
    Ensures OfFiles (closeFile file) s' fun _ t => Spares root s t ∧ t.vmas = s'.vmas := by
  cases file with
  | none => exact .pure ⟨sheds.spares, rfl⟩
  | some f => exact fileclose_spares sheds

theorem Spares.setVmas {vmas : VmaTable} (spares : Spares root s s') : Spares root s (s'.setVmas vmas) :=
  ⟨spares.trampolineEntry, spares.trapframeEntry, spares.trapframe, spares.trampoline⟩

theorem vmaFree_spares (held : Held g s root) (here : s.pagetable = root) (listed : s.Listed)
    (aligned : (s.vmas.get ref).start % PGSIZE = 0) (low : (s.vmas.get ref).stop ≤ RESERVED) :
    Ensures OfFiles (vmaFree root ref) s
      fun _ t => Spares root s t ∧ t.vmas = s.vmas.modify (fun _ => .free) ref := by
  refine .get_bind ((vmaFreeMem_sheds held here listed low fun q first more _ shares => ?_).bind ?_)
  · exact absurd shares (not_shares aligned first more low (.inr le_rfl))
  · rintro _ t ⟨g', sheds⟩
    refine (closeFile_spares sheds).bind ?_
    rintro _ t' ⟨spares, vmas⟩
    refine .modify ⟨spares.setVmas, ?_⟩
    change t'.vmas.modify (fun _ => .free) ref = s.vmas.modify (fun _ => .free) ref
    rw [vmas, sheds.rest]

end Sheds

end DeisoXv6
