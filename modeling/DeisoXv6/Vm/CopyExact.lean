import DeisoXv6.Vm.Prefault

/-! copyout and copyin against the memory that a process can observe: what is mapped, and what lazyalloc would put
where nothing is mapped yet. A copy maps pages as it goes; each page has to be the one that its entry names. -/

set_option autoImplicit false

namespace DeisoXv6

open List Function Semantics Bytes

structure Sys.SoundFiles (s : Sys) : Prop where
  solid : s.SolidFiles
  typed : ∀ vma f i, (s.vmas.get vma).file = some f → (s.file f).ip = some i → (s.copyOf i).type ≠ .free

/-- What is mapped for the user is a page for that address and nothing else, the rest belongs to the kernel. Of the
pages in `wild` nothing is known. -/
structure OwnPages (g : Layout) (s : Sys) (root : PageNo) (wild : Set Nat) : Prop where
  tables : Tables g s
  known : g.tree root [] = some root
  list : ∃ refs, s.vmas.refs s.current = .ok refs
  files : s.SoundFiles
  user : ∀ q ∉ wild, q * PGSIZE < MAXVA → s.Present root (q * PGSIZE) →
    Pte.has (s.entry root (q * PGSIZE)) PTE_U = true → g.own (pte2pa (s.entry root (q * PGSIZE))) = .user root q
  kernel : ∀ q ∉ wild, q * PGSIZE < MAXVA → s.Present root (q * PGSIZE) →
    Pte.has (s.entry root (q * PGSIZE)) PTE_U = false → g.own (pte2pa (s.entry root (q * PGSIZE))) = .other

variable {g g' : Layout} {s s' t : Sys} {root page : PageNo} {wild wild' : Set Nat} {p q va : Nat}

section Own

variable {off : Nat} {bytes : List UInt8}

theorem SameFiles.sound (same : SameFiles s s') (sound : s.SoundFiles) : s'.SoundFiles := by
  refine ⟨same.solid sound.solid, fun vma f i file place => ?_⟩
  rw [same.vmas] at file
  rw [same.file] at place
  rw [(same.inode i).1]
  exact sound.typed vma f i file place

theorem OwnPages.data (own : OwnPages g s root wild) (tame : q ∉ wild) (low : q * PGSIZE < MAXVA)
    (present : s.Present root (q * PGSIZE)) : g.Data (pte2pa (s.entry root (q * PGSIZE))) := by
  cases user : Pte.has (s.entry root (q * PGSIZE)) PTE_U with
  | true => exact .user (own.user q tame low present user)
  | false =>
    have other := own.kernel q tame low present user
    exact ⟨by simp [other], by simp [other]⟩

theorem OwnPages.safe (own : OwnPages g s root wild) (before : ∀ q ∈ wild, q < p) : SafeFrom g s root p :=
  fun q after low present _ => own.data (fun inside => Nat.not_le.mpr (before q inside) after) low present

theorem OwnPages.evolves (own : OwnPages g s root wild) (evolves : Evolves g s g' s') (files : SameFiles s s')
    (more : wild ⊆ wild') (mapped : ∀ q ∉ wild', q * PGSIZE < MAXVA →
      s'.entry root (q * PGSIZE) = s.entry root (q * PGSIZE) ∨ (Pte.has (s'.entry root (q * PGSIZE)) PTE_U = true ∧
        g'.own (pte2pa (s'.entry root (q * PGSIZE))) = .user root q)) : OwnPages g' s' root wild' := by
  refine ⟨evolves.tables, evolves.tree _ _ _ own.known, ?_, files.sound own.files,
    fun q tame low present user => ?_, fun q tame low present user => ?_⟩
  · rw [files.vmas, files.current]
    exact own.list
  · rcases mapped q tame low with same | new
    · unfold Sys.Present at present
      rw [same] at present user ⊢
      have mine := own.user q (fun inside => tame (more inside)) low present user
      exact (evolves.own _ (by simp [mine])).trans mine
    · exact new.2
  · rcases mapped q tame low with same | new
    · unfold Sys.Present at present
      rw [same] at present user ⊢
      have other := own.kernel q (fun inside => tame (more inside)) low present user
      exact (evolves.own _ (by simp [other])).trans other
    · rw [new.1] at user
      contradiction

theorem pageAt_congr (vmaAt : s'.vmaAt (q * PGSIZE) = s.vmaAt (q * PGSIZE)) (files : SameFiles s s')
    (entry : s'.entry root (q * PGSIZE) = s.entry root (q * PGSIZE)) (mem : s.Present root (q * PGSIZE) →
      s'.mem (pte2pa (s.entry root (q * PGSIZE))) = s.mem (pte2pa (s.entry root (q * PGSIZE)))) :
    s'.pageAt root q = s.pageAt root q := by
  have iff := present_congr entry
  unfold Sys.pageAt
  by_cases present : s.Present root (q * PGSIZE)
  · rw [if_pos present, if_pos (iff.mpr present), entry, mem present]
  · rw [if_neg present, if_neg (mt iff.mp present), vmaAt]
    cases s.vmaAt (q * PGSIZE) with
    | none => rfl
    | some vma =>
      dsimp only
      rw [files.pageBytes, files.vmas]

theorem OwnPages.pageAt (own : OwnPages g s root wild) (evolves : Evolves g s g' s') (files : SameFiles s s')
    (tame : q ∉ wild) (low : q * PGSIZE < MAXVA)
    (entry : s'.entry root (q * PGSIZE) = s.entry root (q * PGSIZE)) : s'.pageAt root q = s.pageAt root q :=
  pageAt_congr (vmaAt_congr files.vmas files.current) files entry fun present =>
    have data := own.data tame low present
    evolves.mem _ data.used data.outside

theorem sameFiles_store : SameFiles s (s.store page off bytes) := ⟨rfl, rfl, rfl, rfl, rfl, fun _ => ⟨rfl, rfl, rfl⟩⟩

theorem OwnPages.store (own : OwnPages g s root wild) (data : g.Data page) :
    OwnPages g (s.store page off bytes) root wild := by
  have entry (q : Nat) : (s.store page off bytes).entry root (q * PGSIZE) = s.entry root (q * PGSIZE) :=
    own.tables.entry_store data own.known
  refine ⟨own.tables.store data, own.known, own.list, sameFiles_store.sound own.files, fun q tame low present => ?_,
    fun q tame low present => ?_⟩
  · rw [own.tables.present_store data own.known] at present
    rw [entry]
    exact own.user q tame low present
  · rw [own.tables.present_store data own.known] at present
    rw [entry]
    exact own.kernel q tame low present

theorem OwnPages.pageAt_store (own : OwnPages g s root wild) (mine : g.own page = .user root p) (tame : q ∉ wild)
    (low : q * PGSIZE < MAXVA) (other : q ≠ p) : (s.store page off bytes).pageAt root q = s.pageAt root q := by
  refine pageAt_congr rfl sameFiles_store (own.tables.entry_store (.user mine) own.known) fun present => ?_
  have apart : pte2pa (s.entry root (q * PGSIZE)) ≠ page := by
    intro same
    cases user : Pte.has (s.entry root (q * PGSIZE)) PTE_U with
    | true =>
      have yours := own.user q tame low present user
      rw [same, mine] at yours
      exact other (by simpa using yours.symm)
    | false =>
      have kernels := own.kernel q tame low present user
      rw [same, mine] at kernels
      contradiction
  unfold Sys.store
  dsimp only
  rw [update_of_ne apart]

theorem Tables.pageAt_store (tables : Tables g s) (known : g.tree root [] = some root) (data : g.Data page)
    (present : s.Present root (p * PGSIZE)) (frame : pte2pa (s.entry root (p * PGSIZE)) = page) :
    (s.store page off bytes).pageAt root p = overlay (s.pageAt root p) off bytes := by
  rw [pageAt_present ((tables.present_store data known).mpr present), tables.entry_store data known,
    pageAt_present present, frame]
  exact update_self ..

end Own

/-- The file of a VMA can be read: it has an inode that is not locked, and no spin lock is held. -/
def Sys.Readable (s : Sys) (v : Vma) : Prop :=
  s.spinlocks = 0 ∧ ∃ f i, v.file = some f ∧ (s.file f).ip = some i ∧ 1 ≤ (s.inode i).ref ∧ (s.inode i).locked = false

/-- A copy that starts at page `p` comes to page `q`, which has to be read from a file that cannot be read. -/
structure Sys.Blocked (s : Sys) (root : PageNo) (p q : Nat) : Prop extends s.Sticks root p q where
  unreadable : ∀ vma, s.vmaAt (q * PGSIZE) = some vma → ¬s.Readable (s.vmas.get vma)

/-- The page that is taken from the free list for page `q`, if it is, is the one that the entry made for it names. -/
def Sys.Fits (s : Sys) (root : PageNo) (p q : Nat) : Prop :=
  ¬s.Present root (q * PGSIZE) → ∀ vma page, s.vmaAt (q * PGSIZE) = some vma →
    s.freelist[s.need root (Finset.Ico p q)]? = some page → pte2pa (lazyPte page (s.vmas.get vma)) = page

structure Halts (root : PageNo) (g : Layout) (s : Sys) (g' : Layout) (s' : Sys) : Prop extends Evolves g s g' s' where
  files : SameFiles s s'
  entry : ∀ va, s'.entry root va = s.entry root va

structure Takes (root : PageNo) (p : Nat) (page : PageNo) (g : Layout) (s : Sys) (g' : Layout) (s' : Sys) :
    Prop extends Steps root p page g s g' s' where
  mine : g'.own page = .user root p
  list : s'.freelist = s.freelist.drop (s.cost root p)
  fits : s.Fits root p p ↔ pte2pa (s'.entry root (p * PGSIZE)) = page

section Step

variable {v : Vma}

theorem SameFiles.readable (same : SameFiles s s') : s'.Readable v ↔ s.Readable v := by
  unfold Sys.Readable
  simp only [same.spinlocks, same.file, fun i => (same.inode i).2.1, fun i => (same.inode i).2.2]

theorem fails_loadPage_iff
    (sound : ∀ f i, v.file = some f → (s.file f).ip = some i → s.Solid (s.copyOf i) ∧ (s.copyOf i).type ≠ .free) :
    (∃ e, Fails (loadPage page v va) s e) ↔ v.Loads va ∧ ¬s.Readable v := by
  constructor
  · rintro ⟨e, fails⟩
    have loads : v.Loads va := by
      unfold loadPage at fails
      cases file : v.file with
      | none =>
        rw [file] at fails
        exact absurd fails fails_pure
      | some f =>
        rw [file] at fails
        dsimp only at fails
        unfold onlyIf at fails
        split at fails
        · rename_i part
          exact ⟨by rw [file]; rfl, part⟩
        · exact absurd fails fails_pure
    refine ⟨loads, ?_⟩
    rintro ⟨free, f, i, file, place, ref, unlocked⟩
    have ready : ∀ f', v.file = some f' → ∃ i, (s.file f').ip = some i ∧ s.Ready i := by
      intro f' same
      rw [file] at same
      cases same
      exact ⟨i, place, ref, unlocked, (sound f i file place).2, (sound f i file place).1⟩
    exact ((fails_loadPage ready).mp fails).2.1 free
  · rintro ⟨⟨some, part⟩, unreadable⟩
    obtain ⟨f, file⟩ := Option.isSome_iff_exists.mp some
    unfold loadPage onlyIf
    rw [file]
    dsimp only
    rw [if_pos part]
    by_cases free : s.spinlocks = 0
    · have locking : ∃ e, Fails (ilock (s.file f).ip) s e := by
        cases place : (s.file f).ip with
        | none => exact ⟨_, fails_throw.mpr rfl⟩
        | some i =>
          unfold ilock
          by_cases unused : (s.inode i).ref < 1
          · exact ⟨_, fails_get_bind.mpr (fails_failIf_bind.mpr (.inl ⟨unused, rfl⟩))⟩
          · have locked : (s.inode i).locked = true := by
              by_contra unlocked
              exact unreadable ⟨free, f, i, file, place, by omega, by simpa using unlocked⟩
            exact ⟨_, fails_get_bind.mpr (fails_failIf_bind.mpr (.inr ⟨unused, fails_failIf_bind.mpr (.inl ⟨locked, rfl⟩)⟩))⟩
      obtain ⟨e, fails⟩ := locking
      exact ⟨e, fails_get_bind.mpr (fails_failIf_bind.mpr (.inr ⟨not_not.mpr free, fails_bind.mpr (.inl fails)⟩))⟩
    · exact ⟨_, fails_get_bind.mpr (fails_failIf_bind.mpr (.inl ⟨free, rfl⟩))⟩

section

variable (own : OwnPages g s root wild)

include own

theorem OwnPages.fails_walkaddr : (∃ e, Fails (walkaddr root (p * PGSIZE)) s e) ↔ s.Blocked root p p := by
  have loads (vma : VmaRef) (page : PageNo) (pages : List PageNo) :
      (∃ e, Fails (loadPage page (s.vmas.get vma) (p * PGSIZE)) (s.takeZeroed page pages) e) ↔
        (s.vmas.get vma).Loads (p * PGSIZE) ∧ ¬s.Readable (s.vmas.get vma) :=
    fails_loadPage_iff (s := s.takeZeroed page pages) fun f i file place =>
      ⟨own.files.solid vma f i file place, own.files.typed vma f i file place⟩
  constructor
  · rintro ⟨e, fails⟩
    obtain ⟨opened, absent, vma, place, alloc⟩ := (fails_walkaddr_alloc own.list).mp fails
    obtain ⟨page, pages, first, load⟩ := (fails_lazyalloc_load own.tables opened.low).mp alloc
    obtain ⟨reads, unreadable⟩ := (loads vma page pages).mp ⟨e, load⟩
    refine ⟨⟨fun r low high => ?_, absent, ⟨vma, place, reads⟩, ?_⟩, fun vma' place' => ?_⟩
    · rw [le_antisymm high low]
      exact opened
    · rw [Finset.Ico_self, need_empty, first]
      exact Nat.zero_lt_succ _
    · rw [place] at place'
      cases place'
      exact unreadable
  · rintro ⟨⟨all, absent, ⟨vma, place, reads⟩, memory⟩, unreadable⟩
    have opened := all p (le_rfl) (le_rfl)
    obtain ⟨page, pages, first⟩ := exists_cons_of_length_pos (Nat.zero_lt_of_lt memory)
    obtain ⟨e, load⟩ := (loads vma page pages).mpr ⟨reads, unreadable vma place⟩
    exact ⟨e, (fails_walkaddr_alloc own.list).mpr ⟨opened, absent, vma, place,
      (fails_lazyalloc_load own.tables opened.low).mpr ⟨page, pages, first, load⟩⟩⟩

theorem Takes.present_already (tame : p ∉ wild) (opened : s.Open root (p * PGSIZE))
    (present : s.Present root (p * PGSIZE)) : Takes root p (pte2pa (s.entry root (p * PGSIZE))) g s g s := by
  have mine := own.user p tame opened.low present (opened.user present).1
  have maps := Maps.present_already own.tables opened present (.user mine)
  rw [Nat.mul_div_cancel _ (by decide)] at maps
  refine ⟨⟨maps, opened, (pageAt_present present).symm⟩, mine, ?_, ?_⟩
  · rw [Sys.cost, if_pos present, drop_zero]
  · exact iff_of_true (fun absent => absurd present absent) rfl

theorem Takes.loaded {vma : VmaRef} {pages : List PageNo}
    (opened : s.Open root (p * PGSIZE)) (absent : ¬s.Present root (p * PGSIZE))
    (place : s.vmaAt (p * PGSIZE) = some vma) (loads : Loads s (p * PGSIZE) (s.vmas.get vma) page pages s')
    (enough : g.missing root (p * PGSIZE) ≤ pages.length)
    (left : s'.freelist = pages.drop (g.missing root (p * PGSIZE))) (mine : g'.own page = .user root p)
    (remaps : Remaps root (p * PGSIZE) (lazyPte page (s.vmas.get vma)) g s g' s') : Takes root p page g s g' s' := by
  have number : p * PGSIZE / PGSIZE = p := Nat.mul_div_cancel _ (by decide)
  have maps := Maps.loaded own.tables own.known own.files.solid absent loads enough left (by rw [number, mine]) remaps
  rw [number] at maps
  refine ⟨⟨maps, opened, ?_⟩, mine, ?_, ?_⟩
  · exact (loads.contents (own.files.solid vma)).1.trans (pageAt_absent absent place).symm
  · rw [Sys.cost, if_neg absent, ← own.tables.missing_eq own.known, loads.list, left, Nat.add_comm, drop_succ_cons]
  · have first : s.freelist[s.need root (Finset.Ico p p)]? = some page := by
      rw [Finset.Ico_self, need_empty, loads.list]
      rfl
    rw [remaps.entry]
    constructor
    · exact fun fits => fits absent vma page place first
    · intro same _ vma' page' place' first'
      rw [place] at place'
      rw [first] at first'
      cases place'
      cases first'
      exact same

theorem OwnPages.walkaddr {a : Option PageNo} (before : ∀ q ∈ wild, q < p)
    (run : Returns (walkaddr root (p * PGSIZE)) s a s') :
    (a = none ∧ (∀ q, p ≤ q → ¬s.Reaches root p q) ∧ ∃ g', Halts root g s g' s') ∨
    ∃ page g', a = some page ∧ Takes root p page g s g' s' := by
  have tame : p ∉ wild := fun inside => lt_irrefl p (before p inside)
  rcases walkaddr_returns run with ⟨shut, rfl, rfl⟩ | ⟨opened, present, rfl, rfl⟩ |
    ⟨opened, absent, vma, place, alloc⟩
  · exact .inl ⟨rfl, fun q after reach => shut (reach.opened p (le_rfl) after),
      g, .refl own.tables, .refl, fun _ => rfl⟩
  · exact .inr ⟨_, g, rfl, .present_already own tame opened present⟩
  · rcases lazyalloc_returns own.tables own.known opened.low alloc with
      ⟨page, pages, g', rfl, loads, enough, left, mine, remaps⟩ | ⟨rfl, few, -, g', grown, -⟩
    · rw [Nat.mul_div_cancel _ (by decide)] at mine
      exact .inr ⟨page, g', rfl, .loaded own opened absent place loads enough left mine remaps⟩
    · refine .inl ⟨rfl, fun q after reach => ?_, g', grown.toEvolves, lazyalloc_files (own.files.solid vma) alloc,
        fun va => grown.entry root va own.known⟩
      have memory := (reach.le after).memory
      rw [Finset.Icc_self, need_singleton, Sys.cost, if_neg absent, ← own.tables.missing_eq own.known] at memory
      omega

end

namespace Takes

variable (takes : Takes root p page g s g' s') (own : OwnPages g s root wild)

include takes

theorem entry_other (other : q ≠ p) (low : q * PGSIZE < MAXVA) :
    s'.entry root (q * PGSIZE) = s.entry root (q * PGSIZE) :=
  takes.covers.entry q (by rwa [Finset.mem_singleton]) low

theorem fits_later (after : p < q) (low : q * PGSIZE < MAXVA) : s.Fits root p q ↔ s'.Fits root (p + 1) q := by
  have need := takes.need_Ico after fun r _ last => (Nat.mul_lt_mul_of_pos_right last (by decide)).trans low
  unfold Sys.Fits
  rw [present_congr (takes.entry_other (Nat.ne_of_gt after) low), takes.covers.vmaAt, takes.files.vmas, takes.list, List.getElem?_drop, need]

theorem blocked_later (after : p < q) : s.Blocked root p q ↔ s'.Blocked root (p + 1) q := by
  have sticks := takes.sticks takes.opened after
  constructor
  · rintro ⟨here, unreadable⟩
    refine ⟨sticks.mp here, fun vma place => ?_⟩
    rw [takes.covers.vmaAt] at place
    rw [takes.files.readable, takes.files.vmas]
    exact unreadable vma place
  · rintro ⟨here, unreadable⟩
    refine ⟨sticks.mpr here, fun vma place => ?_⟩
    have denied := unreadable vma ((takes.covers.vmaAt _).trans place)
    rwa [takes.files.readable, takes.files.vmas] at denied

include own

theorem ownPages (more : wild ⊆ wild') (tracked : p ∈ wild' ∨ s.Fits root p p) : OwnPages g' s' root wild' := by
  refine own.evolves takes.toEvolves takes.files more fun q tame low => ?_
  by_cases here : q = p
  · subst here
    rw [takes.fits.mp (tracked.resolve_left tame)]
    exact .inr ⟨takes.user.1, takes.mine⟩
  · exact .inl (takes.entry_other here low)

theorem pageAt_other (tame : q ∉ wild) (low : q * PGSIZE < MAXVA) (other : q ≠ p) :
    s'.pageAt root q = s.pageAt root q :=
  own.pageAt takes.toEvolves takes.files tame low (takes.entry_other other low)

end Takes

theorem Tables.fits_store {off : Nat} {bytes : List UInt8} (tables : Tables g s) (data : g.Data page)
    (known : g.tree root [] = some root) : (s.store page off bytes).Fits root p q ↔ s.Fits root p q := by
  unfold Sys.Fits
  rw [tables.present_store data known, tables.need_store data known]
  rfl

theorem Tables.blocked_store {off : Nat} {bytes : List UInt8} (tables : Tables g s) (data : g.Data page)
    (known : g.tree root [] = some root) : (s.store page off bytes).Blocked root p q ↔ s.Blocked root p q := by
  have sticks : (s.store page off bytes).Sticks root p q ↔ s.Sticks root p q := tables.sticks_store data known
  constructor
  · exact fun ⟨here, unreadable⟩ => ⟨sticks.mp here, unreadable⟩
  · exact fun ⟨here, unreadable⟩ => ⟨sticks.mpr here, unreadable⟩

end Step

/-- A copy of `src` to `va`, page by page: it is through, or stuck at a page from which on nothing can be had. -/
inductive Stores (root : PageNo) : Nat → List UInt8 → Layout → Sys → Sys → Bool → Prop
  | done {va : Nat} {g : Layout} {s : Sys} : Stores root va [] g s s true
  | stuck {va : Nat} {src : List UInt8} {g g' : Layout} {s s' : Sys} (more : src ≠ [])
      (shut : ∀ q, va / PGSIZE ≤ q → ¬s.Reaches root (va / PGSIZE) q) (halts : Halts root g s g' s') :
      Stores root va src g s s' false
  | turn {va n : Nat} {src : List UInt8} {page : PageNo} {g g' : Layout} {s s' t : Sys} {ok : Bool} (more : src ≠ [])
      (size : min (PGSIZE - va % PGSIZE) src.length = n) (takes : Takes root (va / PGSIZE) page g s g' s')
      (rest : Stores root ((va / PGSIZE + 1) * PGSIZE) (src.drop n) g'
        (s'.store page (va % PGSIZE) (src.take n)) t ok) :
      Stores root va src g s t ok

variable {a : Nat} {f : Nat → UInt8} {ok : Bool}

section Loops

variable {fuel : Nat}

theorem next_div : (va / PGSIZE + 1) * PGSIZE / PGSIZE = va / PGSIZE + 1 := Nat.mul_div_cancel _ (by decide)

theorem Takes.ownNext (bytes : List UInt8) (takes : Takes root (va / PGSIZE) page g s g' s')
    (own : OwnPages g s root wild) (before : ∀ q ∈ wild, q < va / PGSIZE) :
    OwnPages g' (s'.store page (va % PGSIZE) bytes) root (insert (va / PGSIZE) wild) ∧
      ∀ q ∈ insert (va / PGSIZE) wild, q < (va / PGSIZE + 1) * PGSIZE / PGSIZE := by
  refine ⟨(takes.ownPages own (Set.subset_insert ..) (.inl (Set.mem_insert ..))).store takes.data, ?_⟩
  rintro q (rfl | inside)
  · rw [next_div]
    exact Nat.lt_succ_self _
  · rw [next_div]
    exact Nat.lt_succ_of_lt (before q inside)

theorem copyoutLoop_stores {src : List UInt8} {r : Nat × Bool} (own : OwnPages g s root wild)
    (before : ∀ q ∈ wild, q < va / PGSIZE) (enough : src.length ≤ fuel)
    (run : Returns (copyoutLoop root fuel va src) s r t) : Stores root va src g s t r.2 := by
  induction fuel generalizing g s va src r wild with
  | zero =>
    obtain ⟨rfl, rfl⟩ := returns_pure.mp run
    rw [length_eq_zero_iff.mp (Nat.le_zero.mp enough)]
    exact .done
  | succ fuel ih =>
    by_cases empty : src = []
    · subst empty
      obtain ⟨rfl, rfl⟩ := copyoutLoop_zero.unique run
      exact .done
    · obtain ⟨a, u, walked, run⟩ := (returns_copyoutLoop empty).mp run
      rw [pgrounddown_eq_mul] at walked
      rcases own.walkaddr before walked with ⟨rfl, shut, g', halts⟩ | ⟨page, g', rfl, takes⟩
      · obtain ⟨rfl, rfl⟩ := run
        exact .stuck empty shut halts
      · obtain ⟨rest, loop, rfl⟩ := run
        rw [pgrounddown_eq_mul, next_page takes.low] at loop
        have positive : 0 < src.length := length_pos_iff.mpr empty
        have room : 0 < PGSIZE - va % PGSIZE := Nat.sub_pos_of_lt (Nat.mod_lt _ (by decide))
        obtain ⟨own', before'⟩ := takes.ownNext _ own before
        have onward := ih own' before' (by rw [length_drop]; omega) loop
        exact .turn empty rfl takes onward

theorem copyinLoop_stores {len : Nat} {r : List UInt8 × Bool} (own : OwnPages g s root wild)
    (before : ∀ q ∈ wild, q < va / PGSIZE) (enough : len ≤ fuel) (run : Returns (copyinLoop root fuel va len) s r t) :
    ∃ src, src.length = len ∧ r.1 <+: src ∧ Stores root va src g s t r.2 := by
  obtain ⟨src, length, copies, -⟩ := @copyinLoop_copyout s root fuel va len
  obtain ⟨begins, copied⟩ := copies r t run
  exact ⟨src, length, begins, copyoutLoop_stores own before (length ▸ enough) copied⟩

theorem overlay_first {src : List UInt8} {n : Nat} (size : min (PGSIZE - va % PGSIZE) src.length = n)
    (here : a / PGSIZE = va / PGSIZE) :
    overlay (s.pageAt root (va / PGSIZE)) (va % PGSIZE) (src.take n) (a % PGSIZE) =
      overlay (s.byteAt root) va src a := by
  have length : (src.take n).length = n := by
    rw [length_take]
    omega
  have place : a % PGSIZE + va = va % PGSIZE + a := by
    unfold PGSIZE at *
    omega
  have page : a % PGSIZE < PGSIZE := Nat.mod_lt _ (by decide)
  by_cases inside : va ≤ a ∧ a < va + src.length
  · have index : a % PGSIZE - va % PGSIZE = a - va := by omega
    unfold overlay
    rw [if_pos inside, if_pos (by rw [length]; omega), index, getD_eq_getElem?_getD, List.getElem?_take_of_lt (by omega),
      ← getD_eq_getElem?_getD]
  · rw [overlay_outside (by rw [length]; omega), overlay_outside (by omega), Sys.byteAt, here]

theorem overlay_rest {src : List UInt8} {n : Nat} (size : min (PGSIZE - va % PGSIZE) src.length = n)
    (other : a / PGSIZE ≠ va / PGSIZE) :
    overlay f ((va / PGSIZE + 1) * PGSIZE) (src.drop n) a = overlay f va src a := by
  have length : (src.drop n).length = src.length - n := length_drop
  by_cases inside : va ≤ a ∧ a < va + src.length
  · have later : PGSIZE - va % PGSIZE ≤ a - va := by
      unfold PGSIZE at *
      omega
    have start := add_of_ge later
    have index : n + (a - (va / PGSIZE + 1) * PGSIZE) = a - va := by omega
    unfold overlay
    rw [if_pos inside, if_pos (by rw [length]; omega), getD_eq_getElem?_getD, List.getElem?_drop, index,
      getD_eq_getElem?_getD]
  · refine (overlay_outside ?_).trans (overlay_outside (by omega)).symm
    rw [length]
    unfold PGSIZE at *
    omega

/-- What a copy does to the bytes of a page, as long as the page taken for it, if there is one, is the page that
its entry names. -/
theorem Stores.byteAt {src : List UInt8} (stores : Stores root va src g s t ok)
    (own : OwnPages g s root wild) (before : ∀ q ∈ wild, q < va / PGSIZE) (low : a < MAXVA) (tame : a / PGSIZE ∉ wild)
    (fits : ∀ i < src.length, (va + i) / PGSIZE = a / PGSIZE → s.Reaches root (va / PGSIZE) (a / PGSIZE) →
      s.Fits root (va / PGSIZE) (a / PGSIZE)) :
    ((va ≤ a ∧ a < va + src.length → s.Reaches root (va / PGSIZE) (a / PGSIZE)) →
      t.byteAt root a = overlay (s.byteAt root) va src a) ∧
    (¬s.Reaches root (va / PGSIZE) (a / PGSIZE) → t.byteAt root a = s.byteAt root a) := by
  have lowPage : a / PGSIZE * PGSIZE < MAXVA := Nat.lt_of_le_of_lt (Nat.div_mul_le_self ..) low
  induction stores generalizing wild with
  | done =>
    rw [overlay_nil]
    exact ⟨fun _ => rfl, fun _ => rfl⟩
  | @stuck va src g g' s s' more shut halts =>
    have same : s'.byteAt root a = s.byteAt root a := by
      unfold Sys.byteAt
      rw [own.pageAt halts.toEvolves halts.files tame lowPage (halts.entry _)]
    refine ⟨fun reached => ?_, fun _ => same⟩
    rw [same, overlay_outside]
    by_contra inside
    rw [not_or, Nat.not_lt, Nat.not_le] at inside
    exact shut _ (Nat.div_le_div_right inside.1) (reached inside)
  | @turn va n src page g g' s s' t ok more size takes rest ih =>
    have positive : 0 < src.length := length_pos_iff.mpr more
    have known' := takes.tree _ _ _ own.known
    rw [next_div] at ih
    by_cases here : a / PGSIZE = va / PGSIZE
    · -- the page of this turn: its frame is known, and the rest of the copy does not come back to it
      have reached := takes.reaches_self takes.opened
      rw [here] at fits tame lowPage
      have frame := fits 0 positive rfl reached
      have own' := takes.ownPages own (Set.Subset.refl _) (.inr frame)
      have below : a < (va / PGSIZE + 1) * PGSIZE := by
        unfold PGSIZE at *
        omega
      have later := (ih (own'.store takes.data) (fun q inside => Nat.lt_succ_of_lt (before q inside)) (here.symm ▸ tame)
        (fun i _ same => absurd same (by unfold PGSIZE at *; omega))).1
        fun inside => absurd below (Nat.not_lt.mpr inside.1)
      have present : s'.Present root (va / PGSIZE * PGSIZE) := takes.covers.present _ (Finset.mem_singleton_self _)
      have contents : s'.pageAt root (va / PGSIZE) = s.pageAt root (va / PGSIZE) := by
        rw [pageAt_present present, takes.fits.mp frame, takes.contents]
      have now : t.byteAt root a = overlay (s.byteAt root) va src a := by
        rw [later, overlay_outside (.inl below), Sys.byteAt, here,
          takes.tables.pageAt_store known' takes.data present (takes.fits.mp frame), contents, overlay_first size here]
      rw [here]
      exact ⟨fun _ => now, fun unreached => absurd reached unreached⟩
    · obtain ⟨own', before'⟩ := takes.ownNext (src.take n) own before
      rw [next_div] at before'
      have tame' : a / PGSIZE ∉ insert (va / PGSIZE) wild := by
        rintro (same | inside)
        · exact here same
        · exact tame inside
      have same : (s'.store page (va % PGSIZE) (src.take n)).byteAt root a = s.byteAt root a := by
        have moved := takes.ownPages own (Set.subset_insert (va / PGSIZE) wild) (.inl (Set.mem_insert ..))
        unfold Sys.byteAt
        rw [moved.pageAt_store takes.mine tame' lowPage here, takes.pageAt_other own tame lowPage here]
      have reaches (after : va / PGSIZE < a / PGSIZE) : s.Reaches root (va / PGSIZE) (a / PGSIZE) ↔
          (s'.store page (va % PGSIZE) (src.take n)).Reaches root (va / PGSIZE + 1) (a / PGSIZE) := by
        rw [takes.tables.reaches_store takes.data known']
        exact takes.reaches takes.opened after
      have length : (src.drop n).length = src.length - n := length_drop
      obtain ⟨inner, outer⟩ := ih own' before' tame' fun i small same reached => by
        have after : va / PGSIZE < a / PGSIZE := by
          unfold PGSIZE at *
          omega
        have later : PGSIZE - va % PGSIZE ≤ n + i := by omega
        have place := add_of_ge later
        rw [show n + i - (PGSIZE - va % PGSIZE) = i by omega] at place
        rw [takes.tables.fits_store takes.data known', ← takes.fits_later after lowPage]
        exact fits (n + i) (by omega) (by rw [← place, same]) ((reaches after).mpr reached)
      refine ⟨fun reached => ?_, fun unreached => ?_⟩
      · rw [inner fun inside => ?_, overlay_rest size here]
        · unfold overlay
          rw [same]
        · have after : va / PGSIZE < a / PGSIZE := by
            unfold PGSIZE at *
            omega
          refine (reaches after).mp (reached ⟨?_, ?_⟩)
          · unfold PGSIZE at *
            omega
          · rw [length] at inside
            unfold PGSIZE at *
            omega
      · have after : va / PGSIZE < a / PGSIZE := by
          by_contra behind
          refine unreached ⟨fun q first last => by omega, ?_⟩
          rw [Finset.Icc_eq_empty (by omega), need_empty]
          exact Nat.zero_le _
        rw [outer (mt (reaches after).mpr unreached), same]

theorem Takes.blocked_turn {len n : Nat} (takes : Takes root (va / PGSIZE) page g s g' s')
    (size : min (PGSIZE - va % PGSIZE) len = n) (calm : ¬s.Blocked root (va / PGSIZE) (va / PGSIZE)) :
    (∃ i < len, s.Blocked root (va / PGSIZE) ((va + i) / PGSIZE)) ↔
      ∃ i < len - n, s'.Blocked root (va / PGSIZE + 1) (((va / PGSIZE + 1) * PGSIZE + i) / PGSIZE) := by
  constructor
  · rintro ⟨i, small, blocked⟩
    by_cases first : i < PGSIZE - va % PGSIZE
    · rw [page_of_lt first] at blocked
      exact absurd blocked calm
    · have later : PGSIZE - va % PGSIZE ≤ i := Nat.le_of_not_lt first
      refine ⟨i - (PGSIZE - va % PGSIZE), by omega, ?_⟩
      rw [add_of_ge later]
      exact (takes.blocked_later (page_of_ge later)).mp blocked
  · rintro ⟨i, small, blocked⟩
    have later : PGSIZE - va % PGSIZE ≤ n + i := by omega
    have place := add_of_ge later
    rw [show n + i - (PGSIZE - va % PGSIZE) = i by omega] at place
    rw [place] at blocked
    exact ⟨n + i, by omega, (takes.blocked_later (page_of_ge later)).mpr blocked⟩

theorem not_blocked_of_shut {p q : Nat} (after : p ≤ q) (calm : ¬s.Blocked root p p)
    (shut : ∀ q, p ≤ q → ¬s.Reaches root p q) : ¬s.Blocked root p q := by
  intro blocked
  rcases Nat.eq_or_lt_of_le after with rfl | after
  · exact calm blocked
  · have first : s.need root {p} ≤ s.need root (Finset.Ico p q) :=
      need_mono (Finset.singleton_subset_iff.mpr (Finset.mem_Ico.mpr ⟨le_rfl, after⟩))
    refine shut p (le_rfl) ⟨fun r low high => blocked.opened r low (by omega), ?_⟩
    rw [Finset.Icc_self]
    exact first.trans (blocked.memory.le)

theorem not_fails_pure {α : Type} {a : α} : ¬∃ e, Fails (pure a : KernelM α) s e := by
  rintro ⟨e, fails⟩
  exact fails_pure fails

theorem copyoutLoop_blocked {src : List UInt8} (own : OwnPages g s root wild) (before : ∀ q ∈ wild, q < va / PGSIZE)
    (enough : src.length ≤ fuel) : (∃ e, Fails (copyoutLoop root fuel va src) s e) ↔
      ∃ i < src.length, s.Blocked root (va / PGSIZE) ((va + i) / PGSIZE) := by
  induction fuel generalizing g s va src wild with
  | zero =>
    refine iff_of_false not_fails_pure ?_
    rintro ⟨i, small, -⟩
    omega
  | succ fuel ih =>
    unfold copyoutLoop
    split
    · rename_i empty
      subst empty
      refine iff_of_false not_fails_pure ?_
      rintro ⟨i, small, -⟩
      exact absurd small (Nat.not_lt_zero i)
    · rename_i more
      have positive : 0 < src.length := length_pos_iff.mpr more
      rw [pgrounddown_eq_mul]
      dsimp only
      rcases returns_or_fails (walkaddr root (va / PGSIZE * PGSIZE)) s with ⟨a, u, walked⟩ | ⟨e, fails⟩
      · have calm : ¬s.Blocked root (va / PGSIZE) (va / PGSIZE) := by
          intro blocked
          obtain ⟨_, fails⟩ := own.fails_walkaddr.mpr blocked
          exact walked.not_fails fails
        simp only [fails_bind_of_returns walked]
        rcases own.walkaddr before walked with ⟨rfl, shut, -⟩ | ⟨page, g', rfl, takes⟩
        · refine iff_of_false not_fails_pure ?_
          rintro ⟨i, -, blocked⟩
          exact not_blocked_of_shut (Nat.div_le_div_right (Nat.le_add_right ..)) calm shut blocked
        · dsimp only
          rw [← pgrounddown_eq_mul, sub_pgrounddown, pgrounddown_eq_mul, next_page takes.low]
          have room : 0 < PGSIZE - va % PGSIZE := Nat.sub_pos_of_lt (Nat.mod_lt _ (by decide))
          generalize size : min (PGSIZE - va % PGSIZE) src.length = n
          obtain ⟨own', before'⟩ := takes.ownNext (src.take n) own before
          have less : (src.drop n).length ≤ fuel := by
            rw [length_drop]
            omega
          have onward := ih own' before' less
          simp only [next_div, takes.tables.blocked_store takes.data (takes.tree _ _ _ own.known),
            length_drop] at onward
          rw [takes.blocked_turn size calm, ← onward]
          refine exists_congr fun e => ?_
          rw [fails_modify_bind, fails_bind]
          refine or_iff_left ?_
          rintro ⟨_, _, -, wrong⟩
          exact fails_pure wrong
      · exact iff_of_true ⟨e, fails_bind.mpr (.inl fails)⟩ ⟨0, positive, own.fails_walkaddr.mp ⟨e, fails⟩⟩

theorem copyinLoop_blocked {len : Nat} (own : OwnPages g s root wild) (before : ∀ q ∈ wild, q < va / PGSIZE)
    (enough : len ≤ fuel) : (∃ e, Fails (copyinLoop root fuel va len) s e) ↔
      ∃ i < len, s.Blocked root (va / PGSIZE) ((va + i) / PGSIZE) := by
  obtain ⟨src, rfl, -, fails⟩ := @copyinLoop_copyout s root fuel va len
  exact fails.trans (copyoutLoop_blocked own before enough)

theorem Stores.keeps {src : List UInt8} (stores : Stores root va src g s t ok)
    (known : g.tree root [] = some root) : SameFiles s t ∧
      ∀ q < va / PGSIZE, q * PGSIZE < MAXVA → t.entry root (q * PGSIZE) = s.entry root (q * PGSIZE) := by
  induction stores with
  | done => exact ⟨.refl, fun _ _ _ => rfl⟩
  | stuck more shut halts => exact ⟨halts.files, fun _ _ _ => halts.entry _⟩
  | @turn va n src page g g' s s' t ok more size takes rest ih =>
    have known' := takes.tree _ _ _ known
    obtain ⟨files, entry⟩ := ih known'
    rw [next_div] at entry
    refine ⟨takes.files.trans (sameFiles_store.trans files), fun q before low => ?_⟩
    rw [entry q (by omega) low, takes.tables.entry_store takes.data known', takes.entry_other (by omega) low]

theorem Stores.mapped {src : List UInt8} (stores : Stores root va src g s t ok)
    (known : g.tree root [] = some root) (through : ok = true) : ∀ i < src.length,
      t.Present root ((va + i) / PGSIZE * PGSIZE) ∧ t.Open root ((va + i) / PGSIZE * PGSIZE) := by
  induction stores with
  | done => exact fun i small => absurd small (Nat.not_lt_zero i)
  | stuck => contradiction
  | @turn va n src page g g' s s' t ok more size takes rest ih =>
    have known' := takes.tree _ _ _ known
    intro i small
    by_cases first : i < PGSIZE - va % PGSIZE
    · rw [page_of_lt first]
      obtain ⟨files, entry⟩ := rest.keeps known'
      have same : t.entry root (va / PGSIZE * PGSIZE) = s'.entry root (va / PGSIZE * PGSIZE) := by
        rw [entry _ (by rw [next_div]; exact Nat.lt_succ_self _) takes.low,
          takes.tables.entry_store takes.data known']
      have present : t.Present root (va / PGSIZE * PGSIZE) :=
        (present_congr same).mpr (takes.covers.present _ (Finset.mem_singleton_self _))
      refine ⟨present, takes.low, ?_, fun _ => ?_⟩
      · have list := (takes.files.trans (sameFiles_store.trans files))
        rw [vmaAt_congr list.vmas list.current]
        exact takes.opened.vma
      · rw [same]
        exact takes.user
    · have later : PGSIZE - va % PGSIZE ≤ i := Nat.le_of_not_lt first
      have onward := ih known' through (i - (PGSIZE - va % PGSIZE)) (by rw [length_drop]; omega)
      rwa [add_of_ge later] at onward

theorem Stores.owned {src : List UInt8} (stores : Stores root va src g s t ok)
    (own : OwnPages g s root wild) (through : ok = true)
    (fits : ∀ i < src.length, s.Reaches root (va / PGSIZE) ((va + i) / PGSIZE) ∧
      s.Fits root (va / PGSIZE) ((va + i) / PGSIZE)) : ∃ g', OwnPages g' t root wild := by
  induction stores with
  | done => exact ⟨_, own⟩
  | stuck => contradiction
  | @turn va n src page g g' s s' t ok more size takes rest ih =>
    have known' := takes.tree _ _ _ own.known
    have own' := takes.ownPages own (Set.Subset.refl _) (.inr (fits 0 (length_pos_iff.mpr more)).2)
    refine ih (own'.store takes.data) through fun i small => ?_
    rw [length_drop] at small
    have later : PGSIZE - va % PGSIZE ≤ n + i := by omega
    have place := add_of_ge later
    rw [show n + i - (PGSIZE - va % PGSIZE) = i by omega] at place
    have after := page_of_ge later
    obtain ⟨reached, fit⟩ := fits (n + i) (by omega)
    have low := (reached.opened _ (after.le) (le_rfl)).low
    rw [next_div, place, takes.tables.reaches_store takes.data known', takes.tables.fits_store takes.data known',
      ← takes.reaches takes.opened after, ← takes.fits_later after low]
    exact ⟨reached, fit⟩

theorem copyoutLoop_blind {src : List UInt8} (own : OwnPages g s root wild) (before : ∀ q ∈ wild, q < va / PGSIZE)
    (enough : src.length < fuel) (reached : s.Reaches root (va / PGSIZE) ((va + src.length) / PGSIZE))
    (misfit : ¬s.Fits root (va / PGSIZE) ((va + src.length) / PGSIZE)) :
    ∃ value, ∀ byte r t, Returns (copyoutLoop root fuel va (src ++ [byte])) s r t →
      t.byteAt root (va + src.length) = value := by
  induction fuel generalizing g s va src wild with
  | zero => exact absurd enough (Nat.not_lt_zero _)
  | succ fuel ih =>
    have turn {byte : UInt8} {r : Nat × Bool} {t : Sys}
        (run : Returns (copyoutLoop root (fuel + 1) va (src ++ [byte])) s r t) :
        ∃ a u, Returns (walkaddr root (va / PGSIZE * PGSIZE)) s a u ∧ ∀ page g', a = some page →
          Takes root (va / PGSIZE) page g s g' u → ∃ rest, Returns (copyoutLoop root fuel ((va / PGSIZE + 1) * PGSIZE)
            ((src ++ [byte]).drop (min (PGSIZE - va % PGSIZE) (src.length + 1))))
            (u.store page (va % PGSIZE) ((src ++ [byte]).take (min (PGSIZE - va % PGSIZE) (src.length + 1)))) rest t := by
      obtain ⟨a, u, walked, run⟩ := (returns_copyoutLoop (by simp)).mp run
      rw [pgrounddown_eq_mul] at walked
      refine ⟨a, u, walked, ?_⟩
      rintro page g' rfl takes
      obtain ⟨rest, loop, -⟩ := run
      rw [pgrounddown_eq_mul, next_page takes.low, length_append, length_singleton] at loop
      exact ⟨rest, loop⟩
    rcases returns_or_fails (walkaddr root (va / PGSIZE * PGSIZE)) s with ⟨a, u, walked⟩ | ⟨e, fails⟩
    · rcases own.walkaddr before walked with ⟨rfl, shut, -⟩ | ⟨page, g', rfl, takes⟩
      · exact absurd reached (shut _ (Nat.div_le_div_right (Nat.le_add_right ..)))
      · have known' := takes.tree _ _ _ own.known
        by_cases first : src.length < PGSIZE - va % PGSIZE
        · rw [page_of_lt first] at misfit
          have apart : pte2pa (u.entry root (va / PGSIZE * PGSIZE)) ≠ page := mt takes.fits.mpr misfit
          refine ⟨u.mem (pte2pa (u.entry root (va / PGSIZE * PGSIZE))) ((va + src.length) % PGSIZE),
            fun byte r t run => ?_⟩
          obtain ⟨_, _, walked', loop⟩ := turn run
          obtain ⟨rfl, rfl⟩ := walked.unique walked'
          obtain ⟨rest, loop⟩ := loop page g' rfl takes
          rw [drop_eq_nil_of_le (by rw [length_append, length_singleton]; omega)] at loop
          rw [← (copyoutLoop_zero.unique loop).2]
          have present : u.Present root (va / PGSIZE * PGSIZE) :=
            takes.covers.present _ (Finset.mem_singleton_self _)
          rw [Sys.byteAt, page_of_lt first, pageAt_present ((takes.tables.present_store takes.data known').mpr present),
            takes.tables.entry_store takes.data known']
          unfold Sys.store
          dsimp only
          rw [update_of_ne apart]
        · have later : PGSIZE - va % PGSIZE ≤ src.length := Nat.le_of_not_lt first
          have room : 0 < PGSIZE - va % PGSIZE := Nat.sub_pos_of_lt (Nat.mod_lt _ (by decide))
          have after := page_of_ge later
          have low := (reached.opened _ (after.le) (le_rfl)).low
          obtain ⟨own', before'⟩ := takes.ownNext (src.take (PGSIZE - va % PGSIZE)) own before
          have length : (src.drop (PGSIZE - va % PGSIZE)).length = src.length - (PGSIZE - va % PGSIZE) :=
            length_drop
          have less : (src.drop (PGSIZE - va % PGSIZE)).length < fuel := by omega
          have onward := ih own' before' less
          rw [length, add_of_ge later, next_div, takes.tables.reaches_store takes.data known',
            takes.tables.fits_store takes.data known', ← takes.reaches takes.opened after,
            ← takes.fits_later after low] at onward
          obtain ⟨value, blind⟩ := onward reached misfit
          refine ⟨value, fun byte r t run => ?_⟩
          obtain ⟨_, _, walked', loop⟩ := turn run
          obtain ⟨rfl, rfl⟩ := walked.unique walked'
          obtain ⟨rest, loop⟩ := loop page g' rfl takes
          rw [show min (PGSIZE - va % PGSIZE) (src.length + 1) = PGSIZE - va % PGSIZE by omega,
            take_append_of_le_length later, drop_append_of_le_length later] at loop
          exact blind byte rest t loop
    · refine ⟨0, fun byte r t run => ?_⟩
      obtain ⟨a, u, walked, -⟩ := turn run
      exact absurd fails walked.not_fails

end Loops

def Sys.Gets (s : Sys) (root : PageNo) (va n : Nat) : Prop :=
  ∀ i < n, s.Reaches root (va / PGSIZE) ((va + i) / PGSIZE)

/-- copyout of `src` to `va` has returned `r`: 0 if all pages can be had, and then the process sees `src` there and
what it saw elsewhere, and copyin gets it back; or -1, and then no page has changed but those before the first that
cannot be had. -/
structure ExactOut (s : Sys) (root : PageNo) (va : Nat) (src : List UInt8) (r : Nat × Bool) (t : Sys) : Prop where
  result : r.2 = true ↔ s.Gets root va src.length
  stored : r.2 = true → ∀ a < MAXVA, t.byteAt root a = overlay (s.byteAt root) va src a
  back : r.2 = true → ∃ u, Returns (copyin root va src.length) t (src, true) u
  spared : r.2 = false → ∀ a < MAXVA, a / PGSIZE < va / PGSIZE ∨ ¬s.Reaches root (va / PGSIZE) (a / PGSIZE) →
    t.byteAt root a = s.byteAt root a

/-- copyin of `n` bytes from `va` has returned `r`, and the process sees what it saw. -/
structure ExactIn (s : Sys) (root : PageNo) (va n : Nat) (r : List UInt8 × Bool) (t : Sys) : Prop where
  result : r.2 = true ↔ s.Gets root va n
  bytes : r.2 = true → r.1 = slice (s.byteAt root) va n
  same : ∀ a < MAXVA, t.byteAt root a = s.byteAt root a

structure CopyExact (s : Sys) (root : PageNo) (va n : Nat) : Prop where
  copyout : ∀ src : List UInt8, src.length = n →
    ∃ r t, Returns (copyout root va src) s r t ∧ ExactOut s root va src r t
  copyin : ∃ r t, Returns (copyin root va n) s r t ∧ ExactIn s root va n r t

/-- No copy of up to `len` bytes comes to a page whose file cannot be read, and every page that it takes from the
free list is the one that the entry made for it names. -/
def Sys.Serves (s : Sys) (root : PageNo) (va len : Nat) : Prop :=
  ∀ i < len, ¬s.Blocked root (va / PGSIZE) ((va + i) / PGSIZE) ∧
    (s.Reaches root (va / PGSIZE) ((va + i) / PGSIZE) → s.Fits root (va / PGSIZE) ((va + i) / PGSIZE))

section Exact

variable {n len : Nat} {src : List UInt8}

theorem Sys.Serves.le (serves : s.Serves root va len) (shorter : n ≤ len) : s.Serves root va n := fun i small =>
  serves i (small.trans_le shorter)

theorem gets_iff {count : Nat} (reaches : ∀ i < n, i < count ↔ s.Reaches root (va / PGSIZE) ((va + i) / PGSIZE))
    (whole : ok = true ↔ count = n) (bound : count ≤ n) : ok = true ↔ s.Gets root va n := by
  rw [whole]
  constructor
  · rintro rfl i small
    exact (reaches i small).mp small
  · intro gets
    by_contra short
    exact lt_irrefl count ((reaches count (by omega)).mpr (gets count (by omega)))

theorem eq_slice (length : src.length = n) (bytes : ∀ i < n, src.getD i 0 = f (va + i)) : src = slice f va n := by
  refine ext_getElem (by rw [length, length_slice]) fun i small small' => ?_
  have here := bytes i (by omega)
  have there : (slice f va n).getD i 0 = f (va + i) := getD_slice (by omega)
  rw [getD_eq_getElem _ _ small] at here
  rw [getD_eq_getElem _ _ small'] at there
  rw [here, there]

theorem copyin_returns (own : OwnPages g s root ∅) (calm : ∀ i < n, ¬s.Blocked root (va / PGSIZE) ((va + i) / PGSIZE)) :
    ∃ r t, Returns (copyin root va n) s r t ∧ (r.2 = true ↔ s.Gets root va n) ∧
      (r.2 = true → r.1 = slice (s.byteAt root) va n) ∧
      ∃ src, src.length = n ∧ (∀ i < n, s.Reaches root (va / PGSIZE) ((va + i) / PGSIZE) →
        src.getD i 0 = s.byteAt root (va + i)) ∧ Stores root va src g s t r.2 := by
  have before : ∀ q ∈ (∅ : Set Nat), q < va / PGSIZE := fun q inside => absurd inside (Set.notMem_empty q)
  rcases returns_or_fails (copyin root va n) s with ⟨r, t, run⟩ | fails
  · obtain ⟨reaches, whole, bound, bytes⟩ :=
      copyinLoop_count own.tables own.known (own.safe before) own.files.solid (le_rfl) run
    obtain ⟨src, length, begins, stores⟩ := copyinLoop_stores own before (le_rfl) run
    refine ⟨r, t, run, gets_iff reaches whole bound, fun done => ?_, src, length, fun i small reached => ?_, stores⟩
    · have all := whole.mp done
      exact eq_slice all fun i small => bytes i (by omega)
    · have inside := (reaches i small).mpr reached
      rw [← bytes i inside, getD_eq_getElem?_getD, getD_eq_getElem?_getD,
        prefix_iff_getElem?.mp begins i inside, List.getElem?_eq_getElem inside]
  · obtain ⟨i, small, blocked⟩ := (copyinLoop_blocked own before (le_rfl)).mp fails
    exact absurd blocked (calm i small)

theorem Sys.Gets.low (gets : s.Gets root va n) (first : va ≤ a) (last : a < va + n) : a < MAXVA := by
  have reached := gets (a - va) (by omega)
  rw [show va + (a - va) = a by omega] at reached
  have low := (reached.opened _ (Nat.div_le_div_right first) (le_rfl)).low
  unfold MAXVA at *
  unfold PGSIZE at *
  omega

theorem Sys.Serves.copyin (own : OwnPages g s root ∅) (serves : s.Serves root va n) :
    ∃ r t, Returns (copyin root va n) s r t ∧ ExactIn s root va n r t := by
  obtain ⟨r, t, run, result, whole, src, length, bytes, stores⟩ := copyin_returns own fun i small => (serves i small).1
  refine ⟨r, t, run, result, whole, fun a low => ?_⟩
  obtain ⟨inner, outer⟩ := stores.byteAt own (fun q inside => absurd inside (Set.notMem_empty q)) low
    (Set.notMem_empty _) fun i small same reached => same ▸ (serves i (length ▸ small)).2 (same ▸ reached)
  by_cases reached : s.Reaches root (va / PGSIZE) (a / PGSIZE)
  · rw [inner fun _ => reached]
    by_cases inside : va ≤ a ∧ a < va + src.length
    · have place : va + (a - va) = a := by omega
      unfold overlay
      rw [if_pos inside, bytes (a - va) (by omega) (place.symm ▸ reached), place]
    · exact overlay_outside (by omega)
  · exact outer reached

theorem Sys.Serves.copyout (own : OwnPages g s root ∅) (serves : s.Serves root va src.length) :
    ∃ r t, Returns (copyout root va src) s r t ∧ ExactOut s root va src r t := by
  have before : ∀ q ∈ (∅ : Set Nat), q < va / PGSIZE := fun q inside => absurd inside (Set.notMem_empty q)
  rcases returns_or_fails (DeisoXv6.copyout root va src) s with ⟨r, t, run⟩ | fails
  · obtain ⟨reaches, whole, bound⟩ :=
      copyoutLoop_count own.tables own.known (own.safe before) own.files.solid (le_rfl) run
    have result := gets_iff reaches whole bound
    have stores := copyoutLoop_stores own before (le_rfl) run
    have bytes (a : Nat) (low : a < MAXVA) := stores.byteAt own before low (Set.notMem_empty _)
      fun i small same reached => same ▸ (serves i small).2 (same ▸ reached)
    have stored (done : r.2 = true) (a : Nat) (low : a < MAXVA) :
        t.byteAt root a = overlay (s.byteAt root) va src a := by
      refine (bytes a low).1 fun inside => ?_
      have reached := result.mp done (a - va) (by omega)
      rwa [show va + (a - va) = a by omega] at reached
    refine ⟨r, t, run, result, stored, fun done => ?_, fun _ a low spared => ?_⟩
    · -- all pages are there now, and what they hold is known
      obtain ⟨g', own'⟩ := stores.owned own done fun i small =>
        ⟨result.mp done i small, (serves i small).2 (result.mp done i small)⟩
      have mapped := stores.mapped own.known done
      obtain ⟨r', u, back, result', whole', -⟩ := copyin_returns (n := src.length) own'
        fun i small blocked => blocked.absent (mapped i small).1
      have gets : t.Gets root va src.length := by
        intro i small
        have page (q : Nat) (first : va / PGSIZE ≤ q) (last : q ≤ (va + i) / PGSIZE) :
            ∃ j < src.length, (va + j) / PGSIZE = q := by
          by_cases same : q = va / PGSIZE
          · exact ⟨0, by omega, same.symm⟩
          · refine ⟨q * PGSIZE - va, ?_, ?_⟩
            · unfold PGSIZE at *
              omega
            · unfold PGSIZE at *
              omega
        refine ⟨fun q first last => ?_, ?_⟩
        · obtain ⟨j, small', rfl⟩ := page q first last
          exact (mapped j small').2
        · have none : t.unmapped root (Finset.Icc (va / PGSIZE) ((va + i) / PGSIZE)) = ∅ := by
            refine Finset.filter_eq_empty_iff.mpr fun q member => ?_
            rw [Finset.mem_Icc] at member
            obtain ⟨j, small', rfl⟩ := page q member.1 member.2
            exact not_not.mpr (mapped j small').1
          unfold Sys.need Sys.newTables
          rw [none]
          exact Nat.zero_le _
      have through := result'.mpr gets
      have same : r'.1 = src := by
        rw [whole' through]
        refine (eq_slice rfl fun i small => ?_).symm
        rw [stored done _ (gets.low (Nat.le_add_right ..) (by omega))]
        unfold overlay
        rw [if_pos (by omega), Nat.add_sub_cancel_left]
      have pair : r' = (src, true) := Prod.ext same through
      exact ⟨u, pair ▸ back⟩
    · rcases spared with behind | unreached
      · rw [(bytes a low).1 fun inside => absurd (Nat.div_le_div_right inside.1) (Nat.not_le.mpr behind)]
        refine overlay_outside (.inl ?_)
        by_contra first
        exact Nat.not_le.mpr behind (Nat.div_le_div_right (Nat.le_of_not_lt first))
      · exact (bytes a low).2 unreached
  · obtain ⟨i, small, blocked⟩ := (copyoutLoop_blocked own before (le_rfl)).mp fails
    exact absurd blocked (serves i small).1

theorem CopyExact.fits (own : OwnPages g s root ∅) (exact : CopyExact s root va (src.length + 1))
    (reached : s.Reaches root (va / PGSIZE) ((va + src.length) / PGSIZE)) :
    s.Fits root (va / PGSIZE) ((va + src.length) / PGSIZE) := by
  by_contra misfit
  obtain ⟨value, blind⟩ := copyoutLoop_blind own (fun q inside => absurd inside (Set.notMem_empty q))
    (Nat.lt_succ_self src.length) reached misfit
  have gets : s.Gets root va (src.length + 1) := fun i small => reached.le (Nat.div_le_div_right (by omega))
  have seen (byte : UInt8) : byte = value := by
    have length : (src ++ [byte]).length = src.length + 1 := by rw [length_append, length_singleton]
    obtain ⟨r, t, run, out⟩ := exact.copyout (src ++ [byte]) length
    have low := gets.low (Nat.le_add_right va src.length) (by omega)
    have here := out.stored (out.result.mpr (length ▸ gets)) _ low
    unfold DeisoXv6.copyout at run
    rw [length] at run
    rw [blind byte r t run] at here
    rw [here]
    unfold overlay
    rw [if_pos (by rw [length]; omega), Nat.add_sub_cancel_left]
    simp
  exact absurd ((seen 0).trans (seen 1).symm) (by decide)

/-- Copies of up to `len` bytes are exact, and the process does not see that pages are mapped on the way, if and only
if `Serves` holds before. -/
theorem copies_exact_iff (own : OwnPages g s root ∅) : (∀ n ≤ len, CopyExact s root va n) ↔ s.Serves root va len := by
  constructor
  · intro exact i small
    have here := exact (i + 1) small
    refine ⟨fun blocked => ?_, fun reached => ?_⟩
    · obtain ⟨r, t, run, -⟩ := here.copyin
      obtain ⟨e, fails⟩ := (copyinLoop_blocked own (fun q inside => absurd inside (Set.notMem_empty q))
        (Nat.le_refl (i + 1))).mpr ⟨i, Nat.lt_succ_self i, blocked⟩
      exact run.not_fails fails
    · have length : (List.replicate i (0 : UInt8)).length = i := length_replicate
      rw [← length] at here reached ⊢
      exact here.fits own reached
  · intro serves n shorter
    refine ⟨fun src length => ?_, (serves.le shorter).copyin own⟩
    subst length
    exact (serves.le shorter).copyout own

theorem Sys.Serves.of_clean (own : OwnPages g s root ∅) (clean : ∀ vma, CleanProt (s.vmas.get vma).permission)
    (ready : s.FilesReady) (free : s.spinlocks = 0) : s.Serves root va len := by
  intro i _
  refine ⟨fun blocked => ?_, fun _ _ vma page _ taken => ?_⟩
  · obtain ⟨vma, place, loads⟩ := blocked.loads
    obtain ⟨f, file⟩ := Option.isSome_iff_exists.mp loads.1
    obtain ⟨j, inode, here⟩ := ready.files vma f file
    exact blocked.unreadable vma place ⟨free, f, j, file, inode, here.ref, here.unlocked⟩
  · have ram := own.tables.ram page (mem_of_getElem? taken)
    exact ((lazyPte_iff (page_lt_of_ram ram.2)).mpr ((clean vma).fits (ram_bit own.tables.kernel ram))).1

end Exact

/-- A mapping of a file with a bit in `prot` that the entry has its page number at. -/
def strayProcess : Sys :=
  .single ⟨true, PGSIZE, PGSIZE, PGSIZE, some 0, 0, PROT_READ ||| PROT_WRITE ||| 512, MAP_PRIVATE, none⟩
    [0x87ff0, 0x87ff1, 0x87ff2]

/-- The byte goes to the page that was taken, and the process sees another. -/
theorem copyout_misses : ∃ t, Returns (copyout emptyRoot PGSIZE [7]) strayProcess (1, true) t ∧
    WellFormed ([VmaRef.start 0, .slot 0].map fun r => (strayProcess.vmas.get r).region) ∧
    t.byteAt emptyRoot PGSIZE ≠ 7 := by
  refine ⟨_, returns_final (by decide +kernel), single_wellFormed ⟨by decide, by decide⟩ (by decide), by decide +kernel⟩

theorem heapProcess_file (vma : VmaRef) (f : FileId) : (heapProcess.vmas.get vma).file ≠ some f := by
  rw [(heapProcess_vma vma).1]
  exact Option.some_ne_none f ∘ Eq.symm

theorem heapProcess_list : ∃ refs, heapProcess.vmas.refs heapProcess.current = .ok refs :=
  ⟨[.start 0, .slot 0], by decide +kernel⟩

theorem heapProcess_own : OwnPages (.single heapProcess.freelist) heapProcess emptyRoot ∅ :=
  ⟨heapProcess_tables, single_tree _, heapProcess_list,
    ⟨fun vma f _ file => absurd file (heapProcess_file vma f), fun vma f _ file => absurd file (heapProcess_file vma f)⟩,
    fun _ _ _ present => absurd present single_absent, fun _ _ _ present => absurd present single_absent⟩

theorem copies_to_heap_exact : CopyExact heapProcess emptyRoot 5000 5000 :=
  have serves : heapProcess.Serves emptyRoot 5000 5000 := .of_clean heapProcess_own (fun vma => (heapProcess_vma vma).2)
    ⟨heapProcess_list, fun vma f file => absurd file (heapProcess_file vma f)⟩ rfl
  (copies_exact_iff heapProcess_own).mpr serves 5000 (Nat.le_refl 5000)

end DeisoXv6
