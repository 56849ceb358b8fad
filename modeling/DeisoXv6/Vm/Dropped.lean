import DeisoXv6.Vm.Shed

/-! What vma_free_mem leaves of the pages of a range: a page goes, or a part of it is cleared when the VMA needs
the rest, and all other pages stay as they are. -/

set_option autoImplicit false

namespace DeisoXv6

open Function Semantics Bytes

variable {g : Layout} {s t : Sys} {root : PageNo} {v : Vma} {q addr : Nat}

section Page

variable {turn : Turn}

/-- The pages other than `q` below the reserved VMA are mapped as before, to the same bytes. -/
structure OtherPages (root : PageNo) (q : Nat) (s t : Sys) : Prop where
  entry : ∀ p, p ≠ q → p * PGSIZE < RESERVED → t.entry root (p * PGSIZE) = s.entry root (p * PGSIZE)
  mem : ∀ p, p ≠ q → p * PGSIZE < RESERVED → s.Present root (p * PGSIZE) →
    t.mem (pte2pa (s.entry root (p * PGSIZE))) = s.mem (pte2pa (s.entry root (p * PGSIZE)))

structure SameDisk (s t : Sys) : Prop where
  inode : t.inode = s.inode
  dinode : t.dinode = s.dinode
  blocks : t.blocks = s.blocks
  bitmap : t.bitmap = s.bitmap
  block : t.block = s.block

theorem Held.page_apart (held : Held g s root) {p : Nat} (low : q * PGSIZE < RESERVED)
    (present : s.Present root (q * PGSIZE)) (low' : p * PGSIZE < RESERVED) (present' : s.Present root (p * PGSIZE))
    (other : p ≠ q) : pte2pa (s.entry root (p * PGSIZE)) ≠ pte2pa (s.entry root (q * PGSIZE)) := by
  intro same
  have mine := (held.user q low present).2.1
  rw [← same, (held.user p low' present').2.1] at mine
  exact other (Owner.user.inj mine).2

theorem returns_memset {page : Option PageNo} {off n : Nat} {u : Unit} (run : Returns (memset page off n) s u t) :
    (n = 0 ∧ t = s) ∨ ∃ p, page = some p ∧ off + n ≤ PGSIZE ∧ t = s.store p off (List.replicate n 0) := by
  unfold memset at run
  split at run
  · exact .inl ⟨‹_›, (returns_pure.mp run).2⟩
  · split at run
    · exact absurd run returns_throw
    · split at run
      · exact .inr ⟨_, rfl, ‹_›, returns_modify.mp run⟩
      · exact absurd run returns_throw

theorem Held.store_others (held : Held g s root) (low : q * PGSIZE < RESERVED)
    (present : s.Present root (q * PGSIZE)) {off : Nat} {bytes : List UInt8} :
    OtherPages root q s (s.store (pte2pa (s.entry root (q * PGSIZE))) off bytes) := by
  refine ⟨fun p _ _ => ?_, fun p other low' present' => ?_⟩
  · exact held.tables.entry_store (held.page_other low present) held.known
  · have apart := held.page_apart low present low' present' other
    unfold Sys.store
    dsimp only
    rw [update_of_ne apart]

theorem Held.unmap_others {root table : PageNo} (held : Held g s root) (low : q * PGSIZE < RESERVED)
    (present : s.Present root (q * PGSIZE)) (leaf : g.tree root (upper (q * PGSIZE)) = some table) :
    OtherPages root q s (s.unmapped1 table (pte2pa (s.entry root (q * PGSIZE))) (px 0 (q * PGSIZE))) where
  entry p other low' := by
    refine held.unmap_entry low present leaf (low'.trans_le (by decide)) ?_
    rwa [Nat.mul_div_cancel _ (by decide)]
  mem p other low' present' := by
    have node : pte2pa (s.entry root (p * PGSIZE)) ≠ table := by
      intro same
      have mine := (held.user p low' present').2.1
      rw [same, held.tables.table _ _ _ leaf] at mine
      contradiction
    unfold Sys.unmapped1
    rw [mem_setPte, update_of_ne node, freed_mem (held.page_apart low present low' present' other)]

/-- What a turn leaves of its page: a part of it with zeroes, or nothing. -/
structure PageDropped (root : PageNo) (v : Vma) (turn : Turn) (q : Nat) (s t : Sys) : Prop where
  cleared : v.Shares turn (q * PGSIZE) → t.entry root (q * PGSIZE) = s.entry root (q * PGSIZE) ∧
    t.mem (pte2pa (s.entry root (q * PGSIZE))) = overlay (s.mem (pte2pa (s.entry root (q * PGSIZE))))
      (turn.start - q * PGSIZE) (List.replicate (u32 (sub64 turn.stop turn.start)) 0)
  gone : ¬v.Shares turn (q * PGSIZE) → ¬t.Present root (q * PGSIZE)

theorem dropPage_dropped (held : Held g s root) (listed : s.Listed) (low : q * PGSIZE < RESERVED)
    (present : s.Present root (q * PGSIZE)) (first : q * PGSIZE ≤ turn.start)
    (last : turn.start < q * PGSIZE + PGSIZE) {u : Unit} (run : Returns (dropPage root v turn (q * PGSIZE)) s u t) :
    ∃ g', Sheds root s g' t ∧ OtherPages root q s t ∧ PageDropped root v turn q s t ∧ SameDisk s t := by
  unfold dropPage at run
  split at run
  · rename_i shares
    obtain ⟨a, s₁, walked, run⟩ := returns_bind.mp run
    have page : turn.start / PGSIZE = q := by
      unfold PGSIZE at *
      omega
    have here : s.Present root turn.start := by
      rw [← present_page, page]
      exact present
    obtain ⟨a', walked', result⟩ := walkaddr_present listed here
    obtain ⟨rfl, rfl⟩ := walked'.unique walked
    rcases returns_memset run with ⟨none, rfl⟩ | ⟨p, rfl, -, rfl⟩
    · refine ⟨g, .refl held, ⟨fun _ _ _ => rfl, fun _ _ _ _ => rfl⟩,
        ⟨fun _ => ⟨rfl, ?_⟩, fun alone => absurd shares alone⟩, ⟨rfl, rfl, rfl, rfl, rfl⟩⟩
      rw [none, List.replicate_zero, overlay_nil]
    · rcases result with ⟨wrong, -⟩ | ⟨same, -⟩
      · contradiction
      · rw [← entry_page, page] at same
        obtain rfl := Option.some.inj same
        refine ⟨g, held.store (held.page_other low present), held.store_others low present,
          ⟨fun _ => ⟨?_, ?_⟩, fun alone => absurd shares alone⟩, ⟨rfl, rfl, rfl, rfl, rfl⟩⟩
        · exact held.tables.entry_store (held.page_other low present) held.known
        · exact update_self ..
  · rename_i alone
    obtain ⟨table, leaf, unmapped⟩ := uvmunmap_returns held low present
    obtain ⟨-, rfl⟩ := unmapped.unique run
    refine ⟨_, held.unmap low present leaf, held.unmap_others low present leaf,
      ⟨fun shares => absurd shares alone, fun _ => ?_⟩, ⟨rfl, rfl, rfl, rfl, rfl⟩⟩
    unfold Sys.Present
    rw [(held.unmap_remaps low present leaf).entry, has_zero]
    exact Bool.false_ne_true

theorem FsCall.others {s₁ : Sys} (call : FsCall s s₁) (others : OtherPages root q s₁ t) : OtherPages root q s t := by
  unfold FsCall at call
  rw [call] at others
  exact ⟨others.entry, others.mem⟩

theorem FsCall.dropped {s₁ : Sys} (call : FsCall s s₁) (dropped : PageDropped root v turn q s₁ t) :
    PageDropped root v turn q s t := by
  unfold FsCall at call
  rw [call] at dropped
  exact ⟨dropped.cleared, dropped.gone⟩

theorem freePage_dropped (held : Held g s s.pagetable) (listed : s.Listed) (low : q * PGSIZE < RESERVED)
    (first : q * PGSIZE ≤ turn.start) (last : turn.start < q * PGSIZE + PGSIZE)
    (written : turn.writeEnd ≤ q * PGSIZE + PGSIZE) {u : Unit}
    (run : Returns (freePage s.pagetable v turn (q * PGSIZE)) s u t) :
    ∃ g', Sheds s.pagetable s g' t ∧ OtherPages s.pagetable q s t ∧
      (s.Present s.pagetable (q * PGSIZE) → PageDropped s.pagetable v turn q s t) := by
  have below : q * PGSIZE < MAXVA := low.trans_le (by decide)
  unfold freePage at run
  obtain ⟨mapped, s₁, asked, run⟩ := returns_bind.mp run
  obtain ⟨rfl, rfl⟩ := (isPageMapped_returns below).unique asked
  by_cases present : s.Present s.pagetable (q * PGSIZE)
  · rw [decide_eq_true present, if_pos rfl] at run
    obtain ⟨_, s₂, saved, dropped⟩ := returns_bind.mp run
    have call : FsCall s s₂ := by
      refine (writeBack_present listed present (Nat.mul_mod_left ..) below first fun some => ?_).returns _ _ saved
      rw [sub64_eq (Vma.writes_lt some).le (by unfold MAXVA at below; unfold PGSIZE at *; omega)]
      have small := Nat.mod_le (turn.writeEnd - turn.start) (2 ^ 32)
      unfold u32
      have later := Vma.writes_lt some
      omega
    have shed := held.call call
    obtain ⟨g', sheds, others, page, -⟩ := dropPage_dropped shed.held (call.listed listed) low
      (call.present.mpr present) first last dropped
    exact ⟨g', shed.trans sheds, call.others others, fun _ => call.dropped page⟩
  · rw [decide_eq_false present, if_neg (by simp)] at run
    obtain ⟨-, rfl⟩ := returns_pure.mp run
    exact ⟨g, .refl held, ⟨fun _ _ _ => rfl, fun _ _ _ _ => rfl⟩, fun wrong => absurd wrong present⟩

end Page

/-- What vma_free_mem leaves of the pages of the process, from page `q` on. -/
structure Dropped (v : Vma) (addr stop q : Nat) (s t : Sys) : Prop where
  sheds : ∃ g', Sheds s.pagetable s g' t
  entry : ∀ p, p < q ∨ stop ≤ p * PGSIZE → p * PGSIZE < RESERVED →
    t.entry s.pagetable (p * PGSIZE) = s.entry s.pagetable (p * PGSIZE)
  mem : ∀ p, p < q ∨ stop ≤ p * PGSIZE → p * PGSIZE < RESERVED → s.Present s.pagetable (p * PGSIZE) →
    t.mem (pte2pa (s.entry s.pagetable (p * PGSIZE))) = s.mem (pte2pa (s.entry s.pagetable (p * PGSIZE)))
  range : ∀ p, q ≤ p → p * PGSIZE < stop → s.Present s.pagetable (p * PGSIZE) →
    PageDropped s.pagetable v (v.turn addr stop (p * PGSIZE)) p s t

section Range

variable {stop fuel : Nat} {u : Unit}

theorem Dropped.finished (held : Held g s s.pagetable) (ended : stop ≤ q * PGSIZE) : Dropped v addr stop q s s := by
  refine ⟨⟨g, .refl held⟩, fun _ _ _ => rfl, fun _ _ _ _ => rfl, fun p behind before => ?_⟩
  have order := Nat.mul_le_mul_right PGSIZE behind
  omega

theorem Dropped.cons {g' : Layout} {s' : Sys} (low : stop ≤ RESERVED) (more : q * PGSIZE < stop)
    (sheds : Sheds s.pagetable s g' s') (others : OtherPages s.pagetable q s s')
    (page : s.Present s.pagetable (q * PGSIZE) → PageDropped s.pagetable v (v.turn addr stop (q * PGSIZE)) q s s')
    (rest : Dropped v addr stop (q + 1) s' t) : Dropped v addr stop q s t := by
  have root : s'.pagetable = s.pagetable := by
    rw [sheds.rest]
    rfl
  obtain ⟨⟨g'', sheds'⟩, entry, mem, range⟩ := rest
  rw [root] at sheds' entry mem range
  -- the turn has left every page but its own as it was
  have present {p : Nat} (other : p ≠ q) (below : p * PGSIZE < RESERVED) :
      s'.Present s.pagetable (p * PGSIZE) ↔ s.Present s.pagetable (p * PGSIZE) := by
    unfold Sys.Present
    rw [others.entry p other below]
  have apart {p : Nat} (outside : p < q ∨ stop ≤ p * PGSIZE) : p ≠ q := by
    rintro rfl
    omega
  refine ⟨⟨g'', sheds.trans sheds'⟩, fun p outside below => ?_, fun p outside below here => ?_,
    fun p behind before here => ?_⟩
  · rw [entry p (by omega) below, others.entry p (apart outside) below]
  · have later := mem p (by omega) below ((present (apart outside) below).mpr here)
    rw [others.entry p (apart outside) below] at later
    rw [later, others.mem p (apart outside) below here]
  · have below := before.trans_le low
    rcases Nat.eq_or_lt_of_le behind with rfl | later
    · -- the page of this turn, which no later turn touches
      have kept := entry q (.inl (Nat.lt_succ_self q)) below
      refine ⟨fun shares => ?_, fun alone => ?_⟩
      · obtain ⟨same, cleared⟩ := (page here).cleared shares
        have still : s'.Present s.pagetable (q * PGSIZE) := by
          unfold Sys.Present
          rw [same]
          exact here
        have after := mem q (.inl (Nat.lt_succ_self q)) below still
        rw [same] at after
        exact ⟨kept.trans same, after.trans cleared⟩
      · have gone := (page here).gone alone
        unfold Sys.Present at gone ⊢
        rwa [kept]
    · have other : p ≠ q := Nat.ne_of_gt later
      have dropped := range p later before ((present other below).mpr here)
      refine ⟨fun shares => ?_, dropped.gone⟩
      have cleared := dropped.cleared shares
      rwa [others.entry p other below, others.mem p other below here] at cleared

theorem vmaFreeMemLoop_dropped (held : Held g s s.pagetable) (listed : s.Listed)
    (first : pgrounddown addr ≤ q * PGSIZE) (low : stop ≤ RESERVED)
    (run : Returns (vmaFreeMemLoop s.pagetable v addr stop fuel (q * PGSIZE)) s u t) : Dropped v addr stop q s t := by
  induction fuel generalizing g s q with
  | zero => exact absurd run returns_throw
  | succ fuel ih =>
    unfold vmaFreeMemLoop at run
    split at run
    · rename_i more
      obtain ⟨_, s', turned, run⟩ := returns_bind.mp run
      have below : q * PGSIZE < RESERVED := more.trans_le low
      have space : q * PGSIZE < MAXVA := below.trans_le (by decide)
      obtain ⟨g', sheds, others, page⟩ := freePage_dropped held listed below (Vma.turn_start first).1
        (Vma.turn_start first).2 (Vma.turn_writeEnd space) turned
      have root : s'.pagetable = s.pagetable := by
        rw [sheds.rest]
        rfl
      have next : u64 (q * PGSIZE + PGSIZE) = (q + 1) * PGSIZE := by
        rw [Nat.succ_mul, page_after space]
      rw [next, ← root] at run
      refine .cons low more sheds others page (ih (root ▸ sheds.held) (sheds.listed listed) ?_ run)
      rw [Nat.succ_mul]
      omega
    · rename_i ended
      obtain ⟨-, rfl⟩ := returns_pure.mp run
      exact .finished held (Nat.le_of_not_lt ended)

theorem vmaFreeMem_dropped {ref : VmaRef} {length : Nat} (held : Held g s s.pagetable) (listed : s.Listed)
    (low : addr + length ≤ RESERVED) (run : Returns (vmaFreeMem s.pagetable ref addr length) s u t) :
    Dropped (s.vmas.get ref) addr (addr + length) (addr / PGSIZE) s t := by
  have whole : u64 (addr + length) = addr + length := Nat.mod_eq_of_lt (low.trans_lt (by decide))
  unfold vmaFreeMem at run
  rw [returns_get_bind, whole, pgrounddown_eq_mul] at run
  exact vmaFreeMemLoop_dropped held listed (pgrounddown_eq_mul ▸ le_rfl) low run

end Range

/-- The byte that is mapped at an address, 0 where nothing is. -/
def Sys.memByte (s : Sys) (root : PageNo) (a : Nat) : UInt8 :=
  if s.Present root a then s.mem (pte2pa (s.entry root a)) (a % PGSIZE) else 0

theorem memByte_of_page {a : Nat} (entry : t.entry root a = s.entry root a)
    (mem : s.Present root a → t.mem (pte2pa (s.entry root a)) = s.mem (pte2pa (s.entry root a))) :
    t.memByte root a = s.memByte root a := by
  unfold Sys.memByte
  have same : t.Present root a ↔ s.Present root a := by
    unfold Sys.Present
    rw [entry]
  by_cases present : s.Present root a
  · rw [if_pos present, if_pos (same.mpr present), entry, mem present]
  · rw [if_neg present, if_neg (mt same.mp present)]

theorem page_low {a : Nat} (low : a < RESERVED) : a / PGSIZE * PGSIZE < RESERVED :=
  Nat.lt_of_le_of_lt (Nat.div_mul_le_self ..) low

theorem Dropped.memByte_outside {stop a : Nat} (dropped : Dropped v addr stop (addr / PGSIZE) s t)
    (outside : a / PGSIZE < addr / PGSIZE ∨ stop ≤ a / PGSIZE * PGSIZE) (low : a < RESERVED) :
    t.memByte s.pagetable a = s.memByte s.pagetable a := by
  have entry := dropped.entry _ outside (page_low low)
  rw [entry_page, entry_page] at entry
  refine memByte_of_page entry fun present => ?_
  have mem := dropped.mem _ outside (page_low low) (present_page.mpr present)
  rwa [entry_page] at mem

theorem Dropped.memByte_back (dropped : Dropped v addr v.stop (addr / PGSIZE) s t) (aligned : v.start % PGSIZE = 0)
    (first : v.start ≤ addr) (last : addr ≤ v.stop) (low : v.stop ≤ RESERVED)
    (behind : ∀ a, v.stop ≤ a → a / PGSIZE * PGSIZE < v.stop → s.memByte s.pagetable a = 0) :
    ∀ a < RESERVED, t.memByte s.pagetable a = if addr ≤ a ∧ a < v.stop then 0 else s.memByte s.pagetable a := by
  intro a below
  have around : a / PGSIZE * PGSIZE ≤ a ∧ a < a / PGSIZE * PGSIZE + PGSIZE := by
    unfold PGSIZE
    omega
  by_cases within : addr / PGSIZE ≤ a / PGSIZE ∧ a / PGSIZE * PGSIZE < v.stop
  · obtain ⟨behind', before⟩ := within
    obtain ⟨g', sheds⟩ := dropped.sheds
    have space : a / PGSIZE * PGSIZE < MAXVA := Nat.lt_of_lt_of_le (page_low below) (by decide)
    by_cases present : s.Present s.pagetable a
    · have page := dropped.range _ behind' before (present_page.mpr present)
      have begun : pgrounddown addr ≤ a / PGSIZE * PGSIZE := by
        rw [pgrounddown_eq_mul]
        exact Nat.mul_le_mul_right _ behind'
      by_cases shares : v.Shares (v.turn addr v.stop (a / PGSIZE * PGSIZE)) (a / PGSIZE * PGSIZE)
      · -- the page with the new end, of which the part behind it is cleared
        obtain ⟨here, start⟩ := Vma.shares_back begun space shares
        obtain ⟨entry, mem⟩ := page.cleared shares
        rw [start, Vma.turn_stop space] at mem
        rw [entry_page, entry_page] at entry
        rw [entry_page] at mem
        have after : t.Present s.pagetable a := by
          rw [Sys.Present, entry]
          exact present
        have amount : u32 (sub64 (min v.stop (a / PGSIZE * PGSIZE + PGSIZE)) addr) =
            min v.stop (a / PGSIZE * PGSIZE + PGSIZE) - addr := by
          unfold RESERVED MAXVA at low
          unfold pgrounddown at here
          rw [sub64_eq (by unfold PGSIZE at *; omega) (by omega)]
          unfold PGSIZE at *
          exact Nat.mod_eq_of_lt (by omega)
        rw [Sys.memByte, if_pos after, entry, mem, overlay_replicate, amount, Sys.memByte, if_pos present]
        refine if_congr ?_ rfl rfl
        unfold pgrounddown at here
        unfold PGSIZE at *
        omega
      · have gone := page.gone shares
        rw [present_page] at gone
        rw [Sys.memByte, if_neg gone]
        by_cases cut : addr ≤ a ∧ a < v.stop
        · rw [if_pos cut]
        · rw [if_neg cut]
          by_cases over' : v.stop ≤ a
          · exact (behind a over' before).symm
          · -- a page that starts before the new end is shared
            exfalso
            apply shares
            refine .inl ?_
            have start : (v.turn addr v.stop (a / PGSIZE * PGSIZE)).start = addr := if_pos (by omega)
            rw [start]
            unfold PGSIZE at *
            omega
    · have absent : ¬t.Present s.pagetable a := fun wrong =>
        present (sheds.fewer a (below.trans_le (by decide)) wrong)
      rw [Sys.memByte, if_neg absent, Sys.memByte, if_neg present, ite_self]
  · have cut : ¬(addr ≤ a ∧ a < v.stop) := fun both => within ⟨Nat.div_le_div_right both.1, by omega⟩
    rw [if_neg cut]
    exact dropped.memByte_outside (by omega) below

theorem Dropped.entry_present {stop a : Nat} (dropped : Dropped v addr stop (addr / PGSIZE) s t) (low : a < RESERVED)
    (present : t.Present s.pagetable a) : t.entry s.pagetable a = s.entry s.pagetable a := by
  by_cases within : addr / PGSIZE ≤ a / PGSIZE ∧ a / PGSIZE * PGSIZE < stop
  · obtain ⟨g', sheds⟩ := dropped.sheds
    have before := sheds.fewer a (low.trans_le (by decide)) present
    have page := dropped.range _ within.1 within.2 (present_page.mpr before)
    by_cases shares : v.Shares (v.turn addr stop (a / PGSIZE * PGSIZE)) (a / PGSIZE * PGSIZE)
    · have entry := (page.cleared shares).1
      rwa [entry_page, entry_page] at entry
    · exact absurd (present_page.mpr present) (page.gone shares)
  · have entry := dropped.entry _ (by omega) (page_low low)
    rwa [entry_page, entry_page] at entry

end DeisoXv6
