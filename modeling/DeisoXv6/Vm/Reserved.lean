import DeisoXv6.Vm.Munmap
import DeisoXv6.Vm.Shed

/-! What sys_munmap does to the trapframe and the trampoline. They lie in the VMA at the head of the list,
which the search of sys_munmap does not leave out. -/

set_option autoImplicit false

namespace DeisoXv6

open List Semantics LinkedList VmaTable Fault VmaRef Vma

/-- The memory and the list of VMAs of the current process. The reserved VMA has no file. -/
structure Mapped (g : Layout) (s : Sys) (refs : List VmaRef) : Prop where
  held : Held g s s.pagetable
  list : s.vmas.refs s.current = .ok refs
  wf : WellFormed (s.vmas.regions refs)
  head : (s.vmas.start s.current).file = none

/-- The trapframe and the trampoline stay, and so does the VMA that keeps their addresses. -/
structure Intact (s t : Sys) : Prop where
  spares : Spares s.pagetable s t
  start : (t.vmas.start s.current).start = (s.vmas.start s.current).start
  length : (t.vmas.start s.current).length = (s.vmas.start s.current).length

variable {g : Layout} {s t : Sys} {refs pre post : List VmaRef} {it next : VmaRef} {addr length : Nat} {root : PageNo}

variable {f : Vma → Vma}

section Found

variable {prev : VmaRef} {i : VmaId}

theorem Held.setVmas {vmas : VmaTable} (held : Held g s root) : Held g (s.setVmas vmas) root :=
  ⟨held.tables.frame (fun _ _ _ _ => rfl) rfl rfl, held.known, held.user, held.trapframe, held.trampoline, held.pipes⟩

theorem Intact.of_slot (spares : Spares s.pagetable s t)
    (vmas : t.vmas = s.vmas.modify f (.slot i)) : Intact s t := by
  refine ⟨spares, ?_, ?_⟩ <;> rw [vmas] <;> rfl

namespace Mapped

section

variable (mapped : Mapped g s refs)

include mapped

theorem listed : s.Listed := ⟨refs, mapped.list⟩

theorem head_file : (s.vmas.get (.start s.current)).file = none := mapped.head

theorem linked : Linked s.vmas.next (some (.start s.current)) refs :=
  linked_of_refs mapped.list

theorem placed (member : it ∈ refs) : (s.vmas.get it).region.Placed :=
  mapped.wf.placed _ (mem_map_of_mem member)

theorem behind (shape : refs = pre ++ it :: next :: post) (other : pre ≠ []) :
    ∃ i, it = .slot i ∧ (s.vmas.slot i).stop ≤ RESERVED := by
  obtain ⟨front, prev, rfl⟩ := (eq_nil_or_concat pre).resolve_left other
  obtain ⟨ids, slots⟩ := linked_shape mapped.linked
  have member : it ∈ refs.tail := by
    rw [shape]
    cases front <;> simp
  rw [slots, tail_cons] at member
  obtain ⟨i, -, rfl⟩ := mem_map.mp member
  refine ⟨i, rfl, ?_⟩
  have wf := mapped.wf
  have here : slot i ∈ refs := by simp [shape]
  have stop := stop_eq (mapped.placed here)
  have chain : refs = front ++ prev :: .slot i :: next :: post := by simp [shape]
  rw [chain, regions_append] at wf
  have below : Below (s.vmas.get prev).region (s.vmas.get (.slot i)).region := wf.last_below
  have high := wf.start_le (s.vmas.get prev).region (by simp)
  have ends := Region.end_le_pageEnd (r := (s.vmas.get (.slot i)).region)
  exact stop.trans_le (ends.trans (below.trans high))

theorem low (shape : refs = pre ++ it :: next :: post) (other : pre ≠ []) : (s.vmas.get it).stop ≤ RESERVED := by
  obtain ⟨i, rfl, low⟩ := mapped.behind shape other
  exact low

theorem unlinked (shape : refs = pre ++ prev :: it :: post) :
    (s.setVmas (s.vmas.setNext prev (s.vmas.get it).next)).Listed := by
  have linked := mapped.linked
  rw [shape] at linked
  refine ⟨_, refs_of_linked (l := pre ++ prev :: post) ?_⟩
  change Linked (s.vmas.setNext prev (s.vmas.get it).next).next (some (.start s.current)) _
  rw [next_setNext]
  exact linked.unlink

end

end Mapped

section

variable (mapped : Mapped g s refs)

include mapped

theorem munmapWhole_intact (shape : refs = pre ++ prev :: .slot i :: next :: post)
    (low : (s.vmas.slot i).stop ≤ RESERVED) :
    Ensures OfFiles (munmapFound addr length (.whole (some prev) (.slot i))) s fun _ t => Intact s t := by
  have once := mapped.linked.nodup
  have other : slot i ≠ prev := by
    rintro rfl
    rw [shape] at once
    exact (nodup_cons.mp once.of_append_right).1 (by simp)
  have here : slot i ∈ refs := by simp [shape]
  have placed := mapped.placed here
  have same : ((s.vmas.setNext prev (s.vmas.slot i).next).get (.slot i)) = s.vmas.slot i :=
    get_modify_other other
  have held : Held g (s.setVmas (s.vmas.setNext prev (s.vmas.slot i).next)) s.pagetable :=
    mapped.held.setVmas
  refine .modify_bind (.get_bind ((vmaFree_spares held rfl (mapped.unlinked shape) ?_ ?_).bind ?_))
  · change ((s.vmas.setNext prev (s.vmas.slot i).next).get (.slot i)).start % PGSIZE = 0
    rw [same]
    exact placed.aligned
  · change ((s.vmas.setNext prev (s.vmas.slot i).next).get (.slot i)).stop ≤ RESERVED
    rw [same]
    exact low
  · rintro _ t ⟨spares, vmas⟩
    have first : t.vmas.start s.current = (s.vmas.setNext prev (s.vmas.slot i).next).start s.current := by
      rw [vmas]
      rfl
    have kept : ((s.vmas.setNext prev (s.vmas.slot i).next).get (.start s.current)).region =
        (s.vmas.get (.start s.current)).region := region_setNext _
    rw [Region.ext_iff] at kept
    exact .pure ⟨⟨spares.trampolineEntry, spares.trapframeEntry, spares.trapframe, spares.trampoline⟩,
      first ▸ kept.1, first ▸ kept.2⟩

theorem munmapFront_intact (shape : refs = pre ++ .slot i :: next :: post)
    (low : (s.vmas.slot i).stop ≤ RESERVED) (covers : (s.vmas.slot i).Covers addr length)
    (start : (s.vmas.slot i).start = addr) (multiple : length % PGSIZE = 0) :
    Ensures OfFiles (munmapFound addr length (.front (.slot i))) s fun _ t => Intact s t := by
  have here : slot i ∈ refs := by simp [shape]
  have aligned : (s.vmas.slot i).start % PGSIZE = 0 := (mapped.placed here).aligned
  have small := covers.2.trans low
  refine .get_bind ((vmaFreeMem_sheds mapped.held rfl mapped.listed small fun q first more _ shares => ?_).bind ?_)
  · refine absurd shares (not_shares (start ▸ aligned) first more small (.inl ?_))
    unfold u64
    unfold PGSIZE at *
    omega
  · rintro _ t ⟨g', sheds⟩
    refine .modify_bind (.pure (.of_slot (i := i) (f := cutFront addr length) sheds.spares.setVmas ?_))
    change t.vmas.modify (cutFront addr length) (.slot i) = _
    rw [sheds.rest]

theorem Mapped.vmaAt_isSome {va : Nat} (member : it ∈ refs)
    (holds : (s.vmas.get it).Holds va) : (s.vmaAt va).isSome := by
  unfold Sys.vmaAt
  rw [mapped.list]
  exact List.find?_isSome.mpr ⟨it, member, decide_eq_true holds⟩

theorem munmapBack_intact (shape : refs = pre ++ .slot i :: next :: post)
    (low : (s.vmas.slot i).stop ≤ RESERVED) (after : (s.vmas.slot i).start ≤ addr)
    (ends : (s.vmas.slot i).stop = u64 (addr + length))
    (wraps : (s.vmas.slot i).stop < addr → pgrounddown addr < (s.vmas.slot i).stop →
      ¬s.Present s.pagetable (pgrounddown addr)) :
    Ensures OfFiles (munmapFound addr length (.back (.slot i))) s fun _ t => Intact s t := by
  refine .get_bind ((vmaFreeMem_sheds mapped.held rfl mapped.listed (ends ▸ low)
    fun q first more present shares => ?_).bind ?_)
  · rw [← ends] at more shares ⊢
    have space : q * PGSIZE < MAXVA := more.trans_le (low.trans (by decide))
    have page := (shares_back first space shares).1
    have straight : addr ≤ (s.vmas.slot i).stop := by
      by_contra wrapped
      exact wraps (Nat.lt_of_not_le wrapped) (page ▸ more) (page ▸ present)
    have here : slot i ∈ refs := by simp [shape]
    exact fits_back first space shares straight fun before => mapped.vmaAt_isSome here ⟨after, before⟩
  · rintro _ t ⟨g', sheds⟩
    refine .modify_bind (.pure (.of_slot (i := i) (f := cutBack length) sheds.spares.setVmas ?_))
    change t.vmas.modify (cutBack length) (.slot i) = _
    rw [sheds.rest]

end

end Found

section NoFile

def Fault.OfMemory (e : Fault) : Prop := ¬e.OfFiles

instance : DecidablePred OfMemory := fun e => inferInstanceAs (Decidable (¬e.OfFiles))

def SameList (s t : Sys) : Prop := t.vmas = s.vmas ∧ t.current = s.current

instance : Std.Refl SameList := ⟨fun _ => ⟨rfl, rfl⟩⟩

instance : IsTrans Sys SameList := ⟨fun _ _ _ first second =>
  ⟨second.1.trans first.1, second.2.trans first.2⟩⟩

variable {page : PageNo} {v : Vma} {turn : Turn} {q va n off stop fuel : Nat}

theorem SameList.listed (same : SameList s t) (listed : s.Listed) : t.Listed := by
  unfold Sys.Listed
  rw [same.1, same.2]
  exact listed

theorem walk_frames : Frames OfMemory SameList (walk root va false) := fun s =>
  ⟨fun _ t run => by
    rw [(returns_walk_false.mp run).2.2]
    exact ⟨rfl, rfl⟩, fun e run => by
    rw [(fails_walk.mp run).2]
    decide⟩

theorem kfree_frames : Frames OfMemory SameList (kfree page) :=
  .bind .get fun _ => .bind (failIf_frames (by decide)) fun _ =>
    .bind (.modify fun _ => ⟨rfl, rfl⟩) fun _ => .modify fun _ => ⟨rfl, rfl⟩

theorem uvmunmapLoop_frames {doFree : Bool} : Frames OfMemory SameList (uvmunmapLoop root doFree n va) := by
  induction n generalizing va with
  | zero => exact .pure
  | succ n ih =>
    refine .bind walk_frames fun found => ?_
    cases found with
    | none => exact ih
    | some place =>
      exact .bind .get fun _ => .ite ih (.bind (failIf_frames (by decide)) fun _ =>
        .bind (onlyIf_frames kfree_frames) fun _ => .bind (.modify fun _ => ⟨rfl, rfl⟩) fun _ => ih)

theorem memset_frames {place : Option PageNo} : Frames OfMemory SameList (memset place off n) := by
  refine .ite .pure ?_
  cases place with
  | none => exact .throw (by decide)
  | some page => exact .ite (.modify fun _ => ⟨rfl, rfl⟩) (.throw (by decide))

theorem freePage_noFile (noFile : v.file = none) (listed : s.Listed) (here : turn.start / PGSIZE = q) :
    Ensures OfMemory (freePage root v turn (q * PGSIZE)) s fun _ t => SameList s t ∧ q * PGSIZE < MAXVA := by
  by_cases low : q * PGSIZE < MAXVA
  · refine (Ensures.of_returns (Q := fun b t => b = decide (s.Present root (q * PGSIZE)) ∧ t = s)
      (isPageMapped_returns low) ⟨rfl, rfl⟩).bind ?_
    rintro b t ⟨rfl, rfl⟩
    refine .ite (fun mapped => ?_) fun _ => .pure ⟨Std.Refl.refl t, low⟩
    have present : t.Present root turn.start := by
      rw [← present_page, here]
      exact of_decide_eq_true mapped
    have nothing : v.writes turn = none := by
      unfold writes
      rw [noFile, ite_self]
    rw [nothing]
    have dropped : Ensures OfMemory (dropPage root v turn (q * PGSIZE)) t fun _ t' => SameList t t' := by
      obtain ⟨a, walked, -⟩ := walkaddr_present listed present
      refine .ite (fun _ => ?_) fun _ => (Frames.bind (failIf_frames (by decide)) fun _ => uvmunmapLoop_frames) t
      refine (Ensures.of_returns (Q := fun _ t' => t' = t) walked rfl).bind ?_
      rintro a' t' rfl
      exact memset_frames t'
    exact (Ensures.pure (Q := fun _ t' => t' = t) rfl).bind fun _ t' same => by
      subst same
      exact dropped.post fun _ _ list => ⟨list, low⟩
  · have panics : Fails (isPageMapped root (q * PGSIZE)) s (.panic .walk) :=
      fails_bind.mpr (.inl (fails_walk.mpr ⟨Nat.le_of_not_lt low, rfl⟩))
    exact .of_fails (fails_bind.mpr (.inl panics)) (by decide)

theorem vmaFreeMemLoop_noFile (noFile : v.file = none) (listed : s.Listed) (first : pgrounddown addr ≤ q * PGSIZE) :
    Ensures OfMemory (vmaFreeMemLoop root v addr stop fuel (q * PGSIZE)) s fun _ t => SameList s t := by
  induction fuel generalizing s q with
  | zero => exact .throw (by decide)
  | succ fuel ih =>
    refine .ite (fun _ => ?_) fun _ => .pure ⟨rfl, rfl⟩
    have place : (v.turn addr stop (q * PGSIZE)).start / PGSIZE = q := by
      have bounds : q * PGSIZE ≤ (v.turn addr stop (q * PGSIZE)).start ∧ _ := turn_start first
      unfold PGSIZE at *
      omega
    refine (freePage_noFile noFile listed place).bind ?_
    rintro _ t ⟨same, low⟩
    rw [page_after low, ← Nat.succ_mul]
    refine (ih (same.listed listed) ?_).post fun _ _ later => IsTrans.trans _ _ _ same later
    rw [Nat.succ_mul]
    omega

variable {ref : VmaRef}

theorem vmaFreeMem_noFile {length : Nat} (noFile : (s.vmas.get ref).file = none) (listed : s.Listed) :
    Ensures OfMemory (vmaFreeMem root ref addr length) s fun _ t => SameList s t := by
  refine .get_bind ?_
  rw [pgrounddown_eq_mul]
  exact vmaFreeMemLoop_noFile noFile listed pgrounddown_eq_mul.le

theorem vmaFreeMemLoop_empty (noFile : v.file = none) (listed : s.Listed) (inside : v.start < addr)
    (low : addr < MAXVA) (odd : addr % PGSIZE ≠ 0) :
    Returns (vmaFreeMemLoop root v addr addr (fuel + 2) (addr / PGSIZE * PGSIZE)) s () s := by
  have before : addr / PGSIZE * PGSIZE < addr := by
    unfold PGSIZE at *
    omega
  have beyond : ¬addr / PGSIZE * PGSIZE + PGSIZE < addr := by
    unfold PGSIZE at *
    omega
  have below := before.trans low
  have start : (v.turn addr addr (addr / PGSIZE * PGSIZE)).start = addr := if_pos before
  have stop : (v.turn addr addr (addr / PGSIZE * PGSIZE)).stop = addr := by
    rw [turn_stop below]
    exact Nat.min_eq_left (Nat.le_of_not_lt beyond)
  have nothing : u32 (sub64 addr addr) = 0 := by
    rw [sub64_eq le_rfl (low.trans (by decide)), Nat.sub_self]
    rfl
  have page : Returns (freePage root v (v.turn addr addr (addr / PGSIZE * PGSIZE)) (addr / PGSIZE * PGSIZE)) s () s := by
    refine returns_bind.mpr ⟨_, s, isPageMapped_returns below, ?_⟩
    split
    · rename_i mapped
      have present : s.Present root addr := by
        rw [← present_page]
        exact of_decide_eq_true mapped
      obtain ⟨a, walked, -⟩ := walkaddr_present listed present
      refine returns_bind.mpr ⟨(), s, ?_, ?_⟩
      · unfold writes
        rw [noFile, ite_self]
        exact returns_pure.mpr ⟨rfl, rfl⟩
      · unfold dropPage
        rw [if_pos (.inl ⟨by rw [start]; exact before, by rw [start]; exact inside⟩), start, stop, nothing]
        exact returns_bind.mpr ⟨a, s, walked, returns_pure.mpr ⟨rfl, rfl⟩⟩
    · exact returns_pure.mpr ⟨rfl, rfl⟩
  unfold vmaFreeMemLoop
  rw [if_pos before]
  refine returns_bind.mpr ⟨(), s, page, ?_⟩
  unfold vmaFreeMemLoop
  rw [page_after below, if_neg beyond]
  exact returns_pure.mpr ⟨rfl, rfl⟩

theorem vmaFreeMem_empty (noFile : (s.vmas.get ref).file = none) (listed : s.Listed)
    (small : addr < 2 ^ 64) (inside : addr % PGSIZE ≠ 0 → (s.vmas.get ref).start < addr)
    (low : addr % PGSIZE ≠ 0 → addr < MAXVA) : Returns (vmaFreeMem root ref addr 0) s () s := by
  have stop : u64 addr = addr := Nat.mod_eq_of_lt small
  have fuel : 2 ^ 64 / PGSIZE + 1 = 2 ^ 52 - 1 + 2 := by decide
  unfold vmaFreeMem
  rw [returns_get_bind, Nat.add_zero, stop, fuel, pgrounddown_eq_mul]
  by_cases aligned : addr % PGSIZE = 0
  · have start : addr / PGSIZE * PGSIZE = addr := by
      rw [← pgrounddown_eq_mul, pgrounddown_eq aligned]
    unfold vmaFreeMemLoop
    rw [start, if_neg (lt_irrefl addr)]
    exact returns_pure.mpr ⟨rfl, rfl⟩
  · exact vmaFreeMemLoop_empty noFile listed (inside aligned) (low aligned) aligned

theorem fails_vmaFreeMem_high (small : addr < 2 ^ 64) (high : MAXVA ≤ addr)
    (odd : addr % PGSIZE ≠ 0) : Fails (vmaFreeMem root ref addr 0) s (.panic .walk) := by
  have stop : u64 addr = addr := Nat.mod_eq_of_lt small
  have before : addr / PGSIZE * PGSIZE < addr := by
    unfold PGSIZE at *
    omega
  have beyond : MAXVA ≤ addr / PGSIZE * PGSIZE := by
    unfold MAXVA at high ⊢
    unfold PGSIZE
    omega
  unfold vmaFreeMem
  rw [fails_get_bind, Nat.add_zero, stop, pgrounddown_eq_mul]
  unfold vmaFreeMemLoop
  rw [if_pos before]
  exact fails_bind.mpr (.inl (fails_bind.mpr (.inl (fails_bind.mpr (.inl (fails_walk.mpr ⟨beyond, rfl⟩))))))

theorem fails_vmaFreeMem_wrapped {length : Nat} (listed : s.Listed)
    (low : (s.vmas.get ref).stop ≤ RESERVED) (after : (s.vmas.get ref).start ≤ addr)
    (ends : (s.vmas.get ref).stop = u64 (addr + length)) (later : (s.vmas.get ref).start ≠ addr)
    (wraps : (s.vmas.get ref).stop < addr) (page : pgrounddown addr < (s.vmas.get ref).stop)
    (present : s.Present root (pgrounddown addr)) : Fails (vmaFreeMem root ref addr length) s .badAddress := by
  unfold vmaFreeMem
  rw [fails_get_bind, ← ends]
  generalize s.vmas.get ref = v at *
  have below : pgrounddown addr < MAXVA := page.trans_le (low.trans (by decide))
  have before := page.trans wraps
  have start : (v.turn addr v.stop (pgrounddown addr)).start = addr := if_pos before
  have place : addr < pgrounddown addr + PGSIZE := by
    unfold pgrounddown PGSIZE
    omega
  have stop : (v.turn addr v.stop (pgrounddown addr)).stop = v.stop := by
    rw [pgrounddown_eq_mul] at below place ⊢
    rw [turn_stop below]
    exact Nat.min_eq_left (by omega)
  have nothing : v.writes (v.turn addr v.stop (pgrounddown addr)) = none := by
    by_contra some
    have written := writes_lt some
    rw [start] at written
    have least : (v.turn addr v.stop (pgrounddown addr)).writeEnd ≤
        (v.turn addr v.stop (pgrounddown addr)).stop := turn_writeEnd_le
    omega
  have huge : PGSIZE < u32 (sub64 v.stop addr) := by
    unfold MAXVA at below
    unfold pgrounddown at page place below
    unfold u32 sub64 u64
    unfold PGSIZE at *
    omega
  have here : s.Present root addr := by
    rw [← present_page, ← pgrounddown_eq_mul]
    exact present
  obtain ⟨a, walked, -⟩ := walkaddr_present listed here
  have wild : Fails (memset a (addr - pgrounddown addr) (u32 (sub64 v.stop addr))) s .badAddress := by
    unfold memset
    rw [if_neg (by omega)]
    cases a with
    | none => exact fails_throw.mpr rfl
    | some page =>
      dsimp only
      rw [if_neg (by omega)]
      exact fails_throw.mpr rfl
  unfold vmaFreeMemLoop
  rw [if_pos page]
  refine fails_bind.mpr (.inl ?_)
  unfold freePage
  have quiet : Returns (writeBack (v.turn addr v.stop (pgrounddown addr)) none) s () s :=
    returns_pure.mpr ⟨rfl, rfl⟩
  rw [fails_bind_of_returns (isPageMapped_returns below), decide_eq_true present, if_pos rfl, nothing,
    fails_bind_of_returns quiet]
  unfold dropPage
  have shares : v.Shares (v.turn addr v.stop (pgrounddown addr)) (pgrounddown addr) := by
    refine .inl ?_
    rw [start]
    exact ⟨before, lt_of_le_of_ne after later⟩
  rw [if_pos shares, start, stop, fails_bind_of_returns walked]
  exact wild

end NoFile

/-- What sys_munmap(addr, length) must not do when it stops at `it`, with `pre` before it: cut off a part of
the reserved VMA, or clear a page from an address that lies beyond the end of a wrapped range. -/
structure Harmless (s : Sys) (addr length : Nat) (pre : List VmaRef) (it : VmaRef) : Prop where
  whole : pre = [] → ¬((s.vmas.get it).start = addr ∧ (s.vmas.get it).length = length)
  front : pre = [] → (s.vmas.get it).start = addr → length % PGSIZE = 0 → length = 0
  back : pre = [] → (s.vmas.get it).start ≠ addr → (s.vmas.get it).stop = u64 (addr + length) →
    length = 0 ∧ (addr % PGSIZE ≠ 0 → addr < MAXVA)
  wrapped : pre ≠ [] → (s.vmas.get it).start ≠ addr → (s.vmas.get it).stop = u64 (addr + length) →
    (s.vmas.get it).stop < addr → pgrounddown addr < (s.vmas.get it).stop →
    ¬s.Present s.pagetable (pgrounddown addr)

theorem pgrounddown_eq_iff {x : Nat} : pgrounddown x = x ↔ x % PGSIZE = 0 := by
  unfold pgrounddown PGSIZE
  omega

theorem Mapped.head_of (mapped : Mapped g s refs) (shape : refs = it :: next :: post) : it = .start s.current := by
  obtain ⟨ids, slots⟩ := linked_shape mapped.linked
  exact (List.cons.inj (shape.symm.trans slots)).1

theorem cutFront_start {v : Vma} : (cutFront addr length v).start = u64 (addr + length) := rfl

theorem cutBack_length {v : Vma} : (cutBack length v).length = sub64 v.length length := rfl

theorem cutBack_start {v : Vma} : (cutBack length v).start = v.start := rfl

theorem start_cut {p : ProcId} :
    (s.setVmas (s.vmas.modify f (.start p))).vmas.start p = f (s.vmas.start p) := Function.update_self ..

section

variable (mapped : Mapped g s refs)

include mapped

theorem munmapHead_intact (shape : refs = it :: next :: post)
    (covers : (s.vmas.get it).Covers addr length) (size : length < 2 ^ 64) (small : addr < 2 ^ 64)
    (clear : Harmless s addr length [] it) :
    Ensures OfFiles (munmapFound addr length (s.vmas.munmapBranch addr length none it)) s
      fun _ t => Intact s t := by
  obtain rfl := mapped.head_of shape
  have stays : Intact s s := ⟨(Sheds.refl mapped.held).spares, rfl, rfl⟩
  have here : start s.current ∈ refs := by simp [shape]
  have placed := mapped.placed here
  have inside : (s.vmas.start s.current).start + (s.vmas.start s.current).length < 2 ^ 64 := placed.inside
  have aligned : (s.vmas.start s.current).start % PGSIZE = 0 := placed.aligned
  have kept : sub64 (s.vmas.start s.current).length 0 = (s.vmas.start s.current).length :=
    sub64_eq (Nat.zero_le _) (by omega)
  unfold munmapBranch
  rw [if_neg (clear.whole rfl)]
  split
  · rename_i start
    split
    · rename_i multiple
      obtain rfl := clear.front rfl start (pgrounddown_eq_iff.mp multiple)
      have odd : ¬addr % PGSIZE ≠ 0 := by
        rw [← start]
        exact not_not.mpr aligned
      have freed : Returns (vmaFreeMem s.pagetable (.start s.current) addr 0) s () s :=
        vmaFreeMem_empty mapped.head mapped.listed small (fun wrong => absurd wrong odd) fun wrong => absurd wrong odd
      refine .get_bind ((Ensures.of_returns (Q := fun _ t => t = s) freed rfl).bind ?_)
      rintro _ t rfl
      refine .modify_bind (.pure ⟨stays.spares.setVmas, ?_, ?_⟩)
      · have stop : u64 (addr + 0) = addr := Nat.mod_eq_of_lt small
        rw [start_cut, cutFront_start, stop]
        exact start.symm
      · rw [start_cut]
        exact kept
    · exact .pure stays
  · rename_i later
    split
    · rename_i ends
      obtain ⟨rfl, low⟩ := clear.back rfl later ends
      have freed : Returns (vmaFreeMem s.pagetable (.start s.current) addr 0) s () s :=
        vmaFreeMem_empty mapped.head mapped.listed small (fun _ => lt_of_le_of_ne covers.1 later) low
      refine .get_bind ((Ensures.of_returns (Q := fun _ t => t = s) freed rfl).bind ?_)
      rintro _ t rfl
      refine .modify_bind (.pure ⟨stays.spares.setVmas, ?_, ?_⟩)
      · rw [start_cut, cutBack_start]
      · rw [start_cut, cutBack_length, kept]
    · exact .pure stays

theorem munmapFound_intact (shape : refs = pre ++ it :: next :: post)
    (covers : (s.vmas.get it).Covers addr length) (size : length < 2 ^ 64) (small : addr < 2 ^ 64)
    (clear : Harmless s addr length pre it) :
    Ensures OfFiles (munmapFound addr length (s.vmas.munmapBranch addr length pre.getLast? it)) s
      fun _ t => Intact s t := by
  rcases eq_nil_or_concat pre with rfl | ⟨front, prev, rfl⟩
  · exact munmapHead_intact mapped shape covers size small clear
  · obtain ⟨i, rfl, low⟩ := mapped.behind shape (by simp)
    have last : (front.concat prev).getLast? = some prev := by simp
    have stays : Intact s s := ⟨(Sheds.refl mapped.held).spares, rfl, rfl⟩
    rw [last]
    unfold munmapBranch
    split
    · have chain : refs = front ++ prev :: .slot i :: next :: post := by simp [shape]
      exact munmapWhole_intact mapped chain low
    · split
      · rename_i start
        split
        · rename_i multiple
          exact munmapFront_intact mapped shape low covers start (pgrounddown_eq_iff.mp multiple)
        · exact .pure stays
      · rename_i later
        split
        · rename_i ends
          exact munmapBack_intact mapped shape low covers.1 ends (clear.wrapped (by simp) later ends)
        · exact .pure stays

theorem munmapHead_harmless (shape : refs = it :: next :: post) (size : length < 2 ^ 64) (small : addr < 2 ^ 64)
    (intact : Ensures OfFiles (munmapFound addr length (s.vmas.munmapBranch addr length none it)) s
      fun _ t => Intact s t) : Harmless s addr length [] it := by
  obtain rfl := mapped.head_of shape
  have here : start s.current ∈ refs := by simp [shape]
  have inside : (s.vmas.start s.current).start + (s.vmas.start s.current).length < 2 ^ 64 :=
    (mapped.placed here).inside
  unfold munmapBranch at intact
  have whole : ¬((s.vmas.get (.start s.current)).start = addr ∧ (s.vmas.get (.start s.current)).length = length) := by
    intro same
    rw [if_pos same] at intact
    exact absurd (intact.fails .nullPointer (fails_throw.mpr rfl)) (by decide)
  rw [if_neg whole] at intact
  refine ⟨fun _ => whole, fun _ start multiple => ?_, fun _ later ends => ?_, fun other => absurd rfl other⟩
  · rw [if_pos start, if_pos (pgrounddown_eq multiple)] at intact
    have cut : Ensures OfMemory (munmapFound addr length (.front (.start s.current))) s
        fun _ t => t.vmas.start s.current = cutFront addr length (s.vmas.start s.current) :=
      .get_bind ((vmaFreeMem_noFile mapped.head_file mapped.listed).bind fun _ t same => .modify_bind (.pure (by
        rw [start_cut, same.1])))
    obtain ⟨_, t, kept, moved⟩ := intact.meet cut fun _ files memory => memory files
    have place := kept.start
    rw [moved] at place
    rw [cutFront_start] at place
    change (s.vmas.start s.current).start = addr at start
    unfold u64 at place
    omega
  · rw [if_neg later, if_pos ends] at intact
    have cut : Ensures OfMemory (munmapFound addr length (.back (.start s.current))) s
        fun _ t => t.vmas.start s.current = cutBack length (s.vmas.start s.current) :=
      .get_bind ((vmaFreeMem_noFile mapped.head_file mapped.listed).bind fun _ t same => .modify_bind (.pure (by
        rw [start_cut, same.1])))
    obtain ⟨_, t, kept, moved⟩ := intact.meet cut fun _ files memory => memory files
    have place := kept.length
    rw [moved] at place
    rw [cutBack_length] at place
    have empty : length = 0 := by
      unfold sub64 u64 at place
      omega
    subst empty
    refine ⟨rfl, fun odd => Nat.lt_of_not_le fun high => ?_⟩
    have panics : Fails (vmaFreeMem s.pagetable (.start s.current) addr 0) s (.panic .walk) :=
      fails_vmaFreeMem_high small high odd
    exact absurd (intact.fails _ (fails_get_bind.mpr (fails_bind.mpr (.inl panics)))) (by decide)

theorem munmapFound_harmless (shape : refs = pre ++ it :: next :: post)
    (size : length < 2 ^ 64) (small : addr < 2 ^ 64) (after : (s.vmas.get it).start ≤ addr)
    (intact : Ensures OfFiles (munmapFound addr length (s.vmas.munmapBranch addr length pre.getLast? it)) s
      fun _ t => Intact s t) : Harmless s addr length pre it := by
  cases pre with
  | nil => exact munmapHead_harmless mapped shape size small intact
  | cons first rest =>
    refine ⟨nofun, nofun, nofun, fun _ later ends wraps page present => ?_⟩
    have low := mapped.low shape (by simp)
    unfold munmapBranch at intact
    rw [if_neg fun same => later same.1, if_neg later, if_pos ends] at intact
    have wild := fails_vmaFreeMem_wrapped mapped.listed low after ends later wraps page present
    exact absurd (intact.fails _ (fails_get_bind.mpr (fails_bind.mpr (.inl wild)))) (by decide)

end

theorem heapProcess_mapped : Mapped (.single heapProcess.freelist) heapProcess [.start 0, .slot 0] where
  held := by
    refine ⟨heapProcess_tables, single_tree _, fun q _ present => absurd present single_absent, rfl, rfl,
      fun f pipe => absurd pipe (by simp [heapProcess, Sys.single])⟩
  list := by decide +kernel
  wf := single_wellFormed ⟨by decide, by decide⟩ (by decide)
  head := rfl

end DeisoXv6
