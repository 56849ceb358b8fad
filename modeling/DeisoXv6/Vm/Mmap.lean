import DeisoXv6.Vm.Space

/-! When sys_mmap keeps the lists well formed: unless the length is within a page of 2^64. -/

set_option autoImplicit false

namespace DeisoXv6

open LinkedList VmaTable

section Lists

variable {t : VmaTable} {live : ProcId → Bool} {lists : ProcId → List VmaRef} {p q : ProcId}
  {r it next prev : VmaRef} {pre post rs : List VmaRef} {i : VmaId} {f : Vma → Vma} {s : Space}

variable {length : Nat} {call : VmaTable.Mmap}

theorem mmapGap_some (found : t.mmapGap length rs = some it) :
    ∃ pre next post, rs = pre ++ it :: next :: post ∧ t.availableSpace it next ≥ pgroundup length := by
  induction rs with
  | nil => contradiction
  | cons first rest ih =>
    cases rest with
    | nil => contradiction
    | cons second rest =>
      rw [mmapGap] at found
      split at found
      · rename_i room
        cases found
        exact ⟨[], second, rest, rfl, room⟩
      · obtain ⟨pre, next, post, shape, room⟩ := ih found
        exact ⟨first :: pre, next, post, by rw [shape]; rfl, room⟩

theorem mmapGap_wraps (long : 2 ^ 64 - PGSIZE < length) (small : length < 2 ^ 64) :
    t.mmapGap length (it :: next :: post) = some it := by
  have zero : pgroundup length = 0 := by
    unfold PGSIZE at long
    unfold pgroundup pgrounddown u64 PGSIZE
    omega
  rw [mmapGap, zero, if_pos (Nat.zero_le _)]

/-- A new mapping lies between its neighbours unless its length is within a page of 2^64. -/
theorem mmap_region {v w : Vma} (upper : v.region.Placed)
    (lower : w.region.Placed) (below : Below v.region w.region) (bounded : v.start ≤ RESERVED)
    (room : sub64 (pgrounddown v.start) (pgroundup w.stop) ≥ pgroundup call.length.toNat) :
    call.length.toNat ≤ 2 ^ 64 - PGSIZE ↔ (call.vma v).region.Placed ∧
      Below v.region (call.vma v).region ∧ Below (call.vma v).region w.region := by
  have length := call.length.toNat_lt
  have aligned : v.start % PGSIZE = 0 := upper.aligned
  have lowest : pageUp (w.start + w.length) ≤ v.start := below
  have ends := (le_pageUp (w.start + w.length)).trans lowest
  have shape : (call.vma v).region = ⟨(call.vma v).start, call.length.toNat⟩ := rfl
  unfold RESERVED MAXVA at bounded
  rw [shape]
  constructor
  · intro short
    rw [Vma.stop_eq lower, pgrounddown_eq aligned, pgroundup_eq short,
      pgroundup_eq (by unfold PGSIZE; omega), sub64_eq lowest (by omega)] at room
    have start : (call.vma v).start = v.start - pageUp call.length.toNat := by
      unfold VmaTable.Mmap.vma
      rw [pgrounddown_eq aligned, pgroundup_eq short]
      exact sub64_eq (by omega) (by omega)
    have fits := le_pageUp call.length.toNat
    rw [start]
    refine ⟨⟨?_, ?_⟩, pageUp_le aligned ?_, ?_⟩
    · have whole : pageUp call.length.toNat % PGSIZE = 0 := Nat.mul_mod_left ..
      simp only [PGSIZE] at aligned whole ⊢
      omega
    · change v.start - pageUp call.length.toNat + call.length.toNat < 2 ^ 64
      omega
    · change v.start - pageUp call.length.toNat + call.length.toNat ≤ v.start
      omega
    · change pageUp (w.start + w.length) ≤ v.start - pageUp call.length.toNat
      omega
  · rintro ⟨-, under, -⟩
    by_contra long
    have zero : pgroundup call.length.toNat = 0 := by
      unfold PGSIZE at long
      unfold pgroundup pgrounddown u64 PGSIZE
      omega
    have start : (call.vma v).start = v.start := by
      unfold VmaTable.Mmap.vma
      rw [pgrounddown_eq aligned, zero]
      exact sub64_eq (Nat.zero_le _) (by omega)
    rw [start] at under
    have beyond : pageUp (v.start + call.length.toNat) ≤ v.start := under
    have past := le_pageUp (v.start + call.length.toNat)
    unfold PGSIZE at long
    omega

theorem inserted_iff {t' : VmaTable} {new : Region} (listed : Listed s lists p)
    (owned : Owned t' s.live (Function.update lists p (pre ++ it :: .slot i :: next :: post)))
    (shape : lists p = pre ++ it :: next :: post)
    (kept : ∀ q, s.live q = true → ∀ r ∈ lists q, (t'.get r).region = (s.table.get r).region)
    (fresh : (t'.get (.slot i)).region = new) :
    Space.WellFormed ⟨t', s.live⟩ ↔ DeisoXv6.WellFormed (s.table.regions pre ++
      (s.table.get it).region :: new :: (s.table.get next).region :: s.table.regions post) := by
  have others : ∀ q, q ≠ p → s.live q = true → DeisoXv6.WellFormed (t'.regions (lists q)) := by
    intro q _ alive
    rw [regions_congr (kept q alive)]
    exact listed.wf q alive
  have here : ∀ r ∈ pre ++ it :: next :: post, (t'.get r).region = (s.table.get r).region :=
    shape ▸ kept p listed.alive
  rw [wellFormed_update owned listed.alive others]
  simp only [regions_append, regions_cons, fresh]
  rw [regions_congr fun r member => here r (by simp [member]), here it (by simp), here next (by simp),
    regions_congr fun r member => here r (by simp [member])]

theorem mmap_inserts (listed : Listed s lists p) (shape : lists p = pre ++ it :: next :: post)
    (room : s.table.availableSpace it next ≥ pgroundup call.length.toNat) (unused : (s.table.slot i).used = false) :
    Space.WellFormed ⟨(s.table.modify (fun _ => call.vma (s.table.get it)) (.slot i)).setNext it (some i),
      s.live⟩ ↔ call.length.toNat ≤ 2 ^ 64 - PGSIZE := by
  have wf := listed.wf p listed.alive
  rw [shape, regions_append] at wf
  have owned := listed.owned.insert listed.alive shape unused (v := call.vma (s.table.get it)) rfl rfl
  have kept : ∀ q, s.live q = true → ∀ r ∈ lists q,
      (((s.table.modify (fun _ => call.vma (s.table.get it)) (.slot i)).setNext it (some i)).get r).region =
        (s.table.get r).region := by
    intro q alive r member
    have other : r ≠ .slot i := fun same => listed.owned.unused_not_mem alive unused (same ▸ member)
    rw [region_setNext, get_modify_other other]
  have fresh : (((s.table.modify (fun _ => call.vma (s.table.get it)) (.slot i)).setNext it (some i)).get
      (.slot i)).region = (call.vma (s.table.get it)).region := by
    rw [region_setNext, get_modify_same]
  rw [inserted_iff listed owned shape kept fresh]
  have upper : (s.table.get it).region.Placed := wf.placed _ (by simp)
  have lower : (s.table.get next).region.Placed := wf.placed _ (by simp)
  have bounded : (s.table.get it).start ≤ RESERVED := wf.start_le (s.table.get it).region (by simp)
  rw [mmap_region upper lower wf.last_below bounded room]
  exact ⟨fun grown => grown.inserted, fun ⟨placed, under, beyond⟩ => wf.insert placed under beyond⟩

theorem mmap_iff (listed : Listed s lists p) (call : VmaTable.Mmap) :
    Space.ReturnsWellFormed (s.step p (.mmap call)) ↔ s.Keeps p (.mmap call) := by
  have wf := listed.space
  have size := call.length.toNat_lt
  simp only [Space.step, VmaTable.mmap, Space.Keeps, Space.after, listed.refs]
  by_cases permitted : call.permitted = true
  · rw [if_neg (by simp [permitted])]
    cases gap : s.table.mmapGap call.length.toNat (lists p) with
    | none =>
      refine ⟨fun _ _ _ more => ?_, fun _ => (Space.returnsWellFormed_ok s).mpr wf⟩
      by_contra long
      obtain ⟨next, post, shape⟩ := listed.second more
      rw [shape, mmapGap_wraps (by omega) size] at gap
      contradiction
    | some it =>
      obtain ⟨pre, next, post, shape, room⟩ := mmapGap_some gap
      have more : (s.table.start p).next ≠ none := by
        intro last
        have short := congrArg List.length ((listed.single last).symm.trans shape)
        simp at short
        omega
      cases taken : s.table.vmaAlloc with
      | none => simp [wf]
      | some i =>
        simp only [Space.returnsWellFormed_ok]
        rw [mmap_inserts listed shape room (vmaAlloc_unused taken)]
        exact ⟨fun short _ _ _ => short, fun keeps => keeps permitted (by simp) more⟩
  · rw [if_pos (by simpa using permitted)]
    simp [wf, permitted]

end Lists

end DeisoXv6
