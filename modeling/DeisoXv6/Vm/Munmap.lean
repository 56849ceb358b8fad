import DeisoXv6.Vm.Space

/-! When sys_munmap keeps the lists well formed. The element it stops at loses its front or its end or
goes altogether; a range that wraps moves the boundary the other way. -/

set_option autoImplicit false

namespace DeisoXv6

open List LinkedList VmaTable

section Lists

variable {t : VmaTable} {live : ProcId → Bool} {lists : ProcId → List VmaRef} {p q : ProcId}
  {r it next prev : VmaRef} {pre post rs : List VmaRef} {i : VmaId} {f : Vma → Vma} {s : Space}

theorem first_unique {A : Type} {P : A → Prop} {front front' back back' : List A} {x y : A}
    (same : front ++ x :: back = front' ++ y :: back') (none : ∀ z ∈ front, ¬P z) (here : P x)
    (none' : ∀ z ∈ front', ¬P z) (here' : P y) : front = front' ∧ x = y ∧ back = back' := by
  induction front generalizing front' with
  | nil =>
    cases front' with
    | nil => exact ⟨rfl, List.cons.inj same⟩
    | cons z front' =>
      obtain ⟨rfl, -⟩ := List.cons.inj same
      exact absurd here (none' x (by simp))
  | cons z front ih =>
    cases front' with
    | nil =>
      obtain ⟨rfl, -⟩ := List.cons.inj same
      exact absurd here' (none z (by simp))
    | cons z' front' =>
      obtain ⟨rfl, rest⟩ := List.cons.inj same
      obtain ⟨rfl, last⟩ := ih rest (fun w member => none w (by simp [member]))
        (fun w member => none' w (by simp [member]))
      exact ⟨rfl, last⟩

/-- sys_munmap finds the first element but the last that covers the range, or nothing. -/
theorem munmapFind_cases (addr length : Nat) (rs : List VmaRef) (prev : Option VmaRef) :
    (t.munmapFind addr length prev rs = .notFound ∧ ∀ pre it next post, rs = pre ++ it :: next :: post →
      ¬(t.get it).Covers addr length) ∨
    ∃ pre it next post, rs = pre ++ it :: next :: post ∧ (∀ r ∈ pre, ¬(t.get r).Covers addr length) ∧
      (t.get it).Covers addr length ∧
      t.munmapFind addr length prev rs = t.munmapBranch addr length (pre.getLast?.or prev) it := by
  induction rs generalizing prev with
  | nil => exact .inl ⟨rfl, by simp⟩
  | cons first rest ih =>
    cases rest with
    | nil =>
      refine .inl ⟨rfl, fun pre it next post shape => ?_⟩
      have := congrArg List.length shape
      simp only [length_append, length_cons, length_nil] at this
      omega
    | cons second rest =>
      by_cases covers : (t.get first).Covers addr length
      · refine .inr ⟨[], first, second, rest, rfl, by simp, covers, ?_⟩
        rw [munmapFind]
        exact if_pos covers
      · have skip : t.munmapFind addr length prev (first :: second :: rest) =
            t.munmapFind addr length (some first) (second :: rest) := by
          rw [munmapFind]
          exact if_neg covers
        rw [skip]
        rcases ih (some first) with ⟨nothing, none⟩ | ⟨pre, it, next, post, shape, none, here, found⟩
        · refine .inl ⟨nothing, fun pre it next post shape => ?_⟩
          cases pre with
          | nil =>
            cases shape
            exact covers
          | cons x pre =>
            obtain ⟨-, rest⟩ := List.cons.inj shape
            exact none pre it next post rest
        · refine .inr ⟨first :: pre, it, next, post, by rw [shape]; rfl, ?_, here, ?_⟩
          · intro r member
            rcases mem_cons.mp member with rfl | later
            · exact covers
            · exact none r later
          · rw [found]
            congr 1
            cases pre <;> simp [List.getLast?_cons]

variable {v : Vma} {length addr : Nat}

theorem cutFront_region {w : Vma} (placed : v.region.Placed)
    (below : Below v.region w.region) (size : length < 2 ^ 64)
    (covers : v.Covers v.start length) (whole : length % PGSIZE = 0) :
    ((cutFront v.start length v).start = v.start ↔ length = 0) ∧ (cutFront v.start length v).region.Placed ∧
      (cutFront v.start length v).region.pageEnd = v.region.pageEnd ∧
      (Below (cutFront v.start length v).region w.region ↔
        (2 ^ 64 ≤ v.start + length → w.region.pageEnd ≤ v.start + length - 2 ^ 64)) := by
  have inside : v.start + v.length < 2 ^ 64 := placed.inside
  have aligned : v.start % PGSIZE = 0 := placed.aligned
  have under : w.region.pageEnd ≤ v.start := below
  have reach := covers.2
  rw [Vma.stop_eq placed] at reach
  have shape : (cutFront v.start length v).region = ⟨u64 (v.start + length), sub64 v.length length⟩ := rfl
  have start : (cutFront v.start length v).start = u64 (v.start + length) := rfl
  unfold u64 at reach
  -- the end stays where it is, also when the start wraps
  have stays : u64 (v.start + length) + sub64 v.length length = v.start + v.length := by
    unfold sub64 u64
    omega
  rw [shape, start]
  refine ⟨?_, ⟨?_, ?_⟩, ?_, ?_⟩
  · unfold u64
    omega
  · simp only [PGSIZE] at aligned whole ⊢
    unfold u64
    omega
  · change u64 (v.start + length) + sub64 v.length length < 2 ^ 64
    omega
  · change pageUp (u64 (v.start + length) + sub64 v.length length) = pageUp (v.start + v.length)
    rw [stays]
  · change w.region.pageEnd ≤ u64 (v.start + length) ↔ _
    unfold u64
    omega

theorem cutBack_region (placed : v.region.Placed) (size : length < 2 ^ 64) (small : addr < 2 ^ 64)
    (after : v.start ≤ addr) (ends : v.stop = u64 (addr + length)) : (cutBack length v).region.Placed ∧
      ∀ {u : Vma}, Below u.region v.region → (Below u.region (cutBack length v).region ↔
        (2 ^ 64 ≤ addr + length → pageUp addr ≤ u.start)) := by
  have inside : v.start + v.length < 2 ^ 64 := placed.inside
  rw [Vma.stop_eq placed] at ends
  unfold u64 at ends
  have stays : v.start + sub64 v.length length = addr := by
    unfold sub64 u64
    omega
  refine ⟨⟨placed.aligned, ?_⟩, fun {u} below => ?_⟩
  · change v.start + sub64 v.length length < 2 ^ 64
    omega
  · have beyond : pageUp (v.start + v.length) ≤ u.start := below
    change pageUp (v.start + sub64 v.length length) ≤ u.start ↔ _
    rw [stays]
    refine ⟨fun under _ => under, fun wraps => ?_⟩
    by_cases wrap : 2 ^ 64 ≤ addr + length
    · exact wraps wrap
    · refine le_trans ?_ beyond
      unfold pageUp PGSIZE
      omega

section

variable (listed : Listed s lists p)

include listed

theorem unlinked (shape : lists p = pre ++ prev :: .slot i :: post) :
    Space.WellFormed ⟨(s.table.setNext prev (s.table.slot i).next).modify (fun _ => .free) (.slot i), s.live⟩ := by
  have owned := listed.owned.unlink listed.alive shape
  have once := (listed.owned.linked p listed.alive).nodup
  have gone : VmaRef.slot i ∈ lists p := by simp [shape]
  have kept : ∀ rs, .slot i ∉ rs →
      ((s.table.setNext prev (s.table.slot i).next).modify (fun _ => .free) (.slot i)).regions rs =
        s.table.regions rs := by
    intro rs absent
    rw [region_modify_other absent]
    exact regions_congr fun r _ => region_setNext _
  refine (wellFormed_update owned listed.alive fun q other alive => ?_).mpr ?_
  · rw [kept _ fun member => other (listed.owned.disjoint alive listed.alive member gone)]
    exact listed.wf q alive
  · have wf := listed.wf p listed.alive
    rw [shape, regions_append] at wf
    have absent : VmaRef.slot i ∉ pre ++ prev :: post := by
      rw [shape, ← singleton_append, ← append_assoc, nodup_middle] at once
      simpa using (nodup_cons.mp once).1
    rw [kept _ absent, regions_append]
    exact wf.remove

theorem take_whole (shape : lists p = pre ++ it :: next :: post)
    (same : (s.table.get it).start = addr ∧ (s.table.get it).length = length) :
    Space.ReturnsWellFormed (s.after (s.table.munmapTake addr length (.whole pre.getLast? it))) ↔
      Trims s.table addr length pre it next := by
  rcases eq_nil_or_concat pre with rfl | ⟨front, prev, rfl⟩
  · exact ⟨fun returns => absurd returns (by simp [munmapTake, Space.after]),
      fun trims => absurd same (trims.whole rfl)⟩
  · have chain : lists p = front ++ prev :: it :: next :: post := by simp [shape]
    obtain ⟨i, rfl⟩ := listed.owned.slot_behind listed.alive chain
    have wf := listed.wf p listed.alive
    have placed : (s.table.get (.slot i)).region.Placed :=
      wf.placed _ (mem_map_of_mem (by simp [chain]))
    have inside : (s.table.get (.slot i)).start + (s.table.get (.slot i)).length < 2 ^ 64 := placed.inside
    constructor
    · intro _
      refine ⟨by simp, by simp, fun _ _ wraps => ?_, fun other => absurd same.1 other⟩
      rw [same.1, same.2] at inside
      omega
    · intro _
      have last : (front.concat prev).getLast? = some prev := by simp
      rw [last]
      exact (Space.returnsWellFormed_ok _).mpr (unlinked listed chain)

theorem take_front (size : length < 2 ^ 64) (shape : lists p = pre ++ it :: next :: post)
    (covers : (s.table.get it).Covers (s.table.get it).start length)
    (multiple : length % PGSIZE = 0) (part : (s.table.get it).length ≠ length) :
    Space.ReturnsWellFormed (s.after (s.table.munmapTake (s.table.get it).start length (.front it))) ↔
      Trims s.table (s.table.get it).start length pre it next := by
  have wf := listed.wf p listed.alive
  rw [shape, regions_append] at wf
  have placed : (s.table.get it).region.Placed := wf.placed _ (by simp)
  obtain ⟨first, lies, ends, under⟩ := cutFront_region placed wf.last_below size covers multiple
  have cut := modified_iff (f := cutFront (s.table.get it).start length) listed shape rfl rfl
  refine ((Space.returnsWellFormed_ok _).trans cut).trans ?_
  rw [first]
  constructor
  · rintro ⟨fixed, -, -, beyond⟩
    exact ⟨fun _ both => part both.2, fun alone _ _ => fixed alone,
      fun _ _ => under.mp (beyond next rfl), fun other => absurd rfl other⟩
  · intro trims
    refine ⟨fun alone => trims.reserved alone rfl multiple, lies, fun a last => ?_, ?_⟩
    · exact ends.le.trans (listed.above shape a last)
    · rintro b ⟨⟩
      exact under.mpr (trims.front rfl multiple)

theorem take_back (size : length < 2 ^ 64) (small : addr < 2 ^ 64) (shape : lists p = pre ++ it :: next :: post)
    (covers : (s.table.get it).Covers addr length) (later : (s.table.get it).start ≠ addr)
    (ends : (s.table.get it).stop = u64 (addr + length)) :
    Space.ReturnsWellFormed (s.after (s.table.munmapTake addr length (.back it))) ↔
      Trims s.table addr length pre it next := by
  have wf := listed.wf p listed.alive
  rw [shape, regions_append] at wf
  have placed : (s.table.get it).region.Placed := wf.placed _ (by simp)
  obtain ⟨lies, grown⟩ := cutBack_region placed size small covers.1 ends
  have cut := modified_iff (f := cutBack length) listed shape rfl rfl
  refine ((Space.returnsWellFormed_ok _).trans cut).trans ?_
  constructor
  · rintro ⟨-, -, beyond, -⟩
    exact ⟨fun _ both => later both.1, fun _ same => absurd same later, fun same => absurd same later,
      fun _ _ wraps prev last => (grown (listed.above shape prev last)).mp (beyond prev last) wraps⟩
  · intro trims
    refine ⟨fun _ => rfl, lies, fun a last => ?_, ?_⟩
    · exact (grown (listed.above shape a last)).mpr fun wraps => trims.back later ends wraps a last
    · rintro b ⟨⟩
      exact wf.last_below

theorem munmap_iff (addr length : UInt64) :
    Space.ReturnsWellFormed (s.step p (.munmap addr length)) ↔ s.Keeps p (.munmap addr length) := by
  have small := addr.toNat_lt
  have size := length.toNat_lt
  simp only [Space.step, VmaTable.munmap, Space.Keeps, listed.refs, Except.ok.injEq]
  generalize addr.toNat = addr at *
  generalize length.toNat = length at *
  have same := listed.space
  rcases munmapFind_cases (t := s.table) addr length (lists p) none with
    ⟨nothing, none⟩ | ⟨pre, it, next, post, shape, skipped, covers, found⟩
  · rw [nothing]
    refine ⟨fun _ pre it next post shape _ covers => absurd covers (none pre it next post shape),
      fun _ => (Space.returnsWellFormed_ok _).mpr same⟩
  · have here : (∀ pre' it' next' post', lists p = pre' ++ it' :: next' :: post' →
        (∀ r ∈ pre', ¬(s.table.get r).Covers addr length) → (s.table.get it').Covers addr length →
        Trims s.table addr length pre' it' next') ↔ Trims s.table addr length pre it next := by
      refine ⟨fun all => all pre it next post shape skipped covers, ?_⟩
      intro trims pre' it' next' post' shape' skipped' covers'
      obtain ⟨rfl, rfl, rest⟩ := first_unique (P := fun r => (s.table.get r).Covers addr length)
        (shape.symm.trans shape') skipped covers skipped' covers'
      obtain ⟨rfl, -⟩ := List.cons.inj rest
      exact trims
    rw [found, here, Option.or_none]
    unfold munmapBranch
    split
    · exact take_whole listed shape ‹_›
    · rename_i part
      split
      · rename_i start
        subst start
        split
        · rename_i multiple
          refine take_front listed size shape covers ?_ fun whole => part ⟨rfl, whole⟩
          unfold pgrounddown at multiple
          unfold PGSIZE at multiple ⊢
          omega
        · rename_i odd
          refine ⟨fun _ => ?_, fun _ => (Space.returnsWellFormed_ok _).mpr same⟩
          have odd : length % PGSIZE ≠ 0 := fun multiple => odd (pgrounddown_eq multiple)
          exact ⟨fun _ => part, fun _ _ multiple => absurd multiple odd,
            fun _ multiple => absurd multiple odd, fun other => absurd rfl other⟩
      · rename_i later
        split
        · exact take_back listed size small shape covers later ‹_›
        · rename_i hole
          refine ⟨fun _ => ?_, fun _ => (Space.returnsWellFormed_ok _).mpr same⟩
          exact ⟨fun _ => part, fun _ same => absurd same later, fun same => absurd same later,
            fun _ ends => absurd ends hole⟩

end

end Lists

end DeisoXv6
