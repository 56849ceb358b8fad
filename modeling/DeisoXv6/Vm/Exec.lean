import DeisoXv6.Vm.Fork

/-! The list that exec makes of an executable: a VMA for each loadable segment, one for the stack above
them and an empty one for the heap. Each new VMA is put before those already there, and the whole list
takes the place of the old one once it is complete. -/

set_option autoImplicit false

namespace DeisoXv6

open List Function LinkedList VmaTable

def ELF_PROG_LOAD : BitVec 32 := 1
def ELF_PROG_FLAG_EXEC : BitVec 32 := 1
def ELF_PROG_FLAG_WRITE : BitVec 32 := 2
def ELF_PROG_FLAG_READ : BitVec 32 := 4

/-- A program header, without the fields that nothing reads. -/
structure Proghdr where
  type : BitVec 32
  flags : BitVec 32
  off : UInt64
  vaddr : UInt64
  filesz : UInt64
  memsz : UInt64

namespace Proghdr

variable (ph : Proghdr)

def permission : BitVec 32 :=
  (if has ph.flags ELF_PROG_FLAG_WRITE then PROT_WRITE else 0) |||
    (if has ph.flags ELF_PROG_FLAG_READ then PROT_READ else 0) |||
    (if has ph.flags ELF_PROG_FLAG_EXEC then PROT_EXEC else 0)

def vma (file : FileId) (next : Option VmaId) : Vma where
  used := true
  start := ph.vaddr.toNat
  length := ph.memsz.toNat
  fileLength := ph.filesz.toNat
  file := some file
  offset := ph.off.toNat
  permission := ph.permission
  flags := MAP_PRIVATE
  next := next

end Proghdr

def Vma.anonymous (start length : Nat) (next : Option VmaId) : Vma :=
  ⟨true, start, length, 0, none, 0, PROT_READ ||| PROT_WRITE, MAP_PRIVATE, next⟩

/-- The variables of exec that decide about the new list. `ref` is the reference count of the file. -/
structure Loading where
  table : VmaTable
  vma : Option VmaId
  sz : Nat
  ref : Nat

namespace Loading

variable (l : Loading)

/-- Put a new VMA before the others. When there is none, `vma` has lost the list. -/
def push (v : Option VmaId → Vma) : Except Loading Loading :=
  match l.table.vmaAlloc with
  | none => .error { l with vma := none }
  | some i => .ok { l with table := l.table.modify (fun _ => v l.vma) (.slot i), vma := some i }

/-- One program header; an error is a jump to `bad`. -/
def segment (file : FileId) : Option Proghdr → Except Loading Loading
  | none => .error l
  | some ph =>
    if ph.type ≠ ELF_PROG_LOAD then .ok l
    else if ph.memsz < ph.filesz then .error l
    else if ph.vaddr + ph.memsz < ph.vaddr then .error l
    else
      let l := { l with sz := (ph.vaddr + ph.memsz).toNat }
      if ph.vaddr.toNat % PGSIZE ≠ 0 then .error l
      else (l.push (ph.vma file)).map fun l => { l with ref := l.ref + 1 }

def segments (file : FileId) : Loading → List (Option Proghdr) → Except Loading Loading
  | l, [] => .ok l
  | l, ph :: rest => match l.segment file ph with
    | .error l => .error l
    | .ok l => segments file l rest

def stack : Except Loading Loading :=
  let sz := u64 (pgroundup l.sz + 2 * PGSIZE)
  ({ l with sz }.push (.anonymous (sub64 sz PGSIZE) PGSIZE))

def heap : Except Loading Loading := l.push (.anonymous l.sz 0)

end Loading

/-- What exec finds in the file: the program headers as far as they can be read, and whether there is
room for the arguments. -/
structure Image where
  file : FileId
  phs : List (Option Proghdr)
  arguments : Bool

namespace VmaTable

variable (t : VmaTable)

/-- The new list up to the point where `p->vma_start.next` is set. -/
def load (image : Image) : Except Loading Loading := do
  let l ← Loading.segments image.file ⟨t, none, 0, 1⟩ image.phs
  if l.ref ≤ 1 then .error l
  else do
    let l ← l.stack
    l.heap

def freeList (vma : Option VmaId) : Except Fault VmaTable :=
  match follow t.next NVMA (vma.map .slot) with
  | none => .error .endless
  | some refs => .ok (refs.foldl (fun t r => t.modify (fun _ => .free) r) t)

/-- The part of exec that concerns the VMAs, for an executable whose header is right. -/
def exec (p : ProcId) (image : Image) : Except Fault (Bool × VmaTable) :=
  let old := (t.start p).next
  let bad (l : Loading) := ((l.table.setNext (.start p) old).freeList l.vma).map (false, ·)
  match t.load image with
  | .error l => bad l
  | .ok l =>
    let l := { l with table := l.table.setNext (.start p) l.vma }
    if image.arguments = false then bad l
    else (l.table.freeList old).map fun t => (true, { t with heap := update t.heap p l.vma })

end VmaTable

def loadable (phs : List (Option Proghdr)) : List Proghdr :=
  phs.filterMap (Option.filter (·.type = ELF_PROG_LOAD))

def Proghdr.region (ph : Proghdr) : Region := ⟨ph.vaddr.toNat, ph.memsz.toNat⟩

section Chain

variable {t t' u : VmaTable} {live : ProcId → Bool} {lists : ProcId → List VmaRef} {p q : ProcId}
  {l l' : Loading} {chain : List VmaRef} {vma : Option VmaId} {r : VmaRef} {i : VmaId}

/-- A list of VMAs in use that no process has yet; the lists of the processes are those of `t`. -/
structure Loaded (t : VmaTable) (live : ProcId → Bool) (lists : ProcId → List VmaRef) (u : VmaTable)
    (vma : Option VmaId) (chain : List VmaRef) : Prop where
  owned : Owned u live lists
  linked : Linked u.next (vma.map .slot) chain
  used : ∀ i, .slot i ∈ chain → (u.slot i).used = true
  outside : ∀ q, live q = true → ∀ r ∈ chain, r ∉ lists q
  kept : Kept live lists t u
  heap : u.heap = t.heap

namespace Loaded

theorem init (owned : Owned t live lists) : Loaded t live lists t none [] where
  owned := owned
  linked := rfl
  used := by simp
  outside := by simp
  kept := fun _ _ _ _ => rfl
  heap := rfl

theorem fresh (loaded : Loaded t live lists u vma chain) (unused : (u.slot i).used = false) :
    VmaRef.slot i ∉ chain := by
  intro member
  rw [loaded.used i member] at unused
  contradiction

variable {v : Vma}

theorem cons (loaded : Loaded t live lists u vma chain) (unused : (u.slot i).used = false)
    (used : v.used = true) (next : v.next = vma) :
    Loaded t live lists (u.modify (fun _ => v) (.slot i)) (some i) (.slot i :: chain) := by
  have fresh := loaded.fresh unused
  have outside : ∀ q, live q = true → VmaRef.slot i ∉ lists q := fun q alive =>
    loaded.owned.unused_not_mem alive unused
  refine ⟨?_, ⟨rfl, ?_⟩, ?_, ?_, loaded.kept.trans (Kept.modify outside _), ?_⟩
  · refine loaded.owned.modify_outside outside fun _ _ free => ?_
    rw [used] at free
    contradiction
  · rw [next_modify, update_self, next]
    refine loaded.linked.congr fun r member => update_of_ne ?_ ..
    exact fun same => fresh (same ▸ member)
  · intro j member
    change (VmaTable.get _ (.slot j)).used = true
    rcases mem_cons.mp member with same | old
    · rw [same, get_modify_same, used]
    · have other : VmaRef.slot j ≠ .slot i := fun same => fresh (same ▸ old)
      rw [get_modify_other other]
      exact loaded.used j old
  · intro q alive r member
    rcases mem_cons.mp member with rfl | old
    · exact outside q alive
    · exact loaded.outside q alive r old
  · rw [heap_modify]
    exact loaded.heap

theorem regions_cons (loaded : Loaded t live lists u vma chain) (unused : (u.slot i).used = false) :
    (u.modify (fun _ => v) (.slot i)).regions (.slot i :: chain) = v.region :: u.regions chain := by
  have others : (u.modify (fun _ => v) (.slot i)).regions chain = u.regions chain := by
    refine regions_congr fun r member => ?_
    have other : r ≠ .slot i := fun same => loaded.fresh unused (same ▸ member)
    rw [get_modify_other other]
  rw [← others]
  change ((u.modify (fun _ => v) (.slot i)).get (.slot i)).region :: _ = _
  rw [get_modify_same]
  rfl

theorem push (loaded : Loaded t live lists l.table l.vma chain) {v : Option VmaId → Vma}
    (used : (v l.vma).used = true) (next : (v l.vma).next = l.vma) (pushed : l.push v = .ok l') :
    ∃ i, Loaded t live lists l'.table l'.vma (.slot i :: chain) ∧
      l'.table.regions (.slot i :: chain) = (v l.vma).region :: l.table.regions chain ∧
      l'.sz = l.sz ∧ l'.ref = l.ref := by
  unfold Loading.push at pushed
  split at pushed
  · contradiction
  · rename_i i found
    have unused := vmaAlloc_unused found
    cases pushed
    exact ⟨i, loaded.cons unused used next, loaded.regions_cons unused, rfl, rfl⟩

theorem attach (loaded : Loaded t live lists u vma chain) (alive : live p = true) :
    Owned (u.setNext (.start p) vma) live (update lists p (.start p :: chain)) := by
  have own : VmaRef.start p ∈ lists p := by
    obtain ⟨ids, shape⟩ := linked_shape (loaded.owned.linked p alive)
    simp [shape]
  have slots : ∀ j, (u.setNext (.start p) vma).slot j = u.slot j := fun _ => rfl
  refine ⟨fun q alive' => ?_, fun q j alive' member => ?_, fun q q' j one two first second => ?_, loaded.owned.free⟩
  · rw [next_setNext]
    by_cases same : q = p
    · subst same
      rw [update_self]
      refine ⟨rfl, ?_⟩
      rw [update_self]
      refine loaded.linked.congr fun r member => update_of_ne ?_ ..
      exact fun hit => loaded.outside q alive' r member (hit ▸ own)
    · rw [update_of_ne same]
      refine (loaded.owned.linked q alive').congr fun r member => update_of_ne ?_ ..
      exact fun hit => same (loaded.owned.start_mem alive' (hit ▸ member)).symm
  · by_cases same : q = p
    · rw [same, update_self] at member
      rw [slots]
      exact loaded.used j (by simpa using member)
    · rw [update_of_ne same] at member
      exact loaded.owned.used q j alive' member
  · by_cases here : q = p <;> by_cases there : q' = p
    · rw [here, there]
    · rw [here, update_self] at first
      rw [update_of_ne there] at second
      exact absurd second (loaded.outside q' two _ (by simpa using first))
    · rw [there, update_self] at second
      rw [update_of_ne here] at first
      exact absurd first (loaded.outside q one _ (by simpa using second))
    · rw [update_of_ne here] at first
      rw [update_of_ne there] at second
      exact loaded.owned.apart q q' j one two first second

theorem replace (loaded : Loaded t live lists u vma chain) (owned : Owned t live lists) (alive : live p = true) :
    ∃ u', (u.setNext (.start p) vma).freeList (t.start p).next = .ok u' ∧ u'.heap = t.heap ∧
      Owned u' live (update lists p (.start p :: chain)) ∧
      Kept live (update lists p (.start p :: chain)) (u.setNext (.start p) vma) u' := by
  obtain ⟨ids, shape⟩ := linked_shape (owned.linked p alive)
  have gone : ∀ r ∈ ids.map VmaRef.slot, r ∈ lists p := fun r member => by simp [shape, member]
  have oldList : Linked (u.setNext (.start p) vma).next ((t.start p).next.map .slot) (ids.map .slot) := by
    have linked := owned.linked p alive
    rw [shape] at linked
    refine linked.2.congr fun r member => ?_
    have other : r ≠ .start p := by
      obtain ⟨i, -, rfl⟩ := mem_map.mp member
      simp
    rw [next_setNext, update_of_ne other]
    exact congrArg (fun v : Vma => v.next.map VmaRef.slot) (loaded.kept p alive r (gone r member))
  have short : ids.length ≤ NVMA := by simpa using (oldList.nodup.of_map).length_le_card
  have outside : ∀ q, live q = true → ∀ r ∈ ids.map VmaRef.slot, r ∉ update lists p (.start p :: chain) q := by
    intro q alive' r member again
    by_cases same : q = p
    · rw [same, update_self] at again
      rcases mem_cons.mp again with rfl | new
      · simp at member
      · exact loaded.outside p alive r new (gone r member)
    · rw [update_of_ne same] at again
      exact same (owned.disjoint alive' alive again (gone r member))
  obtain ⟨freed, kept⟩ := free_all (loaded.attach alive) (ids.map .slot) outside
  refine ⟨_, ?_, ?_, freed, kept⟩
  · rw [VmaTable.freeList, oldList.follow (by simpa using short)]
  · rw [heap_free_all, setNext, heap_modify]
    exact loaded.heap

end Loaded

structure Segmented (l : Loading) (chain : List VmaRef) : Prop where
  placed : ∀ r ∈ l.table.regions chain, r.Placed
  top : ∀ r ∈ (l.table.regions chain).head?, l.sz = r.start + r.length
  ref : l.ref = 1 + chain.length

variable {file : FileId} {phs : List (Option Proghdr)} {image : Image}

theorem segment_ok {ph : Option Proghdr} (done : l.segment file ph = .ok l') :
    (loadable [ph] = [] ∧ l' = l) ∨ ∃ seg l₁, loadable [ph] = [seg] ∧ seg.region.Placed ∧
      Loading.push { l with sz := (seg.vaddr + seg.memsz).toNat } (seg.vma file) = .ok l₁ ∧
      l' = { l₁ with ref := l₁.ref + 1 } := by
  cases ph with
  | none => contradiction
  | some ph =>
    rw [Loading.segment] at done
    split at done
    · rename_i other
      cases done
      exact .inl ⟨by simp [loadable, other], rfl⟩
    · rename_i load
      split at done
      · contradiction
      · split at done
        · contradiction
        · rename_i wraps
          dsimp only at done
          split at done
          · contradiction
          · rename_i aligned
            generalize pushed : Loading.push _ (ph.vma file) = result at done
            cases result with
            | error => contradiction
            | ok l₁ =>
              cases done
              refine .inr ⟨ph, l₁, ?_, ⟨not_ne_iff.mp aligned, ?_⟩, pushed, rfl⟩
              · simp only [loadable, filterMap_cons, Option.filter, not_ne_iff.mp load]
                rfl
              · have small := ph.vaddr.toNat_lt
                have small' := ph.memsz.toNat_lt
                rw [UInt64.lt_iff_toNat_lt, UInt64.toNat_add] at wraps
                change ph.vaddr.toNat + ph.memsz.toNat < 2 ^ 64
                omega

theorem segment_loaded {ph : Option Proghdr} (loaded : Loaded t live lists l.table l.vma chain)
    (segmented : Segmented l chain) (done : l.segment file ph = .ok l') :
    ∃ chain', Loaded t live lists l'.table l'.vma chain' ∧ Segmented l' chain' ∧
      l'.table.regions chain' = ((loadable [ph]).map Proghdr.region).reverse ++ l.table.regions chain := by
  rcases segment_ok done with ⟨skipped, rfl⟩ | ⟨seg, l₁, load, placed, pushed, rfl⟩
  · exact ⟨chain, loaded, segmented, by simp [skipped]⟩
  · have before : Loaded t live lists ({ l with sz := (seg.vaddr + seg.memsz).toNat } : Loading).table
      ({ l with sz := (seg.vaddr + seg.memsz).toNat } : Loading).vma chain := loaded
    obtain ⟨i, more, regions, sz, ref⟩ := before.push rfl rfl pushed
    refine ⟨_, more, ⟨?_, ?_, ?_⟩, ?_⟩
    · intro r member
      rw [regions] at member
      rcases mem_cons.mp member with rfl | old
      · exact placed
      · exact segmented.placed r old
    · intro r first
      rw [regions] at first
      obtain rfl : seg.region = r := Option.some.inj first
      change l₁.sz = seg.vaddr.toNat + seg.memsz.toNat
      rw [sz, UInt64.toNat_add]
      exact Nat.mod_eq_of_lt placed.inside
    · change l₁.ref + 1 = _
      rw [ref, length_cons]
      exact congrArg (· + 1) segmented.ref
    · refine regions.trans ?_
      rw [load]
      rfl

theorem segments_loaded (loaded : Loaded t live lists l.table l.vma chain) (segmented : Segmented l chain)
    (done : Loading.segments file l phs = .ok l') :
    ∃ chain', Loaded t live lists l'.table l'.vma chain' ∧ Segmented l' chain' ∧
      l'.table.regions chain' = ((loadable phs).map Proghdr.region).reverse ++ l.table.regions chain := by
  induction phs generalizing l chain with
  | nil =>
    cases done
    exact ⟨chain, loaded, segmented, rfl⟩
  | cons ph rest ih =>
    rw [Loading.segments] at done
    split at done
    · contradiction
    · rename_i l₁ first
      obtain ⟨chain₁, loaded₁, segmented₁, regions₁⟩ := segment_loaded loaded segmented first
      obtain ⟨chain', loaded', segmented', regions'⟩ := ih loaded₁ segmented₁ done
      refine ⟨chain', loaded', segmented', ?_⟩
      have split : loadable (ph :: rest) = loadable [ph] ++ loadable rest := by
        rw [loadable, ← singleton_append, filterMap_append]
        rfl
      rw [regions', regions₁, split, map_append, reverse_append, append_assoc]

def heapStart (top : Nat) : Nat := u64 (pgroundup top + 2 * PGSIZE)

/-- The VMAs of a complete list: the heap, the stack and the segments, the last one first. -/
structure NewList (t : VmaTable) (phs : List (Option Proghdr)) (heap stack : VmaId) (chain : List VmaRef) : Prop where
  segments : t.regions chain = ((loadable phs).map Proghdr.region).reverse
  placed : ∀ r ∈ t.regions chain, r.Placed
  above : ∃ last, (t.regions chain).head? = some last ∧
    (t.get (.slot stack)).region = ⟨sub64 (heapStart (last.start + last.length)) PGSIZE, PGSIZE⟩ ∧
    (t.get (.slot heap)).region = ⟨heapStart (last.start + last.length), 0⟩

theorem NewList.congr {heap stack : VmaId} (new : NewList t phs heap stack chain)
    (same : ∀ r ∈ .slot heap :: .slot stack :: chain, (t'.get r).region = (t.get r).region) :
    NewList t' phs heap stack chain := by
  have chained : t'.regions chain = t.regions chain := regions_congr fun r member => same r (by simp [member])
  obtain ⟨last, first, stackRegion, heapRegion⟩ := new.above
  refine ⟨chained.trans new.segments, chained ▸ new.placed, last, chained ▸ first, ?_, ?_⟩
  · exact (same _ (by simp)).trans stackRegion
  · exact (same _ (by simp)).trans heapRegion

theorem load_loaded (owned : Owned t live lists) (done : t.load image = .ok l) :
    ∃ heap stack chain, Loaded t live lists l.table l.vma (.slot heap :: .slot stack :: chain) ∧
      l.vma = some heap ∧ NewList l.table image.phs heap stack chain := by
  unfold VmaTable.load at done
  cases segmented : Loading.segments image.file ⟨t, none, 0, 1⟩ image.phs with
  | error => simp [segmented, bind, Except.bind] at done
  | ok l₁ =>
    obtain ⟨chain, loaded₁, ⟨placed, top, ref⟩, regions₁⟩ := segments_loaded (l := ⟨t, none, 0, 1⟩)
      (Loaded.init owned) ⟨by simp [VmaTable.regions], by simp [VmaTable.regions], rfl⟩ segmented
    simp only [segmented, bind, Except.bind] at done
    split at done
    · contradiction
    · rename_i some
      cases stacked : l₁.stack with
      | error => simp [stacked] at done
      | ok l₂ =>
        simp only [stacked] at done
        obtain ⟨stack, loaded₂, regions₂, sz₂, -⟩ := Loaded.push
          (l := { l₁ with sz := u64 (pgroundup l₁.sz + 2 * PGSIZE) }) loaded₁ rfl rfl stacked
        obtain ⟨heap, loaded₃, regions₃, -, -⟩ := loaded₂.push rfl rfl done
        rw [regions₂] at regions₃
        obtain ⟨heapRegion, rest⟩ := List.cons.inj regions₃
        obtain ⟨stackRegion, rest⟩ := List.cons.inj rest
        refine ⟨heap, stack, chain, loaded₃, ?_, ?_, ?_, ?_⟩
        · have first := loaded₃.linked.1
          exact Option.map_injective (fun _ _ same => VmaRef.slot.inj same) first
        · refine rest.trans (regions₁.trans ?_)
          simp [VmaTable.regions]
        · intro r member
          exact placed r (rest ▸ member)
        · have rest : l.table.regions chain = l₁.table.regions chain := rest
          rw [rest]
          cases first : l₁.table.regions chain with
          | nil =>
            have empty : chain = [] := map_eq_nil_iff.mp first
            rw [empty] at ref
            exact absurd ref.le some
          | cons last others =>
            have end_ := top last (by simp [first])
            refine ⟨last, rfl, ?_, ?_⟩
            · refine stackRegion.trans ?_
              rw [heapStart, ← end_]
              rfl
            · refine heapRegion.trans ?_
              rw [heapStart, ← end_, sz₂]
              rfl

structure Executed (live : ProcId → Bool) (lists : ProcId → List VmaRef) (p : ProcId)
    (phs : List (Option Proghdr)) (t t' : VmaTable) (heap stack : VmaId) (chain : List VmaRef) : Prop where
  owned : Owned t' live (update lists p (.start p :: .slot heap :: .slot stack :: chain))
  list : NewList t' phs heap stack chain
  reserved : (t'.get (.start p)).region = (t.get (.start p)).region
  heap : t'.heap = update t.heap p (some heap)
  kept : ∀ q, q ≠ p → live q = true → ∀ r ∈ lists q, t'.get r = t.get r

theorem exec_executed (owned : Owned t live lists) (alive : live p = true) (done : t.exec p image = .ok (true, t')) :
    ∃ heap stack chain, Executed live lists p image.phs t t' heap stack chain := by
  unfold VmaTable.exec at done
  dsimp only at done
  -- the jumps to bad return -1
  have failed : ∀ result : Except Fault VmaTable, result.map (false, ·) ≠ .ok (true, t') := by
    intro result
    cases result <;> simp [Except.map]
  cases loading : t.load image with
  | error l =>
    rw [loading] at done
    exact absurd done (failed _)
  | ok l =>
    rw [loading] at done
    dsimp only at done
    split at done
    · exact absurd done (failed _)
    · obtain ⟨heap, stack, chain, loaded, head, new⟩ := load_loaded owned loading
      obtain ⟨u, freed, heaps, owned', kept⟩ := loaded.replace owned alive
      rw [freed] at done
      cases done
      -- the heap pointer is no part of the VMAs
      have fields : ∀ q, live q = true → ∀ r ∈ update lists p (.start p :: .slot heap :: .slot stack :: chain) q,
          (VmaTable.get { u with heap := update u.heap p l.vma } r) = (l.table.setNext (.start p) l.vma).get r := by
        intro q alive' r member
        rw [← kept q alive' r member]
        cases r <;> rfl
      have listed : ∀ r ∈ .start p :: .slot heap :: .slot stack :: chain,
          (VmaTable.get { u with heap := update u.heap p l.vma } r).region = (l.table.get r).region := by
        intro r member
        rw [fields p alive r (by rwa [update_self]), region_setNext]
      refine ⟨heap, stack, chain, owned'.heap _, new.congr fun r member => listed r (mem_cons_of_mem _ member),
        ?_, ?_, fun q other alive' r member => ?_⟩
      · rw [listed _ mem_cons_self, loaded.kept p alive (.start p)]
        obtain ⟨ids, shape⟩ := linked_shape (owned.linked p alive)
        simp [shape]
      · change update u.heap p l.vma = _
        rw [heaps, head]
      · rw [fields q alive' r (by rwa [update_of_ne other]), setNext, get_modify_other, loaded.kept q alive' r member]
        exact fun hit => other (owned.start_mem alive' (hit ▸ member)).symm

end Chain

end DeisoXv6
