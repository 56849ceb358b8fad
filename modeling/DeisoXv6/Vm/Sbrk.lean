import DeisoXv6.Vm.Reserved
import DeisoXv6.Vm.Calls
import DeisoXv6.Vm.UserAccess

/-! The heap as a process sees it: an array of bytes that sys_sbrk makes longer or shorter at its end, new bytes
being zero. The pages behind it come with the first access, and go when the break is moved below them. -/

set_option autoImplicit false

namespace DeisoXv6

open List Semantics Bytes LinkedList VmaTable

def Sys.setSz (s : Sys) (sz : Nat) : Sys :=
  { s with proc := Function.update s.proc s.current { s.proc s.current with sz } }

def sysSbrk (n : BitVec 32) : KernelM (Option Nat) := do
  let s ← get
  match s.vmas.heap s.current with
  | none => throw .nullPointer
  | some heap => match s.vmas.sbrk s.current n.toInt with
    | .error fault => throw fault
    | .ok (none, _) => pure none
    | .ok (some addr, _) => do
      let amount := sext (int (-n.toInt))
      onlyIf (n.toInt < 0) (vmaFreeMem s.pagetable (.slot heap) (sub64 addr amount) amount)
      modify fun s => s.setVmas (s.vmas.modify (resize n.toInt) (.slot heap))
      modify fun s => s.setSz (s.vmas.slot heap).stop
      pure (some addr)

theorem Held.setSz {g : Layout} {s : Sys} {root : PageNo} {sz : Nat} (held : Held g s root) :
    Held g (s.setSz sz) root := by
  have same : ((s.setSz sz).proc (s.setSz sz).current).trapframe = (s.proc s.current).trapframe := by
    simp [Sys.setSz]
  refine ⟨held.tables.frame (fun _ _ _ _ => rfl) rfl rfl, held.known, held.user, ?_, held.trampoline, fun f pipe => ?_⟩
  · rw [same]
    exact held.trapframe
  · rw [same]
    exact held.pipes f pipe

structure HeapArray where
  start : Nat
  limit : Nat
  bytes : List UInt8

inductive HeapCall where
  | sbrk (n : BitVec 32)
  | load (va : Nat)
  | store (va : Nat) (byte : UInt8)

inductive Answer where
  | break (addr : Option Nat)
  | byte (value : UInt8)
  | stored
  deriving DecidableEq

namespace HeapArray

variable (h : HeapArray)

/-- The size after a change by `n` would be negative, or too large. -/
def Refuses (n : Int) : Prop := h.bytes.length + n < 0 ∨ h.limit < h.start + (h.bytes.length + n)

instance (n : Int) : Decidable (h.Refuses n) := inferInstanceAs (Decidable (_ ∨ _))

def resize (n : Int) : HeapArray := { h with bytes := h.bytes.takeD (h.bytes.length + n).toNat 0 }

def call : HeapCall → Answer × HeapArray
  | .sbrk n =>
    if h.Refuses n.toInt then (.break none, h)
    else (.break (some (h.start + h.bytes.length)), h.resize n.toInt)
  | .load va => (.byte (h.bytes.getD (va - h.start) 0), h)
  | .store va byte => (.stored, { h with bytes := h.bytes.set (va - h.start) byte })

/-- Loads and stores stay inside, and the argument of sbrk is not the one int without a negative. -/
def Inside : HeapCall → Prop
  | .sbrk n => n.toInt ≠ -2 ^ 31
  | .load va | .store va _ => h.start ≤ va ∧ va < h.start + h.bytes.length

instance : DecidablePred h.Inside
  | .sbrk n => inferInstanceAs (Decidable (n.toInt ≠ -2 ^ 31))
  | .load va | .store va _ => inferInstanceAs (Decidable (h.start ≤ va ∧ va < h.start + h.bytes.length))

def run : HeapArray → List HeapCall → List Answer × HeapArray
  | h, [] => ([], h)
  | h, c :: rest => ((h.call c).1 :: (run (h.call c).2 rest).1, (run (h.call c).2 rest).2)

def AllInside : HeapArray → List HeapCall → Prop
  | _, [] => True
  | h, c :: rest => h.Inside c ∧ AllInside (h.call c).2 rest

def decideAllInside : (h : HeapArray) → (calls : List HeapCall) → Decidable (h.AllInside calls)
  | _, [] => .isTrue trivial
  | h, c :: rest =>
    have := decideAllInside (h.call c).2 rest
    inferInstanceAs (Decidable (h.Inside c ∧ AllInside (h.call c).2 rest))

instance (calls : List HeapCall) : Decidable (h.AllInside calls) := decideAllInside h calls

end HeapArray

def HeapCall.run : HeapCall → KernelM (Option Answer)
  | .sbrk n => (some ∘ .break) <$> sysSbrk n
  | .load va => Option.map .byte <$> userLoad va
  | .store va byte => Option.map (fun _ => .stored) <$> userStore va byte

def runCalls : List HeapCall → KernelM (List Answer)
  | [] => pure []
  | c :: rest => do
    match ← c.run with
    | none => pure []
    | some answer => (answer :: ·) <$> runCalls rest

theorem getD_takeD (l : List UInt8) (n k : Nat) : (l.takeD n 0).getD k 0 = if k < n then l.getD k 0 else 0 := by
  induction n generalizing l k with
  | zero => simp
  | succ n ih =>
    cases k with
    | zero => cases l <;> simp
    | succ k =>
      have rest := ih l.tail k
      cases l with
      | nil => simp
      | cons b l => simpa using rest

/-- The heap of the current process is VMA `i`, below `prev` on the list, and has the bytes of the array; up to
the VMA above there are only zeroes. -/
structure HoldsHeap (g : Layout) (s : Sys) (pre : List VmaRef) (prev : VmaRef) (i : VmaId) (post : List VmaRef)
    (h : HeapArray) : Prop where
  held : Held g s s.pagetable
  list : s.vmas.refs s.current = .ok (pre ++ prev :: .slot i :: post)
  wf : WellFormed (s.vmas.regions (pre ++ prev :: .slot i :: post))
  owner : s.vmas.heap s.current = some i
  start : (s.vmas.slot i).start = h.start
  length : (s.vmas.slot i).length = h.bytes.length
  limit : (s.vmas.get prev).start = h.limit
  file : (s.vmas.slot i).file = none
  permission : (s.vmas.slot i).permission = PROT_READ ||| PROT_WRITE
  alive : (s.proc s.current).killed = false
  bytes : ∀ a, h.start ≤ a → a < h.limit → s.memByte s.pagetable a = h.bytes.getD (a - h.start) 0
  permits : ∀ a, h.start ≤ a → a < h.limit → s.Present s.pagetable a →
    Permits (s.entry s.pagetable a) .load ∧ Permits (s.entry s.pagetable a) .store

section Holds

variable {g g' : Layout} {s t : Sys} {pre post : List VmaRef} {prev : VmaRef} {i : VmaId} {h : HeapArray}

variable {va : Nat}

theorem vmaAt_eq {it : VmaRef} (list : s.vmas.refs s.current = .ok (pre ++ it :: post))
    (wf : WellFormed (s.vmas.regions (pre ++ it :: post))) (holds : (s.vmas.get it).Holds va) :
    s.vmaAt va = some it := by
  have above : ∀ r ∈ pre, ¬(s.vmas.get r).Holds va := by
    intro r member holds'
    have order := wf.pairwise
    rw [regions_append, pairwise_append] at order
    have below : Below (s.vmas.get r).region (s.vmas.get it).region :=
      order.2.2 _ (mem_map_of_mem member) _ (by simp)
    have ends := Region.end_le_pageEnd (r := (s.vmas.get it).region)
    have stop := Vma.stop_eq (wf.placed (s.vmas.get it).region (by simp))
    have first := holds'.1
    have last := holds.2
    change (s.vmas.get it).start + (s.vmas.get it).length ≤ _ at ends
    change _ ≤ (s.vmas.get r).start at below
    omega
  unfold Sys.vmaAt
  rw [list]
  change List.find? _ _ = _
  rw [List.find?_append, List.find?_eq_none.mpr fun r member => by simpa using above r member]
  simp [holds]

namespace HoldsHeap

theorem of_absent {size : Nat} (held : Held g s s.pagetable)
    (list : s.vmas.refs s.current = .ok (pre ++ prev :: .slot i :: post))
    (wf : WellFormed (s.vmas.regions (pre ++ prev :: .slot i :: post))) (owner : s.vmas.heap s.current = some i)
    (start : (s.vmas.slot i).start = h.start) (length : (s.vmas.slot i).length = size)
    (limit : (s.vmas.get prev).start = h.limit) (file : (s.vmas.slot i).file = none)
    (permission : (s.vmas.slot i).permission = PROT_READ ||| PROT_WRITE) (alive : (s.proc s.current).killed = false)
    (absent : ∀ a, h.start ≤ a → a < h.limit → ¬s.Present s.pagetable a) :
    HoldsHeap g s pre prev i post ⟨h.start, h.limit, List.replicate size 0⟩ where
  held := held
  list := list
  wf := wf
  owner := owner
  start := start
  length := by rw [length, length_replicate]
  limit := limit
  file := file
  permission := permission
  alive := alive
  bytes := by
    intro a first last
    rw [Sys.memByte, if_neg (absent a first last), getD_eq_getElem?_getD]
    exact (List.getElem?_getD_replicate_default_eq ..).symm
  permits := fun a first last present => absurd present (absent a first last)

section

variable (holds : HoldsHeap g s pre prev i post h)

include holds

theorem listed : s.Listed := ⟨_, holds.list⟩

theorem placed : (s.vmas.slot i).region.Placed :=
  holds.wf.placed (s.vmas.get (.slot i)).region (by simp)

theorem once : (pre ++ prev :: .slot i :: post).Nodup :=
  (linked_of_refs holds.list).nodup

theorem limit_aligned : h.limit % PGSIZE = 0 := by
  rw [← holds.limit]
  exact (holds.wf.placed (s.vmas.get prev).region (by simp)).aligned

theorem limit_le : h.limit ≤ RESERVED := by
  rw [← holds.limit]
  exact holds.wf.start_le (s.vmas.get prev).region (by simp)

theorem fits : h.start + h.bytes.length ≤ h.limit := by
  have wf := holds.wf
  rw [regions_append] at wf
  have below : Below (s.vmas.get prev).region (s.vmas.slot i).region := wf.last_below
  have ends := Region.end_le_pageEnd (r := (s.vmas.slot i).region)
  rw [← holds.limit, ← holds.start, ← holds.length]
  exact ends.trans below

theorem stop : (s.vmas.slot i).stop = h.start + h.bytes.length := by
  rw [Vma.stop_eq holds.placed, holds.start, holds.length]

theorem vmaAt (first : h.start ≤ va) (last : va < h.start + h.bytes.length) : s.vmaAt va = some (.slot i) := by
  have list := holds.list
  have wf := holds.wf
  have shape : pre ++ prev :: .slot i :: post = (pre ++ [prev]) ++ .slot i :: post := by simp
  rw [shape] at list wf
  refine vmaAt_eq list wf ⟨?_, ?_⟩
  · change (s.vmas.slot i).start ≤ va
    rw [holds.start]
    exact first
  · change va < (s.vmas.slot i).stop
    rw [holds.stop]
    exact last

theorem clean : CleanProt (s.vmas.slot i).permission := by
  rw [holds.permission]
  decide

theorem allows : (s.vmas.slot i).Allows .load ∧ (s.vmas.slot i).Allows .store := by
  refine ⟨⟨?_, fun _ => ?_⟩, ⟨?_, fun _ => ?_⟩⟩ <;> rw [holds.permission] <;> decide

theorem faulted (faulted : Faulted s va (s.vmas.slot i) g' t) : HoldsHeap g' t pre prev i post h := by
  have vmas : t.vmas = s.vmas := by rw [faulted.rest]
  have current : t.current = s.current := by rw [faulted.rest]
  have proc : t.proc = s.proc := by rw [faulted.rest]
  have root := faulted.pagetable
  refine ⟨root ▸ faulted.held, ?_, ?_, ?_, ?_, ?_, ?_, ?_, ?_, ?_, fun a first last => ?_,
    fun a first last present => ?_⟩
  · rw [vmas, current, holds.list]
  · rw [vmas]
    exact holds.wf
  · rw [vmas, current, holds.owner]
  · rw [vmas, holds.start]
  · rw [vmas, holds.length]
  · rw [vmas, holds.limit]
  · rw [vmas, holds.file]
  · rw [vmas, holds.permission]
  · rw [proc, current, holds.alive]
  · rw [root, faulted.bytes a (last.trans_le holds.limit_le), holds.bytes a first last]
  · rw [root] at present ⊢
    rcases faulted.entry a (last.trans_le holds.limit_le) with same | ⟨page, new⟩
    · rw [Sys.Present, same] at present
      rw [same]
      exact holds.permits a first last present
    · rw [new, lazyPte_permits, lazyPte_permits]
      exact holds.allows

theorem load (first : h.start ≤ va) (last : va < h.start + h.bytes.length) : ∃ r t, Returns (userLoad va) s r t ∧
      ((∃ g', r = some (h.bytes.getD (va - h.start) 0) ∧ HoldsHeap g' t pre prev i post h) ∨
        (r = none ∧ Exhausted t)) := by
  have inside : va < h.limit := last.trans_le holds.fits
  have place := holds.vmaAt first last
  obtain ⟨r, t, run, ⟨g', rfl, faulted⟩ | exhausted⟩ := userLoad_faults holds.held holds.listed holds.alive
    (inside.trans_le holds.limit_le) place holds.file holds.clean holds.allows.1
    fun present => (holds.permits va first inside present).1
  · refine ⟨_, t, run, .inl ⟨g', ?_, holds.faulted faulted⟩⟩
    rw [holds.bytes va first inside]
  · exact ⟨r, t, run, .inr exhausted⟩

theorem store {byte : UInt8} (first : h.start ≤ va)
    (last : va < h.start + h.bytes.length) : ∃ r t, Returns (userStore va byte) s r t ∧ ((∃ g', r = some () ∧
        HoldsHeap g' t pre prev i post { h with bytes := h.bytes.set (va - h.start) byte }) ∨
        (r = none ∧ Exhausted t)) := by
  have inside : va < h.limit := last.trans_le holds.fits
  have low := inside.trans_le holds.limit_le
  have place := holds.vmaAt first last
  obtain ⟨r, t, run, ⟨g', t', rfl, faulted, rfl⟩ | exhausted⟩ := userStore_faults holds.held
    holds.listed holds.alive low place holds.file holds.clean byte holds.allows.2
    fun present => (holds.permits va first inside present).2
  · refine ⟨_, _, run, .inl ⟨g', rfl, ?_⟩⟩
    have now := holds.faulted faulted
    have root := faulted.pagetable
    have data := faulted.held.page_other (page_low low) (present_page.mpr faulted.present)
    rw [entry_page] at data
    have entry (a : Nat) : (t'.store (pte2pa (t'.entry s.pagetable va)) (va % PGSIZE) [byte]).entry s.pagetable a =
        t'.entry s.pagetable a := faulted.held.tables.entry_store data faulted.held.known
    refine ⟨?_, now.list, now.wf, now.owner, now.start, ?_, now.limit, now.file, now.permission, now.alive,
      fun a first' last' => ?_, fun a first' last' present => ?_⟩
    · change Held g' _ t'.pagetable
      rw [root]
      exact (faulted.held.store data).held
    · rw [length_set]
      exact now.length
    · change (t'.store _ _ _).memByte t'.pagetable a = _
      rw [root, faulted.held.memByte_store low faulted.present (last'.trans_le holds.limit_le), ← root,
        now.bytes a first' last']
      dsimp only at first'
      by_cases here : a = va
      · subst here
        rw [if_pos rfl, getD_eq_getElem?_getD, List.getElem?_set_self (by omega)]
        rfl
      · have apart : va - h.start ≠ a - h.start := by omega
        rw [if_neg here, getD_eq_getElem?_getD, getD_eq_getElem?_getD, List.getElem?_set_ne apart]
    · change (t'.store _ _ _).Present t'.pagetable a at present
      change Permits ((t'.store _ _ _).entry t'.pagetable a) _ ∧ Permits ((t'.store _ _ _).entry t'.pagetable a) _
      rw [root] at present ⊢
      rw [Sys.Present, entry] at present
      rw [entry, ← root]
      rw [← root] at present
      exact now.permits a first' last' present
  · exact ⟨r, t, run, .inr exhausted⟩

end

variable {n : Int} {u : Sys} {m : Nat}

section

variable (holds : HoldsHeap g s pre prev i post h) (accepted : ¬h.Refuses n)

include holds accepted

theorem length_resize : (resize n (s.vmas.slot i)).length = (h.bytes.length + n).toNat := by
  have reserved := holds.limit_le
  change u64 ((s.vmas.slot i).length + sext n) = _
  rw [holds.length]
  unfold HeapArray.Refuses at accepted
  unfold RESERVED MAXVA at reserved
  unfold u64 sext
  omega

theorem wf_resize : WellFormed ((s.vmas.modify (resize n) (.slot i)).regions (pre ++ prev :: .slot i :: post)) := by
  have size := holds.length_resize accepted
  have reserved := holds.limit_le
  have shape : pre ++ prev :: .slot i :: post = (pre ++ [prev]) ++ .slot i :: post := by simp
  have once := holds.once
  have wf := holds.wf
  rw [shape] at once wf ⊢
  have before : VmaRef.slot i ∉ pre ++ [prev] := fun member =>
    (nodup_append.mp once).2.2 _ member _ (by simp) rfl
  have behind : VmaRef.slot i ∉ post := (nodup_cons.mp once.of_append_right).1
  rw [regions_append, regions_cons] at wf ⊢
  rw [region_modify_other before, region_modify_other behind, get_modify_same, wf.replace_iff]
  have itself := wf.replace_iff.mp wf
  unfold HeapArray.Refuses at accepted
  have ends : (s.vmas.slot i).start + (resize n (s.vmas.slot i)).length ≤ h.limit := by
    rw [size, holds.start]
    omega
  refine ⟨fun _ => rfl, ⟨holds.placed.aligned, ?_⟩, fun a last => ?_, fun b first => itself.2.2.2 b first⟩
  · refine ends.trans_lt (reserved.trans_lt ?_)
    decide
  · -- the VMA above starts on a page
    obtain rfl : (s.vmas.get prev).region = a := by simpa using last
    refine pageUp_le ?_ (ends.trans holds.limit.ge)
    change (s.vmas.get prev).start % PGSIZE = 0
    rw [holds.limit]
    exact holds.limit_aligned

theorem resized
    (held : Held g' u s.pagetable) (vmas : u.vmas = s.vmas) (current : u.current = s.current) (proc : u.proc = s.proc)
    (bytes : ∀ a, h.start ≤ a → a < h.limit → u.memByte s.pagetable a =
      if a < h.start + (h.bytes.length + n).toNat then s.memByte s.pagetable a else 0)
    (entry : ∀ a < h.limit, u.Present s.pagetable a → u.entry s.pagetable a = s.entry s.pagetable a) (sz : Nat) :
    HoldsHeap g' ((u.setVmas (u.vmas.modify (resize n) (.slot i))).setSz sz) pre prev i post (h.resize n) := by
  have slot : (s.vmas.modify (resize n) (.slot i)).slot i = resize n (s.vmas.slot i) :=
    get_modify_same (r := .slot i)
  have apart : prev ≠ .slot i := by
    rintro rfl
    exact (nodup_cons.mp holds.once.of_append_right).1 (by simp)
  generalize after : (u.setVmas (u.vmas.modify (resize n) (.slot i))).setSz sz = t
  have table : t.vmas = s.vmas.modify (resize n) (.slot i) := by
    rw [← after, ← vmas]
    rfl
  have user : t.current = s.current := by
    rw [← after, ← current]
    rfl
  have mine : t.proc t.current = { s.proc s.current with sz } := by
    rw [← after, ← proc, ← current]
    exact Function.update_self ..
  have root : t.pagetable = s.pagetable := by
    unfold Sys.pagetable
    rw [mine]
  have memory : t.mem = u.mem := by
    rw [← after]
    rfl
  have entries (a : Nat) : t.entry s.pagetable a = u.entry s.pagetable a := by
    rw [← after]
    rfl
  have byte (a : Nat) : t.memByte s.pagetable a = u.memByte s.pagetable a :=
    memByte_of_page (entries a) fun _ => by rw [memory]
  refine ⟨?_, ?_, ?_, ?_, ?_, ?_, ?_, ?_, ?_, ?_, fun a first last => ?_, fun a first last present => ?_⟩
  · rw [root, ← after]
    exact held.setVmas.setSz
  · have linked := linked_of_refs holds.list
    rw [table, user]
    refine refs_of_linked ?_
    rwa [next_modify_keep (by rfl)]
  · rw [table]
    exact holds.wf_resize accepted
  · rw [table, user]
    exact holds.owner
  · rw [table, slot]
    exact holds.start
  · rw [table, slot, holds.length_resize accepted]
    exact (takeD_length ..).symm
  · rw [table, get_modify_other apart]
    exact holds.limit
  · rw [table, slot]
    exact holds.file
  · rw [table, slot]
    exact holds.permission
  · rw [mine]
    exact holds.alive
  · rw [root, byte, bytes a first last, holds.bytes a first last]
    change _ = (h.bytes.takeD _ 0).getD (a - h.start) 0
    rw [getD_takeD]
    have start : h.start ≤ a := first
    refine if_congr ?_ rfl rfl
    omega
  · rw [root] at present ⊢
    rw [Sys.Present, entries] at present
    rw [entries, entry a last present]
    rw [entry a last present] at present
    exact holds.permits a first last present

end

theorem before_eq {r : VmaRef} (once : (pre ++ prev :: r :: post).Nodup) :
    VmaTable.before r (pre ++ prev :: r :: post) = some prev := by
  induction pre with
  | nil => simp [VmaTable.before]
  | cons x pre ih =>
    have rest := (nodup_cons.mp once).2
    cases pre with
    | nil =>
      have other : prev ≠ r := by
        rintro rfl
        exact (nodup_cons.mp rest).1 (by simp)
      change (if prev = r then some x else _) = _
      rw [if_neg other]
      exact ih rest
    | cons y pre =>
      have other : y ≠ r := by
        rintro rfl
        exact (nodup_cons.mp rest).1 (by simp)
      change (if y = r then some x else _) = _
      rw [if_neg other]
      exact ih rest

section

variable (holds : HoldsHeap g s pre prev i post h)

include holds

theorem sbrk_table (small : -2 ^ 31 < n) (large : n < 2 ^ 31) :
    s.vmas.sbrk s.current n = .ok (if h.Refuses n then (none, s.vmas)
      else (some (h.start + h.bytes.length), s.vmas.modify (resize n) (.slot i))) := by
  have below := holds.fits
  have reserved := holds.limit_le
  unfold RESERVED MAXVA at reserved
  unfold VmaTable.sbrk
  rw [holds.owner]
  dsimp only
  rw [holds.stop, holds.length]
  by_cases negative : n < 0
  · have amount : sext (int (-n)) = (-n).toNat := by
      unfold sext int
      rw [Int.bmod_eq_of_le (by omega) (by omega)]
      omega
    have iff : h.bytes.length < (-n).toNat ↔ h.Refuses n := by
      unfold HeapArray.Refuses
      omega
    rw [if_pos negative, amount]
    simp only [iff]
    split <;> rfl
  · rw [if_neg negative]
    by_cases zero : n = 0
    · have accepted : ¬h.Refuses n := by
        unfold HeapArray.Refuses
        omega
      rw [if_pos zero, if_neg accepted]
    · have iff : u64 (h.start + h.bytes.length + sext n) > (s.vmas.get prev).start ↔ h.Refuses n := by
        rw [holds.limit]
        unfold HeapArray.Refuses u64 sext
        omega
      rw [if_neg zero, holds.list]
      dsimp only
      rw [before_eq holds.once]
      dsimp only
      simp only [iff]
      split <;> rfl

theorem shrink (enough : m ≤ h.bytes.length) :
    ∃ u g', Returns (vmaFreeMem s.pagetable (.slot i) (h.start + (h.bytes.length - m)) m) s () u ∧
      Sheds s.pagetable s g' u ∧ Dropped (s.vmas.slot i) (h.start + (h.bytes.length - m)) (s.vmas.slot i).stop
        ((h.start + (h.bytes.length - m)) / PGSIZE) s u := by
  have below := holds.fits
  have reserved := holds.limit_le
  have ends : h.start + (h.bytes.length - m) + m = (s.vmas.slot i).stop := by
    rw [holds.stop]
    omega
  have low : (s.vmas.slot i).stop ≤ RESERVED := by
    rw [holds.stop]
    omega
  have whole : u64 (h.start + (h.bytes.length - m) + m) = (s.vmas.slot i).stop := by
    rw [ends]
    exact Nat.mod_eq_of_lt (low.trans_lt (by decide))
  have sheds : Ensures Fault.OfFiles (vmaFreeMem s.pagetable (.slot i) (h.start + (h.bytes.length - m)) m) s
      fun _ u => ∃ g', Sheds s.pagetable s g' u := by
    refine vmaFreeMem_sheds holds.held rfl holds.listed (whole ▸ low) fun q first more present shares => ?_
    rw [whole] at more shares ⊢
    have space : q * PGSIZE < MAXVA := more.trans_le (low.trans (by decide))
    refine Vma.fits_back first space shares ((Nat.le_add_right ..).trans ends.le) fun before => ?_
    rw [holds.vmaAt (Nat.le_add_right ..) (by rw [← holds.stop]; exact before)]
    rfl
  rcases returns_or_fails (vmaFreeMem s.pagetable (.slot i) (h.start + (h.bytes.length - m)) m) s with
    ⟨_, u, run⟩ | ⟨e, fails⟩
  · obtain ⟨g', shed⟩ := sheds.returns _ _ run
    have dropped := vmaFreeMem_dropped holds.held holds.listed (ends ▸ low) run
    rw [ends] at dropped
    exact ⟨u, g', run, shed, dropped⟩
  · have file : (s.vmas.get (.slot i)).file = none := holds.file
    have memory := (vmaFreeMem_noFile file holds.listed).fails e fails
    exact absurd (sheds.fails e fails) memory

theorem shrunk (enough : m ≤ h.bytes.length)
    (dropped : Dropped (s.vmas.slot i) (h.start + (h.bytes.length - m)) (s.vmas.slot i).stop
      ((h.start + (h.bytes.length - m)) / PGSIZE) s u) : ∀ a, h.start ≤ a → a < h.limit → u.memByte s.pagetable a =
      if a < h.start + (h.bytes.length - m) then s.memByte s.pagetable a else 0 := by
  intro a first last
  have stop := holds.stop
  have below := holds.fits
  have reserved := holds.limit_le
  have top := holds.limit_aligned
  have zero : ∀ b, h.start + h.bytes.length ≤ b → b < h.limit → s.memByte s.pagetable b = 0 := by
    intro b after before
    rw [holds.bytes b (by omega) before, getD_eq_default _ _ (by omega)]
  have bytes := dropped.memByte_back holds.placed.aligned (by rw [holds.start]; omega) (by rw [stop]; omega)
    (by rw [stop]; omega) (fun b after before => zero b (by omega) (by unfold PGSIZE at *; omega)) a (by omega)
  rw [bytes, stop]
  by_cases kept : a < h.start + (h.bytes.length - m)
  · rw [if_pos kept, if_neg (by omega)]
  · rw [if_neg kept]
    by_cases cut : a < h.start + h.bytes.length
    · rw [if_pos ⟨by omega, cut⟩]
    · rw [if_neg fun both => cut both.2, zero a (by omega) last]

theorem sbrk_refused {n : BitVec 32} (int : n.toInt ≠ -2 ^ 31)
    (refused : h.Refuses n.toInt) : Returns (sysSbrk n) s none s := by
  have low : -2 ^ 31 ≤ n.toInt := by simpa using n.le_toInt
  have high : n.toInt < 2 ^ 31 := by simpa using n.toInt_lt
  unfold sysSbrk
  rw [returns_get_bind, holds.owner]
  dsimp only
  rw [holds.sbrk_table (by omega) high, if_pos refused]
  exact returns_pure.mpr ⟨rfl, rfl⟩

theorem sbrk_accepted {n : BitVec 32} (int : n.toInt ≠ -2 ^ 31)
    (accepted : ¬h.Refuses n.toInt) : ∃ t g', Returns (sysSbrk n) s (some (h.start + h.bytes.length)) t ∧
      HoldsHeap g' t pre prev i post (h.resize n.toInt) := by
  have low : -2 ^ 31 ≤ n.toInt := by simpa using n.le_toInt
  have high : n.toInt < 2 ^ 31 := by simpa using n.toInt_lt
  have checks := holds.sbrk_table (n := n.toInt) (by omega) high
  rw [if_neg accepted] at checks
  have start : ∀ {u : Sys} {t : Sys}, Returns (onlyIf (n.toInt < 0) (vmaFreeMem s.pagetable (.slot i)
        (sub64 (h.start + h.bytes.length) (sext (DeisoXv6.int (-n.toInt)))) (sext (DeisoXv6.int (-n.toInt))))) s () u →
      t = (u.setVmas (u.vmas.modify (resize n.toInt) (.slot i))).setSz
        ((u.vmas.modify (resize n.toInt) (.slot i)).slot i).stop →
      Returns (sysSbrk n) s (some (h.start + h.bytes.length)) t := by
    intro u t freed after
    unfold sysSbrk
    rw [returns_get_bind, holds.owner]
    dsimp only
    rw [checks]
    dsimp only
    rw [returns_bind]
    refine ⟨(), u, freed, ?_⟩
    rw [returns_modify_bind, returns_modify_bind, after]
    exact returns_pure.mpr ⟨rfl, rfl⟩
  unfold onlyIf at start
  by_cases negative : n.toInt < 0
  · -- the range that goes is not longer than the heap
    have enough : (-n.toInt).toNat ≤ h.bytes.length := by
      unfold HeapArray.Refuses at accepted
      omega
    have amount : sext (DeisoXv6.int (-n.toInt)) = (-n.toInt).toNat := by
      unfold sext DeisoXv6.int
      rw [Int.bmod_eq_of_le (by omega) (by omega)]
      omega
    have place : sub64 (h.start + h.bytes.length) (-n.toInt).toNat =
        h.start + (h.bytes.length - (-n.toInt).toNat) := by
      have below := holds.fits
      have reserved := holds.limit_le
      unfold RESERVED MAXVA at reserved
      rw [sub64_eq (by omega) (by omega)]
      omega
    have size : (h.bytes.length + n.toInt).toNat = h.bytes.length - (-n.toInt).toNat := by omega
    obtain ⟨u, g', freed, sheds, dropped⟩ := holds.shrink enough
    rw [if_pos negative, amount, place] at start
    refine ⟨_, g', start freed rfl, holds.resized accepted sheds.held ?_ ?_ ?_ ?_ ?_ _⟩
    · rw [sheds.rest]
    · rw [sheds.rest]
    · rw [sheds.rest]
    · rw [size]
      exact holds.shrunk enough dropped
    · intro a inside present
      exact dropped.entry_present (inside.trans_le holds.limit_le) present
  · rw [if_neg negative] at start
    refine ⟨_, g, start (returns_pure.mpr ⟨rfl, rfl⟩) rfl,
      holds.resized accepted holds.held rfl rfl rfl (fun a first last => ?_) (fun _ _ _ => rfl) _⟩
    by_cases inside : a < h.start + (h.bytes.length + n.toInt).toNat
    · rw [if_pos inside]
    · rw [if_neg inside, holds.bytes a first last, getD_eq_default _ _ (by omega)]

/-- One call does what it does to the array, unless the process is killed for want of memory. -/
theorem step {c : HeapCall} (inside : h.Inside c) : ∃ r t, Returns c.run s r t ∧
      ((∃ g', r = some (h.call c).1 ∧ HoldsHeap g' t pre prev i post (h.call c).2) ∨ (r = none ∧ Exhausted t)) := by
  cases c with
  | sbrk n =>
    unfold HeapArray.call HeapCall.run
    dsimp only
    by_cases refused : h.Refuses n.toInt
    · rw [if_pos refused]
      exact ⟨_, s, returns_map.mpr ⟨none, holds.sbrk_refused inside refused, rfl⟩, .inl ⟨g, rfl, holds⟩⟩
    · rw [if_neg refused]
      obtain ⟨t, g', run, after⟩ := holds.sbrk_accepted inside refused
      exact ⟨_, t, returns_map.mpr ⟨_, run, rfl⟩, .inl ⟨g', rfl, after⟩⟩
  | load va =>
    obtain ⟨r, t, run, ⟨g', rfl, after⟩ | ⟨rfl, exhausted⟩⟩ := holds.load inside.1 inside.2
    · exact ⟨_, t, returns_map.mpr ⟨_, run, rfl⟩, .inl ⟨g', rfl, after⟩⟩
    · exact ⟨_, t, returns_map.mpr ⟨_, run, rfl⟩, .inr ⟨rfl, exhausted⟩⟩
  | store va byte =>
    obtain ⟨r, t, run, ⟨g', rfl, after⟩ | ⟨rfl, exhausted⟩⟩ := holds.store inside.1 inside.2
    · exact ⟨_, t, returns_map.mpr ⟨_, run, rfl⟩, .inl ⟨g', rfl, after⟩⟩
    · exact ⟨_, t, returns_map.mpr ⟨_, run, rfl⟩, .inr ⟨rfl, exhausted⟩⟩

theorem runs {calls : List HeapCall} (inside : h.AllInside calls) :
    ∃ answers t, Returns (runCalls calls) s answers t ∧
      ((answers = (h.run calls).1 ∧ ∃ g', HoldsHeap g' t pre prev i post (h.run calls).2) ∨
        (answers <+: (h.run calls).1 ∧ Exhausted t)) := by
  induction calls generalizing g s h with
  | nil => exact ⟨[], s, returns_pure.mpr ⟨rfl, rfl⟩, .inl ⟨rfl, g, holds⟩⟩
  | cons c rest ih =>
    obtain ⟨r, t, run, ⟨g', rfl, after⟩ | ⟨rfl, exhausted⟩⟩ := holds.step inside.1
    · obtain ⟨answers, u, later, result⟩ := ih after inside.2
      refine ⟨_, u, returns_bind.mpr ⟨_, t, run, returns_map.mpr ⟨answers, later, rfl⟩⟩, ?_⟩
      rcases result with ⟨rfl, final⟩ | ⟨front, exhausted⟩
      · exact .inl ⟨rfl, final⟩
      · exact .inr ⟨(cons_prefix_cons).mpr ⟨rfl, front⟩, exhausted⟩
    · exact ⟨[], t, returns_bind.mpr ⟨none, t, run, returns_pure.mpr ⟨rfl, rfl⟩⟩, .inr ⟨List.nil_prefix, exhausted⟩⟩

end

end HoldsHeap

theorem sysSbrk_none {n : BitVec 32} (run : Returns (sysSbrk n) s none t) : t = s := by
  unfold sysSbrk at run
  rw [returns_get_bind] at run
  split at run
  · exact absurd run returns_throw
  · split at run
    · exact absurd run returns_throw
    · exact (returns_pure.mp run).2
    · obtain ⟨_, u, -, run⟩ := returns_bind.mp run
      rw [returns_modify_bind, returns_modify_bind] at run
      exact nomatch (returns_pure.mp run).1

/-- The heap is an array of bytes: in every run of sbrk, loads and stores inside it the process gets what the
array gives, for as long as there is memory, and a call that returns -1 changes nothing. -/
theorem heap_is_array (holds : HoldsHeap g s pre prev i post h) (calls : List HeapCall) (inside : h.AllInside calls) :
    (∃ answers t, Returns (runCalls calls) s answers t ∧
      ((answers = (h.run calls).1 ∧ ∃ g', HoldsHeap g' t pre prev i post (h.run calls).2) ∨
        (answers <+: (h.run calls).1 ∧ Exhausted t))) ∧ ∀ n t, Returns (sysSbrk n) s none t → t = s :=
  ⟨holds.runs inside, fun _ _ => sysSbrk_none⟩

end Holds

def sbrkProcess : Sys := heapProcess.setVmas { heapProcess.vmas with heap := fun _ => some 0 }

def regain : List HeapCall := [.store PGSIZE 7, .sbrk (-4096), .sbrk 1, .load PGSIZE, .sbrk (-2)]

theorem regained_byte_is_zero : ∃ answers t, Returns (runCalls regain) sbrkProcess answers t ∧
    answers <+: [.stored, .break (some (2 * PGSIZE)), .break (some PGSIZE), .byte 0, .break none] := by
  have held : Held (.single heapProcess.freelist) sbrkProcess sbrkProcess.pagetable := heapProcess_mapped.held.setVmas
  have holds : HoldsHeap (.single heapProcess.freelist) sbrkProcess [] (.start 0) 0 []
      ⟨PGSIZE, RESERVED, List.replicate PGSIZE 0⟩ :=
    .of_absent (h := ⟨PGSIZE, RESERVED, []⟩) held (by decide +kernel) heapProcess_mapped.wf rfl rfl rfl rfl rfl rfl rfl
      fun _ _ _ => @single_absent heapVma heapProcess.freelist _
  have inside : HeapArray.AllInside ⟨PGSIZE, RESERVED, List.replicate PGSIZE 0⟩ regain := by decide +kernel
  have answers : (HeapArray.run ⟨PGSIZE, RESERVED, List.replicate PGSIZE 0⟩ regain).1 =
      [.stored, .break (some (2 * PGSIZE)), .break (some PGSIZE), .byte 0, .break none] := by decide +kernel
  obtain ⟨given, t, run, ⟨rfl, -⟩ | ⟨front, -⟩⟩ := (heap_is_array holds regain inside).1
  · exact ⟨_, t, run, answers ▸ prefix_rfl⟩
  · exact ⟨_, t, run, answers ▸ front⟩

end DeisoXv6
