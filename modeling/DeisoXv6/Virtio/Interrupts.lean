import DeisoXv6.Virtio.Requests

/-! The disk driver under any interleaving of processes, interrupts and the device. -/

set_option autoImplicit false

namespace DeisoXv6.Virtio

open List Chain
open Function (update update_apply update_eq_self update_of_ne update_self)

namespace Point

variable {Buf : Type}

def request : Point Buf → Option (Request Buf)
  | formats b _ idx => some ⟨b, idx, .allocated⟩
  | offers b idx => some ⟨b, idx, .formatted⟩
  | publishes b idx => some ⟨b, idx, .offered⟩
  | waits b idx | diskSleeps b idx _ => some ⟨b, idx, .published⟩
  | finishes b idx => some ⟨b, idx, .finishing⟩
  | idle | enters _ _ | allocs _ _ | allocSleeps _ _ _ | intrEnters | intrLoops | intrTakes => none

def Inside : Point Buf → Prop
  | allocs _ _ | formats _ _ _ | offers _ _ | publishes _ _ | waits _ _ | finishes _ _ | intrLoops | intrTakes => True
  | idle | enters _ _ | allocSleeps _ _ _ | diskSleeps _ _ _ | intrEnters => False

variable {point : Point Buf} {r : Request Buf}

@[simp] theorem request_woken : point.woken.request = point.request := by
  cases point <;> rfl

@[simp] theorem buffer_woken : point.woken.buffer = point.buffer := by
  cases point <;> rfl

@[simp] theorem inside_woken : point.woken.Inside ↔ point.Inside := by
  cases point <;> rfl

theorem woken_intrTakes : point.woken = .intrTakes ↔ point = .intrTakes := by
  cases point <;> simp [woken]

theorem buffer_request (has : point.request = some r) : point.buffer = some r.buf := by
  cases point <;> cases has <;> rfl

theorem inside_offered (has : point.request = some r) (stage : r.stage = .offered) : point.Inside := by
  cases point <;> cases has <;> trivial

end Point

variable {c : Chain}

section States

variable {Tid Buf : Type} {s s' : State Tid Buf} {t u : Tid} {i : Nat}

def State.request (s : State Tid Buf) (t : Tid) : Option (Request Buf) := (s.point t).request

/-- A process that does not run can only be woken up. -/
def Rests (s s' : State Tid Buf) (u : Tid) : Prop := s'.point u = s.point u ∨ s'.point u = (s.point u).woken

section

variable (rests : Rests s s' u)

include rests

theorem Rests.request : s'.request u = s.request u := by
  rcases rests with same | woken
  · exact congrArg Point.request same
  · exact (congrArg Point.request woken).trans Point.request_woken

theorem Rests.buffer : (s'.point u).buffer = (s.point u).buffer := by
  rcases rests with same | woken
  · rw [same]
  · rw [woken, Point.buffer_woken]

theorem Rests.inside : (s'.point u).Inside ↔ (s.point u).Inside := by
  rcases rests with same | woken
  · rw [same]
  · rw [woken, Point.inside_woken]

theorem Rests.intrTakes : s'.point u = .intrTakes ↔ s.point u = .intrTakes := by
  rcases rests with same | woken
  · rw [same]
  · rw [woken, Point.woken_intrTakes]

end

theorem Rests.trans {s'' : State Tid Buf} (first : Rests s s' u) (second : Rests s' s'' u) : Rests s s'' u := by
  have twice : (s.point u).woken.woken = (s.point u).woken := by cases s.point u <;> rfl
  rcases first with same | woken <;> rcases second with same' | woken'
  · exact .inl (same'.trans same)
  · exact .inr (same ▸ woken')
  · exact .inr (same'.trans woken)
  · exact .inr (by rw [woken', woken, twice])

structure Inv (s : State Tid Buf) : Prop where
  book : Book s.request s.disk
  exclusive : ∀ {t}, (s.point t).Inside → s.lock = some t
  apart : ∀ {t u b}, (s.point t).buffer = some b → (s.point u).buffer = some b → t = u
  takes : ∀ {t}, s.point t = .intrTakes → s.disk.used ≠ []

theorem Inv.alone (inv : Inv s) (inside : (s.point t).Inside) :
    ∀ u q, s.request u = some q → q.stage = .offered → u = t := by
  intro u q has stage
  have lock := inv.exclusive (Point.inside_offered has stage)
  exact Option.some.inj (lock.symm.trans (inv.exclusive inside))

theorem allocDesc_some {disk disk' : Disk Buf} (found : disk.allocDesc = some (i, disk')) :
    i < NUM ∧ disk.free i = true ∧ disk' = disk.taken i := by
  obtain ⟨j, scan, same⟩ := Option.map_eq_some_iff.mp found
  cases same
  exact ⟨mem_range.mp (mem_of_find?_eq_some scan), List.find?_some scan, rfl⟩

variable [DecidableEq Buf]

theorem wakeup_rests (s : State Tid Buf) (chan : WaitChan Buf) (u : Tid) : Rests s (s.wakeup chan) u := by
  unfold Rests State.wakeup
  dsimp only
  split
  · exact .inr rfl
  · exact .inl rfl

theorem freeDesc_taken (bounded : i < NUM) (taken : s.disk.free i = false) :
    ∃ s', s.freeDesc i = .ok s' ∧ (∀ u, Rests s s' u) ∧ s'.lock = s.lock ∧ s'.disk = s.disk.freed i := by
  refine ⟨{ s with disk := s.disk.freed i }.wakeup .free, ?_, wakeup_rests _ _, rfl, rfl⟩
  rw [State.freeDesc, if_neg (by omega), if_neg (by simp [taken])]
  rfl

/-- What alloc3_desc returns: three descriptors that were free, or none, and then it has given back those that it
had found. -/
theorem alloc3Desc_spec (book : Book s.request s.disk) :
    ∃ idx s', s.alloc3Desc = .ok (idx, s') ∧ (∀ u, Rests s s' u) ∧ s'.lock = s.lock ∧
      s'.disk = { s.disk with desc := s'.disk.desc, free := s'.disk.free } ∧
      match idx with
      | none => Book s.request s'.disk
      | some c => c.descs.Nodup ∧ (∀ i ∈ c.descs, i < NUM) ∧ (∀ i ∈ c.descs, s.disk.free i = true) ∧
        s'.disk = { s.disk with free := s'.disk.free } ∧
        ∀ i, s'.disk.free i = if i ∈ c.descs then false else s.disk.free i := by
  unfold State.alloc3Desc
  split
  · exact ⟨none, s, rfl, fun _ => .inl rfl, rfl, rfl, book⟩
  · rename_i head disk first
    obtain ⟨bounded, unused, rfl⟩ := allocDesc_some first
    have back : update (s.disk.taken head).free head true = s.disk.free := by
      simp [Disk.taken, ← unused]
    split
    · obtain ⟨s', freed, rests, lock, disk⟩ := freeDesc_taken (s := { s with disk := s.disk.taken head })
        bounded (update_self ..)
      refine ⟨none, s', by rw [freed]; rfl, rests, lock, disk ▸ rfl, ?_⟩
      rw [disk]
      exact book.blank unused back
    · rename_i data disk second
      obtain ⟨bounded', unused', rfl⟩ := allocDesc_some second
      have ne : data ≠ head := by
        rintro rfl
        simp [Disk.taken] at unused'
      have unused_data : s.disk.free data = true := by simpa [Disk.taken, ne] using unused'
      split
      · obtain ⟨s', freed, rests, lock, disk⟩ := freeDesc_taken
          (s := { s with disk := (s.disk.taken head).taken data }) bounded (by simp [Disk.taken, ne.symm])
        obtain ⟨s'', freed', rests', lock', disk'⟩ := freeDesc_taken (s := s') bounded'
          (by simp [disk, Disk.freed, Disk.taken, ne])
        have ran : (do
            let s ← { s with disk := (s.disk.taken head).taken data }.freeDesc head
            let s ← s.freeDesc data
            pure ((none : Option Chain), s)) = .ok (none, s'') := by
          simp only [freed, freed', bind, Except.bind, pure, Except.pure]
        refine ⟨none, s'', ran, fun u => (rests u).trans (rests' u), lock'.trans lock, by rw [disk', disk]; rfl, ?_⟩
        rw [disk', disk]
        have free : update (((s.disk.taken head).taken data).freed head).free data true = s.disk.free := by
          funext i
          simp only [Disk.freed, Disk.taken, update_apply]
          grind
        exact (book.blank unused rfl).blank unused_data free
      · rename_i status disk third
        obtain ⟨bounded'', unused'', rfl⟩ := allocDesc_some third
        have ne_data : status ≠ data := by
          rintro rfl
          simp [Disk.taken] at unused''
        have ne_head : status ≠ head := by
          rintro rfl
          simp [Disk.taken, ne.symm] at unused''
        have unused_status : s.disk.free status = true := by simpa [Disk.taken, ne_data, ne_head] using unused''
        refine ⟨some ⟨head, data, status⟩, _, rfl, fun _ => .inl rfl, rfl, rfl, ?_, ?_, ?_, rfl, fun i => ?_⟩
        · simp [descs, ne.symm, ne_data.symm, ne_head.symm]
        · simp [descs, bounded, bounded', bounded'']
        · simp [descs, unused, unused_data, unused_status]
        · simp only [descs, Disk.taken, update_apply, mem_cons, not_mem_nil, or_false]
          grind

theorem freeChain_spec {b : Buf} {disk : Disk Buf} (nodup : c.descs.Nodup)
    (bounded : ∀ i ∈ c.descs, i < NUM) (taken : ∀ i ∈ c.descs, s.disk.free i = false) (linked : disk.Linked c b)
    (same : s.disk.desc = disk.desc) :
    ∃ s', s.freeChain (NUM + 1) c.head = .ok s' ∧ (∀ u, Rests s s' u) ∧ s'.lock = s.lock ∧
      s'.disk = { s.disk with desc := s'.disk.desc, free := s'.disk.free } ∧
      (∀ i, i ∉ c.descs → s'.disk.desc i = s.disk.desc i) ∧
      ∀ i, s'.disk.free i = if i ∈ c.descs then true else s.disk.free i := by
  simp only [descs, nodup_cons, mem_cons, not_mem_nil, or_false, not_or] at nodup
  obtain ⟨⟨data, status⟩, later, -⟩ := nodup
  obtain ⟨s₁, freed₁, rests₁, lock₁, disk₁⟩ := freeDesc_taken (bounded _ c.head_mem) (taken _ c.head_mem)
  have desc_data : s₁.disk.desc c.data = s.disk.desc c.data := by simp [disk₁, Disk.freed, Ne.symm data]
  have free_data : s₁.disk.free c.data = false := by simp [disk₁, Disk.freed, Ne.symm data, taken _ c.data_mem]
  obtain ⟨s₂, freed₂, rests₂, lock₂, disk₂⟩ := freeDesc_taken (bounded _ c.data_mem) free_data
  have desc_status : s₂.disk.desc c.status = s.disk.desc c.status := by
    simp [disk₁, disk₂, Disk.freed, Ne.symm status, Ne.symm later]
  have free_status : s₂.disk.free c.status = false := by
    simp [disk₁, disk₂, Disk.freed, Ne.symm status, Ne.symm later, taken _ c.status_mem]
  obtain ⟨s₃, freed₃, rests₃, lock₃, disk₃⟩ := freeDesc_taken (bounded _ c.status_mem) free_status
  have disk : s₃.disk = ((s.disk.freed c.head).freed c.data).freed c.status := by rw [disk₃, disk₂, disk₁]
  refine ⟨s₃, ?_, fun u => ((rests₁ u).trans (rests₂ u)).trans (rests₃ u), lock₃.trans (lock₂.trans lock₁), ?_,
    fun i outside => ?_, fun i => ?_⟩
  · simp only [State.freeChain, NUM, freed₁, freed₂, freed₃, bind, Except.bind, pure, Except.pure, if_pos, same,
      linked.head_next, linked.head_data, desc_data, linked.data_next, linked.data_status, desc_status, linked.status_last,
      Bool.false_eq_true, if_false]
  · rw [disk]
    rfl
  · simp only [descs, mem_cons, not_mem_nil, or_false, not_or] at outside
    simp [disk, Disk.freed, outside]
  · simp only [descs, disk, Disk.freed, update_apply, mem_cons, not_mem_nil, or_false]
    grind

end States

section Steps

variable {Tid Buf : Type}

def State.clears (s : State Tid Buf) : Event Tid Buf → Option Buf
  | .run t => match s.point t with
    | .intrTakes => (s.disk.info s.disk.nextUsed).b
    | _ => none
  | .call _ _ | .kill _ | .fetch | .complete _ => none

/-- How often the buffer of a request has been cleared. -/
def Disk.cleared (disk : Disk Buf) : Option (Request Buf) → Nat
  | some ⟨b, _, .published⟩ => if disk.onDisk b then 0 else 1
  | some ⟨_, _, .finishing⟩ => 1
  | _ => 0

theorem Disk.cleared_le (disk : Disk Buf) (request : Option (Request Buf)) : disk.cleared request ≤ 1 := by
  unfold Disk.cleared
  split
  · split <;> decide
  · decide
  · decide

def State.cleared (s : State Tid Buf) (t : Tid) : Nat := s.disk.cleared (s.request t)

theorem State.clears_some {s : State Tid Buf} {e : Event Tid Buf} {b : Buf} (clears : s.clears e = some b) :
    ∃ t, e = .run t ∧ s.point t = .intrTakes := by
  cases e with
  | run t =>
    cases now : s.point t with
    | intrTakes => exact ⟨t, rfl, now⟩
    | _ => simp [State.clears, now] at clears
  | _ => cases clears

/-- virtio_disk_rw is called on a buffer that is in no other call. -/
def Event.Fresh (s : State Tid Buf) : Event Tid Buf → Prop
  | .call _ (.rw b _) => ∀ u, (s.point u).buffer ≠ some b
  | _ => True

instance [Fintype Tid] [DecidableEq Buf] (s : State Tid Buf) : (e : Event Tid Buf) → Decidable (e.Fresh s)
  | .call _ (.rw b _) => inferInstanceAs (Decidable (∀ u, (s.point u).buffer ≠ some b))
  | .call _ .intr | .run _ | .kill _ | .fetch | .complete _ => inferInstanceAs (Decidable True)

variable {s s' : State Tid Buf} {t u : Tid} {e : Event Tid Buf} {b : Buf} {p : Point Buf}

structure Move (s : State Tid Buf) (t : Tid) (s' : State Tid Buf) : Prop where
  rests : ∀ u, u ≠ t → Rests s s' u
  book : Book s'.request s'.disk
  lock : s.lock = some t ∨ s.lock = none ∨ s'.lock = s.lock
  inside : (s'.point t).Inside → s'.lock = some t
  fresh : ∀ b, (s'.point t).buffer = some b → (s.point t).buffer = some b ∨ ∀ u, (s.point u).buffer ≠ some b
  used : s'.disk.used = s.disk.used
  takes : s'.point t = .intrTakes → s.disk.used ≠ []
  others : ∀ b, (s.point t).buffer ≠ some b → s'.disk.onDisk b = s.disk.onDisk b
  set : ∀ b, s.disk.onDisk b = true → s'.disk.onDisk b = true
  calls : ∀ b, (s.point t).buffer = some b →
    (s'.point t).buffer = some b ∧ s'.cleared t = s.cleared t ∨ s'.point t = .idle ∧ s.cleared t = 1
  waits : ∀ r, s.request t = some r → r.Waited s.disk → s'.request t = some r

theorem init_inv (blockno : Buf → BitVec 32) : Inv (State.init blockno : State Tid Buf) where
  book := by
    have empty : (Disk.init blockno).pending = [] := by simp [Disk.pending, Disk.avail, Disk.used, Disk.init]
    refine ⟨⟨?_, ?_, ?_, ?_, ?_, ?_⟩, ?_, ?_, ?_, ?_⟩
    · exact fun has => by cases has
    · exact fun has => by cases has
    · exact fun has => by cases has
    · exact fun _ busy => by cases busy
    · exact fun has => by cases has
    · exact fun has => by cases has
    · exact fun has => by cases has
    · exact empty ▸ nodup_nil
    · intro h
      constructor
      · intro mem
        simp [State.init, empty] at mem
      · rintro ⟨t, r, has, -⟩
        cases has
    · intro h mem
      have := Disk.used_pending mem
      simp [State.init, empty] at this
  exclusive inside := inside.elim
  apart mine := by cases mine
  takes now := by cases now

section Shifts

variable [DecidableEq Tid]

theorem request_of_rests {v : Option (Request Buf)} (rests : ∀ u, u ≠ t → Rests s s' u) (own : (s'.point t).request = v) :
    s'.request = update s.request t v := by
  funext u
  by_cases same : u = t
  · subst same
    rw [update_self]
    exact own
  · rw [update_of_ne same]
    exact (rests u same).request

theorem go_rests (s : State Tid Buf) (t : Tid) (p : Point Buf) : ∀ u, u ≠ t → Rests s (s.go t p) u :=
  fun _ other => .inl (update_of_ne other ..)

theorem go_self (s : State Tid Buf) (t : Tid) (p : Point Buf) : (s.go t p).point t = p := update_self ..

section

variable (inv : Inv s)

include inv

theorem Inv.shift (rests : ∀ u, u ≠ t → Rests s s' u) (disk : s'.disk = s.disk)
    (request : s'.request t = s.request t) (buffer : (s'.point t).buffer = (s.point t).buffer)
    (lock : s.lock = some t ∨ s.lock = none ∨ s'.lock = s.lock) (inside : (s'.point t).Inside → s'.lock = some t)
    (takes : s'.point t = .intrTakes → s.disk.used ≠ []) : Move s t s' where
  rests := rests
  book := by
    have same : s'.request = s.request := by
      rw [request_of_rests rests rfl]
      exact (congrArg (update s.request t) request).trans (update_eq_self ..)
    rw [same, disk]
    exact inv.book
  lock := lock
  inside := inside
  fresh b mine := .inl (buffer.symm.trans mine)
  used := by rw [disk]
  takes := takes
  others _ _ := by rw [disk]
  set b on := by rw [disk, on]
  calls b mine := .inl ⟨buffer.trans mine, by rw [State.cleared, State.cleared, request, disk]⟩
  waits r has _ := request.trans has

theorem Inv.acquire (acquired : s.acquire t p = some s') (request : p.request = s.request t)
    (buffer : p.buffer = (s.point t).buffer) (outside : p ≠ .intrTakes) : Move s t s' := by
  unfold State.acquire at acquired
  split at acquired
  · rename_i unlocked
    cases acquired
    have own := go_self s t p
    refine inv.shift (go_rests s t p) rfl ?_ ?_ (.inr (.inl unlocked)) (fun _ => rfl) fun at_takes => ?_
    · exact (congrArg Point.request own).trans request
    · exact (congrArg Point.buffer own).trans buffer
    · exact absurd (own.symm.trans at_takes) outside
  · cases acquired

theorem Inv.release (inside : (s.point t).Inside) (request : p.request = s.request t)
    (buffer : p.buffer = (s.point t).buffer) (outside : ¬p.Inside) : Move s t (s.release t p) := by
  have own := go_self s t p
  refine inv.shift (go_rests s t p) rfl ?_ ?_ (.inl (inv.exclusive inside)) (fun at_p => ?_) fun at_takes => ?_
  · exact (congrArg Point.request own).trans request
  · exact (congrArg Point.buffer own).trans buffer
  · exact absurd (own ▸ at_p : p.Inside) outside
  · cases own.symm.trans at_takes
    exact absurd trivial outside

theorem Inv.within (inside : (s.point t).Inside) (rests : ∀ u, u ≠ t → Rests s s' u)
    (own : s'.point t = p) (held : s'.lock = some t ∨ ¬p.Inside) (buffer : p.buffer = (s.point t).buffer)
    (plain : p ≠ .intrTakes) (book : Book (update s.request t p.request) s'.disk) (used : s'.disk.used = s.disk.used)
    (others : ∀ b, (s.point t).buffer ≠ some b → s'.disk.onDisk b = s.disk.onDisk b)
    (set : ∀ b, s.disk.onDisk b = true → s'.disk.onDisk b = true)
    (count : s'.disk.cleared p.request = s.disk.cleared (s.request t))
    (waits : ∀ r, s.request t = some r → r.Waited s.disk → p.request = some r) : Move s t s' where
  rests := rests
  book := by
    rw [request_of_rests rests (congrArg Point.request own)]
    exact book
  lock := .inl (inv.exclusive inside)
  inside at_p := held.resolve_right (not_not.mpr (own ▸ at_p))
  fresh b mine := .inl (buffer.symm.trans (own ▸ mine))
  used := used
  takes at_takes := absurd (own.symm.trans at_takes) plain
  others := others
  set := set
  calls b mine := .inl ⟨own ▸ buffer.trans mine, by rw [State.cleared, State.request, own, count, State.cleared]⟩
  waits r has waited := (congrArg Point.request own).trans (waits r has waited)

theorem Inv.offer (now : s.point t = .offers b c) :
    Move s t { s.go t (.publishes b c) with disk := s.disk.offer c } := by
  have mine : s.request t = some ⟨b, c, .formatted⟩ := congrArg Point.request now
  have inside : (s.point t).Inside := now ▸ trivial
  have own := go_self s t (.publishes b c)
  refine inv.within inside (go_rests s t _) own (.inl (inv.exclusive inside)) (now ▸ rfl) nofun
    (inv.book.offer mine (inv.alone inside)) rfl (fun _ _ => rfl) (fun _ on => on) ?_ ?_
  · rw [mine]
    rfl
  · intro r has waited
    cases mine.symm.trans has
    cases waited.1

theorem Inv.publish (now : s.point t = .publishes b c) :
    Move s t { s.go t (.waits b c) with disk := s.disk.publish } := by
  have mine : s.request t = some ⟨b, c, .offered⟩ := congrArg Point.request now
  have inside : (s.point t).Inside := now ▸ trivial
  have own := go_self s t (.waits b c)
  have on : s.disk.onDisk b = true := (inv.book.ready mine).set (.inr rfl)
  refine inv.within inside (go_rests s t _) own (.inl (inv.exclusive inside)) (now ▸ rfl) nofun
    (inv.book.publish mine (inv.alone inside)) rfl (fun _ _ => rfl) (fun _ on => on) ?_ ?_
  · rw [mine]
    exact if_pos on
  · intro r has waited
    cases mine.symm.trans has
    cases waited.1

theorem Inv.leave (now : s.point t = .waits b c) (clear : s.disk.onDisk b = false) :
    Move s t (s.go t (.finishes b c)) := by
  have mine : s.request t = some ⟨b, c, .published⟩ := congrArg Point.request now
  have inside : (s.point t).Inside := now ▸ trivial
  have own := go_self s t (.finishes b c)
  refine inv.within inside (go_rests s t _) own (.inl (inv.exclusive inside)) (now ▸ rfl) nofun
    (inv.book.leave mine clear) rfl (fun _ _ => rfl) (fun _ on => on) ?_ ?_
  · rw [mine]
    simp [Disk.cleared, Point.request, clear]
  · intro r has waited
    cases mine.symm.trans has
    cases clear.symm.trans waited.2

theorem Inv.called (idle : s.point t = .idle) (request : p.request = none) (outside : ¬p.Inside)
    (fresh : ∀ b, p.buffer = some b → ∀ u, (s.point u).buffer ≠ some b) : Move s t (s.go t p) := by
  have own := go_self s t p
  have none : s.request t = none := congrArg Point.request idle
  constructor
  · exact go_rests s t p
  · rw [request_of_rests (go_rests s t p) (congrArg Point.request own), request, ← none, update_eq_self]
    exact inv.book
  · exact .inr (.inr rfl)
  · intro at_p
    exact absurd (own ▸ at_p : p.Inside) outside
  · intro b mine
    exact .inr (fresh b (own ▸ mine))
  · rfl
  · intro at_takes
    cases own.symm.trans at_takes
    exact absurd trivial outside
  · exact fun _ _ => rfl
  · exact fun _ on => on
  · intro b mine
    rw [idle] at mine
    cases mine
  · intro r has _
    cases none.symm.trans has

end

end Shifts

theorem Inv.more (inv : Inv s) (now : s.point t = .intrTakes) : s.disk.seenIdx ≠ s.disk.usedIdx := by
  intro same
  apply inv.takes now
  unfold Disk.used
  rw [same]
  exact Ring.window_self

variable [DecidableEq Buf]

/-- A call on `b` goes on, with the clearing of `b` counted, or it returns. -/
def Proceeds (s : State Tid Buf) (e : Event Tid Buf) (s' : State Tid Buf) (u : Tid) (b : Buf) : Prop :=
  (s'.point u).buffer = some b ∧ s'.cleared u = s.cleared u + (if s.clears e = some b then 1 else 0) ∨
    s'.point u = .idle ∧ s.cleared u = 1 ∧ s.clears e ≠ some b

structure Advances (s : State Tid Buf) (e : Event Tid Buf) (s' : State Tid Buf) : Prop where
  inv : Inv s'
  calls : ∀ u b, (s.point u).buffer = some b → Proceeds s e s' u b
  waits : ∀ u r, s.request u = some r → r.Waited s.disk → s'.request u = some r
  clears : ∀ b, s.disk.onDisk b = true → s'.disk.onDisk b = false → s.clears e = some b
  completes : ∀ h ∈ s'.disk.used, h ∈ s.disk.used ∨ e = .complete h

theorem Rests.proceeds (rests : Rests s s' u) (same : s'.disk.onDisk b = s.disk.onDisk b)
    (mine : (s.point u).buffer = some b) (quiet : s.clears e ≠ some b) : Proceeds s e s' u b := by
  refine .inl ⟨rests.buffer.trans mine, ?_⟩
  rw [if_neg quiet, Nat.add_zero]
  unfold State.cleared Disk.cleared
  rw [rests.request]
  split
  · rename_i b' c has
    cases mine.symm.trans (Point.buffer_request has)
    rw [same]
  · rfl
  · rfl

theorem Inv.device (inv : Inv s) {disk : Disk Buf} (book : Book s.request disk) (onDisk : disk.onDisk = s.disk.onDisk)
    (more : s.disk.used ≠ [] → disk.used ≠ []) (completes : ∀ h ∈ disk.used, h ∈ s.disk.used ∨ e = .complete h)
    (quiet : s.clears e = none) : Advances s e { s with disk := disk } where
  inv := ⟨book, inv.exclusive, inv.apart, fun now => more (inv.takes now)⟩
  calls u b mine := by
    have rests : Rests s { s with disk := disk } u := .inl rfl
    exact rests.proceeds (congrFun onDisk b) mine (by simp [quiet])
  waits u r has _ := has
  clears b on off := by
    cases on.symm.trans ((congrFun onDisk b).symm.trans off)
  completes := completes

theorem Move.advances (inv : Inv s) (move : Move s t s') (quiet : s.clears e = none) : Advances s e s' := by
  have outside : ∀ {u}, u ≠ t → (s.point u).Inside → s'.lock = some u := by
    intro u other inside
    have held := inv.exclusive inside
    rcases move.lock with lock | lock | lock
    · exact absurd (Option.some.inj (held.symm.trans lock)) other
    · cases held.symm.trans lock
    · exact lock.trans held
  refine ⟨⟨move.book, ?_, ?_, ?_⟩, ?_, ?_, ?_, ?_⟩
  · intro u inside
    by_cases own : u = t
    · exact own ▸ move.inside (own ▸ inside)
    · exact outside own ((move.rests u own).inside.mp inside)
  · intro u v b mine mine'
    by_cases own : u = t <;> by_cases own' : v = t
    · exact own.trans own'.symm
    · rw [(move.rests v own').buffer] at mine'
      rcases move.fresh b (own ▸ mine) with before | fresh
      · exact own.trans (inv.apart before mine')
      · exact absurd mine' (fresh v)
    · rw [(move.rests u own).buffer] at mine
      rcases move.fresh b (own' ▸ mine') with before | fresh
      · exact (inv.apart mine before).trans own'.symm
      · exact absurd mine (fresh u)
    · rw [(move.rests u own).buffer] at mine
      rw [(move.rests v own').buffer] at mine'
      exact inv.apart mine mine'
  · intro u at_takes
    rw [move.used]
    by_cases own : u = t
    · exact move.takes (own ▸ at_takes)
    · exact inv.takes ((move.rests u own).intrTakes.mp at_takes)
  · intro u b mine
    by_cases own : u = t
    · subst own
      rcases move.calls b mine with ⟨still, count⟩ | ⟨idle, count⟩
      · exact .inl ⟨still, by simp [quiet, count]⟩
      · exact .inr ⟨idle, count, by simp [quiet]⟩
    · refine (move.rests u own).proceeds (move.others b fun same => own (inv.apart mine same)) mine (by simp [quiet])
  · intro u r has waited
    by_cases own : u = t
    · subst own
      exact move.waits r has waited
    · exact (move.rests u own).request.trans has
  · intro b on off
    simp [move.set b on] at off
  · intro h mem
    exact .inl (move.used ▸ mem)

variable [DecidableEq Tid]

variable {write : Bool}

section

variable (inv : Inv s)

include inv

theorem Inv.alloc (now : s.point t = .allocs b write) : ∃ next, s.run t = .ok (some next) ∧ Move s t next := by
  obtain ⟨idx, s₁, ran, rests, lock, disk, found⟩ := alloc3Desc_spec inv.book
  have used : s₁.disk.used = s.disk.used := by rw [disk]; rfl
  have onDisk : s₁.disk.onDisk = s.disk.onDisk := by rw [disk]
  have new : s.request t = none := congrArg Point.request now
  have inside : (s.point t).Inside := now ▸ trivial
  have run : ∀ p, ∀ u, u ≠ t → Rests s (s₁.go t p) u := fun p u other => (rests u).trans (go_rests s₁ t p u other)
  cases idx with
  | none =>
    refine ⟨s₁.release t (.allocSleeps b write false), ?_, ?_⟩
    · simp only [State.run, now, ran, bind, Except.bind, pure, Except.pure]
    · have own := go_self s₁ t (.allocSleeps b write false)
      have book : Book (update s.request t none) s₁.disk := by
        rw [← new, update_eq_self]
        exact found
      refine inv.within inside (run _) own (.inr not_false) (now ▸ rfl) nofun book used (fun b _ => congrFun onDisk b)
        (fun b on => (congrFun onDisk b).trans on) (by rw [new]; rfl) (by simp [new])
  | some c =>
    obtain ⟨nodup, bounded, unused, disk', free⟩ := found
    refine ⟨s₁.go t (.formats b write c), ?_, ?_⟩
    · simp only [State.run, now, ran, bind, Except.bind, pure, Except.pure]
    · have own := go_self s₁ t (.formats b write c)
      have apart : ∀ u q, s.request u = some q → q.buf ≠ b := by
        rintro u q has rfl
        cases inv.apart (Point.buffer_request has) (now ▸ rfl : (s.point t).buffer = _)
        cases has.symm.trans new
      have book : Book (update s.request t (some ⟨b, c, .allocated⟩)) s₁.disk := by
        rw [disk']
        exact inv.book.alloc new rfl nodup bounded unused apart free
      refine inv.within inside (run _) own (.inl (lock.trans (inv.exclusive inside))) (now ▸ rfl) nofun book used
        (fun b _ => congrFun onDisk b) (fun b on => (congrFun onDisk b).trans on) (by rw [new]; rfl) (by simp [new])

theorem Inv.format (now : s.point t = .formats b write c) :
    Move s t { s.go t (.offers b c) with disk := s.disk.format b write c } := by
  have mine : s.request t = some ⟨b, c, .allocated⟩ := congrArg Point.request now
  have inside : (s.point t).Inside := now ▸ trivial
  have own := go_self s t (.offers b c)
  refine inv.within inside (go_rests s t _) own (.inl (inv.exclusive inside)) (now ▸ rfl) nofun (inv.book.format mine) rfl
    ?_ ?_ ?_ ?_
  · intro b' other
    refine update_of_ne ?_ ..
    rintro rfl
    exact other (now ▸ rfl)
  · intro b' on
    by_cases same : b' = b <;> simp [Disk.format, same, on]
  · rw [mine]
    rfl
  · intro r has waited
    cases mine.symm.trans has
    cases waited.1

theorem Inv.finish (now : s.point t = .finishes b c) : ∃ next, s.run t = .ok (some next) ∧ Move s t next := by
  have mine : s.request t = some ⟨b, c, .finishing⟩ := congrArg Point.request now
  have inside : (s.point t).Inside := now ▸ trivial
  have chains := inv.book.chains
  have linked : s.disk.Linked c b := (inv.book.ready mine).linked nofun
  obtain ⟨s₁, ran, rests, lock, disk, desc, free⟩ := freeChain_spec (s := { s with disk := s.disk.forget c.head })
    (chains.nodup mine) (fun i mem => chains.bounded mine mem) (fun i mem => chains.taken mine mem) linked rfl
  have own := go_self s₁ t .idle
  have rests' : ∀ u, u ≠ t → Rests s (s₁.release t .idle) u := fun u other => (rests u).trans (go_rests s₁ t .idle u other)
  have onDisk : s₁.disk.onDisk = s.disk.onDisk := by rw [disk]; rfl
  refine ⟨s₁.release t .idle, ?_, ?_⟩
  · simp only [State.run, now, ran, bind, Except.bind, pure, Except.pure]
  · constructor
    · exact rests'
    · rw [request_of_rests rests' (congrArg Point.request own)]
      exact inv.book.finish mine desc free disk
    · exact .inl (inv.exclusive inside)
    · intro at_p
      exact absurd (own ▸ at_p : (Point.idle : Point Buf).Inside) not_false
    · intro b' has
      cases (congrArg Point.buffer own).symm.trans has
    · rw [show (s₁.release t .idle).disk = s₁.disk from rfl, disk]
      rfl
    · intro at_takes
      cases own.symm.trans at_takes
    · exact fun b' _ => congrFun onDisk b'
    · exact fun b' on => (congrFun onDisk b').trans on
    · intro b' has
      exact .inr ⟨own, by rw [State.cleared, mine]; rfl⟩
    · intro r has waited
      cases mine.symm.trans has
      cases waited.1

theorem Inv.take (now : s.point t = .intrTakes) :
    ∃ u r, s.request u = some r ∧ r.Waited s.disk ∧ r.chain.head = s.disk.nextUsed ∧ s.clears (.run t) = some r.buf ∧
      s.run t = .ok (some (({ s with disk := s.disk.clear r.buf }.wakeup (.buf r.buf)).go t .intrLoops)) := by
  obtain ⟨u, r, has, waited, head⟩ := inv.book.next (inv.more now)
  refine ⟨u, r, has, waited, head, ?_, ?_⟩
  · have info := ((inv.book.ready has).linked (by simp [waited.1])).info
    simp only [State.clears, now]
    exact head ▸ info
  · simp only [State.run, now, inv.book.take (inv.more now) has waited head, bind, Except.bind, pure, Except.pure]

theorem Inv.take_advances (now : s.point t = .intrTakes) {r : Request Buf} (has : s.request u = some r)
    (waited : r.Waited s.disk) (head : r.chain.head = s.disk.nextUsed) (clears : s.clears (.run t) = some r.buf) :
    Advances s (.run t) (({ s with disk := s.disk.clear r.buf }.wakeup (.buf r.buf)).go t .intrLoops) := by
  have inside : (s.point t).Inside := now ▸ trivial
  have rests : ∀ v, v ≠ t → Rests s (({ s with disk := s.disk.clear r.buf }.wakeup (.buf r.buf)).go t .intrLoops) v :=
    fun v other => (wakeup_rests { s with disk := s.disk.clear r.buf } (.buf r.buf) v).trans (go_rests _ t _ v other)
  generalize next : ({ s with disk := s.disk.clear r.buf }.wakeup (.buf r.buf)).go t .intrLoops = s' at rests ⊢
  have disk : s'.disk = s.disk.clear r.buf := by rw [← next]; rfl
  have lock : s'.lock = s.lock := by rw [← next]; rfl
  have own : s'.point t = .intrLoops := by rw [← next]; exact go_self ..
  have request : s'.request = s.request := by
    rw [request_of_rests rests (congrArg Point.request own)]
    have none : s.request t = none := congrArg Point.request now
    exact (congrArg (update s.request t) none.symm).trans (update_eq_self ..)
  have buffer : ∀ v, (s'.point v).buffer = (s.point v).buffer := by
    intro v
    by_cases same : v = t
    · rw [same, own, now]
      rfl
    · exact (rests v same).buffer
  have first : s.disk.used = s.disk.nextUsed :: (s.disk.clear r.buf).used := Ring.window_pop (inv.more now)
  refine ⟨⟨?_, ?_, ?_, ?_⟩, ?_, ?_, ?_, ?_⟩
  · rw [request, disk]
    exact inv.book.clear (inv.more now) has waited head
  · intro v at_v
    rw [lock]
    by_cases same : v = t
    · exact same ▸ inv.exclusive inside
    · exact inv.exclusive ((rests v same).inside.mp at_v)
  · intro v w b mine mine'
    rw [buffer] at mine mine'
    exact inv.apart mine mine'
  · intro v at_takes
    by_cases same : v = t
    · cases own.symm.trans (same ▸ at_takes)
    · have before := (rests v same).intrTakes.mp at_takes
      have lock' := inv.exclusive (t := v) (before ▸ trivial)
      exact absurd (Option.some.inj (lock'.symm.trans (inv.exclusive inside))) same
  · intro v b mine
    have other : v ≠ t := by
      rintro rfl
      rw [now] at mine
      cases mine
    by_cases same : b = r.buf
    · subst same
      have own_request := inv.apart mine (Point.buffer_request has)
      subst own_request
      obtain ⟨b, c, stage⟩ := r
      obtain ⟨rfl, on⟩ : stage = .published ∧ s.disk.onDisk b = true := waited
      refine .inl ⟨(buffer v).trans mine, ?_⟩
      rw [if_pos clears, State.cleared, State.cleared, request, has, disk]
      simp [Disk.cleared, Disk.clear, on]
    · refine (rests v other).proceeds ?_ mine ?_
      · rw [disk]
        exact update_of_ne same ..
      · rw [clears]
        exact fun equal => same (Option.some.inj equal).symm
  · intro v q mine _
    rw [request]
    exact mine
  · intro b on off
    rw [disk] at off
    by_cases same : b = r.buf
    · exact same ▸ clears
    · rw [show (s.disk.clear r.buf).onDisk b = s.disk.onDisk b from update_of_ne same .., on] at off
      cases off
  · intro h mem
    rw [disk] at mem
    exact .inl (first ▸ mem_cons_of_mem _ mem)

theorem Inv.run (t : Tid) : ∃ next, s.run t = .ok next ∧ ∀ s', next = some s' → Advances s (.run t) s' := by
  cases now : s.point t with
  | idle => exact ⟨none, by simp only [State.run, now]; rfl, nofun⟩
  | enters b write =>
    refine ⟨s.acquire t (.allocs b write), by simp only [State.run, now]; rfl, fun s' acquired => ?_⟩
    exact (inv.acquire acquired (congrArg Point.request now).symm (now ▸ rfl) nofun).advances inv (by simp [State.clears, now])
  | allocs b write =>
    obtain ⟨s', ran, move⟩ := inv.alloc now
    refine ⟨some s', ran, fun _ same => ?_⟩
    cases same
    exact move.advances inv (by simp [State.clears, now])
  | allocSleeps b write woken =>
    refine ⟨_, by simp only [State.run, now]; rfl, fun s' ran => ?_⟩
    cases woken with
    | false => cases ran
    | true =>
      exact (inv.acquire ran (congrArg Point.request now).symm (now ▸ rfl) nofun).advances inv (by simp [State.clears, now])
  | formats b write c =>
    refine ⟨_, by simp only [State.run, now]; rfl, fun s' ran => ?_⟩
    cases ran
    exact (inv.format now).advances inv (by simp [State.clears, now])
  | offers b c =>
    refine ⟨_, by simp only [State.run, now]; rfl, fun s' ran => ?_⟩
    cases ran
    exact (inv.offer now).advances inv (by simp [State.clears, now])
  | publishes b c =>
    refine ⟨_, by simp only [State.run, now]; rfl, fun s' ran => ?_⟩
    cases ran
    exact (inv.publish now).advances inv (by simp [State.clears, now])
  | waits b c =>
    cases on : s.disk.onDisk b with
    | true =>
      refine ⟨some (s.release t (.diskSleeps b c false)), by simp only [State.run, now, on]; rfl, fun s' ran => ?_⟩
      cases ran
      have move := inv.release (t := t) (p := .diskSleeps b c false) (now ▸ trivial) (congrArg Point.request now).symm
        (now ▸ rfl) not_false
      exact move.advances inv (by simp [State.clears, now])
    | false =>
      refine ⟨some (s.go t (.finishes b c)), by simp only [State.run, now, on]; rfl, fun s' ran => ?_⟩
      cases ran
      exact (inv.leave now on).advances inv (by simp [State.clears, now])
  | diskSleeps b c woken =>
    refine ⟨_, by simp only [State.run, now]; rfl, fun s' ran => ?_⟩
    cases woken with
    | false => cases ran
    | true =>
      exact (inv.acquire ran (congrArg Point.request now).symm (now ▸ rfl) nofun).advances inv (by simp [State.clears, now])
  | finishes b c =>
    obtain ⟨s', ran, move⟩ := inv.finish now
    refine ⟨some s', ran, fun _ same => ?_⟩
    cases same
    exact move.advances inv (by simp [State.clears, now])
  | intrEnters =>
    refine ⟨s.acquire t .intrLoops, by simp only [State.run, now]; rfl, fun s' acquired => ?_⟩
    exact (inv.acquire acquired (congrArg Point.request now).symm (now ▸ rfl) nofun).advances inv (by simp [State.clears, now])
  | intrLoops =>
    have inside : (s.point t).Inside := now ▸ trivial
    by_cases more : s.disk.seenIdx = s.disk.usedIdx
    · refine ⟨some (s.release t .idle), by simp only [State.run, now, more, ne_eq, not_true_eq_false]; rfl, fun s' ran => ?_⟩
      cases ran
      have move := inv.release (p := .idle) inside (congrArg Point.request now).symm (now ▸ rfl) not_false
      exact move.advances inv (by simp [State.clears, now])
    · refine ⟨some (s.go t .intrTakes), by simp only [State.run, now, ne_eq, more]; rfl, fun s' ran => ?_⟩
      cases ran
      have own := go_self s t .intrTakes
      have first : s.disk.used = _ :: _ := Ring.window_pop more
      have move : Move s t (s.go t .intrTakes) := by
        refine inv.shift (go_rests s t _) rfl ?_ ?_ (.inl (inv.exclusive inside)) (fun _ => inv.exclusive inside) fun _ => ?_
        · exact (congrArg Point.request own).trans (congrArg Point.request now).symm
        · exact (congrArg Point.buffer own).trans (congrArg Point.buffer now).symm
        · simp [first]
      exact move.advances inv (by simp [State.clears, now])
  | intrTakes =>
    obtain ⟨u, r, has, waited, head, clears, ran⟩ := inv.take now
    refine ⟨_, ran, fun s' same => ?_⟩
    cases same
    exact inv.take_advances now has waited head clears

theorem Inv.step (fresh : e.Fresh s) : ∃ next, s.step e = .ok next ∧ ∀ s', next = some s' → Advances s e s' := by
  cases e with
  | call t call =>
    by_cases idle : s.point t = .idle
    · cases call with
      | rw b write =>
        refine ⟨some (s.go t (.enters b write)), by simp only [State.step, idle]; rfl, fun s' same => ?_⟩
        cases same
        have move : Move s t (s.go t (.enters b write)) := by
          refine inv.called idle rfl not_false fun b' mine => ?_
          cases mine
          exact fresh
        exact move.advances inv rfl
      | intr =>
        refine ⟨some (s.go t .intrEnters), by simp only [State.step, idle]; rfl, fun s' same => ?_⟩
        cases same
        have move : Move s t (s.go t .intrEnters) := inv.called idle rfl not_false nofun
        exact move.advances inv rfl
    · refine ⟨none, ?_, nofun⟩
      simp only [State.step]
      split
      · contradiction
      · contradiction
      · rfl
  | run t => exact inv.run t
  | kill t =>
    refine ⟨some (s.go t (s.point t).woken), rfl, fun s' same => ?_⟩
    cases same
    have rests : Rests s (s.go t (s.point t).woken) t := .inr (go_self ..)
    have move : Move s t (s.go t (s.point t).woken) := inv.shift (go_rests s t _) rfl rests.request rests.buffer
      (.inr (.inr rfl)) (fun inside => inv.exclusive (rests.inside.mp inside))
      (fun at_takes => inv.takes (rests.intrTakes.mp at_takes))
    exact move.advances inv rfl
  | fetch =>
    refine ⟨_, rfl, fun s' same => ?_⟩
    obtain ⟨disk, fetched, rfl⟩ := Option.map_eq_some_iff.mp same
    obtain ⟨onDisk, used⟩ := Disk.fetch_keeps fetched
    exact inv.device (inv.book.fetch fetched) onDisk (fun some => used ▸ some) (fun h mem => .inl (used ▸ mem)) rfl
  | complete head =>
    by_cases mem : head ∈ s.disk.fetched
    · refine ⟨some { s with disk := s.disk.report head head }, ?_, fun s' same => ?_⟩
      · simp only [State.step, inv.book.complete mem, bind, Except.bind, pure, Except.pure, Option.map_some]
      · cases same
        have used := inv.book.report_used mem head
        refine inv.device (inv.book.report mem) rfl (fun _ => by simp [used]) (fun h found => ?_) rfl
        rw [used] at found
        rcases mem_append.mp found with old | new
        · exact .inl old
        · exact .inr (congrArg _ (mem_singleton.mp new).symm)
    · refine ⟨none, ?_, nofun⟩
      simp only [State.step, Disk.complete, mem, if_false, bind, Except.bind, pure, Except.pure, Option.map_none]

end

end Steps

end DeisoXv6.Virtio
