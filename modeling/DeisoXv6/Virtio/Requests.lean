import DeisoXv6.Virtio.Driver

/-! The requests in flight, whoever has made them, and what the driver and the device have on record about them:
who has which descriptors, and where a request is on its way from the avail ring over the device to the used ring.
Each operation of virtio_disk.c moves one request to its next stage. -/

set_option autoImplicit false

namespace DeisoXv6.Virtio

open List Function Ring

inductive Stage where
  | allocated
  | formatted
  | offered
  | published
  | finishing
  deriving DecidableEq

structure Request (Buf : Type) where
  buf : Buf
  chain : Chain
  stage : Stage

def Chain.descs (c : Chain) : List Nat := [c.head, c.data, c.status]

theorem Chain.head_mem (c : Chain) : c.head ∈ c.descs := by simp [Chain.descs]

theorem Chain.data_mem (c : Chain) : c.data ∈ c.descs := by simp [Chain.descs]

theorem Chain.status_mem (c : Chain) : c.status ∈ c.descs := by simp [Chain.descs]

variable {c : Chain} {h : Nat}

section Owners

variable {Tid Buf : Type} {req req' : Tid → Option (Request Buf)} {free free' : Nat → Bool} {t : Tid}
  {r q : Request Buf}

/-- The descriptors that are not free are those of the requests, and requests share neither descriptors nor
buffers. -/
structure Chains (req : Tid → Option (Request Buf)) (free : Nat → Bool) : Prop where
  nodup : ∀ {t r}, req t = some r → r.chain.descs.Nodup
  bounded : ∀ {t r i}, req t = some r → i ∈ r.chain.descs → i < NUM
  taken : ∀ {t r i}, req t = some r → i ∈ r.chain.descs → free i = false
  owned : ∀ {i}, i < NUM → free i = false → ∃ t r, req t = some r ∧ i ∈ r.chain.descs
  disjoint : ∀ {t u r q i}, req t = some r → req u = some q → i ∈ r.chain.descs → i ∈ q.chain.descs → t = u
  apart : ∀ {t u r q}, req t = some r → req u = some q → r.buf = q.buf → t = u

variable [DecidableEq Tid]

theorem update_eq_some {v : Option (Request Buf)} {u : Tid} :
    update req t v u = some q ↔ u = t ∧ v = some q ∨ u ≠ t ∧ req u = some q := by
  by_cases same : u = t
  · subst same
    simp
  · simp [same]

theorem Chains.alloc (chains : Chains req free) (new : req t = none) (nodup : r.chain.descs.Nodup)
    (bounded : ∀ i ∈ r.chain.descs, i < NUM) (free_before : ∀ i ∈ r.chain.descs, free i = true)
    (apart : ∀ u q, req u = some q → q.buf ≠ r.buf)
    (taken : ∀ i, free' i = if i ∈ r.chain.descs then false else free i) : Chains (update req t (some r)) free' := by
  have fresh : ∀ {u q i}, req u = some q → i ∈ q.chain.descs → i ∉ r.chain.descs := fun has mem mine =>
    absurd (chains.taken has mem) (by simp [free_before _ mine])
  constructor
  · intro u q has
    rcases update_eq_some.mp has with ⟨-, ⟨⟩⟩ | ⟨-, has⟩
    · exact nodup
    · exact chains.nodup has
  · intro u q i has mem
    rcases update_eq_some.mp has with ⟨-, ⟨⟩⟩ | ⟨-, has⟩
    · exact bounded i mem
    · exact chains.bounded has mem
  · intro u q i has mem
    rw [taken]
    rcases update_eq_some.mp has with ⟨-, ⟨⟩⟩ | ⟨-, has⟩
    · exact if_pos mem
    · exact (if_neg (fresh has mem)).trans (chains.taken has mem)
  · intro i less busy
    rw [taken] at busy
    by_cases mine : i ∈ r.chain.descs
    · exact ⟨t, r, update_self .., mine⟩
    · obtain ⟨u, q, has, mem⟩ := chains.owned less ((if_neg mine).symm.trans busy)
      have other : u ≠ t := fun same => by simp [same, new] at has
      exact ⟨u, q, (update_of_ne other ..).trans has, mem⟩
  · intro u v q q' i has has' mem mem'
    rcases update_eq_some.mp has with ⟨rfl, ⟨⟩⟩ | ⟨-, old⟩ <;> rcases update_eq_some.mp has' with ⟨rfl, ⟨⟩⟩ | ⟨-, old'⟩
    · rfl
    · exact absurd mem (fresh old' mem')
    · exact absurd mem' (fresh old mem)
    · exact chains.disjoint old old' mem mem'
  · intro u v q q' has has' same
    rcases update_eq_some.mp has with ⟨rfl, ⟨⟩⟩ | ⟨-, old⟩ <;> rcases update_eq_some.mp has' with ⟨rfl, ⟨⟩⟩ | ⟨-, old'⟩
    · rfl
    · exact absurd same.symm (apart _ _ old')
    · exact absurd same (apart _ _ old)
    · exact chains.apart old old' same

theorem Chains.finish (chains : Chains req free) (mine : req t = some r)
    (freed : ∀ i, free' i = if i ∈ r.chain.descs then true else free i) : Chains (update req t none) free' := by
  have other : ∀ {u q}, update req t none u = some q → u ≠ t ∧ req u = some q := by
    intro u q has
    rcases update_eq_some.mp has with ⟨-, ⟨⟩⟩ | found
    exact found
  constructor
  · exact fun has => chains.nodup (other has).2
  · exact fun has => chains.bounded (other has).2
  · intro u q i has mem
    obtain ⟨ne, has⟩ := other has
    rw [freed, if_neg fun shared => ne (chains.disjoint has mine mem shared)]
    exact chains.taken has mem
  · intro i less busy
    rw [freed] at busy
    split at busy
    · contradiction
    · rename_i outside
      obtain ⟨u, q, has, mem⟩ := chains.owned less busy
      have ne : u ≠ t := by
        rintro rfl
        cases mine.symm.trans has
        exact outside mem
      exact ⟨u, q, (update_of_ne ne ..).trans has, mem⟩
  · exact fun has has' => chains.disjoint (other has).2 (other has').2
  · exact fun has has' => chains.apart (other has).2 (other has').2

theorem Chains.restage (chains : Chains req free) {b : Buf} {c : Chain} {stage stage' : Stage}
    (mine : req t = some ⟨b, c, stage⟩) : Chains (update req t (some ⟨b, c, stage'⟩)) free := by
  have before : ∀ {u q}, update req t (some ⟨b, c, stage'⟩) u = some q →
      ∃ q', req u = some q' ∧ q'.chain = q.chain ∧ q'.buf = q.buf := by
    intro u q has
    rcases update_eq_some.mp has with ⟨rfl, ⟨⟩⟩ | ⟨-, has⟩
    · exact ⟨_, mine, rfl, rfl⟩
    · exact ⟨q, has, rfl, rfl⟩
  constructor
  · intro u q has
    obtain ⟨q', has, chain, -⟩ := before has
    exact chain ▸ chains.nodup has
  · intro u q i has mem
    obtain ⟨q', has, chain, -⟩ := before has
    exact chains.bounded has (chain ▸ mem)
  · intro u q i has mem
    obtain ⟨q', has, chain, -⟩ := before has
    exact chains.taken has (chain ▸ mem)
  · intro i less busy
    obtain ⟨u, q, has, mem⟩ := chains.owned less busy
    by_cases same : u = t
    · subst same
      cases mine.symm.trans has
      exact ⟨u, _, update_self .., mem⟩
    · exact ⟨u, q, (update_of_ne same ..).trans has, mem⟩
  · intro u v q p i has has' mem mem'
    obtain ⟨q', has, chain, -⟩ := before has
    obtain ⟨p', has', chain', -⟩ := before has'
    exact chains.disjoint has has' (chain ▸ mem) (chain' ▸ mem')
  · intro u v q p has has' same
    obtain ⟨q', has, -, buf⟩ := before has
    obtain ⟨p', has', -, buf'⟩ := before has'
    exact chains.apart has has' (buf.trans (same.trans buf'.symm))

end Owners

namespace Disk

variable {Buf : Type}

/-- The chains on the avail ring that the device has not read. -/
def avail (disk : Disk Buf) : List Nat := window disk.availRing disk.lastAvail disk.availIdx

/-- The chains on the used ring that the driver has not looked at. -/
def used (disk : Disk Buf) : List Nat := window disk.usedRing disk.seenIdx disk.usedIdx

/-- Every chain between the driver's `disk.avail->idx += 1` and its look at the used ring. -/
def pending (disk : Disk Buf) : List Nat := disk.avail ++ disk.fetched ++ disk.used

/-- The descriptors of a chain point to one another, and `disk.info` names the buffer. -/
structure Linked (disk : Disk Buf) (c : Chain) (b : Buf) : Prop where
  head_next : (disk.desc c.head).flags.next = true
  head_data : (disk.desc c.head).next = c.data
  data_next : (disk.desc c.data).flags.next = true
  data_status : (disk.desc c.data).next = c.status
  status_last : (disk.desc c.status).flags.next = false
  status_addr : (disk.desc c.status).addr = .status c.head
  info : (disk.info c.head).b = some b

variable {disk disk' : Disk Buf} {b : Buf}

theorem Linked.congr (linked : disk.Linked c b) (desc : ∀ i ∈ c.descs, disk'.desc i = disk.desc i)
    (info : (disk'.info c.head).b = (disk.info c.head).b) : disk'.Linked c b where
  head_next := desc _ c.head_mem ▸ linked.head_next
  head_data := desc _ c.head_mem ▸ linked.head_data
  data_next := desc _ c.data_mem ▸ linked.data_next
  data_status := desc _ c.data_mem ▸ linked.data_status
  status_last := desc _ c.status_mem ▸ linked.status_last
  status_addr := desc _ c.status_mem ▸ linked.status_addr
  info := info.trans linked.info

end Disk

section Bookkeeping

variable {Tid Buf : Type} {disk disk' : Disk Buf} {r : Request Buf}

structure Request.Ready (disk : Disk Buf) (r : Request Buf) : Prop where
  linked : r.stage ≠ .allocated → disk.Linked r.chain r.buf
  set : r.stage = .formatted ∨ r.stage = .offered → disk.onDisk r.buf = true
  offered : r.stage = .offered → disk.availRing (slot NUM disk.availIdx) = r.chain.head
  clear : r.stage = .finishing → disk.onDisk r.buf = false

theorem Request.Ready.congr (ready : r.Ready disk) (desc : ∀ i ∈ r.chain.descs, disk'.desc i = disk.desc i)
    (info : (disk'.info r.chain.head).b = (disk.info r.chain.head).b)
    (onDisk : disk'.onDisk r.buf = disk.onDisk r.buf)
    (ring : r.stage = .offered → disk'.availRing (slot NUM disk'.availIdx) = disk.availRing (slot NUM disk.availIdx)) :
    r.Ready disk' where
  linked started := (ready.linked started).congr desc info
  set early := onDisk.trans (ready.set early)
  offered stage := (ring stage).trans (ready.offered stage)
  clear stage := onDisk.trans (ready.clear stage)

def Request.Waited (disk : Disk Buf) (r : Request Buf) : Prop := r.stage = .published ∧ disk.onDisk r.buf = true

structure Book (req : Tid → Option (Request Buf)) (disk : Disk Buf) : Prop where
  chains : Chains req disk.free
  ready : ∀ {t r}, req t = some r → r.Ready disk
  nodup : disk.pending.Nodup
  pending : ∀ {h}, h ∈ disk.pending ↔ ∃ t r, req t = some r ∧ r.chain.head = h ∧ r.Waited disk
  done : ∀ {h}, h ∈ disk.used → (disk.info h).status = 0

variable {req : Tid → Option (Request Buf)} {t u : Tid} {b : Buf} {q : Request Buf}

theorem Book.pending_bounded (book : Book req disk) : disk.pending.length ≤ NUM := by
  have within : disk.pending ⊆ List.range NUM := by
    intro h mem
    obtain ⟨t, r, has, rfl, -⟩ := book.pending.mp mem
    exact mem_range.mpr (book.chains.bounded has r.chain.head_mem)
  have := (book.nodup.subperm within).length_le
  rwa [length_range] at this

theorem Book.not_pending (book : Book req disk) (mine : req t = some r) (early : ¬r.Waited disk) :
    r.chain.head ∉ disk.pending := by
  intro mem
  obtain ⟨u, q, has, head, waited⟩ := book.pending.mp mem
  cases book.chains.disjoint has mine (head ▸ q.chain.head_mem) r.chain.head_mem
  cases mine.symm.trans has
  exact early waited

theorem Disk.used_pending (mem : h ∈ disk.used) : h ∈ disk.pending := mem_append_right _ mem

section

variable (book : Book req disk)

include book

theorem Book.avail_room (more : h ∉ disk.pending) (less : h < NUM) :
    (disk.availIdx - disk.lastAvail).toNat < NUM := by
  have within : h :: disk.pending ⊆ List.range NUM := by
    intro i mem
    rcases mem_cons.mp mem with rfl | mem
    · exact mem_range.mpr less
    · obtain ⟨t, r, has, rfl, -⟩ := book.pending.mp mem
      exact mem_range.mpr (book.chains.bounded has r.chain.head_mem)
  have bound := ((nodup_cons.mpr ⟨more, book.nodup⟩).subperm within).length_le
  rw [length_range, length_cons] at bound
  have length : disk.avail.length = (disk.availIdx - disk.lastAvail).toNat := length_window
  simp only [Disk.pending, length_append] at bound
  omega

theorem Book.used_room (mem : h ∈ disk.fetched) : (disk.usedIdx - disk.seenIdx).toNat < NUM := by
  have bound := book.pending_bounded
  have some := length_pos_of_mem mem
  have length : disk.used.length = (disk.usedIdx - disk.seenIdx).toNat := length_window
  simp only [Disk.pending, length_append] at bound
  omega

theorem Book.blank {i : Nat} {d : Desc Buf} (unused : disk.free i = true)
    {free : Nat → Bool} (same : free = disk.free) :
    Book req { disk with desc := update disk.desc i d, free := free } where
  chains := same ▸ book.chains
  ready has := by
    refine (book.ready has).congr (fun j mem => update_of_ne ?_ ..) rfl rfl fun _ => rfl
    rintro rfl
    simp [book.chains.taken has mem] at unused
  nodup := book.nodup
  pending := book.pending
  done := book.done

theorem Book.reorder (order : disk'.pending.Perm disk.pending) (free : disk'.free = disk.free)
    (desc : disk'.desc = disk.desc) (info : ∀ i, (disk'.info i).b = (disk.info i).b)
    (onDisk : disk'.onDisk = disk.onDisk) (ring : disk'.availRing = disk.availRing)
    (idx : disk'.availIdx = disk.availIdx) (done : ∀ {h}, h ∈ disk'.used → (disk'.info h).status = 0) :
    Book req disk' where
  chains := free ▸ book.chains
  ready has := (book.ready has).congr (fun i _ => congrFun desc i) (info _) (congrFun onDisk _) fun _ => by rw [ring, idx]
  nodup := order.nodup_iff.mpr book.nodup
  pending := by
    intro h
    rw [order.mem_iff, book.pending]
    simp only [Request.Waited, onDisk]
  done := done

theorem Book.offer_pending (mine : req t = some ⟨b, c, .formatted⟩) : (disk.offer c).pending = disk.pending := by
  have room := book.avail_room (book.not_pending mine nofun) (book.chains.bounded mine c.head_mem)
  have same : (disk.offer c).avail = disk.avail := window_store (by decide) room _
  unfold Disk.pending
  rw [same]
  rfl

theorem Book.publish_pending (mine : req t = some ⟨b, c, .offered⟩) :
    disk.publish.pending.Perm (c.head :: disk.pending) := by
  have room := book.avail_room (book.not_pending mine nofun) (book.chains.bounded mine c.head_mem)
  have longer : disk.publish.avail = disk.avail ++ [c.head] := by
    have last : disk.availRing (slot NUM disk.availIdx) = c.head := (book.ready mine).offered rfl
    rw [← last]
    have wide : (disk.availIdx - disk.lastAvail).toNat + 1 < 2 ^ 16 := by
      unfold NUM at room
      omega
    exact window_succ wide
  have split : disk.publish.pending = disk.avail ++ c.head :: (disk.fetched ++ disk.used) := by
    unfold Disk.pending
    rw [longer, append_assoc, append_assoc]
    rfl
  rw [split, Disk.pending, append_assoc]
  exact perm_middle

end

end Bookkeeping

section Operations

variable {Tid Buf : Type} [DecidableEq Tid] {req : Tid → Option (Request Buf)} {disk disk' : Disk Buf} {t u : Tid}
  {b : Buf} {r q : Request Buf}

section

variable (book : Book req disk)

include book

theorem Book.pending_of (same : disk'.pending = disk.pending)
    (mine : ∀ r, req t = some r → ¬r.Waited disk) (quiet : ¬r.Waited disk')
    (others : ∀ u q, u ≠ t → req u = some q → disk'.onDisk q.buf = disk.onDisk q.buf) :
    h ∈ disk'.pending ↔ ∃ u q, update req t (some r) u = some q ∧ q.chain.head = h ∧ q.Waited disk' := by
  rw [same, book.pending]
  constructor
  · rintro ⟨u, q, has, head, stage, set⟩
    by_cases own : u = t
    · subst own
      exact absurd ⟨stage, set⟩ (mine q has)
    · exact ⟨u, q, (update_of_ne own ..).trans has, head, stage, (others u q own has).trans set⟩
  · rintro ⟨u, q, has, head, stage, set⟩
    rcases update_eq_some.mp has with ⟨-, ⟨⟩⟩ | ⟨own, has⟩
    · exact absurd ⟨stage, set⟩ quiet
    · exact ⟨u, q, has, head, stage, (others u q own has).symm.trans set⟩

theorem Book.alloc (new : req t = none) (stage : r.stage = .allocated)
    (nodup : r.chain.descs.Nodup) (bounded : ∀ i ∈ r.chain.descs, i < NUM)
    (free_before : ∀ i ∈ r.chain.descs, disk.free i = true) (apart : ∀ u q, req u = some q → q.buf ≠ r.buf)
    {free : Nat → Bool} (taken : ∀ i, free i = if i ∈ r.chain.descs then false else disk.free i) :
    Book (update req t (some r)) { disk with free := free } where
  chains := book.chains.alloc new nodup bounded free_before apart taken
  ready has := by
    rcases update_eq_some.mp has with ⟨-, ⟨⟩⟩ | ⟨-, has⟩
    · constructor <;> simp [stage]
    · exact (book.ready has).congr (fun _ _ => rfl) rfl rfl fun _ => rfl
  nodup := book.nodup
  pending := by
    refine book.pending_of rfl (fun r has => ?_) (fun waited => ?_) (fun _ _ _ _ => rfl)
    · rw [new] at has
      cases has
    · cases stage.symm.trans waited.1
  done := book.done

theorem Book.offer (mine : req t = some ⟨b, c, .formatted⟩)
    (alone : ∀ u q, req u = some q → q.stage = .offered → u = t) :
    Book (update req t (some ⟨b, c, .offered⟩)) (disk.offer c) where
  chains := book.chains.restage mine
  ready has := by
    rcases update_eq_some.mp has with ⟨-, ⟨⟩⟩ | ⟨other, has⟩
    · have ready := book.ready mine
      refine ⟨fun _ => ?_, fun _ => ready.set (.inl rfl), fun _ => update_self .., nofun⟩
      exact (ready.linked nofun).congr (fun _ _ => rfl) rfl
    · exact (book.ready has).congr (fun _ _ => rfl) rfl rfl fun stage => absurd (alone _ _ has stage) other
  nodup := book.offer_pending mine ▸ book.nodup
  pending := by
    refine book.pending_of (book.offer_pending mine) (fun r has waited => ?_) nofun fun _ _ _ _ => rfl
    cases mine.symm.trans has
    cases waited.1
  done := book.done

theorem Book.publish (mine : req t = some ⟨b, c, .offered⟩)
    (alone : ∀ u q, req u = some q → q.stage = .offered → u = t) :
    Book (update req t (some ⟨b, c, .published⟩)) disk.publish where
  chains := book.chains.restage mine
  ready has := by
    rcases update_eq_some.mp has with ⟨-, ⟨⟩⟩ | ⟨other, has⟩
    · exact ⟨fun _ => ((book.ready mine).linked nofun).congr (fun _ _ => rfl) rfl, nofun, nofun, nofun⟩
    · exact (book.ready has).congr (fun _ _ => rfl) rfl rfl fun stage => absurd (alone _ _ has stage) other
  nodup := (book.publish_pending mine).nodup_iff.mpr (nodup_cons.mpr ⟨book.not_pending mine nofun, book.nodup⟩)
  pending := by
    intro h
    rw [(book.publish_pending mine).mem_iff, mem_cons, book.pending]
    constructor
    · rintro (rfl | ⟨u, q, has, head, waited⟩)
      · exact ⟨t, _, update_self .., rfl, rfl, (book.ready mine).set (.inr rfl)⟩
      · have other : u ≠ t := by
          rintro rfl
          cases mine.symm.trans has
          cases waited.1
        exact ⟨u, q, (update_of_ne other ..).trans has, head, waited⟩
    · rintro ⟨u, q, has, head, waited⟩
      rcases update_eq_some.mp has with ⟨-, ⟨⟩⟩ | ⟨-, has⟩
      · exact .inl head.symm
      · exact .inr ⟨u, q, has, head, waited⟩
  done := book.done

theorem Book.leave (mine : req t = some ⟨b, c, .published⟩) (clear : disk.onDisk b = false) :
    Book (update req t (some ⟨b, c, .finishing⟩)) disk where
  chains := book.chains.restage mine
  ready has := by
    rcases update_eq_some.mp has with ⟨-, ⟨⟩⟩ | ⟨-, has⟩
    · exact ⟨fun _ => (book.ready mine).linked nofun, nofun, nofun, fun _ => clear⟩
    · exact book.ready has
  nodup := book.nodup
  pending := by
    refine book.pending_of rfl (fun r has waited => ?_) nofun fun _ _ _ _ => rfl
    cases mine.symm.trans has
    cases clear.symm.trans waited.2
  done := book.done

theorem Book.finish (mine : req t = some ⟨b, c, .finishing⟩)
    (desc : ∀ i, i ∉ c.descs → disk'.desc i = disk.desc i) (free : ∀ i, disk'.free i = if i ∈ c.descs then true else disk.free i)
    (rest : disk' = { disk.forget c.head with desc := disk'.desc, free := disk'.free }) :
    Book (update req t none) disk' := by
  have pending : disk'.pending = disk.pending := by rw [rest]; rfl
  have onDisk : disk'.onDisk = disk.onDisk := by rw [rest]; rfl
  have other : ∀ {u q}, update req t none u = some q → u ≠ t ∧ req u = some q := by
    intro u q has
    rcases update_eq_some.mp has with ⟨-, ⟨⟩⟩ | found
    exact found
  constructor
  · exact book.chains.finish mine free
  · intro u q has
    obtain ⟨ne, has⟩ := other has
    have outside : ∀ i ∈ q.chain.descs, i ∉ c.descs := fun i mem shared => ne (book.chains.disjoint has mine mem shared)
    refine (book.ready has).congr (fun i mem => desc i (outside i mem)) ?_ (congrFun onDisk _) fun _ => ?_
    · have ne : q.chain.head ≠ c.head := fun same => outside _ q.chain.head_mem (same ▸ c.head_mem)
      rw [rest]
      simp [Disk.forget, ne]
    · rw [rest]
      rfl
  · exact pending ▸ book.nodup
  · intro h
    rw [pending, book.pending]
    simp only [Request.Waited, onDisk]
    constructor
    · rintro ⟨u, q, has, head, stage, set⟩
      have ne : u ≠ t := by
        rintro rfl
        cases mine.symm.trans has
        cases stage
      exact ⟨u, q, (update_of_ne ne ..).trans has, head, stage, set⟩
    · rintro ⟨u, q, has, found⟩
      exact ⟨u, q, (other has).2, found⟩
  · intro h mem
    have status : (disk'.info h).status = (disk.info h).status := by
      rw [rest]
      by_cases same : h = c.head
      · subst same
        simp [Disk.forget]
      · simp [Disk.forget, same]
    have before : h ∈ disk.used := by
      rw [rest] at mem
      exact mem
    rw [status]
    exact book.done before

end

variable [DecidableEq Buf]

theorem Disk.format_desc {write : Bool} {i : Nat} (outside : i ∉ c.descs) : (disk.format b write c).desc i = disk.desc i := by
  simp only [Chain.descs, mem_cons, not_mem_nil, or_false, not_or] at outside
  obtain ⟨head, data, status⟩ := outside
  simp [Disk.format, head, data, status]

theorem Disk.format_linked {write : Bool} (nodup : c.descs.Nodup) : (disk.format b write c).Linked c b := by
  simp only [Chain.descs, nodup_cons, mem_cons, not_mem_nil, or_false, not_or] at nodup
  obtain ⟨⟨data, status⟩, later, -⟩ := nodup
  constructor <;> simp [Disk.format, data, status, later]

theorem Book.format (book : Book req disk) {write : Bool} (mine : req t = some ⟨b, c, .allocated⟩) :
    Book (update req t (some ⟨b, c, .formatted⟩)) (disk.format b write c) where
  chains := book.chains.restage mine
  ready has := by
    rcases update_eq_some.mp has with ⟨-, ⟨⟩⟩ | ⟨other, has⟩
    · refine ⟨fun _ => Disk.format_linked (book.chains.nodup mine), fun _ => ?_, nofun, nofun⟩
      simp [Disk.format]
    · have outside : ∀ i ∈ _, i ∉ c.descs := fun i mem shared => other (book.chains.disjoint has mine mem shared)
      refine (book.ready has).congr (fun i mem => Disk.format_desc (outside i mem)) ?_ ?_ fun _ => rfl
      · refine congrArg Info.b (update_of_ne (fun same => ?_) ..)
        exact outside _ (Chain.head_mem _) (same ▸ c.head_mem)
      · exact update_of_ne (fun same => other (book.chains.apart has mine same)) ..
  nodup := book.nodup
  pending := by
    refine book.pending_of rfl (fun r has waited => ?_) nofun fun u q other has => ?_
    · cases mine.symm.trans has
      cases waited.1
    · exact update_of_ne (fun same => other (book.chains.apart has mine same)) ..
  done := by
    intro h mem
    have ne : h ≠ c.head := by
      rintro rfl
      exact book.not_pending mine nofun (Disk.used_pending mem)
    simpa [Disk.format, ne] using book.done mem

end Operations

section Device

variable {Tid Buf : Type} {req : Tid → Option (Request Buf)} {disk disk' : Disk Buf} {t : Tid} {b : Buf}

theorem Book.fetch (book : Book req disk) (fetched : disk.fetch = some disk') : Book req disk' := by
  unfold Disk.fetch at fetched
  split at fetched
  · cases fetched
  · rename_i more
    cases fetched
    have first : disk.avail = _ :: _ := window_pop more
    refine book.reorder ?_ rfl rfl (fun _ => rfl) rfl rfl rfl book.done
    unfold Disk.pending
    rw [first]
    refine List.Perm.append_right _ ?_
    rw [← append_assoc]
    exact perm_append_singleton ..

theorem Disk.fetch_keeps (fetched : disk.fetch = some disk') : disk'.onDisk = disk.onDisk ∧ disk'.used = disk.used := by
  unfold Disk.fetch at fetched
  split at fetched
  · cases fetched
  · cases fetched
    exact ⟨rfl, rfl⟩

section

variable (book : Book req disk) (mem : h ∈ disk.fetched)

include book mem

theorem Book.report_used (i : Nat) : (disk.report i h).used = disk.used ++ [h] :=
  window_push (by decide) (by decide) (book.used_room mem) h

theorem Book.report : Book req (disk.report h h) := by
  have used := book.report_used mem h
  have moved : (disk.fetched.erase h ++ (disk.used ++ [h])).Perm (disk.fetched ++ disk.used) := by
    have back := (perm_cons_erase mem).symm.append_right disk.used
    rw [← append_assoc]
    exact (perm_append_singleton ..).trans back
  refine book.reorder ?_ rfl rfl (fun i => ?_) rfl rfl rfl fun {i} found => ?_
  · unfold Disk.pending
    rw [used, append_assoc, append_assoc]
    exact moved.append_left _
  · by_cases same : i = h <;> simp [Disk.report, same]
  · by_cases same : i = h
    · simp [Disk.report, same]
    · rw [used] at found
      have before : i ∈ disk.used := by simpa [same] using found
      simpa [Disk.report, same] using book.done before

theorem Book.complete : disk.complete h = .ok (some (disk.report h h)) := by
  have within : h ∈ disk.pending := mem_append_left _ (mem_append_right _ mem)
  obtain ⟨t, r, has, rfl, stage, -⟩ := book.pending.mp within
  have linked := (book.ready has).linked (by simp [stage])
  have place : (disk.desc (disk.desc (disk.desc r.chain.head).next).next).addr = .status r.chain.head := by
    rw [linked.head_data, linked.data_status, linked.status_addr]
  rw [Disk.complete, if_pos mem]
  split
  · rename_i i found
    cases place.symm.trans found
    rfl
  · rename_i wild
    exact absurd place (wild _)

end

theorem Book.next (book : Book req disk) (more : disk.seenIdx ≠ disk.usedIdx) :
    ∃ t r, req t = some r ∧ r.Waited disk ∧ r.chain.head = disk.nextUsed := by
  have first : disk.used = disk.nextUsed :: _ := window_pop more
  have mem : disk.nextUsed ∈ disk.used := by simp [first]
  obtain ⟨t, r, has, head, waited⟩ := book.pending.mp (Disk.used_pending mem)
  exact ⟨t, r, has, waited, head⟩

variable [DecidableEq Buf] {r : Request Buf}

theorem Book.take (book : Book req disk) (more : disk.seenIdx ≠ disk.usedIdx) (has : req t = some r)
    (waited : r.Waited disk) (head : r.chain.head = disk.nextUsed) : disk.take = .ok (r.buf, disk.clear r.buf) := by
  have first : disk.used = disk.nextUsed :: _ := window_pop more
  have status : (disk.info disk.nextUsed).status = 0 := book.done (by simp [first])
  have info : (disk.info disk.nextUsed).b = some r.buf := head ▸ ((book.ready has).linked (by simp [waited.1])).info
  rw [Disk.take, if_neg (not_not.mpr status), info]
  rfl

theorem Book.clear (book : Book req disk) (more : disk.seenIdx ≠ disk.usedIdx) (has : req t = some r)
    (waited : r.Waited disk) (head : r.chain.head = disk.nextUsed) : Book req (disk.clear r.buf) := by
  have first : disk.used = disk.nextUsed :: (disk.clear r.buf).used := window_pop more
  have pending : disk.pending.Perm (r.chain.head :: (disk.clear r.buf).pending) := by
    unfold Disk.pending
    rw [first, head]
    exact perm_middle
  have nodup := nodup_cons.mp (pending.nodup_iff.mp book.nodup)
  have onDisk : ∀ {u q}, req u = some q → q.chain.head ≠ r.chain.head → (disk.clear r.buf).onDisk q.buf = disk.onDisk q.buf := by
    intro u q mine ne
    refine update_of_ne (fun same => ?_) ..
    cases book.chains.apart mine has same
    cases mine.symm.trans has
    exact ne rfl
  constructor
  · exact book.chains
  · intro u q mine
    by_cases same : q.chain.head = r.chain.head
    · cases book.chains.disjoint mine has (same ▸ q.chain.head_mem) r.chain.head_mem
      cases mine.symm.trans has
      have linked := (book.ready has).linked (by simp [waited.1])
      constructor <;> simp [waited.1]
      exact linked.congr (fun _ _ => rfl) rfl
    · exact (book.ready mine).congr (fun _ _ => rfl) rfl (onDisk mine same) fun _ => rfl
  · exact nodup.2
  · intro h
    have split : h ∈ (disk.clear r.buf).pending ↔ h ∈ disk.pending ∧ h ≠ r.chain.head := by
      rw [pending.mem_iff, mem_cons]
      refine ⟨fun mem => ⟨.inr mem, ?_⟩, fun both => both.1.resolve_left both.2⟩
      rintro rfl
      exact nodup.1 mem
    rw [split, book.pending]
    constructor
    · rintro ⟨⟨u, q, mine, rfl, stage, set⟩, ne⟩
      exact ⟨u, q, mine, rfl, stage, (onDisk mine ne).trans set⟩
    · rintro ⟨u, q, mine, rfl, stage, set⟩
      have ne : q.chain.head ≠ r.chain.head := by
        intro same
        cases book.chains.disjoint mine has (same ▸ q.chain.head_mem) r.chain.head_mem
        cases mine.symm.trans has
        simp [Disk.clear] at set
      exact ⟨⟨u, q, mine, rfl, stage, (onDisk mine ne).symm.trans set⟩, ne⟩
  · intro h mem
    exact book.done (by rw [first]; exact mem_cons_of_mem _ mem)

end Device

end DeisoXv6.Virtio
