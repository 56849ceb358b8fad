import DeisoXv6.Semantics.Trace
import DeisoXv6.Virtio.Interrupts

/-! Whole runs of the disk driver: any number of calls of virtio_disk_rw on distinct buffers and of
virtio_disk_intr, and a device that completes what it has fetched in any order. -/

set_option autoImplicit false

namespace DeisoXv6.Virtio

variable {Tid Buf : Type} [DecidableEq Tid] [DecidableEq Buf]

def State.next (s : State Tid Buf) (e : Event Tid Buf) : Option (State Tid Buf) :=
  match s.step e with
  | .ok next => next
  | .error _ => none

abbrev DiskRun (Tid Buf : Type) [DecidableEq Tid] [DecidableEq Buf] : Type :=
  Semantics.Trace (fun (s : State Tid Buf) (e : Event Tid Buf) => s.next e) fun s => ∃ blockno, s = .init blockno

namespace DiskRun

/-- Every call of virtio_disk_rw is on a buffer that is in no other call. -/
def Distinct (r : DiskRun Tid Buf) : Prop := ∀ i, i < r.length → (r.event i).Fresh (r.state i)

/-- `t` has called virtio_disk_rw on `b` at time `s` and not returned before time `i`. -/
structure Calls (r : DiskRun Tid Buf) (t : Tid) (b : Buf) (write : Bool) (s i : Nat) : Prop where
  later : s < i
  call : r.event s = .call t (.rw b write)
  inside : ∀ k, s < k → k < i → (r.state k).point t ≠ .idle

def clearings (r : DiskRun Tid Buf) (b : Buf) (s i : Nat) : Nat := r.count (fun st e => st.clears e = some b) s i

variable {r : DiskRun Tid Buf} {i : Nat}

theorem inv (r : DiskRun Tid Buf) (distinct : r.Distinct) (within : i ≤ r.length) : Inv (r.state i) := by
  refine r.invariant ?_ ?_ within
  · rintro s ⟨blockno, rfl⟩
    exact init_inv blockno
  · intro i less inv
    obtain ⟨next, ran, advances⟩ := inv.step (distinct i less)
    have step := r.step i less
    simp only [State.next, ran] at step
    exact (advances _ step).inv

theorem advances (r : DiskRun Tid Buf) (distinct : r.Distinct) (within : i < r.length) :
    Advances (r.state i) (r.event i) (r.state (i + 1)) := by
  obtain ⟨next, ran, advances⟩ := (r.inv distinct within.le).step (distinct i within)
  have step := r.step i within
  simp only [State.next, ran] at step
  exact advances _ step

variable {h s : Nat} {t : Tid} {b : Buf} {write : Bool}

theorem fetched (r : DiskRun Tid Buf) (within : i < r.length) (completes : r.event i = .complete h) :
    h ∈ (r.state i).disk.fetched := by
  by_contra missing
  have step := r.step i within
  simp only [State.next, State.step, completes, Disk.complete, missing, if_false, bind, Except.bind, pure, Except.pure,
    Option.map_none] at step
  cases step

theorem waited (r : DiskRun Tid Buf) (distinct : r.Distinct) (within : i < r.length) {u : Tid} {q : Request Buf}
    (has : (r.state i).request u = some q) (waited : q.Waited (r.state i).disk)
    (mem : q.chain.head ∈ (r.state (i + 1)).disk.pending) :
    (r.state (i + 1)).request u = some q ∧ q.Waited (r.state (i + 1)).disk := by
  have advances := r.advances distinct within
  have after := advances.waits u q has waited
  obtain ⟨v, p, has', head, waited'⟩ := advances.inv.book.pending.mp mem
  cases advances.inv.book.chains.disjoint has' after p.chain.head_mem (head ▸ q.chain.head_mem)
  cases has'.symm.trans after
  exact ⟨after, waited'⟩

/-- An entry of the used ring that the driver has not seen stands for a request that the device has completed and
whose process has waited for it ever since. -/
theorem completed (r : DiskRun Tid Buf) (distinct : r.Distinct) (within : i ≤ r.length)
    (mem : h ∈ (r.state i).disk.used) : ∃ j u q, j < i ∧ r.event j = .complete h ∧ q.chain.head = h ∧
      ∀ k, j ≤ k → k ≤ i → (r.state k).request u = some q ∧ q.Waited (r.state k).disk := by
  induction i with
  | zero =>
    obtain ⟨blockno, start⟩ := r.start
    rw [start] at mem
    simp [State.init, Disk.init, Disk.used] at mem
  | succ i ih =>
    have before : ∃ j u q, j ≤ i ∧ r.event j = .complete h ∧ q.chain.head = h ∧
        ∀ k, j ≤ k → k ≤ i → (r.state k).request u = some q ∧ q.Waited (r.state k).disk := by
      rcases (r.advances distinct within).completes h mem with old | now
      · obtain ⟨j, u, q, early, rest⟩ := ih (by omega) old
        exact ⟨j, u, q, early.le, rest⟩
      · have pending : h ∈ (r.state i).disk.pending :=
          List.mem_append_left _ (List.mem_append_right _ (r.fetched within now))
        obtain ⟨u, q, has, head, waited⟩ := (r.inv distinct (Nat.le_of_succ_le within)).book.pending.mp pending
        refine ⟨i, u, q, le_rfl, now, head, fun k low high => ?_⟩
        cases le_antisymm low high
        exact ⟨has, waited⟩
    obtain ⟨j, u, q, early, event, head, until_i⟩ := before
    refine ⟨j, u, q, by omega, event, head, fun k low high => ?_⟩
    rcases Nat.lt_or_eq_of_le high with less | rfl
    · exact until_i k low (by omega)
    · obtain ⟨has, waited⟩ := until_i i early le_rfl
      exact r.waited distinct within has waited (head ▸ Disk.used_pending mem)

theorem clearings_succ (r : DiskRun Tid Buf) (b : Buf) (later : s ≤ i) :
    r.clearings b s (i + 1) = r.clearings b s i + if (r.state i).clears (r.event i) = some b then 1 else 0 := by
  have last := r.count_succ (fun st e => decide (st.clears e = some b)) later
  simp only [decide_eq_true_eq] at last
  exact last

theorem called (r : DiskRun Tid Buf) (within : i < r.length)
    (call : r.event i = .call t (.rw b write)) : (r.state (i + 1)).point t = .enters b write := by
  have step := r.step i within
  cases point : (r.state i).point t with
  | idle =>
    simp only [State.next, State.step, call, point] at step
    rw [← Option.some.inj step]
    exact go_self ..
  | _ => simp [State.next, State.step, call, point, pure, Except.pure] at step

theorem counted (r : DiskRun Tid Buf) (distinct : r.Distinct)
    (calls : r.Calls t b write s i) (within : i ≤ r.length) :
    (r.state i).point t ≠ .idle ∧ ((r.state i).point t).buffer = some b ∧ r.clearings b s i = (r.state i).cleared t ∨
      (r.state i).point t = .idle ∧ r.clearings b s i = 1 := by
  obtain ⟨later, call, inside⟩ := calls
  induction i, later using Nat.le_induction with
  | base =>
    have entered := r.called within call
    refine .inl ⟨by simp [entered], by rw [entered]; rfl, ?_⟩
    rw [r.clearings_succ b le_rfl, call, State.cleared, State.request, entered]
    have none : r.clearings b s s = 0 := r.count_self _ s
    rw [none]
    rfl
  | succ i later ih =>
    have awake := inside i later (by omega)
    rcases ih (by omega) fun k low high => inside k low (by omega) with ⟨-, mine, count⟩ | ⟨idle, -⟩
    · rw [r.clearings_succ b (by omega), count]
      rcases (r.advances distinct within).calls t b mine with ⟨mine', cleared⟩ | ⟨idle, once, quiet⟩
      · refine .inl ⟨fun idle => ?_, mine', cleared.symm⟩
        rw [idle] at mine'
        cases mine'
      · exact .inr ⟨idle, by rw [once, if_neg quiet]⟩
    · exact absurd idle awake

/-- In every run, the descriptors that are not free are those of the requests in flight, three for each and none
shared; no step panics; a turn of the interrupt handler clears the buffer of a request that the device has completed,
and nothing else clears a buffer; each call sees its buffer cleared once; a buffer that is not cleared yet has its
chain with the device or on a ring; and without a call all descriptors are free. -/
theorem requests_booked (r : DiskRun Tid Buf) (distinct : r.Distinct) (within : i ≤ r.length) :
    (∀ d, d < NUM → ((r.state i).disk.free d = false ↔ ∃ t q, (r.state i).request t = some q ∧ d ∈ q.chain.descs)) ∧
    (∀ t q, (r.state i).request t = some q → q.chain.descs.Nodup ∧ ∀ d ∈ q.chain.descs, d < NUM) ∧
    (∀ t u p q d, (r.state i).request t = some p → (r.state i).request u = some q → d ∈ p.chain.descs →
      d ∈ q.chain.descs → t = u) ∧ (∀ e, e.Fresh (r.state i) → ∃ next, (r.state i).step e = .ok next) ∧
    (i < r.length → ∀ t, r.event i = .run t → (r.state i).point t = .intrTakes → ∃ j u q, j < i ∧
      r.event j = .complete (r.state i).disk.nextUsed ∧ q.chain.head = (r.state i).disk.nextUsed ∧
      (∀ k, j ≤ k → k ≤ i → (r.state k).request u = some q) ∧ (r.state i).disk.onDisk q.buf = true ∧
      (r.state (i + 1)).disk.onDisk = Function.update (r.state i).disk.onDisk q.buf false) ∧
    (i < r.length → ∀ b, (r.state i).disk.onDisk b = true → (r.state (i + 1)).disk.onDisk b = false →
      ∃ t, r.event i = .run t ∧ (r.state i).point t = .intrTakes) ∧
    (∀ t b write s, r.Calls t b write s i → r.clearings b s i ≤ 1 ∧
      ((r.state i).point t = .idle → r.clearings b s i = 1)) ∧
    (∀ t q, (r.state i).request t = some q → q.stage = .published →
      ((r.state i).disk.onDisk q.buf = true ↔ (r.state i).disk.pending.count q.chain.head = 1)) ∧
    ((∀ t, ((r.state i).point t).buffer = none) → ∀ d, d < NUM → (r.state i).disk.free d = true) := by
  have inv := r.inv distinct within
  have chains := inv.book.chains
  refine ⟨?_, ?_, ?_, ?_, ?_, ?_, ?_, ?_, ?_⟩
  · intro d less
    constructor
    · exact chains.owned less
    · rintro ⟨t, q, has, mem⟩
      exact chains.taken has mem
  · exact fun t q has => ⟨chains.nodup has, fun d => chains.bounded has⟩
  · exact fun t u p q d has has' => chains.disjoint has has'
  · intro e fresh
    obtain ⟨next, ran, -⟩ := inv.step fresh
    exact ⟨next, ran⟩
  · intro less t event now
    have first : (r.state i).disk.used = (r.state i).disk.nextUsed :: _ := Ring.window_pop (inv.more now)
    obtain ⟨j, u, q, early, completes, head, waited⟩ := r.completed distinct within (by rw [first]; exact List.mem_cons_self)
    obtain ⟨v, q', has, waited', head', -, ran⟩ := inv.take now
    obtain ⟨has', on⟩ := waited i early.le le_rfl
    cases chains.disjoint has has' q'.chain.head_mem (head'.trans head.symm ▸ q.chain.head_mem)
    cases has.symm.trans has'
    refine ⟨j, _, _, early, completes, head, fun k low high => (waited k low high).1, on.2, ?_⟩
    have step := r.step i less
    simp only [State.next, State.step, event, ran] at step
    rw [← Option.some.inj step]
    rfl
  · intro less b on off
    exact State.clears_some ((r.advances distinct less).clears b on off)
  · intro t b write s calls
    rcases r.counted distinct calls within with ⟨awake, -, count⟩ | ⟨-, once⟩
    · refine ⟨?_, fun idle => absurd idle awake⟩
      rw [count]
      exact Disk.cleared_le _ _
    · exact ⟨once.le, fun _ => once⟩
  · intro t q has stage
    constructor
    · intro on
      exact List.count_eq_one_of_mem inv.book.nodup (inv.book.pending.mpr ⟨t, q, has, rfl, stage, on⟩)
    · intro once
      by_contra off
      have missing := inv.book.not_pending has (fun waited => off waited.2)
      rw [List.count_eq_zero_of_not_mem missing] at once
      cases once
  · intro none d less
    by_contra busy
    obtain ⟨t, q, has, -⟩ := chains.owned less (by simpa using busy)
    have mine := Point.buffer_request has
    rw [none t] at mine
    cases mine

def readEvents : List (Event Bool Unit) :=
  [.call false (.rw () false), .run false, .run false, .run false, .run false, .run false, .fetch, .run false, .complete 0,
    .call true .intr, .run true, .run true, .run true, .run true, .run false, .run false, .run false]

/-- One process reads a block, sleeps until the interrupt and returns. -/
theorem read_booked : ∃ r : DiskRun Bool Unit, r.length = 17 ∧ r.Distinct ∧ r.Calls false () false 0 17 ∧
    r.clearings () 0 17 = 1 ∧ (∀ d, d < NUM → (r.state 17).disk.free d = true) ∧
    (r.state 13).disk.onDisk = Function.update (r.state 12).disk.onDisk () false := by
  let r : DiskRun Bool Unit := Semantics.Trace.ofEvents (.init fun _ => 0) ⟨_, rfl⟩ readEvents (.kill false) (by decide +kernel)
  have distinct : r.Distinct := by
    have all : ∀ i, i < 17 → (r.event i).Fresh (r.state i) := by decide +kernel
    exact all
  have inside : ∀ k, 0 < k → k < 17 → (r.state k).point false ≠ .idle := by
    have all : ∀ k, k < 17 → 0 < k → (r.state k).point false ≠ .idle := by decide +kernel
    exact fun k low high => all k high low
  have calls : r.Calls false () false 0 17 := ⟨by decide, rfl, inside⟩
  have idle : (r.state 17).point false = .idle := by decide +kernel
  have none : ∀ t, ((r.state 17).point t).buffer = none := by decide +kernel
  have takes : (r.state 12).point true = .intrTakes := by decide +kernel
  obtain ⟨-, -, -, -, -, -, once, -, free⟩ := requests_booked r distinct (i := 17) (by decide)
  obtain ⟨-, -, -, -, turn, -⟩ := requests_booked r distinct (i := 12) (by decide)
  obtain ⟨-, -, q, -, -, -, -, -, clears⟩ := turn (by decide) true rfl takes
  exact ⟨r, rfl, distinct, calls, (once false () false 0 calls).2 idle, free none, clears⟩

end DiskRun

end DeisoXv6.Virtio
