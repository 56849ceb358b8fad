import DeisoXv6.Proc.Tickets
import Mathlib.Algebra.Order.BigOperators.Group.Finset

/-! The arithmetic of the lottery: when the counter, the target and the running sum are exact. -/

set_option autoImplicit false

namespace DeisoXv6

open List Table

def INTMAX : Int := 2 ^ 31 - 1

/-- The values of next_random, for every seed its generator can reach. -/
def RandomValue (r : UInt32) : Prop := 1 ≤ r.toNat ∧ r.toNat ≤ 2 ^ 31 - 2

def Table.runnableTickets (t : Table) (ps : List ProcId) : Int :=
  (ps.map fun p => if (t.proc p).state = .runnable then (t.proc p).tickets else 0).sum

/-- The counter is the exact sum, no int of the selection overflows whatever number is drawn, and
a zero counter means that there is nothing to run. -/
structure Table.LotteryExact (t : Table) : Prop where
  total : t.totalTickets = t.exactTickets
  target : ∀ r, RandomValue r → t.totalTickets ≠ 0 → targetTickets t r = r.toNat % t.totalTickets + 1
  cumulative : ∀ r, RandomValue r → t.totalTickets ≠ 0 → (draw t r).overflow = false
  idle : t.totalTickets = 0 → ∀ p, ¬ Counted (t.proc p).state

/-- The exact sum fits a uint, and the running sum of the RUNNABLE processes in table order stays
within int or stops at its very last value, which no target exceeds. -/
def Table.LotteryFits (t : Table) : Prop :=
  t.exactTickets < 2 ^ 32 ∧ (t.runnableTickets (List.finRange NPROC) ≤ INTMAX ∨
    ∃ ps, ps <+: List.finRange NPROC ∧ t.runnableTickets ps = INTMAX)

/-- Every process has at least MINTICKETS and at most INTMAX tickets. -/
def Table.Funded (t : Table) : Prop :=
  ∀ p, (t.proc p).state ≠ .unused → MINTICKETS ≤ (t.proc p).tickets ∧ (t.proc p).tickets ≤ INTMAX

theorem int_of_range {x : Int} (low : -2 ^ 31 ≤ x) (high : x ≤ INTMAX) : int x = x := by
  unfold int INTMAX at *
  rw [Int.bmod_def]
  split <;> omega

theorem int_le_intmax (x : Int) : int x ≤ INTMAX := by
  have upper : Int.bmod x (2 ^ 32) < (2 ^ 32 + 1) / 2 := Int.bmod_lt (by decide)
  unfold int INTMAX
  omega

theorem uint_range (x : Int) : 0 ≤ uint x ∧ uint x < 2 ^ 32 := by
  unfold uint
  omega

variable {t : Table}

theorem runnableTickets_cons (p : ProcId) (ps : List ProcId) : t.runnableTickets (p :: ps) =
      (if (t.proc p).state = .runnable then (t.proc p).tickets else 0) + t.runnableTickets ps := rfl

theorem Table.Funded.runnable (funded : t.Funded) {p : ProcId} (runnable : (t.proc p).state = .runnable) :
    1 ≤ (t.proc p).tickets ∧ (t.proc p).tickets ≤ INTMAX :=
  funded p (by rw [runnable]; decide)

theorem Table.Funded.runnableTickets_nonneg (funded : t.Funded) (ps : List ProcId) : 0 ≤ t.runnableTickets ps := by
  induction ps with
  | nil => exact le_refl 0
  | cons p ps ih =>
    rw [runnableTickets_cons]
    split
    · have := (funded.runnable ‹_›).1
      omega
    · omega

theorem drawLoop_overflow (target : Int) (ps : List ProcId) (cum : Int) (d : Draw)
    (recorded : d.overflow = true) : (drawLoop t target ps cum d).overflow = true := by
  induction ps generalizing cum d with
  | nil => exact recorded
  | cons p ps ih =>
    simp only [drawLoop, recorded, Bool.true_or]
    split
    · split
      · rfl
      · exact ih _ _ rfl
    · exact ih _ _ recorded

theorem drawLoop_exact (funded : t.Funded) {target : Int} (small : target ≤ INTMAX)
    (ps : List ProcId) (cum : Int) (d : Draw) (nonneg : 0 ≤ cum) (below : cum < target) (clean : d.overflow = false)
    (fits : cum + t.runnableTickets ps ≤ INTMAX ∨ ∃ qs, qs <+: ps ∧ cum + t.runnableTickets qs = INTMAX) :
    (drawLoop t target ps cum d).overflow = false := by
  induction ps generalizing cum d with
  | nil => exact clean
  | cons p ps ih =>
    rw [drawLoop]
    split
    · rename_i runnable
      have tickets := funded.runnable runnable
      -- the sum that is formed here is below one of the two bounds, since no share is negative
      have next : cum + (t.proc p).tickets + t.runnableTickets ps ≤ INTMAX ∨
          ∃ qs, qs <+: ps ∧ cum + (t.proc p).tickets + t.runnableTickets qs = INTMAX := by
        rcases fits with whole | ⟨qs, before, hit⟩
        · left
          rw [runnableTickets_cons, if_pos runnable] at whole
          omega
        · rcases prefix_cons_iff.mp before with rfl | ⟨rest, rfl, shorter⟩
          · have : t.runnableTickets [] = 0 := rfl
            omega
          · rw [runnableTickets_cons, if_pos runnable] at hit
            exact Or.inr ⟨rest, shorter, by omega⟩
      have sum : cum + (t.proc p).tickets ≤ INTMAX := by
        rcases next with whole | ⟨qs, before, hit⟩
        · have := funded.runnableTickets_nonneg ps
          omega
        · have := funded.runnableTickets_nonneg qs
          omega
      have exactSum : int (cum + (t.proc p).tickets) = cum + (t.proc p).tickets :=
        int_of_range (by omega) sum
      simp only [exactSum, clean, ne_eq, not_true_eq_false, decide_false, Bool.or_false]
      split
      · rfl
      · exact ih _ _ (by omega) (by omega) rfl next
    · rename_i other
      refine ih _ _ nonneg below clean ?_
      rcases fits with whole | ⟨qs, before, hit⟩
      · left
        rwa [runnableTickets_cons, if_neg other, zero_add] at whole
      · rcases prefix_cons_iff.mp before with rfl | ⟨rest, rfl, shorter⟩
        · exact Or.inr ⟨[], List.nil_prefix, hit⟩
        · rw [runnableTickets_cons, if_neg other, zero_add] at hit
          exact Or.inr ⟨rest, shorter, hit⟩

theorem drawLoop_overflows (funded : t.Funded) (ps : List ProcId) (cum : Int) (d : Draw)
    (nonneg : 0 ≤ cum) (below : cum < INTMAX) (large : INTMAX < cum + t.runnableTickets ps)
    (jumps : ∀ qs, qs <+: ps → cum + t.runnableTickets qs ≠ INTMAX) :
    (drawLoop t INTMAX ps cum d).overflow = true := by
  induction ps generalizing cum d with
  | nil =>
    have : t.runnableTickets [] = 0 := rfl
    omega
  | cons p ps ih =>
    rw [drawLoop]
    rw [runnableTickets_cons] at large
    split
    · rename_i runnable
      rw [if_pos runnable] at large
      have tickets := funded.runnable runnable
      have rest : ∀ qs, qs <+: ps → cum + (t.proc p).tickets + t.runnableTickets qs ≠ INTMAX := fun qs before hit =>
        jumps (p :: qs) (cons_prefix_cons.mpr ⟨rfl, before⟩) (by
          rw [runnableTickets_cons, if_pos runnable]
          omega)
      have miss : cum + (t.proc p).tickets ≠ INTMAX := by
        have : t.runnableTickets [] = 0 := rfl
        have := rest [] List.nil_prefix
        omega
      by_cases fits : cum + (t.proc p).tickets ≤ INTMAX
      · have exactSum : int (cum + (t.proc p).tickets) = cum + (t.proc p).tickets :=
          int_of_range (by omega) fits
        simp only [exactSum]
        rw [if_neg (by omega)]
        exact ih _ _ (by omega) (by omega) (by omega) rest
      · have wraps : int (cum + (t.proc p).tickets) ≠ cum + (t.proc p).tickets := by
          have := int_le_intmax (cum + (t.proc p).tickets)
          omega
        simp only [wraps, ne_eq, not_false_eq_true, decide_true, Bool.or_true]
        split
        · rfl
        · exact drawLoop_overflow _ _ _ _ rfl
    · rename_i other
      rw [if_neg other] at large
      refine ih _ _ nonneg below (by omega) fun qs before hit => ?_
      refine jumps (p :: qs) (cons_prefix_cons.mpr ⟨rfl, before⟩) ?_
      rw [runnableTickets_cons, if_neg other]
      omega

theorem Table.Funded.share_nonneg (funded : t.Funded) (p : ProcId) : 0 ≤ share (t.proc p) := by
  by_cases counted : Counted (t.proc p).state
  · rw [share_counted counted]
    have used : (t.proc p).state ≠ .unused := by
      rcases counted with running | runnable
      · rw [running]; decide
      · rw [runnable]; decide
    have := (funded p used).1
    unfold MINTICKETS at this
    omega
  · rw [share_of_not_counted counted]

theorem Table.Funded.exactTickets_nonneg (funded : t.Funded) : 0 ≤ t.exactTickets :=
  Finset.sum_nonneg fun p _ => funded.share_nonneg p

theorem Table.Funded.runnableTickets_le (funded : t.Funded) :
    t.runnableTickets (List.finRange NPROC) ≤ t.exactTickets := by
  rw [runnableTickets, ← ofFn_eq_map, sum_ofFn]
  refine Finset.sum_le_sum fun p _ => ?_
  by_cases runnable : (t.proc p).state = .runnable
  · rw [if_pos runnable, share_counted (Or.inr runnable)]
  · rw [if_neg runnable]
    exact funded.share_nonneg p

theorem Table.Funded.idle_of_zero (funded : t.Funded) (zero : t.exactTickets = 0) (p : ProcId) :
    ¬ Counted (t.proc p).state := by
  intro counted
  have none := (Finset.sum_eq_zero_iff_of_nonneg fun q _ => funded.share_nonneg q).mp zero p (Finset.mem_univ p)
  rw [share_counted counted] at none
  have used : (t.proc p).state ≠ .unused := by
    rcases counted with running | runnable
    · rw [running]; decide
    · rw [runnable]; decide
  have := (funded p used).1
  unfold MINTICKETS at this
  omega

theorem targetTickets_exact {r : UInt32} (random : RandomValue r) (positive : 0 < t.totalTickets)
    (total : t.totalTickets < 2 ^ 32) :
    targetTickets t r = r.toNat % t.totalTickets + 1 ∧ 1 ≤ targetTickets t r ∧ targetTickets t r ≤ INTMAX := by
  have low : 0 ≤ (r.toNat : Int) % t.totalTickets := Int.emod_nonneg _ positive.ne'
  have high : (r.toNat : Int) % t.totalTickets < t.totalTickets := Int.emod_lt_of_pos _ positive
  have drawn : (r.toNat : Int) % t.totalTickets ≤ r.toNat := by
    obtain ⟨total, same⟩ := Int.eq_ofNat_of_zero_le positive.le
    rw [same]
    exact_mod_cast Nat.mod_le r.toNat total
  have bound : (r.toNat : Int) ≤ 2 ^ 31 - 2 := by
    have := random.2
    omega
  have reduced : uint (r.toNat % t.totalTickets + 1) = r.toNat % t.totalTickets + 1 :=
    Int.emod_eq_of_lt (by omega) (by omega)
  have same : targetTickets t r = r.toNat % t.totalTickets + 1 := by
    rw [targetTickets, reduced]
    exact int_of_range (by omega) (by unfold INTMAX; omega)
  unfold INTMAX
  omega

theorem targetTickets_largest (total : INTMAX ≤ t.totalTickets) (bound : t.totalTickets < 2 ^ 32) :
    targetTickets t 2147483646 = INTMAX := by
  unfold INTMAX at *
  have random : RandomValue 2147483646 := by
    unfold RandomValue
    decide
  rw [(targetTickets_exact random (by omega) bound).1]
  have value : ((2147483646 : UInt32).toNat : Int) = 2147483646 := rfl
  rw [value, Int.emod_eq_of_lt (by omega) (by omega)]
  rfl

theorem Table.LotteryFits.exact (conserved : t.Conserved) (funded : t.Funded)
    (fits : t.LotteryFits) : t.LotteryExact := by
  have total : t.totalTickets = t.exactTickets := by
    rw [conserved]
    exact Int.emod_eq_of_lt funded.exactTickets_nonneg fits.1
  have nonneg := funded.exactTickets_nonneg
  have bound := fits.1
  refine ⟨total, fun r random nonzero => ?_, fun r random nonzero => ?_, fun zero p => ?_⟩
  · exact (targetTickets_exact random (by omega) (by omega)).1
  · obtain ⟨-, low, high⟩ := targetTickets_exact random (t := t) (by omega) (by omega)
    exact drawLoop_exact funded high _ 0 _ (le_refl 0) (by omega) rfl (by simpa using fits.2)
  · exact funded.idle_of_zero (total.symm.trans zero) p

theorem Table.LotteryExact.fits (conserved : t.Conserved) (funded : t.Funded)
    (exactly : t.LotteryExact) : t.LotteryFits := by
  have range := uint_range t.exactTickets
  rw [← conserved, exactly.total] at range
  refine ⟨range.2, ?_⟩
  by_contra unfit
  rw [not_or] at unfit
  obtain ⟨large, jumps⟩ := unfit
  have part := funded.runnableTickets_le
  have wide : INTMAX < t.totalTickets := by
    rw [exactly.total]
    omega
  have clean := exactly.cumulative 2147483646 (by unfold RandomValue; decide) (by unfold INTMAX at wide; omega)
  rw [draw, targetTickets_largest wide.le (by rw [exactly.total]; exact range.2)] at clean
  have overflow := drawLoop_overflows funded (List.finRange NPROC) 0 ⟨none, false⟩ (le_refl 0)
    (by decide) (by omega) fun qs before hit => jumps ⟨qs, before, by omega⟩
  rw [overflow] at clean
  contradiction

section Runs

variable {p : ProcId}

section

variable (funded : t.Funded)

include funded

theorem Table.Funded.congr {u : Table} (slots : u.proc = t.proc) : u.Funded := by
  intro q
  rw [slots]
  exact funded q

theorem Table.Funded.modify {f : Proc → Proc} (slot : (f (t.proc p)).state ≠ .unused →
      MINTICKETS ≤ (f (t.proc p)).tickets ∧ (f (t.proc p)).tickets ≤ INTMAX) : (t.modify p f).Funded := by
  intro q
  rw [modify_proc]
  split
  · exact slot
  · exact funded q

theorem Table.Funded.setState (used : (t.proc p).state ≠ .unused) (state : ProcState) : (t.setState p state).Funded :=
  funded.modify fun _ => funded p used

theorem Table.Funded.modify_other {f : Proc → Proc} (state : (f (t.proc p)).state = (t.proc p).state)
    (tickets : (f (t.proc p)).tickets = (t.proc p).tickets) : (t.modify p f).Funded :=
  funded.modify fun used => by
    rw [tickets]
    exact funded p (state ▸ used)

theorem Table.Funded.withdraw : (t.withdraw p).Funded :=
  funded.congr withdraw_proc

theorem Table.Funded.wake (asleep : (t.proc p).state = .sleeping) : (t.wake p).Funded :=
  (funded.setState (by rw [asleep]; decide) .runnable).congr rfl

end

theorem Table.Funded.boot : Table.boot.Funded := fun _ used => absurd rfl used

theorem Table.Funded.userinit (funded : t.Funded) : t.userinit.Funded := by
  unfold Table.userinit
  split
  · exact funded
  · rename_i slot found
    intro q
    by_cases same : q = slot
    · simp [publish, Table.setState, same, MINTICKETS, INTMAX]
    · simpa [publish, Table.setState, setUsed, allocpid, same] using funded q

end Runs

namespace Forks

variable {s : Forks}

/-- The caller of fork, whose tickets the child inherits, is RUNNING. -/
def Calls (s : Forks) : Section → Prop
  | .fork p _ => (s.table.proc p).state = .running
  | _ => True

def CallsRun : Forks → List Section → Prop
  | _, [] => True
  | s, e :: es => s.Calls e ∧ CallsRun (s.step e) es

instance Calls.decidable (s : Forks) (e : Section) : Decidable (s.Calls e) :=
  match e with
  | .fork p _ => inferInstanceAs (Decidable ((s.table.proc p).state = .running))
  | .userinit | .allocFails _ | .setParent _ _ | .publish _ | .freeproc _ | .reparent _ | .exit _ _
  | .sleep _ _ | .wakeup _ _ | .kill _ _ | .yield _ | .settickets _ _ | .pick | .setRunning _ =>
    isTrue trivial

instance CallsRun.decidable : (s : Forks) → (es : List Section) → Decidable (CallsRun s es)
  | _, [] => isTrue trivial
  | s, e :: es =>
    have := CallsRun.decidable (s.step e) es
    inferInstanceAs (Decidable (s.Calls e ∧ CallsRun (s.step e) es))

theorem funded_step {e : Section} (inv : s.Inv) (legal : s.Legal e) (calls : s.Calls e)
    (funded : s.table.Funded) : (s.step e).table.Funded := by
  cases e with
  | userinit => exact funded.userinit
  | fork p np =>
    have parent : (s.table.proc p).state = .running := calls
    have slot : (s.table.proc np).state = .unused := legal
    have apart : p ≠ np := by
      rintro rfl
      rw [parent] at slot
      contradiction
    intro q
    simp only [step, Table.inherit, setUsed, setState, allocpid, modify_proc, apart, if_false]
    split
    · intro _
      exact funded p (by rw [parent]; decide)
    · exact funded q
  | allocFails np =>
    intro q
    simp only [step, Table.free, freeFields, setUsed, setState, allocpid, modify_proc, withdraw_proc]
    split
    · exact fun used => absurd rfl used
    · exact funded q
  | setParent p np =>
    change (s.table.setParent p np).Funded
    exact funded.modify_other rfl rfl
  | publish np =>
    have used := inv.used np legal
    have counted : (s.table.addTickets (s.table.proc np).tickets).Funded := funded.congr rfl
    exact counted.setState (by rw [addTickets_proc, used]; decide) _
  | freeproc p =>
    have cleared : (s.table.freeFields p).Funded := funded.modify_other rfl rfl
    change ((s.table.freeFields p).free p).Funded
    exact cleared.withdraw.modify fun used => absurd rfl used
  | reparent p =>
    change (s.table.reparent p).Funded
    exact funded.modify_other rfl rfl
  | exit p status =>
    have running : (s.table.proc p).state = .running := legal
    have marked : (s.table.setXstate p status).Funded := funded.modify_other rfl rfl
    exact marked.withdraw.setState (by simp [setXstate, running]) _
  | sleep p chan =>
    have running : (s.table.proc p).state = .running := legal
    have marked : (s.table.setChan p chan).Funded := funded.modify_other rfl rfl
    exact marked.withdraw.setState (by simp [setChan, running]) _
  | wakeup p chan =>
    by_cases asleep : s.table.SleepsOn p chan
    · simpa only [step, if_pos asleep] using funded.wake asleep.1
    · simpa only [step, if_neg asleep] using funded
  | kill p pid =>
    have marked : (s.table.setKilled p).Funded := funded.modify_other rfl rfl
    simp only [step]
    split
    · by_cases asleep : ((s.table.setKilled p).proc p).state = .sleeping
      · simpa only [if_pos asleep] using marked.wake asleep
      · simpa only [if_neg asleep] using marked
    · exact funded
  | yield p =>
    have running : (s.table.proc p).state = .running := legal
    have same : s.table.yield p = s.table.setState p .runnable := by simp [Table.yield, running]
    rw [step, same]
    exact funded.setState (by rw [running]; decide) _
  | settickets p n =>
    by_cases small : n.toInt < MINTICKETS
    · simpa only [step, if_pos small] using funded
    · simp only [step, if_neg small]
      have counted : (s.table.addTickets (n.toInt - (s.table.proc p).tickets)).Funded :=
        funded.congr rfl
      have upper : n.toInt ≤ INTMAX := Int.le_sub_one_of_lt n.toInt_lt
      change (s.table.settickets p n.toInt).Funded
      exact counted.modify fun _ => ⟨Int.not_lt.mp small, upper⟩
  | pick =>
    refine funded.congr ?_
    simp only [step, Table.pick]
    split <;> rfl
  | setRunning p =>
    refine funded.setState ?_ _
    have counted : Counted (s.table.proc p).state := legal
    rcases counted with running | runnable
    · rw [running]; decide
    · rw [runnable]; decide

theorem funded_run {es : List Section} (inv : s.Inv) (legal : LegalRun s es) (calls : CallsRun s es)
    (funded : s.table.Funded) : (run s es).table.Funded := by
  induction es generalizing s with
  | nil => exact funded
  | cons e es ih =>
    exact ih (inv.step legal.1) legal.2 calls.2 (funded_step inv legal.1 calls.1 funded)

/-- In every state that boot reaches, the lottery is exact if and only if the tickets fit. -/
theorem lottery_exact_iff (es : List Section) (legal : LegalRun boot es) (calls : CallsRun boot es) :
    (run boot es).table.LotteryExact ↔ (run boot es).table.LotteryFits := by
  have conserved := (Inv.boot.run legal).conserved
  have funded := funded_run Inv.boot legal calls .boot
  exact ⟨fun exactly => exactly.fits conserved funded, fun fits => fits.exact conserved funded⟩

theorem family_lottery_exact : (run boot family).table.LotteryExact :=
  (lottery_exact_iff family (by decide) (by decide)).mpr ⟨by decide +kernel, .inl (by decide +kernel)⟩

def wholeUint : List Section :=
  [.userinit, .pick, .setRunning 0, .settickets 0 2147483647, .fork 0 1, .publish 1,
    .fork 0 2, .publish 2, .setRunning 2, .settickets 2 2]

theorem wholeUint_looks_idle : LegalRun boot wholeUint ∧ CallsRun boot wholeUint ∧
      (run boot wholeUint).table.exactTickets = 2 ^ 32 ∧ (run boot wholeUint).table.totalTickets = 0 ∧
      ((run boot wholeUint).table.proc 1).state = .runnable ∧ ¬ (run boot wholeUint).table.LotteryExact := by
  have zero : (run boot wholeUint).table.totalTickets = 0 := by decide +kernel
  have waiting : ((run boot wholeUint).table.proc 1).state = .runnable := by decide +kernel
  refine ⟨by decide, by decide, by decide +kernel, zero, waiting, fun exactly => ?_⟩
  exact exactly.idle zero 1 (Or.inr waiting)

end Forks

end DeisoXv6
