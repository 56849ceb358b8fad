import DeisoXv6.Fs.Pipe

/-! What piperead takes out of the pipe when a part of the buffer cannot be written. The counter is advanced with
the fetch of a byte, before copyout is called for it. From the last test of its while loop on a reader holds the
lock, and no other process has a part in what it does. -/

set_option autoImplicit false

namespace DeisoXv6

open List Function PipeState

def PipeRing.advanced (pi : PipeRing) (m : Nat) : PipeRing := { pi with nread := pi.nread + BitVec.ofNat 32 m }

/-- The pipe has lost as many bytes as are reported, and the next one is the first that was not delivered. -/
structure TakesReported (pi pi' : PipeRing) (value : Int) : Prop where
  nread : pi'.nread = pi.nread + BitVec.ofNat 32 value.toNat
  rest : pi'.contents = pi.contents.drop value.toNat

section Advanced

variable {pi : PipeRing} {m n : Nat}

theorem advanced_zero : pi.advanced 0 = pi := by
  unfold PipeRing.advanced
  rw [BitVec.add_zero]

theorem take_advanced : pi.take.2.advanced m = pi.advanced (m + 1) := by
  unfold PipeRing.take PipeRing.advanced
  rw [BitVec.add_assoc, BitVec.ofNat_add_ofNat, Nat.add_comm]

theorem contents_advanced (some : m ≤ pi.contents.length) : (pi.advanced m).contents = pi.contents.drop m := by
  induction m generalizing pi with
  | zero => rw [advanced_zero, drop_zero]
  | succ m ih =>
    have nonempty : pi.nread ≠ pi.nwrite := fun same => by
      rw [PipeRing.empty_iff.mp same] at some
      contradiction
    have bytes := PipeRing.contents_take nonempty
    rw [bytes, length_cons] at some
    rw [← take_advanced, ih (Nat.le_of_succ_le_succ some), bytes, drop_succ_cons]

theorem takesReported_advanced (some : m ≤ pi.contents.length) (reported : n ≤ m) :
    TakesReported pi (pi.advanced m) n ↔ m = n := by
  constructor
  · intro takes
    have length := congrArg List.length takes.rest
    rw [contents_advanced some, length_drop, length_drop, Int.toNat_natCast] at length
    omega
  · rintro rfl
    exact ⟨rfl, contents_advanced some⟩

end Advanced

section Read

variable {Tid : Type} [DecidableEq Tid] {st st' : PipeState Tid} {t : Tid} {k i : Nat} {n value : Int}

/-- Whether copyout succeeds at a step of process `t`, whose buffer can be written before position `k`. -/
def PipeState.copiesOut (st : PipeState Tid) (t : Tid) (k : Nat) : Bool :=
  match st.point t with
  | .gets _ i => decide (i < k)
  | _ => true

/-- Process `t` goes on alone and returns `value`. A process that sleeps does not. -/
inductive PipeState.Finishes (t : Tid) (k : Nat) : PipeState Tid → PipeState Tid → Int → Prop where
  | returns {st st' : PipeState Tid} {value : Int} :
      st.run t (st.copiesOut t k) = some (st', .returns t value) → Finishes t k st st' value
  | next {st st₁ st' : PipeState Tid} {label : PipeLabel Tid} {value : Int} :
      st.run t (st.copiesOut t k) = some (st₁, label) → (∀ v, label ≠ .returns t v) →
      Finishes t k st₁ st' value → Finishes t k st st' value

theorem PipeState.Finishes.unique {st'' : PipeState Tid} {value' : Int} (first : st.Finishes t k st' value)
    (second : st.Finishes t k st'' value') : st' = st'' ∧ value = value' := by
  induction first with
  | returns ran =>
    cases second with
    | returns ran' =>
      cases ran.symm.trans ran'
      exact ⟨rfl, rfl⟩
    | next ran' stays =>
      cases ran.symm.trans ran'
      exact absurd rfl (stays _)
  | next ran stays _ ih =>
    cases second with
    | returns ran' =>
      cases ran.symm.trans ran'
      exact absurd rfl (stays _)
    | next ran' _ rest =>
      cases ran.symm.trans ran'
      exact ih rest

theorem reads_over (here : st.point t = .reads n i) (ended : ¬((i : Int) < n ∧ st.pipe.nread ≠ st.pipe.nwrite)) :
    st.Finishes t k { (st.wakeup .nwrite).go t .user with lock := none } i :=
  .returns (by simp only [run, here, if_neg ended, leave])

/-- The for loop from position `i` on: it delivers bytes while there are any, they are asked for and can be written.
When the last of these ends it, one more byte is gone. -/
theorem reads_finishes (here : st.point t = .reads n i) :
    ∃ st', st.Finishes t k st' ↑(i + min (min (n.toNat - i) st.pipe.contents.length) (k - i)) ∧
      st'.pipe = st.pipe.advanced (min (min (n.toNat - i) st.pipe.contents.length) (k - i + 1)) := by
  generalize length : st.pipe.contents.length = len
  induction len generalizing st i with
  | zero =>
    have empty := PipeRing.empty_iff.mpr (length_eq_zero_iff.mp length)
    refine ⟨_, by rw [Nat.min_zero, Nat.zero_min]; exact reads_over here fun more => more.2 empty, ?_⟩
    rw [Nat.min_zero, Nat.zero_min, advanced_zero]
    rfl
  | succ len ih =>
    by_cases more : (i : Int) < n ∧ st.pipe.nread ≠ st.pipe.nwrite
    · -- the byte is fetched, and then copied or not
      have passes : st.run t (st.copiesOut t k) = some (st.go t (.gets n i), .silent) := by
        simp only [run, here, if_pos more, PipeState.pass]
      have there : (st.go t (.gets n i)).point t = .gets n i := update_self ..
      by_cases inside : i < k
      · let u : PipeState Tid := { (st.go t (.gets n i)).go t (.reads n (i + 1)) with pipe := st.pipe.take.2 }
        have delivers : (st.go t (.gets n i)).run t ((st.go t (.gets n i)).copiesOut t k) =
            some (u, .delivers t st.pipe.take.1) := by
          simp only [run, copiesOut, there, inside, decide_true, if_true]
          rfl
        have left : u.pipe.contents.length = len := by
          rw [PipeRing.contents_take more.2, length_cons] at length
          exact Nat.succ.inj length
        obtain ⟨st', finishes, pipe⟩ := ih (i := i + 1) (update_self ..) left
        refine ⟨st', .next passes (by rintro _ ⟨⟩) (.next delivers (by rintro _ ⟨⟩) ?_), ?_⟩
        · convert finishes using 2
          omega
        · rw [pipe, show u.pipe = st.pipe.take.2 from rfl, take_advanced]
          congr 1
          omega
      · have value : i + min (min (n.toNat - i) (len + 1)) (k - i) = i := by omega
        have one : min (min (n.toNat - i) (len + 1)) (k - i + 1) = 1 := by omega
        let u : PipeState Tid :=
          { (PipeState.wakeup { st.go t (.gets n i) with pipe := st.pipe.take.2 } .nwrite).go t .user with
            lock := none }
        have gives_up : (st.go t (.gets n i)).run t ((st.go t (.gets n i)).copiesOut t k) =
            some (u, .returns t ↑(i + min (min (n.toNat - i) (len + 1)) (k - i))) := by
          simp only [run, copiesOut, there, inside, decide_false, value]
          rfl
        refine ⟨u, .next passes (by rintro _ ⟨⟩) (.returns gives_up), ?_⟩
        rw [one, ← take_advanced, advanced_zero]
        rfl
    · have some : st.pipe.nread ≠ st.pipe.nwrite := fun same => by
        rw [PipeRing.empty_iff.mp same] at length
        contradiction
      have none : n.toNat - i = 0 := by
        have ended := mt (And.intro · some) more
        omega
      refine ⟨_, by rw [none, Nat.zero_min, Nat.zero_min]; exact reads_over here more, ?_⟩
      rw [none, Nat.zero_min, Nat.zero_min, advanced_zero]
      rfl

theorem not_finishes_asleep (asleep : st.point t = .readSleeps n false) : ¬st.Finishes t k st' value := by
  have stops : st.run t (st.copiesOut t k) = none := by simp [run, asleep]
  intro finishes
  cases finishes with
  | returns ran => cases stops.symm.trans ran
  | next ran => cases stops.symm.trans ran

/-- A reader that does not have to sleep returns, and what it has taken out of the pipe is what it reports exactly
if the part of its buffer that can be written is large enough for it. -/
theorem piperead_takes_reported_iff (here : st.point t = .waits n) :
    (¬(st.pipe.contents = [] ∧ st.pipe.writeopen = true ∧ st.killed t = false) →
      ∃ st' value, st.Finishes t k st' value) ∧ ∀ st' value, st.Finishes t k st' value →
      (TakesReported st.pipe st'.pipe value ↔ min n.toNat st.pipe.contents.length ≤ k) := by
  by_cases idle : st.pipe.nread = st.pipe.nwrite ∧ st.pipe.writeopen = true
  · have empty := PipeRing.empty_iff.mp idle.1
    cases killed : st.killed t with
    | true =>
      have leaves : st.Finishes t k { st.go t .user with lock := none } (-1) :=
        .returns (by simp [run, leave, here, idle, killed])
      refine ⟨fun _ => ⟨_, _, leaves⟩, fun st' value finishes => ?_⟩
      obtain ⟨rfl, rfl⟩ := leaves.unique finishes
      refine iff_of_true ⟨(BitVec.add_zero _).symm, rfl⟩ ?_
      rw [empty, length_nil, Nat.min_zero]
      exact Nat.zero_le k
    | false =>
      refine ⟨fun awake => absurd ⟨empty, idle.2, rfl⟩ awake, fun st' value finishes => absurd finishes ?_⟩
      have sleeps : st.run t (st.copiesOut t k) =
          some ({ st.go t (.readSleeps n false) with lock := none }, .silent) := by
        simp [run, PipeState.sleep, here, idle, killed]
      intro finishes
      cases finishes with
      | returns ran => cases sleeps.symm.trans ran
      | next ran _ rest =>
        obtain ⟨rfl, -⟩ := Prod.mk.inj (Option.some.inj (sleeps.symm.trans ran))
        exact not_finishes_asleep (n := n) (update_self ..) rest
  · have passes : st.run t (st.copiesOut t k) = some (st.go t (.reads n 0), .silent) := by
      simp [run, PipeState.pass, here, idle]
    have there : (st.go t (.reads n 0)).point t = .reads n 0 := update_self ..
    obtain ⟨u, loop, pipe⟩ := reads_finishes (k := k) there
    have whole := loop.next passes (by rintro _ ⟨⟩)
    refine ⟨fun _ => ⟨_, _, whole⟩, fun st' value finishes => ?_⟩
    obtain ⟨rfl, rfl⟩ := whole.unique finishes
    rw [pipe]
    change TakesReported st.pipe (st.pipe.advanced (min (min (n.toNat - 0) st.pipe.contents.length) (k - 0 + 1)))
      ↑(0 + min (min (n.toNat - 0) st.pipe.contents.length) (k - 0)) ↔ _
    rw [takesReported_advanced (by omega) (by omega)]
    omega

end Read

def readsTwo : PipeState (Fin 1) where
  pipe := ⟨fun _ => 7, 0, 3, true, true⟩
  lock := some 0
  point _ := .waits 2
  killed _ := false

theorem readsTwo_takes_reported : ∃ st', readsTwo.Finishes 0 2 st' 2 ∧ TakesReported readsTwo.pipe st'.pipe 2 := by
  obtain ⟨st', finishes, -⟩ : ∃ st', readsTwo.Finishes 0 2 st' 2 ∧ st'.lock = none :=
    ⟨_, .next rfl nofun (.next rfl nofun (.next rfl nofun (.next rfl nofun (.next rfl nofun (.returns rfl))))), rfl⟩
  exact ⟨st', finishes, ((piperead_takes_reported_iff rfl).2 st' 2 finishes).mpr (by decide)⟩

/-- The second byte cannot be written: one byte is reported and two are gone. -/
theorem readsTwo_loses :
    ∃ st', readsTwo.Finishes 0 1 st' 1 ∧ st'.pipe.nread = 2 ∧ ¬TakesReported readsTwo.pipe st'.pipe 1 :=
  ⟨_, .next rfl nofun (.next rfl nofun (.next rfl nofun (.next rfl nofun (.returns rfl)))), rfl,
    fun takes => absurd takes.nread (by decide)⟩

end DeisoXv6
