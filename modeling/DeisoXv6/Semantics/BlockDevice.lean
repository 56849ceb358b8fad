import Mathlib.Logic.Function.Basic

/-! Programs over a cached block device, and the disks that a crash can leave behind.

A program reads through a volatile cache and writes through it to the device. Single-block
writes are atomic and reach the device in program order, so a crash keeps exactly the device
contents after some number of completed writes and loses the cache. The rules below carry one
crash condition through a program together with its postcondition. -/

set_option autoImplicit false

namespace BlockDevice

open Function

variable {A V R S : Type}

/-- The device, with the volatile cache in front of it. -/
structure Store (A V : Type) where
  disk : A → V
  cache : A → Option V

def Store.read (s : Store A V) (a : A) : V := (s.cache a).getD (s.disk a)

def boot (disk : A → V) : Store A V := ⟨disk, fun _ => none⟩

@[simp] theorem read_boot (disk : A → V) (a : A) : (boot disk).read a = disk a := rfl

variable [DecidableEq A]

def Store.fill (s : Store A V) (a : A) : Store A V :=
  { s with cache := update s.cache a (some (s.read a)) }

def Store.write (s : Store A V) (a : A) (v : V) : Store A V :=
  ⟨update s.disk a v, update s.cache a (some v)⟩

@[simp] theorem Store.fill_disk (s : Store A V) (a : A) : (s.fill a).disk = s.disk := rfl

@[simp] theorem Store.write_disk (s : Store A V) (a : A) (v : V) : (s.write a v).disk = update s.disk a v := rfl

@[simp] theorem Store.read_fill (s : Store A V) (a b : A) : (s.fill a).read b = s.read b := by
  by_cases same : b = a
  · subst b
    simp [fill, read]
  · simp [fill, read, update_of_ne same]

theorem Store.read_write (s : Store A V) (a b : A) (v : V) :
    (s.write a v).read b = if b = a then v else s.read b := by
  by_cases same : b = a
  · subst b
    simp [write, read]
  · simp [write, read, same]

inductive Prog (A V R : Type) where
  | done : R → Prog A V R
  | read : A → (V → Prog A V R) → Prog A V R
  | write : A → V → Prog A V R → Prog A V R

namespace Prog

def bind : Prog A V R → (R → Prog A V S) → Prog A V S
  | .done r, next => next r
  | .read a k, next => .read a fun v => (k v).bind next
  | .write a v k, next => .write a v (k.bind next)

instance : Monad (Prog A V) where
  pure := .done
  bind := bind

/-- Execution to the end, with the returned value and the final store. -/
def run : Prog A V R → Store A V → R × Store A V
  | .done r, s => (r, s)
  | .read a k, s => (k (s.read a)).run (s.fill a)
  | .write a v k, s => k.run (s.write a v)

/-- The disk after a crash that lets `n` writes complete; a program that performs fewer writes
has then run to its end. -/
def crash : Prog A V R → Store A V → Nat → A → V
  | .done _, s, _ => s.disk
  | .read a k, s, n => (k (s.read a)).crash (s.fill a) n
  | .write _ _ _, s, 0 => s.disk
  | .write a v k, s, n + 1 => k.crash (s.write a v) n

def writes : Prog A V R → Store A V → Nat
  | .done _, _ => 0
  | .read a k, s => (k (s.read a)).writes (s.fill a)
  | .write a v k, s => k.writes (s.write a v) + 1

/-- `for (i = first; i < first + count; i++) body(i)`. -/
def forFrom (body : Nat → Prog A V Unit) : Nat → Nat → Prog A V Unit
  | _, 0 => .done ()
  | first, count + 1 => (body first).bind fun _ => forFrom body (first + 1) count

@[simp] theorem crash_zero (p : Prog A V R) (s : Store A V) : p.crash s 0 = s.disk := by
  induction p generalizing s with
  | done r => rfl
  | read a k ih => simp only [crash, ih, Store.fill_disk]
  | write a v k ih => rfl

section

variable (p : Prog A V R) (next : R → Prog A V S) (s : Store A V)

include p next s

@[simp] theorem run_bind : (p.bind next).run s = (next (p.run s).1).run (p.run s).2 := by
  induction p generalizing s with
  | done r => rfl
  | read a k ih => exact ih _ _
  | write a v k ih => exact ih _

theorem writes_bind : (p.bind next).writes s = p.writes s + (next (p.run s).1).writes (p.run s).2 := by
  induction p generalizing s with
  | done r => simp only [bind, writes, run, Nat.zero_add]
  | read a k ih => exact ih _ _
  | write a v k ih =>
    simp only [bind, writes, run, ih]
    omega

theorem crash_bind_of_le (n : Nat) (early : n ≤ p.writes s) : (p.bind next).crash s n = p.crash s n := by
  induction p generalizing s n with
  | done r =>
    have none : n = 0 := Nat.le_zero.mp early
    subst n
    simp only [crash_zero]
  | read a k ih => exact ih _ _ _ early
  | write a v k ih =>
    cases n with
    | zero => simp only [crash_zero]
    | succ n => exact ih _ _ (Nat.le_of_succ_le_succ early)

theorem crash_bind_of_ge (n : Nat) (late : p.writes s ≤ n) :
    (p.bind next).crash s n = (next (p.run s).1).crash (p.run s).2 (n - p.writes s) := by
  induction p generalizing s n with
  | done r => rfl
  | read a k ih => exact ih _ _ _ late
  | write a v k ih =>
    cases n with
    | zero => simp [writes] at late
    | succ n =>
      have rest := ih (s.write a v) n (Nat.le_of_succ_le_succ late)
      simpa only [bind, crash, writes, run, Nat.add_sub_add_right] using rest

end

theorem writes_forFrom (body : Nat → Prog A V Unit) (one : ∀ i s, (body i).writes s = 1)
    (first count : Nat) (s : Store A V) : (forFrom body first count).writes s = count := by
  induction count generalizing first s with
  | zero => rfl
  | succ count ih =>
    rw [forFrom, writes_bind, one, ih]
    omega

end Prog

/-- From every store in `pre`, every crash leaves a disk in `survives`, and a complete run ends
in `post`. -/
def Spec (pre : Store A V → Prop) (p : Prog A V R) (post : R → Store A V → Prop) (survives : (A → V) → Prop) : Prop :=
  ∀ s, pre s → (∀ n, survives (p.crash s n)) ∧ post (p.run s).1 (p.run s).2

namespace Spec

variable {pre : Store A V → Prop} {survives : (A → V) → Prop}

theorem done {r : R} {post : R → Store A V → Prop}
    (kept : ∀ s, pre s → survives s.disk ∧ post r s) : Spec pre (.done r) post survives :=
  fun s holds => ⟨fun _ => (kept s holds).1, (kept s holds).2⟩

theorem bind {p : Prog A V R} {next : R → Prog A V S} {mid : R → Store A V → Prop}
    {post : S → Store A V → Prop} (first : Spec pre p mid survives)
    (second : ∀ r, Spec (mid r) (next r) post survives) : Spec pre (p.bind next) post survives := by
  intro s holds
  obtain ⟨crashes, middle⟩ := first s holds
  obtain ⟨later, final⟩ := second _ _ middle
  refine ⟨fun n => ?_, by rw [Prog.run_bind]; exact final⟩
  rcases Nat.le_total n (p.writes s) with early | late
  · rw [Prog.crash_bind_of_le _ _ _ _ early]
    exact crashes n
  · rw [Prog.crash_bind_of_ge _ _ _ _ late]
    exact later _

/-- The loop rule: one crash condition holds throughout, the invariant counts iterations. -/
theorem forFrom {body : Nat → Prog A V Unit} {inv : Nat → Store A V → Prop} {last : Nat}
    (survivesInv : ∀ i s, i ≤ last → inv i s → survives s.disk)
    (step : ∀ i, i < last → Spec (inv i) (body i) (fun _ => inv (i + 1)) survives)
    (first count : Nat) (total : first + count = last) :
    Spec (inv first) (Prog.forFrom body first count) (fun _ => inv last) survives := by
  induction count generalizing first with
  | zero =>
    rw [Nat.add_zero] at total
    subst total
    exact done fun s holds => ⟨survivesInv first s (Nat.le_refl first) holds, holds⟩
  | succ count ih =>
    exact bind (step first (by omega)) fun _ => ih (first + 1) (by omega)

theorem weaken {pre' : Store A V → Prop} {p : Prog A V R} {post post' : R → Store A V → Prop}
    {survives' : (A → V) → Prop} (spec : Spec pre p post survives)
    (stronger : ∀ s, pre' s → pre s) (weaker : ∀ r s, post r s → post' r s)
    (tolerant : ∀ disk, survives disk → survives' disk) : Spec pre' p post' survives' :=
  fun s holds =>
    have result := spec s (stronger s holds)
    ⟨fun n => tolerant _ (result.1 n), weaker _ _ result.2⟩

end Spec

end BlockDevice
