import DeisoXv6.Vm.DemandLoad
import DeisoXv6.Vm.Reach

/-! Which bytes copyout, copyin and copyinstr touch, and whether the VMAs around them allow it. walkaddr
asks for a VMA at the start of the page only, and for none of its permissions. -/

set_option autoImplicit false

namespace DeisoXv6

open List Semantics Bytes

section Page

variable {va i p : Nat}

theorem next_page (low : p * PGSIZE < MAXVA) : u64 (p * PGSIZE + PGSIZE) = (p + 1) * PGSIZE := by
  unfold MAXVA PGSIZE at *
  unfold u64
  omega

theorem page_of_lt (first : i < PGSIZE - va % PGSIZE) : (va + i) / PGSIZE = va / PGSIZE := by
  unfold PGSIZE at *
  omega

theorem page_of_ge (later : PGSIZE - va % PGSIZE ≤ i) : va / PGSIZE < (va + i) / PGSIZE := by
  unfold PGSIZE at *
  omega

theorem add_of_ge (later : PGSIZE - va % PGSIZE ≤ i) :
    (va / PGSIZE + 1) * PGSIZE + (i - (PGSIZE - va % PGSIZE)) = va + i := by
  unfold PGSIZE at *
  omega

theorem offset_of_lt (first : i < PGSIZE - va % PGSIZE) : (va + i) % PGSIZE = va % PGSIZE + i := by
  unfold PGSIZE at *
  omega

end Page

variable {len n max : Nat} {r : List UInt8 × Bool} {src : List UInt8}

section Turns

variable {s t : Sys} {root page : PageNo} {fuel va : Nat}

theorem sub_pgrounddown : va - pgrounddown va = va % PGSIZE := by
  unfold pgrounddown PGSIZE
  omega

theorem copyinLoop_zero : Returns (copyinLoop root fuel va 0) s ([], true) s := by
  cases fuel with
  | zero => exact returns_pure.mpr ⟨rfl, rfl⟩
  | succ fuel =>
    unfold copyinLoop
    rw [if_pos rfl]
    exact returns_pure.mpr ⟨rfl, rfl⟩

theorem copyoutLoop_zero : Returns (copyoutLoop root fuel va []) s (0, true) s := by
  cases fuel with
  | zero => exact returns_pure.mpr ⟨rfl, rfl⟩
  | succ fuel =>
    unfold copyoutLoop
    rw [if_pos rfl]
    exact returns_pure.mpr ⟨rfl, rfl⟩

/-- A turn of copyin. -/
theorem returns_copyinLoop (more : len ≠ 0) :
    Returns (copyinLoop root (fuel + 1) va len) s r t ↔ ∃ a u, Returns (walkaddr root (pgrounddown va)) s a u ∧
      match a with
      | none => r = ([], false) ∧ t = u
      | some page => ∃ rest, Returns (copyinLoop root fuel (u64 (pgrounddown va + PGSIZE))
          (len - min (PGSIZE - va % PGSIZE) len)) u rest t ∧
          r = (slice (u.mem page) (va % PGSIZE) (min (PGSIZE - va % PGSIZE) len) ++ rest.1, rest.2) := by
  rw [copyinLoop, if_neg more, returns_bind, ← sub_pgrounddown]
  refine exists_congr fun a => exists_congr fun u => and_congr_right fun _ => ?_
  cases a with
  | none => exact returns_pure
  | some page =>
    dsimp only
    rw [returns_get_bind, returns_bind]
    refine exists_congr fun rest => ⟨fun ⟨t', loop, run⟩ => ?_, fun ⟨loop, same⟩ => ⟨t, loop, ?_⟩⟩
    · obtain ⟨rfl, rfl⟩ := returns_pure.mp run
      exact ⟨loop, rfl⟩
    · exact returns_pure.mpr ⟨same, rfl⟩

/-- A turn of copyout. -/
theorem returns_copyoutLoop (more : src ≠ []) {r : Nat × Bool} :
    Returns (copyoutLoop root (fuel + 1) va src) s r t ↔ ∃ a u, Returns (walkaddr root (pgrounddown va)) s a u ∧
      match a with
      | none => r = (0, false) ∧ t = u
      | some page => ∃ rest, Returns (copyoutLoop root fuel (u64 (pgrounddown va + PGSIZE))
          (src.drop (min (PGSIZE - va % PGSIZE) src.length)))
          (u.store page (va % PGSIZE) (src.take (min (PGSIZE - va % PGSIZE) src.length))) rest t ∧
          r = (min (PGSIZE - va % PGSIZE) src.length + rest.1, rest.2) := by
  rw [copyoutLoop, if_neg more, returns_bind, ← sub_pgrounddown]
  refine exists_congr fun a => exists_congr fun u => and_congr_right fun _ => ?_
  cases a with
  | none => exact returns_pure
  | some page =>
    dsimp only
    rw [returns_modify_bind, returns_bind]
    refine exists_congr fun rest => ⟨fun ⟨t', loop, run⟩ => ?_, fun ⟨loop, same⟩ => ⟨t, loop, ?_⟩⟩
    · obtain ⟨rfl, rfl⟩ := returns_pure.mp run
      exact ⟨loop, rfl⟩
    · exact returns_pure.mpr ⟨same, rfl⟩

theorem store_slice {off : Nat} : s.store page off (slice (s.mem page) off n) = s := by
  have same : overlay (s.mem page) off (slice (s.mem page) off n) = s.mem page := by
    funext x
    by_cases inside : off ≤ x ∧ x < off + n
    · rw [overlay_slice inside.1 inside.2]
      congr 1
      omega
    · exact overlay_outside (by rw [length_slice]; omega)
  unfold Sys.store
  rw [same, Function.update_eq_self]

/-- copyin does what copyout would do with the bytes that are there. -/
theorem copyinLoop_copyout (len : Nat) : ∃ src : List UInt8, src.length = len ∧
    (∀ r t, Returns (copyinLoop root fuel va len) s r t →
      r.1 <+: src ∧ Returns (copyoutLoop root fuel va src) s (r.1.length, r.2) t) ∧
    ((∃ e, Fails (copyinLoop root fuel va len) s e) ↔ ∃ e, Fails (copyoutLoop root fuel va src) s e) := by
  have blank : (List.replicate len (0 : UInt8)).length = len := length_replicate
  induction fuel generalizing s va len with
  | zero =>
    refine ⟨_, blank, fun r t run => ?_, iff_of_false (fun ⟨_, fails⟩ => fails_pure fails)
      fun ⟨_, fails⟩ => fails_pure fails⟩
    obtain ⟨rfl, rfl⟩ := returns_pure.mp run
    exact ⟨List.nil_prefix, returns_pure.mpr ⟨rfl, rfl⟩⟩
  | succ fuel ih =>
    by_cases empty : len = 0
    · subst empty
      refine ⟨[], rfl, fun r t run => ?_, iff_of_false (fun ⟨_, fails⟩ => copyinLoop_zero.not_fails fails)
        fun ⟨_, fails⟩ => copyoutLoop_zero.not_fails fails⟩
      obtain ⟨rfl, rfl⟩ := copyinLoop_zero.unique run
      exact ⟨prefix_rfl, copyoutLoop_zero⟩
    · have some : List.replicate len (0 : UInt8) ≠ [] := ne_nil_of_length_pos (by omega)
      rcases returns_or_fails (walkaddr root (pgrounddown va)) s with ⟨_ | page, u, walked⟩ | ⟨e, fails⟩
      · refine ⟨_, blank, fun r t run => ?_, ?_⟩
        · obtain ⟨_, _, walked', rest⟩ := (returns_copyinLoop empty).mp run
          obtain ⟨rfl, rfl⟩ := walked.unique walked'
          obtain ⟨rfl, rfl⟩ := rest
          exact ⟨List.nil_prefix, (returns_copyoutLoop some).mpr ⟨none, t, walked, rfl, rfl⟩⟩
        · simp only [copyinLoop, copyoutLoop, if_neg empty, if_neg some, fails_bind_of_returns walked, fails_pure]
      · generalize size : min (PGSIZE - va % PGSIZE) len = n
        obtain ⟨src, length, returns, fails⟩ :=
          @ih u (u64 (pgrounddown va + PGSIZE)) (len - n) length_replicate
        have short : (slice (u.mem page) (va % PGSIZE) n).length = n := length_slice
        have whole : (slice (u.mem page) (va % PGSIZE) n ++ src).length = len := by
          rw [length_append, short]
          omega
        have some : slice (u.mem page) (va % PGSIZE) n ++ src ≠ [] := ne_nil_of_length_pos (by omega)
        refine ⟨slice (u.mem page) (va % PGSIZE) n ++ src, whole, fun r t run => ?_, ?_⟩
        · obtain ⟨_, _, walked', rest⟩ := (returns_copyinLoop empty).mp run
          obtain ⟨rfl, rfl⟩ := walked.unique walked'
          obtain ⟨rest, loop, rfl⟩ := rest
          rw [size] at loop ⊢
          obtain ⟨begins, copied⟩ := returns rest t loop
          refine ⟨(prefix_append_right_inj _).mpr begins, (returns_copyoutLoop some).mpr
            ⟨_, u, walked, (rest.1.length, rest.2), ?_, ?_⟩⟩
          · rw [whole, size, take_left' short, drop_left' short, store_slice]
            exact copied
          · rw [whole, size, length_append, short]
        · simp only [copyinLoop, copyoutLoop, if_neg empty, if_neg some, fails_bind_of_returns walked, fails_get_bind,
            fails_modify_bind, sub_pgrounddown, whole, size, take_left' short, drop_left' short, store_slice]
          simpa only [fails_bind, fails_pure, and_false, exists_false, or_false] using fails
      · refine ⟨_, blank, fun r t run => ?_, iff_of_true ⟨e, ?_⟩ ⟨e, ?_⟩⟩
        · obtain ⟨_, _, walked, -⟩ := (returns_copyinLoop empty).mp run
          exact absurd fails walked.not_fails
        · rw [copyinLoop, if_neg empty]
          exact fails_bind.mpr (.inl fails)
        · rw [copyoutLoop, if_neg some]
          exact fails_bind.mpr (.inl fails)

/-- copyinstr returns what copyin does, of the bytes up to the null byte or of all. -/
theorem copyinstrLoop_copyin (run : Returns (copyinstrLoop root fuel va max) s r t) :
    (r.2 = true ∧ r.1.length ≤ max ∧ Returns (copyinLoop root fuel va r.1.length) s (r.1, true) t ∧
      ∃ text, r.1 = text ++ [0] ∧ 0 ∉ text) ∨
    (r.2 = false ∧ 0 ∉ r.1 ∧ ∃ ok, Returns (copyinLoop root fuel va max) s (r.1, ok) t) := by
  induction fuel generalizing s va max r with
  | zero =>
    obtain ⟨rfl, rfl⟩ := returns_pure.mp run
    exact .inr ⟨rfl, not_mem_nil, true, returns_pure.mpr ⟨rfl, rfl⟩⟩
  | succ fuel ih =>
    unfold copyinstrLoop at run
    split at run
    · rename_i empty
      subst empty
      obtain ⟨rfl, rfl⟩ := returns_pure.mp run
      exact .inr ⟨rfl, not_mem_nil, true, copyinLoop_zero⟩
    · rename_i more
      obtain ⟨a, u, walked, run⟩ := returns_bind.mp run
      cases a with
      | none =>
        obtain ⟨rfl, rfl⟩ := returns_pure.mp run
        exact .inr ⟨rfl, not_mem_nil, false, (returns_copyinLoop more).mpr ⟨none, t, walked, rfl, rfl⟩⟩
      | some page =>
        dsimp only at run
        rw [returns_get_bind, sub_pgrounddown] at run
        have room : 0 < PGSIZE - va % PGSIZE := Nat.sub_pos_of_lt (Nat.mod_lt _ (by decide))
        generalize size : min (PGSIZE - va % PGSIZE) max = n at run
        generalize text : (slice (u.mem page) (va % PGSIZE) n).takeWhile (· ≠ 0) = read at run
        obtain ⟨clean, ⟨ends, found⟩ | whole⟩ := takeWhile_slice text
        · rw [if_pos ends] at run
          obtain ⟨rfl, rfl⟩ := returns_pure.mp run
          have length : (read ++ [0]).length = read.length + 1 := length_append
          have turn : min (PGSIZE - va % PGSIZE) (read.length + 1) = read.length + 1 := by omega
          refine .inl ⟨rfl, by rw [length]; omega, ?_, read, rfl, clean⟩
          rw [length]
          refine (returns_copyinLoop (Nat.succ_ne_zero _)).mpr ⟨some page, t, walked, ([], true), ?_, ?_⟩
          · rw [turn, Nat.sub_self]
            exact copyinLoop_zero
          · rw [turn, found, append_nil]
        · have length : read.length = n := by rw [← whole, length_slice]
          rw [if_neg (by omega)] at run
          obtain ⟨rest, u', loop, run⟩ := returns_bind.mp run
          obtain ⟨rfl, rfl⟩ := returns_pure.mp run
          have onward {len : Nat} {ok : Bool} (more : len ≠ 0) (same : min (PGSIZE - va % PGSIZE) len = n)
              (run : Returns (copyinLoop root fuel (u64 (pgrounddown va + PGSIZE)) (len - n)) u (rest.1, ok) t) :
              Returns (copyinLoop root (fuel + 1) va len) s (read ++ rest.1, ok) t := by
            refine (returns_copyinLoop more).mpr ⟨some page, u, walked, (rest.1, ok), ?_⟩
            rw [same, whole]
            exact ⟨run, rfl⟩
          rcases ih loop with ⟨found, bound, copied, text', last, clean'⟩ | ⟨missing, clean', ok, copied⟩
          · have positive : 0 < rest.1.length := by simp [last]
            have sum : (read ++ rest.1).length = n + rest.1.length := by rw [length_append, length]
            refine .inl ⟨found, by rw [sum]; omega, ?_, read ++ text', ?_, ?_⟩
            · change Returns (copyinLoop root (fuel + 1) va (read ++ rest.1).length) s (read ++ rest.1, true) t
              rw [sum]
              exact onward (by omega) (by omega) (by rwa [Nat.add_sub_cancel_left])
            · rw [last, append_assoc]
            · simp [clean, clean']
          · exact .inr ⟨missing, by simp [clean, clean'], ok, onward more size copied⟩

theorem fails_copyinstrLoop {e : Fault} (fails : Fails (copyinstrLoop root fuel va max) s e) :
    Fails (copyinLoop root fuel va max) s e ∧
      ∀ len ≤ max, ∀ bytes t, Returns (copyinLoop root fuel va len) s (bytes, true) t → 0 ∉ bytes := by
  induction fuel generalizing s va max with
  | zero => exact absurd fails fails_pure
  | succ fuel ih =>
    unfold copyinstrLoop at fails
    split at fails
    · exact absurd fails fails_pure
    · rename_i more
      -- no byte is read without a page for it
      have turn {len : Nat} {bytes : List UInt8} {t : Sys} (member : 0 ∈ bytes)
          (run : Returns (copyinLoop root (fuel + 1) va len) s (bytes, true) t) := by
        have more : len ≠ 0 := by
          rintro rfl
          obtain ⟨same, -⟩ := copyinLoop_zero.unique run
          cases same
          exact not_mem_nil member
        exact (returns_copyinLoop more).mp run
      rw [copyinLoop, if_neg more]
      rcases fails_bind.mp fails with early | ⟨a, u, walked, later⟩
      · refine ⟨fails_bind.mpr (.inl early), fun len _ bytes t run member => ?_⟩
        obtain ⟨a, u, walked, -⟩ := turn member run
        exact absurd early walked.not_fails
      · cases a with
        | none => exact absurd later fails_pure
        | some page =>
          dsimp only at later
          rw [fails_get_bind] at later
          rw [fails_bind_of_returns walked, fails_get_bind]
          rw [sub_pgrounddown] at later ⊢
          generalize size : min (PGSIZE - va % PGSIZE) max = n at later ⊢
          generalize text : (slice (u.mem page) (va % PGSIZE) n).takeWhile (· ≠ 0) = read at later
          obtain ⟨clean, ⟨ends, -⟩ | whole⟩ := takeWhile_slice text
          · rw [if_pos ends] at later
            exact absurd later fails_pure
          · rw [if_neg (by rw [← whole, length_slice]; omega)] at later
            rcases fails_bind.mp later with loop | ⟨_, _, _, wrong⟩
            · obtain ⟨stops, texts⟩ := ih loop
              refine ⟨fails_bind.mpr (.inl stops), fun len shorter bytes t run member => ?_⟩
              obtain ⟨_, _, walked', rest⟩ := turn member run
              obtain ⟨rfl, rfl⟩ := walked.unique walked'
              obtain ⟨⟨rest, ok⟩, copied, same⟩ := rest
              cases same
              rcases mem_append.mp member with here | behind
              · obtain ⟨j, small, null⟩ := mem_slice.mp here
                exact clean (whole ▸ mem_slice.mpr ⟨j, by omega, null⟩)
              · exact texts _ (by omega) rest t copied behind
            · exact absurd wrong fails_pure

end Turns

section Loops

variable {g g' : Layout} {s s' t : Sys} {root page : PageNo} {fuel va : Nat}

theorem Steps.low {p : Nat} (step : Steps root p page g s g' t) : p * PGSIZE < MAXVA :=
  step.opened.low

theorem Steps.turn {k : Nat} (step : Steps root (va / PGSIZE) page g s g' t)
    (size : min (PGSIZE - va % PGSIZE) len = n)
    (count : ∀ i < len - n, i < k ↔ t.Reaches root (va / PGSIZE + 1) (((va / PGSIZE + 1) * PGSIZE + i) / PGSIZE)) :
    ∀ i < len, i < n + k ↔ s.Reaches root (va / PGSIZE) ((va + i) / PGSIZE) := by
  intro i small
  by_cases first : i < PGSIZE - va % PGSIZE
  · rw [page_of_lt first]
    exact iff_of_true (by omega) (step.reaches_self step.opened)
  · have later : PGSIZE - va % PGSIZE ≤ i := Nat.le_of_not_lt first
    have onward := count (i - n) (by omega)
    rw [show n = PGSIZE - va % PGSIZE by omega, add_of_ge later,
      ← step.reaches step.opened (page_of_ge later)] at onward
    rw [← onward]
    omega

theorem stuck_count (stuck : ∀ q, va / PGSIZE ≤ q → ¬s.Reaches root (va / PGSIZE) q) :
    ∀ i < len, i < 0 ↔ s.Reaches root (va / PGSIZE) ((va + i) / PGSIZE) := fun i _ =>
  iff_of_false (Nat.not_lt_zero i) (stuck _ (Nat.div_le_div_right (Nat.le_add_right va i)))

theorem copyoutLoop_count {r : Nat × Bool} (tables : Tables g s)
    (known : g.tree root [] = some root) (safe : SafeFrom g s root (va / PGSIZE)) (solid : s.SolidFiles)
    (enough : src.length ≤ fuel) (run : Returns (copyoutLoop root fuel va src) s r s') :
    (∀ i < src.length, i < r.1 ↔ s.Reaches root (va / PGSIZE) ((va + i) / PGSIZE)) ∧
      (r.2 = true ↔ r.1 = src.length) ∧ r.1 ≤ src.length := by
  induction fuel generalizing g s va src r with
  | zero =>
    obtain ⟨rfl, -⟩ := returns_pure.mp run
    have empty : src.length = 0 := Nat.le_zero.mp enough
    exact ⟨fun i small => by omega, iff_of_true rfl empty.symm, Nat.zero_le _⟩
  | succ fuel ih =>
    by_cases empty : src = []
    · subst empty
      obtain ⟨rfl, -⟩ := copyoutLoop_zero.unique run
      exact ⟨fun i small => absurd small (Nat.not_lt_zero i), iff_of_true rfl rfl, Nat.zero_le _⟩
    · have positive : 0 < src.length := length_pos_iff.mpr empty
      obtain ⟨a, t, walked, run⟩ := (returns_copyoutLoop empty).mp run
      rw [pgrounddown_eq_mul] at walked
      rcases walkaddr_step tables known safe solid walked with ⟨rfl, stuck⟩ | ⟨page, g', rfl, step⟩
      · obtain ⟨rfl, -⟩ := run
        exact ⟨stuck_count stuck, iff_of_false Bool.false_ne_true positive.ne, Nat.zero_le _⟩
      · obtain ⟨rest, loop, rfl⟩ := run
        rw [pgrounddown_eq_mul, next_page step.low] at loop
        have room : 0 < PGSIZE - va % PGSIZE := Nat.sub_pos_of_lt (Nat.mod_lt _ (by decide))
        generalize size : min (PGSIZE - va % PGSIZE) src.length = n at loop ⊢
        have next : (va / PGSIZE + 1) * PGSIZE / PGSIZE = va / PGSIZE + 1 := Nat.mul_div_cancel _ (by decide)
        have known' := step.tree _ _ _ known
        have safe' : SafeFrom g' (t.store page (va % PGSIZE) (src.take n)) root (va / PGSIZE + 1) :=
          (step.safe safe.tail).store step.tables step.data known'
        obtain ⟨count, whole, bound⟩ := ih (step.tables.store step.data) known' (next.symm ▸ safe')
          (step.files.solid solid) (by rw [length_drop]; omega) loop
        simp only [next, length_drop, step.tables.reaches_store step.data known'] at count whole bound
        refine ⟨step.turn size count, ?_, by dsimp only; omega⟩
        dsimp only
        rw [whole]
        omega

/-- The byte at an address, or what it will be once its page is mapped. -/
def Sys.byteAt (s : Sys) (root : PageNo) (a : Nat) : UInt8 := s.pageAt root (a / PGSIZE) (a % PGSIZE)

theorem Steps.byteAt {a q : Nat} (step : Steps root (va / PGSIZE) page g s g' t)
    (safe : SafeFrom g s root (va / PGSIZE)) (after : va / PGSIZE < a / PGSIZE)
    (reaches : s.Reaches root (va / PGSIZE) q) (le : a / PGSIZE ≤ q) : t.byteAt root a = s.byteAt root a := by
  unfold Sys.byteAt
  rw [step.pageAt safe.tail after (reaches.opened _ (after.le) le)]

theorem Steps.byteAt_behind {i j : Nat} (step : Steps root (va / PGSIZE) page g s g' t)
    (safe : SafeFrom g s root (va / PGSIZE)) (size : n = PGSIZE - va % PGSIZE) (before : j ≤ i)
    (reaches : t.Reaches root (va / PGSIZE + 1) (((va / PGSIZE + 1) * PGSIZE + i) / PGSIZE)) :
    t.byteAt root ((va / PGSIZE + 1) * PGSIZE + j) = s.byteAt root (va + (n + j)) := by
  subst size
  have place (k : Nat) : (va / PGSIZE + 1) * PGSIZE + k = va + (PGSIZE - va % PGSIZE + k) := by
    rw [← add_of_ge (Nat.le_add_right ..), Nat.add_sub_cancel_left]
  rw [place, ← step.reaches step.opened (page_of_ge (Nat.le_add_right ..))] at reaches
  rw [place]
  exact step.byteAt safe (page_of_ge (Nat.le_add_right ..)) reaches (Nat.div_le_div_right (by omega))

theorem copyinLoop_count (tables : Tables g s)
    (known : g.tree root [] = some root) (safe : SafeFrom g s root (va / PGSIZE)) (solid : s.SolidFiles)
    (enough : len ≤ fuel) (run : Returns (copyinLoop root fuel va len) s r s') :
    (∀ i < len, i < r.1.length ↔ s.Reaches root (va / PGSIZE) ((va + i) / PGSIZE)) ∧
      (r.2 = true ↔ r.1.length = len) ∧ r.1.length ≤ len ∧
      ∀ i < r.1.length, r.1.getD i 0 = s.byteAt root (va + i) := by
  have nothing (s : Sys) (va i : Nat) (inside : i < ([] : List UInt8).length) :
      ([] : List UInt8).getD i 0 = s.byteAt root (va + i) := absurd inside (Nat.not_lt_zero i)
  induction fuel generalizing g s va len r with
  | zero =>
    obtain ⟨rfl, -⟩ := returns_pure.mp run
    exact ⟨fun i small => by omega, iff_of_true rfl (Nat.le_zero.mp enough).symm, Nat.zero_le _, nothing s va⟩
  | succ fuel ih =>
    by_cases empty : len = 0
    · subst empty
      obtain ⟨rfl, -⟩ := copyinLoop_zero.unique run
      exact ⟨fun i small => absurd small (Nat.not_lt_zero i), iff_of_true rfl rfl, Nat.zero_le _, nothing s va⟩
    · obtain ⟨a, t, walked, run⟩ := (returns_copyinLoop empty).mp run
      rw [pgrounddown_eq_mul] at walked
      rcases walkaddr_step tables known safe solid walked with ⟨rfl, stuck⟩ | ⟨page, g', rfl, step⟩
      · obtain ⟨rfl, -⟩ := run
        exact ⟨stuck_count stuck, iff_of_false Bool.false_ne_true (Ne.symm empty), Nat.zero_le _, nothing s va⟩
      · obtain ⟨rest, loop, rfl⟩ := run
        rw [pgrounddown_eq_mul, next_page step.low] at loop
        rw [step.contents]
        have room : 0 < PGSIZE - va % PGSIZE := Nat.sub_pos_of_lt (Nat.mod_lt _ (by decide))
        generalize size : min (PGSIZE - va % PGSIZE) len = n at loop ⊢
        have next : (va / PGSIZE + 1) * PGSIZE / PGSIZE = va / PGSIZE + 1 := Nat.mul_div_cancel _ (by decide)
        obtain ⟨count, whole, bound, bytes⟩ := ih step.tables (step.tree _ _ _ known)
          (next.symm ▸ step.safe safe.tail) (step.files.solid solid) (by omega) loop
        simp only [next] at count
        have length : (slice (s.pageAt root (va / PGSIZE)) (va % PGSIZE) n).length = n := length_slice
        rw [length_append, length]
        refine ⟨step.turn size count, ?_, by omega, fun i inside => ?_⟩
        · rw [whole]
          omega
        · by_cases first : i < n
          · rw [getD_append _ _ _ _ (by omega), getD_slice first, Sys.byteAt, page_of_lt (by omega),
              offset_of_lt (by omega)]
          · have onward := step.byteAt_behind safe (n := n) (by omega) (Nat.le_refl (i - n))
              ((count (i - n) (by omega)).mp (by omega))
            rw [getD_append_right _ _ _ _ (by omega), length, bytes _ (by omega), onward,
              Nat.add_sub_cancel' (by omega)]

theorem getD_mem {l : List UInt8} {i : Nat} (inside : i < l.length) : l.getD i 0 ∈ l := by
  rw [getD_eq_getElem _ _ inside]
  exact getElem_mem inside

theorem copyinstrLoop_count (tables : Tables g s)
    (known : g.tree root [] = some root) (safe : SafeFrom g s root (va / PGSIZE)) (solid : s.SolidFiles)
    (enough : max ≤ fuel) (run : Returns (copyinstrLoop root fuel va max) s r s') :
    (∀ i < max, i < r.1.length ↔ s.Reaches root (va / PGSIZE) ((va + i) / PGSIZE) ∧
        ∀ j < i, s.byteAt root (va + j) ≠ 0) ∧
      (r.2 = true ↔ ∃ j < r.1.length, s.byteAt root (va + j) = 0) ∧ r.1.length ≤ max ∧
      ∀ i < r.1.length, r.1.getD i 0 = s.byteAt root (va + i) := by
  rcases copyinstrLoop_copyin run with ⟨found, bound, copied, text, ends, clean⟩ | ⟨missing, clean, ok, copied⟩
  · obtain ⟨count, -, -, bytes⟩ := copyinLoop_count tables known safe solid (bound.trans enough) copied
    dsimp only at count bytes
    have length : r.1.length = text.length + 1 := by rw [ends, length_append, length_singleton]
    have before : ∀ j < text.length, s.byteAt root (va + j) ≠ 0 := by
      intro j less null
      have here := bytes j (by omega)
      rw [ends, getD_append _ _ _ _ less, null] at here
      exact clean (here ▸ getD_mem less)
    have null : s.byteAt root (va + text.length) = 0 := by
      rw [← bytes _ (by omega), ends, getD_append_right _ _ _ _ (le_rfl), Nat.sub_self]
      rfl
    refine ⟨fun i small => ⟨fun inside => ?_, fun ⟨_, all⟩ => ?_⟩, iff_of_true found ⟨_, by omega, null⟩, bound, bytes⟩
    · exact ⟨(count i inside).mp inside, fun j less => before j (by omega)⟩
    · by_contra outside
      exact all text.length (by omega) null
  · obtain ⟨count, -, bound, bytes⟩ := copyinLoop_count tables known safe solid enough copied
    have nonzero : ∀ j < r.1.length, s.byteAt root (va + j) ≠ 0 := fun j less null =>
      clean (null ▸ bytes j less ▸ getD_mem less)
    refine ⟨fun i small => ?_, iff_of_false (by simp [missing]) fun ⟨j, less, null⟩ => nonzero j less null, bound, bytes⟩
    rw [← count i small]
    exact ⟨fun inside => ⟨inside, fun j less => nonzero j (less.trans inside)⟩, And.left⟩

end Loops

def Sys.Allows (s : Sys) (prot : BitVec 32) (a : Nat) : Prop :=
  ∃ vma, s.vmaAt a = some vma ∧ has (s.vmas.get vma).permission prot = true

/-- A copy of the bytes `va + i` that are asked for has touched the first `count` of them. -/
structure Respects (s : Sys) (prot : BitVec 32) (va : Nat) (asked : Nat → Prop) (count : Nat) (ok : Bool) : Prop where
  touched : ∀ i < count, s.Allows prot (va + i)
  refused : (∃ i, asked i ∧ ¬s.Allows prot (va + i)) → ok = false

/-- The VMAs have the permission wherever the copy can get. -/
def Sys.Permitted (s : Sys) (prot : BitVec 32) (root : PageNo) (va : Nat) (asked : Nat → Prop) : Prop :=
  ∀ i, asked i → s.Reaches root (va / PGSIZE) ((va + i) / PGSIZE) → s.Allows prot (va + i)

/-- The bytes of a string, with the null byte at its end. -/
def Sys.InString (s : Sys) (root : PageNo) (va max i : Nat) : Prop :=
  i < max ∧ ∀ j < i, s.byteAt root (va + j) ≠ 0

section Permissions

variable {g : Layout} {s : Sys} {root : PageNo} {va : Nat}

theorem respects_iff {prot : BitVec 32} {asked : Nat → Prop} {count : Nat} {ok : Bool} (inside : ∀ i < count, asked i)
    (gets : ∀ i, asked i → (i < count ↔ s.Reaches root (va / PGSIZE) ((va + i) / PGSIZE)))
    (all : ok = true → ∀ i, asked i → i < count) :
    Respects s prot va asked count ok ↔ s.Permitted prot root va asked := by
  constructor
  · exact fun respects i ask reaches => respects.touched i ((gets i ask).mpr reaches)
  · intro permitted
    have touched : ∀ i < count, s.Allows prot (va + i) := fun i less =>
      permitted i (inside i less) ((gets i (inside i less)).mp less)
    refine ⟨touched, fun ⟨i, ask, denied⟩ => ?_⟩
    by_contra done
    exact denied (touched i (all (by simpa using done) i ask))

/-- The copies of vm.c keep to the permissions of the VMAs. -/
theorem copies_respect_iff (tables : Tables g s) (known : g.tree root [] = some root)
    (safe : SafeFrom g s root (va / PGSIZE)) (solid : s.SolidFiles) :
    (∀ src r s', Returns (copyout root va src) s r s' → (Respects s PROT_WRITE va (· < src.length) r.1 r.2 ↔
        s.Permitted PROT_WRITE root va (· < src.length))) ∧ (∀ len r s', Returns (copyin root va len) s r s' →
      (Respects s PROT_READ va (· < len) r.1.length r.2 ↔ s.Permitted PROT_READ root va (· < len))) ∧
    (∀ max r s', Returns (copyinstr root va max) s r s' →
      (Respects s PROT_READ va (s.InString root va max) r.1.length r.2 ↔
        s.Permitted PROT_READ root va (s.InString root va max))) := by
  refine ⟨fun src r s' run => ?_, fun len r s' run => ?_, fun max r s' run => ?_⟩
  · obtain ⟨count, whole, bound⟩ := copyoutLoop_count tables known safe solid (le_rfl) run
    exact respects_iff (fun i less => less.trans_le bound) count fun done i less => whole.mp done ▸ less
  · obtain ⟨count, whole, bound, -⟩ := copyinLoop_count tables known safe solid (le_rfl) run
    exact respects_iff (fun i less => less.trans_le bound) count fun done i less => whole.mp done ▸ less
  · obtain ⟨count, null, bound, -⟩ := copyinstrLoop_count tables known safe solid (le_rfl) run
    refine respects_iff (fun i less => ?_) (fun i ask => ?_) fun done i ask => ?_
    · exact ⟨less.trans_le bound, ((count i (less.trans_le bound)).mp less).2⟩
    · rw [count i ask.1]
      exact and_iff_left ask.2
    · obtain ⟨j, before, zero⟩ := null.mp done
      by_contra outside
      exact ask.2 j (by omega) zero

end Permissions

theorem single_absent {v : Vma} {pages : List PageNo} {va : Nat} : ¬(Sys.single v pages).Present emptyRoot va := by
  have zero : ∀ i, (Sys.single v pages).pte emptyRoot i = 0 := by
    intro i
    change BitVec.ofNat 64 (LittleEndian.load 8 (fun _ => 0) (8 * i)) = 0
    rw [LittleEndian.load_zero]
    rfl
  unfold Sys.Present Sys.entry upper
  rw [Sys.walkDown, zero, has_zero, if_neg Bool.false_ne_true, has_zero]
  exact Bool.false_ne_true

theorem heapProcess_vma (vma : VmaRef) : (heapProcess.vmas.get vma).file = none ∧
    CleanProt (heapProcess.vmas.get vma).permission := by
  have free : Vma.free.file = none ∧ CleanProt Vma.free.permission := ⟨rfl, by decide⟩
  cases vma with
  | start p =>
    by_cases first : p = 0
    · subst first
      exact ⟨rfl, by decide⟩
    · have other : heapProcess.vmas.get (.start p) = .free := by
        simp [heapProcess, Sys.single, VmaTable.get, first]
      rw [other]
      exact free
  | slot i =>
    by_cases first : i = 0
    · subst first
      exact ⟨rfl, by decide⟩
    · have other : heapProcess.vmas.get (.slot i) = .free := by
        simp [heapProcess, Sys.single, VmaTable.get, first]
      rw [other]
      exact free

/-- The kernel stores into a segment that is readable and executable only. -/
theorem copyout_to_text : WellFormed ([VmaRef.start 0, .slot 0].map fun r => (textProcess.vmas.get r).region) ∧
    ∃ s', Returns (copyout emptyRoot 0 [7]) textProcess (1, true) s' ∧ ¬textProcess.Allows PROT_WRITE 0 := by
  refine ⟨single_wellFormed ⟨by decide, by decide⟩ (by decide), _, returns_final (by decide +kernel), ?_⟩
  rintro ⟨vma, place, write⟩
  obtain rfl : VmaRef.slot 0 = vma := Option.some.inj ((by decide : _ = _).symm.trans place)
  exact absurd write (by decide)

theorem copyout_to_heap : ∃ s', Returns (copyout emptyRoot PGSIZE [1, 2]) heapProcess (2, true) s' ∧
    Respects heapProcess PROT_WRITE PGSIZE (· < 2) 2 true := by
  have run := returns_final (m := copyout emptyRoot PGSIZE [1, 2]) (s := heapProcess) (a := (2, true))
    (by decide +kernel)
  have solid : heapProcess.SolidFiles := fun vma f i file _ => by
    rw [(heapProcess_vma vma).1] at file
    contradiction
  refine ⟨_, run, ((copies_respect_iff heapProcess_tables (single_tree _)
    (fun q _ _ present => absurd present single_absent) solid).1 _ _ _ run).mpr ?_⟩
  intro i small _
  refine ⟨.slot 0, ?_, by decide⟩
  match i, small with
  | 0, _ => decide
  | 1, _ => decide

end DeisoXv6
