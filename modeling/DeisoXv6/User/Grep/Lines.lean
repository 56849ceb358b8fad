import DeisoXv6.User.Grep.Matcher

/-! The loop of grep over what read returns. Its buffer carries the unfinished line from one read to the next; a
pointer into it is given by the bytes from there to the NUL behind the last byte read. -/

set_option autoImplicit false

namespace DeisoXv6.Grep

open List

def NEWLINE : UInt8 := 10

/-- The size of `buf`. -/
def BUFSIZE : Nat := 1024

/-- strchr of ulib.c, as the distance from `s`. -/
def strchr (c : UInt8) : List UInt8 → Option Nat
  | [] => none
  | x :: s => if x = 0 then none else if x = c then some 0 else (strchr c s).map (· + 1)

variable {c x : UInt8} {re cur s kept chunk input : List UInt8} {chunks : List (List UInt8)} {q : Nat}

theorem strchr_lt (found : strchr c s = some q) : q < s.length := by
  induction s generalizing q with
  | nil => cases found
  | cons x s ih =>
    rw [strchr] at found
    split_ifs at found
    · cases found
      exact Nat.zero_lt_succ _
    · obtain ⟨q', found', rfl⟩ := Option.map_eq_some_iff.mp found
      exact Nat.succ_lt_succ (ih found')

/-- The inner loop: what it writes, and where it leaves `p`. -/
def scan (re p : List UInt8) : List (List UInt8) × List UInt8 :=
  match found : strchr NEWLINE p with
  | none => ([], p)
  | some q =>
    let ended := p.set q 0
    if matchRe re (ended.takeWhile (· ≠ 0)) then
      let whole := ended.set q NEWLINE
      let (writes, rest) := scan re (whole.drop (q + 1))
      (whole.take (q + 1) :: writes, rest)
    else scan re (ended.drop (q + 1))
termination_by p.length
decreasing_by
  all_goals
    have inside := strchr_lt found
    simp only [length_drop, length_set]
    omega

/-- A turn of the outer loop, after a read of `chunk` behind the bytes kept. -/
def turn (re kept chunk : List UInt8) : List (List UInt8) × List UInt8 :=
  let buf := kept ++ chunk ++ [0]
  let m := kept.length + chunk.length
  let (writes, p) := scan re buf
  (writes, if m > 0 then p.take (m - (buf.length - p.length)) else kept)

/-- The bytes asked for. -/
def request (kept : List UInt8) : Nat := BUFSIZE - kept.length - 1

/-- grep, from the bytes kept: `chunks` are what the calls of read return before one returns 0. -/
def grepFrom (re : List UInt8) : List UInt8 → (chunks : List (List UInt8)) → List (List UInt8)
  | _, [] => []
  | kept, chunk :: chunks => (turn re kept chunk).1 ++ grepFrom re (turn re kept chunk).2 chunks

def grep (re : List UInt8) (chunks : List (List UInt8)) : List (List UInt8) := grepFrom re [] chunks

/-- The calls of read may return `chunks`: each is a part of the input that is not empty and not larger than asked
for, and read returns 0 at the end of the input, or when it is asked for nothing. -/
def Arrives (re : List UInt8) : (kept input : List UInt8) → (chunks : List (List UInt8)) → Prop
  | kept, input, [] => input = [] ∨ request kept = 0
  | kept, input, chunk :: chunks => chunk ≠ [] ∧ chunk.length ≤ request kept ∧
      ∃ rest, input = chunk ++ rest ∧ Arrives re (turn re kept chunk).2 rest chunks

/-- The lines that a newline ends, when the first of them has begun with `cur`. -/
def lines : (cur s : List UInt8) → List (List UInt8)
  | _, [] => []
  | cur, c :: s => if c = NEWLINE then cur :: lines [] s else lines (cur ++ [c]) s

/-- What follows the last newline. -/
def unfinished : (cur s : List UInt8) → List UInt8
  | cur, [] => cur
  | cur, c :: s => if c = NEWLINE then unfinished [] s else unfinished (cur ++ [c]) s

def written (re : List UInt8) (ls : List (List UInt8)) : List (List UInt8) :=
  (ls.filter (matchRe re)).map (· ++ [NEWLINE])

theorem lines_append (s' : List UInt8) : lines cur (s ++ s') = lines cur s ++ lines (unfinished cur s) s' ∧
      unfinished cur (s ++ s') = unfinished (unfinished cur s) s' := by
  induction s generalizing cur with
  | nil => exact ⟨rfl, rfl⟩
  | cons c s ih =>
    simp only [cons_append, lines, unfinished]
    split_ifs
    · exact ⟨congrArg _ ih.1, ih.2⟩
    · exact ih

theorem length_unfinished_le : (unfinished cur s).length ≤ cur.length + s.length := by
  induction s generalizing cur with
  | nil => exact le_rfl
  | cons c s ih =>
    rw [unfinished]
    split_ifs <;> grind

theorem length_lines_lt : ∀ l ∈ lines cur s, l.length < cur.length + s.length := by
  induction s generalizing cur with
  | nil => exact fun _ mem => nomatch mem
  | cons c s ih =>
    rw [lines]
    split_ifs <;> grind

theorem le_head_lines : ∀ l ∈ (lines cur s).head?, cur.length ≤ l.length := by
  induction s generalizing cur with
  | nil => exact fun _ mem => nomatch mem
  | cons c s ih =>
    rw [lines]
    split_ifs <;> grind

/-- The bytes kept: a part of a line, without the NUL that ends it. -/
def Plain (s : List UInt8) : Prop := NEWLINE ∉ s ∧ 0 ∉ s

section

variable (plain : Plain cur)

include plain

theorem Plain.concat (line : c ≠ NEWLINE) (text : 0 ∉ c :: s) : Plain (cur ++ [c]) := by
  have nonzero : 0 ≠ c := fun same => text (same ▸ mem_cons_self)
  exact ⟨by simp [plain.1, line.symm], by simp [plain.2, nonzero]⟩

theorem Plain.unfinished (text : 0 ∉ s) : Plain (unfinished cur s) := by
  induction s generalizing cur with
  | nil => exact plain
  | cons c s ih =>
    have text' : 0 ∉ s := fun mem => text (mem_cons_of_mem c mem)
    rw [Grep.unfinished]
    split_ifs with line
    · exact ih ⟨not_mem_nil, not_mem_nil⟩ text'
    · exact ih (plain.concat line text) text'

theorem strchr_append : strchr NEWLINE (cur ++ s) = (strchr NEWLINE s).map (· + cur.length) := by
  induction cur with
  | nil => simp
  | cons c cur ih =>
    obtain ⟨line, text⟩ := plain
    rw [mem_cons, not_or] at line text
    rw [cons_append, strchr, if_neg (Ne.symm text.1), if_neg (Ne.symm line.1), ih ⟨line.2, text.2⟩, Option.map_map]
    rfl

theorem scan_newline (s : List UInt8) : scan re (cur ++ NEWLINE :: s) =
    ((if matchRe re cur then [cur ++ [NEWLINE]] else []) ++ (scan re s).1, (scan re s).2) := by
  have line : (cur ++ 0 :: s).takeWhile (· ≠ 0) = cur := by
    have text : ∀ x ∈ cur, decide (x ≠ 0) = true := fun x mem => decide_eq_true fun same => plain.2 (same ▸ mem)
    rw [takeWhile_append_of_pos text, takeWhile_cons_of_neg (by simp), append_nil]
  rw [scan.eq_def]
  split
  · rename_i none
    rw [strchr_append plain] at none
    cases none
  · rename_i q found
    rw [strchr_append plain] at found
    obtain rfl : 0 + cur.length = q := Option.some.inj found
    have front : (cur ++ NEWLINE :: s).take (cur.length + 1) = cur ++ [NEWLINE] := by
      rw [append_cons, take_left' (by simp)]
    have behind : ∀ x, (cur ++ x :: s).drop (cur.length + 1) = s := fun x => by rw [append_cons, drop_left' (by simp)]
    simp only [Nat.zero_add, set_append_right _ _ (le_rfl), Nat.sub_self, set_cons_zero, line, front, behind]
    split_ifs <;> rfl

/-- The induction is on the bytes behind the part of a line that has been passed. -/
theorem scan_eq (text : 0 ∉ s) : scan re (cur ++ s ++ [0]) = (written re (lines cur s), unfinished cur s ++ [0]) := by
  induction s generalizing cur with
  | nil =>
    rw [append_nil, scan.eq_def]
    split
    · rfl
    · rename_i q found
      rw [strchr_append plain] at found
      cases found
  | cons c s ih =>
    have text' : 0 ∉ s := fun mem => text (mem_cons_of_mem c mem)
    rw [lines, unfinished]
    split_ifs with line
    · subst line
      rw [append_assoc, cons_append, scan_newline plain, ← nil_append (s ++ [0]), ← append_assoc,
        ih ⟨not_mem_nil, not_mem_nil⟩ text', written, written, filter_cons]
      split_ifs <;> rfl
    · rw [← ih (plain.concat line text) text', append_assoc, append_assoc, append_assoc]
      rfl

end

theorem turn_eq (plain : Plain kept) (text : 0 ∉ chunk) :
    turn re kept chunk = (written re (lines kept chunk), unfinished kept chunk) := by
  have shorter := @length_unfinished_le kept chunk
  rw [turn, scan_eq plain text]
  dsimp only
  split_ifs with some
  · have count : kept.length + chunk.length - ((kept ++ chunk ++ [0]).length - (unfinished kept chunk ++ [0]).length) =
        (unfinished kept chunk).length := by
      simp only [length_append, length_singleton]
      omega
    rw [count, take_left]
  · have none := eq_nil_of_length_eq_zero (show chunk.length = 0 by omega)
    rw [none]
    rfl

theorem grepFrom_eq (plain : Plain kept) (text : 0 ∉ chunks.flatten) :
    grepFrom re kept chunks = written re (lines kept chunks.flatten) := by
  induction chunks generalizing kept with
  | nil => rfl
  | cons chunk chunks ih =>
    rw [flatten_cons, mem_append, not_or] at text
    rw [grepFrom, turn_eq plain text.1, ih (plain.unfinished text.1) text.2, flatten_cons, (lines_append _).1]
    simp [written]

/-- What was read holds only lines that fit, and only an unfinished line that does not fit leaves something unread. -/
theorem Arrives.fits (arrives : Arrives re kept input chunks) (plain : Plain kept) (text : 0 ∉ input)
    (room : kept.length < BUFSIZE) : ∃ unread, input = chunks.flatten ++ unread ∧
      (∀ l ∈ lines kept chunks.flatten, l.length < BUFSIZE - 1) ∧
      (unread = [] ∨ BUFSIZE - 1 ≤ (unfinished kept chunks.flatten).length) := by
  induction chunks generalizing kept input with
  | nil =>
    refine ⟨input, rfl, (fun _ mem => nomatch mem), arrives.imp_right fun none => ?_⟩
    change BUFSIZE - 1 ≤ kept.length
    unfold request at none
    omega
  | cons chunk chunks ih =>
    obtain ⟨-, small, rest, rfl, more⟩ := arrives
    rw [mem_append, not_or] at text
    rw [turn_eq plain text.1] at more
    have shorter := @length_unfinished_le kept chunk
    unfold request at small
    obtain ⟨unread, rfl, short, ended⟩ := ih more (plain.unfinished text.1) text.2 (shorter.trans_lt (by omega))
    refine ⟨unread, by rw [flatten_cons, append_assoc], ?_, ?_⟩
    · intro l mem
      rw [flatten_cons, (lines_append _).1] at mem
      rcases mem_append.mp mem with here | later
      · have := length_lines_lt l here
        omega
      · exact short l later
    · rw [flatten_cons, (lines_append _).2]
      exact ended

/-- The lines from the first one that does not fit into the buffer with its newline and the NUL. -/
def behindLong (input : List UInt8) : List (List UInt8) := (lines [] input).dropWhile (·.length < BUFSIZE - 1)

theorem plain_nil : Plain [] := ⟨not_mem_nil, not_mem_nil⟩

/-- However the input arrives, grep writes the lines that match if and only if none of them is at or behind a line
too long for the buffer. -/
theorem grep_writes_lines_iff (re input : List UInt8) (chunks : List (List UInt8)) (text : 0 ∉ input)
    (arrives : Arrives re [] input chunks) :
    grep re chunks = written re (lines [] input) ↔ ∀ l ∈ behindLong input, matchRe re l = false := by
  obtain ⟨unread, rfl, short, ended⟩ := arrives.fits plain_nil text (by decide)
  rw [mem_append, not_or] at text
  have behind : behindLong (chunks.flatten ++ unread) = lines (unfinished [] chunks.flatten) unread := by
    rw [behindLong, (lines_append _).1, dropWhile_append_of_pos fun l mem => by simpa using short l mem]
    rcases ended with rfl | long
    · rfl
    · cases first : lines (unfinished [] chunks.flatten) unread with
      | nil => rfl
      | cons l ls =>
        have := le_head_lines l (by rw [first]; rfl)
        rw [dropWhile_cons, if_neg (by simp; omega)]
  rw [behind, grep, grepFrom_eq plain_nil text.1, (lines_append _).1, written, written, filter_append, map_append,
    self_eq_append_right, map_eq_nil_iff, filter_eq_nil_iff]
  simp

theorem two_reads_write_line : grep [] [[97], [10]] = [[97, 10]] ∧ Arrives [] [] [97, 10] [[97], [10]] := by
  have first : turn [] [] [97] = ([], [97]) := turn_eq plain_nil (by decide)
  have arrives : Arrives [] [] [97, 10] [[97], [10]] := by
    refine ⟨by decide, by decide, [10], rfl, by decide, ?_, [], rfl, .inl rfl⟩
    rw [first]
    decide
  refine ⟨?_, arrives⟩
  rw [(grep_writes_lines_iff [] [97, 10] _ (by decide) arrives).mpr (fun _ mem => nomatch mem)]
  simp [written, lines, NEWLINE, matchRe, matchFrom, matchhere]

theorem unfinished_eq (line : NEWLINE ∉ s) : unfinished cur s = cur ++ s := by
  induction s generalizing cur with
  | nil => exact (append_nil cur).symm
  | cons c s ih =>
    rw [mem_cons, not_or] at line
    rw [unfinished, if_neg (Ne.symm line.1), ih line.2, append_assoc]
    rfl

def longLine : List UInt8 := replicate (BUFSIZE - 1) 97

/-- A line of 1023 characters fills the buffer before its newline is read, and the empty pattern matches it. -/
theorem long_line_lost : 0 ∉ longLine ++ [NEWLINE] ∧ Arrives [] [] (longLine ++ [NEWLINE]) [longLine] ∧
    grep [] [longLine] ≠ written [] (lines [] (longLine ++ [NEWLINE])) := by
  have text : 0 ∉ longLine := fun mem => absurd (eq_of_mem_replicate mem) (by decide)
  have line : NEWLINE ∉ longLine := fun mem => absurd (eq_of_mem_replicate mem) (by decide)
  have size : longLine.length = BUFSIZE - 1 := length_replicate
  have all : ∀ l, matchRe [] l = true := by
    intro l
    cases l <;> simp [matchRe, matchFrom, matchhere]
  refine ⟨by simp [text, NEWLINE], ⟨ne_nil_of_length_pos (by rw [size]; decide), size.le, [NEWLINE], rfl, .inr ?_⟩, ?_⟩
  · rw [turn_eq plain_nil text, unfinished_eq line, request, nil_append, size]
    rfl
  · rw [grep, grepFrom_eq plain_nil (by simpa using text), (lines_append _).1]
    simp [written, all, lines]

end DeisoXv6.Grep
