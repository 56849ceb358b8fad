import DeisoXv6.User.Shell.Grammar

/-! Where the words of a command stand in the input, and that `nulterminate` makes a string of each without
touching the text of another. -/

set_option autoImplicit false

namespace DeisoXv6.Shell

open List Function

def Plain (c : UInt8) : Prop := c ∉ whitespace ∧ c ∉ symbols

def Cursor.At (s : List UInt8) (ps : Cursor) : Prop := ∃ before : List UInt8, before.length = ps.pos ∧ s = before ++ ps.rest

/-- `w` is a longest run of plain characters of `s`. -/
def Word.In (s : List UInt8) (w : Word) : Prop :=
  ∃ before text after : List UInt8, s = before ++ text ++ after ∧ w.q = before.length ∧ w.eq = w.q + text.length ∧
    (∀ c ∈ text, Plain c) ∧ ∀ c, after.head? = some c → ¬ Plain c

/-- The C string at `w.q` of `buf` is the text of `w` in `s`. -/
def Word.Spells (s : List UInt8) (buf : Nat → UInt8) (w : Word) : Prop :=
  (∀ i, w.q ≤ i → i < w.eq → s[i]? = some (buf i) ∧ buf i ≠ 0) ∧ buf w.eq = 0

def Cmd.words : Cmd → List Word
  | exec argv => argv
  | redir cmd r => cmd.words ++ [r.file]
  | pipe left right | list left right => left.words ++ right.words
  | back cmd => cmd.words

variable {s : List UInt8} {ps ps' : Cursor} {tok : Token} {ts : List Token} {cmd : Cmd} {w : Word}

theorem skip_split (pos : Nat) (cs : List UInt8) :
    ∃ blank : List UInt8, cs = blank ++ (skip pos cs).rest ∧ (skip pos cs).pos = pos + blank.length := by
  induction cs generalizing pos with
  | nil => exact ⟨[], rfl, rfl⟩
  | cons c cs ih =>
    rw [skip]
    split
    · obtain ⟨blank, split, moved⟩ := ih (pos + 1)
      refine ⟨c :: blank, congrArg (c :: ·) split, ?_⟩
      rw [moved, length_cons]
      omega
    · exact ⟨[], rfl, rfl⟩

theorem scanWord_split (pos : Nat) (cs : List UInt8) :
    ∃ text : List UInt8, cs = text ++ (scanWord pos cs).rest ∧ (scanWord pos cs).pos = pos + text.length ∧
      (∀ c ∈ text, Plain c) ∧ ∀ c, (scanWord pos cs).rest.head? = some c → ¬ Plain c := by
  induction cs generalizing pos with
  | nil => exact ⟨[], rfl, rfl, nofun, nofun⟩
  | cons c cs ih =>
    rw [scanWord]
    split
    · rename_i plain
      obtain ⟨text, split, moved, inside, behind⟩ := ih (pos + 1)
      refine ⟨c :: text, congrArg (c :: ·) split, ?_, forall_mem_cons.mpr ⟨plain, inside⟩, behind⟩
      rw [moved, length_cons]
      omega
    · rename_i special
      refine ⟨[], rfl, rfl, nofun, ?_⟩
      intro d head plain
      cases head
      exact special plain

theorem Cursor.At.skip (place : ps.At s) : ps.skip.At s := by
  obtain ⟨before, length, split⟩ := place
  obtain ⟨blank, split', moved⟩ := skip_split ps.pos ps.rest
  refine ⟨before ++ blank, ?_, ?_⟩
  · rw [length_append, length]
    exact moved.symm
  · rw [append_assoc, split, split']
    rfl

theorem Cursor.At.token (place : ps.At s) (found : token ps = (some tok, ps')) :
    ps'.At s ∧ ∀ w, tok = .word w → w.In s := by
  obtain ⟨before, length, split⟩ := place
  obtain ⟨pos, rest⟩ := ps
  cases rest with
  | nil => cases found
  | cons c cs =>
    simp only [Shell.token] at found
    split at found
    · obtain ⟨text, split', moved, inside, behind⟩ := scanWord_split pos (c :: cs)
      cases found
      refine ⟨⟨before ++ text, ?_, ?_⟩, ?_⟩
      · rw [length_append, moved, length]
      · rw [append_assoc, ← split', split]
      · intro w word
        cases word
        refine ⟨before, text, _, ?_, length.symm, moved, inside, behind⟩
        rw [append_assoc, ← split', split]
    · rename_i symbol lead
      split_ifs at found with double
      · cases found
        refine ⟨⟨before ++ [c, ch '>'], ?_, ?_⟩, by rintro w ⟨⟩⟩
        · rw [length_append, length]
          rfl
        · rw [split, append_assoc]
          cases cs with
          | nil => cases double.2
          | cons d cs =>
            cases double.2
            rfl
      · cases found
        refine ⟨⟨before ++ [c], ?_, ?_⟩, ?_⟩
        · rw [length_append, length]
          rfl
        · rw [split, append_assoc]
          rfl
        · rintro w rfl
          cases symbolToken_some lead

theorem Cursor.At.gettoken (place : ps.At s) (found : gettoken ps = (some tok, ps')) :
    ps'.At s ∧ ∀ w, tok = .word w → w.In s := by
  obtain ⟨here, behind⟩ := Prod.mk.inj found
  obtain ⟨place', word⟩ := place.skip.token (Prod.ext here rfl)
  exact ⟨behind ▸ place'.skip, word⟩

theorem Cursor.At.scan (place : ps.At s) (fuel : Nat) (mem : .word w ∈ scan fuel ps) : w.In s := by
  induction fuel generalizing ps with
  | zero => cases mem
  | succ fuel ih =>
    rw [Shell.scan] at mem
    split at mem
    · cases mem
    · rename_i tok ps' found
      obtain ⟨place', word⟩ := place.gettoken found
      rcases mem_cons.mp mem with first | later
      · exact word w first.symm
      · exact ih place' later

theorem length_scan_le (fuel : Nat) (ps : Cursor) : (scan fuel ps).length ≤ fuel := by
  induction fuel generalizing ps with
  | zero => exact Nat.le_refl _
  | succ fuel ih =>
    rw [scan]
    split
    · exact Nat.zero_le _
    · exact Nat.succ_le_succ (ih _)

theorem length_tokens_le (ps : Cursor) : (tokens ps).length ≤ ps.rest.length := length_scan_le _ _

theorem words_wrap (cmd : Cmd) (redirs : List Redir) : (wrap cmd redirs).words = cmd.words ++ redirs.map Redir.file := by
  induction redirs generalizing cmd with
  | nil => exact (append_nil _).symm
  | cons r redirs ih =>
    refine (ih (.redir cmd r)).trans ?_
    rw [Cmd.words, append_assoc]
    rfl

theorem words_backs (k : Nat) (cmd : Cmd) : (backs k cmd).words = cmd.words := by
  induction k generalizing cmd with
  | zero => rfl
  | succ k ih => exact ih (.back cmd)

theorem Redirection.file_mem {r : Redirection} (rs : List Redirection) (mem : r ∈ rs) :
    .word r.file ∈ rs.flatMap Redirection.tokens :=
  mem_flatMap.mpr ⟨r, mem, mem_cons_of_mem _ (mem_singleton.mpr rfl)⟩

theorem Arrow.redir_file (a : Arrow) (file : Word) : (a.redir file).file = file := by
  cases a <;> rfl

theorem Derives.word_mem {cat : Category} (derives : Derives cat ts cmd) (mem : w ∈ cmd.words) : .word w ∈ ts := by
  induction derives with
  | line k first ih =>
    rw [words_backs] at mem
    exact mem_append_left _ (ih mem)
  | list k first next ih ih' =>
    rw [Cmd.words, words_backs] at mem
    rcases mem_append.mp mem with left | right
    · exact mem_append_left _ (ih left)
    · exact mem_append_right _ (mem_append_right _ (mem_cons_of_mem _ (ih' right)))
  | pipe first ih => exact ih mem
  | bar first next ih ih' =>
    rcases mem_append.mp mem with left | right
    · exact mem_append_left _ (ih left)
    · exact mem_append_right _ (mem_cons_of_mem _ (ih' right))
  | block redirs inner ih =>
    rw [words_wrap] at mem
    apply mem_cons_of_mem
    rcases mem_append.mp mem with inside | file
    · exact mem_append_left _ (ih inside)
    · simp only [map_map, mem_map, comp_apply] at file
      obtain ⟨r, known, rfl⟩ := file
      rw [Redirection.redir, Arrow.redir_file]
      exact mem_append_right _ (mem_cons_of_mem _ (Redirection.file_mem redirs known))
  | exec items few =>
    rw [words_wrap] at mem
    apply mem_flatMap.mpr
    rcases mem_append.mp mem with word | file
    · obtain ⟨item, known, some⟩ := mem_filterMap.mp word
      refine ⟨item, known, ?_⟩
      cases item <;> cases some
      exact mem_singleton.mpr rfl
    · obtain ⟨redir, known, rfl⟩ := mem_map.mp file
      obtain ⟨item, known, some⟩ := mem_filterMap.mp known
      refine ⟨item, known, ?_⟩
      cases item <;> cases some
      rw [Redirection.redir, Arrow.redir_file]
      exact mem_cons_of_mem _ (mem_singleton.mpr rfl)

theorem foldl_update (argv : List Word) (buf : Nat → UInt8) (i : Nat) :
    argv.foldl (fun buf w => update buf w.eq 0) buf i = if i ∈ argv.map Word.eq then 0 else buf i := by
  induction argv generalizing buf with
  | nil => rfl
  | cons w argv ih =>
    rw [foldl_cons, ih, map_cons]
    by_cases later : i ∈ argv.map Word.eq
    · rw [if_pos later, if_pos (mem_cons_of_mem _ later)]
    · rw [if_neg later, update_apply]
      simp only [mem_cons, later, or_false]

theorem nulterminate_apply (cmd : Cmd) (buf : Nat → UInt8) (i : Nat) :
    nulterminate cmd buf i = if i ∈ cmd.words.map Word.eq then 0 else buf i := by
  induction cmd generalizing buf with
  | exec argv => exact foldl_update argv buf i
  | redir cmd r ih =>
    rw [nulterminate, update_apply, ih, Cmd.words]
    by_cases here : i = r.file.eq
    · simp [here]
    · simp [here]
  | pipe left right ih ih' | list left right ih ih' =>
    rw [nulterminate, ih', ih, Cmd.words]
    by_cases later : i ∈ right.words.map Word.eq
    · rw [if_pos later, map_append, if_pos (mem_append_right _ later)]
    · rw [if_neg later]
      simp only [map_append, mem_append, later, or_false]
  | back cmd ih => exact ih buf

theorem Word.In.outside {w' : Word} (place : w.In s) (place' : w'.In s) : ¬ (w.q ≤ w'.eq ∧ w'.eq < w.eq) := by
  rintro ⟨above, below⟩
  obtain ⟨before, text, after, split, start, stop, inside, -⟩ := place
  obtain ⟨before', text', after', split', start', stop', -, behind'⟩ := place'
  have here : s[w'.eq]? = after'.head? := by
    rw [split', stop', start', ← length_append, List.getElem?_append_right (Nat.le_refl _), Nat.sub_self,
      List.head?_eq_getElem?]
  have there : s[w'.eq]? = text[w'.eq - w.q]? := by
    rw [split, append_assoc, List.getElem?_append_right (by omega), List.getElem?_append_left (by omega), start]
  have bound : w'.eq - w.q < text.length := by omega
  rw [List.getElem?_eq_getElem bound] at there
  exact behind' _ (here.symm.trans there) (inside _ (getElem_mem bound))

theorem nulterminate_spells (nulfree : (0 : UInt8) ∉ s) (places : ∀ w ∈ cmd.words, w.In s) (mem : w ∈ cmd.words) :
    w.Spells s (nulterminate cmd fun i => s.getD i 0) := by
  constructor
  · intro i above below
    have free : i ∉ cmd.words.map Word.eq := by
      intro hit
      obtain ⟨w', mem', rfl⟩ := mem_map.mp hit
      exact (places w mem).outside (places w' mem') ⟨above, below⟩
    rw [nulterminate_apply, if_neg free]
    obtain ⟨before, text, after, split, start, stop, -, -⟩ := places w mem
    have bound : i < s.length := by
      rw [split, length_append, length_append]
      omega
    rw [getD_eq_getElem?_getD, List.getElem?_eq_getElem bound, Option.getD_some]
    refine ⟨rfl, ?_⟩
    intro zero
    exact nulfree (zero ▸ getElem_mem bound)
  · rw [nulterminate_apply, if_pos (mem_map_of_mem mem)]

end DeisoXv6.Shell
