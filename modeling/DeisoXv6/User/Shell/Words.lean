import DeisoXv6.User.Shell.Correct

/-! The words of a tree against the tokens of the line. The terminator of a word may take the place of a symbol,
as in `a>b`, and never that of a character of a word. -/

set_option autoImplicit false

namespace DeisoXv6.Shell

open List

/-- No run of plain characters goes on across position `p`. -/
def Edge (s : List UInt8) (p : Nat) : Prop :=
  ∀ i c d, p = i + 1 → s[i]? = some c → s[p]? = some d → Plain c → ¬Plain d

/-- `w` is a run of plain characters of `s` that goes on neither to the left nor to the right. -/
structure Word.Maximal (s : List UInt8) (w : Word) : Prop where
  nonempty : w.q < w.eq
  inside : ∀ i, w.q ≤ i → i < w.eq → ∃ c, s[i]? = some c ∧ Plain c
  left : ∀ i c, w.q = i + 1 → s[i]? = some c → ¬Plain c
  right : ∀ c, s[w.eq]? = some c → ¬Plain c

variable {s : List UInt8} {ps ps' : Cursor} {tok : Token} {w : Word} {tree : Cmd} {buf : Nat → UInt8}

theorem Cursor.At.get (place : ps.At s) (i : Nat) : s[ps.pos + i]? = ps.rest[i]? := by
  obtain ⟨before, length, split⟩ := place
  rw [split, ← length, List.getElem?_append_right (Nat.le_add_right ..), Nat.add_sub_cancel_left]

theorem edge_of_special {i : Nat} {c : UInt8} (here : s[i]? = some c) (special : ¬Plain c) : Edge s (i + 1) := by
  intro j c' d same here' _ plain
  obtain rfl : i = j := Nat.succ.inj same
  cases here.symm.trans here'
  exact absurd plain special

theorem edge_skip {pos : Nat} {cs : List UInt8} (place : Cursor.At s ⟨pos, cs⟩) (edge : Edge s pos) :
    Edge s (skip pos cs).pos := by
  induction cs generalizing pos with
  | nil => exact edge
  | cons c cs ih =>
    rw [skip]
    split
    · rename_i blank
      have here : s[pos]? = some c := place.get 0
      refine ih ?_ (edge_of_special here fun plain => plain.1 blank)
      obtain ⟨before, length, split⟩ := place
      exact ⟨before ++ [c], by rw [length_append, length]; rfl, by rw [append_assoc]; exact split⟩
    · exact edge

/-- Every token ends at an edge, and a word is where the switch of gettoken has started. -/
theorem edge_token (place : ps.At s) (black : ∀ c, ps.rest.head? = some c → c ∉ whitespace)
    (found : token ps = (some tok, ps')) : Edge s ps'.pos ∧ ∀ w, tok = .word w → w.q = ps.pos ∧ w.q < w.eq := by
  have place' := (place.token found).1
  obtain ⟨pos, rest⟩ := ps
  cases rest with
  | nil => cases found
  | cons c cs =>
    have here : s[pos]? = some c := place.get 0
    simp only [token] at found
    split at found
    · rename_i none
      have plain : Plain c := ⟨black c rfl, symbolToken_none none⟩
      obtain ⟨text, -, moved, -, behind⟩ := scanWord_split (pos + 1) cs
      have goes : scanWord pos (c :: cs) = scanWord (pos + 1) cs := if_pos plain
      rw [goes] at found
      cases found
      refine ⟨fun i c' d _ _ there _ => ?_, fun w word => ?_⟩
      · refine behind d ?_
        rw [List.head?_eq_getElem?, ← place'.get 0]
        exact there
      · cases word
        exact ⟨rfl, by dsimp only; omega⟩
    · rename_i symbol lead
      have special : ¬Plain c := by
        intro plain
        refine plain.2 ?_
        unfold symbolToken at lead
        split_ifs at lead with h h h h h h h <;> simp [symbols, h]
      split_ifs at found with double
      · cases found
        have second : s[pos + 1]? = some (ch '>') := (place.get 1).trans ((List.head?_eq_getElem? ..).symm.trans double.2)
        exact ⟨edge_of_special second fun plain => plain.2 (by decide), by rintro w ⟨⟩⟩
      · cases found
        refine ⟨edge_of_special here special, ?_⟩
        rintro w rfl
        cases symbolToken_some lead

theorem edge_scan {fuel : Nat} (place : ps.At s) (edge : Edge s ps.pos) (mem : .word w ∈ scan fuel ps) :
    Edge s w.q ∧ w.q < w.eq := by
  induction fuel generalizing ps with
  | zero => cases mem
  | succ fuel ih =>
    rw [scan] at mem
    split at mem
    · cases mem
    · rename_i tok ps' found
      obtain ⟨here, rfl⟩ := Prod.mk.inj found
      have switched : token ps.skip = (some tok, (token ps.skip).2) := Prod.ext here rfl
      obtain ⟨edge', word⟩ := edge_token place.skip (fun c head => head_skip _ _ head) switched
      rcases mem_cons.mp mem with first | later
      · obtain ⟨start, some⟩ := word w first.symm
        exact ⟨start ▸ edge_skip place edge, some⟩
      · exact ih (place.gettoken found).1 (edge_skip (place.skip.token switched).1 edge') later

theorem tokens_maximal (mem : .word w ∈ tokens ⟨0, s⟩) : w.Maximal s := by
  have start : Cursor.At s ⟨0, s⟩ := ⟨[], rfl, rfl⟩
  obtain ⟨edge, nonempty⟩ := edge_scan start (fun i _ _ same => nomatch same) mem
  obtain ⟨before, text, after, split, first, last, plain, behind⟩ := start.scan _ mem
  have inside : ∀ i, w.q ≤ i → i < w.eq → ∃ c, s[i]? = some c ∧ Plain c := by
    intro i above below
    have bound : i - before.length < text.length := by omega
    refine ⟨text[i - before.length], ?_, plain _ (getElem_mem bound)⟩
    rw [split, append_assoc, List.getElem?_append_right (by omega), List.getElem?_append_left bound,
      List.getElem?_eq_getElem bound]
  refine ⟨nonempty, inside, fun i c same here plain => ?_, fun c here => behind c ?_⟩
  · obtain ⟨d, there, plain'⟩ := inside w.q (Nat.le_refl _) nonempty
    exact edge i c d same here there plain plain'
  · rw [← here, split, last, first, ← length_append, List.getElem?_append_right (Nat.le_refl _), Nat.sub_self,
      List.head?_eq_getElem?]

/-- For every line that parsecmd accepts, each word of the tree is a token of the line, a maximal run of plain
characters, and a string with just this text. What else of the buffer has changed is in no word of the line. -/
theorem words_are_tokens (nulfree : (0 : UInt8) ∉ s) (accepted : parsecmd s = .ok (tree, buf)) :
    (∀ w ∈ tree.words, .word w ∈ tokens ⟨0, s⟩ ∧ w.Maximal s ∧ w.Spells s buf) ∧
      ∀ w, .word w ∈ tokens ⟨0, s⟩ → ∀ i, w.q ≤ i → i < w.eq → s[i]? = some (buf i) := by
  rcases parsecmd_settles s with ⟨⟨tree', buf'⟩, ok, derives, rfl⟩ | ⟨p, panics⟩
  · cases accepted.symm.trans ok
    have start : Cursor.At s ⟨0, s⟩ := ⟨[], rfl, rfl⟩
    refine ⟨fun w mem => ?_, fun w mem i above below => ?_⟩
    · have token := derives.word_mem mem
      exact ⟨token, tokens_maximal token,
        nulterminate_spells nulfree (fun w mem => start.scan _ (derives.word_mem mem)) mem⟩
    · -- the terminators stand behind words, and none of these positions is inside another
      have free : i ∉ tree.words.map Word.eq := by
        intro hit
        obtain ⟨w', mem', rfl⟩ := mem_map.mp hit
        exact (start.scan _ mem).outside (start.scan _ (derives.word_mem mem')) ⟨above, below⟩
      obtain ⟨c, here, -⟩ := (tokens_maximal mem).inside i above below
      rw [nulterminate_apply, if_neg free, getD_eq_getElem?_getD, here]
      rfl
  · cases accepted.symm.trans panics

theorem sample_words : (0 : UInt8) ∉ sample ∧ ∃ buf, parsecmd sample = .ok (sampleTree, buf) ∧
    ∀ w ∈ sampleTree.words, .word w ∈ tokens ⟨0, sample⟩ ∧ w.Maximal sample ∧ w.Spells sample buf := by
  have nulfree : (0 : UInt8) ∉ sample := by decide
  obtain ⟨buf, result⟩ := sample_accepted
  exact ⟨nulfree, buf, result, (words_are_tokens nulfree result).1⟩

end DeisoXv6.Shell
