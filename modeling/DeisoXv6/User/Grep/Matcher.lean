import Mathlib.Computability.Language

/-! The matcher of grep.c. A string is the list of its characters, so that its NUL is the end of the list. -/

set_option autoImplicit false

namespace DeisoXv6.Grep

def CARET : UInt8 := 94
def DOLLAR : UInt8 := 36
def STAR : UInt8 := 42
def DOT : UInt8 := 46

mutual

/-- Search for `re` at the beginning of `text`. -/
def matchhere (re text : List UInt8) : Bool :=
  match re with
  | [] => true
  | c :: re =>
    if re.head? = some STAR then matchstar c re.tail text
    else if c = DOLLAR ∧ re = [] then text.isEmpty
    else match text with
      | [] => false
      | t :: text => decide (c = DOT ∨ c = t) && matchhere re text
termination_by (re.length, text.length, 0)

/-- Search for `c*re` at the beginning of `text`. -/
def matchstar (c : UInt8) (re text : List UInt8) : Bool :=
  matchhere re text || match text with
    | [] => false
    | t :: text => decide (t = c ∨ c = DOT) && matchstar c re text
termination_by (re.length, text.length, 1)

end

/-- The loop of match, which looks at the empty string too. -/
def matchFrom (re : List UInt8) : List UInt8 → Bool
  | [] => matchhere re []
  | t :: text => matchhere re (t :: text) || matchFrom re text

/-- match -/
def matchRe (re text : List UInt8) : Bool :=
  if re.head? = some CARET then matchhere re.tail text else matchFrom re text

/-! The expressions, apart from the matcher. -/

def one (c : UInt8) : Language UInt8 := {w | ∃ t, w = [t] ∧ (c = DOT ∨ t = c)}

open Computability in
def language : List UInt8 → Language UInt8
  | [] => 1
  | c :: re => match re with
    | [] => one c
    | d :: re' => if d = STAR then (one c)∗ * language re' else one c * language (d :: re')

def AtStart (re : List UInt8) : Prop := re.head? = some CARET

def AtEnd (re : List UInt8) : Prop := re.getLast? = some DOLLAR

instance (re : List UInt8) : Decidable (AtStart re) := inferInstanceAs (Decidable (_ = _))

instance (re : List UInt8) : Decidable (AtEnd re) := inferInstanceAs (Decidable (_ = _))

/-- The expression without the anchor at its end. -/
def body (re : List UInt8) : List UInt8 := if AtEnd re then re.dropLast else re

/-- The expression without the anchor at its start. -/
def rest (re : List UInt8) : List UInt8 := if AtStart re then re.tail else re

/-- A prefix of the text belongs to the expression. -/
def Begins (re text : List UInt8) : Prop :=
  ∃ found after, text = found ++ after ∧ found ∈ language (body re) ∧ (AtEnd re → after = [])

variable {c : UInt8} {re text : List UInt8}

open Computability in
theorem mem_star_one {w : List UInt8} : w ∈ (one c)∗ ↔ ∀ t ∈ w, c = DOT ∨ t = c := by
  rw [Language.mem_kstar]
  constructor
  · rintro ⟨parts, rfl, each⟩ t mem
    obtain ⟨part, member, inside⟩ := List.mem_flatten.mp mem
    obtain ⟨u, rfl, fits⟩ := each part member
    rwa [List.mem_singleton.mp inside]
  · intro fits
    refine ⟨w.map ([·]), by rw [← List.flatMap_def, List.flatMap_singleton'], ?_⟩
    intro part member
    obtain ⟨t, mem, rfl⟩ := List.mem_map.mp member
    exact ⟨t, rfl, fits t mem⟩

theorem atEnd_cons (single : ¬ (c = DOLLAR ∧ re = [])) : AtEnd (c :: re) ↔ AtEnd re := by
  cases re with
  | nil => exact iff_of_false (fun last => single ⟨Option.some.inj last, rfl⟩) nofun
  | cons d re => rw [AtEnd, List.getLast?_cons_cons, AtEnd]

theorem body_cons (single : ¬ (c = DOLLAR ∧ re = [])) : body (c :: re) = c :: body re := by
  unfold body
  simp only [atEnd_cons single]
  split_ifs with atEnd
  · cases re with
    | nil => cases atEnd
    | cons d re => rfl
  · rfl

theorem head_body (plain : re.head? ≠ some STAR) : (body re).head? ≠ some STAR := by
  unfold body
  split_ifs
  · cases re with
    | nil => exact plain
    | cons d re => cases re <;> simp_all
  · exact plain

theorem language_cons (plain : re.head? ≠ some STAR) : language (c :: re) = one c * language re := by
  cases re with
  | nil => simp [language]
  | cons d re =>
    have other : d ≠ STAR := fun same => plain (congrArg some same)
    rw [language.eq_def]
    exact if_neg other

theorem matchstar_iff {M : List UInt8 → Prop} (here : ∀ text, matchhere re text = true ↔ M text) :
    matchstar c re text = true ↔ ∃ run rest, text = run ++ rest ∧ (∀ t ∈ run, c = DOT ∨ t = c) ∧ M rest := by
  induction text with
  | nil =>
    rw [matchstar, Bool.or_false, here]
    constructor
    · exact fun found => ⟨[], [], rfl, List.forall_mem_nil _, found⟩
    · rintro ⟨run, rest, empty, -, found⟩
      exact (List.append_eq_nil_iff.mp empty.symm).2 ▸ found
  | cons t text ih =>
    rw [matchstar, Bool.or_eq_true, Bool.and_eq_true, here, ih, decide_eq_true_iff]
    constructor
    · rintro (found | ⟨fits, run, rest, rfl, all, found⟩)
      · exact ⟨[], _, rfl, List.forall_mem_nil _, found⟩
      · exact ⟨t :: run, rest, rfl, List.forall_mem_cons.mpr ⟨fits.symm, all⟩, found⟩
    · rintro ⟨run, rest, split, all, found⟩
      cases run with
      | nil => exact .inl (split ▸ found)
      | cons u run =>
        obtain ⟨rfl, rfl⟩ := List.cons_eq_cons.mp split
        obtain ⟨fits, all⟩ := List.forall_mem_cons.mp all
        exact .inr ⟨fits.symm, run, rest, rfl, all, found⟩

theorem begins_star : Begins (c :: STAR :: re) text ↔
    ∃ run rest, text = run ++ rest ∧ (∀ t ∈ run, c = DOT ∨ t = c) ∧ Begins re rest := by
  have inner : ¬ (STAR = DOLLAR ∧ re = []) := fun dollar => absurd dollar.1 (by decide)
  have outer : ¬ (c = DOLLAR ∧ STAR :: re = []) := fun empty => nomatch empty.2
  unfold Begins
  rw [atEnd_cons outer, atEnd_cons inner, body_cons outer, body_cons inner, language, if_pos rfl]
  constructor
  · rintro ⟨found, after, rfl, mem, ends⟩
    obtain ⟨run, all, more, mem', rfl⟩ := Language.mem_mul.mp mem
    exact ⟨run, more ++ after, List.append_assoc .., mem_star_one.mp all, more, after, rfl, mem', ends⟩
  · rintro ⟨run, rest, rfl, all, found, after, rfl, mem, ends⟩
    exact ⟨run ++ found, after, (List.append_assoc ..).symm, Language.mem_mul.mpr ⟨run, mem_star_one.mpr all, found, mem, rfl⟩, ends⟩

theorem begins_one (plain : re.head? ≠ some STAR) (single : ¬ (c = DOLLAR ∧ re = [])) :
    Begins (c :: re) text ↔ ∃ t rest, text = t :: rest ∧ (c = DOT ∨ c = t) ∧ Begins re rest := by
  unfold Begins
  rw [atEnd_cons single, body_cons single, language_cons (head_body plain)]
  constructor
  · rintro ⟨found, after, rfl, mem, ends⟩
    obtain ⟨_, ⟨t, rfl, fits⟩, more, mem', rfl⟩ := Language.mem_mul.mp mem
    exact ⟨t, more ++ after, rfl, fits.imp_right Eq.symm, more, after, rfl, mem', ends⟩
  · rintro ⟨t, rest, rfl, fits, found, after, rfl, mem, ends⟩
    exact ⟨t :: found, after, rfl, Language.mem_mul.mpr ⟨[t], ⟨t, rfl, fits.imp_right Eq.symm⟩, found, mem, rfl⟩, ends⟩

theorem begins_dollar : Begins [DOLLAR] text ↔ text = [] := by
  have atEnd : AtEnd [DOLLAR] := rfl
  constructor
  · rintro ⟨found, after, rfl, mem, ends⟩
    rw [ends atEnd]
    exact List.append_eq_nil_iff.mpr ⟨mem, rfl⟩
  · rintro rfl
    exact ⟨[], [], rfl, rfl, fun _ => rfl⟩

theorem matchhere_iff (re text : List UInt8) : matchhere re text = true ↔ Begins re text := by
  match re with
  | [] => exact iff_of_true (by rw [matchhere]) ⟨[], text, rfl, rfl, fun atEnd => nomatch atEnd⟩
  | c :: re =>
    rw [matchhere.eq_def]
    dsimp only
    split_ifs with star dollar
    · obtain ⟨re, rfl⟩ := List.head?_eq_some_iff.mp star
      rw [List.tail_cons, matchstar_iff (matchhere_iff re), begins_star]
    · obtain ⟨rfl, rfl⟩ := dollar
      rw [List.isEmpty_iff, begins_dollar]
    · rw [begins_one star dollar]
      cases text with
      | nil => simp
      | cons t text => simp [matchhere_iff re text]
termination_by re.length

/-- The loop of match skips what `.*` would take. -/
theorem matchFrom_eq : matchFrom re text = matchstar DOT re text := by
  induction text with
  | nil => rw [matchFrom, matchstar, Bool.or_false]
  | cons t text ih =>
    rw [matchFrom, matchstar, ih]
    simp

/-- A pattern matches where some part of the text is in its language, at the ends that it is anchored to. -/
theorem matchRe_iff (re text : List UInt8) : matchRe re text = true ↔
    ∃ before found after, text = before ++ found ++ after ∧ found ∈ language (body (rest re)) ∧
      (AtStart re → before = []) ∧ (AtEnd (rest re) → after = []) := by
  by_cases start : AtStart re
  · rw [matchRe, if_pos (c := re.head? = some CARET) start, rest, if_pos start, matchhere_iff]
    constructor
    · rintro ⟨found, after, rfl, mem, ends⟩
      exact ⟨[], found, after, rfl, mem, fun _ => rfl, ends⟩
    · rintro ⟨before, found, after, rfl, mem, first, ends⟩
      rw [first start]
      exact ⟨found, after, rfl, mem, ends⟩
  · rw [matchRe, if_neg (c := re.head? = some CARET) start, rest, if_neg start, matchFrom_eq,
      matchstar_iff (matchhere_iff re)]
    constructor
    · rintro ⟨before, _, rfl, -, found, after, rfl, mem, ends⟩
      exact ⟨before, found, after, (List.append_assoc ..).symm, mem, fun anchored => absurd anchored start, ends⟩
    · rintro ⟨before, found, after, rfl, mem, -, ends⟩
      exact ⟨before, found ++ after, List.append_assoc .., fun _ _ => .inl rfl, found, after, rfl, mem, ends⟩

end DeisoXv6.Grep
