import DeisoXv6.User.Shell.Parser

/-! What gettoken makes of an input, and what peek and gettoken tell the parser in terms of it. The rest of the
development sees a cursor only through its tokens. -/

set_option autoImplicit false

namespace DeisoXv6.Shell

open List

def scan : Nat → Cursor → List Token
  | 0, _ => []
  | fuel + 1, ps => match gettoken ps with
    | (none, _) => []
    | (some tok, ps) => tok :: scan fuel ps

def tokens (ps : Cursor) : List Token := scan ps.rest.length ps

/-- The character that peek sees in front of a token; a word may start with anything but a symbol. -/
def Token.lead : Token → Option UInt8
  | bar => some (ch '|')
  | opening => some (ch '(')
  | closing => some (ch ')')
  | semi => some (ch ';')
  | amp => some (ch '&')
  | arrow .less => some (ch '<')
  | arrow .greater | arrow .append => some (ch '>')
  | word _ => none

def leads (toks : List UInt8) : List Token → Bool
  | [] => false
  | tok :: _ => tok.lead.any toks.contains

variable {ps ps' : Cursor} {tok : Token} {ts : List Token} {cs : List UInt8} {c : UInt8} {pos : Nat}

theorem length_skip_le (pos : Nat) (cs : List UInt8) : (skip pos cs).rest.length ≤ cs.length := by
  induction cs generalizing pos with
  | nil => exact Nat.le_refl _
  | cons c cs ih =>
    rw [skip]
    split
    · exact Nat.le_succ_of_le (ih _)
    · exact Nat.le_refl _

theorem length_scanWord_le (pos : Nat) (cs : List UInt8) : (scanWord pos cs).rest.length ≤ cs.length := by
  induction cs generalizing pos with
  | nil => exact Nat.le_refl _
  | cons c cs ih =>
    rw [scanWord]
    split
    · exact Nat.le_succ_of_le (ih _)
    · exact Nat.le_refl _

theorem head_skip (pos : Nat) (cs : List UInt8) (head : (skip pos cs).rest.head? = some c) : c ∉ whitespace := by
  induction cs generalizing pos with
  | nil => cases head
  | cons d cs ih =>
    rw [skip] at head
    split at head
    · exact ih _ head
    · rename_i plain
      cases head
      exact plain

theorem skip_skip (pos : Nat) (cs : List UInt8) : (skip pos cs).skip = skip pos cs := by
  induction cs generalizing pos with
  | nil => rfl
  | cons c cs ih =>
    rw [skip]
    split
    · exact ih _
    · rename_i plain
      simp only [Cursor.skip, skip, if_neg plain]

theorem Cursor.skip_skip (ps : Cursor) : ps.skip.skip = ps.skip := Shell.skip_skip ..

theorem symbolToken_none (none : symbolToken c = none) : c ∉ symbols := by
  unfold symbolToken at none
  split_ifs at none
  simp only [symbols, mem_cons, not_mem_nil, or_false, not_or]
  tauto

theorem symbolToken_some (found : symbolToken c = some tok) : tok.lead = some c := by
  unfold symbolToken at found
  split_ifs at found with h h h h h h h <;> cases found <;> simp [Token.lead, h]

variable {s : Cursor}

theorem token_shorter (plain : ∀ c, s.rest.head? = some c → c ∉ whitespace)
    (found : token s = (some tok, ps')) : ps'.rest.length < s.rest.length := by
  obtain ⟨pos, rest⟩ := s
  cases rest with
  | nil => cases found
  | cons c cs =>
    simp only [token] at found
    split at found
    · rename_i none
      cases found
      rw [scanWord, if_pos ⟨plain c rfl, symbolToken_none none⟩]
      exact Nat.lt_succ_of_le (length_scanWord_le _ _)
    · split at found
      · cases found
        simp only [length_tail, length_cons]
        omega
      · cases found
        exact Nat.lt_succ_self _

theorem gettoken_shorter (found : gettoken ps = (some tok, ps')) : ps'.rest.length < ps.rest.length := by
  have split := Prod.mk.inj found
  have shorter : (token ps.skip).2.rest.length < ps.skip.rest.length :=
    token_shorter (fun c head => head_skip _ _ head) (Prod.ext split.1 rfl)
  have before : ps.skip.rest.length ≤ ps.rest.length := length_skip_le ..
  have after : (token ps.skip).2.skip.rest.length ≤ (token ps.skip).2.rest.length := length_skip_le ..
  rw [← split.2]
  omega

theorem token_none_iff : (token s).1 = none ↔ s.rest = [] := by
  unfold token
  split
  · rename_i empty
    simp [empty]
  · rename_i c cs rest
    rw [rest]
    split
    · simp
    · split <;> simp

theorem token_nil (empty : s.rest = []) : (token s).2 = s := by
  unfold token
  rw [empty]

theorem scan_nil (empty : ps.rest = []) (fuel : Nat) : scan fuel ps = [] := by
  cases fuel with
  | zero => rfl
  | succ fuel =>
    have none : (gettoken ps).1 = none := by
      obtain ⟨pos, rest⟩ := ps
      cases empty
      rfl
    rw [scan]
    split
    · rfl
    · rename_i found
      rw [found] at none
      cases none

theorem scan_congr {n m : Nat} (enough : ps.rest.length ≤ n) (enough' : ps.rest.length ≤ m) : scan n ps = scan m ps := by
  induction n generalizing m ps with
  | zero =>
    have empty := length_eq_zero_iff.mp (Nat.le_zero.mp enough)
    rw [scan_nil empty, scan_nil empty]
  | succ n ih =>
    cases m with
    | zero =>
      have empty := length_eq_zero_iff.mp (Nat.le_zero.mp enough')
      rw [scan_nil empty, scan_nil empty]
    | succ m =>
      rw [scan, scan]
      split
      · rfl
      · rename_i tok ps' found
        have shorter := gettoken_shorter found
        exact congrArg _ (ih (by omega) (by omega))

theorem tokens_eq (ps : Cursor) : tokens ps = match gettoken ps with
    | (none, _) => []
    | (some tok, ps) => tok :: tokens ps := by
  have more : tokens ps = scan (ps.rest.length + 1) ps := scan_congr (Nat.le_refl _) (Nat.le_succ _)
  rw [more, scan]
  split
  · rfl
  · rename_i tok ps' found
    have shorter := gettoken_shorter found
    exact congrArg _ (scan_congr (by omega) (Nat.le_refl _))

theorem tokens_of_gettoken (found : gettoken ps = (some tok, ps')) : tokens ps = tok :: tokens ps' := by
  rw [tokens_eq, found]

theorem gettoken_of_cons (first : tokens ps = tok :: ts) : ∃ ps', gettoken ps = (some tok, ps') ∧ tokens ps' = ts := by
  rw [tokens_eq] at first
  split at first
  · cases first
  · rename_i found
    cases first
    exact ⟨_, found, rfl⟩

theorem tokens_eq_nil_iff : tokens ps = [] ↔ ps.skip.rest = [] := by
  rw [← token_none_iff, tokens_eq]
  constructor
  · intro none
    split at none
    · rename_i found
      exact congrArg Prod.fst found
    · cases none
  · intro none
    split
    · rfl
    · rename_i tok ps' found
      have some : (token ps.skip).1 = some tok := congrArg Prod.fst found
      cases none.symm.trans some

theorem tokens_skip (ps : Cursor) : tokens ps.skip = tokens ps := by
  have same : gettoken ps.skip = gettoken ps := by
    unfold gettoken
    rw [ps.skip_skip]
  rw [tokens_eq, tokens_eq ps, same]

theorem gettoken_of_nil (empty : tokens ps = []) : gettoken ps = (none, ps.skip) := by
  have rest := tokens_eq_nil_iff.mp empty
  refine Prod.ext (token_none_iff.mpr rest) ?_
  simp only [gettoken]
  rw [token_nil rest, ps.skip_skip]

@[simp] theorem tokens_peek (ps : Cursor) (toks : List UInt8) : tokens (peek ps toks).2 = tokens ps := tokens_skip ps

theorem token_lead (rest : s.rest = c :: cs) (found : token s = (some tok, ps')) :
    tok.lead = if c ∈ symbols then some c else none := by
  unfold token at found
  rw [rest] at found
  dsimp only at found
  split at found
  · rename_i none
    cases found
    rw [if_neg (symbolToken_none none)]
    rfl
  · rename_i sym isSymbol
    have lead := symbolToken_some isSymbol
    have mem : c ∈ symbols := by
      unfold symbolToken at isSymbol
      split_ifs at isSymbol with h h h h h h h <;> simp [symbols, h]
    rw [if_pos mem]
    split at found
    · rename_i twice
      cases found
      rw [twice.1] at lead
      exact lead
    · cases found
      exact lead

theorem peek_leads {toks : List UInt8} (only : ∀ c ∈ toks, c ∈ symbols) : (peek ps toks).1 = leads toks (tokens ps) := by
  cases rest : ps.skip.rest with
  | nil =>
    rw [tokens_eq_nil_iff.mpr rest]
    simp only [peek, rest]
    rfl
  | cons c cs =>
    have some : tokens ps ≠ [] := fun none => by simp [tokens_eq_nil_iff.mp none] at rest
    obtain ⟨tok, ts, first⟩ := exists_cons_of_ne_nil some
    obtain ⟨ps', found, -⟩ := gettoken_of_cons first
    have switched : (token ps.skip).1 = Option.some tok := congrArg Prod.fst found
    have whole : token ps.skip = (Option.some tok, (token ps.skip).2) := Prod.ext switched rfl
    have lead := token_lead rest whole
    rw [first]
    simp only [peek, rest, leads, lead]
    by_cases mem : c ∈ symbols
    · rw [if_pos mem]
      rfl
    · rw [if_neg mem]
      have missing : c ∉ toks := fun mem' => mem (only c mem')
      simpa using missing

end DeisoXv6.Shell
