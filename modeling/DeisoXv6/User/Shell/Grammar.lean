import DeisoXv6.User.Shell.Tokens

/-! The grammar of the shell's commands, with the tree that a derivation denotes, and the loops of the parser in
terms of it. -/

set_option autoImplicit false

namespace DeisoXv6.Shell

inductive Category where
  | line
  | pipe
  | cmd

/-- `redir ::= ('<' | '>' | '>>') word`. -/
structure Redirection where
  arrow : Arrow
  file : Word

inductive Item where
  | redir (r : Redirection)
  | word (w : Word)

def Redirection.tokens (r : Redirection) : List Token := [.arrow r.arrow, .word r.file]

def Redirection.redir (r : Redirection) : Redir := r.arrow.redir r.file

namespace Item

def tokens : Item → List Token
  | redir r => r.tokens
  | word w => [.word w]

def words (items : List Item) : List Word := items.filterMap fun
  | redir _ => none
  | word w => some w

def redirs (items : List Item) : List Redir := items.filterMap fun
  | redir r => some r.redir
  | word _ => none

end Item

def backs : Nat → Cmd → Cmd
  | 0, cmd => cmd
  | k + 1, cmd => backs k (.back cmd)

/-- The derivations of
`line ::= pipe '&'* [';' line]`, `pipe ::= cmd ['|' pipe]` and `cmd ::= '(' line ')' redir* | (redir | word)*`,
with the tree that each denotes. -/
inductive Derives : Category → List Token → Cmd → Prop where
  | line {ts : List Token} {cmd : Cmd} (k : Nat) (first : Derives .pipe ts cmd) :
    Derives .line (ts ++ List.replicate k .amp) (backs k cmd)
  | list {ts ts' : List Token} {cmd right : Cmd} (k : Nat) (first : Derives .pipe ts cmd) (rest : Derives .line ts' right) :
    Derives .line (ts ++ (List.replicate k .amp ++ .semi :: ts')) (.list (backs k cmd) right)
  | pipe {ts : List Token} {cmd : Cmd} (first : Derives .cmd ts cmd) : Derives .pipe ts cmd
  | bar {ts ts' : List Token} {cmd right : Cmd} (first : Derives .cmd ts cmd) (rest : Derives .pipe ts' right) :
    Derives .pipe (ts ++ .bar :: ts') (.pipe cmd right)
  | block {ts : List Token} {cmd : Cmd} (redirs : List Redirection) (inner : Derives .line ts cmd) :
    Derives .cmd (.opening :: (ts ++ .closing :: redirs.flatMap Redirection.tokens)) (wrap cmd (redirs.map Redirection.redir))
  | exec (items : List Item) (few : (Item.words items).length < MAXARGS) :
    Derives .cmd (items.flatMap Item.tokens) (wrap (.exec (Item.words items)) (Item.redirs items))

variable {ps ps' : Cursor} {fuel : Nat} {ret : List Redir} {ts rest : List Token} {argv : List Word} {cmd : Cmd}

variable {tok : Token} {c : UInt8} {a : Arrow}

section

variable (symbol : tok ∈ [Token.bar, .opening, .closing, .semi, .amp]) (lead : tok.lead = some c)

include symbol lead

theorem leads_symbol : leads [c] ts = true ↔ ∃ ts', ts = tok :: ts' := by
  cases ts with
  | nil => simp [leads]
  | cons t ts =>
    have one : leads [c] (t :: ts) = true ↔ t.lead = some c := by
      change t.lead.any [c].contains = true ↔ _
      cases t.lead <;> simp
    rw [one, ← lead]
    simp only [List.mem_cons, List.not_mem_nil, or_false] at symbol
    rcases symbol with rfl | rfl | rfl | rfl | rfl <;> rcases t with _ | _ | _ | _ | _ | ⟨_ | _ | _⟩ | _ <;>
      simp [Token.lead, ch]

theorem peek_symbol : (peek ps [c]).1 = true ↔ ∃ ts, tokens ps = tok :: ts := by
  have only : ∀ d ∈ [c], d ∈ symbols := by
    intro d mem
    cases List.mem_singleton.mp mem
    simp only [List.mem_cons, List.not_mem_nil, or_false] at symbol
    rcases symbol with rfl | rfl | rfl | rfl | rfl <;> cases lead <;> decide
  rw [peek_leads only]
  exact leads_symbol symbol lead

theorem peek_symbol_not (other : ∀ ts, tokens ps ≠ tok :: ts) : (peek ps [c]).1 = false := by
  rw [← Bool.not_eq_true, peek_symbol symbol lead]
  exact fun ⟨ts, first⟩ => other ts first

end

theorem peek_arrow : (peek ps [ch '<', ch '>']).1 = true ↔ ∃ a ts, tokens ps = .arrow a :: ts := by
  rw [peek_leads (by simp [symbols])]
  generalize tokens ps = all
  cases all with
  | nil => simp [leads]
  | cons t ts => rcases t with _ | _ | _ | _ | _ | ⟨_ | _ | _⟩ | _ <;> simp [leads, Token.lead, ch]

def Stops : List Token → Prop
  | [] | .bar :: _ | .closing :: _ | .amp :: _ | .semi :: _ => True
  | _ => False

theorem peek_stop : (peek ps [ch '|', ch ')', ch '&', ch ';']).1 = true ↔ Stops (tokens ps) ∧ tokens ps ≠ [] := by
  rw [peek_leads (by simp [symbols])]
  generalize tokens ps = all
  cases all with
  | nil => simp [leads]
  | cons t ts => rcases t with _ | _ | _ | _ | _ | ⟨_ | _ | _⟩ | _ <;> simp [leads, Token.lead, Stops, ch]

theorem parseredirs_arrow (fuel : Nat) (ret : List Redir) {file : Word}
    (first : tokens ps = .arrow a :: .word file :: ts) :
    ∃ ps', tokens ps' = ts ∧ parseredirs (fuel + 1) ret ps = parseredirs fuel (ret ++ [a.redir file]) ps' := by
  have hit : (peek ps [ch '<', ch '>']).1 = true := peek_arrow.mpr ⟨a, _, first⟩
  obtain ⟨ps₁, arrow, second⟩ := gettoken_of_cons ((tokens_peek ps [ch '<', ch '>']).trans first)
  obtain ⟨ps₂, word, rest⟩ := gettoken_of_cons second
  refine ⟨ps₂, rest, ?_⟩
  simp only [parseredirs, hit, arrow, word, if_true]

theorem parseredirs_missing (first : tokens ps = .arrow a :: ts) (missing : ∀ file ts', ts ≠ .word file :: ts') :
    parseredirs (fuel + 1) ret ps = .error (.panic .missingFile) := by
  have hit : (peek ps [ch '<', ch '>']).1 = true := peek_arrow.mpr ⟨a, _, first⟩
  obtain ⟨ps₁, arrow, second⟩ := gettoken_of_cons ((tokens_peek ps [ch '<', ch '>']).trans first)
  simp only [parseredirs, hit, arrow, if_true]
  split
  · rename_i file ps₂ word
    exact absurd (second.symm.trans (tokens_of_gettoken word)) (missing file _)
  · rfl

theorem parseredirs_done (fuel : Nat) (ret : List Redir) (done : ∀ a ts, tokens ps ≠ .arrow a :: ts) :
    ∃ ps', tokens ps' = tokens ps ∧ parseredirs (fuel + 1) ret ps = .ok (ret, ps') := by
  have miss : (peek ps [ch '<', ch '>']).1 = false := by
    rw [← Bool.not_eq_true, peek_arrow]
    rintro ⟨a, ts, first⟩
    exact done a ts first
  refine ⟨(peek ps [ch '<', ch '>']).2, tokens_peek .., ?_⟩
  simp only [parseredirs, miss]
  rfl

theorem parseback_amp (fuel : Nat) (cmd : Cmd) (first : tokens ps = .amp :: ts) :
    ∃ ps', tokens ps' = ts ∧ parseback (fuel + 1) cmd ps = parseback fuel (.back cmd) ps' := by
  have hit : (peek ps [ch '&']).1 = true := (peek_symbol (by simp) rfl).mpr ⟨ts, first⟩
  obtain ⟨ps₁, amp, rest⟩ := gettoken_of_cons ((tokens_peek ps [ch '&']).trans first)
  refine ⟨ps₁, rest, ?_⟩
  simp only [parseback, hit, amp, if_true]

theorem parseback_done (fuel : Nat) (cmd : Cmd) (done : ∀ ts, tokens ps ≠ .amp :: ts) :
    ∃ ps', tokens ps' = tokens ps ∧ parseback (fuel + 1) cmd ps = .ok (cmd, ps') := by
  have miss : (peek ps [ch '&']).1 = false := peek_symbol_not (by simp) rfl done
  refine ⟨(peek ps [ch '&']).2, tokens_peek .., ?_⟩
  simp only [parseback, miss]
  rfl

theorem parseargs_stop (fuel : Nat) (argv : List Word) (ret : List Redir) (stops : Stops (tokens ps)) :
    ∃ ps', tokens ps' = tokens ps ∧ parseargs (fuel + 1) argv ret ps = .ok (argv, ret, ps') := by
  have same : tokens (peek ps [ch '|', ch ')', ch '&', ch ';']).2 = tokens ps := tokens_peek ..
  by_cases empty : tokens ps = []
  · have miss : (peek ps [ch '|', ch ')', ch '&', ch ';']).1 = false := by
      rw [← Bool.not_eq_true, peek_stop]
      exact fun hit => hit.2 empty
    have stop := gettoken_of_nil (same.trans empty)
    refine ⟨_, (tokens_skip _).trans same, ?_⟩
    simp only [parseargs, miss, stop]
    rfl
  · have hit := peek_stop.mpr ⟨stops, empty⟩
    refine ⟨_, same, ?_⟩
    simp only [parseargs, hit, if_true]

/-- The redirections in front of the next word, then the loop of parseexec. -/
def parseitems (fuel fuel' : Nat) (argv : List Word) (ret : List Redir) (ps : Cursor) :
    Parse (List Word × List Redir × Cursor) :=
  parseredirs fuel ret ps >>= fun (ret, ps) => parseargs fuel' argv ret ps

theorem parseargs_word (fuel : Nat) (argv : List Word) (ret : List Redir) {w : Word} (first : tokens ps = .word w :: ts) :
    ∃ ps', tokens ps' = ts ∧ parseargs (fuel + 1) argv ret ps =
      if MAXARGS ≤ argv.length + 1 then .error (.panic .tooManyArgs)
      else parseitems fuel fuel (argv ++ [w]) ret ps' := by
  have miss : (peek ps [ch '|', ch ')', ch '&', ch ';']).1 = false := by
    rw [← Bool.not_eq_true, peek_stop, first]
    exact fun hit => hit.1
  obtain ⟨ps', word, rest⟩ := gettoken_of_cons ((tokens_peek ps [ch '|', ch ')', ch '&', ch ';']).trans first)
  refine ⟨ps', rest, ?_⟩
  simp only [parseargs, miss, word, parseitems]
  cases parseredirs fuel ret ps' <;> rfl

theorem parseargs_unexpected (first : tokens ps = tok :: ts) (stops : ¬ Stops (tok :: ts))
    (other : ∀ w, tok ≠ .word w) : parseargs (fuel + 1) argv ret ps = .error (.panic .unexpected) := by
  have miss : (peek ps [ch '|', ch ')', ch '&', ch ';']).1 = false := by
    rw [← Bool.not_eq_true, peek_stop, first]
    exact fun hit => stops hit.1
  obtain ⟨ps', unexpected, rest⟩ := gettoken_of_cons ((tokens_peek ps [ch '|', ch ')', ch '&', ch ';']).trans first)
  simp only [parseargs, miss, unexpected]
  cases tok with
  | word w => exact absurd rfl (other w)
  | _ => rfl

section

variable {ps₁ ps₂ : Cursor} {cmd' : Cmd} {fault : Fault}

theorem parseline_fault (first : parsepipe fuel ps = .error fault) : parseline (fuel + 1) ps = .error fault := by
  simp only [parseline, first]
  rfl

theorem parseline_done (first : parsepipe fuel ps = .ok (cmd, ps₁)) (back : parseback fuel cmd ps₁ = .ok (cmd', ps₂))
    (done : ∀ ts, tokens ps₂ ≠ .semi :: ts) :
    ∃ ps', tokens ps' = tokens ps₂ ∧ parseline (fuel + 1) ps = .ok (cmd', ps') := by
  have miss : (peek ps₂ [ch ';']).1 = false := peek_symbol_not (by simp) rfl done
  refine ⟨(peek ps₂ [ch ';']).2, tokens_peek .., ?_⟩
  simp only [parseline, first, bind, Except.bind, back, miss]
  rfl

theorem parseline_semi (first : parsepipe fuel ps = .ok (cmd, ps₁)) (back : parseback fuel cmd ps₁ = .ok (cmd', ps₂))
    (semi : tokens ps₂ = .semi :: ts) : ∃ ps', tokens ps' = ts ∧
      parseline (fuel + 1) ps = (parseline fuel ps').map fun (right, ps) => (.list cmd' right, ps) := by
  have hit : (peek ps₂ [ch ';']).1 = true := (peek_symbol (by simp) rfl).mpr ⟨ts, semi⟩
  obtain ⟨ps', found, rest⟩ := gettoken_of_cons ((tokens_peek ps₂ [ch ';']).trans semi)
  refine ⟨ps', rest, ?_⟩
  simp only [parseline, first, bind, Except.bind, back, hit, found, if_true]
  cases parseline fuel ps' <;> rfl

theorem parsepipe_fault (first : parseexec fuel ps = .error fault) : parsepipe (fuel + 1) ps = .error fault := by
  simp only [parsepipe, first]
  rfl

theorem parsepipe_done (first : parseexec fuel ps = .ok (cmd, ps₁)) (done : ∀ ts, tokens ps₁ ≠ .bar :: ts) :
    ∃ ps', tokens ps' = tokens ps₁ ∧ parsepipe (fuel + 1) ps = .ok (cmd, ps') := by
  have miss : (peek ps₁ [ch '|']).1 = false := peek_symbol_not (by simp) rfl done
  refine ⟨(peek ps₁ [ch '|']).2, tokens_peek .., ?_⟩
  simp only [parsepipe, first, bind, Except.bind, miss]
  rfl

theorem parsepipe_bar (first : parseexec fuel ps = .ok (cmd, ps₁)) (bar : tokens ps₁ = .bar :: ts) :
    ∃ ps', tokens ps' = ts ∧ parsepipe (fuel + 1) ps = (parsepipe fuel ps').map fun (right, ps) => (.pipe cmd right, ps) := by
  have hit : (peek ps₁ [ch '|']).1 = true := (peek_symbol (by simp) rfl).mpr ⟨ts, bar⟩
  obtain ⟨ps', found, rest⟩ := gettoken_of_cons ((tokens_peek ps₁ [ch '|']).trans bar)
  refine ⟨ps', rest, ?_⟩
  simp only [parsepipe, first, bind, Except.bind, hit, found, if_true]
  cases parsepipe fuel ps' <;> rfl

def closeblock (fuel : Nat) (cmd : Cmd) (ps : Cursor) : Parse (Cmd × Cursor) :=
  let (hit, ps) := peek ps [ch ')']
  if hit then (parseredirs fuel [] (gettoken ps).2).map fun (ret, ps) => (wrap cmd ret, ps)
  else .error (.panic .missingClosing)

theorem parseblock_opening (fuel : Nat) (first : tokens ps = .opening :: ts) : ∃ ps', tokens ps' = ts ∧
    parseblock (fuel + 1) ps = parseline fuel ps' >>= fun (cmd, ps) => closeblock fuel cmd ps := by
  have hit : (peek ps [ch '(']).1 = true := (peek_symbol (by simp) rfl).mpr ⟨ts, first⟩
  obtain ⟨ps', found, rest⟩ := gettoken_of_cons ((tokens_peek ps [ch '(']).trans first)
  refine ⟨ps', rest, ?_⟩
  simp only [parseblock, hit, found, if_true]
  cases parseline fuel ps' with
  | error fault => rfl
  | ok result =>
    simp only [bind, Except.bind, closeblock]
    split
    · cases parseredirs fuel [] (gettoken (peek result.2 [ch ')']).2).2 <;> rfl
    · rfl

theorem closeblock_closing (fuel : Nat) (cmd : Cmd) (first : tokens ps = .closing :: ts) : ∃ ps', tokens ps' = ts ∧
    closeblock fuel cmd ps = (parseredirs fuel [] ps').map fun (ret, ps) => (wrap cmd ret, ps) := by
  have hit : (peek ps [ch ')']).1 = true := (peek_symbol (by simp) rfl).mpr ⟨ts, first⟩
  obtain ⟨ps', found, rest⟩ := gettoken_of_cons ((tokens_peek ps [ch ')']).trans first)
  refine ⟨ps', rest, ?_⟩
  simp only [closeblock, hit, found, if_true]

theorem closeblock_missing (missing : ∀ ts, tokens ps ≠ .closing :: ts) :
    closeblock fuel cmd ps = .error (.panic .missingClosing) := by
  have miss : (peek ps [ch ')']).1 = false := peek_symbol_not (by simp) rfl missing
  simp only [closeblock, miss]
  rfl

theorem parseexec_block (fuel : Nat) (first : tokens ps = .opening :: ts) :
    ∃ ps', tokens ps' = tokens ps ∧ parseexec (fuel + 1) ps = parseblock fuel ps' := by
  have hit : (peek ps [ch '(']).1 = true := (peek_symbol (by simp) rfl).mpr ⟨ts, first⟩
  refine ⟨(peek ps [ch '(']).2, tokens_peek .., ?_⟩
  simp only [parseexec, hit, if_true]

theorem parseexec_simple (fuel : Nat) (simple : ∀ ts, tokens ps ≠ .opening :: ts) : ∃ ps', tokens ps' = tokens ps ∧
    parseexec (fuel + 1) ps = (parseitems fuel fuel [] [] ps').map fun (argv, ret, ps) => (wrap (.exec argv) ret, ps) := by
  have miss : (peek ps [ch '(']).1 = false := peek_symbol_not (by simp) rfl simple
  refine ⟨(peek ps [ch '(']).2, tokens_peek .., ?_⟩
  simp only [parseexec, miss, parseitems]
  cases parseredirs fuel [] (peek ps [ch '(']).2 with
  | error fault => rfl
  | ok result =>
    simp only [bind, Except.bind]
    cases parseargs fuel [] result.1 result.2 <;> rfl

end

end DeisoXv6.Shell
