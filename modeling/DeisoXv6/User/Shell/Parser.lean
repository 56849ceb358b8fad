import Mathlib.Data.List.Basic

/-! The parser of sh.c. A cursor is `*ps`, as a position and the characters from there to `es`; `*s` is 0 at `es` and
nowhere before it. The recursive functions count their calls down, so that a call that would never return shows as
`Fault.fuel`. A redirection wraps a command that may still get words, so that the loops collect the redirections and
`wrap` applies them in order. -/

set_option autoImplicit false

namespace DeisoXv6.Shell

def MAXARGS : Nat := 10

def O_RDONLY : Nat := 0x000

def O_WRONLY : Nat := 0x001

def O_CREATE : Nat := 0x200

def O_TRUNC : Nat := 0x400

def ch (c : Char) : UInt8 := c.toNat.toUInt8

def whitespace : List UInt8 := [ch ' ', ch '\t', ch '\r', ch '\n', 0x0b]

def symbols : List UInt8 := [ch '<', ch '|', ch '>', ch '&', ch ';', ch '(', ch ')']

/-- A word of the input, from `q` up to `eq`. -/
structure Word where
  q : Nat
  eq : Nat
  deriving DecidableEq

inductive Arrow where
  | less
  | greater
  | append
  deriving DecidableEq

inductive Token where
  | bar
  | opening
  | closing
  | semi
  | amp
  | arrow (a : Arrow)
  | word (w : Word)
  deriving DecidableEq

structure Redir where
  file : Word
  mode : Nat
  fd : Nat
  deriving DecidableEq

inductive Cmd where
  | exec (argv : List Word)
  | redir (cmd : Cmd) (redir : Redir)
  | pipe (left right : Cmd)
  | list (left right : Cmd)
  | back (cmd : Cmd)
  deriving DecidableEq

inductive Panic where
  /-- "syntax", in parsecmd. -/
  | leftovers
  /-- "syntax", in parseexec. -/
  | unexpected
  /-- "too many args". -/
  | tooManyArgs
  /-- "missing file for redirection". -/
  | missingFile
  /-- "parseblock". -/
  | parseblock
  /-- "syntax - missing )". -/
  | missingClosing
  deriving DecidableEq

inductive Fault where
  | panic (p : Panic)
  | fuel
  deriving DecidableEq

abbrev Parse (α : Type) := Except Fault α

structure Cursor where
  pos : Nat
  rest : List UInt8
  deriving DecidableEq

def skip (pos : Nat) : List UInt8 → Cursor
  | [] => ⟨pos, []⟩
  | c :: cs => if c ∈ whitespace then skip (pos + 1) cs else ⟨pos, c :: cs⟩

def scanWord (pos : Nat) : List UInt8 → Cursor
  | [] => ⟨pos, []⟩
  | c :: cs => if c ∉ whitespace ∧ c ∉ symbols then scanWord (pos + 1) cs else ⟨pos, c :: cs⟩

def Cursor.skip (s : Cursor) : Cursor := Shell.skip s.pos s.rest

/-- The token that a symbol starts; `none` is the default case of the switch. -/
def symbolToken (c : UInt8) : Option Token :=
  if c = ch '|' then some .bar
  else if c = ch '(' then some .opening
  else if c = ch ')' then some .closing
  else if c = ch ';' then some .semi
  else if c = ch '&' then some .amp
  else if c = ch '<' then some (.arrow .less)
  else if c = ch '>' then some (.arrow .greater)
  else none

/-- The switch of gettoken; `none` stands for 0. -/
def token (s : Cursor) : Option Token × Cursor :=
  match s.rest with
  | [] => (none, s)
  | c :: cs => match symbolToken c with
    | none => (some (.word ⟨s.pos, (scanWord s.pos (c :: cs)).pos⟩), scanWord s.pos (c :: cs))
    | some tok =>
      if tok = .arrow .greater ∧ cs.head? = some (ch '>') then (some (.arrow .append), ⟨s.pos + 2, cs.tail⟩)
      else (some tok, ⟨s.pos + 1, cs⟩)

/-- gettoken; `q` and `eq` come with a word. -/
def gettoken (ps : Cursor) : Option Token × Cursor := ((token ps.skip).1, (token ps.skip).2.skip)

def peek (ps : Cursor) (toks : List UInt8) : Bool × Cursor :=
  (match ps.skip.rest with
    | [] => false
    | c :: _ => toks.contains c, ps.skip)

/-- The arguments of redircmd for each arrow. -/
def Arrow.redir (file : Word) : Arrow → Redir
  | less => ⟨file, O_RDONLY, 0⟩
  | greater => ⟨file, O_WRONLY ||| O_CREATE ||| O_TRUNC, 1⟩
  | append => ⟨file, O_WRONLY ||| O_CREATE, 1⟩

def wrap (cmd : Cmd) (redirs : List Redir) : Cmd := redirs.foldl .redir cmd

def parseredirs : Nat → List Redir → Cursor → Parse (List Redir × Cursor)
  | 0, _, _ => .error .fuel
  | fuel + 1, ret, ps =>
    let (hit, ps) := peek ps [ch '<', ch '>']
    if hit then
      let (tok, ps) := gettoken ps
      match gettoken ps with
      | (some (.word file), ps) =>
        let ret := match tok with
          | some (.arrow a) => ret ++ [a.redir file]
          | _ => ret
        parseredirs fuel ret ps
      | _ => .error (.panic .missingFile)
    else .ok (ret, ps)

def parseback : Nat → Cmd → Cursor → Parse (Cmd × Cursor)
  | 0, _, _ => .error .fuel
  | fuel + 1, cmd, ps =>
    let (hit, ps) := peek ps [ch '&']
    if hit then parseback fuel (.back cmd) (gettoken ps).2 else .ok (cmd, ps)

def parseargs : Nat → List Word → List Redir → Cursor → Parse (List Word × List Redir × Cursor)
  | 0, _, _, _ => .error .fuel
  | fuel + 1, argv, ret, ps =>
    let (hit, ps) := peek ps [ch '|', ch ')', ch '&', ch ';']
    if hit then .ok (argv, ret, ps)
    else match gettoken ps with
      | (none, ps) => .ok (argv, ret, ps)
      | (some (.word w), ps) =>
        if MAXARGS ≤ argv.length + 1 then .error (.panic .tooManyArgs)
        else match parseredirs fuel ret ps with
          | .ok (ret, ps) => parseargs fuel (argv ++ [w]) ret ps
          | .error fault => .error fault
      | _ => .error (.panic .unexpected)

mutual

def parseline : Nat → Cursor → Parse (Cmd × Cursor)
  | 0, _ => .error .fuel
  | fuel + 1, ps => do
    let (cmd, ps) ← parsepipe fuel ps
    let (cmd, ps) ← parseback fuel cmd ps
    let (hit, ps) := peek ps [ch ';']
    if hit then
      let (right, ps) ← parseline fuel (gettoken ps).2
      .ok (.list cmd right, ps)
    else .ok (cmd, ps)

def parsepipe : Nat → Cursor → Parse (Cmd × Cursor)
  | 0, _ => .error .fuel
  | fuel + 1, ps => do
    let (cmd, ps) ← parseexec fuel ps
    let (hit, ps) := peek ps [ch '|']
    if hit then
      let (right, ps) ← parsepipe fuel (gettoken ps).2
      .ok (.pipe cmd right, ps)
    else .ok (cmd, ps)

def parseblock : Nat → Cursor → Parse (Cmd × Cursor)
  | 0, _ => .error .fuel
  | fuel + 1, ps => do
    let (hit, ps) := peek ps [ch '(']
    if hit then
      let (cmd, ps) ← parseline fuel (gettoken ps).2
      let (hit, ps) := peek ps [ch ')']
      if hit then
        let (ret, ps) ← parseredirs fuel [] (gettoken ps).2
        .ok (wrap cmd ret, ps)
      else .error (.panic .missingClosing)
    else .error (.panic .parseblock)

def parseexec : Nat → Cursor → Parse (Cmd × Cursor)
  | 0, _ => .error .fuel
  | fuel + 1, ps => do
    let (hit, ps) := peek ps [ch '(']
    if hit then parseblock fuel ps
    else
      let (ret, ps) ← parseredirs fuel [] ps
      let (argv, ret, ps) ← parseargs fuel [] ret ps
      .ok (wrap (.exec argv) ret, ps)

end

/-- Write a NUL behind every word. -/
def nulterminate : Cmd → (Nat → UInt8) → Nat → UInt8
  | .exec argv, s => argv.foldl (fun s w => Function.update s w.eq 0) s
  | .redir cmd redir, s => Function.update (nulterminate cmd s) redir.file.eq 0
  | .pipe left right, s | .list left right, s => nulterminate right (nulterminate left s)
  | .back cmd, s => nulterminate cmd s

/-- The tree, and the input with its words terminated. No call is nested deeper than the fuel. -/
def parsecmd (s : List UInt8) : Parse (Cmd × (Nat → UInt8)) :=
  match parseline (4 * (s.length + 1)) ⟨0, s⟩ with
  | .ok (cmd, ps) =>
    if (peek ps []).2.rest ≠ [] then .error (.panic .leftovers) else .ok (cmd, nulterminate cmd fun i => s.getD i 0)
  | .error fault => .error fault

end DeisoXv6.Shell
