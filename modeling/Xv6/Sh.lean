import Mathlib
import Xv6.Namespace

/-!
# The shell

The code of `sh.c` that parses a command line and runs the tree it gets from it.

A pointer into the line is modelled by what it points at: the rest of the line, up to its end `es`.
So `s++` is the tail of a list, `s == es` says that the list is empty, and a word is given by two
such pointers, its first character and the character behind its last one (`Str`). Since `es` is
where the first zero is, the end of a line reads as zero.

The parsing functions return a tree and where they stopped, which is a rest of where they began
(`Parsed`). With that they terminate: each of the functions that call each other calls
itself again only behind a token.

While `parseexec` collects arguments in the node of a command, that node is already inside of the
nodes of its redirections. The model stores an argument in the innermost node (`Cmd.push`).
-/

namespace Xv6.Sh

open List
open Names (O_RDONLY O_CREATE O_TRUNC)

/-! ## Characters -/

def bar : UInt8 := '|'.toUInt8

def amp : UInt8 := '&'.toUInt8

def semi : UInt8 := ';'.toUInt8

def lpar : UInt8 := '('.toUInt8

def rpar : UInt8 := ')'.toUInt8

def lt : UInt8 := '<'.toUInt8

def gt : UInt8 := '>'.toUInt8

/-- The characters `" \t\r\n\v"`. -/
def whitespace : List UInt8 := [32, 9, 13, 10, 11]

/-- The characters `"<|>&;()"`. -/
def symbols : List UInt8 := [lt, bar, gt, amp, semi, lpar, rpar]

/-- White space. -/
def blank (c : UInt8) : Bool := c ∈ whitespace

/-- A character that does not end a word. -/
def inWord (c : UInt8) : Bool := c ∉ whitespace ∧ c ∉ symbols

/-! ## Commands -/

def MAXARGS : ℕ := 10

def O_WRONLY : ℕ := 1

/-- The two pointers of a word. -/
structure Str where
  q : List UInt8
  eq : List UInt8
  deriving DecidableEq, Repr

/-- **A parsed command.** The arguments of a command end with the list. -/
inductive Cmd
  | exec (argv : List Str)
  | redir (cmd : Cmd) (file : Str) (mode fd : ℕ)
  | pipe (left right : Cmd)
  | list (left right : Cmd)
  | back (cmd : Cmd)
  deriving DecidableEq, Repr

/-- Store an argument in the node of the command, through the nodes of its redirections. -/
def Cmd.push (w : Str) : Cmd → Cmd
  | .exec argv => .exec (argv ++ [w])
  | .redir cmd file mode fd => .redir (cmd.push w) file mode fd
  | cmd => cmd

/-- Why the shell gives up: `"missing file for redirection"`, `"parseblock"`,
`"syntax - missing )"`, `"syntax"`, and `"too many args"`. -/
inductive Panic
  | missingFile
  | parseblock
  | missingParen
  | badSyntax
  | tooManyArgs
  deriving DecidableEq, Repr

/-! ## Tokens -/

/-- What `gettoken` returns: 0 at the end, a symbol, `'+'` for `>>`, or `'a'` for a word. -/
inductive Tok
  | eof
  | sym (c : UInt8)
  | append
  | word
  deriving DecidableEq, Repr

/-- A token, its two ends, and where the next one is looked for. -/
structure Got where
  ret : Tok
  q : List UInt8
  eq : List UInt8
  rest : List UInt8

/-- Skip blanks. -/
def skip (s : List UInt8) : List UInt8 := s.dropWhile blank

/-- The next token. -/
def gettoken (s : List UInt8) : Got :=
  match skip s with
  | [] => ⟨.eof, [], [], []⟩
  | c :: s =>
    if c = 0 then ⟨.eof, c :: s, c :: s, skip (c :: s)⟩
    else if c ∈ [bar, lpar, rpar, semi, amp, lt] then ⟨.sym c, c :: s, s, skip s⟩
    else if c = gt then
      if s.headD 0 = gt then ⟨.append, c :: s, s.tail, skip s.tail⟩
      else ⟨.sym c, c :: s, s, skip s⟩
    else ⟨.word, c :: s, (c :: s).dropWhile inWord, skip ((c :: s).dropWhile inWord)⟩

/-- Whether the next character that is not blank is one of `toks`; the blanks are skipped. -/
def peek (toks : List UInt8) (s : List UInt8) : Bool :=
  (skip s).headD 0 ≠ 0 ∧ (skip s).headD 0 ∈ toks

section

variable {s : List UInt8}

theorem skip_suffix (s : List UInt8) : skip s <:+ s := dropWhile_suffix _

@[simp]
theorem skip_skip (s : List UInt8) : skip (skip s) = skip s := dropWhile_idempotent ..

theorem notMem_whitespace_of_skip {c : UInt8} {rest : List UInt8} (h : skip s = c :: rest) :
    c ∉ whitespace := by
  have hc := head?_dropWhile_not blank s
  rw [show s.dropWhile blank = c :: rest from h] at hc
  exact of_decide_eq_false hc

theorem dropWhile_word {c : UInt8} {rest : List UInt8} (h : skip s = c :: rest)
    (hsym : c ∉ [bar, lpar, rpar, semi, amp, lt]) (hgt : c ≠ gt) :
    (c :: rest).dropWhile inWord = rest.dropWhile inWord := by
  refine dropWhile_cons_of_pos (decide_eq_true ⟨notMem_whitespace_of_skip h, fun hc => ?_⟩)
  simp only [symbols, mem_cons, not_mem_nil, or_false] at hc hsym
  tauto

theorem gettoken_suffix (s : List UInt8) : (gettoken s).rest <:+ s := by
  have hs := skip_suffix s
  unfold gettoken
  split
  · exact nil_suffix
  · rename_i c rest h
    rw [h] at hs
    have hrest := (suffix_cons c rest).trans hs
    split_ifs
    · exact (skip_suffix _).trans hs
    · exact (skip_suffix _).trans hrest
    · exact (skip_suffix _).trans ((tail_suffix _).trans hrest)
    · exact (skip_suffix _).trans hrest
    · exact (skip_suffix _).trans ((dropWhile_suffix _).trans hs)

/-- A token has at least one character. -/
theorem gettoken_lt (h : (gettoken s).ret ≠ .eof) : (gettoken s).rest.length < s.length := by
  have hs := (skip_suffix s).length_le
  revert h
  unfold gettoken
  split
  · exact fun h => absurd rfl h
  · rename_i c rest hskip
    rw [hskip, length_cons] at hs
    have hshort : ∀ t, t <:+ rest → (skip t).length < s.length := fun t ht => by
      have h₁ := ((skip_suffix t).trans ht).length_le
      omega
    split_ifs with hzero hsym hgt happ
    · exact fun h => absurd rfl h
    · exact fun _ => hshort rest (suffix_refl rest)
    · exact fun _ => hshort _ (tail_suffix rest)
    · exact fun _ => hshort rest (suffix_refl rest)
    · intro
      rw [dropWhile_word hskip hsym hgt]
      exact hshort _ (dropWhile_suffix _)

theorem gettoken_lt_of_peek {toks : List UInt8} (h : peek toks s) :
    (gettoken (skip s)).rest.length < s.length := by
  obtain ⟨hne, -⟩ := of_decide_eq_true h
  refine lt_of_lt_of_le (gettoken_lt ?_) (skip_suffix s).length_le
  unfold gettoken
  rw [skip_skip]
  split
  · rename_i hskip
    rw [hskip] at hne
    exact absurd rfl hne
  · rename_i c rest hskip
    rw [hskip] at hne
    rw [if_neg (show c ≠ 0 from hne)]
    split_ifs <;> exact Tok.noConfusion

end

/-! ## Parsing -/

/-- What the parsing functions return: a tree, and where they stopped. -/
structure Parsed (s : List UInt8) where
  cmd : Cmd
  rest : List UInt8
  suffix : rest <:+ s

/-- The result of parsing a rest of the line. -/
def Parsed.of {s t : List UInt8} (r : Parsed t) (h : t <:+ s) : Parsed s :=
  ⟨r.cmd, r.rest, r.suffix.trans h⟩

/-- The tree with a redirection that the operator asks for. -/
def redirect (tok : Tok) (cmd : Cmd) (file : Str) : Cmd :=
  match tok with
  | .sym c =>
    if c = lt then .redir cmd file O_RDONLY 0
    else if c = gt then .redir cmd file (O_WRONLY ||| O_CREATE ||| O_TRUNC) 1
    else cmd
  | .append => .redir cmd file (O_WRONLY ||| O_CREATE) 1
  | _ => cmd

/-- Redirections, around a command. -/
def parseredirs (cmd : Cmd) (s : List UInt8) : Except Panic (Parsed s) :=
  if _h : peek [lt, gt] s then
    let op := gettoken (skip s)
    let file := gettoken op.rest
    if file.ret ≠ .word then throw .missingFile
    else do
      let r ← parseredirs (redirect op.ret cmd ⟨file.q, file.eq⟩) file.rest
      pure (r.of ((gettoken_suffix _).trans ((gettoken_suffix _).trans (skip_suffix s))))
  else pure ⟨cmd, skip s, skip_suffix s⟩
termination_by s.length
decreasing_by
  have h₁ := gettoken_lt_of_peek _h
  have h₂ := (gettoken_suffix (gettoken (skip s)).rest).length_le
  omega

/-- The loop of `parseexec`, with `argc` arguments so far. -/
def parseargs (ret : Cmd) (argc : ℕ) (s : List UInt8) : Except Panic (Parsed s) :=
  if peek [bar, rpar, amp, semi] s then pure ⟨ret, skip s, skip_suffix s⟩
  else
    let g := gettoken (skip s)
    have hsuffix := (gettoken_suffix (skip s)).trans (skip_suffix s)
    if _h : g.ret = .eof then pure ⟨ret, g.rest, hsuffix⟩
    else if g.ret ≠ .word then throw .badSyntax
    else if MAXARGS ≤ argc + 1 then throw .tooManyArgs
    else do
      let r ← parseredirs (ret.push ⟨g.q, g.eq⟩) g.rest
      let t ← parseargs r.cmd (argc + 1) r.rest
      pure (t.of (r.suffix.trans hsuffix))
termination_by s.length
decreasing_by
  have h₁ := gettoken_lt _h
  have h₂ : r.rest.length ≤ (gettoken (skip s)).rest.length := r.suffix.length_le
  have h₃ := (skip_suffix s).length_le
  omega

/-- The loop of `parseline` over `&`. -/
def parsebacks (cmd : Cmd) (s : List UInt8) : Parsed s :=
  if _h : peek [amp] s then
    (parsebacks (.back cmd) (gettoken (skip s)).rest).of
      ((gettoken_suffix _).trans (skip_suffix s))
  else ⟨cmd, skip s, skip_suffix s⟩
termination_by s.length
decreasing_by exact gettoken_lt_of_peek _h

mutual

/-- Pipes, with `&` and `;` behind them. -/
def parseline (s : List UInt8) : Except Panic (Parsed s) := do
  let r ← parsepipe s
  let b := parsebacks r.cmd r.rest
  if _h : peek [semi] b.rest then do
    let t ← parseline (gettoken (skip b.rest)).rest
    pure (Parsed.of ⟨.list b.cmd t.cmd, t.rest, t.suffix⟩ ((gettoken_suffix _).trans
      ((skip_suffix _).trans (b.suffix.trans r.suffix))))
  else pure ⟨b.cmd, skip b.rest, (skip_suffix _).trans (b.suffix.trans r.suffix)⟩
termination_by 4 * s.length + 3
decreasing_by
  · omega
  · have h₁ : (gettoken (skip (parsebacks r.cmd r.rest).rest)).rest.length
        < (parsebacks r.cmd r.rest).rest.length := gettoken_lt_of_peek _h
    have h₂ := (parsebacks r.cmd r.rest).suffix.length_le
    have h₃ := r.suffix.length_le
    omega

/-- Commands, with `|` between them. -/
def parsepipe (s : List UInt8) : Except Panic (Parsed s) := do
  let r ← parseexec s
  if _h : peek [bar] r.rest then do
    let t ← parsepipe (gettoken (skip r.rest)).rest
    pure (Parsed.of ⟨.pipe r.cmd t.cmd, t.rest, t.suffix⟩ ((gettoken_suffix _).trans
      ((skip_suffix _).trans r.suffix)))
  else pure ⟨r.cmd, skip r.rest, (skip_suffix _).trans r.suffix⟩
termination_by 4 * s.length + 2
decreasing_by
  · omega
  · have h₁ := gettoken_lt_of_peek _h
    have h₂ := r.suffix.length_le
    omega

/-- A block, or a command with its arguments and redirections. -/
def parseexec (s : List UInt8) : Except Panic (Parsed s) :=
  if peek [lpar] s then do
    let r ← parseblock (skip s)
    pure (r.of (skip_suffix s))
  else do
    let r ← parseredirs (.exec []) (skip s)
    let t ← parseargs r.cmd 0 r.rest
    pure (t.of (r.suffix.trans (skip_suffix s)))
termination_by 4 * s.length + 1
decreasing_by
  have h₁ := (skip_suffix s).length_le
  omega

/-- A line in brackets, and its redirections. -/
def parseblock (s : List UInt8) : Except Panic (Parsed s) :=
  if _h : peek [lpar] s then do
    let r ← parseline (gettoken (skip s)).rest
    if peek [rpar] r.rest then do
      let t ← parseredirs r.cmd (gettoken (skip r.rest)).rest
      pure (t.of ((gettoken_suffix _).trans ((skip_suffix _).trans (r.suffix.trans
        ((gettoken_suffix _).trans (skip_suffix s))))))
    else throw .missingParen
  else throw .parseblock
termination_by 4 * s.length
decreasing_by
  have h₁ := gettoken_lt_of_peek _h
  omega

end

/-- Put a zero behind every word of a tree, in a line of `n` characters. -/
def nulterminate (n : ℕ) : Cmd → List UInt8 → List UInt8
  | .exec argv, buf => argv.foldl (fun buf w => buf.set (n - w.eq.length) 0) buf
  | .redir cmd file _ _, buf => (nulterminate n cmd buf).set (n - file.eq.length) 0
  | .pipe left right, buf => nulterminate n right (nulterminate n left buf)
  | .list left right, buf => nulterminate n right (nulterminate n left buf)
  | .back cmd, buf => nulterminate n cmd buf

/-- **Parse a command line**: the tree, and the line with the zeros behind its words. -/
def parsecmd (line : List UInt8) : Except Panic (Cmd × List UInt8) := do
  let r ← parseline line
  if skip r.rest ≠ [] then throw .badSyntax
  else pure (r.cmd, nulterminate line.length r.cmd (line ++ [0]))

/-- The string at a pointer into a line of `n` characters, in what the line has become. -/
def stringAt (n : ℕ) (buf : List UInt8) (p : List UInt8) : List UInt8 :=
  (buf.drop (n - p.length)).takeWhile (· ≠ 0)

/-! ## Running -/

/-- What a descriptor is attached to. A pipe is named by the place of its node in the tree. -/
inductive File
  | inherited (fd : ℕ)
  | opened (name : List UInt8) (mode : ℕ)
  | pipe (place : List Bool) (write : Bool)
  deriving DecidableEq, Repr

/-- The descriptors of a process. -/
abbrev Fds : Type := ℕ → Option File

/-- A new descriptor: the lowest that is free. -/
def Fds.alloc (fds : Fds) (f : File) : Option (ℕ × Fds) :=
  match (range NOFILE).find? fun d => (fds d).isNone with
  | none => none
  | some d => some (d, Function.update fds d (some f))

/-- `close` -/
def Fds.close (fds : Fds) (d : ℕ) : Fds := Function.update fds d none

/-- `dup`, whose failure the shell does not notice. -/
def Fds.dup (fds : Fds) (d : ℕ) : Fds :=
  match fds d with
  | none => fds
  | some f => ((fds.alloc f).map (·.2)).getD fds

/-- The two new descriptors of a pipe. -/
def Fds.pipe (fds : Fds) (place : List Bool) : Option (ℕ × ℕ × Fds) :=
  match fds.alloc (.pipe place false) with
  | none => none
  | some (p0, fds) =>
    match fds.alloc (.pipe place true) with
    | none => none
    | some (p1, fds) => some (p0, p1, fds)

/-- A command that is started: its arguments, and the descriptors it starts with. -/
structure Start where
  argv : List (List UInt8)
  fds : Fds

section

variable (opens : List UInt8 → ℕ → Bool) (n : ℕ) (buf : List UInt8)

/-- What `runcmd` does at a redirection; `opens` says which files can be opened. -/
def openRedir (file : Str) (mode fd : ℕ) (fds : Fds) : Option Fds :=
  if opens (stringAt n buf file.q) mode then
    ((fds.close fd).alloc (.opened (stringAt n buf file.q) mode)).map (·.2)
  else none

/-- **Run a tree**: the commands that are started by it, in the processes it forks. -/
def runcmd : Cmd → List Bool → Fds → List Start
  | .exec argv, _, fds => if argv = [] then [] else [⟨argv.map fun w => stringAt n buf w.q, fds⟩]
  | .redir cmd file mode fd, place, fds =>
    match openRedir opens n buf file mode fd fds with
    | none => []
    | some fds => runcmd cmd place fds
  | .list left right, place, fds =>
    runcmd left (place ++ [false]) fds ++ runcmd right (place ++ [true]) fds
  | .pipe left right, place, fds =>
    match fds.pipe place with
    | none => []
    | some (p0, p1, fds) =>
      runcmd left (place ++ [false]) ((((fds.close 1).dup p1).close p0).close p1)
        ++ runcmd right (place ++ [true]) ((((fds.close 0).dup p0).close p0).close p1)
  | .back cmd, place, fds => runcmd cmd place fds

end

end Xv6.Sh
