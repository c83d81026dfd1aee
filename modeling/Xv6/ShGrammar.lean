import Xv6.Sh

/-!
# The grammar of the shell

The parser of `sh.c` accepts exactly the lines whose tokens derive from

    line  :=  pipe '&'* [ ';' line ]
    pipe  :=  exec [ '|' pipe ]
    exec  :=  '(' line ')' redir*  |  redir* (word redir*)*
    redir :=  ('<' | '>' | '>>') word

with fewer than `MAXARGS` words in a simple command, and returns the tree of the derivation
(`parsecmd_iff_derives`). The tokens are those of `lex`: symbols, and words that go on
as long as possible.
-/

namespace Xv6.Sh

open List
open Names (O_RDONLY O_CREATE O_TRUNC)

/-! ## Tokens -/

/-- **A token** of a command line. -/
inductive Token
  | sym (c : UInt8)
  | append
  | word (w : Str)
  deriving DecidableEq

/-- **The tokens of a line.** -/
def lex : List UInt8 → List Token
  | [] => []
  | c :: s =>
    if c ∈ whitespace then lex s
    else if c = gt ∧ s.headD 0 = gt then .append :: lex s.tail
    else if c ∈ symbols then .sym c :: lex s
    else .word ⟨c :: s, s.dropWhile inWord⟩ :: lex (s.dropWhile inWord)
termination_by s => s.length
decreasing_by
  · exact Nat.lt_succ_self _
  · exact Nat.lt_succ_of_le (tail_suffix s).length_le
  · exact Nat.lt_succ_self _
  · exact Nat.lt_succ_of_le (dropWhile_suffix _).length_le

/-- A token that begins with one of these symbols. -/
def Token.starts (toks : List UInt8) : Token → Bool
  | .sym c => c ∈ toks
  | .append => gt ∈ toks
  | .word _ => false

/-- The token that `gettoken` found. -/
def Got.token (g : Got) : Option Token :=
  match g.ret with
  | .eof => none
  | .sym c => some (.sym c)
  | .append => some .append
  | .word => some (.word ⟨g.q, g.eq⟩)

section

variable {s : List UInt8} {toks : List UInt8} {t : Token} {ts : List Token}

@[simp]
theorem lex_nil : lex [] = [] := by rw [lex]

@[simp]
theorem lex_skip (s : List UInt8) : lex (skip s) = lex s := by
  induction s with
  | nil => rfl
  | cons c s ih =>
    by_cases hc : c ∈ whitespace
    · rw [show skip (c :: s) = skip s from dropWhile_cons_of_pos (decide_eq_true hc), ih, lex,
        if_pos hc]
    · rw [show skip (c :: s) = c :: s from
        dropWhile_cons_of_neg (by simpa [blank] using hc)]

theorem ne_zero_of_skip (h0 : 0 ∉ s) {c : UInt8} {rest : List UInt8} (h : skip s = c :: rest) :
    c ≠ 0 := by
  rintro rfl
  exact h0 ((skip_suffix s).subset (h ▸ mem_cons_self))

theorem zero_notMem_of_suffix {t : List UInt8} (h0 : 0 ∉ s) (h : t <:+ s) : 0 ∉ t :=
  fun hmem => h0 (h.subset hmem)

/-- **`gettoken` finds the next token.** -/
theorem lex_gettoken (h0 : 0 ∉ s) :
    lex s = (gettoken s).token.toList ++ lex (gettoken s).rest := by
  rw [← lex_skip s]
  unfold gettoken
  split
  · rename_i h
    rw [h]
    rfl
  · rename_i c rest h
    have hblank := notMem_whitespace_of_skip h
    rw [h, if_neg (ne_zero_of_skip h0 h), lex, if_neg hblank]
    by_cases hsym : c ∈ [bar, lpar, rpar, semi, amp, lt]
    · have hgt : c ≠ gt := fun hgt => absurd (hgt ▸ hsym) (by decide)
      have hmem : c ∈ symbols := by
        simp only [symbols, mem_cons, not_mem_nil, or_false] at hsym ⊢
        tauto
      rw [if_pos hsym, if_neg (fun happ => hgt happ.1), if_pos hmem]
      exact congrArg (Token.sym c :: ·) (lex_skip rest).symm
    rw [if_neg hsym]
    by_cases hgt : c = gt
    · rw [if_pos hgt]
      by_cases happ : rest.headD 0 = gt
      · rw [if_pos happ, if_pos ⟨hgt, happ⟩]
        exact congrArg (Token.append :: ·) (lex_skip rest.tail).symm
      · rw [if_neg happ, if_neg (fun h => happ h.2), if_pos (hgt ▸ by decide)]
        exact congrArg (Token.sym c :: ·) (lex_skip rest).symm
    · have hmem : c ∉ symbols := by
        simp only [symbols, mem_cons, not_mem_nil, or_false] at hsym ⊢
        tauto
      rw [if_neg hgt, if_neg (fun h => hgt h.1), if_neg hmem, dropWhile_word h hsym hgt]
      exact congrArg (Token.word _ :: ·) (lex_skip _).symm

theorem lex_eq_nil (h0 : 0 ∉ s) (h : (gettoken s).token = none) : lex s = [] := by
  rw [← lex_skip]
  cases hskip : skip s with
  | nil => exact lex_nil
  | cons c rest =>
    unfold gettoken at h
    rw [hskip] at h
    dsimp only at h
    rw [if_neg (ne_zero_of_skip h0 hskip)] at h
    split_ifs at h <;> cases h

theorem gettoken_of_lex (h0 : 0 ∉ s) (h : lex s = t :: ts) :
    (gettoken s).token = some t ∧ lex (gettoken s).rest = ts := by
  have hlex := lex_gettoken h0
  cases hg : (gettoken s).token with
  | none =>
    rw [lex_eq_nil h0 hg] at h
    cases h
  | some t' =>
    rw [h, hg] at hlex
    cases hlex
    exact ⟨rfl, rfl⟩

/-- **`peek` looks at the next token.** -/
theorem peek_eq (h0 : 0 ∉ s) (htoks : toks ⊆ symbols) :
    peek toks s = (lex s).head?.any (·.starts toks) := by
  unfold peek
  rw [← lex_skip]
  cases hskip : skip s with
  | nil =>
    rw [lex_nil]
    rfl
  | cons c rest =>
    have hc : decide ((c :: rest).headD 0 ≠ 0 ∧ (c :: rest).headD 0 ∈ toks) = decide (c ∈ toks) :=
      decide_eq_decide.mpr (and_iff_right (ne_zero_of_skip h0 hskip))
    rw [lex, if_neg (notMem_whitespace_of_skip hskip), hc]
    split_ifs with happ hsym
    · rw [happ.1]
      rfl
    · rfl
    · exact decide_eq_false fun h => hsym (htoks h)

end

/-! ## The grammar -/

/-- A redirection. -/
structure Redirection where
  file : Str
  mode : ℕ
  fd : ℕ

/-- The redirection that an operator in front of a word stands for. -/
inductive Redirects : Token → Str → Redirection → Prop
  | input (f : Str) : Redirects (.sym lt) f ⟨f, O_RDONLY, 0⟩
  | output (f : Str) : Redirects (.sym gt) f ⟨f, O_WRONLY ||| O_CREATE ||| O_TRUNC, 1⟩
  | append (f : Str) : Redirects .append f ⟨f, O_WRONLY ||| O_CREATE, 1⟩

/-- **Redirections**, from left to right. -/
inductive Redirs : List Token → List Redirection → Prop
  | nil : Redirs [] []
  | cons {t : Token} {f : Str} {r : Redirection} {ts : List Token} {rs : List Redirection}
    (h : Redirects t f r) (h' : Redirs ts rs) : Redirs (t :: .word f :: ts) (r :: rs)

/-- **The words of a simple command**, with redirections behind each of them. -/
inductive Words : List Token → List Str → List Redirection → Prop
  | nil : Words [] [] []
  | cons {w : Str} {ts ts' : List Token} {ws : List Str} {rs rs' : List Redirection}
    (h : Redirs ts rs) (h' : Words ts' ws rs') :
    Words (.word w :: (ts ++ ts')) (w :: ws) (rs ++ rs')

/-- The tree of a command with redirections: the first one is innermost. -/
def wrap (cmd : Cmd) (rs : List Redirection) : Cmd :=
  rs.foldl (fun cmd r => .redir cmd r.file r.mode r.fd) cmd

/-- The nonterminals that have a tree. -/
inductive Nonterminal
  | line
  | pipe
  | exec

/-- **The grammar**: the tokens that derive from a nonterminal, and the tree of the derivation. -/
inductive Derives : Nonterminal → List Token → Cmd → Prop
  | simple {ts ts' : List Token} {ws : List Str} {rs rs' : List Redirection} (h : Redirs ts rs)
    (h' : Words ts' ws rs') (hws : ws.length < MAXARGS) :
    Derives .exec (ts ++ ts') (wrap (.exec ws) (rs ++ rs'))
  | block {ts ts' : List Token} {c : Cmd} {rs : List Redirection} (h : Derives .line ts c)
    (h' : Redirs ts' rs) : Derives .exec (.sym lpar :: (ts ++ .sym rpar :: ts')) (wrap c rs)
  | single {ts : List Token} {c : Cmd} (h : Derives .exec ts c) : Derives .pipe ts c
  | pipe {ts ts' : List Token} {c c' : Cmd} (h : Derives .exec ts c) (h' : Derives .pipe ts' c') :
    Derives .pipe (ts ++ .sym bar :: ts') (.pipe c c')
  | last {ts : List Token} {c : Cmd} (n : ℕ) (h : Derives .pipe ts c) :
    Derives .line (ts ++ replicate n (.sym amp)) (Cmd.back^[n] c)
  | list {ts ts' : List Token} {c c' : Cmd} (n : ℕ) (h : Derives .pipe ts c)
    (h' : Derives .line ts' c') :
    Derives .line (ts ++ (replicate n (.sym amp) ++ .sym semi :: ts'))
      (.list (Cmd.back^[n] c) c')

theorem wrap_append (c : Cmd) (rs rs' : List Redirection) :
    wrap c (rs ++ rs') = wrap (wrap c rs) rs' := foldl_append

theorem push_wrap (w : Str) (ws : List Str) (rs : List Redirection) :
    (wrap (.exec ws) rs).push w = wrap (.exec (ws ++ [w])) rs := by
  induction rs using reverseRecOn with
  | nil => rfl
  | append_singleton rs r ih =>
    rw [wrap_append, wrap_append, ← ih]
    rfl

/-! ## Every tree has a derivation -/

theorem bind_ok {α β : Type} {x : Except Panic α} {f : α → Except Panic β} {b : β} :
    (x >>= f) = .ok b ↔ ∃ a, x = .ok a ∧ f a = .ok b := by
  cases x with
  | error e => exact iff_of_false nofun fun ⟨_, h, _⟩ => nomatch h
  | ok a => exact ⟨fun h => ⟨a, rfl, h⟩, fun ⟨_, h, h'⟩ => Except.ok.inj h ▸ h'⟩

/-- The kind of a token. -/
def Token.tok : Token → Tok
  | .sym c => .sym c
  | .append => .append
  | .word _ => .word

section

variable {s : List UInt8} {t : Token} {ts ts' : List Token} {f : Str} {c : Cmd} {r : Redirection}
  {rs rs' : List Redirection} {g : Got}

theorem ret_of_token (h : g.token = some t) : g.ret = t.tok := by
  unfold Got.token at h
  split at h <;> cases h <;> assumption

theorem token_of_eof (h : g.ret = .eof) : g.token = none := by
  unfold Got.token
  rw [h]

theorem token_of_word (h : g.ret = .word) : g.token = some (.word ⟨g.q, g.eq⟩) := by
  unfold Got.token
  rw [h]

theorem Redirects.starts (h : Redirects t f r) : t.starts [lt, gt] := by
  cases h <;> rfl

theorem exists_redirects (h : t.starts [lt, gt]) (f : Str) : ∃ r, Redirects t f r := by
  cases t with
  | sym c =>
    rcases mem_pair.mp (of_decide_eq_true h) with rfl | rfl
    · exact ⟨_, .input f⟩
    · exact ⟨_, .output f⟩
  | append => exact ⟨_, .append f⟩
  | word w => cases h

theorem redirect_eq (h : Redirects t f r) (c : Cmd) :
    redirect t.tok c f = .redir c r.file r.mode r.fd := by
  cases h <;> rfl

theorem eq_of_starts {a : UInt8} (ha : a ≠ gt) (h : t.starts [a]) : t = .sym a := by
  cases t with
  | sym c => rw [mem_singleton.mp (of_decide_eq_true h)]
  | append => exact absurd (mem_singleton.mp (of_decide_eq_true h)).symm ha
  | word w => cases h

theorem exists_of_peek {toks : List UInt8} (h0 : 0 ∉ s) (htoks : toks ⊆ symbols)
    (h : peek toks s) : ∃ t ts, lex s = t :: ts ∧ t.starts toks
      ∧ (gettoken (skip s)).ret = t.tok ∧ lex (gettoken (skip s)).rest = ts := by
  rw [peek_eq h0 htoks] at h
  cases hlex : lex s with
  | nil =>
    rw [hlex] at h
    cases h
  | cons t ts =>
    rw [hlex] at h
    obtain ⟨htok, hrest⟩ := gettoken_of_lex (zero_notMem_of_suffix h0 (skip_suffix s))
      ((lex_skip s).trans hlex)
    exact ⟨t, ts, rfl, h, ret_of_token htok, hrest⟩

/-- **The redirections** that are read. -/
theorem parseredirs_sound (h0 : 0 ∉ s) {r : Parsed s} (h : parseredirs c s = .ok r) :
    ∃ ts rs, Redirs ts rs ∧ lex s = ts ++ lex r.rest ∧ r.cmd = wrap c rs := by
  induction hn : s.length using Nat.strong_induction_on generalizing s c with
  | _ n ih =>
    subst hn
    rw [parseredirs] at h
    split at h
    · rename_i hpeek
      obtain ⟨t, ts, hlex, hstarts, hret, hrest⟩ := exists_of_peek h0 (by decide) hpeek
      dsimp only at h
      split_ifs at h with hword
      obtain ⟨r', hr', hpure⟩ := bind_ok.mp h
      cases hpure
      have hsuffix := (gettoken_suffix (skip s)).trans (skip_suffix s)
      have hsuffix' := (gettoken_suffix (gettoken (skip s)).rest).trans hsuffix
      obtain ⟨ts', rs, hredirs, hlex', hcmd⟩ := ih _
        (lt_of_le_of_lt (gettoken_suffix _).length_le (gettoken_lt_of_peek hpeek))
        (zero_notMem_of_suffix h0 hsuffix') hr' rfl
      obtain ⟨r, hr⟩ := exists_redirects hstarts
        ⟨(gettoken (gettoken (skip s)).rest).q, (gettoken (gettoken (skip s)).rest).eq⟩
      refine ⟨_, _, .cons hr hredirs, ?_, ?_⟩
      · have hfile := lex_gettoken (zero_notMem_of_suffix h0 hsuffix)
        rw [token_of_word (not_not.mp hword), hlex', hrest] at hfile
        rw [hlex, hfile]
        rfl
      · show r'.cmd = _
        rw [hcmd, hret, redirect_eq hr]
        rfl
    · cases h
      exact ⟨[], [], .nil, (lex_skip s).symm, rfl⟩

/-- **The words** that are read, behind `ws` with the redirections `rs`. -/
theorem parseargs_sound (h0 : 0 ∉ s) {ws : List Str} {r : Parsed s} (hws : ws.length < MAXARGS)
    (h : parseargs (wrap (.exec ws) rs) ws.length s = .ok r) :
    ∃ ts ws' rs', Words ts ws' rs' ∧ lex s = ts ++ lex r.rest
      ∧ (ws ++ ws').length < MAXARGS ∧ r.cmd = wrap (.exec (ws ++ ws')) (rs ++ rs') := by
  induction hn : s.length using Nat.strong_induction_on generalizing s ws rs with
  | _ n ih =>
    subst hn
    have hdone : ∀ rest, lex s = lex rest → ∃ ts ws' rs', Words ts ws' rs'
        ∧ lex s = ts ++ lex rest ∧ (ws ++ ws').length < MAXARGS
        ∧ wrap (.exec ws) rs = wrap (.exec (ws ++ ws')) (rs ++ rs') := fun rest hrest =>
      ⟨[], [], [], .nil, hrest, by rwa [append_nil], by rw [append_nil, append_nil]⟩
    rw [parseargs] at h
    dsimp only at h
    split_ifs at h with hpeek heof hword hmax
    · cases h
      exact hdone _ (lex_skip s).symm
    · cases h
      refine hdone _ ?_
      have hlex := lex_gettoken (zero_notMem_of_suffix h0 (skip_suffix s))
      rwa [lex_skip, token_of_eof heof] at hlex
    · obtain ⟨r₁, hr₁, h⟩ := bind_ok.mp h
      obtain ⟨r₂, hr₂, hpure⟩ := bind_ok.mp h
      cases hpure
      have hsuffix := (gettoken_suffix (skip s)).trans (skip_suffix s)
      have hlex := lex_gettoken (zero_notMem_of_suffix h0 (skip_suffix s))
      rw [lex_skip, token_of_word (not_not.mp hword)] at hlex
      obtain ⟨w, hw⟩ : ∃ w : Str, w = ⟨(gettoken (skip s)).q, (gettoken (skip s)).eq⟩ := ⟨_, rfl⟩
      rw [← hw] at hlex
      rw [← hw, push_wrap] at hr₁
      obtain ⟨ts₁, rs₁, hredirs, hlex₁, hcmd₁⟩ :=
        parseredirs_sound (zero_notMem_of_suffix h0 hsuffix) hr₁
      have hlen : (ws ++ [w]).length = ws.length + 1 := length_append
      rw [hcmd₁, ← wrap_append, ← hlen] at hr₂
      obtain ⟨ts₂, ws₂, rs₂, hwords, hlex₂, hlt, hcmd₂⟩ := ih _
        (lt_of_le_of_lt r₁.suffix.length_le (lt_of_lt_of_le (gettoken_lt heof)
          (skip_suffix s).length_le))
        (zero_notMem_of_suffix h0 (r₁.suffix.trans hsuffix)) (hlen ▸ not_le.mp hmax) hr₂ rfl
      refine ⟨_, w :: ws₂, rs₁ ++ rs₂, .cons hredirs hwords, ?_, ?_, ?_⟩
      · rw [hlex, hlex₁, hlex₂]
        simp [Parsed.of]
      · rwa [← append_cons] at hlt
      · rw [← append_assoc, append_cons]
        exact hcmd₂

/-- **The `&`s** that are read. -/
theorem parsebacks_sound (h0 : 0 ∉ s) (c : Cmd) :
    ∃ n, lex s = replicate n (.sym amp) ++ lex (parsebacks c s).rest
      ∧ (parsebacks c s).cmd = Cmd.back^[n] c := by
  induction hn : s.length using Nat.strong_induction_on generalizing s c with
  | _ n ih =>
    subst hn
    rw [parsebacks]
    split
    · rename_i hpeek
      obtain ⟨t, ts, hlex, hstarts, -, hrest⟩ := exists_of_peek h0 (by decide) hpeek
      obtain ⟨m, hlex', hcmd⟩ := ih _ (gettoken_lt_of_peek hpeek)
        (zero_notMem_of_suffix h0 ((gettoken_suffix _).trans (skip_suffix s))) (.back c) rfl
      refine ⟨m + 1, ?_, ?_⟩
      · rw [hlex, eq_of_starts (by decide) hstarts, ← hrest, hlex']
        rfl
      · rw [Function.iterate_succ_apply]
        exact hcmd
    · exact ⟨0, (lex_skip s).symm, rfl⟩

/-- What the parsing function of a nonterminal returns has a derivation. -/
def SoundAt (s : List UInt8) (n : Nonterminal) (res : Except Panic (Parsed s)) : Prop :=
  ∀ r, res = .ok r → ∃ ts, Derives n ts r.cmd ∧ lex s = ts ++ lex r.rest

section

variable (h0 : 0 ∉ s)
  (hshort : ∀ t : List UInt8, 0 ∉ t → t.length < s.length →
    SoundAt t .line (parseline t) ∧ SoundAt t .pipe (parsepipe t))

include h0 hshort

theorem parseblock_sound : SoundAt s .exec (parseblock s) := by
  intro r h
  rw [parseblock] at h
  split_ifs at h with hpeek
  obtain ⟨t, ts, hlex, hstarts, -, hrest⟩ := exists_of_peek h0 (by decide) hpeek
  obtain ⟨r₁, hr₁, h⟩ := bind_ok.mp h
  split_ifs at h with hpeek₁
  obtain ⟨r₂, hr₂, hpure⟩ := bind_ok.mp h
  cases hpure
  have h₁ := zero_notMem_of_suffix h0 ((gettoken_suffix _).trans (skip_suffix s))
  have h₂ := zero_notMem_of_suffix h₁ r₁.suffix
  obtain ⟨ts₁, hline, hlex₁⟩ := (hshort _ h₁ (gettoken_lt_of_peek hpeek)).1 r₁ hr₁
  obtain ⟨t', ts', hlex', hstarts', -, hrest'⟩ := exists_of_peek h₂ (by decide) hpeek₁
  obtain ⟨ts₂, rs, hredirs, hlex₂, hcmd⟩ := parseredirs_sound
    (zero_notMem_of_suffix h₂ ((gettoken_suffix _).trans (skip_suffix _))) hr₂
  refine ⟨.sym lpar :: (ts₁ ++ .sym rpar :: ts₂), ?_, ?_⟩
  · show Derives .exec _ r₂.cmd
    rw [hcmd]
    exact .block hline hredirs
  · rw [hlex, eq_of_starts (by decide) hstarts, ← hrest, hlex₁, hlex',
      eq_of_starts (by decide) hstarts', ← hrest', hlex₂]
    simp [Parsed.of]

theorem parseexec_sound : SoundAt s .exec (parseexec s) := by
  have h₁ := zero_notMem_of_suffix h0 (skip_suffix s)
  intro r h
  rw [parseexec] at h
  split_ifs at h with hpeek
  · obtain ⟨r₁, hr₁, hpure⟩ := bind_ok.mp h
    cases hpure
    obtain ⟨ts, hderives, hlex⟩ := parseblock_sound h₁ (fun t ht hlt =>
      hshort t ht (lt_of_lt_of_le hlt (skip_suffix s).length_le)) r₁ hr₁
    exact ⟨ts, hderives, (lex_skip s).symm.trans hlex⟩
  · obtain ⟨r₁, hr₁, h⟩ := bind_ok.mp h
    obtain ⟨r₂, hr₂, hpure⟩ := bind_ok.mp h
    cases hpure
    obtain ⟨ts, rs, hredirs, hlex, hcmd⟩ := parseredirs_sound h₁ hr₁
    rw [hcmd] at hr₂
    obtain ⟨ts', ws, rs', hwords, hlex', hlt, hcmd'⟩ :=
      parseargs_sound (zero_notMem_of_suffix h₁ r₁.suffix)
        (show ([] : List Str).length < MAXARGS by decide) hr₂
    refine ⟨ts ++ ts', ?_, ?_⟩
    · show Derives .exec _ r₂.cmd
      rw [hcmd']
      exact .simple hredirs hwords hlt
    · rw [← lex_skip, hlex, hlex', append_assoc]
      rfl

theorem parsepipe_sound : SoundAt s .pipe (parsepipe s) := by
  intro r h
  rw [parsepipe] at h
  obtain ⟨r₁, hr₁, h⟩ := bind_ok.mp h
  obtain ⟨ts, hderives, hlex⟩ := parseexec_sound h0 hshort r₁ hr₁
  have h₁ := zero_notMem_of_suffix h0 r₁.suffix
  split_ifs at h with hpeek
  · obtain ⟨r₂, hr₂, hpure⟩ := bind_ok.mp h
    cases hpure
    obtain ⟨t, ts₁, hlex₁, hstarts, -, hrest⟩ := exists_of_peek h₁ (by decide) hpeek
    obtain ⟨ts₂, hpipe, hlex₂⟩ := (hshort _
      (zero_notMem_of_suffix h₁ ((gettoken_suffix _).trans (skip_suffix _)))
      (lt_of_lt_of_le (gettoken_lt_of_peek hpeek) r₁.suffix.length_le)).2 r₂ hr₂
    refine ⟨_, .pipe hderives hpipe, ?_⟩
    rw [hlex, hlex₁, eq_of_starts (by decide) hstarts, ← hrest, hlex₂]
    simp [Parsed.of]
  · cases h
    exact ⟨ts, .single hderives, by rw [hlex, lex_skip]⟩

theorem parseline_sound : SoundAt s .line (parseline s) := by
  intro r h
  rw [parseline] at h
  obtain ⟨r₁, hr₁, h⟩ := bind_ok.mp h
  obtain ⟨ts, hderives, hlex⟩ := parsepipe_sound h0 hshort r₁ hr₁
  have h₁ := zero_notMem_of_suffix h0 r₁.suffix
  obtain ⟨n, hlex₁, hcmd⟩ := parsebacks_sound h₁ r₁.cmd
  have h₂ := zero_notMem_of_suffix h₁ (parsebacks r₁.cmd r₁.rest).suffix
  dsimp only at h
  split_ifs at h with hpeek
  · obtain ⟨r₂, hr₂, hpure⟩ := bind_ok.mp h
    cases hpure
    obtain ⟨t, ts₁, hlex₂, hstarts, -, hrest⟩ := exists_of_peek h₂ (by decide) hpeek
    obtain ⟨ts₂, hline, hlex₃⟩ := (hshort _
      (zero_notMem_of_suffix h₂ ((gettoken_suffix _).trans (skip_suffix _)))
      (lt_of_lt_of_le (gettoken_lt_of_peek hpeek)
        ((parsebacks r₁.cmd r₁.rest).suffix.trans r₁.suffix).length_le)).1 r₂ hr₂
    refine ⟨ts ++ (replicate n (.sym amp) ++ .sym semi :: ts₂), ?_, ?_⟩
    · show Derives .line _ (.list (parsebacks r₁.cmd r₁.rest).cmd r₂.cmd)
      rw [hcmd]
      exact .list n hderives hline
    · rw [hlex, hlex₁, hlex₂, eq_of_starts (by decide) hstarts, ← hrest, hlex₃]
      simp [Parsed.of]
  · cases h
    refine ⟨ts ++ replicate n (.sym amp), ?_, ?_⟩
    · show Derives .line _ (parsebacks r₁.cmd r₁.rest).cmd
      rw [hcmd]
      exact .last n hderives
    · rw [hlex, hlex₁, lex_skip, append_assoc]

end

/-- **Whatever the parser returns has a derivation.** -/
theorem parse_sound (h0 : 0 ∉ s) :
    SoundAt s .line (parseline s) ∧ SoundAt s .pipe (parsepipe s) := by
  induction hn : s.length using Nat.strong_induction_on generalizing s with
  | _ n ih =>
    subst hn
    have hshort := fun t (ht : 0 ∉ t) (hlt : t.length < s.length) => ih _ hlt ht rfl
    exact ⟨parseline_sound h0 hshort, parsepipe_sound h0 hshort⟩

end

/-! ## Every derivation is found -/

/-- The tokens that may follow. -/
def Nonterminal.follow : Nonterminal → List Token
  | .line => [.sym rpar]
  | .pipe => [.sym rpar, .sym amp, .sym semi]
  | .exec => [.sym rpar, .sym amp, .sym semi, .sym bar]

/-- The parsing function of a nonterminal. -/
def Nonterminal.parse : (n : Nonterminal) → (s : List UInt8) → Except Panic (Parsed s)
  | .line => parseline
  | .pipe => parsepipe
  | .exec => parseexec

/-- What may stand behind a part of the line. -/
def Follows (n : Nonterminal) (ts : List Token) : Prop := ∀ t ∈ ts.head?, t ∈ n.follow

section

variable {s toks : List UInt8} {n : Nonterminal} {ts ts' : List Token} {w : Str}
  {ws ws₀ : List Str} {rs rs₀ : List Redirection}

theorem Follows.any_starts (h : Follows n ts) (hn : ∀ t ∈ n.follow, t.starts toks = false) :
    ts.head?.any (·.starts toks) = false := by
  cases ts with
  | nil => rfl
  | cons t ts => exact hn t (h t rfl)

theorem Follows.cons {t : Token} (h : t ∈ n.follow) : Follows n (t :: ts) := by
  rintro _ ⟨⟩
  exact h

theorem gettoken_word (h0 : 0 ∉ s) (hlex : lex s = .word w :: ts) :
    (gettoken s).ret = .word ∧ (⟨(gettoken s).q, (gettoken s).eq⟩ : Str) = w
      ∧ lex (gettoken s).rest = ts := by
  obtain ⟨htok, hrest⟩ := gettoken_of_lex h0 hlex
  have hret : (gettoken s).ret = .word := ret_of_token htok
  rw [token_of_word hret] at htok
  exact ⟨hret, Token.word.inj (Option.some.inj htok), hrest⟩

theorem lex_behind {t : Token} (h0 : 0 ∉ s) (hlex : lex s = t :: ts) :
    0 ∉ (gettoken (skip s)).rest ∧ lex (gettoken (skip s)).rest = ts := by
  have h₁ := zero_notMem_of_suffix h0 (skip_suffix s)
  exact ⟨zero_notMem_of_suffix h₁ (gettoken_suffix _),
    (gettoken_of_lex h₁ ((lex_skip s).trans hlex)).2⟩

theorem gettoken_eof (h0 : 0 ∉ s) (hlex : lex s = []) :
    (gettoken s).ret = .eof ∧ lex (gettoken s).rest = [] := by
  have h := lex_gettoken h0
  rw [hlex] at h
  obtain ⟨htok, hrest⟩ := append_eq_nil_iff.mp h.symm
  refine ⟨?_, hrest⟩
  rw [Option.toList_eq_nil_iff] at htok
  unfold Got.token at htok
  split at htok <;> first | assumption | cases htok

theorem parseredirs_complete (h : Redirs ts rs) (h0 : 0 ∉ s) (hlex : lex s = ts ++ ts')
    (hnext : ts'.head?.any (·.starts [lt, gt]) = false) (c : Cmd) :
    ∃ r, parseredirs c s = .ok r ∧ r.cmd = wrap c rs ∧ lex r.rest = ts' := by
  induction h generalizing s c with
  | nil =>
    have hpeek : ¬ peek [lt, gt] s := by
      rw [peek_eq h0 (by decide), hlex]
      exact ne_true_of_eq_false hnext
    rw [parseredirs, dif_neg hpeek]
    exact ⟨_, rfl, rfl, (lex_skip s).trans hlex⟩
  | @cons t f r ts rs hr hrs ih =>
    have hpeek : peek [lt, gt] s := by
      rw [peek_eq h0 (by decide), hlex]
      exact hr.starts
    have h₁ := zero_notMem_of_suffix h0 (skip_suffix s)
    have h₂ := zero_notMem_of_suffix h₁ (gettoken_suffix _)
    obtain ⟨htok, hrest⟩ := gettoken_of_lex h₁ ((lex_skip s).trans hlex)
    obtain ⟨hword, hfile, hrest'⟩ := gettoken_word h₂ hrest
    obtain ⟨r', hr', hcmd, hlex'⟩ := ih (zero_notMem_of_suffix h₂ (gettoken_suffix _)) hrest'
      (redirect (gettoken (skip s)).ret c f)
    rw [parseredirs, dif_pos hpeek]
    dsimp only
    rw [if_neg (not_not.mpr hword), hfile, hr']
    refine ⟨_, rfl, ?_, hlex'⟩
    show r'.cmd = _
    rw [hcmd, ret_of_token htok, redirect_eq hr]
    rfl

theorem Words.any_starts (h : Words ts ws rs) (hnext : ts'.head?.any (·.starts toks) = false) :
    (ts ++ ts').head?.any (·.starts toks) = false := by
  cases h with
  | nil => exact hnext
  | cons => rfl

theorem parseargs_complete (h : Words ts ws rs) (h0 : 0 ∉ s) (hlex : lex s = ts ++ ts')
    (hfollow : Follows .exec ts') (hlt : (ws₀ ++ ws).length < MAXARGS) :
    ∃ r, parseargs (wrap (.exec ws₀) rs₀) ws₀.length s = .ok r
      ∧ r.cmd = wrap (.exec (ws₀ ++ ws)) (rs₀ ++ rs) ∧ lex r.rest = ts' := by
  have h₁ := zero_notMem_of_suffix h0 (skip_suffix s)
  induction h generalizing s ws₀ rs₀ with
  | nil =>
    rw [append_nil, append_nil]
    rw [nil_append] at hlex
    rw [parseargs]
    by_cases hpeek : peek [bar, rpar, amp, semi] s
    · rw [if_pos hpeek]
      exact ⟨_, rfl, rfl, (lex_skip s).trans hlex⟩
    · have hnil : ts' = [] := by
        -- whatever else may follow would have been seen
        rw [peek_eq h0 (by decide), hlex] at hpeek
        cases ts' with
        | nil => rfl
        | cons t ts' =>
          have hstarts : ∀ t ∈ Nonterminal.exec.follow, t.starts [bar, rpar, amp, semi] := by decide
          exact absurd (hstarts t (hfollow t rfl)) hpeek
      obtain ⟨heof, hrest⟩ := gettoken_eof h₁ ((lex_skip s).trans (hlex.trans hnil))
      rw [if_neg hpeek]
      dsimp only
      rw [dif_pos heof]
      exact ⟨_, rfl, rfl, hrest.trans hnil.symm⟩
  | @cons w ts ts₁ ws rs rs₁ hredirs hwords ih =>
    have hpeek : ¬ peek [bar, rpar, amp, semi] s := by
      rw [peek_eq h0 (by decide), hlex]
      exact Bool.false_ne_true
    rw [cons_append, append_assoc] at hlex
    obtain ⟨hword, hw, hrest⟩ := gettoken_word h₁ ((lex_skip s).trans hlex)
    have h₂ := zero_notMem_of_suffix h₁ (gettoken_suffix _)
    obtain ⟨r, hr, hcmd, hlex'⟩ := parseredirs_complete hredirs h₂ hrest
      (hwords.any_starts (hfollow.any_starts (by decide))) (wrap (.exec (ws₀ ++ [w])) rs₀)
    have h₃ := zero_notMem_of_suffix h₂ r.suffix
    rw [append_cons] at hlt ⊢
    obtain ⟨r', hr', hcmd', hlex''⟩ := @ih _ (ws₀ ++ [w]) (rs₀ ++ rs) h₃ hlex' hlt
      (zero_notMem_of_suffix h₃ (skip_suffix _))
    have hlen : (ws₀ ++ [w]).length = ws₀.length + 1 := length_append
    have hmax : ¬ MAXARGS ≤ ws₀.length + 1 := by
      rw [length_append, hlen] at hlt
      omega
    rw [parseargs, if_neg hpeek]
    dsimp only
    rw [dif_neg (by rw [hword]; exact Tok.noConfusion), if_neg (not_not.mpr hword), if_neg hmax, hw,
      push_wrap]
    have hargs : parseargs r.cmd (ws₀.length + 1) r.rest = .ok r' := by
      rw [hcmd, ← wrap_append, ← hlen, hr']
    refine ⟨_, bind_ok.mpr ⟨r, hr, bind_ok.mpr ⟨r', hargs, rfl⟩⟩, ?_, hlex''⟩
    rw [← append_assoc]
    exact hcmd'

theorem parsebacks_complete {m : ℕ} (h0 : 0 ∉ s)
    (hlex : lex s = replicate m (.sym amp) ++ ts')
    (hnext : ts'.head?.any (·.starts [amp]) = false) (c : Cmd) :
    (parsebacks c s).cmd = Cmd.back^[m] c ∧ lex (parsebacks c s).rest = ts' := by
  induction m generalizing s c with
  | zero =>
    have hpeek : ¬ peek [amp] s := by
      rw [peek_eq h0 (by decide), hlex]
      exact ne_true_of_eq_false hnext
    rw [parsebacks, dif_neg hpeek]
    exact ⟨rfl, (lex_skip s).trans hlex⟩
  | succ m ih =>
    have hpeek : peek [amp] s := by
      rw [peek_eq h0 (by decide), hlex]
      rfl
    have h₁ := zero_notMem_of_suffix h0 (skip_suffix s)
    obtain ⟨-, hrest⟩ := gettoken_of_lex h₁ ((lex_skip s).trans hlex)
    rw [parsebacks, dif_pos hpeek]
    exact ih (zero_notMem_of_suffix h₁ (gettoken_suffix _)) hrest (.back c)

theorem Redirs.any_starts (h : Redirs ts rs) (hnext : ts'.head?.any (·.starts [lpar]) = false) :
    (ts ++ ts').head?.any (·.starts [lpar]) = false := by
  cases h with
  | nil => exact hnext
  | cons hr _ => cases hr <;> rfl

theorem Follows.mono {m : Nonterminal} (h : Follows n ts) (hsub : n.follow ⊆ m.follow) :
    Follows m ts := fun t ht => hsub (h t ht)

theorem Follows.backs (h : Follows .pipe ts) (m : ℕ) :
    Follows .pipe (replicate m (.sym amp) ++ ts) := by
  cases m with
  | zero => exact h
  | succ m => exact .cons (by decide)

theorem parseblock_complete {c : Cmd} {ts₁ ts₂ : List Token}
    (hline : ∀ {s : List UInt8} {ts'}, 0 ∉ s → lex s = ts₁ ++ ts' → Follows .line ts' →
      ∃ r, parseline s = .ok r ∧ r.cmd = c ∧ lex r.rest = ts')
    (hredirs : Redirs ts₂ rs) (h0 : 0 ∉ s)
    (hlex : lex s = .sym lpar :: (ts₁ ++ .sym rpar :: (ts₂ ++ ts'))) (hfollow : Follows .exec ts') :
    ∃ r, parseblock s = .ok r ∧ r.cmd = wrap c rs ∧ lex r.rest = ts' := by
  have hpeek : peek [lpar] s := by
    rw [peek_eq h0 (by decide), hlex]
    rfl
  obtain ⟨h₁, hlex₁⟩ := lex_behind h0 hlex
  obtain ⟨r, hr, rfl, hlex₂⟩ := hline h₁ hlex₁ (.cons (by decide))
  have h₂ := zero_notMem_of_suffix h₁ r.suffix
  have hpeek' : peek [rpar] r.rest := by
    rw [peek_eq h₂ (by decide), hlex₂]
    rfl
  obtain ⟨h₃, hlex₃⟩ := lex_behind h₂ hlex₂
  obtain ⟨r', hr', hcmd, hlex₄⟩ :=
    parseredirs_complete hredirs h₃ hlex₃ (hfollow.any_starts (by decide)) r.cmd
  rw [parseblock, dif_pos hpeek]
  exact ⟨_, bind_ok.mpr ⟨r, hr, (if_pos hpeek').trans (bind_ok.mpr ⟨r', hr', rfl⟩)⟩, hcmd, hlex₄⟩

/-- **Every derivation is found** by the parser. -/
theorem derives_complete {c : Cmd} (h : Derives n ts c) (h0 : 0 ∉ s) (hlex : lex s = ts ++ ts')
    (hfollow : Follows n ts') : ∃ r, n.parse s = .ok r ∧ r.cmd = c ∧ lex r.rest = ts' := by
  induction h generalizing s ts' with
  | @simple ts₁ ts₂ ws rs₁ rs₂ hredirs hwords hws =>
    rw [append_assoc] at hlex
    have hpeek : ¬ peek [lpar] s := by
      rw [peek_eq h0 (by decide), hlex]
      exact ne_true_of_eq_false
        (hredirs.any_starts (hwords.any_starts (hfollow.any_starts (by decide))))
    have h₁ := zero_notMem_of_suffix h0 (skip_suffix s)
    obtain ⟨r, hr, hcmd, hlex₁⟩ := parseredirs_complete hredirs h₁ ((lex_skip s).trans hlex)
      (hwords.any_starts (hfollow.any_starts (by decide))) (.exec [])
    obtain ⟨r', hr', hcmd', hlex₂⟩ := @parseargs_complete _ _ _ _ [] _ rs₁ hwords
      (zero_notMem_of_suffix h₁ r.suffix) hlex₁ hfollow hws
    show ∃ r, parseexec s = .ok r ∧ _
    rw [parseexec, if_neg hpeek]
    rw [← hcmd] at hr'
    exact ⟨_, bind_ok.mpr ⟨r, hr, bind_ok.mpr ⟨r', hr', rfl⟩⟩, hcmd', hlex₂⟩
  | block hline hredirs ih =>
    rw [cons_append, append_assoc, cons_append] at hlex
    have hpeek : peek [lpar] s := by
      rw [peek_eq h0 (by decide), hlex]
      rfl
    obtain ⟨r, hr, hcmd, hlex'⟩ := parseblock_complete ih hredirs
      (zero_notMem_of_suffix h0 (skip_suffix s)) ((lex_skip s).trans hlex) hfollow
    show ∃ r, parseexec s = .ok r ∧ _
    rw [parseexec, if_pos hpeek]
    exact ⟨_, bind_ok.mpr ⟨r, hr, rfl⟩, hcmd, hlex'⟩
  | single h ih =>
    obtain ⟨r, hr, rfl, hlex₁⟩ := ih h0 hlex (hfollow.mono (by decide))
    have hpeek : ¬ peek [bar] r.rest := by
      rw [peek_eq (zero_notMem_of_suffix h0 r.suffix) (by decide), hlex₁]
      exact ne_true_of_eq_false (hfollow.any_starts (by decide))
    show ∃ r, parsepipe s = .ok r ∧ _
    rw [parsepipe]
    refine ⟨_, bind_ok.mpr ⟨r, hr, dif_neg hpeek⟩, rfl, (lex_skip _).trans hlex₁⟩
  | pipe h h' ih ih' =>
    rw [append_assoc, cons_append] at hlex
    obtain ⟨r, hr, rfl, hlex₁⟩ := ih h0 hlex (.cons (by decide))
    have h₁ := zero_notMem_of_suffix h0 r.suffix
    have hpeek : peek [bar] r.rest := by
      rw [peek_eq h₁ (by decide), hlex₁]
      rfl
    obtain ⟨h₂, hlex₂⟩ := lex_behind h₁ hlex₁
    obtain ⟨r', hr', rfl, hlex₃⟩ := ih' h₂ hlex₂ hfollow
    show ∃ r, parsepipe s = .ok r ∧ _
    rw [parsepipe]
    refine ⟨_, bind_ok.mpr ⟨r, hr, (dif_pos hpeek).trans (bind_ok.mpr ⟨r', hr', rfl⟩)⟩, rfl, hlex₃⟩
  | last m h ih =>
    rw [append_assoc] at hlex
    obtain ⟨r, hr, rfl, hlex₁⟩ := ih h0 hlex ((hfollow.mono (by decide)).backs m)
    have h₁ := zero_notMem_of_suffix h0 r.suffix
    obtain ⟨hcmd, hlex₂⟩ :=
      parsebacks_complete h₁ hlex₁ (hfollow.any_starts (by decide)) r.cmd
    have hpeek : ¬ peek [semi] (parsebacks r.cmd r.rest).rest := by
      rw [peek_eq (zero_notMem_of_suffix h₁ (parsebacks _ _).suffix) (by decide), hlex₂]
      exact ne_true_of_eq_false (hfollow.any_starts (by decide))
    show ∃ r, parseline s = .ok r ∧ _
    rw [parseline]
    exact ⟨_, bind_ok.mpr ⟨r, hr, dif_neg hpeek⟩, hcmd, (lex_skip _).trans hlex₂⟩
  | list m h h' ih ih' =>
    rw [append_assoc, append_assoc, cons_append] at hlex
    obtain ⟨r, hr, rfl, hlex₁⟩ := ih h0 hlex (Follows.backs (.cons (by decide)) m)
    have h₁ := zero_notMem_of_suffix h0 r.suffix
    obtain ⟨hcmd, hlex₂⟩ := parsebacks_complete h₁ hlex₁ rfl r.cmd
    have h₂ := zero_notMem_of_suffix h₁ (parsebacks r.cmd r.rest).suffix
    have hpeek : peek [semi] (parsebacks r.cmd r.rest).rest := by
      rw [peek_eq h₂ (by decide), hlex₂]
      rfl
    obtain ⟨h₃, hlex₃⟩ := lex_behind h₂ hlex₂
    obtain ⟨r', hr', rfl, hlex₄⟩ := ih' h₃ hlex₃ hfollow
    show ∃ r, parseline s = .ok r ∧ _
    rw [parseline, ← hcmd]
    exact ⟨_, bind_ok.mpr ⟨r, hr, (dif_pos hpeek).trans (bind_ok.mpr ⟨r', hr', rfl⟩)⟩, rfl, hlex₄⟩

end

/-! ## Command lines -/

theorem skip_eq_nil {s : List UInt8} (h0 : 0 ∉ s) (h : lex s = []) : skip s = [] := by
  have heof := (gettoken_eof h0 h).1
  unfold gettoken at heof
  split at heof
  · assumption
  · rename_i c rest hskip
    rw [if_neg (ne_zero_of_skip h0 hskip)] at heof
    split_ifs at heof

/-- **What the parser returns** on a line without zeros is what the tokens of the line derive. -/
theorem parsecmd_iff_derives {line : List UInt8} (h0 : 0 ∉ line) (c : Cmd) (buf : List UInt8) :
    parsecmd line = .ok (c, buf)
      ↔ Derives .line (lex line) c ∧ buf = nulterminate line.length c (line ++ [0]) := by
  unfold parsecmd
  constructor
  · intro h
    obtain ⟨r, hr, h⟩ := bind_ok.mp h
    split_ifs at h with hrest
    obtain ⟨rfl, rfl⟩ := Prod.mk.inj (Except.ok.inj h)
    obtain ⟨ts, hderives, hlex⟩ := (parse_sound h0).1 r hr
    rw [← lex_skip r.rest, not_not.mp hrest, lex_nil, append_nil] at hlex
    exact ⟨hlex ▸ hderives, rfl⟩
  · rintro ⟨hderives, rfl⟩
    obtain ⟨r, hr, rfl, hlex⟩ :=
      derives_complete hderives h0 (append_nil _).symm nofun
    have hrest := skip_eq_nil (zero_notMem_of_suffix h0 r.suffix) hlex
    exact bind_ok.mpr ⟨r, hr, if_neg (not_not.mpr hrest)⟩

/-- **The parser accepts exactly its grammar**, and returns the tree of the derivation, of which
there is only one. -/
theorem parsecmd_accepts_grammar {line : List UInt8} (h0 : 0 ∉ line) :
    ((∃ res, parsecmd line = .ok res) ↔ ∃ c, Derives .line (lex line) c)
    ∧ (∀ c buf, parsecmd line = .ok (c, buf) → Derives .line (lex line) c)
    ∧ ∀ c c', Derives .line (lex line) c → Derives .line (lex line) c' → c = c' := by
  refine ⟨⟨?_, ?_⟩, fun c buf h => ((parsecmd_iff_derives h0 c buf).mp h).1, fun c c' h h' => ?_⟩
  · rintro ⟨⟨c, buf⟩, h⟩
    exact ⟨c, ((parsecmd_iff_derives h0 c buf).mp h).1⟩
  · rintro ⟨c, h⟩
    exact ⟨_, (parsecmd_iff_derives h0 c _).mpr ⟨h, rfl⟩⟩
  · have hrun := (parsecmd_iff_derives h0 c _).mpr ⟨h, rfl⟩
    have hrun' := (parsecmd_iff_derives h0 c' _).mpr ⟨h', rfl⟩
    exact (Prod.mk.inj (Except.ok.inj (hrun.symm.trans hrun'))).1

/-- The line `a>b` is accepted, and the line `a(b` is not. -/
theorem parsecmd_accepts_grammar_examples :
    (∃ c, Derives .line (lex [97, 62, 98]) c) ∧ ¬ ∃ c, Derives .line (lex [97, 40, 98]) c := by
  constructor
  · refine (parsecmd_accepts_grammar (show 0 ∉ [97, 62, 98] by decide)).1.mp ?_
    have hok : (parsecmd [97, 62, 98]).toOption.isSome := by decide +kernel
    cases hrun : parsecmd [97, 62, 98] with
    | ok res => exact ⟨res, rfl⟩
    | error e =>
      rw [hrun] at hok
      cases hok
  · intro h
    obtain ⟨res, hrun⟩ := (parsecmd_accepts_grammar (show 0 ∉ [97, 40, 98] by decide)).1.mpr h
    have hnone : (parsecmd [97, 40, 98]).toOption.isSome = false := by decide +kernel
    rw [hrun] at hnone
    cases hnone

end Xv6.Sh
