import Mathlib

/-!
# `grep`

The regular expressions of `grep` are made of characters that stand for themselves, `.` for any
character, a character with a `*` for any number of it, `^` in front for the start of
the text and `$` at the back for its end. The code of `grep.c` is three functions that call each
other with pointers into the expression and the text.

Here such an expression is a pattern (`Pattern`), with the language of its body (`Pattern.lang`,
a product of languages of one letter and of their stars). The code decides whether a part of the
text is in this language, between the ends that the pattern asks for (`match_iff_occurs`).
`grep` itself cuts the file into lines in a buffer, and stops at a line that fills it
(`grep_unbuffered_iff`).

Strings are lists of bytes that end at the first zero, or at the end of the list.
-/

namespace Xv6

/-- The string in a buffer: what is in front of the first zero. -/
def cstring (s : List UInt8) : List UInt8 := s.takeWhile (· ≠ 0)

namespace Grep

/-! ## The code -/

/-- A character of a string; behind the end of the list there is a zero. -/
def ch (s : List UInt8) (i : ℕ) : UInt8 := s.getD i 0

/-- `'.'` -/
def dot : UInt8 := 46

/-- `'*'` -/
def asterisk : UInt8 := 42

/-- `'^'` -/
def caret : UInt8 := 94

/-- `'$'` -/
def dollar : UInt8 := 36

theorem length_drop_lt {s : List UInt8} (h : ch s 0 ≠ 0) {i : ℕ} (hi : 0 < i) :
    (s.drop i).length < s.length := by
  cases s with
  | nil => exact absurd rfl h
  | cons c s =>
    rw [List.length_drop, List.length_cons]
    omega

mutual

/-- Search for `re` at the beginning of `text`. -/
def matchhere (re text : List UInt8) : Bool :=
  if ch re 0 = 0 then true
  else if ch re 1 = asterisk then matchstar (ch re 0) (re.drop 2) text
  else if ch re 0 = dollar ∧ ch re 1 = 0 then ch text 0 = 0
  else if ch text 0 ≠ 0 ∧ (ch re 0 = dot ∨ ch re 0 = ch text 0) then
    matchhere (re.drop 1) (text.drop 1)
  else false
termination_by (re.length, 0)
decreasing_by
  · exact Prod.Lex.left _ _ (length_drop_lt ‹_› (by decide))
  · exact Prod.Lex.left _ _ (length_drop_lt ‹_› (by decide))

/-- Search for `c*re` at the beginning of `text`. -/
def matchstar (c : UInt8) (re text : List UInt8) : Bool :=
  if matchhere re text then true
  else if ch text 0 ≠ 0 ∧ (ch text 0 = c ∨ c = dot) then matchstar c re (text.drop 1)
  else false
termination_by (re.length, text.length + 1)
decreasing_by
  · exact Prod.Lex.right _ (Nat.succ_pos _)
  · rename_i htext
    exact Prod.Lex.right _ (Nat.succ_lt_succ (length_drop_lt htext.1 (by decide)))

end

/-- The loop of `match`: search for `re` at every place of `text`, its end too. -/
def matchLoop (re text : List UInt8) : Bool :=
  if matchhere re text then true
  else if ch text 0 ≠ 0 then matchLoop re (text.drop 1)
  else false
termination_by text.length
decreasing_by exact length_drop_lt ‹_› (by decide)

/-- Does `re` match a part of `text`? -/
def match_ (re text : List UInt8) : Bool :=
  if ch re 0 = caret then matchhere (re.drop 1) text else matchLoop re text

/-! ## Patterns -/

/-- A part of a pattern: one character, or any number of them. -/
inductive Item
  | one (c : UInt8)
  | star (c : UInt8)
  deriving DecidableEq, Repr

/-- A pattern: what is to be found, and whether it has to be at the ends of the text. -/
structure Pattern where
  atStart : Bool
  body : List Item
  atEnd : Bool
  deriving DecidableEq, Repr

/-- Read the body of an expression, and whether a `$` ends it. -/
def readBody : List UInt8 → List Item × Bool
  | [] => ([], false)
  | [c] => if c = dollar then ([], true) else ([.one c], false)
  | c :: d :: re =>
    if d = asterisk then ((.star c) :: (readBody re).1, (readBody re).2)
    else (.one c :: (readBody (d :: re)).1, (readBody (d :: re)).2)

/-- Read an expression. -/
def readPattern (re : List UInt8) : Pattern :=
  if re.head? = some caret then ⟨true, (readBody re.tail).1, (readBody re.tail).2⟩
  else ⟨false, (readBody re).1, (readBody re).2⟩

example : readPattern [caret, 97, asterisk, dollar] = ⟨true, [.star 97], true⟩ := by decide

/-- A character of a pattern stands for a character of the text. -/
def StandsFor (c a : UInt8) : Prop := c = dot ∨ a = c

/-- The language of one character. -/
def letter (c : UInt8) : Language UInt8 := {w | ∃ a, StandsFor c a ∧ w = [a]}

open List
open scoped Computability

/-- The language of a part. -/
def Item.lang : Item → Language UInt8
  | .one c => letter c
  | .star c => (letter c)∗

/-- The language of a list of parts. -/
def langOf (items : List Item) : Language UInt8 := (items.map Item.lang).prod

/-- **The pattern occurs in the text**: a part of the text is in its language, and it is where the
pattern wants it. -/
def Pattern.Occurs (p : Pattern) (text : List UInt8) : Prop :=
  ∃ before part behind, text = before ++ part ++ behind ∧ part ∈ langOf p.body
    ∧ (p.atStart = true → before = []) ∧ (p.atEnd = true → behind = [])

/-- The pattern occurs at the beginning of the text. -/
def OccursHere (body : List Item × Bool) (text : List UInt8) : Prop :=
  ∃ part behind, text = part ++ behind ∧ part ∈ langOf body.1 ∧ (body.2 = true → behind = [])

theorem mem_star_letter {c : UInt8} {w : List UInt8} :
    w ∈ (letter c)∗ ↔ ∀ a ∈ w, StandsFor c a := by
  constructor
  · intro h
    obtain ⟨parts, rfl, hparts⟩ := Language.mem_kstar.mp h
    intro a ha
    obtain ⟨w, hw, haw⟩ := mem_flatten.mp ha
    obtain ⟨b, hb, rfl⟩ := hparts w hw
    rwa [mem_singleton.mp haw]
  · intro h
    refine Language.mem_kstar.mpr ⟨w.map fun a => [a], ?_, fun y hy => ?_⟩
    · exact (flatMap_singleton' w).symm
    · obtain ⟨a, ha, rfl⟩ := mem_map.mp hy
      exact ⟨a, h a ha, rfl⟩

theorem occursHere_nil (text : List UInt8) : OccursHere ([], false) text :=
  ⟨[], text, rfl, rfl, fun h => absurd h (by decide)⟩

theorem occursHere_end (text : List UInt8) : OccursHere ([], true) text ↔ text = [] := by
  constructor
  · rintro ⟨part, behind, rfl, hpart, hend⟩
    rw [hend rfl, show part = [] from hpart]
    rfl
  · rintro rfl
    exact ⟨[], [], rfl, rfl, fun _ => rfl⟩

/-- A character, and the rest behind it. -/
theorem occursHere_one {c : UInt8} {items : List Item} {stop : Bool} {text : List UInt8} :
    OccursHere (.one c :: items, stop) text
      ↔ ∃ a rest, text = a :: rest ∧ StandsFor c a ∧ OccursHere (items, stop) rest := by
  constructor
  · rintro ⟨part, behind, rfl, hpart, hend⟩
    obtain ⟨w, hw, part', hpart', rfl⟩ := Language.mem_mul.mp hpart
    obtain ⟨a, ha, rfl⟩ := hw
    exact ⟨a, part' ++ behind, rfl, ha, part', behind, rfl, hpart', hend⟩
  · rintro ⟨a, -, rfl, ha, part, behind, rfl, hpart, hend⟩
    exact ⟨a :: part, behind, rfl, Language.mem_mul.mpr ⟨[a], ⟨a, ha, rfl⟩, part, hpart, rfl⟩, hend⟩

/-- Any number of a character, and the rest behind them. -/
theorem occursHere_star {c : UInt8} {items : List Item} {stop : Bool} {text : List UInt8} :
    OccursHere (.star c :: items, stop) text
      ↔ ∃ w rest, text = w ++ rest ∧ (∀ a ∈ w, StandsFor c a) ∧ OccursHere (items, stop) rest := by
  constructor
  · rintro ⟨part, behind, rfl, hpart, hend⟩
    obtain ⟨w, hw, part', hpart', rfl⟩ := Language.mem_mul.mp hpart
    exact ⟨w, part' ++ behind, append_assoc _ _ _, mem_star_letter.mp hw, part', behind, rfl,
      hpart', hend⟩
  · rintro ⟨w, -, rfl, hw, part, behind, rfl, hpart, hend⟩
    exact ⟨w ++ part, behind, (append_assoc _ _ _).symm,
      Language.mem_mul.mpr ⟨w, mem_star_letter.mpr hw, part, hpart, rfl⟩, hend⟩

/-! ## The code decides the language -/

theorem ch_zero_iff {s : List UInt8} : ch s 0 = 0 ↔ cstring s = [] := by
  cases s with
  | nil => exact ⟨fun _ => rfl, fun _ => rfl⟩
  | cons c s =>
    show c = 0 ↔ takeWhile _ (c :: s) = []
    by_cases h : c = 0
    · simp [h]
    · simp [h]

theorem cstring_of_ch {s : List UInt8} (h : ch s 0 ≠ 0) :
    cstring s = ch s 0 :: cstring (s.drop 1) := by
  cases s with
  | nil => exact absurd rfl h
  | cons c s =>
    have hc : c ≠ 0 := h
    exact takeWhile_cons_of_pos (by simpa using hc)

theorem ch_succ (s : List UInt8) (i : ℕ) : ch s (i + 1) = ch (s.drop 1) i := by
  cases s with
  | nil => rfl
  | cons c s => rfl

/-- **`matchstar`**, where `matchhere` decides what is behind the star. -/
theorem matchstar_iff {c : UInt8} {re : List UInt8} {body : List Item × Bool}
    (h : ∀ text, matchhere re text = true ↔ OccursHere body (cstring text)) (text : List UInt8) :
    matchstar c re text = true ↔ OccursHere (.star c :: body.1, body.2) (cstring text) := by
  rw [occursHere_star]
  induction hn : text.length using Nat.strong_induction_on generalizing text with
  | _ n ih =>
    rw [matchstar]
    by_cases hhere : matchhere re text = true
    · rw [if_pos hhere]
      have hrest := (h text).mp hhere
      exact ⟨fun _ => ⟨[], cstring text, rfl, fun a ha => absurd ha not_mem_nil, hrest⟩,
        fun _ => rfl⟩
    rw [if_neg hhere]
    by_cases hgo : ch text 0 ≠ 0 ∧ (ch text 0 = c ∨ c = dot)
    · rw [if_pos hgo, ih _ (hn ▸ length_drop_lt hgo.1 (by decide)) _ rfl, cstring_of_ch hgo.1]
      constructor
      · rintro ⟨w, rest, heq, hw, hrest⟩
        refine ⟨ch text 0 :: w, rest, by rw [heq, cons_append], ?_, hrest⟩
        intro a ha
        rcases mem_cons.mp ha with rfl | ha
        · exact hgo.2.symm
        · exact hw a ha
      · rintro ⟨w, rest, heq, hw, hrest⟩
        cases w with
        | nil =>
          -- then the rest would have been found here
          rw [nil_append, ← cstring_of_ch hgo.1] at heq
          exact absurd ((h text).mpr (heq ▸ hrest)) hhere
        | cons a w =>
          rw [cons_append] at heq
          exact ⟨w, rest, (cons.inj heq).2, fun b hb => hw b (mem_cons_of_mem _ hb),
            hrest⟩
    · rw [if_neg hgo]
      refine ⟨fun hfalse => absurd hfalse (by decide), ?_⟩
      rintro ⟨w, rest, heq, hw, hrest⟩
      cases w with
      | nil =>
        rw [nil_append] at heq
        exact absurd ((h text).mpr (heq ▸ hrest)) hhere
      | cons a w =>
        have hne : ch text 0 ≠ 0 := fun hzero => by
          rw [ch_zero_iff.mp hzero] at heq
          cases heq
        rw [cstring_of_ch hne, cons_append] at heq
        have ha := hw a mem_cons_self
        rw [← (cons.inj heq).1] at ha
        exact absurd ⟨hne, ha.symm⟩ hgo

/-- **`matchhere` decides whether the text begins with the pattern.** -/
theorem matchhere_iff (re text : List UInt8) :
    matchhere re text = true ↔ OccursHere (readBody (cstring re)) (cstring text) := by
  induction hn : re.length using Nat.strong_induction_on generalizing re text with
  | _ n ih =>
    rw [matchhere]
    by_cases hend : ch re 0 = 0
    · rw [if_pos hend, ch_zero_iff.mp hend]
      exact ⟨fun _ => occursHere_nil _, fun _ => rfl⟩
    rw [if_neg hend, cstring_of_ch hend]
    by_cases hstar : ch re 1 = asterisk
    · have hnext : ch (re.drop 1) 0 ≠ 0 := by
        rw [← ch_succ, hstar]
        decide
      rw [if_pos hstar, cstring_of_ch hnext, ← ch_succ, hstar, drop_drop]
      exact matchstar_iff (fun text => ih _ (hn ▸ length_drop_lt hend (by decide)) _ _ rfl) text
    rw [if_neg hstar]
    by_cases hlast : ch re 0 = dollar ∧ ch re 1 = 0
    · rw [if_pos hlast, ch_zero_iff.mp (ch_succ re 0 ▸ hlast.2), hlast.1]
      show decide (ch text 0 = 0) = true ↔ OccursHere ([], true) _
      rw [decide_eq_true_iff, ch_zero_iff, occursHere_end]
    rw [if_neg hlast]
    -- an ordinary character
    have hbody : readBody (ch re 0 :: cstring (re.drop 1))
        = (.one (ch re 0) :: (readBody (cstring (re.drop 1))).1,
          (readBody (cstring (re.drop 1))).2) := by
      by_cases hzero : ch (re.drop 1) 0 = 0
      · rw [ch_zero_iff.mp hzero]
        exact if_neg fun h => hlast ⟨h, (ch_succ re 0).trans hzero⟩
      · rw [cstring_of_ch hzero, ← ch_succ]
        exact if_neg hstar
    rw [hbody, occursHere_one]
    by_cases hgo : ch text 0 ≠ 0 ∧ (ch re 0 = dot ∨ ch re 0 = ch text 0)
    · rw [if_pos hgo, ih _ (hn ▸ length_drop_lt hend (by decide)) _ _ rfl, cstring_of_ch hgo.1]
      constructor
      · exact fun h => ⟨_, _, rfl, hgo.2.imp_right Eq.symm, h⟩
      · rintro ⟨a, rest, heq, -, hrest⟩
        rwa [(cons.inj heq).2]
    · rw [if_neg hgo]
      refine ⟨fun hfalse => absurd hfalse (by decide), ?_⟩
      rintro ⟨a, rest, heq, ha, -⟩
      have hne : ch text 0 ≠ 0 := fun hzero => by
        rw [ch_zero_iff.mp hzero] at heq
        cases heq
      rw [cstring_of_ch hne] at heq
      rw [← (cons.inj heq).1] at ha
      exact absurd ⟨hne, ha.imp_right Eq.symm⟩ hgo

/-- **The loop of `match`** tries every place. -/
theorem matchLoop_iff (re text : List UInt8) :
    matchLoop re text = true
      ↔ ∃ before rest, cstring text = before ++ rest ∧ OccursHere (readBody (cstring re)) rest := by
  induction hn : text.length using Nat.strong_induction_on generalizing text with
  | _ n ih =>
    rw [matchLoop]
    by_cases hhere : matchhere re text = true
    · rw [if_pos hhere]
      exact ⟨fun _ => ⟨[], _, rfl, (matchhere_iff re text).mp hhere⟩, fun _ => rfl⟩
    rw [if_neg hhere]
    by_cases hgo : ch text 0 ≠ 0
    · rw [if_pos hgo, ih _ (hn ▸ length_drop_lt hgo (by decide)) _ rfl, cstring_of_ch hgo]
      constructor
      · rintro ⟨before, rest, heq, hrest⟩
        exact ⟨ch text 0 :: before, rest, by rw [heq, cons_append], hrest⟩
      · rintro ⟨before, rest, heq, hrest⟩
        cases before with
        | nil =>
          rw [nil_append, ← cstring_of_ch hgo] at heq
          exact absurd ((matchhere_iff re text).mpr (heq ▸ hrest)) hhere
        | cons a before =>
          rw [cons_append] at heq
          exact ⟨before, rest, (cons.inj heq).2, hrest⟩
    · rw [if_neg hgo]
      refine ⟨fun hfalse => absurd hfalse (by decide), ?_⟩
      rintro ⟨before, rest, heq, hrest⟩
      rw [ch_zero_iff.mp (not_not.mp hgo)] at heq
      obtain ⟨-, rfl⟩ := append_eq_nil_iff.mp heq.symm
      rw [← ch_zero_iff.mp (not_not.mp hgo)] at hrest
      exact absurd ((matchhere_iff re text).mpr hrest) hhere

/-- **The matcher decides its language**: it finds a pattern if and only if the pattern occurs in
the text. -/
theorem match_iff_occurs (re text : List UInt8) :
    match_ re text = true ↔ (readPattern (cstring re)).Occurs (cstring text) := by
  have hhead : ch re 0 = caret ↔ (cstring re).head? = some caret := by
    by_cases hzero : ch re 0 = 0
    · rw [ch_zero_iff.mp hzero, hzero]
      decide
    · rw [cstring_of_ch hzero, head?_cons, Option.some.injEq]
  unfold match_ readPattern Pattern.Occurs
  by_cases hstart : ch re 0 = caret
  · have hne : ch re 0 ≠ 0 := by
      rw [hstart]
      decide
    rw [if_pos hstart, if_pos (hhead.mp hstart), matchhere_iff, cstring_of_ch hne, tail_cons]
    constructor
    · rintro ⟨part, behind, heq, hpart, hend⟩
      exact ⟨[], part, behind, heq, hpart, fun _ => rfl, hend⟩
    · rintro ⟨before, part, behind, heq, hpart, hfirst, hend⟩
      rw [hfirst rfl, nil_append] at heq
      exact ⟨part, behind, heq, hpart, hend⟩
  · rw [if_neg hstart, if_neg (fun h => hstart (hhead.mpr h)), matchLoop_iff]
    constructor
    · rintro ⟨before, -, heq, part, behind, rfl, hpart, hend⟩
      exact ⟨before, part, behind, by rw [heq, append_assoc], hpart,
        fun h => absurd h Bool.false_ne_true, hend⟩
    · rintro ⟨before, part, behind, heq, hpart, -, hend⟩
      exact ⟨before, part ++ behind, by rw [heq, append_assoc], part, behind, rfl, hpart, hend⟩

/-! ## Lines through a buffer -/

/-- `'\n'` -/
def newline : UInt8 := 10

/-- Where a character is in a string. -/
def strchr (c : UInt8) : List UInt8 → Option ℕ
  | [] => none
  | d :: s => if d = 0 then none else if d = c then some 0 else (strchr c s).map (· + 1)

/-- The inner loop of `grep`: cut the lines of the buffer from `p` on. It returns what is
written, and the end of the buffer that is left. -/
def cutLines (pattern p : List UInt8) : List UInt8 × List UInt8 :=
  match _h : strchr newline p with
  | none => ([], p)
  | some q =>
    let (written, left) := cutLines pattern (p.drop (q + 1))
    ((if match_ pattern (p.take q) then p.take q ++ [newline] else []) ++ written, left)
termination_by p.length
decreasing_by
  cases p with
  | nil => nomatch _h
  | cons c p => rw [length_drop, length_cons]; omega

/-- `sizeof(buf)` -/
def BUFSIZE : ℕ := 1024

/-- The loop of `grep`, with `m` bytes in the buffer. The `i`-th `read` gets as many bytes as there
are at hand, `chunk i` or at least one, if the file has them and they fit. -/
def grepLoop (pattern : List UInt8) (chunk : ℕ → ℕ) (i : ℕ) (buf file : List UInt8) : List UInt8 :=
  let n := min (max 1 (chunk i)) (BUFSIZE - buf.length - 1)
  if _h : file.take n = [] then []
  else
    let (written, left) := cutLines pattern (buf ++ file.take n)
    written ++ grepLoop pattern chunk (i + 1) left (file.drop n)
termination_by file.length
decreasing_by
  have hne : n ≠ 0 ∧ file ≠ [] := by rwa [Ne, Ne, ← not_or, ← take_eq_nil_iff]
  have := length_pos_iff.mpr hne.2
  rw [length_drop]
  omega

/-- `grep`: the lines it prints of a file, which `read` gives it in chunks. -/
def grep (pattern : List UInt8) (chunk : ℕ → ℕ) (file : List UInt8) : List UInt8 :=
  grepLoop pattern chunk 0 [] file

/-- A file made of lines. -/
def unlines (lines : List (List UInt8)) : List UInt8 := lines.flatMap (· ++ [newline])

/-- A line: no newline, and no zero. -/
def IsLine (line : List UInt8) : Prop := newline ∉ line ∧ 0 ∉ line

/-- A line that fits in the buffer, with its newline and the zero behind it. -/
def Fits (line : List UInt8) : Bool := line.length + 2 ≤ BUFSIZE

variable {pattern : List UInt8} {lines : List (List UInt8)}

theorem strchr_line {line : List UInt8} (h : IsLine line) (s : List UInt8) :
    strchr newline (line ++ newline :: s) = some line.length := by
  obtain ⟨hline, hzero⟩ := h
  induction line with
  | nil => rfl
  | cons c line ih =>
    rw [mem_cons, not_or] at hline hzero
    rw [cons_append, strchr, if_neg (Ne.symm hzero.1), if_neg (Ne.symm hline.1),
      ih hline.2 hzero.2]
    rfl

theorem strchr_eq_none {c : UInt8} {s : List UInt8} (h : c ∉ s) : strchr c s = none := by
  induction s with
  | nil => rfl
  | cons d s ih =>
    rw [mem_cons, not_or] at h
    rw [strchr, if_neg (Ne.symm h.1), ih h.2, Option.map_none, ite_self]

@[simp] theorem unlines_cons (line : List UInt8) (lines : List (List UInt8)) :
    unlines (line :: lines) = line ++ newline :: unlines lines := by
  simp [unlines]

theorem unlines_append (l l' : List (List UInt8)) : unlines (l ++ l') = unlines l ++ unlines l' :=
  flatMap_append

/-- A part of a file that begins with a line: it has the line, or it is in the line. -/
theorem append_eq_line {line data rest s : List UInt8} (hline : newline ∉ line)
    (h : data ++ rest = line ++ newline :: s) :
    (∃ data', data = line ++ newline :: data' ∧ data' ++ rest = s)
    ∨ newline ∉ data ∧ data.length ≤ line.length := by
  obtain ⟨a, rfl, -⟩ | ⟨c, rfl, hc⟩ := append_eq_append_iff.mp h
  · exact .inr ⟨fun hmem => hline (mem_append_left a hmem), by simp⟩
  cases c with
  | nil => exact .inr (by simpa using hline)
  | cons d data =>
    obtain ⟨rfl, rfl⟩ := cons.inj hc
    exact .inl ⟨data, rfl, rfl⟩

/-- **The buffer is cut into its lines**, wherever in the file it ends. -/
theorem cutLines_spec (pattern : List UInt8) (hlines : ∀ line ∈ lines, IsLine line)
    {data rest : List UInt8} (h : data ++ rest = unlines lines) :
    ∃ cut later left, lines = cut ++ later ∧ data = unlines cut ++ left ∧ newline ∉ left
      ∧ cutLines pattern data = (unlines (cut.filter (match_ pattern)), left) := by
  induction lines generalizing data with
  | nil =>
    obtain ⟨rfl, -⟩ := append_eq_nil_iff.mp h
    exact ⟨[], [], [], rfl, rfl, not_mem_nil, by rw [cutLines]; rfl⟩
  | cons line lines ih =>
    obtain ⟨hline, hlines⟩ := forall_mem_cons.mp hlines
    rw [unlines_cons] at h
    obtain ⟨data, rfl, htail⟩ | ⟨hdata, -⟩ := append_eq_line hline.1 h
    · obtain ⟨cut, later, left, rfl, rfl, hleft, hcut⟩ := ih hlines htail
      refine ⟨line :: cut, later, left, rfl, by simp, hleft, ?_⟩
      rw [cutLines]
      split
      · rename_i hnone
        exact nomatch (strchr_line hline _).symm.trans hnone
      · rename_i q hq
        obtain rfl := Option.some.inj ((strchr_line hline _).symm.trans hq)
        by_cases hmatch : match_ pattern line <;> simp [hcut, hmatch]
    · refine ⟨[], line :: lines, data, rfl, rfl, hdata, ?_⟩
      rw [cutLines]
      split
      · rfl
      · rename_i hq
        exact nomatch (strchr_eq_none hdata).symm.trans hq

/-- **What is written**: the lines that match, up to one that does not fit. -/
theorem grepLoop_eq {chunk : ℕ → ℕ} {i : ℕ} {buf file : List UInt8}
    (hlines : ∀ line ∈ lines, IsLine line) (hbuf : newline ∉ buf) (hlen : buf.length < BUFSIZE)
    (h : buf ++ file = unlines lines) :
    grepLoop pattern chunk i buf file
      = unlines ((lines.takeWhile Fits).filter (match_ pattern)) := by
  induction hn : file.length using Nat.strong_induction_on generalizing i buf file lines with
  | _ k ih =>
    rw [grepLoop]
    generalize hread : min (max 1 (chunk i)) (BUFSIZE - buf.length - 1) = n
    dsimp only
    split
    · rename_i htake
      cases lines with
      | nil => rfl
      | cons line lines =>
        -- the buffer is full and has no newline: the line does not fit
        rw [unlines_cons] at h
        obtain ⟨_, rfl, -⟩ | ⟨-, hle⟩ := append_eq_line (forall_mem_cons.mp hlines).1.1 h
        · exact absurd (by simp) hbuf
        have hfull : BUFSIZE - buf.length - 1 = 0 := by
          rcases take_eq_nil_iff.mp htake with hzero | rfl
          · omega
          · exact absurd (by rw [← append_nil buf, h]; simp) hbuf
        rw [takeWhile_cons_of_neg (by simp only [Fits, decide_eq_true_eq]; omega)]
        rfl
    · rename_i htake
      rw [← take_append_drop n file, ← append_assoc] at h
      obtain ⟨cut, later, left, rfl, hdata, hleft, hcut⟩ := cutLines_spec pattern hlines h
      have hlen' : (unlines cut).length + left.length < BUFSIZE := by
        have := congrArg length hdata
        simp only [length_append, length_take] at this
        omega
      have hfits : ∀ line ∈ cut, Fits line := by
        intro line hline
        obtain ⟨before, after, rfl⟩ := append_of_mem hline
        rw [unlines_append, unlines_cons] at hlen'
        simp only [length_append, length_cons] at hlen'
        simp only [Fits, decide_eq_true_eq]
        omega
      rw [hdata, unlines_append, append_assoc, append_cancel_left_eq] at h
      rw [hcut, takeWhile_append_of_pos hfits, filter_append, unlines_append]
      refine congrArg _ (ih _ ?_ (fun line hline => hlines line (mem_append_right _ hline))
        hleft (lt_of_le_of_lt (Nat.le_add_left _ _) hlen') h rfl)
      have hne := mt take_eq_nil_iff.mpr htake
      have := length_pos_iff.mpr fun hnil => hne (.inr hnil)
      rw [length_drop]
      omega

/-- **Buffering does not show in what `grep` writes**, if and only if no line from the first that
does not fit in the buffer on matches. -/
theorem grep_unbuffered_iff (pattern : List UInt8) (chunk : ℕ → ℕ)
    (hlines : ∀ line ∈ lines, IsLine line) :
    grep pattern chunk (unlines lines) = unlines (lines.filter (match_ pattern))
      ↔ ∀ line ∈ lines.dropWhile Fits, match_ pattern line = false := by
  rw [grep, grepLoop_eq hlines not_mem_nil (by decide) (nil_append _)]
  have hsplit := congrArg (filter (match_ pattern))
    (takeWhile_append_dropWhile (p := Fits) (l := lines))
  rw [← hsplit, filter_append]
  simp [unlines]

theorem grep_unbuffered_iff_ab : (∀ line ∈ [[97], [98]], IsLine line)
    ∧ grep [97] (fun _ => 3) (unlines [[97], [98]])
      = unlines ([[97], [98]].filter (match_ [97])) := by
  have hlines : ∀ line ∈ [[97], [98]], IsLine line := by unfold IsLine; decide
  exact ⟨hlines, (grep_unbuffered_iff _ _ hlines).mpr (by decide)⟩

/-- A line of 1023 bytes is not found. -/
theorem grep_long_line :
    let line := replicate 1023 97
    IsLine line ∧ match_ [97] line = true ∧ grep [97] (fun _ => 512) (unlines [line]) = [] := by
  have hmatch (s : List UInt8) : match_ [97] (97 :: s) = true := by
    simp [match_, matchLoop, matchhere, ch, caret, asterisk, dollar]
  exact ⟨⟨by decide +kernel, by decide +kernel⟩, hmatch _, by decide +kernel⟩

end Grep

end Xv6
