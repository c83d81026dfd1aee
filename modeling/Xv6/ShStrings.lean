import Xv6.ShGrammar

/-!
# The strings of a command line

The words of a parsed line are pointers into the line, and `nulterminate` makes strings of them by
putting a zero behind each of them. A zero must not fall into another word. It does not,
because words are as long as possible: behind a word there is a blank, a symbol or the end of the
line, none of which is in a word (`IsWord`).
-/

namespace Xv6.Sh

open List

/-- The words of a tree. -/
def Cmd.words : Cmd → List Str
  | .exec argv => argv
  | .redir cmd file _ _ => cmd.words ++ [file]
  | .pipe left right => left.words ++ right.words
  | .list left right => left.words ++ right.words
  | .back cmd => cmd.words

/-- The characters of a word. -/
def Str.text (w : Str) : List UInt8 := w.q.take (w.q.length - w.eq.length)

/-- **A word of the line**: characters of words, and none of them behind it. -/
structure IsWord (line : List UInt8) (w : Str) : Prop where
  suffix : w.q <:+ line
  split : w.q = w.text ++ w.eq
  inWord : ∀ c ∈ w.text, inWord c
  ends : w.eq.head?.any Sh.inWord = false

section

variable {line s : List UInt8} {w : Str} {ts : List Token} {c : Cmd} {rs : List Redirection}

theorem IsWord.mono {t : List UInt8} (h : IsWord t w) (hsuffix : t <:+ s) : IsWord s w :=
  ⟨h.suffix.trans hsuffix, h.split, h.inWord, h.ends⟩

/-- **The words that are lexed** are words of the line. -/
theorem isWord_of_mem_lex (h : .word w ∈ lex s) : IsWord s w := by
  induction s using lex.induct with
  | case1 =>
    rw [lex_nil] at h
    cases h
  | case2 c s hc ih =>
    rw [lex, if_pos hc] at h
    exact (ih h).mono (suffix_cons c s)
  | case3 c s hc hgt ih =>
    rw [lex, if_neg hc, if_pos hgt] at h
    cases h with
    | tail _ h => exact (ih h).mono ((tail_suffix s).trans (suffix_cons c s))
  | case4 c s hc hgt hsym ih =>
    rw [lex, if_neg hc, if_neg hgt, if_pos hsym] at h
    cases h with
    | tail _ h => exact (ih h).mono (suffix_cons c s)
  | case5 c s hc hgt hsym ih =>
    rw [lex, if_neg hc, if_neg hgt, if_neg hsym] at h
    cases h with
    | head =>
      have htext : Str.text ⟨c :: s, s.dropWhile inWord⟩ = c :: s.takeWhile inWord := by
        have hlen := congrArg length (takeWhile_append_dropWhile (p := inWord) (l := s))
        rw [length_append] at hlen
        show (c :: s).take (s.length + 1 - (s.dropWhile inWord).length) = _
        rw [← hlen, show (s.takeWhile inWord).length + (s.dropWhile inWord).length + 1
          - (s.dropWhile inWord).length = (s.takeWhile inWord).length + 1 by omega, take_succ_cons]
        nth_rewrite 2 [← takeWhile_append_dropWhile (p := inWord) (l := s)]
        rw [take_left]
      refine ⟨suffix_refl _, ?_, ?_, ?_⟩
      · rw [htext, cons_append, takeWhile_append_dropWhile]
      · rw [htext]
        intro d hd
        rcases mem_cons.mp hd with rfl | hd
        · exact decide_eq_true ⟨hc, hsym⟩
        · exact mem_takeWhile_imp hd
      · have hhead := head?_dropWhile_not inWord s
        cases hrest : s.dropWhile inWord with
        | nil => rfl
        | cons d rest =>
          rw [hrest] at hhead
          exact hhead
    | tail _ h =>
      exact (ih h).mono ((dropWhile_suffix _).trans (suffix_cons c s))

/-! ## The words of a tree -/

theorem words_wrap (c : Cmd) (rs : List Redirection) :
    (wrap c rs).words = c.words ++ rs.map (·.file) := by
  induction rs using reverseRecOn with
  | nil => exact (append_nil _).symm
  | append_singleton rs r ih =>
    rw [wrap_append, map_append, ← append_assoc, ← ih]
    rfl

theorem words_backs (n : ℕ) (c : Cmd) : (Cmd.back^[n] c).words = c.words := by
  induction n generalizing c with
  | zero => rfl
  | succ n ih =>
    rw [Function.iterate_succ_apply, ih]
    rfl

theorem Redirs.mem (h : Redirs ts rs) {r : Redirection} (hr : r ∈ rs) : .word r.file ∈ ts := by
  induction h with
  | nil => cases hr
  | cons h _ ih =>
    rcases mem_cons.mp hr with rfl | hr
    · cases h <;> exact mem_cons_of_mem _ mem_cons_self
    · exact mem_cons_of_mem _ (mem_cons_of_mem _ (ih hr))

theorem Words.mem {ws : List Str} (h : Words ts ws rs) :
    (∀ w ∈ ws, .word w ∈ ts) ∧ ∀ r ∈ rs, .word r.file ∈ ts := by
  induction h with
  | nil => exact ⟨fun w hw => (nomatch hw), fun r hr => (nomatch hr)⟩
  | cons hredirs _ ih =>
    refine ⟨fun w hw => ?_, fun r hr => ?_⟩
    · rcases mem_cons.mp hw with rfl | hw
      · exact mem_cons_self
      · exact mem_cons_of_mem _ (mem_append_right _ (ih.1 w hw))
    · rcases mem_append.mp hr with hr | hr
      · exact mem_cons_of_mem _ (mem_append_left _ (hredirs.mem hr))
      · exact mem_cons_of_mem _ (mem_append_right _ (ih.2 r hr))

/-- **The words of a tree** are tokens of its derivation. -/
theorem Derives.mem {n : Nonterminal} (h : Derives n ts c) (hw : w ∈ c.words) : .word w ∈ ts := by
  induction h with
  | simple hredirs hwords _ =>
    rw [words_wrap, map_append] at hw
    rcases mem_append.mp hw with hw | hw
    · exact mem_append_right _ (hwords.mem.1 w hw)
    · rcases mem_append.mp hw with hw | hw
      · obtain ⟨r, hr, rfl⟩ := mem_map.mp hw
        exact mem_append_left _ (hredirs.mem hr)
      · obtain ⟨r, hr, rfl⟩ := mem_map.mp hw
        exact mem_append_right _ (hwords.mem.2 r hr)
  | block _ hredirs ih =>
    rw [words_wrap] at hw
    refine mem_cons_of_mem _ ?_
    rcases mem_append.mp hw with hw | hw
    · exact mem_append_left _ (ih hw)
    · obtain ⟨r, hr, rfl⟩ := mem_map.mp hw
      exact mem_append_right _ (mem_cons_of_mem _ (hredirs.mem hr))
  | single _ ih => exact ih hw
  | pipe _ _ ih ih' =>
    rcases mem_append.mp hw with hw | hw
    · exact mem_append_left _ (ih hw)
    · exact mem_append_right _ (mem_cons_of_mem _ (ih' hw))
  | last n _ ih =>
    rw [words_backs] at hw
    exact mem_append_left _ (ih hw)
  | list n _ _ ih ih' =>
    rcases mem_append.mp hw with hw | hw
    · rw [words_backs] at hw
      exact mem_append_left _ (ih hw)
    · exact mem_append_right _ (mem_append_right _ (mem_cons_of_mem _ (ih' hw)))

/-! ## The zeros -/

/-- The place behind one of these words, in a line of `n` characters. -/
def Behind (n : ℕ) (ws : List Str) (i : ℕ) : Prop := ∃ w ∈ ws, n - w.eq.length = i

theorem behind_append {n i : ℕ} {ws ws' : List Str} :
    Behind n (ws ++ ws') i ↔ Behind n ws i ∨ Behind n ws' i := by
  unfold Behind
  simp only [mem_append, or_and_right, exists_or]

theorem behind_singleton {n i : ℕ} : Behind n [w] i ↔ n - w.eq.length = i := by
  unfold Behind
  simp only [mem_singleton, exists_eq_left]

/-- **Zeros were put** at some places, and nothing else was changed. -/
structure Zeroed (P : ℕ → Prop) (buf buf' : List UInt8) : Prop where
  length : buf'.length = buf.length
  zero : ∀ i < buf.length, P i → buf'[i]? = some 0
  same : ∀ i, ¬ P i → buf'[i]? = buf[i]?

section

variable {P R : ℕ → Prop} {buf buf' buf'' : List UInt8}

theorem Zeroed.refl (buf : List UInt8) : Zeroed (fun _ => False) buf buf :=
  ⟨rfl, fun _ _ h => h.elim, fun _ _ => rfl⟩

theorem Zeroed.congr (h : Zeroed P buf buf') (hiff : ∀ i, R i ↔ P i) : Zeroed R buf buf' :=
  ⟨h.length, fun i hi hr => h.zero i hi ((hiff i).mp hr),
    fun i hr => h.same i fun hp => hr ((hiff i).mpr hp)⟩

theorem Zeroed.set (buf : List UInt8) (j : ℕ) : Zeroed (j = ·) buf (buf.set j 0) := by
  refine ⟨length_set, fun i hi hj => ?_, fun i hj => getElem?_set_ne hj⟩
  rw [← hj, getElem?_set_self (hj ▸ hi)]

theorem Zeroed.trans (h : Zeroed P buf buf') (h' : Zeroed R buf' buf'') :
    Zeroed (fun i => P i ∨ R i) buf buf'' := by
  refine ⟨h'.length.trans h.length, fun i hi hp => ?_, fun i hp => ?_⟩
  · by_cases hr : R i
    · exact h'.zero i (h.length ▸ hi) hr
    · exact (h'.same i hr).trans (h.zero i hi (hp.resolve_right hr))
  · exact (h'.same i fun hr => hp (.inr hr)).trans (h.same i fun hp' => hp (.inl hp'))

/-- **`nulterminate` puts a zero behind each word** of the tree. -/
theorem nulterminate_zeroed (n : ℕ) (c : Cmd) (buf : List UInt8) :
    Zeroed (Behind n c.words) buf (nulterminate n c buf) := by
  induction c generalizing buf with
  | exec argv =>
    show Zeroed (Behind n argv) buf (argv.foldl _ buf)
    induction argv using reverseRecOn with
    | nil => exact (Zeroed.refl buf).congr fun i => iff_of_false (fun ⟨_, h, _⟩ => nomatch h) id
    | append_singleton argv w ih =>
      rw [foldl_append]
      refine (ih.trans (.set _ (n - w.eq.length))).congr fun i => ?_
      rw [behind_append, behind_singleton]
  | redir cmd file mode fd ih =>
    refine ((ih buf).trans (.set _ (n - file.eq.length))).congr fun i => ?_
    show Behind n (cmd.words ++ [file]) i ↔ _
    rw [behind_append, behind_singleton]
  | pipe left right ihl ihr => exact ((ihl buf).trans (ihr _)).congr fun i => behind_append
  | list left right ihl ihr => exact ((ihl buf).trans (ihr _)).congr fun i => behind_append
  | back cmd ih => exact ih buf

end

/-- A string that ends at the first zero. -/
theorem takeWhile_of_zero {l text : List UInt8} (hsame : ∀ i < text.length, l[i]? = text[i]?)
    (hzero : l[text.length]? = some 0) (h0 : 0 ∉ text) : l.takeWhile (· ≠ 0) = text := by
  have htake : l.take text.length = text := by
    refine ext_getElem? fun i => ?_
    by_cases hi : i < text.length
    · rw [getElem?_take_of_lt hi, hsame i hi]
    · rw [getElem?_take_eq_none (not_lt.mp hi), getElem?_eq_none (not_lt.mp hi)]
  have hdrop : l.drop text.length = 0 :: l.drop (text.length + 1) := by
    obtain ⟨hlt, hget⟩ := List.getElem?_eq_some_iff.mp hzero
    rw [List.drop_eq_getElem_cons hlt, hget]
  have hall : ∀ c ∈ text, decide (c ≠ 0) = true := fun c hc =>
    decide_eq_true fun hzero => h0 (hzero ▸ hc)
  rw [← take_append_drop text.length l, htake, hdrop, takeWhile_append_of_pos hall]
  exact append_nil text

theorem IsWord.place (h : IsWord line w) :
    line.length - w.eq.length = line.length - w.q.length + w.text.length
    ∧ line.length - w.eq.length ≤ line.length
    ∧ line.drop (line.length - w.q.length) = w.text ++ w.eq := by
  have hlen := h.suffix.length_le
  have hsplit := congrArg length h.split
  rw [length_append] at hsplit
  refine ⟨by omega, Nat.sub_le _ _, ?_⟩
  rw [← suffix_iff_eq_drop.mp h.suffix, h.split]

/-- **The place behind a word is in no word.** -/
theorem IsWord.not_behind {w' : Str} (h : IsWord line w) (h' : IsWord line w') {i : ℕ}
    (hi : i < w.text.length) : line.length - w'.eq.length ≠ line.length - w.q.length + i := by
  intro heq
  have hsuffix : w'.eq <:+ line :=
    (h'.split ▸ suffix_append w'.text w'.eq).trans h'.suffix
  have hdrop := suffix_iff_eq_drop.mp hsuffix
  rw [heq, ← drop_drop, h.place.2.2, drop_append_of_le_length hi.le,
    drop_eq_getElem_cons hi] at hdrop
  have hends := h'.ends
  rw [hdrop] at hends
  exact absurd (h.inWord _ (getElem_mem hi)) (ne_true_of_eq_false hends)

/-- Behind `nulterminate`, the string at the first character of a word is the word, and the word is
a token of the line. -/
theorem words_are_strings_of {line : List UInt8} (h0 : 0 ∉ line) {c : Cmd} {buf : List UInt8}
    (h : parsecmd line = .ok (c, buf)) :
    ∀ w ∈ c.words, .word w ∈ lex line ∧ stringAt line.length buf w.q = w.text := by
  obtain ⟨hderives, rfl⟩ := (parsecmd_iff_derives h0 c buf).mp h
  have hwords : ∀ w ∈ c.words, IsWord line w := fun w hw => isWord_of_mem_lex (hderives.mem hw)
  have hzeroed := nulterminate_zeroed line.length c (line ++ [0])
  intro w hw
  refine ⟨hderives.mem hw, takeWhile_of_zero (fun i hi => ?_) ?_ fun hzero => ?_⟩
  · obtain ⟨hplace, hle, hdrop⟩ := (hwords w hw).place
    have hfree : ¬ Behind line.length c.words (line.length - w.q.length + i) :=
      fun ⟨w', hw', heq⟩ => (hwords w hw).not_behind (hwords w' hw') hi heq
    rw [getElem?_drop, hzeroed.same _ hfree, getElem?_append_left (by omega),
      ← getElem?_drop, hdrop, getElem?_append_left hi]
  · obtain ⟨hplace, hle, -⟩ := (hwords w hw).place
    rw [getElem?_drop, ← hplace]
    refine hzeroed.zero _ ?_ ⟨w, hw, rfl⟩
    rw [length_append]
    exact Nat.lt_succ_of_le hle
  · have hmem : 0 ∈ w.q := (hwords w hw).split ▸ mem_append_left _ hzero
    exact h0 ((hwords w hw).suffix.subset hmem)

/-- **The words become strings**, those of commands and those of redirections. -/
theorem words_are_strings {line : List UInt8} (h0 : 0 ∉ line) {c : Cmd} {buf : List UInt8}
    (h : parsecmd line = .ok (c, buf)) :
    ∀ w ∈ c.words, .word w ∈ lex line ∧ stringAt line.length buf w.q = w.text :=
  words_are_strings_of h0 h

end

/-- In the line `a>b`, both words become strings. -/
theorem words_are_strings_example : ∃ c buf, parsecmd [97, 62, 98] = .ok (c, buf)
    ∧ c.words = [⟨[97, 62, 98], [62, 98]⟩, ⟨[98], []⟩]
    ∧ ∀ w ∈ c.words, stringAt 3 buf w.q = w.text := by
  have hrun : (parsecmd [97, 62, 98]).toOption.map (·.1.words)
      = some [⟨[97, 62, 98], [62, 98]⟩, ⟨[98], []⟩] := by decide +kernel
  cases hok : parsecmd [97, 62, 98] with
  | error e =>
    rw [hok] at hrun
    cases hrun
  | ok res =>
    rw [hok] at hrun
    exact ⟨res.1, res.2, rfl, Option.some.inj hrun, fun w hw =>
      (words_are_strings (by decide) hok w hw).2⟩

end Xv6.Sh
