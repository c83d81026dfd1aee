import Xv6.ShStrings

/-!
# Redirections

In a shell the redirections of a command are carried out from left to right, so that the last one of
a descriptor counts. Here `parseredirs` puts each redirection around those before it, and `runcmd`
carries out the outer ones first: from right to left. So the first one counts
(`redirections_first_wins`): with `a>x>y` both files are made, and the output goes to `x`.
-/

namespace Xv6.Sh

open List

/-- The first redirection of a descriptor. -/
def firstFor (rs : List Redirection) (d : ℕ) : Option Redirection := rs.find? (·.fd = d)

/-- The last redirection of a descriptor. -/
def lastFor (rs : List Redirection) (d : ℕ) : Option Redirection := rs.reverse.find? (·.fd = d)

/-- **The last redirection counts**: a descriptor that is redirected is attached to that file. -/
def LastWins (rs : List Redirection) (fds : Fds) : Prop :=
  ∀ d r, lastFor rs d = some r → ∃ mode, fds d = some (.opened r.file.text mode)

/-- **A simple command or a block**: what is run, and the redirections from left to right. -/
inductive Redirected : List Token → Cmd → List Redirection → Prop
  | simple {ts ts' : List Token} {ws : List Str} {rs rs' : List Redirection} (h : Redirs ts rs)
    (h' : Words ts' ws rs') (hws : ws.length < MAXARGS) :
    Redirected (ts ++ ts') (.exec ws) (rs ++ rs')
  | block {ts ts' : List Token} {c : Cmd} {rs : List Redirection} (h : Derives .line ts c)
    (h' : Redirs ts' rs) : Redirected (.sym lpar :: (ts ++ .sym rpar :: ts')) c rs

/-- A tree is a part of another. -/
inductive Part (c : Cmd) : Cmd → Prop
  | refl : Part c c
  | redir {cmd : Cmd} (h : Part c cmd) (file : Str) (mode fd : ℕ) : Part c (.redir cmd file mode fd)
  | pipeLeft {left : Cmd} (h : Part c left) (right : Cmd) : Part c (.pipe left right)
  | pipeRight {right : Cmd} (h : Part c right) (left : Cmd) : Part c (.pipe left right)
  | listLeft {left : Cmd} (h : Part c left) (right : Cmd) : Part c (.list left right)
  | listRight {right : Cmd} (h : Part c right) (left : Cmd) : Part c (.list left right)
  | back {cmd : Cmd} (h : Part c cmd) : Part c (.back cmd)

/-- **The run gets from a tree to the command in it**, through its redirections. -/
inductive Reaches (opens : List UInt8 → ℕ → Bool) (n : ℕ) (buf : List UInt8) :
    Cmd → Fds → Cmd → Fds → Prop
  | refl (c : Cmd) (fds : Fds) : Reaches opens n buf c fds c fds
  | redir {cmd c : Cmd} {file : Str} {mode fd : ℕ} {fds fds₁ fds' : Fds}
    (h : openRedir opens n buf file mode fd fds = some fds₁)
    (h' : Reaches opens n buf cmd fds₁ c fds') :
    Reaches opens n buf (.redir cmd file mode fd) fds c fds'

section

variable {opens : List UInt8 → ℕ → Bool} {n : ℕ} {buf : List UInt8} {c tree : Cmd}
  {ts : List Token} {rs : List Redirection} {fds fds' : Fds}

theorem Reaches.runcmd_eq (h : Reaches opens n buf tree fds c fds') (place : List Bool) :
    runcmd opens n buf tree place fds = runcmd opens n buf c place fds' := by
  induction h with
  | refl => rfl
  | redir hopen _ ih =>
    rw [← ih, runcmd, hopen]

theorem Part.words_subset (h : Part c tree) : c.words ⊆ tree.words := by
  induction h with
  | refl => exact List.Subset.refl _
  | redir _ _ _ _ ih => exact subset_append_of_subset_left _ ih
  | pipeLeft _ _ ih => exact subset_append_of_subset_left _ ih
  | pipeRight _ _ ih => exact subset_append_of_subset_right _ ih
  | listLeft _ _ ih => exact subset_append_of_subset_left _ ih
  | listRight _ _ ih => exact subset_append_of_subset_right _ ih
  | back _ ih => exact ih

theorem Redirs.fd_le (h : Redirs ts rs) {r : Redirection} (hr : r ∈ rs) : r.fd ≤ 1 := by
  induction h with
  | nil => cases hr
  | cons h _ ih =>
    rcases mem_cons.mp hr with rfl | hr
    · cases h <;> simp
    · exact ih hr

theorem Words.fd_le {ws : List Str} (h : Words ts ws rs) {r : Redirection} (hr : r ∈ rs) :
    r.fd ≤ 1 := by
  induction h with
  | nil => cases hr
  | cons hredirs _ ih =>
    rcases mem_append.mp hr with hr | hr
    · exact hredirs.fd_le hr
    · exact ih hr

theorem Redirected.fd_le (h : Redirected ts c rs) {r : Redirection} (hr : r ∈ rs) : r.fd ≤ 1 := by
  cases h with
  | simple hredirs hwords _ =>
    rcases mem_append.mp hr with hr | hr
    · exact hredirs.fd_le hr
    · exact hwords.fd_le hr
  | block _ hredirs => exact hredirs.fd_le hr

/-- **One redirection**: the file takes the place of the descriptor that was closed. -/
theorem openRedir_eq (n : ℕ) (buf : List UInt8) (hopens : ∀ name mode, opens name mode)
    (file : Str) (mode : ℕ) {fd : ℕ}
    (hfd : fd ≤ 1) (h0 : fds 0 ≠ none) :
    openRedir opens n buf file mode fd fds
      = some (Function.update fds fd (some (.opened (stringAt n buf file.q) mode))) := by
  have hfind : ((range NOFILE).find? fun d => ((fds.close fd) d).isNone) = some fd := by
    have hclosed : ((fds.close fd) fd).isNone := by
      unfold Fds.close
      rw [Function.update_self]
      rfl
    rw [show range NOFILE = 0 :: 1 :: (range 14).map (· + 2) by decide]
    rcases Nat.le_one_iff_eq_zero_or_eq_one.mp hfd with rfl | rfl
    · exact find?_cons_of_pos hclosed
    · have hopen : ¬ ((fds.close 1) 0).isNone := by
        unfold Fds.close
        rwa [Function.update_of_ne (by decide), Option.isNone_iff_eq_none]
      rw [find?_cons_of_neg (p := fun d => ((fds.close 1) d).isNone) hopen]
      exact find?_cons_of_pos hclosed
  unfold openRedir Fds.alloc
  rw [if_pos (hopens _ _), hfind]
  exact congrArg some (Function.update_idem ..)

theorem firstFor_append (rs : List Redirection) (r : Redirection) (d : ℕ) :
    firstFor (rs ++ [r]) d = (firstFor rs d).or (if r.fd = d then some r else none) := by
  unfold firstFor
  rw [find?_append, find?_singleton]
  simp

/-- **The first redirection counts**, since it is the last one that is carried out. -/
theorem reaches_wrap (hopens : ∀ name mode, opens name mode) (c : Cmd) (hfd : ∀ r ∈ rs, r.fd ≤ 1)
    (hbuf : ∀ r ∈ rs, stringAt n buf r.file.q = r.file.text) (h0 : fds 0 ≠ none) :
    ∃ fds', Reaches opens n buf (wrap c rs) fds c fds'
      ∧ ∀ d, fds' d = match firstFor rs d with
        | some r => some (.opened r.file.text r.mode)
        | none => fds d := by
  -- the outermost redirection is the last one
  induction rs using reverseRecOn generalizing fds with
  | nil => exact ⟨fds, .refl c fds, fun d => rfl⟩
  | append_singleton rs r ih =>
    have hr : r ∈ rs ++ [r] := mem_append_right _ (mem_singleton_self r)
    have hopen := openRedir_eq n buf hopens r.file r.mode (hfd r hr) h0
    rw [hbuf r hr] at hopen
    have h0' : Function.update fds r.fd (some (.opened r.file.text r.mode)) 0 ≠ none := by
      rw [Function.update_apply]
      split
      · exact Option.some_ne_none _
      · exact h0
    obtain ⟨fds', hreach, hfds'⟩ := ih (fun r hr => hfd r (mem_append_left _ hr))
      (fun r hr => hbuf r (mem_append_left _ hr)) h0'
    refine ⟨fds', ?_, fun d => ?_⟩
    · rw [wrap_append]
      exact .redir hopen hreach
    · rw [hfds' d, firstFor_append]
      cases firstFor rs d with
      | some r' => rfl
      | none =>
        rw [Option.none_or, Function.update_apply]
        by_cases hd : d = r.fd
        · rw [if_pos hd, if_pos hd.symm]
        · rw [if_neg hd, if_neg (Ne.symm hd)]

theorem exists_firstFor {d : ℕ} {r : Redirection} (h : lastFor rs d = some r) :
    ∃ r', firstFor rs d = some r' := by
  unfold lastFor at h
  rw [← Option.isSome_iff_exists]
  unfold firstFor
  rw [find?_isSome]
  have hfd := find?_some h
  exact ⟨r, mem_reverse.mp (mem_of_find?_eq_some h), hfd⟩

/-- **The redirections of a command take effect from right to left.** When each file can be opened,
the command starts with every redirected descriptor attached to the file of its first redirection;
so the last one counts if and only if it names the same file. -/
theorem redirections_first_wins {line : List UInt8} (h0 : 0 ∉ line)
    (hparse : parsecmd line = .ok (tree, buf)) (hcmd : Redirected ts c rs)
    (hpart : Part (wrap c rs) tree) (hopens : ∀ name mode, opens name mode)
    (hfds : ∀ d ≤ 2, fds d ≠ none) :
    ∃ fds', Reaches opens line.length buf (wrap c rs) fds c fds'
      ∧ (∀ place, runcmd opens line.length buf (wrap c rs) place fds
        = runcmd opens line.length buf c place fds')
      ∧ (∀ d, fds' d = match firstFor rs d with
        | some r => some (.opened r.file.text r.mode)
        | none => fds d)
      ∧ (LastWins rs fds' ↔ ∀ d r r', firstFor rs d = some r → lastFor rs d = some r' →
        r.file.text = r'.file.text) := by
  have hwords := words_are_strings_of h0 hparse
  have hbuf : ∀ r ∈ rs, stringAt line.length buf r.file.q = r.file.text := fun r hr => by
    refine (hwords r.file (hpart.words_subset ?_)).2
    rw [words_wrap]
    exact mem_append_right _ (mem_map_of_mem hr)
  obtain ⟨fds', hreach, hfds'⟩ := reaches_wrap hopens c (fun r hr => hcmd.fd_le hr) hbuf
    (hfds 0 (Nat.zero_le _))
  refine ⟨fds', hreach, hreach.runcmd_eq, hfds', fun h d r r' hr hr' => ?_, fun h d r' hr' => ?_⟩
  · obtain ⟨mode, hmode⟩ := h d r' hr'
    rw [hfds' d, hr] at hmode
    exact (File.opened.inj (Option.some.inj hmode)).1
  · obtain ⟨r, hr⟩ := exists_firstFor hr'
    refine ⟨r.mode, ?_⟩
    rw [hfds' d, hr, ← h d r r' hr hr']

end

/-- The descriptors that a shell has when it starts. -/
def shellFds : Fds := fun d => if d ≤ 2 then some (.inherited d) else none

theorem parsecmd_of_toOption {line buf : List UInt8} {tree : Cmd}
    (h : (parsecmd line).toOption = some (tree, buf)) : parsecmd line = .ok (tree, buf) := by
  cases hrun : parsecmd line with
  | error e =>
    rw [hrun] at h
    cases h
  | ok res =>
    rw [hrun] at h
    exact congrArg Except.ok (Option.some.inj h)

/-- The mode of `>`. -/
def outputMode : ℕ := O_WRONLY ||| Names.O_CREATE ||| Names.O_TRUNC

/-- **With `a>x>y`, the output goes to `x`.** -/
theorem redirections_last_loses : ∃ (line : List UInt8) (c : Cmd) (rs : List Redirection)
    (buf : List UInt8) (fds' : Fds), 0 ∉ line ∧ parsecmd line = .ok (wrap c rs, buf)
    ∧ Redirected (lex line) c rs
    ∧ Reaches (fun _ _ => true) line.length buf (wrap c rs) shellFds c fds'
    ∧ ¬ LastWins rs fds' := by
  let line : List UInt8 := [97, 62, 120, 62, 121]
  let a : Str := ⟨line, [62, 120, 62, 121]⟩
  let x : Str := ⟨[120, 62, 121], [62, 121]⟩
  let y : Str := ⟨[121], []⟩
  let rs : List Redirection := [⟨x, outputMode, 1⟩, ⟨y, outputMode, 1⟩]
  let buf : List UInt8 := [97, 0, 120, 0, 121, 0]
  have hlex : lex line = [.word a, .sym gt, .word x, .sym gt, .word y] := by decide +kernel
  have hcmd : Redirected (lex line) (.exec [a]) rs := by
    rw [hlex]
    exact .simple .nil (.cons (.cons (.output x) (.cons (.output y) .nil)) .nil) (by decide)
  have hparse : parsecmd line = .ok (wrap (.exec [a]) rs, buf) :=
    parsecmd_of_toOption (by decide +kernel)
  have hbuf : ∀ r ∈ rs, stringAt line.length buf r.file.q = r.file.text := by decide
  have hopens : ∀ name mode, (fun _ _ => true : List UInt8 → ℕ → Bool) name mode :=
    fun _ _ => rfl
  obtain ⟨fds', hreach, hfds'⟩ := reaches_wrap hopens (.exec [a]) (fun r hr => hcmd.fd_le hr) hbuf
    (show shellFds 0 ≠ none by decide)
  refine ⟨line, _, rs, buf, fds', by decide, hparse, hcmd, hreach, fun hlast => ?_⟩
  obtain ⟨mode, hmode⟩ := hlast 1 ⟨y, outputMode, 1⟩ rfl
  rw [hfds' 1] at hmode
  exact absurd (File.opened.inj (Option.some.inj hmode)).1 (by decide)

/-- With `a>x>x` as well, and that is right. -/
theorem redirections_first_wins_twice : ∃ (c : Cmd) (rs : List Redirection)
    (buf : List UInt8) (fds' : Fds), parsecmd [97, 62, 120, 62, 120] = .ok (wrap c rs, buf)
    ∧ rs.map Redirection.fd = [1, 1]
    ∧ Reaches (fun _ _ => true) 5 buf (wrap c rs) shellFds c fds' ∧ LastWins rs fds'
    ∧ fds' 1 = some (.opened [120] outputMode) := by
  let line : List UInt8 := [97, 62, 120, 62, 120]
  let a : Str := ⟨line, [62, 120, 62, 120]⟩
  let x : Str := ⟨[120, 62, 120], [62, 120]⟩
  let x' : Str := ⟨[120], []⟩
  let rs : List Redirection := [⟨x, outputMode, 1⟩, ⟨x', outputMode, 1⟩]
  have hparse : parsecmd line = .ok (wrap (.exec [a]) rs, [97, 0, 120, 0, 120, 0]) :=
    parsecmd_of_toOption (by decide +kernel)
  have hcmd : Redirected [.word a, .sym gt, .word x, .sym gt, .word x'] (.exec [a]) rs :=
    .simple .nil (.cons (.cons (.output x) (.cons (.output x') .nil)) .nil) (by decide)
  have hopen : ∀ d ≤ 2, shellFds d ≠ none := fun d hd => by
    unfold shellFds
    rw [if_pos hd]
    exact Option.some_ne_none _
  have hopens : ∀ name mode, (fun _ _ => true : List UInt8 → ℕ → Bool) name mode :=
    fun _ _ => rfl
  have htext : ∀ r ∈ rs, r.file.text = [120] := by decide
  obtain ⟨fds', hreach, -, hfds', hiff⟩ := redirections_first_wins
    (show 0 ∉ line by decide) hparse hcmd .refl hopens hopen
  refine ⟨_, rs, _, fds', hparse, rfl, hreach, hiff.mpr fun d r r' hr hr' => ?_, hfds' 1⟩
  rw [htext r (mem_of_find?_eq_some hr), htext r' (mem_reverse.mp (mem_of_find?_eq_some hr'))]

end Xv6.Sh
