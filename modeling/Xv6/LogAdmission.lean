import Xv6.Machine
import Xv6.LogRecovery

/-!
# Operations, the space they reserve, and the commit of a group

Every file system call brackets its updates by `begin_op` and `end_op`.
`begin_op` admits a call when the log has room for it, and makes it sleep
otherwise; `log_write` records a block in the in-memory header; and the
`end_op` of the last outstanding call commits the whole group, with the lock
of the log dropped, while `committing` keeps new calls out.

The model is a machine whose actions are the sections of these functions
that run under `log.lock`, the block copies of `commit`, and the wake-up of
a sleeping process that is killed. Each process is at some place in the code
(`LogPc`). Nothing about the number of processes is assumed.

A single invariant (`LogInv`) relates the three counters to the places of the
processes, and the safety of the group commit is read off it (`group_commit`).
As to the space (`log_write_too_big_iff`), `begin_op` reserves `MAXOPBLOCKS` blocks
against `LOGSIZE`, `log_write` panics at `log.size - 1` blocks before it looks for
the block among those already logged, and on a disk made by `mkfs` the second limit is
smaller than the first. What a set of calls may still log (`demand`) decides
exactly which admissions are safe.
-/

open Function Finset List

namespace Xv6

/-- Where the process that runs `commit` is in it. -/
inductive CommitPc where
  /-- About to test `log.lh.n > 0`. -/
  | start
  /-- In `write_log`, at a value of `tail`. -/
  | writeLog (tail : ℕ)
  /-- About to write the header: the real commit. -/
  | writeHead
  /-- In `install_trans`, at a value of `tail`. -/
  | install (tail : ℕ)
  /-- About to set `log.lh.n` to zero. -/
  | clear
  /-- About to erase the transaction from the log. -/
  | eraseHead
  /-- Out of `commit`, about to take the lock and clear `committing`. -/
  | finish
  deriving DecidableEq

/-- Where a process is in its use of the log. -/
inductive LogPc where
  /-- In no operation. -/
  | idle
  /-- In `begin_op`, runnable. -/
  | beginOp
  /-- In `begin_op`, asleep on the log's channel. -/
  | sleeping
  /-- Between `begin_op` and `end_op`. The blocks its operation has logged so
  far are recorded here; the kernel keeps no such list. -/
  | inOp (logged : Finset ℕ)
  /-- In the `commit` of its `end_op`. -/
  | commit (c : CommitPc)
  deriving DecidableEq

/-- The panics of the functions modelled here. -/
inductive LogPanic where
  /-- `log_write`: "too big a transaction". -/
  | tooBig
  /-- `log_write`: "log_write outside of trans". -/
  | outsideTrans
  /-- `end_op`: "log.committing". -/
  | committing
  deriving DecidableEq

/-- **The log, and the processes that use it.** -/
structure LogState (P : Type) where
  /-- How many file system calls are executing. -/
  outstanding : ℤ
  /-- In `commit`, please wait. -/
  committing : Bool
  /-- The first `n` entries of the in-memory header. -/
  lh : List ℕ
  /-- Where each process is. -/
  pc : P → LogPc

/-- What a process can do next. -/
inductive LogAct where
  /-- The section of `begin_op`, entered or re-entered after a sleep. -/
  | beginOp
  /-- A spurious wake-up, by `kill`. -/
  | wake
  /-- The section of `log_write`. -/
  | logWrite (b : ℕ)
  /-- The first section of `end_op`. -/
  | endOp
  /-- The next step of `commit`, or the last section of `end_op`. -/
  | commit
  deriving DecidableEq

/-- Record a block in the header: over the first entry that equals it, or
else in a new one. -/
def absorb : List ℕ → ℕ → List ℕ
  | [], b => [b]
  | x :: xs, b => if x = b then b :: xs else x :: absorb xs b

theorem absorb_of_mem {l : List ℕ} {b : ℕ} (h : b ∈ l) : absorb l b = l := by
  induction l with
  | nil => cases h
  | cons x xs ih =>
    unfold absorb
    by_cases hx : x = b
    · rw [if_pos hx, hx]
    · rw [if_neg hx, ih ((mem_cons.mp h).resolve_left (Ne.symm hx))]

theorem absorb_of_notMem {l : List ℕ} {b : ℕ} (h : b ∉ l) : absorb l b = l ++ [b] := by
  induction l with
  | nil => rfl
  | cons x xs ih =>
    have hx : x ≠ b := fun he => h (he ▸ mem_cons_self)
    unfold absorb
    rw [if_neg hx, ih (fun hm => h (mem_cons_of_mem _ hm))]
    rfl

namespace LogState

variable {P : Type} [DecidableEq P]

/-- A process moves. -/
def move (s : LogState P) (p : P) (c : LogPc) : LogState P :=
  { s with pc := update s.pc p c }

/-- `wakeup(&log)`: every process asleep on the log's channel can run. -/
def wakeup (s : LogState P) : LogState P :=
  { s with pc := fun q => if s.pc q = .sleeping then .beginOp else s.pc q }

/-- The test of `begin_op`: no commit is in progress, and the log has room
for `MAXOPBLOCKS` blocks of every outstanding operation and of this one. -/
def Admits (s : LogState P) : Prop :=
  s.committing = false
    ∧ ¬ ((s.lh.length : ℤ) + (s.outstanding + 1) * MAXOPBLOCKS > LOGSIZE)
  deriving Decidable

/-- `begin_op`: one turn of its loop. -/
def beginOp (s : LogState P) (p : P) : LogState P :=
  if s.Admits then { s.move p (.inOp ∅) with outstanding := s.outstanding + 1 }
  else s.move p .sleeping

/-- The state after a block was logged. -/
abbrev wrote (s : LogState P) (p : P) (logged : Finset ℕ) (b : ℕ) : LogState P :=
  { s.move p (.inOp (insert b logged)) with lh := absorb s.lh b }

/-- `log_write`, by a process whose operation has logged `logged`. -/
def logWrite (size : ℕ) (s : LogState P) (p : P) (logged : Finset ℕ) (b : ℕ) :
    Outcome (LogState P) LogPanic :=
  if s.lh.length ≥ LOGSIZE ∨ (s.lh.length : ℤ) ≥ size - 1 then .panic .tooBig
  else if s.outstanding < 1 then .panic .outsideTrans
  else .next { s.move p (.inOp (insert b logged)) with lh := absorb s.lh b }

/-- `end_op`, up to the release of the lock. -/
def endOp (s : LogState P) (p : P) : Outcome (LogState P) LogPanic :=
  let s := { s with outstanding := s.outstanding - 1 }
  if s.committing then .panic .committing
  else if s.outstanding = 0 then
    .next { s.move p (.commit .start) with committing := true }
  else .next (s.move p .idle).wakeup

/-- The next step of the process that runs `commit`. -/
def commitStep (s : LogState P) (p : P) : CommitPc → LogState P
  | .start => s.move p (.commit (if s.lh.length > 0 then .writeLog 0 else .finish))
  | .writeLog tail =>
    s.move p (.commit (if tail < s.lh.length then .writeLog (tail + 1) else .writeHead))
  | .writeHead => s.move p (.commit (.install 0))
  | .install tail =>
    s.move p (.commit (if tail < s.lh.length then .install (tail + 1) else .clear))
  | .clear => { s.move p (.commit .eraseHead) with lh := [] }
  | .eraseHead => s.move p (.commit .finish)
  | .finish => ({ s.move p .idle with committing := false }).wakeup

/-- **The machine**: what an action of a process does, on a log of `size`
blocks. -/
def step (size : ℕ) (s : LogState P) : P × LogAct → Outcome (LogState P) LogPanic
  | (p, .beginOp) =>
    match s.pc p with
    | .idle => .next (s.beginOp p)
    | .beginOp => .next (s.beginOp p)
    | _ => .disabled
  | (p, .wake) =>
    match s.pc p with
    | .sleeping => .next (s.move p .beginOp)
    | _ => .disabled
  | (p, .logWrite b) =>
    match s.pc p with
    | .inOp logged => s.logWrite size p logged b
    | _ => .disabled
  | (p, .endOp) =>
    match s.pc p with
    | .inOp _ => s.endOp p
    | _ => .disabled
  | (p, .commit) =>
    match s.pc p with
    | .commit c => .next (s.commitStep p c)
    | _ => .disabled

/-- The log after `initlog`: no operation, an empty header. -/
def initial : LogState P := ⟨0, false, [], fun _ => .idle⟩

section Wakeup

omit [DecidableEq P]

/-- Waking the sleepers does not change a sum that counts `begin_op` and
sleeping in it alike. -/
theorem sum_wakeup [Fintype P] (s : LogState P) (f : LogPc → ℕ)
    (hf : f .beginOp = f .sleeping) : ∑ q, f (s.wakeup.pc q) = ∑ q, f (s.pc q) := by
  refine sum_congr rfl (fun q _ => ?_)
  show f (if s.pc q = .sleeping then .beginOp else s.pc q) = f (s.pc q)
  split
  · rename_i hq
    rw [hq, hf]
  · rfl

theorem wakeup_pc_ne_sleeping (s : LogState P) (q : P) : s.wakeup.pc q ≠ .sleeping := by
  show (if s.pc q = .sleeping then LogPc.beginOp else s.pc q) ≠ .sleeping
  split
  · exact fun h => LogPc.noConfusion h
  · assumption

theorem pc_of_wakeup_commit {s : LogState P} {q : P} {c : CommitPc}
    (h : s.wakeup.pc q = .commit c) : s.pc q = .commit c := by
  change (if s.pc q = .sleeping then LogPc.beginOp else s.pc q) = .commit c at h
  split at h
  · cases h
  · exact h

end Wakeup

/-! ## What a step can do -/

/-- **Inversion of a step**: everything that an action can have done, with
the tests it passed. -/
theorem step_cases {size : ℕ} {s s' : LogState P} {p : P} {a : LogAct}
    (h : s.step size (p, a) = .next s') :
    (a = .beginOp ∧ (s.pc p = .idle ∨ s.pc p = .beginOp) ∧ s' = s.beginOp p)
      ∨ (a = .wake ∧ s.pc p = .sleeping ∧ s' = s.move p .beginOp)
      ∨ (∃ b logged, a = .logWrite b ∧ s.pc p = .inOp logged
          ∧ (s.lh.length < LOGSIZE ∧ (s.lh.length : ℤ) < size - 1)
          ∧ s' = s.wrote p logged b)
      ∨ (∃ logged, a = .endOp ∧ s.pc p = .inOp logged ∧ s.committing = false
          ∧ ((s.outstanding = 1 ∧ s' = { s.move p (.commit .start) with
                outstanding := 0, committing := true })
            ∨ (s.outstanding ≠ 1 ∧ s' = ({ s.move p .idle with
                outstanding := s.outstanding - 1 }).wakeup)))
      ∨ (∃ c, a = .commit ∧ s.pc p = .commit c ∧ s' = s.commitStep p c) := by
  cases a with
  | beginOp =>
    left
    simp only [step] at h
    split at h
    · rename_i hpc
      exact ⟨rfl, Or.inl hpc, (Outcome.next.inj h).symm⟩
    · rename_i hpc
      exact ⟨rfl, Or.inr hpc, (Outcome.next.inj h).symm⟩
    · cases h
  | wake =>
    right; left
    simp only [step] at h
    split at h
    · rename_i hpc
      exact ⟨rfl, hpc, (Outcome.next.inj h).symm⟩
    · cases h
  | logWrite b =>
    right; right; left
    simp only [step] at h
    split at h
    · rename_i logged hpc
      unfold logWrite at h
      split at h
      · cases h
      · rename_i hroom
        split at h
        · cases h
        · exact ⟨b, logged, rfl, hpc, by omega, (Outcome.next.inj h).symm⟩
    · cases h
  | endOp =>
    right; right; right; left
    simp only [step] at h
    split at h
    · rename_i logged hpc
      simp only [endOp] at h
      split at h
      · cases h
      · rename_i hcom
        refine ⟨logged, rfl, hpc, by simpa using hcom, ?_⟩
        split at h <;> rename_i hzero
        · left
          refine ⟨by omega, ?_⟩
          rw [← Outcome.next.inj h, ← hzero]
          rfl
        · exact Or.inr ⟨by omega, (Outcome.next.inj h).symm⟩
    · cases h
  | commit =>
    right; right; right; right
    simp only [step] at h
    split at h
    · rename_i c hpc
      exact ⟨c, rfl, hpc, (Outcome.next.inj h).symm⟩
    · cases h

end LogState

/-- One for a process in an operation. -/
def LogPc.ops : LogPc → ℕ
  | .inOp _ => 1
  | _ => 0

/-- One for a process in `commit`. -/
def LogPc.commits : LogPc → ℕ
  | .commit _ => 1
  | _ => 0

/-! ## The invariant of the group commit -/

section GroupCommit

variable {P : Type} [Fintype P] [DecidableEq P]

/-- **The invariant of the log**: the counters say where the processes are,
and the header is empty whenever nothing is going on. -/
structure LogInv (s : LogState P) : Prop where
  /-- `outstanding` counts the processes in an operation. -/
  outstanding : s.outstanding = (∑ q, (s.pc q).ops : ℕ)
  /-- `committing` says that one process, and one only, is in `commit`. -/
  committing : ∑ q, (s.pc q).commits = if s.committing then 1 else 0
  /-- A commit runs alone. -/
  alone : s.committing = true → s.outstanding = 0
  /-- No block is logged twice. -/
  nodup : s.lh.Nodup
  /-- With no operation and no commit, nothing is logged. -/
  quiet : s.outstanding = 0 → s.committing = false → s.lh = []
  /-- Once `commit` has cleared the header, it stays so to the end. -/
  cleared : ∀ p, s.pc p = .commit .eraseHead ∨ s.pc p = .commit .finish → s.lh = []
  /-- A sleeping process has a commit or an operation to wait for. -/
  awaited : ∀ p, s.pc p = .sleeping → s.committing = true ∨ 0 < s.outstanding

namespace LogInv

variable {s : LogState P}

section

omit [DecidableEq P]

theorem initial : LogInv (LogState.initial : LogState P) where
  outstanding := by simp [LogState.initial, LogPc.ops]
  committing := by simp [LogState.initial, LogPc.commits]
  alone := fun h => by cases h
  nodup := nodup_nil
  quiet := fun _ _ => rfl
  cleared := fun p h => by simp [LogState.initial] at h
  awaited := fun p h => by simp [LogState.initial] at h

theorem pos_of_inOp (hs : LogInv s) {p : P} {logged : Finset ℕ}
    (hp : s.pc p = .inOp logged) : 0 < s.outstanding := by
  have h : 0 < ∑ q, (s.pc q).ops :=
    sum_pos_of s.pc LogPc.ops (p := p) (by rw [hp]; exact Nat.one_pos)
  rw [hs.outstanding]
  exact_mod_cast h

theorem committing_of_commit (hs : LogInv s) {p : P} {c : CommitPc}
    (hp : s.pc p = .commit c) : s.committing = true := by
  have h : 0 < ∑ q, (s.pc q).commits :=
    sum_pos_of s.pc LogPc.commits (p := p) (by rw [hp]; exact Nat.one_pos)
  rw [hs.committing] at h
  by_contra hc
  rw [if_neg hc] at h
  exact absurd h (lt_irrefl 0)

theorem not_committing_of_inOp (hs : LogInv s) {p : P} {logged : Finset ℕ}
    (hp : s.pc p = .inOp logged) : s.committing = false := by
  have hpos := hs.pos_of_inOp hp
  by_contra hc
  have := hs.alone (by simpa using hc)
  omega

/-- With an operation outstanding, a process is in one. -/
theorem exists_inOp (hs : LogInv s) (hpos : 0 < s.outstanding) :
    ∃ q logged, s.pc q = .inOp logged := by
  have hsum : ∑ q, (s.pc q).ops ≠ 0 := by
    have h := hs.outstanding
    omega
  obtain ⟨q, -, hq⟩ := exists_ne_zero_of_sum_ne_zero hsum
  refine ⟨q, ?_⟩
  cases hpc : s.pc q with
  | inOp logged => exact ⟨logged, rfl⟩
  | _ => rw [hpc] at hq; exact absurd rfl hq

end

/-- Two processes in `commit` are one. -/
theorem commit_unique (hs : LogInv s) {p q : P} {c c' : CommitPc}
    (hp : s.pc p = .commit c) (hq : s.pc q = .commit c') : p = q := by
  by_contra hne
  have hsum := hs.committing
  rw [if_pos (hs.committing_of_commit hp)] at hsum
  -- moving `p` out of `commit` would leave no process in it, and `q` is one
  have hmove := sum_update s.pc p .idle LogPc.commits
  rw [hsum, hp] at hmove
  have hpos : 0 < ∑ r, (update s.pc p .idle r).commits :=
    sum_pos_of (update s.pc p .idle) LogPc.commits (p := q)
      (by rw [update_of_ne (Ne.symm hne), hq]; exact Nat.one_pos)
  simp only [LogPc.commits] at hmove hpos
  omega

/-- **One process moves**, and may wake the sleepers: the invariant, given what that changes. -/
theorem moved (hs : LogInv s) {s' : LogState P} {p : P} {c₀ c : LogPc} (hp : s.pc p = c₀)
    (hpc : s'.pc = update s.pc p c ∨ s'.pc = (s.move p c).wakeup.pc)
    (hops : s'.outstanding + c₀.ops = s.outstanding + c.ops)
    (hcom : (if s'.committing then 1 else 0) + c₀.commits
      = (if s.committing then 1 else 0) + c.commits)
    (halone : s'.committing = true → s'.outstanding = 0) (hnodup : s'.lh.Nodup)
    (hquiet : s'.outstanding = 0 → s'.committing = false → s'.lh = [])
    (hcleared : c = .commit .eraseHead ∨ c = .commit .finish → s'.lh = [])
    (hlh : s.committing = true → s.lh = [] → s'.lh = [])
    (hawait : ∀ q, s'.pc q = .sleeping → s'.committing = true ∨ 0 < s'.outstanding) :
    LogInv s' := by
  have hsum (f : LogPc → ℕ) (hf : f .beginOp = f .sleeping) :
      ∑ q, f (s'.pc q) + f c₀ = ∑ q, f (s.pc q) + f c := by
    rw [← hp, ← sum_update s.pc p c f]
    rcases hpc with hpc | hpc <;> rw [hpc]
    rw [LogState.sum_wakeup _ f hf]
    rfl
  have hat {q : P} {c' : CommitPc} (h : s'.pc q = .commit c') :
      update s.pc p c q = .commit c' := by
    rcases hpc with hpc | hpc <;> rw [hpc] at h
    · exact h
    · exact LogState.pc_of_wakeup_commit h
  refine ⟨?_, ?_, halone, hnodup, hquiet, fun q hq => ?_, hawait⟩
  · have h := hsum LogPc.ops rfl
    have h₀ := hs.outstanding
    omega
  · have h := hsum LogPc.commits rfl
    have h₀ := hs.committing
    omega
  · replace hq := hq.imp hat hat
    by_cases hqp : q = p
    · rw [hqp, update_self] at hq
      exact hcleared hq
    · rw [update_of_ne hqp] at hq
      refine hlh ?_ (hs.cleared q hq)
      rcases hq with hq | hq
      · exact hs.committing_of_commit hq
      · exact hs.committing_of_commit hq

/-- A move that changes no counter. -/
theorem move (hs : LogInv s) {p : P} {c₀ c : LogPc} (hp : s.pc p = c₀) (hops : c.ops = c₀.ops)
    (hcom : c.commits = c₀.commits)
    (hcleared : c = .commit .eraseHead ∨ c = .commit .finish → s.lh = [])
    (hawait : c = .sleeping → s.committing = true ∨ 0 < s.outstanding) :
    LogInv (s.move p c) := by
  refine hs.moved hp (.inl rfl) (by rw [hops]; rfl) (by rw [hcom]; rfl) hs.alone hs.nodup hs.quiet
    hcleared (fun _ => id) (fun q hq => ?_)
  by_cases hqp : q = p
  · subst hqp
    exact hawait ((update_self _ _ _).symm.trans hq)
  · exact hs.awaited q ((update_of_ne hqp _ _).symm.trans hq)

/-- `begin_op` keeps the invariant. -/
theorem beginOp (hs : LogInv s) {p : P} (hp : s.pc p = .idle ∨ s.pc p = .beginOp) :
    LogInv (s.beginOp p) := by
  have hops : (s.pc p).ops = 0 := by rcases hp with hp | hp <;> rw [hp] <;> rfl
  have hcom : (s.pc p).commits = 0 := by rcases hp with hp | hp <;> rw [hp] <;> rfl
  have hpos : (0 : ℤ) ≤ s.outstanding := by
    rw [hs.outstanding]
    exact Int.natCast_nonneg _
  unfold LogState.beginOp
  split
  · -- admitted: no commit is in progress
    rename_i hadm
    refine hs.moved (c := .inOp ∅) rfl (.inl rfl) ?_ (by rw [hcom]; rfl) (fun h => ?_) hs.nodup
      (fun h _ => ?_) (by simp) (fun _ => id)
      (fun _ _ => .inr (show 0 < s.outstanding + 1 by omega))
    · rw [hops]
      exact add_zero _
    · have hfalse : s.committing = true := h
      rw [hadm.1] at hfalse
      cases hfalse
    · have h' : s.outstanding + 1 = 0 := h
      omega
  · -- refused: with no commit and no operation the log is empty, and would admit
    rename_i hadm
    refine hs.move rfl (by rw [hops]; rfl) (by rw [hcom]; rfl) (by simp) (fun _ => ?_)
    by_contra hquiet
    rw [not_or, Bool.not_eq_true, not_lt] at hquiet
    have hzero : s.outstanding = 0 := by omega
    refine hadm ⟨hquiet.1, ?_⟩
    rw [hs.quiet hzero hquiet.1, hzero]
    decide

section

variable {p : P} {logged : Finset ℕ} (hp : s.pc p = .inOp logged)

include hp

/-- `log_write` keeps the invariant. -/
theorem logWrite (hs : LogInv s) (b : ℕ) : LogInv (s.wrote p logged b) := by
  have hpos := hs.pos_of_inOp hp
  refine hs.moved (c := .inOp (insert b logged)) hp (.inl rfl) rfl rfl hs.alone ?_
    (fun h => absurd h hpos.ne') (by simp) (fun h => ?_) (fun _ _ => .inr hpos)
  · show (absorb s.lh b).Nodup
    by_cases hb : b ∈ s.lh
    · rw [absorb_of_mem hb]
      exact hs.nodup
    · rw [absorb_of_notMem hb]
      exact List.nodup_append.mpr ⟨hs.nodup, List.nodup_singleton b,
        fun x hx y hy he => hb (List.mem_singleton.mp hy ▸ he ▸ hx)⟩
  · -- a process in `commit` would have kept this one from being in an operation
    rw [hs.not_committing_of_inOp hp] at h
    cases h

/-- The last `end_op` of a group starts its commit. -/
theorem endOp_last (hs : LogInv s) (hcom : s.committing = false) (hone : s.outstanding = 1) :
    LogInv { s.move p (.commit .start) with outstanding := 0, committing := true } :=
  hs.moved (c := .commit .start) hp (.inl rfl) (by rw [hone]; rfl) (by rw [hcom]; rfl)
    (fun _ => rfl) hs.nodup nofun (by simp) (fun _ => id) (fun _ _ => .inl rfl)

/-- Any other `end_op` leaves operations outstanding. -/
theorem endOp_more (hs : LogInv s) (hcom : s.committing = false) (hmore : s.outstanding ≠ 1) :
    LogInv ({ s.move p .idle with outstanding := s.outstanding - 1 }).wakeup := by
  refine hs.moved (c := .idle) hp (.inr rfl) ?_ rfl (fun h => ?_) hs.nodup (fun h _ => ?_)
    (by simp) (fun _ => id) (fun q hq => absurd hq (LogState.wakeup_pc_ne_sleeping _ q))
  · show s.outstanding - 1 + 1 = s.outstanding + 0
    omega
  · have h' : s.committing = true := h
    rw [hcom] at h'
    cases h'
  · have h' : s.outstanding - 1 = 0 := h
    omega

end

omit [DecidableEq P] in
theorem clearHeader (hs : LogInv s) : LogInv { s with lh := [] } :=
  { hs with
    nodup := nodup_nil
    quiet := fun _ _ => rfl
    cleared := fun _ _ => rfl }

/-- The end of a commit lets operations in again. -/
theorem finish (hs : LogInv s) {p : P} (hp : s.pc p = .commit .finish) :
    LogInv ({ s.move p .idle with committing := false }).wakeup := by
  have hempty : s.lh = [] := hs.cleared p (Or.inr hp)
  refine hs.moved (c := .idle) hp (.inr rfl) rfl ?_ nofun hs.nodup (fun _ _ => hempty) (by simp)
    (fun _ => id) (fun q hq => absurd hq (LogState.wakeup_pc_ne_sleeping _ q))
  rw [hs.committing_of_commit hp]
  rfl

/-- Every step of `commit` keeps the invariant. -/
theorem commitStep (hs : LogInv s) {p : P} {c : CommitPc} (hp : s.pc p = .commit c) :
    LogInv (s.commitStep p c) := by
  have hmove : ∀ c', (c' = .eraseHead ∨ c' = .finish → s.lh = []) →
      LogInv (s.move p (.commit c')) := fun c' h =>
    hs.move hp rfl rfl (fun h' => h (h'.imp LogPc.commit.inj LogPc.commit.inj)) nofun
  cases c with
  | start =>
    refine hmove _ (fun h => ?_)
    by_cases hn : s.lh.length > 0
    · rw [if_pos hn] at h
      rcases h with h | h <;> cases h
    · exact eq_nil_of_length_eq_zero (by omega)
  | writeLog tail =>
    refine hmove _ (fun h => ?_)
    split at h <;> rcases h with h | h <;> cases h
  | writeHead => exact hmove _ (fun h => by rcases h with h | h <;> cases h)
  | install tail =>
    refine hmove _ (fun h => ?_)
    split at h <;> rcases h with h | h <;> cases h
  | clear =>
    exact hs.clearHeader.move (p := p) (c := .commit .eraseHead) hp rfl rfl (fun _ => rfl) nofun
  | eraseHead => exact hmove _ (fun _ => hs.cleared p (Or.inl hp))
  | finish => exact hs.finish hp

/-- **Every step keeps the invariant.** -/
theorem step {size : ℕ} (hs : LogInv s) {p : P} {a : LogAct} {s' : LogState P}
    (h : s.step size (p, a) = .next s') : LogInv s' := by
  obtain ⟨-, hp, rfl⟩ | ⟨-, hp, rfl⟩ | ⟨b, logged, -, hp, -, rfl⟩
    | ⟨logged, -, hp, hcom, ⟨hone, rfl⟩ | ⟨hmore, rfl⟩⟩ | ⟨c, -, hp, rfl⟩ :=
    LogState.step_cases h
  · exact hs.beginOp hp
  · exact hs.move hp rfl rfl (by simp) nofun
  · exact hs.logWrite hp b
  · exact hs.endOp_last hp hcom hone
  · exact hs.endOp_more hp hcom hmore
  · exact hs.commitStep hp

/-- The invariant holds in every state reached, whatever rules the callers
obey. -/
theorem of_reach {size : ℕ} {ok : LogState P → P × LogAct → Prop}
    (h : Machine.Reach (LogState.step size) ok .initial s) : LogInv s :=
  h.invariant initial (fun _ a _ hinv _ hs => hinv.step (p := a.1) (a := a.2) hs)

end LogInv

/-- **The group commit never splits an operation.** In every state that any
interleaving of `begin_op`, `log_write`, `end_op` and of the steps of
`commit` reaches: `commit` runs only while no operation is outstanding;
while it runs no step of any process changes the header, except its own
clearing of it; the panic of `end_op` cannot happen; no block is logged
twice; with no operation and no commit the header is empty; and a process
asleep in `begin_op` waits for a process that is in `commit` or in an
operation, which wakes it: the end of a commit wakes every sleeper, and an
`end_op` either does too or starts a commit. -/
theorem group_commit {size : ℕ} {s : LogState P}
    (h : Machine.Reach (LogState.step size) (fun _ _ => True) .initial s) :
    (∀ p c, s.pc p = .commit c → s.outstanding = 0)
      ∧ (∀ p c, s.pc p = .commit c → ∀ q a s', s.step size (q, a) = .next s' →
          s'.lh = s.lh ∨ (q = p ∧ a = .commit ∧ c = .clear ∧ s'.lh = []))
      ∧ (∀ p, s.step size (p, .endOp) ≠ .panic .committing)
      ∧ s.lh.Nodup
      ∧ (s.outstanding = 0 → s.committing = false → s.lh = [])
      ∧ (∀ p, s.pc p = .sleeping →
          (s.committing = true ∧ ∃ q c, s.pc q = .commit c)
            ∨ (0 < s.outstanding ∧ ∃ q logged, s.pc q = .inOp logged))
      ∧ (∀ q s', s.pc q = .commit .finish → s.step size (q, .commit) = .next s' →
          ∀ p, s'.pc p ≠ .sleeping)
      ∧ (∀ q s', s.step size (q, .endOp) = .next s' →
          s'.pc q = .commit .start ∨ ∀ p, s'.pc p ≠ .sleeping) := by
  have hs := LogInv.of_reach h
  refine ⟨fun p c hp => hs.alone (hs.committing_of_commit hp), ?_, ?_, hs.nodup, hs.quiet,
    ?_, ?_, ?_⟩
  · intro p c hp q a s' hstep
    have hzero := hs.alone (hs.committing_of_commit hp)
    obtain ⟨-, -, rfl⟩ | ⟨-, -, rfl⟩ | ⟨b, logged, -, hq, -⟩ | ⟨logged, -, hq, -⟩
      | ⟨c', ha, hq, rfl⟩ := LogState.step_cases hstep
    · left
      unfold LogState.beginOp
      split <;> rfl
    · exact Or.inl rfl
    · have := hs.pos_of_inOp hq
      omega
    · have := hs.pos_of_inOp hq
      omega
    · obtain rfl := hs.commit_unique hp hq
      obtain rfl : c = c' := LogPc.commit.inj (hp.symm.trans hq)
      cases c with
      | clear => exact Or.inr ⟨rfl, ha, rfl, rfl⟩
      | _ => exact Or.inl rfl
  · intro p hpanic
    simp only [LogState.step] at hpanic
    split at hpanic
    · rename_i logged hp
      simp only [LogState.endOp, hs.not_committing_of_inOp hp] at hpanic
      split at hpanic
      · rename_i hfalse
        cases hfalse
      · split at hpanic <;> cases hpanic
    · cases hpanic
  · intro p hp
    rcases hs.awaited p hp with hcom | hpos
    · left
      refine ⟨hcom, ?_⟩
      have hsum := hs.committing
      rw [if_pos hcom] at hsum
      obtain ⟨q, -, hq⟩ := exists_ne_zero_of_sum_ne_zero (hsum.trans_ne one_ne_zero)
      refine ⟨q, ?_⟩
      cases hpc : s.pc q with
      | commit c => exact ⟨c, rfl⟩
      | _ => rw [hpc] at hq; exact absurd rfl hq
    · exact Or.inr ⟨hpos, hs.exists_inOp hpos⟩
  · intro q s' hq hstep p
    simp only [LogState.step, hq, LogState.commitStep, Outcome.next.injEq] at hstep
    rw [← hstep]
    exact LogState.wakeup_pc_ne_sleeping _ p
  · intro q s' hstep
    obtain ⟨ha, -⟩ | ⟨ha, -⟩ | ⟨b, logged, ha, -⟩
      | ⟨logged, -, hq, hcom, ⟨hone, rfl⟩ | ⟨hmore, rfl⟩⟩ | ⟨c, ha, -⟩ :=
      LogState.step_cases hstep
    · cases ha
    · cases ha
    · cases ha
    · exact Or.inl (update_self _ _ _)
    · exact Or.inr (LogState.wakeup_pc_ne_sleeping _)
    · cases ha

/-- Two processes have logged blocks in turns, one of them the same block, and both have
ended their operations: the one that ended last is in `write_log`, and no operation is
outstanding. -/
theorem group_commit_two_operations :
    ∃ s : LogState (Fin 2), Machine.Reach (LogState.step LOGSIZE) (fun _ _ => True) .initial s
      ∧ s.pc 1 = .commit (.writeLog 0) ∧ s.lh = [50, 60] ∧ s.outstanding = 0 :=
  have h : Machine.Reach (LogState.step LOGSIZE) (fun _ _ => True)
      (LogState.initial : LogState (Fin 2)) _ :=
    Machine.reach_of_run
      (l := [(0, .beginOp), (1, .beginOp), (0, .logWrite 50), (1, .logWrite 60), (1, .logWrite 50),
        (0, .endOp), (1, .endOp), (1, .commit)]) rfl
  ⟨_, h, rfl, rfl, (group_commit h).1 1 (.writeLog 0) rfl⟩

/-! ## The space the operations reserve -/

/-- How many blocks more the operation of a process may log. -/
def LogPc.room : LogPc → ℕ
  | .inOp logged => MAXOPBLOCKS - logged.card
  | _ => 0

/-- **What the header may grow to** with the operations outstanding: the
blocks logged, and those the operations may still log. -/
def LogState.demand (s : LogState P) : ℕ := s.lh.length + ∑ q, (s.pc q).room

/-- **The rule operations obey**: none logs more than `MAXOPBLOCKS` distinct
blocks. It may log each of them any number of times. -/
def LogState.WithinBudget (s : LogState P) : P × LogAct → Prop
  | (p, .logWrite b) =>
    match s.pc p with
    | .inOp logged => (insert b logged).card ≤ MAXOPBLOCKS
    | _ => True
  | _ => True

omit [Fintype P] [DecidableEq P] in
theorem LogState.withinBudget_logWrite {s : LogState P} {p : P} {logged : Finset ℕ}
    (hp : s.pc p = .inOp logged) (b : ℕ) :
    s.WithinBudget (p, .logWrite b) ↔ (insert b logged).card ≤ MAXOPBLOCKS := by
  unfold LogState.WithinBudget
  simp only [hp]

instance (s : LogState P) (a : P × LogAct) : Decidable (s.WithinBudget a) := by
  unfold LogState.WithinBudget
  split
  · split <;> infer_instance
  all_goals infer_instance

/-- **A safe admission**: when `begin_op` lets a process in, what the header
may then grow to is below the limit `log_write` panics at. -/
def LogState.Reserved (size : ℕ) (s : LogState P) : P × LogAct → Prop
  | (_, .beginOp) => s.Admits → s.demand + MAXOPBLOCKS < size - 1
  | _ => True

/-- **What the operations have logged**: blocks of the header, no more of
them than the rule allows. -/
structure OpsInv (s : LogState P) : Prop where
  /-- What an operation has logged is in the header. -/
  logged_mem : ∀ p logged, s.pc p = .inOp logged → ∀ b ∈ logged, b ∈ s.lh
  /-- No operation is over its budget. -/
  card_le : ∀ p logged, s.pc p = .inOp logged → logged.card ≤ MAXOPBLOCKS

namespace OpsInv

variable {s : LogState P}

omit [Fintype P] [DecidableEq P] in
theorem initial : OpsInv (LogState.initial : LogState P) := by
  constructor
  · intro p logged h
    cases h
  · intro p logged h
    cases h

omit [Fintype P] in
/-- A process that moves somewhere outside an operation, or into a new one,
does not disturb the others. -/
theorem move (hs : OpsInv s) {p : P} {c : LogPc} (hc : ∀ logged, c = .inOp logged → logged = ∅) :
    OpsInv (s.move p c) := by
  constructor
  · intro q logged hq b hb
    by_cases hqp : q = p
    · subst hqp
      rw [hc logged ((update_self _ _ _).symm.trans hq)] at hb
      exact absurd hb (notMem_empty b)
    · exact hs.logged_mem q logged ((update_of_ne hqp _ _).symm.trans hq) b hb
  · intro q logged hq
    by_cases hqp : q = p
    · subst hqp
      rw [hc logged ((update_self _ _ _).symm.trans hq)]
      exact Nat.zero_le _
    · exact hs.card_le q logged ((update_of_ne hqp _ _).symm.trans hq)

omit [Fintype P] [DecidableEq P] in
theorem congr (hs : OpsInv s) {s' : LogState P} (hlh : s'.lh = s.lh)
    (hpc : ∀ p logged, s'.pc p = .inOp logged → s.pc p = .inOp logged) : OpsInv s' :=
  ⟨fun p logged hp b hb => hlh ▸ hs.logged_mem p logged (hpc p logged hp) b hb,
    fun p logged hp => hs.card_le p logged (hpc p logged hp)⟩

omit [Fintype P] [DecidableEq P] in
theorem wakeup (hs : OpsInv s) : OpsInv s.wakeup := by
  refine hs.congr rfl (fun p logged hp => ?_)
  change (if s.pc p = .sleeping then LogPc.beginOp else s.pc p) = .inOp logged at hp
  split at hp
  · cases hp
  · exact hp

omit [Fintype P] in
/-- A block logged joins the header and its operation's list. -/
theorem logWrite (hs : OpsInv s) {p : P} {logged : Finset ℕ} {b : ℕ}
    (hbudget : (insert b logged).card ≤ MAXOPBLOCKS) (hp : s.pc p = .inOp logged) :
    OpsInv (s.wrote p logged b) := by
  have hmem : ∀ x, x = b ∨ x ∈ s.lh → x ∈ absorb s.lh b := by
    intro x hx
    by_cases hb : b ∈ s.lh
    · rw [absorb_of_mem hb]
      exact hx.elim (fun he => he ▸ hb) id
    · rw [absorb_of_notMem hb, List.mem_append, List.mem_singleton]
      exact hx.symm
  constructor
  · intro q l hq x hx
    refine hmem x ?_
    by_cases hqp : q = p
    · subst hqp
      obtain rfl := LogPc.inOp.inj ((update_self _ _ _).symm.trans hq)
      exact (mem_insert.mp hx).imp_right (hs.logged_mem q logged hp x)
    · exact Or.inr (hs.logged_mem q l ((update_of_ne hqp _ _).symm.trans hq) x hx)
  · intro q l hq
    by_cases hqp : q = p
    · subst hqp
      obtain rfl := LogPc.inOp.inj ((update_self _ _ _).symm.trans hq)
      exact hbudget
    · exact hs.card_le q l ((update_of_ne hqp _ _).symm.trans hq)

/-- **Every step within the budget keeps the invariant.** -/
theorem step {size : ℕ} (hs : OpsInv s) (hlog : LogInv s) {p : P} {a : LogAct}
    (hbudget : s.WithinBudget (p, a)) {s' : LogState P} (h : s.step size (p, a) = .next s') :
    OpsInv s' := by
  obtain ⟨-, -, rfl⟩ | ⟨-, -, rfl⟩ | ⟨b, logged, rfl, hp, -, rfl⟩
    | ⟨logged, -, -, -, ⟨-, rfl⟩ | ⟨-, rfl⟩⟩ | ⟨c, -, hp, rfl⟩ := LogState.step_cases h
  · unfold LogState.beginOp
    split
    · exact (hs.move (p := p) (c := .inOp ∅) (fun _ h => (LogPc.inOp.inj h).symm)).congr rfl
        (fun _ _ h => h)
    · exact hs.move nofun
  · exact hs.move nofun
  · exact hs.logWrite ((LogState.withinBudget_logWrite hp b).mp hbudget) hp
  · exact (hs.move (p := p) (c := .commit .start) nofun).congr rfl
      (fun _ _ h => h)
  · refine wakeup (s := { s.move p .idle with outstanding := s.outstanding - 1 }) ?_
    exact (hs.move (p := p) (c := .idle) nofun).congr rfl (fun _ _ h => h)
  · -- while a process is in `commit` no other is in an operation
    have hnone : ∀ q logged, s.pc q ≠ .inOp logged := by
      intro q logged hq
      have h₁ := hlog.not_committing_of_inOp hq
      rw [hlog.committing_of_commit hp] at h₁
      cases h₁
    have hnone' : ∀ q logged, (s.commitStep p c).pc q ≠ .inOp logged := by
      intro q logged hq
      have hmoved : ∀ c', (∀ l, c' ≠ LogPc.inOp l) →
          update s.pc p c' q ≠ .inOp logged := by
        intro c' hc' he
        by_cases hqp : q = p
        · subst hqp
          rw [update_self] at he
          exact hc' logged he
        · rw [update_of_ne hqp] at he
          exact hnone q logged he
      cases c with
      | finish =>
        change (if update s.pc p .idle q = .sleeping then LogPc.beginOp
          else update s.pc p .idle q) = .inOp logged at hq
        split at hq
        · cases hq
        · exact hmoved .idle nofun hq
      | _ => exact hmoved _ (fun _ h => by cases h) hq
    exact ⟨fun q logged hq => absurd hq (hnone' q logged),
      fun q logged hq => absurd hq (hnone' q logged)⟩

theorem of_reach {size : ℕ} {ok : LogState P → P × LogAct → Prop}
    (hok : ∀ s a, ok s a → s.WithinBudget a)
    (h : Machine.Reach (LogState.step size) ok .initial s) : OpsInv s :=
  (h.invariant (P := fun s => LogInv s ∧ OpsInv s) ⟨LogInv.initial, initial⟩
    (fun _ a _ hinv ha hs => ⟨hinv.1.step (p := a.1) (a := a.2) hs,
      hinv.2.step (p := a.1) (a := a.2) hinv.1 (hok _ a ha) hs⟩)).2

end OpsInv

/-! ## How the demand changes -/

section Demand

variable {s : LogState P}

theorem LogState.demand_move (s : LogState P) (p : P) (c : LogPc) :
    (s.move p c).demand + (s.pc p).room = s.demand + c.room := by
  have h := sum_update s.pc p c LogPc.room
  unfold LogState.demand
  show s.lh.length + ∑ q, (update s.pc p c q).room + (s.pc p).room = _
  omega

omit [DecidableEq P] in
theorem LogState.demand_wakeup (s : LogState P) : s.wakeup.demand = s.demand :=
  congrArg (s.lh.length + ·) (s.sum_wakeup LogPc.room rfl)

/-- **Logging a block moves it from the room of its operation to the
header**, or takes it from that room when the header has it already. -/
theorem OpsInv.demand_logWrite (hs : OpsInv s) {p : P} {logged : Finset ℕ} {b : ℕ}
    (hbudget : (insert b logged).card ≤ MAXOPBLOCKS) (hp : s.pc p = .inOp logged) :
    (s.wrote p logged b).demand ≤ s.demand
      ∧ (b ∉ s.lh → (s.wrote p logged b).demand = s.demand) := by
  have hmove := s.demand_move p (.inOp (insert b logged))
  rw [hp] at hmove
  have hsplit : (s.wrote p logged b).demand + s.lh.length
      = (s.move p (.inOp (insert b logged))).demand + (absorb s.lh b).length := by
    set R := ∑ q, (update s.pc p (.inOp (insert b logged)) q).room
    show (absorb s.lh b).length + R + s.lh.length = s.lh.length + R + (absorb s.lh b).length
    omega
  simp only [LogPc.room] at hmove
  by_cases hb : b ∈ s.lh
  · have hcard : logged.card ≤ (insert b logged).card :=
      card_le_card (subset_insert b logged)
    rw [absorb_of_mem hb] at hsplit
    refine ⟨by omega, fun h => absurd hb h⟩
  · -- the operation has not logged it either
    have hnot : b ∉ logged := fun h => hb (hs.logged_mem p logged hp b h)
    rw [card_insert_of_notMem hnot] at hbudget hmove
    rw [absorb_of_notMem hb, length_append, length_singleton] at hsplit
    refine ⟨by omega, fun _ => by omega⟩

/-- **No step raises the demand, except an admission**, and none other makes
operations outstanding. -/
theorem OpsInv.demand_le {size : ℕ} (hs : OpsInv s) (hlog : LogInv s) {p : P} {a : LogAct}
    (hbudget : s.WithinBudget (p, a)) {s' : LogState P} (h : s.step size (p, a) = .next s') :
    (s'.demand ≤ s.demand ∧ (0 < s'.outstanding → 0 < s.outstanding))
      ∨ (a = .beginOp ∧ s.Admits ∧ s'.demand = s.demand + MAXOPBLOCKS) := by
  obtain ⟨ha, hp, rfl⟩ | ⟨-, hp, rfl⟩ | ⟨b, logged, rfl, hp, -, rfl⟩
    | ⟨logged, -, hp, -, ⟨-, rfl⟩ | ⟨-, rfl⟩⟩ | ⟨c, -, hp, rfl⟩ := LogState.step_cases h
  · have hroom : (s.pc p).room = 0 := by rcases hp with hp | hp <;> rw [hp] <;> rfl
    unfold LogState.beginOp
    split
    · rename_i hadm
      right
      have hmove := s.demand_move p (.inOp ∅)
      rw [hroom] at hmove
      exact ⟨ha, hadm, hmove⟩
    · left
      have hmove := s.demand_move p .sleeping
      rw [hroom] at hmove
      exact ⟨hmove.le, id⟩
  · left
    have hmove := s.demand_move p .beginOp
    rw [hp] at hmove
    exact ⟨hmove.le, id⟩
  · exact Or.inl
      ⟨(hs.demand_logWrite ((LogState.withinBudget_logWrite hp b).mp hbudget) hp).1, id⟩
  · left
    have hmove := s.demand_move p (.commit .start)
    exact ⟨le_of_add_le_left (b := (s.pc p).room) hmove.le, fun _ => hlog.pos_of_inOp hp⟩
  · left
    have hmove := s.demand_move p .idle
    refine ⟨?_, fun _ => hlog.pos_of_inOp hp⟩
    rw [LogState.demand_wakeup]
    exact le_of_add_le_left (b := (s.pc p).room) hmove.le
  · left
    have hmove : ∀ c', (s.move p (.commit c')).demand = s.demand := by
      intro c'
      have h := s.demand_move p (.commit c')
      rw [hp] at h
      exact h
    cases c with
    | clear =>
      refine ⟨le_trans ?_ (hmove .eraseHead).le, id⟩
      exact Nat.add_le_add_right (Nat.zero_le _) _
    | finish =>
      refine ⟨(LogState.demand_wakeup _).le.trans ?_, id⟩
      have h := s.demand_move p .idle
      rw [hp] at h
      exact h.le
    | _ => exact ⟨(hmove _).le, id⟩

end Demand

/-! ## Which admissions are safe -/

/-- The invariant behind a safe admission: while operations are outstanding,
the header cannot grow to the limit. -/
def Reserves (size : ℕ) (s : LogState P) : Prop :=
  LogInv s ∧ OpsInv s ∧ (0 < s.outstanding → s.demand < size - 1)

theorem Reserves.of_reach {size : ℕ} {s : LogState P}
    (h : Machine.Reach (LogState.step size)
      (fun s a => s.WithinBudget a ∧ s.Reserved size a) .initial s) : Reserves size s := by
  refine h.invariant ⟨.initial, .initial, fun h => by cases h⟩ ?_
  rintro s ⟨p, a⟩ s' ⟨hlog, hops, hres⟩ ⟨hbudget, hsafe⟩ hstep
  refine ⟨hlog.step hstep, hops.step hlog hbudget hstep, fun hpos => ?_⟩
  rcases hops.demand_le hlog hbudget hstep with ⟨hle, hout⟩ | ⟨rfl, hadm, heq⟩
  · exact lt_of_le_of_lt hle (hres (hout hpos))
  · rw [heq]
    exact hsafe hadm

/-- **An unsafe admission ends in the panic**: from a state whose operations
may log up to the limit, they can do so, and one more call panics. -/
theorem exists_tooBig {size : ℕ} (hsize : size ≤ LOGSIZE + 1) {s : LogState P}
    (hlog : LogInv s) (hops : OpsInv s) (hpos : 0 < s.outstanding)
    (hdemand : size - 1 ≤ s.demand) :
    ∃ s' q b, Machine.Reach (LogState.step size) LogState.WithinBudget s s'
      ∧ s'.WithinBudget (q, .logWrite b) ∧ s'.step size (q, .logWrite b) = .panic .tooBig := by
  -- by induction on how many blocks the header is short of the limit
  generalize hk : size - 1 - s.lh.length = k
  induction k generalizing s with
  | zero =>
    -- at the limit any call panics, even for a block already logged
    obtain ⟨q, logged, hpc⟩ := hlog.exists_inOp hpos
    obtain ⟨b, hb⟩ : ∃ b, (insert b logged).card ≤ MAXOPBLOCKS := by
      rcases logged.eq_empty_or_nonempty with rfl | ⟨b, hb⟩
      · exact ⟨0, by decide⟩
      · exact ⟨b, by rw [insert_eq_of_mem hb]; exact hops.card_le q logged hpc⟩
    refine ⟨s, q, b, .refl, (LogState.withinBudget_logWrite hpc b).mpr hb, ?_⟩
    simp only [LogState.step, hpc]
    unfold LogState.logWrite
    rw [if_pos (Or.inr (by omega))]
  | succ k ih =>
    -- some operation has room left, and logs a block nobody has logged
    have hsum : ∑ q, (s.pc q).room ≠ 0 := by
      unfold LogState.demand at hdemand
      omega
    obtain ⟨q, -, hq⟩ := exists_ne_zero_of_sum_ne_zero hsum
    obtain ⟨logged, hpc⟩ : ∃ logged, s.pc q = .inOp logged := by
      cases hpc : s.pc q with
      | inOp logged => exact ⟨logged, rfl⟩
      | _ => rw [hpc] at hq; exact absurd rfl hq
    rw [hpc] at hq
    obtain ⟨b, hb⟩ := Infinite.exists_notMem_finset s.lh.toFinset
    rw [mem_toFinset] at hb
    have hbudget : (insert b logged).card ≤ MAXOPBLOCKS := by
      have h := card_insert_le b logged
      have hroom : MAXOPBLOCKS - logged.card ≠ 0 := hq
      omega
    have hwithin := (LogState.withinBudget_logWrite hpc b).mpr hbudget
    set s₁ := s.wrote q logged b
    have hstep : s.step size (q, .logWrite b) = .next s₁ := by
      simp only [LogState.step, hpc]
      unfold LogState.logWrite
      rw [if_neg (by omega), if_neg (by omega)]
    have hlen : s₁.lh.length = s.lh.length + 1 := by
      show (absorb s.lh b).length = _
      rw [absorb_of_notMem hb, length_append, length_singleton]
    obtain ⟨s', r, c, hreach, hc, hpanic⟩ := ih (hlog.step hstep)
      (hops.step hlog hwithin hstep) hpos
      ((hops.demand_logWrite hbudget hpc).2 hb ▸ hdemand) (by omega)
    exact ⟨s', r, c, .head ⟨_, hwithin, hstep⟩ hreach, hc, hpanic⟩

/-- **Exactly when the reservation is enough.** On a disk made by `mkfs`, with
any number of processes and any interleaving in which no operation logs more
than `MAXOPBLOCKS` distinct blocks: when every admission is safe – what the
operations may still log keeps the header below `log.size - 1` blocks –
`log_write` never panics with "too big a transaction"; and after any
admission that is not, the operations admitted can make it panic. -/
theorem log_write_too_big_iff :
    (∀ s : LogState P, Machine.Reach (LogState.step mkfsLog.size)
        (fun s a => s.WithinBudget a ∧ s.Reserved mkfsLog.size a) .initial s →
      ∀ p b, s.step mkfsLog.size (p, .logWrite b) ≠ .panic .tooBig)
    ∧ ∀ s : LogState P, Machine.Reach (LogState.step mkfsLog.size) LogState.WithinBudget
        .initial s →
      ∀ p s₁, s.step mkfsLog.size (p, .beginOp) = .next s₁ → s.Admits →
        ¬ s.Reserved mkfsLog.size (p, .beginOp) →
        ∃ s' q b, Machine.Reach (LogState.step mkfsLog.size) LogState.WithinBudget s₁ s'
          ∧ s'.WithinBudget (q, .logWrite b)
          ∧ s'.step mkfsLog.size (q, .logWrite b) = .panic .tooBig := by
  constructor
  · intro s hreach p b hpanic
    obtain ⟨hlog, hops, hres⟩ := Reserves.of_reach hreach
    simp only [LogState.step] at hpanic
    split at hpanic
    · rename_i logged hp
      have hlt := hres (hlog.pos_of_inOp hp)
      unfold LogState.demand at hlt
      have hsize : mkfsLog.size = LOGSIZE := rfl
      unfold LogState.logWrite at hpanic
      rw [if_neg (by omega)] at hpanic
      split at hpanic <;> cases hpanic
    · cases hpanic
  · intro s hreach p s₁ hstep hadm hunsafe
    have hlog := LogInv.of_reach hreach
    have hops := OpsInv.of_reach (fun _ _ h => h) hreach
    have hdemand : mkfsLog.size - 1 ≤ s.demand + MAXOPBLOCKS := by
      by_contra hlt
      exact hunsafe (fun _ => by omega)
    obtain ⟨hp, rfl⟩ : (s.pc p = .idle ∨ s.pc p = .beginOp) ∧ s₁ = s.beginOp p := by
      simpa using LogState.step_cases hstep
    have hbegin : s.beginOp p = { s.move p (.inOp ∅) with outstanding := s.outstanding + 1 } :=
      if_pos hadm
    have hin : (s.beginOp p).pc p = .inOp ∅ := by
      rw [hbegin]
      exact update_self _ _ _
    have heq : (s.beginOp p).demand = s.demand + MAXOPBLOCKS := by
      have hmove := s.demand_move p (.inOp ∅)
      rw [show (s.pc p).room = 0 by rcases hp with hp | hp <;> rw [hp] <;> rfl] at hmove
      rw [hbegin]
      exact hmove
    exact exists_tooBig (by decide) (hlog.step hstep)
      (hops.step (a := .beginOp) hlog trivial hstep) ((hlog.step hstep).pos_of_inOp hin)
      (heq ▸ hdemand)

/-- A safe admission on an empty log: the one operation admitted can log a
block. -/
theorem log_write_too_big_iff_one_op :
    ∃ s : LogState (Fin 1), Machine.Reach (LogState.step mkfsLog.size)
        (fun s a => s.WithinBudget a ∧ s.Reserved mkfsLog.size a) .initial s
      ∧ s.pc 0 = .inOp ∅ ∧ s.step mkfsLog.size (0, .logWrite 50) ≠ .panic .tooBig := by
  have hsafe : (LogState.initial : LogState (Fin 1)).Reserved mkfsLog.size (0, .beginOp) :=
    fun _ => by decide
  have h : Machine.Reach (LogState.step mkfsLog.size)
      (fun s a => s.WithinBudget a ∧ s.Reserved mkfsLog.size a)
      (LogState.initial : LogState (Fin 1)) (LogState.initial.beginOp 0) :=
    .single ⟨(0, .beginOp), ⟨trivial, hsafe⟩, rfl⟩
  exact ⟨_, h, rfl, log_write_too_big_iff.1 _ h 0 50⟩

/-- Three operations that overlap, two of them logging ten blocks of their
own and the third nine. -/
def threeFullOps : List (Fin 3 × LogAct) :=
  [(0, .beginOp), (1, .beginOp), (2, .beginOp)]
    ++ (List.range 10).flatMap (fun i => [(0, .logWrite (100 + i)), (1, .logWrite (200 + i))])
    ++ (List.range 9).map (fun i => (2, .logWrite (300 + i)))

/-- **The reservation is not always enough**: `begin_op` admits three
operations at once, and when each is to log ten distinct blocks the last
call of `log_write` panics. -/
theorem three_full_ops_too_big :
    ¬ ∀ s : LogState (Fin 3), Machine.Reach (LogState.step mkfsLog.size) LogState.WithinBudget
        .initial s →
      ∀ p b, s.WithinBudget (p, .logWrite b) →
        s.step mkfsLog.size (p, .logWrite b) ≠ .panic .tooBig := by
  intro hall
  have h : Machine.Reach (LogState.step mkfsLog.size) LogState.WithinBudget
      (LogState.initial : LogState (Fin 3)) _ := Machine.reach_of_run (l := threeFullOps) rfl
  exact hall _ h 2 309 (of_decide_eq_true rfl) rfl

end GroupCommit

end Xv6
