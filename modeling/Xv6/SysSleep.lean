import Mathlib

/-!
# Sleeping for some ticks

`sys_sleep` of `sysproc.c` and `clockintr` of `trap.c`. Both hold `tickslock` for all
of what they do, but that `sleep` gives it up while the process sleeps, and so a run
is a sequence of tests of the loop, ticks, wakeups and kills. The number of ticks is
compared with `n` as an unsigned one, and a negative `n` is then a long time
(`sys_sleep_exact_iff`).
-/

namespace Xv6.SysSleep

/-- Where the process is; while it sleeps or was woken it has read `ticks0`. -/
inductive Pc
  | start
  | asleep (ticks0 : BitVec 32)
  | awake (ticks0 : BitVec 32)
  | returned (r : ℤ)
  deriving DecidableEq

/-- The tick counter, the process, and how many ticks there were since it read
`ticks0`. -/
structure State where
  ticks : BitVec 32
  killed : Bool
  pc : Pc
  since : ℕ

/-- What happens while a process sleeps. -/
inductive Event
  | clockintr
  | wakeup
  | kill
  | run

/-- `wakeup` and `kill` make a process that sleeps runnable. -/
def Pc.wake : Pc → Pc
  | .asleep ticks0 => .awake ticks0
  | pc => pc

/-- The test of the loop, with `tickslock` held: `ticks - ticks0 < n` compares
unsigned numbers. -/
def test (n : BitVec 32) (s : State) (ticks0 : BitVec 32) : Pc :=
  if s.ticks - ticks0 < n then if s.killed then .returned (-1) else .asleep ticks0
  else .returned 0

/-- A step of `sys_sleep`, for `n` ticks. -/
def step (n : BitVec 32) (s : State) : Event → State
  | .clockintr => { s with ticks := s.ticks + 1, pc := s.pc.wake, since := s.since + 1 }
  | .wakeup => { s with pc := s.pc.wake }
  | .kill => { s with killed := true, pc := s.pc.wake }
  | .run =>
    match s.pc with
    | .start => { s with pc := test n s s.ticks, since := 0 }
    | .awake ticks0 => { s with pc := test n s ticks0 }
    | _ => s

/-- The ticks since `ticks0` was read, where the process runs: at the start it is
read now. -/
def State.elapsed? (s : State) : Option ℕ :=
  match s.pc with
  | .start => some 0
  | .awake _ => some s.since
  | _ => none

/-- **Sleep for `n` ticks.** Wherever the process runs, in any run, it returns 0 if at
least `n` ticks have passed, not otherwise, and -1 only if it was killed. -/
def SleepsExactly (n : BitVec 32) : Prop :=
  ∀ (ticks : BitVec 32) (killed : Bool) (events : List Event),
    let s := events.foldl (step n) ⟨ticks, killed, .start, 0⟩
    ∀ elapsed ∈ s.elapsed?, elapsed < 2 ^ 31 →
      ((step n s .run).pc = .returned 0 ↔ max n.toInt 0 ≤ elapsed)
      ∧ ((step n s .run).pc = .returned (-1) → s.killed = true)

/-- The value that a process in the loop has read. -/
def Pc.ticks0? : Pc → Option (BitVec 32)
  | .asleep ticks0 | .awake ticks0 => some ticks0
  | _ => none

@[simp] theorem Pc.wake_ticks0? (pc : Pc) : pc.wake.ticks0? = pc.ticks0? := by cases pc <;> rfl

/-- The counter is as many ticks after `ticks0` as there were. -/
def Counts (s : State) : Prop := ∀ ticks0 ∈ s.pc.ticks0?, s.ticks - ticks0 = .ofNat 32 s.since

variable {n : BitVec 32} {s : State} {ticks0 : BitVec 32}

theorem test_ticks0? {t : BitVec 32} (h : t ∈ (test n s ticks0).ticks0?) : t = ticks0 := by
  unfold test at h
  split at h
  · split at h <;> cases h
    rfl
  · cases h

theorem Counts.step (h : Counts s) (e : Event) : Counts (step n s e) := by
  intro t ht
  cases e with
  | clockintr =>
    have hold := h t (by simpa [SysSleep.step] using ht)
    show s.ticks + 1 - t = .ofNat 32 (s.since + 1)
    rw [BitVec.ofNat_add, ← hold]
    bv_omega
  | wakeup | kill => exact h t (by simpa [SysSleep.step] using ht)
  | run =>
    cases hpc : s.pc <;> simp only [SysSleep.step, hpc] at ht ⊢
    · rw [test_ticks0? ht, BitVec.sub_self]
    · exact h t (by rwa [hpc])
    · obtain rfl := test_ticks0? ht
      exact h t (by rw [hpc]; rfl)
    · exact h t (by rwa [hpc])

/-- The test compares the ticks with `n`, if `n` is not negative. -/
theorem test_exact (hn : 0 ≤ n.toInt) {elapsed : ℕ} (hlt : elapsed < 2 ^ 31)
    (hcount : s.ticks - ticks0 = .ofNat 32 elapsed) :
    (test n s ticks0 = .returned 0 ↔ max n.toInt 0 ≤ elapsed)
      ∧ (test n s ticks0 = .returned (-1) → s.killed = true) := by
  have hless : s.ticks - ticks0 < n ↔ ¬ max n.toInt 0 ≤ elapsed := by
    rw [hcount, BitVec.lt_def, BitVec.toNat_ofNat, Nat.mod_eq_of_lt (by omega)]
    rw [BitVec.toInt_eq_toNat_cond] at hn ⊢
    omega
  unfold test
  split
  · cases s.killed <;> simp_all
  · simp_all

/-- **`sleep(n)` waits for `n` ticks and no more, if and only if `n` is not
negative.** -/
theorem sys_sleep_exact_iff (n : BitVec 32) : SleepsExactly n ↔ 0 ≤ n.toInt := by
  constructor
  · intro h
    by_contra hneg
    have hstart := (h 0 false [] 0 rfl (by decide)).1.mpr (by simp; omega)
    have hn : n = 0 := by simpa [step, test] using hstart
    exact hneg (by rw [hn]; decide)
  · intro hn ticks killed events s elapsed helapsed hlt
    have hcounts : Counts s := by
      refine List.foldlRecOn events (step n) (motive := Counts) ?_ fun _ h e _ => h.step e
      exact fun _ h => nomatch h
    unfold State.elapsed? at helapsed
    split at helapsed <;> cases helapsed <;> rename_i hpc <;> simp only [step, hpc]
    · exact test_exact hn hlt (BitVec.sub_self _)
    · exact test_exact hn hlt (hcounts _ (by rw [hpc]; rfl))

/-- A process that calls `sleep(-1)` goes to sleep. -/
theorem sys_sleep_negative :
    (step (-1) ⟨0, false, .start, 0⟩ .run).pc = .asleep 0 ∧ ¬ SleepsExactly (-1) := by
  refine ⟨by decide, fun h => ?_⟩
  exact absurd ((h 0 false [] 0 rfl (by decide)).1.mpr (by decide)) (by decide)

end Xv6.SysSleep
