import Xv6.Machine
import Xv6.Proc

/-!
# Kernel threads, spin locks and the scheduler

Every process has a thread in the kernel, and every CPU runs `scheduler`,
which switches to a thread and is switched back to. This module is their
semantics, at the granularity of the single actions on locks: `acquire` and
`release` with the interrupts they turn off and on, `sleep`, `wakeup`,
`kill`, `yield`, the end of `exit`, `sched`, `swtch` and the loop of
`scheduler`.

What else a thread does is a parameter. A `Code` says which operation (`Op`)
the thread of a process does next, from a local state of type `L`, from what
it sees of the process table and of the shared data `D` (`View`), and from an
input of type `X` – a system call that a user makes, a memory that is full.
Sleep locks, pipes and `exit` and `wait` are such codes.

A thread is at some `Place`: in its code, or in one of the functions above,
which are given statement by statement. A CPU is in some `Mode`: in the loop
of `scheduler`, or in a thread. The lock of a process is taken by one of them
and released by the other; hence a lock records the CPU that holds it, as
`lk->cpu` does.
-/

open Function (update)

namespace Xv6

namespace Threads

/-- A spin lock: that of a process, or another one. -/
inductive SpinLock (n : ℕ) (K : Type) where
  | proc (p : Fin n)
  | other (k : K)
  deriving DecidableEq

/-- The entry of the process table, as far as scheduling goes. -/
structure Entry (C : Type) where
  state : ProcState
  chan : Option C
  killed : Bool
  pid : ℤ
  deriving DecidableEq

/-- What threads other than the scheduler tell apart of a state. -/
inductive Status where
  | unused
  | used
  /-- Sleeping, runnable or running. -/
  | live
  | zombie
  deriving DecidableEq

/-- The status of a process in a state. -/
def status : ProcState → Status
  | .UNUSED => .unused
  | .USED => .used
  | .SLEEPING | .RUNNABLE | .RUNNING => .live
  | .ZOMBIE => .zombie

/-- What the code of a thread sees. -/
structure View (n : ℕ) (D : Type) where
  status : Fin n → Status
  killed : Fin n → Bool
  pid : Fin n → ℤ
  data : D

/-- What the code of a thread can do. -/
inductive Op (n : ℕ) (K C D L : Type) where
  | acquire (lk : SpinLock n K) (next : L)
  | release (lk : SpinLock n K) (next : L)
  /-- Change the shared data. -/
  | act (f : D → D) (next : L)
  /-- `allocproc` takes an unused entry, whose thread will go on at `start`. -/
  | allocproc (q : Fin n) (pid : ℤ) (start : L) (f : D → D) (next : L)
  /-- The end of `fork`. -/
  | runnable (q : Fin n) (next : L)
  | freeproc (q : Fin n) (f : D → D) (next : L)
  /-- The process becomes a zombie. -/
  | zombie (f : D → D) (next : L)
  /-- The call of `sched` in `exit`, which does not return. -/
  | sched
  | sleep (c : C) (k : K) (next : L)
  | wakeup (c : C) (next : L)
  /-- `kill` goes on at `found` if it returns 0, and at `missing` if -1. -/
  | kill (pid : ℤ) (found missing : L)
  | yield (next : L)
  /-- `intr_on` and `intr_off`. -/
  | intr (on : Bool) (next : L)

/-- **The code of the threads**: what a process does next. -/
abbrev Code (n : ℕ) (K C D L X : Type) : Type :=
  Fin n → L → View n D → X → Option (Op n K C D L)

/-- Where the thread of a process is. -/
inductive Place (K C L : Type) where
  /-- In its code. -/
  | code (l : L)
  /-- In `sleep`, about to acquire `p->lock`. -/
  | sleepLock (c : C) (k : K) (l : L)
  /-- About to release `lk`. -/
  | sleepUnlock (c : C) (k : K) (l : L)
  /-- About to set `p->chan` and `p->state`. -/
  | sleepMark (c : C) (k : K) (l : L)
  /-- Back from `sched`, about to clear `p->chan`. -/
  | sleepTidy (c : C) (k : K) (l : L)
  /-- About to release `p->lock`. -/
  | sleepRelease (k : K) (l : L)
  /-- About to reacquire `lk`. -/
  | sleepRelock (k : K) (l : L)
  /-- In `yield`, about to acquire `p->lock`. -/
  | yieldLock (ret : Place K C L)
  /-- About to set `p->state`. -/
  | yieldMark (ret : Place K C L)
  /-- Back from `sched`, about to release `p->lock`. -/
  | yieldRelease (ret : Place K C L)
  /-- At the end of a trap, about to return with interrupts on. -/
  | trapReturn (ret : Place K C L)
  /-- At the beginning of `sched`. -/
  | sched (ret : Place K C L)
  /-- In `sched`, about to save the registers in `p->context`. -/
  | swtch (intena : Bool) (ret : Place K C L)
  /-- In `sched`, switched back to. -/
  | resume (intena : Bool) (ret : Place K C L)
  /-- In `wakeup`, at the entry of a process. -/
  | wakeup (c : C) (i : ℕ) (l : L)
  /-- With its lock. -/
  | wakeTest (c : C) (i : ℕ) (l : L)
  /-- About to release it. -/
  | wakeRelease (c : C) (i : ℕ) (l : L)
  /-- In `kill`, at the entry of a process. -/
  | kill (pid : ℤ) (i : ℕ) (found missing : L)
  /-- With its lock. -/
  | killTest (pid : ℤ) (i : ℕ) (found missing : L)
  /-- About to release it, after a match or not. -/
  | killRelease (hit : Bool) (pid : ℤ) (i : ℕ) (found missing : L)
  /-- In `forkret`, about to release `p->lock`. -/
  | forkret (l : L)
  /-- In `exit`, about to panic. -/
  | zombieExit
  deriving DecidableEq

/-- Where a CPU is in `scheduler`. -/
inductive Mode (n : ℕ) where
  /-- About to acquire the lock of the `i`-th process, or to begin again. -/
  | scan (i : ℕ)
  /-- With the lock, about to test the state. -/
  | test (p : Fin n)
  /-- About to load the registers from `p->context`. -/
  | load (p : Fin n)
  /-- In the thread of a process. -/
  | run (p : Fin n)
  /-- The registers are saved; about to load its own. -/
  | saved (p : Fin n)
  /-- Switched back to, about to clear `c->proc`. -/
  | back (p : Fin n)
  /-- About to release the lock. -/
  | next (p : Fin n)
  deriving DecidableEq

/-- The state of a CPU. -/
structure Cpu (n : ℕ) where
  mode : Mode n
  proc : Option (Fin n)
  noff : ℤ
  intena : Bool
  /-- Whether interrupts are on. -/
  intr : Bool
  deriving DecidableEq

/-- **The processes, the locks and the CPUs.** -/
structure State (n : ℕ) (H K C D L : Type) where
  entry : Fin n → Entry C
  data : D
  /-- The CPU that holds a lock. -/
  lock : SpinLock n K → Option H
  place : Fin n → Place K C L
  /-- Whether `p->context` holds the registers of the thread. -/
  saved : Fin n → Bool
  cpu : H → Cpu n

/-- The panics of the functions modelled here. -/
inductive Panic where
  /-- `acquire`. -/
  | acquire
  /-- `release`. -/
  | release
  /-- `pop_off - interruptible`. -/
  | popOffInterruptible
  /-- `pop_off`. -/
  | popOff
  /-- `sched p->lock`. -/
  | schedLock
  /-- `sched locks`. -/
  | schedLocks
  /-- `sched running`. -/
  | schedRunning
  /-- `sched interruptible`. -/
  | schedInterruptible
  /-- `zombie exit`. -/
  | zombieExit
  deriving DecidableEq

namespace State

variable {n : ℕ} {H K C D L : Type}

/-- What the code of the threads sees of a state. -/
def view (s : State n H K C D L) : View n D where
  status p := status (s.entry p).state
  killed p := (s.entry p).killed
  pid p := (s.entry p).pid
  data := s.data

/-- The thread of a process moves. -/
@[simps -fullyApplied]
def goto (s : State n H K C D L) (p : Fin n) (a : Place K C L) : State n H K C D L :=
  { s with place := update s.place p a }

/-- The entry of a process changes. -/
@[simps -fullyApplied]
def setEntry (s : State n H K C D L) (p : Fin n) (e : Entry C) : State n H K C D L :=
  { s with entry := update s.entry p e }

/-- A CPU changes. -/
@[simps -fullyApplied]
def setCpu [DecidableEq H] (s : State n H K C D L) (h : H) (c : Cpu n) : State n H K C D L :=
  { s with cpu := update s.cpu h c }

/-- A CPU goes on in another mode. -/
def setMode [DecidableEq H] (s : State n H K C D L) (h : H) (m : Mode n) :
    State n H K C D L :=
  s.setCpu h { s.cpu h with mode := m }

section Fields

variable [DecidableEq H] {s : State n H K C D L} {h : H} {m : Mode n}

@[simp] theorem setMode_entry : (s.setMode h m).entry = s.entry := rfl
@[simp] theorem setMode_lock : (s.setMode h m).lock = s.lock := rfl
@[simp] theorem setMode_place : (s.setMode h m).place = s.place := rfl
@[simp] theorem setMode_saved : (s.setMode h m).saved = s.saved := rfl
@[simp] theorem setMode_cpu :
    (s.setMode h m).cpu = update s.cpu h { s.cpu h with mode := m } := rfl

end Fields

end State

/-- `push_off`. -/
def Cpu.pushOff {n : ℕ} (c : Cpu n) : Cpu n :=
  { c with
    intr := false
    intena := if c.noff = 0 then c.intr else c.intena
    noff := c.noff + 1 }

/-- `pop_off`. -/
def Cpu.popOff {n : ℕ} (c : Cpu n) : Outcome (Cpu n) Panic :=
  if c.intr then .panic .popOffInterruptible
  else if c.noff < 1 then .panic .popOff
  else .next { c with noff := c.noff - 1, intr := decide (c.noff - 1 = 0) && c.intena }

namespace State

variable {n : ℕ} {H K C D L X : Type} [DecidableEq H] [DecidableEq K] [DecidableEq C]

/-- `acquire`, when it gets the lock. It spins as long as another CPU has
it. -/
def acquire (s : State n H K C D L) (h : H) (lk : SpinLock n K) :
    Outcome (State n H K C D L) Panic :=
  match s.lock lk with
  | none => .next { s.setCpu h (s.cpu h).pushOff with lock := update s.lock lk (some h) }
  | some h' => if h' = h then .panic .acquire else .disabled

/-- `release`. -/
def release (s : State n H K C D L) (h : H) (lk : SpinLock n K) :
    Outcome (State n H K C D L) Panic :=
  if s.lock lk = some h then
    (s.cpu h).popOff.map fun c =>
      { s.setCpu h c with lock := update s.lock lk none }
  else .panic .release

/-- The tests of `sched`, by the thread of a process. -/
def schedTests (s : State n H K C D L) (h : H) (p : Fin n) : Option Panic :=
  if s.lock (.proc p) ≠ some h then some .schedLock
  else if (s.cpu h).noff ≠ 1 then some .schedLocks
  else if (s.entry p).state = .RUNNING then some .schedRunning
  else if (s.cpu h).intr then some .schedInterruptible
  else none

/-- The body of the loop of `wakeup`, for one process. -/
def wakeOne (s : State n H K C D L) (c : C) (q : Fin n) : State n H K C D L :=
  if (s.entry q).state = .SLEEPING ∧ (s.entry q).chan = some c then
    s.setEntry q { s.entry q with state := .RUNNABLE }
  else s

/-- What `kill` does to the process it finds. -/
def killOne (s : State n H K C D L) (q : Fin n) : State n H K C D L :=
  s.setEntry q { s.entry q with
    killed := true
    state := if (s.entry q).state = .SLEEPING then .RUNNABLE else (s.entry q).state }

/-- **An operation of the code of a thread**, by the CPU it runs on. -/
def doOp (s : State n H K C D L) (h : H) (p : Fin n) :
    Op n K C D L → Outcome (State n H K C D L) Panic
  | .acquire lk l => (s.acquire h lk).map (·.goto p (.code l))
  | .release lk l => (s.release h lk).map (·.goto p (.code l))
  | .act f l => .next ({ s with data := f s.data }.goto p (.code l))
  | .allocproc q pid start f l =>
    .next ((({ s with data := f s.data, saved := update s.saved q true }.setEntry q
      { s.entry q with pid := pid, state := .USED }).goto q (.forkret start)).goto p (.code l))
  | .runnable q l =>
    .next ((s.setEntry q { s.entry q with state := .RUNNABLE }).goto p (.code l))
  | .freeproc q f l =>
    .next (({ s with data := f s.data }.setEntry q ⟨.UNUSED, none, false, 0⟩).goto p (.code l))
  | .zombie f l =>
    .next (({ s with data := f s.data }.setEntry p { s.entry p with state := .ZOMBIE }).goto p
      (.code l))
  | .sched => .next (s.goto p (.sched .zombieExit))
  | .sleep c k l => .next (s.goto p (.sleepLock c k l))
  | .wakeup c l => .next (s.goto p (.wakeup c 0 l))
  | .kill pid found missing => .next (s.goto p (.kill pid 0 found missing))
  | .yield l => .next (s.goto p (.yieldLock (.code l)))
  | .intr on l => .next ((s.setCpu h { s.cpu h with intr := on }).goto p (.code l))

/-- **The next action of the thread of a process**, by the CPU it runs on. -/
def threadStep (code : Code n K C D L X) (s : State n H K C D L) (h : H) (p : Fin n) (x : X) :
    Place K C L → Outcome (State n H K C D L) Panic
  | .code l =>
    match code p l s.view x with
    | some op => s.doOp h p op
    | none => .disabled
  | .sleepLock c k l => (s.acquire h (.proc p)).map (·.goto p (.sleepUnlock c k l))
  | .sleepUnlock c k l => (s.release h (.other k)).map (·.goto p (.sleepMark c k l))
  | .sleepMark c k l =>
    .next ((s.setEntry p { s.entry p with chan := some c, state := .SLEEPING }).goto p
      (.sched (.sleepTidy c k l)))
  | .sleepTidy _ k l =>
    .next ((s.setEntry p { s.entry p with chan := none }).goto p (.sleepRelease k l))
  | .sleepRelease k l => (s.release h (.proc p)).map (·.goto p (.sleepRelock k l))
  | .sleepRelock k l => (s.acquire h (.other k)).map (·.goto p (.code l))
  | .yieldLock ret => (s.acquire h (.proc p)).map (·.goto p (.yieldMark ret))
  | .yieldMark ret =>
    .next ((s.setEntry p { s.entry p with state := .RUNNABLE }).goto p
      (.sched (.yieldRelease ret)))
  | .yieldRelease ret => (s.release h (.proc p)).map (·.goto p ret)
  | .trapReturn ret => .next ((s.setCpu h { s.cpu h with intr := true }).goto p ret)
  | .sched ret =>
    match s.schedTests h p with
    | some e => .panic e
    | none => .next (s.goto p (.swtch (s.cpu h).intena ret))
  | .swtch intena ret =>
    .next (({ s with saved := update s.saved p true }.setMode h (.saved p)).goto p
      (.resume intena ret))
  | .resume intena ret => .next ((s.setCpu h { s.cpu h with intena := intena }).goto p ret)
  | .wakeup c i l =>
    if hi : i < n then
      if i = p then .next (s.goto p (.wakeup c (i + 1) l))
      else (s.acquire h (.proc ⟨i, hi⟩)).map (·.goto p (.wakeTest c i l))
    else .next (s.goto p (.code l))
  | .wakeTest c i l =>
    if hi : i < n then .next ((s.wakeOne c ⟨i, hi⟩).goto p (.wakeRelease c i l)) else .disabled
  | .wakeRelease c i l =>
    if hi : i < n then (s.release h (.proc ⟨i, hi⟩)).map (·.goto p (.wakeup c (i + 1) l))
    else .disabled
  | .kill pid i found missing =>
    if hi : i < n then (s.acquire h (.proc ⟨i, hi⟩)).map (·.goto p (.killTest pid i found missing))
    else .next (s.goto p (.code missing))
  | .killTest pid i found missing =>
    if hi : i < n then
      if (s.entry ⟨i, hi⟩).pid = pid then
        .next ((s.killOne ⟨i, hi⟩).goto p (.killRelease true pid i found missing))
      else .next (s.goto p (.killRelease false pid i found missing))
    else .disabled
  | .killRelease hit pid i found missing =>
    if hi : i < n then
      (s.release h (.proc ⟨i, hi⟩)).map
        (·.goto p (if hit then .code found else .kill pid (i + 1) found missing))
    else .disabled
  | .forkret l => (s.release h (.proc p)).map (·.goto p (.code l))
  | .zombieExit => .panic .zombieExit

section Loops

variable {code : Code n K C D L X} {s : State n H K C D L} {h : H} {p q : Fin n} {x : X} {c : C}
  {i : ℕ} {l found missing : L} {pid : ℤ}

theorem threadStep_wakeup_self :
    s.threadStep code h p x (.wakeup c p l) = .next (s.goto p (.wakeup c (p + 1) l)) := by
  simp [threadStep]

theorem threadStep_wakeup_other (hq : q ≠ p) :
    s.threadStep code h p x (.wakeup c q l)
      = (s.acquire h (.proc q)).map (·.goto p (.wakeTest c q l)) := by
  simp [threadStep, Fin.val_ne_of_ne hq]

theorem threadStep_wakeup_end (hi : n ≤ i) :
    s.threadStep code h p x (.wakeup c i l) = .next (s.goto p (.code l)) := by
  simp [threadStep, Nat.not_lt.mpr hi]

theorem threadStep_wakeTest :
    s.threadStep code h p x (.wakeTest c q l)
      = .next ((s.wakeOne c q).goto p (.wakeRelease c q l)) := by
  simp [threadStep]

theorem threadStep_wakeRelease :
    s.threadStep code h p x (.wakeRelease c q l)
      = (s.release h (.proc q)).map (·.goto p (.wakeup c (q + 1) l)) := by
  simp [threadStep]

theorem threadStep_kill :
    s.threadStep code h p x (.kill pid q found missing)
      = (s.acquire h (.proc q)).map (·.goto p (.killTest pid q found missing)) := by
  simp [threadStep]

theorem threadStep_kill_end (hi : n ≤ i) :
    s.threadStep code h p x (.kill pid i found missing) = .next (s.goto p (.code missing)) := by
  simp [threadStep, Nat.not_lt.mpr hi]

theorem threadStep_killTest :
    s.threadStep code h p x (.killTest pid q found missing)
      = if (s.entry q).pid = pid then
          .next ((s.killOne q).goto p (.killRelease true pid q found missing))
        else .next (s.goto p (.killRelease false pid q found missing)) := by
  simp [threadStep]

theorem threadStep_killRelease {hit : Bool} :
    s.threadStep code h p x (.killRelease hit pid q found missing)
      = (s.release h (.proc q)).map
          (·.goto p (if hit then .code found else .kill pid (q + 1) found missing)) := by
  simp [threadStep]

end Loops

/-- **The next action of a CPU.** -/
def cpuStep (code : Code n K C D L X) (s : State n H K C D L) (h : H) (x : X) :
    Outcome (State n H K C D L) Panic :=
  match (s.cpu h).mode with
  | .scan i =>
    if hi : i < n then (s.acquire h (.proc ⟨i, hi⟩)).map (·.setMode h (.test ⟨i, hi⟩))
    else .next ((s.setCpu h { s.cpu h with mode := .scan 0, intr := true }))
  | .test p =>
    if (s.entry p).state = .RUNNABLE then
      .next ((s.setEntry p { s.entry p with state := .RUNNING }).setCpu h
        { s.cpu h with mode := .load p, proc := some p })
    else .next (s.setMode h (.next p))
  | .load p => .next ({ s with saved := update s.saved p false }.setMode h (.run p))
  | .run p => s.threadStep code h p x (s.place p)
  | .saved p => .next (s.setMode h (.back p))
  | .back p => .next (s.setCpu h { s.cpu h with mode := .next p, proc := none })
  | .next p => (s.release h (.proc p)).map (·.setMode h (.scan (p + 1)))

end State

/-- What can happen next on a CPU. -/
inductive Act (X : Type) where
  | go (x : X)
  /-- A timer interrupt. -/
  | timer

/-- A timer interrupt, taken where interrupts are on: the thread of a process
that is running yields. -/
def State.timer {n : ℕ} {H K C D L : Type} [DecidableEq H] (s : State n H K C D L) (h : H) :
    Outcome (State n H K C D L) Panic :=
  match (s.cpu h).mode with
  | .run p =>
    if (s.cpu h).intr ∧ (s.entry p).state = .RUNNING then
      .next ((s.setCpu h { s.cpu h with intr := false }).goto p
        (.yieldLock (.trapReturn (s.place p))))
    else .disabled
  | _ => .disabled

/-- **The machine.** -/
def step {n : ℕ} {H K C D L X : Type} [DecidableEq H] [DecidableEq K] [DecidableEq C]
    (code : Code n K C D L X) (s : State n H K C D L) :
    H × Act X → Outcome (State n H K C D L) Panic
  | (h, .go x) => s.cpuStep code h x
  | (h, .timer) => s.timer h

/-- The machine before the first process is scheduled: some processes that can
run, given by their pids, and every CPU at the beginning of `scheduler`. After
`userinit` there is one process, of pid 1. -/
def boot {n : ℕ} {H K C D L : Type} (pid : Fin n → Option ℤ) (l : Fin n → L) (d : D) :
    State n H K C D L where
  entry := fun q =>
    match pid q with
    | some i => ⟨.RUNNABLE, none, false, i⟩
    | none => ⟨.UNUSED, none, false, 0⟩
  data := d
  lock := fun _ => none
  place := fun q => .forkret (l q)
  saved := fun _ => true
  cpu := fun _ => ⟨.scan n, none, 0, false, false⟩

/-- The pids after `userinit`. -/
def userinit {n : ℕ} (p : Fin n) : Fin n → Option ℤ := update (fun _ => none) p (some 1)

end Threads

end Xv6
