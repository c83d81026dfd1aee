import Xv6.Param
import Xv6.Wakeups

/-!
# `fork`, `exit` and `wait`

The lifecycle of processes as code of the threads: `fork` with `allocproc` and
`allocpid`, `exit` with `reparent`, and `wait` with `freeproc`, each by its
single actions on locks; beside them `kill`, and sleeping and waking up on
other channels. `wait_lock` is over the parents of processes, `pid_lock` over
`nextpid`, and the lock of a process over the rest of its entry.

Memory that is full and addresses that are bad come as inputs. The files and
the directory that `exit` gives up are left out, as is all of `fork` between
its allocations and the end of the critical section that they are in.

Beside what the kernel keeps, the shared data keep a history: how often
`allocpid` was called, which processes exited, and what `wait` returned.

This module has the code and what processes know of parents and states where
they are (`Knows`); `Xv6.ExitWait` has the protocol.
-/

open Function

namespace Xv6.Lifecycle

open Threads

/-- A process that has exited. -/
structure Exit where
  pid : ℤ
  status : ℤ
  deriving DecidableEq

/-- A child that `wait` has found: by whom, what it returned, and the parent of
the child at that time. -/
structure Reap (n : ℕ) where
  by_ : Fin n
  pid : ℤ
  status : ℤ
  parent : Option (Fin n)
  deriving DecidableEq

/-- **The shared data**: `p->parent` and `p->xstate` of every process,
`nextpid`, and the history. -/
structure Shared (n : ℕ) where
  parent : Fin n → Option (Fin n)
  xstate : Fin n → ℤ
  nextpid : ℤ
  /-- The number of calls of `allocpid`. -/
  allocs : ℕ
  exits : List Exit
  reaps : List (Reap n)

/-- Where a process is. -/
inductive Pc (n : ℕ) (B : Type) where
  | out
  /-- In `allocproc`, about to acquire the lock of the `i`-th entry. -/
  | scan (i : ℕ)
  /-- With the lock. -/
  | test (i : Fin n)
  /-- In `allocpid`. -/
  | allocpid (i : Fin n)
  /-- About to release `pid_lock`. -/
  | gotPid (i : Fin n) (pid : ℤ)
  /-- About to set the pid and the state. -/
  | found (i : Fin n) (pid : ℤ)
  /-- About to allocate memory. -/
  | memory (i : Fin n)
  /-- There was none; about to release the lock. -/
  | freed (i : Fin n)
  /-- In `fork`, about to release the lock of the child. -/
  | unlock (i : Fin n)
  /-- About to acquire `wait_lock`. -/
  | link (i : Fin n)
  /-- About to set the parent. -/
  | setParent (i : Fin n)
  /-- About to release `wait_lock`. -/
  | linked (i : Fin n)
  /-- About to acquire the lock of the child again. -/
  | lock (i : Fin n)
  /-- About to make it RUNNABLE. -/
  | run (i : Fin n)
  /-- About to release its lock. -/
  | forked (i : Fin n)
  /-- In `reparent`, at the `i`-th entry. -/
  | reparent (status : ℤ) (i : ℕ)
  /-- About to wake up `initproc`. -/
  | wakeInit (status : ℤ) (i : ℕ)
  /-- In `exit`, about to wake up the parent. -/
  | wakeParent (status : ℤ)
  /-- The parent is woken up; about to acquire `p->lock`. -/
  | dying (status : ℤ) (parent : Option (Fin n))
  /-- About to become a zombie. -/
  | mark (status : ℤ) (parent : Option (Fin n))
  /-- About to release `wait_lock`. -/
  | dead
  /-- About to call `sched`. -/
  | gone
  /-- In `wait`, at the `i`-th entry. -/
  | wait (i : ℕ) (havekids : Bool)
  /-- With the lock of a child. -/
  | child (i : Fin n)
  /-- About to release the lock of a child and to return. -/
  | reaped (i : Fin n)
  /-- About to release `wait_lock` and to return. -/
  | leave
  /-- About to sleep on another channel. -/
  | nap (b : B)
  /-- Back from it. -/
  | napped (b : B)
  deriving DecidableEq

/-- The locks other than those of processes. -/
inductive Lk (B : Type) where
  | wait
  | pid
  | other (b : B)
  deriving DecidableEq

/-- The channels: the address of a process, and others. -/
inductive Chan (n : ℕ) (B : Type) where
  | proc (p : Fin n)
  | other (b : B)
  deriving DecidableEq

/-- What a process can call. -/
inductive Call (n : ℕ) (B : Type) where
  | fork
  | exit (status : ℤ)
  | wait
  | kill (pid : ℤ)
  | sleep (b : B)
  | wakeup (c : Chan n B)
  | yield

/-- The call that a process makes, and whether memory is full or an address is
bad. -/
structure Input (n : ℕ) (B : Type) where
  call : Call n B
  fails : Bool

namespace Shared

variable {n : ℕ}

/-- `nextpid = nextpid + 1`, as an `int`. -/
def nextPid (d : Shared n) : Shared n :=
  { d with nextpid := int32 ((d.nextpid + 1) % 2 ^ 32).toNat, allocs := d.allocs + 1 }

/-- `np->parent = p` -/
def setParent (i : Fin n) (p : Fin n) (d : Shared n) : Shared n :=
  { d with parent := update d.parent i (some p) }

/-- What `freeproc` clears. -/
def free (i : Fin n) (d : Shared n) : Shared n :=
  { d with parent := update d.parent i none, xstate := update d.xstate i 0 }

/-- `p->xstate = status`, and the exit is recorded. -/
def exit (p : Fin n) (pid status : ℤ) (d : Shared n) : Shared n :=
  { d with xstate := update d.xstate p status, exits := d.exits ++ [⟨pid, status⟩] }

/-- `wait` has collected a child. -/
def reap (i : Fin n) (r : Reap n) (d : Shared n) : Shared n :=
  { d.free i with reaps := d.reaps ++ [r] }

end Shared

variable {n : ℕ} {B : Type}

/-- **The functions on the lifecycle of processes.** -/
def code (init : Fin n) : Code n (Lk B) (Chan n B) (Shared n) (Pc n B) (Input n B) :=
  fun p pc v x =>
    match pc with
    | .out =>
      match x.call with
      | .fork => some (.act id (.scan 0))
      | .exit status =>
        -- `exit` of `initproc` is a panic
        if p = init then none else some (.acquire (.other .wait) (.reparent status 0))
      | .wait => some (.acquire (.other .wait) (.wait 0 false))
      | .kill pid => some (.kill pid .out .out)
      | .sleep b => some (.acquire (.other (.other b)) (.nap b))
      | .wakeup c => some (.wakeup c .out)
      | .yield => some (.yield .out)
    | .scan i =>
      if h : i < n then some (.acquire (.proc ⟨i, h⟩) (.test ⟨i, h⟩)) else some (.act id .out)
    | .test i =>
      if v.status i = .unused then some (.acquire (.other .pid) (.allocpid i))
      else some (.release (.proc i) (.scan (i + 1)))
    | .allocpid i => some (.act Shared.nextPid (.gotPid i v.data.nextpid))
    | .gotPid i pid => some (.release (.other .pid) (.found i pid))
    | .found i pid => some (.allocproc i pid .out id (.memory i))
    | .memory i =>
      if x.fails then some (.freeproc i (Shared.free i) (.freed i)) else some (.act id (.unlock i))
    | .freed i => some (.release (.proc i) .out)
    | .unlock i => some (.release (.proc i) (.link i))
    | .link i => some (.acquire (.other .wait) (.setParent i))
    | .setParent i => some (.act (Shared.setParent i p) (.linked i))
    | .linked i => some (.release (.other .wait) (.lock i))
    | .lock i => some (.acquire (.proc i) (.run i))
    | .run i => some (.runnable i (.forked i))
    | .forked i => some (.release (.proc i) .out)
    | .reparent status i =>
      if h : i < n then
        if v.data.parent ⟨i, h⟩ = some p then
          some (.act (Shared.setParent ⟨i, h⟩ init) (.wakeInit status i))
        else some (.act id (.reparent status (i + 1)))
      else some (.act id (.wakeParent status))
    | .wakeInit status i => some (.wakeup (.proc init) (.reparent status (i + 1)))
    | .wakeParent status =>
      match v.data.parent p with
      | some r => some (.wakeup (.proc r) (.dying status (some r)))
      | none => some (.act id (.dying status none))
    | .dying status r => some (.acquire (.proc p) (.mark status r))
    | .mark status _ => some (.zombie (Shared.exit p (v.pid p) status) .dead)
    | .dead => some (.release (.other .wait) .gone)
    | .gone => some .sched
    | .wait i havekids =>
      if h : i < n then
        if v.data.parent ⟨i, h⟩ = some p then some (.acquire (.proc ⟨i, h⟩) (.child ⟨i, h⟩))
        else some (.act id (.wait (i + 1) havekids))
      else if havekids = false ∨ v.killed p = true then some (.release (.other .wait) .out)
      else some (.sleep (.proc p) .wait (.wait 0 false))
    | .child i =>
      if v.status i = .zombie then
        if x.fails then some (.act id (.reaped i))
        else
          some (.freeproc i
            (Shared.reap i ⟨p, v.pid i, v.data.xstate i, v.data.parent i⟩) (.reaped i))
      else some (.release (.proc i) (.wait (i + 1) true))
    | .reaped i => some (.release (.proc i) .leave)
    | .leave => some (.release (.other .wait) .out)
    | .nap b => some (.sleep (.other b) (.other b) (.napped b))
    | .napped b => some (.release (.other (.other b)) .out)

/-- The shared data after `userinit`. -/
def initial : Shared n where
  parent := fun _ => none
  xstate := fun _ => 0
  nextpid := 2
  allocs := 1
  exits := []
  reaps := []

/-- The locks that a process holds. -/
def holds [DecidableEq B] (p : Fin n) : Pc n B → Finset (SpinLock n (Lk B))
  | .out | .scan _ | .link _ | .lock _ => ∅
  | .test i | .found i _ | .memory i | .freed i | .unlock i | .run i | .forked i => {.proc i}
  | .allocpid i | .gotPid i _ => {.other .pid, .proc i}
  | .setParent _ | .linked _ | .reparent _ _ | .wakeInit _ _ | .wakeParent _ | .dying _ _
  | .wait _ _ | .leave => {.other .wait}
  | .mark _ _ | .dead => {.proc p, .other .wait}
  | .gone => {.proc p}
  | .child i | .reaped i => {.proc i, .other .wait}
  | .nap b | .napped b => {.other (.other b)}

/-! ## What the code does -/

/-- **What the code does**, read backwards. -/
inductive Does (init p : Fin n) (v : View n (Shared n)) :
    Pc n B → Op n (Lk B) (Chan n B) (Shared n) (Pc n B) → Prop
  | fork : Does init p v .out (.act id (.scan 0))
  | exit {status} (hinit : p ≠ init) :
    Does init p v .out (.acquire (.other .wait) (.reparent status 0))
  | wait : Does init p v .out (.acquire (.other .wait) (.wait 0 false))
  | kill {pid} : Does init p v .out (.kill pid .out .out)
  | sleep {b} : Does init p v .out (.acquire (.other (.other b)) (.nap b))
  | wakeup {c} : Does init p v .out (.wakeup c .out)
  | yield : Does init p v .out (.yield .out)
  | scan {i : Fin n} : Does init p v (.scan i) (.acquire (.proc i) (.test i))
  | full {i} : Does init p v (.scan i) (.act id .out)
  | unused {i} (hst : v.status i = .unused) :
    Does init p v (.test i) (.acquire (.other .pid) (.allocpid i))
  | inUse {i} : Does init p v (.test i) (.release (.proc i) (.scan (i + 1)))
  | allocpid {i} : Does init p v (.allocpid i) (.act Shared.nextPid (.gotPid i v.data.nextpid))
  | gotPid {i pid} : Does init p v (.gotPid i pid) (.release (.other .pid) (.found i pid))
  | alloc {i pid} : Does init p v (.found i pid) (.allocproc i pid .out id (.memory i))
  | noMemory {i} : Does init p v (.memory i) (.freeproc i (Shared.free i) (.freed i))
  | memory {i} : Does init p v (.memory i) (.act id (.unlock i))
  | freed {i} : Does init p v (.freed i) (.release (.proc i) .out)
  | unlock {i} : Does init p v (.unlock i) (.release (.proc i) (.link i))
  | link {i} : Does init p v (.link i) (.acquire (.other .wait) (.setParent i))
  | setParent {i} : Does init p v (.setParent i) (.act (Shared.setParent i p) (.linked i))
  | linked {i} : Does init p v (.linked i) (.release (.other .wait) (.lock i))
  | lock {i} : Does init p v (.lock i) (.acquire (.proc i) (.run i))
  | run {i} : Does init p v (.run i) (.runnable i (.forked i))
  | forked {i} : Does init p v (.forked i) (.release (.proc i) .out)
  | reparent {status} {i : Fin n} (hpar : v.data.parent i = some p) :
    Does init p v (.reparent status i) (.act (Shared.setParent i init) (.wakeInit status i))
  | notMine {status} {i : Fin n} (hpar : v.data.parent i ≠ some p) :
    Does init p v (.reparent status i) (.act id (.reparent status (i + 1)))
  | reparented {status i} (hi : n ≤ i) :
    Does init p v (.reparent status i) (.act id (.wakeParent status))
  | wakeInit {status i} :
    Does init p v (.wakeInit status i) (.wakeup (.proc init) (.reparent status (i + 1)))
  | wakeParent {status r} (hpar : v.data.parent p = some r) :
    Does init p v (.wakeParent status) (.wakeup (.proc r) (.dying status (some r)))
  | noParent {status} (hpar : v.data.parent p = none) :
    Does init p v (.wakeParent status) (.act id (.dying status none))
  | dying {status r} : Does init p v (.dying status r) (.acquire (.proc p) (.mark status r))
  | mark {status r} :
    Does init p v (.mark status r) (.zombie (Shared.exit p (v.pid p) status) .dead)
  | dead : Does init p v .dead (.release (.other .wait) .gone)
  | gone : Does init p v .gone .sched
  | mine {i : Fin n} {havekids} (hpar : v.data.parent i = some p) :
    Does init p v (.wait i havekids) (.acquire (.proc i) (.child i))
  | other {i : Fin n} {havekids} (hpar : v.data.parent i ≠ some p) :
    Does init p v (.wait i havekids) (.act id (.wait (i + 1) havekids))
  | giveUp {i havekids} (hi : n ≤ i) :
    Does init p v (.wait i havekids) (.release (.other .wait) .out)
  | sleepWait {i} (hi : n ≤ i) :
    Does init p v (.wait i true) (.sleep (.proc p) .wait (.wait 0 false))
  | badAddress {i} : Does init p v (.child i) (.act id (.reaped i))
  | reap {i} (hst : v.status i = .zombie) :
    Does init p v (.child i) (.freeproc i
      (Shared.reap i ⟨p, v.pid i, v.data.xstate i, v.data.parent i⟩) (.reaped i))
  | alive {i} (hst : v.status i ≠ .zombie) :
    Does init p v (.child i) (.release (.proc i) (.wait (i + 1) true))
  | reaped {i} : Does init p v (.reaped i) (.release (.proc i) .leave)
  | leave : Does init p v .leave (.release (.other .wait) .out)
  | nap {b} : Does init p v (.nap b) (.sleep (.other b) (.other b) (.napped b))
  | napped {b} : Does init p v (.napped b) (.release (.other (.other b)) .out)

variable {init p : Fin n} {pc : Pc n B} {v : View n (Shared n)} {x : Input n B}
  {op : Op n (Lk B) (Chan n B) (Shared n) (Pc n B)}

theorem code_does (hop : code init p pc v x = some op) : Does init p v pc op := by
  revert hop
  fun_cases code init p pc v x <;> rintro ⟨⟩
  -- The loops carry their index as a number; below `n` it is the slot that the code looks at.
  all_goals first
    | grind [Does]
    | exact .scan (i := ⟨_, ‹_›⟩)
    | exact .reparent (i := ⟨_, ‹_›⟩) ‹_›
    | exact .notMine (i := ⟨_, ‹_›⟩) ‹_›
    | exact .mine (i := ⟨_, ‹_›⟩) ‹_›
    | exact .other (i := ⟨_, ‹_›⟩) ‹_›

theorem disciplined [DecidableEq B] (init : Fin n) :
    Disciplined (holds (n := n) (B := B)) (code init) := by
  intro p pc v x op hop
  cases code_does hop with
  | dead =>
    refine ⟨by simp [holds], ?_⟩
    simp [holds, Finset.erase_insert_of_ne]
  | _ => simp [OpOk, holds, Finset.erase_insert_eq_erase, Finset.erase_eq_of_notMem]

/-! ## What processes know -/

/-- The states of the threads. -/
abbrev Procs (n : ℕ) (B : Type) : Type := Mon n (Lk B) (Chan n B) (Shared n) (Pc n B)

/-- **What a process knows** of states and parents where it is. -/
def Knows (init p : Fin n) (v : View n (Shared n)) : Pc n B → Prop
  | .allocpid i | .gotPid i _ | .found i _ => v.status i = .unused
  | .memory i | .unlock i | .link i | .setParent i =>
    v.status i = .used ∧ v.data.parent i = none
  | .linked i | .lock i | .run i => v.status i = .used ∧ v.data.parent i = some p
  | .reparent _ i => p ≠ init ∧ ∀ j : Fin n, (j : ℕ) < i → v.data.parent j ≠ some p
  | .wakeInit _ i => p ≠ init ∧ ∀ j : Fin n, (j : ℕ) ≤ i → v.data.parent j ≠ some p
  | .wakeParent _ => p ≠ init ∧ ∀ j, v.data.parent j ≠ some p
  | .dying _ r | .mark _ r =>
    p ≠ init ∧ (∀ j, v.data.parent j ≠ some p) ∧ v.data.parent p = r
  | .dead | .gone => v.status p = .zombie
  | .wait i havekids => ∀ j : Fin n, (j : ℕ) < i → v.data.parent j = some p →
    v.status j ≠ .zombie ∧ havekids = true
  | .child i => v.data.parent i = some p ∧
    ∀ j, j < i → v.data.parent j = some p → v.status j ≠ .zombie
  | .out | .scan _ | .test _ | .freed _ | .forked _ | .reaped _ | .leave | .nap _
  | .napped _ => True

/-- The child that a process is setting up. -/
def Pc.kid : Pc n B → Option (Fin n)
  | .memory i | .unlock i | .link i | .setParent i | .linked i | .lock i | .run i => some i
  | _ => none

/-- **Parents.** -/
structure Parents (init : Fin n) (st : Fin n → Status) (par : Fin n → Option (Fin n)) : Prop where
  parent : ∀ q r, par q = some r → st r = .live
  child : ∀ q, q ≠ init → st q = .live ∨ st q = .zombie → ∃ r, par q = some r
  unused : ∀ q, st q = .unused → par q = none
  init_live : st init = .live
  init_parent : par init = none

namespace Parents

variable {st : Fin n → Status} {par : Fin n → Option (Fin n)} {i : Fin n}

/-- A state changes. -/
theorem setStatus (hP : Parents init st par) {a : Status}
    (hi : st i ≠ .live ∨ i ≠ init ∧ ∀ q, par q ≠ some i)
    (hchild : a = .live ∨ a = .zombie → ∃ r, par i = some r) (ha : a ≠ .unused) :
    Parents init (update st i a) par := by
  have hinit : init ≠ i := by
    rintro rfl
    rcases hi with h | ⟨h, -⟩
    · exact h hP.init_live
    · exact h rfl
  refine ⟨fun q r h => ?_, fun q hq h => ?_, fun q h => ?_, ?_, hP.init_parent⟩
  · have hr : r ≠ i := by
      rintro rfl
      rcases hi with hne | ⟨-, hne⟩
      · exact hne (hP.parent q r h)
      · exact hne q h
    rw [update_of_ne hr]
    exact hP.parent q r h
  · by_cases hqi : q = i
    · subst hqi
      exact hchild (by simpa using h)
    · exact hP.child q hq (by simpa [hqi] using h)
  · by_cases hqi : q = i
    · subst hqi
      exact absurd (by simpa using h) ha
    · exact hP.unused q (by simpa [hqi] using h)
  · rw [update_of_ne hinit]
    exact hP.init_live

/-- A process gets a parent that is live. -/
theorem setParent (hP : Parents init st par) {r : Fin n} (hr : st r = .live)
    (hi : ¬ (st i = .unused ∨ i = init)) : Parents init st (update par i (some r)) := by
  rw [not_or] at hi
  refine ⟨fun q r' h => ?_, fun q hq h => ?_, fun q h => ?_, hP.init_live, ?_⟩
  · by_cases hqi : q = i
    · subst hqi
      rw [update_self] at h
      exact Option.some.inj h ▸ hr
    · exact hP.parent q r' (by simpa [hqi] using h)
  · by_cases hqi : q = i
    · subst hqi
      exact ⟨r, update_self q _ _⟩
    · rw [update_of_ne hqi]
      exact hP.child q hq h
  · have hqi : q ≠ i := by
      rintro rfl
      exact hi.1 h
    rw [update_of_ne hqi]
    exact hP.unused q h
  · rw [update_of_ne (Ne.symm hi.2)]
    exact hP.init_parent

/-- `freeproc` of a process that is not live. -/
theorem free (hP : Parents init st par) (hi : st i ≠ .live) :
    Parents init (update st i .unused) (update par i none) := by
  have hinit : init ≠ i := by
    rintro rfl
    exact hi hP.init_live
  refine ⟨fun q r h => ?_, fun q hq h => ?_, fun q h => ?_, ?_, ?_⟩
  · have hqi : q ≠ i := by
      rintro rfl
      simp at h
    rw [update_of_ne hqi] at h
    have hr : r ≠ i := by
      rintro rfl
      exact hi (hP.parent q r h)
    rw [update_of_ne hr]
    exact hP.parent q r h
  · have hqi : q ≠ i := by
      rintro rfl
      simp at h
    rw [update_of_ne hqi] at h ⊢
    exact hP.child q hq h
  · by_cases hqi : q = i
    · rw [hqi, update_self]
    · rw [update_of_ne hqi] at h ⊢
      exact hP.unused q h
  · rw [update_of_ne hinit]
    exact hP.init_live
  · rw [update_of_ne hinit]
    exact hP.init_parent

end Parents

/-- **States and parents of processes.** -/
structure Family (init : Fin n) (m : Procs n B) : Prop extends
    Parents init m.view.status m.view.data.parent where
  knows : ∀ p pc, m.labels p = some pc → Knows init p m.view pc
  kid : ∀ p q pc pc' i, m.labels p = some pc → m.labels q = some pc' → pc.kid = some i →
    pc'.kid = some i → p = q
  used : ∀ q, m.view.status q = .used → m.labels q = some .out
  zombie : ∀ q pc, m.view.status q = .zombie → m.labels q = some pc → pc = .dead ∨ pc = .gone

section Changes

variable {m m' : Procs n B} {q : Fin n} {pc' : Pc n B} {v' : View n (Shared n)} {c : Chan n B}
  {k : Lk B}

/-- **What a step changes** of states and parents, and what makes it safe. -/
inductive Change [DecidableEq B] (init : Fin n) (m : Procs n B) (p : Fin n) (pc : Pc n B)
    (v' : View n (Shared n)) : Prop
  | same (hst : v'.status = m.view.status) (hpar : v'.data.parent = m.view.data.parent)
  | alloc {i pid} (hpc : pc = .found i pid) (hi : m.view.status i = .unused)
      (hst : v'.status = update m.view.status i .used)
      (hpar : v'.data.parent = m.view.data.parent)
  | free {i} (hkid : pc.kid = some i) (hi : m.view.status i = .used)
      (hi' : m.view.data.parent i = none)
      (hst : v'.status = update m.view.status i .unused)
      (hpar : v'.data.parent = update m.view.data.parent i none)
  | setParent {i} (hkid : pc.kid = some i) (hi : m.view.status i = .used)
      (hi' : m.view.data.parent i = none) (hp : m.view.status p = .live)
      (hst : v'.status = m.view.status)
      (hpar : v'.data.parent = update m.view.data.parent i (some p))
  | run {i} (hkid : pc.kid = some i) (hi : m.view.status i = .used)
      (hi' : m.view.data.parent i = some p)
      (hst : v'.status = update m.view.status i .live)
      (hpar : v'.data.parent = m.view.data.parent)
  | reparent {i} (hlock : .other .wait ∈ holds p pc) (hi : m.view.data.parent i = some p)
      (hst : v'.status = m.view.status)
      (hpar : v'.data.parent = update m.view.data.parent i (some init))
  | zombie {status r} (hpc : pc = .mark status r) (hinit : p ≠ init)
      (hnone : ∀ j, m.view.data.parent j ≠ some p) (hp : m.view.status p = .live)
      (hst : v'.status = update m.view.status p .zombie)
      (hpar : v'.data.parent = m.view.data.parent)
  | reap {i} (hlock : .proc i ∈ holds p pc) (hwait : .other .wait ∈ holds p pc)
      (hi : m.view.status i = .zombie)
      (hst : v'.status = update m.view.status i .unused)
      (hpar : v'.data.parent = update m.view.data.parent i none)

/-- The entry that a process is setting up, from the test on. -/
def Pc.entry : Pc n B → Option (Fin n)
  | .allocpid i | .gotPid i _ | .found i _ | .memory i | .unlock i | .link i | .setParent i
  | .linked i | .lock i | .run i => some i
  | _ => none

/-- Where a process looks for its children with `wait_lock`, in `exit` or in
`wait`. -/
def Pc.Looks : Pc n B → Prop
  | .reparent _ _ | .wakeInit _ _ | .wakeParent _ | .dying _ _ | .mark _ _ | .child _ => True
  | .wait i _ => i ≠ 0
  | _ => False

/-- What a process knows, after a change elsewhere. -/
theorem Knows.mono (h : Knows init p v pc)
    (hentry : ∀ i, pc.entry = some i →
      v'.status i = v.status i ∧ v'.data.parent i = v.data.parent i)
    (hdead : pc = .dead ∨ pc = .gone → v'.status p = v.status p)
    (hlooks : pc.Looks → v'.data.parent p = v.data.parent p ∧ ∀ j,
      (v'.data.parent j = some p ↔ v.data.parent j = some p) ∧
      (v'.status j = .zombie → v.status j = .zombie)) : Knows init p v' pc := by
  cases pc with
  | allocpid i | gotPid i | found i =>
    obtain ⟨hst, -⟩ := hentry i rfl
    exact hst.trans h
  | memory i | unlock i | link i | setParent i | linked i | lock i | run i =>
    obtain ⟨hst, hpar⟩ := hentry i rfl
    exact ⟨hst.trans h.1, hpar.trans h.2⟩
  | reparent status i | wakeInit status i =>
    exact ⟨h.1, fun j hj hpar => h.2 j hj (((hlooks trivial).2 j).1.mp hpar)⟩
  | wakeParent status => exact ⟨h.1, fun j hpar => h.2 j (((hlooks trivial).2 j).1.mp hpar)⟩
  | dying status r | mark status r =>
    obtain ⟨hp, hlooks⟩ := hlooks trivial
    exact ⟨h.1, fun j hpar => h.2.1 j ((hlooks j).1.mp hpar), hp.trans h.2.2⟩
  | dead => exact (hdead (Or.inl rfl)).trans h
  | gone => exact (hdead (Or.inr rfl)).trans h
  | wait i havekids =>
    intro j hj hpar
    obtain ⟨-, hlooks⟩ := hlooks (Nat.ne_zero_of_lt hj)
    obtain ⟨hst, hkids⟩ := h j hj ((hlooks j).1.mp hpar)
    exact ⟨fun hz => hst ((hlooks j).2 hz), hkids⟩
  | child i =>
    obtain ⟨-, hlooks⟩ := hlooks trivial
    exact ⟨(hlooks i).1.mpr h.1,
      fun j hj hpar hz => h.2 j hj ((hlooks j).1.mp hpar) ((hlooks j).2 hz)⟩
  | _ => trivial

/-- An entry is set up under its lock until it is USED, and by one process then. -/
theorem Knows.entry [DecidableEq B] (h : Knows init p v pc) {i : Fin n} (hi : pc.entry = some i) :
    v.status i = .unused ∧ (∀ [DecidableEq B], .proc i ∈ holds p pc) ∨
      v.status i = .used ∧ pc.kid = some i ∧ ∀ r, r ≠ p → v.data.parent i ≠ some r := by
  cases pc with
  | allocpid | gotPid | found =>
    cases hi
    exact Or.inl ⟨h, by simp [holds]⟩
  | memory | unlock | link | setParent =>
    cases hi
    refine Or.inr ⟨h.1, rfl, fun r _ => ?_⟩
    rw [h.2]
    exact nofun
  | linked | lock | run =>
    cases hi
    refine Or.inr ⟨h.1, rfl, fun r hr => ?_⟩
    rw [h.2]
    exact fun h => hr (Option.some.inj h).symm
  | _ => nomatch hi

theorem Knows.kid (h : Knows init p v pc) {i : Fin n} (hi : pc.kid = some i) :
    v.status i = .used := by
  cases pc with
  | memory | unlock | link | setParent | linked | lock | run =>
    cases hi
    exact h.1
  | _ => nomatch hi

theorem Pc.Looks.wait_lock [DecidableEq B] (h : pc.Looks) : .other .wait ∈ holds p pc := by
  cases pc with
  | reparent | wakeInit | wakeParent | dying | mark | child | wait => simp [holds]
  | _ => exact h.elim

variable (hF : Family init m)

include hF in
theorem Family.live (hcan : m.CanRun p) (hl : m.labels p = some pc) (hd : pc ≠ .dead)
    (hg : pc ≠ .gone) : m.view.status p = .live := by
  rcases hcan with h | ⟨h, -⟩
  · exact h
  · rcases hF.zombie p pc h hl with h | h
    · exact absurd h hd
    · exact absurd h hg

include hF in
/-- **Every operation is such a change.** -/
theorem Family.change [DecidableEq B] (hp : m.post p = .code pc) (hcan : m.CanRun p)
    (hop : code init p pc m.view x = some op) : Change init m p pc (op.apply p m.view) := by
  have hl := Mon.labels_of_code hp
  have hknow := hF.knows p pc hl
  cases code_does hop with
  | @alloc i pid => exact .alloc (i := i) rfl hknow rfl rfl
  | @noMemory i => exact .free (i := i) rfl hknow.1 hknow.2 rfl rfl
  | @setParent i =>
    exact .setParent (i := i) rfl hknow.1 hknow.2 (hF.live hcan hl (by simp) (by simp)) rfl rfl
  | @run i => exact .run (i := i) rfl hknow.1 hknow.2 rfl rfl
  | @reparent status i hpar => exact .reparent (i := i) (by simp [holds]) hpar rfl rfl
  | @mark status r =>
    exact .zombie rfl hknow.1 hknow.2.1 (hF.live hcan hl (by simp) (by simp)) rfl rfl
  | @reap i hst => exact .reap (i := i) (by simp [holds]) (by simp [holds]) hst rfl rfl
  | _ => exact .same rfl rfl

theorem sleep_labels (h : Occurs (code init) p (.sleep c k pc)) :
    pc = .wait 0 false ∨ ∃ b : B, pc = .napped b := by
  obtain ⟨pc₀, v, x, hop⟩ := h
  cases code_does hop with
  | sleepWait => exact Or.inl rfl
  | nap => exact Or.inr ⟨_, rfl⟩

theorem locks_eq [DecidableEq B] (hsrc : Sourced (code init) m) (hl : m.labels p = some pc)
    (hw : pc ≠ .wait 0 false) (hn : ∀ b, pc ≠ .napped b) :
    (m.post p).locks holds p = holds p pc := by
  refine hsrc.locks_eq hl (fun c k h => ?_)
  rcases sleep_labels h with h | ⟨b, h⟩
  · exact hw h
  · exact hn b h

include hF in
/-- **What another process knows stays true.** -/
theorem Family.knows_other [DecidableEq B] (ho : Owners holds m) (hsrc : Sourced (code init) m)
    (hp : m.post p = .code pc) (hq : q ≠ p) (hlq : m.labels q = some pc')
    (hch : Change init m p pc v') : Knows init q v' pc' := by
  have hl := Mon.labels_of_code hp
  have hknow := hF.knows q pc' hlq
  -- two processes do not hold the same lock, nor set up the same child
  have hlock : ∀ lk, lk ∈ holds p pc → pc' ≠ .wait 0 false → (∀ b, pc' ≠ .napped b) →
      lk ∉ holds q pc' := by
    intro lk hlk hw hn hlk'
    refine hq (ho.unique (k := lk) ?_ ?_)
    · rw [locks_eq hsrc hlq hw hn]
      exact hlk'
    · rw [hp]
      exact hlk
  have hkid : ∀ i, pc.kid = some i → pc'.kid ≠ some i := fun i h h' =>
    hq (hF.kid q p pc' pc i hlq hl h' h)
  -- so that an entry which is being set up is not the one that changes
  have hentry : ∀ i i', pc'.entry = some i' → m.view.status i = .unused ∧ .proc i ∈ holds p pc ∨
      m.view.status i = .used ∧ pc.kid = some i ∨ m.view.status i = .live ∨
      m.view.status i = .zombie → i' ≠ i := by
    rintro i i' he hi rfl
    rcases hknow.entry he with ⟨hun, hmem⟩ | ⟨hus, hk, -⟩
    · rcases hi with ⟨-, h⟩ | ⟨h, -⟩ | h | h
      · exact hlock _ h (fun h => by rw [h] at he; exact nomatch he)
          (fun b h => by rw [h] at he; exact nomatch he) hmem
      all_goals rw [hun] at h; nomatch h
    · rcases hi with ⟨h, -⟩ | ⟨-, h⟩ | h | h
      · rw [hus] at h
        nomatch h
      · exact hkid i' h hk
      all_goals rw [hus] at h; nomatch h
  have hdead : pc' = .dead ∨ pc' = .gone → m.view.status q = .zombie := by
    rintro (rfl | rfl) <;> exact hknow
  have hlooks : .other .wait ∈ holds p pc → ¬ pc'.Looks := fun h hlk =>
    hlock _ h (fun h => by rw [h] at hlk; exact hlk rfl) (fun b h => by rw [h] at hlk; exact hlk)
      hlk.wait_lock
  have hused : pc'.Looks → m.view.status q ≠ .used := fun hlk hst => by
    rw [hF.used q hst] at hlq
    cases hlq
    exact hlk.elim
  -- an entry that is no zombie gets another status
  have hset : ∀ {i : Fin n} {st : Status}, (∀ i', pc'.entry = some i' → i' ≠ i) →
      m.view.status i ≠ .zombie → st ≠ .zombie → v'.status = update m.view.status i st →
      v'.data.parent = m.view.data.parent → Knows init q v' pc' := by
    intro i st he hi hne hst hpar
    refine hknow.mono (fun i' he' => ?_) (fun hd => ?_) (fun hlk => ⟨by rw [hpar], fun j => ?_⟩)
    · simp [hst, hpar, he i' he']
    · have hne : q ≠ i := by
        rintro rfl
        exact hi (hdead hd)
      simp [hst, hne]
    · refine ⟨by rw [hpar], fun hz => ?_⟩
      rw [hst] at hz
      by_cases hj : j = i
      · rw [hj, update_self] at hz
        exact absurd hz hne
      · rwa [update_of_ne hj] at hz
  cases hch with
  | same hst hpar =>
    refine hknow.mono (fun i _ => ?_) (fun _ => by rw [hst]) (fun _ => ⟨by rw [hpar], fun j => ?_⟩)
    · rw [hst, hpar]
      exact ⟨rfl, rfl⟩
    · rw [hst, hpar]
      exact ⟨Iff.rfl, id⟩
  | @alloc i pid hpc hun hst hpar =>
    exact hset (fun i' he => hentry i i' he (Or.inl ⟨hun, by simp [hpc, holds]⟩))
      (by simp [hun]) (by simp) hst hpar
  | @free i hk hus hnone hst hpar =>
    rw [← hnone, update_eq_self] at hpar
    exact hset (fun i' he => hentry i i' he (Or.inr (Or.inl ⟨hus, hk⟩))) (by simp [hus])
      (by simp) hst hpar
  | @setParent i hk hus hnone hlive hst hpar =>
    refine hknow.mono (fun i' he => ?_) (fun hd => by rw [hst])
      (fun hlk => ⟨?_, fun j => ⟨?_, by rw [hst]; exact id⟩⟩)
    · simp [hst, hpar, hentry i i' he (Or.inr (Or.inl ⟨hus, hk⟩))]
    · have hne : q ≠ i := by
        rintro rfl
        exact hused hlk hus
      simp [hpar, hne]
    · by_cases hj : j = i
      · simp [hpar, hj, hnone, Ne.symm hq]
      · simp [hpar, hj]
  | @run i hk hus hsome hst hpar =>
    exact hset (fun i' he => hentry i i' he (Or.inr (Or.inl ⟨hus, hk⟩))) (by simp [hus])
      (by simp) hst hpar
  | @reparent i hw hi hst hpar =>
    refine hknow.mono (fun i' he => ?_) (fun hd => by rw [hst]) (fun hlk => absurd hlk (hlooks hw))
    have hne : i' ≠ i := by
      rintro rfl
      rcases hknow.entry he with ⟨hun, -⟩ | ⟨-, -, hother⟩
      · rw [hF.unused i' hun] at hi
        nomatch hi
      · exact hother p (Ne.symm hq) hi
    simp [hst, hpar, hne]
  | zombie hpc hinit hnone hlive hst hpar =>
    refine hknow.mono (fun i' he => ?_) (fun hd => by simp [hst, hq])
      (fun hlk => absurd hlk (hlooks (by simp [hpc, holds])))
    simp [hst, hpar, hentry p i' he (Or.inr (Or.inr (Or.inl hlive)))]
  | @reap i hi hw hz hst hpar =>
    refine hknow.mono (fun i' he => ?_) (fun hd => ?_) (fun hlk => absurd hlk (hlooks hw))
    · simp [hst, hpar, hentry i i' he (Or.inr (Or.inr (Or.inr hz)))]
    · have hne : q ≠ i := by
        rintro rfl
        rcases hd with rfl | rfl <;> exact hlock _ hi (by simp) (by simp) (by simp [holds])
      simp [hst, hne]

include hF in
/-- **What a process knows where it goes.** -/
theorem Family.knows_next (hp : m.post p = .code pc)
    (hop : code init p pc m.view x = some op) (htarget : op.target = some pc') :
    Knows init p (op.apply p m.view) pc' := by
  have hl := Mon.labels_of_code hp
  have hknow := hF.knows p pc hl
  cases code_does hop with
  | exit hinit =>
    cases htarget
    exact ⟨hinit, fun j hj => absurd hj (Nat.not_lt_zero _)⟩
  | wait | sleepWait =>
    cases htarget
    exact fun j hj => absurd hj (Nat.not_lt_zero _)
  | unused hst =>
    cases htarget
    exact hst
  | allocpid | gotPid | memory | unlock | link | linked | lock | dying | dead =>
    cases htarget
    exact hknow
  | @alloc i pid =>
    cases htarget
    exact ⟨by simp [Op.apply], hF.unused i hknow⟩
  | @setParent i =>
    cases htarget
    exact ⟨hknow.1, by simp [Op.apply, Shared.setParent]⟩
  | @reparent status i hpar =>
    cases htarget
    refine ⟨hknow.1, fun j hj => ?_⟩
    by_cases hji : j = i
    · simp [Op.apply, Shared.setParent, hji, Ne.symm hknow.1]
    · have hlt : (j : ℕ) < i := lt_of_le_of_ne hj (Fin.val_ne_of_ne hji)
      simpa [Op.apply, Shared.setParent, hji] using hknow.2 j hlt
  | @notMine status i hpar =>
    cases htarget
    refine ⟨hknow.1, fun j hj => ?_⟩
    by_cases hji : j = i
    · rw [hji]
      exact hpar
    · exact hknow.2 j (lt_of_le_of_ne (Nat.lt_succ_iff.mp hj) (Fin.val_ne_of_ne hji))
  | reparented hi =>
    cases htarget
    exact ⟨hknow.1, fun j => hknow.2 j (j.isLt.trans_le hi)⟩
  | wakeInit =>
    cases htarget
    exact ⟨hknow.1, fun j hj => hknow.2 j (Nat.lt_succ_iff.mp hj)⟩
  | wakeParent hpar | noParent hpar =>
    cases htarget
    exact ⟨hknow.1, hknow.2, hpar⟩
  | mark =>
    cases htarget
    exact update_self p _ _
  | @mine i havekids hpar =>
    cases htarget
    exact ⟨hpar, fun j hj hj' => (hknow j hj hj').1⟩
  | @other i havekids hpar =>
    cases htarget
    intro j hj hj'
    have hji : j ≠ i := by
      rintro rfl
      exact hpar hj'
    exact hknow j (lt_of_le_of_ne (Nat.lt_succ_iff.mp hj) (Fin.val_ne_of_ne hji)) hj'
  | @alive i hst =>
    cases htarget
    intro j hj hj'
    refine ⟨?_, rfl⟩
    by_cases hji : j = i
    · rw [hji]
      exact hst
    · exact hknow.2 j (lt_of_le_of_ne (Fin.le_def.mpr (Nat.lt_succ_iff.mp hj)) hji) hj'
  | gone => nomatch htarget
  | _ =>
    cases htarget
    trivial

/-- A process other than the one that moves is where it was, or new. -/
theorem labels_other {pc₀ : Pc n B} (hop : code init p pc₀ m.view x = some op)
    (hnew : ∀ q pid start f l', op = .allocproc q pid start f l' →
      q ≠ p ∧ m.view.status q = .unused)
    (hlab : m'.labels = update (op.spawnLabels m.labels) p (some pc')) (hq : q ≠ p)
    (hlq : m'.labels q = some pc) :
    m.labels q = some pc ∨ pc = .out ∧ m.view.status q = .unused := by
  rw [hlab, update_of_ne hq] at hlq
  cases op with
  | allocproc i pid start f l =>
    by_cases hqi : q = i
    · subst hqi
      simp only [Op.spawnLabels, update_self] at hlq
      refine Or.inr ⟨?_, (hnew q pid start f l rfl).2⟩
      cases code_does hop with
      | alloc => exact (Option.some.inj hlq).symm
    · simp only [Op.spawnLabels, update_of_ne hqi] at hlq
      exact Or.inl hlq
  | _ => exact Or.inl hlq

theorem kid_target (hop : code init p pc v x = some op) (htarget : op.target = some pc') {i : Fin n}
    (hi : pc'.kid = some i) : pc.kid = some i ∨ ∃ pid, pc = .found i pid := by
  cases code_does hop with
  | @alloc i' pid =>
    cases htarget
    cases hi
    exact Or.inr ⟨pid, rfl⟩
  | memory | unlock | link | setParent | linked | lock =>
    cases htarget
    exact Or.inl hi
  | gone => nomatch htarget
  | _ =>
    cases htarget
    nomatch hi

/-- **Parents after a change.** -/
theorem Parents.change [DecidableEq B] (hP : Parents init m.view.status m.view.data.parent)
    (hch : Change init m p pc v') : Parents init v'.status v'.data.parent := by
  cases hch with
  | same hst hpar =>
    rw [hst, hpar]
    exact hP
  | alloc hpc hun hst hpar =>
    rw [hst, hpar]
    exact hP.setStatus (Or.inl (by simp [hun])) (by simp) (by simp)
  | @free i hk hus hnone hst hpar =>
    rw [hst, hpar]
    exact hP.free (by simp [hus])
  | @setParent i hk hus hnone hlive hst hpar =>
    rw [hst, hpar]
    refine hP.setParent hlive (fun h => ?_)
    rcases h with h | rfl
    · exact nomatch hus.symm.trans h
    · exact nomatch hus.symm.trans hP.init_live
  | @run i hk hus hsome hst hpar =>
    rw [hst, hpar]
    exact hP.setStatus (Or.inl (by simp [hus])) (fun _ => ⟨p, hsome⟩) (by simp)
  | @reparent i hw hi hst hpar =>
    rw [hst, hpar]
    refine hP.setParent hP.init_live (fun h => ?_)
    rcases h with h | rfl
    · exact nomatch (hP.unused i h).symm.trans hi
    · exact nomatch hP.init_parent.symm.trans hi
  | zombie hpc hinit hnone hlive hst hpar =>
    rw [hst, hpar]
    exact hP.setStatus (Or.inr ⟨hinit, hnone⟩) (fun _ => hP.child p hinit (Or.inl hlive)) (by simp)
  | @reap i hi hw hz hst hpar =>
    rw [hst, hpar]
    exact hP.free (by simp [hz])

/-- A process is USED once it is allocated. -/
theorem Change.used [DecidableEq B] (hch : Change init m p pc v') (h : v'.status q = .used) :
    m.view.status q = .used ∨ ∃ pid, pc = .found q pid := by
  cases hch with
  | same hst | setParent _ _ _ _ hst | reparent _ _ hst =>
    rw [hst] at h
    exact Or.inl h
  | @alloc i pid hpc hun hst =>
    by_cases hq : q = i
    · rw [hq]
      exact Or.inr ⟨pid, hpc⟩
    · exact Or.inl (by simpa [hst, hq] using h)
  | @free i _ hi _ hst | @run i _ hi _ hst | @reap i _ _ hi hst =>
    by_cases hq : q = i
    · simp [hst, hq] at h
    · exact Or.inl (by simpa [hst, hq] using h)
  | zombie _ _ _ _ hst =>
    by_cases hq : q = p
    · simp [hst, hq] at h
    · exact Or.inl (by simpa [hst, hq] using h)

/-- A process is a zombie once it has exited. -/
theorem Change.dead [DecidableEq B] (hch : Change init m p pc v') (h : v'.status q = .zombie) :
    m.view.status q = .zombie ∨ q = p ∧ ∃ status r, pc = .mark status r := by
  cases hch with
  | same hst | setParent _ _ _ _ hst | reparent _ _ hst =>
    rw [hst] at h
    exact Or.inl h
  | @alloc i _ _ hi hst | @free i _ hi _ hst | @run i _ hi _ hst | @reap i _ _ hi hst =>
    by_cases hq : q = i
    · simp [hst, hq] at h
    · exact Or.inl (by simpa [hst, hq] using h)
  | @zombie status r hpc _ _ _ hst =>
    by_cases hq : q = p
    · exact Or.inr ⟨hq, status, r, hpc⟩
    · exact Or.inl (by simpa [hst, hq] using h)

include hF in
/-- Nothing of it changes. -/
theorem Family.same (hst : m'.view.status = m.view.status)
    (hpar : m'.view.data.parent = m.view.data.parent)
    (hlab : ∀ q pc, m'.labels q = some pc → m.labels q = some pc)
    (hused : ∀ q, m.view.status q = .used → m'.labels q = m.labels q) : Family init m' where
  parent := by rw [hst, hpar]; exact hF.parent
  child := by rw [hst, hpar]; exact hF.child
  unused := by rw [hst, hpar]; exact hF.unused
  init_live := by rw [hst]; exact hF.init_live
  init_parent := by rw [hpar]; exact hF.init_parent
  knows q pc h := by
    refine (hF.knows q pc (hlab q pc h)).mono (fun i _ => ?_) (fun _ => by rw [hst])
      (fun _ => ⟨by rw [hpar], fun j => ?_⟩)
    · rw [hst, hpar]
      exact ⟨rfl, rfl⟩
    · rw [hst, hpar]
      exact ⟨Iff.rfl, id⟩
  kid q r pc pc' i hq hr := hF.kid q r pc pc' i (hlab q pc hq) (hlab r pc' hr)
  used q h := by
    rw [hst] at h
    rw [hused q h]
    exact hF.used q h
  zombie q pc h hq := by
    rw [hst] at h
    exact hF.zombie q pc h (hlab q pc hq)

include hF in
/-- **Every step keeps states and parents.** -/
theorem Family.step [DecidableEq B] (ho : Owners holds m) (hsrc : Sourced (code init) m)
    (hstep : Relabels (code init) m p x m') : Family init m' := by
  cases hstep with
  | @op pc op pc' hp hrun hop htarget hnew hview hlab =>
    have hl := Mon.labels_of_code hp
    have hch := hF.change hp hrun hop
    rw [← hview] at hch
    have hknow := hF.knows_next hp hop htarget
    rw [← hview] at hknow
    have hother : ∀ q pcq, q ≠ p → m'.labels q = some pcq →
        m.labels q = some pcq ∨ pcq = .out ∧ m.view.status q = .unused :=
      fun q pcq hq hlq => labels_other hop hnew hlab hq hlq
    have hself : m'.labels p = some pc' := by rw [hlab, update_self]
    refine ⟨Parents.change hF.toParents hch, fun q pcq hlq => ?_,
      fun q r pcq pcr i hq hr hi hi' => ?_,
      fun q hst => ?_, fun q pcq hst hlq => ?_⟩
    · by_cases hq : q = p
      · rw [hq, hself] at hlq
        cases hlq
        rw [hq]
        exact hknow
      · rcases hother q pcq hq hlq with hlq | ⟨rfl, -⟩
        · exact hF.knows_other ho hsrc hp hq hlq hch
        · trivial
    · -- a child that is allocated is nobody's child yet
      have hmix : ∀ r pcr, r ≠ p → m'.labels r = some pcr → pcr.kid = some i →
          pc'.kid ≠ some i := by
        intro r pcr hr hlr hir hip
        rcases hother r pcr hr hlr with hlr | ⟨rfl, -⟩
        · rcases kid_target hop htarget hip with h | ⟨pid, rfl⟩
          · exact hr (hF.kid r p pcr pc i hlr hl hir h)
          · exact nomatch (hF.knows p _ hl).symm.trans ((hF.knows r pcr hlr).kid hir)
        · nomatch hir
      by_cases hqp : q = p
      · by_cases hrp : r = p
        · rw [hqp, hrp]
        · rw [hqp, hself] at hq
          cases hq
          exact absurd hi (hmix r pcr hrp hr hi')
      · by_cases hrp : r = p
        · rw [hrp, hself] at hr
          cases hr
          exact absurd hi' (hmix q pcq hqp hq hi)
        · rcases hother q pcq hqp hq with hq | ⟨rfl, -⟩
          · rcases hother r pcr hrp hr with hr | ⟨rfl, -⟩
            · exact hF.kid q r pcq pcr i hq hr hi hi'
            · nomatch hi'
          · nomatch hi
    · rcases hch.used hst with hst | ⟨pid, rfl⟩
      · have hqp : q ≠ p := by
          rintro rfl
          rcases hrun with h | ⟨h, -⟩ <;> exact nomatch hst.symm.trans h
        rw [hlab, update_of_ne hqp, ← hF.used q hst]
        cases op with
        | allocproc i pid start f l =>
          have hqi : q ≠ i := by
            rintro rfl
            exact nomatch hst.symm.trans (hnew q pid start f l rfl).2
          exact update_of_ne hqi _ _
        | _ => rfl
      · cases code_does hop with
        | alloc =>
          rw [hlab, update_of_ne (hnew _ _ _ _ _ rfl).1]
          exact update_self q _ _
    · rcases hch.dead hst with hst | ⟨rfl, status, r, rfl⟩
      · by_cases hqp : q = p
        · subst hqp
          rw [hself] at hlq
          cases hlq
          rcases hF.zombie q pc hst hl with rfl | rfl
          · cases code_does hop with
            | dead => exact Or.inr (Option.some.inj htarget).symm
          · cases code_does hop with
            | gone => nomatch htarget
        · rcases hother q pcq hqp hlq with hlq | ⟨-, hun⟩
          · exact hF.zombie q pcq hst hlq
          · exact nomatch hst.symm.trans hun
      · cases code_does hop with
        | mark =>
          rw [hself] at hlq
          exact Or.inl ((Option.some.inj hlq).symm.trans (Option.some.inj htarget).symm)
  | @sched pc hp hrun hop hview hlab =>
    have hl := Mon.labels_of_code hp
    have hknow := hF.knows p pc hl
    cases code_does hop with
    | gone =>
      refine hF.same (by rw [hview]) (by rw [hview]) (fun q pc h => ?_) (fun q hst => ?_)
      · rw [hlab] at h
        by_cases hqp : q = p
        · simp [hqp] at h
        · rwa [update_of_ne hqp] at h
      · have hqp : q ≠ p := by
          rintro rfl
          exact nomatch hst.symm.trans hknow
        rw [hlab, update_of_ne hqp]
  | quiet hview hlab =>
    refine hF.same (by rw [hview]) (by rw [hview]) (fun q pc h => ?_) (fun q _ => by rw [hlab])
    rw [← hlab]
    exact h

include hF in
/-- **Processes are in the states that the rules ask for.** -/
theorem Family.status_rule (hp : m.post p = .code pc) (hcan : m.CanRun p)
    (hop : code init p pc m.view x = some op) : StatusRule m p op := by
  have hl := Mon.labels_of_code hp
  have hknow := hF.knows p pc hl
  have hlive := hF.live hcan hl
  cases code_does hop with
  | inUse | freed | unlock | forked | alive | reaped =>
    intro _ hz
    exact nomatch (hlive (by simp) (by simp)).symm.trans hz
  | gotPid | linked | dead | giveUp | leave | napped => exact nofun
  | alloc => exact hknow
  | run => exact hknow.1
  | gone => exact hknow
  | @noMemory i =>
    refine ⟨?_, Or.inl hknow.1⟩
    rintro rfl
    exact nomatch (hlive (by simp) (by simp)).symm.trans hknow.1
  | @reap i hz =>
    refine ⟨?_, Or.inr hz⟩
    rintro rfl
    exact nomatch (hlive (by simp) (by simp)).symm.trans hz
  | _ => trivial

end Changes

theorem Family.boot (init : Fin n) :
    Family init (Mon.boot (userinit init) (fun _ => .out) initial : Procs n B) where
  parent q r h := by cases h
  child q hq h := by simp [Mon.boot, userinit, hq] at h
  unused q _ := rfl
  init_live := by simp [Mon.boot, userinit]
  init_parent := rfl
  knows p pc h := by
    cases h
    trivial
  kid p q pc pc' i h := by
    cases h
    rintro ⟨⟩ ⟨⟩
  used q _ := rfl
  zombie q pc h := by
    simp only [Mon.boot] at h
    split at h <;> cases h

theorem heedless (init : Fin n) : Heedless (code (B := B) init) := by
  rintro p pid found missing ⟨pc, v, x, hop⟩
  cases code_does hop with
  | kill => rfl

end Xv6.Lifecycle
