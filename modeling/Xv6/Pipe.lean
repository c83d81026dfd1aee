import Xv6.RingQueue
import Xv6.Wakeups

/-!
# Pipes

`pipewrite`, `piperead` and `pipeclose` as code of the threads, for one pipe
and any number of processes. A process has descriptors for the ends of the
pipe, duplicates and closes them (`filedup`, `fileclose`), and reads and
writes through them; the last close of an end is the one that calls
`pipeclose`.

Of the bytes that a process writes, and of the addresses to which it reads,
a call says which are bad (`fault`), and `copyin` or `copyout` fails there.

Beside the pipe the shared data keep a history, which the code never looks at:
the bytes put into the pipe, each with the call that put it; the bytes taken
out; and the calls that have returned.
-/

open Function

namespace Xv6.Pipes

open Threads

/-- `PIPESIZE`. -/
def PIPESIZE : ℕ := 512

/-- `struct pipe`, apart from its lock. -/
structure Pipe where
  data : Fin PIPESIZE → UInt8
  nread : UInt32
  nwrite : UInt32
  readopen : Bool
  writeopen : Bool

namespace Pipe

/-- The place of a byte in the ring. -/
def slot (x : UInt32) : Fin PIPESIZE := ⟨x.toNat % PIPESIZE, Nat.mod_lt _ (by decide)⟩

/-- The test of `pipewrite`. -/
def full (pi : Pipe) : Bool := decide (pi.nwrite = pi.nread + 512)

/-- The test of `piperead`. -/
def empty (pi : Pipe) : Bool := decide (pi.nread = pi.nwrite)

/-- A byte is put into the ring. -/
def put (pi : Pipe) (b : UInt8) : Pipe :=
  { pi with data := update pi.data (slot pi.nwrite) b, nwrite := pi.nwrite + 1 }

/-- The next byte to be read. -/
def front (pi : Pipe) : UInt8 := pi.data (slot pi.nread)

/-- A byte is taken out. -/
def take (pi : Pipe) : Pipe := { pi with nread := pi.nread + 1 }

/-- An end is closed; `true` is the end for writing. -/
def shut (pi : Pipe) : Bool → Pipe
  | true => { pi with writeopen := false }
  | false => { pi with readopen := false }

/-- Whether an end is open. -/
def isOpen (pi : Pipe) : Bool → Bool
  | true => pi.writeopen
  | false => pi.readopen

end Pipe

/-! ## The ring -/

instance : NeZero PIPESIZE := ⟨by decide⟩

/-- What there is to read. -/
def Pipe.unread (pi : Pipe) : List UInt8 :=
  RingQueue.contents pi.data pi.nread.toBitVec pi.nwrite.toBitVec

theorem length_unread (pi : Pipe) : pi.unread.length = (pi.nwrite - pi.nread).toNat :=
  RingQueue.length_contents ..

theorem empty_iff_unread {pi : Pipe} : pi.empty = true ↔ pi.unread = [] := by
  rw [Pipe.empty, decide_eq_true_iff, ← List.length_eq_zero_iff, length_unread]
  constructor
  · intro h
    rw [h, UInt32.sub_self]
    rfl
  · intro h
    exact (sub_eq_zero.mp (UInt32.toNat_inj.mp h)).symm

theorem unread_cons {pi : Pipe} (h : pi.empty = false) :
    pi.unread = pi.front :: pi.take.unread := by
  have hne : pi.nread.toBitVec ≠ pi.nwrite.toBitVec := by
    intro heq
    rw [Pipe.empty, UInt32.toBitVec_inj.mp heq] at h
    simp at h
  exact RingQueue.contents_pop pi.data hne

theorem length_unread_lt {pi : Pipe} (hle : pi.unread.length ≤ PIPESIZE) (h : pi.full = false) :
    pi.unread.length < PIPESIZE := by
  refine lt_of_le_of_ne hle (fun heq => ?_)
  rw [length_unread] at heq
  have hsub : pi.nwrite - pi.nread = 512 := UInt32.toNat_inj.mp heq
  rw [Pipe.full, ← hsub, add_sub_cancel] at h
  simp at h

/-- **A byte is put** behind those that wait to be read. -/
theorem unread_put {pi : Pipe} (hlt : pi.unread.length < PIPESIZE) (b : UInt8) :
    (pi.put b).unread = pi.unread ++ [b] := by
  rw [length_unread] at hlt
  have hN : PIPESIZE ∣ 2 ^ 32 := by decide
  have hroom : (pi.nwrite.toBitVec - pi.nread.toBitVec).toNat + 1 < 2 ^ 32 :=
    lt_of_le_of_lt (Nat.succ_le_of_lt hlt) (by decide)
  have hpush := RingQueue.contents_push (update pi.data (Pipe.slot pi.nwrite) b) hroom
  refine hpush.trans (congrArg₂ _ ?_ ?_)
  · exact RingQueue.contents_write hN pi.data hlt b
  · exact congrArg (fun b => [b]) (update_self ..)

/-- A call of `pipewrite`: the bytes to be written, and where `copyin` fails. -/
structure Write where
  bytes : List UInt8
  fault : Option ℕ
  deriving DecidableEq

/-- A call of `piperead`: the number of bytes asked for, and where `copyout`
fails. -/
structure Read where
  n : ℤ
  fault : Option ℕ
  deriving DecidableEq

/-- A `pipewrite` that has returned the number of bytes it put. -/
structure Written (n : ℕ) where
  proc : Fin n
  /-- The number of earlier calls by the process. -/
  call : ℕ
  args : Write
  ret : ℕ

/-- A `piperead` that has returned bytes, and whether it left the pipe empty
and closed for writing. -/
structure Got where
  args : Read
  bytes : List UInt8
  drained : Bool

/-- **The shared data**: the pipe, the references to the files of its ends, and
the history. -/
structure Shared (n : ℕ) where
  pipe : Pipe
  ref : Bool → ℕ
  /-- Whether the page of the pipe has been freed. -/
  freed : Bool
  enq : List ((Fin n × ℕ) × UInt8)
  deq : List UInt8
  writes : List (Written n)
  reads : List Got

/-- Where a process is. -/
inductive Pc where
  | out
  /-- In `pipewrite`, at the head of the loop; `new` if it has put bytes since
  it last woke up the readers. -/
  | write (c : Write) (i : ℕ) (new : Bool)
  /-- The pipe is full and the readers are woken up; about to sleep. -/
  | full (c : Write) (i : ℕ)
  /-- About to copy a byte in. -/
  | put (c : Write) (i : ℕ) (new : Bool)
  /-- The readers are woken up; about to return. -/
  | wrote (c : Write) (i : ℕ)
  /-- In `piperead`, at the head of the first loop. -/
  | read (c : Read)
  /-- At the head of the second one. -/
  | copy (c : Read) (got : List UInt8)
  /-- After a byte that could not be copied out. -/
  | copied (c : Read) (got : List UInt8)
  /-- The writers are woken up; about to return. -/
  | gave (c : Read) (got : List UInt8)
  /-- About to release the lock of the pipe. -/
  | unlock
  /-- In `fileclose`, about to drop a reference. -/
  | drop (w : Bool)
  /-- In `filedup`, about to add a reference. -/
  | dup (w : Bool)
  /-- About to release the lock of the file table. -/
  | dropped
  /-- The same, after the last reference was dropped. -/
  | last (w : Bool)
  /-- At the beginning of `pipeclose`. -/
  | close (w : Bool)
  /-- About to close the end. -/
  | shut (w : Bool)
  /-- About to wake up the processes at the other end. -/
  | shutWake (w : Bool)
  /-- About to see whether both ends are closed. -/
  | shutTest
  /-- About to free the page. -/
  | free
  deriving DecidableEq

/-- The local state of a process: how many descriptors it has for each end, and
how many calls of `pipewrite` it has made. -/
structure Local where
  fds : Bool → ℕ
  calls : ℕ
  pc : Pc

/-- What a process can call. -/
inductive Call where
  | write (c : Write)
  | read (c : Read)
  | close (w : Bool)
  | dup (w : Bool)
  | kill (pid : ℤ)
  | yield

/-- The locks. -/
inductive Lk where
  | pipe
  | ftable
  deriving DecidableEq

/-- The channels: the addresses of the two counters. -/
inductive Chan where
  | nread
  | nwrite
  deriving DecidableEq

namespace Shared

variable {n : ℕ}

/-- A byte is put into the pipe, by a call of a process. -/
def put (tag : Fin n × ℕ) (b : UInt8) (d : Shared n) : Shared n :=
  { d with pipe := d.pipe.put b, enq := d.enq ++ [(tag, b)] }

/-- A byte is taken out. -/
def take (d : Shared n) : Shared n :=
  { d with pipe := d.pipe.take, deq := d.deq ++ [d.pipe.front] }

/-- A `pipewrite` returns. -/
def wrote (p : Fin n) (call : ℕ) (c : Write) (i : ℕ) (d : Shared n) : Shared n :=
  { d with writes := d.writes ++ [⟨p, call, c, i⟩] }

/-- A `piperead` returns. -/
def gave (c : Read) (got : List UInt8) (d : Shared n) : Shared n :=
  { d with reads := d.reads ++ [⟨c, got, d.pipe.empty && !d.pipe.writeopen⟩] }

/-- Set how many descriptors an end has. -/
def setRef (w : Bool) (r : ℕ) (d : Shared n) : Shared n :=
  { d with ref := update d.ref w r }

/-- Close an end. -/
def shut (w : Bool) (d : Shared n) : Shared n := { d with pipe := d.pipe.shut w }

/-- Free the page of the pipe. -/
def free (d : Shared n) : Shared n := { d with freed := true }

end Shared

/-- The channel on which the processes at the other end sleep. -/
def otherChan : Bool → Chan
  | true => .nread
  | false => .nwrite

variable {n : ℕ}

/-- **The functions on pipes.** -/
def code : Code n Lk Chan (Shared n) Local Call := fun p l v x =>
  match l.pc with
  | .out =>
    match x with
    | .write c =>
      if 0 < l.fds true then some (.acquire (.other .pipe) { l with pc := .write c 0 false })
      else none
    | .read c =>
      if 0 < l.fds false then some (.acquire (.other .pipe) { l with pc := .read c }) else none
    | .close w =>
      if 0 < l.fds w then some (.acquire (.other .ftable) { l with pc := .drop w }) else none
    | .dup w =>
      if 0 < l.fds w then some (.acquire (.other .ftable) { l with pc := .dup w }) else none
    | .kill pid => some (.kill pid l l)
    | .yield => some (.yield l)
  | .write c i new =>
    if i < c.bytes.length then
      if v.data.pipe.readopen = false ∨ v.killed p = true then
        -- return -1
        some (.release (.other .pipe) { l with calls := l.calls + 1, pc := .out })
      else if v.data.pipe.full then some (.wakeup .nread { l with pc := .full c i })
      else some (.act id { l with pc := .put c i new })
    else some (.wakeup .nread { l with pc := .wrote c i })
  | .full c i => some (.sleep .nwrite .pipe { l with pc := .write c i false })
  | .put c i _ =>
    if c.fault = some i then some (.wakeup .nread { l with pc := .wrote c i })
    else some (.act (Shared.put (p, l.calls) (c.bytes.getD i 0))
      { l with pc := .write c (i + 1) true })
  | .wrote c i =>
    some (.act (Shared.wrote p l.calls c i) { l with calls := l.calls + 1, pc := .unlock })
  | .read c =>
    if v.data.pipe.empty = true ∧ v.data.pipe.writeopen = true then
      if v.killed p then some (.release (.other .pipe) { l with pc := .out })
      else some (.sleep .nread .pipe l)
    else some (.act id { l with pc := .copy c [] })
  | .copy c got =>
    if (got.length : ℤ) < c.n ∧ v.data.pipe.empty = false then
      if c.fault = some got.length then some (.act Shared.take { l with pc := .copied c got })
      else some (.act Shared.take { l with pc := .copy c (got ++ [v.data.pipe.front]) })
    else some (.wakeup .nwrite { l with pc := .gave c got })
  | .copied c got => some (.wakeup .nwrite { l with pc := .gave c got })
  | .gave c got => some (.act (Shared.gave c got) { l with pc := .unlock })
  | .unlock => some (.release (.other .pipe) { l with pc := .out })
  | .drop w =>
    some (.act (Shared.setRef w (v.data.ref w - 1))
      { l with
        fds := update l.fds w (l.fds w - 1)
        pc := if 1 < v.data.ref w then .dropped else .last w })
  | .dup w =>
    some (.act (Shared.setRef w (v.data.ref w + 1))
      { l with fds := update l.fds w (l.fds w + 1), pc := .dropped })
  | .dropped => some (.release (.other .ftable) { l with pc := .out })
  | .last w => some (.release (.other .ftable) { l with pc := .close w })
  | .close w => some (.acquire (.other .pipe) { l with pc := .shut w })
  | .shut w => some (.act (Shared.shut w) { l with pc := .shutWake w })
  | .shutWake w => some (.wakeup (otherChan w) { l with pc := .shutTest })
  | .shutTest =>
    if v.data.pipe.readopen = false ∧ v.data.pipe.writeopen = false then
      some (.release (.other .pipe) { l with pc := .free })
    else some (.release (.other .pipe) { l with pc := .out })
  | .free => some (.act Shared.free { l with pc := .out })

/-- A process outside, with its descriptors. -/
def start (fds : Bool → ℕ) : Local := ⟨fds, 0, .out⟩

/-- `pipealloc`, with the descriptors that processes have of the new pipe. -/
def pipealloc (fds : Fin n → Bool → ℕ) (data : Fin PIPESIZE → UInt8) : Shared n where
  pipe := ⟨data, 0, 0, true, true⟩
  ref w := ∑ p, fds p w
  freed := false
  enq := []
  deq := []
  writes := []
  reads := []

/-- The lock that a process holds. -/
def Pc.lock : Pc → Option Lk
  | .out | .close _ | .free => none
  | .drop _ | .dup _ | .dropped | .last _ => some .ftable
  | .write _ _ _ | .full _ _ | .put _ _ _ | .wrote _ _ | .read _ | .copy _ _ | .copied _ _
  | .gave _ _ | .unlock | .shut _ | .shutWake _ | .shutTest => some .pipe

/-- The lock that a process holds at a label. -/
def holds (_ : Fin n) (l : Local) : Finset (SpinLock n Lk) :=
  match l.pc.lock with
  | none => ∅
  | some k => {.other k}

/-! ## What the code does -/

/-- **What the code does**, read backwards. -/
inductive Does (p : Fin n) (v : View n (Shared n)) (l : Local) :
    Op n Lk Chan (Shared n) Local → Prop
  | enterWrite {c} (hpc : l.pc = .out) (hfd : 0 < l.fds true) :
    Does p v l (.acquire (.other .pipe) { l with pc := .write c 0 false })
  | enterRead {c} (hpc : l.pc = .out) (hfd : 0 < l.fds false) :
    Does p v l (.acquire (.other .pipe) { l with pc := .read c })
  | enterClose {w} (hpc : l.pc = .out) (hfd : 0 < l.fds w) :
    Does p v l (.acquire (.other .ftable) { l with pc := .drop w })
  | enterDup {w} (hpc : l.pc = .out) (hfd : 0 < l.fds w) :
    Does p v l (.acquire (.other .ftable) { l with pc := .dup w })
  | kill {pid} (hpc : l.pc = .out) : Does p v l (.kill pid l l)
  | yield (hpc : l.pc = .out) : Does p v l (.yield l)
  | giveUp {c i new} (hpc : l.pc = .write c i new) (hi : i < c.bytes.length)
      (hwhy : v.data.pipe.readopen = false ∨ v.killed p = true) :
    Does p v l (.release (.other .pipe) { l with calls := l.calls + 1, pc := .out })
  | wakeFull {c i new} (hpc : l.pc = .write c i new) (hi : i < c.bytes.length)
      (hopen : v.data.pipe.readopen = true) (hfull : v.data.pipe.full = true) :
    Does p v l (.wakeup .nread { l with pc := .full c i })
  | room {c i new} (hpc : l.pc = .write c i new) (hi : i < c.bytes.length)
      (hkilled : v.killed p = false) (hfull : v.data.pipe.full = false) :
    Does p v l (.act id { l with pc := .put c i new })
  | writeEnd {c i new} (hpc : l.pc = .write c i new) (hi : c.bytes.length ≤ i) :
    Does p v l (.wakeup .nread { l with pc := .wrote c i })
  | sleepFull {c i} (hpc : l.pc = .full c i) :
    Does p v l (.sleep .nwrite .pipe { l with pc := .write c i false })
  | badByte {c i new} (hpc : l.pc = .put c i new) (hf : c.fault = some i) :
    Does p v l (.wakeup .nread { l with pc := .wrote c i })
  | put {c i new} (hpc : l.pc = .put c i new) (hf : c.fault ≠ some i) :
    Does p v l (.act (Shared.put (p, l.calls) (c.bytes.getD i 0))
      { l with pc := .write c (i + 1) true })
  | wrote {c i} (hpc : l.pc = .wrote c i) :
    Does p v l (.act (Shared.wrote p l.calls c i) { l with calls := l.calls + 1, pc := .unlock })
  | readKilled {c} (hpc : l.pc = .read c) (hkilled : v.killed p = true) :
    Does p v l (.release (.other .pipe) { l with pc := .out })
  | sleepEmpty {c} (hpc : l.pc = .read c) (hempty : v.data.pipe.empty = true)
      (hopen : v.data.pipe.writeopen = true) : Does p v l (.sleep .nread .pipe l)
  | readable {c} (hpc : l.pc = .read c)
      (hwhy : v.data.pipe.empty = true → v.data.pipe.writeopen = false) :
    Does p v l (.act id { l with pc := .copy c [] })
  | takeBad {c got} (hpc : l.pc = .copy c got) (hempty : v.data.pipe.empty = false)
      (hf : c.fault = some got.length) :
      Does p v l (.act Shared.take { l with pc := .copied c got })
  | take {c got} (hpc : l.pc = .copy c got) (hempty : v.data.pipe.empty = false) :
    Does p v l (.act Shared.take { l with pc := .copy c (got ++ [v.data.pipe.front]) })
  | copyEnd {c got} (hpc : l.pc = .copy c got)
      (hwhy : (got.length : ℤ) < c.n → v.data.pipe.empty = true) :
    Does p v l (.wakeup .nwrite { l with pc := .gave c got })
  | copiedEnd {c got} (hpc : l.pc = .copied c got) :
    Does p v l (.wakeup .nwrite { l with pc := .gave c got })
  | gave {c got} (hpc : l.pc = .gave c got) :
    Does p v l (.act (Shared.gave c got) { l with pc := .unlock })
  | unlock (hpc : l.pc = .unlock) : Does p v l (.release (.other .pipe) { l with pc := .out })
  | drop {w pc} (hpc : l.pc = .drop w)
      (hpc' : pc = .dropped ∧ 1 < v.data.ref w ∨ pc = .last w ∧ v.data.ref w ≤ 1) :
    Does p v l (.act (Shared.setRef w (v.data.ref w - 1))
      { l with fds := update l.fds w (l.fds w - 1), pc := pc })
  | dup {w} (hpc : l.pc = .dup w) :
    Does p v l (.act (Shared.setRef w (v.data.ref w + 1))
      { l with fds := update l.fds w (l.fds w + 1), pc := .dropped })
  | dropped (hpc : l.pc = .dropped) : Does p v l (.release (.other .ftable) { l with pc := .out })
  | last {w} (hpc : l.pc = .last w) :
    Does p v l (.release (.other .ftable) { l with pc := .close w })
  | close {w} (hpc : l.pc = .close w) :
    Does p v l (.acquire (.other .pipe) { l with pc := .shut w })
  | shut {w} (hpc : l.pc = .shut w) :
    Does p v l (.act (Shared.shut w) { l with pc := .shutWake w })
  | shutWake {w} (hpc : l.pc = .shutWake w) :
    Does p v l (.wakeup (otherChan w) { l with pc := .shutTest })
  | shutEnd {pc} (hpc : l.pc = .shutTest) (hpc' : pc = .free ∨ pc = .out) :
    Does p v l (.release (.other .pipe) { l with pc := pc })
  | free (hpc : l.pc = .free) : Does p v l (.act Shared.free { l with pc := .out })

theorem code_does {p : Fin n} {l : Local} {v : View n (Shared n)} {x : Call}
    {op : Op n Lk Chan (Shared n) Local} (hop : code p l v x = some op) : Does p v l op := by
  revert hop
  fun_cases code p l v x <;> rintro ⟨⟩ <;> grind [Does]

theorem disciplined : Disciplined (holds (n := n)) code := by
  intro p l v x op hop
  cases code_does hop with
  | drop hpc hpc' => rcases hpc' with ⟨rfl, -⟩ | ⟨rfl, -⟩ <;> simp [OpOk, holds, hpc, Pc.lock]
  | shutEnd hpc hpc' => rcases hpc' with rfl | rfl <;> simp [OpOk, holds, hpc, Pc.lock]
  | _ => simp [OpOk, holds, Pc.lock, *]

theorem status_rule {m : Mon n Lk Chan (Shared n) Local} {p : Fin n} {l : Local} {x : Call}
    {op : Op n Lk Chan (Shared n) Local} (hop : code p l m.view x = some op) :
    StatusRule m p op := by
  cases code_does hop with
  | giveUp | readKilled | unlock | dropped | last | shutEnd => exact nofun
  | _ => trivial

theorem heedless : Heedless (code (n := n)) := by
  rintro p pid found missing ⟨l, v, x, hop⟩
  cases code_does hop with
  | kill hpc => rfl

/-! ## Under the lock -/

section Locked

variable {m m' : Mon n Lk Chan (Shared n) Local} {p : Fin n} {l : Local} {x : Call}

/-- Where a process is only while it holds the lock of the pipe: not where it
sleeps and wakes up. -/
def Pc.Busy (pc : Pc) : Prop :=
  pc.lock = some .pipe ∧ (∀ c i new, pc ≠ .write c i new) ∧ ∀ c, pc ≠ .read c

theorem locked_of_busy (hsrc : Sourced code m) (hl : m.labels p = some l) (hb : l.pc.Busy) :
    .other .pipe ∈ (m.post p).locks holds p := by
  rw [hsrc.locks_eq hl]
  · simp [holds, hb.1]
  · -- a process sleeps where it is not busy
    rintro c k ⟨l₀, v, x, hop⟩
    cases code_does hop with
    | sleepFull hpc => exact hb.2.1 _ _ _ rfl
    | sleepEmpty hpc => exact hb.2.2 _ hpc

/-- The pipe and its history. -/
def Shared.SameHistory (d d' : Shared n) : Prop :=
  d'.pipe = d.pipe ∧ d'.enq = d.enq ∧ d'.deq = d.deq ∧ d'.writes = d.writes ∧ d'.reads = d.reads

/-- **Without the lock of the pipe** nothing of it changes. -/
theorem Does.same_history {v : View n (Shared n)} {op : Op n Lk Chan (Shared n) Local}
    (h : Does p v l op) (hlock : l.pc.lock ≠ some .pipe) :
    v.data.SameHistory (op.apply p v).data := by
  cases h with
  | drop | dup | free => exact ⟨rfl, rfl, rfl, rfl, rfl⟩
  | room hpc | put hpc | wrote hpc | readable hpc | takeBad hpc | take hpc | gave hpc | shut hpc =>
    rw [hpc] at hlock
    exact absurd rfl hlock
  | _ => exact ⟨rfl, rfl, rfl, rfl, rfl⟩

/-- **While another process is busy**, nothing of the pipe changes. -/
theorem same_history_of_busy (ho : Owners holds m) (hsrc : Sourced code m) {q : Fin n} (hq : q ≠ p)
    (hp : m.post p = .code l) {op : Op n Lk Chan (Shared n) Local}
    (hop : code p l m.view x = some op) {lq : Local} (hlq : m.labels q = some lq)
    (hb : lq.pc.Busy) : m.view.data.SameHistory (op.apply p m.view).data := by
  refine (code_does hop).same_history (fun hlock => hq ?_)
  refine ho.unique (locked_of_busy hsrc hlq hb) ?_
  rw [hp]
  simp [Post.locks, holds, hlock]

/-- What a process knows of the pipe where it is busy. -/
def Knows (pi : Pipe) : Pc → Prop
  | .put _ _ _ => pi.full = false
  | .full _ _ => pi.full = true ∧ pi.readopen = true
  | .copy _ got => got = [] → pi.empty = true → pi.writeopen = false
  | .copied c _ => c.fault ≠ none
  | .gave c got => got = [] → 0 < c.n → c.fault = none → pi.empty = true ∧ pi.writeopen = false
  | _ => True

theorem knows_of_not_busy {pi : Pipe} {pc : Pc} (hb : ¬ pc.Busy) : Knows pi pc := by
  cases pc <;> first | trivial | exact absurd ⟨rfl, by simp, by simp⟩ hb

/-- **What processes know** is true. -/
def AllKnow (m : Mon n Lk Chan (Shared n) Local) : Prop :=
  ∀ p l, m.labels p = some l → Knows m.view.data.pipe l.pc

theorem AllKnow.step (hk : AllKnow m) (ho : Owners holds m) (hsrc : Sourced code m)
    (hstep : Relabels code m p x m') : AllKnow m' := by
  cases hstep with
  | @op l op l' hp hrun hop htarget hnew hview hlab =>
    have hl := Mon.labels_of_code hp
    intro q lq hq
    have hspawn : op.spawnLabels m.labels = m.labels := by
      cases code_does hop <;> rfl
    rw [hlab, hspawn] at hq
    by_cases hqp : q = p
    · rw [hqp, update_self] at hq
      cases hq
      have hknow := hk p l hl
      rw [hview]
      cases code_does hop with
      | drop hpc hpc' =>
        cases htarget
        rcases hpc' with ⟨rfl, -⟩ | ⟨rfl, -⟩ <;> trivial
      | shutEnd hpc hpc' =>
        cases htarget
        rcases hpc' with rfl | rfl <;> trivial
      | kill hpc | yield hpc =>
        cases htarget
        rw [hpc]
        trivial
      | sleepEmpty hpc =>
        cases htarget
        rw [hpc]
        trivial
      | wakeFull hpc hi hopen hfull =>
        cases htarget
        exact ⟨hfull, hopen⟩
      | room hpc hi hkilled hfull =>
        cases htarget
        exact hfull
      | readable hpc hwhy =>
        cases htarget
        exact fun _ => hwhy
      | takeBad hpc hempty hf =>
        cases htarget
        show _ ≠ none
        rw [hf]
        exact nofun
      | take hpc hempty =>
        cases htarget
        exact fun h => absurd h (by simp)
      | @copyEnd c got hpc hwhy =>
        cases htarget
        rw [hpc] at hknow
        rintro rfl hpos -
        have hempty := hwhy (by simpa using hpos)
        exact ⟨hempty, hknow rfl hempty⟩
      | copiedEnd hpc =>
        cases htarget
        rw [hpc] at hknow
        exact fun _ _ hf => absurd hf hknow
      | _ =>
        cases htarget
        trivial
    · rw [update_of_ne hqp] at hq
      by_cases hb : lq.pc.Busy
      · rw [hview, (same_history_of_busy ho hsrc hqp hp hop hq hb).1]
        exact hk q lq hq
      · exact knows_of_not_busy hb
  | sched hp hrun hop => exact nomatch code_does hop
  | quiet hview hlab =>
    intro q lq hq
    rw [hlab] at hq
    rw [hview]
    exact hk q lq hq

theorem AllKnow.boot (pid₀ : Fin n → Option ℤ) (fds : Fin n → Bool → ℕ)
    (data : Fin PIPESIZE → UInt8) :
    AllKnow (Mon.boot pid₀ (fun p => start (fds p)) (pipealloc fds data)) := by
  intro p l h
  cases h
  trivial

end Locked

end Xv6.Pipes
