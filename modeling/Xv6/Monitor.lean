import Xv6.Sched

/-!
# The machine that threads see

A thread does not see CPUs, contexts or how `sleep` and `wakeup` use the lock
of a process. What it sees is a simpler machine: processes hold locks, a
process that sleeps gives up its lock and is asleep on a channel in one step,
`wakeup` goes through the processes and wakes those asleep on its channel, and
`kill` marks one process and wakes it.

`Mon` are the states of that machine and `Mon.Step` its steps. `State.abs`
forgets what the threads do not see, and every action of the machine with
CPUs is a step of the simpler one or none at all (`refines`). What is proved
of the simpler machine for some code is therefore true of the other
(`Mon.transfer`).
-/

open Function (update update_eq_self update_of_ne)

namespace Xv6.Threads

/-- Where a thread is, as others see it. -/
inductive Post (K C L : Type) where
  /-- In its code. -/
  | code (l : L)
  /-- About to give up a lock and sleep. -/
  | toSleep (c : C) (k : K) (l : L)
  | asleep (c : C) (k : K) (l : L)
  /-- Awake, about to get its lock again. -/
  | woken (k : K) (l : L)
  /-- In `wakeup`, at the entry of a process. -/
  | waking (c : C) (i : ℕ) (l : L)
  /-- In `kill`, at the entry of a process. -/
  | killing (pid : ℤ) (i : ℕ) (found missing : L)
  /-- Exited. -/
  | gone
  deriving DecidableEq

namespace Post

variable {K C L : Type}

/-- Woken, if asleep. -/
def wake : Post K C L → Post K C L
  | asleep _ k l => woken k l
  | a => a

/-- Where the code of the thread goes on, if it does. -/
def label : Post K C L → Option L
  | code l | toSleep _ _ l | asleep _ _ l | woken _ l | waking _ _ l | killing _ _ l _ => some l
  | gone => none

/-- Woken, if asleep on a channel. -/
def wakeOn [DecidableEq C] (c : C) : Post K C L → Post K C L
  | asleep c' k l => if c' = c then woken k l else asleep c' k l
  | a => a

theorem wakeOn_cases [DecidableEq C] (c : C) (a : Post K C L) :
    a.wakeOn c = a ∨ a.wakeOn c = a.wake := by
  cases a with
  | asleep c' k l =>
    by_cases hc : c' = c
    · simp [wakeOn, wake, hc]
    · simp [wakeOn, hc]
  | _ => exact Or.inl rfl

theorem wakeOn_ne_asleep [DecidableEq C] (c : C) (a : Post K C L) (k : K) (l : L) :
    a.wakeOn c ≠ asleep c k l := by
  cases a with
  | asleep c' k' l' =>
    by_cases hc : c' = c
    · simp [wakeOn, hc]
    · simp [wakeOn, hc]
  | _ => exact nofun

end Post

/-- **The states that threads see.** -/
structure Mon (n : ℕ) (K C D L : Type) where
  view : View n D
  /-- The process that holds a lock. -/
  owner : SpinLock n K → Option (Fin n)
  post : Fin n → Post K C L

namespace Mon

variable {n : ℕ} {K C D L X : Type} [DecidableEq K] [DecidableEq C]

/-- A process whose thread can act: it lives, or is a zombie on its way into
the scheduler. -/
def CanRun (m : Mon n K C D L) (p : Fin n) : Prop :=
  m.view.status p = .live ∨ m.view.status p = .zombie ∧ m.owner (.proc p) = some p

omit [DecidableEq K] [DecidableEq C] in
/-- A thread moves. -/
def goto (m : Mon n K C D L) (p : Fin n) (a : Post K C L) : Mon n K C D L :=
  { m with post := update m.post p a }

/-- A lock gets an owner, or none. -/
def own (m : Mon n K C D L) (lk : SpinLock n K) (o : Option (Fin n)) : Mon n K C D L :=
  { m with owner := update m.owner lk o }

/-- **A step of one process**, with an input to its code. -/
inductive Step (code : Code n K C D L X) (m : Mon n K C D L) (p : Fin n) (x : X) :
    Mon n K C D L → Prop
  | acquire {l lk l'} (hp : m.post p = .code l) (hrun : m.CanRun p)
      (hop : code p l m.view x = some (.acquire lk l')) (hfree : m.owner lk = none) :
      Step code m p x ((m.own lk (some p)).goto p (.code l'))
  | release {l lk l'} (hp : m.post p = .code l) (hrun : m.CanRun p)
      (hop : code p l m.view x = some (.release lk l')) (hown : m.owner lk = some p) :
      Step code m p x ((m.own lk none).goto p (.code l'))
  | act {l f l'} (hp : m.post p = .code l) (hrun : m.CanRun p)
      (hop : code p l m.view x = some (.act f l')) :
      Step code m p x
        ({ m with view := { m.view with data := f m.view.data } }.goto p (.code l'))
  | allocproc {l q pid start f l'} (hp : m.post p = .code l) (hrun : m.CanRun p)
      (hop : code p l m.view x = some (.allocproc q pid start f l'))
      (hown : m.owner (.proc q) = some p) (hq : m.view.status q = .unused) (hne : q ≠ p) :
      Step code m p x (({ m with view := { m.view with
        status := update m.view.status q .used
        pid := update m.view.pid q pid
        data := f m.view.data } }.goto q (.code start)).goto p (.code l'))
  | runnable {l q l'} (hp : m.post p = .code l) (hrun : m.CanRun p)
      (hop : code p l m.view x = some (.runnable q l')) (hown : m.owner (.proc q) = some p)
      (hq : m.view.status q = .used) :
      Step code m p x ({ m with view := { m.view with
        status := update m.view.status q .live } }.goto p (.code l'))
  | freeproc {l q f l'} (hp : m.post p = .code l) (hrun : m.CanRun p)
      (hop : code p l m.view x = some (.freeproc q f l')) (hown : m.owner (.proc q) = some p)
      (hne : q ≠ p) (hq : m.view.status q = .used ∨ m.view.status q = .zombie) :
      Step code m p x ({ m with view :=
        ⟨update m.view.status q .unused, update m.view.killed q false,
          update m.view.pid q 0, f m.view.data⟩ }.goto p (.code l'))
  | zombie {l f l'} (hp : m.post p = .code l) (hrun : m.CanRun p)
      (hop : code p l m.view x = some (.zombie f l')) (hown : m.owner (.proc p) = some p) :
      Step code m p x ({ m with view := { m.view with
        status := update m.view.status p .zombie
        data := f m.view.data } }.goto p (.code l'))
  | sched {l} (hp : m.post p = .code l) (hrun : m.CanRun p)
      (hop : code p l m.view x = some .sched) :
      Step code m p x ((m.own (.proc p) none).goto p .gone)
  | sleep {l c k l'} (hp : m.post p = .code l) (hrun : m.CanRun p)
      (hop : code p l m.view x = some (.sleep c k l')) (hown : m.owner (.other k) = some p) :
      Step code m p x (m.goto p (.toSleep c k l'))
  | doze {c k l} (hp : m.post p = .toSleep c k l) (hlive : m.view.status p = .live)
      (hown : m.owner (.other k) = some p) :
      Step code m p x ((m.own (.other k) none).goto p (.asleep c k l))
  | relock {k l} (hp : m.post p = .woken k l) (hlive : m.view.status p = .live)
      (hfree : m.owner (.other k) = none) :
      Step code m p x ((m.own (.other k) (some p)).goto p (.code l))
  | wakeup {l c l'} (hp : m.post p = .code l) (hrun : m.CanRun p)
      (hop : code p l m.view x = some (.wakeup c l')) :
      Step code m p x (m.goto p (.waking c 0 l'))
  | wakeNext {c l} {q : Fin n} (hp : m.post p = .waking c q l)
      (hlive : m.view.status p = .live) (hne : q ≠ p) :
      Step code m p x ((m.goto q ((m.post q).wakeOn c)).goto p (.waking c (q + 1) l))
  | wakeSelf {c l} (hp : m.post p = .waking c p l) (hlive : m.view.status p = .live) :
      Step code m p x (m.goto p (.waking c (p + 1) l))
  | wakeEnd {c i l} (hp : m.post p = .waking c i l) (hlive : m.view.status p = .live)
      (hi : n ≤ i) :
      Step code m p x (m.goto p (.code l))
  | kill {l pid found missing} (hp : m.post p = .code l) (hrun : m.CanRun p)
      (hop : code p l m.view x = some (.kill pid found missing)) :
      Step code m p x (m.goto p (.killing pid 0 found missing))
  | killHit {pid found missing} {q : Fin n} (hp : m.post p = .killing pid q found missing)
      (hlive : m.view.status p = .live) (hpid : m.view.pid q = pid) :
      Step code m p x (({ m with view := { m.view with
        killed := update m.view.killed q true } }.goto q (m.post q).wake).goto p
          (.code found))
  | killMiss {pid found missing} {q : Fin n} (hp : m.post p = .killing pid q found missing)
      (hlive : m.view.status p = .live) (hpid : m.view.pid q ≠ pid) :
      Step code m p x (m.goto p (.killing pid (q + 1) found missing))
  | killEnd {pid i found missing} (hp : m.post p = .killing pid i found missing)
      (hlive : m.view.status p = .live) (hi : n ≤ i) :
      Step code m p x (m.goto p (.code missing))
  | skip {l op l'} (hp : m.post p = .code l) (hrun : m.CanRun p)
      (hop : code p l m.view x = some op) (hskip : op = .yield l' ∨ ∃ b, op = .intr b l') :
      Step code m p x (m.goto p (.code l'))

end Mon

/-! ## What a state looks like to the threads -/

section Abs

variable {n : ℕ} {H K C D L X : Type}

/-- Where others see a thread, from its place and its entry. -/
def Place.post (e : Entry C) : Place K C L → Post K C L
  | .code l | .forkret l => .code l
  | .sleepLock c k l | .sleepUnlock c k l => .toSleep c k l
  | .sleepMark c k l => .asleep c k l
  | .sleepTidy c k l => if e.state = .SLEEPING then .asleep c k l else .woken k l
  | .sleepRelease k l | .sleepRelock k l => .woken k l
  | .yieldLock ret | .yieldMark ret | .yieldRelease ret | .trapReturn ret
  | .sched ret | .swtch _ ret | .resume _ ret => ret.post e
  | .wakeup c i l | .wakeTest c i l => .waking c i l
  | .wakeRelease c i l => .waking c (i + 1) l
  | .kill pid i found missing | .killTest pid i found missing => .killing pid i found missing
  | .killRelease hit pid i found missing =>
    if hit then .code found else .killing pid (i + 1) found missing
  | .zombieExit => .gone

/-- Whether the thread is in its code. -/
def Place.isCode : Place K C L → Bool
  | .code _ => true
  | _ => false

/-- Whether others see that a thread at a place holds a lock: not the lock of
a process inside `sleep`, `wakeup` and the like. -/
def Shown (lk : SpinLock n K) (a : Place K C L) : Bool :=
  match lk with
  | .other _ => true
  | .proc _ => a.isCode

/-- The process that is seen to hold a lock. -/
def State.owner (s : State n H K C D L) (lk : SpinLock n K) : Option (Fin n) :=
  match s.lock lk with
  | none => none
  | some h =>
    match (s.cpu h).mode with
    | .run p => if Shown lk (s.place p) then some p else none
    | _ => none

/-- **What the threads see of a state.** -/
def State.abs (s : State n H K C D L) : Mon n K C D L where
  view := s.view
  owner := s.owner
  post p := (s.place p).post (s.entry p)

variable {s : State n H K C D L} {h : H} {p : Fin n}

theorem State.owner_of_run {lk : SpinLock n K} (hlk : s.lock lk = some h)
    (hrun : (s.cpu h).mode = .run p) :
    s.owner lk = if Shown lk (s.place p) then some p else none := by
  simp [owner, hlk, hrun]

theorem State.owner_of_none {lk : SpinLock n K} (hlk : s.lock lk = none) : s.owner lk = none := by
  simp [owner, hlk]

theorem State.owner_eq_some {lk : SpinLock n K} :
    s.owner lk = some p ↔
      ∃ h, s.lock lk = some h ∧ (s.cpu h).mode = .run p ∧ Shown lk (s.place p) = true := by
  unfold owner
  cases hl : s.lock lk with
  | none => simp
  | some h =>
    cases hmode : (s.cpu h).mode with
    | run q =>
      by_cases hq : q = p
      · subst hq
        simp [hmode]
      · simp [hmode, hq]
    | _ => simp [hmode]

/-- The owners of the locks are those that the modes of the CPUs and the
places of the threads on them tell. -/
theorem State.owner_congr {s' : State n H K C D L} (hlock : s'.lock = s.lock)
    (hmode : ∀ h, (s'.cpu h).mode = (s.cpu h).mode)
    (hplace : ∀ h q, (s.cpu h).mode = .run q → s'.place q = s.place q) : s'.owner = s.owner := by
  funext lk
  ext q
  rw [owner_eq_some, owner_eq_some, hlock]
  refine exists_congr fun h => and_congr_right fun _ => ?_
  rw [hmode]
  exact and_congr_right fun hq => by rw [hplace h q hq]

/-- A CPU is the only one in the thread of a process. -/
def State.Alone (s : State n H K C D L) (h : H) (p : Fin n) : Prop :=
  ∀ h', (s.cpu h').mode = .run p → h' = h

section Elsewhere

variable {t : State n H K C D L} {lk : SpinLock n K}
  (hlock : ∀ h', h' ≠ h → ∀ lk, t.lock lk = some h' ↔ s.lock lk = some h')

include hlock

theorem State.lock_of_left (hlk : s.lock lk = some h) (hlk' : t.lock lk ≠ some h) :
    t.lock lk = none := by
  rw [Option.eq_none_iff_forall_ne_some]
  intro h' hl
  have hne : h' ≠ h := fun heq => hlk' (heq ▸ hl)
  exact hne (Option.some.inj (((hlock h' hne lk).mp hl).symm.trans hlk))

/-- **A CPU acts**: nothing changes for the locks that it does not hold. -/
theorem State.owner_elsewhere (hcpu : ∀ h', h' ≠ h → t.cpu h' = s.cpu h')
    (hplace : ∀ h' q, h' ≠ h → (s.cpu h').mode = .run q →
      (t.place q).isCode = (s.place q).isCode)
    (hlk : s.lock lk ≠ some h) (hlk' : t.lock lk ≠ some h) : t.owner lk = s.owner lk := by
  ext q
  rw [owner_eq_some, owner_eq_some]
  refine exists_congr fun h' => ?_
  by_cases hne : h' = h
  · subst hne
    exact iff_of_false (fun hl => hlk' hl.1) fun hl => hlk hl.1
  · rw [hlock h' hne lk, hcpu h' hne]
    refine and_congr_right fun _ => and_congr_right fun hrun => ?_
    cases lk with
    | other k => rfl
    | proc r => exact Eq.congr_left (hplace h' q hne hrun)

/-- **A CPU that has just acted in a thread**: the locks it now holds are seen
to be held by the process or hidden, and those it gave up are free; nothing
changes for other locks. -/
theorem State.owner_thread [DecidableEq H] (hone : s.Alone h p) (hrun' : (t.cpu h).mode = .run p)
    (hcpu : ∀ h', h' ≠ h → t.cpu h' = s.cpu h')
    (hplace : ∀ q, q ≠ p → (t.place q).isCode = (s.place q).isCode) (lk : SpinLock n K) :
    t.owner lk = if t.lock lk = some h then (if Shown lk (t.place p) then some p else none)
      else if s.lock lk = some h then none else s.owner lk := by
  by_cases hlk' : t.lock lk = some h
  · rw [if_pos hlk', owner_of_run hlk' hrun']
  · rw [if_neg hlk']
    by_cases hlk : s.lock lk = some h
    · rw [if_pos hlk, owner_of_none (lock_of_left hlock hlk hlk')]
    · rw [if_neg hlk]
      refine owner_elsewhere hlock hcpu (fun h' q hne hq => hplace q ?_) hlk hlk'
      rintro rfl
      exact hne (hone h' hq)

/-- A CPU whose locks were hidden and are hidden changes nothing that is seen
of the locks. -/
theorem State.owner_hidden [DecidableEq H] (hcpu : ∀ h', h' ≠ h → t.cpu h' = s.cpu h')
    (hplace : ∀ q, (t.place q).isCode = (s.place q).isCode)
    (hold : ∀ lk, s.lock lk = some h → s.owner lk = none)
    (hnew : ∀ lk, t.lock lk = some h → t.owner lk = none) : t.owner = s.owner := by
  funext lk
  by_cases hlk : s.lock lk = some h <;> by_cases hlk' : t.lock lk = some h
  · rw [hold lk hlk, hnew lk hlk']
  · rw [hold lk hlk, owner_of_none (lock_of_left hlock hlk hlk')]
  · rw [hnew lk hlk', owner_of_none]
    exact lock_of_left (fun h' hne lk => (hlock h' hne lk).symm) hlk' hlk
  · exact owner_elsewhere hlock hcpu (fun _ q _ _ => hplace q) hlk hlk'

end Elsewhere

variable [DecidableEq K]

theorem Inv.alone (hi : Inv s) (hrun : (s.cpu h).mode = .run p) :
    s.Alone h p :=
  fun h' hrun' => hi.one h' h p (by rw [hrun']; rfl) (by rw [hrun]; rfl)

variable [DecidableEq H] {S : Finset (SpinLock n K)} {a : Place K C L} {lk : SpinLock n K}

omit [DecidableEq K] [DecidableEq H] in
theorem post_goto (s : State n H K C D L) (p : Fin n) (a : Place K C L) :
    (fun q => ((s.goto p a).place q).post ((s.goto p a).entry q))
      = update (fun q => (s.place q).post (s.entry q)) p (a.post (s.entry p)) := by
  funext q
  by_cases hq : q = p
  · subst hq
    simp
  · simp [hq]

omit [DecidableEq K] in
theorem shown_of_no_proc (hno : ∀ q, .proc q ∉ S) (hlk : lk ∈ S) (a : Place K C L) :
    Shown lk a = true := by
  cases lk with
  | other k => rfl
  | proc q => exact absurd hlk (hno q)

omit [DecidableEq K] in
/-- **A thread moves**, and is seen to hold what it held. -/
theorem State.abs_goto (hone : s.Alone h p) (hrun : (s.cpu h).mode = .run p) (hS : Held s h S)
    (hshow : ∀ lk ∈ S, Shown lk a = Shown lk (s.place p)) :
    (s.goto p a).abs = s.abs.goto p (a.post (s.entry p)) := by
  have howner : (s.goto p a).owner = s.owner := by
    funext lk
    rw [State.owner_thread (s := s) (t := s.goto p a) (fun _ _ _ => Iff.rfl) hone hrun (fun _ _ => rfl)
      (fun q hq => by simp [hq]) lk]
    by_cases hlk : s.lock lk = some h
    · have hmem := (hS.mem lk).mp hlk
      simp [hlk, hshow lk hmem, owner_of_run hlk hrun]
    · simp [hlk]
  have hpost := post_goto s p a
  unfold State.abs Mon.goto
  rw [howner, hpost]
  rfl

/-- **A thread takes or gives up a lock** and moves. -/
theorem State.abs_relock {t : State n H K C D L} {v : Option H} (hone : s.Alone h p)
    (hrun : (s.cpu h).mode = .run p) (hS : Held s h S) (hmode : (t.cpu h).mode = .run p)
    (hcpu : ∀ h', h' ≠ h → t.cpu h' = s.cpu h')
    (ht : t = { s with cpu := t.cpu, lock := update s.lock lk v })
    (hv : v = some h ∨ v = none) (hold : s.lock lk = some h ∨ s.lock lk = none)
    (hshow : ∀ lk' ∈ S, lk' ≠ lk → Shown lk' a = Shown lk' (s.place p)) :
    (t.goto p a).abs = (s.abs.own lk (if v = some h ∧ Shown lk a then some p else none)).goto p
      (a.post (s.entry p)) := by
  have hlock : t.lock = update s.lock lk v := by rw [ht]
  have hplace : t.place = s.place := by rw [ht]
  have howner : (t.goto p a).owner
      = update s.owner lk (if v = some h ∧ Shown lk a then some p else none) := by
    funext lk'
    rw [State.owner_thread (s := s) (t := t.goto p a) (fun h' hne lk'' => ?_) hone hmode hcpu
      (fun q hq => by simp [hq, hplace]) lk']
    · by_cases heq : lk' = lk
      · subst heq
        obtain rfl | rfl := hv <;> obtain hold | hold := hold <;>
          simp [hlock, hold, owner_of_none]
      · by_cases hlk : s.lock lk' = some h
        · have hmem := (hS.mem lk').mp hlk
          simp [hlock, heq, hlk, hshow lk' hmem heq, owner_of_run hlk hrun]
        · simp [hlock, heq, hlk]
    · by_cases heq : lk'' = lk
      · obtain rfl | rfl := hv <;> obtain hold | hold := hold <;>
          simp [heq, hlock, hold, Ne.symm hne]
      · simp [heq, hlock]
  have hpost := post_goto t p a
  unfold State.abs Mon.goto Mon.own
  rw [howner, hpost, ht]
  rfl

/-- **A thread gets a lock.** -/
theorem State.abs_lock (hone : s.Alone h p) (hrun : (s.cpu h).mode = .run p) (hS : Held s h S)
    (hnone : s.lock lk = none) (hshow : ∀ lk ∈ S, Shown lk a = Shown lk (s.place p)) :
    ((s.locked h lk).goto p a).abs
      = (s.abs.own lk (if Shown lk a then some p else none)).goto p (a.post (s.entry p)) := by
  have habs := abs_relock (t := s.locked h lk) hone hrun hS (by simpa [Cpu.pushOff] using hrun)
    (fun h' hne => by simp [hne]) rfl (.inl rfl) (.inr hnone) fun lk' hlk' _ => hshow lk' hlk'
  simpa using habs

/-- **A thread releases a lock.** -/
theorem State.abs_unlock (hone : s.Alone h p) (hrun : (s.cpu h).mode = .run p) (hS : Held s h S)
    (hlk : lk ∈ S) (hshow : ∀ lk' ∈ S, lk' ≠ lk → Shown lk' a = Shown lk' (s.place p)) :
    ((s.unlocked h lk).goto p a).abs
      = (s.abs.own lk none).goto p (a.post (s.entry p)) := by
  have habs := abs_relock (t := s.unlocked h lk) hone hrun hS
    (by simpa [State.unlocked] using hrun) (fun h' hne => by simp [State.unlocked, hne]) rfl
    (.inr rfl) (.inl ((hS.mem lk).mpr hlk)) hshow
  simpa using habs

omit [DecidableEq K] [DecidableEq H] in
theorem State.view_setEntry (s : State n H K C D L) (q : Fin n) (e : Entry C) :
    (s.setEntry q e).view = { s.view with
      status := update s.view.status q (status e.state)
      killed := update s.view.killed q e.killed
      pid := update s.view.pid q e.pid } := by
  unfold view
  simp only [setEntry_entry, setEntry_data, View.mk.injEq, and_true]
  refine ⟨?_, ?_, ?_⟩
  all_goals
    funext r
    by_cases hr : r = q
    · subst hr
      simp
    · simp [hr]

omit [DecidableEq K] [DecidableEq H] in
/-- The entry of a process changes, and is seen by its status and the place
of its thread. -/
theorem State.abs_setEntry (s : State n H K C D L) (q : Fin n) (e : Entry C) :
    (s.setEntry q e).abs = { s.abs with
      view := { s.view with
        status := update s.view.status q (status e.state)
        killed := update s.view.killed q e.killed
        pid := update s.view.pid q e.pid }
      post := update s.abs.post q ((s.place q).post e) } := by
  have hpost : (s.setEntry q e).abs.post = update s.abs.post q ((s.place q).post e) := by
    funext r
    by_cases hr : r = q
    · subst hr
      simp [abs]
    · simp [abs, hr]
  rw [← hpost, ← State.view_setEntry]
  rfl

end Abs

/-! ## Who is asleep -/

section Asleep

variable {n : ℕ} {H K C D L : Type}

theorem Place.post_congr {e e' : Entry C} (he : e.state = .SLEEPING ↔ e'.state = .SLEEPING)
    (a : Place K C L) : a.post e = a.post e' := by
  induction a with
  | sleepTidy c k l => simp [Place.post, he]
  | _ => first | rfl | assumption

/-- A thread that is not seen asleep. -/
def Post.Awake (a : Post K C L) : Prop := ∀ c k l, a ≠ .asleep c k l

theorem Post.Awake.wake {a : Post K C L} (ha : a.Awake) : a.wake = a := by
  cases a with
  | asleep c k l => exact absurd rfl (ha c k l)
  | _ => rfl

theorem Post.Awake.wakeOn [DecidableEq C] {a : Post K C L} (ha : a.Awake) (c : C) :
    a.wakeOn c = a := by
  cases a with
  | asleep c' k l => exact absurd rfl (ha c' k l)
  | _ => rfl

theorem Place.Unlocked.awake {a : Place K C L} (ha : a.Unlocked) (e : Entry C) :
    (a.post e).Awake := by
  induction a with
  | yieldLock ret ih => exact ih ha
  | trapReturn ret ih => exact ih ha
  | _ => simp_all [Place.Unlocked, Place.post, Post.Awake]

theorem Body.awake {p : Fin n} {e : Entry C} {S : Finset (SpinLock n K)} {a : Place K C L}
    [DecidableEq K] (hb : Body p e S a) (hno : .proc p ∉ S) : (a.post e).Awake := by
  cases a with
  | yieldLock ret => exact hb.2.2.awake e
  | trapReturn ret => exact hb.2.2.awake e
  | killRelease hit pid i found missing => cases hit <;> exact nofun
  | zombieExit => exact hb.elim
  | code | sleepLock | sleepUnlock | sleepRelock | sleepRelease | wakeup | wakeTest | wakeRelease
    | kill | killTest | forkret => exact nofun
  | _ =>
    rw [hb.1] at hno
    simp at hno

/-- A thread that is not on a CPU and does not sleep is awake. -/
theorem Fits.awake {e : Entry C} {a : Place K C L} (hf : Fits e a) (he : e.state ≠ .SLEEPING) :
    (a.post e).Awake := by
  cases hst : e.state with
  | UNUSED =>
    simp only [Fits, hst] at hf
    obtain ⟨l, rfl⟩ | ⟨i, rfl⟩ := hf <;> (rintro c k l ⟨⟩)
  | USED =>
    simp only [Fits, hst] at hf
    obtain ⟨l, rfl⟩ := hf
    rintro c k l ⟨⟩
  | SLEEPING => exact absurd hst he
  | RUNNABLE =>
    simp only [Fits, hst] at hf
    cases a with
    | forkret l => rintro c k l ⟨⟩
    | resume i ret =>
      cases ret with
      | sleepTidy c k l => simp [Place.post, Post.Awake, hst]
      | yieldRelease ret => exact Place.Unlocked.awake hf e
      | _ => exact hf.elim
    | _ => exact hf.elim
  | RUNNING => simp [Fits, hst] at hf
  | ZOMBIE =>
    simp only [Fits, hst] at hf
    obtain ⟨i, rfl⟩ := hf
    rintro c k l ⟨⟩

/-- **Whether a thread is seen asleep** is told by the state in its entry, by
anyone who holds its lock: it is found awake, or asleep on the channel in its
entry and woken by another state. -/
def Tells (e : Entry C) (a : Place K C L) : Prop :=
  (e.state ≠ .SLEEPING ∧ (a.post e).Awake) ∨
    e.state = .SLEEPING ∧ ∃ c k l, e.chan = some c ∧ a.post e = .asleep c k l ∧
      ∀ e' : Entry C, e'.state ≠ .SLEEPING → a.post e' = .woken k l

theorem Fits.tells {e : Entry C} {a : Place K C L} (hf : Fits e a) : Tells e a := by
  by_cases he : e.state = .SLEEPING
  · simp only [Fits, he] at hf
    obtain ⟨i, c, k, l, rfl, hc⟩ := hf
    refine Or.inr ⟨he, c, k, l, hc, ?_, fun e' he' => ?_⟩
    · simp [Place.post, he]
    · simp [Place.post, he']
  · exact Or.inl ⟨he, hf.awake he⟩

variable {s : State n H K C D L} {h : H}

/-- **A process that sleeps on a channel is seen asleep on it.** -/
theorem Inv.asleep [DecidableEq K] (hi : Inv s) {p : Fin n} {c : C}
    (hst : (s.entry p).state = .SLEEPING) (hc : (s.entry p).chan = some c) :
    ∃ k l, s.abs.post p = .asleep c k l := by
  have hfits : ∀ a : Place K C L, Fits (s.entry p) a →
      ∃ k l, a.post (s.entry p) = .asleep c k l := by
    intro a hf
    simp only [Fits, hst] at hf
    obtain ⟨i, c', k, l, rfl, hc'⟩ := hf
    rw [hc] at hc'
    cases hc'
    exact ⟨k, l, by simp [Place.post, hst]⟩
  by_cases hpark : ∀ h, (s.cpu h).mode.current ≠ some p
  · exact hfits _ (hi.parked p hpark).1
  · rw [not_forall] at hpark
    obtain ⟨h, hcur⟩ := hpark
    rw [not_not] at hcur
    obtain ⟨S, hS, hm⟩ := hi.cpus h
    cases hmode : (s.cpu h).mode <;> rw [hmode] at hcur hm <;>
      simp only [Mode.current, Option.some.injEq, reduceCtorEq] at hcur <;> subst hcur
    · have hrun := hm.2.1
      rw [hst] at hrun
      cases hrun
    · -- on its way into the scheduler
      have hb : Body _ _ S (s.place _) := hm
      show ∃ k l, (s.place _).post _ = _
      cases hpl : s.place _ with
      | sched ret =>
        rw [hpl] at hb
        exact hfits (.resume false ret) (hb.2.1 false)
      | swtch i ret =>
        rw [hpl] at hb
        exact hfits (.resume i ret) (hb.2.1 i)
      | _ =>
        rw [hpl] at hb
        simp [Body, hst] at hb
    · exact hfits _ hm.2.1
    · exact hfits _ hm.2.1

theorem Inv.tells [DecidableEq K] (hi : Inv s) {q : Fin n} (hq : (s.cpu h).mode.current ≠ some q)
    (hlk : s.lock (.proc q) = some h) : Tells (s.entry q) (s.place q) := by
  by_cases hpark : ∀ h', (s.cpu h').mode.current ≠ some q
  · exact (hi.parked q hpark).1.tells
  · have hrunning := (hi.running_or_parked hq hlk).resolve_right hpark
    obtain ⟨h', hcur⟩ := not_forall_not.mp hpark
    obtain ⟨S, hno, hb⟩ := hi.body_elsewhere hq hlk hcur
    exact Or.inl ⟨by rw [hrunning]; exact nofun, hb.awake hno⟩

@[simp] theorem State.update_view_status (s : State n H K C D L) (q : Fin n) :
    update s.view.status q (status (s.entry q).state) = s.view.status :=
  update_eq_self q s.view.status

@[simp] theorem State.update_view_killed (s : State n H K C D L) (q : Fin n) :
    update s.view.killed q (s.entry q).killed = s.view.killed :=
  update_eq_self q s.view.killed

@[simp] theorem State.update_view_pid (s : State n H K C D L) (q : Fin n) :
    update s.view.pid q (s.entry q).pid = s.view.pid :=
  update_eq_self q s.view.pid

theorem State.abs_setEntry_same {q : Fin n} {e : Entry C}
    (hst : status e.state = status (s.entry q).state) (hk : e.killed = (s.entry q).killed)
    (hp : e.pid = (s.entry q).pid) :
    (s.setEntry q e).abs = s.abs.goto q ((s.place q).post e) := by
  rw [State.abs_setEntry, hst, hk, hp]
  simp only [update_view_status, update_view_killed, update_view_pid]
  rfl

theorem State.abs_setEntry_view {q : Fin n} {e : Entry C}
    (he : e.state = .SLEEPING ↔ (s.entry q).state = .SLEEPING) :
    (s.setEntry q e).abs = { s.abs with
      view := { s.view with
        status := update s.view.status q (status e.state)
        killed := update s.view.killed q e.killed
        pid := update s.view.pid q e.pid } } := by
  have hpost : update s.abs.post q ((s.place q).post e) = s.abs.post := by
    rw [Place.post_congr he]
    exact update_eq_self q s.abs.post
  rw [State.abs_setEntry, hpost]

theorem Mon.goto_self {m : Mon n K C D L} {p : Fin n} {a : Post K C L} (ha : m.post p = a) :
    m.goto p a = m := by
  unfold Mon.goto
  rw [← ha, update_eq_self]

theorem Mon.goto_goto (m : Mon n K C D L) (p : Fin n) (a b : Post K C L) :
    (m.goto p a).goto p b = m.goto p b := by
  simp [Mon.goto]

theorem Mon.own_self [DecidableEq K] {m : Mon n K C D L} {lk : SpinLock n K} {o : Option (Fin n)}
    (ho : m.owner lk = o) : m.own lk o = m := by
  unfold Mon.own
  rw [← ho, update_eq_self]

/-- **The body of `wakeup`** wakes a thread that is seen asleep. -/
theorem State.abs_wakeOne [DecidableEq C] {q : Fin n} (ht : Tells (s.entry q) (s.place q))
    (c : C) : (s.wakeOne c q).abs = s.abs.goto q ((s.abs.post q).wakeOn c) := by
  have hpost : s.abs.post q = (s.place q).post (s.entry q) := rfl
  obtain ⟨hns, hawake⟩ | ⟨hst, c', k, l, hchan, ha, hwoken⟩ := ht
  · rw [hpost, hawake.wakeOn, Mon.goto_self hpost, State.wakeOne, if_neg (fun hc => hns hc.1)]
  · by_cases hc : c' = c
    · subst hc
      have hset : (s.setEntry q { s.entry q with state := .RUNNABLE }).abs
          = s.abs.goto q (.woken k l) := by
        rw [State.abs_setEntry_same (by rw [hst]; rfl) (by rfl) (by rfl),
          hwoken _ (by exact nofun)]
      rw [State.wakeOne, if_pos ⟨hst, hchan⟩, hset, hpost, ha]
      simp [Post.wakeOn]
    · rw [State.wakeOne, if_neg, hpost, ha]
      · simp only [Post.wakeOn, hc, if_false]
        exact (Mon.goto_self ha).symm
      · rw [hchan]
        exact fun h => hc (Option.some.inj h.2)

/-- **What `kill` does** is to mark a process, and to wake it. -/
theorem State.abs_killOne {q : Fin n} (ht : Tells (s.entry q) (s.place q)) :
    (s.killOne q).abs = { s.abs with view := { s.view with
      killed := update s.view.killed q true } }.goto q (s.abs.post q).wake := by
  have hpost : s.abs.post q = (s.place q).post (s.entry q) := rfl
  have hstatus : status (if (s.entry q).state = .SLEEPING then .RUNNABLE else (s.entry q).state)
      = s.view.status q := by
    show _ = status (s.entry q).state
    split
    · rename_i hst
      rw [hst]
      rfl
    · rfl
  have hwake : (s.place q).post { s.entry q with
      killed := true
      state := if (s.entry q).state = .SLEEPING then .RUNNABLE else (s.entry q).state }
      = (s.abs.post q).wake := by
    obtain ⟨hns, hawake⟩ | ⟨hst, c', k, l, hchan, ha, hwoken⟩ := ht
    · rw [hpost, hawake.wake]
      exact Place.post_congr (by simp [hns]) _
    · rw [hpost, ha, hwoken _ (by simp [hst])]
      rfl
  unfold State.killOne
  rw [State.abs_setEntry, hwake]
  simp only [hstatus, update_eq_self, update_view_pid]
  rfl

end Asleep

/-! ## Refinement -/

section Refines

open State

variable {n : ℕ} {H K C D L X : Type} [DecidableEq H] [DecidableEq K]
  {s s' : State n H K C D L} {h : H} {p : Fin n} {code : Code n K C D L X} {x : X}

omit [DecidableEq H] in
theorem lock_iff_owner (hi : Inv s) (hrun : (s.cpu h).mode = .run p) {l : L}
    (hpl : s.place p = .code l) (lk : SpinLock n K) :
    s.lock lk = some h ↔ s.abs.owner lk = some p := by
  have hshown : Shown lk (s.place p) = true := by
    rw [hpl]
    cases lk <;> rfl
  constructor
  · intro hlk
    show s.owner lk = some p
    rw [owner_of_run hlk hrun, if_pos hshown]
  · intro hown
    change s.owner lk = some p at hown
    obtain ⟨h', hlk, hmode, -⟩ := owner_eq_some.mp hown
    rw [hlk, hi.one h' h p (by rw [hmode]; rfl) (by rw [hrun]; rfl)]

omit [DecidableEq H] in
theorem canRun (hi : Inv s) (hrun : (s.cpu h).mode = .run p) {l : L}
    (hpl : s.place p = .code l) : s.abs.CanRun p := by
  obtain ⟨S, hS, hb⟩ := hi.body hrun
  rw [hpl] at hb
  rcases hb with hst | ⟨hst, hmem⟩
  · left
    show status (s.entry p).state = .live
    rw [hst]
    rfl
  · right
    refine ⟨?_, (lock_iff_owner hi hrun hpl _).mp ((hS.mem _).mpr hmem)⟩
    show status (s.entry p).state = .zombie
    rw [hst]
    rfl

omit [DecidableEq H] [DecidableEq K] in
theorem status_live (hst : (s.entry p).state = .RUNNING) : s.abs.view.status p = .live := by
  show status (s.entry p).state = .live
  rw [hst]
  rfl

section Thread

variable {S : Finset (SpinLock n K)} {a : Place K C L} {lk : SpinLock n K}
  (hi : Inv s) (hrun : (s.cpu h).mode = .run p) (hS : Held s h S)

omit [DecidableEq H] [DecidableEq K] in
theorem State.abs_goto_parked {q : Fin n} (hq : ∀ h, (s.cpu h).mode.current ≠ some q) :
    (s.goto q a).abs = s.abs.goto q (a.post (s.entry q)) := by
  have howner : (s.goto q a).owner = s.owner := by
    refine owner_congr rfl (fun _ => rfl) (fun h r hr => update_of_ne ?_ _ _)
    rintro rfl
    exact hq h (by rw [hr]; rfl)
  have hpost := post_goto s q a
  unfold State.abs Mon.goto
  rw [howner, hpost]
  rfl

omit [DecidableEq K] in
theorem State.abs_setCpu {c : Cpu n} (hc : c.mode = (s.cpu h).mode) :
    (s.setCpu h c).abs = s.abs := by
  have howner : (s.setCpu h c).owner = s.owner := by
    refine owner_congr rfl (fun h' => ?_) (fun _ _ _ => rfl)
    by_cases hh : h' = h
    · subst hh
      simp [hc]
    · simp [hh]
  unfold State.abs
  rw [howner]
  rfl

omit [DecidableEq H] [DecidableEq K] in
theorem State.owner_of_mode {lk : SpinLock n K} (hmode : ∀ q, (s.cpu h).mode ≠ .run q)
    (hlk : s.lock lk = some h) : s.owner lk = none := by
  rw [Option.eq_none_iff_forall_ne_some]
  intro q hq
  obtain ⟨h', hlk', hrun, -⟩ := owner_eq_some.mp hq
  rw [hlk] at hlk'
  cases hlk'
  exact hmode q hrun

include hi hrun hS

theorem State.abs_goto_same (hshow : ∀ lk ∈ S, Shown lk a = Shown lk (s.place p))
    (hpost : a.post (s.entry p) = (s.place p).post (s.entry p)) : (s.goto p a).abs = s.abs := by
  rw [abs_goto (hi.alone hrun) hrun hS hshow]
  exact Mon.goto_self hpost.symm

theorem State.abs_lock_same (hnone : s.lock lk = none) (hhide : Shown lk a = false)
    (hshow : ∀ lk ∈ S, Shown lk a = Shown lk (s.place p))
    (hpost : a.post (s.entry p) = (s.place p).post (s.entry p)) :
    ((s.locked h lk).goto p a).abs = s.abs := by
  rw [abs_lock (hi.alone hrun) hrun hS hnone hshow, hhide, if_neg nofun,
    Mon.own_self (owner_of_none hnone)]
  exact Mon.goto_self hpost.symm

theorem State.abs_unlock_same (hlk : lk ∈ S) (hhide : Shown lk (s.place p) = false)
    (hshow : ∀ lk' ∈ S, lk' ≠ lk → Shown lk' a = Shown lk' (s.place p))
    (hpost : a.post (s.entry p) = (s.place p).post (s.entry p)) :
    ((s.unlocked h lk).goto p a).abs = s.abs := by
  have hnone : s.abs.owner lk = none := by
    show s.owner lk = none
    rw [owner_of_run ((hS.mem lk).mpr hlk) hrun, hhide, if_neg nofun]
  rw [abs_unlock (hi.alone hrun) hrun hS hlk hshow, Mon.own_self hnone]
  exact Mon.goto_self hpost.symm

/-- A thread changes its own entry and moves, and others see it where it was. -/
theorem State.abs_setGoto_same {e : Entry C}
    (hst : status e.state = status (s.entry p).state) (hk : e.killed = (s.entry p).killed)
    (hp : e.pid = (s.entry p).pid) (hshow : ∀ lk ∈ S, Shown lk a = Shown lk (s.place p))
    (hpost : a.post e = (s.place p).post (s.entry p)) :
    ((s.setEntry p e).goto p a).abs = s.abs := by
  have hgoto : ((s.setEntry p e).goto p a).abs = (s.setEntry p e).abs.goto p (a.post e) := by
    rw [abs_goto (s := s.setEntry p e) (hi.alone hrun) hrun
      (hS.of_eq rfl rfl (fun _ => rfl)) hshow]
    simp
  rw [hgoto, abs_setEntry_same hst hk hp, Mon.goto_goto]
  exact Mon.goto_self hpost.symm

/-- A thread changes what others do not see of its CPU and moves, and others
see it where it was. -/
theorem State.abs_cpuGoto_same {c : Cpu n} (hc : c.mode = (s.cpu h).mode)
    (hshow : ∀ lk ∈ S, Shown lk a = Shown lk (s.place p))
    (hpost : a.post (s.entry p) = (s.place p).post (s.entry p)) :
    ((s.setCpu h c).goto p a).abs = s.abs := by
  have hcomm : (s.setCpu h c).goto p a = (s.goto p a).setCpu h c := rfl
  rw [hcomm, abs_setCpu (by exact hc), abs_goto_same hi hrun hS hshow hpost]

end Thread

omit [DecidableEq K] in
/-- An action of the scheduler is not seen, if its locks were hidden and are,
and the processes are left as they were. -/
theorem State.abs_scheduler (hmode : ∀ q, (s.cpu h).mode ≠ .run q)
    (hcpu : ∀ h', h' ≠ h → s'.cpu h' = s.cpu h')
    (hlock : ∀ h', h' ≠ h → ∀ lk, s'.lock lk = some h' ↔ s.lock lk = some h')
    (hplace : s'.place = s.place) (hview : s'.view = s.view)
    (hentry : ∀ q, (s'.entry q).state = .SLEEPING ↔ (s.entry q).state = .SLEEPING)
    (hnew : ∀ lk, s'.lock lk = some h → s'.owner lk = none) : s'.abs = s.abs := by
  have howner := owner_hidden hlock hcpu (fun q => by rw [hplace])
    (fun lk => owner_of_mode hmode) hnew
  unfold State.abs
  rw [howner, hview, hplace]
  congr 1
  funext q
  exact Place.post_congr (hentry q) _

omit [DecidableEq K] in
theorem State.abs_setCpu_scheduler {c : Cpu n} (hmode : ∀ q, (s.cpu h).mode ≠ .run q)
    (hc : ∀ q, c.mode ≠ .run q) : (s.setCpu h c).abs = s.abs :=
  abs_scheduler hmode (fun h' hne => by simp [hne]) (fun _ _ _ => Iff.rfl) rfl rfl
    (fun _ => Iff.rfl) (fun lk => owner_of_mode (by simpa using hc))

variable (hi : Inv s) (hrun : (s.cpu h).mode = .run p)

include hi hrun in
/-- Switching away is not seen. -/
theorem State.abs_swtch {intena : Bool} {ret : Place K C L}
    (hpl : s.place p = .swtch intena ret) :
    (({ s with saved := update s.saved p true }.setMode h (.saved p)).goto p
      (.resume intena ret)).abs = s.abs := by
  obtain ⟨S, hS, hb⟩ := hi.body hrun
  rw [hpl] at hb
  obtain ⟨rfl, -⟩ := hb
  have howner : (({ s with saved := update s.saved p true }.setMode h (.saved p)).goto p
      (.resume intena ret)).owner = s.owner := by
    refine owner_hidden (h := h) (fun _ _ _ => Iff.rfl) (fun h' hne => by simp [hne])
      (fun q => ?_) (fun lk hlk => ?_) (fun lk hlk => ?_)
    · by_cases hq : q = p
      · subst hq
        simp [hpl, Place.isCode]
      · simp [hq]
    · have hmem := Finset.mem_singleton.mp ((hS.mem lk).mp hlk)
      rw [owner_of_run hlk hrun, hmem, hpl]
      rfl
    · exact owner_of_mode (h := h) (by simp) hlk
  have hpost := post_goto s p (.resume intena ret)
  have habs : (({ s with saved := update s.saved p true }.setMode h (.saved p)).goto p
      (.resume intena ret)).abs = s.abs.goto p (ret.post (s.entry p)) := by
    unfold State.abs Mon.goto
    rw [howner]
    simp only [goto_entry, goto_place, setMode_entry, setMode_place] at hpost ⊢
    rw [hpost]
    rfl
  rw [habs]
  refine Mon.goto_self ?_
  show (s.place p).post (s.entry p) = _
  rw [hpl]
  rfl

variable [DecidableEq C]

include hi hrun in
/-- **An operation of a thread is a step.** -/
theorem Inv.doOp_step {l : L} (hpl : s.place p = .code l) {op : Op n K C D L}
    (hop : code p l s.view x = some op) (hrule : Rule s h p op)
    (hstep : s.doOp h p op = .next s') : Mon.Step code s.abs p x s'.abs := by
  obtain ⟨S, hS, hb⟩ := hi.body hrun
  rw [hpl] at hb
  have hst : (s.entry p).state = .RUNNING ∨ (s.entry p).state = .ZOMBIE ∧ .proc p ∈ S := hb
  have hpost : s.abs.post p = .code l := by
    show (s.place p).post (s.entry p) = _
    rw [hpl]
    rfl
  have hcan := canRun hi hrun hpl
  have hcode : (s.place p).isCode = true := by rw [hpl]; rfl
  have hshow : ∀ (l' : L), ∀ lk ∈ S, Shown lk (.code l' : Place K C L) = Shown lk (s.place p) := by
    intro l' lk _
    cases lk with
    | other k => rfl
    | proc q => exact hcode.symm
  have hown : ∀ lk, s.lock lk = some h → s.abs.owner lk = some p :=
    fun lk => (lock_iff_owner hi hrun hpl lk).mp
  -- a change to entries and data leaves the thread in its code and its locks as they are
  have hchange : ∀ (s₁ : State n H K C D L) (l' : L), s₁.cpu = s.cpu → s₁.lock = s.lock →
      s₁.place p = s.place p → (s₁.goto p (.code l')).abs = s₁.abs.goto p (.code l') := by
    intro s₁ l' hcpu hlock hplace
    have hrun₁ : (s₁.cpu h).mode = .run p := by rw [hcpu, hrun]
    refine abs_goto (fun h' hh' => hi.alone hrun h' ?_) hrun₁
      (hS.of_eq hlock (by rw [hcpu]) (fun _ => by rw [hcpu])) ?_
    · rwa [hcpu] at hh'
    · rw [hplace]
      exact hshow l'
  have hno : (∀ q, s.lock (.proc q) ≠ some h) → ∀ q, .proc q ∉ S :=
    fun hno q hmem => hno q ((hS.mem _).mpr hmem)
  cases op with
  | acquire lk l' =>
    obtain ⟨hnone, rfl⟩ := acquire_map_next.mp hstep
    rw [abs_lock (hi.alone hrun) hrun hS hnone (hshow l')]
    have hsh : Shown lk (.code l' : Place K C L) = true := by cases lk <;> rfl
    rw [if_pos hsh]
    exact .acquire hpost hcan hop (owner_of_none hnone)
  | release lk l' =>
    obtain ⟨hlk, -⟩ := hrule
    have hmem := (hS.mem lk).mp hlk
    obtain rfl := hS.release_map hmem hstep
    rw [abs_unlock (hi.alone hrun) hrun hS hmem (fun lk' hlk' _ => hshow l' lk' hlk')]
    exact .release hpost hcan hop (hown lk hlk)
  | act f l' =>
    cases hstep
    have habs := hchange ({ s with data := f s.data }) l' rfl rfl rfl
    rw [habs]
    exact .act hpost hcan hop
  | allocproc q pid start f l' =>
    obtain ⟨hlk, hunused⟩ := hrule
    cases hstep
    have hq : q ≠ p := by
      rintro rfl
      rw [hunused] at hst
      exact hst.elim nofun (fun h => nomatch h.1)
    have hpark : ∀ h', (s.cpu h').mode.current ≠ some q := by
      refine (hi.running_or_parked (h := h) ?_ hlk).resolve_left ?_
      · rw [hrun]
        exact fun heq => hq (Option.some.inj heq).symm
      · rw [hunused]
        exact nofun
    have hview : (({ s with data := f s.data, saved := update s.saved q true }.setEntry q
        { s.entry q with pid := pid, state := .USED }).goto q (.forkret start)).abs
        = { s.abs with view := { s.abs.view with
            status := update s.abs.view.status q .used
            pid := update s.abs.view.pid q pid
            data := f s.abs.view.data } }.goto q (.code start) := by
      rw [abs_goto_parked (by exact hpark), abs_setEntry_view (by simp [hunused])]
      simp only [update_view_killed]
      rfl
    have habs := hchange (({ s with
        data := f s.data
        saved := update s.saved q true }.setEntry q
      { s.entry q with pid := pid, state := .USED }).goto q (.forkret start)) l' rfl rfl
      (update_of_ne (Ne.symm hq) _ _)
    rw [habs, hview]
    exact .allocproc hpost hcan hop (hown _ hlk) (by show status _ = _; rw [hunused]; rfl) hq
  | runnable q l' =>
    obtain ⟨hlk, hused⟩ := hrule
    cases hstep
    have habs := hchange (s.setEntry q { s.entry q with state := .RUNNABLE }) l' rfl rfl rfl
    rw [habs, abs_setEntry_view (by simp [hused])]
    simp only [update_view_killed, update_view_pid]
    exact .runnable hpost hcan hop (hown _ hlk) (by show status _ = _; rw [hused]; rfl)
  | freeproc q f l' =>
    obtain ⟨hlk, hq, hstate⟩ := hrule
    cases hstep
    have habs := hchange ({ s with data := f s.data }.setEntry q ⟨.UNUSED, none, false, 0⟩) l'
      rfl rfl rfl
    have hns : ¬ (s.entry q).state = .SLEEPING := by
      intro hsl
      rw [hsl] at hstate
      exact hstate.elim nofun nofun
    rw [habs, abs_setEntry_view (by simp [hns])]
    refine .freeproc hpost hcan hop (hown _ hlk) hq ?_
    show status _ = _ ∨ status _ = _
    exact hstate.imp (fun hu => by rw [hu]; rfl) (fun hz => by rw [hz]; rfl)
  | zombie f l' =>
    cases hstep
    have habs := hchange ({ s with data := f s.data }.setEntry p
      { s.entry p with state := .ZOMBIE }) l' rfl rfl rfl
    have hns : ¬ (s.entry p).state = .SLEEPING := by
      intro hsl
      rw [hsl] at hst
      exact hst.elim nofun (fun h => nomatch h.1)
    rw [habs, abs_setEntry_view (by simp [hns])]
    simp only [update_view_killed ({ s with data := f s.data }) p,
      update_view_pid ({ s with data := f s.data }) p]
    exact .zombie hpost hcan hop (hown _ hrule)
  | sched =>
    cases hstep
    have howner : (s.goto p (.sched .zombieExit)).owner = update s.owner (.proc p) none := by
      funext lk
      rw [owner_thread (s := s) (t := s.goto p (.sched .zombieExit)) (fun _ _ _ => Iff.rfl)
        (hi.alone hrun) hrun (fun _ _ => rfl) (fun q hq => by simp [hq]) lk]
      by_cases hlk : lk = .proc p
      · subst hlk
        simp [hrule.1, Shown, Place.isCode]
      · simp [hrule.1, hlk]
    have hgone := post_goto s p (.sched .zombieExit)
    have habs : (s.goto p (.sched .zombieExit)).abs = (s.abs.own (.proc p) none).goto p .gone := by
      unfold State.abs Mon.goto Mon.own
      rw [howner, hgone]
      rfl
    rw [habs]
    exact .sched hpost hcan hop
  | sleep c k l' =>
    cases hstep
    rw [abs_goto (hi.alone hrun) hrun hS (fun lk hlk => ?_)]
    · exact .sleep hpost hcan hop (hown _ ((hrule _).mpr rfl))
    · have hk := (hrule lk).mp ((hS.mem lk).mpr hlk)
      rw [hk]
      rfl
  | wakeup c l' =>
    cases hstep
    rw [abs_goto (hi.alone hrun) hrun hS (fun lk hlk => ?_)]
    · exact .wakeup hpost hcan hop
    · rw [shown_of_no_proc (hno hrule) hlk, shown_of_no_proc (hno hrule) hlk]
  | kill pid found missing =>
    cases hstep
    rw [abs_goto (hi.alone hrun) hrun hS (fun lk hlk => ?_)]
    · exact .kill hpost hcan hop
    · rw [shown_of_no_proc (hno hrule) hlk, shown_of_no_proc (hno hrule) hlk]
  | yield l' =>
    cases hstep
    rw [abs_goto (hi.alone hrun) hrun hS (fun lk hlk => absurd ((hS.mem lk).mpr hlk) (hrule lk))]
    exact .skip hpost hcan hop (Or.inl rfl)
  | intr on l' =>
    cases hstep
    have habs : ((s.goto p (.code l')).setCpu h { s.cpu h with intr := on }).abs
        = s.abs.goto p (.code l') := by
      rw [abs_setCpu (by rfl), hchange s l' rfl rfl rfl]
    exact habs ▸ .skip hpost hcan hop (Or.inr ⟨on, rfl⟩)

/-- What becomes of an action of a thread, as others see it: nothing, or a
step. -/
def Seen (code : Code n K C D L X) (s : State n H K C D L) (p : Fin n) (x : X)
    (s' : State n H K C D L) : Prop :=
  s'.abs = s.abs ∨ Mon.Step code s.abs p x s'.abs

include hi hrun in
/-- **Every action of a thread is a step, or is not seen.** -/
theorem Inv.threadStep_seen
    (hrule : ∀ l op, s.place p = .code l → code p l s.view x = some op → Rule s h p op)
    (hstep : s.threadStep code h p x (s.place p) = .next s') : Seen code s p x s' := by
  obtain ⟨S, hS, hb⟩ := hi.body hrun
  have hone := hi.alone hrun
  have hpost : s.abs.post p = (s.place p).post (s.entry p) := rfl
  -- the release of a lock that others do not see
  have hquiet : ∀ {k : SpinLock n K} {a : Place K C L}, k ∈ S → Shown k (s.place p) = false →
      (∀ lk' ∈ S, lk' ≠ k → Shown lk' a = Shown lk' (s.place p)) →
      a.post (s.entry p) = (s.place p).post (s.entry p) →
      (s.release h k).map (·.goto p a) = .next s' → s'.abs = s.abs := by
    intro k a hmem hhide hshow ha hrel
    obtain rfl := hS.release_map hmem hrel
    exact abs_unlock_same hi hrun hS hmem hhide hshow ha
  have hhidden : ∀ (s₁ : State n H K C D L) {a : Place K C L}, s₁.cpu = s.cpu → s₁.lock = s.lock →
      s₁.place = s.place → (∀ lk : SpinLock n K, Shown lk a = Shown lk (s.place p)) →
      (s₁.goto p a).abs = s₁.abs.goto p (a.post (s₁.entry p)) := by
    intro s₁ a hcpu hlock hplace hshow
    refine abs_goto (S := S) (fun h' hh' => hone h' ?_) (by rw [hcpu, hrun])
      (hS.of_eq hlock (by rw [hcpu]) (fun _ => by rw [hcpu])) (fun lk _ => ?_)
    · rwa [hcpu] at hh'
    · rw [hplace]
      exact hshow lk
  have hother : ∀ {q : Fin n} {a : Place K C L}, (∀ q', .proc q' ∈ S ↔ q' = q) →
      ∀ lk' ∈ S, lk' ≠ .proc q → Shown lk' a = Shown lk' (s.place p) := by
    intro q a hS' lk' hlk' hne
    cases lk' with
    | other k => rfl
    | proc q' => exact absurd (congrArg _ ((hS' q').mp hlk')) hne
  have hfree : (∀ q, .proc q ∉ S) → ∀ a : Place K C L, ∀ lk ∈ S,
      Shown lk a = Shown lk (s.place p) := by
    intro hno a lk hlk
    rw [shown_of_no_proc hno hlk, shown_of_no_proc hno hlk]
  cases hpl : s.place p with
  | code l =>
    rw [hpl] at hstep
    unfold State.threadStep at hstep
    dsimp only at hstep
    cases hop : code p l s.view x with
    | none =>
      rw [hop] at hstep
      cases hstep
    | some op =>
      rw [hop] at hstep
      exact Or.inr (hi.doOp_step hrun hpl hop (hrule l op hpl hop) hstep)
  | sleepLock c k l =>
    rw [hpl] at hb hstep
    obtain ⟨rfl, hst⟩ := hb
    obtain ⟨hnone, rfl⟩ := acquire_map_next.mp hstep
    left
    refine abs_lock_same hi hrun hS hnone rfl ?_ ?_
    · simp [Shown]
    · rw [hpl]
      rfl
  | sleepUnlock c k l =>
    rw [hpl] at hb hstep hpost
    obtain ⟨rfl, hst⟩ := hb
    have hmem : SpinLock.other k ∈ ({.other k, .proc p} : Finset (SpinLock n K)) := by simp
    obtain rfl := hS.release_map hmem hstep
    right
    rw [abs_unlock hone hrun hS hmem]
    · refine .doze hpost (status_live hst) ?_
      exact owner_eq_some.mpr ⟨h, (hS.mem _).mpr hmem, hrun, rfl⟩
    · simp [Shown, Place.isCode, hpl]
  | sleepMark c k l =>
    rw [hpl] at hb hstep
    obtain ⟨rfl, hst⟩ := hb
    cases hstep
    left
    refine abs_setGoto_same hi hrun hS (by rw [hst]; rfl) rfl rfl ?_ ?_
    · simp [Shown, Place.isCode, hpl]
    · rw [hpl]
      rfl
  | sleepTidy c k l =>
    rw [hpl] at hb hstep
    obtain ⟨rfl, hst⟩ := hb
    cases hstep
    left
    refine abs_setGoto_same hi hrun hS rfl rfl rfl ?_ ?_
    · simp [Shown, Place.isCode, hpl]
    · simp [hpl, Place.post, hst]
  | sleepRelease k l =>
    rw [hpl] at hb hstep
    obtain ⟨rfl, hst⟩ := hb
    left
    refine hquiet (k := .proc p) (by simp) (by rw [hpl]; rfl) (by simp) (by rw [hpl]; rfl) hstep
  | sleepRelock k l =>
    rw [hpl] at hb hstep hpost
    obtain ⟨rfl, hst⟩ := hb
    obtain ⟨hnone, rfl⟩ := acquire_map_next.mp hstep
    right
    rw [abs_lock hone hrun hS hnone (by simp), if_pos (by rfl)]
    exact .relock hpost (status_live hst) (owner_of_none hnone)
  | yieldLock ret =>
    rw [hpl] at hb hstep
    obtain ⟨rfl, hst, hret⟩ := hb
    obtain ⟨hnone, rfl⟩ := acquire_map_next.mp hstep
    exact Or.inl (abs_lock_same hi hrun hS hnone rfl (by simp) (by rw [hpl]; rfl))
  | yieldMark ret =>
    rw [hpl] at hb hstep
    obtain ⟨rfl, hst, hret⟩ := hb
    cases hstep
    left
    refine abs_setGoto_same hi hrun hS (by rw [hst]; rfl) rfl rfl ?_ ?_
    · simp [Shown, Place.isCode, hpl]
    · rw [hpl]
      exact Place.post_congr (by simp [hst]) ret
  | yieldRelease ret =>
    rw [hpl] at hb hstep
    obtain ⟨rfl, hst, hret⟩ := hb
    left
    exact hquiet (k := .proc p) (by simp) (by rw [hpl]; rfl) (by simp) (by rw [hpl]; rfl) hstep
  | trapReturn ret =>
    rw [hpl] at hb hstep
    obtain ⟨rfl, hst, hret⟩ := hb
    cases hstep
    exact Or.inl (abs_cpuGoto_same hi hrun hS rfl (by simp) (by rw [hpl]; rfl))
  | sched ret =>
    rw [hpl] at hb hstep
    simp only [State.threadStep, hi.schedTests hrun hpl] at hstep
    cases hstep
    obtain ⟨rfl, -⟩ := hb
    left
    refine abs_goto_same hi hrun hS ?_ (by rw [hpl]; rfl)
    simp [Shown, Place.isCode, hpl]
  | swtch intena ret =>
    rw [hpl] at hstep
    cases hstep
    exact Or.inl (abs_swtch hi hrun hpl)
  | resume intena ret =>
    rw [hpl] at hb hstep
    obtain ⟨rfl, hst, hres⟩ := hb
    cases hstep
    left
    refine abs_cpuGoto_same hi hrun hS rfl ?_ (by rw [hpl]; rfl)
    cases ret <;> simp_all [Place.Resumable, Shown, Place.isCode]
  | wakeup c i l =>
    rw [hpl] at hb hstep hpost
    obtain ⟨hno, hst⟩ := hb
    by_cases hlt : i < n
    · obtain ⟨q, rfl⟩ : ∃ q : Fin n, i = q := ⟨⟨i, hlt⟩, rfl⟩
      by_cases hqp : q = p
      · subst hqp
        rw [threadStep_wakeup_self] at hstep
        cases hstep
        right
        rw [abs_goto hone hrun hS (hfree hno _)]
        exact .wakeSelf hpost (status_live hst)
      · rw [threadStep_wakeup_other hqp] at hstep
        obtain ⟨hnone, rfl⟩ := acquire_map_next.mp hstep
        exact Or.inl (abs_lock_same hi hrun hS hnone rfl (hfree hno _) (by rw [hpl]; rfl))
    · rw [threadStep_wakeup_end (not_lt.mp hlt)] at hstep
      cases hstep
      right
      rw [abs_goto hone hrun hS (hfree hno _)]
      exact .wakeEnd hpost (status_live hst) (not_lt.mp hlt)
  | wakeTest c i l =>
    rw [hpl] at hb hstep hpost
    obtain ⟨⟨q, rfl, hqp, hS'⟩, hst⟩ := hb
    rw [threadStep_wakeTest] at hstep
    cases hstep
    right
    have ht : Tells (s.entry q) (s.place q) := by
      refine hi.tells (h := h) ?_ ((hS.mem _).mpr ((hS' q).mpr rfl))
      rw [hrun]
      exact fun heq => hqp (Option.some.inj heq).symm
    have hcpu : (s.wakeOne c q).cpu = s.cpu := by unfold wakeOne; split <;> rfl
    have hlock : (s.wakeOne c q).lock = s.lock := by unfold wakeOne; split <;> rfl
    have hplace : (s.wakeOne c q).place = s.place := by unfold wakeOne; split <;> rfl
    have habs := hhidden (s.wakeOne c q) (a := .wakeRelease c q l) hcpu hlock hplace
      (fun lk => by rw [hpl]; cases lk <;> rfl)
    rw [habs, abs_wakeOne ht]
    exact .wakeNext hpost (status_live hst) hqp
  | wakeRelease c i l =>
    rw [hpl] at hb hstep
    obtain ⟨⟨q, rfl, hqp, hS'⟩, hst⟩ := hb
    rw [threadStep_wakeRelease] at hstep
    left
    exact hquiet ((hS' q).mpr rfl) (by rw [hpl]; rfl) (hother hS') (by rw [hpl]; rfl) hstep
  | kill pid i found missing =>
    rw [hpl] at hb hstep hpost
    obtain ⟨hno, hst⟩ := hb
    by_cases hlt : i < n
    · obtain ⟨q, rfl⟩ : ∃ q : Fin n, i = q := ⟨⟨i, hlt⟩, rfl⟩
      rw [threadStep_kill] at hstep
      obtain ⟨hnone, rfl⟩ := acquire_map_next.mp hstep
      exact Or.inl (abs_lock_same hi hrun hS hnone rfl (hfree hno _) (by rw [hpl]; rfl))
    · rw [threadStep_kill_end (not_lt.mp hlt)] at hstep
      cases hstep
      right
      rw [abs_goto hone hrun hS (hfree hno _)]
      exact .killEnd hpost (status_live hst) (not_lt.mp hlt)
  | killTest pid i found missing =>
    rw [hpl] at hb hstep hpost
    obtain ⟨⟨q, rfl, hS'⟩, hst⟩ := hb
    have ht : Tells (s.entry q) (s.place q) := by
      by_cases hqp : q = p
      · subst hqp
        refine Or.inl ⟨?_, ?_⟩
        · rw [hst]
          rintro ⟨⟩
        · rw [hpl]
          rintro _ _ _ ⟨⟩
      · refine hi.tells (h := h) ?_ ((hS.mem _).mpr ((hS' q).mpr rfl))
        rw [hrun]
        exact fun heq => hqp (Option.some.inj heq).symm
    rw [threadStep_killTest] at hstep
    right
    split at hstep <;> rename_i hpid
    · cases hstep
      have habs := hhidden (s.killOne q) (a := .killRelease true pid q found missing) rfl rfl rfl
        (fun lk => by rw [hpl]; cases lk <;> rfl)
      rw [habs, abs_killOne ht]
      exact .killHit hpost (status_live hst) hpid
    · cases hstep
      have habs := hhidden s (a := .killRelease false pid q found missing) rfl rfl rfl
        (fun lk => by rw [hpl]; cases lk <;> rfl)
      rw [habs]
      exact .killMiss hpost (status_live hst) hpid
  | killRelease hit pid i found missing =>
    rw [hpl] at hb hstep
    obtain ⟨⟨q, rfl, hS'⟩, hst⟩ := hb
    rw [threadStep_killRelease] at hstep
    left
    refine hquiet ((hS' q).mpr rfl) (by rw [hpl]; rfl) (hother hS') ?_ hstep
    rw [hpl]
    cases hit <;> rfl
  | forkret l =>
    rw [hpl] at hb hstep
    obtain ⟨rfl, hst⟩ := hb
    left
    exact hquiet (k := .proc p) (by simp) (by rw [hpl]; rfl) (by simp) (by rw [hpl]; rfl) hstep
  | zombieExit =>
    rw [hpl] at hb
    exact hb.elim

/-- **Every action is a step of a process, or is not seen.** -/
theorem Inv.refines (hi : Inv s) {h : H} {act : Act X} (hok : Obeys code s (h, act))
    (hstep : Threads.step code s (h, act) = .next s') :
    s'.abs = s.abs ∨ ∃ p x, (s.cpu h).mode = .run p ∧ act = .go x ∧
      Mon.Step code s.abs p x s'.abs := by
  cases act with
  | go x =>
    obtain ⟨S, hS, hm⟩ := hi.cpus h
    change s.cpuStep code h x = .next s' at hstep
    unfold State.cpuStep at hstep
    cases hmode : (s.cpu h).mode with
    | scan i =>
      left
      simp only [hmode] at hstep
      by_cases hlt : i < n
      · simp only [hlt, dite_true] at hstep
        obtain ⟨hnone, rfl⟩ := acquire_map_next.mp hstep
        refine abs_scheduler (h := h) (by simp [hmode]) (fun h' hne => by simp [hne])
          (fun h' hne lk => ?_) rfl rfl (fun _ => Iff.rfl) (fun lk => owner_of_mode (by simp))
        by_cases heq : lk = .proc ⟨i, hlt⟩
        · simp [heq, hnone, Ne.symm hne]
        · simp [heq]
      · simp only [hlt, dite_false] at hstep
        cases hstep
        exact abs_setCpu_scheduler (by simp [hmode]) (by simp)
    | test p =>
      left
      simp only [hmode] at hstep
      split at hstep
      · rename_i hst
        cases hstep
        refine abs_scheduler (h := h) (by simp [hmode]) (fun h' hne => by simp [hne])
          (fun _ _ _ => Iff.rfl) rfl ?_ ?_ (fun lk => owner_of_mode (by simp))
        · have hview := s.view_setEntry p { s.entry p with state := .RUNNING }
          have hlive : status .RUNNING = status (s.entry p).state := by rw [hst]; rfl
          simp only [hlive, update_view_status, update_view_killed,
            update_view_pid] at hview
          exact hview
        · intro q
          by_cases hq : q = p
          · subst hq
            simp [hst]
          · simp [hq]
      · cases hstep
        exact abs_setCpu_scheduler (by simp [hmode]) (by simp)
    | load p =>
      left
      simp only [hmode] at hstep
      cases hstep
      rw [hmode] at hm
      obtain ⟨rfl, hst, hres, -⟩ := hm
      refine abs_scheduler (h := h) (by simp [hmode]) (fun h' hne => by simp [hne])
        (fun _ _ _ => Iff.rfl) rfl rfl (fun _ => Iff.rfl) (fun lk hlk => ?_)
      have hmem := Finset.mem_singleton.mp ((hS.mem lk).mp hlk)
      rw [owner_of_run (h := h) (p := p) hlk (by simp), hmem]
      cases hpl : s.place p <;> simp_all [Place.Resumable, Shown, Place.isCode]
    | run p =>
      simp only [hmode] at hstep
      have hseen := hi.threadStep_seen hmode (fun l op hpl hop => hok (p, op) (by
        rw [nextOp_eq hmode hpl, hop]
        rfl)) hstep
      exact hseen.imp id (fun hs => ⟨p, x, rfl, rfl, hs⟩)
    | saved p =>
      left
      simp only [hmode] at hstep
      cases hstep
      exact abs_setCpu_scheduler (by simp [hmode]) (by simp)
    | back p =>
      left
      simp only [hmode] at hstep
      cases hstep
      exact abs_setCpu_scheduler (by simp [hmode]) (by simp)
    | next p =>
      left
      simp only [hmode] at hstep
      rw [hmode] at hm
      have hSp : S = {.proc p} := hm
      have hmem : .proc p ∈ S := by rw [hSp]; simp
      obtain rfl := hS.release_map hmem hstep
      refine abs_scheduler (h := h) (by simp [hmode])
        (fun h' hne => by simp [unlocked, hne]) (fun h' hne lk => ?_) rfl rfl
        (fun _ => Iff.rfl) (fun lk => owner_of_mode (by simp))
      by_cases heq : lk = .proc p
      · simp [heq, (hS.mem _).mpr hmem, Ne.symm hne]
      · simp [heq]
  | timer =>
    left
    change s.timer h = .next s' at hstep
    unfold State.timer at hstep
    split at hstep
    · rename_i p hmode
      split at hstep
      · rename_i hintr
        cases hstep
        obtain ⟨S, hS, hb⟩ := hi.body hmode
        have hSe : S = ∅ := by
          by_contra hne
          rw [hS.intr (Finset.nonempty_iff_ne_empty.mpr hne)] at hintr
          cases hintr.1
        subst hSe
        exact abs_cpuGoto_same hi hmode hS rfl (by simp) rfl
      · cases hstep
    · cases hstep

end Refines

/-! ## From the simpler machine to the other -/

namespace Mon

variable {n : ℕ} {K C D L X : Type}

/-- **What a thread obeys**, as others see it. -/
def Rule (m : Mon n K C D L) (p : Fin n) : Op n K C D L → Prop
  | .acquire lk _ => m.owner lk ≠ some p
  | .release lk _ => m.owner lk = some p ∧ (lk = .proc p → m.view.status p ≠ .zombie)
  | .act _ _ => True
  | .allocproc q _ _ _ _ => m.owner (.proc q) = some p ∧ m.view.status q = .unused
  | .runnable q _ => m.owner (.proc q) = some p ∧ m.view.status q = .used
  | .freeproc q _ _ => m.owner (.proc q) = some p ∧ q ≠ p ∧
      (m.view.status q = .used ∨ m.view.status q = .zombie)
  | .zombie _ _ => m.owner (.proc p) = some p
  | .sched => (∀ lk, m.owner lk = some p ↔ lk = .proc p) ∧ m.view.status p = .zombie
  | .sleep _ k _ => ∀ lk, m.owner lk = some p ↔ lk = .other k
  | .wakeup _ _ | .kill _ _ _ => ∀ q, m.owner (.proc q) ≠ some p
  | .yield _ | .intr _ _ => ∀ lk, m.owner lk ≠ some p

/-- The first state. -/
def boot (pid : Fin n → Option ℤ) (l : Fin n → L) (d : D) : Mon n K C D L where
  view := ⟨fun q => if (pid q).isSome then .live else .unused, fun _ => false,
    fun q => (pid q).getD 0, d⟩
  owner := fun _ => none
  post := fun q => .code (l q)

end Mon

section Transfer

variable {n : ℕ} {H K C D L X : Type}

theorem boot_abs (pid : Fin n → Option ℤ) (l : Fin n → L) (d : D) :
    (boot pid l d : State n H K C D L).abs = Mon.boot pid l d := by
  have hview : (boot pid l d : State n H K C D L).view
      = (Mon.boot pid l d : Mon n K C D L).view := by
    unfold State.view Mon.boot boot
    simp only [View.mk.injEq, and_true]
    refine ⟨?_, ?_, ?_⟩
    all_goals
      funext q
      cases pid q <;> simp [status]
  unfold State.abs
  rw [hview]
  rfl

theorem status_eq_unused {st : ProcState} : status st = .unused ↔ st = .UNUSED := by
  cases st <;> simp [status]

theorem status_eq_used {st : ProcState} : status st = .used ↔ st = .USED := by
  cases st <;> simp [status]

theorem status_eq_zombie {st : ProcState} : status st = .zombie ↔ st = .ZOMBIE := by
  cases st <;> simp [status]

variable [DecidableEq K] {s s' : State n H K C D L} {h : H} {p : Fin n} {code : Code n K C D L X}

theorem rule_of_mon (hi : Inv s) (hrun : (s.cpu h).mode = .run p) {l : L}
    (hpl : s.place p = .code l) {op : Op n K C D L} (hrule : s.abs.Rule p op) : Rule s h p op := by
  have hlk := lock_iff_owner hi hrun hpl
  have hstatus : ∀ q, s.abs.view.status q = status (s.entry q).state := fun _ => rfl
  cases op <;>
    simp only [Mon.Rule, Rule, hlk, hstatus, status_eq_unused, status_eq_used, status_eq_zombie,
      ne_eq] at hrule ⊢ <;>
    exact hrule

variable [DecidableEq H] [DecidableEq C]

/-- An action that does to what others see only what `R` allows. -/
def Allows (code : Code n K C D L X) (R : Mon n K C D L → Fin n → X → Mon n K C D L → Prop)
    (s : State n H K C D L) : H × Act X → Prop
  | (h, .go x) =>
    match Threads.step code s (h, .go x) with
    | .next s' => ∀ p, (s.cpu h).mode = .run p → R s.abs p x s'.abs
    | _ => True
  | (_, .timer) => True

theorem allows_of_forall {R : Mon n K C D L → Fin n → X → Mon n K C D L → Prop}
    (hR : ∀ m p x m', R m p x m') (act : H × Act X) : Allows code R s act := by
  obtain ⟨h, act⟩ := act
  cases act with
  | timer => trivial
  | go x =>
    simp only [Allows]
    split
    · exact fun p _ => hR _ p x _
    · trivial

/-- **What holds of the simpler machine holds of the machine with CPUs**: an
invariant that every step keeps, and under which the code of the threads obeys
the rules. -/
theorem Mon.transfer {J : Mon n K C D L → Prop}
    {R : Mon n K C D L → Fin n → X → Mon n K C D L → Prop}
    (hrule : ∀ m p l x op, J m → m.post p = .code l → m.CanRun p →
      code p l m.view x = some op → m.Rule p op)
    (hstep : ∀ m p x m', J m → R m p x m' → Mon.Step code m p x m' → J m')
    {pid₀ : Fin n → Option ℤ} {l₀ : Fin n → L} {d₀ : D} (hboot : J (Mon.boot pid₀ l₀ d₀))
    (hreach : Machine.Reach (Threads.step code) (Allows code R) (Threads.boot pid₀ l₀ d₀) s) :
    Inv s ∧ J s.abs ∧ ∀ act, Obeys code s act := by
  have hobeys : ∀ s : State n H K C D L, Inv s → J s.abs → ∀ act, Obeys code s act := by
    rintro s hi hJ ⟨h, act⟩
    cases act with
    | timer => trivial
    | go x =>
      rintro ⟨p, op⟩ hop
      unfold State.nextOp at hop
      split at hop
      · rename_i q hrun
        split at hop
        · rename_i l hpl
          obtain ⟨op', hop', heq⟩ := Option.map_eq_some_iff.mp hop
          obtain ⟨rfl, rfl⟩ := Prod.mk.inj heq
          refine rule_of_mon hi hrun hpl (hrule _ q l x op' hJ ?_ ?_ hop')
          · show (s.place q).post (s.entry q) = _
            rw [hpl]
            rfl
          · exact canRun hi hrun hpl
        · nomatch hop
      · nomatch hop
  have hinv : Inv s ∧ J s.abs := by
    refine hreach.invariant (P := fun s => Inv s ∧ J s.abs) ⟨Inv.boot pid₀ l₀ d₀, ?_⟩ ?_
    · rw [boot_abs]
      exact hboot
    · rintro s ⟨h, act⟩ s' ⟨hi, hJ⟩ hok hs
      have hob := hobeys s hi hJ (h, act)
      refine ⟨?_, ?_⟩
      · have hsafe := hi.step hob
        rwa [hs] at hsafe
      · rcases hi.refines hob hs with heq | ⟨p, x, hrun, rfl, hseen⟩
        · rw [heq]
          exact hJ
        · simp only [Allows, hs] at hok
          exact hstep _ p x _ hJ (hok p hrun) hseen
  exact ⟨hinv.1, hinv.2, hobeys s hinv.1 hinv.2⟩

end Transfer

end Xv6.Threads
