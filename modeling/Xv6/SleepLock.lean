import Xv6.Wakeups

/-!
# Sleep locks

`acquiresleep` and `releasesleep` as code of the threads: a sleep lock is two
fields under a spin lock, whose waiters sleep on the address of the lock. A
process may hold any number of sleep locks, ask whether it holds one, be
killed or be woken up for nothing at any time. It releases only what it
holds.

The main result is `sleeplock_safe`: a sleep lock excludes, and none of its
waiters is left asleep when it is free.
-/

open Function

namespace Xv6.SleepLock

open Threads

/-- `struct sleeplock`, apart from its spin lock and its name. -/
structure Sleeplock where
  locked : Bool
  pid : ℤ
  deriving DecidableEq

/-- Where a process is in the functions on sleep locks. -/
inductive Pc (A : Type) where
  /-- Outside. -/
  | out
  /-- In `acquiresleep`, at the test of the loop. -/
  | testing (a : A)
  /-- About to release `lk->lk`. -/
  | acquired (a : A)
  /-- In `releasesleep`, about to clear the fields. -/
  | clearing (a : A)
  /-- About to call `wakeup`. -/
  | waking (a : A)
  /-- About to release `lk->lk`. -/
  | released (a : A)
  /-- In `holdingsleep`, about to read the fields. -/
  | asking (a : A)
  /-- About to release `lk->lk` and return. -/
  | answered (a : A) (r : Bool)
  deriving DecidableEq

/-- The local state of a process: the sleep locks that it has locked and not
yet cleared, and where it is. -/
structure Local (A : Type) where
  held : Finset A
  pc : Pc A
  deriving DecidableEq

/-- What a process can call. -/
inductive Call (A : Type) where
  | acquiresleep (a : A)
  | releasesleep (a : A)
  | holdingsleep (a : A)
  /-- A wake-up for nothing. -/
  | wakeup (a : A)
  | kill (pid : ℤ)
  | yield

variable {n : ℕ} {H A : Type} [DecidableEq A]

/-- `initsleeplock`. -/
def initsleeplock : Sleeplock := ⟨false, 0⟩

/-- A process outside that has locked nothing. -/
def Local.out : Local A := ⟨∅, .out⟩

/-- **The functions on sleep locks.** -/
def code : Code n A A (A → Sleeplock) (Local A) (Call A) := fun p l v x =>
  match l.pc with
  | .out =>
    match x with
    | .acquiresleep a => some (.acquire (.other a) { l with pc := .testing a })
    | .releasesleep a =>
      if a ∈ l.held then some (.acquire (.other a) { l with pc := .clearing a }) else none
    | .holdingsleep a => some (.acquire (.other a) { l with pc := .asking a })
    | .wakeup a => some (.wakeup a l)
    | .kill pid => some (.kill pid l l)
    | .yield => some (.yield l)
  | .testing a =>
    if (v.data a).locked then some (.sleep a a l)
    else some (.act (update · a ⟨true, v.pid p⟩)
      { held := insert a l.held, pc := .acquired a })
  | .acquired a => some (.release (.other a) { l with pc := .out })
  | .clearing a =>
    some (.act (update · a ⟨false, 0⟩) { held := l.held.erase a, pc := .waking a })
  | .waking a => some (.wakeup a { l with pc := .released a })
  | .released a => some (.release (.other a) { l with pc := .out })
  | .asking a =>
    some (.act id { l with
      pc := .answered a ((v.data a).locked && decide ((v.data a).pid = v.pid p)) })
  | .answered a _ => some (.release (.other a) { l with pc := .out })

/-- The spin locks that a process holds. -/
def holds (_ : Fin n) (l : Local A) : Finset (SpinLock n A) :=
  match l.pc with
  | .out => ∅
  | .testing a | .acquired a | .clearing a | .waking a | .released a | .asking a
  | .answered a _ => {.other a}

/-- **What the code does**, read backwards: the local state before an
operation, and the one after it. -/
inductive Does (p : Fin n) (v : View n (A → Sleeplock)) :
    Local A → Op n A A (A → Sleeplock) (Local A) → Prop
  /-- The beginning of a function. -/
  | enter {held a pc} (hpc : pc = .testing a ∨ pc = .clearing a ∧ a ∈ held ∨ pc = .asking a) :
    Does p v ⟨held, .out⟩ (.acquire (.other a) ⟨held, pc⟩)
  | idleWakeup {held a} : Does p v ⟨held, .out⟩ (.wakeup a ⟨held, .out⟩)
  | kill {held pid} : Does p v ⟨held, .out⟩ (.kill pid ⟨held, .out⟩ ⟨held, .out⟩)
  | yield {held} : Does p v ⟨held, .out⟩ (.yield ⟨held, .out⟩)
  | sleep {held a} (hlocked : (v.data a).locked = true) :
    Does p v ⟨held, .testing a⟩ (.sleep a a ⟨held, .testing a⟩)
  | set {held a} (hlocked : (v.data a).locked = false) :
    Does p v ⟨held, .testing a⟩
      (.act (update · a ⟨true, v.pid p⟩) ⟨insert a held, .acquired a⟩)
  | clear {held a} :
    Does p v ⟨held, .clearing a⟩ (.act (update · a ⟨false, 0⟩) ⟨held.erase a, .waking a⟩)
  | wakeup {held a} : Does p v ⟨held, .waking a⟩ (.wakeup a ⟨held, .released a⟩)
  | ask {held a r} : Does p v ⟨held, .asking a⟩ (.act id ⟨held, .answered a r⟩)
  /-- The end of a function. -/
  | leave {held a pc} (hpc : pc = .acquired a ∨ pc = .released a ∨ ∃ r, pc = .answered a r) :
    Does p v ⟨held, pc⟩ (.release (.other a) ⟨held, .out⟩)

theorem code_does {p : Fin n} {l : Local A} {v : View n (A → Sleeplock)} {x : Call A}
    {op : Op n A A (A → Sleeplock) (Local A)} (hop : code p l v x = some op) : Does p v l op := by
  obtain ⟨held, pc⟩ := l
  revert hop
  fun_cases code p ⟨held, pc⟩ v x <;> rintro ⟨⟩ <;> grind [Does]

theorem disciplined : Disciplined (holds (n := n) (A := A)) code := by
  intro p l v x op hop
  cases code_does hop with
  | enter hpc => rcases hpc with rfl | ⟨rfl, -⟩ | rfl <;> simp [OpOk, holds]
  | leave hpc => rcases hpc with rfl | rfl | ⟨r, rfl⟩ <;> simp [OpOk, holds]
  | _ => simp [OpOk, holds]

theorem heedless : Heedless (code (n := n) (A := A)) := by
  rintro p pid found missing ⟨l, v, x, hop⟩
  cases code_does hop with
  | kill => rfl

/-! ## Exclusion -/

section Exclusion

/-- The states of the threads and of the sleep locks. -/
abbrev Locks (n : ℕ) (A : Type) : Type := Mon n A A (A → Sleeplock) (Local A)

/-- A process that has locked a sleep lock and not yet cleared it: it is
between its `acquiresleep` and its `releasesleep`, or at the end of the one or
the beginning of the other. -/
def Has (m : Locks n A) (p : Fin n) (a : A) : Prop := ∃ l, m.labels p = some l ∧ a ∈ l.held

/-- **Who has locked a sleep lock** is alone, is the one in its field, and is
the only one to clear it. -/
structure Excl (m : Locks n A) : Prop where
  clear : ∀ p l a, m.labels p = some l → l.pc = .clearing a → a ∈ l.held
  has : ∀ p a, Has m p a → m.view.data a = ⟨true, m.view.pid p⟩
  one : ∀ p q a, Has m p a → Has m q a → p = q

omit [DecidableEq A] in
theorem Excl.boot (pid : Fin n → Option ℤ) :
    Excl (Mon.boot pid (fun _ => ⟨∅, .out⟩) (fun _ => initsleeplock) : Locks n A) where
  clear p l a h := by
    cases h
    exact nofun
  has p a h := by simp [Has, Mon.labels, Mon.boot, Post.label] at h
  one p q a h := by simp [Has, Mon.labels, Mon.boot, Post.label] at h

variable {m m' : Locks n A} {p : Fin n}

omit [DecidableEq A] in
/-- A process goes on, perhaps with a change to sleep locks that no other
process has. -/
theorem Excl.move (hJ : Excl m) {l' : Local A}
    (hlab : m'.labels = update m.labels p (some l')) (hpid : m'.view.pid = m.view.pid)
    (hclear : ∀ a, l'.pc = .clearing a → a ∈ l'.held)
    (hhas : ∀ a ∈ l'.held, m'.view.data a = ⟨true, m.view.pid p⟩ ∧ ∀ q, q ≠ p → ¬ Has m q a)
    (hdata : ∀ q, q ≠ p → ∀ a, Has m q a → m'.view.data a = m.view.data a) : Excl m' := by
  have hself : ∀ a, Has m' p a → a ∈ l'.held := by
    rintro a ⟨l, hl, ha⟩
    rw [hlab, update_self] at hl
    rwa [Option.some.inj hl]
  have hother : ∀ q, q ≠ p → ∀ a, Has m' q a → Has m q a := by
    rintro q hq a ⟨l, hl, ha⟩
    rw [hlab, update_of_ne hq] at hl
    exact ⟨l, hl, ha⟩
  refine ⟨fun q l a hl hpc => ?_, fun q a h => ?_, fun q r a hq hr => ?_⟩
  · rw [hlab] at hl
    by_cases hqp : q = p
    · rw [hqp, update_self] at hl
      cases hl
      exact hclear a hpc
    · rw [update_of_ne hqp] at hl
      exact hJ.clear q l a hl hpc
  · rw [hpid]
    by_cases hqp : q = p
    · subst hqp
      exact (hhas a (hself a h)).1
    · have h₀ := hother q hqp a h
      rw [hdata q hqp a h₀]
      exact hJ.has q a h₀
  · by_cases hqp : q = p
    · by_cases hrp : r = p
      · rw [hqp, hrp]
      · rw [hqp] at hq
        exact absurd (hother r hrp a hr) ((hhas a (hself a hq)).2 r hrp)
    · by_cases hrp : r = p
      · rw [hrp] at hr
        exact absurd (hother q hqp a hq) ((hhas a (hself a hr)).2 q hqp)
      · exact hJ.one q r a (hother q hqp a hq) (hother r hrp a hr)

omit [DecidableEq A] in
theorem Excl.goto (hJ : Excl m) {l l' : Local A} (hl : m.labels p = some l)
    (hlab : m'.labels = update m.labels p (some l')) (hview : m'.view = m.view)
    (hheld : l'.held = l.held) (hclear : ∀ a, l'.pc = .clearing a → a ∈ l'.held) : Excl m' := by
  refine hJ.move hlab (by rw [hview]) hclear (fun a ha => ?_) (fun _ _ _ _ => by rw [hview])
  have hpa : Has m p a := ⟨l, hl, by rwa [← hheld]⟩
  refine ⟨?_, fun q hq hqa => hq (hJ.one q p a hqa hpa)⟩
  rw [hview]
  exact hJ.has p a hpa

/-- **Every step keeps the exclusion.** -/
theorem Excl.step (hJ : Excl m) {x : Call A}
    (hstep : Relabels code m p x m') : Excl m' := by
  cases hstep with
  | @op l op l' hp hrun hop htarget hnew hview hlab =>
    have hl := Mon.labels_of_code hp
    cases code_does hop with
    | enter hpc =>
      cases htarget
      refine hJ.goto hl hlab hview rfl (fun a h => ?_)
      rcases hpc with rfl | ⟨rfl, ha⟩ | rfl
      · nomatch h
      · cases h
        exact ha
      · nomatch h
    | @set held a hlocked =>
      cases htarget
      have hfree : ∀ q, ¬ Has m q a := fun q hq => by
        rw [hJ.has q a hq] at hlocked
        nomatch hlocked
      refine hJ.move hlab (by rw [hview]; rfl) (by simp) (fun b hb => ?_) (fun q hq b hb => ?_)
      · rw [hview]
        by_cases hba : b = a
        · subst hba
          exact ⟨by simp [Op.apply], fun q _ => hfree q⟩
        · have hpb : Has m p b := ⟨_, hl, (Finset.mem_insert.mp hb).resolve_left hba⟩
          refine ⟨by simpa [Op.apply, hba] using hJ.has p b hpb, fun q hq hqb => ?_⟩
          exact hq (hJ.one q p b hqb hpb)
      · have hba : b ≠ a := by
          rintro rfl
          exact hfree q hb
        simp [hview, Op.apply, hba]
    | @clear held a =>
      cases htarget
      have hpa : Has m p a := ⟨_, hl, hJ.clear p _ a hl rfl⟩
      refine hJ.move hlab (by rw [hview]; rfl) (by simp) (fun b hb => ?_) (fun q hq b hb => ?_)
      · obtain ⟨hba, hb⟩ := Finset.mem_erase.mp hb
        have hpb : Has m p b := ⟨_, hl, hb⟩
        rw [hview]
        refine ⟨by simpa [Op.apply, hba] using hJ.has p b hpb, fun q hq hqb => ?_⟩
        exact hq (hJ.one q p b hqb hpb)
      · have hba : b ≠ a := by
          rintro rfl
          exact hq (hJ.one q p b hb hpa)
        simp [hview, Op.apply, hba]
    | _ =>
      cases htarget
      exact hJ.goto hl hlab hview rfl (by simp)
  | sched hp hrun hop => exact nomatch code_does hop
  | quiet hview hlab =>
    have hsame : ∀ q a, Has m' q a ↔ Has m q a := by
      intro q a
      unfold Has
      rw [hlab]
    refine ⟨fun q l a h => ?_, fun q a h => ?_, fun q r a hq hr => ?_⟩
    · rw [hlab] at h
      exact hJ.clear q l a h
    · rw [hview]
      exact hJ.has q a ((hsame q a).mp h)
    · exact hJ.one q r a ((hsame q a).mp hq) ((hsame r a).mp hr)

end Exclusion

/-! ## Waiters -/

section Waiters

variable {m : Locks n A} {p : Fin n} {l : Local A} {x : Call A}
  {op : Op n A A (A → Sleeplock) (Local A)}

/-- A process waits for a sleep lock because it is locked. -/
def Waits (v : View n (A → Sleeplock)) (a : A) : Prop := (v.data a).locked = true

/-- `releasesleep` has cleared the sleep lock and will wake up its waiters. -/
def Owes (_ : Fin n) (l : Local A) (a : A) : Prop := l.pc = .waking a

omit [DecidableEq A] in
theorem holds_of_owes (p : Fin n) (l : Local A) (a : A) (h : Owes p l a) :
    .other a ∈ holds p l := by
  simp [holds, show l.pc = .waking a from h]

/-- **The functions on sleep locks wake up whom they must.** -/
theorem wakeful (hop : code p l m.view x = some op) :
    Wakeful holds id Waits Owes (fun _ _ _ => False) m p l op := by
  have hsame : ∀ {l l' : Local A} {v : View n (A → Sleeplock)}, (∀ a, l.pc ≠ .waking a) →
      (∀ a, Waits m.view a → Waits v a) →
      NextOk holds id Waits Owes (fun _ _ _ => False) m p l v l' :=
    fun hpc hv => .same hv (fun a h => absurd h (hpc a)) (fun _ h => h)
  cases code_does hop with
  | enter hpc => exact hsame (by simp) (fun _ h => h)
  | idleWakeup => exact fun a => ⟨fun h => (nomatch h), fun h => h.elim⟩
  | kill => exact fun a => ⟨fun h => (nomatch h), fun h => h, fun h => h⟩
  | yield => exact hsame (by simp) (fun _ h => h)
  | sleep hlocked => exact ⟨rfl, hlocked, fun a => ⟨fun h => (nomatch h), fun h => h⟩⟩
  | @set held a hlocked =>
    refine hsame (by simp) (fun b h => ?_)
    by_cases hb : b = a
    · simp [Waits, hb]
    · simpa [Waits, hb] using h
  | @clear held a =>
    intro b
    by_cases hb : b = a
    · subst hb
      exact ⟨fun _ => Or.inr (Or.inl rfl), fun _ => Or.inr (by simp [holds]), fun h => h⟩
    · have hkeep : Waits m.view b →
          Waits { m.view with data := update m.view.data a ⟨false, 0⟩ } b := by
        simp [Waits, hb]
      exact ⟨fun h => Or.inl (hkeep (h.resolve_right nofun)),
        fun h => Or.inl (hkeep h), fun h => h⟩
  | wakeup => exact fun a => ⟨fun h => (Pc.waking.inj h).symm, fun h => h.elim⟩
  | ask => exact hsame (by simp) (fun _ h => h)
  | leave hpc =>
    refine hsame (fun a => ?_) (fun _ h => h)
    rcases hpc with rfl | rfl | ⟨r, rfl⟩ <;> simp

end Waiters

/-! ## The main result -/

variable [DecidableEq H]

/-- **Sleep locks exclude and never strand a waiter.** In any interleaving of
the steps of any number of processes on any number of CPUs: at most one
process is between its `acquiresleep` and its `releasesleep` of a sleep lock,
whose fields say that it is locked by that process; when the spin lock of a
sleep lock is free and the sleep lock is not locked, no process sleeps on it;
and no step ends in a panic. -/
theorem sleeplock_safe (pid₀ : Fin n → Option ℤ)
    {s : State n H A A (A → Sleeplock) (Local A)}
    (hreach : Machine.Reach (Threads.step code) (fun _ _ => True)
      (boot pid₀ (fun _ => Local.out) (fun _ => initsleeplock)) s) :
    (∀ a p q, Has s.abs p a → Has s.abs q a → p = q) ∧
    (∀ a p, Has s.abs p a → s.data a = ⟨true, (s.entry p).pid⟩) ∧
    (∀ a, s.lock (.other a) = none → (s.data a).locked = false →
      ∀ p, ¬ ((s.entry p).state = .SLEEPING ∧ (s.entry p).chan = some a)) ∧
    ∀ act e, Threads.step code s act ≠ .panic e := by
  obtain ⟨hi, ho, ⟨-, hE, hN⟩, hsafe⟩ := Owners.transfer (R := fun _ _ _ _ => True)
    (J := fun m : Locks n A => Sourced code m ∧ Excl m ∧
      NoLost holds id Waits Owes (fun _ _ _ => False) m)
    disciplined
    (fun m p l x op _ _ _ _ hop => by
      cases code_does hop with
      | leave hpc => exact nofun
      | _ => trivial)
    (fun m p x m' ho ⟨hsrc, hE, hN⟩ _ hstep =>
      have hmoves := hstep.moves
      ⟨hsrc.step hmoves, hE.step (hmoves.relabels hsrc heedless),
        hN.step ho holds_of_owes (fun _ _ _ h => h.elim) (fun _ _ _ => Iff.rfl) disciplined
          (fun l op _ hop => wakeful hop) hmoves⟩)
    (fun _ => rfl) ⟨Sourced.boot, Excl.boot pid₀, NoLost.boot (fun _ _ h => h)⟩
    (hreach.mono (fun s act _ => allows_of_forall (fun _ _ _ _ => trivial) act))
  refine ⟨fun a p q => hE.one p q a, fun a p => hE.has p a, fun a hfree hl p hp => ?_, hsafe⟩
  have hlocked : (s.data a).locked = true := hN.free hi ho holds_of_owes hfree hp.1 hp.2
  rw [hl] at hlocked
  nomatch hlocked

/-- One process has a sleep lock; another one, on another CPU, sleeps on it. -/
theorem sleeplock_safe_contended :
    ∃ s : State 2 (Fin 2) Unit Unit (Unit → Sleeplock) (Local Unit),
      Machine.Reach (step code) (fun _ _ => True)
        (boot (fun p => some (p + 1)) (fun _ => Local.out) (fun _ => initsleeplock)) s ∧
      (s.entry 1).state = .SLEEPING ∧ (s.entry 1).chan = some () ∧
      s.data () = ⟨true, 1⟩ ∧ ¬ Has s.abs 1 () := by
  have hrun : (Machine.run (step code) (fun _ _ => True)
      (boot (fun p => some (p + 1)) (fun _ => Local.out) (fun _ => initsleeplock) :
        State 2 (Fin 2) Unit Unit (Unit → Sleeplock) (Local Unit))
      (List.replicate 8 (0, .go (.acquiresleep ())) ++
        List.replicate 17 (1, .go (.acquiresleep ())))).Next fun s =>
      (s.entry 1).state = .SLEEPING ∧ (s.entry 1).chan = some () ∧ (s.entry 0).pid = 1 ∧
        (s.abs.labels 0).map (·.held) = some {()} := by
    decide +kernel
  obtain ⟨s, hreach, hst, hchan, hpid, hheld⟩ := Machine.exists_reach_of_run hrun
  obtain ⟨hone, hfields, -⟩ := sleeplock_safe _ hreach
  obtain ⟨l, hl, hh⟩ := Option.map_eq_some_iff.mp hheld
  have hhas : Has s.abs 0 () := ⟨l, hl, by simp [hh]⟩
  refine ⟨s, hreach, hst, hchan, ?_, fun h => ?_⟩
  · rw [hfields () 0 hhas, hpid]
  · exact absurd (hone () 0 1 hhas h) (by decide)

end Xv6.SleepLock
