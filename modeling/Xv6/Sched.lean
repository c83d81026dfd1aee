import Xv6.Threads

/-!
# One CPU for each process

The lock of a process is acquired by a thread and released by the scheduler,
or the other way round, and `wakeup` and `kill` can make a process runnable
while it is still on its way into the scheduler. That it nevertheless runs on
one CPU at a time rests on an invariant (`Inv`) that links, for every CPU, its
mode, the locks it holds, its count of them, and the state of the process it
is at: outside its own lock a process that is on a CPU is `RUNNING`, and the
scheduler only takes one that is `RUNNABLE`.

The threads obey rules of their own (`Rule`): a lock is released by the CPU
that holds it, `sleep` is called with its lock and no other, `wakeup` and
`kill` without the lock of a process, `yield` without any; and the entry of a
process changes under its lock, along the states it goes through. Everything
is proved for any code that obeys them.
-/

open Finset
open Function (update update_of_ne update_self)

namespace Xv6.Threads

variable {n : ℕ} {H K C D L X : Type} [DecidableEq H] [DecidableEq K]

namespace State

variable (s : State n H K C D L)

/-- The state after a CPU got a lock. -/
def locked (h : H) (lk : SpinLock n K) : State n H K C D L :=
  { s.setCpu h (s.cpu h).pushOff with lock := update s.lock lk (some h) }

/-- The state after a CPU released a lock. -/
def unlocked (h : H) (lk : SpinLock n K) : State n H K C D L :=
  { s.setCpu h { s.cpu h with
      noff := (s.cpu h).noff - 1
      intr := decide ((s.cpu h).noff - 1 = 0) && (s.cpu h).intena } with
    lock := update s.lock lk none }

variable {s} {h : H} {lk : SpinLock n K}

@[simp] theorem locked_entry : (s.locked h lk).entry = s.entry := rfl
@[simp] theorem locked_place : (s.locked h lk).place = s.place := rfl
@[simp] theorem locked_lock : (s.locked h lk).lock = update s.lock lk (some h) := rfl
@[simp] theorem locked_cpu :
    (s.locked h lk).cpu = update s.cpu h (s.cpu h).pushOff := rfl

@[simp] theorem unlocked_entry : (s.unlocked h lk).entry = s.entry := rfl
@[simp] theorem unlocked_place : (s.unlocked h lk).place = s.place := rfl
@[simp] theorem unlocked_lock : (s.unlocked h lk).lock = update s.lock lk none := rfl

theorem acquire_map_next {T : Type} {f : State n H K C D L → T} {t : T} :
    (s.acquire h lk).map f = .next t ↔ s.lock lk = none ∧ f (s.locked h lk) = t := by
  unfold acquire
  cases hlk : s.lock lk with
  | none => simp [locked, Outcome.map]
  | some h' =>
    by_cases hh : h' = h
    · simp [hh, Outcome.map]
    · simp [hh, Outcome.map]

end State

/-! ## The locks a CPU holds -/

/-- **The locks a CPU holds** are those in `S`, and it counts them; it has
interrupts off if there are any. -/
structure Held (s : State n H K C D L) (h : H) (S : Finset (SpinLock n K)) : Prop where
  mem : ∀ lk, s.lock lk = some h ↔ lk ∈ S
  noff : (s.cpu h).noff = S.card
  intr : S.Nonempty → (s.cpu h).intr = false

namespace Held

variable {s : State n H K C D L} {h : H} {S : Finset (SpinLock n K)} {lk : SpinLock n K}

theorem locked (hs : Held s h S) (hlk : s.lock lk = none) :
    Held (s.locked h lk) h (insert lk S) where
  mem lk' := by
    by_cases heq : lk' = lk
    · simp [heq]
    · simp [heq, hs.mem]
  noff := by
    have hnot : lk ∉ S := fun hmem => by simp [(hs.mem lk).mpr hmem] at hlk
    simp [Cpu.pushOff, hs.noff, hnot]
  intr _ := by simp [Cpu.pushOff]

theorem unlocked (hs : Held s h S) (hlk : lk ∈ S) : Held (s.unlocked h lk) h (S.erase lk) where
  mem lk' := by
    by_cases heq : lk' = lk
    · simp [heq]
    · simp [heq, hs.mem]
  noff := by
    have hpos := card_pos.mpr ⟨lk, hlk⟩
    simp only [State.unlocked, State.setCpu, update_self, hs.noff,
      card_erase_of_mem hlk]
    omega
  intr hne := by
    have hcard := card_erase_of_mem hlk
    have hpos := card_pos.mpr hne
    simp only [State.unlocked, State.setCpu, update_self, hs.noff, Bool.and_eq_false_imp,
      decide_eq_true_eq]
    omega

theorem release (hs : Held s h S) (hlk : lk ∈ S) :
    s.release h lk = .next (s.unlocked h lk) := by
  have hpos := card_pos.mpr ⟨lk, hlk⟩
  have hnoff := hs.noff
  have hintr := hs.intr ⟨lk, hlk⟩
  have hlt : ¬ (s.cpu h).noff < 1 := by omega
  simp [State.release, (hs.mem lk).mpr hlk, Cpu.popOff, hintr, hlt, Outcome.map, State.unlocked]

theorem release_map (hs : Held s h S) (hlk : lk ∈ S) {T : Type} {f : State n H K C D L → T} {t : T}
    (hstep : (s.release h lk).map f = .next t) : f (s.unlocked h lk) = t := by
  rw [hs.release hlk] at hstep
  exact Outcome.next.inj hstep

omit [DecidableEq H] [DecidableEq K] in
theorem of_eq (hs : Held s h S) {s' : State n H K C D L} (hlock : s'.lock = s.lock)
    (hnoff : (s'.cpu h).noff = (s.cpu h).noff)
    (hintr : S.Nonempty → (s'.cpu h).intr = (s.cpu h).intr) : Held s' h S where
  mem := by rw [hlock]; exact hs.mem
  noff := hnoff.trans hs.noff
  intr hne := (hintr hne).trans (hs.intr hne)

end Held

/-! ## The invariant -/

/-- The process whose thread a CPU is at, or switching to or from. -/
def Mode.current : Mode n → Option (Fin n)
  | .load p | .run p | .saved p | .back p => some p
  | .scan _ | .test _ | .next _ => none

/-- A place to which a thread returns that holds no lock. -/
def Place.Unlocked : Place K C L → Prop
  | .code _ | .sleepRelock _ _ | .wakeup _ _ _ | .kill _ _ _ _ => True
  | .yieldLock ret | .trapReturn ret => ret.Unlocked
  | _ => False

/-- A place in which a thread can be switched to. -/
def Place.Resumable : Place K C L → Prop
  | .resume _ (.sleepTidy _ _ _) | .forkret _ => True
  | .resume _ (.yieldRelease ret) => ret.Unlocked
  | _ => False

/-- **A thread that is not on a CPU**, or just leaves it, is at a place that
fits its state. -/
def Fits (e : Entry C) (a : Place K C L) : Prop :=
  match e.state with
  | .UNUSED => (∃ l, a = .forkret l) ∨ ∃ i, a = .resume i .zombieExit
  | .USED => ∃ l, a = .forkret l
  | .SLEEPING => ∃ i c k l, a = .resume i (.sleepTidy c k l) ∧ e.chan = some c
  | .RUNNABLE => a.Resumable
  | .RUNNING => False
  | .ZOMBIE => ∃ i, a = .resume i .zombieExit

/-- The place with which a thread that calls `sched` will be found. -/
def Fits.sched (e : Entry C) (ret : Place K C L) : Prop :=
  (∀ i, Fits e (.resume i ret)) ∧ e.state ≠ .UNUSED

/-- **A thread on a CPU** that holds the locks in `S`. -/
def Body (p : Fin n) (e : Entry C) (S : Finset (SpinLock n K)) : Place K C L → Prop
  | .code _ => e.state = .RUNNING ∨ e.state = .ZOMBIE ∧ .proc p ∈ S
  | .sleepLock _ k _ => S = {.other k} ∧ e.state = .RUNNING
  | .sleepUnlock _ k _ => S = {.other k, .proc p} ∧ e.state = .RUNNING
  | .sleepMark _ _ _ | .sleepTidy _ _ _ | .sleepRelease _ _ | .forkret _ =>
    S = {.proc p} ∧ e.state = .RUNNING
  | .sleepRelock _ _ => S = ∅ ∧ e.state = .RUNNING
  | .yieldLock ret | .trapReturn ret => S = ∅ ∧ e.state = .RUNNING ∧ ret.Unlocked
  | .yieldMark ret | .yieldRelease ret => S = {.proc p} ∧ e.state = .RUNNING ∧ ret.Unlocked
  | .sched ret | .swtch _ ret => S = {.proc p} ∧ Fits.sched e ret
  | .resume i ret =>
    S = {.proc p} ∧ e.state = .RUNNING ∧ (Place.resume i ret : Place K C L).Resumable
  | .wakeup _ _ _ | .kill _ _ _ _ => (∀ q, .proc q ∉ S) ∧ e.state = .RUNNING
  | .wakeTest _ i _ | .wakeRelease _ i _ =>
    (∃ q : Fin n, i = q ∧ q ≠ p ∧ ∀ q', .proc q' ∈ S ↔ q' = q) ∧ e.state = .RUNNING
  | .killTest _ i _ _ | .killRelease _ _ i _ _ =>
    (∃ q : Fin n, i = q ∧ ∀ q', .proc q' ∈ S ↔ q' = q) ∧ e.state = .RUNNING
  | .zombieExit => False

/-- What is true of a CPU in some mode that holds the locks in `S`. -/
def ModeOk (s : State n H K C D L) (S : Finset (SpinLock n K)) : Mode n → Prop
  | .scan _ => S = ∅
  | .test p | .next p => S = {.proc p}
  | .load p => S = {.proc p} ∧ (s.entry p).state = .RUNNING ∧ (s.place p).Resumable
      ∧ s.saved p = true
  | .run p => Body p (s.entry p) S (s.place p)
  | .saved p | .back p => S = {.proc p} ∧ Fits (s.entry p) (s.place p)
      ∧ (s.entry p).state ≠ .UNUSED ∧ s.saved p = true

/-- **The invariant of the scheduler.** -/
structure Inv (s : State n H K C D L) : Prop where
  cpus : ∀ h, ∃ S, Held s h S ∧ ModeOk s S (s.cpu h).mode
  current : ∀ h, (s.cpu h).proc = (s.cpu h).mode.current
  one : ∀ h h' p, (s.cpu h).mode.current = some p → (s.cpu h').mode.current = some p → h = h'
  parked : ∀ p, (∀ h, (s.cpu h).mode.current ≠ some p) →
    Fits (s.entry p) (s.place p) ∧ s.saved p = true

omit [DecidableEq H] in
theorem Inv.boot (pid : Fin n → Option ℤ) (l : Fin n → L) (d : D) :
    Inv (boot pid l d : State n H K C D L) where
  cpus h := ⟨∅, ⟨by simp [Threads.boot], by simp [Threads.boot], by simp⟩,
    by simp [ModeOk, Threads.boot]⟩
  current h := rfl
  one h h' q hq := nomatch hq
  parked q _ := by
    refine ⟨?_, rfl⟩
    cases hq : pid q <;> simp [Threads.boot, hq, Fits, Place.Resumable]

/-! ## What an action of one CPU leaves to the others -/

/-- An action of the CPU `h`, as the others see it. -/
structure Frame (h : H) (s s' : State n H K C D L) : Prop where
  cpu : ∀ h', h' ≠ h → s'.cpu h' = s.cpu h'
  lock : ∀ h', h' ≠ h → ∀ lk, s'.lock lk = some h' ↔ s.lock lk = some h'
  /-- The entry of a process changes under its lock, and one that runs stays
  running for others. -/
  entry : ∀ q, s'.entry q = s.entry q ∨ s.lock (.proc q) = some h ∧
    ((s.entry q).state = .RUNNING →
      (s.cpu h).mode.current = some q ∨ (s'.entry q).state = .RUNNING)
  /-- A thread moves on its CPU; only that of an unused entry is set up. -/
  place : ∀ q, s'.place q = s.place q ∧ s'.saved q = s.saved q ∨ (s.cpu h).mode.current = some q
    ∨ s.lock (.proc q) = some h ∧ (s.entry q).state = .UNUSED

variable {a : Place K C L} {e : Entry C}

theorem Body.state {p : Fin n} {S : Finset (SpinLock n K)}
    (h : Body p e S a) : e.state = .RUNNING ∨ .proc p ∈ S := by
  cases a <;> simp only [Body] at h <;> try (exact Or.inl (by tauto))
  · exact h.imp id And.right
  all_goals
    right
    rw [h.1]
    simp

theorem Body.of_running {p : Fin n} {e e' : Entry C} {S : Finset (SpinLock n K)}
    (h : Body p e S a) (hrun : e.state = .RUNNING)
    (he : e'.state = .RUNNING) : Body p e' S a := by
  cases a <;> simp only [Body, Fits.sched, Fits, hrun, he] at h ⊢ <;> tauto

theorem Place.Unlocked.body (ha : a.Unlocked) {p : Fin n}
    (he : e.state = .RUNNING) : Body p e (∅ : Finset (SpinLock n K)) a := by
  cases a <;> simp_all [Place.Unlocked, Body]

theorem Body.unlocked {p : Fin n}
    (hb : Body p e (∅ : Finset (SpinLock n K)) a) : a.Unlocked := by
  have hne : ∀ (lk : SpinLock n K) (S : Finset (SpinLock n K)), ∅ ≠ insert lk S :=
    fun lk S => (insert_ne_empty lk S).symm
  cases a <;> simp_all [Place.Unlocked, Body]

theorem Place.Resumable.body (ha : a.Resumable) {p : Fin n}
    {S : Finset (SpinLock n K)} (hS : S = {.proc p}) (he : e.state = .RUNNING) :
    Body p e S a := by
  cases a <;> simp_all [Place.Resumable, Body]

omit [DecidableEq H] in
/-- **The other CPUs keep what is true of them.** -/
theorem Frame.other {h h' : H} {s s' : State n H K C D L} (hf : Frame h s s') (hi : Inv s)
    (hne : h' ≠ h) : ∃ S, Held s' h' S ∧ ModeOk s' S (s'.cpu h').mode := by
  obtain ⟨S, hS, hm⟩ := hi.cpus h'
  refine ⟨S, ⟨fun lk => (hf.lock h' hne lk).trans (hS.mem lk), ?_, ?_⟩, ?_⟩
  · rw [hf.cpu h' hne, hS.noff]
  · rw [hf.cpu h' hne]
    exact hS.intr
  have hcur : ∀ q, (s.cpu h').mode.current = some q → (s.cpu h).mode.current ≠ some q :=
    fun q hq hq' => hne (hi.one h' h q hq hq')
  -- with the lock of its process, nothing of the process changes
  have hkeep : ∀ q, (s.cpu h').mode.current = some q → .proc q ∈ S →
      s'.entry q = s.entry q ∧ s'.place q = s.place q ∧ s'.saved q = s.saved q := by
    intro q hq hmem
    have hlk : ¬ s.lock (.proc q) = some h := by
      rw [(hS.mem _).mpr hmem]
      exact fun heq => hne (Option.some.inj heq)
    refine ⟨(hf.entry q).resolve_right (fun hc => hlk hc.1), ?_⟩
    exact (hf.place q).resolve_right (fun hc => hc.elim (hcur q hq) (fun hc => hlk hc.1))
  rw [hf.cpu h' hne]
  cases hmode : (s.cpu h').mode with
  | scan i =>
    rw [hmode] at hm
    exact hm
  | test q =>
    rw [hmode] at hm
    exact hm
  | next q =>
    rw [hmode] at hm
    exact hm
  | load q =>
    rw [hmode] at hm
    obtain ⟨he, hp, hsv⟩ := hkeep q (by rw [hmode]; rfl) (by rw [hm.1]; simp)
    rw [ModeOk, he, hp, hsv]
    exact hm
  | run q =>
    rw [hmode] at hm
    have hq : (s.cpu h').mode.current = some q := by rw [hmode]; rfl
    have hb : Body q (s.entry q) S (s.place q) := hm
    show Body q (s'.entry q) S (s'.place q)
    by_cases hmem : .proc q ∈ S
    · obtain ⟨he, hp, -⟩ := hkeep q hq hmem
      rw [he, hp]
      exact hb
    · have hrun := hb.state.resolve_right hmem
      have hp : s'.place q = s.place q := by
        rcases hf.place q with hc | hc | hc
        · exact hc.1
        · exact absurd hc (hcur q hq)
        · rw [hrun] at hc
          exact nomatch hc.2
      rw [hp]
      rcases hf.entry q with he | ⟨-, he⟩
      · rw [he]
        exact hb
      · exact hb.of_running hrun ((he hrun).resolve_left (hcur q hq))
  | saved q =>
    rw [hmode] at hm
    obtain ⟨he, hp, hsv⟩ := hkeep q (by rw [hmode]; rfl) (by rw [hm.1]; simp)
    rw [ModeOk, he, hp, hsv]
    exact hm
  | back q =>
    rw [hmode] at hm
    obtain ⟨he, hp, hsv⟩ := hkeep q (by rw [hmode]; rfl) (by rw [hm.1]; simp)
    rw [ModeOk, he, hp, hsv]
    exact hm

/-- **The invariant after an action of one CPU**, from what becomes of that
CPU and of the threads that are not on one. -/
theorem Inv.of_frame {h : H} {s s' : State n H K C D L} (hi : Inv s) (hf : Frame h s s')
    {S : Finset (SpinLock n K)} (hS : Held s' h S) (hm : ModeOk s' S (s'.cpu h).mode)
    (hcur : (s'.cpu h).proc = (s'.cpu h).mode.current)
    (hone : ∀ p, (s'.cpu h).mode.current = some p → (s.cpu h).mode.current = some p ∨
      ∀ h', (s.cpu h').mode.current ≠ some p)
    (hpark : ∀ p, (s'.cpu h).mode.current ≠ some p →
      (s.cpu h).mode.current = some p ∨ s.lock (.proc p) = some h →
      (∀ h', h' ≠ h → (s.cpu h').mode.current ≠ some p) →
      Fits (s'.entry p) (s'.place p) ∧ s'.saved p = true) : Inv s' where
  cpus h' := by
    by_cases hh : h' = h
    · subst hh
      exact ⟨S, hS, hm⟩
    · exact hf.other hi hh
  current h' := by
    by_cases hh : h' = h
    · rw [hh, hcur]
    · rw [hf.cpu h' hh, hi.current]
  one h₁ h₂ p h₁p h₂p := by
    by_cases e₁ : h₁ = h
    · by_cases e₂ : h₂ = h
      · rw [e₁, e₂]
      · rw [e₁] at h₁p
        rw [hf.cpu h₂ e₂] at h₂p
        rcases hone p h₁p with hp | hp
        · rw [e₁]
          exact hi.one h h₂ p hp h₂p
        · exact absurd h₂p (hp h₂)
    · rw [hf.cpu h₁ e₁] at h₁p
      by_cases e₂ : h₂ = h
      · rw [e₂] at h₂p
        rcases hone p h₂p with hp | hp
        · rw [e₂]
          exact hi.one h₁ h p h₁p hp
        · exact absurd h₁p (hp h₁)
      · rw [hf.cpu h₂ e₂] at h₂p
        exact hi.one h₁ h₂ p h₁p h₂p
  parked p hp := by
    have hoth : ∀ h', h' ≠ h → (s.cpu h').mode.current ≠ some p := by
      intro h' hne
      rw [← hf.cpu h' hne]
      exact hp h'
    by_cases hcase : (s.cpu h).mode.current = some p ∨ s.lock (.proc p) = some h
    · exact hpark p (hp h) hcase hoth
    · rw [not_or] at hcase
      have hold := hi.parked p (fun h' => by
        by_cases hh : h' = h
        · rw [hh]
          exact hcase.1
        · exact hoth h' hh)
      have he := (hf.entry p).resolve_right (fun hc => hcase.2 hc.1)
      obtain ⟨hpl, hsv⟩ := (hf.place p).resolve_right
        (fun hc => hc.elim hcase.1 (fun hc => hcase.2 hc.1))
      rw [he, hpl, hsv]
      exact hold

/-! ## Actions of a thread -/

variable {q : Fin n}

section Thread

variable {h : H} {s s' : State n H K C D L} {p : Fin n} {S S' : Finset (SpinLock n K)}

/-- **A thread acts on its CPU**: what matters to it are its own entry, which
changes under its lock, its place and the locks of the CPU. -/
theorem Inv.thread (hi : Inv s) (hrun : (s.cpu h).mode = .run p)
    (hcpu : ∀ h', h' ≠ h → s'.cpu h' = s.cpu h') (hmode : (s'.cpu h).mode = .run p)
    (hproc : (s'.cpu h).proc = (s.cpu h).proc)
    (hlock : ∀ h', h' ≠ h → ∀ lk, s'.lock lk = some h' ↔ s.lock lk = some h')
    (hentry : ∀ q, q ≠ p → s'.entry q = s.entry q)
    (hself : s'.entry p = s.entry p ∨ s.lock (.proc p) = some h)
    (hplace : ∀ q, q ≠ p → s'.place q = s.place q) (hsaved : s'.saved = s.saved)
    (hS : Held s' h S) (hb : Body p (s'.entry p) S (s'.place p)) : Inv s' := by
  have hcur : (s.cpu h).mode.current = some p := by rw [hrun]; rfl
  have hcur' : (s'.cpu h).mode.current = some p := by rw [hmode]; rfl
  have hframe : Frame h s s' := by
    refine ⟨hcpu, hlock, fun q => ?_, fun q => ?_⟩
    · by_cases hq : q = p
      · subst hq
        exact hself.imp id (fun hl => ⟨hl, fun _ => Or.inl hcur⟩)
      · exact Or.inl (hentry q hq)
    · by_cases hq : q = p
      · subst hq
        exact Or.inr (Or.inl hcur)
      · exact Or.inl ⟨hplace q hq, by rw [hsaved]⟩
  refine hi.of_frame hframe hS ?_ ?_ ?_ ?_
  · rw [hmode]
    exact hb
  · rw [hproc, hi.current, hcur, hcur']
  · intro q hq
    rw [hcur'] at hq
    rw [hcur]
    exact Or.inl hq
  · intro q hq _ hoth
    have hqp : q ≠ p := by
      rintro rfl
      exact hq hcur'
    rw [hentry q hqp, hplace q hqp, hsaved]
    refine hi.parked q (fun h' => ?_)
    by_cases hh : h' = h
    · rw [hh, hcur]
      exact fun heq => hqp (Option.some.inj heq).symm
    · exact hoth h' hh

theorem Inv.goto (hi : Inv s) (hrun : (s.cpu h).mode = .run p) (hS : Held s h S)
    (hb : Body p (s.entry p) S a) : Inv (s.goto p a) :=
  hi.thread hrun (fun _ _ => rfl) hrun rfl (fun _ _ _ => Iff.rfl) (fun _ _ => rfl) (Or.inl rfl)
    (fun q hq => by simp [hq]) rfl (hS.of_eq rfl rfl (fun _ => rfl)) (by simpa using hb)

/-- A thread gets a lock. -/
theorem Inv.lockGoto (hi : Inv s) (hrun : (s.cpu h).mode = .run p) (hS : Held s h S)
    {lk : SpinLock n K} (hlk : s.lock lk = none)
    (hb : Body p (s.entry p) (insert lk S) a) : Inv ((s.locked h lk).goto p a) := by
  refine hi.thread (h := h) (S := insert lk S) hrun ?_ ?_ ?_ ?_ ?_ (Or.inl rfl) ?_ rfl
    ((hS.locked hlk).of_eq rfl rfl (fun _ => rfl)) (by simpa using hb)
  · intro h' hne
    simp [hne]
  · simpa [Cpu.pushOff] using hrun
  · simp [Cpu.pushOff]
  · intro h' hne lk'
    by_cases heq : lk' = lk
    · simp [heq, hlk, Ne.symm hne]
    · simp [heq]
  · intro q _
    rfl
  · intro q hq
    simp [hq]

/-- A thread releases a lock. -/
theorem Inv.unlockGoto (hi : Inv s) (hrun : (s.cpu h).mode = .run p) (hS : Held s h S)
    {lk : SpinLock n K} (hlk : lk ∈ S)
    (hb : Body p (s.entry p) (S.erase lk) a) : Inv ((s.unlocked h lk).goto p a) := by
  refine hi.thread (h := h) (S := S.erase lk) hrun ?_ ?_ ?_ ?_ ?_ (Or.inl rfl) ?_ rfl
    ((hS.unlocked hlk).of_eq rfl rfl (fun _ => rfl)) (by simpa using hb)
  · intro h' hne
    simp [State.unlocked, hne]
  · simpa [State.unlocked] using hrun
  · simp [State.unlocked]
  · intro h' hne lk'
    by_cases heq : lk' = lk
    · simp [heq, (hS.mem lk).mpr hlk, Ne.symm hne]
    · simp [heq]
  · intro q _
    rfl
  · intro q hq
    simp [hq]

theorem Inv.setGoto (hi : Inv s) (hrun : (s.cpu h).mode = .run p) (hS : Held s h S)
    (hlk : .proc p ∈ S) (hb : Body p e S a) :
    Inv ((s.setEntry p e).goto p a) := by
  refine hi.thread (h := h) (S := S) hrun (fun _ _ => rfl) hrun rfl (fun _ _ _ => Iff.rfl) ?_
    (Or.inr ((hS.mem _).mpr hlk)) ?_ rfl (hS.of_eq rfl rfl (fun _ => rfl)) (by simpa using hb)
  · intro q hq
    simp [hq]
  · intro q hq
    simp [hq]

/-- A thread changes its CPU. -/
theorem Inv.cpuGoto (hi : Inv s) (hrun : (s.cpu h).mode = .run p) (hS : Held s h S) {c : Cpu n}
    (hmode : c.mode = .run p) (hproc : c.proc = (s.cpu h).proc) (hnoff : c.noff = (s.cpu h).noff)
    (hintr : S.Nonempty → c.intr = (s.cpu h).intr)
    (hb : Body p (s.entry p) S a) : Inv ((s.setCpu h c).goto p a) := by
  refine hi.thread (h := h) (S := S) hrun ?_ (by simpa using hmode) (by simpa using hproc)
    (fun _ _ _ => Iff.rfl) (fun _ _ => rfl) (Or.inl rfl) ?_ rfl
    (hS.of_eq rfl (by simpa using hnoff) (fun hne => by simpa using hintr hne))
    (by simpa using hb)
  · intro h' hne
    simp [hne]
  · intro q hq
    simp [hq]

omit [DecidableEq H] in
theorem Inv.setData (hi : Inv s) (d : D) : Inv { s with data := d } where
  cpus h := by
    obtain ⟨S, hS, hm⟩ := hi.cpus h
    exact ⟨S, hS.of_eq rfl rfl (fun _ => rfl), hm⟩
  current := hi.current
  one := hi.one
  parked := hi.parked

/-- The entry of another process changes, under its lock. -/
theorem Inv.setOther (hi : Inv s) (hrun : (s.cpu h).mode = .run p)
    (hlk : s.lock (.proc q) = some h)
    (hrunning : (s.entry q).state = .RUNNING → e.state = .RUNNING)
    (hself : q = p → (s.entry p).state = .RUNNING)
    (hfits : q ≠ p → Fits (s.entry q) (s.place q) → Fits e (s.place q)) :
    Inv (s.setEntry q e) := by
  have hcur : (s.cpu h).mode.current = some p := by rw [hrun]; rfl
  obtain ⟨S, hS, hm⟩ := hi.cpus h
  have hframe : Frame h s (s.setEntry q e) := by
    refine ⟨fun _ _ => rfl, fun _ _ _ => Iff.rfl, fun r => ?_, fun r => Or.inl ⟨rfl, rfl⟩⟩
    by_cases hr : r = q
    · subst hr
      right
      refine ⟨hlk, fun hst => Or.inr ?_⟩
      simpa using hrunning hst
    · left
      simp [hr]
  refine hi.of_frame hframe (S := S) (hS.of_eq rfl rfl (fun _ => rfl)) ?_ ?_ ?_ ?_
  · rw [hrun] at hm
    simp only [ModeOk, State.setEntry_cpu, hrun] at hm ⊢
    by_cases hqp : q = p
    · subst hqp
      simp only [State.setEntry_entry, State.setEntry_place, update_self]
      exact hm.of_running (hself rfl) (hrunning (hself rfl))
    · simpa [Ne.symm hqp] using hm
  · exact hi.current h
  · intro r hr
    exact Or.inl hr
  · intro r hr _ hoth
    have hpark : ∀ h', (s.cpu h').mode.current ≠ some r := by
      intro h'
      by_cases hh : h' = h
      · rw [hh]
        exact hr
      · exact hoth h' hh
    obtain ⟨hfit, hsv⟩ := hi.parked r hpark
    by_cases hrq : r = q
    · subst hrq
      have hrp : r ≠ p := by
        rintro rfl
        exact hr hcur
      exact ⟨by simpa using hfits hrp hfit, hsv⟩
    · exact ⟨by simpa [hrq] using hfit, hsv⟩

end Thread

/-! ## The rules of the threads -/

/-- **What a thread obeys** when it does an operation on the CPU `h`. -/
def Rule (s : State n H K C D L) (h : H) (p : Fin n) : Op n K C D L → Prop
  | .acquire lk _ => s.lock lk ≠ some h
  | .release lk _ => s.lock lk = some h ∧ (lk = .proc p → (s.entry p).state ≠ .ZOMBIE)
  | .act _ _ => True
  | .allocproc q _ _ _ _ => s.lock (.proc q) = some h ∧ (s.entry q).state = .UNUSED
  | .runnable q _ => s.lock (.proc q) = some h ∧ (s.entry q).state = .USED
  | .freeproc q _ _ => s.lock (.proc q) = some h ∧ q ≠ p ∧
      ((s.entry q).state = .USED ∨ (s.entry q).state = .ZOMBIE)
  | .zombie _ _ => s.lock (.proc p) = some h
  | .sched => (∀ lk, s.lock lk = some h ↔ lk = .proc p) ∧ (s.entry p).state = .ZOMBIE
  | .sleep _ k _ => ∀ lk, s.lock lk = some h ↔ lk = .other k
  | .wakeup _ _ | .kill _ _ _ => ∀ q, s.lock (.proc q) ≠ some h
  | .yield _ | .intr _ _ => ∀ lk, s.lock lk ≠ some h

/-- The operation that the code of a thread would do next on a CPU. -/
def State.nextOp (code : Code n K C D L X) (s : State n H K C D L) (h : H) (x : X) :
    Option (Fin n × Op n K C D L) :=
  match (s.cpu h).mode with
  | .run p =>
    match s.place p with
    | .code l => (code p l s.view x).map fun op => (p, op)
    | _ => none
  | _ => none

omit [DecidableEq H] [DecidableEq K] in
theorem State.nextOp_eq {code : Code n K C D L X} {s : State n H K C D L} {h : H} {x : X}
    {p : Fin n} {l : L} (hmode : (s.cpu h).mode = .run p) (hpl : s.place p = .code l) :
    s.nextOp code h x = (code p l s.view x).map fun op => (p, op) := by
  rw [nextOp, hmode]
  simp only [hpl]

/-- An action in which the thread that acts, if any does, obeys the rules. -/
def Obeys (code : Code n K C D L X) (s : State n H K C D L) : H × Act X → Prop
  | (h, .go x) => ∀ r ∈ s.nextOp code h x, Rule s h r.1 r.2
  | (_, .timer) => True

/-- An outcome without a panic, and with the invariant. -/
def Safe : Outcome (State n H K C D L) Panic → Prop
  | .next s => Inv s
  | .panic _ => False
  | .disabled => True

section Safe

variable {h : H} {s : State n H K C D L} {p : Fin n} {S : Finset (SpinLock n K)}
  {lk : SpinLock n K} {f : State n H K C D L → State n H K C D L}

theorem safe_acquire (hlk : s.lock lk ≠ some h)
    (hnext : s.lock lk = none → Inv (f (s.locked h lk))) : Safe ((s.acquire h lk).map f) := by
  unfold State.acquire
  cases hl : s.lock lk with
  | none => exact hnext hl
  | some h' =>
    have hne : h' ≠ h := fun heq => hlk (heq ▸ hl)
    simp only [hne, if_false]
    trivial

theorem safe_release (hS : Held s h S) (hlk : lk ∈ S) (hnext : Inv (f (s.unlocked h lk))) :
    Safe ((s.release h lk).map f) := by
  rw [hS.release hlk]
  exact hnext

variable (hi : Inv s) (hrun : (s.cpu h).mode = .run p)

omit [DecidableEq H] in
include hrun in
theorem Inv.body (hi : Inv s) : ∃ S, Held s h S ∧ Body p (s.entry p) S (s.place p) := by
  obtain ⟨S, hS, hm⟩ := hi.cpus h
  rw [hrun] at hm
  exact ⟨S, hS, hm⟩

omit [DecidableEq H] in
include hi in
/-- A process on a CPU, to another CPU that has its lock, is in its code. -/
theorem Inv.body_elsewhere {h' : H} (hq : (s.cpu h).mode.current ≠ some q)
    (hlk : s.lock (.proc q) = some h) (hcur : (s.cpu h').mode.current = some q) :
    ∃ S, .proc q ∉ S ∧ Body q (s.entry q) S (s.place q) := by
  have hne : h' ≠ h := by
    rintro rfl
    exact hq hcur
  obtain ⟨S, hS, hm⟩ := hi.cpus h'
  have hno : .proc q ∉ S := by
    intro hmem
    rw [(hS.mem _).mpr hmem] at hlk
    exact hne (Option.some.inj hlk)
  cases hmode : (s.cpu h').mode <;> rw [hmode] at hcur hm <;>
    simp only [Mode.current, Option.some.injEq, reduceCtorEq] at hcur <;> subst hcur
  case run => exact ⟨S, hno, hm⟩
  all_goals exact absurd (by rw [hm.1]; simp) hno

omit [DecidableEq H] in
include hi in
/-- A process whose lock is held by a CPU that is not at it is on no CPU, or
running. -/
theorem Inv.running_or_parked (hq : (s.cpu h).mode.current ≠ some q)
    (hlk : s.lock (.proc q) = some h) :
    (s.entry q).state = .RUNNING ∨ ∀ h', (s.cpu h').mode.current ≠ some q := by
  rw [or_iff_not_imp_left]
  intro hnr h' hcur
  obtain ⟨S, hno, hb⟩ := hi.body_elsewhere hq hlk hcur
  exact hb.state.elim hnr hno

include hi hrun in
/-- An unused entry is taken. -/
theorem Inv.alloc (hq : q ≠ p) (hlk : s.lock (.proc q) = some h)
    (hunused : (s.entry q).state = .UNUSED) (he : e.state = .USED) (l : L) :
    Inv (({ s with saved := update s.saved q true }.setEntry q e).goto q
      (.forkret l)) := by
  have hcur : (s.cpu h).mode.current = some p := by rw [hrun]; rfl
  obtain ⟨S, hS, hb⟩ := hi.body hrun
  refine hi.of_frame (h := h) (S := S) ?_ (hS.of_eq rfl rfl (fun _ => rfl)) ?_ (hi.current h)
    (fun r hr => Or.inl hr) ?_
  · refine ⟨fun _ _ => rfl, fun _ _ _ => Iff.rfl, fun r => ?_, fun r => ?_⟩
    · by_cases hr : r = q
      · subst hr
        right
        exact ⟨hlk, fun hst => by rw [hunused] at hst; exact nomatch hst⟩
      · left
        simp [hr]
    · by_cases hr : r = q
      · subst hr
        exact Or.inr (Or.inr ⟨hlk, hunused⟩)
      · left
        simp [hr]
  · simpa [ModeOk, hrun, Ne.symm hq] using hb
  · intro r hr _ hoth
    by_cases hrq : r = q
    · subst hrq
      simp [Fits, he]
    · simp only [State.goto_entry, State.setEntry_entry, State.goto_place, State.setEntry_place,
        State.goto_saved, State.setEntry_saved, update_of_ne hrq]
      refine hi.parked r (fun h' => ?_)
      by_cases hh : h' = h
      · rw [hh]
        exact hr
      · exact hoth h' hh

include hi hrun in
/-- **Every operation of a thread that obeys the rules is safe.** -/
theorem Inv.doOp {l : L} (hpl : s.place p = .code l) {op : Op n K C D L}
    (hrule : Rule s h p op) : Safe (s.doOp h p op) := by
  obtain ⟨S, hS, hb⟩ := hi.body hrun
  rw [hpl] at hb
  have hst : (s.entry p).state = .RUNNING ∨ (s.entry p).state = .ZOMBIE ∧ .proc p ∈ S := hb
  cases op with
  | acquire lk l' =>
    refine safe_acquire hrule (fun hnone => hi.lockGoto hrun hS hnone ?_)
    exact hst.imp id (fun hz => ⟨hz.1, mem_insert_of_mem hz.2⟩)
  | release lk l' =>
    obtain ⟨hlk, hown⟩ := hrule
    have hmem := (hS.mem lk).mp hlk
    refine safe_release hS hmem (hi.unlockGoto hrun hS hmem ?_)
    refine hst.imp id (fun hz => ⟨hz.1, mem_erase.mpr ⟨?_, hz.2⟩⟩)
    rintro heq
    exact hown heq.symm hz.1
  | act f l' => exact (hi.setData (f s.data)).goto hrun (hS.of_eq rfl rfl (fun _ => rfl)) hst
  | allocproc q pid start f l' =>
    obtain ⟨hlk, hunused⟩ := hrule
    have hq : q ≠ p := by
      rintro rfl
      rw [hunused] at hst
      exact hst.elim nofun (fun h => nomatch h.1)
    have halloc := (hi.setData (f s.data)).alloc (h := h) (p := p) hrun hq hlk hunused
      (e := { s.entry q with pid := pid, state := .USED }) rfl start
    refine halloc.goto hrun (hS.of_eq rfl rfl (fun _ => rfl)) ?_
    simpa [Body, Ne.symm hq] using hst
  | runnable q l' =>
    obtain ⟨hlk, hused⟩ := hrule
    have hq : q ≠ p := by
      rintro rfl
      rw [hused] at hst
      exact hst.elim nofun (fun h => nomatch h.1)
    have hset := hi.setOther hrun hlk (e := { s.entry q with state := .RUNNABLE })
      (fun hr => by rw [hused] at hr; exact nomatch hr) (fun h => absurd h hq)
      (fun _ hfits => by
        simp only [Fits, hused] at hfits
        obtain ⟨l₁, hl₁⟩ := hfits
        simp [Fits, hl₁, Place.Resumable])
    refine hset.goto hrun (hS.of_eq rfl rfl (fun _ => rfl)) ?_
    simpa [Body, Ne.symm hq] using hst
  | freeproc q f l' =>
    obtain ⟨hlk, hq, hstate⟩ := hrule
    have hset := (hi.setData (f s.data)).setOther (h := h) (p := p) hrun hlk
      (e := ⟨.UNUSED, none, false, 0⟩)
      (fun hr => by
        change (s.entry q).state = .RUNNING at hr
        rw [hr] at hstate
        exact hstate.elim nofun nofun)
      (fun h => absurd h hq)
      (fun _ hfits => by
        change Fits (s.entry q) (s.place q) at hfits
        rcases hstate with hst' | hst' <;> simp only [Fits, hst'] at hfits
        · exact Or.inl hfits
        · exact Or.inr hfits)
    refine hset.goto hrun (hS.of_eq rfl rfl (fun _ => rfl)) ?_
    simpa [Body, Ne.symm hq] using hst
  | zombie f l' =>
    have hmem := (hS.mem _).mp (show s.lock (.proc p) = some h from hrule)
    exact (hi.setData (f s.data)).setGoto (h := h) (p := p) hrun
      (hS.of_eq rfl rfl (fun _ => rfl)) hmem (Or.inr ⟨rfl, hmem⟩)
  | sched =>
    obtain ⟨hlk, hz⟩ := hrule
    refine hi.goto hrun hS ⟨?_, ?_, ?_⟩
    · ext lk
      rw [← hS.mem, hlk, mem_singleton]
    · intro i
      simp [Fits, hz]
    · rw [hz]
      exact nofun
  | sleep c k l' =>
    have hSk : S = {.other k} := by
      ext lk
      rw [← hS.mem, mem_singleton]
      exact hrule lk
    refine hi.goto hrun hS ⟨hSk, hst.resolve_right (fun hz => ?_)⟩
    rw [hSk] at hz
    simp at hz
  | wakeup c l' =>
    have hno : ∀ q, .proc q ∉ S := fun q hmem => hrule q ((hS.mem _).mpr hmem)
    exact hi.goto hrun hS ⟨hno, hst.resolve_right (fun hz => hno p hz.2)⟩
  | kill pid found missing =>
    have hno : ∀ q, .proc q ∉ S := fun q hmem => hrule q ((hS.mem _).mpr hmem)
    exact hi.goto hrun hS ⟨hno, hst.resolve_right (fun hz => hno p hz.2)⟩
  | yield l' =>
    have hSe : S = ∅ := eq_empty_of_forall_notMem
      (fun lk hmem => hrule lk ((hS.mem lk).mpr hmem))
    refine hi.goto hrun hS ⟨hSe, hst.resolve_right (fun hz => ?_), trivial⟩
    rw [hSe] at hz
    simp at hz
  | intr on l' =>
    have hSe : S = ∅ := eq_empty_of_forall_notMem
      (fun lk hmem => hrule lk ((hS.mem lk).mpr hmem))
    refine hi.cpuGoto (c := { s.cpu h with intr := on }) (a := .code l') hrun hS hrun rfl rfl
      (fun hne => ?_) hst
    rw [hSe] at hne
    exact absurd hne (by simp)

include hi hrun in
/-- Switching away: the registers are saved, and the thread is found at a
place that fits its state. -/
theorem Inv.swtch {intena : Bool} {ret : Place K C L}
    (hpl : s.place p = .swtch intena ret) :
    Inv (({ s with saved := update s.saved p true }.setMode h (.saved p)).goto p
      (.resume intena ret)) := by
  obtain ⟨S, hS, hb⟩ := hi.body hrun
  rw [hpl] at hb
  obtain ⟨hSp, hfits, hun⟩ := hb
  have hcur : (s.cpu h).mode.current = some p := by rw [hrun]; rfl
  refine hi.of_frame (h := h) (S := S) ?_ (hS.of_eq rfl (by simp) (by simp)) ?_ ?_ ?_ ?_
  · refine ⟨fun h' hne => by simp [hne], fun _ _ _ => Iff.rfl, fun r => Or.inl rfl, fun r => ?_⟩
    by_cases hr : r = p
    · subst hr
      exact Or.inr (Or.inl hcur)
    · left
      simp [hr]
  · simp [ModeOk, hSp, hun, hfits intena]
  · simp [hi.current, hrun, Mode.current]
  · intro r hr
    left
    simpa [Mode.current, hrun] using hr
  · intro r hr _ hoth
    have hrp : r ≠ p := by
      rintro rfl
      simp [Mode.current] at hr
    simp only [State.goto_entry, State.setMode_entry, State.goto_place, State.setMode_place,
      State.goto_saved, State.setMode_saved, update_of_ne hrp]
    refine hi.parked r (fun h' => ?_)
    by_cases hh : h' = h
    · rw [hh, hcur]
      exact fun heq => hrp (Option.some.inj heq).symm
    · exact hoth h' hh

include hi hrun in
/-- **The tests of `sched` pass.** -/
theorem Inv.schedTests {ret : Place K C L} (hpl : s.place p = .sched ret) :
    s.schedTests h p = none := by
  obtain ⟨S, hS, hb⟩ := hi.body hrun
  rw [hpl] at hb
  obtain ⟨hSp, hfits, -⟩ := hb
  have hmem : .proc p ∈ S := by rw [hSp]; simp
  have hnr : (s.entry p).state ≠ .RUNNING := by
    intro hr
    simpa [Fits, hr] using hfits false
  simp [State.schedTests, (hS.mem _).mpr hmem, hS.noff, hSp, hnr, hS.intr ⟨_, hmem⟩]

omit [DecidableEq H] [DecidableEq K] in
theorem Fits.wake (hf : Fits e a) (he : e.state = .SLEEPING)
    {e' : Entry C} (he' : e'.state = .RUNNABLE) : Fits e' a := by
  simp only [Fits, he] at hf
  obtain ⟨i, c, k, l, rfl, -⟩ := hf
  simp [Fits, he', Place.Resumable]

omit [DecidableEq H] [DecidableEq K] in
/-- Apart from its channel when it sleeps, only the state of an entry counts. -/
theorem Fits.of_state {e e' : Entry C} (hf : Fits e a)
    (he : e'.state = e.state) (hchan : e'.chan = e.chan) : Fits e' a := by
  simp only [Fits, he, hchan] at hf ⊢
  exact hf

include hi hrun in
/-- `wakeup` looks at a process. -/
theorem Inv.wakeTest [DecidableEq C] (hS : Held s h S) (hqp : q ≠ p)
    (hS' : ∀ q', .proc q' ∈ S ↔ q' = q) (hst : (s.entry p).state = .RUNNING) (c : C) (l : L) :
    Inv ((s.wakeOne c q).goto p (.wakeRelease c q l)) := by
  have hlk : s.lock (.proc q) = some h := (hS.mem _).mpr ((hS' q).mpr rfl)
  unfold State.wakeOne
  split
  · rename_i hsleep
    have hset := hi.setOther hrun hlk (e := { s.entry q with state := .RUNNABLE })
      (fun hr => by rw [hr] at hsleep; exact nomatch hsleep.1) (fun heq => absurd heq hqp)
      (fun _ hf => hf.wake hsleep.1 rfl)
    refine hset.goto hrun (hS.of_eq rfl rfl (fun _ => rfl)) ⟨⟨q, rfl, hqp, hS'⟩, ?_⟩
    simpa [Ne.symm hqp] using hst
  · exact hi.goto hrun hS ⟨⟨q, rfl, hqp, hS'⟩, hst⟩

include hi hrun in
/-- `kill` has found its process, which may be the caller. -/
theorem Inv.killTest (hS : Held s h S) (hS' : ∀ q', .proc q' ∈ S ↔ q' = q)
    (hst : (s.entry p).state = .RUNNING) (pid : ℤ) (found missing : L) :
    Inv ((s.killOne q).goto p (.killRelease true pid q found missing)) := by
  have hlk : s.lock (.proc q) = some h := (hS.mem _).mpr ((hS' q).mpr rfl)
  have hset : Inv (s.killOne q) := by
    refine hi.setOther hrun hlk (fun hr => by simp [hr]) (fun _ => hst)
      (fun _ hf => ?_)
    by_cases hsleep : (s.entry q).state = .SLEEPING
    · exact hf.wake hsleep (by simp [hsleep])
    · exact hf.of_state (by simp [hsleep]) rfl
  refine hset.goto hrun (hS.of_eq rfl rfl (fun _ => rfl)) ⟨⟨q, rfl, hS'⟩, ?_⟩
  by_cases hqp : p = q
  · subst hqp
    simp [State.killOne, hst]
  · simpa [State.killOne, hqp] using hst

include hi hrun in
/-- **Every action of a thread is safe.** -/
theorem Inv.threadStep [DecidableEq C] {code : Code n K C D L X} {x : X}
    (hrule : ∀ l op, s.place p = .code l → code p l s.view x = some op → Rule s h p op) :
    Safe (s.threadStep code h p x (s.place p)) := by
  obtain ⟨S, hS, hb⟩ := hi.body hrun
  cases hpl : s.place p with
  | code l =>
    unfold State.threadStep
    dsimp only
    cases hop : code p l s.view x with
    | none => trivial
    | some op => exact hi.doOp hrun hpl (hrule l op hpl hop)
  | sleepLock c k l =>
    rw [hpl] at hb
    obtain ⟨rfl, hst⟩ := hb
    refine safe_acquire (fun hlk => ?_) (fun hnone => hi.lockGoto hrun hS hnone ⟨?_, hst⟩)
    · simpa using (hS.mem _).mp hlk
    · exact pair_comm _ _
  | sleepUnlock c k l =>
    rw [hpl] at hb
    obtain ⟨rfl, hst⟩ := hb
    have hmem : SpinLock.other k ∈ ({.other k, .proc p} : Finset (SpinLock n K)) := by simp
    refine safe_release hS hmem (hi.unlockGoto hrun hS hmem ⟨?_, hst⟩)
    exact erase_insert (by simp)
  | sleepMark c k l =>
    rw [hpl] at hb
    obtain ⟨rfl, hst⟩ := hb
    refine hi.setGoto hrun hS (by simp) ⟨rfl, ?_, by rintro ⟨⟩⟩
    exact fun i => ⟨i, c, k, l, rfl, rfl⟩
  | sleepTidy c k l =>
    rw [hpl] at hb
    obtain ⟨rfl, hst⟩ := hb
    exact hi.setGoto hrun hS (by simp) ⟨rfl, hst⟩
  | sleepRelease k l =>
    rw [hpl] at hb
    obtain ⟨rfl, hst⟩ := hb
    refine safe_release hS (by simp) (hi.unlockGoto hrun hS (by simp) ⟨?_, hst⟩)
    simp
  | sleepRelock k l =>
    rw [hpl] at hb
    obtain ⟨rfl, hst⟩ := hb
    refine safe_acquire (fun hlk => ?_) (fun hnone => hi.lockGoto hrun hS hnone (Or.inl hst))
    simpa using (hS.mem _).mp hlk
  | yieldLock ret =>
    rw [hpl] at hb
    obtain ⟨rfl, hst, hret⟩ := hb
    refine safe_acquire (fun hlk => ?_)
      (fun hnone => hi.lockGoto hrun hS hnone ⟨?_, hst, hret⟩)
    · simpa using (hS.mem _).mp hlk
    · simp
  | yieldMark ret =>
    rw [hpl] at hb
    obtain ⟨rfl, hst, hret⟩ := hb
    exact hi.setGoto hrun hS (by simp) ⟨rfl, fun _ => hret, by rintro ⟨⟩⟩
  | yieldRelease ret =>
    rw [hpl] at hb
    obtain ⟨rfl, hst, hret⟩ := hb
    refine safe_release hS (by simp) (hi.unlockGoto hrun hS (by simp) ?_)
    simpa using hret.body hst
  | trapReturn ret =>
    rw [hpl] at hb
    obtain ⟨rfl, hst, hret⟩ := hb
    exact hi.cpuGoto (c := { s.cpu h with intr := true }) hrun hS hrun rfl rfl
      (fun hne => absurd hne (by simp)) (hret.body hst)
  | sched ret =>
    rw [hpl] at hb
    unfold State.threadStep
    dsimp only
    rw [hi.schedTests hrun hpl]
    exact hi.goto hrun hS hb
  | swtch intena ret => exact hi.swtch hrun hpl
  | resume intena ret =>
    rw [hpl] at hb
    obtain ⟨rfl, hst, hres⟩ := hb
    refine hi.cpuGoto (c := { s.cpu h with intena := intena }) hrun hS hrun rfl rfl
      (fun _ => rfl) ?_
    cases ret <;> simp_all [Place.Resumable, Body]
  | wakeup c i l =>
    rw [hpl] at hb
    obtain ⟨hno, hst⟩ := hb
    by_cases hlt : i < n
    · obtain ⟨q, rfl⟩ : ∃ q : Fin n, i = q := ⟨⟨i, hlt⟩, rfl⟩
      by_cases hqp : q = p
      · subst hqp
        rw [State.threadStep_wakeup_self]
        exact hi.goto hrun hS ⟨hno, hst⟩
      · rw [State.threadStep_wakeup_other hqp]
        refine safe_acquire (fun hlk => hno _ ((hS.mem _).mp hlk))
          (fun hnone => hi.lockGoto hrun hS hnone ⟨⟨q, rfl, hqp, fun q' => ?_⟩, hst⟩)
        simp [hno]
    · rw [State.threadStep_wakeup_end (not_lt.mp hlt)]
      exact hi.goto hrun hS (Or.inl hst)
  | wakeTest c i l =>
    rw [hpl] at hb
    obtain ⟨⟨q, rfl, hqp, hS'⟩, hst⟩ := hb
    rw [State.threadStep_wakeTest]
    exact hi.wakeTest hrun hS hqp hS' hst c l
  | wakeRelease c i l =>
    rw [hpl] at hb
    obtain ⟨⟨q, rfl, hqp, hS'⟩, hst⟩ := hb
    rw [State.threadStep_wakeRelease]
    have hmem : .proc q ∈ S := (hS' q).mpr rfl
    refine safe_release hS hmem (hi.unlockGoto hrun hS hmem ⟨fun q' => ?_, hst⟩)
    simp [hS']
  | kill pid i found missing =>
    rw [hpl] at hb
    obtain ⟨hno, hst⟩ := hb
    by_cases hlt : i < n
    · obtain ⟨q, rfl⟩ : ∃ q : Fin n, i = q := ⟨⟨i, hlt⟩, rfl⟩
      rw [State.threadStep_kill]
      refine safe_acquire (fun hlk => hno _ ((hS.mem _).mp hlk))
        (fun hnone => hi.lockGoto hrun hS hnone ⟨⟨q, rfl, fun q' => ?_⟩, hst⟩)
      simp [hno]
    · rw [State.threadStep_kill_end (not_lt.mp hlt)]
      exact hi.goto hrun hS (Or.inl hst)
  | killTest pid i found missing =>
    rw [hpl] at hb
    obtain ⟨⟨q, rfl, hS'⟩, hst⟩ := hb
    rw [State.threadStep_killTest]
    split
    · exact hi.killTest hrun hS hS' hst pid found missing
    · exact hi.goto hrun hS ⟨⟨q, rfl, hS'⟩, hst⟩
  | killRelease hit pid i found missing =>
    rw [hpl] at hb
    obtain ⟨⟨q, rfl, hS'⟩, hst⟩ := hb
    rw [State.threadStep_killRelease]
    have hmem : .proc q ∈ S := (hS' q).mpr rfl
    refine safe_release hS hmem (hi.unlockGoto hrun hS hmem ?_)
    cases hit with
    | true => exact Or.inl hst
    | false =>
      refine ⟨fun q' => ?_, hst⟩
      simp [hS']
  | forkret l =>
    rw [hpl] at hb
    obtain ⟨rfl, hst⟩ := hb
    exact safe_release hS (by simp) (hi.unlockGoto hrun hS (by simp) (Or.inl hst))
  | zombieExit =>
    rw [hpl] at hb
    exact hb.elim

end Safe

/-! ## Actions of the scheduler -/

section Scheduler

variable {h : H} {s : State n H K C D L} {p : Fin n}

omit [DecidableEq H] in
/-- A CPU in the loop of `scheduler` that is at no process leaves the parked
ones alone. -/
theorem Inv.parked_of_none (hi : Inv s) (hcur : (s.cpu h).mode.current = none)
    (hoth : ∀ h', h' ≠ h → (s.cpu h').mode.current ≠ some p) :
    Fits (s.entry p) (s.place p) ∧ s.saved p = true := by
  refine hi.parked p (fun h' => ?_)
  by_cases hh : h' = h
  · rw [hh, hcur]
    exact nofun
  · exact hoth h' hh

/-- **The scheduler gets the lock of a process.** -/
theorem Inv.scanLock (hi : Inv s) {i : ℕ} (hmode : (s.cpu h).mode = .scan i)
    (hnone : s.lock (.proc p) = none) :
    Inv ((s.locked h (.proc p)).setMode h (.test p)) := by
  have hcur : (s.cpu h).mode.current = none := by rw [hmode]; rfl
  obtain ⟨S, hS, hm⟩ := hi.cpus h
  rw [hmode] at hm
  have hSe : S = _ := hm
  subst hSe
  refine hi.of_frame (h := h) (S := {.proc p}) ?_
    ((hS.locked hnone).of_eq (by rfl) (by simp) (by simp)) ?_ ?_ ?_ ?_
  · refine ⟨fun h' hne => by simp [hne], fun h' hne lk => ?_, fun q => Or.inl rfl,
      fun q => Or.inl ⟨rfl, rfl⟩⟩
    by_cases heq : lk = .proc p
    · simp [heq, hnone, Ne.symm hne]
    · simp [heq]
  · simp [ModeOk]
  · simp [Cpu.pushOff, hi.current, hmode, Mode.current]
  · intro q hq
    simp [Mode.current] at hq
  · intro q _ _ hoth
    exact hi.parked_of_none hcur hoth

/-- The scheduler takes a process that is runnable. -/
theorem Inv.testRunnable (hi : Inv s) (hmode : (s.cpu h).mode = .test p)
    (hst : (s.entry p).state = .RUNNABLE) :
    Inv ((s.setEntry p { s.entry p with state := .RUNNING }).setCpu h
      { s.cpu h with mode := .load p, proc := some p }) := by
  have hcur : (s.cpu h).mode.current = none := by rw [hmode]; rfl
  obtain ⟨S, hS, hm⟩ := hi.cpus h
  rw [hmode] at hm
  have hSe : S = _ := hm
  subst hSe
  have hlk : s.lock (.proc p) = some h := (hS.mem _).mpr (by simp)
  have hfree : ∀ h', (s.cpu h').mode.current ≠ some p := by
    refine (hi.running_or_parked (h := h) (by rw [hcur]; exact nofun)
      hlk).resolve_left ?_
    rw [hst]
    exact nofun
  obtain ⟨hfits, hsaved⟩ := hi.parked p hfree
  have hres : (s.place p).Resumable := by simpa [Fits, hst] using hfits
  refine hi.of_frame (h := h) (S := {.proc p}) ?_ (hS.of_eq (by rfl) (by simp) (by simp))
    ?_ ?_ ?_ ?_
  · refine ⟨fun h' hne => by simp [hne], fun _ _ _ => Iff.rfl, fun q => ?_,
      fun q => Or.inl ⟨rfl, rfl⟩⟩
    by_cases hq : q = p
    · subst hq
      right
      exact ⟨hlk, fun _ => Or.inr (by simp)⟩
    · left
      simp [hq]
  · simp [ModeOk, hres, hsaved]
  · simp [Mode.current]
  · intro q hq
    simp only [State.setCpu_cpu, update_self, Mode.current, Option.some.injEq] at hq
    subst hq
    exact Or.inr hfree
  · intro q hq _ hoth
    have hqp : q ≠ p := by
      rintro rfl
      simp [Mode.current] at hq
    simp only [State.setCpu_entry, State.setEntry_entry, update_of_ne hqp]
    exact hi.parked_of_none hcur hoth

/-- The CPU goes on to another mode at the same process, or leaves it. -/
theorem Inv.setMode (hi : Inv s) {c : Cpu n} {v : Fin n → Bool}
    (hnoff : c.noff = (s.cpu h).noff)
    (hintr : c.intr = (s.cpu h).intr ∨ ∃ S, Held s h S ∧ S = ∅)
    (hproc : c.proc = c.mode.current) (hsub : ∀ q, c.mode.current = some q →
      (s.cpu h).mode.current = some q)
    (hsv : ∀ q, v q = s.saved q ∨ (s.cpu h).mode.current = some q)
    (hm : ∀ S, ModeOk s S (s.cpu h).mode → ModeOk { s with saved := v } S c.mode)
    (hleave : ∀ q, (s.cpu h).mode.current = some q → c.mode.current ≠ some q →
      Fits (s.entry q) (s.place q) ∧ v q = true) :
    Inv ({ s with saved := v }.setCpu h c) := by
  obtain ⟨S, hS, hmode⟩ := hi.cpus h
  refine hi.of_frame (h := h) (S := S) ?_ (hS.of_eq (by rfl) (by simp [hnoff]) ?_)
    ?_ ?_ ?_ ?_
  · refine ⟨fun h' hne => by simp [hne], fun _ _ _ => Iff.rfl, fun q => Or.inl rfl, fun q => ?_⟩
    exact (hsv q).imp (fun hq => ⟨rfl, hq⟩) Or.inl
  · rintro ⟨lk, hlk⟩
    have hsame := hintr.resolve_right (by
      rintro ⟨S', hS', rfl⟩
      rw [← hS.mem, hS'.mem] at hlk
      simp at hlk)
    simpa using hsame
  · simp only [State.setCpu_cpu, update_self]
    exact hm S hmode
  · simpa using hproc
  · intro q hq
    exact Or.inl (hsub q (by simpa using hq))
  · intro q hq _ hoth
    by_cases hcur : (s.cpu h).mode.current = some q
    · exact hleave q hcur (by simpa using hq)
    · have hold := hi.parked q (fun h' => by
        by_cases hh : h' = h
        · rw [hh]
          exact hcur
        · exact hoth h' hh)
      exact ⟨hold.1, ((hsv q).resolve_right hcur).trans hold.2⟩

/-- The scheduler releases the lock of a process. -/
theorem Inv.nextUnlock (hi : Inv s) (hmode : (s.cpu h).mode = .next p) {S : Finset (SpinLock n K)}
    (hS : Held s h S) (hSp : S = {.proc p}) (i : ℕ) :
    Inv ((s.unlocked h (.proc p)).setMode h (.scan i)) := by
  have hcur : (s.cpu h).mode.current = none := by rw [hmode]; rfl
  subst hSp
  have hmem : SpinLock.proc p ∈ ({.proc p} : Finset (SpinLock n K)) := by simp
  refine hi.of_frame (h := h) (S := ∅) ?_
    ((by simpa using hS.unlocked hmem : Held (s.unlocked h (.proc p)) h ∅).of_eq (by rfl) (by simp)
      (by simp)) ?_ ?_ ?_ ?_
  · refine ⟨fun h' hne => by simp [State.unlocked, hne], fun h' hne lk => ?_,
      fun q => Or.inl rfl, fun q => Or.inl ⟨rfl, rfl⟩⟩
    by_cases heq : lk = .proc p
    · simp [heq, (hS.mem _).mpr hmem, Ne.symm hne]
    · simp [heq]
  · simp [ModeOk]
  · simp [State.unlocked, hi.current, hmode, Mode.current]
  · intro q hq
    simp [Mode.current] at hq
  · intro q _ _ hoth
    exact hi.parked_of_none hcur hoth

end Scheduler

section Step

variable {s : State n H K C D L} [DecidableEq C] {code : Code n K C D L X}

/-- **Every action of a CPU is safe.** -/
theorem Inv.cpuStep (hi : Inv s) {h : H} {x : X} (hok : Obeys code s (h, .go x)) :
    Safe (s.cpuStep code h x) := by
  obtain ⟨S, hS, hm⟩ := hi.cpus h
  unfold State.cpuStep
  cases hmode : (s.cpu h).mode with
  | scan i =>
    rw [hmode] at hm
    have hSe : S = ∅ := hm
    by_cases hlt : i < n
    · simp only [hlt, dite_true]
      refine safe_acquire (fun hlk => ?_) (fun hnone => hi.scanLock hmode hnone)
      rw [hS.mem, hSe] at hlk
      simp at hlk
    · simp only [hlt, dite_false]
      exact hi.setMode (v := s.saved) rfl (Or.inr ⟨S, hS, hSe⟩)
        ((hi.current h).trans (by rw [hmode]; rfl))
        nofun (fun _ => Or.inl rfl) (fun S' hm' => by rwa [hmode] at hm')
        (fun q hq => by rw [hmode] at hq; exact nomatch hq)
  | test p =>
    simp only
    split
    · rename_i hst
      exact hi.testRunnable hmode hst
    · exact hi.setMode (v := s.saved) rfl (Or.inl rfl) ((hi.current h).trans (by rw [hmode]; rfl))
        nofun (fun _ => Or.inl rfl) (fun S' hm' => by rwa [hmode] at hm')
        (fun q hq => by rw [hmode] at hq; exact nomatch hq)
  | load p =>
    refine hi.setMode rfl (Or.inl rfl) ((hi.current h).trans (by rw [hmode]; rfl)) ?_ ?_ ?_ ?_
    · intro q hq
      rw [hmode]
      exact hq
    · intro q
      by_cases hq : q = p
      · subst hq
        right
        rw [hmode]
        rfl
      · left
        simp [hq]
    · intro S' hm'
      rw [hmode] at hm'
      obtain ⟨hSp, hst, hres, -⟩ := hm'
      exact hres.body hSp hst
    · intro q hq hne
      rw [hmode] at hq
      exact absurd hq hne
  | run p =>
    refine hi.threadStep hmode (fun l op hpl hop => hok (p, op) ?_)
    rw [State.nextOp_eq hmode hpl, hop]
    rfl
  | saved p =>
    refine hi.setMode (v := s.saved) rfl (Or.inl rfl) ((hi.current h).trans (by rw [hmode]; rfl))
      ?_ (fun _ => Or.inl rfl) (fun S' hm' => by rwa [hmode] at hm') ?_
    · intro q hq
      rw [hmode]
      exact hq
    · intro q hq hne
      rw [hmode] at hq
      exact absurd hq hne
  | back p =>
    rw [hmode] at hm
    refine hi.setMode (v := s.saved) rfl (Or.inl rfl) rfl nofun
      (fun _ => Or.inl rfl) ?_ ?_
    · intro S' hm'
      rw [hmode] at hm'
      exact hm'.1
    · intro q hq _
      rw [hmode] at hq
      cases hq
      exact ⟨hm.2.1, hm.2.2.2⟩
  | next p =>
    rw [hmode] at hm
    exact safe_release hS (by rw [show S = {.proc p} from hm]; simp)
      (hi.nextUnlock hmode hS hm _)

omit [DecidableEq C] in
/-- A timer interrupt is safe. -/
theorem Inv.timer (hi : Inv s) (h : H) : Safe (s.timer h) := by
  unfold State.timer
  split
  · rename_i p hmode
    split
    · rename_i hintr
      obtain ⟨S, hS, hb⟩ := hi.body hmode
      -- interrupts are on, so that the CPU holds no lock
      have hSe : S = ∅ := by
        by_contra hne
        rw [hS.intr (nonempty_iff_ne_empty.mpr hne)] at hintr
        exact nomatch hintr.1
      subst hSe
      have hbody : Body p (s.entry p) (∅ : Finset (SpinLock n K))
        (.yieldLock (.trapReturn (s.place p))) := ⟨rfl, hintr.2, hb.unlocked⟩
      exact hi.cpuGoto (c := { s.cpu h with intr := false }) hmode hS hmode rfl rfl
        (fun hne => absurd hne (by simp)) hbody
    · trivial
  · trivial

/-- **Every action that obeys the rules is safe.** -/
theorem Inv.step (hi : Inv s) {a : H × Act X} (hok : Obeys code s a) :
    Safe (Threads.step code s a) := by
  obtain ⟨h, a⟩ := a
  cases a with
  | go x => exact hi.cpuStep hok
  | timer => exact hi.timer h

theorem Inv.of_reach {s₀ : State n H K C D L} (h₀ : Inv s₀)
    (h : Machine.Reach (Threads.step code) (Obeys code) s₀ s) : Inv s := by
  refine h.invariant h₀ (fun s a s' hi hok hs => ?_)
  have hsafe := hi.step hok
  rwa [hs] at hsafe

/-- **One CPU for each process.** Whatever the threads do that obey the
rules, in any interleaving on any number of CPUs: a process is running only
while exactly one CPU has it as its own; the context of a process is loaded
only when it has been saved, by a CPU that holds its lock while no other CPU
is still at it, not even to release that lock; and no action ends in a panic,
of `sched` or of the functions on locks. -/
theorem one_cpu (pid₀ : Fin n → Option ℤ) (l₀ : Fin n → L) (d₀ : D)
    (hreach : Machine.Reach (Threads.step code) (Obeys code) (boot pid₀ l₀ d₀) s) :
    (∀ p, (s.entry p).state = .RUNNING → ∃! h, (s.cpu h).proc = some p) ∧
    (∀ h p, (s.cpu h).mode = .load p → s.saved p = true ∧ s.lock (.proc p) = some h ∧
      ∀ h', h' ≠ h → (s.cpu h').mode.current ≠ some p ∧ (s.cpu h').mode ≠ .next p) ∧
    ∀ a e, Obeys code s a → Threads.step code s a ≠ .panic e := by
  have hi := Inv.of_reach (Inv.boot pid₀ l₀ d₀) hreach
  refine ⟨fun p hp => ?_, fun h p hmode => ?_, fun a e hok hpanic => ?_⟩
  · have hex : ∃ h, (s.cpu h).mode.current = some p := by
      by_contra hno
      rw [not_exists] at hno
      have hfits := (hi.parked p hno).1
      simp [Fits, hp] at hfits
    obtain ⟨h, hh⟩ := hex
    refine ⟨h, (hi.current h).trans hh, fun h' hh' => ?_⟩
    exact hi.one h' h p ((hi.current h').symm.trans hh') hh
  · obtain ⟨S, hS, hm⟩ := hi.cpus h
    rw [hmode] at hm
    have hlk : s.lock (.proc p) = some h := (hS.mem _).mpr (by rw [hm.1]; simp)
    refine ⟨hm.2.2.2, hlk, fun h' hne => ⟨fun hc => ?_, fun hnext => ?_⟩⟩
    · exact hne (hi.one h' h p hc (by rw [hmode]; rfl))
    · obtain ⟨S', hS', hm'⟩ := hi.cpus h'
      rw [hnext] at hm'
      have hlk' : s.lock (.proc p) = some h' :=
        (hS'.mem _).mpr (by rw [show S' = {.proc p} from hm']; simp)
      rw [hlk] at hlk'
      exact hne (Option.some.inj hlk').symm
  · have hsafe := hi.step hok
    rw [hpanic] at hsafe
    exact hsafe

/-- **A CPU counts its locks**, in any interleaving: `noff` is the number of locks that it holds,
and interrupts are off while there are any; a thread that calls `sched` has its own lock and no
other, and the scheduler looks for a process with none. -/
theorem noff_counts_locks (pid₀ : Fin n → Option ℤ) (l₀ : Fin n → L) (d₀ : D)
    (hreach : Machine.Reach (Threads.step code) (Obeys code) (boot pid₀ l₀ d₀) s) (h : H) :
    ((s.cpu h).noff = Set.ncard {lk | s.lock lk = some h})
    ∧ (∀ lk, s.lock lk = some h → (s.cpu h).intr = false)
    ∧ (∀ p ret, (s.cpu h).mode = .run p → s.place p = .sched ret →
      ∀ lk, s.lock lk = some h ↔ lk = .proc p)
    ∧ ∀ i lk, (s.cpu h).mode = .scan i → s.lock lk ≠ some h := by
  obtain ⟨S, hS, hmode⟩ := (Inv.of_reach (Inv.boot pid₀ l₀ d₀) hreach).cpus h
  have hset : {lk | s.lock lk = some h} = (S : Set (SpinLock n K)) := Set.ext hS.mem
  refine ⟨by rw [hset, Set.ncard_coe_finset, hS.noff],
    fun lk hlk => hS.intr ⟨lk, (hS.mem lk).mp hlk⟩, fun p ret hrun hplace lk => ?_,
    fun i lk hscan hlk => ?_⟩
  · rw [hrun] at hmode
    have hbody : Body p (s.entry p) S (s.place p) := hmode
    rw [hplace] at hbody
    rw [hS.mem, hbody.1, mem_singleton]
  · rw [hscan] at hmode
    have hempty : S = ∅ := hmode
    exact notMem_empty lk (hempty ▸ (hS.mem lk).mp hlk)

end Step

/-! ## A run -/

instance [Fintype K] : Fintype (SpinLock n K) :=
  Fintype.ofEquiv (Fin n ⊕ K)
    { toFun := fun lk => lk.elim .proc .other
      invFun := fun
        | .proc p => .inl p
        | .other k => .inr k
      left_inv := fun lk => by cases lk <;> rfl
      right_inv := fun lk => by cases lk <;> rfl }

instance [Fintype K] (s : State n H K C D L) (h : H) (p : Fin n) (op : Op n K C D L) :
    Decidable (Rule s h p op) := by
  cases op <;> unfold Rule <;> infer_instance

instance [Fintype K] (code : Code n K C D L X) (s : State n H K C D L) (a : H × Act X) :
    Decidable (Obeys code s a) :=
  match a with
  | (_, .go _) => inferInstanceAs (Decidable (∀ _ ∈ _, _))
  | (_, .timer) => isTrue trivial

/-- Threads that only yield. -/
def yields : Code 2 Empty Empty Unit Unit Unit := fun _ _ _ _ => some (.yield ())

/-- The first process runs on one CPU until it has yielded and the CPU has
saved its context and released its lock; another CPU then takes it. -/
theorem one_cpu_handed_over :
    ∃ s : State 2 (Fin 2) Empty Empty Unit Unit,
      Machine.Reach (step yields) (Obeys yields) (boot (userinit 0) (fun _ => ()) ()) s ∧
      (s.cpu 1).mode = .load 0 ∧ s.saved 0 = true ∧ ∃! h, (s.cpu h).proc = some 0 := by
  have hrun : (Machine.run (step yields) (Obeys yields)
      (boot (userinit 0) (fun _ => ()) () : State 2 (Fin 2) Empty Empty Unit Unit)
      (List.replicate 14 (0, .go ()) ++ List.replicate 3 (1, .go ()))).Next fun s =>
      (s.cpu 1).mode = .load 0 ∧ (s.entry 0).state = .RUNNING := by decide +kernel
  obtain ⟨s, hreach, hmode, hst⟩ := Machine.exists_reach_of_run hrun
  obtain ⟨hone, hload, -⟩ := one_cpu (userinit 0) (fun _ => ()) () hreach
  exact ⟨s, hreach, hmode, (hload 1 0 hmode).1, hone 0 hst⟩

/-- The scheduler holds the lock of the process that it is about to run. -/
theorem noff_counts_locks_load :
    ∃ s : State 2 (Fin 2) Empty Empty Unit Unit,
      Machine.Reach (step yields) (Obeys yields) (boot (userinit 0) (fun _ => ()) ()) s ∧
      s.lock (.proc 0) = some 1 ∧ (s.cpu 1).intr = false := by
  have hrun : (Machine.run (step yields) (Obeys yields)
      (boot (userinit 0) (fun _ => ()) () : State 2 (Fin 2) Empty Empty Unit Unit)
      (List.replicate 3 (1, .go ()))).Next fun s => s.lock (.proc 0) = some 1 := by decide +kernel
  obtain ⟨s, hreach, hlock⟩ := Machine.exists_reach_of_run hrun
  exact ⟨s, hreach, hlock, (noff_counts_locks _ _ _ hreach 1).2.1 _ hlock⟩

end Xv6.Threads
