import Xv6.Monitor

/-!
# Locks that the code of a thread tells

Which spin locks a thread holds is told by where it is in its code, in all of
the kernel: a lock is acquired and released in the same function, `sleep` is
called with one lock and returns with it. A code for which `holds` says so is
`Disciplined`, and then the owners of the locks are read off the posts of the
threads (`Owners`), two threads are never in code under the same lock
(`Owners.unique`), and of the rules for threads only those remain that are
about the states of processes (`StatusRule`).
-/

open Finset
open Function (update update_of_ne)

namespace Xv6.Threads

variable {n : ℕ} {H K C D L X : Type} [DecidableEq K]

section Defs

variable (holds : Fin n → L → Finset (SpinLock n K))

/-- The locks before and after an operation, by what the code tells of them. -/
def OpOk (p : Fin n) (l : L) : Op n K C D L → Prop
  | .acquire lk l' => lk ∉ holds p l ∧ holds p l' = insert lk (holds p l)
  | .release lk l' => lk ∈ holds p l ∧ holds p l' = (holds p l).erase lk
  | .act _ l' => holds p l' = holds p l
  | .allocproc q _ start _ l' =>
    .proc q ∈ holds p l ∧ holds q start = ∅ ∧ holds p l' = holds p l
  | .runnable q l' => .proc q ∈ holds p l ∧ holds p l' = holds p l
  | .freeproc q _ l' => .proc q ∈ holds p l ∧ holds p l' = holds p l
  | .zombie _ l' => .proc p ∈ holds p l ∧ holds p l' = holds p l
  | .sched => holds p l = {.proc p}
  | .sleep _ k l' => holds p l = {.other k} ∧ holds p l' = {.other k}
  | .wakeup _ l' => (∀ q, .proc q ∉ holds p l) ∧ holds p l' = holds p l
  | .kill _ found missing =>
    (∀ q, .proc q ∉ holds p l) ∧ holds p found = holds p l ∧ holds p missing = holds p l
  | .yield l' | .intr _ l' => holds p l = ∅ ∧ holds p l' = ∅

/-- **A code that tells which locks a thread holds.** -/
def Disciplined (code : Code n K C D L X) : Prop :=
  ∀ p l v x op, code p l v x = some op → OpOk holds p l op

/-- The locks that a thread holds where it is. -/
def Post.locks (p : Fin n) : Post K C L → Finset (SpinLock n K)
  | .code l | .waking _ _ l | .killing _ _ l _ => holds p l
  | .toSleep _ k _ => {.other k}
  | .asleep _ _ _ | .woken _ _ | .gone => ∅

/-- A thread that is not in its code will return to it with the locks it
needs there. -/
def Post.Keeps (p : Fin n) : Post K C L → Prop
  | .toSleep _ k l | .asleep _ k l | .woken k l => holds p l = {.other k}
  | .killing _ _ found missing => holds p missing = holds p found
  | .code _ | .waking _ _ _ | .gone => True

/-- **The owners of the locks** are told by the posts of the threads. -/
structure Owners (m : Mon n K C D L) : Prop where
  keeps : ∀ p, (m.post p).Keeps holds p
  owner : ∀ p lk, m.owner lk = some p ↔ lk ∈ (m.post p).locks holds p
  idle : ∀ p, m.view.status p = .unused ∨ m.view.status p = .used → (m.post p).locks holds p = ∅
  zombie : ∀ p, m.view.status p = .zombie → m.post p = .gone ∨ .proc p ∈ (m.post p).locks holds p

end Defs

/-- What remains of the rules: the states that processes must be in. -/
def StatusRule (m : Mon n K C D L) (p : Fin n) : Op n K C D L → Prop
  | .release lk _ => lk = .proc p → m.view.status p ≠ .zombie
  | .allocproc q _ _ _ _ => m.view.status q = .unused
  | .runnable q _ => m.view.status q = .used
  | .freeproc q _ _ => q ≠ p ∧ (m.view.status q = .used ∨ m.view.status q = .zombie)
  | .sched => m.view.status p = .zombie
  | _ => True

variable {holds : Fin n → L → Finset (SpinLock n K)} {m m' : Mon n K C D L} {p : Fin n} {x : X}
  {code : Code n K C D L X}

namespace Owners

variable (ho : Owners holds m)

omit [DecidableEq K] in
include ho in
theorem unique {q : Fin n} {k : SpinLock n K} (hp : k ∈ (m.post p).locks holds p)
    (hq : k ∈ (m.post q).locks holds q) : p = q := by
  have hown := (ho.owner p k).mpr hp
  rw [(ho.owner q k).mpr hq] at hown
  exact (Option.some.inj hown).symm

include ho in
/-- **Such a code obeys the rules** if the processes are in the right states. -/
theorem rule (hd : Disciplined holds code) {l : L} {op : Op n K C D L}
    (hp : m.post p = .code l) (hop : code p l m.view x = some op) (hs : StatusRule m p op) :
    m.Rule p op := by
  have hlk : ∀ lk, m.owner lk = some p ↔ lk ∈ holds p l := by
    intro lk
    rw [ho.owner, hp]
    rfl
  have hok := hd p l m.view x op hop
  cases op with
  | acquire lk l' => exact fun h => hok.1 ((hlk lk).mp h)
  | release lk l' => exact ⟨(hlk lk).mpr hok.1, hs⟩
  | act f l' => trivial
  | allocproc q pid start f l' => exact ⟨(hlk _).mpr hok.1, hs⟩
  | runnable q l' => exact ⟨(hlk _).mpr hok.1, hs⟩
  | freeproc q f l' => exact ⟨(hlk _).mpr hok.1, hs⟩
  | zombie f l' => exact (hlk _).mpr hok.1
  | sched =>
    have hh : holds p l = {.proc p} := hok
    refine ⟨fun lk => ?_, hs⟩
    rw [hlk, hh, mem_singleton]
  | sleep c k l' =>
    intro lk
    rw [hlk, hok.1, mem_singleton]
  | wakeup c l' => exact fun q h => hok.1 q ((hlk _).mp h)
  | kill pid found missing => exact fun q h => hok.1 q ((hlk _).mp h)
  | yield l' =>
    intro lk h
    rw [hlk, hok.1] at h
    simp at h
  | intr on l' =>
    intro lk h
    rw [hlk, hok.1] at h
    simp at h

omit [DecidableEq K] in
include ho in
/-- **A thread moves**, perhaps with other locks than it had. -/
theorem move {a : Post K C L} (hpost : m'.post = update m.post p a)
    (hstatus : m'.view.status = m.view.status)
    (hother : ∀ q, q ≠ p → ∀ lk, m'.owner lk = some q ↔ m.owner lk = some q)
    (hself : ∀ lk, m'.owner lk = some p ↔ lk ∈ a.locks holds p) (hkeeps : a.Keeps holds p)
    (hcan : m.view.status p = .live ∨ m.view.status p = .zombie ∧
      (a = .gone ∨ .proc p ∈ a.locks holds p)) : Owners holds m' where
  keeps q := by
    rw [hpost]
    by_cases hq : q = p
    · subst hq
      simpa using hkeeps
    · simpa [hq] using ho.keeps q
  owner q lk := by
    rw [hpost]
    by_cases hq : q = p
    · subst hq
      simpa using hself lk
    · rw [hother q hq lk, ho.owner]
      simp [hq]
  idle q hst := by
    rw [hstatus] at hst
    rw [hpost]
    by_cases hq : q = p
    · subst hq
      rcases hcan with h | ⟨h, -⟩ <;> rw [h] at hst <;> simp at hst
    · simpa [hq] using ho.idle q hst
  zombie q hst := by
    rw [hstatus] at hst
    rw [hpost]
    by_cases hq : q = p
    · subst hq
      rcases hcan with h | ⟨-, h⟩
      · rw [h] at hst
        nomatch hst
      · simpa using h
    · simpa [hq] using ho.zombie q hst

include ho in
/-- A thread gets a lock. -/
theorem take {lk : SpinLock n K} {a : Post K C L} (hfree : m.owner lk = none)
    (hlocks : a.locks holds p = insert lk ((m.post p).locks holds p)) (hkeeps : a.Keeps holds p)
    (hcan : m.view.status p = .live ∨ m.view.status p = .zombie ∧
      (a = .gone ∨ .proc p ∈ a.locks holds p)) :
    Owners holds ((m.own lk (some p)).goto p a) := by
  refine ho.move rfl rfl (fun q hq lk' => ?_) (fun lk' => ?_) hkeeps hcan
  · by_cases heq : lk' = lk
    · simp [Mon.own, Mon.goto, heq, hfree, Ne.symm hq]
    · simp [Mon.own, Mon.goto, heq]
  · rw [hlocks, mem_insert, ← ho.owner]
    by_cases heq : lk' = lk <;> simp [Mon.own, Mon.goto, heq]

include ho in
/-- A thread gives up a lock. -/
theorem drop {lk : SpinLock n K} {a : Post K C L} (hown : m.owner lk = some p)
    (hlocks : a.locks holds p = ((m.post p).locks holds p).erase lk) (hkeeps : a.Keeps holds p)
    (hcan : m.view.status p = .live ∨ m.view.status p = .zombie ∧
      (a = .gone ∨ .proc p ∈ a.locks holds p)) :
    Owners holds ((m.own lk none).goto p a) := by
  refine ho.move rfl rfl (fun q hq lk' => ?_) (fun lk' => ?_) hkeeps hcan
  · by_cases heq : lk' = lk
    · simp [Mon.own, Mon.goto, heq, hown, Ne.symm hq]
    · simp [Mon.own, Mon.goto, heq]
  · rw [hlocks, mem_erase, ← ho.owner]
    by_cases heq : lk' = lk <;> simp [Mon.own, Mon.goto, heq]

omit [DecidableEq K] in
include ho in
theorem goto {a : Post K C L} (hlocks : a.locks holds p = (m.post p).locks holds p)
    (hkeeps : a.Keeps holds p) (hcan : m.CanRun p) : Owners holds (m.goto p a) := by
  refine ho.move rfl rfl (fun _ _ _ => Iff.rfl) (fun lk => ?_) hkeeps ?_
  · rw [hlocks]
    exact ho.owner p lk
  · refine hcan.imp id (fun hz => ⟨hz.1, Or.inr ?_⟩)
    rw [hlocks]
    exact (ho.owner p _).mp hz.2

omit [DecidableEq K] in
include ho in
/-- A thread is woken, or stays where it is. -/
theorem wake {q : Fin n} {a : Post K C L} (ha : a = m.post q ∨ a = (m.post q).wake) :
    Owners holds (m.goto q a) := by
  have hlocks : a.locks holds q = (m.post q).locks holds q := by
    rcases ha with rfl | rfl
    · rfl
    · cases m.post q <;> rfl
  have hkeeps : a.Keeps holds q := by
    have := ho.keeps q
    rcases ha with rfl | rfl
    · exact this
    · cases hq : m.post q <;> rw [hq] at this <;> exact this
  have hgone : m.post q = .gone → a = .gone := by
    intro hq
    rw [hq] at ha
    exact ha.elim id id
  have hall : ∀ r, ((m.goto q a).post r).locks holds r = (m.post r).locks holds r := by
    intro r
    by_cases hr : r = q
    · subst hr
      simpa [Mon.goto] using hlocks
    · simp [Mon.goto, hr]
  refine ⟨fun r => ?_, fun r lk => ?_, fun r hst => ?_, fun r hst => ?_⟩
  · by_cases hr : r = q
    · subst hr
      simpa [Mon.goto] using hkeeps
    · simpa [Mon.goto, hr] using ho.keeps r
  · rw [hall]
    exact ho.owner r lk
  · rw [hall]
    exact ho.idle r hst
  · rw [hall]
    refine (ho.zombie r hst).imp (fun h => ?_) id
    by_cases hr : r = q
    · subst hr
      simpa [Mon.goto] using hgone h
    · simpa [Mon.goto, hr] using h

omit [DecidableEq K] in
include ho in
/-- The status of a process changes, to one that fits its thread. -/
theorem setStatus {q : Fin n} {v : View n D} {t : Status}
    (hv : v.status = update m.view.status q t)
    (hidle : t = .unused ∨ t = .used → (m.post q).locks holds q = ∅)
    (hzombie : t = .zombie → m.post q = .gone ∨ .proc q ∈ (m.post q).locks holds q) :
    Owners holds { m with view := v } where
  keeps := ho.keeps
  owner := ho.owner
  idle r hst := by
    rw [show ({ m with view := v } : Mon n K C D L).view.status = _ from hv] at hst
    by_cases hr : r = q
    · subst hr
      exact hidle (by simpa using hst)
    · exact ho.idle r (by simpa [hr] using hst)
  zombie r hst := by
    rw [show ({ m with view := v } : Mon n K C D L).view.status = _ from hv] at hst
    by_cases hr : r = q
    · subst hr
      exact hzombie (by simpa using hst)
    · exact ho.zombie r (by simpa [hr] using hst)

variable [DecidableEq C]

include ho in
/-- **The owners of the locks after a step.** -/
theorem step (hd : Disciplined holds code)
    (hs : ∀ l op, m.post p = .code l → code p l m.view x = some op → StatusRule m p op)
    (hstep : Mon.Step code m p x m') : Owners holds m' := by
  have hown : ∀ {l : L}, m.post p = .code l → ∀ lk, m.owner lk = some p ↔ lk ∈ holds p l := by
    intro l hp lk
    rw [ho.owner, hp]
    rfl
  -- a zombie in its code has its own lock
  have hzomb : ∀ {l : L}, m.post p = .code l → m.CanRun p →
      m.view.status p = .live ∨ m.view.status p = .zombie ∧ .proc p ∈ holds p l :=
    fun hp hcan => hcan.imp id (fun hz => ⟨hz.1, (hown hp _).mp hz.2⟩)
  have hlocks : ∀ {l l' : L}, m.post p = .code l → holds p l' = holds p l →
      (Post.code l' : Post K C L).locks holds p = (m.post p).locks holds p := by
    intro l l' hp h
    rw [hp]
    exact h
  cases hstep with
  | @acquire l lk l' hp hrun hop hfree =>
    obtain ⟨hnot, hh⟩ := hd p l m.view x _ hop
    refine ho.take hfree (by rw [hp]; exact hh) trivial
      ((hzomb hp hrun).imp id (fun hz => ⟨hz.1, Or.inr ?_⟩))
    show _ ∈ holds p l'
    rw [hh]
    exact mem_insert_of_mem hz.2
  | @release l lk l' hp hrun hop howner =>
    obtain ⟨hmem, hh⟩ := hd p l m.view x _ hop
    refine ho.drop howner (by rw [hp]; exact hh) trivial
      ((hzomb hp hrun).imp id (fun hz => ⟨hz.1, Or.inr ?_⟩))
    show _ ∈ holds p l'
    rw [hh]
    exact mem_erase.mpr ⟨fun h => hs l _ hp hop h.symm hz.1, hz.2⟩
  | @act l f l' hp hrun hop =>
    have hdata : Owners holds { m with view := { m.view with data := f m.view.data } } :=
      ⟨ho.keeps, ho.owner, ho.idle, ho.zombie⟩
    exact hdata.goto (hlocks hp (hd p l m.view x _ hop)) trivial hrun
  | @allocproc l q pid start f l' hp hrun hop howner hq hne =>
    obtain ⟨-, hstart, hh⟩ := hd p l m.view x _ hop
    have hidle := ho.idle q (Or.inl hq)
    have hset : Owners holds ({ m with view := { m.view with
        status := update m.view.status q .used
        pid := update m.view.pid q pid
        data := f m.view.data } }.goto q (.code start)) := by
      refine ⟨fun r => ?_, fun r lk => ?_, fun r hst => ?_, fun r hst => ?_⟩
      · by_cases hr : r = q
        · subst hr
          simp [Mon.goto, Post.Keeps]
        · simpa [Mon.goto, hr] using ho.keeps r
      · by_cases hr : r = q
        · subst hr
          have hnone := ho.owner r lk
          rw [hidle] at hnone
          simpa [Mon.goto, Post.locks, hstart] using hnone
        · simpa [Mon.goto, hr] using ho.owner r lk
      · by_cases hr : r = q
        · subst hr
          simpa [Mon.goto, Post.locks] using hstart
        · simp only [Mon.goto, update_of_ne hr] at hst ⊢
          exact ho.idle r hst
      · by_cases hr : r = q
        · subst hr
          simp [Mon.goto] at hst
        · simp only [Mon.goto, update_of_ne hr] at hst ⊢
          exact ho.zombie r hst
    refine hset.goto ?_ trivial ?_
    · simpa [Mon.goto, Ne.symm hne] using hlocks hp hh
    · simpa [Mon.CanRun, Mon.goto, Ne.symm hne] using hrun
  | @runnable l q l' hp hrun hop howner hq =>
    obtain ⟨-, hh⟩ := hd p l m.view x _ hop
    have hne : p ≠ q := by
      rintro rfl
      rcases hrun with h | ⟨h, -⟩ <;> rw [h] at hq <;> cases hq
    have hset := ho.setStatus (q := q) (t := .live) (v := { m.view with
      status := update m.view.status q .live }) rfl (by simp) (by simp)
    refine hset.goto (hlocks hp hh) trivial ?_
    simpa [Mon.CanRun, hne] using hrun
  | @freeproc l q f l' hp hrun hop howner hne hq =>
    obtain ⟨-, hh⟩ := hd p l m.view x _ hop
    have hempty : (m.post q).locks holds q = ∅ := by
      rcases hq with hu | hz
      · exact ho.idle q (Or.inr hu)
      · rcases ho.zombie q hz with hg | hmem
        · rw [hg]
          rfl
        · rw [← ho.owner, howner] at hmem
          exact absurd (Option.some.inj hmem).symm hne
    have hset := ho.setStatus (q := q) (t := .unused) (v :=
      ⟨update m.view.status q .unused, update m.view.killed q false,
          update m.view.pid q 0, f m.view.data⟩) rfl (fun _ => hempty) (by simp)
    refine hset.goto (hlocks hp hh) trivial ?_
    simpa [Mon.CanRun, Ne.symm hne] using hrun
  | @zombie l f l' hp hrun hop howner =>
    obtain ⟨hmem, hh⟩ := hd p l m.view x _ hop
    have hset := ho.setStatus (q := p) (t := .zombie) (v := { m.view with
      status := update m.view.status p .zombie
      data := f m.view.data }) rfl (by simp) (fun _ => Or.inr (by rw [hp]; exact hmem))
    refine hset.goto (hlocks hp hh) trivial (Or.inr ⟨by simp, howner⟩)
  | @sched l hp hrun hop =>
    have hh : holds p l = {.proc p} := hd p l m.view x _ hop
    refine ho.drop ((hown hp _).mpr (by simp [hh])) ?_ trivial
      (Or.inr ⟨hs l _ hp hop, Or.inl rfl⟩)
    simp [hp, Post.locks, hh]
  | @sleep l c k l' hp hrun hop howner =>
    obtain ⟨hh, hh'⟩ := hd p l m.view x _ hop
    refine ho.goto ?_ hh' hrun
    rw [hp]
    exact hh.symm
  | @doze c k l hp hlive howner =>
    have hk := ho.keeps p
    rw [hp] at hk
    exact ho.drop howner (by simp [hp, Post.locks]) hk (Or.inl hlive)
  | @relock k l hp hlive hfree =>
    have hk : holds p l = {.other k} := by simpa [hp, Post.Keeps] using ho.keeps p
    exact ho.take hfree (by simp [hp, Post.locks, hk]) trivial (Or.inl hlive)
  | @wakeup l c l' hp hrun hop =>
    obtain ⟨-, hh⟩ := hd p l m.view x _ hop
    exact ho.goto (hlocks hp hh) trivial hrun
  | @wakeNext c l q hp hlive hne =>
    have hw : Owners holds (m.goto q ((m.post q).wakeOn c)) := ho.wake (Post.wakeOn_cases c _)
    refine hw.goto ?_ trivial (Or.inl hlive)
    simp [Mon.goto, Ne.symm hne, hp, Post.locks]
  | @wakeSelf c l hp hlive => exact ho.goto (by rw [hp]; rfl) trivial (Or.inl hlive)
  | @wakeEnd c i l hp hlive hi => exact ho.goto (by rw [hp]; rfl) trivial (Or.inl hlive)
  | @kill l pid found missing hp hrun hop =>
    obtain ⟨-, hf, hm⟩ := hd p l m.view x _ hop
    exact ho.goto (hlocks hp hf) (hm.trans hf.symm) hrun
  | @killHit pid found missing q hp hlive hpid =>
    have hset : Owners holds { m with view := { m.view with
        killed := update m.view.killed q true } } :=
      ⟨ho.keeps, ho.owner, ho.idle, ho.zombie⟩
    have hw := hset.wake (q := q) (Or.inr rfl)
    refine hw.goto ?_ trivial (Or.inl hlive)
    by_cases hq : p = q
    · subst hq
      simp [Mon.goto, hp, Post.locks, Post.wake]
    · simp [Mon.goto, hq, hp, Post.locks]
  | @killMiss pid found missing q hp hlive hpid =>
    refine ho.goto (by rw [hp]; rfl) ?_ (Or.inl hlive)
    have := ho.keeps p
    rw [hp] at this
    exact this
  | @killEnd pid i found missing hp hlive hi =>
    have := ho.keeps p
    rw [hp] at this
    refine ho.goto ?_ trivial (Or.inl hlive)
    rw [hp]
    exact this
  | @skip l op l' hp hrun hop hskip =>
    have hh : holds p l' = holds p l := by
      have hok := hd p l m.view x _ hop
      rcases hskip with rfl | ⟨b, rfl⟩ <;> exact hok.2.trans hok.1.symm
    exact ho.goto (hlocks hp hh) trivial hrun

end Owners

variable [DecidableEq H] [DecidableEq C] {s : State n H K C D L}

omit [DecidableEq K] [DecidableEq C] in
theorem Owners.boot {pid₀ : Fin n → Option ℤ} {l₀ : Fin n → L} {d₀ : D}
    (h₀ : ∀ p, holds p (l₀ p) = ∅) :
    Owners holds (Mon.boot pid₀ l₀ d₀ : Mon n K C D L) where
  keeps _ := trivial
  owner p lk := by simp [Mon.boot, Post.locks, h₀]
  idle p _ := h₀ p
  zombie p hst := by
    simp only [Mon.boot] at hst
    split at hst <;> nomatch hst

/-- **What holds of a disciplined code on the simpler machine holds of it on
the machine with CPUs**, where it never ends in a panic. -/
theorem Owners.transfer {J : Mon n K C D L → Prop}
    {R : Mon n K C D L → Fin n → X → Mon n K C D L → Prop} (hd : Disciplined holds code)
    (hs : ∀ m p l x op, Owners holds m → J m → m.post p = .code l → m.CanRun p →
      code p l m.view x = some op → StatusRule m p op)
    (hstep : ∀ m p x m', Owners holds m → J m → R m p x m' → Mon.Step code m p x m' → J m')
    {pid₀ : Fin n → Option ℤ} {l₀ : Fin n → L} {d₀ : D} (h₀ : ∀ p, holds p (l₀ p) = ∅)
    (hboot : J (Mon.boot pid₀ l₀ d₀))
    (hreach : Machine.Reach (Threads.step code) (Allows code R) (Threads.boot pid₀ l₀ d₀) s) :
    Inv s ∧ Owners holds s.abs ∧ J s.abs ∧ ∀ act e, Threads.step code s act ≠ .panic e := by
  have hrun : ∀ (m : Mon n K C D L) (p : Fin n) (x : X) (m' : Mon n K C D L),
      Mon.Step code m p x m' → ∀ l, m.post p = .code l → m.CanRun p := by
    intro m p x m' hst l hp
    cases hst <;> simp_all [Mon.CanRun]
  obtain ⟨hi, ⟨ho, hJ⟩, hob⟩ := Mon.transfer (J := fun m => Owners holds m ∧ J m)
    (fun m p l x op h hp hcan hop => h.1.rule hd hp hop (hs m p l x op h.1 h.2 hp hcan hop))
    (fun m p x m' h hok hst =>
      ⟨h.1.step hd (fun l op hp hop => hs m p l x op h.1 h.2 hp (hrun m p x m' hst l hp) hop) hst,
        hstep m p x m' h.1 h.2 hok hst⟩)
    ⟨Owners.boot h₀, hboot⟩ hreach
  refine ⟨hi, ho, hJ, fun act e hpanic => ?_⟩
  have hsafe := hi.step (hob act)
  rw [hpanic] at hsafe
  exact hsafe

end Xv6.Threads
