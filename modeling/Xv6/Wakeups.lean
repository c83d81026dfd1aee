import Xv6.Discipline

/-!
# Wake-ups that are not lost

A thread sleeps on a channel because of some condition on what is shared: the
sleep lock is locked, the pipe is empty. The condition is looked at under a
lock, the guard of the channel. No sleeper is left behind if whoever ends the
condition has the guard and then owes a wake-up, which it pays before it
releases the guard; or if it has woken everyone up before, and still has the
guard.

`NoLost` is the invariant, kept by a code whose operations are `Wakeful`.
-/

open Function

namespace Xv6.Threads

variable {n : ℕ} {H K C D L X : Type}

/-! ## What a step does, once more -/

/-- Where the code goes on after an operation that is done in one step. -/
def Op.next : Op n K C D L → Option L
  | .acquire _ l | .release _ l | .act _ l | .allocproc _ _ _ _ l | .runnable _ l
  | .freeproc _ _ l | .zombie _ l | .yield l | .intr _ l => some l
  | .sched | .sleep _ _ _ | .wakeup _ _ | .kill _ _ _ => none

/-- What an operation does to what the code sees. -/
def Op.apply (p : Fin n) (v : View n D) : Op n K C D L → View n D
  | .act f _ => { v with data := f v.data }
  | .allocproc q pid _ f _ =>
    { v with
      status := update v.status q .used
      pid := update v.pid q pid
      data := f v.data }
  | .runnable q _ => { v with status := update v.status q .live }
  | .freeproc q f _ =>
    ⟨update v.status q .unused, update v.killed q false,
      update v.pid q 0, f v.data⟩
  | .zombie f _ =>
    { v with
      status := update v.status p .zombie
      data := f v.data }
  | _ => v

/-- The thread of a new process is set up. -/
def Op.spawn (post : Fin n → Post K C L) : Op n K C D L → Fin n → Post K C L
  | .allocproc q _ start _ _ => update post q (.code start)
  | _ => post

/-- **What a step of a process does**, apart from locks. -/
inductive Moves [DecidableEq C] (code : Code n K C D L X) (m : Mon n K C D L) (p : Fin n) (x : X)
    (m' : Mon n K C D L) : Prop
  | op {l op l'} (hp : m.post p = .code l) (hrun : m.CanRun p)
      (hop : code p l m.view x = some op) (hnext : op.next = some l')
      (hnew : ∀ q pid start f l', op = .allocproc q pid start f l' →
        q ≠ p ∧ m.view.status q = .unused)
      (hview : m'.view = op.apply p m.view)
      (hpost : m'.post = update (op.spawn m.post) p (.code l'))
  | sched {l} (hp : m.post p = .code l) (hrun : m.CanRun p)
      (hop : code p l m.view x = some .sched) (hview : m'.view = m.view)
      (hpost : m'.post = update m.post p .gone)
  | sleep {l c k l'} (hp : m.post p = .code l) (hrun : m.CanRun p)
      (hop : code p l m.view x = some (.sleep c k l')) (hview : m'.view = m.view)
      (hpost : m'.post = update m.post p (.toSleep c k l'))
  | doze {c k l} (hp : m.post p = .toSleep c k l) (hlive : m.view.status p = .live)
      (hview : m'.view = m.view) (hpost : m'.post = update m.post p (.asleep c k l))
  | relock {k l} (hp : m.post p = .woken k l) (hlive : m.view.status p = .live)
      (hfree : m.owner (.other k) = none)
      (hview : m'.view = m.view) (hpost : m'.post = update m.post p (.code l))
  | wakeup {l c l'} (hp : m.post p = .code l) (hrun : m.CanRun p)
      (hop : code p l m.view x = some (.wakeup c l')) (hview : m'.view = m.view)
      (hpost : m'.post = update m.post p (.waking c 0 l'))
  | wakeNext {c l} {q : Fin n} (hp : m.post p = .waking c q l) (hlive : m.view.status p = .live)
      (hview : m'.view = m.view)
      (hpost : m'.post = update (update m.post q ((m.post q).wakeOn c)) p
        (.waking c (q + 1) l))
  | wakeEnd {c i l} (hp : m.post p = .waking c i l) (hlive : m.view.status p = .live)
      (hi : n ≤ i) (hview : m'.view = m.view)
      (hpost : m'.post = update m.post p (.code l))
  | kill {l pid found missing} (hp : m.post p = .code l) (hrun : m.CanRun p)
      (hop : code p l m.view x = some (.kill pid found missing)) (hview : m'.view = m.view)
      (hpost : m'.post = update m.post p (.killing pid 0 found missing))
  | killHit {pid found missing} {q : Fin n} (hp : m.post p = .killing pid q found missing)
      (hlive : m.view.status p = .live) (hpid : m.view.pid q = pid)
      (hview : m'.view = { m.view with killed := update m.view.killed q true })
      (hpost : m'.post = update (update m.post q (m.post q).wake) p
        (.code found))
  | killMiss {pid found missing} {q : Fin n} (hp : m.post p = .killing pid q found missing)
      (hlive : m.view.status p = .live) (hpid : m.view.pid q ≠ pid) (hview : m'.view = m.view)
      (hpost : m'.post = update m.post p (.killing pid (q + 1) found missing))
  | killEnd {pid i found missing} (hp : m.post p = .killing pid i found missing)
      (hlive : m.view.status p = .live) (hi : n ≤ i) (hview : m'.view = m.view)
      (hpost : m'.post = update m.post p (.code missing))

variable {code : Code n K C D L X} {m m' : Mon n K C D L} {p : Fin n} {x : X}

theorem Mon.Step.moves [DecidableEq C] [DecidableEq K] (h : Mon.Step code m p x m') :
    Moves code m p x m' := by
  cases h with
  | acquire hp hrun hop => exact .op hp hrun hop rfl (by rintro _ _ _ _ _ ⟨⟩) rfl rfl
  | release hp hrun hop => exact .op hp hrun hop rfl (by rintro _ _ _ _ _ ⟨⟩) rfl rfl
  | act hp hrun hop => exact .op hp hrun hop rfl (by rintro _ _ _ _ _ ⟨⟩) rfl rfl
  | allocproc hp hrun hop hown hq hne =>
    refine .op hp hrun hop rfl (fun q pid start f l' h => ?_) rfl rfl
    cases h
    exact ⟨hne, hq⟩
  | runnable hp hrun hop => exact .op hp hrun hop rfl (by rintro _ _ _ _ _ ⟨⟩) rfl rfl
  | freeproc hp hrun hop => exact .op hp hrun hop rfl (by rintro _ _ _ _ _ ⟨⟩) rfl rfl
  | zombie hp hrun hop => exact .op hp hrun hop rfl (by rintro _ _ _ _ _ ⟨⟩) rfl rfl
  | sched hp hrun hop => exact .sched hp hrun hop rfl rfl
  | sleep hp hrun hop => exact .sleep hp hrun hop rfl rfl
  | doze hp hlive => exact .doze hp hlive rfl rfl
  | relock hp hlive hfree => exact .relock hp hlive hfree rfl rfl
  | wakeup hp hrun hop => exact .wakeup hp hrun hop rfl rfl
  | wakeNext hp hlive => exact .wakeNext hp hlive rfl rfl
  | wakeSelf hp hlive =>
    refine .wakeNext hp hlive rfl ?_
    simp [Mon.goto]
  | wakeEnd hp hlive hi => exact .wakeEnd hp hlive hi rfl rfl
  | kill hp hrun hop => exact .kill hp hrun hop rfl rfl
  | killHit hp hlive hpid => exact .killHit hp hlive hpid rfl rfl
  | killMiss hp hlive hpid => exact .killMiss hp hlive hpid rfl rfl
  | killEnd hp hlive hi => exact .killEnd hp hlive hi rfl rfl
  | skip hp hrun hop hskip =>
    rcases hskip with rfl | ⟨b, rfl⟩ <;>
      exact .op hp hrun hop rfl (by rintro _ _ _ _ _ ⟨⟩) rfl rfl

/-- The local state to which an operation leads, at once or in the end. -/
def Op.target : Op n K C D L → Option L
  | .acquire _ l | .release _ l | .act _ l | .allocproc _ _ _ _ l | .runnable _ l
  | .freeproc _ _ l | .zombie _ l | .yield l | .intr _ l | .sleep _ _ l | .wakeup _ l
  | .kill _ l _ => some l
  | .sched => none

/-- The local states of the threads. -/
def Mon.labels (m : Mon n K C D L) : Fin n → Option L := fun p => (m.post p).label

/-- The local state of a new thread. -/
def Op.spawnLabels (lab : Fin n → Option L) : Op n K C D L → Fin n → Option L
  | .allocproc q _ start _ _ => update lab q (some start)
  | _ => lab

/-- **What a step does to the local states**: it is the operation that the code
does next, or leaves them as they are. -/
inductive Relabels (code : Code n K C D L X) (m : Mon n K C D L) (p : Fin n) (x : X)
    (m' : Mon n K C D L) : Prop
  | op {l op l'} (hp : m.post p = .code l) (hrun : m.CanRun p)
      (hop : code p l m.view x = some op) (htarget : op.target = some l')
      (hnew : ∀ q pid start f l', op = .allocproc q pid start f l' →
        q ≠ p ∧ m.view.status q = .unused)
      (hview : m'.view = op.apply p m.view)
      (hlab : m'.labels = update (op.spawnLabels m.labels) p (some l'))
  | sched {l} (hp : m.post p = .code l) (hrun : m.CanRun p)
      (hop : code p l m.view x = some .sched) (hview : m'.view = m.view)
      (hlab : m'.labels = update m.labels p none)
  | quiet {k} (hview : m'.view = { m.view with killed := k }) (hlab : m'.labels = m.labels)
      (hkilled : ∀ q, k q = m.view.killed q ∨ k q = true)

theorem Mon.labels_update {b : Post K C L} (hpost : m'.post = update m.post p b) :
    m'.labels = update m.labels p b.label := by
  funext q
  unfold Mon.labels
  rw [hpost]
  by_cases hq : q = p
  · subst hq
    simp
  · simp [hq]

theorem Mon.labels_of_code {l : L} (hp : m.post p = .code l) : m.labels p = some l :=
  congrArg Post.label hp

theorem Mon.labels_cases {lab : Fin n → Option L} {l' lq : L} {q : Fin n}
    (hlab : m.labels = update lab p (some l')) (hq : m.labels q = some lq) :
    q = p ∧ lq = l' ∨ q ≠ p ∧ lab q = some lq := by
  rw [hlab] at hq
  by_cases hqp : q = p
  · rw [hqp, update_self] at hq
    exact Or.inl ⟨hqp, (Option.some.inj hq).symm⟩
  · rw [update_of_ne hqp] at hq
    exact Or.inr ⟨hqp, hq⟩

theorem Mon.labels_same {b : Post K C L} (hpost : m'.post = update m.post p b)
    (hb : b.label = (m.post p).label) : m'.labels = m.labels := by
  rw [Mon.labels_update hpost, hb]
  exact update_eq_self p m.labels

@[simp] theorem Post.label_wake (a : Post K C L) : a.wake.label = a.label := by
  cases a <;> rfl

@[simp] theorem Post.label_wakeOn [DecidableEq C] (c : C) (a : Post K C L) :
    (a.wakeOn c).label = a.label := by
  rcases Post.wakeOn_cases c a with h | h <;> rw [h]
  exact Post.label_wake a

/-- A thread that is not in its code is where an operation has led it. -/
def Post.From (P : Op n K C D L → Prop) : Post K C L → Prop
  | .toSleep c k l | .asleep c k l => P (.sleep c k l)
  | .woken k l => ∃ c, P (.sleep c k l)
  | .waking c _ l => P (.wakeup c l)
  | .killing pid _ found missing => P (.kill pid found missing)
  | .code _ | .gone => True

/-- An operation that the code of a process does somewhere. -/
def Occurs (code : Code n K C D L X) (p : Fin n) (op : Op n K C D L) : Prop :=
  ∃ l v x, code p l v x = some op

/-- **Every thread has come to where it is by its code.** -/
def Sourced (code : Code n K C D L X) (m : Mon n K C D L) : Prop :=
  ∀ p, (m.post p).From (Occurs code p)

/-- A code that goes on in the same way whatever `kill` returns. -/
def Heedless (code : Code n K C D L X) : Prop :=
  ∀ p pid found missing, Occurs code p (.kill pid found missing) → found = missing

theorem Moves.relabels [DecidableEq C] (hsrc : Sourced code m) (hkill : Heedless code)
    (h : Moves code m p x m') :
    Relabels code m p x m' := by
  have hkeep : ∀ q, m.view.killed q = m.view.killed q ∨ m.view.killed q = true :=
    fun _ => Or.inl rfl
  cases h with
  | @op l op l' hp hrun hop hnext hnew hview hpost =>
    refine .op hp hrun hop (?_ : op.target = some l') hnew hview ?_
    · cases op <;> first | exact hnext | nomatch hnext
    · have hspawn : (fun q => (op.spawn m.post q).label) = op.spawnLabels m.labels := by
        funext q
        cases op with
        | allocproc r pid start f l₁ =>
          by_cases hq : q = r
          · subst hq
            simp [Op.spawn, Op.spawnLabels, Post.label]
          · simp [Op.spawn, Op.spawnLabels, hq, Mon.labels]
        | _ => rfl
      rw [← hspawn]
      exact Mon.labels_update (m := { m with post := op.spawn m.post }) hpost
  | sched hp hrun hop hview hpost => exact .sched hp hrun hop hview (Mon.labels_update hpost)
  | sleep hp hrun hop hview hpost =>
    exact .op hp hrun hop rfl nofun hview (Mon.labels_update hpost)
  | doze hp hlive hview hpost =>
    exact .quiet hview (Mon.labels_same hpost (by rw [hp]; rfl)) hkeep
  | relock hp hlive hfree hview hpost =>
    exact .quiet hview (Mon.labels_same hpost (by rw [hp]; rfl)) hkeep
  | wakeup hp hrun hop hview hpost =>
    exact .op hp hrun hop rfl nofun hview (Mon.labels_update hpost)
  | @wakeNext c l q hp hlive hview hpost =>
    have h₁ : (m.goto q ((m.post q).wakeOn c)).labels = m.labels :=
      Mon.labels_same (p := q) rfl (by simp)
    have hp₁ : (m.goto q ((m.post q).wakeOn c)).labels p = some l := by
      rw [h₁]
      show (m.post p).label = _
      rw [hp]
      rfl
    exact .quiet hview ((Mon.labels_same (m := m.goto q ((m.post q).wakeOn c)) hpost hp₁.symm).trans
      h₁) hkeep
  | wakeEnd hp hlive hi hview hpost =>
    exact .quiet hview (Mon.labels_same hpost (by rw [hp]; rfl)) hkeep
  | kill hp hrun hop hview hpost =>
    exact .op hp hrun hop rfl nofun hview (Mon.labels_update hpost)
  | @killHit pid found missing q hp hlive hpid hview hpost =>
    have h₁ : (m.goto q (m.post q).wake).labels = m.labels :=
      Mon.labels_same (p := q) rfl (by simp)
    have hp₁ : (m.goto q (m.post q).wake).labels p = some found := by
      rw [h₁]
      show (m.post p).label = _
      rw [hp]
      rfl
    refine .quiet hview ((Mon.labels_same (m := m.goto q (m.post q).wake) hpost hp₁.symm).trans
      h₁) (fun r => ?_)
    by_cases hr : r = q
    · subst hr
      simp
    · simp [hr]
  | killMiss hp hlive hpid hview hpost =>
    exact .quiet hview (Mon.labels_same hpost (by rw [hp]; rfl)) hkeep
  | @killEnd pid i found missing hp hlive hi hview hpost =>
    have hsame := hsrc p
    rw [hp] at hsame
    exact .quiet hview (Mon.labels_same hpost (by
      rw [hp]
      exact congrArg some (hkill _ _ _ _ hsame).symm))
      hkeep

theorem Sourced.update (hm : Sourced code m) {b : Post K C L}
    (hpost : m'.post = update m.post p b) (hb : b.From (Occurs code p)) :
    Sourced code m' := by
  intro q
  rw [hpost]
  by_cases hq : q = p
  · subst hq
    simpa using hb
  · simpa [hq] using hm q

theorem Sourced.wake (hm : Sourced code m) {q : Fin n} {b : Post K C L}
    (hb : b = m.post q ∨ b = (m.post q).wake) : Sourced code (m.goto q b) := by
  refine hm.update rfl ?_
  have hq := hm q
  rcases hb with rfl | rfl
  · exact hq
  · cases hpost : m.post q with
    | asleep c k l =>
      rw [hpost] at hq
      exact ⟨c, hq⟩
    | _ =>
      rw [hpost] at hq
      exact hq

theorem Sourced.step [DecidableEq C] (hm : Sourced code m) (h : Moves code m p x m') :
    Sourced code m' := by
  have hp := hm p
  cases h with
  | @op l op l' hpl hrun hop hnext hnew hview hpost =>
    have hspawn : Sourced code { m with post := op.spawn m.post } := by
      cases op with
      | allocproc q pid start f l₁ =>
        exact Sourced.update (b := .code start) hm rfl trivial
      | _ => exact hm
    exact hspawn.update hpost trivial
  | sched hpl hrun hop hview hpost => exact hm.update hpost trivial
  | sleep hpl hrun hop hview hpost => exact hm.update hpost ⟨_, _, _, hop⟩
  | doze hpl hlive hview hpost =>
    rw [hpl] at hp
    exact hm.update hpost hp
  | relock hpl hlive hfree hview hpost => exact hm.update hpost trivial
  | wakeup hpl hrun hop hview hpost => exact hm.update hpost ⟨_, _, _, hop⟩
  | @wakeNext c l q hpl hlive hview hpost =>
    rw [hpl] at hp
    exact (hm.wake (Post.wakeOn_cases c (m.post q))).update hpost hp
  | wakeEnd hpl hlive hi hview hpost => exact hm.update hpost trivial
  | kill hpl hrun hop hview hpost => exact hm.update hpost ⟨_, _, _, hop⟩
  | @killHit pid found missing q hpl hlive hpid hview hpost =>
    exact (hm.wake (q := q) (Or.inr rfl)).update hpost trivial
  | killMiss hpl hlive hpid hview hpost =>
    rw [hpl] at hp
    exact hm.update hpost hp
  | killEnd hpl hlive hi hview hpost => exact hm.update hpost trivial

theorem Sourced.boot {pid₀ : Fin n → Option ℤ} {l₀ : Fin n → L} {d₀ : D} :
    Sourced code (Mon.boot pid₀ l₀ d₀ : Mon n K C D L) := fun _ => trivial

/-- A thread where it never sleeps has the locks that its code tells. -/
theorem Sourced.locks_eq {holds : Fin n → L → Finset (SpinLock n K)} (hm : Sourced code m) {l : L}
    (hl : m.labels p = some l) (hsleep : ∀ c k, ¬ Occurs code p (.sleep c k l)) :
    (m.post p).locks holds p = holds p l := by
  have hp := hm p
  unfold Mon.labels at hl
  cases hpost : m.post p with
  | code l' | waking c i l' | killing pid i l' g =>
    rw [hpost] at hl
    cases hl
    rfl
  | gone =>
    rw [hpost] at hl
    nomatch hl
  | toSleep c k l' | asleep c k l' =>
    rw [hpost] at hl hp
    cases hl
    exact absurd hp (hsleep c k)
  | woken k l' =>
    rw [hpost] at hl hp
    cases hl
    obtain ⟨c, hp⟩ := hp
    exact absurd hp (hsleep c k)

/-! ## The invariant -/

section Defs

variable (holds : Fin n → L → Finset (SpinLock n K)) (guard : C → K)
  (Cond : View n D → C → Prop) (owes awake : Fin n → L → C → Prop)

/-- A thread that will wake up those who sleep on a channel, before it releases
the guard. -/
def Owed (c : C) (p : Fin n) (post : Post K C L) : Prop :=
  (∃ l, post = .code l ∧ owes p l c) ∨
    ∃ i l, post = .waking c i l ∧ .other (guard c) ∈ holds p l

/-- Nobody sleeps on a channel. -/
def Deserted (m : Mon n K C D L) (c : C) : Prop := ∀ p k l, m.post p ≠ .asleep c k l

/-- A thread that is not in its code knows of no channel that nobody sleeps on
it, apart from the one it wakes up. -/
def Plain (p : Fin n) : Post K C L → Prop
  | .toSleep _ _ l | .asleep _ _ l | .woken _ l => ∀ c, ¬ awake p l c
  | .waking c _ l => ∀ c', awake p l c' → c' = c
  | .killing _ _ found missing => ∀ c, ¬ awake p found c ∧ ¬ awake p missing c
  | .code _ | .gone => True

/-- **No wake-up is lost.** -/
structure NoLost (m : Mon n K C D L) : Prop where
  guarded : ∀ p c k l, m.post p = .toSleep c k l ∨ m.post p = .asleep c k l → k = guard c
  toSleep : ∀ p c k l, m.post p = .toSleep c k l → Cond m.view c
  asleep : ∀ p c k l, m.post p = .asleep c k l →
    Cond m.view c ∨ ∃ q, Owed holds guard owes c q (m.post q)
  /-- The loop of `wakeup` leaves nobody asleep behind it. -/
  behind : ∀ q c i l, m.post q = .waking c i l → .other (guard c) ∈ holds q l →
    ∀ p k l', m.post p = .asleep c k l' → i ≤ p
  deserted : ∀ q l c, m.post q = .code l → awake q l c → Deserted m c
  plain : ∀ p, Plain awake p (m.post p)

/-- What a step within the code has to do with the conditions: one that ends a
condition is done with the guard, and owes a wake-up then unless nobody
sleeps; what is owed is paid or owed further. -/
def NextOk (m : Mon n K C D L) (p : Fin n) (l : L) (v : View n D) (l' : L) : Prop :=
  ∀ c, (Cond m.view c ∨ owes p l c → Cond v c ∨ owes p l' c ∨ Deserted m c) ∧
    (Cond m.view c → Cond v c ∨ .other (guard c) ∈ holds p l) ∧
    (awake p l' c → awake p l c)

/-- **What an operation has to do with the conditions.** -/
def Wakeful (m : Mon n K C D L) (p : Fin n) (l : L) : Op n K C D L → Prop
  | .sleep c k l' => k = guard c ∧ Cond m.view c ∧ ∀ c', ¬ owes p l c' ∧ ¬ awake p l' c'
  | .wakeup c l' => ∀ c', (owes p l c' → c' = c) ∧ (awake p l' c' → c' = c)
  | .kill _ found missing => ∀ c, ¬ owes p l c ∧ ¬ awake p found c ∧ ¬ awake p missing c
  | .sched => ∀ c, ¬ owes p l c
  | .allocproc q pid start f l' =>
    NextOk holds guard Cond owes awake m p l
      ((Op.allocproc q pid start f l' : Op n K C D L).apply p m.view) l' ∧
    ∀ c, ¬ awake q start c
  | .act f l' => NextOk holds guard Cond owes awake m p l { m.view with data := f m.view.data } l'
  | .runnable q l' =>
    NextOk holds guard Cond owes awake m p l ((Op.runnable q l' : Op n K C D L).apply p m.view) l'
  | .freeproc q f l' =>
    NextOk holds guard Cond owes awake m p l ((Op.freeproc q f l' : Op n K C D L).apply p m.view) l'
  | .zombie f l' =>
    NextOk holds guard Cond owes awake m p l ((Op.zombie f l' : Op n K C D L).apply p m.view) l'
  | .acquire _ l' | .release _ l' | .yield l' | .intr _ l' =>
    NextOk holds guard Cond owes awake m p l m.view l'

end Defs

variable {holds : Fin n → L → Finset (SpinLock n K)} {guard : C → K}
  {Cond : View n D → C → Prop} {owes awake : Fin n → L → C → Prop}

theorem Wakeful.next {l l' : L} {op : Op n K C D L}
    (hw : Wakeful holds guard Cond owes awake m p l op) (hnext : op.next = some l') :
    NextOk holds guard Cond owes awake m p l (op.apply p m.view) l' := by
  cases op with
  | sleep | wakeup | kill | sched => nomatch hnext
  | allocproc =>
    cases hnext
    exact hw.1
  | _ =>
    cases hnext
    exact hw

theorem NextOk.same {l l' : L} {v : View n D} (hcond : ∀ c, Cond m.view c → Cond v c)
    (howes : ∀ c, owes p l c → owes p l' c) (hawake : ∀ c, awake p l' c → awake p l c) :
    NextOk holds guard Cond owes awake m p l v l' := fun c =>
  ⟨fun h => h.elim (fun h => Or.inl (hcond c h)) (fun h => Or.inr (Or.inl (howes c h))),
    fun h => Or.inl (hcond c h), hawake c⟩

/-- **A thread moves**, with what that means for those who sleep. -/
theorem NoLost.move (hJ : NoLost holds guard Cond owes awake m) {b : Post K C L}
    (hpost : m'.post = update m.post p b) (hplain : Plain awake p b)
    (hself : ∀ c k l, b = .toSleep c k l ∨ b = .asleep c k l → k = guard c ∧ Cond m'.view c)
    (hstay : ∀ q, q ≠ p → ∀ c k l, m.post q = .toSleep c k l → Cond m'.view c)
    (howed : ∀ q, q ≠ p → ∀ c k l, m.post q = .asleep c k l →
      Cond m.view c ∨ Owed holds guard owes c p (m.post p) →
      Cond m'.view c ∨ Owed holds guard owes c p b)
    (hbehind : ∀ c i l, b = .waking c i l → .other (guard c) ∈ holds p l →
      ∀ q k l', q ≠ p → m.post q = .asleep c k l' → i ≤ q)
    (hawake : ∀ l c, b = .code l → awake p l c → ∀ q k l', q ≠ p → m.post q ≠ .asleep c k l')
    (hdoze : ∀ c k l, b = .asleep c k l → ∀ q, q ≠ p →
      (∀ l, m.post q = .code l → ¬ awake q l c) ∧
      ∀ i l, m.post q = .waking c i l → .other (guard c) ∉ holds q l) :
    NoLost holds guard Cond owes awake m' where
  guarded q c k l h := by
    rw [hpost] at h
    by_cases hq : q = p
    · subst hq
      exact (hself c k l (by simpa using h)).1
    · exact hJ.guarded q c k l (by simpa [hq] using h)
  toSleep q c k l h := by
    rw [hpost] at h
    by_cases hq : q = p
    · subst hq
      exact (hself c k l (Or.inl (by simpa using h))).2
    · exact hstay q hq c k l (by simpa [hq] using h)
  asleep q c k l h := by
    rw [hpost] at h ⊢
    by_cases hq : q = p
    · subst hq
      exact Or.inl (hself c k l (Or.inr (by simpa using h))).2
    · rw [update_of_ne hq] at h
      have hlift : Cond m'.view c ∨ Owed holds guard owes c p b →
          Cond m'.view c ∨ ∃ r, Owed holds guard owes c r (update m.post p b r) :=
        fun hc => hc.imp id (fun ho => ⟨p, by simpa using ho⟩)
      rcases hJ.asleep q c k l h with hc | ⟨r, hr⟩
      · exact hlift (howed q hq c k l h (Or.inl hc))
      · by_cases hrp : r = p
        · subst hrp
          exact hlift (howed q hq c k l h (Or.inr hr))
        · exact Or.inr ⟨r, by simpa [hrp] using hr⟩
  behind q c i l h hg r k l' hr := by
    rw [hpost] at h hr
    by_cases hq : q = p
    · subst hq
      have hrq : r ≠ q := by
        rintro rfl
        rw [h] at hr
        nomatch hr
      exact hbehind c i l (by simpa using h) hg r k l' hrq (by simpa [hrq] using hr)
    · rw [update_of_ne hq] at h
      by_cases hrp : r = p
      · subst hrp
        exact absurd hg ((hdoze c k l' (by simpa using hr) q hq).2 i l h)
      · exact hJ.behind q c i l h hg r k l' (by simpa [hrp] using hr)
  deserted q l c h ha r k l' hr := by
    rw [hpost] at h hr
    by_cases hq : q = p
    · subst hq
      have hrq : r ≠ q := by
        rintro rfl
        rw [h] at hr
        nomatch hr
      exact hawake l c (by simpa using h) ha r k l' hrq (by simpa [hrq] using hr)
    · rw [update_of_ne hq] at h
      by_cases hrp : r = p
      · subst hrp
        exact (hdoze c k l' (by simpa using hr) q hq).1 l h ha
      · exact hJ.deserted q l c h ha r k l' (by simpa [hrp] using hr)
  plain q := by
    rw [hpost]
    by_cases hq : q = p
    · subst hq
      simpa using hplain
    · simpa [hq] using hJ.plain q

/-- A thread that owes nothing goes on, and the conditions are as they were. -/
theorem NoLost.goto (hJ : NoLost holds guard Cond owes awake m) {b : Post K C L}
    (hpost : m'.post = update m.post p b) (hview : ∀ c, Cond m'.view c ↔ Cond m.view c)
    (hplain : Plain awake p b) (howed : ∀ c, ¬ Owed holds guard owes c p (m.post p))
    (hb : ∀ c k l, b ≠ .toSleep c k l ∧ b ≠ .asleep c k l)
    (hawake : ∀ l c, b = .code l → ¬ awake p l c)
    (hwaking : ∀ c i l, b = .waking c i l → i = 0) : NoLost holds guard Cond owes awake m' := by
  refine hJ.move hpost hplain (fun c k l h => ?_) (fun q _ c k l h => ?_)
    (fun q _ c k l _ h => Or.inl ?_) (fun c i l h _ q k l' _ _ => ?_)
    (fun l c h ha => absurd ha (hawake l c h)) (fun c k l h => absurd h (hb c k l).2)
  · exact absurd h (not_or.mpr (hb c k l))
  · exact (hview c).mpr (hJ.toSleep q c k l h)
  · exact (hview c).mpr (h.resolve_right (howed c))
  · rw [hwaking c i l h]
    exact Nat.zero_le _

/-- A thread is woken up, or stays where it is. -/
theorem NoLost.wake (hJ : NoLost holds guard Cond owes awake m) {q : Fin n} {b : Post K C L}
    (hb : b = m.post q ∨ b = (m.post q).wake) :
    NoLost holds guard Cond owes awake (m.goto q b) := by
  rcases hb with rfl | rfl
  · rw [Mon.goto_self rfl]
    exact hJ
  · cases hq : m.post q with
    | asleep c k l =>
      have hpl := hJ.plain q
      rw [hq] at hpl
      exact hJ.goto rfl (fun _ => Iff.rfl) hpl (by simp [hq, Owed]) (by simp [Post.wake])
        (by simp [Post.wake]) (by simp [Post.wake])
    | _ =>
      have hself : m.goto q (m.post q).wake = m := Mon.goto_self (by rw [hq]; rfl)
      rw [hq] at hself
      rw [hself]
      exact hJ

section Step

variable [DecidableEq K] (ho : Owners holds m) (hJ : NoLost holds guard Cond owes awake m)
  (howes : ∀ p l c, owes p l c → .other (guard c) ∈ holds p l)
  (hawake : ∀ p l c, awake p l c → .other (guard c) ∈ holds p l)

omit [DecidableEq K] in
include ho hJ howes in
/-- The thread of a new process is set up. -/
theorem NoLost.spawn {q : Fin n} {start : L} (hunused : m.view.status q = .unused)
    (hstart : ∀ c, ¬ awake q start c) :
    NoLost holds guard Cond owes awake (m.goto q (.code start)) := by
  have hidle := ho.idle q (Or.inl hunused)
  refine hJ.goto rfl (fun _ => Iff.rfl) trivial (fun c h => ?_) (by simp) (fun l c h => ?_)
    (by simp)
  · rcases h with ⟨l, h, hl⟩ | ⟨i, l, h, hl⟩
    · rw [h] at hidle
      have hmem := howes q l c hl
      rw [show holds q l = ∅ from hidle] at hmem
      simp at hmem
    · rw [h] at hidle
      rw [show holds q l = ∅ from hidle] at hl
      simp at hl
  · cases h
    exact hstart c

include ho hJ howes hawake in
/-- **Every step of a code that is wakeful keeps the wake-ups.** -/
theorem NoLost.step [DecidableEq C] (hkilled : ∀ v k c, Cond { v with killed := k } c ↔ Cond v c)
    (hd : Disciplined holds code)
    (hw : ∀ l op, m.post p = .code l → code p l m.view x = some op →
      Wakeful holds guard Cond owes awake m p l op)
    (hstep : Moves code m p x m') : NoLost holds guard Cond owes awake m' := by
  -- a thread in its code that owes nothing
  have hnone : ∀ {l : L} {c : C}, m.post p = .code l → ¬ owes p l c →
      ¬ Owed holds guard owes c p (m.post p) := by
    intro l c hp hno
    simpa [hp, Owed] using hno
  have hstay : m'.view = m.view → ∀ q, q ≠ p → ∀ c k l, m.post q = .toSleep c k l →
      Cond m'.view c := fun hview q _ c k l hs => hview ▸ hJ.toSleep q c k l hs
  have hplain := hJ.plain p
  cases hstep with
  | @op l op l' hp hrun hop hnext hnew hview hpost =>
    have hw := hw l op hp hop
    -- the thread of a new process is set up first
    obtain ⟨m₁, hJ₁, hpost₁, hview₁, hp₁, hdes⟩ : ∃ m₁ : Mon n K C D L,
        NoLost holds guard Cond owes awake m₁ ∧ m₁.post = op.spawn m.post ∧ m₁.view = m.view ∧
        m₁.post p = .code l ∧ ∀ c, Deserted m c → Deserted m₁ c := by
      by_cases hall : ∃ q pid start f l₁, op = .allocproc q pid start f l₁
      · obtain ⟨q, pid, start, f, l₁, rfl⟩ := hall
        obtain ⟨hne, hunused⟩ := hnew q pid start f l₁ rfl
        refine ⟨m.goto q (.code start), hJ.spawn ho howes hunused
          hw.2, rfl, rfl, ?_, fun c hc r k l₂ h => ?_⟩
        · simpa [Mon.goto, Ne.symm hne] using hp
        · by_cases hr : r = q
          · subst hr
            simp [Mon.goto] at h
          · exact hc r k l₂ (by simpa [Mon.goto, hr] using h)
      · refine ⟨m, hJ, ?_, rfl, hp, fun _ h => h⟩
        cases op with
        | allocproc q pid start f l₁ => exact absurd ⟨q, pid, start, f, l₁, rfl⟩ hall
        | _ => rfl
    refine hJ₁.move (p := p) (b := .code l') (by rw [hpost₁]; exact hpost) trivial (by simp)
      (fun q hq c k l₁ hs => ?_)
      (fun q hq c k l₁ hs hc => ?_) (by simp) (fun l₁ c h ha q k l₂ _ hs => ?_) (by simp)
    · -- another thread is about to sleep, so that it has the guard
      have hc : Cond m.view c := by
        rw [← hview₁]
        exact hJ₁.toSleep q c k l₁ hs
      rw [hview]
      refine ((hw.next hnext c).2.1 hc).resolve_right (fun hmem => hq ?_)
      have hk := hJ₁.guarded q c k l₁ (Or.inl hs)
      have hs' : m.post q = .toSleep c k l₁ := by
        rw [hpost₁] at hs
        cases op with
        | allocproc r pid start f l₂ =>
          by_cases hr : q = r
          · subst hr
            simp [Op.spawn] at hs
          · simpa [Op.spawn, hr] using hs
        | _ => exact hs
      refine ho.unique (k := .other (guard c)) ?_ (by rw [hp]; exact hmem)
      rw [hs', hk]
      exact Finset.mem_singleton_self _
    · rw [hview₁] at hc
      have hc' : Cond m.view c ∨ owes p l c := by simpa [hp₁, Owed] using hc
      rw [hview]
      rcases (hw.next hnext c).1 hc' with h | h | h
      · exact Or.inl h
      · exact Or.inr (Or.inl ⟨l', rfl, h⟩)
      · exact absurd hs (hdes c h q k l₁)
    · cases h
      exact hJ₁.deserted p l c hp₁ ((hw.next hnext c).2.2 ha) q k l₂ hs
  | @sched l hp hrun hop hview hpost =>
    refine hJ.goto hpost (fun _ => by rw [hview]) trivial
      (fun c => hnone hp (hw l _ hp hop c)) (by simp) (by simp) (by simp)
  | @sleep l c k l' hp hrun hop hview hpost =>
    obtain ⟨hk, hc, hno⟩ := hw l _ hp hop
    refine hJ.move hpost (fun c' => (hno c').2) (fun c' k' l₁ h => ?_) (hstay hview)
      (fun q _ c' k' l₁ hs h => Or.inl ?_) (by simp) (by simp) (by simp)
    · obtain ⟨rfl, rfl, -⟩ := Post.toSleep.inj (h.resolve_right (by rintro ⟨⟩))
      rw [hview]
      exact ⟨hk, hc⟩
    · rw [hview]
      exact h.resolve_right (hnone hp (hno c').1)
  | @doze c k l hp hlive hview hpost =>
    rw [hp] at hplain
    have hk := hJ.guarded p c k l (Or.inl hp)
    have hlk : .other (guard c) ∈ (m.post p).locks holds p := by
      rw [hp, hk]
      exact Finset.mem_singleton_self _
    refine hJ.move hpost hplain (fun c' k' l₁ h => ?_) (hstay hview)
      (fun q _ c' k' l₁ hs h => Or.inl ?_) (by simp) (by simp) (fun c' k' l₁ h q hq => ?_)
    · obtain ⟨rfl, rfl, -⟩ := Post.asleep.inj (h.resolve_left (by rintro ⟨⟩))
      rw [hview]
      exact ⟨hk, hJ.toSleep p c k l hp⟩
    · rw [hview]
      exact h.resolve_right (by simp [hp, Owed])
    · -- who has woken everyone up has the guard
      cases h
      refine ⟨fun l₂ hq₂ ha => hq (ho.unique ?_ hlk), fun i l₂ hq₂ hmem => hq (ho.unique ?_ hlk)⟩
      · rw [hq₂]
        exact hawake q l₂ c ha
      · rw [hq₂]
        exact hmem
  | @relock k l hp hlive hfree hview hpost =>
    rw [hp] at hplain
    refine hJ.goto hpost (fun _ => by rw [hview]) trivial (by simp [hp, Owed]) (by simp)
      (fun l₁ c h => ?_) (by simp)
    cases h
    exact hplain c
  | @wakeup l c l' hp hrun hop hview hpost =>
    have hwk := hw l _ hp hop
    have hholds : holds p l' = holds p l := (hd p l m.view x _ hop).2
    refine hJ.move hpost (fun c' => (hwk c').2) (by simp) (hstay hview)
      (fun q _ c' k' l₁ hs h => ?_) (fun c' i l₁ h _ q k l₂ _ _ => ?_) (by simp) (by simp)
    · rw [hview]
      refine h.imp id (fun h => ?_)
      have hl : owes p l c' := by simpa [hp, Owed] using h
      obtain rfl := (hwk c').1 hl
      refine Or.inr ⟨0, l', rfl, ?_⟩
      rw [hholds]
      exact howes p l c' hl
    · cases h
      exact Nat.zero_le _
  | @wakeNext c l q hp hlive hview hpost =>
    have hJ₁ := hJ.wake (q := q) (Post.wakeOn_cases c (m.post q))
    rw [hp] at hplain
    have hp₁ : (m.goto q ((m.post q).wakeOn c)).post p = .waking c q l := by
      by_cases hq : p = q
      · subst hq
        simp [Mon.goto, hp, Post.wakeOn]
      · simp [Mon.goto, hq, hp]
    refine hJ₁.move hpost hplain (by simp) (fun r _ c' k' l₁ hs => ?_)
      (fun r _ c' k' l₁ hs h => ?_) (fun c' i l₁ h hg r k l₂ hr hs => ?_) (by simp) (by simp)
    · rw [hview]
      exact hJ₁.toSleep r c' k' l₁ hs
    · rw [hview]
      refine h.imp id (fun h => ?_)
      rw [hp₁] at h
      obtain ⟨l₂, h, -⟩ | ⟨i, l₂, h, hl⟩ := h <;> cases h
      exact Or.inr ⟨q + 1, l, rfl, hl⟩
    · -- the process at which the loop was has been woken up
      cases h
      have hle := hJ₁.behind p c q l hp₁ hg r k l₂ hs
      refine lt_of_le_of_ne hle (fun heq => ?_)
      obtain rfl := Fin.ext heq
      simp only [Mon.goto, update_self] at hs
      exact Post.wakeOn_ne_asleep _ _ _ _ hs
  | @wakeEnd c i l hp hlive hi hview hpost =>
    rw [hp] at hplain
    -- the loop has passed everyone
    have hdes : .other (guard c) ∈ holds p l → Deserted m c := fun hg r k l₁ hs =>
      absurd (hJ.behind p c i l hp hg r k l₁ hs) (not_le.mpr (r.isLt.trans_le hi))
    refine hJ.move hpost trivial (by simp) (hstay hview)
      (fun r _ c' k' l₁ hs h => Or.inl ?_) (by simp) (fun l₁ c' h ha r k l₂ _ hs => ?_) (by simp)
    · rw [hview]
      refine h.resolve_right (fun h => ?_)
      rw [hp] at h
      obtain ⟨l₂, h, -⟩ | ⟨j, l₂, h, hl⟩ := h <;> cases h
      exact hdes hl r k' l₁ hs
    · cases h
      obtain rfl := hplain c' ha
      exact hdes (hawake p l c' ha) r k l₂ hs
  | @kill l pid found missing hp hrun hop hview hpost =>
    have hk := hw l _ hp hop
    exact hJ.goto hpost (fun _ => by rw [hview]) (fun c => (hk c).2)
      (fun c => hnone hp (hk c).1) (by simp) (by simp) (by simp)
  | @killHit pid found missing q hp hlive hpid hview hpost =>
    have hJ₁ := hJ.wake (q := q) (Or.inr rfl)
    rw [hp] at hplain
    have hp₁ : (m.goto q (m.post q).wake).post p = .killing pid q found missing := by
      by_cases hq : p = q
      · subst hq
        simp [Mon.goto, hp, Post.wake]
      · simp [Mon.goto, hq, hp]
    refine hJ₁.goto hpost (fun c => ?_) trivial (by simp [hp₁, Owed]) (by simp) (fun l c h => ?_)
      (by simp)
    · rw [hview]
      exact hkilled _ _ c
    · cases h
      exact (hplain c).1
  | @killMiss pid found missing q hp hlive hpid hview hpost =>
    rw [hp] at hplain
    exact hJ.goto hpost (fun _ => by rw [hview]) hplain (by simp [hp, Owed]) (by simp) (by simp)
      (by simp)
  | @killEnd pid i found missing hp hlive hi hview hpost =>
    rw [hp] at hplain
    refine hJ.goto hpost (fun _ => by rw [hview]) trivial (by simp [hp, Owed]) (by simp)
      (fun l c h => ?_) (by simp)
    cases h
    exact (hplain c).2

end Step

theorem NoLost.boot {pid₀ : Fin n → Option ℤ} {l₀ : Fin n → L} {d₀ : D}
    (h₀ : ∀ p c, ¬ awake p (l₀ p) c) :
    NoLost holds guard Cond owes awake (Mon.boot pid₀ l₀ d₀ : Mon n K C D L) where
  guarded p c k l h := h.elim nofun nofun
  toSleep p c k l h := nomatch h
  asleep p c k l h := nomatch h
  behind p c i l h := nomatch h
  deserted p l c h := by
    cases h
    exact fun ha => absurd ha (h₀ p c)
  plain p := trivial

/-- **When the guard is free, who sleeps does so because of the condition.** -/
theorem NoLost.free [DecidableEq K] {s : State n H K C D L} (hi : Inv s)
    (ho : Owners holds s.abs) (hJ : NoLost holds guard Cond owes awake s.abs)
    (howes : ∀ p l c, owes p l c → .other (guard c) ∈ holds p l) {c : C}
    (hfree : s.lock (.other (guard c)) = none) {p : Fin n}
    (hst : (s.entry p).state = .SLEEPING) (hchan : (s.entry p).chan = some c) : Cond s.view c := by
  obtain ⟨k, l, hpost⟩ := hi.asleep hst hchan
  refine (hJ.asleep p c k l hpost).resolve_right ?_
  rintro ⟨q, hq⟩
  have hlk : .other (guard c) ∈ (s.abs.post q).locks holds q := by
    rcases hq with ⟨l', h, hl⟩ | ⟨i, l', h, hl⟩
    · rw [h]
      exact howes q l' c hl
    · rw [h]
      exact hl
  rw [← ho.owner, show s.abs.owner (.other (guard c)) = none from State.owner_of_none hfree] at hlk
  nomatch hlk

end Xv6.Threads
