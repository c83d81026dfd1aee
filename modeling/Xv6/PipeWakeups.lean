import Xv6.Pipe

/-!
# Wake-ups on pipes

Readers sleep on `&pi->nread` while the pipe is empty and open for writing,
writers on `&pi->nwrite` while it is full and open for reading. `pipewrite`
wakes up the readers once it has put all its bytes, or when the pipe is full;
`piperead` wakes up the writers once it has taken what there is; `pipeclose`
wakes up the processes at the other end.

One way out of `pipewrite` wakes up nobody: the return of `-1` at the head of
its loop. If that is because the process was killed between two bytes, readers
sleep on although there are bytes for them (`pipe_wakeup_lost`).
-/

namespace Xv6.Pipes

open Threads

variable {n : ℕ}

/-! ## References to the ends -/

section References

variable {m m' : Mon n Lk Chan (Shared n) Local} {p : Fin n} {l l' : Local} {x : Call}

/-- How many descriptors for an end a thread has. -/
def fdsOf (w : Bool) (o : Option Local) : ℕ := (o.map (fun l => l.fds w)).getD 0

/-- The end for which a process has a descriptor where it is. -/
def Pc.end? : Pc → Option Bool
  | .drop w | .dup w => some w
  | .read _ => some false
  | _ => none

/-- The end that a process is closing for good. -/
def Pc.closing : Pc → Option Bool
  | .last w | .close w | .shut w => some w
  | _ => none

/-- **References to the ends of the pipe.** -/
structure Refs (m : Mon n Lk Chan (Shared n) Local) : Prop where
  ref : ∀ w, m.view.data.ref w = ∑ p, fdsOf w (m.labels p)
  has : ∀ p l w, m.labels p = some l → l.pc.end? = some w → 0 < l.fds w
  closing : ∀ p l w, m.labels p = some l → l.pc.closing = some w → m.view.data.ref w = 0
  closed : ∀ w, m.view.data.pipe.isOpen w = false → m.view.data.ref w = 0

theorem Refs.ref_pos (hR : Refs m) (hl : m.labels p = some l) {w : Bool} (hfd : 0 < l.fds w) :
    0 < m.view.data.ref w := by
  rw [hR.ref w]
  refine sum_pos_of (p := p) m.labels (fdsOf w) ?_
  rw [hl]
  exact hfd

/-- A process goes on, with other descriptors. -/
theorem Refs.move (hR : Refs m) (hl : m.labels p = some l)
    (hlab : m'.labels = Function.update m.labels p (some l'))
    (href : ∀ w, m'.view.data.ref w + l.fds w = m.view.data.ref w + l'.fds w)
    (hhas : ∀ w, l'.pc.end? = some w → 0 < l'.fds w)
    (hclosing : ∀ w, l'.pc.closing = some w → m'.view.data.ref w = 0)
    (hzero : ∀ w, m.view.data.ref w = 0 → m'.view.data.ref w = 0)
    (hclosed : ∀ w, m'.view.data.pipe.isOpen w = false → m'.view.data.ref w = 0) : Refs m' := by
  refine ⟨fun w => ?_, fun q lq w hq => ?_, fun q lq w hq => ?_, hclosed⟩
  · have hsum := sum_update m.labels p (some l') (fdsOf w)
    have hold : fdsOf w (m.labels p) = l.fds w := by rw [hl]; rfl
    have hnew : fdsOf w (some l') = l'.fds w := rfl
    rw [hold, hnew, ← hlab, ← hR.ref w] at hsum
    have := href w
    omega
  · rcases Mon.labels_cases hlab hq with ⟨-, rfl⟩ | ⟨-, hq⟩
    · exact hhas w
    · exact hR.has q lq w hq
  · rcases Mon.labels_cases hlab hq with ⟨-, rfl⟩ | ⟨-, hq⟩
    · exact hclosing w
    · exact fun h => hzero w (hR.closing q lq w hq h)

/-- A process goes on with its descriptors. -/
theorem Refs.goto (hR : Refs m) (hl : m.labels p = some l)
    (hlab : m'.labels = Function.update m.labels p (some l')) (hfds : l'.fds = l.fds)
    (href : m'.view.data.ref = m.view.data.ref)
    (hopen : m'.view.data.pipe.isOpen = m.view.data.pipe.isOpen)
    (hhas : ∀ w, l'.pc.end? = some w → 0 < l.fds w)
    (hclosing : ∀ w, l'.pc.closing = some w → l.pc.closing = some w) : Refs m' := by
  refine hR.move hl hlab (fun w => by rw [href, hfds]) (fun w => ?_) (fun w h => ?_) (fun w h => ?_)
    (fun w => ?_)
  · rw [hfds]
    exact hhas w
  · rw [href]
    exact hR.closing p l w hl (hclosing w h)
  · rw [href]
    exact h
  · rw [hopen, href]
    exact hR.closed w

/-- A process goes on with one descriptor more or less. -/
theorem Refs.setRef (hR : Refs m) (hl : m.labels p = some l) {w : Bool} {a r : ℕ} {pc : Pc}
    (hlab : m'.labels = Function.update m.labels p
      (some { l with fds := Function.update l.fds w a, pc := pc }))
    (hd : m'.view.data = m.view.data.setRef w r) (hr : r + l.fds w = m.view.data.ref w + a)
    (hpos : 0 < m.view.data.ref w) (hend : pc.end? = none)
    (hclosing : ∀ w', pc.closing = some w' → w' = w ∧ r = 0) : Refs m' := by
  have hself : m'.view.data.ref w = r := by simp [hd, Shared.setRef]
  have hother : ∀ w', w' ≠ w → m'.view.data.ref w' = m.view.data.ref w' := by
    intro w' hw
    simp [hd, Shared.setRef, hw]
  have hzero : ∀ w', m.view.data.ref w' = 0 → m'.view.data.ref w' = 0 := by
    intro w' h
    have hw : w' ≠ w := by
      rintro rfl
      exact hpos.ne' h
    rw [hother w' hw]
    exact h
  refine hR.move hl hlab (fun w' => ?_) (fun w' h => ?_) (fun w' h => ?_) hzero
    (fun w' h => hzero w' (hR.closed w' ?_))
  · by_cases hw : w' = w
    · subst hw
      simpa [hself] using hr
    · simp [hother w' hw, hw]
  · rw [hend] at h
    nomatch h
  · obtain ⟨rfl, rfl⟩ := hclosing w' h
    exact hself
  · rw [hd] at h
    exact h

/-- **Every step keeps the references.** -/
theorem Refs.step (hR : Refs m) (hstep : Relabels code m p x m') :
    Refs m' := by
  cases hstep with
  | @op l op l' hp hrun hop htarget hnew hview hlab =>
    have hl := Mon.labels_of_code hp
    have hspawn : op.spawnLabels m.labels = m.labels := by
      cases code_does hop <;> rfl
    rw [hspawn] at hlab
    have hd : m'.view.data = (op.apply p m.view).data := by rw [hview]
    have hhas := fun w => hR.has p l w hl
    have hgoto : (op.apply p m.view).data.ref = m.view.data.ref →
        (op.apply p m.view).data.pipe.isOpen = m.view.data.pipe.isOpen → l'.fds = l.fds → _ :=
      fun href hopen hfds => hR.goto hl hlab hfds (hd ▸ href) (hd ▸ hopen)
    cases code_does hop with
    | @drop w pc hpc hpc' =>
      cases htarget
      have hfd := hhas w (by rw [hpc]; rfl)
      have hpos := hR.ref_pos hl hfd
      refine hR.setRef hl hlab hd (by omega) hpos ?_ (fun w' h => ?_)
      · rcases hpc' with ⟨rfl, -⟩ | ⟨rfl, -⟩ <;> rfl
      · rcases hpc' with ⟨rfl, -⟩ | ⟨rfl, hle⟩
        · nomatch h
        · exact ⟨(Option.some.inj h).symm, by omega⟩
    | @dup w hpc =>
      cases htarget
      have hfd := hhas w (by rw [hpc]; rfl)
      exact hR.setRef hl hlab hd (by omega) (hR.ref_pos hl hfd) rfl nofun
    | @shut w hpc =>
      cases htarget
      have hz := hR.closing p l w hl (by rw [hpc]; rfl)
      refine hR.move hl hlab (fun w' => by rw [hview]; rfl) nofun
        nofun (fun w' h => by rw [hview]; exact h) (fun w' h => ?_)
      rw [hview] at h ⊢
      by_cases hw : w' = w
      · rw [hw]
        exact hz
      · refine hR.closed w' ?_
        rw [← h]
        cases w <;> cases w' <;> first | rfl | exact absurd rfl hw
    | enterRead hpc hfd =>
      cases htarget
      refine hgoto rfl rfl rfl (fun w h => ?_) nofun
      cases h
      exact hfd
    | enterClose hpc hfd | enterDup hpc hfd =>
      cases htarget
      refine hgoto rfl rfl rfl (fun w h => ?_) nofun
      cases h
      exact hfd
    | kill hpc | yield hpc | sleepEmpty hpc =>
      cases htarget
      exact hgoto rfl rfl rfl hhas (fun w h => h)
    | last hpc | close hpc =>
      cases htarget
      refine hgoto rfl rfl rfl nofun (fun w h => ?_)
      rw [hpc]
      exact h
    | shutEnd hpc hpc' =>
      cases htarget
      refine hgoto rfl rfl rfl (fun w h => ?_) (fun w h => ?_) <;>
        rcases hpc' with rfl | rfl <;> nomatch h
    | _ =>
      cases htarget
      exact hgoto rfl rfl rfl nofun nofun
  | sched hp hrun hop => exact nomatch code_does hop
  | quiet hview hlab =>
    refine ⟨?_, ?_, ?_, ?_⟩ <;> simp only [hview, hlab]
    · exact hR.ref
    · exact hR.has
    · exact hR.closing
    · exact hR.closed

theorem Refs.boot (pid₀ : Fin n → Option ℤ) (fds : Fin n → Bool → ℕ)
    (data : Fin PIPESIZE → UInt8) :
    Refs (Mon.boot pid₀ (fun p => start (fds p)) (pipealloc fds data)) where
  ref w := rfl
  has p l w h := by
    cases h
    exact nofun
  closing p l w h := by
    cases h
    exact nofun
  closed w h := by cases w <;> nomatch h

/-- **When the end for reading is closed, there are no readers.** -/
theorem Refs.deserted (hR : Refs m) (hsrc : Sourced code m)
    (hclosed : m.view.data.pipe.readopen = false) : Deserted m .nread := by
  intro q k l hq
  have hsleep := hsrc q
  rw [hq] at hsleep
  obtain ⟨l₀, v, x, hop⟩ := hsleep
  cases code_does hop with
  | sleepEmpty hpc hempty hopen =>
    have hl := congrArg Post.label hq
    have hfd := hR.has q l false hl (by rw [hpc]; rfl)
    exact (hR.ref_pos hl hfd).ne' (hR.closed false hclosed)

end References

/-! ## Kills between two bytes -/

section Kills

variable {m m' : Mon n Lk Chan (Shared n) Local} {p : Fin n} {x : Call}

/-- In `pipewrite`, with bytes put for which the readers are still to be woken
up, or about to put one, and with more bytes to come. -/
def Pc.Midway : Pc → Prop
  | .write c i new => new = true ∧ i < c.bytes.length
  | .put c i _ => c.fault ≠ some i ∧ i + 1 < c.bytes.length
  | _ => False

instance (pc : Pc) : Decidable pc.Midway := by
  cases pc <;> unfold Pc.Midway <;> infer_instance

/-- No process is killed midway. -/
def Spared (m : Mon n Lk Chan (Shared n) Local) : Prop :=
  ∀ p l, m.labels p = some l → m.view.killed p = true → ¬ l.pc.Midway

/-- A step that kills no process midway. -/
def Spares (m m' : Mon n Lk Chan (Shared n) Local) : Prop :=
  ∀ p l, m.view.killed p = false → m'.view.killed p = true → m.labels p = some l → ¬ l.pc.Midway

theorem Spared.step (hS : Spared m) (hR : Spares m m')
    (hstep : Relabels code m p x m') : Spared m' := by
  cases hstep with
  | @op l op l' hp hrun hop htarget hnew hview hlab =>
    have hl := Mon.labels_of_code hp
    have hspawn : op.spawnLabels m.labels = m.labels := by
      cases code_does hop <;> rfl
    have hkilled : m'.view.killed = m.view.killed := by
      rw [hview]
      cases code_does hop <;> rfl
    rw [hspawn] at hlab
    intro q lq hq hk
    rw [hkilled] at hk
    rcases Mon.labels_cases hlab hq with ⟨rfl, rfl⟩ | ⟨-, hq⟩
    · have hold := hS q l hl hk
      cases code_does hop with
      | room hpc hi hkilled' =>
        rw [hkilled'] at hk
        nomatch hk
      | put hpc hf =>
        cases htarget
        rw [hpc] at hold
        exact fun h => hold ⟨hf, h.2⟩
      | kill hpc | yield hpc | sleepEmpty hpc =>
        cases htarget
        exact hold
      | drop hpc hpc' =>
        cases htarget
        rcases hpc' with ⟨rfl, -⟩ | ⟨rfl, -⟩ <;> exact id
      | shutEnd hpc hpc' =>
        cases htarget
        rcases hpc' with rfl | rfl <;> exact id
      | enterWrite hpc | sleepFull hpc =>
        cases htarget
        exact fun h => nomatch h.1
      | _ =>
        cases htarget
        exact id
    · exact hS q lq hq hk
  | sched hp hrun hop => exact nomatch code_does hop
  | quiet hview hlab =>
    intro q lq hq hk
    rw [hlab] at hq
    cases hold : m.view.killed q with
    | true => exact hS q lq hq hold
    | false => exact hR q lq hold hk hq

theorem Spared.boot (pid₀ : Fin n → Option ℤ) (fds : Fin n → Bool → ℕ)
    (data : Fin PIPESIZE → UInt8) :
    Spared (Mon.boot pid₀ (fun p => start (fds p)) (pipealloc fds data)) := by
  intro p l h
  cases h
  exact fun _ h => h

end Kills

/-! ## Who owes a wake-up -/

section Waiters

variable {m : Mon n Lk Chan (Shared n) Local} {p : Fin n} {l : Local} {x : Call}
  {op : Op n Lk Chan (Shared n) Local}

/-- Why a process sleeps. -/
def Waits (v : View n (Shared n)) : Chan → Prop
  | .nread => v.data.pipe.empty = true ∧ v.data.pipe.writeopen = true
  | .nwrite => v.data.pipe.full = true ∧ v.data.pipe.readopen = true

/-- Where a process has made a change for which it will wake up others. -/
def Pc.Owes : Pc → Chan → Prop
  | .write _ _ new, .nread | .put _ _ new, .nread => new = true
  | .copy _ got, .nwrite => got ≠ []
  | .copied _ _, .nwrite => True
  | .shutWake w, c => c = otherChan w
  | _, _ => False

/-- The same of a label. -/
def Owes (_ : Fin n) (l : Local) (c : Chan) : Prop := l.pc.Owes c

theorem holds_of_owes (p : Fin n) (l : Local) (c : Chan) (h : Owes p l c) :
    .other Lk.pipe ∈ holds p l := by
  unfold Owes at h
  cases hpc : l.pc with
  | write | put | copy | copied | shutWake => simp [holds, hpc, Pc.lock]
  | _ =>
    rw [hpc] at h
    cases c <;> exact h.elim

/-- **Unless they are killed midway, the functions on pipes wake up whom they
must.** -/
theorem wakeful (hR : Refs m) (hsrc : Sourced code m) (hk : AllKnow m) (hS : Spared m)
    (hp : m.post p = .code l) (hop : code p l m.view x = some op) :
    Wakeful holds (fun _ => .pipe) Waits Owes (fun _ _ _ => False) m p l op := by
  have hl := Mon.labels_of_code hp
  have hknow := hk p l hl
  have hsame : ∀ {l' : Local} {v : View n (Shared n)}, v.data.pipe = m.view.data.pipe →
      (∀ c, l.pc.Owes c → l'.pc.Owes c) →
      NextOk holds (fun _ => .pipe) Waits Owes (fun _ _ _ => False) m p l v l' := by
    intro l' v hv howes
    refine .same (fun c h => ?_) howes (fun _ h => h)
    cases c <;> simpa [Waits, hv] using h
  have hlock : l.pc.lock = some .pipe → .other Lk.pipe ∈ holds p l := fun h => by simp [holds, h]
  cases code_does hop with
  | giveUp hpc hi hwhy =>
    refine fun c => ⟨fun h => ?_, fun h => Or.inl h, fun h => h⟩
    rcases h with h | h
    · exact Or.inl h
    · have h : l.pc.Owes c := h
      rw [hpc] at h
      cases c with
      | nwrite => exact h.elim
      | nread =>
        -- either there are no readers, or the process was killed midway
        rcases hwhy with hclosed | hkilled
        · exact Or.inr (Or.inr (hR.deserted hsrc hclosed))
        · have hmid := hS p l hl hkilled
          rw [hpc] at hmid
          exact absurd ⟨h, hi⟩ hmid
  | wakeFull hpc | writeEnd hpc | badByte hpc | copyEnd hpc | copiedEnd hpc =>
    refine fun c => ⟨fun h => ?_, fun h => h.elim⟩
    have h : l.pc.Owes c := h
    rw [hpc] at h
    cases c <;> first | rfl | exact h.elim
  | shutWake hpc =>
    refine fun c => ⟨fun h => ?_, fun h => h.elim⟩
    have h : l.pc.Owes c := h
    rw [hpc] at h
    cases c <;> exact h
  | room hpc =>
    refine hsame rfl (fun c h => ?_)
    rw [hpc] at h
    cases c <;> exact h
  | sleepFull hpc =>
    rw [hpc] at hknow
    refine ⟨rfl, hknow, fun c => ⟨fun h => ?_, fun h => h⟩⟩
    have h : l.pc.Owes c := h
    rw [hpc] at h
    cases c <;> exact h
  | sleepEmpty hpc hempty hopen =>
    refine ⟨rfl, ⟨hempty, hopen⟩, fun c => ⟨fun h => ?_, fun h => h⟩⟩
    have h : l.pc.Owes c := h
    rw [hpc] at h
    cases c <;> exact h
  | put hpc =>
    rw [hpc] at hknow
    have hmem := hlock (by rw [hpc]; rfl)
    intro c
    cases c with
    | nread => exact ⟨fun _ => Or.inr (Or.inl rfl), fun _ => Or.inr hmem, fun h => h⟩
    | nwrite =>
      have hnot : ¬ Waits m.view .nwrite := fun h => Bool.noConfusion (h.1.symm.trans hknow)
      refine ⟨fun h => ?_, fun h => absurd h hnot, fun h => h⟩
      have h : l.pc.Owes .nwrite := h.resolve_left hnot
      rw [hpc] at h
      exact h.elim
  | takeBad hpc hempty | take hpc hempty =>
    have hmem := hlock (by rw [hpc]; rfl)
    intro c
    cases c with
    | nwrite => exact ⟨fun _ => Or.inr (Or.inl (by simp [Owes, Pc.Owes])), fun _ => Or.inr hmem,
        fun h => h⟩
    | nread =>
      have hnot : ¬ Waits m.view .nread := fun h => Bool.noConfusion (h.1.symm.trans hempty)
      refine ⟨fun h => ?_, fun h => absurd h hnot, fun h => h⟩
      have h : l.pc.Owes .nread := h.resolve_left hnot
      rw [hpc] at h
      exact h.elim
  | @shut w hpc =>
    have hmem := hlock (by rw [hpc]; rfl)
    intro c
    by_cases hc : c = otherChan w
    · exact ⟨fun _ => Or.inr (Or.inl (by cases c <;> exact hc)), fun _ => Or.inr hmem, fun h => h⟩
    · have hkeep : Waits m.view c →
          Waits { m.view with data := m.view.data.shut w } c := by
        cases w <;> cases c <;> first | exact absurd rfl hc | exact fun h => h
      refine ⟨fun h => Or.inl (hkeep (h.resolve_right (fun h => ?_))), fun h => Or.inl (hkeep h),
        fun h => h⟩
      have h : l.pc.Owes c := h
      rw [hpc] at h
      cases c <;> exact h
  | kill hpc =>
    refine fun c => ⟨fun h => ?_, fun h => h, fun h => h⟩
    have h : l.pc.Owes c := h
    rw [hpc] at h
    cases c <;> exact h
  | enterWrite hpc | enterRead hpc | enterClose hpc | enterDup hpc | yield hpc | wrote hpc
  | readKilled hpc | readable hpc | gave hpc | unlock hpc | drop hpc | dup hpc | dropped hpc
  | last hpc | close hpc | shutEnd hpc | free hpc =>
    refine hsame rfl (fun c h => ?_)
    rw [hpc] at h
    cases c <;> exact h.elim

end Waiters

/-! ## The main result -/

section Main

variable {H : Type} [DecidableEq H]

/-- An action that kills no process midway. -/
def SparesAct (s : State n H Lk Chan (Shared n) Local) (act : H × Act Call) : Prop :=
  (Threads.step code s act).Next fun s' => Spares s.abs s'.abs

/-- **A wake-up that is lost.** A reader sleeps, a writer has put the first of
two bytes and is killed. It returns, the lock of the pipe is free, and the
reader still sleeps, although there is a byte to read. -/
theorem pipe_wakeup_lost :
    ∃ s : State 3 (Fin 3) Lk Chan (Shared 3) Local,
      Machine.Reach (step code) (fun _ _ => True)
        (boot (fun p => some (p + 1)) (fun _ => start (fun _ => 1))
          (pipealloc (fun _ _ => 1) (fun _ => 0))) s ∧
      s.lock (.other .pipe) = none ∧
      (s.entry 0).state = .SLEEPING ∧ (s.entry 0).chan = some .nread ∧
      s.data.pipe.nread ≠ s.data.pipe.nwrite := by
  have hrun : (Machine.run (step code) (fun _ _ => True)
      (boot (fun p => some (p + 1)) (fun _ => start (fun _ => 1))
        (pipealloc (fun _ _ => 1) (fun _ => 0)) : State 3 (Fin 3) Lk Chan (Shared 3) Local)
      (List.replicate 15 (0, .go (.read ⟨1, none⟩)) ++
        List.replicate 11 (1, .go (.write ⟨[1, 2], none⟩)) ++
        List.replicate 18 (2, .go (.kill 2)) ++
        [(1, .go .yield)])).Next fun s =>
      s.lock (.other .pipe) = none ∧
      (s.entry 0).state = .SLEEPING ∧ (s.entry 0).chan = some .nread ∧
      s.data.pipe.nread ≠ s.data.pipe.nwrite := by
    decide +kernel
  exact Machine.exists_reach_of_run hrun

/-- **No wake-up is lost otherwise.** In any interleaving in which no process is
killed midway: when the lock of the pipe is free, a process that sleeps on
`&pi->nread` does so because the pipe is empty and open for writing, and one
that sleeps on `&pi->nwrite` because it is full and open for reading; and no
step ends in a panic. -/
theorem pipe_wakeups (pid₀ : Fin n → Option ℤ) (fds₀ : Fin n → Bool → ℕ)
    (data₀ : Fin PIPESIZE → UInt8) {s : State n H Lk Chan (Shared n) Local}
    (hreach : Machine.Reach (Threads.step code) SparesAct
      (boot pid₀ (fun p => start (fds₀ p)) (pipealloc fds₀ data₀)) s)
    (hfree : s.lock (.other .pipe) = none) :
    (∀ p, ¬ ((s.entry p).state = .SLEEPING ∧ (s.entry p).chan = some .nread ∧
      (s.data.pipe.nread ≠ s.data.pipe.nwrite ∨ s.data.pipe.writeopen = false))) ∧
    (∀ p, ¬ ((s.entry p).state = .SLEEPING ∧ (s.entry p).chan = some .nwrite ∧
      (s.data.pipe.nwrite ≠ s.data.pipe.nread + 512 ∨ s.data.pipe.readopen = false))) ∧
    ∀ act e, Threads.step code s act ≠ .panic e := by
  obtain ⟨hi, ho, ⟨-, -, -, -, hN⟩, hsafe⟩ := Owners.transfer (R := fun m _ _ m' => Spares m m')
    (J := fun m => Sourced code m ∧ AllKnow m ∧ Refs m ∧ Spared m ∧
      NoLost holds (fun _ => .pipe) Waits Owes (fun _ _ _ => False) m) disciplined
    (fun m p l x op _ _ _ _ hop => status_rule hop)
    (fun m p x m' ho ⟨hsrc, hk, hR, hS, hN⟩ hspares hstep =>
      have hmoves := hstep.moves
      have hrel := hmoves.relabels hsrc heedless
      ⟨hsrc.step hmoves, hk.step ho hsrc hrel, hR.step hrel, hS.step hspares hrel,
        hN.step ho holds_of_owes (fun _ _ _ h => h.elim)
          (fun v k c => by cases c <;> exact Iff.rfl) disciplined
          (fun l op hp hop => wakeful hR hsrc hk hS hp hop) hmoves⟩)
    (fun _ => rfl)
    ⟨Sourced.boot, AllKnow.boot pid₀ fds₀ data₀, Refs.boot pid₀ fds₀ data₀,
      Spared.boot pid₀ fds₀ data₀,
      NoLost.boot (fun _ _ h => h)⟩
    (hreach.mono (fun s act hok => by
      obtain ⟨h, act⟩ := act
      cases act with
      | timer => trivial
      | go x =>
        simp only [Allows]
        split
        · rename_i s' hs
          rw [SparesAct, hs] at hok
          exact fun _ _ => hok
        · trivial))
  refine ⟨?_, ?_, hsafe⟩
  · rintro p ⟨hst, hchan, hwhy⟩
    obtain ⟨hempty, hopen⟩ : Waits s.view .nread := hN.free hi ho holds_of_owes hfree hst hchan
    rcases hwhy with hne | hclosed
    · exact hne (of_decide_eq_true hempty)
    · exact Bool.noConfusion (hopen.symm.trans hclosed)
  · rintro p ⟨hst, hchan, hwhy⟩
    obtain ⟨hfull, hopen⟩ : Waits s.view .nwrite := hN.free hi ho holds_of_owes hfree hst hchan
    rcases hwhy with hne | hclosed
    · exact hne (of_decide_eq_true hfull)
    · exact Bool.noConfusion (hopen.symm.trans hclosed)

instance (m m' : Mon n Lk Chan (Shared n) Local) : Decidable (Spares m m') :=
  decidable_of_iff (∀ p, m.view.killed p = false → m'.view.killed p = true →
      (m.labels p).all (fun l => decide ¬ l.pc.Midway) = true)
    ⟨fun h p l hf ht hl => by simpa [hl] using h p hf ht,
      fun h p hf ht => by
        cases hl : m.labels p with
        | none => rfl
        | some l => simpa using h p l hf ht hl⟩

instance (s : State n H Lk Chan (Shared n) Local) (act : H × Act Call) :
    Decidable (SparesAct s act) :=
  inferInstanceAs (Decidable ((Threads.step code s act).Next _))

/-- The writer is killed before its first byte instead. -/
theorem pipe_wakeups_killed_before :
    ∃ s : State 3 (Fin 3) Lk Chan (Shared 3) Local,
      Machine.Reach (step code) SparesAct
        (boot (fun p => some (p + 1)) (fun _ => start (fun _ => 1))
          (pipealloc (fun _ _ => 1) (fun _ => 0))) s ∧
      s.lock (.other .pipe) = none ∧ (s.entry 1).killed = true ∧
      (s.entry 0).state = .SLEEPING ∧ (s.entry 0).chan = some .nread ∧
      s.data.pipe.nread = s.data.pipe.nwrite := by
  have hrun : (Machine.run (step code) SparesAct
      (boot (fun p => some (p + 1)) (fun _ => start (fun _ => 1))
        (pipealloc (fun _ _ => 1) (fun _ => 0)) : State 3 (Fin 3) Lk Chan (Shared 3) Local)
      (List.replicate 15 (0, .go (.read ⟨1, none⟩)) ++
        List.replicate 9 (1, .go (.write ⟨[1, 2], none⟩)) ++
        List.replicate 18 (2, .go (.kill 2)) ++ [(1, .go .yield)])).Next fun s =>
      s.lock (.other .pipe) = none ∧ (s.entry 1).killed = true ∧
      (s.entry 0).state = .SLEEPING ∧ (s.entry 0).chan = some .nread := by
    decide +kernel
  obtain ⟨s, hreach, hfree, hkilled, hst, hchan⟩ := Machine.exists_reach_of_run hrun
  obtain ⟨hnread, -⟩ := pipe_wakeups _ _ _ hreach hfree
  refine ⟨s, hreach, hfree, hkilled, hst, hchan, ?_⟩
  by_contra hne
  exact hnread 0 ⟨hst, hchan, Or.inl hne⟩

end Main

end Xv6.Pipes
