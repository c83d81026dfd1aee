import Xv6.Pipe

/-!
# Pipes are lossless FIFOs

The counters of a pipe are those of the bytes ever put and taken, modulo
`2 ^ 32`, and the ring is a queue of the bytes in between (`Ring`). From this, and from
what a process that holds the lock knows, come the bytes that reads return, in
the order in which they were put, and the bytes of each write in its own order.
-/

open Function List

namespace Xv6.Pipes

open Threads

variable {n : ℕ}

/-! ## The ring -/

/-- **The ring and its history.** -/
structure Ring (d : Shared n) : Prop where
  nwrite : d.pipe.nwrite = UInt32.ofNat d.enq.length
  nread : d.pipe.nread = UInt32.ofNat d.deq.length
  /-- What was put is what was taken and then what is in the ring. -/
  fifo : d.enq.map Prod.snd = d.deq ++ d.pipe.unread
  le : d.pipe.unread.length ≤ PIPESIZE

namespace Ring

variable {d : Shared n}

/-- **A byte is put** into a ring that is not full. -/
theorem put (hr : Ring d) (hfull : d.pipe.full = false) (tag : Fin n × ℕ) (b : UInt8) :
    Ring (d.put tag b) := by
  have hlt := length_unread_lt hr.le hfull
  refine ⟨?_, hr.nread, ?_, ?_⟩
  · simp only [Shared.put, Pipe.put, hr.nwrite, length_append, length_singleton,
      UInt32.ofNat_add]
    rfl
  · simp only [Shared.put, map_append, hr.fifo, unread_put hlt, append_assoc]
    rfl
  · simp only [Shared.put, unread_put hlt, length_append, length_singleton]
    exact hlt

/-- **A byte is taken** from a ring that is not empty. -/
theorem take (hr : Ring d) (hempty : d.pipe.empty = false) : Ring d.take := by
  have hcons := unread_cons hempty
  have hle := hr.le
  refine ⟨hr.nwrite, ?_, ?_, ?_⟩
  · simp only [Shared.take, Pipe.take, hr.nread, length_append, length_singleton,
      UInt32.ofNat_add]
    rfl
  · simp only [Shared.take, hr.fifo, hcons, append_assoc]
    rfl
  · rw [hcons, length_cons] at hle
    exact (Nat.le_succ _).trans hle

end Ring

/-! ## Reads and writes -/

/-- The bytes that a call of `pipewrite` has put into the pipe. -/
def sent (enq : List ((Fin n × ℕ) × UInt8)) (tag : Fin n × ℕ) : List UInt8 :=
  (enq.filter (fun e => e.1 = tag)).map Prod.snd

theorem sent_append (enq : List ((Fin n × ℕ) × UInt8)) (tag tag' : Fin n × ℕ) (b : UInt8) :
    sent (enq ++ [(tag, b)]) tag' = sent enq tag' ++ if tag = tag' then [b] else [] := by
  unfold sent
  by_cases h : tag = tag' <;> simp [h]

/-- The bytes that reads have returned. -/
def returned (d : Shared n) : List UInt8 := (d.reads.map Got.bytes).flatten

/-- The bytes that the call under way has put. -/
def Pc.progress : Pc → List UInt8
  | .write c i _ | .full c i | .put c i _ | .wrote c i => c.bytes.take i
  | _ => []

/-- The bytes that the call under way has taken. -/
def Pc.reading : Pc → Option (List UInt8)
  | .copy _ got | .copied _ got | .gave _ got => some got
  | _ => none

/-- Calls with valid buffers only: how far a call is. -/
def Pc.Sound : Pc → Prop
  | .write c i _ => i ≤ c.bytes.length ∧ c.fault = none
  | .full c i | .put c i _ => i < c.bytes.length ∧ c.fault = none
  | .wrote c i => i = c.bytes.length ∧ c.fault = none
  | .read c | .copy c _ | .gave c _ => c.fault = none
  | .copied _ _ => False
  | _ => True

/-- **The order of the bytes.** -/
structure Fifo (m : Mon n Lk Chan (Shared n) Local) : Prop where
  ring : Ring m.view.data
  sound : ∀ p l, m.labels p = some l → l.pc.Sound
  sent : ∀ p l, m.labels p = some l →
    sent m.view.data.enq (p, l.calls) = l.pc.progress ∧
      ∀ j, l.calls < j → sent m.view.data.enq (p, j) = []
  writes : ∀ w ∈ m.view.data.writes, Pipes.sent m.view.data.enq (w.proc, w.call) = w.args.bytes ∧
    w.ret = w.args.bytes.length ∧ ∃ l, m.labels w.proc = some l ∧ w.call < l.calls
  reading : ∀ p l got, m.labels p = some l → l.pc.reading = some got →
    m.view.data.deq = returned m.view.data ++ got
  idle : (∀ p l, m.labels p = some l → l.pc.reading = none) →
    m.view.data.deq = returned m.view.data
  zero : ∀ r ∈ m.view.data.reads, r.bytes = [] → 0 < r.args.n → r.drained = true

variable {m m' : Mon n Lk Chan (Shared n) Local} {p : Fin n} {l l' : Local} {x : Call}

/-- The bytes of the pipe and its history; an end may have been closed. -/
def Shared.SameBytes (d d' : Shared n) : Prop :=
  (d'.pipe.data = d.pipe.data ∧ d'.pipe.nread = d.pipe.nread ∧ d'.pipe.nwrite = d.pipe.nwrite) ∧
    d'.enq = d.enq ∧ d'.deq = d.deq ∧ d'.writes = d.writes ∧ d'.reads = d.reads

theorem Shared.SameBytes.refl (d : Shared n) : d.SameBytes d :=
  ⟨⟨rfl, rfl, rfl⟩, rfl, rfl, rfl, rfl⟩

theorem Shared.SameBytes.shut (d : Shared n) (w : Bool) : d.SameBytes (d.shut w) := by
  cases w <;> exact ⟨⟨rfl, rfl, rfl⟩, rfl, rfl, rfl, rfl⟩

theorem Ring.congr {d d' : Shared n} (hr : Ring d) (h : d.SameBytes d') : Ring d' := by
  obtain ⟨⟨hdata, hnread, hnwrite⟩, henq, hdeq, -, -⟩ := h
  have hunread : d'.pipe.unread = d.pipe.unread := by
    rw [Pipe.unread, hdata, hnread, hnwrite]
    rfl
  constructor
  · rw [hnwrite, henq]
    exact hr.nwrite
  · rw [hnread, hdeq]
    exact hr.nread
  · rw [henq, hdeq, hunread]
    exact hr.fifo
  · rw [hunread]
    exact hr.le

theorem Fifo.calls_lt (hF : Fifo m) (hl : m.labels p = some l)
    (hlab : m'.labels = update m.labels p (some l')) (hcalls : l.calls ≤ l'.calls)
    {w : Written n} (hw : w ∈ m.view.data.writes) :
    ∃ l, m'.labels w.proc = some l ∧ w.call < l.calls := by
  obtain ⟨-, -, l₀, hl₀, hlt⟩ := hF.writes w hw
  rw [hlab]
  by_cases hqp : w.proc = p
  · rw [hqp, hl] at hl₀
    cases hl₀
    rw [hqp, update_self]
    exact ⟨l', rfl, hlt.trans_le hcalls⟩
  · rw [update_of_ne hqp]
    exact ⟨l₀, hl₀, hlt⟩

theorem not_reading_before (hl : m.labels p = some l)
    (hlab : m'.labels = update m.labels p (some l')) (hold : l.pc.reading = none)
    (hnone : ∀ q lq, q ≠ p → m'.labels q = some lq → lq.pc.reading = none) (q : Fin n) (lq : Local)
    (hq : m.labels q = some lq) : lq.pc.reading = none := by
  by_cases hqp : q = p
  · rw [hqp, hl] at hq
    cases hq
    exact hold
  · exact hnone q lq hqp (by rw [hlab, update_of_ne hqp]; exact hq)

theorem Fifo.sound_at (hF : Fifo m) (hl : m.labels p = some l) {pc : Pc} (hpc : l.pc = pc) :
    pc.Sound :=
  hpc ▸ hF.sound p l hl

/-- **A process goes on**, and nothing of the pipe changes. -/
theorem Fifo.goto (hF : Fifo m) (hl : m.labels p = some l)
    (hlab : m'.labels = update m.labels p (some l'))
    (hd : m.view.data.SameBytes m'.view.data) {pc : Pc} (hpc : l.pc = pc)
    (hsound : pc.Sound → l'.pc.Sound)
    (hsent : l'.calls = l.calls ∧ l'.pc.progress = pc.progress ∨
      l'.calls = l.calls + 1 ∧ l'.pc.progress = [])
    (hread : l'.pc.reading = pc.reading ∨ pc.reading = none ∧ l'.pc.reading = some [] ∧
      ∀ q lq, q ≠ p → m.labels q = some lq → lq.pc.reading = none) : Fifo m' := by
  subst hpc
  have hring := hF.ring.congr hd
  obtain ⟨-, henq, hdeq, hwrites, hreads⟩ := hd
  have hret : returned m'.view.data = returned m.view.data := by rw [returned, hreads]; rfl
  have hself : m'.labels p = some l' := by rw [hlab, update_self]
  have hkeep : ∀ q lq, q ≠ p → m.labels q = some lq → m'.labels q = some lq := by
    intro q lq hqp hq
    rw [hlab, update_of_ne hqp]
    exact hq
  refine ⟨hring, fun q lq hq => ?_, fun q lq hq => ?_, fun w hw => ?_, fun q lq got hq hg => ?_,
    fun hnone => ?_, ?_⟩
  · rcases Mon.labels_cases hlab hq with ⟨-, rfl⟩ | ⟨-, hq⟩
    · exact hsound (hF.sound p l hl)
    · exact hF.sound q lq hq
  · rw [henq]
    rcases Mon.labels_cases hlab hq with ⟨rfl, rfl⟩ | ⟨-, hq⟩
    · obtain ⟨hcur, hnew⟩ := hF.sent q l hl
      rcases hsent with ⟨hc, hpr⟩ | ⟨hc, hpr⟩
      · rw [hc, hpr]
        exact ⟨hcur, hnew⟩
      · rw [hc, hpr]
        exact ⟨hnew _ (Nat.lt_succ_self _), fun j hj => hnew j (by omega)⟩
    · exact hF.sent q lq hq
  · rw [hwrites] at hw
    obtain ⟨hs, hr, -⟩ := hF.writes w hw
    rw [henq]
    exact ⟨hs, hr, hF.calls_lt hl hlab (by omega) hw⟩
  · rw [hdeq, hret]
    rcases Mon.labels_cases hlab hq with ⟨rfl, rfl⟩ | ⟨-, hq⟩
    · rcases hread with hsame | ⟨hold, hnew, hoth⟩
      · exact hF.reading q l got hl (hsame ▸ hg)
      · rw [hnew] at hg
        cases hg
        rw [append_nil]
        refine hF.idle (not_reading_before hl hlab hold (fun r lr hr hlr => ?_))
        rcases Mon.labels_cases hlab hlr with ⟨rfl, -⟩ | ⟨-, hlr⟩
        · exact absurd rfl hr
        · exact hoth r lr hr hlr
    · exact hF.reading q lq got hq hg
  · rw [hdeq, hret]
    refine hF.idle (not_reading_before hl hlab ?_ (fun r lr _ hr => hnone r lr hr))
    rcases hread with hsame | ⟨hold, -, -⟩
    · rw [← hsame]
      exact hnone p l' hself
    · exact hold
  · rw [hreads]
    exact hF.zero

theorem busy_of_reading {pc : Pc} {got : List UInt8} (h : pc.reading = some got) : pc.Busy := by
  cases pc with
  | copy | copied | gave => exact ⟨rfl, by simp, by simp⟩
  | _ => nomatch h

theorem not_reading (ho : Owners holds m) (hsrc : Sourced code m) (hp : m.post p = .code l)
    (hlock : l.pc.lock = some .pipe) (q : Fin n) (lq : Local) (hq : q ≠ p)
    (hlq : m.labels q = some lq) : lq.pc.reading = none := by
  cases hr : lq.pc.reading with
  | none => rfl
  | some got =>
    refine absurd (ho.unique (locked_of_busy hsrc hlq (busy_of_reading hr)) ?_) hq
    rw [hp]
    simp [Post.locks, holds, hlock]

theorem write_called {v : View n (Shared n)} {lk : SpinLock n Lk} {c : Write} (hpc : l.pc = .out)
    (hop : code p l v x = some (.acquire lk { l with pc := .write c 0 false })) :
    x = .write c := by
  cases x <;> simp [code, hpc] at hop
  simp [hop]

theorem read_called {v : View n (Shared n)} {lk : SpinLock n Lk} {c : Read} (hpc : l.pc = .out)
    (hop : code p l v x = some (.acquire lk { l with pc := .read c })) : x = .read c := by
  cases x <;> simp [code, hpc] at hop
  simp [hop]

/-- Calls with valid buffers. -/
def Call.Valid : Call → Prop
  | .write c => c.fault = none
  | .read c => c.fault = none
  | _ => True

instance (x : Call) : Decidable x.Valid := by
  cases x <;> unfold Call.Valid <;> infer_instance

/-- The calls of an action have valid buffers. -/
def ValidAct : Act Call → Prop
  | .go x => x.Valid
  | .timer => True

instance : DecidablePred ValidAct
  | .go x => inferInstanceAs (Decidable x.Valid)
  | .timer => isTrue trivial

section Moves

variable (hF : Fifo m) (hl : m.labels p = some l)
  (hlab : m'.labels = update m.labels p (some l'))

include hF hl hlab in
/-- **A byte is put.** -/
theorem Fifo.put {c : Write} {i : ℕ} {new : Bool} (hpc : l.pc = .put c i new)
    (hfull : m.view.data.pipe.full = false) (hl' : l' = { l with pc := .write c (i + 1) true })
    (hd : m'.view.data = m.view.data.put (p, l.calls) (c.bytes.getD i 0)) : Fifo m' := by
  subst hl'
  obtain ⟨hi, hf⟩ := hF.sound_at hl hpc
  have hsent : ∀ tag, Pipes.sent m'.view.data.enq tag = Pipes.sent m.view.data.enq tag ++
      if (p, l.calls) = tag then [c.bytes.getD i 0] else [] := by
    intro tag
    rw [hd]
    exact sent_append _ _ _ _
  have hother : ∀ tag, tag ≠ (p, l.calls) →
      Pipes.sent m'.view.data.enq tag = Pipes.sent m.view.data.enq tag := by
    intro tag htag
    rw [hsent, if_neg (Ne.symm htag), append_nil]
  refine ⟨?_, fun q lq hq => ?_, fun q lq hq => ?_, fun w hw => ?_, fun q lq got hq hg => ?_,
    fun hnone => ?_, ?_⟩
  · rw [hd]
    exact hF.ring.put hfull _ _
  · rcases Mon.labels_cases hlab hq with ⟨-, rfl⟩ | ⟨-, hq⟩
    · exact ⟨hi, hf⟩
    · exact hF.sound q lq hq
  · rcases Mon.labels_cases hlab hq with ⟨rfl, rfl⟩ | ⟨hqp, hq⟩
    · obtain ⟨hcur, hnew⟩ := hF.sent q l hl
      rw [hpc] at hcur
      refine ⟨?_, fun j hj => ?_⟩
      · rw [hsent, if_pos rfl, hcur]
        show c.bytes.take i ++ _ = c.bytes.take (i + 1)
        rw [take_add_one, getD_eq_getElem?_getD, getElem?_eq_getElem hi]
        rfl
      · rw [hother _ (fun h => hj.ne' (Prod.mk.inj h).2)]
        exact hnew j hj
    · have htag : ∀ j, (q, j) ≠ (p, l.calls) := fun j h => hqp (Prod.mk.inj h).1
      obtain ⟨hcur, hnew⟩ := hF.sent q lq hq
      refine ⟨?_, fun j hj => ?_⟩
      · rw [hother _ (htag _)]
        exact hcur
      · rw [hother _ (htag _)]
        exact hnew j hj
  · have hw' : w ∈ m.view.data.writes := by
      rw [hd] at hw
      exact hw
    obtain ⟨hs, hr, l₀, hl₀, hlt⟩ := hF.writes w hw'
    -- a call that has returned is not the one under way
    have htag : (w.proc, w.call) ≠ (p, l.calls) := by
      intro h
      obtain ⟨hwp, hwc⟩ := Prod.mk.inj h
      rw [hwp, hl] at hl₀
      cases hl₀
      omega
    rw [hother _ htag]
    exact ⟨hs, hr, hF.calls_lt hl hlab le_rfl hw'⟩
  · rcases Mon.labels_cases hlab hq with ⟨rfl, rfl⟩ | ⟨-, hq⟩
    · nomatch hg
    · rw [hd]
      exact hF.reading q lq got hq hg
  · rw [hd]
    exact hF.idle (not_reading_before hl hlab (by rw [hpc]; rfl) (fun r lr _ hr => hnone r lr hr))
  · rw [hd]
    exact hF.zero

include hF hl hlab in
/-- **A write returns.** -/
theorem Fifo.wrote {c : Write} {i : ℕ} (hpc : l.pc = .wrote c i)
    (hl' : l' = { l with calls := l.calls + 1, pc := .unlock })
    (hd : m'.view.data = m.view.data.wrote p l.calls c i) : Fifo m' := by
  obtain ⟨hi, -⟩ := hF.sound_at hl hpc
  obtain ⟨hcur, -⟩ := hF.sent p l hl
  rw [hpc] at hcur
  -- the process goes on, and then the call is written down
  have hF₁ : Fifo { m' with view := { m'.view with data := m.view.data } } :=
    hF.goto hl hlab (.refl _) hpc (fun _ => by rw [hl']; trivial)
      (Or.inr (by rw [hl']; exact ⟨rfl, rfl⟩)) (Or.inl (by rw [hl']; rfl))
  refine ⟨?_, hF₁.sound, ?_, fun w hw => ?_, ?_, ?_, ?_⟩
  · rw [hd]
    exact ⟨hF.ring.nwrite, hF.ring.nread, hF.ring.fifo, hF.ring.le⟩
  · rw [hd]
    exact hF₁.sent
  · rw [hd] at hw ⊢
    rcases mem_append.mp hw with hw | hw
    · exact hF₁.writes w hw
    · obtain rfl := mem_singleton.mp hw
      refine ⟨?_, hi, l', by rw [hlab]; simp, by rw [hl']; exact Nat.lt_succ_self _⟩
      show Pipes.sent m.view.data.enq (p, l.calls) = c.bytes
      rw [hcur, hi]
      exact take_length
  · rw [hd]
    exact hF₁.reading
  · rw [hd]
    exact hF₁.idle
  · rw [hd]
    exact hF₁.zero

include hF hl hlab in
/-- **The process that reads goes on.** -/
theorem Fifo.served (hoth : ∀ q lq, q ≠ p → m.labels q = some lq → lq.pc.reading = none)
    (hring : Ring m'.view.data) (hsound : l'.pc.Sound)
    (hsent : l'.calls = l.calls ∧ l'.pc.progress = l.pc.progress)
    (hkept : m'.view.data.enq = m.view.data.enq ∧ m'.view.data.writes = m.view.data.writes)
    (hreading : ∀ got, l'.pc.reading = some got →
      m'.view.data.deq = returned m'.view.data ++ got)
    (hidle : l'.pc.reading = none → m'.view.data.deq = returned m'.view.data)
    (hzero : ∀ r ∈ m'.view.data.reads, r.bytes = [] → 0 < r.args.n → r.drained = true) :
    Fifo m' := by
  obtain ⟨henq, hwrites⟩ := hkept
  refine ⟨hring, fun q lq hq => ?_, fun q lq hq => ?_, fun w hw => ?_, fun q lq got hq hg => ?_,
    fun hnone => hidle (hnone p l' (by rw [hlab, update_self])), hzero⟩
  · rcases Mon.labels_cases hlab hq with ⟨-, rfl⟩ | ⟨-, hq⟩
    · exact hsound
    · exact hF.sound q lq hq
  · rw [henq]
    rcases Mon.labels_cases hlab hq with ⟨rfl, rfl⟩ | ⟨-, hq⟩
    · rw [hsent.1, hsent.2]
      exact hF.sent q l hl
    · exact hF.sent q lq hq
  · rw [hwrites] at hw
    rw [henq]
    obtain ⟨hs, hr, -⟩ := hF.writes w hw
    exact ⟨hs, hr, hF.calls_lt hl hlab hsent.1.ge hw⟩
  · rcases Mon.labels_cases hlab hq with ⟨rfl, rfl⟩ | ⟨hqp, hq⟩
    · exact hreading got hg
    · rw [hoth q lq hqp hq] at hg
      nomatch hg

include hF hl hlab in
/-- **A byte is taken.** -/
theorem Fifo.take {c : Read} {got : List UInt8} (hpc : l.pc = .copy c got)
    (hempty : m.view.data.pipe.empty = false)
    (hl' : l' = { l with pc := .copy c (got ++ [m.view.data.pipe.front]) })
    (hoth : ∀ q lq, q ≠ p → m.labels q = some lq → lq.pc.reading = none)
    (hd : m'.view.data = m.view.data.take) : Fifo m' := by
  have hread := hF.reading p l got hl (by rw [hpc]; rfl)
  have hsound := hF.sound_at hl hpc
  subst hl'
  refine hF.served hl hlab hoth ?_ hsound ⟨rfl, by rw [hpc]; rfl⟩ (by rw [hd]; exact ⟨rfl, rfl⟩)
    (fun got' hg => ?_) nofun (by rw [hd]; exact hF.zero)
  · rw [hd]
    exact hF.ring.take hempty
  · cases hg
    rw [hd]
    show m.view.data.deq ++ _ = returned m.view.data ++ _
    rw [hread, append_assoc]

include hF hl hlab in
/-- **A read returns.** -/
theorem Fifo.gave {c : Read} {got : List UInt8} (hpc : l.pc = .gave c got)
    (hknow : Knows m.view.data.pipe l.pc) (hl' : l' = { l with pc := .unlock })
    (hoth : ∀ q lq, q ≠ p → m.labels q = some lq → lq.pc.reading = none)
    (hd : m'.view.data = m.view.data.gave c got) : Fifo m' := by
  have hread := hF.reading p l got hl (by rw [hpc]; rfl)
  have hsound := hF.sound_at hl hpc
  rw [hpc] at hknow
  subst hl'
  refine hF.served hl hlab hoth ?_ trivial ⟨rfl, by rw [hpc]; rfl⟩ (by rw [hd]; exact ⟨rfl, rfl⟩)
    nofun (fun _ => ?_) (fun r hr hbytes hpos => ?_)
  · rw [hd]
    exact ⟨hF.ring.nwrite, hF.ring.nread, hF.ring.fifo, hF.ring.le⟩
  · rw [hd]
    show m.view.data.deq = returned (m.view.data.gave c got)
    rw [hread]
    simp [returned, Shared.gave]
  · rw [hd] at hr
    rcases mem_append.mp hr with hr | hr
    · exact hF.zero r hr hbytes hpos
    · obtain rfl := mem_singleton.mp hr
      obtain ⟨hempty, hclosed⟩ := hknow hbytes hpos hsound
      simp [hempty, hclosed]

end Moves

/-- **Every step with valid buffers keeps the order of the bytes.** -/
theorem Fifo.step (hF : Fifo m) (ho : Owners holds m) (hsrc : Sourced code m) (hk : AllKnow m)
    (hx : x.Valid) (hstep : Relabels code m p x m') : Fifo m' := by
  cases hstep with
  | @op l op l' hp hrun hop htarget hnew hview hlab =>
    have hl := Mon.labels_of_code hp
    have hspawn : op.spawnLabels m.labels = m.labels := by
      cases code_does hop <;> rfl
    rw [hspawn] at hlab
    have hd : m'.view.data = (op.apply p m.view).data := by rw [hview]
    have hgoto {pc} (h : m.view.data.SameBytes (op.apply p m.view).data) (hpc : l.pc = pc) :=
      hF.goto hl hlab (hd ▸ h) hpc
    have hsound : ∀ {pc}, l.pc = pc → pc.Sound := hF.sound_at hl
    cases code_does hop with
    | put hpc hf =>
      cases htarget
      have hknow := hk p l hl
      rw [hpc] at hknow
      exact hF.put hl hlab hpc hknow rfl hd
    | wrote hpc =>
      cases htarget
      exact hF.wrote hl hlab hpc rfl hd
    | takeBad hpc hempty hf =>
      rw [show _ = none from hsound hpc] at hf
      nomatch hf
    | take hpc hempty =>
      cases htarget
      exact hF.take hl hlab hpc hempty rfl (not_reading ho hsrc hp (by rw [hpc]; rfl)) hd
    | gave hpc =>
      cases htarget
      exact hF.gave hl hlab hpc (hk p l hl) rfl (not_reading ho hsrc hp (by rw [hpc]; rfl)) hd
    | enterWrite hpc hfd =>
      cases htarget
      rw [write_called hpc hop] at hx
      exact hgoto (.refl _) hpc (fun _ => ⟨Nat.zero_le _, hx⟩) (Or.inl ⟨rfl, rfl⟩) (Or.inl rfl)
    | enterRead hpc hfd =>
      cases htarget
      rw [read_called hpc hop] at hx
      exact hgoto (.refl _) hpc (fun _ => hx) (Or.inl ⟨rfl, rfl⟩) (Or.inl rfl)
    | giveUp hpc hi hwhy =>
      cases htarget
      exact hgoto (.refl _) hpc (fun _ => trivial) (Or.inr ⟨rfl, rfl⟩) (Or.inl rfl)
    | wakeFull hpc hi | room hpc hi =>
      cases htarget
      exact hgoto (.refl _) hpc (fun h => ⟨hi, h.2⟩) (Or.inl ⟨rfl, rfl⟩) (Or.inl rfl)
    | writeEnd hpc hi =>
      cases htarget
      exact hgoto (.refl _) hpc (fun h => ⟨h.1.antisymm hi, h.2⟩) (Or.inl ⟨rfl, rfl⟩) (Or.inl rfl)
    | sleepFull hpc =>
      cases htarget
      exact hgoto (.refl _) hpc (fun h => ⟨h.1.le, h.2⟩) (Or.inl ⟨rfl, rfl⟩) (Or.inl rfl)
    | badByte hpc hf =>
      rw [(hsound hpc).2] at hf
      nomatch hf
    | readable hpc hwhy =>
      cases htarget
      exact hgoto (.refl _) hpc id (Or.inl ⟨rfl, rfl⟩)
        (Or.inr ⟨rfl, rfl, not_reading ho hsrc hp (by rw [hpc]; rfl)⟩)
    | copyEnd hpc hwhy =>
      cases htarget
      exact hgoto (.refl _) hpc id (Or.inl ⟨rfl, rfl⟩) (Or.inl rfl)
    | copiedEnd hpc => exact (hsound hpc).elim
    | drop hpc hpc' =>
      cases htarget
      refine hgoto ⟨⟨rfl, rfl, rfl⟩, rfl, rfl, rfl, rfl⟩ hpc ?_ (Or.inl ⟨rfl, ?_⟩) (Or.inl ?_) <;>
        rcases hpc' with ⟨rfl, -⟩ | ⟨rfl, -⟩ <;> simp [Pc.Sound, Pc.progress, Pc.reading]
    | dup hpc | free hpc =>
      cases htarget
      exact hgoto ⟨⟨rfl, rfl, rfl⟩, rfl, rfl, rfl, rfl⟩ hpc (fun _ => trivial) (Or.inl ⟨rfl, rfl⟩)
        (Or.inl rfl)
    | shut hpc =>
      cases htarget
      exact hgoto (.shut _ _) hpc (fun _ => trivial) (Or.inl ⟨rfl, rfl⟩) (Or.inl rfl)
    | shutEnd hpc hpc' =>
      cases htarget
      refine hgoto (.refl _) hpc ?_ (Or.inl ⟨rfl, ?_⟩) (Or.inl ?_) <;>
        rcases hpc' with rfl | rfl <;> simp [Pc.Sound, Pc.progress, Pc.reading]
    | sleepEmpty | kill | yield =>
      cases htarget
      exact hgoto (.refl _) rfl id (Or.inl ⟨rfl, rfl⟩) (Or.inl rfl)
    | enterClose hpc | enterDup hpc | readKilled hpc | unlock hpc | dropped hpc | last hpc
    | close hpc | shutWake hpc =>
      cases htarget
      exact hgoto (.refl _) hpc (fun _ => trivial) (Or.inl ⟨rfl, rfl⟩) (Or.inl rfl)
  | sched hp hrun hop => exact nomatch code_does hop
  | quiet hview hlab =>
    have hd : m'.view.data = m.view.data := by rw [hview]
    refine ⟨?_, ?_, ?_, ?_, ?_, ?_, ?_⟩ <;> simp only [hd, hlab]
    · exact hF.ring
    · exact hF.sound
    · exact hF.sent
    · exact hF.writes
    · exact hF.reading
    · exact hF.idle
    · exact hF.zero

theorem Fifo.boot (pid₀ : Fin n → Option ℤ) (fds : Fin n → Bool → ℕ)
    (data : Fin PIPESIZE → UInt8) :
    Fifo (Mon.boot pid₀ (fun p => start (fds p)) (pipealloc fds data)) where
  ring := ⟨rfl, rfl, by simp [Mon.boot, pipealloc, Pipe.unread],
    by simp [Mon.boot, pipealloc, Pipe.unread]⟩
  sound p l h := by
    cases h
    trivial
  sent p l h := by
    cases h
    exact ⟨rfl, fun j _ => rfl⟩
  writes w hw := absurd hw not_mem_nil
  reading p l got h := by
    cases h
    rintro ⟨⟩
  idle _ := rfl
  zero r hr := absurd hr not_mem_nil

theorem Fifo.returned_prefix (hF : Fifo m) : returned m.view.data <+: m.view.data.deq := by
  by_cases hnone : ∀ p l, m.labels p = some l → l.pc.reading = none
  · rw [hF.idle hnone]
  · push Not at hnone
    obtain ⟨p, l, hl, hr⟩ := hnone
    obtain ⟨got, hgot⟩ := Option.ne_none_iff_exists'.mp hr
    rw [hF.reading p l got hl hgot]
    exact prefix_append _ _

/-- Nobody reads while the lock is free. -/
theorem Fifo.idle_of_free (hF : Fifo m) (ho : Owners holds m) (hsrc : Sourced code m)
    (hfree : m.owner (.other .pipe) = none) : m.view.data.deq = returned m.view.data := by
  refine hF.idle (fun p l hl => ?_)
  cases hr : l.pc.reading with
  | none => rfl
  | some got =>
    have howner := (ho.owner p _).mpr (locked_of_busy hsrc hl (busy_of_reading hr))
    rw [hfree] at howner
    cases howner

variable {H : Type} [DecidableEq H]

/-- **Pipes are lossless FIFOs.** For any number of processes that read and
write with valid buffers, in any interleaving: the counters are those of the
bytes put and taken, and at most `PIPESIZE` apart, modulo `2 ^ 32`; what was put
is what was taken followed by what is in the ring, and while nobody holds the
lock what was taken is what reads have returned, in their order, which is always
the beginning of what was put; the bytes that a write which has returned put
there are all of its bytes, in their order; and a read for a positive number of
bytes that has returned none has found the pipe empty and closed for writing. -/
theorem pipe_fifo (pid₀ : Fin n → Option ℤ) (fds₀ : Fin n → Bool → ℕ)
    (data₀ : Fin PIPESIZE → UInt8) {s : State n H Lk Chan (Shared n) Local}
    (hreach : Machine.Reach (Threads.step code) (fun _ act => ValidAct act.2)
      (boot pid₀ (fun p => start (fds₀ p)) (pipealloc fds₀ data₀)) s) :
    (s.data.pipe.nwrite = UInt32.ofNat s.data.enq.length ∧
      s.data.pipe.nread = UInt32.ofNat s.data.deq.length) ∧
    (s.data.pipe.nwrite - s.data.pipe.nread).toNat ≤ PIPESIZE ∧
    s.data.enq.map Prod.snd = s.data.deq ++ s.data.pipe.unread ∧
    (s.lock (.other .pipe) = none → s.data.deq = returned s.data) ∧
    returned s.data <+: s.data.enq.map Prod.snd ∧
    (∀ w ∈ s.data.writes, sent s.data.enq (w.proc, w.call) = w.args.bytes ∧
      w.ret = w.args.bytes.length) ∧
    ∀ r ∈ s.data.reads, 0 < r.args.n → r.bytes = [] → r.drained = true := by
  obtain ⟨-, ho, ⟨hsrc, -, hF⟩, -⟩ := Owners.transfer (R := fun _ _ x _ => x.Valid)
    (J := fun m => Sourced code m ∧ AllKnow m ∧ Fifo m) disciplined
    (fun m p l x op _ _ _ _ hop => status_rule hop)
    (fun m p x m' ho ⟨hsrc, hk, hF⟩ hx hstep =>
      have hmoves := hstep.moves
      have hrel := hmoves.relabels hsrc heedless
      ⟨hsrc.step hmoves, hk.step ho hsrc hrel, hF.step ho hsrc hk hx hrel⟩)
    (fun _ => rfl) ⟨Sourced.boot, AllKnow.boot pid₀ fds₀ data₀, Fifo.boot pid₀ fds₀ data₀⟩
    (hreach.mono (fun s act hok => by
      obtain ⟨h, act⟩ := act
      cases act with
      | timer => trivial
      | go x =>
        simp only [Allows]
        split
        · exact fun _ _ => hok
        · trivial))
  have hring : Ring s.data := hF.ring
  refine ⟨⟨hring.nwrite, hring.nread⟩, length_unread s.data.pipe ▸ hring.le, hring.fifo,
    fun hfree => hF.idle_of_free ho hsrc (State.owner_of_none hfree), ?_, fun w hw => ?_,
    fun r hr hpos hbytes => hF.zero r hr hbytes hpos⟩
  · rw [hring.fifo]
    exact hF.returned_prefix.trans (prefix_append _ _)
  · obtain ⟨hs, hr, -⟩ := hF.writes w hw
    exact ⟨hs, hr⟩

/-- A process writes three bytes, and another one reads two of them. -/
theorem pipe_fifo_read :
    ∃ s : State 2 (Fin 2) Lk Chan (Shared 2) Local,
      Machine.Reach (step code) (fun _ act => ValidAct act.2)
        (boot (fun p => some (p + 1)) (fun _ => start (fun _ => 1))
          (pipealloc (fun _ _ => 1) (fun _ => 0))) s ∧
      returned s.data = [1, 2] ∧ s.data.enq.map Prod.snd = [1, 2] ++ s.data.pipe.unread ∧
      s.data.pipe.unread = [3] := by
  have hrun : (Machine.run (step code) (fun _ act => ValidAct act.2)
      (boot (fun p => some (p + 1)) (fun _ => start (fun _ => 1))
        (pipealloc (fun _ _ => 1) (fun _ => 0)) : State 2 (Fin 2) Lk Chan (Shared 2) Local)
      (replicate 20 (0, .go (.write ⟨[1, 2, 3], none⟩)) ++
        replicate 20 (1, .go (.read ⟨2, none⟩)))).Next fun s =>
      returned s.data = [1, 2] ∧ s.data.pipe.unread = [3] ∧ s.lock (.other .pipe) = none := by
    decide +kernel
  obtain ⟨s, hreach, hret, hunread, hfree⟩ := Machine.exists_reach_of_run hrun
  obtain ⟨-, -, hfifo, htaken, -⟩ := pipe_fifo _ _ _ hreach
  exact ⟨s, hreach, hret, hret ▸ htaken hfree ▸ hfifo, hunread⟩

end Xv6.Pipes
