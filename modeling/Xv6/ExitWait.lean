import Xv6.Lifecycle

/-!
# The protocol of `exit` and `wait`

Three things about the lifecycle of processes, from what processes know of
states and parents where they are.

They are about pids (`Pids`), about what `wait` returns (`History`), and about
wake-ups: a process sleeps in `wait` only while none of its children is a
zombie. `exit` wakes up the parent before the process becomes a zombie, and
holds `wait_lock` from then on, so that the parent cannot sleep again in
between (`Awake`); a child that is handed to `initproc` may be a zombie already,
and `reparent` wakes up `initproc` afterwards (`Owes`).
-/

open Function List

namespace Xv6.Lifecycle

open Threads

variable {n : ℕ} {B : Type} {init p : Fin n} {pc pc' : Pc n B} {x : Input n B} {m m' : Procs n B}
  {op : Op n (Lk B) (Chan n B) (Shared n) (Pc n B)}

/-! ## Pids -/

section Pids

/-- A pid that was handed out and is not yet in an entry. -/
def Pc.pid? : Pc n B → Option ℤ
  | .gotPid _ k | .found _ k => some k
  | _ => none

/-- **Pids**, as long as `nextpid` has not come around. -/
structure Pids (m : Procs n B) : Prop where
  pos : ∀ q, m.view.status q ≠ .unused → 0 < m.view.pid q ∧ m.view.pid q ≤ m.view.data.allocs
  inj : ∀ q r, m.view.status q ≠ .unused → m.view.status r ≠ .unused →
    m.view.pid q = m.view.pid r → q = r
  fresh : ∀ q pc k, m.labels q = some pc → pc.pid? = some k →
    (0 < k ∧ k ≤ m.view.data.allocs) ∧ (∀ r, m.view.status r ≠ .unused → m.view.pid r ≠ k) ∧
    (∀ e ∈ m.view.data.exits, e.pid ≠ k) ∧
    ∀ r pc', m.labels r = some pc' → pc'.pid? = some k → r = q
  exits : ∀ e ∈ m.view.data.exits, e.pid ≤ m.view.data.allocs ∧
    ∀ q, m.view.status q = .live ∨ m.view.status q = .used → m.view.pid q ≠ e.pid
  exited : (m.view.data.exits.map Exit.pid).Nodup
  reaps : ∀ r ∈ m.view.data.reaps, ∀ q, m.view.status q ≠ .unused → m.view.pid q ≠ r.pid
  reaped : (m.view.data.reaps.map Reap.pid).Nodup

/-- **What has happened.** -/
structure History (m : Procs n B) : Prop where
  nextpid : m.view.data.nextpid = int32 ((m.view.data.allocs + 1) % 2 ^ 32)
  zombie : ∀ q, m.view.status q = .zombie → ⟨m.view.pid q, m.view.data.xstate q⟩ ∈ m.view.data.exits
  reaps : ∀ r ∈ m.view.data.reaps, ⟨r.pid, r.status⟩ ∈ m.view.data.exits ∧ r.parent = some r.by_

/-- No process and no pid is new. -/
theorem Pids.mono (hP : Pids m) (hallocs : m'.view.data.allocs = m.view.data.allocs)
    (hexits : m'.view.data.exits = m.view.data.exits)
    (hreaps : m'.view.data.reaps = m.view.data.reaps)
    (hpid : ∀ q, m'.view.status q ≠ .unused →
      m.view.status q ≠ .unused ∧ m'.view.pid q = m.view.pid q)
    (hlive : ∀ q, m'.view.status q = .live ∨ m'.view.status q = .used →
      m.view.status q = .live ∨ m.view.status q = .used)
    (hlab : ∀ q pc k, m'.labels q = some pc → pc.pid? = some k →
      ∃ pc', m.labels q = some pc' ∧ pc'.pid? = some k) : Pids m' where
  pos q h := by
    obtain ⟨h₀, hq⟩ := hpid q h
    rw [hq, hallocs]
    exact hP.pos q h₀
  inj q r hq hr h := by
    obtain ⟨hq₀, hq'⟩ := hpid q hq
    obtain ⟨hr₀, hr'⟩ := hpid r hr
    rw [hq', hr'] at h
    exact hP.inj q r hq₀ hr₀ h
  fresh q pc k hq hk := by
    obtain ⟨pc₀, hq₀, hk₀⟩ := hlab q pc k hq hk
    obtain ⟨hpos, hproc, hex, hone⟩ := hP.fresh q pc₀ k hq₀ hk₀
    rw [hallocs, hexits]
    refine ⟨hpos, fun r hr => ?_, hex, fun r pc' hr hk' => ?_⟩
    · obtain ⟨hr₀, hr'⟩ := hpid r hr
      rw [hr']
      exact hproc r hr₀
    · obtain ⟨pc₁, hr₁, hk₁⟩ := hlab r pc' k hr hk'
      exact hone r pc₁ hr₁ hk₁
  exits e he := by
    rw [hexits] at he
    rw [hallocs]
    obtain ⟨hle, hne⟩ := hP.exits e he
    refine ⟨hle, fun q hq => ?_⟩
    have hst : m'.view.status q ≠ .unused := by
      rcases hq with h | h <;> rw [h] <;> exact nofun
    rw [(hpid q hst).2]
    exact hne q (hlive q hq)
  exited := by
    rw [hexits]
    exact hP.exited
  reaps r hr q hq := by
    rw [hreaps] at hr
    rw [(hpid q hq).2]
    exact hP.reaps r hr q (hpid q hq).1
  reaped := by
    rw [hreaps]
    exact hP.reaped

theorem int32_succ (a : ℕ) :
    int32 ((int32 (a % 2 ^ 32) + 1) % 2 ^ 32).toNat = int32 ((a + 1) % 2 ^ 32) := by
  have hnat : ((int32 (a % 2 ^ 32) + 1) % 2 ^ 32).toNat = (a + 1) % 2 ^ 32 := by
    unfold int32
    split <;> omega
  rw [hnat]

theorem int32_of_lt {a : ℕ} (h : a < 2 ^ 31) : int32 (a % 2 ^ 32) = a := by
  unfold int32
  rw [if_pos (by omega)]
  omega

section Step

variable (hP : Pids m) (hH : History m) (hl : m.labels p = some pc)
  (hlab : ∀ q pcq, q ≠ p → m'.labels q = some pcq → m.labels q = some pcq ∨ pcq = .out)
  (hself : m'.labels p = some pc')

include hl hlab hself in
theorem pid_label (hpid : ∀ k, pc'.pid? = some k → pc.pid? = some k) (q : Fin n) (pcq : Pc n B)
    (k : ℤ) (hq : m'.labels q = some pcq) (hk : pcq.pid? = some k) :
    ∃ pc₀, m.labels q = some pc₀ ∧ pc₀.pid? = some k := by
  by_cases hqp : q = p
  · rw [hqp, hself] at hq
    cases hq
    exact ⟨pc, hqp ▸ hl, hpid k hk⟩
  · rcases hlab q pcq hqp hq with hq | rfl
    · exact ⟨pcq, hq, hk⟩
    · nomatch hk

include hP hlab hself in
/-- **`allocpid` hands out a new pid.** -/
theorem Pids.allocpid {i : Fin n} (hview : m'.view = { m.view with data := m.view.data.nextPid })
    (hpc : pc' = .gotPid i m.view.data.nextpid)
    (hnext : m.view.data.nextpid = (m.view.data.allocs + 1 : ℕ)) : Pids m' := by
  have hallocs : m'.view.data.allocs = m.view.data.allocs + 1 := by rw [hview]; rfl
  have hfresh : ∀ q pcq k, q ≠ p → m'.labels q = some pcq → pcq.pid? = some k →
      m.labels q = some pcq := by
    intro q pcq k hq hlq hk
    rcases hlab q pcq hq hlq with h | rfl
    · exact h
    · nomatch hk
  have hself' : ∀ pcq k, m'.labels p = some pcq → pcq.pid? = some k →
      k = (m.view.data.allocs + 1 : ℕ) := by
    intro pcq k hp hk
    rw [hself] at hp
    cases hp
    rw [hpc] at hk
    exact (Option.some.inj hk).symm.trans hnext
  refine ⟨fun q h => ?_, ?_, fun q pcq k hq hk => ?_, fun e he => ?_, ?_, ?_, ?_⟩
  · rw [hview] at h ⊢
    obtain ⟨hpos, hle⟩ := hP.pos q h
    refine ⟨hpos, hle.trans ?_⟩
    show (m.view.data.allocs : ℤ) ≤ (m.view.data.allocs + 1 : ℕ)
    omega
  · rw [hview]
    exact hP.inj
  · by_cases hqp : q = p
    · subst hqp
      obtain rfl := hself' pcq k hq hk
      rw [hallocs]
      refine ⟨⟨by omega, le_rfl⟩, fun r hr h => ?_, fun e he h => ?_, fun r pcr hr hk' => ?_⟩
      · rw [hview] at hr h
        have := (hP.pos r hr).2
        rw [show m.view.pid r = _ from h] at this
        omega
      · rw [hview] at he
        have := (hP.exits e he).1
        rw [h] at this
        omega
      · by_contra hrq
        have := (hP.fresh r pcr _ (hfresh r pcr _ hrq hr hk') hk').1.2
        omega
    · obtain ⟨⟨hpos, hle⟩, hproc, hex, hone⟩ := hP.fresh q pcq k (hfresh q pcq k hqp hq hk) hk
      rw [hallocs]
      refine ⟨⟨hpos, by omega⟩, by rw [hview]; exact hproc, by rw [hview]; exact hex,
        fun r pcr hr hk' => ?_⟩
      by_cases hrp : r = p
      · rw [hrp] at hr
        have := hself' pcr k hr hk'
        omega
      · exact hone r pcr (hfresh r pcr k hrp hr hk') hk'
  · rw [hallocs]
    rw [hview] at he ⊢
    obtain ⟨hle, hne⟩ := hP.exits e he
    exact ⟨by omega, hne⟩
  · rw [hview]
    exact hP.exited
  · rw [hview]
    exact hP.reaps
  · rw [hview]
    exact hP.reaped

include hP hH hl hlab hself in
/-- **`allocproc` gives the pid to an entry.** -/
theorem Pids.alloc {i : Fin n} {k : ℤ} (hpc : pc = .found i k) (hpc' : pc' = .memory i)
    (hview : m'.view = { m.view with
      status := update m.view.status i .used
      pid := update m.view.pid i k }) : Pids m' := by
  obtain ⟨hpos, hproc, hex, hone⟩ := hP.fresh p pc k hl (by rw [hpc]; rfl)
  have hst : m'.view.status = update m.view.status i .used := by rw [hview]
  have hpid : m'.view.pid = update m.view.pid i k := by rw [hview]
  have hd : m'.view.data = m.view.data := by rw [hview]
  have hfresh : ∀ q pcq k', m'.labels q = some pcq → pcq.pid? = some k' →
      q ≠ p ∧ m.labels q = some pcq := by
    intro q pcq k' hq hk
    by_cases hqp : q = p
    · rw [hqp, hself] at hq
      cases hq
      rw [hpc'] at hk
      nomatch hk
    · rcases hlab q pcq hqp hq with h | rfl
      · exact ⟨hqp, h⟩
      · nomatch hk
  -- an entry that is in use is the new one, or was in use before
  have hcase : ∀ q, m'.view.status q ≠ .unused → q = i ∧ m'.view.pid q = k ∨
      q ≠ i ∧ m.view.status q ≠ .unused ∧ m'.view.pid q = m.view.pid q := by
    intro q hq
    by_cases hqi : q = i
    · exact Or.inl ⟨hqi, by rw [hpid, hqi, update_self]⟩
    · rw [hst, update_of_ne hqi] at hq
      exact Or.inr ⟨hqi, hq, by rw [hpid, update_of_ne hqi]⟩
  refine ⟨fun q h => ?_, fun q r hq hr h => ?_, fun q pcq k' hq hk => ?_, fun e he => ?_, ?_,
    fun r hr q hq => ?_, ?_⟩
  · rw [hd]
    rcases hcase q h with ⟨-, hq⟩ | ⟨-, h, hq⟩
    · rw [hq]
      exact hpos
    · rw [hq]
      exact hP.pos q h
  · rcases hcase q hq with ⟨hqi, hq'⟩ | ⟨hqi, hq, hq'⟩
    · rcases hcase r hr with ⟨hri, -⟩ | ⟨-, hr, hr'⟩
      · rw [hqi, hri]
      · exact absurd (hr'.symm.trans (h.symm.trans hq')) (hproc r hr)
    · rcases hcase r hr with ⟨-, hr'⟩ | ⟨-, hr, hr'⟩
      · exact absurd (hq'.symm.trans (h.trans hr')) (hproc q hq)
      · rw [hq', hr'] at h
        exact hP.inj q r hq hr h
  · obtain ⟨hqp, hq⟩ := hfresh q pcq k' hq hk
    obtain ⟨hpos', hproc', hex', hone'⟩ := hP.fresh q pcq k' hq hk
    rw [hd]
    refine ⟨hpos', fun r hr => ?_, hex', fun r pcr hr hk' => ?_⟩
    · rcases hcase r hr with ⟨-, hr'⟩ | ⟨-, hr, hr'⟩
      · rw [hr']
        rintro rfl
        exact hqp (hone q pcq hq hk)
      · rw [hr']
        exact hproc' r hr
    · exact hone' r pcr (hfresh r pcr k' hr hk').2 hk'
  · rw [hd] at he ⊢
    obtain ⟨hle, hne⟩ := hP.exits e he
    refine ⟨hle, fun q hq => ?_⟩
    by_cases hqi : q = i
    · rw [hpid, hqi, update_self]
      exact (hex e he).symm
    · rw [hst, update_of_ne hqi] at hq
      rw [hpid, update_of_ne hqi]
      exact hne q hq
  · rw [hd]
    exact hP.exited
  · rw [hd] at hr
    rcases hcase q hq with ⟨-, hq'⟩ | ⟨-, hq, hq'⟩
    · rw [hq']
      exact fun h => hex _ (hH.reaps r hr).1 h.symm
    · rw [hq']
      exact hP.reaps r hr q hq
  · rw [hd]
    exact hP.reaped

include hP in
/-- **A process exits.** -/
theorem Pids.exit {status : ℤ} (hlive : m.view.status p = .live)
    (hview : m'.view = { m.view with
      status := update m.view.status p .zombie
      data := m.view.data.exit p (m.view.pid p) status })
    (hlab : ∀ q pc k, m'.labels q = some pc → pc.pid? = some k →
      ∃ pc', m.labels q = some pc' ∧ pc'.pid? = some k) : Pids m' := by
  have hst : m'.view.status = update m.view.status p .zombie := by rw [hview]
  have hex : m'.view.data.exits = m.view.data.exits ++ [⟨m.view.pid p, status⟩] := by
    rw [hview]
    rfl
  have hused : m.view.status p ≠ .unused := by simp [hlive]
  -- all but the new record
  have hP₁ : Pids { m' with view := { m'.view with data := m.view.data } } := by
    refine hP.mono rfl rfl rfl (fun q hq => ?_) (fun q hq => ?_) hlab
    · have hq : m'.view.status q ≠ .unused := hq
      refine ⟨fun h => hq ?_, by rw [hview]⟩
      have hqp : q ≠ p := by
        rintro rfl
        exact hused h
      rw [hst, update_of_ne hqp]
      exact h
    · have hq : m'.view.status q = .live ∨ m'.view.status q = .used := hq
      by_cases hqp : q = p
      · rw [hqp]
        exact Or.inl hlive
      · simpa [hst, hqp] using hq
  have hpid : m'.view.pid = m.view.pid := by rw [hview]
  have hallocs : m'.view.data.allocs = m.view.data.allocs := by rw [hview]; rfl
  have hreaps : m'.view.data.reaps = m.view.data.reaps := by rw [hview]; rfl
  refine ⟨fun q hq => ?_, hP₁.inj, fun q pcq k hq hk => ?_, fun e he => ?_, ?_, ?_, ?_⟩
  · rw [hallocs]
    exact hP₁.pos q hq
  · obtain ⟨hpos, hproc, hexits, hone⟩ := hP₁.fresh q pcq k hq hk
    rw [hallocs, hex]
    refine ⟨hpos, hproc, fun e he => ?_, hone⟩
    rcases mem_append.mp he with he | he
    · exact hexits e he
    · obtain rfl := mem_singleton.mp he
      have := hproc p (by
        show m'.view.status p ≠ _
        simp [hst])
      rwa [show ({ m' with view := { m'.view with data := m.view.data } } : Procs n B).view.pid
        = m.view.pid from hpid] at this
  · rw [hex] at he
    rw [hallocs]
    rcases mem_append.mp he with he | he
    · exact hP₁.exits e he
    · obtain rfl := mem_singleton.mp he
      refine ⟨(hP.pos p hused).2, fun q hq h => ?_⟩
      have hqp : q ≠ p := by
        rintro rfl
        simp [hst] at hq
      rw [hst, update_of_ne hqp] at hq
      rw [hpid] at h
      have hq' : m.view.status q ≠ .unused := by
        rcases hq with hq | hq <;> simp [hq]
      exact hqp (hP.inj q p hq' hused h)
  · rw [hex, map_append, map_singleton, nodup_append]
    refine ⟨hP.exited, nodup_singleton _, fun a ha b hb => ?_⟩
    obtain rfl := mem_singleton.mp hb
    obtain ⟨e, he, rfl⟩ := mem_map.mp ha
    exact ((hP.exits e he).2 p (Or.inl hlive)).symm
  · rw [hreaps]
    exact hP₁.reaps
  · rw [hreaps]
    exact hP.reaped

include hP in
/-- **A zombie is reaped.** -/
theorem Pids.reap {i : Fin n} {r : Reap n} (hz : m.view.status i = .zombie)
    (hr : r.pid = m.view.pid i)
    (hview : m'.view = ⟨update m.view.status i .unused,
      update m.view.killed i false, update m.view.pid i 0,
      m.view.data.reap i r⟩)
    (hlab : ∀ q pc k, m'.labels q = some pc → pc.pid? = some k →
      ∃ pc', m.labels q = some pc' ∧ pc'.pid? = some k) : Pids m' := by
  have hst : m'.view.status = update m.view.status i .unused := by rw [hview]
  have hpid : m'.view.pid = update m.view.pid i 0 := by rw [hview]
  have hi : m.view.status i ≠ .unused := by simp [hz]
  have hcase : ∀ q, m'.view.status q ≠ .unused →
      q ≠ i ∧ m.view.status q ≠ .unused ∧ m'.view.pid q = m.view.pid q := by
    intro q hq
    have hqi : q ≠ i := by
      rintro rfl
      simp [hst] at hq
    rw [hst, update_of_ne hqi] at hq
    exact ⟨hqi, hq, by rw [hpid, update_of_ne hqi]⟩
  have hreaps : m'.view.data.reaps = m.view.data.reaps ++ [r] := by
    rw [hview]
    rfl
  -- all but the new record
  have hP₁ : Pids { m' with view := { m'.view with data := m.view.data } } := by
    refine hP.mono rfl rfl rfl (fun q hq => (hcase q hq).2) (fun q hq => ?_) hlab
    have hq : m'.view.status q = .live ∨ m'.view.status q = .used := hq
    by_cases hqi : q = i
    · simp [hst, hqi] at hq
    · simpa [hst, hqi] using hq
  have hallocs : m'.view.data.allocs = m.view.data.allocs := by rw [hview]; rfl
  have hex : m'.view.data.exits = m.view.data.exits := by rw [hview]; rfl
  refine ⟨?_, hP₁.inj, ?_, ?_, ?_, fun r' hr' q hq => ?_, ?_⟩
  · rw [hallocs]
    exact hP₁.pos
  · rw [hallocs, hex]
    exact hP₁.fresh
  · rw [hallocs, hex]
    exact hP₁.exits
  · rw [hex]
    exact hP.exited
  · rw [hreaps] at hr'
    rcases mem_append.mp hr' with hr' | hr'
    · exact hP₁.reaps r' hr' q hq
    · obtain rfl := mem_singleton.mp hr'
      obtain ⟨hqi, hq, hq'⟩ := hcase q hq
      rw [hq', hr]
      exact fun h => hqi (hP.inj q i hq hi h)
  · rw [hreaps, map_append, map_singleton, nodup_append]
    refine ⟨hP.reaped, nodup_singleton _, fun a ha b hb => ?_⟩
    obtain rfl := mem_singleton.mp hb
    obtain ⟨r', hr', rfl⟩ := mem_map.mp ha
    rw [hr]
    exact (hP.reaps r' hr' i hi).symm

end Step

/-- **Every step keeps the history.** -/
theorem History.step (hH : History m) (hF : Family init m)
    (hstep : Relabels (code init) m p x m') : History m' := by
  cases hstep with
  | @op pc op pc' hp hrun hop htarget hnew hview hlab =>
    have hl := Mon.labels_of_code hp
    have hknow := hF.knows p pc hl
    -- the history and the zombies are as they were
    have hsame : (∀ q, (op.apply p m.view).status q = .zombie → m.view.status q = .zombie ∧
        (op.apply p m.view).pid q = m.view.pid q ∧
        (op.apply p m.view).data.xstate q = m.view.data.xstate q) →
        (op.apply p m.view).data.nextpid = m.view.data.nextpid →
        (op.apply p m.view).data.allocs = m.view.data.allocs →
        (op.apply p m.view).data.exits = m.view.data.exits →
        (op.apply p m.view).data.reaps = m.view.data.reaps → History m' := by
      intro hzombie hnext hallocs hexits hreaps
      refine ⟨?_, fun q hq => ?_, ?_⟩
      · rw [hview, hnext, hallocs]
        exact hH.nextpid
      · rw [hview] at hq ⊢
        obtain ⟨hz, hpid, hx⟩ := hzombie q hq
        rw [hpid, hx, hexits]
        exact hH.zombie q hz
      · rw [hview, hreaps, hexits]
        exact hH.reaps
    cases code_does hop with
    | allocpid =>
      refine ⟨?_, ?_, ?_⟩
      · rw [hview]
        show int32 _ = int32 ((m.view.data.allocs + 1 + 1) % 2 ^ 32)
        rw [hH.nextpid, int32_succ]
      · rw [hview]
        exact hH.zombie
      · rw [hview]
        exact hH.reaps
    | @alloc i k =>
      refine hsame (fun q hq => ?_) rfl rfl rfl rfl
      have hqi : q ≠ i := by
        rintro rfl
        simp [Op.apply] at hq
      exact ⟨by simpa [Op.apply, hqi] using hq, by simp [Op.apply, hqi], rfl⟩
    | @noMemory i =>
      refine hsame (fun q hq => ?_) rfl rfl rfl rfl
      have hqi : q ≠ i := by
        rintro rfl
        simp [Op.apply] at hq
      exact ⟨by simpa [Op.apply, hqi] using hq, by simp [Op.apply, hqi],
        by simp [Op.apply, Shared.free, hqi]⟩
    | @run i =>
      refine hsame (fun q hq => ?_) rfl rfl rfl rfl
      have hqi : q ≠ i := by
        rintro rfl
        simp [Op.apply] at hq
      exact ⟨by simpa [Op.apply, hqi] using hq, rfl, rfl⟩
    | @mark status r =>
      refine ⟨?_, fun q hq => ?_, fun r hr => ?_⟩
      · rw [hview]
        exact hH.nextpid
      · rw [hview] at hq ⊢
        by_cases hqp : q = p
        · simp [Op.apply, Shared.exit, hqp]
        · have hz : m.view.status q = .zombie := by simpa [Op.apply, hqp] using hq
          have := hH.zombie q hz
          simp [Op.apply, Shared.exit, hqp, this]
      · rw [hview] at hr ⊢
        obtain ⟨hex, hpar⟩ := hH.reaps r hr
        exact ⟨mem_append_left _ hex, hpar⟩
    | @reap i hz =>
      refine ⟨?_, fun q hq => ?_, fun r hr => ?_⟩
      · rw [hview]
        exact hH.nextpid
      · rw [hview] at hq ⊢
        have hqi : q ≠ i := by
          rintro rfl
          simp [Op.apply] at hq
        have hzq : m.view.status q = .zombie := by simpa [Op.apply, hqi] using hq
        simpa [Op.apply, Shared.reap, Shared.free, hqi] using hH.zombie q hzq
      · rw [hview] at hr ⊢
        rcases mem_append.mp hr with hr | hr
        · exact hH.reaps r hr
        · obtain rfl := mem_singleton.mp hr
          exact ⟨hH.zombie i hz, hknow.1⟩
    | _ => exact hsame (fun q hq => ⟨hq, rfl, rfl⟩) rfl rfl rfl rfl
  | sched hp hrun hop hview hlab => exact ⟨by rw [hview]; exact hH.nextpid,
      by rw [hview]; exact hH.zombie, by rw [hview]; exact hH.reaps⟩
  | quiet hview hlab => exact ⟨by rw [hview]; exact hH.nextpid,
      by rw [hview]; exact hH.zombie, by rw [hview]; exact hH.reaps⟩

/-- **Every step keeps the pids** apart. -/
theorem Pids.step (hP : m.view.data.allocs < 2 ^ 31 → Pids m) (hH : History m) (hF : Family init m)
    (hstep : Relabels (code init) m p x m') (hallocs : m'.view.data.allocs < 2 ^ 31) : Pids m' := by
  cases hstep with
  | @op pc op pc' hp hrun hop htarget hnew hview hlab =>
    have hl := Mon.labels_of_code hp
    have hself : m'.labels p = some pc' := by rw [hlab, update_self]
    have hother : ∀ q pcq, q ≠ p → m'.labels q = some pcq → m.labels q = some pcq ∨ pcq = .out :=
      fun q pcq hq hlq => (labels_other hop hnew hlab hq hlq).imp id And.left
    have hpid := pid_label hl hother hself
    have hle : m.view.data.allocs ≤ m'.view.data.allocs := by
      rw [hview]
      cases code_does hop with
      | allocpid => exact Nat.le_succ _
      | _ => exact le_rfl
    have hP := hP (hle.trans_lt hallocs)
    cases code_does hop with
    | allocpid =>
      cases htarget
      refine hP.allocpid hother hself hview rfl ?_
      rw [hview] at hallocs
      rw [hH.nextpid]
      exact int32_of_lt hallocs
    | alloc =>
      cases htarget
      exact hP.alloc hH hl hother hself rfl rfl hview
    | mark =>
      cases htarget
      exact hP.exit (hF.live hrun hl (by simp) (by simp)) hview (hpid (by rintro _ ⟨⟩))
    | reap hz =>
      cases htarget
      exact hP.reap hz rfl hview (hpid (by rintro _ ⟨⟩))
    | @noMemory i =>
      cases htarget
      refine hP.mono (by rw [hview]; rfl) (by rw [hview]; rfl) (by rw [hview]; rfl) (fun q hq => ?_)
        (fun q hq => ?_) (hpid (by rintro _ ⟨⟩))
      · rw [hview] at hq ⊢
        have hqi : q ≠ i := by
          rintro rfl
          simp [Op.apply] at hq
        exact ⟨by simpa [Op.apply, hqi] using hq, by simp [Op.apply, hqi]⟩
      · rw [hview] at hq
        have hqi : q ≠ i := by
          rintro rfl
          simp [Op.apply] at hq
        simpa [Op.apply, hqi] using hq
    | @run i =>
      cases htarget
      have hus := (hF.knows p _ hl).1
      refine hP.mono (by rw [hview]; rfl) (by rw [hview]; rfl) (by rw [hview]; rfl) (fun q hq => ?_)
        (fun q hq => ?_) (hpid (by rintro _ ⟨⟩))
      · refine ⟨fun h => hq ?_, by rw [hview]; rfl⟩
        have hqi : q ≠ i := by
          rintro rfl
          cases hus.symm.trans h
        rw [hview]
        simpa [Op.apply, hqi] using h
      · rw [hview] at hq
        by_cases hqi : q = i
        · rw [hqi]
          exact Or.inr hus
        · simpa [Op.apply, hqi] using hq
    | gone => cases htarget
    | _ =>
      cases htarget
      refine hP.mono (by rw [hview]; rfl) (by rw [hview]; rfl) (by rw [hview]; rfl)
        (fun q hq => ?_) (fun q hq => ?_) (hpid (fun k h => h))
      · rw [hview] at hq ⊢
        exact ⟨hq, rfl⟩
      · rw [hview] at hq
        exact hq
  | sched hp hrun hop hview hlab =>
    rw [hview] at hallocs
    refine (hP hallocs).mono (by rw [hview]) (by rw [hview]) (by rw [hview])
      (fun q hq => ⟨by rw [hview] at hq; exact hq, by rw [hview]⟩)
      (fun q hq => by rw [hview] at hq; exact hq) (fun q pc k hq hk => ⟨pc, ?_, hk⟩)
    rw [hlab] at hq
    by_cases hqp : q = p
    · simp [hqp] at hq
    · rwa [update_of_ne hqp] at hq
  | quiet hview hlab =>
    rw [hview] at hallocs
    exact (hP hallocs).mono (by rw [hview]) (by rw [hview]) (by rw [hview])
      (fun q hq => ⟨by rw [hview] at hq; exact hq, by rw [hview]⟩)
      (fun q hq => by rw [hview] at hq; exact hq) (fun q pc k hq hk => ⟨pc, hlab ▸ hq, hk⟩)

end Pids

/-! ## Wake-ups -/

section Waiters

/-- The lock under which a process goes to sleep on a channel. -/
def guard : Chan n B → Lk B
  | .proc _ => .wait
  | .other b => .other b

/-- Why a process sleeps in `wait`: none of its children is a zombie. -/
def Waits (v : View n (Shared n)) : Chan n B → Prop
  | .proc r => ∀ q, v.data.parent q = some r → v.status q ≠ .zombie
  | .other _ => True

/-- `reparent` has given a child to `initproc` and will wake it up. -/
def Owes (init : Fin n) (_ : Fin n) (pc : Pc n B) (c : Chan n B) : Prop :=
  ∃ status i, pc = .wakeInit status i ∧ c = .proc init

/-- `exit` has woken up the parent, and has held `wait_lock` since. -/
def Awake (_ : Fin n) (pc : Pc n B) (c : Chan n B) : Prop :=
  ∃ status r, (pc = .dying status (some r) ∨ pc = .mark status (some r)) ∧ c = .proc r

variable [DecidableEq B]

theorem holds_of_owes (p : Fin n) (pc : Pc n B) (c : Chan n B) (h : Owes init p pc c) :
    .other (guard c) ∈ holds p pc := by
  obtain ⟨status, i, rfl, rfl⟩ := h
  simp [holds, guard]

theorem holds_of_awake (p : Fin n) (pc : Pc n B) (c : Chan n B) (h : Awake p pc c) :
    .other (guard c) ∈ holds p pc := by
  obtain ⟨status, r, h, rfl⟩ := h
  rcases h with rfl | rfl <;> simp [holds, guard]

/-- **The functions on the lifecycle of processes wake up whom they must.** -/
theorem wakeful (hF : Family init m) (hN : NoLost holds guard Waits (Owes init) Awake m)
    (hp : m.post p = .code pc) (hop : code init p pc m.view x = some op) :
    Wakeful holds guard Waits (Owes init) Awake m p pc op := by
  have hl := Mon.labels_of_code hp
  have hknow := hF.knows p pc hl
  have hsame : ∀ {pc' : Pc n B} {v : View n (Shared n)},
      (∀ r, Waits (B := B) m.view (.proc r) → Waits (B := B) v (.proc r)) →
      (∀ status i, pc ≠ .wakeInit status i) → (∀ c, Awake p pc' c → Awake p pc c) →
      NextOk holds guard Waits (Owes init) Awake m p pc v pc' := by
    intro pc' v hv howes hawake
    refine .same (fun c h => ?_) (fun c h => ?_) hawake
    · cases c with
      | proc r => exact hv r h
      | other b => trivial
    · obtain ⟨status, i, h, -⟩ := h
      exact absurd h (howes status i)
  have hpaid : (∀ status i, pc ≠ .wakeInit status i) → ∀ c, ¬ Owes init p pc c :=
    fun hne c h => h.elim fun status h => h.elim fun i h => hne status i h.1
  have hasleep : ∀ pc' : Pc n B, (∀ status r, pc' ≠ .dying status r ∧ pc' ≠ .mark status r) →
      ∀ c, ¬ Awake p pc' c := by
    rintro pc' hne c ⟨status, r, h | h, -⟩
    · exact (hne status (some r)).1 h
    · exact (hne status (some r)).2 h
  cases code_does hop with
  | kill => exact fun c => ⟨hpaid (by simp) c, hasleep _ (by simp) c, hasleep _ (by simp) c⟩
  | wakeup =>
    exact fun c => ⟨fun h => absurd h (hpaid (by simp) c),
      fun h => absurd h (hasleep _ (by simp) c)⟩
  | @alloc i k =>
    refine ⟨hsame (fun r h q hq => ?_) (by simp) (fun c h => absurd h (hasleep _ (by simp) c)),
      ?_⟩
    · by_cases hqi : q = i
      · simp [Op.apply, hqi]
      · simpa [Op.apply, hqi] using h q hq
    · rintro c ⟨_, _, h | h, _⟩ <;> cases h
  | @noMemory i =>
    refine hsame (fun r h q hq => ?_) (by simp) (fun c h => absurd h (hasleep _ (by simp) c))
    by_cases hqi : q = i
    · simp [Op.apply, hqi]
    · simp only [Op.apply, Shared.free, update_of_ne hqi] at hq ⊢
      exact h q hq
  | @setParent i =>
    refine hsame (fun r h q hq => ?_) (by simp) (fun c h => absurd h (hasleep _ (by simp) c))
    by_cases hqi : q = i
    · rw [hqi]
      exact fun hz => absurd (hknow.1.symm.trans hz) (by simp)
    · simp only [Shared.setParent, update_of_ne hqi] at hq
      exact h q hq
  | @run i =>
    refine hsame (fun r h q hq => ?_) (by simp) (fun c h => absurd h (hasleep _ (by simp) c))
    by_cases hqi : q = i
    · simp [Op.apply, hqi]
    · simpa [Op.apply, hqi] using h q hq
  | @reparent status i hpar =>
    intro c
    by_cases hc : c = .proc init
    · refine ⟨fun _ => Or.inr (Or.inl ⟨status, i, rfl, hc⟩), fun _ => Or.inr ?_,
        fun h => absurd h (hasleep _ (by simp) c)⟩
      rw [hc]
      simp [holds, guard]
    · -- the children of a process other than `initproc` were its children before
      have hkeep : Waits m.view c →
          Waits { m.view with data := m.view.data.setParent i init } c := by
        cases c with
        | other b => exact id
        | proc r =>
          intro h q hq
          have hqi : q ≠ i := by
            rintro rfl
            simp only [Shared.setParent, update_self] at hq
            exact hc (by rw [Option.some.inj hq])
          simp only [Shared.setParent, update_of_ne hqi] at hq
          exact h q hq
      exact ⟨fun h => Or.inl (hkeep (h.resolve_right (hpaid (by simp) c))),
        fun h => Or.inl (hkeep h), fun h => absurd h (hasleep _ (by simp) c)⟩
  | wakeInit =>
    exact fun c => ⟨fun h => h.elim fun _ h => h.elim fun _ h => h.2,
      fun h => absurd h (hasleep _ (by simp) c)⟩
  | wakeParent hpar =>
    refine fun c => ⟨fun h => absurd h (hpaid (by simp) c), ?_⟩
    rintro ⟨_, r, h | h, rfl⟩
    · obtain ⟨-, h⟩ := Pc.dying.inj h
      rw [Option.some.inj h]
    · cases h
  | noParent hpar =>
    refine hsame (fun _ h => h) (by simp) ?_
    rintro c ⟨_, r, h | h, -⟩
    · cases (Pc.dying.inj h).2
    · cases h
  | dying =>
    refine hsame (fun _ h => h) (by simp) ?_
    rintro c ⟨status, r, h | h, rfl⟩
    · cases h
    · cases h
      exact ⟨_, r, Or.inl rfl, rfl⟩
  | @mark status r =>
    obtain ⟨-, -, hr⟩ := hknow
    intro c
    by_cases hc : ∃ r', r = some r' ∧ c = .proc r'
    · -- the parent was woken up, and cannot have gone to sleep again
      obtain ⟨r', rfl, rfl⟩ := hc
      refine ⟨fun _ => Or.inr (Or.inr (hN.deserted p _ _ hp ⟨status, r', Or.inr rfl, rfl⟩)),
        fun _ => Or.inr (by simp [holds, guard]), fun h => absurd h (hasleep _ (by simp) _)⟩
    · have hkeep : Waits m.view c →
          Waits ((Op.zombie (Shared.exit p (m.view.pid p) status) .dead :
            Op n (Lk B) (Chan n B) (Shared n) (Pc n B)).apply p m.view) c := by
        cases c with
        | other b => exact id
        | proc r' =>
          intro h q hq
          have hqp : q ≠ p := by
            rintro rfl
            exact hc ⟨r', hr.symm.trans hq, rfl⟩
          simpa [Op.apply, hqp] using h q hq
      exact ⟨fun h => Or.inl (hkeep (h.resolve_right (hpaid (by simp) c))),
        fun h => Or.inl (hkeep h), fun h => absurd h (hasleep _ (by simp) c)⟩
  | gone => exact hpaid (by simp)
  | sleepWait hi =>
    refine ⟨rfl, fun q hq => (hknow q (q.isLt.trans_le hi) hq).1,
      fun c => ⟨hpaid (by simp) c, hasleep _ (by simp) c⟩⟩
  | nap =>
    exact ⟨rfl, trivial, fun c => ⟨hpaid (by simp) c, hasleep _ (by simp) c⟩⟩
  | @reap i hz =>
    refine hsame (fun r h q hq => ?_) (by simp) (fun c h => absurd h (hasleep _ (by simp) c))
    by_cases hqi : q = i
    · simp [Op.apply, hqi]
    · simp only [Op.apply, Shared.reap, Shared.free, update_of_ne hqi] at hq ⊢
      exact h q hq
  | _ => exact hsame (fun _ h => h) (by simp) (fun c h => absurd h (hasleep _ (by simp) c))

end Waiters

/-! ## The main result -/

section Main

theorem History.boot (init : Fin n) :
    History (Mon.boot (userinit init) (fun _ => .out) initial : Procs n B) where
  nextpid := (int32_of_lt (a := 2) (by decide)).symm
  zombie q h := by
    simp only [Mon.boot] at h
    split at h <;> cases h
  reaps r h := absurd h not_mem_nil

theorem Pids.boot (init : Fin n) :
    Pids (Mon.boot (userinit init) (fun _ => .out) initial : Procs n B) := by
  have hinit : ∀ q, (Mon.boot (userinit init) (fun _ => .out) initial : Procs n B).view.status q
      ≠ .unused → q = init := by
    intro q h
    by_contra hne
    simp [Mon.boot, userinit, hne] at h
  refine ⟨fun q h => ?_, fun q r hq hr _ => (hinit q hq).trans (hinit r hr).symm,
    fun q pc k h => ?_, fun e he => absurd he not_mem_nil, nodup_nil,
    fun r hr => absurd hr not_mem_nil, nodup_nil⟩
  · rw [hinit q h]
    simp [Mon.boot, userinit, initial]
  · cases h
    rintro ⟨⟩

variable {H : Type} [DecidableEq B] [DecidableEq H]

theorem status_ne {a b : ProcState} (h : status a ≠ status b) : a ≠ b := fun hab => h (by rw [hab])

/-- **The protocol of `exit` and `wait`.** In any interleaving of the steps of
any number of processes on any number of CPUs, from the state after
`userinit`:

* as long as `allocpid` was called fewer than `2 ^ 31` times, no two processes
  have the same pid;
* every process that is neither UNUSED nor USED, other than `initproc`, has a
  parent that is neither UNUSED nor a ZOMBIE;
* what `wait` has returned is the pid and the status of a process that exited,
  and the caller was its parent; no process exits twice, and none is returned
  twice;
* when the loop of `wait` has found no child, there is none;
* when `wait_lock` is free, no process that sleeps in `wait` has a child that is
  a ZOMBIE;

and no step ends in a panic of the functions on locks, or of `sched`. -/
theorem exit_wait (init : Fin n) {s : State n H (Lk B) (Chan n B) (Shared n) (Pc n B)}
    (hreach : Machine.Reach (Threads.step (code init)) (fun _ _ => True)
      (boot (userinit init) (fun _ => .out) initial) s) :
    (s.data.allocs < 2 ^ 31 → ∀ p q, (s.entry p).state ≠ .UNUSED → (s.entry q).state ≠ .UNUSED →
      (s.entry p).pid = (s.entry q).pid → p = q) ∧
    (∀ p, p ≠ init → (s.entry p).state ≠ .UNUSED → (s.entry p).state ≠ .USED →
      ∃ r, s.data.parent p = some r ∧ (s.entry r).state ≠ .UNUSED ∧
        (s.entry r).state ≠ .ZOMBIE) ∧
    (∀ r ∈ s.data.reaps, ⟨r.pid, r.status⟩ ∈ s.data.exits ∧ r.parent = some r.by_) ∧
    (s.data.allocs < 2 ^ 31 →
      (s.data.exits.map Exit.pid).Nodup ∧ (s.data.reaps.map Reap.pid).Nodup) ∧
    (∀ p i, s.abs.labels p = some (.wait i false) → n ≤ i → ∀ q, s.data.parent q ≠ some p) ∧
    (s.lock (.other .wait) = none → ∀ p, (s.entry p).state = .SLEEPING →
      (s.entry p).chan = some (.proc p) → ∀ q, s.data.parent q = some p →
        (s.entry q).state ≠ .ZOMBIE) ∧
    ∀ act e, Threads.step (code init) s act ≠ .panic e := by
  obtain ⟨hi, ho, ⟨-, hF, hH, hP, hN⟩, hsafe⟩ := Owners.transfer (R := fun _ _ _ _ => True)
    (J := fun m : Procs n B => Sourced (code init) m ∧ Family init m ∧ History m ∧
      (m.view.data.allocs < 2 ^ 31 → Pids m) ∧ NoLost holds guard Waits (Owes init) Awake m)
    (disciplined init)
    (fun m p l x op _ ⟨_, hF, _⟩ hp hcan hop => hF.status_rule hp hcan hop)
    (fun m p x m' ho ⟨hsrc, hF, hH, hP, hN⟩ _ hstep =>
      have hmoves := hstep.moves
      have hrel := hmoves.relabels hsrc (heedless init)
      ⟨hsrc.step hmoves, hF.step ho hsrc hrel, hH.step hF hrel, Pids.step hP hH hF hrel,
        hN.step ho holds_of_owes holds_of_awake (fun v k c => by cases c <;> exact Iff.rfl)
          (disciplined init) (fun l op hp hop => wakeful hF hN hp hop) hmoves⟩)
    (fun _ => rfl)
    ⟨Sourced.boot, Family.boot init, History.boot init, fun _ => Pids.boot init,
      NoLost.boot (fun p c ⟨_, _, h, _⟩ => by rcases h with h | h <;> exact nomatch h)⟩
    (hreach.mono (fun s act _ => allows_of_forall (fun _ _ _ _ => trivial) act))
  have hunused : ∀ p, (s.entry p).state ≠ .UNUSED → s.abs.view.status p ≠ .unused := by
    intro p h
    show status _ ≠ _
    cases hs : (s.entry p).state <;> simp_all [status]
  refine ⟨fun hallocs p q hp hq => (hP hallocs).inj p q (hunused p hp) (hunused q hq),
    fun p hp hun hus => ?_, hH.reaps, fun hallocs => ⟨(hP hallocs).exited, (hP hallocs).reaped⟩,
    fun p i hl hle q hq => ?_, fun hfree p hst hchan q hq => ?_, hsafe⟩
  · obtain ⟨r, hr⟩ := hF.child p hp (by
      show status _ = _ ∨ status _ = _
      cases hs : (s.entry p).state <;> simp_all [status])
    have hlive : status (s.entry r).state = .live := hF.parent p r hr
    exact ⟨r, hr, status_ne (by rw [hlive]; simp [status]),
      status_ne (by rw [hlive]; simp [status])⟩
  · obtain ⟨-, hkids⟩ := hF.knows p _ hl q (q.isLt.trans_le hle) hq
    cases hkids
  · have hwaits : Waits (B := B) s.view (.proc p) :=
      hN.free hi ho holds_of_owes (c := .proc p) hfree hst hchan
    intro hz
    refine hwaits q hq ?_
    show status _ = _
    rw [hz]
    rfl

/-- `initproc` forks, the child exits on another CPU, and `wait` returns it. -/
theorem exit_wait_reaped :
    ∃ s : State 2 (Fin 2) (Lk Unit) (Chan 2 Unit) (Shared 2) (Pc 2 Unit),
      Machine.Reach (step (code 0)) (fun _ _ => True)
        (boot (userinit 0) (fun _ => .out) initial) s ∧
      s.data.reaps = [⟨0, 2, 7, some 0⟩] ∧ ⟨2, 7⟩ ∈ s.data.exits := by
  have hrun : (Machine.run (step (code 0)) (fun _ _ => True)
      (boot (userinit 0) (fun _ => .out) initial :
        State 2 (Fin 2) (Lk Unit) (Chan 2 Unit) (Shared 2) (Pc 2 Unit))
      (replicate 21 (0, .go ⟨.fork, false⟩) ++
        replicate 28 (1, .go ⟨.exit 7, false⟩) ++
        replicate 6 (0, .go ⟨.wait, false⟩))).Next fun s =>
      s.data.reaps = [⟨0, 2, 7, some 0⟩] := by
    decide +kernel
  obtain ⟨s, hreach, hreaps⟩ := Machine.exists_reach_of_run hrun
  obtain ⟨-, -, hex, -⟩ := exit_wait 0 hreach
  exact ⟨s, hreach, hreaps, (hex _ (by rw [hreaps]; exact mem_singleton_self _)).1⟩

end Main

end Xv6.Lifecycle
