import Xv6.RingQueue

/-!
# The console's line discipline

Characters typed at the console go through `consoleintr` into a ring with
three indices: what lies between `r` and `w` may be read, and what lies between
`w` and `e` is the line that is still being edited. `consoleread` takes bytes at
`r`, one by one, until it has a line, an end-of-file, or as many bytes as it was
asked for; when there is nothing to read it sleeps, and other readers and the
interrupt handler run before it goes on.

Both functions run under `cons.lock`, so the model has one step for each
stretch between taking the lock and giving it up: a character, the start of a
read, and a sleeping reader that finds itself awake. What a terminal is
supposed to do is said by a second terminal, `Editor`, that has no ring and no
indices: a queue of committed bytes and an edit line. A terminal is anything
that can take a character and serve a read (`Terminal`); the same machine of
readers runs on both, and the kernel's terminal answers every run as the
editor does (`console_refines_editor`).
-/

open Function List

namespace Xv6.Console

open RingQueue

/-- Bytes in the input buffer. -/
def INPUT_BUF : ℕ := 128

instance : NeZero INPUT_BUF := ⟨by decide⟩

/-- `struct cons`, up to its lock. -/
structure Cons where
  buf : Fin INPUT_BUF → UInt8
  /-- Read index. -/
  r : BitVec 32
  /-- Write index. -/
  w : BitVec 32
  /-- Edit index. -/
  e : BitVec 32

/-- `C(x)`: Control-x. -/
def ctrl (x : Char) : UInt8 := UInt8.ofNat (x.toNat - '@'.toNat)

/-- `'\n'` -/
def NEWLINE : UInt8 := 10

/-- `'\r'` -/
def RETURN : UInt8 := 13

/-- `'\x7f'` -/
def DELETE : UInt8 := 0x7f

/-! ## The kernel's terminal -/

/-- The loop of `C('U')`. It has at most as many rounds as there are
characters on the edit line. -/
def killLine : ℕ → Cons → Cons
  | 0, s => s
  | n + 1, s =>
    if s.e ≠ s.w ∧ s.buf (slot INPUT_BUF (s.e - 1)) ≠ NEWLINE then
      killLine n { s with e := s.e - 1 }
    else s

/-- **`consoleintr`**: a character arrives. The echo on the screen and the
process list of `C('P')` are left out. -/
def consoleintr (c : UInt8) (s : Cons) : Cons :=
  if c = ctrl 'P' then s
  else if c = ctrl 'U' then killLine (s.e - s.w).toNat s
  else if c = ctrl 'H' ∨ c = DELETE then
    if s.e ≠ s.w then { s with e := s.e - 1 } else s
  else if c ≠ 0 ∧ (s.e - s.r).toNat < INPUT_BUF then
    let c := if c = RETURN then NEWLINE else c
    let s := { s with buf := update s.buf (slot INPUT_BUF s.e) c, e := s.e + 1 }
    if c = NEWLINE ∨ c = ctrl 'D' ∨ s.e = s.r + BitVec.ofNat 32 INPUT_BUF then
      { s with w := s.e }
    else s
  else s

/-- How a stretch of a read ends. -/
inductive ReadEnd where
  /-- The read returns this number, and has copied these bytes. -/
  | returned (ret : ℕ) (data : List UInt8)
  /-- The reader is killed: the read returns -1. -/
  | killed
  /-- The reader sleeps, with `n` bytes to go. -/
  | asleep (n : ℕ) (got : List UInt8)
  deriving DecidableEq

/-- **`consoleread`**, from the test of `n` on: `got` are the bytes copied so
far. The copy of the `i`-th byte to where the reader wants it works on a memory
of its own and may fail. -/
def consoleread {M : Type} (killed : Bool) (copyout : ℕ → UInt8 → M → Option M) (target : ℕ) :
    ℕ → List UInt8 → Cons → M → ReadEnd × Cons × M
  | 0, got, s, m => (.returned target got, s, m)
  | n + 1, got, s, m =>
    if s.r = s.w then (if killed then .killed else .asleep (n + 1) got, s, m)
    else
      let c := s.buf (slot INPUT_BUF s.r)
      let s := { s with r := s.r + 1 }
      if c = ctrl 'D' then
        (.returned (target - (n + 1)) got, if n + 1 < target then { s with r := s.r - 1 } else s, m)
      else
        match copyout got.length c m with
        | none => (.returned (target - (n + 1)) got, s, m)
        | some m' =>
          if c = NEWLINE then (.returned (target - n) (got ++ [c]), s, m')
          else consoleread killed copyout target n (got ++ [c]) s m'

/-! ## The reference editor -/

/-- A queue of committed bytes, and the line that is being edited. -/
structure Editor where
  queue : List UInt8
  line : List UInt8

namespace Editor

/-- The line is committed. -/
def commit (d : Editor) : Editor := ⟨d.queue ++ d.line, []⟩

/-- **A character is typed.** Control-P and the null character are no text. -/
def type (c : UInt8) (d : Editor) : Editor :=
  if c = ctrl 'P' ∨ c = 0 then d
  else if c = ctrl 'U' then { d with line := [] }
  else if c = ctrl 'H' ∨ c = DELETE then { d with line := d.line.dropLast }
  else if d.queue.length + d.line.length = INPUT_BUF then d
  else
    let c := if c = RETURN then NEWLINE else c
    let d := { d with line := d.line ++ [c] }
    if c = NEWLINE ∨ c = ctrl 'D' ∨ d.queue.length + d.line.length = INPUT_BUF then d.commit
    else d

/-- **A read**: at most `n` more bytes, up to the end of a line. A Control-D ends
it, and stays in the queue when bytes were delivered before it. -/
def read (killed : Bool) : ℕ → List UInt8 → Editor → ReadEnd × Editor
  | 0, got, d => (.returned got.length got, d)
  | n + 1, got, ⟨[], line⟩ => (if killed then .killed else .asleep (n + 1) got, ⟨[], line⟩)
  | n + 1, got, ⟨c :: queue, line⟩ =>
    if c = ctrl 'D' then
      (.returned got.length got, if got = [] then ⟨queue, line⟩ else ⟨c :: queue, line⟩)
    else if c = NEWLINE then (.returned (got.length + 1) (got ++ [c]), ⟨queue, line⟩)
    else read killed n (got ++ [c]) ⟨queue, line⟩

end Editor

/-! ## Readers at a terminal -/

/-- What can be typed at and read from. -/
structure Terminal (D : Type) where
  type : UInt8 → D → D
  /-- A stretch of a read of `target` bytes, with `n` of them to go. -/
  read : (killed : Bool) → (target n : ℕ) → List UInt8 → D → ReadEnd × D

/-- A stretch of a read by a reader whose buffer is writable. -/
def readWritable (killed : Bool) (target n : ℕ) (got : List UInt8) (s : Cons) : ReadEnd × Cons :=
  let x := consoleread killed (fun _ _ m => some m) target n got s ()
  (x.1, x.2.1)

/-- The terminal of the kernel, with such readers. -/
def kernel : Terminal Cons := ⟨consoleintr, readWritable⟩

/-- The reference. -/
def editor : Terminal Editor := ⟨Editor.type, fun killed _ => Editor.read killed⟩

/-- A read that sleeps: the bytes asked for, those to go and those copied. -/
structure Pending where
  target : ℕ
  n : ℕ
  got : List UInt8
  deriving DecidableEq

/-- A terminal with its readers, and what the reads have returned. -/
structure State (P D : Type) where
  dev : D
  pending : P → Option Pending
  log : List (P × ReadEnd)

/-- What can happen. -/
inductive Action (P : Type) where
  /-- A character arrives. -/
  | type (c : UInt8)
  /-- A process calls `consoleread` for `n` bytes. -/
  | read (p : P) (n : ℤ) (killed : Bool)
  /-- A sleeping reader goes on. -/
  | wake (p : P) (killed : Bool)

variable {P D : Type} [DecidableEq P]

namespace State

/-- A stretch of a read has ended. -/
def finish (s : State P D) (p : P) (target : ℕ) : ReadEnd × D → State P D
  | (.asleep n got, d) =>
    { s with dev := d, pending := update s.pending p (some ⟨target, n, got⟩) }
  | (x, d) => { dev := d, pending := update s.pending p none, log := s.log ++ [(p, x)] }

/-- **One step** of a terminal and its readers. A process that is in a read
does not call another one, and only such a process goes on. -/
def step (T : Terminal D) (s : State P D) : Action P → State P D
  | .type c => { s with dev := T.type c s.dev }
  | .read p n killed =>
    match s.pending p with
    | none => s.finish p n.toNat (T.read killed n.toNat n.toNat [] s.dev)
    | some _ => s
  | .wake p killed =>
    match s.pending p with
    | none => s
    | some x => s.finish p x.target (T.read killed x.target x.n x.got s.dev)

/-- **A run**. -/
def run (T : Terminal D) (s : State P D) (acts : List (Action P)) : State P D :=
  acts.foldl (step T) s

/-- Nobody reads. -/
def start (d : D) : State P D := ⟨d, fun _ => none, []⟩

end State

/-! ## The ring and the editor -/

/-- **The editor that a ring stands for.** -/
structure Sim (s : Cons) (d : Editor) : Prop where
  ring : contents s.buf s.r s.e = d.queue ++ d.line
  queue : (s.w - s.r).toNat = d.queue.length
  le : d.queue.length + d.line.length ≤ INPUT_BUF
  full : d.queue.length + d.line.length = INPUT_BUF → d.line = []
  /-- A line that ends is committed at once. -/
  open_ : NEWLINE ∉ d.line

namespace Sim

variable {s : Cons} {d : Editor}

theorem length (h : Sim s d) : (s.e - s.r).toNat = d.queue.length + d.line.length := by
  have hlen := congrArg List.length h.ring
  rwa [length_contents, List.length_append] at hlen

theorem edit_iff (h : Sim s d) : s.e = s.w ↔ d.line = [] := by
  have hlen := h.length
  have hqueue := h.queue
  constructor
  · intro heq
    rw [heq, hqueue] at hlen
    exact eq_nil_of_length_eq_zero (by omega)
  · intro hnil
    rw [hnil, length_nil, add_zero, ← hqueue] at hlen
    exact sub_left_inj.mp (BitVec.eq_of_toNat_eq hlen)

theorem edit_length (h : Sim s d) : (s.e - s.w).toNat = d.line.length := by
  have hlen := h.length
  have hqueue := h.queue
  have hle : s.w - s.r ≤ s.e - s.r := by
    rw [BitVec.le_def]
    omega
  rw [show s.e - s.w = s.e - s.r - (s.w - s.r) by ring, BitVec.toNat_sub_of_le hle]
  omega

theorem read_iff (h : Sim s d) : s.r = s.w ↔ d.queue = [] := by
  have hqueue := h.queue
  constructor
  · intro heq
    rw [heq, BitVec.sub_self] at hqueue
    exact eq_nil_of_length_eq_zero hqueue.symm
  · intro hnil
    rw [hnil, length_nil] at hqueue
    exact (sub_eq_zero.mp (BitVec.eq_of_toNat_eq hqueue)).symm

/-- **A character is erased**: the last one of the edit line. -/
theorem erase (h : Sim s d) (hne : s.e ≠ s.w) :
    ∃ line, d.line = line ++ [s.buf (slot INPUT_BUF (s.e - 1))]
      ∧ Sim { s with e := s.e - 1 } { d with line := line } := by
  have hline : d.line ≠ [] := fun hnil => hne (h.edit_iff.mpr hnil)
  obtain ⟨line, c, hc⟩ := (eq_nil_or_concat d.line).resolve_left hline
  rw [concat_eq_append] at hc
  have hre : s.r ≠ s.e := by
    intro heq
    have hlen := h.length
    rw [heq, BitVec.sub_self, hc] at hlen
    simp at hlen
  have hring := h.ring
  rw [contents_unpush s.buf hre, hc, ← append_assoc] at hring
  obtain ⟨hinit, hlast⟩ := append_inj' hring rfl
  obtain rfl := (cons.inj hlast).1
  refine ⟨line, hc, hinit, h.queue, ?_, fun hfull => ?_, fun hmem => h.open_ ?_⟩
  · have hle := h.le
    rw [hc] at hle
    simp at hle ⊢
    omega
  · have hle := h.le
    rw [hc] at hle
    simp at hle hfull
    omega
  · rw [hc]
    exact mem_append_left _ hmem

/-- `C('U')` empties the edit line: no line end stands in the way. -/
theorem killLine (h : Sim s d) {n : ℕ} (hn : d.line.length ≤ n) :
    Sim (Console.killLine n s) { d with line := [] } := by
  induction n generalizing s d with
  | zero =>
    have hnil : d.line = [] := eq_nil_of_length_eq_zero (by omega)
    rw [← hnil]
    exact h
  | succ n ih =>
    unfold Console.killLine
    split
    · rename_i hloop
      obtain ⟨line, hline, hsim⟩ := h.erase hloop.1
      refine ih (d := { d with line := line }) hsim ?_
      rw [hline, length_append, length_singleton] at hn
      exact Nat.le_of_succ_le_succ hn
    · rename_i hstop
      have heq : s.e = s.w := by
        by_contra hne
        obtain ⟨line, hline, -⟩ := h.erase hne
        refine hstop ⟨hne, fun hnl => h.open_ ?_⟩
        rw [hline, hnl]
        exact mem_append_right _ (mem_singleton_self _)
      rw [← h.edit_iff.mp heq]
      exact h

/-- **A character is appended** to the edit line. -/
theorem append (h : Sim s d) (hroom : d.queue.length + d.line.length < INPUT_BUF) (c : UInt8) :
    contents (update s.buf (slot INPUT_BUF s.e) c) s.r (s.e + 1)
      = d.queue ++ (d.line ++ [c]) := by
  have hlt : (s.e - s.r).toNat < INPUT_BUF := h.length ▸ hroom
  have hlt' : (s.e - s.r).toNat + 1 < 2 ^ 32 := by
    unfold INPUT_BUF at hlt
    omega
  rw [contents_push _ hlt', contents_write (by decide) _ hlt, update_self, h.ring,
    append_assoc]

/-- The test for a full buffer. -/
theorem full_iff (h : Sim s d) :
    s.e + 1 = s.r + BitVec.ofNat 32 INPUT_BUF
      ↔ d.queue.length + d.line.length + 1 = INPUT_BUF := by
  have hdiff : s.e + 1 = s.r + BitVec.ofNat 32 INPUT_BUF
      ↔ s.e - s.r = BitVec.ofNat 32 (INPUT_BUF - 1) := by
    constructor
    · intro heq
      calc s.e - s.r = s.e + 1 - s.r - 1 := by ring
        _ = s.r + BitVec.ofNat 32 INPUT_BUF - s.r - 1 := by rw [heq]
        _ = BitVec.ofNat 32 INPUT_BUF - 1 := by ring
        _ = BitVec.ofNat 32 (INPUT_BUF - 1) := by decide
    · intro heq
      calc s.e + 1 = s.r + (s.e - s.r + 1) := by ring
        _ = s.r + (BitVec.ofNat 32 (INPUT_BUF - 1) + 1) := by rw [heq]
        _ = s.r + BitVec.ofNat 32 INPUT_BUF := congrArg _ (by decide)
  rw [hdiff, ← BitVec.toNat_inj, h.length]
  simp [INPUT_BUF]

/-- **The kernel stores a character as the editor does.** -/
theorem store (h : Sim s d) (hroom : d.queue.length + d.line.length < INPUT_BUF) (c : UInt8) :
    Sim
      (let s := { s with buf := update s.buf (slot INPUT_BUF s.e) c, e := s.e + 1 }
       if c = NEWLINE ∨ c = ctrl 'D' ∨ s.e = s.r + BitVec.ofNat 32 INPUT_BUF then
         { s with w := s.e }
       else s)
      (let d := { d with line := d.line ++ [c] }
       if c = NEWLINE ∨ c = ctrl 'D' ∨ d.queue.length + d.line.length = INPUT_BUF then d.commit
       else d) := by
  have hring := h.append hroom c
  have hlen : (s.e + 1 - s.r).toNat = d.queue.length + d.line.length + 1 := by
    have hlen := congrArg List.length hring
    rw [length_contents] at hlen
    simpa [← add_assoc] using hlen
  have hiff : d.queue.length + (d.line ++ [c]).length = INPUT_BUF
      ↔ s.e + 1 = s.r + BitVec.ofNat 32 INPUT_BUF := by
    rw [h.full_iff, length_append, length_singleton, add_assoc]
  simp only [hiff]
  split
  · refine ⟨?_, ?_, ?_, fun _ => rfl, not_mem_nil⟩
    · rw [Editor.commit, append_nil]
      exact hring
    · show (s.e + 1 - s.r).toNat = (d.queue ++ (d.line ++ [c])).length
      rw [hlen]
      simp [add_assoc]
    · simp only [Editor.commit, length_append, length_nil, length_singleton]
      omega
  · rename_i hopen
    simp only [not_or] at hopen
    refine ⟨hring, h.queue, ?_, fun hfull => absurd (hiff.mp hfull) hopen.2.2, fun hmem => ?_⟩
    · simp only [length_append, length_singleton]
      omega
    · rcases mem_append.mp hmem with hmem | hmem
      · exact h.open_ hmem
      · exact hopen.1 (mem_singleton.mp hmem).symm

/-- **The kernel takes a character as the editor does.** -/
theorem type (h : Sim s d) (c : UInt8) : Sim (consoleintr c s) (d.type c) := by
  have hlen := h.length
  have hle := h.le
  unfold consoleintr Editor.type
  by_cases hp : c = ctrl 'P'
  · rw [if_pos hp, if_pos (.inl hp)]
    exact h
  rw [if_neg hp]
  by_cases hu : c = ctrl 'U'
  · have h0 : ¬ (c = ctrl 'P' ∨ c = 0) := by
      rw [hu]
      decide
    rw [if_pos hu, if_neg h0, if_pos hu]
    exact h.killLine h.edit_length.ge
  rw [if_neg hu]
  by_cases hh : c = ctrl 'H' ∨ c = DELETE
  · have h0 : ¬ (c = ctrl 'P' ∨ c = 0) := by
      rcases hh with rfl | rfl <;> decide
    rw [if_pos hh, if_neg h0, if_neg hu, if_pos hh]
    split
    · rename_i hne
      obtain ⟨line, hline, hsim⟩ := h.erase hne
      rw [hline, dropLast_concat]
      exact hsim
    · rename_i heq
      have hnil := h.edit_iff.mp (not_not.mp heq)
      rw [hnil, dropLast_nil, ← hnil]
      exact h
  rw [if_neg hh]
  by_cases h0 : c = 0
  · rw [if_neg (fun hc => hc.1 h0), if_pos (.inr h0)]
    exact h
  rw [if_neg (not_or.mpr ⟨hp, h0⟩), if_neg hu, if_neg hh]
  by_cases hfull : d.queue.length + d.line.length = INPUT_BUF
  · rw [if_neg (fun hc => by omega), if_pos hfull]
    exact h
  · rw [if_pos ⟨h0, by omega⟩, if_neg hfull]
    exact h.store (by omega) _

/-- **A byte is taken** from the queue. -/
theorem pop {c : UInt8} {queue line : List UInt8} (h : Sim s ⟨c :: queue, line⟩) :
    s.buf (slot INPUT_BUF s.r) = c ∧ Sim { s with r := s.r + 1 } ⟨queue, line⟩ := by
  have hrw : s.r ≠ s.w := fun heq => cons_ne_nil c queue (h.read_iff.mp heq)
  have hre : s.r ≠ s.e := by
    intro heq
    have hlen := h.length
    rw [heq, BitVec.sub_self] at hlen
    simp at hlen
    omega
  have hring := h.ring
  rw [contents_pop s.buf hre, cons_append] at hring
  obtain ⟨hc, hrest⟩ := cons.inj hring
  have hle := h.le
  have hqueue := h.queue
  simp only [length_cons] at hle hqueue
  refine ⟨hc, hrest, ?_, by dsimp only; omega, fun hfull => ?_, h.open_⟩
  · rw [toNat_sub_succ hrw] at hqueue
    exact Nat.succ.inj hqueue
  · dsimp only at hfull
    omega

/-- **The kernel serves a read as the editor does.** -/
theorem read (h : Sim s d) (killed : Bool) {target n : ℕ} {got : List UInt8}
    (hn : n + got.length = target) :
    (readWritable killed target n got s).1 = (d.read killed n got).1
    ∧ Sim (readWritable killed target n got s).2 (d.read killed n got).2 := by
  unfold readWritable
  induction n generalizing s d got with
  | zero =>
    rw [zero_add] at hn
    exact ⟨congrArg (ReadEnd.returned · got) hn.symm, h⟩
  | succ n ih =>
    obtain ⟨queue, line⟩ := d
    cases queue with
    | nil =>
      rw [consoleread, if_pos (h.read_iff.mpr rfl)]
      exact ⟨rfl, h⟩
    | cons c queue =>
      obtain ⟨hc, hsim⟩ := h.pop
      have hrw : s.r ≠ s.w := fun heq => cons_ne_nil c queue (h.read_iff.mp heq)
      have hret : target - (n + 1) = got.length := by omega
      rw [consoleread, if_neg hrw, Editor.read]
      dsimp only
      rw [hc]
      by_cases hD : c = ctrl 'D'
      · rw [if_pos hD, if_pos hD, hret]
        refine ⟨rfl, ?_⟩
        by_cases hgot : got = []
        · rw [if_pos hgot, if_neg (by rw [hgot] at hn; simp at hn; omega)]
          exact hsim
        · have hpos := length_pos_iff.mpr hgot
          rw [if_neg hgot, if_pos (by omega), BitVec.add_sub_cancel]
          exact h
      · rw [if_neg hD, if_neg hD]
        by_cases hnl : c = NEWLINE
        · rw [if_pos hnl, if_pos hnl, show target - n = got.length + 1 by omega]
          exact ⟨rfl, hsim⟩
        · rw [if_neg hnl, if_neg hnl]
          refine ih hsim ?_
          rw [length_append, length_singleton]
          omega

end Sim

/-! ## Runs -/

/-- What a read has copied while it is going on: no end of a line. -/
def Partial (target n : ℕ) (got : List UInt8) : Prop :=
  n + got.length = target ∧ NEWLINE ∉ got

/-- How a stretch of a read may end. -/
def EndsWell (target : ℕ) : ReadEnd → Prop
  | .returned ret data => ret = data.length ∧ ret ≤ target ∧ NEWLINE ∉ data.dropLast
  | .killed => True
  | .asleep n got => Partial target n got

/-- **A read returns at most one line.** -/
theorem Editor.read_endsWell (killed : Bool) {target n : ℕ} {got : List UInt8}
    (h : Partial target n got) (d : Editor) : EndsWell target (d.read killed n got).1 := by
  induction n generalizing got d with
  | zero =>
    refine ⟨rfl, ?_, fun hmem => h.2 (mem_of_mem_dropLast hmem)⟩
    have := h.1
    omega
  | succ n ih =>
    obtain ⟨hn, hnl⟩ := h
    obtain ⟨queue, line⟩ := d
    cases queue with
    | nil =>
      rw [Editor.read]
      cases killed with
      | false => exact ⟨hn, hnl⟩
      | true => trivial
    | cons c queue =>
      rw [Editor.read]
      split
      · exact ⟨rfl, by omega, fun hmem => hnl (mem_of_mem_dropLast hmem)⟩
      · split
        · refine ⟨by simp, by omega, ?_⟩
          rw [dropLast_concat]
          exact hnl
        · rename_i hc
          refine ih ⟨?_, fun hmem => ?_⟩ _
          · rw [length_append, length_singleton]
            omega
          · rcases mem_append.mp hmem with hmem | hmem
            · exact hnl hmem
            · exact hc (mem_singleton.mp hmem).symm

/-- The two terminals, and their readers, are at the same point. -/
structure Related (s : State P Cons) (t : State P Editor) : Prop where
  sim : Sim s.dev t.dev
  pending : s.pending = t.pending
  log : s.log = t.log
  reads : ∀ p x, t.pending p = some x → Partial x.target x.n x.got
  returns : ∀ y ∈ t.log, ∃ n, EndsWell n y.2

variable {s : State P Cons} {t : State P Editor}

/-- A stretch of a read keeps the two together. -/
theorem Related.finish (h : Related s t) (p : P) (killed : Bool) {target n : ℕ}
    {got : List UInt8} (hp : Partial target n got) :
    Related (s.finish p target (kernel.read killed target n got s.dev))
      (t.finish p target (editor.read killed target n got t.dev)) := by
  obtain ⟨hend, hsim⟩ := h.sim.read killed hp.1
  have hwell := Editor.read_endsWell killed hp t.dev
  show Related (s.finish p target (readWritable killed target n got s.dev))
    (t.finish p target (t.dev.read killed n got))
  generalize readWritable killed target n got s.dev = a at hend hsim
  generalize t.dev.read killed n got = b at hend hsim hwell
  obtain ⟨x, c⟩ := a
  obtain ⟨y, d⟩ := b
  obtain rfl : x = y := hend
  have hreads : ∀ z, (∀ w, z = some w → Partial w.target w.n w.got) →
      ∀ q w, update t.pending p z q = some w → Partial w.target w.n w.got := by
    intro z hz q w hw
    rw [update_apply] at hw
    split at hw
    · exact hz w hw
    · exact h.reads q w hw
  cases x with
  | asleep m got' =>
    refine ⟨hsim, ?_, h.log, hreads _ fun w hw => ?_, h.returns⟩
    · simp only [State.finish, h.pending]
    · cases hw
      exact hwell
  | killed | returned =>
    refine ⟨hsim, ?_, ?_, hreads none nofun, fun y hy => ?_⟩
    · simp only [State.finish, h.pending]
    · simp only [State.finish, h.log]
    · rcases mem_append.mp hy with hy | hy
      · exact h.returns y hy
      · rw [mem_singleton.mp hy]
        exact ⟨target, hwell⟩

/-- **One step keeps the two together.** -/
theorem Related.step (h : Related s t) (a : Action P) :
    Related (s.step kernel a) (t.step editor a) := by
  cases a with
  | type c => exact ⟨h.sim.type c, h.pending, h.log, h.reads, h.returns⟩
  | read p n killed =>
    simp only [State.step, h.pending]
    cases t.pending p with
    | none => exact h.finish p killed ⟨rfl, not_mem_nil⟩
    | some x => exact h
  | wake p killed =>
    simp only [State.step, h.pending]
    cases hx : t.pending p with
    | none => exact h
    | some x => exact h.finish p killed (h.reads p x hx)

theorem Related.run (h : Related s t) (acts : List (Action P)) :
    Related (s.run kernel acts) (t.run editor acts) := by
  induction acts generalizing s t with
  | nil => exact h
  | cons a acts ih => exact ih (h.step a)

omit [DecidableEq P] in
theorem Related.start (buf : Fin INPUT_BUF → UInt8) (i : BitVec 32) :
    Related (State.start ⟨buf, i, i, i⟩ : State P Cons) (State.start ⟨[], []⟩) where
  sim := by
    refine ⟨contents_self _ _, ?_, Nat.zero_le _, fun _ => rfl, not_mem_nil⟩
    show (i - i).toNat = 0
    rw [BitVec.sub_self]
    rfl
  pending := rfl
  log := rfl
  reads _ _ h := nomatch h
  returns _ h := nomatch h

/-- **The console is a line editor.** From an empty buffer, for every sequence
of characters and reads by any processes, the kernel's terminal and the
reference editor have the same readers asleep and have returned the same to
every read; the indices satisfy `r ≤ w ≤ e ≤ r + INPUT_BUF` modulo `2 ^ 32`, with
`w = e` when the buffer is full; and what a read returns is as many bytes as it
says, of one line. -/
theorem console_refines_editor (buf : Fin INPUT_BUF → UInt8) (i : BitVec 32)
    (acts : List (Action P)) :
    let s := State.run kernel (State.start ⟨buf, i, i, i⟩) acts
    let t := State.run editor (State.start ⟨[], []⟩) acts
    s.pending = t.pending ∧ s.log = t.log
    ∧ (s.dev.w - s.dev.r).toNat ≤ (s.dev.e - s.dev.r).toNat
    ∧ (s.dev.e - s.dev.r).toNat ≤ INPUT_BUF
    ∧ ((s.dev.e - s.dev.r).toNat = INPUT_BUF → s.dev.w = s.dev.e)
    ∧ ∀ p ret data, (p, .returned ret data) ∈ s.log →
      ret = data.length ∧ NEWLINE ∉ data.dropLast := by
  intro s t
  have h : Related s t := (Related.start buf i).run acts
  have hlen := h.sim.length
  refine ⟨h.pending, h.log, ?_, ?_, fun hfull => ?_, fun p ret data hmem => ?_⟩
  · rw [hlen, h.sim.queue]
    omega
  · rw [hlen]
    exact h.sim.le
  · rw [hlen] at hfull
    exact (h.sim.edit_iff.mpr (h.sim.full hfull)).symm
  · rw [h.log] at hmem
    obtain ⟨n, hret, -, hline⟩ := h.returns _ hmem
    exact ⟨hret, hline⟩

end Xv6.Console
