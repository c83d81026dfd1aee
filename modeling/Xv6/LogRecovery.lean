import Xv6.Param
import Xv6.RedoLog

/-!
# Committing to the log, and recovering from it

`kernel/log.c` makes the updates of a transaction atomic with respect to
crashes: `commit` copies the modified blocks from the buffer cache to the
log, writes the log header – the true commit point – installs the blocks in
their home locations and erases the header, and `recover_from_log` installs
whatever a header left on the disk names.

The functions are modelled over a disk seen through the buffer cache, each
`bwrite` recorded in a trace. What a crash leaves on the disk is then the
disk before the call with a prefix of the trace applied, and a recovery
starts from that with an empty cache.

The correctness argument is that of `Xv6.RedoLog`, instantiated at the
region of the log and at the header's encoding in a block (`LogRegion.redo`,
`decodeHead_encodeHead`), where what follows the commit point is the recovery of
the disk it left (`commit_trace`).
-/

open Function List

namespace Xv6

/-! ## The disk behind the buffer cache -/

/-- A disk seen through the buffer cache, with the writes issued so far. -/
structure BufferedDisk where
  /-- What is on the disk. -/
  disk : Disk
  /-- The blocks the cache holds, with their contents. -/
  cached : ℕ → Option Block
  /-- How many references `bpin` has added to a block's buffer. -/
  pins : ℕ → ℕ
  /-- The block writes issued, oldest first. -/
  trace : List (ℕ × Block)

namespace BufferedDisk

/-- What `bread` returns for a block: the cached contents, or else those on
the disk. -/
def view (s : BufferedDisk) (b : ℕ) : Block := (s.cached b).getD (s.disk b)

/-- `bread`: the contents of a block, which the cache then holds. -/
def bread (s : BufferedDisk) (b : ℕ) : Block × BufferedDisk :=
  (s.view b, { s with cached := update s.cached b (some (s.view b)) })

/-- `bwrite`: the contents of a block's buffer go to the disk. -/
def bwrite (s : BufferedDisk) (b : ℕ) (data : Block) : BufferedDisk :=
  { s with
    disk := update s.disk b data
    cached := update s.cached b (some data)
    trace := s.trace ++ [(b, data)] }

/-- `bunpin`: drop a reference `bpin` added. -/
def bunpin (s : BufferedDisk) (b : ℕ) : BufferedDisk :=
  { s with pins := update s.pins b (s.pins b - 1) }

/-- The machine after a power cycle: the disk as it is, nothing cached. -/
def reboot (d : Disk) : BufferedDisk :=
  { disk := d, cached := fun _ => none, pins := fun _ => 0, trace := [] }

/-- **Issuing writes**: `s'` is `s` after the writes `ws`, which are on the
disk, visible through the cache and in the trace. -/
structure Issues (s : BufferedDisk) (ws : List (ℕ × Block)) (s' : BufferedDisk) :
    Prop where
  /-- The trace grows by the writes. -/
  trace : s'.trace = s.trace ++ ws
  /-- The disk has them. -/
  disk : s'.disk = applyWrites ws s.disk
  /-- So does the cache. -/
  view : s'.view = applyWrites ws s.view

theorem Issues.refl (s : BufferedDisk) : s.Issues [] s :=
  ⟨(append_nil _).symm, rfl, rfl⟩

theorem Issues.trans {s s' s'' : BufferedDisk} {ws ws' : List (ℕ × Block)}
    (h : s.Issues ws s') (h' : s'.Issues ws' s'') : s.Issues (ws ++ ws') s'' where
  trace := by rw [h'.trace, h.trace, append_assoc]
  disk := by rw [h'.disk, h.disk, applyWrites_append]
  view := by rw [h'.view, h.view, applyWrites_append]

theorem issues_bread (s : BufferedDisk) (b : ℕ) : s.Issues [] (s.bread b).2 where
  trace := (append_nil _).symm
  disk := rfl
  view := by
    funext x
    by_cases hx : x = b
    · subst hx
      simp [bread, view]
    · simp [bread, view, hx]

theorem issues_bwrite (s : BufferedDisk) (b : ℕ) (data : Block) :
    s.Issues [(b, data)] (s.bwrite b data) where
  trace := rfl
  disk := rfl
  view := by
    funext x
    by_cases hx : x = b
    · subst hx
      simp [bwrite, view]
    · simp [bwrite, view, hx]

theorem issues_bunpin (s : BufferedDisk) (b : ℕ) : s.Issues [] (s.bunpin b) :=
  ⟨(append_nil _).symm, rfl, rfl⟩

end BufferedDisk

/-! ## The log header -/

/-- The part of `struct log` that `initlog` reads from the superblock. -/
structure LogRegion where
  /-- The block of the header. -/
  start : ℕ
  /-- The number of blocks of the log, the header included. -/
  size : ℕ
  /-- There is a header. -/
  pos : 0 < size
  /-- The region is addressed by C `int`s. -/
  fits : start + size ≤ 2 ^ 31

/-- **The in-memory log header**, `struct logheader`: the block numbers in
its first `n` places, which are all that is ever read of it. -/
structure LogHeader where
  /-- The blocks logged, `n` of them. -/
  block : List ℕ
  /-- The array has `LOGSIZE` places. -/
  room : block.length ≤ LOGSIZE
  /-- Block numbers are `uint`s. -/
  uint : ∀ b ∈ block, b < 2 ^ 32

/-- The header after `log.lh.n = 0`. -/
def LogHeader.empty : LogHeader := ⟨[], Nat.zero_le _, by simp⟩

/-- The offset of `block[i]` in `struct logheader`. -/
def headOffset (i : ℕ) : ℕ := 4 + 4 * i

/-- The block numbers from the `i`-th place on, written over a header
block. -/
def putBlocks : ℕ → List ℕ → Block → Block
  | _, [], hb => hb
  | i, b :: bs, hb => putBlocks (i + 1) bs (hb.setLE (headOffset i) 4 b)

/-- The header block `write_head` writes: `n` and the `n` block numbers,
over what the block held. -/
def encodeHead (bs : List ℕ) (hb : Block) : Block :=
  putBlocks 0 bs (hb.setLE 0 4 bs.length)

/-- The block numbers `read_head` reads from a header block. -/
def decodeHead (hb : Block) : List ℕ :=
  (range (int32 (hb.getLE 0 4)).toNat).map (fun i => hb.getLE (headOffset i) 4)

theorem getLE_putBlocks_of_le {i off : ℕ} (hoff : off + 4 ≤ headOffset i)
    (bs : List ℕ) (hb : Block) : (putBlocks i bs hb).getLE off 4 = hb.getLE off 4 := by
  induction bs generalizing i hb with
  | nil => rfl
  | cons b bs ih =>
    rw [putBlocks, ih (by unfold headOffset at *; omega),
      Bytes.getLE_setLE_disjoint hb (Or.inl hoff)]

/-- The places written hold the block numbers. -/
theorem getLE_putBlocks {bs : List ℕ} (i : ℕ) (hb : Block)
    (hroom : i + bs.length ≤ LOGSIZE) (huint : ∀ b ∈ bs, b < 2 ^ 32) (j : ℕ)
    (hj : j < bs.length) :
    (putBlocks i bs hb).getLE (headOffset (i + j)) 4 = bs.get ⟨j, hj⟩ := by
  induction bs generalizing i j hb with
  | nil => exact absurd hj (Nat.not_lt_zero _)
  | cons b bs ih =>
    rw [length_cons] at hroom
    rw [putBlocks]
    cases j with
    | zero =>
      have hfit : headOffset i + 4 ≤ BSIZE := by
        unfold headOffset BSIZE
        unfold LOGSIZE MAXOPBLOCKS at hroom
        omega
      show (putBlocks (i + 1) bs (hb.setLE (headOffset i) 4 b)).getLE (headOffset i) 4 = b
      rw [getLE_putBlocks_of_le (by unfold headOffset; omega),
        Bytes.getLE_setLE_same hb hfit]
      exact Nat.mod_eq_of_lt (huint b mem_cons_self)
    | succ j =>
      have hrec := ih (i + 1) (hb.setLE (headOffset i) 4 b) (by omega)
        (fun x hx => huint x (mem_cons_of_mem _ hx)) j (by simpa using hj)
      rw [show i + 1 + j = i + (j + 1) by omega] at hrec
      simpa using hrec

theorem int32_encodeHead {bs : List ℕ} (hb : Block) (hroom : bs.length ≤ LOGSIZE) :
    (int32 ((encodeHead bs hb).getLE 0 4)).toNat = bs.length := by
  have hlt : bs.length < 2 ^ 31 := by
    unfold LOGSIZE MAXOPBLOCKS at hroom
    omega
  unfold encodeHead
  rw [getLE_putBlocks_of_le (by unfold headOffset; omega),
    Bytes.getLE_setLE_same hb (by unfold BSIZE; omega),
    Nat.mod_eq_of_lt (lt_trans hlt (by norm_num))]
  unfold int32
  rw [if_pos hlt]
  exact Int.toNat_natCast _

/-- **`read_head` reads back what `write_head` wrote**, whatever the rest of
the header block holds. -/
theorem decodeHead_encodeHead {bs : List ℕ} (hb : Block)
    (hroom : bs.length ≤ LOGSIZE) (huint : ∀ b ∈ bs, b < 2 ^ 32) :
    decodeHead (encodeHead bs hb) = bs := by
  unfold decodeHead
  rw [int32_encodeHead hb hroom]
  refine ext_get (by simp) (fun j h₁ h₂ => ?_)
  have h := getLE_putBlocks 0 (hb.setLE 0 4 bs.length) (by omega) huint j h₂
  rw [Nat.zero_add] at h
  simpa [encodeHead] using h

@[simp] theorem decodeHead_encodeHead_nil (hb : Block) :
    decodeHead (encodeHead [] hb) = [] :=
  decodeHead_encodeHead hb (Nat.zero_le _) (by simp)

/-! ## The functions of `log.c` -/

/-- `memmove(dst, src, BSIZE)` between two buffers: the whole block. -/
def memmoveBlock (_dst src : Block) : Block := src

/-- `write_log`: copy the modified blocks from the cache to the log. -/
def writeLog (L : LogRegion) : List ℕ → ℕ → BufferedDisk → BufferedDisk
  | [], _, s => s
  | b :: bs, tail, s =>
    let dst := s.bread (L.start + tail + 1)
    let src := dst.2.bread b
    writeLog L bs (tail + 1)
      (src.2.bwrite (L.start + tail + 1) (memmoveBlock dst.1 src.1))

/-- `install_trans`: copy the committed blocks from the log to their home
locations, dropping the pin each was given by `log_write` unless the log
is being recovered. -/
def installTrans (L : LogRegion) (recovering : Bool) :
    List ℕ → ℕ → BufferedDisk → BufferedDisk
  | [], _, s => s
  | b :: bs, tail, s =>
    let lbuf := s.bread (L.start + tail + 1)
    let dbuf := lbuf.2.bread b
    let s' := dbuf.2.bwrite b (memmoveBlock dbuf.1 lbuf.1)
    installTrans L recovering bs (tail + 1) (if recovering then s' else s'.bunpin b)

/-- `read_head`: the block numbers of the on-disk header. -/
def readHead (L : LogRegion) (s : BufferedDisk) : List ℕ × BufferedDisk :=
  (decodeHead (s.bread L.start).1, (s.bread L.start).2)

/-- `write_head`: write the in-memory header to the disk. -/
def writeHead (L : LogRegion) (bs : List ℕ) (s : BufferedDisk) : BufferedDisk :=
  let buf := s.bread L.start
  buf.2.bwrite L.start (encodeHead bs buf.1)

/-- `commit`: write the modified blocks to the log, write the header – the
real commit – install the blocks, and erase the transaction. -/
def commit (L : LogRegion) (lh : LogHeader) (s : BufferedDisk) : BufferedDisk :=
  if lh.block.length > 0 then
    let s := writeLog L lh.block 0 s
    let s := writeHead L lh.block s
    let s := installTrans L false lh.block 0 s
    writeHead L LogHeader.empty.block s
  else s

/-- `recover_from_log`: install what the on-disk header names, and clear
it. -/
def recoverFromLog (L : LogRegion) (s : BufferedDisk) : BufferedDisk :=
  let h := readHead L s
  writeHead L LogHeader.empty.block (installTrans L true h.1 0 h.2)

/-! ## The log as a redo log -/

/-- The log region, read as a redo log. -/
def LogRegion.redo (L : LogRegion) : RedoLog ℕ Block where
  head := L.start
  slot i := L.start + i + 1
  capacity := L.size - 1
  targets := decodeHead

/-- A block outside the log region. -/
def LogRegion.Home (L : LogRegion) (b : ℕ) : Prop := b < L.start ∨ L.start + L.size ≤ b

theorem LogRegion.home_redo_iff {L : LogRegion} {b : ℕ} : L.redo.Home b ↔ L.Home b := by
  have hpos := L.pos
  unfold LogRegion.Home
  constructor
  · rintro ⟨hhead, hslot⟩
    by_contra hin
    have hhead' : b ≠ L.start := hhead
    have hlast : b - L.start - 1 < L.size - 1 := by omega
    have hne : b ≠ L.start + (b - L.start - 1) + 1 := hslot _ hlast
    omega
  · intro hb
    refine ⟨fun (he : b = L.start) => by omega,
      fun i (hi : i < L.size - 1) (he : b = L.start + i + 1) => by omega⟩

/-- What `write_log` writes: the contents `c` of each block, in the slot of
its place. -/
def logWrites (L : LogRegion) (c : Disk) (bs : List ℕ) (tail : ℕ) : List (ℕ × Block) :=
  (bs.zipIdx tail).map (fun b => (L.start + b.2 + 1, c b.1))

theorem mem_logWrites {L : LogRegion} {c : Disk} {bs : List ℕ} {tail : ℕ}
    {w : ℕ × Block} (hw : w ∈ logWrites L c bs tail) :
    L.start + tail < w.1 ∧ w.1 ≤ L.start + tail + bs.length := by
  obtain ⟨b, hb, rfl⟩ := mem_map.mp hw
  have h₁ := le_snd_of_mem_zipIdx hb
  have h₂ := snd_lt_add_of_mem_zipIdx hb
  show L.start + tail < L.start + b.2 + 1 ∧ L.start + b.2 + 1 ≤ _
  omega

theorem nodup_logWrites (L : LogRegion) (c : Disk) (bs : List ℕ) (tail : ℕ) :
    ((logWrites L c bs tail).map Prod.fst).Nodup := by
  have hmap : (logWrites L c bs tail).map Prod.fst
      = ((bs.zipIdx tail).map Prod.snd).map (fun i => L.start + i + 1) := by
    unfold logWrites
    rw [map_map, map_map]
    rfl
  rw [hmap, zipIdx_map_snd]
  exact (nodup_range' _).map (fun i j h => by
    have h' : L.start + i + 1 = L.start + j + 1 := h
    omega)

/-- **What `write_log` does**: it writes the cached contents of each home
block to its slot. -/
theorem issues_writeLog (L : LogRegion) {bs : List ℕ} (tail : ℕ) (s : BufferedDisk)
    (hroom : tail + bs.length < L.size) (hhome : ∀ b ∈ bs, L.Home b) :
    s.Issues (logWrites L s.view bs tail) (writeLog L bs tail s) := by
  induction bs generalizing tail s with
  | nil => exact .refl s
  | cons b bs ih =>
    rw [length_cons] at hroom
    set slot := L.start + tail + 1
    have hread := (s.issues_bread slot).trans ((s.bread slot).2.issues_bread b)
    have hsrc : ((s.bread slot).2.bread b).1 = s.view b :=
      congrFun (s.issues_bread slot).view b
    have hone := hread.trans (((s.bread slot).2.bread b).2.issues_bwrite slot (s.view b))
    have hrest := ih (tail + 1) (((s.bread slot).2.bread b).2.bwrite slot (s.view b))
      (by omega) (fun x hx => hhome x (mem_cons_of_mem _ hx))
    -- the slot just written is no home block, so the rest is read as before
    have hsame : logWrites L (((s.bread slot).2.bread b).2.bwrite slot (s.view b)).view
        bs (tail + 1) = logWrites L s.view bs (tail + 1) := by
      refine map_congr_left (fun p hp => ?_)
      have hmem : p.1 ∈ bs := fst_mem_of_mem_zipIdx hp
      have hne : p.1 ≠ slot := by
        have := hhome p.1 (mem_cons_of_mem _ hmem)
        unfold LogRegion.Home at this
        omega
      rw [hone.view]
      exact congrArg (Prod.mk _) (update_of_ne hne _ _)
    rw [hsame] at hrest
    show s.Issues _ (writeLog L bs (tail + 1)
      (((s.bread slot).2.bread b).2.bwrite slot ((s.bread slot).2.bread b).1))
    rw [hsrc]
    exact hone.trans hrest

/-- **What `install_trans` does**: it writes the contents of each slot to
the block of its place. -/
theorem issues_installTrans (L : LogRegion) (recovering : Bool) {bs : List ℕ} (tail : ℕ)
    (s : BufferedDisk) (hroom : tail + bs.length < L.size) (hhome : ∀ b ∈ bs, L.Home b) :
    s.Issues ((bs.zipIdx tail).map (fun b => (b.1, s.view (L.start + b.2 + 1))))
      (installTrans L recovering bs tail s) := by
  induction bs generalizing tail s with
  | nil => exact .refl s
  | cons b bs ih =>
    rw [length_cons] at hroom
    set slot := L.start + tail + 1
    have hread := (s.issues_bread slot).trans ((s.bread slot).2.issues_bread b)
    have hone := hread.trans (((s.bread slot).2.bread b).2.issues_bwrite b (s.view slot))
    set s' := ((s.bread slot).2.bread b).2.bwrite b (s.view slot)
    have hpin : s.Issues [(b, s.view slot)] (if recovering then s' else s'.bunpin b) := by
      cases recovering with
      | false => exact hone.trans (s'.issues_bunpin b)
      | true => exact hone
    set s'' := if recovering then s' else s'.bunpin b
    have hrest := ih (tail + 1) s'' (by omega)
      (fun x hx => hhome x (mem_cons_of_mem _ hx))
    -- the home block just written is no slot, so the rest is read as before
    have hsame : (bs.zipIdx (tail + 1)).map (fun b => (b.1, s''.view (L.start + b.2 + 1)))
        = (bs.zipIdx (tail + 1)).map (fun b => (b.1, s.view (L.start + b.2 + 1))) := by
      refine map_congr_left (fun p hp => ?_)
      have hlt := snd_lt_add_of_mem_zipIdx hp
      have hne : L.start + p.2 + 1 ≠ b := by
        have := hhome b mem_cons_self
        unfold LogRegion.Home at this
        omega
      rw [hpin.view]
      exact congrArg (Prod.mk _) (update_of_ne hne _ _)
    rw [hsame] at hrest
    exact hpin.trans hrest

/-- **What `write_head` does**: one write, of the header over what the
header block held. -/
theorem issues_writeHead (L : LogRegion) (bs : List ℕ) (s : BufferedDisk) :
    s.Issues [(L.start, encodeHead bs (s.view L.start))] (writeHead L bs s) :=
  (s.issues_bread L.start).trans
    ((s.bread L.start).2.issues_bwrite L.start (encodeHead bs (s.view L.start)))

/-! ## The writes of a commit and of a recovery -/

/-- The block writes a commit issues, in order. -/
def commitWrites (L : LogRegion) (lh : LogHeader) (s : BufferedDisk) : List (ℕ × Block) :=
  (commit L lh { s with trace := [] }).trace

/-- The block writes a recovery of the disk issues, in order. -/
def recoverWrites (L : LogRegion) (d : Disk) : List (ℕ × Block) :=
  (recoverFromLog L (.reboot d)).trace

/-- **A transaction the log has room for**: distinct home blocks, as many as
there are slots. -/
structure LogHeader.Loggable (lh : LogHeader) (L : LogRegion) : Prop where
  /-- No block is logged twice. -/
  nodup : lh.block.Nodup
  /-- No block of the log itself is logged. -/
  home : ∀ b ∈ lh.block, L.Home b
  /-- There is a slot for every block. -/
  room : lh.block.length ≤ L.size - 1

/-- The disk at the commit point: the blocks are in their slots, and the
header names them. -/
def committedDisk (L : LogRegion) (lh : LogHeader) (c d : Disk) : Disk :=
  applyWrites (logWrites L c lh.block 0 ++ [(L.start, encodeHead lh.block (c L.start))]) d

section CommitPoint

variable {L : LogRegion} {lh : LogHeader} {c d : Disk}

theorem LogHeader.decodeHead_encodeHead (lh : LogHeader) (hb : Block) :
    decodeHead (encodeHead lh.block hb) = lh.block :=
  Xv6.decodeHead_encodeHead hb lh.room lh.uint

theorem committedDisk_start : committedDisk L lh c d L.start = encodeHead lh.block (c L.start) := by
  unfold committedDisk
  rw [applyWrites_append]
  exact update_self _ _ _

theorem applyWrites_logWrites_home (hl : lh.Loggable L) (k : ℕ) {b : ℕ} (hb : L.Home b) :
    applyWrites ((logWrites L c lh.block 0).take k) d b = d b := by
  have hpos := L.pos
  have hroom := hl.room
  refine applyWrites_of_notMem (fun w hw he => ?_)
  have h := mem_logWrites (mem_of_mem_take hw)
  unfold LogRegion.Home at hb
  omega

theorem applyWrites_logWrites_start (k : ℕ) :
    applyWrites ((logWrites L c lh.block 0).take k) d L.start = d L.start := by
  refine applyWrites_of_notMem (fun w hw he => ?_)
  have h := mem_logWrites (mem_of_mem_take hw)
  omega

theorem targets_committedDisk :
    L.redo.targets (committedDisk L lh c d L.redo.head) = lh.block := by
  show decodeHead (committedDisk L lh c d L.start) = lh.block
  rw [committedDisk_start, lh.decodeHead_encodeHead]

theorem wellFormed_committedDisk (hl : lh.Loggable L) :
    L.redo.WellFormed (committedDisk L lh c d) := by
  constructor <;> rw [targets_committedDisk]
  · exact hl.nodup
  · exact fun b hb => LogRegion.home_redo_iff.mpr (hl.home b hb)
  · exact hl.room

theorem committedDisk_slot {i : ℕ} (hi : i < lh.block.length) :
    committedDisk L lh c d (L.start + i + 1) = c (lh.block.get ⟨i, hi⟩) := by
  unfold committedDisk
  rw [applyWrites_append]
  refine (update_of_ne (by omega) _ _).trans ?_
  refine applyWrites_of_mem (w := (L.start + i + 1, c (lh.block.get ⟨i, hi⟩)))
    (nodup_logWrites L c lh.block 0) ?_ d
  refine mem_map.mpr ⟨(lh.block.get ⟨i, hi⟩, i), ?_, rfl⟩
  exact mk_mem_zipIdx_iff_getElem?.mpr (getElem?_eq_getElem hi)

/-- **What is pending at the commit point** is the transaction. -/
theorem pending_committedDisk :
    L.redo.pending (committedDisk L lh c d) = lh.block.map (fun b => (b, c b)) := by
  unfold RedoLog.pending RedoLog.slotWrites
  rw [targets_committedDisk]
  refine ext_get (by simp) (fun i h₁ h₂ => ?_)
  have hi : i < lh.block.length := by simpa using h₂
  have hslot := committedDisk_slot (L := L) (c := c) (d := d) hi
  simpa [LogRegion.redo] using hslot

/-- **The logical contents at the commit point**: the transaction's for the
logged blocks, the disk's for the other home blocks. -/
theorem logical_committedDisk (hl : lh.Loggable L) {b : ℕ} (hb : L.Home b) :
    L.redo.logical (committedDisk L lh c d) b = if b ∈ lh.block then c b else d b := by
  unfold RedoLog.logical
  rw [pending_committedDisk]
  by_cases hmem : b ∈ lh.block
  · rw [if_pos hmem]
    refine applyWrites_of_mem (w := (b, c b)) ?_ (mem_map.mpr ⟨b, hmem, rfl⟩) _
    rw [map_map]
    exact (map_id lh.block).symm ▸ hl.nodup
  · rw [if_neg hmem, applyWrites_of_notMem]
    · have hne : b ≠ L.start := (LogRegion.home_redo_iff.mpr hb).1
      unfold committedDisk
      rw [applyWrites_append]
      refine (update_of_ne hne _ _).trans ?_
      have h := applyWrites_logWrites_home (c := c) (d := d) hl lh.block.length hb
      rwa [take_of_length_le (by simp [logWrites])] at h
    · intro w hw
      obtain ⟨x, hx, rfl⟩ := mem_map.mp hw
      exact fun he => hmem (he ▸ hx)

end CommitPoint

/-- **The writes of a commit**: the slots, the header, and then exactly the
recovery of the disk at the commit point. -/
theorem commit_trace {L : LogRegion} {lh : LogHeader} (hl : lh.Loggable L)
    (hne : lh.block.length > 0) (s : BufferedDisk) :
    commitWrites L lh s
      = (logWrites L s.view lh.block 0
          ++ [(L.start, encodeHead lh.block (s.view L.start))])
        ++ L.redo.recoverWrites (encodeHead []) (committedDisk L lh s.view s.disk) := by
  have hroom : 0 + lh.block.length < L.size := by
    have := hl.room
    have := L.pos
    omega
  set s₀ : BufferedDisk := { s with trace := [] }
  have h₁ := issues_writeLog L 0 s₀ hroom hl.home
  have h₂ := issues_writeHead L lh.block (writeLog L lh.block 0 s₀)
  set s₂ := writeHead L lh.block (writeLog L lh.block 0 s₀)
  have h₃ := issues_installTrans L false 0 s₂ hroom hl.home
  have h₄ := issues_writeHead L [] (installTrans L false lh.block 0 s₂)
  have hstart : (writeLog L lh.block 0 s₀).view L.start = s.view L.start := by
    rw [h₁.view]
    refine applyWrites_of_notMem (fun w hw => ?_)
    have h := mem_logWrites hw
    omega
  rw [hstart] at h₂
  have h₁₂ := h₁.trans h₂
  have hview : s₂.view = committedDisk L lh s.view s.view := h₁₂.view
  -- the slots read back the blocks, and the header read back names them
  have hinst : (lh.block.zipIdx 0).map (fun b => (b.1, s₂.view (L.start + b.2 + 1)))
      = L.redo.pending (committedDisk L lh s.view s.disk) := by
    rw [pending_committedDisk, ← pending_committedDisk (L := L) (d := s.view), hview]
    unfold RedoLog.pending RedoLog.slotWrites
    rw [show L.redo.targets (committedDisk L lh s.view s.view L.redo.head) = lh.block from by
      show decodeHead (committedDisk L lh s.view s.view L.start) = lh.block
      rw [committedDisk_start, lh.decodeHead_encodeHead]]
    rfl
  have hhead : (installTrans L false lh.block 0 s₂).view L.start
      = committedDisk L lh s.view s.disk L.start := by
    rw [h₃.view, applyWrites_of_notMem, hview, committedDisk_start, committedDisk_start]
    intro w hw
    rw [hinst] at hw
    exact ((wellFormed_committedDisk hl).home_of_mem_pending hw).1
  rw [hinst] at h₃
  rw [hhead] at h₄
  have hcommit : commit L lh s₀ = writeHead L [] (installTrans L false lh.block 0 s₂) :=
    if_pos hne
  show (commit L lh s₀).trace = _
  rw [hcommit, (h₁₂.trans (h₃.trans h₄)).trace]
  rfl

/-- **The writes of a recovery** are those of the redo log. -/
theorem recover_trace {L : LogRegion} {d : Disk} (hwf : L.redo.WellFormed d) :
    (BufferedDisk.reboot d).Issues (L.redo.recoverWrites (encodeHead []) d)
      (recoverFromLog L (.reboot d)) := by
  have hroom : 0 + (decodeHead (d L.start)).length < L.size := by
    have h : (decodeHead (d L.start)).length ≤ L.size - 1 := hwf.room
    have := L.pos
    omega
  set s := BufferedDisk.reboot d
  have h₁ := s.issues_bread L.start
  have h₂ := issues_installTrans L true 0 (s.bread L.start).2 hroom
    (fun b hb => LogRegion.home_redo_iff.mp (hwf.home b hb))
  have h₃ := issues_writeHead L [] (installTrans L true (decodeHead (d L.start)) 0
    (s.bread L.start).2)
  have hview : (s.bread L.start).2.view = d := h₁.view
  rw [hview] at h₂
  have hhead : (installTrans L true (decodeHead (d L.start)) 0 (s.bread L.start).2).view
      L.start = d L.start := by
    rw [h₂.view, hview, applyWrites_of_notMem]
    exact fun w hw => (hwf.home_of_mem_pending hw).1
  rw [hhead] at h₃
  exact h₁.trans (h₂.trans h₃)

/-! ## Crashes -/

/-- The disk after recoveries that crash, the `i`-th after `ks[i]` of its
writes, and a last one that completes. -/
def recoveries (L : LogRegion) : List ℕ → Disk → Disk
  | [], d => (recoverFromLog L (.reboot d)).disk
  | k :: ks, d => recoveries L ks (applyWrites ((recoverWrites L d).take k) d)

/-- **Recovery reaches the logical contents**, however often it crashes on
the way. -/
theorem recoveries_eq_logical {L : LogRegion} {d : Disk} (hwf : L.redo.WellFormed d)
    (ks : List ℕ) {b : ℕ} (hb : L.Home b) :
    recoveries L ks d b = L.redo.logical d b := by
  induction ks generalizing d with
  | nil =>
    show (recoverFromLog L (.reboot d)).disk b = _
    rw [(recover_trace hwf).disk]
    exact RedoLog.recover_eq_logical _ b (LogRegion.home_redo_iff.mpr hb)
  | cons k ks ih =>
    obtain ⟨hwf', hlog⟩ := RedoLog.logical_recover_take (encodeHead [])
      decodeHead_encodeHead_nil hwf k
    have hws : recoverWrites L d = L.redo.recoverWrites (encodeHead []) d :=
      (recover_trace hwf).trace
    rw [recoveries, hws, ih hwf']
    exact hlog b (LogRegion.home_redo_iff.mpr hb)

/-- **The states in which the kernel runs transactions**: `initlog` has
recovered the log of whatever disk it found, and since then the cache has
changed and transactions have committed. -/
inductive Running (L : LogRegion) : BufferedDisk → Prop
  | initlog (d : Disk) : Running L (recoverFromLog L (.reboot d))
  | cache (s : BufferedDisk) (cached : ℕ → Option Block) (pins : ℕ → ℕ) :
      Running L s → Running L { s with cached := cached, pins := pins }
  | commit (s : BufferedDisk) (lh : LogHeader) :
      Running L s → lh.Loggable L → Running L (commit L lh s)

theorem decodeHead_writeHead_nil (L : LogRegion) (s : BufferedDisk) :
    decodeHead ((writeHead L [] s).disk L.start) = [] := by
  rw [(issues_writeHead L [] s).disk]
  show decodeHead (update s.disk L.start _ L.start) = []
  rw [update_self, decodeHead_encodeHead_nil]

/-- While the kernel runs and no commit is in progress, the on-disk header
names no block. -/
theorem Running.decodeHead_eq_nil {L : LogRegion} {s : BufferedDisk} (hs : Running L s) :
    decodeHead (s.disk L.start) = [] := by
  induction hs with
  | initlog d => exact decodeHead_writeHead_nil L _
  | cache s cached pins _ ih => exact ih
  | commit s lh _ _ ih =>
    unfold Xv6.commit
    split
    · exact decodeHead_writeHead_nil L _
    · exact ih

/-- **Where a crash of `commit` can fall**: before its header reached the
disk, when some slots were written, or after, when part of a recovery of
the committed disk was. -/
theorem commit_crash_cases {L : LogRegion} {lh : LogHeader} (hl : lh.Loggable L)
    (s : BufferedDisk) (k : ℕ) :
    (L.start ∉ ((commitWrites L lh s).take k).map Prod.fst
        ∧ ∃ j, applyWrites ((commitWrites L lh s).take k) s.disk
          = applyWrites ((logWrites L s.view lh.block 0).take j) s.disk)
      ∨ ∃ j, applyWrites ((commitWrites L lh s).take k) s.disk
          = applyWrites ((L.redo.recoverWrites (encodeHead [])
              (committedDisk L lh s.view s.disk)).take j)
            (committedDisk L lh s.view s.disk) := by
  by_cases hne : lh.block.length > 0
  · rw [commit_trace hl hne]
    set ws := logWrites L s.view lh.block 0
    by_cases hk : k ≤ ws.length
    · left
      rw [append_assoc, take_append_of_le_length hk]
      refine ⟨fun hmem => ?_, k, rfl⟩
      obtain ⟨w, hw, he⟩ := mem_map.mp hmem
      have h := mem_logWrites (mem_of_mem_take hw)
      omega
    · right
      refine ⟨k - (ws.length + 1), ?_⟩
      rw [take_append, length_append, length_singleton,
        take_of_length_le (by rw [length_append, length_singleton]; omega),
        applyWrites_append]
      rfl
  · left
    have hnil : commitWrites L lh s = [] := by
      unfold commitWrites commit
      rw [if_neg hne]
    rw [hnil, take_nil]
    exact ⟨by simp, 0, rfl⟩

/-- **Crash atomicity of the log.** Let the kernel commit a transaction of
distinct home blocks that the log has room for, whatever the cache holds
for them, and let the machine crash after any prefix of the block writes of
`commit`; let recovery crash any number of times, each after any prefix of
its own writes, and then complete. The logged blocks all hold what they
held before, or all what was logged; they hold what was logged as soon as
the header had reached the disk; and no other home block has changed. -/
theorem commit_crash_atomic {L : LogRegion} {s : BufferedDisk} (hs : Running L s)
    {lh : LogHeader} (hl : lh.Loggable L) (k : ℕ) (ks : List ℕ) :
    let crashed := applyWrites ((commitWrites L lh s).take k) s.disk
    ((∀ b ∈ lh.block, recoveries L ks crashed b = s.disk b)
        ∨ ∀ b ∈ lh.block, recoveries L ks crashed b = s.view b)
      ∧ (L.start ∈ ((commitWrites L lh s).take k).map Prod.fst →
          ∀ b ∈ lh.block, recoveries L ks crashed b = s.view b)
      ∧ ∀ b, L.Home b → b ∉ lh.block → recoveries L ks crashed b = s.disk b := by
  intro crashed
  rcases commit_crash_cases hl s k with ⟨hnot, j, hj⟩ | ⟨j, hj⟩
  · -- no header: nothing is pending, and only slots were written
    have hnil : L.redo.targets (crashed L.redo.head) = [] := by
      show decodeHead (crashed L.start) = []
      rw [show crashed = _ from hj, applyWrites_logWrites_start]
      exact hs.decodeHead_eq_nil
    have hwf : L.redo.WellFormed crashed := by constructor <;> simp [hnil]
    have hhome : ∀ b, L.Home b → recoveries L ks crashed b = s.disk b := by
      intro b hb
      rw [recoveries_eq_logical hwf ks hb, RedoLog.logical_of_targets_nil hnil,
        show crashed = _ from hj]
      exact applyWrites_logWrites_home hl j hb
    exact ⟨Or.inl (fun b hb => hhome b (hl.home b hb)), fun h => absurd h hnot,
      fun b hb _ => hhome b hb⟩
  · obtain ⟨hwf, hlog⟩ := RedoLog.logical_recover_take (encodeHead [])
      decodeHead_encodeHead_nil (wellFormed_committedDisk (c := s.view) (d := s.disk) hl) j
    rw [← hj] at hwf hlog
    have hhome : ∀ b, L.Home b → recoveries L ks crashed b
        = if b ∈ lh.block then s.view b else s.disk b := by
      intro b hb
      rw [recoveries_eq_logical hwf ks hb, hlog b (LogRegion.home_redo_iff.mpr hb)]
      exact logical_committedDisk hl hb
    have hlogged : ∀ b ∈ lh.block, recoveries L ks crashed b = s.view b := by
      intro b hb
      rw [hhome b (hl.home b hb), if_pos hb]
    exact ⟨Or.inr hlogged, fun _ => hlogged,
      fun b hb hnot => by rw [hhome b hb, if_neg hnot]⟩

/-- The log region of a disk made by `mkfs`: the `LOGSIZE` blocks after the
boot block and the superblock. -/
def mkfsLog : LogRegion := ⟨2, LOGSIZE, by decide, by decide⟩

/-- Blocks 50 and 60 logged on a zeroed disk, the crash falling right after the
header was written and the first recovery crashing between its two installs: both
blocks hold what was logged. -/
theorem commit_crash_atomic_header_written :
    let s : BufferedDisk := { recoverFromLog mkfsLog (.reboot fun _ => Bytes.fill _ 0) with
      cached := fun b => some (Bytes.fill _ (if b = 50 then 7 else 8)), pins := fun _ => 1 }
    let lh : LogHeader := ⟨[50, 60], by decide, by decide⟩
    let crashed := applyWrites ((commitWrites mkfsLog lh s).take 3) s.disk
    Running mkfsLog s ∧ lh.Loggable mkfsLog
      ∧ recoveries mkfsLog [1] crashed 50 = Bytes.fill _ 7
      ∧ recoveries mkfsLog [1] crashed 60 = Bytes.fill _ 8 := by
  intro s lh crashed
  have hs : Running mkfsLog s := .cache _ _ _ (.initlog _)
  have hl : lh.Loggable mkfsLog :=
    ⟨by decide, by simp [lh, LogRegion.Home, mkfsLog, LOGSIZE, MAXOPBLOCKS], by decide⟩
  have hlogged := (commit_crash_atomic hs hl 3 [1]).2.1 (by
    rw [commit_trace hl (by decide)]
    simp [logWrites, lh])
  exact ⟨hs, hl, hlogged 50 (by simp [lh]), hlogged 60 (by simp [lh])⟩

end Xv6
