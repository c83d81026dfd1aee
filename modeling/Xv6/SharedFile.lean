import Xv6.Param
import Xv6.ReadWrite

/-!
# Writes through a shared open file

Processes that inherit a descriptor share its `struct file`, and with it the
offset `f->off`. `filewrite` cuts a write into chunks, each a transaction of its
own, and between two of them other processes write. The offset has no lock of
its own: it is read and moved while the inode is locked.

The machine here has any number of processes that call `filewrite` on one open
file; a chunk is one action. Its history is part of the state: the chunks, in
the order in which they were written, and what the calls have returned.
-/

open Function List

namespace Xv6

/-- The bytes that `filewrite` writes in one transaction at most. -/
def maxChunk : ℕ := (MAXOPBLOCKS - 1 - 1 - 2) / 2 * BSIZE

/-- A call of `filewrite`: the bytes at `addr`, and how many are written. -/
structure WriteCall where
  buf : List UInt8
  i : ℕ

/-- The size of the next chunk. -/
def WriteCall.n1 (c : WriteCall) : ℕ := min (c.buf.length - c.i) maxChunk

/-- A chunk that was written: by whom, where, and what. -/
structure Chunk (P : Type) where
  proc : P
  off : ℕ
  bytes : List UInt8

/-- An open file and the processes that write to it. The chunks that were written
and what the calls returned are kept for the record. -/
structure SharedFile (P : Type) where
  fs : Fs
  off : UInt32
  call : P → Option WriteCall
  chunks : List (Chunk P)
  returned : P → List (List UInt8 × ℤ)

/-- What a process does: call `filewrite`, write a chunk, return. -/
inductive WriteAction (P : Type) where
  | call (p : P) (buf : List UInt8)
  | chunk (p : P)
  | ret (p : P)

/-- The body of the loop of `filewrite`: what `writei` returned, and the offset
afterwards. -/
def writeChunk (sb : Superblock) (ip : Fin NINODE) (off : UInt32) (c : WriteCall) :
    FsProg (ℤ × UInt32) := do
  ilock sb ip
  let r ← writei sb ip (readable fun k => c.buf.getD (c.i + k) 0) off (UInt32.ofNat c.n1)
  pure (r, if 0 < r then off + UInt32.ofNat r.toNat else off)

/-- The bytes that the chunks wrote, one after the other. -/
def written {P : Type} (cs : List (Chunk P)) : List UInt8 := cs.flatMap Chunk.bytes

/-- **Each chunk stands where the one before it ended**, the first at `off`. -/
def Consecutive {P : Type} : ℕ → List (Chunk P) → Prop
  | _, [] => True
  | off, c :: cs => c.off = off ∧ Consecutive (off + c.bytes.length) cs

namespace SharedFile

variable {P : Type} [DecidableEq P]

/-- After a chunk of which `r` bytes were written. The call goes on if these are
all, and otherwise returns -1. -/
def wrote (s : SharedFile P) (p : P) (c : WriteCall) (r : ℤ) (off : UInt32) (fs : Fs) :
    SharedFile P where
  fs := fs
  off := off
  call := update s.call p (if r = c.n1 then some { c with i := c.i + r.toNat } else none)
  chunks := s.chunks ++ [⟨p, s.off.toNat, (c.buf.drop c.i).take r.toNat⟩]
  returned := if r = c.n1 then s.returned
    else update s.returned p (s.returned p ++ [(c.buf, -1)])

/-- One action. -/
def step (sb : Superblock) (ip : Fin NINODE) (s : SharedFile P) :
    WriteAction P → Outcome (SharedFile P) FsPanic
  | .call p buf =>
    match s.call p with
    | some _ => .disabled
    | none => .next { s with call := update s.call p (some ⟨buf, 0⟩) }
  | .chunk p =>
    match s.call p with
    | none => .disabled
    | some c =>
      if c.i < c.buf.length then
        match writeChunk sb ip s.off c s.fs with
        | .ok ((r, off), fs) => .next (s.wrote p c r off fs)
        | .error e => .panic e
      else .disabled
  | .ret p =>
    match s.call p with
    | none => .disabled
    | some c =>
      if c.i < c.buf.length then .disabled
      else .next { s with
        call := update s.call p none
        returned := update s.returned p (s.returned p ++
          [(c.buf, if c.i = c.buf.length then (c.buf.length : ℤ) else -1)]) }

/-- There is room in the file for the next chunk. -/
def Room (s : SharedFile P) : WriteAction P → Prop
  | .chunk p => ∀ c, s.call p = some c → s.off.toNat + c.n1 ≤ MAXFILE * BSIZE
  | .call _ _ | .ret _ => True

/-- The chunks of one process. -/
def of (s : SharedFile P) (p : P) : List (Chunk P) := s.chunks.filter fun c => c.proc = p

/-- What a process has written in the call it is in. -/
def progress (s : SharedFile P) (p : P) : List UInt8 :=
  match s.call p with
  | none => []
  | some c => c.buf.take c.i

end SharedFile

/-! ## The record -/

section Record

variable {P : Type}

theorem written_append (cs : List (Chunk P)) (c : Chunk P) :
    written (cs ++ [c]) = written cs ++ c.bytes := by
  simp [written]

theorem Consecutive.append {off : ℕ} {cs : List (Chunk P)} {c : Chunk P}
    (h : Consecutive off cs) (hc : c.off = off + (written cs).length) :
    Consecutive off (cs ++ [c]) := by
  induction cs generalizing off with
  | nil => exact ⟨hc, trivial⟩
  | cons d cs ih =>
    refine ⟨h.1, ih h.2 ?_⟩
    rw [hc, written, flatMap_cons, length_append, Nat.add_assoc]
    rfl

/-- Two writes, the second from where the first one ends, are one. -/
theorem splice_splice {old : List UInt8} {off : ℕ} (hoff : off ≤ old.length)
    (xs ys : List UInt8) :
    splice (splice old off xs) (off + xs.length) ys = splice old off (xs ++ ys) := by
  have hle : off + xs.length ≤ (splice old off xs).length := by
    unfold splice
    rw [length_append, length_append, length_take, Nat.min_eq_left hoff]
    exact Nat.le_add_right _ _
  refine ext_getElem? fun k => ?_
  rw [getElem?_splice hle, getElem?_splice hoff, getElem?_splice hoff, length_append]
  by_cases hlow : k < off
  · rw [if_neg (by omega), if_neg (by omega), if_neg (by omega)]
  · by_cases hmid : k < off + xs.length
    · rw [if_neg (by omega), if_pos (by omega), if_pos (by omega),
        getElem?_append_left (by omega)]
    · by_cases hhigh : k < off + xs.length + ys.length
      · rw [if_pos (by omega), if_pos (by omega), getElem?_append_right (by omega)]
        congr 1
        omega
      · rw [if_neg (by omega), if_neg (by omega), if_neg (by omega)]

theorem splice_nil (old : List UInt8) (off : ℕ) : splice old off [] = old := by
  unfold splice
  rw [append_nil, length_nil, Nat.add_zero, take_append_drop]

end Record

/-! ## One chunk -/

section Step

variable {sb : Superblock} {fs : Fs} {ip : Fin NINODE} {off : UInt32} {c : WriteCall}

/-- The bytes of the next chunk. -/
def WriteCall.next (c : WriteCall) : List UInt8 := (c.buf.drop c.i).take c.n1

theorem WriteCall.length_next (c : WriteCall) : c.next.length = c.n1 := by
  unfold next n1
  rw [length_take, length_drop]
  omega

theorem WriteCall.map_getD (c : WriteCall) :
    (range c.n1).map (fun k => c.buf.getD (c.i + k) 0) = c.next := by
  refine ext_getElem? fun k => ?_
  have hlen := c.length_next
  by_cases hk : k < c.n1
  · have hlt : c.i + k < c.buf.length := by
      unfold n1 at hk
      omega
    rw [getElem?_map, getElem?_range hk, next, getElem?_take_of_lt hk,
      getElem?_drop, getElem?_eq_getElem hlt]
    show some (c.buf.getD (c.i + k) 0) = _
    rw [getD_eq_getElem?_getD, getElem?_eq_getElem hlt]
    rfl
  · rw [getElem?_eq_none (by simpa using hk), getElem?_eq_none (by omega)]

/-- The contents of the file that an entry of the inode table stands for. -/
def Fs.contentsOf (sb : Superblock) (fs : Fs) (ip : Fin NINODE) : List UInt8 :=
  fileContents fs.disk (sb.dinodeOf fs.disk (fs.itable ip).inum)

theorem n1_lt (c : WriteCall) : c.n1 < 2 ^ 32 :=
  lt_of_le_of_lt (Nat.min_le_right _ _) (by decide)

/-- **What a chunk does**, if the offset is in the file and there is room: it is
written over the file, and the offset moves behind it. -/
theorem writeChunk_spec (h : FsInv sb fs) (hoff : off.toNat ≤ (fs.contentsOf sb ip).length)
    (hroom : off.toNat + c.n1 ≤ MAXFILE * BSIZE) :
    Prog.Ends (writeChunk sb ip off c) fs (fun _ => True) fun x fs' =>
      x.1 = c.n1 ∧ x.2.toNat = off.toNat + c.n1 ∧ FsInv sb fs'
      ∧ fs'.contentsOf sb ip = splice (fs.contentsOf sb ip) off.toNat c.next := by
  have hn := UInt32.toNat_ofNat_of_lt' (n1_lt c)
  unfold writeChunk
  refine Prog.ends_bind ((((ilock_spec h).and ilock_frame).panic_mono fun _ _ => trivial).mono ?_)
  rintro _ fs₁ ⟨⟨h₁, href₁, hv₁⟩, hdisk, hentry⟩
  have hsame : fs₁.contentsOf sb ip = fs.contentsOf sb ip := by
    unfold Fs.contentsOf
    rw [hdisk, (hentry ip).2.1]
  have hsize : (fs₁.itable ip).din.size.toNat = (fs.contentsOf sb ip).length := by
    rw [← hsame, Fs.contentsOf, ← (h₁.table.synced ip href₁ hv₁).1, fileContents, length_map,
      length_range]
  have hmax := maxfile_lt
  have hfit : (fs₁.itable ip).din.Fits off (UInt32.ofNat c.n1) := by
    unfold Dinode.Fits
    rw [hn]
    omega
  refine Prog.ends_bind ((writei_overwrites h₁ href₁ hv₁ hfit (fun k => c.buf.getD (c.i + k) 0)
    fun _ => trivial).mono ?_)
  rintro _ fs₂ ⟨rfl, hw⟩
  rw [hn, c.map_getD] at hw
  have hentry₂ := congrFun hw.itable ip
  rw [update_self] at hentry₂
  rw [hn]
  refine Prog.ends_pure ⟨rfl, ?_, hw.inv, ?_⟩
  · show (if (0 : ℤ) < c.n1 then off + UInt32.ofNat ((c.n1 : ℤ).toNat) else off).toNat = _
    split
    · rw [Int.toNat_natCast, UInt32.toNat_add, hn, Nat.mod_eq_of_lt (by omega)]
    · omega
  · rw [← hsame, Fs.contentsOf, hentry₂]
    exact hw.contents

end Step

/-! ## Whole runs -/

namespace SharedFile

variable {P : Type} [DecidableEq P] {sb : Superblock} {ip : Fin NINODE} {s₀ s : SharedFile P}

omit [DecidableEq P] in
theorem progress_of_none {p : P} (h : s.call p = none) : s.progress p = [] := by
  rw [progress, h]

omit [DecidableEq P] in
theorem progress_of_some {p : P} {c : WriteCall} (h : s.call p = some c) :
    s.progress p = c.buf.take c.i := by
  rw [progress, h]

/-- **The invariant**: the record says what the file, the offset and the calls
are. -/
structure Recorded (sb : Superblock) (ip : Fin NINODE) (s₀ s : SharedFile P) : Prop where
  inv : FsInv sb s.fs
  off : s.off.toNat = s₀.off.toNat + (written s.chunks).length
  contents : s.fs.contentsOf sb ip
    = splice (s₀.fs.contentsOf sb ip) s₀.off.toNat (written s.chunks)
  consecutive : Consecutive s₀.off.toNat s.chunks
  order : ∀ p, written (s.of p) = (s.returned p).flatMap Prod.fst ++ s.progress p
  bound : ∀ p c, s.call p = some c → c.i ≤ c.buf.length
  results : ∀ p, ∀ x ∈ s.returned p, x.2 = (x.1.length : ℤ)

theorem Recorded.off_le (h : Recorded sb ip s₀ s)
    (hoff : s₀.off.toNat ≤ (s₀.fs.contentsOf sb ip).length) :
    s.off.toNat ≤ (s.fs.contentsOf sb ip).length := by
  rw [h.contents, h.off, splice, length_append, length_append, length_take,
    Nat.min_eq_left hoff]
  exact Nat.le_add_right _ _

/-- **One process moves**: its call, the chunks it wrote and what it returned
change, and fit together. -/
theorem Recorded.order_update (h : Recorded sb ip s₀ s) {t : SharedFile P} {p : P}
    (hcall : ∀ q, q ≠ p → t.call q = s.call q) (hof : ∀ q, q ≠ p → t.of q = s.of q)
    (hret : ∀ q, q ≠ p → t.returned q = s.returned q)
    (hp : written (t.of p) = (t.returned p).flatMap Prod.fst ++ t.progress p) (q : P) :
    written (t.of q) = (t.returned q).flatMap Prod.fst ++ t.progress q := by
  by_cases hq : q = p
  · exact hq ▸ hp
  · rw [hof q hq, hret q hq, progress, hcall q hq]
    exact h.order q

/-- A call begins. -/
theorem Recorded.called (h : Recorded sb ip s₀ s) {p : P} (hp : s.call p = none)
    (buf : List UInt8) :
    Recorded sb ip s₀ { s with call := update s.call p (some ⟨buf, 0⟩) } := by
  have hself : update s.call p (some ⟨buf, 0⟩) p = some ⟨buf, 0⟩ :=
    update_self _ _ _
  have hother : ∀ q, q ≠ p → update s.call p (some ⟨buf, 0⟩) q = s.call q :=
    fun q hq => update_of_ne hq _ _
  refine ⟨h.inv, h.off, h.contents, h.consecutive,
    h.order_update hother (fun _ _ => rfl) (fun _ _ => rfl) ?_, fun q c hc => ?_, h.results⟩
  · rw [progress_of_some hself, take_zero]
    exact (h.order p).trans (by rw [progress_of_none hp])
  · by_cases hq : q = p
    · subst hq
      obtain rfl := Option.some.inj (hself.symm.trans hc)
      exact Nat.zero_le _
    · exact h.bound q c ((hother q hq).symm.trans hc)

/-- A call ends, with all its bytes written. -/
theorem Recorded.ended (h : Recorded sb ip s₀ s) {p : P} {c : WriteCall} (hp : s.call p = some c)
    (hdone : ¬ c.i < c.buf.length) :
    Recorded sb ip s₀ { s with
      call := update s.call p none
      returned := update s.returned p (s.returned p ++
        [(c.buf, if c.i = c.buf.length then (c.buf.length : ℤ) else -1)]) } := by
  have hi : c.i = c.buf.length := le_antisymm (h.bound p c hp) (Nat.le_of_not_lt hdone)
  rw [if_pos hi]
  have hself : update s.call p none p = none := update_self _ _ _
  have hother : ∀ q, q ≠ p → update s.call p none q = s.call q :=
    fun q hq => update_of_ne hq _ _
  refine ⟨h.inv, h.off, h.contents, h.consecutive,
    h.order_update hother (fun _ _ => rfl) (fun q hq => update_of_ne hq _ _) ?_,
    fun q c' hc => ?_, fun q x hx => ?_⟩
  · have horder := h.order p
    rw [progress_of_some hp, hi, take_length] at horder
    rw [progress_of_none hself]
    show written (s.of p) = flatMap Prod.fst (update s.returned p _ p) ++ []
    rw [update_self, flatMap_append, horder]
    simp
  · by_cases hq : q = p
    · subst hq
      exact nomatch hself.symm.trans hc
    · exact h.bound q c' ((hother q hq).symm.trans hc)
  · by_cases hq : q = p
    · subst hq
      have hx' : x ∈ update s.returned q _ q := hx
      rw [update_self] at hx'
      obtain hx' | hx' := mem_append.mp hx'
      · exact h.results q x hx'
      · rw [mem_singleton.mp hx']
    · have hx' : x ∈ update s.returned p _ q := hx
      rw [update_of_ne hq] at hx'
      exact h.results q x hx'

/-- A chunk is written. -/
theorem Recorded.chunk (h : Recorded sb ip s₀ s) {p : P} {c : WriteCall} (hp : s.call p = some c)
    (hoff : s₀.off.toNat ≤ (s₀.fs.contentsOf sb ip).length) {off : UInt32} {fs : Fs}
    (hoff' : off.toNat = s.off.toNat + c.n1) (hinv : FsInv sb fs)
    (hcontents : fs.contentsOf sb ip = splice (s.fs.contentsOf sb ip) s.off.toNat c.next) :
    Recorded sb ip s₀ (s.wrote p c c.n1 off fs) := by
  set t := s.wrote p c c.n1 off fs with ht
  have hchunks : t.chunks = s.chunks ++ [⟨p, s.off.toNat, c.next⟩] := rfl
  have hreturned : t.returned = s.returned := if_pos rfl
  have hself : t.call p = some ⟨c.buf, c.i + c.n1⟩ := by
    rw [ht, wrote, if_pos rfl]
    exact update_self _ _ _
  have hother : ∀ q, q ≠ p → t.call q = s.call q := fun q hq => update_of_ne hq _ _
  have hwritten : written t.chunks = written s.chunks ++ c.next := by
    rw [hchunks, written_append]
  have hn : c.i + c.n1 ≤ c.buf.length := by
    have := h.bound p c hp
    unfold WriteCall.n1
    omega
  refine ⟨hinv, ?_, ?_, ?_,
    h.order_update hother (fun q hq => ?_) (fun _ _ => by rw [hreturned]) ?_,
    fun q c' hc => ?_, by rw [hreturned]; exact h.results⟩
  · rw [hwritten, length_append, c.length_next, ← Nat.add_assoc, ← h.off]
    exact hoff'
  · rw [hwritten, ← splice_splice hoff, ← h.contents, ← h.off]
    exact hcontents
  · rw [hchunks]
    exact h.consecutive.append h.off
  · unfold of
    rw [hchunks, filter_append, filter_cons_of_neg (by simpa using Ne.symm hq),
      filter_nil, append_nil]
  · have hof : t.of p = s.of p ++ [⟨p, s.off.toNat, c.next⟩] := by
      unfold of
      rw [hchunks, filter_append, filter_cons_of_pos (by simp), filter_nil]
    rw [hof, written_append, hreturned, h.order p, progress_of_some hp, progress_of_some hself,
      append_assoc, WriteCall.next, take_add]
  · by_cases hq : q = p
    · subst hq
      obtain rfl := Option.some.inj (hself.symm.trans hc)
      exact hn
    · exact h.bound q c' ((hother q hq).symm.trans hc)

/-- **Every action keeps the record.** -/
theorem Recorded.step (hoff : s₀.off.toNat ≤ (s₀.fs.contentsOf sb ip).length)
    (h : Recorded sb ip s₀ s) {a : WriteAction P} {s' : SharedFile P} (hroom : s.Room a)
    (hstep : SharedFile.step sb ip s a = .next s') : Recorded sb ip s₀ s' := by
  cases a with
  | call p buf =>
    simp only [SharedFile.step] at hstep
    split at hstep
    · cases hstep
    · rename_i hp
      exact Outcome.next.inj hstep ▸ h.called hp buf
  | ret p =>
    simp only [SharedFile.step] at hstep
    split at hstep
    · cases hstep
    · rename_i c hp
      split at hstep
      · cases hstep
      · rename_i hdone
        exact Outcome.next.inj hstep ▸ h.ended hp hdone
  | chunk p =>
    simp only [SharedFile.step] at hstep
    split at hstep
    · cases hstep
    · rename_i c hp
      split at hstep
      · split at hstep
        · rename_i r off fs hrun
          obtain ⟨hr, hoff', hinv, hcontents⟩ :=
            (writeChunk_spec h.inv (h.off_le hoff) (hroom c hp)).of_ok hrun
          obtain rfl : r = c.n1 := hr
          exact Outcome.next.inj hstep ▸ h.chunk hp hoff hoff' hinv hcontents
        · cases hstep
      · cases hstep

/-- **Writes through a shared open file do not overlap.** Any processes write
through one open file, in any interleaving of their chunks, the offset in the
file at the start and room for every chunk. Then each chunk is stored where the
one before it ended, whoever wrote that, and the offset is where the last one
ended; the chunks of each process make up its buffers, in order; every call that
has returned has written its whole buffer; and the file is the old one with all
chunks, one after the other, from the first offset on. -/
theorem shared_writes_do_not_overlap (hinv : FsInv sb s₀.fs)
    (hoff : s₀.off.toNat ≤ (s₀.fs.contentsOf sb ip).length) (hnew : s₀.chunks = [])
    (hidle : ∀ p, s₀.call p = none ∧ s₀.returned p = [])
    (hreach : Machine.Reach (SharedFile.step sb ip) Room s₀ s) :
    Consecutive s₀.off.toNat s.chunks
    ∧ s.off.toNat = s₀.off.toNat + (written s.chunks).length
    ∧ (∀ p, written (s.of p) = (s.returned p).flatMap Prod.fst ++ s.progress p)
    ∧ (∀ p, ∀ x ∈ s.returned p, x.2 = (x.1.length : ℤ))
    ∧ s.fs.contentsOf sb ip
      = splice (s₀.fs.contentsOf sb ip) s₀.off.toNat (written s.chunks) := by
  have h₀ : Recorded sb ip s₀ s₀ := by
    refine ⟨hinv, ?_, ?_, ?_, fun p => ?_, fun p c hc => ?_, fun p x hx => ?_⟩
    · rw [hnew]
      rfl
    · rw [hnew]
      exact (splice_nil _ _).symm
    · rw [hnew]
      trivial
    · rw [of, hnew, (hidle p).2, progress_of_none (hidle p).1]
      rfl
    · rw [(hidle p).1] at hc
      cases hc
    · rw [(hidle p).2] at hx
      cases hx
  have h := hreach.invariant h₀ fun s a s' h hroom hstep => h.step hoff hroom hstep
  exact ⟨h.consecutive, h.off, h.order, h.results, h.contents⟩

/-- An empty file, open and shared by two processes. -/
def twoWriters : SharedFile Bool := ⟨oneFile, 0, fun _ => none, [], fun _ => []⟩

instance (s : SharedFile P) : ∀ a, Decidable (s.Room a)
  | .chunk p => inferInstanceAs (Decidable (∀ c ∈ s.call p, _))
  | .call _ _ | .ret _ => isTrue trivial

/-- A second call begins before the first has written, and writes behind it. -/
theorem shared_writes_do_not_overlap_twoWriters :
    ∃ s, Machine.Reach (SharedFile.step mkfsSuper 0) Room twoWriters s
      ∧ s.returned false = [([65, 66, 67, 68, 69], 5)] ∧ s.returned true = [([70], 1)]
      ∧ s.fs.contentsOf mkfsSuper 0 = [65, 66, 67, 68, 69, 70] := by
  obtain ⟨s, hreach, hfirst, hsecond, hsplice⟩ : ∃ s,
      Machine.Reach (SharedFile.step mkfsSuper 0) Room twoWriters s
      ∧ s.returned false = [([65, 66, 67, 68, 69], 5)] ∧ s.returned true = [([70], 1)]
      ∧ splice (oneFile.contentsOf mkfsSuper 0) 0 (written s.chunks) = [65, 66, 67, 68, 69, 70] :=
    Machine.exists_reach_of_run (l := [.call false [65, 66, 67, 68, 69], .call true [70],
      .chunk false, .chunk true, .ret true, .ret false]) (by decide +kernel)
  obtain ⟨-, -, -, -, hcontents⟩ := shared_writes_do_not_overlap oneFile_inv (Nat.zero_le _) rfl
    (fun _ => ⟨rfl, rfl⟩) hreach
  exact ⟨s, hreach, hfirst, hsecond, hcontents.trans hsplice⟩

end SharedFile

end Xv6
