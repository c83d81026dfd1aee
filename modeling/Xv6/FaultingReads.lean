import Xv6.Console
import Xv6.GetProcs
import Xv6.Pipe

/-!
# Reads whose destination faults

`piperead` and `consoleread` deliver their bytes one at a time, each by a
`copyout` of one byte to the reader's memory, and stop at the first one that
fails. In both the index of the ring is moved on when the byte is fetched,
before the copy is tried, and so a byte whose copy fails is gone.

Both reads take the copy as a parameter that works on the memory `M` of the
reader; `copyByte` is the copy to an address of a page table. The bytes a read
fetches are known beforehand (`Pipe.unread`, `deliverable`).
-/

namespace Xv6

open RingQueue List

/-! ## Copies of one byte -/

/-- The copy of the `i`-th byte of a read to the address `dst` of a page table. -/
def copyByte (pagetable dst : ℕ) (i : ℕ) (b : UInt8) (s : PhysMem) : Option PhysMem :=
  match copyout pagetable (u64 (dst + i)) [b] s with
  | .ok (r, s') => if r = -1 then none else some s'
  | .error _ => none

section

variable {M : Type} (copyout : ℕ → UInt8 → M → Option M)

/-- All these bytes can be copied, one after the other, from the `i`-th place
on. -/
def CopiesAll : ℕ → List UInt8 → M → Prop
  | _, [], _ => True
  | i, b :: bs, m => ∃ m', copyout i b m = some m' ∧ CopiesAll (i + 1) bs m'

theorem copiesAll_cons_some {i : ℕ} {b : UInt8} {bs : List UInt8} {m m' : M}
    (h : copyout i b m = some m') :
    CopiesAll copyout i (b :: bs) m ↔ CopiesAll copyout (i + 1) bs m' :=
  ⟨fun ⟨_, h', hrest⟩ => Option.some.inj (h'.symm.trans h) ▸ hrest, fun hrest => ⟨m', h, hrest⟩⟩

theorem not_copiesAll_cons_none {i : ℕ} {b : UInt8} {bs : List UInt8} {m : M}
    (h : copyout i b m = none) : ¬ CopiesAll copyout i (b :: bs) m := by
  rintro ⟨m', h', -⟩
  rw [h] at h'
  nomatch h'

end

/-! ## Pipes -/

namespace Pipes

variable {M : Type} (killed : Bool) (copyout : ℕ → UInt8 → M → Option M)

/-- How `piperead` ends. -/
inductive ReadEnd where
  | returned (i : ℕ)
  /-- The reader is killed: -1. -/
  | killed
  | asleep
  deriving DecidableEq

/-- The loop of `piperead`, with `n` rounds to go. -/
def pipereadLoop : ℕ → ℕ → Pipe → M → ℕ × Pipe × M
  | 0, i, pi, m => (i, pi, m)
  | n + 1, i, pi, m =>
    if pi.empty then (i, pi, m)
    else
      match copyout i pi.front m with
      | none => (i, pi.take, m)
      | some m' => pipereadLoop n (i + 1) pi.take m'

/-- **`piperead`**, from the test of `pi->nread == pi->nwrite` on. -/
def piperead (n : ℤ) (pi : Pipe) (m : M) : ReadEnd × Pipe × M :=
  if pi.empty ∧ pi.writeopen then (if killed then .killed else .asleep, pi, m)
  else
    let x := pipereadLoop copyout n.toNat 0 pi m
    (.returned x.1, x.2)

/-- **The read has removed what it reports**, and changed nothing else. -/
def Exact (pi : Pipe) : ReadEnd × Pipe × M → Prop
  | (.returned i, pi', _) => pi' = { pi with nread := pi.nread + UInt32.ofNat i }
  | (.killed, pi', _) | (.asleep, pi', _) => pi' = pi

/-- **The loop removes one byte too many** when a copy fails. -/
theorem pipereadLoop_nread (n i : ℕ) (pi : Pipe) (m : M) :
    let x := pipereadLoop copyout n i pi m
    i ≤ x.1
    ∧ (CopiesAll copyout i (pi.unread.take n) m →
      x.2.1 = { pi with nread := pi.nread + UInt32.ofNat (x.1 - i) })
    ∧ (¬ CopiesAll copyout i (pi.unread.take n) m →
      x.2.1 = { pi with nread := pi.nread + UInt32.ofNat (x.1 - i) + 1 }) := by
  induction n generalizing i pi m with
  | zero =>
    refine ⟨le_rfl, fun _ => ?_, fun h => absurd trivial h⟩
    simp [pipereadLoop]
  | succ n ih =>
    by_cases hempty : pi.empty = true
    · rw [pipereadLoop, if_pos hempty, empty_iff_unread.mp hempty]
      exact ⟨le_rfl, fun _ => by simp, fun h => absurd trivial h⟩
    · rw [pipereadLoop, if_neg hempty, unread_cons (by simpa using hempty), take_succ_cons]
      cases hcopy : copyout i pi.front m with
      | none =>
        refine ⟨le_rfl, fun h => absurd h (not_copiesAll_cons_none copyout hcopy), fun _ => ?_⟩
        simp [Pipe.take]
      | some m' =>
        obtain ⟨hle, hall, hsome⟩ := ih (i + 1) pi.take m'
        have hstep : ∀ {k : ℕ}, i + 1 ≤ k →
            pi.take.nread + UInt32.ofNat (k - (i + 1)) = pi.nread + UInt32.ofNat (k - i) := by
          intro k hk
          rw [show k - i = k - (i + 1) + 1 by omega, UInt32.ofNat_add]
          show pi.nread + 1 + _ = pi.nread + (_ + 1)
          rw [UInt32.add_assoc, UInt32.add_comm 1]
        rw [copiesAll_cons_some copyout hcopy]
        dsimp only
        rw [← hstep hle]
        exact ⟨by omega, hall, hsome⟩

theorem succ_ne (x : UInt32) : x + 1 ≠ x := by
  intro h
  have hnat := congrArg UInt32.toNat h
  have hlt := x.toNat_lt
  rw [UInt32.toNat_add, UInt32.toNat_one] at hnat
  omega

/-- **A read of a pipe is exact when all its bytes can be copied**, and only
then. -/
theorem piperead_exact_iff (n : ℤ) (pi : Pipe) (m : M) :
    Exact pi (piperead killed copyout n pi m)
      ↔ CopiesAll copyout 0 (pi.unread.take n.toNat) m := by
  unfold piperead
  split
  · rename_i hwait
    rw [empty_iff_unread.mp hwait.1, take_nil]
    cases killed <;> exact ⟨fun _ => trivial, fun _ => rfl⟩
  · obtain ⟨-, hall, hsome⟩ := pipereadLoop_nread copyout n.toNat 0 pi m
    rw [Nat.sub_zero] at hall hsome
    constructor
    · intro hexact
      by_contra hnot
      exact succ_ne _ (congrArg Pipe.nread ((hsome hnot).symm.trans hexact))
    · exact hall

end Pipes

/-! ## The console -/

namespace Console

variable {M : Type} (killed : Bool) (copyout : ℕ → UInt8 → M → Option M)

/-- The bytes a read of `n` bytes delivers, of those that are committed: up to
the end of a line, or before a Control-D. -/
def deliverable : ℕ → List UInt8 → List UInt8
  | 0, _ | _ + 1, [] => []
  | n + 1, c :: queue =>
    if c = ctrl 'D' then [] else if c = NEWLINE then [c] else c :: deliverable n queue

/-- **The read has removed what it reports**, beside the bytes reported before,
and at most a Control-D that ended it. -/
def Exact (got : List UInt8) (s : Cons) : ReadEnd × Cons × M → Prop
  | (.returned ret _, s', _) =>
    let r := s.r + BitVec.ofNat 32 (ret - got.length)
    s' = { s with r := r } ∨ s' = { s with r := r + 1 } ∧ s.buf (slot INPUT_BUF r) = ctrl 'D'
  | (.asleep _ got', s', _) =>
    s' = { s with r := s.r + BitVec.ofNat 32 (got'.length - got.length) }
  | (.killed, _, _) => True

/-- The bytes reported by a read include those it had before. -/
def AtLeast (k : ℕ) : ReadEnd → Prop
  | .returned ret _ => k ≤ ret
  | .asleep _ got => k ≤ got.length
  | .killed => True

theorem AtLeast.mono {k l : ℕ} (hkl : k ≤ l) {x : ReadEnd} (h : AtLeast l x) : AtLeast k x := by
  cases x with
  | returned ret data => exact le_trans hkl h
  | asleep n got => exact le_trans hkl h
  | killed => trivial

theorem consoleread_atLeast {target n : ℕ} {got : List UInt8} (hn : n + got.length = target)
    (s : Cons) (m : M) :
    AtLeast got.length (consoleread killed copyout target n got s m).1 := by
  induction n generalizing got s m with
  | zero =>
    show got.length ≤ target
    omega
  | succ n ih =>
    have hret : got.length ≤ target - (n + 1) := by omega
    rw [consoleread]
    split
    · cases killed with
      | false => exact le_rfl
      | true => trivial
    · dsimp only
      split
      · exact hret
      · split
        · exact hret
        · split
          · show got.length ≤ target - n
            omega
          · refine AtLeast.mono (l := got.length + 1) (Nat.le_succ _) ?_
            have hlen : (got ++ [s.buf (slot INPUT_BUF s.r)]).length = got.length + 1 := by simp
            have h := ih (by rw [hlen]; omega)
            rw [length_append, length_singleton] at h
            exact h _ _

theorem moved {s : Cons} {r r' : BitVec 32} (h : r = r') :
    ({ s with r := r } : Cons) = { s with r := r' } := by
  rw [h]

theorem unmoved {s : Cons} : s = { s with r := s.r + BitVec.ofNat 32 0 } :=
  moved (show s.r = s.r + 0 from (add_zero _).symm)

/-- One more byte removed and reported. -/
theorem exact_succ {got : List UInt8} {c : UInt8} {s : Cons} {x : ReadEnd × Cons × M}
    (h : AtLeast (got ++ [c]).length x.1) :
    Exact (got ++ [c]) { s with r := s.r + 1 } x ↔ Exact got s x := by
  have hstep : ∀ k : ℕ, (got ++ [c]).length ≤ k →
      s.r + 1 + BitVec.ofNat 32 (k - (got ++ [c]).length)
        = s.r + BitVec.ofNat 32 (k - got.length) := by
    intro k hk
    rw [length_append, length_singleton] at hk ⊢
    rw [show k - got.length = k - (got.length + 1) + 1 by omega, BitVec.ofNat_add]
    show s.r + 1 + _ = s.r + (_ + 1)
    ring
  obtain ⟨x, s', m⟩ := x
  cases x with
  | returned ret data =>
    simp only [Exact]
    rw [hstep ret h]
  | asleep n got' =>
    simp only [Exact]
    rw [hstep _ h]
  | killed => rfl

/-- **A read of the console is exact when all its bytes can be copied**, and
only then. -/
theorem consoleread_exact_iff {target n : ℕ} {got : List UInt8} (hn : n + got.length = target)
    (s : Cons) (m : M) :
    Exact got s (consoleread killed copyout target n got s m)
      ↔ CopiesAll copyout got.length (deliverable n (contents s.buf s.r s.w)) m := by
  induction n generalizing got s m with
  | zero =>
    rw [zero_add] at hn
    refine ⟨fun _ => trivial, fun _ => .inl ?_⟩
    rw [hn, Nat.sub_self]
    exact unmoved
  | succ n ih =>
    have hret : target - (n + 1) - got.length = 0 := by omega
    rw [consoleread]
    by_cases hrw : s.r = s.w
    · rw [if_pos hrw, hrw, contents_self]
      refine ⟨fun _ => trivial, fun _ => ?_⟩
      cases killed with
      | false =>
        show s = { s with r := s.r + BitVec.ofNat 32 (got.length - got.length) }
        rw [Nat.sub_self]
        exact unmoved
      | true => trivial
    · rw [if_neg hrw, contents_pop s.buf hrw, deliverable]
      dsimp only
      generalize hc : s.buf (slot INPUT_BUF s.r) = c
      by_cases hD : c = ctrl 'D'
      · rw [if_pos hD, if_pos hD]
        refine ⟨fun _ => trivial, fun _ => ?_⟩
        simp only [Exact, hret]
        split
        · left
          exact moved (show s.r + 1 - 1 = s.r + 0 by ring)
        · right
          refine ⟨moved (show s.r + 1 = s.r + 0 + 1 by ring), ?_⟩
          · show s.buf (slot INPUT_BUF (s.r + 0)) = _
            rw [add_zero, hc, hD]
      · rw [if_neg hD, if_neg hD]
        cases hcopy : copyout got.length c m with
        | none =>
          -- the byte is fetched and not delivered
          have hnot : ¬ Exact got s (ReadEnd.returned (target - (n + 1)) got,
              { s with r := s.r + 1 }, m) := by
            simp only [Exact, hret]
            rintro (h | ⟨-, h⟩)
            · have h' : s.r + 1 = s.r + 0 := congrArg Cons.r h
              exact absurd (add_left_cancel h') (by decide)
            · have h' : s.buf (slot INPUT_BUF (s.r + 0)) = ctrl 'D' := h
              rw [add_zero, hc] at h'
              exact hD h'
          refine ⟨fun h => absurd h hnot, fun h => ?_⟩
          split at h
          · exact absurd h (not_copiesAll_cons_none copyout hcopy)
          · exact absurd h (not_copiesAll_cons_none copyout hcopy)
        | some m' =>
          by_cases hnl : c = NEWLINE
          · simp only [if_pos hnl]
            rw [copiesAll_cons_some copyout hcopy]
            refine ⟨fun _ => trivial, fun _ => .inl ?_⟩
            rw [show target - n - got.length = 1 by omega]
            rfl
          · simp only [if_neg hnl]
            have hn' : n + (got ++ [c]).length = target := by
              rw [length_append, length_singleton]
              omega
            rw [copiesAll_cons_some copyout hcopy,
              ← exact_succ (consoleread_atLeast killed copyout hn' _ _), ih hn',
              length_append, length_singleton]

end Console

/-- **Which faulting reads lose no input.** For every pipe, console, length and
page table: a read removes exactly the bytes it reports (for the console, beside
a Control-D that ended it) if and only if every byte it fetches can be copied to
its destination. -/
theorem faulting_read_exact_iff (pagetable dst : ℕ) (m : PhysMem) (killed : Bool) :
    (∀ (pi : Pipes.Pipe) (n : ℤ),
      Pipes.Exact pi (Pipes.piperead killed (copyByte pagetable dst) n pi m)
        ↔ CopiesAll (copyByte pagetable dst) 0 (pi.unread.take n.toNat) m)
    ∧ ∀ (s : Console.Cons) (n : ℕ) (got : List UInt8),
      Console.Exact got s
          (Console.consoleread killed (copyByte pagetable dst) (n + got.length) n got s m)
        ↔ CopiesAll (copyByte pagetable dst) got.length
          (Console.deliverable n (contents s.buf s.r s.w)) m :=
  ⟨fun pi n => Pipes.piperead_exact_iff killed _ n pi m,
    fun s _ _ => Console.consoleread_exact_iff killed _ rfl s m⟩

/-- A pipe with one byte to read. -/
def oneBytePipe : Pipes.Pipe := ⟨fun _ => 120, 0, 1, true, true⟩

/-- **A faulting read loses a byte**: a read to the address one page above the
only page there is returns 0, but the byte is no longer in the pipe. -/
theorem faulting_read_loses_byte :
    ¬ ∀ (pagetable dst : ℕ) (m : PhysMem) (pi : Pipes.Pipe) (n : ℤ),
      Pipes.Exact pi (Pipes.piperead false (copyByte pagetable dst) n pi m) := by
  intro h
  have hrun := h 0x80100000 PGSIZE ⟨onePageMemory, [], fun _ => false⟩ oneBytePipe 1
  have hfault : copyByte 0x80100000 PGSIZE 0 120 ⟨onePageMemory, [], fun _ => false⟩ = none :=
    Option.isNone_iff_eq_none.mp (by decide +kernel)
  rw [Pipes.piperead_exact_iff] at hrun
  exact not_copiesAll_cons_none _ hfault hrun

end Xv6
