import Xv6.PageTable

/-!
# User memory

What a user program can see of memory through its page table, and the copies
between user and kernel memory of `vm.c`. `copyout` goes page by page: it
looks up each page it writes to and stops with -1 at the first one that user
code may not use, after it has written the pages before; and so does `copyin`
with the pages it reads.
-/

namespace Xv6

open Pool

/-- User code may use the byte at `va`. -/
def UserAccessible (mem : ℕ → Page) (pagetable va : ℕ) : Prop :=
  va < MAXVA ∧ PteValid (entry mem 2 pagetable va) ∧ entry mem 2 pagetable va &&& PTE_U ≠ 0
  deriving Decidable

/-- Every byte of a range can be used by user code. -/
def UserRange (mem : ℕ → Page) (pagetable va n : ℕ) : Prop :=
  ∀ i < n, UserAccessible mem pagetable (va + i)

/-- The byte user code sees at `va`, if it may use it. -/
def userByte (mem : ℕ → Page) (pagetable va : ℕ) : Option UInt8 :=
  if UserAccessible mem pagetable va then
    some ((mem (PTE2PA (entry mem 2 pagetable va))).byteAt (va % PGSIZE))
  else none

theorem walkLevel_false (s : PhysMem) (level pt va : ℕ) :
    walkLevel false level pt va s = .ok (find s.mem level pt va, s) := by
  induction level generalizing pt with
  | zero => rfl
  | succ level ih =>
    rw [walkLevel, Prog.get_bind]
    simp only [find]
    split
    · exact ih _
    · rfl

/-- What `walkaddr` returns for an address. -/
def userPage (mem : ℕ → Page) (pagetable va : ℕ) : ℕ :=
  if UserAccessible mem pagetable va then PTE2PA (entry mem 2 pagetable va) else 0

/-- **What `walkaddr` finds**: the page of the entry, if user code may use it. -/
theorem walkaddr_eq (s : PhysMem) (pt va : ℕ) :
    walkaddr pt va s = .ok (userPage s.mem pt va, s) := by
  have hnone : ¬ UserAccessible s.mem pt va →
      (pure 0 : MemProg ℕ) s = .ok (userPage s.mem pt va, s) :=
    fun h => by rw [userPage, if_neg h]; rfl
  unfold walkaddr
  split <;> rename_i hlt
  · exact hnone fun h => absurd h.1 (Nat.not_lt_of_le hlt)
  · unfold walk
    rw [if_neg hlt, Prog.bind_of_ok (walkLevel_false s 2 pt _)]
    cases hfind : find s.mem 2 pt va with
    | none =>
      refine hnone fun h => ?_
      have hentry : entry s.mem 2 pt va = 0 := by rw [entry, hfind]
      exact absurd (hentry ▸ h.2.1) (by decide)
    | some r =>
      have hentry : entry s.mem 2 pt va = pteAt s.mem r.table r.slot := by
        rw [entry, hfind]
      show (Prog.get >>= _) s = _
      rw [Prog.get_bind]
      split <;> rename_i hvalid
      · exact hnone fun h => hvalid (hentry ▸ h.2.1)
      · split <;> rename_i huser
        · exact hnone fun h => h.2.2 (hentry ▸ huser)
        · rw [userPage,
            if_pos ⟨Nat.lt_of_not_le hlt, hentry ▸ not_not.mp hvalid, hentry ▸ huser⟩, hentry]
          rfl

/-- Copy the bytes of `src` to the user address `dstva`. -/
def copyout (pagetable dstva : ℕ) : List UInt8 → MemProg ℤ
  | [] => pure 0
  | b :: rest => do
    let src := b :: rest
    let va0 := PGROUNDDOWN dstva
    let pa0 ← walkaddr pagetable va0
    if pa0 = 0 then pure (-1)
    else do
      let n := min (PGSIZE - (dstva - va0)) src.length
      Prog.modify fun s => s.store pa0 ((s.mem pa0).blit (dstva - va0) (src.take n))
      copyout pagetable (u64 (va0 + PGSIZE)) (src.drop n)
termination_by src => src.length
decreasing_by
  -- a round copies at least one byte
  have hpage : dstva - PGROUNDDOWN dstva < PGSIZE := by
    unfold PGROUNDDOWN PGSIZE
    omega
  rw [List.length_drop, List.length_cons]
  omega

theorem copyout_nil (pt dstva : ℕ) : copyout pt dstva [] = pure 0 := by
  rw [copyout]

/-- Copy `len` bytes from the user address `srcva`: the bytes copied, and 0 if
these are all. -/
def copyin (pagetable srcva len : ℕ) : MemProg (List UInt8 × ℤ) :=
  if len = 0 then pure ([], 0)
  else do
    let va0 := PGROUNDDOWN srcva
    let pa0 ← walkaddr pagetable va0
    if pa0 = 0 then pure ([], -1)
    else do
      let n := min (PGSIZE - (srcva - va0)) len
      let s ← Prog.get
      let bytes := (List.range n).map fun i => (s.mem pa0).byteAt (srcva - va0 + i)
      let rest ← copyin pagetable (u64 (va0 + PGSIZE)) (len - n)
      pure (bytes ++ rest.1, rest.2)
termination_by len
decreasing_by
  -- a round copies at least one byte
  have hpage : srcva - PGROUNDDOWN srcva < PGSIZE := by
    unfold PGROUNDDOWN PGSIZE
    omega
  omega

/-- From a page that user code may use its part is copied, and then the rest. -/
theorem copyin_of_accessible {s : PhysMem} {pt srcva len : ℕ} (hlen : len ≠ 0)
    (h : userPage s.mem pt (PGROUNDDOWN srcva) ≠ 0) :
    copyin pt srcva len s
      = (copyin pt (u64 (PGROUNDDOWN srcva + PGSIZE))
          (len - min (PGSIZE - (srcva - PGROUNDDOWN srcva)) len) >>= fun rest =>
        pure ((List.range (min (PGSIZE - (srcva - PGROUNDDOWN srcva)) len)).map (fun i =>
          (s.mem (userPage s.mem pt (PGROUNDDOWN srcva))).byteAt
            (srcva - PGROUNDDOWN srcva + i)) ++ rest.1, rest.2)) s := by
  rw [copyin, if_neg hlen, Prog.bind_of_ok (walkaddr_eq s pt _), if_neg h]
  rfl

theorem copyin_of_not_accessible {s : PhysMem} {pt srcva len : ℕ} (hlen : len ≠ 0)
    (h : ¬ UserAccessible s.mem pt (PGROUNDDOWN srcva)) :
    copyin pt srcva len s = .ok (([], -1), s) := by
  rw [copyin, if_neg hlen, Prog.bind_of_ok (walkaddr_eq s pt _), userPage, if_neg h]
  rfl

end Xv6
