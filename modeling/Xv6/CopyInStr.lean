import Xv6.Proc
import Xv6.UserCopy

/-!
# Strings from user memory

`copyinstr` copies a string from user memory to a buffer of the kernel, and gives up after
`max` bytes or at a byte that it cannot read. `StringAt` is what it looks for: `n` bytes that
are not zero, and a zero. There is at most one such `n`, so the call finds the string or there
is none within `max` bytes (`CopiesString`).

A byte can be read for user code if `walkaddr` finds its page (`UserReadable`), which is the case
for the valid pages with `PTE_U`, except one at physical address 0.
-/

open List
open Prog hiding get modify panic result

namespace Xv6

/-! ## The code -/

/-- The inner loop of `copyinstr`: copy up to `n` bytes of a page, until a zero. It
returns the bytes that it stored, and whether it got the zero. -/
def copyinstrPage (page : Page) : ℕ → ℕ → List UInt8 × Bool
  | 0, _ => ([], false)
  | n + 1, off =>
    if page.byteAt off = 0 then ([0], true)
    else
      let rest := copyinstrPage page n (off + 1)
      (page.byteAt off :: rest.1, rest.2)

/-- Copy a string from the user address `srcva`, of at most `max` bytes with its zero: the
bytes stored at `dst`, and 0 if they are a string. -/
def copyinstr (pagetable srcva max : ℕ) : MemProg (List UInt8 × ℤ) :=
  if max = 0 then pure ([], -1)
  else do
    let va0 := PGROUNDDOWN srcva
    let pa0 ← walkaddr pagetable va0
    if pa0 = 0 then pure ([], -1)
    else do
      let n := min (PGSIZE - (srcva - va0)) max
      let s ← Prog.get
      let bytes := copyinstrPage (s.mem pa0) n (srcva - va0)
      if bytes.2 then pure (bytes.1, 0)
      else do
        let rest ← copyinstr pagetable (u64 (va0 + PGSIZE)) (max - n)
        pure (bytes.1 ++ rest.1, rest.2)
termination_by max
decreasing_by
  -- a round copies at least one byte
  have hpage : srcva - PGROUNDDOWN srcva < PGSIZE := by
    unfold PGROUNDDOWN PGSIZE
    omega
  omega

/-- The length of the string at the beginning of a buffer, an `int`. -/
def strlen (s : List UInt8) : ℤ := int32 ((s.takeWhile (· ≠ 0)).length % 2 ^ 32)

/-- Fetch the string at `addr` of process `p`: what is stored in the buffer, and the length, or -1.
The `int` that is the size of the buffer is converted to a `uint64`. -/
def fetchstr (p : Fin NPROC) (addr : ℕ) (max : ℤ) : KernelProg (List UInt8 × ℤ) := do
  let k ← Prog.get
  let res ← Kernel.onMem (copyinstr (k.pagetableOf p) addr (max % 2 ^ 64).toNat)
  if res.2 < 0 then pure res
  else pure (res.1, strlen res.1)

/-- The register with the `n`-th argument of a system call. -/
def argraw (p : Fin NPROC) (n : ℕ) : KernelProg ℕ := do
  let k ← Prog.get
  match n with
  | 0 => pure (k.proc p).regs.a0
  | 1 => pure (k.proc p).regs.a1
  | 2 => pure (k.proc p).regs.a2
  | 3 => pure (k.proc p).regs.a3
  | 4 => pure (k.proc p).regs.a4
  | 5 => pure (k.proc p).regs.a5
  | _ => Prog.panic .argraw

/-- The string that is the `n`-th argument of a system call. -/
def argstr (p : Fin NPROC) (n : ℕ) (max : ℤ) : KernelProg (List UInt8 × ℤ) := do
  let addr ← argraw p n
  fetchstr p addr max

/-! ## Strings -/

/-- A byte that can be read for user code. -/
def UserReadable (mem : ℕ → Page) (pagetable va : ℕ) : Prop := userPage mem pagetable va ≠ 0

/-- The byte there. -/
def readByte (mem : ℕ → Page) (pagetable va : ℕ) : UInt8 :=
  (mem (userPage mem pagetable va)).byteAt (va % PGSIZE)

/-- **A string of `n` bytes** and a zero, which can all be read. -/
structure StringAt (mem : ℕ → Page) (pagetable va n : ℕ) : Prop where
  readable : ∀ i ≤ n, UserReadable mem pagetable (va + i)
  zero : readByte mem pagetable (va + n) = 0
  nonzero : ∀ i < n, readByte mem pagetable (va + i) ≠ 0

/-- The bytes of a range. -/
def readBytes (mem : ℕ → Page) (pagetable va n : ℕ) : List UInt8 :=
  (range n).map fun i => readByte mem pagetable (va + i)

/-- **The string is copied, with its zero, if there is one that is short enough.** -/
def CopiesString (mem : ℕ → Page) (pagetable va max : ℕ) (bytes : List UInt8) (r : ℤ) : Prop :=
  (∃ n < max, StringAt mem pagetable va n ∧ r = 0 ∧ bytes = readBytes mem pagetable va (n + 1))
  ∨ (∀ n < max, ¬ StringAt mem pagetable va n) ∧ r = -1 ∧ bytes.length ≤ max

section

variable {mem : ℕ → Page} {pt va n m max : ℕ} {bytes : List UInt8} {r : ℤ}

theorem StringAt.unique (h : StringAt mem pt va n) (h' : StringAt mem pt va m) :
    n = m := by
  rcases lt_trichotomy n m with hlt | heq | hlt
  · exact absurd h.zero (h'.nonzero n hlt)
  · exact heq
  · exact absurd h'.zero (h.nonzero m hlt)

theorem length_readBytes (mem : ℕ → Page) (pt va n : ℕ) :
    (readBytes mem pt va n).length = n := by
  unfold readBytes
  rw [length_map, length_range]

theorem readBytes_add (mem : ℕ → Page) (pt va m n : ℕ) :
    readBytes mem pt va (m + n)
      = readBytes mem pt va m ++ readBytes mem pt (va + m) n := by
  unfold readBytes
  rw [range_add, map_append, map_map]
  simp only [Function.comp_def, Nat.add_assoc]

/-- The inner loop, up to a zero or to the end. -/
theorem copyinstrPage_spec (page : Page) (n off : ℕ) :
    (∃ j < n, page.byteAt (off + j) = 0 ∧ (∀ i < j, page.byteAt (off + i) ≠ 0)
      ∧ copyinstrPage page n off = ((range (j + 1)).map fun i => page.byteAt (off + i), true))
    ∨ (∀ i < n, page.byteAt (off + i) ≠ 0)
      ∧ copyinstrPage page n off = ((range n).map fun i => page.byteAt (off + i), false) := by
  induction n generalizing off with
  | zero => exact .inr ⟨fun i hi => absurd hi (Nat.not_lt_zero i), rfl⟩
  | succ n ih =>
    unfold copyinstrPage
    by_cases hzero : page.byteAt off = 0
    · rw [if_pos hzero]
      refine .inl ⟨0, Nat.succ_pos n, hzero, fun i hi => absurd hi (Nat.not_lt_zero i), ?_⟩
      rw [range_one, map_singleton, Nat.add_zero, hzero]
    · -- the bytes behind the first one, counted from it
      have hshift : ∀ m, page.byteAt off :: (range m).map (fun i => page.byteAt (off + 1 + i))
          = (range (m + 1)).map fun i => page.byteAt (off + i) := by
        intro m
        rw [range_succ_eq_map, map_cons, map_map]
        exact congrArg _ (map_congr_left fun i _ =>
          congrArg page.byteAt (show off + 1 + i = off + (i + 1) by omega))
      have hnz : ∀ j, (∀ i < j, page.byteAt (off + 1 + i) ≠ 0) →
          ∀ i < j + 1, page.byteAt (off + i) ≠ 0 := by
        intro j h i hi
        cases i with
        | zero => exact hzero
        | succ i =>
          rw [Nat.add_comm i 1, ← Nat.add_assoc]
          exact h i (by omega)
      rw [if_neg hzero]
      show _ ∨ _ ∧ (page.byteAt off :: (copyinstrPage page n (off + 1)).1,
        (copyinstrPage page n (off + 1)).2) = _
      obtain ⟨j, hj, hz, hb, heq⟩ | ⟨hb, heq⟩ := ih (off + 1)
      · refine .inl ⟨j + 1, by omega, ?_, hnz j hb, ?_⟩
        · rwa [Nat.add_comm j 1, ← Nat.add_assoc]
        · show (page.byteAt off :: (copyinstrPage page n (off + 1)).1,
            (copyinstrPage page n (off + 1)).2) = _
          rw [heq, hshift]
      · exact .inr ⟨hnz n hb, by rw [heq, hshift]⟩

theorem accessible_of_readable (h : UserReadable mem pt va) :
    UserAccessible mem pt va :=
  by_contra fun hnot => h (if_neg hnot)

theorem readable_page (h : UserReadable mem pt va) {i : ℕ} (hi : va % PGSIZE + i < PGSIZE) :
    UserReadable mem pt (va + i) ∧ readByte mem pt (va + i)
      = (mem (userPage mem pt va)).byteAt (va % PGSIZE + i) := by
  have hdiv : (va + i) / PGSIZE = va / PGSIZE := by
    unfold PGSIZE at *
    omega
  have hmod : (va + i) % PGSIZE = va % PGSIZE + i := by
    unfold PGSIZE at *
    omega
  have hsame := (userPage_of_div_eq (accessible_of_readable h) hdiv).2
  unfold UserReadable readByte
  rw [hsame, hmod]
  exact ⟨h, rfl⟩

theorem readBytes_page (h : UserReadable mem pt va) (hn : va % PGSIZE + n ≤ PGSIZE) :
    readBytes mem pt va n = (range n).map fun i =>
      (mem (userPage mem pt va)).byteAt (va % PGSIZE + i) := by
  refine map_congr_left fun i hi => (readable_page h ?_).2
  have hlt := mem_range.mp hi
  omega

/-- **A page without a zero**, and then what is behind it. -/
theorem CopiesString.page (hva : UserReadable mem pt va)
    (hm : m = min (PGSIZE - va % PGSIZE) max)
    (hnz : ∀ i < m, readByte mem pt (va + i) ≠ 0)
    (h : CopiesString mem pt (PGROUNDDOWN va + PGSIZE) (max - m) bytes r) :
    CopiesString mem pt va max (readBytes mem pt va m ++ bytes) r := by
  have hge : ∀ n, StringAt mem pt va n → m ≤ n := fun n hn =>
    Nat.le_of_not_lt fun hlt => hnz n hlt hn.zero
  rcases Nat.lt_or_ge m max with hlt | hmax
  · have hnext : PGROUNDDOWN va + PGSIZE = va + m := by
      unfold PGROUNDDOWN PGSIZE at *
      omega
    rw [hnext] at h
    obtain ⟨n, hn, hstring, hr, rfl⟩ | ⟨hnone, hr, hlen⟩ := h
    · refine .inl ⟨m + n, by omega, ⟨fun i hi => ?_, ?_, fun i hi => ?_⟩, hr, ?_⟩
      · rcases Nat.lt_or_ge i m with him | him
        · exact (readable_page hva (by omega)).1
        · have hread := hstring.readable (i - m) (by omega)
          rwa [show va + m + (i - m) = va + i by omega] at hread
      · rw [← Nat.add_assoc]
        exact hstring.zero
      · rcases Nat.lt_or_ge i m with him | him
        · exact hnz i him
        · have hne := hstring.nonzero (i - m) (by omega)
          rwa [show va + m + (i - m) = va + i by omega] at hne
      · rw [Nat.add_assoc m n 1, readBytes_add mem pt va m]
    · refine .inr ⟨fun n hn hstring => ?_, hr, ?_⟩
      · have hmn := hge n hstring
        refine hnone (n - m) (by omega) ⟨fun i hi => ?_, ?_, fun i hi => ?_⟩
        · rw [Nat.add_assoc]
          exact hstring.readable _ (by omega)
        · rw [show va + m + (n - m) = va + n by omega]
          exact hstring.zero
        · rw [Nat.add_assoc]
          exact hstring.nonzero _ (by omega)
      · rw [length_append, length_readBytes]
        omega
  · -- the buffer is full
    obtain ⟨n, hn, -⟩ | ⟨-, hr, hlen⟩ := h
    · omega
    · refine .inr ⟨fun n hn hstring => ?_, hr, ?_⟩
      · have hmn := hge n hstring
        omega
      · rw [length_append, length_readBytes]
        omega

/-- One round of `copyinstr`. -/
theorem copyinstr_page {s : PhysMem} (hmax : max ≠ 0) (hva : UserReadable s.mem pt va)
    (hm : m = min (PGSIZE - va % PGSIZE) max) {got_null : Bool}
    (hpage : copyinstrPage (s.mem (userPage s.mem pt va)) m (va % PGSIZE)
      = (bytes, got_null)) :
    copyinstr pt va max s = (if got_null then pure (bytes, 0) else do
      let rest ← copyinstr pt (PGROUNDDOWN va + PGSIZE) (max - m)
      pure (bytes ++ rest.1, rest.2) : MemProg (List UInt8 × ℤ)) s := by
  rw [copyinstr, if_neg hmax, bind_of_ok (walkaddr_eq s pt _), userPage_page,
    if_neg hva, get_bind, sub_PGROUNDDOWN, u64_next (accessible_of_readable hva), ← hm, hpage]

/-- **`copyinstr`** copies the string, and changes nothing. -/
theorem copyinstr_spec (s : PhysMem) (pt va max : ℕ) :
    ∃ bytes r, copyinstr pt va max s = .ok ((bytes, r), s)
      ∧ CopiesString s.mem pt va max bytes r := by
  induction max using Nat.strong_induction_on generalizing va with
  | _ max ih =>
    by_cases hmax : max = 0
    · subst hmax
      refine ⟨[], -1, ?_, .inr ⟨fun n hn => absurd hn (Nat.not_lt_zero n), rfl, le_rfl⟩⟩
      rw [copyinstr, if_pos rfl]
      rfl
    · by_cases hva : UserReadable s.mem pt va
      · have hmod := Nat.mod_lt va (show 0 < PGSIZE by decide)
        obtain ⟨m, hm⟩ : ∃ m, m = min (PGSIZE - va % PGSIZE) max := ⟨_, rfl⟩
        obtain ⟨j, hj, hzero, hnz, hpage⟩ | ⟨hnz, hpage⟩ :=
          copyinstrPage_spec (s.mem (userPage s.mem pt va)) m (va % PGSIZE)
        · rw [← readBytes_page hva (by omega)] at hpage
          refine ⟨_, 0, copyinstr_page hmax hva hm hpage,
            .inl ⟨j, by omega, ⟨fun i hi => ?_, ?_, fun i hi => ?_⟩, rfl, rfl⟩⟩
          · exact (readable_page hva (by omega)).1
          · rwa [(readable_page hva (by omega)).2]
          · rw [(readable_page hva (by omega)).2]
            exact hnz i hi
        · rw [← readBytes_page hva (by omega)] at hpage
          obtain ⟨bytes, r, hrest, hcopies⟩ := ih (max - m) (by omega) (PGROUNDDOWN va + PGSIZE)
          refine ⟨_, r, (copyinstr_page hmax hva hm hpage).trans (bind_of_ok hrest),
            .page hva hm (fun i hi => ?_) hcopies⟩
          rw [(readable_page hva (by omega)).2]
          exact hnz i hi
      · refine ⟨[], -1, ?_, .inr ⟨fun n _ hstring => hva (hstring.readable 0 (Nat.zero_le n)), rfl,
          Nat.zero_le _⟩⟩
        rw [copyinstr, if_neg hmax, bind_of_ok (walkaddr_eq s pt _), userPage_page,
          if_pos (of_not_not hva)]
        rfl

/-- The string in a buffer that it was copied to. -/
theorem strlen_readBytes (h : StringAt mem pt va n) (hn : n < 2 ^ 31) :
    strlen (readBytes mem pt va (n + 1)) = n := by
  have htake : (readBytes mem pt va (n + 1)).takeWhile (· ≠ 0)
      = readBytes mem pt va n := by
    rw [readBytes_add, takeWhile_append_of_pos fun b hb => ?_]
    · unfold readBytes
      rw [range_one, map_singleton, Nat.add_zero, h.zero]
      simp
    · obtain ⟨i, hi, rfl⟩ := mem_map.mp hb
      exact decide_eq_true (h.nonzero i (mem_range.mp hi))
  unfold strlen
  rw [htake, length_readBytes, Nat.mod_eq_of_lt (by omega)]
  exact if_pos hn

/-- **`fetchstr`** returns the length of the string, or -1. -/
theorem fetchstr_spec (k : Kernel) (p : Fin NPROC) (addr : ℕ) (max : ℤ) :
    (∀ n < (max % 2 ^ 64).toNat, n < 2 ^ 31 → StringAt k.mem.mem (k.pagetableOf p) addr n →
      fetchstr p addr max k
        = .ok ((readBytes k.mem.mem (k.pagetableOf p) addr (n + 1), (n : ℤ)), k))
    ∧ ((∀ n < (max % 2 ^ 64).toNat, ¬ StringAt k.mem.mem (k.pagetableOf p) addr n) →
      ∃ bytes, fetchstr p addr max k = .ok ((bytes, -1), k)
        ∧ bytes.length ≤ (max % 2 ^ 64).toNat) := by
  obtain ⟨bytes, r, hrun, hcopies⟩ :=
    copyinstr_spec k.mem (k.pagetableOf p) addr (max % 2 ^ 64).toNat
  have hfetch : fetchstr p addr max k = (if r < 0 then pure (bytes, r)
      else pure (bytes, strlen bytes) : KernelProg (List UInt8 × ℤ)) k := by
    unfold fetchstr
    rw [get_bind, bind_of_ok (Kernel.onMem_ok.mpr ⟨k.mem, hrun, rfl⟩)]
  rw [hfetch]
  obtain ⟨m, hm, hstring, rfl, rfl⟩ | ⟨hnone, rfl, hlen⟩ := hcopies
  · refine ⟨fun n _ hn h => ?_, fun h => absurd hstring (h m hm)⟩
    obtain rfl := hstring.unique h
    rw [if_neg (lt_irrefl 0), strlen_readBytes hstring hn]
    rfl
  · exact ⟨fun n hn _ h => absurd h (hnone n hn), fun _ => ⟨bytes, rfl, hlen⟩⟩

end

/-- The registers of the arguments of a system call. -/
def argReg (regs : Trapframe) : Fin 6 → ℕ :=
  ![regs.a0, regs.a1, regs.a2, regs.a3, regs.a4, regs.a5]

theorem argstr_eq (k : Kernel) (p : Fin NPROC) (i : Fin 6) (max : ℤ) :
    argstr p i max k = fetchstr p (argReg (k.proc p).regs i) max k := by
  fin_cases i <;> rfl

/-- **`copyinstr` copies exactly one bounded string.** It returns 0 exactly if there is a string
of fewer than `max` bytes, all readable, and has stored this string with its zero then; it stores
never more than `max` bytes. `fetchstr` and `argstr` return the length of the string. -/
theorem copyinstr_exact :
    (∀ (s : PhysMem) (pagetable va max : ℕ), ∃ bytes r,
      copyinstr pagetable va max s = .ok ((bytes, r), s) ∧ bytes.length ≤ max
      ∧ (r = 0 ∨ r = -1) ∧ (r = 0 ↔ ∃ n < max, StringAt s.mem pagetable va n)
      ∧ ∀ n < max, StringAt s.mem pagetable va n → bytes = readBytes s.mem pagetable va (n + 1))
    ∧ ∀ (k : Kernel) (p : Fin NPROC) (addr : ℕ) (max : ℤ),
      (∀ n < (max % 2 ^ 64).toNat, n < 2 ^ 31 → StringAt k.mem.mem (k.pagetableOf p) addr n →
        fetchstr p addr max k
          = .ok ((readBytes k.mem.mem (k.pagetableOf p) addr (n + 1), (n : ℤ)), k)
        ∧ ∀ i : Fin 6, argReg (k.proc p).regs i = addr → argstr p i max k
          = .ok ((readBytes k.mem.mem (k.pagetableOf p) addr (n + 1), (n : ℤ)), k))
      ∧ ((∀ n < (max % 2 ^ 64).toNat, ¬ StringAt k.mem.mem (k.pagetableOf p) addr n) →
        ∃ bytes, fetchstr p addr max k = .ok ((bytes, -1), k)
          ∧ bytes.length ≤ (max % 2 ^ 64).toNat
          ∧ ∀ i : Fin 6, argReg (k.proc p).regs i = addr →
            argstr p i max k = .ok ((bytes, -1), k)) := by
  refine ⟨fun s pagetable va max => ?_, fun k p addr max => ?_⟩
  · obtain ⟨bytes, r, hrun, hcopies⟩ := copyinstr_spec s pagetable va max
    refine ⟨bytes, r, hrun, ?_⟩
    obtain ⟨n, hn, hstring, rfl, rfl⟩ | ⟨hnone, rfl, hlen⟩ := hcopies
    · refine ⟨by rw [length_readBytes]; omega, .inl rfl, iff_of_true rfl ⟨n, hn, hstring⟩,
        fun m _ hm => ?_⟩
      rw [hstring.unique hm]
    · exact ⟨hlen, .inr rfl, iff_of_false (by decide) fun ⟨n, hn, h⟩ => hnone n hn h,
        fun n hn h => absurd h (hnone n hn)⟩
  · obtain ⟨hfound, hnone⟩ := fetchstr_spec k p addr max
    refine ⟨fun n hn hlt h => ⟨hfound n hn hlt h, fun i hi => ?_⟩, fun h => ?_⟩
    · rw [argstr_eq, hi]
      exact hfound n hn hlt h
    · obtain ⟨bytes, hrun, hlen⟩ := hnone h
      refine ⟨bytes, hrun, hlen, fun i hi => ?_⟩
      rw [argstr_eq, hi]
      exact hrun

/-- The string `ab` in user memory. -/
theorem copyinstr_exact_ab : ∃ (s : PhysMem) (pagetable : ℕ),
    copyinstr pagetable 0 10 s = .ok (([97, 98, 0], 0), s)
    ∧ ∃ n < 10, StringAt s.mem pagetable 0 n := by
  let _ := sampleImage
  obtain ⟨s', hrun⟩ := exists_of_result (s := sampleMemory) (a := ([97, 98, 0], 0)) (m := do
    let _ ← makePage 0x80200000 (PTE_R ||| PTE_W ||| PTE_U)
    let _ ← copyout 0x80100000 0 [97, 98, 0]
    copyinstr 0x80100000 0 10) (by decide +kernel)
  obtain ⟨_, s₁, -, hrun⟩ := bind_ok.mp hrun
  obtain ⟨_, s, -, hrun⟩ := bind_ok.mp hrun
  obtain ⟨bytes, r, hcopy, -, -, hiff, -⟩ := copyinstr_exact.1 s 0x80100000 0 10
  obtain ⟨hval, rfl⟩ := Prod.mk.inj (Except.ok.inj (hrun.symm.trans hcopy))
  cases hval
  exact ⟨s', _, hcopy, hiff.mp rfl⟩

end Xv6
