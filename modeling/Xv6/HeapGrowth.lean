import Xv6.HeapRuns
import Xv6.Sbrk

/-!
# The memory that `malloc` obtains

`morecore` asks `sbrk` for the bytes of the units it needs. It computes them in 64 bits, and the
call passes an `int`: a request of 2²⁸ + 1 units is passed as 16 bytes, which the kernel
grants, while the header says 2²⁸ + 1 units. For the requests whose size is a positive `int`, the
process has grown by what the header says (`malloc_obtains_enough`).
-/

namespace Xv6

section

variable [KernelImage] {k : Kernel} {p : Fin NPROC} {n : ℤ}

/-- `sys_sbrk` -/
def sys_sbrk (p : Fin NPROC) (n : ℤ) : KernelProg ℕ := do
  let k ← Prog.get
  let addr := int32 ((k.proc p).sz % 2 ^ 32)
  let r ← growproc p n
  if r < 0 then pure (2 ^ 64 - 1)
  else pure (addr % 2 ^ 64).toNat

/-- `char* sbrk(int)`, with the number of bytes before it is made an `int`. -/
def sbrk (p : Fin NPROC) (bytes : ℕ) : KernelProg ℕ := sys_sbrk p (int32 (bytes % 2 ^ 32))

theorem sys_sbrk_ok {r : ℤ} {k' : Kernel} (hsz : (k.proc p).sz ≤ 2 ^ 27)
    (hrun : growproc p n k = .ok (r, k')) :
    sys_sbrk p n k = .ok (if r < 0 then 2 ^ 64 - 1 else (k.proc p).sz, k') := by
  have haddr : (int32 ((k.proc p).sz % 2 ^ 32) % 2 ^ 64).toNat = (k.proc p).sz := by
    unfold int32
    omega
  unfold sys_sbrk
  rw [Prog.get_bind, Prog.bind_of_ok hrun, haddr]
  split <;> rfl

/-- **A positive increment** is granted from the size of the process on, or it is refused. -/
theorem Kernel.HasSpace.sbrk_ends {bytes : ℕ} (h : k.HasSpace p) (hpos : 0 < bytes)
    (hlt : bytes < 2 ^ 31) :
    (sbrk p bytes).Ends k (fun _ => False) fun r k' => k'.HasSpace p
      ∧ (r = 2 ^ 64 - 1 ∧ (k'.proc p).sz = (k.proc p).sz
        ∨ r = (k.proc p).sz ∧ (k'.proc p).sz = (k.proc p).sz + bytes) := by
  have hint : int32 (bytes % 2 ^ 32) = bytes := by
    unfold int32
    omega
  unfold sbrk
  rw [hint]
  have hsz : (((k.proc p).sz + bytes : ℕ) : ℤ) = (k.proc p).sz + bytes := Nat.cast_add _ _
  obtain ⟨mem, ⟨hrun, hres⟩ | ⟨hrun, hres⟩⟩ := growproc_grows h (by omega) (by omega) hsz
  · refine Prog.ends_of_ok (sys_sbrk_ok h.sz_le hrun) ⟨?_, .inl ⟨rfl, rfl⟩⟩
    rw [← Kernel.resized_same k p mem]
    exact h.of_resized hres
  · exact Prog.ends_of_ok (sys_sbrk_ok h.sz_le hrun)
      ⟨h.of_resized hres, .inr ⟨rfl, Kernel.resized_sz _ _ _ _⟩⟩

/-- **`sbrk` returns** for every number: -1, or the size that the process had. -/
theorem Kernel.HasSpace.sbrk_returns (h : k.HasSpace p) (bytes : ℕ) :
    ∃ r k', sbrk p bytes k = .ok (r, k') ∧ (r = 2 ^ 64 - 1 ∨ r = (k.proc p).sz) := by
  have hint : -2 ^ 31 ≤ int32 (bytes % 2 ^ 32) ∧ int32 (bytes % 2 ^ 32) < 2 ^ 31 := by
    unfold int32
    omega
  obtain ⟨r, k', hrun⟩ : ∃ r k', growproc p (int32 (bytes % 2 ^ 32)) k = .ok (r, k') := by
    by_cases hneg : (k.proc p).sz + int32 (bytes % 2 ^ 32) < 0
    · exact ⟨_, _, growproc_of_negative h hint.1 hneg⟩
    · obtain ⟨r, k', hrun, -⟩ := growsExactly_of_nonneg h hint.2 (by omega)
      exact ⟨r, k', hrun⟩
  refine ⟨_, k', sys_sbrk_ok h.sz_le hrun, ?_⟩
  split_ifs
  · exact .inl rfl
  · exact .inr rfl

end

namespace Umalloc

open Spans

/-- **What `malloc` is meant to obtain**: if no free block fits, it returns 0 or the process has
grown by the units that the new header records; what it returns is memory of the process; and it
returns 0 if it would have to ask for a size that is not a positive `int`. -/
structure EnoughMemory (p : Fin NPROC) (k k' : Kernel) (L : List Block) (nbytes r : ℕ) : Prop where
  grew : (∀ c ∈ L, c.size < nunits nbytes) → r ≠ 0 →
    (k.proc p).sz + headerSize * coreUnits (nunits nbytes) ≤ (k'.proc p).sz
  usable : r ≠ 0 → r + nbytes ≤ (k'.proc p).sz
  refused : (∀ c ∈ L, c.size < nunits nbytes) →
    ¬ coreUnits (nunits nbytes) * headerSize < 2 ^ 31 → r = 0

section

variable [KernelImage] {p : Fin NPROC} {base : ℕ} {h : Heap Kernel} {L live : List Block}
  {S : Set ℕ}

/-- `sbrk` answers as the allocator assumes, for every request of `malloc`. -/
theorem sbrk_answers {bytes : ℕ} (hspace : h.sys.HasSpace p)
    (hbase : base + headerSize ≤ (h.sys.proc p).sz) (hS : ∀ x ∈ S, x < (h.sys.proc p).sz)
    (hlt : bytes < 2 ^ 33) :
    (sbrk p bytes).Ends h.sys (fun _ => False) fun r k =>
      Fresh base S r ∧ (obtained S bytes r).encard < 2 ^ 36
      ∧ sbrk p bytes h.sys = .ok (r, k) ∧ (r = minusOne ∨ r = (h.sys.proc p).sz) := by
  obtain ⟨r, k, hrun, hr⟩ := hspace.sbrk_returns bytes
  refine Prog.ends_of_ok hrun ⟨?_, ?_, hrun, hr⟩
  · rcases hr with rfl | rfl
    · exact fun hne => absurd rfl hne
    · exact fun _ => ⟨hbase, hS⟩
  · have hsub : obtained S bytes r ⊆ ↑(Finset.range ((h.sys.proc p).sz + bytes)) := by
      unfold obtained
      intro x hx
      refine Finset.mem_coe.mpr (Finset.mem_range.mpr ?_)
      split_ifs at hx with hne
      · exact Nat.lt_add_right _ (hS x hx)
      · obtain rfl := hr.resolve_left hne
        rcases hx with hx | hx
        · exact hx.2
        · exact Nat.lt_add_right _ (hS x hx)
    refine (Set.encard_le_encard hsub).trans_lt ?_
    have hle := hspace.sz_le
    rw [Set.encard_coe_eq_coe_finsetCard, Finset.card_range]
    exact_mod_cast (by omega : (h.sys.proc p).sz + bytes < 2 ^ 36)

/-- What a request of `malloc` to `sbrk` leaves, if its size is a positive `int`. -/
theorem below_of_sbrk {bytes r : ℕ} {k : Kernel} (hspace : h.sys.HasSpace p)
    (hS : ∀ x ∈ S, x < (h.sys.proc p).sz) (hpos : 0 < bytes) (hlt : bytes < 2 ^ 31)
    (hrun : sbrk p bytes h.sys = .ok (r, k)) :
    k.HasSpace p ∧ (r ≠ minusOne → (k.proc p).sz = (h.sys.proc p).sz + bytes)
      ∧ ∀ x ∈ obtained S bytes r, x < (k.proc p).sz := by
  obtain ⟨hspace', ⟨rfl, hsz⟩ | ⟨rfl, hsz⟩⟩ := (hspace.sbrk_ends hpos hlt).of_ok hrun
  · refine ⟨hspace', fun hne => absurd rfl hne, ?_⟩
    rw [hsz]
    exact (obtained_refused S bytes).symm ▸ hS
  · have hle := hspace.sz_le
    refine ⟨hspace', fun _ => hsz, ?_⟩
    unfold obtained
    rw [if_neg (by unfold minusOne; omega), hsz]
    rintro x (hx | hx)
    · exact hx.2
    · exact Nat.lt_add_right _ (hS x hx)

omit [KernelImage] in
/-- The last byte of a block is memory that was obtained. -/
theorem HeapInv.stop_le (hi : HeapInv base h L live S) {n : ℕ} (hS : ∀ x ∈ S, x < n) {c : Block}
    (hc : c ∈ L ++ live) : c.stop ≤ n := by
  have hlt := c.addr_lt_stop
  have hlast := hS _ (hi.span_subset hc (show c.stop - 1 ∈ c.span.points from
    ⟨show c.addr ≤ _ by omega, show _ < c.stop by omega⟩))
  omega

omit [KernelImage] in
theorem Returned.block {nbytes : UInt32} {r : ℕ}
    (hret : Returned base S live (nunits nbytes.toNat) r h) (hr : r ≠ 0) :
    ∃ d L', r = d.addr + headerSize ∧ r + nbytes.toNat ≤ d.stop
      ∧ HeapInv base h L' (d :: live) S := by
  obtain ⟨rfl, -⟩ | ⟨d, L', rfl, hd, hi'⟩ := hret
  · exact absurd rfl hr
  · have hle := le_nunits nbytes.toNat_lt
    refine ⟨d, L', rfl, ?_, hi'⟩
    show d.addr + headerSize + nbytes.toNat ≤ d.addr + headerSize * d.size
    rw [hd]
    omega

/-- **Which requests of `malloc` obtain what its headers say**: those of up to 2³¹ - 32 bytes, and
those for which the kernel refuses what an `int` keeps of the size. `malloc` returns for all. -/
theorem malloc_obtains_enough (nbytes : UInt32) (hbase : 0 < base) (hspace : h.sys.HasSpace p)
    (hheader : base + headerSize ≤ (h.sys.proc p).sz)
    (hi : HeapInv base (h.start base) L live S) (hS : ∀ x ∈ S, x < (h.sys.proc p).sz) :
    ∃ bound, ∀ fuel ≥ bound, ∃ r h', malloc base (sbrk p) fuel nbytes.toNat h = .ok (r, h')
      ∧ (EnoughMemory p h.sys h'.sys L nbytes.toNat r ↔ nbytes.toNat ≤ 2 ^ 31 - 32
        ∨ ∃ k, sbrk p (coreUnits (nunits nbytes.toNat) * headerSize) h.sys = .ok (minusOne, k))
      ∧ (nbytes.toNat ≤ 2 ^ 31 - 32 → h'.sys.HasSpace p
        ∧ (r ≠ 0 → ∃ d L' S', r = d.addr + headerSize ∧ r + nbytes.toNat ≤ d.stop
          ∧ HeapInv base h' L' (d :: live) S' ∧ ∀ x ∈ S', x < (h'.sys.proc p).sz)) := by
  have hlt := nbytes.toNat_lt
  have hbytes : coreUnits (nunits nbytes.toNat) * headerSize < 2 ^ 31
      ↔ nbytes.toNat ≤ 2 ^ 31 - 32 := by
    unfold coreUnits nunits headerSize
    split_ifs <;> omega
  have hsbrk := sbrk_answers hspace hheader hS
    (show coreUnits (nunits nbytes.toNat) * headerSize < 2 ^ 33 by
      unfold coreUnits nunits headerSize
      split_ifs <;> omega)
  refine ⟨2 * L.length + 3, fun fuel hfuel => ?_⟩
  have hends := hi.malloc_ends hbase (nunits_pos hlt) (fun _ => hsbrk) hfuel
  obtain ⟨r, h', hrun, hcase⟩ := Prog.Ends.exists_ok (hends.panic_mono fun _ ⟨_, _, he⟩ => he)
  refine ⟨r, h', hrun, ?_⟩
  by_cases hn : nbytes.toNat ≤ 2 ^ 31 - 32
  · have hsmall := fun a => below_of_sbrk (r := a) (k := h'.sys) hspace hS
      (Nat.mul_pos (coreUnits_pos (nunits nbytes.toNat)) (by decide)) (hbytes.mpr hn)
    obtain ⟨S', hret, hspace', hbelow⟩ : ∃ S', Returned base S' live (nunits nbytes.toNat) r h'
        ∧ h'.sys.HasSpace p ∧ ∀ x ∈ S', x < (h'.sys.proc p).sz := by
      obtain ⟨-, -, hsys, hret⟩ | ⟨-, a, ⟨hsbrk, -⟩, -, hret⟩ := hcase
      · exact ⟨S, hret, hsys ▸ hspace, hsys ▸ hS⟩
      · exact ⟨_, hret, (hsmall a hsbrk).1, (hsmall a hsbrk).2.2⟩
    refine ⟨iff_of_true ⟨fun hnone hr => ?_, fun hr => ?_, fun _ hlarge => ?_⟩ (.inl hn),
      fun _ => ⟨hspace', fun hr => ?_⟩⟩
    · obtain ⟨⟨c, hc, hfit⟩, -⟩ | ⟨-, a, ⟨hsbrk, -⟩, ha, -⟩ := hcase
      · exact absurd hfit (not_le.mpr (hnone c hc))
      · rw [(hsmall a hsbrk).2.1 fun h => hr (ha.mp h), Nat.mul_comm]
    · obtain ⟨d, L', -, hle, hi'⟩ := hret.block hr
      exact hle.trans (hi'.stop_le hbelow (by simp))
    · exact absurd (hbytes.mpr hn) hlarge
    · obtain ⟨d, L', haddr, hle, hi'⟩ := hret.block hr
      exact ⟨d, L', S', haddr, hle, hi', hbelow⟩
  · -- no free block is that large, so that `sbrk` is called with a size that is no positive `int`
    have hnone : ∀ c ∈ L, c.size < nunits nbytes.toNat := fun c hc => by
      have hstop : c.addr + headerSize * c.size ≤ _ := hi.stop_le hS (List.mem_append_left _ hc)
      have hle := hspace.sz_le
      have hunits := le_nunits hlt
      unfold headerSize at hstop hunits
      omega
    obtain ⟨⟨c, hc, hfit⟩, -⟩ | ⟨-, a, ⟨hsbrk, -⟩, ha, -⟩ := hcase
    · exact absurd hfit (not_le.mpr (hnone c hc))
    refine ⟨⟨fun henough => .inr ⟨h'.sys, ?_⟩, fun hor => ?_⟩, fun h => absurd h hn⟩
    · rw [← ha.mpr (henough.refused hnone (hbytes.not.mpr hn))]
      exact hsbrk
    · obtain ⟨k, hk⟩ := hor.resolve_left hn
      have hr := ha.mp (Prod.mk.inj (Except.ok.inj (hsbrk.symm.trans hk))).1
      exact ⟨fun _ h => absurd hr h, fun h => absurd hr h, fun _ _ => hr⟩

end

theorem addressSpace_of_npages [KernelImage] {mem : ℕ → Page} {pt sz sz' trapframe : ℕ}
    (hspace : AddressSpace mem pt sz trapframe) (hsz : sz' ≤ TRAPFRAME)
    (hpages : npages sz' = npages sz) : AddressSpace mem pt sz' trapframe where
  wellTyped := hspace.wellTyped
  size := hsz
  user := by
    rw [hpages]
    exact hspace.user
  trampoline := hspace.trampoline
  trapframe := hspace.trapframe
  other := by
    rw [hpages]
    exact hspace.other

/-- A process whose memory ends 16 bytes before the end of its page. -/
def partialPage (s : PhysMem) : Kernel := .single s { unusedProc with
  sz := PGSIZE - 16, pagetable := some 0x80100000, trapframe := some 0x80200000 }

/-- A heap that was not used yet, in a process. -/
def unusedHeap (k : Kernel) : Heap Kernel := ⟨fun _ => ⟨0, 0⟩, 0, k⟩

/-- In such a process, `malloc(2³² - 1)` asks the kernel for the 16 bytes that are left. -/
theorem exists_partialPage : ∃ (_ : KernelImage) (s : PhysMem), (partialPage s).HasSpace 0
    ∧ Prog.Ends (malloc 1024 (sbrk 0) 10 (2 ^ 32 - 1)) (unusedHeap (partialPage s))
      (fun _ => False) fun r h' => r ≠ 0 ∧ (h'.sys.proc 0).sz = PGSIZE := by
  let _ := sampleImage
  obtain ⟨_, s, hrun, rfl, hends⟩ := Prog.Ends.exists_ok
    (m := makeSpaces 0x80200000 0x80201000) (s := sampleMemory)
    (Q := fun spaces s => spaces = (some 0x80100000, PGSIZE, some 0x80106000)
      ∧ Prog.Ends (malloc 1024 (sbrk 0) 10 (2 ^ 32 - 1)) (unusedHeap (partialPage s))
        (fun _ => False) fun r h' => r ≠ 0 ∧ (h'.sys.proc 0).sz = PGSIZE) (by decide +kernel)
  obtain ⟨hspace, -, hold⟩ := makeSpaces_spec sampleMemory_holds (by decide) (by decide) hrun
  have hpages : npages (PGSIZE - 16) = npages PGSIZE := by decide
  refine ⟨sampleImage, s,
    ⟨addressSpace_of_npages hspace (show PGSIZE - 16 ≤ TRAPFRAME by decide) hpages, ?_⟩, hends⟩
  have hold := (Pool.Holds.right hold).left
  unfold spacePages at hold
  rw [← hpages] at hold
  exact hold

/-- 100 bytes are obtained with 4096 units, or not at all. -/
theorem malloc_obtains_enough_hundred : ∃ (_ : KernelImage) (k : Kernel), k.HasSpace 0 ∧
    ∃ bound, ∀ fuel ≥ bound, ∃ r h', malloc 1024 (sbrk 0) fuel 100 (unusedHeap k) = .ok (r, h')
      ∧ EnoughMemory 0 k h'.sys [] 100 r := by
  obtain ⟨image, s, hspace, -⟩ := exists_partialPage
  have hheader : 1024 + headerSize ≤ ((partialPage s).proc 0).sz :=
    show 1024 + headerSize ≤ PGSIZE - 16 by decide
  have hsmall : (100 : UInt32).toNat ≤ 2 ^ 31 - 32 := by decide
  have hi : HeapInv 1024 ((unusedHeap (partialPage s)).start 1024) [] [] ∅ := .of_unused rfl
  obtain ⟨bound, hrun⟩ :=
    malloc_obtains_enough 100 (by decide) hspace hheader hi (fun x hx => hx.elim)
  refine ⟨image, partialPage s, hspace, bound, fun fuel hfuel => ?_⟩
  obtain ⟨r, h', hrun, henough, -⟩ := hrun fuel hfuel
  exact ⟨r, h', hrun, henough.mpr (.inl hsmall)⟩

/-- **`malloc(2³² - 1)` returns a pointer**, while the process has grown by 16 bytes. -/
theorem malloc_overstates : ∃ (_ : KernelImage) (k : Kernel) (r : ℕ) (h' : Heap Kernel),
    k.HasSpace 0 ∧ HeapInv 1024 ((unusedHeap k).start 1024) [] [] ∅
    ∧ malloc 1024 (sbrk 0) 10 (2 ^ 32 - 1) (unusedHeap k) = .ok (r, h')
    ∧ r ≠ 0 ∧ (h'.sys.proc 0).sz = (k.proc 0).sz + 16
    ∧ ¬ EnoughMemory 0 k h'.sys [] (2 ^ 32 - 1) r := by
  obtain ⟨image, s, hspace, hends⟩ := exists_partialPage
  obtain ⟨r, h', hrun, hr, hsz⟩ := hends.exists_ok
  refine ⟨image, partialPage s, r, h', hspace, .of_unused rfl, hrun, hr, hsz, fun henough => ?_⟩
  have husable := henough.usable hr
  rw [hsz, PGSIZE] at husable
  omega

end Umalloc

end Xv6
