import Xv6.AddressSpace

/-!
# `sbrk`

`growproc` is meant to change the size of a process by exactly `n` bytes, or to fail and
change nothing (`GrowsExactly`). It computes the new size in a 32-bit `uint`, where a
decrement that is larger than the size wraps around to a huge new size; `uvmdealloc` takes
that as nothing to do, and `growproc` returns 0. So it does what it is meant to do exactly
for the increments that lead to a size that is not negative (`growproc_exact_iff`).
-/

namespace Xv6

open Pool

/-- **A process with an address space** of its own. -/
structure Kernel.HasSpace [KernelImage] (k : Kernel) (p : Fin NPROC) : Prop where
  space : AddressSpace k.mem.mem (k.pagetableOf p) (k.proc p).sz ((k.proc p).trapframe.getD 0)
  holds : Holds physPages k.mem (spacePages k.mem.mem (k.pagetableOf p) (k.proc p).sz)

/-- The first `n` pages of the memory of a process are mapped as they were, and hold the same. -/
def SameMemory (k k' : Kernel) (p : Fin NPROC) (n : ℕ) : Prop :=
  ∀ v < n, vmap k'.mem.mem (k.pagetableOf p) v = vmap k.mem.mem (k.pagetableOf p) v
    ∧ k'.mem.mem (PTE2PA (vmap k.mem.mem (k.pagetableOf p) v))
      = k.mem.mem (PTE2PA (vmap k.mem.mem (k.pagetableOf p) v))

/-- The kernel after the memory of a process was resized. -/
def Kernel.resized (k : Kernel) (p : Fin NPROC) (mem : PhysMem) (sz : ℕ) : Kernel :=
  { k with mem := mem, proc := Function.update k.proc p { k.proc p with sz := sz } }

theorem Kernel.resized_sz (k : Kernel) (p : Fin NPROC) (mem : PhysMem) (sz : ℕ) :
    ((k.resized p mem sz).proc p).sz = sz := by
  show (Function.update k.proc p _ p).sz = sz
  rw [Function.update_self]

theorem Kernel.resized_same (k : Kernel) (p : Fin NPROC) (mem : PhysMem) :
    k.resized p mem (k.proc p).sz = { k with mem := mem } := by
  unfold Kernel.resized
  rw [Function.update_eq_self]

/-- **The size changes by exactly `n` or not at all.** On success the size is not negative,
the pages of both sizes are as they were, and the new ones are user memory that holds zeros. On
failure the process has the size, the map and the memory it had. -/
def GrowsExactly (k : Kernel) (p : Fin NPROC) (n : ℤ) (run : Except Panic (ℤ × Kernel)) : Prop :=
  ∃ r k', run = .ok (r, k') ∧ (r = 0 ∨ r = -1)
    ∧ (r = 0 → 0 ≤ (k.proc p).sz + n ∧ ((k'.proc p).sz : ℤ) = (k.proc p).sz + n
      ∧ SameMemory k k' p (min (npages (k.proc p).sz) (npages (k'.proc p).sz))
      ∧ ∀ v, npages (k.proc p).sz ≤ v → v < npages (k'.proc p).sz →
        PTE_FLAGS (vmap k'.mem.mem (k.pagetableOf p) v) = userFlags ||| PTE_V
        ∧ k'.mem.mem (PTE2PA (vmap k'.mem.mem (k.pagetableOf p) v)) = .fill PGSIZE 0)
    ∧ (r = -1 → (k'.proc p).sz = (k.proc p).sz
      ∧ vmap k'.mem.mem (k.pagetableOf p) = vmap k.mem.mem (k.pagetableOf p)
      ∧ SameMemory k k' p (npages (k.proc p).sz))

section

variable [KernelImage] {k : Kernel} {p : Fin NPROC} {n : ℤ}

theorem Kernel.HasSpace.sz_le (h : k.HasSpace p) : (k.proc p).sz ≤ 2 ^ 27 := by
  have hpages := npages_le h.holds
  refine (le_npages_mul h.space.size_le).trans ((Nat.mul_le_mul_right _ hpages).trans ?_)
  decide

theorem GrowsExactly.of_resized {mem : PhysMem} {sz : ℕ} (hsz : (sz : ℤ) = (k.proc p).sz + n)
    (hres : Resized k.mem mem (k.pagetableOf p) (k.proc p).sz sz ((k.proc p).trapframe.getD 0)) :
    GrowsExactly k p n (.ok (0, k.resized p mem sz)) := by
  refine ⟨0, _, rfl, .inl rfl, fun _ => ?_, fun h => absurd h (by decide)⟩
  rw [Kernel.resized_sz]
  exact ⟨by omega, hsz, fun v hv => hres.kept v (by omega) (by omega), hres.new⟩

theorem growproc_grow {sz : ℕ} {mem : PhysMem} (hn : 0 < n)
    (hrun : uvmalloc (k.pagetableOf p) ((k.proc p).sz % 2 ^ 32)
      ((((k.proc p).sz % 2 ^ 32 : ℕ) + n) % 2 ^ 32).toNat k.mem = .ok (sz, mem)) :
    growproc p n k = if sz % 2 ^ 32 = 0 then .ok (-1, { k with mem := mem })
      else .ok (0, k.resized p mem (sz % 2 ^ 32)) := by
  unfold growproc
  rw [Prog.get_bind, if_pos hn, Prog.bind_of_ok (Kernel.onMem_ok.mpr ⟨mem, hrun, rfl⟩)]
  split <;> rfl

theorem growproc_shrink {sz : ℕ} {mem : PhysMem} (hn : n < 0)
    (hrun : uvmdealloc (k.pagetableOf p) ((k.proc p).sz % 2 ^ 32)
      ((((k.proc p).sz % 2 ^ 32 : ℕ) + n) % 2 ^ 32).toNat k.mem = .ok (sz, mem)) :
    growproc p n k = .ok (0, k.resized p mem (sz % 2 ^ 32)) := by
  unfold growproc
  rw [Prog.get_bind, if_neg (by omega), if_pos hn,
    Prog.bind_of_ok (Kernel.onMem_ok.mpr ⟨mem, hrun, rfl⟩)]
  rfl

theorem growproc_zero : growproc p 0 k = .ok (0, k.resized p k.mem ((k.proc p).sz % 2 ^ 32)) := by
  unfold growproc
  rw [Prog.get_bind, if_neg (lt_irrefl 0), if_neg (lt_irrefl 0)]
  rfl

theorem Kernel.HasSpace.of_resized {mem : PhysMem} {sz : ℕ} (h : k.HasSpace p)
    (hres : Resized k.mem mem (k.pagetableOf p) (k.proc p).sz sz ((k.proc p).trapframe.getD 0)) :
    (k.resized p mem sz).HasSpace p := by
  have hproc : (k.resized p mem sz).proc p = { k.proc p with sz := sz } :=
    Function.update_self p _ _
  have htable : (k.resized p mem sz).pagetableOf p = k.pagetableOf p := by
    unfold Kernel.pagetableOf
    rw [hproc]
  constructor
  · rw [htable, hproc]
    exact hres.space
  · rw [htable, hproc]
    exact hres.exchange.holds h.holds

/-- **An increment** is made, or it fails and the size stays. -/
theorem growproc_grows {sz' : ℕ} (h : k.HasSpace p) (hn : 0 < n) (hlt : n < 2 ^ 31)
    (hsz' : (sz' : ℤ) = (k.proc p).sz + n) :
    ∃ mem, (growproc p n k = .ok (-1, { k with mem := mem })
        ∧ Resized k.mem mem (k.pagetableOf p) (k.proc p).sz (k.proc p).sz
          ((k.proc p).trapframe.getD 0))
      ∨ (growproc p n k = .ok (0, k.resized p mem sz')
        ∧ Resized k.mem mem (k.pagetableOf p) (k.proc p).sz sz'
          ((k.proc p).trapframe.getD 0)) := by
  have hle := h.sz_le
  have hmod : (k.proc p).sz % 2 ^ 32 = (k.proc p).sz := Nat.mod_eq_of_lt (by omega)
  have hnew : ((((k.proc p).sz : ℕ) + n) % 2 ^ 32).toNat = sz' := by omega
  obtain ⟨r, mem, hrun, hcase⟩ : ∃ r mem, uvmalloc _ _ sz' _ = .ok (r, mem) ∧ _ :=
    (h.space.uvmalloc_ends h.holds).exists_ok
  rw [growproc_grow hn (by rw [hmod, hnew]; exact hrun)]
  obtain ⟨hlt, -, -⟩ | ⟨-, ⟨rfl, hres⟩ | ⟨rfl, hres⟩⟩ := hcase
  · omega
  · rw [if_pos (Nat.zero_mod _)]
    exact ⟨mem, .inl ⟨rfl, hres⟩⟩
  · rw [if_neg (by omega), Nat.mod_eq_of_lt (by omega)]
    exact ⟨mem, .inr ⟨rfl, hres⟩⟩

/-- **Where the new size is not negative**, it is reached or nothing changes. -/
theorem growsExactly_of_nonneg (h : k.HasSpace p) (hn : n < 2 ^ 31)
    (hpos : 0 ≤ (k.proc p).sz + n) : GrowsExactly k p n (growproc p n k) := by
  have hle := h.sz_le
  have hmod : (k.proc p).sz % 2 ^ 32 = (k.proc p).sz := Nat.mod_eq_of_lt (by omega)
  obtain ⟨sz', hsz'⟩ : ∃ sz' : ℕ, (sz' : ℤ) = (k.proc p).sz + n := ⟨_, Int.toNat_of_nonneg hpos⟩
  have hnew : ((((k.proc p).sz : ℕ) + n) % 2 ^ 32).toNat = sz' := by omega
  rcases lt_trichotomy n 0 with hneg | rfl | hgrow
  · obtain ⟨r, mem, hrun, rfl, hres⟩ :=
      (h.space.uvmdealloc_ends h.holds (show sz' ≤ MAXVA by unfold MAXVA; omega)).exists_ok
    rw [min_eq_right (by omega)] at hrun hres
    rw [growproc_shrink hneg (by rw [hmod, hnew]; exact hrun), Nat.mod_eq_of_lt (by omega)]
    exact .of_resized hsz' hres
  · rw [growproc_zero, hmod]
    exact .of_resized (by omega) (.refl h.space)
  · obtain ⟨mem, ⟨hrun, hres⟩ | ⟨hrun, hres⟩⟩ := growproc_grows h hgrow hn hsz'
    · rw [hrun]
      exact ⟨-1, _, rfl, .inr rfl, fun h => absurd h (by decide), fun _ =>
        ⟨rfl, hres.map_eq h.space, fun v hv => hres.kept v hv hv⟩⟩
    · rw [hrun]
      exact .of_resized hsz' hres

/-- **Where it would be negative**, nothing is done, and the call returns 0. -/
theorem growproc_of_negative (h : k.HasSpace p) (hn : -2 ^ 31 ≤ n)
    (hneg : (k.proc p).sz + n < 0) : growproc p n k = .ok (0, k.resized p k.mem (k.proc p).sz) := by
  have hle := h.sz_le
  have hmod : (k.proc p).sz % 2 ^ 32 = (k.proc p).sz := Nat.mod_eq_of_lt (by omega)
  have hrun : uvmdealloc (k.pagetableOf p) (k.proc p).sz
      ((((k.proc p).sz : ℕ) + n) % 2 ^ 32).toNat k.mem = .ok ((k.proc p).sz, k.mem) := by
    unfold uvmdealloc
    rw [if_pos (by omega)]
    rfl
  rw [growproc_shrink (by omega) (by rw [hmod]; exact hrun), hmod]

/-- **Exactly when `growproc` changes the size by `n` or not at all**: when the new size is not
negative. -/
theorem growproc_exact_iff (h : k.HasSpace p) (hn : -2 ^ 31 ≤ n ∧ n < 2 ^ 31) :
    GrowsExactly k p n (growproc p n k) ↔ 0 ≤ (k.proc p).sz + n := by
  refine ⟨fun hexact => ?_, growsExactly_of_nonneg h hn.2⟩
  by_contra hneg
  obtain ⟨r, k', hrun, -, hzero, -⟩ := hexact
  rw [growproc_of_negative h hn.1 (by omega)] at hrun
  obtain ⟨rfl, -⟩ := Prod.mk.inj (Except.ok.inj hrun)
  exact hneg (hzero rfl).1

end

theorem exists_hasSpace :
    ∃ (_ : KernelImage) (k : Kernel), k.HasSpace 0 ∧ (k.proc 0).sz = PGSIZE := by
  obtain ⟨image, s, parent, child, hspace, -, hold⟩ := exists_spaces
  exact ⟨image, .single s { unusedProc with
    sz := PGSIZE, pagetable := some parent, trapframe := some 0x80200000 },
    ⟨hspace, (Holds.right hold).left⟩, rfl⟩

/-- **`sbrk(-4097)` of a process with one page** is reported to have worked. -/
theorem growproc_ignores_decrement : ∃ (_ : KernelImage) (k : Kernel),
    k.HasSpace 0 ∧ (k.proc 0).sz = PGSIZE ∧ ¬ GrowsExactly k 0 (-4097) (growproc 0 (-4097) k) := by
  obtain ⟨image, k, h, hsz⟩ := exists_hasSpace
  refine ⟨image, k, h, hsz, ?_⟩
  rintro ⟨r, k', hrun, -, hzero, -⟩
  rw [growproc_of_negative h (by decide) (by rw [hsz]; decide)] at hrun
  obtain ⟨rfl, -⟩ := Prod.mk.inj (Except.ok.inj hrun)
  have hpos := (hzero rfl).1
  rw [hsz] at hpos
  exact absurd hpos (by decide)

/-- The page can be given back. -/
theorem growproc_exact_iff_single : ∃ (_ : KernelImage) (k : Kernel),
    k.HasSpace 0 ∧ (k.proc 0).sz = PGSIZE ∧ GrowsExactly k 0 (-4096) (growproc 0 (-4096) k) := by
  obtain ⟨image, k, h, hsz⟩ := exists_hasSpace
  exact ⟨image, k, h, hsz, (growproc_exact_iff h (by decide)).mpr (by rw [hsz]; decide)⟩

end Xv6
