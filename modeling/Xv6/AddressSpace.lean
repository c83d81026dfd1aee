import Xv6.Proc
import Xv6.Uvm

/-!
# The address space of a process

A process has a page table with the pages of its memory from address 0 on, the
trampoline at the highest page and its trapframe at the one below it, and nothing else
(`AddressSpace`). It owns the tables and the pages of its memory (`spacePages`); the
trapframe is a page of its own, and the trampoline is in the kernel image.

The functions of `proc.c` that make, grow, shrink and free such a space keep this shape,
and so none of the panics of `vm.c` is reached.
-/

open Function Multiset

open Prog hiding get modify panic result

namespace Xv6

open Pool

/-! ## The code -/

section

variable [KernelImage]

/-- Create a page table for a process, with no memory but the trampoline and its trapframe. -/
def proc_pagetable (trapframe : ℕ) : MemProg (Option ℕ) := do
  match ← uvmcreate with
  | none => pure none
  | some pagetable => do
    let r ← mappages pagetable TRAMPOLINE PGSIZE KernelImage.trampoline (PTE_R ||| PTE_X)
    if r < 0 then do
      uvmfree pagetable 0
      pure none
    else do
      let r ← mappages pagetable TRAPFRAME PGSIZE trapframe (PTE_R ||| PTE_W)
      if r < 0 then do
        uvmunmap pagetable TRAMPOLINE 1 false
        uvmfree pagetable 0
        pure none
      else pure (some pagetable)

/-- Free the page table of a process and its memory. -/
def proc_freepagetable (pagetable sz : ℕ) : MemProg Unit := do
  uvmunmap pagetable TRAMPOLINE 1 false
  uvmunmap pagetable TRAPFRAME 1 false
  uvmfree pagetable sz

/-- Grow or shrink the memory of process `p` by `n` bytes. The size is computed in a
32-bit `uint`. -/
def growproc (p : Fin NPROC) (n : ℤ) : KernelProg ℤ := do
  let k ← Prog.get
  let pagetable := k.pagetableOf p
  let sz := (k.proc p).sz % 2 ^ 32
  let newsz := ((sz + n) % 2 ^ 32).toNat
  if 0 < n then do
    let sz ← Kernel.onMem (uvmalloc pagetable sz newsz)
    if sz % 2 ^ 32 = 0 then pure (-1)
    else do
      Kernel.setProc p fun q => { q with sz := sz % 2 ^ 32 }
      pure 0
  else if n < 0 then do
    let sz ← Kernel.onMem (uvmdealloc pagetable sz newsz)
    Kernel.setProc p fun q => { q with sz := sz % 2 ^ 32 }
    pure 0
  else do
    Kernel.setProc p fun q => { q with sz := sz }
    pure 0

end

/-! ## The shape of an address space -/

theorem TRAMPOLINE_eq : TRAMPOLINE = (NVPAGES - 1) * PGSIZE := by decide

theorem TRAPFRAME_eq : TRAPFRAME = (NVPAGES - 2) * PGSIZE := by decide

/-- **The shape of an address space**: memory of `sz` bytes, the trampoline, the trapframe, and
nothing else. -/
structure AddressSpace [KernelImage] (mem : ℕ → Page) (pagetable sz trapframe : ℕ) : Prop where
  wellTyped : WellTyped mem 2 pagetable
  size : sz ≤ TRAPFRAME
  user : MappedRange (vmap mem pagetable) 0 (npages sz)
  trampoline : vmap mem pagetable (NVPAGES - 1)
    = PA2PTE KernelImage.trampoline ||| (PTE_R ||| PTE_X) ||| PTE_V
  trapframe : vmap mem pagetable (NVPAGES - 2) = PA2PTE trapframe ||| (PTE_R ||| PTE_W) ||| PTE_V
  other : ∀ v, npages sz ≤ v → v ≠ NVPAGES - 1 → v ≠ NVPAGES - 2 → vmap mem pagetable v = 0

/-- The pages of an address space: the tables, and the memory. -/
def spacePages (mem : ℕ → Page) (pagetable sz : ℕ) : Multiset ℕ :=
  tables mem 2 pagetable + leaves (vmap mem pagetable) 0 (npages sz)

section Shape

variable [KernelImage] {s s' s'' : PhysMem} {pt sz sz' sz'' trapframe : ℕ}

omit [KernelImage] in
theorem spacePages_zero (mem : ℕ → Page) (pt : ℕ) :
    spacePages mem pt 0 = tables mem 2 pt := by
  unfold spacePages
  rw [show npages 0 = 0 by decide, leaves_zero, add_zero]

theorem AddressSpace.size_le (h : AddressSpace s.mem pt sz trapframe) : sz ≤ MAXVA :=
  h.size.trans (by decide)

/-- Memory has not more pages than there are, and ends far below the trapframe. -/
theorem npages_le (hold : Holds physPages s (spacePages s.mem pt sz)) :
    npages sz ≤ 2 ^ 15 := by
  have hcard := card_le_of_holds (Holds.right hold)
  rwa [card_leaves] at hcard

theorem AddressSpace.congr (h : AddressSpace s.mem pt sz trapframe)
    (hmap : vmap s'.mem pt = vmap s.mem pt) (hwell : WellTyped s'.mem 2 pt) :
    AddressSpace s'.mem pt sz trapframe := by
  obtain ⟨-, hsize, huser, htramp, htrap, hother⟩ := h
  rw [← hmap] at huser htramp htrap hother
  exact ⟨hwell, hsize, huser, htramp, htrap, hother⟩

omit [KernelImage] in
theorem spacePages_of_keep (hkeep : ∀ q ∈ spacePages s.mem pt sz, s'.mem q = s.mem q) :
    vmap s'.mem pt = vmap s.mem pt
    ∧ spacePages s'.mem pt sz = spacePages s.mem pt sz := by
  have htables : ∀ q ∈ tables s.mem 2 pt, s'.mem q = s.mem q :=
    fun q hq => hkeep q (mem_add.mpr (.inl hq))
  have hmap := vmap_congr htables
  refine ⟨hmap, ?_⟩
  unfold spacePages
  rw [hmap, tables_congr htables]

theorem AddressSpace.of_keep (h : AddressSpace s.mem pt sz trapframe)
    (hkeep : ∀ q ∈ spacePages s.mem pt sz, s'.mem q = s.mem q) :
    AddressSpace s'.mem pt sz trapframe
    ∧ spacePages s'.mem pt sz = spacePages s.mem pt sz := by
  obtain ⟨hmap, hpages⟩ := spacePages_of_keep hkeep
  exact ⟨h.congr hmap (h.wellTyped.congr fun q hq => hkeep q (mem_add.mpr (.inl hq))),
    hpages⟩

/-- **Memory was resized** from `sz` to `sz'` bytes: the pages of both sizes are as they were,
and the pages that are new hold zeros. -/
structure Resized (s s' : PhysMem) (pagetable sz sz' trapframe : ℕ) : Prop where
  exchange : Exchange s s' (spacePages s.mem pagetable sz) (spacePages s'.mem pagetable sz')
  space : AddressSpace s'.mem pagetable sz' trapframe
  kept : ∀ v < npages sz, v < npages sz' → vmap s'.mem pagetable v = vmap s.mem pagetable v
    ∧ s'.mem (PTE2PA (vmap s.mem pagetable v)) = s.mem (PTE2PA (vmap s.mem pagetable v))
  new : ∀ v, npages sz ≤ v → v < npages sz' →
    PTE_FLAGS (vmap s'.mem pagetable v) = userFlags ||| PTE_V
    ∧ s'.mem (PTE2PA (vmap s'.mem pagetable v)) = .fill PGSIZE 0

theorem Resized.refl (h : AddressSpace s.mem pt sz trapframe) :
    Resized s s pt sz sz trapframe :=
  ⟨.refl _ _, h, fun _ _ _ => ⟨rfl, rfl⟩, fun _ h₁ h₂ => absurd h₁ (Nat.not_le.mpr h₂)⟩

theorem Resized.map_eq (h : Resized s s' pt sz sz trapframe)
    (hspace : AddressSpace s.mem pt sz trapframe) :
    vmap s'.mem pt = vmap s.mem pt := by
  funext v
  rcases Nat.lt_or_ge v (npages sz) with hlt | hge
  · exact (h.kept v hlt hlt).1
  · by_cases h₁ : v = NVPAGES - 1
    · rw [h₁, h.space.trampoline, hspace.trampoline]
    · by_cases h₂ : v = NVPAGES - 2
      · rw [h₂, h.space.trapframe, hspace.trapframe]
      · rw [h.space.other v hge h₁ h₂, hspace.other v hge h₁ h₂]

section

variable (h : AddressSpace s.mem pt sz trapframe)
  (hold : Holds physPages s (spacePages s.mem pt sz))

include h hold

/-- The tables may get pages while memory stays. -/
theorem Resized.of_remap (hmap : Remap s s' pt 0 0 (vmap s.mem pt)) :
    Resized s s' pt sz sz trapframe := by
  have hex := hmap.exchange
  rw [add_zero, add_zero] at hex
  refine ⟨?_, h.congr hmap.map (hmap.wellTyped h.wellTyped), fun v hv _ => ?_,
    fun _ h₁ h₂ => absurd h₁ (Nat.not_le.mpr h₂)⟩
  · unfold spacePages
    rw [hmap.map]
    exact hex.add _
  · exact ⟨by rw [hmap.map], hex.keep hold (mem_leaves_zero hv)⟩

/-- Pages of zeros were added. -/
theorem Resized.of_grown (hle : sz ≤ sz') (hmax : sz' ≤ MAXVA)
    (hgrown : Grown s s' pt (npages sz) (npages sz' - npages sz)) :
    Resized s s' pt sz sz' trapframe := by
  have hmono := npages_mono hle hmax
  have hbefore : ∀ v < npages sz, vmap s'.mem pt v = vmap s.mem pt v :=
    fun v hv => hgrown.outside v (by omega)
  have hleaves : leaves (vmap s'.mem pt) 0 (npages sz')
      = leaves (vmap s.mem pt) 0 (npages sz)
        + leaves (vmap s'.mem pt) (npages sz) (npages sz' - npages sz) := by
    have hadd := leaves_add (vmap s'.mem pt) 0 (npages sz) (npages sz' - npages sz)
    rw [Nat.add_sub_cancel' hmono, Nat.zero_add] at hadd
    rw [hadd, leaves_congr fun i hi => by rw [Nat.zero_add, hbefore i hi]]
  have hex : Exchange s s' (spacePages s.mem pt sz) (spacePages s'.mem pt sz') := by
    have hadd := hgrown.exchange.add (leaves (vmap s.mem pt) 0 (npages sz))
    unfold spacePages
    rw [hleaves, add_comm (leaves (vmap s.mem pt) 0 (npages sz)), ← add_assoc]
    rwa [add_zero] at hadd
  have hpages := npages_le (hex.holds hold)
  have hbound : 2 ^ 15 < NVPAGES - 2 := by decide
  refine ⟨hex, ⟨hgrown.wellTyped h.wellTyped, ?_, fun v hv => ?_, ?_, ?_, fun v hv h₁ h₂ => ?_⟩,
    fun v hv _ => ⟨hbefore v hv, ?_⟩, fun v hv hv' => ?_⟩
  · refine (le_npages_mul hmax).trans ((Nat.mul_le_mul_right _ hpages).trans ?_)
    decide
  · rw [Nat.zero_add]
    rcases Nat.lt_or_ge v (npages sz) with hlt | hge
    · rw [hbefore v hlt]
      exact h.user.at_zero hlt
    · have hnew := hgrown.mappedRange (fun _ _ => pteLeaf_userFlags) (v - npages sz) (by omega)
      rwa [Nat.add_sub_cancel' hge] at hnew
  · rw [hgrown.outside _ (by omega), h.trampoline]
  · rw [hgrown.outside _ (by omega), h.trapframe]
  · rw [hgrown.outside _ (by omega), h.other v (by omega) h₁ h₂]
  · exact hgrown.exchange.keep hold (mem_leaves_zero hv)
  · obtain ⟨pa, hpa, hentry, hzero⟩ := hgrown.page (v - npages sz) (by omega)
    rw [Nat.add_sub_cancel' hv] at hentry
    rw [hentry, Filled.PTE2PA_page hpa userFlags_lt, hzero]
    exact ⟨PTE_FLAGS_entry userFlags_lt, rfl⟩

/-- **`uvmalloc` on an address space.** -/
theorem AddressSpace.uvmalloc_ends :
    Ends (uvmalloc pt sz sz') s (fun _ => False) fun r s' =>
      sz' < sz ∧ r = sz ∧ s' = s
      ∨ sz ≤ sz' ∧ (r = 0 ∧ Resized s s' pt sz sz trapframe
        ∨ r = sz' ∧ Resized s s' pt sz sz' trapframe) := by
  have hpages := npages_le hold
  have hbound : 2 ^ 15 + 2 ^ 15 < NVPAGES - 2 := by decide
  refine (Xv6.uvmalloc_ends (Holds.left hold) (by omega) fun w hw hlt =>
    h.other w hw (by omega) (by omega)).mono ?_
  rintro r s' (hres | ⟨hle, ⟨hr, hmap⟩ | ⟨hr, hmax, hgrown⟩⟩)
  · exact .inl hres
  · exact .inr ⟨hle, .inl ⟨hr, .of_remap h hold hmap⟩⟩
  · exact .inr ⟨hle, .inr ⟨hr, .of_grown h hold hle hmax hgrown⟩⟩

/-- **`uvmdealloc` on an address space.** -/
theorem AddressSpace.uvmdealloc_ends (hmax : sz' ≤ MAXVA) :
    Ends (uvmdealloc pt sz sz') s (fun _ => False) fun r s' =>
      r = min sz sz' ∧ Resized s s' pt sz (min sz sz') trapframe := by
  have hmin : npages (min sz sz') = min (npages sz) (npages sz') := by
    rcases Nat.le_total sz sz' with hle | hle
    · rw [min_eq_left hle, min_eq_left (npages_mono hle hmax)]
    · rw [min_eq_right hle, min_eq_right (npages_mono hle h.size_le)]
  have hleaves : ∀ m : ℕ → ℕ, leaves m 0 (npages sz) = leaves m 0 (npages (min sz sz'))
      + leaves m (npages sz') (npages sz - npages sz') := by
    intro m
    rcases Nat.le_total (npages sz) (npages sz') with hle | hle
    · rw [hmin, min_eq_left hle, Nat.sub_eq_zero_of_le hle, leaves_zero, add_zero]
    · have hadd := leaves_add m 0 (npages sz') (npages sz - npages sz')
      rw [Nat.add_sub_cancel' hle, Nat.zero_add] at hadd
      rw [hmin, min_eq_right hle, hadd]
  have hpages := npages_le hold
  have hbound : 2 ^ 15 < NVPAGES - 2 := by decide
  have hsplit : spacePages s.mem pt sz = tables s.mem 2 pt
      + leaves (vmap s.mem pt) (npages sz') (npages sz - npages sz')
      + leaves (vmap s.mem pt) 0 (npages (min sz sz')) := by
    unfold spacePages
    rw [hleaves, add_assoc, add_comm (leaves _ 0 _)]
  rw [hsplit] at hold
  refine (Xv6.uvmdealloc_ends hold.left h.size_le hmax
    fun i hi => h.user.at_zero (by omega)).mono ?_
  rintro r s' ⟨hr, hmap⟩
  have hout : ∀ v, v < npages (min sz sz') ∨ npages sz ≤ v →
      vmap s'.mem pt v = vmap s.mem pt v := by
    intro v hv
    rw [hmap.map, fillRange_of_notMem]
    omega
  refine ⟨hr, ?_, ⟨hmap.wellTyped h.wellTyped, (min_le_left _ _).trans h.size, fun v hv => ?_,
    ?_, ?_, fun v hv h₁ h₂ => ?_⟩, fun v _ hv => ⟨hout v (.inl hv), ?_⟩, fun v hv hv' => ?_⟩
  · have hex := (hmap.add (leaves (vmap s.mem pt) 0 (npages (min sz sz')))).exchange
    have hsame : leaves (vmap s'.mem pt) 0 (npages (min sz sz'))
        = leaves (vmap s.mem pt) 0 (npages (min sz sz')) :=
      leaves_congr fun i hi => by rw [Nat.zero_add, hout i (.inl hi)]
    rw [zero_add, ← add_assoc] at hex
    rw [hsplit]
    unfold spacePages
    rw [hsame]
    exact hex
  · rw [Nat.zero_add, hout v (.inl hv)]
    exact h.user.at_zero (by omega)
  · rw [hout _ (.inr (by omega)), h.trampoline]
  · rw [hout _ (.inr (by omega)), h.trapframe]
  · rcases Nat.lt_or_ge v (npages sz) with hlt | hge
    · rw [hmap.map]
      unfold fillRange
      rw [if_pos (by omega)]
    · rw [hout v (.inr hge), h.other v hge h₁ h₂]
  · exact hmap.exchange.keep hold (mem_leaves_zero hv)
  · omega

end

/-! ## Making and freeing a space -/

/-- Unmapping one page that is not freed. -/
theorem uvmunmap_page_ends {v pa perm : ℕ} (hold : Holds physPages s (tables s.mem 2 pt))
    (hv : v < NVPAGES) (hentry : vmap s.mem pt v = PA2PTE pa ||| perm ||| PTE_V)
    (hleaf : PteLeaf perm) :
    Ends (uvmunmap pt (v * PGSIZE) 1 false) s (fun _ => False) fun _ s' =>
      Remap s s' pt 0 0 (update (vmap s.mem pt) v 0) := by
  have hmapped : MappedRange (vmap s.mem pt) v 1 := by
    intro i hi
    rw [show v + i = v by omega, hentry]
    exact ⟨pteValid_entry _ _, (pteLeaf_entry _ _).mpr hleaf⟩
  have h : Ends (uvmunmap pt (v * PGSIZE) 1 false) s _ _ :=
    uvmunmap_ends (by rwa [freed_false, add_zero]) (by omega) hmapped
  simpa only [Unmapped, freed_false, fillRange_one] using h

/-- A page table that is not needed is given back. -/
theorem discard_ends (hold : Holds physPages s (tables s.mem 2 pt))
    (hwell : WellTyped s.mem 2 pt) (hzero : ∀ v, vmap s.mem pt v = 0) :
    Ends (do
      uvmfree pt 0
      pure none : MemProg (Option ℕ)) s (fun _ => False) fun r s' =>
        r = none ∧ Exchange s s' (tables s.mem 2 pt) 0 := by
  have hnone : npages 0 = 0 := by decide
  have hfree : Ends (uvmfree pt 0) s (fun _ => False) fun _ s' =>
      Exchange s s' (tables s.mem 2 pt + leaves (vmap s.mem pt) 0 (npages 0)) 0 := by
    refine uvmfree_ends ?_ hwell (by decide) (fun i hi => ?_) fun v _ => hzero v
    · rwa [hnone, leaves_zero, add_zero]
    · rw [hnone] at hi
      exact absurd hi (Nat.not_lt_zero i)
  rw [hnone, leaves_zero, add_zero] at hfree
  exact ends_bind (hfree.mono fun _ s' hex => ends_pure ⟨rfl, hex⟩)

/-- An address space without memory was made, or nothing was taken. -/
def MadeSpace (s : PhysMem) (trapframe : ℕ) : Option ℕ → PhysMem → Prop
  | none, s' => Exchange s s' 0 0
  | some pt, s' =>
    Exchange s s' 0 (spacePages s'.mem pt 0) ∧ AddressSpace s'.mem pt 0 trapframe

/-- **`proc_pagetable`** makes an address space without memory, or takes nothing. -/
theorem proc_pagetable_ends (hold : Holds physPages s 0) (htrap : trapframe < 2 ^ 64) :
    Ends (proc_pagetable trapframe) s (fun _ => False) (MadeSpace s trapframe) := by
  have hpos : 2 ≤ NVPAGES := by decide
  have htramp : KernelImage.trampoline < 2 ^ 64 := by
    have h₁ := KernelImage.trampoline_lt
    have h₂ := KernelImage.etext_le
    have h₃ := KernelImage.end_lt
    unfold PHYSTOP KERNBASE at h₃
    omega
  unfold proc_pagetable
  refine ends_bind ((uvmcreate_ends s).mono fun res s₁ hcreate => ?_)
  cases res with
  | none => exact ends_pure hcreate
  | some pt =>
    obtain ⟨hex₁, hwell₁, hmap₁⟩ := hcreate
    have hold₁ := hex₁.holds hold
    have hundo : ∀ s₂, Remap s₁ s₂ pt 0 0 (fun _ => 0) → Ends (do
        uvmfree pt 0
        pure none : MemProg (Option ℕ)) s₂ (fun _ => False) (MadeSpace s trapframe) := by
      intro s₂ hmap
      have hex := hmap.exchange
      rw [add_zero, add_zero] at hex
      refine (discard_ends (hmap.holds_tables hold₁) (hmap.wellTyped hwell₁)
        fun v => by rw [hmap.map]).mono ?_
      rintro r s' ⟨rfl, hex'⟩
      exact hex₁.trans (hex.trans hex')
    rw [TRAMPOLINE_eq, TRAPFRAME_eq]
    refine ends_bind ((mappages_page_ends hold₁ htramp (by decide) (by decide) (by omega)
      (by rw [hmap₁]; exact not_pteValid_zero)).mono ?_)
    rintro r s₂ (⟨rfl, hmap₂⟩ | ⟨rfl, hmap₂⟩)
    · rw [if_neg (by simp)]
      have hold₂ := hmap₂.holds_tables hold₁
      have hfree : ¬ PteValid (vmap s₂.mem pt (NVPAGES - 2)) := by
        rw [hmap₂.map, update_of_ne (by omega), hmap₁]
        exact not_pteValid_zero
      refine ends_bind ((mappages_page_ends hold₂ htrap (by decide) (by decide) (by omega)
        hfree).mono ?_)
      rintro r s₃ (⟨rfl, hmap₃⟩ | ⟨rfl, hmap₃⟩)
      · rw [if_neg (by simp)]
        have hboth := hmap₂.trans hmap₃
        have hex := hboth.exchange
        rw [add_zero, add_zero] at hex
        have hmap := hboth.map
        rw [hmap₂.map, hmap₁] at hmap
        refine ends_pure ⟨?_, hboth.wellTyped hwell₁, by decide, ?_, ?_, ?_, ?_⟩
        · rw [spacePages_zero]
          exact hex₁.trans hex
        · intro i hi
          exact absurd hi (by rw [show npages 0 = 0 by decide]; exact Nat.not_lt_zero i)
        · rw [hmap, update_of_ne (by omega), update_self]
        · rw [hmap, update_self]
        · intro v _ h₁ h₂
          rw [hmap, update_of_ne h₂, update_of_ne h₁]
      · rw [if_pos (by decide)]
        have htrampoline : vmap s₃.mem pt (NVPAGES - 1)
            = PA2PTE KernelImage.trampoline ||| (PTE_R ||| PTE_X) ||| PTE_V := by
          rw [hmap₃.map, hmap₂.map, update_self]
        refine ends_bind ((uvmunmap_page_ends (hmap₃.holds_tables hold₂) (by omega)
          htrampoline (by decide)).mono fun _ s₄ hmap₄ => hundo s₄ ?_)
        have hall := (hmap₂.trans hmap₃).trans hmap₄
        have hzero : update (fun _ => 0) (NVPAGES - 1) 0 = fun _ : ℕ => 0 :=
          update_eq_self _ _
        rwa [hmap₃.map, hmap₂.map, update_idem, hmap₁, hzero] at hall
    · rw [if_pos (by decide)]
      rw [hmap₁] at hmap₂
      exact hundo s₂ hmap₂

/-- **`proc_freepagetable`** gives back the pages of an address space. -/
theorem AddressSpace.proc_freepagetable_ends (h : AddressSpace s.mem pt sz trapframe)
    (hold : Holds physPages s (spacePages s.mem pt sz)) :
    Ends (proc_freepagetable pt sz) s (fun _ => False) fun _ s' =>
      Exchange s s' (spacePages s.mem pt sz) 0 := by
  have hpos : 2 ≤ NVPAGES := by decide
  have hpages := npages_le hold
  have hbound : 2 ^ 15 < NVPAGES - 2 := by decide
  unfold proc_freepagetable
  rw [TRAMPOLINE_eq, TRAPFRAME_eq]
  refine ends_bind ((uvmunmap_page_ends (Holds.left hold) (by omega) h.trampoline
    (by decide)).mono fun _ s₁ hmap₁ => ?_)
  have htrap : vmap s₁.mem pt (NVPAGES - 2)
      = PA2PTE trapframe ||| (PTE_R ||| PTE_W) ||| PTE_V := by
    rw [hmap₁.map, update_of_ne (by omega), h.trapframe]
  refine ends_bind ((uvmunmap_page_ends (hmap₁.holds_tables (Holds.left hold)) (by omega) htrap
    (by decide)).mono fun _ s₂ hmap₂ => ?_)
  have hmap := hmap₁.trans hmap₂
  rw [hmap₁.map] at hmap
  have huser : ∀ v < npages sz, vmap s₂.mem pt v = vmap s.mem pt v := by
    intro v hv
    rw [hmap.map, update_of_ne (by omega), update_of_ne (by omega)]
  have hleaves : leaves (vmap s₂.mem pt) 0 (npages sz)
      = leaves (vmap s.mem pt) 0 (npages sz) :=
    leaves_congr fun i hi => by rw [Nat.zero_add, huser i hi]
  have hall := hmap.add (leaves (vmap s.mem pt) 0 (npages sz))
  rw [zero_add] at hall
  have hfree : Ends (uvmfree pt sz) s₂ (fun _ => False) fun _ s' =>
      Exchange s₂ s' (tables s₂.mem 2 pt + leaves (vmap s₂.mem pt) 0 (npages sz)) 0 := by
    refine uvmfree_ends (by rw [hleaves]; exact hall.holds hold) (hmap.wellTyped h.wellTyped)
      h.size_le (fun i hi => ?_) fun v hv => ?_
    · rw [Nat.zero_add, huser i hi]
      exact h.user.at_zero hi
    · rw [hmap.map]
      by_cases h₂ : v = NVPAGES - 2
      · rw [h₂, update_self]
      · rw [update_of_ne h₂]
        by_cases h₁ : v = NVPAGES - 1
        · rw [h₁, update_self]
        · rw [update_of_ne h₁, h.other v hv h₁ h₂]
  rw [hleaves] at hfree
  exact hfree.mono fun _ s' hex => hall.exchange.trans hex

end Shape

/-! ## A parent and a child -/

/-- Make an address space with one page, and an empty one. -/
def makeSpaces [KernelImage] (trapframe trapframe' : ℕ) : MemProg (Option ℕ × ℕ × Option ℕ) := do
  let parent ← proc_pagetable trapframe
  let sz ← uvmalloc (parent.getD 0) 0 PGSIZE
  let child ← proc_pagetable trapframe'
  pure (parent, sz, child)

/-- Where memory suffices, both are address spaces. -/
theorem makeSpaces_spec [KernelImage] {s s' : PhysMem} {trapframe trapframe' parent child : ℕ}
    {F : Multiset ℕ} (hold : Holds physPages s F) (h₁ : trapframe < 2 ^ 64)
    (h₂ : trapframe' < 2 ^ 64)
    (hrun : makeSpaces trapframe trapframe' s = .ok ((some parent, PGSIZE, some child), s')) :
    AddressSpace s'.mem parent PGSIZE trapframe ∧ AddressSpace s'.mem child 0 trapframe'
    ∧ Holds physPages s' (spacePages s'.mem child 0 + (spacePages s'.mem parent PGSIZE + F)) := by
  obtain ⟨res, s₁, hparent, hrun⟩ := bind_ok.mp hrun
  obtain ⟨sz, s₂, hsz, hrun⟩ := bind_ok.mp hrun
  obtain ⟨res', s₃, hchild, hrun⟩ := bind_ok.mp hrun
  obtain ⟨hval, rfl⟩ := pure_ok.mp hrun
  simp only [Prod.mk.injEq] at hval
  obtain ⟨rfl, rfl, rfl⟩ := hval
  obtain ⟨hex₁, hspace₁⟩ :=
    (proc_pagetable_ends (hold.mono (zero_le _)) h₁).of_ok hparent
  have hold₁ := hex₁.holds_add (by rwa [zero_add])
  obtain ⟨hlt, -⟩ | ⟨-, ⟨hr, -⟩ | ⟨-, hgrown⟩⟩ :=
    (hspace₁.uvmalloc_ends (Holds.left hold₁)).of_ok hsz
  · exact absurd hlt (Nat.not_lt_zero _)
  · exact absurd hr (by decide)
  have hold₂ := hgrown.exchange.holds_add hold₁
  obtain ⟨hex₃, hspace₃⟩ :=
    (proc_pagetable_ends (hold₂.mono (zero_le _)) h₂).of_ok hchild
  obtain ⟨hspace₂, hpages₂⟩ := hgrown.space.of_keep fun q hq =>
    hex₃.keep (by rwa [zero_add]) (mem_add.mpr (.inl hq))
  have hold₃ := hex₃.holds_add (by rwa [zero_add])
  rw [← hpages₂] at hold₃
  exact ⟨hspace₂, hspace₃, hold₃⟩

/-- **There are address spaces**: one with a page of memory, and one without. -/
theorem exists_spaces : ∃ (_ : KernelImage) (s : PhysMem) (parent child : ℕ),
    AddressSpace s.mem parent PGSIZE 0x80200000 ∧ AddressSpace s.mem child 0 0x80201000
    ∧ Holds physPages s (spacePages s.mem child 0 + (spacePages s.mem parent PGSIZE
      + ({0x80200000} + {0x80201000}))) := by
  let _ := sampleImage
  obtain ⟨s, hrun⟩ := exists_of_result (m := makeSpaces 0x80200000 0x80201000)
    (s := sampleMemory) (a := (some 0x80100000, PGSIZE, some 0x80106000)) (by decide +kernel)
  exact ⟨sampleImage, s, 0x80100000, 0x80106000,
    makeSpaces_spec sampleMemory_holds (by decide) (by decide) hrun⟩

end Xv6
