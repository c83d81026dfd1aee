import Xv6.AddressSpace
import Xv6.UserCopy

/-!
# Copies to an address space

The pages that user code can use are pages of the memory of its address space, below `sz`
(`AddressSpace.lt_of_accessible`), and no two addresses share one. So the copies to and from user
memory are exact there (`AddressSpace.userPages`), and a copy leaves the shape of the space as it
is. `SpaceChange` is what code that builds a space does to it step by step.
-/

open Function Multiset

namespace Xv6

open Pool

section

variable [KernelImage] {s s' s'' : PhysMem} {pt sz sz' sz'' trapframe va : ℕ}

omit [KernelImage] in
theorem and_PTE_U (pte : ℕ) : pte &&& PTE_U = PTE_FLAGS pte &&& PTE_U := by
  unfold PTE_FLAGS
  rw [Nat.and_assoc]
  rfl

/-- User code can use the memory of its space, and nothing else. -/
theorem AddressSpace.lt_of_accessible (h : AddressSpace s.mem pt sz trapframe)
    (hva : UserAccessible s.mem pt va) : va / PGSIZE < npages sz := by
  obtain ⟨-, hvalid, huser⟩ := userAccessible_iff.mp hva
  by_contra hge
  by_cases h₁ : va / PGSIZE = NVPAGES - 1
  · rw [h₁, h.trampoline, and_PTE_U, PTE_FLAGS_entry (by decide)] at huser
    exact huser (by decide)
  by_cases h₂ : va / PGSIZE = NVPAGES - 2
  · rw [h₂, h.trapframe, and_PTE_U, PTE_FLAGS_entry (by decide)] at huser
    exact huser (by decide)
  rw [h.other _ (Nat.le_of_not_lt hge) h₁ h₂] at hvalid
  exact not_pteValid_zero hvalid

theorem AddressSpace.userPage_mem (h : AddressSpace s.mem pt sz trapframe)
    (hva : UserAccessible s.mem pt va) :
    userPage s.mem pt va ∈ leaves (vmap s.mem pt) 0 (npages sz) := by
  rw [userPage_of_accessible hva]
  exact mem_leaves_zero (h.lt_of_accessible hva)

theorem page_inj (hold : Holds physPages s (spacePages s.mem pt sz)) {v w : ℕ}
    (hv : v < npages sz) (hw : w < npages sz)
    (h : PTE2PA (vmap s.mem pt v) = PTE2PA (vmap s.mem pt w)) : v = w := by
  have hnodup : (leaves (vmap s.mem pt) 0 (npages sz)).Nodup :=
    (nodup_add.mp (nodup_add.mp hold.nodup).2.1).2.1
  refine inj_on_of_nodup_map hnodup _ (mem_range.mpr hv) _
    (mem_range.mpr hw) ?_
  rwa [Nat.zero_add, Nat.zero_add]

/-- **Every page that user code can use is its own.** -/
theorem AddressSpace.userPages (h : AddressSpace s.mem pt sz trapframe)
    (hold : Holds physPages s (spacePages s.mem pt sz)) : UserPages s.mem pt where
  inj va va' hva hva' heq := by
    refine page_inj hold (h.lt_of_accessible hva) (h.lt_of_accessible hva') ?_
    rwa [← userPage_of_accessible hva, ← userPage_of_accessible hva']
  ne_zero va hva := physPages_ne_zero (Holds.right hold |>.mem (h.userPage_mem hva))
  notMem_tables va hva hmem :=
    disjoint_left.mp (Holds.disjoint hold) hmem (h.userPage_mem hva)

/-- What user code sees depends on the pages of its space. -/
theorem AddressSpace.userByte_of_keep (h : AddressSpace s.mem pt sz trapframe)
    (hkeep : ∀ q ∈ spacePages s.mem pt sz, s'.mem q = s.mem q) (u : ℕ) :
    userByte s'.mem pt u = userByte s.mem pt u := by
  have htables : ∀ q ∈ tables s.mem 2 pt, s'.mem q = s.mem q :=
    fun q hq => hkeep q (mem_add.mpr (.inl hq))
  by_cases hu : UserAccessible s.mem pt u
  · rw [userByte_of_accessible hu, userByte_of_accessible ((userAccessible_congr htables).mpr hu),
      userPage_congr htables, hkeep _ (mem_add.mpr (.inr (h.userPage_mem hu)))]
  · rw [userByte_of_not_accessible hu,
      userByte_of_not_accessible fun h' => hu ((userAccessible_congr htables).mp h')]

/-! ## Changes of a space -/

/-- **A space became another one** of the same page table, and its pages the pages of that one. -/
structure SpaceChange (s s' : PhysMem) (pagetable sz sz' trapframe : ℕ) : Prop where
  exchange : Exchange s s' (spacePages s.mem pagetable sz) (spacePages s'.mem pagetable sz')
  space : AddressSpace s'.mem pagetable sz' trapframe

namespace SpaceChange

theorem trans (h : SpaceChange s s' pt sz sz' trapframe)
    (h' : SpaceChange s' s'' pt sz' sz'' trapframe) :
    SpaceChange s s'' pt sz sz'' trapframe :=
  ⟨h.exchange.trans h'.exchange, h'.space⟩

theorem holds (h : SpaceChange s s' pt sz sz' trapframe)
    (hold : Holds physPages s (spacePages s.mem pt sz)) :
    Holds physPages s' (spacePages s'.mem pt sz') :=
  h.exchange.holds hold

/-- User memory was changed. -/
theorem of_storedIn {lo hi : ℕ} (h : AddressSpace s.mem pt sz trapframe)
    (hold : Holds physPages s (spacePages s.mem pt sz))
    (hst : StoredIn s s' pt lo hi) :
    SpaceChange s s' pt sz sz trapframe := by
  have htables := hst.tables (h.userPages hold)
  have hmap := vmap_congr htables
  have hpages : spacePages s'.mem pt sz = spacePages s.mem pt sz := by
    unfold spacePages
    rw [hmap, tables_congr htables]
  refine ⟨⟨by rw [hpages, hst.free], fun q hq => hst.frame q ?_⟩,
    h.congr hmap (h.wellTyped.congr htables)⟩
  rintro u hu rfl
  exact hq (mem_add.mpr (.inr (mem_add.mpr (.inr (h.userPage_mem hu)))))

omit [KernelImage] in
theorem PTE2PA_guarded (pte : ℕ) : PTE2PA (guarded pte) = PTE2PA pte := by
  have hbit : ∀ j < 62, 10 ≤ j → (2 ^ 64 - 1 - PTE_U).testBit j = true := by decide
  refine Nat.eq_of_testBit_eq fun i => ?_
  unfold PTE2PA u64 guarded
  rw [Nat.testBit_mod_two_pow, Nat.testBit_mod_two_pow, Nat.testBit_shiftLeft,
    Nat.testBit_shiftLeft, Nat.testBit_shiftRight, Nat.testBit_shiftRight, Nat.testBit_and]
  by_cases hi : 12 ≤ i ∧ i < 64
  · rw [hbit _ (by omega) (by omega), Bool.and_true]
  · have hout : decide (i < 64) = false ∨ decide (i ≥ 12) = false := by
      simp only [decide_eq_false_iff_not]
      omega
    rcases hout with hout | hout
    · rw [hout, Bool.false_and, Bool.false_and]
    · rw [hout, Bool.false_and, Bool.false_and]

/-- A page that user code may not use any more. -/
theorem of_guarded {v : ℕ} (h : AddressSpace s.mem pt sz trapframe)
    (hold : Holds physPages s (spacePages s.mem pt sz)) (hv : v < npages sz)
    (hmap : Remap s s' pt 0 0
      (update (vmap s.mem pt) v (guarded (vmap s.mem pt v)))) :
    SpaceChange s s' pt sz sz trapframe := by
  have hpages := npages_le hold
  have hbound : 2 ^ 15 < NVPAGES - 2 := by decide
  have hmask : ∀ {mask}, (2 ^ 64 - 1 - PTE_U) &&& mask = mask → ∀ w,
      vmap s'.mem pt w &&& mask = vmap s.mem pt w &&& mask := by
    intro mask hmask w
    rw [hmap.map]
    by_cases hw : w = v
    · rw [hw, update_self, guarded_and hmask]
    · rw [update_of_ne hw]
  have hpage : ∀ w, PTE2PA (vmap s'.mem pt w) = PTE2PA (vmap s.mem pt w) := by
    intro w
    rw [hmap.map]
    by_cases hw : w = v
    · rw [hw, update_self, PTE2PA_guarded]
    · rw [update_of_ne hw]
  have hsame : ∀ w, w ≠ v → vmap s'.mem pt w = vmap s.mem pt w := fun w hw => by
    rw [hmap.map, update_of_ne hw]
  have hex := hmap.exchange
  rw [add_zero, add_zero] at hex
  refine ⟨?_, hmap.wellTyped h.wellTyped, h.size, fun w hw => ?_, ?_, ?_, fun w hw h₁ h₂ => ?_⟩
  · unfold spacePages
    rw [leaves_congr fun i _ => hpage (0 + i)]
    exact hex.add _
  · unfold PteValid PteLeaf
    rw [hmask (by decide), hmask (by decide)]
    exact h.user w hw
  · rw [hsame _ (by omega), h.trampoline]
  · rw [hsame _ (by omega), h.trapframe]
  · rw [hsame _ (by omega), h.other w hw h₁ h₂]

end SpaceChange

section Guarded

variable {v : ℕ} (hold : Holds physPages s (spacePages s.mem pt sz))
  (hmap : Remap s s' pt 0 0
    (update (vmap s.mem pt) v (guarded (vmap s.mem pt v))))

include hmap

omit [KernelImage] in
theorem not_accessible_guarded {u : ℕ} (hu : u / PGSIZE = v) :
    ¬ UserAccessible s'.mem pt u := by
  intro hacc
  obtain ⟨-, -, huser⟩ := userAccessible_iff.mp hacc
  rw [hmap.map, hu, update_self] at huser
  unfold guarded at huser
  rw [Nat.and_assoc, show (2 ^ 64 - 1 - PTE_U) &&& PTE_U = 0 by decide, Nat.and_zero] at huser
  exact huser rfl

include hold

theorem guarded_page {w : ℕ} (hw : w < npages sz) :
    s'.mem (PTE2PA (vmap s'.mem pt w)) = s.mem (PTE2PA (vmap s.mem pt w)) := by
  have hpage : PTE2PA (vmap s'.mem pt w) = PTE2PA (vmap s.mem pt w) := by
    rw [hmap.map]
    by_cases hwv : w = v
    · rw [hwv, update_self, SpaceChange.PTE2PA_guarded]
    · rw [update_of_ne hwv]
  have hex := hmap.exchange
  rw [add_zero, add_zero] at hex
  rw [hpage]
  exact hex.keep hold (mem_leaves_zero hw)

/-- The other pages are as they were. -/
theorem guarded_userByte (h : AddressSpace s.mem pt sz trapframe) {u : ℕ}
    (hu : u / PGSIZE ≠ v) : userByte s'.mem pt u = userByte s.mem pt u := by
  have hsame : vmap s'.mem pt (u / PGSIZE) = vmap s.mem pt (u / PGSIZE) := by
    rw [hmap.map, update_of_ne hu]
  have hiff : UserAccessible s'.mem pt u ↔ UserAccessible s.mem pt u := by
    rw [userAccessible_iff, userAccessible_iff, hsame]
  by_cases hacc : UserAccessible s.mem pt u
  · rw [userByte_of_accessible hacc, userByte_of_accessible (hiff.mpr hacc),
      userPage_of_accessible hacc, userPage_of_accessible (hiff.mpr hacc),
      guarded_page hold hmap (h.lt_of_accessible hacc)]
  · rw [userByte_of_not_accessible hacc, userByte_of_not_accessible fun h' => hacc (hiff.mp h')]

end Guarded

theorem Resized.change (h : Resized s s' pt sz sz' trapframe) :
    SpaceChange s s' pt sz sz' trapframe := ⟨h.exchange, h.space⟩

end

end Xv6
