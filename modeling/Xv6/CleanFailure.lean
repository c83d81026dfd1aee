import Xv6.AddressSpace

/-!
# Growing and copying memory when there is none left

`uvmalloc` and `uvmcopy` ask for pages one by one, for data and for the tables on the way
to them, and any of these requests may be refused. Both then give back the data pages they
took. The tables that were added stay, so what is restored is the map and not the tree
(`Undone`).
-/

namespace Xv6

open Pool

/-- **A well-shaped page table** with memory of `sz` bytes: nothing is mapped between the end
of memory and the trapframe. -/
structure UserSpace (mem : ℕ → Page) (pagetable sz : ℕ) : Prop where
  wellTyped : WellTyped mem 2 pagetable
  size : sz ≤ TRAPFRAME
  user : MappedRange (vmap mem pagetable) 0 (npages sz)
  unmapped : ∀ v, npages sz ≤ v → v < NVPAGES - 2 → vmap mem pagetable v = 0

/-- **A call was undone.** The page table maps what it mapped, every page that is neither free nor
one of its tables has the contents it had, and every page that was taken is free again, or is a
new table. -/
structure Undone (s s' : PhysMem) (pagetable : ℕ) : Prop where
  map : vmap s'.mem pagetable = vmap s.mem pagetable
  contents : ∀ q, q ∉ s.free → q ∉ tables s.mem 2 pagetable → s'.mem q = s.mem q
  kept : tables s.mem 2 pagetable ≤ tables s'.mem 2 pagetable
  returned : (s'.free : Multiset ℕ) + tables s'.mem 2 pagetable
    = s.free + tables s.mem 2 pagetable

section

variable {s s' : PhysMem} {pt sz trapframe : ℕ}

theorem AddressSpace.userSpace [KernelImage] (h : AddressSpace s.mem pt sz trapframe) :
    UserSpace s.mem pt sz :=
  ⟨h.wellTyped, h.size, h.user, fun v hv hlt => h.other v hv (by omega) (by omega)⟩

theorem UserSpace.congr (h : UserSpace s.mem pt sz)
    (hmap : vmap s'.mem pt = vmap s.mem pt) (hwell : WellTyped s'.mem 2 pt) :
    UserSpace s'.mem pt sz := by
  obtain ⟨-, hsize, huser, hnone⟩ := h
  rw [← hmap] at huser hnone
  exact ⟨hwell, hsize, huser, hnone⟩

theorem UserSpace.size_le (h : UserSpace s.mem pt sz) : sz ≤ MAXVA :=
  h.size.trans (by decide)

theorem Undone.of_remap (h : Remap s s' pt 0 0 (vmap s.mem pt)) :
    Undone s s' pt := by
  obtain ⟨hex, hgrows, hmap, -⟩ := h
  rw [add_zero, add_zero] at hex
  refine ⟨hmap, fun q hfree htable => hex.frame q fun hmem => ?_, hgrows, hex.conserve⟩
  rcases Multiset.mem_add.mp hmem with hmem | hmem
  · exact hfree (Multiset.mem_coe.mp hmem)
  · exact htable hmem

end

section

variable [KernelImage] {s : PhysMem} {pt old new oldsz newsz sz : ℕ}

/-- **`uvmalloc` that returns 0 has changed nothing.** -/
theorem uvmalloc_undone (h : UserSpace s.mem pt oldsz)
    (hold : Holds physPages s (spacePages s.mem pt oldsz)) :
    Prog.Ends (uvmalloc pt oldsz newsz) s (fun _ => False) fun r s' =>
      r = 0 → Undone s s' pt := by
  have hpages := npages_le hold
  have hbound : 2 ^ 15 + 2 ^ 15 < NVPAGES - 2 := by decide
  refine (uvmalloc_ends (Holds.left hold) (by omega) fun w hw hlt =>
    h.unmapped w hw (by omega)).mono ?_
  rintro r s' (⟨hlt, rfl, -⟩ | ⟨hle, ⟨-, hmap⟩ | ⟨rfl, -, hgrown⟩⟩) hr
  · omega
  · exact .of_remap hmap
  · -- the sizes are both 0, and no page was asked for
    obtain rfl : oldsz = 0 := by omega
    subst hr
    refine .of_remap ⟨?_, hgrown.grows, funext fun w => hgrown.outside w (by omega),
      hgrown.wellTyped⟩
    have hex := hgrown.exchange
    rwa [Nat.sub_self, leaves_zero, zero_add, ← add_zero (tables s.mem 2 pt)] at hex

/-- **What `uvmcopy` is for.** Nothing but the new page table changes. If the call fails, its map is
as it was. If not, the new table maps, for each page of the memory, a page that was free, with the
same flags and contents. -/
structure CopiesCleanly (old new sz : ℕ) (s : PhysMem) (r : ℤ) (s' : PhysMem) : Prop where
  result : r = 0 ∨ r = -1
  old_map : vmap s'.mem old = vmap s.mem old
  old_contents : ∀ q ∈ spacePages s.mem old sz, s'.mem q = s.mem q
  failed : r = -1 → UserSpace s'.mem new 0 ∧ Undone s s' new
  copied : r = 0 → ∀ v < npages sz, ∃ pa ∈ s.free,
    PTE2PA (vmap s'.mem new v) = pa ∧ PteValid (vmap s'.mem new v)
    ∧ PTE_FLAGS (vmap s'.mem new v) = PTE_FLAGS (vmap s.mem old v)
    ∧ s'.mem pa = s.mem (PTE2PA (vmap s.mem old v))
  owned : r = 0 → Holds physPages s' (spacePages s'.mem new sz + spacePages s'.mem old sz)

/-- The pages of a copy. -/
theorem CopiesCleanly.of_copied {s' : PhysMem} (hparent : UserSpace s.mem old sz)
    (hold : Holds physPages s (tables s.mem 2 new + spacePages s.mem old sz))
    (h : Copied s s' old new (npages sz) 0) : CopiesCleanly old new sz s 0 s' := by
  have hkeep : ∀ q ∈ spacePages s.mem old sz, s'.mem q = s.mem q :=
    fun q hq => h.exchange.keep hold hq
  obtain ⟨hmap, hpages⟩ := spacePages_of_keep hkeep
  refine ⟨.inl rfl, hmap, hkeep, fun h => absurd h (by decide), fun _ v hv => ?_, fun _ => ?_⟩
  · obtain ⟨pa, hpa, hentry, hcontents⟩ := h.page v hv
    have hmem := Filled.mem_page hv hpa (PTE_FLAGS_lt _) hentry
    have hvalid := (hparent.user.at_zero hv).1
    rw [Nat.zero_add] at hentry
    refine ⟨pa, h.fresh hold.left (Multiset.mem_add.mpr (.inl hmem)), ?_⟩
    rw [hentry]
    refine ⟨Filled.PTE2PA_page hpa (PTE_FLAGS_lt _), pteValid_entry _ _, ?_, hcontents⟩
    rw [PTE_FLAGS_entry (PTE_FLAGS_lt _), PTE_FLAGS_or_valid hvalid]
  · have hold' := h.exchange.holds_add hold
    rwa [add_zero, ← hpages] at hold'

/-- A copy that was given up. -/
theorem CopiesCleanly.of_remap {s' : PhysMem} (hchild : UserSpace s.mem new 0)
    (hold : Holds physPages s (tables s.mem 2 new + spacePages s.mem old sz))
    (h : Remap s s' new 0 0 (vmap s.mem new)) : CopiesCleanly old new sz s (-1) s' := by
  have hex := h.exchange
  rw [add_zero, add_zero] at hex
  have hkeep : ∀ q ∈ spacePages s.mem old sz, s'.mem q = s.mem q :=
    fun q hq => hex.keep hold hq
  exact ⟨.inr rfl, (spacePages_of_keep hkeep).1, hkeep,
    fun _ => ⟨hchild.congr h.map (h.wellTyped hchild.wellTyped), .of_remap h⟩,
    fun h => absurd h (by decide), fun h => absurd h (by decide)⟩

/-- **`uvmcopy` copies, or changes nothing.** -/
theorem uvmcopy_clean (hparent : UserSpace s.mem old sz) (hchild : UserSpace s.mem new 0)
    (hold : Holds physPages s (spacePages s.mem new 0 + spacePages s.mem old sz)) :
    Prog.Ends (uvmcopy old new sz) s (fun _ => False) fun r s' =>
      CopiesCleanly old new sz s r s' := by
  have hunmapped : ∀ j < npages sz, vmap s.mem new j = 0 := by
    intro j hj
    refine hchild.unmapped j ?_ (lt_of_lt_of_le hj ?_)
    · rw [show npages 0 = 0 by decide]
      exact Nat.zero_le j
    · exact (npages_le (Holds.right hold)).trans (by decide)
  rw [spacePages_zero] at hold
  refine (uvmcopy_ends hold hparent.size_le hparent.user hunmapped).mono ?_
  rintro r s' (⟨rfl, hcopied⟩ | ⟨rfl, hmap⟩)
  · exact .of_copied hparent hold hcopied
  · exact .of_remap hchild hold hmap

/-- **Growing and copying address spaces fail cleanly**, whatever the sizes are and whichever
request for a page is the first to be refused. -/
theorem grow_and_copy_fail_cleanly (s : PhysMem) :
    (∀ pagetable oldsz newsz, UserSpace s.mem pagetable oldsz →
      Holds physPages s (spacePages s.mem pagetable oldsz) →
      ∃ r s', uvmalloc pagetable oldsz newsz s = .ok (r, s') ∧ (r = 0 → Undone s s' pagetable))
    ∧ ∀ old new sz, UserSpace s.mem old sz → UserSpace s.mem new 0 →
      Holds physPages s (spacePages s.mem new 0 + spacePages s.mem old sz) →
      ∃ r s', uvmcopy old new sz s = .ok (r, s') ∧ CopiesCleanly old new sz s r s' :=
  ⟨fun _ _ _ h hold => (uvmalloc_undone h hold).exists_ok,
    fun _ _ _ hparent hchild hold => (uvmcopy_clean hparent hchild hold).exists_ok⟩

end

/-- There is a page to copy, and room for a child. -/
theorem grow_and_copy_fail_cleanly_sample : ∃ (_ : KernelImage) (s : PhysMem) (parent child : ℕ),
    UserSpace s.mem parent PGSIZE ∧ UserSpace s.mem child 0
    ∧ (∃ r s', uvmalloc parent PGSIZE (2 * PGSIZE) s = .ok (r, s') ∧ (r = 0 → Undone s s' parent))
    ∧ ∃ r s', uvmcopy parent child PGSIZE s = .ok (r, s')
      ∧ CopiesCleanly parent child PGSIZE s r s' := by
  obtain ⟨image, s, parent, child, hparent, hchild, hold⟩ := exists_spaces
  rw [← add_assoc] at hold
  have hclean := grow_and_copy_fail_cleanly s
  exact ⟨image, s, parent, child, hparent.userSpace, hchild.userSpace,
    hclean.1 _ _ _ hparent.userSpace (Holds.right (Holds.left hold)),
    hclean.2 _ _ _ hparent.userSpace hchild.userSpace (Holds.left hold)⟩

end Xv6
