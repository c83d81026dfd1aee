import Xv6.PageMap
import Xv6.Param

/-!
# User virtual memory

The functions of `vm.c` that build, change and free the page tables of processes, and what
each of them does to the map of a table and to the pages of its owner.

`uvmalloc` and `uvmcopy` undo what they did when memory runs out, be it in `kalloc` or in
`walk` for a table. None of these calls panics where the map is as its caller must know it.
-/

open Function Multiset Nat

open Prog hiding get modify panic result

namespace Xv6

open Pool

/-! ## The code -/

/-- The loop of `mappages`, for the rounds that are left below `MAXVA`: in the round
behind them `walk` panics. -/
def mappagesLoop (pagetable last perm : ℕ) : ℕ → ℕ → ℕ → MemProg ℤ
  | 0, _, _ => Prog.panic .walk
  | n + 1, a, pa => do
    match ← walk pagetable a true with
    | none => pure (-1)
    | some r => do
      let s ← Prog.get
      if PteValid (pteAt s.mem r.table r.slot) then Prog.panic .mappagesRemap
      else do
        setPte r.table r.slot (PA2PTE pa ||| perm ||| PTE_V)
        if a = last then pure 0
        else mappagesLoop pagetable last perm n (u64 (a + PGSIZE)) (u64 (pa + PGSIZE))

/-- Map the pages that hold `[va, va + size)` to the physical pages from `pa` on. -/
def mappages (pagetable va size pa perm : ℕ) : MemProg ℤ :=
  if size = 0 then Prog.panic .mappagesSize
  else
    let a := PGROUNDDOWN va
    let last := PGROUNDDOWN (u64 (va + size - 1))
    mappagesLoop pagetable last perm ((MAXVA - a) / PGSIZE) a pa

section

variable [KernelImage]

/-- The loop of `uvmunmap`. -/
def uvmunmapLoop (pagetable : ℕ) (do_free : Bool) : ℕ → ℕ → MemProg Unit
  | 0, _ => pure ()
  | n + 1, a => do
    match ← walk pagetable a false with
    | none => Prog.panic .uvmunmapWalk
    | some r => do
      let s ← Prog.get
      let pte := pteAt s.mem r.table r.slot
      if ¬ PteValid pte then Prog.panic .uvmunmapNotMapped
      else if PTE_FLAGS pte = PTE_V then Prog.panic .uvmunmapNotLeaf
      else do
        (if do_free then kfree (PTE2PA pte) else pure () : MemProg Unit)
        setPte r.table r.slot 0
        uvmunmapLoop pagetable do_free n (a + PGSIZE)

/-- Remove the mappings of `npages` pages from `va` on, and free the physical pages if
`do_free`. -/
def uvmunmap (pagetable va npages : ℕ) (do_free : Bool) : MemProg Unit :=
  if va % PGSIZE ≠ 0 then Prog.panic .uvmunmapNotAligned
  else uvmunmapLoop pagetable do_free (pageRounds va (u64 (va + npages * PGSIZE))) va

/-- Create an empty page table. -/
def uvmcreate : MemProg (Option ℕ) := do
  match ← kalloc with
  | none => pure none
  | some pagetable => do
    memsetPage pagetable 0
    pure (some pagetable)

/-- Free the user pages between two sizes. The number of pages is kept in an `int`. -/
def uvmdealloc (pagetable oldsz newsz : ℕ) : MemProg ℕ :=
  if oldsz ≤ newsz then pure oldsz
  else if PGROUNDUP newsz < PGROUNDUP oldsz then do
    let npages := int32 ((PGROUNDUP oldsz - PGROUNDUP newsz) / PGSIZE % 2 ^ 32)
    uvmunmap pagetable (PGROUNDUP newsz) (toReg npages) true
    pure newsz
  else pure newsz

/-- The loop of `uvmalloc`; it does not get to addresses that do not fit a `uint64`, as `walk`
panics before. -/
def uvmallocLoop (pagetable oldsz newsz : ℕ) : ℕ → ℕ → MemProg ℕ
  | 0, _ => pure newsz
  | n + 1, a => do
    match ← kalloc with
    | none => do
      let _ ← uvmdealloc pagetable a oldsz
      pure 0
    | some mem => do
      memsetPage mem 0
      let r ← mappages pagetable a PGSIZE mem (PTE_W ||| PTE_X ||| PTE_R ||| PTE_U)
      if r ≠ 0 then do
        kfree mem
        let _ ← uvmdealloc pagetable a oldsz
        pure 0
      else uvmallocLoop pagetable oldsz newsz n (a + PGSIZE)

/-- Grow user memory from `oldsz` to `newsz` bytes: the new size, or 0. -/
def uvmalloc (pagetable oldsz newsz : ℕ) : MemProg ℕ :=
  if newsz < oldsz then pure oldsz
  else
    let oldsz := PGROUNDUP oldsz
    uvmallocLoop pagetable oldsz newsz (pageRounds oldsz newsz) oldsz

/-- The loop of `freewalk` over the slots of a table, from `i` on. -/
def freewalkLoop (freewalk : ℕ → MemProg Unit) (pagetable : ℕ) : ℕ → ℕ → MemProg Unit
  | 0, _ => pure ()
  | n + 1, i => do
    let s ← Prog.get
    let pte := pteAt s.mem pagetable i
    if PteValid pte ∧ ¬ PteLeaf pte then do
      freewalk (PTE2PA pte)
      setPte pagetable i 0
      freewalkLoop freewalk pagetable n (i + 1)
    else if PteValid pte then Prog.panic .freewalkLeaf
    else freewalkLoop freewalk pagetable n (i + 1)

/-- Free the pages of a page table that has `depth` levels at most; a recursion that goes
deeper has found tables that are not those of a page table. -/
def freewalk : ℕ → ℕ → MemProg Unit
  | 0, _ => Prog.panic .kerneltrap
  | depth + 1, pagetable => do
    freewalkLoop (freewalk depth) pagetable NPTE 0
    kfree pagetable

/-- Free user memory of `sz` bytes, and the page table. -/
def uvmfree (pagetable sz : ℕ) : MemProg Unit := do
  (if 0 < sz then uvmunmap pagetable 0 (PGROUNDUP sz / PGSIZE) true else pure () : MemProg Unit)
  freewalk 3 pagetable

/-- The loop of `uvmcopy`. -/
def uvmcopyLoop (old new : ℕ) : ℕ → ℕ → MemProg ℤ
  | 0, _ => pure 0
  | n + 1, i => do
    match ← walk old i false with
    | none => Prog.panic .uvmcopyNoPte
    | some r => do
      let s ← Prog.get
      let pte := pteAt s.mem r.table r.slot
      if ¬ PteValid pte then Prog.panic .uvmcopyNotPresent
      else do
        match ← kalloc with
        | none => do
          uvmunmap new 0 (i / PGSIZE) true
          pure (-1)
        | some mem => do
          Prog.modify fun s => s.store mem (s.mem (PTE2PA pte))
          let e ← mappages new i PGSIZE mem (PTE_FLAGS pte)
          if e ≠ 0 then do
            kfree mem
            uvmunmap new 0 (i / PGSIZE) true
            pure (-1)
          else uvmcopyLoop old new n (i + PGSIZE)

/-- Copy user memory of `sz` bytes to another page table. -/
def uvmcopy (old new sz : ℕ) : MemProg ℤ := uvmcopyLoop old new (pageRounds 0 sz) 0

/-- Take the page at `va` from user code. -/
def uvmclear (pagetable va : ℕ) : MemProg Unit := do
  match ← walk pagetable va false with
  | none => Prog.panic .uvmclear
  | some r => do
    let s ← Prog.get
    setPte r.table r.slot (pteAt s.mem r.table r.slot &&& (2 ^ 64 - 1 - PTE_U))

end

/-! ## Mapping -/

section Mappages

variable [KernelImage] {s : PhysMem} {pt v n pa perm : ℕ}

/-- The entry that `mappages` stores for the `i`-th page of a range. -/
def mapped (pa perm i : ℕ) : ℕ := PA2PTE (u64 (pa + i * PGSIZE)) ||| perm ||| PTE_V

omit [KernelImage]

theorem mapped_zero (hpa : pa < 2 ^ 64) : mapped pa perm 0 = PA2PTE pa ||| perm ||| PTE_V := by
  unfold mapped
  rw [zero_mul, add_zero, u64_of_lt hpa]

theorem mapped_succ (pa perm i : ℕ) :
    mapped (u64 (pa + PGSIZE)) perm i = mapped pa perm (i + 1) := by
  unfold mapped u64
  rw [mod_add_mod, add_assoc, show PGSIZE + i * PGSIZE = (i + 1) * PGSIZE by ring]

theorem NVPAGES_mul : NVPAGES * PGSIZE = MAXVA := by decide

theorem page_lt (hv : v < NVPAGES) : v * PGSIZE < MAXVA := by
  rw [← NVPAGES_mul]
  exact mul_lt_mul_of_pos_right hv (by decide)

theorem page_le (hv : v ≤ NVPAGES) : v * PGSIZE ≤ MAXVA := by
  rw [← NVPAGES_mul]
  exact mul_le_mul_right _ hv

variable [KernelImage]

/-- **The loop of `mappages`** maps the pages of the range one by one, until `walk` has no
memory for a table. -/
theorem mappagesLoop_ends (hold : Holds physPages s (tables s.mem 2 pt))
    (hpa : pa < 2 ^ 64) (hperm : perm < 2 ^ 64) (hleaf : PteLeaf perm) {fuel : ℕ}
    (hfuel : n < fuel) (hend : v + n < NVPAGES)
    (hfree : ∀ i ≤ n, ¬ PteValid (vmap s.mem pt (v + i))) :
    Ends (mappagesLoop pt ((v + n) * PGSIZE) perm fuel (v * PGSIZE) pa) s
      (fun _ => False) fun r s' => ∃ j ≤ n + 1,
        Remap s s' pt 0 0 (fillRange (vmap s.mem pt) v j (mapped pa perm))
        ∧ (r = 0 ∧ j = n + 1 ∨ r = -1 ∧ j ≤ n) := by
  induction fuel generalizing s v n pa with
  | zero => exact absurd hfuel (not_lt_zero n)
  | succ fuel ih =>
    have hv : v < NPTE ^ 3 := lt_trans (by omega) NVPAGES_lt
    rw [mappagesLoop]
    refine ends_bind ((walk_ends hold (page_lt (by omega))).mono fun res s₁ hwalk => ?_)
    obtain ⟨hwalk, hfind⟩ := hwalk
    cases res with
    | none =>
      refine ends_pure ⟨0, zero_le _, ?_, .inr ⟨rfl, zero_le _⟩⟩
      rw [fillRange_zero]
      exact hwalk
    | some r =>
      have hpte : pteAt s₁.mem r.table r.slot = vmap s.mem pt v := by
        rw [pteAt_of_find hv (hfind r rfl), hwalk.map]
      have hinv := hfree 0 (zero_le n)
      rw [add_zero, ← hpte] at hinv
      refine ends_bind (ends_get ?_)
      rw [if_neg hinv]
      refine ends_bind (ends_modify ?_)
      have hone := hwalk.trans (Remap.of_setPte (hwalk.holds_tables hold) hv (hfind r rfl)
        (entry_lt hpa hperm) fun _ => (pteLeaf_entry pa perm).mpr hleaf)
      rw [hwalk.map] at hone
      cases n with
      | zero =>
        rw [if_pos (by rw [add_zero])]
        refine ends_pure ⟨1, le_rfl, ?_, .inl ⟨rfl, rfl⟩⟩
        rw [fillRange_one, mapped_zero hpa]
        exact hone
      | succ n =>
        have hne : v * PGSIZE ≠ (v + (n + 1)) * PGSIZE := by
          unfold PGSIZE
          omega
        have hnext : u64 (v * PGSIZE + PGSIZE) = (v + 1) * PGSIZE := by
          rw [← succ_mul]
          exact u64_of_lt (lt_trans (page_lt (by omega)) (by decide))
        rw [if_neg hne, hnext, show v + (n + 1) = v + 1 + n by omega]
        refine (ih (hone.holds_tables hold) (u64_lt _) (by omega) (by omega) fun i hi => ?_).mono ?_
        · rw [hone.map, update_of_ne (by omega), show v + 1 + i = v + (i + 1) by omega]
          exact hfree (i + 1) (by omega)
        · rintro r' s' ⟨j, hj, hrest, hres⟩
          refine ⟨j + 1, by omega, ?_, by omega⟩
          have hall := hone.trans hrest
          rw [hone.map, ← mapped_zero hpa] at hall
          rw [← fillRange_update_front, funext fun i => (mapped_succ pa perm i).symm]
          exact hall

/-- **`mappages`** maps the pages that the range touches, or the first of them before memory
for a table runs out. -/
theorem mappages_ends {va size : ℕ} (hold : Holds physPages s (tables s.mem 2 pt))
    (hpa : pa < 2 ^ 64) (hperm : perm < 2 ^ 64) (hleaf : PteLeaf perm) (hsize : size ≠ 0)
    (hend : va + size ≤ MAXVA)
    (hfree : ∀ w, va / PGSIZE ≤ w → w ≤ (va + size - 1) / PGSIZE →
      ¬ PteValid (vmap s.mem pt w)) :
    Ends (mappages pt va size pa perm) s (fun _ => False) fun r s' =>
      ∃ j, Remap s s' pt 0 0
          (fillRange (vmap s.mem pt) (va / PGSIZE) j (mapped pa perm))
        ∧ (r = 0 ∧ va / PGSIZE + j = (va + size - 1) / PGSIZE + 1
          ∨ r = -1 ∧ va / PGSIZE + j ≤ (va + size - 1) / PGSIZE) := by
  have hle : va / PGSIZE ≤ (va + size - 1) / PGSIZE := Nat.div_le_div_right (by omega)
  have hlast : (va + size - 1) / PGSIZE < NVPAGES := div_lt_NVPAGES (by omega)
  have hfuel : (MAXVA - va / PGSIZE * PGSIZE) / PGSIZE = NVPAGES - va / PGSIZE := by
    rw [mul_comm, sub_mul_div]
    rfl
  have hmax : MAXVA < 2 ^ 64 := by decide
  unfold mappages PGROUNDDOWN
  rw [if_neg hsize, u64_of_lt (by omega)]
  simp only
  rw [hfuel]
  have hloop := mappagesLoop_ends (v := va / PGSIZE)
    (n := (va + size - 1) / PGSIZE - va / PGSIZE) hold hpa hperm hleaf
    (show _ < NVPAGES - va / PGSIZE by omega) (by omega)
    fun i hi => hfree _ (by omega) (by omega)
  rw [Nat.add_sub_cancel' hle] at hloop
  refine hloop.mono ?_
  rintro r s' ⟨j, -, hmap, hres⟩
  exact ⟨j, hmap, by omega⟩

/-- **`mappages` of one page.** -/
theorem mappages_page_ends (hold : Holds physPages s (tables s.mem 2 pt))
    (hpa : pa < 2 ^ 64) (hperm : perm < 2 ^ 64) (hleaf : PteLeaf perm) (hv : v < NVPAGES)
    (hfree : ¬ PteValid (vmap s.mem pt v)) :
    Ends (mappages pt (v * PGSIZE) PGSIZE pa perm) s (fun _ => False) fun r s' =>
      r = 0 ∧ Remap s s' pt 0 0
          (update (vmap s.mem pt) v (PA2PTE pa ||| perm ||| PTE_V))
      ∨ r = -1 ∧ Remap s s' pt 0 0 (vmap s.mem pt) := by
  have hfirst : v * PGSIZE / PGSIZE = v := Nat.mul_div_cancel _ (by decide)
  have hlast : (v * PGSIZE + PGSIZE - 1) / PGSIZE = v := by
    unfold PGSIZE
    omega
  have hend : v * PGSIZE + PGSIZE ≤ MAXVA := by
    rw [← succ_mul]
    exact page_le hv
  refine (mappages_ends hold hpa hperm hleaf (by decide) hend fun w hw hw' => ?_).mono ?_
  · rw [hfirst] at hw
    rw [hlast] at hw'
    rwa [le_antisymm hw' hw]
  · rintro r s' ⟨j, hmap, hres⟩
    rw [hfirst] at hmap
    rw [hfirst, hlast] at hres
    obtain ⟨rfl, hj⟩ | ⟨rfl, hj⟩ := hres
    · obtain rfl : j = 1 := by omega
      rw [fillRange_one, mapped_zero hpa] at hmap
      exact .inl ⟨rfl, hmap⟩
    · obtain rfl : j = 0 := by omega
      rw [fillRange_zero] at hmap
      exact .inr ⟨rfl, hmap⟩

end Mappages

/-! ## Unmapping -/

section Uvmunmap

variable [KernelImage] {s : PhysMem} {pt v n : ℕ} {do_free : Bool}

theorem kfree_ends {pa : ℕ} (h : pa ∈ physPages) :
    Ends (kfree pa) s (fun _ => False) fun _ s' => Exchange s s' {pa} 0 := by
  obtain ⟨hdvd, hlo, hhi⟩ := mem_physPages h
  have hok : ∃ s', kfree pa s = .ok ((), s') := by
    unfold kfree
    rw [if_neg (by have := mod_eq_zero_of_dvd hdvd; omega)]
    exact ⟨_, rfl⟩
  obtain ⟨s', hok⟩ := hok
  exact ends_of_ok hok (kfree_spec hok).1

omit [KernelImage]

/-- The pages that unmapping a range gives back. -/
def freed (do_free : Bool) (m : ℕ → ℕ) (v n : ℕ) : Multiset ℕ :=
  if do_free then leaves m v n else 0

/-- The mappings of a range were removed. -/
abbrev Unmapped (s s' : PhysMem) (pagetable : ℕ) (do_free : Bool) (v n : ℕ) : Prop :=
  Remap s s' pagetable (freed do_free (vmap s.mem pagetable) v n) 0
    (fillRange (vmap s.mem pagetable) v n fun _ => 0)

/-- The mappings of a range are there, and name pages. -/
def MappedRange (m : ℕ → ℕ) (v n : ℕ) : Prop :=
  ∀ i < n, PteValid (m (v + i)) ∧ PteLeaf (m (v + i))

theorem MappedRange.at_zero {m : ℕ → ℕ} (h : MappedRange m 0 n) (hv : v < n) :
    PteValid (m v) ∧ PteLeaf (m v) := by
  have hv := h v hv
  rwa [Nat.zero_add] at hv

theorem freed_zero (do_free : Bool) (m : ℕ → ℕ) (v : ℕ) : freed do_free m v 0 = 0 := by
  unfold freed
  split <;> rfl

theorem freed_false (m : ℕ → ℕ) (v n : ℕ) : freed false m v n = 0 := rfl

theorem freed_succ (do_free : Bool) (m : ℕ → ℕ) (v n : ℕ) :
    freed do_free m v (n + 1)
      = (if do_free then {PTE2PA (m v)} else 0) + freed do_free m (v + 1) n := by
  unfold freed
  split
  · exact leaves_succ_front m v n
  · rfl

theorem Unmapped.zero : Unmapped s s pt do_free v 0 := by
  rw [Unmapped, freed_zero, fillRange_zero]
  exact .refl s pt 0

variable [KernelImage]

/-- Freeing the page of a mapping, where that is asked for. -/
theorem free_page_ends {pa : ℕ} {F : Multiset ℕ}
    (hold : Holds physPages s (tables s.mem 2 pt + ((if do_free then {pa} else 0) + F))) :
    Ends (if do_free then kfree pa else pure ()) s (fun _ => False) fun _ s' =>
      Remap s s' pt (if do_free then {pa} else 0) 0 (vmap s.mem pt)
      ∧ ∀ va, find s'.mem 2 pt va = find s.mem 2 pt va := by
  rw [← add_assoc] at hold
  cases do_free with
  | false => exact ⟨.refl s pt 0, fun _ => rfl⟩
  | true =>
    have hpage : pa ∈ physPages :=
      hold.left.mem (mem_add.mpr (.inr (mem_singleton_self pa)))
    refine (kfree_ends hpage).mono fun _ s' hex => ⟨.of_keep hex hold.left, fun va => ?_⟩
    have hold' := hold.left
    rw [add_comm] at hold'
    exact find_congr (fun q hq => hex.keep hold' hq) va

/-- **The loop of `uvmunmap`** removes the mappings one by one. -/
theorem uvmunmapLoop_ends
    (hold : Holds physPages s
      (tables s.mem 2 pt + freed do_free (vmap s.mem pt) v n))
    (hend : v + n ≤ NVPAGES) (hmapped : MappedRange (vmap s.mem pt) v n) :
    Ends (uvmunmapLoop pt do_free n (v * PGSIZE)) s (fun _ => False) fun _ s' =>
      Unmapped s s' pt do_free v n := by
  induction n generalizing s v with
  | zero => exact .zero
  | succ n ih =>
    have hv : v < NPTE ^ 3 := lt_trans (by omega) NVPAGES_lt
    obtain ⟨hvalid, hleaf⟩ := hmapped 0 (succ_pos n)
    rw [add_zero] at hvalid hleaf
    have hne : vmap s.mem pt v ≠ 0 := by
      intro hzero
      rw [hzero] at hvalid
      exact not_pteValid_zero hvalid
    obtain ⟨r, hfind⟩ := exists_find hv hne
    have hpte := pteAt_of_find hv hfind
    rw [freed_succ] at hold
    rw [uvmunmapLoop]
    refine ends_bind (ends_of_ok (walk_false (page_lt (by omega))) ?_)
    rw [hfind]
    refine ends_bind (ends_get ?_)
    rw [hpte, if_neg (not_not.mpr hvalid), if_neg (PTE_FLAGS_ne_of_leaf hleaf)]
    refine ends_bind ((free_page_ends hold).mono fun _ s₁ hfree => ?_)
    obtain ⟨hfree, hsame⟩ := hfree
    refine ends_bind (ends_modify ?_)
    have hold₁ := (hfree.add (freed do_free (vmap s.mem pt) (v + 1) n)).holds hold
    rw [zero_add] at hold₁
    have hclear := Remap.of_setPte hold₁.left hv ((hsame _).trans hfind) (by decide)
      fun h => absurd h not_pteValid_zero
    show Ends _ (s₁.store r.table ((s₁.mem r.table).setLE (8 * r.slot) 8 0)) _ _
    generalize s₁.store r.table ((s₁.mem r.table).setLE (8 * r.slot) 8 0) = s₂ at hclear ⊢
    have hone := hfree.trans hclear
    rw [hfree.map] at hone
    -- the mappings behind the first are there still
    have hrest : ∀ i < n, vmap s₂.mem pt (v + 1 + i) = vmap s.mem pt (v + 1 + i) := by
      intro i _
      rw [hone.map, update_of_ne (by omega)]
    have hfreed : freed do_free (vmap s₂.mem pt) (v + 1) n
        = freed do_free (vmap s.mem pt) (v + 1) n := by
      unfold freed
      rw [leaves_congr fun i hi => by rw [hrest i hi]]
    have hnext := hone.add (freed do_free (vmap s.mem pt) (v + 1) n)
    rw [← succ_mul]
    refine (ih (s := s₂) ?_ (by omega) fun i hi => ?_).mono fun _ s' hmap => ?_
    · rw [hfreed]
      simpa using hnext.holds hold
    · rw [hrest i hi, show v + 1 + i = v + (i + 1) by omega]
      exact hmapped (i + 1) (by omega)
    · rw [Unmapped, hfreed] at hmap
      rw [zero_add] at hnext
      have hall := hnext.trans hmap
      rw [hone.map, fillRange_update_front (f := fun _ => 0), ← freed_succ] at hall
      exact hall

/-- **`uvmunmap`** removes the mappings of a range, and gives back its pages if asked to. -/
theorem uvmunmap_ends
    (hold : Holds physPages s
      (tables s.mem 2 pt + freed do_free (vmap s.mem pt) v n))
    (hend : v + n ≤ NVPAGES) (hmapped : MappedRange (vmap s.mem pt) v n) :
    Ends (uvmunmap pt (v * PGSIZE) n do_free) s (fun _ => False) fun _ s' =>
      Unmapped s s' pt do_free v n := by
  have hlt : v * PGSIZE + n * PGSIZE < 2 ^ 64 := by
    rw [← add_mul]
    exact lt_of_le_of_lt (page_le hend) (by decide)
  have hrounds : pageRounds (v * PGSIZE) (u64 (v * PGSIZE + n * PGSIZE)) = n := by
    rw [u64_of_lt hlt]
    unfold pageRounds PGSIZE
    omega
  unfold uvmunmap
  rw [if_neg (not_not.mpr (mul_mod_left _ _)), hrounds]
  exact uvmunmapLoop_ends hold hend hmapped

end Uvmunmap

/-! ## Sizes -/

section Sizes

/-- The pages that memory of `sz` bytes takes. -/
def npages (sz : ℕ) : ℕ := PGROUNDUP sz / PGSIZE

variable {sz : ℕ}

theorem PGROUNDUP_eq (sz : ℕ) : PGROUNDUP sz = npages sz * PGSIZE :=
  (Nat.div_mul_cancel (PGSIZE_dvd_PGROUNDUP sz)).symm

theorem npages_eq (h : sz ≤ MAXVA) : npages sz = (sz + PGSIZE - 1) / PGSIZE := by
  have hmax : MAXVA + PGSIZE < 2 ^ 64 := by decide
  unfold npages PGROUNDUP
  rw [u64_of_lt (by omega), Nat.mul_div_cancel _ (by decide)]

theorem npages_mono {sz' : ℕ} (hle : sz ≤ sz') (h : sz' ≤ MAXVA) : npages sz ≤ npages sz' := by
  rw [npages_eq (hle.trans h), npages_eq h]
  exact Nat.div_le_div_right (by omega)

theorem npages_mul {v : ℕ} (h : v ≤ NVPAGES) : npages (v * PGSIZE) = v := by
  rw [npages_eq (page_le h)]
  unfold PGSIZE
  omega

theorem npages_le_NVPAGES (h : sz ≤ MAXVA) : npages sz ≤ NVPAGES := by
  rw [npages_eq h]
  unfold NVPAGES MAXVA PGSIZE at *
  omega

theorem le_npages_mul (h : sz ≤ MAXVA) : sz ≤ npages sz * PGSIZE := by
  rw [npages_eq h]
  unfold PGSIZE
  omega

theorem lt_npages {a : ℕ} (h : a < sz) (hsz : sz ≤ MAXVA) : a / PGSIZE < npages sz := by
  rw [npages_eq hsz]
  unfold PGSIZE
  omega

theorem pageRounds_PGROUNDUP {sz' : ℕ} (hle : sz ≤ sz') (h : sz' ≤ MAXVA) :
    pageRounds (PGROUNDUP sz) sz' = npages sz' - npages sz := by
  rw [PGROUNDUP_eq, npages_eq (hle.trans h), npages_eq h]
  unfold pageRounds PGSIZE
  omega

variable [KernelImage]

theorem card_physPages_le : physPages.card ≤ 2 ^ 15 := by
  have hbase := KernelImage.base_le
  have htramp := KernelImage.trampoline_lt
  have hend := KernelImage.etext_le
  have hle := le_PGROUNDUP_end
  refine le_trans Finset.card_image_le ?_
  rw [Finset.card_range]
  unfold PHYSTOP KERNBASE PGSIZE at *
  omega

theorem card_le_of_holds {s : PhysMem} {R : Multiset ℕ} (h : Holds physPages s R) :
    R.card ≤ 2 ^ 15 := by
  have hle : R ≤ physPages.val := le_trans (le_add_left _ _) h
  exact le_trans (card_le_card hle) card_physPages_le

end Sizes

/-! ## Shrinking -/

section Uvmdealloc

variable [KernelImage] {s : PhysMem} {pt oldsz newsz : ℕ}

/-- **`uvmdealloc`** gives back the pages between the sizes. -/
theorem uvmdealloc_ends
    (hold : Holds physPages s (tables s.mem 2 pt
      + leaves (vmap s.mem pt) (npages newsz) (npages oldsz - npages newsz)))
    (hold' : oldsz ≤ MAXVA) (hnew : newsz ≤ MAXVA)
    (hmapped : MappedRange (vmap s.mem pt) (npages newsz) (npages oldsz - npages newsz)) :
    Ends (uvmdealloc pt oldsz newsz) s (fun _ => False) fun r s' =>
      r = min oldsz newsz
      ∧ Unmapped s s' pt true (npages newsz) (npages oldsz - npages newsz) := by
  have hnone : npages oldsz - npages newsz = 0 →
      Unmapped s s pt true (npages newsz) (npages oldsz - npages newsz) := fun h => h ▸ .zero
  unfold uvmdealloc
  by_cases hle : oldsz ≤ newsz
  · rw [if_pos hle]
    exact ends_pure ⟨(min_eq_left hle).symm,
      hnone (Nat.sub_eq_zero_of_le (npages_mono hle hnew))⟩
  · have hmin : newsz = min oldsz newsz := (min_eq_right (by omega)).symm
    rw [if_neg hle, PGROUNDUP_eq, PGROUNDUP_eq]
    by_cases hlt : npages newsz < npages oldsz
    · have hcard := card_le_of_holds hold.right
      rw [card_leaves] at hcard
      have hcount : (npages oldsz * PGSIZE - npages newsz * PGSIZE) / PGSIZE
          = npages oldsz - npages newsz := by
        rw [← Nat.sub_mul, Nat.mul_div_cancel _ (by decide)]
      have hint : toReg (int32 ((npages oldsz - npages newsz) % 2 ^ 32))
          = npages oldsz - npages newsz := by
        unfold toReg int32
        rw [if_pos (by omega)]
        omega
      have hend : npages newsz + (npages oldsz - npages newsz) ≤ NVPAGES := by
        rw [Nat.add_sub_cancel' hlt.le]
        exact npages_le_NVPAGES hold'
      rw [if_pos (mul_lt_mul_of_pos_right hlt (by decide)), hcount]
      simp only [hint]
      refine ends_bind ((uvmunmap_ends hold hend hmapped).mono fun _ s' hmap => ?_)
      exact ends_pure ⟨hmin, hmap⟩
    · have hnot : ¬ npages newsz * PGSIZE < npages oldsz * PGSIZE :=
        not_lt.mpr (mul_le_mul_right _ (not_lt.mp hlt))
      rw [if_neg hnot]
      exact ends_pure ⟨hmin, hnone (by omega)⟩

end Uvmdealloc

/-! ## Pages filled in -/

/-- **A range was filled with new pages**: the `i`-th has the flags `flags i` and holds
`contents i`. The owner of the table has these pages now, and beside them `R`. -/
structure Filled [KernelImage] (s s' : PhysMem) (pagetable v n : ℕ) (flags : ℕ → ℕ)
    (contents : ℕ → Page) (R : Multiset ℕ) : Prop where
  exchange : Exchange s s' (tables s.mem 2 pagetable)
    (tables s'.mem 2 pagetable + (leaves (vmap s'.mem pagetable) v n + R))
  grows : tables s.mem 2 pagetable ≤ tables s'.mem 2 pagetable
  outside : ∀ w, ¬ (v ≤ w ∧ w < v + n) → vmap s'.mem pagetable w = vmap s.mem pagetable w
  page : ∀ i < n, ∃ pa ∈ physPages, vmap s'.mem pagetable (v + i) = PA2PTE pa ||| flags i ||| PTE_V
    ∧ s'.mem pa = contents i
  wellTyped : WellTyped s.mem 2 pagetable → WellTyped s'.mem 2 pagetable

namespace Filled

variable [KernelImage] {s s₁ s₂ : PhysMem} {pt v n : ℕ} {flags : ℕ → ℕ}
  {contents : ℕ → Page} {R R' : Multiset ℕ}

theorem zero (s : PhysMem) (pt v : ℕ) (flags : ℕ → ℕ) (contents : ℕ → Page) :
    Filled s s pt v 0 flags contents 0 where
  exchange := by
    rw [leaves_zero, zero_add, add_zero]
    exact .refl _ _
  grows := le_rfl
  outside _ _ := rfl
  page i hi := absurd hi (not_lt_zero i)
  wellTyped := id

theorem PTE2PA_page {pa perm : ℕ} (hpa : pa ∈ physPages) (hperm : perm < 2 ^ 10) :
    PTE2PA (PA2PTE pa ||| perm ||| PTE_V) = pa := by
  have hlt := mem_physPages_lt hpa
  rw [PTE2PA_entry (by omega) hperm, PGROUNDDOWN_of_dvd (mem_physPages hpa).1]

theorem mem_page {m : ℕ → ℕ} {i pa perm : ℕ} (hi : i < n) (hpa : pa ∈ physPages)
    (hperm : perm < 2 ^ 10) (hentry : m (v + i) = PA2PTE pa ||| perm ||| PTE_V) :
    pa ∈ leaves m v n := by
  rw [← PTE2PA_page hpa hperm, ← hentry]
  exact mem_leaves hi

section

variable (h : Filled s s₁ pt v n flags contents R) (hold : Holds physPages s (tables s.mem 2 pt))

include h hold

theorem holds : Holds physPages s₁ (tables s₁.mem 2 pt + (leaves (vmap s₁.mem pt) v n + R)) :=
  h.exchange.holds hold

theorem fresh {q : ℕ} (hq : q ∈ leaves (vmap s₁.mem pt) v n + R) : q ∈ s.free := by
  have hmem : q ∈ (s.free : Multiset ℕ) + tables s.mem 2 pt := by
    rw [← h.exchange.conserve]
    exact mem_add.mpr (.inr (mem_add.mpr (.inr hq)))
  rcases mem_add.mp hmem with hfree | htable
  · exact mem_coe.mp hfree
  · exact absurd hq (disjoint_left.mp (h.holds hold).disjoint
      (mem_of_le h.grows htable))

/-- What is filled in stays while other pages are exchanged. -/
theorem change (hflags : ∀ i < n, flags i < 2 ^ 10) (hex : Exchange s₁ s₂ R R') :
    Filled s s₂ pt v n flags contents R' := by
  have hold₁ := h.holds hold
  rw [← add_assoc, add_comm] at hold₁
  have htables : ∀ q ∈ tables s₁.mem 2 pt, s₂.mem q = s₁.mem q :=
    fun q hq => hex.keep hold₁ (mem_add.mpr (.inl hq))
  have hmap := vmap_congr htables
  refine ⟨?_, ?_, ?_, fun i hi => ?_, fun hw => (h.wellTyped hw).congr htables⟩
  · rw [hmap, tables_congr htables, ← add_assoc]
    have h' := h.exchange
    rw [← add_assoc] at h'
    exact h'.trans (hex.add_left _)
  · rw [tables_congr htables]
    exact h.grows
  · rw [hmap]
    exact h.outside
  · obtain ⟨pa, hpa, hentry, hcontents⟩ := h.page i hi
    refine ⟨pa, hpa, by rw [hmap, hentry], ?_⟩
    have hmem := mem_page hi hpa (hflags i hi) hentry
    rw [hex.keep hold₁ (mem_add.mpr (.inr hmem)), hcontents]

theorem keep {m : ℕ → ℕ} (hmap : Remap s₁ s₂ pt 0 0 m) {q : ℕ}
    (hq : q ∈ leaves (vmap s₁.mem pt) v n + R) : s₂.mem q = s₁.mem q := by
  have hex := hmap.exchange
  rw [add_zero, add_zero] at hex
  exact hex.keep (h.holds hold) hq

/-- What is filled in stays while tables are added. -/
theorem remap (hflags : ∀ i < n, flags i < 2 ^ 10) (hmap : Remap s₁ s₂ pt 0 0 (vmap s₁.mem pt)) :
    Filled s s₂ pt v n flags contents R := by
  refine ⟨?_, h.grows.trans hmap.grows, ?_, fun i hi => ?_, hmap.wellTyped ∘ h.wellTyped⟩
  · have hex := (hmap.add (leaves (vmap s₁.mem pt) v n + R)).exchange
    rw [zero_add] at hex
    rw [hmap.map]
    exact h.exchange.trans hex
  · rw [hmap.map]
    exact h.outside
  · obtain ⟨pa, hpa, hentry, hcontents⟩ := h.page i hi
    refine ⟨pa, hpa, by rw [hmap.map, hentry], ?_⟩
    have hmem := mem_page hi hpa (hflags i hi) hentry
    rw [h.keep hold hmap (mem_add.mpr (.inl hmem)), hcontents]

end

section

variable {pa : ℕ} (h : Filled s s₁ pt v n flags contents {pa})
  (hold : Holds physPages s (tables s.mem 2 pt))

include h hold

theorem mem_physPages_left : pa ∈ physPages :=
  (h.holds hold).right.mem (mem_add.mpr (.inr (mem_singleton_self pa)))

/-- **One more page is filled in.** -/
theorem succ (hflags : ∀ i ≤ n, flags i < 2 ^ 10)
    (hcontents : s₁.mem pa = contents n)
    (hmap : Remap s₁ s₂ pt 0 0
      (update (vmap s₁.mem pt) (v + n) (PA2PTE pa ||| flags n ||| PTE_V))) :
    Filled s s₂ pt v (n + 1) flags contents 0 := by
  have hpa := h.mem_physPages_left hold
  have hbefore : ∀ i < n, vmap s₂.mem pt (v + i) = vmap s₁.mem pt (v + i) := by
    intro i hi
    rw [hmap.map, update_of_ne (by omega)]
  have hnew : vmap s₂.mem pt (v + n) = PA2PTE pa ||| flags n ||| PTE_V := by
    rw [hmap.map, update_self]
  refine ⟨?_, h.grows.trans hmap.grows, fun w hw => ?_, fun i hi => ?_,
    hmap.wellTyped ∘ h.wellTyped⟩
  · have hleaves : leaves (vmap s₂.mem pt) v (n + 1)
        = leaves (vmap s₁.mem pt) v n + {pa} := by
      rw [leaves_succ, hnew, PTE2PA_page hpa (hflags n le_rfl),
        leaves_congr fun i hi => by rw [hbefore i hi]]
    have hex := (hmap.add (leaves (vmap s₁.mem pt) v n + {pa})).exchange
    rw [zero_add] at hex
    rw [add_zero, hleaves]
    exact h.exchange.trans hex
  · rw [hmap.map, update_of_ne (by omega), h.outside w (by omega)]
  · rcases Nat.lt_succ_iff_lt_or_eq.mp hi with hi | rfl
    · obtain ⟨pa', hpa', hentry, hcontents'⟩ := h.page i hi
      refine ⟨pa', hpa', by rw [hbefore i hi, hentry], ?_⟩
      have hmem := mem_page hi hpa' (hflags i hi.le) hentry
      rw [h.keep hold hmap (mem_add.mpr (.inl hmem)), hcontents']
    · refine ⟨pa, hpa, hnew, ?_⟩
      rw [h.keep hold hmap (mem_add.mpr (.inr (mem_singleton_self pa))),
        hcontents]

/-- **Mapping a new page** fills it in, or the page is left over. -/
theorem mappages_ends (hflags : ∀ i ≤ n, flags i < 2 ^ 10)
    (hleaf : PteLeaf (flags n)) (hcontents : s₁.mem pa = contents n) (hv : v + n < NVPAGES)
    (hzero : vmap s.mem pt (v + n) = 0) :
    Ends (mappages pt ((v + n) * PGSIZE) PGSIZE pa (flags n)) s₁ (fun _ => False)
      fun r s' => r = 0 ∧ Filled s s' pt v (n + 1) flags contents 0
        ∨ r = -1 ∧ Filled s s' pt v n flags contents {pa} := by
  have hold₁ := h.holds hold
  have hlt := mem_physPages_lt (h.mem_physPages_left hold)
  have hfree : ¬ PteValid (vmap s₁.mem pt (v + n)) := by
    rw [h.outside _ (by omega), hzero]
    exact not_pteValid_zero
  refine (mappages_page_ends hold₁.left (by omega) (lt_trans (hflags n le_rfl) (by decide)) hleaf
    hv hfree).mono ?_
  rintro r s' (⟨rfl, hmap⟩ | ⟨rfl, hmap⟩)
  · exact .inl ⟨rfl, h.succ hold hflags hcontents hmap⟩
  · exact .inr ⟨rfl, h.remap hold (fun i hi => hflags i hi.le) hmap⟩

theorem kfree_ends (hflags : ∀ i < n, flags i < 2 ^ 10) :
    Ends (kfree pa) s₁ (fun _ => False) fun _ s' => Filled s s' pt v n flags contents 0 :=
  (Xv6.kfree_ends (h.mem_physPages_left hold)).mono fun _ _ hex => h.change hold hflags hex

end

theorem mappedRange (h : Filled s s₁ pt v n flags contents R)
    (hleaf : ∀ i < n, PteLeaf (flags i)) : MappedRange (vmap s₁.mem pt) v n := by
  intro i hi
  obtain ⟨pa, -, hentry, -⟩ := h.page i hi
  rw [hentry]
  exact ⟨pteValid_entry _ _, (pteLeaf_entry _ _).mpr (hleaf i hi)⟩

/-- **Unmapping what was filled in** gives back the map there was. -/
theorem undo (h : Filled s s₁ pt v n flags contents 0)
    (hzero : ∀ i < n, vmap s.mem pt (v + i) = 0)
    (hmap : Unmapped s₁ s₂ pt true v n) : Remap s s₂ pt 0 0 (vmap s.mem pt) := by
  refine ⟨?_, h.grows.trans hmap.grows, ?_, hmap.wellTyped ∘ h.wellTyped⟩
  · have hex := h.exchange
    rw [add_zero] at hex
    rw [add_zero]
    exact hex.trans hmap.exchange
  · rw [hmap.map]
    funext w
    unfold fillRange
    split <;> rename_i hw
    · have hzero' := hzero (w - v) (by omega)
      rw [show v + (w - v) = w by omega] at hzero'
      exact hzero'.symm
    · exact h.outside w hw

end Filled

/-! ## Growing -/

/-- The flags of user memory. -/
def userFlags : ℕ := PTE_W ||| PTE_X ||| PTE_R ||| PTE_U

theorem userFlags_lt : userFlags < 2 ^ 10 := by decide

theorem pteLeaf_userFlags : PteLeaf userFlags := by decide

section Uvmalloc

variable [KernelImage] {s : PhysMem} {pt oldsz newsz v : ℕ}

/-- Memory was grown by `n` pages of zeros. -/
abbrev Grown (s s' : PhysMem) (pagetable v n : ℕ) : Prop :=
  Filled s s' pagetable v n (fun _ => userFlags) (fun _ => .fill PGSIZE 0) 0

/-- Where memory runs out, the pages are given back. -/
theorem uvmalloc_undo_ends {s₁ : PhysMem} {i : ℕ}
    (hold : Holds physPages s (tables s.mem 2 pt)) (h : Grown s s₁ pt v i)
    (hv : v + 2 ^ 15 < NVPAGES)
    (hzero : ∀ w, v ≤ w → w < v + 2 ^ 15 → vmap s.mem pt w = 0) :
    Ends (do
      let _ ← uvmdealloc pt ((v + i) * PGSIZE) (v * PGSIZE)
      pure 0 : MemProg ℕ) s₁ (fun _ => False) fun r s' =>
        r = 0 ∧ Remap s s' pt 0 0 (vmap s.mem pt) := by
  have hold₁ := h.holds hold
  rw [add_zero] at hold₁
  have hcard := card_le_of_holds hold₁.right
  rw [card_leaves] at hcard
  have hpages : npages ((v + i) * PGSIZE) - npages (v * PGSIZE) = i := by
    rw [npages_mul (by omega), npages_mul (by omega), Nat.add_sub_cancel_left]
  have hfirst : npages (v * PGSIZE) = v := npages_mul (by omega)
  have hmapped := h.mappedRange fun _ _ => pteLeaf_userFlags
  have hdealloc : Ends (uvmdealloc pt ((v + i) * PGSIZE) (v * PGSIZE)) s₁ _ _ :=
    uvmdealloc_ends (by rwa [hpages, hfirst]) (page_le (by omega)) (page_le (by omega))
      (by rwa [hpages, hfirst])
  rw [hpages, hfirst] at hdealloc
  refine ends_bind (hdealloc.mono fun _ s' hmap => ends_pure ⟨rfl, ?_⟩)
  exact h.undo (fun j hj => hzero _ (by omega) (by omega)) hmap.2

/-- **The loop of `uvmalloc`**, when `i` pages are there. -/
theorem uvmallocLoop_ends {s₁ : PhysMem} {n i : ℕ}
    (hold : Holds physPages s (tables s.mem 2 pt)) (h : Grown s s₁ pt v i)
    (hv : v + 2 ^ 15 < NVPAGES)
    (hzero : ∀ w, v ≤ w → w < v + 2 ^ 15 → vmap s.mem pt w = 0) :
    Ends (uvmallocLoop pt (v * PGSIZE) newsz n ((v + i) * PGSIZE)) s₁
      (fun _ => False) fun r s' => r = 0 ∧ Remap s s' pt 0 0 (vmap s.mem pt)
        ∨ r = newsz ∧ Grown s s' pt v (i + n) := by
  have hflags : ∀ j, (fun _ : ℕ => userFlags) j < 2 ^ 10 := fun _ => userFlags_lt
  induction n generalizing s₁ i with
  | zero => exact ends_pure (.inr ⟨rfl, h⟩)
  | succ n ih =>
    rw [uvmallocLoop]
    refine ends_bind ((kalloc_ends s₁).mono fun res s₂ hkalloc => ?_)
    cases res with
    | none =>
      have h₂ := h.change hold (fun j _ => hflags j) (hkalloc.2 0)
      exact (uvmalloc_undo_ends hold h₂ hv hzero).mono fun _ _ hres => .inl hres
    | some mem =>
      obtain ⟨-, hex, -⟩ := hkalloc
      refine ends_bind (ends_modify ?_)
      have h₃ := h.change hold (fun j _ => hflags j)
        (hex.trans (exchange_store (mem_singleton_self mem) (.fill PGSIZE 0)))
      have hcontents : (s₂.store mem (.fill PGSIZE 0)).mem mem = .fill PGSIZE 0 :=
        update_self _ _ _
      show Ends _ (s₂.store mem (.fill PGSIZE 0)) _ _
      generalize s₂.store mem (.fill PGSIZE 0) = s₃ at h₃ hcontents ⊢
      have hcard := card_le_of_holds (h₃.holds hold).right
      rw [card_add, card_leaves, card_singleton] at hcard
      refine ends_bind ((h₃.mappages_ends hold (fun j _ => hflags j) pteLeaf_userFlags
        hcontents (by omega) (hzero _ (by omega) (by omega))).mono ?_)
      rintro r s₄ (⟨rfl, h₄⟩ | ⟨rfl, h₄⟩)
      · rw [if_neg (by simp), ← succ_mul, show (v + i).succ = v + (i + 1) by omega,
          show i + (n + 1) = i + 1 + n by omega]
        exact ih h₄
      · rw [if_pos (by decide)]
        refine ends_bind ((h₄.kfree_ends hold fun j _ => hflags j).mono fun _ s₅ h₅ => ?_)
        exact (uvmalloc_undo_ends hold h₅ hv hzero).mono fun _ _ hres => .inl hres

/-- **`uvmalloc`** adds pages of zeros up to the new size, or leaves the map as it was. -/
theorem uvmalloc_ends (hold : Holds physPages s (tables s.mem 2 pt))
    (hv : npages oldsz + 2 ^ 15 < NVPAGES)
    (hzero : ∀ w, npages oldsz ≤ w → w < npages oldsz + 2 ^ 15 → vmap s.mem pt w = 0) :
    Ends (uvmalloc pt oldsz newsz) s (fun _ => False) fun r s' =>
      newsz < oldsz ∧ r = oldsz ∧ s' = s
      ∨ oldsz ≤ newsz ∧ (r = 0 ∧ Remap s s' pt 0 0 (vmap s.mem pt)
        ∨ r = newsz ∧ newsz ≤ MAXVA
          ∧ Grown s s' pt (npages oldsz) (npages newsz - npages oldsz)) := by
  unfold uvmalloc
  by_cases hlt : newsz < oldsz
  · rw [if_pos hlt]
    exact ends_pure (.inl ⟨hlt, rfl, rfl⟩)
  · rw [if_neg hlt]
    have hle := not_lt.mp hlt
    have hloop : Ends (uvmallocLoop pt (npages oldsz * PGSIZE) newsz
        (pageRounds (PGROUNDUP oldsz) newsz) ((npages oldsz + 0) * PGSIZE)) s _ _ :=
      uvmallocLoop_ends hold (.zero s pt (npages oldsz) _ _) hv hzero
    rw [add_zero, zero_add, ← PGROUNDUP_eq] at hloop
    refine hloop.mono ?_
    rintro r s' (hres | ⟨hr, hgrown⟩)
    · exact .inr ⟨hle, .inl hres⟩
    · -- as many pages as there are do not get near the end of the address space
      have hcard := card_le_of_holds (hgrown.holds hold).right
      rw [add_zero, card_leaves] at hcard
      have hmax : newsz ≤ MAXVA := by
        rw [PGROUNDUP_eq] at hcard
        rw [← NVPAGES_mul]
        unfold pageRounds PGSIZE at *
        omega
      rw [pageRounds_PGROUNDUP hle hmax] at hgrown
      exact .inr ⟨hle, .inr ⟨hr, hmax, hgrown⟩⟩

end Uvmalloc

/-! ## Copying -/

section Uvmcopy

variable [KernelImage] {s : PhysMem} {old new : ℕ}

/-- The pages of a user memory were copied: the same flags, the same contents. -/
abbrev Copied (s s' : PhysMem) (old new n : ℕ) (R : Multiset ℕ) : Prop :=
  Filled s s' new 0 n (fun i => PTE_FLAGS (vmap s.mem old i))
    (fun i => s.mem (PTE2PA (vmap s.mem old i))) R

/-- Where memory runs out, the copies are given back. -/
theorem uvmcopy_undo_ends {s₁ : PhysMem} {i : ℕ}
    (hold : Holds physPages s (tables s.mem 2 new)) (h : Copied s s₁ old new i 0)
    (hi : i ≤ NVPAGES) (hmapped : MappedRange (vmap s.mem old) 0 i)
    (hzero : ∀ j < i, vmap s.mem new j = 0) :
    Ends (do
      uvmunmap new 0 (i * PGSIZE / PGSIZE) true
      pure (-1) : MemProg ℤ) s₁ (fun _ => False) fun r s' =>
        r = -1 ∧ Remap s s' new 0 0 (vmap s.mem new) := by
  have hold₁ := h.holds hold
  rw [add_zero] at hold₁
  have hleaf : ∀ j < i, PteLeaf (PTE_FLAGS (vmap s.mem old j)) :=
    fun j hj => (pteLeaf_flags _).mpr (hmapped.at_zero hj).2
  have hunmap : Ends (uvmunmap new (0 * PGSIZE) i true) s₁ _ _ :=
    uvmunmap_ends hold₁ (by omega) (h.mappedRange hleaf)
  rw [Nat.zero_mul] at hunmap
  rw [Nat.mul_div_cancel _ (by decide)]
  refine ends_bind (hunmap.mono fun _ s' hmap => ends_pure ⟨rfl, h.undo ?_ hmap⟩)
  intro j hj
  rw [zero_add]
  exact hzero j hj

/-- **The loop of `uvmcopy`**, when `i` pages are copied. -/
theorem uvmcopyLoop_ends {s₁ : PhysMem} {n i : ℕ}
    (hold : Holds physPages s (tables s.mem 2 new
      + (tables s.mem 2 old + leaves (vmap s.mem old) 0 (i + n))))
    (h : Copied s s₁ old new i 0) (hend : i + n ≤ NVPAGES)
    (hmapped : MappedRange (vmap s.mem old) 0 (i + n)) (hzero : ∀ j < i + n, vmap s.mem new j = 0) :
    Ends (uvmcopyLoop old new n (i * PGSIZE)) s₁ (fun _ => False) fun r s' =>
      r = 0 ∧ Copied s s' old new (i + n) 0 ∨ r = -1 ∧ Remap s s' new 0 0 (vmap s.mem new) := by
  have hflags : ∀ j, PTE_FLAGS (vmap s.mem old j) < 2 ^ 10 := fun j => PTE_FLAGS_lt _
  induction n generalizing s₁ i with
  | zero => exact ends_pure (.inl ⟨rfl, h⟩)
  | succ n ih =>
    have hi : i < NPTE ^ 3 := lt_trans (by omega) NVPAGES_lt
    obtain ⟨hvalid, hleaf⟩ := hmapped.at_zero (v := i) (by omega)
    have hundo : ∀ s₂, Copied s s₂ old new i 0 → Ends (do
        uvmunmap new 0 (i * PGSIZE / PGSIZE) true
        pure (-1) : MemProg ℤ) s₂ (fun _ => False) fun r s' =>
          r = 0 ∧ Copied s s' old new (i + (n + 1)) 0
          ∨ r = -1 ∧ Remap s s' new 0 0 (vmap s.mem new) := fun s₂ h₂ =>
      (uvmcopy_undo_ends hold.left h₂ (by omega) (fun j hj => hmapped j (by omega))
        fun j hj => hzero j (by omega)).mono fun _ _ hres => .inr hres
    -- the parent is in the context of all that is done
    have hparent : ∀ {s₂ : PhysMem} {R : Multiset ℕ}, Exchange s s₂ (tables s.mem 2 new) R →
        ∀ q ∈ tables s.mem 2 old + leaves (vmap s.mem old) 0 (i + (n + 1)), s₂.mem q = s.mem q :=
      fun hex q hq => hex.keep hold hq
    have hfind : ∃ r, find s.mem 2 old (i * PGSIZE) = some r := by
      refine exists_find hi fun hzero => ?_
      rw [hzero] at hvalid
      exact not_pteValid_zero hvalid
    obtain ⟨r, hfind⟩ := hfind
    have htables : ∀ q ∈ tables s.mem 2 old, s₁.mem q = s.mem q :=
      fun q hq => hparent h.exchange q (mem_add.mpr (.inl hq))
    have hpte : pteAt s₁.mem r.table r.slot = vmap s.mem old i := by
      rw [pteAt_congr (htables _ (find_mem_tables hfind).1), pteAt_of_find hi hfind]
    rw [uvmcopyLoop]
    refine ends_bind (ends_of_ok (walk_false (page_lt (by omega))) ?_)
    rw [find_congr htables, hfind]
    refine ends_bind (ends_get ?_)
    rw [hpte, if_neg (not_not.mpr hvalid)]
    refine ends_bind ((kalloc_ends s₁).mono fun res s₂ hkalloc => ?_)
    cases res with
    | none => exact hundo s₂ (h.change hold.left (fun j _ => hflags j) (hkalloc.2 0))
    | some mem =>
      obtain ⟨-, hex, -⟩ := hkalloc
      refine ends_bind (ends_modify ?_)
      have h₂ := h.change hold.left (fun j _ => hflags j) hex
      have hsrc : s₂.mem (PTE2PA (vmap s.mem old i)) = s.mem (PTE2PA (vmap s.mem old i)) := by
        exact hparent h₂.exchange _ (mem_add.mpr (.inr (mem_leaves_zero (by omega))))
      have h₃ := h₂.change hold.left (fun j _ => hflags j)
        (exchange_store (mem_singleton_self mem) (s₂.mem (PTE2PA (vmap s.mem old i))))
      have hcontents : (s₂.store mem (s₂.mem (PTE2PA (vmap s.mem old i)))).mem mem
          = s.mem (PTE2PA (vmap s.mem old i)) := by
        rw [← hsrc]
        exact update_self _ _ _
      show Ends _ (s₂.store mem (s₂.mem (PTE2PA (vmap s.mem old i)))) _ _
      generalize s₂.store mem (s₂.mem (PTE2PA (vmap s.mem old i))) = s₃ at h₃ hcontents ⊢
      have hmap := h₃.mappages_ends hold.left (fun j _ => hflags j) ((pteLeaf_flags _).mpr hleaf)
        hcontents (by omega) (by rw [zero_add]; exact hzero i (by omega))
      rw [zero_add] at hmap
      refine ends_bind (hmap.mono ?_)
      rintro e s₄ (⟨rfl, h₄⟩ | ⟨rfl, h₄⟩)
      · rw [if_neg (by simp), ← succ_mul, show i + (n + 1) = i + 1 + n by omega]
        rw [show i + (n + 1) = i + 1 + n by omega] at hold hend hmapped hzero
        exact ih hold h₄ hend hmapped hzero
      · rw [if_pos (by decide)]
        exact ends_bind ((h₄.kfree_ends hold.left fun j _ => hflags j).mono
          fun _ s₅ h₅ => hundo s₅ h₅)

/-- **`uvmcopy`** copies the pages of a memory, or leaves the new table as it was. -/
theorem uvmcopy_ends {sz : ℕ}
    (hold : Holds physPages s (tables s.mem 2 new
      + (tables s.mem 2 old + leaves (vmap s.mem old) 0 (npages sz))))
    (hsz : sz ≤ MAXVA) (hmapped : MappedRange (vmap s.mem old) 0 (npages sz))
    (hzero : ∀ j < npages sz, vmap s.mem new j = 0) :
    Ends (uvmcopy old new sz) s (fun _ => False) fun r s' =>
      r = 0 ∧ Copied s s' old new (npages sz) 0
      ∨ r = -1 ∧ Remap s s' new 0 0 (vmap s.mem new) := by
  have hrounds : pageRounds 0 sz = 0 + npages sz := by
    rw [npages_eq hsz, zero_add]
    rfl
  have hloop : Ends (uvmcopyLoop old new (npages sz) (0 * PGSIZE)) s _ _ :=
    uvmcopyLoop_ends (by rwa [zero_add]) (.zero s new 0 _ _)
      (by rw [zero_add]; exact npages_le_NVPAGES hsz) (by rwa [zero_add]) (by rwa [zero_add])
  rw [zero_add, zero_mul] at hloop
  unfold uvmcopy
  rw [hrounds, zero_add]
  exact hloop

end Uvmcopy

/-! ## Creating and freeing tables -/

/-- No entry of a page table names a page. -/
def NoLeaf (mem : ℕ → Page) : ℕ → ℕ → Prop
  | 0, pagetable => ∀ i < NPTE, ¬ PteValid (pteAt mem pagetable i)
  | level + 1, pagetable => ∀ i < NPTE, PteValid (pteAt mem pagetable i) →
      NoLeaf mem level (PTE2PA (pteAt mem pagetable i))

section NoLeaf

variable {mem mem' : ℕ → Page} {level pt : ℕ}

theorem NoLeaf.congr (h : NoLeaf mem level pt)
    (hsame : ∀ q ∈ tables mem level pt, mem' q = mem q) : NoLeaf mem' level pt := by
  induction level generalizing pt with
  | zero =>
    intro i hi
    rw [pteAt_congr (hsame _ (self_mem_tables mem _ _))]
    exact h i hi
  | succ level ih =>
    intro i hi
    rw [pteAt_congr (hsame _ (self_mem_tables mem _ _))]
    exact fun hv => ih (h i hi hv) fun q hq => hsame q (mem_tables_of_subtables hi hv hq)

/-- There is an address for every slot on the way down: with slot `i` at one level, and as a given
address below it. -/
theorem exists_PX {i : ℕ} (hi : i < NPTE) (level va : ℕ) :
    ∃ va', PX level va' = i ∧ ∀ k < level, PX k va' = PX k va := by
  have hpos : 0 < NPTE := lt_of_le_of_lt (Nat.zero_le i) hi
  have hpow : 0 < NPTE ^ level := Nat.pow_pos hpos
  refine ⟨(i * NPTE ^ level + va / PGSIZE % NPTE ^ level) * PGSIZE, ?_, fun k hk => ?_⟩
  · rw [PX_eq, Nat.mul_div_cancel _ (by decide), add_comm, Nat.add_mul_div_right _ _ hpow,
      Nat.div_eq_of_lt (Nat.mod_lt _ hpow), Nat.zero_add, Nat.mod_eq_of_lt hi]
  · have hdvd : NPTE ^ k * NPTE ∣ NPTE ^ level := by
      rw [← pow_succ]
      exact Nat.pow_dvd_pow _ hk
    rw [PX_eq, PX_eq, Nat.mul_div_cancel _ (by decide), ← Nat.mod_mul_right_div_self,
      ← Nat.mod_mul_right_div_self (va / PGSIZE), Nat.add_mod,
      Nat.mod_eq_zero_of_dvd (dvd_mul_of_dvd_right hdvd i), Nat.zero_add, Nat.mod_mod,
      mod_mod_of_dvd _ hdvd]

theorem noLeaf_of_entry (h : ∀ va, ¬ PteValid (entry mem level pt va)) :
    NoLeaf mem level pt := by
  induction level generalizing pt with
  | zero =>
    intro i hi
    obtain ⟨va, hva, -⟩ := exists_PX hi 0 0
    rw [← hva]
    exact h va
  | succ level ih =>
    intro i hi hv
    refine ih fun va => ?_
    obtain ⟨va', hslot, hbelow⟩ := exists_PX hi (level + 1) va
    have hentry := h va'
    rw [entry_succ, hslot, if_pos hv] at hentry
    unfold entry at hentry ⊢
    rwa [find_of_agree fun k hk => hbelow k (lt_succ_of_le hk)] at hentry

theorem noLeaf_of_vmap (h : ∀ v, ¬ PteValid (vmap mem pt v)) : NoLeaf mem 2 pt := by
  refine noLeaf_of_entry fun va => ?_
  have hpos : 0 < NPTE ^ 3 := lt_of_le_of_lt (zero_le _) NVPAGES_lt
  have hlt := mod_lt (va / PGSIZE) hpos
  have hv := h (va / PGSIZE % NPTE ^ 3)
  rw [vmap_of_lt hlt] at hv
  unfold entry at hv ⊢
  rwa [find_of_agree fun k hk => ?_] at hv
  have hdvd : NPTE ^ k * NPTE ∣ NPTE ^ 3 := by
    rw [← pow_succ]
    exact Nat.pow_dvd_pow _ (by omega)
  rw [PX_eq, PX_eq, Nat.mul_div_cancel _ (by decide), ← Nat.mod_mul_right_div_self,
    ← Nat.mod_mul_right_div_self (va / PGSIZE), Nat.mod_mod_of_dvd _ hdvd]

end NoLeaf

section Freewalk

variable [KernelImage] {s : PhysMem} {level pt : ℕ}

omit [KernelImage] in
theorem freewalkLoop_lowest (child : ℕ → MemProg Unit) {n i : ℕ} (hn : i + n = NPTE)
    (h : NoLeaf s.mem 0 pt) : freewalkLoop child pt n i s = .ok ((), s) := by
  induction n generalizing i with
  | zero => rfl
  | succ n ih =>
    have hinv := h i (by omega)
    rw [freewalkLoop, get_bind, if_neg fun hc => hinv hc.1, if_neg hinv]
    exact ih (by omega)

/-- **The loop of `freewalk`** gives back the tables below the slots from `i` on. -/
theorem freewalkLoop_ends {child : ℕ → MemProg Unit}
    (hchild : ∀ (s : PhysMem) (c : ℕ), Holds physPages s (tables s.mem level c) →
      WellTyped s.mem level c → NoLeaf s.mem level c →
      Ends (child c) s (fun _ => False) fun _ s' => Exchange s s' (tables s.mem level c) 0)
    {n i : ℕ} (hn : i + n = NPTE)
    (hold : Holds physPages s
      ({pt} + ∑ j ∈ Finset.Ico i NPTE, subtables s.mem level pt j))
    (hbelow : ∀ j, i ≤ j → j < NPTE → PteValid (pteAt s.mem pt j) →
      ¬ PteLeaf (pteAt s.mem pt j)
      ∧ WellTyped s.mem level (PTE2PA (pteAt s.mem pt j))
      ∧ NoLeaf s.mem level (PTE2PA (pteAt s.mem pt j))) :
    Ends (freewalkLoop child pt n i) s (fun _ => False) fun _ s' =>
      Exchange s s' ({pt} + ∑ j ∈ Finset.Ico i NPTE, subtables s.mem level pt j)
        {pt} := by
  induction n generalizing s i with
  | zero =>
    rw [show i = NPTE by omega, Finset.Ico_self, Finset.sum_empty, add_zero]
    exact .refl _ _
  | succ n ih =>
    have hi : i < NPTE := by omega
    rw [Finset.sum_eq_sum_Ico_succ_bot hi] at hold ⊢
    rw [freewalkLoop]
    refine ends_bind (ends_get ?_)
    by_cases hv : PteValid (pteAt s.mem pt i)
    · obtain ⟨hnotLeaf, hwell, hno⟩ := hbelow i le_rfl hi hv
      rw [if_pos ⟨hv, hnotLeaf⟩, subtables_of_valid hv]
      rw [subtables_of_valid hv] at hold
      rw [add_left_comm] at hold ⊢
      refine ends_bind ((hchild s _ hold.left hwell hno).mono fun _ s₁ hex => ?_)
      refine ends_bind (ends_modify ?_)
      have hself : s₁.mem pt = s.mem pt :=
        hex.keep hold (mem_add.mpr (.inl (mem_singleton_self _)))
      have hadd := hex.add ({pt}
        + ∑ j ∈ Finset.Ico (i + 1) NPTE, subtables s.mem level pt j)
      rw [zero_add] at hadd
      have hex₂ := hadd.trans (exchange_store (mem_add.mpr
        (.inl (mem_singleton_self pt))) ((s₁.mem pt).setLE (8 * i) 8 0))
      have hmem : (s₁.store pt ((s₁.mem pt).setLE (8 * i) 8 0)).mem
          = withPte s₁.mem pt i 0 := rfl
      show Ends _ (s₁.store pt ((s₁.mem pt).setLE (8 * i) 8 0)) _ _
      generalize s₁.store pt ((s₁.mem pt).setLE (8 * i) 8 0) = s₂ at hex₂ hmem ⊢
      -- the tables below the slots behind this one are not touched
      have hpte : ∀ j, i + 1 ≤ j → pteAt s₂.mem pt j = pteAt s.mem pt j := by
        intro j hj
        rw [hmem, pteAt_withPte_of_ne (by omega), pteAt_congr hself]
      have hrest : ∀ j, i + 1 ≤ j → j < NPTE → PteValid (pteAt s.mem pt j) →
          ∀ q ∈ tables s.mem level (PTE2PA (pteAt s.mem pt j)), s₂.mem q = s.mem q := by
        intro j hj hjlt hvj q hq
        have hq' : q ∈ ∑ j ∈ Finset.Ico (i + 1) NPTE, subtables s.mem level pt j := by
          rw [← subtables_of_valid hvj] at hq
          exact mem_of_le (Finset.single_le_sum (f := subtables s.mem level pt)
            (fun _ _ => zero_le) (Finset.mem_Ico.mpr ⟨hj, hjlt⟩)) hq
        have hne : q ≠ pt := by
          rintro rfl
          exact disjoint_left.mp hold.right.disjoint (mem_singleton_self _) hq'
        rw [hmem, withPte_of_ne hne]
        exact hex.keep hold (mem_add.mpr (.inr hq'))
      have hsub : ∑ j ∈ Finset.Ico (i + 1) NPTE, subtables s₂.mem level pt j
          = ∑ j ∈ Finset.Ico (i + 1) NPTE, subtables s.mem level pt j := by
        refine Finset.sum_congr rfl fun j hj => ?_
        obtain ⟨hj, hjlt⟩ := Finset.mem_Ico.mp hj
        unfold subtables
        rw [hpte j hj]
        split
        · rename_i hvj
          exact tables_congr (hrest j hj hjlt hvj)
        · rfl
      have hnext := ih (s := s₂) (i := i + 1) (by omega)
      rw [hsub] at hnext
      refine (hnext (hex₂.holds hold) fun j hj hjlt => ?_).mono fun _ s' hex' => hex₂.trans hex'
      rw [hpte j hj]
      intro hvj
      obtain ⟨hnl, hwt, hnoleaf⟩ := hbelow j (by omega) hjlt hvj
      exact ⟨hnl, hwt.congr (hrest j hj hjlt hvj), hnoleaf.congr (hrest j hj hjlt hvj)⟩
    · rw [if_neg fun hc => hv hc.1, if_neg hv, subtables_of_invalid hv, zero_add]
      rw [subtables_of_invalid hv, zero_add] at hold
      exact ih (by omega) hold fun j hj => hbelow j (by omega)

/-- **`freewalk`** gives back the tables of a page table without entries. -/
theorem freewalk_ends (hold : Holds physPages s (tables s.mem level pt))
    (hwell : WellTyped s.mem level pt) (hno : NoLeaf s.mem level pt) :
    Ends (freewalk (level + 1) pt) s (fun _ => False) fun _ s' =>
      Exchange s s' (tables s.mem level pt) 0 := by
  have hpage : pt ∈ physPages := hold.mem (self_mem_tables _ _ _)
  induction level generalizing s pt with
  | zero =>
    rw [freewalk]
    refine ends_bind (ends_of_ok (freewalkLoop_lowest _ (zero_add _) hno) ?_)
    exact kfree_ends hpage
  | succ level ih =>
    have hsum : tables s.mem (level + 1) pt = {pt}
        + ∑ j ∈ Finset.Ico 0 NPTE, subtables s.mem level pt j := by
      rw [tables_succ, singleton_add, Finset.range_eq_Ico]
    rw [hsum] at hold ⊢
    rw [freewalk]
    refine ends_bind ((freewalkLoop_ends
      (fun s c hold hwell hno => ih hold hwell hno (hold.mem (self_mem_tables _ _ _)))
      (zero_add _) hold fun j _ hj hv =>
        ⟨(hwell j hj hv).1, (hwell j hj hv).2, hno j hj hv⟩).mono fun _ s₁ hex => ?_)
    exact (kfree_ends hpage).mono fun _ s' hex' => hex.trans hex'

/-- **`uvmfree`** gives back the pages and the tables of a memory. -/
theorem uvmfree_ends {sz : ℕ}
    (hold : Holds physPages s
      (tables s.mem 2 pt + leaves (vmap s.mem pt) 0 (npages sz)))
    (hwell : WellTyped s.mem 2 pt) (hsz : sz ≤ MAXVA)
    (hmapped : MappedRange (vmap s.mem pt) 0 (npages sz))
    (hzero : ∀ v, npages sz ≤ v → vmap s.mem pt v = 0) :
    Ends (uvmfree pt sz) s (fun _ => False) fun _ s' =>
      Exchange s s' (tables s.mem 2 pt + leaves (vmap s.mem pt) 0 (npages sz)) 0 := by
  have hend : 0 + npages sz ≤ NVPAGES := by
    rw [zero_add]
    exact npages_le_NVPAGES hsz
  have hunmap : Ends (if 0 < sz then uvmunmap pt 0 (PGROUNDUP sz / PGSIZE) true
      else pure () : MemProg Unit) s (fun _ => False) fun _ s' =>
        Unmapped s s' pt true 0 (npages sz) := by
    by_cases hpos : 0 < sz
    · have h : Ends (uvmunmap pt (0 * PGSIZE) (npages sz) true) s _ _ :=
        uvmunmap_ends hold hend hmapped
      rw [zero_mul] at h
      rw [if_pos hpos]
      exact h
    · have hnone : npages sz = 0 := by
        rw [show sz = 0 by omega]
        decide
      rw [if_neg hpos, hnone]
      exact .zero
  refine ends_bind (hunmap.mono fun _ s₁ hmap => ?_)
  have hold₁ := hmap.holds hold
  have hex := hmap.exchange
  rw [add_zero] at hold₁ hex
  refine (freewalk_ends hold₁ (hmap.wellTyped hwell) (noLeaf_of_vmap fun v => ?_)).mono
    fun _ s' hex' => hex.trans hex'
  have hnone : vmap s₁.mem pt v = 0 := by
    rw [hmap.map]
    unfold fillRange
    split
    · rfl
    · exact hzero v (by omega)
  rw [hnone]
  exact not_pteValid_zero

omit [KernelImage] in
/-- **`uvmcreate`** takes one page for an empty page table. -/
theorem uvmcreate_ends (s : PhysMem) :
    Ends uvmcreate s (fun _ => False) fun res s' =>
      match res with
      | none => Exchange s s' 0 0
      | some pt => Exchange s s' 0 (tables s'.mem 2 pt)
          ∧ WellTyped s'.mem 2 pt ∧ vmap s'.mem pt = fun _ => 0 := by
  unfold uvmcreate
  refine ends_bind ((kalloc_ends s).mono fun res s₁ hkalloc => ?_)
  cases res with
  | none => exact ends_pure (hkalloc.2 0)
  | some page =>
    obtain ⟨-, hex, -⟩ := hkalloc
    have hzero : (s₁.store page (.fill PGSIZE 0)).mem page = .fill PGSIZE 0 :=
      update_self _ _ _
    obtain ⟨htables, hwell, hentry⟩ := zero_table hzero 2
    refine ends_bind (ends_modify (ends_pure ⟨?_, hwell, ?_⟩))
    · show Exchange s (s₁.store page (.fill PGSIZE 0)) 0
        (tables (s₁.store page (.fill PGSIZE 0)).mem 2 page)
      rw [htables]
      exact hex.trans (exchange_store (mem_singleton_self page) _)
    · funext v
      unfold vmap
      split
      · exact hentry _
      · rfl

end Freewalk

/-! ## Guarding a page -/

/-- The entry of a page that was taken from user code. -/
def guarded (pte : ℕ) : ℕ := pte &&& (2 ^ 64 - 1 - PTE_U)

theorem guarded_and {pte mask : ℕ} (h : (2 ^ 64 - 1 - PTE_U) &&& mask = mask) :
    guarded pte &&& mask = pte &&& mask := by
  unfold guarded
  rw [Nat.and_assoc, h]

section Uvmclear

variable {U : Finset ℕ} {s : PhysMem} {pt : ℕ}

/-- **`uvmclear`** takes a page from user code; it panics only where nothing is mapped. -/
theorem uvmclear_at_ends {va : ℕ} (hold : Holds U s (tables s.mem 2 pt))
    (hva : va < MAXVA) (hleaf : PteValid (vmap s.mem pt (va / PGSIZE)) →
      PteLeaf (vmap s.mem pt (va / PGSIZE))) :
    Ends (uvmclear pt va) s (fun _ => vmap s.mem pt (va / PGSIZE) = 0)
      fun _ s' => Remap s s' pt 0 0 (update (vmap s.mem pt) (va / PGSIZE)
        (guarded (vmap s.mem pt (va / PGSIZE)))) := by
  have hv : va / PGSIZE < NPTE ^ 3 := lt_trans (div_lt_NVPAGES hva) NVPAGES_lt
  unfold uvmclear
  refine ends_bind (ends_of_ok (walk_false hva) ?_)
  rw [find_of_agree fun k _ => PX_page k va]
  cases hfind : find s.mem 2 pt (va / PGSIZE * PGSIZE) with
  | none =>
    refine ends_panic (of_not_not fun hne => ?_)
    obtain ⟨r, hr⟩ := exists_find hv hne
    cases hfind.symm.trans hr
  | some r =>
    refine ends_bind (ends_get ?_)
    rw [pteAt_of_find hv hfind]
    refine ends_modify (.of_setPte hold hv hfind
      (lt_of_le_of_lt and_le_right (by decide)) fun hvalid => ?_)
    unfold PteValid at hvalid
    rw [show vmap s.mem pt (va / PGSIZE) &&& (2 ^ 64 - 1 - PTE_U)
      = guarded (vmap s.mem pt (va / PGSIZE)) from rfl, guarded_and (by decide)] at hvalid
    have hleaf' := hleaf hvalid
    unfold PteLeaf at hleaf' ⊢
    rwa [← guarded_and (by decide)] at hleaf'

/-- A page that is mapped can be guarded. -/
theorem uvmclear_ends {v : ℕ} (hold : Holds U s (tables s.mem 2 pt)) (hv : v < NVPAGES)
    (hvalid : PteValid (vmap s.mem pt v)) (hleaf : PteLeaf (vmap s.mem pt v)) :
    Ends (uvmclear pt (v * PGSIZE)) s (fun _ => False) fun _ s' =>
      Remap s s' pt 0 0
        (update (vmap s.mem pt) v (guarded (vmap s.mem pt v))) := by
  have hdiv : v * PGSIZE / PGSIZE = v := Nat.mul_div_cancel _ (by decide)
  have h : Ends (uvmclear pt (v * PGSIZE)) s _ _ :=
    uvmclear_at_ends hold (page_lt hv) (by rw [hdiv]; exact fun _ => hleaf)
  rw [hdiv] at h
  exact h.panic_mono fun _ hzero => not_pteValid_zero (hzero ▸ hvalid)

end Uvmclear

/-! ## A page table with one page -/

section MakePage

variable [KernelImage]

/-- Make a page table with one page, at address 0. -/
def makePage (pa perm : ℕ) : MemProg (Option ℕ × ℤ) := do
  let pagetable ← uvmcreate
  let r ← mappages (pagetable.getD 0) 0 PGSIZE pa perm
  pure (pagetable, r)

/-- Where memory suffices, the page is mapped, and nothing else is. -/
theorem makePage_spec {s s' : PhysMem} {pt pa perm : ℕ} {F : Multiset ℕ}
    (hold : Holds physPages s F) (hpa : pa < 2 ^ 64) (hperm : perm < 2 ^ 64) (hleaf : PteLeaf perm)
    (hrun : makePage pa perm s = .ok ((some pt, 0), s')) :
    vmap s'.mem pt = update (fun _ => 0) 0 (PA2PTE pa ||| perm ||| PTE_V)
    ∧ Holds physPages s' (tables s'.mem 2 pt + F) := by
  obtain ⟨res, s₁, hcreate, hrun⟩ := bind_ok.mp hrun
  obtain ⟨r, s₂, hmap, hrun⟩ := bind_ok.mp hrun
  obtain ⟨hval, rfl⟩ := pure_ok.mp hrun
  simp only [Prod.mk.injEq] at hval
  obtain ⟨rfl, rfl⟩ := hval
  obtain ⟨hex, -, hzero⟩ := (uvmcreate_ends s).of_ok hcreate
  have hold₁ := hex.holds_add (by rwa [zero_add])
  have hends : Ends (mappages pt (0 * PGSIZE) PGSIZE pa perm) s₁ _ _ :=
    mappages_page_ends (Holds.left hold₁) hpa hperm hleaf (show 0 < NVPAGES by decide) (by
      rw [hzero]
      exact not_pteValid_zero)
  rw [zero_mul] at hends
  obtain ⟨-, hremap⟩ | ⟨hr, -⟩ := hends.of_ok hmap
  · have hex' := hremap.exchange
    rw [add_zero, add_zero] at hex'
    exact ⟨by rw [hremap.map, hzero], hex'.holds_add hold₁⟩
  · exact absurd hr (by decide)

end MakePage

end Xv6
