import Xv6.Machine
import Xv6.Uvm

/-!
# The page tables as finite maps

A kernel that creates page tables and maps, unmaps and guards pages in them can think of
each of them as a map from page numbers to entries. The specification (`VmSpec`) says what
every call does to these maps. The code works on a tree of tables in memory that it builds
as needed; it implements the specification (`page_tables_refine_maps`), because the tables
of all trees are different pages, and different from those the kernel uses for data.

The specification leaves one thing open: a `mappages` for which memory runs out has mapped
some of the pages.
-/

open Function Multiset

open Prog hiding get modify panic result

namespace Xv6

open Pool

/-! ## The calls -/

/-- A call of the kernel. It takes the pages that it maps from `kalloc`. -/
inductive VmCall
  | kalloc
  | uvmcreate
  | mappages (pagetable va size pa perm : ℕ)
  | uvmunmap (pagetable va npages : ℕ) (do_free : Bool)
  | uvmclear (pagetable va : ℕ)

/-- The code of a call, with the value that it returns; 0 for a null pointer. -/
def VmCall.code [KernelImage] : VmCall → MemProg ℤ
  | kalloc => do
    let page ← Xv6.kalloc
    pure (page.getD 0)
  | uvmcreate => do
    let pagetable ← Xv6.uvmcreate
    pure (pagetable.getD 0)
  | mappages pagetable va size pa perm => Xv6.mappages pagetable va size pa perm
  | uvmunmap pagetable va npages do_free => do
    Xv6.uvmunmap pagetable va npages do_free
    pure 0
  | uvmclear pagetable va => do
    Xv6.uvmclear pagetable va
    pure 0

/-- Memory, the page tables there are, and the data pages that the kernel has. -/
structure VmState where
  mem : PhysMem
  roots : Multiset ℕ
  data : Multiset ℕ

/-- **The rules of a call.** Pages are mapped where none are, with a permission to read, write or
execute; they are unmapped where some are, and freed only by who has them. -/
def VmCall.Ok (st : VmState) : VmCall → Prop
  | kalloc => True
  | uvmcreate => True
  | mappages pagetable va size pa perm => pagetable ∈ st.roots ∧ pa < 2 ^ 64 ∧ perm < 2 ^ 64
    ∧ PteLeaf perm ∧ size ≠ 0 ∧ va + size ≤ MAXVA
    ∧ ∀ v, va / PGSIZE ≤ v → v ≤ (va + size - 1) / PGSIZE →
      ¬ PteValid (vmap st.mem.mem pagetable v)
  | uvmunmap pagetable va npages do_free => pagetable ∈ st.roots ∧ PGSIZE ∣ va
    ∧ va + npages * PGSIZE ≤ MAXVA
    ∧ MappedRange (vmap st.mem.mem pagetable) (va / PGSIZE) npages
    ∧ freed do_free (vmap st.mem.mem pagetable) (va / PGSIZE) npages ≤ st.data
  | uvmclear pagetable _ => pagetable ∈ st.roots

/-- What the kernel has after a call that returned `r`. -/
def VmCall.after (st : VmState) (r : ℤ) (mem : PhysMem) : VmCall → VmState
  | kalloc => ⟨mem, st.roots, if r = 0 then st.data else {r.toNat} + st.data⟩
  | uvmcreate => ⟨mem, if r = 0 then st.roots else r.toNat ::ₘ st.roots, st.data⟩
  | uvmunmap pagetable va npages do_free => ⟨mem, st.roots,
      st.data - freed do_free (vmap st.mem.mem pagetable) (va / PGSIZE) npages⟩
  | _ => ⟨mem, st.roots, st.data⟩

/-- **A call and what it returned**, on memory. -/
def VmStep [KernelImage] (st : VmState) (l : VmCall × ℤ) (st' : VmState) : Prop :=
  l.1.Ok st ∧ ∃ mem, l.1.code st.mem = .ok (l.2, mem) ∧ st' = l.1.after st l.2 mem

/-! ## The specification -/

/-- The page tables there are, as maps. -/
abbrev VmSpec : Type := ℕ → Option (ℕ → ℕ)

/-- **A call and what it returned**, on maps. -/
inductive VmSpec.Step : VmSpec → VmCall × ℤ → VmSpec → Prop
  | kalloc (a : VmSpec) (r : ℤ) : Step a (.kalloc, r) a
  | uvmcreate {a : VmSpec} {pagetable : ℕ} (hnew : a pagetable = none) (hpos : pagetable ≠ 0) :
    Step a (.uvmcreate, pagetable) (update a pagetable (some fun _ => 0))
  | uvmcreate_fails (a : VmSpec) : Step a (.uvmcreate, 0) a
  | mappages {a : VmSpec} {pagetable va size pa perm n : ℕ} {m : ℕ → ℕ} (h : a pagetable = some m)
    (hn : va / PGSIZE + n = (va + size - 1) / PGSIZE + 1) :
    Step a (.mappages pagetable va size pa perm, 0)
      (update a pagetable (some (fillRange m (va / PGSIZE) n (mapped pa perm))))
  | mappages_fails {a : VmSpec} {pagetable va size pa perm n : ℕ} {m : ℕ → ℕ}
    (h : a pagetable = some m) (hn : va / PGSIZE + n ≤ (va + size - 1) / PGSIZE) :
    Step a (.mappages pagetable va size pa perm, -1)
      (update a pagetable (some (fillRange m (va / PGSIZE) n (mapped pa perm))))
  | uvmunmap {a : VmSpec} {pagetable va npages : ℕ} {m : ℕ → ℕ} (do_free : Bool)
    (h : a pagetable = some m) :
    Step a (.uvmunmap pagetable va npages do_free, 0)
      (update a pagetable (some (fillRange m (va / PGSIZE) npages fun _ => 0)))
  | uvmclear {a : VmSpec} {pagetable va : ℕ} {m : ℕ → ℕ} (h : a pagetable = some m) :
    Step a (.uvmclear pagetable va, 0) (update a pagetable
      (some (update m (va / PGSIZE) (guarded (m (va / PGSIZE))))))

/-! ## The refinement -/

/-- The pages of several page tables. -/
def forest (mem : ℕ → Page) (roots : Multiset ℕ) : Multiset ℕ := (roots.map (tables mem 2)).sum

section Forest

variable {mem mem' : ℕ → Page} {roots : Multiset ℕ} {pagetable : ℕ}

theorem forest_cons (mem : ℕ → Page) (pagetable : ℕ) (roots : Multiset ℕ) :
    forest mem (pagetable ::ₘ roots) = tables mem 2 pagetable + forest mem roots := by
  unfold forest
  rw [map_cons, sum_cons]

theorem forest_erase (h : pagetable ∈ roots) :
    forest mem roots = tables mem 2 pagetable + forest mem (roots.erase pagetable) := by
  rw [← forest_cons, cons_erase h]

theorem tables_le_forest (h : pagetable ∈ roots) : tables mem 2 pagetable ≤ forest mem roots := by
  rw [forest_erase h]
  exact le_add_right _ _

theorem forest_congr (h : ∀ q ∈ forest mem roots, mem' q = mem q) :
    forest mem' roots = forest mem roots := by
  unfold forest
  refine congrArg _ (map_congr rfl fun pagetable hpt => tables_congr fun q hq => ?_)
  exact h q (mem_of_le (tables_le_forest hpt) hq)

end Forest

/-- **Memory implements the maps.** -/
structure Refines [KernelImage] (st : VmState) (a : VmSpec) : Prop where
  holds : Holds physPages st.mem (forest st.mem.mem st.roots + st.data)
  map : ∀ pagetable ∈ st.roots, a pagetable = some (vmap st.mem.mem pagetable)
  other : ∀ pagetable ∉ st.roots, a pagetable = none
  wellTyped : ∀ pagetable ∈ st.roots, WellTyped st.mem.mem 2 pagetable

theorem Refines.init [KernelImage] {s : PhysMem} (hboot : Holds physPages s 0) :
    Refines ⟨s, 0, 0⟩ fun _ => none :=
  ⟨hboot, fun _ h => absurd h (notMem_zero _), fun _ _ => rfl,
    fun _ h => absurd h (notMem_zero _)⟩

section Steps

variable [KernelImage] {st : VmState} {a : VmSpec} {s' : PhysMem} {pagetable : ℕ}

theorem Refines.tables (h : Refines st a) (hpt : pagetable ∈ st.roots) :
    Holds physPages st.mem (Xv6.tables st.mem.mem 2 pagetable) :=
  h.holds.left.mono (tables_le_forest hpt)

/-- The page tables that a call does not work on stay what they were. -/
theorem Refines.of_keep (h : Refines st a) {roots : Multiset ℕ} (hle : roots ≤ st.roots)
    (hkeep : ∀ q ∈ forest st.mem.mem roots, s'.mem q = st.mem.mem q) :
    forest s'.mem roots = forest st.mem.mem roots
    ∧ ∀ pt ∈ roots, a pt = some (vmap s'.mem pt) ∧ WellTyped s'.mem 2 pt := by
  refine ⟨forest_congr hkeep, fun pt hpt => ?_⟩
  have htables : ∀ q ∈ Xv6.tables st.mem.mem 2 pt, s'.mem q = st.mem.mem q :=
    fun q hq => hkeep q (mem_of_le (tables_le_forest hpt) hq)
  have hmem := mem_of_le hle hpt
  exact ⟨by rw [vmap_congr htables, h.map pt hmem], (h.wellTyped pt hmem).congr htables⟩

/-- **A call works on one page table.** -/
theorem Refines.remap (h : Refines st a) (hpt : pagetable ∈ st.roots) {R : Multiset ℕ} {m : ℕ → ℕ}
    (hR : R ≤ st.data) (hmap : Remap st.mem s' pagetable R 0 m) :
    Refines ⟨s', st.roots, st.data - R⟩ (update a pagetable (some m)) := by
  have hold : Holds physPages st.mem (Xv6.tables st.mem.mem 2 pagetable + R
      + (forest st.mem.mem (st.roots.erase pagetable) + (st.data - R))) := by
    have hold := h.holds
    rwa [forest_erase hpt, ← add_tsub_cancel_of_le hR, add_assoc, add_left_comm (forest _ _),
      ← add_assoc] at hold
  have hkeep : ∀ q ∈ forest st.mem.mem (st.roots.erase pagetable), s'.mem q = st.mem.mem q :=
    fun q hq => hmap.exchange.keep hold (mem_add.mpr (.inl hq))
  obtain ⟨hforest, hrest⟩ := h.of_keep (erase_le pagetable st.roots) hkeep
  refine ⟨?_, fun pt hmem => ?_, fun pt hnot => ?_, fun pt hmem => ?_⟩
  · have hold' := hmap.exchange.holds_add hold
    rw [add_zero, ← add_assoc, ← hforest, ← forest_erase hpt] at hold'
    exact hold'
  · by_cases heq : pt = pagetable
    · rw [heq, update_self, hmap.map]
    · rw [update_of_ne heq]
      exact (hrest pt ((mem_erase_of_ne heq).mpr hmem)).1
  · have hne : pt ≠ pagetable := fun heq => hnot (heq ▸ hpt)
    rw [update_of_ne hne]
    exact h.other pt hnot
  · by_cases heq : pt = pagetable
    · rw [heq]
      exact hmap.wellTyped (h.wellTyped _ hpt)
    · exact (hrest pt ((mem_erase_of_ne heq).mpr hmem)).2

theorem Refines.remap_zero (h : Refines st a) (hpt : pagetable ∈ st.roots) {m : ℕ → ℕ}
    (hmap : Remap st.mem s' pagetable 0 0 m) :
    Refines ⟨s', st.roots, st.data⟩ (update a pagetable (some m)) := by
  have h' := h.remap hpt (Multiset.zero_le _) hmap
  rwa [Multiset.sub_zero] at h'

/-- Pages are exchanged beside the page tables. -/
theorem Refines.exchange (h : Refines st a) {R : Multiset ℕ} (hex : Exchange st.mem s' 0 R) :
    Refines ⟨s', st.roots, R + st.data⟩ a ∧ Holds physPages s'
      (R + (forest s'.mem st.roots + st.data)) := by
  have hold := h.holds
  rw [← zero_add (forest _ _ + _)] at hold
  have hkeep : ∀ q ∈ forest st.mem.mem st.roots, s'.mem q = st.mem.mem q :=
    fun q hq => hex.keep hold (mem_add.mpr (.inl hq))
  obtain ⟨hforest, hrest⟩ := h.of_keep le_rfl hkeep
  have hold' := hex.holds_add hold
  rw [← hforest] at hold'
  exact ⟨⟨by rwa [add_left_comm] at hold', fun pt hpt => (hrest pt hpt).1, h.other,
    fun pt hpt => (hrest pt hpt).2⟩, hold'⟩

/-- How a call ends that starts where memory implements the maps. -/
abbrev VmCall.Simulates (c : VmCall) (st : VmState) (a : VmSpec) (P : Panic → Prop) : Prop :=
  Ends c.code st.mem P fun r s' =>
    ∃ a', VmSpec.Step a (c, r) a' ∧ Refines (c.after st r s') a'

theorem Refines.kalloc (h : Refines st a) : VmCall.kalloc.Simulates st a fun _ => False := by
  refine ends_bind ((kalloc_ends st.mem).mono fun res s' hres => ?_)
  refine ends_pure ⟨a, .kalloc a _, ?_⟩
  cases res with
  | none =>
    have h' := (h.exchange (hres.2 0)).1
    rwa [zero_add] at h'
  | some page =>
    obtain ⟨hfree, hex, -⟩ := hres
    have hne : (page : ℤ) ≠ 0 :=
      Nat.cast_ne_zero.mpr (physPages_ne_zero (h.holds.mem_of_free hfree))
    show Refines ⟨s', st.roots, if (page : ℤ) = 0 then _ else {(page : ℤ).toNat} + st.data⟩ a
    rw [if_neg hne, Int.toNat_natCast]
    exact (h.exchange hex).1

theorem Refines.uvmcreate (h : Refines st a) :
    VmCall.uvmcreate.Simulates st a fun _ => False := by
  refine ends_bind ((uvmcreate_ends st.mem).mono fun res s' hres => ends_pure ?_)
  cases res with
  | none =>
    have h' := (h.exchange hres).1
    rw [zero_add] at h'
    exact ⟨a, .uvmcreate_fails a, h'⟩
  | some page =>
    obtain ⟨hex, hwell, hzero⟩ := hres
    obtain ⟨h', hold⟩ := h.exchange hex
    have hself := self_mem_tables s'.mem 2 page
    have hnew : page ∉ st.roots := fun hmem => by
      refine disjoint_left.mp hold.disjoint hself (mem_add.mpr (.inl ?_))
      exact mem_of_le (tables_le_forest hmem) hself
    have hne : page ≠ 0 := physPages_ne_zero (hold.left.mem hself)
    refine ⟨update a page (some fun _ => 0), .uvmcreate (h.other page hnew) hne, ?_⟩
    show Refines ⟨s', if (page : ℤ) = 0 then _ else (page : ℤ).toNat ::ₘ st.roots, st.data⟩ _
    rw [if_neg (Nat.cast_ne_zero.mpr hne), Int.toNat_natCast]
    refine ⟨?_, fun pt hpt => ?_, fun pt hpt => ?_, fun pt hpt => ?_⟩
    · rw [forest_cons, add_assoc]
      exact hold
    · rcases mem_cons.mp hpt with rfl | hpt
      · rw [update_self, hzero]
      · have hother : pt ≠ page := fun heq => hnew (heq ▸ hpt)
        rw [update_of_ne hother, h'.map pt hpt]
    · rw [mem_cons, not_or] at hpt
      rw [update_of_ne hpt.1, h'.other pt hpt.2]
    · rcases mem_cons.mp hpt with rfl | hpt
      · exact hwell
      · exact h'.wellTyped pt hpt

theorem Refines.mappages (h : Refines st a) {va size pa perm : ℕ}
    (hok : (VmCall.mappages pagetable va size pa perm).Ok st) :
    (VmCall.mappages pagetable va size pa perm).Simulates st a fun _ => False := by
  obtain ⟨hpt, hpa, hperm, hleaf, hsize, hend, hfree⟩ := hok
  refine (mappages_ends (h.tables hpt) hpa hperm hleaf hsize hend hfree).mono ?_
  rintro r s' ⟨n, hmap, ⟨rfl, hn⟩ | ⟨rfl, hn⟩⟩
  · exact ⟨_, .mappages (h.map _ hpt) hn, h.remap_zero hpt hmap⟩
  · exact ⟨_, .mappages_fails (h.map _ hpt) hn, h.remap_zero hpt hmap⟩

theorem Refines.uvmunmap (h : Refines st a) {va npages : ℕ} {do_free : Bool}
    (hok : (VmCall.uvmunmap pagetable va npages do_free).Ok st) :
    (VmCall.uvmunmap pagetable va npages do_free).Simulates st a fun _ => False := by
  obtain ⟨hpt, hdvd, hend, hmapped, hfreed⟩ := hok
  have hbound : va / PGSIZE + npages ≤ NVPAGES := by
    unfold NVPAGES MAXVA PGSIZE at *
    omega
  have hends : Ends (Xv6.uvmunmap pagetable (va / PGSIZE * PGSIZE) npages do_free) _ _ _ :=
    uvmunmap_ends (h.holds.mono (add_le_add (tables_le_forest hpt) hfreed)) hbound hmapped
  rw [Nat.div_mul_cancel hdvd] at hends
  refine ends_bind (hends.mono fun _ s' hmap => ends_pure ?_)
  exact ⟨_, .uvmunmap do_free (h.map _ hpt), h.remap hpt hfreed hmap⟩

theorem Refines.uvmclear (h : Refines st a) {va : ℕ} (hpt : pagetable ∈ st.roots) :
    (VmCall.uvmclear pagetable va).Simulates st a
      fun _ => MAXVA ≤ va ∨ vmap st.mem.mem pagetable (va / PGSIZE) = 0 := by
  rcases Nat.lt_or_ge va MAXVA with hva | hva
  · refine ends_bind (((uvmclear_at_ends (h.tables hpt) hva
      (leaf_of_vmap (h.wellTyped _ hpt))).panic_mono fun _ => .inr).mono fun _ s' hmap => ?_)
    exact ends_pure ⟨_, .uvmclear (h.map _ hpt), h.remap_zero hpt hmap⟩
  · have hpanic : Xv6.walk pagetable va false = Prog.panic .walk := if_pos hva
    show Ends (Xv6.uvmclear pagetable va >>= _) _ _ _
    unfold Xv6.uvmclear
    rw [hpanic]
    exact ends_bind (ends_bind (ends_panic (.inl hva)))

/-- **Every call does to memory what it does to the maps.** Only `uvmclear` can panic, where it is
asked for a page that is not mapped. -/
theorem Refines.simulates (h : Refines st a) {c : VmCall} (hok : c.Ok st) :
    c.Simulates st a fun _ => ∃ pt va, c = .uvmclear pt va
      ∧ (MAXVA ≤ va ∨ vmap st.mem.mem pt (va / PGSIZE) = 0) := by
  cases c with
  | kalloc => exact h.kalloc.panic_mono fun _ => False.elim
  | uvmcreate => exact h.uvmcreate.panic_mono fun _ => False.elim
  | mappages => exact (h.mappages hok).panic_mono fun _ => False.elim
  | uvmunmap => exact (h.uvmunmap hok).panic_mono fun _ => False.elim
  | uvmclear pt va => exact (h.uvmclear hok).panic_mono fun _ hnone => ⟨pt, va, rfl, hnone⟩

/-- **A page table reads as a map.** -/
structure ReadsAs (s : PhysMem) (pagetable : ℕ) (m : ℕ → ℕ) : Prop where
  walk : ∀ va < MAXVA, ∃ res, Xv6.walk pagetable va false s = .ok (res, s)
    ∧ res.elim 0 (fun r => pteAt s.mem r.table r.slot) = m (va / PGSIZE)
  walkaddr : ∀ va, Xv6.walkaddr pagetable va s = .ok
    (if va < MAXVA ∧ PteValid (m (va / PGSIZE)) ∧ m (va / PGSIZE) &&& PTE_U ≠ 0
      then PTE2PA (m (va / PGSIZE)) else 0, s)

omit [KernelImage] in
theorem readsAs_vmap (s : PhysMem) (pagetable : ℕ) :
    ReadsAs s pagetable (vmap s.mem pagetable) where
  walk va hva := by
    refine ⟨_, walk_false hva, ?_⟩
    rw [← entry_eq_vmap hva]
    unfold entry
    cases find s.mem 2 pagetable va <;> rfl
  walkaddr va := by
    rw [walkaddr_eq, userPage]
    by_cases h : UserAccessible s.mem pagetable va
    · rw [if_pos h, if_pos (userAccessible_iff.mp h), entry_eq_vmap h.1]
    · rw [if_neg h, if_neg fun h' => h (userAccessible_iff.mpr h')]

/-- **Different pages have different slots**, in one page table or in two. -/
theorem Refines.slot_inj (h : Refines st a) {pt pt' va va' : ℕ} {r : PteRef}
    (hpt : pt ∈ st.roots) (hpt' : pt' ∈ st.roots) (hva : va < MAXVA) (hva' : va' < MAXVA)
    (hwalk : walk pt va false st.mem = .ok (some r, st.mem))
    (hwalk' : walk pt' va' false st.mem = .ok (some r, st.mem)) :
    pt = pt' ∧ va / PGSIZE = va' / PGSIZE := by
  rw [walk_false hva] at hwalk
  rw [walk_false hva'] at hwalk'
  have hfind := congrArg Prod.fst (Except.ok.inj hwalk)
  have hfind' := congrArg Prod.fst (Except.ok.inj hwalk')
  have heq : pt = pt' := by
    by_contra hne
    have hold := h.holds.left
    rw [forest_erase hpt] at hold
    refine disjoint_left.mp hold.disjoint (find_mem_tables hfind).1 ?_
    exact mem_of_le (tables_le_forest ((mem_erase_of_ne (Ne.symm hne)).mpr hpt'))
      (find_mem_tables hfind').1
  subst heq
  refine ⟨rfl, eq_of_PX_eq (lt_trans (div_lt_NVPAGES hva) NVPAGES_lt)
    (lt_trans (div_lt_NVPAGES hva') NVPAGES_lt) fun k hk => ?_⟩
  rw [← PX_page, ← PX_page]
  exact find_inj (nodup_add.mp (h.tables hpt).nodup).2.1 hfind hfind' k hk

end Steps

/-- **The page tables refine finite maps.** Whatever calls the kernel makes from a state in which
it has no page table, what they returned is a run of the specification, and each page table reads
as the map that the run leads to. No two pages share a slot, a call can panic only if it is
`uvmclear` for a page that is not mapped, and an entry made for the `i`-th page of a range has
the page and the flags it was made for. -/
theorem page_tables_refine_maps [KernelImage] {s : PhysMem} {calls : List (VmCall × ℤ)}
    {st : VmState} (hboot : Holds physPages s 0) (hrun : Trace VmStep ⟨s, 0, 0⟩ calls st) :
    ∃ a : VmSpec, Trace VmSpec.Step (fun _ => none) calls a
      ∧ (∀ pagetable ∈ st.roots, ∃ m, a pagetable = some m ∧ ReadsAs st.mem pagetable m)
      ∧ (∀ pt ∈ st.roots, ∀ pt' ∈ st.roots, ∀ va < MAXVA, ∀ va' < MAXVA, ∀ r,
        walk pt va false st.mem = .ok (some r, st.mem) →
        walk pt' va' false st.mem = .ok (some r, st.mem) → pt = pt' ∧ va / PGSIZE = va' / PGSIZE)
      ∧ (∀ c : VmCall, c.Ok st → (∃ r s', c.code st.mem = .ok (r, s'))
        ∨ ∃ pt va, c = .uvmclear pt va ∧ (MAXVA ≤ va ∨ vmap st.mem.mem pt (va / PGSIZE) = 0))
      ∧ ∀ pa perm i, perm < 2 ^ 10 →
        PTE2PA (mapped pa perm i) = PGROUNDDOWN (u64 (pa + i * PGSIZE))
        ∧ PTE_FLAGS (mapped pa perm i) = perm ||| PTE_V := by
  have hstep : ∀ st l st' a, Refines st a → VmStep st l st' →
      ∃ a', VmSpec.Step a l a' ∧ Refines st' a' := by
    rintro st l st' a h ⟨hok, mem, hcode, rfl⟩
    exact (h.simulates hok).of_ok hcode
  obtain ⟨a, htrace, h⟩ := hrun.simulate hstep (.init hboot)
  refine ⟨a, htrace, fun pt hpt => ⟨_, h.map pt hpt, readsAs_vmap _ _⟩,
    fun pt hpt pt' hpt' va hva va' hva' r => h.slot_inj hpt hpt' hva hva',
    fun c hok => ?_, fun pa perm i hperm =>
      ⟨PTE2PA_entry (u64_lt _) hperm, PTE_FLAGS_entry hperm⟩⟩
  cases hcode : c.code st.mem with
  | ok res => exact .inl ⟨res.1, res.2, rfl⟩
  | error e => exact .inr ((h.simulates hok).of_error hcode)

/-- A page table is created, and a page mapped in it. -/
theorem page_tables_refine_maps_sample : ∃ (_ : KernelImage) (s : PhysMem) (a : VmSpec),
    Trace VmSpec.Step (fun _ => none)
      [(.uvmcreate, 0x80100000), (.mappages 0x80100000 0 PGSIZE 0x80200000 (PTE_R ||| PTE_U), 0)] a
    ∧ ∃ m, a 0x80100000 = some m ∧ ReadsAs s 0x80100000 m := by
  let _ := sampleImage
  have hboot : Holds physPages sampleMemory 0 := sampleMemory_holds.mono (zero_le _)
  have hrun : Ends VmCall.uvmcreate.code sampleMemory (fun _ => False) fun r s₁ => r = 0x80100000
      ∧ ¬ PteValid (vmap s₁.mem 0x80100000 0)
      ∧ Ends (VmCall.mappages 0x80100000 0 PGSIZE 0x80200000 (PTE_R ||| PTE_U)).code s₁
        (fun _ => False) fun r _ => r = 0 := by
    decide +kernel
  obtain ⟨_, s₁, hcreate, rfl, hzero, hmap⟩ := hrun.exists_ok
  obtain ⟨_, s₂, hmap, rfl⟩ := hmap.exists_ok
  have htrace : Trace VmStep ⟨sampleMemory, 0, 0⟩ [(.uvmcreate, 0x80100000),
      (.mappages 0x80100000 0 PGSIZE 0x80200000 (PTE_R ||| PTE_U), 0)] ⟨s₂, {0x80100000}, 0⟩ := by
    refine .cons ⟨trivial, s₁, hcreate, rfl⟩ (.cons ⟨⟨mem_singleton_self _, by decide,
      by decide, by decide, by decide, by decide, fun v _ hv => ?_⟩, s₂, hmap, rfl⟩ (.nil _))
    obtain rfl : v = 0 := Nat.le_zero.mp (hv.trans (by decide))
    exact hzero
  obtain ⟨a, hspec, hread, -⟩ := page_tables_refine_maps hboot htrace
  exact ⟨sampleImage, s₂, a, hspec, hread _ (mem_singleton_self _)⟩

end Xv6
