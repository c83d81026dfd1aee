import Xv6.UserMemory

/-!
# A page table as a map of pages

The functions of `vm.c` work on ranges of pages. For them a page table is a map from page
numbers to entries, `vmap`; the addresses of one page have one entry
(`entry_eq_vmap`). The code changes such a map at one page after the other, so that what
a loop has done is the map with a range filled in (`fillRange`).

`Remap` says what one call did: which map the table means now, and which pages its
owner exchanged for the tables and the leaf pages there are now.
-/

open Function Multiset

namespace Xv6

open Pool

/-! ## Maps with a range filled in -/

section FillRange

variable {α : Type} (m : ℕ → α)

/-- The map with the `n` places from `v` on filled in. -/
def fillRange (v n : ℕ) (f : ℕ → α) : ℕ → α :=
  fun w => if v ≤ w ∧ w < v + n then f (w - v) else m w

theorem fillRange_zero (v : ℕ) (f : ℕ → α) : fillRange m v 0 f = m := by
  funext w
  exact if_neg (by omega)

theorem fillRange_of_notMem (v n : ℕ) (f : ℕ → α) {w : ℕ} (h : ¬ (v ≤ w ∧ w < v + n)) :
    fillRange m v n f w = m w :=
  if_neg h

theorem fillRange_update_front (v n : ℕ) (f : ℕ → α) :
    fillRange (update m v (f 0)) (v + 1) n (fun i => f (i + 1))
      = fillRange m v (n + 1) f := by
  funext w
  unfold fillRange
  rcases lt_trichotomy w v with h | rfl | h
  · rw [if_neg (by omega), if_neg (by omega), update_of_ne (by omega)]
  · rw [if_neg (by omega), if_pos (by omega), update_self, Nat.sub_self]
  · by_cases hlt : w < v + 1 + n
    · rw [if_pos (by omega), if_pos (by omega)]
      exact congrArg f (by omega)
    · rw [if_neg (by omega), if_neg (by omega), update_of_ne (by omega)]

theorem fillRange_one (v : ℕ) (f : ℕ → α) : fillRange m v 1 f = update m v (f 0) := by
  rw [← fillRange_update_front, fillRange_zero]

end FillRange

/-! ## The map of a page table -/

/-- The number of pages that an address space has. -/
def NVPAGES : ℕ := MAXVA / PGSIZE

/-- **The map of a page table**: the entry of every page there is a slot for, by the
number of the page. -/
def vmap (mem : ℕ → Page) (pagetable v : ℕ) : ℕ :=
  if v < NPTE ^ 3 then entry mem 2 pagetable (v * PGSIZE) else 0

/-- The pages that the entries of a range name. -/
def leaves (m : ℕ → ℕ) (v n : ℕ) : Multiset ℕ := (range n).map fun i => PTE2PA (m (v + i))

section Leaves

variable {m m' : ℕ → ℕ} {v n : ℕ}

theorem leaves_zero (m : ℕ → ℕ) (v : ℕ) : leaves m v 0 = 0 := rfl

theorem leaves_succ (m : ℕ → ℕ) (v n : ℕ) :
    leaves m v (n + 1) = leaves m v n + {PTE2PA (m (v + n))} := by
  unfold leaves
  rw [range_succ, map_cons, ← singleton_add, add_comm]

theorem leaves_congr (h : ∀ i < n, PTE2PA (m' (v + i)) = PTE2PA (m (v + i))) :
    leaves m' v n = leaves m v n :=
  map_congr rfl fun i hi => h i (mem_range.mp hi)

theorem leaves_succ_front (m : ℕ → ℕ) (v n : ℕ) :
    leaves m v (n + 1) = {PTE2PA (m v)} + leaves m (v + 1) n := by
  induction n with
  | zero => rw [leaves_succ, leaves_zero, leaves_zero, zero_add, add_zero, add_zero]
  | succ n ih =>
    rw [leaves_succ, ih, leaves_succ m (v + 1) n, add_assoc,
      show v + 1 + n = v + (n + 1) by omega]

theorem leaves_add (m : ℕ → ℕ) (v a b : ℕ) :
    leaves m v (a + b) = leaves m v a + leaves m (v + a) b := by
  induction b with
  | zero => rw [Nat.add_zero, leaves_zero, add_zero]
  | succ b ih => rw [← Nat.add_assoc, leaves_succ, ih, leaves_succ, add_assoc, Nat.add_assoc v]

theorem mem_leaves {i : ℕ} (hi : i < n) : PTE2PA (m (v + i)) ∈ leaves m v n :=
  mem_map_of_mem _ (mem_range.mpr hi)

theorem mem_leaves_zero (hv : v < n) : PTE2PA (m v) ∈ leaves m 0 n := by
  have hmem := mem_leaves (m := m) (v := 0) hv
  rwa [Nat.zero_add] at hmem

@[simp] theorem card_leaves (m : ℕ → ℕ) (v n : ℕ) : (leaves m v n).card = n := by
  unfold leaves
  rw [card_map, card_range]

end Leaves

/-- The slots of two pages on the way down agree only if the pages are the same. -/
theorem eq_of_PX_eq {v w : ℕ} (hv : v < NPTE ^ 3) (hw : w < NPTE ^ 3)
    (h : ∀ k ≤ 2, PX k (v * PGSIZE) = PX k (w * PGSIZE)) : v = w := by
  have hpos : 0 < PGSIZE := by decide
  have h₀ := h 0 (by omega)
  have h₁ := h 1 (by omega)
  have h₂ := h 2 le_rfl
  simp only [PX_eq, Nat.mul_div_cancel _ hpos] at h₀ h₁ h₂
  unfold NPTE at *
  norm_num at *
  omega

theorem PX_page (k va : ℕ) : PX k va = PX k (va / PGSIZE * PGSIZE) := by
  rw [PX_eq, PX_eq, Nat.mul_div_cancel _ (by decide)]

theorem NVPAGES_lt : NVPAGES < NPTE ^ 3 := by
  unfold NVPAGES NPTE
  decide

theorem div_lt_NVPAGES {va : ℕ} (hva : va < MAXVA) : va / PGSIZE < NVPAGES := by
  unfold NVPAGES
  exact Nat.div_lt_div_of_lt_of_dvd (by decide) hva

section Map

variable {mem mem' : ℕ → Page} {pt v : ℕ}

theorem vmap_of_lt (hv : v < NPTE ^ 3) : vmap mem pt v = entry mem 2 pt (v * PGSIZE) :=
  if_pos hv

theorem vmap_of_le (hv : NPTE ^ 3 ≤ v) : vmap mem pt v = 0 := if_neg (Nat.not_lt.mpr hv)

/-- **The entry of an address** is that of its page. -/
theorem entry_eq_vmap {va : ℕ} (hva : va < MAXVA) :
    entry mem 2 pt va = vmap mem pt (va / PGSIZE) := by
  rw [vmap_of_lt (lt_trans (div_lt_NVPAGES hva) NVPAGES_lt)]
  unfold entry
  rw [find_of_agree fun k _ => PX_page k va]

theorem userAccessible_iff {va : ℕ} : UserAccessible mem pt va
    ↔ va < MAXVA ∧ PteValid (vmap mem pt (va / PGSIZE))
      ∧ vmap mem pt (va / PGSIZE) &&& PTE_U ≠ 0 := by
  unfold UserAccessible
  refine and_congr_right fun hva => ?_
  rw [entry_eq_vmap hva]

theorem vmap_congr (h : ∀ q ∈ tables mem 2 pt, mem' q = mem q) :
    vmap mem' pt = vmap mem pt := by
  funext v
  unfold vmap
  rw [entry_congr h]

theorem pteAt_of_find {r : PteRef} (hv : v < NPTE ^ 3)
    (h : find mem 2 pt (v * PGSIZE) = some r) :
    pteAt mem r.table r.slot = vmap mem pt v := by
  rw [vmap_of_lt hv]
  unfold entry
  rw [h]

theorem exists_find (hv : v < NPTE ^ 3) (h : vmap mem pt v ≠ 0) :
    ∃ r, find mem 2 pt (v * PGSIZE) = some r := by
  cases hfind : find mem 2 pt (v * PGSIZE) with
  | none =>
    rw [vmap_of_lt hv] at h
    unfold entry at h
    rw [hfind] at h
    exact absurd rfl h
  | some r => exact ⟨r, rfl⟩

theorem leaf_of_vmap (hw : WellTyped mem 2 pt) (h : PteValid (vmap mem pt v)) :
    PteLeaf (vmap mem pt v) := by
  rcases Nat.lt_or_ge v (NPTE ^ 3) with hv | hv
  · obtain ⟨r, hfind⟩ := exists_find hv fun hzero => not_pteValid_zero (hzero ▸ h)
    rw [← pteAt_of_find hv hfind] at h ⊢
    exact hw.leaf_of_find hfind h
  · rw [vmap_of_le hv] at h
    exact absurd h not_pteValid_zero

/-- **Storing an entry changes the map at its page.** -/
theorem vmap_withPte {pte : ℕ} {r : PteRef} (hnd : (tables mem 2 pt).Nodup)
    (hv : v < NPTE ^ 3) (h : find mem 2 pt (v * PGSIZE) = some r) (hlt : pte < 2 ^ 64) :
    vmap (withPte mem r.table r.slot pte) pt
      = update (vmap mem pt) v pte := by
  funext w
  by_cases hw : w < NPTE ^ 3
  · have hentry := entry_withPte hnd h hlt (w * PGSIZE)
    rw [vmap_of_lt hw]
    by_cases hwv : w = v
    · subst hwv
      rw [update_self]
      exact hentry.1 fun _ _ => rfl
    · rw [update_of_ne hwv, vmap_of_lt hw]
      refine hentry.2 ?_
      by_contra hall
      push Not at hall
      exact hwv (eq_of_PX_eq hw hv hall)
  · have hwv : w ≠ v := fun heq => hw (heq ▸ hv)
    rw [update_of_ne hwv, vmap_of_le (Nat.not_lt.mp hw), vmap_of_le (Nat.not_lt.mp hw)]

end Map

/-! ## What a call does to a page table -/

/-- **A call made of the table the map `m`.** Its owner had the pages `R` beside the tables, and
has `R'` now. -/
structure Remap (s s' : PhysMem) (pagetable : ℕ) (R R' : Multiset ℕ) (m : ℕ → ℕ) : Prop where
  exchange : Exchange s s' (tables s.mem 2 pagetable + R) (tables s'.mem 2 pagetable + R')
  grows : tables s.mem 2 pagetable ≤ tables s'.mem 2 pagetable
  map : vmap s'.mem pagetable = m
  wellTyped : WellTyped s.mem 2 pagetable → WellTyped s'.mem 2 pagetable

namespace Remap

variable {s s' s'' : PhysMem} {pt : ℕ} {R R' R'' : Multiset ℕ} {m m' : ℕ → ℕ}

theorem refl (s : PhysMem) (pt : ℕ) (R : Multiset ℕ) :
    Remap s s pt R R (vmap s.mem pt) :=
  ⟨.refl _ _, le_rfl, rfl, id⟩

/-- **Calls compose.** -/
theorem trans (h : Remap s s' pt R R' m) (h' : Remap s' s'' pt R' R'' m') :
    Remap s s'' pt R R'' m' :=
  ⟨h.exchange.trans h'.exchange, h.grows.trans h'.grows, h'.map, h'.wellTyped ∘ h.wellTyped⟩

theorem add (h : Remap s s' pt R R' m) (F : Multiset ℕ) :
    Remap s s' pt (R + F) (R' + F) m := by
  refine ⟨?_, h.grows, h.map, h.wellTyped⟩
  rw [← add_assoc, ← add_assoc]
  exact h.exchange.add F

theorem holds {U : Finset ℕ} (h : Remap s s' pt R R' m)
    (hold : Holds U s (tables s.mem 2 pt + R)) :
    Holds U s' (tables s'.mem 2 pt + R') :=
  h.exchange.holds hold

theorem holds_tables {U : Finset ℕ} (h : Remap s s' pt 0 0 m)
    (hold : Holds U s (tables s.mem 2 pt)) : Holds U s' (tables s'.mem 2 pt) := by
  have h' := h.exchange
  rw [add_zero, add_zero] at h'
  exact h'.holds hold

theorem of_keep {U : Finset ℕ} (hex : Exchange s s' R R')
    (hold : Holds U s (tables s.mem 2 pt + R)) :
    Remap s s' pt R R' (vmap s.mem pt) := by
  rw [add_comm] at hold
  have hkeep : ∀ q ∈ tables s.mem 2 pt, s'.mem q = s.mem q :=
    fun q hq => hex.keep hold hq
  refine ⟨?_, (tables_congr hkeep).ge, vmap_congr hkeep, fun h => h.congr hkeep⟩
  rw [tables_congr hkeep]
  exact hex.add_left _

theorem of_sameMap (h : SameMap s s' 2 pt) :
    Remap s s' pt 0 0 (vmap s.mem pt) := by
  refine ⟨?_, h.grows, ?_, h.wellTyped⟩
  · rw [add_zero, add_zero]
    exact h.exchange
  · funext v
    unfold vmap
    rw [h.entry]

/-- **An entry is stored** at its page. -/
theorem of_setPte {U : Finset ℕ} {v pte : ℕ} {r : PteRef}
    (hold : Holds U s (tables s.mem 2 pt)) (hv : v < NPTE ^ 3)
    (hfind : find s.mem 2 pt (v * PGSIZE) = some r) (hlt : pte < 2 ^ 64)
    (hleaf : PteValid pte → PteLeaf pte) :
    Remap s (s.store r.table ((s.mem r.table).setLE (8 * r.slot) 8 pte)) pt 0 0
      (update (vmap s.mem pt) v pte) := by
  have hnd : (tables s.mem 2 pt).Nodup := (nodup_add.mp hold.nodup).2.1
  have hmem : (s.store r.table ((s.mem r.table).setLE (8 * r.slot) 8 pte)).mem
      = withPte s.mem r.table r.slot pte := rfl
  refine ⟨?_, ?_, ?_, fun h => ?_⟩
  · rw [hmem, tables_withPte hnd hfind, add_zero]
    exact exchange_store (find_mem_tables hfind).1 _
  · rw [hmem, tables_withPte hnd hfind]
  · rw [hmem, vmap_withPte hnd hv hfind hlt]
  · rw [hmem]
    exact h.withPte hnd hfind hlt hleaf

end Remap

/-! ## Walking -/

section Walk

variable {s : PhysMem} {pt va : ℕ}

theorem kalloc_ends (s : PhysMem) :
    Prog.Ends kalloc s (fun _ => False) fun res s' =>
      match res with
      | none => s'.mem = s.mem ∧ ∀ R, Exchange s s' R R
      | some pa => pa ∈ s.free ∧ Exchange s s' 0 {pa}
          ∧ s'.mem = update s.mem pa (.fill PGSIZE 5) := by
  cases h : kalloc s with
  | error e =>
    unfold kalloc at h
    split at h <;> cases h
  | ok res =>
    obtain ⟨res, s'⟩ := res
    refine Prog.ends_of_ok h ?_
    cases res with
    | none => exact kalloc_none h
    | some pa => exact kalloc_some h

theorem walkLevel_total (s : PhysMem) (pt va : ℕ) (alloc : Bool) (level : ℕ) :
    ∃ res s', walkLevel alloc level pt va s = .ok (res, s') := by
  induction level generalizing pt s with
  | zero => exact ⟨_, _, rfl⟩
  | succ level ih =>
    rw [walkLevel, Prog.get_bind]
    split
    · exact ih _ _
    · split
      · obtain ⟨res, s', hres, -⟩ := (kalloc_ends s).exists_ok
        rw [Prog.bind_of_ok hres]
        cases res with
        | none => exact ⟨_, _, rfl⟩
        | some page => exact ih _ _
      · exact ⟨_, _, rfl⟩

theorem walk_false (hva : va < MAXVA) :
    walk pt va false s = .ok (find s.mem 2 pt va, s) := by
  unfold walk
  rw [if_neg (Nat.not_le.mpr hva), walkLevel_false]

/-- **`walk` with allocation** returns the slot of the entry or runs out of memory, and changes
no entry. -/
theorem walk_ends [KernelImage] (hold : Holds physPages s (tables s.mem 2 pt)) (hva : va < MAXVA) :
    Prog.Ends (walk pt va true) s (fun _ => False) fun res s' =>
      Remap s s' pt 0 0 (vmap s.mem pt)
      ∧ ∀ r, res = some r → find s'.mem 2 pt va = some r := by
  unfold walk
  rw [if_neg (Nat.not_le.mpr hva)]
  obtain ⟨res, s', hres⟩ := walkLevel_total s pt va true 2
  obtain ⟨hsame, hfind⟩ := walkLevel_spec hold hres
  exact Prog.ends_of_ok hres ⟨.of_sameMap hsame, hfind⟩

end Walk

end Xv6
