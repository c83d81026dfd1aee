import Xv6.Kalloc

/-!
# Page tables

The three-level Sv39 page tables of `vm.c`, kept in pages of physical memory,
and `walk`, which finds the entry of a virtual address and creates the
missing tables on the way when it is asked to.

When no page occurs twice among `tables`, a slot of a lowest table is reached
from the addresses of one page only (`find_inj`), so storing an entry changes
the map at one page (`entry_setPte`) and no table. `walk` exchanges the pages of
the table for those and the new ones, and never changes the map (`walk_spec`).
-/

open Function Finset

namespace Xv6

open Pool

/-! ## Entries and tables in memory -/

/-- Where a page-table entry is: a table and a slot in it. -/
structure PteRef where
  table : ℕ
  slot : ℕ
  deriving DecidableEq, Repr

/-- The entry in a slot of a table. -/
def pteAt (mem : ℕ → Page) (pagetable i : ℕ) : ℕ := (mem pagetable).getLE (8 * i) 8

/-- Store an entry. -/
def setPte (pagetable i pte : ℕ) : MemProg Unit :=
  Prog.modify fun s => s.store pagetable ((s.mem pagetable).setLE (8 * i) 8 pte)

/-- The descent of `walk` from a table of some level: follow the entries of
`va` down to a lowest table, creating the tables that are missing if `alloc`. -/
def walkLevel (alloc : Bool) : ℕ → ℕ → ℕ → MemProg (Option PteRef)
  | 0, pagetable, va => pure (some ⟨pagetable, PX 0 va⟩)
  | level + 1, pagetable, va => do
    let s ← Prog.get
    let pte := pteAt s.mem pagetable (PX (level + 1) va)
    if PteValid pte then
      walkLevel alloc level (PTE2PA pte) va
    else if alloc then do
      match ← kalloc with
      | none => pure none
      | some page => do
        memsetPage page 0
        setPte pagetable (PX (level + 1) va) (PA2PTE page ||| PTE_V)
        walkLevel alloc level page va
    else
      pure none

/-- The place of the entry of `va` in a page table. -/
def walk (pagetable va : ℕ) (alloc : Bool) : MemProg (Option PteRef) :=
  if MAXVA ≤ va then
    Prog.panic .walk
  else
    walkLevel alloc 2 pagetable va

/-- The physical page of a virtual address that user code may use, or 0. -/
def walkaddr (pagetable va : ℕ) : MemProg ℕ :=
  if MAXVA ≤ va then
    pure 0
  else do
    match ← walk pagetable va false with
    | none => pure 0
    | some r => do
      let s ← Prog.get
      let pte := pteAt s.mem r.table r.slot
      if ¬ PteValid pte then pure 0
      else if pte &&& PTE_U = 0 then pure 0
      else pure (PTE2PA pte)

/-! ## What a page table means -/

/-- The place of the entry of `va`, under the tables there are. -/
def find (mem : ℕ → Page) : ℕ → ℕ → ℕ → Option PteRef
  | 0, pagetable, va => some ⟨pagetable, PX 0 va⟩
  | level + 1, pagetable, va =>
    let pte := pteAt mem pagetable (PX (level + 1) va)
    if PteValid pte then find mem level (PTE2PA pte) va else none

/-- The entry of `va`; zero if a table is missing. -/
def entry (mem : ℕ → Page) (level pagetable va : ℕ) : ℕ :=
  match find mem level pagetable va with
  | some r => pteAt mem r.table r.slot
  | none => 0

/-- The pages a page table occupies. -/
def tables (mem : ℕ → Page) : ℕ → ℕ → Multiset ℕ
  | 0, pagetable => {pagetable}
  | level + 1, pagetable => pagetable ::ₘ ∑ i ∈ range NPTE,
      if PteValid (pteAt mem pagetable i) then tables mem level (PTE2PA (pteAt mem pagetable i))
      else 0

/-- The pages below one slot of a table. -/
def subtables (mem : ℕ → Page) (level pagetable i : ℕ) : Multiset ℕ :=
  if PteValid (pteAt mem pagetable i) then tables mem level (PTE2PA (pteAt mem pagetable i)) else 0

/-- The entries of a page table say truly what they are: the valid ones in a
lowest table name pages, and those above name tables. -/
def WellTyped (mem : ℕ → Page) : ℕ → ℕ → Prop
  | 0, pagetable => ∀ i < NPTE, PteValid (pteAt mem pagetable i) → PteLeaf (pteAt mem pagetable i)
  | level + 1, pagetable => ∀ i < NPTE, PteValid (pteAt mem pagetable i) →
      ¬ PteLeaf (pteAt mem pagetable i) ∧ WellTyped mem level (PTE2PA (pteAt mem pagetable i))

theorem tables_succ (mem : ℕ → Page) (level pt : ℕ) :
    tables mem (level + 1) pt
      = pt ::ₘ ∑ i ∈ range NPTE, subtables mem level pt i := rfl

theorem self_mem_tables (mem : ℕ → Page) (level pt : ℕ) :
    pt ∈ tables mem level pt := by
  cases level with
  | zero => exact Multiset.mem_singleton_self _
  | succ level =>
    rw [tables_succ]
    exact Multiset.mem_cons_self _ _

theorem subtables_le (mem : ℕ → Page) (level pt : ℕ) {i : ℕ} (hi : i < NPTE) :
    subtables mem level pt i ≤ tables mem (level + 1) pt := by
  rw [tables_succ]
  refine le_trans ?_ (Multiset.le_cons_self _ _)
  exact single_le_sum (f := subtables mem level pt)
    (fun _ _ => zero_le) (mem_range.mpr hi)

/-! ## The meaning depends on the pages of the table only -/

section Congr

variable {mem mem' : ℕ → Page}

theorem pteAt_congr {pt : ℕ} (h : mem' pt = mem pt) (i : ℕ) :
    pteAt mem' pt i = pteAt mem pt i := by
  unfold pteAt
  rw [h]

theorem mem_tables_of_subtables {level pt i q : ℕ} (hi : i < NPTE)
    (hv : PteValid (pteAt mem pt i))
    (hq : q ∈ tables mem level (PTE2PA (pteAt mem pt i))) :
    q ∈ tables mem (level + 1) pt := by
  refine Multiset.mem_of_le (subtables_le mem level pt hi) ?_
  unfold subtables
  rwa [if_pos hv]

theorem tables_congr {level pt : ℕ}
    (h : ∀ q ∈ tables mem level pt, mem' q = mem q) :
    tables mem' level pt = tables mem level pt := by
  induction level generalizing pt with
  | zero => rfl
  | succ level ih =>
    have hself := h _ (self_mem_tables mem _ _)
    rw [tables_succ, tables_succ]
    refine congrArg _ (sum_congr rfl fun i hi => ?_)
    unfold subtables
    rw [pteAt_congr hself]
    split
    · rename_i hv
      exact ih fun q hq => h q (mem_tables_of_subtables (mem_range.mp hi) hv hq)
    · rfl

theorem find_congr {level pt : ℕ}
    (h : ∀ q ∈ tables mem level pt, mem' q = mem q) (va : ℕ) :
    find mem' level pt va = find mem level pt va := by
  induction level generalizing pt with
  | zero => rfl
  | succ level ih =>
    have hself := h _ (self_mem_tables mem _ _)
    simp only [find]
    rw [pteAt_congr hself]
    split
    · rename_i hv
      exact ih fun q hq => h q (mem_tables_of_subtables (PX_lt _ _) hv hq)
    · rfl

theorem WellTyped.congr {level pt : ℕ} (hw : WellTyped mem level pt)
    (h : ∀ q ∈ tables mem level pt, mem' q = mem q) :
    WellTyped mem' level pt := by
  induction level generalizing pt with
  | zero =>
    intro i hi
    rw [pteAt_congr (h _ (self_mem_tables mem _ _))]
    exact hw i hi
  | succ level ih =>
    intro i hi
    rw [pteAt_congr (h _ (self_mem_tables mem _ _))]
    intro hv
    exact ⟨(hw i hi hv).1, ih (hw i hi hv).2
      fun q hq => h q (mem_tables_of_subtables hi hv hq)⟩

theorem find_mem_tables {level pt va : ℕ} {r : PteRef}
    (h : find mem level pt va = some r) :
    r.table ∈ tables mem level pt ∧ r.slot = PX 0 va := by
  induction level generalizing pt with
  | zero =>
    cases h
    exact ⟨Multiset.mem_singleton_self _, rfl⟩
  | succ level ih =>
    simp only [find] at h
    split at h
    · rename_i hv
      exact ⟨mem_tables_of_subtables (PX_lt _ _) hv (ih h).1, (ih h).2⟩
    · cases h

theorem WellTyped.leaf_of_find {level pt va : ℕ} {r : PteRef}
    (hw : WellTyped mem level pt) (h : find mem level pt va = some r)
    (hv : PteValid (pteAt mem r.table r.slot)) : PteLeaf (pteAt mem r.table r.slot) := by
  induction level generalizing pt with
  | zero =>
    cases h
    exact hw _ (PX_lt 0 va) hv
  | succ level ih =>
    simp only [find] at h
    split at h
    · rename_i hvalid
      exact ih (hw _ (PX_lt _ _) hvalid).2 h
    · cases h

theorem entry_congr {level pt : ℕ}
    (h : ∀ q ∈ tables mem level pt, mem' q = mem q) (va : ℕ) :
    entry mem' level pt va = entry mem level pt va := by
  unfold entry
  rw [find_congr h]
  split
  · rename_i r hr
    exact pteAt_congr (h _ (find_mem_tables hr).1) _
  · rfl

end Congr

/-! ## Tables without a page in common -/

section Nodup

variable {mem : ℕ → Page} {level pt va : ℕ} {r : PteRef}

theorem subtables_of_valid {i : ℕ} (hv : PteValid (pteAt mem pt i)) :
    subtables mem level pt i = tables mem level (PTE2PA (pteAt mem pt i)) :=
  if_pos hv

theorem subtables_of_invalid {i : ℕ} (hv : ¬ PteValid (pteAt mem pt i)) :
    subtables mem level pt i = 0 :=
  if_neg hv

theorem self_notMem_subtables (hnd : (tables mem (level + 1) pt).Nodup) {i : ℕ}
    (hi : i < NPTE) : pt ∉ subtables mem level pt i := by
  rw [tables_succ, Multiset.nodup_cons] at hnd
  exact fun hmem => hnd.1 (Multiset.mem_of_le (single_le_sum
    (f := subtables mem level pt) (fun _ _ => zero_le) (mem_range.mpr hi)) hmem)

theorem disjoint_subtables (hnd : (tables mem (level + 1) pt).Nodup) {i j : ℕ}
    (hi : i < NPTE) (hj : j < NPTE) (hij : i ≠ j) :
    Disjoint (subtables mem level pt i) (subtables mem level pt j) := by
  rw [tables_succ, Multiset.nodup_cons] at hnd
  exact disjoint_of_nodup_sum hnd.2 (mem_range.mpr hi) (mem_range.mpr hj) hij

/-- One step of the way to an entry, seen from the tables: it goes through
one valid slot, and no table beside that slot holds the entry. -/
theorem find_succ (hnd : (tables mem (level + 1) pt).Nodup)
    (h : find mem (level + 1) pt va = some r) :
    PteValid (pteAt mem pt (PX (level + 1) va))
    ∧ find mem level (PTE2PA (pteAt mem pt (PX (level + 1) va))) va = some r
    ∧ (tables mem level (PTE2PA (pteAt mem pt (PX (level + 1) va)))).Nodup
    ∧ r.table ≠ pt
    ∧ ∀ j < NPTE, j ≠ PX (level + 1) va → r.table ∉ subtables mem level pt j := by
  simp only [find] at h
  split at h
  · rename_i hv
    have hi := PX_lt (level + 1) va
    have hmem : r.table ∈ subtables mem level pt (PX (level + 1) va) := by
      rw [subtables_of_valid hv]
      exact (find_mem_tables h).1
    refine ⟨hv, h, ?_, ?_, ?_⟩
    · rw [← subtables_of_valid hv]
      exact Multiset.nodup_of_le (subtables_le mem level pt hi) hnd
    · intro heq
      rw [heq] at hmem
      exact self_notMem_subtables hnd hi hmem
    · intro j hj hne
      exact Multiset.disjoint_left.mp (disjoint_subtables hnd hi hj hne.symm) hmem
  · cases h

theorem find_of_agree {va' : ℕ} (h : ∀ k ≤ level, PX k va' = PX k va) :
    find mem level pt va' = find mem level pt va := by
  induction level generalizing pt with
  | zero =>
    simp only [find]
    rw [h 0 le_rfl]
  | succ level ih =>
    simp only [find]
    rw [h (level + 1) le_rfl]
    split
    · exact ih fun k hk => h k (Nat.le_succ_of_le hk)
    · rfl

/-- **A slot is reached from one page only**: addresses with the same entry
agree on the bits that index the tables. -/
theorem find_inj {va' : ℕ} (hnd : (tables mem level pt).Nodup)
    (h : find mem level pt va = some r) (h' : find mem level pt va' = some r) :
    ∀ k ≤ level, PX k va = PX k va' := by
  induction level generalizing pt with
  | zero =>
    intro k hk
    obtain rfl := Nat.le_zero.mp hk
    exact (find_mem_tables h).2.symm.trans (find_mem_tables h').2
  | succ level ih =>
    obtain ⟨-, hfind, hsub, -, hout⟩ := find_succ hnd h
    obtain ⟨hv', hfind', -, -, -⟩ := find_succ hnd h'
    have htop : PX (level + 1) va = PX (level + 1) va' := by
      by_contra hne
      refine hout _ (PX_lt _ _) (Ne.symm hne) ?_
      rw [subtables_of_valid hv']
      exact (find_mem_tables hfind').1
    intro k hk
    rcases Nat.lt_or_ge k (level + 1) with hlt | hge
    · rw [← htop] at hfind'
      exact ih hsub hfind hfind' k (Nat.lt_succ_iff.mp hlt)
    · rw [le_antisymm hk hge]
      exact htop

end Nodup

/-! ## Storing an entry -/

/-- The memory after an entry was stored. -/
def withPte (mem : ℕ → Page) (pagetable i pte : ℕ) : ℕ → Page :=
  update mem pagetable ((mem pagetable).setLE (8 * i) 8 pte)

section Store

variable {mem : ℕ → Page} {pt i j pte : ℕ}

theorem withPte_of_ne {q : ℕ} (h : q ≠ pt) : withPte mem pt i pte q = mem q :=
  update_of_ne h _ _

theorem pteAt_withPte_self (hi : i < NPTE) (hpte : pte < 2 ^ 64) :
    pteAt (withPte mem pt i pte) pt i = pte := by
  unfold pteAt withPte
  unfold NPTE at hi
  rw [update_self, Bytes.getLE_setLE_same _ (by unfold PGSIZE; omega)]
  exact Nat.mod_eq_of_lt hpte

theorem pteAt_withPte_of_ne (hij : j ≠ i) (q : ℕ) :
    pteAt (withPte mem pt i pte) q j = pteAt mem q j := by
  unfold pteAt withPte
  by_cases hq : q = pt
  · subst hq
    rw [update_self, Bytes.getLE_setLE_disjoint _ (by omega)]
  · rw [update_of_ne hq]

end Store

section StoreLeaf

variable {mem : ℕ → Page} {level pt va pte : ℕ} {r : PteRef}

/-- Storing an entry in a lowest table leaves every table where it is. -/
theorem tables_withPte (hnd : (tables mem level pt).Nodup)
    (h : find mem level pt va = some r) :
    tables (withPte mem r.table r.slot pte) level pt = tables mem level pt := by
  induction level generalizing pt with
  | zero => rfl
  | succ level ih =>
    obtain ⟨hv, hfind, hsub, hne, hout⟩ := find_succ hnd h
    rw [tables_succ, tables_succ]
    refine congrArg _ (sum_congr rfl fun j hj => ?_)
    rw [mem_range] at hj
    have hpte : pteAt (withPte mem r.table r.slot pte) pt j = pteAt mem pt j :=
      pteAt_congr (withPte_of_ne hne.symm) j
    by_cases hji : j = PX (level + 1) va
    · subst hji
      unfold subtables
      rw [hpte, if_pos hv, if_pos hv, ih hsub hfind]
    · have hnot := hout j hj hji
      unfold subtables at hnot ⊢
      rw [hpte]
      split
      · rename_i hvj
        rw [if_pos hvj] at hnot
        exact tables_congr fun q hq => withPte_of_ne fun heq => hnot (heq ▸ hq)
      · rfl

/-- Storing an entry in a lowest table changes no way to an entry. -/
theorem find_withPte (hnd : (tables mem level pt).Nodup)
    (h : find mem level pt va = some r) (va' : ℕ) :
    find (withPte mem r.table r.slot pte) level pt va'
      = find mem level pt va' := by
  induction level generalizing pt with
  | zero => rfl
  | succ level ih =>
    obtain ⟨hv, hfind, hsub, hne, hout⟩ := find_succ hnd h
    have hpte : pteAt (withPte mem r.table r.slot pte) pt (PX (level + 1) va')
        = pteAt mem pt (PX (level + 1) va') :=
      pteAt_congr (withPte_of_ne hne.symm) _
    simp only [find]
    rw [hpte]
    by_cases hji : PX (level + 1) va' = PX (level + 1) va
    · rw [hji, if_pos hv, if_pos hv, ih hsub hfind]
    · have hnot := hout _ (PX_lt _ _) hji
      split
      · rename_i hvj
        rw [subtables_of_valid hvj] at hnot
        refine find_congr (fun q hq => withPte_of_ne ?_) va'
        rintro rfl
        exact hnot hq
      · rfl

/-- A stored entry keeps the table well typed if it is invalid or names a page. -/
theorem WellTyped.withPte (hw : WellTyped mem level pt)
    (hnd : (tables mem level pt).Nodup) (h : find mem level pt va = some r)
    (hlt : pte < 2 ^ 64) (hleaf : PteValid pte → PteLeaf pte) :
    WellTyped (withPte mem r.table r.slot pte) level pt := by
  induction level generalizing pt with
  | zero =>
    cases h
    intro j hj
    by_cases hji : j = PX 0 va
    · subst hji
      rw [pteAt_withPte_self hj hlt]
      exact hleaf
    · rw [pteAt_withPte_of_ne hji]
      exact hw j hj
  | succ level ih =>
    obtain ⟨hv, hfind, hsub, hne, hout⟩ := find_succ hnd h
    intro j hj
    rw [pteAt_congr (withPte_of_ne hne.symm) j]
    intro hvj
    refine ⟨(hw j hj hvj).1, ?_⟩
    by_cases hji : j = PX (level + 1) va
    · subst hji
      exact ih (hw _ hj hv).2 hsub hfind
    · have hnot := hout j hj hji
      rw [subtables_of_valid hvj] at hnot
      exact (hw j hj hvj).2.congr fun q hq => withPte_of_ne fun heq => hnot (heq ▸ hq)

/-- **Storing an entry changes the map at one page**: at the addresses that
agree with `va` on the bits that index the tables. -/
theorem entry_withPte (hnd : (tables mem level pt).Nodup)
    (h : find mem level pt va = some r) (hlt : pte < 2 ^ 64) (va' : ℕ) :
    ((∀ k ≤ level, PX k va' = PX k va) →
      entry (Xv6.withPte mem r.table r.slot pte) level pt va' = pte)
    ∧ ((∃ k ≤ level, PX k va' ≠ PX k va) →
      entry (Xv6.withPte mem r.table r.slot pte) level pt va'
        = entry mem level pt va') := by
  unfold entry
  rw [find_withPte hnd h]
  constructor
  · intro hagree
    have hsame : find mem level pt va' = find mem level pt va :=
      find_of_agree hagree
    rw [hsame, h]
    exact pteAt_withPte_self ((find_mem_tables h).2 ▸ PX_lt 0 va) hlt
  · rintro ⟨k, hk, hne⟩
    cases hfind : find mem level pt va' with
    | none => rfl
    | some r' =>
      show pteAt _ r'.table r'.slot = pteAt _ r'.table r'.slot
      by_cases htable : r'.table = r.table
      · refine pteAt_withPte_of_ne (fun hslot => ?_) _
        have : r' = r := by
          cases r; cases r'
          exact congrArg₂ PteRef.mk htable hslot
        subst this
        exact hne (find_inj hnd hfind h k hk)
      · exact pteAt_congr (withPte_of_ne htable) _

end StoreLeaf

/-! ## Walking -/

/-- The entry of an address, one level down. -/
theorem entry_succ (mem : ℕ → Page) (level pt va : ℕ) :
    entry mem (level + 1) pt va
      = if PteValid (pteAt mem pt (PX (level + 1) va)) then
          entry mem level (PTE2PA (pteAt mem pt (PX (level + 1) va))) va
        else 0 := by
  by_cases hv : PteValid (pteAt mem pt (PX (level + 1) va))
  · have hfind : find mem (level + 1) pt va
        = find mem level (PTE2PA (pteAt mem pt (PX (level + 1) va))) va := if_pos hv
    rw [if_pos hv]
    unfold entry
    rw [hfind]
  · have hfind : find mem (level + 1) pt va = none := if_neg hv
    rw [if_neg hv]
    unfold entry
    rw [hfind]

/-- A page of zeros is a table without entries. -/
theorem zero_table {mem : ℕ → Page} {pt : ℕ} (h : mem pt = .fill PGSIZE 0)
    (level : ℕ) :
    tables mem level pt = {pt} ∧ WellTyped mem level pt
    ∧ ∀ va, entry mem level pt va = 0 := by
  have hpte : ∀ i, pteAt mem pt i = 0 := by
    intro i
    unfold pteAt
    rw [h, Bytes.getLE_fill_zero]
  have hinv : ∀ i, ¬ PteValid (pteAt mem pt i) := by
    intro i
    rw [hpte]
    exact not_pteValid_zero
  cases level with
  | zero => exact ⟨rfl, fun i _ hv => absurd hv (hinv i), fun va => hpte _⟩
  | succ level =>
    refine ⟨?_, fun i _ hv => absurd hv (hinv i), fun va => ?_⟩
    · rw [tables_succ, sum_eq_zero fun i _ => subtables_of_invalid (hinv i)]
      rfl
    · rw [entry_succ, if_neg (hinv _)]

/-- A page table got tables but did not change what it means. -/
structure SameMap (s s' : PhysMem) (level pagetable : ℕ) : Prop where
  exchange : Exchange s s' (tables s.mem level pagetable) (tables s'.mem level pagetable)
  grows : tables s.mem level pagetable ≤ tables s'.mem level pagetable
  entry : ∀ va, entry s'.mem level pagetable va = entry s.mem level pagetable va
  wellTyped : WellTyped s.mem level pagetable → WellTyped s'.mem level pagetable

section Walk

variable {s s' s'' : PhysMem} {level pt va : ℕ}

theorem SameMap.refl (s : PhysMem) (level pt : ℕ) : SameMap s s level pt :=
  ⟨.refl _ _, le_rfl, fun _ => rfl, id⟩

theorem SameMap.trans (h : SameMap s s' level pt) (h' : SameMap s' s'' level pt) :
    SameMap s s'' level pt :=
  ⟨h.exchange.trans h'.exchange, h.grows.trans h'.grows,
    fun va => (h'.entry va).trans (h.entry va),
    h'.wellTyped ∘ h.wellTyped⟩

theorem tables_eq_add (mem : ℕ → Page) (level pt : ℕ) {i : ℕ} (hi : i < NPTE) :
    tables mem (level + 1) pt = subtables mem level pt i
      + (pt ::ₘ ∑ j ∈ (range NPTE).erase i, subtables mem level pt j) := by
  rw [tables_succ, ← add_sum_erase _ _ (mem_range.mpr hi), Multiset.add_cons]

/-- **A table is not changed by what happens below one of its slots**: if the
map below the slot stays the same, so does the map of the table. -/
theorem SameMap.of_slot [KernelImage] {i : ℕ} (hi : i < NPTE)
    (hold : Holds physPages s (tables s.mem (level + 1) pt))
    (hv : PteValid (pteAt s.mem pt i))
    (h : SameMap s s' level (PTE2PA (pteAt s.mem pt i))) :
    SameMap s s' (level + 1) pt ∧ s'.mem pt = s.mem pt := by
  have hsplit := tables_eq_add s.mem level pt hi
  rw [subtables_of_valid hv] at hsplit
  rw [hsplit] at hold
  have hkeep := fun q hq => h.exchange.keep hold (a := q) hq
  have hself : s'.mem pt = s.mem pt := hkeep _ (Multiset.mem_cons_self _ _)
  have hpte : ∀ j, pteAt s'.mem pt j = pteAt s.mem pt j := pteAt_congr hself
  -- the tables below the other slots are in the context of the exchange
  have hother : ∀ j < NPTE, j ≠ i → PteValid (pteAt s.mem pt j) →
      ∀ q ∈ tables s.mem level (PTE2PA (pteAt s.mem pt j)), s'.mem q = s.mem q := by
    intro j hj hji hvj q hq
    refine hkeep q (Multiset.mem_cons.mpr (.inr ?_))
    rw [← subtables_of_valid hvj] at hq
    exact Multiset.mem_of_le (single_le_sum (f := subtables s.mem level pt)
      (fun _ _ => zero_le) (mem_erase.mpr ⟨hji, mem_range.mpr hj⟩)) hq
  have hsplit' : tables s'.mem (level + 1) pt
      = tables s'.mem level (PTE2PA (pteAt s.mem pt i))
        + (pt ::ₘ ∑ j ∈ (range NPTE).erase i, subtables s.mem level pt j) := by
    have hsum : ∑ j ∈ (range NPTE).erase i, subtables s'.mem level pt j
        = ∑ j ∈ (range NPTE).erase i, subtables s.mem level pt j := by
      refine sum_congr rfl fun j hj => ?_
      obtain ⟨hji, hj⟩ := mem_erase.mp hj
      unfold subtables
      rw [hpte j]
      split
      · rename_i hvj
        exact tables_congr (hother j (mem_range.mp hj) hji hvj)
      · rfl
    rw [tables_eq_add s'.mem level pt hi,
      subtables_of_valid (by rw [hpte i]; exact hv), hpte i, hsum]
  refine ⟨⟨?_, ?_, ?_, ?_⟩, hself⟩
  · rw [hsplit, hsplit']
    exact h.exchange.add _
  · rw [hsplit, hsplit']
    exact add_le_add_left h.grows _
  · intro va
    rw [entry_succ, entry_succ, hpte]
    split
    · rename_i hvj
      by_cases hji : PX (level + 1) va = i
      · rw [hji]
        exact h.entry va
      · exact entry_congr (hother _ (PX_lt _ _) hji hvj) va
    · rfl
  · intro hw j hj
    rw [hpte j]
    intro hvj
    refine ⟨(hw j hj hvj).1, ?_⟩
    by_cases hji : j = i
    · subst hji
      exact h.wellTyped (hw j hj hvj).2
    · exact (hw j hj hvj).2.congr (hother j hj hji hvj)

theorem table_entry [KernelImage] {page : ℕ} (hpage : page ∈ physPages) :
    PteValid (PA2PTE page ||| PTE_V) ∧ ¬ PteLeaf (PA2PTE page ||| PTE_V)
    ∧ PTE2PA (PA2PTE page ||| PTE_V) = page := by
  refine ⟨?_, ?_, ?_⟩
  · unfold PteValid
    rw [PA2PTE_or_and (by decide)]
    decide
  · unfold PteLeaf
    rw [PA2PTE_or_and (by decide)]
    decide
  · have hlt := mem_physPages_lt hpage
    rw [PTE2PA_or (by omega) (by decide), PGROUNDDOWN_of_dvd (mem_physPages hpage).1]

/-- **A new table below a free slot** leaves the map as it was. -/
theorem SameMap.of_link [KernelImage] {i page : ℕ} (hi : i < NPTE)
    (hold : Holds physPages s (tables s.mem (level + 1) pt))
    (hinv : ¬ PteValid (pteAt s.mem pt i)) (hfree : page ∈ s.free)
    (hmem : s'.mem = withPte (update s.mem page (.fill PGSIZE 0)) pt i
      (PA2PTE page ||| PTE_V))
    (hex : Exchange s s' (tables s.mem (level + 1) pt)
      ({page} + tables s.mem (level + 1) pt)) :
    SameMap s s' (level + 1) pt
    ∧ pteAt s'.mem pt i = PA2PTE page ||| PTE_V := by
  have hpage := hold.mem_of_free hfree
  have hnd : (tables s.mem (level + 1) pt).Nodup :=
    (Multiset.nodup_add.mp hold.nodup).2.1
  have hnew : ∀ q ∈ tables s.mem (level + 1) pt, q ≠ page := by
    rintro q hq rfl
    exact hold.notMem_free hq hfree
  obtain ⟨hvalid, hnotLeaf, hpa⟩ := table_entry hpage
  have hslot : pteAt s'.mem pt i = PA2PTE page ||| PTE_V := by
    rw [hmem]
    exact pteAt_withPte_self hi (PA2PTE_or_lt (mem_physPages_lt hpage) (by decide))
  have hsame : ∀ q, q ≠ page → q ≠ pt → s'.mem q = s.mem q := by
    intro q hq hq'
    rw [hmem, withPte_of_ne hq', update_of_ne hq]
  have hpte : ∀ j, j ≠ i → pteAt s'.mem pt j = pteAt s.mem pt j := by
    intro j hj
    rw [hmem, pteAt_withPte_of_ne hj]
    exact pteAt_congr (update_of_ne (hnew _ (self_mem_tables _ _ _)) _ _) j
  have hzero : s'.mem page = .fill PGSIZE 0 := by
    rw [hmem, withPte_of_ne (hnew _ (self_mem_tables _ _ _)).symm, update_self]
  obtain ⟨htables, hwell, hentry⟩ := zero_table hzero level
  have hother : ∀ j < NPTE, PteValid (pteAt s.mem pt j) →
      ∀ q ∈ tables s.mem level (PTE2PA (pteAt s.mem pt j)), s'.mem q = s.mem q := by
    intro j hj hvj q hq
    refine hsame q (hnew q (mem_tables_of_subtables hj hvj hq)) ?_
    rintro rfl
    rw [← subtables_of_valid hvj] at hq
    exact self_notMem_subtables hnd hj hq
  have hsplit' : tables s'.mem (level + 1) pt
      = {page} + tables s.mem (level + 1) pt := by
    have hsub : subtables s'.mem level pt i = {page} := by
      unfold subtables
      rw [hslot, if_pos hvalid, hpa, htables]
    have hsum : ∑ j ∈ (range NPTE).erase i, subtables s'.mem level pt j
        = ∑ j ∈ (range NPTE).erase i, subtables s.mem level pt j := by
      refine sum_congr rfl fun j hj => ?_
      obtain ⟨hji, hj⟩ := mem_erase.mp hj
      unfold subtables
      rw [hpte j hji]
      split
      · rename_i hvj
        exact tables_congr (hother j (mem_range.mp hj) hvj)
      · rfl
    have hsplit := tables_eq_add s.mem level pt hi
    rw [subtables_of_invalid hinv, zero_add] at hsplit
    rw [tables_eq_add s'.mem level pt hi, hsub, hsum, ← hsplit]
  refine ⟨⟨?_, ?_, ?_, ?_⟩, hslot⟩
  · rw [hsplit']
    exact hex
  · rw [hsplit']
    exact Multiset.le_add_left _ _
  · intro va
    rw [entry_succ, entry_succ]
    by_cases hji : PX (level + 1) va = i
    · rw [hji, hslot, if_pos hvalid, hpa, hentry, if_neg hinv]
    · rw [hpte _ hji]
      split
      · rename_i hvj
        exact entry_congr (hother _ (PX_lt _ _) hvj) va
      · rfl
  · intro hw j hj
    by_cases hji : j = i
    · subst hji
      rw [hslot, hpa]
      exact fun _ => ⟨hnotLeaf, hwell⟩
    · rw [hpte j hji]
      exact fun hvj => ⟨(hw j hj hvj).1, (hw j hj hvj).2.congr (hother j hj hvj)⟩

/-- **What `walk` does**, from a table of any level: the table may get new
tables, its map stays the same, and a place returned is that of the entry. -/
theorem walkLevel_spec [KernelImage] {alloc : Bool} {res : Option PteRef}
    (hold : Holds physPages s (tables s.mem level pt))
    (h : walkLevel alloc level pt va s = .ok (res, s')) :
    SameMap s s' level pt
    ∧ ∀ r, res = some r → find s'.mem level pt va = some r := by
  induction level generalizing pt s with
  | zero =>
    obtain ⟨rfl, rfl⟩ := Prog.pure_ok.mp h
    exact ⟨.refl _ _ _, fun r hr => hr⟩
  | succ level ih =>
    have hi := PX_lt (level + 1) va
    rw [walkLevel, Prog.get_bind] at h
    -- the descent below a valid slot
    have hdown : ∀ {t : PhysMem} {c : ℕ},
        Holds physPages t (tables t.mem (level + 1) pt) →
        PteValid (pteAt t.mem pt (PX (level + 1) va)) →
        PTE2PA (pteAt t.mem pt (PX (level + 1) va)) = c →
        walkLevel alloc level c va t = .ok (res, s') →
        SameMap t s' (level + 1) pt
        ∧ ∀ r, res = some r → find s'.mem (level + 1) pt va = some r := by
      rintro t _ hold hv rfl hwalk
      have hsub : Holds physPages t
          (tables t.mem level (PTE2PA (pteAt t.mem pt (PX (level + 1) va)))) := by
        rw [← subtables_of_valid hv]
        exact hold.mono (subtables_le _ _ _ hi)
      obtain ⟨hmap, hfind⟩ := ih hsub hwalk
      obtain ⟨hmap, hself⟩ := SameMap.of_slot hi hold hv hmap
      refine ⟨hmap, fun r hr => ?_⟩
      simp only [find]
      rw [pteAt_congr hself, if_pos hv]
      exact hfind r hr
    split at h
    · rename_i hv
      exact hdown hold hv rfl h
    · rename_i hinv
      split at h
      · obtain ⟨page, s₁, hkalloc, h⟩ := Prog.bind_ok.mp h
        cases page with
        | none =>
          obtain ⟨rfl, rfl⟩ := Prog.pure_ok.mp h
          obtain ⟨hmem, hex⟩ := kalloc_none hkalloc
          refine ⟨⟨?_, ?_, ?_, ?_⟩, fun r hr => by cases hr⟩
          · rw [hmem]
            exact hex _
          · rw [hmem]
          · rw [hmem]
            exact fun _ => rfl
          · rw [hmem]
            exact id
        | some page =>
          obtain ⟨_, s₂, hset, h⟩ := Prog.bind_ok.mp h
          obtain ⟨_, s₃, hpte, h⟩ := Prog.bind_ok.mp h
          obtain ⟨hfree, hex, hmem⟩ := kalloc_some hkalloc
          obtain rfl := setPage_ok.mp hset
          obtain rfl := Prog.modify_ok.mp hpte
          have hmem₂ : (s₁.store page (.fill PGSIZE 0)).mem
              = update s.mem page (.fill PGSIZE 0) := by
            show update s₁.mem page _ = _
            rw [hmem, update_idem]
          have hex₂ := (hex.trans (exchange_store (Multiset.mem_singleton_self page)
            (.fill PGSIZE 0))).add (tables s.mem (level + 1) pt)
          rw [zero_add] at hex₂
          have hex₃ := fun v => hex₂.trans (exchange_store (Multiset.mem_add.mpr
            (.inr (self_mem_tables s.mem (level + 1) pt))) v)
          obtain ⟨hmap, hslot⟩ := SameMap.of_link hi hold hinv hfree
            (by rw [← hmem₂]; rfl) (hex₃ _)
          obtain ⟨hvalid, -, hpa⟩ := table_entry (hold.mem_of_free hfree)
          obtain ⟨hmap', hfind⟩ := hdown (hmap.exchange.holds hold)
            (by rw [hslot]; exact hvalid) (by rw [hslot]; exact hpa) h
          exact ⟨hmap.trans hmap', hfind⟩
      · obtain ⟨rfl, rfl⟩ := Prog.pure_ok.mp h
        exact ⟨.refl _ _ _, fun r hr => by cases hr⟩

end Walk

end Xv6
