import Xv6.Uvm

/-!
# Copies to and from user memory

`copyout` and `copyin` work page by page. What they transfer is always a first part of the
range, up to the first byte that user code may not use (`Transfers`).

A page table may give user code any physical page. The copies do what they should if the
user pages are pages of their own (`UserPages`): different, not at address 0, which
`walkaddr` returns for a page that is not mapped, and not used for the page table
itself.
-/

open Function List

open Prog hiding get modify panic result

namespace Xv6

open Pool

/-! ## User pages -/

section Pages

variable {mem : ℕ → Page} {pt va : ℕ}

theorem userAccessible_page :
    UserAccessible mem pt (PGROUNDDOWN va) ↔ UserAccessible mem pt va := by
  have hdiv : PGROUNDDOWN va / PGSIZE = va / PGSIZE := Nat.mul_div_cancel _ (by decide)
  have hlt : PGROUNDDOWN va < MAXVA ↔ va < MAXVA := by
    unfold PGROUNDDOWN PGSIZE MAXVA
    omega
  rw [userAccessible_iff, userAccessible_iff, hdiv, hlt]

theorem userPage_of_accessible (h : UserAccessible mem pt va) :
    userPage mem pt va = PTE2PA (vmap mem pt (va / PGSIZE)) := by
  unfold userPage
  rw [if_pos h, entry_eq_vmap h.1]

theorem userPage_page : userPage mem pt (PGROUNDDOWN va) = userPage mem pt va := by
  by_cases h : UserAccessible mem pt va
  · rw [userPage_of_accessible h, userPage_of_accessible (userAccessible_page.mpr h)]
    congr 2
    exact Nat.mul_div_cancel _ (by decide)
  · unfold userPage
    rw [if_neg h, if_neg (mt userAccessible_page.mp h)]

theorem userPage_of_div_eq {u : ℕ} (h : UserAccessible mem pt va)
    (hdiv : u / PGSIZE = va / PGSIZE) :
    UserAccessible mem pt u ∧ userPage mem pt u = userPage mem pt va := by
  have hround : PGROUNDDOWN u = PGROUNDDOWN va := congrArg (· * PGSIZE) hdiv
  rw [← userAccessible_page, hround, userAccessible_page, ← userPage_page, hround, userPage_page]
  exact ⟨h, rfl⟩

section Congr

variable {mem' : ℕ → Page} (h : ∀ q ∈ tables mem 2 pt, mem' q = mem q)
include h

theorem userAccessible_congr :
    UserAccessible mem' pt va ↔ UserAccessible mem pt va := by
  rw [userAccessible_iff, userAccessible_iff, vmap_congr h]

theorem userPage_congr : userPage mem' pt va = userPage mem pt va := by
  by_cases hva : UserAccessible mem pt va
  · rw [userPage_of_accessible hva, userPage_of_accessible ((userAccessible_congr h).mpr hva),
      vmap_congr h]
  · unfold userPage
    rw [if_neg hva, if_neg (mt (userAccessible_congr h).mp hva)]

end Congr

theorem userByte_of_accessible (h : UserAccessible mem pt va) :
    userByte mem pt va
      = some ((mem (userPage mem pt va)).byteAt (va % PGSIZE)) := by
  unfold userByte userPage
  rw [if_pos h, if_pos h]

theorem userByte_of_not_accessible (h : ¬ UserAccessible mem pt va) :
    userByte mem pt va = none :=
  if_neg h

end Pages

/-- The user pages of a page table are mapped to different pages. -/
def UserInjective (mem : ℕ → Page) (pagetable : ℕ) : Prop :=
  ∀ va va', UserAccessible mem pagetable va → UserAccessible mem pagetable va' →
    userPage mem pagetable va = userPage mem pagetable va' → va / PGSIZE = va' / PGSIZE

/-- **The user pages of a page table are pages of their own.** -/
structure UserPages (mem : ℕ → Page) (pagetable : ℕ) : Prop where
  inj : UserInjective mem pagetable
  ne_zero : ∀ va, UserAccessible mem pagetable va → userPage mem pagetable va ≠ 0
  notMem_tables : ∀ va, UserAccessible mem pagetable va →
    userPage mem pagetable va ∉ tables mem 2 pagetable

/-- The user pages depend on the tables. -/
theorem UserPages.congr {mem mem' : ℕ → Page} {pt : ℕ} (h : UserPages mem pt)
    (htables : ∀ q ∈ tables mem 2 pt, mem' q = mem q) : UserPages mem' pt := by
  refine ⟨fun u u' hu hu' heq => ?_, fun u hu => ?_, fun u hu => ?_⟩
  · rw [userAccessible_congr htables] at hu hu'
    rw [userPage_congr htables, userPage_congr htables] at heq
    exact h.inj u u' hu hu' heq
  · rw [userAccessible_congr htables] at hu
    rw [userPage_congr htables]
    exact h.ne_zero u hu
  · rw [userAccessible_congr htables] at hu
    rw [userPage_congr htables, tables_congr htables]
    exact h.notMem_tables u hu

/-- **The bytes were stored in user memory** at `va`, and nothing else changed. -/
structure UserStored (s s' : PhysMem) (pagetable va : ℕ) (bytes : List UInt8) : Prop where
  free : s'.free = s.free
  refuse : s'.refuse = s.refuse
  frame : ∀ q, (∀ u, UserAccessible s.mem pagetable u → userPage s.mem pagetable u ≠ q) →
    s'.mem q = s.mem q
  userByte : ∀ u, userByte s'.mem pagetable u
    = if va ≤ u ∧ u < va + bytes.length then bytes[u - va]? else userByte s.mem pagetable u

namespace UserStored

variable {s s' s'' : PhysMem} {pt va : ℕ} {bytes bytes' : List UInt8}

theorem tables (h : UserStored s s' pt va bytes) (hpages : UserPages s.mem pt) :
    ∀ q ∈ tables s.mem 2 pt, s'.mem q = s.mem q :=
  fun q hq => h.frame q fun u hu heq => hpages.notMem_tables u hu (heq ▸ hq)

theorem userPages (h : UserStored s s' pt va bytes) (hpages : UserPages s.mem pt) :
    UserPages s'.mem pt :=
  hpages.congr (h.tables hpages)

theorem nil (s : PhysMem) (pt va : ℕ) : UserStored s s pt va [] :=
  ⟨rfl, rfl, fun _ _ => rfl, fun u => (if_neg (by simp)).symm⟩

theorem of_nil (h : UserStored s s' pt va []) {va' : ℕ} : UserStored s s' pt va' [] :=
  ⟨h.free, h.refuse, h.frame, fun u => by
    rw [h.userByte, if_neg (by simp), if_neg (by simp)]⟩

/-- What is stored behind it comes on top. -/
theorem append (h : UserStored s s' pt va bytes) (hpages : UserPages s.mem pt)
    (h' : UserStored s' s'' pt (va + bytes.length) bytes') :
    UserStored s s'' pt va (bytes ++ bytes') := by
  refine ⟨h'.free.trans h.free, h'.refuse.trans h.refuse, fun q hq => ?_, fun u => ?_⟩
  · have htables := h.tables hpages
    rw [h'.frame q fun u hu => ?_, h.frame q hq]
    rw [userPage_congr htables]
    exact hq u ((userAccessible_congr htables).mp hu)
  · rw [h'.userByte, h.userByte, length_append]
    by_cases h₁ : va + bytes.length ≤ u ∧ u < va + bytes.length + bytes'.length
    · rw [if_pos h₁, if_pos (by omega), getElem?_append_right (by omega),
        Nat.sub_add_eq]
    · rw [if_neg h₁]
      by_cases h₂ : va ≤ u ∧ u < va + bytes.length
      · rw [if_pos h₂, if_pos (by omega), getElem?_append_left (by omega)]
      · rw [if_neg h₂, if_neg (by omega)]

/-- **A part of one page is stored.** -/
theorem of_page (hpages : UserPages s.mem pt) (hva : UserAccessible s.mem pt va)
    (hlen : va % PGSIZE + bytes.length ≤ PGSIZE)
    (hs' : s' = s.store (userPage s.mem pt va)
      ((s.mem (userPage s.mem pt va)).blit (va % PGSIZE) bytes)) :
    UserStored s s' pt va bytes := by
  have hself : s'.mem (userPage s.mem pt va)
      = (s.mem (userPage s.mem pt va)).blit (va % PGSIZE) bytes := by
    rw [hs']
    exact update_self _ _ _
  have hother : ∀ q, userPage s.mem pt va ≠ q → s'.mem q = s.mem q := by
    intro q hq
    rw [hs']
    exact update_of_ne (Ne.symm hq) _ _
  have htables : ∀ q ∈ Xv6.tables s.mem 2 pt, s'.mem q = s.mem q :=
    fun q hq => hother q fun heq => hpages.notMem_tables va hva (heq ▸ hq)
  -- the range is in the page of `va`
  have hrange : ∀ u, va ≤ u ∧ u < va + bytes.length → u / PGSIZE = va / PGSIZE := by
    unfold PGSIZE at *
    omega
  refine ⟨by rw [hs']; rfl, by rw [hs']; rfl, fun q hq => hother q (hq va hva), fun u => ?_⟩
  by_cases hu : UserAccessible s.mem pt u
  · rw [userByte_of_accessible ((userAccessible_congr htables).mpr hu), userByte_of_accessible hu,
      userPage_congr htables]
    by_cases hdiv : u / PGSIZE = va / PGSIZE
    · rw [(userPage_of_div_eq hva hdiv).2, hself]
      by_cases hin : va ≤ u ∧ u < va + bytes.length
      · have hsub : u % PGSIZE - va % PGSIZE = u - va := by
          unfold PGSIZE at *
          omega
        rw [if_pos hin, Bytes.byteAt_blit_of_mem _ (Nat.mod_lt _ (by decide)) (by
          unfold PGSIZE at *
          omega), hsub, getD_eq_getElem?_getD, getElem?_eq_getElem (by omega)]
        rfl
      · rw [if_neg hin, Bytes.byteAt_blit_of_notMem]
        unfold PGSIZE at *
        omega
    · rw [if_neg (mt (hrange u) hdiv),
        hother _ fun heq => hdiv (hpages.inj u va hu hva heq.symm)]
  · rw [userByte_of_not_accessible (mt (userAccessible_congr htables).mp hu),
      userByte_of_not_accessible hu,
      if_neg fun hin => hu (userPage_of_div_eq hva (hrange u hin)).1]

end UserStored

/-- **User memory was changed** at most between `lo` and `hi`. -/
structure StoredIn (s s' : PhysMem) (pagetable lo hi : ℕ) : Prop where
  free : s'.free = s.free
  frame : ∀ q, (∀ u, UserAccessible s.mem pagetable u → userPage s.mem pagetable u ≠ q) →
    s'.mem q = s.mem q
  userByte : ∀ u, ¬ (lo ≤ u ∧ u < hi) → userByte s'.mem pagetable u = userByte s.mem pagetable u

namespace StoredIn

variable {s s' s'' : PhysMem} {pt lo hi lo' hi' va : ℕ} {bytes : List UInt8}

theorem refl (s : PhysMem) (pt lo hi : ℕ) : StoredIn s s pt lo hi :=
  ⟨rfl, fun _ _ => rfl, fun _ _ => rfl⟩

theorem of_stored (h : UserStored s s' pt va bytes) (hlo : lo ≤ va)
    (hhi : va + bytes.length ≤ hi) : StoredIn s s' pt lo hi :=
  ⟨h.free, h.frame, fun u hu => (h.userByte u).trans (if_neg (by omega))⟩

theorem mono (h : StoredIn s s' pt lo hi) (hlo : lo' ≤ lo) (hhi : hi ≤ hi') :
    StoredIn s s' pt lo' hi' :=
  ⟨h.free, h.frame, fun u hu => h.userByte u (by omega)⟩

theorem tables (h : StoredIn s s' pt lo hi) (hpages : UserPages s.mem pt) :
    ∀ q ∈ tables s.mem 2 pt, s'.mem q = s.mem q :=
  fun q hq => h.frame q fun u hu heq => hpages.notMem_tables u hu (heq ▸ hq)

theorem trans (h : StoredIn s s' pt lo hi) (hpages : UserPages s.mem pt)
    (h' : StoredIn s' s'' pt lo hi) : StoredIn s s'' pt lo hi := by
  have htables := h.tables hpages
  refine ⟨h'.free.trans h.free, fun q hq => ?_,
    fun u hu => (h'.userByte u hu).trans (h.userByte u hu)⟩
  rw [h'.frame q fun u hu => ?_, h.frame q hq]
  rw [userPage_congr htables]
  exact hq u ((userAccessible_congr htables).mp hu)

end StoredIn

/-! ## What a copy transfers -/

/-- **A copy of a range** that transfers its first `n` bytes: all of it, or the pages before the
first one that user code may not use. -/
structure Transfers (mem : ℕ → Page) (pagetable va len n : ℕ) (r : ℤ) : Prop where
  le : n ≤ len
  range : UserRange mem pagetable va n
  result : r = 0 ∧ n = len
    ∨ r = -1 ∧ ¬ UserAccessible mem pagetable (va + n) ∧ n < len ∧ (n = 0 ∨ PGSIZE ∣ va + n)

theorem Transfers.eq_zero_iff {mem : ℕ → Page} {pt va len n : ℕ} {r : ℤ}
    (h : Transfers mem pt va len n r) : r = 0 ↔ UserRange mem pt va len := by
  obtain ⟨-, hrange, ⟨rfl, rfl⟩ | ⟨rfl, hnot, hlt, -⟩⟩ := h
  · exact iff_of_true rfl hrange
  · exact iff_of_false (by decide) fun hall => hnot (hall n hlt)

section Transfers

variable {mem : ℕ → Page} {pt va len n m : ℕ} {r : ℤ}

theorem Transfers.nil (mem : ℕ → Page) (pt va : ℕ) : Transfers mem pt va 0 0 0 :=
  ⟨le_rfl, fun _ h => absurd h (Nat.not_lt_zero _), .inl ⟨rfl, rfl⟩⟩

theorem Transfers.congr {mem' : ℕ → Page} (h : Transfers mem' pt va len n r)
    (hiff : ∀ u, UserAccessible mem' pt u ↔ UserAccessible mem pt u) :
    Transfers mem pt va len n r := by
  obtain ⟨hle, hrange, hres⟩ := h
  rw [hiff] at hres
  exact ⟨hle, fun i hi => (hiff _).mp (hrange i hi), hres⟩

theorem Transfers.none (hva : ¬ UserAccessible mem pt va) (hlen : len ≠ 0) :
    Transfers mem pt va len 0 (-1) :=
  ⟨Nat.zero_le _, fun _ h => absurd h (Nat.not_lt_zero _),
    .inr ⟨rfl, hva, Nat.pos_of_ne_zero hlen, .inl rfl⟩⟩

theorem Transfers.unique {n' : ℕ} {r' : ℤ} (h : Transfers mem pt va len n r)
    (h' : Transfers mem pt va len n' r') : n = n' ∧ r = r' := by
  obtain ⟨-, hrange, ⟨rfl, rfl⟩ | ⟨rfl, hnot, hlt, -⟩⟩ := h <;>
    obtain ⟨-, hrange', ⟨rfl, rfl⟩ | ⟨rfl, hnot', hlt', -⟩⟩ := h'
  · exact ⟨rfl, rfl⟩
  · exact absurd (hrange _ hlt') hnot'
  · exact absurd (hrange' _ hlt) hnot
  · refine ⟨le_antisymm ?_ ?_, rfl⟩
    · exact Nat.le_of_not_lt fun h => hnot' (hrange _ h)
    · exact Nat.le_of_not_lt fun h => hnot (hrange' _ h)

/-- A page, and then what is behind it. -/
theorem Transfers.cons (hva : UserAccessible mem pt va)
    (hm : m = min (PGSIZE - va % PGSIZE) len)
    (h : Transfers mem pt (PGROUNDDOWN va + PGSIZE) (len - m) n r) :
    Transfers mem pt va len (m + n) r := by
  have hpage : ∀ i < m, UserAccessible mem pt (va + i) := fun i hi =>
    (userPage_of_div_eq hva (by unfold PGSIZE at *; omega)).1
  obtain ⟨hle, hrange, hres⟩ := h
  rcases Nat.lt_or_ge m len with hlt | hge
  · have hnext : PGROUNDDOWN va + PGSIZE = va + m := by
      unfold PGROUNDDOWN PGSIZE at *
      omega
    have hdvd : PGSIZE ∣ va + m := by
      rw [← hnext]
      exact Nat.dvd_add (PGSIZE_dvd_PGROUNDDOWN va) (Nat.dvd_refl _)
    rw [hnext] at hrange hres
    refine ⟨by omega, fun i hi => ?_, ?_⟩
    · rcases Nat.lt_or_ge i m with him | him
      · exact hpage i him
      · have h := hrange (i - m) (by omega)
        rwa [show va + m + (i - m) = va + i by omega] at h
    · rw [← Nat.add_assoc]
      obtain ⟨rfl, hn⟩ | ⟨rfl, hnot, hn, hend⟩ := hres
      · exact .inl ⟨rfl, by omega⟩
      · refine .inr ⟨rfl, hnot, by omega, .inr ?_⟩
        rcases hend with rfl | hend
        · exact hdvd
        · exact hend
  · -- the range ends in this page
    have hn : n = 0 := by omega
    subst hn
    obtain ⟨rfl, -⟩ | ⟨-, -, hlt, -⟩ := hres
    · exact ⟨by omega, hpage, .inl ⟨rfl, by omega⟩⟩
    · omega

end Transfers

section Copy

variable {s : PhysMem} {pt va : ℕ}

theorem sub_PGROUNDDOWN (va : ℕ) : va - PGROUNDDOWN va = va % PGSIZE := by
  unfold PGROUNDDOWN PGSIZE
  omega

theorem u64_next (hva : UserAccessible s.mem pt va) :
    u64 (PGROUNDDOWN va + PGSIZE) = PGROUNDDOWN va + PGSIZE := by
  have hlt := (userAccessible_page.mpr hva).1
  refine u64_of_lt ?_
  unfold MAXVA PGSIZE at *
  omega

/-- One round of `copyout`. -/
theorem copyout_page {src : List UInt8} (hpages : UserPages s.mem pt) (hsrc : src ≠ [])
    (hva : UserAccessible s.mem pt va) :
    ∃ s₁, UserStored s s₁ pt va (src.take (min (PGSIZE - va % PGSIZE) src.length))
      ∧ copyout pt va src s = copyout pt (PGROUNDDOWN va + PGSIZE)
        (src.drop (min (PGSIZE - va % PGSIZE) src.length)) s₁ := by
  obtain ⟨b, rest, rfl⟩ := exists_cons_of_ne_nil hsrc
  have hmod := Nat.mod_lt va (show 0 < PGSIZE by decide)
  refine ⟨_, .of_page hpages hva ?_ rfl, ?_⟩
  · rw [length_take]
    omega
  · rw [copyout, bind_of_ok (walkaddr_eq s pt _), userPage_page,
      if_neg (hpages.ne_zero va hva), u64_next hva, sub_PGROUNDDOWN]
    rfl

/-- **`copyout`** stores a first part of its bytes. -/
theorem copyout_spec (hpages : UserPages s.mem pt) (va : ℕ) (src : List UInt8) :
    ∃ r s' n, copyout pt va src s = .ok (r, s')
      ∧ Transfers s.mem pt va src.length n r ∧ UserStored s s' pt va (src.take n) := by
  induction hlen : src.length using Nat.strong_induction_on generalizing s va src with
  | _ len ih =>
    by_cases hsrc : src = []
    · subst hsrc
      obtain rfl : 0 = len := hlen
      exact ⟨0, s, 0, by rw [copyout_nil]; rfl, .nil s.mem pt va, .nil s pt va⟩
    · have hne : len ≠ 0 := fun h => hsrc (length_eq_zero_iff.mp (hlen.trans h))
      by_cases hva : UserAccessible s.mem pt va
      · obtain ⟨s₁, hstored, hrun⟩ := copyout_page hpages hsrc hva
        have hmod := Nat.mod_lt va (show 0 < PGSIZE by decide)
        rw [hlen] at hstored hrun
        generalize hm : min (PGSIZE - va % PGSIZE) len = m at hstored hrun
        have htake : (src.take m).length = m := by
          rw [length_take]
          omega
        obtain ⟨r, s', n, hcopy, htrans, hrest⟩ := ih (len - m) (by omega)
          (hstored.userPages hpages) (PGROUNDDOWN va + PGSIZE) (src.drop m)
          (by rw [length_drop, hlen])
        refine ⟨r, s', m + n, hrun.trans hcopy, .cons hva hm.symm (htrans.congr fun u =>
          userAccessible_congr (hstored.tables hpages)), ?_⟩
        rw [take_add]
        refine hstored.append hpages ?_
        rw [htake]
        rcases Nat.lt_or_ge m len with hlt | hge
        · rwa [show va + m = PGROUNDDOWN va + PGSIZE by unfold PGROUNDDOWN PGSIZE at *; omega]
        · -- nothing is left
          have hn : n = 0 := by
            have hle := htrans.le
            omega
          subst hn
          exact hrest.of_nil
      · obtain ⟨b, rest, rfl⟩ := exists_cons_of_ne_nil hsrc
        refine ⟨-1, s, 0, ?_, .none hva hne, .nil s pt va⟩
        rw [copyout, bind_of_ok (walkaddr_eq s pt _), userPage_page]
        unfold userPage
        rw [if_neg hva]
        rfl

theorem copyin_page {len : ℕ} (hlen : len ≠ 0) (hva : UserAccessible s.mem pt va)
    (hne : userPage s.mem pt va ≠ 0) {bytes : List UInt8} {r : ℤ}
    (hrest : copyin pt (PGROUNDDOWN va + PGSIZE)
      (len - min (PGSIZE - va % PGSIZE) len) s = .ok ((bytes, r), s)) :
    copyin pt va len s = .ok (((range (min (PGSIZE - va % PGSIZE) len)).map (fun i =>
      (s.mem (userPage s.mem pt va)).byteAt (va % PGSIZE + i)) ++ bytes, r), s) := by
  rw [copyin_of_accessible hlen (by rwa [userPage_page]), u64_next hva, sub_PGROUNDDOWN,
    bind_of_ok hrest, userPage_page]
  rfl

/-- **`copyin`** reads a first part of its range, and changes nothing. -/
theorem copyin_spec (hpages : ∀ va, UserAccessible s.mem pt va →
      userPage s.mem pt va ≠ 0) (va len : ℕ) :
    ∃ bytes r, copyin pt va len s = .ok ((bytes, r), s)
      ∧ Transfers s.mem pt va len bytes.length r
      ∧ ∀ i < bytes.length, userByte s.mem pt (va + i) = bytes[i]? := by
  induction len using Nat.strong_induction_on generalizing va with
  | _ len ih =>
    by_cases hlen : len = 0
    · subst hlen
      refine ⟨[], 0, ?_, .nil s.mem pt va, fun i hi => absurd hi (Nat.not_lt_zero i)⟩
      rw [copyin, if_pos rfl]
      rfl
    · by_cases hva : UserAccessible s.mem pt va
      · have hmod := Nat.mod_lt va (show 0 < PGSIZE by decide)
        obtain ⟨bytes, r, hcopy, htrans, hbytes⟩ :=
          ih (len - min (PGSIZE - va % PGSIZE) len) (by omega) (PGROUNDDOWN va + PGSIZE)
        have hrun := copyin_page hlen hva (hpages va hva) hcopy
        generalize hm : min (PGSIZE - va % PGSIZE) len = m at *
        have hcons := Transfers.cons hva hm.symm htrans
        refine ⟨_, r, hrun, ?_, fun i hi => ?_⟩
        · rwa [length_append, length_map, length_range]
        · rw [length_append, length_map, length_range] at hi
          have hle := htrans.le
          rcases Nat.lt_or_ge i m with him | him
          · have hdiv : (va + i) / PGSIZE = va / PGSIZE := by
              unfold PGSIZE at *
              omega
            obtain ⟨hacc, hsame⟩ := userPage_of_div_eq hva hdiv
            rw [userByte_of_accessible hacc, hsame, getElem?_append_left (by simpa using him),
              getElem?_map, getElem?_range him,
              show (va + i) % PGSIZE = va % PGSIZE + i by unfold PGSIZE at *; omega]
            rfl
          · rw [getElem?_append_right (by simpa using him), length_map,
              length_range, ← hbytes _ (by omega)]
            congr 1
            unfold PGROUNDDOWN PGSIZE at *
            omega
      · refine ⟨[], -1, ?_, .none hva hlen, fun i hi => absurd hi (Nat.not_lt_zero i)⟩
        exact copyin_of_not_accessible hlen (mt userAccessible_page.mp hva)

theorem eq_of_userByte {mem : ℕ → Page} {bytes bytes' : List UInt8}
    (hlen : bytes.length = bytes'.length)
    (h : ∀ i < bytes.length, userByte mem pt (va + i) = bytes[i]?)
    (h' : ∀ i < bytes'.length, userByte mem pt (va + i) = bytes'[i]?) : bytes = bytes' := by
  refine ext_getElem? fun i => ?_
  rcases Nat.lt_or_ge i bytes.length with hi | hi
  · rw [← h i hi, h' i (hlen ▸ hi)]
  · rw [getElem?_eq_none hi, getElem?_eq_none (hlen ▸ hi)]

/-- **What was copied out can be copied in.** -/
theorem copyin_of_stored {s' : PhysMem} {src : List UInt8} (hpages : UserPages s.mem pt)
    (hrange : UserRange s.mem pt va src.length) (h : UserStored s s' pt va src) :
    copyin pt va src.length s' = .ok ((src, 0), s') := by
  obtain ⟨bytes, r, hcopy, htrans, hbytes⟩ :=
    copyin_spec (h.userPages hpages).ne_zero va src.length
  have hall : Transfers s'.mem pt va src.length src.length 0 :=
    ⟨le_rfl, fun i hi => (userAccessible_congr (h.tables hpages)).mpr (hrange i hi),
      .inl ⟨rfl, rfl⟩⟩
  obtain ⟨hlen, rfl⟩ := htrans.unique hall
  obtain rfl : bytes = src := by
    refine eq_of_userByte hlen hbytes fun i hi => ?_
    rw [h.userByte, if_pos (by omega), Nat.add_sub_cancel_left]
  exact hcopy

/-- **`copyin` reads nothing but user memory**: it returns the same in every memory with the same
page table and the same user memory. -/
theorem copyin_congr {s₂ : PhysMem} {len : ℕ} (hpages : UserPages s.mem pt)
    (htables : ∀ q ∈ tables s.mem 2 pt, s₂.mem q = s.mem q)
    (hbytes : ∀ u, userByte s₂.mem pt u = userByte s.mem pt u)
    {bytes : List UInt8} {r : ℤ} (h : copyin pt va len s = .ok ((bytes, r), s)) :
    copyin pt va len s₂ = .ok ((bytes, r), s₂) := by
  obtain ⟨bytes₁, r₁, hcopy₁, htrans₁, hbytes₁⟩ := copyin_spec hpages.ne_zero va len
  obtain ⟨⟨rfl, rfl⟩, -⟩ := Prod.mk.inj (Except.ok.inj (h.symm.trans hcopy₁))
  have hne : ∀ u, UserAccessible s₂.mem pt u → userPage s₂.mem pt u ≠ 0 := by
    intro u hu
    rw [userPage_congr htables]
    exact hpages.ne_zero u ((userAccessible_congr htables).mp hu)
  obtain ⟨bytes₂, r₂, hcopy₂, htrans₂, hbytes₂⟩ := copyin_spec hne va len
  obtain ⟨hlen, rfl⟩ := (htrans₂.congr fun _ => userAccessible_congr htables).unique htrans₁
  obtain rfl : bytes₂ = bytes := eq_of_userByte hlen
    (fun i hi => (hbytes _).symm.trans (hbytes₂ i hi)) hbytes₁
  exact hcopy₂

end Copy

/-- **`copyout` and `copyin` are exact accesses to user memory** of a page table whose user pages
are pages of their own. They succeed exactly when user code may use the whole range, and transfer
all of it then; if not, they transfer its pages before the first one that user code may not use.
`copyout` changes nothing else, and `copyin` depends on nothing else; what was copied out can be
copied in. -/
theorem user_copies_exact {s : PhysMem} {pagetable : ℕ} (hpages : UserPages s.mem pagetable)
    (va : ℕ) :
    (∀ src, ∃ r s' n, copyout pagetable va src s = .ok (r, s')
      ∧ (r = 0 ↔ UserRange s.mem pagetable va src.length)
      ∧ Transfers s.mem pagetable va src.length n r ∧ UserStored s s' pagetable va (src.take n)
      ∧ (r = 0 → copyin pagetable va src.length s' = .ok ((src, 0), s')))
    ∧ ∀ len, ∃ bytes r, copyin pagetable va len s = .ok ((bytes, r), s)
      ∧ (r = 0 ↔ UserRange s.mem pagetable va len)
      ∧ Transfers s.mem pagetable va len bytes.length r
      ∧ (∀ i < bytes.length, userByte s.mem pagetable (va + i) = bytes[i]?)
      ∧ ∀ s₂ : PhysMem, (∀ q ∈ tables s.mem 2 pagetable, s₂.mem q = s.mem q) →
        (∀ u, userByte s₂.mem pagetable u = userByte s.mem pagetable u) →
        copyin pagetable va len s₂ = .ok ((bytes, r), s₂) := by
  refine ⟨fun src => ?_, fun len => ?_⟩
  · obtain ⟨r, s', n, hcopy, htrans, hstored⟩ := copyout_spec hpages va src
    refine ⟨r, s', n, hcopy, htrans.eq_zero_iff, htrans, hstored, fun hr => ?_⟩
    obtain ⟨-, rfl⟩ | ⟨hr', -⟩ := htrans.result
    · rw [take_length] at hstored
      exact copyin_of_stored hpages (htrans.eq_zero_iff.mp hr) hstored
    · exact absurd (hr.symm.trans hr') (by decide)
  · obtain ⟨bytes, r, hcopy, htrans, hbytes⟩ := copyin_spec hpages.ne_zero va len
    exact ⟨bytes, r, hcopy, htrans.eq_zero_iff, htrans, hbytes, fun s₂ htables hsame =>
      copyin_congr hpages htables hsame hcopy⟩

/-! ## One user page -/

section OnePage

variable {mem : ℕ → Page} {pt pte : ℕ}

theorem userAccessible_one (h : vmap mem pt = update (fun _ => 0) 0 pte)
    (hvalid : PteValid pte) (huser : pte &&& PTE_U ≠ 0) {va : ℕ} :
    UserAccessible mem pt va ↔ va < PGSIZE := by
  rw [userAccessible_iff, h]
  constructor
  · rintro ⟨-, hv, -⟩
    by_contra hva
    rw [update_of_ne (by unfold PGSIZE at *; omega)] at hv
    exact not_pteValid_zero hv
  · intro hva
    rw [Nat.div_eq_of_lt hva, update_self]
    exact ⟨hva.trans (by decide), hvalid, huser⟩

theorem userInjective_one (h : vmap mem pt = update (fun _ => 0) 0 pte)
    (hvalid : PteValid pte) (huser : pte &&& PTE_U ≠ 0) : UserInjective mem pt := by
  intro va va' hva hva' _
  rw [userAccessible_one h hvalid huser] at hva hva'
  rw [Nat.div_eq_of_lt hva, Nat.div_eq_of_lt hva']

theorem user_entry (pa : ℕ) :
    (PA2PTE pa ||| (PTE_R ||| PTE_W ||| PTE_U) ||| PTE_V) &&& PTE_U ≠ 0 := by
  rw [Nat.or_assoc, PA2PTE_or_and (by decide)]
  decide

/-- Its page is a user page of its own, if it is a page of memory and no table. -/
theorem userPages_one [KernelImage] {s : PhysMem} {pa : ℕ} {F : Multiset ℕ}
    (hold : Holds physPages s (tables s.mem 2 pt + ({pa} + F)))
    (h : vmap s.mem pt
      = update (fun _ => 0) 0 (PA2PTE pa ||| (PTE_R ||| PTE_W ||| PTE_U) ||| PTE_V)) :
    UserPages s.mem pt ∧ UserRange s.mem pt 0 PGSIZE := by
  have hvalid := pteValid_entry pa (PTE_R ||| PTE_W ||| PTE_U)
  have huser := user_entry pa
  have hacc : ∀ va, UserAccessible s.mem pt va ↔ va < PGSIZE :=
    fun va => userAccessible_one h hvalid huser
  have hmem : pa ∈ ({pa} + F : Multiset ℕ) :=
    Multiset.mem_add.mpr (.inl (Multiset.mem_singleton_self pa))
  have hpa := hold.right.mem hmem
  have hpage : ∀ va, UserAccessible s.mem pt va → userPage s.mem pt va = pa := by
    intro va hva
    rw [userPage_of_accessible hva, Nat.div_eq_of_lt ((hacc va).mp hva), h, update_self]
    exact Filled.PTE2PA_page hpa (by decide)
  refine ⟨⟨userInjective_one h hvalid huser, fun va hva => ?_, fun va hva => ?_⟩,
    fun i hi => (hacc _).mpr (by omega)⟩
  · rw [hpage va hva]
    exact physPages_ne_zero hpa
  · rw [hpage va hva]
    exact fun htable => Multiset.disjoint_left.mp hold.disjoint htable hmem

/-- The page that was made is a user page. -/
theorem makePage_user [KernelImage] {s s' : PhysMem} {pa : ℕ} {F : Multiset ℕ}
    (hold : Holds physPages s F) (hpa : pa < 2 ^ 64)
    (hrun : makePage pa (PTE_R ||| PTE_W ||| PTE_U) s = .ok ((some pt, 0), s')) :
    UserInjective s'.mem pt ∧ UserRange s'.mem pt 0 1
    ∧ userPage s'.mem pt 0 = PGROUNDDOWN pa := by
  have hmap := (makePage_spec hold hpa (by decide) (by decide) hrun).1
  have hacc : ∀ va, UserAccessible s'.mem pt va ↔ va < PGSIZE :=
    fun va => userAccessible_one hmap (pteValid_entry _ _) (user_entry pa)
  refine ⟨userInjective_one hmap (pteValid_entry _ _) (user_entry pa),
    fun i hi => (hacc _).mpr (lt_of_lt_of_le (by omega) (show 1 ≤ PGSIZE by decide)), ?_⟩
  rw [userPage_of_accessible ((hacc 0).mpr (by decide)), hmap, Nat.zero_div,
    update_self, PTE2PA_entry hpa (by decide)]

end OnePage

/-- **A user page may not be just any page.** A page at physical address 0 is taken for one that
is not mapped, and a user page in which the page table itself is kept is not accessible any more
after a store to it. -/
theorem copyout_not_exact :
    (∃ (s : PhysMem) (pagetable : ℕ), UserInjective s.mem pagetable
      ∧ UserRange s.mem pagetable 0 1 ∧ copyout pagetable 0 [1] s = .ok (-1, s))
    ∧ ∃ (s s' : PhysMem) (pagetable : ℕ), UserInjective s.mem pagetable
      ∧ UserRange s.mem pagetable 0 1 ∧ copyout pagetable 0 [0] s = .ok (0, s')
      ∧ userByte s'.mem pagetable 0 = none := by
  let _ := sampleImage
  constructor
  · obtain ⟨s, hrun⟩ := exists_of_result (m := makePage 0 (PTE_R ||| PTE_W ||| PTE_U))
      (s := sampleMemory) (a := (some 0x80100000, 0)) (by decide +kernel)
    obtain ⟨hinj, hrange, hpage⟩ := makePage_user sampleMemory_holds (by decide) hrun
    refine ⟨s, _, hinj, hrange, ?_⟩
    rw [copyout, bind_of_ok (walkaddr_eq s _ _), userPage_page, hpage]
    rfl
  · -- the page is the lowest table, and the byte that is stored makes its own entry invalid
    have hrun : Ends (makePage 0x80102000 (PTE_R ||| PTE_W ||| PTE_U)) sampleMemory
        (fun _ => False) fun res s => res = (some 0x80100000, 0)
          ∧ Ends (copyout 0x80100000 0 [0]) s (fun _ => False) fun r s' => r = 0
            ∧ userByte s'.mem 0x80100000 0 = none := by
      decide +kernel
    obtain ⟨_, s, hmake, rfl, hcopy⟩ := hrun.exists_ok
    obtain ⟨_, s', hcopy, rfl, hnone⟩ := hcopy.exists_ok
    obtain ⟨hinj, hrange, -⟩ := makePage_user sampleMemory_holds (by decide) hmake
    exact ⟨s, s', _, hinj, hrange, hcopy, hnone⟩

/-- A page of user memory. -/
theorem user_copies_exact_one : ∃ (s : PhysMem) (pagetable : ℕ),
    UserRange s.mem pagetable 0 PGSIZE ∧ ∃ s', copyout pagetable 0 [1, 2] s = .ok (0, s')
      ∧ copyin pagetable 0 2 s' = .ok (([1, 2], 0), s') := by
  let _ := sampleImage
  obtain ⟨s, hrun⟩ := exists_of_result (m := makePage 0x80200000 (PTE_R ||| PTE_W ||| PTE_U))
    (s := sampleMemory) (a := (some 0x80100000, 0)) (by decide +kernel)
  obtain ⟨hmap, hold⟩ := makePage_spec sampleMemory_holds (by decide) (by decide) (by decide) hrun
  obtain ⟨hpages, hrange⟩ := userPages_one hold hmap
  obtain ⟨r, s', n, hcopy, hiff, -, -, hback⟩ := (user_copies_exact hpages 0).1 [1, 2]
  have hr : r = 0 := hiff.mpr fun i hi => hrange i (hi.trans (by decide))
  subst hr
  exact ⟨s, 0x80100000, hrange, s', hcopy, hback rfl⟩

end Xv6
