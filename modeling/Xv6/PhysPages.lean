import Xv6.Uvm

/-!
# Physical pages from boot on

`kinit` gives all pages to the allocator; after that they are handed out and taken back.
-/

open Prog hiding get modify panic result

namespace Xv6

open Pool Multiset

/-- A call of the allocator: for a page, or to take back the `i`-th of those handed out. -/
inductive PageCall
  | kalloc
  | kfree (i : ℕ)

variable [KernelImage] {s : PhysMem}

/-- A call, while the pages `held` are handed out. -/
def PageCall.run (held : List ℕ) : PageCall → MemProg (List ℕ)
  | .kalloc => do
    let r ← Xv6.kalloc
    pure (r.toList ++ held)
  | .kfree i =>
    match held[i]? with
    | none => pure held
    | some pa => do
      Xv6.kfree pa
      pure (held.eraseIdx i)

theorem freerangeLoop_ends (n p : ℕ) (h : ∀ i < n, p + i * PGSIZE ∈ physPages) :
    Ends (freerangeLoop n p) s (fun _ => False) fun _ s' =>
      (s'.free : Multiset ℕ) = ((List.range n).map (p + · * PGSIZE) : List ℕ) + s.free := by
  induction n generalizing p s with
  | zero => exact ends_pure (zero_add _).symm
  | succ n ih =>
    have hfirst := h 0 n.succ_pos
    have hnext (i : ℕ) : p + PGSIZE + i * PGSIZE = p + (i + 1) * PGSIZE := by ring
    rw [Nat.zero_mul, Nat.add_zero] at hfirst
    refine ends_bind ((kfree_ends hfirst).mono fun _ s₁ hex => ?_)
    refine (ih _ fun i hi => hnext i ▸ h _ (Nat.succ_lt_succ hi)).mono fun _ s' hfree => ?_
    have hadd := hex.conserve
    rw [add_zero, add_comm, singleton_add] at hadd
    rw [hfree, hadd, List.range_succ_eq_map]
    simp only [List.map_cons, List.map_map, Function.comp_def, Nat.zero_mul, Nat.add_zero, hnext,
      ← cons_coe, add_cons, cons_add, Nat.succ_eq_add_one]

/-- **One call keeps the pages together**, those on the free list and those handed out. -/
theorem PageCall.run_ends {held : List ℕ} (c : PageCall)
    (h : (s.free : Multiset ℕ) + held = physPages.val) :
    Ends (c.run held) s (fun _ => False) fun held' s' =>
      (s'.free : Multiset ℕ) + held' = physPages.val := by
  cases c with
  | kalloc =>
    refine ends_bind ((kalloc_ends s).mono fun r s' hr => ends_pure ?_)
    cases r with
    | none => exact (hr.2 _).conserve.trans h
    | some pa =>
      have hconserve := (hr.2.1.add (held : Multiset ℕ)).conserve
      rwa [zero_add, h] at hconserve
  | kfree i =>
    rw [PageCall.run]
    cases hpa : held[i]? with
    | none => exact ends_pure h
    | some pa =>
      obtain ⟨hi, rfl⟩ := List.getElem?_eq_some_iff.mp hpa
      have hsplit : (held : Multiset ℕ) = {held[i]} + (held.eraseIdx i : List ℕ) :=
        coe_eq_coe.mpr (List.getElem_cons_eraseIdx_perm hi).symm
      have hmem : held[i] ∈ physPages := by
        rw [← Finset.mem_val, ← h]
        exact mem_add.mpr (.inr (List.getElem_mem hi))
      refine ends_bind ((kfree_ends hmem).mono fun _ s' hex => ends_pure ?_)
      have hconserve := (hex.add (held.eraseIdx i : Multiset ℕ)).conserve
      rwa [zero_add, ← hsplit, h] at hconserve

/-- **Every page is in one place.** From boot on, whatever is asked for and taken back and whichever
requests fail, each page above the kernel is once on the free list or handed out once, and nothing
panics. -/
theorem pages_in_one_place (s : PhysMem) (calls : List PageCall) :
    Ends (do kinit; calls.foldlM PageCall.run []) { s with free := [] } (fun _ => False)
      fun held s' => (s'.free : Multiset ℕ) + held = physPages.val := by
  have hrun (held : List ℕ) (s : PhysMem) (h : (s.free : Multiset ℕ) + held = physPages.val) :
      Ends (calls.foldlM PageCall.run held) s (fun _ => False) fun held s' =>
        (s'.free : Multiset ℕ) + held = physPages.val := by
    induction calls generalizing held s with
    | nil => exact ends_pure h
    | cons c calls ih =>
      rw [List.foldlM_cons]
      exact ends_bind ((c.run_ends h).mono ih)
  have hinj : Function.Injective fun i => PGROUNDUP KernelImage.end_ + i * PGSIZE :=
    fun i j h => Nat.eq_of_mul_eq_mul_right (by decide) (Nat.add_left_cancel h)
  refine ends_bind ((freerangeLoop_ends _ _ fun i hi =>
    Finset.mem_image_of_mem _ (Finset.mem_range.mpr hi)).mono fun _ s₁ hfree => hrun [] s₁ ?_)
  rw [hfree, physPages, Finset.image_val_of_injOn hinj.injOn]
  exact (add_zero _).trans (add_zero _)

end Xv6
