import Mathlib

/-!
# A pool of cells with exclusive owners

A memory whose cells are handed out and given back: `Pool A V` has the
contents of every cell, the list of the free ones, and an oracle that says
which of the next requests are refused although a cell is free.

Whoever uses the pool owns a multiset of cells. Two notions carry the whole
theory.

* `Holds U s R`: the free cells and the owned cells `R` together are cells of
  `U`, each at most once. So no owned cell is free, and none is owned twice.
* `Exchange s s' R R'`: going from `s` to `s'`, an owner of `R` became an owner
  of `R'`. Nothing was lost – free and owned cells together are the same – and
  no cell that was neither free nor in `R` changed its contents.

A program is specified by the exchange it makes, and its callers never look at
the free list.
-/

/-- Cells with contents, some of them free. -/
structure Pool (A V : Type*) where
  /-- The contents of every cell. -/
  mem : A → V
  /-- The free cells, in the order in which they are handed out. -/
  free : List A
  /-- Which of the next requests are refused. -/
  refuse : ℕ → Bool

namespace Pool

open Multiset

variable {A V : Type*} {s s' s'' : Pool A V} {R R' R'' F : Multiset A}

/-- Of owners that share no cell, two different ones are disjoint. -/
theorem disjoint_of_nodup_sum {ι : Type*} {I : Finset ι} {f : ι → Multiset A}
    (h : (∑ i ∈ I, f i).Nodup) {i j : ι} (hi : i ∈ I) (hj : j ∈ I) (hij : i ≠ j) :
    Disjoint (f i) (f j) := by
  classical
  rw [← Finset.add_sum_erase I f hi] at h
  have hle : f j ≤ ∑ k ∈ I.erase i, f k :=
    Finset.single_le_sum (f := f) (fun _ _ => zero_le) (Finset.mem_erase.mpr ⟨hij.symm, hj⟩)
  exact (nodup_add.mp h).2.2.mono_right hle

/-! ## Owning cells -/

/-- The owned cells and the free ones are cells of `U`, each at most once. -/
def Holds (U : Finset A) (s : Pool A V) (R : Multiset A) : Prop :=
  (s.free : Multiset A) + R ≤ U.val

namespace Holds

variable {U : Finset A}

theorem nodup (h : Holds U s R) : ((s.free : Multiset A) + R).Nodup :=
  nodup_of_le h U.nodup

theorem of_list {l : List A} (hnodup : (s.free ++ l).Nodup) (hmem : ∀ a ∈ s.free ++ l, a ∈ U) :
    Holds U s l := by
  unfold Holds
  rw [coe_add, le_iff_subset (coe_nodup.mpr hnodup)]
  exact fun a ha => hmem a (mem_coe.mp ha)

theorem mono (h : Holds U s R) (hle : R' ≤ R) : Holds U s R' :=
  le_trans (add_le_add_right hle _) h

theorem mem (h : Holds U s R) {a : A} (ha : a ∈ R) : a ∈ U :=
  mem_of_le h (mem_add.mpr (.inr ha))

theorem mem_of_free (h : Holds U s R) {a : A} (ha : a ∈ s.free) : a ∈ U :=
  mem_of_le h (mem_add.mpr (.inl ha))

theorem notMem_free (h : Holds U s R) {a : A} (ha : a ∈ R) : a ∉ s.free := fun hfree =>
  disjoint_left.mp (nodup_add.mp h.nodup).2.2 (mem_coe.mpr hfree) ha

theorem disjoint (h : Holds U s (R + F)) : Disjoint R F :=
  (nodup_add.mp (nodup_add.mp h.nodup).2.1).2.2

theorem left (h : Holds U s (R + F)) : Holds U s R := h.mono (le_add_right R F)

theorem right (h : Holds U s (R + F)) : Holds U s F := h.mono (le_add_left F R)

end Holds

/-! ## Exchanging cells -/

/-- From `s` to `s'` the owner of the cells `R` became the owner of `R'`, and
touched nothing but its own cells and free ones. -/
structure Exchange (s s' : Pool A V) (R R' : Multiset A) : Prop where
  conserve : (s'.free : Multiset A) + R' = s.free + R
  frame : ∀ a, a ∉ (s.free : Multiset A) + R → s'.mem a = s.mem a

namespace Exchange

theorem refl (s : Pool A V) (R : Multiset A) : Exchange s s R R := ⟨rfl, fun _ _ => rfl⟩

/-- **Exchanges compose.** -/
theorem trans (h : Exchange s s' R R') (h' : Exchange s' s'' R' R'') : Exchange s s'' R R'' where
  conserve := h'.conserve.trans h.conserve
  frame a ha := by
    rw [h'.frame a (by rwa [h.conserve]), h.frame a ha]

theorem add (h : Exchange s s' R R') (F : Multiset A) : Exchange s s' (R + F) (R' + F) where
  conserve := by rw [← add_assoc, h.conserve, add_assoc]
  frame a ha := h.frame a fun hmem =>
    ha (by rw [← add_assoc]; exact mem_add.mpr (.inl hmem))

theorem add_left (h : Exchange s s' R R') (F : Multiset A) :
    Exchange s s' (F + R) (F + R') := by
  rw [add_comm F R, add_comm F R']
  exact h.add F

theorem keep {U : Finset A} (h : Exchange s s' R R') (hold : Holds U s (R + F)) {a : A}
    (ha : a ∈ F) : s'.mem a = s.mem a := by
  refine h.frame a fun hmem => ?_
  have hnodup := hold.nodup
  rw [← add_assoc] at hnodup
  exact disjoint_left.mp (nodup_add.mp hnodup).2.2 hmem ha

theorem holds {U : Finset A} (h : Exchange s s' R R') (hold : Holds U s R) : Holds U s' R' := by
  unfold Holds
  rw [h.conserve]
  exact hold

theorem holds_add {U : Finset A} (h : Exchange s s' R R') (hold : Holds U s (R + F)) :
    Holds U s' (R' + F) :=
  (h.add F).holds hold

end Exchange

/-! ## The operations -/

/-- The requests after this one. -/
def tick (s : Pool A V) : Pool A V := { s with refuse := fun i => s.refuse (i + 1) }

/-- Ask for a cell. -/
def alloc (s : Pool A V) : Option A × Pool A V :=
  match s.free with
  | [] => (none, s.tick)
  | a :: rest => if s.refuse 0 then (none, s.tick) else (some a, { s.tick with free := rest })

/-- Give a cell back. -/
def release (s : Pool A V) (a : A) : Pool A V := { s with free := a :: s.free }

/-- Change the contents of a cell. -/
def store [DecidableEq A] (s : Pool A V) (a : A) (v : V) : Pool A V :=
  { s with mem := Function.update s.mem a v }

theorem alloc_none (h : s.alloc = (none, s')) :
    s'.mem = s.mem ∧ ∀ R, Exchange s s' R R := by
  have heq : s' = s.tick := by
    unfold alloc at h
    split at h
    · exact (congrArg Prod.snd h).symm
    · split at h
      · exact (congrArg Prod.snd h).symm
      · exact absurd (congrArg Prod.fst h) (by simp)
  subst heq
  exact ⟨rfl, fun _ => ⟨rfl, fun _ _ => rfl⟩⟩

/-- A granted request hands out a free cell. -/
theorem alloc_some {a : A} (h : s.alloc = (some a, s')) :
    s'.mem = s.mem ∧ a ∈ s.free ∧ Exchange s s' 0 {a} := by
  unfold alloc at h
  split at h
  · exact absurd (congrArg Prod.fst h) (by simp)
  · rename_i b rest hfree
    split at h
    · exact absurd (congrArg Prod.fst h) (by simp)
    · obtain ⟨hab, rfl⟩ := Prod.mk.inj h
      cases hab
      refine ⟨rfl, by simp [hfree], ⟨?_, fun _ _ => rfl⟩⟩
      rw [hfree, add_zero, add_comm, singleton_add]
      rfl

theorem exchange_release (s : Pool A V) (a : A) : Exchange s (s.release a) {a} 0 := by
  refine ⟨?_, fun _ _ => rfl⟩
  show ((a :: s.free : List A) : Multiset A) + 0 = _
  rw [add_zero, add_comm, singleton_add]
  rfl

theorem exchange_store [DecidableEq A] {a : A} (ha : a ∈ R) (v : V) :
    Exchange s (s.store a v) R R := by
  refine ⟨rfl, fun b hb => Function.update_of_ne ?_ _ _⟩
  rintro rfl
  exact hb (mem_add.mpr (.inr ha))

end Pool
