import Mathlib

/-!
# Lists of spans

A span is a half-open interval that is not empty. A list of spans in which each ends before the
next begins, with a gap between them, is determined by its points (`Separated.eq_of_points`): it is
the coarsest way to cut them into spans. A list of spans tiles a set if they are disjoint and
their points are those of the set; tilings are kept by cutting a span in two and by gluing two
that touch (`Tiles.glue`, `Tiles.cut`).
-/

namespace Xv6.Spans

variable {α : Type*} [LinearOrder α]

/-- A half-open interval that is not empty. -/
@[ext]
structure Span (α : Type*) [LinearOrder α] where
  lo : α
  hi : α
  lt : lo < hi

namespace Span

/-- The points of a span. -/
def points (s : Span α) : Set α := Set.Ico s.lo s.hi

theorem lo_mem (s : Span α) : s.lo ∈ s.points := ⟨le_rfl, s.lt⟩

theorem le_or_le {s t : Span α} (h : Disjoint s.points t.points) : s.hi ≤ t.lo ∨ t.hi ≤ s.lo := by
  have hle := Set.Ico_disjoint_Ico.mp h
  rcases le_total s.lo t.lo with hlo | hlo
  · rw [max_eq_right hlo] at hle
    exact .inl ((min_le_iff.mp hle).resolve_right (not_le.mpr t.lt))
  · rw [max_eq_left hlo] at hle
    exact .inr ((min_le_iff.mp hle).resolve_left (not_le.mpr s.lt))

/-- Two spans that touch are a span. -/
structure Joins (s t u : Span α) : Prop where
  lo : s.lo = u.lo
  meet : s.hi = t.lo
  hi : t.hi = u.hi

theorem Joins.points_union {s t u : Span α} (h : Joins s t u) :
    s.points ∪ t.points = u.points := by
  unfold points
  rw [h.lo, h.meet, h.hi]
  exact Set.Ico_union_Ico_eq_Ico (h.lo ▸ h.meet ▸ s.lt.le) (h.hi ▸ t.lt.le)

theorem Joins.disjoint {s t u : Span α} (h : Joins s t u) : Disjoint s.points t.points := by
  unfold points
  rw [h.meet]
  exact Set.Ico_disjoint_Ico_same

end Span

/-- The points of some spans. -/
def points (l : List (Span α)) : Set α := {x | ∃ s ∈ l, x ∈ s.points}

section

variable {s t u : Span α} {l l' : List (Span α)} {S : Set α} {x : α}

theorem mem_points : x ∈ points l ↔ ∃ s ∈ l, x ∈ s.points := Iff.rfl

@[simp]
theorem points_nil : points ([] : List (Span α)) = ∅ := by
  ext x
  simp [mem_points]

@[simp]
theorem points_cons : points (s :: l) = s.points ∪ points l := by
  ext x
  simp [mem_points]

@[simp]
theorem points_append : points (l ++ l') = points l ∪ points l' := by
  induction l with
  | nil => simp
  | cons s l ih => rw [List.cons_append, points_cons, points_cons, ih, Set.union_assoc]

theorem points_perm (h : l.Perm l') : points l = points l' := by
  ext x
  simp only [mem_points, h.mem_iff]

/-! ## Separated spans -/

/-- **Each span ends before the next begins**, and there is a gap between them. -/
def Separated (l : List (Span α)) : Prop := l.Pairwise fun s t => s.hi < t.lo

theorem Separated.lo_le (h : Separated (s :: l)) (hx : x ∈ points (s :: l)) : s.lo ≤ x := by
  obtain ⟨t, ht, hx⟩ := hx
  rcases List.mem_cons.mp ht with rfl | ht
  · exact hx.1
  · exact (s.lt.trans ((List.pairwise_cons.mp h).1 t ht)).le.trans hx.1

theorem Separated.hi_notMem (h : Separated l) (hs : s ∈ l) : s.hi ∉ points l := by
  rintro ⟨t, ht, hx⟩
  refine List.Pairwise.forall_of_forall_of_flip (R := fun s t : Span α => s.hi ∉ t.points)
    (fun s _ hx => lt_irrefl _ hx.2) (h.imp fun hlt hx => ?_) (h.imp fun {s t} hlt hx => ?_) hs ht
    hx
  · exact absurd hx.1 (not_le.mpr hlt)
  · exact absurd (hlt.trans t.lt) (not_lt.mpr hx.2.le)

/-- **An interval of points is in one span.** -/
theorem Separated.exists_span {x y : α} (h : Separated l) (hlt : x < y)
    (hsub : Set.Ico x y ⊆ points l) : ∃ s ∈ l, Set.Ico x y ⊆ s.points := by
  obtain ⟨s, hs, hx⟩ := hsub ⟨le_rfl, hlt⟩
  refine ⟨s, hs, fun z hz => ⟨hx.1.trans hz.1, ?_⟩⟩
  by_contra hle
  exact h.hi_notMem hs (hsub ⟨hx.2.le, (not_lt.mp hle).trans_lt hz.2⟩)

theorem Separated.points_tail (h : Separated (s :: l)) : points l = points (s :: l) \ s.points := by
  ext x
  rw [points_cons]
  constructor
  · rintro ⟨t, ht, hx⟩
    refine ⟨.inr ⟨t, ht, hx⟩, fun hs => ?_⟩
    exact absurd (hs.2.trans ((List.pairwise_cons.mp h).1 t ht)) (not_lt.mpr hx.1)
  · rintro ⟨hx | hx, hs⟩
    · exact absurd hx hs
    · exact hx

/-- **Separated spans are determined by their points.** -/
theorem Separated.eq_of_points (h : Separated l) (h' : Separated l') (heq : points l = points l') :
    l = l' := by
  induction l generalizing l' with
  | nil =>
    cases l' with
    | nil => rfl
    | cons t l' =>
      have hmem : t.lo ∈ points (t :: l') := ⟨t, List.mem_cons_self, t.lo_mem⟩
      rw [← heq, points_nil] at hmem
      exact hmem.elim
  | cons s l ih =>
    cases l' with
    | nil =>
      have hmem : s.lo ∈ points (s :: l) := ⟨s, List.mem_cons_self, s.lo_mem⟩
      rw [heq, points_nil] at hmem
      exact hmem.elim
    | cons t l' =>
      have hlo : s.lo = t.lo := le_antisymm
        (h.lo_le (heq ▸ ⟨t, List.mem_cons_self, t.lo_mem⟩))
        (h'.lo_le (heq ▸ ⟨s, List.mem_cons_self, s.lo_mem⟩))
      have hle : ∀ {s t : Span α} {l l' : List (Span α)}, Separated (s :: l) →
          points (s :: l) = points (t :: l') → s.lo = t.lo → t.hi ≤ s.hi := by
        intro s t l l' h heq hlo
        by_contra hlt
        exact h.hi_notMem List.mem_cons_self
          (heq ▸ ⟨t, List.mem_cons_self, hlo ▸ s.lt.le, not_le.mp hlt⟩)
      have hst : s = t := Span.ext hlo (le_antisymm (hle h' heq.symm hlo.symm) (hle h heq hlo))
      subst hst
      rw [ih h.of_cons h'.of_cons (by rw [h.points_tail, h'.points_tail, heq])]

/-! ## Tilings -/

/-- **The spans tile a set**: they are disjoint, and have its points. -/
structure Tiles (l : List (Span α)) (S : Set α) : Prop where
  disjoint : l.Pairwise fun s t => Disjoint s.points t.points
  points : points l = S

theorem Tiles.perm (h : Tiles l S) (hperm : l.Perm l') : Tiles l' S :=
  ⟨hperm.pairwise h.disjoint fun hst => Disjoint.symm hst, (points_perm hperm).symm.trans h.points⟩

theorem Tiles.nil : Tiles ([] : List (Span α)) ∅ := ⟨List.Pairwise.nil, points_nil⟩

theorem Tiles.cons (h : Tiles l S) (hdisj : Disjoint s.points S) :
    Tiles (s :: l) (s.points ∪ S) := by
  refine ⟨List.pairwise_cons.mpr ⟨fun t ht => ?_, h.disjoint⟩, ?_⟩
  · exact hdisj.mono_right (h.points ▸ fun x hx => ⟨t, ht, hx⟩)
  · rw [points_cons, h.points]

/-- **Two spans that touch can be glued together.** -/
theorem Tiles.glue (h : Tiles (s :: t :: l) S) (hjoin : s.Joins t u) : Tiles (u :: l) S := by
  obtain ⟨hs, hl⟩ := List.pairwise_cons.mp h.disjoint
  obtain ⟨ht, hl⟩ := List.pairwise_cons.mp hl
  refine ⟨List.pairwise_cons.mpr ⟨fun v hv => ?_, hl⟩, ?_⟩
  · rw [← hjoin.points_union, Set.disjoint_union_left]
    exact ⟨hs v (List.mem_cons_of_mem _ hv), ht v hv⟩
  · rw [← h.points, points_cons, points_cons, points_cons, ← hjoin.points_union, Set.union_assoc]

/-- **A span can be cut in two.** -/
theorem Tiles.cut (h : Tiles (u :: l) S) (hjoin : s.Joins t u) : Tiles (s :: t :: l) S := by
  obtain ⟨hu, hl⟩ := List.pairwise_cons.mp h.disjoint
  have hparts : ∀ v ∈ l, Disjoint s.points v.points ∧ Disjoint t.points v.points := fun v hv => by
    rw [← Set.disjoint_union_left, hjoin.points_union]
    exact hu v hv
  refine ⟨List.pairwise_cons.mpr ⟨fun v hv => ?_, List.pairwise_cons.mpr ⟨fun v hv => ?_, hl⟩⟩, ?_⟩
  · rcases List.mem_cons.mp hv with rfl | hv
    · exact hjoin.disjoint
    · exact (hparts v hv).1
  · exact (hparts v hv).2
  · rw [← h.points, points_cons, points_cons, points_cons, ← hjoin.points_union, Set.union_assoc]

/-- **Spans of numbers have as many points as the set they tile.** -/
theorem Tiles.encard_eq {l : List (Span ℕ)} {S : Set ℕ} (h : Tiles l S) :
    S.encard = ((l.map fun s => s.hi - s.lo).sum : ℕ) := by
  induction l generalizing S with
  | nil =>
    rw [← h.points, points_nil, Set.encard_empty]
    rfl
  | cons s l ih =>
    obtain ⟨hs, hl⟩ := List.pairwise_cons.mp h.disjoint
    have hpoints : s.points = ↑(Finset.Ico s.lo s.hi) := (Finset.coe_Ico _ _).symm
    have hdisj : Disjoint s.points (Spans.points l) :=
      Set.disjoint_left.mpr fun x hx ⟨t, ht, hx'⟩ => Set.disjoint_left.mp (hs t ht) hx hx'
    rw [← h.points, points_cons, Set.encard_union_eq hdisj, ih ⟨hl, rfl⟩, hpoints,
      Set.encard_coe_eq_coe_finsetCard, Nat.card_Ico, List.map_cons, List.sum_cons, Nat.cast_add]

/-- What tiles a set with the first spans does so with the second instead. -/
def Glues (l l' : List (Span α)) : Prop := ∀ m S, Tiles (l ++ m) S → Tiles (l' ++ m) S

theorem Glues.refl (l : List (Span α)) : Glues l l := fun _ _ h => h

theorem Glues.trans {l'' : List (Span α)} (h : Glues l l') (h' : Glues l' l'') : Glues l l'' :=
  fun m S ht => h' m S (h m S ht)

theorem Glues.of_perm (h : l.Perm l') : Glues l l' := fun m _ ht => ht.perm (h.append_right m)

theorem Glues.within (h : Glues l l') (a b : List (Span α)) :
    Glues (a ++ l ++ b) (a ++ l' ++ b) := by
  have hfront : ∀ l m : List (Span α), (a ++ l ++ b ++ m).Perm (l ++ (a ++ b ++ m)) := fun l m => by
    have hswap : (a ++ l).Perm (l ++ a) := List.perm_append_comm
    simpa only [List.append_assoc] using hswap.append_right (b ++ m)
  exact fun m S ht => (h _ S (ht.perm (hfront l m))).perm (hfront l' m).symm

theorem glues_joins (h : s.Joins t u) : Glues [s, t] [u] := fun _ _ ht => ht.glue h

theorem joins_glues (h : s.Joins t u) : Glues [u] [s, t] := fun _ _ ht => ht.cut h

end

end Xv6.Spans
