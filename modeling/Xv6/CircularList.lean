import Mathlib

/-!
# Circular lists

A circular list is given by the successor of each of its nodes. It is described here by a list that
begins and ends with the same node, in which every node but the last is followed by its successor
(`Links`). The two halves of such a list are again of this kind, so that a change of a
successor concerns one place only (`links_append`); and the circle can be cut at each of its nodes
(`exists_rotate`), after which a search along it is an induction on a list.
-/

namespace Xv6.CircularList

open List

variable {α : Type*} {next next' : α → α}

/-- Every node but the last is followed by its successor. -/
def Links (next : α → α) : List α → Prop
  | a :: b :: l => next a = b ∧ Links next (b :: l)
  | _ => True

/-- **The two halves** of a list of links. -/
theorem links_append (l : List α) (a : α) (l' : List α) :
    Links next (l ++ a :: l') ↔ Links next (l ++ [a]) ∧ Links next (a :: l') := by
  induction l with
  | nil => exact ⟨fun h => ⟨trivial, h⟩, fun h => h.2⟩
  | cons b l ih =>
    cases l with
    | nil =>
      show (next b = a ∧ Links next (a :: l')) ↔ (next b = a ∧ True) ∧ Links next (a :: l')
      rw [and_true]
    | cons c l =>
      show (next b = c ∧ Links next (c :: l ++ a :: l'))
        ↔ (next b = c ∧ Links next (c :: l ++ [a])) ∧ Links next (a :: l')
      rw [ih, and_assoc]

theorem Links.congr {l : List α} {a : α} (h : Links next (l ++ [a]))
    (hsame : ∀ b ∈ l, next' b = next b) : Links next' (l ++ [a]) := by
  induction l with
  | nil => trivial
  | cons b l ih =>
    cases l with
    | nil => exact ⟨(hsame b mem_cons_self).trans h.1, trivial⟩
    | cons c l =>
      exact ⟨(hsame b mem_cons_self).trans h.1,
        ih h.2 fun d hd => hsame d (mem_cons_of_mem _ hd)⟩

/-- **A circle can be cut at each of its nodes.** -/
theorem exists_rotate {b a : α} {l : List α} (h : Links next (b :: l ++ [b])) (ha : a ∈ b :: l) :
    ∃ l', Links next (a :: l' ++ [a]) ∧ (a :: l').Perm (b :: l) := by
  obtain ⟨l₁, l₂, hsplit⟩ := append_of_mem ha
  cases l₁ with
  | nil =>
    cases hsplit
    exact ⟨l, h, List.Perm.refl _⟩
  | cons c l₁ =>
    obtain ⟨rfl, hl⟩ := cons.inj hsplit
    rw [hsplit, append_assoc] at h
    obtain ⟨hba, hab⟩ := (links_append (b :: l₁) a (l₂ ++ [b])).mp h
    refine ⟨l₂ ++ b :: l₁, ?_, ?_⟩
    · rw [← cons_append, append_assoc]
      exact (links_append (a :: l₂) b (l₁ ++ [a])).mpr ⟨hab, hba⟩
    · rw [hsplit, ← cons_append]
      exact perm_append_comm

end Xv6.CircularList
