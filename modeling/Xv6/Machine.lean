import Mathlib

/-!
# Machines that can panic

A kernel seen at the granularity of its critical sections is a machine:
some thread does an action, and the machine moves to a next state, panics,
or cannot do that action now. `Outcome` is the result of one action, and a
machine is a function from states and actions to outcomes.

The threads a machine serves obey rules of their own – a buffer is released
by the thread that holds it, an operation ends after it began – which the
machine does not check. They are a predicate `ok` on states and actions,
and `Reach` is reachability by actions that meet it. Everything proved of a
machine is then an invariant: true at the start and kept by every such
action (`Reach.invariant`).

A machine implements another, its specification, if a relation between
their states is kept by their steps; runs with the same labels then
correspond (`Trace.simulate`).
-/

/-- What an action of a machine leads to. -/
inductive Outcome (S E : Type) where
  /-- The next state. -/
  | next (s : S)
  /-- The machine panics. -/
  | panic (e : E)
  /-- The action cannot be done now. -/
  | disabled
  deriving DecidableEq

open Function Finset

namespace Outcome

variable {S E : Type}

/-- The result of an action, with its next state changed. -/
def map {T : Type} (f : S → T) : Outcome S E → Outcome T E
  | next s => .next (f s)
  | panic e => .panic e
  | disabled => .disabled

/-- The next state has a property. -/
def Next (P : S → Prop) : Outcome S E → Prop
  | next s => P s
  | panic _ | disabled => False

/-- The machine panics in a given way. -/
def Panics (e : E) : Outcome S E → Prop
  | panic e' => e' = e
  | next _ | disabled => False

/-- The action does not panic, and what it leads to has a property. -/
def Safe (P : S → Prop) : Outcome S E → Prop
  | next s => P s
  | panic _ => False
  | disabled => True

theorem Safe.next {P : S → Prop} {o : Outcome S E} (h : o.Safe P) {s : S} (hs : o = .next s) :
    P s := by
  subst hs
  exact h

theorem Safe.not_panic {P : S → Prop} {o : Outcome S E} (h : o.Safe P) (e : E) :
    o ≠ .panic e := by
  rintro rfl
  exact h

theorem Next.exists {P : S → Prop} {o : Outcome S E} (h : o.Next P) : ∃ s, o = .next s ∧ P s := by
  cases o with
  | next s => exact ⟨s, rfl, h⟩
  | panic | disabled => exact h.elim

instance (P : S → Prop) [DecidablePred P] (o : Outcome S E) : Decidable (o.Next P) :=
  match o with
  | next s => inferInstanceAs (Decidable (P s))
  | panic _ | disabled => isFalse id

instance [DecidableEq E] (e : E) (o : Outcome S E) : Decidable (o.Panics e) :=
  match o with
  | panic e' => inferInstanceAs (Decidable (e' = e))
  | next _ | disabled => isFalse id

end Outcome

namespace Machine

variable {S A E : Type} (step : S → A → Outcome S E) (ok : S → A → Prop)

/-- One action that meets the rules and does not panic. -/
def Step (s s' : S) : Prop := ∃ a, ok s a ∧ step s a = .next s'

/-- **Reachability**: any number of such actions. -/
abbrev Reach (s s' : S) : Prop := Relation.ReflTransGen (Step step ok) s s'

variable {step ok}

/-- **Invariants**: what holds at the start and is kept by every action
holds in every state reached. -/
theorem Reach.invariant {P : S → Prop} {s s' : S} (h : Reach step ok s s') (h₀ : P s)
    (hstep : ∀ s a s', P s → ok s a → step s a = .next s' → P s') : P s' := by
  induction h with
  | refl => exact h₀
  | tail _ hlast ih =>
    obtain ⟨a, hok, ha⟩ := hlast
    exact hstep _ a _ ih hok ha

theorem Reach.mono {ok' : S → A → Prop} {s s' : S} (h : Reach step ok s s')
    (hok : ∀ s a, ok s a → ok' s a) : Reach step ok' s s' := by
  induction h with
  | refl => exact .refl
  | tail _ hlast ih =>
    obtain ⟨a, ha, hs⟩ := hlast
    exact ih.tail ⟨a, hok _ a ha, hs⟩

variable (step ok)

/-- **Executing a list of actions**, which stops at a panic and at an action
that cannot be done or does not meet the rules. -/
def run [∀ s a, Decidable (ok s a)] : S → List A → Outcome S E
  | s, [] => .next s
  | s, a :: as =>
    if ok s a then
      match step s a with
      | .next s' => run s' as
      | .panic e => .panic e
      | .disabled => .disabled
    else .disabled

variable {step ok} [∀ s a, Decidable (ok s a)]

theorem reach_of_run {s s' : S} {l : List A} (h : run step ok s l = .next s') :
    Reach step ok s s' := by
  induction l generalizing s with
  | nil =>
    cases h
    exact .refl
  | cons a l ih =>
    rw [run] at h
    split at h
    · rename_i hok
      split at h
      · rename_i s₁ hs
        exact .head ⟨a, hok, hs⟩ (ih h)
      · cases h
      · cases h
    · cases h

/-- What an execution shows of the state it ends in is true of a reachable
one. -/
theorem exists_reach_of_run {s : S} {l : List A} {P : S → Prop}
    (h : (run step ok s l).Next P) : ∃ s', Reach step ok s s' ∧ P s' := by
  obtain ⟨s', hrun, hs'⟩ := h.exists
  exact ⟨s', reach_of_run hrun, hs'⟩

/-- A panic an execution ends in is one that a reachable state has. -/
theorem panics_of_run {s : S} {l : List A} {e : E} (h : (run step ok s l).Panics e) :
    ∃ s' a, Reach step ok s s' ∧ ok s' a ∧ step s' a = .panic e := by
  induction l generalizing s with
  | nil => exact h.elim
  | cons a l ih =>
    rw [run] at h
    split at h
    · rename_i hok
      split at h
      · rename_i s₁ hs
        obtain ⟨s', b, hreach, hok', hpanic⟩ := ih h
        exact ⟨s', b, .head ⟨a, hok, hs⟩ hreach, hok', hpanic⟩
      · rename_i e' hs
        exact ⟨s, a, .refl, hok, hs.trans (congrArg _ h)⟩
      · exact h.elim
    · exact h.elim

end Machine

section Traces

variable {S T L : Type} {step : S → L → S → Prop} {spec : T → L → T → Prop}

/-- **A run with labels**: what was asked for, and answered, step by step. -/
inductive Trace (step : S → L → S → Prop) : S → List L → S → Prop
  | nil (s : S) : Trace step s [] s
  | cons {s s₁ s' : S} {l : L} {ls : List L} :
    step s l s₁ → Trace step s₁ ls s' → Trace step s (l :: ls) s'

/-- **Forward simulation**: a relation that every step keeps, by a step of the specification with
the same label, leads from runs to runs of the specification. -/
theorem Trace.simulate {R : S → T → Prop}
    (hstep : ∀ s l s' t, R s t → step s l s' → ∃ t', spec t l t' ∧ R s' t')
    {s s' : S} {ls : List L} {t : T} (h : Trace step s ls s') (hR : R s t) :
    ∃ t', Trace spec t ls t' ∧ R s' t' := by
  induction h generalizing t with
  | nil s => exact ⟨t, .nil t, hR⟩
  | cons hfirst _ ih =>
    obtain ⟨t₁, hspec, hR₁⟩ := hstep _ _ _ _ hR hfirst
    obtain ⟨t', hrest, hR'⟩ := ih hR₁
    exact ⟨t', .cons hspec hrest, hR'⟩

end Traces

section Threads

variable {P α : Type} [DecidableEq P]

/-- **One thread moves**: what at most one thread is at stays so when no other
thread is where this one goes. -/
theorem unique_update {pc : P → α} {p : P} {c : α} {R : α → Prop}
    (huniq : ∀ q q', R (pc q) → R (pc q') → q = q') (hnew : ∀ q, q ≠ p → R (pc q) → ¬ R c)
    (q q' : P) (hq : R (update pc p c q)) (hq' : R (update pc p c q')) :
    q = q' := by
  by_cases h : q = p
  · by_cases h' : q' = p
    · exact h.trans h'.symm
    · rw [h, update_self] at hq
      rw [update_of_ne h'] at hq'
      exact absurd hq (hnew q' h' hq')
  · rw [update_of_ne h] at hq
    by_cases h' : q' = p
    · rw [h', update_self] at hq'
      exact absurd hq' (hnew q h hq)
    · rw [update_of_ne h'] at hq'
      exact huniq q q' hq hq'

end Threads

section Counting

variable {P α : Type} [Fintype P] [DecidableEq P]

/-- **One thread moves**: a sum over threads changes by what that thread
contributes. -/
theorem sum_update {M : Type} [AddCommMonoid M] (pc : P → α) (p : P) (v : α) (f : α → M) :
    (∑ q, f (update pc p v q)) + f (pc p) = (∑ q, f (pc q)) + f v := by
  rw [← add_sum_erase _ _ (mem_univ p),
    ← add_sum_erase univ (fun q => f (pc q)) (mem_univ p),
    update_self]
  have hrest : ∑ q ∈ univ.erase p, f (update pc p v q)
      = ∑ q ∈ univ.erase p, f (pc q) :=
    sum_congr rfl (fun q hq => by
      rw [update_of_ne (ne_of_mem_erase hq)])
  rw [hrest]
  abel

omit [DecidableEq P] in
theorem sum_pos_of (pc : P → α) (f : α → ℕ) {p : P} (hp : 0 < f (pc p)) :
    0 < ∑ q, f (pc q) :=
  lt_of_lt_of_le hp (single_le_sum (f := fun q => f (pc q))
    (fun _ _ => Nat.zero_le _) (mem_univ p))

end Counting
