import Mathlib

/-!
# Programs with a state that may panic

Sequential kernel code reads and changes a state, and may stop the machine
by a panic. `Prog E S α` is such code: a function from a state to a result
and the next state, or to the panic. It is a monad, so that a model can be
written in the order of the source.

`Ends` states what a run ends in, and its rules follow the code (`ends_bind`).
Two programs with states of different kinds that do the same thing run in
lockstep (`Sim`); what is known of one then holds of the other.
-/

/-- Code with a state in `S` that returns in `α` or panics with `E`. -/
def Prog (E S α : Type) : Type := S → Except E (α × S)

namespace Prog

variable {E S α β : Type}

instance : Monad (Prog E S) where
  pure a := fun s => .ok (a, s)
  bind m f := fun s =>
    match m s with
    | .ok (a, s') => f a s'
    | .error e => .error e

/-- Stop the machine. -/
def panic (e : E) : Prog E S α := fun _ => .error e

/-- The state. -/
def get : Prog E S S := fun s => .ok (s, s)

/-- Change the state. -/
def modify (f : S → S) : Prog E S Unit := fun s => .ok ((), f s)

theorem pure_ok {a b : α} {s s' : S} :
    (pure a : Prog E S α) s = .ok (b, s') ↔ b = a ∧ s' = s := by
  show Except.ok (a, s) = Except.ok (b, s') ↔ _
  rw [Except.ok.injEq, Prod.mk.injEq]
  exact ⟨fun h => ⟨h.1.symm, h.2.symm⟩, fun h => ⟨h.1.symm, h.2.symm⟩⟩

/-- **A sequence ends well when both parts do**, the second from the state
and the result of the first. -/
theorem bind_ok {m : Prog E S α} {f : α → Prog E S β} {b : β} {s s' : S} :
    (m >>= f) s = .ok (b, s') ↔ ∃ a s₁, m s = .ok (a, s₁) ∧ f a s₁ = .ok (b, s') := by
  show (match m s with
    | .ok (a, s') => f a s'
    | .error e => .error e) = _ ↔ _
  cases h : m s with
  | error e => simp
  | ok r =>
    obtain ⟨a, s₁⟩ := r
    simp

theorem bind_of_ok {m : Prog E S α} {f : α → Prog E S β} {a : α} {s s' : S}
    (h : m s = .ok (a, s')) : (m >>= f) s = f a s' := by
  show (match m s with
    | .ok (a, s') => f a s'
    | .error e => .error e) = _
  rw [h]

theorem bind_of_error {m : Prog E S α} {f : α → Prog E S β} {e : E} {s : S}
    (h : m s = .error e) : (m >>= f) s = .error e := by
  show (match m s with
    | .ok (a, s') => f a s'
    | .error e => .error e) = _
  rw [h]

theorem get_bind {f : S → Prog E S β} {s : S} : (get >>= f) s = f s s := rfl

theorem modify_ok {f : S → S} {b : Unit} {s s' : S} :
    (modify f : Prog E S Unit) s = .ok (b, s') ↔ s' = f s := by
  show Except.ok ((), f s) = Except.ok (b, s') ↔ _
  rw [Except.ok.injEq, Prod.mk.injEq]
  exact ⟨fun h => h.2.symm, fun h => ⟨rfl, h.symm⟩⟩

/-- What code returns, if it does not panic. -/
def result (m : Prog E S α) (s : S) : Option α :=
  match m s with
  | .ok (a, _) => some a
  | .error _ => none

theorem exists_of_result {m : Prog E S α} {s : S} {a : α} (h : m.result s = some a) :
    ∃ s', m s = .ok (a, s') := by
  unfold result at h
  split at h
  · rename_i a' s' hm
    cases h
    exact ⟨s', hm⟩
  · cases h

/-! ## Pre- and postconditions -/

/-- From `s`, the code ends in a result and a state with `Q`, or in a panic
with `P`. -/
def Ends (m : Prog E S α) (s : S) (P : E → Prop) (Q : α → S → Prop) : Prop :=
  match m s with
  | .ok (a, s') => Q a s'
  | .error e => P e

variable {P : E → Prop} {Q Q' : α → S → Prop} {s : S}

instance [DecidablePred P] [∀ a s', Decidable (Q a s')] (m : Prog E S α) :
    Decidable (Ends m s P Q) :=
  match h : m s with
  | .ok (a, s') => decidable_of_iff (Q a s') (by rw [Ends, h])
  | .error e => decidable_of_iff (P e) (by rw [Ends, h])

theorem ends_pure {a : α} (h : Q a s) : Ends (pure a) s P Q := h

theorem ends_panic {e : E} (h : P e) : Ends (panic e) s P Q := h

theorem ends_modify {f : S → S} {Q : Unit → S → Prop} (h : Q () (f s)) :
    Ends (modify f) s P Q := h

theorem ends_get {Q : S → S → Prop} (h : Q s s) : Ends get s P Q := h

theorem ends_of_ok {m : Prog E S α} {a : α} {s' : S} (hm : m s = .ok (a, s')) (h : Q a s') :
    Ends m s P Q := by
  unfold Ends
  rw [hm]
  exact h

theorem Ends.of_ok {m : Prog E S α} {a : α} {s' : S} (h : Ends m s P Q)
    (hm : m s = .ok (a, s')) : Q a s' := by
  unfold Ends at h
  rw [hm] at h
  exact h

theorem Ends.of_error {m : Prog E S α} {e : E} (h : Ends m s P Q) (hm : m s = .error e) : P e := by
  unfold Ends at h
  rw [hm] at h
  exact h

theorem ends_trivial (m : Prog E S α) (s : S) : Ends m s (fun _ => True) fun _ _ => True := by
  unfold Ends
  split <;> trivial

theorem Ends.exists_ok {m : Prog E S α} (h : Ends m s (fun _ => False) Q) :
    ∃ a s', m s = .ok (a, s') ∧ Q a s' := by
  cases hm : m s with
  | ok r => exact ⟨r.1, r.2, rfl, h.of_ok hm⟩
  | error e => exact (h.of_error hm).elim

/-- **A sequence ends as its second part does**, from wherever the first ends. -/
theorem ends_bind_iff {m : Prog E S α} {f : α → Prog E S β} {Q : β → S → Prop} :
    Ends (m >>= f) s P Q ↔ Ends m s P fun a s' => Ends (f a) s' P Q := by
  unfold Ends
  show (match (match m s with
    | .ok (a, s') => f a s'
    | .error e => .error e) with
    | .ok (a, s') => Q a s'
    | .error e => P e) ↔ _
  cases m s with
  | error e => rfl
  | ok r => rfl

theorem ends_bind {m : Prog E S α} {f : α → Prog E S β} {Q : β → S → Prop}
    (h : Ends m s P fun a s' => Ends (f a) s' P Q) : Ends (m >>= f) s P Q :=
  ends_bind_iff.mpr h

theorem Ends.mono {m : Prog E S α} (h : Ends m s P Q) (hQ : ∀ a s', Q a s' → Q' a s') :
    Ends m s P Q' := by
  unfold Ends at h ⊢
  split
  · rename_i a s' hm
    rw [hm] at h
    exact hQ a s' h
  · rename_i e hm
    rw [hm] at h
    exact h

theorem Ends.panic_mono {m : Prog E S α} {P' : E → Prop} (h : Ends m s P Q)
    (hP : ∀ e, P e → P' e) : Ends m s P' Q := by
  unfold Ends at h ⊢
  cases hm : m s with
  | ok r =>
    rw [hm] at h
    exact h
  | error e =>
    rw [hm] at h
    exact hP e h

theorem Ends.with_run {m : Prog E S α} (h : Ends m s P Q) :
    Ends m s P fun a s' => Q a s' ∧ m s = .ok (a, s') := by
  unfold Ends at h ⊢
  cases hm : m s with
  | ok r =>
    rw [hm] at h
    exact ⟨h, rfl⟩
  | error e =>
    rw [hm] at h
    exact h

theorem Ends.and_imp {m : Prog E S α} {P' : E → Prop} {A : Prop} (h : Ends m s P Q)
    (h' : A → Ends m s P' Q') : Ends m s P fun a s' => Q a s' ∧ (A → Q' a s') := by
  unfold Ends at *
  cases hm : m s with
  | ok r =>
    rw [hm] at h h'
    exact ⟨h, h'⟩
  | error e =>
    rw [hm] at h
    exact h

theorem Ends.and {m : Prog E S α} {P' : E → Prop} (h : Ends m s P Q) (h' : Ends m s P' Q') :
    Ends m s (fun e => P e ∧ P' e) fun a s' => Q a s' ∧ Q' a s' := by
  unfold Ends at *
  cases hm : m s with
  | ok r =>
    rw [hm] at h h'
    exact ⟨h, h'⟩
  | error e =>
    rw [hm] at h h'
    exact ⟨h, h'⟩

/-! ## What code leaves as it is -/

section Keeps

variable {γ : Type} {f : S → γ}

/-- **The code keeps a part of the state**, if it ends. -/
def Keeps (f : S → γ) (m : Prog E S α) : Prop :=
  ∀ s, Ends m s (fun _ => True) fun _ s' => f s' = f s

theorem Keeps.ends {m : Prog E S α} (h : Keeps f m) (s : S) :
    Ends m s (fun _ => True) fun _ s' => f s' = f s := h s

theorem keeps_pure (a : α) : Keeps f (pure a : Prog E S α) := fun _ => rfl

theorem keeps_panic (e : E) : Keeps f (panic e : Prog E S α) := fun _ => trivial

theorem keeps_get : Keeps f (get : Prog E S S) := fun _ => rfl

theorem keeps_modify {g : S → S} (h : ∀ s, f (g s) = f s) : Keeps f (modify g : Prog E S Unit) := h

theorem keeps_bind {m : Prog E S α} {g : α → Prog E S β} (h : Keeps f m)
    (h' : ∀ a, Keeps f (g a)) : Keeps f (m >>= g) := fun s =>
  ends_bind ((h s).mono fun a s₁ h₁ => (h' a s₁).mono fun _ _ h₂ => h₂.trans h₁)

theorem keeps_ite {c : Prop} [Decidable c] {m m' : Prog E S α} (h : Keeps f m) (h' : Keeps f m') :
    Keeps f (if c then m else m') := by
  split
  · exact h
  · exact h'

end Keeps

/-! ## Runs with more steps -/

/-- **What the first program returns, the second returns too.** -/
def Within (m m' : Prog E S α) : Prop := ∀ s a s', m s = .ok (a, s') → m' s = .ok (a, s')

theorem within_refl (m : Prog E S α) : Within m m := fun _ _ _ h => h

theorem within_panic (e : E) (m : Prog E S α) : Within (panic e) m := nofun

theorem Within.bind {m m' : Prog E S α} {f f' : α → Prog E S β} (h : Within m m')
    (h' : ∀ a, Within (f a) (f' a)) : Within (m >>= f) (m' >>= f') := fun s b s' hrun => by
  obtain ⟨a, s₁, hm, hf⟩ := bind_ok.mp hrun
  rw [bind_of_ok (h s a s₁ hm)]
  exact h' a s₁ b s' hf

theorem Within.ite {c : Prop} [Decidable c] {m₁ m₁' m₂ m₂' : Prog E S α} (h₁ : Within m₁ m₁')
    (h₂ : Within m₂ m₂') : Within (if c then m₁ else m₂) (if c then m₁' else m₂') := by
  split
  · exact h₁
  · exact h₂

/-! ## Programs in lockstep -/

section Sim

variable {E' S' α' β' : Type} {s' : S'}

/-- **Two programs in lockstep**: both end, with results and states that are
related, or both panic. -/
def Sim (m : Prog E S α) (m' : Prog E' S' α') (s : S) (s' : S')
    (R : α → S → α' → S' → Prop) : Prop :=
  (∃ a t a' t', m s = .ok (a, t) ∧ m' s' = .ok (a', t') ∧ R a t a' t')
  ∨ ∃ e e', m s = .error e ∧ m' s' = .error e'

variable {m : Prog E S α} {m' : Prog E' S' α'} {R R' : α → S → α' → S' → Prop}

theorem sim_of_ok {a : α} {t : S} {a' : α'} {t' : S'} (h : m s = .ok (a, t))
    (h' : m' s' = .ok (a', t')) (hR : R a t a' t') : Sim m m' s s' R :=
  .inl ⟨a, t, a', t', h, h', hR⟩

theorem sim_of_error {e : E} {e' : E'} (h : m s = .error e) (h' : m' s' = .error e') :
    Sim m m' s s' R :=
  .inr ⟨e, e', h, h'⟩

/-- **Sequences of programs in lockstep** are in lockstep. -/
theorem Sim.bind {f : α → Prog E S β} {f' : α' → Prog E' S' β'}
    {R : β → S → β' → S' → Prop}
    (h : Sim m m' s s' fun a t a' t' => Sim (f a) (f' a') t t' R) :
    Sim (m >>= f) (m' >>= f') s s' R := by
  obtain ⟨a, t, a', t', hm, hm', hR⟩ | ⟨e, e', hm, hm'⟩ := h
  · unfold Sim
    rw [bind_of_ok hm, bind_of_ok hm']
    exact hR
  · exact sim_of_error (bind_of_error hm) (bind_of_error hm')

theorem Sim.mono (h : Sim m m' s s' R) (hR : ∀ a t a' t', R a t a' t' → R' a t a' t') :
    Sim m m' s s' R' := by
  obtain ⟨a, t, a', t', hm, hm', h⟩ | h := h
  · exact sim_of_ok hm hm' (hR a t a' t' h)
  · exact .inr h

theorem Sim.and_ends {P' : E' → Prop} {Q : α' → S' → Prop} (h : Sim m m' s s' R)
    (h' : Ends m' s' P' Q) : Sim m m' s s' fun a t a' t' => R a t a' t' ∧ Q a' t' := by
  obtain ⟨a, t, a', t', hm, hm', hR⟩ | h := h
  · exact sim_of_ok hm hm' ⟨hR, h'.of_ok hm'⟩
  · exact .inr h

/-- **What the second program does, the first does too.** -/
theorem Sim.ends {P' : E' → Prop} {Q : α' → S' → Prop} (h : Sim m m' s s' R)
    (h' : Ends m' s' P' Q) :
    Ends m s (fun _ => ∃ e', P' e') fun a t => ∃ a' t', R a t a' t' ∧ Q a' t' := by
  obtain ⟨a, t, a', t', hm, hm', hR⟩ | ⟨e, e', hm, hm'⟩ := h
  · exact ends_of_ok hm ⟨a', t', hR, h'.of_ok hm'⟩
  · unfold Ends
    rw [hm]
    exact ⟨e', h'.of_error hm'⟩

end Sim

end Prog
