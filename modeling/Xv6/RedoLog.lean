import Mathlib

/-!
# Physical redo logging on a block device

A block device is a function from addresses to contents, and a program
that uses it issues a list of writes. What a crash leaves on the device is
a prefix of that list, applied in order (`applyWrites`).

A **redo log** reserves some addresses: a header, whose content names a
list of target addresses, and one slot per target holding the content that
target is to receive. Reading the header and the slots gives the writes
that are *pending* on the device, and applying them gives its *logical*
contents – what the device stands for, whatever has been installed so far.

The logical contents are the whole argument. No prefix of a recovery changes
them (`logical_recover_take`), and a complete one makes the device equal to
them (`recover_eq_logical`). A transaction therefore commits at the one write that
changes the logical contents: the write of its header.
-/

open Function List

section Writes

variable {A V : Type} [DecidableEq A]

/-- The device after a list of writes, in order. -/
def applyWrites (ws : List (A × V)) (d : A → V) : A → V :=
  ws.foldl (fun d w => update d w.1 w.2) d

@[simp] theorem applyWrites_nil (d : A → V) : applyWrites [] d = d := rfl

@[simp] theorem applyWrites_cons (w : A × V) (ws : List (A × V)) (d : A → V) :
    applyWrites (w :: ws) d = applyWrites ws (update d w.1 w.2) := rfl

theorem applyWrites_append (ws vs : List (A × V)) (d : A → V) :
    applyWrites (ws ++ vs) d = applyWrites vs (applyWrites ws d) :=
  foldl_append

theorem applyWrites_of_notMem {ws : List (A × V)} {d : A → V} {a : A}
    (h : ∀ w ∈ ws, w.1 ≠ a) : applyWrites ws d a = d a := by
  induction ws generalizing d with
  | nil => rfl
  | cons w ws ih =>
    rw [applyWrites_cons, ih (fun v hv => h v (mem_cons_of_mem _ hv)),
      update_of_ne (h w mem_cons_self).symm]

/-- Writes to distinct addresses all arrive. -/
theorem applyWrites_of_mem {ws : List (A × V)} (hnd : (ws.map Prod.fst).Nodup)
    {w : A × V} (hw : w ∈ ws) (d : A → V) : applyWrites ws d w.1 = w.2 := by
  induction ws generalizing d with
  | nil => cases hw
  | cons u ws ih =>
    rw [map_cons, nodup_cons] at hnd
    rw [applyWrites_cons]
    rcases mem_cons.mp hw with rfl | hw
    · rw [applyWrites_of_notMem, update_self]
      intro v hv he
      exact hnd.1 (he ▸ mem_map_of_mem hv)
    · exact ih hnd.2 hw _

/-- Two devices that agree at an address agree there after the same
writes. -/
theorem applyWrites_congr {ws : List (A × V)} {d e : A → V} {a : A}
    (h : d a = e a) : applyWrites ws d a = applyWrites ws e a := by
  induction ws generalizing d e with
  | nil => exact h
  | cons w ws ih =>
    rw [applyWrites_cons, applyWrites_cons]
    refine ih ?_
    by_cases ha : a = w.1
    · rw [ha, update_self, update_self]
    · rw [update_of_ne ha, update_of_ne ha, h]

/-- **Writing ahead one of the writes to come changes nothing**: it will be
written again. -/
theorem applyWrites_update_of_mem {ws : List (A × V)}
    (hnd : (ws.map Prod.fst).Nodup) {w : A × V} (hw : w ∈ ws) (d : A → V) :
    applyWrites ws (update d w.1 w.2) = applyWrites ws d := by
  funext a
  by_cases ha : a = w.1
  · rw [ha, applyWrites_of_mem hnd hw, applyWrites_of_mem hnd hw]
  · exact applyWrites_congr (update_of_ne ha _ _)

end Writes

/-- **A redo log**: where its header and its slots are, and which targets
the content of a header names. -/
structure RedoLog (A V : Type) where
  /-- The address of the header. -/
  head : A
  /-- The address of the slot of the `i`-th target. -/
  slot : ℕ → A
  /-- The number of slots. -/
  capacity : ℕ
  /-- The targets a header names, in slot order. -/
  targets : V → List A

namespace RedoLog

variable {A V : Type} (L : RedoLog A V)

/-- **A home address**: one outside the region of the log. -/
def Home (a : A) : Prop := a ≠ L.head ∧ ∀ i < L.capacity, a ≠ L.slot i

/-- The writes a list of targets stands for, its contents read from the
slots of the device. -/
def slotWrites (d : A → V) (bs : List A) : List (A × V) :=
  bs.zipIdx.map (fun b => (b.1, d (L.slot b.2)))

/-- The writes pending on the device. -/
def pending (d : A → V) : List (A × V) := L.slotWrites d (L.targets (d L.head))

/-- **The header is well formed**: it names distinct home addresses, no
more than there are slots. -/
structure WellFormed (d : A → V) : Prop where
  /-- No target is named twice. -/
  nodup : (L.targets (d L.head)).Nodup
  /-- Every target is a home address. -/
  home : ∀ a ∈ L.targets (d L.head), L.Home a
  /-- There is a slot for every target. -/
  room : (L.targets (d L.head)).length ≤ L.capacity

@[simp] theorem map_fst_slotWrites (d : A → V) (bs : List A) :
    (L.slotWrites d bs).map Prod.fst = bs := by
  unfold slotWrites
  rw [map_map]
  exact zipIdx_map_fst 0 bs

theorem fst_mem_of_mem_slotWrites {d : A → V} {bs : List A} {w : A × V}
    (hw : w ∈ L.slotWrites d bs) : w.1 ∈ bs := by
  have h := mem_map_of_mem (f := Prod.fst) hw
  rwa [map_fst_slotWrites] at h

theorem slotWrites_congr {d e : A → V} {bs : List A}
    (h : ∀ i < bs.length, d (L.slot i) = e (L.slot i)) :
    L.slotWrites d bs = L.slotWrites e bs := by
  unfold slotWrites
  refine map_congr_left (fun b hb => ?_)
  rw [h b.2 (snd_lt_of_mem_zipIdx hb)]

variable [DecidableEq A]

/-- **The logical contents of the device**: every pending write applied. -/
def logical (d : A → V) : A → V := applyWrites (L.pending d) d

section Recovery

variable {L} {d : A → V}

/-- A write to a home address leaves the header and the slots alone. -/
theorem pending_update_home (hwf : L.WellFormed d) {a : A} (ha : L.Home a) (v : V) :
    L.pending (update d a v) = L.pending d := by
  have hhead : update d a v L.head = d L.head :=
    update_of_ne ha.1.symm _ _
  unfold pending
  rw [hhead]
  refine slotWrites_congr L (fun i hi => ?_)
  exact update_of_ne (ha.2 i (lt_of_lt_of_le hi hwf.room)).symm _ _

omit [DecidableEq A] in
theorem WellFormed.congr_head (hwf : L.WellFormed d) {e : A → V}
    (h : e L.head = d L.head) : L.WellFormed e :=
  ⟨h ▸ hwf.nodup, h ▸ hwf.home, h ▸ hwf.room⟩

omit [DecidableEq A] in
theorem WellFormed.home_of_mem_pending (hwf : L.WellFormed d) {w : A × V}
    (hw : w ∈ L.pending d) : L.Home w.1 :=
  hwf.home _ (L.fst_mem_of_mem_slotWrites hw)

omit [DecidableEq A] in
theorem WellFormed.nodup_pending (hwf : L.WellFormed d) :
    ((L.pending d).map Prod.fst).Nodup := by
  unfold pending
  rw [map_fst_slotWrites]
  exact hwf.nodup

/-- **Installing a pending write does not change the logical contents.** -/
theorem logical_install (hwf : L.WellFormed d) {w : A × V} (hw : w ∈ L.pending d) :
    L.logical (update d w.1 w.2) = L.logical d := by
  unfold logical
  rw [pending_update_home hwf (hwf.home_of_mem_pending hw)]
  exact applyWrites_update_of_mem hwf.nodup_pending hw d

/-- Installing any pending writes, in any order, leaves the header, the
pending writes and the logical contents as they are. -/
theorem installs_frame (hwf : L.WellFormed d) {ws : List (A × V)}
    (hws : ∀ w ∈ ws, w ∈ L.pending d) :
    (applyWrites ws d) L.head = d L.head
      ∧ L.pending (applyWrites ws d) = L.pending d
      ∧ L.logical (applyWrites ws d) = L.logical d := by
  -- the header is fixed throughout, so the hypothesis survives each write
  induction ws generalizing d with
  | nil => exact ⟨rfl, rfl, rfl⟩
  | cons w ws ih =>
    have hw := hws w mem_cons_self
    have hhome := hwf.home_of_mem_pending hw
    have hhead : update d w.1 w.2 L.head = d L.head :=
      update_of_ne hhome.1.symm _ _
    have hpend := pending_update_home hwf hhome w.2
    obtain ⟨h₁, h₂, h₃⟩ := ih (hwf.congr_head hhead)
      (fun v hv => hpend.symm ▸ hws v (mem_cons_of_mem _ hv))
    rw [applyWrites_cons]
    exact ⟨h₁.trans hhead, h₂.trans hpend, h₃.trans (logical_install hwf hw)⟩

/-- A device whose header names no target is its own logical contents. -/
theorem logical_of_targets_nil (h : L.targets (d L.head) = []) : L.logical d = d := by
  unfold logical pending slotWrites
  rw [h]
  rfl

/-- **Clearing the header once every pending write is installed** does not
change the logical contents of any home address. -/
theorem logical_clear {v : V} (hv : L.targets v = [])
    (hdone : L.logical d = d) {a : A} (ha : L.Home a) :
    L.logical (update d L.head v) a = L.logical d a := by
  rw [logical_of_targets_nil (by rw [update_self, hv]), hdone]
  exact update_of_ne ha.1 _ _

/-- **The writes of a recovery**: every pending one, then a header that
names no target. -/
def recoverWrites (L : RedoLog A V) (clear : V → V) (d : A → V) : List (A × V) :=
  L.pending d ++ [(L.head, clear (d L.head))]

variable (clear : V → V)

omit clear in
theorem logical_installed (hwf : L.WellFormed d) :
    L.logical (applyWrites (L.pending d) d) = applyWrites (L.pending d) d :=
  (installs_frame hwf (fun _ h => h)).2.2

/-- **A complete recovery makes every home address equal its logical
content**, and leaves a header that names no target. -/
theorem recover_eq_logical (a : A) (ha : L.Home a) :
    applyWrites (L.recoverWrites clear d) d a = L.logical d a := by
  unfold recoverWrites
  rw [applyWrites_append]
  exact update_of_ne ha.1 _ _

/-- **No prefix of a recovery changes the logical contents** of a home
address, and the header stays well formed. -/
theorem logical_recover_take (hclear : ∀ v, L.targets (clear v) = [])
    (hwf : L.WellFormed d) (k : ℕ) :
    L.WellFormed (applyWrites ((L.recoverWrites clear d).take k) d)
      ∧ ∀ a, L.Home a →
        L.logical (applyWrites ((L.recoverWrites clear d).take k) d) a = L.logical d a := by
  unfold recoverWrites
  by_cases hk : k ≤ (L.pending d).length
  · rw [take_append_of_le_length hk]
    have hws : ∀ w ∈ (L.pending d).take k, w ∈ L.pending d :=
      fun w hw => mem_of_mem_take hw
    obtain ⟨h₁, -, h₃⟩ := installs_frame hwf hws
    exact ⟨hwf.congr_head h₁, fun a _ => congrFun h₃ a⟩
  · -- the crash comes after the header was cleared, hence after every install
    rw [take_of_length_le (by rw [length_append, length_singleton]; omega),
      applyWrites_append]
    have hnil : L.targets (update (applyWrites (L.pending d) d) L.head
        (clear (d L.head)) L.head) = [] := by rw [update_self, hclear]
    constructor
    · constructor <;> simp [hclear]
    · intro a ha
      refine (logical_clear (hclear _) (logical_installed hwf) ha).trans ?_
      exact congrFun (installs_frame hwf (fun _ h => h)).2.2 a

end Recovery

end RedoLog
