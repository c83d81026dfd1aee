import Mathlib

/-!
# Queues in a ring, with counters that wrap

A queue between two parties is often kept in a ring of `N` cells with two
counters: `hi`, where the producer writes next, and `lo`, up to where the
consumer has read. The counters are machine words that are never reduced
modulo `N`: the cell of a counter is its remainder (`slot`), and the words
wrap at `2 ^ w`. When `N` divides `2 ^ w` the wrap goes unnoticed.

`contents` reads the queue off the ring and its counters.
-/

namespace RingQueue

open List

variable {α : Type} {w N : ℕ} [NeZero N]

/-- The cell of a counter. -/
def slot (N : ℕ) [NeZero N] (i : BitVec w) : Fin N := Fin.ofNat N i.toNat

/-- **The queue**: what was written and not read yet, oldest first. -/
def contents (cell : Fin N → α) (lo hi : BitVec w) : List α :=
  (range (hi - lo).toNat).map fun j => cell (slot N (lo + BitVec.ofNat w j))

@[simp]
theorem length_contents (cell : Fin N → α) (lo hi : BitVec w) :
    (contents cell lo hi).length = (hi - lo).toNat := by
  simp [contents]

@[simp]
theorem contents_self (cell : Fin N → α) (lo : BitVec w) : contents cell lo lo = [] := by
  simp [contents]

theorem val_slot_add (hN : N ∣ 2 ^ w) (i : BitVec w) (j : ℕ) :
    (slot N (i + BitVec.ofNat w j) : ℕ) = (i.toNat + j) % N := by
  show (i + BitVec.ofNat w j).toNat % N = _
  rw [BitVec.toNat_add, BitVec.toNat_ofNat, Nat.add_mod_mod, Nat.mod_mod_of_dvd _ hN]

/-- A counter is the other one moved on by the distance between them. -/
theorem add_toNat_sub (lo hi : BitVec w) : lo + BitVec.ofNat w (hi - lo).toNat = hi := by
  rw [BitVec.ofNat_toNat, BitVec.setWidth_eq, BitVec.add_comm, BitVec.sub_add_cancel]

/-- **The next cell to be written is not an unread one.** -/
theorem slot_ne (hN : N ∣ 2 ^ w) {lo hi : BitVec w} {j : ℕ} (hj : j < (hi - lo).toNat)
    (hlt : (hi - lo).toNat < N) : slot N (lo + BitVec.ofNat w j) ≠ slot N hi := by
  intro h
  have hval := congrArg Fin.val h
  rw [← add_toNat_sub lo hi, val_slot_add hN, val_slot_add hN] at hval
  have hdvd := (Nat.modEq_iff_dvd' (by omega)).mp (show lo.toNat + j ≡ _ [MOD N] from hval)
  have hle := Nat.le_of_dvd (by omega) hdvd
  omega

theorem slot_notMem (hN : N ∣ 2 ^ w) {lo hi : BitVec w} (hlt : (hi - lo).toNat < N) :
    slot N hi ∉ contents id lo hi := by
  intro h
  obtain ⟨j, hj, heq⟩ := mem_map.mp h
  exact slot_ne hN (mem_range.mp hj) hlt heq

theorem contents_write (hN : N ∣ 2 ^ w) (cell : Fin N → α) {lo hi : BitVec w}
    (hlt : (hi - lo).toNat < N) (a : α) :
    contents (Function.update cell (slot N hi) a) lo hi = contents cell lo hi := by
  unfold contents
  refine map_congr_left (fun j hj => ?_)
  exact Function.update_of_ne (slot_ne hN (mem_range.mp hj) hlt) _ _

theorem toNat_succ_sub {lo hi : BitVec w} (h : (hi - lo).toNat + 1 < 2 ^ w) :
    (hi + 1 - lo).toNat = (hi - lo).toNat + 1 := by
  have hw : 0 < w := by
    refine Nat.pos_of_ne_zero (fun h0 => ?_)
    subst h0
    omega
  have hone : (1 : BitVec w).toNat = 1 := BitVec.toNat_one hw
  rw [show hi + 1 - lo = hi - lo + 1 by ring, BitVec.toNat_add, hone, Nat.mod_eq_of_lt h]

/-- **Put**: moving the upper counter on appends the cell it was at. -/
theorem contents_push (cell : Fin N → α) {lo hi : BitVec w}
    (h : (hi - lo).toNat + 1 < 2 ^ w) :
    contents cell lo (hi + 1) = contents cell lo hi ++ [cell (slot N hi)] := by
  unfold contents
  rw [toNat_succ_sub h, range_succ, map_append, map_singleton, add_toNat_sub]

/-- The distance from a counter that is moved on. -/
theorem toNat_sub_succ {lo hi : BitVec w} (h : lo ≠ hi) :
    (hi - lo).toNat = (hi - (lo + 1)).toNat + 1 := by
  have hpos : (hi - lo).toNat ≠ 0 := by
    intro h0
    refine h ?_
    rw [← add_toNat_sub lo hi, h0]
    simp
  have hlt := (hi - lo).isLt
  have hw : 0 < w := by
    refine Nat.pos_of_ne_zero (fun h0 => ?_)
    subst h0
    omega
  have hone : (1 : BitVec w).toNat = 1 := BitVec.toNat_one hw
  have hle : 1 ≤ hi - lo := by
    rw [BitVec.le_def, hone]
    omega
  rw [show hi - (lo + 1) = hi - lo - 1 by ring, BitVec.toNat_sub_of_le hle, hone]
  omega

/-- **Take**: moving the lower counter on drops the cell it was at. -/
theorem contents_pop (cell : Fin N → α) {lo hi : BitVec w} (h : lo ≠ hi) :
    contents cell lo hi = cell (slot N lo) :: contents cell (lo + 1) hi := by
  unfold contents
  rw [toNat_sub_succ h, range_succ_eq_map, map_cons, map_map]
  refine congrArg₂ cons (by simp) (map_congr_left (fun j _ => ?_))
  have hadd : lo + BitVec.ofNat w (j + 1) = lo + 1 + BitVec.ofNat w j := by
    rw [BitVec.ofNat_add, BitVec.add_comm (BitVec.ofNat w j), BitVec.add_assoc]
    rfl
  exact congrArg (fun i => cell (slot N i)) hadd

/-- **Take back**: the cell put last is the one before the upper counter. -/
theorem contents_unpush (cell : Fin N → α) {lo hi : BitVec w} (h : lo ≠ hi) :
    contents cell lo hi = contents cell lo (hi - 1) ++ [cell (slot N (hi - 1))] := by
  have hlt := (hi - lo).isLt
  rw [toNat_sub_succ h, show hi - (lo + 1) = hi - 1 - lo by ring] at hlt
  have hpush := contents_push cell hlt
  rwa [BitVec.sub_add_cancel] at hpush

end RingQueue
