import Mathlib

/-!
# Copying memory whose ranges overlap

The kernel (`kernel/string.c`) and the user library (`user/ulib.c`) each have
a `memmove`. Both copy byte by byte, upwards or downwards, and choose the
direction by different tests. A copy is right if it reads no byte that it has
written before (`copyUp_moved`, `copyDown_moved`), and each test makes sure of
that for its own direction.

Addresses are numbers: ranges that do not wrap need no modulus.
-/

open Function

namespace Xv6.Memmove

/-- The bytes of memory, by address. -/
abbrev Memory : Type := ℕ → UInt8

/-- `while(n-- > 0) *d++ = *s++;` -/
def copyUp (m : Memory) (d s : ℕ) : ℕ → Memory
  | 0 => m
  | n + 1 => copyUp (update m d (m s)) (d + 1) (s + 1) n

/-- `while(n-- > 0) *--d = *--s;` -/
def copyDown (m : Memory) (d s : ℕ) : ℕ → Memory
  | 0 => m
  | n + 1 => copyDown (update m (d - 1) (m (s - 1))) (d - 1) (s - 1) n

/-- `memmove` of the kernel, whose length is a `uint`. -/
def memmove (m : Memory) (dst src : ℕ) (n : UInt32) : Memory × ℕ :=
  if n = 0 then (m, dst)
  else if src < dst ∧ src + n.toNat > dst then
    (copyDown m (dst + n.toNat) (src + n.toNat) n.toNat, dst)
  else (copyUp m dst src n.toNat, dst)

/-- `memmove` of the user library, whose length is an `int`: a negative one copies nothing. -/
def ulibMemmove (m : Memory) (vdst vsrc : ℕ) (n : Int32) : Memory × ℕ :=
  if vsrc > vdst then (copyUp m vdst vsrc n.toInt.toNat, vdst)
  else
    (copyDown m ((vdst : ℤ) + n.toInt).toNat ((vsrc : ℤ) + n.toInt).toNat n.toInt.toNat, vdst)

/-- **A copy as if through a temporary**: the destination has the bytes that the source had, and
every other byte is as it was. -/
def moved (m : Memory) (dst src n : ℕ) : Memory :=
  fun a => if dst ≤ a ∧ a < dst + n then m (src + (a - dst)) else m a

variable {m : Memory} {dst src n : ℕ}

/-- **Copying upwards is right** if no byte is written before it is read. -/
theorem copyUp_moved (hsafe : dst ≤ src ∨ src + n ≤ dst) :
    copyUp m dst src n = moved m dst src n := by
  induction n generalizing m dst src with
  | zero =>
    funext a
    exact (if_neg (by omega)).symm
  | succ n ih =>
    rw [copyUp, ih (by omega)]
    funext a
    unfold moved
    -- the first byte was written before the rest, and is not read any more
    split_ifs with h₁ h₂ h₂
    · rw [update_of_ne (by omega)]
      congr 1
      omega
    · omega
    · obtain rfl : a = dst := by omega
      rw [update_self, Nat.sub_self, Nat.add_zero]
    · exact update_of_ne (by omega) _ _

/-- **Copying downwards is right** if no byte is written before it is read. -/
theorem copyDown_moved (hsafe : src ≤ dst) :
    copyDown m (dst + n) (src + n) n = moved m dst src n := by
  induction n generalizing m with
  | zero =>
    funext a
    exact (if_neg (by omega)).symm
  | succ n ih =>
    rw [copyDown, Nat.add_succ_sub_one, Nat.add_succ_sub_one, ih]
    funext a
    unfold moved
    split_ifs with h₁ h₂ h₂
    · exact update_of_ne (by omega) _ _
    · omega
    · obtain rfl : a = dst + n := by omega
      rw [update_self, Nat.add_sub_cancel_left]
    · exact update_of_ne (by omega) _ _

/-- **Both functions copy as if through a temporary**, and so they agree with each other. -/
theorem memmove_as_if_temporary (m : Memory) (dst src : ℕ) :
    (∀ n : UInt32, memmove m dst src n = (moved m dst src n.toNat, dst)) ∧
    (∀ n : Int32, ulibMemmove m dst src n = (moved m dst src n.toInt.toNat, dst)) ∧
    ∀ (k : UInt32) (n : Int32), (k.toNat : ℤ) = n.toInt →
      ulibMemmove m dst src n = memmove m dst src k := by
  have hkernel : ∀ n : UInt32, memmove m dst src n = (moved m dst src n.toNat, dst) := by
    intro n
    unfold memmove
    split_ifs with h0 hdown
    · subst h0
      exact Prod.ext (copyUp_moved (n := 0) (le_total dst src)) rfl
    · rw [copyDown_moved hdown.1.le]
    · rw [copyUp_moved (by omega)]
  have hulib : ∀ n : Int32, ulibMemmove m dst src n = (moved m dst src n.toInt.toNat, dst) := by
    intro n
    unfold ulibMemmove
    split_ifs with hup
    · rw [copyUp_moved (.inl hup.le)]
    · obtain ⟨k, hk | hk⟩ := n.toInt.eq_nat_or_neg
      · rw [hk, Int.toNat_natCast, ← copyDown_moved (not_lt.mp hup)]
        rfl
      · have hnone : n.toInt.toNat = 0 := Int.toNat_of_nonpos (by omega)
        rw [hnone]
        exact Prod.ext (copyUp_moved (n := 0) (le_total dst src)) rfl
  refine ⟨hkernel, hulib, fun k n hn => ?_⟩
  rw [hkernel, hulib, ← hn, Int.toNat_natCast]

/-- Three bytes moved up by one. -/
theorem memmove_as_if_temporary_overlap :
    (3 : UInt32).toNat = (3 : Int32).toInt ∧
      ulibMemmove UInt8.ofNat 17 16 3 = memmove UInt8.ofNat 17 16 3 :=
  ⟨by decide, (memmove_as_if_temporary UInt8.ofNat 17 16).2.2 3 3 (by decide)⟩

end Xv6.Memmove
