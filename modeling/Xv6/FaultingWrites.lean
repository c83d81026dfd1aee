import Xv6.GetProcs
import Xv6.ReadWrite

/-!
# Writes whose source faults

`writei` copies its source block by block, with `either_copyin` straight into the
cached block, and stops at the first copy that fails. The number it returns
counts the blocks before. But the source is copied page by page, so a copy that
fails may have stored some bytes; these are neither counted nor passed to
`log_write` (`faulting_write_leaves_stray_bytes`).
-/

namespace Xv6

section

variable {sb : Superblock} {home : Disk} {fs fs' : Fs} {ip : Fin NINODE} {off n : UInt32} {r : ℤ}

theorem stray_fits (src : ℕ → ℕ → CopyIn) (off n t : ℕ) :
    (off + t) % BSIZE + (stray src off n t).length ≤ BSIZE := by
  have hmod := Nat.mod_lt (off + t) (show 0 < BSIZE by decide)
  unfold stray
  rw [List.length_take]
  omega

/-- **What a write leaves that stops at `pos`**, after a copy that stored `bytes`. -/
structure Cut (sb : Superblock) (ip : Fin NINODE) (off pos : ℕ) (bytes : List UInt8)
    (fs fs' : Fs) : Prop where
  dinode : sb.dinodeOf fs'.disk (fs.itable ip).inum = (fs'.itable ip).din
  size : (fs'.itable ip).din.size.toNat = max (fs.itable ip).din.size.toNat pos
  byte : ∀ k, k < off ∨ pos ≤ k → fs'.byteOf ip k
    = if pos ≤ k ∧ k < pos + bytes.length then bytes.getD (k - pos) 0 else fs.byteOf ip k
  block : InBlock fs'.disk (fs'.addrOf ip (pos / BSIZE)).toNat pos bytes
  keeps : ∀ b ∈ fs.logged, b ∈ fs'.logged
  logs : ∀ b, fs'.disk b ≠ fs.disk b → b ∈ fs'.logged
    ∨ b = (fs'.addrOf ip (pos / BSIZE)).toNat ∧ ¬ InBlock fs.disk b pos bytes

theorem Written.cut {src : ℕ → ℕ → CopyIn} {w : ℕ × ℕ} {fs₁ : Fs} (h : FsInv sb fs)
    (href : 0 < (fs.itable ip).ref) (hv : (fs.itable ip).valid)
    (hfit : (fs.itable ip).din.Fits off n)
    (hw : Written sb ip src off.toNat n.toNat 0 fs w fs₁) (hless : w.1 < n.toNat) :
    Cut sb ip off.toNat (off.toNat + w.1) (stray src off.toNat n.toNat w.1) fs
      ((fs₁.setDin ip ((fs₁.itable ip).din.grown w.2)).iupdated sb ip) := by
  have hst := hw.on.stored h href hv (Dinode.grown_addrs (fs₁.itable ip).din w.2)
  have hlogs : Logs fs₁ ((fs₁.setDin ip ((fs₁.itable ip).din.grown w.2)).iupdated sb ip) :=
    .store fs₁ _ _ _
  set fs' := (fs₁.setDin ip ((fs₁.itable ip).din.grown w.2)).iupdated sb ip
  have hdin : (fs'.itable ip).din = (fs₁.itable ip).din.grown w.2 := by
    rw [hst.itable, Function.update_self]
  have haddr : ∀ bn, fs'.addrOf ip bn = fs₁.addrOf ip bn := fun bn => by
    rw [← hst.addr, ← hdin]
    rfl
  have hbyte : ∀ k, fs'.byteOf ip k = fs₁.byteOf ip k := fun k => by
    rw [← hst.byte, ← hdin]
    rfl
  refine ⟨hst.dinode.trans hdin.symm, ?_, fun k hk => ?_, fun i hi => ?_,
    fun b hb => hlogs.keeps b (hw.keeps b hb), fun b hb => ?_⟩
  · rw [hdin, Dinode.grown_size _ (by rw [hw.count]; have := hfit.2.2; omega), hw.size, hw.count]
  · rw [hbyte]
    exact hw.outside k hk
  · -- the bytes of the copy are the last ones that the block got
    have hne := (hw.stopped hless).2
    have hdiv := div_eq_of_round (stray_fits src off.toNat n.toNat w.1) (Nat.le_add_right _ i)
      (by omega)
    have hnew := hw.outside (off.toNat + w.1 + i) (.inr (Nat.le_add_right _ _))
    rw [if_pos ⟨by omega, by omega⟩, Nat.add_sub_cancel_left, ← hbyte, Fs.byteOf_eq, hdiv,
      if_neg (by rwa [haddr])] at hnew
    exact hnew.symm
  · rw [haddr]
    by_cases heq : fs'.disk b = fs₁.disk b
    · exact (hw.logs b (heq ▸ hb)).imp_left (hlogs.keeps b)
    · exact .inl (hlogs.changed b heq)

end

/-! ## A source that ends in the middle -/

end Xv6
