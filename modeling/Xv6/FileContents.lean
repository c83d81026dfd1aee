import Xv6.BlockOwnership

/-!
# The contents of a file

A file is an array of bytes; `fs.c` keeps it in blocks that `bmap` finds. The
address of the `bn`-th block is in the inode or in the indirect block
(`blockAddr`), and the byte at offset `k` is in block `k / BSIZE` of the file
(`fileByte`); where a block is missing, the file reads as zeros.

In these terms `bmap` does nothing: a block it adds is zeroed, and stands where
there was none (`bmap_grows`). A round of `writei` replaces the bytes it copies
and no others (`Grows.round`), because no two blocks of a file have the same
address. When the copy of a round fails, what it copied before is in the file all
the same, and it is not in the log (`stray`).
-/

open Function (update update_of_ne update_self)

open Prog hiding get modify panic result

namespace Xv6

open Pool Finset Nat

/-! ## Addresses and bytes -/

/-- The address of the `bn`-th block of a file, zero if there is none. -/
def blockAddr (mem : ℕ → Block) (addrs : Fin (NDIRECT + 1) → UInt32) (bn : ℕ) : UInt32 :=
  if h : bn < NDIRECT then addrs (Fin.castSucc ⟨bn, h⟩)
  else if bn < MAXFILE ∧ addrs (Fin.last NDIRECT) ≠ 0 then
    word (mem (addrs (Fin.last NDIRECT)).toNat) (bn - NDIRECT)
  else 0

/-- The byte at an offset of a file. -/
def fileByte (mem : ℕ → Block) (addrs : Fin (NDIRECT + 1) → UInt32) (k : ℕ) : UInt8 :=
  if blockAddr mem addrs (k / BSIZE) = 0 then 0
  else (mem (blockAddr mem addrs (k / BSIZE)).toNat).byteAt (k % BSIZE)

/-- The blocks that a write to the blocks from `lo` up to `hi` allocates: a file has
at most `MAXFILE`. -/
def missing (mem : ℕ → Block) (addrs : Fin (NDIRECT + 1) → UInt32) (lo hi : ℕ) : ℕ :=
  ((Finset.Ico lo (min hi MAXFILE)).filter fun bn => blockAddr mem addrs bn = 0).card
    + if addrs (Fin.last NDIRECT) = 0 ∧ NDIRECT < hi then 1 else 0

section Addresses

variable {mem mem' : ℕ → Block} {addrs : Fin (NDIRECT + 1) → UInt32} {bn : ℕ}

theorem blockAddr_direct (h : bn < NDIRECT) :
    blockAddr mem addrs bn = addrs (Fin.castSucc ⟨bn, h⟩) := dif_pos h

theorem blockAddr_indirect (h : NDIRECT ≤ bn) (hbn : bn < MAXFILE)
    (hlast : addrs (Fin.last NDIRECT) ≠ 0) :
    blockAddr mem addrs bn = word (mem (addrs (Fin.last NDIRECT)).toNat) (bn - NDIRECT) := by
  unfold blockAddr
  rw [dif_neg (by omega), if_pos ⟨hbn, hlast⟩]

theorem blockAddr_no_indirect (h : NDIRECT ≤ bn) (hlast : addrs (Fin.last NDIRECT) = 0) :
    blockAddr mem addrs bn = 0 := by
  unfold blockAddr
  rw [dif_neg (by omega), if_neg fun hc => hc.2 hlast]

theorem lt_of_blockAddr_ne (h : blockAddr mem addrs bn ≠ 0) : bn < MAXFILE := by
  unfold blockAddr at h
  split at h
  · rename_i hlt
    exact lt_of_lt_of_le hlt (le_add_right _ _)
  · split at h
    · rename_i hc
      exact hc.1
    · exact absurd rfl h

theorem blockAddr_congr
    (h : addrs (Fin.last NDIRECT) ≠ 0 →
      mem' (addrs (Fin.last NDIRECT)).toNat = mem (addrs (Fin.last NDIRECT)).toNat) (bn : ℕ) :
    blockAddr mem' addrs bn = blockAddr mem addrs bn := by
  unfold blockAddr
  split
  · rfl
  · split
    · rename_i hc
      rw [h hc.2]
    · rfl

/-- **The blocks of a file are those with an address.** -/
theorem fileBlocks_eq_sum (mem : ℕ → Block) (addrs : Fin (NDIRECT + 1) → UInt32) :
    fileBlocks mem addrs = ∑ bn ∈ range MAXFILE, ptr (blockAddr mem addrs bn) := by
  unfold fileBlocks MAXFILE
  rw [sum_range_add (fun bn => ptr (blockAddr mem addrs bn)),
    sum_range (fun bn => ptr (blockAddr mem addrs bn))]
  refine congrArg₂ (· + ·) ?_ ?_
  · refine sum_congr rfl fun i _ => ?_
    rw [blockAddr_direct i.isLt]
  · by_cases hlast : addrs (Fin.last NDIRECT) = 0
    · rw [hlast, entries_zero]
      refine (sum_eq_zero fun j _ => ?_).symm
      rw [blockAddr_no_indirect (le_add_right _ _) hlast, ptr_zero]
    · rw [entries_of_ne hlast]
      refine sum_congr rfl fun j hj => ?_
      rw [blockAddr_indirect (Nat.le_add_right _ _)
        (Nat.add_lt_add_left (mem_range.mp hj) _) hlast, Nat.add_sub_cancel_left]

theorem mem_fileBlocks_of_blockAddr (h : blockAddr mem addrs bn ≠ 0) :
    (blockAddr mem addrs bn).toNat ∈ fileBlocks mem addrs := by
  rw [fileBlocks_eq_sum]
  refine Multiset.mem_of_le (single_le_sum (f := fun bn => ptr (blockAddr mem addrs bn))
    (fun _ _ => zero_le) (mem_range.mpr (lt_of_blockAddr_ne h))) ?_
  show _ ∈ ptr _
  rw [ptr_of_ne h]
  exact Multiset.mem_singleton_self _

/-- **No two blocks of a file are the same block** if none is named twice. -/
theorem blockAddr_inj (hnodup : (fileBlocks mem addrs).Nodup) {bn' : ℕ}
    (h : blockAddr mem addrs bn ≠ 0) (heq : blockAddr mem addrs bn' = blockAddr mem addrs bn) :
    bn' = bn := by
  by_contra hne
  rw [fileBlocks_eq_sum] at hnodup
  have hdisjoint := disjoint_of_nodup_sum hnodup
    (mem_range.mpr (lt_of_blockAddr_ne (heq ▸ h : blockAddr mem addrs bn' ≠ 0)))
    (mem_range.mpr (lt_of_blockAddr_ne h)) hne
  rw [heq, ptr_of_ne h] at hdisjoint
  exact Multiset.disjoint_left.mp hdisjoint (Multiset.mem_singleton_self _)
    (Multiset.mem_singleton_self _)

/-- A direct address set. -/
theorem blockAddr_setAddr_castSucc {i : Fin NDIRECT} {a : UInt32}
    (h : addrs (Fin.last NDIRECT) ≠ 0 →
      mem' (addrs (Fin.last NDIRECT)).toNat = mem (addrs (Fin.last NDIRECT)).toNat) (bn : ℕ) :
    blockAddr mem' (update addrs i.castSucc a) bn
      = if bn = i then a else blockAddr mem addrs bn := by
  have hlast : update addrs i.castSucc a (Fin.last NDIRECT) = addrs (Fin.last NDIRECT) :=
    update_of_ne (Fin.castSucc_ne_last i).symm _ _
  by_cases hbn : bn = i
  · subst hbn
    rw [if_pos rfl, blockAddr_direct i.isLt]
    exact update_self _ _ _
  · rw [if_neg hbn, ← blockAddr_congr h bn]
    unfold blockAddr
    rw [hlast]
    split
    · rename_i hlt
      refine update_of_ne (fun heq => hbn ?_) _ _
      exact congrArg Fin.val (Fin.castSucc_injective _ heq)
    · rfl

theorem blockAddr_setAddr_last {a : UInt32} (hlast : addrs (Fin.last NDIRECT) = 0)
    (hzero : mem' a.toNat = .fill BSIZE 0) (bn : ℕ) :
    blockAddr mem' (update addrs (Fin.last NDIRECT) a) bn = blockAddr mem addrs bn := by
  by_cases hdirect : bn < NDIRECT
  · rw [blockAddr_direct hdirect, blockAddr_direct hdirect]
    exact update_of_ne (Fin.castSucc_ne_last _) _ _
  · rw [blockAddr_no_indirect (by omega) hlast]
    unfold blockAddr
    rw [dif_neg hdirect, update_self]
    split
    · unfold word
      rw [hzero, Bytes.getLE_fill_zero]
      rfl
    · rfl

/-- An address stored in the indirect block. -/
theorem blockAddr_setLE {j b : ℕ} (hj : j < NINDIRECT) (hb : b < 2 ^ 32)
    (hlast : addrs (Fin.last NDIRECT) ≠ 0)
    (hmem : mem' (addrs (Fin.last NDIRECT)).toNat
      = (mem (addrs (Fin.last NDIRECT)).toNat).setLE (4 * j) 4 b) (bn : ℕ) :
    blockAddr mem' addrs bn
      = if bn = NDIRECT + j then UInt32.ofNat b else blockAddr mem addrs bn := by
  unfold blockAddr
  by_cases hdirect : bn < NDIRECT
  · rw [dif_pos hdirect, dif_pos hdirect, if_neg (by omega)]
  · rw [dif_neg hdirect, dif_neg hdirect, hmem]
    by_cases hbn : bn = NDIRECT + j
    · subst hbn
      rw [if_pos rfl, if_pos ⟨Nat.add_lt_add_left hj _, hlast⟩, Nat.add_sub_cancel_left,
        word_setLE_self _ hj hb]
    · rw [if_neg hbn, word_setLE_of_ne _ (by omega)]

end Addresses

/-! ## The file in an entry of the inode table -/

section Entry

variable (fs : Fs) (ip : Fin NINODE)

/-- The address of a block of the file in an entry. -/
def Fs.addrOf (bn : ℕ) : UInt32 := blockAddr fs.disk (fs.itable ip).din.addrs bn

/-- A byte of the file in an entry. -/
def Fs.byteOf (k : ℕ) : UInt8 := fileByte fs.disk (fs.itable ip).din.addrs k

/-- The blocks that a write to the file in an entry allocates. -/
def Fs.missingOf (lo hi : ℕ) : ℕ := missing fs.disk (fs.itable ip).din.addrs lo hi

theorem Fs.byteOf_eq (k : ℕ) :
    fs.byteOf ip k = if fs.addrOf ip (k / BSIZE) = 0 then 0
      else (fs.disk (fs.addrOf ip (k / BSIZE)).toNat).byteAt (k % BSIZE) := rfl

/-- The number of free data blocks. -/
def Fs.nfree (sb : Superblock) (fs : Fs) : ℕ := (sb.pool fs.disk).free.length

end Entry

section Grow

variable {sb : Superblock} {fs fs' fs'' : Fs} {ip : Fin NINODE} {bn : ℕ}

theorem Owner.fileBlocks_disk (ho : Owner sb fs ip) :
    fileBlocks fs.disk (fs.itable ip).din.addrs
      = fileBlocks (sb.pool fs.disk).mem (fs.itable ip).din.addrs := by
  unfold fileBlocks
  rw [entries_congr fun h => ?_]
  exact (pool_mem_of_le (mem_Ico.mp (ho.holds.mem (last_mem_blocks _ _ h))).1).symm

theorem Owner.addr_mem (ho : Owner sb fs ip) (h : fs.addrOf ip bn ≠ 0) :
    (fs.addrOf ip bn).toNat ∈ fileBlocks (sb.pool fs.disk).mem (fs.itable ip).din.addrs := by
  rw [← ho.fileBlocks_disk]
  exact mem_fileBlocks_of_blockAddr h

theorem Owner.addr_inj (ho : Owner sb fs ip) {bn' : ℕ} (h : fs.addrOf ip bn ≠ 0)
    (heq : fs.addrOf ip bn' = fs.addrOf ip bn) : bn' = bn := by
  refine blockAddr_inj ?_ h heq
  rw [ho.fileBlocks_disk]
  exact (Multiset.nodup_add.mp (Multiset.nodup_add.mp ho.holds.nodup).2.1).2.1

theorem Owner.keep (ho : Owner sb fs ip) {b c : ℕ} (hmoves : Moves sb fs fs' 0 {b})
    (hc : c ∈ fs.blocksOf sb ip) : fs'.disk c = fs.disk c := by
  have hle := (mem_Ico.mp (ho.holds.mem hc)).1
  have h := hmoves.exchange.keep (R := 0) (by rw [zero_add]; exact ho.holds) hc
  rwa [pool_mem_of_le hle, pool_mem_of_le hle] at h

theorem Moves.nfree {b : ℕ} (h : Moves sb fs fs' 0 {b}) : fs'.nfree sb + 1 = fs.nfree sb := by
  have hcard := congrArg Multiset.card h.exchange.conserve
  unfold Fs.nfree
  simpa using hcard

/-- **The file grows, and its contents stay**: blocks were added, at most those
that a write to the block `bn` needs. -/
structure Grows (sb : Superblock) (ip : Fin NINODE) (bn : ℕ) (fs fs' : Fs) : Prop where
  on : OnInode sb ip fs fs'
  size : (fs'.itable ip).din.size = (fs.itable ip).din.size
  addr : ∀ bn', fs.addrOf ip bn' ≠ 0 → fs'.addrOf ip bn' = fs.addrOf ip bn'
  only : ∀ bn', bn' ≠ bn → fs'.addrOf ip bn' = fs.addrOf ip bn'
  byte : ∀ k, fs'.byteOf ip k = fs.byteOf ip k
  cost : ∀ lo hi, lo ≤ bn → bn < hi →
    fs'.missingOf ip lo hi + fs.nfree sb = fs.missingOf ip lo hi + fs'.nfree sb

theorem Grows.refl (sb : Superblock) (ip : Fin NINODE) (bn : ℕ) (fs : Fs) :
    Grows sb ip bn fs fs :=
  ⟨.refl _ _ _, rfl, fun _ _ => rfl, fun _ _ => rfl, fun _ => rfl, fun _ _ _ _ => rfl⟩

theorem Grows.trans (h : Grows sb ip bn fs fs') (h' : Grows sb ip bn fs' fs'') :
    Grows sb ip bn fs fs'' where
  on := h.on.trans h'.on
  size := h'.size.trans h.size
  addr bn' hne := by
    have heq := h.addr bn' hne
    exact (h'.addr bn' (heq ▸ hne)).trans heq
  only bn' hne := (h'.only bn' hne).trans (h.only bn' hne)
  byte k := (h'.byte k).trans (h.byte k)
  cost lo hi hlo hhi := by
    have h₁ := h.cost lo hi hlo hhi
    have h₂ := h'.cost lo hi hlo hhi
    omega

/-- **A block added where there was none.** -/
theorem Grows.of_new {a : UInt32} (ho : Owner sb fs ip) (hon : OnInode sb ip fs fs')
    (hsize : (fs'.itable ip).din.size = (fs.itable ip).din.size)
    (hold : fs.addrOf ip bn = 0) (ha : a ≠ 0)
    (haddr : ∀ bn', fs'.addrOf ip bn' = if bn' = bn then a else fs.addrOf ip bn')
    (hlast : (fs'.itable ip).din.addrs (Fin.last NDIRECT) = 0
      ↔ (fs.itable ip).din.addrs (Fin.last NDIRECT) = 0)
    (hdata : ∀ c ∈ fileBlocks (sb.pool fs.disk).mem (fs.itable ip).din.addrs,
      fs'.disk c = fs.disk c)
    (hzero : fs'.disk a.toNat = .fill BSIZE 0) (hfree : fs'.nfree sb + 1 = fs.nfree sb) :
    Grows sb ip bn fs fs' where
  on := hon
  size := hsize
  addr bn' hne := by
    rw [haddr, if_neg]
    rintro rfl
    exact hne hold
  only bn' hne := by rw [haddr, if_neg hne]
  byte k := by
    rw [Fs.byteOf_eq, Fs.byteOf_eq, haddr]
    by_cases hk : k / BSIZE = bn
    · rw [if_pos hk, if_neg ha, hk, if_pos hold, hzero, Bytes.byteAt_fill_zero]
    · rw [if_neg hk]
      split
      · rfl
      · rename_i hne
        rw [hdata _ (ho.addr_mem hne)]
  cost lo hi hlo hhi := by
    have hmax : bn < MAXFILE := by
      have hne : fs'.addrOf ip bn ≠ 0 := ne_of_eq_of_ne ((haddr bn).trans (if_pos rfl)) ha
      exact lt_of_blockAddr_ne hne
    have hset : (Finset.Ico lo (min hi MAXFILE)).filter (fun bn' => fs.addrOf ip bn' = 0)
        = insert bn ((Finset.Ico lo (min hi MAXFILE)).filter fun bn' => fs'.addrOf ip bn' = 0) := by
      ext bn'
      rw [mem_filter, mem_insert, mem_filter, haddr, mem_Ico]
      by_cases hbn : bn' = bn
      · simp [hbn, hold, hlo, hhi, hmax]
      · simp [hbn]
    have hnot : bn ∉ (Finset.Ico lo (min hi MAXFILE)).filter fun bn' => fs'.addrOf ip bn' = 0 := by
      rw [mem_filter, haddr, if_pos rfl]
      exact fun h => ha h.2
    have hcard := congrArg card hset
    rw [card_insert_of_notMem hnot] at hcard
    have hind : (if (fs'.itable ip).din.addrs (Fin.last NDIRECT) = 0 ∧ NDIRECT < hi then 1 else 0)
        = if (fs.itable ip).din.addrs (Fin.last NDIRECT) = 0 ∧ NDIRECT < hi then 1 else 0 := by
      simp only [hlast]
    unfold Fs.missingOf missing
    unfold Fs.addrOf at hcard
    rw [hind, hcard]
    omega

/-- **The indirect block added**: the addresses stay as they were. -/
theorem Grows.of_indirect (ho : Owner sb fs ip) (hbn : NDIRECT ≤ bn) {b : ℕ}
    (hlast : (fs.itable ip).din.addrs (Fin.last NDIRECT) = 0) (hdata : b ∈ sb.dataBlocks)
    (hmoves : Moves sb fs fs' 0 {b}) (hzero : fs'.disk b = .fill BSIZE 0)
    (htable : fs'.itable = fs.itable) :
    Grows sb ip bn fs
      (fs'.setDin ip ((fs'.itable ip).din.setAddr (Fin.last NDIRECT) (UInt32.ofNat b))) := by
  obtain ⟨htoNat, hne, -⟩ := addr_of_mem_dataBlocks hdata
  have hon := onInode_setAddr ho hlast hdata hmoves hzero htable
  have hfree := hmoves.nfree
  have hkeep' : ∀ c ∈ fs.blocksOf sb ip, fs'.disk c = fs.disk c := fun c hc => ho.keep hmoves hc
  set fs₂ := fs'.setDin ip ((fs'.itable ip).din.setAddr (Fin.last NDIRECT) (UInt32.ofNat b))
    with hfs₂
  have hdin : (fs₂.itable ip).din
      = (fs.itable ip).din.setAddr (Fin.last NDIRECT) (UInt32.ofNat b) := by
    rw [hfs₂, setDin_self, htable]
  have haddr : ∀ bn', fs₂.addrOf ip bn' = fs.addrOf ip bn' := by
    intro bn'
    unfold Fs.addrOf
    rw [hdin]
    exact blockAddr_setAddr_last hlast (by rw [htoNat]; exact hzero) bn'
  have hkeep : ∀ c ∈ fs.blocksOf sb ip, fs₂.disk c = fs.disk c := hkeep'
  refine ⟨hon, by rw [hdin]; rfl, fun bn' _ => haddr bn', fun bn' _ => haddr bn', fun k => ?_,
    fun lo hi _ hhi => ?_⟩
  · rw [Fs.byteOf_eq, Fs.byteOf_eq, haddr]
    split
    · rfl
    · rename_i hk
      rw [hkeep _ (Multiset.mem_add.mpr (.inr (ho.addr_mem hk)))]
  · have hlast₂ : (fs₂.itable ip).din.addrs (Fin.last NDIRECT) ≠ 0 := by
      rw [hdin, Dinode.setAddr_self]
      exact hne
    have hsame : (Finset.Ico lo (min hi MAXFILE)).filter (fun bn' => fs₂.addrOf ip bn' = 0)
        = (Finset.Ico lo (min hi MAXFILE)).filter fun bn' => fs.addrOf ip bn' = 0 := by
      simp only [haddr]
    have hfree₂ : fs₂.nfree sb + 1 = fs.nfree sb := hfree
    unfold Fs.missingOf missing
    unfold Fs.addrOf at hsame
    rw [hsame, if_neg fun hc => hlast₂ hc.1, if_pos ⟨hlast, by omega⟩]
    omega

/-- **What a slot of `addrs` holds afterwards** is the block returned, and the
file has the contents it had. -/
theorem slotBlock_grows (ho : Owner sb fs ip) (k : Fin (NDIRECT + 1))
    (hk : k = Fin.last NDIRECT ∧ NDIRECT ≤ bn ∨ k.val = bn ∧ bn < NDIRECT) {P : FsPanic → Prop}
    (hP : fs.nfree sb < fs.missingOf ip bn (bn + 1) → P .ballocOutOfBlocks) :
    Ends (slotBlock sb ip k) fs P fun b fs' =>
      Grows sb ip bn fs fs' ∧ (fs'.itable ip).din.addrs k ≠ 0
      ∧ ((fs'.itable ip).din.addrs k).toNat = b
      ∧ ((fs.itable ip).din.addrs k ≠ 0 → fs' = fs) := by
  unfold slotBlock
  refine ends_bind (getInode_ends ?_)
  split <;> rename_i hzero
  · have hneed : 0 < fs.missingOf ip bn (bn + 1) := by
      unfold Fs.missingOf missing
      obtain ⟨rfl, hbn⟩ | ⟨hval, hbn⟩ := hk
      · rw [if_pos ⟨hzero, by omega⟩]
        omega
      · refine Nat.add_pos_left (card_pos.mpr ⟨bn, ?_⟩) _
        rw [mem_filter, mem_Ico, blockAddr_direct hbn]
        refine ⟨⟨le_rfl, lt_min (Nat.lt_succ_self bn) (by unfold MAXFILE; omega)⟩, ?_⟩
        rwa [show (Fin.castSucc ⟨bn, hbn⟩ : Fin (NDIRECT + 1)) = k from Fin.ext hval.symm]
    have hpanic : (sb.pool fs.disk).free = [] → P .ballocOutOfBlocks := by
      intro hnil
      refine hP ?_
      unfold Fs.nfree
      rw [hnil]
      exact hneed
    refine ends_bind ((balloc_spec ho.metaUsed hpanic).mono ?_)
    rintro b fs₁ ⟨-, hdata, hmoves, hblank, htable⟩
    obtain ⟨htoNat, hne, -⟩ := addr_of_mem_dataBlocks hdata
    have hkeep : ∀ c ∈ fs.blocksOf sb ip, fs₁.disk c = fs.disk c := fun c hc => ho.keep hmoves hc
    refine ends_bind (modifyDin_ends (ends_pure ⟨?_, ?_, ?_, fun h => absurd hzero h⟩))
    · obtain ⟨rfl, hbn⟩ | ⟨hval, hbn⟩ := hk
      · exact .of_indirect ho hbn hzero hdata hmoves hblank htable
      · obtain rfl : k = Fin.castSucc ⟨bn, hbn⟩ := Fin.ext hval
        refine Grows.of_new (a := UInt32.ofNat b) ho
          (onInode_setAddr ho hzero hdata hmoves hblank htable) ?_ ?_ hne (fun bn' => ?_) ?_
          (fun c hc => hkeep c (Multiset.mem_add.mpr (.inr hc))) ?_ hmoves.nfree
        · rw [setDin_self, htable]
          rfl
        · unfold Fs.addrOf
          rw [blockAddr_direct hbn]
          exact hzero
        · unfold Fs.addrOf
          rw [setDin_self, htable]
          exact blockAddr_setAddr_castSucc
            (fun h => hkeep _ (last_mem_blocks _ _ h)) bn'
        · rw [setDin_self, htable]
          show update _ _ _ _ = 0 ↔ _
          rw [update_of_ne (Fin.castSucc_ne_last _).symm]
        · rw [htoNat]
          exact hblank
    · rw [setDin_self]
      show (Dinode.setAddr _ k _).addrs k ≠ 0
      rw [Dinode.setAddr_self]
      exact hne
    · rw [setDin_self]
      show ((Dinode.setAddr _ k _).addrs k).toNat = b
      rw [Dinode.setAddr_self]
      exact htoNat
  · exact ends_pure ⟨.refl _ _ _ _, hzero, rfl, fun _ => rfl⟩

/-- **A block for an entry of the indirect block.** -/
theorem Grows.of_entry (ho : Owner sb fs ip) (hbn : NDIRECT ≤ bn) (hlt : bn < MAXFILE)
    (hlast : (fs.itable ip).din.addrs (Fin.last NDIRECT) ≠ 0) (hold : fs.addrOf ip bn = 0)
    {b : ℕ} (hdata : b ∈ sb.dataBlocks) (hfresh : b ∈ (sb.pool fs.disk).free)
    (hmoves : Moves sb fs fs' 0 {b}) (hzero : fs'.disk b = .fill BSIZE 0)
    (htable : fs'.itable = fs.itable) (l : List ℕ) :
    Grows sb ip bn fs { fs' with
      disk := update fs'.disk ((fs.itable ip).din.addrs (Fin.last NDIRECT)).toNat
        ((fs'.disk ((fs.itable ip).din.addrs (Fin.last NDIRECT)).toNat).setLE
          (4 * (bn - NDIRECT)) 4 b)
      logged := l }
    ∧ blockAddr (update fs'.disk ((fs.itable ip).din.addrs (Fin.last NDIRECT)).toNat
        ((fs'.disk ((fs.itable ip).din.addrs (Fin.last NDIRECT)).toNat).setLE
          (4 * (bn - NDIRECT)) 4 b)) (fs.itable ip).din.addrs bn = UInt32.ofNat b := by
  obtain ⟨htoNat, hne, hb⟩ := addr_of_mem_dataBlocks hdata
  set a := (fs.itable ip).din.addrs (Fin.last NDIRECT) with ha
  have hj : bn - NDIRECT < NINDIRECT := by
    unfold MAXFILE at hlt
    omega
  have hmem : a.toNat ∈ fs.blocksOf sb ip := last_mem_blocks _ _ hlast
  have hkeep : ∀ c ∈ fs.blocksOf sb ip, fs'.disk c = fs.disk c := fun c hc => ho.keep hmoves hc
  set disk := update fs'.disk a.toNat
    ((fs'.disk a.toNat).setLE (4 * (bn - NDIRECT)) 4 b) with hdisk
  have hstore : disk a.toNat = (fs.disk a.toNat).setLE (4 * (bn - NDIRECT)) 4 b := by
    rw [hdisk, update_self, hkeep _ hmem]
  have haddr : ∀ bn', blockAddr disk (fs.itable ip).din.addrs bn'
      = if bn' = bn then UInt32.ofNat b else fs.addrOf ip bn' := by
    intro bn'
    have h : blockAddr disk (fs.itable ip).din.addrs bn' = _ :=
      blockAddr_setLE hj hb hlast hstore bn'
    rwa [Nat.add_sub_cancel' hbn] at h
  have hword : word (fs.disk a.toNat) (bn - NDIRECT) = 0 := by
    rw [ha, ← blockAddr_indirect hbn hlt hlast]
    exact hold
  refine ⟨?_, by rw [haddr, if_pos rfl]⟩
  refine Grows.of_new (a := UInt32.ofNat b) ho
    ((onInode_setEntry ho hj rfl hlast hword hdata hmoves htable hdisk).1.log l) ?_ hold hne
    (fun bn' => ?_) ?_ (fun c hc => ?_) ?_ ?_
  · rw [htable]
  · show blockAddr disk (fs'.itable ip).din.addrs bn' = _
    rw [htable]
    exact haddr bn'
  · rw [htable]
  · have hca : c ≠ a.toNat := by
      rintro rfl
      exact ho.last_notMem hlast hc
    show disk c = _
    rw [hdisk, update_of_ne hca]
    exact hkeep c (Multiset.mem_add.mpr (.inr hc))
  · have hba : b ≠ a.toNat := by
      rintro rfl
      exact ho.holds.notMem_free hmem hfresh
    show disk (UInt32.ofNat b).toNat = _
    rw [htoNat, hdisk, update_of_ne hba]
    exact hzero
  · have hsame : (sb.pool disk).free = (sb.pool fs'.disk).free := by
      have hle := (mem_Ico.mp (ho.holds.mem hmem)).1
      refine List.filter_congr fun c hc => ?_
      rw [hdisk, Superblock.bitOf_update_data hle (List.mem_range.mp hc)]
    have hfree := hmoves.nfree
    unfold Fs.nfree at hfree ⊢
    rw [← hfree]
    exact congrArg (fun l : List ℕ => l.length + 1) hsame

/-- **What `bmap` does**: the block returned is the block of the file, it is
added if there was none, and the contents of the file stay as they were. -/
theorem bmap_grows (ho : Owner sb fs ip) (hbn : bn < MAXFILE) {P : FsPanic → Prop}
    (hP : fs.nfree sb < fs.missingOf ip bn (bn + 1) → P .ballocOutOfBlocks) :
    Ends (bmap sb ip bn) fs P fun b fs' =>
      Grows sb ip bn fs fs' ∧ fs'.addrOf ip bn ≠ 0 ∧ (fs'.addrOf ip bn).toNat = b
      ∧ (fs.addrOf ip bn ≠ 0 → fs' = fs) := by
  unfold bmap
  by_cases hdirect : bn < NDIRECT
  · rw [dif_pos hdirect]
    refine (slotBlock_grows ho _ (.inr ⟨rfl, hdirect⟩) hP).mono ?_
    rintro b fs' ⟨hgrows, hne, rfl, hsame⟩
    unfold Fs.addrOf
    rw [blockAddr_direct hdirect, blockAddr_direct hdirect]
    exact ⟨hgrows, hne, rfl, hsame⟩
  · have hle : NDIRECT ≤ bn := Nat.le_of_not_lt hdirect
    have hj : bn - NDIRECT < NINDIRECT := by
      unfold MAXFILE at hbn
      omega
    rw [dif_neg hdirect, if_pos hj]
    refine ends_bind ((slotBlock_grows ho _ (.inl ⟨rfl, hle⟩) hP).mono ?_)
    rintro _ fs₁ ⟨hgrows, hlast, rfl, hsame⟩
    have ho₁ := hgrows.on.owner ho
    refine ends_bind (bread_ends ?_)
    -- an indirect block that was there, with an entry that was there
    have hpure : fs.addrOf ip bn ≠ 0 → fs₁ = fs := by
      intro h
      refine hsame fun hnone => h ?_
      exact blockAddr_no_indirect hle hnone
    have haddr₁ : fs₁.addrOf ip bn
        = word (fs₁.disk ((fs₁.itable ip).din.addrs (Fin.last NDIRECT)).toNat) (bn - NDIRECT) :=
      blockAddr_indirect hle hbn hlast
    split <;> rename_i hword
    · have hold : fs₁.addrOf ip bn = 0 := haddr₁.trans hword
      have hP₁ : (sb.pool fs₁.disk).free = [] → P .ballocOutOfBlocks := by
        intro hnil
        have hcost := hgrows.cost bn (bn + 1) le_rfl (lt_succ_self bn)
        have hneed : 0 < fs₁.missingOf ip bn (bn + 1) := by
          refine Nat.add_pos_left (card_pos.mpr ⟨bn, ?_⟩) _
          rw [mem_filter, mem_Ico]
          exact ⟨⟨le_rfl, lt_min (Nat.lt_succ_self bn) hbn⟩, hold⟩
        have hzero : fs₁.nfree sb = 0 := by
          unfold Fs.nfree
          rw [hnil]
          rfl
        exact hP (by omega)
      refine ends_bind ((balloc_spec ho₁.metaUsed hP₁).mono ?_)
      rintro b fs₂ ⟨hfresh, hdata, hmoves, hzero, htable⟩
      obtain ⟨htoNat, hne, -⟩ := addr_of_mem_dataBlocks hdata
      obtain ⟨hgrows₂, haddr⟩ := Grows.of_entry ho₁ hle hbn hlast hold hdata hfresh hmoves hzero
        htable (((fs₁.itable ip).din.addrs (Fin.last NDIRECT)).toNat :: fs₂.logged)
      refine ends_bind (modifyData_ends (ends_bind (logWrite_ends (ends_pure
        ⟨hgrows.trans hgrows₂, ?_, ?_, ?_⟩))))
      · show blockAddr _ (fs₂.itable ip).din.addrs bn ≠ 0
        rw [htable, haddr]
        exact hne
      · show (blockAddr _ (fs₂.itable ip).din.addrs bn).toNat = b
        rw [htable, haddr]
        exact htoNat
      · intro h
        rw [hpure h] at hold
        exact absurd hold h
    · exact ends_pure ⟨hgrows, by rwa [haddr₁], by rw [haddr₁], hpure⟩

/-! ## The log -/

/-- **Every block that changed is in the log.** -/
structure Logs (fs fs' : Fs) : Prop where
  keeps : ∀ b ∈ fs.logged, b ∈ fs'.logged
  changed : ∀ b, fs'.disk b ≠ fs.disk b → b ∈ fs'.logged

theorem Logs.refl (fs : Fs) : Logs fs fs := ⟨fun _ h => h, fun _ h => absurd rfl h⟩

theorem Logs.trans (h : Logs fs fs') (h' : Logs fs' fs'') : Logs fs fs'' := by
  refine ⟨fun b hb => h'.keeps b (h.keeps b hb), fun b hb => ?_⟩
  by_cases heq : fs''.disk b = fs'.disk b
  · exact h'.keeps b (h.changed b (heq ▸ hb))
  · exact h'.changed b heq

theorem Logs.store (fs : Fs) (b : ℕ) (data : Block) (itable : Fin NINODE → Inode) :
    Logs fs ⟨update fs.disk b data, b :: fs.logged, itable⟩ := by
  refine ⟨fun c hc => List.mem_cons_of_mem _ hc, fun c hc => ?_⟩
  by_cases heq : c = b
  · exact heq ▸ List.mem_cons_self
  · exact absurd (update_of_ne heq _ _) hc

theorem balloc_logs : Ends (balloc sb) fs (fun _ => True) fun _ fs' => Logs fs fs' := by
  refine (balloc_ends fun _ => trivial).mono ?_
  rintro b _ ⟨-, -, -, rfl⟩
  exact (Logs.store fs (sb.BBLOCK b) _ fs.itable).trans (.store _ b _ fs.itable)

theorem slotBlock_logs (k : Fin (NDIRECT + 1)) :
    Ends (slotBlock sb ip k) fs (fun _ => True) fun _ fs' => Logs fs fs' := by
  unfold slotBlock
  refine ends_bind (getInode_ends ?_)
  split
  · refine ends_bind (balloc_logs.mono fun b fs₁ h => ?_)
    exact ends_bind (modifyDin_ends (ends_pure ⟨h.keeps, h.changed⟩))
  · exact ends_pure (.refl fs)

/-- **`bmap` logs what it changes.** -/
theorem bmap_logs : Ends (bmap sb ip bn) fs (fun _ => True) fun _ fs' => Logs fs fs' := by
  unfold bmap
  split
  · exact slotBlock_logs _
  · split
    · refine ends_bind ((slotBlock_logs _).mono fun a fs₁ h₁ => ?_)
      refine ends_bind (bread_ends ?_)
      split
      · refine ends_bind (balloc_logs.mono fun b fs₂ h₂ => ?_)
        exact ends_bind (modifyData_ends (ends_bind (logWrite_ends (ends_pure
          (h₁.trans (h₂.trans (.store fs₂ a _ fs₂.itable)))))))
      · exact ends_pure h₁
    · exact ends_panic trivial

/-! ## Writing -/

theorem div_eq_of_round {off k len : ℕ} (hfit : off % BSIZE + len ≤ BSIZE) (hle : off ≤ k)
    (hlt : k < off + len) : k / BSIZE = off / BSIZE := by
  have hoff := Nat.div_add_mod off BSIZE
  refine Nat.div_eq_of_lt_le ?_ ?_
  · rw [Nat.mul_comm]
    omega
  · rw [Nat.succ_mul, Nat.mul_comm]
    omega

/-- **Bytes stored in a block of the file** are stored in the file, at the
offsets of that block and nowhere else. -/
theorem Owner.store_bytes (ho : Owner sb fs ip) {off b : ℕ}
    (hne : fs.addrOf ip (off / BSIZE) ≠ 0) (hb : (fs.addrOf ip (off / BSIZE)).toNat = b)
    {bytes : List UInt8} (hfit : off % BSIZE + bytes.length ≤ BSIZE)
    (hfs' : fs' = { fs with
      disk := update fs.disk b ((fs.disk b).blit (off % BSIZE) bytes) }) :
    OnInode sb ip fs fs' ∧ (∀ bn', fs'.addrOf ip bn' = fs.addrOf ip bn')
    ∧ fs'.nfree sb = fs.nfree sb
    ∧ ∀ k, fs'.byteOf ip k
        = if off ≤ k ∧ k < off + bytes.length then bytes.getD (k - off) 0
          else fs.byteOf ip k := by
  have hmem := ho.addr_mem hne
  rw [hb] at hmem
  have hle := (mem_Ico.mp (ho.holds.mem (Multiset.mem_add.mpr (.inr hmem)))).1
  have haddr : ∀ bn', fs'.addrOf ip bn' = fs.addrOf ip bn' := by
    rw [hfs']
    refine blockAddr_congr fun hlast => ?_
    show update fs.disk b _ _ = _
    rw [update_of_ne]
    intro heq
    exact ho.last_notMem hlast (heq ▸ hmem)
  refine ⟨?_, haddr, ?_, fun k => ?_⟩
  · rw [hfs']
    exact onInode_modifyData ho hmem _
  · rw [hfs']
    refine congrArg List.length (List.filter_congr fun c hc => ?_)
    rw [Superblock.bitOf_update_data hle (List.mem_range.mp hc)]
  · rw [Fs.byteOf_eq, Fs.byteOf_eq, haddr]
    by_cases hblock : k / BSIZE = off / BSIZE
    · have hoff := div_add_mod off BSIZE
      have hk := div_add_mod k BSIZE
      have hklt := mod_lt k (show 0 < BSIZE by decide)
      rw [hblock, if_neg hne, if_neg hne, hb, hfs']
      show (update fs.disk b _ b).byteAt _ = _
      rw [update_self]
      unfold Bytes.byteAt Bytes.blit
      rw [dif_pos hklt, dif_pos hklt]
      rw [hblock] at hk
      have hiff : (off % BSIZE ≤ k % BSIZE ∧ k % BSIZE < off % BSIZE + bytes.length)
          ↔ off ≤ k ∧ k < off + bytes.length := by omega
      have hsub : k % BSIZE - off % BSIZE = k - off := by omega
      simp only [hiff, hsub]
    · rw [if_neg fun hc : off ≤ k ∧ k < off + bytes.length =>
        hblock (div_eq_of_round hfit hc.1 hc.2)]
      split
      · rfl
      · rw [hfs']
        show (update fs.disk b _ _).byteAt _ = _
        rw [update_of_ne]
        rw [← hb]
        intro heq
        exact hblock (ho.addr_inj hne (UInt32.toNat_inj.mp heq))

/-- The blocks that the first `x` bytes of a file take. -/
def blocksFor (x : ℕ) : ℕ := (x + BSIZE - 1) / BSIZE

/-- The rounds of a write of `n` bytes at `off`: the place of the source that a
round starts at, and the number of its bytes. -/
def IsChunk (off n t m : ℕ) : Prop :=
  t < n ∧ (t = 0 ∨ (off + t) % BSIZE = 0) ∧ m = min (n - t) (BSIZE - (off + t) % BSIZE)

theorem IsChunk.div_lt {off n t m : ℕ} (h : IsChunk off n t m) :
    (off + t) / BSIZE < blocksFor (off + n) := by
  have hlt := h.1
  have hle := div_mul_le_self (off + t) BSIZE
  unfold blocksFor
  rw [lt_iff_add_one_le, le_div_iff_mul_le (by decide), succ_mul]
  omega

/-- A source that can be read: its bytes. -/
def readable (data : ℕ → UInt8) : ℕ → ℕ → CopyIn := fun t m =>
  ⟨(List.range m).map fun i => data (t + i), true⟩

/-- **One round of `writei`** at the offset `pos`: the block is there afterwards,
and the bytes are in the file. -/
structure Round (sb : Superblock) (ip : Fin NINODE) (pos : ℕ) (bytes : List UInt8)
    (fs fs' : Fs) : Prop where
  on : OnInode sb ip fs fs'
  size : (fs'.itable ip).din.size = (fs.itable ip).din.size
  addr : ∀ bn, fs.addrOf ip bn ≠ 0 → fs'.addrOf ip bn = fs.addrOf ip bn
  only : ∀ bn, bn ≠ pos / BSIZE → fs'.addrOf ip bn = fs.addrOf ip bn
  mapped : fs'.addrOf ip (pos / BSIZE) ≠ 0
  byte : ∀ k, fs'.byteOf ip k
    = if pos ≤ k ∧ k < pos + bytes.length then bytes.getD (k - pos) 0 else fs.byteOf ip k
  cost : ∀ hi, pos / BSIZE < hi → fs'.missingOf ip (pos / BSIZE) hi + fs.nfree sb
    = fs.missingOf ip (pos / BSIZE) hi + fs'.nfree sb

/-- The block is found or added, and then the bytes are stored. -/
theorem Grows.round {pos b : ℕ} (ho : Owner sb fs ip) (h : Grows sb ip (pos / BSIZE) fs fs')
    (hne : fs'.addrOf ip (pos / BSIZE) ≠ 0) (hb : (fs'.addrOf ip (pos / BSIZE)).toNat = b)
    {bytes : List UInt8} (hfit : pos % BSIZE + bytes.length ≤ BSIZE) (l : List ℕ) :
    Round sb ip pos bytes fs
      ⟨update fs'.disk b ((fs'.disk b).blit (pos % BSIZE) bytes), l, fs'.itable⟩ := by
  obtain ⟨hon, haddr, hfree, hbyte⟩ := (h.on.owner ho).store_bytes hne hb hfit rfl
  refine ⟨(h.on.trans hon).log l, h.size, fun bn' h' => (haddr bn').trans (h.addr bn' h'),
    fun bn' h' => (haddr bn').trans (h.only bn' h'),
    fun hzero => hne ((haddr _).symm.trans hzero), fun k => ?_, fun hi hhi => ?_⟩
  · rw [← h.byte k]
    exact hbyte k
  · have hmiss : missing (update fs'.disk b ((fs'.disk b).blit (pos % BSIZE) bytes))
        (fs'.itable ip).din.addrs (pos / BSIZE) hi = fs'.missingOf ip (pos / BSIZE) hi := by
      unfold Fs.missingOf missing
      unfold Fs.addrOf at haddr
      simp only [haddr]
    have hcost := h.cost _ hi le_rfl hhi
    rw [← hmiss, ← hfree] at hcost
    exact hcost

/-- Block `b` holds the bytes already, where offset `pos` of a file is. -/
def InBlock (disk : Disk) (b pos : ℕ) (bytes : List UInt8) : Prop :=
  ∀ i < bytes.length, bytes.getD i 0 = (disk b).byteAt ((pos + i) % BSIZE)

/-- Storing what is there already changes nothing. -/
theorem InBlock.blit_eq {disk : Disk} {b pos : ℕ} {bytes : List UInt8}
    (h : InBlock disk b pos bytes) : (disk b).blit (pos % BSIZE) bytes = disk b := by
  funext i
  unfold Bytes.blit
  split
  · rename_i hin
    have hmod : (pos + (i - pos % BSIZE)) % BSIZE = i := by
      have hpos := div_add_mod pos BSIZE
      rw [show pos + (i - pos % BSIZE) = i + BSIZE * (pos / BSIZE) by omega,
        add_mul_mod_self_left, mod_eq_of_lt i.isLt]
    rw [h _ (by omega), hmod]
    exact dif_pos i.isLt
  · rfl

/-- The bytes that the round from place `t` of the source on stores. -/
def stray (src : ℕ → ℕ → CopyIn) (off n t : ℕ) : List UInt8 :=
  (src t (min (n - t) (BSIZE - (off + t) % BSIZE))).bytes.take
    (min (n - t) (BSIZE - (off + t) % BSIZE))

theorem stray_eq {src : ℕ → ℕ → CopyIn} {off n t m : ℕ} (h : IsChunk off n t m) :
    stray src off n t = (src t m).bytes.take m := by
  unfold stray
  rw [← h.2.2]

theorem stray_self (src : ℕ → ℕ → CopyIn) (off n : ℕ) : stray src off n n = [] := by
  unfold stray
  rw [Nat.sub_self, Nat.zero_min, List.take_zero]

/-- **What the loop of `writei` did** when it stopped at the offset `r.2`, with
`r.1` bytes of the source written, from `tot` bytes on. -/
structure Written (sb : Superblock) (ip : Fin NINODE) (src : ℕ → ℕ → CopyIn) (off n tot : ℕ)
    (fs : Fs) (r : ℕ × ℕ) (fs' : Fs) : Prop where
  on : OnInode sb ip fs fs'
  size : (fs'.itable ip).din.size = (fs.itable ip).din.size
  count : r.2 = off + r.1
  ge : tot ≤ r.1
  le : r.1 ≤ n
  stopped : r.1 < n → (∃ m, IsChunk off n r.1 m) ∧ fs'.addrOf ip ((off + r.1) / BSIZE) ≠ 0
  addr : ∀ bn, fs.addrOf ip bn ≠ 0 → fs'.addrOf ip bn = fs.addrOf ip bn
  only : ∀ bn, blocksFor (off + n) ≤ bn → fs'.addrOf ip bn = fs.addrOf ip bn
  mapped : ∀ k, off + tot ≤ k → k < off + r.1 → fs'.addrOf ip (k / BSIZE) ≠ 0
  /-- What was not written is as it was, but for what a failed copy stored. -/
  outside : ∀ k, k < off + tot ∨ off + r.1 ≤ k →
    fs'.byteOf ip k
      = if off + r.1 ≤ k ∧ k < off + r.1 + (stray src off n r.1).length then
          (stray src off n r.1).getD (k - (off + r.1)) 0
        else fs.byteOf ip k
  /-- A source that can be read is written. -/
  inside : ∀ data, (∀ t m, IsChunk off n t m → src t m = readable data t m) →
    r.1 = n ∧ ∀ k, off + tot ≤ k → k < off + n → fs'.byteOf ip k = data (k - off)
  keeps : ∀ b ∈ fs.logged, b ∈ fs'.logged
  /-- What changed is in the log, but for what a failed copy stored. -/
  logs : ∀ b, fs'.disk b ≠ fs.disk b → b ∈ fs'.logged
    ∨ b = (fs'.addrOf ip ((off + r.1) / BSIZE)).toNat
      ∧ ¬ InBlock fs.disk b (off + r.1) (stray src off n r.1)

section Loop

variable {src : ℕ → ℕ → CopyIn} {off n tot m : ℕ} {r : ℕ × ℕ}

/-- Everything was written. -/
theorem Written.done (sb : Superblock) (ip : Fin NINODE) (src : ℕ → ℕ → CopyIn) (off n : ℕ)
    (fs : Fs) : Written sb ip src off n n fs (n, off + n) fs where
  on := .refl _ _ _
  size := rfl
  count := rfl
  ge := le_rfl
  le := le_rfl
  stopped h := absurd h (lt_irrefl n)
  addr _ _ := rfl
  only _ _ := rfl
  mapped _ h₁ h₂ := absurd h₁ (Nat.not_le_of_lt h₂)
  outside k _ := by
    rw [stray_self, List.length_nil, if_neg (by omega)]
  inside _ _ := ⟨rfl, fun _ h₁ h₂ => absurd h₁ (Nat.not_le_of_lt h₂)⟩
  keeps _ h := h
  logs _ h := absurd rfl h

/-- The copy of a round fails. -/
theorem Written.failed (hchunk : IsChunk off n tot m) (hok : (src tot m).ok = false)
    (h : Round sb ip (off + tot) ((src tot m).bytes.take m) fs fs')
    (hkeeps : ∀ b ∈ fs.logged, b ∈ fs'.logged)
    (hlogs : ∀ b, fs'.disk b ≠ fs.disk b → b ∈ fs'.logged
      ∨ b = (fs'.addrOf ip ((off + tot) / BSIZE)).toNat
        ∧ ¬ InBlock fs.disk b (off + tot) ((src tot m).bytes.take m)) :
    Written sb ip src off n tot fs (tot, off + tot) fs' where
  on := h.on
  size := h.size
  count := rfl
  ge := le_rfl
  le := hchunk.1.le
  stopped _ := ⟨⟨m, hchunk⟩, h.mapped⟩
  addr := h.addr
  only _ hbn := h.only _ (ne_of_gt (lt_of_lt_of_le hchunk.div_lt hbn))
  mapped _ h₁ h₂ := absurd h₁ (Nat.not_le_of_lt h₂)
  outside k _ := by
    rw [h.byte, stray_eq hchunk]
  inside data hdata := by
    rw [hdata tot m hchunk] at hok
    cases hok
  keeps := hkeeps
  logs := by
    rw [stray_eq hchunk]
    exact hlogs

/-- The loop goes on after a round. -/
theorem Written.next (hchunk : IsChunk off n tot m)
    (hfit : (off + tot) % BSIZE + m ≤ BSIZE)
    (h : Round sb ip (off + tot) ((src tot m).bytes.take m) fs fs') (hlogs : Logs fs fs')
    (w : Written sb ip src off n (tot + m) fs' r fs'') :
    Written sb ip src off n tot fs r fs'' := by
  have hge := w.ge
  have hlen : ((src tot m).bytes.take m).length ≤ m := List.length_take_le _ _
  have hlater : ∀ k, k < off + tot ∨ off + (tot + m) ≤ k → fs'.byteOf ip k = fs.byteOf ip k :=
    fun k hk => by rw [h.byte, if_neg (by omega)]
  refine ⟨h.on.trans w.on, w.size.trans h.size, w.count, by omega, w.le, w.stopped,
    fun bn hbn => ?_, fun bn hbn => ?_, fun k h₁ h₂ => ?_, fun k hk => ?_, fun data hdata => ?_,
    fun b hb => w.keeps b (hlogs.keeps b hb), fun b hb => ?_⟩
  · have heq := h.addr bn hbn
    exact (w.addr bn (heq ▸ hbn)).trans heq
  · exact (w.only bn hbn).trans (h.only bn (ne_of_gt (lt_of_lt_of_le hchunk.div_lt hbn)))
  · by_cases hk : k < off + (tot + m)
    · have hblock := div_eq_of_round hfit h₁ (by omega)
      rw [hblock, w.addr _ h.mapped]
      exact h.mapped
    · exact w.mapped k (by omega) h₂
  · rw [w.outside k (by omega), hlater k (by omega)]
  · obtain ⟨hr, hbytes⟩ := w.inside data hdata
    refine ⟨hr, fun k h₁ h₂ => ?_⟩
    by_cases hk : k < off + (tot + m)
    · have hsrc := hdata tot m hchunk
      have hbytes : (src tot m).bytes.take m = (List.range m).map fun i => data (tot + i) := by
        rw [hsrc]
        exact List.take_of_length_le (by simp [readable])
      rw [w.outside k (.inl hk), if_neg (by omega), h.byte, hbytes, List.length_map,
        List.length_range, if_pos ⟨h₁, by omega⟩, List.getD_eq_getElem?_getD, List.getElem?_map,
        List.getElem?_range (by omega)]
      show data (tot + (k - (off + tot))) = data (k - off)
      congr 1
      omega
    · exact hbytes k (by omega) h₂
  · by_cases heq : fs'.disk b = fs.disk b
    · rw [← heq] at hb
      refine (w.logs b hb).imp_right (And.imp_right fun hnot hin => hnot ?_)
      unfold InBlock
      rwa [heq]
    · exact .inl (w.keeps b (hlogs.changed b heq))

theorem missing_mono {mem : ℕ → Block} {addrs : Fin (NDIRECT + 1) → UInt32} {lo lo' hi hi' : ℕ}
    (hlo : lo ≤ lo') (hhi : hi' ≤ hi) : missing mem addrs lo' hi' ≤ missing mem addrs lo hi := by
  refine Nat.add_le_add (card_le_card ?_) ?_
  · exact filter_subset_filter _ (Finset.Ico_subset_Ico hlo (min_le_min_right _ hhi))
  · split
    · rename_i hc
      rw [if_pos ⟨hc.1, lt_of_lt_of_le hc.2 hhi⟩]
    · exact zero_le _

/-- **The loop of `writei`**, from the round on that starts with `tot` bytes of
the `n` written. -/
theorem writeiLoop_written {left : ℕ} (ho : Owner sb fs ip) (htot : tot + left = n)
    (hstart : left ≠ 0 → tot = 0 ∨ (off + tot) % BSIZE = 0) (hmax : off + n ≤ MAXFILE * BSIZE)
    {P : FsPanic → Prop}
    (hP : fs.nfree sb < fs.missingOf ip ((off + tot) / BSIZE) (blocksFor (off + n)) →
      P .ballocOutOfBlocks) :
    Ends (writeiLoop sb ip src left (off + tot) tot) fs P
      (Written sb ip src off n tot fs) := by
  induction left using Nat.strong_induction_on generalizing fs tot with
  | _ left ih =>
    rw [writeiLoop]
    split
    · obtain rfl : tot = n := by omega
      exact ends_pure (.done _ _ _ _ _ _)
    · rename_i hleft
      have hmod := mod_lt (off + tot) (show 0 < BSIZE by decide)
      set m := min left (BSIZE - (off + tot) % BSIZE) with hm
      have hchunk : IsChunk off n tot m := by
        refine ⟨by omega, hstart hleft, ?_⟩
        rw [hm, ← htot, Nat.add_sub_cancel_left]
      have hbn : (off + tot) / BSIZE < MAXFILE := by
        rw [Nat.div_lt_iff_lt_mul (by decide)]
        omega
      have hlast := hchunk.div_lt
      refine ends_bind (((bmap_grows ho hbn fun h => hP (lt_of_lt_of_le h
        (missing_mono le_rfl hlast))).and_imp fun _ : True => bmap_logs).mono ?_)
      rintro b fs₁ ⟨⟨hgrows, hne, hb, -⟩, hlogs⟩
      have hlogs := hlogs trivial
      have hlen : ((src tot m).bytes.take m).length ≤ m := List.length_take_le _ _
      have hfit : (off + tot) % BSIZE + ((src tot m).bytes.take m).length ≤ BSIZE := by omega
      have hround := hgrows.round ho hne hb hfit
      refine ends_bind (modifyData_ends ?_)
      cases hok : (src tot m).ok with
      | true =>
        have hround := hround (b :: fs₁.logged)
        have hcost := hround.cost _ hlast
        refine ends_bind (logWrite_ends ?_)
        show Ends (writeiLoop sb ip src (left - m) (off + tot + m) (tot + m)) _ _ _
        rw [add_assoc off tot m]
        refine (ih (left - m) (by omega) (hround.on.owner ho) (by omega) (fun h => ?_)
          fun h => hP ?_).mono fun r fs' w => w.next hchunk (by omega) hround
            (hlogs.trans (.store fs₁ b _ fs₁.itable))
        · right
          unfold BSIZE at *
          omega
        · have hdiv : (off + tot) / BSIZE ≤ (off + (tot + m)) / BSIZE :=
            Nat.div_le_div_right (by omega)
          have hless := lt_of_lt_of_le h (missing_mono hdiv le_rfl)
          show fs.nfree sb < _
          unfold Fs.missingOf at hcost ⊢
          omega
      | false =>
        have hround := hround fs₁.logged
        refine ends_pure (.failed hchunk hok hround hlogs.keeps fun c hc => ?_)
        by_cases hcb : c = b
        · refine or_iff_not_imp_left.mpr fun hout => ⟨?_, fun hin => hc ?_⟩
          · obtain ⟨-, haddr, -⟩ := (hgrows.on.owner ho).store_bytes hne hb hfit rfl
            exact (hcb.trans hb.symm).trans (congrArg UInt32.toNat (haddr _).symm)
          · have hsame : fs₁.disk c = fs.disk c := by
              by_contra hne
              exact hout (hlogs.changed c hne)
            have hin₁ : InBlock fs₁.disk c (off + tot) ((src tot m).bytes.take m) := by
              unfold InBlock
              rwa [hsame]
            subst hcb
            exact (update_self ..).trans (hin₁.blit_eq.trans hsame)
        · exact .inl (hlogs.changed c fun heq => hc ((update_of_ne hcb ..).trans heq))

end Loop

end Grow

end Xv6
