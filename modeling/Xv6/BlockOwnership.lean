import Xv6.InodeBlocks
import Xv6.Machine

/-!
# Every data block has one owner

The invariant that ties the free bitmap to the inodes: the addresses in the
allocated inodes and in their indirect blocks name data blocks, no block
twice, and a data block is marked as used exactly if one of them names it
(`BlockOwnership`). It holds on the disk after every sequence of `ialloc`,
`writei`, `itrunc` and `iput` – with `iget`, `idup` and changes of the other
fields of an inode in between – from any disk on which it holds, and so
`bfree` never frees a free block (`block_ownership`).

In terms of the pool of `BlockAlloc` the invariant is one equation: the free
blocks and the owned ones together are the data blocks (`Partition`). An
operation exchanges the blocks of its inode for others; the blocks of the
other inodes are the context of the exchange.
-/

open Function Finset

open Prog hiding get modify panic result

namespace Xv6

open Pool

/-! ## The invariant -/

section Invariant

variable (sb : Superblock)

/-- The blocks of inode `i`: none if it is free. -/
def ownedBy (mem : ℕ → Block) (disk : Disk) (i : ℕ) : Multiset ℕ :=
  if (sb.dinodeOf disk i).type = 0 then 0 else blocks mem (sb.dinodeOf disk i).addrs

/-- The blocks of all inodes, each as often as it is named. -/
@[irreducible] def owned (mem : ℕ → Block) (disk : Disk) : Multiset ℕ :=
  ∑ i ∈ range sb.ninodes, ownedBy sb mem disk i

/-- **The owners of the data blocks.** Every non-zero address in an allocated inode
or in its indirect block is a data block, no data block has two owners, and a data
block is marked as used if and only if it has one. -/
structure DataOwnership (disk : Disk) : Prop where
  inRange : ∀ b ∈ owned sb disk disk, sb.datastart ≤ b ∧ b < sb.size
  once : (owned sb disk disk).Nodup
  bitmap : ∀ b, sb.datastart ≤ b → b < sb.size →
    (sb.bitOf disk b = true ↔ b ∈ owned sb disk disk)

/-- **Block ownership.** The data blocks have their owners, and the blocks of
metadata are marked as used, as `mkfs` leaves them. -/
structure BlockOwnership (disk : Disk) : Prop extends DataOwnership sb disk where
  metadata : ∀ b < sb.datastart, sb.bitOf disk b = true

/-- The free and the owned blocks are the data blocks, each once. -/
structure Partition (disk : Disk) : Prop where
  metaUsed : sb.MetaUsed disk
  conserve : ((sb.pool disk).free : Multiset ℕ) + owned sb (sb.pool disk).mem disk
    = sb.dataBlocks.val

variable {sb} {disk : Disk}

theorem mem_owned {mem : ℕ → Block} {b : ℕ} :
    b ∈ owned sb mem disk ↔ ∃ i < sb.ninodes, b ∈ ownedBy sb mem disk i := by
  unfold owned
  rw [Multiset.mem_sum]
  simp

theorem owned_pool
    (h : ∀ i < sb.ninodes, (sb.dinodeOf disk i).type ≠ 0 →
      (sb.dinodeOf disk i).addrs (Fin.last NDIRECT) ≠ 0 →
      sb.datastart ≤ ((sb.dinodeOf disk i).addrs (Fin.last NDIRECT)).toNat) :
    owned sb (sb.pool disk).mem disk = owned sb disk disk := by
  unfold owned
  refine sum_congr rfl fun i hi => ?_
  unfold ownedBy
  split
  · rfl
  · rename_i htype
    refine blocks_congr fun hlast => ?_
    exact pool_mem_of_le (h i (mem_range.mp hi) htype hlast)

theorem last_mem_owned {mem : ℕ → Block} {i : ℕ} (hi : i < sb.ninodes)
    (htype : (sb.dinodeOf disk i).type ≠ 0)
    (hlast : (sb.dinodeOf disk i).addrs (Fin.last NDIRECT) ≠ 0) :
    ((sb.dinodeOf disk i).addrs (Fin.last NDIRECT)).toNat ∈ owned sb mem disk := by
  refine mem_owned.mpr ⟨i, hi, ?_⟩
  unfold ownedBy
  rw [if_neg htype]
  exact last_mem_blocks mem (sb.dinodeOf disk i).addrs hlast

/-- **The invariant is one equation** about the pool. -/
theorem blockOwnership_iff_partition : BlockOwnership sb disk ↔ Partition sb disk := by
  constructor
  · intro h
    refine ⟨h.metadata, ?_⟩
    rw [owned_pool fun i hi htype hlast => (h.inRange _ (last_mem_owned hi htype hlast)).1]
    have hdisjoint : Disjoint ((sb.pool disk).free : Multiset ℕ) (owned sb disk disk) := by
      refine Multiset.disjoint_left.mpr fun {b} hfree hown => ?_
      obtain ⟨hb, hsize, hbit⟩ := mem_pool_free.mp (Multiset.mem_coe.mp hfree)
      rw [(h.bitmap b hb hsize).mpr hown] at hbit
      cases hbit
    refine (Multiset.Nodup.ext (Multiset.nodup_add.mpr
      ⟨Multiset.coe_nodup.mpr (nodup_pool_free _), h.once, hdisjoint⟩) sb.dataBlocks.nodup).mpr
      fun b => ?_
    rw [Multiset.mem_add, Multiset.mem_coe, mem_pool_free, mem_val,
      Superblock.dataBlocks, mem_Ico]
    constructor
    · rintro (⟨hb, hsize, -⟩ | hown)
      · exact ⟨hb, hsize⟩
      · exact h.inRange b hown
    · rintro ⟨hb, hsize⟩
      cases hbit : sb.bitOf disk b with
      | false => exact .inl ⟨hb, hsize, rfl⟩
      | true => exact .inr ((h.bitmap b hb hsize).mp hbit)
  · intro h
    have hmem : ∀ b, b ∈ owned sb (sb.pool disk).mem disk → b ∈ sb.dataBlocks := by
      intro b hb
      have hall : b ∈ ((sb.pool disk).free : Multiset ℕ) + owned sb (sb.pool disk).mem disk :=
        Multiset.mem_add.mpr (.inr hb)
      rw [h.conserve] at hall
      exact hall
    have heq : owned sb (sb.pool disk).mem disk = owned sb disk disk :=
      owned_pool fun i hi htype hlast =>
        (mem_Ico.mp (hmem _ (last_mem_owned hi htype hlast))).1
    have hconserve := h.conserve
    rw [heq] at hmem hconserve
    have hnodup := sb.dataBlocks.nodup
    rw [← hconserve] at hnodup
    obtain ⟨-, honce, hdisjoint⟩ := Multiset.nodup_add.mp hnodup
    refine ⟨⟨fun b hb => mem_Ico.mp (hmem b hb), honce, fun b hb hsize => ?_⟩, h.metaUsed⟩
    have hall : b ∈ sb.dataBlocks.val := mem_Ico.mpr ⟨hb, hsize⟩
    rw [← hconserve, Multiset.mem_add] at hall
    constructor
    · intro hbit
      refine hall.resolve_left fun hfree => ?_
      rw [(mem_pool_free.mp (Multiset.mem_coe.mp hfree)).2.2] at hbit
      cases hbit
    · intro hown
      by_contra hbit
      exact Multiset.disjoint_left.mp hdisjoint
        (Multiset.mem_coe.mpr (mem_pool_free.mpr ⟨hb, hsize, Bool.eq_false_iff.mpr hbit⟩)) hown

/-- A disk without inodes, on which no data block is marked as used. -/
theorem DataOwnership.of_empty (htype : ∀ i < sb.ninodes, (sb.dinodeOf disk i).type = 0)
    (hbit : ∀ b, sb.datastart ≤ b → b < sb.size → sb.bitOf disk b = false) :
    DataOwnership sb disk := by
  have hnone : owned sb disk disk = 0 := by
    unfold owned
    exact sum_eq_zero fun i hi => if_pos (htype i (mem_range.mp hi))
  refine ⟨fun b hb => ?_, ?_, fun b hb hsize => ?_⟩
  · rw [hnone] at hb
    exact absurd hb (Multiset.notMem_zero b)
  · rw [hnone]
    exact Multiset.nodup_zero
  · rw [hnone, hbit b hb hsize]
    exact iff_of_false Bool.false_ne_true (Multiset.notMem_zero b)

/-- The same, with the blocks of metadata marked. -/
theorem BlockOwnership.of_empty (htype : ∀ i < sb.ninodes, (sb.dinodeOf disk i).type = 0)
    (hbit : ∀ b < sb.size, sb.bitOf disk b = decide (b < sb.datastart)) :
    BlockOwnership sb disk := by
  have hle := sb.datastart_le
  refine ⟨.of_empty htype fun b hb hsize => ?_, fun b hb => ?_⟩
  · rw [hbit b hsize]
    exact decide_eq_false (Nat.not_lt_of_le hb)
  · rw [hbit b (by omega)]
    exact decide_eq_true hb

end Invariant

/-! ## Changing one inode -/

section Change

variable {sb : Superblock} {disk disk' : Disk}

theorem Partition.holds (h : Partition sb disk) :
    Holds sb.dataBlocks (sb.pool disk) (owned sb (sb.pool disk).mem disk) :=
  h.conserve.le

theorem owned_eq_add (mem : ℕ → Block) {i : ℕ} (hi : i < sb.ninodes) :
    owned sb mem disk = ownedBy sb mem disk i
      + ∑ j ∈ (range sb.ninodes).erase i, ownedBy sb mem disk j := by
  unfold owned
  exact (add_sum_erase _ _ (mem_range.mpr hi)).symm

/-- **One inode changes**: if its blocks are exchanged for others and the other
inodes stay as they are, the invariant holds afterwards. -/
theorem Partition.change {i : ℕ} (h : Partition sb disk) (hi : i < sb.ninodes)
    (hex : Exchange (sb.pool disk) (sb.pool disk') (ownedBy sb (sb.pool disk).mem disk i)
      (ownedBy sb (sb.pool disk').mem disk' i))
    (hmeta : sb.MetaUsed disk')
    (hother : ∀ j < sb.ninodes, j ≠ i → sb.dinodeOf disk' j = sb.dinodeOf disk j) :
    Partition sb disk' := by
  refine ⟨hmeta, ?_⟩
  have hold := h.holds
  rw [owned_eq_add _ hi] at hold
  have hsame : ∑ j ∈ (range sb.ninodes).erase i, ownedBy sb (sb.pool disk').mem disk' j
      = ∑ j ∈ (range sb.ninodes).erase i, ownedBy sb (sb.pool disk).mem disk j := by
    refine sum_congr rfl fun j hj => ?_
    obtain ⟨hji, hj'⟩ := mem_erase.mp hj
    unfold ownedBy
    rw [hother j (mem_range.mp hj') hji]
    split
    · rfl
    · rename_i htype
      -- the indirect block of the other inode is in the context
      refine blocks_congr fun hlast => hex.keep hold ?_
      refine Multiset.mem_of_le (single_le_sum (f := ownedBy sb (sb.pool disk).mem disk)
        (fun _ _ => zero_le) hj) ?_
      unfold ownedBy
      rw [if_neg htype]
      exact last_mem_blocks _ (sb.dinodeOf disk j).addrs hlast
  rw [owned_eq_add _ hi, hsame, (hex.add _).conserve, ← owned_eq_add _ hi]
  exact h.conserve

theorem pool_congr (h : ∀ c, sb.bmapstart ≤ c → disk' c = disk c) :
    sb.pool disk' = sb.pool disk := by
  have hle := sb.bmapstart_lt
  have hmem : (sb.pool disk').mem = (sb.pool disk).mem :=
    pool_mem_congr fun c hc => h c (by omega)
  have hfree : (sb.pool disk').free = (sb.pool disk).free := by
    refine List.filter_congr fun c _ => ?_
    unfold Superblock.bitOf
    rw [h _ (sb.bmapstart_le_BBLOCK c)]
  exact congrArg₂ (fun m f => Pool.mk m f fun _ => false) hmem hfree

theorem pool_putDinode {i : ℕ} (hi : i < sb.ninodes) (d : Dinode) :
    sb.pool (sb.putDinode disk i d) = sb.pool disk :=
  pool_congr fun _ hc => Superblock.putDinode_of_le hi hc

/-- The invariant is about the bitmap, the data blocks and what the inodes own. -/
theorem Partition.congr (h : Partition sb disk)
    (hdisk : ∀ c, sb.bmapstart ≤ c → disk' c = disk c)
    (hown : ∀ mem, ∀ i < sb.ninodes, ownedBy sb mem disk' i = ownedBy sb mem disk i) :
    Partition sb disk' := by
  refine ⟨fun b hb => ?_, ?_⟩
  · unfold Superblock.bitOf
    rw [hdisk _ (sb.bmapstart_le_BBLOCK b)]
    exact h.metaUsed b hb
  · have hsame : owned sb (sb.pool disk).mem disk' = owned sb (sb.pool disk).mem disk := by
      unfold owned
      exact sum_congr rfl fun i hi => hown _ i (mem_range.mp hi)
    rw [pool_congr hdisk, hsame]
    exact h.conserve

theorem metaUsed_putDinode {i : ℕ} (hi : i < sb.ninodes) (d : Dinode)
    (h : sb.MetaUsed disk) : sb.MetaUsed (sb.putDinode disk i d) := by
  intro b hb
  rw [Superblock.bitOf_putDinode hi]
  exact h b hb

end Change

/-! ## The inode table -/

section Table

variable (sb : Superblock)

/-- The inode table: an inode in use has one entry, and one that was read from
disk is allocated and as the disk has it. -/
structure TableInv (fs : Fs) : Prop where
  inum_lt : ∀ ip, 0 < (fs.itable ip).ref → (fs.itable ip).inum < sb.ninodes
  distinct : ∀ ip jp, 0 < (fs.itable ip).ref → 0 < (fs.itable jp).ref →
    (fs.itable ip).inum = (fs.itable jp).inum → ip = jp
  synced : ∀ ip, 0 < (fs.itable ip).ref → (fs.itable ip).valid →
    (fs.itable ip).din = sb.dinodeOf fs.disk (fs.itable ip).inum
    ∧ (fs.itable ip).din.type ≠ 0

/-- The invariant of the file system code between its operations. -/
structure FsInv (fs : Fs) : Prop where
  disk : Partition sb fs.disk
  table : TableInv sb fs

variable {sb} {fs fs' : Fs} {ip : Fin NINODE}

/-- **One entry changes**, and with it its inode on disk. -/
theorem TableInv.change (h : TableInv sb fs) {e : Inode}
    (htable : fs'.itable = update fs.itable ip e) (hlt : 0 < e.ref → e.inum < sb.ninodes)
    (hother : ∀ jp, jp ≠ ip → 0 < (fs.itable jp).ref → (fs.itable jp).inum ≠ e.inum)
    (hsync : 0 < e.ref → e.valid →
      e.din = sb.dinodeOf fs'.disk e.inum ∧ e.din.type ≠ 0)
    (hdisk : ∀ j < sb.ninodes, j ≠ e.inum → sb.dinodeOf fs'.disk j = sb.dinodeOf fs.disk j) :
    TableInv sb fs' := by
  have hself : fs'.itable ip = e := by rw [htable, update_self]
  have hne : ∀ jp, jp ≠ ip → fs'.itable jp = fs.itable jp := fun jp hjp => by
    rw [htable, update_of_ne hjp]
  refine ⟨fun jp hjp => ?_, fun jp kp hjp hkp heq => ?_, fun jp hjp hv => ?_⟩
  · by_cases hj : jp = ip
    · subst hj
      rw [hself] at hjp ⊢
      exact hlt hjp
    · rw [hne jp hj] at hjp ⊢
      exact h.inum_lt jp hjp
  · by_cases hj : jp = ip <;> by_cases hk : kp = ip
    · rw [hj, hk]
    · rw [hj, hself, hne kp hk] at heq
      rw [hne kp hk] at hkp
      exact absurd heq.symm (hother kp hk hkp)
    · rw [hk, hself, hne jp hj] at heq
      rw [hne jp hj] at hjp
      exact absurd heq (hother jp hj hjp)
    · rw [hne jp hj, hne kp hk] at heq
      rw [hne jp hj] at hjp
      rw [hne kp hk] at hkp
      exact h.distinct jp kp hjp hkp heq
  · by_cases hj : jp = ip
    · subst hj
      rw [hself] at hjp hv ⊢
      exact hsync hjp hv
    · rw [hne jp hj] at hjp hv ⊢
      obtain ⟨heq, htype⟩ := h.synced jp hjp hv
      rw [hdisk _ (h.inum_lt jp hjp) (hother jp hj hjp)]
      exact ⟨heq, htype⟩

theorem TableInv.others (h : TableInv sb fs) (href : 0 < (fs.itable ip).ref) :
    ∀ jp, jp ≠ ip → 0 < (fs.itable jp).ref → (fs.itable jp).inum ≠ (fs.itable ip).inum :=
  fun jp hjp hj heq => hjp (h.distinct jp ip hj href heq)

/-- An entry that is locked owns the blocks of its inode. -/
theorem FsInv.owner (h : FsInv sb fs) (href : 0 < (fs.itable ip).ref)
    (hv : (fs.itable ip).valid) :
    Owner sb fs ip
    ∧ fs.blocksOf sb ip = ownedBy sb (sb.pool fs.disk).mem fs.disk (fs.itable ip).inum := by
  obtain ⟨hsync, htype⟩ := h.table.synced ip href hv
  have heq : fs.blocksOf sb ip
      = ownedBy sb (sb.pool fs.disk).mem fs.disk (fs.itable ip).inum := by
    unfold ownedBy
    rw [← hsync, if_neg htype]
    rfl
  refine ⟨⟨?_, h.disk.metaUsed⟩, heq⟩
  have hold := h.disk.holds
  rw [owned_eq_add _ (h.table.inum_lt ip href)] at hold
  rw [heq]
  exact hold.left

end Table

/-! ## The operations keep the invariant -/

section Operations

variable {sb : Superblock} {fs fs₁ : Fs} {ip : Fin NINODE}

/-- **A modified inode is stored**: the end of every operation that changed the
inode in an entry. -/
theorem FsInv.iupdated (h : FsInv sb fs) (href : 0 < (fs.itable ip).ref)
    (hv : (fs.itable ip).valid) (hon : OnInode sb ip fs fs₁) {d : Dinode}
    (haddrs : d.addrs = (fs₁.itable ip).din.addrs) (htype : d.type ≠ 0) :
    FsInv sb ((fs₁.setDin ip d).iupdated sb ip) := by
  obtain ⟨size, addrs, htable⟩ := hon.itable
  obtain ⟨-, hblocks⟩ := h.owner href hv
  have hlt := h.table.inum_lt ip href
  have hentry : fs₁.itable ip = { fs.itable ip with
      din := { (fs.itable ip).din with size := size, addrs := addrs } } := by
    rw [htable]
    exact update_self _ _ _
  have hinum : ((fs₁.setDin ip d).itable ip).inum = (fs.itable ip).inum := by
    rw [setDin_self, hentry]
  have hdin : ((fs₁.setDin ip d).itable ip).din = d := by rw [setDin_self]
  have hdisk : ((fs₁.setDin ip d).iupdated sb ip).disk
      = sb.putDinode fs₁.disk (fs.itable ip).inum d := by
    show sb.putDinode fs₁.disk ((fs₁.setDin ip d).itable ip).inum
      ((fs₁.setDin ip d).itable ip).din = _
    rw [hinum, hdin]
  have hpool : sb.pool (sb.putDinode fs₁.disk (fs.itable ip).inum d) = sb.pool fs₁.disk :=
    pool_putDinode hlt d
  have hother : ∀ j < sb.ninodes, j ≠ (fs.itable ip).inum →
      sb.dinodeOf (sb.putDinode fs₁.disk (fs.itable ip).inum d) j = sb.dinodeOf fs.disk j := by
    intro j hj hne
    rw [Superblock.dinodeOf_putDinode, if_neg hne, hon.moves.dinode j hj]
  refine ⟨?_, ?_⟩
  · rw [hdisk]
    refine h.disk.change hlt ?_
      (metaUsed_putDinode hlt d (hon.moves.metaUsed h.disk.metaUsed)) hother
    have hnew : ownedBy sb (sb.pool fs₁.disk).mem
        (sb.putDinode fs₁.disk (fs.itable ip).inum d) (fs.itable ip).inum
        = fs₁.blocksOf sb ip := by
      unfold ownedBy
      rw [Superblock.dinodeOf_putDinode, if_pos rfl, if_neg htype, haddrs]
      rfl
    rw [hpool, hnew, ← hblocks]
    exact hon.moves.exchange
  · refine h.table.change (e := { fs.itable ip with din := d }) ?_ (fun _ => hlt)
      (h.table.others href) (fun _ _ => ?_) ?_
    · show (fs₁.setDin ip d).itable = _
      unfold Fs.setDin Fs.setInode
      rw [htable]
      unfold Fs.setDin Fs.setInode
      simp only [update_self, update_idem]
    · rw [hdisk, Superblock.dinodeOf_putDinode, if_pos rfl]
      exact ⟨rfl, htype⟩
    · rw [hdisk]
      exact hother

theorem FsInv.setInode (h : FsInv sb fs) {e : Inode} (hlt : 0 < e.ref → e.inum < sb.ninodes)
    (hother : ∀ jp, jp ≠ ip → 0 < (fs.itable jp).ref → (fs.itable jp).inum ≠ e.inum)
    (hsync : 0 < e.ref → e.valid → e.din = sb.dinodeOf fs.disk e.inum ∧ e.din.type ≠ 0) :
    FsInv sb (fs.setInode ip e) :=
  ⟨h.disk, h.table.change (e := e) rfl hlt hother hsync fun _ _ _ => rfl⟩

/-- `ilock` ends with an inode that was read from disk. -/
theorem ilock_spec (h : FsInv sb fs) :
    Ends (ilock sb ip) fs NotDoubleFree fun _ fs' =>
      FsInv sb fs' ∧ 0 < (fs'.itable ip).ref ∧ (fs'.itable ip).valid = true := by
  unfold ilock
  refine ends_bind (getInode_ends ?_)
  split
  · exact ends_panic (by simp [NotDoubleFree])
  · rename_i href
    have href : 0 < (fs.itable ip).ref := by omega
    split
    · rename_i hv
      exact ends_pure ⟨h, href, hv⟩
    · refine ends_bind (bread_ends (ends_bind (modifyInode_ends ?_)))
      split
      · exact ends_panic (by simp [NotDoubleFree])
      · rename_i htype
        refine ends_pure ⟨h.setInode (fun _ => h.table.inum_lt ip href)
          (h.table.others href) fun _ _ => ⟨rfl, htype⟩, ?_⟩
        rw [setInode_self]
        exact ⟨href, rfl⟩

/-- `ilock` changes nothing on disk, and of its entry only the copy of the
inode. -/
theorem ilock_frame :
    Ends (ilock sb ip) fs (· ≠ .bmapOutOfRange) fun _ fs' =>
      fs'.disk = fs.disk ∧ ∀ jp, (fs'.itable jp).ref = (fs.itable jp).ref
        ∧ (fs'.itable jp).inum = (fs.itable jp).inum
        ∧ ((fs.itable jp).valid = true → (fs'.itable jp).valid = true) := by
  unfold ilock
  refine ends_bind (getInode_ends ?_)
  split
  · exact ends_panic (by simp)
  · split
    · exact ends_pure ⟨rfl, fun _ => ⟨rfl, rfl, id⟩⟩
    · refine ends_bind (bread_ends (ends_bind (modifyInode_ends ?_)))
      split
      · exact ends_panic (by simp)
      · refine ends_pure ⟨rfl, fun jp => ?_⟩
        by_cases hjp : jp = ip
        · subst hjp
          rw [setInode_self]
          exact ⟨rfl, rfl, fun _ => rfl⟩
        · rw [setInode_of_ne hjp]
          exact ⟨rfl, rfl, id⟩

/-- **A reference to an inode was taken**: one more to the entry that it has, or the first
one to an entry that was free. -/
inductive Taken (inum : ℕ) (fs : Fs) (ip : Fin NINODE) : Fs → Prop
  | again (href : 0 < (fs.itable ip).ref) (hinum : (fs.itable ip).inum = inum) :
    Taken inum fs ip (fs.setInode ip { fs.itable ip with ref := (fs.itable ip).ref + 1 })
  | anew (href : (fs.itable ip).ref = 0)
      (hnone : ∀ jp, 0 < (fs.itable jp).ref → (fs.itable jp).inum ≠ inum) :
    Taken inum fs ip (fs.setInode ip
      { fs.itable ip with inum := inum, ref := 1, valid := false })

/-- **`iget` takes a reference**; it panics if the inode has no entry and none is free. -/
theorem iget_taken (inum : ℕ) (fs : Fs) :
    Ends (iget inum) fs (fun e => e = .igetNoInodes ∧ (∀ jp, (fs.itable jp).ref ≠ 0)
      ∧ ∀ jp, 0 < (fs.itable jp).ref → (fs.itable jp).inum ≠ inum) (Taken inum fs) := by
  refine ends_bind (ends_get ?_)
  split
  · rename_i hfind
    have hthere := List.find?_some hfind
    simp only [decide_eq_true_eq] at hthere
    exact .again hthere.1 hthere.2
  · rename_i hfind
    have hnone : ∀ jp, 0 < (fs.itable jp).ref → (fs.itable jp).inum ≠ inum := fun jp href heq =>
      List.find?_eq_none.mp hfind jp (List.mem_finRange jp) (decide_eq_true ⟨href, heq⟩)
    split
    · rename_i hfull
      exact ⟨rfl, fun jp hzero => List.find?_eq_none.mp hfull jp (List.mem_finRange jp)
        (decide_eq_true hzero), hnone⟩
    · rename_i hfree
      exact .anew (by simpa using List.find?_some hfree) hnone

theorem Taken.inv {inum : ℕ} (ht : Taken inum fs ip fs') (h : FsInv sb fs)
    (hinum : inum < sb.ninodes) : FsInv sb fs' := by
  cases ht with
  | again href =>
    refine h.setInode (fun _ => h.table.inum_lt ip href) (h.table.others href) fun _ hv => ?_
    exact h.table.synced ip href hv
  | anew _ hnone => exact h.setInode (fun _ => hinum) (fun jp _ => hnone jp) fun _ hv => by cases hv

theorem iget_spec (h : FsInv sb fs) {inum : ℕ} (hinum : inum < sb.ninodes) :
    Ends (iget inum) fs NotDoubleFree fun _ fs' => FsInv sb fs' :=
  ((iget_taken inum fs).panic_mono (by rintro _ ⟨rfl, -⟩; simp [NotDoubleFree])).mono
    fun _ _ ht => ht.inv h hinum

/-- Allocating a free inode: it has no blocks before and none afterwards. -/
theorem FsInv.allocated (h : FsInv sb fs) {i : ℕ} (hi : i < sb.ninodes)
    (hfree : (sb.dinodeOf fs.disk i).type = 0) {d : Dinode} (haddrs : d.addrs = fun _ => 0)
    (l : List ℕ) : FsInv sb { fs with disk := sb.putDinode fs.disk i d, logged := l } := by
  have hother : ∀ j < sb.ninodes, j ≠ i →
      sb.dinodeOf (sb.putDinode fs.disk i d) j = sb.dinodeOf fs.disk j := fun j _ hne => by
    rw [Superblock.dinodeOf_putDinode, if_neg hne]
  refine ⟨h.disk.change hi ?_ (metaUsed_putDinode hi d h.disk.metaUsed) hother, ?_⟩
  · rw [pool_putDinode hi]
    have hold : ownedBy sb (sb.pool fs.disk).mem fs.disk i = 0 := if_pos hfree
    have hnew : ownedBy sb (sb.pool fs.disk).mem (sb.putDinode fs.disk i d) i = 0 := by
      unfold ownedBy
      rw [Superblock.dinodeOf_putDinode, if_pos rfl]
      split
      · rfl
      · rw [haddrs]
        exact blocks_zero _
    rw [hold, hnew]
    exact .refl _ _
  · refine ⟨h.table.inum_lt, h.table.distinct, fun jp hjp hv => ?_⟩
    obtain ⟨hsync, htype⟩ := h.table.synced jp hjp hv
    -- an entry that was read from disk has an allocated inode
    have hne : (fs.itable jp).inum ≠ i := by
      intro heq
      rw [hsync, heq] at htype
      exact htype hfree
    exact ⟨hsync.trans (hother _ (h.table.inum_lt jp hjp) hne).symm, htype⟩

theorem iallocLoop_spec (h : FsInv sb fs) (type : UInt16) (n inum : ℕ) :
    Ends (iallocLoop sb type n inum) fs NotDoubleFree fun _ fs' => FsInv sb fs' := by
  induction n generalizing inum with
  | zero => exact ends_panic (by simp [NotDoubleFree])
  | succ n ih =>
    rw [iallocLoop]
    split
    · rename_i hlt
      refine ends_bind (bread_ends ?_)
      split
      · rename_i hfree
        refine ends_bind (modifyData_ends (ends_bind (logWrite_ends ?_)))
        exact iget_spec (h.allocated hlt hfree rfl _) hlt
      · exact ih (inum + 1)
    · exact ends_panic (by simp [NotDoubleFree])

theorem OnInode.type_eq (h : OnInode sb ip fs fs₁) :
    (fs₁.itable ip).din.type = (fs.itable ip).din.type := by
  obtain ⟨size, addrs, htable⟩ := h.itable
  rw [htable, setDin_self]

theorem writei_spec (h : FsInv sb fs) (href : 0 < (fs.itable ip).ref)
    (hv : (fs.itable ip).valid) (src : ℕ → ℕ → CopyIn) (off n : UInt32) :
    Ends (writei sb ip src off n) fs NotDoubleFree fun _ fs' => FsInv sb fs' := by
  unfold writei
  refine ends_bind (getInode_ends ?_)
  generalize MAXFILE * BSIZE = limit
  split
  · exact ends_pure h
  · split
    · exact ends_pure h
    · refine ends_bind ((writeiLoop_spec (h.owner href hv).1 _ _ _ _).mono ?_)
      intro r fs₁ hon
      have htype := hon.type_eq ▸ (h.table.synced ip href hv).2
      refine ends_bind (modifyDin_ends (ends_bind (iupdate_ends (ends_pure ?_))))
      refine h.iupdated href hv hon ?_ ?_
      · split <;> rfl
      · split <;> exact htype

theorem setDin_din_eq_self (fs : Fs) (ip : Fin NINODE) :
    fs.setDin ip (fs.itable ip).din = fs := by
  unfold Fs.setDin Fs.setInode
  rw [update_eq_self]

/-- `itrunc` leaves an inode without addresses. -/
theorem itrunc_inv (h : FsInv sb fs) (href : 0 < (fs.itable ip).ref)
    (hv : (fs.itable ip).valid) :
    Ends (itrunc sb ip) fs NotDoubleFree fun _ fs' =>
      FsInv sb fs' ∧ 0 < (fs'.itable ip).ref ∧ (fs'.itable ip).valid = true
      ∧ (fs'.itable ip).din.addrs = fun _ => 0 := by
  refine (itrunc_spec (h.owner href hv).1).mono ?_
  rintro _ _ ⟨fs₁, hon, hzero, -, rfl⟩
  have hinv := h.iupdated href hv hon (d := (fs₁.itable ip).din) rfl
    (hon.type_eq ▸ (h.table.synced ip href hv).2)
  rw [setDin_din_eq_self] at hinv
  obtain ⟨size, addrs, htable⟩ := hon.itable
  refine ⟨hinv, ?_, ?_, hzero⟩
  · show 0 < (fs₁.itable ip).ref
    rw [htable, setDin_self]
    exact href
  · show (fs₁.itable ip).valid = true
    rw [htable, setDin_self]
    exact hv

/-- **An inode without blocks is freed**: the end of the first part of `iput`. -/
theorem FsInv.freed (h : FsInv sb fs) (href : 0 < (fs.itable ip).ref)
    (hv : (fs.itable ip).valid) (hzero : (fs.itable ip).din.addrs = fun _ => 0) {d : Dinode}
    (htype : d.type = 0) :
    FsInv sb (((fs.setDin ip d).iupdated sb ip).setInode ip
      { ((fs.setDin ip d).iupdated sb ip).itable ip with valid := false }) := by
  have hlt := h.table.inum_lt ip href
  have hentry : ((fs.setDin ip d).iupdated sb ip).itable ip = { fs.itable ip with din := d } :=
    setDin_self d
  have hdisk : ((fs.setDin ip d).iupdated sb ip).disk
      = sb.putDinode fs.disk (fs.itable ip).inum d := by
    show sb.putDinode fs.disk ((fs.setDin ip d).itable ip).inum ((fs.setDin ip d).itable ip).din = _
    rw [setDin_self]
  have hother : ∀ j < sb.ninodes, j ≠ (fs.itable ip).inum →
      sb.dinodeOf (sb.putDinode fs.disk (fs.itable ip).inum d) j = sb.dinodeOf fs.disk j :=
    fun j _ hne => by rw [Superblock.dinodeOf_putDinode, if_neg hne]
  refine ⟨?_, ?_⟩
  · show Partition sb ((fs.setDin ip d).iupdated sb ip).disk
    rw [hdisk]
    refine h.disk.change hlt ?_ (metaUsed_putDinode hlt d h.disk.metaUsed) hother
    rw [pool_putDinode hlt]
    have hold : ownedBy sb (sb.pool fs.disk).mem fs.disk (fs.itable ip).inum = 0 := by
      rw [← (h.owner href hv).2]
      unfold Fs.blocksOf
      rw [hzero]
      exact blocks_zero _
    have hnew : ownedBy sb (sb.pool fs.disk).mem
        (sb.putDinode fs.disk (fs.itable ip).inum d) (fs.itable ip).inum = 0 := by
      unfold ownedBy
      rw [Superblock.dinodeOf_putDinode, if_pos rfl, if_pos htype]
    rw [hold, hnew]
    exact .refl _ _
  · refine h.table.change (e := { fs.itable ip with din := d, valid := false }) ?_ (fun _ => hlt)
      (h.table.others href) (fun _ hv => by cases hv) ?_
    · rw [hentry]
      exact update_idem _ _ _
    · show ∀ j < sb.ninodes, _ → sb.dinodeOf ((fs.setDin ip d).iupdated sb ip).disk j = _
      rw [hdisk]
      exact hother

/-- **`iput` keeps the invariant**, whether or not it frees the inode. -/
theorem iput_inv (h : FsInv sb fs) (href : 0 < (fs.itable ip).ref) :
    Ends (iput sb ip) fs NotDoubleFree fun _ fs' => FsInv sb fs' := by
  unfold iput
  refine ends_bind (Ends.mono
    (Q := fun _ fs' => FsInv sb fs' ∧ 0 < (fs'.itable ip).ref) ?_ ?_)
  · unfold iputFree
    refine ends_bind (getInode_ends ?_)
    split
    · rename_i hcond
      refine ends_bind ((itrunc_inv h href hcond.2.1).mono ?_)
      rintro _ fs₁ ⟨hinv, href₁, hv₁, hzero⟩
      refine ends_bind (modifyDin_ends (ends_bind (iupdate_ends
        (modifyInode_ends ⟨hinv.freed href₁ hv₁ hzero rfl, ?_⟩))))
      rw [setInode_self]
      show 0 < ((fs₁.setDin ip _).itable ip).ref
      rw [setDin_self]
      exact href₁
    · exact ends_pure ⟨h, href⟩
  · rintro _ fs₁ ⟨hinv, href₁⟩
    refine modifyInode_ends (hinv.setInode (fun _ => hinv.table.inum_lt ip href₁)
      (hinv.table.others href₁) fun _ hv => hinv.table.synced ip href₁ hv)

end Operations

/-! ## Runs of the file system code -/

/-- An operation of the file system code on an inode. Those on an entry of the
table lock it first; `setattr` stands for the changes of device numbers and
link counts that the system calls make. -/
inductive FsOp (sb : Superblock)
  | ialloc (type : UInt16)
  | iget (inum : Fin sb.ninodes)
  | idup (ip : Fin NINODE)
  | setattr (ip : Fin NINODE) (major minor nlink : UInt16)
  | writei (ip : Fin NINODE) (src : ℕ → ℕ → CopyIn) (off n : UInt32)
  | itrunc (ip : Fin NINODE)
  | iput (ip : Fin NINODE)

namespace FsOp

variable {sb : Superblock}

/-- The code of an operation. -/
def code : FsOp sb → FsProg Unit
  | ialloc type => do
    let _ ← Xv6.ialloc sb type
    pure ()
  | iget inum => do
    let _ ← Xv6.iget inum
    pure ()
  | idup ip => Xv6.idup ip
  | setattr ip major minor nlink => do
    ilock sb ip
    modifyDin ip fun d => { d with major := major, minor := minor, nlink := nlink }
    iupdate sb ip
  | writei ip src off n => do
    ilock sb ip
    let _ ← Xv6.writei sb ip src off n
    pure ()
  | itrunc ip => do
    ilock sb ip
    Xv6.itrunc sb ip
  | iput ip => Xv6.iput sb ip

/-- The caller has a reference to the inode it works on. -/
def Referenced (fs : Fs) : FsOp sb → Prop
  | ialloc _ | iget _ => True
  | idup ip | setattr ip _ _ _ | writei ip _ _ _ | itrunc ip | iput ip => 0 < (fs.itable ip).ref

instance (fs : Fs) (op : FsOp sb) : Decidable (op.Referenced fs) := by
  cases op <;> unfold Referenced <;> infer_instance

/-- One operation, as a step of a machine. -/
def step (fs : Fs) (op : FsOp sb) : Outcome Fs FsPanic :=
  match op.code fs with
  | .ok (_, fs') => .next fs'
  | .error e => .panic e

/-- **Every operation keeps the invariant**, and does not free a free block. -/
theorem code_inv {fs : Fs} (h : FsInv sb fs) (op : FsOp sb) (href : op.Referenced fs) :
    Ends op.code fs NotDoubleFree fun _ fs' => FsInv sb fs' := by
  cases op with
  | ialloc type => exact ends_bind ((iallocLoop_spec h type _ 1).mono fun _ _ h => h)
  | iget inum => exact ends_bind ((iget_spec h inum.isLt).mono fun _ _ h => h)
  | idup ip =>
    show FsInv sb (fs.setInode ip { fs.itable ip with ref := (fs.itable ip).ref + 1 })
    exact h.setInode (fun _ => h.table.inum_lt ip href) (h.table.others href)
      fun _ hv => h.table.synced ip href hv
  | setattr ip major minor nlink =>
    refine ends_bind ((ilock_spec h).mono ?_)
    rintro _ fs₁ ⟨hinv, href₁, hv₁⟩
    exact ends_bind (modifyDin_ends (iupdate_ends
      (hinv.iupdated href₁ hv₁ (.refl _ _ _) rfl (hinv.table.synced ip href₁ hv₁).2)))
  | writei ip src off n =>
    refine ends_bind ((ilock_spec h).mono ?_)
    rintro _ fs₁ ⟨hinv, href₁, hv₁⟩
    exact ends_bind ((writei_spec hinv href₁ hv₁ src off n).mono fun _ _ h => h)
  | itrunc ip =>
    refine ends_bind ((ilock_spec h).mono ?_)
    rintro _ fs₁ ⟨hinv, href₁, hv₁⟩
    exact (itrunc_inv hinv href₁ hv₁).mono fun _ _ h => h.1
  | iput ip => exact iput_inv h href

end FsOp

/-- The file system code after boot: no inode is in use. -/
def Fs.boot (disk : Disk) : Fs where
  disk := disk
  logged := []
  itable _ := ⟨0, 0, false, ⟨0, 0, 0, 0, 0, fun _ => 0⟩⟩

theorem FsInv.boot {sb : Superblock} {disk : Disk} (h : BlockOwnership sb disk) :
    FsInv sb (Fs.boot disk) where
  disk := blockOwnership_iff_partition.mp h
  table := ⟨fun _ h => absurd h (lt_irrefl 0), fun _ _ h => absurd h (lt_irrefl 0),
    fun _ h => absurd h (lt_irrefl 0)⟩

/-- **Every data block has one owner.** From any disk on which the blocks are
owned properly, they are after every sequence of operations on any inodes,
and no operation panics because it frees a free block. -/
theorem block_ownership {sb : Superblock} {disk : Disk} (h : BlockOwnership sb disk) {fs : Fs}
    (hreach : Machine.Reach FsOp.step (fun fs (op : FsOp sb) => op.Referenced fs)
      (Fs.boot disk) fs) :
    BlockOwnership sb fs.disk
    ∧ ∀ op : FsOp sb, op.Referenced fs → FsOp.step fs op ≠ .panic .freeingFreeBlock := by
  have hinv : FsInv sb fs := by
    refine hreach.invariant (.boot h) fun fs op fs' hinv href hstep => ?_
    unfold FsOp.step at hstep
    split at hstep
    · rename_i _ _ hrun
      exact Outcome.next.inj hstep ▸ (op.code_inv hinv href).of_ok hrun
    · cases hstep
  refine ⟨blockOwnership_iff_partition.mpr hinv.disk, fun op href hpanic => ?_⟩
  unfold FsOp.step at hpanic
  split at hpanic
  · cases hpanic
  · rename_i e hrun
    exact (op.code_inv hinv href).of_error hrun (Outcome.panic.inj hpanic)

/-! ## An empty disk -/

/-- The layout of a disk of 1000 blocks and 200 inodes, as `mkfs` makes it. -/
def mkfsSuper : Superblock where
  size := 1000
  ninodes := 200
  nlog := LOGSIZE
  logstart := 2
  inodestart := 32
  bmapstart := 45
  log_fits := by decide
  inodes_fit := by decide
  bitmap_fits := by decide
  size_lt := by decide

/-- A disk without inodes: the 46 blocks of metadata are marked as used. -/
def emptyDisk : Disk := fun b =>
  if b = 45 then fun i => if i.val < 5 then 255 else if i.val = 5 then 63 else 0
  else .fill BSIZE 0

theorem emptyDisk_dinode {i : ℕ} (hi : i < mkfsSuper.ninodes) :
    (mkfsSuper.dinodeOf emptyDisk i).type = 0 := by
  have h : ∀ i : Fin 200, (mkfsSuper.dinodeOf emptyDisk i).type = 0 := by decide +kernel
  exact h ⟨i, hi⟩

theorem emptyDisk_bit {b : ℕ} (hb : b < 1000) :
    mkfsSuper.bitOf emptyDisk b = decide (b < 46) := by
  have h : ∀ b : Fin 1000, mkfsSuper.bitOf emptyDisk b = decide ((b : ℕ) < 46) := by
    decide +kernel
  exact h ⟨b, hb⟩

theorem emptyDisk_ownership : BlockOwnership mkfsSuper emptyDisk :=
  .of_empty (fun _ hi => emptyDisk_dinode hi) fun _ hb => emptyDisk_bit hb

/-- On the empty disk a file gets two blocks, and another one a block, whose bytes
cannot be copied in, and is given up. -/
def twoFiles : List (FsOp mkfsSuper) :=
  [.ialloc 2, .ialloc 2, .writei 0 (fun _ m => ⟨List.replicate m 7, true⟩) 0 2000,
    .writei 1 (fun _ _ => ⟨[], false⟩) 0 1, .iput 1]

theorem block_ownership_twoFiles :
    ∃ fs, Machine.Reach FsOp.step (fun fs (op : FsOp mkfsSuper) => op.Referenced fs)
        (Fs.boot emptyDisk) fs
      ∧ ((mkfsSuper.dinodeOf fs.disk 1).addrs 0 = 46 ∧ (mkfsSuper.dinodeOf fs.disk 1).addrs 1 = 47
        ∧ mkfsSuper.bitOf fs.disk 47 = true ∧ mkfsSuper.bitOf fs.disk 48 = false)
      ∧ BlockOwnership mkfsSuper fs.disk := by
  obtain ⟨fs, hreach, howns⟩ : ∃ fs, Machine.Reach FsOp.step
      (fun fs (op : FsOp mkfsSuper) => op.Referenced fs) (Fs.boot emptyDisk) fs
      ∧ (mkfsSuper.dinodeOf fs.disk 1).addrs 0 = 46 ∧ (mkfsSuper.dinodeOf fs.disk 1).addrs 1 = 47
        ∧ mkfsSuper.bitOf fs.disk 47 = true ∧ mkfsSuper.bitOf fs.disk 48 = false :=
    Machine.exists_reach_of_run (l := twoFiles) (by decide +kernel)
  exact ⟨fs, hreach, howns, (block_ownership emptyDisk_ownership hreach).1⟩

/-- **The bits of the metadata matter.** With the bit of the bitmap block clear the
data blocks can have their owners all the same; then the first block of a new file
is the bitmap block. -/
theorem unmarked_metadata_is_handed_out :
    ¬ ∀ (sb : Superblock) (disk : Disk) (fs : Fs), DataOwnership sb disk →
      Machine.Reach FsOp.step (fun fs (op : FsOp sb) => op.Referenced fs) (Fs.boot disk) fs →
      DataOwnership sb fs.disk := by
  intro h
  have hfree : DataOwnership mkfsSuper (mkfsSuper.markFree emptyDisk 45) := by
    refine .of_empty (fun i hi => ?_) fun b hb hsize => ?_
    · have htype : ∀ i : Fin 200,
          (mkfsSuper.dinodeOf (mkfsSuper.markFree emptyDisk 45) i).type = 0 := by decide +kernel
      exact htype ⟨i, hi⟩
    · have hle : 46 ≤ b := hb
      rw [Superblock.bitOf_markFree, if_neg (by omega), emptyDisk_bit hsize]
      exact decide_eq_false (by omega)
  obtain ⟨fs, hreach, htype, haddr⟩ : ∃ fs, Machine.Reach FsOp.step
      (fun fs (op : FsOp mkfsSuper) => op.Referenced fs)
      (Fs.boot (mkfsSuper.markFree emptyDisk 45)) fs
      ∧ (mkfsSuper.dinodeOf fs.disk 1).type ≠ 0
      ∧ (mkfsSuper.dinodeOf fs.disk 1).addrs (Fin.castSucc ⟨0, by decide⟩) = 45 :=
    Machine.exists_reach_of_run (l := [.ialloc 2, .writei 0 (fun _ _ => ⟨[7], true⟩) 0 1])
      (by decide +kernel)
  have hmem : 45 ∈ owned mkfsSuper fs.disk fs.disk := by
    refine mem_owned.mpr ⟨1, by decide, ?_⟩
    unfold ownedBy
    rw [if_neg htype]
    have hdirect : _ ∈ fileBlocks fs.disk (mkfsSuper.dinodeOf fs.disk 1).addrs :=
      direct_mem_fileBlocks (ne_of_eq_of_ne haddr (by decide))
    rw [haddr] at hdirect
    exact Multiset.mem_add.mpr (.inr hdirect)
  exact absurd ((h mkfsSuper _ fs hfree hreach).inRange 45 hmem).1 (by decide)

/-! ## The bitmap -/

/-- The block that `balloc` hands out is the first one with a clear bit. -/
theorem balloc_of_first {sb : Superblock} {fs : Fs} {b : ℕ} (hb : b < sb.size)
    (hclear : sb.bitOf fs.disk b = false) (hbefore : ∀ c < b, sb.bitOf fs.disk c = true) :
    ∃ fs', balloc sb fs = .ok (b, fs') ∧ fs'.disk = sb.allocated fs.disk b := by
  obtain ⟨r, fs', hrun, -, hr, hset, rfl⟩ := (balloc_ends (P := fun _ => False)
    fun h => nomatch hclear.symm.trans (h b hb)).exists_ok
  rcases lt_trichotomy r b with h | rfl | h
  · exact nomatch hr.symm.trans (hbefore r h)
  · exact ⟨_, hrun, rfl⟩
  · exact nomatch hclear.symm.trans (hset b h)

/-- Zeroing a block that is not of the bitmap changes no bit of it. -/
theorem bitOf_allocated {sb : Superblock} {disk : Disk} {b c : ℕ}
    (hb : ¬ (sb.bmapstart ≤ b ∧ b < sb.datastart)) (hc : sb.BBLOCK c < sb.datastart) :
    sb.bitOf (sb.allocated disk b) c = if c = b then true else sb.bitOf disk c := by
  have hne : sb.BBLOCK c ≠ b := fun h => hb ⟨h ▸ sb.bmapstart_le_BBLOCK c, h ▸ hc⟩
  rw [← Superblock.bitOf_markUsed]
  exact congrArg (Bytes.getBit · _) (update_of_ne hne _ _)

/-- **Bitmap allocation is exact.** `balloc` hands out the first block with a
clear bit, zeroed; if that is not a block of the bitmap, its bit is set, no other
bit of the bitmap changes, and `bfree` restores them all. `balloc` panics if and
only if no bit is clear, and `bfree` of a used block clears its bit alone. -/
theorem balloc_bfree_exact (sb : Superblock) (fs : Fs) :
    (∀ b < sb.size, sb.bitOf fs.disk b = false → (∀ c < b, sb.bitOf fs.disk c = true) →
      ∃ fs', balloc sb fs = .ok (b, fs') ∧ fs'.disk b = .fill BSIZE 0
        ∧ (¬ (sb.bmapstart ≤ b ∧ b < sb.datastart) →
          (∀ c, sb.BBLOCK c < sb.datastart →
            sb.bitOf fs'.disk c = if c = b then true else sb.bitOf fs.disk c)
          ∧ ∃ fs'', bfree sb b fs' = .ok ((), fs'')
            ∧ ∀ c, sb.BBLOCK c < sb.datastart → sb.bitOf fs''.disk c = sb.bitOf fs.disk c))
    ∧ (balloc sb fs = .error .ballocOutOfBlocks ↔ ∀ c < sb.size, sb.bitOf fs.disk c = true)
    ∧ ∀ b < sb.size, sb.bitOf fs.disk b = true →
      ∃ fs', bfree sb b fs = .ok ((), fs')
        ∧ ∀ c, sb.bitOf fs'.disk c = if c = b then false else sb.bitOf fs.disk c := by
  have hfree : ∀ {fs : Fs} {b : ℕ}, sb.bitOf fs.disk b = true →
      ∃ fs', bfree sb b fs = .ok ((), fs')
        ∧ ∀ c, sb.bitOf fs'.disk c = if c = b then false else sb.bitOf fs.disk c := by
    intro fs b hbit
    obtain ⟨_, fs', hrun, -, rfl⟩ := (bfree_ends (P := fun _ => False)
      fun h => nomatch hbit.symm.trans h).exists_ok
    exact ⟨_, hrun, Superblock.bitOf_markFree b⟩
  refine ⟨fun b hb hclear hbefore => ?_, ⟨fun herr c hc => ?_, fun hall => ?_⟩,
    fun b _ => hfree⟩
  · obtain ⟨fs', hrun, hdisk⟩ := balloc_of_first hb hclear hbefore
    refine ⟨fs', hrun, by rw [hdisk]; exact update_self .., fun hmap => ?_⟩
    have hbits : ∀ c, sb.BBLOCK c < sb.datastart →
        sb.bitOf fs'.disk c = if c = b then true else sb.bitOf fs.disk c := by
      rw [hdisk]
      exact fun c => bitOf_allocated hmap
    obtain ⟨fs'', hrun', hfreed⟩ := hfree ((hbits b (sb.BBLOCK_lt hb)).trans (if_pos rfl))
    refine ⟨hbits, fs'', hrun', fun c hc => ?_⟩
    rw [hfreed, hbits c hc]
    split
    · rename_i heq
      rw [heq, hclear]
    · rfl
  · by_contra hclear
    exact (balloc_ends (P := fun _ => False) fun h => hclear (h c hc)).of_error herr
  · cases hrun : balloc sb fs with
    | ok r =>
      obtain ⟨hr, hclear, -⟩ := (balloc_ends (P := fun _ => True) fun _ => trivial).of_ok hrun
      exact nomatch hclear.symm.trans (hall _ hr)
    | error e => rw [(balloc_ends (P := (· = .ballocOutOfBlocks)) fun _ => rfl).of_error hrun]

/-- With the bit of the bitmap block clear and those before it set, `balloc` hands
out the bitmap block, and zeroing it clears every bit, its own too. -/
theorem balloc_zeroes_bitmap :
    let disk := mkfsSuper.markFree emptyDisk 45
    mkfsSuper.bitOf disk 45 = false ∧ (∀ c < 45, mkfsSuper.bitOf disk c = true)
    ∧ ∃ fs', balloc mkfsSuper (Fs.boot disk) = .ok (45, fs')
      ∧ mkfsSuper.bitOf fs'.disk 45 = false ∧ mkfsSuper.bitOf fs'.disk 0 = false := by
  have hclear : mkfsSuper.bitOf (mkfsSuper.markFree emptyDisk 45) 45 = false :=
    mkfsSuper.bitOf_markFree 45 45
  have hset : ∀ c < 45, mkfsSuper.bitOf (mkfsSuper.markFree emptyDisk 45) c = true := by
    intro c hc
    rw [Superblock.bitOf_markFree, if_neg hc.ne, emptyDisk_bit (by omega)]
    exact decide_eq_true (by omega)
  obtain ⟨fs', hrun, hdisk⟩ : ∃ fs', balloc mkfsSuper (Fs.boot _) = .ok (45, fs') ∧ _ :=
    balloc_of_first (by decide) hclear hset
  exact ⟨hclear, hset, fs', hrun, by rw [hdisk]; rfl, by rw [hdisk]; rfl⟩

end Xv6
