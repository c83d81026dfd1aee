import Xv6.BlockAlloc

/-!
# The blocks of an inode

The inode layer of `fs.c`: the inode table (`iget`, `idup`, `ilock`, `iput`),
the map from the blocks of a file to blocks of the disk (`bmap`), and the
functions that make a file grow or vanish (`ialloc`, `writei`, `itrunc`). The
calls are made one after the other; an inode a caller has locked is its own,
so locking itself leaves no trace here.

An inode owns the blocks its addresses name: the direct ones, the indirect
block, and the ones that the indirect block names (`blocks`). The copy of
the inode in memory is ahead of the disk until `iupdate` stores it.
-/

open Function Multiset

open Prog hiding get modify panic result

namespace Xv6

open Pool

/-! ## The functions -/

/-- The `j`-th address in an indirect block. -/
def word (data : Block) (j : ℕ) : UInt32 := UInt32.ofNat (data.getLE (4 * j) 4)

/-- An entry of the inode table. -/
def getInode (ip : Fin NINODE) : FsProg Inode := do
  let fs ← Prog.get
  pure (fs.itable ip)

/-- The state with another entry in the inode table. -/
def Fs.setInode (fs : Fs) (ip : Fin NINODE) (e : Inode) : Fs :=
  { fs with itable := update fs.itable ip e }

/-- The state with another inode in an entry. -/
def Fs.setDin (fs : Fs) (ip : Fin NINODE) (d : Dinode) : Fs :=
  fs.setInode ip { fs.itable ip with din := d }

/-- Change an entry of the inode table. -/
def modifyInode (ip : Fin NINODE) (f : Inode → Inode) : FsProg Unit :=
  Prog.modify fun fs => fs.setInode ip (f (fs.itable ip))

/-- Change the inode in an entry. -/
def modifyDin (ip : Fin NINODE) (f : Dinode → Dinode) : FsProg Unit :=
  Prog.modify fun fs => fs.setDin ip (f (fs.itable ip).din)

section

variable {fs : Fs} {ip : Fin NINODE} {P : FsPanic → Prop}

@[simp] theorem setDin_disk (d : Dinode) : (fs.setDin ip d).disk = fs.disk := rfl

@[simp] theorem setInode_self (e : Inode) : (fs.setInode ip e).itable ip = e :=
  update_self _ _ _

@[simp] theorem setDin_self (d : Dinode) :
    (fs.setDin ip d).itable ip = { fs.itable ip with din := d } :=
  update_self _ _ _

theorem setInode_of_ne {jp : Fin NINODE} (h : jp ≠ ip) (e : Inode) :
    (fs.setInode ip e).itable jp = fs.itable jp :=
  update_of_ne h _ _

theorem getInode_ends {Q : Inode → Fs → Prop} (h : Q (fs.itable ip) fs) :
    Ends (getInode ip) fs P Q := h

theorem getInode_bind {α : Type} {f : Inode → FsProg α} :
    (getInode ip >>= f) fs = f (fs.itable ip) fs := rfl

theorem modifyInode_ends {f : Inode → Inode} {Q : Unit → Fs → Prop}
    (h : Q () (fs.setInode ip (f (fs.itable ip)))) : Ends (modifyInode ip f) fs P Q := h

theorem modifyDin_ends {f : Dinode → Dinode} {Q : Unit → Fs → Prop}
    (h : Q () (fs.setDin ip (f (fs.itable ip).din))) : Ends (modifyDin ip f) fs P Q := h

end

/-- Set a block address. -/
def Dinode.setAddr (d : Dinode) (k : Fin (NDIRECT + 1)) (a : UInt32) : Dinode :=
  { d with addrs := update d.addrs k a }

@[simp] theorem Dinode.setAddr_self (d : Dinode) (k : Fin (NDIRECT + 1)) (a : UInt32) :
    (d.setAddr k a).addrs k = a :=
  update_self _ _ _

section

variable (sb : Superblock)

/-- Copy a modified inode to disk. -/
def iupdate (ip : Fin NINODE) : FsProg Unit := do
  let e ← getInode ip
  modifyData (sb.IBLOCK e.inum) fun data => e.din.store data (e.inum % IPB)
  logWrite (sb.IBLOCK e.inum)

/-- The entry of inode `inum`, with one more reference: the one there is, or a
recycled one. -/
def iget (inum : ℕ) : FsProg (Fin NINODE) := do
  let fs ← Prog.get
  match (List.finRange NINODE).find? fun ip =>
      0 < (fs.itable ip).ref ∧ (fs.itable ip).inum = inum with
  | some ip => do
    modifyInode ip fun e => { e with ref := e.ref + 1 }
    pure ip
  | none =>
    match (List.finRange NINODE).find? fun ip => (fs.itable ip).ref = 0 with
    | none => Prog.panic .igetNoInodes
    | some ip => do
      modifyInode ip fun e => { e with inum := inum, ref := 1, valid := false }
      pure ip

/-- One more reference to an entry. -/
def idup (ip : Fin NINODE) : FsProg Unit := modifyInode ip fun e => { e with ref := e.ref + 1 }

/-- Lock an inode, reading it from disk if necessary. -/
def ilock (ip : Fin NINODE) : FsProg Unit := do
  let e ← getInode ip
  if e.ref < 1 then Prog.panic .ilock
  else if e.valid then pure ()
  else do
    let data ← bread (sb.IBLOCK e.inum)
    modifyInode ip fun e => { e with din := .load data (e.inum % IPB), valid := true }
    if (Dinode.load data (e.inum % IPB)).type = 0 then Prog.panic .ilockNoType else pure ()

/-- The loop of `ialloc` over the inodes. -/
def iallocLoop (type : UInt16) : ℕ → ℕ → FsProg (Fin NINODE)
  | 0, _ => Prog.panic .iallocNoInodes
  | n + 1, inum =>
    if inum < sb.ninodes then do
      let data ← bread (sb.IBLOCK inum)
      if (Dinode.load data (inum % IPB)).type = 0 then do
        modifyData (sb.IBLOCK inum) fun data =>
          Dinode.store ⟨type, 0, 0, 0, 0, fun _ => 0⟩ data (inum % IPB)
        logWrite (sb.IBLOCK inum)
        iget inum
      else iallocLoop type n (inum + 1)
    else Prog.panic .iallocNoInodes

/-- Allocate an inode, with the given type. -/
def ialloc (type : UInt16) : FsProg (Fin NINODE) := iallocLoop sb type sb.ninodes 1

/-- The block in a slot of `addrs`; one is allocated if there is none. -/
def slotBlock (ip : Fin NINODE) (k : Fin (NDIRECT + 1)) : FsProg ℕ := do
  let e ← getInode ip
  if e.din.addrs k = 0 then do
    let addr ← balloc sb
    modifyDin ip fun d => d.setAddr k (UInt32.ofNat addr)
    pure addr
  else pure (e.din.addrs k).toNat

/-- The block with the `bn`-th block of a file; what is missing is allocated. -/
def bmap (ip : Fin NINODE) (bn : ℕ) : FsProg ℕ :=
  if h : bn < NDIRECT then
    slotBlock sb ip (Fin.castSucc ⟨bn, h⟩)
  else if bn - NDIRECT < NINDIRECT then do
    let addr ← slotBlock sb ip (Fin.last NDIRECT)
    let data ← bread addr
    if word data (bn - NDIRECT) = 0 then do
      let b ← balloc sb
      modifyData addr fun data => data.setLE (4 * (bn - NDIRECT)) 4 b
      logWrite addr
      pure b
    else pure (word data (bn - NDIRECT)).toNat
  else Prog.panic .bmapOutOfRange

/-- The first loop of `itrunc`, over the direct addresses. -/
def itruncDirect (ip : Fin NINODE) : List (Fin NDIRECT) → FsProg Unit
  | [] => pure ()
  | i :: is => do
    let e ← getInode ip
    if e.din.addrs i.castSucc = 0 then itruncDirect ip is
    else do
      bfree sb (e.din.addrs i.castSucc).toNat
      modifyDin ip fun d => d.setAddr i.castSucc 0
      itruncDirect ip is

/-- The second loop of `itrunc`, over the addresses in the indirect block. -/
def itruncIndirect (data : Block) : List ℕ → FsProg Unit
  | [] => pure ()
  | j :: js =>
    if word data j = 0 then itruncIndirect data js
    else do
      bfree sb (word data j).toNat
      itruncIndirect data js

/-- The indirect block in `itrunc`: the blocks it names are freed, and itself. -/
def itruncLast (ip : Fin NINODE) : FsProg Unit := do
  let e ← getInode ip
  if e.din.addrs (Fin.last NDIRECT) = 0 then pure ()
  else do
    let data ← bread (e.din.addrs (Fin.last NDIRECT)).toNat
    itruncIndirect sb data (List.range NINDIRECT)
    bfree sb (e.din.addrs (Fin.last NDIRECT)).toNat
    modifyDin ip fun d => d.setAddr (Fin.last NDIRECT) 0

/-- Discard the contents of an inode. -/
def itrunc (ip : Fin NINODE) : FsProg Unit := do
  itruncDirect sb ip (List.finRange NDIRECT)
  itruncLast sb ip
  modifyDin ip fun d => { d with size := 0 }
  iupdate sb ip

/-- The first part of `iput`: free the inode if this is the last reference and
no directory entry names it. -/
def iputFree (ip : Fin NINODE) : FsProg Unit := do
  let e ← getInode ip
  if e.ref = 1 ∧ e.valid ∧ e.din.nlink = 0 then do
    itrunc sb ip
    modifyDin ip fun d => { d with type := 0 }
    iupdate sb ip
    modifyInode ip fun e => { e with valid := false }
  else pure ()

/-- Drop a reference to an inode. -/
def iput (ip : Fin NINODE) : FsProg Unit := do
  iputFree sb ip
  modifyInode ip fun e => { e with ref := e.ref - 1 }

/-- What `either_copyin` did: the bytes it stored, and whether it returned 0.
It may have stored a part of them before it failed. -/
structure CopyIn where
  bytes : List UInt8
  ok : Bool

/-- The loop of `writei`: `left` bytes from place `tot` of the source on to
offset `off` of the file. It returns what was written and where it stopped. -/
def writeiLoop (ip : Fin NINODE) (src : ℕ → ℕ → CopyIn) (left off tot : ℕ) : FsProg (ℕ × ℕ) :=
  if hleft : left = 0 then pure (tot, off)
  else do
    let b ← bmap sb ip (off / BSIZE)
    let m := min left (BSIZE - off % BSIZE)
    modifyData b fun data => data.blit (off % BSIZE) ((src tot m).bytes.take m)
    if (src tot m).ok then do
      logWrite b
      have : left - m < left := by
        have hoff : off % BSIZE < BSIZE := Nat.mod_lt _ (by decide)
        omega
      writeiLoop ip src (left - m) (off + m) (tot + m)
    else pure (tot, off)
termination_by left

/-- Write `n` bytes at offset `off` of an inode. -/
def writei (ip : Fin NINODE) (src : ℕ → ℕ → CopyIn) (off n : UInt32) : FsProg ℤ := do
  let e ← getInode ip
  if off > e.din.size ∨ off + n < off then pure (-1)
  else if MAXFILE * BSIZE < (off + n).toNat then pure (-1)
  else do
    let r ← writeiLoop sb ip src n.toNat off.toNat 0
    modifyDin ip fun d => if d.size.toNat < r.2 then { d with size := UInt32.ofNat r.2 } else d
    iupdate sb ip
    pure r.1

end

/-! ## The blocks an inode owns

These definitions stay folded: an address is read from the bytes of a block,
and nothing below is gained by looking at them. -/

/-- The block an address names; none if it is zero. -/
@[irreducible] def ptr (a : UInt32) : Multiset ℕ := if a = 0 then 0 else {a.toNat}

/-- The blocks that an indirect block names. -/
@[irreducible] def entries (mem : ℕ → Block) (a : UInt32) : Multiset ℕ :=
  if a = 0 then 0 else ∑ j ∈ Finset.range NINDIRECT, ptr (word (mem a.toNat) j)

/-- The blocks with the contents of a file. -/
def fileBlocks (mem : ℕ → Block) (addrs : Fin (NDIRECT + 1) → UInt32) : Multiset ℕ :=
  ∑ i : Fin NDIRECT, ptr (addrs i.castSucc) + entries mem (addrs (Fin.last NDIRECT))

/-- The blocks an inode owns: those, and the indirect block. -/
def blocks (mem : ℕ → Block) (addrs : Fin (NDIRECT + 1) → UInt32) : Multiset ℕ :=
  ptr (addrs (Fin.last NDIRECT)) + fileBlocks mem addrs

section Footprint

variable {mem mem' : ℕ → Block} {addrs : Fin (NDIRECT + 1) → UInt32} {a : UInt32}

@[simp] theorem ptr_zero : ptr 0 = 0 := by
  unfold ptr
  exact if_pos rfl

theorem ptr_of_ne (h : a ≠ 0) : ptr a = {a.toNat} := by
  unfold ptr
  exact if_neg h

theorem entries_zero (mem : ℕ → Block) : entries mem 0 = 0 := by
  unfold entries
  exact if_pos rfl

theorem entries_of_ne (h : a ≠ 0) :
    entries mem a = ∑ j ∈ Finset.range NINDIRECT, ptr (word (mem a.toNat) j) := by
  unfold entries
  exact if_neg h

theorem entries_congr (h : a ≠ 0 → mem' a.toNat = mem a.toNat) :
    entries mem' a = entries mem a := by
  unfold entries
  split
  · rfl
  · rename_i ha
    rw [h ha]

theorem blocks_congr
    (h : addrs (Fin.last NDIRECT) ≠ 0 →
      mem' (addrs (Fin.last NDIRECT)).toNat = mem (addrs (Fin.last NDIRECT)).toNat) :
    blocks mem' addrs = blocks mem addrs := by
  unfold blocks fileBlocks
  rw [entries_congr h]

theorem last_mem_blocks (mem : ℕ → Block) (addrs : Fin (NDIRECT + 1) → UInt32)
    (h : addrs (Fin.last NDIRECT) ≠ 0) :
    (addrs (Fin.last NDIRECT)).toNat ∈ blocks mem addrs := by
  unfold blocks
  rw [ptr_of_ne h]
  exact mem_add.mpr (.inl (mem_singleton_self _))

theorem direct_mem_fileBlocks {i : Fin NDIRECT} (h : addrs i.castSucc ≠ 0) :
    (addrs i.castSucc).toNat ∈ fileBlocks mem addrs := by
  refine mem_add.mpr (.inl ?_)
  refine mem_of_le (Finset.single_le_sum (f := fun i : Fin NDIRECT =>
    ptr (addrs i.castSucc)) (fun _ _ => zero_le) (Finset.mem_univ i)) ?_
  show _ ∈ ptr _
  rw [ptr_of_ne h]
  exact mem_singleton_self _

theorem entry_mem_fileBlocks {j : ℕ} (hj : j < NINDIRECT)
    (ha : addrs (Fin.last NDIRECT) ≠ 0)
    (h : word (mem (addrs (Fin.last NDIRECT)).toNat) j ≠ 0) :
    (word (mem (addrs (Fin.last NDIRECT)).toNat) j).toNat ∈ fileBlocks mem addrs := by
  refine mem_add.mpr (.inr ?_)
  rw [entries_of_ne ha]
  refine mem_of_le (Finset.single_le_sum (f := fun j =>
    ptr (word (mem (addrs (Fin.last NDIRECT)).toNat) j)) (fun _ _ => zero_le)
    (Finset.mem_range.mpr hj)) ?_
  show _ ∈ ptr _
  rw [ptr_of_ne h]
  exact mem_singleton_self _

theorem entries_of_zeroed (h : mem a.toNat = .fill BSIZE 0) : entries mem a = 0 := by
  unfold entries
  split
  · rfl
  · refine Finset.sum_eq_zero fun j _ => ?_
    unfold word
    rw [h, Bytes.getLE_fill_zero]
    exact ptr_zero

theorem blocks_zero (mem : ℕ → Block) : blocks mem (fun _ => 0) = 0 := by
  unfold blocks fileBlocks
  rw [ptr_zero, entries_zero, zero_add, add_zero]
  exact Finset.sum_eq_zero fun _ _ => ptr_zero

/-- **A direct address set** where there was none adds its block. -/
theorem blocks_setAddr_castSucc {i : Fin NDIRECT} (h : addrs i.castSucc = 0) :
    blocks mem (update addrs i.castSucc a) = ptr a + blocks mem addrs := by
  have hlast : update addrs i.castSucc a (Fin.last NDIRECT) = addrs (Fin.last NDIRECT) :=
    update_of_ne (Fin.castSucc_ne_last i).symm _ _
  unfold blocks fileBlocks
  rw [hlast, ← Finset.add_sum_erase _ _ (Finset.mem_univ i),
    ← Finset.add_sum_erase _ (fun i : Fin NDIRECT => ptr (addrs i.castSucc)) (Finset.mem_univ i)]
  have hrest : ∑ j ∈ Finset.univ.erase i, ptr (update addrs i.castSucc a j.castSucc)
      = ∑ j ∈ Finset.univ.erase i, ptr (addrs j.castSucc) := by
    refine Finset.sum_congr rfl fun j hj => ?_
    rw [update_of_ne]
    exact fun heq => (Finset.mem_erase.mp hj).1 (Fin.castSucc_injective _ heq)
  simp only [hrest, update_self, h, ptr_zero, zero_add]
  abel

/-- **A new indirect block**, which is zeroed, adds itself. -/
theorem blocks_setAddr_last (h : addrs (Fin.last NDIRECT) = 0)
    (hzero : mem a.toNat = .fill BSIZE 0) :
    blocks mem (update addrs (Fin.last NDIRECT) a) = ptr a + blocks mem addrs := by
  have hdirect : ∀ i : Fin NDIRECT,
      update addrs (Fin.last NDIRECT) a i.castSucc = addrs i.castSucc :=
    fun i => update_of_ne (Fin.castSucc_ne_last i) _ _
  unfold blocks fileBlocks
  rw [update_self, entries_of_zeroed hzero, h, ptr_zero, entries_zero, zero_add]
  simp only [hdirect]

theorem word_setLE_self (data : Block) {j b : ℕ} (hj : j < NINDIRECT) (hb : b < 2 ^ 32) :
    word (data.setLE (4 * j) 4 b) j = UInt32.ofNat b := by
  have hfit : 4 * j + 4 ≤ BSIZE := by
    unfold NINDIRECT BSIZE at *
    omega
  unfold word
  rw [Bytes.getLE_setLE_same _ hfit, Nat.mod_eq_of_lt (show b < 256 ^ 4 from hb)]

theorem word_setLE_of_ne (data : Block) {j k b : ℕ} (h : k ≠ j) :
    word (data.setLE (4 * j) 4 b) k = word data k := by
  unfold word
  rw [Bytes.getLE_setLE_disjoint _ (by omega)]

/-- **An address stored in the indirect block** where there was none adds its
block. -/
theorem entries_setLE {j b : ℕ} (hj : j < NINDIRECT) (hb : b < 2 ^ 32) (ha : a ≠ 0)
    (h : word (mem a.toNat) j = 0)
    (hmem : mem' a.toNat = (mem a.toNat).setLE (4 * j) 4 b) :
    entries mem' a = ptr (UInt32.ofNat b) + entries mem a := by
  rw [entries_of_ne ha, entries_of_ne ha, hmem,
    ← Finset.add_sum_erase _ _ (Finset.mem_range.mpr hj),
    ← Finset.add_sum_erase _ (fun j => ptr (word (mem a.toNat) j)) (Finset.mem_range.mpr hj),
    word_setLE_self _ hj hb]
  have hrest : ∑ k ∈ (Finset.range NINDIRECT).erase j,
        ptr (word ((mem a.toNat).setLE (4 * j) 4 b) k)
      = ∑ k ∈ (Finset.range NINDIRECT).erase j, ptr (word (mem a.toNat) k) := by
    refine Finset.sum_congr rfl fun k hk => ?_
    rw [word_setLE_of_ne _ (Finset.mem_erase.mp hk).1]
  rw [hrest, h, ptr_zero, zero_add]

end Footprint

/-! ## Making a file grow -/

/-- Every panic but that of `bfree`. -/
def NotDoubleFree (e : FsPanic) : Prop := e ≠ .freeingFreeBlock

/-- The blocks owned by the inode in an entry of the table. -/
def Fs.blocksOf (sb : Superblock) (fs : Fs) (ip : Fin NINODE) : Multiset ℕ :=
  blocks (sb.pool fs.disk).mem (fs.itable ip).din.addrs

/-- The inode in an entry owns its blocks exclusively, and no block of metadata
is free. -/
structure Owner (sb : Superblock) (fs : Fs) (ip : Fin NINODE) : Prop where
  holds : Holds sb.dataBlocks (sb.pool fs.disk) (fs.blocksOf sb ip)
  metaUsed : sb.MetaUsed fs.disk

/-- From `fs` to `fs'` only the inode in the entry `ip` changed: its blocks,
its size and its addresses, in memory. -/
structure OnInode (sb : Superblock) (ip : Fin NINODE) (fs fs' : Fs) : Prop where
  moves : Moves sb fs fs' (fs.blocksOf sb ip) (fs'.blocksOf sb ip)
  itable : ∃ size addrs, fs'.itable = (fs.setDin ip
    { (fs.itable ip).din with size := size, addrs := addrs }).itable

section Grow

variable {sb : Superblock} {fs fs' fs'' : Fs} {ip : Fin NINODE}

theorem OnInode.refl (sb : Superblock) (ip : Fin NINODE) (fs : Fs) : OnInode sb ip fs fs :=
  ⟨.refl _ _, (fs.itable ip).din.size, (fs.itable ip).din.addrs, (update_eq_self _ _).symm⟩

theorem OnInode.trans (h : OnInode sb ip fs fs') (h' : OnInode sb ip fs' fs'') :
    OnInode sb ip fs fs'' := by
  obtain ⟨size, addrs, htable⟩ := h.itable
  obtain ⟨size', addrs', htable'⟩ := h'.itable
  refine ⟨h.moves.trans h'.moves, size', addrs', ?_⟩
  unfold Fs.setDin Fs.setInode at *
  simp only [htable', htable, update_self, update_idem]

theorem OnInode.log (h : OnInode sb ip fs fs') (l : List ℕ) :
    OnInode sb ip fs { fs' with logged := l } :=
  ⟨⟨h.moves.exchange, h.moves.metaUsed, h.moves.dinode⟩, h.itable⟩

theorem OnInode.owner (h : OnInode sb ip fs fs') (ho : Owner sb fs ip) : Owner sb fs' ip :=
  ⟨h.moves.exchange.holds ho.holds, h.moves.metaUsed ho.metaUsed⟩

theorem addr_of_mem_dataBlocks {b : ℕ} (h : b ∈ sb.dataBlocks) :
    (UInt32.ofNat b).toNat = b ∧ UInt32.ofNat b ≠ 0 ∧ b < 2 ^ 32 := by
  obtain ⟨hb, hsize⟩ := Finset.mem_Ico.mp h
  have hlt := sb.size_lt
  have hpos := sb.bmapstart_lt
  have heq : (UInt32.ofNat b).toNat = b := by
    rw [UInt32.toNat_ofNat']
    exact Nat.mod_eq_of_lt (by omega)
  refine ⟨heq, fun hzero => ?_, by omega⟩
  rw [hzero] at heq
  have : b = 0 := heq.symm
  omega

/-- **A block for a slot of `addrs`** that had none: it is taken from the pool
and owned by the inode. -/
theorem onInode_setAddr {b : ℕ} {k : Fin (NDIRECT + 1)} (ho : Owner sb fs ip)
    (hk : (fs.itable ip).din.addrs k = 0) (hdata : b ∈ sb.dataBlocks)
    (hmoves : Moves sb fs fs' 0 {b}) (hzero : fs'.disk b = .fill BSIZE 0)
    (htable : fs'.itable = fs.itable) :
    OnInode sb ip fs
      (fs'.setDin ip ((fs'.itable ip).din.setAddr k (UInt32.ofNat b))) := by
  obtain ⟨htoNat, hne, -⟩ := addr_of_mem_dataBlocks hdata
  have hkeep : ∀ c ∈ fs.blocksOf sb ip, (sb.pool fs'.disk).mem c = (sb.pool fs.disk).mem c :=
    fun c hc => hmoves.exchange.keep (R := 0) (by rw [zero_add]; exact ho.holds) hc
  have hold : blocks (sb.pool fs'.disk).mem (fs.itable ip).din.addrs = fs.blocksOf sb ip :=
    blocks_congr fun h => hkeep _ (last_mem_blocks _ _ h)
  have hmem : (sb.pool fs'.disk).mem (UInt32.ofNat b).toNat = .fill BSIZE 0 := by
    rw [htoNat, pool_mem_of_le (Finset.mem_Ico.mp hdata).1, hzero]
  have hnew : blocks (sb.pool fs'.disk).mem
      (update (fs.itable ip).din.addrs k (UInt32.ofNat b)) = {b} + fs.blocksOf sb ip := by
    have hptr : ptr (UInt32.ofNat b) = {b} := by rw [ptr_of_ne hne, htoNat]
    rw [← hold, ← hptr]
    rcases Fin.eq_castSucc_or_eq_last k with ⟨i, rfl⟩ | rfl
    · exact blocks_setAddr_castSucc hk
    · exact blocks_setAddr_last hk hmem
  have hadd := hmoves.add (fs.blocksOf sb ip)
  rw [zero_add, ← hnew] at hadd
  refine ⟨⟨?_, hadd.metaUsed, hadd.dinode⟩, (fs.itable ip).din.size,
    update (fs.itable ip).din.addrs k (UInt32.ofNat b), ?_⟩
  · unfold Fs.blocksOf at hadd ⊢
    rw [setDin_self, setDin_disk, htable]
    exact hadd.exchange
  · unfold Fs.setDin Fs.setInode
    rw [htable]
    rfl

/-- **What a slot of `addrs` holds afterwards** is the block returned. -/
theorem slotBlock_spec (ho : Owner sb fs ip) (k : Fin (NDIRECT + 1)) :
    Ends (slotBlock sb ip k) fs NotDoubleFree fun b fs' =>
      OnInode sb ip fs fs' ∧ (fs'.itable ip).din.addrs k ≠ 0
      ∧ ((fs'.itable ip).din.addrs k).toNat = b := by
  unfold slotBlock
  refine ends_bind (getInode_ends ?_)
  split <;> rename_i hk
  · refine ends_bind ((balloc_spec ho.metaUsed fun _ => by simp [NotDoubleFree]).mono ?_)
    rintro b fs₁ ⟨-, hdata, hmoves, hzero, htable⟩
    obtain ⟨htoNat, hne, -⟩ := addr_of_mem_dataBlocks hdata
    refine ends_bind (modifyDin_ends (ends_pure ?_))
    refine ⟨onInode_setAddr ho hk hdata hmoves hzero htable, ?_⟩
    rw [setDin_self]
    show (Dinode.setAddr _ k _).addrs k ≠ 0 ∧ ((Dinode.setAddr _ k _).addrs k).toNat = b
    rw [Dinode.setAddr_self]
    exact ⟨hne, htoNat⟩
  · exact ⟨.refl _ _ _, hk, rfl⟩

/-- A store to a data block of the inode, when the inode is as it was. -/
theorem exchange_modifyData {b : ℕ} (hdata : b ∈ sb.dataBlocks) {R : Multiset ℕ} (hb : b ∈ R)
    (data : Block) :
    Moves sb fs { fs with disk := update fs.disk b data } R R := by
  obtain ⟨hle, hsize⟩ := Finset.mem_Ico.mp hdata
  have hmeta := sb.bmapstart_lt
  have hbits : ∀ c < sb.size, sb.bitOf (update fs.disk b data) c = sb.bitOf fs.disk c :=
    fun c hc => Superblock.bitOf_update_data hle hc data
  refine ⟨⟨?_, fun c hc => ?_⟩, fun hmeta c hc => ?_, fun i hi => ?_⟩
  · have hfree : (sb.pool (update fs.disk b data)).free = (sb.pool fs.disk).free := by
      refine List.filter_congr fun c hc => ?_
      rw [hbits c (List.mem_range.mp hc)]
    exact congrArg (fun l : List ℕ => (l : Multiset ℕ) + R) hfree
  · have hcb : c ≠ b := by
      rintro rfl
      exact hc (mem_add.mpr (.inr hb))
    show (if _ then update fs.disk b data c else _) = if _ then _ else _
    rw [update_of_ne hcb]
  · show sb.bitOf (update fs.disk b data) c = true
    rw [hbits c (lt_of_lt_of_le hc sb.datastart_le)]
    exact hmeta c hc
  · exact Superblock.dinodeOf_update hi (by omega) data

theorem Owner.last_notMem (ho : Owner sb fs ip)
    (h : (fs.itable ip).din.addrs (Fin.last NDIRECT) ≠ 0) :
    ((fs.itable ip).din.addrs (Fin.last NDIRECT)).toNat
      ∉ fileBlocks (sb.pool fs.disk).mem (fs.itable ip).din.addrs := by
  have hnodup : (fs.blocksOf sb ip).Nodup := (nodup_add.mp ho.holds.nodup).2.1
  unfold Fs.blocksOf blocks at hnodup
  rw [ptr_of_ne h] at hnodup
  exact disjoint_left.mp (nodup_add.mp hnodup).2.2
    (mem_singleton_self _)

/-- **Writing into the file** changes the blocks of no inode. -/
theorem onInode_modifyData {b : ℕ} (ho : Owner sb fs ip)
    (hb : b ∈ fileBlocks (sb.pool fs.disk).mem (fs.itable ip).din.addrs) (data : Block) :
    OnInode sb ip fs { fs with disk := update fs.disk b data } := by
  have hmem : b ∈ fs.blocksOf sb ip := mem_add.mpr (.inr hb)
  have hsame : blocks (sb.pool (update fs.disk b data)).mem (fs.itable ip).din.addrs
      = fs.blocksOf sb ip := by
    refine blocks_congr fun h => ?_
    have hne : ((fs.itable ip).din.addrs (Fin.last NDIRECT)).toNat ≠ b := by
      intro heq
      exact ho.last_notMem h (heq ▸ hb)
    show (if _ then update fs.disk b data _ else _) = if _ then _ else _
    rw [update_of_ne hne]
  refine ⟨?_, (fs.itable ip).din.size, (fs.itable ip).din.addrs, ?_⟩
  · have h : Moves sb fs { fs with disk := update fs.disk b data } (fs.blocksOf sb ip)
        (fs.blocksOf sb ip) := exchange_modifyData (ho.holds.mem hmem) hmem data
    nth_rewrite 2 [← hsame] at h
    exact h
  · exact (update_eq_self _ _).symm

/-- **A block for an entry of the indirect block** that had none. -/
theorem onInode_setEntry {a : UInt32} {j b : ℕ} {disk : Disk} (ho : Owner sb fs ip)
    (hj : j < NINDIRECT) (ha : (fs.itable ip).din.addrs (Fin.last NDIRECT) = a) (hne : a ≠ 0)
    (hword : word (fs.disk a.toNat) j = 0) (hdata : b ∈ sb.dataBlocks)
    (hmoves : Moves sb fs fs' 0 {b}) (htable : fs'.itable = fs.itable)
    (hstore : disk = update fs'.disk a.toNat ((fs'.disk a.toNat).setLE (4 * j) 4 b)) :
    OnInode sb ip fs { fs' with disk := disk }
    ∧ b ∈ fileBlocks (sb.pool disk).mem (fs'.itable ip).din.addrs := by
  obtain ⟨htoNat, hbne, hlt⟩ := addr_of_mem_dataBlocks hdata
  have hlast : a.toNat ∈ fs.blocksOf sb ip := by
    rw [← ha] at hne ⊢
    exact last_mem_blocks _ _ hne
  have hle := (Finset.mem_Ico.mp (ho.holds.mem hlast)).1
  have hkeep : fs'.disk a.toNat = fs.disk a.toNat := by
    have h := hmoves.exchange.keep (R := 0) (by rw [zero_add]; exact ho.holds) hlast
    rwa [pool_mem_of_le hle, pool_mem_of_le hle] at h
  -- the entry is added to the blocks that the indirect block names
  have hentries : entries (sb.pool disk).mem a = {b} + entries (sb.pool fs.disk).mem a := by
    have hptr : ptr (UInt32.ofNat b) = {b} := by rw [ptr_of_ne hbne, htoNat]
    rw [← hptr]
    refine entries_setLE hj hlt hne (by rw [pool_mem_of_le hle]; exact hword) ?_
    rw [pool_mem_of_le hle, pool_mem_of_le hle, hstore, update_self, hkeep]
  have hblocks : blocks (sb.pool disk).mem (fs.itable ip).din.addrs = {b} + fs.blocksOf sb ip := by
    unfold Fs.blocksOf blocks fileBlocks
    rw [ha, hentries]
    abel
  constructor
  · have hadd := hmoves.add (fs.blocksOf sb ip)
    rw [zero_add] at hadd
    have hmoves₂ := hadd.trans (exchange_modifyData (ho.holds.mem hlast)
      (mem_add.mpr (.inr hlast)) ((fs'.disk a.toNat).setLE (4 * j) 4 b))
    rw [← hstore, ← hblocks, ← htable] at hmoves₂
    refine ⟨hmoves₂, (fs.itable ip).din.size, (fs.itable ip).din.addrs, ?_⟩
    exact htable.trans (update_eq_self _ _).symm
  · rw [htable]
    refine mem_add.mpr (.inr ?_)
    rw [ha, hentries]
    exact mem_add.mpr (.inl (mem_singleton_self b))

/-- **What `bmap` does**: the inode may take up to two blocks from the pool, and
the block returned is one of its file. -/
theorem bmap_spec (ho : Owner sb fs ip) (bn : ℕ) :
    Ends (bmap sb ip bn) fs NotDoubleFree fun b fs' =>
      OnInode sb ip fs fs'
      ∧ b ∈ fileBlocks (sb.pool fs'.disk).mem (fs'.itable ip).din.addrs := by
  unfold bmap
  split
  · refine (slotBlock_spec ho _).mono ?_
    rintro b fs' ⟨hon, hne, rfl⟩
    exact ⟨hon, direct_mem_fileBlocks hne⟩
  · split
    · rename_i hj
      refine ends_bind ((slotBlock_spec ho _).mono ?_)
      rintro addr fs₁ ⟨hon, hne, rfl⟩
      have ho₁ := hon.owner ho
      have hle := (Finset.mem_Ico.mp (ho₁.holds.mem (last_mem_blocks _ _ hne))).1
      refine ends_bind (bread_ends ?_)
      split <;> rename_i hword
      · refine ends_bind ((balloc_spec ho₁.metaUsed fun _ => by simp [NotDoubleFree]).mono ?_)
        rintro b fs₂ ⟨-, hdata, hmoves, -, htable⟩
        obtain ⟨hon₂, hmem⟩ := onInode_setEntry ho₁ hj rfl hne hword hdata hmoves htable rfl
        refine ends_bind (modifyData_ends (ends_bind (logWrite_ends
          (ends_pure ⟨?_, ?_⟩))))
        · exact hon.trans (hon₂.log _)
        · exact hmem
      · refine ends_pure ⟨hon, ?_⟩
        have hmem : (sb.pool fs₁.disk).mem ((fs₁.itable ip).din.addrs (Fin.last NDIRECT)).toNat
            = fs₁.disk ((fs₁.itable ip).din.addrs (Fin.last NDIRECT)).toNat := pool_mem_of_le hle
        rw [← hmem] at hword ⊢
        exact entry_mem_fileBlocks hj hne hword
    · exact ends_panic (by simp [NotDoubleFree])

/-- The loop of `writei` works on the blocks of its inode only. -/
theorem writeiLoop_spec (ho : Owner sb fs ip) (src : ℕ → ℕ → CopyIn) (left off tot : ℕ) :
    Ends (writeiLoop sb ip src left off tot) fs NotDoubleFree fun _ fs' =>
      OnInode sb ip fs fs' := by
  induction left using Nat.strong_induction_on generalizing fs off tot with
  | _ left ih =>
    rw [writeiLoop]
    split
    · exact ends_pure (.refl _ _ _)
    · rename_i hleft
      refine ends_bind ((bmap_spec ho _).mono ?_)
      rintro b fs₁ ⟨hon, hmem⟩
      have ho₁ := hon.owner ho
      have hon₂ := hon.trans (onInode_modifyData ho₁ hmem
        ((fs₁.disk b).blit (off % BSIZE) ((src tot (min left (BSIZE - off % BSIZE))).bytes.take
          (min left (BSIZE - off % BSIZE)))))
      refine ends_bind (modifyData_ends ?_)
      split
      · refine ends_bind (logWrite_ends ?_)
        have hoff : off % BSIZE < BSIZE := Nat.mod_lt _ (by decide)
        have hon₃ := hon₂.log (b :: fs₁.logged)
        exact (ih _ (by omega) (hon₃.owner ho) _ _).mono fun _ fs' h => hon₃.trans h
      · exact ends_pure hon₂

/-! ## Making a file vanish -/

theorem pool_mem_congr {disk disk' : Disk}
    (h : ∀ c, sb.datastart ≤ c → disk' c = disk c) :
    (sb.pool disk').mem = (sb.pool disk).mem := by
  funext c
  show (if _ then _ else _) = if _ then _ else _
  split
  · rename_i hc
    exact h c hc
  · rfl

/-- **A direct block given back.** -/
theorem onInode_clearDirect {i : Fin NDIRECT}
    (hmoves : Moves sb fs fs' {((fs.itable ip).din.addrs i.castSucc).toNat} 0)
    (hne : (fs.itable ip).din.addrs i.castSucc ≠ 0)
    (hdisk : ∀ c, sb.datastart ≤ c → fs'.disk c = fs.disk c) (htable : fs'.itable = fs.itable) :
    OnInode sb ip fs (fs'.setDin ip ((fs'.itable ip).din.setAddr i.castSucc 0)) := by
  set addrs := (fs.itable ip).din.addrs with haddrs
  have hpool : (sb.pool fs'.disk).mem = (sb.pool fs.disk).mem := pool_mem_congr hdisk
  have hsplit : fs.blocksOf sb ip
      = {(addrs i.castSucc).toNat}
        + blocks (sb.pool fs.disk).mem (update addrs i.castSucc 0) := by
    have h : blocks (sb.pool fs.disk).mem
          (update (update addrs i.castSucc 0) i.castSucc (addrs i.castSucc))
        = ptr (addrs i.castSucc)
          + blocks (sb.pool fs.disk).mem (update addrs i.castSucc 0) :=
      blocks_setAddr_castSucc (update_self _ _ _)
    rw [update_idem, update_eq_self, ptr_of_ne hne] at h
    exact h
  have hadd := hmoves.add (blocks (sb.pool fs.disk).mem (update addrs i.castSucc 0))
  rw [← hsplit, zero_add] at hadd
  refine ⟨⟨?_, hadd.metaUsed, hadd.dinode⟩, (fs.itable ip).din.size,
    update addrs i.castSucc 0, ?_⟩
  · unfold Fs.blocksOf
    rw [setDin_self, setDin_disk, hpool, htable]
    exact hadd.exchange
  · unfold Fs.setDin Fs.setInode
    rw [htable]
    rfl

/-- The first loop of `itrunc` gives the direct blocks back. -/
theorem itruncDirect_spec {P : FsPanic → Prop} (is : List (Fin NDIRECT)) (ho : Owner sb fs ip) :
    Ends (itruncDirect sb ip is) fs P fun _ fs' =>
      OnInode sb ip fs fs'
      ∧ ∀ i, (i ∈ is ∨ (fs.itable ip).din.addrs i.castSucc = 0) →
          (fs'.itable ip).din.addrs i.castSucc = 0 := by
  induction is generalizing fs with
  | nil => exact ends_pure ⟨.refl _ _ _, fun i hi => hi.resolve_left (List.not_mem_nil)⟩
  | cons j is ih =>
    rw [itruncDirect]
    refine ends_bind (getInode_ends ?_)
    split <;> rename_i hj
    · refine (ih ho).mono fun _ fs' ⟨hon, hzero⟩ => ⟨hon, fun i hi => hzero i ?_⟩
      rcases hi with hi | hi
      · rcases List.mem_cons.mp hi with rfl | hi
        · exact .inr hj
        · exact .inl hi
      · exact .inr hi
    · have hmem : ((fs.itable ip).din.addrs j.castSucc).toNat ∈ fs.blocksOf sb ip :=
        mem_add.mpr (.inr (direct_mem_fileBlocks hj))
      refine ends_bind ((bfree_spec (ho.holds.mem hmem) (ho.holds.notMem_free hmem)).mono ?_)
      rintro _ fs₁ ⟨hmoves, hdisk, htable⟩
      refine ends_bind (modifyDin_ends ?_)
      have hon := onInode_clearDirect hmoves hj hdisk htable
      refine (ih (hon.owner ho)).mono fun _ fs' ⟨hon', hzero⟩ =>
        ⟨hon.trans hon', fun i hi => hzero i ?_⟩
      rw [setDin_self]
      show i ∈ is ∨ update (fs₁.itable ip).din.addrs j.castSucc 0 i.castSucc = 0
      by_cases hij : i = j
      · exact .inr (by rw [hij, update_self])
      · rw [update_of_ne fun h => hij (Fin.castSucc_injective _ h), htable]
        rcases hi with hi | hi
        · exact .inl ((List.mem_cons.mp hi).resolve_left hij)
        · exact .inr hi

/-- The second loop of `itrunc` gives the blocks back that the indirect block
names. -/
theorem itruncIndirect_spec {P : FsPanic → Prop} (data : Block) (js : List ℕ)
    (hold : Holds sb.dataBlocks (sb.pool fs.disk) (js.map fun j => ptr (word data j)).sum) :
    Ends (itruncIndirect sb data js) fs P fun _ fs' =>
      Moves sb fs fs' (js.map fun j => ptr (word data j)).sum 0
      ∧ (∀ c, sb.datastart ≤ c → fs'.disk c = fs.disk c) ∧ fs'.itable = fs.itable := by
  induction js generalizing fs with
  | nil => exact ends_pure ⟨.refl _ _, fun _ _ => rfl, rfl⟩
  | cons j js ih =>
    rw [List.map_cons, List.sum_cons] at hold ⊢
    rw [itruncIndirect]
    split <;> rename_i hj
    · rw [hj, ptr_zero, zero_add] at hold ⊢
      exact ih hold
    · rw [ptr_of_ne hj] at hold ⊢
      have hmem := hold.left.mem (mem_singleton_self _)
      have hused := hold.left.notMem_free (mem_singleton_self _)
      refine ends_bind ((bfree_spec hmem hused).mono ?_)
      rintro _ fs₁ ⟨hmoves, hdisk, htable⟩
      have hadd := hmoves.add (js.map fun j => ptr (word data j)).sum
      rw [zero_add] at hadd
      refine (ih (hadd.exchange.holds hold)).mono ?_
      rintro _ fs₂ ⟨hmoves₂, hdisk₂, htable₂⟩
      exact ⟨hadd.trans hmoves₂, fun c hc => (hdisk₂ c hc).trans (hdisk c hc),
        htable₂.trans htable⟩

theorem sum_range_eq_sum_map {M : Type} [AddCommMonoid M] (n : ℕ) (f : ℕ → M) :
    ∑ j ∈ Finset.range n, f j = ((List.range n).map f).sum := by
  show (map f (↑(List.range n) : Multiset ℕ)).sum = _
  rw [map_coe, sum_coe]

/-- **The indirect block given back**, after the blocks it names. -/
theorem onInode_clearIndirect {a : UInt32}
    (ha : (fs.itable ip).din.addrs (Fin.last NDIRECT) = a) (hne : a ≠ 0)
    (hmoves : Moves sb fs fs' (entries (sb.pool fs.disk).mem a + {a.toNat}) 0)
    (hdisk : ∀ c, sb.datastart ≤ c → fs'.disk c = fs.disk c) (htable : fs'.itable = fs.itable) :
    OnInode sb ip fs (fs'.setDin ip ((fs'.itable ip).din.setAddr (Fin.last NDIRECT) 0)) := by
  have hnew : blocks (sb.pool fs.disk).mem
      (update (fs.itable ip).din.addrs (Fin.last NDIRECT) 0)
      = ∑ i : Fin NDIRECT, ptr ((fs.itable ip).din.addrs i.castSucc) := by
    unfold blocks fileBlocks
    rw [update_self, ptr_zero, entries_zero, zero_add, add_zero]
    refine Finset.sum_congr rfl fun i _ => ?_
    rw [update_of_ne (Fin.castSucc_ne_last i)]
  have hold : fs.blocksOf sb ip = entries (sb.pool fs.disk).mem a + {a.toNat}
      + ∑ i : Fin NDIRECT, ptr ((fs.itable ip).din.addrs i.castSucc) := by
    unfold Fs.blocksOf blocks fileBlocks
    rw [ha, ptr_of_ne hne]
    abel
  have hadd := hmoves.add (∑ i : Fin NDIRECT, ptr ((fs.itable ip).din.addrs i.castSucc))
  rw [← hold, zero_add, ← hnew] at hadd
  refine ⟨⟨?_, hadd.metaUsed, hadd.dinode⟩, (fs.itable ip).din.size,
    update (fs.itable ip).din.addrs (Fin.last NDIRECT) 0, ?_⟩
  · unfold Fs.blocksOf
    rw [setDin_self, setDin_disk, pool_mem_congr hdisk, htable]
    exact hadd.exchange
  · unfold Fs.setDin Fs.setInode
    rw [htable]
    rfl

theorem onInode_setSize (size : UInt32) :
    OnInode sb ip fs (fs.setDin ip { (fs.itable ip).din with size := size }) := by
  refine ⟨?_, size, (fs.itable ip).din.addrs, rfl⟩
  unfold Fs.blocksOf
  rw [setDin_self]
  exact ⟨.refl _ _, id, fun _ _ => rfl⟩

/-- The state after `iupdate`. -/
def Fs.iupdated (sb : Superblock) (fs : Fs) (ip : Fin NINODE) : Fs :=
  { fs with
    disk := sb.putDinode fs.disk (fs.itable ip).inum (fs.itable ip).din
    logged := sb.IBLOCK (fs.itable ip).inum :: fs.logged }

theorem iupdate_ends {P : FsPanic → Prop} {Q : Unit → Fs → Prop} (h : Q () (fs.iupdated sb ip)) :
    Ends (iupdate sb ip) fs P Q := h

/-- The indirect block and the blocks it names are given back. -/
theorem itruncLast_spec {P : FsPanic → Prop} (ho : Owner sb fs ip) :
    Ends (itruncLast sb ip) fs P fun _ fs' =>
      OnInode sb ip fs fs'
      ∧ (fs'.itable ip).din.addrs
        = update (fs.itable ip).din.addrs (Fin.last NDIRECT) 0 := by
  unfold itruncLast
  refine ends_bind (getInode_ends ?_)
  set a := (fs.itable ip).din.addrs (Fin.last NDIRECT) with ha
  split <;> rename_i hlast
  · refine ends_pure ⟨.refl _ _ _, ?_⟩
    rw [← hlast, update_eq_self]
  · have hle := (Finset.mem_Ico.mp (ho.holds.mem (last_mem_blocks _ _ hlast))).1
    refine ends_bind (bread_ends ?_)
    have hsum : entries (sb.pool fs.disk).mem a
        = ((List.range NINDIRECT).map fun j => ptr (word (fs.disk a.toNat) j)).sum := by
      rw [entries_of_ne hlast, pool_mem_of_le hle, sum_range_eq_sum_map]
    have hholds : Holds sb.dataBlocks (sb.pool fs.disk)
        (entries (sb.pool fs.disk).mem a + {a.toNat}) := by
      refine ho.holds.mono ?_
      unfold Fs.blocksOf blocks fileBlocks
      rw [← ha, ptr_of_ne hlast, add_comm]
      exact add_le_add_right (le_add_left _ _) _
    have hloop := hholds.left
    rw [hsum] at hloop
    refine ends_bind ((itruncIndirect_spec _ _ hloop).mono ?_)
    rintro _ fs₂ ⟨hmoves₂, hdisk₂, htable₂⟩
    rw [← hsum] at hmoves₂
    have hadd := hmoves₂.add {a.toNat}
    rw [zero_add] at hadd
    have hholds₂ := hadd.exchange.holds hholds
    refine ends_bind ((bfree_spec (hholds₂.mem (mem_singleton_self _))
      (hholds₂.notMem_free (mem_singleton_self _))).mono ?_)
    rintro _ fs₃ ⟨hmoves₃, hdisk₃, htable₃⟩
    refine modifyDin_ends ⟨onInode_clearIndirect ha.symm hlast (hadd.trans hmoves₃)
      (fun c hc => (hdisk₃ c hc).trans (hdisk₂ c hc)) (htable₃.trans htable₂), ?_⟩
    rw [setDin_self, htable₃, htable₂]
    rfl

/-- **What `itrunc` does**: the inode gives all its blocks back, and the inode
of an empty file is stored. -/
theorem itrunc_spec {P : FsPanic → Prop} (ho : Owner sb fs ip) :
    Ends (itrunc sb ip) fs P fun _ fs' =>
      ∃ fs₁, OnInode sb ip fs fs₁ ∧ (fs₁.itable ip).din.addrs = (fun _ => 0)
        ∧ (fs₁.itable ip).din.size = 0 ∧ fs' = fs₁.iupdated sb ip := by
  unfold itrunc
  refine ends_bind ((itruncDirect_spec _ ho).mono ?_)
  rintro _ fs₁ ⟨hon₁, hzero₁⟩
  refine ends_bind ((itruncLast_spec (hon₁.owner ho)).mono ?_)
  rintro _ fs₂ ⟨hon₂, hzero₂⟩
  refine ends_bind (modifyDin_ends (iupdate_ends ?_))
  refine ⟨_, (hon₁.trans hon₂).trans (onInode_setSize 0), ?_, by rw [setDin_self], rfl⟩
  rw [setDin_self]
  refine hzero₂.trans (funext fun k => ?_)
  rcases Fin.eq_castSucc_or_eq_last k with ⟨i, rfl⟩ | rfl
  · rw [update_of_ne (Fin.castSucc_ne_last i)]
    exact hzero₁ i (.inl (List.mem_finRange i))
  · exact update_self _ _ _

end Grow

end Xv6
