import Xv6.Mkfs

/-!
# What `mkfs` makes

`mkfs` and the kernel are two implementations of one format. `mkfs` hands out
blocks in order and writes the bitmap at the end; the kernel looks for a clear bit
and sets it. On the image with the bitmap that would be written now (`marked`) the
next block of `mkfs` is the block that `balloc` finds, and so `iappend` and the
loop of `writei` run in lockstep: they end together, with the same inode and the
same disk, or fail together (`iappendLoop_sim`). All that is known of the kernel's
writes is then known of `mkfs`: who owns the blocks, what the contents are, which
addresses are set.
-/

open Function List

open Prog hiding get modify panic result

namespace Xv6

open Pool

namespace Mkfs

/-! ## Sectors and bits -/

theorem sector_of_lt {sec : ℕ} (h : sec < 2 ^ 22) : sector sec = sec := by
  unfold sector BSIZE
  omega

theorem nmeta_eq : nmeta = 46 := by decide

theorem getBit_bitmap {used : ℕ} (h : used ≤ BPB) (k : ℕ) :
    (bitmap used).getBit k = decide (k < used) := by
  induction used with
  | zero =>
    unfold bitmap Bytes.getBit Bytes.byteAt Bytes.fill
    split <;> simp
  | succ used ih =>
    rw [bitmap, Bytes.getBit_setBit _ (by unfold BPB BSIZE at *; omega), ih (by omega)]
    by_cases hk : k = used
    · simp [hk]
    · simp only [hk]
      rw [Bool.eq_iff_iff]
      simp
      omega

/-- Inodes for which the inode blocks have slots. -/
def SLOTS : ℕ := 207

/-- The superblock with them. `mkfs` hands out inodes without a look at `NINODES`, and
those behind it are stored like the others as long as there are slots. -/
def slotSuper : Superblock := { mkfsSuper with ninodes := SLOTS, inodes_fit := by decide }

/-- The image with the bitmap for the blocks handed out so far. -/
def marked (s : Mkfs) : Disk := update s.image slotSuper.bmapstart (bitmap s.freeblock)

/-- **The blocks not handed out yet** are blank; all sectors are there. -/
structure Fresh (s : Mkfs) : Prop where
  nsect : s.nsect = FSSIZE
  ge : nmeta ≤ s.freeblock
  le : s.freeblock ≤ FSSIZE
  blank : ∀ b, s.freeblock ≤ b → b < FSSIZE → s.image b = .fill BSIZE 0

section Sectors

variable {s : Mkfs} {b : ℕ}

theorem rsect_of_lt (h : s.nsect = FSSIZE) (hb : b < FSSIZE) : rsect b s = .ok (s.image b, s) := by
  have hsec : sector b = b := sector_of_lt (lt_trans hb (by decide))
  unfold rsect
  rw [get_bind, hsec, if_pos (by rw [h]; exact hb)]
  rfl

theorem rsect_end (h : s.nsect = FSSIZE) : rsect FSSIZE s = .error .die := by
  have hsec : sector FSSIZE = FSSIZE := by decide
  unfold rsect
  rw [get_bind, hsec, if_neg (by rw [h]; exact lt_irrefl _)]
  rfl

theorem wsect_of_lt (h : s.nsect = FSSIZE) (hb : b < FSSIZE) (buf : Block) :
    wsect b buf s = .ok ((), { s with image := update s.image b buf }) := by
  have hsec : sector b = b := sector_of_lt (lt_trans hb (by decide))
  have hmax : max s.nsect (b + 1) = s.nsect := Nat.max_eq_left (by omega)
  show Except.ok ((), Mkfs.mk _ (max s.nsect (sector b + 1)) _ _ _) = _
  rw [hsec, hmax]

theorem takeBlock_ends {P : MkfsFail → Prop} {Q : ℕ → Mkfs → Prop}
    (h : Q s.freeblock { s with freeblock := s.freeblock + 1 }) : Ends takeBlock s P Q := h

theorem wsect_ends {P : MkfsFail → Prop} {buf : Block} {Q : Unit → Mkfs → Prop}
    (h : Q () { s with
      image := update s.image (sector b) buf, nsect := max s.nsect (sector b + 1) }) :
    Ends (wsect b buf) s P Q := h

theorem rsect_ends {P : MkfsFail → Prop} {Q : Block → Mkfs → Prop} (hP : P .die)
    (h : Q (s.image (sector b)) s) : Ends (rsect b) s P Q := by
  unfold rsect
  refine ends_bind ?_
  show Ends (if _ then _ else _) s _ _
  split
  · exact ends_pure h
  · exact ends_panic hP

theorem marked_of_ne (h : b ≠ slotSuper.bmapstart) : s.marked b = s.image b :=
  update_of_ne h _ _

theorem marked_store (h : b ≠ slotSuper.bmapstart) (buf : Block) :
    ({ s with image := update s.image b buf } : Mkfs).marked
      = update s.marked b buf :=
  update_comm h _ _ _

theorem BBLOCK_of_lt (hb : b < FSSIZE) : slotSuper.BBLOCK b = slotSuper.bmapstart := by
  unfold Superblock.BBLOCK
  rw [Nat.div_eq_of_lt (lt_trans hb (by decide)), Nat.zero_add]

/-- **The bitmap marks the blocks handed out.** -/
theorem bitOf_marked (h : s.freeblock ≤ FSSIZE) (hb : b < FSSIZE) :
    slotSuper.bitOf s.marked b = decide (b < s.freeblock) := by
  unfold Superblock.bitOf marked
  rw [BBLOCK_of_lt hb, update_self, Nat.mod_eq_of_lt (lt_trans hb (by decide)),
    getBit_bitmap (le_trans h (by decide))]

/-- Handing out the next block is marking it. -/
theorem marked_take (h : s.Fresh) (hlt : s.freeblock < FSSIZE) :
    ({ s with freeblock := s.freeblock + 1 } : Mkfs).marked
      = slotSuper.allocated s.marked s.freeblock := by
  have hne : s.freeblock ≠ slotSuper.bmapstart := ne_of_gt (lt_of_lt_of_le (by decide) h.ge)
  have hmark : slotSuper.markUsed s.marked s.freeblock
      = ({ s with freeblock := s.freeblock + 1 } : Mkfs).marked := by
    unfold Superblock.markUsed marked
    rw [BBLOCK_of_lt hlt, update_self, update_idem,
      Nat.mod_eq_of_lt (lt_trans hlt (by decide))]
    rfl
  unfold Superblock.allocated
  rw [hmark]
  refine (update_eq_self_iff.mpr ?_).symm
  rw [marked_of_ne hne]
  exact (h.blank _ le_rfl hlt).symm

theorem Fresh.take (h : s.Fresh) (hlt : s.freeblock < FSSIZE) :
    ({ s with freeblock := s.freeblock + 1 } : Mkfs).Fresh :=
  ⟨h.nsect, Nat.le_succ_of_le h.ge, hlt, fun _ hb => h.blank _ (Nat.le_of_succ_le hb)⟩

theorem Fresh.store (h : s.Fresh) (hb : b < s.freeblock) (buf : Block) :
    ({ s with image := update s.image b buf } : Mkfs).Fresh := by
  refine ⟨h.nsect, h.ge, h.le, fun c hc hlt => ?_⟩
  have hne : c ≠ b := ne_of_gt (lt_of_lt_of_le hb hc)
  exact (update_of_ne hne _ _).trans (h.blank c hc hlt)

/-- **`balloc` finds the next block**, or none if there is none. -/
theorem balloc_marked {fs : Fs} (h : s.Fresh) (hdisk : fs.disk = s.marked) :
    (s.freeblock < FSSIZE → ∃ l, Xv6.balloc slotSuper fs = .ok (s.freeblock,
      ⟨({ s with freeblock := s.freeblock + 1 } : Mkfs).marked, l, fs.itable⟩))
    ∧ (s.freeblock = FSSIZE → ∃ e, Xv6.balloc slotSuper fs = .error e) := by
  have hbit : ∀ c < FSSIZE, slotSuper.bitOf fs.disk c = decide (c < s.freeblock) := fun c hc => by
    rw [hdisk]
    exact bitOf_marked h.le hc
  have hends : Ends (Xv6.balloc slotSuper) fs
      (fun _ => ∀ c < FSSIZE, slotSuper.bitOf fs.disk c = true) _ := balloc_ends id
  cases hrun : Xv6.balloc slotSuper fs with
  | ok r =>
    obtain ⟨b, fs'⟩ := r
    obtain ⟨hlt, hclear, hfirst, rfl⟩ := hends.of_ok hrun
    rw [hbit _ hlt, decide_eq_false_iff_not, not_lt] at hclear
    obtain rfl : s.freeblock = b := by
      by_contra hne
      have hused := hfirst s.freeblock (lt_of_le_of_ne hclear hne)
      rw [hbit _ (lt_of_le_of_lt hclear hlt)] at hused
      simp at hused
    refine ⟨fun hfree => ⟨s.freeblock :: slotSuper.BBLOCK s.freeblock :: fs.logged, ?_⟩,
      fun hfull => ?_⟩
    · rw [marked_take h hfree, ← hdisk]
    · rw [hfull] at hlt
      exact absurd hlt (lt_irrefl _)
  | error e =>
    have hall := hends.of_error hrun
    refine ⟨fun hfree => ?_, fun _ => ⟨e, rfl⟩⟩
    have hused := hall s.freeblock hfree
    rw [hbit _ hfree] at hused
    simp at hused

end Sectors

/-! ## Lockstep with the kernel -/

/-- **The same file system in the kernel**: the disk is the image with its bitmap,
and an entry of the inode table has the inode that `mkfs` works on. -/
structure Rep (ip : Fin NINODE) (s : Mkfs) (din : Dinode) (fs : Fs) : Prop where
  disk : fs.disk = s.marked
  din : (fs.itable ip).din = din

/-- **Blocks were handed out and written**: the metadata is as it was. -/
structure Fills (s s' : Mkfs) : Prop where
  fresh : s'.Fresh
  freeinode : s'.freeinode = s.freeinode
  inodeWrites : s'.inodeWrites = s.inodeWrites
  image : ∀ b < nmeta, s'.image b = s.image b

section Lockstep

variable {s s' s'' : Mkfs} {fs : Fs} {ip : Fin NINODE} {din : Dinode}

theorem Fills.refl (h : s.Fresh) : Fills s s := ⟨h, rfl, rfl, fun _ _ => rfl⟩

theorem Fills.trans (h : Fills s s') (h' : Fills s' s'') : Fills s s'' :=
  ⟨h'.fresh, h'.freeinode.trans h.freeinode, h'.inodeWrites.trans h.inodeWrites,
    fun b hb => (h'.image b hb).trans (h.image b hb)⟩

theorem Fills.take (h : s.Fresh) (hlt : s.freeblock < FSSIZE) :
    Fills s { s with freeblock := s.freeblock + 1 } :=
  ⟨h.take hlt, rfl, rfl, fun _ _ => rfl⟩

theorem Fills.store (h : s.Fresh) {b : ℕ} (hge : nmeta ≤ b) (hb : b < s.freeblock) (buf : Block) :
    Fills s { s with image := update s.image b buf } :=
  ⟨h.store hb buf, rfl, rfl, fun _ hc => update_of_ne (by omega) _ _⟩

/-- A block that a slot of an inode names is a data block, and was handed out. -/
theorem Rep.addr_lt (hr : Rep ip s din fs) (h : s.Fresh) (ho : Owner slotSuper fs ip) {b : ℕ}
    (hb : b ∈ fs.blocksOf slotSuper ip) :
    nmeta ≤ b ∧ b < s.freeblock ∧ b < FSSIZE ∧ s.image b = fs.disk b := by
  obtain ⟨hge, hlt⟩ := Finset.mem_Ico.mp (ho.holds.mem hb)
  have hnot := ho.holds.notMem_free hb
  have hused : b < s.freeblock := by
    by_contra hfree
    refine hnot (mem_pool_free.mpr ⟨hge, hlt, ?_⟩)
    rw [hr.disk, bitOf_marked h.le hlt]
    exact decide_eq_false hfree
  refine ⟨hge, hused, hlt, ?_⟩
  rw [hr.disk, marked_of_ne]
  exact ne_of_gt (lt_of_lt_of_le (by decide) hge)

theorem addrs_mem_blocks (mem : ℕ → Block) {addrs : Fin (NDIRECT + 1) → UInt32}
    {k : Fin (NDIRECT + 1)} (h : addrs k ≠ 0) : (addrs k).toNat ∈ blocks mem addrs := by
  obtain ⟨i, rfl⟩ | rfl := Fin.eq_castSucc_or_eq_last k
  · exact Multiset.mem_add.mpr (.inr (direct_mem_fileBlocks h))
  · exact last_mem_blocks _ _ h

theorem Fresh.next_eq (h : s.Fresh) (hlt : s.freeblock < FSSIZE) :
    ({ s with freeblock := s.freeblock + 1 } : Mkfs).marked s.freeblock = .fill BSIZE 0 := by
  rw [marked_take h hlt]
  exact update_self _ _ _

theorem toNat_of_le {b : ℕ} (h : b ≤ FSSIZE) : (UInt32.ofNat b).toNat = b := by
  rw [UInt32.toNat_ofNat']
  exact Nat.mod_eq_of_lt (lt_of_le_of_lt h (by decide))

/-- **A slot of `addrs`**: the block that is there, or the next one. -/
theorem slotSect_sim (h : s.Fresh) (ho : Owner slotSuper fs ip) (hr : Rep ip s din fs)
    (k : Fin (NDIRECT + 1)) :
    Sim (slotSect din k) (slotBlock slotSuper ip k) s fs fun r s' b fs' =>
      Fills s s' ∧ Rep ip s' r.2.1 fs' ∧ r.1 = b ∧ r.2.2 = fs'.disk b := by
  have hdin := hr.din
  by_cases hk : din.addrs k = 0
  · have hfill : fillSlot din k s = .ok (din.setAddr k (UInt32.ofNat s.freeblock),
        { s with freeblock := s.freeblock + 1 }) := by
      unfold fillSlot
      rw [if_pos hk]
      rfl
    have haddr : ((din.setAddr k (UInt32.ofNat s.freeblock)).addrs k).toNat = s.freeblock := by
      rw [Dinode.setAddr_self, toNat_of_le h.le]
    have hslot : slotBlock slotSuper ip k fs = (do
        let addr ← Xv6.balloc slotSuper
        modifyDin ip fun d => d.setAddr k (UInt32.ofNat addr)
        pure addr : FsProg ℕ) fs := by
      unfold slotBlock
      rw [getInode_bind, if_pos (by rw [hdin]; exact hk)]
    unfold slotSect Sim
    rw [bind_of_ok hfill, haddr, hslot]
    obtain hlt | hfull := lt_or_eq_of_le h.le
    · obtain ⟨l, hballoc⟩ := (balloc_marked h hr.disk).1 hlt
      refine sim_of_ok (bind_of_ok (rsect_of_lt h.nsect hlt)) (bind_of_ok hballoc)
        ⟨.take h hlt, ⟨rfl, ?_⟩, rfl, ?_⟩
      · rw [setDin_self]
        exact congrArg (fun d : Dinode => d.setAddr k _) hdin
      · rw [setDin_disk]
        exact (h.blank _ le_rfl hlt).trans (h.next_eq hlt).symm
    · obtain ⟨e, hballoc⟩ := (balloc_marked h hr.disk).2 hfull
      rw [hfull]
      exact sim_of_error (bind_of_error (rsect_end h.nsect)) (bind_of_error hballoc)
  · have hne : (fs.itable ip).din.addrs k ≠ 0 := by rwa [hdin]
    obtain ⟨-, -, hlt, himage⟩ := hr.addr_lt h ho (addrs_mem_blocks _ hne)
    rw [hdin] at hlt himage
    have hsect : slotSect din k s
        = .ok (((din.addrs k).toNat, din, s.image (din.addrs k).toNat), s) := by
      unfold slotSect fillSlot
      rw [if_neg hk]
      exact bind_of_ok (rsect_of_lt h.nsect hlt)
    have hslot : slotBlock slotSuper ip k fs = .ok ((din.addrs k).toNat, fs) := by
      unfold slotBlock
      rw [getInode_bind, if_neg hne, hdin]
      rfl
    exact sim_of_ok hsect hslot ⟨.refl h, hr, rfl, himage⟩

/-- The next block goes into the indirect block `a`, which is written back. -/
theorem entrySect_sim (h : s.Fresh) (hr : Rep ip s din fs) {a : ℕ} (hge : nmeta ≤ a)
    (hused : a < s.freeblock) (himage : s.image a = fs.disk a) (j : ℕ) :
    Sim (do
        let b ← takeBlock
        wsect a ((fs.disk a).setLE (4 * j) 4 b)
        let buf ← rsect b
        pure (b, din, buf) : MkfsProg (ℕ × Dinode × Block))
      (do
        let b ← Xv6.balloc slotSuper
        modifyData a fun data => data.setLE (4 * j) 4 b
        logWrite a
        pure b) s fs fun r s' b fs' =>
      Fills s s' ∧ Rep ip s' r.2.1 fs' ∧ r.1 = b ∧ r.2.2 = fs'.disk b := by
  have hbitmap : a ≠ slotSuper.bmapstart := ne_of_gt (lt_of_lt_of_le (by decide) hge)
  have hne : s.freeblock ≠ a := ne_of_gt hused
  have hlt : a < FSSIZE := lt_of_lt_of_le hused h.le
  set s₂ : Mkfs := { s with freeblock := s.freeblock + 1 } with hs₂
  set data := (fs.disk a).setLE (4 * j) 4 s.freeblock with hdata
  have htake : takeBlock s = .ok (s.freeblock, s₂) := rfl
  have hnsect : s₂.nsect = FSSIZE := h.nsect
  have hwrite := wsect_of_lt hnsect hlt data
  unfold Sim
  rw [bind_of_ok htake, bind_of_ok hwrite]
  obtain hfree | hfull := lt_or_eq_of_le h.le
  · obtain ⟨l, hballoc⟩ := (balloc_marked h hr.disk).1 hfree
    have hfresh₂ : s₂.Fresh := h.take hfree
    have hstore : s₂.marked a = fs.disk a := by
      rw [marked_of_ne hbitmap]
      exact himage
    refine sim_of_ok (bind_of_ok (rsect_of_lt h.nsect hfree)) (bind_of_ok hballoc)
      ⟨(Fills.take h hfree).trans (.store hfresh₂ hge (Nat.lt_succ_of_lt hused) data), ⟨?_, hr.din⟩,
        rfl, ?_⟩
    · show update s₂.marked a ((s₂.marked a).setLE (4 * j) 4 s.freeblock) = _
      rw [hstore]
      exact (marked_store hbitmap data).symm
    · show update s₂.image a data s.freeblock
        = update s₂.marked a ((s₂.marked a).setLE (4 * j) 4 s.freeblock) s.freeblock
      rw [update_of_ne hne, update_of_ne hne, h.next_eq hfree]
      exact h.blank _ le_rfl hfree
  · obtain ⟨e, hballoc⟩ := (balloc_marked h hr.disk).2 hfull
    rw [hfull]
    exact sim_of_error (bind_of_error (rsect_end h.nsect)) (bind_of_error hballoc)

/-- **The blocks of a file**: `mkfs` finds the block that `bmap` finds. -/
theorem blockSect_sim (h : s.Fresh) (ho : Owner slotSuper fs ip) (hr : Rep ip s din fs) {fbn : ℕ}
    (hfbn : fbn < MAXFILE) :
    Sim (blockSect din fbn) (bmap slotSuper ip fbn) s fs fun r s' b fs' =>
      Fills s s' ∧ Rep ip s' r.2.1 fs' ∧ r.1 = b ∧ r.2.2 = fs'.disk b := by
  unfold blockSect bmap
  by_cases hdirect : fbn < NDIRECT
  · rw [dif_pos hdirect, dif_pos hdirect]
    exact slotSect_sim h ho hr _
  · have hj : fbn - NDIRECT < NINDIRECT := by
      unfold MAXFILE at hfbn
      omega
    rw [dif_neg hdirect, dif_neg hdirect, if_pos hj]
    refine ((slotSect_sim h ho hr _).and_ends (slotBlock_spec ho _)).mono ?_ |>.bind
    rintro ⟨a, din₁, buf⟩ s₁ _ fs₁ ⟨⟨hfills, hr₁, rfl, hbuf⟩, hon, hne, hlast⟩
    obtain rfl : buf = fs₁.disk a := hbuf
    have ho₁ := hon.owner ho
    have hfresh := hfills.fresh
    have hlast : ((fs₁.itable ip).din.addrs (Fin.last NDIRECT)).toNat = a := hlast
    have hmem : a ∈ fs₁.blocksOf slotSuper ip := by
      rw [← hlast]
      exact last_mem_blocks _ _ hne
    obtain ⟨hge, hused, hlt, himage⟩ := hr₁.addr_lt hfresh ho₁ hmem
    unfold Sim
    rw [bread_bind]
    by_cases hword : word (fs₁.disk a) (fbn - NDIRECT) = 0
    · rw [if_pos hword, if_pos hword]
      -- the next block goes into the indirect block, which is written back
      exact (entrySect_sim hfresh hr₁ hge hused himage _).mono fun _ _ _ _ hR =>
        ⟨hfills.trans hR.1, hR.2⟩
    · rw [if_neg hword, if_neg hword]
      have haddr : fs₁.addrOf ip fbn = word (fs₁.disk a) (fbn - NDIRECT) := by
        rw [← hlast]
        exact blockAddr_indirect (Nat.le_of_not_lt hdirect) hfbn hne
      rw [← haddr] at hword
      obtain ⟨-, -, hlt', himage'⟩ := hr₁.addr_lt hfresh ho₁
        (Multiset.mem_add.mpr (.inr (ho₁.addr_mem hword)))
      rw [haddr] at hlt' himage'
      exact sim_of_ok (bind_of_ok (rsect_of_lt hfresh.nsect hlt')) rfl
        ⟨hfills, hr₁, rfl, himage'⟩

theorem round_bytes (data : ℕ → UInt8) (left off tot : ℕ) :
    min ((range left).map fun i => data (tot + i)).length ((off / BSIZE + 1) * BSIZE - off)
      = min left (BSIZE - off % BSIZE)
    ∧ off - off / BSIZE * BSIZE = off % BSIZE := by
  have hoff := Nat.div_add_mod off BSIZE
  rw [length_map, length_range, Nat.succ_mul, Nat.mul_comm (off / BSIZE)]
  omega

theorem take_source (data : ℕ → UInt8) {left m : ℕ} (h : m ≤ left) (tot : ℕ) :
    ((range left).map fun i => data (tot + i)).take m
      = (readable data tot m).bytes.take m := by
  rw [← map_take, take_range, Nat.min_eq_left h]
  exact (take_of_length_le (by simp)).symm

theorem drop_source (data : ℕ → UInt8) {left m : ℕ} (h : m ≤ left) (tot : ℕ) :
    ((range left).map fun i => data (tot + i)).drop m
      = (range (left - m)).map fun i => data (tot + m + i) := by
  obtain ⟨n, rfl⟩ := Nat.exists_eq_add_of_le h
  rw [range_add, map_append, drop_left' (by simp), Nat.add_sub_cancel_left,
    map_map]
  exact map_congr_left fun i _ => congrArg data (Nat.add_assoc tot m i).symm

/-- **The loop of `iappend` is the loop of `writei`**: they end with the same inode,
the same disk and the same offset, or fail both. -/
theorem iappendLoop_sim (data : ℕ → UInt8) (left off tot : ℕ) (h : s.Fresh)
    (ho : Owner slotSuper fs ip) (hr : Rep ip s din fs) :
    Sim (iappendLoop din off ((range left).map fun i => data (tot + i)))
      (writeiLoop slotSuper ip (readable data) left off tot) s fs fun r s' w fs' =>
      Fills s s' ∧ Rep ip s' r.1 fs' ∧ r.2 = w.2 := by
  induction left using Nat.strong_induction_on generalizing s fs din off tot with
  | _ left ih =>
    rw [iappendLoop, writeiLoop]
    by_cases hleft : left = 0
    · rw [dif_pos hleft, hleft]
      exact sim_of_ok rfl rfl ⟨.refl h, hr, rfl⟩
    · rw [dif_neg hleft, if_neg (by simpa using hleft)]
      have hmod := Nat.mod_lt off (show 0 < BSIZE by decide)
      obtain ⟨hround, hin⟩ := round_bytes data left off tot
      by_cases hfar : off / BSIZE < MAXFILE
      · rw [if_pos hfar]
        refine (((blockSect_sim h ho hr hfar).and_ends (bmap_spec ho _)).mono ?_).bind
        rintro ⟨b, din₁, buf⟩ s₁ _ fs₁ ⟨⟨hfills, hr₁, rfl, hbuf⟩, hon, hmem⟩
        obtain rfl : buf = fs₁.disk b := hbuf
        have hfresh := hfills.fresh
        obtain ⟨hge, hused, hlt, -⟩ := hr₁.addr_lt hfresh (hon.owner ho)
          (Multiset.mem_add.mpr (.inr hmem))
        simp only [hround, hin]
        set m := min left (BSIZE - off % BSIZE) with hm
        rw [take_source data (by omega), drop_source data (by omega)]
        set bytes := (readable data tot m).bytes.take m
        have hstore := (onInode_modifyData (hon.owner ho) hmem
          ((fs₁.disk b).blit (off % BSIZE) bytes)).log (b :: fs₁.logged)
        unfold Sim
        rw [bind_of_ok (wsect_of_lt hfresh.nsect hlt _)]
        refine (ih (left - m) (by omega) (off + m) (tot + m) (hfresh.store hused _)
          (hstore.owner (hon.owner ho)) ⟨?_, hr₁.din⟩).mono fun r s' w fs' hR =>
            ⟨hfills.trans ((Fills.store hfresh hge hused _).trans hR.1), hR.2⟩
        rw [marked_store (ne_of_gt (lt_of_lt_of_le (by decide) hge)), ← hr₁.disk]
      · rw [if_neg hfar]
        refine sim_of_error rfl (bind_of_error (e := .bmapOutOfRange) ?_)
        unfold bmap
        rw [dif_neg, if_neg]
        · rfl
        · unfold MAXFILE at hfar
          omega
        · unfold MAXFILE at hfar
          omega

end Lockstep

/-! ## Inodes -/

theorem inodestart_le_IBLOCK (inum : ℕ) : slotSuper.inodestart ≤ slotSuper.IBLOCK inum :=
  Nat.le_add_left _ _

/-- The state with an inode stored. -/
def put (s : Mkfs) (inum : ℕ) (din : Dinode) : Mkfs := { s with
  image := slotSuper.putDinode s.image inum din
  inodeWrites := slotSuper.IBLOCK inum :: s.inodeWrites }

section Inodes

variable {s : Mkfs} {inum : ℕ}

theorem rinode_eq (h : s.nsect = FSSIZE) (hinum : slotSuper.IBLOCK inum < slotSuper.bmapstart) :
    rinode inum s = .ok (slotSuper.dinodeOf s.marked inum, s) := by
  have hread := rsect_of_lt h (lt_trans hinum (show slotSuper.bmapstart < FSSIZE by decide))
  rw [← marked_of_ne (ne_of_lt hinum)] at hread
  exact bind_of_ok hread

theorem winode_eq (h : s.nsect = FSSIZE) (hinum : slotSuper.IBLOCK inum < slotSuper.bmapstart)
    (din : Dinode) : winode inum din s = .ok ((), s.put inum din) := by
  have hlt : mkfsSuper.IBLOCK inum < FSSIZE :=
    lt_trans hinum (show slotSuper.bmapstart < FSSIZE by decide)
  unfold winode
  rw [bind_of_ok (rsect_of_lt h hlt), bind_of_ok (wsect_of_lt h hlt _)]
  rfl

theorem marked_put (hinum : slotSuper.IBLOCK inum < slotSuper.bmapstart) (din : Dinode) :
    (s.put inum din).marked = slotSuper.putDinode s.marked inum din := by
  have hne := ne_of_lt hinum
  unfold Superblock.putDinode
  rw [marked_of_ne hne]
  exact marked_store hne _

theorem put_super (din : Dinode) : (s.put inum din).image 1 = s.image 1 := by
  have hne : 1 ≠ slotSuper.IBLOCK inum :=
    ne_of_lt (lt_of_lt_of_le (by decide) (inodestart_le_IBLOCK inum))
  show slotSuper.putDinode s.image inum din 1 = _
  unfold Superblock.putDinode
  exact update_of_ne hne _ _

theorem Fresh.put (h : s.Fresh) (hinum : slotSuper.IBLOCK inum < slotSuper.bmapstart)
    (din : Dinode) : (s.put inum din).Fresh := by
  have hstore := h.store (lt_of_lt_of_le hinum (le_trans (by decide) h.ge))
    (din.store (s.image (slotSuper.IBLOCK inum)) (inum % IPB))
  exact ⟨hstore.nsect, hstore.ge, hstore.le, hstore.blank⟩

end Inodes

/-! ## Files -/

/-- **A file of an image**: its type and its contents. It has one link, and blocks
up to its end and no others. -/
structure IsFile (disk : Disk) (j : ℕ) (type : UInt16) (bytes : List UInt8) : Prop where
  type : (slotSuper.dinodeOf disk j).type = type
  nlink : (slotSuper.dinodeOf disk j).nlink = 1
  contents : fileContents disk (slotSuper.dinodeOf disk j) = bytes
  size_le : (slotSuper.dinodeOf disk j).size.toNat ≤ MAXFILE * BSIZE
  addr : ∀ bn, blockAddr disk (slotSuper.dinodeOf disk j).addrs bn ≠ 0
    ↔ bn < blocksFor (slotSuper.dinodeOf disk j).size.toNat

section Files

variable {disk disk' : Disk} {j : ℕ} {type : UInt16} {bytes : List UInt8}

theorem IsFile.size (h : IsFile disk j type bytes) :
    (slotSuper.dinodeOf disk j).size.toNat = bytes.length := by
  rw [← h.contents]
  unfold fileContents
  rw [length_map, length_range]

theorem IsFile.byte (h : IsFile disk j type bytes) {k : ℕ} (hk : k < bytes.length) :
    fileByte disk (slotSuper.dinodeOf disk j).addrs k = bytes.getD k 0 := by
  have hsize := h.size
  have hcontents := h.contents
  subst hcontents
  unfold fileContents
  rw [getD_eq_getElem?_getD, getElem?_map, getElem?_range (hsize ▸ hk)]
  rfl

theorem IsFile.holeFree (h : IsFile disk j type bytes) :
    (slotSuper.dinodeOf disk j).HoleFree disk :=
  ⟨h.size_le, fun bn hbn => (h.addr bn).mpr hbn⟩

theorem IsFile.congr (h : IsFile disk j type bytes)
    (hdin : slotSuper.dinodeOf disk' j = slotSuper.dinodeOf disk j)
    (hblocks : ∀ c ∈ blocks disk (slotSuper.dinodeOf disk j).addrs, disk' c = disk c) :
    IsFile disk' j type bytes := by
  refine ⟨by rw [hdin, h.type], by rw [hdin, h.nlink], ?_, by rw [hdin]; exact h.size_le,
    fun bn => ?_⟩
  · rw [hdin, contents_congr hblocks, h.contents]
  · rw [hdin, blockAddr_congr fun hlast => hblocks _ (last_mem_blocks _ _ hlast)]
    exact h.addr bn

/-- A new inode is an empty file. -/
theorem IsFile.new (disk : Disk) (j : ℕ) (type : UInt16) :
    IsFile (slotSuper.putDinode disk j ⟨type, 0, 0, 1, 0, fun _ => 0⟩) j type [] := by
  have hdin : slotSuper.dinodeOf (slotSuper.putDinode disk j ⟨type, 0, 0, 1, 0, fun _ => 0⟩) j
      = ⟨type, 0, 0, 1, 0, fun _ => 0⟩ := by
    rw [Superblock.dinodeOf_putDinode, if_pos rfl]
  refine ⟨by rw [hdin], by rw [hdin], by rw [hdin]; rfl, by rw [hdin]; exact Nat.zero_le _,
    fun bn => ?_⟩
  rw [hdin]
  have hzero : blockAddr (slotSuper.putDinode disk j ⟨type, 0, 0, 1, 0, fun _ => 0⟩)
      (fun _ => 0) bn = 0 := by
    unfold blockAddr
    simp
  have hnone : blocksFor (0 : UInt32).toNat = 0 := by decide
  exact ⟨fun h => absurd hzero h, fun h => absurd (hnone ▸ h) (Nat.not_lt_zero bn)⟩

end Files

/-! ## Appending -/

/-- The kernel with the image of `mkfs` and one inode locked. -/
def held (s : Mkfs) (inum : ℕ) : Fs :=
  (Fs.boot s.marked).setInode 0 ⟨inum, 1, true, slotSuper.dinodeOf s.marked inum⟩

/-- **Bytes were appended to a file**: all that `iappend` does. -/
structure Appended (inum : ℕ) (p : List UInt8) (s s' : Mkfs) : Prop where
  fresh : s'.Fresh
  part : Partition slotSuper s'.marked
  freeinode : s'.freeinode = s.freeinode
  super : s'.image 1 = s.image 1
  inodeWrites : s'.inodeWrites = slotSuper.IBLOCK inum :: s.inodeWrites
  file : ∀ {type bytes}, IsFile s.marked inum type bytes → IsFile s'.marked inum type (bytes ++ p)
  other : ∀ j < SLOTS, j ≠ inum → slotSuper.dinodeOf s'.marked j = slotSuper.dinodeOf s.marked j
    ∧ ∀ {type bytes}, type ≠ 0 → IsFile s.marked j type bytes → IsFile s'.marked j type bytes
  few : (slotSuper.dinodeOf s.marked inum).size.toNat % BSIZE + p.length ≤ BSIZE →
    s'.freeblock ≤ s.freeblock + 2

/-- The file does not grow too long, and the blocks that it needs are there. -/
def Room (s : Mkfs) (inum : ℕ) (p : List UInt8) : Prop :=
  let d := slotSuper.dinodeOf s.marked inum
  d.size.toNat + p.length ≤ MAXFILE * BSIZE
    ∧ missing s.marked d.addrs (d.size.toNat / BSIZE) (blocksFor (d.size.toNat + p.length))
      ≤ FSSIZE - s.freeblock

section Append

variable {s s' : Mkfs} {inum : ℕ} {P : MkfsFail → Prop}

@[simp] theorem held_disk (s : Mkfs) (inum : ℕ) : (s.held inum).disk = s.marked := rfl

theorem held_itable (s : Mkfs) (inum : ℕ) :
    (s.held inum).itable 0 = ⟨inum, 1, true, slotSuper.dinodeOf s.marked inum⟩ :=
  setInode_self _

theorem held_inv (hpart : Partition slotSuper s.marked) (hinum : inum < SLOTS)
    (htype : (slotSuper.dinodeOf s.marked inum).type ≠ 0) : FsInv slotSuper (s.held inum) :=
  (FsInv.boot (blockOwnership_iff_partition.mpr hpart)).setInode (fun _ => hinum)
    (fun _ _ h => absurd h (lt_irrefl 0)) fun _ _ => ⟨rfl, htype⟩

/-- The blocks that were not handed out are free. -/
theorem nfree_held (h : s.Fresh) (inum : ℕ) :
    (s.held inum).nfree slotSuper = FSSIZE - s.freeblock := by
  have hset : (slotSuper.pool s.marked).free.toFinset = Finset.Ico s.freeblock FSSIZE := by
    ext b
    rw [mem_toFinset, mem_pool_free, Finset.mem_Ico]
    constructor
    · rintro ⟨-, hlt, hbit⟩
      rw [bitOf_marked h.le hlt, decide_eq_false_iff_not, not_lt] at hbit
      exact ⟨hbit, hlt⟩
    · rintro ⟨hge, hlt⟩
      refine ⟨le_trans h.ge hge, hlt, ?_⟩
      rw [bitOf_marked h.le hlt]
      exact decide_eq_false (Nat.not_lt_of_le hge)
  have hnodup : (slotSuper.pool s.marked).free.Nodup := nodup_pool_free _
  have hcard := toFinset_card_of_nodup hnodup
  rw [hset, Nat.card_Ico] at hcard
  exact hcard.symm

theorem missingOf_held (s : Mkfs) (inum lo hi : ℕ) : (s.held inum).missingOf 0 lo hi
    = missing s.marked (slotSuper.dinodeOf s.marked inum).addrs lo hi := by
  unfold Fs.missingOf
  rw [held_itable, held_disk]

/-- Finding a block hands out two blocks at most. -/
theorem blockSect_few (din : Dinode) (fbn : ℕ) :
    Ends (blockSect din fbn) s (fun _ => True) fun _ s' => s'.freeblock ≤ s.freeblock + 2 := by
  have hslot : ∀ k, Ends (slotSect din k) s (fun _ => True) fun _ s' =>
      s'.freeblock ≤ s.freeblock + 1 := by
    intro k
    unfold slotSect fillSlot
    refine ends_bind ?_
    split
    · exact ends_bind (takeBlock_ends (ends_pure (ends_bind (rsect_ends trivial
        (ends_pure le_rfl)))))
    · exact ends_pure (ends_bind (rsect_ends trivial (ends_pure (Nat.le_succ _))))
  unfold blockSect
  split
  · exact (hslot _).mono fun _ _ hle => Nat.le_succ_of_le hle
  · refine ends_bind ((hslot _).mono fun r s₁ hle => ?_)
    split
    · exact ends_bind (takeBlock_ends (ends_bind (wsect_ends (ends_bind
        (rsect_ends trivial (ends_pure (Nat.succ_le_succ hle)))))))
    · exact ends_bind (rsect_ends trivial (ends_pure (Nat.le_succ_of_le hle)))

/-- A file does not grow too long, and bytes that end in the block in which they start
take two blocks at most. -/
theorem iappendLoop_ends (din : Dinode) (off : ℕ) (p : List UInt8) :
    Ends (iappendLoop din off p) s (fun _ => True) fun _ s' =>
      (p ≠ [] → off + p.length ≤ MAXFILE * BSIZE)
      ∧ (off % BSIZE + p.length ≤ BSIZE →
        s'.freeblock ≤ s.freeblock + if p = [] then 0 else 2) := by
  induction hn : p.length using Nat.strong_induction_on generalizing s din off p with
  | _ n ih =>
    subst hn
    rw [iappendLoop]
    by_cases hp : p = []
    · rw [if_pos hp]
      exact ends_pure ⟨fun h => absurd hp h, fun _ => Nat.le_add_right _ _⟩
    · rw [if_neg hp, if_neg hp]
      have hpos := length_pos_of_ne_nil hp
      have hoff := Nat.div_add_mod off BSIZE
      have hmod := Nat.mod_lt off (show 0 < BSIZE by decide)
      rw [Nat.mul_comm] at hoff
      by_cases hfar : off / BSIZE < MAXFILE
      · rw [if_pos hfar]
        have hend : (off / BSIZE + 1) * BSIZE ≤ MAXFILE * BSIZE := Nat.mul_le_mul_right _ hfar
        rw [Nat.succ_mul] at hend ⊢
        refine ends_bind ((blockSect_few din _).mono fun r s₁ hle => ?_)
        refine ends_bind (wsect_ends ?_)
        set n1 := min p.length (off / BSIZE * BSIZE + BSIZE - off) with hn1
        have hlen : (p.drop n1).length = p.length - n1 := length_drop
        refine (ih _ (by omega) _ _ _ rfl).mono ?_
        rintro _ s' ⟨hmax, hfew⟩
        refine ⟨fun _ => ?_, fun hfit => ?_⟩
        · by_cases hrest : p.drop n1 = []
          · rw [hrest, length_nil] at hlen
            omega
          · have := hmax hrest
            omega
        · have hrest : p.drop n1 = [] := drop_eq_nil_of_le (by omega)
          rw [hrest, if_pos rfl] at hfew
          have := hfew (by
            rw [length_nil]
            exact (Nat.mod_lt _ (by decide)).le)
          exact le_trans this hle
      · rw [if_neg hfar]
        exact ends_panic trivial

theorem splice_end (old bytes : List UInt8) : splice old old.length bytes = old ++ bytes := by
  unfold splice
  rw [take_length, drop_eq_nil_of_le (Nat.le_add_right _ _), append_nil]

theorem map_getD_range (p : List UInt8) : (range p.length).map (fun i => p.getD i 0) = p := by
  refine ext_getElem (by simp) fun i h₁ h₂ => ?_
  simp [h₂]

/-- The inode is stored after the loop. -/
theorem Appended.of_written {p : List UInt8} {r : Dinode × ℕ} {s₁ : Mkfs} {w : ℕ × ℕ} {fs₁ : Fs}
    (hpart : Partition slotSuper s.marked) (hinum : inum < SLOTS)
    (htype : (slotSuper.dinodeOf s.marked inum).type ≠ 0)
    (hmax : (slotSuper.dinodeOf s.marked inum).size.toNat + p.length ≤ MAXFILE * BSIZE)
    (hfills : Fills s s₁) (hr : Rep 0 s₁ r.1 fs₁) (hend : r.2 = w.2)
    (hw : Written slotSuper 0 (readable fun i => p.getD i 0)
      (slotSuper.dinodeOf s.marked inum).size.toNat p.length 0 (s.held inum) w fs₁)
    (hfew : (slotSuper.dinodeOf s.marked inum).size.toNat % BSIZE + p.length ≤ BSIZE →
      s₁.freeblock ≤ s.freeblock + 2) :
    Appended inum p s (s₁.put inum { r.1 with size := UInt32.ofNat r.2 }) := by
  have hinv := held_inv hpart hinum htype
  have hblock : slotSuper.IBLOCK inum < slotSuper.bmapstart := slotSuper.IBLOCK_lt hinum
  have hentry := held_itable s inum
  have href : 0 < ((s.held inum).itable 0).ref := by
    rw [hentry]
    exact Nat.one_pos
  have hv : ((s.held inum).itable 0).valid := by rw [hentry]
  have hnum : ((s.held inum).itable 0).inum = inum := by rw [hentry]
  have hdin : ((s.held inum).itable 0).din = slotSuper.dinodeOf s.marked inum := by rw [hentry]
  obtain ⟨hall, hover⟩ := hw.overwrites hinv href hv (by rw [hdin]) hmax
  have hst := hw.on.stored hinv href hv (Dinode.grown_addrs (fs₁.itable 0).din w.2)
  set d := slotSuper.dinodeOf s.marked inum with hd
  have hcount : w.2 = d.size.toNat + p.length := by rw [hw.count, hall]
  -- `iappend` sets the size in every case, `writei` only if the file grows
  have hgrown : { r.1 with size := UInt32.ofNat r.2 } = (fs₁.itable 0).din.grown w.2 := by
    have hsize : (fs₁.itable 0).din.size = d.size := by rw [hw.size, hdin]
    unfold Dinode.grown
    rw [← hr.din, hend, hsize]
    split
    · rfl
    · have hsame : UInt32.ofNat w.2 = (fs₁.itable 0).din.size := by
        rw [hsize, show w.2 = d.size.toNat by omega, UInt32.ofNat_toNat]
      rw [hsame]
  have hinum₁ : (fs₁.itable 0).inum = inum := by
    obtain ⟨size, addrs, htable⟩ := hw.on.itable
    rw [htable, setDin_self, hnum]
  have hdisk : (s₁.put inum { r.1 with size := UInt32.ofNat r.2 }).marked
      = ((fs₁.setDin 0 ((fs₁.itable 0).din.grown w.2)).iupdated slotSuper 0).disk := by
    rw [marked_put hblock, hgrown, ← hr.disk]
    show _ = slotSuper.putDinode fs₁.disk ((fs₁.setDin 0 _).itable 0).inum
      ((fs₁.setDin 0 _).itable 0).din
    rw [setDin_self, hinum₁]
  refine ⟨hfills.fresh.put hblock _, ?_, hfills.freeinode, ?_, ?_, fun hfile => ?_,
    fun j hj hne => ?_, hfew⟩
  · rw [hdisk]
    exact hover.inv.disk
  · rw [put_super]
    exact hfills.image 1 (by decide)
  · exact congrArg _ hfills.inodeWrites
  · have hd' : slotSuper.dinodeOf (s₁.put inum { r.1 with size := UInt32.ofNat r.2 }).marked inum
        = (fs₁.itable 0).din.grown w.2 := by
      have h := hst.dinode
      rwa [hnum, ← hdisk] at h
    have hsize : ((fs₁.itable 0).din.grown w.2).size.toNat = d.size.toNat + p.length := by
      rw [Dinode.grown_size _ (hcount ▸ hmax), hw.size, hdin, hcount]
      omega
    obtain ⟨size, addrs, htable⟩ := hw.on.itable
    have hkeep : (fs₁.itable 0).din = { d with size := size, addrs := addrs } := by
      rw [htable, setDin_self, hdin]
    refine ⟨?_, ?_, ?_, ?_, fun bn => ?_⟩
    · rw [hd', Dinode.grown_type, hkeep]
      exact hfile.type
    · rw [hd', Dinode.grown_nlink, hkeep]
      exact hfile.nlink
    · have h := hover.contents
      rw [hnum, ← hdisk, held_disk, hfile.contents, map_getD_range, hfile.size, splice_end] at h
      exact h
    · rw [hd', hsize]
      exact hmax
    · have haddr := hst.addr bn
      rw [← hdisk] at haddr
      rw [hd', hsize, haddr]
      refine hw.addr_iff hall (fun bn => ?_) bn
      unfold Fs.addrOf
      rw [hdin]
      exact hfile.addr bn
  · have hother := hst.other j hj (by rwa [hnum])
    rw [hdisk]
    refine ⟨hother.1, fun htype' hfile => hfile.congr hother.1 (hother.2 ?_)⟩
    rw [held_disk, hfile.type]
    exact htype'

/-- **What `iappend` does**: it appends the bytes; it fails if there is no room. -/
theorem iappend_ends (h : s.Fresh) (hpart : Partition slotSuper s.marked) (hinum : inum < SLOTS)
    (htype : (slotSuper.dinodeOf s.marked inum).type ≠ 0)
    (hsize : (slotSuper.dinodeOf s.marked inum).size.toNat ≤ MAXFILE * BSIZE) (p : List UInt8) :
    Ends (iappend inum p) s (fun _ => ¬ s.Room inum p) fun _ s' => Appended inum p s s' := by
  have hinv := held_inv hpart hinum htype
  have hentry := held_itable s inum
  have ho : Owner slotSuper (s.held inum) 0 :=
    (hinv.owner (by rw [hentry]; exact Nat.one_pos) (by rw [hentry])).1
  have hr : Rep 0 s (slotSuper.dinodeOf s.marked inum) (s.held inum) := ⟨rfl, by rw [hentry]⟩
  have hblock : slotSuper.IBLOCK inum < slotSuper.bmapstart := slotSuper.IBLOCK_lt hinum
  unfold iappend
  refine ends_bind (ends_of_ok (rinode_eq h.nsect hblock) ?_)
  set d := slotSuper.dinodeOf s.marked inum with hd
  have hloop := iappendLoop_ends (s := s) d d.size.toNat p
  by_cases hmax : d.size.toNat + p.length ≤ MAXFILE * BSIZE
  · have hsim := iappendLoop_sim (fun i => p.getD i 0) p.length d.size.toNat 0 h ho hr
    simp only [Nat.zero_add, map_getD_range] at hsim
    have hkernel : Ends (writeiLoop slotSuper 0 (readable fun i => p.getD i 0) p.length
        (d.size.toNat + 0) 0) (s.held inum)
        (fun _ => (s.held inum).nfree slotSuper < (s.held inum).missingOf 0
          ((d.size.toNat + 0) / BSIZE) (blocksFor (d.size.toNat + p.length)))
        (Written slotSuper 0 (readable fun i => p.getD i 0) d.size.toNat p.length 0
          (s.held inum)) :=
      writeiLoop_written ho (Nat.zero_add _) (fun _ => .inl rfl) hmax id
    rw [Nat.add_zero] at hkernel
    refine ends_bind ((((hsim.ends hkernel).and hloop).panic_mono ?_).mono ?_)
    · rintro _ ⟨⟨-, hless⟩, -⟩ ⟨-, hroom⟩
      rw [nfree_held h, missingOf_held] at hless
      exact absurd hroom (Nat.not_le_of_lt hless)
    · rintro r s₁ ⟨⟨w, fs₁, ⟨hfills, hr₁, hend⟩, hw⟩, -, hfew⟩
      refine ends_of_ok (winode_eq hfills.fresh.nsect hblock _) ?_
      exact .of_written hpart hinum htype hmax hfills hr₁ hend hw fun hfit =>
        le_trans (hfew hfit) (Nat.add_le_add_left (by split <;> omega) _)
  · have hne : p ≠ [] := by
      rintro rfl
      exact hmax (by rwa [length_nil, Nat.add_zero])
    refine ends_bind ((hloop.panic_mono fun _ _ hroom => hmax hroom.1).mono fun r s₁ hc => ?_)
    exact absurd (hc.1 hne) hmax

end Append

/-! ## New inodes -/

/-- A new inode: no block is handed out, and it is an empty file. -/
structure Created (j : ℕ) (type : UInt16) (s s' : Mkfs) : Prop where
  fresh : s'.Fresh
  part : Partition slotSuper s.marked → Partition slotSuper s'.marked
  freeinode : s'.freeinode = s.freeinode + 1
  freeblock : s'.freeblock = s.freeblock
  super : s'.image 1 = s.image 1
  inodeWrites : s'.inodeWrites = slotSuper.IBLOCK j :: s.inodeWrites
  file : IsFile s'.marked j type []
  other : ∀ i < SLOTS, i ≠ j → slotSuper.dinodeOf s'.marked i = slotSuper.dinodeOf s.marked i
    ∧ ∀ {type bytes}, Partition slotSuper s.marked → type ≠ 0 → IsFile s.marked i type bytes →
      IsFile s'.marked i type bytes

section New

variable {s : Mkfs}

/-- **What `ialloc` does**: it stores an empty inode, also behind the last inode of the
superblock if there is a slot. -/
theorem ialloc_eq (type : UInt16) (h : s.Fresh)
    (hj : slotSuper.IBLOCK s.freeinode < slotSuper.bmapstart)
    (hfree : s.freeinode < SLOTS → (slotSuper.dinodeOf s.marked s.freeinode).type = 0) :
    ∃ s', ialloc type s = .ok (s.freeinode, s') ∧ Created s.freeinode type s s' := by
  set s₁ : Mkfs := { s with freeinode := s.freeinode + 1 } with hs₁
  have hrun : ialloc type s = .ok (s.freeinode,
      s₁.put s.freeinode ⟨type, 0, 0, 1, 0, fun _ => 0⟩) := by
    have hw := winode_eq (s := s₁) h.nsect hj ⟨type, 0, 0, 1, 0, fun _ => 0⟩
    exact (bind_of_ok hw : (winode s.freeinode _ >>= fun _ => pure s.freeinode) s₁ = _)
  have hmarked : (s₁.put s.freeinode ⟨type, 0, 0, 1, 0, fun _ => 0⟩).marked
      = slotSuper.putDinode s.marked s.freeinode ⟨type, 0, 0, 1, 0, fun _ => 0⟩ := marked_put hj _
  have hfresh : s₁.Fresh := ⟨h.nsect, h.ge, h.le, h.blank⟩
  have hother : ∀ i ≠ s.freeinode, slotSuper.dinodeOf
      (slotSuper.putDinode s.marked s.freeinode ⟨type, 0, 0, 1, 0, fun _ => 0⟩) i
      = slotSuper.dinodeOf s.marked i := fun i hi => by
    rw [Superblock.dinodeOf_putDinode, if_neg hi]
  have hdata : ∀ c, slotSuper.bmapstart ≤ c →
      slotSuper.putDinode s.marked s.freeinode ⟨type, 0, 0, 1, 0, fun _ => 0⟩ c = s.marked c :=
    fun c hc => update_of_ne (by omega) _ _
  refine ⟨_, hrun, hfresh.put hj _, fun hpart => ?_, rfl, rfl, put_super _, rfl, ?_,
    fun i hi hne => ?_⟩
  · rw [hmarked]
    refine hpart.congr hdata fun mem i hi => ?_
    unfold ownedBy
    by_cases hij : i = s.freeinode
    · rw [hij, Superblock.dinodeOf_putDinode, if_pos rfl, if_pos (hfree (hij ▸ hi)), blocks_zero]
      split <;> rfl
    · rw [hother i hij]
  · rw [hmarked]
    exact .new _ _ _
  · rw [hmarked]
    refine ⟨hother i hne, fun hpart htype hfile => hfile.congr (hother i hne) fun c hc => ?_⟩
    have hge := (hpart.mem_ownedBy hi (by rwa [hfile.type]) hc).2
    exact hdata c (le_trans (by decide) hge)

end New

/-! ## The image after each step -/

/-- An inode that was never used. -/
def freeInode : Dinode := ⟨0, 0, 0, 0, 0, fun _ => 0⟩

/-- The bytes of a directory with these names and inode numbers. -/
def dirBytes (ents : List (List UInt8 × ℕ)) : List UInt8 :=
  ents.flatMap fun e => entryBytes e.1 e.2

theorem dirBytes_append (ents : List (List UInt8 × ℕ)) (e : List UInt8 × ℕ) :
    dirBytes (ents ++ [e]) = dirBytes ents ++ entryBytes e.1 e.2 := by
  unfold dirBytes
  rw [flatMap_append, flatMap_singleton]

theorem length_entryBytes (name : List UInt8) (inum : ℕ) : (entryBytes name inum).length = 16 := by
  unfold entryBytes
  rw [length_append, length_strncpy]
  rfl

theorem length_dirBytes (ents : List (List UInt8 × ℕ)) :
    (dirBytes ents).length = 16 * ents.length := by
  unfold dirBytes
  rw [length_flatMap]
  simp only [length_entryBytes, map_const', sum_replicate, smul_eq_mul]
  omega

/-- A write allocates the blocks that it writes to at most, and the indirect block. -/
theorem missing_le (mem : ℕ → Block) (addrs : Fin (NDIRECT + 1) → UInt32) (lo hi : ℕ) :
    missing mem addrs lo hi ≤ hi - lo + 1 := by
  refine Nat.add_le_add ((Finset.card_filter_le _ _).trans ?_) (by split <;> omega)
  rw [Nat.card_Ico]
  omega

/-- **The image is sound**: inode 1 is the root directory, the next ones are the files
stored so far, and the others are free. -/
structure Sound (s : Mkfs) (ents : List (List UInt8 × ℕ)) (files : List (List UInt8)) : Prop where
  fresh : s.Fresh
  part : Partition slotSuper s.marked
  freeinode : s.freeinode = files.length + 2
  le : files.length + 2 ≤ SLOTS
  root : IsFile s.marked ROOTINO T_DIR (dirBytes ents)
  file : ∀ i bytes, files[i]? = some bytes → IsFile s.marked (i + 2) T_FILE bytes
  free : ∀ j < SLOTS, j = 0 ∨ files.length + 2 ≤ j → slotSuper.dinodeOf s.marked j = freeInode
  super : s.image 1 = superSect mkfsSuper
  inodeWrites : ∀ b ∈ s.inodeWrites, slotSuper.inodestart ≤ b ∧ b < slotSuper.bmapstart

section Run

variable {s s' : Mkfs} {ents : List (List UInt8 × ℕ)} {files : List (List UInt8)}

theorem Sound.writes_cons (h : Sound s ents files) {inum : ℕ} (hinum : inum < SLOTS)
    (hw : s'.inodeWrites = slotSuper.IBLOCK inum :: s.inodeWrites) :
    ∀ b ∈ s'.inodeWrites, slotSuper.inodestart ≤ b ∧ b < slotSuper.bmapstart := by
  intro b hb
  rw [hw, mem_cons] at hb
  obtain rfl | hb := hb
  · exact ⟨inodestart_le_IBLOCK inum, slotSuper.IBLOCK_lt hinum⟩
  · exact h.inodeWrites b hb

theorem room_root (hroot : IsFile s.marked ROOTINO T_DIR (dirBytes ents)) (e : List UInt8 × ℕ)
    (hents : ents.length ≤ SLOTS) (hfree : s.freeblock + 3 ≤ FSSIZE) :
    s.Room ROOTINO (entryBytes e.1 e.2) := by
  have hsize := hroot.size
  rw [length_dirBytes] at hsize
  have hmax : MAXFILE * BSIZE = 274432 := by
    unfold MAXFILE NINDIRECT
    decide
  unfold SLOTS at hents
  unfold Room
  simp only [hsize, length_entryBytes]
  refine ⟨by omega, le_trans (missing_le _ _ _ _) ?_⟩
  unfold blocksFor BSIZE FSSIZE at *
  omega

/-- **An entry of the root directory is appended.** -/
theorem Sound.append_root (h : Sound s ents files) (e : List UInt8 × ℕ) :
    Ends (iappend ROOTINO (entryBytes e.1 e.2)) s
      (fun _ => ents.length ≤ SLOTS → FSSIZE < s.freeblock + 3) fun _ s' =>
      Sound s' (ents ++ [e]) files ∧ s'.freeblock ≤ s.freeblock + 2 := by
  have hroot : ROOTINO < SLOTS := by decide
  have htype : (slotSuper.dinodeOf s.marked ROOTINO).type ≠ 0 := by
    rw [h.root.type]
    decide
  refine ((iappend_ends h.fresh h.part hroot htype h.root.size_le _).panic_mono
    fun _ hroom hents => ?_).mono fun _ s' ha => ⟨?_, ha.few ?_⟩
  · by_contra hfree
    exact hroom (room_root h.root e hents (Nat.le_of_not_lt hfree))
  · refine ⟨ha.fresh, ha.part, ha.freeinode.trans h.freeinode, h.le, ?_, fun i bytes hi => ?_,
      fun j hj hfree => ?_, ha.super.trans h.super, h.writes_cons hroot ha.inodeWrites⟩
    · rw [dirBytes_append]
      exact ha.file h.root
    · have hlt := (List.getElem?_eq_some_iff.mp hi).1
      have hle := h.le
      exact (ha.other (i + 2) (by omega) (by unfold ROOTINO; omega)).2 (by decide)
        (h.file i bytes hi)
    · rw [(ha.other j hj (by unfold ROOTINO; omega)).1]
      exact h.free j hj hfree
  · rw [h.root.size, length_dirBytes, length_entryBytes]
    unfold BSIZE
    omega

/-- Bytes are appended to the last file. -/
theorem Sound.append_last {c : List UInt8} (h : Sound s ents (files ++ [c])) (p : List UInt8) :
    Ends (iappend (files.length + 2) p) s (fun _ => ¬ s.Room (files.length + 2) p) fun _ s' =>
      Sound s' ents (files ++ [c ++ p]) := by
  have hlen : (files ++ [c]).length = files.length + 1 := by simp
  have hlen' : (files ++ [c ++ p]).length = files.length + 1 := by simp
  have hle := h.le
  have hlast := h.file files.length c (by simp)
  have htype : (slotSuper.dinodeOf s.marked (files.length + 2)).type ≠ 0 := by
    rw [hlast.type]
    decide
  have hinum : files.length + 2 < SLOTS := by omega
  refine (iappend_ends h.fresh h.part hinum htype hlast.size_le _).mono fun _ s' ha => ?_
  refine ⟨ha.fresh, ha.part, ?_, by omega, ?_, fun i bytes hi => ?_,
    fun j hj hfree => ?_, ha.super.trans h.super, h.writes_cons hinum ha.inodeWrites⟩
  · rw [ha.freeinode, h.freeinode, hlen, hlen']
  · exact (ha.other ROOTINO (by decide) (by unfold ROOTINO; omega)).2 (by decide) h.root
  · have hlt := (List.getElem?_eq_some_iff.mp hi).1
    rw [List.getElem?_append] at hi
    split at hi
    · exact (ha.other (i + 2) (by omega) (by omega)).2 (by decide)
        (h.file i bytes (by rw [getElem?_append_left ‹_›]; exact hi))
    · obtain rfl : i = files.length := by omega
      obtain rfl : c ++ p = bytes := by simpa using hi
      exact ha.file hlast
  · rw [(ha.other j hj (by omega)).1]
    exact h.free j hj (by omega)

/-- A new file, which is empty. -/
theorem Sound.create (h : Sound s ents files) (hlt : files.length + 2 < SLOTS) :
    ∃ s', ialloc T_FILE s = .ok (files.length + 2, s') ∧ Sound s' ents (files ++ [[]])
      ∧ s'.freeblock = s.freeblock := by
  have hnum := h.freeinode
  have hblock : slotSuper.IBLOCK s.freeinode < slotSuper.bmapstart :=
    slotSuper.IBLOCK_lt (by rw [hnum]; exact hlt)
  obtain ⟨s', hrun, hc⟩ := ialloc_eq T_FILE h.fresh hblock fun hin => by
    rw [h.free _ hin (.inr hnum.ge)]
    rfl
  rw [hnum] at hrun hc
  have hlen : (files ++ [([] : List UInt8)]).length = files.length + 1 := by simp
  refine ⟨s', hrun, ⟨hc.fresh, hc.part h.part, by rw [hc.freeinode, hnum, hlen], by omega, ?_,
    fun i bytes hi => ?_, fun j hj hfree => ?_, hc.super.trans h.super,
    h.writes_cons hlt hc.inodeWrites⟩, hc.freeblock⟩
  · exact (hc.other ROOTINO (by decide) (by unfold ROOTINO; omega)).2 h.part (by decide) h.root
  · have hin := (List.getElem?_eq_some_iff.mp hi).1
    rw [List.getElem?_append] at hi
    split at hi
    · exact (hc.other (i + 2) (by omega) (by omega)).2 h.part (by decide) (h.file i bytes hi)
    · obtain rfl : i = files.length := by omega
      obtain rfl : [] = bytes := by simpa using hi
      exact hc.file
  · rw [(hc.other j hj (by omega)).1]
    exact h.free j hj (by omega)

/-- The loop over what `read` returns. -/
theorem appendReads_ends {c : List UInt8} (h : Sound s ents (files ++ [c]))
    (reads : List (List UInt8)) :
    Ends (appendReads (files.length + 2) reads) s (fun _ => reads ≠ []) fun _ s' =>
      Sound s' ents (files ++ [c ++ reads.flatten]) ∧ (reads = [] → s' = s) := by
  induction reads generalizing s c with
  | nil =>
    refine ends_pure ⟨?_, fun _ => rfl⟩
    rwa [flatten_nil, append_nil]
  | cons p ps ih =>
    have hne : p :: ps ≠ [] := cons_ne_nil _ _
    refine ends_bind (((h.append_last p).panic_mono fun _ _ => hne).mono fun _ s₁ h₁ => ?_)
    refine ((ih h₁).panic_mono fun _ _ => hne).mono fun _ s' h' => ⟨?_, fun h => absurd h hne⟩
    rw [flatten_cons, ← append_assoc]
    exact h'.1

/-- **Storing a file**: an entry of the root directory, and the contents. A name with a
slash is refused; an empty file is stored if there are a few blocks. -/
theorem addFile_ends (h : Sound s ents files) (hlt : files.length + 2 < SLOTS) (f : InputFile) :
    Ends (addFile f) s
      (fun _ => slash ∈ f.shortname ∨ f.reads ≠ []
        ∨ (ents.length ≤ SLOTS → FSSIZE < s.freeblock + 3)) fun _ s' =>
      slash ∉ f.shortname
      ∧ Sound s' (ents ++ [(f.name, files.length + 2)]) (files ++ [f.contents])
      ∧ (f.reads = [] → s'.freeblock ≤ s.freeblock + 2) := by
  unfold addFile
  split <;> rename_i hslash
  · exact ends_panic (.inl hslash)
  · obtain ⟨s₁, hrun, h₁, hblock⟩ := h.create hlt
    refine ends_bind (ends_of_ok hrun ?_)
    rw [← hblock]
    refine ends_bind (((h₁.append_root (f.name, files.length + 2)).panic_mono
      fun _ hroom => .inr (.inr hroom)).mono ?_)
    rintro _ s₂ ⟨h₂, hfew⟩
    refine ((appendReads_ends h₂ f.reads).panic_mono fun _ hne => .inr (.inl hne)).mono
      fun _ s' h' => ⟨hslash, h'.1, fun hempty => ?_⟩
    rw [h'.2 hempty]
    exact hfew

/-- **The loop over the files.** -/
theorem addFiles_ends (fs : List InputFile) (h : Sound s ents files)
    (hle : files.length + fs.length + 2 ≤ SLOTS) :
    Ends (addFiles fs) s
      (fun _ => (∀ f ∈ fs, slash ∉ f.shortname ∧ f.reads = []) →
        ents.length + fs.length ≤ SLOTS + 1 → FSSIZE < s.freeblock + 2 * fs.length + 1) fun _ s' =>
      Sound s' (ents ++ (fs.map InputFile.name).zipIdx (files.length + 2))
        (files ++ fs.map InputFile.contents)
      ∧ (∀ f ∈ fs, slash ∉ f.shortname)
      ∧ ((∀ f ∈ fs, f.reads = []) → s'.freeblock ≤ s.freeblock + 2 * fs.length) := by
  induction fs generalizing s ents files with
  | nil =>
    refine ends_pure ⟨?_, by simp, fun _ => le_rfl⟩
    simpa using h
  | cons f fs ih =>
    have hlen : (files ++ [f.contents]).length = files.length + 1 := by simp
    rw [length_cons] at hle ⊢
    refine ends_bind (((addFile_ends h (by omega) f).panic_mono ?_).mono ?_)
    · intro _ hfail hall hents
      obtain ⟨hslash, hempty⟩ := hall f mem_cons_self
      have := (hfail.resolve_left hslash).resolve_left (fun hne => hne hempty) (by omega)
      omega
    · rintro _ s₁ ⟨hslash, h₁, hfew⟩
      refine ((ih h₁ (by omega)).panic_mono ?_).mono ?_
      · intro _ hfail hall hents
        have hless := hfail (fun g hg => hall g (mem_cons_of_mem _ hg))
          (by rw [length_append, length_singleton]; omega)
        have := hfew (hall f mem_cons_self).2
        omega
      · rintro _ s' ⟨h', hrest, hfew'⟩
        refine ⟨?_, forall_mem_cons.mpr ⟨hslash, hrest⟩, fun hempty => ?_⟩
        · rw [hlen, append_assoc, append_assoc] at h'
          exact h'
        · have h₁ := hfew (hempty f mem_cons_self)
          have h₂ := hfew' fun g hg => hempty g (mem_cons_of_mem _ hg)
          omega

end Run

/-! ## The whole program -/

section Main

/-- The image with the superblock, before the first inode. -/
def blank : Mkfs := { start with
  nsect := FSSIZE, image := update start.image 1 (superSect mkfsSuper) }

theorem zeroLoop_eq (n : ℕ) (hn : n ≤ FSSIZE) :
    zeroLoop n start = .ok ((), { start with nsect := n }) := by
  induction n with
  | zero => rfl
  | succ n ih =>
    have hsec : sector n = n := sector_of_lt (lt_of_lt_of_le hn (by decide))
    rw [zeroLoop, bind_of_ok (ih (by omega))]
    show Except.ok ((), Mkfs.mk (update start.image (sector n) _) (max n (sector n + 1))
      _ _ _) = _
    have himage : update start.image n (.fill BSIZE 0) = start.image :=
      update_eq_self_iff.mpr rfl
    rw [hsec, Nat.max_eq_right (Nat.le_succ n), himage]

theorem main_eq (files : List InputFile) : main files start = (do
    makeRoot
    addFiles files
    fixRoot
    let s ← Prog.get
    balloc s.freeblock : MkfsProg Unit) blank := by
  unfold main
  have hsuper : wsect 1 (superSect mkfsSuper) { start with nsect := FSSIZE } = .ok ((), blank) :=
    wsect_of_lt rfl (by decide) _
  rw [bind_of_ok (zeroLoop_eq FSSIZE le_rfl), bind_of_ok hsuper]

theorem blank_image {b : ℕ} (h : b ≠ 1) : blank.image b = .fill BSIZE 0 := by
  unfold blank
  exact update_of_ne h _ _

theorem blank_fresh : blank.Fresh := by
  have hpos : 1 < nmeta := by decide
  exact ⟨rfl, le_rfl, by decide, fun b hb _ => blank_image (ne_of_gt (lt_of_lt_of_le hpos hb))⟩

theorem blank_free {j : ℕ} (hj : j < SLOTS) :
    slotSuper.dinodeOf blank.marked j = freeInode := by
  have hlt : slotSuper.IBLOCK j < slotSuper.bmapstart := slotSuper.IBLOCK_lt hj
  have hne : slotSuper.IBLOCK j ≠ 1 :=
    ne_of_gt (lt_of_lt_of_le (by decide) (inodestart_le_IBLOCK j))
  have hblock : blank.marked (slotSuper.IBLOCK j) = .fill BSIZE 0 := by
    rw [marked_of_ne (ne_of_lt hlt), blank_image hne]
  unfold Superblock.dinodeOf Dinode.load
  simp only [hblock, Bytes.getLE_fill_zero]
  rfl

theorem blank_part : Partition slotSuper blank.marked :=
  blockOwnership_iff_partition.mp (.of_empty (fun _ hi => by rw [blank_free hi]; rfl)
    fun _ hb => bitOf_marked blank_fresh.le hb)

/-- The first entries of the root directory. -/
def dots : List (List UInt8 × ℕ) := [(dot, ROOTINO), (dotdot, ROOTINO)]

/-- **The root directory is made.** -/
theorem makeRoot_ok : ∃ s, makeRoot blank = .ok ((), s) ∧ Sound s dots []
    ∧ s.freeblock ≤ nmeta + 4 := by
  obtain ⟨s₁, hrun, hc⟩ := ialloc_eq T_DIR blank_fresh (by decide) fun hin => by
    rw [blank_free hin]
    rfl
  rw [show blank.freeinode = ROOTINO from rfl] at hrun hc
  have h₁ : Sound s₁ [] [] := by
    refine ⟨hc.fresh, hc.part blank_part, hc.freeinode, by decide, hc.file,
      fun i _ hi => by simp at hi, fun j hj hfree => ?_, hc.super.trans ?_, fun b hb => ?_⟩
    · have hne : j ≠ ROOTINO := by
        unfold ROOTINO
        simp at hfree
        omega
      rw [(hc.other j hj hne).1]
      exact blank_free hj
    · exact update_self 1 (superSect mkfsSuper) start.image
    · rw [hc.inodeWrites, show blank.inodeWrites = [] from rfl, mem_singleton] at hb
      rw [hb]
      decide
  have hfb : s₁.freeblock = nmeta := hc.freeblock
  have hsize : FSSIZE = 1000 := rfl
  rw [nmeta_eq] at hfb
  obtain ⟨⟨⟩, s₂, hrun₂, h₂, hfew₂⟩ := ((h₁.append_root (dot, ROOTINO)).panic_mono
    (fun _ hfail => absurd (hfail (by decide)) (by omega) : ∀ _, _ → False)).exists_ok
  obtain ⟨⟨⟩, s₃, hrun₃, h₃, hfew₃⟩ := ((h₂.append_root (dotdot, ROOTINO)).panic_mono
    (fun _ hfail => absurd (hfail (by decide)) (by omega) : ∀ _, _ → False)).exists_ok
  refine ⟨s₃, ?_, h₃, by rw [nmeta_eq]; omega⟩
  unfold makeRoot
  rw [bind_of_ok hrun, if_neg (not_not.mpr rfl), bind_of_ok hrun₂]
  exact hrun₃

/-- An inode with its size rounded up, as the last step of `main` does it: a size that
is a multiple of the block size is made larger too. -/
def rounded (d : Dinode) : Dinode :=
  { d with size := UInt32.ofNat ((d.size.toNat / BSIZE + 1) * BSIZE) }

/-- The state after the last steps of `main`: the size of the root directory is rounded,
and the bitmap is written. -/
def finished (s : Mkfs) : Mkfs :=
  { s.put ROOTINO (rounded (slotSuper.dinodeOf s.marked ROOTINO)) with
    image := (s.put ROOTINO (rounded (slotSuper.dinodeOf s.marked ROOTINO))).marked }

theorem finish_eq {s : Mkfs} (h : s.Fresh) : (do
    fixRoot
    let s ← Prog.get
    balloc s.freeblock : MkfsProg Unit) s = .ok ((), s.finished) := by
  have hroot : slotSuper.IBLOCK ROOTINO < slotSuper.bmapstart := by decide
  have hfix : fixRoot s
      = .ok ((), s.put ROOTINO (rounded (slotSuper.dinodeOf s.marked ROOTINO))) := by
    unfold fixRoot
    rw [bind_of_ok (rinode_eq h.nsect hroot)]
    exact winode_eq h.nsect hroot (rounded _)
  have hfresh := h.put hroot (rounded (slotSuper.dinodeOf s.marked ROOTINO))
  rw [bind_of_ok hfix, get_bind]
  unfold balloc
  rw [if_pos (lt_of_le_of_lt hfresh.le (by decide))]
  exact wsect_of_lt hfresh.nsect (by decide) _

/-- The entries of the root directory. -/
def rootEnts (files : List InputFile) : List (List UInt8 × ℕ) :=
  dots ++ (files.map InputFile.name).zipIdx 2

theorem length_rootEnts (files : List InputFile) :
    (rootEnts files).length = files.length + 2 := by
  unfold rootEnts dots
  simp

/-- **The image that `mkfs` leaves**: the files, the root directory, the bitmap. The root
directory has blocks for its entries; its size is rounded up. -/
structure Image (files : List InputFile) (s : Mkfs) : Prop where
  part : Partition slotSuper s.image
  freeblock_le : s.freeblock ≤ FSSIZE
  bitmap : ∀ b < FSSIZE, mkfsSuper.bitOf s.image b = decide (b < s.freeblock)
  freeinode : s.freeinode = files.length + 2
  super : s.image 1 = superSect mkfsSuper
  inodeWrites : ∀ b ∈ s.inodeWrites, mkfsSuper.inodestart ≤ b ∧ b < mkfsSuper.bmapstart
  noSlash : ∀ f ∈ files, slash ∉ f.shortname
  free : ∀ j < SLOTS, j = 0 ∨ files.length + 2 ≤ j → mkfsSuper.dinodeOf s.image j = freeInode
  file : ∀ i f, files[i]? = some f → IsFile s.image (i + 2) T_FILE f.contents
  rootType : (mkfsSuper.dinodeOf s.image ROOTINO).type = T_DIR
  rootLink : (mkfsSuper.dinodeOf s.image ROOTINO).nlink = 1
  rootSize : (mkfsSuper.dinodeOf s.image ROOTINO).size.toNat
    = (16 * (files.length + 2) / BSIZE + 1) * BSIZE
  rootByte : ∀ k < 16 * (files.length + 2), fileByte s.image
    (mkfsSuper.dinodeOf s.image ROOTINO).addrs k = (dirBytes (rootEnts files)).getD k 0
  rootAddr : ∀ bn, blockAddr s.image (mkfsSuper.dinodeOf s.image ROOTINO).addrs bn ≠ 0
    ↔ bn < blocksFor (16 * (files.length + 2))

/-- The last steps keep the files, and the blocks of the root directory. -/
theorem Sound.image {files : List InputFile} {s : Mkfs}
    (h : Sound s (rootEnts files) (files.map InputFile.contents))
    (hslash : ∀ f ∈ files, slash ∉ f.shortname) : Image files s.finished := by
  have hroot : ROOTINO < SLOTS := by decide
  have hblock : slotSuper.IBLOCK ROOTINO < slotSuper.bmapstart := by decide
  have htype : (slotSuper.dinodeOf s.marked ROOTINO).type ≠ 0 := by
    rw [h.root.type]
    decide
  have hinv := held_inv h.part hroot htype
  have hentry := held_itable s ROOTINO
  have href : 0 < ((s.held ROOTINO).itable 0).ref := by
    rw [hentry]
    exact Nat.one_pos
  have hv : ((s.held ROOTINO).itable 0).valid := by rw [hentry]
  have hnum : ((s.held ROOTINO).itable 0).inum = ROOTINO := by rw [hentry]
  have hdin : ((s.held ROOTINO).itable 0).din = slotSuper.dinodeOf s.marked ROOTINO := by
    rw [hentry]
  set d := rounded (slotSuper.dinodeOf s.marked ROOTINO) with hd
  have haddrs : d.addrs = ((s.held ROOTINO).itable 0).din.addrs := by rw [hdin]; rfl
  have hon := OnInode.refl slotSuper 0 (s.held ROOTINO)
  have hst := hon.stored hinv href hv haddrs
  have hdisk : s.finished.image = (((s.held ROOTINO).setDin 0 d).iupdated slotSuper 0).disk := by
    show (s.put ROOTINO d).marked = slotSuper.putDinode s.marked
      (((s.held ROOTINO).setDin 0 d).itable 0).inum (((s.held ROOTINO).setDin 0 d).itable 0).din
    rw [marked_put hblock, setDin_self, hnum]
  have hlen : (files.map InputFile.contents).length = files.length := length_map _
  have hsize : (slotSuper.dinodeOf s.marked ROOTINO).size.toNat = 16 * (files.length + 2) := by
    rw [h.root.size, length_dirBytes, length_rootEnts]
  have hd' : mkfsSuper.dinodeOf s.finished.image ROOTINO = d := by
    have hstored := hst.dinode
    rw [hnum, ← hdisk] at hstored
    exact hstored
  have hother : ∀ j < SLOTS, j ≠ ROOTINO →
      mkfsSuper.dinodeOf s.finished.image j = slotSuper.dinodeOf s.marked j
      ∧ ((slotSuper.dinodeOf s.marked j).type ≠ 0 →
        ∀ c ∈ blocks s.marked (slotSuper.dinodeOf s.marked j).addrs,
          s.finished.image c = s.marked c) := by
    intro j hj hne
    rw [hdisk]
    exact hst.other j hj (by rwa [hnum])
  have hfresh := h.fresh.put hblock d
  refine ⟨?_, hfresh.le, fun b hb => bitOf_marked hfresh.le hb, ?_, ?_, ?_, hslash,
    fun j hj hfree => ?_, fun i f hi => ?_, ?_, ?_, ?_, fun k hk => ?_, fun bn => ?_⟩
  · rw [hdisk]
    exact (hinv.iupdated href hv hon haddrs htype).disk
  · exact h.freeinode.trans (by rw [hlen])
  · show (s.put ROOTINO d).marked 1 = _
    rw [marked_of_ne (by decide), put_super, h.super]
  · exact h.writes_cons hroot rfl
  · rw [(hother j hj (by unfold ROOTINO; omega)).1]
    exact h.free j hj (by omega)
  · have hlt := (List.getElem?_eq_some_iff.mp hi).1
    have hle := h.le
    have hfile := h.file i f.contents (by rw [List.getElem?_map, hi]; rfl)
    obtain ⟨hsame, hblocks⟩ := hother (i + 2) (by omega) (by unfold ROOTINO; omega)
    exact hfile.congr hsame (hblocks (by rw [hfile.type]; decide))
  · rw [hd']
    exact h.root.type
  · rw [hd']
    exact h.root.nlink
  · have hle := h.le
    rw [hd', hd]
    unfold rounded
    rw [hsize, UInt32.toNat_ofNat']
    refine Nat.mod_eq_of_lt ?_
    unfold SLOTS BSIZE at *
    omega
  · rw [hd', hdisk, hst.byte]
    unfold Fs.byteOf
    rw [hdin]
    exact h.root.byte (by rw [length_dirBytes, length_rootEnts]; exact hk)
  · rw [hd', hdisk, hst.addr, ← hsize]
    unfold Fs.addrOf
    rw [hdin]
    exact h.root.addr bn

/-- **A run of `mkfs`** from the root directory on. -/
theorem main_files : ∃ s, Sound s dots [] ∧ s.freeblock ≤ nmeta + 4
    ∧ ∀ files, main files start = (do
      addFiles files
      fixRoot
      let s ← Prog.get
      balloc s.freeblock : MkfsProg Unit) s := by
  obtain ⟨s, hroot, hsound, hfew⟩ := makeRoot_ok
  refine ⟨s, hsound, hfew, fun files => ?_⟩
  rw [main_eq, bind_of_ok hroot]

/-- **What `mkfs` leaves** if the files get inodes of the superblock. -/
theorem makes_image {files : List InputFile} {s : Mkfs} (h : Makes files s)
    (hle : files.length + 2 ≤ SLOTS) : Image files s := by
  obtain ⟨s₁, hsound, -, hmain⟩ := main_files
  unfold Makes at h
  rw [hmain] at h
  obtain ⟨⟨⟩, s₂, hfiles, h⟩ := bind_ok.mp h
  obtain ⟨hsound₂, hslash, -⟩ := (addFiles_ends files hsound (by simpa using hle)).of_ok hfiles
  rw [finish_eq hsound₂.fresh] at h
  obtain rfl : s₂.finished = s := (Prod.mk.inj (Except.ok.inj h)).2
  exact Sound.image hsound₂ hslash

/-- Empty files are stored one after the other. -/
theorem addFiles_empty {s : Mkfs} (hsound : Sound s dots []) (hfew : s.freeblock ≤ nmeta + 4)
    {files : List InputFile} (hle : files.length + 2 ≤ SLOTS)
    (hempty : ∀ f ∈ files, slash ∉ f.shortname ∧ f.reads = []) :
    ∃ s', addFiles files s = .ok ((), s')
      ∧ Sound s' (rootEnts files) (files.map InputFile.contents)
      ∧ s'.freeblock ≤ nmeta + 4 + 2 * files.length := by
  have hends := addFiles_ends files hsound (by simpa using hle)
  cases hrun : addFiles files s with
  | ok r =>
    obtain ⟨hsound₂, -, hfew₂⟩ := hends.of_ok hrun
    have := hfew₂ fun f hf => (hempty f hf).2
    exact ⟨r.2, rfl, hsound₂, by omega⟩
  | error e =>
    have hfail := hends.of_error hrun hempty (by unfold dots; simp; omega)
    unfold SLOTS at hle
    rw [nmeta_eq] at hfew
    unfold FSSIZE at hfail
    omega

/-- **`mkfs` accepts empty files** whose names have no slash. -/
theorem exists_makes {files : List InputFile} (hle : files.length + 2 ≤ SLOTS)
    (hempty : ∀ f ∈ files, slash ∉ f.shortname ∧ f.reads = []) : ∃ s, Makes files s := by
  obtain ⟨s₁, hsound, hfew, hmain⟩ := main_files
  obtain ⟨s₂, hrun, hsound₂, -⟩ := addFiles_empty hsound hfew hle hempty
  refine ⟨s₂.finished, ?_⟩
  unfold Makes
  rw [hmain, bind_of_ok hrun]
  exact finish_eq hsound₂.fresh

end Main

end Mkfs

end Xv6
