import Xv6.FileContents

/-!
# A file is an array of bytes

`readi` and `writei` of `fs.c` on a file without holes. Per block, with ends that
need not be at the border of one, and with blocks that are allocated on the way,
a write is one splice of the contents, and a read returns a part of them
(`writei_readi_byte_array`). The other files stay as they are, because their
blocks are theirs.

`readi` calls the `bmap` that allocates; on a file without holes it allocates
nothing (`readi_pure`).
-/

open Prog hiding get modify panic result

namespace Xv6

open Pool List UInt32

/-! ## Reading -/

/-- A round of the loop reads something. -/
theorem left_sub_lt {left : ℕ} (off : ℕ) (hleft : left ≠ 0) :
    left - min left (BSIZE - off % BSIZE) < left := by
  have hoff : off % BSIZE < BSIZE := Nat.mod_lt _ (by decide)
  omega

section

variable (sb : Superblock)

/-- The loop of `readi`: `left` bytes from offset `off` on, of which `tot` were
copied before. `dst` says whether the copy of a round succeeds. It returns the
number that `readi` does, and what was copied. -/
def readiLoop (ip : Fin NINODE) (dst : ℕ → List UInt8 → Bool) (left off tot : ℕ)
    (got : List UInt8) : FsProg (ℤ × List UInt8) :=
  if hleft : left = 0 then pure (tot, got)
  else do
    let b ← bmap sb ip (off / BSIZE)
    let data ← bread b
    let m := min left (BSIZE - off % BSIZE)
    let bytes := (range m).map fun i => data.byteAt (off % BSIZE + i)
    if dst tot bytes then
      have : left - m < left := left_sub_lt off hleft
      readiLoop ip dst (left - m) (off + m) (tot + m) (got ++ bytes)
    else pure (-1, got)
termination_by left

/-- Read `n` bytes at offset `off` of an inode. -/
def readi (ip : Fin NINODE) (dst : ℕ → List UInt8 → Bool) (off n : UInt32) :
    FsProg (ℤ × List UInt8) := do
  let e ← getInode ip
  if off > e.din.size ∨ off + n < off then pure (0, [])
  else
    let n := if off + n > e.din.size then e.din.size - off else n
    readiLoop sb ip dst n.toNat off.toNat 0 []

end

/-! ## Files without holes -/

/-- **The file has no holes**: it is not too long, and every block below its end
has an address. -/
structure Dinode.HoleFree (mem : ℕ → Block) (d : Dinode) : Prop where
  size_le : d.size.toNat ≤ MAXFILE * BSIZE
  addr : ∀ bn < blocksFor d.size.toNat, blockAddr mem d.addrs bn ≠ 0

/-- No file of a disk has holes. -/
def HoleFree (sb : Superblock) (disk : Disk) : Prop :=
  ∀ j < sb.ninodes, (sb.dinodeOf disk j).type ≠ 0 → (sb.dinodeOf disk j).HoleFree disk

/-- The contents of a file. -/
def fileContents (mem : ℕ → Block) (d : Dinode) : List UInt8 :=
  (range d.size.toNat).map (fileByte mem d.addrs)

/-- A list with some bytes written over it, from a place on that is not behind
its end. -/
def splice (old : List UInt8) (off : ℕ) (bytes : List UInt8) : List UInt8 :=
  old.take off ++ bytes ++ old.drop (off + bytes.length)

section Read

variable {sb : Superblock} {fs : Fs} {ip : Fin NINODE}

theorem lt_blocksFor {k x : ℕ} : k / BSIZE < blocksFor x ↔ k / BSIZE * BSIZE < x := by
  unfold blocksFor
  rw [Nat.lt_iff_add_one_le, Nat.le_div_iff_mul_le (by decide), Nat.succ_mul]
  unfold BSIZE
  omega

theorem Dinode.HoleFree.addr_of_lt {mem : ℕ → Block} {d : Dinode} (h : d.HoleFree mem) {k : ℕ}
    (hk : k < d.size.toNat) : blockAddr mem d.addrs (k / BSIZE) ≠ 0 :=
  h.addr _ (lt_blocksFor.mpr (lt_of_le_of_lt (Nat.div_mul_le_self _ _) hk))

/-- **`bmap` finds a block that is there**, and changes nothing. -/
theorem bmap_of_addr {bn : ℕ} (h : fs.addrOf ip bn ≠ 0) :
    bmap sb ip bn fs = .ok ((fs.addrOf ip bn).toNat, fs) := by
  have hslot : ∀ {k}, (fs.itable ip).din.addrs k ≠ 0 →
      slotBlock sb ip k fs = .ok (((fs.itable ip).din.addrs k).toNat, fs) := by
    intro k hk
    unfold slotBlock
    rw [getInode_bind, if_neg hk]
    rfl
  have hlt := lt_of_blockAddr_ne h
  unfold bmap
  by_cases hdirect : bn < NDIRECT
  · have haddr : fs.addrOf ip bn = _ := blockAddr_direct hdirect
    rw [haddr] at h ⊢
    rw [dif_pos hdirect]
    exact hslot h
  · have hle : NDIRECT ≤ bn := Nat.le_of_not_lt hdirect
    have hlast : (fs.itable ip).din.addrs (Fin.last NDIRECT) ≠ 0 :=
      fun hnone => h (blockAddr_no_indirect hle hnone)
    have haddr : fs.addrOf ip bn = _ := blockAddr_indirect hle hlt hlast
    rw [haddr] at h ⊢
    rw [dif_neg hdirect, if_pos (by unfold MAXFILE at hlt; omega), bind_of_ok (hslot hlast),
      bread_bind, if_neg h]
    rfl

theorem map_byteOf {off m : ℕ} (hfit : off % BSIZE + m ≤ BSIZE)
    (hne : fs.addrOf ip (off / BSIZE) ≠ 0) :
    (range m).map (fun i =>
        (fs.disk (fs.addrOf ip (off / BSIZE)).toNat).byteAt (off % BSIZE + i))
      = (range m).map fun i => fs.byteOf ip (off + i) := by
  refine map_congr_left fun i hi => ?_
  rw [mem_range] at hi
  have hblock : (off + i) / BSIZE = off / BSIZE :=
    div_eq_of_round hfit (by omega) (by omega)
  have hmod : (off + i) % BSIZE = off % BSIZE + i := by
    unfold BSIZE at *
    omega
  rw [Fs.byteOf_eq, hblock, if_neg hne, hmod]

variable (sb) in
/-- **The loop of `readi`** over blocks that are there changes nothing, and
copies the bytes of the file. -/
theorem readiLoop_pure (dst : ℕ → List UInt8 → Bool) (left off tot : ℕ) (got : List UInt8)
    (h : ∀ k, off ≤ k → k < off + left → fs.addrOf ip (k / BSIZE) ≠ 0) :
    ∃ r, readiLoop sb ip dst left off tot got fs = .ok (r, fs)
      ∧ ((∀ t bytes, dst t bytes = true) →
        r = (((tot + left : ℕ) : ℤ),
          got ++ (range left).map fun i => fs.byteOf ip (off + i))) := by
  induction left using Nat.strong_induction_on generalizing off tot got with
  | _ left ih =>
    rw [readiLoop]
    split <;> rename_i hleft
    · subst hleft
      exact ⟨_, rfl, fun _ => by simp⟩
    · have hmod := Nat.mod_lt off (show 0 < BSIZE by decide)
      have hne := h off le_rfl (by omega)
      rw [bind_of_ok (bmap_of_addr hne), bread_bind]
      set m := min left (BSIZE - off % BSIZE) with hm
      have hbytes := map_byteOf (m := m) (by omega) hne
      show ∃ r, (if dst tot ((range m).map _) = true then
        readiLoop sb ip dst (left - m) (off + m) (tot + m) (got ++ (range m).map _)
        else pure (-1, got)) fs = .ok (r, fs) ∧ _
      rw [hbytes]
      split
      · obtain ⟨r, hr, hall⟩ := ih (left - m) (by omega) (off + m) (tot + m) _
          fun k h₁ h₂ => h k (by omega) (by omega)
        refine ⟨r, hr, fun hdst => ?_⟩
        rw [hall hdst, append_assoc]
        have hsplit : range left
            = range m ++ (range (left - m)).map (m + ·) := by
          rw [← range_add, Nat.add_sub_cancel' (by omega)]
        have hrest : (range (left - m)).map (fun i => fs.byteOf ip (off + m + i))
            = (range (left - m)).map ((fun i => fs.byteOf ip (off + i)) ∘ (m + ·)) := by
          refine map_congr_left fun i _ => ?_
          show fs.byteOf ip (off + m + i) = fs.byteOf ip (off + (m + i))
          rw [Nat.add_assoc]
        rw [hsplit, map_append, map_map, hrest,
          show tot + m + (left - m) = tot + left by omega]
      · rename_i hfail
        exact ⟨_, rfl, fun hdst => absurd (hdst _ _) hfail⟩

theorem wraps_iff {off n : UInt32} : off + n < off ↔ 2 ^ 32 ≤ off.toNat + n.toNat := by
  have hoff := off.toNat_lt
  have hn := n.toNat_lt
  rw [UInt32.lt_iff_toNat_lt, UInt32.toNat_add]
  omega

/-- A part of the contents of a file. -/
theorem drop_take_contents (mem : ℕ → Block) (d : Dinode) (off n : ℕ) :
    ((fileContents mem d).drop off).take n
      = (range (min n (d.size.toNat - off))).map fun i => fileByte mem d.addrs (off + i) := by
  refine ext_getElem? fun k => ?_
  unfold fileContents
  rw [getElem?_take, getElem?_drop, getElem?_map, getElem?_map]
  by_cases hk : k < min n (d.size.toNat - off)
  · rw [if_pos (by omega), getElem?_range (by omega), getElem?_range hk]
    rfl
  · rw [getElem?_eq_none (l := range (min n (d.size.toNat - off)))
      (by rw [length_range]; omega)]
    split
    · rw [getElem?_eq_none (by rw [length_range]; omega)]
      rfl
    · rfl

variable (sb) in
/-- **`readi` where the blocks are there** changes nothing, and reads the contents of
the file. -/
theorem readi_there (dst : ℕ → List UInt8 → Bool) (off n : UInt32)
    (h : ∀ k, off.toNat ≤ k → k < off.toNat + n.toNat → k < (fs.itable ip).din.size.toNat →
      fs.addrOf ip (k / BSIZE) ≠ 0) :
    ∃ r, readi sb ip dst off n fs = .ok (r, fs)
      ∧ ((∀ t bytes, dst t bytes = true) →
        r.1 = r.2.length ∧ r.2 = if 2 ^ 32 ≤ off.toNat + n.toNat then []
          else ((fileContents fs.disk (fs.itable ip).din).drop off.toNat).take n.toNat) := by
  have hoff := off.toNat_lt
  have hn := n.toNat_lt
  unfold readi
  rw [getInode_bind]
  by_cases hnone : off > (fs.itable ip).din.size ∨ off + n < off
  · rw [if_pos hnone]
    refine ⟨_, rfl, fun _ => ⟨rfl, ?_⟩⟩
    split
    · rfl
    · rename_i hwrap
      have hgt := hnone.resolve_right fun h => hwrap (wraps_iff.mp h)
      rw [gt_iff_lt, lt_iff_toNat_lt] at hgt
      rw [drop_eq_nil_of_le (by simp [fileContents]; omega), take_nil]
  · rw [if_neg hnone]
    obtain ⟨hle, hwrap⟩ := not_or.mp hnone
    rw [wraps_iff] at hwrap
    rw [gt_iff_lt, lt_iff_toNat_lt, not_lt] at hle
    have hsum : (off + n).toNat = off.toNat + n.toNat := by
      rw [UInt32.toNat_add]
      omega
    set n' := if off + n > (fs.itable ip).din.size then (fs.itable ip).din.size - off else n
      with hn'
    have hcount : n'.toNat = min n.toNat ((fs.itable ip).din.size.toNat - off.toNat) := by
      rw [hn']
      split <;> rename_i hgt
      · rw [gt_iff_lt, UInt32.lt_iff_toNat_lt, hsum] at hgt
        rw [UInt32.toNat_sub_of_le _ _ (UInt32.le_iff_toNat_le.mpr hle)]
        omega
      · rw [gt_iff_lt, UInt32.lt_iff_toNat_lt, hsum] at hgt
        omega
    have hthere : ∀ k, off.toNat ≤ k → k < off.toNat + n'.toNat → fs.addrOf ip (k / BSIZE) ≠ 0 :=
      fun k h₁ h₂ => h k h₁ (by omega) (by omega)
    obtain ⟨r, hr, hall⟩ := readiLoop_pure sb dst n'.toNat off.toNat 0 [] hthere
    refine ⟨r, hr, fun hdst => ?_⟩
    rw [hall hdst, if_neg hwrap, drop_take_contents, ← hcount, nil_append]
    exact ⟨by simp, rfl⟩

variable (sb) in
/-- **`readi` on a file without holes** changes nothing, and reads its
contents. -/
theorem readi_pure (h : (fs.itable ip).din.HoleFree fs.disk) (dst : ℕ → List UInt8 → Bool)
    (off n : UInt32) :
    ∃ r, readi sb ip dst off n fs = .ok (r, fs)
      ∧ ((∀ t bytes, dst t bytes = true) →
        r.1 = r.2.length ∧ r.2 = if 2 ^ 32 ≤ off.toNat + n.toNat then []
          else ((fileContents fs.disk (fs.itable ip).din).drop off.toNat).take n.toNat) :=
  readi_there sb dst off n fun _ _ _ hk => h.addr_of_lt hk

variable (sb ip) in
/-- The loop of `readi`, where every copy succeeds, copies everything and returns the number. -/
theorem readiLoop_count (left off tot : ℕ) (got : List UInt8) (hgot : got.length = tot) :
    Ends (readiLoop sb ip (fun _ _ => true) left off tot got) fs (fun _ => True) fun r _ =>
      r.1 = r.2.length ∧ r.2.length = tot + left := by
  induction left using Nat.strong_induction_on generalizing off tot got fs with
  | _ left ih =>
    rw [readiLoop]
    split <;> rename_i hleft
    · exact ends_pure ⟨by rw [hgot], by rw [hgot, hleft, Nat.add_zero]⟩
    · have hmod := Nat.mod_lt off (show 0 < BSIZE by decide)
      refine ends_bind ((ends_trivial _ fs).mono fun b fs₁ _ => ?_)
      refine ends_bind (bread_ends ?_)
      refine (ih (left - min left (BSIZE - off % BSIZE)) (by omega) _ _ _ ?_).mono ?_
      · rw [length_append, length_map, length_range, hgot]
      · rintro r - ⟨hr, hlen⟩
        exact ⟨hr, by omega⟩

variable (sb ip) in
/-- **`readi`, where every copy succeeds**, returns the number of bytes that it copied. -/
theorem readi_count (off n : UInt32) :
    Ends (readi sb ip (fun _ _ => true) off n) fs (fun _ => True) fun r _ =>
      r.1 = r.2.length ∧ r.2.length ≤ n.toNat := by
  unfold readi
  refine ends_bind (getInode_ends ?_)
  split
  · exact ends_pure ⟨rfl, Nat.zero_le _⟩
  · rename_i hnone
    obtain ⟨hle, hwrap⟩ := not_or.mp hnone
    rw [wraps_iff] at hwrap
    rw [gt_iff_lt, lt_iff_toNat_lt, not_lt] at hle
    refine (readiLoop_count sb ip _ _ 0 [] rfl).mono ?_
    rintro r - ⟨hr, hlen⟩
    refine ⟨hr, ?_⟩
    rw [hlen, Nat.zero_add]
    split
    · rename_i hgt
      rw [gt_iff_lt, UInt32.lt_iff_toNat_lt, UInt32.toNat_add] at hgt
      rw [UInt32.toNat_sub_of_le _ _ (UInt32.le_iff_toNat_le.mpr hle)]
      omega
    · exact le_rfl

end Read

/-! ## Writing -/

/-- The test of `writei`: the write starts inside the file or at its end, its
end does not wrap, and it is not too far. -/
def Dinode.Fits (d : Dinode) (off n : UInt32) : Prop :=
  off.toNat ≤ d.size.toNat ∧ off.toNat + n.toNat < 2 ^ 32
    ∧ off.toNat + n.toNat ≤ MAXFILE * BSIZE

/-- The inode after a write up to `x`. -/
def Dinode.grown (d : Dinode) (x : ℕ) : Dinode :=
  if d.size.toNat < x then { d with size := ofNat x } else d

theorem maxfile_lt : MAXFILE * BSIZE < 2 ^ 32 := by
  unfold MAXFILE NINDIRECT
  decide

theorem Dinode.grown_addrs (d : Dinode) (x : ℕ) : (d.grown x).addrs = d.addrs := by
  unfold grown
  split <;> rfl

theorem Dinode.grown_type (d : Dinode) (x : ℕ) : (d.grown x).type = d.type := by
  unfold grown
  split <;> rfl

theorem Dinode.grown_nlink (d : Dinode) (x : ℕ) : (d.grown x).nlink = d.nlink := by
  unfold grown
  split <;> rfl

theorem Dinode.grown_size (d : Dinode) {x : ℕ} (hx : x ≤ MAXFILE * BSIZE) :
    (d.grown x).size.toNat = max d.size.toNat x := by
  have hlt := maxfile_lt
  unfold grown
  split
  · show (ofNat x).toNat = _
    rw [toNat_ofNat', Nat.mod_eq_of_lt (by omega)]
    omega
  · omega

section Congr

variable {mem mem' : ℕ → Block} {d : Dinode}

theorem fileByte_congr {addrs : Fin (NDIRECT + 1) → UInt32}
    (h : ∀ c ∈ blocks mem addrs, mem' c = mem c) (k : ℕ) :
    blockAddr mem' addrs (k / BSIZE) = blockAddr mem addrs (k / BSIZE)
    ∧ fileByte mem' addrs k = fileByte mem addrs k := by
  have haddr : ∀ bn, blockAddr mem' addrs bn = blockAddr mem addrs bn :=
    blockAddr_congr fun hlast => h _ (last_mem_blocks _ _ hlast)
  refine ⟨haddr _, ?_⟩
  unfold fileByte
  rw [haddr]
  split
  · rfl
  · rename_i hne
    rw [h _ (Multiset.mem_add.mpr (.inr (mem_fileBlocks_of_blockAddr hne)))]

theorem contents_congr (h : ∀ c ∈ blocks mem d.addrs, mem' c = mem c) :
    fileContents mem' d = fileContents mem d :=
  map_congr_left fun k _ => (fileByte_congr h k).2

theorem Dinode.HoleFree.congr (hfree : d.HoleFree mem)
    (h : ∀ c ∈ blocks mem d.addrs, mem' c = mem c) : d.HoleFree mem' := by
  refine ⟨hfree.size_le, fun bn hbn => ?_⟩
  rw [blockAddr_congr fun hlast => h _ (last_mem_blocks _ _ hlast)]
  exact hfree.addr bn hbn

end Congr

section Write

variable {sb : Superblock} {fs fs₁ : Fs} {ip : Fin NINODE} {src : ℕ → ℕ → CopyIn}
  {off n : UInt32}

theorem writei_of_not_fits (h : ¬ (fs.itable ip).din.Fits off n) :
    writei sb ip src off n fs = .ok (-1, fs) := by
  have hlt := maxfile_lt
  unfold writei
  rw [getInode_bind]
  split
  · rfl
  · rename_i hnot
    obtain ⟨hle, hwrap⟩ := not_or.mp hnot
    rw [wraps_iff] at hwrap
    rw [gt_iff_lt, lt_iff_toNat_lt, not_lt] at hle
    rw [if_pos]
    · rfl
    · rw [UInt32.toNat_add, Nat.mod_eq_of_lt (by omega)]
      by_contra hfar
      exact h ⟨hle, by omega, by omega⟩

/-- A write that fits runs the loop, and sets the size. -/
theorem writei_of_loop (hfit : (fs.itable ip).din.Fits off n) {P : FsPanic → Prop}
    {Q : ℤ → Fs → Prop}
    (h : Ends (writeiLoop sb ip src n.toNat off.toNat 0) fs P fun w fs₁ =>
      Q w.1 ((fs₁.setDin ip ((fs₁.itable ip).din.grown w.2)).iupdated sb ip)) :
    Ends (writei sb ip src off n) fs P Q := by
  obtain ⟨hle, hwrap, hfar⟩ := hfit
  have hsum : (off + n).toNat = off.toNat + n.toNat := by
    rw [UInt32.toNat_add, Nat.mod_eq_of_lt hwrap]
  unfold writei
  refine ends_bind (getInode_ends ?_)
  rw [if_neg, if_neg (by omega)]
  · exact ends_bind (h.mono fun w fs₁ hw =>
      ends_bind (modifyDin_ends (ends_bind (iupdate_ends (ends_pure hw)))))
  · rw [wraps_iff, gt_iff_lt, lt_iff_toNat_lt]
    omega

variable (src) in
/-- **What `writei` does** with a write that fits: the loop, and then the inode
is stored with its new size. -/
theorem writei_of_fits (ho : Owner sb fs ip) (hfit : (fs.itable ip).din.Fits off n)
    {P : FsPanic → Prop}
    (hP : fs.nfree sb < fs.missingOf ip (off.toNat / BSIZE)
      (blocksFor (off.toNat + n.toNat)) → P .ballocOutOfBlocks) :
    Ends (writei sb ip src off n) fs P fun r fs' =>
      ∃ w fs₁, Written sb ip src off.toNat n.toNat 0 fs w fs₁ ∧ r = w.1
        ∧ fs' = (fs₁.setDin ip ((fs₁.itable ip).din.grown w.2)).iupdated sb ip :=
  writei_of_loop hfit ((writeiLoop_written ho (Nat.zero_add _) (fun _ => .inl rfl) hfit.2.2 hP).mono
    fun w fs₁ hw => ⟨w, fs₁, hw, rfl, rfl⟩)

/-- The blocks of an allocated inode are owned by it, and data blocks. -/
theorem Partition.mem_ownedBy {disk : Disk} (h : Partition sb disk) {j c : ℕ}
    (hj : j < sb.ninodes) (htype : (sb.dinodeOf disk j).type ≠ 0)
    (hc : c ∈ blocks disk (sb.dinodeOf disk j).addrs) :
    c ∈ ownedBy sb (sb.pool disk).mem disk j ∧ sb.datastart ≤ c := by
  have hmem : ∀ {c}, c ∈ ownedBy sb (sb.pool disk).mem disk j → sb.datastart ≤ c := fun hc =>
    (Finset.mem_Ico.mp (h.holds.mem (mem_owned.mpr ⟨j, hj, hc⟩))).1
  have hown : ownedBy sb (sb.pool disk).mem disk j
      = blocks (sb.pool disk).mem (sb.dinodeOf disk j).addrs := if_neg htype
  have hblocks : blocks (sb.pool disk).mem (sb.dinodeOf disk j).addrs
      = blocks disk (sb.dinodeOf disk j).addrs := by
    refine blocks_congr fun hlast => pool_mem_of_le (hmem ?_)
    rw [hown]
    exact last_mem_blocks _ _ hlast
  rw [← hblocks, ← hown] at hc
  exact ⟨hc, hmem hc⟩

/-- The blocks of another inode are not touched. -/
theorem FsInv.other_blocks (h : FsInv sb fs) (href : 0 < (fs.itable ip).ref)
    (hv : (fs.itable ip).valid) (hon : OnInode sb ip fs fs₁) {j c : ℕ} (hj : j < sb.ninodes)
    (hne : j ≠ (fs.itable ip).inum) (htype : (sb.dinodeOf fs.disk j).type ≠ 0)
    (hc : c ∈ blocks fs.disk (sb.dinodeOf fs.disk j).addrs) : fs₁.disk c = fs.disk c := by
  obtain ⟨hown, hle⟩ := h.disk.mem_ownedBy hj htype hc
  have hold := h.disk.holds
  rw [owned_eq_add _ (h.table.inum_lt ip href), ← (h.owner href hv).2] at hold
  have hkeep := hon.moves.exchange.keep hold (a := c) (Multiset.mem_of_le
    (Finset.single_le_sum (f := ownedBy sb (sb.pool fs.disk).mem fs.disk) (fun _ _ => zero_le)
      (Finset.mem_erase.mpr ⟨hne, Finset.mem_range.mpr hj⟩)) hown)
  rwa [pool_mem_of_le hle, pool_mem_of_le hle] at hkeep

/-- **The inode of an entry was changed and stored**: what the disk has
afterwards. -/
structure Stored (sb : Superblock) (ip : Fin NINODE) (fs fs₁ : Fs) (d : Dinode) (fs' : Fs) :
    Prop where
  itable : fs'.itable = Function.update fs.itable ip { fs.itable ip with din := d }
  dinode : sb.dinodeOf fs'.disk (fs.itable ip).inum = d
  addr : ∀ bn, blockAddr fs'.disk d.addrs bn = fs₁.addrOf ip bn
  byte : ∀ k, fileByte fs'.disk d.addrs k = fs₁.byteOf ip k
  other : ∀ j < sb.ninodes, j ≠ (fs.itable ip).inum →
    sb.dinodeOf fs'.disk j = sb.dinodeOf fs.disk j
    ∧ ((sb.dinodeOf fs.disk j).type ≠ 0 →
      ∀ c ∈ blocks fs.disk (sb.dinodeOf fs.disk j).addrs, fs'.disk c = fs.disk c)

theorem Stored.entry {d : Dinode} {fs' : Fs} (hst : Stored sb ip fs fs₁ d fs') (jp : Fin NINODE) :
    (fs'.itable jp).inum = (fs.itable jp).inum ∧ (fs'.itable jp).ref = (fs.itable jp).ref
    ∧ (fs'.itable jp).valid = (fs.itable jp).valid := by
  rw [hst.itable]
  by_cases hjp : jp = ip
  · rw [hjp, Function.update_self]
    exact ⟨rfl, rfl, rfl⟩
  · rw [Function.update_of_ne hjp]
    exact ⟨rfl, rfl, rfl⟩

theorem Stored.holeFree {d : Dinode} {fs' : Fs} (hst : Stored sb ip fs fs₁ d fs')
    (hholes : HoleFree sb fs.disk) (hd : d.HoleFree fs'.disk) : HoleFree sb fs'.disk := by
  intro j hj htype
  by_cases hji : j = (fs.itable ip).inum
  · rw [hji, hst.dinode]
    exact hd
  · obtain ⟨hdin, hblocks⟩ := hst.other j hj hji
    rw [hdin] at htype ⊢
    exact (hholes j hj htype).congr (hblocks htype)

/-- `iupdate` stores the inode, and no block of a file. -/
theorem OnInode.stored (h : FsInv sb fs) (href : 0 < (fs.itable ip).ref)
    (hv : (fs.itable ip).valid) (hon : OnInode sb ip fs fs₁) {d : Dinode}
    (haddrs : d.addrs = (fs₁.itable ip).din.addrs) :
    Stored sb ip fs fs₁ d ((fs₁.setDin ip d).iupdated sb ip) := by
  obtain ⟨size, addrs, htable⟩ := hon.itable
  have hlt := h.table.inum_lt ip href
  have hmeta := sb.bmapstart_lt
  have hinum : (fs₁.itable ip).inum = (fs.itable ip).inum := by
    rw [htable, setDin_self]
  have hdisk : ((fs₁.setDin ip d).iupdated sb ip).disk
      = sb.putDinode fs₁.disk (fs.itable ip).inum d := by
    show sb.putDinode fs₁.disk ((fs₁.setDin ip d).itable ip).inum
      ((fs₁.setDin ip d).itable ip).din = _
    rw [setDin_self, hinum]
  have hdata : ∀ c, sb.datastart ≤ c →
      ((fs₁.setDin ip d).iupdated sb ip).disk c = fs₁.disk c := by
    intro c hc
    rw [hdisk, Superblock.putDinode_of_le hlt (by omega)]
  have ho₁ := hon.owner (h.owner href hv).1
  have hown : ∀ c ∈ blocks fs₁.disk (fs₁.itable ip).din.addrs,
      ((fs₁.setDin ip d).iupdated sb ip).disk c = fs₁.disk c := by
    intro c hc
    refine hdata c (Finset.mem_Ico.mp (ho₁.holds.mem (show c ∈ fs₁.blocksOf sb ip from ?_))).1
    unfold Fs.blocksOf blocks
    rw [← ho₁.fileBlocks_disk]
    exact hc
  refine ⟨?_, ?_, fun bn => ?_, fun k => ?_, fun j hj hne => ⟨?_, fun htype c hc => ?_⟩⟩
  · show (fs₁.setDin ip d).itable = _
    unfold Fs.setDin Fs.setInode
    rw [htable]
    unfold Fs.setDin Fs.setInode
    simp only [Function.update_self, Function.update_idem]
  · rw [hdisk, Superblock.dinodeOf_putDinode, if_pos rfl]
  · rw [haddrs]
    exact blockAddr_congr (fun hlast => hown _ (last_mem_blocks _ _ hlast)) bn
  · rw [haddrs]
    exact (fileByte_congr hown k).2
  · rw [hdisk, Superblock.dinodeOf_putDinode, if_neg hne, hon.moves.dinode j hj]
  · rw [hdata c (h.disk.mem_ownedBy hj htype hc).2]
    exact h.other_blocks href hv hon hj hne htype hc

/-- **A write leaves no holes**: it starts inside the file, or at its end. -/
theorem Written.holeFree {off n : ℕ} {w : ℕ × ℕ} (hfree : (fs.itable ip).din.HoleFree fs.disk)
    (hw : Written sb ip src off n 0 fs w fs₁) (hoff : off ≤ (fs.itable ip).din.size.toNat)
    (hmax : off + n ≤ MAXFILE * BSIZE) {mem : ℕ → Block}
    (haddr : ∀ bn, blockAddr mem ((fs₁.itable ip).din.grown w.2).addrs bn = fs₁.addrOf ip bn) :
    ((fs₁.itable ip).din.grown w.2).HoleFree mem := by
  have hle := hw.le
  have hend : w.2 ≤ MAXFILE * BSIZE := by
    rw [hw.count]
    omega
  have hsize : ((fs₁.itable ip).din.grown w.2).size.toNat
      = max (fs.itable ip).din.size.toNat (off + w.1) := by
    rw [Dinode.grown_size _ hend, hw.size, hw.count]
  have hold := hfree.size_le
  refine ⟨by rw [hsize]; omega, fun bn hbn => ?_⟩
  rw [haddr]
  by_cases hin : bn < blocksFor (fs.itable ip).din.size.toNat
  · have hne : fs.addrOf ip bn ≠ 0 := hfree.addr bn hin
    rw [hw.addr bn hne]
    exact hne
  · have hk : bn * BSIZE / BSIZE = bn := Nat.mul_div_cancel _ (by decide)
    rw [← hk, lt_blocksFor, hk] at hbn hin
    rw [hsize] at hbn
    have hmapped := hw.mapped (bn * BSIZE) (by omega) (by omega)
    rwa [hk] at hmapped

/-- A file with blocks up to its end and no others has such blocks after a write at
its end. -/
theorem Written.addr_iff {off n : ℕ} {w : ℕ × ℕ} (hw : Written sb ip src off n 0 fs w fs₁)
    (hall : w.1 = n) (h : ∀ bn, fs.addrOf ip bn ≠ 0 ↔ bn < blocksFor off) (bn : ℕ) :
    fs₁.addrOf ip bn ≠ 0 ↔ bn < blocksFor (off + n) := by
  constructor
  · intro hne
    by_contra hlt
    rw [hw.only bn (Nat.le_of_not_lt hlt), h bn] at hne
    exact hlt (lt_of_lt_of_le hne (Nat.div_le_div_right (by omega)))
  · intro hlt
    by_cases hin : bn < blocksFor off
    · have hne := (h bn).mpr hin
      rw [hw.addr bn hne]
      exact hne
    · have hk : bn * BSIZE / BSIZE = bn := Nat.mul_div_cancel _ (by decide)
      rw [← hk, lt_blocksFor, hk] at hlt hin
      have hmapped := hw.mapped (bn * BSIZE) (by omega) (by omega)
      rwa [hk] at hmapped

theorem getElem?_splice {old bytes : List UInt8} {off : ℕ} (hoff : off ≤ old.length) (k : ℕ) :
    (splice old off bytes)[k]? = if off ≤ k ∧ k < off + bytes.length then bytes[k - off]?
      else old[k]? := by
  unfold splice
  rw [getElem?_append, getElem?_append, length_append, length_take,
    Nat.min_eq_left hoff, getElem?_take, getElem?_drop]
  by_cases hlt : k < off
  · rw [if_pos (by omega), if_pos hlt, if_pos hlt, if_neg (by omega)]
  · by_cases hin : k < off + bytes.length
    · rw [if_pos hin, if_neg hlt, if_pos ⟨by omega, hin⟩]
    · rw [if_neg hin, if_neg (by omega), Nat.add_sub_cancel' (by omega)]

/-- The contents after a write are the contents before with the bytes in their
place. -/
theorem contents_eq_splice {mem mem' : ℕ → Block} {d d' : Dinode} {off n : ℕ}
    {data : ℕ → UInt8} (hoff : off ≤ d.size.toNat)
    (hsize : d'.size.toNat = max d.size.toNat (off + n))
    (hbyte : ∀ k, fileByte mem' d'.addrs k
      = if off ≤ k ∧ k < off + n then data (k - off) else fileByte mem d.addrs k) :
    fileContents mem' d' = splice (fileContents mem d) off ((range n).map data) := by
  refine ext_getElem? fun k => ?_
  rw [getElem?_splice (by simpa [fileContents] using hoff), length_map, length_range]
  unfold fileContents
  rw [getElem?_map, hsize]
  by_cases hin : off ≤ k ∧ k < off + n
  · rw [if_pos hin, getElem?_range (by omega), getElem?_map,
      getElem?_range (by omega)]
    show some _ = some _
    rw [hbyte, if_pos hin]
  · rw [if_neg hin, getElem?_map]
    by_cases hk : k < d.size.toNat
    · rw [getElem?_range (by omega), getElem?_range hk]
      show some _ = some _
      rw [hbyte, if_neg hin]
    · rw [getElem?_eq_none (by rw [length_range]; omega),
        getElem?_eq_none (by rw [length_range]; omega)]
      rfl

/-- **Bytes were written to the file of an entry**, from `off` on: all that a
write does. -/
structure Overwrites (sb : Superblock) (ip : Fin NINODE) (off : ℕ) (bytes : List UInt8)
    (fs fs' : Fs) : Prop where
  inv : FsInv sb fs'
  holeFree : HoleFree sb fs.disk → HoleFree sb fs'.disk
  contents : fileContents fs'.disk (sb.dinodeOf fs'.disk (fs.itable ip).inum)
    = splice (fileContents fs.disk (sb.dinodeOf fs.disk (fs.itable ip).inum)) off bytes
  size : (sb.dinodeOf fs'.disk (fs.itable ip).inum).size.toNat
    = max (sb.dinodeOf fs.disk (fs.itable ip).inum).size.toNat (off + bytes.length)
  itable : fs'.itable = Function.update fs.itable ip
    { fs.itable ip with din := sb.dinodeOf fs'.disk (fs.itable ip).inum }
  other : ∀ j < sb.ninodes, j ≠ (fs.itable ip).inum →
    sb.dinodeOf fs'.disk j = sb.dinodeOf fs.disk j
    ∧ ((sb.dinodeOf fs.disk j).type ≠ 0 →
      fileContents fs'.disk (sb.dinodeOf fs'.disk j)
        = fileContents fs.disk (sb.dinodeOf fs.disk j))

/-- **What the loop wrote from a source that can be read** is in the file once the
inode is stored with its new size. -/
theorem Written.overwrites {off n : ℕ} {data : ℕ → UInt8} {w : ℕ × ℕ} (h : FsInv sb fs)
    (href : 0 < (fs.itable ip).ref) (hv : (fs.itable ip).valid)
    (hoff : off ≤ (fs.itable ip).din.size.toNat) (hmax : off + n ≤ MAXFILE * BSIZE)
    (hw : Written sb ip (readable data) off n 0 fs w fs₁) :
    w.1 = n ∧ Overwrites sb ip off ((range n).map data) fs
      ((fs₁.setDin ip ((fs₁.itable ip).din.grown w.2)).iupdated sb ip) := by
  obtain ⟨hsync, htype⟩ := h.table.synced ip href hv
  have hinside := hw.inside data fun _ _ _ => rfl
  have hst := hw.on.stored h href hv (Dinode.grown_addrs (fs₁.itable ip).din w.2)
  have hend : w.2 = off + n := by rw [hw.count, hinside.1]
  have hsize : ((fs₁.itable ip).din.grown w.2).size.toNat
      = max (fs.itable ip).din.size.toNat (off + n) := by
    rw [Dinode.grown_size _ (hend ▸ hmax), hw.size, hend]
  refine ⟨hinside.1, ?_, fun hholes => ?_, ?_, ?_, ?_, fun j hj hne => ?_⟩
  · exact h.iupdated href hv hw.on (Dinode.grown_addrs _ _)
      (by rw [Dinode.grown_type, hw.on.type_eq]; exact htype)
  · have hfree : (fs.itable ip).din.HoleFree fs.disk := by
      rw [hsync] at htype ⊢
      exact hholes _ (h.table.inum_lt ip href) htype
    exact hst.holeFree hholes (hw.holeFree hfree hoff hmax hst.addr)
  · rw [hst.dinode, ← hsync]
    refine contents_eq_splice hoff hsize fun k => ?_
    rw [hst.byte]
    split
    · rename_i hin
      exact hinside.2 k hin.1 hin.2
    · rw [hw.outside k (by omega), hinside.1, stray_self, length_nil, if_neg (by omega)]
      rfl
  · rw [hst.dinode, ← hsync, length_map, length_range]
    exact hsize
  · rw [hst.dinode]
    exact hst.itable
  · obtain ⟨hdin, hblocks⟩ := hst.other j hj hne
    refine ⟨hdin, fun htype => ?_⟩
    rw [hdin]
    exact contents_congr (hblocks htype)

/-- **A write that fits, from a source that can be read**, writes it all. -/
theorem writei_overwrites (h : FsInv sb fs) (href : 0 < (fs.itable ip).ref)
    (hv : (fs.itable ip).valid) (hfit : (fs.itable ip).din.Fits off n) (data : ℕ → UInt8)
    {P : FsPanic → Prop}
    (hP : fs.nfree sb < fs.missingOf ip (off.toNat / BSIZE)
      (blocksFor (off.toNat + n.toNat)) → P .ballocOutOfBlocks) :
    Ends (writei sb ip (readable data) off n) fs P fun r fs' =>
      r = n.toNat ∧ Overwrites sb ip off.toNat ((range n.toNat).map data) fs fs' := by
  refine (writei_of_fits (readable data) (h.owner href hv).1 hfit hP).mono ?_
  rintro _ _ ⟨w, fs₁, hw, rfl, rfl⟩
  obtain ⟨hn, hover⟩ := hw.overwrites h href hv hfit.1 hfit.2.2
  exact ⟨congrArg Nat.cast hn, hover⟩

end Write

/-! ## A disk with one file -/

/-- An empty file. -/
def emptyFile : Dinode := ⟨2, 0, 0, 1, 0, fun _ => 0⟩

/-- The file system with one file, inode 1, which is empty and locked. -/
def oneFile : Fs :=
  ({ Fs.boot emptyDisk with
    disk := mkfsSuper.putDinode emptyDisk 1 emptyFile, logged := [] } : Fs).setInode 0
    ⟨1, 1, true, emptyFile⟩

theorem oneFile_dinode (j : ℕ) :
    mkfsSuper.dinodeOf oneFile.disk j
      = if j = 1 then emptyFile else mkfsSuper.dinodeOf emptyDisk j :=
  Superblock.dinodeOf_putDinode 1 j emptyFile

theorem oneFile_inv : FsInv mkfsSuper oneFile := by
  have hboot := (FsInv.boot emptyDisk_ownership).allocated (i := 1) (by decide)
    (emptyDisk_dinode (by decide)) (d := emptyFile) rfl []
  refine hboot.setInode (fun _ => by decide) (fun jp _ hjp => absurd hjp (lt_irrefl 0))
    fun _ _ => ⟨?_, by decide⟩
  exact (oneFile_dinode 1).symm

end Xv6
