import Xv6.Dirent
import Xv6.ReadWrite

/-!
# The kernel makes no holes

A file has no holes if every block below its end has an address. `readi` is
called outside of transactions, by `fileread` and by the lookup of names, and
it shares with `writei` the `bmap` that allocates what is missing; so on a file
with a hole a plain read changes the disk, and panics in `log_write`. This
module shows that no operation makes a hole (`files_stay_hole_free`): neither
`writei` – whatever it is asked to write, and wherever the copy of its source
fails – nor the functions that make a file vanish, nor those that write to
directories.

The directory functions of `fs.c` and the part of `sys_unlink` that follows
the lookup of the parent are modelled here on the bytes of the directory.

Two things about the disk are presupposed besides. The blocks of a file are its
own: if they could be blocks of another file, or of the inodes, then a write to
one file could punch a hole in another (`writei_punches_hole`). And the entries
of a directory name inodes of the disk, since `iget` does not check their
numbers.
-/

open Prog hiding get modify panic result

namespace Xv6

open Pool Multiset

/-! ## Directories -/

/-- The type of a directory. -/
def T_DIR : UInt16 := 1

/-- The inode number in a directory entry, read as two bytes. -/
def entryInum (de : List UInt8) : ℕ := (de.getD 0 0).toNat + 256 * (de.getD 1 0).toNat

/-- The bytes of a directory entry. -/
def entryBytes (name : List UInt8) (inum : ℕ) : List UInt8 :=
  [UInt8.ofNat inum, UInt8.ofNat (inum / 256)] ++ strncpy name DIRSIZ

section

variable (sb : Superblock)

/-- Read one entry of a directory to kernel memory. -/
def readEntry (e : FsPanic) (dp : Fin NINODE) (off : ℕ) : FsProg (List UInt8) := do
  let r ← readi sb dp (fun _ _ => true) (UInt32.ofNat off) (UInt32.ofNat DIRENTSIZE)
  if r.1 ≠ DIRENTSIZE then Prog.panic e else pure r.2

/-- Write one entry of a directory from kernel memory. -/
def writeEntry (e : FsPanic) (dp : Fin NINODE) (off : ℕ) (de : List UInt8) : FsProg Unit := do
  let r ← writei sb dp (readable fun i => de.getD i 0) (UInt32.ofNat off) (UInt32.ofNat DIRENTSIZE)
  if r ≠ DIRENTSIZE then Prog.panic e else pure ()

/-- The loop of `dirlookup`, with `n` rounds at most. -/
def dirlookupLoop (dp : Fin NINODE) (name : List UInt8) :
    ℕ → ℕ → FsProg (Option (Fin NINODE × ℕ))
  | 0, _ => pure none
  | n + 1, off => do
    let e ← getInode dp
    if off < e.din.size.toNat then do
      let de ← readEntry sb .dirlookupRead dp off
      if entryInum de ≠ 0 ∧ namecmp name (de.drop 2) = 0 then do
        let ip ← iget (entryInum de)
        pure (some (ip, off))
      else dirlookupLoop dp name n (off + DIRENTSIZE)
    else pure none

/-- The rounds of a loop over the entries of a directory. -/
def entryRounds (d : Dinode) : ℕ := d.size.toNat / DIRENTSIZE + 1

/-- Look for an entry of a directory: the inode it names, and its offset. -/
def dirlookup (dp : Fin NINODE) (name : List UInt8) : FsProg (Option (Fin NINODE × ℕ)) := do
  let e ← getInode dp
  if e.din.type ≠ T_DIR then Prog.panic .dirlookupNotDir
  else dirlookupLoop sb dp name (entryRounds e.din) 0

/-- The loop of `dirlink`: the offset of an empty entry, or the end. -/
def dirlinkLoop (dp : Fin NINODE) : ℕ → ℕ → FsProg ℕ
  | 0, off => pure off
  | n + 1, off => do
    let e ← getInode dp
    if off < e.din.size.toNat then do
      let de ← readEntry sb .dirlinkRead dp off
      if entryInum de = 0 then pure off else dirlinkLoop dp n (off + DIRENTSIZE)
    else pure off

/-- Write a new entry to a directory. -/
def dirlink (dp : Fin NINODE) (name : List UInt8) (inum : ℕ) : FsProg ℤ := do
  match ← dirlookup sb dp name with
  | some (ip, _) => do
    iput sb ip
    pure (-1)
  | none => do
    let e ← getInode dp
    let off ← dirlinkLoop sb dp (entryRounds e.din) 0
    writeEntry sb .dirlink dp off (entryBytes name inum)
    pure 0

/-- The loop of `isdirempty`. -/
def isdiremptyLoop (dp : Fin NINODE) : ℕ → ℕ → FsProg Bool
  | 0, _ => pure true
  | n + 1, off => do
    let e ← getInode dp
    if off < e.din.size.toNat then do
      let de ← readEntry sb .isdiremptyReadi dp off
      if entryInum de ≠ 0 then pure false else isdiremptyLoop dp n (off + DIRENTSIZE)
    else pure true

/-- Is the directory empty except for its first two entries? -/
def isdirempty (dp : Fin NINODE) : FsProg Bool := do
  let e ← getInode dp
  isdiremptyLoop sb dp (entryRounds e.din) (2 * DIRENTSIZE)

/-- One link less. -/
def dropLink (ip : Fin NINODE) : FsProg Unit := do
  modifyDin ip fun d => { d with nlink := d.nlink - 1 }
  iupdate sb ip

/-- The test of `sys_unlink` before it removes a name: a directory is empty. -/
def removable (ip : Fin NINODE) (type : UInt16) : FsProg Bool :=
  if type = T_DIR then isdirempty sb ip else pure true

/-- The parent loses the link that a directory has to it. -/
def dropParentLink (dp : Fin NINODE) (type : UInt16) : FsProg Unit :=
  if type = T_DIR then dropLink sb dp else pure ()

/-- `sys_unlink` from the inode on that was found: its entry is at `off`. -/
def unlinkEntry (dp ip : Fin NINODE) (off : ℕ) : FsProg ℤ := do
  ilock sb ip
  let e ← getInode ip
  if e.din.nlink.toInt16 < 1 then Prog.panic .unlinkNlink
  else do
    let empty ← removable sb ip e.din.type
    if ¬ empty then do
      iput sb ip
      iput sb dp
      pure (-1)
    else do
      writeEntry sb .unlinkWritei dp off (List.replicate DIRENTSIZE 0)
      dropParentLink sb dp e.din.type
      iput sb dp
      dropLink sb ip
      iput sb ip
      pure 0

/-- `sys_unlink` from the parent directory on, to which it has a reference. -/
def unlink (dp : Fin NINODE) (name : List UInt8) : FsProg ℤ := do
  ilock sb dp
  if namecmp name dot = 0 ∨ namecmp name dotdot = 0 then do
    iput sb dp
    pure (-1)
  else do
    match ← dirlookup sb dp name with
    | none => do
      iput sb dp
      pure (-1)
    | some (ip, off) => unlinkEntry sb dp ip off

end

/-! ## Reading a directory -/

/-- Every panic but those of `bfree` and of `bmap`. -/
def Tame (e : FsPanic) : Prop := NotDoubleFree e ∧ e ≠ .bmapOutOfRange

/-- The bytes of the `k`-th entry of a directory with the contents `c`. -/
def entryAt (c : List UInt8) (k : ℕ) : List UInt8 := (c.drop (k * DIRENTSIZE)).take DIRENTSIZE

/-- The `k`-th entry of a directory with the contents `c`. -/
def direntAt (c : List UInt8) (k : ℕ) : Dirent :=
  ⟨entryInum (entryAt c k), (entryAt c k).drop 2⟩

/-- The entries of a directory. -/
def dirents (c : List UInt8) : List Dirent :=
  (List.range (c.length / DIRENTSIZE)).map (direntAt c)

/-- The used entries of a directory with the contents `c` name inodes of the
disk. -/
def NamesInodes (sb : Superblock) (c : List UInt8) : Prop :=
  ∀ e ∈ dirents c, e.inum ≠ 0 → e.inum < sb.ninodes
  deriving Decidable

section Lookup

variable {sb : Superblock} {fs fs' : Fs} {dp : Fin NINODE} {c : List UInt8}

theorem size_of_contents (hc : fileContents fs.disk (fs.itable dp).din = c) :
    (fs.itable dp).din.size.toNat = c.length := by
  rw [← hc]
  simp [fileContents]

variable (sb) in
/-- **Reading an entry changes nothing.** It fails on one that the end of the directory
cuts off. -/
theorem readEntry_eq (hc : fileContents fs.disk (fs.itable dp).din = c) (e : FsPanic) {k : ℕ}
    (hoff : k * DIRENTSIZE < c.length) (haddr : fs.addrOf dp (k * DIRENTSIZE / BSIZE) ≠ 0) :
    readEntry sb e dp (k * DIRENTSIZE) fs
      = if (k + 1) * DIRENTSIZE ≤ c.length then .ok (entryAt c k, fs) else .error e := by
  have hlt := (fs.itable dp).din.size.toNat_lt
  rw [size_of_contents hc] at hlt
  have htoNat : (UInt32.ofNat (k * DIRENTSIZE)).toNat = k * DIRENTSIZE := by
    rw [UInt32.toNat_ofNat', Nat.mod_eq_of_lt (by omega)]
  have hcount : (UInt32.ofNat DIRENTSIZE).toNat = DIRENTSIZE := rfl
  have hthere : ∀ i, (UInt32.ofNat (k * DIRENTSIZE)).toNat ≤ i →
      i < (UInt32.ofNat (k * DIRENTSIZE)).toNat + (UInt32.ofNat DIRENTSIZE).toNat →
      i < (fs.itable dp).din.size.toNat → fs.addrOf dp (i / BSIZE) ≠ 0 := by
    intro i h₁ h₂ _
    rw [htoNat] at h₁ h₂
    rw [hcount] at h₂
    unfold DIRENTSIZE at *
    rwa [show i / BSIZE = k * 16 / BSIZE by unfold BSIZE; omega]
  obtain ⟨r, hr, hall⟩ := readi_there sb (fun _ _ => true) _ _ hthere
  obtain ⟨hlen, hbytes⟩ := hall fun _ _ => rfl
  rw [htoNat, hcount, hc] at hbytes
  unfold readEntry
  rw [bind_of_ok hr, hlen]
  unfold DIRENTSIZE at *
  by_cases hfit : (k + 1) * 16 ≤ c.length
  · have hentry : r.2 = entryAt c k := by
      rw [hbytes, if_neg (by omega)]
      rfl
    rw [if_pos hfit, if_neg, hentry]
    · rfl
    · rw [hentry, entryAt, List.length_take, List.length_drop]
      unfold DIRENTSIZE
      omega
  · rw [if_neg hfit, if_pos]
    · rfl
    · rw [hbytes]
      split
      · decide
      · rw [List.length_take, List.length_drop]
        omega

section Scan

variable (sb) {α : Type} (loop : ℕ → ℕ → FsProg α) {e : FsPanic} {p : Dirent → Prop}
  [DecidablePred p] {hit : List UInt8 → ℕ → FsProg α} {miss : ℕ → FsProg α}
  (hc : fileContents fs.disk (fs.itable dp).din = c) (hzero : ∀ off, loop 0 off = miss off)
  (hloop : ∀ n off, loop (n + 1) off = (do
    let ino ← getInode dp
    if off < ino.din.size.toNat then do
      let de ← readEntry sb e dp off
      if p ⟨entryInum de, de.drop 2⟩ then hit de off else loop n (off + DIRENTSIZE)
    else miss off))

include hc hzero hloop

/-- **A loop over the entries of a directory** stops at the first entry that it looks for,
at the end, or with a panic at an entry that is cut off. The blocks up to there have to exist. -/
theorem scan_entries (n k : ℕ) (hn : c.length / DIRENTSIZE < k + n)
    (hthere : ∀ j, k ≤ j → j * DIRENTSIZE < c.length →
      (∀ i, k ≤ i → i < j → ¬ p (direntAt c i)) → fs.addrOf dp (j * DIRENTSIZE / BSIZE) ≠ 0) :
    ∃ j, k ≤ j ∧ (∀ i, k ≤ i → i < j → (i + 1) * DIRENTSIZE ≤ c.length ∧ ¬ p (direntAt c i))
      ∧ ((j + 1) * DIRENTSIZE ≤ c.length ∧ p (direntAt c j)
          ∧ loop n (k * DIRENTSIZE) fs = hit (entryAt c j) (j * DIRENTSIZE) fs
        ∨ c.length ≤ j * DIRENTSIZE ∧ loop n (k * DIRENTSIZE) fs = miss (j * DIRENTSIZE) fs
        ∨ (j * DIRENTSIZE < c.length ∧ c.length < (j + 1) * DIRENTSIZE)
          ∧ loop n (k * DIRENTSIZE) fs = .error e) := by
  have hstop : ∀ i, k ≤ i → i < k →
      (i + 1) * DIRENTSIZE ≤ c.length ∧ ¬ p (direntAt c i) := fun i h₁ h₂ => absurd h₁ (by omega)
  induction n generalizing k with
  | zero =>
    refine ⟨k, le_rfl, hstop, .inr (.inl ⟨?_, by rw [hzero]⟩)⟩
    unfold DIRENTSIZE at *
    omega
  | succ n ih =>
    rw [hloop, getInode_bind, size_of_contents hc]
    split
    · rename_i hoff
      have hread := readEntry_eq sb hc e hoff
        (hthere k le_rfl hoff fun i h₁ h₂ => absurd h₁ (by omega))
      split at hread
      · rename_i hfit
        rw [bind_of_ok hread]
        split
        · rename_i hp
          exact ⟨k, le_rfl, hstop, .inl ⟨hfit, hp, rfl⟩⟩
        · rename_i hp
          have hfrom : ∀ {q : ℕ → Prop}, q k → (∀ i, k + 1 ≤ i → q i) → ∀ i, k ≤ i → q i := by
            intro q hk hq i hi
            obtain rfl | hi := Nat.eq_or_lt_of_le hi
            · exact hk
            · exact hq i hi
          obtain ⟨j, hj, hno, hend⟩ := ih (k + 1) (by omega)
            (fun j hj hlt hno => hthere j (by omega) hlt (hfrom (fun _ => hp) hno))
            fun i h₁ h₂ => absurd h₁ (by omega)
          rw [Nat.succ_mul k] at hend
          exact ⟨j, by omega, hfrom (fun _ => ⟨hfit, hp⟩) hno, hend⟩
      · rename_i hcut
        exact ⟨k, le_rfl, hstop, .inr (.inr ⟨⟨hoff, by omega⟩, bind_of_error hread⟩)⟩
    · rename_i hoff
      exact ⟨k, le_rfl, hstop, .inr (.inl ⟨by omega, rfl⟩)⟩

/-- A loop over all entries of a directory finds the first one. -/
theorem scan_first (hthere : ∀ j, j * DIRENTSIZE < c.length → (∀ i < j, ¬ p (direntAt c i)) →
      fs.addrOf dp (j * DIRENTSIZE / BSIZE) ≠ 0) :
    loop (entryRounds (fs.itable dp).din) 0 fs = ((dirents c).findIdx? fun d => p d).elim
      (miss c.length) (fun j => hit (entryAt c j) (j * DIRENTSIZE)) fs
    ∨ ¬ DIRENTSIZE ∣ c.length ∧ loop (entryRounds (fs.itable dp).din) 0 fs = .error e := by
  obtain ⟨j, -, hno, hend⟩ := scan_entries sb loop hc hzero hloop (entryRounds (fs.itable dp).din) 0
    (by rw [entryRounds, size_of_contents hc]; omega)
    fun j _ hlt hno => hthere j hlt fun i hi => hno i (Nat.zero_le i) hi
  rw [Nat.zero_mul] at hend
  unfold DIRENTSIZE at *
  obtain ⟨hfit, hyes, hend⟩ | ⟨hle, hend⟩ | ⟨hlt, hend⟩ := hend
  · have hfind : ((dirents c).findIdx? fun d => p d) = some j := by
      rw [List.findIdx?_eq_some_iff_getElem]
      refine ⟨?_, by simpa [dirents] using hyes, fun i hi => ?_⟩
      · simp only [dirents, List.length_map, List.length_range]
        unfold DIRENTSIZE
        omega
      · simpa [dirents] using (hno i (Nat.zero_le i) hi).2
    rw [hfind]
    exact .inl hend
  · have hlen : c.length = j * 16 := by
      cases j with
      | zero => omega
      | succ j => exact le_antisymm hle (hno j (Nat.zero_le j) (Nat.lt_succ_self j)).1
    have hfind : ((dirents c).findIdx? fun d => p d) = none := by
      rw [List.findIdx?_eq_none_iff]
      simp only [dirents, List.mem_map, List.mem_range]
      rintro _ ⟨i, hi, rfl⟩
      refine decide_eq_false (hno i (Nat.zero_le i) ?_).2
      unfold DIRENTSIZE at hi
      omega
    rw [hfind, hlen]
    exact .inl hend
  · exact .inr ⟨by omega, hend⟩

end Scan

variable (sb) in
/-- **`dirlookup` takes the first entry with the name**, if the blocks up to it exist. -/
theorem dirlookup_eq (hc : fileContents fs.disk (fs.itable dp).din = c) (name : List UInt8)
    (hdir : (fs.itable dp).din.type = T_DIR)
    (hthere : ∀ j, j * DIRENTSIZE < c.length → (∀ i < j, ¬ (direntAt c i).Matches name) →
      fs.addrOf dp (j * DIRENTSIZE / BSIZE) ≠ 0) :
    dirlookup sb dp name fs = (findName (dirents c) name).elim (pure none) (fun k => do
      let ip ← iget (direntAt c k).inum
      pure (some (ip, k * DIRENTSIZE)) : ℕ → FsProg (Option (Fin NINODE × ℕ))) fs
    ∨ ¬ DIRENTSIZE ∣ c.length ∧ dirlookup sb dp name fs = .error .dirlookupRead := by
  unfold dirlookup
  rw [getInode_bind, if_neg (not_not.mpr hdir)]
  exact scan_first sb (dirlookupLoop sb dp name) hc (fun _ => rfl) (fun _ _ => rfl) hthere

variable (sb) in
/-- **The loop of `dirlink` finds the first free place.** -/
theorem dirlinkLoop_eq (hc : fileContents fs.disk (fs.itable dp).din = c)
    (h : (fs.itable dp).din.HoleFree fs.disk) :
    dirlinkLoop sb dp (entryRounds (fs.itable dp).din) 0 fs
      = .ok (((dirents c).findIdx? fun d => d.inum = 0).elim c.length (· * DIRENTSIZE), fs)
    ∨ ¬ DIRENTSIZE ∣ c.length
      ∧ dirlinkLoop sb dp (entryRounds (fs.itable dp).din) 0 fs = .error .dirlinkRead := by
  obtain hend | hend := scan_first sb (dirlinkLoop sb dp) (p := fun d => d.inum = 0) hc
    (fun _ => rfl) (fun _ _ => rfl) fun j hlt _ => h.addr_of_lt (by rwa [size_of_contents hc])
  · refine .inl (hend.trans ?_)
    cases (dirents c).findIdx? fun d => d.inum = 0 <;> rfl
  · exact .inr hend

/-- `isdirempty` changes nothing. -/
theorem isdirempty_ends (h : (fs.itable dp).din.HoleFree fs.disk) :
    Ends (isdirempty sb dp) fs Tame fun _ fs' => fs' = fs := by
  obtain ⟨j, -, -, hend⟩ := scan_entries sb (isdiremptyLoop sb dp) (p := fun d => d.inum ≠ 0)
    (c := fileContents fs.disk (fs.itable dp).din) rfl (fun _ => rfl) (fun _ _ => rfl)
    (entryRounds (fs.itable dp).din) 2 (by rw [entryRounds, size_of_contents rfl]; omega)
    fun j _ hlt _ => h.addr_of_lt (by rwa [size_of_contents rfl])
  unfold isdirempty
  refine ends_bind (getInode_ends ?_)
  unfold Ends
  obtain ⟨-, -, hend⟩ | ⟨-, hend⟩ | ⟨-, hend⟩ := hend
  · rw [hend]
    rfl
  · rw [hend]
    rfl
  · rw [hend]
    simp [Tame, NotDoubleFree]

/-- What a lookup ends with: nothing happened, or there is one more reference to the inode
of an entry with the name. -/
def Found (dp : Fin NINODE) (name : List UInt8) (fs : Fs) :
    Option (Fin NINODE × ℕ) → Fs → Prop
  | none, fs' => fs' = fs
  | some (ip, _), fs' => ∃ e ∈ dirents (fileContents fs.disk (fs.itable dp).din),
    e.Matches name ∧ Taken e.inum fs ip fs'

variable (sb) in
/-- **`dirlookup` changes nothing but the reference it takes.** -/
theorem dirlookup_ends (h : (fs.itable dp).din.HoleFree fs.disk) (name : List UInt8) :
    Ends (dirlookup sb dp name) fs Tame (Found dp name fs) := by
  by_cases hdir : (fs.itable dp).din.type = T_DIR
  · unfold Ends
    obtain heq | ⟨-, heq⟩ := dirlookup_eq sb rfl name hdir fun j hlt _ =>
      h.addr_of_lt (by rwa [size_of_contents rfl])
    · rw [heq]
      cases hk : findName (dirents (fileContents fs.disk (fs.itable dp).din)) name with
      | none => exact rfl
      | some k =>
        rw [findName, List.findIdx?_eq_some_iff_getElem] at hk
        obtain ⟨hlt, hyes, -⟩ := hk
        refine ends_bind (((iget_taken _ fs).panic_mono ?_).mono fun ip fs' ht => ?_)
        · rintro _ ⟨rfl, -⟩
          simp [Tame, NotDoubleFree]
        · refine ⟨_, List.getElem_mem hlt, by simpa using hyes, ?_⟩
          simpa [dirents] using ht
    · rw [heq]
      simp [Tame, NotDoubleFree]
  · unfold dirlookup
    refine ends_bind (getInode_ends ?_)
    rw [if_pos hdir]
    exact ends_panic (by simp [Tame, NotDoubleFree])

end Lookup

/-! ## The operations keep files without holes -/

/-- The file system code between the steps of a system call that has the
references `M`: the blocks and the inode table are in order, no file has
holes, and the references are there. -/
structure Sound (sb : Superblock) (M : Multiset (Fin NINODE)) (fs : Fs) : Prop where
  inv : FsInv sb fs
  holes : HoleFree sb fs.disk
  refs : ∀ ip, M.count ip ≤ (fs.itable ip).ref

/-- A step of a system call: it ends in order, and the inodes it has a reference
to are still read from disk if they were. -/
structure Keeps (sb : Superblock) (M : Multiset (Fin NINODE)) (fs fs' : Fs) : Prop where
  sound : Sound sb M fs'
  valid : ∀ ip ∈ M, (fs.itable ip).valid = true → (fs'.itable ip).valid = true

section Operations

variable {sb : Superblock} {fs fs' : Fs} {ip dp : Fin NINODE} {M : Multiset (Fin NINODE)}

theorem Sound.ref_pos (h : Sound sb M fs) (hip : ip ∈ M) : 0 < (fs.itable ip).ref :=
  lt_of_lt_of_le (count_pos.mpr hip) (h.refs ip)

theorem Sound.holeFree (h : Sound sb M fs) (hip : ip ∈ M) (hv : (fs.itable ip).valid = true) :
    (fs.itable ip).din.HoleFree fs.disk := by
  obtain ⟨hsync, htype⟩ := h.inv.table.synced ip (h.ref_pos hip) hv
  rw [hsync] at htype ⊢
  exact h.holes _ (h.inv.table.inum_lt ip (h.ref_pos hip)) htype

theorem Keeps.refl (h : Sound sb M fs) : Keeps sb M fs fs := ⟨h, fun _ _ hv => hv⟩

/-- A changed inode stored on disk. -/
theorem Keeps.of_stored (h : Sound sb M fs) {fs₁ : Fs} {d : Dinode} (hinv : FsInv sb fs')
    (hst : Stored sb ip fs fs₁ d fs') (hd : d.HoleFree fs'.disk) : Keeps sb M fs fs' := by
  refine ⟨⟨hinv, hst.holeFree h.holes hd, fun jp => ?_⟩, fun jp _ hv => ?_⟩
  · rw [(hst.entry jp).2.1]
    exact h.refs jp
  · rw [(hst.entry jp).2.2]
    exact hv

/-- **`writei` makes no holes**, and does not ask `bmap` for a block out of
range. -/
theorem writei_keeps (h : Sound sb M fs) (hip : ip ∈ M) (hv : (fs.itable ip).valid = true)
    (src : ℕ → ℕ → CopyIn) (off n : UInt32) :
    Ends (writei sb ip src off n) fs Tame fun _ fs' => Keeps sb M fs fs' := by
  have href := h.ref_pos hip
  by_cases hfit : (fs.itable ip).din.Fits off n
  · refine (writei_of_fits src (h.inv.owner href hv).1 hfit fun _ => ⟨by simp [NotDoubleFree],
      by simp⟩).mono ?_
    rintro _ _ ⟨w, fs₁, hw, -, rfl⟩
    have hst := hw.on.stored h.inv href hv (Dinode.grown_addrs (fs₁.itable ip).din w.2)
    refine .of_stored h (h.inv.iupdated href hv hw.on (Dinode.grown_addrs _ _) ?_) hst
      (hw.holeFree (h.holeFree hip hv) hfit.1 hfit.2.2 hst.addr)
    rw [Dinode.grown_type, hw.on.type_eq]
    exact (h.inv.table.synced ip href hv).2
  · exact ends_of_ok (writei_of_not_fits hfit) (.refl h)

/-- A change of the other fields of an inode, stored. -/
theorem setDin_iupdated_keeps (h : Sound sb M fs) (hip : ip ∈ M)
    (hv : (fs.itable ip).valid = true) {d : Dinode} (haddrs : d.addrs = (fs.itable ip).din.addrs)
    (hsize : d.size = (fs.itable ip).din.size) (htype : d.type ≠ 0) :
    Keeps sb M fs ((fs.setDin ip d).iupdated sb ip) := by
  have href := h.ref_pos hip
  have hst := (OnInode.refl sb ip fs).stored h.inv href hv haddrs
  refine .of_stored h (h.inv.iupdated href hv (.refl _ _ _) haddrs htype) hst ?_
  have hfree := h.holeFree hip hv
  refine ⟨by rw [hsize]; exact hfree.size_le, fun bn hbn => ?_⟩
  rw [hst.addr]
  exact hfree.addr bn (by rwa [hsize] at hbn)

theorem Dinode.HoleFree.of_empty {mem : ℕ → Block} {d : Dinode} (h : d.size = 0) :
    d.HoleFree mem := by
  refine ⟨by rw [h]; exact Nat.zero_le _, fun bn hbn => ?_⟩
  rw [h] at hbn
  exact absurd hbn (Nat.not_lt_zero bn)

/-- `itrunc` leaves an empty file. -/
theorem itrunc_keeps (h : Sound sb M fs) (hip : ip ∈ M) (hv : (fs.itable ip).valid = true)
    {P : FsPanic → Prop} : Ends (itrunc sb ip) fs P fun _ fs' => Keeps sb M fs fs' ∧ ∃ fs₁,
      Stored sb ip fs fs₁ { (fs.itable ip).din with size := 0, addrs := fun _ => 0 } fs' := by
  have href := h.ref_pos hip
  refine (itrunc_spec (h.inv.owner href hv).1).mono ?_
  rintro _ _ ⟨fs₁, hon, hzero, hsize, rfl⟩
  have hinv := h.inv.iupdated href hv hon (d := (fs₁.itable ip).din) rfl
    (hon.type_eq ▸ (h.inv.table.synced ip href hv).2)
  have hst := hon.stored h.inv href hv (d := (fs₁.itable ip).din) rfl
  rw [setDin_din_eq_self] at hinv hst
  refine ⟨.of_stored h hinv hst (.of_empty hsize), fs₁, ?_⟩
  obtain ⟨size, addrs, htable⟩ := hon.itable
  rw [htable, setDin_self] at hzero hsize hst
  subst hzero hsize
  exact hst

/-- The first part of `iput`: only the inode that it frees is affected. -/
theorem iputFree_keeps (h : Sound sb M fs) (hip : ip ∈ M) :
    Ends (iputFree sb ip) fs Tame fun _ fs' => Sound sb M fs'
      ∧ ∀ jp ∈ M, jp ≠ ip ∨ 1 < (fs.itable ip).ref → (fs.itable jp).valid = true →
        (fs'.itable jp).valid = true := by
  unfold iputFree
  refine ends_bind (getInode_ends ?_)
  split
  · rename_i hcond
    refine ends_bind ((itrunc_keeps h hip hcond.2.1).mono ?_)
    rintro _ fs₁ ⟨hkeeps, _, hst₁⟩
    have h₁ := hkeeps.sound
    have href₁ := h₁.ref_pos hip
    have hv₁ := hkeeps.valid ip hip hcond.2.1
    have hst := (OnInode.refl sb ip fs₁).stored h₁.inv href₁ hv₁
      (d := { (fs₁.itable ip).din with type := 0 }) rfl
    have hempty : (fs₁.itable ip).din
        = { (fs.itable ip).din with size := 0, addrs := fun _ => 0 } := by
      rw [hst₁.itable, Function.update_self]
    refine ends_bind (modifyDin_ends (ends_bind (iupdate_ends
      (modifyInode_ends ⟨⟨h₁.inv.freed href₁ hv₁ (by rw [hempty]) rfl, ?_, fun jp => ?_⟩, ?_⟩))))
    · exact hst.holeFree h₁.holes (.of_empty (by rw [hempty]))
    · have hrefs := h₁.refs jp
      rw [← (hst.entry jp).2.1] at hrefs
      by_cases hjp : jp = ip
      · subst hjp
        rw [setInode_self]
        exact hrefs
      · rw [setInode_of_ne hjp]
        exact hrefs
    · intro jp hmem hjp hv
      have hne : jp ≠ ip := hjp.resolve_right (by rw [hcond.1]; exact lt_irrefl 1)
      rw [setInode_of_ne hne, (hst.entry jp).2.2]
      exact hkeeps.valid jp hmem hv
  · exact ends_pure ⟨h, fun _ _ _ hv => hv⟩

/-- **`iput` drops one reference.** -/
theorem iput_keeps (h : Sound sb (ip ::ₘ M) fs) :
    Ends (iput sb ip) fs Tame fun _ fs' => Keeps sb M fs fs' := by
  have hself := mem_cons_self ip M
  unfold iput
  refine ends_bind ((iputFree_keeps h hself).mono ?_)
  rintro _ fs₁ ⟨h₁, hvalid⟩
  have href₁ := h₁.ref_pos hself
  have hrefs := h₁.refs
  refine modifyInode_ends ⟨⟨?_, h₁.holes, fun jp => ?_⟩, fun jp hjp hv => ?_⟩
  · exact h₁.inv.setInode (fun _ => h₁.inv.table.inum_lt ip href₁) (h₁.inv.table.others href₁)
      fun _ hv => h₁.inv.table.synced ip href₁ hv
  · have hcount := hrefs jp
    by_cases hji : jp = ip
    · subst hji
      rw [count_cons_self] at hcount
      rw [setInode_self]
      show _ ≤ (fs₁.itable jp).ref - 1
      omega
    · rw [count_cons_of_ne hji] at hcount
      rw [setInode_of_ne hji]
      exact hcount
  · have hthere : jp ≠ ip ∨ 1 < (fs.itable ip).ref := by
      by_cases hji : jp = ip
      · subst hji
        have hcount := h.refs jp
        rw [count_cons_self] at hcount
        have hpos := count_pos.mpr hjp
        exact .inr (by omega)
      · exact .inl hji
    have hv₁ := hvalid jp (mem_cons_of_mem hjp) hthere hv
    by_cases hji : jp = ip
    · subst hji
      rw [setInode_self]
      exact hv₁
    · rw [setInode_of_ne hji]
      exact hv₁

theorem ilock_keeps (h : Sound sb M fs) :
    Ends (ilock sb ip) fs Tame fun _ fs' => Keeps sb M fs fs'
      ∧ (fs'.itable ip).valid = true ∧ fs'.disk = fs.disk
      ∧ ∀ jp, (fs'.itable jp).inum = (fs.itable jp).inum := by
  refine ((ilock_spec h.inv).and ilock_frame).mono ?_
  rintro _ fs' ⟨⟨hinv, -, hv⟩, hdisk, hentry⟩
  refine ⟨⟨⟨hinv, hdisk ▸ h.holes, fun jp => ?_⟩, fun jp _ => (hentry jp).2.2⟩, hv, hdisk,
    fun jp => (hentry jp).2.1⟩
  rw [(hentry jp).1]
  exact h.refs jp

theorem Taken.frame {inum : ℕ} (ht : Taken inum fs ip fs') :
    fs'.disk = fs.disk ∧ fs'.logged = fs.logged
    ∧ ∀ jp, (fs'.itable jp).din = (fs.itable jp).din := by
  have hdin : ∀ {e : Inode}, e.din = (fs.itable ip).din → ∀ jp,
      ((fs.setInode ip e).itable jp).din = (fs.itable jp).din := by
    intro e he jp
    by_cases hjp : jp = ip
    · rw [hjp, setInode_self, he]
    · rw [setInode_of_ne hjp]
  cases ht with
  | again => exact ⟨rfl, rfl, hdin rfl⟩
  | anew => exact ⟨rfl, rfl, hdin rfl⟩

/-- A reference taken. -/
theorem Taken.keeps {inum : ℕ} (h : Sound sb M fs) (ht : Taken inum fs ip fs')
    (hinum : inum < sb.ninodes) :
    Sound sb (ip ::ₘ M) fs' ∧ ∀ jp ∈ M, (fs.itable jp).valid = true →
      (fs'.itable jp).valid = true := by
  have hentry : (fs'.itable ip).ref = (fs.itable ip).ref + 1
      ∧ (0 < (fs.itable ip).ref → (fs'.itable ip).valid = (fs.itable ip).valid)
      ∧ ∀ jp, jp ≠ ip → fs'.itable jp = fs.itable jp := by
    cases ht with
    | again => exact ⟨by rw [setInode_self], fun _ => by rw [setInode_self],
        fun _ hjp => setInode_of_ne hjp _⟩
    | anew href => exact ⟨by rw [setInode_self, href], fun h => absurd href h.ne',
        fun _ hjp => setInode_of_ne hjp _⟩
  obtain ⟨href, hvalid, hother⟩ := hentry
  refine ⟨⟨ht.inv h.inv hinum, ht.frame.1 ▸ h.holes, fun jp => ?_⟩, fun jp hjp hv => ?_⟩
  · have hrefs := h.refs jp
    by_cases hji : jp = ip
    · subst hji
      rw [count_cons_self, href]
      omega
    · rw [count_cons_of_ne hji, hother jp hji]
      exact hrefs
  · by_cases hji : jp = ip
    · subst hji
      rw [hvalid (h.ref_pos hjp)]
      exact hv
    · rw [hother jp hji]
      exact hv

/-- A lookup in a directory that names inodes of the disk. -/
theorem Found.keeps {name : List UInt8} {off : ℕ} (h : Sound sb M fs)
    (hnames : NamesInodes sb (fileContents fs.disk (fs.itable dp).din))
    (hres : Found dp name fs (some (ip, off)) fs') :
    Sound sb (ip ::ₘ M) fs' ∧ ∀ jp ∈ M, (fs.itable jp).valid = true →
      (fs'.itable jp).valid = true := by
  obtain ⟨e, he, hyes, ht⟩ := hres
  exact ht.keeps h (hnames e he hyes.1)

theorem writeEntry_keeps (h : Sound sb M fs) (hip : ip ∈ M) (hv : (fs.itable ip).valid = true)
    {e : FsPanic} (he : Tame e) (off : ℕ) (de : List UInt8) :
    Ends (writeEntry sb e ip off de) fs Tame fun _ fs' => Keeps sb M fs fs' := by
  unfold writeEntry
  refine ends_bind ((writei_keeps h hip hv _ _ _).mono fun r fs' hkeeps => ?_)
  split
  · exact ends_panic he
  · exact ends_pure hkeeps

theorem dropLink_keeps (h : Sound sb M fs) (hip : ip ∈ M) (hv : (fs.itable ip).valid = true) :
    Ends (dropLink sb ip) fs Tame fun _ fs' => Keeps sb M fs fs' := by
  refine ends_bind (modifyDin_ends (iupdate_ends (setDin_iupdated_keeps h hip hv rfl rfl ?_)))
  exact (h.inv.table.synced ip (h.ref_pos hip) hv).2

/-- `dirlink` on a locked directory. -/
theorem dirlink_keeps (h : Sound sb M fs) (hdp : dp ∈ M) (hv : (fs.itable dp).valid = true)
    (hnames : NamesInodes sb (fileContents fs.disk (fs.itable dp).din)) (name : List UInt8)
    (inum : ℕ) :
    Ends (dirlink sb dp name inum) fs Tame fun _ fs' => Keeps sb M fs fs' := by
  have hfree := h.holeFree hdp hv
  unfold dirlink
  refine ends_bind ((dirlookup_ends sb hfree name).mono ?_)
  rintro res fs₁ hres
  cases res with
  | none =>
    obtain rfl : fs₁ = fs := hres
    refine ends_bind (getInode_ends (ends_bind ?_))
    obtain hend | ⟨-, hend⟩ := dirlinkLoop_eq sb rfl hfree
    · refine ends_of_ok hend (ends_bind ((writeEntry_keeps h hdp hv ?_ _ _).mono
        fun _ _ hkeeps => ends_pure hkeeps))
      simp [Tame, NotDoubleFree]
    · unfold Ends
      rw [hend]
      simp [Tame, NotDoubleFree]
  | some res =>
    obtain ⟨h₁, hvalid⟩ := Found.keeps h hnames hres
    refine ends_bind ((iput_keeps h₁).mono fun _ fs₂ hkeeps => ends_pure ?_)
    exact ⟨hkeeps.sound, fun jp hjp hv => hkeeps.valid jp hjp (hvalid jp hjp hv)⟩

/-- The end of `sys_unlink` gives both references back. -/
theorem unlinkEntry_keeps (h : Sound sb (ip ::ₘ dp ::ₘ M) fs)
    (hv : (fs.itable dp).valid = true) (off : ℕ) :
    Ends (unlinkEntry sb dp ip off) fs Tame fun _ fs' => Sound sb M fs' := by
  have hip : ip ∈ ip ::ₘ dp ::ₘ M := mem_cons_self _ _
  have hdp : dp ∈ ip ::ₘ dp ::ₘ M := mem_cons_of_mem (mem_cons_self _ _)
  unfold unlinkEntry
  refine ends_bind ((ilock_keeps h).mono ?_)
  rintro _ fs₁ ⟨hkeeps₁, hvip, -⟩
  have h₁ := hkeeps₁.sound
  have hvdp := hkeeps₁.valid dp hdp hv
  refine ends_bind (getInode_ends ?_)
  split
  · exact ends_panic (by simp [Tame, NotDoubleFree])
  · have hempty : Ends (removable sb ip (fs₁.itable ip).din.type) fs₁ Tame fun _ fs' =>
        fs' = fs₁ := by
      unfold removable
      split
      · exact isdirempty_ends (h₁.holeFree hip hvip)
      · exact ends_pure rfl
    refine ends_bind (hempty.mono ?_)
    rintro empty fs' hfs
    rw [hfs]
    split
    · refine ends_bind ((iput_keeps h₁).mono fun _ fs₂ hkeeps₂ => ?_)
      refine ends_bind ((iput_keeps hkeeps₂.sound).mono fun _ fs₃ hkeeps₃ => ?_)
      exact ends_pure hkeeps₃.sound
    · refine ends_bind ((writeEntry_keeps h₁ hdp hvdp (by simp [Tame, NotDoubleFree])
        _ _).mono fun _ fs₂ hkeeps₂ => ?_)
      have hlink : Ends (dropParentLink sb dp (fs₁.itable ip).din.type) fs₂ Tame
          fun _ fs' => Keeps sb (ip ::ₘ dp ::ₘ M) fs₂ fs' := by
        unfold dropParentLink
        split
        · exact dropLink_keeps hkeeps₂.sound hdp (hkeeps₂.valid dp hdp hvdp)
        · exact ends_pure (.refl hkeeps₂.sound)
      refine ends_bind (hlink.mono fun _ fs₃ hkeeps₃ => ?_)
      have h₃ := hkeeps₃.sound
      rw [cons_swap] at h₃
      have hvip₃ := hkeeps₃.valid ip hip (hkeeps₂.valid ip hip hvip)
      refine ends_bind ((iput_keeps h₃).mono fun _ fs₄ hkeeps₄ => ?_)
      have hip₄ : ip ∈ ip ::ₘ M := mem_cons_self _ _
      refine ends_bind ((dropLink_keeps hkeeps₄.sound hip₄
        (hkeeps₄.valid ip hip₄ hvip₃)).mono fun _ fs₅ hkeeps₅ => ?_)
      refine ends_bind ((iput_keeps hkeeps₅.sound).mono fun _ fs₆ hkeeps₆ => ?_)
      exact ends_pure hkeeps₆.sound

/-- **`unlink` makes no holes.** -/
theorem unlink_keeps (h : Sound sb (dp ::ₘ M) fs)
    (hnames : NamesInodes sb
      (fileContents fs.disk (sb.dinodeOf fs.disk (fs.itable dp).inum))) (name : List UInt8) :
    Ends (unlink sb dp name) fs Tame fun _ fs' => Sound sb M fs' := by
  have hdp : dp ∈ dp ::ₘ M := mem_cons_self _ _
  unfold unlink
  refine ends_bind ((ilock_keeps h).mono ?_)
  rintro _ fs₁ ⟨hkeeps₁, hv, hdisk, hinum⟩
  have h₁ := hkeeps₁.sound
  split
  · exact ends_bind ((iput_keeps h₁).mono fun _ _ hkeeps => ends_pure hkeeps.sound)
  · have hdin := (h₁.inv.table.synced dp (h₁.ref_pos hdp) hv).1
    rw [← hdisk, ← hinum, ← hdin] at hnames
    refine ends_bind ((dirlookup_ends sb (h₁.holeFree hdp hv) name).mono ?_)
    rintro res fs₂ hres
    cases res with
    | none =>
      obtain rfl : fs₂ = fs₁ := hres
      exact ends_bind ((iput_keeps h₁).mono fun _ _ hkeeps => ends_pure hkeeps.sound)
    | some res =>
      obtain ⟨h₂, hvalid⟩ := Found.keeps h₁ hnames hres
      exact unlinkEntry_keeps h₂ (hvalid dp hdp hv) _

/-- A new inode has no blocks, and no holes. -/
theorem HoleFree.putDinode {disk : Disk} (h : Partition sb disk) (hholes : HoleFree sb disk)
    {i : ℕ} (hi : i < sb.ninodes) {d : Dinode} (hd : d.size = 0) :
    HoleFree sb (sb.putDinode disk i d) := by
  intro j hj htype
  rw [Superblock.dinodeOf_putDinode] at htype ⊢
  by_cases hji : j = i
  · rw [if_pos hji]
    exact .of_empty hd
  · rw [if_neg hji] at htype ⊢
    refine (hholes j hj htype).congr fun c hc => ?_
    have hle := (h.mem_ownedBy hj htype hc).2
    have hmeta := sb.bmapstart_lt
    exact Superblock.putDinode_of_le hi (by omega)

theorem iallocLoop_holeFree (h : Sound sb 0 fs) (type : UInt16) (n inum : ℕ) :
    Ends (iallocLoop sb type n inum) fs (· ≠ .bmapOutOfRange) fun _ fs' =>
      HoleFree sb fs'.disk := by
  induction n generalizing inum with
  | zero => exact ends_panic (by simp)
  | succ n ih =>
    rw [iallocLoop]
    split
    · rename_i hlt
      refine ends_bind (bread_ends ?_)
      split
      · refine ends_bind (modifyData_ends (ends_bind (logWrite_ends ?_)))
        refine ((iget_taken _ _).panic_mono (by rintro _ ⟨rfl, -⟩; simp)).mono fun ip fs' ht => ?_
        rw [ht.frame.1]
        exact HoleFree.putDinode h.inv.disk h.holes hlt rfl
      · exact ih (inum + 1)
    · exact ends_panic (by simp)

theorem Sound.boundary (h : Sound sb M fs) : Sound sb 0 fs :=
  ⟨h.inv, h.holes, fun _ => by simp⟩

theorem Sound.single (h : Sound sb 0 fs) (href : 0 < (fs.itable ip).ref) : Sound sb {ip} fs := by
  refine ⟨h.inv, h.holes, fun jp => ?_⟩
  by_cases hjp : jp = ip
  · rw [hjp, count_singleton_self]
    exact href
  · rw [count_singleton, if_neg hjp]
    exact Nat.zero_le _

/-- A directory is locked. -/
theorem ilock_dir (h : Sound sb 0 fs) (href : 0 < (fs.itable ip).ref)
    (hnames : NamesInodes sb (fileContents fs.disk (sb.dinodeOf fs.disk (fs.itable ip).inum))) :
    Ends (ilock sb ip) fs Tame fun _ fs' => Sound sb {ip} fs' ∧ (fs'.itable ip).valid = true
      ∧ NamesInodes sb (fileContents fs'.disk (fs'.itable ip).din) := by
  refine (ilock_keeps (h.single href)).mono ?_
  rintro _ fs' ⟨hkeeps, hv, hdisk, hinum⟩
  have h' := hkeeps.sound
  rw [← hdisk, ← hinum, ← (h'.inv.table.synced ip (h'.ref_pos (mem_singleton_self ip)) hv).1]
    at hnames
  exact ⟨h', hv, hnames⟩

/-- **Every operation on inodes keeps files without holes.** -/
theorem FsOp.code_sound (h : Sound sb 0 fs) (op : FsOp sb) (href : op.Referenced fs) :
    Ends op.code fs Tame fun _ fs' => Sound sb 0 fs' := by
  have hself : ∀ jp : Fin NINODE, jp ∈ ({jp} : Multiset (Fin NINODE)) :=
    fun jp => mem_singleton_self jp
  cases op with
  | ialloc type =>
    refine ends_bind (((iallocLoop_spec h.inv type _ 1).and
      (iallocLoop_holeFree h type _ 1)).mono fun _ fs' h' => ?_)
    exact ⟨h'.1, h'.2, fun _ => by simp⟩
  | iget inum =>
    refine ends_bind (((iget_taken inum fs).panic_mono ?_).mono fun _ fs' ht =>
      (ht.keeps h inum.isLt).1.boundary)
    rintro _ ⟨rfl, -⟩
    simp [Tame, NotDoubleFree]
  | idup ip =>
    have hinv := (FsOp.idup ip : FsOp sb).code_inv h.inv href
    exact ⟨hinv, h.holes, fun _ => by simp⟩
  | setattr ip major minor nlink =>
    refine ends_bind ((ilock_keeps (h.single href)).mono ?_)
    rintro _ fs₁ ⟨hkeeps, hv, -⟩
    have h₁ := hkeeps.sound
    have htype := (h₁.inv.table.synced ip (h₁.ref_pos (hself ip)) hv).2
    exact ends_bind (modifyDin_ends (iupdate_ends (setDin_iupdated_keeps h₁ (hself ip) hv
      (d := { (fs₁.itable ip).din with major := major, minor := minor, nlink := nlink })
      rfl rfl htype).sound.boundary))
  | writei ip src off n =>
    refine ends_bind ((ilock_keeps (h.single href)).mono ?_)
    rintro _ fs₁ ⟨hkeeps, hv, -⟩
    exact ends_bind ((writei_keeps hkeeps.sound (hself ip) hv src off n).mono
      fun _ _ h' => h'.sound.boundary)
  | itrunc ip =>
    refine ends_bind ((ilock_keeps (h.single href)).mono ?_)
    rintro _ fs₁ ⟨hkeeps, hv, -⟩
    exact (itrunc_keeps hkeeps.sound (hself ip) hv).mono fun _ _ h' => h'.1.sound.boundary
  | iput ip =>
    exact (iput_keeps (M := 0) (h.single href)).mono fun _ _ h' => h'.sound.boundary

end Operations

/-! ## Runs -/

/-- An operation on inodes, a read, or an operation on a directory. -/
inductive FileOp (sb : Superblock)
  | base (op : FsOp sb)
  | readi (ip : Fin NINODE) (dst : ℕ → List UInt8 → Bool) (off n : UInt32)
  | dirlookup (dp : Fin NINODE) (name : List UInt8)
  | dirlink (dp : Fin NINODE) (name : List UInt8) (inum : ℕ)
  | unlink (dp : Fin NINODE) (name : List UInt8)

namespace FileOp

variable {sb : Superblock} {fs : Fs}

/-- The code of an operation; those on an entry of the table lock it first. -/
def code : FileOp sb → FsProg Unit
  | base op => op.code
  | readi ip dst off n => do
    ilock sb ip
    let _ ← Xv6.readi sb ip dst off n
    pure ()
  | dirlookup dp name => do
    ilock sb dp
    let _ ← Xv6.dirlookup sb dp name
    pure ()
  | dirlink dp name inum => do
    ilock sb dp
    let _ ← Xv6.dirlink sb dp name inum
    pure ()
  | unlink dp name => do
    let _ ← Xv6.unlink sb dp name
    pure ()

/-- The caller has a reference, and a directory names inodes of the disk. -/
def Allowed (fs : Fs) : FileOp sb → Prop
  | base op => op.Referenced fs
  | readi ip _ _ _ => 0 < (fs.itable ip).ref
  | dirlookup dp _ | dirlink dp _ _ | unlink dp _ => 0 < (fs.itable dp).ref
    ∧ NamesInodes sb (fileContents fs.disk (sb.dinodeOf fs.disk (fs.itable dp).inum))

instance (fs : Fs) (op : FileOp sb) : Decidable (op.Allowed fs) := by
  cases op <;> unfold Allowed <;> infer_instance

/-- One operation, as a step of a machine. -/
def step (fs : Fs) (op : FileOp sb) : Outcome Fs FsPanic :=
  match op.code fs with
  | .ok (_, fs') => .next fs'
  | .error e => .panic e

/-- **Every operation keeps files without holes.** -/
theorem code_sound (h : Sound sb 0 fs) (op : FileOp sb) (hok : op.Allowed fs) :
    Ends op.code fs Tame fun _ fs' => Sound sb 0 fs' := by
  have hself : ∀ jp : Fin NINODE, jp ∈ ({jp} : Multiset (Fin NINODE)) :=
    fun jp => mem_singleton_self jp
  cases op with
  | base op => exact op.code_sound h hok
  | readi ip dst off n =>
    refine ends_bind ((ilock_keeps (h.single hok)).mono ?_)
    rintro _ fs₁ ⟨hkeeps, hv, -⟩
    obtain ⟨r, hr, -⟩ := readi_pure sb (hkeeps.sound.holeFree (hself ip) hv) dst off n
    exact ends_bind (ends_of_ok hr hkeeps.sound.boundary)
  | dirlookup dp name =>
    refine ends_bind ((ilock_dir h hok.1 hok.2).mono ?_)
    rintro _ fs₁ ⟨h₁, hv, hnames⟩
    refine ends_bind ((dirlookup_ends sb (h₁.holeFree (hself dp) hv) name).mono
      fun res fs₂ hres => ?_)
    cases res with
    | none =>
      obtain rfl : fs₂ = fs₁ := hres
      exact ends_pure h₁.boundary
    | some res => exact ends_pure (Found.keeps h₁ hnames hres).1.boundary
  | dirlink dp name inum =>
    refine ends_bind ((ilock_dir h hok.1 hok.2).mono ?_)
    rintro _ fs₁ ⟨h₁, hv, hnames⟩
    exact ends_bind ((dirlink_keeps h₁ (hself dp) hv hnames name inum).mono
      fun _ _ h' => h'.sound.boundary)
  | unlink dp name =>
    exact ends_bind ((unlink_keeps (M := 0) (h.single hok.1) hok.2 name).mono
      fun _ _ h' => h')

end FileOp

/-- **The kernel makes no holes.** From any state of the file system code in
which the blocks are owned properly and no file has holes, none has after any
sequence of operations; `bmap` is never asked for a block out of range; and in
every state reached `readi` leaves the state as it was, and `dirlookup` changes
no block, no inode and no bit, and logs nothing. -/
theorem files_stay_hole_free {sb : Superblock} {fs₀ fs : Fs} (h : FsInv sb fs₀)
    (hholes : HoleFree sb fs₀.disk)
    (hreach : Machine.Reach FileOp.step (fun fs (op : FileOp sb) => op.Allowed fs) fs₀ fs) :
    HoleFree sb fs.disk
    ∧ (∀ op : FileOp sb, op.Allowed fs → FileOp.step fs op ≠ .panic .bmapOutOfRange)
    ∧ (∀ ip, 0 < (fs.itable ip).ref → (fs.itable ip).valid = true →
      ∀ dst off n, ∃ r, readi sb ip dst off n fs = .ok (r, fs))
    ∧ ∀ dp, 0 < (fs.itable dp).ref → (fs.itable dp).valid = true →
      ∀ name res fs', dirlookup sb dp name fs = .ok (res, fs') →
        fs'.disk = fs.disk ∧ fs'.logged = fs.logged
        ∧ ∀ ip, (fs'.itable ip).din = (fs.itable ip).din := by
  have hself : ∀ jp : Fin NINODE, jp ∈ ({jp} : Multiset (Fin NINODE)) :=
    fun jp => mem_singleton_self jp
  have hsound : Sound sb 0 fs := by
    refine hreach.invariant ⟨h, hholes, fun _ => by simp⟩ fun fs op fs' hinv hok hstep => ?_
    unfold FileOp.step at hstep
    split at hstep
    · rename_i _ _ hrun
      exact Outcome.next.inj hstep ▸ (op.code_sound hinv hok).of_ok hrun
    · cases hstep
  refine ⟨hsound.holes, fun op hok hpanic => ?_, fun ip href hv dst off n => ?_,
    fun dp href hv name res fs' hrun => ?_⟩
  · unfold FileOp.step at hpanic
    split at hpanic
    · cases hpanic
    · rename_i e hrun
      exact ((op.code_sound hsound hok).of_error hrun).2 (Outcome.panic.inj hpanic)
  · obtain ⟨r, hr, -⟩ := readi_pure sb
      ((hsound.single href).holeFree (hself ip) hv) dst off n
    exact ⟨r, hr⟩
  · have hends := (dirlookup_ends sb ((hsound.single href).holeFree (hself dp) hv) name).of_ok hrun
    cases res with
    | none =>
      obtain rfl : fs' = fs := hends
      exact ⟨rfl, rfl, fun _ => rfl⟩
    | some res =>
      obtain ⟨e, -, -, ht⟩ := hends
      exact ht.frame

/-- A directory with its dots and two files is made; one file is written to, and
the other one is looked up and unlinked. -/
def dirOps : List (FileOp mkfsSuper) :=
  [.base (.ialloc T_DIR), .dirlink 0 dot 1, .dirlink 0 dotdot 1, .base (.setattr 0 0 0 1),
    .base (.ialloc 2), .base (.setattr 1 0 0 1), .dirlink 0 [97] 2,
    .base (.ialloc 2), .base (.setattr 2 0 0 1), .dirlink 0 [98] 3,
    .base (.writei 2 (readable fun _ => 7) 0 1500), .dirlookup 0 [97], .base (.iput 1),
    .base (.idup 0), .unlink 0 [97]]

theorem files_stay_hole_free_dirOps :
    ∃ fs, Machine.Reach FileOp.step (fun fs (op : FileOp mkfsSuper) => op.Allowed fs)
        (Fs.boot emptyDisk) fs
      ∧ ((dirents (fileContents fs.disk (mkfsSuper.dinodeOf fs.disk 1))).map Dirent.inum
          = [1, 1, 0, 3]
        ∧ (mkfsSuper.dinodeOf fs.disk 3).size = 1500)
      ∧ HoleFree mkfsSuper fs.disk := by
  have hholes : HoleFree mkfsSuper emptyDisk := fun i hi htype => absurd (emptyDisk_dinode hi) htype
  obtain ⟨fs, hreach, hdir⟩ : ∃ fs, Machine.Reach FileOp.step
      (fun fs (op : FileOp mkfsSuper) => op.Allowed fs) (Fs.boot emptyDisk) fs
      ∧ (dirents (fileContents fs.disk (mkfsSuper.dinodeOf fs.disk 1))).map Dirent.inum
          = [1, 1, 0, 3]
        ∧ (mkfsSuper.dinodeOf fs.disk 3).size = 1500 :=
    Machine.exists_reach_of_run (l := dirOps) (by decide +kernel)
  exact ⟨fs, hreach, hdir, (files_stay_hole_free (.boot emptyDisk_ownership) hholes hreach).1⟩

/-! ## Blocks with two owners -/

/-- A file whose first block is the block of its own inode. -/
def aliasFile : Dinode := ⟨2, 0, 0, 1, 1024, fun i => if i = 0 then 32 else 0⟩

/-- The disk with that file as its only one. -/
def aliasDisk : Disk := mkfsSuper.putDinode emptyDisk 1 aliasFile

theorem aliasDisk_dinode (j : ℕ) :
    mkfsSuper.dinodeOf aliasDisk j
      = if j = 1 then aliasFile else mkfsSuper.dinodeOf emptyDisk j :=
  Superblock.dinodeOf_putDinode 1 j aliasFile

theorem aliasDisk_holeFree : HoleFree mkfsSuper aliasDisk := by
  intro j hj htype
  rw [aliasDisk_dinode] at htype ⊢
  split at htype
  · rename_i hj1
    rw [if_pos hj1]
    refine ⟨by unfold MAXFILE NINDIRECT; decide, fun bn hbn => ?_⟩
    obtain rfl : bn = 0 := Nat.lt_one_iff.mp hbn
    decide
  · exact absurd (emptyDisk_dinode hj) htype

/-- The bytes that make an inode of one byte without a block. -/
def holeBytes : ℕ → UInt8 := fun i => if i = 0 then 2 else if i = 8 then 1 else 0

/-- The file is opened and written to. -/
def aliasOps : List (FileOp mkfsSuper) :=
  [.base (.iget ⟨1, by decide⟩), .base (.writei 0 (readable holeBytes) 128 9)]

/-- **A write can punch a hole** into another file, if the blocks are not owned
properly: the first block of inode 1 is the block of the inodes, and a write to
it makes inode 2 a file of one byte without a block. -/
theorem writei_punches_hole :
    ¬∀ (sb : Superblock) (disk : Disk) (fs : Fs), HoleFree sb disk →
      Machine.Reach FileOp.step (fun fs (op : FileOp sb) => op.Allowed fs) (Fs.boot disk) fs →
      HoleFree sb fs.disk := by
  intro h
  obtain ⟨fs, hreach, htype, hsize, haddr⟩ : ∃ fs, Machine.Reach FileOp.step
      (fun fs (op : FileOp mkfsSuper) => op.Allowed fs) (Fs.boot aliasDisk) fs
      ∧ (mkfsSuper.dinodeOf fs.disk 2).type ≠ 0
      ∧ 0 < blocksFor (mkfsSuper.dinodeOf fs.disk 2).size.toNat
      ∧ (mkfsSuper.dinodeOf fs.disk 2).addrs 0 = 0 :=
    Machine.exists_reach_of_run (l := aliasOps) (by decide +kernel)
  exact (h mkfsSuper aliasDisk fs aliasDisk_holeFree hreach 2 (by decide) htype).addr 0 hsize haddr

end Xv6
