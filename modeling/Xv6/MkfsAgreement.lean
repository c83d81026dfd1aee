import Mathlib
import Xv6.MkfsLimits

/-!
# `mkfs` and the kernel agree on the format

The kernel boots from the image that `mkfs` made. It looks up the name of a file in the
root directory, reads the inode and reads the file: what it gets is the file that was
stored, byte for byte (`mkfs_kernel_agree`).

The root directory may have a hole at its end, so that what is known of reads on files
without holes is not enough: a lookup reads the entries one by one and stops at the one
it looks for, and up to there the blocks exist.
-/

open List
open Prog hiding get modify panic result

namespace Xv6

/-! ## Looking up a path -/

section

variable (sb : Superblock)

/-- The loop of `namex`; `iunlockput` is `iput`, as locking leaves no trace. -/
def namexLoop (nameiparent : Bool) (ip : Fin NINODE) (path : List UInt8) :
    FsProg (Option (Fin NINODE × List UInt8)) :=
  match h : skipelem path with
  | none =>
    if nameiparent then do
      iput sb ip
      pure none
    else pure (some (ip, []))
  | some (rest, name) => do
    ilock sb ip
    let e ← getInode ip
    if e.din.type ≠ T_DIR then do
      iput sb ip
      pure none
    else if nameiparent ∧ rest = [] then pure (some (ip, name))
    else do
      match ← dirlookup sb ip name with
      | none => do
        iput sb ip
        pure none
      | some (next, _) => do
        iput sb ip
        have : rest.length < path.length := by
          obtain ⟨_, -, -, hlt, -⟩ := skipelem_some h
          exact hlt
        namexLoop nameiparent next rest
termination_by path.length

/-- Find the inode of a path, from the root or from the current directory. -/
def namex (cwd : Fin NINODE) (nameiparent : Bool) (path : List UInt8) :
    FsProg (Option (Fin NINODE × List UInt8)) :=
  if path.head? = some slash then do
    let ip ← iget ROOTINO
    namexLoop sb nameiparent ip path
  else do
    idup cwd
    namexLoop sb nameiparent cwd path

/-- The inode of a path. -/
def namei (cwd : Fin NINODE) (path : List UInt8) : FsProg (Option (Fin NINODE)) := do
  let r ← namex sb cwd false path
  pure (r.map Prod.fst)

end

section Lookup

variable {sb : Superblock} {fs : Fs} {dp : Fin NINODE} {name de : List UInt8}

/-- **`iget` of an inode that is not in the table** takes a free entry. -/
theorem iget_new {inum : ℕ} (hnone : ∀ ip, 0 < (fs.itable ip).ref → (fs.itable ip).inum ≠ inum)
    (hfree : ∃ ip, (fs.itable ip).ref = 0) :
    ∃ ip, (fs.itable ip).ref = 0 ∧ iget inum fs = .ok (ip, fs.setInode ip
      { fs.itable ip with inum := inum, ref := 1, valid := false }) := by
  obtain ⟨jp, hjp⟩ := hfree
  obtain ⟨ip, fs', hrun, ht⟩ := ((iget_taken inum fs).panic_mono fun _ he => he.2.1 jp hjp).exists_ok
  cases ht with
  | again href hinum => exact absurd hinum (hnone ip href)
  | anew href => exact ⟨ip, href, hrun⟩

theorem ilock_new {ip : Fin NINODE} (href : 0 < (fs.itable ip).ref)
    (hvalid : (fs.itable ip).valid = false)
    (htype : (sb.dinodeOf fs.disk (fs.itable ip).inum).type ≠ 0) :
    ilock sb ip fs = .ok ((), fs.setInode ip { fs.itable ip with
      din := sb.dinodeOf fs.disk (fs.itable ip).inum, valid := true }) := by
  unfold Superblock.dinodeOf at htype
  unfold ilock
  rw [getInode_bind, if_neg (by omega), hvalid, if_neg (by decide), bread_bind, if_neg htype]
  rfl

theorem iput_linked {ip : Fin NINODE} (h : (fs.itable ip).din.nlink ≠ 0) :
    iput sb ip fs
      = .ok ((), fs.setInode ip { fs.itable ip with ref := (fs.itable ip).ref - 1 }) := by
  have hkeep : iputFree sb ip fs = .ok ((), fs) := by
    unfold iputFree
    rw [getInode_bind, if_neg fun hc => h hc.2.2]
    rfl
  unfold iput
  rw [bind_of_ok hkeep]
  rfl

theorem namexLoop_none {parent : Bool} {ip : Fin NINODE} {path : List UInt8}
    (hskip : skipelem path = none) :
    namexLoop sb parent ip path = if parent then do
      iput sb ip
      pure none
    else pure (some (ip, [])) := by
  rw [namexLoop]
  split
  · rfl
  · rename_i hsome
    cases hskip.symm.trans hsome

theorem namexLoop_some {parent : Bool} {ip : Fin NINODE} {path rest : List UInt8}
    (hskip : skipelem path = some (rest, name)) :
    namexLoop sb parent ip path = (do
      ilock sb ip
      let e ← getInode ip
      if e.din.type ≠ T_DIR then do
        iput sb ip
        pure none
      else if parent ∧ rest = [] then pure (some (ip, name))
      else do
        match ← dirlookup sb ip name with
        | none => do
          iput sb ip
          pure none
        | some (next, _) => do
          iput sb ip
          namexLoop sb parent next rest) := by
  rw [namexLoop]
  split
  · rename_i hnone
    cases hnone.symm.trans hskip
  · rename_i rest' name' hsome
    cases hsome.symm.trans hskip
    rfl

/-- **One element of a path**: it is looked up in its directory, which is then put. -/
theorem namexLoop_step {fs₁ fs₂ fs₃ : Fs} {ip next : Fin NINODE} {off : ℕ}
    {path rest : List UInt8} (hskip : skipelem path = some (rest, name))
    (hlock : ilock sb ip fs = .ok ((), fs₁)) (htype : (fs₁.itable ip).din.type = T_DIR)
    (hlookup : dirlookup sb ip name fs₁ = .ok (some (next, off), fs₂))
    (hput : iput sb ip fs₂ = .ok ((), fs₃)) :
    namexLoop sb false ip path fs = namexLoop sb false next rest fs₃ := by
  rw [namexLoop_some hskip, bind_of_ok hlock, getInode_bind, if_neg (not_not.mpr htype),
    if_neg (by simp), bind_of_ok hlookup]
  exact bind_of_ok hput

theorem namexLoop_nil (ip : Fin NINODE) :
    namexLoop sb false ip [] fs = .ok (some (ip, []), fs) := by
  rw [namexLoop]
  rfl

end Lookup

/-! ## The image in the kernel -/

namespace Mkfs

section Agreement

variable {files : List InputFile} {s : Mkfs}

/-- The names are those of files: not empty, distinct in the bytes that a directory
keeps, and not those of the directory and its parent. -/
structure ProperNames (files : List InputFile) : Prop where
  nonempty : ∀ f ∈ files, f.name ≠ []
  distinct : (files.map fun f => f.name.take DIRSIZ).Nodup
  notDot : ∀ f ∈ files, f.name ≠ dot
  notDotdot : ∀ f ∈ files, f.name ≠ dotdot

theorem name_subset (f : InputFile) : f.name ⊆ f.shortname ∧ f.shortname ⊆ f.path := by
  constructor
  · unfold InputFile.name
    split
    · exact tail_subset _
    · exact List.Subset.refl _
  · unfold InputFile.shortname
    split
    · exact drop_subset _ _
    · exact List.Subset.refl _

theorem cstr_name (f : InputFile) : cstr DIRSIZ f.name = f.name.take DIRSIZ := by
  unfold cstr
  refine takeWhile_eq_self_iff.mpr fun c hc => ?_
  have hmem := (name_subset f).2 ((name_subset f).1 (mem_of_mem_take hc))
  rw [decide_eq_true_eq]
  rintro rfl
  exact f.path_nul hmem

theorem entryInum_entryBytes (name : List UInt8) {inum : ℕ} (h : inum < 2 ^ 16) :
    entryInum (entryBytes name inum) = inum := by
  unfold entryInum entryBytes
  simp
  omega

/-- The `k`-th entry of a directory. -/
theorem getD_dirBytes {ents : List (List UInt8 × ℕ)} {e : List UInt8 × ℕ} {k : ℕ}
    (h : ents[k]? = some e) :
    (range 16).map (fun i => (dirBytes ents).getD (16 * k + i) 0) = entryBytes e.1 e.2 := by
  induction ents generalizing k with
  | nil => simp at h
  | cons a ents ih =>
    have hcons : dirBytes (a :: ents) = entryBytes a.1 a.2 ++ dirBytes ents := flatMap_cons
    cases k with
    | zero =>
      obtain rfl : a = e := by simpa using h
      rw [← map_getD_range (entryBytes a.1 a.2), length_entryBytes, hcons]
      refine map_congr_left fun i hi => ?_
      rw [mem_range] at hi
      rw [Nat.mul_zero, Nat.zero_add, getD_append _ _ _ _ (by rw [length_entryBytes]; exact hi)]
    | succ k =>
      rw [← ih (by simpa using h), hcons]
      refine map_congr_left fun i _ => ?_
      rw [getD_append_right _ _ _ _ (by rw [length_entryBytes]; omega), length_entryBytes]
      congr 1
      omega

/-- The entries of the root directory: its own, and those of the files. -/
theorem rootEnts_cases {e : List UInt8 × ℕ} {k : ℕ} (h : (rootEnts files)[k]? = some e) :
    (k = 0 ∧ e = (dot, ROOTINO)) ∨ (k = 1 ∧ e = (dotdot, ROOTINO))
      ∨ ∃ i f, k = i + 2 ∧ files[i]? = some f ∧ e = (f.name, i + 2) := by
  unfold rootEnts dots at h
  match k with
  | 0 => exact .inl ⟨rfl, by simpa using h.symm⟩
  | 1 => exact .inr (.inl ⟨rfl, by simpa using h.symm⟩)
  | i + 2 =>
    rw [getElem?_append_right (by simp)] at h
    simp only [length_cons, length_nil, Nat.zero_add, Nat.add_sub_cancel,
      getElem?_zipIdx, getElem?_map, Option.map_map] at h
    cases hi : files[i]? with
    | none => simp [hi] at h
    | some f =>
      refine .inr (.inr ⟨i, f, rfl, hi, ?_⟩)
      rw [hi] at h
      simp at h
      rw [← h, Nat.add_comm]

theorem namecmp_entry (f : InputFile) (name : List UInt8) (inum : ℕ) :
    namecmp (f.name.take DIRSIZ) ((entryBytes name inum).drop 2) = 0
      ↔ f.name.take DIRSIZ = cstr DIRSIZ name := by
  have hdrop : (entryBytes name inum).drop 2 = strncpy name DIRSIZ := rfl
  have hself : cstr DIRSIZ (f.name.take DIRSIZ) = f.name.take DIRSIZ := by
    have hname := cstr_name f
    unfold cstr at hname ⊢
    rwa [take_take, Nat.min_self]
  rw [hdrop, namecmp_strncpy, namecmp, strncmp_eq_zero, hself]

theorem eq_of_take_eq {name short : List UInt8} (h : name.take DIRSIZ = short)
    (hlen : short.length < DIRSIZ) : name = short := by
  have hle : name.length ≤ DIRSIZ := by
    rw [← h, length_take] at hlen
    omega
  rw [← h, take_of_length_le hle]

/-- **Only its own entry has the name of a file.** -/
theorem ProperNames.first (h : ProperNames files) {i k : ℕ} {f : InputFile} {e : List UInt8 × ℕ}
    (hi : files[i]? = some f) (hk : k < i + 2) (he : (rootEnts files)[k]? = some e) :
    namecmp (f.name.take DIRSIZ) ((entryBytes e.1 e.2).drop 2) ≠ 0 := by
  have hf := mem_of_getElem? hi
  rw [Ne, namecmp_entry]
  intro heq
  obtain ⟨-, rfl⟩ | ⟨-, rfl⟩ | ⟨j, g, rfl, hj, rfl⟩ := rootEnts_cases he
  · exact h.notDot f hf (eq_of_take_eq heq (by decide))
  · exact h.notDotdot f hf (eq_of_take_eq heq (by decide))
  · rw [cstr_name] at heq
    have hj' : (files.map fun f => f.name.take DIRSIZ)[j]? = some (g.name.take DIRSIZ) := by
      rw [getElem?_map, hj]
      rfl
    have hi' : (files.map fun f => f.name.take DIRSIZ)[i]? = some (f.name.take DIRSIZ) := by
      rw [getElem?_map, hi]
      rfl
    have hlt := (List.getElem?_eq_some_iff.mp hi').1
    refine List.nodup_iff_getElem?_ne_getElem?.mp h.distinct j i (by omega) hlt ?_
    rw [hi', hj', heq]

/-- **The lookup of a file in the root directory** gets its inode. -/
theorem root_dirlookup (himage : Image files s) (hle : files.length + 2 ≤ NINODES)
    (hnames : ProperNames files) {fs : Fs} {rp : Fin NINODE} (hdisk : fs.disk = s.image)
    (hdin : (fs.itable rp).din = mkfsSuper.dinodeOf s.image ROOTINO) {i : ℕ} {f : InputFile}
    (hi : files[i]? = some f) :
    dirlookup mkfsSuper rp (f.name.take DIRSIZ) fs = (do
      let ip ← iget (i + 2)
      pure (some (ip, 16 * (i + 2))) : FsProg (Option (Fin NINODE × ℕ))) fs := by
  have hlt := (List.getElem?_eq_some_iff.mp hi).1
  have hsize := himage.rootSize
  rw [← hdin] at hsize
  have hlen : (fileContents fs.disk (fs.itable rp).din).length
      = (fs.itable rp).din.size.toNat := (size_of_contents rfl).symm
  have hentry : ∀ j ≤ i + 2, ∃ e, (rootEnts files)[j]? = some e
      ∧ entryAt (fileContents fs.disk (fs.itable rp).din) j = entryBytes e.1 e.2 := by
    intro j hj
    have hin : j < (rootEnts files).length := by rw [length_rootEnts]; omega
    refine ⟨(rootEnts files)[j], getElem?_eq_getElem hin, ?_⟩
    rw [← getD_dirBytes (getElem?_eq_getElem hin), entryAt, drop_take_contents, hsize]
    unfold DIRENTSIZE
    rw [Nat.min_eq_left (by unfold BSIZE; omega), Nat.mul_comm]
    refine map_congr_left fun x hx => ?_
    rw [mem_range] at hx
    rw [← himage.rootByte _ (by omega), ← hdin, ← hdisk]
  have hno : ∀ j < i + 2, ¬ (direntAt (fileContents fs.disk (fs.itable rp).din) j).Matches
      (f.name.take DIRSIZ) := by
    intro j hj hc
    obtain ⟨e, he, hbytes⟩ := hentry j hj.le
    unfold direntAt at hc
    rw [hbytes] at hc
    exact hnames.first hi hj he hc.2
  obtain ⟨e, he, hbytes⟩ := hentry (i + 2) le_rfl
  obtain rfl : e = (f.name, i + 2) := by
    obtain ⟨hk, -⟩ | ⟨hk, -⟩ | ⟨j, g, hk, hj, rfl⟩ := rootEnts_cases he
    · omega
    · omega
    · obtain rfl : i = j := by omega
      obtain rfl : f = g := Option.some.inj (hi.symm.trans hj)
      rfl
  have hinum : (direntAt (fileContents fs.disk (fs.itable rp).din) (i + 2)).inum = i + 2 := by
    show entryInum (entryAt _ _) = _
    rw [hbytes]
    exact entryInum_entryBytes _ (by unfold NINODES at hle; omega)
  have hyes : (direntAt (fileContents fs.disk (fs.itable rp).din) (i + 2)).Matches
      (f.name.take DIRSIZ) := by
    refine ⟨by omega, ?_⟩
    show namecmp _ ((entryAt _ _).drop 2) = 0
    rw [hbytes, namecmp_entry, cstr_name]
  have hfind : findName (dirents (fileContents fs.disk (fs.itable rp).din)) (f.name.take DIRSIZ)
      = some (i + 2) := by
    rw [findName, findIdx?_eq_some_iff_getElem]
    refine ⟨?_, by simpa [dirents] using hyes, fun j hj => by simpa [dirents] using hno j hj⟩
    rw [dirents, length_map, length_range, hlen, hsize]
    unfold DIRENTSIZE BSIZE
    omega
  have hend := dirlookup_eq mkfsSuper (c := fileContents fs.disk (fs.itable rp).din) rfl (f.name.take DIRSIZ)
    (by rw [hdin, himage.rootType]) fun j hlt hno => ?_
  · rw [hfind, Option.elim_some, hinum, hlen, hsize] at hend
    refine (hend.resolve_right fun h => h.1 ?_).trans (by rw [Nat.mul_comm]; rfl)
    exact Dvd.dvd.mul_left (by decide) _
  · have hj : j ≤ i + 2 := by
      by_contra hj
      exact hno (i + 2) (by omega) hyes
    unfold Fs.addrOf
    rw [hdin, hdisk, himage.rootAddr, lt_blocksFor]
    unfold DIRENTSIZE
    exact lt_of_le_of_lt (Nat.div_mul_le_self _ _) (by omega)

/-- The path of a file in the root directory has one element. -/
theorem skipelem_path {f : InputFile} (hslash : slash ∉ f.shortname) (hne : f.name ≠ []) :
    skipelem (slash :: f.name) = some ([], f.name.take DIRSIZ) := by
  have hword : ∀ c ∈ f.name, c ≠ slash := by
    rintro c hc rfl
    exact hslash ((name_subset f).1 hc)
  have hdrop : (slash :: f.name).dropWhile (· = slash) = f.name := by
    obtain ⟨c, tail, hname⟩ := exists_cons_of_ne_nil hne
    have hc : c ≠ slash := hword c (by rw [hname]; exact mem_cons_self)
    rw [dropWhile_cons_of_pos (by simp), hname,
      dropWhile_cons_of_neg (by simpa using hc)]
  have htake : f.name.takeWhile (· ≠ slash) = f.name :=
    takeWhile_eq_self_iff.mpr fun c hc => decide_eq_true (hword c hc)
  have hrest : f.name.dropWhile (· ≠ slash) = [] :=
    dropWhile_eq_nil_iff.mpr fun c hc => decide_eq_true (hword c hc)
  unfold skipelem
  simp only [hdrop, htake, hrest]
  rw [if_neg hne]
  rfl

/-- **The kernel reads back the superblock** that was written. -/
theorem readsb_image (himage : Image files s) : readsb s.image = superWords mkfsSuper := by
  have hword : ∀ i < 8, (s.image 1).getLE (4 * i) 4 = (superWords mkfsSuper).getD i 0 := by
    intro i hi
    have hget : (superSect mkfsSuper).getLE (0 + 4 * i) 4
        = (superWords mkfsSuper).getD i 0 % 256 ^ 4 :=
      Bytes.getLE_setWords _ (by decide) hi
    rw [Nat.zero_add] at hget
    rw [himage.super]
    refine hget.trans (Nat.mod_eq_of_lt ?_)
    interval_cases i <;> decide
  unfold readsb
  rw [map_congr_left fun i hi => hword i (mem_range.mp hi)]
  rfl

/-- **The path of a file leads to its inode**, which is not read yet. -/
theorem namei_file (himage : Image files s) (hle : files.length + 2 ≤ NINODES)
    (hnames : ProperNames files) (cwd : Fin NINODE) {i : ℕ} {f : InputFile}
    (hi : files[i]? = some f) :
    ∃ ip fs, namei mkfsSuper cwd (slash :: f.name) (Fs.boot s.image) = .ok (some ip, fs)
      ∧ fs.disk = s.image ∧ (fs.itable ip).inum = i + 2 ∧ (fs.itable ip).ref = 1
      ∧ (fs.itable ip).valid = false := by
  have hf := mem_of_getElem? hi
  -- the root directory is taken and locked
  obtain ⟨rp, -, hroot⟩ : ∃ rp, ((Fs.boot s.image).itable rp).ref = 0
      ∧ iget ROOTINO (Fs.boot s.image) = .ok (rp, (Fs.boot s.image).setInode rp
        { (Fs.boot s.image).itable rp with inum := ROOTINO, ref := 1, valid := false }) :=
    iget_new (fun _ h => absurd h (lt_irrefl 0)) ⟨0, rfl⟩
  set fs₁ := (Fs.boot s.image).setInode rp
    { (Fs.boot s.image).itable rp with inum := ROOTINO, ref := 1, valid := false } with hfs₁
  have hrp₁ : fs₁.itable rp = { (Fs.boot s.image).itable rp with
      inum := ROOTINO, ref := 1, valid := false } := setInode_self _
  have hlock : ilock mkfsSuper rp fs₁ = .ok ((), fs₁.setInode rp { fs₁.itable rp with
      din := mkfsSuper.dinodeOf s.image (fs₁.itable rp).inum, valid := true }) :=
    ilock_new (by rw [hrp₁]; exact Nat.one_pos) (by rw [hrp₁])
      (by rw [hrp₁]; exact ne_of_eq_of_ne himage.rootType (by decide))
  set fs₂ := fs₁.setInode rp { fs₁.itable rp with
      din := mkfsSuper.dinodeOf s.image (fs₁.itable rp).inum, valid := true } with hfs₂
  have hrp₂ : fs₂.itable rp = ⟨ROOTINO, 1, true, mkfsSuper.dinodeOf s.image ROOTINO⟩ := by
    rw [hfs₂, setInode_self, hrp₁]
  have hother₂ : ∀ jp ≠ rp, (fs₂.itable jp).ref = 0 := by
    intro jp hne
    rw [hfs₂, setInode_of_ne hne, hfs₁, setInode_of_ne hne]
    rfl
  -- the file is looked up in it
  obtain ⟨ip, hzero, hfound⟩ : ∃ ip, (fs₂.itable ip).ref = 0 ∧ iget (i + 2) fs₂
      = .ok (ip, fs₂.setInode ip
        { fs₂.itable ip with inum := i + 2, ref := 1, valid := false }) := by
    refine iget_new (fun jp href => ?_) ?_
    · obtain rfl : jp = rp := by
        by_contra hne
        rw [hother₂ jp hne] at href
        exact lt_irrefl 0 href
      rw [hrp₂]
      show 1 ≠ i + 2
      omega
    · obtain ⟨jp, hne⟩ : ∃ jp, jp ≠ rp := exists_ne (α := Fin (48 + 2)) rp
      exact ⟨jp, hother₂ jp hne⟩
  have hne : ip ≠ rp := by
    rintro rfl
    rw [hrp₂] at hzero
    exact one_ne_zero hzero
  have hdisk₂ : fs₂.disk = s.image := rfl
  have hlookup := root_dirlookup himage hle hnames hdisk₂ (by rw [hrp₂]) hi
  rw [bind_of_ok hfound] at hlookup
  set fs₃ := fs₂.setInode ip { fs₂.itable ip with inum := i + 2, ref := 1, valid := false }
    with hfs₃
  have hrp₃ : fs₃.itable rp = fs₂.itable rp := setInode_of_ne hne.symm _
  have hput : iput mkfsSuper rp fs₃ = .ok ((), fs₃.setInode rp
      { fs₃.itable rp with ref := (fs₃.itable rp).ref - 1 }) := by
    refine iput_linked ?_
    rw [hrp₃, hrp₂]
    exact ne_of_eq_of_ne himage.rootLink (by decide)
  set fs₄ := fs₃.setInode rp { fs₃.itable rp with ref := (fs₃.itable rp).ref - 1 } with hfs₄
  have hip₄ : fs₄.itable ip = { fs₂.itable ip with inum := i + 2, ref := 1, valid := false } := by
    rw [hfs₄, setInode_of_ne hne, hfs₃, setInode_self]
  have hskip := skipelem_path (himage.noSlash f hf) (hnames.nonempty f hf)
  have hloop := namexLoop_step hskip hlock (by rw [hrp₂]; exact himage.rootType) hlookup hput
  rw [namexLoop_nil] at hloop
  refine ⟨ip, fs₄, ?_, rfl, by rw [hip₄], by rw [hip₄], by rw [hip₄]⟩
  have hnamex : namex mkfsSuper cwd false (slash :: f.name) (Fs.boot s.image)
      = .ok (some (ip, []), fs₄) := by
    unfold namex
    rw [head?_cons, if_pos rfl, bind_of_ok hroot]
    exact hloop
  exact bind_of_ok hnamex

/-- What the kernel gets for a file after boot: its inode under its path, and its bytes. -/
def Finds (disk : Disk) (cwd : Fin NINODE) (f : InputFile) : Prop :=
  ∃ ip fs fs', namei mkfsSuper cwd (slash :: f.name) (Fs.boot disk) = .ok (some ip, fs)
    ∧ ilock mkfsSuper ip fs = .ok ((), fs') ∧ (fs'.itable ip).din.type = T_FILE
    ∧ (fs'.itable ip).din.size.toNat = f.contents.length
    ∧ readi mkfsSuper ip (fun _ _ => true) 0 (fs'.itable ip).din.size fs'
      = .ok ((f.contents.length, f.contents), fs')

/-- A file of the image is found. -/
theorem Image.finds (himage : Image files s) (hle : files.length + 2 ≤ NINODES)
    (hnames : ProperNames files) (cwd : Fin NINODE) {f : InputFile} (hf : f ∈ files) :
    Finds s.image cwd f := by
  obtain ⟨i, hi⟩ := mem_iff_getElem?.mp hf
  have hfile := himage.file i f hi
  obtain ⟨ip, fs, hnamei, hdisk, hinum, href, hvalid⟩ := namei_file himage hle hnames cwd hi
  have htype : (mkfsSuper.dinodeOf fs.disk (fs.itable ip).inum).type ≠ 0 := by
    rw [hdisk, hinum]
    exact ne_of_eq_of_ne hfile.type (by decide)
  have hlock := ilock_new (by rw [href]; exact Nat.one_pos) hvalid htype
  set fs' := fs.setInode ip { fs.itable ip with
      din := mkfsSuper.dinodeOf fs.disk (fs.itable ip).inum, valid := true } with hfs'
  have hdin : (fs'.itable ip).din = slotSuper.dinodeOf s.image (i + 2) := by
    rw [hfs', setInode_self, hdisk, hinum]
    rfl
  have hdisk' : fs'.disk = s.image := hdisk
  have hfree : (fs'.itable ip).din.HoleFree fs'.disk := by
    rw [hdin, hdisk']
    exact hfile.holeFree
  obtain ⟨r, hread, hall⟩ := readi_pure mkfsSuper hfree (fun _ _ => true) 0 (fs'.itable ip).din.size
  obtain ⟨hlen, hbytes⟩ := hall fun _ _ => rfl
  have hsize : (fs'.itable ip).din.size.toNat = f.contents.length := by rw [hdin, hfile.size]
  have hlt := (fs'.itable ip).din.size.toNat_lt
  have hzero : (0 : UInt32).toNat = 0 := rfl
  rw [hzero, Nat.zero_add, if_neg (by omega), drop_zero, hsize, hdisk', hdin, hfile.contents,
    take_length] at hbytes
  refine ⟨ip, fs, fs', hnamei, hlock, by rw [hdin, hfile.type], hsize, ?_⟩
  rw [hread, ← hbytes, ← hlen]

/-- **`mkfs` and the kernel agree on the format.** -/
theorem mkfs_kernel_agree (h : Makes files s) (hle : files.length + 2 ≤ NINODES)
    (hnames : ProperNames files) (cwd : Fin NINODE) :
    (∀ f ∈ files, Finds s.image cwd f) ∧ readsb s.image = superWords mkfsSuper
      ∧ ∀ b < FSSIZE, mkfsSuper.bitOf s.image b = decide (b < s.freeblock) := by
  have himage := makes_image h (hle.trans (by decide))
  exact ⟨fun f hf => himage.finds hle hnames cwd hf, readsb_image himage, himage.bitmap⟩

/-- Both files are found, with their bytes. -/
theorem mkfs_kernel_agree_inputs : ∃ s, Makes [smallInput, longInput] s
    ∧ smallInput.contents = [1, 2, 3, 4, 5] ∧ Finds s.image 0 smallInput
    ∧ Finds s.image 0 longInput := by
  obtain ⟨s, hs⟩ := exists_makes_inputs
  have hnames : ProperNames [smallInput, longInput] := by
    constructor <;> decide
  obtain ⟨hfinds, -⟩ := mkfs_kernel_agree hs (by decide) hnames 0
  exact ⟨s, hs, rfl, hfinds _ (by simp), hfinds _ (by simp)⟩

end Agreement

end Mkfs

end Xv6
