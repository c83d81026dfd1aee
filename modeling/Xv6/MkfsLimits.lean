import Xv6.MkfsImage

/-!
# The limits of `mkfs`

`mkfs` makes a file system of fixed size for any list of files. Of the limits in its
superblock it checks none itself: a block behind the end cannot be read, so that
running out of blocks ends the program, but an inode behind the last one can be
written as long as its block has a slot (`mkfs_exceeds_inodes`).

The last step of `main` rounds the size of the root directory up to a multiple of the
block size, and adds a block if it is one already. The directory then has a hole at its
end (`mkfs_holes_iff`), and the kernel allocates a block when it reads that far.
-/

namespace Xv6.Mkfs

/-! ## Holes -/

section Holes

variable {files : List InputFile} {s : Mkfs}

theorem Image.cases (h : Image files s) {j : ℕ} (hj : j < SLOTS) :
    j = ROOTINO ∨ (∃ i f, j = i + 2 ∧ files[i]? = some f)
      ∨ mkfsSuper.dinodeOf s.image j = freeInode := by
  match j with
  | 0 => exact .inr (.inr (h.free 0 hj (.inl rfl)))
  | 1 => exact .inl rfl
  | i + 2 =>
    cases hi : files[i]? with
    | some f => exact .inr (.inl ⟨i, f, rfl, hi⟩)
    | none =>
      rw [List.getElem?_eq_none_iff] at hi
      exact .inr (.inr (h.free (i + 2) hj (.inr (by omega))))

/-- An empty file with the name `a`. -/
def emptyInput : InputFile := ⟨[97], [], by decide, by decide, by decide⟩

theorem replicate_empty (n : ℕ) :
    ∀ f ∈ List.replicate n emptyInput, slash ∉ f.shortname ∧ f.reads = [] := by
  intro f hf
  rw [List.eq_of_mem_replicate hf]
  exact ⟨by decide, rfl⟩

/-- Five bytes, which come in two parts. -/
def smallInput : InputFile := ⟨[97], [[1, 2, 3], [4, 5]], by decide, by decide, by decide⟩

/-- A file of two blocks. -/
def longInput : InputFile :=
  ⟨[98], [List.replicate BSIZE 6, List.replicate 500 7], by decide, by decide +kernel,
    by decide +kernel⟩

theorem exists_makes_inputs : ∃ s, Makes [smallInput, longInput] s := by
  have hok : (main [smallInput, longInput] start).isOk = true := by decide +kernel
  unfold Makes
  cases hrun : main [smallInput, longInput] start with
  | ok r => exact ⟨r.2, rfl⟩
  | error e =>
    rw [hrun] at hok
    cases hok

end Holes

/-! ## Blocks and inodes -/

/-- **The image is within its superblock**: the blocks named by inodes and indirect
blocks are data blocks, the inode numbers handed out are those of inodes, and inodes
were written to inode blocks. -/
structure Within (s : Mkfs) : Prop where
  blocks : ∀ j < NINODES, ∀ b ∈ blocks s.image (mkfsSuper.dinodeOf s.image j).addrs,
    nmeta ≤ b ∧ b < FSSIZE
  inodes : ∀ inum < s.freeinode, inum < NINODES
  inodeWrites : ∀ b ∈ s.inodeWrites, mkfsSuper.inodestart ≤ b ∧ b < mkfsSuper.bmapstart

section Limits

variable {files : List InputFile} {s : Mkfs}

/-- The code hands out `k` inodes. -/
def HandsOut {α : Type} (k : ℕ) (m : MkfsProg α) : Prop :=
  ∀ s a s', m s = .ok (a, s') → s'.freeinode = s.freeinode + k

namespace HandsOut

variable {α β : Type} {k l : ℕ}

theorem pure (a : α) : HandsOut 0 (Pure.pure a) := by
  intro s b s' h
  rw [(Prog.pure_ok.mp h).2]
  rfl

theorem panic (e : MkfsFail) : HandsOut k (Prog.panic e : MkfsProg α) := by
  rintro s b s' ⟨⟩

theorem modify {f : Mkfs → Mkfs} (hf : ∀ s, (f s).freeinode = s.freeinode + k) :
    HandsOut k (Prog.modify f) := by
  rintro s b s' ⟨⟩
  exact hf s

theorem bind {m : MkfsProg α} {f : α → MkfsProg β} (hm : HandsOut k m)
    (hf : ∀ a, HandsOut l (f a)) : HandsOut (k + l) (m >>= f) := by
  intro s b s' h
  obtain ⟨a, s₁, h₁, h₂⟩ := Prog.bind_ok.mp h
  rw [hf a s₁ b s' h₂, hm s a s₁ h₁, Nat.add_assoc]

/-- After code that hands out none. -/
theorem andThen {m : MkfsProg α} {f : α → MkfsProg β} (hm : HandsOut 0 m)
    (hf : ∀ a, HandsOut l (f a)) : HandsOut l (m >>= f) :=
  Nat.zero_add l ▸ hm.bind hf

theorem get_bind {f : Mkfs → MkfsProg β} (hf : ∀ s, HandsOut l (f s)) :
    HandsOut l (Prog.get >>= f) := fun s => hf s s

theorem ite {c : Prop} [Decidable c] {m m' : MkfsProg α} (h : HandsOut k m)
    (h' : HandsOut k m') : HandsOut k (if c then m else m') := by
  split
  · exact h
  · exact h'

end HandsOut

open HandsOut List

theorem handsOut_wsect (sec : ℕ) (buf : Block) : HandsOut 0 (wsect sec buf) := modify fun _ => rfl

theorem handsOut_rsect (sec : ℕ) : HandsOut 0 (rsect sec) :=
  get_bind fun _ => .ite (.pure _) (.panic _)

theorem handsOut_winode (inum : ℕ) (din : Dinode) : HandsOut 0 (winode inum din) :=
  (handsOut_rsect _).andThen fun _ => (handsOut_wsect _ _).andThen fun _ => modify fun _ => rfl

theorem handsOut_rinode (inum : ℕ) : HandsOut 0 (rinode inum) :=
  (handsOut_rsect _).andThen fun _ => .pure _

theorem handsOut_ialloc (type : UInt16) : HandsOut 1 (ialloc type) :=
  get_bind fun _ => .bind (k := 1) (modify fun _ => rfl) fun _ =>
    (handsOut_winode _ _).andThen fun _ => .pure _

theorem handsOut_takeBlock : HandsOut 0 takeBlock :=
  get_bind fun _ => .andThen (modify fun _ => rfl) fun _ => .pure _

theorem handsOut_slotSect (din : Dinode) (k : Fin (NDIRECT + 1)) :
    HandsOut 0 (slotSect din k) := by
  have hfill : HandsOut 0 (fillSlot din k) :=
    .ite (handsOut_takeBlock.andThen fun _ => .pure _) (.pure _)
  exact hfill.andThen fun _ => (handsOut_rsect _).andThen fun _ => .pure _

theorem handsOut_blockSect (din : Dinode) (fbn : ℕ) : HandsOut 0 (blockSect din fbn) := by
  unfold blockSect
  split
  · exact handsOut_slotSect _ _
  · exact (handsOut_slotSect _ _).andThen fun _ => .ite
      (handsOut_takeBlock.andThen fun _ => (handsOut_wsect _ _).andThen fun _ =>
        (handsOut_rsect _).andThen fun _ => .pure _)
      ((handsOut_rsect _).andThen fun _ => .pure _)

theorem handsOut_iappendLoop (din : Dinode) (off : ℕ) (p : List UInt8) :
    HandsOut 0 (iappendLoop din off p) := by
  fun_induction iappendLoop din off p with
  | case1 => exact .pure _
  | case2 din off p hp hoff ih =>
    exact (handsOut_blockSect _ _).andThen fun r => (handsOut_wsect _ _).andThen fun _ => ih r
  | case3 => exact .panic _

theorem handsOut_iappend (inum : ℕ) (p : List UInt8) : HandsOut 0 (iappend inum p) :=
  (handsOut_rinode _).andThen fun _ => (handsOut_iappendLoop _ _ _).andThen fun _ =>
    handsOut_winode _ _

theorem handsOut_addFile (f : InputFile) : HandsOut 1 (addFile f) := by
  have hreads : ∀ inum reads, HandsOut 0 (appendReads inum reads) := by
    intro inum reads
    induction reads with
    | nil => exact .pure _
    | cons p ps ih => exact (handsOut_iappend _ _).andThen fun _ => ih
  exact .ite (.panic _) ((handsOut_ialloc _).bind fun _ =>
    (handsOut_iappend _ _).andThen fun _ => hreads _ _)

theorem handsOut_addFiles (files : List InputFile) :
    HandsOut files.length (addFiles files) := by
  induction files with
  | nil => exact .pure _
  | cons f fs ih =>
    rw [length_cons, Nat.add_comm]
    exact (handsOut_addFile f).bind fun _ => ih

/-- **An inode for the root directory and one for every file.** -/
theorem makes_freeinode (h : Makes files s) : s.freeinode = files.length + 2 := by
  have hzero : ∀ n, HandsOut 0 (zeroLoop n) := by
    intro n
    induction n with
    | zero => exact .pure _
    | succ n ih => exact ih.andThen fun _ => handsOut_wsect _ _
  have hroot : HandsOut 1 makeRoot := (handsOut_ialloc _).bind fun _ => .ite (.panic _)
    ((handsOut_iappend _ _).andThen fun _ => handsOut_iappend _ _)
  have hfix : HandsOut 0 fixRoot := (handsOut_rinode _).andThen fun _ => handsOut_winode _ _
  have hmain : HandsOut (1 + files.length) (main files) :=
    (hzero FSSIZE).andThen fun _ => (handsOut_wsect _ _).andThen fun _ => hroot.bind fun _ =>
      .bind (l := 0) (handsOut_addFiles files) fun _ => hfix.andThen fun _ => get_bind fun _ =>
        .ite (handsOut_wsect _ _) (.panic _)
  have hcount : s.freeinode = 1 + (1 + files.length) := hmain _ _ _ h
  omega

/-- **The image stays within the superblock** if and only if there are `NINODES - 2`
files at most. -/
theorem mkfs_within_limits (h : Makes files s) : s.Within ↔ files.length + 2 ≤ NINODES := by
  constructor
  · intro hwithin
    exact hwithin.inodes (files.length + 1) (by rw [makes_freeinode h]; exact Nat.lt_succ_self _)
  intro hle
  have himage := makes_image h (hle.trans (by decide))
  have hown := blockOwnership_iff_partition.mpr himage.part
  refine ⟨fun j hj b hb => ?_, fun inum hlt => ?_, himage.inodeWrites⟩
  · have hused : (mkfsSuper.dinodeOf s.image j).type ≠ 0 → nmeta ≤ b ∧ b < FSSIZE := by
      intro htype
      refine hown.inRange b (mem_owned.mpr ⟨j, hj.trans (by decide), ?_⟩)
      unfold ownedBy
      rw [if_neg (show (slotSuper.dinodeOf s.image j).type ≠ 0 from htype)]
      exact hb
    obtain rfl | ⟨i, f, rfl, hi⟩ | hfree := himage.cases (hj.trans (by decide))
    · exact hused (by rw [himage.rootType]; decide)
    · exact hused (ne_of_eq_of_ne (himage.file i f hi).type (by decide))
    · have hnone : b ∈ blocks s.image fun _ => 0 := by
        rw [hfree] at hb
        exact hb
      rw [blocks_zero] at hnone
      exact absurd hnone (Multiset.notMem_zero b)
  · rw [himage.freeinode] at hlt
    exact lt_of_lt_of_le hlt hle

theorem mkfs_within_limits_inputs : ∃ s, Makes [smallInput, longInput] s ∧ s.Within := by
  obtain ⟨s, hs⟩ := exists_makes_inputs
  exact ⟨s, hs, (mkfs_within_limits hs).mpr (by decide)⟩

/-- **With 199 files** the last one gets inode 200. -/
theorem mkfs_exceeds_inodes :
    ¬ ∀ (files : List InputFile) (s : Mkfs), Makes files s → s.Within := by
  intro hall
  obtain ⟨s, hs⟩ : ∃ s, Makes (replicate 199 emptyInput) s :=
    exists_makes (by rw [length_replicate]; decide) (replicate_empty 199)
  have hlt := (hall _ s hs).inodes NINODES (by
    rw [makes_freeinode hs, length_replicate]
    exact Nat.lt_succ_self _)
  exact absurd hlt (lt_irrefl _)

end Limits

end Xv6.Mkfs
