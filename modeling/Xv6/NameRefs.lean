import Xv6.DirTree

/-!
# References to inodes and open files

Who refers to an inode: the processes by their current directories, the open
files, and while a system call runs, the call itself. `Held s own fds` says
that the counts are right: the references to inodes are `own` and those of
the open files, and the descriptors that share the open files are `fds`. At
the boundary of a system call `own` are the current directories and `fds` all
descriptors; inside a call both are more or less by what it holds.

`Held` also says what the counts are for. An inode without links that is not
free is still referred to, and was read to memory, so that the `iput` which
drops its last reference frees it.

The panic of `ilock` on a
free inode is treated apart from the others: it cannot happen as long as no
entry names a free inode (`Sound`).
-/

open Function Multiset

namespace Xv6.Names

open Prog

/-- The inode an open file refers to. -/
def OpenFile.holds (f : OpenFile) : Multiset ℕ :=
  if f.type = .FD_INODE ∨ f.type = .FD_DEVICE then {f.ip} else 0

/-- The inodes that open files refer to. -/
@[irreducible] def inodesOf (file : Fin NFILE → OpenFile) : Multiset ℕ := ∑ f, (file f).holds

/-- The inodes the open files of a state refer to. -/
def fileInodes (s : State) : Multiset ℕ := inodesOf s.file

/-- The current directory of a process. -/
def taskCwd : Option Task → Multiset ℕ
  | none => 0
  | some t => {t.cwd}

/-- The open files the descriptors of a process stand for. -/
def taskFds : Option Task → Multiset (Fin NFILE)
  | none => 0
  | some t => ∑ fd, (t.ofile fd).elim 0 ({·})

/-- The current directories of processes. -/
@[irreducible] def cwdsOf (task : Fin NPROC → Option Task) : Multiset ℕ :=
  ∑ p, taskCwd (task p)

/-- The descriptors of processes. -/
@[irreducible] def descsOf (task : Fin NPROC → Option Task) : Multiset (Fin NFILE) :=
  ∑ p, taskFds (task p)

/-- The current directories of all processes. -/
def cwds (s : State) : Multiset ℕ := cwdsOf s.task

/-- The descriptors of all processes. -/
def descs (s : State) : Multiset (Fin NFILE) := descsOf s.task

/-- **The reference counts are right**, and inodes without links are kept
for those who still use them. -/
structure Held (s : State) (own : Multiset ℕ) (fds : Multiset (Fin NFILE)) : Prop where
  ref : ∀ i, s.ref i = (own + fileInodes s).count i
  fref : ∀ f, (s.file f).ref = fds.count f
  ftype : ∀ f, (s.file f).ref = 0 → (s.file f).type = .FD_NONE
  removed : ∀ i, (s.inode i).type ≠ .free → (s.inode i).nlink = 0 →
    i ∈ own + fileInodes s ∧ s.valid i = true
  loaded : ∀ i, 0 < s.ref i → s.valid i = true → (s.inode i).type ≠ .free

/-- A change of references only. -/
structure Frame (s s' : State) : Prop where
  inode : s'.inode = s.inode
  file : s'.file = s.file
  task : s'.task = s.task

/-- No entry of a directory names a free inode. -/
def Sound (I : Inodes) : Prop :=
  ∀ d, (I d).type = .T_DIR → ∀ e ∈ (I d).ents, e.inum ≠ 0 → (I e.inum).type ≠ .free

/-- A panic that is not the one of a free inode, unless entries dangle. -/
def NoDangling (I : Inodes) (e : Panic) : Prop := Sound I → e ≠ .ilockNoType

theorem Frame.refl (s : State) : Frame s s := ⟨rfl, rfl, rfl⟩

theorem Frame.trans {s s₁ s₂ : State} (h : Frame s s₁) (h' : Frame s₁ s₂) : Frame s s₂ :=
  ⟨h'.inode.trans h.inode, h'.file.trans h.file, h'.task.trans h.task⟩

theorem Frame.fileInodes_eq {s s' : State} (h : Frame s s') : fileInodes s' = fileInodes s := by
  rw [fileInodes, fileInodes, h.file]

/-- **A tree in which all parents are live has no dangling entries.** -/
theorem Tree.sound {I : Inodes} (T : Tree I) (C : Closed I) : Sound I := by
  intro d hd e he hne
  have hdots := T.dots d hd
  rw [hdots.ents] at he
  rcases List.mem_cons.mp he with rfl | he
  · rw [hd]
    exact nofun
  · rcases List.mem_cons.mp he with rfl | he
    · have h := (C d hd).1
      rw [h]
      exact nofun
    · intro hfree
      have h := T.kid_links hd he hne
      rw [Node.links, if_pos hfree] at h
      exact absurd h (lt_irrefl 0)

/-! ## References to inodes -/

section Inodes

variable {s : State} {own : Multiset ℕ} {fds : Multiset (Fin NFILE)} {i : ℕ}
variable {P : Panic → Prop} (hP : P .iget)

theorem Held.ref_pos (h : Held s own fds) (hi : i ∈ own) : 0 < s.ref i := by
  rw [h.ref]
  exact count_pos.mpr (mem_add.mpr (.inl hi))

/-- **What becomes of one inode**: the others are as they were. -/
theorem Held.change {s' : State} {own' : Multiset ℕ} (h : Held s own fds)
    (hfile : s'.file = s.file)
    (hother : ∀ j, j ≠ i → s'.inode j = s.inode j ∧ s'.ref j = s.ref j ∧ s'.valid j = s.valid j)
    (hown : ∀ j, j ≠ i → own'.count j = own.count j)
    (href : s'.ref i = (own' + fileInodes s).count i)
    (hremoved : (s'.inode i).type ≠ .free → (s'.inode i).nlink = 0 →
      i ∈ own' + fileInodes s ∧ s'.valid i = true)
    (hloaded : 0 < s'.ref i → s'.valid i = true → (s'.inode i).type ≠ .free) :
    Held s' own' fds := by
  have hfiles : fileInodes s' = fileInodes s := by rw [fileInodes, fileInodes, hfile]
  have hcount j (hj : j ≠ i) :
      (own' + fileInodes s).count j = (own + fileInodes s).count j := by
    rw [count_add, count_add, hown j hj]
  refine ⟨fun j => ?_, by rw [hfile]; exact h.fref, by rw [hfile]; exact h.ftype,
    fun j hj hl => ?_, fun j hj hv => ?_⟩
  · rw [hfiles]
    by_cases hji : j = i
    · rw [hji, href]
    · rw [(hother j hji).2.1, hcount j hji, h.ref]
  · rw [hfiles]
    by_cases hji : j = i
    · subst hji
      exact hremoved hj hl
    · obtain ⟨hnode, -, hval⟩ := hother j hji
      rw [hnode] at hj hl
      rw [hval, ← count_pos, hcount j hji, count_pos]
      exact h.removed j hj hl
  · by_cases hji : j = i
    · subst hji
      exact hloaded hj hv
    · obtain ⟨hnode, hr, hval⟩ := hother j hji
      rw [hnode]
      exact h.loaded j (hr ▸ hj) (hval ▸ hv)

/-- One reference more to an inode that has some. -/
theorem Held.grabbed (h : Held s own fds) (hi : 0 < s.ref i) :
    Held (s.grabbed i) (i ::ₘ own) fds := by
  refine h.change rfl (fun _ hj => ⟨rfl, update_of_ne hj .., rfl⟩)
    (fun _ hj => count_cons_of_ne hj _) ?_ (fun hf hl => ?_) (fun _ => h.loaded i hi)
  · show update s.ref i (s.ref i + 1) i = _
    rw [update_self, h.ref, cons_add, count_cons_self]
  · exact ⟨mem_add.mpr (.inl (mem_cons_self ..)), (h.removed i hf hl).2⟩

/-- The first reference to an inode. -/
theorem Held.entered (h : Held s own fds) (hi : s.ref i = 0) :
    Held (s.entered i) (i ::ₘ own) fds := by
  have hval : (s.entered i).valid i = false := update_self ..
  refine h.change rfl (fun _ hj => ⟨rfl, update_of_ne hj .., update_of_ne hj ..⟩)
    (fun _ hj => count_cons_of_ne hj _) ?_ (fun hf hl => ?_) (fun _ hv => ?_)
  · show update s.ref i 1 i = _
    rw [update_self, cons_add, count_cons_self, ← h.ref, hi]
  · rw [h.ref] at hi
    exact absurd (h.removed i hf hl).1 (count_eq_zero.mp hi)
  · rw [hval] at hv
    cases hv

include hP in
theorem iget_spec (h : Held s own fds) :
    Ends (iget i) s P fun _ s' => Frame s s' ∧ Held s' (i ::ₘ own) fds := by
  refine ends_bind (ends_get ?_)
  split <;> rename_i hi
  · exact ends_modify ⟨⟨rfl, rfl, rfl⟩, h.grabbed hi⟩
  · split
    · exact ends_modify ⟨⟨rfl, rfl, rfl⟩, h.entered (by omega)⟩
    · exact ends_panic hP

theorem idup_spec (h : Held s own fds) (hi : i ∈ own) :
    Ends (idup i) s P fun _ s' => Frame s s' ∧ Held s' (i ::ₘ own) fds :=
  ends_modify ⟨⟨rfl, rfl, rfl⟩, h.grabbed (h.ref_pos hi)⟩

theorem Held.loadedNode (h : Held s own fds) (hi : (s.inode i).type ≠ .free) :
    Held (s.loaded i) own fds :=
  h.change rfl (fun _ hj => ⟨rfl, rfl, update_of_ne hj ..⟩) (fun _ _ => rfl) (h.ref i)
    (fun hf hl => ⟨(h.removed i hf hl).1, update_self ..⟩) (fun _ _ => hi)

/-- `ilock` reads the inode, which is not free – or there is the panic. -/
theorem ilock_spec (h : Held s own fds) (hi : i ∈ own)
    (hfree : (s.inode i).type = .free → P .ilockNoType) :
    Ends (ilock i) s P fun _ s' => Frame s s' ∧ Held s' own fds ∧ s'.valid i = true ∧
      (s.inode i).type ≠ .free := by
  have hpos := h.ref_pos hi
  refine ends_bind (ends_get ?_)
  rw [if_neg (by omega)]
  split
  · rename_i hv
    exact ends_pure ⟨Frame.refl s, h, hv, h.loaded i hpos hv⟩
  · split <;> rename_i hf
    · exact ends_panic (hfree hf)
    · exact ends_modify ⟨⟨rfl, rfl, rfl⟩, h.loadedNode hf, update_self .., hf⟩

/-- The inodes after one was freed. -/
def freedInode (I : Inodes) (i : ℕ) : Inodes :=
  update I i { I i with type := .free, size := 0, ents := [] }

theorem Held.ref_dropped (h : Held s (i ::ₘ own) fds) :
    update s.ref i (s.ref i - 1) i = (own + fileInodes s).count i := by
  rw [update_self, h.ref, cons_add, count_cons_self, Nat.add_sub_cancel]

/-- A reference dropped that was not the last to an inode without links. -/
theorem Held.dropped (h : Held s (i ::ₘ own) fds)
    (hkeep : (s.inode i).type ≠ .free → (s.inode i).nlink = 0 → i ∈ own + fileInodes s) :
    Held (s.dropped i) own fds :=
  h.change rfl (fun _ hj => ⟨rfl, update_of_ne hj .., rfl⟩)
    (fun _ hj => (count_cons_of_ne hj _).symm) h.ref_dropped
    (fun hf hl => ⟨hkeep hf hl, (h.removed i hf hl).2⟩)
    (fun _ => h.loaded i (h.ref_pos (mem_cons_self ..)))

/-- The last reference to an inode without links dropped, and the inode freed. -/
theorem Held.freedDropped (h : Held s (i ::ₘ own) fds) :
    Held ((s.freed i).dropped i) own fds := by
  have hnode : (((s.freed i).dropped i).inode i).type = .free := by
    show (update s.inode i _ i).type = .free
    rw [update_self]
  have hval : ((s.freed i).dropped i).valid i = false := update_self ..
  refine h.change rfl (fun _ hj => ⟨update_of_ne hj .., update_of_ne hj .., update_of_ne hj ..⟩)
    (fun _ hj => (count_cons_of_ne hj _).symm) h.ref_dropped (fun hf => absurd hnode hf)
    (fun _ hv => ?_)
  rw [hval] at hv
  cases hv

/-- **`iput` drops a reference**, and frees the inode if it was the last one
and there are no links. -/
theorem iput_spec (h : Held s (i ::ₘ own) fds) :
    Ends (iput i) s P fun _ s' => s'.file = s.file ∧ s'.task = s.task ∧ Held s' own fds ∧
      ((s'.inode = s.inode ∧ s'.valid = s.valid) ∨
        ((s.inode i).type ≠ .free ∧ (s.inode i).nlink = 0 ∧ i ∉ own + fileInodes s ∧
          s'.inode = freedInode s.inode i)) := by
  have href : s.ref i = (own + fileInodes s).count i + 1 := by
    rw [h.ref, cons_add, count_cons_self]
  have hcode : iput i s = (if s.ref i = 1 ∧ s.valid i = true ∧ (s.inode i).nlink = 0
      then .ok ((), (s.freed i).dropped i) else .ok ((), s.dropped i)) := by
    show (iputFree i >>= fun _ => modify (·.dropped i)) s = _
    have hfree : iputFree i s = (if s.ref i = 1 ∧ s.valid i = true ∧ (s.inode i).nlink = 0
        then .ok ((), s.freed i) else .ok ((), s)) := by
      show (if s.ref i = 1 ∧ s.valid i = true ∧ (s.inode i).nlink = 0
        then modify (·.freed i) else pure () : NameProg Unit) s = _
      split
      · rfl
      · rfl
    split <;> rename_i hc
    · rw [if_pos hc] at hfree
      rw [bind_of_ok hfree]
      rfl
    · rw [if_neg hc] at hfree
      rw [bind_of_ok hfree]
      rfl
  unfold Ends
  rw [hcode]
  split
  · rename_i a s' heq
    split at heq <;> rename_i hc
    · obtain ⟨rfl, rfl⟩ := Prod.mk.inj (Except.ok.inj heq)
      have hlast : i ∉ own + fileInodes s := count_eq_zero.mp (by omega)
      have hnf := h.loaded i (by omega) hc.2.1
      exact ⟨rfl, rfl, h.freedDropped, .inr ⟨hnf, hc.2.2, hlast, rfl⟩⟩
    · obtain ⟨rfl, rfl⟩ := Prod.mk.inj (Except.ok.inj heq)
      refine ⟨rfl, rfl, h.dropped (fun hj hl => ?_), .inl ⟨rfl, rfl⟩⟩
      by_contra hmem
      have hv := (h.removed i hj hl).2
      have hzero := count_eq_zero.mpr hmem
      exact hc ⟨by omega, hv, hl⟩
  · rename_i e heq
    split at heq
    · cases heq
    · cases heq

theorem iput_keep (h : Held s (i ::ₘ own) fds)
    (hkeep : (s.inode i).type ≠ .free → (s.inode i).nlink = 0 → i ∈ own + fileInodes s) :
    Ends (iput i) s P fun _ s' => Frame s s' ∧ Held s' own fds ∧ s'.valid = s.valid := by
  refine (iput_spec h).mono (fun _ s' ⟨hf, ht, hh, hor⟩ => ?_)
  rcases hor with ⟨hi, hv⟩ | ⟨hnf, hl, hlast, -⟩
  · exact ⟨⟨hi, hf, ht⟩, hh, hv⟩
  · exact absurd (hkeep hnf hl) hlast

end Inodes

/-! ## Looking up names -/

section Lookup

variable {s : State} {own : Multiset ℕ} {fds : Multiset (Fin NFILE)} {dp : ℕ}
variable {P : Panic → Prop} (hP : P .iget)

include hP in
/-- `dirlookup` gives a reference to the inode of the first entry with the name. -/
theorem dirlookup_spec (h : Held s own fds) (hdp : (s.inode dp).type = .T_DIR)
    (name : List UInt8) :
    Ends (dirlookup dp name) s P fun r s' => Frame s s' ∧
      match r with
      | none => Held s' own fds ∧ findName (s.inode dp).ents name = none
      | some (i, k) => Held s' (i ::ₘ own) fds ∧ findName (s.inode dp).ents name = some k ∧
          ∃ e, (s.inode dp).ents[k]? = some e ∧ e.inum = i ∧ e.Matches name := by
  refine ends_bind (ends_get ?_)
  rw [if_neg (fun h => h hdp)]
  cases hfind : findName (s.inode dp).ents name with
  | none => exact ends_pure ⟨Frame.refl s, h, rfl⟩
  | some k =>
    obtain ⟨e, he, hm⟩ := findName_some hfind
    have hget : ((s.inode dp).ents.getD k Dirent.zero).inum = e.inum := by
      rw [List.getD_eq_getElem?_getD, he]
      rfl
    dsimp only
    rw [hget]
    refine ends_bind ((iget_spec hP h).mono (fun _ s' hs => ends_pure ?_))
    exact ⟨hs.1, hs.2, rfl, e, he, rfl, hm⟩

end Lookup

/-! ## Paths

Where a path leads, as a fact about the inodes. -/

/-- Follow names from an inode. -/
def follow (I : Inodes) : ℕ → List (List UInt8) → Option ℕ
  | i, [] => some i
  | i, c :: cs =>
    if (I i).type = .T_DIR then (lookup (I i).ents (c.take DIRSIZ)).bind fun j => follow I j cs
    else none

/-- Follow all names but the last one, to a directory. -/
def followParent (I : Inodes) : ℕ → List (List UInt8) → Option (ℕ × List UInt8)
  | _, [] => none
  | i, [c] => if (I i).type = .T_DIR then some (i, c.take DIRSIZ) else none
  | i, c :: c' :: cs =>
    if (I i).type = .T_DIR then
      (lookup (I i).ents (c.take DIRSIZ)).bind fun j => followParent I j (c' :: cs)
    else none

/-- Where a path starts. -/
def pathStart (cwd : ℕ) (path : List UInt8) : ℕ :=
  if path.head? = some slash then ROOTINO else cwd

/-- The inode of a path. -/
def resolve (I : Inodes) (cwd : ℕ) (path : List UInt8) : Option ℕ :=
  follow I (pathStart cwd path) (components path)

/-- The directory of a path's last element, and that element. -/
def resolveParent (I : Inodes) (cwd : ℕ) (path : List UInt8) : Option (ℕ × List UInt8) :=
  followParent I (pathStart cwd path) (components path)

/-- What walking a path from an inode leads to. -/
def walked (I : Inodes) (parent : Bool) (i : ℕ) (cs : List (List UInt8)) :
    Option (ℕ × List UInt8) :=
  if parent then followParent I i cs else (follow I i cs).map fun j => (j, [])

section Paths

variable {I : Inodes} {parent : Bool} {i : ℕ} {c : List UInt8} {cs : List (List UInt8)}

theorem walked_nil : walked I parent i [] = if parent then none else some (i, []) := by
  cases parent
  · rfl
  · rfl

theorem walked_of_not_dir (h : (I i).type ≠ .T_DIR) : walked I parent i (c :: cs) = none := by
  cases parent
  · simp [walked, follow, h]
  · cases cs with
    | nil => simp [walked, followParent, h]
    | cons c' cs => simp [walked, followParent, h]

theorem walked_last (h : (I i).type = .T_DIR) :
    walked I true i [c] = some (i, c.take DIRSIZ) := by
  simp [walked, followParent, h]

theorem walked_cons (h : (I i).type = .T_DIR) (hgo : ¬ (parent = true ∧ cs = [])) :
    walked I parent i (c :: cs)
      = (lookup (I i).ents (c.take DIRSIZ)).bind fun j => walked I parent j cs := by
  cases parent
  · simp only [walked, follow, h, if_true, Bool.false_eq_true, if_false]
    cases lookup (I i).ents (c.take DIRSIZ)
    · rfl
    · rfl
  · cases cs with
    | nil => exact absurd ⟨rfl, rfl⟩ hgo
    | cons c' cs => simp [walked, followParent, h]

theorem followParent_dir {j : ℕ} {name : List UInt8}
    (h : followParent I i cs = some (j, name)) : (I j).type = .T_DIR := by
  fun_induction followParent I i cs with
  | case1 => cases h
  | case2 i c hd =>
    obtain ⟨rfl, -⟩ := Prod.mk.inj (Option.some.inj h)
    exact hd
  | case3 => cases h
  | case4 i c c' cs hd ih =>
    obtain ⟨k, -, hk⟩ := Option.bind_eq_some_iff.mp h
    exact ih k hk
  | case5 => cases h

end Paths

section Walk

variable {own : Multiset ℕ} {fds : Multiset (Fin NFILE)} {I : Inodes} {F : Multiset ℕ}
variable {P : Panic → Prop} (hP : P .iget)
variable (hdangling : ¬ Sound I → P .ilockNoType)
variable (hkeep : ∀ j, (I j).type ≠ .free → (I j).nlink = 0 → j ∈ own + F)

/-- What a walk ends in: the reference to where it started is turned into
one to where it leads, or dropped. -/
def Walked (own : Multiset ℕ) (fds : Multiset (Fin NFILE)) (s : State)
    (w : Option (ℕ × List UInt8)) (r : Option (ℕ × List UInt8)) (s' : State) : Prop :=
  Frame s s' ∧ r = w ∧
    match r with
    | none => Held s' own fds
    | some (j, _) => Held s' (j ::ₘ own) fds ∧ (Sound s.inode → (s.inode j).type ≠ .free)

theorem Walked.of_frame {s₀ s s' : State} {w r : Option (ℕ × List UInt8)}
    (hf : Frame s₀ s) (h : Walked own fds s w r s') : Walked own fds s₀ w r s' := by
  obtain ⟨hf', hr, hm⟩ := h
  refine ⟨hf.trans hf', hr, ?_⟩
  rw [hf.inode] at hm
  exact hm

include hP hdangling hkeep in
/-- **Walking a path.** The induction is on the fuel, which the length of the
path stays below. -/
theorem namexLoop_spec (parent : Bool) (fuel : ℕ) {s : State} {i : ℕ} {path : List UInt8}
    (hfuel : path.length < fuel) (h : Held s (i ::ₘ own) fds) (hI : s.inode = I)
    (hF : fileInodes s = F) (hi : Sound I → (I i).type ≠ .free) :
    Ends (namexLoop parent fuel i path) s P
      (Walked own fds s (walked I parent i (components path))) := by
  induction fuel generalizing s i path with
  | zero => exact absurd hfuel (Nat.not_lt_zero _)
  | succ fuel ih =>
    have hput {s' : State} (hf : Frame s s') (hh : Held s' (i ::ₘ own) fds) :
        Ends (iput i) s' P fun _ s'' => Frame s s'' ∧ Held s'' own fds := by
      refine (iput_keep hh (fun hnf hl => ?_)).mono (fun _ s'' hs => ⟨hf.trans hs.1, hs.2.1⟩)
      rw [hf.inode, hI] at hnf hl
      rw [hf.fileInodes_eq, hF]
      exact hkeep i hnf hl
    have hstop {s' : State} {w : Option (ℕ × List UInt8)} (hw : w = none) (hf : Frame s s')
        (hh : Held s' (i ::ₘ own) fds) :
        Ends (iput i >>= fun _ => (pure none : NameProg (Option (ℕ × List UInt8)))) s' P
          (Walked own fds s w) := by
      refine ends_bind ((hput hf hh).mono (fun _ s'' hs => ends_pure ?_))
      exact ⟨hs.1, hw.symm, hs.2⟩
    rw [namexLoop]
    cases hskip : skipelem path with
    | none =>
      dsimp only
      rw [skipelem_none hskip, walked_nil]
      cases parent with
      | true => exact hstop rfl (Frame.refl s) h
      | false => exact ends_pure ⟨Frame.refl s, rfl, h, hI ▸ hi⟩
    | some r =>
      obtain ⟨rest, name⟩ := r
      obtain ⟨c, hcomp, hname, hlen, hrest⟩ := skipelem_some hskip
      dsimp only
      rw [hcomp]
      refine ends_bind ((ilock_spec h (mem_cons_self i own) (fun hfree => ?_)).mono
        (fun _ s₁ ⟨hf₁, hh₁, _⟩ => ?_))
      · exact hdangling (fun hs => hi hs (hI ▸ hfree))
      · refine ends_bind (ends_get ?_)
        have hI₁ : s₁.inode = I := hf₁.inode.trans hI
        split
        · rename_i hnd
          rw [hI₁] at hnd
          exact hstop (walked_of_not_dir hnd) hf₁ hh₁
        · rename_i hd
          have hdir : (s₁.inode i).type = .T_DIR := not_not.mp hd
          have hdirI : (I i).type = .T_DIR := by
            rw [← hI₁]
            exact hdir
          split
          · rename_i hlast
            obtain ⟨rfl, rfl⟩ := hlast
            rw [hrest.mp rfl, walked_last hdirI]
            refine ends_pure ⟨hf₁, by rw [hname], hh₁, hI ▸ hi⟩
          · rename_i hgo
            have hgo' : ¬ (parent = true ∧ components rest = []) := fun hc =>
              hgo ⟨hc.1, hrest.mpr hc.2⟩
            rw [walked_cons hdirI hgo', ← hname]
            refine ends_bind ((dirlookup_spec hP hh₁ hdir name).mono (fun r s₂ hr => ?_))
            obtain ⟨hf₂, hr⟩ := hr
            rw [hI₁] at hr
            match r, hr with
            | none, ⟨hh₂, hnone⟩ =>
              refine hstop ?_ (hf₁.trans hf₂) hh₂
              rw [lookup, hnone]
              rfl
            | some (next, k), ⟨hh₂, hfind, e, he, hnext, hm⟩ =>
              have hlook : lookup (I i).ents name = some next := by
                rw [lookup, hfind, Option.bind_some, he, Option.map_some, hnext]
              rw [hlook, Option.bind_some]
              have hh₂' : Held s₂ (i ::ₘ next ::ₘ own) fds := by
                rw [cons_swap]
                exact hh₂
              have hf02 := hf₁.trans hf₂
              refine ends_bind ((iput_keep hh₂' (fun hnf hl => ?_)).mono
                (fun _ s₃ ⟨hf₃, hh₃, _⟩ => ?_))
              · rw [hf02.inode, hI] at hnf hl
                rw [hf02.fileInodes_eq, hF, cons_add]
                exact mem_cons_of_mem (hkeep i hnf hl)
              · have hf03 := hf02.trans hf₃
                refine (ih (by omega) hh₃ (hf03.inode.trans hI) (hf03.fileInodes_eq.trans hF)
                  (fun hs => ?_)).mono (fun r s' hw => hw.of_frame hf03)
                rw [← hnext]
                exact hs i hdirI e (List.mem_of_getElem? he) hm.1

end Walk

/-- An inode that is referred to and has no links is kept by those who refer
to it. -/
theorem Held.keep {s : State} {own : Multiset ℕ} {fds : Multiset (Fin NFILE)}
    (h : Held s own fds) (j : ℕ) (hj : (s.inode j).type ≠ .free) (hl : (s.inode j).nlink = 0) :
    j ∈ own + fileInodes s :=
  (h.removed j hj hl).1

/-- **Finding the inode of a path**, or of its parent. -/
theorem namex_spec {s : State} {own : Multiset ℕ} {fds : Multiset (Fin NFILE)} {cwd : ℕ}
    {P : Panic → Prop} (hP : P .iget)
    (hdangling : ¬ Sound s.inode → P .ilockNoType) (h : Held s own fds) (hcwd : cwd ∈ own)
    (hcwdnf : (s.inode cwd).type ≠ .free) (hroot : (s.inode ROOTINO).type ≠ .free)
    (parent : Bool) (path : List UInt8) :
    Ends (namex cwd parent path) s P (Walked own fds s
      (walked s.inode parent (pathStart cwd path) (components path))) := by
  have hloop {s₁ : State} {i : ℕ} (hf : Frame s s₁) (hh : Held s₁ (i ::ₘ own) fds)
      (hi : (s.inode i).type ≠ .free) :
      Ends (namexLoop parent (path.length + 1) i path) s₁ P
        (Walked own fds s (walked s.inode parent i (components path))) :=
    (namexLoop_spec hP hdangling h.keep parent _ (Nat.lt_succ_self _) hh hf.inode
      hf.fileInodes_eq (fun _ => hi)).mono (fun r s' hw => hw.of_frame hf)
  unfold namex pathStart
  split
  · exact ends_bind ((iget_spec hP h).mono (fun _ s₁ hs => hloop hs.1 hs.2 hroot))
  · exact ends_bind ((idup_spec h hcwd).mono (fun _ s₁ hs => hloop hs.1 hs.2 hcwdnf))

end Xv6.Names
