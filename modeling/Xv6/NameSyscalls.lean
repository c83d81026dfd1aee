import Xv6.NameCalls

/-!
# The system calls keep the tree and the counts

The boundary of system calls: `Inv s` says that the references to inodes are
the current directories and the open files, that the descriptors of the
processes are what the open files count, and that the inodes form a tree.
Every call of every process keeps it (`code_spec`), and changes the inodes as
`Keeps` says, under conditions on its arguments and on the state it starts
from.
-/

open Function Multiset

namespace Xv6.Names

open Prog

/-- **What holds between two system calls.** -/
structure Inv (s : State) : Prop where
  held : Held s (cwds s) (descs s)
  base : Base s.inode (cwds s + fileInodes s)

variable {f : Fin NFILE}

section

variable {A B : Prop} {s : State} {own : Multiset ℕ} {fds : Multiset (Fin NFILE)}
variable {P : Panic → Prop} (hP : ∀ e, e ≠ .ilockNoType → P e)

theorem Left.inv {s' : State} (h : Left A B (cwds s) (descs s) s s') : Inv s' := by
  have hc : cwds s' = cwds s := by rw [cwds, cwds, h.task]
  have hd : descs s' = descs s := by rw [descs, descs, h.task]
  refine ⟨?_, ?_⟩
  · rw [hc, hd]
    exact h.held
  · rw [hc]
    exact h.base

/-! ## Processes -/

theorem cwds_setTask (p : Fin NPROC) (t : Option Task) :
    cwds (s.setTask p t) + taskCwd (s.task p) = cwds s + taskCwd t := by
  unfold cwds cwdsOf
  exact sum_update s.task p t taskCwd

theorem descs_setTask (p : Fin NPROC) (t : Option Task) :
    descs (s.setTask p t) + taskFds (s.task p) = descs s + taskFds t := by
  unfold descs descsOf
  exact sum_update s.task p t taskFds

/-- A process with one descriptor changed. -/
abbrev Task.withFd (t : Task) (fd : Fin NOFILE) (f : Option (Fin NFILE)) : Task :=
  { t with ofile := update t.ofile fd f }

theorem taskFds_update (t : Task) (fd : Fin NOFILE) (f : Option (Fin NFILE)) :
    taskFds (some (t.withFd fd f)) + (t.ofile fd).elim 0 ({·})
      = taskFds (some t) + f.elim 0 ({·}) :=
  sum_update t.ofile fd f fun f => f.elim (0 : Multiset (Fin NFILE)) ({·})

theorem mem_cwds {p : Fin NPROC} {t : Task} (ht : s.task p = some t) : t.cwd ∈ cwds s := by
  unfold cwds cwdsOf
  refine mem_sum.mpr ⟨p, Finset.mem_univ p, ?_⟩
  rw [ht]
  exact mem_singleton_self _

/-! ## Open files -/

theorem fileInodes_setFile (f : Fin NFILE) (v : OpenFile) :
    fileInodes (s.setFile f v) + (s.file f).holds = fileInodes s + v.holds := by
  unfold fileInodes inodesOf
  exact sum_update s.file f v OpenFile.holds

/-- A change of an open file, with the references that go with it. -/
theorem Held.setFile {own' : Multiset ℕ} {fds' : Multiset (Fin NFILE)}
    {v : OpenFile} (h : Held s own fds)
    (hown : own' + fileInodes (s.setFile f v) = own + fileInodes s)
    (href : v.ref = fds'.count f) (hfds : ∀ g, g ≠ f → fds'.count g = fds.count g)
    (htype : v.ref = 0 → v.type = .FD_NONE) : Held (s.setFile f v) own' fds' where
  ref i := by
    rw [hown]
    exact h.ref i
  fref g := by
    by_cases hg : g = f
    · rw [hg]
      exact (congrArg OpenFile.ref (update_self ..)).trans href
    · rw [hfds g hg, ← h.fref g]
      exact congrArg OpenFile.ref (update_of_ne hg ..)
  ftype g := by
    by_cases hg : g = f
    · subst hg
      have hv : (s.setFile g v).file g = v := update_self ..
      rw [hv]
      exact htype
    · have hv : (s.setFile f v).file g = s.file g := update_of_ne hg ..
      rw [hv]
      exact h.ftype g
  removed i hi hl := by
    rw [hown]
    exact h.removed i hi hl
  loaded := h.loaded

theorem Held.holds_unused (h : Held s own fds) (hf : (s.file f).ref = 0) :
    (s.file f).holds = 0 := by
  have htype := h.ftype f hf
  rw [OpenFile.holds, if_neg]
  rintro (h' | h')
  · rw [htype] at h'
    nomatch h'
  · rw [htype] at h'
    nomatch h'

theorem fileInodes_setRef (f : Fin NFILE) (r : ℕ) :
    fileInodes (s.setFile f { s.file f with ref := r }) = fileInodes s :=
  add_right_cancel (fileInodes_setFile f { s.file f with ref := r })

theorem Left.setRef {r : ℕ} {fds' : Multiset (Fin NFILE)}
    (hb : Base s.inode (own + fileInodes s)) (h : Held s own fds) (hr : r = fds'.count f)
    (hfds : ∀ g, g ≠ f → fds'.count g = fds.count g)
    (htype : r = 0 → (s.file f).type = .FD_NONE) :
    Left A B own fds' s (s.setFile f { s.file f with ref := r }) where
  held := h.setFile (by rw [fileInodes_setRef]) hr hfds htype
  base := by
    rw [fileInodes_setRef]
    exact hb
  keeps := Keeps.refl hb.tree
  task := rfl

include hP in
theorem filedup_spec (h : Held s own fds)
    (hb : Base s.inode (own + fileInodes s)) :
    Ends (filedup f) s P fun _ s' => Left A B own (f ::ₘ fds) s s' := by
  refine ends_bind (ends_get ?_)
  split
  · exact ends_panic (hP _ nofun)
  · refine ends_modify (Left.setRef hb h ?_ (fun g hg => count_cons_of_ne hg _)
      (fun h => absurd h (Nat.succ_ne_zero _)))
    rw [count_cons_self, h.fref]

include hP in
/-- **`fileclose` counts one less**, and the last one puts the inode. -/
theorem fileclose_spec (h : Held s own (f ::ₘ fds))
    (ha : ∀ j ∈ own + fileInodes s, (s.inode j).type ≠ .free) (T : Tree s.inode) :
    Ends (fileclose f) s P fun _ s' => Left A B own fds s s' := by
  have href : (s.file f).ref = fds.count f + 1 := by rw [h.fref, count_cons_self]
  have hrest : ∀ g, g ≠ f → fds.count g = (f ::ₘ fds).count g := fun g hg =>
    (count_cons_of_ne hg _).symm
  have hb : Base s.inode (own + fileInodes s) := ⟨ha, h.keep, T⟩
  refine ends_bind (ends_get ?_)
  split
  · exact ends_panic (hP _ nofun)
  split
  · exact ends_modify (Left.setRef hb h (by omega) hrest (fun h => by omega))
  rename_i hlast
  have hcount : fds.count f = 0 := by omega
  refine ends_bind (ends_modify ?_)
  set s₁ := s.setFile f { s.file f with ref := 0, type := .FD_NONE }
  have hfiles : fileInodes s₁ + (s.file f).holds = fileInodes s := by
    have hsum := fileInodes_setFile (s := s) f { s.file f with ref := 0, type := .FD_NONE }
    rw [hsum, OpenFile.holds, if_neg]
    · exact add_zero _
    · rintro (h' | h')
      · nomatch h'
      · nomatch h'
  have ha₁ : ∀ j ∈ own + fileInodes s₁, (s₁.inode j).type ≠ .free := by
    intro j hj
    refine ha j ?_
    rw [← hfiles, ← add_assoc]
    exact mem_add.mpr (.inl hj)
  split <;> rename_i htype
  · have hholds : (s.file f).holds = {(s.file f).ip} := if_pos htype
    rw [hholds] at hfiles
    have hh₁ : Held s₁ ((s.file f).ip ::ₘ own) fds := by
      refine h.setFile ?_ hcount.symm hrest (fun _ => rfl)
      rw [← hfiles, ← singleton_add]
      abel
    refine (iput_left (A := A) (B := B) hh₁ ha₁ T).mono (fun _ s₂ hs => ?_)
    exact ⟨hs.1.held, hs.1.base, hs.1.keeps, hs.1.task⟩
  · have hholds : (s.file f).holds = 0 := if_neg htype
    rw [hholds, add_zero] at hfiles
    have hh₁ : Held s₁ own fds :=
      h.setFile (by rw [hfiles]) hcount.symm hrest (fun _ => rfl)
    exact ends_pure ⟨hh₁, ⟨ha₁, hh₁.keep, T⟩, Keeps.refl T, rfl⟩

end

/-! ## Calls that leave the processes alone -/

section Calls

variable {A B : Prop} {s : State} {P : Panic → Prop} {p : Fin NPROC} {t : Task}
variable (hP : ∀ e, e ≠ .ilockNoType → P e) (hdangling : ¬ Sound s.inode → P .ilockNoType)
variable (hinv : Inv s) (ht : s.task p = some t)

/-- The directory that a path's last element is in is not a removed one. -/
def ParentLive (I : Inodes) (cwd : ℕ) (path : Option (List UInt8)) : Prop :=
  ∀ path' ∈ argstr path, ∀ r ∈ resolveParent I cwd path', (I r.1).nlink ≠ 0
  deriving Decidable

/-- The file that a path leads to can have one more link. -/
def LinkFits (I : Inodes) (cwd : ℕ) (path : Option (List UInt8)) : Prop :=
  ∀ path' ∈ argstr path, ∀ ip ∈ resolve I cwd path', (I ip).nlink + 1 < 2 ^ 15
  deriving Decidable

/-- A directory that a path leads to is not the parent of a removed one that
is still in use. -/
def NotParent (I : Inodes) (cwd : ℕ) (path : Option (List UInt8)) : Prop :=
  ∀ path' ∈ argstr path, ∀ r ∈ resolveParent I cwd path', ∀ ip ∈ lookup (I r.1).ents r.2,
    (I ip).type = .T_DIR →
      ∀ c < NINODES, (I c).type = .T_DIR → (I c).nlink = 0 → (I c).up ≠ ip

instance (I : Inodes) (cwd : ℕ) (path : Option (List UInt8)) :
    Decidable (NotParent I cwd path) := inferInstanceAs (Decidable (∀ _ ∈ _, _))

/-- What a call leaves that keeps the processes. -/
def Kept (A B : Prop) (s : State) (_ : ℤ) (s' : State) : Prop :=
  Left A B (cwds s) (descs s) s s'

theorem kept_refl (hinv : Inv s) (r : ℤ) : Kept A B s r s :=
  (Frame.refl s).left hinv.base hinv.held

variable {path : Option (List UInt8)} {room : Bool}

include hP hdangling hinv ht in
/-- Making a directory or a device. -/
theorem makeNode_spec {type : InodeType}
    {major minor : ℤ} (htype : type ≠ .free)
    (hlive : type = .T_DIR → ParentLive s.inode t.cwd path)
    (hA : A → ParentLive s.inode t.cwd path) :
    Ends (makeNode room t path type major minor) s P (Kept A B s) := by
  unfold makeNode
  cases harg : argstr path with
  | none => exact ends_pure (kept_refl hinv _)
  | some path' =>
    refine ends_bind ((create_spec (A := A) (B := B) hP hdangling hinv.held hinv.base (mem_cwds ht)
      htype (fun h dp name hr => hlive h path' harg (dp, name) hr)
      (fun h dp name hr => hA h path' harg (dp, name) hr)).mono (fun r s₁ hc => ?_))
    obtain ⟨-, hc⟩ := hc
    match r, hc with
    | none, hc => exact ends_pure hc
    | some ip, hc =>
      exact ends_bind (hc.put.mono fun _ _ hl => ends_pure hl)

include hP hdangling hinv ht in
/-- **`mkdir`.** -/
theorem sys_mkdir_spec
    (hlive : ParentLive s.inode t.cwd path) :
    Ends (sys_mkdir room t path) s P (Kept A B s) := by
  unfold sys_mkdir
  exact makeNode_spec hP hdangling hinv ht nofun (fun _ => hlive) (fun _ => hlive)

include hP hdangling hinv ht in
/-- **`mknod`.** -/
theorem sys_mknod_spec {major minor : ℤ}
    (hA : A → ParentLive s.inode t.cwd path) :
    Ends (sys_mknod room t path major minor) s P (Kept A B s) := by
  unfold sys_mknod
  exact makeNode_spec hP hdangling hinv ht nofun nofun hA

include hP hdangling hinv ht in
/-- **`unlink`.** -/
theorem sys_unlink_spec
    (hB : B → NotParent s.inode t.cwd path) :
    Ends (sys_unlink t path) s P (Kept A B s) := by
  unfold sys_unlink
  cases harg : argstr path with
  | none => exact ends_pure (kept_refl hinv _)
  | some path' =>
    refine nameiparent_ilock_spec hP hdangling hinv.held hinv.base (mem_cwds ht) path'
      (fun s₁ hf₁ hh₁ => ends_pure (hf₁.left hinv.base hh₁)) fun dp name s₂ hf02 hh₂ hdp hres => ?_
    have hend {s₃ : State} (hf : Frame s s₃) (hh : Held s₃ (dp ::ₘ cwds s) (descs s)) :
        Ends (iput dp >>= fun _ => (pure (-1) : NameProg ℤ)) s₃ P (Kept A B s) :=
      ends_bind ((iput_end hf hinv.base hh).mono (fun _ _ hs => ends_pure hs.1))
    split
    · exact hend hf02 hh₂
    rename_i hdots
    refine ends_bind ((dirlookup_spec (hP _ (by simp)) hh₂ (by rw [hf02.inode, hdp]) name).mono
      (fun r s₃ hr => ?_))
    obtain ⟨hf₃, hr⟩ := hr
    have hf03 := hf02.trans hf₃
    rw [hf02.inode] at hr
    cases r with
    | none => exact hend hf03 hr.1
    | some r =>
      obtain ⟨ip, k⟩ := r
      obtain ⟨hh₃, hfind, e, he, heip, hm⟩ := hr
      have hlook : lookup (s.inode dp).ents name = some ip := by
        rw [lookup, hfind, Option.bind_some, he, Option.map_some, heip]
      -- the name is neither of the dots, so the entry is one after them
      have hent := (hinv.base.tree.dots dp hdp).ents
      rw [hent] at hfind
      obtain ⟨j, e', rfl, he', -⟩ := findName_cons_cons
        (fun h => hdots (.inl ((namecmp_strncpy ..).mp h.2)))
        (fun h => hdots (.inr ((namecmp_strncpy ..).mp h.2))) hfind
      have hee : e' = e := by
        rw [hent] at he
        exact Option.some.inj (he'.symm.trans he)
      rw [hee] at he'
      subst heip
      refine ends_bind ((ilock_spec hh₃ (mem_cons_self ..) (fun hfree => ?_)).mono
        (fun _ s₄ hs₄ => ?_))
      · rw [hf03.inode] at hfree
        exact hdangling (fun hs => hs dp hdp e (List.mem_of_getElem? he) hm.1 hfree)
      obtain ⟨hf₄, hh₄, hv₄, hnf⟩ := hs₄
      have hf04 := hf03.trans hf₄
      rw [hf03.inode] at hnf
      have hnode : s₄.inode = s.inode := hf04.inode
      refine (unlinkEntry_spec (A := A) (B := B) hP hh₄ (hinv.base.of_frame hf04)
        (by rw [hnode, hdp]) (by rw [hnode]; exact he') hm.1 hv₄ (by rw [hnode]; exact hnf)
        (fun hB' => ?_)).mono (fun _ s' hl => hl.of_frame hf04)
      rw [hnode]
      intro hdir c hcd hcl
      exact hB hB' path' harg (dp, name) hres e.inum hlook hdir c
        (hinv.base.tree.lt hcd) hcd hcl

include hP hdangling hinv ht in
/-- **`link`.** -/
theorem sys_link_spec {old new : Option (List UInt8)}
    (hfits : LinkFits s.inode t.cwd old) (hA : A → ParentLive s.inode t.cwd new) :
    Ends (sys_link room t old new) s P (Kept A B s) := by
  unfold sys_link
  cases harg : argstr old with
  | none => exact ends_pure (kept_refl hinv _)
  | some old' =>
    cases harg' : argstr new with
    | none => exact ends_pure (kept_refl hinv _)
    | some new' =>
      refine namei_ilock_spec hP hdangling hinv.held hinv.base (mem_cwds ht) old'
        (fun s₁ hf₁ hh₁ => ends_pure (hf₁.left hinv.base hh₁)) fun ip s₂ hf02 hh₂ hnf hres => ?_
      refine ends_bind (ends_get ?_)
      split
      · exact ends_bind ((iput_end hf02 hinv.base hh₂).mono (fun _ _ hs => ends_pure hs.1))
      rename_i hdir
      rw [hf02.inode] at hdir
      have hov := hfits old' harg ip hres
      have hs := hinv.base.tree.short ip
      have hmore : { s₂.inode ip with nlink := short ((s₂.inode ip).nlink + 1) }
          = moreLink s.inode ip := by
        rw [hf02.inode, short_eq (by omega) hov]
        rfl
      refine ends_bind (ends_modify ?_)
      have hcode : s₂.setNode ip ((fun n : Node => { n with nlink := short (n.nlink + 1) })
          (s₂.inode ip)) = s₂.setNode ip (moreLink s.inode ip) :=
        congrArg (s₂.setNode ip) hmore
      rw [hcode]
      have hh₃ : Held (s₂.setNode ip (moreLink s.inode ip)) (ip ::ₘ cwds s) (descs s) := by
        refine hh₂.setNode hnf (fun hl => ?_)
        have hl' : (s.inode ip).nlink + 1 = 0 := hl
        omega
      refine linkTo_spec (A := A) (B := B) hP hinv.base hnf hdir hov hdangling (mem_cwds ht)
        ?_ hf02.file hf02.task hh₃ (fun hA' dp name hr => hA hA' new' harg' (dp, name) hr)
      show update s₂.inode ip _ = _
      rw [hf02.inode]

include hP hdangling hinv ht in
/-- The part of `exec` that finds the file. -/
theorem sys_exec_spec :
    Ends (sys_exec t path) s P (Kept A B s) := by
  unfold sys_exec
  cases argstr path with
  | none => exact ends_pure (kept_refl hinv _)
  | some path' =>
    exact namei_ilock_spec hP hdangling hinv.held hinv.base (mem_cwds ht) path'
      (fun s₁ hf₁ hh₁ => ends_pure (hf₁.left hinv.base hh₁)) fun ip s₂ hf₂ hh₂ _ _ =>
        ends_bind ((iput_end hf₂ hinv.base hh₂).mono fun _ _ hs => ends_pure hs.1)

/-! ## Calls that change the processes -/

/-- What a call leaves. -/
def Ended (A B : Prop) (s : State) (_ : ℤ) (s' : State) : Prop :=
  Inv s' ∧ Keeps A B s.inode s'.inode

theorem Left.kept {s' : State} (h : Left A B (cwds s) (descs s) s s') (r : ℤ) :
    Ended A B s r s' :=
  ⟨h.inv, h.keeps⟩

theorem Held.inv {s' : State} {own : Multiset ℕ} {fds : Multiset (Fin NFILE)}
    (h : Held s' own fds) (hb : Base s'.inode (own + fileInodes s')) (hc : cwds s' = own)
    (hd : descs s' = fds) : Inv s' := by
  subst hc hd
  exact ⟨h, hb⟩

theorem Held.setTask {own : Multiset ℕ} {fds : Multiset (Fin NFILE)} {t' : Option Task}
    (h : Held s own fds) : Held (s.setTask p t') own fds :=
  ⟨h.ref, h.fref, h.ftype, h.removed, h.loaded⟩

include hP hdangling hinv ht in
/-- **`chdir`.** -/
theorem sys_chdir_spec :
    Ends (sys_chdir p t path) s P (Ended A B s) := by
  unfold sys_chdir
  cases argstr path with
  | none => exact ends_pure ((kept_refl hinv 0).kept _)
  | some path' =>
    refine namei_ilock_spec hP hdangling hinv.held hinv.base (mem_cwds ht) path'
      (fun s₁ hf₁ hh₁ => ends_pure ((hf₁.left hinv.base hh₁).kept _)) fun ip s₂ hf02 hh₂ hnf _ => ?_
    refine ends_bind (ends_get ?_)
    split
    · exact ends_bind ((iput_end hf02 hinv.base hh₂).mono
        (fun _ _ hs => ends_pure (hs.1.kept _)))
    -- the reference to the old directory is dropped for the one to the new
    obtain ⟨rest, hrest⟩ := exists_cons_of_mem (mem_cwds ht)
    have hl₂ : Left A B (t.cwd ::ₘ ip ::ₘ rest) (descs s) s s₂ := by
      rw [cons_swap, ← hrest]
      exact hf02.left_cons hinv.base hnf hh₂
    refine ends_bind (hl₂.put.mono (fun _ s₃ hl => ?_))
    refine ends_bind (ends_modify (ends_pure ⟨?_, hl.keeps⟩))
    have htask : s₃.task p = some t := by rw [hl.task, ht]
    refine hl.held.setTask.inv hl.base ?_ ?_
    · have hsum := cwds_setTask (s := s₃) p (some { t with cwd := ip })
      have hold : cwds s₃ = t.cwd ::ₘ rest := by rw [← hrest, cwds, cwds, hl.task]
      rw [htask, hold] at hsum
      have h₁ : taskCwd (some t) = {t.cwd} := rfl
      have h₂ : taskCwd (some { t with cwd := ip }) = {ip} := rfl
      rw [h₁, h₂, ← singleton_add] at hsum
      rw [← singleton_add]
      refine add_right_cancel (b := {t.cwd}) (hsum.trans ?_)
      abel
    · have hsum := descs_setTask (s := s₃) p (some { t with cwd := ip })
      rw [htask] at hsum
      have hsame : taskFds (some { t with cwd := ip }) = taskFds (some t) := rfl
      rw [hsame] at hsum
      refine (add_right_cancel hsum).trans ?_
      rw [descs, descs, hl.task]

variable {s₁ : State}

theorem setFd_ok {fd : Fin NOFILE} {f : Option (Fin NFILE)}
    (ht₁ : s₁.task p = some t) :
    setFd p fd f s₁ = .ok ((), s₁.setTask p (some (t.withFd fd f))) := by
  show Except.ok ((), s₁.setTask p ((s₁.task p).map (·.withFd fd f))) = _
  rw [ht₁]
  rfl

theorem cwds_setFd (fd : Fin NOFILE) (f : Option (Fin NFILE))
    (ht₁ : s₁.task p = some t) :
    cwds (s₁.setTask p (some (t.withFd fd f))) = cwds s₁ := by
  have hsum := cwds_setTask (s := s₁) p (some (t.withFd fd f))
  rw [ht₁] at hsum
  exact add_right_cancel hsum

/-- One descriptor changes. -/
theorem descs_setFd (fd : Fin NOFILE) (f : Option (Fin NFILE))
    (ht₁ : s₁.task p = some t) :
    descs (s₁.setTask p (some (t.withFd fd f)))
      + (t.ofile fd).elim 0 ({·}) = descs s₁ + f.elim 0 ({·}) := by
  have hsum := descs_setTask (s := s₁) p (some (t.withFd fd f))
  have hfds := taskFds_update t fd f
  rw [ht₁] at hsum
  refine add_right_cancel (b := taskFds (some t)) ?_
  calc descs (s₁.setTask p (some (t.withFd fd f))) + (t.ofile fd).elim 0 ({·}) + taskFds (some t)
      = descs (s₁.setTask p (some (t.withFd fd f))) + taskFds (some t)
        + (t.ofile fd).elim 0 ({·}) := by abel
    _ = descs s₁ + (taskFds (some (t.withFd fd f))
        + (t.ofile fd).elim 0 ({·})) := by rw [hsum, add_assoc]
    _ = descs s₁ + f.elim 0 ({·}) + taskFds (some t) := by
        rw [hfds]
        abel

/-- A call that has given the process one more descriptor. -/
theorem Left.inv_withFd {s' : State} {own : Multiset ℕ} {fds : Multiset (Fin NFILE)}
    {fd : Fin NOFILE} (hl : Left A B own (f ::ₘ fds) (s₁.setTask p (some (t.withFd fd (some f)))) s')
    (ht₁ : s₁.task p = some t) (hfd : t.ofile fd = none) (hc : cwds s₁ = own)
    (hd : descs s₁ = fds) : Inv s' := by
  refine hl.held.inv hl.base ?_ ?_
  · rw [cwds, hl.task]
    exact (cwds_setFd fd (some f) ht₁).trans hc
  · have hdescs := descs_setFd fd (some f) ht₁
    rw [hfd] at hdescs
    rw [descs, hl.task, ← hd, ← singleton_add, add_comm]
    exact (add_zero _).symm.trans hdescs

/-- The first free descriptor. -/
theorem fdalloc_spec (ht₁ : s₁.task p = some t)
    {Q : Option (Fin NOFILE) → State → Prop} (hnone : Q none s₁)
    (hsome : ∀ fd, t.ofile fd = none → Q (some fd) (s₁.setTask p (some (t.withFd fd (some f))))) :
    Ends (fdalloc p f) s₁ P Q := by
  refine ends_bind (ends_get ?_)
  cases hfind : (List.finRange NOFILE).find? fun fd =>
      ((s₁.task p).bind fun t => t.ofile fd).isNone with
  | none => exact ends_pure hnone
  | some fd =>
    have hfree := List.find?_some hfind
    rw [ht₁] at hfree
    have hofile : t.ofile fd = none := Option.isNone_iff_eq_none.mp hfree
    exact ends_bind (ends_of_ok (setFd_ok ht₁) (ends_pure (hsome fd hofile)))

include hP hinv ht in
/-- **`close`.** -/
theorem sys_close_spec {fd : ℤ} : Ends (sys_close p t fd) s P (Ended A B s) := by
  unfold sys_close
  cases harg : argfd t fd with
  | none => exact ends_pure ((kept_refl hinv 0).kept _)
  | some r =>
    obtain ⟨fd', f⟩ := r
    have hofile : t.ofile fd' = some f := by
      unfold argfd at harg
      split at harg
      · obtain ⟨g, hg, hpair⟩ := Option.map_eq_some_iff.mp harg
        cases hpair
        exact hg
      · cases harg
    refine ends_bind (ends_of_ok (setFd_ok ht) ?_)
    have hdescs := descs_setFd fd' none ht
    rw [hofile] at hdescs
    have hh : Held (s.setTask p (some (t.withFd fd' none))) (cwds s)
        (f ::ₘ descs (s.setTask p (some (t.withFd fd' none)))) := by
      have hfds : f ::ₘ descs (s.setTask p (some (t.withFd fd' none))) = descs s := by
        rw [← singleton_add, add_comm]
        exact hdescs.trans (add_zero _)
      rw [hfds]
      exact hinv.held.setTask
    refine ends_bind ((fileclose_spec (A := A) (B := B) hP hh hinv.base.alloc
      hinv.base.tree).mono (fun _ s₁ hl => ends_pure ⟨?_, hl.keeps⟩))
    refine hl.held.inv hl.base ?_ ?_
    · rw [← cwds_setFd fd' none ht, cwds, cwds, hl.task]
    · rw [descs, descs, hl.task]

include hP hinv ht in
/-- **`dup`.** -/
theorem sys_dup_spec {fd : ℤ} : Ends (sys_dup p t fd) s P (Ended A B s) := by
  unfold sys_dup
  cases argfd t fd with
  | none => exact ends_pure ((kept_refl hinv 0).kept _)
  | some r =>
    obtain ⟨fd', f⟩ := r
    refine ends_bind (fdalloc_spec ht (ends_pure ((kept_refl hinv 0).kept _))
      (fun fd₁ hfree => ?_))
    refine ends_bind ((filedup_spec (A := A) (B := B) hP hinv.held.setTask hinv.base).mono
      (fun _ s₁ hl => ends_pure ⟨hl.inv_withFd ht hfree rfl rfl, hl.keeps⟩))

/-! ### `open` -/

/-- The references of the inode that is opened go over to the open file. -/
theorem openFill_spec {ip omode : ℕ} {own : Multiset ℕ}
    {fds : Multiset (Fin NFILE)} (hh : Held s₁ (ip ::ₘ own) (f ::ₘ fds))
    (hb : Base s₁.inode (ip ::ₘ own + fileInodes s₁)) (hholds : (s₁.file f).holds = 0) :
    Ends (openFill f ip omode) s₁ P fun _ s' => Left A B own (f ::ₘ fds) s₁ s' := by
  refine ends_bind (ends_get ?_)
  set v : OpenFile := { s₁.file f with
    type := if (s₁.inode ip).type = .T_DEVICE then .FD_DEVICE else .FD_INODE
    ip := ip } with hv
  have hvholds : v.holds = {ip} := by
    rw [OpenFile.holds, if_pos]
    rw [hv]
    dsimp only
    split
    · exact .inr rfl
    · exact .inl rfl
  have hown : own + fileInodes (s₁.setFile f v) = ip ::ₘ own + fileInodes s₁ := by
    have hsum := fileInodes_setFile (s := s₁) f v
    rw [hholds, hvholds, add_zero] at hsum
    rw [hsum, ← singleton_add]
    abel
  have href : v.ref = (f ::ₘ fds).count f := hh.fref f
  have hh₂ : Held (s₁.setFile f v) own (f ::ₘ fds) := by
    refine hh.setFile hown href (fun _ _ => rfl) (fun h0 => ?_)
    rw [href, count_cons_self] at h0
    exact absurd h0 (Nat.succ_ne_zero _)
  have hb₂ : Base (s₁.setFile f v).inode (own + fileInodes (s₁.setFile f v)) := by
    rw [hown]
    exact hb
  have hip : (s₁.inode ip).type ≠ .free := by
    refine hb.alloc ip ?_
    rw [cons_add]
    exact mem_cons_self ..
  refine ends_bind (ends_modify ?_)
  split
  · rename_i hc
    have hnd : (s₁.inode ip).type ≠ .T_DIR := by
      rw [hc.2]
      exact nofun
    have T := hb.tree
    have hbd := T.bound ip hip
    have hfl := T.fileLinks ip (by omega) hnd
    have hmem : ip ∈ own + fileInodes (s₁.setFile f v) := by
      rw [hown, cons_add]
      exact mem_cons_self ..
    have hh₃ : Held ((s₁.setFile f v).setNode ip { s₁.inode ip with size := 0 }) own
        (f ::ₘ fds) := hh₂.setNode hip (fun hl => hh₂.removed ip hip hl)
    have hT₃ : Tree (update s₁.inode ip { s₁.inode ip with size := 0 }) :=
      T.setFile hnd hnd hbd.1 hbd.2 (T.short ip) hfl
    refine ends_modify ⟨hh₃, ⟨fun j hj => ?_, hh₃.keep, hT₃⟩, ⟨hT₃, fun _ E => ?_, fun _ C => ?_⟩,
      rfl⟩
    · have hj' := hb₂.alloc j hj
      by_cases hji : j = ip
      · rw [hji]
        show (update s₁.inode ip _ ip).type ≠ _
        rw [update_self]
        exact hip
      · show (update s₁.inode ip _ j).type ≠ _
        rw [update_of_ne hji]
        exact hj'
    · exact E.setFile T hnd hnd (E.fileLinks ip (by omega) hnd)
    · exact C.setFile T hnd hnd
  · exact ends_pure ⟨hh₂, hb₂, Keeps.refl hb.tree, rfl⟩

include hP ht in
/-- Giving the inode a file and a descriptor. -/
theorem openFd_spec {ip omode : ℕ}
    (hl : Left A B (ip ::ₘ cwds s) (descs s) s s₁) :
    Ends (openFd p ip omode) s₁ P (Ended A B s) := by
  have hfail {s₂ : State} (hl₂ : Left A B (ip ::ₘ cwds s) (descs s) s s₂) :
      Ends (iput ip >>= fun _ => (pure (-1) : NameProg ℤ)) s₂ P (Ended A B s) :=
    ends_bind (hl₂.put.mono fun _ _ hl => ends_pure (hl.kept _))
  refine ends_bind (ends_get ?_)
  split
  · exact hfail hl
  refine ends_bind (ends_bind (ends_get ?_))
  cases hfind : (List.finRange NFILE).find? fun f => (s₁.file f).ref = 0 with
  | none => exact ends_pure (hfail hl)
  | some f =>
    have hsome := List.find?_some hfind
    have hfree : (s₁.file f).ref = 0 := of_decide_eq_true hsome
    have hcount : (descs s).count f = 0 := by rw [← hl.held.fref, hfree]
    have hl₂ : Left A B (ip ::ₘ cwds s) (f ::ₘ descs s) s₁
        (s₁.setFile f { s₁.file f with ref := 1 }) := by
      refine Left.setRef hl.base hl.held ?_ (fun g hg => count_cons_of_ne hg _)
        (fun h => absurd h one_ne_zero)
      rw [count_cons_self, hcount]
    have hholds : ((s₁.setFile f { s₁.file f with ref := 1 }).file f).holds = 0 := by
      show (update s₁.file f { s₁.file f with ref := 1 } f).holds = 0
      rw [update_self]
      exact hl.held.holds_unused hfree
    have ht₂ : (s₁.setFile f { s₁.file f with ref := 1 }).task p = some t := by
      rw [← ht, ← hl.task]
      rfl
    refine ends_bind (ends_modify (ends_pure (ends_bind (fdalloc_spec ht₂ ?_
      (fun fd hfd => ?_)))))
    · have hl₂' := hl.trans hl₂
      refine ends_bind ((fileclose_spec (A := A) (B := B) hP hl₂.held hl₂.base.alloc
        hl₂.base.tree).mono (fun _ s₃ hs => ?_))
      exact hfail (hl₂'.trans hs)
    · refine ends_bind ((openFill_spec (A := A) (B := B) hl₂.held.setTask hl₂.base
        hholds).mono (fun _ s₄ hs => ends_pure
          ⟨hs.inv_withFd ht₂ hfd ?_ ?_, hl.keeps.trans (hl₂.keeps.trans hs.keeps)⟩))
      · rw [cwds, cwds, hl₂.task, hl.task]
      · rw [descs, descs, hl₂.task, hl.task]

include hP hdangling hinv ht in
/-- The inode that `open` opens. -/
theorem openInode_spec {path : List UInt8} {omode : ℕ}
    (hA : A → omode &&& O_CREATE ≠ 0 → ∀ dp name,
      resolveParent s.inode t.cwd path = some (dp, name) → (s.inode dp).nlink ≠ 0) :
    Ends (openInode room t.cwd path omode) s P (Created A B (cwds s) (descs s) s) := by
  unfold openInode
  split
  · rename_i hcreate
    exact create_spec hP hdangling hinv.held hinv.base (mem_cwds ht) nofun
      nofun (fun h => hA h hcreate)
  · refine namei_ilock_spec hP hdangling hinv.held hinv.base (mem_cwds ht) path
      (fun s₁ hf₁ hh₁ => ends_pure ⟨hf₁.file, hf₁.left hinv.base hh₁⟩)
      fun ip s₂ hf02 hh₂ hnf _ => ?_
    refine ends_bind (ends_get ?_)
    split
    · exact ends_bind ((iput_end hf02 hinv.base hh₂).mono
        (fun _ _ hs => ends_pure ⟨hs.2, hs.1⟩))
    · exact ends_pure ⟨hf02.file, hf02.left_cons hinv.base hnf hh₂⟩

include hP hdangling hinv ht in
/-- **`open`.** -/
theorem sys_open_spec {omode : ℕ}
    (hA : A → omode &&& O_CREATE ≠ 0 → ParentLive s.inode t.cwd path) :
    Ends (sys_open room p t path omode) s P (Ended A B s) := by
  unfold sys_open
  cases harg : argstr path with
  | none => exact ends_pure ((kept_refl hinv 0).kept _)
  | some path' =>
    refine ends_bind ((openInode_spec (A := A) (B := B) hP hdangling hinv ht
      (fun h hc dp name hr => hA h hc path' harg (dp, name) hr)).mono (fun r s₁ hc => ?_))
    obtain ⟨-, hc⟩ := hc
    match r, hc with
    | none, hc => exact ends_pure (hc.kept _)
    | some ip, hc => exact openFd_spec hP ht hc

/-! ### `fork` and `exit` -/

/-- The files that some descriptors of a process stand for. -/
def fdFiles (t : Task) (l : List (Fin NOFILE)) : Multiset (Fin NFILE) :=
  (l.map fun fd => (t.ofile fd).elim 0 ({·})).sum

theorem fdFiles_finRange (t : Task) : fdFiles t (List.finRange NOFILE) = taskFds (some t) := by
  show _ = ∑ fd, (t.ofile fd).elim 0 ({·})
  rw [fdFiles, ← List.sum_ofFn, List.ofFn_eq_map]

theorem fdFiles_cons (t : Task) (fd : Fin NOFILE) (l : List (Fin NOFILE)) :
    fdFiles t (fd :: l) = (t.ofile fd).elim 0 ({·}) + fdFiles t l :=
  List.sum_cons

include hP in
/-- The descriptors of the new process are counted. -/
theorem forkFiles_spec {own : Multiset ℕ} {fds : Multiset (Fin NFILE)}
    (l : List (Fin NOFILE)) (h : Held s₁ own fds)
    (hb : Base s₁.inode (own + fileInodes s₁)) :
    Ends (forkFiles t l) s₁ P fun _ s' => Left A B own (fdFiles t l + fds) s₁ s' := by
  induction l generalizing s₁ fds with
  | nil =>
    refine ends_pure ((Frame.refl s₁).left hb ?_)
    show Held s₁ own (0 + fds)
    rw [zero_add]
    exact h
  | cons fd l ih =>
    rw [forkFiles, fdFiles_cons]
    cases hfd : t.ofile fd with
    | none =>
      rw [Option.elim_none, zero_add]
      exact ih h hb
    | some f =>
      refine ends_bind ((filedup_spec (A := A) (B := B) hP h hb).mono (fun _ s₂ hl => ?_))
      refine (ih hl.held hl.base).mono (fun _ s₃ hl' => ?_)
      have hfds : fdFiles t l + f ::ₘ fds = (some f).elim 0 ({·}) + fdFiles t l + fds := by
        rw [Option.elim_some, ← singleton_add]
        abel
      rw [← hfds]
      exact hl.trans hl'

include hP hinv ht in
/-- **`fork`.** -/
theorem fork_spec {child : Fin NPROC} : Ends (fork t child) s P (Ended A B s) := by
  refine ends_bind (ends_get ?_)
  split
  · exact ends_pure ((kept_refl hinv 0).kept _)
  rename_i hnone
  have hchild : s.task child = none := Option.not_isSome_iff_eq_none.mp hnone
  refine ends_bind ((forkFiles_spec (A := A) (B := B) hP (List.finRange NOFILE) hinv.held
    hinv.base).mono (fun _ s₁ hl => ?_))
  rw [fdFiles_finRange] at hl
  refine ends_bind ((idup_spec hl.held (mem_cwds ht)).mono (fun _ s₂ ⟨hf₂, hh₂⟩ => ?_))
  have hl₂ := hl.trans (hf₂.left_cons hl.base
    (hl.base.alloc _ (mem_add.mpr (.inl (mem_cwds ht)))) hh₂)
  have htask : s₂.task child = none := by rw [hl₂.task, hchild]
  refine ends_bind (ends_modify (ends_pure ⟨hl₂.held.setTask.inv hl₂.base ?_ ?_, hl₂.keeps⟩))
  · have hsum := cwds_setTask (s := s₂) child (some t)
    rw [htask] at hsum
    have hc : cwds s₂ = cwds s := by rw [cwds, cwds, hl₂.task]
    rw [← singleton_add, add_comm, ← hc]
    exact (add_zero _).symm.trans hsum
  · have hsum := descs_setTask (s := s₂) child (some t)
    rw [htask] at hsum
    have hd : descs s₂ = descs s := by rw [descs, descs, hl₂.task]
    rw [add_comm, ← hd]
    exact (add_zero _).symm.trans hsum

include hP in
/-- The descriptors of a process that ends are closed. -/
theorem exitFiles_spec {own : Multiset ℕ} {fds : Multiset (Fin NFILE)}
    (l : List (Fin NOFILE)) (h : Held s₁ own (fdFiles t l + fds))
    (ha : ∀ j ∈ own + fileInodes s₁, (s₁.inode j).type ≠ .free) (T : Tree s₁.inode) :
    Ends (exitFiles p t l) s₁ P fun _ s' => Held s' own fds ∧
      Base s'.inode (own + fileInodes s') ∧ Keeps A B s₁.inode s'.inode ∧
      ∀ q, q ≠ p → s'.task q = s₁.task q := by
  induction l generalizing s₁ with
  | nil =>
    refine ends_pure ⟨?_, ⟨ha, ?_, T⟩, Keeps.refl T, fun _ _ => rfl⟩
    · have h' : Held s₁ own (0 + fds) := h
      rw [zero_add] at h'
      exact h'
    · exact h.keep
  | cons fd l ih =>
    rw [exitFiles]
    rw [fdFiles_cons] at h
    cases hfd : t.ofile fd with
    | none =>
      rw [hfd, Option.elim_none, zero_add] at h
      exact ih h ha T
    | some f =>
      have hfds : (some f).elim 0 ({·}) + fdFiles t l + fds = f ::ₘ (fdFiles t l + fds) := by
        rw [Option.elim_some, add_assoc, singleton_add]
      rw [hfd, hfds] at h
      refine ends_bind ((fileclose_spec (A := A) (B := B) hP h ha T).mono (fun _ s₂ hl => ?_))
      refine ends_bind (ends_modify ?_)
      refine (ih hl.held.setTask hl.base.alloc hl.base.tree).mono (fun _ s₃ hs => ?_)
      obtain ⟨hh, hb, hk, htask⟩ := hs
      refine ⟨hh, hb, hl.keeps.trans hk, fun q hq => ?_⟩
      rw [htask q hq, ← hl.task]
      exact update_of_ne hq ..

include hP hinv ht in
/-- **`exit`.** -/
theorem exit_spec : Ends (exit p t) s P (Ended A B s) := by
  unfold exit
  split
  · exact ends_panic (hP _ nofun)
  -- what is left of the directories and descriptors without those of the process
  have hc := cwds_setTask (s := s) p none
  have hd := descs_setTask (s := s) p none
  rw [ht] at hc hd
  have hcwds : cwds s = t.cwd ::ₘ cwds (s.setTask p none) := by
    rw [← singleton_add, add_comm]
    exact (add_zero _).symm.trans hc.symm
  have hdescs : descs s = fdFiles t (List.finRange NOFILE) + descs (s.setTask p none) := by
    rw [fdFiles_finRange, add_comm]
    exact (add_zero _).symm.trans hd.symm
  have hh : Held s (cwds s) (fdFiles t (List.finRange NOFILE) + descs (s.setTask p none)) := by
    rw [← hdescs]
    exact hinv.held
  refine ends_bind ((exitFiles_spec (A := A) (B := B) hP (List.finRange NOFILE) hh
    hinv.base.alloc hinv.base.tree).mono (fun _ s₁ hs => ?_))
  obtain ⟨hh₁, hb₁, hk₁, htask₁⟩ := hs
  rw [hcwds] at hh₁ hb₁
  refine ends_bind ((iput_left (A := A) (B := B) hh₁ hb₁.uncons hb₁.tree).mono (fun _ s₂ hs => ?_))
  have htask₂ : (s₂.setTask p none).task = (s.setTask p none).task := by
    show update s₂.task p none = update s.task p none
    rw [hs.1.task]
    funext q
    by_cases hq : q = p
    · rw [hq, update_self, update_self]
    · rw [update_of_ne hq, update_of_ne hq, htask₁ q hq]
  refine ends_bind (ends_modify (ends_pure ⟨?_, hk₁.trans hs.1.keeps⟩))
  refine hs.1.held.setTask.inv hs.1.base ?_ ?_
  · rw [cwds, htask₂]
    rfl
  · rw [descs, htask₂]
    rfl

end Calls

/-! ## All calls -/

/-- What every call must keep to: a directory is not made in a removed one,
and a file does not get more links than can be counted. -/
def Call.Careful (s : State) (t : Task) : Call → Prop
  | .mkdir path => ParentLive s.inode t.cwd path
  | .link old _ => LinkFits s.inode t.cwd old
  | _ => True

/-- Nothing is made in a removed directory. -/
def Call.NothingLost (s : State) (t : Task) : Call → Prop
  | .open path omode => omode &&& O_CREATE ≠ 0 → ParentLive s.inode t.cwd path
  | .mknod path _ _ => ParentLive s.inode t.cwd path
  | .link _ new => ParentLive s.inode t.cwd new
  | _ => True

/-- No directory is removed that is the parent of a removed one. -/
def Call.ParentsStay (s : State) (t : Task) : Call → Prop
  | .unlink path => NotParent s.inode t.cwd path
  | _ => True

instance (s : State) (t : Task) (c : Call) : Decidable (c.Careful s t) := by
  cases c <;> unfold Call.Careful <;> infer_instance

instance (s : State) (t : Task) (c : Call) : Decidable (c.NothingLost s t) := by
  cases c <;> unfold Call.NothingLost <;> infer_instance

instance (s : State) (t : Task) (c : Call) : Decidable (c.ParentsStay s t) := by
  cases c <;> unfold Call.ParentsStay <;> infer_instance

/-- **What one system call does.** -/
theorem code_spec {s : State} {p : Fin NPROC} {t : Task} (hinv : Inv s)
    (ht : s.task p = some t) {c : Call} (hc : c.Careful s t) (room : Bool) :
    Ends (c.code room p t) s (NoDangling s.inode)
      (Ended (c.NothingLost s t) (c.ParentsStay s t) s) := by
  have hP : ∀ e, e ≠ .ilockNoType → NoDangling s.inode e := fun e he _ => he
  have hdangling : ¬ Sound s.inode → NoDangling s.inode .ilockNoType := fun hns hs =>
    absurd hs hns
  cases c with
  | «open» path omode => exact sys_open_spec hP hdangling hinv ht (fun h => h)
  | mkdir path =>
    exact (sys_mkdir_spec hP hdangling hinv ht hc).mono (fun r _ h => h.kept r)
  | mknod path major minor =>
    exact (sys_mknod_spec hP hdangling hinv ht (fun h => h)).mono (fun r _ h => h.kept r)
  | link old new =>
    exact (sys_link_spec hP hdangling hinv ht hc (fun h => h)).mono (fun r _ h => h.kept r)
  | unlink path =>
    exact (sys_unlink_spec hP hdangling hinv ht (fun h => h)).mono (fun r _ h => h.kept r)
  | chdir path => exact sys_chdir_spec hP hdangling hinv ht
  | close fd => exact sys_close_spec hP hinv ht
  | dup fd => exact sys_dup_spec hP hinv ht
  | exec path =>
    exact (sys_exec_spec hP hdangling hinv ht).mono (fun r _ h => h.kept r)
  | fork child => exact fork_spec hP hinv ht
  | exit => exact exit_spec hP hinv ht

end Xv6.Names
