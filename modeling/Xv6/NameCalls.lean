import Xv6.NameRefs

/-!
# What the system calls on names do

Each system call is specified by the references it holds and by what it
makes of the tree. `Base I M` is what a call finds and leaves: the inodes
`I` form a tree, those referred to (`M`) are allocated, and those without
links are referred to. `Keeps A B I I'` is what its changes of the inodes
come to: the tree stays one; the links stay exact, provided that `A`; and
the parents of directories stay live, provided that `B`. Which `A` and `B`
a call needs is said where they are used.
-/

open Function Multiset

namespace Xv6.Names

open Prog

/-- The inodes form a tree, those referred to are allocated, and those that
have no links and are not free are referred to. -/
structure Base (I : Inodes) (M : Multiset ℕ) : Prop where
  alloc : ∀ j ∈ M, (I j).type ≠ .free
  keep : ∀ j, (I j).type ≠ .free → (I j).nlink = 0 → j ∈ M
  tree : Tree I

/-- What a change of the inodes keeps. -/
structure Keeps (A B : Prop) (I I' : Inodes) : Prop where
  tree : Tree I'
  exact : A → Exact I → Exact I'
  closed : B → Closed I → Closed I'

theorem Keeps.refl {A B : Prop} {I : Inodes} (T : Tree I) : Keeps A B I I :=
  ⟨T, fun _ h => h, fun _ h => h⟩

theorem Keeps.trans {A B : Prop} {I I₁ I₂ : Inodes} (h : Keeps A B I I₁)
    (h' : Keeps A B I₁ I₂) : Keeps A B I I₂ :=
  ⟨h'.tree, fun hA hE => h'.exact hA (h.exact hA hE),
    fun hB hC => h'.closed hB (h.closed hB hC)⟩

section

variable {A B : Prop} {s : State} {own : Multiset ℕ} {fds : Multiset (Fin NFILE)} {i : ℕ}
variable {P : Panic → Prop} (hP : ∀ e, e ≠ .ilockNoType → P e)

/-- What a call leaves, of the references it started with. -/
structure Left (A B : Prop) (own : Multiset ℕ) (fds : Multiset (Fin NFILE)) (s s' : State) :
    Prop where
  held : Held s' own fds
  base : Base s'.inode (own + fileInodes s')
  keeps : Keeps A B s.inode s'.inode
  task : s'.task = s.task

theorem Left.trans {own' : Multiset ℕ} {fds' : Multiset (Fin NFILE)} {s₁ s₂ : State}
    (h : Left A B own' fds' s s₁) (h' : Left A B own fds s₁ s₂) : Left A B own fds s s₂ :=
  ⟨h'.held, h'.base, h.keeps.trans h'.keeps, h'.task.trans h.task⟩

theorem Frame.left {s' : State} (hf : Frame s s') (hb : Base s.inode (own + fileInodes s))
    (hh : Held s' own fds) : Left A B own fds s s' where
  held := hh
  base := by
    rw [hf.inode, hf.fileInodes_eq]
    exact hb
  keeps := by
    rw [hf.inode]
    exact Keeps.refl hb.tree
  task := hf.task

theorem Left.of_frame {s₁ s₂ : State} (hf : Frame s s₁) (h : Left A B own fds s₁ s₂) :
    Left A B own fds s s₂ where
  held := h.held
  base := h.base
  keeps := by
    rw [← hf.inode]
    exact h.keeps
  task := h.task.trans hf.task

theorem Base.of_frame {M : Multiset ℕ} {s' : State} (hf : Frame s s')
    (hb : Base s.inode (M + fileInodes s)) : Base s'.inode (M + fileInodes s') := by
  rw [hf.inode, hf.fileInodes_eq]
  exact hb

theorem dir_alloc {n : Node} (h : n.type = .T_DIR) : n.type ≠ .free := by
  rw [h]
  exact nofun

theorem Base.cons {I : Inodes} {M : Multiset ℕ} (hb : Base I M) (hi : (I i).type ≠ .free) :
    Base I (i ::ₘ M) where
  alloc j hj := by
    rcases mem_cons.mp hj with rfl | hj
    · exact hi
    · exact hb.alloc j hj
  keep j hj hl := mem_cons_of_mem (hb.keep j hj hl)
  tree := hb.tree

theorem Base.uncons {I : Inodes} {M N : Multiset ℕ} (hb : Base I (i ::ₘ M + N)) (j : ℕ)
    (hj : j ∈ M + N) : (I j).type ≠ .free := by
  refine hb.alloc j ?_
  rw [cons_add]
  exact mem_cons_of_mem hj

theorem Frame.left_cons {s' : State} (hf : Frame s s') (hb : Base s.inode (own + fileInodes s))
    (hi : (s.inode i).type ≠ .free) (hh : Held s' (i ::ₘ own) fds) :
    Left A B (i ::ₘ own) fds s s' := by
  refine hf.left ?_ hh
  rw [cons_add]
  exact hb.cons hi

/-- A file or new inode is referred to, and the directory that names it
changes. -/
theorem Base.relinked {I : Inodes} {M : Multiset ℕ} {dp : ℕ} {n m : Node} (hb : Base I M)
    (hdp : (I dp).type ≠ .free) (hn : n.type ≠ .free) (hm : m.type ≠ .free)
    (hml : m.nlink = 0 → (I dp).nlink = 0) (T : Tree (relinked I i n dp m)) :
    Base (relinked I i n dp m) (i ::ₘ M) where
  alloc := relinked_cases (C := fun j n => j ∈ i ::ₘ M → n.type ≠ .free) (fun _ => hm)
    (fun _ _ => hn) fun j _ hji hj => hb.alloc j ((mem_cons.mp hj).resolve_left hji)
  keep j hj hl := by
    by_cases hji : j = i
    · rw [hji]
      exact mem_cons_self ..
    refine mem_cons_of_mem ?_
    by_cases hjd : j = dp
    · rw [hjd, relinked_dir] at hl
      rw [hjd]
      exact hb.keep dp hdp (hml hl)
    · rw [relinked_of_ne hjd hji] at hj hl
      exact hb.keep j hj hl
  tree := T

/-- **Dropping a reference**: the inode is freed if nothing is left of it,
and the tree stays. -/
theorem iput_left (h : Held s (i ::ₘ own) fds)
    (ha : ∀ j ∈ own + fileInodes s, (s.inode j).type ≠ .free) (T : Tree s.inode) :
    Ends (iput i) s P fun _ s' => Left A B own fds s s' ∧ s'.file = s.file := by
  refine (iput_spec h).mono (fun _ s' ⟨hfile, htask, hh, hor⟩ => ⟨?_, hfile⟩)
  have hfiles : fileInodes s' = fileInodes s := by rw [fileInodes, fileInodes, hfile]
  rcases hor with ⟨hI, -⟩ | ⟨hnf, hl, hlast, hI⟩
  · refine ⟨hh, ⟨?_, hh.keep, ?_⟩, ?_, htask⟩
    · rw [hI, hfiles]
      exact ha
    · rw [hI]
      exact T
    · rw [hI]
      exact Keeps.refl T
  · refine ⟨hh, ⟨?_, hh.keep, ?_⟩, ?_, htask⟩
    · rw [hI, hfiles]
      intro j hj
      have hji : j ≠ i := by
        rintro rfl
        exact hlast hj
      rw [freedInode, update_of_ne hji]
      exact ha j hj
    · rw [hI]
      exact T.free hnf hl rfl hl
    · rw [hI]
      exact ⟨T.free hnf hl rfl hl, fun _ E => E.free T hnf hl rfl, fun _ C => C.free hl rfl⟩

/-- A call that is done with an inode. -/
theorem Left.put {s₁ : State} (h : Left A B (i ::ₘ own) fds s s₁) :
    Ends (iput i) s₁ P fun _ s' => Left A B own fds s s' :=
  (iput_left h.held h.base.uncons h.base.tree).mono fun _ _ hs => h.trans hs.1

theorem iput_end {s₁ : State} (hf : Frame s s₁) (hb : Base s.inode (own + fileInodes s))
    (hh : Held s₁ (i ::ₘ own) fds) :
    Ends (iput i) s₁ P fun _ s' => Left A B own fds s s' ∧ s'.file = s.file :=
  (iput_left (A := A) (B := B) hh (hb.of_frame hf).alloc (hb.of_frame hf).tree).mono
    (fun _ _ hs => ⟨hs.1.of_frame hf, hs.2.trans hf.file⟩)

theorem iput_base (h : Held s (i ::ₘ own) fds) (hb : Base s.inode (own + fileInodes s)) :
    Ends (iput i) s P fun _ s' => Frame s s' ∧ Held s' own fds ∧ s'.valid = s.valid :=
  iput_keep h (hb.keep i)

/-! ## Changing an inode -/

/-- An inode that stays allocated is changed. -/
theorem Held.setNode {n : Node} (h : Held s own fds) (hn : n.type ≠ .free)
    (hl : n.nlink = 0 → i ∈ own + fileInodes s ∧ s.valid i = true) :
    Held (s.setNode i n) own fds := by
  have hnode : (s.setNode i n).inode i = n := update_self ..
  refine h.change rfl (fun _ hj => ⟨update_of_ne hj .., rfl, rfl⟩) (fun _ _ => rfl) (h.ref i) ?_ ?_
  · rw [hnode]
    exact fun _ => hl
  · rw [hnode]
    exact fun _ _ => hn

/-- A new entry is written to the first free place. -/
theorem dirlinkWrite_spec (hP : ∀ e, e ≠ .ilockNoType → P e) {room : Bool} {dp inum : ℕ}
    {name : List UInt8} {Q : Unit → State → Prop}
    (hQ : Q () (s.setNode dp ((s.inode dp).add (.make inum name)))) :
    Ends (dirlinkWrite room dp name inum) s P Q := by
  generalize hlimit : MAXFILE * BSIZE = limit
  have hwrite : Ends (writeEntry dp (freeSlot (s.inode dp).ents) (.make inum name)) s P Q :=
    ends_modify hQ
  show Ends (if freeSlot (s.inode dp).ents < (s.inode dp).ents.length
    then writeEntry dp (freeSlot (s.inode dp).ents) (.make inum name)
    else if MAXFILE * BSIZE < (freeSlot (s.inode dp).ents + 1) * DIRENTSIZE
    then panic .dirlink
    else if room then writeEntry dp (freeSlot (s.inode dp).ents) (.make inum name)
    else panic .balloc) s P Q
  rw [hlimit]
  split
  · exact hwrite
  · split
    · exact ends_panic (hP _ nofun)
    · split
      · exact hwrite
      · exact ends_panic (hP _ nofun)

include hP in
/-- A name that is not there is added. -/
theorem dirlink_absent {room : Bool} {dp inum : ℕ} {name : List UInt8}
    (hdp : (s.inode dp).type = .T_DIR) (habsent : findName (s.inode dp).ents name = none)
    {Q : Bool → State → Prop}
    (hQ : Q true (s.setNode dp ((s.inode dp).add (.make inum name)))) :
    Ends (dirlink room dp name inum) s P Q := by
  refine ends_bind (ends_bind (ends_get ?_))
  rw [if_neg (fun h => h hdp), habsent]
  exact ends_pure (ends_bind (dirlinkWrite_spec hP (ends_pure hQ)))

/-! ## Making an inode -/

theorem short_eq {x : ℤ} (h₁ : 0 ≤ x) (h₂ : x < 2 ^ 15) : short x = x := by
  rw [short, Int.bmod_def]
  omega

theorem NINODES_eq : NINODES = 200 := by
  unfold NINODES
  rfl

theorem make_inum {inum : ℕ} (h : inum < NINODES) (name : List UInt8) :
    (Dirent.make inum name).inum = inum := by
  rw [NINODES_eq] at h
  show inum % 2 ^ 16 = inum
  omega

/-- An entry for a name that a directory does not have is not named `.`. -/
theorem make_ne_dot {I : Inodes} (T : Tree I) {dp : ℕ} (inum : ℕ) (hdp : (I dp).type = .T_DIR)
    {name : List UInt8} (habsent : findName (I dp).ents name = none) :
    namecmp (Dirent.make inum name).name dot ≠ 0 := by
  intro h
  have hmem : (⟨dp, strncpy dot DIRSIZ⟩ : Dirent) ∈ (I dp).ents := by
    rw [(T.dots dp hdp).ents]
    exact List.mem_cons_self ..
  refine findName_none habsent hmem ⟨T.pos hdp, ?_⟩
  show namecmp name (strncpy dot DIRSIZ) = 0
  have hname : namecmp (strncpy name DIRSIZ) dot = 0 := h
  rw [namecmp_comm, namecmp_strncpy, namecmp_comm] at hname
  rw [namecmp_strncpy]
  exact hname

/-- A state with a new inode that has been read and filled in. -/
def State.withNew (s : State) (i : ℕ) (n : Node) : State :=
  { s with
    inode := update s.inode i n
    ref := update s.ref i 1
    valid := update s.valid i true
    active := s.active + 1 }

/-- A new inode is held by the call that made it. -/
theorem Held.withNew {n : Node} (h : Held s own fds) (hi : s.ref i = 0) (hn : n.type ≠ .free)
    (hl : n.nlink ≠ 0) : Held (s.withNew i n) (i ::ₘ own) fds := by
  have hnode : (s.withNew i n).inode i = n := update_self ..
  refine h.change rfl
    (fun _ hj => ⟨update_of_ne hj .., update_of_ne hj .., update_of_ne hj ..⟩)
    (fun _ hj => count_cons_of_ne hj _) ((h.entered hi).ref i) ?_ ?_
  · rw [hnode]
    exact fun _ h0 => absurd h0 hl
  · rw [hnode]
    exact fun _ _ => hn

include hP in
/-- **A free inode is allocated, read and filled in.** -/
theorem allocate_spec {α : Type} {type : InodeType} {f : Node → Node} {k : ℕ → NameProg α}
    {Q : α → State → Prop} (halloc : ∀ j, 0 < s.ref j → (s.inode j).type ≠ .free)
    (htype : type ≠ .free)
    (hk : ∀ i, 0 < i → i < NINODES → (s.inode i).type = .free → s.ref i = 0 →
      Ends (k i) (s.withNew i (f ⟨type, 0, 0, 0, 0, []⟩)) P Q) :
    Ends (ialloc type >>= fun i => ilock i >>= fun _ => iupdate i f >>= fun _ => k i) s P Q := by
  refine ends_bind (ends_bind (ends_get ?_))
  cases hfind : (List.range NINODES).find? fun i => 0 < i ∧ (s.inode i).type = .free with
  | none => exact ends_panic (hP _ nofun)
  | some i =>
    have hlt : i < NINODES := List.mem_range.mp (List.mem_of_find?_eq_some hfind)
    have hsome := List.find?_some hfind
    obtain ⟨hpos, hfree⟩ := of_decide_eq_true hsome
    have href : s.ref i = 0 := by
      by_contra hne
      exact halloc i (Nat.pos_of_ne_zero hne) hfree
    refine ends_bind (ends_modify (ends_bind ?_))
    show Ends (if 0 < s.ref i then modify (·.grabbed i)
      else if s.active < NINODE then modify (·.entered i) else panic .iget)
      (s.setNode i ⟨type, 0, 0, 0, 0, []⟩) P _
    rw [if_neg (by omega)]
    split
    · refine ends_modify (ends_pure (ends_bind ?_))
      set n : Node := ⟨type, 0, 0, 0, 0, []⟩
      set a := (s.setNode i n).entered i with ha
      have hnode : a.inode i = n := update_self ..
      have hlock : ilock i a = .ok ((), a.loaded i) := by
        have href' : a.ref i = 1 := update_self ..
        have hval : a.valid i = false := update_self ..
        show (if a.ref i < 1 then panic .ilock
          else if a.valid i then pure ()
          else if (a.inode i).type = .free then panic .ilockNoType
          else modify (·.loaded i) : NameProg Unit) _ = _
        rw [href', hval, hnode, if_neg (by omega), if_neg Bool.false_ne_true, if_neg htype]
        rfl
      refine ends_of_ok hlock (ends_bind (ends_modify ?_))
      have hstate : (a.loaded i).setNode i (f ((a.loaded i).inode i)) = s.withNew i (f n) := by
        rw [show (a.loaded i).inode i = n from hnode, ha]
        simp only [State.setNode, State.entered, State.loaded, State.withNew, update_idem]
      rw [hstate]
      exact hk i hpos hlt hfree href
    · exact ends_panic (hP _ nofun)

include hP in
/-- The dots of a new directory, whose parent gets a link. -/
theorem createDots_spec {room : Bool} {dp : ℕ} {major minor : ℤ} {Q : Unit → State → Prop}
    (hi : (s.inode i) = ⟨.T_DIR, major, minor, 1, 0, []⟩) (hne : i ≠ dp) (hi0 : i ≠ 0)
    (hilt : i < NINODES) (hdplt : dp < NINODES)
    (hQ : Q () ((s.setNode dp { s.inode dp with nlink := short ((s.inode dp).nlink + 1) }).setNode i
      (newDir i dp major minor))) :
    Ends (createDots room i dp .T_DIR) s P Q := by
  refine ends_bind (ends_modify (ends_bind ?_))
  set s₁ := s.setNode dp { s.inode dp with nlink := short ((s.inode dp).nlink + 1) } with hs₁
  have hi₁ : s₁.inode i = ⟨.T_DIR, major, minor, 1, 0, []⟩ :=
    (update_of_ne hne ..).trans hi
  refine dirlink_absent hP (by rw [hi₁]) (by rw [hi₁]; rfl) ?_
  rw [if_neg Bool.true_eq_false.mp]
  have hadd₁ : (s₁.inode i).add (.make i dot)
      = ⟨.T_DIR, major, minor, 1, 0, [⟨i, strncpy dot DIRSIZ⟩]⟩ := by
    rw [hi₁]
    show (⟨.T_DIR, major, minor, 1, 0, [.make i dot]⟩ : Node) = _
    rw [Dirent.make, show i % 2 ^ 16 = i from make_inum hilt dot]
  rw [hadd₁]
  refine ends_bind ?_
  set s₂ := s₁.setNode i ⟨.T_DIR, major, minor, 1, 0, [⟨i, strncpy dot DIRSIZ⟩]⟩ with hs₂
  have hi₂ : s₂.inode i = ⟨.T_DIR, major, minor, 1, 0, [⟨i, strncpy dot DIRSIZ⟩]⟩ :=
    update_self ..
  have habsent : findName (s₂.inode i).ents dotdot = none := by
    rw [hi₂]
    have hcmp : namecmp dotdot (strncpy dot DIRSIZ) ≠ 0 := by decide
    have hno : ¬ (⟨i, strncpy dot DIRSIZ⟩ : Dirent).Matches dotdot := fun h => hcmp h.2
    simp [findName, hno]
  refine dirlink_absent hP (by rw [hi₂]) habsent ?_
  rw [if_neg Bool.true_eq_false.mp]
  refine ends_pure ?_
  have hadd₂ : (s₂.inode i).add (.make dp dotdot) = newDir i dp major minor := by
    rw [hi₂]
    have hslot : freeSlot [(⟨i, strncpy dot DIRSIZ⟩ : Dirent)] = 1 := by
      simp [freeSlot, List.findIdx_cons, hi0]
    show (⟨.T_DIR, major, minor, 1, 0,
      writeSlot [⟨i, strncpy dot DIRSIZ⟩] (freeSlot [⟨i, strncpy dot DIRSIZ⟩])
        (.make dp dotdot)⟩ : Node) = _
    rw [hslot, Dirent.make, show dp % 2 ^ 16 = dp from make_inum hdplt dotdot]
    rfl
  have hstate : s₂.setNode i (newDir i dp major minor)
      = s₁.setNode i (newDir i dp major minor) := by
    rw [hs₂, State.setNode, State.setNode, State.setNode, update_idem]
  rw [hadd₂, hstate]
  exact hQ

/-- What `create` leaves: the inode is held, and allocated. -/
def Created (A B : Prop) (own : Multiset ℕ) (fds : Multiset (Fin NFILE)) (s : State)
    (r : Option ℕ) (s' : State) : Prop :=
  s'.file = s.file ∧
    match r with
    | none => Left A B own fds s s'
    | some ip => Left A B (ip ::ₘ own) fds s s'

/-- The end of `create`: the directory is put, of which others keep what
references they had. -/
theorem createPut_spec {dp : ℕ} {s₁ : State} (hfile : s₁.file = s.file)
    (htask : s₁.task = s.task) (hh : Held s₁ (i ::ₘ dp ::ₘ own) fds)
    (hb : Base s₁.inode (i ::ₘ own + fileInodes s₁)) (hk : Keeps A B s.inode s₁.inode) :
    Ends (iput dp >>= fun _ => (pure (some i) : NameProg (Option ℕ))) s₁ P
      (Created A B own fds s) := by
  rw [cons_swap] at hh
  refine ends_bind ((iput_base hh hb).mono (fun _ s' ⟨hf, hh', _⟩ => ends_pure ?_))
  have hleft : Left A B (i ::ₘ own) fds s₁ s' := hf.left hb hh'
  exact ⟨hf.file.trans hfile,
    ⟨hh', hleft.base, hk.trans hleft.keeps, hleft.task.trans htask⟩⟩

section New

variable {room : Bool} {dp : ℕ} {name : List UInt8} {type : InodeType} {major minor : ℤ}
variable (h : Held s (dp ::ₘ own) fds) (hb : Base s.inode (own + fileInodes s))
variable (hdp : (s.inode dp).type = .T_DIR)
variable (habsent : findName (s.inode dp).ents name = none)
variable (hpos : 0 < i) (hlt : i < NINODES) (hfree : (s.inode i).type = .free)
variable (href : s.ref i = 0)

include hP h hb hdp habsent hpos hlt hfree href in
/-- The new inode is no directory. -/
theorem createNew_file (htype : type ≠ .free) (hdir : type ≠ .T_DIR)
    (hA : A → (s.inode dp).nlink ≠ 0) :
    Ends (createDots room i dp type >>= fun _ => dirlink room dp name i >>= fun r =>
      if r = false then panic .createDirlink
      else iput dp >>= fun _ => (pure (some i) : NameProg (Option ℕ)))
      (s.withNew i ⟨type, major, minor, 1, 0, []⟩) P (Created A B own fds s) := by
  have T := hb.tree
  have hdpnf := dir_alloc hdp
  have hifree : (s.inode i).type ≠ .T_DIR := by
    rw [hfree]
    exact nofun
  have hne : i ≠ dp := file_ne_dir hdp hifree
  have hlinks : (1 : ℤ) = (s.inode i).links + 1 := by
    rw [Node.links, if_pos hfree]
    rfl
  have heinum := make_inum hlt name
  have hename := make_ne_dot T i hdp habsent
  have hret := T.retouched_add hdp hifree heinum hename
  set a := s.withNew i ⟨type, major, minor, 1, 0, []⟩
  have hadp : a.inode dp = s.inode dp := update_of_ne hne.symm ..
  have hha : Held a (i ::ₘ dp ::ₘ own) fds := h.withNew href htype one_ne_zero
  rw [createDots, if_neg hdir]
  refine ends_bind (ends_pure (ends_bind (dirlink_absent hP (by rw [hadp, hdp])
    (by rw [hadp, habsent]) ?_)))
  rw [if_neg Bool.true_eq_false.mp, hadp]
  have hha' : Held (a.setNode dp ((s.inode dp).add (.make i name))) (i ::ₘ dp ::ₘ own) fds :=
    hha.setNode hdpnf (fun hl =>
      hha.removed dp (by rw [hadp]; exact hdpnf) (by rw [hadp]; exact hl))
  have htree : Tree (relinked s.inode i ⟨type, major, minor, 1, 0, []⟩ dp
      ((s.inode dp).add (.make i name))) :=
    T.link hdp hifree hdir htype heinum hename hpos hlt hlinks (by norm_num)
  refine createPut_spec rfl rfl hha' ?_ ⟨htree, fun hA' E => ?_, fun _ C => ?_⟩
  · rw [cons_add]
    exact hb.relinked hdpnf htype hdpnf id htree
  · exact E.link T ⟨hdp, hA hA'⟩ hifree hdir htype heinum hename hpos hlinks
  · exact C.same (sameDirs_relinked hdp hifree hdir hret T)

include hP h hb hdp habsent hpos hlt hfree href in
/-- The new inode is a directory, in a live one. -/
theorem createNew_dir (hlive : (s.inode dp).nlink ≠ 0) :
    Ends (createDots room i dp .T_DIR >>= fun _ => dirlink room dp name i >>= fun r =>
      if r = false then panic .createDirlink
      else iput dp >>= fun _ => (pure (some i) : NameProg (Option ℕ)))
      (s.withNew i ⟨.T_DIR, major, minor, 1, 0, []⟩) P (Created A B own fds s) := by
  have T := hb.tree
  have hdplive : (s.inode dp).LiveDir := ⟨hdp, hlive⟩
  have hdpnf := dir_alloc hdp
  have hne : i ≠ dp := new_ne_dir hfree hdplive
  have heinum := make_inum hlt name
  have hename := make_ne_dot T i hdp habsent
  have hshort : short ((s.inode dp).nlink + 1) = (s.inode dp).nlink + 1 := by
    have hs := T.short dp
    have hl := T.dirLinks dp hdplive
    have hk := T.dirKids_le hdp
    rw [NINODES_eq] at hk
    exact short_eq (by omega) (by omega)
  set a := s.withNew i ⟨.T_DIR, major, minor, 1, 0, []⟩
  have hadp : a.inode dp = s.inode dp := update_of_ne hne.symm ..
  have hai : a.inode i = ⟨.T_DIR, major, minor, 1, 0, []⟩ := update_self ..
  have hha : Held a (i ::ₘ dp ::ₘ own) fds :=
    h.withNew href nofun one_ne_zero
  refine ends_bind (createDots_spec hP hai hne (by omega) hlt (T.lt hdp) (ends_bind ?_))
  rw [hadp, hshort]
  set b := (a.setNode dp { s.inode dp with nlink := (s.inode dp).nlink + 1 }).setNode i
    (newDir i dp major minor)
  have hbdp : b.inode dp = { s.inode dp with nlink := (s.inode dp).nlink + 1 } :=
    (update_of_ne hne.symm ..).trans (update_self ..)
  have hpos' : (s.inode dp).nlink + 1 ≠ 0 := by
    have hs := T.short dp
    omega
  have hha' : Held (a.setNode dp { s.inode dp with nlink := (s.inode dp).nlink + 1 })
      (i ::ₘ dp ::ₘ own) fds :=
    hha.setNode hdpnf (fun hl => absurd hl hpos')
  have hhb : Held b (i ::ₘ dp ::ₘ own) fds :=
    hha'.setNode (n := newDir i dp major minor) nofun
      (fun hl => absurd hl one_ne_zero)
  refine dirlink_absent hP (by rw [hbdp]; exact hdp) (by rw [hbdp]; exact habsent) ?_
  rw [if_neg Bool.true_eq_false.mp, hbdp]
  have hI : (b.setNode dp (({ s.inode dp with nlink := (s.inode dp).nlink + 1 } : Node).add
      (.make i name))).inode = madeDir s.inode i dp major minor (.make i name) := by
    funext q
    by_cases hq : q = dp
    · rw [hq, madeDir_dir]
      exact update_self ..
    · refine (update_of_ne hq ..).trans ?_
      by_cases hqi : q = i
      · rw [hqi, madeDir_new hfree hdplive]
        exact update_self ..
      · rw [madeDir_of_ne hq hqi]
        refine (update_of_ne hqi ..).trans ?_
        exact (update_of_ne hq ..).trans (update_of_ne hqi ..)
  have hhc : Held (b.setNode dp (({ s.inode dp with nlink := (s.inode dp).nlink + 1 } : Node).add
      (.make i name))) (i ::ₘ dp ::ₘ own) fds :=
    hhb.setNode hdpnf (fun hl => absurd hl hpos')
  have htree : Tree (madeDir s.inode i dp major minor (.make i name)) :=
    T.mkdir hfree hpos hlt hdplive heinum hename
  refine createPut_spec rfl rfl hhc ?_ ?_
  · rw [hI, cons_add]
    exact hb.relinked hdpnf nofun hdpnf (fun hl => absurd hl hpos') htree
  · rw [hI]
    exact ⟨htree, fun _ E => E.mkdir T hfree hpos hdplive heinum,
      fun _ C => C.mkdir T hfree hdplive⟩

end New

include hP in
/-- **A new inode in a directory.** A directory is only made in a live one;
that the links stay exact takes a live one for files as well. -/
theorem createNew_spec (room : Bool) {dp : ℕ} {name : List UInt8} {type : InodeType}
    (major minor : ℤ) (h : Held s (dp ::ₘ own) fds) (hb : Base s.inode (own + fileInodes s))
    (hdp : (s.inode dp).type = .T_DIR) (habsent : findName (s.inode dp).ents name = none)
    (htype : type ≠ .free) (hlive : type = .T_DIR → (s.inode dp).nlink ≠ 0)
    (hA : A → (s.inode dp).nlink ≠ 0) :
    Ends (createNew room dp name type major minor) s P (Created A B own fds s) := by
  have halloc : ∀ j, 0 < s.ref j → (s.inode j).type ≠ .free := by
    intro j hj
    rw [h.ref] at hj
    have hmem := count_pos.mp hj
    rw [cons_add] at hmem
    rcases mem_cons.mp hmem with rfl | hmem
    · exact dir_alloc hdp
    · exact hb.alloc j hmem
  refine allocate_spec hP halloc htype (fun i hpos hlt hfree href => ?_)
  by_cases hdir : type = .T_DIR
  · subst hdir
    exact createNew_dir hP h hb hdp habsent hpos hlt hfree href (hlive rfl)
  · exact createNew_file hP h hb hdp habsent hpos hlt hfree href htype hdir hA

/-! ## Calls that start with a path -/

section Path

variable {cwd : ℕ} (hdangling : ¬ Sound s.inode → P .ilockNoType)
variable (h : Held s own fds) (hb : Base s.inode (own + fileInodes s)) (hcwd : cwd ∈ own)

include hb in
theorem Base.root_alloc : (s.inode ROOTINO).type ≠ .free :=
  dir_alloc hb.tree.root.1.1

include hb hcwd in
theorem Base.cwd_alloc : (s.inode cwd).type ≠ .free :=
  hb.alloc cwd (mem_add.mpr (.inl hcwd))

include hP hdangling h hb hcwd in
/-- **The directory of a path's last element, locked.** -/
theorem nameiparent_ilock_spec {α : Type} (path : List UInt8) {fail : NameProg α}
    {body : ℕ → List UInt8 → NameProg α} {Q : α → State → Prop}
    (hfail : ∀ s₁, Frame s s₁ → Held s₁ own fds → Ends fail s₁ P Q)
    (hbody : ∀ dp name s₁, Frame s s₁ → Held s₁ (dp ::ₘ own) fds → (s.inode dp).type = .T_DIR →
      resolveParent s.inode cwd path = some (dp, name) → Ends (body dp name) s₁ P Q) :
    Ends (do
      match ← nameiparent cwd path with
      | none => fail
      | some (dp, name) => do
        ilock dp
        body dp name) s P Q := by
  refine ends_bind ((namex_spec (hP _ (by simp)) hdangling h hcwd (hb.cwd_alloc hcwd)
    hb.root_alloc true path).mono (fun r s₁ hw => ?_))
  obtain ⟨hf₁, hr, hm⟩ := hw
  cases r with
  | none => exact hfail s₁ hf₁ hm
  | some r =>
    obtain ⟨dp, name⟩ := r
    have hdp : (s.inode dp).type = .T_DIR := followParent_dir hr.symm
    refine ends_bind ((ilock_spec hm.1 (mem_cons_self ..) fun hfree => ?_).mono fun _ s₂ hs => ?_)
    · rw [hf₁.inode] at hfree
      exact absurd hfree (dir_alloc hdp)
    · exact hbody dp name s₂ (hf₁.trans hs.1) hs.2.1 hdp hr.symm

include hP hdangling h hb hcwd in
/-- The inode of a path, held. -/
theorem namei_spec (path : List UInt8) :
    Ends (namei cwd path) s P fun r s' => Frame s s' ∧ r = resolve s.inode cwd path ∧
      match r with
      | none => Held s' own fds
      | some ip => Held s' (ip ::ₘ own) fds ∧ (Sound s.inode → (s.inode ip).type ≠ .free) := by
  refine ends_bind ((namex_spec (hP _ (by simp)) hdangling h hcwd (hb.cwd_alloc hcwd) hb.root_alloc
    false path).mono (fun r s' hw => ends_pure ?_))
  obtain ⟨hf, hr, hm⟩ := hw
  have hresolve : r.map Prod.fst = resolve s.inode cwd path := by
    rw [hr]
    show ((resolve s.inode cwd path).map fun j => (j, ([] : List UInt8))).map Prod.fst = _
    cases resolve s.inode cwd path
    · rfl
    · rfl
  refine ⟨hf, hresolve, ?_⟩
  match r, hm with
  | none, hm => exact hm
  | some (ip, _), hm => exact hm

include hP hdangling h hb hcwd in
/-- **The inode of a path, locked.** -/
theorem namei_ilock_spec {α : Type} (path : List UInt8) {fail : NameProg α} {body : ℕ → NameProg α}
    {Q : α → State → Prop} (hfail : ∀ s₁, Frame s s₁ → Held s₁ own fds → Ends fail s₁ P Q)
    (hbody : ∀ ip s₁, Frame s s₁ → Held s₁ (ip ::ₘ own) fds → (s.inode ip).type ≠ .free →
      resolve s.inode cwd path = some ip → Ends (body ip) s₁ P Q) :
    Ends (do
      match ← namei cwd path with
      | none => fail
      | some ip => do
        ilock ip
        body ip) s P Q := by
  refine ends_bind ((namei_spec hP hdangling h hb hcwd path).mono fun r s₁ hr => ?_)
  obtain ⟨hf₁, hres, hr⟩ := hr
  cases r with
  | none => exact hfail s₁ hf₁ hr
  | some ip =>
    refine ends_bind ((ilock_spec hr.1 (mem_cons_self ..) fun hfree => ?_).mono fun _ s₂ hs => ?_)
    · rw [hf₁.inode] at hfree
      exact hdangling fun hs => hr.2 hs hfree
    · obtain ⟨hf₂, hh₂, -, hnf⟩ := hs
      exact hbody ip s₂ (hf₁.trans hf₂) hh₂ (hf₁.inode ▸ hnf) hres.symm

include hP hdangling h hb hcwd in
/-- **`create`**: a directory is made only in a live one, and for the links
to stay exact nothing is made in a removed one. -/
theorem create_spec {room : Bool} {path : List UInt8} {type : InodeType} {major minor : ℤ}
    (htype : type ≠ .free)
    (hlive : type = .T_DIR → ∀ dp name, resolveParent s.inode cwd path = some (dp, name) →
      (s.inode dp).nlink ≠ 0)
    (hA : A → ∀ dp name, resolveParent s.inode cwd path = some (dp, name) →
      (s.inode dp).nlink ≠ 0) :
    Ends (create room cwd path type major minor) s P (Created A B own fds s) := by
  refine nameiparent_ilock_spec hP hdangling h hb hcwd path
    (fun s₁ hf₁ hh₁ => ends_pure ⟨hf₁.file, hf₁.left hb hh₁⟩)
    fun dp name s₂ hf02 hh₂ hdp hres => ?_
  have hdp₂ : (s₂.inode dp).type = .T_DIR := by rw [hf02.inode, hdp]
  refine ends_bind ((dirlookup_spec (hP _ (by simp)) hh₂ hdp₂ name).mono (fun r s₃ hr => ?_))
  obtain ⟨hf₃, hr⟩ := hr
  have hf03 := hf02.trans hf₃
  rw [hf02.inode] at hr
  match r, hr with
  | none, ⟨hh₃, habsent⟩ =>
    have hnew := createNew_spec (A := A) (B := B) hP room (short major) (short minor) hh₃
      (hb.of_frame hf03) (by rw [hf03.inode, hdp]) (by rw [hf03.inode, habsent]) htype
      (fun ht => by rw [hf03.inode]; exact hlive ht dp name hres)
      (fun hA' => by rw [hf03.inode]; exact hA hA' dp name hres)
    refine hnew.mono (fun r s' hc => ?_)
    obtain ⟨hfile, hc⟩ := hc
    refine ⟨hfile.trans hf03.file, ?_⟩
    match r, hc with
    | none, hc => exact hc.of_frame hf03
    | some ip, hc => exact hc.of_frame hf03
  | some (ip, k), ⟨hh₃, _, e, he, heip, hm⟩ =>
    have hh₃' : Held s₃ (dp ::ₘ ip ::ₘ own) fds := by
      rw [cons_swap]
      exact hh₃
    have hkeep : (s₃.inode dp).type ≠ .free → (s₃.inode dp).nlink = 0 →
        dp ∈ ip ::ₘ own + fileInodes s₃ := by
      intro hnf hl
      rw [cons_add]
      exact mem_cons_of_mem ((hb.of_frame hf03).keep dp hnf hl)
    refine ends_bind ((iput_keep hh₃' hkeep).mono (fun _ s₄ ⟨hf₄, hh₄, _⟩ => ?_))
    have hf04 := hf03.trans hf₄
    refine ends_bind ((ilock_spec hh₄ (mem_cons_self ..) (fun hfree => ?_)).mono
      (fun _ s₅ ⟨hf₅, hh₅, _, hnf⟩ => ?_))
    · rw [hf04.inode] at hfree
      refine hdangling (fun hs => ?_)
      exact hs dp hdp e (List.mem_of_getElem? he) hm.1 (heip ▸ hfree)
    have hf05 := hf04.trans hf₅
    rw [hf04.inode] at hnf
    refine ends_bind (ends_get ?_)
    split
    · exact ends_pure ⟨hf05.file, hf05.left_cons hb hnf hh₅⟩
    · exact ends_bind ((iput_end hf05 hb hh₅).mono
        (fun _ s₆ hs => ends_pure ⟨hs.2, hs.1⟩))

end Path

/-! ## Removing a name -/

section Unlink

variable {dp ip k : ℕ} {e : Dirent}

/-- The end of `unlink`: the directory is put, the link of the inode taken
away, and the inode put, which may free it. -/
theorem unlinkFinish_spec {m n : Node} {f : Node → Node} (h : Held s (ip ::ₘ dp ::ₘ own) fds)
    (hb : Base s.inode (own + fileInodes s)) (hdp : (s.inode dp).type ≠ .free)
    (hne : ip ≠ dp) (hv : s.valid ip = true) (hm : m.type ≠ .free)
    (hml : m.nlink = 0 → (s.inode dp).nlink = 0) (hn : n.type ≠ .free)
    (hnode : f (s.inode ip) = n)
    (hk : Keeps A B s.inode (relinked s.inode ip n dp m)) :
    Ends (iput dp >>= fun _ => iupdate ip f >>= fun _ => iput ip >>= fun _ =>
      (pure 0 : NameProg ℤ)) (s.setNode dp m) P
      fun _ s' => Left A B own fds s s' := by
  set s₁ := s.setNode dp m with hs₁
  have hh₁ : Held s₁ (dp ::ₘ ip ::ₘ own) fds := by
    rw [cons_swap]
    exact h.setNode hm (fun hl => h.removed dp hdp (hml hl))
  have hdp₁ : s₁.inode dp = m := update_self ..
  refine ends_bind ((iput_keep hh₁ (fun _ hl => ?_)).mono (fun _ s₂ ⟨hf₂, hh₂, hv₂⟩ => ?_))
  · rw [hdp₁] at hl
    rw [cons_add]
    exact mem_cons_of_mem (hb.keep dp hdp (hml hl))
  have hip₂ : s₂.inode ip = s.inode ip := by
    rw [hf₂.inode]
    exact update_of_ne hne ..
  refine ends_bind (ends_modify ?_)
  rw [hip₂, hnode]
  have hI₃ : (s₂.setNode ip n).inode = relinked s.inode ip n dp m := by
    show update s₂.inode ip n = update (update s.inode ip n) dp m
    rw [hf₂.inode, update_comm hne]
    rfl
  have hh₃ : Held (s₂.setNode ip n) (ip ::ₘ own) fds := by
    refine hh₂.setNode hn (fun _ => ⟨?_, ?_⟩)
    · rw [cons_add]
      exact mem_cons_self ..
    · rw [hv₂]
      exact hv
  have hfiles : fileInodes (s₂.setNode ip n) = fileInodes s := hf₂.fileInodes_eq
  have hl : Left A B (ip ::ₘ own) fds s (s₂.setNode ip n) := by
    refine ⟨hh₃, ?_, ?_, hf₂.task⟩
    · rw [hI₃, hfiles, cons_add]
      exact hb.relinked hdp hn hm hml hk.tree
    · rw [hI₃]
      exact hk
  exact ends_bind (hl.put.mono fun _ _ h' => ends_pure h')

include hP in
/-- **Removing an entry that was found.** Parents stay live, if no removed
directory has the one that is removed as its parent. -/
theorem unlinkEntry_spec (h : Held s (e.inum ::ₘ dp ::ₘ own) fds)
    (hb : Base s.inode (own + fileInodes s)) (hdp : (s.inode dp).type = .T_DIR)
    (he : (s.inode dp).kids[k]? = some e) (hne0 : e.inum ≠ 0)
    (hv : s.valid e.inum = true) (hnf : (s.inode e.inum).type ≠ .free)
    (hB : B → (s.inode e.inum).type = .T_DIR → ∀ c, (s.inode c).type = .T_DIR →
      (s.inode c).nlink = 0 → (s.inode c).up ≠ e.inum) :
    Ends (unlinkEntry dp e.inum (k + 2)) s P fun _ s' => Left A B own fds s s' := by
  have T := hb.tree
  have hdpnf := dir_alloc hdp
  have hs := T.short e.inum
  refine ends_bind (ends_get ?_)
  split
  · exact ends_panic (hP _ nofun)
  rename_i hlink
  have hshort : short ((s.inode e.inum).nlink - 1) = (s.inode e.inum).nlink - 1 :=
    short_eq (by omega) (by omega)
  split
  · refine ends_bind ((iput_keep h (fun hi hl => ?_)).mono (fun _ s₁ ⟨hf₁, hh₁, _⟩ => ?_))
    · rw [cons_add]
      exact mem_cons_of_mem (hb.keep _ hi hl)
    · exact ends_bind ((iput_end hf₁ hb hh₁).mono (fun _ _ hs => ends_pure hs.1))
  rename_i hempty
  by_cases hdir : (s.inode e.inum).type = .T_DIR
  · have hkids : ∀ x ∈ (s.inode e.inum).kids, x.inum = 0 := by
      have hall : isdirempty (s.inode e.inum) = true := by
        by_contra h
        exact hempty ⟨hdir, Bool.eq_false_iff.mpr h⟩
      intro x hx
      exact of_decide_eq_true (List.all_eq_true.mp hall x hx)
    obtain ⟨-, -, -, hdplive, hne, -⟩ := T.removed_parent hdir hdp he
    have hsdp := T.short dp
    have hdpl := hdplive.2
    have hshortdp : short ((s.inode dp).nlink - 1) = (s.inode dp).nlink - 1 :=
      short_eq (by omega) (by omega)
    have hstay := ((removedDir_liveDir T hdir hdp he hkids dp).mpr ⟨hdplive, hne.symm⟩).2
    rw [removedDir, relinked_dir] at hstay
    have hclear : unlinkClear dp e.inum (k + 2) s = .ok ((), s.setNode dp
        { (s.inode dp).clear (k + 2) with nlink := (s.inode dp).nlink - 1 }) := by
      show (writeEntry dp (k + 2) Dirent.zero >>= fun _ =>
        if (s.inode e.inum).type = .T_DIR then
          iupdate dp (fun n => { n with nlink := short (n.nlink - 1) })
        else pure ()) s = _
      rw [if_pos hdir]
      show Except.ok ((), (s.setNode dp ((s.inode dp).clear (k + 2))).setNode dp
        { (s.setNode dp ((s.inode dp).clear (k + 2))).inode dp with
          nlink := short (((s.setNode dp ((s.inode dp).clear (k + 2))).inode dp).nlink - 1) }) = _
      have hnode : (s.setNode dp ((s.inode dp).clear (k + 2))).inode dp
          = (s.inode dp).clear (k + 2) := update_self ..
      rw [hnode]
      show Except.ok ((), (s.setNode dp ((s.inode dp).clear (k + 2))).setNode dp
        { (s.inode dp).clear (k + 2) with nlink := short ((s.inode dp).nlink - 1) }) = _
      rw [hshortdp, State.setNode, State.setNode, State.setNode, update_idem]
    refine ends_bind (ends_of_ok hclear ?_)
    refine unlinkFinish_spec h hb hdpnf hne hv hdpnf (fun hl => absurd hl hstay)
      (n := { s.inode e.inum with nlink := (s.inode e.inum).nlink - 1 }) hnf
      (congrArg (fun z => ({ s.inode e.inum with nlink := z } : Node)) hshort)
      ⟨?_, fun _ E => ?_, fun hB' C => ?_⟩
    · exact T.rmdir hdir hdp he hkids
    · exact E.rmdir T hdir hdp he hkids
    · exact C.rmdir T hdir hdp he hkids (hB hB' hdir)
  · have hne : e.inum ≠ dp := file_ne_dir hdp hdir
    have hlinks : (s.inode e.inum).nlink - 1 = (s.inode e.inum).links - 1 := by
      rw [Node.links, if_neg hnf]
    have hret := T.retouched_clear hdp hdir he
    have hclear : unlinkClear dp e.inum (k + 2) s
        = .ok ((), s.setNode dp ((s.inode dp).clear (k + 2))) := by
      show (writeEntry dp (k + 2) Dirent.zero >>= fun _ =>
        if (s.inode e.inum).type = .T_DIR then
          iupdate dp (fun n => { n with nlink := short (n.nlink - 1) })
        else pure ()) s = _
      rw [if_neg hdir]
      rfl
    refine ends_bind (ends_of_ok hclear ?_)
    refine unlinkFinish_spec h hb hdpnf hne hv hdpnf id
      (n := { s.inode e.inum with nlink := (s.inode e.inum).nlink - 1 }) hnf
      (congrArg (fun z => ({ s.inode e.inum with nlink := z } : Node)) hshort)
      ⟨?_, fun _ E => ?_, fun _ C => ?_⟩
    · exact T.unlink hdp he hne0 hdir hdir hnf hlinks
    · exact E.unlink T hdp he hne0 hdir hdir hnf hlinks
    · exact C.same (sameDirs_relinked hdp hdir hdir hret T)

end Unlink

/-! ## One more name -/

section Link

variable {cwd ip : ℕ}

/-- The nodes have the same types and entries. -/
def SameEntries (I I' : Inodes) : Prop :=
  ∀ q, (I' q).type = (I q).type ∧ (I' q).ents = (I q).ents

theorem SameEntries.sound {I I' : Inodes} (h : SameEntries I I') (hs : Sound I) : Sound I' := by
  intro d hd e he hne
  rw [(h d).1] at hd
  rw [(h d).2] at he
  rw [(h e.inum).1]
  exact hs d hd e he hne

theorem SameEntries.followParent {I I' : Inodes} (h : SameEntries I I') (i : ℕ)
    (cs : List (List UInt8)) : followParent I' i cs = Names.followParent I i cs := by
  fun_induction Names.followParent I i cs with
  | case1 => rfl
  | case2 i c hd => rw [Names.followParent, (h i).1, if_pos hd]
  | case3 i c hd => rw [Names.followParent, (h i).1, if_neg hd]
  | case4 i c c' cs hd ih =>
    rw [Names.followParent, (h i).1, if_pos hd, (h i).2]
    congr 1
    funext j
    exact ih j
  | case5 i c c' cs hd => rw [Names.followParent, (h i).1, if_neg hd]

/-- A file with one more link. -/
def moreLink (I : Inodes) (ip : ℕ) : Node := { I ip with nlink := (I ip).nlink + 1 }

variable (hb : Base s.inode (own + fileInodes s)) (hnf : (s.inode ip).type ≠ .free)
variable (hdir : (s.inode ip).type ≠ .T_DIR) (hov : (s.inode ip).nlink + 1 < 2 ^ 15)

theorem sameEntries_moreLink :
    SameEntries s.inode (update s.inode ip (moreLink s.inode ip)) := by
  intro q
  by_cases hq : q = ip
  · rw [hq, update_self]
    exact ⟨rfl, rfl⟩
  · rw [update_of_ne hq]
    exact ⟨rfl, rfl⟩

include hb hnf hdir hov in
/-- A link that is counted and not yet made keeps the tree. -/
theorem Base.moreLink :
    Base (update s.inode ip (moreLink s.inode ip)) (ip ::ₘ own + fileInodes s) where
  alloc j hj := by
    rw [(sameEntries_moreLink j).1]
    rw [cons_add] at hj
    rcases mem_cons.mp hj with rfl | hj
    · exact hnf
    · exact hb.alloc j hj
  keep j hj hl := by
    rw [cons_add]
    by_cases hji : j = ip
    · rw [hji]
      exact mem_cons_self ..
    · rw [update_of_ne hji] at hj hl
      exact mem_cons_of_mem (hb.keep j hj hl)
  tree := by
    have hbd := hb.tree.bound ip hnf
    have hs := hb.tree.short ip
    have hfl := hb.tree.fileLinks ip (by omega) hdir
    rw [Node.links, if_neg hnf] at hfl
    refine hb.tree.setFile hdir hdir hbd.1 hbd.2 ?_ ?_
    · show 0 ≤ (s.inode ip).nlink + 1 ∧ (s.inode ip).nlink + 1 < 2 ^ 15
      omega
    · rw [Node.links, if_neg (show (Names.moreLink s.inode ip).type ≠ .free from hnf)]
      show _ ≤ (s.inode ip).nlink + 1
      omega

include hb hnf hov in
/-- The name was not made, and its link is taken back. -/
theorem linkBad_spec {s₁ : State}
    (hI : s₁.inode = update s.inode ip (moreLink s.inode ip))
    (hfile : s₁.file = s.file) (htask : s₁.task = s.task) (hh : Held s₁ (ip ::ₘ own) fds) :
    Ends (linkBad ip) s₁ P fun _ s' => Left A B own fds s s' := by
  have hip : s₁.inode ip = moreLink s.inode ip := by rw [hI, update_self]
  refine ends_bind ((ilock_spec hh (mem_cons_self ..) (fun hfree => ?_)).mono
    (fun _ s₂ ⟨hf₂, hh₂, hv₂, _⟩ => ?_))
  · rw [hip] at hfree
    exact absurd hfree hnf
  have hs := hb.tree.short ip
  have hback : { s₂.inode ip with nlink := short ((s₂.inode ip).nlink - 1) } = s.inode ip := by
    rw [hf₂.inode, hip]
    show { s.inode ip with nlink := short ((s.inode ip).nlink + 1 - 1) } = s.inode ip
    rw [Int.add_sub_cancel, short_eq (by omega) (by omega)]
  refine ends_bind (ends_modify ?_)
  have hcode : s₂.setNode ip ((fun n : Node => { n with nlink := short (n.nlink - 1) })
      (s₂.inode ip)) = s₂.setNode ip (s.inode ip) := congrArg (s₂.setNode ip) hback
  rw [hcode]
  have hI₃ : (s₂.setNode ip (s.inode ip)).inode = s.inode := by
    show update s₂.inode ip (s.inode ip) = s.inode
    rw [hf₂.inode, hI, update_idem, update_eq_self]
  have hh₃ : Held (s₂.setNode ip (s.inode ip)) (ip ::ₘ own) fds := by
    refine hh₂.setNode hnf (fun _ => ⟨?_, hv₂⟩)
    rw [cons_add]
    exact mem_cons_self ..
  have hf₃ : Frame s (s₂.setNode ip (s.inode ip)) :=
    ⟨hI₃, hf₂.file.trans hfile, hf₂.task.trans htask⟩
  exact ends_bind ((iput_end hf₃ hb hh₃).mono (fun _ _ hs => ends_pure hs.1))

include hb hnf hdir hov in
/-- The end of `link`: the entry was written, and both inodes are put. -/
theorem linkMade_spec {dp : ℕ} {name : List UInt8} {s₁ : State}
    (hdp : (s.inode dp).type = .T_DIR) (habsent : findName (s.inode dp).ents name = none)
    (hI : s₁.inode = update s.inode ip (moreLink s.inode ip))
    (hfile : s₁.file = s.file) (htask : s₁.task = s.task)
    (hh : Held s₁ (dp ::ₘ ip ::ₘ own) fds) (hA : A → (s.inode dp).nlink ≠ 0) :
    Ends (iput dp >>= fun _ => iput ip >>= fun _ => (pure 0 : NameProg ℤ))
      (s₁.setNode dp ((s.inode dp).add (.make ip name))) P
      fun _ s' => Left A B own fds s s' := by
  have hne : ip ≠ dp := file_ne_dir hdp hdir
  have hdpnf := dir_alloc hdp
  have hbd := hb.tree.bound ip hnf
  have heinum := make_inum hbd.2 name
  have hename := make_ne_dot hb.tree ip hdp habsent
  have hlinks : (moreLink s.inode ip).nlink = (s.inode ip).links + 1 := by
    rw [Node.links, if_neg hnf]
    rfl
  have hk : Keeps A B s.inode (relinked s.inode ip (moreLink s.inode ip) dp
      ((s.inode dp).add (.make ip name))) :=
    ⟨hb.tree.link hdp hdir hdir hnf heinum hename hbd.1 hbd.2 hlinks hov,
      fun hA' E => E.link hb.tree ⟨hdp, hA hA'⟩ hdir hdir hnf heinum hename hbd.1 hlinks,
      fun _ C => C.same (sameDirs_relinked hdp hdir hdir
        (hb.tree.retouched_add hdp hdir heinum hename) hb.tree)⟩
  have hnode : s₁.inode dp = s.inode dp := by rw [hI, update_of_ne hne.symm]
  have hh₂ := hh.setNode (i := dp) (n := (s.inode dp).add (.make ip name)) hdpnf (fun hl =>
    hh.removed dp (by rw [hnode]; exact hdpnf) (by rw [hnode]; exact hl))
  set s₂ := s₁.setNode dp ((s.inode dp).add (.make ip name))
  have hfile₂ : s₂.file = s.file := hfile
  have hI₂ : s₂.inode = relinked s.inode ip (moreLink s.inode ip) dp
      ((s.inode dp).add (.make ip name)) := by
    show update s₁.inode dp _ = _
    rw [hI]
    rfl
  have hb₂ : Base s₂.inode (ip ::ₘ own + fileInodes s₂) := by
    rw [hI₂, fileInodes, hfile₂, cons_add]
    exact hb.relinked hdpnf hnf hdpnf id hk.tree
  refine ends_bind ((iput_base hh₂ hb₂).mono (fun _ s₃ hs₃ => ?_))
  obtain ⟨hf₃, hh₃, -⟩ := hs₃
  have hk₃ : Keeps A B s.inode s₃.inode := by
    rw [hf₃.inode, hI₂]
    exact hk
  exact ends_bind ((Left.put ⟨hh₃, hb₂.of_frame hf₃, hk₃, hf₃.task.trans htask⟩).mono
    fun _ _ hl => ends_pure hl)

include hP hb hnf hdir hov in
/-- **Entering a file under a new name**, for which a link is counted. For
the links to stay exact the name must not be made in a removed directory. -/
theorem linkTo_spec {room : Bool} {s₁ : State} {new : List UInt8}
    (hdangling : ¬ Sound s.inode → P .ilockNoType) (hcwd : cwd ∈ own)
    (hI : s₁.inode = update s.inode ip (moreLink s.inode ip))
    (hfile : s₁.file = s.file) (htask : s₁.task = s.task) (hh : Held s₁ (ip ::ₘ own) fds)
    (hA : A → ∀ dp name, resolveParent s.inode cwd new = some (dp, name) →
      (s.inode dp).nlink ≠ 0) :
    Ends (linkTo room cwd ip new) s₁ P fun _ s' => Left A B own fds s s' := by
  have hfiles₁ : fileInodes s₁ = fileInodes s := by rw [fileInodes, fileInodes, hfile]
  have hb₁ : Base s₁.inode (ip ::ₘ own + fileInodes s₁) := by
    rw [hI, hfiles₁]
    exact hb.moreLink hnf hdir hov
  have hsame : SameEntries s.inode s₁.inode := by
    rw [hI]
    exact sameEntries_moreLink
  have hpar : resolveParent s₁.inode cwd new = resolveParent s.inode cwd new :=
    hsame.followParent ..
  have hbad {s₃ : State} (hf₃ : Frame s₁ s₃) (hh₃ : Held s₃ (ip ::ₘ own) fds) :
      Ends (linkBad ip) s₃ P fun _ s' => Left A B own fds s s' :=
    linkBad_spec hb hnf hov (hf₃.inode.trans hI) (hf₃.file.trans hfile)
      (hf₃.task.trans htask) hh₃
  refine nameiparent_ilock_spec hP (fun hns => hdangling (fun hs => hns (hsame.sound hs))) hh hb₁
    (mem_cons_of_mem hcwd) new (fun _ => hbad) fun dp name s₃ hf13 hh₃ hdp hres => ?_
  rw [hpar] at hres
  rw [(hsame dp).1] at hdp
  have hne : ip ≠ dp := file_ne_dir hdp hdir
  have hnode {s' : State} (hf : Frame s₁ s') : s'.inode dp = s.inode dp := by
    rw [hf.inode, hI, update_of_ne hne.symm]
  -- the name may be there already
  refine ends_bind (ends_bind ((dirlookup_spec (hP _ (by simp)) hh₃ (by rw [hnode hf13, hdp])
    name).mono (fun r s₄ hr => ?_)))
  obtain ⟨hf₄, hr⟩ := hr
  have hf14 := hf13.trans hf₄
  cases r with
  | some r =>
    obtain ⟨hh₄, -⟩ := hr
    refine ends_bind ((iput_keep hh₄ (fun hi hl => ?_)).mono
      (fun _ s₅ hs₅ => ends_pure ?_))
    · rw [cons_add]
      exact mem_cons_of_mem ((hb₁.of_frame hf14).keep _ hi hl)
    · obtain ⟨hf₅, hh₅, -⟩ := hs₅
      have hf15 := hf14.trans hf₅
      rw [if_pos rfl]
      refine ends_bind ((iput_base hh₅ (hb₁.of_frame hf15)).mono (fun _ s₆ hs₆ => ?_))
      exact hbad (hf15.trans hs₆.1) hs₆.2.1
  | none =>
    obtain ⟨hh₄, habsent⟩ := hr
    rw [hnode hf13] at habsent
    refine ends_bind (dirlinkWrite_spec hP (ends_pure ?_))
    rw [if_neg Bool.true_eq_false.mp, hnode hf14]
    exact linkMade_spec hb hnf hdir hov hdp habsent (hf14.inode.trans hI)
      (hf14.file.trans hfile) (hf14.task.trans htask) hh₄
      (fun hA' => hA hA' dp name hres)

end Link

end

end Xv6.Names
