import Xv6.NameSyscalls

/-!
# Link counts and dangling entries

Two properties of whole runs of the system calls on names, from the image
`mkfs` makes.

The first is that nothing is lost (`linksExact_of_tidy`). The code keeps this
only as long as nothing is made in a directory that was removed: `create` and
`link` do not look at the links of the directory they write to.

The second is that no entry that is followed dangles. Kids never do, but the
`..` of a directory does: it does not count as a reference, so that the
parent of a removed directory that is still in use can be removed and freed.
Going up then ends in the panic of `ilock` (`parent_freed`).
-/

namespace Xv6.Names

open Prog Finset

/-! ## The image -/

variable {i : ℕ} {s : State}

section Boot

variable (fs : Files)

/-- The number is that of a file given to `mkfs`. -/
def Files.IsFile (i : ℕ) : Prop := 2 ≤ i ∧ i < fs.list.length + 2
  deriving Decidable

theorem Files.inode_root : fs.inode ROOTINO = ⟨.T_DIR, 0, 0, 1, 0, fs.root⟩ := if_pos rfl

theorem Files.inode_file (h : fs.IsFile i) :
    (fs.inode i).type = .T_FILE ∧ (fs.inode i).nlink = 1 := by
  obtain ⟨h₁, h₂⟩ := h
  have hr : i ≠ ROOTINO := by
    rintro rfl
    exact absurd h₁ (by decide)
  have hlt : i - 2 < fs.list.length := by omega
  rw [Files.inode, if_neg hr, if_neg (by omega), List.getElem?_eq_getElem hlt]
  exact ⟨rfl, rfl⟩

theorem Files.inode_free (hi : i ≠ ROOTINO) (h : ¬ fs.IsFile i) :
    (fs.inode i).type = .free ∧ (fs.inode i).nlink = 0 := by
  rw [Files.inode, if_neg hi]
  split
  · exact ⟨rfl, rfl⟩
  · rename_i hlt
    have hnone : fs.list[i - 2]? = none := by
      refine List.getElem?_eq_none ?_
      by_contra hle
      exact h ⟨by omega, by omega⟩
    rw [hnone]
    exact ⟨rfl, rfl⟩

theorem Files.eq_root (h : (fs.inode i).type = .T_DIR) : i = ROOTINO := by
  by_contra hi
  by_cases hf : fs.IsFile i
  · rw [(fs.inode_file hf).1] at h
    nomatch h
  · rw [(fs.inode_free hi hf).1] at h
    nomatch h

/-- The entries of the root after its dots. -/
def Files.kids : List Dirent :=
  (fs.list.mapIdx fun k f => ⟨k + 2, strncpy f.1 DIRSIZ⟩) ++
    List.replicate (((fs.list.length + 2) * DIRENTSIZE / BSIZE + 1) * BSIZE / DIRENTSIZE
      - (fs.list.length + 2)) Dirent.zero

theorem Files.root_eq : fs.root = ⟨ROOTINO, strncpy dot DIRSIZ⟩ ::
    ⟨ROOTINO, strncpy dotdot DIRSIZ⟩ :: fs.kids := by
  simp only [Files.root, Files.kids, List.length_cons, List.length_mapIdx, List.cons_append]

/-- Every file is named once, and nothing else is. -/
theorem Files.countP_kids (hi : i ≠ 0) :
    fs.kids.countP (fun e => e.inum = i) = if fs.IsFile i then 1 else 0 := by
  have hmap : (fs.list.mapIdx fun k f => (⟨k + 2, strncpy f.1 DIRSIZ⟩ : Dirent)).map
      (fun e => e.inum) = List.range' 2 fs.list.length := by
    refine List.ext_getElem (by simp) (fun n h₁ h₂ => ?_)
    simp
    omega
  have hzero : (List.replicate (((fs.list.length + 2) * DIRENTSIZE / BSIZE + 1) * BSIZE
      / DIRENTSIZE - (fs.list.length + 2)) Dirent.zero).countP (fun e => e.inum = i) = 0 := by
    rw [List.countP_replicate, if_neg]
    exact fun h => hi (of_decide_eq_true h).symm
  have hcount : (fs.list.mapIdx fun k f => (⟨k + 2, strncpy f.1 DIRSIZ⟩ : Dirent)).countP
      (fun e => e.inum = i) = (List.range' 2 fs.list.length).count i := by
    rw [← hmap, List.count, List.countP_map]
    refine List.countP_congr (fun e _ => ?_)
    simp
  rw [Files.kids, List.countP_append, hzero, Nat.add_zero, hcount,
    (List.nodup_range' (s := 2)).count]
  refine if_congr ?_ rfl rfl
  rw [List.mem_range'_1]
  unfold Files.IsFile
  omega

theorem Files.names_root (hi : i ≠ 0) :
    (fs.inode ROOTINO).names i = if fs.IsFile i then 1 else 0 := by
  rw [fs.inode_root, Node.names, if_pos rfl, ← fs.countP_kids hi, Node.kids, fs.root_eq]
  rfl

theorem Files.names_other {q : ℕ} (hq : q ≠ ROOTINO) (i : ℕ) : (fs.inode q).names i = 0 :=
  Node.names_of_not_dir (fun h => hq (fs.eq_root h)) i

theorem Files.allNames_eq (hi : i ≠ 0) :
    allNames fs.inode i = if fs.IsFile i then 1 else 0 := by
  have hroot : ROOTINO ∈ range NINODES := by
    rw [mem_range, NINODES_eq]
    show 1 < 200
    omega
  rw [allNames, sum_eq_single ROOTINO (fun q _ hq => fs.names_other hq i)
    (fun h => absurd hroot h), fs.names_root hi]

theorem Files.links_eq (hi : (fs.inode i).type ≠ .T_DIR) :
    (fs.inode i).links = if fs.IsFile i then 1 else 0 := by
  have hr : i ≠ ROOTINO := by
    rintro rfl
    rw [fs.inode_root] at hi
    exact hi rfl
  by_cases hf : fs.IsFile i
  · rw [if_pos hf, Node.links, if_neg, (fs.inode_file hf).2]
    rw [(fs.inode_file hf).1]
    rintro ⟨⟩
  · rw [if_neg hf, Node.links, if_pos (fs.inode_free hr hf).1]

/-- The root has no directories in it. -/
theorem Files.dirKids_root : dirKids fs.inode (fs.inode ROOTINO) = 0 := by
  have hdir : ∀ i, i = ROOTINO → ¬ fs.IsFile i := by
    rintro i rfl h
    have h2 := h.1
    exact absurd h2 (by decide)
  have h := countP_eq_sum_countP (fs.inode ROOTINO).kids
    (fun i => (fs.inode i).type = .T_DIR) NINODES (fun i hi => by
      rw [fs.eq_root hi, NINODES_eq]
      show 1 < 200
      omega)
  rw [dirKids, h]
  refine sum_eq_zero (fun d hd => ?_)
  have hd' := fs.eq_root (mem_filter.mp hd).2
  have hd0 : d ≠ 0 := by
    rw [hd']
    decide
  have hn := fs.names_root hd0
  rw [if_neg (hdir d hd'), Node.names, fs.inode_root, if_pos rfl] at hn
  rw [fs.inode_root]
  exact hn

theorem Files.rootLive : (fs.inode ROOTINO).LiveDir := by
  rw [fs.inode_root]
  exact ⟨rfl, one_ne_zero⟩

theorem Files.up_root : (fs.inode ROOTINO).up = ROOTINO := by
  rw [fs.inode_root, Node.up, fs.root_eq]
  rfl

/-- **The image is a tree.** -/
theorem Files.tree : Tree fs.inode where
  bound i hi := by
    have hlen := fs.length_lt
    by_cases hr : i = ROOTINO
    · rw [hr, NINODES_eq]
      exact ⟨by decide, by decide⟩
    · by_cases hf : fs.IsFile i
      · obtain ⟨h₁, h₂⟩ := hf
        exact ⟨by omega, by omega⟩
      · exact absurd (fs.inode_free hr hf).1 hi
  short i := by
    by_cases hr : i = ROOTINO
    · rw [hr, fs.inode_root]
      show (0 : ℤ) ≤ 1 ∧ (1 : ℤ) < 2 ^ 15
      omega
    · by_cases hf : fs.IsFile i
      · rw [(fs.inode_file hf).2]
        omega
      · rw [(fs.inode_free hr hf).2]
        omega
  dots d hd := by
    rw [fs.eq_root hd, fs.inode_root]
    have hkids : (⟨.T_DIR, 0, 0, 1, 0, fs.root⟩ : Node).kids = fs.kids := by
      rw [Node.kids, fs.root_eq]
      rfl
    have hup : (⟨.T_DIR, 0, 0, 1, 0, fs.root⟩ : Node).up = ROOTINO := by
      rw [Node.up, fs.root_eq]
      rfl
    refine ⟨?_, ?_, fun e he hne => ?_⟩
    · rw [hkids, hup]
      exact fs.root_eq
    · rw [hup]
      decide
    · rw [hkids] at he
      rcases List.mem_append.mp he with he | he
      · obtain ⟨k, hk, rfl⟩ := List.mem_mapIdx.mp he
        intro h
        rw [namecmp_comm, namecmp_strncpy, namecmp_comm] at h
        exact fs.ne_dot _ (List.getElem_mem hk) h
      · rw [List.eq_of_mem_replicate he] at hne
        exact absurd rfl hne
  root := ⟨fs.rootLive, fs.up_root⟩
  parent := ⟨fun _ => 0, fun d hd hne => absurd (fs.eq_root hd.1) hne⟩
  dirNames d q hd := by
    have hd' := fs.eq_root hd
    subst hd'
    rw [if_neg (fun h => h.2.1 rfl)]
    by_cases hq : q = ROOTINO
    · rw [hq, fs.names_root (by decide), if_neg]
      rintro ⟨h, -⟩
      exact absurd h (by decide)
    · exact fs.names_other hq _
  dirLinks d hd := by
    rw [fs.eq_root hd.1, fs.dirKids_root, fs.inode_root]
    rfl
  fileLinks i hi hd := by
    rw [fs.allNames_eq hi, fs.links_eq hd]
    split
    · exact le_refl _
    · exact le_refl _

theorem Files.exact : Exact fs.inode where
  empty d hd hl := by
    rw [fs.eq_root hd] at hl
    exact absurd hl fs.rootLive.2
  fileLinks i hi hd := by
    rw [fs.allNames_eq hi, fs.links_eq hd]
    split
    · rfl
    · rfl

theorem Files.closed : Closed fs.inode := by
  intro d hd
  rw [fs.eq_root hd, fs.up_root]
  exact fs.rootLive

theorem boot_task_init : (boot fs).task initproc = some ⟨ROOTINO, fun _ => none⟩ := by
  show Function.update (fun _ => none) initproc (some _) initproc = _
  rw [Function.update_self]

theorem boot_task_of_ne {p : Fin NPROC} (hp : p ≠ initproc) : (boot fs).task p = none := by
  show Function.update (fun _ => none) initproc (some _) p = _
  rw [Function.update_of_ne hp]

theorem boot_task {p : Fin NPROC} {t : Task} (h : (boot fs).task p = some t) :
    t = ⟨ROOTINO, fun _ => none⟩ := by
  by_cases hp : p = initproc
  · rw [hp, boot_task_init] at h
    exact (Option.some.inj h).symm
  · rw [boot_task_of_ne fs hp] at h
    nomatch h

theorem cwds_boot : cwds (boot fs) = {ROOTINO} := by
  have hrest : ∀ p, p ∈ univ → p ≠ initproc → taskCwd ((boot fs).task p) = 0 := by
    intro p _ hp
    rw [boot_task_of_ne fs hp]
    rfl
  unfold cwds cwdsOf
  rw [sum_eq_single initproc hrest (fun h => absurd (mem_univ _) h),
    boot_task_init]
  rfl

theorem descs_eq_zero
    (h : ∀ p t, s.task p = some t → ∀ fd, t.ofile fd = none) : descs s = 0 := by
  unfold descs descsOf
  refine sum_eq_zero (fun p _ => ?_)
  cases ht : s.task p with
  | none => rfl
  | some t =>
    refine sum_eq_zero (fun fd _ => ?_)
    rw [h p t ht fd]
    rfl

theorem fileInodes_eq_zero
    (h : ∀ f, (s.file f).type = .FD_NONE) : fileInodes s = 0 := by
  unfold fileInodes inodesOf
  refine sum_eq_zero (fun f _ => ?_)
  rw [OpenFile.holds, if_neg]
  rw [h f]
  rintro (h' | h')
  · cases h'
  · cases h'

/-- **The system comes up with the counts right.** -/
theorem boot_inv : Inv (boot fs) := by
  have hfiles : fileInodes (boot fs) = 0 := fileInodes_eq_zero (fun _ => rfl)
  have hdescs : descs (boot fs) = 0 := descs_eq_zero (fun p t ht fd => by
    rw [boot_task fs ht])
  have hremoved : ∀ i, (fs.inode i).type ≠ .free → (fs.inode i).nlink ≠ 0 := by
    intro i hi
    by_cases hr : i = ROOTINO
    · rw [hr]
      exact fs.rootLive.2
    · by_cases hf : fs.IsFile i
      · rw [(fs.inode_file hf).2]
        exact one_ne_zero
      · exact absurd (fs.inode_free hr hf).1 hi
  refine ⟨⟨fun i => ?_, fun f => ?_, fun _ _ => rfl, fun i hi hl => ?_, fun i _ hv => ?_⟩,
    ⟨fun j hj => ?_, fun j hj hl => ?_, fs.tree⟩⟩
  · rw [hfiles, add_zero, cwds_boot, Multiset.count_singleton]
    show Function.update (fun _ => 0) ROOTINO 1 i = _
    by_cases hi : i = ROOTINO
    · rw [if_pos hi, hi, Function.update_self]
    · rw [if_neg hi, Function.update_of_ne hi]
  · rw [hdescs]
    rfl
  · exact absurd hl (hremoved i hi)
  · nomatch hv
  · rw [hfiles, add_zero, cwds_boot, Multiset.mem_singleton] at hj
    rw [hj]
    show (fs.inode ROOTINO).type ≠ .free
    rw [fs.rootLive.1]
    exact nofun
  · exact absurd hl (hremoved j hj)

end Boot

/-! ## Runs -/

/-- **One step keeps the tree and the counts**, and panics at a free inode only if
entries dangle. -/
theorem step_spec {e : Event} (hinv : Inv s)
    (hc : ∀ t ∈ s.task e.proc, e.call.Careful s t) :
    (∀ s', step s e = .next s' → Inv s' ∧ ∃ t ∈ s.task e.proc,
      Keeps (e.call.NothingLost s t) (e.call.ParentsStay s t) s.inode s'.inode)
    ∧ ∀ err, step s e = .panic err → NoDangling s.inode err := by
  unfold step
  cases ht : s.task e.proc with
  | none => exact ⟨nofun, nofun⟩
  | some t =>
    have hspec := code_spec hinv ht (hc t ht) e.room
    unfold Ends at hspec
    dsimp only
    split at hspec <;> rename_i hcode <;> rw [hcode]
    · refine ⟨?_, nofun⟩
      rintro _ ⟨⟩
      exact ⟨hspec.1, t, rfl, hspec.2⟩
    · refine ⟨nofun, ?_⟩
      rintro _ ⟨⟩
      exact hspec

/-- A call that nothing is lost by: it makes nothing in a removed directory,
and gives no file more links than can be counted. -/
def Tidy (s : State) (e : Event) : Prop :=
  ∀ t ∈ s.task e.proc, e.call.Careful s t ∧ e.call.NothingLost s t
  deriving Decidable

/-- A call after which no entry dangles: it makes no directory in a removed
one, gives no file more links than can be counted, and removes no directory
that a removed one still in use has as its parent. -/
def Orderly (s : State) (e : Event) : Prop :=
  ∀ t ∈ s.task e.proc, e.call.Careful s t ∧ e.call.ParentsStay s t
  deriving Decidable

theorem inv_of_tidy {fs : Files}
    (h : Machine.Reach step Tidy (boot fs) s) : Inv s ∧ Exact s.inode := by
  refine h.invariant (P := fun s => Inv s ∧ Exact s.inode) ⟨boot_inv fs, fs.exact⟩
    (fun s e s' ⟨hinv, hE⟩ hok hstep => ?_)
  obtain ⟨hinv', t, ht, hk⟩ := (step_spec hinv fun t ht => (hok t ht).1).1 s' hstep
  exact ⟨hinv', hk.exact (hok t ht).2 hE⟩

theorem inv_of_orderly {fs : Files}
    (h : Machine.Reach step Orderly (boot fs) s) : Inv s ∧ Closed s.inode := by
  refine h.invariant (P := fun s => Inv s ∧ Closed s.inode) ⟨boot_inv fs, fs.closed⟩
    (fun s e s' ⟨hinv, hC⟩ hok hstep => ?_)
  obtain ⟨hinv', t, ht, hk⟩ := (step_spec hinv fun t ht => (hok t ht).1).1 s' hstep
  exact ⟨hinv', hk.closed (hok t ht).2 hC⟩

/-! ## Links and reachability -/

/-- An inode that directory entries lead to from the root. -/
inductive Reachable (I : Inodes) : ℕ → Prop
  | root : Reachable I ROOTINO
  | entry {d : ℕ} {e : Dirent} (hd : Reachable I d) (hdir : (I d).type = .T_DIR)
      (he : e ∈ (I d).ents) (hne : e.inum ≠ 0) : Reachable I e.inum

open Classical in
/-- How many entries other than `.` name an inode, in reachable directories. -/
noncomputable def entriesNaming (I : Inodes) (i : ℕ) : ℕ :=
  ∑ d ∈ range NINODES, if Reachable I d ∧ (I d).type = .T_DIR then
    (I d).ents.countP (fun e => e.inum = i ∧ namecmp e.name dot ≠ 0) else 0

/-- **Link counts are exact and nothing is orphaned**: every allocated inode
is reachable and its link count is the number of entries that name it; an
inode that is not reachable is free. -/
structure LinksExact (I : Inodes) : Prop where
  reachable : ∀ i, (I i).type ≠ .free → Reachable I i
  nlink : ∀ i, (I i).type ≠ .free → (I i).nlink = entriesNaming I i
  free : ∀ i, ¬ Reachable I i → (I i).type = .free

/-- No file is open and every current directory is the root. -/
def Quiescent (s : State) : Prop :=
  ∀ p, ∀ t ∈ s.task p, t.cwd = ROOTINO ∧ ∀ fd, t.ofile fd = none
  deriving Decidable

section Links

variable {I : Inodes} (T : Tree I) (hlive : ∀ i, (I i).type ≠ .free → (I i).nlink ≠ 0)

include T in
/-- **Live directories are reachable**, by induction on their depth. -/
theorem Tree.reachable_dir {d : ℕ} (hd : (I d).LiveDir) : Reachable I d := by
  obtain ⟨depth, hdepth⟩ := T.parent
  induction hn : depth d using Nat.strong_induction_on generalizing d with
  | _ n ih =>
    by_cases hr : d = ROOTINO
    · rw [hr]
      exact .root
    · obtain ⟨hup, hlt⟩ := hdepth d hd hr
      have hone := T.dirNames d (I d).up hd.1
      rw [if_pos ⟨hd, hr, rfl⟩] at hone
      obtain ⟨-, e, he, rfl⟩ := Node.names_pos.mp (hone ▸ Nat.one_pos)
      exact .entry (ih _ (hn ▸ hlt) hup rfl) hup.1 (List.mem_of_mem_drop he) (T.pos hd.1)

include T hlive in
/-- Without removed inodes, everything allocated is reachable. -/
theorem reachable_of_alloc (E : Exact I) (hi : (I i).type ≠ .free) :
    Reachable I i := by
  by_cases hd : (I i).type = .T_DIR
  · exact T.reachable_dir ⟨hd, hlive i hi⟩
  · have hpos := (T.bound i hi).1
    have hs := T.short i
    have hl := hlive i hi
    have hlinks := E.fileLinks i (by omega) hd
    rw [Node.links, if_neg hi] at hlinks
    obtain ⟨q, -, hq⟩ := exists_ne_zero_of_sum_ne_zero
      (s := range NINODES) (f := fun q => (I q).names i) (by
        show allNames I i ≠ 0
        omega)
    obtain ⟨hqd, e, he, rfl⟩ := Node.names_pos.mp (Nat.pos_of_ne_zero hq)
    have hqnf : (I q).type ≠ .free := by
      rw [hqd]
      rintro ⟨⟩
    exact .entry (T.reachable_dir ⟨hqd, hlive q hqnf⟩) hqd (List.mem_of_mem_drop he) (by omega)

include T in
/-- The entries of a directory that count: its kids, and its `..`. -/
theorem Tree.countP_ents {d i : ℕ} (hd : (I d).type = .T_DIR) (hi : i ≠ 0) :
    (I d).ents.countP (fun e => e.inum = i ∧ namecmp e.name dot ≠ 0)
      = (I d).names i + if (I d).up = i then 1 else 0 := by
  have hdots := T.dots d hd
  have hkids : (I d).kids.countP (fun e => e.inum = i ∧ namecmp e.name dot ≠ 0)
      = (I d).names i := by
    rw [Node.names_eq hd]
    refine List.countP_congr (fun e he => ?_)
    simp only [decide_eq_true_eq]
    refine ⟨fun h => h.1, fun h => ⟨h, hdots.ne_dot e he (h ▸ hi)⟩⟩
  have hdot : namecmp (strncpy dot DIRSIZ) dot = 0 := by decide
  have hdotdot : namecmp (strncpy dotdot DIRSIZ) dot ≠ 0 := by decide
  rw [hdots.ents, List.countP_cons, List.countP_cons, hkids]
  simp [hdot, hdotdot]

include T in
/-- The directories that have a directory as their parent are those in it;
the root is its own. -/
theorem Tree.card_children (hdirs : ∀ d, (I d).type = .T_DIR → (I d).LiveDir)
    (hi : (I i).type = .T_DIR) :
    ((range NINODES).filter fun d => (I d).type = .T_DIR ∧ (I d).up = i).card
      = dirKids I (I i) + if i = ROOTINO then 1 else 0 := by
  have hroot : (if i = ROOTINO then 1 else 0)
      = ∑ d ∈ range NINODES, if d = ROOTINO ∧ i = ROOTINO then 1 else 0 := by
    by_cases hr : i = ROOTINO
    · simp [hr, T.lt T.root.1.1]
    · simp [hr]
  rw [dirKids, countP_eq_sum_countP (I i).kids (fun j => (I j).type = .T_DIR) NINODES
    (fun j hj => T.lt hj), card_filter, sum_filter, hroot,
    ← sum_add_distrib]
  refine sum_congr rfl (fun c _ => ?_)
  by_cases hc : (I c).type = .T_DIR
  · have hn := T.dirNames c i hc
    rw [Node.names_eq hi] at hn
    rw [if_pos hc, hn]
    by_cases hcr : c = ROOTINO
    · simp [hcr, T.root.1.1, T.root.2, eq_comm]
    · simp [hcr, hc, hdirs c hc, eq_comm]
  · have hcr : c ≠ ROOTINO := by
      rintro rfl
      exact hc T.root.1.1
    simp [hc, hcr]

include T in
theorem Tree.allNames_dir (hi : (I i).LiveDir) :
    allNames I i = if i = ROOTINO then 0 else 1 := by
  rw [allNames, sum_congr rfl (fun q _ => T.dirNames i q hi.1)]
  by_cases hr : i = ROOTINO
  · simp [hr]
  · obtain ⟨depth, hdepth⟩ := T.parent
    simp [hr, hi, T.lt (hdepth i hi hr).1.1]

include T in
theorem Tree.up_dir (hdirs : ∀ d, (I d).type = .T_DIR → (I d).LiveDir) {d : ℕ}
    (hd : (I d).type = .T_DIR) : (I (I d).up).type = .T_DIR := by
  by_cases hr : d = ROOTINO
  · rw [hr, T.root.2]
    exact T.root.1.1
  · obtain ⟨depth, hdepth⟩ := T.parent
    exact (hdepth d (hdirs d hd) hr).1.1

include T in
theorem Tree.entriesNaming_eq (hdirs : ∀ d, (I d).type = .T_DIR → (I d).LiveDir)
    (hi : i ≠ 0) : entriesNaming I i = allNames I i
      + ((range NINODES).filter fun d => (I d).type = .T_DIR ∧ (I d).up = i).card := by
  rw [entriesNaming, allNames, card_filter, ← sum_add_distrib]
  refine sum_congr rfl (fun d _ => ?_)
  by_cases hd : (I d).type = .T_DIR
  · rw [if_pos ⟨T.reachable_dir (hdirs d hd), hd⟩, T.countP_ents hd hi]
    simp [hd]
  · rw [if_neg (fun h => hd h.2), Node.names_of_not_dir hd]
    simp [hd]

include T hlive in
/-- Without removed inodes, the links of everything are the entries that name it. -/
theorem nlink_eq_entriesNaming (E : Exact I) (hi : (I i).type ≠ .free) :
    (I i).nlink = entriesNaming I i := by
  have hi0 : i ≠ 0 := by
    have h := (T.bound i hi).1
    omega
  have hdirs : ∀ d, (I d).type = .T_DIR → (I d).LiveDir := by
    intro d hd
    refine ⟨hd, hlive d ?_⟩
    rw [hd]
    exact nofun
  rw [T.entriesNaming_eq hdirs hi0]
  by_cases hd : (I i).type = .T_DIR
  · rw [T.allNames_dir (hdirs i hd), T.card_children hdirs hd, T.dirLinks i (hdirs i hd)]
    split
    · push_cast
      ring
    · push_cast
      ring
  · have hnone : ((range NINODES).filter fun d =>
        (I d).type = .T_DIR ∧ (I d).up = i).card = 0 := by
      rw [card_eq_zero, filter_eq_empty_iff]
      rintro c - ⟨hc, hup⟩
      exact hd (hup ▸ T.up_dir hdirs hc)
    have hlinks := E.fileLinks i hi0 hd
    rw [Node.links, if_neg hi] at hlinks
    rw [hnone, Nat.add_zero, hlinks]

end Links

/-- At rest, no removed inode is left. -/
theorem Inv.live_of_quiescent (hinv : Inv s) (hq : Quiescent s) (i : ℕ)
    (hi : (s.inode i).type ≠ .free) : (s.inode i).nlink ≠ 0 := by
  intro hl
  have hdescs : descs s = 0 := descs_eq_zero (fun p t ht fd => (hq p t ht).2 fd)
  have hfiles : fileInodes s = 0 := by
    refine fileInodes_eq_zero (fun f => hinv.held.ftype f ?_)
    rw [hinv.held.fref, hdescs]
    rfl
  have hmem := hinv.base.keep i hi hl
  rw [hfiles, add_zero] at hmem
  unfold cwds cwdsOf at hmem
  obtain ⟨p, -, hp⟩ := Multiset.mem_sum.mp hmem
  cases ht : s.task p with
  | none =>
    rw [ht] at hp
    exact absurd hp (Multiset.notMem_zero i)
  | some t =>
    rw [ht] at hp
    have hcwd : i = t.cwd := Multiset.mem_singleton.mp hp
    rw [hcwd, (hq p t ht).1] at hl
    exact hinv.base.tree.root.1.2 hl

/-- **Link counts and no orphans.** In a run that makes nothing in a removed
directory and gives no file more links than can be counted, whenever no file
is open and every current directory is the root, the links are exact. -/
theorem linksExact_of_tidy (fs : Files) (s : State)
    (h : Machine.Reach step Tidy (boot fs) s) (hq : Quiescent s) : LinksExact s.inode := by
  obtain ⟨hinv, hE⟩ := inv_of_tidy h
  have hlive := hinv.live_of_quiescent hq
  have T := hinv.base.tree
  refine ⟨fun i hi => reachable_of_alloc T hlive hE hi,
    fun i hi => nlink_eq_entriesNaming T hlive hE hi, fun i hi => ?_⟩
  by_contra hnf
  exact hi (reachable_of_alloc T hlive hE hnf)

-- The runs below are evaluated by the kernel only.
attribute [local irreducible] NINODES

/-- An image without files. -/
def noFiles : Files :=
  ⟨[], by rw [NINODES_eq]; decide, fun f hf => absurd hf List.not_mem_nil⟩

/-- The calls of the first process, on a disk with room. -/
def calls (l : List Call) : List Event := l.map fun c => ⟨initproc, c, true⟩

/-- In `a`, a file `x` that gets another name and loses its first; then the
directory is removed. -/
def tidyCalls : List Event := calls
  [.mkdir (some [97]), .open (some [97, 47, 120]) (O_CREATE + 2), .close 0,
    .link (some [97, 47, 120]) (some [121]), .unlink (some [97, 47, 120]), .unlink (some [97])]

theorem linksExact_after_tidyCalls :
    ∃ s, Machine.Reach step Tidy (boot noFiles) s ∧ (s.inode 3).type = .T_FILE ∧
      LinksExact s.inode := by
  have hrun : (Machine.run step Tidy (boot noFiles) tidyCalls).Next fun s =>
    Quiescent s ∧ (s.inode 3).type = .T_FILE := by decide +kernel
  obtain ⟨s, hreach, hq, hfile⟩ := Machine.exists_reach_of_run hrun
  exact ⟨s, hreach, hfile, linksExact_of_tidy noFiles s hreach hq⟩

/-- A process makes `a`, goes there, removes it, makes the file `x` in it and
leaves. -/
def orphanCalls : List Event := calls
  [.mkdir (some [97]), .chdir (some [97]), .unlink (some [46, 46, 47, 97]),
    .open (some [120]) (O_CREATE + 2), .close 0, .chdir (some [47])]

/-- **A file made in a removed directory is lost**: when the process has
closed it and left, it is still allocated, and no entry leads to it. -/
theorem create_in_removed :
    ∃ s, Machine.Reach step (fun _ _ => True) (boot noFiles) s ∧ Quiescent s ∧
      ¬ LinksExact s.inode := by
  have hrun : (Machine.run step (fun _ _ => True) (boot noFiles) orphanCalls).Next fun s =>
    Quiescent s ∧ (s.inode 3).type = .T_FILE ∧
      ∀ e ∈ (s.inode ROOTINO).ents, e.inum ≠ 0 → e.inum = ROOTINO := by decide +kernel
  obtain ⟨s, hreach, hq, hfile, hroot⟩ := Machine.exists_reach_of_run hrun
  refine ⟨s, hreach, hq, fun hexact => ?_⟩
  -- the root has no entries but its dots
  have honly : ∀ i, Reachable s.inode i → i = ROOTINO := by
    intro i hi
    induction hi with
    | root => rfl
    | entry _ _ he hne ih =>
      subst ih
      exact hroot _ he hne
  have hne : (s.inode 3).type ≠ .free := by
    rw [hfile]
    exact nofun
  exact absurd (honly 3 (hexact.reachable 3 hne)) (by decide)

/-! ## Dangling entries -/

/-- What `dirlookup` returns is named by an entry. -/
theorem dirlookup_ok {s s' : State} {d i k : ℕ} {name : List UInt8}
    (h : dirlookup d name s = .ok (some (i, k), s')) :
    (s.inode d).type = .T_DIR ∧ ∃ e ∈ (s.inode d).ents, e.inum = i ∧ e.inum ≠ 0 := by
  obtain ⟨_, _, hget, h⟩ := bind_ok.mp h
  cases hget
  split at h
  · cases h
  · rename_i hd
    refine ⟨not_not.mp hd, ?_⟩
    cases hfind : findName (s.inode d).ents name with
    | none =>
      rw [hfind] at h
      cases (pure_ok.mp h).1
    | some j =>
      rw [hfind] at h
      obtain ⟨_, s₁, -, hret⟩ := bind_ok.mp h
      obtain ⟨e, he, hm⟩ := findName_some hfind
      obtain ⟨rfl, -⟩ := Prod.mk.inj (Option.some.inj (pure_ok.mp hret).1)
      refine ⟨e, List.mem_of_getElem? he, ?_, hm.1⟩
      rw [List.getD_eq_getElem?_getD, he]
      rfl

/-- **No dangling entry is followed.** In a run that makes no directory in a
removed one, gives no file more links than can be counted and removes no
directory that a removed one in use has as its parent, what `dirlookup`
returns from a directory in use is allocated, and `ilock` does not panic. -/
theorem noDangling_of_orderly (fs : Files) (s : State)
    (h : Machine.Reach step Orderly (boot fs) s) :
    (∀ d, 0 < s.ref d → ∀ name i k s', dirlookup d name s = .ok (some (i, k), s') →
      (s.inode i).type ≠ .free) ∧
    ∀ e, Orderly s e → step s e ≠ .panic .ilockNoType := by
  obtain ⟨hinv, hC⟩ := inv_of_orderly h
  have hsound := hinv.base.tree.sound hC
  refine ⟨fun d _ name i k s' hlook => ?_, fun e hok hpanic => ?_⟩
  · obtain ⟨hd, e, he, rfl, hne⟩ := dirlookup_ok hlook
    exact hsound d hd e he hne
  · exact (step_spec hinv fun t ht => (hok t ht).1).2 _ hpanic hsound rfl

/-- The process makes `a`, goes there and removes it; its parent stays. -/
def orderlyCalls : List Event := calls
  [.mkdir (some [97]), .chdir (some [97]), .unlink (some [46, 46, 47, 97])]

theorem noDangling_after_orderlyCalls :
    ∃ s, Machine.Reach step Orderly (boot noFiles) s ∧
      step s ⟨initproc, .chdir (some [46, 46]), true⟩ ≠ .panic .ilockNoType := by
  have hrun : (Machine.run step Orderly (boot noFiles) orderlyCalls).Next fun _ => True := by
    decide +kernel
  obtain ⟨s, hreach, -⟩ := Machine.exists_reach_of_run hrun
  exact ⟨s, hreach, (noDangling_of_orderly noFiles s hreach).2 _ fun _ _ => ⟨trivial, trivial⟩⟩

/-- The process goes to `a/b`, removes it, removes its parent `a`, and goes up. -/
def danglingCalls : List Event := calls
  [.mkdir (some [97]), .mkdir (some [97, 47, 98]), .chdir (some [97, 47, 98]),
    .unlink (some [47, 97, 47, 98]), .unlink (some [47, 97]), .chdir (some [46, 46])]

/-- **The parent of a removed directory can be freed under it**, and going up
then ends in the panic of `ilock`. -/
theorem parent_freed :
    ∃ s e, Machine.Reach step (fun _ _ => True) (boot noFiles) s ∧
      step s e = .panic .ilockNoType := by
  have hrun : (Machine.run step (fun _ _ => True) (boot noFiles) danglingCalls).Panics
    .ilockNoType := by decide +kernel
  obtain ⟨s, e, hreach, -, hstep⟩ := Machine.panics_of_run hrun
  exact ⟨s, e, hreach, hstep⟩

/-! ## The directory tree -/

theorem inv_of_careful {fs : Files} {s : State}
    (h : Machine.Reach step (fun s e => ∀ t ∈ s.task e.proc, e.call.Careful s t) (boot fs) s) :
    Inv s :=
  h.invariant (boot_inv fs) fun _ _ _ hinv hok hstep => ((step_spec hinv hok).1 _ hstep).1

/-- **Directories stay a tree.** In a run that makes no directory in a removed one and gives no file
more links than can be counted, every live directory leads up to the root by its `..`, is reached
from it by names, and is named once but for the dots, in its parent; the root is not named. -/
theorem directories_stay_tree (fs : Files) (s : State)
    (h : Machine.Reach step (fun s e => ∀ t ∈ s.task e.proc, e.call.Careful s t) (boot fs) s)
    {d : ℕ} (hd : (s.inode d).LiveDir) :
    (∃ k, (fun d => (s.inode d).up)^[k] d = ROOTINO) ∧ Reachable s.inode d
    ∧ ∀ q, (s.inode q).names d = if d ≠ ROOTINO ∧ q = (s.inode d).up then 1 else 0 := by
  have T := (inv_of_careful h).base.tree
  refine ⟨?_, T.reachable_dir hd, fun q => ?_⟩
  · obtain ⟨depth, hdepth⟩ := T.parent
    induction hn : depth d using Nat.strong_induction_on generalizing d with
    | _ n ih =>
      by_cases hr : d = ROOTINO
      · exact ⟨0, hr⟩
      · obtain ⟨hup, hlt⟩ := hdepth d hd hr
        obtain ⟨k, hk⟩ := ih _ (hn ▸ hlt) hup rfl
        exact ⟨k + 1, hk⟩
  · rw [T.dirNames d q hd.1]
    simp only [hd, true_and]

theorem directories_stay_tree_ab : ∃ s d, Machine.Reach step
      (fun s e => ∀ t ∈ s.task e.proc, e.call.Careful s t) (boot noFiles) s
    ∧ (s.inode d).LiveDir ∧ d ≠ ROOTINO ∧ Reachable s.inode d := by
  have hrun : (Machine.run step (fun s e => ∀ t ∈ s.task e.proc, e.call.Careful s t)
      (boot noFiles) (calls [.mkdir (some [97]), .mkdir (some [97, 47, 98])])).Next fun s =>
    (s.inode 3).LiveDir := by decide +kernel
  obtain ⟨s, hreach, hd⟩ := Machine.exists_reach_of_run hrun
  exact ⟨s, 3, hreach, hd, by decide, (directories_stay_tree noFiles s hreach hd).2.1⟩

/-- **A path is resolved name by name**, in every state of such a run: `namex` gives what following
the components leads to, changes no inode, file or process, and takes one reference, to what it
gives. It panics only in `iget`, on a full table, or at a dangling entry. -/
theorem namex_resolves (fs : Files) (s : State)
    (h : Machine.Reach step (fun s e => ∀ t ∈ s.task e.proc, e.call.Careful s t) (boot fs) s)
    {p : Fin NPROC} {t : Task} (ht : s.task p = some t) (parent : Bool) (path : List UInt8) :
    Ends (namex t.cwd parent path) s (fun e => e = .iget ∨ ¬ Sound s.inode ∧ e = .ilockNoType)
      fun r s' => r = walked s.inode parent (pathStart t.cwd path) (components path) ∧ Frame s s'
        ∧ ∀ i, s'.ref i = s.ref i + (r.toList.map Prod.fst).count i := by
  have hinv := inv_of_careful h
  have hcwd := mem_cwds ht
  refine (namex_spec (.inl rfl) (fun hs => .inr ⟨hs, rfl⟩) hinv.held hcwd
    (hinv.base.cwd_alloc hcwd) hinv.base.root_alloc parent path).mono fun r s' hw => ?_
  obtain ⟨hf, hr, hm⟩ := hw
  refine ⟨hr, hf, fun i => ?_⟩
  cases r with
  | none => simp [hm.ref, hinv.held.ref, hf.fileInodes_eq]
  | some r =>
    rw [hm.1.ref, hinv.held.ref, hf.fileInodes_eq, Multiset.cons_add, Multiset.count_cons]
    simp [List.count_cons, eq_comm (a := i)]

theorem namex_resolves_a : ∃ s t, s.task initproc = some t ∧ Ends (namex t.cwd false [97]) s
    (fun e => e = .iget ∨ ¬ Sound s.inode ∧ e = .ilockNoType)
      fun r s' => r = some (2, []) ∧ s'.ref 2 = s.ref 2 + 1 := by
  have hrun : (Machine.run step (fun s e => ∀ t ∈ s.task e.proc, e.call.Careful s t)
      (boot noFiles) (calls [.mkdir (some [97])])).Next fun s => ∃ t ∈ s.task initproc,
    walked s.inode false (pathStart t.cwd [97]) (components [97]) = some (2, []) := by
    decide +kernel
  obtain ⟨s, hreach, t, ht, hw⟩ := Machine.exists_reach_of_run hrun
  refine ⟨s, t, ht, (namex_resolves noFiles s hreach ht false [97]).mono fun r s' h => ?_⟩
  rw [hw] at h
  exact ⟨h.1, by simpa [h.1] using h.2.2 2⟩

end Xv6.Names
