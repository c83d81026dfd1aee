import Xv6.Namespace

/-!
# The shape of the directory tree

What the inodes of a file system look like between two system calls, as a
statement about the inodes alone. A directory starts with an entry `.` for
itself and an entry `..` for its parent; the entries after these two are its
`kids`. A directory that was removed while a process was in it stays
allocated with `nlink = 0`, so directories are of two kinds, and the live
ones are those with links.

`Tree` says that the live directories form a tree: the parent of a live
directory is live and nearer to the root, exactly one kid names the
directory, and that kid is in its parent. The links of a directory are its
name and the `..` of the directories it contains. A directory freed with kids
in it takes them along and leaves the links of files counted.

`Tree` asks only that no directory is made in a removed one. Two more facts
depend on more: `Exact`, that removed directories are empty and the links of
files are their names, holds as long as nothing is made in a removed
directory; and `Closed`, that the parent of every directory is live, as long
as no directory is removed while a removed one has it as its parent.
-/

open Function Finset

namespace Xv6

/-! ## Entries of a directory that are written -/

theorem writeSlot_cons_cons (a b e : Dirent) (kids : List Dirent) (k : ℕ) :
    writeSlot (a :: b :: kids) (k + 2) e = a :: b :: writeSlot kids k e := by
  unfold writeSlot
  by_cases hk : k < kids.length
  · rw [if_pos hk, if_pos (by simpa using hk)]
    rfl
  · rw [if_neg hk, if_neg (by simpa using hk)]
    rfl

theorem freeSlot_cons_cons {a b : Dirent} {kids : List Dirent} (ha : a.inum ≠ 0)
    (hb : b.inum ≠ 0) : freeSlot (a :: b :: kids) = freeSlot kids + 2 := by
  simp [freeSlot, List.findIdx_cons, ha, hb]

theorem findName_cons_cons {a b : Dirent} {kids : List Dirent} {name : List UInt8} {k : ℕ}
    (ha : ¬ a.Matches name) (hb : ¬ b.Matches name)
    (h : findName (a :: b :: kids) name = some k) :
    ∃ j e, k = j + 2 ∧ kids[j]? = some e ∧ e.Matches name := by
  obtain ⟨e, he, hm⟩ := findName_some h
  match k, he with
  | 0, he =>
    obtain rfl : a = e := Option.some.inj he
    exact absurd hm ha
  | 1, he =>
    obtain rfl : b = e := Option.some.inj he
    exact absurd hm hb
  | j + 2, he => exact ⟨j, e, rfl, he, hm⟩

theorem countP_writeSlot_free {p : Dirent → Bool} {l : List Dirent} {k : ℕ} {e : Dirent}
    (hfree : ∀ x, l[k]? = some x → p x = false) :
    (writeSlot l k e).countP p = l.countP p + if p e then 1 else 0 := by
  unfold writeSlot
  split
  · rename_i hlt
    have hx := hfree l[k] (List.getElem?_eq_getElem hlt)
    rw [List.countP_set hlt, hx]
    simp
  · rw [List.countP_append, List.countP_singleton]

theorem countP_writeSlot_used {p : Dirent → Bool} {l : List Dirent} {k : ℕ} {e x : Dirent}
    (hx : l[k]? = some x) (he : p e = false) :
    (writeSlot l k e).countP p + (if p x then 1 else 0) = l.countP p := by
  obtain ⟨hlt, rfl⟩ := List.getElem?_eq_some_iff.mp hx
  have hpos : (if p l[k] then 1 else 0) ≤ l.countP p := by
    split
    · rename_i hp
      exact List.countP_pos_iff.mpr ⟨l[k], List.getElem_mem hlt, hp⟩
    · exact Nat.zero_le _
  rw [writeSlot, if_pos hlt, List.countP_set hlt, he]
  simp only [Bool.false_eq_true, if_false, Nat.add_zero]
  omega

theorem mem_writeSlot {l : List Dirent} {k : ℕ} {e x : Dirent} (h : x ∈ writeSlot l k e) :
    x = e ∨ x ∈ l := by
  unfold writeSlot at h
  split at h
  · exact (List.mem_or_eq_of_mem_set h).symm
  · rcases List.mem_append.mp h with h | h
    · exact .inr h
    · exact .inl (List.mem_singleton.mp h)

/-- Counting entries by the inode they name. -/
theorem countP_eq_sum_countP (l : List Dirent) (P : ℕ → Prop) [DecidablePred P] (n : ℕ)
    (hn : ∀ i, P i → i < n) :
    l.countP (fun e => P e.inum)
      = ∑ d ∈ (range n).filter P, l.countP (fun e => e.inum = d) := by
  induction l with
  | nil => simp
  | cons e l ih =>
    simp only [List.countP_cons, decide_eq_true_eq, sum_add_distrib]
    rw [ih, sum_ite_eq]
    congr 1
    by_cases hP : P e.inum
    · rw [if_pos hP, if_pos (mem_filter.mpr ⟨mem_range.mpr (hn _ hP), hP⟩)]
    · rw [if_neg hP, if_neg (fun h => hP (mem_filter.mp h).2)]

end Xv6

namespace Xv6.Names

/-! ## Nodes -/

namespace Node

/-- A directory that has links. -/
def LiveDir (n : Node) : Prop := n.type = .T_DIR ∧ n.nlink ≠ 0
  deriving Decidable

/-- The entries of a directory after `.` and `..`. -/
def kids (n : Node) : List Dirent := n.ents.drop 2

/-- The parent of a directory. -/
def up (n : Node) : ℕ := (n.ents.getD 1 Dirent.zero).inum

/-- How many kids of the node name an inode. -/
def names (n : Node) (i : ℕ) : ℕ :=
  if n.type = .T_DIR then n.kids.countP fun e => e.inum = i else 0

/-- The links of an inode; a free one has none. -/
def links (n : Node) : ℤ := if n.type = .free then 0 else n.nlink

/-- A directory starts with entries for itself and for its parent, and no
other entry is named `.`. -/
structure Dots (d : ℕ) (n : Node) : Prop where
  ents : n.ents = ⟨d, strncpy dot DIRSIZ⟩ :: ⟨n.up, strncpy dotdot DIRSIZ⟩ :: n.kids
  up_ne : n.up ≠ 0
  ne_dot : ∀ e ∈ n.kids, e.inum ≠ 0 → namecmp e.name dot ≠ 0

/-- The node with one more entry, in its first free place. -/
def add (n : Node) (e : Dirent) : Node :=
  { n with ents := writeSlot n.ents (freeSlot n.ents) e }

/-- The node with one entry cleared. -/
def clear (n : Node) (k : ℕ) : Node := { n with ents := writeSlot n.ents k Dirent.zero }

theorem names_of_not_dir {n : Node} (h : n.type ≠ .T_DIR) (i : ℕ) : n.names i = 0 :=
  if_neg h

theorem names_eq {n : Node} (h : n.type = .T_DIR) (i : ℕ) :
    n.names i = n.kids.countP fun e => e.inum = i :=
  if_pos h

theorem names_pos {n : Node} {i : ℕ} :
    0 < n.names i ↔ n.type = .T_DIR ∧ ∃ e ∈ n.kids, e.inum = i := by
  unfold names
  split <;> rename_i h
  · simp [List.countP_pos_iff, h]
  · simp [h]

variable {d k : ℕ} {n : Node} {e : Dirent}

theorem Dots.ents_add (h : n.Dots d) (hd : d ≠ 0) :
    (n.add e).ents = ⟨d, strncpy dot DIRSIZ⟩ :: ⟨n.up, strncpy dotdot DIRSIZ⟩ ::
      writeSlot n.kids (freeSlot n.kids) e := by
  show writeSlot n.ents (freeSlot n.ents) e = _
  have hb : (⟨n.up, strncpy dotdot DIRSIZ⟩ : Dirent).inum ≠ 0 := h.up_ne
  rw [h.ents, freeSlot_cons_cons (by exact hd) hb, writeSlot_cons_cons]

theorem Dots.kids_add (h : n.Dots d) (hd : d ≠ 0) :
    (n.add e).kids = writeSlot n.kids (freeSlot n.kids) e := by
  rw [kids, h.ents_add hd]
  rfl

theorem Dots.up_add (h : n.Dots d) (hd : d ≠ 0) : (n.add e).up = n.up := by
  rw [up, h.ents_add hd]
  rfl

theorem Dots.ents_clear (h : n.Dots d) :
    (n.clear (k + 2)).ents = ⟨d, strncpy dot DIRSIZ⟩ :: ⟨n.up, strncpy dotdot DIRSIZ⟩ ::
      writeSlot n.kids k Dirent.zero := by
  show writeSlot n.ents (k + 2) Dirent.zero = _
  rw [h.ents, writeSlot_cons_cons]

theorem Dots.kids_clear (h : n.Dots d) :
    (n.clear (k + 2)).kids = writeSlot n.kids k Dirent.zero := by
  rw [kids, h.ents_clear]
  rfl

theorem Dots.up_clear (h : n.Dots d) : (n.clear (k + 2)).up = n.up := by
  rw [up, h.ents_clear]
  rfl

theorem Dots.add (h : n.Dots d) (hd : d ≠ 0) (he : namecmp e.name dot ≠ 0) :
    (n.add e).Dots d where
  ents := by rw [h.up_add hd, h.kids_add hd, h.ents_add hd]
  up_ne := by
    rw [h.up_add hd]
    exact h.up_ne
  ne_dot := by
    rw [h.kids_add hd]
    intro x hx hne
    rcases mem_writeSlot hx with rfl | hx
    · exact he
    · exact h.ne_dot x hx hne

theorem Dots.clear (h : n.Dots d) : (n.clear (k + 2)).Dots d where
  ents := by rw [h.up_clear, h.kids_clear, h.ents_clear]
  up_ne := by
    rw [h.up_clear]
    exact h.up_ne
  ne_dot := by
    rw [h.kids_clear]
    intro x hx hne
    rcases mem_writeSlot hx with rfl | hx
    · exact absurd rfl hne
    · exact h.ne_dot x hx hne

theorem Dots.countP_add (h : n.Dots d) (hd : d ≠ 0) {p : Dirent → Bool}
    (hp : ∀ x : Dirent, x.inum = 0 → p x = false) :
    (n.add e).kids.countP p = n.kids.countP p + if p e then 1 else 0 := by
  rw [h.kids_add hd]
  exact countP_writeSlot_free (fun x hx => hp x ((freeSlot_spec n.kids).2 x hx))

theorem Dots.countP_clear (h : n.Dots d) (he : n.kids[k]? = some e) {p : Dirent → Bool}
    (hp : ∀ x : Dirent, x.inum = 0 → p x = false) :
    (n.clear (k + 2)).kids.countP p + (if p e then 1 else 0) = n.kids.countP p := by
  rw [h.kids_clear]
  exact countP_writeSlot_used he (hp _ rfl)

theorem Dots.names_add (h : n.Dots d) (hd : d ≠ 0) (hn : n.type = .T_DIR) {i : ℕ}
    (hi : i ≠ 0) : (n.add e).names i = n.names i + if e.inum = i then 1 else 0 := by
  rw [names_eq (n := n.add e) hn, names_eq hn,
    h.countP_add hd (fun x hx => decide_eq_false (fun h => hi (h.symm.trans hx)))]
  simp

theorem Dots.names_clear (h : n.Dots d) (he : n.kids[k]? = some e) (hn : n.type = .T_DIR)
    {i : ℕ} (hi : i ≠ 0) :
    (n.clear (k + 2)).names i + (if e.inum = i then 1 else 0) = n.names i := by
  rw [names_eq (n := n.clear (k + 2)) hn, names_eq hn,
    ← h.countP_clear he (p := fun e => e.inum = i)
      (fun x hx => decide_eq_false (fun h => hi (h.symm.trans hx)))]
  simp

end Node

/-! ## The tree -/

/-- The inodes, by number. -/
abbrev Inodes : Type := ℕ → Node

/-- How many kids, over all directories, name an inode. -/
def allNames (I : Inodes) (i : ℕ) : ℕ := ∑ q ∈ range NINODES, (I q).names i

/-- How many kids of a node are directories. -/
def dirKids (I : Inodes) (n : Node) : ℕ := n.kids.countP fun e => (I e.inum).type = .T_DIR

/-- **The directory tree.** -/
structure Tree (I : Inodes) : Prop where
  /-- The inodes in use have numbers of inodes. -/
  bound : ∀ i, (I i).type ≠ .free → 0 < i ∧ i < NINODES
  /-- Link counts are not negative. -/
  short : ∀ i, 0 ≤ (I i).nlink ∧ (I i).nlink < 2 ^ 15
  /-- Directories start with their dots. -/
  dots : ∀ d, (I d).type = .T_DIR → (I d).Dots d
  /-- The root is its own parent. -/
  root : (I ROOTINO).LiveDir ∧ (I ROOTINO).up = ROOTINO
  /-- Parents are live, and nearer to the root. -/
  parent : ∃ depth : ℕ → ℕ, ∀ d, (I d).LiveDir → d ≠ ROOTINO →
    (I (I d).up).LiveDir ∧ depth (I d).up < depth d
  /-- A live directory is named once, in its parent; the root and a removed
  directory are not named. -/
  dirNames : ∀ d q, (I d).type = .T_DIR →
    (I q).names d = if (I d).LiveDir ∧ d ≠ ROOTINO ∧ q = (I d).up then 1 else 0
  /-- The links of a directory are its name and its directories. -/
  dirLinks : ∀ d, (I d).LiveDir → (I d).nlink = 1 + dirKids I (I d)
  /-- A file has a link for every kid that names it, a free inode no kid. -/
  fileLinks : ∀ i, i ≠ 0 → (I i).type ≠ .T_DIR → (allNames I i : ℤ) ≤ (I i).links

/-- **Removed directories are empty, and the links of files are their names.** -/
structure Exact (I : Inodes) : Prop where
  empty : ∀ d, (I d).type = .T_DIR → (I d).nlink = 0 → ∀ e ∈ (I d).kids, e.inum = 0
  fileLinks : ∀ i, i ≠ 0 → (I i).type ≠ .T_DIR → (allNames I i : ℤ) = (I i).links

/-- **The parent of every directory is live.** -/
def Closed (I : Inodes) : Prop := ∀ d, (I d).type = .T_DIR → (I (I d).up).LiveDir

section

variable {I : Inodes}

theorem names_le_allNames {q : ℕ} (hq : q < NINODES) (i : ℕ) :
    (I q).names i ≤ allNames I i :=
  single_le_sum (f := fun q => (I q).names i) (fun _ _ => Nat.zero_le _)
    (mem_range.mpr hq)

theorem Tree.pos (T : Tree I) {d : ℕ} (hd : (I d).type = .T_DIR) : d ≠ 0 := by
  have h := (T.bound d (by rw [hd]; exact nofun)).1
  omega

theorem Tree.lt (T : Tree I) {d : ℕ} (hd : (I d).type = .T_DIR) : d < NINODES :=
  (T.bound d (by rw [hd]; exact nofun)).2

theorem Tree.zero_free (T : Tree I) : (I 0).type = .free := by
  by_contra h
  exact absurd (T.bound 0 h).1 (lt_irrefl 0)

theorem Tree.not_dir_of_free (T : Tree I) {x : Dirent} (hx : x.inum = 0) :
    decide ((I x.inum).type = .T_DIR) = false := by
  rw [hx, T.zero_free]
  rfl

/-- **A free inode has no names**, nor has a file without links. -/
theorem Tree.names_eq_zero (T : Tree I) {i : ℕ} (hi : i ≠ 0) (hd : (I i).type ≠ .T_DIR)
    (hl : (I i).links = 0) (q : ℕ) : (I q).names i = 0 := by
  by_cases hq : (I q).type = .T_DIR
  · have h := T.fileLinks i hi hd
    have hle := names_le_allNames (I := I) (T.lt hq) i
    omega
  · exact Node.names_of_not_dir hq i

theorem Tree.names_removed (T : Tree I) {d : ℕ} (hd : (I d).type = .T_DIR)
    (hl : (I d).nlink = 0) (q : ℕ) : (I q).names d = 0 := by
  rw [T.dirNames d q hd, if_neg (fun h => h.1.2 hl)]

theorem Tree.of_named (T : Tree I) {d q : ℕ} (hd : (I d).type = .T_DIR)
    (h : 0 < (I q).names d) :
    (I d).LiveDir ∧ d ≠ ROOTINO ∧ q = (I d).up ∧ (I q).names d = 1 := by
  rw [T.dirNames d q hd] at h ⊢
  split at h
  · rename_i hc
    rw [if_pos hc]
    exact ⟨hc.1, hc.2.1, hc.2.2, rfl⟩
  · exact absurd h (lt_irrefl 0)

theorem names_pos_of_kid {q : ℕ} (hq : (I q).type = .T_DIR) {e : Dirent}
    (he : e ∈ (I q).kids) : 0 < (I q).names e.inum :=
  Node.names_pos.mpr ⟨hq, e, he, rfl⟩

/-- **A kid is allocated**, and has a link. -/
theorem Tree.kid_links (T : Tree I) {q : ℕ} (hq : (I q).type = .T_DIR) {e : Dirent}
    (he : e ∈ (I q).kids) (hne : e.inum ≠ 0) : 0 < (I e.inum).links := by
  have hpos := names_pos_of_kid hq he
  by_cases hd : (I e.inum).type = .T_DIR
  · obtain ⟨hlive, -⟩ := T.of_named hd hpos
    have hnf : (I e.inum).type ≠ .free := by
      rw [hd]
      exact nofun
    rw [Node.links, if_neg hnf]
    have hs := T.short e.inum
    have hl := hlive.2
    omega
  · have h := T.fileLinks e.inum hne hd
    have hle := names_le_allNames (I := I) (T.lt hq) e.inum
    omega

/-- The directories in one directory are few. -/
theorem Tree.dirKids_le (T : Tree I) {d : ℕ} (hd : (I d).type = .T_DIR) :
    dirKids I (I d) ≤ NINODES := by
  have h := countP_eq_sum_countP (I d).kids (fun i => (I i).type = .T_DIR) NINODES
    (fun i hi => T.lt hi)
  rw [dirKids, h]
  calc ∑ c ∈ (range NINODES).filter (fun i => (I i).type = .T_DIR),
        (I d).kids.countP (fun e => e.inum = c)
      ≤ ∑ _c ∈ (range NINODES).filter (fun i => (I i).type = .T_DIR), 1 := by
        refine sum_le_sum (fun c hc => ?_)
        have hn := T.dirNames c d (mem_filter.mp hc).2
        rw [← Node.names_eq hd, hn]
        split
        · exact le_refl 1
        · exact Nat.zero_le 1
    _ ≤ (range NINODES).card := by
        rw [sum_const, smul_eq_mul, Nat.mul_one]
        exact card_filter_le _ _
    _ = NINODES := card_range NINODES

end

/-! ## Changes that leave the directories as they are -/

/-- Directories keep their links, their parents and the names of directories. -/
structure SameDirs (I I' : Inodes) : Prop where
  type : ∀ q, (I' q).type = .T_DIR ↔ (I q).type = .T_DIR
  nlink : ∀ q, (I q).type = .T_DIR → (I' q).nlink = (I q).nlink
  up : ∀ q, (I q).type = .T_DIR → (I' q).up = (I q).up
  dots : ∀ q, (I q).type = .T_DIR → (I' q).Dots q
  names : ∀ q d, (I d).type = .T_DIR → (I' q).names d = (I q).names d
  kids : ∀ d, (I d).type = .T_DIR → dirKids I' (I' d) = dirKids I (I d)

section

variable {I I' : Inodes}

theorem SameDirs.liveDir (h : SameDirs I I') (q : ℕ) : (I' q).LiveDir ↔ (I q).LiveDir := by
  constructor
  · intro hq
    have hd := (h.type q).mp hq.1
    exact ⟨hd, h.nlink q hd ▸ hq.2⟩
  · intro hq
    exact ⟨(h.type q).mpr hq.1, (h.nlink q hq.1).symm ▸ hq.2⟩

/-- **The directories alone make the tree**; what is left is about files. -/
theorem Tree.same (T : Tree I) (h : SameDirs I I')
    (hbound : ∀ i, (I' i).type ≠ .free → 0 < i ∧ i < NINODES)
    (hshort : ∀ i, 0 ≤ (I' i).nlink ∧ (I' i).nlink < 2 ^ 15)
    (hfile : ∀ i, i ≠ 0 → (I' i).type ≠ .T_DIR → (allNames I' i : ℤ) ≤ (I' i).links) :
    Tree I' where
  bound := hbound
  short := hshort
  dots d hd := h.dots d ((h.type d).mp hd)
  root := ⟨(h.liveDir _).mpr T.root.1, (h.up _ T.root.1.1).trans T.root.2⟩
  parent := by
    obtain ⟨depth, hdepth⟩ := T.parent
    refine ⟨depth, fun d hd hne => ?_⟩
    have hlive := (h.liveDir d).mp hd
    rw [h.up d hlive.1, h.liveDir]
    exact hdepth d hlive hne
  dirNames d q hd := by
    have hd' := (h.type d).mp hd
    rw [h.names q d hd', T.dirNames d q hd', h.up d hd']
    simp only [h.liveDir]
  dirLinks d hd := by
    have hlive := (h.liveDir d).mp hd
    rw [h.nlink d hlive.1, h.kids d hlive.1]
    exact T.dirLinks d hlive
  fileLinks := hfile

theorem Closed.same (hc : Closed I) (h : SameDirs I I') : Closed I' := by
  intro d hd
  have hd' := (h.type d).mp hd
  rw [h.up d hd', h.liveDir]
  exact hc d hd'

/-- Directories that all are the same node have the same kids that are
directories. -/
theorem dirKids_congr (h : ∀ q, (I' q).type = .T_DIR ↔ (I q).type = .T_DIR) (n : Node) :
    dirKids I' n = dirKids I n := by
  have hp : (fun e : Dirent => decide ((I' e.inum).type = .T_DIR))
      = fun e : Dirent => decide ((I e.inum).type = .T_DIR) := by
    funext e
    exact decide_eq_decide.mpr (h e.inum)
  rw [dirKids, dirKids, hp]

end

/-! ## Links of files -/

/-- The inodes after a change of a file and of the directory that names it. -/
def relinked (I : Inodes) (i : ℕ) (n : Node) (dp : ℕ) (m : Node) : Inodes :=
  update (update I i n) dp m

/-- A directory whose entries for one file changed, and nothing else. -/
structure Retouched (I : Inodes) (i dp : ℕ) (m : Node) : Prop where
  type : m.type = .T_DIR
  nlink : m.nlink = (I dp).nlink
  up : m.up = (I dp).up
  dots : m.Dots dp
  names : ∀ j, j ≠ 0 → j ≠ i → m.names j = (I dp).names j
  kids : dirKids I m = dirKids I (I dp)

section Relink

variable {I : Inodes} (T : Tree I) {i dp : ℕ} {n m : Node}
variable (hdp : (I dp).type = .T_DIR) (hi : (I i).type ≠ .T_DIR) (hn : n.type ≠ .T_DIR)
variable (hm : Retouched I i dp m)

theorem relinked_dir : relinked I i n dp m dp = m := update_self ..

theorem relinked_file (hne : i ≠ dp) : relinked I i n dp m i = n := by
  rw [relinked, update_of_ne hne, update_self]

theorem relinked_of_ne {q : ℕ} (h₁ : q ≠ dp) (h₂ : q ≠ i) : relinked I i n dp m q = I q := by
  rw [relinked, update_of_ne h₁, update_of_ne h₂]

include hdp hi in
theorem file_ne_dir : i ≠ dp := by
  rintro rfl
  exact hi hdp

theorem relinked_cases {C : ℕ → Node → Prop} (hdir : C dp m) (hfile : i ≠ dp → C i n)
    (hother : ∀ q, q ≠ dp → q ≠ i → C q (I q)) (q : ℕ) : C q (relinked I i n dp m q) := by
  by_cases hq : q = dp
  · rw [hq, relinked_dir]
    exact hdir
  · by_cases hqi : q = i
    · subst hqi
      rw [relinked_file hq]
      exact hfile hq
    · rw [relinked_of_ne hq hqi]
      exact hother q hq hqi

include hdp hi hn hm in
theorem relinked_type (q : ℕ) :
    (relinked I i n dp m q).type = .T_DIR ↔ (I q).type = .T_DIR := by
  refine relinked_cases (C := fun q n => n.type = .T_DIR ↔ (I q).type = .T_DIR) ?_
    (fun _ => ⟨fun h => absurd h hn, fun h => absurd h hi⟩) (fun _ _ _ => Iff.rfl) q
  rw [hm.type, hdp]

include hi in
theorem relinked_of_dir {q : ℕ} (hq : (I q).type = .T_DIR) (hne : q ≠ dp) :
    relinked I i n dp m q = I q :=
  relinked_of_ne hne (fun h => hi (h ▸ hq))

include hdp hi hn hm in
theorem sameDirs_relinked (T : Tree I) : SameDirs I (relinked I i n dp m) := by
  have htype := relinked_type hdp hi hn hm
  refine ⟨htype, fun q hq => ?_, fun q hq => ?_, fun q hq => ?_, fun q d hd => ?_,
    fun d hd => ?_⟩
  · by_cases hqd : q = dp
    · rw [hqd, relinked_dir, hm.nlink]
    · rw [relinked_of_dir hi hq hqd]
  · by_cases hqd : q = dp
    · rw [hqd, relinked_dir, hm.up]
    · rw [relinked_of_dir hi hq hqd]
  · by_cases hqd : q = dp
    · rw [hqd, relinked_dir]
      exact hm.dots
    · rw [relinked_of_dir hi hq hqd]
      exact T.dots q hq
  · by_cases hqd : q = dp
    · rw [hqd, relinked_dir, hm.names d (T.pos hd) (fun h => hi (h ▸ hd))]
    · by_cases hqi : q = i
      · subst hqi
        rw [relinked_file hqd, Node.names_of_not_dir hn, Node.names_of_not_dir hi]
      · rw [relinked_of_ne hqd hqi]
  · rw [dirKids_congr htype]
    by_cases hdd : d = dp
    · rw [hdd, relinked_dir, hm.kids]
    · rw [relinked_of_dir hi hd hdd]

include T hdp hi hn in
/-- The names of an inode change by what the directory gives it. -/
theorem allNames_relinked (j : ℕ) :
    allNames (relinked I i n dp m) j + (I dp).names j = allNames I j + m.names j := by
  have hmem : dp ∈ range NINODES := mem_range.mpr (T.lt hdp)
  rw [allNames, allNames, ← add_sum_erase _ _ hmem,
    ← add_sum_erase _ (fun q => (I q).names j) hmem, relinked_dir]
  have hrest : ∑ q ∈ (range NINODES).erase dp, (relinked I i n dp m q).names j
      = ∑ q ∈ (range NINODES).erase dp, (I q).names j := by
    refine sum_congr rfl (fun q hq => ?_)
    have hqd := ne_of_mem_erase hq
    by_cases hqi : q = i
    · subst hqi
      rw [relinked_file hqd, Node.names_of_not_dir hn, Node.names_of_not_dir hi]
    · rw [relinked_of_ne hqd hqi]
  rw [hrest]
  omega

include T hdp hi hn hm in
theorem allNames_relinked_of_ne {j : ℕ} (hj : j ≠ 0) (hne : j ≠ i) :
    allNames (relinked I i n dp m) j = allNames I j := by
  have h := allNames_relinked (m := m) T hdp hi hn j
  rw [hm.names j hj hne] at h
  omega

include hdp in
theorem Tree.relinked_bound (T : Tree I) (hpos : 0 < i) (hlt : i < NINODES) :
    ∀ q, (relinked I i n dp m q).type ≠ .free → 0 < q ∧ q < NINODES :=
  relinked_cases (C := fun q n => n.type ≠ .free → 0 < q ∧ q < NINODES)
    (fun _ => ⟨Nat.pos_of_ne_zero (T.pos hdp), T.lt hdp⟩) (fun _ _ => ⟨hpos, hlt⟩)
    (fun q _ _ => T.bound q)

include hdp hi hn hm in
/-- **Changing the links of a file keeps the tree**, when they stay enough
for its names. -/
theorem Tree.relink (T : Tree I) (hpos : 0 < i) (hlt : i < NINODES)
    (hshort : 0 ≤ n.nlink ∧ n.nlink < 2 ^ 15)
    (hlinks : (allNames I i : ℤ) + m.names i ≤ n.links + (I dp).names i) :
    Tree (relinked I i n dp m) := by
  have hne := file_ne_dir hdp hi
  refine T.same (sameDirs_relinked hdp hi hn hm T)
    (T.relinked_bound hdp hpos hlt) (relinked_cases (C := fun _ n => 0 ≤ n.nlink ∧ n.nlink < 2 ^ 15)
      ?_ (fun _ => hshort) (fun q _ _ => T.short q)) (fun j hj hjd => ?_)
  · rw [hm.nlink]
    exact T.short dp
  · by_cases hji : j = i
    · have h := allNames_relinked (m := m) T hdp hi hn i
      rw [hji, relinked_file hne]
      omega
    · rw [ne_eq, relinked_type hdp hi hn hm] at hjd
      have hjdp : j ≠ dp := fun h => hjd (h ▸ hdp)
      rw [allNames_relinked_of_ne T hdp hi hn hm hj hji, relinked_of_ne hjdp hji]
      exact T.fileLinks j hj hjd

include T hdp hi hn hm in
/-- The links stay exact when they change as the names do. -/
theorem Exact.relink (E : Exact I)
    (hempty : (I dp).nlink = 0 → ∀ e ∈ m.kids, e.inum = 0)
    (hlinks : (allNames I i : ℤ) + m.names i = n.links + (I dp).names i) :
    Exact (relinked I i n dp m) := by
  have hne := file_ne_dir hdp hi
  constructor
  · intro d hd hl
    rw [relinked_type hdp hi hn hm] at hd
    by_cases hdd : d = dp
    · rw [hdd, relinked_dir] at hl ⊢
      exact hempty (hm.nlink ▸ hl)
    · rw [relinked_of_dir hi hd hdd] at hl ⊢
      exact E.empty d hd hl
  · intro j hj hjd
    by_cases hji : j = i
    · have h := allNames_relinked (m := m) T hdp hi hn i
      rw [hji, relinked_file hne]
      omega
    · rw [ne_eq, relinked_type hdp hi hn hm] at hjd
      have hjdp : j ≠ dp := fun h => hjd (h ▸ hdp)
      rw [allNames_relinked_of_ne T hdp hi hn hm hj hji, relinked_of_ne hjdp hji]
      exact E.fileLinks j hj hjd

end Relink

section Files

variable {I : Inodes} {i dp k : ℕ} {n : Node} {e : Dirent}

/-- A directory with a new entry for a file. -/
theorem Tree.retouched_add (T : Tree I) (hdp : (I dp).type = .T_DIR)
    (hi : (I i).type ≠ .T_DIR) (he : e.inum = i) (hname : namecmp e.name dot ≠ 0) :
    Retouched I i dp ((I dp).add e) where
  type := hdp
  nlink := rfl
  up := (T.dots dp hdp).up_add (T.pos hdp)
  dots := (T.dots dp hdp).add (T.pos hdp) hname
  names j hj hne := by
    rw [(T.dots dp hdp).names_add (T.pos hdp) hdp hj, he, if_neg (fun h => hne h.symm)]
    rfl
  kids := by
    have hnd : decide ((I e.inum).type = .T_DIR) = false := by
      rw [he]
      exact decide_eq_false hi
    rw [dirKids, (T.dots dp hdp).countP_add (T.pos hdp) (fun x hx => T.not_dir_of_free hx), hnd]
    rfl

theorem Tree.retouched_clear (T : Tree I) (hdp : (I dp).type = .T_DIR)
    (hi : (I e.inum).type ≠ .T_DIR) (he : (I dp).kids[k]? = some e) :
    Retouched I e.inum dp ((I dp).clear (k + 2)) where
  type := hdp
  nlink := rfl
  up := (T.dots dp hdp).up_clear
  dots := (T.dots dp hdp).clear
  names j hj hne := by
    rw [← (T.dots dp hdp).names_clear he hdp hj, if_neg (fun h => hne h.symm)]
    rfl
  kids := by
    have h := (T.dots dp hdp).countP_clear he (p := fun e => decide ((I e.inum).type = .T_DIR))
      (fun x hx => T.not_dir_of_free hx)
    rw [decide_eq_false hi] at h
    exact h

/-- **A new link to a file.** -/
theorem Tree.link (T : Tree I) (hdp : (I dp).type = .T_DIR) (hi : (I i).type ≠ .T_DIR)
    (hn : n.type ≠ .T_DIR) (hnf : n.type ≠ .free) (he : e.inum = i)
    (hname : namecmp e.name dot ≠ 0) (hpos : 0 < i) (hlt : i < NINODES)
    (hlinks : n.nlink = (I i).links + 1) (hshort : n.nlink < 2 ^ 15) :
    Tree (relinked I i n dp ((I dp).add e)) := by
  have hfl := T.fileLinks i (by omega) hi
  have hadd := (T.dots dp hdp).names_add (e := e) (T.pos hdp) hdp (i := i) (by omega)
  rw [if_pos he] at hadd
  refine T.relink hdp hi hn (T.retouched_add hdp hi he hname) hpos hlt ⟨by omega, hshort⟩ ?_
  rw [Node.links, if_neg hnf]
  omega

/-- The links stay exact, if the directory is not a removed one. -/
theorem Exact.link (E : Exact I) (T : Tree I) (hdp : (I dp).LiveDir)
    (hi : (I i).type ≠ .T_DIR) (hn : n.type ≠ .T_DIR) (hnf : n.type ≠ .free)
    (he : e.inum = i) (hname : namecmp e.name dot ≠ 0) (hpos : 0 < i)
    (hlinks : n.nlink = (I i).links + 1) :
    Exact (relinked I i n dp ((I dp).add e)) := by
  have hfl := E.fileLinks i (by omega) hi
  have hadd := (T.dots dp hdp.1).names_add (e := e) (T.pos hdp.1) hdp.1 (i := i) (by omega)
  rw [if_pos he] at hadd
  refine E.relink T hdp.1 hi hn (T.retouched_add hdp.1 hi he hname)
    (fun h => absurd h hdp.2) ?_
  rw [Node.links, if_neg hnf]
  omega

/-- **One link to a file less.** -/
theorem Tree.unlink (T : Tree I) (hdp : (I dp).type = .T_DIR) (he : (I dp).kids[k]? = some e)
    (hne : e.inum ≠ 0) (hi : (I e.inum).type ≠ .T_DIR) (hn : n.type ≠ .T_DIR)
    (hnf : n.type ≠ .free) (hlinks : n.nlink = (I e.inum).links - 1) :
    Tree (relinked I e.inum n dp ((I dp).clear (k + 2))) := by
  have hkid := T.kid_links hdp (List.mem_of_getElem? he) hne
  have hfree : (I e.inum).type ≠ .free := by
    intro h
    rw [Node.links, if_pos h] at hkid
    exact absurd hkid (lt_irrefl 0)
  have hb := T.bound e.inum hfree
  have hs := T.short e.inum
  have hfl := T.fileLinks e.inum hne hi
  have hclear := (T.dots dp hdp).names_clear he hdp hne
  rw [if_pos rfl] at hclear
  rw [Node.links, if_neg hfree] at hlinks hkid hfl
  refine T.relink hdp hi hn (T.retouched_clear hdp hi he) hb.1 hb.2 (by omega) ?_
  rw [Node.links, if_neg hnf]
  omega

theorem Exact.unlink (E : Exact I) (T : Tree I) (hdp : (I dp).type = .T_DIR)
    (he : (I dp).kids[k]? = some e) (hne : e.inum ≠ 0) (hi : (I e.inum).type ≠ .T_DIR)
    (hn : n.type ≠ .T_DIR) (hnf : n.type ≠ .free)
    (hlinks : n.nlink = (I e.inum).links - 1) :
    Exact (relinked I e.inum n dp ((I dp).clear (k + 2))) := by
  have hfl := E.fileLinks e.inum hne hi
  have hclear := (T.dots dp hdp).names_clear he hdp hne
  rw [if_pos rfl] at hclear
  refine E.relink T hdp hi hn (T.retouched_clear hdp hi he) (fun h => ?_) ?_
  · exact absurd (E.empty dp hdp h e (List.mem_of_getElem? he)) hne
  · rw [Node.links, if_neg hnf]
    omega

theorem relinked_root (hi : (I i).type ≠ .T_DIR) (T : Tree I) :
    relinked I i n ROOTINO (I ROOTINO) = update I i n := by
  rw [relinked]
  have hne : ROOTINO ≠ i := fun h => hi (h ▸ T.root.1.1)
  have h : I ROOTINO = update I i n ROOTINO := (update_of_ne hne ..).symm
  conv_lhs => rw [h]
  exact update_eq_self ..

theorem Tree.retouched_root (T : Tree I) : Retouched I i ROOTINO (I ROOTINO) :=
  ⟨T.root.1.1, rfl, rfl, T.dots _ T.root.1.1, fun _ _ _ => rfl, rfl⟩

/-- **A change of a file that keeps enough links.** -/
theorem Tree.setFile (T : Tree I) (hi : (I i).type ≠ .T_DIR) (hn : n.type ≠ .T_DIR)
    (hpos : 0 < i) (hlt : i < NINODES) (hshort : 0 ≤ n.nlink ∧ n.nlink < 2 ^ 15)
    (hlinks : (allNames I i : ℤ) ≤ n.links) : Tree (update I i n) := by
  rw [← relinked_root hi T]
  exact T.relink T.root.1.1 hi hn T.retouched_root hpos hlt hshort (by omega)

theorem Exact.setFile (E : Exact I) (T : Tree I) (hi : (I i).type ≠ .T_DIR)
    (hn : n.type ≠ .T_DIR) (hlinks : (allNames I i : ℤ) = n.links) :
    Exact (update I i n) := by
  rw [← relinked_root hi T]
  exact E.relink T T.root.1.1 hi hn T.retouched_root (fun h => absurd h T.root.1.2) (by omega)

theorem Closed.setFile (C : Closed I) (T : Tree I) (hi : (I i).type ≠ .T_DIR)
    (hn : n.type ≠ .T_DIR) : Closed (update I i n) := by
  rw [← relinked_root hi T]
  exact C.same (sameDirs_relinked T.root.1.1 hi hn T.retouched_root T)

end Files

/-! ## Directories made and removed -/

/-- A new directory: two entries, one link. -/
def newDir (i dp : ℕ) (major minor : ℤ) : Node :=
  ⟨.T_DIR, major, minor, 1, 0,
    [⟨i, strncpy dot DIRSIZ⟩, ⟨dp, strncpy dotdot DIRSIZ⟩]⟩

section Mkdir

variable {I : Inodes} (T : Tree I) {i dp : ℕ} {major minor : ℤ} {e : Dirent}

/-- The inodes after a directory was made in another one. -/
def madeDir (I : Inodes) (i dp : ℕ) (major minor : ℤ) (e : Dirent) : Inodes :=
  relinked I i (newDir i dp major minor) dp
    { (I dp).add e with nlink := (I dp).nlink + 1 }

variable (hfree : (I i).type = .free) (hpos : 0 < i) (hlt : i < NINODES)
variable (hdp : (I dp).LiveDir) (he : e.inum = i) (hname : namecmp e.name dot ≠ 0)

include hfree hdp in
theorem new_ne_dir : i ≠ dp := by
  rintro rfl
  rw [hdp.1] at hfree
  nomatch hfree

include T hfree hpos in
theorem new_names (q : ℕ) : (I q).names i = 0 := by
  have hnd : (I i).type ≠ .T_DIR := by
    rw [hfree]
    exact nofun
  refine T.names_eq_zero (by omega) hnd ?_ q
  rw [Node.links, if_pos hfree]

include hfree hdp in
theorem madeDir_new : madeDir I i dp major minor e i = newDir i dp major minor :=
  relinked_file (new_ne_dir hfree hdp)

theorem madeDir_dir : madeDir I i dp major minor e dp
    = { (I dp).add e with nlink := (I dp).nlink + 1 } :=
  relinked_dir

theorem madeDir_of_ne {q : ℕ} (h₁ : q ≠ dp) (h₂ : q ≠ i) :
    madeDir I i dp major minor e q = I q :=
  relinked_of_ne h₁ h₂

include T hfree hpos hdp he in
/-- The new directory is named, by its parent; all other names stay. -/
theorem names_madeDir (q : ℕ) {j : ℕ} (hj : j ≠ 0) :
    (madeDir I i dp major minor e q).names j
      = (I q).names j + if q = dp ∧ j = i then 1 else 0 := by
  by_cases hq : q = dp
  · subst hq
    rw [madeDir_dir]
    show ((I q).add e).names j = _
    rw [(T.dots q hdp.1).names_add (T.pos hdp.1) hdp.1 hj, he]
    simp [eq_comm]
  · rw [if_neg (fun h => hq h.1)]
    by_cases hqi : q = i
    · subst hqi
      have hnd : (I q).type ≠ .T_DIR := by
        rw [hfree]
        exact nofun
      rw [madeDir_new hfree hdp, Node.names_of_not_dir hnd]
      rfl
    · rw [madeDir_of_ne hq hqi]
      rfl

variable (major minor e) in
include hdp in
/-- All other directories keep type, liveness and parent. -/
theorem madeDir_liveDir (T : Tree I) {d : ℕ} (hd : d ≠ i) :
    ((madeDir I i dp major minor e d).type = .T_DIR ↔ (I d).type = .T_DIR) ∧
    ((madeDir I i dp major minor e d).LiveDir ↔ (I d).LiveDir) ∧
    ((I d).type = .T_DIR → (madeDir I i dp major minor e d).up = (I d).up) := by
  by_cases hdd : d = dp
  · subst hdd
    have hs := T.short d
    rw [madeDir_dir]
    refine ⟨Iff.rfl, ⟨fun _ => hdp, fun _ => ⟨hdp.1, ?_⟩⟩, fun h => ?_⟩
    · show (I d).nlink + 1 ≠ 0
      omega
    · exact (T.dots d h).up_add (T.pos h)
  · rw [madeDir_of_ne hdd hd]
    exact ⟨Iff.rfl, Iff.rfl, fun _ => rfl⟩

include T hfree hpos hdp he in
/-- The parent has one more directory, the new one none, the others what they had. -/
theorem dirKids_madeDir {d : ℕ} (hd : (madeDir I i dp major minor e d).type = .T_DIR) :
    dirKids (madeDir I i dp major minor e) (madeDir I i dp major minor e d)
      = if d = i then 0 else dirKids I (I d) + if d = dp then 1 else 0 := by
  have hne := new_ne_dir hfree hdp
  -- no kid of another directory names the new one, so being a directory
  -- did not change for what they name
  have hold : ∀ q, (I q).type = .T_DIR →
      (I q).kids.countP (fun x => decide ((madeDir I i dp major minor e x.inum).type = .T_DIR))
        = dirKids I (I q) := by
    intro q hq
    refine List.countP_congr (fun x hx => ?_)
    have hxi : x.inum ≠ i := by
      intro h
      have hpos' := names_pos_of_kid hq hx
      rw [h, new_names T hfree hpos] at hpos'
      exact absurd hpos' (lt_irrefl 0)
    simp only [decide_eq_true_eq]
    exact (madeDir_liveDir major minor e hdp T hxi).1
  by_cases hdi : d = i
  · rw [if_pos hdi, hdi, madeDir_new hfree hdp]
    rfl
  · rw [if_neg hdi]
    by_cases hdd : d = dp
    · subst hdd
      have hnew : decide ((madeDir I i d major minor e e.inum).type = .T_DIR) = true := by
        rw [he, madeDir_new hfree hdp]
        rfl
      have hzero : ∀ x : Dirent, x.inum = 0 →
          decide ((madeDir I i d major minor e x.inum).type = .T_DIR) = false := by
        intro x hx
        rw [hx, madeDir_of_ne (T.pos hdp.1).symm (by omega), T.zero_free]
        rfl
      have hadd := (T.dots d hdp.1).countP_add (e := e) (T.pos hdp.1) hzero
      rw [hold d hdp.1, hnew] at hadd
      rw [if_pos rfl]
      rw [madeDir_dir]
      exact hadd
    · rw [if_neg hdd]
      rw [(madeDir_liveDir major minor e hdp T hdi).1] at hd
      rw [madeDir_of_ne hdd hdi]
      exact hold d hd

include T hfree hpos hdp he in
/-- Files are what they were. -/
theorem madeDir_file {j : ℕ} (hj : j ≠ 0)
    (hjd : (madeDir I i dp major minor e j).type ≠ .T_DIR) :
    (I j).type ≠ .T_DIR ∧ allNames (madeDir I i dp major minor e) j = allNames I j
      ∧ madeDir I i dp major minor e j = I j := by
  have hji : j ≠ i := by
    rintro rfl
    rw [madeDir_new hfree hdp] at hjd
    exact hjd rfl
  rw [ne_eq, (madeDir_liveDir major minor e hdp T hji).1] at hjd
  refine ⟨hjd, sum_congr rfl (fun q _ => ?_), madeDir_of_ne (fun h => hjd (h ▸ hdp.1)) hji⟩
  rw [names_madeDir T hfree hpos hdp he q hj, if_neg (fun h => hji h.2)]
  rfl

include T hfree hpos hlt hdp he hname in
/-- **A directory made in a live one keeps the tree.** -/
theorem Tree.mkdir : Tree (madeDir I i dp major minor e) := by
  have hne := new_ne_dir hfree hdp
  have hroot : ROOTINO ≠ i := by
    rintro rfl
    rw [T.root.1.1] at hfree
    nomatch hfree
  have hother {d : ℕ} (hd : d ≠ i) :=
    madeDir_liveDir major minor e hdp T hd
  refine ⟨T.relinked_bound hdp.1 hpos hlt,
    relinked_cases (C := fun _ n => 0 ≤ n.nlink ∧ n.nlink < 2 ^ 15) ?_ (fun _ => ?_)
      (fun q _ _ => T.short q),
    relinked_cases (C := fun d n => n.type = .T_DIR → n.Dots d) (fun _ => ?_)
      (fun _ _ => ⟨rfl, T.pos hdp.1, fun x hx => absurd hx List.not_mem_nil⟩)
      (fun d _ _ => T.dots d),
    ⟨?_, ?_⟩, ?_, fun d q hd => ?_, fun d hd => ?_, fun j hj hjd => ?_⟩
  · have hs := T.short dp
    have hl := T.dirLinks dp hdp
    have hk := T.dirKids_le hdp.1
    have hN : NINODES = 200 := by unfold NINODES; rfl
    show 0 ≤ (I dp).nlink + 1 ∧ (I dp).nlink + 1 < 2 ^ 15
    omega
  · show (0 : ℤ) ≤ 1 ∧ (1 : ℤ) < 2 ^ 15
    omega
  · have h := (T.dots dp hdp.1).add (T.pos hdp.1) hname
    exact ⟨h.ents, h.up_ne, h.ne_dot⟩
  · exact (hother hroot).2.1.mpr T.root.1
  · exact ((hother hroot).2.2 T.root.1.1).trans T.root.2
  · obtain ⟨depth, hdepth⟩ := T.parent
    refine ⟨update depth i (depth dp + 1), fun d hd hdr => ?_⟩
    by_cases hdi : d = i
    · rw [hdi, madeDir_new hfree hdp, update_self]
      show (madeDir I i dp major minor e dp).LiveDir ∧ update depth i _ dp < _
      rw [update_of_ne hne.symm, (hother hne.symm).2.1]
      exact ⟨hdp, Nat.lt_succ_self _⟩
    · have hlive := (hother hdi).2.1.mp hd
      obtain ⟨hup, hlt'⟩ := hdepth d hlive hdr
      have hupi : (I d).up ≠ i := by
        intro h
        rw [h, Node.LiveDir, hfree] at hup
        exact nomatch hup.1
      rw [(hother hdi).2.2 hlive.1, (hother hupi).2.1, update_of_ne hupi,
        update_of_ne hdi]
      exact ⟨hup, hlt'⟩
  · have hd0 : d ≠ 0 := by
      rintro rfl
      rw [madeDir_of_ne (T.pos hdp.1).symm (by omega), T.zero_free] at hd
      nomatch hd
    rw [names_madeDir T hfree hpos hdp he q hd0]
    by_cases hdi : d = i
    · subst hdi
      have hlive : (newDir d dp major minor).LiveDir := ⟨rfl, one_ne_zero⟩
      have hup : (newDir d dp major minor).up = dp := rfl
      rw [new_names T hfree hpos, madeDir_new hfree hdp, hup]
      simp [hlive, hroot.symm]
    · rw [(hother hdi).1] at hd
      rw [if_neg (fun h => hdi h.2), Nat.add_zero, T.dirNames d q hd, (hother hdi).2.2 hd]
      simp only [(hother hdi).2.1]
  · rw [dirKids_madeDir T hfree hpos hdp he hd.1]
    by_cases hdi : d = i
    · rw [if_pos hdi, hdi, madeDir_new hfree hdp]
      rfl
    · have hl := T.dirLinks d ((hother hdi).2.1.mp hd)
      rw [if_neg hdi]
      by_cases hdd : d = dp
      · rw [if_pos hdd, hdd, madeDir_dir]
        rw [hdd] at hl
        show (I dp).nlink + 1 = _
        push_cast
        omega
      · rw [if_neg hdd, madeDir_of_ne hdd hdi]
        exact hl
  · obtain ⟨hjd', hall, hnode⟩ := madeDir_file T hfree hpos hdp he hj hjd
    rw [hall, hnode]
    exact T.fileLinks j hj hjd'

include T hfree hpos hdp he in
theorem Exact.mkdir (E : Exact I) : Exact (madeDir I i dp major minor e) := by
  constructor
  · intro d hd hl
    by_cases hdi : d = i
    · rw [hdi, madeDir_new hfree hdp]
      exact fun x hx => absurd hx List.not_mem_nil
    · have hlive := madeDir_liveDir major minor e hdp T hdi
      by_cases hdd : d = dp
      · rw [hdd] at hlive hl
        exact absurd hl (hlive.2.1.mpr hdp).2
      · rw [madeDir_of_ne hdd hdi] at hd hl ⊢
        exact E.empty d hd hl
  · intro j hj hjd
    obtain ⟨hjd', hall, hnode⟩ := madeDir_file T hfree hpos hdp he hj hjd
    rw [hall, hnode]
    exact E.fileLinks j hj hjd'

include T hfree hdp in
theorem Closed.mkdir (C : Closed I) : Closed (madeDir I i dp major minor e) := by
  intro d hd
  by_cases hdi : d = i
  · rw [hdi, madeDir_new hfree hdp]
    exact (madeDir_liveDir major minor e hdp T (new_ne_dir hfree hdp).symm).2.1.mpr hdp
  · have hother := madeDir_liveDir major minor e hdp T hdi
    rw [hother.1] at hd
    have hup := C d hd
    have hupi : (I d).up ≠ i := by
      intro h
      rw [h, Node.LiveDir, hfree] at hup
      exact nomatch hup.1
    rw [hother.2.2 hd]
    exact (madeDir_liveDir major minor e hdp T hupi).2.1.mpr hup

end Mkdir

section Rmdir

/-- The inodes after the entry of a directory was cleared in another one. -/
def removedDir (I : Inodes) (d dp k : ℕ) : Inodes :=
  relinked I d { I d with nlink := (I d).nlink - 1 } dp
    { (I dp).clear (k + 2) with nlink := (I dp).nlink - 1 }

variable {I : Inodes} (T : Tree I) {dp k : ℕ} {e : Dirent}
variable (hd : (I e.inum).type = .T_DIR) (hdp : (I dp).type = .T_DIR)
variable (he : (I dp).kids[k]? = some e) (hempty : ∀ x ∈ (I e.inum).kids, x.inum = 0)

include T hd hdp he in
theorem Tree.removed_parent :
    (I e.inum).LiveDir ∧ e.inum ≠ ROOTINO ∧ dp = (I e.inum).up ∧ (I dp).LiveDir ∧
      e.inum ≠ dp ∧ (I dp).names e.inum = 1 := by
  obtain ⟨hlive, hne, hup, hone⟩ := T.of_named hd (names_pos_of_kid hdp (List.mem_of_getElem? he))
  obtain ⟨depth, hdepth⟩ := T.parent
  obtain ⟨huplive, hlt⟩ := hdepth _ hlive hne
  rw [← hup] at huplive hlt
  refine ⟨hlive, hne, hup, huplive, fun h => ?_, hone⟩
  rw [← h] at hlt
  exact lt_irrefl _ hlt

include T hempty in
theorem Tree.up_ne_of_empty {c : ℕ} (hc : (I c).LiveDir) (hne : c ≠ ROOTINO) :
    (I c).up ≠ e.inum := by
  intro hup
  have hone := T.dirNames c e.inum hc.1
  rw [if_pos ⟨hc, hne, hup.symm⟩] at hone
  obtain ⟨-, x, hx, hxc⟩ := Node.names_pos.mp (hone ▸ Nat.one_pos)
  exact T.pos hc.1 (hxc.symm.trans (hempty x hx))

include T hempty in
theorem Tree.dirKids_of_empty : dirKids I (I e.inum) = 0 := by
  rw [dirKids, List.countP_eq_zero]
  intro x hx
  rw [T.not_dir_of_free (hempty x hx)]
  exact Bool.false_ne_true

theorem removedDir_type : ∀ q, (removedDir I e.inum dp k q).type = (I q).type :=
  relinked_cases (C := fun q n => n.type = (I q).type) rfl (fun _ => rfl) (fun _ _ _ => rfl)

include T in
theorem removedDir_up {q : ℕ} (hq : (I q).type = .T_DIR) :
    (removedDir I e.inum dp k q).up = (I q).up := by
  refine relinked_cases (C := fun q n => (I q).type = .T_DIR → n.up = (I q).up)
    (fun h => ?_) (fun _ _ => ?_) (fun _ _ _ _ => rfl) q hq
  · exact (T.dots dp h).up_clear
  · rfl

include T hd hdp he hempty in
/-- The removed directory is no longer live, and all others are what they were. -/
theorem removedDir_liveDir (q : ℕ) :
    (removedDir I e.inum dp k q).LiveDir ↔ (I q).LiveDir ∧ q ≠ e.inum := by
  obtain ⟨hlive, -, -, hdplive, hne, -⟩ := T.removed_parent hd hdp he
  by_cases hq : q = dp
  · subst hq
    have hl := T.dirLinks q hdplive
    have hpos : 0 < dirKids I (I q) :=
      List.countP_pos_iff.mpr ⟨e, List.mem_of_getElem? he, decide_eq_true hd⟩
    rw [removedDir, relinked_dir]
    refine ⟨fun _ => ⟨hdplive, hne.symm⟩, fun _ => ⟨hdp, ?_⟩⟩
    show (I q).nlink - 1 ≠ 0
    omega
  · by_cases hqd : q = e.inum
    · have hl := T.dirLinks _ hlive
      rw [T.dirKids_of_empty hempty] at hl
      rw [hqd, removedDir, relinked_file hne]
      refine ⟨fun h => absurd ?_ h.2, fun h => absurd rfl h.2⟩
      show (I e.inum).nlink - 1 = 0
      omega
    · rw [removedDir, relinked_of_ne hq hqd]
      exact ⟨fun h => ⟨h, hqd⟩, fun h => h.1⟩

include T hd hdp he in
/-- The parent no longer names it; all other names stay. -/
theorem names_removedDir (q : ℕ) {j : ℕ} (hj : j ≠ 0) :
    (removedDir I e.inum dp k q).names j + (if q = dp ∧ j = e.inum then 1 else 0)
      = (I q).names j := by
  obtain ⟨-, -, -, -, hne, -⟩ := T.removed_parent hd hdp he
  refine relinked_cases (C := fun q n =>
    n.names j + (if q = dp ∧ j = e.inum then 1 else 0) = (I q).names j) ?_
    (fun _ => by rw [if_neg (fun h => hne h.1)]; rfl)
    (fun q hq _ => by rw [if_neg (fun h => hq h.1)]; rfl) q
  have h := (T.dots dp hdp).names_clear he hdp hj
  show ((I dp).clear (k + 2)).names j + _ = _
  simpa [eq_comm] using h

include T hd hdp he in
/-- Files are what they were. -/
theorem removedDir_file {j : ℕ} (hj : j ≠ 0)
    (hjd : (removedDir I e.inum dp k j).type ≠ .T_DIR) :
    (I j).type ≠ .T_DIR ∧ allNames (removedDir I e.inum dp k) j = allNames I j
      ∧ removedDir I e.inum dp k j = I j := by
  rw [ne_eq, removedDir_type] at hjd
  have hje : j ≠ e.inum := fun h => hjd (h ▸ hd)
  refine ⟨hjd, sum_congr rfl (fun q _ => ?_), relinked_of_ne (fun h => hjd (h ▸ hdp)) hje⟩
  rw [← names_removedDir T hd hdp he q hj, if_neg (fun h => hje h.2)]
  rfl

include T hd hdp he in
/-- The parent has one directory less. -/
theorem dirKids_removedDir {q : ℕ} :
    dirKids (removedDir I e.inum dp k) (removedDir I e.inum dp k q)
      + (if q = dp then 1 else 0) = dirKids I (I q) := by
  obtain ⟨-, -, -, -, hne, -⟩ := T.removed_parent hd hdp he
  have hsame : ∀ q, (removedDir I e.inum dp k q).type = .T_DIR ↔ (I q).type = .T_DIR := by
    intro q
    rw [removedDir_type]
  rw [dirKids_congr hsame]
  refine relinked_cases (C := fun q n =>
    dirKids I n + (if q = dp then 1 else 0) = dirKids I (I q)) ?_
    (fun _ => by rw [if_neg hne]; rfl) (fun q hq _ => by rw [if_neg hq]; rfl) q
  have h := (T.dots dp hdp).countP_clear he
    (p := fun e => decide ((I e.inum).type = .T_DIR)) (fun x hx => T.not_dir_of_free hx)
  rw [decide_eq_true hd] at h
  rw [if_pos rfl]
  exact h

include T hd hdp he hempty in
/-- **An empty directory removed keeps the tree.** -/
theorem Tree.rmdir : Tree (removedDir I e.inum dp k) := by
  obtain ⟨hlive, hdr, -, hdplive, hne, -⟩ := T.removed_parent hd hdp he
  have hlivedir := removedDir_liveDir T hd hdp he hempty
  have hless {q : ℕ} (hq : (I q).LiveDir) :
      0 ≤ (I q).nlink - 1 ∧ (I q).nlink - 1 < 2 ^ 15 := by
    have hs := T.short q
    have hl := hq.2
    omega
  refine ⟨fun q hq => ?_,
    relinked_cases (C := fun _ n => 0 ≤ n.nlink ∧ n.nlink < 2 ^ 15) (hless hdplive)
      (fun _ => hless hlive) (fun q _ _ => T.short q),
    relinked_cases (C := fun q n => n.type = .T_DIR → n.Dots q) (fun _ => ?_) (fun _ _ => ?_)
      (fun q _ _ => T.dots q),
    ⟨?_, ?_⟩, ?_, fun c q hc => ?_, fun c hc => ?_, fun j hj hjd => ?_⟩
  · rw [removedDir_type] at hq
    exact T.bound q hq
  · have h := (T.dots dp hdp).clear (k := k)
    exact ⟨h.ents, h.up_ne, h.ne_dot⟩
  · have h := T.dots _ hd
    exact ⟨h.ents, h.up_ne, h.ne_dot⟩
  · exact (hlivedir _).mpr ⟨T.root.1, hdr.symm⟩
  · rw [removedDir_up T T.root.1.1]
    exact T.root.2
  · obtain ⟨depth, hdepth⟩ := T.parent
    refine ⟨depth, fun c hc hcr => ?_⟩
    obtain ⟨hc', -⟩ := (hlivedir c).mp hc
    obtain ⟨hup, hlt⟩ := hdepth c hc' hcr
    rw [removedDir_up T hc'.1]
    exact ⟨(hlivedir _).mpr ⟨hup, T.up_ne_of_empty hempty hc' hcr⟩, hlt⟩
  · rw [removedDir_type] at hc
    have hnames := names_removedDir T hd hdp he q (T.pos hc)
    rw [T.dirNames c q hc] at hnames
    rw [removedDir_up T hc]
    simp only [hlivedir]
    by_cases hce : c = e.inum
    · -- its one name was in the directory that was changed
      have hdn := T.dirNames e.inum q hd
      obtain ⟨-, -, hup, -, -, -⟩ := T.removed_parent hd hdp he
      rw [hce] at hnames ⊢
      rw [if_neg (fun h => h.1.2 rfl)]
      by_cases hq : q = dp
      · rw [if_pos ⟨hq, rfl⟩, if_pos ⟨hlive, hdr, hq.trans hup⟩] at hnames
        omega
      · rw [if_neg (fun h => hq h.1), if_neg (fun h => hq (h.2.2.trans hup.symm))] at hnames
        omega
    · rw [if_neg (fun h => hce h.2), Nat.add_zero] at hnames
      rw [hnames]
      simp [hce]
  · obtain ⟨hc', hce⟩ := (hlivedir c).mp hc
    have hl := T.dirLinks c hc'
    have hk := dirKids_removedDir T hd hdp he (q := c)
    by_cases hcd : c = dp
    · rw [if_pos hcd] at hk
      have hnl : (removedDir I e.inum dp k c).nlink = (I c).nlink - 1 := by
        rw [hcd, removedDir, relinked_dir]
      rw [hnl]
      omega
    · rw [if_neg hcd] at hk
      have hnl : (removedDir I e.inum dp k c).nlink = (I c).nlink := by
        rw [removedDir, relinked_of_ne hcd hce]
      rw [hnl]
      omega
  · obtain ⟨hjd', hall, hnode⟩ := removedDir_file T hd hdp he hj hjd
    rw [hall, hnode]
    exact T.fileLinks j hj hjd'

include T hd hdp he hempty in
theorem Exact.rmdir (E : Exact I) : Exact (removedDir I e.inum dp k) := by
  obtain ⟨-, -, -, hdplive, hne, -⟩ := T.removed_parent hd hdp he
  have hlivedir := removedDir_liveDir T hd hdp he hempty
  constructor
  · intro q hq hl
    rw [removedDir_type] at hq
    by_cases hqe : q = e.inum
    · rw [hqe, removedDir, relinked_file hne]
      exact hempty
    · by_cases hqd : q = dp
      · rw [hqd] at hl
        exact absurd hl ((hlivedir dp).mpr ⟨hdplive, hne.symm⟩).2
      · rw [removedDir, relinked_of_ne hqd hqe] at hl ⊢
        exact E.empty q hq hl
  · intro j hj hjd
    obtain ⟨hjd', hall, hnode⟩ := removedDir_file T hd hdp he hj hjd
    rw [hall, hnode]
    exact E.fileLinks j hj hjd'

include T hd hdp he hempty in
theorem Closed.rmdir (C : Closed I)
    (hlast : ∀ c, (I c).type = .T_DIR → (I c).nlink = 0 → (I c).up ≠ e.inum) :
    Closed (removedDir I e.inum dp k) := by
  obtain ⟨-, hdr, -, -, -, -⟩ := T.removed_parent hd hdp he
  intro c hc
  rw [removedDir_type] at hc
  rw [removedDir_up T hc]
  refine (removedDir_liveDir T hd hdp he hempty _).mpr ⟨C c hc, ?_⟩
  by_cases hl : (I c).nlink = 0
  · exact hlast c hc hl
  · by_cases hcr : c = ROOTINO
    · rw [hcr, T.root.2]
      exact hdr.symm
    · exact T.up_ne_of_empty hempty ⟨hc, hl⟩ hcr

end Rmdir

/-! ## An inode is freed -/

section Free

variable {I : Inodes} {i : ℕ} {n : Node}

/-- A removed directory that is freed. -/
theorem Tree.freeDir (T : Tree I) (hi : (I i).type = .T_DIR) (hl : (I i).nlink = 0)
    (hn : n.type = .free) (hnl : n.nlink = 0) : Tree (update I i n) := by
  have hnd : n.type ≠ .T_DIR := by
    rw [hn]
    exact nofun
  have hlive : ∀ q, (update I i n q).LiveDir ↔ (I q).LiveDir := by
    intro q
    by_cases hq : q = i
    · rw [hq, update_self]
      exact ⟨fun h => absurd h.1 hnd, fun h => absurd hl h.2⟩
    · rw [update_of_ne hq]
  have hdir : ∀ q, (update I i n q).type = .T_DIR → q ≠ i := by
    rintro q hq rfl
    rw [update_self] at hq
    exact hnd hq
  have hle : ∀ q j, (update I i n q).names j ≤ (I q).names j := by
    intro q j
    by_cases hq : q = i
    · rw [hq, update_self, Node.names_of_not_dir hnd]
      exact Nat.zero_le _
    · rw [update_of_ne hq]
  refine ⟨fun q hq => ?_, fun q => ?_, fun d hd => ?_, ⟨?_, ?_⟩, ?_, fun d q hd => ?_,
    fun d hd => ?_, fun j hj hjd => ?_⟩
  · by_cases hqi : q = i
    · rw [hqi, update_self] at hq
      exact absurd hn hq
    · rw [update_of_ne hqi] at hq
      exact T.bound q hq
  · by_cases hqi : q = i
    · rw [hqi, update_self, hnl]
      omega
    · rw [update_of_ne hqi]
      exact T.short q
  · have hdi := hdir d hd
    rw [update_of_ne hdi] at hd ⊢
    exact T.dots d hd
  · exact (hlive _).mpr T.root.1
  · have hri : ROOTINO ≠ i := by
      rintro rfl
      exact T.root.1.2 hl
    rw [update_of_ne hri]
    exact T.root.2
  · obtain ⟨depth, hdepth⟩ := T.parent
    refine ⟨depth, fun d hd hdr => ?_⟩
    rw [update_of_ne (hdir d hd.1), hlive]
    exact hdepth d ((hlive d).mp hd) hdr
  · have hdi := hdir d hd
    rw [update_of_ne hdi] at hd ⊢
    by_cases hq : q = i
    · -- a removed directory is nobody's parent
      rw [hq, update_self, Node.names_of_not_dir hnd, if_neg]
      rintro ⟨hd', hdr, hup⟩
      obtain ⟨depth, hdepth⟩ := T.parent
      have h := (hdepth d hd' hdr).1
      rw [← hup] at h
      exact h.2 hl
    · rw [update_of_ne hq]
      exact T.dirNames d q hd
  · have hdi := hdir d hd.1
    have hd' := (hlive d).mp hd
    have hkids : dirKids (update I i n) (I d) = dirKids I (I d) := by
      refine List.countP_congr (fun x hx => ?_)
      have hxi : x.inum ≠ i := by
        intro h
        have hpos := names_pos_of_kid hd'.1 hx
        rw [h, T.names_removed hi hl] at hpos
        exact absurd hpos (lt_irrefl 0)
      rw [update_of_ne hxi]
    rw [update_of_ne hdi, hkids]
    exact T.dirLinks d hd'
  · by_cases hji : j = i
    · have hzero : allNames (update I i n) j = 0 := by
        refine sum_eq_zero (fun q _ => ?_)
        have h := hle q j
        rw [hji, T.names_removed hi hl] at h
        rw [hji]
        omega
      rw [hzero, hji, update_self, Node.links, if_pos hn]
      rfl
    · rw [update_of_ne hji] at hjd ⊢
      have h := T.fileLinks j hj hjd
      have hsum : allNames (update I i n) j ≤ allNames I j :=
        sum_le_sum (fun q _ => hle q j)
      omega

/-- **Freeing an inode without links keeps the tree.** -/
theorem Tree.free (T : Tree I) (hi : (I i).type ≠ .free) (hl : (I i).nlink = 0)
    (hn : n.type = .free) (hnl : n.nlink = 0) : Tree (update I i n) := by
  by_cases hd : (I i).type = .T_DIR
  · exact T.freeDir hd hl hn hnl
  · have hb := T.bound i hi
    have h := T.fileLinks i (by omega) hd
    rw [Node.links, if_neg hi] at h
    refine T.setFile hd ?_ hb.1 hb.2 ?_ ?_
    · rw [hn]
      exact nofun
    · rw [hnl]
      omega
    · rw [Node.links, if_pos hn]
      omega

/-- A removed directory has nothing in it that freeing it could lose. -/
theorem Exact.free (E : Exact I) (T : Tree I) (hi : (I i).type ≠ .free)
    (hl : (I i).nlink = 0) (hn : n.type = .free) : Exact (update I i n) := by
  have hnd : n.type ≠ .T_DIR := by
    rw [hn]
    exact nofun
  have hnames : ∀ q j, j ≠ 0 → (update I i n q).names j = (I q).names j := by
    intro q j hj
    by_cases hq : q = i
    · rw [hq, update_self, Node.names_of_not_dir hnd]
      by_cases hd : (I i).type = .T_DIR
      · by_contra h
        obtain ⟨-, x, hx, hxj⟩ := Node.names_pos.mp (Nat.pos_of_ne_zero (Ne.symm h))
        exact hj (hxj.symm.trans (E.empty i hd hl x hx))
      · exact (Node.names_of_not_dir hd j).symm
    · rw [update_of_ne hq]
  constructor
  · intro d hd hdl
    have hdi : d ≠ i := by
      rintro rfl
      rw [update_self] at hd
      exact hnd hd
    rw [update_of_ne hdi] at hd hdl ⊢
    exact E.empty d hd hdl
  · intro j hj hjd
    have hsum : allNames (update I i n) j = allNames I j :=
      sum_congr rfl (fun q _ => hnames q j hj)
    rw [hsum]
    by_cases hji : j = i
    · rw [hji, update_self, Node.links, if_pos hn]
      by_cases hd : (I i).type = .T_DIR
      · have hzero : allNames I i = 0 :=
          sum_eq_zero (fun q _ => T.names_removed hd hl q)
        rw [hzero]
        rfl
      · have h := E.fileLinks i (hji ▸ hj) hd
        rw [Node.links, if_neg hi, hl] at h
        exact h
    · rw [update_of_ne hji] at hjd ⊢
      exact E.fileLinks j hj hjd

theorem Closed.free (C : Closed I) (hl : (I i).nlink = 0) (hn : n.type = .free) :
    Closed (update I i n) := by
  intro d hd
  have hdi : d ≠ i := by
    rintro rfl
    rw [update_self, hn] at hd
    nomatch hd
  rw [update_of_ne hdi] at hd ⊢
  have hup := C d hd
  have hupi : (I d).up ≠ i := by
    intro h
    rw [h] at hup
    exact hup.2 hl
  rw [update_of_ne hupi]
  exact hup

end Free

end Xv6.Names
