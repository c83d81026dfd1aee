import Xv6.MkfsAgreement
import Xv6.Namespace

/-!
# The directory tree on the disk

`Namespace` has an inode as its fields and the entries of a directory, and the table of inodes
by their numbers; the functions of `fs.c` have the inodes in blocks, and the table as an array.
Both are models of the same code. Here they are connected: a state of the one depicts a state
of the other (`Depicts`), and from there the functions run in lockstep, up to the walk of a path
(`namex_sim`), so that what is known of names holds of the disk.

The directories of the disk have to be in order: with whole entries, which name inodes of the
disk.
-/

open Function Finset
open Prog hiding get modify panic result

namespace Xv6

/-! ## The states -/

/-- The type of an inode. -/
def typeOf (type : UInt16) : Names.InodeType :=
  if type = 0 then .free else if type = T_DIR then .T_DIR
  else if type = T_FILE then .T_FILE else .T_DEVICE

/-- An inode of the disk: a directory has its entries, and a file its size. -/
def nodeOf (disk : Disk) (d : Dinode) : Names.Node where
  type := typeOf d.type
  major := d.major.toInt16.toInt
  minor := d.minor.toInt16.toInt
  nlink := d.nlink.toInt16.toInt
  size := if d.type = T_DIR then 0 else d.size.toNat
  ents := if d.type = T_DIR then dirents (fileContents disk d) else []

/-- A directory has whole entries, which name inodes of the disk. -/
def Orderly (sb : Superblock) (disk : Disk) (d : Dinode) : Prop :=
  d.type = T_DIR → DIRENTSIZE ∣ d.size.toNat ∧ NamesInodes sb (fileContents disk d)

/-- **The state of the names depicts that of the disk**: it has the same inodes, and for each the
references of its entry. -/
structure Depicts (sb : Superblock) (fs : Fs) (s : Names.State) : Prop where
  inode : ∀ i < sb.ninodes, Orderly sb fs.disk (sb.dinodeOf fs.disk i)
    ∧ s.inode i = nodeOf fs.disk (sb.dinodeOf fs.disk i)
  ref : ∀ i, s.ref i = ∑ ip, if (fs.itable ip).inum = i then (fs.itable ip).ref else 0
  valid : ∀ ip, 0 < (fs.itable ip).ref → s.valid (fs.itable ip).inum = (fs.itable ip).valid
  active : s.active = ∑ ip, if 0 < (fs.itable ip).ref then 1 else 0

/-- Both states between the steps of a system call that has the references `M`. -/
structure Mirrors (sb : Superblock) (M : Multiset (Fin NINODE)) (fs : Fs) (s : Names.State) :
    Prop where
  sound : Sound sb M fs
  depicts : Depicts sb fs s

section

variable {sb : Superblock} {fs fs' : Fs} {ip : Fin NINODE} {s : Names.State} {i : ℕ}
  {M : Multiset (Fin NINODE)}

theorem typeOf_eq_free (type : UInt16) : typeOf type = .free ↔ type = 0 := by
  unfold typeOf
  split_ifs <;> simp_all [T_DIR, T_FILE]

theorem typeOf_eq_dir {type : UInt16} : typeOf type = .T_DIR ↔ type = T_DIR := by
  unfold typeOf
  split_ifs <;> simp_all [T_DIR]

theorem Depicts.ref_eq (h : Depicts sb fs s) (htable : TableInv sb fs)
    (href : 0 < (fs.itable ip).ref) : s.ref (fs.itable ip).inum = (fs.itable ip).ref := by
  rw [h.ref, sum_eq_single ip, if_pos rfl]
  · intro jp _ hjp
    split
    · rename_i heq
      by_contra hne
      exact htable.others href jp hjp (Nat.pos_of_ne_zero hne) heq
    · rfl
  · exact fun h => absurd (mem_univ ip) h

section

variable (h : Mirrors sb M fs s) (hip : ip ∈ M)

include h hip

/-- What both know of an inode that is referred to. -/
theorem Mirrors.entry : 0 < (fs.itable ip).ref ∧ (fs.itable ip).inum < sb.ninodes
    ∧ s.ref (fs.itable ip).inum = (fs.itable ip).ref
    ∧ s.valid (fs.itable ip).inum = (fs.itable ip).valid := by
  have href := h.sound.ref_pos hip
  have htable := h.sound.inv.table
  exact ⟨href, htable.inum_lt ip href, h.depicts.ref_eq htable href, h.depicts.valid ip href⟩

theorem Mirrors.synced (hv : (fs.itable ip).valid = true) :
    Orderly sb fs.disk (fs.itable ip).din
    ∧ s.inode (fs.itable ip).inum = nodeOf fs.disk (fs.itable ip).din := by
  obtain ⟨href, hlt, -⟩ := h.entry hip
  rw [(h.sound.inv.table.synced ip href hv).1]
  exact h.depicts.inode _ hlt

end

theorem Depicts.ref_eq_zero (h : Depicts sb fs s)
    (hnone : ∀ jp, 0 < (fs.itable jp).ref → (fs.itable jp).inum ≠ i) : s.ref i = 0 := by
  rw [h.ref]
  refine sum_eq_zero fun jp _ => ?_
  split
  · rename_i heq
    by_contra hne
    exact hnone jp (Nat.pos_of_ne_zero hne) heq
  · rfl

theorem inum_setInode (e : Inode) (h : e.inum = (fs.itable ip).inum) (jp : Fin NINODE) :
    ((fs.setInode ip e).itable jp).inum = (fs.itable jp).inum := by
  by_cases hjp : jp = ip
  · rw [hjp, setInode_self, h]
  · rw [setInode_of_ne hjp]

theorem update_add_ite (f : ℕ → ℕ) (i x j : ℕ) :
    update f i x j + (if i = j then f i else 0) = f j + if i = j then x else 0 := by
  by_cases hj : i = j
  · rw [hj, update_self, if_pos rfl, if_pos rfl, add_comm]
  · rw [update_of_ne (Ne.symm hj), if_neg hj, if_neg hj]

/-- **One entry of the table changes.** -/
theorem Depicts.setInode (h : Depicts sb fs s) {e : Inode} {s' : Names.State}
    (hinode : s'.inode = s.inode)
    (href : ∀ i, s'.ref i + (if (fs.itable ip).inum = i then (fs.itable ip).ref else 0)
      = s.ref i + if e.inum = i then e.ref else 0)
    (hvalid : 0 < e.ref → s'.valid e.inum = e.valid)
    (hother : ∀ jp, jp ≠ ip → 0 < (fs.itable jp).ref →
      s'.valid (fs.itable jp).inum = s.valid (fs.itable jp).inum)
    (hactive : s'.active + (if 0 < (fs.itable ip).ref then 1 else 0)
      = s.active + if 0 < e.ref then 1 else 0) : Depicts sb (fs.setInode ip e) s' := by
  refine ⟨fun i hi => by rw [hinode]; exact h.inode i hi, fun i => ?_, fun jp hjp => ?_, ?_⟩
  · have hsum := sum_update fs.itable ip e fun e => if e.inum = i then e.ref else 0
    have hold := href i
    rw [h.ref] at hold
    show _ = ∑ jp, if (update fs.itable ip e jp).inum = i then (update fs.itable ip e jp).ref else 0
    omega
  · by_cases hji : jp = ip
    · subst hji
      rw [setInode_self] at hjp ⊢
      exact hvalid hjp
    · rw [setInode_of_ne hji] at hjp ⊢
      rw [hother jp hji hjp]
      exact h.valid jp hjp
  · have hsum := sum_update fs.itable ip e fun e => if 0 < e.ref then 1 else 0
    rw [h.active] at hactive
    show _ = ∑ jp, if 0 < (update fs.itable ip e jp).ref then 1 else 0
    omega

/-- The inode of an entry is changed and stored. -/
theorem Depicts.stored (h : Depicts sb fs s) {fs₁ : Fs} {d : Dinode}
    (hst : Stored sb ip fs fs₁ d fs') (hd : Orderly sb fs'.disk d) :
    Depicts sb fs' (s.setNode (fs.itable ip).inum (nodeOf fs'.disk d)) := by
  refine ⟨fun i hi => ?_, fun i => ?_, fun jp hjp => ?_, ?_⟩
  · show _ ∧ update s.inode _ _ i = _
    by_cases hne : i = (fs.itable ip).inum
    · rw [hne, update_self, hst.dinode]
      exact ⟨hd, rfl⟩
    · obtain ⟨hdin, hblocks⟩ := hst.other i hi hne
      obtain ⟨hold, hnode⟩ := h.inode i hi
      have hsame : (sb.dinodeOf fs.disk i).type = T_DIR →
          fileContents fs'.disk (sb.dinodeOf fs.disk i)
            = fileContents fs.disk (sb.dinodeOf fs.disk i) :=
        fun hdir => contents_congr (hblocks (by rw [hdir]; decide))
      rw [update_of_ne hne, hnode, hdin]
      refine ⟨fun hdir => by rw [hsame hdir]; exact hold hdir, ?_⟩
      unfold nodeOf
      split
      · rename_i hdir
        rw [hsame hdir]
      · rfl
  · simp only [hst.entry]
    exact h.ref i
  · rw [(hst.entry jp).2.1] at hjp
    rw [(hst.entry jp).1, (hst.entry jp).2.2]
    exact h.valid jp hjp
  · simp only [hst.entry]
    exact h.active

theorem orderly_empty {disk : Disk} {d : Dinode} (h : d.size = 0) : Orderly sb disk d := by
  intro _
  have hnil : fileContents disk d = [] := by
    unfold fileContents
    rw [h]
    rfl
  rw [h, hnil]
  exact ⟨⟨0, rfl⟩, fun e he => absurd he List.not_mem_nil⟩

/-! ## References -/

theorem Depicts.grabbed (h : Depicts sb fs s) (htable : TableInv sb fs)
    (href : 0 < (fs.itable ip).ref) :
    Depicts sb (fs.setInode ip { fs.itable ip with ref := (fs.itable ip).ref + 1 })
      (s.grabbed (fs.itable ip).inum) := by
  refine h.setInode rfl (fun i => ?_) (fun _ => h.valid ip href) (fun _ _ _ => rfl) ?_
  · show update s.ref _ _ i + _ = _ + if _ then (fs.itable ip).ref + 1 else 0
    rw [← h.ref_eq htable href]
    exact update_add_ite _ _ _ i
  · rw [if_pos href, if_pos (Nat.succ_pos _)]
    rfl

/-- **`iget` in lockstep.** -/
theorem iget_sim (h : Mirrors sb M fs s) (hi : i < sb.ninodes) :
    Sim (Names.iget i) (iget i) s fs fun _ s' ip fs' => (fs'.itable ip).inum = i
      ∧ Mirrors sb (ip ::ₘ M) fs' s' ∧ ∀ jp ∈ M, (fs'.itable jp).inum = (fs.itable jp).inum := by
  have hdepicts := h.depicts
  have htaken := iget_taken i fs
  cases hrun : iget i fs with
  | error e =>
    obtain ⟨-, hfull, hnone⟩ := htaken.of_error hrun
    refine sim_of_error (e := .iget) ?_ hrun
    unfold Names.iget
    rw [get_bind, hdepicts.ref_eq_zero hnone, if_neg (lt_irrefl 0), if_neg]
    · rfl
    · rw [hdepicts.active, sum_congr rfl fun jp _ => if_pos (Nat.pos_of_ne_zero (hfull jp))]
      simp
  | ok r =>
    obtain ⟨ip, fs'⟩ := r
    have ht := htaken.of_ok hrun
    have hsound := (ht.keeps h.sound hi).1
    cases ht with
    | again href hinum =>
      refine sim_of_ok (t := s.grabbed i) (a := ()) ?_ hrun ⟨?_, ⟨hsound, ?_⟩,
        fun jp _ => inum_setInode _ (by rfl) jp⟩
      · unfold Names.iget
        rw [get_bind, if_pos]
        · rfl
        · rw [← hinum, hdepicts.ref_eq h.sound.inv.table href]
          exact href
      · rw [setInode_self, hinum]
      · rw [← hinum]
        exact hdepicts.grabbed h.sound.inv.table href
    | anew href hnone =>
      have hzero := hdepicts.ref_eq_zero hnone
      refine sim_of_ok (t := s.entered i) (a := ()) ?_ hrun ⟨?_, ⟨hsound, ?_⟩,
        fun jp hjp => ?_⟩
      · unfold Names.iget
        rw [get_bind, hzero, if_neg (lt_irrefl 0), if_pos]
        · rfl
        · rw [hdepicts.active]
          refine (sum_lt_sum (g := fun _ => 1) (fun jp _ => ?_) ⟨ip, mem_univ ip, ?_⟩).trans_eq
            (by simp)
          · split <;> omega
          · rw [if_neg (by omega)]
            exact Nat.one_pos
      · rw [setInode_self]
      · refine hdepicts.setInode rfl (fun j => ?_) (fun _ => update_self _ _ _)
          (fun jp _ hjp => update_of_ne (hnone jp hjp) _ _) ?_
        · have hadd := update_add_ite s.ref i 1 j
          rw [hzero, ite_self] at hadd
          rw [href, ite_self]
          exact hadd
        · rw [if_neg (by omega)]
          rfl
      · rw [setInode_of_ne]
        rintro rfl
        exact (h.sound.ref_pos hjp).ne' href

/-- **`ilock` in lockstep.** -/
theorem ilock_sim (h : Mirrors sb M fs s) (hip : ip ∈ M) :
    Sim (Names.ilock (fs.itable ip).inum) (ilock sb ip) s fs fun _ s' _ fs' =>
      Mirrors sb M fs' s' ∧ (fs'.itable ip).valid = true
      ∧ (fs'.itable ip).inum = (fs.itable ip).inum := by
  obtain ⟨href, hinum, hrefs, hvalid⟩ := h.entry hip
  have hsim : Sim (Names.ilock (fs.itable ip).inum) (ilock sb ip) s fs fun _ s' _ fs' =>
      Depicts sb fs' s' := by
    have hlt : ¬ (fs.itable ip).ref < 1 := by omega
    unfold Names.ilock ilock Sim
    rw [get_bind, getInode_bind, hrefs, if_neg hlt, if_neg hlt, hvalid,
      (h.depicts.inode _ hinum).2]
    by_cases hv : (fs.itable ip).valid = true
    · rw [if_pos hv, if_pos hv]
      exact sim_of_ok rfl rfl h.depicts
    · rw [if_neg hv, if_neg hv, bread_bind]
      have hfree := typeOf_eq_free (sb.dinodeOf fs.disk (fs.itable ip).inum).type
      by_cases htype : (sb.dinodeOf fs.disk (fs.itable ip).inum).type = 0
      · rw [nodeOf, if_pos (hfree.mpr htype)]
        unfold Superblock.dinodeOf at htype
        rw [if_pos htype]
        exact sim_of_error rfl rfl
      · rw [nodeOf, if_neg (mt hfree.mp htype)]
        unfold Superblock.dinodeOf at htype
        rw [if_neg htype]
        exact sim_of_ok rfl rfl (h.depicts.setInode rfl (fun _ => rfl) (fun _ => update_self _ _ _)
          (fun jp hjp hj => update_of_ne (h.sound.inv.table.others href jp hjp hj) _ _) rfl)
  refine (hsim.and_ends (ilock_keeps h.sound)).mono ?_
  rintro _ s' _ fs' ⟨hdep, hkeeps, hv, -, hinum⟩
  exact ⟨⟨hkeeps.sound, hdep⟩, hv, hinum ip⟩

theorem toInt16_toInt_eq_zero {x : UInt16} : x.toInt16.toInt = 0 ↔ x = 0 := by
  rw [show (0 : ℤ) = (0 : UInt16).toInt16.toInt from rfl, Int16.toInt_inj]
  exact ⟨congrArg Int16.toUInt16, fun h => by rw [h]⟩

/-- The first part of `iput` in lockstep. -/
theorem iputFree_sim (h : Mirrors sb M fs s) (hip : ip ∈ M) :
    Sim (Names.iputFree (fs.itable ip).inum) (iputFree sb ip) s fs fun _ s' _ fs' =>
      Mirrors sb M fs' s' ∧ ∀ jp, (fs'.itable jp).inum = (fs.itable jp).inum := by
  obtain ⟨href, -, hrefs, hvalid⟩ := h.entry hip
  by_cases hcond : (fs.itable ip).ref = 1 ∧ (fs.itable ip).valid = true
      ∧ (fs.itable ip).din.nlink = 0
  · have hnode := (h.synced hip hcond.2.1).2
    obtain ⟨_, fs₁, hrun, hkeeps, _, hst₁⟩ :=
      (itrunc_keeps h.sound hip hcond.2.1 (P := fun _ => False)).exists_ok
    have h₁ := hkeeps.sound
    have hst₂ := (OnInode.refl sb ip fs₁).stored h₁.inv (h₁.ref_pos hip)
      (hkeeps.valid ip hip hcond.2.1) (d := { (fs₁.itable ip).din with type := 0 }) rfl
    have hdin₁ : (fs₁.itable ip).din
        = { (fs.itable ip).din with size := 0, addrs := fun _ => 0 } := by
      rw [hst₁.itable, update_self]
    set fs₂ := (fs₁.setDin ip { (fs₁.itable ip).din with type := 0 }).iupdated sb ip with hfs₂
    have hfree : iputFree sb ip fs
        = .ok ((), fs₂.setInode ip { fs₂.itable ip with valid := false }) := by
      unfold iputFree
      rw [getInode_bind, if_pos hcond, bind_of_ok hrun]
      rfl
    have hinum : ∀ jp, (fs₂.itable jp).inum = (fs.itable jp).inum := fun jp =>
      (hst₂.entry jp).1.trans (hst₁.entry jp).1
    refine sim_of_ok (a := ()) (t := s.freed (fs.itable ip).inum) ?_ hfree
      ⟨⟨((iputFree_keeps h.sound hip).of_ok hfree).1, ?_⟩, fun jp => ?_⟩
    · unfold Names.iputFree
      rw [get_bind, hrefs, hvalid, hnode, if_pos]
      · rfl
      · exact ⟨hcond.1, hcond.2.1, toInt16_toInt_eq_zero.mpr hcond.2.2⟩
    · have hdep := (h.depicts.stored hst₁ (orderly_empty rfl)).stored hst₂
        (orderly_empty (by rw [hdin₁]))
      rw [(hst₁.entry ip).1] at hdep
      refine hdep.setInode ?_ (fun i => rfl) (fun _ => ?_) (fun jp hjp hj => ?_) rfl
      · show update s.inode _ _ = update (update s.inode _ _) _ _
        rw [update_idem, hnode, hdin₁]
        rfl
      · show update s.valid _ _ (fs₂.itable ip).inum = false
        rw [hinum, update_self]
      · show update s.valid _ _ _ = s.valid _
        rw [(hst₂.entry jp).2.1, (hst₁.entry jp).2.1] at hj
        rw [hinum, update_of_ne (h.sound.inv.table.others href jp hjp hj)]
    · rw [← hinum]
      exact inum_setInode _ (by rfl) jp
  · refine .inl ⟨(), s, (), fs, ?_, ?_, h, fun _ => rfl⟩
    · unfold Names.iputFree
      rw [get_bind, hrefs, hvalid, if_neg]
      · rfl
      · rintro ⟨hone, hv, hlink⟩
        rw [(h.synced hip hv).2] at hlink
        exact hcond ⟨hone, hv, toInt16_toInt_eq_zero.mp hlink⟩
    · unfold iputFree
      rw [getInode_bind, if_neg hcond]
      rfl

/-- **`iput` in lockstep.** -/
theorem iput_sim (h : Mirrors sb (ip ::ₘ M) fs s) :
    Sim (Names.iput (fs.itable ip).inum) (iput sb ip) s fs fun _ s' _ fs' =>
      Mirrors sb M fs' s' ∧ ∀ jp, (fs'.itable jp).inum = (fs.itable jp).inum := by
  have hself := Multiset.mem_cons_self ip M
  have hsim : Sim (Names.iput (fs.itable ip).inum) (iput sb ip) s fs fun _ s' _ fs' =>
      Depicts sb fs' s' ∧ ∀ jp, (fs'.itable jp).inum = (fs.itable jp).inum := by
    refine Sim.bind ((iputFree_sim h hself).mono ?_)
    rintro _ s₁ _ fs₁ ⟨h₁, hinum⟩
    obtain ⟨href, -, hold, hvalid⟩ := h₁.entry hself
    refine sim_of_ok rfl rfl ⟨?_, fun jp => ?_⟩
    · rw [← hinum]
      refine h₁.depicts.setInode rfl (fun i => ?_) (fun _ => hvalid) (fun _ _ _ => rfl) ?_
      · show update s₁.ref _ _ i + _ = _ + if _ then (fs₁.itable ip).ref - 1 else 0
        rw [← hold]
        exact update_add_ite _ _ _ i
      · have hpos : 0 < s₁.active := by
          rw [h₁.depicts.active]
          exact sum_pos' (fun _ _ => Nat.zero_le _) ⟨ip, mem_univ ip, by rw [if_pos href]; omega⟩
        show (if s₁.ref _ = 1 then s₁.active - 1 else s₁.active) + _
          = _ + if 0 < (fs₁.itable ip).ref - 1 then 1 else 0
        rw [hold, if_pos href]
        split_ifs <;> omega
    · rw [← hinum]
      exact inum_setInode _ (by rfl) jp
  refine (hsim.and_ends (iput_keeps h.sound)).mono ?_
  rintro _ s' _ fs' ⟨⟨hdep, hinum⟩, hkeeps⟩
  exact ⟨⟨hkeeps.sound, hdep⟩, hinum⟩

/-! ## Lookups -/

/-- What both return: nothing, or a new reference to the same inode, with related values. -/
def Returned {α β : Type} (sb : Superblock) (M : Multiset (Fin NINODE)) (R : α → β → Prop) :
    Option (ℕ × α) → Names.State → Option (Fin NINODE × β) → Fs → Prop
  | none, s, none, fs => Mirrors sb M fs s
  | some (i, a), s, some (ip, b), fs =>
    i = (fs.itable ip).inum ∧ R a b ∧ Mirrors sb (ip ::ₘ M) fs s
  | _, _, _, _ => False

/-- **`dirlookup` in lockstep.** -/
theorem dirlookup_sim (h : Mirrors sb M fs s) (hip : ip ∈ M) (hv : (fs.itable ip).valid = true)
    (hdir : (fs.itable ip).din.type = T_DIR) (name : List UInt8) :
    Sim (Names.dirlookup (fs.itable ip).inum name) (dirlookup sb ip name) s fs
      fun r s' r' fs' => Returned sb M (fun k off => off = k * DIRENTSIZE) r s' r' fs'
        ∧ ∀ jp ∈ M, (fs'.itable jp).inum = (fs.itable jp).inum := by
  obtain ⟨horderly, hnode⟩ := h.synced hip hv
  obtain ⟨hwhole, hnames⟩ := horderly hdir
  rw [size_of_contents rfl] at hwhole
  have hends := (dirlookup_eq sb rfl name hdir fun j hlt _ => (h.sound.holeFree hip hv).addr_of_lt
    (by rwa [size_of_contents rfl])).resolve_right fun hcut => hcut.1 hwhole
  have hents : (s.inode (fs.itable ip).inum).ents
      = dirents (fileContents fs.disk (fs.itable ip).din) := by
    rw [hnode]
    exact if_pos hdir
  have htype : (s.inode (fs.itable ip).inum).type = .T_DIR := by
    rw [hnode]
    exact typeOf_eq_dir.mpr hdir
  unfold Names.dirlookup Sim
  rw [get_bind, if_neg (not_not.mpr htype), hents, hends]
  cases hk : findName (dirents (fileContents fs.disk (fs.itable ip).din)) name with
  | none => exact sim_of_ok rfl rfl ⟨h, fun _ _ => rfl⟩
  | some k =>
    rw [findName, List.findIdx?_eq_some_iff_getElem] at hk
    obtain ⟨hlt, hyes, -⟩ := hk
    have hget : (dirents (fileContents fs.disk (fs.itable ip).din)).getD k Dirent.zero
        = direntAt (fileContents fs.disk (fs.itable ip).din) k := by
      rw [List.getD_eq_getElem _ _ hlt]
      simp [dirents]
    have hinum := hnames _ (List.getElem_mem hlt) (of_decide_eq_true hyes).1
    rw [← List.getD_eq_getElem _ Dirent.zero hlt, hget] at hinum
    simp only [hget]
    refine Sim.bind ((iget_sim h hinum).mono ?_)
    rintro _ s' jp fs' ⟨heq, h', hframe⟩
    exact sim_of_ok rfl rfl ⟨⟨heq.symm, rfl, h'⟩, hframe⟩

/-- **The walk of a path in lockstep**, with a reference to the inode that it starts from. -/
theorem namexLoop_sim (parent : Bool) {n : ℕ} {path : List UInt8} (hn : path.length < n)
    (h : Mirrors sb (ip ::ₘ M) fs s) :
    Sim (Names.namexLoop parent n (fs.itable ip).inum path) (namexLoop sb parent ip path) s fs
      (Returned sb M Eq) := by
  induction n generalizing ip path s fs with
  | zero => omega
  | succ n ih =>
    have hself := Multiset.mem_cons_self ip M
    -- the walk ends without a result
    have hput : ∀ {i fs₁ s₁}, Mirrors sb (ip ::ₘ M) fs₁ s₁ → (fs₁.itable ip).inum = i →
        Sim (do
          Names.iput i
          pure none : Names.NameProg (Option (ℕ × List UInt8))) (do
          iput sb ip
          pure none : FsProg (Option (Fin NINODE × List UInt8))) s₁ fs₁ (Returned sb M Eq) := by
      rintro _ fs₁ s₁ h₁ rfl
      exact Sim.bind ((iput_sim h₁).mono fun _ _ _ _ hr => sim_of_ok rfl rfl hr.1)
    rw [Names.namexLoop]
    cases hskip : skipelem path with
    | none =>
      rw [namexLoop_none hskip]
      cases parent with
      | true => exact hput h rfl
      | false => exact sim_of_ok rfl rfl ⟨rfl, rfl, h⟩
    | some r =>
      obtain ⟨rest, name⟩ := r
      obtain ⟨-, -, -, hrest, -⟩ := skipelem_some hskip
      rw [namexLoop_some hskip]
      refine Sim.bind ((ilock_sim h hself).mono ?_)
      rintro _ s₁ _ fs₁ ⟨h₁, hv, hinum⟩
      have hnode := (h₁.synced hself hv).2
      rw [hinum] at hnode
      unfold Sim
      rw [get_bind, getInode_bind, hnode]
      by_cases hdir : (fs₁.itable ip).din.type = T_DIR
      · have htype : (nodeOf fs₁.disk (fs₁.itable ip).din).type = .T_DIR := typeOf_eq_dir.mpr hdir
        rw [if_neg (not_not.mpr hdir), if_neg (not_not.mpr htype)]
        by_cases hlast : parent = true ∧ rest = []
        · rw [if_pos hlast, if_pos hlast]
          exact sim_of_ok rfl rfl ⟨hinum.symm, rfl, h₁⟩
        · rw [if_neg hlast, if_neg hlast, ← hinum]
          refine Sim.bind ((dirlookup_sim h₁ hself hv hdir name).mono ?_)
          rintro r s₂ r' fs₂ ⟨hr, hframe⟩
          cases r with
          | none =>
            cases r' with
            | none => exact hput hr (hframe ip hself)
            | some => exact hr.elim
          | some next =>
            cases r' with
            | none => exact hr.elim
            | some np =>
              obtain ⟨i, k⟩ := next
              obtain ⟨rfl, -, h₂⟩ := hr
              rw [Multiset.cons_swap] at h₂
              rw [← hframe ip hself]
              refine Sim.bind ((iput_sim h₂).mono ?_)
              rintro _ s₃ _ fs₃ ⟨h₃, hinum₃⟩
              rw [← hinum₃]
              exact ih (by omega) h₃
      · have htype : (nodeOf fs₁.disk (fs₁.itable ip).din).type ≠ .T_DIR := mt typeOf_eq_dir.mp hdir
        rw [if_pos hdir, if_pos htype]
        exact hput h₁ hinum

/-- **The two models of `namex` agree**: from related states both find the inode of a path, with
one more reference to it, or both find none, or both panic; the states they end in are related. -/
theorem namex_sim (h : Mirrors sb M fs s) (hroot : ROOTINO < sb.ninodes) {cwd : Fin NINODE}
    (hcwd : cwd ∈ M) (parent : Bool) (path : List UInt8) :
    Sim (Names.namex (fs.itable cwd).inum parent path) (namex sb cwd parent path) s fs
      (Returned sb M Eq) := by
  unfold Names.namex namex
  split
  · refine Sim.bind ((iget_sim h hroot).mono ?_)
    rintro _ s₁ ip fs₁ ⟨hinum, h₁, -⟩
    rw [← hinum]
    exact namexLoop_sim parent (Nat.lt_succ_self _) h₁
  · have href := h.sound.ref_pos hcwd
    have ht : Taken (fs.itable cwd).inum fs cwd _ := .again href rfl
    have hloop := namexLoop_sim parent (Nat.lt_succ_self path.length)
      ⟨(ht.keeps h.sound (h.sound.inv.table.inum_lt cwd href)).1,
        h.depicts.grabbed h.sound.inv.table href⟩
    rw [inum_setInode _ (by rfl)] at hloop
    exact Sim.bind (sim_of_ok rfl rfl hloop)

end

end Xv6
