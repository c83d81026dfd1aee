import Xv6.MkfsAgreement

/-!
# References to inodes

The entries of the inode table count the pointers to them. Only `iget`, `idup` and `iput`
change these counts; a path that is looked up ends with one more reference, to the inode that was
found, or with none (`namei_refs`). Nothing about the disk is needed for this.
-/

open Function
open Prog hiding get modify panic result

namespace Xv6

/-- The counts of references. -/
def Fs.refs (fs : Fs) : Fin NINODE → ℕ := fun ip => (fs.itable ip).ref

/-- Code that changes no count. -/
abbrev KeepsRefs {α : Type} (m : FsProg α) : Prop := Prog.Keeps Fs.refs m

/-- One more reference. -/
def addRef (refs : Fin NINODE → ℕ) (ip : Fin NINODE) : Fin NINODE → ℕ :=
  update refs ip (refs ip + 1)

theorem addRef_comm (refs : Fin NINODE → ℕ) (ip jp : Fin NINODE) :
    addRef (addRef refs ip) jp = addRef (addRef refs jp) ip := by
  unfold addRef
  by_cases h : ip = jp
  · rw [h]
  · rw [update_of_ne (Ne.symm h), update_of_ne h, update_comm h]

section Keeps

variable (sb : Superblock)

theorem refs_setInode {fs : Fs} {ip : Fin NINODE} {e : Inode} (h : e.ref = (fs.itable ip).ref) :
    (fs.setInode ip e).refs = fs.refs := by
  funext jp
  unfold Fs.refs
  by_cases hjp : jp = ip
  · rw [hjp, setInode_self, h]
  · rw [setInode_of_ne hjp]

theorem bread_refs (b : ℕ) : KeepsRefs (bread b) :=
  keeps_bind keeps_get fun _ => keeps_pure _

theorem getInode_refs (ip : Fin NINODE) : KeepsRefs (getInode ip) :=
  keeps_bind keeps_get fun _ => keeps_pure _

theorem modifyData_refs (b : ℕ) (f : Block → Block) : KeepsRefs (modifyData b f) :=
  keeps_modify fun _ => rfl

theorem logWrite_refs (b : ℕ) : KeepsRefs (logWrite b) := keeps_modify fun _ => rfl

theorem modifyDin_refs (ip : Fin NINODE) (f : Dinode → Dinode) : KeepsRefs (modifyDin ip f) :=
  keeps_modify fun _ => refs_setInode rfl

theorem balloc_refs : KeepsRefs (balloc sb) := by
  have hloop : ∀ n b, KeepsRefs (ballocBlocks sb n b) := by
    intro n
    induction n with
    | zero => exact fun _ => keeps_panic _
    | succ n ih =>
      intro b
      refine keeps_ite (keeps_bind (bread_refs _) fun data => ?_) (keeps_panic _)
      cases ballocBits sb data b BPB 0 with
      | none => exact ih _
      | some bi =>
        exact keeps_bind (modifyData_refs _ _) fun _ => keeps_bind (logWrite_refs _) fun _ =>
          keeps_bind (keeps_bind (modifyData_refs _ _) fun _ => logWrite_refs _) fun _ =>
            keeps_pure _
  exact hloop _ _

theorem bfree_refs (b : ℕ) : KeepsRefs (bfree sb b) :=
  keeps_bind (bread_refs _) fun _ => keeps_ite
    (keeps_bind (modifyData_refs _ _) fun _ => logWrite_refs _) (keeps_panic _)

theorem slotBlock_refs (ip : Fin NINODE) (k : Fin (NDIRECT + 1)) :
    KeepsRefs (slotBlock sb ip k) :=
  keeps_bind (getInode_refs ip) fun _ => keeps_ite (keeps_bind (balloc_refs sb) fun _ =>
    keeps_bind (modifyDin_refs ip _) fun _ => keeps_pure _) (keeps_pure _)

theorem bmap_refs (ip : Fin NINODE) (bn : ℕ) : KeepsRefs (bmap sb ip bn) := by
  unfold bmap
  split
  · exact slotBlock_refs sb ip _
  · refine keeps_ite (keeps_bind (slotBlock_refs sb ip _) fun _ => keeps_bind (bread_refs _)
      fun _ => keeps_ite ?_ (keeps_pure _)) (keeps_panic _)
    exact keeps_bind (balloc_refs sb) fun _ => keeps_bind (modifyData_refs _ _) fun _ =>
      keeps_bind (logWrite_refs _) fun _ => keeps_pure _

theorem readi_refs (ip : Fin NINODE) (dst : ℕ → List UInt8 → Bool) (off n : UInt32) :
    KeepsRefs (readi sb ip dst off n) := by
  have hloop : ∀ left off tot got, KeepsRefs (readiLoop sb ip dst left off tot got) := by
    intro left
    induction left using Nat.strong_induction_on with
    | _ left ih =>
      intro off tot got
      rw [readiLoop]
      split
      · exact keeps_pure _
      · rename_i hleft
        refine keeps_bind (bmap_refs sb ip _) fun _ => keeps_bind (bread_refs _) fun _ =>
          keeps_ite (ih _ ?_ _ _ _) (keeps_pure _)
        have hoff : off % BSIZE < BSIZE := Nat.mod_lt _ (by decide)
        omega
  exact keeps_bind (getInode_refs ip) fun _ => keeps_ite (keeps_pure _) (hloop _ _ _ _)

theorem ilock_refs (ip : Fin NINODE) : KeepsRefs (ilock sb ip) :=
  keeps_bind (getInode_refs ip) fun _ => keeps_ite (keeps_panic _) <|
    keeps_ite (keeps_pure _) <| keeps_bind (bread_refs _) fun _ =>
      keeps_bind (keeps_modify fun _ => refs_setInode rfl) fun _ =>
        keeps_ite (keeps_panic _) (keeps_pure _)

theorem iupdate_refs (ip : Fin NINODE) : KeepsRefs (iupdate sb ip) :=
  keeps_bind (getInode_refs ip) fun _ => keeps_bind (modifyData_refs _ _) fun _ => logWrite_refs _

theorem itruncDirect_refs (ip : Fin NINODE) (is : List (Fin NDIRECT)) :
    KeepsRefs (itruncDirect sb ip is) := by
  induction is with
  | nil => exact keeps_pure _
  | cons i is ih =>
    exact keeps_bind (getInode_refs ip) fun _ => keeps_ite ih (keeps_bind (bfree_refs sb _) fun _ =>
      keeps_bind (modifyDin_refs ip _) fun _ => ih)

theorem itruncIndirect_refs (data : Block) (js : List ℕ) :
    KeepsRefs (itruncIndirect sb data js) := by
  induction js with
  | nil => exact keeps_pure _
  | cons j js ih => exact keeps_ite ih (keeps_bind (bfree_refs sb _) fun _ => ih)

theorem itrunc_refs (ip : Fin NINODE) : KeepsRefs (itrunc sb ip) := by
  refine keeps_bind (itruncDirect_refs sb ip _) fun _ => keeps_bind ?_ fun _ =>
    keeps_bind (modifyDin_refs ip _) fun _ => iupdate_refs sb ip
  exact keeps_bind (getInode_refs ip) fun _ => keeps_ite (keeps_pure _) <|
    keeps_bind (bread_refs _) fun _ => keeps_bind (itruncIndirect_refs sb _ _) fun _ =>
      keeps_bind (bfree_refs sb _) fun _ => modifyDin_refs ip _

theorem iputFree_refs (ip : Fin NINODE) : KeepsRefs (iputFree sb ip) :=
  keeps_bind (getInode_refs ip) fun _ => keeps_ite (keeps_bind (itrunc_refs sb ip) fun _ =>
    keeps_bind (modifyDin_refs ip _) fun _ => keeps_bind (iupdate_refs sb ip) fun _ =>
      keeps_modify fun _ => refs_setInode rfl) (keeps_pure _)

end Keeps

/-! ## Taking and dropping references -/

section Refs

variable {sb : Superblock} {fs : Fs} {ip : Fin NINODE} {refs : Fin NINODE → ℕ}

theorem refs_setInode_add {e : Inode} (h : e.ref = (fs.itable ip).ref + 1) :
    (fs.setInode ip e).refs = addRef fs.refs ip := by
  funext jp
  unfold Fs.refs addRef
  by_cases hjp : jp = ip
  · rw [hjp, setInode_self, h, update_self]
  · rw [setInode_of_ne hjp, update_of_ne hjp]

/-- **`iget`** takes a reference. -/
theorem iget_refs (inum : ℕ) :
    Ends (iget inum) fs (fun _ => True) fun ip fs' => fs'.refs = addRef fs.refs ip := by
  refine ((iget_taken inum fs).panic_mono fun _ _ => trivial).mono fun ip fs' ht => ?_
  cases ht with
  | again => exact refs_setInode_add rfl
  | anew href => exact refs_setInode_add (by rw [href])

theorem idup_refs (ip : Fin NINODE) :
    Ends (idup ip) fs (fun _ => True) fun _ fs' => fs'.refs = addRef fs.refs ip :=
  ends_modify (refs_setInode_add rfl)

/-- **`iput`** drops a reference. -/
theorem iput_refs (h : fs.refs = addRef refs ip) :
    Ends (iput sb ip) fs (fun _ => True) fun _ fs' => fs'.refs = refs := by
  refine ends_bind ((iputFree_refs sb ip fs).mono fun _ fs₁ h₁ => ends_modify ?_)
  rw [h] at h₁
  funext jp
  show ((fs₁.setInode ip { fs₁.itable ip with ref := (fs₁.itable ip).ref - 1 }).itable jp).ref = _
  have hjp : (fs₁.itable jp).ref = addRef refs ip jp := congrFun h₁ jp
  have hip : (fs₁.itable ip).ref = addRef refs ip ip := congrFun h₁ ip
  unfold addRef at hjp hip
  by_cases heq : jp = ip
  · rw [heq, setInode_self, hip, update_self, Nat.add_sub_cancel]
  · rw [setInode_of_ne heq, hjp, update_of_ne heq]

theorem dirlookup_refs (dp : Fin NINODE) (name : List UInt8) :
    Ends (dirlookup sb dp name) fs (fun _ => True) fun res fs' =>
      match res with
      | none => fs'.refs = fs.refs
      | some (ip, _) => fs'.refs = addRef fs.refs ip := by
  have hloop : ∀ n off fs₀, fs₀.refs = fs.refs →
      Ends (dirlookupLoop sb dp name n off) fs₀ (fun _ => True) fun res fs' =>
        match res with
        | none => fs'.refs = fs.refs
        | some (ip, _) => fs'.refs = addRef fs.refs ip := by
    intro n
    induction n with
    | zero => exact fun _ _ h => ends_pure h
    | succ n ih =>
      intro off fs₀ h₀
      refine ends_bind (getInode_ends ?_)
      split
      · have hread : KeepsRefs (readEntry sb .dirlookupRead dp off) :=
          keeps_bind (readi_refs sb dp _ _ _) fun _ => keeps_ite (keeps_panic _) (keeps_pure _)
        refine ends_bind ((hread fs₀).mono fun de fs₁ h₁ => ?_)
        rw [h₀] at h₁
        split
        · refine ends_bind ((iget_refs _).mono fun ip fs₂ h₂ => ends_pure ?_)
          rwa [h₁] at h₂
        · exact ih _ fs₁ h₁
      · exact ends_pure h₀
  refine ends_bind (getInode_ends ?_)
  split
  · exact ends_panic trivial
  · exact hloop _ _ fs rfl

/-- The loop of `namex` exchanges its reference for one to the inode that it finds. -/
theorem namexLoop_refs (path : List UInt8) (h : fs.refs = addRef refs ip) :
    Ends (namexLoop sb false ip path) fs (fun _ => True) fun res fs' =>
      match res with
      | none => fs'.refs = refs
      | some (jp, _) => fs'.refs = addRef refs jp := by
  induction hlen : path.length using Nat.strong_induction_on generalizing fs ip path with
  | _ len ih =>
    have hput : ∀ {fs₁ : Fs}, fs₁.refs = addRef refs ip →
        Ends (do
          iput sb ip
          pure none : FsProg (Option (Fin NINODE × List UInt8))) fs₁ (fun _ => True) fun res fs' =>
            match res with
            | none => fs'.refs = refs
            | some (jp, _) => fs'.refs = addRef refs jp :=
      fun h₁ => ends_bind ((iput_refs h₁).mono fun _ _ h₂ => ends_pure h₂)
    cases hskip : skipelem path with
    | none =>
      rw [namexLoop_none hskip, if_neg (by decide)]
      exact ends_pure h
    | some res =>
      obtain ⟨rest, name⟩ := res
      obtain ⟨-, -, -, hlt, -⟩ := skipelem_some hskip
      rw [namexLoop_some hskip]
      refine ends_bind ((ilock_refs sb ip fs).mono fun _ fs₁ h₁ => ?_)
      rw [h] at h₁
      refine ends_bind (getInode_ends ?_)
      split
      · exact hput h₁
      · rw [if_neg (by simp)]
        refine ends_bind ((dirlookup_refs ip name).mono fun res fs₂ h₂ => ?_)
        cases res with
        | none => exact hput (h₂.trans h₁)
        | some next =>
          obtain ⟨next, off⟩ := next
          have h₃ : fs₂.refs = addRef (addRef refs next) ip := by
            rw [addRef_comm, ← h₁]
            exact h₂
          exact ends_bind ((iput_refs h₃).mono fun _ fs₃ h₄ =>
            ih rest.length (hlen ▸ hlt) rest h₄ rfl)

/-- **A path that is looked up** takes one reference, to the inode that was found. -/
theorem namei_refs (cwd : Fin NINODE) (path : List UInt8) :
    Ends (namei sb cwd path) fs (fun _ => True) fun res fs' =>
      match res with
      | none => fs'.refs = fs.refs
      | some ip => fs'.refs = addRef fs.refs ip := by
  have hnamex : Ends (namex sb cwd false path) fs (fun _ => True) fun res fs' =>
      match res with
      | none => fs'.refs = fs.refs
      | some (jp, _) => fs'.refs = addRef fs.refs jp := by
    unfold namex
    split
    · exact ends_bind ((iget_refs ROOTINO).mono fun ip fs₁ h₁ => namexLoop_refs path h₁)
    · exact ends_bind ((idup_refs cwd).mono fun _ fs₁ h₁ => namexLoop_refs path h₁)
  refine ends_bind (hnamex.mono fun res fs' h => ends_pure ?_)
  cases res with
  | none => exact h
  | some r => exact h

end Refs

end Xv6
