import Xv6.ExecCalls

/-!
# An `exec` that fails

There are many ways to fail, before the file is open, while it is open and when it is closed again,
with a page table of any size in between, and one clean-up for all of them. Where `exec` returns
-1, the process is as it was (`Untouched`): nothing has been stored but in pages that were free, and
these are free again; the reference and the lock of the inode are given back and the operation
has ended.

No file makes the memory code panic on the way. What may panic is the file system, when it is out
of inodes or of blocks or finds them inconsistent, and not because of what the file contains.
-/

open Prog hiding get modify panic result

namespace Xv6.Exec

open Pool

/-- **The process is as it was**: its structure with the registers, its memory, the free pages and
what all others contain; the references and locks of inodes and the open operations are the same. -/
structure Untouched (st st' : State) (p : Fin NPROC) : Prop where
  proc : st'.k.proc = st.k.proc
  user : ∀ u, userByte st'.k.mem.mem (st'.k.pagetableOf p) u
    = userByte st.k.mem.mem (st.k.pagetableOf p) u
  free : (st'.k.mem.free : Multiset ℕ) = st.k.mem.free
  pages : ∀ q ∉ st.k.mem.free, st'.k.mem.mem q = st.k.mem.mem q
  refs : st'.fs.refs = st.fs.refs
  locked : st'.locked = st.locked
  ops : st'.ops = st.ops

section

variable [KernelImage] {st st' : State} {k : Kernel} {p : Fin NPROC}

theorem Failed.untouched (hready : Ready st p) (h : Failed st st') : Untouched st st' p := by
  have hproc : st'.k.proc = st.k.proc := by rw [h.beside.rest]
  refine ⟨hproc, fun u => ?_, ?_, fun q hq => ?_, h.beside.refs, by rw [h.beside.rest],
    by rw [h.beside.rest]⟩
  · have hpt : st'.k.pagetableOf p = st.k.pagetableOf p := by
      unfold Kernel.pagetableOf
      rw [hproc]
    rw [hpt]
    refine hready.hasSpace.space.userByte_of_keep (fun q hq => ?_) u
    exact h.exchange.keep (by rw [zero_add]; exact hready.hasSpace.holds) hq
  · have hfree := h.exchange.conserve
    rwa [add_zero, add_zero] at hfree
  · exact h.exchange.frame q (by rwa [add_zero, Multiset.mem_coe])

/-! ## The arguments of the system call -/

omit [KernelImage] in
theorem fetchstr_ends (k : Kernel) (p : Fin NPROC) (addr : ℕ) (max : ℤ) :
    Ends (fetchstr p addr max) k (fun _ => False) fun _ k' => k' = k := by
  obtain ⟨bytes, r, hrun, -⟩ :=
    copyinstr_spec k.mem (k.pagetableOf p) addr (max % 2 ^ 64).toNat
  unfold fetchstr
  refine ends_bind (ends_get (ends_bind
    (Kernel.ends_onMem (ends_of_ok hrun ?_))))
  split
  · exact ends_pure rfl
  · exact ends_pure rfl

/-- The process can use its memory while other pages change. -/
theorem Ready.withMem {mem : PhysMem} {R : Multiset ℕ} (h : Ready st p)
    (hex : Exchange st.k.mem mem 0 R) :
    Ready (st.withMem mem) p
    ∧ Holds physPages mem (R + spacePages st.k.mem.mem (st.k.pagetableOf p) (st.k.proc p).sz) := by
  have hold : Holds physPages st.k.mem
      (0 + spacePages st.k.mem.mem (st.k.pagetableOf p) (st.k.proc p).sz) := by
    rw [zero_add]
    exact h.hasSpace.holds
  obtain ⟨hspace, hpages⟩ := h.hasSpace.space.of_keep fun q hq => hex.keep hold hq
  refine ⟨⟨⟨hspace, ?_⟩, h.trapframe⟩, hex.holds_add hold⟩
  exact (hex.holds_add hold).right.mono (le_of_eq hpages)

omit [KernelImage] in
theorem fetchaddr_ends (addr : ℕ)
    (hpages : UserPages k.mem.mem (k.pagetableOf p)) :
    Ends (fetchaddr p addr) k (fun _ => False) fun _ k' => k' = k := by
  obtain ⟨bytes, r, hrun, -⟩ := copyin_spec hpages.ne_zero addr 8
  unfold fetchaddr
  refine ends_bind (ends_get ?_)
  split
  · exact ends_pure rfl
  · refine ends_bind (Kernel.ends_onMem (ends_of_ok hrun ?_))
    split
    · exact ends_pure rfl
    · exact ends_pure rfl

/-- **Fetching the arguments** takes a page for each of them. -/
theorem fetchArgs_ends (hready : Ready st p) (uargv : ℕ) {n i : ℕ} {pages : List ℕ}
    {argv : List (List UInt8)} {mem : PhysMem} (hex : Exchange st.k.mem mem 0 pages) :
    Ends (fetchArgs p uargv n i pages argv) { st.k with mem := mem } (fun _ => False)
      fun res k' => k' = { st.k with mem := k'.mem }
        ∧ Exchange st.k.mem k'.mem 0 (res.1 : Multiset ℕ) := by
  induction n generalizing i pages argv mem with
  | zero => exact ends_pure ⟨rfl, hex⟩
  | succ n ih =>
    unfold fetchArgs
    have hspace := (hready.withMem hex).1.hasSpace
    refine ends_bind ((fetchaddr_ends _ (hspace.space.userPages hspace.holds)).mono ?_)
    rintro uarg k' rfl
    cases uarg with
    | none => exact ends_pure ⟨rfl, hex⟩
    | some uarg =>
      dsimp only
      split
      · exact ends_pure ⟨rfl, hex⟩
      · refine ends_bind (Kernel.ends_onMem ((kalloc_ends mem).mono ?_))
        intro page mem₁ hpage
        cases page with
        | none => exact ends_pure ⟨rfl, hex.trans (hpage.2 _)⟩
        | some page =>
          -- the page is taken, filled, and kept whether or not the string was there
          have hex₁ : Exchange st.k.mem mem₁ 0 ((pages ++ [page] : List ℕ) : Multiset ℕ) := by
            have hadd := hpage.2.1.add (pages : Multiset ℕ)
            rw [zero_add, add_comm ({page} : Multiset ℕ)] at hadd
            exact hex.trans hadd
          refine ends_bind ((fetchstr_ends _ p uarg PGSIZE).mono ?_)
          rintro res k' rfl
          refine ends_bind (Kernel.ends_onMem (ends_modify ?_))
          have hex₂ := hex₁.trans (exchange_store (show page ∈ _ by simp)
            ((mem₁.mem page).blit 0 res.1))
          split
          · exact ends_pure ⟨rfl, hex₂⟩
          · exact ih hex₂

/-- **The pages of the arguments are freed.** -/
theorem freeArgs_ends {s : PhysMem} {F : Multiset ℕ} {pages : List ℕ}
    (hold : Holds physPages s ((pages : Multiset ℕ) + F)) :
    Ends (freeArgs pages) s (fun _ => False) fun _ s' =>
      Exchange s s' (pages : Multiset ℕ) 0 := by
  induction pages generalizing s with
  | nil => exact ends_pure (.refl _ _)
  | cons page pages ih =>
    have hsplit : ((page :: pages : List ℕ) : Multiset ℕ) = {page} + (pages : Multiset ℕ) := rfl
    rw [hsplit, add_assoc] at hold
    unfold freeArgs
    refine ends_bind ((kfree_ends (hold.mem (by simp))).mono fun _ s₁ hex => ?_)
    have hold₁ := hex.holds_add hold
    rw [zero_add] at hold₁
    refine (ih hold₁).mono fun _ s₂ hex' => ?_
    have hadd := hex.add (pages : Multiset ℕ)
    rw [zero_add] at hadd
    rw [hsplit]
    exact hadd.trans hex'

/-- The pages of the arguments are freed behind a call that changed nothing. -/
theorem Failed.freeArgs_ends {mem : PhysMem} {pages : List ℕ} (hready : Ready st p)
    (hex : Exchange st.k.mem mem 0 (pages : Multiset ℕ)) (h : Failed (st.withMem mem) st') :
    Ends (onMem (freeArgs pages)) st' (fun _ => False) fun _ st'' => Failed st st'' := by
  have hold := (h.exchange.holds_add (show Holds physPages mem (0 + _) by
    rw [zero_add]; exact (hready.withMem hex).2))
  rw [zero_add] at hold
  refine ends_onMem ((Exec.freeArgs_ends hold).mono fun _ mem' hfree => ?_)
  have hkeep := h.exchange.add (pages : Multiset ℕ)
  rw [zero_add] at hkeep
  exact ⟨((Beside.of_withMem st mem).trans h.beside).trans (.of_withMem st' mem'),
    (hex.trans hkeep).trans hfree⟩

variable (sb : Superblock)

/-- **`sys_exec`** leaves nothing behind where it returns -1. -/
theorem sys_exec_ends (hready : Ready st p) :
    Ends (sys_exec sb p) st (fun _ => True) fun r st' => r = -1 → Failed st st' := by
  have hrefl : Failed st st := ⟨.refl st, .refl _ _⟩
  unfold sys_exec
  refine ends_bind (ends_onKernel ?_)
  refine ends_bind (ends_bind (ends_get (ends_pure ?_)))
  refine ((fetchstr_ends st.k p _ MAXPATH).panic_mono fun _ => False.elim).mono ?_
  rintro path k rfl
  split
  · exact ends_pure fun _ => hrefl
  · refine ends_bind (ends_onKernel (ends_bind (ends_get (ends_pure ?_))))
    refine ends_bind (ends_onKernel (((fetchArgs_ends hready _ (.refl _ _)).panic_mono
      fun _ => False.elim).mono ?_))
    rintro ⟨pages, argv⟩ k ⟨hk, hex⟩
    have hst : ({ st with k := k } : State) = st.withMem k.mem := by
      rw [hk]
      rfl
    have hsame : Failed (st.withMem k.mem) (st.withMem k.mem) := ⟨.refl _, .refl _ _⟩
    rw [hst]
    cases argv with
    | none =>
      refine ends_bind (((hsame.freeArgs_ends hready hex).panic_mono fun _ => False.elim).mono ?_)
      exact fun _ _ hfailed => ends_pure fun _ => hfailed
    | some argv =>
      refine ends_bind (((exec_ends sb _ argv (hready.withMem hex).1).panic_mono
        fun _ _ => trivial).mono ?_)
      rintro r st₂ (⟨-, hfailed, -⟩ | ⟨rfl, -⟩)
      · refine ends_bind (((hfailed.freeArgs_ends hready hex).panic_mono
          fun _ => False.elim).mono fun _ _ hfailed => ends_pure fun _ => hfailed)
      · refine ends_bind ((ends_trivial _ st₂).mono fun _ _ _ => ends_pure ?_)
        intro h
        omega

/-- **A failed `exec` leaves the process as it was**, and so does the system call. -/
theorem exec_fails_untouched (hready : Ready st p) :
    (∀ path argv st', exec sb p path argv st = .ok (-1, st') → Untouched st st' p)
    ∧ ∀ st', sys_exec sb p st = .ok (-1, st') → Untouched st st' p := by
  refine ⟨fun path argv st' hrun => ?_, fun st' hrun => ?_⟩
  · obtain ⟨-, hfailed, -⟩ | ⟨hr, -⟩ := (exec_ends sb path argv hready).of_ok hrun
    · exact hfailed.untouched hready
    · omega
  · exact ((sys_exec_ends sb hready).of_ok hrun rfl).untouched hready

/-- **No file makes `exec` panic in the memory code.** -/
theorem exec_no_memory_panic (hready : Ready st p) (path : List UInt8) (argv : List (List UInt8))
    (e : Panic) : exec sb p path argv st ≠ .error (.mem e) := by
  intro hrun
  obtain hfs | ⟨hne, -⟩ := (exec_ends sb path argv hready).of_error hrun
  · exact hfs
  · exact absurd hne (by simp)

end

/-- An argument that does not fit in the stack page. -/
def longArg : List UInt8 := List.replicate 4090 97

/-- **With it, `exec` fails** after the program was loaded. -/
theorem exec_fails_untouched_long : ∃ (_ : KernelImage) (st st' : State), Ready st 0
    ∧ exec mkfsSuper 0 [slash, 97] [longArg] st = .ok (-1, st') ∧ Untouched st st' 0 := by
  obtain ⟨image, hload⟩ := sample_loads
  obtain ⟨st, _, _, _, _, _, _, _, _, hready, -, -, hload, halloc, hr⟩ := hload 64 (by simp)
  have hlen : longArg.length = 4090 := List.length_replicate
  have hsmall : Small [longArg] := by
    refine ⟨by decide, fun arg harg => ?_⟩
    rw [List.mem_singleton.mp harg, hlen]
    decide
  have hfits : ¬ FitsStack [longArg] := by
    unfold FitsStack stackBytes stringBytes
    rw [List.map_singleton, hlen]
    decide
  obtain ⟨st', hrun⟩ := exec_of_load mkfsSuper hready hload halloc hr hsmall
  rw [if_neg hfits] at hrun
  exact ⟨image, st, st', hready, hrun, (exec_fails_untouched mkfsSuper hready).1 _ _ _ hrun⟩

/-- A file whose program headers are far behind its end is no reason to panic. -/
theorem exec_no_memory_panic_far : ∃ (_ : KernelImage) (st st₁ : State) (ip : Fin NINODE),
    Ready st 0
    ∧ openFile mkfsSuper 0 [slash, 97] st = .ok (some ip, st₁)
    ∧ HasContents st₁.fs ip (sampleElf (2 ^ 32 + 64))
    ∧ ∀ e, exec mkfsSuper 0 [slash, 97] [[97]] st ≠ .error (.mem e) := by
  obtain ⟨image, hload⟩ := sample_loads
  obtain ⟨st, ip, st₁, _, _, _, _, _, _, hready, hopen, hfile, -⟩ := hload (2 ^ 32 + 64) (by simp)
  exact ⟨image, st, st₁, ip, hready, hopen, hfile, exec_no_memory_panic mkfsSuper hready _ _⟩

end Xv6.Exec
