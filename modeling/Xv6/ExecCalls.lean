import Xv6.ExecStack
import Xv6.Sbrk

/-!
# `exec` as a whole

`exec` ends in one of two ways. Either it returns -1, and then the process, its memory, the free
pages, the references to inodes, the locks and the operations of the file system are as they were
(`Failed`); or it returns the number of arguments, and the process has the new space, with the old
one freed (`Committed`). In both cases the memory management code has not panicked, whatever the
file contains.
-/

open Prog hiding get modify panic result

namespace Xv6.Exec

open Pool

/-! ## Opening and closing the file -/

/-- **The file is open**: the process has a reference to its inode, the lock, and an operation. -/
structure Opened (st₀ st : State) (ip : Fin NINODE) : Prop where
  rest : st = { st₀ with fs := st.fs, locked := ip ::ₘ st₀.locked, ops := st₀.ops + 1 }
  refs : st.fs.refs = addRef st₀.fs.refs ip

section

variable (sb : Superblock) {st₀ st st₁ st₂ : State} {ip : Fin NINODE}

/-- **Opening the file**, or nothing. -/
theorem openFile_ends (p : Fin NPROC) (path : List UInt8) :
    Ends (openFile sb p path) st InFs fun res st' =>
      match res with
      | none => Beside st st' ∧ st'.k = st.k
      | some ip => Opened st st' ip := by
  unfold openFile
  refine ends_bind (ends_modify (ends_bind (ends_get ?_)))
  refine ends_bind (ends_onFs (((namei_refs _ path).panic_mono
    fun _ _ => trivial).mono ?_))
  intro res fs hrefs
  cases res with
  | none =>
    refine ends_bind (ends_modify (ends_pure ⟨⟨?_, hrefs⟩, rfl⟩))
    show State.mk st.k fs st.cwd st.locked (st.ops + 1 - 1)
      = State.mk st.k fs st.cwd st.locked st.ops
    rw [add_sub_cancel_right]
  | some ip =>
    refine ends_bind (ends_bind (ends_modify (ends_onFs
      (((ilock_refs sb ip).ends _).panic_mono (fun _ _ => trivial) |>.mono fun _ fs' hlock => ?_))))
    exact ends_pure ⟨rfl, hlock.trans hrefs⟩

/-- **Closing the file** gives back the reference, the lock and the operation. -/
theorem close_ends (h : Opened st₀ st₁ ip) (hb : Beside st₁ st₂) :
    Ends (do
      iunlockput sb ip
      end_op) st₂ InFs fun _ st₃ => Beside st₀ st₃ ∧ st₃.k = st₂.k := by
  have hlocked : st₂.locked = ip ::ₘ st₀.locked := by rw [hb.rest, h.rest]
  unfold iunlockput iunlock
  refine ends_bind (ends_bind (ends_bind (ends_get ?_)))
  split
  · exact ends_panic trivial
  refine ends_modify (ends_onFs (((iput_refs (hb.refs.trans h.refs)).panic_mono
    fun _ _ => trivial).mono fun _ fs hrefs => ends_modify ⟨⟨?_, hrefs⟩, rfl⟩))
  have hk : st₂.k = { st₀.k with mem := st₂.k.mem } := by rw [hb.rest, h.rest]
  have hcwd : st₂.cwd = st₀.cwd := by rw [hb.rest, h.rest]
  have hops : st₂.ops = st₀.ops + 1 := by rw [hb.rest, h.rest]
  show State.mk st₂.k fs st₂.cwd (st₂.locked.erase ip) (st₂.ops - 1)
    = State.mk { st₀.k with mem := st₂.k.mem } fs st₀.cwd st₀.locked st₀.ops
  rw [← hk, hcwd, hlocked, hops, Multiset.erase_cons_head, add_sub_cancel_right]

end

/-! ## Failure -/

/-- **Nothing happened**: only free pages and the contents of the file system may have changed. -/
structure Failed (st st' : State) : Prop where
  beside : Beside st st'
  exchange : Exchange st.k.mem st'.k.mem 0 0

section

variable [KernelImage] (sb : Superblock) {st₀ st st₁ st₂ : State} {ip : Fin NINODE}
  {pt sz trapframe : ℕ}

omit [KernelImage] in
theorem Failed.trans (h : Failed st st₁) (h' : Failed st₁ st₂) : Failed st st₂ :=
  ⟨h.beside.trans h'.beside, h.exchange.trans h'.exchange⟩

theorem Built.discard_ends (h : Built st₀ st pt sz trapframe)
    (hold : Holds physPages st₀.k.mem 0) :
    Ends (onMem (proc_freepagetable pt sz)) st (fun _ => False) fun _ st' =>
      Failed st₀ st' :=
  ends_onMem ((h.space.proc_freepagetable_ends (h.holds hold)).mono fun _ mem hex =>
    ⟨h.beside.trans (.of_withMem st mem), h.exchange.trans hex⟩)

theorem bad_closed_ends (h : Built st₀ st pt sz trapframe)
    (hold : Holds physPages st₀.k.mem 0) :
    Ends (bad sb (some pt) sz none) st (fun _ => False) fun _ st' => Failed st₀ st' := by
  unfold bad
  exact ends_bind ((h.discard_ends hold).mono fun _ _ hfailed => ends_pure hfailed)

theorem bad_none_ends (hopen : Opened st₀ st₁ ip) (hb : Failed st₁ st) :
    Ends (bad sb none 0 (some ip)) st InFs fun _ st' => Failed st₀ st' := by
  unfold bad
  refine (close_ends sb hopen hb.beside).mono ?_
  rintro - st₃ ⟨hbeside, hk⟩
  refine ⟨hbeside, ?_⟩
  have hmem : st₁.k = st₀.k := by rw [hopen.rest]
  rw [hk, ← hmem]
  exact hb.exchange

theorem bad_open_ends (hopen : Opened st₀ st₁ ip) (h : Built st₁ st pt sz trapframe)
    (hold : Holds physPages st₁.k.mem 0) :
    Ends (bad sb (some pt) sz (some ip)) st InFs fun _ st' => Failed st₀ st' := by
  unfold bad
  exact ends_bind (((h.discard_ends hold).panic_mono fun _ => False.elim).mono
    fun _ st₂ hfailed => bad_none_ends sb hopen hfailed)

/-! ## The first part -/

/-- **What a file is loaded as**, if it is not refused: its header is there, the headers of its
segments are read from the low 32 bits of the offset, and memory shows the segments, if their
offsets fit in 32 bits. -/
structure Image (data : List UInt8) (mem : ℕ → Page) (pagetable sz : ℕ) (elf : Elfhdr) : Prop where
  header : ELFHDRSIZE ≤ data.length ∧ elf = Elfhdr.load (data.take ELFHDRSIZE)
  magic : elf.magic = ELF_MAGIC
  inFile : ∀ i < elf.phnum, elf.phoff % 2 ^ 32 + (i + 1) * PROGHDRSIZE ≤ data.length
  shows : (∀ ph ∈ headers data (elf.phoff % 2 ^ 32) elf.phnum, ph.Near) →
    (∀ ph ∈ headers data (elf.phoff % 2 ^ 32) elf.phnum, ph.InFile data)
    ∧ Shows mem pagetable sz
      (overlay data (headers data (elf.phoff % 2 ^ 32) elf.phnum) fun _ => 0)

omit [KernelImage] in
theorem shows_empty (mem : ℕ → Page) (pt : ℕ) : Shows mem pt 0 fun _ => 0 := by
  intro u
  rw [if_neg (by rw [show npages 0 = 0 by decide]; exact Nat.not_lt_zero _)]

/-- **Loading an open file**, or nothing. -/
theorem loadFile_ends (p : Fin NPROC) (hopen : Opened st₀ st ip)
    (hold : Holds physPages st₀.k.mem 0)
    (htrap : ((st₀.k.proc p).trapframe.getD 0) < 2 ^ 64) :
    Ends (loadFile sb p ip) st InFs fun res st' =>
      match res with
      | none => Failed st₀ st'
      | some (pt, sz, elf) =>
        Building st₀ st' pt sz ((st₀.k.proc p).trapframe.getD 0)
        ∧ ∀ data, HasContents st.fs ip data → Image data st'.k.mem.mem pt sz elf := by
  have hk : st.k = st₀.k := by rw [hopen.rest]
  have hold' : Holds physPages st.k.mem 0 := hk ▸ hold
  unfold loadFile
  refine ends_bind (ends_get (ends_bind ((readKernel_ends sb ip _ _).mono ?_)))
  rintro r - ⟨⟨fs₁, rfl, hrefs⟩, hcount, -, hread⟩
  have hfailed : Failed st (st.withFs fs₁) := ⟨⟨rfl, hrefs⟩, .refl _ _⟩
  dsimp only
  split
  · exact ends_bind ((bad_none_ends sb hopen hfailed).mono fun _ _ h => ends_pure h)
  rename_i hheader
  obtain ⟨hsize, hmagic⟩ := not_or.mp hheader
  have hlen : r.2.length = ELFHDRSIZE := by
    have heq := not_not.mp hsize
    rw [hcount] at heq
    exact_mod_cast heq
  rw [hk]
  refine ends_bind (ends_onMem (((proc_pagetable_ends hold' htrap).panic_mono
    fun _ => False.elim).mono ?_))
  intro res mem hres
  cases res with
  | none =>
    refine ends_bind ((bad_none_ends sb hopen ?_).mono fun _ _ h => ends_pure h)
    exact hfailed.trans ⟨.of_withMem _ mem, hres⟩
  | some pt =>
    obtain ⟨hex, hspace⟩ := hres
    have hbuilding : Building st ((st.withFs fs₁).withMem mem) pt 0
        ((st₀.k.proc p).trapframe.getD 0) := by
      refine ⟨⟨hfailed.beside.trans (.of_withMem _ mem), hex, hspace⟩, fun v hv => ?_⟩
      rw [show npages 0 = 0 by decide] at hv
      exact absurd hv (Nat.not_lt_zero v)
    refine ends_bind ((loadLoop_ends sb hold' _ _ hbuilding).mono ?_)
    rintro ⟨ok, sz⟩ st₂ ⟨hb, hloaded⟩
    cases ok with
    | false =>
      exact ends_bind ((bad_open_ends sb hopen hb.toBuilt hold').mono
        fun _ _ h => ends_pure h)
    | true =>
      refine ends_bind ((ends_bind_iff.mp (close_ends sb hopen hb.beside)).mono
        fun _ _ hclose => ends_bind (hclose.mono ?_))
      rintro - st₄ ⟨hbeside, hk₄⟩
      refine ends_pure ⟨⟨⟨hbeside, ?_, ?_⟩, ?_⟩, fun data hdata => ?_⟩
      · rw [hk₄, ← hk]
        exact hb.exchange
      · rw [hk₄]
        exact hb.space
      · rw [hk₄]
        exact hb.user
      · obtain ⟨hfs, hwhole⟩ := hread data hdata
        obtain ⟨hin, hbytes⟩ := hwhole (by decide) hlen
        have hfs₁ : fs₁ = st.fs := congrArg State.fs hfs
        have hsame : ((st.withFs fs₁).withMem mem).fs = st.fs := hfs₁
        rw [hsame] at hloaded
        have hl := (hloaded data hdata).2 rfl
        have hphoff : (UInt32.ofNat (Elfhdr.load r.2).phoff).toNat
            = (Elfhdr.load r.2).phoff % 2 ^ 32 := UInt32.toNat_ofNat'
        rw [hphoff] at hl
        refine ⟨⟨(Nat.zero_add _).symm.le.trans hin, congrArg _ hbytes⟩, not_not.mp hmagic,
          hl.inFile, fun hnear => ?_⟩
        obtain ⟨hinFile, hshows⟩ := hl.shows hnear
        rw [hk₄]
        exact ⟨hinFile, hshows _ (shows_empty _ _)⟩

/-- **The first part of `exec`** builds a space, or does nothing. -/
theorem load_ends (p : Fin NPROC) (path : List UInt8) (hold : Holds physPages st.k.mem 0)
    (htrap : ((st.k.proc p).trapframe.getD 0) < 2 ^ 64) :
    Ends (load sb p path) st InFs fun res st' =>
      match res with
      | none => Failed st st'
      | some (pt, sz, _) =>
        Building st st' pt sz ((st.k.proc p).trapframe.getD 0) := by
  unfold load
  refine ends_bind ((openFile_ends sb p path).mono ?_)
  intro res st₁ hopen
  cases res with
  | none =>
    obtain ⟨hbeside, hk⟩ := hopen
    exact ends_pure ⟨hbeside, by rw [hk]; exact .refl _ _⟩
  | some ip =>
    refine (loadFile_ends sb p hopen hold htrap).mono ?_
    intro res st' h
    cases res with
    | none => exact h
    | some res => exact h.1

/-! ## The whole -/

/-- **The process has a new image**, and the pages of the old one are free. -/
structure Committed (st st' : State) (p : Fin NPROC) (path : List UInt8) (pagetable sz sp : ℕ)
    (elf : Elfhdr) : Prop where
  rest : st' = { st with
    k := { st.k with
      mem := st'.k.mem
      proc := Function.update st.k.proc p (commit path pagetable sz sp elf (st.k.proc p)) }
    fs := st'.fs }
  refs : st'.fs.refs = st.fs.refs
  exchange : Exchange st.k.mem st'.k.mem
    (spacePages st.k.mem.mem (st.k.pagetableOf p) (st.k.proc p).sz)
    (spacePages st'.k.mem.mem pagetable sz)
  space : AddressSpace st'.k.mem.mem pagetable sz ((st.k.proc p).trapframe.getD 0)

/-- A process that can call `exec`: it has memory, and a pointer to its trapframe. -/
structure Ready (st : State) (p : Fin NPROC) : Prop where
  hasSpace : st.k.HasSpace p
  trapframe : (st.k.proc p).trapframe.getD 0 < 2 ^ 64

theorem Ready.free (h : Ready st p) : Holds physPages st.k.mem 0 :=
  h.hasSpace.holds.mono (Multiset.zero_le _)

/-- **The new image takes the place of the old one.** -/
theorem Built.commit_ends {p : Fin NPROC} {path : List UInt8} {sp : ℕ} {elf : Elfhdr}
    (hready : Ready st₀ p) (h : Built st₀ st pt sz ((st₀.k.proc p).trapframe.getD 0)) :
    Ends (do
      onKernel (Kernel.setProc p (commit path pt sz sp elf))
      onMem (proc_freepagetable (st₀.k.pagetableOf p) (st₀.k.proc p).sz)) st (fun _ => False)
      fun _ st' =>
        Committed st₀ st' p path pt sz sp elf
        ∧ ∀ q ∈ spacePages st.k.mem.mem pt sz, st'.k.mem.mem q = st.k.mem.mem q := by
  -- the old space is as it was
  have hboth := h.exchange.holds_add
    (show Holds physPages st₀.k.mem (0 + _) by rw [zero_add]; exact hready.hasSpace.holds)
  obtain ⟨hold, hpages⟩ := hready.hasSpace.space.of_keep fun q hq =>
    h.exchange.keep (by rw [zero_add]; exact hready.hasSpace.holds) hq
  have hproc : st.k = { st₀.k with mem := st.k.mem } := by rw [h.beside.rest]
  refine ends_bind (ends_onKernel (ends_modify (ends_onMem
    ((hold.proc_freepagetable_ends ?_).mono ?_))))
  · rw [hpages]
    exact hboth.right
  · intro _ mem hex
    rw [hpages] at hex
    have hkeep : ∀ q ∈ spacePages st.k.mem.mem pt sz, mem.mem q = st.k.mem.mem q :=
      fun q hq => hex.keep (by rw [add_comm]; exact hboth) hq
    obtain ⟨hnew, hpages'⟩ := h.space.of_keep hkeep
    refine ⟨⟨?_, h.beside.refs, ?_, hnew⟩, hkeep⟩
    · have hcwd : st.cwd = st₀.cwd := by rw [h.beside.rest]
      have hlocked : st.locked = st₀.locked := by rw [h.beside.rest]
      have hops : st.ops = st₀.ops := by rw [h.beside.rest]
      show State.mk { st.k with
          mem := mem
          proc := Function.update st.k.proc p (commit path pt sz sp elf (st.k.proc p)) }
        st.fs st.cwd st.locked st.ops = State.mk _ st.fs st₀.cwd st₀.locked st₀.ops
      rw [hcwd, hlocked, hops, hproc]
      rfl
    · have hadd := (h.exchange.add (spacePages st₀.k.mem.mem (st₀.k.pagetableOf p)
        (st₀.k.proc p).sz)).trans (hex.add_left _)
      rw [zero_add, add_zero, ← hpages'] at hadd
      exact hadd

/-- **The rest of `exec`**, after the file was loaded. With short arguments that fit, it fails only
where there is no memory for the stack. -/
theorem finish_ends {p : Fin NPROC} (path : List UInt8) (argv : List (List UInt8)) (elf : Elfhdr)
    (hready : Ready st₀ p)
    (h : Building st₀ st pt sz ((st₀.k.proc p).trapframe.getD 0)) :
    Ends (finish sb p path argv pt sz elf) st (Overflows argv.length) fun r st' =>
      (r = -1 ∧ Failed st₀ st' ∧ (Small argv → FitsStack argv → ∃ mem,
        uvmalloc pt (PGROUNDUP sz) (u64 (PGROUNDUP sz + 2 * PGSIZE)) st.k.mem
          = .ok (0, mem)))
      ∨ r = argv.length ∧ ∃ sz' sp, Committed st₀ st' p path pt sz' sp elf
        ∧ (Small argv → StackBuilt st.k.mem.mem st'.k.mem.mem pt sz sz' sp argv) := by
  have hk : st.k.proc = st₀.k.proc := by rw [h.beside.rest]
  unfold finish
  refine ends_bind (ends_get (ends_bind ((stack_ends h hready.free).mono ?_)))
  rintro ⟨res, sz'⟩ st₂ ⟨hbuilt, hsmall⟩
  cases res with
  | none =>
    refine ends_bind (((bad_closed_ends sb hbuilt hready.free).panic_mono
      fun _ => False.elim).mono fun _ st₃ hfailed => ?_)
    exact ends_pure (.inl ⟨rfl, hfailed, hsmall⟩)
  | some sp =>
    have hpt : st.k.pagetableOf p = st₀.k.pagetableOf p := by
      unfold Kernel.pagetableOf
      rw [hk]
    rw [hpt, hk]
    refine ends_bind ((ends_bind_iff.mp ((hbuilt.commit_ends hready).panic_mono
      fun _ => False.elim)).mono fun _ _ hcommit => ends_bind (hcommit.mono ?_))
    rintro - st₃ ⟨hcommit, hkeep⟩
    refine ends_pure (.inr ⟨rfl, sz', sp, hcommit, fun hs => ?_⟩)
    exact (hsmall hs).of_keep hbuilt.space hkeep

/-- **The two ends of `exec`.** -/
theorem exec_ends {p : Fin NPROC} (path : List UInt8) (argv : List (List UInt8))
    (hready : Ready st p) :
    Ends (exec sb p path argv) st (fun e => InFs e ∨ Overflows argv.length e) fun r st' =>
      (r = -1 ∧ Failed st st' ∧ (Small argv → FitsStack argv →
        (∃ st₁, load sb p path st = .ok (none, st₁))
        ∨ ∃ pt sz elf st₁ mem, load sb p path st = .ok (some (pt, sz, elf), st₁)
          ∧ uvmalloc pt (PGROUNDUP sz) (u64 (PGROUNDUP sz + 2 * PGSIZE)) st₁.k.mem
            = .ok (0, mem)))
      ∨ r = argv.length ∧ ∃ pt sz elf st₁ sz' sp,
        load sb p path st = .ok (some (pt, sz, elf), st₁)
        ∧ Committed st st' p path pt sz' sp elf
        ∧ (Small argv → StackBuilt st₁.k.mem.mem st'.k.mem.mem pt sz sz' sp argv) := by
  unfold exec
  refine ends_bind (((load_ends sb p path hready.free hready.trapframe).with_run.panic_mono
    fun _ => Or.inl).mono ?_)
  rintro res st₁ ⟨hload, hrun⟩
  cases res with
  | none => exact ends_pure (.inl ⟨rfl, hload, fun _ _ => .inl ⟨st₁, hrun⟩⟩)
  | some res =>
    obtain ⟨pt, sz, elf⟩ := res
    refine ((finish_ends sb path argv elf hready hload).panic_mono fun _ => Or.inr).mono ?_
    rintro r st' (⟨hr, hfailed, hmem⟩ | ⟨hr, sz', sp, hcommit, hstack⟩)
    · refine .inl ⟨hr, hfailed, fun hs hfits => .inr ?_⟩
      obtain ⟨mem, hmem⟩ := hmem hs hfits
      exact ⟨pt, sz, elf, st₁, mem, hrun, hmem⟩
    · exact .inr ⟨hr, pt, sz, elf, st₁, sz', sp, hrun, hcommit, hstack⟩

end

/-! ## A small program -/

/-- The `n` bytes of a number. -/
def leBytes (n v : ℕ) : List UInt8 := (List.range n).map fun i => UInt8.ofNat (v / 256 ^ i)

/-- A program file with one segment of one byte, and the header of that segment at offset 64. -/
def sampleElf (phoff : ℕ) : List UInt8 :=
  [0x7F, 0x45, 0x4C, 0x46] ++ List.replicate 28 0 ++ leBytes 8 phoff ++ List.replicate 16 0
    ++ leBytes 2 1 ++ List.replicate 6 0
    ++ leBytes 8 1 ++ List.replicate 24 0 ++ leBytes 8 1 ++ leBytes 8 1 ++ List.replicate 8 0

/-- The inode of the program. -/
def sampleInode : Dinode := ⟨2, 0, 0, 1, 120, fun i => if i.val = 0 then 47 else 0⟩

/-- A disk with the program under the name `a`. -/
def sampleDisk (phoff : ℕ) : Disk :=
  let inodes := mkfsSuper.putDinode (mkfsSuper.putDinode emptyDisk 1
    ⟨T_DIR, 0, 0, 1, 16, fun i => if i.val = 0 then 46 else 0⟩) 2 sampleInode
  Function.update (Function.update inodes 46 (Bytes.blit (.fill BSIZE 0) 0 (entryBytes [97] 2)))
    47 (Bytes.blit (.fill BSIZE 0) 0 (sampleElf phoff))

/-- Memory for two processes. -/
def largerMemory : PhysMem :=
  { sampleMemory with free := (List.range 24).map fun i => 0x80100000 + i * PGSIZE }

theorem largerMemory_holds : Holds (@physPages sampleImage) largerMemory 0 := by
  let _ := sampleImage
  have hall : ∀ p ∈ largerMemory.free ++ [],
      PGSIZE ∣ p ∧ PGROUNDUP KernelImage.end_ ≤ p ∧ p < PHYSTOP := by decide
  exact .of_list (by decide) fun p hp =>
    mem_physPages_of (hall p hp).1 (hall p hp).2.1 (hall p hp).2.2

/-- A process that has no memory yet, with this disk. -/
def sampleState (phoff : ℕ) : State where
  k := .single largerMemory { unusedProc with
    sz := PGSIZE, pagetable := some 0x80100000, trapframe := some 0x80200000 }
  fs := .boot (sampleDisk phoff)
  cwd _ := 0
  locked := 0
  ops := 0

section

variable [KernelImage] (sb : Superblock)

/-- **Where the file can be loaded and there is memory for the stack**, `exec` with short arguments
fails exactly if they do not fit. -/
theorem exec_of_load {st st₁ : State} {p : Fin NPROC} {path : List UInt8}
    {argv : List (List UInt8)} {pt sz r : ℕ} {elf : Elfhdr} {mem : PhysMem}
    (hready : Ready st p) (hload : load sb p path st = .ok (some (pt, sz, elf), st₁))
    (halloc : uvmalloc pt (PGROUNDUP sz) (u64 (PGROUNDUP sz + 2 * PGSIZE)) st₁.k.mem
      = .ok (r, mem)) (hr : r ≠ 0) (hsmall : Small argv) :
    ∃ st', exec sb p path argv st
      = .ok (if FitsStack argv then (argv.length : ℤ) else -1, st') := by
  have hbuilding := (load_ends sb p path hready.free hready.trapframe).of_ok hload
  obtain ⟨r', st', hrun, hres⟩ := Ends.exists_ok
    ((finish_ends sb path argv elf hready hbuilding).panic_mono fun e he => hsmall.1.ne he.2)
  have hexec : exec sb p path argv st = .ok (r', st') := (bind_of_ok hload).trans hrun
  obtain ⟨rfl, -, hnone⟩ | ⟨rfl, sz', sp, -, hstack⟩ := hres
  · rw [if_neg fun hfits => ?_]
    · exact ⟨st', hexec⟩
    · obtain ⟨mem', hmem'⟩ := hnone hsmall hfits
      exact hr (Prod.mk.inj (Except.ok.inj (halloc.symm.trans hmem'))).1
  · rw [if_pos (hstack hsmall).fits]
    exact ⟨st', hexec⟩

end

instance (d : Dinode) (mem : ℕ → Block) : Decidable (d.HoleFree mem) :=
  decidable_of_iff (_ ∧ _) ⟨fun h => ⟨h.1, h.2⟩, fun h => ⟨h.1, h.2⟩⟩

instance (fs : Fs) (ip : Fin NINODE) (data : List UInt8) : Decidable (HasContents fs ip data) :=
  decidable_of_iff (_ ∧ _) ⟨fun h => ⟨h.1, h.2⟩, fun h => ⟨h.1, h.2⟩⟩

/-- The file is there, with its contents. -/
def Opens (phoff : ℕ) (st : State) : Prop :=
  Ends (openFile mkfsSuper 0 [slash, 97]) st (fun _ => False) fun file st₁ =>
    ∃ ip ∈ file, HasContents st₁.fs ip (sampleElf phoff)
  deriving Decidable

/-- It is loaded, and there is memory for the stack. -/
def Loads [KernelImage] (st : State) : Prop :=
  Ends (load mkfsSuper 0 [slash, 97]) st (fun _ => False) fun loaded st₂ =>
    ∃ x ∈ loaded, Ends (uvmalloc x.1 (PGROUNDUP x.2.1) (u64 (PGROUNDUP x.2.1 + 2 * PGSIZE)))
      st₂.k.mem (fun _ => False) fun r _ => r ≠ 0
  deriving Decidable

/-- The program is loaded, whatever the high half of `phoff` is. -/
theorem sample_loads : ∃ (_ : KernelImage), ∀ phoff ∈ [64, 2 ^ 32 + 64], ∃ st ip st₁ pt sz elf
      st₂ r mem, Ready st 0 ∧ openFile mkfsSuper 0 [slash, 97] st = .ok (some ip, st₁)
    ∧ HasContents st₁.fs ip (sampleElf phoff)
    ∧ load mkfsSuper 0 [slash, 97] st = .ok (some (pt, sz, elf), st₂)
    ∧ uvmalloc pt (PGROUNDUP sz) (u64 (PGROUNDUP sz + 2 * PGSIZE)) st₂.k.mem = .ok (r, mem)
    ∧ r ≠ 0 := by
  have hruns : let _ := sampleImage; ∀ phoff ∈ [64, 2 ^ 32 + 64],
      Ends (onMem (makeSpaces 0x80200000 0x80201000)) (sampleState phoff) (fun _ => False)
        fun spaces st => spaces = (some 0x80100000, PGSIZE, some 0x80106000)
          ∧ Opens phoff st ∧ Loads st := by
    decide +kernel
  let _ := sampleImage
  refine ⟨sampleImage, fun phoff hphoff => ?_⟩
  obtain ⟨_, st, hspaces, rfl, hopen, hload⟩ := (hruns phoff hphoff).exists_ok
  obtain ⟨mem, hmake, rfl⟩ := onMem_ok hspaces
  obtain ⟨hparent, -, hold⟩ := makeSpaces_spec largerMemory_holds (by decide) (by decide) hmake
  have hready : Ready ((sampleState phoff).withMem mem) 0 :=
    ⟨⟨hparent, (Holds.right hold).left⟩, show 0x80200000 < 2 ^ 64 by decide⟩
  obtain ⟨file, st₁, hopen, ip, hip, hdata⟩ := Ends.exists_ok hopen
  obtain ⟨loaded, st₂, hload, ⟨pt, sz, elf⟩, hloaded, halloc⟩ := Ends.exists_ok hload
  obtain ⟨r, mem', halloc, hr⟩ := halloc.exists_ok
  obtain rfl := Option.mem_def.mp hip
  obtain rfl := Option.mem_def.mp hloaded
  exact ⟨_, ip, st₁, pt, sz, elf, st₂, r, mem', hready, hopen, hdata, hload, halloc, hr⟩

end Xv6.Exec
