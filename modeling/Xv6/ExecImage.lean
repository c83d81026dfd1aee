import Xv6.ExecCalls

/-!
# An `exec` that succeeds

What the new program finds in memory: the segments that its file describes, and the arguments.

The segments are where they should be if the offsets in the headers are small. The offset of the
program headers is a 64-bit number that `exec` keeps in an `int`, and the offset of a segment is one
that `loadseg` takes as a `uint`. A file whose headers point behind its end, by a multiple
of 4 GB, is not refused: the low halves of the numbers are used (`exec_truncates_phoff`).
-/

namespace Xv6.Exec

open Pool

/-! ## The arguments -/

section

variable [KernelImage] (sb : Superblock) {st st' : State} {p : Fin NPROC}

/-- Why `exec` with short arguments may refuse. -/
inductive Refuses (st : State) (p : Fin NPROC) (path : List UInt8) (argv : List (List UInt8)) : Prop
  /-- The arguments do not fit in the stack page. -/
  | arguments (h : ¬ FitsStack argv)
  /-- The file is not there, or no program, or there is no memory for it. -/
  | file (st₁ : State) (h : load sb p path st = .ok (none, st₁))
  /-- There is no memory for the stack. -/
  | memory (pagetable sz : ℕ) (elf : Elfhdr) (st₁ : State) (mem : PhysMem)
    (h : load sb p path st = .ok (some (pagetable, sz, elf), st₁))
    (h' : uvmalloc pagetable (PGROUNDUP sz) (u64 (PGROUNDUP sz + 2 * PGSIZE)) st₁.k.mem
      = .ok (0, mem))

/-- **The arguments are on the stack, or they are refused.** The stack pointer does not go below
zero in either case. -/
theorem exec_arguments {argv : List (List UInt8)} (hready : Ready st p) (hsmall : Small argv)
    (path : List UInt8) :
    (Prog.Ends (exec sb p path argv) st InFs fun r st' =>
      (r = -1 ∧ Refuses sb st p path argv)
      ∨ r = argv.length ∧ ∃ pagetable sz elf st₁,
        load sb p path st = .ok (some (pagetable, sz, elf), st₁)
        ∧ (st'.k.proc p).pagetable = some pagetable
        ∧ (st'.k.proc p).regs.a1 = (st'.k.proc p).regs.sp
        ∧ StackBuilt st₁.k.mem.mem st'.k.mem.mem pagetable sz (st'.k.proc p).sz
          (st'.k.proc p).regs.sp argv)
    ∧ ∀ pagetable sz elf st₁, load sb p path st = .ok (some (pagetable, sz, elf), st₁) →
      NoUnderflow (PGROUNDUP sz + PGSIZE) argv 0 (PGROUNDUP sz + 2 * PGSIZE) := by
  refine ⟨((exec_ends sb path argv hready).panic_mono ?_).mono ?_, ?_⟩
  · rintro e (hfs | ⟨-, hfull⟩)
    · exact hfs
    · exact absurd hfull hsmall.1.ne
  · rintro r st' (⟨rfl, -, hwhy⟩ | ⟨rfl, pagetable, sz, elf, st₁, sz', sp, hload, hcommit, hstack⟩)
    · refine .inl ⟨rfl, ?_⟩
      by_cases hfits : FitsStack argv
      · obtain ⟨st₁, hnone⟩ | ⟨pagetable, sz, elf, st₁, mem, hload, hmem⟩ := hwhy hsmall hfits
        · exact .file st₁ hnone
        · exact .memory pagetable sz elf st₁ mem hload hmem
      · exact .arguments hfits
    · have hproc : st'.k.proc p = commit path pagetable sz' sp elf (st.k.proc p) := by
        rw [hcommit.rest]
        exact Function.update_self ..
      refine .inr ⟨rfl, pagetable, sz, elf, st₁, hload, ?_, ?_, ?_⟩
      · rw [hproc]
        rfl
      · rw [hproc]
        rfl
      · rw [hproc]
        exact hstack hsmall
  · intro pagetable sz elf st₁ hload
    have hbuilding := (load_ends sb p path hready.free hready.trapframe).of_ok hload
    obtain ⟨hround, hpages, -, -⟩ := two_pages hbuilding hready.free
    have hargc : 0 + argv.length < MAXARG := by
      rw [Nat.zero_add]
      exact hsmall.1
    refine noUnderflow_of_short (Nat.le_add_left _ _) hargc hsmall.2 ?_ ?_ ?_
    · rw [hround, ← Nat.add_mul]
      exact Dvd.dvd.mul_left (by decide) _
    · rw [hround, ← Nat.add_mul]
      unfold PGSIZE
      omega
    · omega

end

/-- **A program is started** with the arguments `ab` and `c`. -/
theorem exec_arguments_ab : ∃ (_ : KernelImage) (st st' : State), Ready st 0
    ∧ Small [[97, 98], [99]] ∧ exec mkfsSuper 0 [slash, 97] [[97, 98], [99]] st = .ok (2, st')
    ∧ ∃ pagetable ptrs, (st'.k.proc 0).pagetable = some pagetable
      ∧ ArgStack st'.k.mem.mem pagetable ((st'.k.proc 0).sz - PGSIZE) (st'.k.proc 0).sz
        [[97, 98], [99]] (st'.k.proc 0).regs.sp ptrs := by
  obtain ⟨image, hload⟩ := sample_loads
  obtain ⟨st, _, _, _, _, _, _, _, _, hready, -, -, hload, halloc, hr⟩ := hload 64 (by simp)
  have hsmall : Small [[97, 98], [99]] := by
    unfold Small
    decide
  obtain ⟨st', hrun⟩ := exec_of_load mkfsSuper hready hload halloc hr hsmall
  rw [if_pos (by decide)] at hrun
  refine ⟨image, st, st', hready, hsmall, hrun, ?_⟩
  obtain ⟨hr, -⟩ | ⟨-, pagetable, sz, elf, st₁, -, hpt, -, hstack⟩ :=
    (exec_arguments mkfsSuper hready hsmall [slash, 97]).1.of_ok hrun
  · exact absurd hr (by decide)
  · obtain ⟨ptrs, hargs⟩ := hstack.args
    exact ⟨pagetable, ptrs, hpt, hargs⟩

/-! ## The segments -/

/-- **Memory shows what the headers describe**, with their numbers as they are: the program headers
are in the file, the segments are, and each byte is that of the last segment that has it, or 0. -/
structure ShowsImage (data : List UInt8) (mem : ℕ → Page) (pagetable sz : ℕ) (elf : Elfhdr) :
    Prop where
  headersInFile : ∀ i < elf.phnum, elf.phoff + (i + 1) * PROGHDRSIZE ≤ data.length
  inFile : ∀ ph ∈ headers data elf.phoff elf.phnum, ph.InFile data
  shows : Shows mem pagetable sz (overlay data (headers data elf.phoff elf.phnum) fun _ => 0)

section

variable [KernelImage] (sb : Superblock) {st st₁ st' : State} {p : Fin NPROC} {ip : Fin NINODE}

/-- **`exec` loads the image that the headers describe** if and only if their offsets fit in 32
bits, those of the program headers if there is one, and those of the segments that have a byte. -/
theorem exec_loads_image {path data : List UInt8} {argv : List (List UInt8)} {r : ℤ}
    (hready : Ready st p) (hopen : openFile sb p path st = .ok (some ip, st₁))
    (hdata : HasContents st₁.fs ip data)
    (hrun : exec sb p path argv st = .ok (r, st')) (hr : r ≠ -1) :
    (∃ pagetable sz st₂,
      load sb p path st = .ok (some (pagetable, sz, Elfhdr.load (data.take ELFHDRSIZE)), st₂)
      ∧ ShowsImage data st₂.k.mem.mem pagetable sz (Elfhdr.load (data.take ELFHDRSIZE)))
    ↔ ((Elfhdr.load (data.take ELFHDRSIZE)).phnum = 0
        ∨ (Elfhdr.load (data.take ELFHDRSIZE)).phoff < 2 ^ 32)
      ∧ ∀ ph ∈ headers data (Elfhdr.load (data.take ELFHDRSIZE)).phoff
        (Elfhdr.load (data.take ELFHDRSIZE)).phnum, ph.Near := by
  constructor
  · rintro ⟨pagetable, sz, st₂, -, hshows⟩
    -- what is in the file has offsets below its size, which is a `uint`
    have hlt := hdata.length_lt
    refine ⟨or_iff_not_imp_left.mpr fun hne => ?_, fun ph hph htype hne => ?_⟩
    · have hfirst := hshows.headersInFile 0 (Nat.pos_of_ne_zero hne)
      omega
    · have hfirst := hshows.inFile ph hph htype ph.off le_rfl (by omega)
      omega
  · rintro ⟨hphoff, hnear⟩
    obtain ⟨rfl, -⟩ | ⟨-, pagetable, sz, elf, st₂, -, -, hload, -⟩ :=
      (exec_ends sb path argv hready).of_ok hrun
    · exact absurd rfl hr
    have hfile : loadFile sb p ip st₁ = .ok (some (pagetable, sz, elf), st₂) :=
      (Prog.bind_of_ok hopen).symm.trans hload
    have hopened : Opened st st₁ ip := (openFile_ends sb p path).of_ok hopen
    obtain ⟨-, himage⟩ := (loadFile_ends sb p hopened hready.free hready.trapframe).of_ok hfile
    obtain ⟨⟨-, rfl⟩, -, hin, hshows⟩ := himage data hdata
    refine ⟨pagetable, sz, st₂, hload, ?_⟩
    rcases hphoff with hzero | hlt
    · have hnone : ∀ off, headers data off 0 = [] := fun _ => rfl
      rw [hzero, hnone] at hshows
      obtain ⟨-, hshows⟩ := hshows fun ph hph => absurd hph List.not_mem_nil
      refine ⟨fun i hi => ?_, fun ph hph => ?_, ?_⟩
      · exact absurd (hzero ▸ hi) (Nat.not_lt_zero i)
      · rw [hzero] at hph
        exact absurd hph List.not_mem_nil
      · rwa [hzero, hnone]
    · rw [Nat.mod_eq_of_lt hlt] at hin hshows
      exact ⟨hin, (hshows hnear).1, (hshows hnear).2⟩

end

/-- The program is loaded. -/
theorem exec_loads_image_sample : ∃ (_ : KernelImage) (st st₁ st' : State) (ip : Fin NINODE),
    openFile mkfsSuper 0 [slash, 97] st = .ok (some ip, st₁)
    ∧ HasContents st₁.fs ip (sampleElf 64) ∧ exec mkfsSuper 0 [slash, 97] [] st = .ok (0, st')
    ∧ ∃ pagetable sz st₂ elf, load mkfsSuper 0 [slash, 97] st = .ok (some (pagetable, sz, elf), st₂)
      ∧ ShowsImage (sampleElf 64) st₂.k.mem.mem pagetable sz elf := by
  obtain ⟨image, hload⟩ := sample_loads
  obtain ⟨st, ip, st₁, _, _, _, _, _, _, hready, hopen, hfile, hload, halloc, hr⟩ :=
    hload 64 (by simp)
  have hsmall : Small [] := ⟨by decide, fun arg harg => absurd harg List.not_mem_nil⟩
  obtain ⟨st', hrun⟩ := exec_of_load mkfsSuper hready hload halloc hr hsmall
  rw [if_pos (by decide)] at hrun
  obtain ⟨pagetable, sz, st₂, hload, hshows⟩ :=
    (exec_loads_image mkfsSuper hready hopen hfile hrun (by decide)).mpr
      ⟨.inr (by decide +kernel), by unfold Proghdr.Near; decide +kernel⟩
  exact ⟨image, st, st₁, st', ip, hopen, hfile, hrun, pagetable, sz, st₂, _, hload, hshows⟩

/-- **A file whose program headers are 4 GB behind its end** is loaded, as if they were in it. -/
theorem exec_truncates_phoff : ∃ (_ : KernelImage) (st st₁ st' : State) (ip : Fin NINODE)
    (data : List UInt8) (r : ℤ), Ready st 0
    ∧ openFile mkfsSuper 0 [slash, 97] st = .ok (some ip, st₁) ∧ HasContents st₁.fs ip data
    ∧ exec mkfsSuper 0 [slash, 97] [] st = .ok (r, st') ∧ r ≠ -1
    ∧ ¬ ∃ pagetable sz st₂,
      load mkfsSuper 0 [slash, 97] st
        = .ok (some (pagetable, sz, Elfhdr.load (data.take ELFHDRSIZE)), st₂)
      ∧ ShowsImage data st₂.k.mem.mem pagetable sz (Elfhdr.load (data.take ELFHDRSIZE)) := by
  obtain ⟨image, hload⟩ := sample_loads
  obtain ⟨st, ip, st₁, _, _, _, _, _, _, hready, hopen, hfile, hload, halloc, hr⟩ :=
    hload (2 ^ 32 + 64) (by simp)
  have hsmall : Small [] := ⟨by decide, fun arg harg => absurd harg List.not_mem_nil⟩
  obtain ⟨st', hrun⟩ := exec_of_load mkfsSuper hready hload halloc hr hsmall
  rw [if_pos (by decide)] at hrun
  refine ⟨image, st, st₁, st', ip, _, _, hready, hopen, hfile, hrun, by decide, ?_⟩
  rintro ⟨pagetable, sz, st₂, -, hshows⟩
  exact absurd (hshows.headersInFile 0 (by decide +kernel)) (by decide +kernel)

end Xv6.Exec
