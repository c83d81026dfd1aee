import Xv6.Exec
import Xv6.SpaceCopy

/-!
# Loading a program

What the first part of `exec` does, for any file: the memory management code does not panic, and
whatever was built is an address space of the size that `exec` knows (`Building`), so that it can be
thrown away. A file without holes is not changed by reading it, and the memory that is built
from it shows the segments, a later one over an earlier one (`overlay`, `Shows`).
-/

open Prog hiding get modify panic result

namespace Xv6

open Pool List

/-! ## The image of a file -/

/-- A segment that is loaded has a byte for an address. -/
def Proghdr.Covers (ph : Proghdr) (u : ℕ) : Prop :=
  ph.type = ELF_PROG_LOAD ∧ ph.vaddr ≤ u ∧ u < ph.vaddr + ph.filesz
  deriving Decidable

/-- A segment that is loaded lies inside the file. -/
def Proghdr.InFile (data : List UInt8) (ph : Proghdr) : Prop :=
  ph.type = ELF_PROG_LOAD → ∀ x, ph.off ≤ x → x < ph.off + ph.filesz → x < data.length

/-- The offset of a segment that is loaded fits in a `uint`. -/
def Proghdr.Near (ph : Proghdr) : Prop :=
  ph.type = ELF_PROG_LOAD → ph.filesz ≠ 0 → ph.off < 2 ^ 32

/-- The `n` program headers from offset `off` on. -/
def headers (data : List UInt8) (off n : ℕ) : List Proghdr :=
  (range n).map fun i => Proghdr.load ((data.drop (off + i * PROGHDRSIZE)).take PROGHDRSIZE)

/-- **The image of a file**: a byte of the last segment that covers the address, or what is
below. -/
def overlay (data : List UInt8) (phs : List Proghdr) (img : ℕ → UInt8) (u : ℕ) : UInt8 :=
  match (phs.filter fun ph => ph.Covers u).getLast? with
  | some ph => data.getD (ph.off + (u - ph.vaddr)) 0
  | none => img u

theorem headers_succ (data : List UInt8) (off n : ℕ) :
    headers data off (n + 1) = Proghdr.load ((data.drop off).take PROGHDRSIZE)
      :: headers data (off + PROGHDRSIZE) n := by
  unfold headers
  rw [range_succ_eq_map, map_cons, map_map, Nat.zero_mul, Nat.add_zero]
  refine congrArg _ (map_congr_left fun i _ => ?_)
  show Proghdr.load ((data.drop (off + (i + 1) * PROGHDRSIZE)).take PROGHDRSIZE) = _
  rw [Nat.add_mul, Nat.one_mul, Nat.add_comm (i * PROGHDRSIZE), Nat.add_assoc]

theorem overlay_cons (data : List UInt8) (ph : Proghdr) (phs : List Proghdr) (img : ℕ → UInt8) :
    overlay data (ph :: phs) img = overlay data phs (overlay data [ph] img) := by
  funext u
  unfold overlay
  by_cases h : ph.Covers u
  · rw [filter_cons_of_pos (by simpa using h), filter_cons_of_pos (by simpa using h),
      getLast?_cons]
    cases (phs.filter fun ph => ph.Covers u).getLast? with
    | none => rfl
    | some ph' => rfl
  · rw [filter_cons_of_neg (by simpa using h), filter_cons_of_neg (by simpa using h)]
    rfl

theorem overlay_single (data : List UInt8) (ph : Proghdr) (img : ℕ → UInt8) (u : ℕ) :
    overlay data [ph] img u
      = if ph.Covers u then data.getD (ph.off + (u - ph.vaddr)) 0 else img u := by
  unfold overlay
  by_cases h : ph.Covers u
  · rw [filter_cons_of_pos (by simpa using h), if_pos h]
    rfl
  · rw [filter_cons_of_neg (by simpa using h), if_neg h]
    rfl

theorem overlay_skip {ph : Proghdr} (h : ph.type ≠ ELF_PROG_LOAD) (data : List UInt8)
    (img : ℕ → UInt8) : overlay data [ph] img = img := by
  funext u
  rw [overlay_single, if_neg fun hc => h hc.1]

theorem Proghdr.load_lt (b : List UInt8) :
    (Proghdr.load b).vaddr < 2 ^ 64 ∧ (Proghdr.load b).memsz < 2 ^ 64 :=
  ⟨Bytes.getLE_lt _ _ _, Bytes.getLE_lt _ _ _⟩

/-- **Memory shows an image**: up to the end of its last page, and above that the image is zero. -/
def Shows (mem : ℕ → Page) (pagetable sz : ℕ) (img : ℕ → UInt8) : Prop :=
  ∀ u, if u / PGSIZE < npages sz then userByte mem pagetable u = some (img u) else img u = 0

namespace Exec

/-! ## Reading -/

/-- The machine stops in the file system. -/
def InFs : Stop → Prop
  | .fs _ => True
  | .iunlock => True
  | .mem _ => False
  | .ustackOverflow => False

/-- The states differ in memory and the file system only, and there in no reference. -/
structure Beside (st st' : State) : Prop where
  rest : st' = { st with k := { st.k with mem := st'.k.mem }, fs := st'.fs }
  refs : st'.fs.refs = st.fs.refs

/-- The file of an inode has no holes, and these contents. -/
structure HasContents (fs : Fs) (ip : Fin NINODE) (data : List UInt8) : Prop where
  holeFree : (fs.itable ip).din.HoleFree fs.disk
  contents : fileContents fs.disk (fs.itable ip).din = data

section

variable {st st' st'' : State} {ip : Fin NINODE} {data : List UInt8}

theorem Beside.refl (st : State) : Beside st st := ⟨rfl, rfl⟩

theorem Beside.trans (h : Beside st st') (h' : Beside st' st'') : Beside st st'' :=
  ⟨by rw [h'.rest, h.rest], h'.refs.trans h.refs⟩

theorem Beside.of_withMem (st : State) (mem : PhysMem) : Beside st (st.withMem mem) := ⟨rfl, rfl⟩

theorem HasContents.length_lt (h : HasContents st.fs ip data) : data.length < 2 ^ 32 := by
  rw [← h.contents]
  unfold fileContents
  rw [length_map, length_range]
  exact UInt32.toNat_lt _

end

section

variable (sb : Superblock) {st st₀ : State} {ip : Fin NINODE} {pt : ℕ}

/-- **Reading a part of a file** to kernel memory. If all of it was read, it is in the file. -/
theorem readKernel_ends (ip : Fin NINODE) (off n : UInt32) :
    Ends (readKernel sb ip off n) st InFs fun r st' =>
      (∃ fs, st' = st.withFs fs ∧ fs.refs = st.fs.refs) ∧ r.1 = r.2.length ∧ r.2.length ≤ n.toNat
      ∧ ∀ data, HasContents st.fs ip data → st' = st ∧ (0 < n.toNat → r.2.length = n.toNat →
        off.toNat + n.toNat ≤ data.length ∧ r.2 = (data.drop off.toNat).take n.toNat) := by
  have hall := (readi_refs sb ip (fun _ _ => true) off n st.fs).and (readi_count sb ip off n)
  refine ends_onFs ?_
  cases hrun : readi sb ip (fun _ _ => true) off n st.fs with
  | error e =>
    unfold Ends
    rw [hrun]
    trivial
  | ok res =>
    obtain ⟨r, fs⟩ := res
    obtain ⟨hrefs, hcount, hle⟩ := hall.of_ok hrun
    refine ends_of_ok hrun ⟨⟨fs, rfl, hrefs⟩, hcount, hle, fun data hdata => ?_⟩
    obtain ⟨r', hr', hbytes⟩ := readi_pure sb hdata.holeFree (fun _ _ => true) off n
    obtain ⟨rfl, rfl⟩ := Prod.mk.inj (Except.ok.inj (hrun.symm.trans hr'))
    have hpart := (hbytes fun _ _ => rfl).2
    rw [hdata.contents] at hpart
    refine ⟨rfl, fun hpos hlen => ?_⟩
    split at hpart
    · rw [hpart] at hlen
      exact absurd hlen (Nat.ne_of_lt hpos)
    · rw [hpart, length_take, length_drop] at hlen
      exact ⟨by omega, hpart⟩

/-! ## A segment -/

omit sb in
theorem take_drop_add (data : List UInt8) (a m k : ℕ) :
    (data.drop a).take (m + k) = (data.drop a).take m ++ (data.drop (a + m)).take k := by
  rw [take_add, drop_drop]

/-- **The loop of `loadseg`** stores bytes one page after the other. If it gets to the end, they are
the bytes of the file. -/
theorem loadsegLoop_ends {va sz : ℕ} {offset : UInt32} (hva : PGSIZE ∣ va) (hsz : sz < 2 ^ 32)
    {n i : ℕ} (hi : PGSIZE ∣ i) (hn : n = pageRounds i sz) (hpages : UserPages st.k.mem.mem pt)
    (hrange : UserRange st.k.mem.mem pt (va + i) (sz - i)) :
    Ends (loadsegLoop sb pt va ip offset sz n i) st InFs fun r st' =>
      Beside st st' ∧ (r = 0 ∨ r = -1)
      ∧ ∃ bytes, bytes.length ≤ sz - i ∧ UserStored st.k.mem st'.k.mem pt (va + i) bytes
      ∧ ∀ data, HasContents st.fs ip data →
        (i < sz → i = 0 ∨ offset.toNat + i ≤ data.length) → st'.fs = st.fs
        ∧ (r = 0 → bytes = (data.drop (offset.toNat + i)).take (sz - i)
          ∧ (i < sz → offset.toNat + sz ≤ data.length)) := by
  induction n generalizing i st with
  | zero =>
    have hge : sz ≤ i := by
      unfold pageRounds PGSIZE at hn
      omega
    refine ends_pure ⟨.refl st, .inl rfl, [], Nat.zero_le _, .nil _ _ _, fun data _ _ => ?_⟩
    refine ⟨rfl, fun _ => ⟨?_, fun hlt => absurd hlt (Nat.not_lt.mpr hge)⟩⟩
    rw [Nat.sub_eq_zero_of_le hge, take_zero]
  | succ n ih =>
    have hlt : i < sz := by
      unfold pageRounds PGSIZE at hn
      omega
    have hacc : UserAccessible st.k.mem.mem pt (va + i) := hrange 0 (by omega)
    have hwrap : u64 (va + i) = va + i := by
      have hmax := hacc.1
      unfold u64 MAXVA at *
      omega
    have haligned : (va + i) % PGSIZE = 0 := Nat.mod_eq_zero_of_dvd (Nat.dvd_add hva hi)
    unfold loadsegLoop
    refine ends_bind (ends_onMem (ends_of_ok (walkaddr_eq _ _ _) ?_))
    rw [hwrap, if_neg (hpages.ne_zero _ hacc)]
    show Ends _ st _ _
    set m := min (sz - i) PGSIZE with hm
    have hmlt : m ≤ 4096 := min_le_right _ _
    have hm32 : (UInt32.ofNat m).toNat = m := by
      rw [UInt32.toNat_ofNat']
      omega
    have hi32 : (UInt32.ofNat i).toNat = i := by
      rw [UInt32.toNat_ofNat']
      omega
    refine ends_bind ((readKernel_ends sb ip _ _).mono ?_)
    rintro r - ⟨⟨fs₁, rfl, hrefs⟩, hcount, hle, hread⟩
    rw [hm32] at hle hread
    refine ends_bind (ends_onMem (ends_modify ?_))
    set s₁ := st.k.mem.store (userPage st.k.mem.mem pt (va + i))
      ((st.k.mem.mem (userPage st.k.mem.mem pt (va + i))).blit 0 r.2) with hs₁
    have hst : UserStored st.k.mem s₁ pt (va + i) r.2 :=
      .of_page hpages hacc (by rw [haligned, Nat.zero_add]; exact hle.trans hmlt)
        (by rw [haligned])
    have hbeside : Beside st ((st.withFs fs₁).withMem s₁) := ⟨rfl, hrefs⟩
    have hfs : ∀ data, HasContents st.fs ip data → fs₁ = st.fs := fun data hdata =>
      congrArg State.fs (hread data hdata).1
    show Ends _ ((st.withFs fs₁).withMem s₁) _ _
    by_cases hshort : r.1 ≠ m
    · rw [if_pos hshort]
      refine ends_pure ⟨hbeside, .inr rfl, r.2, hle.trans (min_le_left _ _), hst, ?_⟩
      exact fun data hdata _ => ⟨hfs data hdata, fun h => absurd h (by decide)⟩
    · rw [if_neg hshort]
      have hlen : r.2.length = m := by
        have := not_not.mp hshort
        omega
      -- the next page, if there is one
      have hpages₁ : UserPages ((st.withFs fs₁).withMem s₁).k.mem.mem pt :=
        hst.userPages hpages
      have hrange₁ : UserRange ((st.withFs fs₁).withMem s₁).k.mem.mem pt (va + (i + PGSIZE))
          (sz - (i + PGSIZE)) := by
        intro j hj
        have hacc' := hrange (PGSIZE + j) (by omega)
        rw [← Nat.add_assoc, Nat.add_assoc va] at hacc'
        exact (userAccessible_congr (hst.tables hpages)).mpr hacc'
      refine (ih (Nat.dvd_add hi (Nat.dvd_refl _)) (by unfold pageRounds PGSIZE at *; omega)
        hpages₁ hrange₁).mono ?_
      · rintro r₂ st₂ ⟨hbeside₂, hr₂, bytes, hbytes, hst₂, hdata₂⟩
        have hall : UserStored st.k.mem st₂.k.mem pt (va + i) (r.2 ++ bytes) := by
          refine hst.append hpages ?_
          rcases Nat.lt_or_ge (sz - i) PGSIZE with hlast | hfull
          · have hnil : bytes = [] := eq_nil_of_length_eq_zero (by omega)
            rw [hnil] at hst₂ ⊢
            exact hst₂.of_nil
          · rw [hlen, hm, min_eq_right hfull, Nat.add_assoc]
            exact hst₂
        refine ⟨hbeside.trans hbeside₂, hr₂, r.2 ++ bytes, ?_, hall, fun data hdata hoff => ?_⟩
        · rw [length_append]
          omega
        have hsum : (offset + UInt32.ofNat i).toNat = offset.toNat + i := by
          have hdatalt := hdata.length_lt
          have hofflt := offset.toNat_lt
          rw [UInt32.toNat_add, hi32]
          have := hoff hlt
          omega
        obtain ⟨-, hwhole⟩ := hread data hdata
        obtain ⟨hin, hr⟩ := hwhole (by unfold PGSIZE at hm; omega) hlen
        rw [hsum] at hin hr
        have hfs₁ : ((st.withFs fs₁).withMem s₁).fs = st.fs := hfs data hdata
        rw [hfs₁] at hdata₂
        obtain ⟨hfs₂, hend⟩ := hdata₂ data hdata fun h => .inr (by unfold PGSIZE at *; omega)
        refine ⟨hfs₂, fun hr₀ => ?_⟩
        obtain ⟨hbytes₂, hin₂⟩ := hend hr₀
        refine ⟨?_, fun _ => ?_⟩
        · rcases Nat.lt_or_ge (sz - i) PGSIZE with hlast | hfull
          · rw [eq_nil_of_length_eq_zero (l := bytes) (by omega), append_nil, hr, hm,
              min_eq_left hlast.le]
          · rw [hr, hbytes₂, hm, min_eq_right hfull, ← Nat.add_assoc, ← take_drop_add,
              show PGSIZE + (sz - (i + PGSIZE)) = sz - i by omega]
        · rcases Nat.lt_or_ge (i + PGSIZE) sz with hmore | hlast
          · exact hin₂ hmore
          · omega

/-- **A space was built**, and its pages are what was taken. -/
structure Built [KernelImage] (st₀ st : State) (pagetable sz trapframe : ℕ) : Prop where
  beside : Beside st₀ st
  exchange : Exchange st₀.k.mem st.k.mem 0 (spacePages st.k.mem.mem pagetable sz)
  space : AddressSpace st.k.mem.mem pagetable sz trapframe

/-- **A space is being built**: user code can use all of its memory. -/
structure Building [KernelImage] (st₀ st : State) (pagetable sz trapframe : ℕ) : Prop
    extends Built st₀ st pagetable sz trapframe where
  user : ∀ v < npages sz, vmap st.k.mem.mem pagetable v &&& PTE_U ≠ 0

section Building

variable [KernelImage] {st₁ : State} {sz sz' trapframe : ℕ} {img : ℕ → UInt8}

omit sb in
theorem Building.accessible (h : Building st₀ st pt sz trapframe) {u : ℕ}
    (hu : u / PGSIZE < npages sz) : UserAccessible st.k.mem.mem pt u := by
  have hlt : u < MAXVA := by
    have hsize := h.space.size
    have hmul := (Nat.div_lt_iff_lt_mul (by decide)).mp hu
    rw [← PGROUNDUP_eq] at hmul
    have hround : PGROUNDUP sz ≤ MAXVA := by
      unfold PGROUNDUP u64
      have htrap : TRAPFRAME + 2 * PGSIZE = MAXVA := by decide
      have hmax : MAXVA < 2 ^ 64 := by decide
      unfold PGSIZE at *
      omega
    omega
  exact userAccessible_iff.mpr ⟨hlt, (h.space.user.at_zero hu).1, h.user _ hu⟩

omit sb in
theorem Built.holds (h : Built st₀ st pt sz trapframe)
    (hold : Holds physPages st₀.k.mem 0) :
    Holds physPages st.k.mem (spacePages st.k.mem.mem pt sz) :=
  h.exchange.holds hold

omit sb in
theorem Built.next (h : Built st₀ st pt sz trapframe) (hbeside : Beside st st₁)
    (hchange : SpaceChange st.k.mem st₁.k.mem pt sz sz' trapframe) :
    Built st₀ st₁ pt sz' trapframe :=
  ⟨h.beside.trans hbeside, h.exchange.trans hchange.exchange, hchange.space⟩

omit sb in
theorem Building.stored (h : Building st₀ st pt sz trapframe)
    (hold : Holds physPages st₀.k.mem 0) {va : ℕ} {bytes : List UInt8} (hbeside : Beside st st₁)
    (hst : UserStored st.k.mem st₁.k.mem pt va bytes) :
    Building st₀ st₁ pt sz trapframe := by
  have hpages := h.space.userPages (h.holds hold)
  refine ⟨h.next hbeside (.of_storedIn h.space (h.holds hold) (.of_stored hst le_rfl le_rfl)),
    fun v hv => ?_⟩
  rw [vmap_congr (hst.tables hpages)]
  exact h.user v hv

omit sb in
theorem Building.resized (h : Building st₀ st pt sz trapframe)
    {mem : PhysMem} (hres : Resized st.k.mem mem pt sz sz' trapframe) :
    Building st₀ (st.withMem mem) pt sz' trapframe := by
  refine ⟨h.next (.of_withMem st mem) hres.change, fun v hv => ?_⟩
  show vmap mem.mem pt v &&& PTE_U ≠ 0
  rcases Nat.lt_or_ge v (npages sz) with hlt | hge
  · rw [(hres.kept v hlt hv).1]
    exact h.user v hlt
  · rw [and_PTE_U, (hres.new v hge hv).1]
    decide

omit sb in
/-- What is new shows zeros. -/
theorem Building.shows_resized (h : Building st₀ st pt sz trapframe)
    {mem : PhysMem} (hres : Resized st.k.mem mem pt sz sz' trapframe)
    (hle : npages sz ≤ npages sz') (hshows : Shows st.k.mem.mem pt sz img) :
    Shows mem.mem pt sz' img := by
  have h' := h.resized hres
  intro u
  have hu := hshows u
  split
  · rename_i hlt
    have hacc : UserAccessible mem.mem pt u := h'.accessible hlt
    rw [userByte_of_accessible hacc, userPage_of_accessible hacc]
    rcases Nat.lt_or_ge (u / PGSIZE) (npages sz) with hold | hnew
    · have hacc₀ := h.accessible hold
      rw [if_pos hold, userByte_of_accessible hacc₀, userPage_of_accessible hacc₀] at hu
      obtain ⟨hmap, hpage⟩ := hres.kept _ hold hlt
      rw [hmap, hpage, hu]
    · rw [if_neg (Nat.not_lt.mpr hnew)] at hu
      rw [(hres.new _ hnew hlt).2, hu, Bytes.byteAt_fill_zero]
  · rename_i hge
    rwa [if_neg (fun hlt => hge (lt_of_lt_of_le hlt hle))] at hu

omit sb in
/-- **Growing what was built**, as `exec` does it. -/
theorem Building.uvmalloc_ends (h : Building st₀ st pt sz trapframe)
    (hold : Holds physPages st₀.k.mem 0) (newsz : ℕ) :
    Ends (onMem (uvmalloc pt sz newsz)) st (fun _ => False) fun sz₁ st₁ =>
      st₁.fs = st.fs
      ∧ (sz₁ = 0 → Building st₀ st₁ pt sz trapframe)
      ∧ (sz₁ ≠ 0 → sz₁ = max sz newsz ∧ Building st₀ st₁ pt sz₁ trapframe
        ∧ ∀ img, Shows st.k.mem.mem pt sz img →
          Shows st₁.k.mem.mem pt sz₁ img) := by
  refine ends_onMem ((h.space.uvmalloc_ends (h.holds hold)).mono ?_)
  rintro sz₁ mem (⟨hlt, rfl, rfl⟩ | ⟨hle, ⟨rfl, hres⟩ | ⟨rfl, hres⟩⟩)
  · exact ⟨rfl, fun _ => h, fun _ => ⟨(max_eq_left hlt.le).symm, h, fun _ hshows => hshows⟩⟩
  · exact ⟨rfl, fun _ => h.resized hres, fun hne => absurd rfl hne⟩
  · refine ⟨rfl, fun hzero => ?_, fun _ =>
      ⟨(max_eq_right hle).symm, h.resized hres, fun img hshows => ?_⟩⟩
    · obtain rfl : sz = sz₁ := by omega
      exact h.resized hres
    · exact h.shows_resized hres (npages_mono hle hres.space.size_le) hshows

end Building

/-! ## The headers -/

section Load

variable [KernelImage] {sz trapframe : ℕ}

/-- **What a loop over headers has loaded**, if it got to the end: the headers are in the file, and
memory shows the segments. -/
structure Loaded (data : List UInt8) (pagetable off n sz sz' : ℕ) (mem mem' : ℕ → Page) : Prop where
  inFile : ∀ i < n, off + (i + 1) * PROGHDRSIZE ≤ data.length
  shows : (∀ ph ∈ headers data off n, ph.Near) → (∀ ph ∈ headers data off n, ph.InFile data)
    ∧ ∀ img, Shows mem pagetable sz img →
      Shows mem' pagetable sz' (overlay data (headers data off n) img)

omit sb [KernelImage] in
theorem Loaded.nil (data : List UInt8) (pt off sz : ℕ) (mem : ℕ → Page) :
    Loaded data pt off 0 sz sz mem mem :=
  ⟨fun i hi => absurd hi (Nat.not_lt_zero i),
    fun _ => ⟨fun _ hph => absurd hph not_mem_nil, fun _ hshows => hshows⟩⟩

omit sb [KernelImage] in
/-- One more header. -/
theorem Loaded.cons {data : List UInt8} {off n sz₁ sz' : ℕ} {mem mem₁ mem' : ℕ → Page}
    {ph : Proghdr}
    (hph : ph = Proghdr.load ((data.drop off).take PROGHDRSIZE))
    (hin : off + PROGHDRSIZE ≤ data.length)
    (hseg : ph.Near → ph.InFile data ∧ ∀ img, Shows mem pt sz img →
      Shows mem₁ pt sz₁ (overlay data [ph] img))
    (h : Loaded data pt (off + PROGHDRSIZE) n sz₁ sz' mem₁ mem') :
    Loaded data pt off (n + 1) sz sz' mem mem' := by
  refine ⟨fun i hi => ?_, fun hnear => ?_⟩
  · cases i with
    | zero => rwa [Nat.zero_add, Nat.one_mul]
    | succ i =>
      have hrest := h.inFile i (by omega)
      rw [Nat.add_mul (i + 1) 1]
      omega
  · rw [headers_succ, ← hph] at hnear ⊢
    obtain ⟨hin₁, hshows₁⟩ := hseg (hnear ph mem_cons_self)
    obtain ⟨hin₂, hshows₂⟩ := h.shows fun ph' hph' => hnear ph' (mem_cons_of_mem _ hph')
    refine ⟨fun ph' hph' => ?_, fun img hshows => ?_⟩
    · rcases mem_cons.mp hph' with rfl | hrest
      · exact hin₁
      · exact hin₂ ph' hrest
    · rw [overlay_cons]
      exact hshows₂ _ (hshows₁ img hshows)

/-- **Loading a segment** in the memory that was built. -/
theorem Building.loadseg_ends (h : Building st₀ st pt sz trapframe)
    (hold : Holds physPages st₀.k.mem 0) {ph : Proghdr} (htype : ph.type = ELF_PROG_LOAD)
    (hva : ph.vaddr % PGSIZE = 0) (hsz : ph.vaddr + ph.filesz ≤ sz) :
    Ends (loadseg sb pt ph.vaddr ip (UInt32.ofNat ph.off) (UInt32.ofNat ph.filesz)) st
      InFs fun r st' => Building st₀ st' pt sz trapframe
        ∧ ∀ data, HasContents st.fs ip data → st'.fs = st.fs ∧ (¬ r < 0 → ph.Near →
          ph.InFile data ∧ ∀ img, Shows st.k.mem.mem pt sz img →
            Shows st'.k.mem.mem pt sz (overlay data [ph] img)) := by
  have hmem := le_npages_mul h.space.size_le
  have hpages := npages_le (h.holds hold)
  have hsize : (UInt32.ofNat ph.filesz).toNat = ph.filesz := by
    rw [UInt32.toNat_ofNat']
    unfold PGSIZE at hmem
    omega
  have huser := h.space.userPages (h.holds hold)
  unfold loadseg
  rw [hsize]
  refine (loadsegLoop_ends sb (Nat.dvd_of_mod_eq_zero hva) (by unfold PGSIZE at hmem; omega)
    (dvd_zero _) rfl huser fun j hj => h.accessible ?_).mono ?_
  · exact lt_npages (by omega) h.space.size_le
  rintro r st' ⟨hbeside, hr, bytes, hlen, hst, hfile⟩
  rw [Nat.add_zero] at hst
  refine ⟨h.stored hold hbeside hst, fun data hdata => ?_⟩
  obtain ⟨hfs, hdone⟩ := hfile data hdata fun _ => .inl rfl
  refine ⟨hfs, fun hr₀ hnear => ?_⟩
  obtain ⟨hbytes, hin⟩ := hdone (hr.resolve_right fun h' => hr₀ (by rw [h']; decide))
  rw [Nat.add_zero, Nat.sub_zero] at hbytes
  -- an empty segment needs no offset
  have hoff : ph.filesz ≠ 0 → (UInt32.ofNat ph.off).toNat = ph.off := fun hne => by
    rw [UInt32.toNat_ofNat', Nat.mod_eq_of_lt (hnear htype hne)]
  refine ⟨fun _ x h₁ h₂ => ?_, fun img hshows u => ?_⟩
  · have hne : ph.filesz ≠ 0 := by omega
    have hend := hin (by omega)
    rw [hoff hne] at hend
    omega
  · have hu := hshows u
    have hbyte := hst.userByte u
    by_cases hcov : ph.Covers u
    · have hne : ph.filesz ≠ 0 := by
        have := hcov.2
        omega
      have hend := hin (by omega)
      rw [hoff hne] at hend hbytes
      have hlen' : bytes.length = ph.filesz := by
        rw [hbytes, length_take, length_drop]
        omega
      have hacc : u / PGSIZE < npages sz := lt_npages (by have := hcov.2.2; omega) h.space.size_le
      rw [if_pos hacc, hbyte, if_pos (by rw [hlen']; exact hcov.2), overlay_single, if_pos hcov,
        hbytes, getElem?_take_of_lt (by have := hcov.2; omega), getElem?_drop,
        getD_eq_getElem?_getD]
      rw [getElem?_eq_getElem (by have := hcov.2; omega)]
      rfl
    · rw [overlay_single, if_neg hcov]
      have hnot : ¬ (ph.vaddr ≤ u ∧ u < ph.vaddr + bytes.length) := fun hmem =>
        hcov ⟨htype, hmem.1, by omega⟩
      rw [hbyte, if_neg hnot]
      exact hu

omit [KernelImage] in
theorem u64_end {ph : Proghdr} {b : List UInt8} (hph : ph = Proghdr.load b)
    (hwrap : ¬ u64 (ph.vaddr + ph.memsz) < ph.vaddr) :
    u64 (ph.vaddr + ph.memsz) = ph.vaddr + ph.memsz := by
  have hlt := Proghdr.load_lt b
  rw [← hph] at hlt
  unfold u64 at *
  omega

/-- **The loop over the headers** keeps what it builds in shape, for any file. -/
theorem loadLoop_ends (hold : Holds physPages st₀.k.mem 0) (n : ℕ) (off : UInt32)
    (h : Building st₀ st pt sz trapframe) :
    Ends (loadLoop sb pt ip n off sz) st InFs fun res st' =>
      Building st₀ st' pt res.2 trapframe
      ∧ ∀ data, HasContents st.fs ip data → st'.fs = st.fs ∧ (res.1 = true →
        Loaded data pt off.toNat n sz res.2 st.k.mem.mem st'.k.mem.mem) := by
  induction n generalizing off sz st with
  | zero =>
    exact ends_pure ⟨h, fun data _ => ⟨rfl, fun _ => .nil data pt _ sz _⟩⟩
  | succ n ih =>
    unfold loadLoop
    refine ends_bind ((readKernel_ends sb ip _ _).mono ?_)
    rintro r - ⟨⟨fs₁, rfl, hrefs⟩, hcount, -, hread⟩
    have h₁ : Building st₀ (st.withFs fs₁) pt sz trapframe :=
      ⟨⟨h.beside.trans ⟨rfl, hrefs⟩, h.exchange, h.space⟩, h.user⟩
    have hsize : (UInt32.ofNat PROGHDRSIZE).toNat = PROGHDRSIZE := by decide
    rw [hsize] at hread
    -- a loop that gives up has loaded nothing
    have hstop : ∀ {st₁ : State} {sz₁ : ℕ}, Building st₀ st₁ pt sz₁ trapframe →
        (∀ data, HasContents st.fs ip data → st₁.fs = st.fs) →
        Ends (pure (false, sz₁) : ExecProg (Bool × ℕ)) st₁ InFs fun res st' =>
          Building st₀ st' pt res.2 trapframe
          ∧ ∀ data, HasContents st.fs ip data → st'.fs = st.fs ∧ (res.1 = true →
            Loaded data pt off.toNat (n + 1) sz res.2 st.k.mem.mem st'.k.mem.mem) :=
      fun h' hfs => ends_pure
        ⟨h', fun data hdata => ⟨hfs data hdata, fun hfalse => absurd hfalse Bool.false_ne_true⟩⟩
    have hfs₁ : ∀ data, HasContents st.fs ip data → fs₁ = st.fs := fun data hdata =>
      congrArg State.fs (hread data hdata).1
    by_cases hshort : r.1 ≠ PROGHDRSIZE
    · rw [if_pos hshort]
      exact hstop h₁ hfs₁
    rw [if_neg hshort]
    have hlen : r.2.length = PROGHDRSIZE := by
      have heq := not_not.mp hshort
      rw [hcount] at heq
      exact_mod_cast heq
    obtain ⟨ph, hph⟩ : ∃ ph, ph = Proghdr.load r.2 := ⟨_, rfl⟩
    show Ends (if (Proghdr.load r.2).type ≠ ELF_PROG_LOAD then _ else _) _ _ _
    rw [← hph]
    -- where the next header is
    have hheader : ∀ data, HasContents st.fs ip data →
        off.toNat + PROGHDRSIZE ≤ data.length
        ∧ ph = Proghdr.load ((data.drop off.toNat).take PROGHDRSIZE)
        ∧ (off + UInt32.ofNat PROGHDRSIZE).toNat = off.toNat + PROGHDRSIZE := by
      intro data hdata
      obtain ⟨hin, hbytes⟩ := (hread data hdata).2 (by decide) hlen
      refine ⟨hin, hbytes ▸ hph, ?_⟩
      have hlt := hdata.length_lt
      rw [UInt32.toNat_add, hsize]
      omega
    -- the headers behind this one
    have hnext : ∀ {st₁ : State} {sz₁ : ℕ}, Building st₀ st₁ pt sz₁ trapframe →
        (∀ data, HasContents st.fs ip data → st₁.fs = st.fs ∧ (ph.Near → ph.InFile data
          ∧ ∀ img, Shows st.k.mem.mem pt sz img →
            Shows st₁.k.mem.mem pt sz₁ (overlay data [ph] img))) →
        Ends (loadLoop sb pt ip n (off + UInt32.ofNat PROGHDRSIZE) sz₁) st₁ InFs
          fun res st' => Building st₀ st' pt res.2 trapframe
          ∧ ∀ data, HasContents st.fs ip data → st'.fs = st.fs ∧ (res.1 = true →
            Loaded data pt off.toNat (n + 1) sz res.2 st.k.mem.mem st'.k.mem.mem) := by
      intro st₁ sz₁ h' hseg
      refine (ih _ h').mono ?_
      rintro res st' ⟨hb, hrest⟩
      refine ⟨hb, fun data hdata => ?_⟩
      obtain ⟨hin, hbytes, hoff⟩ := hheader data hdata
      obtain ⟨hfs, hseg⟩ := hseg data hdata
      obtain ⟨hfs', hloaded⟩ := hrest data (by rwa [hfs])
      rw [hoff] at hloaded
      exact ⟨hfs'.trans hfs, fun hok => .cons hbytes hin hseg (hloaded hok)⟩
    by_cases htype : ph.type ≠ ELF_PROG_LOAD
    · rw [if_pos htype]
      refine hnext h₁ fun data hdata => ⟨hfs₁ data hdata, fun _ => ⟨fun h => absurd h htype, ?_⟩⟩
      intro img hshows
      rw [overlay_skip htype]
      exact hshows
    rw [if_neg htype]
    by_cases hmemsz : ph.memsz < ph.filesz
    · rw [if_pos hmemsz]
      exact hstop h₁ hfs₁
    rw [if_neg hmemsz]
    by_cases hwrap : u64 (ph.vaddr + ph.memsz) < ph.vaddr
    · rw [if_pos hwrap]
      exact hstop h₁ hfs₁
    rw [if_neg hwrap]
    refine ends_bind (((h₁.uvmalloc_ends hold _).panic_mono fun _ => False.elim).mono ?_)
    rintro sz₁ st₁ ⟨hfs, hfail, hgrown⟩
    have hfs₂ : ∀ data, HasContents st.fs ip data → st₁.fs = st.fs := fun data hdata =>
      hfs.trans (hfs₁ data hdata)
    by_cases hzero : sz₁ = 0
    · rw [if_pos hzero]
      exact hstop (hfail hzero) hfs₂
    rw [if_neg hzero]
    obtain ⟨hmax, h₂, hshows₂⟩ := hgrown hzero
    by_cases haligned : ph.vaddr % PGSIZE ≠ 0
    · rw [if_pos haligned]
      exact hstop h₂ hfs₂
    rw [if_neg haligned]
    rw [u64_end hph hwrap] at hmax
    have hle : ph.vaddr + ph.memsz ≤ sz₁ := hmax ▸ le_max_right _ _
    refine ends_bind ((h₂.loadseg_ends sb hold (not_not.mp htype) (not_not.mp haligned)
      (by omega)).mono ?_)
    rintro r₂ st₂ ⟨h₃, hseg⟩
    have hseg' : ∀ data, HasContents st.fs ip data → st₂.fs = st.fs ∧ (¬ r₂ < 0 → ph.Near →
        ph.InFile data ∧ ∀ img, Shows st₁.k.mem.mem pt sz₁ img →
          Shows st₂.k.mem.mem pt sz₁ (overlay data [ph] img)) := by
      intro data hdata
      obtain ⟨hfs₃, hdone⟩ := hseg data (by rwa [hfs₂ data hdata])
      exact ⟨hfs₃.trans (hfs₂ data hdata), hdone⟩
    by_cases hneg : r₂ < 0
    · rw [if_pos hneg]
      exact hstop h₃ fun data hdata => (hseg' data hdata).1
    rw [if_neg hneg]
    refine hnext h₃ fun data hdata => ⟨(hseg' data hdata).1, fun hnear => ?_⟩
    obtain ⟨hin, hshows₃⟩ := (hseg' data hdata).2 hneg hnear
    exact ⟨hin, fun img hshows => hshows₃ img (hshows₂ img hshows)⟩

end Load

end

end Exec

end Xv6
