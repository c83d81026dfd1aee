import Xv6.FreeList

/-!
# The invariant of the heap

The blocks of the free list and the live blocks tile the memory obtained from `sbrk` (`HeapInv`).
`free` and `malloc` keep this, and their loops end, as long as `sbrk` answers with fresh
memory and there is less of it than a `uint` can count in units of a header.
-/

open Prog hiding get modify panic result

namespace Xv6.Umalloc

open CircularList Spans List

variable {E K : Type} {base n : ℕ} {h h' : Heap K} {b c : Block} {L L₁ L₂ live : List Block}

/-! ## The search of `malloc` -/

section

/-- Where the search of `malloc` goes when no block fits. -/
def mallocMore (sbrk : ℕ → Prog E K ℕ) (fuel n k : ℕ) : Prog (Stop E) (Heap K) ℕ := do
  let p ← morecore sbrk fuel n
  if p = 0 then pure 0
  else do
    let h ← Prog.get
    mallocLoop sbrk fuel n k p (h.next p)

/-- The search takes the first node that fits, or gets to `freep`. -/
theorem mallocLoop_links (sbrk : ℕ → Prog E K ℕ) (fuel n : ℕ) {a k : ℕ} {l : List ℕ}
    (hl : Links h.next (a :: l ++ [h.freep]))
    (hfreep : h.freep ∉ l) (hk : l.length < k) :
    (∃ q ∈ a :: l, n ≤ h.size (h.next q)
      ∧ mallocLoop sbrk fuel n k a (h.next a) h = take n q (h.next q) h)
    ∨ (∀ q ∈ l ++ [h.freep], h.size q < n)
      ∧ mallocLoop sbrk fuel n k a (h.next a) h
        = mallocMore sbrk fuel n (k - (l.length + 1)) h := by
  induction l generalizing a k with
  | nil =>
    obtain ⟨k, rfl⟩ : ∃ k', k = k' + 1 := ⟨k - 1, by simp at hk; omega⟩
    have ha : h.next a = h.freep := hl.1
    by_cases hfit : n ≤ h.size (h.next a)
    · refine .inl ⟨a, mem_cons_self, hfit, ?_⟩
      rw [mallocLoop, get_bind, if_pos hfit]
    · refine .inr ⟨fun q hq => ?_, ?_⟩
      · rw [mem_singleton.mp hq, ← ha]
        exact not_le.mp hfit
      · rw [mallocLoop, get_bind, if_neg hfit, if_pos ha]
        rfl
  | cons c l ih =>
    obtain ⟨k, rfl⟩ : ∃ k', k = k' + 1 := ⟨k - 1, by simp at hk; omega⟩
    have ha : h.next a = c := hl.1
    by_cases hfit : n ≤ h.size (h.next a)
    · refine .inl ⟨a, mem_cons_self, hfit, ?_⟩
      rw [mallocLoop, get_bind, if_pos hfit]
    · have hne : h.next a ≠ h.freep := fun heq =>
        hfreep (by rw [← heq, ha]; exact mem_cons_self)
      have hstep : mallocLoop sbrk fuel n (k + 1) a (h.next a) h
          = mallocLoop sbrk fuel n k c (h.next c) h := by
        rw [mallocLoop, get_bind, if_neg hfit, if_neg hne, ha]
      rw [hstep]
      rcases ih hl.2 (fun hmem => hfreep (mem_cons_of_mem _ hmem))
        (Nat.lt_of_succ_lt_succ hk) with ⟨q, hq, hfit', hrun⟩ | ⟨hnone, hrun⟩
      · exact .inl ⟨q, mem_cons_of_mem _ hq, hfit', hrun⟩
      · refine .inr ⟨fun q hq => ?_, ?_⟩
        · rcases mem_cons.mp hq with rfl | hq
          · rw [ha] at hfit
            exact not_le.mp hfit
          · exact hnone q hq
        · rw [hrun, length_cons, Nat.add_sub_add_right]

/-- **The search of `malloc`** takes a block that fits, if there is one. -/
theorem FreeList.mallocLoop_finds (sbrk : ℕ → Prog E K ℕ) (fuel : ℕ) {k : ℕ}
    (hf : FreeList base h L) (hn : 0 < n) (hk : L.length < k) :
    (∃ L₁ c L₂, L = L₁ ++ c :: L₂ ∧ n ≤ c.size
      ∧ mallocLoop sbrk fuel n k h.freep (h.next h.freep) h = take n (lastNode base L₁) c.addr h)
    ∨ (∀ c ∈ L, c.size < n) ∧ mallocLoop sbrk fuel n k h.freep (h.next h.freep) h
      = mallocMore sbrk fuel n (k - (L.length + 1)) h := by
  obtain ⟨l, hl, hperm⟩ := exists_rotate hf.links hf.freep
  have hlen : l.length = L.length := by
    have := hperm.length_eq
    simpa [addrs] using this
  have hnodup : (h.freep :: l).Nodup := hperm.nodup_iff.mpr (hf.sorted.imp fun hab => hab.ne)
  rcases mallocLoop_links sbrk fuel n hl (nodup_cons.mp hnodup).1 (hlen.trans_lt hk) with
    ⟨q, hq, hfit, hrun⟩ | ⟨hnone, hrun⟩
  · obtain ⟨L₁, L₂, rfl, rfl⟩ := exists_split (hperm.mem_iff.mp hq)
    rw [hf.next_lastNode] at hfit hrun
    cases L₂ with
    | nil =>
      rw [headNode_nil, hf.zero] at hfit
      omega
    | cons c L₂ =>
      rw [headNode_cons, hf.sizes c (by simp)] at hfit
      exact .inl ⟨L₁, c, L₂, rfl, hfit, hrun⟩
  · refine .inr ⟨fun c hc => ?_, by rw [hrun, hlen]⟩
    have hmem : c.addr ∈ h.freep :: l :=
      hperm.mem_iff.mpr (mem_cons_of_mem _ (mem_addrs.mpr ⟨c, hc, rfl⟩))
    rw [← hf.sizes c hc]
    refine hnone _ (mem_append.mpr ?_)
    rcases mem_cons.mp hmem with hmem | hmem
    · exact .inr (mem_singleton.mpr hmem)
    · exact .inl hmem

end

/-! ## Taking a block -/

theorem FreeList.lastNode_lt (hf : FreeList base h (L₁ ++ L₂)) (hc : c ∈ L₂) :
    lastNode base L₁ < c.addr := by
  obtain ⟨hsep₁, -, hlt⟩ := separated_append.mp hf.separated
  exact (lastNode_lt_iff hsep₁ (hf.above c (mem_append_right _ hc))).mpr fun d hd =>
    d.addr_lt_stop.trans (hlt d hd c hc)

/-- A block that fits is taken out of the list. -/
theorem FreeList.unlinked (hf : FreeList base h (L₁ ++ c :: L₂)) :
    FreeList base ((h.setPtr (lastNode base L₁) (h.next c.addr)).setFreep (lastNode base L₁))
      (L₁ ++ L₂) := by
  have hsub : ∀ d ∈ L₁ ++ L₂, d ∈ L₁ ++ c :: L₂ := fun d hd => by
    rcases mem_append.mp hd with hd | hd <;> simp [hd]
  obtain ⟨hl₁, -, hl₂⟩ := links_split.mp hf.links
  obtain ⟨hc, hl₂⟩ := links_cons.mp hl₂
  obtain ⟨hsep₁, hsep₂, hlt⟩ := separated_append.mp hf.separated
  refine ⟨links_split.mpr ⟨?_, by simp [hc], ?_⟩, fun d hd => ?_, by simpa using hf.zero,
    fun d hd => hf.above d (hsub d hd), ?_, ?_⟩
  · have hsorted := hf.sorted
    rw [addrs_append, ← cons_append] at hsorted
    exact links_first hl₁ (pairwise_append.mp hsorted).1 fun a _ hlt => by simp [hlt.ne]
  · refine hl₂.congr fun a ha => ?_
    obtain ⟨d, hd, rfl⟩ := mem_addrs.mp ha
    simp [(hf.lastNode_lt (mem_cons_of_mem _ hd)).ne']
  · simpa using hf.sizes d (hsub d hd)
  · exact separated_append.mpr ⟨hsep₁, (separated_cons.mp hsep₂).2,
      fun d hd e he => hlt d hd e (mem_cons_of_mem _ he)⟩
  · rw [Heap.freep_setFreep, addrs_append, ← cons_append]
    exact mem_append_left _ lastNode_mem

/-- The two parts of a block that is larger: what stays in the list, and its end. -/
def Block.lower (c : Block) (n : ℕ) (hn : n < c.size) : Block :=
  ⟨c.addr, c.size - n, Nat.sub_pos_of_lt hn⟩

/-- The last `n` units of a block, as `malloc` cuts them off. -/
def Block.upper (c : Block) (n : ℕ) (hn : 0 < n) : Block :=
  ⟨c.addr + headerSize * (c.size - n), n, hn⟩

theorem Block.upper_stop (hn : 0 < n) (hlt : n ≤ c.size) : (c.upper n hn).stop = c.stop := by
  show c.addr + headerSize * (c.size - n) + headerSize * n = c.addr + headerSize * c.size
  rw [add_assoc, ← Nat.mul_add, Nat.sub_add_cancel hlt]

theorem Block.joins_parts (hn : 0 < n) (hlt : n < c.size) :
    (c.lower n hlt).span.Joins (c.upper n hn).span c.span :=
  ⟨rfl, rfl, upper_stop hn hlt.le⟩

/-- The end of a block that is larger is cut off. -/
theorem FreeList.cut (hf : FreeList base h (L₁ ++ c :: L₂)) (hn : 0 < n) (hlt : n < c.size) :
    FreeList base (((h.setSize c.addr (c.size - n)).setSize (c.upper n hn).addr n).setFreep
      (lastNode base L₁)) (L₁ ++ c.lower n hlt :: L₂) := by
  obtain ⟨hsep₁, hsep₂, hbelow⟩ := separated_append.mp hf.separated
  obtain ⟨habove, hsep₂⟩ := separated_cons.mp hsep₂
  have hstop := Block.upper_stop hn hlt.le
  have hupper := (c.upper n hn).addr_lt_stop
  have hcupper : c.addr < (c.upper n hn).addr := (c.lower n hlt).addr_lt_stop
  have hlist : addrs (L₁ ++ c.lower n hlt :: L₂) = addrs (L₁ ++ c :: L₂) := by simp [Block.lower]
  have hbase := hf.above c (by simp)
  refine ⟨?_, fun d hd => ?_, ?_, fun d hd => ?_, ?_, ?_⟩
  · have hsame : (((h.setSize c.addr (c.size - n)).setSize (c.upper n hn).addr n).setFreep
        (lastNode base L₁)).next = h.next := by
      funext a
      simp
    rw [hlist, hsame]
    exact hf.links
  · rcases mem_append.mp hd with hd | hd
    · have hdc := hbelow d hd c mem_cons_self
      have hds := d.addr_lt_stop
      have hne : d.addr ≠ c.addr ∧ d.addr ≠ (c.upper n hn).addr := by omega
      simpa [hne.1, hne.2] using hf.sizes d (by simp [hd])
    · rcases mem_cons.mp hd with rfl | hd
      · have hne : (c.lower n hlt).addr ≠ (c.upper n hn).addr := hcupper.ne
        rw [Heap.size_setFreep, Heap.size_setSize, if_neg hne, Heap.size_setSize]
        exact if_pos rfl
      · have hcd := habove d hd
        have hne : d.addr ≠ c.addr ∧ d.addr ≠ (c.upper n hn).addr := by omega
        simpa [hne.1, hne.2] using hf.sizes d (by simp [hd])
  · have hne : base ≠ c.addr ∧ base ≠ (c.upper n hn).addr := by omega
    simpa [hne.1, hne.2] using hf.zero
  · rcases mem_append.mp hd with hd | hd
    · exact hf.above d (by simp [hd])
    · rcases mem_cons.mp hd with rfl | hd
      · exact hbase
      · exact hf.above d (by simp [hd])
  · refine separated_append.mpr ⟨hsep₁, separated_cons.mpr ⟨fun d hd => ?_, hsep₂⟩,
      fun d hd e he => ?_⟩
    · have hcd := habove d hd
      have hlower : (c.lower n hlt).stop = (c.upper n hn).addr := rfl
      omega
    · rcases mem_cons.mp he with rfl | he
      · exact hbelow d hd c mem_cons_self
      · exact hbelow d hd e (mem_cons_of_mem _ he)
  · rw [Heap.freep_setFreep, addrs_append, ← cons_append]
    exact mem_append_left _ lastNode_mem

/-- **`malloc` takes a block out of the list**, or the end of a larger one. -/
theorem FreeList.take_ends (hf : FreeList base h (L₁ ++ c :: L₂)) (hn : 0 < n) (hfit : n ≤ c.size) :
    (take n (lastNode base L₁) c.addr : Prog (Stop E) (Heap K) ℕ).Ends h (fun _ => False)
      fun r h' => ∃ d L', r = d.addr + headerSize ∧ d.size = n ∧ h'.size d.addr = d.size
        ∧ d.addr ∈ c.span.points ∧ FreeList base h' L'
        ∧ Glues (spans (L₁ ++ c :: L₂)) (spans (d :: L')) ∧ h'.sys = h.sys
        ∧ ∀ a, a ≠ d.addr → a ∉ base :: addrs (L₁ ++ c :: L₂) → h'.size a = h.size a := by
  have hsize := hf.sizes c (by simp)
  by_cases heq : c.size = n
  · have hrun : (take n (lastNode base L₁) c.addr : Prog (Stop E) (Heap K) ℕ) h
        = .ok (c.addr + headerSize,
          (h.setPtr (lastNode base L₁) (h.next c.addr)).setFreep (lastNode base L₁)) := by
      unfold take
      rw [get_bind, if_pos (hsize.trans heq)]
      rfl
    refine ends_of_ok hrun ⟨c, L₁ ++ L₂, rfl, heq, by simpa using hsize, c.span.lo_mem,
      hf.unlinked, ?_, rfl, fun a _ _ => by simp⟩
    · refine Glues.of_perm ?_
      rw [spans_append, spans_cons, spans_cons, spans_append]
      exact perm_middle
  · have hlt : n < c.size := lt_of_le_of_ne hfit (Ne.symm heq)
    have hstop := Block.upper_stop hn hfit
    have hupper := (c.upper n hn).addr_lt_stop
    have hrun : (take n (lastNode base L₁) c.addr : Prog (Stop E) (Heap K) ℕ) h
        = .ok ((c.upper n hn).addr + headerSize,
          ((h.setSize c.addr (c.size - n)).setSize (c.upper n hn).addr n).setFreep
            (lastNode base L₁)) := by
      unfold take
      rw [get_bind, hsize, if_neg heq]
      rfl
    refine ends_of_ok hrun ⟨c.upper n hn, L₁ ++ c.lower n hlt :: L₂, rfl, rfl, ?_,
      ⟨Nat.le_add_right _ _, hupper.trans_eq hstop⟩, hf.cut hn hlt, ?_, rfl, fun a ha hmem => ?_⟩
    · rw [Heap.size_setFreep, Heap.size_setSize, if_pos rfl]
      rfl
    · have hcut : Glues (spans (L₁ ++ c :: L₂))
          (spans L₁ ++ [(c.lower n hlt).span] ++ (c.upper n hn).span :: spans L₂) := by
        simpa using (joins_glues (Block.joins_parts hn hlt)).within (spans L₁) (spans L₂)
      have hperm : (spans L₁ ++ [(c.lower n hlt).span] ++ (c.upper n hn).span :: spans L₂).Perm
          ((c.upper n hn).span :: (spans L₁ ++ [(c.lower n hlt).span] ++ spans L₂)) :=
        perm_middle
      refine hcut.trans (.of_perm ?_)
      simpa using hperm
    · have hne : a ≠ c.addr := fun heq => hmem (by simp [heq])
      simp [ha, hne]

/-! ## The invariant -/

/-- **The invariant of the heap**: the free list, the headers of the live blocks, and that both tile
the memory obtained, which is above `base`. -/
structure HeapInv (base : ℕ) (h : Heap K) (L live : List Block) (S : Set ℕ) : Prop where
  free : FreeList base h L
  sizes : ∀ b ∈ live, h.size b.addr = b.size
  tiles : Tiles (spans (L ++ live)) S
  above : ∀ x ∈ S, base + headerSize ≤ x

namespace HeapInv

variable {S : Set ℕ} {fuel : ℕ}

theorem perm {live' : List Block} (hi : HeapInv base h L live S) (hp : live.Perm live') :
    HeapInv base h L live' S :=
  ⟨hi.free, fun b hb => hi.sizes b (hp.mem_iff.mpr hb), hi.tiles.perm ((hp.append_left L).map _),
    hi.above⟩

theorem span_subset (hi : HeapInv base h L live S) (hb : b ∈ L ++ live) : b.span.points ⊆ S := by
  rw [← hi.tiles.points]
  exact fun x hx => ⟨b.span, mem_map_of_mem hb, hx⟩

theorem base_lt (hi : HeapInv base h L live S) (hb : b ∈ L ++ live) : base < b.addr := by
  have hle : base + headerSize ≤ b.addr := hi.above _ (hi.span_subset hb b.addr_mem)
  unfold headerSize at hle
  omega

theorem disjoint (hi : HeapInv base h L live S) (hc : c ∈ L) (hb : b ∈ live) :
    Disjoint c.span.points b.span.points := by
  have hpair := hi.tiles.disjoint
  rw [spans_append] at hpair
  exact (pairwise_append.mp hpair).2.2 _ (mem_map_of_mem hc) _ (mem_map_of_mem hb)

theorem addr_notMem (hi : HeapInv base h L live S) (hb : b ∈ live) : b.addr ∉ base :: addrs L := by
  intro hmem
  rcases mem_cons.mp hmem with heq | hmem
  · exact (hi.base_lt (mem_append_right _ hb)).ne' heq
  · obtain ⟨c, hc, heq⟩ := mem_addrs.mp hmem
    exact Block.addr_ne (hi.disjoint hc hb) heq

theorem encard_eq (hi : HeapInv base h L live S) :
    S.encard = (headerSize * units (L ++ live) : ℕ) := by
  rw [hi.tiles.encard_eq]
  congr 1
  generalize L ++ live = M
  induction M with
  | nil => rfl
  | cons b M ih =>
    rw [units_cons, Nat.mul_add, ← ih, spans_cons, map_cons, sum_cons]
    show b.addr + headerSize * b.size - b.addr + _ = _
    rw [Nat.add_sub_cancel_left]

/-- **`free` of a live block keeps the invariant**, and returns. -/
theorem free_ends (hi : HeapInv base h L (b :: live) S) (hS : S.encard < 2 ^ 36)
    (hfuel : L.length < fuel) :
    (Umalloc.free fuel (b.addr + headerSize) : Prog (Stop E) (Heap K) Unit).Ends h (fun _ => False)
      fun _ h' => ∃ L', HeapInv base h' L' live S ∧ (∃ c ∈ L', b.size ≤ c.size)
        ∧ L'.length ≤ L.length + 1 ∧ h'.sys = h.sys := by
  have hunits : headerSize * units (L ++ b :: live) < 2 ^ 36 := by
    rw [hi.encard_eq] at hS
    exact_mod_cast hS
  rw [units_append, units_cons] at hunits
  unfold headerSize at hunits
  refine (hi.free.free_ends (hi.sizes b mem_cons_self) (hi.base_lt (by simp))
    (fun c hc => Span.le_or_le (hi.disjoint hc mem_cons_self)) (by omega) hfuel).mono ?_
  rintro _ h' ⟨L', hf, hglue, hfit, hlen, hsys, hframe⟩
  have hperm : (spans (L ++ b :: live)).Perm (spans (b :: L) ++ spans live) := by
    rw [spans_append, spans_cons, spans_cons, cons_append]
    exact perm_middle
  refine ⟨L', ⟨hf, fun d hd => ?_, ?_, hi.above⟩, hfit, hlen, hsys⟩
  · have hpair := hi.tiles.disjoint
    rw [spans_append, spans_cons] at hpair
    have hdisj := (pairwise_cons.mp (pairwise_append.mp hpair).2.1).1 d.span
      (mem_map_of_mem hd)
    have hne : d.addr ≠ b.addr := (Block.addr_ne hdisj).symm
    rw [hframe d.addr hne (hi.addr_notMem (mem_cons_of_mem _ hd))]
    exact hi.sizes d (mem_cons_of_mem _ hd)
  · rw [spans_append]
    exact hglue _ _ (hi.tiles.perm hperm)

/-- **A block that fits is taken.** -/
theorem take_ends (hi : HeapInv base h (L₁ ++ c :: L₂) live S) (hn : 0 < n) (hfit : n ≤ c.size) :
    (take n (lastNode base L₁) c.addr : Prog (Stop E) (Heap K) ℕ).Ends h (fun _ => False)
      fun r h' => ∃ d L', r = d.addr + headerSize ∧ d.size = n
        ∧ HeapInv base h' L' (d :: live) S ∧ h'.sys = h.sys := by
  refine (hi.free.take_ends hn hfit).mono ?_
  rintro r h' ⟨d, L', rfl, hdn, hsize, hmem, hf, hglue, hsys, hframe⟩
  refine ⟨d, L', rfl, hdn, ⟨hf, fun e he => ?_, ?_, hi.above⟩, hsys⟩
  · rcases mem_cons.mp he with rfl | he
    · exact hsize
    · have hne : e.addr ≠ d.addr := fun heq =>
        Set.disjoint_left.mp (hi.disjoint (by simp) he) hmem (heq ▸ e.addr_mem)
      rw [hframe e.addr hne (hi.addr_notMem he)]
      exact hi.sizes e he
  · have htiles := hi.tiles
    rw [spans_append] at htiles
    refine (hglue _ _ htiles).perm ?_
    rw [spans_append, spans_cons, spans_cons, cons_append]
    exact perm_middle.symm

/-- **Fresh memory is a live block**, once its header is written. -/
theorem fresh {r nu : ℕ} {k : K} (hi : HeapInv base h L live S) (hnu : 0 < nu)
    (hbase : base + headerSize ≤ r) (hS : ∀ x ∈ S, x < r) :
    HeapInv base (Heap.setSize { h with sys := k } r nu) L (⟨r, nu, hnu⟩ :: live)
      (Set.Ico r (r + headerSize * nu) ∪ S) := by
  have hne : ∀ b ∈ L ++ live, b.addr ≠ r := fun b hb =>
    (hS _ (hi.span_subset hb b.addr_mem)).ne
  have hbase' : base ≠ r := by unfold headerSize at hbase; omega
  have hnext : (Heap.setSize { h with sys := k } r nu).next = h.next := by
    funext a
    exact Heap.next_setSize _ _ _ _
  have hsize : ∀ a, a ≠ r → (Heap.setSize { h with sys := k } r nu).size a = h.size a :=
    fun a ha => (Heap.size_setSize _ _ _ _).trans (if_neg ha)
  refine ⟨⟨hnext ▸ hi.free.links, fun b hb => ?_, ?_, hi.free.above, hi.free.separated,
    hi.free.freep⟩, fun b hb => ?_, ?_, fun x hx => ?_⟩
  · rw [hsize _ (hne b (mem_append_left _ hb))]
    exact hi.free.sizes b hb
  · rw [hsize _ hbase']
    exact hi.free.zero
  · rcases mem_cons.mp hb with rfl | hb
    · exact (Heap.size_setSize _ _ _ _).trans (if_pos rfl)
    · rw [hsize _ (hne b (mem_append_right _ hb))]
      exact hi.sizes b hb
  · have hdisj : Disjoint (Block.span ⟨r, nu, hnu⟩).points S :=
      Set.disjoint_left.mpr fun x hx hxS => absurd hx.1 (not_le.mpr (hS x hxS))
    refine (hi.tiles.cons hdisj).perm ?_
    rw [spans_append, spans_append, spans_cons]
    exact perm_middle.symm
  · rcases hx with hx | hx
    · exact hbase.trans hx.1
    · exact hi.above x hx

theorem withSys (hi : HeapInv base h L live S) (k : K) :
    HeapInv base { h with sys := k } L live S :=
  ⟨⟨hi.free.links, hi.free.sizes, hi.free.zero, hi.free.above, hi.free.separated, hi.free.freep⟩,
    hi.sizes, hi.tiles, hi.above⟩

theorem freep_ne_zero (hi : HeapInv base h L live S) (hbase : 0 < base) : h.freep ≠ 0 := by
  rcases mem_cons.mp hi.free.freep with heq | hmem
  · omega
  · obtain ⟨c, hc, heq⟩ := mem_addrs.mp hmem
    have := hi.free.above c hc
    omega

end HeapInv

/-! ## `malloc` -/

/-- **What `sbrk` may answer**: -1, or the address of fresh memory. It is above `base` and above
all the memory obtained before. -/
def Answers (base : ℕ) (got : K → Set ℕ) (k : K) (bytes r : ℕ) (k' : K) : Prop :=
  (r = minusOne ∧ got k' = got k)
  ∨ (r ≠ minusOne ∧ base + headerSize ≤ r ∧ (∀ x ∈ got k, x < r)
    ∧ got k' = Set.Ico r (r + bytes) ∪ got k)

/-- The memory obtained once `sbrk` has answered `r`. -/
def obtained (S : Set ℕ) (bytes r : ℕ) : Set ℕ :=
  if r = minusOne then S else Set.Ico r (r + bytes) ∪ S

theorem obtained_refused (S : Set ℕ) (bytes : ℕ) : obtained S bytes minusOne = S := if_pos rfl

/-- What is answered is fresh memory, or -1. -/
def Fresh (base : ℕ) (S : Set ℕ) (r : ℕ) : Prop :=
  r ≠ minusOne → base + headerSize ≤ r ∧ ∀ x ∈ S, x < r

theorem answers_iff {got : K → Set ℕ} {k k' : K} {bytes r : ℕ} :
    Answers base got k bytes r k'
      ↔ Fresh base (got k) r ∧ got k' = obtained (got k) bytes r := by
  unfold Answers Fresh obtained
  split_ifs with hr <;> simp [hr, and_assoc]

/-- **What `malloc` may return**: 0, or a new live block of `n` units. -/
def Returned (base : ℕ) (S : Set ℕ) (live : List Block) (n r : ℕ) (h : Heap K) : Prop :=
  (r = 0 ∧ ∃ L, HeapInv base h L live S)
  ∨ ∃ d L, r = d.addr + headerSize ∧ d.size = n ∧ HeapInv base h L (d :: live) S

theorem le_coreUnits (n : ℕ) : n ≤ coreUnits n := by
  unfold coreUnits
  split_ifs <;> omega

theorem coreUnits_pos (n : ℕ) : 0 < coreUnits n := by
  unfold coreUnits
  split_ifs <;> omega

section

variable {sbrk : ℕ → Prog E K ℕ} {fuel : ℕ} {P : E → Prop} {Q : ℕ → K → Prop}

/-- **`morecore`** adds a block that fits to the list, or returns 0. -/
theorem HeapInv.morecore_ends (hi : HeapInv base h L live S) (hbase : 0 < base)
    (hsbrk : (sbrk (coreUnits n * headerSize)).Ends h.sys P fun r k =>
      Fresh base S r ∧ (obtained S (coreUnits n * headerSize) r).encard < 2 ^ 36 ∧ Q r k)
    (hfuel : L.length < fuel) :
    (morecore sbrk fuel n).Ends h (fun e => ∃ e', e = .sys e' ∧ P e') fun p h' =>
      (p = 0 ∧ Q minusOne h'.sys ∧ HeapInv base h' L live S)
      ∨ (p = h'.freep ∧ p ≠ 0 ∧ ∃ r, r ≠ minusOne ∧ Q r h'.sys ∧ ∃ L',
        HeapInv base h' L' live (obtained S (coreUnits n * headerSize) r)
          ∧ (∃ c ∈ L', n ≤ c.size) ∧ L'.length ≤ L.length + 1) := by
  unfold morecore
  refine ends_bind ((Heap.onSys_ends hsbrk).mono ?_)
  rintro r _ ⟨k, rfl, hfresh, hcard, hQ⟩
  by_cases hr : r = minusOne
  · subst hr
    rw [if_pos rfl]
    exact ends_pure (.inl ⟨rfl, hQ, hi.withSys k⟩)
  · rw [if_neg hr]
    have hgot : obtained S (coreUnits n * headerSize) r = _ := if_neg hr
    rw [hgot] at hcard
    have hnew := hi.fresh (k := k) (coreUnits_pos n) (hfresh hr).1 (hfresh hr).2
    rw [Nat.mul_comm] at hnew
    refine ends_bind (ends_modify (ends_bind
      (((hnew.free_ends hcard hfuel).panic_mono fun _ => False.elim).mono ?_)))
    rintro _ h' ⟨L', hi', ⟨c, hc, hle⟩, hlen, hsys⟩
    have hsys : h'.sys = k := hsys
    subst hsys
    exact ends_bind (ends_get (ends_pure (.inr ⟨rfl, hi'.freep_ne_zero hbase,
      r, hr, hQ, L', hgot ▸ hi', ⟨c, hc, (le_coreUnits n).trans hle⟩, hlen⟩)))

/-- The search after `morecore`. -/
theorem HeapInv.mallocMore_ends {k : ℕ} (hi : HeapInv base h L live S) (hbase : 0 < base)
    (hn : 0 < n)
    (hsbrk : (sbrk (coreUnits n * headerSize)).Ends h.sys P fun r k =>
      Fresh base S r ∧ (obtained S (coreUnits n * headerSize) r).encard < 2 ^ 36 ∧ Q r k)
    (hfuel : L.length < fuel)
    (hk : L.length + 1 < k) :
    (mallocMore sbrk fuel n k).Ends h (fun e => ∃ e', e = .sys e' ∧ P e') fun r h' =>
      ∃ a, Q a h'.sys ∧ (a = minusOne ↔ r = 0)
        ∧ Returned base (obtained S (coreUnits n * headerSize) a) live n r h' := by
  unfold mallocMore
  refine ends_bind ((hi.morecore_ends hbase hsbrk hfuel).mono ?_)
  rintro p h' (⟨rfl, hQ, hi'⟩ | ⟨rfl, hp, a, ha, hQ, L', hi', ⟨c, hc, hfit⟩, hlen⟩)
  · rw [if_pos rfl]
    refine ends_pure ⟨minusOne, hQ, by simp, .inl ⟨rfl, L, ?_⟩⟩
    rwa [obtained_refused]
  · rw [if_neg hp, ends_bind_iff]
    refine ends_get ?_
    rcases hi'.free.mallocLoop_finds sbrk fuel hn (by omega : L'.length < k) with
      ⟨L₁, d, L₂, rfl, hfit', hrun⟩ | ⟨hnone, -⟩
    · unfold Ends
      rw [hrun]
      refine ((hi'.take_ends hn hfit').panic_mono fun _ => False.elim).mono ?_
      rintro r h'' ⟨e, L'', rfl, he, hi'', hsys⟩
      rw [← hsys] at hQ
      exact ⟨a, hQ, ⟨fun h => absurd h ha, fun h => by unfold headerSize at h; omega⟩,
        .inr ⟨e, L'', rfl, he, hi''⟩⟩
    · exact absurd hfit (not_le.mpr (hnone c hc))

theorem Heap.start_sys : (h.start base).sys = h.sys := by
  unfold Heap.start
  split_ifs <;> rfl

/-- **`malloc` keeps the invariant, and returns**: a block of the list if one fits, and otherwise
what `sbrk` answers decides. -/
theorem HeapInv.malloc_ends {nbytes : ℕ} (hi : HeapInv base (h.start base) L live S)
    (hbase : 0 < base) (hn : 0 < nunits nbytes)
    (hsbrk : (∀ c ∈ L, c.size < nunits nbytes) →
      (sbrk (coreUnits (nunits nbytes) * headerSize)).Ends h.sys P fun r k => Fresh base S r
        ∧ (obtained S (coreUnits (nunits nbytes) * headerSize) r).encard < 2 ^ 36 ∧ Q r k)
    (hfuel : 2 * L.length + 2 < fuel) :
    (malloc base sbrk fuel nbytes).Ends h (fun e => ∃ e', e = .sys e' ∧ P e') fun r h' =>
      ((∃ c ∈ L, nunits nbytes ≤ c.size) ∧ r ≠ 0 ∧ h'.sys = h.sys
        ∧ Returned base S live (nunits nbytes) r h')
      ∨ (∀ c ∈ L, c.size < nunits nbytes) ∧ ∃ a, Q a h'.sys ∧ (a = minusOne ↔ r = 0)
        ∧ Returned base (obtained S (coreUnits (nunits nbytes) * headerSize) a) live
          (nunits nbytes) r h' := by
  unfold malloc
  refine ends_bind (ends_modify (ends_bind (ends_get ?_)))
  have hsys : (h.start base).sys = h.sys := Heap.start_sys
  rw [← hsys] at hsbrk ⊢
  generalize h.start base = h₀ at hi hsbrk ⊢
  have hlen : L.length < fuel := by omega
  rcases hi.free.mallocLoop_finds sbrk fuel hn hlen with
    ⟨L₁, c, L₂, rfl, hfit, hrun⟩ | ⟨hnone, hrun⟩
  · unfold Ends
    rw [hrun]
    refine ((hi.take_ends hn hfit).panic_mono fun _ => False.elim).mono ?_
    rintro r h' ⟨d, L', rfl, hd, hi', hsys'⟩
    exact .inl ⟨⟨c, by simp, hfit⟩, by unfold headerSize; omega, hsys',
      .inr ⟨d, L', rfl, hd, hi'⟩⟩
  · unfold Ends
    rw [hrun]
    exact (hi.mallocMore_ends hbase hn (hsbrk hnone) (by omega) (by omega)).mono
      fun r h' hr => .inr ⟨hnone, hr⟩

end

end Xv6.Umalloc
