import Mathlib
import Xv6.Umalloc

/-!
# The free list

What the headers in memory say is described by a list of blocks in the order of their addresses
(`FreeList`): along the list from `base` to `base` again, no block is empty, and each ends before
the next begins. A list can be cut in two at each of its nodes, the last node of the first part and
the first of the second part being linked; so the effects of `free` and of `malloc` are stated for
a list `L₁ ++ L₂` and the node `lastNode base L₁`.
-/

open Prog hiding get modify panic result

namespace Xv6.Umalloc

open CircularList Spans List

/-- A block of memory, with its size in units of a header. -/
@[ext]
structure Block where
  addr : ℕ
  size : ℕ
  pos : 0 < size
deriving DecidableEq

namespace Block

/-- Where a block ends. -/
def stop (b : Block) : ℕ := b.addr + headerSize * b.size

/-- The addresses of a block, its header included. -/
def span (b : Block) : Span ℕ := ⟨b.addr, b.stop, by
  have := b.pos
  unfold stop headerSize
  omega⟩

theorem addr_lt_stop (b : Block) : b.addr < b.stop := b.span.lt

theorem addr_mem (b : Block) : b.addr ∈ b.span.points := b.span.lo_mem

theorem addr_ne {b c : Block} (h : Disjoint b.span.points c.span.points) : b.addr ≠ c.addr :=
  fun heq => Set.disjoint_left.mp h b.addr_mem (heq ▸ c.addr_mem)

/-- A block with the one that begins at its end. -/
def join (b c : Block) : Block := ⟨b.addr, b.size + c.size, Nat.add_pos_left b.pos _⟩

theorem joins_join {b c : Block} (h : b.stop = c.addr) : b.span.Joins c.span (b.join c).span := by
  refine ⟨rfl, h, ?_⟩
  show c.addr + headerSize * c.size = b.addr + headerSize * (b.size + c.size)
  rw [← h]
  unfold stop
  ring

theorem join_stop {b c : Block} (h : b.stop = c.addr) : (b.join c).stop = c.stop :=
  (joins_join h).hi.symm

end Block

/-- The addresses at which blocks begin. -/
def addrs (L : List Block) : List ℕ := L.map Block.addr

/-- The blocks as spans. -/
def spans (L : List Block) : List (Span ℕ) := L.map Block.span

/-- The units that blocks have together. -/
def units (L : List Block) : ℕ := (L.map Block.size).sum

/-- The last node of a list that begins with `base`. -/
def lastNode (base : ℕ) (L : List Block) : ℕ := (addrs L).getLastD base

/-- The first node of a list that ends with `base`. -/
def headNode (base : ℕ) (L : List Block) : ℕ := (addrs L).headD base

section Lists

variable {base a x : ℕ} {b c : Block} {L L₁ L₂ : List Block} {next : ℕ → ℕ}

@[simp] theorem addrs_nil : addrs [] = [] := rfl

@[simp] theorem addrs_cons : addrs (b :: L) = b.addr :: addrs L := rfl

@[simp] theorem addrs_append : addrs (L₁ ++ L₂) = addrs L₁ ++ addrs L₂ := map_append

@[simp] theorem spans_cons : spans (b :: L) = b.span :: spans L := rfl

@[simp] theorem spans_append : spans (L₁ ++ L₂) = spans L₁ ++ spans L₂ := map_append

@[simp] theorem units_nil : units [] = 0 := rfl

@[simp] theorem units_cons : units (b :: L) = b.size + units L := sum_cons

@[simp] theorem units_append : units (L₁ ++ L₂) = units L₁ + units L₂ := by
  unfold units
  rw [map_append, sum_append]

@[simp] theorem lastNode_nil : lastNode base [] = base := rfl

@[simp] theorem lastNode_concat : lastNode base (L ++ [b]) = b.addr := by
  unfold lastNode
  rw [addrs_append]
  exact getLastD_concat

@[simp] theorem headNode_nil : headNode base [] = base := rfl

@[simp] theorem headNode_cons : headNode base (b :: L) = b.addr := rfl

theorem mem_addrs : a ∈ addrs L ↔ ∃ b ∈ L, b.addr = a := mem_map

theorem lastNode_mem : lastNode base L ∈ base :: addrs L := by
  induction L using reverseRecOn with
  | nil => exact mem_cons_self
  | append_singleton L b => simp

theorem exists_split (h : a ∈ base :: addrs L) : ∃ L₁ L₂, L = L₁ ++ L₂ ∧ a = lastNode base L₁ := by
  rcases mem_cons.mp h with rfl | h
  · exact ⟨[], L, rfl, rfl⟩
  · obtain ⟨b, hb, rfl⟩ := mem_addrs.mp h
    obtain ⟨L₁, L₂, rfl⟩ := append_of_mem hb
    exact ⟨L₁ ++ [b], L₂, by simp, lastNode_concat.symm⟩

theorem links_cons : Links next (a :: (addrs L ++ [base]))
    ↔ next a = headNode base L ∧ Links next (addrs L ++ [base]) := by
  cases L with
  | nil => exact Iff.rfl
  | cons b L => exact Iff.rfl

/-- **A list is linked if its two parts are**, and the last node of the one is linked to the first
of the other. -/
theorem links_split : Links next (base :: addrs (L₁ ++ L₂) ++ [base])
    ↔ Links next (base :: addrs L₁) ∧ next (lastNode base L₁) = headNode base L₂
      ∧ Links next (addrs L₂ ++ [base]) := by
  induction L₁ using reverseRecOn with
  | nil => exact links_cons.trans ⟨fun h => ⟨trivial, h⟩, fun h => h.2⟩
  | append_singleton L b _ =>
    have hall : base :: addrs (L ++ [b] ++ L₂) ++ [base]
        = (base :: addrs L) ++ b.addr :: (addrs L₂ ++ [base]) := by simp
    have hfirst : base :: addrs (L ++ [b]) = (base :: addrs L) ++ [b.addr] := by simp
    rw [lastNode_concat, ← links_cons, hall, hfirst]
    exact links_append _ _ _

end Lists

/-- **What the headers say**: the blocks of the free list, in the order of their addresses. -/
structure FreeList {K : Type} (base : ℕ) (h : Heap K) (L : List Block) : Prop where
  links : Links h.next (base :: addrs L ++ [base])
  sizes : ∀ b ∈ L, h.size b.addr = b.size
  zero : h.size base = 0
  above : ∀ b ∈ L, base < b.addr
  separated : Separated (spans L)
  freep : h.freep ∈ base :: addrs L

section

variable {E K : Type} {base bp p n : ℕ} {h h' : Heap K} {b c : Block} {L L₁ L₂ : List Block}

theorem lt_of_separated (h : Separated (spans (L₁ ++ L₂))) (hb : b ∈ L₁) (hc : c ∈ L₂) :
    b.stop < c.addr := by
  rw [spans_append] at h
  exact (pairwise_append.mp h).2.2 _ (mem_map_of_mem hb) _ (mem_map_of_mem hc)

theorem separated_cons : Separated (spans (b :: L))
    ↔ (∀ c ∈ L, b.stop < c.addr) ∧ Separated (spans L) := by
  unfold Separated
  rw [spans_cons, pairwise_cons]
  exact and_congr_left' ⟨fun h c hc => h _ (mem_map_of_mem hc),
    fun h s hs => by obtain ⟨c, hc, rfl⟩ := mem_map.mp hs; exact h c hc⟩

theorem separated_append : Separated (spans (L₁ ++ L₂)) ↔ Separated (spans L₁)
    ∧ Separated (spans L₂) ∧ ∀ b ∈ L₁, ∀ c ∈ L₂, b.stop < c.addr := by
  unfold Separated
  rw [spans_append, pairwise_append]
  refine and_congr_right' (and_congr_right' ⟨fun h b hb c hc => ?_, fun h s hs t ht => ?_⟩)
  · exact h _ (mem_map_of_mem hb) _ (mem_map_of_mem hc)
  · obtain ⟨b, hb, rfl⟩ := mem_map.mp hs
    obtain ⟨c, hc, rfl⟩ := mem_map.mp ht
    exact h b hb c hc

namespace FreeList

theorem sorted (hf : FreeList base h L) : (base :: addrs L).Pairwise (· < ·) := by
  refine pairwise_cons.mpr ⟨fun a ha => ?_, ?_⟩
  · obtain ⟨b, hb, rfl⟩ := mem_addrs.mp ha
    exact hf.above b hb
  · refine pairwise_map.mpr ((pairwise_map.mp hf.separated).imp fun hbc => ?_)
    exact (Block.addr_lt_stop _).trans hbc

theorem next_lastNode (hf : FreeList base h (L₁ ++ L₂)) :
    h.next (lastNode base L₁) = headNode base L₂ := (links_split.mp hf.links).2.1

end FreeList

/-! ## The search of `free` -/

/-- The search stops at a node of the list, if it would stop at one. -/
theorem freeLoop_links {a z k : ℕ} {l : List ℕ} (hl : Links h.next (a :: l ++ [z]))
    (hstop : ∃ q ∈ a :: l, Stops h bp q) (hk : l.length < k) :
    ∃ q ∈ a :: l, freeLoop h bp k a = some q ∧ Stops h bp q := by
  induction l generalizing a k with
  | nil =>
    obtain ⟨k, rfl⟩ := Nat.exists_eq_add_of_lt hk
    obtain ⟨q, hq, hs⟩ := hstop
    obtain rfl := mem_singleton.mp hq
    exact ⟨q, hq, if_pos hs, hs⟩
  | cons c l ih =>
    obtain ⟨k, rfl⟩ : ∃ k', k = k' + 1 := ⟨k - 1, by omega⟩
    by_cases ha : Stops h bp a
    · exact ⟨a, mem_cons_self, if_pos ha, ha⟩
    · obtain ⟨q, hq, hs⟩ := hstop
      have hq' : q ∈ c :: l := (mem_cons.mp hq).resolve_left fun hqa => ha (hqa ▸ hs)
      obtain ⟨r, hr, hrun, hs⟩ := ih hl.2 ⟨q, hq', hs⟩ (Nat.lt_of_succ_lt_succ hk)
      refine ⟨r, mem_cons_of_mem _ hr, ?_, hs⟩
      unfold freeLoop
      rw [if_neg ha, hl.1]
      exact hrun

theorem lastNode_lt_iff (hsep : Separated (spans L)) (hbase : base < bp) :
    lastNode base L < bp ↔ ∀ c ∈ L, c.addr < bp := by
  induction L using reverseRecOn with
  | nil => simpa using hbase
  | append_singleton L c _ =>
    rw [lastNode_concat]
    refine ⟨fun hc d hd => ?_, fun hall => hall c (by simp)⟩
    rcases mem_append.mp hd with hd | hd
    · exact ((d.addr_lt_stop).trans (lt_of_separated hsep hd mem_cons_self)).trans hc
    · rwa [mem_singleton.mp hd]

/-- **The search stops between the blocks below and above an address.** -/
theorem FreeList.stops_iff (hf : FreeList base h (L₁ ++ L₂)) (hbase : base < bp) :
    Stops h bp (lastNode base L₁) ↔ (∀ c ∈ L₁, c.addr < bp) ∧ ∀ c ∈ L₂, bp < c.addr := by
  obtain ⟨hsep₁, hsep₂, hbelow⟩ := separated_append.mp hf.separated
  have hle : base ≤ lastNode base L₁ := by
    rcases mem_cons.mp (lastNode_mem : lastNode base L₁ ∈ _) with hq | hq
    · exact hq.ge
    · obtain ⟨c, hc, hq⟩ := mem_addrs.mp hq
      exact hq ▸ (hf.above c (mem_append_left _ hc)).le
  unfold Stops
  rw [hf.next_lastNode, ← lastNode_lt_iff hsep₁ hbase]
  cases L₂ with
  | nil =>
    rw [headNode_nil]
    exact ⟨fun hs => ⟨by omega, forall_mem_nil _⟩, fun hs => .inr ⟨hle, .inl hs.1⟩⟩
  | cons d L₂ =>
    have hlt : lastNode base L₁ < d.addr :=
      (lastNode_lt_iff hsep₁ (hf.above d (by simp))).mpr fun c hc =>
        c.addr_lt_stop.trans (hbelow c hc d mem_cons_self)
    rw [headNode_cons]
    refine ⟨fun hs => ⟨by omega, fun c hc => ?_⟩, fun hs => .inl ⟨hs.1, hs.2 d mem_cons_self⟩⟩
    rcases mem_cons.mp hc with rfl | hc
    · omega
    · have hdc := (separated_cons.mp hsep₂).1 c hc
      have hd := d.addr_lt_stop
      omega

/-- A block that is apart from those of a list has its place among them. -/
theorem exists_place (hsep : Separated (spans L))
    (hapart : ∀ c ∈ L, c.stop ≤ b.addr ∨ b.stop ≤ c.addr) :
    ∃ L₁ L₂, L = L₁ ++ L₂ ∧ (∀ c ∈ L₁, c.stop ≤ b.addr) ∧ ∀ c ∈ L₂, b.stop ≤ c.addr := by
  induction L with
  | nil => exact ⟨[], [], rfl, forall_mem_nil _, forall_mem_nil _⟩
  | cons c L ih =>
    obtain ⟨hc, hsep⟩ := separated_cons.mp hsep
    rcases hapart c mem_cons_self with hbelow | habove
    · obtain ⟨L₁, L₂, rfl, h₁, h₂⟩ := ih hsep fun d hd => hapart d (mem_cons_of_mem _ hd)
      refine ⟨c :: L₁, L₂, rfl, fun d hd => ?_, h₂⟩
      rcases mem_cons.mp hd with rfl | hd
      · exact hbelow
      · exact h₁ d hd
    · refine ⟨[], c :: L, rfl, forall_mem_nil _, fun d hd => ?_⟩
      rcases mem_cons.mp hd with rfl | hd
      · exact habove
      · exact habove.trans (c.addr_lt_stop.trans (hc d hd)).le

/-- **The search of `free` ends at the place of the block.** -/
theorem FreeList.freeLoop_finds {fuel : ℕ} (hf : FreeList base h L) (hbase : base < b.addr)
    (hapart : ∀ c ∈ L, c.stop ≤ b.addr ∨ b.stop ≤ c.addr) (hfuel : L.length < fuel) :
    ∃ L₁ L₂, L = L₁ ++ L₂ ∧ freeLoop h b.addr fuel h.freep = some (lastNode base L₁)
      ∧ (∀ c ∈ L₁, c.stop ≤ b.addr) ∧ ∀ c ∈ L₂, b.stop ≤ c.addr := by
  obtain ⟨M₁, M₂, rfl, hbelow, habove⟩ := exists_place hf.separated hapart
  -- the list is cut at `freep`; the search runs along it from there
  obtain ⟨l, hl, hperm⟩ := exists_rotate hf.links hf.freep
  have hplace : Stops h b.addr (lastNode base M₁) := (hf.stops_iff hbase).mpr
    ⟨fun c hc => c.addr_lt_stop.trans_le (hbelow c hc),
      fun c hc => b.addr_lt_stop.trans_le (habove c hc)⟩
  have hnode : lastNode base M₁ ∈ base :: addrs (M₁ ++ M₂) := by
    rw [addrs_append, ← cons_append]
    exact mem_append_left _ lastNode_mem
  have hlen : l.length = (M₁ ++ M₂).length := by
    have := hperm.length_eq
    simpa [addrs] using this
  obtain ⟨q, hq, hrun, hstop⟩ :=
    freeLoop_links hl ⟨_, hperm.mem_iff.mpr hnode, hplace⟩ (hlen.trans_lt hfuel)
  obtain ⟨L₁, L₂, hL, rfl⟩ := exists_split (hperm.mem_iff.mp hq)
  rw [hL] at hf hapart ⊢
  obtain ⟨h₁, h₂⟩ := (hf.stops_iff hbase).mp hstop
  refine ⟨L₁, L₂, rfl, hrun, fun c hc => ?_, fun c hc => ?_⟩
  · have hlt := h₁ c hc
    have hb := b.addr_lt_stop
    rcases hapart c (mem_append_left _ hc) with h | h <;> omega
  · have hlt := h₂ c hc
    have hc' := c.addr_lt_stop
    rcases hapart c (mem_append_right _ hc) with h | h <;> omega

/-! ## Joining blocks -/

theorem Heap.setSize_size (h : Heap K) (a : ℕ) : h.setSize a (h.size a) = h := by
  unfold setSize size
  rw [Function.update_eq_self]

/-- **The block is joined with the one above it** if they touch. -/
theorem joinUpper_eq (hsize : h.size b.addr = b.size) (hnext : h.next p = headNode base L)
    (hlinks : Links h.next (addrs L ++ [base])) (hsizes : ∀ c ∈ L, h.size c.addr = c.size)
    (hbase : base < b.addr) (habove : ∀ c ∈ L, b.stop ≤ c.addr) (hsep : Separated (spans L))
    (hunits : b.size + units L < 2 ^ 32) :
    ∃ b' L', L' <:+ L ∧ Links h.next (addrs L' ++ [base]) ∧ b'.addr = b.addr
      ∧ b.size ≤ b'.size
      ∧ joinUpper b.addr p h = (h.setSize b.addr b'.size).setPtr b.addr (headNode base L')
      ∧ Separated (spans (b' :: L')) ∧ Glues (spans (b :: L)) (spans (b' :: L'))
      ∧ b'.size + units L' = b.size + units L := by
  by_cases htouch : b.stop = headNode base L
  · cases L with
    | nil =>
      have hb := b.addr_lt_stop
      rw [headNode_nil] at htouch
      omega
    | cons d L =>
      rw [headNode_cons] at htouch
      obtain ⟨hd, hsep⟩ := separated_cons.mp hsep
      obtain ⟨hd', hlinks⟩ := links_cons.mp hlinks
      rw [units_cons] at hunits
      refine ⟨b.join d, L, suffix_cons _ _, hlinks, rfl, Nat.le_add_right _ _, ?_,
        separated_cons.mpr ⟨fun c hc => ?_, hsep⟩, ?_, ?_⟩
      · unfold joinUpper
        rw [hsize, hnext, headNode_cons, if_pos (show b.addr + headerSize * b.size = _ from htouch),
          hsizes d mem_cons_self, hd', Nat.mod_eq_of_lt (by omega)]
        rfl
      · rw [Block.join_stop htouch]
        exact hd c hc
      · exact (glues_joins (Block.joins_join htouch)).within [] (spans L)
      · show b.size + d.size + units L = _
        rw [units_cons, add_assoc]
  · refine ⟨b, L, suffix_rfl, hlinks, rfl, le_rfl, ?_,
      separated_cons.mpr ⟨fun c hc => ?_, hsep⟩, .refl _, rfl⟩
    · unfold joinUpper
      rw [hsize, hnext, if_neg (show ¬ b.addr + headerSize * b.size = _ from htouch), ← hsize,
        Heap.setSize_size]
    · cases L with
      | nil => nomatch hc
      | cons d L =>
        have hlt := lt_of_le_of_ne (habove d mem_cons_self) htouch
        rcases mem_cons.mp hc with rfl | hc
        · exact hlt
        · exact hlt.trans (d.addr_lt_stop.trans ((separated_cons.mp hsep).1 c hc))

/-- Only the successors of the nodes but the last one count in the first part of a list. -/
theorem links_first {next next' : ℕ → ℕ} (hl : Links next (base :: addrs L))
    (hsorted : (base :: addrs L).Pairwise (· < ·))
    (hsame : ∀ a ∈ base :: addrs L, a < lastNode base L → next' a = next a) :
    Links next' (base :: addrs L) := by
  obtain ⟨l, hl'⟩ : ∃ l, base :: addrs L = l ++ [lastNode base L] := by
    induction L using reverseRecOn with
    | nil => exact ⟨[], rfl⟩
    | append_singleton L b _ => exact ⟨base :: addrs L, by simp⟩
  rw [hl'] at hl hsorted hsame ⊢
  exact hl.congr fun a ha => hsame a (mem_append_left _ ha)
    ((pairwise_append.mp hsorted).2.2 a ha _ mem_cons_self)

/-- **The two parts of a free list**, with a block between them that is not linked yet. -/
structure Around (base : ℕ) (h : Heap K) (L₁ : List Block) (b : Block) (L₂ : List Block) :
    Prop where
  links₁ : Links h.next (base :: addrs L₁)
  next : h.next b.addr = headNode base L₂
  links₂ : Links h.next (addrs L₂ ++ [base])
  sizes : ∀ c ∈ L₁ ++ b :: L₂, h.size c.addr = c.size
  zero : h.size base = 0
  above : ∀ c ∈ L₁ ++ b :: L₂, base < c.addr
  separated₁ : Separated (spans L₁)
  separated₂ : Separated (spans (b :: L₂))
  below : ∀ c ∈ L₁, c.stop ≤ b.addr

namespace Around

theorem sorted₁ (ha : Around base h L₁ b L₂) : (base :: addrs L₁).Pairwise (· < ·) := by
  refine pairwise_cons.mpr ⟨fun a hmem => ?_, ?_⟩
  · obtain ⟨c, hc, rfl⟩ := mem_addrs.mp hmem
    exact ha.above c (mem_append_left _ hc)
  · exact pairwise_map.mpr ((pairwise_map.mp ha.separated₁).imp fun hbc =>
      (Block.addr_lt_stop _).trans hbc)

theorem lastNode_lt (ha : Around base h L₁ b L₂) (hc : c ∈ b :: L₂) :
    lastNode base L₁ < c.addr := by
  have habove := ha.above c (mem_append_right _ hc)
  refine (lastNode_lt_iff ha.separated₁ habove).mpr fun d hd => ?_
  have hbelow := ha.below d hd
  have hlt := d.addr_lt_stop
  rcases mem_cons.mp hc with rfl | hc
  · omega
  · have hbc := (separated_cons.mp ha.separated₂).1 c hc
    have hb := b.addr_lt_stop
    omega

/-- Both parts are kept when only the header of the last node before the block changes. -/
theorem links_kept (ha : Around base h L₁ b L₂)
    (hsame : ∀ a, a ≠ lastNode base L₁ → h'.next a = h.next a) :
    Links h'.next (base :: addrs L₁) ∧ h'.next b.addr = headNode base L₂
      ∧ Links h'.next (addrs L₂ ++ [base]) := by
  refine ⟨links_first ha.links₁ ha.sorted₁ fun a _ hlt => hsame a hlt.ne, ?_, ?_⟩
  · rw [hsame _ (ha.lastNode_lt mem_cons_self).ne', ha.next]
  · refine ha.links₂.congr fun a hmem => hsame a ?_
    obtain ⟨c, hc, rfl⟩ := mem_addrs.mp hmem
    exact (ha.lastNode_lt (mem_cons_of_mem _ hc)).ne'

/-- The block is linked in. -/
theorem linked (ha : Around base h L₁ b L₂) (hapart : ∀ c ∈ L₁, c.stop ≠ b.addr) :
    FreeList base ((h.setPtr (lastNode base L₁) b.addr).setFreep (lastNode base L₁))
      (L₁ ++ b :: L₂) := by
  have hsame : ∀ a, a ≠ lastNode base L₁ →
      ((h.setPtr (lastNode base L₁) b.addr).setFreep (lastNode base L₁)).next a = h.next a :=
    fun a hne => by simp [hne]
  obtain ⟨hl₁, hb, hl₂⟩ := ha.links_kept hsame
  refine ⟨links_split.mpr ⟨hl₁, by simp, links_cons.mpr ⟨hb, hl₂⟩⟩, fun c hc => ?_, ?_, ha.above,
    ?_, ?_⟩
  · simpa using ha.sizes c hc
  · simpa using ha.zero
  · refine separated_append.mpr ⟨ha.separated₁, ha.separated₂, fun c hc d hd => ?_⟩
    have hlt := lt_of_le_of_ne (ha.below c hc) (hapart c hc)
    rcases mem_cons.mp hd with rfl | hd
    · exact hlt
    · exact hlt.trans (b.addr_lt_stop.trans ((separated_cons.mp ha.separated₂).1 d hd))
  · rw [Heap.freep_setFreep, addrs_append, ← cons_append]
    exact mem_append_left _ lastNode_mem

/-- The block is joined with the one below it. -/
theorem joined (ha : Around base h (L₁ ++ [c]) b L₂) (htouch : c.stop = b.addr) :
    FreeList base (((h.setSize c.addr (c.size + b.size)).setPtr c.addr (headNode base L₂)).setFreep
      c.addr) (L₁ ++ c.join b :: L₂) := by
  have hsame : ∀ a, a ≠ lastNode base (L₁ ++ [c]) →
      (((h.setSize c.addr (c.size + b.size)).setPtr c.addr (headNode base L₂)).setFreep
        c.addr).next a = h.next a := fun a hne => by
    rw [lastNode_concat] at hne
    simp [hne]
  obtain ⟨hl₁, -, hl₂⟩ := ha.links_kept hsame
  obtain ⟨hsep₁, -, hlt₁⟩ := separated_append.mp ha.separated₁
  obtain ⟨hlt₂, hsep₂⟩ := separated_cons.mp ha.separated₂
  have hlist : base :: addrs (L₁ ++ c.join b :: L₂) = base :: addrs (L₁ ++ [c] ++ L₂) := by
    simp [Block.join]
  have hcL : ∀ d ∈ L₂, c.addr < d.addr := fun d hd => by
    simpa using ha.lastNode_lt (mem_cons_of_mem _ hd)
  have hLc : ∀ d ∈ L₁, d.stop < c.addr := fun d hd => hlt₁ d hd c mem_cons_self
  refine ⟨?_, fun d hd => ?_, ?_, fun d hd => ?_, ?_, ?_⟩
  · rw [hlist]
    exact links_split.mpr ⟨hl₁, by simp, hl₂⟩
  · rcases mem_append.mp hd with hd | hd
    · have hne : d.addr ≠ c.addr := (d.addr_lt_stop.trans (hLc d hd)).ne
      simpa [hne] using ha.sizes d (by simp [hd])
    · rcases mem_cons.mp hd with rfl | hd
      · simp [Block.join]
      · simpa [(hcL d hd).ne'] using ha.sizes d (by simp [hd])
  · have hne : base ≠ c.addr := (ha.above c (by simp)).ne
    simpa [hne] using ha.zero
  · rcases mem_append.mp hd with hd | hd
    · exact ha.above d (by simp [hd])
    · rcases mem_cons.mp hd with rfl | hd
      · exact ha.above c (by simp)
      · exact ha.above d (by simp [hd])
  · refine separated_append.mpr ⟨hsep₁, separated_cons.mpr ⟨fun d hd => ?_, hsep₂⟩,
      fun d hd e he => ?_⟩
    · rw [Block.join_stop htouch]
      exact hlt₂ d hd
    · rcases mem_cons.mp he with rfl | he
      · exact hLc d hd
      · exact (hLc d hd).trans (hcL e he)
  · simp [Block.join]

/-- **The block is joined with the one below it** if they touch, and linked in otherwise. -/
theorem joinLower_freeList (ha : Around base h L₁ b L₂) (hunits : units L₁ + b.size < 2 ^ 32) :
    ∃ L, FreeList base
        ((joinLower b.addr (lastNode base L₁) h).setFreep (lastNode base L₁)) L
      ∧ Glues (spans (L₁ ++ b :: L₂)) (spans L) ∧ (∃ c ∈ L, b.size ≤ c.size)
      ∧ L.length ≤ L₁.length + L₂.length + 1 := by
  have hlinked : lastNode base L₁ + headerSize * h.size (lastNode base L₁) ≠ b.addr →
      (∀ c ∈ L₁, c.stop ≠ b.addr) → ∃ L, FreeList base
        ((joinLower b.addr (lastNode base L₁) h).setFreep (lastNode base L₁)) L
      ∧ Glues (spans (L₁ ++ b :: L₂)) (spans L) ∧ (∃ c ∈ L, b.size ≤ c.size)
      ∧ L.length ≤ L₁.length + L₂.length + 1 := fun hne hapart => by
    refine ⟨L₁ ++ b :: L₂, ?_, .refl _, ⟨b, by simp, le_rfl⟩, by simp; omega⟩
    unfold joinLower
    rw [if_neg hne]
    exact ha.linked hapart
  induction L₁ using reverseRecOn with
  | nil =>
    refine hlinked ?_ (forall_mem_nil _)
    rw [lastNode_nil, ha.zero]
    exact (ha.above b (by simp)).ne
  | append_singleton L₁ c _ =>
    have hsize : h.size c.addr = c.size := ha.sizes c (by simp)
    by_cases htouch : c.stop = b.addr
    · refine ⟨L₁ ++ c.join b :: L₂, ?_, ?_, ⟨c.join b, by simp, Nat.le_add_left _ _⟩,
        by simp; omega⟩
      · have hmod : c.size + b.size < 2 ^ 32 := by
          rw [units_append, units_cons, units_nil] at hunits
          omega
        unfold joinLower
        rw [lastNode_concat, hsize, if_pos (show c.addr + headerSize * c.size = _ from htouch),
          ha.sizes b (by simp), ha.next, Nat.mod_eq_of_lt hmod]
        exact ha.joined htouch
      · simpa using (glues_joins (Block.joins_join htouch)).within (spans L₁) (spans L₂)
    · refine hlinked ?_ fun d hd => ?_
      · rw [lastNode_concat, hsize]
        exact htouch
      · rcases mem_append.mp hd with hd | hd
        · have hdc := lt_of_separated ha.separated₁ hd mem_cons_self
          have hcb := ha.below c (by simp)
          have hc := c.addr_lt_stop
          omega
        · rwa [mem_singleton.mp hd]

end Around

/-! ## `free` -/

theorem joinLower_size {a : ℕ} (ha : a ≠ p) : (joinLower bp p h).size a = h.size a := by
  unfold joinLower
  split_ifs
  · simp [ha]
  · simp

theorem joinLower_sys (h : Heap K) : (joinLower bp p h).sys = h.sys := by
  unfold joinLower
  split_ifs <;> rfl

theorem joinUpper_sys (h : Heap K) : (joinUpper bp p h).sys = h.sys := by
  unfold joinUpper
  split_ifs <;> rfl

theorem free_keeps_sys (fuel ap : ℕ) :
    Prog.Keeps Heap.sys (free fuel ap : Prog (Stop E) (Heap K) Unit) := by
  refine keeps_bind keeps_get fun h => ?_
  cases freeLoop h (ap - headerSize) fuel h.freep with
  | none => exact keeps_panic _
  | some p =>
    exact keeps_bind (keeps_modify joinUpper_sys) fun _ =>
      keeps_bind (keeps_modify joinLower_sys) fun _ => keeps_modify fun _ => rfl

/-- **`free` puts a block that is apart from the others into the list**, and glues it to those it
touches. -/
theorem FreeList.free_ends {fuel : ℕ} (hf : FreeList base h L) (hsize : h.size b.addr = b.size)
    (hbase : base < b.addr) (hapart : ∀ c ∈ L, c.stop ≤ b.addr ∨ b.stop ≤ c.addr)
    (hunits : b.size + units L < 2 ^ 32) (hfuel : L.length < fuel) :
    (free fuel (b.addr + headerSize) : Prog (Stop E) (Heap K) Unit).Ends h (fun _ => False)
      fun _ h' => ∃ L', FreeList base h' L' ∧ Glues (spans (b :: L)) (spans L')
        ∧ (∃ c ∈ L', b.size ≤ c.size) ∧ L'.length ≤ L.length + 1 ∧ h'.sys = h.sys
        ∧ ∀ a, a ≠ b.addr → a ∉ base :: addrs L → h'.size a = h.size a := by
  obtain ⟨L₁, L₂, rfl, hrun, hbelow, habove⟩ := hf.freeLoop_finds hbase hapart hfuel
  obtain ⟨hl₁, hnext, hl₂⟩ := links_split.mp hf.links
  obtain ⟨hsep₁, hsep₂, -⟩ := separated_append.mp hf.separated
  rw [units_append] at hunits
  obtain ⟨b', L', hsuffix, hl', haddr, hle, hjoin, hsep', hglue, hunits'⟩ :=
    joinUpper_eq hsize hnext hl₂ (fun c hc => hf.sizes c (mem_append_right _ hc)) hbase habove
      hsep₂ (by omega)
  have hne₁ : ∀ c ∈ L₁, c.addr ≠ b.addr := fun c hc =>
    (c.addr_lt_stop.trans_le (hbelow c hc)).ne
  have hne₂ : ∀ c ∈ L', c.addr ≠ b.addr := fun c hc =>
    (b.addr_lt_stop.trans_le (habove c (hsuffix.subset hc))).ne'
  have hsub : ∀ c ∈ L₁ ++ L', c ∈ L₁ ++ L₂ := fun c hc =>
    (mem_append.mp hc).elim (mem_append_left _) fun hc =>
      mem_append_right _ (hsuffix.subset hc)
  -- the two parts of the list with the block that was joined with the upper one
  have haround : Around base (joinUpper b.addr (lastNode base L₁) h) L₁ b' L' := by
    rw [hjoin]
    refine ⟨?_, by rw [haddr]; simp, ?_, fun c hc => ?_, ?_, fun c hc => ?_, hsep₁, hsep',
      haddr ▸ hbelow⟩
    · refine links_first hl₁ ?_ fun a ha _ => ?_
      · have hsorted := hf.sorted
        rw [addrs_append, ← cons_append] at hsorted
        exact (pairwise_append.mp hsorted).1
      · have hne : a ≠ b.addr := by
          rcases mem_cons.mp ha with rfl | ha
          · exact hbase.ne
          · obtain ⟨c, hc, rfl⟩ := mem_addrs.mp ha
            exact hne₁ c hc
        simp [hne]
    · refine hl'.congr fun a ha => ?_
      obtain ⟨c, hc, rfl⟩ := mem_addrs.mp ha
      simp [hne₂ c hc]
    · rcases mem_append.mp hc with hc | hc
      · simpa [hne₁ c hc] using hf.sizes c (by simp [hc])
      · rcases mem_cons.mp hc with rfl | hc
        · simp [haddr]
        · simpa [hne₂ c hc] using hf.sizes c (hsub c (by simp [hc]))
    · simpa [hbase.ne] using hf.zero
    · rcases mem_append.mp hc with hc | hc
      · exact hf.above c (by simp [hc])
      · rcases mem_cons.mp hc with rfl | hc
        · rwa [haddr]
        · exact hf.above c (hsub c (by simp [hc]))
  obtain ⟨L, hf', hglue', ⟨c, hc, hcsize⟩, hlen⟩ := haround.joinLower_freeList (by omega)
  rw [haddr] at hf'
  have hend : (free fuel (b.addr + headerSize) : Prog (Stop E) (Heap K) Unit) h
      = .ok ((), (joinLower b.addr (lastNode base L₁)
        (joinUpper b.addr (lastNode base L₁) h)).setFreep (lastNode base L₁)) := by
    unfold free
    rw [Nat.add_sub_cancel, get_bind, hrun]
    rfl
  refine ends_of_ok hend ⟨L, hf', ?_, ⟨c, hc, hle.trans hcsize⟩, ?_,
    (free_keeps_sys _ _ h).of_ok hend, fun a ha hmem => ?_⟩
  · have hperm : (spans (b :: (L₁ ++ L₂))).Perm (spans L₁ ++ spans (b :: L₂) ++ []) := by
      rw [spans_cons, spans_append, spans_cons, append_nil]
      exact perm_middle.symm
    refine (Glues.of_perm hperm).trans ((hglue.within (spans L₁) []).trans ?_)
    simpa using hglue'
  · have hlen' := hsuffix.length_le
    rw [length_append]
    omega
  · have hne : a ≠ lastNode base L₁ := by
      rintro rfl
      rw [addrs_append, ← cons_append] at hmem
      exact hmem (mem_append_left _ lastNode_mem)
    rw [Heap.size_setFreep, joinLower_size hne, hjoin]
    simp [ha]

end

end Xv6.Umalloc
