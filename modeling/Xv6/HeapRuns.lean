import Xv6.HeapInvariant

/-!
# Runs of the allocator

A program calls `malloc` and `free` in any order, with any sizes, where `free` is given a pointer
that `malloc` returned before (`Client`). If `sbrk` answers each positive `int` with fresh memory,
or with -1, the heap stays sound: free and live blocks tile the memory obtained, and what a live
pointer points to is apart from everything else. This holds for less than 2³² units of memory: the
size of a block is a `uint`, and joining blocks wraps it around.
-/

open Prog hiding get modify panic result

namespace Xv6.Umalloc

open CircularList Spans List

variable {E K : Type}

/-! ## More steps -/

section

variable {h : Heap K} {fuel fuel' : ℕ}

theorem freeLoop_mono {bp k k' p q : ℕ} (hrun : freeLoop h bp k p = some q) (hle : k ≤ k') :
    freeLoop h bp k' p = some q := by
  induction k generalizing k' p with
  | zero => nomatch hrun
  | succ k ih =>
    obtain ⟨k', rfl⟩ : ∃ j, k' = j + 1 := ⟨k' - 1, by omega⟩
    unfold freeLoop at hrun ⊢
    split_ifs at hrun ⊢ with hstop
    · exact hrun
    · exact ih hrun (by omega)

theorem free_within (ap : ℕ) (hle : fuel ≤ fuel') :
    Within (free fuel ap : Prog (Stop E) (Heap K) Unit) (free fuel' ap) := by
  refine Within.bind (within_refl _) fun h => ?_
  cases hrun : freeLoop h (ap - headerSize) fuel h.freep with
  | none => exact within_panic _ _
  | some p =>
    rw [freeLoop_mono hrun hle]
    exact within_refl _

theorem morecore_within (sbrk : ℕ → Prog E K ℕ) (nu : ℕ) (hle : fuel ≤ fuel') :
    Within (morecore sbrk fuel nu) (morecore sbrk fuel' nu) :=
  .bind (within_refl _) fun _ => .ite (within_refl _)
    (.bind (within_refl _) fun _ => .bind (free_within _ hle) fun _ => within_refl _)

theorem mallocLoop_within (sbrk : ℕ → Prog E K ℕ) (n : ℕ) (hle : fuel ≤ fuel') {k k' : ℕ}
    (hk : k ≤ k') (prevp p : ℕ) :
    Within (mallocLoop sbrk fuel n k prevp p) (mallocLoop sbrk fuel' n k' prevp p) := by
  induction k generalizing k' prevp p with
  | zero => exact within_panic _ _
  | succ k ih =>
    obtain ⟨k', rfl⟩ : ∃ j, k' = j + 1 := ⟨k' - 1, by omega⟩
    have ih : ∀ prevp p, Within (mallocLoop sbrk fuel n k prevp p)
        (mallocLoop sbrk fuel' n k' prevp p) := ih (by omega)
    exact .bind (within_refl _) fun h => .ite (within_refl _)
      (.ite (.bind (morecore_within sbrk n hle) fun p => .ite (within_refl _)
        (.bind (within_refl _) fun h => ih p (h.next p))) (ih p (h.next p)))

/-- **A call that returns** returns the same if the searches may take more steps. -/
theorem malloc_within (base : ℕ) (sbrk : ℕ → Prog E K ℕ) (nbytes : ℕ) (hle : fuel ≤ fuel') :
    Within (malloc base sbrk fuel nbytes) (malloc base sbrk fuel' nbytes) :=
  .bind (within_refl _) fun _ => .bind (within_refl _) fun _ =>
    mallocLoop_within sbrk _ hle hle _ _

end

/-! ## Sequences of calls -/

/-- A call: `malloc`, or `free` of one of the live pointers. -/
inductive Call where
  | malloc (nbytes : UInt32)
  | free (i : ℕ)
deriving DecidableEq, Repr

/-- **A program that uses the allocator**: its heap, and the pointers it was given and has not
freed, each with the number of bytes it asked for. -/
structure Client (K : Type) where
  heap : Heap K
  live : List (ℕ × ℕ)

namespace Client

section

variable (base : ℕ) (sbrk : ℕ → Prog E K ℕ) (fuel : ℕ)

/-- One call. -/
def step : Call → Prog (Stop E) (Client K) Unit
  | .malloc nbytes => fun c =>
    match malloc base sbrk fuel nbytes.toNat c.heap with
    | .ok (r, h) => .ok ((), ⟨h, if r = 0 then c.live else (r, nbytes.toNat) :: c.live⟩)
    | .error e => .error e
  | .free i => fun c =>
    match c.live[i]? with
    | none => .ok ((), c)
    | some p =>
      match (free fuel p.1 : Prog (Stop E) (Heap K) Unit) c.heap with
      | .ok (_, h) => .ok ((), ⟨h, c.live.eraseIdx i⟩)
      | .error e => .error e

/-- A sequence of calls. -/
def run (calls : List Call) : Prog (Stop E) (Client K) Unit := calls.forM (step base sbrk fuel)

end

end Client

/-- **What is assumed of `sbrk`**: it answers each positive `int`. A run in which it is
called with another size ends there. -/
def Grants (base : ℕ) (got : K → Set ℕ) (sbrk : ℕ → Prog E K ℕ) : Prop :=
  ∀ bytes k, (sbrk bytes).Ends k (fun _ => ¬ bytes < 2 ^ 31) fun r k' =>
    bytes < 2 ^ 31 ∧ Answers base got k bytes r k'

/-- A block serves a pointer: the bytes asked for lie between its header and its end. -/
def Serves (b : Block) (p : ℕ × ℕ) : Prop := p.1 = b.addr + headerSize ∧ p.1 + p.2 ≤ b.stop

/-- **The bytes of a live pointer** are in the memory obtained, and apart from all headers, all free
blocks, and the other live ones. -/
structure Usable (base : ℕ) (L others : List Block) (S : Set ℕ) (b : Block) (p : ℕ × ℕ) : Prop where
  inside : Set.Ico p.1 (p.1 + p.2) ⊆ S
  apart_base : Disjoint (Set.Ico p.1 (p.1 + p.2)) (Set.Ico base (base + headerSize))
  apart_header : Disjoint (Set.Ico p.1 (p.1 + p.2)) (Set.Ico b.addr (b.addr + headerSize))
  apart_free : ∀ c ∈ L, Disjoint (Set.Ico p.1 (p.1 + p.2)) c.span.points
  apart_live : ∀ c ∈ others, Disjoint (Set.Ico p.1 (p.1 + p.2)) c.span.points

/-- **A sound heap**: nothing was allocated yet, or the blocks of the free list and those that serve
the live pointers tile the memory obtained. -/
def Sound (base : ℕ) (got : K → Set ℕ) (c : Client K) : Prop :=
  (c.heap.freep = 0 ∧ c.live = [] ∧ got c.heap.sys = ∅)
  ∨ ∃ L blocks, HeapInv base c.heap L blocks (got c.heap.sys) ∧ List.Forall₂ Serves blocks c.live
    ∧ ∀ l b l', blocks = l ++ b :: l' → ∀ p, Serves b p →
      Usable base L (l ++ l') (got c.heap.sys) b p

section

variable {base : ℕ} {got : K → Set ℕ} {sbrk : ℕ → Prog E K ℕ} {h : Heap K} {b : Block}
  {L live : List Block} {S : Set ℕ} {c c' : Client K} {fuel : ℕ}

theorem HeapInv.usable {l l' : List Block} {p : ℕ × ℕ} (hi : HeapInv base h L (l ++ b :: l') S)
    (hp : Serves b p) : Usable base L (l ++ l') S b p := by
  have hin : Set.Ico p.1 (p.1 + p.2) ⊆ b.span.points := fun x hx =>
    ⟨(Nat.le_add_right _ _).trans (hp.1 ▸ hx.1), hx.2.trans_le hp.2⟩
  have hmem : b ∈ L ++ (l ++ b :: l') := by simp
  have hinside := hin.trans (hi.span_subset hmem)
  refine ⟨hinside, ?_, ?_, fun c hc => ?_, fun c hc => ?_⟩
  · exact Set.disjoint_left.mpr fun x hx hx' => absurd hx'.2 (not_lt.mpr (hi.above x (hinside hx)))
  · exact Set.disjoint_left.mpr fun x hx hx' => absurd hx'.2 (not_lt.mpr (hp.1 ▸ hx.1))
  · exact (hi.disjoint hc (by simp)).symm.mono_left hin
  · have hpair := (hi.perm perm_middle).tiles.disjoint
    rw [spans_append, spans_cons] at hpair
    exact ((pairwise_cons.mp (pairwise_append.mp hpair).2.1).1 c.span
      (mem_map_of_mem hc)).mono_left hin

theorem nunits_pos {nbytes : ℕ} (hn : nbytes < 2 ^ 32) : 0 < nunits nbytes := by
  unfold nunits headerSize
  omega

theorem le_nunits {nbytes : ℕ} (hn : nbytes < 2 ^ 32) :
    headerSize + nbytes ≤ headerSize * nunits nbytes := by
  unfold nunits headerSize
  omega

theorem sound_of_inv {blocks : List Block} (hi : HeapInv base c.heap L blocks (got c.heap.sys))
    (hserves : List.Forall₂ Serves blocks c.live) : Sound base got c :=
  .inr ⟨L, blocks, hi, hserves, fun _ _ _ hl _ hp => (hl ▸ hi).usable hp⟩

theorem HeapInv.of_unused (hfreep : h.freep = 0) : HeapInv base (h.start base) [] [] ∅ := by
  unfold Heap.start
  rw [if_pos hfreep]
  refine ⟨⟨⟨?_, trivial⟩, forall_mem_nil _, ?_, forall_mem_nil _, List.Pairwise.nil,
    mem_cons_self⟩, forall_mem_nil _, Tiles.nil, fun x hx => hx.elim⟩
  · simp
  · simp

theorem Sound.start (hbase : 0 < base) (hc : Sound base got c) :
    ∃ L blocks, HeapInv base (c.heap.start base) L blocks (got c.heap.sys)
      ∧ List.Forall₂ Serves blocks c.live := by
  rcases hc with ⟨hfreep, hlive, hgot⟩ | ⟨L, blocks, hi, hserves, -⟩
  · rw [hlive, hgot]
    exact ⟨[], [], .of_unused hfreep, .nil⟩
  · refine ⟨L, blocks, ?_, hserves⟩
    unfold Heap.start
    rwa [if_neg (hi.freep_ne_zero hbase)]

/-! ## The memory obtained -/

theorem take_keeps_sys (n prevp p : ℕ) :
    Prog.Keeps Heap.sys (take n prevp p : Prog (Stop E) (Heap K) ℕ) :=
  keeps_bind keeps_get fun _ => keeps_ite
    (keeps_bind (keeps_modify fun _ => rfl) fun _ => keeps_pure _)
    (keeps_bind (keeps_modify fun _ => rfl) fun _ => keeps_pure _)

theorem Answers.subset {k k' : K} {bytes r : ℕ} (ha : Answers base got k bytes r k') :
    got k ⊆ got k' := by
  rcases ha with ⟨-, hgot⟩ | ⟨-, -, -, hgot⟩
  · exact hgot.ge
  · rw [hgot]
    exact Set.subset_union_right

/-- The call of `sbrk` by `morecore`, after which no memory is lost. -/
theorem morecore_grows (hs : Grants base got sbrk) (n : ℕ) (h : Heap K) :
    (morecore sbrk fuel n).Ends h (fun _ => True) fun _ h' =>
      ∃ a k, sbrk (coreUnits n * headerSize) h.sys = .ok (a, k) ∧ got k = got h'.sys
        ∧ got h.sys ⊆ got h'.sys := by
  unfold morecore
  have hsbrk := (Heap.onSys_ends (hs (coreUnits n * headerSize) h.sys).with_run).panic_mono
    fun _ _ => trivial
  refine ends_bind (hsbrk.mono ?_)
  rintro a _ ⟨k, rfl, ⟨-, ha⟩, hrun⟩
  split_ifs with hr
  · exact ends_pure ⟨a, k, hrun, rfl, ha.subset⟩
  · refine ends_bind (ends_modify (ends_bind ((free_keeps_sys _ _ _).mono ?_)))
    intro _ h' hsys
    refine ends_bind (ends_get (ends_pure ⟨a, k, hrun, ?_⟩))
    rw [hsys]
    exact ⟨rfl, ha.subset⟩

/-- The search of `malloc` loses no memory, in whatever state it is run. -/
theorem mallocLoop_grows (hs : Grants base got sbrk) (n k prevp p : ℕ) (h : Heap K) :
    (mallocLoop sbrk fuel n k prevp p).Ends h (fun _ => True) fun _ h' =>
      got h.sys ⊆ got h'.sys := by
  induction k generalizing prevp p h with
  | zero => exact ends_panic trivial
  | succ k ih =>
    refine ends_bind (ends_get ?_)
    split_ifs with hfit hfreep
    · exact (take_keeps_sys _ _ _ _).mono fun _ h' hsys => by rw [hsys]
    · refine ends_bind ((morecore_grows hs n h).mono ?_)
      rintro p' h' ⟨-, -, -, -, hsub⟩
      split_ifs with hp
      · exact ends_pure hsub
      · exact ends_bind (ends_get ((ih _ _ _).mono fun _ _ hsub' => hsub.trans hsub'))
    · exact ih _ _ _

/-- **If no block fits, `malloc` calls `sbrk`**, and what it obtains stays obtained. -/
theorem HeapInv.malloc_calls {nbytes r : ℕ} {h' : Heap K} (hs : Grants base got sbrk)
    (hi : HeapInv base (h.start base) L live S) (hn : 0 < nunits nbytes)
    (hnone : ∀ c ∈ L, c.size < nunits nbytes) (hfuel : L.length < fuel)
    (hrun : malloc base sbrk fuel nbytes h = .ok (r, h')) :
    ∃ a k, sbrk (coreUnits (nunits nbytes) * headerSize) h.sys = .ok (a, k)
      ∧ got k ⊆ got h'.sys := by
  rcases hi.free.mallocLoop_finds sbrk fuel hn hfuel with ⟨L₁, c, L₂, rfl, hfit, -⟩ | ⟨-, hloop⟩
  · exact absurd hfit (not_le.mpr (hnone c (by simp)))
  · have hmore : mallocMore sbrk fuel (nunits nbytes) (fuel - (L.length + 1)) (h.start base)
        = .ok (r, h') := hloop.symm.trans hrun
    obtain ⟨p, h₁, hcore, hrest⟩ := bind_ok.mp hmore
    obtain ⟨a, k, hsbrk, hk, -⟩ := (morecore_grows hs _ _).of_ok hcore
    rw [Heap.start_sys] at hsbrk
    refine ⟨a, k, hsbrk, hk ▸ ?_⟩
    split_ifs at hrest with hp
    · rw [(pure_ok.mp hrest).2]
    · exact (mallocLoop_grows hs _ _ _ _ _).of_ok hrest

theorem Grants.answers (hs : Grants base got sbrk) {bytes : ℕ} {k : K}
    (htotal : ∀ a k', sbrk bytes k = .ok (a, k') → (got k').encard < 2 ^ 36) :
    (sbrk bytes).Ends k (fun _ => True) fun r k' => Fresh base (got k) r
      ∧ (obtained (got k) bytes r).encard < 2 ^ 36 ∧ got k' = obtained (got k) bytes r := by
  refine (((hs _ _).with_run).panic_mono fun _ _ => trivial).mono ?_
  rintro a k' ⟨⟨-, ha⟩, hrun⟩
  obtain ⟨hfresh, hgot⟩ := answers_iff.mp ha
  exact ⟨hfresh, hgot ▸ htotal a k' hrun, hgot⟩

/-! ## Soundness -/

/-- The block that serves a pointer, and the others. -/
theorem exists_block {blocks : List Block} {ps : List (ℕ × ℕ)} {i : ℕ} {p : ℕ × ℕ}
    (hserves : List.Forall₂ Serves blocks ps) (hp : ps[i]? = some p) :
    ∃ b, Serves b p ∧ blocks.Perm (b :: blocks.eraseIdx i)
      ∧ List.Forall₂ Serves (blocks.eraseIdx i) (ps.eraseIdx i) := by
  induction hserves generalizing i with
  | nil => nomatch hp
  | @cons b q blocks ps hb hrest ih =>
    cases i with
    | zero =>
      obtain rfl : q = p := Option.some.inj hp
      exact ⟨b, hb, .refl _, hrest⟩
    | succ i =>
      obtain ⟨d, hd, hperm, herase⟩ := ih hp
      exact ⟨d, hd, (hperm.cons b).trans (.swap d b _), .cons hb herase⟩

/-- **`malloc` keeps a heap sound.** -/
theorem Sound.malloc_sound {nbytes : UInt32} {r : ℕ} {h' : Heap K} (hbase : 0 < base)
    (hs : Grants base got sbrk) (hc : Sound base got c)
    (hrun : malloc base sbrk fuel nbytes.toNat c.heap = .ok (r, h'))
    (htotal : (got h'.sys).encard < 2 ^ 36) :
    Sound base got ⟨h', if r = 0 then c.live else (r, nbytes.toNat) :: c.live⟩ := by
  obtain ⟨L, blocks, hi, hserves⟩ := hc.start hbase
  have hn := nunits_pos nbytes.toNat_lt
  have hfuel : 2 * L.length + 2 < max fuel (2 * L.length + 3) := by omega
  have hrun := malloc_within base sbrk nbytes.toNat
    (le_max_left fuel (2 * L.length + 3)) _ _ _ hrun
  have hends := hi.malloc_ends hbase hn (fun hnone => hs.answers fun a k hsbrk => by
    obtain ⟨a, k, hsbrk', hsub⟩ := hi.malloc_calls hs hn hnone (by omega) hrun
    obtain ⟨rfl, rfl⟩ := Prod.mk.inj (Except.ok.inj (hsbrk.symm.trans hsbrk'))
    exact (Set.encard_le_encard hsub).trans_lt htotal) hfuel
  have hret : Returned base (got h'.sys) blocks (nunits nbytes.toNat) r h' := by
    obtain ⟨-, -, hsys, hret⟩ | ⟨-, a, hgot, -, hret⟩ := hends.of_ok hrun
    · rwa [hsys]
    · rwa [hgot]
  obtain ⟨rfl, L', hi'⟩ | ⟨d, L', rfl, hd, hi'⟩ := hret
  · exact sound_of_inv hi' hserves
  · refine sound_of_inv hi' ?_
    have hne : d.addr + headerSize ≠ 0 := by unfold headerSize; omega
    have hle := le_nunits nbytes.toNat_lt
    show List.Forall₂ Serves (d :: blocks) (if d.addr + headerSize = 0 then c.live
      else (d.addr + headerSize, nbytes.toNat) :: c.live)
    rw [if_neg hne]
    refine .cons ⟨rfl, ?_⟩ hserves
    show d.addr + headerSize + nbytes.toNat ≤ d.addr + headerSize * d.size
    rw [hd]
    omega

/-- **`free` of a live pointer keeps a heap sound.** -/
theorem Sound.free_sound {i : ℕ} {p : ℕ × ℕ} {h' : Heap K} (hc : Sound base got c)
    (hp : c.live[i]? = some p)
    (hrun : (free fuel p.1 : Prog (Stop E) (Heap K) Unit) c.heap = .ok ((), h'))
    (htotal : (got h'.sys).encard < 2 ^ 36) : Sound base got ⟨h', c.live.eraseIdx i⟩ := by
  have hsys : h'.sys = c.heap.sys := (free_keeps_sys _ _ _).of_ok hrun
  rcases hc with ⟨-, hlive, -⟩ | ⟨L, blocks, hi, hserves, -⟩
  · rw [hlive] at hp
    nomatch hp
  · obtain ⟨b, hb, hperm, hserves⟩ := exists_block hserves hp
    rw [hsys] at htotal
    have hle := le_max_left fuel (L.length + 1)
    have hrun := free_within p.1 hle _ _ _ hrun
    rw [hb.1] at hrun
    obtain ⟨L', hi', -⟩ := ((hi.perm hperm).free_ends htotal (by omega)).of_ok hrun
    rw [← hsys] at hi'
    exact sound_of_inv hi' hserves

/-- What a call of the client is. -/
theorem Client.step_ok {call : Call} (hrun : Client.step base sbrk fuel call c = .ok ((), c')) :
    (∃ nbytes r, call = .malloc nbytes
        ∧ malloc base sbrk fuel nbytes.toNat c.heap = .ok (r, c'.heap)
        ∧ c'.live = if r = 0 then c.live else (r, nbytes.toNat) :: c.live)
    ∨ (∃ i, call = .free i ∧ c.live[i]? = none ∧ c' = c)
    ∨ ∃ i p, call = .free i ∧ c.live[i]? = some p
        ∧ (free fuel p.1 : Prog (Stop E) (Heap K) Unit) c.heap = .ok ((), c'.heap)
        ∧ c'.live = c.live.eraseIdx i := by
  cases call with
  | malloc nbytes =>
    unfold step at hrun
    cases hm : malloc base sbrk fuel nbytes.toNat c.heap with
    | ok x =>
      simp only [hm] at hrun
      obtain rfl := (Prod.mk.inj (Except.ok.inj hrun)).2
      exact .inl ⟨nbytes, x.1, rfl, hm, rfl⟩
    | error e =>
      simp only [hm] at hrun
      nomatch hrun
  | free i =>
    unfold step at hrun
    cases hp : c.live[i]? with
    | none =>
      simp only [hp] at hrun
      exact .inr (.inl ⟨i, rfl, hp, (Prod.mk.inj (Except.ok.inj hrun)).2.symm⟩)
    | some p =>
      cases hm : (free fuel p.1 : Prog (Stop E) (Heap K) Unit) c.heap with
      | ok x =>
        simp only [hp, hm] at hrun
        obtain rfl := (Prod.mk.inj (Except.ok.inj hrun)).2
        exact .inr (.inr ⟨i, p, rfl, hp, hm, rfl⟩)
      | error e =>
        simp only [hp, hm] at hrun
        nomatch hrun

/-- **A call keeps the heap sound**, and the memory obtained. -/
theorem Sound.step_sound {call : Call} (hbase : 0 < base) (hs : Grants base got sbrk)
    (hrun : Client.step base sbrk fuel call c = .ok ((), c')) :
    got c.heap.sys ⊆ got c'.heap.sys
      ∧ (Sound base got c → (got c'.heap.sys).encard < 2 ^ 36 → Sound base got c') := by
  obtain ⟨nbytes, r, -, hm, hlive⟩ | ⟨i, -, -, rfl⟩ | ⟨i, p, -, hp, hm, hlive⟩ :=
    Client.step_ok hrun
  · refine ⟨?_, fun hc htotal => ?_⟩
    · have hsub := (mallocLoop_grows hs _ _ _ _ (c.heap.start base)).of_ok hm
      rwa [Heap.start_sys] at hsub
    · have hsound := hc.malloc_sound hbase hs hm htotal
      rwa [← hlive] at hsound
  · exact ⟨subset_rfl, fun hc _ => hc⟩
  · refine ⟨?_, fun hc htotal => ?_⟩
    · rw [show c'.heap.sys = c.heap.sys from (free_keeps_sys _ _ _).of_ok hm]
    · have hsound := hc.free_sound hp hm htotal
      rwa [← hlive] at hsound

/-- **A sequence of calls keeps the heap sound.** -/
theorem Sound.run_sound {calls : List Call} (hbase : 0 < base) (hs : Grants base got sbrk)
    (hrun : Client.run base sbrk fuel calls c = .ok ((), c')) :
    got c.heap.sys ⊆ got c'.heap.sys
      ∧ (Sound base got c → (got c'.heap.sys).encard < 2 ^ 36 → Sound base got c') := by
  induction calls generalizing c with
  | nil =>
    obtain ⟨-, rfl⟩ := pure_ok.mp hrun
    exact ⟨subset_rfl, fun hc _ => hc⟩
  | cons call calls ih =>
    obtain ⟨_, c₁, hstep, hrest⟩ := bind_ok.mp hrun
    obtain ⟨hsub, hsound⟩ := Sound.step_sound hbase hs hstep
    obtain ⟨hsub', hsound'⟩ := ih hrest
    exact ⟨hsub.trans hsub', fun hc htotal =>
      hsound' (hsound hc ((Set.encard_le_encard hsub').trans_lt htotal)) htotal⟩

/-- **The loops of `malloc` end**, if `sbrk` leaves less than 2³² units in use. -/
theorem Sound.malloc_terminates {nbytes : UInt32} (hbase : 0 < base) (hs : Grants base got sbrk)
    (hc : Sound base got c)
    (htotal : ∀ a k, sbrk (coreUnits (nunits nbytes.toNat) * headerSize) c.heap.sys = .ok (a, k) →
      (got k).encard < 2 ^ 36) :
    ∃ bound, ∀ fuel ≥ bound, Client.step base sbrk fuel (.malloc nbytes) c ≠ .error .loops := by
  obtain ⟨L, blocks, hi, -⟩ := hc.start hbase
  refine ⟨2 * L.length + 3, fun fuel hfuel hloops => ?_⟩
  have hends := hi.malloc_ends hbase (nunits_pos nbytes.toNat_lt) (fun _ => hs.answers htotal) hfuel
  unfold Client.step at hloops
  cases hrun : malloc base sbrk fuel nbytes.toNat c.heap with
  | ok x =>
    simp only [hrun] at hloops
    nomatch hloops
  | error e =>
    simp only [hrun] at hloops
    obtain ⟨e', he, -⟩ := hends.of_error hrun
    exact nomatch he.symm.trans (Except.error.inj hloops)

/-- **The loop of `free` ends.** -/
theorem Sound.free_terminates {i : ℕ} (hc : Sound base got c)
    (htotal : (got c.heap.sys).encard < 2 ^ 36) :
    ∃ bound, ∀ fuel ≥ bound, Client.step base sbrk fuel (.free i) c ≠ .error .loops := by
  rcases hc with ⟨-, hlive, -⟩ | ⟨L, blocks, hi, hserves, -⟩
  · refine ⟨0, fun fuel _ hloops => ?_⟩
    unfold Client.step at hloops
    simp [hlive] at hloops
  · refine ⟨L.length + 1, fun fuel hfuel hloops => ?_⟩
    unfold Client.step at hloops
    cases hp : c.live[i]? with
    | none => simp [hp] at hloops
    | some p =>
      obtain ⟨b, hb, hperm, -⟩ := exists_block hserves hp
      obtain ⟨_, h', hrun, -⟩ : ∃ u h', (free fuel (b.addr + headerSize) :
          Prog (Stop E) (Heap K) Unit) c.heap = .ok (u, h') ∧ _ :=
        ((hi.perm hperm).free_ends htotal hfuel).exists_ok
      rw [← hb.1] at hrun
      simp [hp, hrun] at hloops

end

/-! ## A system with much memory -/

/-- A system that gives out memory from an address on, in the order of its addresses. Its state is
the number of bytes that it gave out. -/
def bump : ℕ → Prog Unit ℕ ℕ := fun bytes k =>
  if bytes < 2 ^ 31 then if k < 2 ^ 40 then .ok (4096 + k, k + bytes) else .ok (minusOne, k)
  else .error ()

/-- The memory it gave out. -/
def bumpGot (k : ℕ) : Set ℕ := Set.Ico 4096 (4096 + k)

theorem bump_grants : Grants 1024 bumpGot bump := by
  intro bytes k
  unfold Ends bump
  split_ifs with hbytes hk
  · refine ⟨hbytes, .inr ⟨?_, ?_, fun x hx => hx.2, ?_⟩⟩
    · unfold minusOne
      omega
    · unfold headerSize
      omega
    · unfold bumpGot
      rw [Set.union_comm, Set.Ico_union_Ico_eq_Ico (by omega) (by omega), add_assoc]
  · exact ⟨hbytes, .inl ⟨rfl, rfl⟩⟩
  · exact hbytes

/-- Memory that was not used yet. -/
def unused : Client ℕ := ⟨⟨fun _ => ⟨0, 0⟩, 0, 0⟩, []⟩

theorem encard_bumpGot (k : ℕ) : (bumpGot k).encard = k := by
  unfold bumpGot
  rw [← Finset.coe_Ico, Set.encard_coe_eq_coe_finsetCard, Nat.card_Ico, Nat.add_sub_cancel_left]

section

variable {base : ℕ} {got : K → Set ℕ} {sbrk : ℕ → Prog E K ℕ} {h : Heap K} {c : Client K} {fuel : ℕ}

/-- **The heap stays sound, and the loops end**, over every sequence of calls that obtains less than
2³⁶ bytes. -/
theorem heap_stays_sound {calls : List Call} (hbase : 0 < base) (hs : Grants base got sbrk)
    (hfreep : h.freep = 0) (hgot : got h.sys = ∅)
    (hrun : Client.run base sbrk fuel calls ⟨h, []⟩ = .ok ((), c))
    (htotal : (got c.heap.sys).encard < 2 ^ 36) :
    Sound base got c
    ∧ (∀ nbytes : UInt32,
      (∀ a k, sbrk (coreUnits (nunits nbytes.toNat) * headerSize) c.heap.sys = .ok (a, k) →
        (got k).encard < 2 ^ 36) →
      ∃ bound, ∀ fuel ≥ bound, Client.step base sbrk fuel (.malloc nbytes) c ≠ .error .loops)
    ∧ ∀ i, ∃ bound, ∀ fuel ≥ bound, Client.step base sbrk fuel (.free i) c ≠ .error .loops := by
  have hsound := (Sound.run_sound hbase hs hrun).2 (.inl ⟨hfreep, rfl, hgot⟩) htotal
  exact ⟨hsound, fun _ hsbrk => hsound.malloc_terminates hbase hs hsbrk,
    fun _ => hsound.free_terminates htotal⟩

end

/-- Two requests, of which the first is freed. -/
theorem heap_stays_sound_two : ∃ c : Client ℕ,
    Client.run 1024 bump 10 [.malloc 100, .malloc 5000, .free 1] unused = .ok ((), c)
      ∧ c.live.length = 1 ∧ Sound 1024 bumpGot c := by
  have hends : Ends (Client.run 1024 bump 10 [.malloc 100, .malloc 5000, .free 1]) unused
      (fun _ => False) fun _ c => c.live.length = 1 ∧ c.heap.sys = 65536 := by decide +kernel
  obtain ⟨_, c, hrun, hlive, hsys⟩ := hends.exists_ok
  refine ⟨c, hrun, hlive, (heap_stays_sound (by decide) bump_grants rfl ?_ hrun ?_).1⟩
  · exact Set.Ico_self _
  · rw [hsys, encard_bumpGot]
    decide

/-- The one block of a free list with one block. -/
theorem FreeList.eq_singleton {base a : ℕ} {h : Heap K} {L : List Block} (hf : FreeList base h L)
    (hne : a ≠ base) (hfirst : h.next base = a) (hlast : h.next a = base) :
    ∃ b, L = [b] ∧ b.addr = a := by
  have hhead : h.next base = headNode base L := (links_cons.mp hf.links).1
  cases L with
  | nil => exact absurd (hfirst.symm.trans hhead) hne
  | cons b L =>
    have hb : b.addr = a := (hfirst.symm.trans hhead).symm
    cases L with
    | nil => exact ⟨b, rfl, hb⟩
    | cons d L =>
      have hnext : h.next b.addr = d.addr := (links_cons.mp (links_cons.mp hf.links).2).1
      rw [hb, hlast] at hnext
      exact absurd hnext (hf.above d (by simp)).ne

/-- **33 blocks of 2³¹ - 16 bytes**, freed from the lowest to the highest: their sizes add up to
more than a `uint` holds. -/
theorem heap_size_wraps : ∃ c : Client ℕ, Grants 1024 bumpGot bump
    ∧ Client.run 1024 bump 40 (replicate 33 (.malloc (2 ^ 31 - 32))
      ++ (range 33).reverse.map .free) unused = .ok ((), c)
    ∧ ¬ Sound 1024 bumpGot c := by
  obtain ⟨_, c, hrun, hlive, hsys, hfreep, hfirst, hlast, hsize⟩ := Ends.exists_ok
    (m := Client.run 1024 bump 40 (replicate 33 (.malloc (2 ^ 31 - 32))
      ++ (range 33).reverse.map .free)) (s := unused)
    (Q := fun _ c => c.live = [] ∧ c.heap.sys = 33 * (2 ^ 31 - 16) ∧ c.heap.freep = 4096
      ∧ c.heap.next 1024 = 4096 ∧ c.heap.next 4096 = 1024
      ∧ c.heap.size 4096 = 33 * (2 ^ 27 - 1) - 2 ^ 32) (by decide +kernel)
  refine ⟨c, bump_grants, hrun, ?_⟩
  rintro (⟨hzero, -⟩ | ⟨L, blocks, hi, hserves, -⟩)
  · rw [hfreep] at hzero
    exact absurd hzero (by decide)
  · obtain ⟨b, rfl, hb⟩ := hi.free.eq_singleton (by decide) hfirst hlast
    rw [hlive] at hserves
    cases hserves
    have hcard := hi.encard_eq
    rw [hsys, encard_bumpGot] at hcard
    have hunits : 33 * (2 ^ 31 - 16) = headerSize * units ([b] ++ []) := by exact_mod_cast hcard
    rw [append_nil, units_cons, units_nil, ← hi.free.sizes b mem_cons_self, hb, hsize]
      at hunits
    exact absurd hunits (by decide)

/-! ## The order of frees -/

/-- `free` of one block after the other. -/
def freeAll (fuel : ℕ) (blocks : List Block) : Prog (Stop E) (Heap K) Unit :=
  blocks.forM fun b => free fuel (b.addr + headerSize)

theorem Block.span_injective : Function.Injective Block.span := fun b c h => by
  have hlo : b.addr = c.addr := congrArg Span.lo h
  have hhi : b.addr + headerSize * b.size = c.addr + headerSize * c.size := congrArg Span.hi h
  unfold headerSize at hhi
  exact Block.ext hlo (by omega)

section

variable {base : ℕ} {h h' : Heap K} {L L' live l l' rest : List Block} {S : Set ℕ} {fuel : ℕ}

/-- **The free list is determined by the live blocks** and the memory obtained. -/
theorem HeapInv.unique (hi : HeapInv base h L live S) (hi' : HeapInv base h' L' live S) :
    L = L' := by
  have hpoints : ∀ {h : Heap K} {L : List Block}, HeapInv base h L live S →
      points (spans L) = S \ points (spans live) := fun {h L} hi => by
    have hdisj : Disjoint (points (spans L)) (points (spans live)) := by
      refine Set.disjoint_left.mpr ?_
      rintro x ⟨_, hs, hx⟩ ⟨_, ht, hx'⟩
      obtain ⟨b, hb, rfl⟩ := mem_map.mp hs
      obtain ⟨c, hc, rfl⟩ := mem_map.mp ht
      exact Set.disjoint_left.mp (hi.disjoint hb hc) hx hx'
    rw [← hi.tiles.points, spans_append, points_append, Set.union_sdiff_right, hdisj.sdiff_eq_left]
  exact map_injective_iff.mpr Block.span_injective
    (hi.free.separated.eq_of_points hi'.free.separated ((hpoints hi).trans (hpoints hi').symm))

theorem HeapInv.freeAll_ends (hi : HeapInv base h L (l ++ rest) S) (hS : S.encard < 2 ^ 36)
    (hfuel : L.length + l.length < fuel) :
    (freeAll fuel l : Prog (Stop E) (Heap K) Unit).Ends h (fun _ => False) fun _ h' =>
      ∃ L', HeapInv base h' L' rest S := by
  induction l generalizing h L with
  | nil => exact ends_pure ⟨L, hi⟩
  | cons b l ih =>
    rw [length_cons] at hfuel
    refine ends_bind ((hi.free_ends hS (by omega)).mono ?_)
    rintro _ h' ⟨L', hi', -, hlen, -⟩
    exact ih hi' (by omega)

/-- **The order in which blocks are freed does not matter**: the free list that is left is the same.
If no block stays live, each interval of the memory obtained is in one free block. -/
theorem free_order_independent (hi : HeapInv base h L live S) (hS : S.encard < 2 ^ 36)
    (hl : (l ++ rest).Perm live) (hl' : (l' ++ rest).Perm live) :
    ∃ M : List Block,
      (∃ bound, ∀ fuel ≥ bound, ∃ h₁ h₂ : Heap K,
        (freeAll fuel l : Prog (Stop E) (Heap K) Unit) h = .ok ((), h₁)
        ∧ (freeAll fuel l' : Prog (Stop E) (Heap K) Unit) h = .ok ((), h₂)
        ∧ HeapInv base h₁ M rest S ∧ HeapInv base h₂ M rest S)
      ∧ (rest = [] → points (spans M) = S
        ∧ ∀ x y, x < y → Set.Ico x y ⊆ S → ∃ b ∈ M, Set.Ico x y ⊆ b.span.points) := by
  have hrun : ∀ {l : List Block}, (l ++ rest).Perm live → ∀ fuel, L.length + live.length < fuel →
      ∃ h' M, (freeAll fuel l : Prog (Stop E) (Heap K) Unit) h = .ok ((), h')
        ∧ HeapInv base h' M rest S := fun {l} hl fuel hfuel => by
    have hlen := hl.length_eq
    rw [length_append] at hlen
    obtain ⟨_, h', hrun, M, hi'⟩ := ((hi.perm hl.symm).freeAll_ends hS
      (by omega : L.length + l.length < fuel)).exists_ok
    exact ⟨h', M, hrun, hi'⟩
  obtain ⟨h₀, M, -, hi₀⟩ := hrun hl _ (Nat.lt_succ_self _)
  refine ⟨M, ⟨L.length + live.length + 1, fun fuel hfuel => ?_⟩, ?_⟩
  · obtain ⟨h₁, M₁, hrun₁, hi₁⟩ := hrun hl fuel hfuel
    obtain ⟨h₂, M₂, hrun₂, hi₂⟩ := hrun hl' fuel hfuel
    obtain rfl := hi₀.unique hi₁
    obtain rfl := hi₀.unique hi₂
    exact ⟨h₁, h₂, hrun₁, hrun₂, hi₁, hi₂⟩
  · rintro rfl
    have hpoints : points (spans M) = S := by
      have hpoints := hi₀.tiles.points
      rwa [append_nil] at hpoints
    refine ⟨hpoints, fun x y hlt hsub => ?_⟩
    obtain ⟨_, hs, hin⟩ := hi₀.free.separated.exists_span hlt (hpoints ▸ hsub)
    obtain ⟨b, hb, rfl⟩ := mem_map.mp hs
    exact ⟨b, hb, hin⟩

end

/-- Blocks of `n` units, one after the other. -/
def regions (n m : ℕ) (hn : 0 < n) : List Block :=
  (range m).map fun i => ⟨4096 + i * (headerSize * n), n, hn⟩

/-- A heap of which all is allocated, in blocks of `n` units. -/
def allLive (n : ℕ) : Heap Unit := ⟨fun a => if a = 1024 then ⟨1024, 0⟩ else ⟨0, n⟩, 1024, ()⟩

theorem allLive_inv {n : ℕ} (m : ℕ) (hn : 0 < n) :
    HeapInv 1024 (allLive n) [] (regions n m hn) (points (spans (regions n m hn))) := by
  have habove : ∀ b ∈ regions n m hn, 4096 ≤ b.addr ∧ b.size = n := fun b hb => by
    obtain ⟨i, -, rfl⟩ := mem_map.mp hb
    exact ⟨Nat.le_add_right _ _, rfl⟩
  refine ⟨⟨⟨rfl, trivial⟩, forall_mem_nil _, rfl, forall_mem_nil _, List.Pairwise.nil,
    mem_cons_self⟩, fun b hb => ?_, ⟨?_, rfl⟩, ?_⟩
  · obtain ⟨hlo, hsize⟩ := habove b hb
    have hne : b.addr ≠ 1024 := by omega
    show (if b.addr = 1024 then _ else _ : Header).size = _
    rw [if_neg hne, hsize]
  · unfold regions spans
    rw [nil_append, map_map, pairwise_map]
    refine pairwise_lt_range.imp fun {i j} hij => Set.disjoint_left.mpr fun x hx hx' => ?_
    have hle : 4096 + i * (headerSize * n) + headerSize * n ≤ 4096 + j * (headerSize * n) := by
      have := Nat.mul_le_mul_right (headerSize * n) (Nat.succ_le_of_lt hij)
      rw [Nat.succ_mul] at this
      omega
    exact absurd (hx.2.trans_le hle) (not_lt.mpr hx'.1)
  · rintro x ⟨_, hs, hx⟩
    obtain ⟨b, hb, rfl⟩ := mem_map.mp hs
    have hlo := (habove b hb).1
    have hx : b.addr ≤ x := hx.1
    unfold headerSize
    omega

/-- Three blocks of 2 units, freed upwards and downwards. -/
theorem free_order_independent_three : ∃ M : List Block,
    (∃ bound, ∀ fuel ≥ bound, ∃ h₁ h₂ : Heap Unit,
      (freeAll fuel (regions 2 3 two_pos) : Prog (Stop Unit) _ _) (allLive 2) = .ok ((), h₁)
      ∧ (freeAll fuel (regions 2 3 two_pos).reverse : Prog (Stop Unit) _ _) (allLive 2)
        = .ok ((), h₂)
      ∧ FreeList 1024 h₁ M ∧ FreeList 1024 h₂ M) := by
  have hi := allLive_inv 3 two_pos
  have hS : (points (spans (regions 2 3 two_pos))).encard < 2 ^ 36 := by
    rw [hi.encard_eq]
    decide
  have hl : (regions 2 3 two_pos ++ []).Perm (regions 2 3 two_pos) := by rw [append_nil]
  have hl' : ((regions 2 3 two_pos).reverse ++ []).Perm (regions 2 3 two_pos) := by
    rw [append_nil]
    exact reverse_perm _
  obtain ⟨M, ⟨bound, hrun⟩, -⟩ := free_order_independent (E := Unit) hi hS hl hl'
  refine ⟨M, bound, fun fuel hfuel => ?_⟩
  obtain ⟨h₁, h₂, hrun₁, hrun₂, hi₁, hi₂⟩ := hrun fuel hfuel
  exact ⟨h₁, h₂, hrun₁, hrun₂, hi₁.free, hi₂.free⟩

theorem unitsMax_pos : 0 < 2 ^ 27 - 1 := by decide

/-- **34 blocks of 2²⁷ - 1 units**: freed upwards, the size of the lower 33 wraps around and the
last one does not touch them any more; freed downwards, all are joined, and the size wraps
around. -/
theorem free_order_wraps : ∃ (live : List Block) (S : Set ℕ) (h h₁ h₂ : Heap Unit)
    (M₁ M₂ : List Block), HeapInv 1024 h [] live S
    ∧ (freeAll 40 live : Prog (Stop Unit) (Heap Unit) Unit) h = .ok ((), h₁)
    ∧ (freeAll 40 live.reverse : Prog (Stop Unit) (Heap Unit) Unit) h = .ok ((), h₂)
    ∧ FreeList 1024 h₁ M₁ ∧ FreeList 1024 h₂ M₂ ∧ M₁ ≠ M₂ := by
  obtain ⟨_, h₁, hrun₁, hfreep, hnext, hnext', hnext'', hzero, hsize, hsize'⟩ := Ends.exists_ok
    (E := Stop Unit) (m := freeAll 40 (regions (2 ^ 27 - 1) 34 unitsMax_pos))
    (s := allLive (2 ^ 27 - 1)) (Q := fun _ h => h.freep = 4096 ∧ h.next 1024 = 4096
      ∧ h.next 4096 = 4096 + 33 * (2 ^ 31 - 16) ∧ h.next (4096 + 33 * (2 ^ 31 - 16)) = 1024
      ∧ h.size 1024 = 0 ∧ h.size 4096 = 2 ^ 27 - 33
      ∧ h.size (4096 + 33 * (2 ^ 31 - 16)) = 2 ^ 27 - 1) (by decide +kernel)
  obtain ⟨_, h₂, hrun₂, hfreep₂, hnext₂, hnext₂', hzero₂, hsize₂⟩ := Ends.exists_ok
    (E := Stop Unit) (m := freeAll 40 (regions (2 ^ 27 - 1) 34 unitsMax_pos).reverse)
    (s := allLive (2 ^ 27 - 1)) (Q := fun _ h => h.freep = 1024 ∧ h.next 1024 = 4096
      ∧ h.next 4096 = 1024 ∧ h.size 1024 = 0 ∧ h.size 4096 = 2 ^ 28 - 34) (by decide +kernel)
  refine ⟨_, _, _, h₁, h₂,
    [⟨4096, 2 ^ 27 - 33, by decide⟩, ⟨4096 + 33 * (2 ^ 31 - 16), 2 ^ 27 - 1, unitsMax_pos⟩],
    [⟨4096, 2 ^ 28 - 34, by decide⟩], allLive_inv 34 unitsMax_pos, hrun₁, hrun₂, ?_, ?_, by decide⟩
  · refine ⟨⟨hnext, hnext', hnext'', trivial⟩, ?_, hzero, ?_, ?_, ?_⟩
    · exact forall_mem_cons.mpr
        ⟨hsize, forall_mem_cons.mpr ⟨hsize', forall_mem_nil _⟩⟩
    · simp
    · exact separated_cons.mpr ⟨by simp [Block.stop, headerSize], pairwise_singleton _ _⟩
    · rw [hfreep]
      simp
  · refine ⟨⟨hnext₂, hnext₂', trivial⟩, ?_, hzero₂, ?_, pairwise_singleton _ _, ?_⟩
    · simp [hsize₂]
    · simp
    · rw [hfreep₂]
      simp

end Xv6.Umalloc
