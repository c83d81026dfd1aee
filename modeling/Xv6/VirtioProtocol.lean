import Xv6.Virtio

/-!
# The protocol between the virtio driver and the device

A request goes through three phases between the moment it is published and
the moment its caller goes on (`Phase`): its head is on the way to the device
(`queued`), it has been executed and its head is on the way back (`returned`),
or the interrupt handler has seen it and cleared `b->disk`. The two rings and
the device's own lists are only the places where heads are on their way; what
each step does to them is one of three moves of one head, or nothing.

The invariant (`Inv`) says which process owns which descriptors and in which
phase the request of each process is. A head that is on its way belongs to a
process that waits for it, and no head is on its way twice; so there are never
more than `NUM` of them, the rings cannot overflow, and the 16-bit counters
can be compared although they wrap.
-/

open Function Multiset

open Prog hiding get modify panic result

namespace Xv6.Virtio

open RingQueue

variable {P H B : Type}

/-! ## Places -/

variable {r : Rw B} {ch : Chain} {k : ℕ}

namespace Pc

/-- The process holds `vdisk_lock`. -/
def locked : Pc B → Bool
  | .out | .enter _ | .sleepFree _ | .sleepBuf _ _ _ => false
  | .alloc _ | .format _ _ | .ring _ _ | .publish _ _ | .wait _ _ _ | .clear _ _ _
  | .freeChain _ _ _ _ | .leave _ _ => true

/-- The descriptors a process has allocated and not freed. -/
def owned : Pc B → List (Fin NUM)
  | .out | .enter _ | .sleepFree _ | .alloc _ | .leave _ _ => []
  | .format _ c | .ring _ c | .publish _ c | .wait _ c _ | .sleepBuf _ c _ | .clear _ c _ =>
    c.toList
  | .freeChain _ _ _ todo => todo

/-- The number of the request a process has published. -/
def ticket : Pc B → Option ℕ
  | .out | .enter _ | .sleepFree _ | .alloc _ | .format _ _ | .ring _ _ | .publish _ _ => none
  | .wait _ _ k | .sleepBuf _ _ k | .clear _ _ k | .freeChain _ k _ _ | .leave _ k => some k

/-- The descriptors of the request a process has in flight. -/
def chain : Pc B → Option Chain
  | .out | .enter _ | .sleepFree _ | .alloc _ | .freeChain _ _ _ _ | .leave _ _ => none
  | .format _ c | .ring _ c | .publish _ c | .wait _ c _ | .sleepBuf _ c _ | .clear _ c _ => some c

/-- The process has descriptors: it is somewhere between its allocation and
the end of `free_chain`. -/
def inFlight : Pc B → Bool
  | .out | .enter _ | .sleepFree _ | .alloc _ | .leave _ _ => false
  | .format _ _ | .ring _ _ | .publish _ _ | .wait _ _ _ | .sleepBuf _ _ _ | .clear _ _ _
  | .freeChain _ _ _ _ => true

theorem owned_of_chain {c : Pc B} (h : c.chain = some ch) : c.owned = ch.toList := by
  cases c with
  | out | enter | sleepFree | alloc | freeChain | leave => nomatch h
  | format | ring | publish | wait | sleepBuf | clear =>
    exact congrArg Chain.toList (Option.some.inj h)

theorem owned_of_not_inFlight {c : Pc B} (h : c.inFlight = false) : c.owned = [] := by
  cases c with
  | out | enter | sleepFree | alloc | leave => rfl
  | format | ring | publish | wait | sleepBuf | clear | freeChain => nomatch h

/-- The process waits for its request. -/
inductive Waits : Pc B → Rw B → Chain → ℕ → Prop
  | wait {r : Rw B} {c : Chain} {k : ℕ} : Waits (.wait r c k) r c k
  | sleepBuf {r : Rw B} {c : Chain} {k : ℕ} : Waits (.sleepBuf r c k) r c k

theorem Waits.unique {c : Pc B} {r r' : Rw B} {ch ch' : Chain} {k k' : ℕ}
    (h : c.Waits r ch k) (h' : c.Waits r' ch' k') : r = r' ∧ ch = ch' ∧ k = k' := by
  cases h <;> cases h' <;> exact ⟨rfl, rfl, rfl⟩

/-- The process is past the loop that waits for its request. -/
inductive Past : Pc B → Rw B → ℕ → Prop
  | clear {r : Rw B} {c : Chain} {k : ℕ} : Past (.clear r c k) r k
  | freeChain {r : Rw B} {k i : ℕ} {todo : List (Fin NUM)} : Past (.freeChain r k i todo) r k
  | leave {r : Rw B} {k : ℕ} : Past (.leave r k) r k

theorem Waits.head_mem {c : Pc B} (h : c.Waits r ch k) :
    ch.head ∈ c.owned := by
  cases h <;> exact List.mem_cons_self

theorem Waits.buf_eq {c : Pc B} (h : c.Waits r ch k) :
    c.buf = some r.b := by
  cases h <;> rfl

theorem Waits.ticket_eq {c : Pc B} (h : c.Waits r ch k) :
    c.ticket = some k := by
  cases h <;> rfl

end Pc

/-! ## Allocating and freeing descriptors -/

variable {d : Disk B} {i : Fin NUM}

namespace Disk

/-- What is left alone when descriptors are allocated and freed. -/
structure Keeps (d d' : Disk B) : Prop where
  avail : d'.avail = d.avail
  used : d'.used = d.used
  usedIdx : d'.usedIdx = d.usedIdx
  info : d'.info = d.info
  ops : d'.ops = d.ops

theorem allocDesc_ends {E : Fault → Prop} {Q : Option (Fin NUM) → Disk B → Prop}
    (hnone : Q none d)
    (hsome : ∀ i, d.free i = true →
      Q (some i) { d with free := update d.free i false }) :
    Ends allocDesc d E Q := by
  refine ends_bind (ends_get ?_)
  cases h : (List.finRange NUM).find? d.free with
  | none => exact hnone
  | some i => exact hsome i (List.find?_some h)

theorem freeDesc_ok (h : d.free i = false) :
    freeDesc i d = .ok ((), { d with
      desc := update d.desc i ⟨.null, 0, 0, 0⟩
      free := update d.free i true }) := by
  unfold freeDesc
  rw [get_bind, dif_pos i.isLt, if_neg (by rw [h]; exact Bool.false_ne_true)]
  rfl

theorem free_of_update {f : Fin NUM → Bool} {i j : Fin NUM}
    (h : update f i false j = true) : j ≠ i ∧ f j = true := by
  have hne : j ≠ i := by
    rintro rfl
    exact nomatch h.symm.trans (update_self _ _ _)
  exact ⟨hne, by rwa [update_of_ne hne] at h⟩

/-- What an allocation of three descriptors does. -/
def Allocates (d : Disk B) : Option Chain → Disk B → Prop
  | none, d' => Keeps d d' ∧ d'.free = d.free ∧ ∀ i, d.free i = false → d'.desc i = d.desc i
  | some c, d' => Keeps d d' ∧ d'.desc = d.desc ∧ c.toList.Nodup
    ∧ (∀ i ∈ c.toList, d.free i = true)
    ∧ ∀ i, d'.free i = false ↔ i ∈ c.toList ∨ d.free i = false

/-- **Three descriptors, or none**, and no panic. -/
theorem alloc3Desc_ends (d : Disk B) :
    Ends alloc3Desc d (fun _ => False) (Allocates d) := by
  refine ends_bind (allocDesc_ends ?_ fun i hi => ?_)
  · exact ⟨⟨rfl, rfl, rfl, rfl, rfl⟩, rfl, fun _ _ => rfl⟩
  have hne : ∀ {a : Fin NUM}, d.free a = true → ∀ j, d.free j = false → j ≠ a := by
    rintro a ha j hj rfl
    exact nomatch ha.symm.trans hj
  refine ends_bind (allocDesc_ends ?_ fun j hj => ?_)
  · -- the first is given back
    refine ends_bind (ends_of_ok (freeDesc_ok (update_self _ _ _)) ?_)
    refine ⟨⟨rfl, rfl, rfl, rfl, rfl⟩, ?_, fun j hj => update_of_ne (hne hi j hj) _ _⟩
    show update (update d.free i false) i true = d.free
    rw [update_idem, ← hi, update_eq_self]
  obtain ⟨hji, hj₀⟩ := free_of_update hj
  refine ends_bind (allocDesc_ends ?_ fun k hk => ?_)
  · -- the first two are given back
    have hfree : update (update d.free i false) j false i = false := by
      rw [update_of_ne hji.symm, update_self]
    refine ends_bind (ends_of_ok (freeDesc_ok hfree) ?_)
    have hfree' : update (update (update d.free i false) j false) i
        true j = false := by
      rw [update_of_ne hji, update_self]
    refine ends_bind (ends_of_ok (freeDesc_ok hfree') ?_)
    refine ⟨⟨rfl, rfl, rfl, rfl, rfl⟩, ?_, fun k hk => ?_⟩
    · show update (update (update (update d.free i false) j
        false) i true) j true = d.free
      rw [update_comm hji.symm, update_idem, update_comm hji,
        update_idem, ← hi, update_eq_self, hi, ← hj₀, update_eq_self]
    · show update (update d.desc i _) j _ k = d.desc k
      rw [update_of_ne (hne hj₀ k hk), update_of_ne (hne hi k hk)]
  obtain ⟨hkj, hk⟩ := free_of_update hk
  obtain ⟨hki, hk⟩ := free_of_update hk
  refine ⟨⟨rfl, rfl, rfl, rfl, rfl⟩, rfl, ?_, ?_, fun l => ?_⟩
  · simp [Chain.toList, hji.symm, hkj.symm, hki.symm]
  · simp [Chain.toList, hi, hj₀, hk]
  · show update (update (update d.free i false) j false) k false l
      = false ↔ _
    simp only [update_apply, Chain.toList, List.mem_cons, List.not_mem_nil, or_false]
    grind

end Disk

/-! ## Heads on their way -/

namespace State

/-- The heads on the way to the device. -/
def queued (s : State P H B) : Multiset (Fin NUM) :=
  (contents s.disk.avail.ring s.dev.last s.disk.avail.idx : Multiset (Fin NUM))
    + (s.dev.pending : Multiset (Fin NUM))

/-- The heads on the way back. -/
def returned (s : State P H B) : Multiset (Fin NUM) :=
  (s.dev.executed : Multiset (Fin NUM))
    + (contents s.disk.used.ring s.disk.usedIdx s.dev.fill : Multiset (Fin NUM))

end State

theorem Disk.Keeps.queued_eq {s s' : State P H B} (h : s.disk.Keeps d) (hdisk : s'.disk = d)
    (hdev : s'.dev = s.dev) : s'.queued = s.queued := by
  unfold State.queued
  rw [hdisk, hdev, h.avail]

/-! ## What a process knows -/

section Knows

variable (blockno : B → BitVec 32)

/-- The descriptors of a chain as they are while its request is being
served. -/
structure Formatted (d : Disk B) (r : Rw B) (c : Chain) : Prop where
  ops : d.ops c.head
    = ⟨if r.write then VIRTIO_BLK_T_OUT else VIRTIO_BLK_T_IN, 0, Disk.sector blockno r.b⟩
  head : d.desc c.head = ⟨.op c.head, 16, VRING_DESC_F_NEXT, c.data⟩
  data : d.desc c.data = ⟨.data r.b, BitVec.ofNat 32 BSIZE,
    (if r.write then 0 else VRING_DESC_F_WRITE) ||| VRING_DESC_F_NEXT, c.status⟩
  status : d.desc c.status = ⟨.status c.head, 1, VRING_DESC_F_WRITE, 0⟩
  info : (d.info c.head).b = some r.b

/-- The descriptors are chained in this order, and the last one is the end of
the chain. -/
def Linked (desc : Fin NUM → Desc B) : List (Fin NUM) → Prop
  | [] => False
  | [i] => (desc i).hasNext = false
  | i :: j :: l => (desc i).hasNext = true ∧ (desc i).next = j ∧ Linked desc (j :: l)

variable {blockno}

theorem Disk.follow_of {i j : Fin NUM} (hj : (d.desc i).next = j)
    (hnext : (d.desc i).hasNext = true) : d.follow i = some j := by
  have hlt : (d.desc i).next < NUM := hj ▸ j.isLt
  unfold Disk.follow
  rw [dif_pos hlt, if_pos hnext]
  exact congrArg some (Fin.ext hj)

theorem Formatted.head_next {c : Chain} (h : Formatted blockno d r c) :
    (d.desc c.head).hasNext = true := by
  rw [h.head]
  show (VRING_DESC_F_NEXT &&& VRING_DESC_F_NEXT != 0) = true
  decide

theorem Formatted.data_next {c : Chain} (h : Formatted blockno d r c) :
    (d.desc c.data).hasNext = true := by
  rw [h.data]
  show (((if r.write = true then 0 else VRING_DESC_F_WRITE) ||| VRING_DESC_F_NEXT)
    &&& VRING_DESC_F_NEXT != 0) = true
  cases r.write <;> decide

theorem Formatted.linked {c : Chain} (h : Formatted blockno d r c) :
    Linked d.desc c.toList := by
  refine ⟨h.head_next, by rw [h.head], h.data_next, by rw [h.data], ?_⟩
  show (d.desc c.status).hasNext = false
  rw [h.status]
  show (VRING_DESC_F_WRITE &&& VRING_DESC_F_NEXT != 0) = false
  decide

/-- **What the device reads** from a chain that is being served. -/
theorem Formatted.read {c : Chain} (h : Formatted blockno d r c) :
    d.read c.head = some (⟨if r.write then VIRTIO_BLK_T_OUT else VIRTIO_BLK_T_IN, 0,
      Disk.sector blockno r.b⟩, .data r.b, c.head) := by
  have hhead : d.follow c.head = some c.data :=
    Disk.follow_of (by rw [h.head]) h.head_next
  have hdata : d.follow c.data = some c.status :=
    Disk.follow_of (by rw [h.data]) h.data_next
  unfold Disk.read
  rw [hhead, Option.bind_eq_bind, Option.bind_some, hdata, Option.bind_some, h.head, h.status]
  show some (d.ops c.head, (d.desc c.data).addr, c.head) = _
  rw [h.ops, h.data]

theorem Linked.congr {desc desc' : Fin NUM → Desc B} {l : List (Fin NUM)}
    (h : Linked desc l) (heq : ∀ i ∈ l, desc' i = desc i) : Linked desc' l := by
  induction l with
  | nil => exact h
  | cons i l ih =>
    have hi := heq i List.mem_cons_self
    cases l with
    | nil =>
      show (desc' i).hasNext = false
      rw [hi]
      exact h
    | cons j l =>
      obtain ⟨hnext, hj, htail⟩ := h
      refine ⟨?_, ?_, ih htail (fun i hi => heq i (List.mem_cons_of_mem _ hi))⟩ <;> rwa [hi]

variable (blockno)

/-- **The phase of a request** that its caller waits for. -/
inductive Phase (s : State P H B) (r : Rw B) (c : Chain) (k : ℕ) : Prop
  /-- Its head is on the way to the device, which has not executed it. -/
  | queued (hbusy : s.busy r.b = true) (hmem : c.head ∈ s.queued)
      (hdone : ∀ q ∈ s.done, q.ticket ≠ k)
  /-- It is executed and its head is on the way back. -/
  | returned (hbusy : s.busy r.b = true) (hmem : c.head ∈ s.returned)
      (hdone : Disk.request blockno r k ∈ s.done) (hstatus : (s.disk.info c.head).status = 0)
  /-- It is executed and the interrupt handler has seen it. -/
  | cleared (hbusy : s.busy r.b = false) (hdone : Disk.request blockno r k ∈ s.done)

/-- **What a process knows** at each place. -/
def Knows (s : State P H B) : Pc B → Prop
  | .out | .enter _ | .sleepFree _ | .alloc _ | .format _ _ => True
  | .ring r c => Formatted blockno s.disk r c ∧ s.busy r.b = true
  | .publish r c => Formatted blockno s.disk r c ∧ s.busy r.b = true
    ∧ s.disk.avail.ring (slot NUM s.disk.avail.idx) = c.head
  | .wait r c k | .sleepBuf r c k =>
    Formatted blockno s.disk r c ∧ s.ticket c.head = k ∧ Phase blockno s r c k
  | .clear r c k => Linked s.disk.desc c.toList ∧ Disk.request blockno r k ∈ s.done
  | .freeChain r k i todo => todo.head?.map Fin.val = some i ∧ Linked s.disk.desc todo
    ∧ Disk.request blockno r k ∈ s.done
  | .leave r k => Disk.request blockno r k ∈ s.done

/-- **The invariant.** -/
structure Inv (s : State P H B) : Prop where
  lock : ∀ p, (s.pc p).locked = true → s.lock = some (.inl p)
  intr : ∀ h, s.ipc h = .test ∨ s.ipc h = .body → s.lock = some (.inr h)
  body : ∀ h, s.ipc h = .body → s.disk.usedIdx ≠ s.disk.used.idx
  /-- A descriptor is not free when a process owns it. -/
  free : ∀ i, s.disk.free i = false ↔ ∃ p, i ∈ (s.pc p).owned
  nodup : ∀ p, (s.pc p).owned.Nodup
  disjoint : ∀ p q i, i ∈ (s.pc p).owned → i ∈ (s.pc q).owned → p = q
  bufs : ∀ p q b, (s.pc p).buf = some b → (s.pc q).buf = some b → p = q
  tickets : ∀ p q k, (s.pc p).ticket = some k → (s.pc q).ticket = some k → p = q
  lt_serial : ∀ p k, (s.pc p).ticket = some k → k < s.serial
  done_lt : ∀ r ∈ s.done, r.ticket < s.serial
  knows : ∀ p, Knows blockno s (s.pc p)
  flying : (s.queued + s.returned).Nodup
  /-- A head on its way belongs to a process that waits for it. -/
  owner : ∀ i ∈ s.queued + s.returned, ∃ p r c k, (s.pc p).Waits r c k ∧ c.head = i
    ∧ s.busy r.b = true
  /-- What the driver can see in `used` has been written there. -/
  seen : (s.disk.used.idx - s.disk.usedIdx).toNat ≤ (s.dev.fill - s.disk.usedIdx).toNat

variable {blockno}

/-! ## Steps of others -/

/-- What a process knows is about its own descriptors, its own buffer and its
own request, and about `avail` while it holds the lock. -/
structure Same (s s' : State P H B) (c : Pc B) : Prop where
  desc : ∀ i ∈ c.owned, s'.disk.desc i = s.disk.desc i
  info : ∀ i ∈ c.owned, s'.disk.info i = s.disk.info i
  ops : ∀ i ∈ c.owned, s'.disk.ops i = s.disk.ops i
  ticket : ∀ i ∈ c.owned, s'.ticket i = s.ticket i
  busy : ∀ b, c.buf = some b → s'.busy b = s.busy b
  queued : ∀ i ∈ c.owned, i ∈ s.queued → i ∈ s'.queued
  returned : ∀ i ∈ c.owned, i ∈ s.returned → i ∈ s'.returned
  done : s.done ⊆ s'.done
  fresh : ∀ k, c.ticket = some k → ∀ q ∈ s'.done, q.ticket = k → q ∈ s.done
  avail : c.locked = true → s'.disk.avail = s.disk.avail

variable {s s' : State P H B}

/-- No process owns what is changed. -/
theorem Same.of_eq {c : Pc B} (hdisk : s'.disk = { s.disk with used := s'.disk.used })
    (hticket : s'.ticket = s.ticket) (hbusy : s'.busy = s.busy) (hdone : s'.done = s.done)
    (hqueued : s'.queued = s.queued) (hreturned : s'.returned = s.returned) : Same s s' c := by
  refine ⟨fun _ _ => by rw [hdisk], fun _ _ => by rw [hdisk], fun _ _ => by rw [hdisk],
    fun _ _ => congrFun hticket _, fun _ _ => congrFun hbusy _, fun _ _ h => hqueued ▸ h,
    fun _ _ h => hreturned ▸ h, hdone ▸ List.Subset.refl _, fun _ _ _ h _ => hdone ▸ h,
    fun _ => by rw [hdisk]⟩

theorem Formatted.congr {d d' : Disk B} {c : Chain} (h : Formatted blockno d r c)
    (hdesc : ∀ i ∈ c.toList, d'.desc i = d.desc i)
    (hinfo : (d'.info c.head).b = (d.info c.head).b)
    (hops : d'.ops c.head = d.ops c.head) : Formatted blockno d' r c where
  ops := hops.trans h.ops
  head := (hdesc _ (by simp [Chain.toList])).trans h.head
  data := (hdesc _ (by simp [Chain.toList])).trans h.data
  status := (hdesc _ (by simp [Chain.toList])).trans h.status
  info := hinfo.trans h.info

theorem Same.formatted {c : Pc B} (h : Same s s' c)
    (hc : c.owned = ch.toList) (hf : Formatted blockno s.disk r ch) :
    Formatted blockno s'.disk r ch := by
  have hhead : ch.head ∈ c.owned := hc ▸ List.mem_cons_self
  exact hf.congr (fun i hi => h.desc i (hc ▸ hi)) (by rw [h.info _ hhead]) (h.ops _ hhead)

theorem Same.phase {c : Pc B} (h : Same s s' c)
    (hc : c.Waits r ch k) (hf : Phase blockno s r ch k) : Phase blockno s' r ch k := by
  have hhead := hc.head_mem
  have hbusy := h.busy _ hc.buf_eq
  cases hf with
  | queued hb hmem hdone =>
    refine .queued (hbusy.trans hb) (h.queued _ hhead hmem) (fun q hq hk => ?_)
    exact hdone q (h.fresh k hc.ticket_eq q hq hk) hk
  | returned hb hmem hdone hstatus =>
    refine .returned (hbusy.trans hb) (h.returned _ hhead hmem) (h.done hdone) ?_
    rw [h.info _ hhead, hstatus]
  | cleared hb hdone => exact .cleared (hbusy.trans hb) (h.done hdone)

/-- **A process keeps what it knows** when others step. -/
theorem Knows.same {c : Pc B} (h : Same s s' c) (hk : Knows blockno s c) :
    Knows blockno s' c := by
  cases c with
  | out | enter | sleepFree | alloc | format => trivial
  | ring r ch => exact ⟨h.formatted rfl hk.1, (h.busy _ rfl).trans hk.2⟩
  | publish r ch =>
    refine ⟨h.formatted rfl hk.1, (h.busy _ rfl).trans hk.2.1, ?_⟩
    rw [h.avail rfl]
    exact hk.2.2
  | wait r ch k =>
    exact ⟨h.formatted rfl hk.1, (h.ticket _ (List.mem_cons_self)).trans hk.2.1,
      h.phase .wait hk.2.2⟩
  | sleepBuf r ch k =>
    exact ⟨h.formatted rfl hk.1, (h.ticket _ (List.mem_cons_self)).trans hk.2.1,
      h.phase .sleepBuf hk.2.2⟩
  | clear r ch k => exact ⟨hk.1.congr h.desc, h.done hk.2⟩
  | freeChain r k i todo => exact ⟨hk.1, hk.2.1.congr h.desc, h.done hk.2.2⟩
  | leave r k => exact h.done hk

/-! ## Steps of a process -/

variable {p : P} {c c₀ : Pc B}

theorem Inv.knows_at (hI : Inv blockno s) (hp : s.pc p = c) : Knows blockno s c :=
  hp ▸ hI.knows p

theorem Inv.lock_at (hI : Inv blockno s) (hp : s.pc p = c) (hl : c.locked = true) :
    s.lock = some (.inl p) :=
  hI.lock p (hp ▸ hl)

theorem Inv.lock_other (hI : Inv blockno s) (hp : s.pc p = c) (hl : c.locked = true)
    {l : Option (P ⊕ H)} : ∀ x, x ≠ .inl p → s.lock = some x → l = some x :=
  fun _ hx h => absurd (Option.some.inj (h.symm.trans (hI.lock_at hp hl))) hx

theorem Inv.buf_of_eq (hI : Inv blockno s) (hp : s.pc p = c₀) (hc : c.buf = c₀.buf) :
    ∀ q b, c.buf = some b → (s.pc q).buf = some b → q = p := by
  subst hp
  exact fun q b hb hq => hI.bufs q p b hq (hc ▸ hb)

theorem Inv.nodup_at (hI : Inv blockno s) (hp : s.pc p = c₀) (howned : c.owned = c₀.owned) :
    c.owned.Nodup := by
  rw [howned, ← hp]
  exact hI.nodup p

/-- The process keeps what it owns. -/
theorem Inv.free_iff (hI : Inv blockno s) (hp : s.pc p = c₀) (howned : c.owned = c₀.owned) :
    ∀ i, s.disk.free i = false ↔ i ∈ c.owned ∨ s.disk.free i = false ∧ i ∉ c₀.owned := by
  intro i
  have hi : i ∈ c₀.owned → s.disk.free i = false := fun hi => (hI.free i).mpr ⟨p, hp ▸ hi⟩
  rw [howned]
  tauto

theorem Inv.notMem_flying (hI : Inv blockno s) (hp : s.pc p = c) (hi : i ∈ c.owned)
    (hno : ∀ r ch k, ¬ c.Waits r ch k) : i ∉ s.queued + s.returned := by
  subst hp
  intro hmem
  obtain ⟨q, r, ch, k, hw, rfl, -⟩ := hI.owner i hmem
  obtain rfl := hI.disjoint q p _ hw.head_mem hi
  exact hno r ch k hw

theorem card_lt {m : Multiset (Fin NUM)} (hm : m.Nodup) (hi : i ∉ m) :
    m.card < NUM := by
  have hcard : (i ::ₘ m).card ≤ Fintype.card (Fin NUM) :=
    Finset.card_le_univ ⟨i ::ₘ m, nodup_cons.mpr ⟨hi, hm⟩⟩
  rwa [card_cons, Fintype.card_fin] at hcard

/-- **There is room in `avail`** for a process that has not published its
head yet. -/
theorem Inv.avail_lt (hI : Inv blockno s) (hp : s.pc p = c) (hi : i ∈ c.owned)
    (hno : ∀ r ch k, ¬ c.Waits r ch k) : (s.disk.avail.idx - s.dev.last).toNat < NUM := by
  have hlt := card_lt hI.flying (hI.notMem_flying hp hi hno)
  simp only [State.queued, card_add, coe_card, length_contents] at hlt
  omega

theorem formatted_format [DecidableEq B] (d : Disk B) (r : Rw B)
    (hnodup : ch.toList.Nodup) :
    Formatted blockno (d.format blockno r ch) r ch := by
  have hne : ch.head ≠ ch.data ∧ ch.head ≠ ch.status ∧ ch.data ≠ ch.status := by
    simpa [Chain.toList, and_assoc] using hnodup
  refine ⟨?_, ?_, ?_, ?_, ?_⟩
  · simp [Disk.format]
  · simp [Disk.format, hne.1, hne.2.1]
  · simp [Disk.format, hne.2.2]
  · simp [Disk.format]
  · simp [Disk.format]

section Process

variable [DecidableEq P] (blockno)

/-- What a process may do on its way to the place `c`: take or give up the
lock, allocate or free descriptors, and change what belongs to it. -/
structure Moves (s s' : State P H B) (p : P) (c : Pc B) : Prop where
  pc : s'.pc = update s.pc p c
  ipc : s'.ipc = s.ipc
  dev : s'.dev = s.dev
  used : s'.disk.used = s.disk.used
  usedIdx : s'.disk.usedIdx = s.disk.usedIdx
  done : s'.done = s.done
  lockSelf : c.locked = true → s'.lock = some (.inl p)
  lockOther : ∀ x, x ≠ .inl p → s.lock = some x → s'.lock = some x
  free : ∀ i, s'.disk.free i = false ↔ i ∈ c.owned
    ∨ s.disk.free i = false ∧ i ∉ (s.pc p).owned
  owned : ∀ i ∈ c.owned, i ∈ (s.pc p).owned ∨ s.disk.free i = true
  nodup : c.owned.Nodup
  buf : ∀ q b, c.buf = some b → (s.pc q).buf = some b → q = p
  ticket : ∀ k, c.ticket = some k → (s.pc p).ticket = some k ∨ k = s.serial ∧ k < s'.serial
  serial : s.serial ≤ s'.serial
  desc : ∀ i, s.disk.free i = false → i ∉ (s.pc p).owned → s'.disk.desc i = s.disk.desc i
  info : ∀ i, i ∉ (s.pc p).owned → s'.disk.info i = s.disk.info i
  ops : ∀ i, i ∉ (s.pc p).owned → s'.disk.ops i = s.disk.ops i
  tickets : ∀ i, i ∉ (s.pc p).owned → s'.ticket i = s.ticket i
  busy : ∀ b, (s.pc p).buf ≠ some b → s'.busy b = s.busy b
  avail : (s.pc p).locked = false → s'.disk.avail = s.disk.avail
  /-- A process that waits for a head on its way goes on waiting. -/
  waits : ∀ r ch k, (s.pc p).Waits r ch k → s.busy r.b = true →
    c.Waits r ch k ∧ s'.busy r.b = true
  /-- Nothing is published, or the process's own request. -/
  flow : s'.queued = s.queued ∨ ∃ r ch, s.pc p = .publish r ch
    ∧ c = .wait r ch s.serial ∧ s'.busy r.b = true ∧ s'.queued = ch.head ::ₘ s.queued
  knows : Knows blockno s' c

variable {blockno}

theorem Moves.returned_eq (h : Moves blockno s s' p c) : s'.returned = s.returned := by
  unfold State.returned
  rw [h.dev, h.used, h.usedIdx]

theorem Moves.same (hI : Inv blockno s) (hm : Moves blockno s s' p c) {q : P} (hq : q ≠ p) :
    Same s s' (s.pc q) := by
  have hown : ∀ i ∈ (s.pc q).owned, i ∉ (s.pc p).owned :=
    fun i hi hi' => hq (hI.disjoint q p i hi hi')
  refine ⟨fun i hi => hm.desc i ((hI.free i).mpr ⟨q, hi⟩) (hown i hi),
    fun i hi => hm.info i (hown i hi), fun i hi => hm.ops i (hown i hi),
    fun i hi => hm.tickets i (hown i hi), fun b hb => hm.busy b fun hb' => ?_,
    fun i _ hi => ?_, fun i _ hi => ?_, ?_, fun k _ r hr _ => ?_, fun hl => ?_⟩
  · exact hq (hI.bufs q p b hb hb')
  · obtain heq | ⟨r, ch, -, -, -, heq⟩ := hm.flow
    · rwa [heq]
    · rw [heq]
      exact mem_cons_of_mem hi
  · rwa [hm.returned_eq]
  · rw [hm.done]
    exact List.Subset.refl _
  · rwa [hm.done] at hr
  · refine hm.avail ?_
    by_contra hp
    have hlock := (hI.lock q hl).symm.trans (hI.lock p (by simpa using hp))
    exact hq (Sum.inl.inj (Option.some.inj hlock))

/-- **The invariant is kept by the steps of a process.** -/
theorem Inv.move (hI : Inv blockno s) (hm : Moves blockno s s' p c) : Inv blockno s' := by
  have hself : s'.pc p = c := by rw [hm.pc, update_self]
  have hother : ∀ {q}, q ≠ p → s'.pc q = s.pc q := fun hq => by
    rw [hm.pc, update_of_ne hq]
  have hinto : ∀ {q i}, q ≠ p → i ∈ c.owned → i ∉ (s.pc q).owned := by
    intro q i hq hi hi'
    rcases hm.owned i hi with hi | hi
    · exact hq (hI.disjoint q p i hi' hi)
    · exact nomatch hi.symm.trans ((hI.free i).mpr ⟨q, hi'⟩)
  refine ⟨fun q hl => ?_, fun h hh => ?_, fun h hh => ?_, fun i => ?_, fun q => ?_,
    fun q q' i hi hi' => ?_, fun q q' b hb hb' => ?_, fun q q' k hk hk' => ?_, fun q k hk => ?_,
    fun r hr => ?_, fun q => ?_, ?_, fun i hi => ?_, ?_⟩
  · by_cases hq : q = p
    · subst hq
      rw [hself] at hl
      exact hm.lockSelf hl
    · rw [hother hq] at hl
      exact hm.lockOther _ (fun h => hq (Sum.inl.inj h)) (hI.lock q hl)
  · rw [hm.ipc] at hh
    exact hm.lockOther _ Sum.inr_ne_inl (hI.intr h hh)
  · rw [hm.ipc] at hh
    rw [hm.used, hm.usedIdx]
    exact hI.body h hh
  · rw [hm.free]
    constructor
    · rintro (hi | ⟨hi, hni⟩)
      · exact ⟨p, by rwa [hself]⟩
      · obtain ⟨q, hq⟩ := (hI.free i).mp hi
        have hqp : q ≠ p := by
          rintro rfl
          exact hni hq
        exact ⟨q, by rwa [hother hqp]⟩
    · rintro ⟨q, hi⟩
      by_cases hq : q = p
      · subst hq
        rw [hself] at hi
        exact .inl hi
      · rw [hother hq] at hi
        exact .inr ⟨(hI.free i).mpr ⟨q, hi⟩, fun hi' => hq (hI.disjoint q p i hi hi')⟩
  · by_cases hq : q = p
    · rw [hq, hself]
      exact hm.nodup
    · rw [hother hq]
      exact hI.nodup q
  · rw [hm.pc] at hi hi'
    exact unique_update (R := fun c : Pc B => i ∈ c.owned) (fun q q' => hI.disjoint q q' i)
      (fun q hq hi hi' => hinto hq hi' hi) q q' hi hi'
  · rw [hm.pc] at hb hb'
    exact unique_update (R := fun c : Pc B => c.buf = some b) (fun q q' => hI.bufs q q' b)
      (fun q hq hb hb' => hq (hm.buf q b hb' hb)) q q' hb hb'
  · rw [hm.pc] at hk hk'
    refine unique_update (R := fun c : Pc B => c.ticket = some k) (fun q q' => hI.tickets q q' k)
      (fun q hq hk hk' => ?_) q q' hk hk'
    -- a number that is new is larger than all others
    rcases hm.ticket k hk' with hp | ⟨hp, -⟩
    · exact hq (hI.tickets q p k hk hp)
    · have := hI.lt_serial q k hk
      omega
  · have hle := hm.serial
    by_cases hq : q = p
    · rw [hq, hself] at hk
      rcases hm.ticket k hk with hp | ⟨-, hlt⟩
      · exact lt_of_lt_of_le (hI.lt_serial p k hp) hle
      · exact hlt
    · rw [hother hq] at hk
      exact lt_of_lt_of_le (hI.lt_serial q k hk) hle
  · rw [hm.done] at hr
    exact lt_of_lt_of_le (hI.done_lt r hr) hm.serial
  · by_cases hq : q = p
    · rw [hq, hself]
      exact hm.knows
    · rw [hother hq]
      exact (hI.knows q).same (hm.same hI hq)
  · rw [hm.returned_eq]
    obtain heq | ⟨r, ch, hp, -, -, heq⟩ := hm.flow
    · rw [heq]
      exact hI.flying
    · rw [heq, cons_add, nodup_cons]
      exact ⟨hI.notMem_flying hp List.mem_cons_self nofun, hI.flying⟩
  · rw [hm.returned_eq] at hi
    have hold : i ∈ s.queued + s.returned → ∃ p r c k, (s'.pc p).Waits r c k ∧ c.head = i
        ∧ s'.busy r.b = true := by
      intro hi
      obtain ⟨q, r, ch, k, hw, hh, hb⟩ := hI.owner i hi
      by_cases hq : q = p
      · subst hq
        obtain ⟨hw', hb'⟩ := hm.waits r ch k hw hb
        exact ⟨q, r, ch, k, hself ▸ hw', hh, hb'⟩
      · refine ⟨q, r, ch, k, (hother hq) ▸ hw, hh, ?_⟩
        rw [hm.busy r.b fun hb' => hq (hI.bufs q p _ hw.buf_eq hb')]
        exact hb
    obtain heq | ⟨r, ch, -, rfl, hb, heq⟩ := hm.flow
    · rw [heq] at hi
      exact hold hi
    · rw [heq, cons_add, mem_cons] at hi
      rcases hi with rfl | hi
      · exact ⟨p, r, ch, s.serial, hself ▸ .wait, rfl, hb⟩
      · exact hold hi
  · rw [hm.used, hm.usedIdx, hm.dev]
    exact hI.seen

/-- A step that only takes or gives up the lock. -/
theorem Inv.goto (hI : Inv blockno s) (hp : s.pc p = c₀) {l : Option (P ⊕ H)}
    (hself : c.locked = true → l = some (.inl p))
    (hother : ∀ x, x ≠ .inl p → s.lock = some x → l = some x)
    (howned : c.owned = c₀.owned)
    (hbuf : ∀ q b, c.buf = some b → (s.pc q).buf = some b → q = p)
    (hticket : ∀ k, c.ticket = some k → c₀.ticket = some k)
    (hwaits : ∀ r ch k, c₀.Waits r ch k → s.busy r.b = true → c.Waits r ch k)
    (hknows : Knows blockno s c) : Inv blockno { s.goto p c with lock := l } := by
  have hfree := hI.free_iff hp howned
  subst hp
  refine hI.move (c := c) (p := p) ?_
  exact ⟨rfl, rfl, rfl, rfl, rfl, rfl, hself, hother, hfree, fun i hi => .inl (howned ▸ hi),
    howned ▸ hI.nodup p, hbuf,
    fun k hk => .inl (hticket k hk), le_rfl, fun _ _ _ => rfl, fun _ _ => rfl, fun _ _ => rfl,
    fun _ _ => rfl, fun _ _ => rfl, fun _ => rfl, fun r ch k hw hb => ⟨hwaits r ch k hw hb, hb⟩,
    .inl rfl, hknows.same (.of_eq rfl rfl rfl rfl rfl rfl)⟩

/-- A process that holds the lock works on what it owns. -/
theorem Inv.work (hI : Inv blockno s) (hp : s.pc p = c₀) (hl : c₀.locked = true)
    (hno : ∀ r ch k, ¬ c₀.Waits r ch k) (hpc : s'.pc = update s.pc p c) (hbuf : c.buf = c₀.buf)
    (hself : c.locked = true → s'.lock = s.lock)
    (hkept : s'.ipc = s.ipc ∧ s'.dev = s.dev ∧ s'.disk.used = s.disk.used
      ∧ s'.disk.usedIdx = s.disk.usedIdx ∧ s'.done = s.done)
    (hfree : ∀ i, s'.disk.free i = false ↔ i ∈ c.owned ∨ s.disk.free i = false ∧ i ∉ c₀.owned)
    (howned : ∀ i ∈ c.owned, i ∈ c₀.owned ∨ s.disk.free i = true) (hnodup : c.owned.Nodup)
    (hdesc : ∀ i, s.disk.free i = false → i ∉ c₀.owned → s'.disk.desc i = s.disk.desc i)
    (hout : ∀ i, i ∉ c₀.owned → s'.disk.info i = s.disk.info i ∧ s'.disk.ops i = s.disk.ops i
      ∧ s'.ticket i = s.ticket i)
    (hbusy : ∀ b, c₀.buf ≠ some b → s'.busy b = s.busy b) (hn : s.serial ≤ s'.serial)
    (hticket : ∀ k, c.ticket = some k → c₀.ticket = some k ∨ k = s.serial ∧ k < s'.serial)
    (hflow : s'.queued = s.queued ∨ ∃ r ch, c₀ = .publish r ch ∧ c = .wait r ch s.serial
      ∧ s'.busy r.b = true ∧ s'.queued = ch.head ::ₘ s.queued)
    (hknows : Knows blockno s' c) : Inv blockno s' := by
  have hlock := hI.lock_at hp hl
  have hother := hI.lock_other hp hl (l := s'.lock)
  have hbuf' := hI.buf_of_eq hp hbuf
  subst hp
  obtain ⟨hipc, hdev, hused, husedIdx, hdone⟩ := hkept
  refine hI.move (c := c) (p := p) ?_
  exact ⟨hpc, hipc, hdev, hused, husedIdx, hdone, fun h => (hself h).trans hlock, hother, hfree,
    howned, hnodup, hbuf', hticket, hn, hdesc, fun i hi => (hout i hi).1,
    fun i hi => (hout i hi).2.1, fun i hi => (hout i hi).2.2, hbusy,
    fun h => (nomatch hl.symm.trans h), fun r ch k hw => absurd hw (hno r ch k), hflow, hknows⟩

/-- The three descriptors are allocated. -/
theorem Inv.alloc (hI : Inv blockno s) (hp : s.pc p = .alloc r)
    (hd : s.disk.Allocates (some ch) d) :
    Inv blockno { s.goto p (.format r ch) with disk := d } := by
  obtain ⟨hkeep, hdesc, hnodup, hfree, hnot⟩ := hd
  refine hI.work hp rfl nofun rfl rfl (fun _ => rfl) ⟨rfl, rfl, hkeep.used, hkeep.usedIdx, rfl⟩
    (fun i => ?_) (fun i hi => .inr (hfree i hi)) hnodup (fun i _ _ => congrFun hdesc i)
    (fun i _ => ⟨congrFun hkeep.info i, congrFun hkeep.ops i, rfl⟩) (fun _ _ => rfl) le_rfl nofun
    (.inl (hkeep.queued_eq rfl rfl)) trivial
  show d.free i = false ↔ _
  rw [hnot]
  simp [Pc.owned]

/-- No three descriptors are free. -/
theorem Inv.alloc_none (hI : Inv blockno s) (hp : s.pc p = .alloc r)
    (hd : s.disk.Allocates none d) :
    Inv blockno { s.goto p (.sleepFree r) with disk := d, lock := none } := by
  obtain ⟨hkeep, hfree, hdesc⟩ := hd
  refine hI.work hp rfl nofun rfl rfl nofun ⟨rfl, rfl, hkeep.used, hkeep.usedIdx, rfl⟩
    (fun i => ?_) nofun List.nodup_nil (fun i hi _ => hdesc i hi)
    (fun i _ => ⟨congrFun hkeep.info i, congrFun hkeep.ops i, rfl⟩) (fun _ _ => rfl) le_rfl nofun
    (.inl (hkeep.queued_eq rfl rfl)) trivial
  show d.free i = false ↔ _
  rw [hfree]
  simp [Pc.owned]

/-- The descriptors are formatted. -/
theorem Inv.format [DecidableEq B] (hI : Inv blockno s)
    (hp : s.pc p = .format r ch) :
    Inv blockno { s.goto p (.ring r ch) with
      disk := s.disk.format blockno r ch
      busy := update s.busy r.b true } := by
  have hnodup := hI.nodup_at (c := .ring r ch) hp rfl
  have hne : ∀ i, i ∉ ch.toList → i ≠ ch.head ∧ i ≠ ch.data ∧ i ≠ ch.status := by
    simp [Chain.toList]
  refine hI.work hp rfl nofun rfl rfl (fun _ => rfl) ⟨rfl, rfl, rfl, rfl, rfl⟩
    (hI.free_iff hp rfl) (fun _ => .inl) hnodup (fun i _ hi => ?_) (fun i hi => ⟨?_, ?_, rfl⟩)
    (fun b hb => update_of_ne (fun h => hb (congrArg some h.symm)) _ _) le_rfl nofun (.inl rfl)
    ⟨formatted_format _ _ hnodup, update_self _ _ _⟩
  all_goals
    obtain ⟨hhead, hdata, hstatus⟩ := hne i hi
    simp [Disk.format, hhead, hdata, hstatus]

/-- The head of the chain is written into the ring. -/
theorem Inv.ring (hI : Inv blockno s) (hp : s.pc p = .ring r ch) :
    Inv blockno { s.goto p (.publish r ch) with
      disk.avail.ring :=
        update s.disk.avail.ring (slot NUM s.disk.avail.idx) ch.head } := by
  obtain ⟨hf, hb⟩ := hI.knows_at hp
  have hlt := hI.avail_lt hp List.mem_cons_self nofun
  have hw := contents_write (w := 16) (by decide) s.disk.avail.ring hlt ch.head
  exact hI.work hp rfl nofun rfl rfl (fun _ => rfl) ⟨rfl, rfl, rfl, rfl, rfl⟩
    (hI.free_iff hp rfl) (fun _ => .inl) (hI.nodup_at hp rfl) (fun _ _ _ => rfl)
    (fun _ _ => ⟨rfl, rfl, rfl⟩) (fun _ _ => rfl) le_rfl nofun
    (.inl (congrArg (fun l : List (Fin NUM) => (l : Multiset (Fin NUM)) + _) hw))
    ⟨hf.congr (fun _ _ => rfl) rfl rfl, hb, update_self _ _ _⟩

/-- The request is published. -/
theorem Inv.publish (hI : Inv blockno s) (hp : s.pc p = .publish r ch) :
    Inv blockno { s.goto p (.wait r ch s.serial) with
      disk.avail.idx := s.disk.avail.idx + 1
      ticket := update s.ticket ch.head s.serial
      serial := s.serial + 1 } := by
  obtain ⟨hf, hb, hring⟩ := hI.knows_at hp
  have hlt := hI.avail_lt hp List.mem_cons_self nofun
  have hlt' : (s.disk.avail.idx - s.dev.last).toNat + 1 < 2 ^ 16 := by
    simp only [NUM] at hlt
    omega
  have hpush := contents_push s.disk.avail.ring hlt'
  have hqueued : ((contents s.disk.avail.ring s.dev.last (s.disk.avail.idx + 1) : List (Fin NUM))
      : Multiset (Fin NUM)) + (s.dev.pending : Multiset (Fin NUM)) = ch.head ::ₘ s.queued := by
    rw [hpush, hring, ← coe_add, add_right_comm, add_comm]
    exact singleton_add _ _
  refine hI.work hp rfl nofun rfl rfl (fun _ => rfl) ⟨rfl, rfl, rfl, rfl, rfl⟩
    (hI.free_iff hp rfl) (fun _ => .inl) (hI.nodup_at hp rfl) (fun _ _ _ => rfl)
    (fun i hi => ⟨rfl, rfl, ?_⟩) (fun _ _ => rfl) (Nat.le_succ _) (fun k hk => .inr ?_)
    (.inr ⟨r, ch, rfl, rfl, hb, hqueued⟩)
    ⟨hf.congr (fun _ _ => rfl) rfl rfl, update_self _ _ _, ?_⟩
  · exact update_of_ne (fun h : i = _ => hi (h ▸ List.mem_cons_self)) _ _
  · cases hk
    exact ⟨rfl, Nat.lt_succ_self _⟩
  · have hmem := mem_cons_self ch.head s.queued
    rw [← hqueued] at hmem
    exact .queued hb hmem (fun q hq => (hI.done_lt q hq).ne)

/-- The process goes on to free its chain. -/
theorem Inv.clear (hI : Inv blockno s)
    (hp : s.pc p = .clear r ch k) :
    Inv blockno { s.goto p (.freeChain r k ch.head ch.toList) with
      disk.info :=
        update s.disk.info ch.head { s.disk.info ch.head with b := none } } := by
  obtain ⟨hlinked, hdone⟩ := hI.knows_at hp
  exact hI.work hp rfl nofun rfl rfl (fun _ => rfl) ⟨rfl, rfl, rfl, rfl, rfl⟩
    (hI.free_iff hp rfl) (fun _ => .inl) (hI.nodup_at hp rfl) (fun _ _ _ => rfl)
    (fun i hi => ⟨update_of_ne (fun h : i = _ => hi (h ▸ List.mem_cons_self)) _ _, rfl, rfl⟩)
    (fun _ _ => rfl) le_rfl (fun _ => .inl) (.inl rfl) ⟨rfl, hlinked, hdone⟩

/-- **A descriptor of the chain is freed.** -/
theorem Inv.freeDesc (hI : Inv blockno s) {k i : ℕ} {j : Fin NUM}
    {rest : List (Fin NUM)} (hp : s.pc p = .freeChain r k i (j :: rest))
    (howned : c.owned = rest) (hbuf : c.buf = some r.b)
    (hticket : c.ticket = some k)
    (hknows : ∀ s' : State P H B, s'.done = s.done →
      (∀ l ∈ rest, s'.disk.desc l = s.disk.desc l) → Knows blockno s' c) :
    Inv blockno { s.goto p c with
      disk.desc := update s.disk.desc j ⟨.null, 0, 0, 0⟩
      disk.free := update s.disk.free j true } := by
  obtain ⟨hj, hnodup⟩ := List.nodup_cons.mp (hI.nodup_at (c := .freeChain r k i _) hp rfl)
  have hfree : ∀ l ∈ j :: rest, s.disk.free l = false :=
    fun l hl => (hI.free l).mpr ⟨p, by rw [hp]; exact hl⟩
  refine hI.work hp rfl nofun rfl hbuf (fun _ => rfl) ⟨rfl, rfl, rfl, rfl, rfl⟩ (fun l => ?_)
    (fun l hl => .inl (List.mem_cons_of_mem _ (howned ▸ hl))) (howned ▸ hnodup)
    (fun l _ hl => update_of_ne (fun h : l = j => hl (h ▸ List.mem_cons_self)) _ _)
    (fun _ _ => ⟨rfl, rfl, rfl⟩) (fun _ _ => rfl) le_rfl
    (fun k' hk' => .inl (hticket.symm.trans hk')) (.inl rfl)
    (hknows _ rfl fun l hl => update_of_ne (fun h : l = j => hj (h ▸ hl)) _ _)
  show update s.disk.free j true l = false ↔ _ ∨ s.disk.free l = false ∧ l ∉ j :: rest
  have := hfree l
  rw [howned, update_apply]
  grind

/-- **`free_chain` frees the descriptors of the chain**, without a panic. -/
theorem Inv.freeChain [DecidableEq H] [DecidableEq B] (hI : Inv blockno s) {k i : ℕ}
    {todo : List (Fin NUM)} (hp : s.pc p = .freeChain r k i todo) :
    (s.virtioDiskRw blockno p).Safe (Inv blockno) := by
  obtain ⟨hhead, hlinked, hdone⟩ := hI.knows_at hp
  cases todo with
  | nil => nomatch hhead
  | cons j rest =>
    obtain rfl : (j : ℕ) = i := by simpa using hhead
    have hfree : s.disk.free j = false :=
      (hI.free j).mpr ⟨p, by rw [hp]; exact List.mem_cons_self⟩
    unfold State.virtioDiskRw
    rw [hp]
    simp only [dif_pos j.isLt, Disk.freeDesc_ok hfree, Fin.eta, List.tail_cons]
    cases rest with
    | nil =>
      rw [if_neg (by rw [show (s.disk.desc j).hasNext = false from hlinked]; exact nofun)]
      exact hI.freeDesc hp rfl rfl rfl fun s' hs' _ => by
        show _ ∈ s'.done
        rwa [hs']
    | cons j' rest =>
      obtain ⟨hnext, hj', hlinked⟩ := hlinked
      rw [if_pos hnext, hj']
      refine hI.freeDesc hp rfl rfl rfl fun s' hs' hdesc => ⟨rfl, hlinked.congr hdesc, ?_⟩
      rwa [hs']

theorem Inv.acquire [DecidableEq H] (hI : Inv blockno s) (hp : s.pc p = c₀)
    (howned : c.owned = c₀.owned) (hbuf : c.buf = c₀.buf) (hticket : c.ticket = c₀.ticket)
    (hwaits : ∀ r ch k, c₀.Waits r ch k → s.busy r.b = true → c.Waits r ch k)
    (hknows : Knows blockno s c) : (s.acquire p c).Safe (Inv blockno) := by
  unfold State.acquire
  split
  · rename_i hfree
    exact hI.goto hp (fun _ => rfl) (fun x _ h => nomatch hfree.symm.trans h) howned
      (hI.buf_of_eq hp hbuf) (fun k hk => hticket ▸ hk) hwaits hknows
  · trivial

/-- **A step of `virtio_disk_rw`** keeps the invariant, and does not panic. -/
theorem Inv.virtioDiskRw [DecidableEq H] [DecidableEq B] (hI : Inv blockno s) (p : P) :
    (s.virtioDiskRw blockno p).Safe (Inv blockno) := by
  unfold State.virtioDiskRw
  cases hp : s.pc p with
  | out => trivial
  | enter r | sleepFree r =>
    dsimp only
    exact hI.acquire hp rfl rfl rfl nofun trivial
  | alloc r =>
    have hends := Disk.alloc3Desc_ends s.disk
    unfold Ends at hends
    dsimp only
    split at hends
    · rename_i o d heq
      rw [heq]
      cases o with
      | none => exact hI.alloc_none hp hends
      | some ch => exact hI.alloc hp hends
    · exact hends.elim
  | format r ch => exact hI.format hp
  | ring r ch => exact hI.ring hp
  | publish r ch => exact hI.publish hp
  | wait r ch k =>
    have hk := hI.knows_at hp
    dsimp only
    split
    · refine hI.goto hp nofun (hI.lock_other hp rfl) rfl (hI.buf_of_eq hp rfl) (fun _ h => h) ?_ hk
      rintro r ch k ⟨⟩ -
      exact .sleepBuf
    · rename_i hb
      have hdone : Disk.request blockno r k ∈ s.done := by
        cases hk.2.2 with
        | queued hbusy => exact absurd hbusy hb
        | returned hbusy => exact absurd hbusy hb
        | cleared _ hdone => exact hdone
      refine hI.goto hp (fun _ => hI.lock_at hp rfl) (fun _ _ h => h) rfl (hI.buf_of_eq hp rfl)
        (fun _ h => h) ?_ ⟨hk.1.linked, hdone⟩
      rintro r ch k ⟨⟩ hbusy
      exact absurd hbusy hb
  | sleepBuf r ch k =>
    dsimp only
    have hk := hI.knows_at hp
    refine hI.acquire hp rfl rfl rfl ?_ hk
    rintro r ch k ⟨⟩ -
    exact .wait
  | clear r ch k => exact hI.clear hp
  | freeChain r k i todo =>
    have h := hI.freeChain hp
    unfold State.virtioDiskRw at h
    rw [hp] at h
    exact h
  | leave r k =>
    exact hI.goto hp nofun (hI.lock_other hp rfl) rfl nofun nofun nofun trivial

end Process

/-! ## Steps of interrupt handlers -/

/-- A step of an interrupt handler that at most takes or gives up the lock. -/
theorem Inv.igoto [DecidableEq H] (hI : Inv blockno s) {h : H} {c : IntrPc}
    {l : Option (P ⊕ H)} (hself : c = .test ∨ c = .body → l = some (.inr h))
    (hother : ∀ x, x ≠ .inr h → s.lock = some x → l = some x)
    (hbody : c = .body → s.disk.usedIdx ≠ s.disk.used.idx) :
    Inv blockno { s.igoto h c with lock := l } := by
  have hpc : ∀ h', update s.ipc h c h' = if h' = h then c else s.ipc h' :=
    fun h' => update_apply _ _ _ _
  refine ⟨fun p hp => hother _ Sum.inl_ne_inr (hI.lock p hp), fun h' hh' => ?_, fun h' hh' => ?_,
    hI.free, hI.nodup, hI.disjoint, hI.bufs, hI.tickets, hI.lt_serial, hI.done_lt,
    fun p => (hI.knows p).same (.of_eq rfl rfl rfl rfl rfl rfl), hI.flying, hI.owner, hI.seen⟩
  · simp only [State.igoto, hpc] at hh'
    split at hh'
    · subst h'
      exact hself hh'
    · rename_i hne
      exact hother _ (fun heq => hne (Sum.inr.inj heq)) (hI.intr h' hh')
  · simp only [State.igoto, hpc] at hh'
    split at hh'
    · exact hbody hh'
    · exact hI.body h' hh'

theorem Inv.of_waits (hI : Inv blockno s)
    (hw : (s.pc p).Waits r ch k) :
    Formatted blockno s.disk r ch ∧ s.ticket ch.head = k ∧ Phase blockno s r ch k := by
  have hk := hI.knows p
  generalize s.pc p = c at hw hk
  cases hw <;> exact hk

theorem Inv.visible (hI : Inv blockno s) (hne : s.disk.usedIdx ≠ s.disk.used.idx) :
    s.disk.usedIdx ≠ s.dev.fill := by
  intro heq
  have hseen := hI.seen
  rw [← heq, BitVec.sub_self, toNat_sub_succ hne] at hseen
  exact absurd hseen (by simp)

/-- What the interrupt handler finds in the ring: the head of a chain whose
request is executed, and whose process waits. -/
theorem Inv.front (hI : Inv blockno s) (hne : s.disk.usedIdx ≠ s.disk.used.idx) :
    ∃ p r ch k, (s.pc p).Waits r ch k
      ∧ s.disk.used.ring (slot NUM s.disk.usedIdx) = ch.head
      ∧ Disk.request blockno r k ∈ s.done ∧ (s.disk.info ch.head).status = 0
      ∧ (s.disk.info ch.head).b = some r.b
      ∧ s.returned = ch.head ::ₘ ((s.dev.executed : Multiset (Fin NUM))
        + (contents s.disk.used.ring (s.disk.usedIdx + 1) s.dev.fill : Multiset (Fin NUM))) := by
  have hreturned : s.returned = s.disk.used.ring (slot NUM s.disk.usedIdx) ::ₘ
      ((s.dev.executed : Multiset (Fin NUM))
        + (contents s.disk.used.ring (s.disk.usedIdx + 1) s.dev.fill : Multiset (Fin NUM))) := by
    unfold State.returned
    rw [contents_pop _ (hI.visible hne), ← cons_coe, add_cons]
  have hmem : s.disk.used.ring (slot NUM s.disk.usedIdx) ∈ s.returned := by
    rw [hreturned]
    exact mem_cons_self _ _
  obtain ⟨p, r, ch, k, hw, hhead, hb⟩ := hI.owner _ (mem_add.mpr (.inr hmem))
  rw [← hhead] at hreturned hmem
  obtain ⟨hf, -, hphase⟩ := hI.of_waits hw
  cases hphase with
  | queued _ hq =>
    exact (disjoint_left.mp (nodup_add.mp hI.flying).2.2 hq hmem).elim
  | returned _ _ hdone hstatus =>
    exact ⟨p, r, ch, k, hw, hhead.symm, hdone, hstatus, hf.info, hreturned⟩
  | cleared hb' => exact nomatch hb.symm.trans hb'

/-- **The interrupt handler clears `b->disk`** of the buffer whose request is
executed. -/
theorem Inv.body_step [DecidableEq P] [DecidableEq H] [DecidableEq B] (hI : Inv blockno s)
    {h : H} (hh : s.ipc h = .body) : (s.virtioDiskIntr h).Safe (Inv blockno) := by
  obtain ⟨p, r, ch, k, hw, hhead, hdone, hstatus, hinfo, hreturned⟩ := hI.front (hI.body h hh)
  have hlock := hI.intr h (.inr hh)
  unfold State.virtioDiskIntr
  rw [hh]
  simp only [hhead, hstatus, hinfo, ne_eq, not_true_eq_false, if_false]
  have hflying := hI.flying
  rw [hreturned, add_cons, nodup_cons] at hflying
  have hin : ∀ q, (s.pc q).locked = true → False := fun q hq =>
    absurd ((hI.lock q hq).symm.trans hlock) (by simp)
  set s' : State P H B := { s.igoto h .test with
    busy := update s.busy r.b false
    disk.usedIdx := s.disk.usedIdx + 1 } with hs'
  have hipc : ∀ h', s'.ipc h' = .test ∨ s'.ipc h' = .body → h' = h := by
    intro h' hh'
    by_contra hne
    have heq : s'.ipc h' = s.ipc h' := update_of_ne hne _ _
    rw [heq] at hh'
    exact hne (Sum.inr.inj (Option.some.inj ((hI.intr h' hh').symm.trans hlock)))
  have hqueued : s'.queued = s.queued := rfl
  have hmem : ∀ i, i ≠ ch.head → (i ∈ s'.returned ↔ i ∈ s.returned) := by
    intro i hi
    rw [hreturned, mem_cons, or_iff_right hi]
    rfl
  -- a buffer of another process is another buffer
  have hbusy : ∀ q b, q ≠ p → (s.pc q).buf = some b → s'.busy b = s.busy b := by
    intro q b hq hb
    refine update_of_ne (fun heq => hq (hI.bufs q p b hb ?_)) _ _
    rw [hw.buf_eq, heq]
  show Inv blockno s'
  refine ⟨fun q hq => (hin q hq).elim, fun h' hh' => ?_, fun h' hh' => ?_, hI.free, hI.nodup,
    hI.disjoint, hI.bufs, hI.tickets, hI.lt_serial, hI.done_lt, fun q => ?_, hflying.2,
    fun i hi => ?_, ?_⟩
  · rw [hipc h' hh']
    exact hlock
  · have htest : s'.ipc h = .test := update_self _ _ _
    rw [hipc h' (.inr hh'), htest] at hh'
    cases hh'
  · by_cases hq : q = p
    · subst hq
      obtain ⟨hf, hticket, -⟩ := hI.of_waits hw
      have hphase : Phase blockno s' r ch k := .cleared (update_self _ _ _) hdone
      have hf' : Formatted blockno s'.disk r ch := hf.congr (fun _ _ => rfl) rfl rfl
      show Knows blockno s' (s.pc q)
      generalize s.pc q = c at hw
      cases hw <;> exact ⟨hf', hticket, hphase⟩
    · have hne : ∀ i ∈ (s.pc q).owned, i ≠ ch.head :=
        fun i hi heq => hq (hI.disjoint q p i hi (heq ▸ hw.head_mem))
      have hsame : Same s s' (s.pc q) :=
        ⟨fun _ _ => rfl, fun _ _ => rfl, fun _ _ => rfl, fun _ _ => rfl, fun b => hbusy q b hq,
          fun _ _ h => h, fun i hi hi' => (hmem i (hne i hi)).mpr hi', List.Subset.refl _,
          fun _ _ _ h _ => h, fun _ => rfl⟩
      exact (hI.knows q).same hsame
  · have hne : i ≠ ch.head := fun heq => hflying.1 (heq ▸ hi)
    rw [mem_add, hqueued, hmem i hne, ← mem_add] at hi
    obtain ⟨q, r', ch', k', hw', rfl, hb⟩ := hI.owner i hi
    refine ⟨q, r', ch', k', hw', rfl, ?_⟩
    rw [hbusy q _ ?_ hw'.buf_eq, hb]
    rintro rfl
    obtain ⟨-, rfl, -⟩ := hw.unique hw'
    exact hne rfl
  · have hne := hI.body h hh
    have hseen := hI.seen
    rw [toNat_sub_succ hne, toNat_sub_succ (hI.visible hne)] at hseen
    exact Nat.le_of_succ_le_succ hseen

/-- **A step of `virtio_disk_intr`** keeps the invariant, and does not panic. -/
theorem Inv.virtioDiskIntr [DecidableEq P] [DecidableEq H] [DecidableEq B]
    (hI : Inv blockno s) (h : H) : (s.virtioDiskIntr h).Safe (Inv blockno) := by
  cases hh : s.ipc h with
  | body => exact hI.body_step hh
  | out =>
    unfold State.virtioDiskIntr
    rw [hh]
    trivial
  | enter =>
    unfold State.virtioDiskIntr
    rw [hh]
    dsimp only
    split
    · rename_i hfree
      exact hI.igoto (fun _ => rfl) (fun x _ hx => nomatch hfree.symm.trans hx)
        nofun
    · trivial
  | test =>
    have hlock := hI.intr h (.inl hh)
    unfold State.virtioDiskIntr
    rw [hh]
    dsimp only
    split
    · rename_i hne
      exact hI.igoto (fun _ => hlock) (fun _ _ hx => hx) (fun _ => hne)
    · exact hI.igoto (fun h => by rcases h with h | h <;> exact nomatch h)
        (fun x hx h => absurd (Option.some.inj (h.symm.trans hlock)) hx) nofun

/-! ## Steps of the device -/

/-- A step of the device that moves heads from one place to the next. -/
theorem Inv.pass (hI : Inv blockno s) {u : Ring} {v : Device}
    (hqueued : State.queued { s with disk.used := u, dev := v } = s.queued)
    (hreturned : State.returned { s with disk.used := u, dev := v } = s.returned)
    (hbody : s.disk.usedIdx ≠ s.disk.used.idx → s.disk.usedIdx ≠ u.idx)
    (hseen : (u.idx - s.disk.usedIdx).toNat ≤ (v.fill - s.disk.usedIdx).toNat) :
    Inv blockno { s with disk.used := u, dev := v } := by
  refine ⟨hI.lock, hI.intr, fun h hh => hbody (hI.body h hh), hI.free, hI.nodup, hI.disjoint,
    hI.bufs, hI.tickets, hI.lt_serial, hI.done_lt,
    fun p => (hI.knows p).same (.of_eq rfl rfl rfl rfl hqueued hreturned), ?_, fun i hi => ?_,
    hseen⟩
  · rw [hqueued, hreturned]
    exact hI.flying
  · rw [hqueued, hreturned] at hi
    exact hI.owner i hi

theorem coe_append_singleton (l : List (Fin NUM)) (i : Fin NUM) :
    ((l ++ [i] : List (Fin NUM)) : Multiset (Fin NUM)) = i ::ₘ (l : Multiset (Fin NUM)) :=
  coe_eq_coe.mpr (List.perm_append_singleton i l)

theorem coe_eq_cons_erase {l : List (Fin NUM)} (hi : i ∈ l) :
    (l : Multiset (Fin NUM)) = i ::ₘ (l.erase i : Multiset (Fin NUM)) :=
  coe_eq_coe.mpr (List.perm_cons_erase hi)

/-- **The device takes a head** from `avail`. -/
theorem Inv.take (hI : Inv blockno s) (hne : s.dev.last ≠ s.disk.avail.idx) :
    Inv blockno { s with
      dev.last := s.dev.last + 1
      dev.pending := s.dev.pending ++ [s.disk.avail.ring (slot NUM s.dev.last)] } := by
  refine hI.pass (u := s.disk.used) ?_ rfl (fun h => h) hI.seen
  unfold State.queued
  rw [coe_append_singleton, contents_pop s.disk.avail.ring hne, ← cons_coe,
    cons_add]
  exact add_cons _ _ _

theorem Inv.used_lt (hI : Inv blockno s) (hi : i ∈ s.dev.executed) :
    (s.dev.fill - s.disk.usedIdx).toNat < NUM := by
  have hnodup := (nodup_add.mp (nodup_add.mp hI.flying).2.1).2
  have hlt := card_lt hnodup.1 (disjoint_left.mp hnodup.2 (mem_coe.mpr hi))
  rwa [coe_card, length_contents] at hlt

/-- **The device writes a head into `used`.** -/
theorem Inv.enter (hI : Inv blockno s) (hi : i ∈ s.dev.executed) :
    Inv blockno { s with
      disk.used.ring := update s.disk.used.ring (slot NUM s.dev.fill) i
      dev.executed := s.dev.executed.erase i
      dev.fill := s.dev.fill + 1 } := by
  have hlt := hI.used_lt hi
  have hlt' : (s.dev.fill - s.disk.usedIdx).toNat + 1 < 2 ^ 16 := by
    simp only [NUM] at hlt
    omega
  have hcontents : contents (update s.disk.used.ring (slot NUM s.dev.fill) i)
      s.disk.usedIdx (s.dev.fill + 1)
        = contents s.disk.used.ring s.disk.usedIdx s.dev.fill ++ [i] := by
    rw [contents_push _ hlt', contents_write (by decide) _ hlt, update_self]
  refine hI.pass rfl ?_ (fun h => h) ?_
  · unfold State.returned
    rw [hcontents, coe_append_singleton, coe_eq_cons_erase hi, cons_add]
    exact add_cons _ _ _
  · have hseen := hI.seen
    show (s.disk.used.idx - s.disk.usedIdx).toNat ≤ (s.dev.fill + 1 - s.disk.usedIdx).toNat
    rw [toNat_succ_sub hlt']
    omega

/-- **The device executes a request** whose head it has taken: the chain is
the one that its process has formatted. -/
theorem Inv.execute (hI : Inv blockno s) (hi : i ∈ s.dev.pending) :
    ∃ req data, s.disk.read i = some (req, data, i) ∧ Inv blockno { s with
      disk.info := update s.disk.info i { s.disk.info i with status := 0 }
      dev.pending := s.dev.pending.erase i
      dev.executed := s.dev.executed ++ [i]
      done := s.done ++ [⟨s.ticket i, req.type, req.sector, data⟩] } := by
  have hmem : i ∈ s.queued := mem_add.mpr (.inr (mem_coe.mpr hi))
  obtain ⟨p, r, ch, k, hw, rfl, hb⟩ := hI.owner i (mem_add.mpr (.inl hmem))
  obtain ⟨hf, hticket, -⟩ := hI.of_waits hw
  have hqueued : s.queued = ch.head ::ₘ
      ((contents s.disk.avail.ring s.dev.last s.disk.avail.idx : Multiset (Fin NUM))
        + (s.dev.pending.erase ch.head : Multiset (Fin NUM))) := by
    unfold State.queued
    rw [coe_eq_cons_erase hi]
    exact add_cons _ _ _
  have hreturned : ((s.dev.executed ++ [ch.head] : List (Fin NUM)) : Multiset (Fin NUM))
      + (contents s.disk.used.ring s.disk.usedIdx s.dev.fill : Multiset (Fin NUM))
      = ch.head ::ₘ s.returned := by
    rw [coe_append_singleton, cons_add]
    rfl
  refine ⟨_, _, hf.read, ?_⟩
  set s' : State P H B := { s with
    disk.info := update s.disk.info ch.head { s.disk.info ch.head with status := 0 }
    dev.pending := s.dev.pending.erase ch.head
    dev.executed := s.dev.executed ++ [ch.head]
    done := s.done ++ [⟨s.ticket ch.head, _, _, _⟩] }
  change s.queued = ch.head ::ₘ s'.queued at hqueued
  change s'.returned = ch.head ::ₘ s.returned at hreturned
  have hdone : s'.done = s.done ++ [Disk.request blockno r k] := by
    rw [← hticket]
    rfl
  have hflying : s'.queued + s'.returned = s.queued + s.returned := by
    rw [hqueued, hreturned, add_cons, cons_add]
  refine ⟨hI.lock, hI.intr, hI.body, hI.free, hI.nodup, hI.disjoint, hI.bufs, hI.tickets,
    hI.lt_serial, fun q hq => ?_, fun q => ?_, hflying ▸ hI.flying, fun i hi => ?_, hI.seen⟩
  · rw [hdone] at hq
    rcases List.mem_append.mp hq with hq | hq
    · exact hI.done_lt q hq
    · obtain rfl := List.mem_singleton.mp hq
      exact hI.lt_serial p k hw.ticket_eq
  · by_cases hq : q = p
    · subst hq
      have hf' : Formatted blockno s'.disk r ch :=
        hf.congr (fun _ _ => rfl) (by simp [s']) rfl
      have hphase' : Phase blockno s' r ch k := by
        refine .returned hb ?_ ?_ (by simp [s'])
        · rw [hreturned]
          exact mem_cons_self _ _
        · rw [hdone]
          exact List.mem_append_right _ (List.mem_singleton.mpr rfl)
      show Knows blockno s' (s.pc q)
      generalize s.pc q = c at hw
      cases hw <;> exact ⟨hf', hticket, hphase'⟩
    · have hne : ∀ i ∈ (s.pc q).owned, i ≠ ch.head :=
        fun i hi heq => hq (hI.disjoint q p i hi (heq ▸ hw.head_mem))
      have hsame : Same s s' (s.pc q) := by
        refine ⟨fun _ _ => rfl, fun i hi => update_of_ne (hne i hi) _ _, fun _ _ => rfl,
          fun _ _ => rfl, fun _ _ => rfl, fun i hi hmem => ?_, fun i hi hmem => ?_, ?_,
          fun k' hk' a ha hak => ?_, fun _ => rfl⟩
        · rw [hqueued, mem_cons] at hmem
          exact hmem.resolve_left (hne i hi)
        · rw [hreturned]
          exact mem_cons_of_mem hmem
        · rw [hdone]
          exact List.subset_append_left _ _
        · rw [hdone] at ha
          refine (List.mem_append.mp ha).resolve_right (fun ha => hq ?_)
          obtain rfl := List.mem_singleton.mp ha
          exact hI.tickets q p k' hk' (hw.ticket_eq.trans (congrArg some hak))
      exact (hI.knows q).same hsame
  · rw [hflying] at hi
    exact hI.owner i hi

/-! ## Runs -/

theorem Inv.initial : Inv blockno (State.initial : State P H B) where
  lock _ h := nomatch h
  intr _ h := by rcases h with h | h <;> nomatch h
  body _ h := nomatch h
  free _ := ⟨fun h => (nomatch h), fun ⟨_, h⟩ => (nomatch h)⟩
  nodup _ := List.nodup_nil
  disjoint _ _ _ h := nomatch h
  bufs _ _ _ h := nomatch h
  tickets _ _ _ h := nomatch h
  lt_serial _ _ h := nomatch h
  done_lt _ h := nomatch h
  knows _ := trivial
  flying := by simp [State.queued, State.returned, State.initial, Disk.init]
  owner _ h := by simp [State.queued, State.returned, State.initial, Disk.init] at h
  seen := le_rfl

variable [DecidableEq P] [DecidableEq H] [DecidableEq B]

/-- **The invariant is kept by every step**, and no step goes wrong. -/
theorem Inv.step (hI : Inv blockno s) {a : Action P H B} (hok : s.Distinct a) :
    (s.step blockno a).Safe (Inv blockno) := by
  cases a with
  | call p r =>
    simp only [State.step]
    split
    · rename_i hp
      refine hI.goto hp nofun (fun _ _ h => h) rfl (fun q b hb hq => ?_) nofun nofun trivial
      cases hb
      exact absurd hq (hok q)
    · trivial
  | proc p => exact hI.virtioDiskRw p
  | interrupt h =>
    simp only [State.step]
    split
    · exact hI.igoto (fun h => by rcases h with h | h <;> exact nomatch h) (fun _ _ h => h)
        nofun
    · trivial
  | intr h => exact hI.virtioDiskIntr h
  | take =>
    simp only [State.step]
    split
    · rename_i hne
      exact hI.take hne
    · trivial
  | execute i =>
    simp only [State.step]
    split
    · rename_i hi
      obtain ⟨req, data, hread, hnext⟩ := hI.execute hi
      rw [hread]
      exact hnext
    · trivial
  | enter i =>
    simp only [State.step]
    split
    · rename_i hi
      exact hI.enter hi
    · trivial
  | reveal =>
    exact hI.pass (v := s.dev) rfl rfl hI.visible le_rfl

omit [DecidableEq H] [DecidableEq B] in
theorem acquire_busy {s s' : State P H B} {p : P} {c : Pc B} (h : s.acquire p c = .next s') :
    s'.busy = s.busy := by
  unfold State.acquire at h
  split at h
  · cases h
    rfl
  · cases h

/-- **`b->disk` is cleared by the interrupt handler** and by nothing else. -/
theorem busy_cleared {s s' : State P H B} {a : Action P H B}
    (hstep : s.step blockno a = .next s') {b : B} (hb : s.busy b = true) (hb' : s'.busy b = false) :
    ∃ h, a = .intr h ∧ s.ipc h = .body
      ∧ (s.disk.info (s.disk.used.ring (slot NUM s.disk.usedIdx))).b = some b := by
  have hsame : s'.busy = s.busy → False := fun h => by
    rw [h] at hb'
    exact nomatch hb.symm.trans hb'
  cases a with
  | call p r =>
    simp only [State.step] at hstep
    split at hstep <;> cases hstep
    exact (hsame rfl).elim
  | proc p =>
    refine (?_ : False).elim
    simp only [State.step, State.virtioDiskRw] at hstep
    split at hstep
    · cases hstep
    · exact hsame (acquire_busy hstep)
    · exact hsame (acquire_busy hstep)
    · split at hstep <;> cases hstep <;> exact hsame rfl
    · rename_i r c hp
      cases hstep
      simp only [update_apply] at hb'
      split at hb'
      · nomatch hb'
      · exact nomatch hb.symm.trans hb'
    · cases hstep
      exact hsame rfl
    · cases hstep
      exact hsame rfl
    · split at hstep <;> cases hstep <;> exact hsame rfl
    · exact hsame (acquire_busy hstep)
    · cases hstep
      exact hsame rfl
    · split at hstep
      · split at hstep <;> cases hstep
        exact hsame rfl
      · cases hstep
    · cases hstep
      exact hsame rfl
  | interrupt h =>
    simp only [State.step] at hstep
    split at hstep <;> cases hstep
    exact (hsame rfl).elim
  | intr h =>
    simp only [State.step, State.virtioDiskIntr] at hstep
    split at hstep
    · cases hstep
    · split at hstep <;> cases hstep
      exact (hsame rfl).elim
    · split at hstep <;> cases hstep <;> exact (hsame rfl).elim
    · rename_i hh
      split at hstep
      · cases hstep
      · split at hstep
        · cases hstep
        · rename_i b' hinfo
          cases hstep
          refine ⟨h, rfl, hh, ?_⟩
          rw [hinfo]
          by_contra hne
          have heq : update s.busy b' false b = s.busy b :=
            update_of_ne (fun h => hne (congrArg some h.symm)) _ _
          exact nomatch hb.symm.trans (heq.symm.trans hb')
  | take | enter | execute =>
    simp only [State.step] at hstep
    split at hstep
    · first
        | (split at hstep <;> cases hstep <;> exact (hsame rfl).elim)
        | (cases hstep; exact (hsame rfl).elim)
    · cases hstep
  | reveal =>
    cases hstep
    exact (hsame rfl).elim

/-- **The protocol between driver and device.** For any number of processes
that call `virtio_disk_rw` on distinct buffers, any interleaving with
`virtio_disk_intr` and a device that serves requests in any order, in every
state that is reached:

* the requests in flight use disjoint triples of descriptors, none of them
  marked free;
* neither the head that is about to be written into `avail` nor the head that
  the device is about to write into `used` goes to a slot that is still
  unread;
* a step that clears `b->disk` is one of the interrupt handler, at the entry
  of a process that waits for `b`, whose request is executed; a process that
  waits for a buffer with `b->disk` clear has its request executed, and one
  that waits for a buffer with `b->disk` set although its request is executed
  has its head still on the way back;
* a process past the loop that waits, and so one that returns, has its own
  request executed, as it asked for it; the number of a request is new when
  it is published;
* no panic is possible;
* when no request is in flight, all descriptors are free. -/
theorem virtio_protocol {s : State P H B}
    (hreach : Machine.Reach (State.step blockno) State.Distinct .initial s) :
    (∀ p c, (s.pc p).chain = some c → c.toList.Nodup ∧ (∀ i ∈ c.toList, s.disk.free i = false)
      ∧ ∀ q c', (s.pc q).chain = some c' → q ≠ p → c.toList.Disjoint c'.toList)
    ∧ (∀ p r c, s.pc p = .ring r c →
      slot NUM s.disk.avail.idx ∉ contents id s.dev.last s.disk.avail.idx)
    ∧ (∀ i ∈ s.dev.executed, slot NUM s.dev.fill ∉ contents id s.disk.usedIdx s.dev.fill)
    ∧ (∀ a s' b, s.step blockno a = .next s' → s.busy b = true → s'.busy b = false →
      ∃ h p r c k, a = .intr h ∧ (s.pc p).Waits r c k ∧ r.b = b
        ∧ s.disk.used.ring (slot NUM s.disk.usedIdx) = c.head
        ∧ Disk.request blockno r k ∈ s.done)
    ∧ (∀ p r c k, (s.pc p).Waits r c k → s.busy r.b = false →
      Disk.request blockno r k ∈ s.done)
    ∧ (∀ p r c k, (s.pc p).Waits r c k → s.busy r.b = true → (∃ q ∈ s.done, q.ticket = k) →
      c.head ∈ s.dev.executed ∨ c.head ∈ contents s.disk.used.ring s.disk.usedIdx s.dev.fill)
    ∧ (∀ p r k, (s.pc p).Past r k → Disk.request blockno r k ∈ s.done)
    ∧ (∀ q ∈ s.done, q.ticket < s.serial)
    ∧ (∀ a e, s.Distinct a → s.step blockno a ≠ .panic e)
    ∧ ((∀ p, (s.pc p).inFlight = false) → ∀ i, s.disk.free i = true) := by
  have hI : Inv blockno s :=
    hreach.invariant .initial fun _ _ _ hI hok hstep => (hI.step hok).next hstep
  refine ⟨fun p c hc => ⟨?_, fun i hi => ?_, fun q c' hc' hq i hi hi' => ?_⟩, fun p r c hp => ?_,
    fun i hi => slot_notMem (by decide) (hI.used_lt hi), fun a s' b hstep hb hb' => ?_,
    fun p r c k hw hb => ?_, fun p r c k hw hb hdone => ?_, fun p r k hpast => ?_, hI.done_lt,
    fun a e hok => (hI.step hok).not_panic e, fun hnone i => ?_⟩
  · rw [← Pc.owned_of_chain hc]
    exact hI.nodup p
  · exact (hI.free i).mpr ⟨p, by rwa [Pc.owned_of_chain hc]⟩
  · refine hq (hI.disjoint q p i ?_ ?_)
    · rwa [Pc.owned_of_chain hc']
    · rwa [Pc.owned_of_chain hc]
  · exact slot_notMem (by decide) (hI.avail_lt hp List.mem_cons_self nofun)
  · obtain ⟨h, rfl, hh, hinfo⟩ := busy_cleared hstep hb hb'
    obtain ⟨p, r, c, k, hw, hhead, hdone, -, hinfo', -⟩ := hI.front (hI.body h hh)
    rw [hhead] at hinfo
    exact ⟨h, p, r, c, k, rfl, hw, Option.some.inj (hinfo'.symm.trans hinfo), hhead, hdone⟩
  · cases (hI.of_waits hw).2.2 with
    | queued hb' => exact nomatch hb'.symm.trans hb
    | returned hb' => exact nomatch hb'.symm.trans hb
    | cleared _ hdone => exact hdone
  · obtain ⟨q, hq, hk⟩ := hdone
    cases (hI.of_waits hw).2.2 with
    | queued _ _ hnew => exact absurd hk (hnew q hq)
    | returned _ hmem =>
      rwa [State.returned, mem_add, mem_coe, mem_coe] at hmem
    | cleared hb' => exact nomatch hb.symm.trans hb'
  · have hk := hI.knows p
    generalize s.pc p = c at hpast hk
    cases hpast with
    | clear => exact hk.2
    | freeChain => exact hk.2.2
    | leave => exact hk
  · by_contra hne
    obtain ⟨p, hp⟩ := (hI.free i).mp (by simpa using hne)
    rw [Pc.owned_of_not_inFlight (hnone p)] at hp
    nomatch hp

end Knows

instance [Fintype P] [DecidableEq B] (s : State P H B) (a : Action P H B) :
    Decidable (s.Distinct a) := by
  cases a <;> unfold State.Distinct <;> infer_instance

/-- Two processes with a request each; the device serves the second first. -/
def overtaking : List (Action (Fin 2) (Fin 1) (Fin 2)) :=
  [[.call 0 ⟨0, true⟩, .call 1 ⟨1, false⟩], List.replicate 6 (.proc 0), List.replicate 6 (.proc 1),
    [.take, .take, .execute 3, .enter 3, .reveal, .interrupt 0], List.replicate 4 (.intr 0),
    List.replicate 6 (.proc 1)].flatten

/-- The second process is about to return, and its own request is executed,
while the first one still waits. -/
theorem virtio_protocol_overtaking :
    ∃ s : State (Fin 2) (Fin 1) (Fin 2),
      Machine.Reach (State.step fun b : Fin 2 => BitVec.ofNat 32 b) State.Distinct .initial s
      ∧ s.pc 0 = .sleepBuf ⟨0, true⟩ ⟨0, 1, 2⟩ 0 ∧ s.pc 1 = .leave ⟨1, false⟩ 1
      ∧ Disk.request (fun b : Fin 2 => BitVec.ofNat 32 b) ⟨1, false⟩ 1 ∈ s.done := by
  have hrun : (Machine.run (State.step fun b : Fin 2 => BitVec.ofNat 32 b) State.Distinct
      (.initial : State (Fin 2) (Fin 1) (Fin 2)) overtaking).Next fun s =>
        s.pc 0 = .sleepBuf ⟨0, true⟩ ⟨0, 1, 2⟩ 0 ∧ s.pc 1 = .leave ⟨1, false⟩ 1 := by
    decide +kernel
  obtain ⟨s, hreach, h₀, h₁⟩ := Machine.exists_reach_of_run hrun
  have hpast := (virtio_protocol hreach).2.2.2.2.2.2.1
  exact ⟨s, hreach, h₀, h₁, hpast 1 _ _ (h₁ ▸ .leave)⟩

end Xv6.Virtio
