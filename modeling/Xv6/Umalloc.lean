import Mathlib
import Xv6.Prog
import Xv6.CircularList
import Xv6.Spans

/-!
# `malloc` and `free`

The allocator of user programs (`umalloc.c`). Free memory is a circular list of blocks that begin
with a header: the address of the next block and the size of this one, in units of a header. The
headers are a map from addresses here, and a size is kept in a `uint`. The list has one node that is
not in the memory obtained, `base`, and it is entered at `freep`, which `malloc` and `free` move.

The two searches along the list are loops that need not end for an arbitrary map of headers. They
are run with a bound on the number of steps; the runs that reach it end with `Stop.loops`.

`sbrk` is a parameter, and so is the state of the system that it is called in. It is
given the number of bytes that the code computes, which is what the call turns into an `int`.
-/

open Function

namespace Xv6.Umalloc

/-- `sizeof(Header)` -/
def headerSize : ℕ := 16

/-- `struct { union header *ptr; uint size; }` -/
structure Header where
  ptr : ℕ
  size : ℕ
deriving DecidableEq, Repr

/-- **The state of the allocator**: the headers in memory, `freep`, and the system. -/
@[ext]
structure Heap (K : Type) where
  hdr : ℕ → Header
  freep : ℕ
  sys : K

/-- How a call can fail to return. -/
inductive Stop (E : Type) where
  | loops
  | sys (e : E)
deriving DecidableEq, Repr

/-- `(char*)-1` -/
def minusOne : ℕ := 2 ^ 64 - 1

variable {E K : Type}

namespace Heap

/-- `a->s.ptr = v` -/
def setPtr (h : Heap K) (a v : ℕ) : Heap K :=
  { h with hdr := update h.hdr a { h.hdr a with ptr := v } }

/-- `a->s.size = v` -/
def setSize (h : Heap K) (a v : ℕ) : Heap K :=
  { h with hdr := update h.hdr a { h.hdr a with size := v } }

/-- `freep = a` -/
def setFreep (h : Heap K) (a : ℕ) : Heap K := { h with freep := a }

/-- The successors of the nodes of the list. -/
def next (h : Heap K) (a : ℕ) : ℕ := (h.hdr a).ptr

/-- The size of the block at an address. -/
def size (h : Heap K) (a : ℕ) : ℕ := (h.hdr a).size

section

variable (h : Heap K) (a b v : ℕ)

@[simp]
theorem next_setPtr : (h.setPtr a v).next b = if b = a then v else h.next b := by
  show (update h.hdr a _ b).ptr = _
  rw [update_apply]
  split_ifs <;> rfl

@[simp]
theorem size_setPtr : (h.setPtr a v).size b = h.size b := by
  show (update h.hdr a _ b).size = _
  rw [update_apply]
  split_ifs with hb
  · rw [hb]
    rfl
  · rfl

@[simp]
theorem next_setSize : (h.setSize a v).next b = h.next b := by
  show (update h.hdr a _ b).ptr = _
  rw [update_apply]
  split_ifs with hb
  · rw [hb]
    rfl
  · rfl

@[simp]
theorem size_setSize : (h.setSize a v).size b = if b = a then v else h.size b := by
  show (update h.hdr a _ b).size = _
  rw [update_apply]
  split_ifs <;> rfl

@[simp] theorem next_setFreep : (h.setFreep a).next b = h.next b := rfl

@[simp] theorem size_setFreep : (h.setFreep a).size b = h.size b := rfl

@[simp] theorem freep_setFreep : (h.setFreep a).freep = a := rfl

end

/-- A call of the system. -/
def onSys {α : Type} (m : Prog E K α) : Prog (Stop E) (Heap K) α := fun h =>
  match m h.sys with
  | .ok (a, k) => .ok (a, { h with sys := k })
  | .error e => .error (.sys e)

theorem onSys_ends {α : Type} {m : Prog E K α} {h : Heap K} {P : E → Prop} {Q : α → K → Prop}
    (hm : m.Ends h.sys P Q) :
    (onSys m).Ends h (fun e => ∃ e', e = .sys e' ∧ P e') fun a h' =>
      ∃ k, h' = { h with sys := k } ∧ Q a k := by
  unfold Prog.Ends onSys at *
  cases hrun : m h.sys with
  | ok r =>
    rw [hrun] at hm
    exact ⟨r.2, rfl, hm⟩
  | error e =>
    rw [hrun] at hm
    exact ⟨e, rfl, hm⟩

end Heap

/-! ## `free` -/

/-- **Where the search of `free` stops**: between `p` and its successor, or at the end of the list
that is the end of the memory. -/
def Stops (h : Heap K) (bp p : ℕ) : Prop :=
  (p < bp ∧ bp < h.next p) ∨ (h.next p ≤ p ∧ (p < bp ∨ bp < h.next p))
  deriving Decidable

/-- `for(p = freep; !(bp > p && bp < p->s.ptr); p = p->s.ptr) …` -/
def freeLoop (h : Heap K) (bp : ℕ) : ℕ → ℕ → Option ℕ
  | 0, _ => none
  | k + 1, p => if Stops h bp p then some p else freeLoop h bp k (h.next p)

/-- `if(bp + bp->s.size == p->s.ptr) …` -/
def joinUpper (bp p : ℕ) (h : Heap K) : Heap K :=
  if bp + headerSize * h.size bp = h.next p then
    (h.setSize bp ((h.size bp + h.size (h.next p)) % 2 ^ 32)).setPtr bp (h.next (h.next p))
  else h.setPtr bp (h.next p)

/-- `if(p + p->s.size == bp) …` -/
def joinLower (bp p : ℕ) (h : Heap K) : Heap K :=
  if p + headerSize * h.size p = bp then
    (h.setSize p ((h.size p + h.size bp) % 2 ^ 32)).setPtr p (h.next bp)
  else h.setPtr p bp

/-- `free` -/
def free (fuel ap : ℕ) : Prog (Stop E) (Heap K) Unit := do
  let bp := ap - headerSize
  let h ← Prog.get
  match freeLoop h bp fuel h.freep with
  | none => Prog.panic .loops
  | some p => do
    Prog.modify (joinUpper bp p)
    Prog.modify (joinLower bp p)
    Prog.modify fun h => h.setFreep p

/-! ## `malloc` -/

/-- `nunits = (nbytes + sizeof(Header) - 1)/sizeof(Header) + 1` -/
def nunits (nbytes : ℕ) : ℕ := ((nbytes + headerSize - 1) / headerSize + 1) % 2 ^ 32

/-- The units that `morecore` asks for. -/
def coreUnits (nu : ℕ) : ℕ := if nu < 4096 then 4096 else nu

section

variable (base : ℕ) (sbrk : ℕ → Prog E K ℕ) (fuel : ℕ)

/-- `morecore` -/
def morecore (nu : ℕ) : Prog (Stop E) (Heap K) ℕ := do
  let nu := coreUnits nu
  let p ← Heap.onSys (sbrk (nu * headerSize))
  if p = minusOne then pure 0
  else do
    Prog.modify fun h => h.setSize p nu
    free fuel (p + headerSize)
    let h ← Prog.get
    pure h.freep

/-- The block found is taken, or its end if it is larger. -/
def take (nunits prevp p : ℕ) : Prog (Stop E) (Heap K) ℕ := do
  let h ← Prog.get
  if h.size p = nunits then do
    Prog.modify fun h => (h.setPtr prevp (h.next p)).setFreep prevp
    pure (p + headerSize)
  else do
    let size := h.size p - nunits
    let p' := p + headerSize * size
    Prog.modify fun h => ((h.setSize p size).setSize p' nunits).setFreep prevp
    pure (p' + headerSize)

/-- `for(p = prevp->s.ptr; ; prevp = p, p = p->s.ptr) …` -/
def mallocLoop (nunits : ℕ) : ℕ → ℕ → ℕ → Prog (Stop E) (Heap K) ℕ
  | 0, _, _ => Prog.panic .loops
  | k + 1, prevp, p => do
    let h ← Prog.get
    if nunits ≤ h.size p then take nunits prevp p
    else if p = h.freep then do
      let p ← morecore sbrk fuel nunits
      if p = 0 then pure 0
      else do
        let h ← Prog.get
        mallocLoop nunits k p (h.next p)
    else mallocLoop nunits k p (h.next p)

/-- `base.s.ptr = freep = prevp = &base; base.s.size = 0;` -/
def Heap.start (base : ℕ) (h : Heap K) : Heap K :=
  if h.freep = 0 then ((h.setPtr base base).setSize base 0).setFreep base else h

/-- `malloc` -/
def malloc (nbytes : ℕ) : Prog (Stop E) (Heap K) ℕ := do
  Prog.modify (Heap.start base)
  let h ← Prog.get
  mallocLoop sbrk fuel (nunits nbytes) fuel h.freep (h.next h.freep)

end

end Xv6.Umalloc
