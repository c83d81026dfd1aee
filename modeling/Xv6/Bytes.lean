import Mathlib

/-!
# Byte areas and the little-endian words stored in them

A fixed area of memory – a disk block, a page of RAM – is a function from
its offsets to bytes. Programs written in C overlay such an area with
integers: a field of `w` bytes at offset `off` holds the number whose
base-256 digits, least significant first, are the bytes
`off, …, off + w - 1`.

`getLE` reads such a field and `setLE` writes one. A bitmap is an area too: bit `i` is in byte
`i / 8`. Offsets past the end read as zero and are not written.
-/

/-- An area of `n` bytes. -/
abbrev Bytes (n : ℕ) : Type := Fin n → UInt8

namespace Bytes

variable {n : ℕ}

/-- The byte at an offset, zero past the end. -/
def byteAt (b : Bytes n) (off : ℕ) : UInt8 :=
  if h : off < n then b ⟨off, h⟩ else 0

/-- The area whose bytes are all `c`, as `memset` leaves it. -/
def fill (n : ℕ) (c : UInt8) : Bytes n := fun _ => c

/-- The number stored in the `w` bytes at `off`, least significant first. -/
def getLE (b : Bytes n) : (off w : ℕ) → ℕ
  | _, 0 => 0
  | off, w + 1 => (b.byteAt off).toNat + 256 * getLE b (off + 1) w

/-- Store the `w` low bytes of `v` at `off`, least significant first. -/
def setLE (b : Bytes n) (off w v : ℕ) : Bytes n :=
  fun i => if off ≤ i ∧ (i : ℕ) < off + w
    then UInt8.ofNat (v / 256 ^ ((i : ℕ) - off)) else b i

/-- Copy bytes to `off`, as `memmove` does from another area. -/
def blit (b : Bytes n) (off : ℕ) (src : List UInt8) : Bytes n :=
  fun i => if off ≤ i ∧ (i : ℕ) < off + src.length then src.getD ((i : ℕ) - off) 0 else b i

theorem byteAt_setLE_of_mem (b : Bytes n) {off w v k : ℕ} (hn : k < n)
    (hk : off ≤ k ∧ k < off + w) :
    (b.setLE off w v).byteAt k = UInt8.ofNat (v / 256 ^ (k - off)) := by
  unfold byteAt setLE
  rw [dif_pos hn, if_pos hk]

theorem byteAt_setLE_of_notMem (b : Bytes n) {off w v k : ℕ}
    (hk : ¬ (off ≤ k ∧ k < off + w)) :
    (b.setLE off w v).byteAt k = b.byteAt k := by
  unfold byteAt setLE
  by_cases hn : k < n
  · rw [dif_pos hn, dif_pos hn, if_neg hk]
  · rw [dif_neg hn, dif_neg hn]

theorem byteAt_blit_of_mem (b : Bytes n) {off k : ℕ} {src : List UInt8} (hn : k < n)
    (hk : off ≤ k ∧ k < off + src.length) : (b.blit off src).byteAt k = src.getD (k - off) 0 := by
  unfold byteAt blit
  rw [dif_pos hn, if_pos hk]

theorem byteAt_blit_of_notMem (b : Bytes n) {off k : ℕ} {src : List UInt8}
    (hk : ¬ (off ≤ k ∧ k < off + src.length)) : (b.blit off src).byteAt k = b.byteAt k := by
  unfold byteAt blit
  by_cases hn : k < n
  · rw [dif_pos hn, dif_pos hn, if_neg hk]
  · rw [dif_neg hn, dif_neg hn]

theorem getLE_congr {b c : Bytes n} {off w : ℕ}
    (h : ∀ k, off ≤ k → k < off + w → b.byteAt k = c.byteAt k) :
    b.getLE off w = c.getLE off w := by
  induction w generalizing off with
  | zero => rfl
  | succ w ih =>
    simp only [getLE]
    rw [h off le_rfl (by omega), ih (fun k h₁ h₂ => h k (by omega) (by omega))]

/-- **Reading beside a store** gives what was there before. -/
theorem getLE_setLE_disjoint (b : Bytes n) {off w off' w' v : ℕ}
    (h : off' + w' ≤ off ∨ off + w ≤ off') :
    (b.setLE off w v).getLE off' w' = b.getLE off' w' :=
  getLE_congr (fun k h₁ h₂ => byteAt_setLE_of_notMem b (by omega))

/-- The digits of a store, read from the `k`-th one on. -/
theorem getLE_setLE_suffix (b : Bytes n) {off w v : ℕ} (hn : off + w ≤ n)
    (j k : ℕ) (hjk : k + j = w) :
    (b.setLE off w v).getLE (off + k) j = v / 256 ^ k % 256 ^ j := by
  induction j generalizing k with
  | zero => simp [getLE, Nat.mod_one]
  | succ j ih =>
    have hstep := ih (k + 1) (by omega)
    rw [← Nat.add_assoc] at hstep
    simp only [getLE]
    rw [hstep, byteAt_setLE_of_mem b (by omega) (by omega),
      Nat.add_sub_cancel_left, UInt8.toNat_ofNat', pow_succ (n := k), ← Nat.div_div_eq_div_mul,
      pow_succ' (n := j)]
    exact (Nat.mod_mul).symm

/-- **Reading back a store** gives the number stored, cut to the field. -/
theorem getLE_setLE_same (b : Bytes n) {off w v : ℕ} (hn : off + w ≤ n) :
    (b.setLE off w v).getLE off w = v % 256 ^ w := by
  have h := getLE_setLE_suffix b (v := v) hn w 0 (by omega)
  simpa using h

theorem getLE_lt (b : Bytes n) (off w : ℕ) : b.getLE off w < 256 ^ w := by
  induction w generalizing off with
  | zero => simp [getLE]
  | succ w ih =>
    have hb := (b.byteAt off).toNat_lt
    have hw := ih (off + 1)
    simp only [getLE, pow_succ]
    omega

@[simp] theorem byteAt_fill_zero (off : ℕ) : (fill n 0).byteAt off = 0 := by
  unfold byteAt fill
  split <;> rfl

@[simp] theorem getLE_fill_zero (off w : ℕ) : (fill n 0).getLE off w = 0 := by
  induction w generalizing off with
  | zero => rfl
  | succ w ih =>
    simp only [getLE]
    rw [byteAt_fill_zero, ih]
    rfl

/-! ## Arrays of words -/

/-- Store `count` words of four bytes at `off`, one behind the other. -/
def setWords (b : Bytes n) (off count : ℕ) (word : ℕ → ℕ) : Bytes n :=
  fun i => if off ≤ i ∧ (i : ℕ) < off + 4 * count
    then UInt8.ofNat (word (((i : ℕ) - off) / 4) / 256 ^ (((i : ℕ) - off) % 4)) else b i

theorem getLE_setWords (b : Bytes n) {off count j : ℕ} {word : ℕ → ℕ}
    (hn : off + 4 * count ≤ n) (hj : j < count) :
    (b.setWords off count word).getLE (off + 4 * j) 4 = word j % 256 ^ 4 := by
  rw [← getLE_setLE_same b (v := word j) (show off + 4 * j + 4 ≤ n by omega)]
  refine getLE_congr fun k hk hk' => ?_
  have hquot : (k - off) / 4 = j := by omega
  have hrem : (k - off) % 4 = k - (off + 4 * j) := by omega
  rw [byteAt_setLE_of_mem b (by omega) ⟨hk, hk'⟩]
  unfold byteAt setWords
  rw [dif_pos (by omega), if_pos (show off ≤ k ∧ k < off + 4 * count by omega)]
  simp only [hquot, hrem]

theorem getLE_setWords_disjoint (b : Bytes n) {off count off' w : ℕ} {word : ℕ → ℕ}
    (h : off' + w ≤ off ∨ off + 4 * count ≤ off') :
    (b.setWords off count word).getLE off' w = b.getLE off' w := by
  refine getLE_congr fun k hk hk' => ?_
  unfold byteAt setWords
  split
  · rw [if_neg (show ¬ (off ≤ k ∧ k < off + 4 * count) by omega)]
  · rfl

/-! ## Bitmaps -/

/-- Bit `i` of the area. -/
def getBit (b : Bytes n) (i : ℕ) : Bool := (b.byteAt (i / 8)).toNat.testBit (i % 8)

/-- Set bit `i`: `b[i/8] |= 1 << (i % 8)`. -/
def setBit (b : Bytes n) (i : ℕ) : Bytes n :=
  fun j => if (j : ℕ) = i / 8 then UInt8.ofNat ((b j).toNat ||| 1 <<< (i % 8)) else b j

/-- Clear bit `i`: `b[i/8] &= ~(1 << (i % 8))`. -/
def clearBit (b : Bytes n) (i : ℕ) : Bytes n :=
  fun j => if (j : ℕ) = i / 8 then UInt8.ofNat ((b j).toNat &&& (2 ^ 8 - (1 <<< (i % 8) + 1)))
    else b j

theorem testBit_one_shiftLeft (i k : ℕ) : (1 <<< i).testBit k = decide (i = k) := by
  rw [Nat.shiftLeft_eq, one_mul, Nat.testBit_two_pow]

theorem one_shiftLeft_lt (i : ℕ) : 1 <<< (i % 8) < 2 ^ 8 := by
  rw [Nat.shiftLeft_eq, one_mul]
  exact Nat.pow_lt_pow_right (by omega) (Nat.mod_lt _ (by omega))

/-- A byte is changed in one bit. -/
theorem getBit_update {b c : Bytes n} {i : ℕ} {f : ℕ → ℕ} {v : Bool} (hi : i / 8 < n)
    (hc : ∀ j, c j = if (j : ℕ) = i / 8 then UInt8.ofNat (f (b j).toNat) else b j)
    (hf : ∀ x < 2 ^ 8, f x < 2 ^ 8
      ∧ ∀ k < 8, (f x).testBit k = if i % 8 = k then v else x.testBit k) (k : ℕ) :
    c.getBit k = if k = i then v else b.getBit k := by
  unfold getBit byteAt
  by_cases hk : k / 8 = i / 8
  · obtain ⟨hlt, hbit⟩ := hf _ (b ⟨k / 8, hk ▸ hi⟩).toNat_lt
    have heq : i % 8 = k % 8 ↔ k = i := by omega
    rw [dif_pos (hk ▸ hi), dif_pos (hk ▸ hi), hc, if_pos hk, UInt8.toNat_ofNat',
      Nat.mod_eq_of_lt hlt, hbit _ (Nat.mod_lt _ (by omega))]
    simp only [heq]
  · rw [if_neg fun h : k = i => hk (h ▸ rfl)]
    split
    · rw [hc, if_neg hk]
    · rfl

/-- **Setting a bit** sets that bit and no other. -/
theorem getBit_setBit (b : Bytes n) {i : ℕ} (hi : i / 8 < n) (k : ℕ) :
    (b.setBit i).getBit k = (decide (k = i) || b.getBit k) := by
  rw [getBit_update (b := b) (c := b.setBit i) (f := fun x => x ||| 1 <<< (i % 8)) (v := true) hi
    (fun _ => rfl) fun x hx => ⟨Nat.or_lt_two_pow hx (one_shiftLeft_lt i), fun k _ => ?_⟩]
  · by_cases hk : k = i <;> simp [hk]
  · rw [Nat.testBit_or, testBit_one_shiftLeft]
    by_cases hk : i % 8 = k <;> simp [hk]

/-- **Clearing a bit** clears that bit and no other. -/
theorem getBit_clearBit (b : Bytes n) {i : ℕ} (hi : i / 8 < n) (k : ℕ) :
    (b.clearBit i).getBit k = (decide (k ≠ i) && b.getBit k) := by
  rw [getBit_update (b := b) (c := b.clearBit i)
    (f := fun x => x &&& (2 ^ 8 - (1 <<< (i % 8) + 1))) (v := false) hi (fun _ => rfl)
    fun x hx => ⟨lt_of_le_of_lt Nat.and_le_left hx, fun k hk => ?_⟩]
  · by_cases hk : k = i <;> simp [hk]
  · rw [Nat.testBit_and, Nat.testBit_two_pow_sub_succ (one_shiftLeft_lt i), testBit_one_shiftLeft]
    by_cases hik : i % 8 = k <;> simp [hik, hk]

end Bytes
