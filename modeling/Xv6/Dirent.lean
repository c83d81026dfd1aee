import Mathlib
import Xv6.FsLayout

/-!
# Directory entries and path names

A directory is a file made of entries, and an entry is an inode number with
a name of at most `DIRSIZ` bytes. The name is not a C string: one of exactly
`DIRSIZ` bytes has no terminator. It is written by `strncpy` and compared by
`strncmp`, and what both agree on is `cstr`, the bytes before the first NUL
among the first `DIRSIZ`: two names compare equal when these are the same
(`strncmp_eq_zero`), and copying a name keeps them (`cstr_strncpy`).

A path is walked by `skipelem`, which takes one element off its front.
-/

namespace Xv6

open List

/-- The longest name of a directory entry. -/
def DIRSIZ : ℕ := 14

/-- The inode number of the root directory. -/
def ROOTINO : ℕ := 1

/-- The size of the buffer a path is copied to. -/
def MAXPATH : ℕ := 128

/-- The size of a directory entry on the disk. -/
def DIRENTSIZE : ℕ := 16

/-! ## Strings

The bytes of a string up to its end; reading on past the end of the list
reads the NUL that ends the string. -/

/-- Compare at most `n` bytes of two strings. -/
def strncmp : ℕ → List UInt8 → List UInt8 → ℤ
  | 0, _, _ => 0
  | n + 1, p, q =>
    if p.headD 0 ≠ 0 ∧ p.headD 0 = q.headD 0 then strncmp n p.tail q.tail
    else (p.headD 0).toNat - (q.headD 0).toNat

/-- Copy a string to a field of `n` bytes, padded with NULs. -/
def strncpy : List UInt8 → ℕ → List UInt8
  | _, 0 => []
  | t, n + 1 =>
    if t.headD 0 = 0 then replicate (n + 1) 0 else t.headD 0 :: strncpy t.tail n

theorem length_strncpy (t : List UInt8) (n : ℕ) : (strncpy t n).length = n := by
  induction n generalizing t with
  | zero => rfl
  | succ n ih =>
    rw [strncpy]
    split
    · exact length_replicate
    · rw [length_cons, ih]

/-- The string in a field of `n` bytes. -/
def cstr (n : ℕ) (s : List UInt8) : List UInt8 := (s.take n).takeWhile (· ≠ 0)

theorem cstr_succ (n : ℕ) (s : List UInt8) :
    cstr (n + 1) s = if s.headD 0 = 0 then [] else s.headD 0 :: cstr n s.tail := by
  cases s with
  | nil => rfl
  | cons c s =>
    by_cases hc : c = 0
    · simp [cstr, hc]
    · simp [cstr, hc]

/-- **Two names compare equal when they are the same string.** -/
theorem strncmp_eq_zero {n : ℕ} {p q : List UInt8} :
    strncmp n p q = 0 ↔ cstr n p = cstr n q := by
  induction n generalizing p q with
  | zero => simp [strncmp, cstr]
  | succ n ih =>
    rw [strncmp, cstr_succ, cstr_succ]
    by_cases hp : p.headD 0 = 0
    · by_cases hq : q.headD 0 = 0
      · rw [if_neg (fun h => h.1 hp), if_pos hp, if_pos hq, hp, hq]
        simp
      · have hpos : (q.headD 0).toNat ≠ 0 := fun h => hq (UInt8.toNat_inj.mp h)
        simp only [hp, ne_eq, not_true_eq_false, false_and, if_false, if_true, hq]
        constructor
        · intro h
          simp only [UInt8.toNat_zero] at h
          omega
        · exact fun h => absurd h.symm (cons_ne_nil _ _)
    · by_cases hpq : p.headD 0 = q.headD 0
      · have hq : q.headD 0 ≠ 0 := hpq ▸ hp
        rw [if_pos ⟨hp, hpq⟩, if_neg hp, if_neg hq, ih, hpq, cons_inj_right]
      · have hne : (p.headD 0).toNat ≠ (q.headD 0).toNat := fun h =>
          hpq (UInt8.toNat_inj.mp h)
        rw [if_neg (fun h => hpq h.2), if_neg hp]
        constructor
        · intro h
          omega
        · intro h
          split at h
          · exact absurd h (cons_ne_nil _ _)
          · exact absurd (cons.inj h).1 hpq

theorem cstr_strncpy (n : ℕ) (t : List UInt8) : cstr n (strncpy t n) = cstr n t := by
  induction n generalizing t with
  | zero => simp [cstr]
  | succ n ih =>
    rw [strncpy, cstr_succ n t]
    split
    · simp [cstr, replicate_succ]
    · rename_i hc
      rw [cstr_succ, headD_cons, if_neg hc, tail_cons, ih]

/-- Compare two names. -/
def namecmp (s t : List UInt8) : ℤ := strncmp DIRSIZ s t

theorem namecmp_strncpy (s t : List UInt8) :
    namecmp s (strncpy t DIRSIZ) = 0 ↔ namecmp s t = 0 := by
  rw [namecmp, namecmp, strncmp_eq_zero, strncmp_eq_zero, cstr_strncpy]

theorem namecmp_comm {s t : List UInt8} : namecmp s t = 0 ↔ namecmp t s = 0 := by
  rw [namecmp, namecmp, strncmp_eq_zero, strncmp_eq_zero, eq_comm]

/-- The name of a directory in itself. -/
def dot : List UInt8 := [46]

/-- The name of the parent in a directory. -/
def dotdot : List UInt8 := [46, 46]

/-! ## Directories -/

/-- A directory entry. -/
structure Dirent where
  inum : ℕ
  name : List UInt8
  deriving DecidableEq, Repr

/-- An entry of zero bytes, which is free. -/
def Dirent.zero : Dirent := ⟨0, replicate DIRSIZ 0⟩

/-- The entry that is written for a name; its inode number is a `ushort`. -/
def Dirent.make (inum : ℕ) (name : List UInt8) : Dirent :=
  ⟨inum % 2 ^ 16, strncpy name DIRSIZ⟩

/-- The entry is used and has the name. -/
def Dirent.Matches (name : List UInt8) (e : Dirent) : Prop :=
  e.inum ≠ 0 ∧ namecmp name e.name = 0
  deriving Decidable

/-- The place of the first entry with the name. -/
def findName (ents : List Dirent) (name : List UInt8) : Option ℕ :=
  ents.findIdx? fun e => e.Matches name

/-- The place of the first free entry, or the end. -/
def freeSlot (ents : List Dirent) : ℕ := ents.findIdx fun e => e.inum = 0

/-- Write an entry at a place of the directory or at its end. -/
def writeSlot (ents : List Dirent) (k : ℕ) (e : Dirent) : List Dirent :=
  if k < ents.length then ents.set k e else ents ++ [e]

/-- What a name leads to. -/
def lookup (ents : List Dirent) (name : List UInt8) : Option ℕ :=
  (findName ents name).bind fun k => ents[k]?.map (·.inum)

theorem findName_some {ents : List Dirent} {name : List UInt8} {k : ℕ}
    (h : findName ents name = some k) : ∃ e, ents[k]? = some e ∧ e.Matches name := by
  rw [findName, findIdx?_eq_some_iff_getElem] at h
  obtain ⟨hk, hm, -⟩ := h
  exact ⟨ents[k], getElem?_eq_getElem hk, of_decide_eq_true hm⟩

theorem findName_none {ents : List Dirent} {name : List UInt8}
    (h : findName ents name = none) {e : Dirent} (he : e ∈ ents) : ¬ e.Matches name := by
  rw [findName, findIdx?_eq_none_iff] at h
  exact of_decide_eq_false (h e he)

theorem freeSlot_spec (ents : List Dirent) :
    freeSlot ents ≤ ents.length ∧
      ∀ e, ents[freeSlot ents]? = some e → e.inum = 0 := by
  refine ⟨List.findIdx_le_length, fun e he => ?_⟩
  obtain ⟨hk, rfl⟩ := List.getElem?_eq_some_iff.mp he
  exact of_decide_eq_true (List.findIdx_getElem (w := hk))

/-! ## Paths -/

/-- The byte between the elements of a path. -/
def slash : UInt8 := 47

/-- Take the next element off a path: what is left of the path, without
leading slashes, and the element, cut to `DIRSIZ` bytes. -/
def skipelem (path : List UInt8) : Option (List UInt8 × List UInt8) :=
  let path := path.dropWhile (· = slash)
  if path = [] then none
  else
    some ((path.dropWhile (· ≠ slash)).dropWhile (· = slash),
      (path.takeWhile (· ≠ slash)).take DIRSIZ)

/-- The elements of a path: its maximal non-empty parts without a slash. -/
def components (path : List UInt8) : List (List UInt8) :=
  (path.splitOnP (· = slash)).filter (· ≠ [])

theorem components_nil : components [] = [] := by simp [components]

theorem components_cons_slash (path : List UInt8) :
    components (slash :: path) = components path := by
  simp [components, splitOnP_cons_eq_if_modifyHead]

theorem components_dropWhile_slash (path : List UInt8) :
    components (path.dropWhile (· = slash)) = components path := by
  induction path with
  | nil => rfl
  | cons c path ih =>
    by_cases hc : c = slash
    · rw [dropWhile_cons, if_pos (decide_eq_true hc), ih, hc, components_cons_slash]
    · rw [dropWhile_cons, if_neg (by simpa using hc)]

/-- A path that starts with an element has it as its first component. -/
theorem components_of_ne_slash {path : List UInt8} {c : UInt8} (hc : c ≠ slash) :
    components (c :: path)
      = (c :: path.takeWhile (· ≠ slash)) :: components (path.dropWhile (· ≠ slash)) := by
  have hword : ∀ x ∈ c :: path.takeWhile (· ≠ slash), decide (x = slash) = false := by
    intro x hx
    rcases mem_cons.mp hx with rfl | hx
    · simpa using hc
    · have h := all_takeWhile (l := path) (p := fun x => decide (x ≠ slash))
      simpa using all_eq_true.mp h x hx
  have hsplit : c :: path
      = (c :: path.takeWhile (· ≠ slash)) ++ path.dropWhile (· ≠ slash) := by
    rw [cons_append, takeWhile_append_dropWhile]
  cases hrest : path.dropWhile (· ≠ slash) with
  | nil =>
    rw [hrest, append_nil] at hsplit
    rw [components_nil, hsplit, components, splitOnP_eq_singleton hword]
    rfl
  | cons d rest =>
    have hd : d = slash := by
      have h := head?_dropWhile_not (fun x => decide (x ≠ slash)) path
      rw [hrest] at h
      simpa using h
    rw [hrest] at hsplit
    rw [hd] at hsplit ⊢
    rw [components_cons_slash, hsplit, components,
      splitOnP_append_cons_of_forall_mem hword _ (by simp)]
    rfl

/-- **A path without a next element has no components.** -/
theorem skipelem_none {path : List UInt8} (h : skipelem path = none) :
    components path = [] := by
  rw [skipelem] at h
  split at h
  · rename_i hnil
    rw [← components_dropWhile_slash, hnil, components_nil]
  · cases h

/-- **The element taken is the first component**, what is left has the other
ones, is shorter, and is empty when there are none. -/
theorem skipelem_some {path rest name : List UInt8} (h : skipelem path = some (rest, name)) :
    ∃ c, components path = c :: components rest ∧ name = c.take DIRSIZ ∧
      rest.length < path.length ∧ (rest = [] ↔ components rest = []) := by
  rw [skipelem] at h
  split at h
  · cases h
  · rename_i hne
    obtain ⟨rfl, rfl⟩ := Prod.mk.inj (Option.some.inj h)
    have hlen : (path.dropWhile (· = slash)).length ≤ path.length :=
      (dropWhile_suffix _).length_le
    cases hp : path.dropWhile (· = slash) with
    | nil => exact absurd hp hne
    | cons c tail =>
      have hc : c ≠ slash := by
        have h := head?_dropWhile_not (fun x => decide (x = slash)) path
        rw [hp] at h
        simpa using h
      have htake : (c :: tail).takeWhile (· ≠ slash) = c :: tail.takeWhile (· ≠ slash) := by
        rw [takeWhile_cons, if_pos (by simpa using hc)]
      have hdrop : (c :: tail).dropWhile (· ≠ slash) = tail.dropWhile (· ≠ slash) := by
        rw [dropWhile_cons, if_pos (by simpa using hc)]
      rw [htake, hdrop]
      refine ⟨c :: tail.takeWhile (· ≠ slash), ?_, rfl, ?_, ?_⟩
      · rw [← components_dropWhile_slash path, hp, components_of_ne_slash hc,
          components_dropWhile_slash]
      · have h₁ := (dropWhile_suffix (l := tail.dropWhile (· ≠ slash))
          (fun x => decide (x = slash))).length_le
        have h₂ := (dropWhile_suffix (l := tail)
          (fun x => decide (x ≠ slash))).length_le
        rw [hp, length_cons] at hlen
        omega
      · constructor
        · intro h
          rw [h, components_nil]
        · intro h
          -- what is left starts with an element, if it starts with anything
          cases hr : (tail.dropWhile (· ≠ slash)).dropWhile (· = slash) with
          | nil => rfl
          | cons d rest =>
            have hd : d ≠ slash := by
              have h := head?_dropWhile_not (fun x => decide (x = slash))
                (tail.dropWhile (· ≠ slash))
              rw [hr] at h
              simpa using h
            rw [hr, components_of_ne_slash hd] at h
            exact absurd h (cons_ne_nil _ _)

end Xv6
