import Xv6.Proc

/-!
# The process tree

`pstree` of `user/pstree.c`. The call for a child gets the address of the child's
record as its array, and an unused record is, by its zeros, a child of process 0 and
so of itself. A call for a child other than the first record runs off the end of the
array (`printed_pstree`), and a call that meets an unused record never ends
(`pstree_loops`).
-/

namespace Xv6.Pstree

open List

/-- The fields of a record that `pstree` reads. -/
structure Uproc where
  pid : ℤ
  ppid : ℤ

/-- What a run does: it prints a pid, indented, or reads a record. -/
inductive Event
  | print (tab : ℕ) (pid : ℤ)
  | read (p : ℕ)

/-- The loop over `n` records from `p` on. -/
def scan (visit : ℕ → Option (List Event)) : ℕ → ℕ → Option (List Event)
  | _, 0 => some []
  | p, n + 1 => do
    let here ← visit p
    let rest ← scan visit (p + 1) n
    some (.read p :: here ++ rest)

/-- Print the tree below `pid`. The array of the call starts at record `uproc`;
memory goes on after the `NPROC` records. -/
def pstree (mem : ℕ → Uproc) : ℕ → ℕ → ℤ → ℕ → Option (List Event)
  | 0, _, _, _ => none
  | fuel + 1, uproc, pid, tab =>
    if pid < 0 ∨ pid > NPROC then some []
    else do
      let below ← scan (fun p =>
        if (mem p).ppid = pid then pstree mem fuel p (mem p).pid (tab + 1) else some []) uproc NPROC
      some (.print tab pid :: below)

/-- The depth of a process below process 0. -/
inductive Depth (mem : ℕ → Uproc) (nprocs : ℕ) : ℤ → ℕ → Prop
  | root : Depth mem nprocs 0 0
  | child {i d : ℕ} : i < nprocs → Depth mem nprocs (mem i).ppid d →
    Depth mem nprocs (mem i).pid (d + 1)

/-- The first `nprocs` records are of distinct processes, a tree under process 0,
and the others are unused. -/
structure Listing (mem : ℕ → Uproc) (nprocs : ℕ) : Prop where
  le : nprocs ≤ NPROC
  pos : ∀ i < nprocs, 0 < (mem i).pid
  inj : ∀ i < nprocs, ∀ j < nprocs, (mem i).pid = (mem j).pid → i = j
  rooted : ∀ i < nprocs, ∃ d, Depth mem nprocs (mem i).pid d
  unused : ∀ i, nprocs ≤ i → i < NPROC → mem i = ⟨0, 0⟩

/-- The line that an event prints. -/
def Event.printed? : Event → Option (ℕ × ℤ)
  | .print tab pid => some (tab, pid)
  | .read _ => none

/-- The call ends, reads the records only, and prints 0 and then every process once,
indented by its depth and after its parent. -/
def PrintsTree (mem : ℕ → Uproc) (nprocs : ℕ) : Prop :=
  ∃ fuel out, pstree mem fuel 0 0 0 = some out
    ∧ (∀ p, .read p ∈ out → p < NPROC)
    ∧ (∃ rest, out.filterMap Event.printed? = (0, 0) :: rest
      ∧ (rest.map Prod.snd).Perm ((range nprocs).map fun i => (mem i).pid))
    ∧ (∀ tab pid, .print tab pid ∈ out → Depth mem nprocs pid tab)
    ∧ ∀ i < nprocs, ∀ before tab after,
      out.filterMap Event.printed? = before ++ (tab, (mem i).pid) :: after →
        (mem i).ppid ∈ before.map Prod.snd

variable {mem : ℕ → Uproc}

/-- The events of the loop are those of its rounds. -/
theorem scan_events {visit : ℕ → Option (List Event)} {p n : ℕ} {out : List Event}
    (h : scan visit p n = some out) :
    (∀ q, p ≤ q → q < p + n → .read q ∈ out ∧ ∃ here ⊆ out, visit q = some here)
    ∧ ∀ tab pid, .print tab pid ∈ out → ∃ q here, visit q = some here ∧ here ⊆ out
      ∧ .print tab pid ∈ here := by
  induction n generalizing p out with
  | zero =>
    cases h
    exact ⟨fun q hle hlt => by omega, fun _ _ h => nomatch h⟩
  | succ n ih =>
    obtain ⟨here, hvisit, h⟩ := Option.bind_eq_some_iff.mp h
    obtain ⟨rest, hscan, h⟩ := Option.bind_eq_some_iff.mp h
    cases h
    obtain ⟨hreads, hprints⟩ := ih hscan
    have hhere : here ⊆ .read p :: here ++ rest := by simp
    have hrest : rest ⊆ .read p :: here ++ rest := by simp
    refine ⟨fun q hle hlt => ?_, fun tab pid hmem => ?_⟩
    · rcases hle.eq_or_lt with rfl | hle
      · exact ⟨mem_cons_self, here, hhere, hvisit⟩
      · obtain ⟨hread, out', hsub, hq⟩ := hreads q hle (by omega)
        exact ⟨hrest hread, out', List.Subset.trans hsub hrest, hq⟩
    · rcases mem_append.mp hmem with hmem | hmem
      · rcases mem_cons.mp hmem with hmem | hmem
        · nomatch hmem
        · exact ⟨p, here, hvisit, hhere, hmem⟩
      · obtain ⟨q, out', hq, hsub, hmem⟩ := hprints tab pid hmem
        exact ⟨q, out', hq, List.Subset.trans hsub hrest, hmem⟩

/-- A call that meets an unused record calls itself on it, again and again. -/
theorem pstree_loops {i : ℕ} (hi : mem i = ⟨0, 0⟩) (fuel : ℕ) {uproc : ℕ} (tab : ℕ)
    (hle : uproc ≤ i) (hlt : i < uproc + NPROC) : pstree mem fuel uproc 0 tab = none := by
  induction fuel generalizing uproc tab with
  | zero => rfl
  | succ fuel ih =>
    rw [pstree, if_neg (by decide)]
    refine Option.bind_eq_none_iff.mpr fun below hscan => ?_
    obtain ⟨-, here, -, hvisit⟩ := (scan_events hscan).1 i hle hlt
    rw [hi, if_pos rfl, ih _ le_rfl (by simp [NPROC])] at hvisit
    nomatch hvisit

/-- What a call prints is its own pid or that of a record, and the `NPROC` records
from there on are read. -/
theorem printed_pstree {fuel uproc tab : ℕ} {pid : ℤ} {out : List Event}
    (h : pstree mem fuel uproc pid tab = some out) {t : ℕ} {q : ℤ} (hq : .print t q ∈ out) :
    ∃ p, (p = uproc ∧ q = pid ∨ (mem p).pid = q) ∧ .read (p + (NPROC - 1)) ∈ out := by
  induction fuel generalizing uproc tab pid out with
  | zero => cases h
  | succ fuel ih =>
    rw [pstree] at h
    split at h
    · cases h
      nomatch hq
    · obtain ⟨below, hscan, h⟩ := Option.bind_eq_some_iff.mp h
      cases h
      obtain ⟨hreads, hprints⟩ := scan_events hscan
      rcases mem_cons.mp hq with hq | hq
      · cases hq
        have hread := (hreads (uproc + (NPROC - 1)) (by simp) (by simp [NPROC])).1
        exact ⟨uproc, .inl ⟨rfl, rfl⟩, mem_cons_of_mem _ hread⟩
      · obtain ⟨p, here, hvisit, hsub, hmem⟩ := hprints t q hq
        split at hvisit
        · obtain ⟨p', hp', hread⟩ := ih hvisit hmem
          refine ⟨p', .inr ?_, mem_cons_of_mem _ (hsub hread)⟩
          rcases hp' with ⟨rfl, rfl⟩ | hp'
          · rfl
          · exact hp'
        · cases hvisit
          nomatch hmem

/-- **`pstree` never prints the tree**: with an unused record it does not end, and
without one it reads past the array or does not print the second process. -/
theorem pstree_never {nprocs : ℕ} (h : Listing mem nprocs) : ¬ PrintsTree mem nprocs := by
  rintro ⟨fuel, out, hrun, hreads, ⟨rest, hout, hperm⟩, -⟩
  rcases h.le.lt_or_eq with hlt | rfl
  · rw [pstree_loops (h.unused nprocs le_rfl hlt) fuel 0 (Nat.zero_le _) (by omega)] at hrun
    nomatch hrun
  · have hone : 1 < NPROC := by decide
    obtain ⟨⟨t, q⟩, hmem, hq⟩ := mem_map.mp (hperm.mem_iff.mpr
      (mem_map.mpr ⟨1, mem_range.mpr hone, rfl⟩))
    obtain ⟨e, he, hprint⟩ := mem_filterMap.mp (hout ▸ mem_cons_of_mem _ hmem)
    cases e with
    | read p => nomatch hprint
    | print t' q' =>
      cases hprint
      obtain ⟨p, hp, hread⟩ := printed_pstree hrun he
      have hp0 : p = 0 := by
        have := hreads _ hread
        omega
      subst hp0 hq
      rcases hp with ⟨-, h0⟩ | h0
      · exact absurd h0 (h.pos 1 hone).ne'
      · exact nomatch h.inj 0 (by decide) 1 hone h0

/-- The records when only the first process runs. -/
def initOnly : ℕ → Uproc
  | 0 => ⟨1, 0⟩
  | _ + 1 => ⟨0, 0⟩

theorem pstree_initOnly : ¬ ∃ fuel out, pstree initOnly fuel 0 0 0 = some out := by
  rintro ⟨fuel, out, hrun⟩
  rw [pstree_loops (i := 1) rfl fuel 0 (by decide) (by decide)] at hrun
  nomatch hrun

theorem pstree_never_initOnly : Listing initOnly 1 ∧ ¬ PrintsTree initOnly 1 := by
  have h : Listing initOnly 1 :=
    { le := by decide
      pos := by decide
      inj := by decide
      rooted := fun i hi => ⟨1, by
        obtain rfl : i = 0 := by omega
        exact .child hi .root⟩
      unused := fun i hle _ => by
        obtain ⟨j, rfl⟩ := Nat.exists_eq_add_of_le' hle
        rfl }
  exact ⟨h, pstree_never h⟩

end Xv6.Pstree
