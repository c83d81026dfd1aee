import Xv6.ExecLoad

/-!
# The argument stack

The second part of `exec` puts the arguments on the stack page, from its top down: the strings, each
at an address that is a multiple of 16, and below them the array of their addresses with a zero. The
stack pointer is computed in unsigned numbers and compared with the bottom of the page only
afterwards. For arguments that are shorter than a page it never gets below zero, so that the
comparison tells exactly whether the arguments fit (`FitsStack`).
-/

open Prog hiding get modify panic result

namespace Xv6.Exec

open Pool List

/-! ## The places of the arguments -/

/-- The next multiple of 16. -/
def round16 (n : ℕ) : ℕ := (n + 15) / 16 * 16

/-- The bytes that the strings take on the stack. -/
def stringBytes (argv : List (List UInt8)) : ℕ := (argv.map fun arg => round16 (arg.length + 1)).sum

/-- The addresses of the strings, from the stack pointer down. -/
def argAddrs : List (List UInt8) → ℕ → List ℕ
  | [], _ => []
  | arg :: rest, sp =>
    (sp - round16 (arg.length + 1)) :: argAddrs rest (sp - round16 (arg.length + 1))

/-- The bytes that the strings and the array take. -/
def stackBytes (argv : List (List UInt8)) : ℕ :=
  stringBytes argv + round16 ((argv.length + 1) * 8)

/-- **The arguments fit in the stack page.** -/
def FitsStack (argv : List (List UInt8)) : Prop := stackBytes argv ≤ PGSIZE
  deriving Decidable

/-- Fewer than `MAXARG` arguments, each shorter than a page. -/
def Small (argv : List (List UInt8)) : Prop :=
  argv.length < MAXARG ∧ ∀ arg ∈ argv, arg.length < PGSIZE

/-- User memory has these bytes at an address. -/
def BytesAt (mem : ℕ → Page) (pagetable va : ℕ) (bytes : List UInt8) : Prop :=
  ∀ i < bytes.length, userByte mem pagetable (va + i) = bytes[i]?

section

variable {s s' : PhysMem} {pt base sp va : ℕ} {bytes : List UInt8}

theorem le_round16 (n : ℕ) : n ≤ round16 n := by
  unfold round16
  omega

theorem dvd_round16 (n : ℕ) : 16 ∣ round16 n := Dvd.intro_left _ rfl

theorem stringBytes_cons (arg : List UInt8) (rest : List (List UInt8)) :
    stringBytes (arg :: rest) = round16 (arg.length + 1) + stringBytes rest := sum_cons

theorem dvd_stringBytes (argv : List (List UInt8)) : 16 ∣ stringBytes argv :=
  dvd_sum fun x hx => by
    obtain ⟨arg, -, rfl⟩ := mem_map.mp hx
    exact dvd_round16 _

/-- **The stack pointer does not wrap**, and is rounded to the place below. -/
theorem usub_round16 {n : ℕ} (hsp : 16 ∣ sp) (hlt : sp < 2 ^ 64) (hn : n ≤ sp) :
    usub sp n - usub sp n % 16 = sp - round16 n := by
  have hsub : usub sp n = sp - n := by
    unfold usub u64
    rw [Nat.mod_eq_of_lt (show n < 2 ^ 64 by omega)]
    omega
  rw [hsub]
  unfold round16
  omega

/-- **No subtraction goes below zero**, as far as the code gets: `argc` strings are pushed, and the
stack pointer is `sp`. -/
def NoUnderflow (stackbase : ℕ) : List (List UInt8) → ℕ → ℕ → Prop
  | [], argc, sp => (argc + 1) * 8 ≤ sp
  | arg :: rest, argc, sp => arg.length + 1 ≤ sp
    ∧ (stackbase ≤ usub sp (arg.length + 1) - usub sp (arg.length + 1) % 16 →
      NoUnderflow stackbase rest (argc + 1)
        (usub sp (arg.length + 1) - usub sp (arg.length + 1) % 16))

/-- Short strings are shorter than what is below the stack. -/
theorem noUnderflow_of_short (hbase : PGSIZE ≤ base) {args : List (List UInt8)} {argc : ℕ}
    (hargc : argc + args.length < MAXARG) (hlen : ∀ arg ∈ args, arg.length < PGSIZE)
    (hsp : 16 ∣ sp) (hlt : sp < 2 ^ 64) (hlo : base ≤ sp) : NoUnderflow base args argc sp := by
  induction args generalizing argc sp with
  | nil =>
    have hsmall : (argc + 1) * 8 ≤ PGSIZE := by
      rw [length_nil] at hargc
      unfold MAXARG at hargc
      unfold PGSIZE
      omega
    exact hsmall.trans (hbase.trans hlo)
  | cons arg rest ih =>
    have harg : arg.length + 1 ≤ sp := (hlen arg mem_cons_self).trans_le (hbase.trans hlo)
    rw [length_cons] at hargc
    unfold NoUnderflow
    rw [usub_round16 hsp hlt harg]
    exact ⟨harg, ih (by omega) (fun a ha => hlen a (mem_cons_of_mem _ ha))
      (Nat.dvd_sub hsp (dvd_round16 _)) (by omega)⟩

theorem length_argAddrs (argv : List (List UInt8)) (sp : ℕ) :
    (argAddrs argv sp).length = argv.length := by
  induction argv generalizing sp with
  | nil => rfl
  | cons arg rest ih => exact congrArg Nat.succ (ih _)

theorem BytesAt.congr (h : BytesAt s.mem pt va bytes)
    (hsame : ∀ u, va ≤ u → u < va + bytes.length →
      userByte s'.mem pt u = userByte s.mem pt u) :
    BytesAt s'.mem pt va bytes := fun i hi =>
  (hsame _ (Nat.le_add_right _ _) (by omega)).trans (h i hi)

theorem BytesAt.of_stored (h : UserStored s s' pt va bytes) :
    BytesAt s'.mem pt va bytes := by
  intro i hi
  rw [h.userByte, if_pos (by omega), Nat.add_sub_cancel_left]

theorem BytesAt.part {bytes' rest : List UInt8} {off : ℕ} (h : BytesAt s.mem pt va bytes)
    (heq : bytes.drop off = bytes' ++ rest) : BytesAt s.mem pt (va + off) bytes' := by
  intro i hi
  have hlen := congrArg length heq
  rw [length_drop, length_append] at hlen
  have hbyte := h (off + i) (by omega)
  rw [← Nat.add_assoc] at hbyte
  rw [hbyte, ← getElem?_drop, heq, getElem?_append_left hi]

theorem copyout_ok (hpages : UserPages s.mem pt)
    (hrange : UserRange s.mem pt va bytes.length) :
    ∃ s', copyout pt va bytes s = .ok (0, s') ∧ UserStored s s' pt va bytes := by
  obtain ⟨r, s', n, hrun, htrans, hst⟩ := copyout_spec hpages va bytes
  have hr := htrans.eq_zero_iff.mpr hrange
  obtain ⟨-, hn⟩ | ⟨hneg, -⟩ := htrans.result
  · rw [hn, take_length] at hst
    exact ⟨s', hr ▸ hrun, hst⟩
  · rw [hr] at hneg
    exact absurd hneg (by decide)

theorem copyout_ends (hpages : UserPages s.mem pt) (va : ℕ) (bytes : List UInt8) :
    Ends (copyout pt va bytes) s (fun _ => False) fun _ s' =>
      ∃ hi, StoredIn s s' pt 0 hi := by
  obtain ⟨r, s', n, hrun, -, hst⟩ := copyout_spec hpages va bytes
  exact ends_of_ok hrun ⟨_, .of_stored hst (Nat.zero_le _) le_rfl⟩

/-! ## The strings -/

/-- What pushing the strings returns, if they are short. -/
def pushed (base : ℕ) (args : List (List UInt8)) (sp : ℕ) (ustack : List ℕ) :
    Option (ℕ × List ℕ) :=
  if base + stringBytes args ≤ sp then some (sp - stringBytes args, ustack ++ argAddrs args sp)
  else none

/-- **Pushing any strings** changes user memory at most, and yields an address for each. -/
theorem pushArgs_ends (hpages : UserPages s.mem pt) (args : List (List UInt8))
    (argc sp : ℕ) (ustack : List ℕ) :
    Ends (pushArgs pt base args argc sp ustack) s (fun _ => False) fun res s' =>
      (∃ hi, StoredIn s s' pt 0 hi)
      ∧ ∀ sp' ustack', res = some (sp', ustack') →
        ustack'.length = ustack.length + args.length := by
  induction args generalizing s argc sp ustack with
  | nil =>
    refine ends_pure ⟨⟨0, .refl _ _ _ _⟩, fun sp' ustack' h => ?_⟩
    rw [← (Prod.mk.inj (Option.some.inj h)).2]
    rfl
  | cons arg rest ih =>
    have hnone : ∀ {hi s'}, StoredIn s s' pt 0 hi →
        Ends (pure none : MemProg (Option (ℕ × List ℕ))) s' (fun _ => False) fun res s' =>
          (∃ hi, StoredIn s s' pt 0 hi) ∧ ∀ sp' ustack', res = some (sp', ustack') →
            ustack'.length = ustack.length + (arg :: rest).length :=
      fun hst => ends_pure ⟨⟨_, hst⟩, nofun⟩
    unfold pushArgs
    split
    · exact hnone (.refl _ _ _ 0)
    dsimp only
    split
    · exact hnone (.refl _ _ _ 0)
    refine ends_bind ((copyout_ends hpages _ _).mono ?_)
    rintro r s₁ ⟨hi, hst⟩
    split
    · exact hnone hst
    refine (ih (hpages.congr (hst.tables hpages)) _ _ _).mono ?_
    rintro res s₂ ⟨⟨hi', hst'⟩, hlen⟩
    refine ⟨⟨max hi hi', (hst.mono le_rfl (le_max_left _ _)).trans hpages
      (hst'.mono le_rfl (le_max_right _ _))⟩, fun sp' ustack' h => ?_⟩
    rw [hlen sp' ustack' h, length_append, length_singleton, length_cons]
    omega

/-- **The strings were pushed** below `sp`, if there was room above `base`. -/
structure Pushed (s s' : PhysMem) (pagetable base sp : ℕ) (args : List (List UInt8)) : Prop where
  within : StoredIn s s' pagetable base sp
  strings : base + stringBytes args ≤ sp → StoredIn s s' pagetable (sp - stringBytes args) sp
    ∧ ∀ i < args.length, BytesAt s'.mem pagetable ((argAddrs args sp).getD i 0)
      (args.getD i [] ++ [0])

/-- **Pushing short strings** puts them where they belong, or finds that they do not fit. -/
theorem pushArgs_small (hpages : UserPages s.mem pt) {top : ℕ}
    (hrange : ∀ u, base ≤ u → u < top → UserAccessible s.mem pt u) (hbase : PGSIZE ≤ base)
    (htop : top < 2 ^ 64) (args : List (List UInt8)) {argc : ℕ} (ustack : List ℕ)
    (hargc : argc + args.length ≤ MAXARG) (hlen : ∀ arg ∈ args, arg.length < PGSIZE)
    (hsp : 16 ∣ sp) (hlo : base ≤ sp) (hhi : sp ≤ top) :
    ∃ s', pushArgs pt base args argc sp ustack s = .ok (pushed base args sp ustack, s')
      ∧ Pushed s s' pt base sp args := by
  induction args generalizing s argc sp ustack with
  | nil =>
    refine ⟨s, ?_, .refl _ _ _ _, fun _ =>
      ⟨.refl _ _ _ _, fun i hi => absurd hi (Nat.not_lt_zero i)⟩⟩
    unfold pushed
    rw [if_pos (by exact hlo), argAddrs, append_nil]
    rfl
  | cons arg rest ih =>
    have harg := hlen arg mem_cons_self
    rw [length_cons] at hargc
    have hround := le_round16 (arg.length + 1)
    unfold pushArgs
    rw [if_neg (by omega), usub_round16 hsp (by omega) (by omega)]
    unfold pushed
    rw [stringBytes_cons]
    by_cases hfit : sp - round16 (arg.length + 1) < base
    · rw [if_pos hfit, if_neg (by omega)]
      exact ⟨s, rfl, .refl _ _ _ _, fun h => absurd h (by rw [stringBytes_cons]; omega)⟩
    rw [if_neg hfit]
    obtain ⟨sp₁, hsp₁⟩ : ∃ sp₁, sp₁ = sp - round16 (arg.length + 1) := ⟨_, rfl⟩
    rw [← hsp₁] at hfit ⊢
    have hlen₁ : (arg ++ [0]).length = arg.length + 1 := length_append
    have hle : round16 (arg.length + 1) ≤ sp := by
      by_contra hgt
      omega
    have huser : UserRange s.mem pt sp₁ (arg ++ [0]).length :=
      fun i hi => hrange _ (by omega) (by omega)
    obtain ⟨s₁, hrun₁, hst₁⟩ := copyout_ok hpages huser
    rw [bind_of_ok hrun₁, if_neg (by decide)]
    have htables := hst₁.tables hpages
    obtain ⟨s₂, hrun₂, hin₂, hbytes₂⟩ := ih (hpages.congr htables)
      (fun u h₁ h₂ => (userAccessible_congr htables).mpr (hrange u h₁ h₂)) (ustack ++ [sp₁])
      (show argc + 1 + rest.length ≤ MAXARG by omega)
      (fun a ha => hlen a (mem_cons_of_mem _ ha))
      (hsp₁ ▸ Nat.dvd_sub hsp (dvd_round16 _)) (by omega) (by omega)
    have hin₁ : ∀ lo, lo ≤ sp₁ → StoredIn s s₁ pt lo sp :=
      fun lo hlo' => .of_stored hst₁ hlo' (by omega)
    refine ⟨s₂, ?_, (hin₁ base (by omega)).trans hpages (hin₂.mono le_rfl (by omega)), fun h => ?_⟩
    · rw [hrun₂]
      unfold pushed
      by_cases h : base + (round16 (arg.length + 1) + stringBytes rest) ≤ sp
      · rw [if_pos h, if_pos (by omega), argAddrs, ← hsp₁, append_assoc,
          singleton_append, show sp₁ - stringBytes rest
            = sp - (round16 (arg.length + 1) + stringBytes rest) by omega]
      · rw [if_neg h, if_neg (by omega)]
    · rw [stringBytes_cons] at h ⊢
      obtain ⟨hin₃, hrest⟩ := hbytes₂ (by omega)
      refine ⟨(hin₁ _ (by omega)).trans hpages (hin₃.mono (by omega) (by omega)), fun i hi => ?_⟩
      rw [argAddrs, ← hsp₁]
      cases i with
      | zero =>
        refine (BytesAt.of_stored hst₁).congr fun u h₁ _ => hin₂.userByte u ?_
        omega
      | succ i => exact hrest i (Nat.lt_of_succ_lt_succ hi)

/-- Both at once, for the arguments of `exec`. -/
theorem pushArgs_both (hpages : UserPages s.mem pt) {top : ℕ}
    (hrange : ∀ u, base ≤ u → u < top → UserAccessible s.mem pt u) (hbase : PGSIZE ≤ base)
    (htop : top < 2 ^ 64) (hsp : 16 ∣ top) (hlo : base ≤ top) {argv : List (List UInt8)} :
    Ends (pushArgs pt base argv 0 top []) s (fun _ => False) fun res s' =>
      ((∃ hi, StoredIn s s' pt 0 hi)
        ∧ ∀ sp' ustack', res = some (sp', ustack') → ustack'.length = argv.length)
      ∧ (Small argv → res = pushed base argv top [] ∧ Pushed s s' pt base top argv) := by
  have hany : Ends (pushArgs pt base argv 0 top []) s _ _ :=
    pushArgs_ends hpages argv 0 top []
  simp only [length_nil, Nat.zero_add] at hany
  have hexact : Small argv → Ends (pushArgs pt base argv 0 top []) s (fun _ => False)
      fun res s' => res = pushed base argv top [] ∧ Pushed s s' pt base top argv := by
    intro hsmall
    obtain ⟨s', hrun, hpushed⟩ := pushArgs_small hpages hrange hbase htop argv []
      (show 0 + argv.length ≤ MAXARG by rw [Nat.zero_add]; exact hsmall.1.le) hsmall.2 hsp hlo
      le_rfl
    exact ends_of_ok hrun ⟨rfl, hpushed⟩
  exact hany.and_imp hexact

/-! ## The stack page -/

/-- The regions of the strings and of the array, from the top down. -/
def regions (argv : List (List UInt8)) (sp : ℕ) (ptrs : List ℕ) : List (ℕ × ℕ) :=
  ((ptrs.zip argv).map fun x => (x.1, x.1 + x.2.length + 1))
    ++ [(sp, sp + (argv.length + 1) * 8)]

/-- **The arguments are on the stack**: their addresses and a null pointer at `sp`, and each string
with its zero at its address, in regions that do not overlap. -/
structure ArgStack (mem : ℕ → Page) (pagetable stackbase sz : ℕ) (argv : List (List UInt8))
    (sp : ℕ) (ptrs : List ℕ) : Prop where
  count : ptrs.length = argv.length
  sp_aligned : 16 ∣ sp
  aligned : ∀ a ∈ ptrs, 16 ∣ a
  pointers : ∀ i ≤ argv.length,
    BytesAt mem pagetable (sp + 8 * i) (u64Bytes ((ptrs ++ [0]).getD i 0))
  strings : ∀ i < argv.length, BytesAt mem pagetable (ptrs.getD i 0) (argv.getD i [] ++ [0])
  inside : ∀ r ∈ regions argv sp ptrs, stackbase ≤ r.1 ∧ r.2 ≤ sz
  apart : (regions argv sp ptrs).Pairwise fun r r' => r'.2 ≤ r.1

theorem aligned_argAddrs (argv : List (List UInt8)) (hsp : 16 ∣ sp) :
    ∀ a ∈ argAddrs argv sp, 16 ∣ a := by
  induction argv generalizing sp with
  | nil => exact fun a ha => absurd ha not_mem_nil
  | cons arg rest ih =>
    have hnext : 16 ∣ sp - round16 (arg.length + 1) := Nat.dvd_sub hsp (dvd_round16 _)
    intro a ha
    rcases mem_cons.mp ha with rfl | ha
    · exact hnext
    · exact ih hnext a ha

/-- The strings are one below the other. -/
theorem strings_apart (argv : List (List UInt8)) (hfit : stringBytes argv ≤ sp) :
    (((argAddrs argv sp).zip argv).map fun x => (x.1, x.1 + x.2.length + 1)).Pairwise
      (fun r r' => r'.2 ≤ r.1)
    ∧ ∀ r ∈ ((argAddrs argv sp).zip argv).map fun x => (x.1, x.1 + x.2.length + 1),
      sp - stringBytes argv ≤ r.1 ∧ r.2 ≤ sp := by
  induction argv generalizing sp with
  | nil => exact ⟨List.Pairwise.nil, fun r hr => absurd hr not_mem_nil⟩
  | cons arg rest ih =>
    rw [stringBytes_cons] at hfit ⊢
    have hround := le_round16 (arg.length + 1)
    obtain ⟨hapart, hin⟩ := ih
      (show stringBytes rest ≤ sp - round16 (arg.length + 1) by omega)
    rw [argAddrs, zip_cons_cons, map_cons]
    refine ⟨pairwise_cons.mpr ⟨fun r hr => (hin r hr).2, hapart⟩, fun r hr => ?_⟩
    rcases mem_cons.mp hr with rfl | hr
    · constructor
      · show _ ≤ sp - round16 (arg.length + 1)
        omega
      · show sp - round16 (arg.length + 1) + arg.length + 1 ≤ sp
        omega
    · have hr' := hin r hr
      omega

theorem drop_flatMap_u64Bytes (l : List ℕ) (i : ℕ) :
    (l.flatMap u64Bytes).drop (8 * i) = (l.drop i).flatMap u64Bytes := by
  induction i generalizing l with
  | zero => rfl
  | succ i ih =>
    cases l with
    | nil => rfl
    | cons v l =>
      rw [flatMap_cons, Nat.mul_succ, Nat.add_comm, ← drop_drop,
        drop_left' (show (u64Bytes v).length = 8 from rfl), ih, drop_succ_cons]

theorem length_flatMap_u64Bytes (l : List ℕ) : (l.flatMap u64Bytes).length = l.length * 8 := by
  induction l with
  | nil => rfl
  | cons v l ih =>
    rw [flatMap_cons, length_append, ih, length_cons]
    show 8 + _ = _
    omega

theorem BytesAt.pointer {l : List ℕ} (h : BytesAt s.mem pt va (l.flatMap u64Bytes)) {i : ℕ}
    (hi : i < l.length) : BytesAt s.mem pt (va + 8 * i) (u64Bytes (l.getD i 0)) := by
  have hdrop : (l.flatMap u64Bytes).drop (8 * i)
      = u64Bytes (l.getD i 0) ++ (l.drop (i + 1)).flatMap u64Bytes := by
    rw [drop_flatMap_u64Bytes, drop_eq_getElem_cons hi, flatMap_cons,
      getD_eq_getElem _ _ hi]
  exact h.part hdrop

/-- **The arguments are on the stack**, once the array is below the strings. -/
theorem ArgStack.of_stored {top : ℕ} {argv : List (List UInt8)} (htop : 16 ∣ top)
    (hfit : base + stackBytes argv ≤ top)
    (hstrings : ∀ i < argv.length, BytesAt s.mem pt ((argAddrs argv top).getD i 0)
      (argv.getD i [] ++ [0]))
    (hsp : sp = top - stackBytes argv)
    (hst : UserStored s s' pt sp ((argAddrs argv top ++ [0]).flatMap u64Bytes)) :
    ArgStack s'.mem pt base top argv sp (argAddrs argv top) := by
  unfold stackBytes at hfit hsp
  have hround := le_round16 ((argv.length + 1) * 8)
  have hlen := length_argAddrs argv top
  have hbytes : ((argAddrs argv top ++ [0]).flatMap u64Bytes).length = (argv.length + 1) * 8 := by
    rw [length_flatMap_u64Bytes, length_append, hlen]
    rfl
  obtain ⟨hapart, hin⟩ := strings_apart argv (show stringBytes argv ≤ top by omega)
  refine ⟨hlen, ?_, aligned_argAddrs argv htop, fun i hi => ?_, fun i hi => ?_, fun r hr => ?_, ?_⟩
  · rw [hsp]
    exact Nat.dvd_sub htop (Nat.dvd_add (dvd_stringBytes argv) (dvd_round16 _))
  · refine (BytesAt.of_stored hst).pointer ?_
    rw [length_append, hlen]
    exact Nat.lt_succ_of_le hi
  · -- a string is above the array
    refine (hstrings i hi).congr fun u h₁ _ => (hst.userByte u).trans (if_neg ?_)
    have hmem : ((argAddrs argv top).getD i 0,
        (argAddrs argv top).getD i 0 + (argv.getD i []).length + 1)
        ∈ ((argAddrs argv top).zip argv).map fun x => (x.1, x.1 + x.2.length + 1) := by
      refine mem_map.mpr ⟨((argAddrs argv top).getD i 0, argv.getD i []), ?_, rfl⟩
      rw [getD_eq_getElem _ _ (hlen ▸ hi), getD_eq_getElem _ _ hi]
      exact mem_iff_getElem.mpr ⟨i, by simpa [hlen] using hi, getElem_zip⟩
    have hlow := (hin _ hmem).1
    rw [hbytes]
    omega
  · rcases mem_append.mp hr with hr | hr
    · have hr' := hin r hr
      omega
    · rw [mem_singleton.mp hr]
      constructor
      · show base ≤ sp
        omega
      · show sp + (argv.length + 1) * 8 ≤ top
        omega
  · refine pairwise_append.mpr ⟨hapart, pairwise_singleton _ _, fun r hr r' hr' => ?_⟩
    have hlow := (hin r hr).1
    rw [mem_singleton.mp hr']
    show sp + (argv.length + 1) * 8 ≤ r.1
    omega

end

/-! ## The second part of `exec` -/

/-- The machine stops behind `ustack`, with `argc` arguments. -/
def Overflows (argc : ℕ) (e : Stop) : Prop := e = .ustackOverflow ∧ argc = MAXARG

/-- **What was built on top of the memory** of size `sz`: a page that is guarded, and a page with
the arguments; nothing below the stack page was stored to. -/
structure StackBuilt (mem mem' : ℕ → Page) (pagetable sz sz' sp : ℕ) (argv : List (List UInt8)) :
    Prop where
  size : sz' = PGROUNDUP sz + 2 * PGSIZE
  fits : FitsStack argv
  args : ∃ ptrs, ArgStack mem' pagetable (sz' - PGSIZE) sz' argv sp ptrs
  below : ∀ u < PGROUNDUP sz, userByte mem' pagetable u = userByte mem pagetable u
  guard : ∀ u, PGROUNDUP sz ≤ u → u < sz' - PGSIZE → userByte mem' pagetable u = none
    ∧ (mem' (PTE2PA (vmap mem' pagetable (u / PGSIZE)))).byteAt (u % PGSIZE) = 0

section

variable [KernelImage] {st₀ st st₁ st₂ : State} {pt sz trapframe : ℕ}
  {argv : List (List UInt8)}

omit [KernelImage] in
/-- **Pushing the array** below the strings, if there is room. -/
theorem pushArgv_ends {base top sp : ℕ} {ustack : List ℕ}
    (hpages : UserPages st.k.mem.mem pt)
    (hrange : ∀ u, base ≤ u → u < top → UserAccessible st.k.mem.mem pt u)
    (hbase : PGSIZE ≤ base) (htop : top < 2 ^ 64) :
    Ends (pushArgv pt base sp ustack) st (Overflows ustack.length) fun res st' => ∃ mem,
      st' = st.withMem mem ∧ (∃ hi, StoredIn st.k.mem mem pt 0 hi)
      ∧ (ustack.length < MAXARG → 16 ∣ sp → base ≤ sp → sp ≤ top →
        (res = none ∧ sp < base + round16 ((ustack.length + 1) * 8))
        ∨ base + round16 ((ustack.length + 1) * 8) ≤ sp
          ∧ res = some (sp - round16 ((ustack.length + 1) * 8))
          ∧ UserStored st.k.mem mem pt (sp - round16 ((ustack.length + 1) * 8))
            ((ustack ++ [0]).flatMap u64Bytes)) := by
  have hround := le_round16 ((ustack.length + 1) * 8)
  have hpos : 0 < base := lt_of_lt_of_le (by decide) hbase
  have hlen : ((ustack ++ [0]).flatMap u64Bytes).length = (ustack.length + 1) * 8 := by
    rw [length_flatMap_u64Bytes, length_append]
    rfl
  -- where the array goes
  have hplace : ustack.length < MAXARG → 16 ∣ sp → base ≤ sp → sp ≤ top →
      usub sp ((ustack.length + 1) * 8) - usub sp ((ustack.length + 1) * 8) % 16
        = sp - round16 ((ustack.length + 1) * 8) := by
    intro hargc hsp hlo hhi
    refine usub_round16 hsp (by omega) ?_
    unfold MAXARG at hargc
    unfold PGSIZE at hbase
    omega
  unfold pushArgv
  split
  · rename_i hfull
    exact ends_panic ⟨rfl, hfull⟩
  dsimp only
  by_cases hfit : usub sp ((ustack.length + 1) * 8) - usub sp ((ustack.length + 1) * 8) % 16 < base
  · rw [if_pos hfit]
    refine ends_pure ⟨st.k.mem, rfl, ⟨0, .refl _ _ _ _⟩, fun hargc hsp hlo hhi => .inl ⟨rfl, ?_⟩⟩
    rw [hplace hargc hsp hlo hhi] at hfit
    omega
  rw [if_neg hfit]
  obtain ⟨r, mem, n, hrun, htrans, hst⟩ := copyout_spec hpages
    (usub sp ((ustack.length + 1) * 8) - usub sp ((ustack.length + 1) * 8) % 16)
    ((ustack ++ [0]).flatMap u64Bytes)
  refine ends_bind (ends_onMem (ends_of_ok hrun ?_))
  have hany : ∃ hi, StoredIn st.k.mem mem pt 0 hi :=
    ⟨_, .of_stored hst (Nat.zero_le _) le_rfl⟩
  have hok : ustack.length < MAXARG → 16 ∣ sp → base ≤ sp → sp ≤ top → r = 0 := by
    intro hargc hsp hlo hhi
    rw [hplace hargc hsp hlo hhi] at htrans hfit
    refine htrans.eq_zero_iff.mpr fun i hi => hrange _ (by omega) ?_
    rw [hlen] at hi
    omega
  by_cases hneg : r < 0
  · rw [if_pos hneg]
    refine ends_pure ⟨mem, rfl, hany, fun hargc hsp hlo hhi => ?_⟩
    rw [hok hargc hsp hlo hhi] at hneg
    exact absurd hneg (by decide)
  · rw [if_neg hneg]
    refine ends_pure ⟨mem, rfl, hany, fun hargc hsp hlo hhi => .inr ?_⟩
    rw [hplace hargc hsp hlo hhi] at hst hfit ⊢
    obtain ⟨-, hn⟩ | ⟨hminus, -⟩ := htrans.result
    · rw [hn, take_length] at hst
      exact ⟨by omega, rfl, hst⟩
    · rw [hminus] at hneg
      exact absurd (by decide) hneg

omit [KernelImage] in
theorem npages_round (h : npages sz ≤ NVPAGES) : npages (PGROUNDUP sz) = npages sz := by
  rw [PGROUNDUP_eq, npages_mul h]

/-- The pages of memory are the pages up to the next boundary. -/
theorem Building.round (h : Building st₀ st pt sz trapframe)
    (hold : Holds physPages st₀.k.mem 0) :
    Building st₀ st pt (PGROUNDUP sz) trapframe := by
  have hpages := npages_le (h.holds hold)
  have hsame := npages_round (hpages.trans (by decide))
  have hsize : PGROUNDUP sz ≤ TRAPFRAME := by
    rw [PGROUNDUP_eq]
    exact (Nat.mul_le_mul_right _ hpages).trans (by decide)
  refine ⟨⟨h.beside, ?_, h.space.wellTyped, hsize, ?_, h.space.trampoline, h.space.trapframe, ?_⟩,
    ?_⟩
  · unfold spacePages
    rw [hsame]
    exact h.exchange
  · rw [hsame]
    exact h.space.user
  · rw [hsame]
    exact h.space.other
  · rw [hsame]
    exact h.user

theorem Building.exists_shows (h : Building st₀ st pt sz trapframe) :
    ∃ img, Shows st.k.mem.mem pt sz img := by
  refine ⟨fun u => if u / PGSIZE < npages sz then (userByte st.k.mem.mem pt u).getD 0 else 0,
    fun u => ?_⟩
  show if u / PGSIZE < npages sz then _ = some (if u / PGSIZE < npages sz then _ else _)
    else (if u / PGSIZE < npages sz then _ else _) = (0 : UInt8)
  split
  · rename_i hlt
    rw [userByte_of_accessible (h.accessible hlt)]
    rfl
  · rfl

theorem two_pages (h : Building st₀ st pt sz trapframe)
    (hold : Holds physPages st₀.k.mem 0) :
    PGROUNDUP sz = npages sz * PGSIZE ∧ npages sz ≤ 2 ^ 15
    ∧ u64 (PGROUNDUP sz + 2 * PGSIZE) = (npages sz + 2) * PGSIZE
    ∧ npages ((npages sz + 2) * PGSIZE) = npages sz + 2 := by
  have hpages := npages_le (h.holds hold)
  have hround := PGROUNDUP_eq sz
  refine ⟨hround, hpages, ?_, npages_mul ?_⟩
  · rw [hround]
    unfold u64 PGSIZE
    omega
  · have hbound : 2 ^ 15 + 2 ≤ NVPAGES := by decide
    omega

omit [KernelImage] in
theorem usub_pages {n : ℕ} (hn : n ≤ 2 ^ 15) :
    usub ((n + 2) * PGSIZE) (2 * PGSIZE) = n * PGSIZE
    ∧ usub ((n + 2) * PGSIZE) PGSIZE = (n + 1) * PGSIZE := by
  unfold usub u64 PGSIZE
  omega

/-- **The stack page is written.** From the state in which both pages are there and the lower one is
guarded, the code puts the arguments on the stack or finds that they do not fit. -/
theorem StackBuilt.of_pushed {sp : ℕ} {mem' : PhysMem}
    (h : Building st₀ st pt sz trapframe) (hold : Holds physPages st₀.k.mem 0)
    (h₁ : Building st₀ st₁ pt ((npages sz + 2) * PGSIZE) trapframe)
    (hshows : ∀ img, Shows st.k.mem.mem pt sz img →
      Shows st₁.k.mem.mem pt ((npages sz + 2) * PGSIZE) img)
    {mem₂ : PhysMem}
    (hmap : Remap st₁.k.mem mem₂ pt 0 0 (Function.update (vmap st₁.k.mem.mem pt)
      (npages sz) (guarded (vmap st₁.k.mem.mem pt (npages sz)))))
    (hst : StoredIn mem₂ mem' pt ((npages sz + 1) * PGSIZE) ((npages sz + 2) * PGSIZE))
    (hfits : FitsStack argv) {ptrs : List ℕ}
    (hargs : ArgStack mem'.mem pt ((npages sz + 1) * PGSIZE) ((npages sz + 2) * PGSIZE) argv
      sp ptrs) :
    StackBuilt st.k.mem.mem mem'.mem pt sz ((npages sz + 2) * PGSIZE) sp argv := by
  obtain ⟨hround, hpages, -, hsize⟩ := two_pages h hold
  have hold₁ := h₁.holds hold
  have hspace₂ : SpaceChange st₁.k.mem mem₂ pt _ _ trapframe :=
    .of_guarded h₁.space hold₁ (by rw [hsize]; omega) hmap
  have hold₂ := hspace₂.holds hold₁
  have hpages₂ := hspace₂.space.userPages hold₂
  have hbase : (npages sz + 2) * PGSIZE - PGSIZE = (npages sz + 1) * PGSIZE := by
    unfold PGSIZE
    omega
  obtain ⟨img, himg⟩ := h.exists_shows
  have himg₁ := hshows img himg
  refine ⟨by rw [hround, Nat.add_mul], hfits, ⟨ptrs, by rwa [hbase]⟩, fun u hu => ?_,
    fun u hlo hhi => ?_⟩
  · have hv : u / PGSIZE < npages sz := Nat.div_lt_of_lt_mul (by rwa [hround, Nat.mul_comm] at hu)
    have hu₀ := himg u
    have hu₁ := himg₁ u
    rw [if_pos hv] at hu₀
    rw [if_pos (by rw [hsize]; omega)] at hu₁
    have hlow : u < (npages sz + 1) * PGSIZE := by
      rw [hround] at hu
      exact hu.trans_le (Nat.mul_le_mul_right _ (Nat.le_succ _))
    rw [hst.userByte u fun hmem => absurd hmem.1 (Nat.not_le.mpr hlow),
      guarded_userByte hold₁ hmap h₁.space (by omega), hu₁, hu₀]
  · rw [hbase] at hhi
    have hv : u / PGSIZE = npages sz := by
      rw [hround] at hlo
      exact Nat.div_eq_of_lt_le hlo hhi
    have hnot := not_accessible_guarded hmap hv
    have htables := hst.tables hpages₂
    refine ⟨userByte_of_not_accessible fun h' => hnot ((userAccessible_congr htables).mp h'), ?_⟩
    -- the page was zero when it was made, and no copy could reach it
    rw [vmap_congr htables, hst.frame, guarded_page hold₁ hmap (by rw [hsize, hv]; omega)]
    · have hu₁ := himg₁ u
      have hu₀ := himg u
      rw [if_neg (by omega)] at hu₀
      rw [if_pos (by rw [hsize, hv]; omega)] at hu₁
      have hacc : UserAccessible st₁.k.mem.mem pt u :=
        h₁.accessible (by rw [hsize, hv]; omega)
      rw [userByte_of_accessible hacc, userPage_of_accessible hacc, hu₀] at hu₁
      exact Option.some.inj hu₁
    · intro w hw heq
      rw [userPage_of_accessible hw] at heq
      have hwv := page_inj hold₂ (hspace₂.space.lt_of_accessible hw) (by rw [hsize, hv]; omega) heq
      exact not_accessible_guarded hmap (hwv.trans hv) hw

/-- The stack stays while its pages do. -/
theorem StackBuilt.of_keep {mem : ℕ → Page} {s s' : PhysMem} {sz' sp : ℕ}
    (h : StackBuilt mem s.mem pt sz sz' sp argv)
    (hspace : AddressSpace s.mem pt sz' trapframe)
    (hkeep : ∀ q ∈ spacePages s.mem pt sz', s'.mem q = s.mem q) :
    StackBuilt mem s'.mem pt sz sz' sp argv := by
  have hbyte := hspace.userByte_of_keep hkeep
  have hmap := (spacePages_of_keep hkeep).1
  obtain ⟨hsize, hfits, ⟨ptrs, hargs⟩, hbelow, hguard⟩ := h
  refine ⟨hsize, hfits, ⟨ptrs, ?_⟩, fun u hu => (hbyte u).trans (hbelow u hu), fun u hlo hhi => ?_⟩
  · exact { hargs with
      pointers := fun i hi => (hargs.pointers i hi).congr fun u _ _ => hbyte u
      strings := fun i hi => (hargs.strings i hi).congr fun u _ _ => hbyte u }
  · obtain ⟨hnone, hzero⟩ := hguard u hlo hhi
    refine ⟨(hbyte u).trans hnone, ?_⟩
    have hv : u / PGSIZE < npages sz' := lt_npages (by omega) hspace.size_le
    rw [hmap, hkeep _ (Multiset.mem_add.mpr (.inr (mem_leaves_zero hv))), hzero]

/-- **The second part of `exec`** keeps what it builds in shape. With short arguments it fails only
where there is no memory, or where they do not fit. -/
theorem stack_ends (h : Building st₀ st pt sz trapframe)
    (hold : Holds physPages st₀.k.mem 0) :
    Ends (stack pt sz argv) st (Overflows argv.length) fun res st' =>
      Built st₀ st' pt res.2 trapframe
      ∧ (Small argv → match res.1 with
        | none => FitsStack argv → ∃ mem, uvmalloc pt (PGROUNDUP sz)
            (u64 (PGROUNDUP sz + 2 * PGSIZE)) st.k.mem = .ok (0, mem)
        | some sp => StackBuilt st.k.mem.mem st'.k.mem.mem pt sz res.2 sp argv) := by
  obtain ⟨hround, hpages, hnew, hsize⟩ := two_pages h hold
  have hpg : 0 < PGSIZE := by decide
  have hlt64 : (npages sz + 2) * PGSIZE < 2 ^ 64 :=
    (Nat.mul_le_mul_right _ (Nat.add_le_add_right hpages 2)).trans_lt (by decide)
  unfold stack
  refine ends_bind ((((h.round hold).uvmalloc_ends hold _).with_run.panic_mono
    fun _ => False.elim).mono ?_)
  rintro sz₁ st₁ ⟨⟨hfs, hfail, hgrown⟩, hrun⟩
  by_cases hzero : sz₁ = 0
  · rw [if_pos hzero]
    obtain ⟨mem, hmem, -⟩ := onMem_ok hrun
    exact ends_pure ⟨(hfail hzero).toBuilt, fun _ _ => ⟨mem, hzero ▸ hmem⟩⟩
  rw [if_neg hzero]
  have hle : PGROUNDUP sz ≤ (npages sz + 2) * PGSIZE :=
    hround.le.trans (Nat.mul_le_mul_right _ (Nat.le_add_right _ 2))
  have hmax := (hgrown hzero).1
  rw [hnew, max_eq_right hle] at hmax
  subst hmax
  have h₁ := (hgrown hzero).2.1
  have hshows := (hgrown hzero).2.2
  have hold₁ := h₁.holds hold
  rw [(usub_pages hpages).1, (usub_pages hpages).2]
  have hentry := h₁.space.user.at_zero (v := npages sz) (by rw [hsize]; omega)
  refine ends_bind (ends_onMem (((uvmclear_ends (Holds.left hold₁)
    (hpages.trans_lt (by decide)) hentry.1 hentry.2).panic_mono fun _ => False.elim).mono ?_))
  rintro - mem₂ hmap
  have hchange₂ : SpaceChange st₁.k.mem mem₂ pt _ _ trapframe :=
    .of_guarded h₁.space hold₁ (by rw [hsize]; omega) hmap
  have hpages₂ := hchange₂.space.userPages (hchange₂.holds hold₁)
  have hbuilt : ∀ {mem' lo hi}, StoredIn mem₂ mem' pt lo hi →
      Built st₀ (st₁.withMem mem') pt ((npages sz + 2) * PGSIZE) trapframe := fun hst =>
    h₁.next (.of_withMem st₁ _) (hchange₂.trans
      (.of_storedIn hchange₂.space (hchange₂.holds hold₁) hst))
  have hacc : ∀ u, (npages sz + 1) * PGSIZE ≤ u → u < (npages sz + 2) * PGSIZE →
      UserAccessible mem₂.mem pt u := by
    intro u hlo hhi
    have hv : u / PGSIZE = npages sz + 1 := Nat.div_eq_of_lt_le hlo hhi
    have hacc₁ : UserAccessible st₁.k.mem.mem pt u :=
      h₁.accessible (by rw [hsize, hv]; omega)
    rw [userAccessible_iff] at hacc₁ ⊢
    rwa [hmap.map, Function.update_of_ne (by omega)]
  have htop : (npages sz + 2) * PGSIZE = (npages sz + 1) * PGSIZE + PGSIZE := Nat.succ_mul _ _
  have hbase : PGSIZE ≤ (npages sz + 1) * PGSIZE := Nat.le_mul_of_pos_left _ (Nat.succ_pos _)
  have htop16 : 16 ∣ (npages sz + 2) * PGSIZE := Dvd.dvd.mul_left (by decide) _
  generalize hb : (npages sz + 1) * PGSIZE = base at *
  generalize ht : (npages sz + 2) * PGSIZE = top at *
  refine ends_bind (ends_onMem (((pushArgs_both hpages₂ hacc hbase hlt64 htop16
    (by omega)).panic_mono fun _ => False.elim).mono ?_))
  rintro res mem₃ ⟨⟨⟨hi, hst₃⟩, hcount⟩, hsmall₃⟩
  cases res with
  | none =>
    refine ends_pure ⟨hbuilt hst₃, fun hsmall hfits => ?_⟩
    obtain ⟨hres, -⟩ := hsmall₃ hsmall
    unfold pushed at hres
    unfold FitsStack stackBytes at hfits
    rw [if_pos (by omega)] at hres
    cases hres
  | some res =>
    obtain ⟨sp, ustack⟩ := res
    have htables₃ := hst₃.tables hpages₂
    have hpages₃ := hpages₂.congr htables₃
    have hacc₃ : ∀ u, base ≤ u → u < top → UserAccessible mem₃.mem pt u :=
      fun u h₁ h₂ => (userAccessible_congr htables₃).mpr (hacc u h₁ h₂)
    rw [← hcount sp ustack rfl]
    refine ends_bind (Ends.mono (pushArgv_ends hpages₃ hacc₃ hbase hlt64) ?_)
    rintro res - ⟨mem₄, rfl, ⟨hi', hst₄⟩, hsmall₄⟩
    have hst : StoredIn mem₂ mem₄ pt 0 (max hi hi') :=
      (hst₃.mono le_rfl (le_max_left _ _)).trans hpages₂ (hst₄.mono le_rfl (le_max_right _ _))
    refine ends_pure ⟨hbuilt hst, fun hsmall => ?_⟩
    obtain ⟨hres, hpushed⟩ := hsmall₃ hsmall
    unfold pushed at hres
    by_cases hstr : base + stringBytes argv ≤ top
    · rw [if_pos hstr, nil_append] at hres
      obtain ⟨rfl, rfl⟩ := Prod.mk.inj (Option.some.inj hres)
      have hlen := length_argAddrs argv top
      have hdvd : 16 ∣ top - stringBytes argv := Nat.dvd_sub htop16 (dvd_stringBytes argv)
      have hend := hsmall₄ (by rw [hlen]; exact hsmall.1) hdvd (by omega) (Nat.sub_le _ _)
      rw [hlen] at hend
      obtain ⟨rfl, hfull⟩ | ⟨hroom, rfl, hstored⟩ := hend
      · intro hfits
        unfold FitsStack stackBytes at hfits
        omega
      · obtain ⟨hin₃, hstrings⟩ := hpushed.strings hstr
        have hsp : top - stringBytes argv - round16 ((argv.length + 1) * 8)
            = top - stackBytes argv := Nat.sub_sub _ _ _
        have hfits : base + stackBytes argv ≤ top := by
          unfold stackBytes
          omega
        rw [hsp] at hstored ⊢
        have hin : StoredIn mem₂ mem₄ pt base top := by
          refine hpushed.within.trans hpages₂ (.of_stored hstored (by omega) ?_)
          have hround16 := le_round16 ((argv.length + 1) * 8)
          rw [length_flatMap_u64Bytes, length_append, hlen, length_singleton]
          unfold stackBytes at *
          omega
        have hshows' : ∀ img, Shows st.k.mem.mem pt sz img →
            Shows st₁.k.mem.mem pt top img := fun img himg => hshows img (by
          unfold Shows
          rw [npages_round (hpages.trans (by decide))]
          exact himg)
        subst hb ht
        exact StackBuilt.of_pushed h hold h₁ hshows' hmap hin
          (show stackBytes argv ≤ PGSIZE by omega)
          (ArgStack.of_stored htop16 hfits hstrings rfl hstored)
    · rw [if_neg hstr] at hres
      cases hres

end

end Xv6.Exec
