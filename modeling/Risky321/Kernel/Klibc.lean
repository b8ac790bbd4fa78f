/-
Risky321.Kernel.Klibc — `memmove` and `memcmp`, from `klibc.c`.

Both have a loop whose end is not where it should be. The descending loop of
`memmove` runs while `n >= 0`, which an unsigned `n` always is, so it never
ends. The loop of `memcmp` moves the two pointers on before it knows that the
bytes differ, so the result is computed from the bytes after the ones that
did.

`size_t` and pointers have 32 bits. The copying loop of `memmove` gets a
number of rounds; `none` says that it has not ended after so many.
-/
import Risky321.Lib.ByteMem

namespace Risky321.Kernel

open Risky321.Lib

variable {m : Mem} {dest src n d s i j s1 s2 fuel : Nat}

/-! ## §1 The two functions -/

/-- `d[i] = s[i]`. -/
def moveByte (m : Mem) (d s i : Nat) : Mem :=
  Function.update m ((d + i) % 2 ^ 32) (m ((s + i) % 2 ^ 32))

/-- `for(size_t i = 0; i < n; i++)`. -/
def moveUp (m : Mem) (d s : Nat) : Nat → Mem
  | 0 => m
  | n + 1 => moveByte (moveUp m d s n) d s n

/-- `for(size_t i = n - 1; n >= 0; i--)`, from the test on. -/
def moveDown (d s n : Nat) : Nat → Nat → Mem → Option Mem
  | 0, _, _ => none
  | fuel + 1, i, m =>
    if n ≥ 0 then moveDown d s n fuel (sub32 i 1) (moveByte m d s i) else some m

/-- `memmove`; it returns `dest`. -/
def memmove (fuel : Nat) (m : Mem) (dest src n : Nat) : Option (Nat × Mem) :=
  if dest = src then
    some (dest, m)
  else if dest < src then
    some (dest, moveUp m dest src n)
  else
    (moveDown dest src n fuel (sub32 n 1) m).map fun m => (dest, m)

/-- The loop of `memcmp`: `n`, `us1` and `us2` where it ends, and the pairs of
addresses it has read. -/
def memcmpLoop (m : Mem) : Nat → Nat → Nat → Nat × Nat × Nat × List (Nat × Nat)
  | 0, us1, us2 => (0, us1, us2, [])
  | n + 1, us1, us2 =>
    if m us1 = m us2 then
      let (n', us1', us2', reads) := memcmpLoop m n ((us1 + 1) % 2 ^ 32) ((us2 + 1) % 2 ^ 32)
      (n', us1', us2', (us1, us2) :: reads)
    else
      (n + 1, (us1 + 1) % 2 ^ 32, (us2 + 1) % 2 ^ 32, [(us1, us2)])

/-- `memcmp`, with the pairs of addresses it has read. -/
def memcmp (m : Mem) (s1 s2 n : Nat) : Int × List (Nat × Nat) :=
  let (n, us1, us2, reads) := memcmpLoop m n s1 s2
  if n = 0 then (0, reads) else ((m us1).toNat - (m us2).toNat, reads ++ [(us1, us2)])

/-! ## §2 What they are for -/

/-- The call ends, the bytes that were at `src` are at `dest`, and the rest of
the memory is as before. -/
def MovesBytes (move : Nat → Mem → Nat → Nat → Nat → Option (Nat × Mem)) (m : Mem)
    (dest src n : Nat) : Prop :=
  ∃ fuel m', move fuel m dest src n = some (dest, m') ∧ (∀ k < n, m' (dest + k) = m (src + k)) ∧
    ∀ x, x < dest ∨ dest + n ≤ x → m' x = m x

/-- Position `i` is the first at which the ranges differ. -/
def FirstDiff (m : Mem) (s1 s2 i : Nat) : Prop :=
  (∀ j < i, m (s1 + j) = m (s2 + j)) ∧ m (s1 + i) ≠ m (s2 + i)

/-- The call reads the bytes of the two ranges only, and its value has the
sign of the difference where they differ first. -/
structure ComparesBytes (cmp : Mem → Nat → Nat → Nat → Int × List (Nat × Nat)) (m : Mem)
    (s1 s2 n : Nat) : Prop where
  reads : ∀ r ∈ (cmp m s1 s2 n).2, ∃ j < n, r = (s1 + j, s2 + j)
  zero : (cmp m s1 s2 n).1 = 0 ↔ ∀ j < n, m (s1 + j) = m (s2 + j)
  sign : ∀ i < n, FirstDiff m s1 s2 i →
    (cmp m s1 s2 n).1.sign = ((m (s1 + i)).toNat - (m (s2 + i)).toNat : Int).sign
  swap : (cmp m s2 s1 n).1.sign = -(cmp m s1 s2 n).1.sign

/-- The bytes at the position after `i` are inside the ranges and in the same
order as those at `i`. -/
def NextAgrees (m : Mem) (s1 s2 n i : Nat) : Prop :=
  i + 1 < n ∧ ((m (s1 + i) < m (s2 + i) ∧ m (s1 + (i + 1)) < m (s2 + (i + 1))) ∨
    (m (s2 + i) < m (s1 + i) ∧ m (s2 + (i + 1)) < m (s1 + (i + 1))))

/-! ## §3 `memmove` -/

theorem moveUp_eq_copy (hd : d + n ≤ 2 ^ 32) (hs : s + n ≤ 2 ^ 32) :
    moveUp m d s n = copy m d s n := by
  induction n with
  | zero => rfl
  | succ n ih =>
    rw [moveUp, ih (by omega) (by omega), moveByte, Nat.mod_eq_of_lt (by omega),
      Nat.mod_eq_of_lt (by omega)]
    rfl

/-- The descending loop does not end, whatever `n` is. -/
theorem moveDown_none (fuel : Nat) : moveDown d s n fuel i m = none := by
  induction fuel generalizing i m with
  | zero => rfl
  | succ fuel ih => rw [moveDown, if_pos (Nat.zero_le n), ih]

theorem memmove_none (h : src < dest) (fuel : Nat) : memmove fuel m dest src n = none := by
  rw [memmove, if_neg (by omega), if_neg (by omega), moveDown_none]
  rfl

/-- `memmove` does what it is for when it copies downwards or not at all, and
only then. -/
theorem memmove_moves_iff (hd : dest + n ≤ 2 ^ 32) (hs : src + n ≤ 2 ^ 32) :
    MovesBytes memmove m dest src n ↔ dest ≤ src := by
  constructor
  · rintro ⟨fuel, m', h, -⟩
    by_contra hlt
    rw [memmove_none (by omega)] at h
    exact absurd h nofun
  · intro hle
    by_cases heq : dest = src
    · refine ⟨0, m, ?_, fun k _ => by rw [heq], fun _ _ => rfl⟩
      rw [memmove, if_pos heq]
    · refine ⟨0, copy m dest src n, ?_, fun k hk => copy_before m hk (.inr hle),
        fun x hx => copy_outside m dest src n hx⟩
      rw [memmove, if_neg heq, if_pos (by omega), moveUp_eq_copy hd hs]

/-! ## §4 `memcmp` -/

/-- The addresses of the first `n` positions. -/
def pairs (s1 s2 n : Nat) : List (Nat × Nat) := (List.range n).map fun j => (s1 + j, s2 + j)

theorem pairs_succ (s1 s2 n : Nat) : pairs s1 s2 (n + 1) = (s1, s2) :: pairs (s1 + 1) (s2 + 1) n := by
  simp [pairs, List.range_succ_eq_map, Nat.add_comm, Nat.add_left_comm]

theorem mem_pairs {r : Nat × Nat} : r ∈ pairs s1 s2 n ↔ ∃ j < n, r = (s1 + j, s2 + j) := by
  simp [pairs, eq_comm]

/-- Equal ranges are read to their end. -/
theorem memcmpLoop_equal (h1 : s1 + n ≤ 2 ^ 32) (h2 : s2 + n ≤ 2 ^ 32)
    (heq : ∀ j < n, m (s1 + j) = m (s2 + j)) :
    ∃ us1 us2, memcmpLoop m n s1 s2 = (0, us1, us2, pairs s1 s2 n) := by
  induction n generalizing s1 s2 with
  | zero => exact ⟨s1, s2, rfl⟩
  | succ n ih =>
    have hhead : m s1 = m s2 := heq 0 (by omega)
    by_cases hn : n = 0
    · subst hn
      exact ⟨_, _, by rw [memcmpLoop, if_pos hhead]; rfl⟩
    · have htail : ∀ j < n, m (s1 + 1 + j) = m (s2 + 1 + j) := by
        intro j hj
        have h := heq (j + 1) (by omega)
        rwa [Nat.add_comm j, ← Nat.add_assoc, ← Nat.add_assoc] at h
      obtain ⟨us1, us2, hloop⟩ := ih (by omega) (by omega) htail
      refine ⟨us1, us2, ?_⟩
      rw [memcmpLoop, if_pos hhead, Nat.mod_eq_of_lt (by omega), Nat.mod_eq_of_lt (by omega), hloop,
        pairs_succ]

/-- The loop stops at the first difference, with the pointers behind it. -/
theorem memcmpLoop_diff (h1 : s1 + n ≤ 2 ^ 32) (h2 : s2 + n ≤ 2 ^ 32) (hi : i < n)
    (hd : FirstDiff m s1 s2 i) :
    memcmpLoop m n s1 s2 =
      (n - i, (s1 + (i + 1)) % 2 ^ 32, (s2 + (i + 1)) % 2 ^ 32, pairs s1 s2 (i + 1)) := by
  induction i generalizing n s1 s2 with
  | zero =>
    cases n with
    | zero => omega
    | succ n =>
      have hne : m s1 ≠ m s2 := hd.2
      rw [memcmpLoop, if_neg hne]
      rfl
  | succ i ih =>
    cases n with
    | zero => omega
    | succ n =>
      have hhead : m s1 = m s2 := hd.1 0 (by omega)
      have hd' : FirstDiff m (s1 + 1) (s2 + 1) i := by
        have hpos : ∀ s j, s + 1 + j = s + (j + 1) := fun s j => by omega
        refine ⟨fun j hj => ?_, ?_⟩
        · rw [hpos, hpos]
          exact hd.1 (j + 1) (by omega)
        · rw [hpos, hpos]
          exact hd.2
      rw [memcmpLoop, if_pos hhead, Nat.mod_eq_of_lt (a := s1 + 1) (by omega),
        Nat.mod_eq_of_lt (a := s2 + 1) (by omega), ih (by omega) (by omega) (by omega) hd',
        pairs_succ s1 s2 (i + 1), Nat.add_assoc s1, Nat.add_assoc s2, Nat.add_comm 1 (i + 1),
        Nat.succ_sub_succ]

theorem memcmp_equal (h1 : s1 + n ≤ 2 ^ 32) (h2 : s2 + n ≤ 2 ^ 32)
    (heq : ∀ j < n, m (s1 + j) = m (s2 + j)) : memcmp m s1 s2 n = (0, pairs s1 s2 n) := by
  obtain ⟨us1, us2, hloop⟩ := memcmpLoop_equal h1 h2 heq
  simp only [memcmp, hloop]
  rfl

/-- The value comes from the position after the first difference. -/
theorem memcmp_diff (h1 : s1 + n ≤ 2 ^ 32) (h2 : s2 + n ≤ 2 ^ 32) (hi : i < n)
    (hd : FirstDiff m s1 s2 i) :
    memcmp m s1 s2 n =
      (((m ((s1 + (i + 1)) % 2 ^ 32)).toNat : Int) - (m ((s2 + (i + 1)) % 2 ^ 32)).toNat,
        pairs s1 s2 (i + 1) ++ [((s1 + (i + 1)) % 2 ^ 32, (s2 + (i + 1)) % 2 ^ 32)]) := by
  simp only [memcmp, memcmpLoop_diff h1 h2 hi hd]
  exact if_neg (by omega)

theorem firstDiff_or_equal (m : Mem) (s1 s2 n : Nat) :
    (∀ j < n, m (s1 + j) = m (s2 + j)) ∨ ∃ i < n, FirstDiff m s1 s2 i := by
  induction n with
  | zero => exact .inl fun j hj => absurd hj (Nat.not_lt_zero j)
  | succ n ih =>
    obtain heq | ⟨i, hi, hd⟩ := ih
    · by_cases hn : m (s1 + n) = m (s2 + n)
      · refine .inl fun j hj => ?_
        obtain hj | rfl := Nat.lt_succ_iff_lt_or_eq.mp hj
        · exact heq j hj
        · exact hn
      · exact .inr ⟨n, by omega, heq, hn⟩
    · exact .inr ⟨i, by omega, hd⟩

theorem FirstDiff.unique (h : FirstDiff m s1 s2 i) (h' : FirstDiff m s1 s2 j) : i = j := by
  obtain hlt | heq | hlt := Nat.lt_trichotomy i j
  · exact absurd (h'.1 i hlt) h.2
  · exact heq
  · exact absurd (h.1 j hlt) h'.2

theorem FirstDiff.symm (h : FirstDiff m s1 s2 i) : FirstDiff m s2 s1 i :=
  ⟨fun j hj => (h.1 j hj).symm, fun heq => h.2 heq.symm⟩

/-- The sign of the difference of two bytes. -/
theorem sign_sub_of_lt {a b : UInt8} (h : a < b) : (a.toNat - b.toNat : Int).sign = -1 := by
  have hlt := UInt8.lt_iff_toNat_lt.mp h
  exact Int.sign_eq_neg_one_of_neg (by omega)

theorem sign_sub_of_gt {a b : UInt8} (h : b < a) : (a.toNat - b.toNat : Int).sign = 1 := by
  have hlt := UInt8.lt_iff_toNat_lt.mp h
  exact Int.sign_eq_one_of_pos (by omega)

theorem lt_of_sign_sub {a b : UInt8} (h : (a.toNat - b.toNat : Int).sign = -1) : a < b := by
  have hneg := Int.sign_eq_neg_one_iff_neg.mp h
  exact UInt8.lt_iff_toNat_lt.mpr (by omega)

theorem gt_of_sign_sub {a b : UInt8} (h : (a.toNat - b.toNat : Int).sign = 1) : b < a := by
  have hpos := Int.sign_eq_one_iff_pos.mp h
  exact UInt8.lt_iff_toNat_lt.mpr (by omega)

/-- Inside the ranges the address after the first difference does not wrap. -/
theorem memcmp_next (h1 : s1 + n ≤ 2 ^ 32) (h2 : s2 + n ≤ 2 ^ 32) (hi : i + 1 < n)
    (hd : FirstDiff m s1 s2 i) :
    memcmp m s1 s2 n =
      (((m (s1 + (i + 1))).toNat : Int) - (m (s2 + (i + 1))).toNat, pairs s1 s2 (i + 2)) := by
  have hlast : pairs s1 s2 (i + 2) = pairs s1 s2 (i + 1) ++ [(s1 + (i + 1), s2 + (i + 1))] := by
    simp [pairs, List.range_succ]
  rw [memcmp_diff h1 h2 (by omega) hd, Nat.mod_eq_of_lt (a := s1 + (i + 1)) (by omega),
    Nat.mod_eq_of_lt (a := s2 + (i + 1)) (by omega), hlast]

theorem ComparesBytes.nextAgrees (h : ComparesBytes memcmp m s1 s2 n) (hn : n < 2 ^ 32)
    (h1 : s1 + n ≤ 2 ^ 32) (h2 : s2 + n ≤ 2 ^ 32) (hi : i < n) (hd : FirstDiff m s1 s2 i) :
    NextAgrees m s1 s2 n i := by
  have hin : i + 1 < n := by
    by_contra hge
    -- the last pair read is behind the ranges
    have hr := h.reads ((s1 + (i + 1)) % 2 ^ 32, (s2 + (i + 1)) % 2 ^ 32) (by
      rw [memcmp_diff h1 h2 hi hd]
      exact List.mem_append_right _ (List.mem_singleton.mpr rfl))
    obtain ⟨j, hj, heq⟩ := hr
    have hfst := congrArg Prod.fst heq
    simp only at hfst
    omega
  have hsign := h.sign i hi hd
  rw [memcmp_next h1 h2 hin hd] at hsign
  refine ⟨hin, ?_⟩
  obtain hlt | hgt := Nat.lt_or_gt_of_ne fun h => hd.2 (UInt8.toNat_inj.mp h)
  · have hlt := UInt8.lt_iff_toNat_lt.mpr hlt
    exact .inl ⟨hlt, lt_of_sign_sub (hsign.trans (sign_sub_of_lt hlt))⟩
  · have hgt := UInt8.lt_iff_toNat_lt.mpr hgt
    exact .inr ⟨hgt, gt_of_sign_sub (hsign.trans (sign_sub_of_gt hgt))⟩

theorem NextAgrees.symm (h : NextAgrees m s1 s2 n i) : NextAgrees m s2 s1 n i :=
  ⟨h.1, h.2.symm⟩

/-- The value where the bytes after the first difference agree with it. -/
theorem NextAgrees.sign (h : NextAgrees m s1 s2 n i) (h1 : s1 + n ≤ 2 ^ 32) (h2 : s2 + n ≤ 2 ^ 32)
    (hd : FirstDiff m s1 s2 i) :
    (memcmp m s1 s2 n).1.sign = ((m (s1 + i)).toNat - (m (s2 + i)).toNat : Int).sign := by
  rw [memcmp_next h1 h2 h.1 hd]
  obtain ⟨hlt, hlt'⟩ | ⟨hgt, hgt'⟩ := h.2
  · rw [sign_sub_of_lt hlt, sign_sub_of_lt hlt']
  · rw [sign_sub_of_gt hgt, sign_sub_of_gt hgt']

/-- Exactly then `memcmp` does what it is for. -/
theorem memcmp_compares_iff (hn : n < 2 ^ 32) (h1 : s1 + n ≤ 2 ^ 32) (h2 : s2 + n ≤ 2 ^ 32) :
    ComparesBytes memcmp m s1 s2 n ↔ ∀ i < n, FirstDiff m s1 s2 i → NextAgrees m s1 s2 n i := by
  refine ⟨fun h i hi hd => h.nextAgrees hn h1 h2 hi hd, fun hall => ?_⟩
  obtain heq | ⟨i, hi, hd⟩ := firstDiff_or_equal m s1 s2 n
  · have h12 := memcmp_equal h1 h2 heq
    have h21 := memcmp_equal h2 h1 fun j hj => (heq j hj).symm
    refine ⟨?_, ?_, ?_, ?_⟩
    · rw [h12]
      exact fun r => mem_pairs.mp
    · rw [h12]
      exact ⟨fun _ => heq, fun _ => rfl⟩
    · exact fun i hi hd => absurd (heq i hi) hd.2
    · rw [h12, h21]
      rfl
  · have ha := hall i hi hd
    have hsign := ha.sign h1 h2 hd
    have hne : ((m (s1 + i)).toNat - (m (s2 + i)).toNat : Int) ≠ 0 := by
      intro hzero
      exact hd.2 (UInt8.toNat_inj.mp (by omega))
    refine ⟨?_, ⟨fun hzero => ?_, fun heq => absurd (heq i hi) hd.2⟩, ?_, ?_⟩
    · rw [memcmp_next h1 h2 ha.1 hd]
      intro r hr
      obtain ⟨j, hj, hrj⟩ := mem_pairs.mp hr
      exact ⟨j, lt_of_lt_of_le hj ha.1, hrj⟩
    · rw [hzero, Int.sign_zero, eq_comm, Int.sign_eq_zero_iff_zero] at hsign
      exact absurd hsign hne
    · intro j _ hj
      rw [hj.unique hd]
      exact hsign
    · rw [hsign, ha.symm.sign h2 h1 hd.symm, ← Int.sign_neg, Int.neg_sub]

end Risky321.Kernel
