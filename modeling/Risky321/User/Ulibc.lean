/-
Risky321.User.Ulibc — `memmove` and `memcmp`, from `ulibc.c`.

User programs are compiled apart from the kernel, so `ulibc.c` repeats the
functions of `klibc.c`. The two texts are the same, and what is true of one
copy is true of the other.
-/
import Risky321.Kernel.Klibc

namespace Risky321.User

open Risky321.Lib
open Risky321.Kernel (MovesBytes ComparesBytes FirstDiff NextAgrees)

/-- `memmove` of `ulibc.c`. -/
def memmove (fuel : Nat) (m : Mem) (dest src n : Nat) : Option (Nat × Mem) :=
  Kernel.memmove fuel m dest src n

/-- `memcmp` of `ulibc.c`. -/
def memcmp (m : Mem) (s1 s2 n : Nat) : Int × List (Nat × Nat) := Kernel.memcmp m s1 s2 n

/-- `memmove` copies when `dest` is not above `src`; otherwise it does not end. -/
theorem memmove_correct_iff (m : Mem) (dest src n : Nat) (hd : dest + n ≤ 2 ^ 32)
    (hs : src + n ≤ 2 ^ 32) :
    (MovesBytes Kernel.memmove m dest src n ↔ dest ≤ src) ∧
      (MovesBytes memmove m dest src n ↔ dest ≤ src) := by
  have h := Kernel.memmove_moves_iff (m := m) hd hs
  exact ⟨h, h⟩

/-- Two bytes, one place down. -/
theorem memmove_correct_down :
    MovesBytes Kernel.memmove (fun x => UInt8.ofNat x) 0xC0001000 0xC0001001 2 ∧
      MovesBytes memmove (fun x => UInt8.ofNat x) 0xC0001000 0xC0001001 2 := by
  have h := memmove_correct_iff (fun x => UInt8.ofNat x) 0xC0001000 0xC0001001 2 (by decide)
    (by decide)
  exact ⟨h.1.mpr (by decide), h.2.mpr (by decide)⟩

/-- One byte, one place up; and no byte at all. -/
theorem memmove_up_hangs :
    ¬ MovesBytes Kernel.memmove (fun _ => 0) 0xC0001001 0xC0001000 1 ∧
      ¬ MovesBytes memmove (fun _ => 0) 0xC0001001 0xC0001000 1 ∧
      ¬ MovesBytes memmove (fun _ => 0) 0xC0001001 0xC0001000 0 := by
  have hnone : ∀ n, ¬ MovesBytes Kernel.memmove (fun _ => 0) 0xC0001001 0xC0001000 n := by
    rintro n ⟨fuel, m', h, -⟩
    rw [Kernel.memmove_none (by decide)] at h
    exact absurd h nofun
  exact ⟨hnone 1, hnone 1, hnone 0⟩

/-- `memcmp` compares when the bytes after the first difference are inside the
ranges and differ the same way, and only then. -/
theorem memcmp_orders_iff (m : Mem) (s1 s2 n : Nat) (hn : n < 2 ^ 32) (h1 : s1 + n ≤ 2 ^ 32)
    (h2 : s2 + n ≤ 2 ^ 32) :
    (ComparesBytes Kernel.memcmp m s1 s2 n ↔
        ∀ i < n, FirstDiff m s1 s2 i → NextAgrees m s1 s2 n i) ∧
      (ComparesBytes memcmp m s1 s2 n ↔
        ∀ i < n, FirstDiff m s1 s2 i → NextAgrees m s1 s2 n i) := by
  have h := Kernel.memcmp_compares_iff (m := m) hn h1 h2
  exact ⟨h, h⟩

/-- Bytes that grow with their addresses: the first ones differ, and so do the
second ones. -/
theorem memcmp_orders_growing :
    ComparesBytes Kernel.memcmp (fun x => UInt8.ofNat x) 0xC0001000 0xC0001010 2 ∧
      ComparesBytes memcmp (fun x => UInt8.ofNat x) 0xC0001000 0xC0001010 2 := by
  have h := memcmp_orders_iff (fun x => UInt8.ofNat x) 0xC0001000 0xC0001010 2 (by decide)
    (by decide) (by decide)
  have hnext : ∀ i < 2, FirstDiff (fun x => UInt8.ofNat x) 0xC0001000 0xC0001010 i →
      NextAgrees (fun x => UInt8.ofNat x) 0xC0001000 0xC0001010 2 i := by
    intro i _ hi
    have hfirst : FirstDiff (fun x => UInt8.ofNat x) 0xC0001000 0xC0001010 0 :=
      ⟨fun j hj => absurd hj (Nat.not_lt_zero j), by decide⟩
    rw [hi.unique hfirst]
    exact ⟨by decide, .inl ⟨by decide, by decide⟩⟩
  exact ⟨h.1.mpr hnext, h.2.mpr hnext⟩

/-- `"a"` and `"b"`, each followed by a NUL, compared over one byte. -/
theorem memcmp_misses_difference :
    ¬ ComparesBytes Kernel.memcmp
        (fun x => if x = 0xC0001000 then 97 else if x = 0xC0001010 then 98 else 0)
        0xC0001000 0xC0001010 1 ∧
      ¬ ComparesBytes memcmp
        (fun x => if x = 0xC0001000 then 97 else if x = 0xC0001010 then 98 else 0)
        0xC0001000 0xC0001010 1 := by
  have hzero : (Kernel.memcmp
      (fun x => if x = 0xC0001000 then 97 else if x = 0xC0001010 then 98 else 0)
      0xC0001000 0xC0001010 1).1 = 0 := by decide
  have hno : ¬ ComparesBytes Kernel.memcmp
      (fun x => if x = 0xC0001000 then 97 else if x = 0xC0001010 then 98 else 0)
      0xC0001000 0xC0001010 1 := by
    intro h
    have heq := h.zero.mp hzero 0 (by decide)
    exact absurd heq (by decide)
  exact ⟨hno, hno⟩

end Risky321.User
