/-
Risky321.Lib.Ring — the window of a circular array.

A ring buffer keeps its contents in an array of `N` cells and describes
them by a start index and a length. `window` reads that description back
as a list, so that a proof about a ring can be a proof about lists.

Three facts are enough for a queue whose two ends both move: storing a
cell just behind the window appends to it (`window_update_snoc`), dropping
the first cell is taking the tail (`window_succ`), and shortening the
length is dropping the last element (`window_length_succ`).
-/
import Mathlib.Data.List.Basic
import Mathlib.Data.List.Range

namespace Risky321.Lib

variable {α : Type}

/-- The `len` cells of `buf` that start at `r`, in order, wrapping at `N`. -/
def window (buf : Nat → α) (N r len : Nat) : List α :=
  (List.range len).map (fun k => buf ((r + k) % N))

@[simp] theorem length_window (buf : Nat → α) (N r len : Nat) :
    (window buf N r len).length = len := by
  simp [window]

@[simp] theorem window_zero (buf : Nat → α) (N r : Nat) : window buf N r 0 = [] := rfl

/-- A longer window ends with the cell just behind the shorter one. -/
theorem window_length_succ (buf : Nat → α) (N r len : Nat) :
    window buf N r (len + 1) = window buf N r len ++ [buf ((r + len) % N)] := by
  simp [window, List.range_succ]

/-- A non-empty window is its first cell and the window behind that cell. -/
theorem window_succ (buf : Nat → α) (N r len : Nat) :
    window buf N r (len + 1) = buf (r % N) :: window buf N ((r + 1) % N) len := by
  simp only [window, List.range_succ_eq_map, List.map_cons, List.map_map]
  refine congrArg₂ _ (by simp) (List.map_congr_left ?_)
  intro k _
  simp only [Function.comp_apply, Nat.succ_eq_add_one]
  rw [Nat.mod_add_mod]
  congr 2
  omega

/-- Two indices into a ring that are less than a turn apart are different cells. -/
theorem ring_index_ne {N r k len : Nat} (hk : k < len) (hlen : len < N) :
    (r + k) % N ≠ (r + len) % N := by
  intro h
  have hmod : (len - k) % N = 0 := by
    have hsub : (r + len - (r + k)) % N = 0 := Nat.sub_mod_eq_zero_of_mod_eq h.symm
    rwa [show r + len - (r + k) = len - k by omega] at hsub
  rw [Nat.mod_eq_of_lt (by omega)] at hmod
  omega

/-- Storing behind a window that does not fill the ring leaves the window alone. -/
theorem window_update (buf : Nat → α) {N r len : Nat} (c : α) (hlen : len < N) :
    window (Function.update buf ((r + len) % N) c) N r len = window buf N r len := by
  refine List.map_congr_left ?_
  intro k hk
  exact Function.update_of_ne (ring_index_ne (List.mem_range.mp hk) hlen) c buf

/-- Storing behind the window and lengthening it appends the stored value. -/
theorem window_update_snoc (buf : Nat → α) {N r len : Nat} (c : α) (hlen : len < N) :
    window (Function.update buf ((r + len) % N) c) N r (len + 1)
      = window buf N r len ++ [c] := by
  rw [window_length_succ, window_update buf c hlen, Function.update_self]

end Risky321.Lib
