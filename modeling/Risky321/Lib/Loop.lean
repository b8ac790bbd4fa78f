/-
Risky321.Lib.Loop — counted loops that can fail.

`forLoop n f s` runs `f 0`, `f 1`, …, `f (n - 1)` on a threaded state and
stops at the first failure. Two rules cover its uses: `forLoop_inv` for
what holds after a loop that ran to its end, and `forLoop_none` for a loop
that failed: some iteration was reached by a run that had not failed, and
failed itself.
-/
import Mathlib.Tactic.Common

namespace Risky321.Lib

variable {σ : Type}

/-- `for (i = 0; i < n; i++) f(i)` over a state `s`; `none` as soon as one iteration fails. -/
def forLoop : Nat → (Nat → σ → Option σ) → σ → Option σ
  | 0, _, s => some s
  | n + 1, f, s => (forLoop n f s).bind (f n)

variable {n : Nat} {f : Nat → σ → Option σ} {s s' : σ}

/-- The loop invariant rule. -/
theorem forLoop_inv {I : Nat → σ → Prop} (h : forLoop n f s = some s') (h0 : I 0 s)
    (hstep : ∀ i t t', i < n → I i t → f i t = some t' → I (i + 1) t') : I n s' := by
  induction n generalizing s' with
  | zero =>
    simp only [forLoop, Option.some.injEq] at h
    rw [← h]
    exact h0
  | succ n ih =>
    simp only [forLoop, Option.bind_eq_some_iff] at h
    obtain ⟨t, ht, hf⟩ := h
    have hI : I n t := ih ht (fun i u u' hi => hstep i u u' (by omega))
    exact hstep n t s' (by omega) hI hf

/-- A loop fails in the first iteration that does. -/
theorem forLoop_none (h : forLoop n f s = none) :
    ∃ i t, i < n ∧ forLoop i f s = some t ∧ f i t = none := by
  induction n with
  | zero => simp [forLoop] at h
  | succ n ih =>
    cases hn : forLoop n f s with
    | none =>
      obtain ⟨i, t, hi, ht⟩ := ih hn
      exact ⟨i, t, by omega, ht⟩
    | some t =>
      rw [forLoop, hn, Option.bind_some] at h
      exact ⟨n, t, by omega, hn, h⟩

end Risky321.Lib
