/-
Risky321.Lib.Run — runs of a system, and the invariant rule.

A system is given by its initial states and a step relation labelled with
the operation that is performed. `Reach ok` collects the states of the
runs in which every operation was `ok` in the state it was performed in;
`fun _ _ => True` gives all runs.
-/
import Mathlib.Tactic.Common

namespace Risky321.Lib

variable {σ ω : Type}

/-- The states of the runs whose operations are all `ok`. -/
inductive Reach (init : σ → Prop) (step : σ → ω → σ → Prop) (ok : σ → ω → Prop) : σ → Prop
  | init {s : σ} : init s → Reach init step ok s
  | step {s s' : σ} {o : ω} : Reach init step ok s → ok s o → step s o s' →
      Reach init step ok s'

variable {init : σ → Prop} {step : σ → ω → σ → Prop} {ok ok' : σ → ω → Prop}

/-- What holds initially and is kept by every `ok` step holds in every state reached. -/
theorem Reach.invariant {I : σ → Prop} {s : σ} (h : Reach init step ok s)
    (hinit : ∀ s, init s → I s)
    (hstep : ∀ s op s', I s → ok s op → step s op s' → I s') : I s := by
  induction h with
  | init h0 => exact hinit _ h0
  | step _ hok hs ih => exact hstep _ _ _ ih hok hs

/-- A weaker condition on the operations reaches more states. -/
theorem Reach.mono {s : σ} (h : Reach init step ok s) (hok : ∀ s op, ok s op → ok' s op) :
    Reach init step ok' s :=
  h.invariant (I := fun s => Reach init step ok' s) (fun _ h0 => .init h0)
    (fun s op _ hr ho hs => .step hr (hok s op ho) hs)

/-- A run can be continued. -/
theorem Reach.trans {s s' : σ} (h : Reach init step ok s)
    (h' : Reach (fun u => u = s) step ok s') : Reach init step ok s' :=
  h'.invariant (I := Reach init step ok) (fun _ h0 => h0 ▸ h) fun _ _ _ hr ho hs => .step hr ho hs

/-- When every step is a step of another system, seen through `f`, every run is a run of it. -/
theorem Reach.refines {τ : Type} {init' : τ → Prop} {step' : τ → ω → τ → Prop}
    {okf : τ → ω → Prop} {f : σ → τ} {s : σ} (h : Reach init step ok s) (hinit : ∀ s, init s → init' (f s))
    (hstep : ∀ s op s', Reach init step ok s → ok s op → step s op s' →
      step' (f s) op (f s') ∧ okf (f s) op) : Reach init' step' okf (f s) := by
  induction h with
  | init h0 => exact .init (hinit _ h0)
  | step hr hok hs ih =>
    obtain ⟨hs', hok'⟩ := hstep _ _ _ hr hok hs
    exact .step ih hok' hs'

/-- The states of the runs, each with a record of the run: `start` at first, and
brought up to date by `next` with every step. -/
abbrev Recorded {η : Type} (init : σ → Prop) (step : σ → ω → σ → Prop) (ok : σ → ω → Prop)
    (start : η) (next : η → σ → σ → ω → η) : σ × η → Prop :=
  Reach (fun x => init x.1 ∧ x.2 = start)
    (fun x op y => step x.1 op y.1 ∧ y.2 = next x.2 x.1 y.1 op) (fun x => ok x.1)

/-- Every run has a record. -/
theorem Reach.recorded {η : Type} {s : σ} (h : Reach init step ok s) (start : η)
    (next : η → σ → σ → ω → η) : ∃ r, Recorded init step ok start next (s, r) := by
  induction h with
  | init h0 => exact ⟨start, .init ⟨h0, rfl⟩⟩
  | @step s s' op _ hok hs ih =>
    obtain ⟨r, hr⟩ := ih
    exact ⟨next r s s' op, .step hr hok ⟨hs, rfl⟩⟩

/-- A list of operations that can all be performed is a run. -/
theorem Reach.foldlM {f : σ → ω → Option σ} {s s' : σ} {ops : List ω}
    (h : Reach init (fun s op s' => f s op = some s') (fun _ _ => True) s)
    (hf : ops.foldlM f s = some s') :
    Reach init (fun s op s' => f s op = some s') (fun _ _ => True) s' := by
  induction ops generalizing s with
  | nil =>
    obtain rfl : s = s' := by simpa using hf
    exact h
  | cons op ops ih =>
    simp only [List.foldlM_cons, Option.bind_eq_bind, Option.bind_eq_some_iff] at hf
    obtain ⟨s1, h1, h2⟩ := hf
    exact ih (.step h trivial h1) h2

end Risky321.Lib
