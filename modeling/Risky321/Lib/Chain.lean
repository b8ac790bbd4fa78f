/-
Risky321.Lib.Chain — a linked list kept inside the cells it links.

The first word of each node is the address of the next one, and address 0
ends the list. `Chain m h l` says that the list that starts at `h` in the
memory `m` is `l`.
-/
import Risky321.Lib.ByteMem

namespace Risky321.Lib

/-- The nodes met from `h` on are `l`, in order. -/
def Chain (m : Mem) : Nat → List Nat → Prop
  | h, [] => h = 0
  | h, p :: l => h = p ∧ p ≠ 0 ∧ Chain m (load32 m p) l

theorem chain_zero {m : Mem} {l : List Nat} (h : Chain m 0 l) : l = [] := by
  cases l with
  | nil => rfl
  | cons p l => exact absurd h.1.symm h.2.1

/-- A list that starts at a non-zero address has that address as its first node. -/
theorem chain_cons {m : Mem} {h : Nat} {l : List Nat} (hc : Chain m h l) (hh : h ≠ 0) :
    ∃ l', l = h :: l' ∧ Chain m (load32 m h) l' := by
  cases l with
  | nil => exact absurd hc hh
  | cons p l' =>
    obtain ⟨hp, -, hl⟩ := hc
    refine ⟨l', by rw [hp], ?_⟩
    rw [hp]
    exact hl

/-- Only the links of the nodes matter. -/
theorem Chain.congr {m m' : Mem} {h : Nat} {l : List Nat} (hc : Chain m h l)
    (hm : ∀ p ∈ l, load32 m' p = load32 m p) : Chain m' h l := by
  induction l generalizing h with
  | nil => exact hc
  | cons p l ih =>
    obtain ⟨hp, hne, hl⟩ := hc
    refine ⟨hp, hne, ?_⟩
    rw [hm p (by simp)]
    exact ih hl (fun q hq => hm q (by simp [hq]))

/-- The address of node number `n` of the list that starts at `h`, and 0 behind its end. -/
def nodeAt (m : Mem) : Nat → Nat → Nat
  | h, 0 => h
  | h, n + 1 => if h = 0 then 0 else nodeAt m (load32 m h) n

theorem Chain.nodeAt_eq {m : Mem} {h : Nat} {l : List Nat} (hc : Chain m h l) (n : Nat) :
    nodeAt m h n = l.getD n 0 := by
  induction n generalizing h l with
  | zero =>
    cases l with
    | nil => exact hc
    | cons p l => exact hc.1
  | succ n ih =>
    cases l with
    | nil => exact if_pos hc
    | cons p l =>
      obtain ⟨rfl, hne, hl⟩ := hc
      rw [nodeAt, if_neg hne, ih hl, List.getD_cons_succ]

/-- The list behind an address is determined by the memory. -/
theorem Chain.unique {m : Mem} {h : Nat} {l l' : List Nat} (hc : Chain m h l)
    (hc' : Chain m h l') : l = l' := by
  induction l generalizing h l' with
  | nil =>
    have h0 : h = 0 := hc
    rw [h0] at hc'
    exact (chain_zero hc').symm
  | cons p l ih =>
    obtain ⟨hp, hne, hl⟩ := hc
    rw [hp] at hc'
    obtain ⟨l'', heq, hl'⟩ := chain_cons hc' hne
    rw [heq, ih hl hl']

end Risky321.Lib
