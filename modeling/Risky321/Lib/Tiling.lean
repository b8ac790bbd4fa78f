/-
Risky321.Lib.Tiling — a list of blocks that tile a stretch of addresses.

The blocks of a heap stand one behind the other, each with a header of
`w` addresses that records the block's size, whether it is free, and the
address of the next block. `Seg hd w s bs e nx` says that the headers
`hd` describe exactly the blocks `bs` between `s` and `e`, and that the
last of them links to `nx`.

A proof about one operation splits the list at the block it works on
(`Seg.append`), replaces that piece, and keeps the rest with `Seg.congr`:
a segment depends on the headers of its own blocks and on nothing else.
-/
import Mathlib.Data.List.Basic
import Mathlib.Order.Basic
import Mathlib.Tactic.Common

namespace Risky321.Lib

/-- What a block header records. -/
structure Hdr where
  next : Nat
  size : Nat
  free : Bool
  deriving DecidableEq, Repr

/-- A block: where its header is, how many data addresses follow it, and
whether it is free. -/
structure Block where
  addr : Nat
  size : Nat
  free : Bool
  deriving DecidableEq, Repr

/-- The headers `hd` describe the blocks `bs`, which tile `[s, e)`; the
last block's link is `nx`. -/
def Seg (hd : Nat → Hdr) (w : Nat) : Nat → List Block → Nat → Nat → Prop
  | s, [], e, _ => s = e
  | s, b :: bs, e, nx =>
      b.addr = s ∧
      hd s = ⟨if bs = [] then nx else s + w + b.size, b.size, b.free⟩ ∧
      Seg hd w (s + w + b.size) bs e nx

variable {hd hd' : Nat → Hdr} {w s k e nx : Nat} {bs cs : List Block} {b c : Block}

@[simp] theorem seg_nil : Seg hd w s [] e nx ↔ s = e := Iff.rfl

theorem seg_cons : Seg hd w s (b :: bs) e nx ↔
    b.addr = s ∧ hd s = ⟨if bs = [] then nx else s + w + b.size, b.size, b.free⟩ ∧
      Seg hd w (s + w + b.size) bs e nx := Iff.rfl

theorem seg_singleton : Seg hd w s [b] e nx ↔
    b.addr = s ∧ hd s = ⟨nx, b.size, b.free⟩ ∧ s + w + b.size = e := by
  simp [Seg]

/-- A segment splits where its list does; the first part links to the second. -/
theorem seg_append : Seg hd w s (bs ++ cs) e nx ↔
    ∃ k, Seg hd w s bs k (if cs = [] then nx else k) ∧ Seg hd w k cs e nx := by
  induction bs generalizing s with
  | nil => simp
  | cons b bs ih =>
    simp only [List.cons_append, seg_cons, ih]
    constructor
    · rintro ⟨hb, hh, k, h1, h2⟩
      refine ⟨k, ⟨hb, ?_, h1⟩, h2⟩
      rw [hh]
      cases bs with
      | nil =>
        cases cs with
        | nil => simp
        | cons c cs =>
          rw [seg_nil] at h1
          simp [h1]
      | cons x xs => simp
    · rintro ⟨k, ⟨hb, hh, h1⟩, h2⟩
      refine ⟨hb, ?_, k, h1, h2⟩
      rw [hh]
      cases bs with
      | nil =>
        cases cs with
        | nil => simp
        | cons c cs =>
          rw [seg_nil] at h1
          simp [h1]
      | cons x xs => simp

/-- A segment only moves forward. -/
theorem Seg.le (h : Seg hd w s bs e nx) : s ≤ e := by
  induction bs generalizing s with
  | nil => exact Nat.le_of_eq h
  | cons b bs ih =>
    have := ih h.2.2
    omega

/-- Every block of a segment lies inside it. -/
theorem Seg.mem_bounds (h : Seg hd w s bs e nx) (hb : b ∈ bs) :
    s ≤ b.addr ∧ b.addr + w + b.size ≤ e := by
  induction bs generalizing s with
  | nil => simp at hb
  | cons c cs ih =>
    obtain ⟨hc, -, hrest⟩ := h
    have hle := hrest.le
    rcases List.mem_cons.mp hb with rfl | hmem
    · omega
    · have := ih hrest hmem
      omega

/-- A segment is split at any of its blocks. -/
theorem Seg.split (h : Seg hd w s bs e nx) (hb : b ∈ bs) :
    ∃ xs ys, bs = xs ++ b :: ys ∧ Seg hd w s xs b.addr b.addr ∧
      Seg hd w b.addr (b :: ys) e nx := by
  obtain ⟨xs, ys, rfl⟩ := List.append_of_mem hb
  obtain ⟨k, h1, h2⟩ := seg_append.mp h
  obtain rfl := h2.1
  exact ⟨xs, ys, rfl, by simpa using h1, h2⟩

/-- The header of a block of a segment. -/
theorem Seg.size_free (h : Seg hd w s bs e nx) (hb : b ∈ bs) :
    (hd b.addr).size = b.size ∧ (hd b.addr).free = b.free := by
  obtain ⟨xs, ys, -, -, hb'⟩ := h.split hb
  rw [hb'.2.1]
  exact ⟨rfl, rfl⟩

/-- A segment depends on the headers of its own blocks only. -/
theorem Seg.congr (h : Seg hd w s bs e nx) (hc : ∀ b ∈ bs, hd' b.addr = hd b.addr) :
    Seg hd' w s bs e nx := by
  induction bs generalizing s with
  | nil => exact h
  | cons b bs ih =>
    obtain ⟨hb, hh, hrest⟩ := h
    refine ⟨hb, ?_, ih hrest fun c hc' => hc c (List.mem_cons_of_mem b hc')⟩
    rw [← hh, ← hb]
    exact hc b List.mem_cons_self

/-- Two blocks of a segment are the same block or do not overlap. -/
theorem Seg.apart (h : Seg hd w s bs e nx) (hb : b ∈ bs) (hc : c ∈ bs) :
    b = c ∨ b.addr + w + b.size ≤ c.addr ∨ c.addr + w + c.size ≤ b.addr := by
  obtain ⟨xs, ys, rfl, h1, h2⟩ := h.split hb
  rcases List.mem_append.mp hc with hx | hy
  · exact Or.inr (Or.inr (h1.mem_bounds hx).2)
  · rcases List.mem_cons.mp hy with rfl | hy
    · exact Or.inl rfl
    · exact Or.inr (Or.inl (h2.2.2.mem_bounds hy).1)

/-- The headers determine the blocks. -/
theorem Seg.unique (h : Seg hd w s bs e nx) (h' : Seg hd w s cs e nx) (hw : 0 < w) : bs = cs := by
  induction bs generalizing s cs with
  | nil =>
    cases cs with
    | nil => rfl
    | cons c cs =>
      have h1 : s = e := h
      have h2 := h'.2.2.le
      omega
  | cons b bs ih =>
    cases cs with
    | nil =>
      have h1 : s = e := h'
      have h2 := h.2.2.le
      omega
    | cons c cs =>
      obtain ⟨hb, hbh, hbs⟩ := h
      obtain ⟨hc, hch, hcs⟩ := h'
      rw [hbh, Hdr.mk.injEq] at hch
      have hbc : b = c := by
        cases b
        cases c
        simp_all
      rw [hbc] at hbs ⊢
      rw [ih hbs hcs]

/-- What the last block of the first part links to can be changed with its header alone. -/
theorem Seg.relink (h : Seg hd w s (bs ++ [b]) e nx) {nx' : Nat}
    (hlast : hd' b.addr = ⟨nx', b.size, b.free⟩) (hc : ∀ c ∈ bs, hd' c.addr = hd c.addr) :
    Seg hd' w s (bs ++ [b]) e nx' := by
  obtain ⟨k, h1, h2⟩ := seg_append.mp h
  obtain ⟨hk, -, he⟩ := seg_singleton.mp h2
  subst hk
  exact seg_append.mpr ⟨b.addr, by simpa using h1.congr hc, seg_singleton.mpr ⟨rfl, hlast, he⟩⟩

end Risky321.Lib
