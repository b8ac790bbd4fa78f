/-
Risky321.Lib.PageStack — a stack of free pages, linked through the pages.

An allocator that keeps its free pages in a list and puts back and takes out
at the head is a stack. `PageStack` says that the pages of the list do not
overlap; then pushing, popping and every write outside the links keep it. A
region that is freed from its first page to its last comes out from the last
to the first: `pagesDown`.
-/
import Risky321.Lib.Chain

namespace Risky321.Lib

variable {size n : Nat} {m m' : Mem} {head p base : Nat} {l : List Nat}

/-- Two pages do not overlap. -/
def PagesApart (size p q : Nat) : Prop := p + size ≤ q ∨ q + size ≤ p

/-- The list that starts at `head` is `l`, and its pages do not overlap. -/
structure PageStack (size : Nat) (m : Mem) (head : Nat) (l : List Nat) : Prop where
  chain : Chain m head l
  apart : l.Pairwise (PagesApart size)
  lt : ∀ p ∈ l, p < 2 ^ 32

/-! ## §1 The operations -/

theorem PageStack.empty (size : Nat) (m : Mem) : PageStack size m 0 [] :=
  ⟨rfl, .nil, nofun⟩

theorem PageStack.head_lt (h : PageStack size m head l) : head < 2 ^ 32 := by
  cases l with
  | nil =>
    have h0 : head = 0 := h.chain
    omega
  | cons q l =>
    rw [h.chain.1]
    exact h.lt q (List.mem_cons_self ..)

/-- Only the links matter. -/
theorem PageStack.congr (h : PageStack size m head l)
    (hm : ∀ p ∈ l, ∀ x, p ≤ x → x < p + 4 → m' x = m x) : PageStack size m' head l where
  chain := h.chain.congr fun p hp => load32_congr (hm p hp)
  apart := h.apart
  lt := h.lt

/-- A page that overlaps no other is pushed by writing the old head into it. -/
theorem PageStack.push (hsize : 4 ≤ size) (h : PageStack size m head l) (hp : p ≠ 0)
    (hlt : p < 2 ^ 32) (hap : ∀ q ∈ l, PagesApart size p q) :
    PageStack size (store32 m p head) p (p :: l) where
  chain := by
    refine ⟨rfl, hp, ?_⟩
    rw [load32_store32_of_lt h.head_lt]
    refine h.chain.congr fun q hq => load32_store32_disjoint m head ?_
    have := hap q hq
    simp only [PagesApart] at this
    omega
  apart := List.pairwise_cons.mpr ⟨hap, h.apart⟩
  lt := by
    rintro q (_ | ⟨_, hq⟩)
    · exact hlt
    · exact h.lt q hq

/-- The page popped is the head, and may be cleared. -/
theorem PageStack.pop (hsize : 4 ≤ size) (c : UInt8) (h : PageStack size m head (p :: l)) :
    head = p ∧ head ≠ 0 ∧ PageStack size (fill m p size c) (load32 m p) l := by
  obtain ⟨rfl, hne, hl⟩ := h.chain
  obtain ⟨hap, hrest⟩ := List.pairwise_cons.mp h.apart
  have hstack : PageStack size m (load32 m head) l :=
    ⟨hl, hrest, fun q hq => h.lt q (List.mem_cons_of_mem _ hq)⟩
  refine ⟨rfl, hne, hstack.congr fun q hq x h1 h2 => fill_outside m head size c ?_⟩
  have := hap q hq
  simp only [PagesApart] at this
  omega

/-! ## §2 A region -/

/-- The first `n` pages from `base` on, the highest first. -/
def pagesDown (size base : Nat) : Nat → List Nat
  | 0 => []
  | n + 1 => (base + n * size) :: pagesDown size base n

@[simp] theorem length_pagesDown : (pagesDown size base n).length = n := by
  induction n with
  | zero => rfl
  | succ n ih => rw [pagesDown, List.length_cons, ih]

theorem mem_pagesDown : p ∈ pagesDown size base n ↔ ∃ j < n, p = base + j * size := by
  induction n with
  | zero => simp [pagesDown]
  | succ n ih =>
    rw [pagesDown, List.mem_cons, ih]
    constructor
    · rintro (rfl | ⟨j, hj, rfl⟩)
      · exact ⟨n, Nat.lt_succ_self n, rfl⟩
      · exact ⟨j, Nat.lt_succ_of_lt hj, rfl⟩
    · rintro ⟨j, hj, rfl⟩
      rcases Nat.lt_succ_iff_lt_or_eq.mp hj with hlt | rfl
      · exact .inr ⟨j, hlt, rfl⟩
      · exact .inl rfl

/-- Multiples of the page size are a page apart. -/
theorem pagesApart_of_lt {i j : Nat} (h : i < j) :
    PagesApart size (base + j * size) (base + i * size) := by
  have hmul : (i + 1) * size ≤ j * size := Nat.mul_le_mul_right size h
  rw [Nat.add_mul, Nat.one_mul] at hmul
  exact .inr (by omega)

theorem pagesDown_apart : (pagesDown size base n).Pairwise (PagesApart size) := by
  induction n with
  | zero => exact .nil
  | succ n ih =>
    refine List.pairwise_cons.mpr ⟨fun q hq => ?_, ih⟩
    obtain ⟨j, hj, rfl⟩ := mem_pagesDown.mp hq
    exact pagesApart_of_lt hj

/-- Different pages of a region do not overlap. -/
theorem pagesApart_of_mem {q : Nat} (hp : p ∈ pagesDown size base n)
    (hq : q ∈ pagesDown size base n) (hne : p ≠ q) : PagesApart size p q := by
  obtain ⟨i, -, rfl⟩ := mem_pagesDown.mp hp
  obtain ⟨j, -, rfl⟩ := mem_pagesDown.mp hq
  rcases Nat.lt_trichotomy i j with h | rfl | h
  · exact (pagesApart_of_lt h).symm
  · exact absurd rfl hne
  · exact pagesApart_of_lt h

theorem pagesDown_nodup (hsize : 0 < size) : (pagesDown size base n).Nodup :=
  pagesDown_apart.imp fun h heq => by
    subst heq
    simp only [PagesApart] at h
    omega

end Risky321.Lib
