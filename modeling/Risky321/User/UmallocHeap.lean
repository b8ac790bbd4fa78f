/-
Risky321.User.UmallocHeap — the blocks of the user heap.

`Heap` memory is read as a list of blocks that tile everything obtained
from `usys_sbrk` (`HeapInv`). The list is the one along `next`; nothing is
assumed about `prev` links, because `umalloc` does not keep them: a split
leaves the `prev` of the following block, or `head.prev` when there is
none, pointing at the front part instead of the new header.
-/
import Risky321.Lib.Tiling
import Risky321.User.Umalloc
import Mathlib.Data.List.Nodup

namespace Risky321.User

open Risky321.Lib

/-! ## §1 Headers in memory -/

/-- The header at `a`, without its `prev` link. -/
def hdrAt (m : Mem) (a : Nat) : Hdr :=
  ⟨nextOf m a, sizeOf m a, freeOf m a != 0⟩

theorem hdrAt_congr {m m' : Mem} {a : Nat}
    (h : ∀ x, a + 4 ≤ x → x < a + headerSize → m x = m' x) : hdrAt m a = hdrAt m' a := by
  simp only [headerSize] at h
  simp only [hdrAt, nextOf, sizeOf, freeOf]
  have hw : ∀ k, 4 ≤ k → k + 4 ≤ 16 → load32 m (a + k) = load32 m' (a + k) :=
    fun k _ _ => load32_congr fun x _ _ => h x (by omega) (by omega)
  rw [hw 4 (by omega) (by omega), hw 8 (by omega) (by omega), hw 12 (by omega) (by omega)]

/-- Two headers that do not overlap. -/
def HdrApart (a b : Nat) : Prop := a + headerSize ≤ b ∨ b + headerSize ≤ a

theorem HdrApart.symm {a b : Nat} (h : HdrApart a b) : HdrApart b a := Or.symm h

/-- A store into one header leaves the others alone. -/
theorem hdrAt_store32_apart (m : Mem) {a b k : Nat} (v : Nat) (hk : k + 4 ≤ headerSize)
    (h : HdrApart a b) : hdrAt (store32 m (a + k) v) b = hdrAt m b := by
  simp only [HdrApart, headerSize] at *
  apply hdrAt_congr
  intro x _ _
  simp only [headerSize] at *
  exact store32_outside m (a + k) v (by omega)

section
variable (m : Mem) {a b : Nat} (v : Nat)

theorem hdrAt_setPrev_apart (h : HdrApart a b) : hdrAt (setPrev m a v) b = hdrAt m b :=
  hdrAt_store32_apart m (k := 0) v (by decide) h

theorem hdrAt_setNext_apart (h : HdrApart a b) : hdrAt (setNext m a v) b = hdrAt m b :=
  hdrAt_store32_apart m v (by decide) h

theorem hdrAt_setSize_apart (h : HdrApart a b) : hdrAt (setSize m a v) b = hdrAt m b :=
  hdrAt_store32_apart m v (by decide) h

theorem hdrAt_setFree_apart (h : HdrApart a b) : hdrAt (setFree m a v) b = hdrAt m b :=
  hdrAt_store32_apart m v (by decide) h

@[simp] theorem hdrAt_setPrev : hdrAt (setPrev m a v) a = hdrAt m a := by
  simp only [hdrAt, nextOf, sizeOf, freeOf, setPrev]
  rw [load32_store32_disjoint _ _ (by omega), load32_store32_disjoint _ _ (by omega),
    load32_store32_disjoint _ _ (by omega)]

theorem hdrAt_setNext (hv : v < 2 ^ 32) :
    hdrAt (setNext m a v) a = { hdrAt m a with next := v } := by
  simp only [hdrAt, nextOf, sizeOf, freeOf, setNext]
  rw [load32_store32_of_lt hv, load32_store32_disjoint _ _ (by omega),
    load32_store32_disjoint _ _ (by omega)]

theorem hdrAt_setSize (hv : v < 2 ^ 32) :
    hdrAt (setSize m a v) a = { hdrAt m a with size := v } := by
  simp only [hdrAt, nextOf, sizeOf, freeOf, setSize]
  rw [load32_store32_of_lt hv, load32_store32_disjoint _ _ (by omega),
    load32_store32_disjoint _ _ (by omega)]

theorem hdrAt_setFree (hv : v < 2 ^ 32) :
    hdrAt (setFree m a v) a = { hdrAt m a with free := v != 0 } := by
  simp only [hdrAt, nextOf, sizeOf, freeOf, setFree]
  rw [load32_store32_of_lt hv, load32_store32_disjoint _ _ (by omega),
    load32_store32_disjoint _ _ (by omega)]

end

/-- A store to another field of a header, or into another header, leaves a `prev` link alone. -/
theorem prevOf_store32 (m : Mem) {a x k : Nat} (v : Nat) (h4 : 4 ≤ k) (hk : k + 4 ≤ headerSize)
    (h : a = x ∨ HdrApart a x) : prevOf (store32 m (a + k) v) x = prevOf m x := by
  simp only [HdrApart, headerSize] at *
  exact load32_store32_disjoint m v (by omega)

theorem prevOf_setPrev_apart (m : Mem) {a x : Nat} (v : Nat) (h : HdrApart a x) :
    prevOf (setPrev m a v) x = prevOf m x := by
  simp only [HdrApart, headerSize] at h
  exact load32_store32_disjoint m v (by omega)

theorem prevOf_setPrev (m : Mem) {a v : Nat} (hv : v < 2 ^ 32) : prevOf (setPrev m a v) a = v :=
  load32_store32_of_lt hv

theorem nextOf_eq (m : Mem) (a : Nat) : nextOf m a = (hdrAt m a).next := rfl
theorem nextOf_lt (m : Mem) (a : Nat) : nextOf m a < 2 ^ 32 := load32_lt m (a + 4)
theorem sizeOf_eq (m : Mem) (a : Nat) : sizeOf m a = (hdrAt m a).size := rfl
theorem freeOf_ne_zero (m : Mem) (a : Nat) : freeOf m a ≠ 0 ↔ (hdrAt m a).free = true := by
  simp [hdrAt]

/-! ## §2 The heap invariant -/

/-- A live allocation: the pointer `umalloc` returned and the bytes asked for. -/
abbrev Live : Type := List (Nat × Nat)

/-- Each live allocation is the data of a used block, and no pointer is live twice. -/
structure LiveIn (bs : List Block) (live : Live) : Prop where
  block : ∀ p n, (p, n) ∈ live →
    ∃ b ∈ bs, b.addr + headerSize = p ∧ b.free = false ∧ n ≤ b.size
  nodup : (live.map Prod.fst).Nodup

/-- The blocks `bs` along `next` tile the memory from `base` to `brk`. -/
structure HeapInv (base : Nat) (h : Heap) (bs : List Block) : Prop where
  seg : Seg (hdrAt h.mem) headerSize base bs h.brk 0
  base_pos : 0 < base
  brk_le : h.brk ≤ heapLimit
  head : h.headNext = if bs = [] then 0 else base

/-- The address of the first of some blocks, or null. -/
def firstAddr : List Block → Nat
  | [] => 0
  | b :: _ => b.addr

/-- `head.prev` is the last block. -/
def TailOk (h : Heap) (bs : List Block) : Prop := ∀ b ∈ bs.getLast?, h.headPrev = b.addr

/-- Each block's `prev` is the block before it; before the first comes `p`. -/
def PrevLinks (m : Mem) : Nat → List Block → Prop
  | _, [] => True
  | p, b :: bs => prevOf m b.addr = p ∧ PrevLinks m b.addr bs

/-- The address of the last of some blocks, or `p`. -/
def lastAddr (p : Nat) : List Block → Nat
  | [] => p
  | b :: bs => lastAddr b.addr bs

theorem prevLinks_append {m : Mem} {p : Nat} {xs ys : List Block} :
    PrevLinks m p (xs ++ ys) ↔ PrevLinks m p xs ∧ PrevLinks m (lastAddr p xs) ys := by
  induction xs generalizing p with
  | nil => simp [PrevLinks, lastAddr]
  | cons x xs ih => simp only [List.cons_append, PrevLinks, lastAddr, ih, and_assoc]

theorem PrevLinks.congr {m m' : Mem} {p : Nat} {bs : List Block} (h : PrevLinks m p bs)
    (hc : ∀ b ∈ bs, prevOf m' b.addr = prevOf m b.addr) : PrevLinks m' p bs := by
  induction bs generalizing p with
  | nil => trivial
  | cons b bs ih =>
    refine ⟨?_, ih h.2 (fun c hcm => hc c (List.mem_cons_of_mem b hcm))⟩
    rw [hc b List.mem_cons_self]
    exact h.1

theorem lastAddr_append (p : Nat) (xs : List Block) (b : Block) :
    lastAddr p (xs ++ [b]) = b.addr := by
  induction xs generalizing p with
  | nil => rfl
  | cons x xs ih => exact ih x.addr

theorem heapInv_empty (m : Mem) {base : Nat} (hpos : 0 < base) (hle : base ≤ heapLimit) :
    HeapInv base (Heap.empty m base) [] :=
  ⟨rfl, hpos, hle, rfl⟩

/-- The pieces of a list of blocks around one of them are apart from it. -/
theorem Seg.hdrApart {hd : Nat → Hdr} {s e nx : Nat} {bs : List Block} {b c : Block}
    (h : Seg hd headerSize s bs e nx) (hb : b ∈ bs) (hc : c ∈ bs) (hne : b ≠ c) :
    HdrApart b.addr c.addr := by
  simp only [HdrApart, headerSize] at *
  rcases h.apart hb hc with rfl | h1 | h1
  · exact absurd rfl hne
  · omega
  · omega

section
variable {base : Nat} {h : Heap} {bs xs ys zs : List Block} {b c d : Block}

theorem HeapInv.mem_bounds (hi : HeapInv base h bs) (hb : b ∈ bs) :
    base ≤ b.addr ∧ b.addr + headerSize + b.size ≤ heapLimit :=
  ⟨(hi.seg.mem_bounds hb).1, le_trans (hi.seg.mem_bounds hb).2 hi.brk_le⟩

theorem HeapInv.addr_ne_zero (hi : HeapInv base h bs) (hb : b ∈ bs) : b.addr ≠ 0 := by
  have := (hi.mem_bounds hb).1
  have := hi.base_pos
  omega

/-- Writing a `prev` link of some block changes no header of the list. -/
theorem HeapInv.hdrAt_setPrev_mem (hi : HeapInv base h bs) (hd : d ∈ bs) (hc : c ∈ bs)
    {m : Mem} (v : Nat) : hdrAt (setPrev m d.addr v) c.addr = hdrAt m c.addr := by
  by_cases hdc : d = c
  · rw [hdc, hdrAt_setPrev]
  · exact hdrAt_setPrev_apart m v (Seg.hdrApart hi.seg hd hc hdc)

/-- Two blocks of the list have one header address or headers apart. -/
theorem HeapInv.same_or_apart (hi : HeapInv base h bs) (hb : b ∈ bs) (hc : c ∈ bs) :
    b.addr = c.addr ∨ HdrApart b.addr c.addr := by
  by_cases hbc : b = c
  · exact .inl (by rw [hbc])
  · exact .inr (Seg.hdrApart hi.seg hb hc hbc)

/-- The block of the list that starts at an address is the only one. -/
theorem HeapInv.eq_of_addr (hi : HeapInv base h bs) (hb : b ∈ bs) (hc : c ∈ bs)
    (ha : b.addr = c.addr) : b = c := by
  have hapart := hi.seg.apart hb hc
  simp only [headerSize] at hapart
  rcases hapart with h1 | h1 | h1
  · exact h1
  · omega
  · omega

/-- A block is on the list once. -/
theorem HeapInv.notMem_rest (hi : HeapInv base h (xs ++ b :: ys)) : b ∉ xs ++ ys := by
  obtain ⟨k, h1, h2⟩ := seg_append.mp hi.seg
  have hk := h2.1
  intro hb
  rcases List.mem_append.mp hb with hb | hb
  · have hbnd := (h1.mem_bounds hb).2
    simp only [headerSize] at hbnd
    omega
  · have hbnd := (h2.2.2.mem_bounds hb).1
    simp only [headerSize] at hbnd
    omega

/-- The `next` link of a block is the block behind it, or null. -/
theorem HeapInv.next_split (hi : HeapInv base h (xs ++ b :: ys)) :
    nextOf h.mem b.addr = firstAddr ys := by
  obtain ⟨k, -, h2⟩ := seg_append.mp hi.seg
  obtain ⟨rfl, hh, h3⟩ := h2
  rw [nextOf_eq, hh]
  cases ys with
  | nil => rfl
  | cons c cs => simp [firstAddr, ← h3.1]

/-- A heap whose list is re-described: one block replaces two neighbours. -/
theorem HeapInv.merge {h' : Heap} (hi : HeapInv base h (xs ++ b :: c :: zs))
    (hmerged : hdrAt h'.mem b.addr
      = ⟨nextOf h.mem c.addr, b.size + (headerSize + c.size), true⟩)
    (hsame : ∀ x ∈ xs ++ zs, hdrAt h'.mem x.addr = hdrAt h.mem x.addr)
    (hnext : h'.headNext = h.headNext) (hbrk : h'.brk = h.brk) :
    HeapInv base h' (xs ++ ⟨b.addr, b.size + (headerSize + c.size), true⟩ :: zs) := by
  obtain ⟨k, h1, h2⟩ := seg_append.mp hi.seg
  obtain ⟨rfl, -, h3⟩ := h2
  obtain ⟨hcaddr, hch, h4⟩ := h3
  refine ⟨?_, hi.base_pos, by rw [hbrk]; exact hi.brk_le, ?_⟩
  · refine seg_append.mpr ⟨b.addr, ?_, rfl, ?_, ?_⟩
    · simpa using h1.congr (fun x hx => hsame x (List.mem_append_left _ hx))
    · rw [hmerged]
      have hn := nextOf_eq h.mem c.addr
      rw [hcaddr, hch] at hn
      rw [hcaddr, hn]
      simp only [Hdr.mk.injEq, and_true, headerSize] at *
      split <;> omega
    · have hstart : b.addr + headerSize + (b.size + (headerSize + c.size))
          = b.addr + headerSize + b.size + headerSize + c.size := by omega
      rw [hbrk]
      show Seg _ _ (b.addr + headerSize + (b.size + (headerSize + c.size))) _ _ _
      rw [hstart]
      exact h4.congr (fun x hx => hsame x (List.mem_append_right _ hx))
  · rw [hnext, hi.head]
    simp

end

end Risky321.User
