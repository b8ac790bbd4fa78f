/-
Risky321.User.UmallocMerge — `ufree` keeps the heap tiled.

A freed block is merged with the block behind it and with the one in front
of it when they are free. A stale back link does no harm until the code
follows one, and `ufree` does: it merges into `hdr->prev` when that block
is marked free.
-/
import Risky321.User.UmallocHeap
import Mathlib.Data.List.Induction

namespace Risky321.User

open Risky321.Lib

section
variable {base : Nat} {h : Heap} {bs xs ys zs : List Block} {b c d : Block}

/-- A block and the one behind it are different blocks. -/
theorem HeapInv.neighbour_ne (hi : HeapInv base h (xs ++ b :: c :: zs)) : b ≠ c := by
  rintro rfl
  exact hi.notMem_rest (by simp)

/-- Two neighbours together fit below the heap's limit. -/
theorem HeapInv.neighbour_size (hi : HeapInv base h (xs ++ b :: c :: zs)) :
    (b.size + (headerSize + c.size)) % 2 ^ 32 = b.size + (headerSize + c.size) := by
  have := (hi.mem_bounds (b := c) (by simp)).2
  obtain ⟨k, -, h2⟩ := seg_append.mp hi.seg
  have h3 := h2.2.2.1
  have h4 := h2.1
  simp only [headerSize, heapLimit] at *
  omega

/-- `head.prev` stays the last block when a merge at the end moves it. -/
theorem TailOk.merge {h' : Heap} {n : Nat} (ht : TailOk h (xs ++ b :: c :: zs))
    (hi : HeapInv base h (xs ++ b :: c :: zs))
    (hp : h'.headPrev = if nextOf h.mem c.addr = 0 then b.addr else h.headPrev) :
    TailOk h' (xs ++ ⟨b.addr, n, true⟩ :: zs) := by
  have hi' : HeapInv base h ((xs ++ [b]) ++ c :: zs) := by simpa using hi
  have hcnext := hi'.next_split
  intro x hx
  rw [hp]
  cases zs with
  | nil =>
    obtain rfl := by simpa using hx
    rw [if_pos (show nextOf h.mem c.addr = 0 from hcnext)]
  | cons z zs =>
    have hz : z ∈ xs ++ b :: c :: z :: zs := by simp
    rw [if_neg (by rw [hcnext]; exact hi.addr_ne_zero hz)]
    exact ht x (by simpa [List.getLast?_append, List.getLast?_cons_cons] using hx)

/-- The links that a merge of `b` with the `c` behind it leaves: the memory
after `size`, `next` and the following block's `prev` have been written. -/
theorem HeapInv.merge_stores (hi : HeapInv base h (xs ++ b :: c :: zs)) (hfree : b.free = true)
    {m : Mem} (hm : m = setNext (setSize h.mem b.addr (b.size + (headerSize + c.size))) b.addr
      (nextOf h.mem c.addr)) (v : Nat) {m' : Mem}
    (hm' : m' = if nextOf h.mem c.addr ≠ 0 then setPrev m (nextOf h.mem c.addr) v else m) :
    hdrAt m' b.addr = ⟨nextOf h.mem c.addr, b.size + (headerSize + c.size), true⟩ ∧
      ∀ x ∈ xs ++ zs, hdrAt m' x.addr = hdrAt h.mem x.addr := by
  have hb : b ∈ xs ++ b :: c :: zs := by simp
  have hcm : c ∈ xs ++ b :: c :: zs := by simp
  have hbnd := (hi.mem_bounds hcm).2
  obtain ⟨k, h1, h2⟩ := seg_append.mp hi.seg
  obtain ⟨rfl, hbh, h3⟩ := h2
  have hc := h3.1
  -- writing the two fields of `b`
  have hb1 : hdrAt m b.addr = ⟨nextOf h.mem c.addr, b.size + (headerSize + c.size), true⟩ := by
    rw [hm, hdrAt_setNext _ _ (nextOf_lt _ _), hdrAt_setSize _ _ ?_, hbh, hfree]
    simp only [headerSize, heapLimit] at *
    omega
  have hother : ∀ x ∈ xs ++ zs, hdrAt m x.addr = hdrAt h.mem x.addr := by
    intro x hx
    have hx' : x ∈ xs ++ b :: c :: zs := by
      rcases List.mem_append.mp hx with hx | hx <;> simp [hx]
    have hne : b ≠ x := by
      rintro rfl
      refine hi.notMem_rest ?_
      rcases List.mem_append.mp hx with hx | hx <;> simp [hx]
    have hap := Seg.hdrApart hi.seg hb hx' hne
    rw [hm, hdrAt_setNext_apart _ _ hap, hdrAt_setSize_apart _ _ hap]
  -- the last write is to a `prev` link of the block behind `c`, if there is one
  by_cases h0 : nextOf h.mem c.addr = 0
  · rw [hm', if_neg (by simpa using h0)]
    exact ⟨hb1, hother⟩
  · have hi' : HeapInv base h ((xs ++ [b]) ++ c :: zs) := by simpa using hi
    obtain ⟨d, ds, rfl⟩ : ∃ d ds, zs = d :: ds := by
      cases zs with
      | nil => exact absurd hi'.next_split h0
      | cons d ds => exact ⟨d, ds, rfl⟩
    have hd : nextOf h.mem c.addr = d.addr := hi'.next_split
    have hdm : d ∈ xs ++ b :: c :: d :: ds := by simp
    rw [hm', if_pos h0, hd]
    refine ⟨?_, ?_⟩
    · rw [hi.hdrAt_setPrev_mem hdm hb, hb1, hd]
    · intro x hx
      have hx' : x ∈ xs ++ b :: c :: d :: ds := by
        rcases List.mem_append.mp hx with hx | hx <;> simp at hx ⊢ <;> tauto
      rw [hi.hdrAt_setPrev_mem hdm hx', hother x hx]

/-- The back links after those stores: the block behind `c` now follows `b`. -/
theorem HeapInv.merge_prevLinks (hi : HeapInv base h (xs ++ b :: c :: zs))
    (hp : PrevLinks h.mem 0 (xs ++ b :: c :: zs))
    {m : Mem} (hm : m = setNext (setSize h.mem b.addr (b.size + (headerSize + c.size))) b.addr
      (nextOf h.mem c.addr)) {m' : Mem}
    (hm' : m' = if nextOf h.mem c.addr ≠ 0 then setPrev m (nextOf h.mem c.addr) b.addr else m)
    {n : Nat} : PrevLinks m' 0 (xs ++ ⟨b.addr, n, true⟩ :: zs) := by
  have hb : b ∈ xs ++ b :: c :: zs := by simp
  have hm1 : ∀ x ∈ xs ++ b :: c :: zs, prevOf m x.addr = prevOf h.mem x.addr := by
    intro x hx
    have hap := hi.same_or_apart hb hx
    rw [hm, setNext, prevOf_store32 _ _ (by decide) (by decide) hap, setSize,
      prevOf_store32 _ _ (by decide) (by decide) hap]
  have hi' : HeapInv base h ((xs ++ [b]) ++ c :: zs) := by simpa using hi
  have hcnext := hi'.next_split
  obtain ⟨hp1, hp2, hp3, hp4⟩ := prevLinks_append.mp hp
  cases zs with
  | nil =>
    rw [hm', if_neg (by rw [hcnext]; exact not_not.mpr rfl)]
    refine prevLinks_append.mpr ⟨hp1.congr (fun x hx => hm1 x (by simp [hx])), ?_, trivial⟩
    rw [← hp2]
    exact hm1 b hb
  | cons z zs =>
    have hz : z ∈ xs ++ b :: c :: z :: zs := by simp
    have hzn : nextOf h.mem c.addr = z.addr := hcnext
    rw [hzn] at hm'
    rw [if_pos (hi.addr_ne_zero hz)] at hm'
    -- of all back links only that of `z` is written
    have hbelow : ∀ x ∈ xs ++ b :: c :: z :: zs, x.addr ≠ z.addr →
        prevOf m' x.addr = prevOf h.mem x.addr := by
      intro x hx hne
      have hap := (hi.same_or_apart hz hx).resolve_left (fun heq => hne heq.symm)
      rw [hm', prevOf_setPrev_apart _ _ hap, hm1 x hx]
    obtain ⟨k, h1, h2⟩ := seg_append.mp hi.seg
    have hbk := h2.1
    have hck := h2.2.2.1
    have hzk := h2.2.2.2.2.1
    have hlt : b.addr < 2 ^ 32 := by
      have := (hi.mem_bounds hb).2
      simp only [headerSize, heapLimit] at this
      omega
    simp only [headerSize] at hck hzk
    refine prevLinks_append.mpr ⟨hp1.congr ?_, ?_, ?_, hp4.2.congr ?_⟩
    · intro x hx
      have hxk := (h1.mem_bounds hx).2
      simp only [headerSize] at hxk
      exact hbelow x (by simp [hx]) (by omega)
    · rw [← hp2]
      exact hbelow b hb (by omega)
    · rw [hm', prevOf_setPrev _ hlt]
    · intro x hx
      have hxk := (h2.2.2.2.2.2.2.mem_bounds hx).1
      simp only [headerSize] at hxk
      exact hbelow x (by simp [hx]) (by omega)

/-- `b` with the `c` behind it merged into it, as both merges of `ufree` leave them. -/
def absorb (h : Heap) (b c : Block) : Heap :=
  let m := setNext (setSize h.mem b.addr (b.size + (headerSize + c.size))) b.addr
    (nextOf h.mem c.addr)
  { h with
    mem := if nextOf h.mem c.addr ≠ 0 then setPrev m (nextOf h.mem c.addr) b.addr else m
    headPrev := if nextOf h.mem c.addr = 0 then b.addr else h.headPrev }

theorem HeapInv.absorbed (hi : HeapInv base h (xs ++ b :: c :: zs)) (hb : b.free = true) :
    HeapInv base (absorb h b c) (xs ++ ⟨b.addr, b.size + (headerSize + c.size), true⟩ :: zs) ∧
      (TailOk h (xs ++ b :: c :: zs) →
        TailOk (absorb h b c) (xs ++ ⟨b.addr, b.size + (headerSize + c.size), true⟩ :: zs)) ∧
      (PrevLinks h.mem 0 (xs ++ b :: c :: zs) →
        PrevLinks (absorb h b c).mem 0
          (xs ++ ⟨b.addr, b.size + (headerSize + c.size), true⟩ :: zs)) := by
  obtain ⟨hmerged, hsame⟩ := hi.merge_stores hb rfl b.addr rfl
  exact ⟨hi.merge hmerged hsame rfl rfl, fun ht => ht.merge hi rfl,
    fun hp => hi.merge_prevLinks hp rfl rfl⟩

/-- The last word that `absorb` writes is in the header of the block behind `c`. -/
theorem HeapInv.absorb_next (hi : HeapInv base h (xs ++ b :: c :: zs))
    (h0 : nextOf h.mem c.addr ≠ 0) : ∃ z ∈ zs, nextOf h.mem c.addr = z.addr ∧ b ≠ z := by
  have hi' : HeapInv base h ((xs ++ [b]) ++ c :: zs) := by simpa using hi
  have hcnext := hi'.next_split
  cases zs with
  | nil => exact absurd hcnext h0
  | cons z zs =>
    refine ⟨z, List.mem_cons_self, hcnext, ?_⟩
    rintro rfl
    exact hi.notMem_rest (by simp)

/-- The `prev` link of `b` is below every word of `b` that is written. -/
theorem HeapInv.prevOf_absorb (hi : HeapInv base h (xs ++ b :: c :: zs)) :
    prevOf (absorb h b c).mem b.addr = prevOf h.mem b.addr := by
  have hdisj : ∀ v w : Nat,
      load32 (setNext (setSize h.mem b.addr v) b.addr w) b.addr = load32 h.mem b.addr := by
    intro v w
    rw [setNext, load32_store32_disjoint _ _ (by omega), setSize,
      load32_store32_disjoint _ _ (by omega)]
  simp only [prevOf, absorb]
  split
  · rename_i h0
    obtain ⟨z, hz, hzn, hne⟩ := hi.absorb_next h0
    have hzm : z ∈ xs ++ b :: c :: zs := by simp [hz]
    have hbz := Seg.hdrApart hi.seg (b := z) (c := b) hzm (by simp) hne.symm
    simp only [HdrApart, headerSize] at hbz
    rw [hzn, setPrev, load32_store32_disjoint _ _ (by omega), hdisj]
  · exact hdisj _ _

/-- The first merge of `ufree`, taken: the block behind `b` is free. -/
theorem ufreeMergeNext_eq (hi : HeapInv base h (xs ++ b :: c :: zs)) (hc : c.free = true) :
    ufreeMergeNext h b.addr = absorb h b c := by
  have hb : b ∈ xs ++ b :: c :: zs := by simp
  have hcm : c ∈ xs ++ b :: c :: zs := by simp
  have hnc : nextOf h.mem b.addr = c.addr := hi.next_split
  have hgo : c.addr ≠ 0 ∧ freeOf h.mem c.addr ≠ 0 :=
    ⟨hi.addr_ne_zero hcm, by rw [freeOf_ne_zero, (hi.seg.size_free hcm).2, hc]⟩
  have hsb : sizeOf h.mem b.addr = b.size := (hi.seg.size_free hb).1
  have hsc : sizeOf h.mem c.addr = c.size := (hi.seg.size_free hcm).1
  have hap := Seg.hdrApart hi.seg hb hcm hi.neighbour_ne
  have hnm : nextOf (setSize h.mem b.addr (b.size + (headerSize + c.size))) c.addr
      = nextOf h.mem c.addr := by
    rw [nextOf_eq, nextOf_eq, hdrAt_setSize_apart _ _ hap]
  have hnb : nextOf (setNext (setSize h.mem b.addr (b.size + (headerSize + c.size))) b.addr
      (nextOf h.mem c.addr)) b.addr = nextOf h.mem c.addr := by
    rw [nextOf_eq, hdrAt_setNext _ _ (nextOf_lt _ _)]
  simp only [ufreeMergeNext, absorb, hnc, hsb, hsc, hi.neighbour_size, hnm, hnb, if_pos hgo]

/-- The first merge of `ufree`, not taken: the block behind `b`, if any, is used. -/
theorem ufreeMergeNext_skip (hi : HeapInv base h (xs ++ b :: ys))
    (hno : ∀ c ∈ ys.head?, c.free = false) : ufreeMergeNext h b.addr = h := by
  have hnext := hi.next_split
  simp only [ufreeMergeNext]
  rw [if_neg]
  rintro ⟨h0, hf⟩
  cases ys with
  | nil => exact h0 hnext
  | cons c zs =>
    have hcm : c ∈ xs ++ b :: c :: zs := by simp
    rw [show nextOf h.mem b.addr = c.addr from hnext, freeOf_ne_zero, (hi.seg.size_free hcm).2,
      hno c rfl] at hf
    exact Bool.noConfusion hf

/-- The first merge of `ufree`: `b` is free, and afterwards heads a free
block at the same place; every used block is still on the list. -/
theorem ufreeMergeNext_spec (hi : HeapInv base h (xs ++ b :: ys)) (hfree : b.free = true) :
    ∃ b' ys', HeapInv base (ufreeMergeNext h b.addr) (xs ++ b' :: ys') ∧
      b'.addr = b.addr ∧ b'.free = true ∧
      (TailOk h (xs ++ b :: ys) → TailOk (ufreeMergeNext h b.addr) (xs ++ b' :: ys')) ∧
      (PrevLinks h.mem 0 (xs ++ b :: ys) →
        PrevLinks (ufreeMergeNext h b.addr).mem 0 (xs ++ b' :: ys')) ∧
      (∀ x ∈ ys, x.free = false → x ∈ ys') ∧
      prevOf (ufreeMergeNext h b.addr).mem b.addr = prevOf h.mem b.addr := by
  by_cases hgo : ∀ c ∈ ys.head?, c.free = false
  · rw [ufreeMergeNext_skip hi hgo]
    exact ⟨b, ys, hi, rfl, hfree, id, id, fun x hx _ => hx, rfl⟩
  · obtain ⟨c, zs, rfl, hcf⟩ : ∃ c zs, ys = c :: zs ∧ c.free = true := by
      cases ys with
      | nil => exact absurd (fun c hc => absurd hc nofun) hgo
      | cons c zs => exact ⟨c, zs, rfl, by simpa using hgo⟩
    rw [ufreeMergeNext_eq hi hcf]
    obtain ⟨hinv, htail, hlinks⟩ := hi.absorbed hfree
    refine ⟨_, zs, hinv, rfl, rfl, htail, hlinks, fun x hx hxf => ?_, hi.prevOf_absorb⟩
    rcases List.mem_cons.mp hx with rfl | hx
    · simp [hcf] at hxf
    · exact hx

/-- The second merge of `ufree`, taken: `c` goes to the free block before it. -/
theorem ufreeMergePrev_eq (hi : HeapInv base h (xs ++ b :: c :: zs)) (hb : b.free = true)
    (hprev : prevOf h.mem c.addr = b.addr) : ufreeMergePrev h c.addr = absorb h b c := by
  have hbm : b ∈ xs ++ b :: c :: zs := by simp
  have hcm : c ∈ xs ++ b :: c :: zs := by simp
  have hap := Seg.hdrApart hi.seg hbm hcm hi.neighbour_ne
  have hsb : sizeOf h.mem b.addr = b.size := (hi.seg.size_free hbm).1
  have hsc : sizeOf h.mem c.addr = c.size := (hi.seg.size_free hcm).1
  have hgo : b.addr ≠ 0 ∧ freeOf h.mem b.addr ≠ 0 :=
    ⟨hi.addr_ne_zero hbm, by rw [freeOf_ne_zero, (hi.seg.size_free hbm).2, hb]⟩
  have hn1 : nextOf (setSize h.mem b.addr (b.size + (headerSize + c.size))) c.addr
      = nextOf h.mem c.addr := by
    rw [nextOf_eq, nextOf_eq, hdrAt_setSize_apart _ _ hap]
  have hn2 : nextOf (setNext (setSize h.mem b.addr (b.size + (headerSize + c.size))) b.addr
      (nextOf h.mem c.addr)) c.addr = nextOf h.mem c.addr := by
    rw [nextOf_eq, nextOf_eq, hdrAt_setNext_apart _ _ hap, hdrAt_setSize_apart _ _ hap]
  have hn3 : nextOf (absorb h b c).mem b.addr = nextOf h.mem c.addr :=
    congrArg Hdr.next (hi.merge_stores hb rfl b.addr rfl).1
  simp only [absorb] at hn3
  simp only [ufreeMergePrev, absorb, hprev, hsb, hsc, hi.neighbour_size, hn1, hn2, hn3, if_pos hgo]

/-- The second merge of `ufree`, not taken. -/
theorem ufreeMergePrev_skip {a : Nat}
    (hskip : prevOf h.mem a = 0 ∨ freeOf h.mem (prevOf h.mem a) = 0) :
    ufreeMergePrev h a = h := by
  simp only [ufreeMergePrev]
  rw [if_neg]
  rintro ⟨h1, h2⟩
  exact hskip.elim h1 h2

/-- A block on the list: reached from `head.next` along `next`. -/
inductive OnList (h : Heap) : Nat → Prop
  | first : h.headNext ≠ 0 → OnList h h.headNext
  | next {a : Nat} : OnList h a → nextOf h.mem a ≠ 0 → OnList h (nextOf h.mem a)

/-- The blocks on the list are the blocks of the invariant. -/
theorem HeapInv.mem_of_onList (hi : HeapInv base h bs) {a : Nat} (ha : OnList h a) :
    ∃ b ∈ bs, b.addr = a := by
  induction ha with
  | first h0 =>
    cases bs with
    | nil => exact absurd (by simpa using hi.head) h0
    | cons b bs => exact ⟨b, by simp, by rw [hi.seg.1, hi.head]; simp⟩
  | next _ h0 ih =>
    obtain ⟨b, hb, rfl⟩ := ih
    obtain ⟨xs, ys, rfl⟩ := List.append_of_mem hb
    have hn := hi.next_split
    cases ys with
    | nil => exact absurd hn h0
    | cons c ys => exact ⟨c, by simp, hn.symm⟩

/-- Every block of the invariant is on the list. -/
theorem HeapInv.onList (hi : HeapInv base h bs) (hb : b ∈ bs) : OnList h b.addr := by
  obtain ⟨xs, ys, rfl⟩ := List.append_of_mem hb
  clear hb
  induction xs using List.reverseRecOn generalizing b ys with
  | nil =>
    have h0 : h.headNext = b.addr := by rw [hi.head, hi.seg.1]; simp
    have hne := hi.addr_ne_zero (b := b) (by simp)
    rw [← h0] at hne ⊢
    exact .first hne
  | append_singleton xs c ih =>
    have hi' : HeapInv base h (xs ++ c :: b :: ys) := by simpa using hi
    have hn : nextOf h.mem c.addr = b.addr := hi'.next_split
    have hne := hi'.addr_ne_zero (b := b) (by simp)
    rw [← hn] at hne ⊢
    exact .next (ih _ hi') hne

/-- `ufree` follows `hdr->prev` only where that is right: the link is null,
or it is another block of the list that is in use or is the one before
`hdr`. -/
def FreeOk (h : Heap) (hdr : Nat) : Prop :=
  prevOf h.mem hdr = 0 ∨
    (OnList h (prevOf h.mem hdr) ∧ prevOf h.mem hdr ≠ hdr ∧
      (freeOf h.mem (prevOf h.mem hdr) = 0 ∨ nextOf h.mem (prevOf h.mem hdr) = hdr))

/-- Marking a block free or used changes that block alone. -/
theorem HeapInv.setFree (hi : HeapInv base h (xs ++ b :: ys)) {v : Nat} (hv : v < 2 ^ 32) :
    HeapInv base { h with mem := setFree h.mem b.addr v }
      (xs ++ { b with free := v != 0 } :: ys) := by
  have hb : b ∈ xs ++ b :: ys := by simp
  obtain ⟨k, h1, h2⟩ := seg_append.mp hi.seg
  obtain ⟨rfl, hh, h3⟩ := h2
  have hother : ∀ x ∈ xs ++ b :: ys, b ≠ x →
      hdrAt (User.setFree h.mem b.addr v) x.addr = hdrAt h.mem x.addr :=
    fun x hx hne => hdrAt_setFree_apart _ _ (Seg.hdrApart hi.seg hb hx hne)
  refine ⟨seg_append.mpr ⟨b.addr, ?_, rfl, ?_, ?_⟩, hi.base_pos, hi.brk_le, ?_⟩
  · refine Seg.congr (by simpa using h1) fun x hx => hother x (by simp [hx]) ?_
    rintro rfl
    exact hi.notMem_rest (List.mem_append_left _ hx)
  · show hdrAt (User.setFree h.mem b.addr v) b.addr = _
    rw [hdrAt_setFree _ _ hv, hh]
  · refine h3.congr fun x hx => hother x (by simp [hx]) ?_
    rintro rfl
    exact hi.notMem_rest (List.mem_append_right _ hx)
  · rw [show ({ h with mem := User.setFree h.mem b.addr v } : Heap).headNext = h.headNext from rfl,
      hi.head]
    simp

/-- Marking a block leaves the back links alone. -/
theorem HeapInv.setFree_prevLinks (hi : HeapInv base h (xs ++ b :: ys)) {v : Nat} {f : Bool}
    (hp : PrevLinks h.mem 0 (xs ++ b :: ys)) :
    PrevLinks (User.setFree h.mem b.addr v) 0 (xs ++ { b with free := f } :: ys) := by
  have hb : b ∈ xs ++ b :: ys := by simp
  have hsame : ∀ x ∈ xs ++ b :: ys, prevOf (User.setFree h.mem b.addr v) x.addr =
      prevOf h.mem x.addr :=
    fun x hx => prevOf_store32 _ _ (by decide) (by decide) (hi.same_or_apart hb hx)
  obtain ⟨hp1, hp2, hp3⟩ := prevLinks_append.mp hp
  refine prevLinks_append.mpr ⟨hp1.congr (fun x hx => hsame x (by simp [hx])), ?_,
    hp3.congr (fun x hx => hsame x (by simp [hx]))⟩
  rw [← hp2]
  exact hsame b hb

/-- Marking a block leaves the last address alone. -/
theorem TailOk.setFree {m : Mem} {f : Bool} (ht : TailOk h (xs ++ b :: ys)) :
    TailOk { h with mem := m } (xs ++ { b with free := f } :: ys) := by
  intro x hx
  change h.headPrev = x.addr
  cases ys with
  | nil =>
    obtain rfl := by simpa using hx
    exact ht b (by simp)
  | cons y ys => exact ht x (by simpa [List.getLast?_append, List.getLast?_cons_cons] using hx)

/-- Which block `hdr->prev` is, when `FreeOk`. -/
theorem HeapInv.prev_block (hi : HeapInv base h bs) (hb : b ∈ bs) (hok : FreeOk h b.addr) :
    prevOf h.mem b.addr = 0 ∨
      (∃ q ∈ bs, q.addr = prevOf h.mem b.addr ∧ q ≠ b ∧ q.free = false) ∨
      ∃ xs q ys, bs = xs ++ q :: b :: ys ∧ q.addr = prevOf h.mem b.addr ∧ q.free = true := by
  rcases hok with h0 | ⟨hon, hne, hq⟩
  · exact Or.inl h0
  obtain ⟨q, hqm, hqa⟩ := hi.mem_of_onList hon
  have hqf : freeOf h.mem q.addr ≠ 0 ↔ q.free = true := by
    rw [freeOf_ne_zero, (hi.seg.size_free hqm).2]
  rw [← hqa] at hq hne
  by_cases hfree : q.free = true
  · obtain hnext : nextOf h.mem q.addr = b.addr := hq.resolve_left (hqf.mpr hfree)
    obtain ⟨xs, ys, rfl⟩ := List.append_of_mem hqm
    rw [hi.next_split] at hnext
    cases ys with
    | nil => exact absurd hnext.symm (hi.addr_ne_zero hb)
    | cons c ys =>
      have hcb : c = b := hi.eq_of_addr (by simp) hb hnext
      subst hcb
      exact Or.inr (Or.inr ⟨xs, q, ys, rfl, hqa, hfree⟩)
  · refine Or.inr (Or.inl ⟨q, hqm, hqa, ?_, by simpa using hfree⟩)
    rintro rfl
    exact hne rfl

theorem prevOf_setFree (m : Mem) (a v : Nat) : prevOf (User.setFree m a v) a = prevOf m a := by
  simp only [prevOf, User.setFree]
  rw [load32_store32_disjoint _ _ (by omega)]

/-- **`ufree` keeps the heap.** Freeing a block of the list, with the back
link it follows right, leaves a heap over the same memory in which every
other used block is still a block. -/
theorem ufree_spec (hi : HeapInv base h bs) (hb : b ∈ bs) (hok : FreeOk h b.addr) :
    ∃ bs', HeapInv base (ufree h (b.addr + headerSize)) bs' ∧
      (TailOk h bs → TailOk (ufree h (b.addr + headerSize)) bs') ∧
      (PrevLinks h.mem 0 bs → PrevLinks (ufree h (b.addr + headerSize)).mem 0 bs') ∧
      ∀ x ∈ bs, x ≠ b → x.free = false → x ∈ bs' := by
  have hhdr : sub32 (b.addr + headerSize) headerSize = b.addr := by
    rw [sub32_of_le (by omega), Nat.add_sub_cancel]
    have := (hi.mem_bounds hb).2
    simp only [headerSize, heapLimit] at *
    omega
  -- what is common to all ways to split the list at `b`
  have key : ∀ xs ys, bs = xs ++ b :: ys →
      ∃ h2 b2 ys2, ufree h (b.addr + headerSize) = ufreeMergePrev h2 b.addr ∧
        HeapInv base h2 (xs ++ b2 :: ys2) ∧ b2.addr = b.addr ∧ b2.free = true ∧
        (TailOk h bs → TailOk h2 (xs ++ b2 :: ys2)) ∧
        (PrevLinks h.mem 0 bs → PrevLinks h2.mem 0 (xs ++ b2 :: ys2)) ∧
        (∀ x ∈ ys, x.free = false → x ∈ ys2) ∧ prevOf h2.mem b.addr = prevOf h.mem b.addr := by
    rintro xs ys rfl
    have hset := hi.setFree (v := 1) (by norm_num)
    have hfree : ({ b with free := (1 : Nat) != 0 } : Block).free = true := rfl
    obtain ⟨b2, ys2, hi2, ha, hf, ht, hpl, hused, hprev⟩ := ufreeMergeNext_spec hset hfree
    refine ⟨_, b2, ys2, ?_, hi2, ha, hf, ?_, ?_, hused, ?_⟩
    · simp only [ufree, hhdr]
    · exact fun ht0 => ht ht0.setFree
    · exact fun hp => hpl (hi.setFree_prevLinks hp)
    · rw [hprev]
      exact prevOf_setFree _ _ _
  rcases hi.prev_block hb hok with h0 | ⟨q, hqm, hqa, hqb, hqf⟩ | ⟨xs, q, ys, rfl, hqa, hqf⟩
  · obtain ⟨xs, ys, rfl⟩ := List.append_of_mem hb
    obtain ⟨h2, b2, ys2, hres, hi2, ha, hf, ht, hpl, hused, hprev⟩ := key xs ys rfl
    rw [hres, ufreeMergePrev_skip (Or.inl (by rw [hprev, h0]))]
    refine ⟨_, hi2, ht, hpl, fun x hx hne hxf => ?_⟩
    rcases List.mem_append.mp hx with hx | hx
    · simp [hx]
    · exact List.mem_append_right _ (List.mem_cons_of_mem _
        (hused x ((List.mem_cons.mp hx).resolve_left hne) hxf))
  · obtain ⟨xs, ys, rfl⟩ := List.append_of_mem hb
    obtain ⟨h2, b2, ys2, hres, hi2, ha, hf, ht, hpl, hused, hprev⟩ := key xs ys rfl
    have hstay : ∀ x ∈ xs ++ b :: ys, x ≠ b → x.free = false → x ∈ xs ++ b2 :: ys2 := by
      intro x hx hne hxf
      rcases List.mem_append.mp hx with hx | hx
      · simp [hx]
      · exact List.mem_append_right _ (List.mem_cons_of_mem _
          (hused x ((List.mem_cons.mp hx).resolve_left hne) hxf))
    -- the used block `hdr->prev` is still there, so it is still marked used
    have hq2 := hi2.seg.size_free (hstay q hqm hqb hqf)
    have hskip : freeOf h2.mem (prevOf h2.mem b.addr) = 0 := by
      by_contra hne
      rw [← Ne, hprev, ← hqa, freeOf_ne_zero, hq2.2, hqf] at hne
      exact absurd hne (by simp)
    rw [hres, ufreeMergePrev_skip (Or.inr hskip)]
    exact ⟨_, hi2, ht, hpl, hstay⟩
  · obtain ⟨h2, b2, ys2, hres, hi2, ha, hf, ht, hpl, hused, hprev⟩ := key (xs ++ [q]) ys (by simp)
    have hi3 : HeapInv base h2 (xs ++ q :: b2 :: ys2) := by simpa using hi2
    rw [hres, ← ha, ufreeMergePrev_eq hi3 hqf (by rw [ha, hprev, hqa])]
    obtain ⟨hinv, htail, hlinks⟩ := hi3.absorbed hqf
    refine ⟨_, hinv, fun h0 => htail (by simpa using ht h0),
      fun h0 => hlinks (by simpa using hpl h0), fun x hx hne hxf => ?_⟩
    rcases List.mem_append.mp hx with hx | hx
    · simp [hx]
    · rcases List.mem_cons.mp hx with rfl | hx
      · simp [hqf] at hxf
      · exact List.mem_append_right _ (List.mem_cons_of_mem _
          (hused x ((List.mem_cons.mp hx).resolve_left hne) hxf))

end

end Risky321.User
