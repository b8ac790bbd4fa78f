/-
Risky321.User.UmallocGrowth — how the user heap grows, and what a request
gets from it.

A page from `usys_sbrk` is linked in behind `head.prev`, and if that block
is free the page is merged with it. So as long as `head.prev` is the last
block of the list, the free space at its end grows by a page with every
call of `umorecore`, and `umalloc` comes to an end. §1 is `umorecore` as
one store after the other, §2 what it does to the list, §3 the end of
`umalloc`, §4 what it hands out, for requests of any size.
-/
import Risky321.User.UmallocTiling

namespace Risky321.User

open Risky321.Lib

/-! ## §1 `umorecore` -/

section
variable {h h' : Heap} {x : Nat}

/-- The memory when the new page is linked in behind `head.prev` and marked free. -/
def linkedPage (h : Heap) : Mem :=
  User.setFree (setPrev (setNext (newPage h.mem h.brk) h.headPrev h.brk) h.brk h.headPrev) h.brk 1

/-- The memory when the page has been merged with `head.prev`. -/
def mergedPage (h : Heap) : Mem :=
  setNext (setSize (linkedPage h) h.headPrev ((sizeOf h.mem h.headPrev + pageSize) % 2 ^ 32))
    h.headPrev 0

/-- The heap after `umorecore`, when it has a list. -/
def grown (h : Heap) : Heap :=
  if freeOf h.mem h.headPrev ≠ 0 then
    { h with mem := mergedPage h, brk := h.brk + pageSize }
  else
    { h with mem := linkedPage h, headPrev := h.brk, brk := h.brk + pageSize }

theorem hdrAt_linkedPage_tail (hbelow : h.headPrev + headerSize ≤ h.brk) (hlt : h.brk < 2 ^ 32) :
    hdrAt (linkedPage h) h.headPrev = { hdrAt h.mem h.headPrev with next := h.brk } := by
  have hap : HdrApart h.brk h.headPrev := Or.inr hbelow
  rw [linkedPage, hdrAt_setFree_apart _ _ hap, hdrAt_setPrev_apart _ _ hap, hdrAt_setNext _ _ hlt,
    hdrAt_newPage_below _ hbelow]

theorem hdrAt_linkedPage_page (hbelow : h.headPrev + headerSize ≤ h.brk) :
    hdrAt (linkedPage h) h.brk = ⟨0, pageSize - headerSize, true⟩ := by
  rw [linkedPage, hdrAt_setFree _ _ (by norm_num), hdrAt_setPrev,
    hdrAt_setNext_apart _ _ (Or.inl hbelow), hdrAt_newPage]
  rfl

theorem prevOf_linkedPage (hlt : h.headPrev < 2 ^ 32) :
    prevOf (linkedPage h) h.brk = h.headPrev := by
  rw [linkedPage, prevOf_setFree, prevOf_setPrev _ hlt]

/-- `umorecore` on a heap that has a list, with `head.prev` some header in it. -/
theorem umorecore_eq (hne : h.headNext ≠ 0) (hp : h.headPrev ≠ 0)
    (hbelow : h.headPrev + headerSize ≤ h.brk) (hroom : h.brk + pageSize ≤ heapLimit) :
    umorecore h = some (h.brk, grown h) := by
  have hlim : heapLimit < 2 ^ 32 := by decide
  have hbrk : h.brk < 2 ^ 32 := by omega
  have hplt : h.headPrev < 2 ^ 32 := by omega
  have hap : HdrApart h.headPrev h.brk := Or.inl hbelow
  have htail := hdrAt_linkedPage_tail hbelow hbrk
  have hpage := hdrAt_linkedPage_page hbelow
  have hprev := prevOf_linkedPage (h := h) hplt
  have hhdr : sub32 (h.brk + headerSize) headerSize = h.brk := by
    rw [sub32_of_le (by omega), Nat.add_sub_cancel]
    simp only [headerSize, pageSize, heapLimit] at *
    omega
  have hnext0 : nextOf (linkedPage h) h.brk = 0 := by rw [nextOf_eq, hpage]
  have hsize : sizeOf (linkedPage h) h.brk = pageSize - headerSize := by rw [sizeOf_eq, hpage]
  have htsize : sizeOf (linkedPage h) h.headPrev = sizeOf h.mem h.headPrev := by
    rw [sizeOf_eq, htail, sizeOf_eq]
  have htfree : freeOf (linkedPage h) h.headPrev ≠ 0 ↔ freeOf h.mem h.headPrev ≠ 0 := by
    rw [freeOf_ne_zero, htail, freeOf_ne_zero]
  -- the free call finds nothing behind the page, and `head.prev` before it
  have hlinked : umorecore h = some (h.brk, ufreeMergePrev
      { h with mem := linkedPage h, headPrev := h.brk, brk := h.brk + pageSize } h.brk) := by
    simp only [umorecore, usysSbrk, if_pos hroom, Option.bind_eq_bind, Option.bind_some, if_pos hne,
      ufree, hhdr]
    have hskip : ∀ g : Heap, nextOf g.mem h.brk = 0 → ufreeMergeNext g h.brk = g := by
      intro g hg
      simp [ufreeMergeNext, hg]
    rw [hskip _ hnext0]
    rfl
  rw [hlinked, ufreeMergePrev, grown]
  simp only [hprev]
  by_cases hfree : freeOf h.mem h.headPrev ≠ 0
  · have hsz : sizeOf h.mem h.headPrev + (headerSize + (pageSize - headerSize)) =
        sizeOf h.mem h.headPrev + pageSize := by
      simp only [headerSize, pageSize]
    have hkeep : ∀ v w, nextOf (setNext (setSize (linkedPage h) h.headPrev v) h.headPrev w) h.brk =
        0 := by
      intro v w
      rw [nextOf_eq, hdrAt_setNext_apart _ _ hap, hdrAt_setSize_apart _ _ hap, hpage]
    have hkeep' : ∀ v, nextOf (setSize (linkedPage h) h.headPrev v) h.brk = 0 := by
      intro v
      rw [nextOf_eq, hdrAt_setSize_apart _ _ hap, hpage]
    have hlast : nextOf (setNext (setSize (linkedPage h) h.headPrev
        ((sizeOf h.mem h.headPrev + pageSize) % 2 ^ 32)) h.headPrev 0) h.headPrev = 0 := by
      rw [nextOf_eq, hdrAt_setNext _ _ (by norm_num)]
    rw [if_pos ⟨hp, htfree.mpr hfree⟩, if_pos hfree]
    simp only [htsize, hsize, hsz, hkeep, hkeep', ne_eq, not_true_eq_false, if_false, hlast, if_true,
      mergedPage]
  · rw [if_neg (fun hc => hfree (htfree.mp hc.2)), if_neg hfree]

/-- The heap after the first `umorecore`. -/
def firstPage (h : Heap) : Heap :=
  { mem := User.setFree (setPrev (newPage h.mem h.brk) h.brk 0) h.brk 1
    headNext := h.brk
    headPrev := h.brk
    brk := h.brk + pageSize }

theorem hdrAt_firstPage (h : Heap) :
    hdrAt (firstPage h).mem h.brk = ⟨0, pageSize - headerSize, true⟩ := by
  rw [firstPage, hdrAt_setFree _ _ (by norm_num), hdrAt_setPrev, hdrAt_newPage]
  rfl

theorem umorecore_first (hne : h.headNext = 0) (hroom : h.brk + pageSize ≤ heapLimit) :
    umorecore h = some (h.brk, firstPage h) := by
  have hhdr : sub32 (h.brk + headerSize) headerSize = h.brk := by
    rw [sub32_of_le (by omega), Nat.add_sub_cancel]
    simp only [headerSize, pageSize, heapLimit] at *
    omega
  have hnext : nextOf (firstPage h).mem h.brk = 0 := by rw [nextOf_eq, hdrAt_firstPage]
  have hprev : prevOf (firstPage h).mem h.brk = 0 := by
    rw [firstPage, prevOf_setFree, prevOf_setPrev _ (by norm_num)]
  have hmerge : ufreeMergePrev (ufreeMergeNext (firstPage h) h.brk) h.brk = firstPage h := by
    have hskip : ufreeMergeNext (firstPage h) h.brk = firstPage h := by simp [ufreeMergeNext, hnext]
    rw [hskip, ufreeMergePrev_skip (Or.inl hprev)]
  simp only [umorecore, usysSbrk, if_pos hroom, Option.bind_eq_bind, Option.bind_some, hne, ne_eq,
    not_true_eq_false, if_false, ufree, hhdr]
  exact congrArg (fun g => some (h.brk, g)) hmerge

/-- `umorecore` writes the page and the header at `head.prev`. -/
theorem linkedPage_outside (hx : x < h.brk)
    (hp : x < h.headPrev ∨ h.headPrev + headerSize ≤ x) : linkedPage h x = h.mem x := by
  simp only [headerSize] at hp
  rw [linkedPage, User.setFree, store32_outside _ _ _ (by omega), setPrev,
    store32_outside _ _ _ (by omega), setNext, store32_outside _ _ _ (by omega), newPage, setNext,
    store32_outside _ _ _ (by omega), setSize, store32_outside _ _ _ (by omega), User.setFree,
    store32_outside _ _ _ (by omega), fill_outside _ _ _ _ (by omega)]

theorem grown_outside (hx : x < h.brk)
    (hp : x < h.headPrev ∨ h.headPrev + headerSize ≤ x) : (grown h).mem x = h.mem x := by
  have hlinked := linkedPage_outside hx hp
  simp only [headerSize] at hp
  unfold grown
  split
  · show mergedPage h x = h.mem x
    rw [mergedPage, setNext, store32_outside _ _ _ (by omega), setSize,
      store32_outside _ _ _ (by omega), hlinked]
  · exact hlinked

theorem firstPage_outside (hx : x < h.brk) : (firstPage h).mem x = h.mem x := by
  show User.setFree (setPrev (newPage h.mem h.brk) h.brk 0) h.brk 1 x = h.mem x
  rw [User.setFree, store32_outside _ _ _ (by omega), setPrev,
    store32_outside _ _ _ (by omega), newPage, setNext, store32_outside _ _ _ (by omega), setSize,
    store32_outside _ _ _ (by omega), User.setFree, store32_outside _ _ _ (by omega),
    fill_outside _ _ _ _ (by omega)]

end

/-! ## §2 The list of a heap that grows -/

section
variable {base bytes fuel : Nat} {h h' : Heap} {bs bs' xs ys : List Block} {b c : Block}

/-- The bytes at the end of the list that one free block takes, its header included. -/
def tailRoom : List Block → Nat
  | [] => 0
  | [b] => if b.free then headerSize + b.size else 0
  | _ :: c :: bs => tailRoom (c :: bs)

theorem tailRoom_append (xs : List Block) (b : Block) :
    tailRoom (xs ++ [b]) = if b.free then headerSize + b.size else 0 := by
  induction xs with
  | nil => rfl
  | cons x xs ih =>
    cases xs with
    | nil => rfl
    | cons y xs => exact ih

/-- What `umorecore` does to the list `bs` of the heap `h`. -/
structure MoreCore (base : Nat) (h h' : Heap) (bs bs' : List Block) : Prop where
  inv : HeapInv base h' bs'
  tail : TailOk h' bs'
  brk : h'.brk = h.brk + pageSize
  room : tailRoom bs' = tailRoom bs + pageSize
  length_le : bs'.length ≤ bs.length + 1
  used : ∀ x ∈ bs, x.free = false → x ∈ bs'
  frame : ∀ x < h.brk, (∀ b ∈ bs, x < b.addr ∨ b.addr + headerSize ≤ x) → h'.mem x = h.mem x

theorem HeapInv.firstPage (hi : HeapInv base h []) (hroom : h.brk + pageSize ≤ heapLimit) :
    MoreCore base h (User.firstPage h) [] [⟨h.brk, pageSize - headerSize, true⟩] where
  inv := by
    have hbrk : base = h.brk := hi.seg
    refine ⟨seg_singleton.mpr ⟨hbrk.symm, ?_, ?_⟩, hi.base_pos, hroom, by simp [User.firstPage, hbrk]⟩
    · rw [hbrk]
      exact hdrAt_firstPage h
    · simp [User.firstPage, hbrk, pageSize, headerSize]
  tail := by
    intro x hx
    obtain rfl := by simpa using hx
    rfl
  brk := rfl
  room := by simp [tailRoom, headerSize, pageSize]
  length_le := by simp
  used := by simp
  frame := fun x hx _ => firstPage_outside hx

/-- The page linked in behind the last block. -/
theorem HeapInv.linkedPage (hi : HeapInv base h (xs ++ [b])) (ht : h.headPrev = b.addr)
    (hroom : h.brk + pageSize ≤ heapLimit) {p : Nat} :
    HeapInv base { h with mem := User.linkedPage h, headPrev := p, brk := h.brk + pageSize }
      (xs ++ [b] ++ [⟨h.brk, pageSize - headerSize, true⟩]) := by
  have hlink : HeapInv base
      { h with
        mem := setPrev (setNext (newPage h.mem h.brk) b.addr h.brk) h.brk b.addr
        headPrev := p
        brk := h.brk + pageSize }
      (xs ++ [b] ++ [⟨h.brk, pageSize - headerSize, true⟩]) := hi.link_page hroom rfl rfl rfl
  have hset := hlink.setFree (v := 1) (by norm_num)
  rw [← ht] at hset
  exact hset

/-- The page merged with the last block. -/
theorem HeapInv.mergedPage (hi : HeapInv base h (xs ++ [b])) (ht : h.headPrev = b.addr)
    (hfree : b.free = true) (hroom : h.brk + pageSize ≤ heapLimit) :
    HeapInv base { h with mem := User.mergedPage h, brk := h.brk + pageSize }
      (xs ++ [⟨b.addr, b.size + pageSize, true⟩]) := by
  have hlink := hi.linkedPage ht hroom (p := h.headPrev)
  have hlist : xs ++ [b] ++ [⟨h.brk, pageSize - headerSize, true⟩] =
      xs ++ b :: ⟨h.brk, pageSize - headerSize, true⟩ :: [] := by simp
  rw [hlist] at hlink
  have hbm : b ∈ xs ++ [b] := by simp
  have hbnd := (hi.seg.mem_bounds hbm).2
  have hsize : sizeOf h.mem b.addr = b.size := (hi.seg.size_free hbm).1
  have hsz : b.size + (headerSize + (pageSize - headerSize)) = b.size + pageSize := by
    simp only [headerSize, pageSize]
  have hnext : nextOf (User.linkedPage h) h.brk = 0 := by
    rw [nextOf_eq, hdrAt_linkedPage_page (by rw [ht]; omega)]
  have hmod : (b.size + pageSize) % 2 ^ 32 = b.size + pageSize := by
    apply Nat.mod_eq_of_lt
    simp only [headerSize, pageSize, heapLimit] at *
    omega
  obtain ⟨hmerged, hsame⟩ := hlink.merge_stores hfree rfl b.addr rfl
  simp only [hnext, hsz, ne_eq, not_true_eq_false, if_false] at hmerged hsame
  have hmem : User.mergedPage h = setNext (setSize (User.linkedPage h) b.addr (b.size + pageSize))
      b.addr 0 := by
    rw [User.mergedPage, ht, hsize, hmod]
  rw [← hsz]
  refine hlink.merge ?_ ?_ rfl rfl
  · rw [hnext, hsz, hmem]
    exact hmerged
  · rw [hmem]
    exact hsame

/-- `umorecore` on a heap whose `head.prev` is the last block of the list. -/
theorem HeapInv.grown (hi : HeapInv base h (xs ++ [b])) (ht : h.headPrev = b.addr)
    (hroom : h.brk + pageSize ≤ heapLimit) :
    ∃ bs', MoreCore base h (User.grown h) (xs ++ [b]) bs' := by
  have hbm : b ∈ xs ++ [b] := by simp
  have hfree : freeOf h.mem h.headPrev ≠ 0 ↔ b.free = true := by
    rw [ht, freeOf_ne_zero, (hi.seg.size_free hbm).2]
  have hframe : ∀ x < h.brk, (∀ c ∈ xs ++ [b], x < c.addr ∨ c.addr + headerSize ≤ x) →
      (User.grown h).mem x = h.mem x :=
    fun x hx hc => grown_outside hx (by rw [ht]; exact hc b hbm)
  by_cases hf : b.free = true
  · have hg : User.grown h = { h with mem := User.mergedPage h, brk := h.brk + pageSize } := by
      rw [User.grown, if_pos (hfree.mpr hf)]
    rw [hg] at hframe ⊢
    refine ⟨_, hi.mergedPage ht hf hroom, ?_, rfl, ?_, by simp, ?_, hframe⟩
    · intro x hx
      obtain rfl := by simpa using hx
      exact ht
    · simp only [tailRoom_append, hf, if_true]
      omega
    · intro x hx hxf
      rcases List.mem_append.mp hx with hx | hx
      · simp [hx]
      · rw [List.mem_singleton.mp hx, hf] at hxf
        exact Bool.noConfusion hxf
  · have hg : User.grown h =
        { h with mem := User.linkedPage h, headPrev := h.brk, brk := h.brk + pageSize } := by
      rw [User.grown, if_neg (mt hfree.mp hf)]
    rw [hg] at hframe ⊢
    refine ⟨_, hi.linkedPage ht hroom, ?_, rfl, ?_, by simp, ?_, hframe⟩
    · intro x hx
      obtain rfl := by simpa using hx
      rfl
    · rw [tailRoom_append, tailRoom_append, if_neg hf]
      simp [headerSize, pageSize]
    · intro x hx _
      exact List.mem_append_left _ hx

/-- **`umorecore` makes the free space at the end a page larger.** -/
theorem HeapInv.moreCore (hi : HeapInv base h bs) (ht : TailOk h bs)
    (hroom : h.brk + pageSize ≤ heapLimit) :
    ∃ h' bs', umorecore h = some (h.brk, h') ∧ MoreCore base h h' bs bs' := by
  have hpos := hi.base_pos
  rcases List.eq_nil_or_concat' bs with rfl | ⟨xs, b, rfl⟩
  · exact ⟨_, _, umorecore_first hi.head hroom, hi.firstPage hroom⟩
  · have hlast : h.headPrev = b.addr := ht b (by simp)
    have hne : h.headNext ≠ 0 := by
      rw [hi.head]
      simp
      omega
    have hbm : b ∈ xs ++ [b] := by simp
    have hbnd := (hi.seg.mem_bounds hbm).2
    obtain ⟨bs', hmore⟩ := hi.grown hlast hroom
    refine ⟨_, bs', umorecore_eq hne ?_ ?_ hroom, hmore⟩
    · rw [hlast]
      exact hi.addr_ne_zero hbm
    · rw [hlast]
      omega

/-! ## §3 The end of `umalloc` -/

/-- The search goes through the list once. -/
theorem umallocSearch_total (xs : List Block) (hi : HeapInv base h (xs ++ ys)) {al rq : Nat}
    (hfuel : ys.length < fuel) :
    ∃ r, umallocSearch h.mem al rq fuel (firstAddr ys) = some r ∧
      (r = none → ∀ b ∈ ys, b.free = true → b.size ≠ al ∧ b.size < rq) := by
  induction fuel generalizing xs ys with
  | zero => omega
  | succ fuel ih =>
    cases ys with
    | nil => exact ⟨none, by simp [umallocSearch, firstAddr], by simp⟩
    | cons b ys =>
      have hb : b ∈ xs ++ b :: ys := by simp
      obtain ⟨hsz, hfr⟩ := hi.seg.size_free hb
      simp only [umallocSearch, firstAddr, if_neg (hi.addr_ne_zero hb), sizeOf_eq, freeOf_ne_zero,
        hsz, hfr]
      by_cases hfit : b.free = true ∧ (b.size = al ∨ rq ≤ b.size)
      · rw [if_pos hfit]
        exact ⟨some b.addr, rfl, by simp⟩
      · rw [if_neg hfit, hi.next_split]
        have hi' : HeapInv base h ((xs ++ [b]) ++ ys) := by simpa using hi
        obtain ⟨r, hr, hnone⟩ := ih (xs ++ [b]) hi' (by simpa using hfuel)
        refine ⟨r, hr, fun hr0 c hc hcf => ?_⟩
        rcases List.mem_cons.mp hc with rfl | hc
        · exact ⟨fun heq => hfit ⟨hcf, Or.inl heq⟩, not_le.mp (fun hle => hfit ⟨hcf, Or.inr hle⟩)⟩
        · exact hnone hr0 c hc hcf

theorem HeapInv.find_total (hi : HeapInv base h bs) (bytes : Nat) (hfuel : bs.length < fuel) :
    ∃ r, umallocFind fuel h bytes = some r ∧
      (r = none → ∀ b ∈ bs, b.free = true →
        b.size ≠ alignedBytes bytes ∧ b.size < requiredBytes bytes) := by
  rw [umallocFind]
  by_cases hne : h.headNext ≠ 0
  · rw [if_pos hne, hi.headNext_eq]
    exact umallocSearch_total [] hi hfuel
  · rw [if_neg hne]
    have hpos := hi.base_pos
    have hnil : bs = [] := by
      by_contra hbs
      have := hi.head
      rw [if_neg hbs] at this
      omega
    exact ⟨none, rfl, by simp [hnil]⟩

/-- Free space at the end of the list that the search does not take is too small. -/
theorem tailRoom_lt {rq : Nat} (hrq : 0 < rq)
    (hsmall : ∀ b ∈ bs, b.free = true → b.size < rq) : tailRoom bs < headerSize + rq := by
  rcases List.eq_nil_or_concat' bs with rfl | ⟨xs, b, rfl⟩
  · simp only [tailRoom]
    omega
  · rw [tailRoom_append]
    split
    · rename_i hf
      have := hsmall b (by simp) hf
      omega
    · omega

theorem umallocTake_fst (h : Heap) (curr al : Nat) :
    (umallocTake h curr al).1 = curr + headerSize := by
  unfold umallocTake
  split <;> rfl

/-- The loop ends with the block that the search finds. -/
theorem umallocLoop_found {curr : Nat} (hfind : umallocFind (fuel + 1) h bytes = some (some curr)) :
    umallocLoop bytes (fuel + 1) h = some (umallocTake h curr (alignedBytes bytes)) := by
  rw [umallocLoop, hfind]
  rfl

/-- When the search finds nothing, the loop goes on with one page more. -/
theorem umallocLoop_more {page : Nat} (hfind : umallocFind (fuel + 1) h bytes = some none)
    (hcore : umorecore h = some (page, h')) (hpage : page ≠ 0) :
    umallocLoop bytes (fuel + 1) h = umallocLoop bytes fuel h' := by
  rw [umallocLoop, hfind]
  simp only [Option.bind_eq_bind, Option.bind_some, hcore, if_neg hpage]

/-- The loop, when `k` more pages make the free space at the end large enough. -/
theorem umallocLoop_terminates {k : Nat} (hpos : 0 < bytes) (hle : bytes ≤ 2 ^ 32 - 24)
    (hi : HeapInv base h bs)
    (htail : (∃ f, umallocFind f h bytes = some none) → TailOk h bs)
    (hroom : h.brk + k * pageSize ≤ heapLimit)
    (hk : alignedBytes bytes + 2 * headerSize + 4 ≤ tailRoom bs + k * pageSize)
    (hfuel : bs.length + 2 * k < fuel) :
    ∃ p h', umallocLoop bytes fuel h = some (p, h') ∧ p ≠ 0 := by
  obtain ⟨-, hrq⟩ := requiredBytes_eq hpos hle
  induction k generalizing h bs fuel with
  | zero =>
    obtain ⟨fuel, rfl⟩ : ∃ f, fuel = f + 1 := ⟨fuel - 1, by omega⟩
    obtain ⟨r, hfind, hnone⟩ := hi.find_total bytes (show bs.length < fuel + 1 by omega)
    cases r with
    | some curr =>
      refine ⟨(umallocTake h curr (alignedBytes bytes)).1,
        (umallocTake h curr (alignedBytes bytes)).2, umallocLoop_found hfind, ?_⟩
      rw [umallocTake_fst]
      simp [headerSize]
    | none =>
      have := tailRoom_lt (by omega) (fun b hb hf => (hnone rfl b hb hf).2)
      omega
  | succ k ih =>
    obtain ⟨fuel, rfl⟩ : ∃ f, fuel = f + 1 := ⟨fuel - 1, by omega⟩
    obtain ⟨r, hfind, hnone⟩ := hi.find_total bytes (show bs.length < fuel + 1 by omega)
    cases r with
    | some curr =>
      refine ⟨(umallocTake h curr (alignedBytes bytes)).1,
        (umallocTake h curr (alignedBytes bytes)).2, umallocLoop_found hfind, ?_⟩
      rw [umallocTake_fst]
      simp [headerSize]
    | none =>
      obtain ⟨h1, bs1, hcore, hmore⟩ := hi.moreCore (htail ⟨_, hfind⟩)
        (by simp only [pageSize] at *; omega)
      have hbrk := hmore.brk
      have hlen := hmore.length_le
      have hgrow := hmore.room
      simp only [pageSize] at hroom hk hbrk hgrow ih
      obtain ⟨p, h', hloop, hp⟩ := ih hmore.inv (fun _ => hmore.tail) (by omega) (by omega)
        (show bs1.length + 2 * k < fuel by omega)
      have hbase : base ≤ h.brk := hi.seg.le
      have hb0 := hi.base_pos
      exact ⟨p, h', by rw [umallocLoop_more hfind hcore (by omega), hloop], hp⟩

/-- `umalloc` comes to an end and, unless nothing was asked for, has found a block. -/
def Terminates (h : Heap) (bytes : Nat) : Prop :=
  ∃ fuel p h', umalloc fuel h bytes = some (p, h') ∧ (bytes ≠ 0 → p ≠ 0)

/-- **`umalloc` always comes to an end** in a state reached by operations that
find the back links they follow right, if it does itself, as long as
`usys_sbrk` has the pages it takes. -/
theorem umalloc_terminates (base : Nat) (hpos : 0 < base) (hle : base ≤ heapLimit)
    (s : HeapState) (hrun : Reach (HeapInit base) HeapStep BackLinksOk s) (bytes : Nat)
    (hbytes : bytes ≤ 2 ^ 20) (hok : BackLinksOk s (.malloc bytes))
    (hroom : s.1.brk + (bytes / pageSize + 2) * pageSize ≤ heapLimit) :
    Terminates s.1 bytes := by
  obtain ⟨bs, hi, -⟩ := runInv_of_reach hpos hle hrun
  by_cases h0 : bytes = 0
  · exact ⟨0, 0, s.1, by simp [umalloc, h0], fun hne => absurd h0 hne⟩
  · have hal : alignedBytes bytes ≤ bytes + 3 := by
      simp only [alignedBytes]
      omega
    obtain ⟨p, h', hloop, hp⟩ := umallocLoop_terminates (k := bytes / pageSize + 2)
      (show 0 < bytes by omega) (by omega) hi (fun hf => hi.tailOk (hok hf)) hroom
      (by simp only [headerSize, pageSize]; omega) (Nat.lt_succ_self _)
    exact ⟨_, p, h', by rw [umalloc, if_neg h0]; exact hloop, fun _ => hp⟩

/-- The heaps that calls of `umorecore` make of `h`. -/
inductive Extended (h : Heap) : Heap → Prop
  | refl : Extended h h
  | more {g g' : Heap} {page : Nat} : Extended h g → umorecore g = some (page, g') → Extended h g'

/-- `head.prev` is a free block that is not on the list any more: the list has
the free block at 0xC0001000, with 48 bytes, and a used one. -/
structure Stuck (h : Heap) : Prop where
  head : h.headNext = 0xC0001000
  first : hdrAt h.mem 0xC0001000 = ⟨0xC0001040, 48, true⟩
  second : hdrAt h.mem 0xC0001040 = ⟨0, 4016, false⟩
  tail : h.headPrev = 0xC0001020
  tail_free : (hdrAt h.mem 0xC0001020).free = true
  brk : 0xC0002000 ≤ h.brk

/-- New pages go to that block. -/
theorem Stuck.more (hs : Stuck h) {page : Nat} (hcore : umorecore h = some (page, h')) :
    Stuck h' ∧ page ≠ 0 := by
  have hbrk := hs.brk
  have hroom : h.brk + pageSize ≤ heapLimit := by
    by_contra hno
    simp [umorecore, usysSbrk, hno] at hcore
  have hbelow : h.headPrev + headerSize ≤ h.brk := by
    rw [hs.tail]
    simp only [headerSize]
    omega
  have hlt : h.brk < 2 ^ 32 := by
    simp only [pageSize, heapLimit] at hroom
    omega
  have hfree : freeOf h.mem h.headPrev ≠ 0 := by
    rw [freeOf_ne_zero, hs.tail]
    exact hs.tail_free
  rw [umorecore_eq (by rw [hs.head]; norm_num) (by rw [hs.tail]; norm_num) hbelow hroom,
    Option.some.injEq, Prod.mk.injEq] at hcore
  obtain ⟨rfl, rfl⟩ := hcore
  have htail := hdrAt_linkedPage_tail hbelow hlt
  have hother : ∀ a, a + headerSize ≤ h.brk → HdrApart h.headPrev a →
      hdrAt (grown h).mem a = hdrAt h.mem a := by
    intro a ha hap
    apply hdrAt_congr
    intro x h1 h2
    exact grown_outside (by omega) (by
      simp only [HdrApart] at hap
      omega)
  have hgrown : grown h = { h with mem := mergedPage h, brk := h.brk + pageSize } := by
    rw [grown, if_pos hfree]
  refine ⟨⟨?_, ?_, ?_, ?_, ?_, ?_⟩, by omega⟩
  · rw [hgrown]
    exact hs.head
  · rw [hother _ (by simp only [headerSize]; omega) (Or.inr (by rw [hs.tail]; decide))]
    exact hs.first
  · rw [hother _ (by simp only [headerSize]; omega) (Or.inl (by rw [hs.tail]; decide))]
    exact hs.second
  · rw [hgrown]
    exact hs.tail
  · rw [hgrown]
    show (hdrAt (mergedPage h) 0xC0001020).free = true
    rw [mergedPage, ← hs.tail, hdrAt_setNext _ _ (by norm_num),
      hdrAt_setSize _ _ (Nat.mod_lt _ (by norm_num)), htail, hs.tail]
    exact hs.tail_free
  · rw [hgrown]
    show 0xC0002000 ≤ h.brk + pageSize
    omega

theorem Stuck.extended (hs : Stuck h) (he : Extended h h') : Stuck h' := by
  induction he with
  | refl => exact hs
  | more _ hcore ih => exact (ih.more hcore).1

/-- The search finds no room for 64 bytes. -/
theorem Stuck.find (hs : Stuck h) {r : Option Nat} (hfind : umallocFind fuel h 64 = some r) :
    r = none := by
  have hal : alignedBytes 64 = 64 := by decide
  have hrq : requiredBytes 64 = 84 := by decide
  have hs1 : sizeOf h.mem 0xC0001000 = 48 := by rw [sizeOf_eq, hs.first]
  have hn1 : nextOf h.mem 0xC0001000 = 0xC0001040 := by rw [nextOf_eq, hs.first]
  have hn2 : nextOf h.mem 0xC0001040 = 0 := by rw [nextOf_eq, hs.second]
  have hf2 : freeOf h.mem 0xC0001040 = 0 := by
    by_contra hne
    rw [← Ne, freeOf_ne_zero, hs.second] at hne
    exact Bool.noConfusion hne
  rw [umallocFind, hs.head, if_pos (by norm_num), hal, hrq] at hfind
  cases fuel with
  | zero => simp [umallocSearch] at hfind
  | succ fuel =>
    rw [umallocSearch, if_neg (by norm_num), hs1, if_neg (by norm_num), hn1] at hfind
    cases fuel with
    | zero => simp [umallocSearch] at hfind
    | succ fuel =>
      rw [umallocSearch, if_neg (by norm_num), hf2, if_neg (by norm_num), hn2] at hfind
      cases fuel with
      | zero => simp [umallocSearch] at hfind
      | succ fuel =>
        rw [umallocSearch, if_pos rfl] at hfind
        exact (Option.some.inj hfind).symm

/-- So `umalloc(64)` never returns. -/
theorem Stuck.loop (hs : Stuck h) : umallocLoop 64 fuel h = none := by
  induction fuel generalizing h with
  | zero => rfl
  | succ fuel ih =>
    cases hfind : umallocFind (fuel + 1) h 64 with
    | none =>
      rw [umallocLoop, hfind]
      rfl
    | some r =>
      rw [hs.find hfind] at hfind
      cases hcore : umorecore h with
      | none =>
        rw [umallocLoop, hfind]
        simp [hcore]
      | some r =>
        obtain ⟨page, h1⟩ := r
        obtain ⟨hs1, hpage⟩ := hs.more hcore
        rw [umallocLoop_more hfind hcore hpage, ih hs1]

end

/-- Four allocations and three frees. The third allocation splits the last
block, so `head.prev` is then its front part; when that is freed it goes
to the free block before it, and `head.prev` still names it. -/
theorem umalloc_stuck :
    ∃ s, Reach (HeapInit 0xC0001000) HeapStep (fun _ _ => True) s ∧ Stuck s.1 := by
  have hev : (runAll (fun _ _ => true) exampleHeap [.malloc 16, .malloc 16, .free 0xC0001030,
      .malloc 16, .malloc 4016, .free 0xC0001010, .free 0xC0001030]).map (fun s =>
        ((s.1.headNext, s.1.headPrev, s.1.brk), hdrAt s.1.mem 0xC0001000, hdrAt s.1.mem 0xC0001040,
          (hdrAt s.1.mem 0xC0001020).free)) =
      some ((0xC0001000, 0xC0001020, 0xC0002000), ⟨0xC0001040, 48, true⟩, ⟨0, 4016, false⟩, true) := by
    decide +kernel
  obtain ⟨s, hex, hs⟩ := Option.map_eq_some_iff.mp hev
  simp only [Prod.mk.injEq] at hs
  obtain ⟨⟨h1, h2, h3⟩, h4, h5, h6⟩ := hs
  exact ⟨s, runAll_reach (P := fun _ _ => True) (fun _ _ _ => trivial) (s := exampleHeap)
    (.init ⟨_, rfl⟩) hex (by simp), h1, h4, h5, h2, h6, by omega⟩

/-- In that state `umalloc(64)` asks for page after page and never finds a block. -/
theorem umalloc_runs_forever :
    ¬ ∀ s, Reach (HeapInit 0xC0001000) HeapStep (fun _ _ => True) s → ∀ bytes ≤ 2 ^ 20,
      Terminates s.1 bytes ∨
        ∃ h, Extended s.1 h ∧ ∃ fuel curr, umallocFind fuel h bytes = some (some curr) := by
  intro hall
  obtain ⟨s, hrun, hs⟩ := umalloc_stuck
  rcases hall s hrun 64 (by norm_num) with ⟨fuel, p, h', hres, -⟩ | ⟨h, hext, fuel, curr, hfind⟩
  · rw [umalloc, if_neg (by norm_num), hs.loop] at hres
    cases hres
  · cases (hs.extended hext).find hfind

/-- On a heap of three pages, the second of which is free, a request for 5000 bytes
finds no block and has to grow the list. It comes to an end. -/
theorem umalloc_terminates_pages : ∃ s, Reach (HeapInit 0xC0001000) HeapStep BackLinksOk s ∧
    s.2 = [(0xC0003010, 4080), (0xC0001010, 4080)] ∧ umallocFind 4 s.1 5000 = some none ∧
    Terminates s.1 5000 := by
  obtain ⟨s, hrun, hlive, -, hbrk, hnone, hright, -⟩ := examplePages
  have hreach := backLinksOk_of_noSplit (by norm_num) (by decide) hrun
  have hterm := umalloc_terminates 0xC0001000 (by norm_num) (by decide) s hreach 5000 (by norm_num)
    (backLinksOk_of_right s _ hright) (by rw [hbrk]; decide)
  exact ⟨s, hreach, hlive, hnone, hterm⟩

/-! ## §4 What `umalloc` hands out -/

section
variable {base bytes fuel p : Nat} {h h' g : Heap} {bs cs : List Block} {b c : Block}

/-- The memory at `p` is what was asked for: a used block of enough bytes, a
multiple of four, inside what was one free block of the heap or of the heap
with new pages, and the blocks that were in use are as before. -/
structure EnoughMemory (h h' : Heap) (bytes p : Nat) : Prop where
  used : freeOf h'.mem (p - headerSize) = 0
  aligned : sizeOf h'.mem (p - headerSize) % 4 = 0
  enough : bytes ≤ sizeOf h'.mem (p - headerSize)
  inside : ∃ g, Extended h g ∧ ∃ a, OnList g a ∧ freeOf g.mem a ≠ 0 ∧ a + headerSize ≤ p ∧
    p + sizeOf h'.mem (p - headerSize) ≤ a + headerSize + sizeOf g.mem a
  kept : ∀ a, OnList h a → freeOf h.mem a = 0 →
    OnList h' a ∧ freeOf h'.mem a = 0 ∧ sizeOf h'.mem a = sizeOf h.mem a ∧
      ∀ x, a + headerSize ≤ x → x < a + headerSize + sizeOf h.mem a → h'.mem x = h.mem x

/-- The used blocks of `bs` are blocks of `cs` too, with the same data. -/
structure UsedKept (h g : Heap) (bs cs : List Block) : Prop where
  mem : ∀ b ∈ bs, b.free = false → b ∈ cs
  data : ∀ b ∈ bs, b.free = false → ∀ x, b.addr + headerSize ≤ x →
    x < b.addr + headerSize + b.size → g.mem x = h.mem x

theorem UsedKept.trans {f : Heap} {ds : List Block} (h1 : UsedKept h g bs cs)
    (h2 : UsedKept g f cs ds) : UsedKept h f bs ds where
  mem := fun b hb hf => h2.mem b (h1.mem b hb hf) hf
  data := fun b hb hf x hx1 hx2 => by
    rw [h2.data b (h1.mem b hb hf) hf x hx1 hx2, h1.data b hb hf x hx1 hx2]

theorem MoreCore.usedKept (hm : MoreCore base h h' bs cs) (hi : HeapInv base h bs) :
    UsedKept h h' bs cs where
  mem := hm.used
  data := by
    intro b hb hf x hx1 hx2
    refine hm.frame x ?_ ?_
    · have := (hi.seg.mem_bounds hb).2
      omega
    · intro c hc
      rcases hi.seg.apart hb hc with rfl | h1 | h1 <;> omega

theorem umorecore_room {page : Nat} (hcore : umorecore h = some (page, h')) :
    h.brk + pageSize ≤ heapLimit := by
  by_contra hno
  simp [umorecore, usysSbrk, hno] at hcore

/-- Every heap that new pages make of a well-formed one is well formed. -/
theorem TiledInv.extended (ht : TiledInv base h bs) (he : Extended h g) :
    ∃ cs, TiledInv base g cs := by
  induction he with
  | refl => exact ⟨bs, ht⟩
  | more _ hcore ih =>
    obtain ⟨cs, hcs⟩ := ih
    obtain ⟨-, ds, hi, htail, hprev, -⟩ := umorecore_spec hcs.heap hcs.tail hcore
    exact ⟨ds, hi, hprev hcs.prev, htail⟩

theorem Extended.head {page : Nat} (he : Extended h' g) (hcore : umorecore h = some (page, h')) :
    Extended h g := by
  induction he with
  | refl => exact .more .refl hcore
  | more _ hcore' ih => exact .more ih hcore'

/-- The loop ends by taking a free block that fits, of the heap with new pages. -/
theorem umallocLoop_take (hi : HeapInv base h bs) (ht : TailOk h bs)
    (hres : umallocLoop bytes fuel h = some (p, h')) :
    ∃ g cs c, Extended h g ∧ HeapInv base g cs ∧ UsedKept h g bs cs ∧ c ∈ cs ∧ c.free = true ∧
      (c.size = alignedBytes bytes ∨ requiredBytes bytes ≤ c.size) ∧
      umallocTake g c.addr (alignedBytes bytes) = (p, h') := by
  induction fuel generalizing h bs with
  | zero => simp [umallocLoop] at hres
  | succ fuel ih =>
    cases hfind : umallocFind (fuel + 1) h bytes with
    | none =>
      rw [umallocLoop, hfind] at hres
      cases hres
    | some r =>
      cases r with
      | some curr =>
        rw [umallocLoop_found hfind, Option.some.injEq] at hres
        have hne : h.headNext ≠ 0 := by
          intro h0
          rw [umallocFind, if_neg (by simpa using h0)] at hfind
          cases hfind
        rw [umallocFind, if_pos hne, hi.headNext_eq] at hfind
        obtain ⟨c, hc, rfl, hfree, hfit⟩ := umallocSearch_spec [] hi hfind curr rfl
        have hkept : UsedKept h h bs bs := ⟨fun b hb _ => hb, fun _ _ _ _ _ _ => rfl⟩
        exact ⟨h, bs, c, .refl, hi, hkept, hc, hfree, hfit, hres⟩
      | none =>
        cases hcore : umorecore h with
        | none =>
          rw [umallocLoop, hfind] at hres
          simp [hcore] at hres
        | some r =>
          obtain ⟨page, h1⟩ := r
          obtain ⟨h2, bs1, hcore', hmore⟩ := hi.moreCore ht (umorecore_room hcore)
          have heq := hcore.symm.trans hcore'
          rw [Option.some.injEq, Prod.mk.injEq] at heq
          obtain ⟨rfl, rfl⟩ := heq
          have hpage : h.brk ≠ 0 := by
            have := hi.base_pos
            have := hi.seg.le
            omega
          rw [umallocLoop_more hfind hcore hpage] at hres
          obtain ⟨g, cs, c, he, hg, hk, hrest⟩ := ih hmore.inv hmore.tail hres
          exact ⟨g, cs, c, he.head hcore, hg, (hmore.usedKept hi).trans hk, hrest⟩

/-- The size of the block handed out is the one asked for, rounded up, in 32 bits. -/
theorem sizeOf_umallocTake {al : Nat} (g : Heap) (a : Nat) (hal : al < 2 ^ 32) :
    sizeOf (umallocTake g a al).2.mem a = al := by
  unfold umallocTake
  split
  · rename_i heq
    show sizeOf (User.setFree g.mem a 0) a = al
    rw [sizeOf_eq, hdrAt_setFree _ _ (by norm_num), ← sizeOf_eq, heq]
  · simp only
    rw [sizeOf_eq, hdrAt_setNext _ _ (Nat.mod_lt _ (by norm_num)), hdrAt_setSize _ _ hal]

/-- Taking a block writes nothing outside it. -/
theorem umallocTake_outside {al x : Nat} (hi : HeapInv base g cs) (hc : c ∈ cs)
    (hfit : c.size = al ∨ al + headerSize < c.size)
    (hx : x < c.addr ∨ c.addr + headerSize + c.size ≤ x) :
    (umallocTake g c.addr al).2.mem x = g.mem x := by
  have hsz : sizeOf g.mem c.addr = c.size := (hi.seg.size_free hc).1
  have hbnd := (hi.mem_bounds hc).2
  have hlim : heapLimit < 2 ^ 32 := by decide
  rcases hfit with heq | hlt
  · have htake : umallocTake g c.addr al =
        (c.addr + headerSize, { g with mem := User.setFree g.mem c.addr 0 }) := by
      rw [umallocTake, if_pos (by omega)]
    rw [htake]
    simp only [headerSize] at hx
    exact store32_outside _ _ _ (by omega)
  · have hap : HdrApart c.addr (c.addr + headerSize + al) := Or.inl (by omega)
    rw [umallocTake_split hap (by omega) (by omega)]
    simp only [headerSize] at hx hlt
    show splitMem _ _ _ _ _ _ x = g.mem x
    simp only [splitMem, setNext, setSize, setPrev, User.setFree, headerSize]
    rw [store32_outside _ _ _ (by omega), store32_outside _ _ _ (by omega),
      store32_outside _ _ _ (by omega), store32_outside _ _ _ (by omega),
      store32_outside _ _ _ (by omega), store32_outside _ _ _ (by omega),
      store32_outside _ _ _ (by omega)]

theorem HeapTiled.inv (ht : HeapTiled base h) (hpos : 0 < base) (hbrk : h.brk ≤ heapLimit) :
    ∃ bs, TiledInv base h bs := by
  obtain ⟨bs, hseg, hhead, hprev, htail⟩ := ht
  refine ⟨bs, ⟨hseg, hpos, hbrk, ?_⟩, hprev, htail⟩
  rw [hhead]
  cases bs with
  | nil => rfl
  | cons b bs =>
    rw [if_neg (by simp)]
    exact hseg.1

/-- Up to 2^32 - 24 bytes the block handed out is as large as asked for. -/
theorem HeapInv.enough (hi : HeapInv base h bs) (hg : HeapInv base g cs)
    (hext : Extended h g) (hk : UsedKept h g bs cs) (hc : c ∈ cs) (hfree : c.free = true)
    (hfit : c.size = alignedBytes bytes ∨ requiredBytes bytes ≤ c.size)
    (hpos : 0 < bytes) (hle : bytes ≤ 2 ^ 32 - 24)
    (htake : umallocTake g c.addr (alignedBytes bytes) = (p, h')) : EnoughMemory h h' bytes p := by
  obtain ⟨hal, hrq⟩ := requiredBytes_eq hpos hle
  have hal4 : alignedBytes bytes % 4 = 0 := by simp only [alignedBytes]; omega
  have hal32 : alignedBytes bytes < 2 ^ 32 := Nat.mod_lt _ (by norm_num)
  have hfit' : c.size = alignedBytes bytes ∨ alignedBytes bytes + headerSize < c.size := by omega
  have hsize := sizeOf_umallocTake g c.addr hal32
  obtain ⟨hp, bs', hi', hnew, hused⟩ := umallocTake_spec hg hc hfree _ hfit'
  have hout : ∀ x, x < c.addr ∨ c.addr + headerSize + c.size ≤ x → h'.mem x = g.mem x := by
    intro x hx
    have := umallocTake_outside hg hc hfit' hx
    rwa [htake] at this
  rw [htake] at hp hi' hsize
  have hhdr : p - headerSize = c.addr := by
    rw [show p = c.addr + headerSize from hp, Nat.add_sub_cancel]
  have hcsize : sizeOf g.mem c.addr = c.size := (hg.seg.size_free hc).1
  refine ⟨?_, ?_, ?_, ?_, ?_⟩
  · by_contra hne
    rw [hhdr, ← Ne, freeOf_ne_zero, (hi'.seg.size_free hnew).2] at hne
    cases hne
  · rw [hhdr, hsize, hal4]
  · rw [hhdr, hsize]
    exact hal
  · refine ⟨g, hext, c.addr, hg.onList hc, ?_, le_of_eq hp.symm, ?_⟩
    · rw [freeOf_ne_zero, (hg.seg.size_free hc).2, hfree]
    · rw [hhdr, hsize, hcsize, show p = c.addr + headerSize from hp]
      omega
  · intro a ha hf
    obtain ⟨b, hb, rfl⟩ := hi.mem_of_onList ha
    have hbsize : sizeOf h.mem b.addr = b.size := (hi.seg.size_free hb).1
    have hbf : b.free = false := by
      rw [← (hi.seg.size_free hb).2]
      by_contra hne
      rw [Bool.not_eq_false, ← freeOf_ne_zero] at hne
      exact hne hf
    have hbc := hk.mem b hb hbf
    have hb' := hi'.seg.size_free (hused b hbc hbf)
    refine ⟨hi'.onList (hused b hbc hbf), ?_, ?_, ?_⟩
    · by_contra hne
      rw [← Ne, freeOf_ne_zero, hb'.2, hbf] at hne
      cases hne
    · rw [hbsize]
      exact hb'.1
    · intro x hx1 hx2
      rw [hbsize] at hx2
      rw [hout x ?_, hk.data b hb hbf x hx1 hx2]
      rcases hg.seg.apart hbc hc with rfl | h1 | h1
      · rw [hfree] at hbf
        cases hbf
      · omega
      · omega

/-- **`umalloc` returns enough memory** exactly for the requests whose sizes do
not wrap around in its arithmetic. -/
theorem umalloc_enough_iff (base : Nat) (h : Heap) (htiled : HeapTiled base h) (hbase : 0 < base)
    (hbrk : h.brk ≤ heapLimit) (bytes : Nat) (hpos : 0 < bytes) (h32 : bytes < 2 ^ 32)
    (fuel p : Nat) (h' : Heap) (hres : umalloc fuel h bytes = some (p, h')) :
    EnoughMemory h h' bytes p ↔ bytes ≤ 2 ^ 32 - 24 := by
  obtain ⟨bs, ht⟩ := htiled.inv hbase hbrk
  rw [umalloc, if_neg (by omega)] at hres
  obtain ⟨g, cs, c, hext, hg, hk, hc, hfree, hfit, htake⟩ := umallocLoop_take ht.heap ht.tail hres
  constructor
  · intro henough
    have hal32 : alignedBytes bytes < 2 ^ 32 := Nat.mod_lt _ (by norm_num)
    have hsize := sizeOf_umallocTake g c.addr hal32
    have hfst := umallocTake_fst g c.addr (alignedBytes bytes)
    rw [htake] at hsize hfst
    have hhdr : p - headerSize = c.addr := by
      rw [show p = c.addr + headerSize from hfst, Nat.add_sub_cancel]
    have hsz : sizeOf h'.mem (p - headerSize) = alignedBytes bytes := by rw [hhdr, hsize]
    -- a block as large as that would end behind the heap
    obtain ⟨f, hextf, a, hon, -, -, hin⟩ := henough.inside
    obtain ⟨ds, hds⟩ := ht.extended hextf
    obtain ⟨e, he, rfl⟩ := hds.heap.mem_of_onList hon
    have hebnd := (hds.heap.mem_bounds he).2
    have hesz : sizeOf f.mem e.addr = e.size := (hds.heap.seg.size_free he).1
    have hbig := henough.enough
    rw [hsz] at hin hbig
    rw [hesz] at hin
    simp only [heapLimit, alignedBytes] at hebnd hin hbig
    omega
  · intro hle
    exact ht.heap.enough hg hext hk hc hfree hfit hpos hle htake

/-- A request for 2^32 - 1 bytes is rounded up to none. -/
theorem umalloc_not_enough :
    ∃ p h', umalloc 4 exampleHeap.1 0xFFFFFFFF = some (p, h') ∧ p ≠ 0 ∧
      HeapTiled 0xC0001000 exampleHeap.1 ∧ sizeOf h'.mem (p - headerSize) = 0 ∧
      ¬ EnoughMemory exampleHeap.1 h' 0xFFFFFFFF p := by
  have hev : (umalloc 4 exampleHeap.1 0xFFFFFFFF).map (fun r =>
      (r.1, sizeOf r.2.mem (r.1 - headerSize))) = some (0xC0001010, 0) := by decide +kernel
  obtain ⟨⟨p, h'⟩, hres, heq⟩ := Option.map_eq_some_iff.mp hev
  simp only [Prod.mk.injEq] at heq
  obtain ⟨rfl, hsize⟩ := heq
  refine ⟨_, h', hres, by norm_num, ⟨[], rfl, rfl, trivial, by simp [TailOk]⟩, hsize, ?_⟩
  intro henough
  have := henough.enough
  omega

/-- Between two blocks in use, a request for 100 bytes gets them. -/
theorem umalloc_enough_pages : ∃ (s : HeapState) (h' : Heap),
    s.2 = [(0xC0003010, 4080), (0xC0001010, 4080)] ∧
    umalloc 4 s.1 100 = some (0xC0002010, h') ∧ EnoughMemory s.1 h' 100 0xC0002010 := by
  obtain ⟨s, hrun, hlive, -, hbrk, -, -, hmalloc⟩ := examplePages
  obtain ⟨bs, ht, -⟩ := runTiled_of_reach (by norm_num) (by decide) hrun
  obtain ⟨⟨p, h'⟩, hres, rfl⟩ := Option.map_eq_some_iff.mp hmalloc
  have hiff := umalloc_enough_iff 0xC0001000 s.1 ht.tiled (by norm_num) (by rw [hbrk]; decide) 100
    (by norm_num) (by norm_num) 4 _ h' hres
  exact ⟨s, h', hlive, hres, hiff.mpr (by norm_num)⟩

end

end Risky321.User
