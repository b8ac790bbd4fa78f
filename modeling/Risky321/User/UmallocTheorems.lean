/-
Risky321.User.UmallocTheorems — live blocks of the user heap.

The code follows a `prev` link in two places: `umorecore` writes through
`head.prev`, and `ufree` merges into `hdr->prev` when that block is marked
free. `BackLinksOk` says that in these two places the link is right; along
such runs live blocks never overlap, and `umalloc_blocks_overlap` is a run
where one link is not.
-/
import Risky321.Lib.Run
import Risky321.User.UmallocMerge

namespace Risky321.User

open Risky321.Lib

/-! ## §1 `umorecore` and `umalloc` -/

section
variable {base : Nat} {h : Heap} {bs xs ys zs : List Block} {b c d : Block}

/-- The memory after `umorecore` has written the header of a new page. -/
def newPage (m : Mem) (page : Nat) : Mem :=
  setNext (setSize (User.setFree (fill m page pageSize 0) page 1) page (pageSize - headerSize))
    page 0

theorem hdrAt_newPage (m : Mem) (a : Nat) :
    hdrAt (newPage m a) a = ⟨0, pageSize - headerSize, true⟩ := by
  rw [newPage, hdrAt_setNext _ _ (by norm_num), hdrAt_setSize _ _ (by decide),
    hdrAt_setFree _ _ (by norm_num)]
  rfl

/-- A header below the new page does not see that page being written. -/
theorem hdrAt_newPage_below (m : Mem) {a x : Nat} (hx : x + headerSize ≤ a) :
    hdrAt (newPage m a) x = hdrAt m x := by
  have hap : HdrApart a x := Or.inr hx
  rw [newPage, hdrAt_setNext_apart _ _ hap, hdrAt_setSize_apart _ _ hap,
    hdrAt_setFree_apart _ _ hap]
  apply hdrAt_congr
  intro y _ hy
  exact fill_outside m a pageSize 0 (by omega)

theorem prevOf_newPage_below (m : Mem) {a x : Nat} (hx : x + headerSize ≤ a) :
    prevOf (newPage m a) x = prevOf m x := by
  have hap : a = x ∨ HdrApart a x := Or.inr (Or.inr hx)
  rw [newPage, setNext, prevOf_store32 _ _ (by decide) (by decide) hap, setSize,
    prevOf_store32 _ _ (by decide) (by decide) hap, User.setFree,
    prevOf_store32 _ _ (by decide) (by decide) hap]
  simp only [headerSize] at hx
  exact load32_fill_disjoint m 0 (by omega)

/-- The new page linked in behind the block `b`. -/
theorem HeapInv.link_page (hi : HeapInv base h (bs ++ [b])) (hroom : h.brk + pageSize ≤ heapLimit)
    {h1 : Heap} (hm : h1.mem = setPrev (setNext (newPage h.mem h.brk) b.addr h.brk) h.brk b.addr)
    (hn : h1.headNext = h.headNext) (hbrk : h1.brk = h.brk + pageSize) :
    HeapInv base h1 (bs ++ [b] ++ [⟨h.brk, pageSize - headerSize, true⟩]) := by
  have hbb := (hi.seg.mem_bounds (b := b) (by simp)).2
  have hap : HdrApart b.addr h.brk := Or.inl (by omega)
  have hlt : h.brk < 2 ^ 32 := by
    simp only [pageSize, heapLimit] at hroom
    omega
  obtain ⟨k, h1', h2⟩ := seg_append.mp hi.seg
  obtain ⟨hk, hbh, -⟩ := seg_singleton.mp h2
  -- the three parts of the memory: the older blocks, the old tail, the new page
  have hold : ∀ x ∈ bs, hdrAt h1.mem x.addr = hdrAt h.mem x.addr := by
    intro x hx
    have hxb := (h1'.mem_bounds hx).2
    have hxk := (hi.seg.mem_bounds (b := x) (by simp [hx])).2
    rw [hm, hdrAt_setPrev_apart _ _ (Or.inr (by omega)),
      hdrAt_setNext_apart _ _ (Or.inr (by omega)), hdrAt_newPage_below _ (by omega)]
  have htail : hdrAt h1.mem b.addr = ⟨h.brk, b.size, b.free⟩ := by
    rw [hm, hdrAt_setPrev_apart _ _ hap.symm, hdrAt_setNext _ _ hlt,
      hdrAt_newPage_below _ (by omega), hk, hbh]
  have hnew : hdrAt h1.mem h.brk = ⟨0, pageSize - headerSize, true⟩ := by
    rw [hm, hdrAt_setPrev, hdrAt_setNext_apart _ _ hap, hdrAt_newPage]
  refine ⟨?_, hi.base_pos, by rw [hbrk]; exact hroom, ?_⟩
  · refine seg_append.mpr ⟨h.brk, ?_, seg_singleton.mpr ⟨rfl, hnew, ?_⟩⟩
    · simpa using hi.seg.relink htail hold
    · rw [hbrk]
      simp [pageSize, headerSize]
  · rw [hn, hi.head]
    simp

/-- The heap of `umorecore` just before its call of `ufree`: the new page
is the last block, and the back link behind it is right. -/
theorem umorecore_link (hi : HeapInv base h bs) (ht : TailOk h bs) {page : Nat} {h' : Heap}
    (hres : umorecore h = some (page, h')) :
    page = h.brk ∧ ∃ h1, h' = ufree h1 (page + headerSize) ∧
      HeapInv base h1 (bs ++ [⟨page, pageSize - headerSize, true⟩]) ∧
      TailOk h1 (bs ++ [⟨page, pageSize - headerSize, true⟩]) ∧
      (PrevLinks h.mem 0 bs →
        PrevLinks h1.mem 0 (bs ++ [⟨page, pageSize - headerSize, true⟩])) ∧ FreeOk h1 page := by
  simp only [umorecore, usysSbrk] at hres
  by_cases hroom : h.brk + pageSize ≤ heapLimit
  · rw [if_pos hroom] at hres
    simp only [Option.bind_eq_bind, Option.bind_some, Option.some.injEq, Prod.mk.injEq] at hres
    obtain ⟨rfl, rfl⟩ := hres
    refine ⟨rfl, _, rfl, ?_⟩
    have hbase : base ≤ h.brk := hi.seg.le
    have hpos := hi.base_pos
    rcases List.eq_nil_or_concat' bs with rfl | ⟨bs, b, rfl⟩
    · have h0 : h.headNext = 0 := hi.head
      have hbrk : base = h.brk := hi.seg
      rw [if_neg (by simpa using h0)]
      refine ⟨⟨?_, hpos, hroom, by simp [hbrk]⟩, ?_, ?_, Or.inl ?_⟩
      · refine seg_singleton.mpr ⟨hbrk.symm, ?_, by simp [pageSize, headerSize, hbrk]⟩
        rw [hbrk]
        exact (hdrAt_setPrev _ _).trans (hdrAt_newPage _ _)
      · intro x hx
        obtain rfl := by simpa using hx
        rfl
      · exact fun _ => ⟨prevOf_setPrev _ (by norm_num), trivial⟩
      · exact load32_store32_of_lt (by norm_num)
    · have hne : h.headNext ≠ 0 := by
        rw [hi.head]
        simp
        omega
      have hlast : h.headPrev = b.addr := ht b (by simp)
      have hbb := (hi.seg.mem_bounds (b := b) (by simp)).2
      have hblt : b.addr < 2 ^ 32 := by
        simp only [pageSize, heapLimit] at hroom
        omega
      rw [if_pos hne, hlast]
      have hprev : prevOf (setPrev (setNext (newPage h.mem h.brk) b.addr h.brk) h.brk b.addr) h.brk
          = b.addr := load32_store32_of_lt hblt
      have hinv : HeapInv base ⟨setPrev (setNext (newPage h.mem h.brk) b.addr h.brk) h.brk b.addr,
          h.headNext, h.brk, h.brk + pageSize⟩
          (bs ++ [b] ++ [⟨h.brk, pageSize - headerSize, true⟩]) :=
        hi.link_page hroom rfl rfl rfl
      have hsplit : bs ++ [b] ++ [⟨h.brk, pageSize - headerSize, true⟩]
          = bs ++ b :: [⟨h.brk, pageSize - headerSize, true⟩] := by simp
      refine ⟨hinv, ?_, ?_, Or.inr ?_⟩
      · intro x hx
        obtain rfl := by simpa using hx
        rfl
      · intro hp
        refine prevLinks_append.mpr ⟨hp.congr ?_, ?_, trivial⟩
        · intro x hx
          have hxb := (hi.seg.mem_bounds hx).2
          have hsame := hi.same_or_apart (b := b) (by simp) hx
          rw [prevOf_setPrev_apart _ _ (Or.inr (by omega)), setNext,
            prevOf_store32 _ _ (by decide) (by decide) hsame]
          exact prevOf_newPage_below h.mem (by omega)
        · rw [lastAddr_append]
          exact hprev
      · show OnList _ (prevOf (setPrev (setNext (newPage h.mem h.brk) b.addr h.brk) h.brk b.addr)
          h.brk) ∧ prevOf (setPrev (setNext (newPage h.mem h.brk) b.addr h.brk) h.brk b.addr) h.brk
          ≠ h.brk ∧ (_ ∨ nextOf _ (prevOf (setPrev (setNext (newPage h.mem h.brk) b.addr h.brk)
          h.brk b.addr) h.brk) = h.brk)
        rw [hprev]
        refine ⟨hinv.onList (by simp), ?_, Or.inr (hsplit ▸ hinv).next_split⟩
        simp only [headerSize] at hbb
        omega
  · rw [if_neg hroom] at hres
    simp at hres

/-- **`umorecore` keeps the heap** and leaves `head.prev` at its last block. -/
theorem umorecore_spec (hi : HeapInv base h bs) (ht : TailOk h bs) {page : Nat} {h' : Heap}
    (hres : umorecore h = some (page, h')) :
    page ≠ 0 ∧ ∃ bs', HeapInv base h' bs' ∧ TailOk h' bs' ∧
      (PrevLinks h.mem 0 bs → PrevLinks h'.mem 0 bs') ∧
      ∀ x ∈ bs, x.free = false → x ∈ bs' := by
  obtain ⟨hpage, h1, hh1, hi1, ht1, hpl1, hok⟩ := umorecore_link hi ht hres
  have hpos := hi.base_pos
  have hbase : base ≤ h.brk := hi.seg.le
  obtain ⟨bs', hi', htail, hpl, hused⟩ :=
    ufree_spec hi1 (List.mem_append_right _ (List.mem_singleton_self _)) hok
  rw [hh1]
  refine ⟨by omega, bs', hi', htail ht1, fun hp => hpl (hpl1 hp),
    fun x hx hxf => hused x (List.mem_append_left _ hx) ?_ hxf⟩
  rintro rfl
  exact Bool.noConfusion hxf

/-- What the list search of `umalloc` returns. -/
theorem umallocSearch_spec (xs : List Block) (hi : HeapInv base h (xs ++ ys)) {al rq fuel : Nat} {r : Option Nat}
    (hres : umallocSearch h.mem al rq fuel (firstAddr ys) = some r) :
    ∀ a ∈ r, ∃ b ∈ ys, b.addr = a ∧ b.free = true ∧ (b.size = al ∨ rq ≤ b.size) := by
  induction fuel generalizing xs ys with
  | zero => simp [umallocSearch] at hres
  | succ fuel ih =>
    cases ys with
    | nil =>
      intro a ha
      simp only [umallocSearch, firstAddr, if_true, Option.some.injEq] at hres
      simp [← hres] at ha
    | cons b ys =>
      have hb : b ∈ xs ++ b :: ys := by simp
      obtain ⟨hsz, hfr⟩ := hi.seg.size_free hb
      simp only [umallocSearch, firstAddr, if_neg (hi.addr_ne_zero hb), sizeOf_eq, freeOf_ne_zero,
        hsz, hfr] at hres
      split at hres
      · rename_i hfit
        intro a ha
        obtain rfl := Option.some.inj hres
        obtain rfl := by simpa using ha
        exact ⟨b, by simp, rfl, hfit⟩
      · have hi' : HeapInv base h ((xs ++ [b]) ++ ys) := by simpa using hi
        rw [hi.next_split] at hres
        intro a ha
        obtain ⟨c, hc, hrest⟩ := ih _ hi' hres a ha
        exact ⟨c, List.mem_cons_of_mem _ hc, hrest⟩

/-- The memory after `umalloc` has split the block at `a`: the new header
is at `new`, with `rest` bytes behind it and the old link `nx`. -/
def splitMem (m : Mem) (a new al rest nx : Nat) : Mem :=
  setNext (setSize (setNext (setPrev (setSize (User.setFree (User.setFree m a 0) new 1) new rest)
    new a) new nx) a al) a new

section
variable (m : Mem) {a new al rest nx x : Nat}

theorem hdrAt_splitMem_front (hap : HdrApart a new) (hnew : new < 2 ^ 32) (hal : al < 2 ^ 32) :
    hdrAt (splitMem m a new al rest nx) a = ⟨new, al, false⟩ := by
  rw [splitMem, hdrAt_setNext _ _ hnew, hdrAt_setSize _ _ hal, hdrAt_setNext_apart _ _ hap.symm,
    hdrAt_setPrev_apart _ _ hap.symm, hdrAt_setSize_apart _ _ hap.symm,
    hdrAt_setFree_apart _ _ hap.symm, hdrAt_setFree _ _ (by norm_num)]
  rfl

theorem hdrAt_splitMem_back (hap : HdrApart a new) (hrest : rest < 2 ^ 32) (hnx : nx < 2 ^ 32) :
    hdrAt (splitMem m a new al rest nx) new = ⟨nx, rest, true⟩ := by
  rw [splitMem, hdrAt_setNext_apart _ _ hap, hdrAt_setSize_apart _ _ hap, hdrAt_setNext _ _ hnx,
    hdrAt_setPrev, hdrAt_setSize _ _ hrest, hdrAt_setFree _ _ (by norm_num)]
  rfl

theorem hdrAt_splitMem_apart (hx : HdrApart a x) (hx' : HdrApart new x) :
    hdrAt (splitMem m a new al rest nx) x = hdrAt m x := by
  rw [splitMem, hdrAt_setNext_apart _ _ hx, hdrAt_setSize_apart _ _ hx, hdrAt_setNext_apart _ _ hx',
    hdrAt_setPrev_apart _ _ hx', hdrAt_setSize_apart _ _ hx', hdrAt_setFree_apart _ _ hx',
    hdrAt_setFree_apart _ _ hx]

/-- The split branch of `umalloc`, its field reads done. -/
theorem umallocTake_split {h : Heap} (hap : HdrApart a (a + headerSize + al))
    (hal : al + headerSize < sizeOf h.mem a) (hnew : a + headerSize + al < 2 ^ 32) :
    umallocTake h a al = (a + headerSize,
      { h with
        mem := splitMem h.mem a (a + headerSize + al) al (sizeOf h.mem a - al - headerSize)
          (nextOf h.mem a) }) := by
  have hlt : sizeOf h.mem a < 2 ^ 32 := load32_lt _ _
  have hmod : (a + headerSize + al) % 2 ^ 32 = a + headerSize + al := Nat.mod_eq_of_lt hnew
  have hsz : sizeOf (User.setFree (User.setFree h.mem a 0) (a + headerSize + al) 1) a
      = sizeOf h.mem a := by
    rw [sizeOf_eq, hdrAt_setFree_apart _ _ hap.symm, hdrAt_setFree _ _ (by norm_num), sizeOf_eq]
  have hsub : sub32 (sub32 (sizeOf h.mem a) al) headerSize = sizeOf h.mem a - al - headerSize := by
    rw [sub32_of_le (a := sizeOf h.mem a) (by omega) hlt, sub32_of_le (by omega) (by omega)]
  have hnx : nextOf (setPrev (setSize (User.setFree (User.setFree h.mem a 0)
      (a + headerSize + al) 1) (a + headerSize + al) (sizeOf h.mem a - al - headerSize))
      (a + headerSize + al) a) a = nextOf h.mem a := by
    rw [nextOf_eq, hdrAt_setPrev_apart _ _ hap.symm, hdrAt_setSize_apart _ _ hap.symm,
      hdrAt_setFree_apart _ _ hap.symm, hdrAt_setFree _ _ (by norm_num), nextOf_eq]
  have hne : sizeOf h.mem a ≠ al := by omega
  simp only [umallocTake, if_neg hne, hmod, hsz, hsub, hnx, splitMem]

end

/-- Splitting a block puts two in its place, the front one used. -/
theorem HeapInv.split_block (hi : HeapInv base h (xs ++ b :: ys)) (al : Nat)
    (hal : al + headerSize < b.size) :
    HeapInv base (umallocTake h b.addr al).2
        (xs ++ ⟨b.addr, al, false⟩ :: ⟨b.addr + headerSize + al, b.size - al - headerSize, true⟩
          :: ys) := by
  have hb : b ∈ xs ++ b :: ys := by simp
  have hbnd := (hi.mem_bounds hb).2
  have hsz : sizeOf h.mem b.addr = b.size := (hi.seg.size_free hb).1
  obtain ⟨k, h1, h2⟩ := seg_append.mp hi.seg
  obtain ⟨rfl, hbh, h3⟩ := h2
  have hap : HdrApart b.addr (b.addr + headerSize + al) := Or.inl (by omega)
  have hlim : heapLimit < 2 ^ 32 := by decide
  rw [umallocTake_split hap (by omega) (by omega), hsz]
  refine ⟨seg_append.mpr ⟨b.addr, ?_, rfl, ?_, rfl, ?_, ?_⟩, hi.base_pos, hi.brk_le, ?_⟩
  · refine Seg.congr (by simpa using h1) fun x hx => ?_
    have := (h1.mem_bounds hx).2
    exact hdrAt_splitMem_apart _ (Or.inr (by omega)) (Or.inr (by omega))
  · simpa using hdrAt_splitMem_front h.mem hap (by omega) (by omega)
  · refine (hdrAt_splitMem_back h.mem hap (by omega) (nextOf_lt _ _)).trans ?_
    rw [nextOf_eq, hbh]
    simp only [Hdr.mk.injEq, and_true]
    split <;> omega
  · have hend : b.addr + headerSize + al + headerSize + (b.size - al - headerSize)
        = b.addr + headerSize + b.size := by omega
    show Seg _ _ (b.addr + headerSize + al + headerSize + (b.size - al - headerSize)) _ _ _
    rw [hend]
    refine h3.congr fun x hx => ?_
    have := (h3.mem_bounds hx).1
    exact hdrAt_splitMem_apart _ (Or.inl (by omega)) (Or.inl (by omega))
  · show h.headNext = _
    rw [hi.head]
    simp

/-- Handing out a free block that fits: a used block of the asked size is
on the list, and every block that was used still is. -/
theorem umallocTake_spec (hi : HeapInv base h bs) (hb : b ∈ bs) (hfree : b.free = true) (al : Nat)
    (hfit : b.size = al ∨ al + headerSize < b.size) :
    (umallocTake h b.addr al).1 = b.addr + headerSize ∧
      ∃ bs', HeapInv base (umallocTake h b.addr al).2 bs' ∧ ⟨b.addr, al, false⟩ ∈ bs' ∧
        ∀ x ∈ bs, x.free = false → x ∈ bs' := by
  obtain ⟨xs, ys, rfl⟩ := List.append_of_mem hb
  have hkeep : ∀ (zs : List Block), ∀ x ∈ xs ++ b :: ys, x.free = false →
      x ∈ xs ++ (zs ++ ys) := by
    intro zs x hx hxf
    rcases List.mem_append.mp hx with hx | hx
    · simp [hx]
    · rcases List.mem_cons.mp hx with rfl | hx
      · simp [hfree] at hxf
      · simp [hx]
  by_cases hexact : b.size = al
  · have hres : umallocTake h b.addr al
        = (b.addr + headerSize, { h with mem := User.setFree h.mem b.addr 0 }) := by
      have : sizeOf h.mem b.addr = al := by
        rw [sizeOf_eq, (hi.seg.size_free hb).1, hexact]
      simp only [umallocTake, if_pos this]
    rw [hres]
    have hset := hi.setFree (v := 0) (by norm_num)
    refine ⟨rfl, _, hset, ?_, ?_⟩
    · simp [hexact]
    · exact hkeep [{ b with free := (0 : Nat) != 0 }]
  · have hsplit := hi.split_block al (by omega)
    refine ⟨?_, _, hsplit, by simp, hkeep [_, _]⟩
    simp only [umallocTake]
    split <;> rfl

/-- The sizes `umalloc` computes with do not wrap for requests up to `2^32 - 24`. -/
theorem requiredBytes_eq {bytes : Nat} (hpos : 0 < bytes) (hle : bytes ≤ 2 ^ 32 - 24) :
    bytes ≤ alignedBytes bytes ∧
      requiredBytes bytes = alignedBytes bytes + headerSize + 4 := by
  simp only [requiredBytes, alignedBytes, headerSize]
  omega

/-- **`umalloc` keeps the heap.** If it returns, it returns the data of a
used block that is large enough and was no used block before, and every
used block is still one. -/
theorem umallocLoop_spec {bytes : Nat} (hpos : 0 < bytes) (hle : bytes ≤ 2 ^ 32 - 24)
    (hi : HeapInv base h bs) {fuel p : Nat} {h' : Heap}
    (hres : umallocLoop bytes fuel h = some (p, h'))
    (htail : (∃ f, umallocFind f h bytes = some none) → TailOk h bs) :
    ∃ bs' b, HeapInv base h' bs' ∧ b ∈ bs' ∧ b.addr + headerSize = p ∧ b.free = false ∧
      bytes ≤ b.size ∧ (∀ x ∈ bs, x.free = false → x ∈ bs') ∧
      ∀ x ∈ bs, x.free = false → x.addr ≠ b.addr := by
  obtain ⟨hal, hrq⟩ := requiredBytes_eq hpos hle
  induction fuel generalizing h bs with
  | zero => simp [umallocLoop] at hres
  | succ fuel ih =>
    rw [umallocLoop] at hres
    simp only [Option.bind_eq_bind, Option.bind_eq_some_iff] at hres
    obtain ⟨r, hfind, hres⟩ := hres
    cases r with
    | some curr =>
      simp only [Option.some.injEq] at hres
      -- the search found a block; it can only have come from the list
      have hsearch : ∃ b ∈ bs, b.addr = curr ∧ b.free = true ∧
          (b.size = alignedBytes bytes ∨ requiredBytes bytes ≤ b.size) := by
        rw [umallocFind] at hfind
        split at hfind
        · rename_i hne
          have hfirst : h.headNext = firstAddr bs := by
            cases bs with
            | nil => exact hi.head
            | cons c cs => rw [hi.head, firstAddr, hi.seg.1]; simp
          rw [hfirst] at hfind
          exact umallocSearch_spec [] hi hfind curr rfl
        · simp at hfind
      obtain ⟨b, hb, rfl, hfree, hfit⟩ := hsearch
      obtain ⟨hp, bs', hi', hmem, hused⟩ :=
        umallocTake_spec hi hb hfree (alignedBytes bytes) (by omega)
      rw [hres] at hp hi'
      refine ⟨bs', _, hi', hmem, hp.symm, rfl, hal, hused, fun x hx hxf hxa => ?_⟩
      rw [hi.eq_of_addr hx hb hxa, hfree] at hxf
      exact Bool.noConfusion hxf
    | none =>
      simp only [Option.bind_eq_some_iff] at hres
      obtain ⟨⟨page, h1⟩, hcore, hres⟩ := hres
      obtain ⟨hne, bs1, hi1, ht1, -, hused1⟩ := umorecore_spec hi (htail ⟨_, hfind⟩) hcore
      simp only [if_neg hne] at hres
      obtain ⟨bs', b, hi', hb, hp, hf, hsz, hused, hnew⟩ := ih hi1 hres (fun _ => ht1)
      exact ⟨bs', b, hi', hb, hp, hf, hsz, fun x hx hxf => hused x (hused1 x hx hxf) hxf,
        fun x hx hxf => hnew x (hused1 x hx hxf) hxf⟩

end

/-! ## §2 Runs -/

/-- What a program does with its heap: allocate, free a live allocation, or
store a byte into one. -/
inductive HeapOp where
  | malloc (bytes : Nat)
  | free (chunk : Nat)
  | write (a : Nat) (c : UInt8)
  deriving DecidableEq, Repr

/-- A heap and the allocations that are live on it. -/
abbrev HeapState : Type := Heap × Live

/-- One operation that returns. -/
def HeapStep : HeapState → HeapOp → HeapState → Prop
  | (h, live), .malloc bytes, (h', live') =>
      bytes ≤ 2 ^ 32 - 24 ∧ ∃ fuel p, umalloc fuel h bytes = some (p, h') ∧
        live' = if p = 0 then live else (p, bytes) :: live
  | (h, live), .free chunk, (h', live') =>
      ∃ n, (chunk, n) ∈ live ∧ h' = ufree h chunk ∧ live' = live.erase (chunk, n)
  | (h, live), .write a c, (h', live') =>
      (∃ p n, (p, n) ∈ live ∧ p ≤ a ∧ a < p + n) ∧
        h' = { h with mem := Function.update h.mem a c } ∧ live' = live

/-- The empty heap, whose first page will be at `base`. -/
def HeapInit (base : Nat) (s : HeapState) : Prop := ∃ m, s = (Heap.empty m base, [])

/-- The back links that an operation follows are right: `umalloc` grows the
heap only when `head.prev` is the last block of the list, and `ufree` sees
`FreeOk`. -/
def BackLinksOk : HeapState → HeapOp → Prop
  | (h, _), .malloc bytes =>
      (∃ fuel, umallocFind fuel h bytes = some none) → h.headNext ≠ 0 →
        OnList h h.headPrev ∧ nextOf h.mem h.headPrev = 0
  | (h, _), .free chunk => FreeOk h (sub32 chunk headerSize)
  | _, .write _ _ => True

/-- Live allocations are pairwise disjoint, lie in memory obtained from
`usys_sbrk`, and contain no header of the list. -/
structure LiveDisjoint (base : Nat) (s : HeapState) : Prop where
  disjoint : s.2.Pairwise (fun x y => x.1 + x.2 ≤ y.1 ∨ y.1 + y.2 ≤ x.1)
  inside : ∀ p n, (p, n) ∈ s.2 → base ≤ p ∧ p + n ≤ s.1.brk
  headers : ∀ p n, (p, n) ∈ s.2 → ∀ a, OnList s.1 a → a + headerSize ≤ p ∨ p + n ≤ a

/-- The invariant of runs. -/
def RunInv (base : Nat) (s : HeapState) : Prop :=
  ∃ bs, HeapInv base s.1 bs ∧ LiveIn bs s.2

section
variable {base : Nat} {h : Heap} {bs : List Block} {live : Live}

/-- `head.prev` is the last block when it is on the list and links to nothing. -/
theorem HeapInv.tailOk (hi : HeapInv base h bs)
    (hok : h.headNext ≠ 0 → OnList h h.headPrev ∧ nextOf h.mem h.headPrev = 0) : TailOk h bs := by
  intro x hx
  have hne : h.headNext ≠ 0 := by
    have hb := hi.base_pos
    rw [hi.head, if_neg (by rintro rfl; simp at hx)]
    omega
  obtain ⟨hon, hnext⟩ := hok hne
  obtain ⟨b, hb, hba⟩ := hi.mem_of_onList hon
  obtain ⟨xs, ys, rfl⟩ := List.append_of_mem hb
  rw [← hba, hi.next_split] at hnext
  cases ys with
  | nil =>
    obtain rfl := by simpa using hx
    exact hba.symm
  | cons c ys => exact absurd hnext (hi.addr_ne_zero (b := c) (by simp))

theorem LiveIn.subset {bs' : List Block} (hl : LiveIn bs live)
    (hsub : ∀ x ∈ bs, x.free = false → x ∈ bs') : LiveIn bs' live := by
  refine ⟨fun p n hp => ?_, hl.nodup⟩
  obtain ⟨b, hb, ha, hf, hn⟩ := hl.block p n hp
  exact ⟨b, hsub b hb hf, ha, hf, hn⟩

/-- The pointers of live allocations tell them apart. -/
theorem LiveIn.eq_of_fst (hl : LiveIn bs live) {x y : Nat × Nat} (hx : x ∈ live) (hy : y ∈ live)
    (h1 : x.1 = y.1) : x = y :=
  List.inj_on_of_nodup_map hl.nodup hx hy h1

/-- The invariant gives the property. -/
theorem HeapInv.liveDisjoint (hi : HeapInv base h bs) (hl : LiveIn bs live) :
    LiveDisjoint base (h, live) := by
  refine ⟨?_, ?_, ?_⟩
  · refine List.Pairwise.imp_of_mem ?_ (List.Nodup.of_map _ hl.nodup)
    intro x y hx hy hne
    obtain ⟨b, hb, hba, -, hbn⟩ := hl.block x.1 x.2 hx
    obtain ⟨c, hc, hca, -, hcn⟩ := hl.block y.1 y.2 hy
    rcases hi.seg.apart hb hc with rfl | h1 | h1
    · exact absurd (hl.eq_of_fst hx hy (by omega)) hne
    · left; omega
    · right; omega
  · intro p n hp
    obtain ⟨b, hb, hba, -, hbn⟩ := hl.block p n hp
    obtain ⟨h1, h2⟩ := hi.seg.mem_bounds hb
    show base ≤ p ∧ p + n ≤ h.brk
    omega
  · intro p n hp a ha
    obtain ⟨b, hb, hba, -, hbn⟩ := hl.block p n hp
    obtain ⟨c, hc, rfl⟩ := hi.mem_of_onList ha
    rcases hi.seg.apart hb hc with rfl | h1 | h1
    · left; omega
    · right; omega
    · left; omega

/-- The step lemma. -/
theorem runInv_step {s s' : HeapState} {op : HeapOp} (hs : RunInv base s)
    (hok : BackLinksOk s op) (hstep : HeapStep s op s') : RunInv base s' := by
  obtain ⟨h, live⟩ := s
  obtain ⟨h', live'⟩ := s'
  obtain ⟨bs, hi, hl⟩ := hs
  cases op with
  | malloc bytes =>
    obtain ⟨hle, fuel, p, hres, rfl⟩ := hstep
    by_cases h0 : bytes = 0
    · simp only [umalloc, if_pos h0, Option.some.injEq, Prod.mk.injEq] at hres
      obtain ⟨rfl, rfl⟩ := hres
      exact ⟨bs, hi, hl⟩
    · simp only [umalloc, if_neg h0] at hres
      obtain ⟨bs', b, hi', hb, rfl, hf, hsz, hused, hnew⟩ :=
        umallocLoop_spec (by omega) hle hi hres (fun hf => hi.tailOk (hok hf))
      have hp : b.addr + headerSize ≠ 0 := by simp [headerSize]
      refine ⟨bs', hi', ?_⟩
      have hl' := hl.subset hused
      simp only [if_neg hp]
      refine ⟨?_, ?_⟩
      · intro q n hq
        rcases List.mem_cons.mp hq with heq | hq
        · obtain ⟨rfl, rfl⟩ := Prod.mk.inj heq
          exact ⟨b, hb, rfl, hf, hsz⟩
        · exact hl'.block q n hq
      · refine List.nodup_cons.mpr ⟨fun hmem => ?_, hl.nodup⟩
        obtain ⟨⟨q, n⟩, hq, hqa⟩ := List.mem_map.mp hmem
        obtain ⟨x, hx, hxa, hxf, -⟩ := hl.block q n hq
        simp only at hqa
        exact hnew x hx hxf (by omega)
  | free chunk =>
    obtain ⟨n, hmem, hh', hlive'⟩ := hstep
    rw [hh', hlive']
    obtain ⟨b, hb, rfl, hf, hn⟩ := hl.block chunk n hmem
    have hhdr : sub32 (b.addr + headerSize) headerSize = b.addr := by
      rw [sub32_of_le (by omega), Nat.add_sub_cancel]
      have := (hi.mem_bounds hb).2
      simp only [headerSize, heapLimit] at *
      omega
    have hok' : FreeOk h b.addr := by
      have : FreeOk h (sub32 (b.addr + headerSize) headerSize) := hok
      rwa [hhdr] at this
    obtain ⟨bs', hi', -, -, hused⟩ := ufree_spec hi hb hok'
    simp only [RunInv]
    refine ⟨bs', hi', ?_, ?_⟩
    · intro q k hq
      have hq' := List.mem_of_mem_erase hq
      obtain ⟨x, hx, hxa, hxf, hxn⟩ := hl.block q k hq'
      refine ⟨x, hused x hx ?_ hxf, hxa, hxf, hxn⟩
      -- the freed pointer was live once, and that entry is gone
      rintro rfl
      have heq : (q, k) = (x.addr + headerSize, n) := hl.eq_of_fst hq' hmem hxa.symm
      rw [heq] at hq
      exact (List.Nodup.mem_erase_iff (List.Nodup.of_map _ hl.nodup)).mp hq |>.1 rfl
    · exact hl.nodup.sublist (List.Sublist.map _ (List.erase_sublist))
  | write a c =>
    obtain ⟨⟨p, n, hp, hpa, han⟩, rfl, rfl⟩ := hstep
    obtain ⟨b, hb, rfl, hf, hn⟩ := hl.block p n hp
    -- the stored byte is data of `b`, so it is in no header
    have hsame : ∀ x ∈ bs, hdrAt (Function.update h.mem a c) x.addr = hdrAt h.mem x.addr := by
      intro x hx
      apply hdrAt_congr
      intro y hy1 hy2
      refine Function.update_of_ne ?_ c h.mem
      rcases hi.seg.apart hb hx with rfl | h1 | h1 <;> omega
    exact ⟨bs, ⟨hi.seg.congr hsame, hi.base_pos, hi.brk_le, hi.head⟩, hl⟩

end

/-- The run lemma. -/
theorem runInv_of_reach {base : Nat} (hpos : 0 < base) (hle : base ≤ heapLimit) {s : HeapState}
    (hrun : Reach (HeapInit base) HeapStep BackLinksOk s) : RunInv base s := by
  refine hrun.invariant ?_ (fun s op s' hs hok hstep => runInv_step hs hok hstep)
  rintro s ⟨m, rfl⟩
  exact ⟨[], heapInv_empty m hpos hle, ⟨by simp, by simp⟩⟩

/-- **Live blocks never overlap.** In every run of `umalloc`, `ufree` and
stores into live allocations, from the empty heap, whose operations all
find the back links they follow right. -/
theorem umalloc_live_disjoint (base : Nat) (hpos : 0 < base) (hle : base ≤ heapLimit)
    (s : HeapState) (hrun : Reach (HeapInit base) HeapStep BackLinksOk s) :
    LiveDisjoint base s := by
  obtain ⟨bs, hi, hl⟩ := runInv_of_reach hpos hle hrun
  exact hi.liveDisjoint hl

/-! ### Concrete runs -/

/-- The operations as a program would issue them, with enough fuel for a short run. -/
def HeapOp.exec : HeapState → HeapOp → Option HeapState
  | (h, live), .malloc bytes =>
      (umalloc 4 h bytes).map fun (p, h') => (h', if p = 0 then live else (p, bytes) :: live)
  | (h, live), .free chunk =>
      (live.find? (fun x => x.1 == chunk)).map fun x => (ufree h chunk, live.erase x)
  | _, .write _ _ => none

/-- A run of operations that all pass a test. -/
def runAll (ok : HeapState → HeapOp → Bool) (s : HeapState) (ops : List HeapOp) :
    Option HeapState :=
  ops.foldlM (fun s op => if ok s op then op.exec s else none) s

theorem HeapOp.exec_step {s s' : HeapState} {op : HeapOp} (h : HeapOp.exec s op = some s')
    (hsmall : ∀ n, op = .malloc n → n ≤ 2 ^ 32 - 24) : HeapStep s op s' := by
  obtain ⟨hp, live⟩ := s
  obtain ⟨hp', live'⟩ := s'
  cases op with
  | malloc bytes =>
    simp only [HeapOp.exec, Option.map_eq_some_iff, Prod.mk.injEq] at h
    obtain ⟨⟨p, h1⟩, hres, rfl, rfl⟩ := h
    exact ⟨hsmall bytes rfl, 4, p, hres, rfl⟩
  | free chunk =>
    simp only [HeapOp.exec, Option.map_eq_some_iff, Prod.mk.injEq] at h
    obtain ⟨⟨p, n⟩, hfind, h1, h2⟩ := h
    have hp : p = chunk := by simpa using List.find?_some hfind
    exact ⟨n, hp ▸ List.mem_of_find?_eq_some hfind, h1.symm, by rw [← h2, hp]⟩
  | write a c => simp [HeapOp.exec] at h

theorem runAll_reach {base : Nat} {s s' : HeapState} {ops : List HeapOp}
    {ok : HeapState → HeapOp → Bool} {P : HeapState → HeapOp → Prop}
    (hok : ∀ s op, ok s op = true → P s op) (hs : Reach (HeapInit base) HeapStep P s)
    (h : runAll ok s ops = some s') (hsmall : ∀ n, .malloc n ∈ ops → n ≤ 2 ^ 32 - 24) :
    Reach (HeapInit base) HeapStep P s' := by
  induction ops generalizing s with
  | nil =>
    obtain rfl : s = s' := by simpa [runAll] using h
    exact hs
  | cons op ops ih =>
    simp only [runAll, List.foldlM_cons, Option.bind_eq_bind, Option.bind_eq_some_iff] at h
    obtain ⟨s1, h1, h2⟩ := h
    split at h1
    · next htest =>
      exact ih (.step hs (hok s op htest) (HeapOp.exec_step h1 fun n hn => hsmall n (by simp [hn])))
        h2 fun n hn => hsmall n (by simp [hn])
    · cases h1

/-- Where the concrete runs start. -/
def exampleHeap : HeapState := (Heap.empty (fun _ => 0) 0xC0001000, [])

/-- Whether the list, followed for `n` blocks from `curr`, comes to `a`. -/
def leadsTo (m : Mem) (a : Nat) : Nat → Nat → Bool
  | 0, _ => false
  | n + 1, curr => curr != 0 && (curr == a || leadsTo m a n (nextOf m curr))

theorem onList_of_leadsTo {h : Heap} {a n curr : Nat} (hl : leadsTo h.mem a n curr = true)
    (hc : curr ≠ 0 → OnList h curr) : OnList h a := by
  induction n generalizing curr with
  | zero => cases hl
  | succ n ih =>
    simp only [leadsTo, Bool.and_eq_true, Bool.or_eq_true, bne_iff_ne, beq_iff_eq] at hl
    obtain ⟨hne, rfl | hl⟩ := hl
    · exact hc hne
    · exact ih hl fun h0 => .next (hc hne) h0

/-- `BackLinksOk` on a heap of at most four blocks, as a test. -/
def backLinksRight : HeapState → HeapOp → Bool
  | (h, _), .malloc _ =>
    h.headNext == 0 || leadsTo h.mem h.headPrev 4 h.headNext && nextOf h.mem h.headPrev == 0
  | (h, _), .free chunk =>
    let hdr := sub32 chunk headerSize
    let prev := prevOf h.mem hdr
    prev == 0 || leadsTo h.mem prev 4 h.headNext && prev != hdr &&
      (freeOf h.mem prev == 0 || nextOf h.mem prev == hdr)
  | _, .write _ _ => true

theorem backLinksOk_of_right (s : HeapState) (op : HeapOp) (h : backLinksRight s op = true) :
    BackLinksOk s op := by
  obtain ⟨hp, live⟩ := s
  cases op with
  | malloc bytes =>
    intro _ hne
    simp only [backLinksRight, Bool.or_eq_true, Bool.and_eq_true, beq_iff_eq] at h
    obtain ⟨hl, hn⟩ := h.resolve_left hne
    exact ⟨onList_of_leadsTo hl .first, hn⟩
  | free chunk =>
    simp only [backLinksRight, Bool.or_eq_true, Bool.and_eq_true, beq_iff_eq, bne_iff_ne] at h
    obtain h | ⟨⟨hl, hne⟩, hf⟩ := h
    · exact .inl h
    · exact .inr ⟨onList_of_leadsTo hl .first, hne, hf⟩
  | write a c => trivial

/-- Three allocations of a page each, the second and the third of which have to
grow a list that is not empty, the second one freed, and a small one in its place. -/
theorem umalloc_live_disjoint_pages : ∃ s, Reach (HeapInit 0xC0001000) HeapStep BackLinksOk s ∧
    s.2 = [(0xC0002010, 100), (0xC0003010, 4080), (0xC0001010, 4080)] ∧
    LiveDisjoint 0xC0001000 s := by
  have hev : (runAll backLinksRight exampleHeap [.malloc 4080, .malloc 4080, .malloc 4080,
      .free 0xC0002010, .malloc 100]).map Prod.snd =
        some [(0xC0002010, 100), (0xC0003010, 4080), (0xC0001010, 4080)] := by
    decide +kernel
  obtain ⟨s, hex, hlive⟩ := Option.map_eq_some_iff.mp hev
  have hrun := runAll_reach backLinksOk_of_right (s := exampleHeap) (.init ⟨_, rfl⟩) hex (by simp)
  exact ⟨s, hrun, hlive, umalloc_live_disjoint _ (by norm_num) (by decide) _ hrun⟩

/-- Three allocations, two of them freed, and a fourth. The first split
leaves `head.prev` at the first block, so the page for the third
allocation is linked behind that block and the second allocation is no
longer on the list. The two frees then merge across it, and the fourth
allocation is handed out over it. -/
theorem umalloc_blocks_overlap :
    ¬ ∀ s, Reach (HeapInit 0xC0001000) HeapStep (fun _ _ => True) s →
      LiveDisjoint 0xC0001000 s := by
  intro hall
  have hev : (runAll (fun _ _ => true) exampleHeap [.malloc 16, .malloc 4048, .malloc 16,
      .free 0xC0001010, .free 0xC0002010, .malloc 4112]).map Prod.snd
        = some [(0xC0001010, 4112), (0xC0001030, 4048)] := by
    decide +kernel
  obtain ⟨⟨h, live⟩, hex, hlive⟩ := Option.map_eq_some_iff.mp hev
  simp only at hlive
  rw [hlive] at hex
  have hrun := runAll_reach (P := fun _ _ => True) (fun _ _ _ => trivial) (s := exampleHeap)
    (.init ⟨_, rfl⟩) hex (by simp)
  have hdis := (hall _ hrun).disjoint
  simp only [List.pairwise_cons, List.mem_singleton, forall_eq] at hdis
  omega

end Risky321.User
