/-
Risky321.User.UmallocTiling — the list of the user heap, in both directions.

`HeapTiled` is what the list should be: along `next` the blocks tile the
memory obtained from `usys_sbrk`, `prev` is the inverse of `next`, and
`head.prev` is the last block. `ufree` and `umorecore` keep it, and so
does an allocation that fits exactly. The split branch of `umalloc` does
not: it leaves the back link of the block behind the new one, or
`head.prev`, at the front part. So `HeapTiled` holds along the runs in
which no block is split, and is lost in the first split
(`umallocTake_split_not_tiled`).
-/
import Risky321.User.UmallocTheorems

namespace Risky321.User

open Risky321.Lib

/-! ## §1 The property -/

/-- The list tiles `[base, brk)` along `next`, `prev` leads back, and
`head.prev` is its last block. -/
def HeapTiled (base : Nat) (h : Heap) : Prop :=
  ∃ bs, Seg (hdrAt h.mem) headerSize base bs h.brk 0 ∧ h.headNext = firstAddr bs ∧
    PrevLinks h.mem 0 bs ∧ TailOk h bs

/-- A call `umalloc(bytes)` that hands out a whole block: the first block
that fits, after as many new pages as it takes, has the size asked for. -/
inductive FitsExactly (bytes : Nat) : Heap → Prop
  | found {h : Heap} {fuel curr : Nat} : umallocFind fuel h bytes = some (some curr) →
      sizeOf h.mem curr = alignedBytes bytes → FitsExactly bytes h
  | grow {h h' : Heap} {fuel page : Nat} : umallocFind fuel h bytes = some none →
      umorecore h = some (page, h') → FitsExactly bytes h' → FitsExactly bytes h

/-- No block is split. -/
def NoSplit : HeapState → HeapOp → Prop
  | (h, _), .malloc bytes => bytes = 0 ∨ FitsExactly bytes h
  | _, _ => True

/-! ## §2 The operations -/

section
variable {base : Nat} {h : Heap} {bs xs ys : List Block} {b : Block}

/-- The invariant behind `HeapTiled`. -/
structure TiledInv (base : Nat) (h : Heap) (bs : List Block) : Prop where
  heap : HeapInv base h bs
  prev : PrevLinks h.mem 0 bs
  tail : TailOk h bs

theorem HeapInv.headNext_eq (hi : HeapInv base h bs) : h.headNext = firstAddr bs := by
  rw [hi.head]
  cases bs with
  | nil => rfl
  | cons b bs => exact hi.seg.1.symm

theorem TiledInv.tiled (ht : TiledInv base h bs) : HeapTiled base h :=
  ⟨bs, ht.heap.seg, ht.heap.headNext_eq, ht.prev, ht.tail⟩

/-- With the back links right, `ufree` follows a right one. -/
theorem TiledInv.freeOk (ht : TiledInv base h bs) (hb : b ∈ bs) : FreeOk h b.addr := by
  obtain ⟨xs, ys, rfl⟩ := List.append_of_mem hb
  obtain ⟨-, hprev, -⟩ := prevLinks_append.mp ht.prev
  rcases List.eq_nil_or_concat' xs with rfl | ⟨xs, q, rfl⟩
  · exact Or.inl hprev
  · right
    rw [lastAddr_append] at hprev
    rw [hprev]
    have hi : HeapInv base h (xs ++ q :: b :: ys) := by simpa using ht.heap
    refine ⟨hi.onList (by simp), ?_, Or.inr hi.next_split⟩
    intro heq
    exact hi.neighbour_ne (hi.eq_of_addr (by simp) (by simp) heq)

/-- With the back links right, every operation finds the ones it follows right. -/
theorem TiledInv.backLinksOk {live : Live} (ht : TiledInv base h bs) (hl : LiveIn bs live)
    {op : HeapOp} {s : HeapState} (hstep : HeapStep (h, live) op s) : BackLinksOk (h, live) op := by
  cases op with
  | malloc bytes =>
    intro _ hne
    rcases List.eq_nil_or_concat' bs with rfl | ⟨bs, b, rfl⟩
    · exact absurd ht.heap.headNext_eq hne
    · rw [ht.tail b (by simp)]
      exact ⟨ht.heap.onList (by simp), ht.heap.next_split⟩
  | free chunk =>
    obtain ⟨n, hmem, -, -⟩ := hstep
    obtain ⟨b, hb, rfl, -, -⟩ := hl.block chunk n hmem
    have hbnd := (ht.heap.mem_bounds hb).2
    have hhdr : sub32 (b.addr + headerSize) headerSize = b.addr := by
      rw [sub32_of_le (by omega), Nat.add_sub_cancel]
      simp only [headerSize, heapLimit] at *
      omega
    show FreeOk h (sub32 (b.addr + headerSize) headerSize)
    rw [hhdr]
    exact ht.freeOk hb
  | write a c => trivial

/-- More turns do not change what the list search finds. -/
theorem umallocSearch_fuel {m : Mem} {al rq fuel fuel' curr : Nat} {r r' : Option Nat}
    (h : umallocSearch m al rq fuel curr = some r)
    (h' : umallocSearch m al rq fuel' curr = some r') : r = r' := by
  induction fuel generalizing fuel' curr with
  | zero => simp [umallocSearch] at h
  | succ fuel ih =>
    cases fuel' with
    | zero => simp [umallocSearch] at h'
    | succ fuel' =>
      rw [umallocSearch] at h h'
      by_cases h0 : curr = 0
      · rw [if_pos h0] at h h'
        exact Option.some.inj (h.symm.trans h')
      · rw [if_neg h0] at h h'
        by_cases hfit : freeOf m curr ≠ 0 ∧ (sizeOf m curr = al ∨ rq ≤ sizeOf m curr)
        · rw [if_pos hfit] at h h'
          exact Option.some.inj (h.symm.trans h')
        · rw [if_neg hfit] at h h'
          exact ih h h'

theorem umallocFind_fuel {fuel fuel' bytes : Nat} {r r' : Option Nat}
    (hf : umallocFind fuel h bytes = some r) (hf' : umallocFind fuel' h bytes = some r') :
    r = r' := by
  unfold umallocFind at hf hf'
  by_cases h0 : h.headNext ≠ 0
  · rw [if_pos h0] at hf hf'
    exact umallocSearch_fuel hf hf'
  · rw [if_neg h0] at hf hf'
    exact Option.some.inj (hf.symm.trans hf')

/-- The block the search finds is on the list. -/
theorem HeapInv.find_mem (hi : HeapInv base h bs) {fuel bytes curr : Nat}
    (hf : umallocFind fuel h bytes = some (some curr)) : ∃ b ∈ bs, b.addr = curr := by
  unfold umallocFind at hf
  by_cases h0 : h.headNext ≠ 0
  · rw [if_pos h0, hi.headNext_eq] at hf
    obtain ⟨b, hb, ha, -⟩ := umallocSearch_spec [] hi hf curr rfl
    exact ⟨b, hb, ha⟩
  · rw [if_neg h0] at hf
    exact absurd hf nofun

/-- Marking a block free or used keeps the list. -/
theorem TiledInv.setFree (ht : TiledInv base h (xs ++ b :: ys)) {v : Nat} (hv : v < 2 ^ 32) :
    TiledInv base { h with mem := User.setFree h.mem b.addr v }
      (xs ++ { b with free := v != 0 } :: ys) :=
  ⟨ht.heap.setFree hv, ht.heap.setFree_prevLinks ht.prev, ht.tail.setFree⟩

/-- Handing out a whole block keeps the list. -/
theorem TiledInv.take (ht : TiledInv base h bs) (hb : b ∈ bs) {al : Nat}
    (hexact : sizeOf h.mem b.addr = al) : ∃ bs', TiledInv base (umallocTake h b.addr al).2 bs' := by
  obtain ⟨xs, ys, rfl⟩ := List.append_of_mem hb
  have hres : (umallocTake h b.addr al).2 = { h with mem := User.setFree h.mem b.addr 0 } := by
    rw [umallocTake, if_pos hexact]
  rw [hres]
  exact ⟨_, ht.setFree (by norm_num)⟩

/-- `umalloc` keeps the list when it splits nothing. -/
theorem TiledInv.malloc {bytes fuel p : Nat} {h' : Heap} (hfit : FitsExactly bytes h)
    (ht : TiledInv base h bs) (hres : umallocLoop bytes fuel h = some (p, h')) :
    ∃ bs', TiledInv base h' bs' := by
  induction hfit generalizing bs fuel with
  | found hfind hexact =>
    cases fuel with
    | zero => simp [umallocLoop] at hres
    | succ fuel =>
      rw [umallocLoop] at hres
      simp only [Option.bind_eq_bind, Option.bind_eq_some_iff] at hres
      obtain ⟨r, hr, hres⟩ := hres
      obtain rfl := umallocFind_fuel hfind hr
      simp only [Option.some.injEq] at hres
      obtain ⟨b, hb, rfl⟩ := ht.heap.find_mem hfind
      have hh' := ht.take hb hexact
      rw [hres] at hh'
      exact hh'
  | grow hfind hcore _ ih =>
    cases fuel with
    | zero => simp [umallocLoop] at hres
    | succ fuel =>
      rw [umallocLoop] at hres
      simp only [Option.bind_eq_bind, Option.bind_eq_some_iff] at hres
      obtain ⟨r, hr, hres⟩ := hres
      obtain rfl := umallocFind_fuel hfind hr
      simp only [Option.bind_eq_some_iff] at hres
      obtain ⟨⟨page, h1⟩, hcore', hres⟩ := hres
      rw [hcore, Option.some.injEq, Prod.mk.injEq] at hcore'
      obtain ⟨rfl, rfl⟩ := hcore'
      obtain ⟨hne, bs1, hi1, ht1, hpl1, -⟩ := umorecore_spec ht.heap ht.tail hcore
      simp only [if_neg hne] at hres
      exact ih ⟨hi1, hpl1 ht.prev, ht1⟩ hres

/-- **A split loses the list.** Behind the new header stands a block whose
back link is stale, or nothing, and then `head.prev` is. -/
theorem umallocTake_split_not_tiled (ht : TiledInv base h (xs ++ b :: ys)) {al : Nat}
    (hal : al + headerSize < b.size) : ¬ HeapTiled base (umallocTake h b.addr al).2 := by
  rintro ⟨cs, hseg, -, hprev, htail⟩
  have hb : b ∈ xs ++ b :: ys := by simp
  have hsplit := ht.heap.split_block al hal
  have hcs := hseg.unique hsplit.seg (by decide)
  have hbnd := (ht.heap.mem_bounds hb).2
  have hlim : heapLimit < 2 ^ 32 := by decide
  have hsz : sizeOf h.mem b.addr = b.size := (ht.heap.seg.size_free hb).1
  have hap : HdrApart b.addr (b.addr + headerSize + al) := Or.inl (by omega)
  rw [umallocTake_split hap (by omega) (by omega)] at hprev htail
  rw [hcs] at hprev htail
  cases ys with
  | nil =>
    have h1 := ht.tail b (by simp)
    have h2 : h.headPrev = _ := htail ⟨b.addr + headerSize + al, b.size - al - headerSize, true⟩
      (by simp)
    simp only [headerSize] at h2
    omega
  | cons y ys =>
    obtain ⟨k, -, hseg2⟩ := seg_append.mp ht.heap.seg
    have hk := hseg2.1
    have hy := hseg2.2.2.1
    obtain ⟨-, -, hyold, -⟩ := prevLinks_append.mp ht.prev
    obtain ⟨-, -, -, hynew, -⟩ := prevLinks_append.mp hprev
    have hya : HdrApart b.addr y.addr := Or.inl (by omega)
    have hyn : HdrApart (b.addr + headerSize + al) y.addr := Or.inl (by omega)
    simp only [splitMem, setNext, setSize, setFree] at hynew
    rw [prevOf_store32 _ _ (by decide) (by decide) (.inr hya),
      prevOf_store32 _ _ (by decide) (by decide) (.inr hya),
      prevOf_store32 _ _ (by decide) (by decide) (.inr hyn), prevOf_setPrev_apart _ _ hyn,
      prevOf_store32 _ _ (by decide) (by decide) (.inr hyn),
      prevOf_store32 _ _ (by decide) (by decide) (.inr hyn),
      prevOf_store32 _ _ (by decide) (by decide) (.inr hya), hyold] at hynew
    simp only [headerSize] at hynew
    omega

end

/-! ## §3 Runs -/

/-- The invariant of runs. -/
def RunTiled (base : Nat) (s : HeapState) : Prop :=
  ∃ bs, TiledInv base s.1 bs ∧ LiveIn bs s.2

/-- The step lemma: the live allocations are those of `runInv_step`, and the
list is kept by each operation. -/
theorem runTiled_step {base : Nat} {s s' : HeapState} {op : HeapOp} (hs : RunTiled base s)
    (hok : NoSplit s op) (hstep : HeapStep s op s') : RunTiled base s' := by
  obtain ⟨h, live⟩ := s
  obtain ⟨h', live'⟩ := s'
  obtain ⟨bs, ht, hl⟩ := hs
  have hrun : RunInv base (h, live) := ⟨bs, ht.heap, hl⟩
  obtain ⟨bs1, hi1, hl1⟩ := runInv_step hrun (ht.backLinksOk hl hstep) hstep
  have hlist : ∃ bs', TiledInv base h' bs' := by
    cases op with
    | malloc bytes =>
      obtain ⟨-, fuel, p, hres, -⟩ := hstep
      rcases hok with h0 | hfit
      · rw [umalloc, if_pos h0, Option.some.injEq, Prod.mk.injEq] at hres
        obtain ⟨-, rfl⟩ := hres
        exact ⟨bs, ht⟩
      · by_cases h0 : bytes = 0
        · rw [umalloc, if_pos h0, Option.some.injEq, Prod.mk.injEq] at hres
          obtain ⟨-, rfl⟩ := hres
          exact ⟨bs, ht⟩
        · rw [umalloc, if_neg h0] at hres
          exact TiledInv.malloc hfit ht hres
    | free chunk =>
      obtain ⟨n, hmem, hh', -⟩ := hstep
      rw [hh']
      obtain ⟨b, hb, rfl, -, -⟩ := hl.block chunk n hmem
      obtain ⟨bs', hi', htail, hprev, -⟩ := ufree_spec ht.heap hb (ht.freeOk hb)
      exact ⟨bs', hi', hprev ht.prev, htail ht.tail⟩
    | write a c =>
      obtain ⟨⟨p, n, hp, hpa, han⟩, rfl, -⟩ := hstep
      obtain ⟨b, hb, rfl, -, hn⟩ := hl.block p n hp
      have hsame : ∀ x ∈ bs, ∀ y, x.addr ≤ y → y < x.addr + headerSize →
          Function.update h.mem a c y = h.mem y := by
        intro x hx y hy1 hy2
        refine Function.update_of_ne ?_ c h.mem
        rcases ht.heap.seg.apart hb hx with rfl | h1 | h1 <;> omega
      refine ⟨bs, ⟨?_, ht.heap.base_pos, ht.heap.brk_le, ht.heap.head⟩, ?_, ht.tail⟩
      · exact ht.heap.seg.congr
          (fun x hx => hdrAt_congr (fun y hy1 hy2 => hsame x hx y (by omega) hy2))
      · refine ht.prev.congr (fun x hx => load32_congr (fun y hy1 hy2 => hsame x hx y hy1 ?_))
        simp only [headerSize]
        omega
  obtain ⟨bs', ht'⟩ := hlist
  have heq := hi1.seg.unique ht'.heap.seg (by decide)
  rw [heq] at hl1
  exact ⟨bs', ht', hl1⟩

/-- The run lemma. -/
theorem runTiled_of_reach {base : Nat} (hpos : 0 < base) (hle : base ≤ heapLimit) {s : HeapState}
    (hrun : Reach (HeapInit base) HeapStep NoSplit s) : RunTiled base s := by
  refine hrun.invariant ?_ fun s op s' hs hok hstep => runTiled_step hs hok hstep
  rintro s ⟨m, rfl⟩
  exact ⟨[], ⟨heapInv_empty m hpos hle, trivial, fun b hb => absurd hb (by simp)⟩,
    ⟨by simp, by simp⟩⟩

/-- A run without a split finds every back link right. -/
theorem backLinksOk_of_noSplit {base : Nat} (hpos : 0 < base) (hle : base ≤ heapLimit)
    {s : HeapState} (hrun : Reach (HeapInit base) HeapStep NoSplit s) :
    Reach (HeapInit base) HeapStep BackLinksOk s := by
  induction hrun with
  | init h => exact .init h
  | step hs hok hstep ih =>
    obtain ⟨bs, ht, hl⟩ := runTiled_of_reach hpos hle hs
    exact .step ih (ht.backLinksOk hl hstep) hstep

/-- **The list is kept in both directions.** In every run of `umalloc`,
`ufree` and stores into live allocations, from the empty heap, in which no
call of `umalloc` splits a block. -/
theorem umalloc_heap_tiled (base : Nat) (hpos : 0 < base) (hle : base ≤ heapLimit)
    (s : HeapState) (hrun : Reach (HeapInit base) HeapStep NoSplit s) : HeapTiled base s.1 := by
  obtain ⟨bs, ht, -⟩ := runTiled_of_reach hpos hle hrun
  exact ht.tiled

/-- `FitsExactly` as a test, for a list of less than `fuel` blocks and less than `n` new pages. -/
def fitsExactly (fuel bytes : Nat) : Nat → Heap → Bool
  | 0, _ => false
  | n + 1, h => (umallocFind fuel h bytes).any fun r =>
      r.elim ((umorecore h).any fun x => fitsExactly fuel bytes n x.2)
        fun curr => sizeOf h.mem curr == alignedBytes bytes

theorem fitsExactly_of_test {fuel bytes n : Nat} {h : Heap}
    (ht : fitsExactly fuel bytes n h = true) : FitsExactly bytes h := by
  induction n generalizing h with
  | zero => cases ht
  | succ n ih =>
    obtain ⟨r, hfind, hr⟩ := (Option.any_eq_true ..).mp ht
    cases r with
    | some curr => exact .found hfind (beq_iff_eq.mp hr)
    | none =>
      rw [Option.elim_none, Option.any_eq_true] at hr
      obtain ⟨x, hcore, hx⟩ := hr
      exact .grow hfind hcore (ih hx)

/-- `NoSplit`, as a test. -/
def splitsNone : HeapState → HeapOp → Bool
  | (h, _), .malloc bytes => fitsExactly 4 bytes 2 h
  | _, _ => true

theorem noSplit_of_splitsNone (s : HeapState) (op : HeapOp) (h : splitsNone s op = true) :
    NoSplit s op := by
  obtain ⟨hp, live⟩ := s
  cases op with
  | malloc bytes => exact .inr (fitsExactly_of_test h)
  | free chunk => trivial
  | write a c => trivial

/-- Three allocations of a page each, the second of them freed. -/
theorem examplePages : ∃ s, Reach (HeapInit 0xC0001000) HeapStep NoSplit s ∧
    s.2 = [(0xC0003010, 4080), (0xC0001010, 4080)] ∧
    hdrAt s.1.mem 0xC0002000 = ⟨0xC0003000, 4080, true⟩ ∧ s.1.brk = 0xC0004000 ∧
    umallocFind 4 s.1 5000 = some none ∧ backLinksRight s (.malloc 5000) = true ∧
    (umalloc 4 s.1 100).map Prod.fst = some 0xC0002010 := by
  have hev : (runAll splitsNone exampleHeap [.malloc 4080, .malloc 4080, .malloc 4080,
      .free 0xC0002010]).map (fun s => ((s.2, hdrAt s.1.mem 0xC0002000, s.1.brk),
        umallocFind 4 s.1 5000, backLinksRight s (.malloc 5000),
        (umalloc 4 s.1 100).map Prod.fst)) =
      some (([(0xC0003010, 4080), (0xC0001010, 4080)], ⟨0xC0003000, 4080, true⟩, 0xC0004000),
        some none, true, some 0xC0002010) := by
    decide +kernel
  obtain ⟨s, hex, hs⟩ := Option.map_eq_some_iff.mp hev
  simp only [Prod.mk.injEq, and_assoc] at hs
  exact ⟨s, runAll_reach noSplit_of_splitsNone (s := exampleHeap) (.init ⟨_, rfl⟩) hex (by simp),
    hs⟩

theorem umalloc_heap_tiled_pages : ∃ s, Reach (HeapInit 0xC0001000) HeapStep NoSplit s ∧
    s.2 = [(0xC0003010, 4080), (0xC0001010, 4080)] ∧
    hdrAt s.1.mem 0xC0002000 = ⟨0xC0003000, 4080, true⟩ ∧ HeapTiled 0xC0001000 s.1 := by
  obtain ⟨s, hrun, hlive, hfree, -⟩ := examplePages
  exact ⟨s, hrun, hlive, hfree, umalloc_heap_tiled _ (by norm_num) (by decide) s hrun⟩

/-- The first `umalloc(16)` splits the only block, and `head.prev` stays at
its front part instead of moving to the new last block. -/
theorem umalloc_heap_not_tiled :
    ¬ ∀ s, Reach (HeapInit 0xC0001000) HeapStep (fun _ _ => True) s →
      HeapTiled 0xC0001000 s.1 := by
  intro hall
  have hev : (HeapOp.exec exampleHeap (.malloc 16)).map
      (fun s => (s.1.headPrev, s.1.brk, hdrAt s.1.mem 0xC0001000, hdrAt s.1.mem 0xC0001020))
        = some (0xC0001000, 0xC0002000, ⟨0xC0001020, 16, false⟩, ⟨0, 4048, true⟩) := by
    decide +kernel
  obtain ⟨s, hex, hs⟩ := Option.map_eq_some_iff.mp hev
  simp only [Prod.mk.injEq] at hs
  obtain ⟨hprev, hbrk, hfirst, hsecond⟩ := hs
  have hstep := HeapOp.exec_step hex (by rintro n ⟨⟩; norm_num)
  obtain ⟨bs, hseg, -, -, htail⟩ := hall s (.step (.init ⟨_, rfl⟩) trivial hstep)
  have htwo : Seg (hdrAt s.1.mem) headerSize 0xC0001000
      [⟨0xC0001000, 16, false⟩, ⟨0xC0001020, 4048, true⟩] s.1.brk 0 := by
    rw [hbrk]
    refine ⟨rfl, ?_, rfl, ?_, rfl⟩
    · rw [hfirst]
      rfl
    · rw [show 0xC0001000 + headerSize + 16 = 0xC0001020 from rfl, hsecond]
      rfl
  rw [hseg.unique htwo (by decide)] at htail
  have hlast := htail ⟨0xC0001020, 4048, true⟩ (by simp)
  rw [hprev] at hlast
  exact absurd hlast (by decide)

end Risky321.User
