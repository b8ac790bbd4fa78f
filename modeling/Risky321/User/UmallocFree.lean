/-
Risky321.User.UmallocFree — `ufree` and `umorecore` on a well-formed heap.

Well-formed is what `TiledInv` says, and that no two neighbours are free.
A merge of `ufree` then leaves a free block between used ones: what lies
behind the block it absorbs was in use, and so was what lies before it.
`umorecore` calls `ufree` on a new last block that is free already. So
`ufree` is taken here at any block, between two parts of the list of which
each by itself has no free neighbours.
-/
import Risky321.User.UmallocGrowth
import Mathlib.Data.List.Chain

namespace Risky321.User

open Risky321.Lib

/-! ## §1 Well-formed heaps -/

/-- No two neighbours are free. -/
abbrev Merged (bs : List Block) : Prop :=
  bs.IsChain fun b c => ¬ (b.free = true ∧ c.free = true)

/-- Pages from `base` on, tiled by blocks that are linked both ways, with no
two free ones side by side. -/
structure HeapWf (base : Nat) (h : Heap) (bs : List Block) : Prop where
  tiled : TiledInv base h bs
  pages : ∃ n, h.brk = base + n * pageSize
  merged : Merged bs

/-- The data of `b` is the same in both memories. -/
def SameData (b : Block) (m m' : Mem) : Prop :=
  ∀ a, b.addr + headerSize ≤ a → a < b.addr + headerSize + b.size → m' a = m a

/-- From `bs` to `bs'` only free blocks come and go. -/
structure SameUsed (h h' : Heap) (bs bs' : List Block) : Prop where
  brk : h'.brk = h.brk
  used : ∀ x, x.free = false → (x ∈ bs' ↔ x ∈ bs)
  data : ∀ x ∈ bs, x.free = false → SameData x h.mem h'.mem

section
variable {base : Nat} {h h' h'' : Heap} {bs bs' bs'' xs ys zs : List Block} {b c x y : Block}

theorem SameUsed.refl (h : Heap) (bs : List Block) : SameUsed h h bs bs :=
  ⟨rfl, fun _ _ => Iff.rfl, fun _ _ _ _ _ _ => rfl⟩

theorem SameUsed.trans (h1 : SameUsed h h' bs bs') (h2 : SameUsed h' h'' bs' bs'') :
    SameUsed h h'' bs bs'' where
  brk := h2.brk.trans h1.brk
  used x hx := (h2.used x hx).trans (h1.used x hx)
  data x hx hf a ha ha' :=
    (h2.data x ((h1.used x hf).mpr hx) hf a ha ha').trans (h1.data x hx hf a ha ha')

/-- A block's data is outside every header. -/
theorem HeapInv.data_apart (hi : HeapInv base h bs) (hx : x ∈ bs) (hy : y ∈ bs) {a : Nat}
    (ha : x.addr + headerSize ≤ a) (ha' : a < x.addr + headerSize + x.size) :
    a < y.addr ∨ y.addr + headerSize ≤ a := by
  rcases hi.seg.apart hx hy with rfl | hap | hap
  · exact Or.inr ha
  · exact Or.inl (by omega)
  · exact Or.inr (by omega)

theorem mem_around : x ∈ xs ++ b :: ys ↔ x = b ∨ x ∈ xs ++ ys := by
  simp only [List.mem_append, List.mem_cons]
  tauto

/-! ## §2 The two merges -/

/-- `absorb` writes to headers only. -/
theorem HeapInv.absorb_outside (hi : HeapInv base h (xs ++ b :: c :: zs)) {a : Nat}
    (ha : ∀ y ∈ xs ++ b :: c :: zs, a < y.addr ∨ y.addr + headerSize ≤ a) :
    (absorb h b c).mem a = h.mem a := by
  have hb := ha b (by simp)
  simp only [headerSize] at hb
  have hout : ∀ v w, setNext (setSize h.mem b.addr v) b.addr w a = h.mem a := by
    intro v w
    rw [setNext, store32_outside _ _ _ (by omega), setSize, store32_outside _ _ _ (by omega)]
  simp only [absorb]
  split
  · rename_i h0
    obtain ⟨z, hz, hzn, -⟩ := hi.absorb_next h0
    have hza := ha z (by simp [hz])
    simp only [headerSize] at hza
    rw [hzn, setPrev, store32_outside _ _ _ (by omega), hout]
  · exact hout _ _

/-- Both merges: of two free blocks the second becomes part of the first. -/
theorem TiledInv.absorbed (ht : TiledInv base h (xs ++ b :: c :: zs)) (hb : b.free = true)
    (hc : c.free = true) :
    TiledInv base (absorb h b c) (xs ++ ⟨b.addr, b.size + (headerSize + c.size), true⟩ :: zs) ∧
      SameUsed h (absorb h b c) (xs ++ b :: c :: zs)
        (xs ++ ⟨b.addr, b.size + (headerSize + c.size), true⟩ :: zs) := by
  obtain ⟨hinv, htail, hlinks⟩ := ht.heap.absorbed hb
  refine ⟨⟨hinv, hlinks ht.prev, htail ht.tail⟩, rfl, fun x hx => ?_, fun x hx _ a ha ha' => ?_⟩
  · have hxb : x ≠ b := fun heq => by simp [heq, hb] at hx
    have hxc : x ≠ c := fun heq => by simp [heq, hc] at hx
    have hxn : x ≠ ⟨b.addr, b.size + (headerSize + c.size), true⟩ := fun heq => by simp [heq] at hx
    simp only [List.mem_append, List.mem_cons, hxb, hxc, hxn, false_or]
  · exact ht.heap.absorb_outside fun y hy => ht.heap.data_apart hx hy ha ha'

/-- The first merge of `ufree`. -/
theorem TiledInv.mergeNext (ht : TiledInv base h (xs ++ b :: ys)) (hb : b.free = true)
    (hys : Merged ys) :
    ∃ f zs, TiledInv base (ufreeMergeNext h b.addr) (xs ++ f :: zs) ∧
      SameUsed h (ufreeMergeNext h b.addr) (xs ++ b :: ys) (xs ++ f :: zs) ∧
      f.addr = b.addr ∧ b.size ≤ f.size ∧ f.free = true ∧ Merged (f :: zs) ∧
      (ys = [] → zs = []) := by
  by_cases hgo : ∀ c ∈ ys.head?, c.free = false
  · rw [ufreeMergeNext_skip ht.heap hgo]
    refine ⟨b, ys, ht, .refl h _, rfl, le_rfl, hb, hys.cons fun c hc => ?_, id⟩
    rw [hgo c hc]
    exact fun hbc => Bool.noConfusion hbc.2
  · obtain ⟨c, zs, rfl, hcf⟩ : ∃ c zs, ys = c :: zs ∧ c.free = true := by
      cases ys with
      | nil => exact absurd (fun c hc => absurd hc nofun) hgo
      | cons c zs => exact ⟨c, zs, rfl, by simpa using hgo⟩
    rw [ufreeMergeNext_eq ht.heap hcf]
    obtain ⟨ht', hsame⟩ := ht.absorbed hb hcf
    obtain ⟨hhead, hzs⟩ := List.isChain_cons.mp hys
    refine ⟨_, zs, ht', hsame, rfl, Nat.le_add_right _ _, rfl, hzs.cons fun d hd hbd => ?_, nofun⟩
    exact hhead d hd ⟨hcf, hbd.2⟩

/-- The second merge of `ufree`. -/
theorem TiledInv.mergePrev (ht : TiledInv base h (xs ++ b :: ys)) (hb : b.free = true)
    (hxs : Merged xs) (hys : Merged (b :: ys)) :
    ∃ ws f, TiledInv base (ufreeMergePrev h b.addr) (ws ++ f :: ys) ∧
      SameUsed h (ufreeMergePrev h b.addr) (xs ++ b :: ys) (ws ++ f :: ys) ∧
      f.addr ≤ b.addr ∧ b.addr + headerSize + b.size ≤ f.addr + headerSize + f.size ∧
      f.free = true ∧ Merged (ws ++ f :: ys) := by
  obtain ⟨-, hprev, -⟩ := prevLinks_append.mp ht.prev
  rcases List.eq_nil_or_concat' xs with rfl | ⟨xs, q, rfl⟩
  · rw [ufreeMergePrev_skip (Or.inl hprev)]
    exact ⟨[], b, ht, .refl h _, le_rfl, le_rfl, hb, hys⟩
  · have ht' : TiledInv base h (xs ++ q :: b :: ys) := by simpa using ht
    have hqm : q ∈ xs ++ q :: b :: ys := by simp
    rw [lastAddr_append] at hprev
    by_cases hqf : q.free = true
    · rw [ufreeMergePrev_eq ht'.heap hqf hprev]
      obtain ⟨hinv, hsame⟩ := ht'.absorbed hqf hb
      obtain ⟨hleft, -, hqlast⟩ := List.isChain_append.mp hxs
      obtain ⟨hhead, htail⟩ := List.isChain_cons.mp hys
      obtain ⟨k, h1, h2⟩ := seg_append.mp ht'.heap.seg
      have hk := h2.1
      have hbk := h2.2.2.1
      refine ⟨xs, _, hinv, by simpa using hsame, ?_, ?_, rfl, ?_⟩
      · change q.addr ≤ b.addr
        omega
      · change _ ≤ q.addr + headerSize + (q.size + (headerSize + b.size))
        omega
      · refine List.isChain_append.mpr ⟨hleft, htail.cons fun c hc hbc => ?_, fun x hx c hc hxc => ?_⟩
        · exact hhead c hc ⟨hb, hbc.2⟩
        · exact hqlast x hx q rfl ⟨hxc.1, hqf⟩
    · have hskip : freeOf h.mem (prevOf h.mem b.addr) = 0 := by
        by_contra hne
        rw [hprev, ← Ne, freeOf_ne_zero, (ht'.heap.seg.size_free hqm).2] at hne
        exact hqf hne
      rw [ufreeMergePrev_skip (Or.inr hskip)]
      refine ⟨xs ++ [q], b, ht, .refl h _, le_rfl, le_rfl, hb, ?_⟩
      refine List.isChain_append.mpr ⟨hxs, hys, fun x hx c _ hxc => ?_⟩
      obtain rfl : q = x := by simpa using hx
      exact hqf hxc.1

/-- Marking `b` free changes no other used block. -/
theorem TiledInv.markFree (ht : TiledInv base h (xs ++ b :: ys)) :
    TiledInv base { h with mem := User.setFree h.mem b.addr 1 } (xs ++ ⟨b.addr, b.size, true⟩ :: ys) ∧
      SameUsed h { h with mem := User.setFree h.mem b.addr 1 } (xs ++ ys)
        (xs ++ ⟨b.addr, b.size, true⟩ :: ys) := by
  have hbm : b ∈ xs ++ b :: ys := by simp
  refine ⟨ht.setFree (by norm_num), rfl, fun x hx => ?_, fun x hx _ a ha ha' => ?_⟩
  · rw [mem_around]
    refine ⟨fun hor => hor.resolve_left fun heq => ?_, Or.inr⟩
    rw [heq] at hx
    exact Bool.noConfusion hx
  · have hap := ht.heap.data_apart (mem_around.mpr (Or.inr hx)) hbm ha ha'
    simp only [headerSize] at hap
    exact store32_outside _ _ _ (by omega)

/-- `ufree` of a block, free or not, between merged parts of the list. -/
theorem TiledInv.freeBlock (ht : TiledInv base h (xs ++ b :: ys)) (hxs : Merged xs)
    (hys : Merged ys) :
    ∃ ws f zs, TiledInv base (ufree h (b.addr + headerSize)) (ws ++ f :: zs) ∧
      Merged (ws ++ f :: zs) ∧
      SameUsed h (ufree h (b.addr + headerSize)) (xs ++ ys) (ws ++ f :: zs) ∧
      f.free = true ∧ f.addr ≤ b.addr ∧
      b.addr + headerSize + b.size ≤ f.addr + headerSize + f.size ∧ (ys = [] → zs = []) := by
  have hbm : b ∈ xs ++ b :: ys := by simp
  have hhdr : sub32 (b.addr + headerSize) headerSize = b.addr := by
    rw [sub32_of_le (by omega), Nat.add_sub_cancel]
    have := (ht.heap.mem_bounds hbm).2
    simp only [headerSize, heapLimit] at *
    omega
  have hres : ufree h (b.addr + headerSize) =
      ufreeMergePrev (ufreeMergeNext { h with mem := User.setFree h.mem b.addr 1 } b.addr) b.addr := by
    rw [ufree, hhdr]
  rw [hres]
  obtain ⟨h1, hsame1⟩ := ht.markFree
  obtain ⟨f1, zs, h2, hsame2, ha2, hsize2, hf2, hm2, hnil⟩ := h1.mergeNext rfl hys
  obtain ⟨ws, f, h3, hsame3, ha3, hend3, hf3, hm3⟩ := h2.mergePrev hf2 hxs hm2
  rw [ha2] at h3 hsame3 ha3 hend3
  simp only at hsize2 ha3 hend3
  exact ⟨ws, f, zs, h3, hm3, (hsame1.trans hsame2).trans hsame3, hf3, ha3, by omega, hnil⟩

/-! ## §3 `ufree` and `umorecore` -/

/-- What `ufree` of the used block `b` leaves. -/
structure HeapFreed (base : Nat) (h h' : Heap) (bs : List Block) (b : Block)
    (bs' : List Block) : Prop where
  wf : HeapWf base h' bs'
  memory : h'.brk = h.brk
  freed : ∃ f ∈ bs', f.free = true ∧ f.addr + headerSize ≤ b.addr + headerSize ∧
    b.addr + headerSize + b.size ≤ f.addr + headerSize + f.size
  used : ∀ x, x.free = false → (x ∈ bs' ↔ x ∈ bs ∧ x ≠ b)
  data : ∀ x ∈ bs, x.free = false → x ≠ b → SameData x h.mem h'.mem

/-- What `umorecore` leaves. -/
structure HeapGrown (base : Nat) (h h' : Heap) (bs bs' : List Block) : Prop where
  wf : HeapWf base h' bs'
  memory : h'.brk = h.brk + pageSize
  last : ∃ f ∈ bs'.getLast?, f.free = true
  used : ∀ x, x.free = false → (x ∈ bs' ↔ x ∈ bs)
  data : ∀ x ∈ bs, x.free = false → SameData x h.mem h'.mem

theorem HeapWf.ufree (hw : HeapWf base h bs) (hb : b ∈ bs) :
    ∃ bs', HeapFreed base h (User.ufree h (b.addr + headerSize)) bs b bs' := by
  obtain ⟨xs, ys, rfl⟩ := List.append_of_mem hb
  have hnot := hw.tiled.heap.notMem_rest
  have hrest : ∀ x, x ∈ xs ++ ys ↔ x ∈ xs ++ b :: ys ∧ x ≠ b := by
    intro x
    rw [mem_around]
    constructor
    · intro hx
      refine ⟨Or.inr hx, ?_⟩
      rintro rfl
      exact hnot hx
    · exact fun ⟨hx, hne⟩ => hx.resolve_left hne
  obtain ⟨hxs, hbys, -⟩ := List.isChain_append.mp hw.merged
  have hys : Merged ys := (List.isChain_cons.mp hbys).2
  obtain ⟨ws, f, zs, ht, hm, hsame, hf, ha, hend, -⟩ := hw.tiled.freeBlock hxs hys
  obtain ⟨n, hn⟩ := hw.pages
  refine ⟨ws ++ f :: zs, ⟨ht, ⟨n, hsame.brk.trans hn⟩, hm⟩, hsame.brk, ?_, ?_, ?_⟩
  · exact ⟨f, by simp, hf, Nat.add_le_add_right ha headerSize, hend⟩
  · exact fun x hx => (hsame.used x hx).trans (hrest x)
  · exact fun x hx hxf hne => hsame.data x ((hrest x).mpr ⟨hx, hne⟩) hxf

theorem HeapWf.umorecore (hw : HeapWf base h bs) (hroom : h.brk + pageSize ≤ heapLimit) :
    ∃ h' bs', User.umorecore h = some (h.brk, h') ∧ HeapGrown base h h' bs bs' := by
  obtain ⟨h', bs1, hres, hmore⟩ := hw.tiled.heap.moreCore hw.tiled.tail hroom
  obtain ⟨_, h1, hh', hi1, ht1, hp1, _⟩ := umorecore_link hw.tiled.heap hw.tiled.tail hres
  have h2 : TiledInv base h1 (bs ++ [⟨h.brk, pageSize - headerSize, true⟩]) :=
    ⟨hi1, hp1 hw.tiled.prev, ht1⟩
  obtain ⟨ws, f, zs, ht, hm, hsame, hf, -, -, hnil⟩ := h2.freeBlock hw.merged .nil
  obtain rfl := hnil rfl
  rw [← hh'] at ht hsame
  rw [List.append_nil] at hsame
  obtain ⟨n, hn⟩ := hw.pages
  have hpages : h.brk + pageSize = base + (n + 1) * pageSize := by
    simp only [pageSize] at hn ⊢
    omega
  refine ⟨h', ws ++ [f], hres, ⟨ht, ⟨n + 1, hmore.brk.trans hpages⟩, hm⟩, hmore.brk,
    ⟨f, by simp, hf⟩, hsame.used, fun x hx _ a ha ha' => ?_⟩
  have hbnd := (hw.tiled.heap.seg.mem_bounds hx).2
  exact hmore.frame a (by omega) fun y hy => hw.tiled.heap.data_apart hx hy ha ha'

/-- **A well-formed heap stays one.** -/
theorem ufree_umorecore_wf (hw : HeapWf base h bs) :
    (∀ b ∈ bs, b.free = false → ∃ bs', HeapFreed base h (ufree h (b.addr + headerSize)) bs b bs') ∧
      (h.brk + pageSize ≤ heapLimit →
        ∃ h' bs', umorecore h = some (h.brk, h') ∧ HeapGrown base h h' bs bs') :=
  ⟨fun _ hb _ => hw.ufree hb, hw.umorecore⟩

/-- The heap with one page, all of it handed out. -/
theorem HeapInv.usedPage (hi : HeapInv base h []) (hroom : h.brk + pageSize ≤ heapLimit) :
    HeapWf base { User.firstPage h with mem := User.setFree (User.firstPage h).mem h.brk 0 }
      [⟨h.brk, pageSize - headerSize, false⟩] := by
  have hmore := HeapInv.firstPage hi hroom
  have hprev : prevOf (User.firstPage h).mem h.brk = 0 := by
    rw [User.firstPage, prevOf_setFree, prevOf_setPrev _ (by norm_num)]
  have ht : TiledInv base (User.firstPage h) ([] ++ [⟨h.brk, pageSize - headerSize, true⟩]) :=
    ⟨hmore.inv, ⟨hprev, trivial⟩, hmore.tail⟩
  have hbrk : base = h.brk := hi.seg
  refine ⟨ht.setFree (v := 0) (by norm_num), ⟨1, ?_⟩, .singleton _⟩
  change h.brk + pageSize = base + 1 * pageSize
  rw [hbrk, Nat.one_mul]

theorem ufree_umorecore_wf_page : ∃ h b, b = ⟨0xC0001000, pageSize - headerSize, false⟩ ∧
    HeapWf 0xC0001000 h [b] ∧
    (∃ bs', HeapFreed 0xC0001000 h (ufree h (b.addr + headerSize)) [b] b bs') ∧
    ∃ h' bs', umorecore h = some (h.brk, h') ∧ HeapGrown 0xC0001000 h h' [b] bs' := by
  have h0 : HeapInv 0xC0001000 (Heap.empty (fun _ => 0) 0xC0001000) [] :=
    heapInv_empty _ (by norm_num) (by decide)
  have hroom : 0xC0001000 + pageSize ≤ heapLimit := by decide
  have hroom' : 0xC0001000 + pageSize + pageSize ≤ heapLimit := by decide
  have hw := h0.usedPage hroom
  obtain ⟨hfree, hmore⟩ := ufree_umorecore_wf hw
  exact ⟨_, _, rfl, hw, hfree _ List.mem_cons_self rfl, hmore hroom'⟩

end

end Risky321.User
