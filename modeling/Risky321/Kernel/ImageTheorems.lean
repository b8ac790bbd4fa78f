/-
Risky321.Kernel.ImageTheorems — building an address space.

`buildImage` runs in three stages: the root with the kernel mapped 1:1
(`imageBase_spec`), the pages of the ELF segments one after the other
(`loadSegments_spec`), and the trap frame and the stack
(`imageStack_spec`). Here they are put together.
-/
import Risky321.Kernel.SegmentTheorems
import Risky321.Kernel.StackTheorems

namespace Risky321.Kernel

open Risky321.Lib

variable {L : Layout} {k k' k'' : KState} {g g' g'' : Ghost} {a b : Space} {i j r v va p : Nat}
  {m m' : Mem} {S : Role → Prop} {W : Nat → Prop} {heap : Bool} {c : Role}

/-! ## §1 The roles of a new address space -/

theorem Ghost.popMany_ow (g : Ghost) (c : Nat → Role) (n q : Nat) :
    (g.popMany c n).ow q = g.ow q ∨ ∃ j < n, (g.popMany c n).ow q = c j := by
  induction n with
  | zero => exact .inl rfl
  | succ n ih =>
    obtain h | h := (g.popMany c n).pop_ow (c n) q
    · obtain h' | ⟨j, hj, h'⟩ := ih
      · exact .inl (h.trans h')
      · exact .inr ⟨j, by omega, h.trans h'⟩
    · exact .inr ⟨n, by omega, h⟩

/-- Giving away the roles `table a 0`, `table a 1`, … where no page is a table of `a`. -/
theorem unique_popMany (hu : ∀ p q, (g.ow p).Of a → g.ow p = g.ow q → p = q)
    (hno : ∀ q n, g.ow q ≠ .table a n) (n : Nat) :
    ∀ p q, ((g.popMany (.table a) n).ow p).Of a →
      (g.popMany (.table a) n).ow p = (g.popMany (.table a) n).ow q → p = q := by
  induction n with
  | zero => exact hu
  | succ n ih =>
    refine unique_pop ih ?_
    intro q hq
    obtain h | ⟨j, hj, h⟩ := g.popMany_ow (.table a) n q
    · rw [h] at hq
      exact hno q n hq
    · rw [h, Role.table.injEq] at hq
      omega

/-- Only the root and the trap frame of a fresh address space. -/
theorem pop_root_trapframe_ow (hnone : ∀ p, ¬ (g.ow p).Of a) (q : Nat) :
    let g2 := (g.pop (.root a)).pop (.trapframe a)
    (g2.ow q).Of a → g2.ow q = .root a ∨ g2.ow q = .trapframe a := by
  intro g2 hq
  obtain h | h := (g.pop (.root a)).pop_ow (.trapframe a) q
  · obtain h' | h' := g.pop_ow (.root a) q
    · have heq : g2.ow q = g.ow q := h.trans h'
      rw [heq] at hq
      exact absurd hq (hnone q)
    · exact .inl (h.trans h')
  · exact .inr h

theorem unique_root_trapframe (hnone : ∀ p, ¬ (g.ow p).Of a) :
    ∀ p q, (((g.pop (.root a)).pop (.trapframe a)).ow p).Of a →
      ((g.pop (.root a)).pop (.trapframe a)).ow p =
        ((g.pop (.root a)).pop (.trapframe a)).ow q → p = q := by
  have hu0 : ∀ p q, (g.ow p).Of a → g.ow p = g.ow q → p = q :=
    fun p q hp _ => absurd hp (hnone p)
  have hroot : ∀ q, g.ow q ≠ .root a := by
    intro q hq
    exact hnone q (by rw [hq]; rfl)
  refine unique_pop (unique_pop hu0 hroot) ?_
  intro q hq
  obtain h | h := g.pop_ow (.root a) q
  · rw [h] at hq
    exact hnone q (by rw [hq]; rfl)
  · rw [h] at hq
    exact absurd hq nofun

/-- A fresh address space is exact after `imageBase`. -/
theorem Based.exact (hb : Based L i k g k' g') (hnone : ∀ p, ¬ (g.ow p).Of (.proc i)) :
    Exact k'.mem g' (.proc i) (pcb L k' i .pagetable) := by
  have hlt : L.kernelTables ≤ 1024 := by
    have := L.kernelPages_lt
    unfold Layout.kernelTables
    omega
  have hghost := hb.ghost
  unfold Ghost.base at hghost
  have hu2 := unique_root_trapframe hnone
  have hrole := pop_root_trapframe_ow hnone
  generalize (g.pop (.root (.proc i))).pop (.trapframe (.proc i)) = g2 at *
  have hno : ∀ q n, g2.ow q ≠ .table (.proc i) n := by
    intro q n hq
    obtain h | h := hrole q (by rw [hq]; rfl)
    · exact absurd (h.symm.trans hq) nofun
    · exact absurd (h.symm.trans hq) nofun
  have hcases : ∀ q, g'.ow q = g2.ow q ∨ ∃ j < L.kernelTables, g'.ow q = .table (.proc i) j := by
    rw [hghost]
    exact g2.popMany_ow (.table (.proc i)) L.kernelTables
  refine ⟨?_, ?_, ?_⟩
  · rw [hghost]
    exact unique_popMany hu2 hno L.kernelTables
  · intro q n hq
    obtain h | ⟨j, hj, h⟩ := hcases q
    · exact absurd (h.symm.trans hq) (hno q n)
    · rw [h, Role.table.injEq] at hq
      rw [← hq.2]
      exact ⟨by omega, (hb.hasTable j (by omega)).mpr hj⟩
  · intro q v hq
    obtain h | ⟨j, hj, h⟩ := hcases q
    · rw [h] at hq
      obtain h' | h' := hrole q (by rw [hq]; rfl)
      · exact absurd (h'.symm.trans hq) nofun
      · exact absurd (h'.symm.trans hq) nofun
    · exact absurd (h.symm.trans hq) nofun

/-! ## §2 `buildImage` -/

/-- The second-level tables of an address space with the user pages `pages`,
besides those for the kernel: the trap frame and the stack need one too. -/
def Layout.userTables (L : Layout) (pages : List Nat) : Finset Nat :=
  insert 1023 ((pages.map (· / 1024)).toFinset.filter (fun n => L.kernelTables ≤ n))

/-- The pages that building an address space takes before it takes the stack:
root, trap frame, tables, and one page for each load. -/
def Layout.imagePages (L : Layout) (pages : List Nat) : Nat :=
  2 + L.kernelTables + pages.length + (L.userTables pages).card

/-- A complete address space for slot `i`, made by the loads `loads`. -/
structure Built (L : Layout) (heap : Bool) (i elf : Nat) (k : KState) (g : Ghost)
    (loads : List Load) (p : Nat) (k' : KState) (g' : Ghost) : Prop where
  kmem : KmemInv L k' g'
  grow : Grow L (Role.Of (.proc i)) (L.InPcb i) k g k' g'
  tree : Tree k'.mem g' (.proc i) (pcb L k' i .pagetable)
  leaves : Leaves k'.mem g' (.proc i) (pcb L k' i .pagetable)
  root : pcb L k' i .pagetable ∈ g.free.head?
  trapframe : g'.ow (pcb L k' i .trapframe) = .trapframe (.proc i)
  userStack : pcb L k' i .userStack = p
  page_ow : g'.ow p = .leaf (.proc i) 0xFFFFE
  kernel_map : ∀ v < L.kernelPages, walk k'.mem (pcb L k' i .pagetable) v = some (v * 1024 + 15)
  trap_map : walk k'.mem (pcb L k' i .pagetable) 0xFFFFF = some (pcb L k' i .trapframe / 4 + 7)
  stack_map : walk k'.mem (pcb L k' i .pagetable) 0xFFFFE = some (p / 4 + 31)
  image : ∀ v ld, lastLoad loads v = some ld → v ≠ 0xFFFFE → v ≠ 0xFFFFF →
    ∃ q, L.IsPage q ∧ g'.ow q = .leaf (.proc i) v ∧
      walk k'.mem (pcb L k' i .pagetable) v = some (q / 4 + 31) ∧ PageHolds L i k.mem ld k'.mem q
  rest : ∀ v < 2 ^ 20, L.kernelPages ≤ v → v ≠ 0xFFFFE → v ≠ 0xFFFFF → lastLoad loads v = none →
    walk k'.mem (pcb L k' i .pagetable) v = none
  stack_zero : ∀ x < 4096, k'.mem (p + x) = 0
  epc : trapWord L k' i tfEpc = elfEntry k elf
  sp : trapWord L k' i tfSp = vaUserStackInit
  field_eq : ∀ f : PcbField, f.InStruct → f ≠ .pagetable → f ≠ .trapframe → f ≠ .context 0 →
    f ≠ .context 1 → f ≠ .userStack → f ≠ .freeHeapPage → pcb L k' i f = pcb L k i f
  heapPage : pcb L k' i .freeHeapPage =
    if heap then (pcb L k i .freeHeapPage + 4096 * loads.length) % 2 ^ 32
    else pcb L k i .freeHeapPage
  free : g'.free = g.free.drop (L.imagePages (loads.map Load.page) + 1)
  stack_head : p ∈ (g.free.drop (L.imagePages (loads.map Load.page))).head?
  count : 0xFFFFE ∉ loads.map Load.page → heapCount L g i + loads.length ≤ heapCount L g' i
  exact : (∀ q, ¬ (g.ow q).Of (.proc i)) → (loads.map Load.page).Nodup →
    (∀ v ∈ loads.map Load.page, v < 0xFFFFE) →
    Exact k'.mem g' (.proc i) (pcb L k' i .pagetable)

/-- `buildImage` stage by stage. -/
theorem buildImage_stages {elf : Nat} (h : buildImage L heap k i elf = some (p, k')) :
    ∃ k1 k2 k3, imageBase L k i = some k1 ∧ k2 = setTrapWord L k1 i tfEpc (elfEntry k1 elf) ∧
      forLoop (elfPhnum k2 elf) (loadSegment L heap i elf) k2 = some k3 ∧
      imageStack L k3 i = some (p, k') := by
  unfold buildImage at h
  cases hbase : imageBase L k i with
  | none => simp [hbase] at h
  | some k1 =>
    simp only [hbase] at h
    generalize hk2 : setTrapWord L k1 i tfEpc (elfEntry k1 elf) = k2 at h
    cases hload : forLoop (elfPhnum k2 elf) (loadSegment L heap i elf) k2 with
    | none => simp [hload] at h
    | some k3 =>
      simp only [hload] at h
      exact ⟨k1, k2, k3, rfl, hk2.symm, hload, h⟩

/-- The address space when the loading of the segments starts. -/
structure ImageStart (L : Layout) (i elf : Nat) (k : KState) (g : Ghost) (k' : KState)
    (g' : Ghost) : Prop where
  ghost : g' = g.base L (.proc i)
  root : pcb L k' i .pagetable ∈ g.free.head?
  kmem : KmemInv L k' g'
  tree : Tree k'.mem g' (.proc i) (pcb L k' i .pagetable)
  leaves : Leaves k'.mem g' (.proc i) (pcb L k' i .pagetable)
  trapframe : g'.ow (pcb L k' i .trapframe) = .trapframe (.proc i)
  grow : Grow L (Role.Of (.proc i)) (L.InPcb i) k g k' g'
  field_eq : ∀ f : PcbField, f.InStruct → f ≠ .pagetable → f ≠ .trapframe → f ≠ .context 0 →
    f ≠ .context 1 → pcb L k' i f = pcb L k i f
  hasTable : ∀ n < 1024, HasTable k'.mem (pcb L k' i .pagetable) n ↔ n < L.kernelTables
  walk_eq : ∀ v < 2 ^ 20, walk k'.mem (pcb L k' i .pagetable) v =
    if v < L.kernelPages then some (v * 1024 + 15) else none
  epc : trapWord L k' i tfEpc = elfEntry k elf
  exact : (∀ q, ¬ (g.ow q).Of (.proc i)) → Exact k'.mem g' (.proc i) (pcb L k' i .pagetable)

theorem imageStart_spec {k1 : KState} (hk : KmemInv L k g) (hi : i < 8) (hidx : idx < 12)
    (hbase : imageBase L k i = some k1)
    (hk' : k' = setTrapWord L k1 i tfEpc (elfEntry k1 (L.fsData idx))) :
    ∃ g', ImageStart L i (L.fsData idx) k g k' g' := by
  obtain ⟨g1, hb⟩ := imageBase_spec hk hi hbase
  have hepc : tfEpc < 1024 := by decide
  obtain ⟨hk2, hg2⟩ := setTrapWord_grow (W := L.InPcb i) (x := elfEntry k1 (L.fsData idx))
    hb.kmem hb.trapframe hepc
  have hf2 : ∀ f : PcbField, f.InStruct →
      pcb L (setTrapWord L k1 i tfEpc (elfEntry k1 (L.fsData idx))) i f = pcb L k1 i f :=
    fun f hf => pcb_setTrapWord hb.kmem hb.trapframe hepc hi hf
  have hword : trapWord L (setTrapWord L k1 i tfEpc (elfEntry k1 (L.fsData idx))) i tfEpc =
      elfEntry k1 (L.fsData idx) :=
    trapWord_setTrapWord_same hb.kmem hi hb.trapframe hepc (load32_lt _ _)
  rw [← hk'] at hk2 hg2 hf2 hword
  have hS : ∀ c, c = Role.trapframe (.proc i) → ¬ c.TableOf (.proc i) := by
    intro c hc htab
    rw [hc] at htab
    exact htab
  have hpt2 := hf2 .pagetable trivial
  have hw2 : ∀ v < 2 ^ 20, walk k'.mem (pcb L k' i .pagetable) v =
      if v < L.kernelPages then some (v * 1024 + 15) else none := by
    intro v hv
    rw [hpt2, hb.tree.walk_grow hb.kmem hg2 hS hv, hb.walk_eq v hv]
  refine ⟨g1, hb.ghost, by rw [hpt2]; exact hb.root, hk2, ?_, ?_, ?_, ?_, ?_, ?_, hw2, ?_, ?_⟩
  · rw [hpt2]
    exact hb.tree.grow hb.kmem hg2 hS
  · intro v hv e he hU
    rw [hw2 v hv] at he
    split at he
    · rw [Option.some.injEq] at he
      rw [← he, and_sixteen_ne_zero] at hU
      omega
    · exact absurd he nofun
  · rw [hf2 .trapframe trivial, hb.trapframe]
  · refine hb.grow.trans (hg2.mono ?_ (fun _ h => h))
    intro c hc
    rw [hc]
    rfl
  · intro f hf h1 h2 h3 h4
    rw [hf2 f hf, hb.field_eq f hf h1 h2 h3 h4]
  · intro n hn
    rw [hpt2, hb.tree.hasTable_grow hb.kmem hg2 hS hn, hb.hasTable n hn]
  · rw [hword]
    exact (hb.grow.sameFile hi hidx).entry
  · intro hnone
    rw [hpt2]
    exact (hb.exact hnone).congr
      (fun n hn hT => (hb.tree.hasTable_grow hb.kmem hg2 hS hn).mpr hT)
      (fun v hv => hb.tree.walk_grow hb.kmem hg2 hS hv)

/-- The free list when the stack is taken. -/
theorem ImageStart.free_stack {k1 k2 : KState} {g1 g2 : Ghost} {elf : Nat} {loads : List Load}
    (hs : ImageStart L i elf k g k1 g1) (hld : Loaded L heap i k1 g1 loads k2 g2) :
    (g2.needTable k2.mem (.proc i) (pcb L k2 i .pagetable) 1023).free =
      g.free.drop (L.imagePages (loads.map Load.page)) := by
  have hkt := L.kernelTables_le
  have hlt : ∀ n ∈ (loads.map Load.page).map (· / 1024), n < 1024 := by
    intro n hn
    obtain ⟨v, hv, rfl⟩ := List.mem_map.mp hn
    obtain ⟨ld, hld', rfl⟩ := List.mem_map.mp hv
    have := (hld.bounds ld hld').1
    omega
  have hnew : newTables k1.mem (pcb L k1 i .pagetable) (loads.map Load.page) =
      ((loads.map Load.page).map (· / 1024)).toFinset.filter (fun n => L.kernelTables ≤ n) := by
    apply Finset.filter_congr
    intro n hn
    rw [hs.hasTable n (hlt n (List.mem_toFinset.mp hn)), Nat.not_lt]
  have hlast : HasTable k2.mem (pcb L k2 i .pagetable) 1023 ↔
      1023 ∈ (loads.map Load.page).map (· / 1024) := by
    rw [hld.field_eq .pagetable trivial nofun, hld.hasTable _ (by decide),
      hs.hasTable _ (by decide)]
    constructor
    · rintro (h | h)
      · exact h
      · omega
    · exact .inl
  rw [Ghost.needTable_free, hld.free, hnew, hs.ghost, Ghost.base_free, List.drop_drop,
    List.drop_drop]
  refine congrArg (fun n => g.free.drop n) ?_
  unfold Layout.imagePages Layout.userTables
  rw [List.length_map]
  by_cases hmem : 1023 ∈ (loads.map Load.page).map (· / 1024)
  · rw [if_pos (hlast.mpr hmem), Finset.insert_eq_of_mem]
    · omega
    · rw [Finset.mem_filter, List.mem_toFinset]
      exact ⟨hmem, by omega⟩
  · rw [if_neg (fun h => hmem (hlast.mp h)), Finset.card_insert_of_notMem]
    · omega
    · rw [Finset.mem_filter, List.mem_toFinset]
      exact fun h => hmem h.1

/-- The stages put together. -/
theorem Loaded.built {k1 k2 : KState} {g1 g2 : Ghost} {elf : Nat} {loads : List Load}
    (hs : ImageStart L i elf k g k1 g1) (hld : Loaded L heap i k1 g1 loads k2 g2)
    (hbase : ∀ v ∈ loads.map Load.page, 0xC0000 ≤ v) (hi : i < 8)
    (h : imageStack L k2 i = some (p, k')) : ∃ g', Built L heap i elf k g loads p k' g' := by
  have hle := L.kernelPages_lt
  have hpt2 := hld.field_eq .pagetable trivial nofun
  have htf2 := hld.field_eq .trapframe trivial nofun
  have htfow2 : g2.ow (pcb L k2 i .trapframe) = .trapframe (.proc i) := by
    rw [htf2, hld.grow.keep _ (by rw [hs.trapframe]; exact nofun), hs.trapframe]
  obtain ⟨g', hst⟩ := imageStack_spec hld.kmem (by rw [hpt2]; exact hld.tree)
    (by rw [hpt2]; exact hld.leaves) hi htfow2 h
  have hpt' : pcb L k' i .pagetable = pcb L k2 i .pagetable :=
    hst.field_eq .pagetable trivial nofun
  have htf' : pcb L k' i .trapframe = pcb L k2 i .trapframe :=
    hst.field_eq .trapframe trivial nofun
  have hgrow2 : Grow L (Role.Of (.proc i)) (L.InPcb i) k g k2 g2 :=
    hs.grow.trans (hld.grow.mono (fun _ h => h.of) (fun _ h => h))
  have hstable : ∀ x, L.Stable i x → k1.mem x = k.mem x :=
    fun x hx => hs.grow.static_mem x hx.1 hx.2
  -- pages without a load are as they were before the segments
  have hw2 : ∀ v < 2 ^ 20, v ∉ loads.map Load.page → walk k2.mem (pcb L k2 i .pagetable) v =
      if v < L.kernelPages then some (v * 1024 + 15) else none := by
    intro v hv hno
    rw [hpt2, hld.walk_other v hv hno, hs.walk_eq v hv]
  have hfree2 := hs.free_stack hld
  refine ⟨g', hst.kmem, hgrow2.trans hst.grow, by rw [hpt']; exact hst.tree,
    by rw [hpt']; exact hst.leaves, ?_, ?_, hst.userStack, hst.page_ow, ?_, ?_, ?_, ?_, ?_,
    hst.zero, ?_, hst.sp, ?_, ?_, ?_, ?_, ?_, ?_⟩
  · rw [hpt', hpt2]
    exact hs.root
  · rw [htf', hst.grow.keep _ (by rw [htfow2]; exact nofun), htfow2]
  · intro v hv
    have hno : v ∉ loads.map Load.page := by
      intro hmem
      have := hbase v hmem
      omega
    rw [hpt', hst.walk_eq v (by omega), if_neg (by omega), if_neg (by omega),
      hw2 v (by omega) hno, if_pos hv]
  · rw [hpt', htf', hst.walk_eq _ (by omega), if_neg (by omega), if_pos rfl]
  · rw [hpt', hst.walk_eq _ (by omega), if_pos rfl]
  · intro v ld hlast h1 h2
    obtain ⟨hmem, hpage⟩ := lastLoad_mem hlast
    obtain ⟨hv20, hlen⟩ := hld.bounds ld hmem
    rw [hpage] at hv20
    obtain ⟨q, hq, how, hwq, hholds⟩ := hld.image v ld hlast
    refine ⟨q, hq, ?_, ?_, ?_⟩
    · rw [hst.grow.keep q (by rw [how]; exact nofun), how]
    · rw [hpt', hst.walk_eq v hv20, if_neg h1, if_neg h2, hpt2, hwq]
    · have hfinal := hholds.congr (hst.leaf_bytes q v h1 how) hlen
      exact ⟨fun x hx hsx => (hfinal.copied x hx hsx).trans (hstable _ hsx), hfinal.zero⟩
  · intro v hv hker h1 h2 hlast
    rw [hpt', hst.walk_eq v hv, if_neg h1, if_neg h2, hw2 v hv (lastLoad_eq_none.mp hlast),
      if_neg (by omega)]
  · rw [hst.words _ (by decide) (by decide), ← hs.epc]
    exact trapWord_grow hld.grow hs.kmem hs.trapframe id htf2 (by decide)
  · intro f hf h1 h2 h3 h4 h5 h6
    rw [hst.field_eq f hf h5, hld.field_eq f hf h6, hs.field_eq f hf h1 h2 h3 h4]
  · rw [hst.field_eq .freeHeapPage trivial nofun, hld.heapPage,
      hs.field_eq .freeHeapPage trivial nofun nofun nofun nofun]
  · rw [hst.ghost, Ghost.stack, Ghost.pop_free, hfree2, List.tail_drop]
  · have hhead := hst.head
    rwa [hfree2] at hhead
  · intro hno
    have h1 := heapCount_mono (L := L) (i := i) hs.grow.heapLeaf
    have h2 := hld.count hno
    have h3 := heapCount_mono (L := L) (i := i) hst.grow.heapLeaf
    omega
  · intro hnone hnd hbelow
    have he2 := hld.exact (hs.exact hnone) hnd (by
      intro v hmem
      have h1 := hbase v hmem
      have h2 := hbelow v hmem
      rw [hs.walk_eq v (by omega), if_neg (by omega)])
    rw [← hpt2] at he2
    have hno : ∀ v, 0xFFFFE ≤ v → v ∉ loads.map Load.page := by
      intro v hv hmem
      have := hbelow v hmem
      omega
    rw [hpt']
    exact hst.exact he2 (by rw [hw2 _ (by omega) (hno _ (by omega)), if_neg (by omega)])
      (by rw [hw2 _ (by omega) (hno _ (by omega)), if_neg (by omega)])

/-- Where `buildImage` can fail. -/
theorem buildImage_none_stages {elf : Nat} (h : buildImage L heap k i elf = none) :
    imageBase L k i = none ∨ ∃ k1 k2, imageBase L k i = some k1 ∧
      k2 = setTrapWord L k1 i tfEpc (elfEntry k1 elf) ∧
      (forLoop (elfPhnum k2 elf) (loadSegment L heap i elf) k2 = none ∨
        ∃ k3, forLoop (elfPhnum k2 elf) (loadSegment L heap i elf) k2 = some k3 ∧
          imageStack L k3 i = none) := by
  unfold buildImage at h
  cases hbase : imageBase L k i with
  | none => exact .inl rfl
  | some k1 =>
    simp only [hbase] at h
    generalize hk2 : setTrapWord L k1 i tfEpc (elfEntry k1 elf) = k2 at h
    refine .inr ⟨k1, k2, rfl, hk2.symm, ?_⟩
    cases hload : forLoop (elfPhnum k2 elf) (loadSegment L heap i elf) k2 with
    | none => exact .inl rfl
    | some k3 =>
      simp only [hload] at h
      exact .inr ⟨k3, rfl, h⟩

/-- `buildImage` fails only for lack of pages. -/
theorem buildImage_none (hk : KmemInv L k g) (hi : i < 8) (hidx : idx < 12)
    (hok : ElfAbove k (L.fsData idx)) (h : buildImage L heap k i (L.fsData idx) = none) :
    g.free.length < 4 + L.kernelTables + 2 * (elfLoads k (L.fsData idx)).length := by
  obtain hbase | ⟨k1, k2, hbase, hk2, h⟩ := buildImage_none_stages h
  · have := imageBase_none hk hi hbase
    omega
  obtain ⟨g2, hs⟩ := imageStart_spec hk hi hidx hbase hk2
  have hfile := hs.grow.sameFile hi hidx
  have hok2 := hfile.elfAbove hidx hok
  have hlen2 : g2.free.length = g.free.length - (2 + L.kernelTables) := by
    rw [hs.ghost, Ghost.base_free, List.length_drop]
  obtain hload | ⟨k3, hload, h⟩ := h
  · have := loadSegments_none hs.kmem hs.tree hs.leaves hi hidx hok2.headers hload
    rw [hfile.loads hidx hok.headers] at this
    omega
  · obtain ⟨g3, hld⟩ := loadSegments_spec hs.kmem hs.tree hs.leaves hi hidx hok2.headers hload
    have hpt3 := hld.field_eq .pagetable trivial nofun
    have htf3 := hld.field_eq .trapframe trivial nofun
    have hlt := imageStack_none hld.kmem (by rw [hpt3]; exact hld.tree) hi (by
      rw [htf3, hld.grow.keep _ (by rw [hs.trapframe]; exact nofun), hs.trapframe]) h
    have hfree := congrArg List.length hld.free
    have hnew := card_newTables_le k2.mem (pcb L k2 i .pagetable)
      ((elfLoads k2 (L.fsData idx)).map Load.page)
    rw [List.length_drop] at hfree
    rw [List.length_map] at hnew
    rw [hfile.loads hidx hok.headers] at hfree hnew
    omega

/-- `buildImage` on an image whose segments are above `VA_USER_BASE`. -/
theorem buildImage_spec (hk : KmemInv L k g) (hi : i < 8) (hidx : idx < 12)
    (hok : ElfAbove k (L.fsData idx)) (h : buildImage L heap k i (L.fsData idx) = some (p, k')) :
    ∃ g', Built L heap i (L.fsData idx) k g (elfLoads k (L.fsData idx)) p k' g' := by
  obtain ⟨k1, k2, k3, hbase, hk2eq, hload, h⟩ := buildImage_stages h
  obtain ⟨g2, hs⟩ := imageStart_spec hk hi hidx hbase hk2eq
  have hfile := hs.grow.sameFile hi hidx
  have hok2 := hfile.elfAbove hidx hok
  obtain ⟨g3, hld⟩ := loadSegments_spec hs.kmem hs.tree hs.leaves hi hidx hok2.headers hload
  rw [hfile.loads hidx hok.headers] at hld
  refine hld.built hs ?_ hi h
  intro v hmem
  rw [← elfPages_eq] at hmem
  exact hok.base v hmem

end Risky321.Kernel
