/-
Risky321.Kernel.BootTheorems — the state in which `kernel_main` leaves the
kernel.

§1 `kmem_init`: the free list holds all 16384 pages, the highest first, so
the pages the kernel takes afterwards are known one by one. §2 the kernel's
page table, the control blocks and the virtio pages: the invariant holds,
with all slots unused, before the first process is created. §3 the whole of
`boot`.
-/
import Risky321.Kernel.ForkTheorems
import Risky321.Lib.PageStack

namespace Risky321.Kernel

open Risky321.Lib

variable {L : Layout} {k k' : KState} {g g' : Ghost} {i n p v : Nat} {m : Mem}

/-! ## §1 The free list -/

/-- The first `n` pages of the free region, the highest first. -/
def Layout.pagesDown (L : Layout) : Nat → List Nat
  | 0 => []
  | n + 1 => (L.freeRamBegin + n * 4096) :: L.pagesDown n

theorem Layout.pagesDown_eq (L : Layout) (n : Nat) :
    L.pagesDown n = Lib.pagesDown 4096 L.freeRamBegin n := by
  induction n with
  | zero => rfl
  | succ n ih => rw [pagesDown, Lib.pagesDown, ih]

@[simp] theorem Layout.length_pagesDown (L : Layout) (n : Nat) : (L.pagesDown n).length = n := by
  rw [pagesDown_eq, Lib.length_pagesDown]

theorem Layout.drop_pagesDown (L : Layout) (j n : Nat) :
    (L.pagesDown n).drop j = L.pagesDown (n - j) := by
  induction n generalizing j with
  | zero => rw [Nat.zero_sub, pagesDown, List.drop_nil]
  | succ n ih =>
    cases j with
    | zero => rw [List.drop_zero, Nat.sub_zero]
    | succ j => rw [pagesDown, List.drop_succ_cons, ih, Nat.succ_sub_succ]

theorem Layout.mem_pagesDown {n : Nat} :
    p ∈ L.pagesDown n ↔ ∃ j < n, p = L.freeRamBegin + j * 4096 := by
  rw [pagesDown_eq, Lib.mem_pagesDown]

/-- The pages of the free region are the list of all 16384. -/
theorem Layout.mem_pagesDown_iff : p ∈ L.pagesDown 16384 ↔ L.IsPage p := by
  have hal := L.begin_aligned
  rw [mem_pagesDown]
  simp only [IsPage, freeRamEnd]
  constructor
  · rintro ⟨j, hj, rfl⟩
    omega
  · rintro ⟨h1, h2, h3⟩
    exact ⟨(p - L.freeRamBegin) / 4096, by omega, by omega⟩

theorem Layout.nodup_pagesDown (L : Layout) (n : Nat) : (L.pagesDown n).Nodup := by
  rw [pagesDown_eq]
  exact pagesDown_nodup (by decide)

/-- There are no more than 16384 pages. -/
theorem Layout.length_pages_le {l : List Nat} (hnd : l.Nodup) (hl : ∀ p ∈ l, L.IsPage p) :
    l.length ≤ 16384 := by
  have hle := (hnd.subperm fun p hp => mem_pagesDown_iff.mpr (hl p hp)).length_le
  rwa [length_pagesDown] at hle

/-- The roles when `n` pages have been freed. -/
def Layout.initGhost (L : Layout) : Nat → Ghost
  | 0 => { ow := fun _ => .lost, free := [] }
  | n + 1 => (L.initGhost n).push (L.freeRamBegin + n * 4096)

theorem Layout.initGhost_free (L : Layout) (n : Nat) : (L.initGhost n).free = L.pagesDown n := by
  induction n with
  | zero => rfl
  | succ n ih => rw [initGhost, Ghost.push, pagesDown, ih]

theorem Layout.initGhost_ow (L : Layout) (n p : Nat) :
    (L.initGhost n).ow p = if ∃ j < n, p = L.freeRamBegin + j * 4096 then .free else .lost := by
  induction n with
  | zero =>
    rw [if_neg]
    · rfl
    · rintro ⟨j, hj, -⟩
      omega
  | succ n ih =>
    simp only [initGhost, Ghost.push]
    by_cases hp : p = L.freeRamBegin + n * 4096
    · rw [if_pos ⟨n, by omega, hp⟩, hp, Function.update_self]
    · rw [Function.update_of_ne hp, ih]
      refine if_congr ⟨?_, ?_⟩ rfl rfl
      · rintro ⟨j, hj, h⟩
        exact ⟨j, by omega, h⟩
      · rintro ⟨j, hj, h⟩
        refine ⟨j, ?_, h⟩
        by_contra hjn
        exact hp (by rw [h, show j = n by omega])

/-- What is left alone while the pages are freed. -/
structure SameStatic (L : Layout) (k k' : KState) : Prop where
  mem : ∀ x < L.freeRamBegin, k'.mem x = k.mem x
  current : k'.current = k.current

/-- `kmem_init` after `n` rounds. -/
theorem kmemInit_rounds (L : Layout) (m : Mem) (hn : n ≤ 16384) :
    let k := (List.range n).foldl (fun k i => kmemFree k (L.freeRamBegin + i * pageSize))
      (KState.init m)
    KmemInv L k (L.initGhost n) ∧ SameStatic L (KState.init m) k := by
  induction n with
  | zero =>
    refine ⟨⟨rfl, List.nodup_nil, ?_, ?_⟩, ⟨fun _ _ => rfl, rfl⟩⟩
    · intro p
      simp [Layout.initGhost]
    · intro p hp
      exact absurd rfl hp
  | succ n ih =>
    obtain ⟨hk, hs⟩ := ih (by omega)
    rw [List.range_succ, List.foldl_append, List.foldl_cons, List.foldl_nil]
    generalize (List.range n).foldl (fun k i => kmemFree k (L.freeRamBegin + i * pageSize))
      (KState.init m) = k at *
    have hal := L.begin_aligned
    have hpage : L.IsPage (L.freeRamBegin + n * 4096) := by
      refine ⟨by omega, ?_, by omega⟩
      simp only [Layout.freeRamEnd]
      omega
    have hlost : (L.initGhost n).ow (L.freeRamBegin + n * 4096) ≠ .free := by
      rw [L.initGhost_ow, if_neg]
      · simp
      · rintro ⟨j, hj, h⟩
        omega
    refine ⟨kmemFree_spec hk hpage hlost, ⟨?_, hs.current⟩⟩
    intro x hx
    have hout : (kmemFree k (L.freeRamBegin + n * pageSize)).mem x = k.mem x :=
      store32_outside _ _ _ (by simp only [pageSize]; omega)
    rw [hout, hs.mem x hx]

theorem Layout.pages_eq (L : Layout) : (L.freeRamEnd - L.freeRamBegin) / pageSize = 16384 := by
  simp only [freeRamEnd, pageSize, Nat.add_sub_cancel_left]

/-- `kmem_init`: every page is free. -/
theorem kmemInit_spec (L : Layout) (m : Mem) :
    KmemInv L (kmemInit L (KState.init m)) (L.initGhost 16384) ∧
      SameStatic L (KState.init m) (kmemInit L (KState.init m)) := by
  unfold kmemInit
  rw [L.pages_eq]
  exact kmemInit_rounds L m (le_refl _)

/-! ## §2 Up to the first process -/

theorem SameStatic.trans {k1 : KState} (h : SameStatic L k k1) (h' : SameStatic L k1 k') :
    SameStatic L k k' :=
  ⟨fun x hx => (h'.mem x hx).trans (h.mem x hx), h'.current.trans h.current⟩

theorem Grow.sameStatic {S : Role → Prop} (h : Grow L S (fun _ => False) k g k' g') :
    SameStatic L k k' :=
  ⟨fun x hx => h.static_mem x hx id, h.current⟩

/-- The roles once the kernel has its page table. -/
def Ghost.kernelSpace (g : Ghost) (L : Layout) : Ghost :=
  (g.pop (.root .kernel)).popMany (.table .kernel) L.kernelTables

/-- The kernel's tables are all in use. -/
theorem kernelSpace_exact {m : Mem} {r : Nat} (hnone : ∀ p, ¬ (g.ow p).Of .kernel)
    (hT : ∀ n < 1024, HasTable m r n ↔ 1024 * n < L.kernelPages) :
    Exact m (g.kernelSpace L) .kernel r := by
  have hle := L.kernelPages_lt
  have hlt : ∀ n < L.kernelTables, 1024 * n < L.kernelPages ∧ n < 1024 := by
    intro n hn
    simp only [Layout.kernelTables] at hn
    omega
  have hroot : ∀ q, ((g.pop (.root .kernel)).ow q).Of .kernel →
      (g.pop (.root .kernel)).ow q = .root .kernel := by
    intro q hq
    obtain h | h := g.pop_ow (.root .kernel) q
    · exact absurd (h ▸ hq) (hnone q)
    · exact h
  have hu : ∀ p q, ((g.pop (.root .kernel)).ow p).Of .kernel →
      (g.pop (.root .kernel)).ow p = (g.pop (.root .kernel)).ow q → p = q :=
    unique_pop (fun p _ hp => absurd hp (hnone p)) (fun q hq => hnone q (by rw [hq]; rfl))
  rw [Ghost.kernelSpace]
  generalize L.kernelTables = tables at *
  generalize g.pop (.root .kernel) = g1 at *
  have hno : ∀ q n, g1.ow q ≠ .table .kernel n := by
    intro q n hq
    exact absurd ((hroot q (by rw [hq]; rfl)).symm.trans hq) (by simp)
  have hcases := g1.popMany_ow (.table .kernel) tables
  refine ⟨unique_popMany hu hno tables, ?_, ?_⟩
  · intro q n hq
    obtain h | ⟨j, hj, h⟩ := hcases q
    · exact absurd (h.symm.trans hq) (hno q n)
    · have hjn : j = n := by simpa using h.symm.trans hq
      rw [hjn] at hj
      exact ⟨(hlt n hj).2, (hT n (hlt n hj).2).mpr (hlt n hj).1⟩
  · intro q v hq
    obtain h | ⟨j, hj, h⟩ := hcases q
    · have hq' := h.symm.trans hq
      exact absurd ((hroot q (by rw [hq']; rfl)).symm.trans hq') (by simp)
    · exact absurd (h.symm.trans hq) (by simp)

/-- `kvmem_init_kernel`. -/
theorem kvmemInitKernel_spec (hk : KmemInv L k g) (h : kvmemInitKernel L k = some k') :
    KmemInv L k' (g.kernelSpace L) ∧ Tree k'.mem (g.kernelSpace L) .kernel k'.kernelPagetable ∧
      SameStatic L k k' ∧ ((∀ p, ¬ (g.ow p).Of .kernel) →
        Exact k'.mem (g.kernelSpace L) .kernel k'.kernelPagetable) := by
  unfold kvmemInitKernel at h
  cases hal : kmemAlloc k with
  | none => simp [hal] at h
  | some tk =>
    obtain ⟨t, k1⟩ := tk
    simp only [hal] at h
    obtain ⟨-, -, -, -, hinv⟩ := kmemAlloc_spec hk hal
    obtain ⟨hpow, -⟩ := kmemAlloc_pop_ow hk hal (.root .kernel)
    have hg1 : Grow L (Role.TableOf .kernel) (fun _ => False) k g k1 (g.pop (.root .kernel)) :=
      kmemAlloc_grow hk hal rfl
    have hk1 : KmemInv L { k1 with kernelPagetable := t } (g.pop (.root .kernel)) :=
      (hinv (.root .kernel) nofun).congr rfl (fun _ _ _ _ => rfl)
    have hempty : ∀ n < 1024, ¬ HasTable k1.mem t n := by
      intro n hn
      rw [HasTable, kmemAlloc_load_new hk hal (show 4 * n + 4 ≤ 4096 by omega)]
      simp
    have ht1 : Tree k1.mem (g.pop (.root .kernel)) .kernel t :=
      ⟨hpow, fun n hn hT => absurd hT (hempty n hn)⟩
    obtain ⟨g', hm⟩ := mapKernel_spec (W := fun _ => False) hk1 ht1 hempty h
    have hg' : g' = g.kernelSpace L := hm.ghost
    have hroot : k'.kernelPagetable = t := hm.grow.kernelPagetable
    rw [hroot]
    refine ⟨by rw [← hg']; exact hm.kmem, by rw [← hg']; exact hm.tree,
      hg1.sameStatic.trans ⟨fun x hx => hm.grow.static_mem x hx id, hm.grow.current⟩, ?_⟩
    intro hnone
    exact kernelSpace_exact hnone hm.hasTable

theorem kvmemInitKernel_none (hk : KmemInv L k g) (h : kvmemInitKernel L k = none) :
    g.free.length < 1 + L.kernelTables := by
  unfold kvmemInitKernel at h
  cases hal : kmemAlloc k with
  | none =>
    rw [kmemAlloc_none hk hal, List.length_nil]
    omega
  | some tk =>
    obtain ⟨t, k1⟩ := tk
    simp only [hal] at h
    obtain ⟨hl, -, -, -, hinv⟩ := kmemAlloc_spec hk hal
    obtain ⟨hpow, -⟩ := kmemAlloc_pop_ow hk hal (.root .kernel)
    have hk1 : KmemInv L { k1 with kernelPagetable := t } (g.pop (.root .kernel)) :=
      (hinv (.root .kernel) nofun).congr rfl (fun _ _ _ _ => rfl)
    have hempty : ∀ n < 1024, ¬ HasTable k1.mem t n := by
      intro n hn
      rw [HasTable, kmemAlloc_load_new hk hal (show 4 * n + 4 ≤ 4096 by omega)]
      simp
    have ht1 : Tree k1.mem (g.pop (.root .kernel)) .kernel t :=
      ⟨hpow, fun n hn hT => absurd hT (hempty n hn)⟩
    have hlt := mapKernel_none hk1 ht1 hempty h
    rw [Ghost.pop_free] at hlt
    rw [hl, List.length_cons]
    omega

/-- The static addresses of the control blocks. -/
def Layout.InPcbs (L : Layout) (x : Nat) : Prop := ∃ i < 8, L.InPcb i x

/-- `kproc_init` after `n` rounds. -/
structure ProcsReset (L : Layout) (n : Nat) (k : KState) (g : Ghost) (k' : KState) : Prop where
  kmem : KmemInv L k' g
  grow : Grow L (fun _ => False) L.InPcbs k g k' g
  state : ∀ i < n, pcb L k' i .state = ProcState.unused.code
  kernelStackTop : ∀ i < n, pcb L k' i .kernelStackTop = L.proc i + sizeofProcess
  freeHeapPage : ∀ i < n, pcb L k' i .freeHeapPage = vaUserBase
  field_eq : ∀ i < 8, ∀ f : PcbField, f.InStruct → f ≠ .state → f ≠ .kernelStackTop →
    f ≠ .freeHeapPage → pcb L k' i f = pcb L k i f

theorem setPcb_grow_pcbs {f : PcbField} (hi : i < 8) (hf : f.InStruct) :
    Grow L (fun _ => False) L.InPcbs k g (setPcb L k i f v) g :=
  (setPcb_grow hi hf).mono (fun _ h => h) (fun _ h => ⟨i, hi, h⟩)

theorem kprocInit_rounds (hk : KmemInv L k g) (hn : n ≤ 8) :
    ProcsReset L n k g ((List.range n).foldl
      (fun k i =>
        let k := setPcb L k i .state ProcState.unused.code
        let k := setPcb L k i .kernelStackTop (L.proc i + sizeofProcess)
        setPcb L k i .freeHeapPage vaUserBase) k) := by
  induction n with
  | zero => exact ⟨hk, Grow.refl k g, by simp, by simp, by simp, fun _ _ _ _ _ _ _ => rfl⟩
  | succ n ih =>
    have hr := ih (by omega)
    rw [List.range_succ, List.foldl_append, List.foldl_cons, List.foldl_nil]
    generalize (List.range n).foldl
      (fun k i =>
        let k := setPcb L k i .state ProcState.unused.code
        let k := setPcb L k i .kernelStackTop (L.proc i + sizeofProcess)
        setPcb L k i .freeHeapPage vaUserBase) k = k1 at *
    simp only
    have hn8 : n < 8 := by omega
    have hb := L.proc_bound hn8
    have hend := L.end_le
    simp only [vaUserBase] at hend
    have hother : ∀ i < 8, i ≠ n → ∀ f : PcbField, f.InStruct →
        pcb L (setPcb L (setPcb L (setPcb L k1 n .state ProcState.unused.code) n .kernelStackTop
          (L.proc n + sizeofProcess)) n .freeHeapPage vaUserBase) i f = pcb L k1 i f := by
      intro i hi hne f hf
      rw [pcb_setPcb_of_ne_slot (g := .freeHeapPage) hf trivial hne,
        pcb_setPcb_of_ne_slot (g := .kernelStackTop) hf trivial hne,
        pcb_setPcb_of_ne_slot (g := .state) hf trivial hne]
    refine ⟨?_, ?_, ?_, ?_, ?_, ?_⟩
    · exact ((hr.kmem.setPcb (f := .state) hn8 trivial).setPcb (f := .kernelStackTop) hn8
        trivial).setPcb (f := .freeHeapPage) hn8 trivial
    · exact ((hr.grow.trans (setPcb_grow_pcbs (f := .state) hn8 trivial)).trans
        (setPcb_grow_pcbs (f := .kernelStackTop) hn8 trivial)).trans
        (setPcb_grow_pcbs (f := .freeHeapPage) hn8 trivial)
    · intro i hi
      by_cases hin : i = n
      · rw [hin, pcb_setPcb_of_ne_field (f := .state) (g := .freeHeapPage) trivial trivial nofun,
          pcb_setPcb_of_ne_field (f := .state) (g := .kernelStackTop) trivial trivial nofun,
          pcb_setPcb_same (by decide)]
      · rw [hother i (by omega) hin .state trivial, hr.state i (by omega)]
    · intro i hi
      by_cases hin : i = n
      · rw [hin, pcb_setPcb_of_ne_field (f := .kernelStackTop) (g := .freeHeapPage) trivial trivial
          nofun, pcb_setPcb_same (by omega)]
      · rw [hother i (by omega) hin .kernelStackTop trivial, hr.kernelStackTop i (by omega)]
    · intro i hi
      by_cases hin : i = n
      · rw [hin, pcb_setPcb_same (by decide)]
      · rw [hother i (by omega) hin .freeHeapPage trivial, hr.freeHeapPage i (by omega)]
    · intro i hi f hf h1 h2 h3
      by_cases hin : i = n
      · rw [hin, pcb_setPcb_of_ne_field (g := .freeHeapPage) hf trivial h3,
          pcb_setPcb_of_ne_field (g := .kernelStackTop) hf trivial h2,
          pcb_setPcb_of_ne_field (g := .state) hf trivial h1, hr.field_eq n hn8 f hf h1 h2 h3]
      · rw [hother i hi hin f hf, hr.field_eq i hi f hf h1 h2 h3]

/-- `kproc_init`. -/
theorem kprocInit_spec (hk : KmemInv L k g) : ProcsReset L 8 k g (kprocInit L k) :=
  kprocInit_rounds hk (le_refl _)

/-- The answers with which `virtio_blk_init` does not panic. -/
def VirtioRegs.Ok (dev : VirtioRegs) : Prop :=
  dev.magic = 0x74726976 ∧ dev.version = 1 ∧ dev.deviceId = 2 ∧ dev.status &&& 4 ≠ 0

instance (dev : VirtioRegs) : Decidable dev.Ok := inferInstanceAs (Decidable (_ ∧ _))

/-- The roles of the three pages `virtio_blk_init` takes. -/
def Role.Virtio (c : Role) : Prop := ∃ n, c = .virtio n

/-- The roles once the device has its pages. -/
def Ghost.virtioSpace (g : Ghost) : Ghost :=
  ((g.pop (.virtio 0)).pop (.virtio 1)).pop (.virtio 2)

/-- `virtio_blk_init` when the first two free pages are neighbours. -/
structure VirtioReady (L : Layout) (k : KState) (g : Ghost) (k' : KState) : Prop where
  kmem : KmemInv L k' g.virtioSpace
  queueUpper : g.virtioSpace.ow (k'.blkRequestVq + 4096) = .virtio 0
  queueLower : g.virtioSpace.ow k'.blkRequestVq = .virtio 1
  request : g.virtioSpace.ow k'.blkReqPaddr = .virtio 2
  pages : ∀ p, L.IsPage p → g.ow p ≠ .free → ¬ (g.ow p).Virtio →
    ∀ x < 4096, k'.mem (p + x) = k.mem (p + x)
  keep : ∀ p, g.ow p ≠ .free → g.virtioSpace.ow p = g.ow p
  static : SameStatic L k k'
  kernelPagetable : k'.kernelPagetable = k.kernelPagetable
  only : (∀ p, ¬ (g.ow p).Virtio) → ∀ p, (g.virtioSpace.ow p).Virtio →
    p = k'.blkRequestVq + 4096 ∨ p = k'.blkRequestVq ∨ p = k'.blkReqPaddr

theorem Ghost.pop_ow_of_ne {c : Role} {l : List Nat} {q : Nat} (h : g.free = p :: l)
    (hne : q ≠ p) : (g.pop c).ow q = g.ow q := by
  rw [Ghost.pop_eq h]
  exact Function.update_of_ne hne _ _

theorem virtioBlkInit_spec {dev : VirtioRegs} (hk : KmemInv L k g) (hdev : dev.Ok) {q : Nat}
    {l : List Nat} (hfree : g.free = (p + 4096) :: p :: q :: l) :
    ∃ k', virtioBlkInit dev k = some k' ∧ VirtioReady L k g k' := by
  obtain ⟨hmagic, hversion, hid, hstatus⟩ := hdev
  cases hal1 : kmemAlloc k with
  | none =>
    rw [kmemAlloc_none hk hal1] at hfree
    exact absurd hfree nofun
  | some pk1 =>
  obtain ⟨p1, k1⟩ := pk1
  obtain ⟨hl1, hp1, -, -, hinv1⟩ := kmemAlloc_spec hk hal1
  have hk1 := hinv1 (.virtio 0) nofun
  have hg1 : Grow L Role.Virtio (fun _ => False) k g k1 (g.pop (.virtio 0)) :=
    kmemAlloc_grow hk hal1 ⟨0, rfl⟩
  have hp1eq : p1 = p + 4096 := by
    rw [hfree, List.tail_cons, List.cons.injEq] at hl1
    exact hl1.1.symm
  obtain ⟨how1, -⟩ := kmemAlloc_pop_ow hk hal1 (.virtio 0)
  have hfree1 : (g.pop (.virtio 0)).free = p :: q :: l := by
    rw [Ghost.pop_free, hfree, List.tail_cons]
  cases hal2 : kmemAlloc k1 with
  | none =>
    rw [kmemAlloc_none hk1 hal2] at hfree1
    exact absurd hfree1 nofun
  | some pk2 =>
  obtain ⟨p2, k2⟩ := pk2
  obtain ⟨hl2, hp2, -, -, hinv2⟩ := kmemAlloc_spec hk1 hal2
  have hk2 := hinv2 (.virtio 1) nofun
  have hg2 : Grow L Role.Virtio (fun _ => False) k1 (g.pop (.virtio 0)) k2
      ((g.pop (.virtio 0)).pop (.virtio 1)) := kmemAlloc_grow hk1 hal2 ⟨1, rfl⟩
  have hp2eq : p2 = p := by
    rw [hfree1, List.tail_cons, List.cons.injEq] at hl2
    exact hl2.1.symm
  obtain ⟨how2, hkeep2⟩ := kmemAlloc_pop_ow hk1 hal2 (.virtio 1)
  have how12 := hkeep2 p1 (by rw [how1]; exact nofun)
  rw [how1] at how12
  -- the two members lie in the upper page
  have hst : ∀ (kx : KState) (y v : Nat), y + 4 ≤ 4096 →
      KmemInv L kx ((g.pop (.virtio 0)).pop (.virtio 1)) →
      KmemInv L (kx.store (p1 + y) v) ((g.pop (.virtio 0)).pop (.virtio 1)) ∧
        Grow L Role.Virtio (fun _ => False) kx ((g.pop (.virtio 0)).pop (.virtio 1))
          (kx.store (p1 + y) v) ((g.pop (.virtio 0)).pop (.virtio 1)) := by
    intro kx y v hy hkx
    exact ⟨hkx.store hp1 (by rw [how12]; exact nofun) hy,
      store_grow hp1 (by rw [how12]; exact ⟨0, rfl⟩) hy⟩
  have hvq1 : p2 + 4228 = p1 + 132 := by omega
  have hvq2 : p2 + 4232 = p1 + 136 := by omega
  obtain ⟨hk3, hg3⟩ := hst k2 132 0 (by omega) hk2
  obtain ⟨hk4, hg4⟩ := hst (k2.store (p1 + 132) 0) 136 (p2 + 4098) (by omega) hk3
  have hvirtq : virtqInit k 0 = some (p2, (k2.store (p1 + 132) 0).store (p1 + 136) (p2 + 4098)) := by
    unfold virtqInit
    simp only [hal1, hal2, hvq1, hvq2]
  generalize (k2.store (p1 + 132) 0).store (p1 + 136) (p2 + 4098) = k4 at *
  have hfree2 : ((g.pop (.virtio 0)).pop (.virtio 1)).free = q :: l := by
    rw [Ghost.pop_free, hfree1, List.tail_cons]
  cases hal5 : kmemAlloc k4 with
  | none =>
    rw [kmemAlloc_none hk4 hal5] at hfree2
    exact absurd hfree2 nofun
  | some pk5 =>
  obtain ⟨p5, k5⟩ := pk5
  obtain ⟨hl5, hp5, -, -, hinv5⟩ := kmemAlloc_spec hk4 hal5
  have hk5 := hinv5 (.virtio 2) nofun
  have hg5 : Grow L Role.Virtio (fun _ => False) k4 ((g.pop (.virtio 0)).pop (.virtio 1)) k5
      g.virtioSpace := kmemAlloc_grow hk4 hal5 ⟨2, rfl⟩
  obtain ⟨how5, hkeep5⟩ := kmemAlloc_pop_ow hk4 hal5 (.virtio 2)
  have hgrow := (((hg1.trans hg2).trans hg3).trans hg4).trans hg5
  refine ⟨{ k5 with blkRequestVq := p2, blkReqPaddr := p5 }, ?_, ?_⟩
  · unfold virtioBlkInit
    rw [if_neg (by simp [hmagic, hversion, hid]), if_neg hstatus, hvirtq]
    simp only [hal5]
  · refine ⟨hk5.congr rfl (fun _ _ _ _ => rfl), ?_, ?_, how5, hgrow.page_mem, hgrow.keep, ?_, ?_, ?_⟩
    · simp only
      rw [hp2eq, ← hp1eq]
      exact (hkeep5 p1 (by rw [how12]; exact nofun)).trans how12
    · exact (hkeep5 p2 (by rw [how2]; exact nofun)).trans how2
    · exact ⟨fun x hx => hgrow.static_mem x hx id, hgrow.current⟩
    · exact hgrow.kernelPagetable
    · intro hno q hq
      by_contra hne
      simp only [not_or] at hne
      obtain ⟨hne1, hne2, hne5⟩ := hne
      refine hno q ?_
      rw [← Ghost.pop_ow_of_ne (c := .virtio 0) hl1 (by omega),
        ← Ghost.pop_ow_of_ne (c := .virtio 1) hl2 hne2,
        ← Ghost.pop_ow_of_ne (c := .virtio 2) hl5 hne5]
      exact hq

/-- A boot that does not panic. -/
theorem boot_stages {dev : VirtioRegs} (h : boot L dev m = some k') :
    ∃ i k, bootKernel L dev m = some k ∧ kprocCreate L k (L.fsData 2) = some (i, k') := by
  unfold boot at h
  obtain ⟨k, hk, hc⟩ := Option.bind_eq_some_iff.mp h
  obtain ⟨⟨i, k1⟩, hc, hk'⟩ := Option.map_eq_some_iff.mp hc
  exact ⟨i, k, hk, by rw [hc, ← hk']⟩

theorem boot_some {dev : VirtioRegs} (hk : bootKernel L dev m = some k)
    (h : kprocCreate L k (L.fsData 2) = some (i, k')) : boot L dev m = some k' := by
  unfold boot
  rw [hk, Option.bind_some, h, Option.map_some]

/-- The roles before the first process. -/
def Layout.bootGhost (L : Layout) : Ghost := ((L.initGhost 16384).kernelSpace L).virtioSpace

theorem Layout.kernelSpace_free (L : Layout) (n : Nat) :
    ((L.initGhost n).kernelSpace L).free = L.pagesDown (n - (1 + L.kernelTables)) := by
  rw [Ghost.kernelSpace, Ghost.popMany_free, Ghost.pop_free, L.initGhost_free, List.drop_tail,
    L.drop_pagesDown, Nat.add_comm 1]

theorem Layout.bootGhost_free (L : Layout) :
    L.bootGhost.free = L.pagesDown (16384 - (4 + L.kernelTables)) := by
  rw [bootGhost, Ghost.virtioSpace, Ghost.pop_free, Ghost.pop_free, Ghost.pop_free,
    L.kernelSpace_free]
  generalize hn : 16384 - (1 + L.kernelTables) = n
  have h1 : (L.pagesDown n).tail.tail.tail = (L.pagesDown n).drop 3 := by
    rw [← List.drop_one, ← List.drop_one, ← List.drop_one, List.drop_drop, List.drop_drop]
  rw [h1, L.drop_pagesDown]
  congr 1
  omega

/-- A role after the kernel's own allocations. -/
theorem Layout.bootGhost_ow (L : Layout) (p : Nat) :
    L.bootGhost.ow p = (L.initGhost 16384).ow p ∨ L.bootGhost.ow p = .root .kernel ∨
      (∃ n, L.bootGhost.ow p = .table .kernel n) ∨ ∃ n, L.bootGhost.ow p = .virtio n := by
  rw [bootGhost, Ghost.virtioSpace]
  obtain h | h := (((L.initGhost 16384).kernelSpace L).pop (.virtio 0)).pop (.virtio 1) |>.pop_ow
    (.virtio 2) p
  · obtain h' | h' := (((L.initGhost 16384).kernelSpace L).pop (.virtio 0)).pop_ow (.virtio 1) p
    · obtain h'' | h'' := ((L.initGhost 16384).kernelSpace L).pop_ow (.virtio 0) p
      · rw [h, h', h'', Ghost.kernelSpace]
        obtain h3 | ⟨j, -, h3⟩ := ((L.initGhost 16384).pop (.root .kernel)).popMany_ow
          (.table .kernel) L.kernelTables p
        · obtain h4 | h4 := (L.initGhost 16384).pop_ow (.root .kernel) p
          · exact .inl (h3.trans h4)
          · exact .inr (.inl (h3.trans h4))
        · exact .inr (.inr (.inl ⟨j, h3⟩))
      · exact .inr (.inr (.inr ⟨0, by rw [h, h', h'']⟩))
    · exact .inr (.inr (.inr ⟨1, by rw [h, h']⟩))
  · exact .inr (.inr (.inr ⟨2, h⟩))

/-- No page is lost at boot, and none belongs to a process. -/
theorem Layout.bootGhost_of (L : Layout) (p : Nat) (i : Nat) :
    ¬ (L.bootGhost.ow p).Of (.proc i) := by
  obtain h | h | ⟨n, h⟩ | ⟨n, h⟩ := L.bootGhost_ow p
  · rw [h, L.initGhost_ow]
    split <;> exact id
  · rw [h]
    exact nofun
  · rw [h]
    exact nofun
  · rw [h]
    exact id

theorem Layout.bootGhost_lost (L : Layout) (hp : L.IsPage p) : L.bootGhost.ow p ≠ .lost := by
  obtain h | h | ⟨n, h⟩ | ⟨n, h⟩ := L.bootGhost_ow p
  · rw [h, L.initGhost_ow, if_pos]
    · simp
    · obtain ⟨h1, h2, h3⟩ := hp
      have hal := L.begin_aligned
      simp only [freeRamEnd] at h2
      exact ⟨(p - L.freeRamBegin) / 4096, by omega, by omega⟩
  · rw [h]
    simp
  · rw [h]
    simp
  · rw [h]
    simp

/-- The kernel before its first process. -/
structure Booted (L : Layout) (m : Mem) (k : KState) : Prop where
  inv : Inv L k L.bootGhost
  unused : ∀ i < 8, pcb L k i .state = ProcState.unused.code
  kernelStackTop : ∀ i < 8, pcb L k i .kernelStackTop = L.proc i + sizeofProcess
  freeHeapPage : ∀ i < 8, pcb L k i .freeHeapPage = vaUserBase
  field_eq : ∀ i < 8, ∀ f : PcbField, f.InStruct → f ≠ .state → f ≠ .kernelStackTop →
    f ≠ .freeHeapPage → pcb L k i f = load32 m (L.proc i + f.offset)
  static : ∀ x < L.freeRamBegin, ¬ L.InPcbs x → k.mem x = m x
  current : k.current = none

/-- The pages with a role at boot are the ones the kernel's variables lead to. -/
structure BootExact (L : Layout) (k : KState) (g : Ghost) : Prop where
  kernel : Exact k.mem g .kernel k.kernelPagetable
  virtio : ∀ p, (g.ow p).Virtio →
    p = k.blkRequestVq + 4096 ∨ p = k.blkRequestVq ∨ p = k.blkReqPaddr

theorem Ghost.virtioSpace_ow (g : Ghost) (p : Nat) :
    g.virtioSpace.ow p = g.ow p ∨ (g.virtioSpace.ow p).Virtio := by
  rw [virtioSpace]
  obtain h | h := ((g.pop (.virtio 0)).pop (.virtio 1)).pop_ow (.virtio 2) p
  · obtain h' | h' := (g.pop (.virtio 0)).pop_ow (.virtio 1) p
    · obtain h'' | h'' := g.pop_ow (.virtio 0) p
      · exact .inl (h.trans (h'.trans h''))
      · exact .inr ⟨0, h.trans (h'.trans h'')⟩
    · exact .inr ⟨1, h.trans h'⟩
  · exact .inr ⟨2, h⟩

/-- The device's pages are none of the kernel's tables. -/
theorem Exact.virtioSpace {r : Nat} (he : Exact m g .kernel r) :
    Exact m g.virtioSpace .kernel r := by
  have hback : ∀ p, (g.virtioSpace.ow p).Of .kernel → g.virtioSpace.ow p = g.ow p := by
    intro p hp
    obtain h | ⟨n, h⟩ := g.virtioSpace_ow p
    · exact h
    · rw [h] at hp
      exact hp.elim
  refine ⟨?_, ?_, ?_⟩
  · intro p q hp hpq
    have hp' := hback p hp
    have hq' := hback q (hpq ▸ hp)
    exact he.unique p q (hp' ▸ hp) (hp'.symm.trans (hpq.trans hq'))
  · intro p n hp
    exact he.table p n ((hback p (by rw [hp]; rfl)).symm.trans hp)
  · intro p v hp
    exact he.leaf p v ((hback p (by rw [hp]; rfl)).symm.trans hp)

theorem Layout.kernelSpace_virtio (L : Layout) (p : Nat) :
    ¬ (((L.initGhost 16384).kernelSpace L).ow p).Virtio := by
  rintro ⟨n, h⟩
  rw [Ghost.kernelSpace] at h
  obtain h' | ⟨j, -, h'⟩ := ((L.initGhost 16384).pop (.root .kernel)).popMany_ow
    (.table .kernel) L.kernelTables p
  · obtain h'' | h'' := (L.initGhost 16384).pop_ow (.root .kernel) p
    · rw [h', h'', L.initGhost_ow] at h
      split at h <;> exact absurd h nofun
    · exact absurd (h''.symm.trans (h'.symm.trans h)) nofun
  · exact absurd (h'.symm.trans h) nofun

/-- With a working device the kernel comes up. -/
theorem bootKernel_exact (L : Layout) {dev : VirtioRegs} (hdev : dev.Ok) (m : Mem) :
    ∃ k, bootKernel L dev m = some k ∧ Booted L m k ∧ BootExact L k L.bootGhost := by
  have hkt := L.kernelTables_le
  obtain ⟨hk0, hs0⟩ := kmemInit_spec L m
  unfold bootKernel
  generalize kmemInit L (KState.init m) = k0 at *
  cases hvm : kvmemInitKernel L k0 with
  | none =>
    have hlt := kvmemInitKernel_none hk0 hvm
    rw [L.initGhost_free, L.length_pagesDown] at hlt
    omega
  | some k1 =>
    obtain ⟨hk1, ht1, hs1, hexact1⟩ := kvmemInitKernel_spec hk0 hvm
    have hr := kprocInit_spec hk1
    rw [Option.bind_some]
    generalize kprocInit L k1 = k2 at *
    -- the next three pages, the first two of which are neighbours
    have hfree := L.kernelSpace_free 16384
    obtain ⟨n, hn⟩ : ∃ n, 16384 - (1 + L.kernelTables) = n + 3 :=
      ⟨16384 - (1 + L.kernelTables) - 3, by omega⟩
    rw [hn, Layout.pagesDown, Layout.pagesDown, Layout.pagesDown,
      show L.freeRamBegin + (n + 2) * 4096 = L.freeRamBegin + (n + 1) * 4096 + 4096 by omega] at hfree
    obtain ⟨k3, hk3, hv⟩ := virtioBlkInit_spec hr.kmem hdev hfree
    have hpcb : ∀ i < 8, ∀ f : PcbField, f.InStruct → pcb L k3 i f = pcb L k2 i f := by
      intro i hi f hf
      have hb := L.proc_bound hi
      have ho := PcbField.offset_lt hf
      simp only [sizeofProcess] at hb
      apply load32_congr
      intro x h1 h2
      exact hv.static.mem x (by omega)
    have hunused : ∀ i < 8, pcb L k3 i .state = ProcState.unused.code := by
      intro i hi
      rw [hpcb i hi .state trivial, hr.state i hi]
    have hheap : ∀ i < 8, pcb L k3 i .freeHeapPage = vaUserBase := by
      intro i hi
      rw [hpcb i hi .freeHeapPage trivial, hr.freeHeapPage i hi]
    have hroot : k3.kernelPagetable = k1.kernelPagetable := by
      rw [hv.kernelPagetable, hr.grow.kernelPagetable]
    have hcur : k3.current = none := by
      rw [hv.static.current, hr.grow.current, hs1.current, hs0.current]
      rfl
    have ht2 := ht1.grow hk1 hr.grow (fun _ h => h.elim)
    have hnv : ∀ {c : Role}, c.TableOf .kernel → ¬ c.Virtio := by
      rintro c hc ⟨n, rfl⟩
      exact hc
    have htables : ∀ p, (((L.initGhost 16384).kernelSpace L).ow p).TableOf .kernel →
        ∀ x, x + 4 ≤ 4096 → load32 k3.mem (p + x) = load32 k2.mem (p + x) := by
      intro p hp x hx
      apply load32_congr
      intro y hy1 hy2
      have hval := hv.pages p (hk1.page p hp.ne_lost) hp.ne_free (hnv hp) (y - p) (by omega)
      rwa [Nat.add_sub_cancel' (by omega)] at hval
    refine ⟨k3, hk3, ⟨⟨hv.kmem, ?_, hv.queueUpper, hv.queueLower, hv.request, ?_, ?_, ?_⟩, hunused,
      ?_, hheap, ?_, ?_, hcur⟩, ?_, ?_⟩
    · rw [hroot]
      exact ht2.congr htables (fun p hp => hv.keep p hp.ne_free)
    · intro i hlive
      exact absurd (hunused i hlive.1) hlive.2
    · intro i hi
      exact ⟨0, by rw [hheap i hi], Nat.zero_le _⟩
    · rw [hcur]
      exact nofun
    · intro i hi
      rw [hpcb i hi .kernelStackTop trivial, hr.kernelStackTop i hi]
    · intro i hi f hf h1 h2 h3
      have hb := L.proc_bound hi
      have ho := PcbField.offset_lt hf
      simp only [sizeofProcess] at hb
      rw [hpcb i hi f hf, hr.field_eq i hi f hf h1 h2 h3]
      apply load32_congr
      intro x hx1 hx2
      exact (hs1.mem x (by omega)).trans (hs0.mem x (by omega))
    · intro x hx hno
      exact (hv.static.mem x hx).trans ((hr.grow.static_mem x hx hno).trans
        ((hs1.mem x hx).trans (hs0.mem x hx)))
    · have hnone : ∀ p, ¬ ((L.initGhost 16384).ow p).Of .kernel := by
        intro p
        rw [L.initGhost_ow]
        split <;> exact id
      have hm : ∀ p, (((L.initGhost 16384).kernelSpace L).ow p).TableOf .kernel →
          ∀ x, x + 4 ≤ 4096 → load32 k3.mem (p + x) = load32 k1.mem (p + x) := by
        intro p hp x hx
        rw [htables p hp x hx, hr.grow.load_table hk1 (fun _ h => h.elim) p hp x hx]
      rw [hroot]
      refine Exact.virtioSpace ((hexact1 hnone).congr ?_ (fun v hv => ht1.walk_eq hm hv))
      intro n hn hT
      rwa [HasTable, (ht1.load_eq hm).1 n hn]
    · exact hv.only L.kernelSpace_virtio

theorem bootKernel_spec (L : Layout) {dev : VirtioRegs} (hdev : dev.Ok) (m : Mem) :
    ∃ k, bootKernel L dev m = some k ∧ Booted L m k := by
  obtain ⟨k, hk, hb, -⟩ := bootKernel_exact L hdev m
  exact ⟨k, hk, hb⟩

/-! ## §3 Boot -/

/-- The first process is in slot 0. -/
theorem freeSlot_booted (hb : Booted L m k) : freeSlot L k = some 0 := by
  unfold freeSlot
  rw [show List.range numProcesses = 0 :: [1, 2, 3, 4, 5, 6, 7] by decide, List.find?_cons]
  have h0 := hb.unused 0 (by decide)
  simp [h0]

theorem virtioBlkInit_ok {dev : VirtioRegs} (h : virtioBlkInit dev k = some k') : dev.Ok := by
  unfold virtioBlkInit at h
  by_cases h1 : dev.magic ≠ 0x74726976 ∨ dev.version ≠ 1 ∨ dev.deviceId ≠ 2
  · simp [h1] at h
  · by_cases h2 : dev.status &&& 4 = 0
    · simp [h2] at h
    · simp only [not_or, not_not] at h1
      exact ⟨h1.1, h1.2.1, h1.2.2, h2⟩

/-- A kernel that boots has found the device it expects. -/
theorem bootKernel_ok {dev : VirtioRegs} (h : bootKernel L dev m = some k) : dev.Ok := by
  unfold bootKernel at h
  obtain ⟨k1, -, h1⟩ := Option.bind_eq_some_iff.mp h
  exact virtioBlkInit_ok h1

/-- `kernel_main` up to the scheduler, when the shell is a proper image. -/
theorem boot_exact {dev : VirtioRegs} (h : boot L dev m = some k')
    (hok : ∀ k, Booted L m k → ElfOk k (L.fsData 2)) :
    ∃ k g, Booted L m k ∧ BootExact L k L.bootGhost ∧ Created L 2 0 k L.bootGhost k' g := by
  obtain ⟨i, k, hk, hc⟩ := boot_stages h
  obtain ⟨k1, hk1, hb, he⟩ := bootKernel_exact L (bootKernel_ok hk) m
  rw [hk, Option.some.injEq] at hk1
  rw [← hk1] at hb he
  obtain ⟨g, hcr⟩ := kprocCreate_inv hb.inv (by decide) (hok k hb) hc
  have hi : i = 0 := by
    have hslot := hcr.slot
    rw [freeSlot_booted hb, Option.some.injEq] at hslot
    exact hslot.symm
  rw [hi] at hcr
  exact ⟨k, g, hb, he, hcr⟩

theorem boot_inv {dev : VirtioRegs} (h : boot L dev m = some k')
    (hok : ∀ k, Booted L m k → ElfOk k (L.fsData 2)) :
    ∃ k g, Booted L m k ∧ Created L 2 0 k L.bootGhost k' g := by
  obtain ⟨k, g, hb, -, hc⟩ := boot_exact h hok
  exact ⟨k, g, hb, hc⟩

end Risky321.Kernel
