/-
Risky321.Kernel.ProcInvariant — what holds of the kernel between two
operations on processes.

`ProcInv` describes one live process: its tables, its trap frame, its
stack, and where they are mapped. `Inv` puts the free list, the kernel's
own page table, the virtio pages and all eight slots together. An
operation of slot `i` touches the pages and the control block of `i` and
free pages, nothing else (`Touch`); with that, `Inv.touch` leaves only the
facts about slot `i` itself to be shown for each operation.
-/
import Risky321.Kernel.ImageTheorems

namespace Risky321.Kernel

open Risky321.Lib

variable {L : Layout} {k k' k'' : KState} {g g' g'' : Ghost} {i j p v : Nat}

/-! ## §1 The invariant -/

/-- A live process in slot `i`. -/
structure ProcInv (L : Layout) (k : KState) (g : Ghost) (i : Nat) : Prop where
  pid : pcb L k i .pid = i + 1
  tree : Tree k.mem g (.proc i) (pcb L k i .pagetable)
  leaves : Leaves k.mem g (.proc i) (pcb L k i .pagetable)
  trapframe : g.ow (pcb L k i .trapframe) = .trapframe (.proc i)
  userStack : g.ow (pcb L k i .userStack) = .leaf (.proc i) 0xFFFFE
  kernel_map : ∀ v < L.kernelPages, walk k.mem (pcb L k i .pagetable) v = some (v * 1024 + 15)
  trap_map : walk k.mem (pcb L k i .pagetable) 0xFFFFF = some (pcb L k i .trapframe / 4 + 7)
  stack_map : walk k.mem (pcb L k i .pagetable) 0xFFFFE = some (pcb L k i .userStack / 4 + 31)

/-- `free_heap_page` of slot `i` counts heap pages from `VA_USER_BASE`, and
for each of them a page was taken from the free list for good. -/
def HeapOk (L : Layout) (k : KState) (g : Ghost) (i : Nat) : Prop :=
  ∃ h, pcb L k i .freeHeapPage = vaUserBase + 4096 * h ∧ h ≤ heapCount L g i

/-- The invariant of the kernel. -/
structure Inv (L : Layout) (k : KState) (g : Ghost) : Prop where
  kmem : KmemInv L k g
  kernel : Tree k.mem g .kernel k.kernelPagetable
  queueUpper : g.ow (k.blkRequestVq + 4096) = .virtio 0
  queueLower : g.ow k.blkRequestVq = .virtio 1
  request : g.ow k.blkReqPaddr = .virtio 2
  proc : ∀ i, Live L k i → ProcInv L k g i
  heap : ∀ i < 8, HeapOk L k g i
  current : ∀ c, k.current = some c → c < 8

/-- `free_heap_page` never reaches the stack. -/
theorem HeapOk.lt (h : HeapOk L k g i) :
    vaUserBase ≤ pcb L k i .freeHeapPage ∧ pcb L k i .freeHeapPage < vaUserStack ∧
      pcb L k i .freeHeapPage % 4096 = 0 := by
  obtain ⟨n, hn, hle⟩ := h
  have := heapCount_le L g i
  simp only [hn, vaUserBase, vaUserStack, vaUserStackInit, vaTrapframe, pageSize]
  omega

/-! ## §2 Frames -/

/-- Only the pages and the control block of slot `i`, and free pages, were touched. -/
structure Touch (L : Layout) (i : Nat) (k : KState) (g : Ghost) (k' : KState) (g' : Ghost) :
    Prop where
  ow : ∀ p, g.ow p ≠ .free → ¬ (g.ow p).Of (.proc i) → g'.ow p = g.ow p
  mem : ∀ p, L.IsPage p → g.ow p ≠ .free → ¬ (g.ow p).Of (.proc i) →
    ∀ x < 4096, k'.mem (p + x) = k.mem (p + x)
  static : ∀ x, x < L.freeRamBegin → ¬ L.InPcb i x → k'.mem x = k.mem x
  kernelPagetable : k'.kernelPagetable = k.kernelPagetable
  blkRequestVq : k'.blkRequestVq = k.blkRequestVq
  blkReqPaddr : k'.blkReqPaddr = k.blkReqPaddr

theorem Grow.touch (hg : Grow L (Role.Of (.proc i)) (L.InPcb i) k g k' g') :
    Touch L i k g k' g' where
  ow := fun p hp _ => hg.keep p hp
  mem := hg.page_mem
  static := hg.static_mem
  kernelPagetable := hg.kernelPagetable
  blkRequestVq := hg.blkRequestVq
  blkReqPaddr := hg.blkReqPaddr

theorem Touch.refl (k : KState) (g : Ghost) : Touch L i k g k g :=
  (Grow.refl k g).touch

theorem Touch.trans (h : Touch L i k g k' g') (h' : Touch L i k' g' k'' g'') :
    Touch L i k g k'' g'' where
  ow := by
    intro p hp hi
    have h1 := h.ow p hp hi
    rw [h'.ow p (by rw [h1]; exact hp) (by rw [h1]; exact hi), h1]
  mem := by
    intro p hpage hp hi x hx
    have h1 := h.ow p hp hi
    rw [h'.mem p hpage (by rw [h1]; exact hp) (by rw [h1]; exact hi) x hx,
      h.mem p hpage hp hi x hx]
  static := fun x hx hW => (h'.static x hx hW).trans (h.static x hx hW)
  kernelPagetable := h'.kernelPagetable.trans h.kernelPagetable
  blkRequestVq := h'.blkRequestVq.trans h.blkRequestVq
  blkReqPaddr := h'.blkReqPaddr.trans h.blkReqPaddr

theorem Touch.pcb (h : Touch L i k g k' g') {f : PcbField} (hj : j < 8) (hf : f.InStruct)
    (hij : j ≠ i) : pcb L k' j f = pcb L k j f := by
  have hb := L.proc_bound hj
  have ho := PcbField.offset_lt hf
  simp only [sizeofProcess] at hb
  apply load32_congr
  intro x h1 h2
  refine h.static x (by omega) (fun hx => ?_)
  simp only [Layout.InPcb, Layout.proc, sizeofProcess] at *
  omega

/-- A field of the control block that the invariant speaks of. -/
def PcbField.Tracked (f : PcbField) : Prop := (∀ fd, f ≠ .openedFiles fd) ∧ ∀ r, f ≠ .context r

/-- A process whose pages and control block are unchanged. -/
theorem ProcInv.congr (hp : ProcInv L k g j)
    (hmem : ∀ p, (g.ow p).Of (.proc j) → ∀ x < 4096, k'.mem (p + x) = k.mem (p + x))
    (how : ∀ p, (g.ow p).Of (.proc j) → g'.ow p = g.ow p)
    (hpcb : ∀ f : PcbField, f.InStruct → f.Tracked →
      pcb L k' j f = pcb L k j f) : ProcInv L k' g' j := by
  have hload : ∀ p, (g.ow p).TableOf (.proc j) → ∀ x, x + 4 ≤ 4096 →
      load32 k'.mem (p + x) = load32 k.mem (p + x) := by
    intro p hrole x hx
    apply load32_congr
    intro y hy1 hy2
    have hval := hmem p hrole.of (y - p) (by omega)
    rwa [Nat.add_sub_cancel' (by omega)] at hval
  have hwalk : ∀ v < 2 ^ 20, walk k'.mem (pcb L k j .pagetable) v =
      walk k.mem (pcb L k j .pagetable) v := fun v hv => hp.tree.walk_eq hload hv
  have hle := L.kernelPages_lt
  have h1 := hpcb .pid trivial ⟨nofun, nofun⟩
  have h2 := hpcb .pagetable trivial ⟨nofun, nofun⟩
  have h3 := hpcb .trapframe trivial ⟨nofun, nofun⟩
  have h4 := hpcb .userStack trivial ⟨nofun, nofun⟩
  refine ⟨?_, ?_, ?_, ?_, ?_, ?_, ?_, ?_⟩
  · rw [h1, hp.pid]
  · rw [h2]
    exact hp.tree.congr hload (fun p hr => how p hr.of)
  · rw [h2]
    intro v hv e he hU
    rw [hwalk v hv] at he
    have hl := hp.leaves v hv e he hU
    rw [how _ (by rw [hl]; rfl), hl]
  · rw [h3, how _ (by rw [hp.trapframe]; rfl), hp.trapframe]
  · rw [h4, how _ (by rw [hp.userStack]; rfl), hp.userStack]
  · intro v hv
    rw [h2, hwalk v (by omega), hp.kernel_map v hv]
  · rw [h2, h3, hwalk _ (by omega), hp.trap_map]
  · rw [h2, h4, hwalk _ (by omega), hp.stack_map]

/-- Another process than the one that was touched. -/
theorem ProcInv.touch (hp : ProcInv L k g j) (hk : KmemInv L k g) (ht : Touch L i k g k' g')
    (hj : j < 8) (hij : j ≠ i) : ProcInv L k' g' j := by
  have hne : ∀ {c : Role}, c.Of (.proc j) → ¬ c.Of (.proc i) := by
    intro c h1 h2
    have := h1.unique h2
    simp only [Space.proc.injEq] at this
    exact hij this
  refine hp.congr ?_ ?_ (fun f hf _ => ht.pcb hj hf hij)
  · intro p hrole x hx
    exact ht.mem p (hk.page p hrole.ne_lost) hrole.ne_free (hne hrole) x hx
  · intro p hrole
    exact ht.ow p hrole.ne_free (hne hrole)

theorem HeapOk.touch (hh : HeapOk L k g j) (ht : Touch L i k g k' g') (hj : j < 8)
    (hij : j ≠ i) : HeapOk L k' g' j := by
  obtain ⟨h, heq, hle⟩ := hh
  refine ⟨h, by rw [ht.pcb (f := .freeHeapPage) hj trivial hij, heq], le_trans hle (heapCount_mono ?_)⟩
  intro p hp
  have hof : (g.ow p).Of (.proc j) := by
    revert hp
    cases g.ow p with
    | leaf a v =>
      cases a with
      | kernel => simp [Role.HeapLeaf]
      | proc n =>
        intro hp
        simp only [Role.HeapLeaf, Bool.and_eq_true, beq_iff_eq] at hp
        simp [Role.Of, hp.1]
    | _ => simp [Role.HeapLeaf]
  rw [ht.ow p hof.ne_free (fun h' => hij (by simpa using hof.unique h'))]
  exact hp

/-- What remains to be shown of an operation of slot `i`. -/
theorem Inv.touch (hI : Inv L k g) (ht : Touch L i k g k' g') (hk : KmemInv L k' g')
    (hproc : Live L k' i → ProcInv L k' g' i) (hheap : HeapOk L k' g' i)
    (hcur : ∀ c, k'.current = some c → c < 8) : Inv L k' g' := by
  have hkeep : ∀ p r, g.ow p = r → r ≠ .free → ¬ r.Of (.proc i) → g'.ow p = r := by
    intro p r hr h1 h2
    rw [ht.ow p (by rw [hr]; exact h1) (by rw [hr]; exact h2), hr]
  have hkernel : ∀ {c : Role}, c.TableOf .kernel → ¬ c.Of (.proc i) := by
    intro c h1 h2
    exact absurd (h1.of.unique h2) nofun
  refine ⟨hk, ?_, ?_, ?_, ?_, ?_, ?_, hcur⟩
  · rw [ht.kernelPagetable]
    refine hI.kernel.congr ?_ ?_
    · intro p hrole x hx
      apply load32_congr
      intro y hy1 hy2
      have hval := ht.mem p (hI.kmem.page p hrole.ne_lost) hrole.ne_free (hkernel hrole) (y - p)
        (by omega)
      rwa [Nat.add_sub_cancel' (by omega)] at hval
    · intro p hrole
      exact ht.ow p hrole.ne_free (hkernel hrole)
  · rw [ht.blkRequestVq]
    exact hkeep _ _ hI.queueUpper nofun id
  · rw [ht.blkRequestVq]
    exact hkeep _ _ hI.queueLower nofun id
  · rw [ht.blkReqPaddr]
    exact hkeep _ _ hI.request nofun id
  · intro j hlive
    by_cases hij : j = i
    · rw [hij] at hlive ⊢
      exact hproc hlive
    · have hj : j < 8 := hlive.1
      refine (hI.proc j ⟨hj, ?_⟩).touch hI.kmem ht hj hij
      rw [← ht.pcb (f := .state) hj trivial hij]
      exact hlive.2
  · intro j hj
    by_cases hij : j = i
    · rw [hij]
      exact hheap
    · exact (hI.heap j hj).touch ht hj hij

/-- Writing to static data, in the control blocks only to descriptors and contexts. -/
theorem Inv.staticWrites (hI : Inv L k g) (hm : ∀ x, L.freeRamBegin ≤ x → k'.mem x = k.mem x)
    (hpcb : ∀ i < 8, ∀ f : PcbField, f.InStruct → f.Tracked →
      pcb L k' i f = pcb L k i f)
    (hk' : k' = { k with mem := k'.mem }) : Inv L k' g := by
  have hpage : ∀ p, L.IsPage p → ∀ x, k'.mem (p + x) = k.mem (p + x) := by
    intro p hp x
    have := hp.1
    exact hm _ (by omega)
  refine ⟨hI.kmem.congr (by rw [hk']) ?_, ?_, ?_, ?_, ?_, ?_, ?_, ?_⟩
  · intro p hp x _
    exact hpage p (hI.kmem.page_of hp nofun) x
  · rw [hk']
    refine hI.kernel.congr (fun p hrole x _ => load32_congr (fun y hy1 _ => ?_)) (fun _ _ => rfl)
    have hval := hpage p (hI.kmem.page p hrole.ne_lost) (y - p)
    rwa [Nat.add_sub_cancel' (by omega)] at hval
  · rw [hk']
    exact hI.queueUpper
  · rw [hk']
    exact hI.queueLower
  · rw [hk']
    exact hI.request
  · intro i hlive
    have hi : i < 8 := hlive.1
    have hold : Live L k i := ⟨hi, by rw [← hpcb i hi .state trivial ⟨nofun, nofun⟩]; exact hlive.2⟩
    refine (hI.proc i hold).congr ?_ (fun _ _ => rfl) (fun f hf hne => hpcb i hi f hf hne)
    intro p hrole x _
    exact hpage p (hI.kmem.page p hrole.ne_lost) x
  · intro i hi
    obtain ⟨n, heq, hle⟩ := hI.heap i hi
    exact ⟨n, by rw [hpcb i hi .freeHeapPage trivial ⟨nofun, nofun⟩, heq], hle⟩
  · rw [hk']
    exact hI.current

end Risky321.Kernel
