/-
Risky321.Kernel.StackTheorems — what an address space has besides its
segments.

§1 is the first stage of `buildImage`, the root with the kernel mapped 1:1
and the trap frame page (`imageBase_spec`); §2 the last one, the trap frame
and the stack in the tables (`imageStack_spec`).
-/
import Risky321.Kernel.PageLoadTheorems

namespace Risky321.Kernel

open Risky321.Lib

variable {L : Layout} {k k' k'' : KState} {g g' g'' : Ghost} {a b : Space} {i j r v va p : Nat}
  {m m' : Mem} {S : Role → Prop} {W : Nat → Prop} {heap : Bool} {c : Role}

/-! ## §1 The trap frame and the kernel's half -/

/-- A store to the trap frame of slot `i`. -/
theorem setTrapWord_grow {w x : Nat} (hk : KmemInv L k g)
    (htf : g.ow (pcb L k i .trapframe) = .trapframe (.proc i)) (hw : w < 1024) :
    KmemInv L (setTrapWord L k i w x) g ∧
      Grow L (fun c => c = .trapframe (.proc i)) W k g (setTrapWord L k i w x) g := by
  have hp := hk.page_of htf nofun
  exact ⟨hk.store hp (by rw [htf]; exact nofun) (by omega), store_grow hp htf (by omega)⟩

theorem pcb_setTrapWord {w x : Nat} {f : PcbField} (hk : KmemInv L k g)
    (htf : g.ow (pcb L k i .trapframe) = .trapframe (.proc i)) (hw : w < 1024) (hj : j < 8)
    (hf : f.InStruct) : pcb L (setTrapWord L k i w x) j f = pcb L k j f :=
  (setTrapWord_grow (W := fun _ => False) hk htf hw).2.pcb hj hf (fun _ _ h => h)

/-- The words of the trap frame of slot `i` when its page is left alone. -/
theorem trapWord_grow (hg : Grow L S W k g k' g') (hk : KmemInv L k g)
    (htf : g.ow (pcb L k i .trapframe) = .trapframe (.proc i)) (hS : ¬ S (.trapframe (.proc i)))
    (hpcb : pcb L k' i .trapframe = pcb L k i .trapframe) {w : Nat} (hw : w < 1024) :
    trapWord L k' i w = trapWord L k i w := by
  unfold trapWord
  rw [hpcb]
  exact hg.load_page (hk.page_of htf nofun) (by rw [htf]; exact nofun) (by rw [htf]; exact hS)
    (show 4 * w + 4 ≤ 4096 by omega)

theorem trapWord_setTrapWord_same {w x : Nat} (hk : KmemInv L k g) (hi : i < 8)
    (htf : g.ow (pcb L k i .trapframe) = .trapframe (.proc i)) (hw : w < 1024) (hx : x < 2 ^ 32) :
    trapWord L (setTrapWord L k i w x) i w = x := by
  unfold trapWord
  rw [pcb_setTrapWord (f := .trapframe) hk htf hw hi trivial]
  exact load32_store32_of_lt hx

/-- Another word of the trap frame. -/
theorem trapWord_setTrapWord_of_ne {w w' x : Nat} (hk : KmemInv L k g) (hi : i < 8)
    (htf : g.ow (pcb L k i .trapframe) = .trapframe (.proc i)) (hw : w' < 1024) (hne : w ≠ w') :
    trapWord L (setTrapWord L k i w' x) i w = trapWord L k i w := by
  unfold trapWord
  rw [pcb_setTrapWord (f := .trapframe) hk htf hw hi trivial]
  exact load32_store32_disjoint _ _ (by omega)

/-- The stores that prepare the first return to user mode. -/
theorem initContext_spec (hk : KmemInv L k g) (hi : i < 8)
    (htf : g.ow (pcb L k i .trapframe) = .trapframe (.proc i)) :
    KmemInv L (initContext L k i) g ∧
      Grow L (fun c => c = .trapframe (.proc i)) (L.InPcb i) k g (initContext L k i) g ∧
      ∀ f : PcbField, f.InStruct → f ≠ .context 0 → f ≠ .context 1 →
        pcb L (initContext L k i) i f = pcb L k i f := by
  have h0 : (PcbField.context 0).InStruct := by decide
  have h1 : (PcbField.context 1).InStruct := by decide
  simp only [initContext]
  generalize hx1 : setPcb L k i (.context 0) L.ktrapToUser = k1
  generalize hx2 : setPcb L k1 i (.context 1) (pcb L k1 i .kernelStackTop) = k2
  have hk2 : KmemInv L k2 g := by
    rw [← hx2, ← hx1]
    exact (hk.setPcb hi h0).setPcb hi h1
  have hg2 : Grow L (fun c => c = .trapframe (.proc i)) (L.InPcb i) k g k2 g := by
    rw [← hx2, ← hx1]
    exact (setPcb_grow hi h0).trans (setPcb_grow hi h1)
  have hf2 : ∀ f : PcbField, f.InStruct → f ≠ .context 0 → f ≠ .context 1 →
      pcb L k2 i f = pcb L k i f := by
    intro f hf hne0 hne1
    rw [← hx2, pcb_setPcb_of_ne_field hf h1 hne1, ← hx1, pcb_setPcb_of_ne_field hf h0 hne0]
  have htf2 : g.ow (pcb L k2 i .trapframe) = .trapframe (.proc i) := by
    rw [hf2 .trapframe trivial nofun nofun, htf]
  have hsp : tfKernelSp < 1024 := by decide
  have htrap : tfKernelTrap < 1024 := by decide
  obtain ⟨hk3, hg3⟩ := setTrapWord_grow (W := L.InPcb i) (x := pcb L k2 i .kernelStackTop)
    hk2 htf2 hsp
  have htf3 : g.ow (pcb L (setTrapWord L k2 i tfKernelSp (pcb L k2 i .kernelStackTop)) i
      .trapframe) = .trapframe (.proc i) := by
    rw [pcb_setTrapWord (f := .trapframe) hk2 htf2 hsp hi trivial, htf2]
  obtain ⟨hk4, hg4⟩ := setTrapWord_grow (W := L.InPcb i) (x := L.ktrapFromUserHandler)
    hk3 htf3 htrap
  refine ⟨hk4, (hg2.trans hg3).trans hg4, ?_⟩
  intro f hf hne0 hne1
  rw [pcb_setTrapWord hk3 htf3 htrap hi hf, pcb_setTrapWord hk2 htf2 hsp hi hf,
    hf2 f hf hne0 hne1]

/-- After `imageRoot`: an empty root table, a trap frame, and nothing else. -/
structure Rooted (L : Layout) (i : Nat) (k : KState) (g : Ghost) (k' : KState) (g' : Ghost) :
    Prop where
  ghost : g' = (g.pop (.root (.proc i))).pop (.trapframe (.proc i))
  root : pcb L k' i .pagetable ∈ g.free.head?
  kmem : KmemInv L k' g'
  tree : Tree k'.mem g' (.proc i) (pcb L k' i .pagetable)
  empty : ∀ n < 1024, ¬ HasTable k'.mem (pcb L k' i .pagetable) n
  trapframe : g'.ow (pcb L k' i .trapframe) = .trapframe (.proc i)
  grow : Grow L (Role.Of (.proc i)) (L.InPcb i) k g k' g'
  field_eq : ∀ f : PcbField, f.InStruct → f ≠ .pagetable → f ≠ .trapframe → f ≠ .context 0 →
    f ≠ .context 1 → pcb L k' i f = pcb L k i f

theorem imageRoot_spec (hk : KmemInv L k g) (hi : i < 8) (h : imageRoot L k i = some k') :
    ∃ g', Rooted L i k g k' g' := by
  unfold imageRoot at h
  cases hal : kmemAlloc k with
  | none => simp [hal] at h
  | some pk =>
    obtain ⟨p1, k1⟩ := pk
    obtain ⟨hl1, hp1, -, -, hinv1⟩ := kmemAlloc_spec hk hal
    have how1 := (kmemAlloc_pop_ow hk hal (.root (.proc i))).1
    have hk1 : KmemInv L k1 (g.pop (.root (.proc i))) := hinv1 _ (by simp)
    have hb1 := hp1.bounds
    simp only [hal] at h
    generalize hx2 : setPcb L k1 i .pagetable p1 = k2 at h
    have hk2 : KmemInv L k2 (g.pop (.root (.proc i))) := by
      rw [← hx2]
      exact hk1.setPcb hi trivial
    have hpt2 : pcb L k2 i .pagetable = p1 := by
      rw [← hx2]
      exact pcb_setPcb_same (by omega)
    cases hal2 : kmemAlloc k2 with
    | none => simp [hal2] at h
    | some pk =>
      obtain ⟨p2, k3⟩ := pk
      simp only [hal2, Option.some.injEq] at h
      obtain ⟨-, hp2, -, -, hinv3⟩ := kmemAlloc_spec hk2 hal2
      have how3 := (kmemAlloc_pop_ow hk2 hal2 (.trapframe (.proc i))).1
      have hk3 := hinv3 (.trapframe (.proc i)) (by simp)
      have hb2 := hp2.bounds
      generalize hgx : (g.pop (.root (.proc i))).pop (.trapframe (.proc i)) = g3 at *
      have hpcb3 : ∀ f : PcbField, f.InStruct → pcb L k3 i f = pcb L k2 i f := fun f hf =>
        (kmemAlloc_grow (S := fun c => c = .trapframe (.proc i)) (W := fun _ => False)
          hk2 hal2 rfl).pcb hi hf (fun _ _ hw => hw)
      generalize hx4 : setPcb L k3 i .trapframe p2 = k4 at h
      have htf4 : pcb L k4 i .trapframe = p2 := by
        rw [← hx4]
        exact pcb_setPcb_same (by omega)
      have hk4 : KmemInv L k4 g3 := by
        rw [← hx4]
        exact hk3.setPcb hi trivial
      obtain ⟨hk5, hg5, hf5⟩ := initContext_spec hk4 hi (by rw [htf4, how3])
      rw [h] at hk5 hg5 hf5
      have hpt' : pcb L k' i .pagetable = p1 := by
        rw [hf5 .pagetable trivial (by simp) (by simp), ← hx4,
          pcb_setPcb_of_ne_field (f := .pagetable) (g := .trapframe) trivial trivial (by simp),
          hpcb3 .pagetable trivial, hpt2]
      -- from the first allocation on, only the trap frame page is written
      have hg15 : Grow L (fun c => c = .trapframe (.proc i)) (L.InPcb i) k1
          (g.pop (.root (.proc i))) k' g3 := by
        rw [← hx2] at hal2 hk2
        rw [← hx4] at hg5
        have hstep := kmemAlloc_grow (S := fun c => c = .trapframe (.proc i)) (W := L.InPcb i)
          hk2 hal2 rfl
        rw [hgx] at hstep
        exact (((setPcb_grow (f := .pagetable) hi trivial).trans hstep).trans
          (setPcb_grow (f := .trapframe) hi trivial)).trans hg5
      have hroot : g3.ow p1 = .root (.proc i) := by
        rw [hg15.keep p1 (by rw [how1]; simp), how1]
      have hempty : ∀ n < 1024, ¬ HasTable k'.mem p1 n := by
        intro n hn
        have hz : load32 k'.mem (p1 + 4 * n) = 0 := by
          rw [hg15.load_page hp1 (by rw [how1]; simp) (by rw [how1]; simp)
            (by omega), kmemAlloc_load_new hk hal (by omega)]
        simp [HasTable, hz]
      refine ⟨g3, hgx.symm, ?_, hk5, ?_, ?_, ?_, ?_, ?_⟩
      · rw [hpt', hl1]
        rfl
      · rw [hpt']
        exact ⟨hroot, fun n hn hT => absurd hT (hempty n hn)⟩
      · rw [hpt']
        exact hempty
      · rw [hf5 .trapframe trivial (by simp) (by simp), htf4, how3]
      · refine (kmemAlloc_grow hk hal (by rfl)).trans (hg15.mono ?_ (fun _ h => h))
        intro c hc
        rw [hc]
        rfl
      · intro f hf hne1 hne2 hne3 hne4
        rw [hf5 f hf hne3 hne4, ← hx4, pcb_setPcb_of_ne_field (g := .trapframe) hf trivial hne2,
          hpcb3 f hf, ← hx2, pcb_setPcb_of_ne_field (g := .pagetable) hf trivial hne1]
        exact (kmemAlloc_grow (S := fun c => c = .root (.proc i)) (W := fun _ => False)
          hk hal rfl).pcb hi hf (fun _ _ hw => hw)

theorem imageRoot_none (hk : KmemInv L k g) (hi : i < 8) (h : imageRoot L k i = none) :
    g.free.length < 2 := by
  unfold imageRoot at h
  cases hal : kmemAlloc k with
  | none =>
    rw [kmemAlloc_none hk hal, List.length_nil]
    omega
  | some pk =>
    obtain ⟨p1, k1⟩ := pk
    obtain ⟨hl, -, -, -, hinv⟩ := kmemAlloc_spec hk hal
    have hk2 := (hinv (.root (.proc i)) nofun).setPcb (f := .pagetable) (v := p1) hi trivial
    simp only [hal] at h
    cases hal2 : kmemAlloc (setPcb L k1 i .pagetable p1) with
    | none =>
      have hnil := kmemAlloc_none hk2 hal2
      rw [Ghost.pop_free] at hnil
      rw [hl, hnil, List.length_singleton]
      omega
    | some pk => simp [hal2] at h

/-- The roles after `imageBase`: root, trap frame, then the tables for the kernel. -/
def Ghost.base (g : Ghost) (L : Layout) (a : Space) : Ghost :=
  ((g.pop (.root a)).pop (.trapframe a)).popMany (.table a) L.kernelTables

theorem Layout.kernelTables_le (L : Layout) : L.kernelTables ≤ 768 := by
  have := L.kernelPages_lt
  unfold Layout.kernelTables
  omega

theorem Ghost.base_free (g : Ghost) (L : Layout) (a : Space) :
    (g.base L a).free = g.free.drop (2 + L.kernelTables) := by
  rw [Ghost.base, Ghost.popMany_free, Ghost.pop_free, Ghost.pop_free, List.drop_tail,
    List.drop_tail, Nat.add_comm 2]

/-- After `imageBase`: the kernel is mapped 1:1, and nothing else is. -/
structure Based (L : Layout) (i : Nat) (k : KState) (g : Ghost) (k' : KState) (g' : Ghost) :
    Prop where
  ghost : g' = g.base L (.proc i)
  root : pcb L k' i .pagetable ∈ g.free.head?
  kmem : KmemInv L k' g'
  tree : Tree k'.mem g' (.proc i) (pcb L k' i .pagetable)
  trapframe : g'.ow (pcb L k' i .trapframe) = .trapframe (.proc i)
  grow : Grow L (Role.Of (.proc i)) (L.InPcb i) k g k' g'
  field_eq : ∀ f : PcbField, f.InStruct → f ≠ .pagetable → f ≠ .trapframe → f ≠ .context 0 →
    f ≠ .context 1 → pcb L k' i f = pcb L k i f
  hasTable : ∀ n < 1024, HasTable k'.mem (pcb L k' i .pagetable) n ↔ n < L.kernelTables
  walk_eq : ∀ v < 2 ^ 20, walk k'.mem (pcb L k' i .pagetable) v =
    if v < L.kernelPages then some (v * 1024 + 15) else none

theorem imageBase_spec (hk : KmemInv L k g) (hi : i < 8) (h : imageBase L k i = some k') :
    ∃ g', Based L i k g k' g' := by
  unfold imageBase at h
  cases hroot : imageRoot L k i with
  | none => simp [hroot] at h
  | some k1 =>
    simp only [hroot] at h
    obtain ⟨g1, hr⟩ := imageRoot_spec hk hi hroot
    obtain ⟨g', hmap⟩ := mapKernel_spec (W := fun _ => False) hr.kmem hr.tree hr.empty h
    have hpcb : ∀ f : PcbField, f.InStruct → pcb L k' i f = pcb L k1 i f :=
      fun f hf => hmap.grow.pcb hi hf (fun _ _ hw => hw)
    refine ⟨g', ?_, ?_, hmap.kmem, ?_, ?_, ?_, ?_, ?_, ?_⟩
    · rw [hmap.ghost, Ghost.base, hr.ghost, Layout.kernelTables]
    · rw [hpcb .pagetable trivial]
      exact hr.root
    · rw [hpcb .pagetable trivial]
      exact hmap.tree
    · rw [hpcb .trapframe trivial, hmap.grow.keep _ (by rw [hr.trapframe]; exact nofun),
        hr.trapframe]
    · exact hr.grow.trans (hmap.grow.mono (fun _ h => h.of) (fun _ h => h.elim))
    · intro f hf hne1 hne2 hne3 hne4
      rw [hpcb f hf, hr.field_eq f hf hne1 hne2 hne3 hne4]
    · intro n hn
      rw [hpcb .pagetable trivial, hmap.hasTable n hn, Layout.kernelTables]
      omega
    · intro v hv
      rw [hpcb .pagetable trivial]
      exact hmap.walk_eq v hv

/-- `imageBase` fails only for lack of pages. -/
theorem imageBase_none (hk : KmemInv L k g) (hi : i < 8) (h : imageBase L k i = none) :
    g.free.length < 2 + L.kernelTables := by
  unfold imageBase at h
  cases hroot : imageRoot L k i with
  | none =>
    have := imageRoot_none hk hi hroot
    omega
  | some k1 =>
    simp only [hroot] at h
    obtain ⟨g1, hr⟩ := imageRoot_spec hk hi hroot
    have hlen := mapKernel_none hr.kmem hr.tree hr.empty h
    rw [hr.ghost, Ghost.pop_free, Ghost.pop_free, List.length_tail, List.length_tail] at hlen
    omega

/-! ## §2 The stack -/

/-- The trap frame page `tf` is entered, for the kernel only. -/
structure FrameMapped (L : Layout) (a : Space) (r tf : Nat) (k : KState) (g : Ghost)
    (k' : KState) : Prop where
  kmem : KmemInv L k' (g.needTable k.mem a r 1023)
  tree : Tree k'.mem (g.needTable k.mem a r 1023) a r
  grow : Grow L (Role.TableOf a) (fun _ => False) k g k' (g.needTable k.mem a r 1023)
  hasTable : ∀ n < 1024, HasTable k'.mem r n ↔ n = 1023 ∨ HasTable k.mem r n
  walk_eq : ∀ v < 2 ^ 20,
    walk k'.mem r v = if v = 0xFFFFF then some (tf / 4 + 7) else walk k.mem r v

theorem frameMapped {tf : Nat} (hk : KmemInv L k g) (ht : Tree k.mem g a r) (htf : L.IsPage tf)
    (h : kvmemMapPage k r vaTrapframe tf (pteR ||| pteW) = some k') :
    FrameMapped L a r tf k g k' := by
  have hb := htf.bounds
  have h3 := htf.2.2
  obtain ⟨hk', ht', hg, hT, hw⟩ := kvmemMapPage_spec (W := fun _ => False) hk ht
    (by decide) (by omega) (by decide) (n := 1023) (by decide) h rfl
  have hentry : tf / 4096 * 1024 + (pteR ||| pteW ||| 1) = tf / 4 + 7 := by
    have hflags : pteR ||| pteW ||| 1 = 7 := by decide
    rw [hflags]
    omega
  rw [hentry, show vaTrapframe / 4096 = 0xFFFFF by decide] at hw
  exact ⟨hk', ht', hg, hT, hw⟩

theorem FrameMapped.leaves {tf : Nat} (h : FrameMapped L a r tf k g k') (htf : L.IsPage tf)
    (hl : Leaves k.mem g a r) : Leaves k'.mem (g.needTable k.mem a r 1023) a r := by
  have h3 := htf.2.2
  refine hl.map h.grow.keep h.walk_eq (fun hU => absurd hU ?_)
  rw [and_sixteen_ne_zero]
  omega

theorem FrameMapped.exact {tf : Nat} (h : FrameMapped L a r tf k g k') (he : Exact k.mem g a r)
    (hnone : walk k.mem r 0xFFFFF = none) : Exact k'.mem (g.needTable k.mem a r 1023) a r := by
  refine exact_needTable (by omega) he.unique he.table ?_ h.hasTable
  intro q u hq
  obtain ⟨hu, e, hwe, hU⟩ := he.leaf q u hq
  have hne : u ≠ 0xFFFFF := by
    intro heq
    rw [heq, hnone] at hwe
    exact absurd hwe nofun
  exact ⟨hu, e, by rw [h.walk_eq u hu, if_neg hne, hwe], hU⟩

/-- The roles after `imageStack`. -/
def Ghost.stack (g : Ghost) (m : Mem) (a : Space) (r : Nat) : Ghost :=
  (g.needTable m a r 1023).pop (.leaf a 0xFFFFE)

/-- After `imageStack`: trap frame and stack are mapped. -/
structure Stacked (L : Layout) (i : Nat) (k : KState) (g : Ghost) (page : Nat) (k' : KState)
    (g' : Ghost) : Prop where
  ghost : g' = g.stack k.mem (.proc i) (pcb L k i .pagetable)
  head : page ∈ (g.needTable k.mem (.proc i) (pcb L k i .pagetable) 1023).free.head?
  kmem : KmemInv L k' g'
  tree : Tree k'.mem g' (.proc i) (pcb L k i .pagetable)
  leaves : Leaves k'.mem g' (.proc i) (pcb L k i .pagetable)
  grow : Grow L (Role.Of (.proc i)) (L.InPcb i) k g k' g'
  field_eq : ∀ f : PcbField, f.InStruct → f ≠ .userStack → pcb L k' i f = pcb L k i f
  userStack : pcb L k' i .userStack = page
  page_ow : g'.ow page = .leaf (.proc i) 0xFFFFE
  hasTable : ∀ n < 1024, HasTable k'.mem (pcb L k i .pagetable) n ↔
    n = 1023 ∨ HasTable k.mem (pcb L k i .pagetable) n
  walk_eq : ∀ v < 2 ^ 20, walk k'.mem (pcb L k i .pagetable) v =
    if v = 0xFFFFE then some (page / 4 + 31)
    else if v = 0xFFFFF then some (pcb L k i .trapframe / 4 + 7)
    else walk k.mem (pcb L k i .pagetable) v
  zero : ∀ x < 4096, k'.mem (page + x) = 0
  sp : trapWord L k' i tfSp = vaUserStackInit
  words : ∀ w < 1024, w ≠ tfSp → trapWord L k' i w = trapWord L k i w
  leaf_bytes : ∀ q v, v ≠ 0xFFFFE → g.ow q = .leaf (.proc i) v →
    ∀ x < 4096, k'.mem (q + x) = k.mem (q + x)
  exact : Exact k.mem g (.proc i) (pcb L k i .pagetable) →
    walk k.mem (pcb L k i .pagetable) 0xFFFFE = none →
    walk k.mem (pcb L k i .pagetable) 0xFFFFF = none →
    Exact k'.mem g' (.proc i) (pcb L k i .pagetable)

/-- The roles the middle of `imageStack` touches: no table among them. -/
def Role.StackOf (a : Space) (c : Role) : Prop := c = .leaf a 0xFFFFE ∨ c = .trapframe a

theorem Role.StackOf.not_table (h : c.StackOf a) : ¬ c.TableOf b := by
  intro htab
  obtain h | h := h
  · rw [h] at htab
    exact htab
  · rw [h] at htab
    exact htab

theorem Role.StackOf.of (h : c.StackOf a) : c.Of a := by
  obtain h | h := h
  · rw [h]
    rfl
  · rw [h]
    rfl

/-- The middle of `imageStack`: allocate the stack page, record it, set `sp`. -/
theorem stackStores_spec (hk : KmemInv L k g) (hi : i < 8)
    (htf : g.ow (pcb L k i .trapframe) = .trapframe (.proc i)) (hal : kmemAlloc k = some (p, k'))
    (hk'' : k'' = setTrapWord L (setPcb L k' i .userStack p) i tfSp vaUserStackInit)
    (hg'' : g'' = g.pop (.leaf (.proc i) 0xFFFFE)) :
    KmemInv L k'' g'' ∧ Grow L (Role.StackOf (.proc i)) (L.InPcb i) k g k'' g'' ∧
      (∀ f : PcbField, f.InStruct → f ≠ .userStack → pcb L k'' i f = pcb L k i f) ∧
      pcb L k'' i .userStack = p ∧ L.IsPage p ∧ g''.ow p = .leaf (.proc i) 0xFFFFE ∧
      g.free = p :: g.free.tail ∧ (∀ x < 4096, k''.mem (p + x) = 0) ∧
      trapWord L k'' i tfSp = vaUserStackInit ∧
      ∀ w < 1024, w ≠ tfSp → trapWord L k'' i w = trapWord L k i w := by
  obtain ⟨hfree, hp, -, hkeq, hinv⟩ := kmemAlloc_spec hk hal
  have hpb := hp.bounds
  have how := (kmemAlloc_pop_ow hk hal (.leaf (.proc i) 0xFFFFE)).1
  have hk2 := hinv (.leaf (.proc i) 0xFFFFE) nofun
  have hg2 : Grow L (Role.StackOf (.proc i)) (L.InPcb i) k g k' (g.pop (.leaf (.proc i) 0xFFFFE)) :=
    kmemAlloc_grow hk hal (.inl rfl)
  have hf2 : ∀ f : PcbField, f.InStruct → pcb L k' i f = pcb L k i f := fun f hf =>
    (kmemAlloc_grow (S := fun c => c = .leaf (.proc i) 0xFFFFE) (W := fun _ => False)
      hk hal rfl).pcb hi hf (fun _ _ hw => hw)
  rw [← hg''] at hk2 hg2 how
  generalize hx3 : setPcb L k' i .userStack p = k3 at hk''
  have hk3 : KmemInv L k3 g'' := by
    rw [← hx3]
    exact hk2.setPcb hi trivial
  have hf3 : ∀ f : PcbField, f.InStruct → f ≠ .userStack → pcb L k3 i f = pcb L k i f := by
    intro f hf hne
    rw [← hx3, pcb_setPcb_of_ne_field (g := .userStack) hf trivial hne, hf2 f hf]
  have htfow : g''.ow (pcb L k3 i .trapframe) = .trapframe (.proc i) := by
    rw [hf3 .trapframe trivial nofun, hg2.keep _ (by rw [htf]; exact nofun), htf]
  have hsp : tfSp < 1024 := by decide
  obtain ⟨hk4, hg4⟩ := setTrapWord_grow (W := L.InPcb i) (x := vaUserStackInit) hk3 htfow hsp
  have hf4 : ∀ f : PcbField, f.InStruct →
      pcb L (setTrapWord L k3 i tfSp vaUserStackInit) i f = pcb L k3 i f :=
    fun f hf => pcb_setTrapWord hk3 htfow hsp hi hf
  rw [← hk''] at hk4 hg4 hf4
  refine ⟨hk4, ?_, ?_, ?_, hp, how, hfree, ?_, ?_, ?_⟩
  · refine (hg2.trans ?_).trans (hg4.mono (fun _ h => .inr h) (fun _ h => h))
    rw [← hx3]
    exact setPcb_grow hi trivial
  · intro f hf hne
    rw [hf4 f hf, hf3 f hf hne]
  · rw [hf4 .userStack trivial, ← hx3, pcb_setPcb_same (by omega)]
  · intro x hx
    rw [hg4.page_mem p hp (by rw [how]; exact nofun) (by rw [how]; exact nofun) x hx, ← hx3,
      setPcb_page (f := .userStack) hi trivial hp, hkeq]
    exact fill_inside _ _ _ _ (by omega)
  · rw [hk'']
    exact trapWord_setTrapWord_same hk3 hi htfow hsp (by decide)
  · intro w hw hne
    have hg3 : Grow L (fun c => c = .leaf (.proc i) 0xFFFFE) (L.InPcb i) k g k3 g'' := by
      rw [← hx3, hg'']
      exact (kmemAlloc_grow (S := fun c => c = .leaf (.proc i) 0xFFFFE) hk hal rfl).trans
        (setPcb_grow (f := .userStack) hi trivial)
    rw [hk'', trapWord_setTrapWord_of_ne hk3 hi htfow hsp hne]
    exact trapWord_grow hg3 hk htf nofun (hf3 .trapframe trivial nofun) hw

/-- A leaf that a step leaves alone keeps its role and its bytes. -/
theorem Grow.leaf_keep {q : Nat} (hg : Grow L S W k g k' g') (hk : KmemInv L k g)
    (hq : g.ow q = .leaf a v) (hS : ¬ S (.leaf a v)) :
    g'.ow q = .leaf a v ∧ ∀ x < 4096, k'.mem (q + x) = k.mem (q + x) :=
  ⟨by rw [hg.keep q (by rw [hq]; exact nofun), hq],
    hg.page_mem q (hk.page_of hq nofun) (by rw [hq]; exact nofun) (by rw [hq]; exact hS)⟩

/-- The last stage of `imageStack`: the stack page enters a table that is there. -/
theorem stackEntry_spec (hk : KmemInv L k g) (ht : Tree k.mem g a r) (hl : Leaves k.mem g a r)
    (hT : HasTable k.mem r 1023) (hp : L.IsPage p) (how : g.ow p = .leaf a 0xFFFFE)
    (h : kvmemMapPage k r vaUserStack p (pteR ||| pteW ||| pteX ||| pteU) = some k') :
    KmemInv L k' g ∧ Tree k'.mem g a r ∧ Leaves k'.mem g a r ∧
      Grow L (Role.TableOf a) (fun _ => False) k g k' g ∧
      (∀ n < 1024, HasTable k'.mem r n ↔ n = 1023 ∨ HasTable k.mem r n) ∧
      ∀ v < 2 ^ 20,
        walk k'.mem r v = if v = 0xFFFFE then some (p / 4 + 31) else walk k.mem r v := by
  have hb := hp.bounds
  have hneed : g = g.needTable k.mem a r 1023 := by
    unfold Ghost.needTable
    rw [if_pos hT]
  obtain ⟨hk', ht', hg, hT', hw⟩ := kvmemMapPage_spec (W := fun _ => False) hk ht
    (by decide) (by omega) (by decide) (n := 1023) (by decide) h hneed
  have hflags : pteR ||| pteW ||| pteX ||| pteU ||| 1 = 31 := by decide
  obtain ⟨hentry, haddr, -⟩ :=
    userEntry hp (pteR ||| pteW ||| pteX ||| pteU) (by decide) (by decide)
  rw [hentry, hflags, show vaUserStack / 4096 = 0xFFFFE by decide] at hw
  rw [hflags] at haddr
  refine ⟨hk', ht', ?_, hg, hT', hw⟩
  refine hl.map (fun _ _ => rfl) hw (fun _ => ?_)
  rw [haddr, how]

theorem imageStack_spec (hk : KmemInv L k g)
    (ht : Tree k.mem g (.proc i) (pcb L k i .pagetable))
    (hl : Leaves k.mem g (.proc i) (pcb L k i .pagetable)) (hi : i < 8)
    (htf : g.ow (pcb L k i .trapframe) = .trapframe (.proc i))
    (h : imageStack L k i = some (p, k')) : ∃ g', Stacked L i k g p k' g' := by
  unfold imageStack at h
  have htfpage := hk.page_of htf nofun
  split at h
  · exact absurd h nofun
  rename_i k1 hmap1
  generalize hr : pcb L k i .pagetable = r at *
  have hm := frameMapped hk ht htfpage hmap1
  have hl1 := hm.leaves htfpage hl
  have hf1 : ∀ f : PcbField, f.InStruct → pcb L k1 i f = pcb L k i f :=
    fun f hf => hm.grow.pcb hi hf (fun _ _ hw => hw)
  have htf1 : (g.needTable k.mem (.proc i) r 1023).ow (pcb L k1 i .trapframe) =
      .trapframe (.proc i) := by
    rw [hf1 .trapframe trivial, hm.grow.keep _ (by rw [htf]; exact nofun), htf]
  -- the stack page, its entry in the control block and `sp`
  split at h
  · exact absurd h nofun
  rename_i page k2 hal
  simp only at h
  generalize hx4 : setTrapWord L (setPcb L k2 i .userStack page) i tfSp vaUserStackInit = k4 at h
  obtain ⟨hk4, hg4, hf4, hus, hp, how4, hfree, hzero4, hsp4, hwords4⟩ :=
    stackStores_spec hm.kmem hi htf1 hal hx4.symm rfl
  have hno : ∀ c : Role, c.StackOf (.proc i) → ¬ c.TableOf (.proc i) := fun _ h => h.not_table
  have ht4 := hm.tree.grow hm.kmem hg4 hno
  have hl4 := hl1.grow hm.tree hm.kmem hg4 hno
  have hT4 := fun n hn => hm.tree.hasTable_grow hm.kmem hg4 hno (n := n) hn
  have hw4 := fun v hv => hm.tree.walk_grow hm.kmem hg4 hno (v := v) hv
  rw [hf4 .pagetable trivial nofun, hf1 .pagetable trivial, hr] at h
  -- the entry of the stack page
  split at h
  · exact absurd h nofun
  rename_i k5 hmap5
  simp only [Option.some.injEq, Prod.mk.injEq] at h
  obtain ⟨rfl, rfl⟩ := h
  have hT1023 : HasTable k4.mem r 1023 :=
    (hT4 _ (by omega)).mpr ((hm.hasTable _ (by omega)).mpr (.inl rfl))
  obtain ⟨hk5, ht5, hl5, hg5, hT5, hw5⟩ := stackEntry_spec hk4 ht4 hl4 hT1023 hp how4 hmap5
  have hf5 : ∀ f : PcbField, f.InStruct → pcb L k5 i f = pcb L k4 i f :=
    fun f hf => hg5.pcb hi hf (fun _ _ hw => hw)
  have htf4 : ((g.needTable k.mem (.proc i) r 1023).pop (.leaf (.proc i) 0xFFFFE)).ow
      (pcb L k4 i .trapframe) = .trapframe (.proc i) := by
    rw [hf4 .trapframe trivial nofun, hg4.keep _ (by rw [htf1]; exact nofun), htf1]
  have hword5 : ∀ w < 1024, trapWord L k5 i w = trapWord L k4 i w :=
    fun w hw => trapWord_grow hg5 hk4 htf4 id (hf5 .trapframe trivial) hw
  have hbytes : ∀ q v, v ≠ 0xFFFFE → g.ow q = .leaf (.proc i) v →
      ∀ x < 4096, k5.mem (q + x) = k.mem (q + x) := by
    intro q v hv hq x hx
    obtain ⟨hq1, hx1⟩ := hm.grow.leaf_keep hk hq id
    have hnot : ¬ Role.StackOf (.proc i) (.leaf (.proc i) v) := by
      rintro (h | h)
      · exact hv (Role.leaf.inj h).2
      · exact absurd h nofun
    obtain ⟨hq4, hx4⟩ := hg4.leaf_keep hm.kmem hq1 hnot
    rw [(hg5.leaf_keep hk4 hq4 id).2 x hx, hx4 x hx, hx1 x hx]
  have hexact : Exact k.mem g (.proc i) r → walk k.mem r 0xFFFFE = none →
      walk k.mem r 0xFFFFF = none →
      Exact k5.mem ((g.needTable k.mem (.proc i) r 1023).pop (.leaf (.proc i) 0xFFFFE))
        (.proc i) r := by
    intro he hstack htrap
    have hnone : walk k1.mem r 0xFFFFE = none := by
      rw [hm.walk_eq _ (by omega), if_neg (by omega), hstack]
    have hload := (hm.exact he htrap).load (v := 0xFFFFE) (by omega) hnone hT4 hT5
      (fun u hu hne => by rw [hw5 u hu, if_neg hne, hw4 u hu])
      (by rw [hw5 _ (by omega), if_pos rfl])
      (by rw [and_sixteen_ne_zero]; have := hp.2.2; omega)
    rwa [Ghost.needTable, if_pos hT1023] at hload
  refine ⟨g.stack k.mem (.proc i) r, ?_⟩
  exact
    { ghost := by rw [hr]
      head := by
        rw [hr, hfree]
        rfl
      kmem := hk5
      tree := by rwa [hr]
      leaves := by rwa [hr]
      grow := ((hm.grow.mono (fun _ h => h.of) (fun _ h => h.elim)).trans
        (hg4.mono (fun _ h => h.of) (fun _ h => h))).trans
        (hg5.mono (fun _ h => h.of) (fun _ h => h.elim))
      field_eq := fun f hf hne => by rw [hf5 f hf, hf4 f hf hne, hf1 f hf]
      userStack := by rw [hf5 .userStack trivial, hus]
      page_ow := how4
      hasTable := fun n hn => by rw [hr, hT5 n hn, hT4 n hn, hm.hasTable n hn, or_self_left]
      walk_eq := fun v hv => by rw [hr, hw5 v hv, hw4 v hv, hm.walk_eq v hv]
      zero := fun x hx => by rw [(hg5.leaf_keep hk4 how4 id).2 x hx, hzero4 x hx]
      sp := (hword5 tfSp (by decide)).trans hsp4
      words := fun w hw hne => by
        rw [hword5 w hw, hwords4 w hw hne]
        exact trapWord_grow hm.grow hk htf id (hf1 .trapframe trivial) hw
      leaf_bytes := hbytes
      exact := by rwa [hr] }

/-- `imageStack` needs at most two pages. -/
theorem imageStack_none (hk : KmemInv L k g)
    (ht : Tree k.mem g (.proc i) (pcb L k i .pagetable)) (hi : i < 8)
    (htf : g.ow (pcb L k i .trapframe) = .trapframe (.proc i)) (h : imageStack L k i = none) :
    g.free.length < 2 := by
  unfold imageStack at h
  have htfb := (hk.page_of htf nofun).bounds
  split at h
  · rename_i hmap1
    have hnil := (kvmemMapPage_none hk (by decide) rfl hmap1).2
    rw [hnil, List.length_nil]
    omega
  rename_i k1 hmap1
  obtain ⟨hk1, ht1, hg1, hT1, -⟩ := kvmemMapPage_spec (W := fun _ => False) hk ht
    (by decide) (by omega) (by decide) (n := 1023) (by decide) hmap1 rfl
  split at h
  · rename_i hal
    have hnil := kmemAlloc_none hk1 hal
    unfold Ghost.needTable at hnil
    split at hnil
    · rw [hnil, List.length_nil]
      omega
    · rw [Ghost.pop_free] at hnil
      have := congrArg List.length hnil
      rw [List.length_tail, List.length_nil] at this
      omega
  rename_i page k2 hal
  have hf1 : ∀ f : PcbField, f.InStruct → pcb L k1 i f = pcb L k i f :=
    fun f hf => hg1.pcb hi hf (fun _ _ hw => hw)
  have htf1 : (g.needTable k.mem (.proc i) (pcb L k i .pagetable) 1023).ow
      (pcb L k1 i .trapframe) = .trapframe (.proc i) := by
    rw [hf1 .trapframe trivial, hg1.keep _ (by rw [htf]; exact nofun), htf]
  obtain ⟨hk4, hg14, hf4, -⟩ := stackStores_spec hk1 hi htf1 hal rfl rfl
  simp only at h
  rw [hf4 .pagetable trivial nofun, hf1 .pagetable trivial] at h
  split at h
  · rename_i hmap5
    have hT := (kvmemMapPage_none hk4 (by decide) (n := 1023) (by decide) hmap5).1
    rw [ht1.hasTable_grow hk1 hg14 (fun _ h => h.not_table) (by omega), hT1 _ (by omega)] at hT
    exact absurd (.inl rfl) hT
  · exact absurd h nofun

end Risky321.Kernel
