/-
Risky321.Kernel.ForkTheorems — `kproc_fork` duplicates the caller.

§1 cuts `kproc_fork` into its stages. §2 follows them to the point where
the child is complete (`Forked`): the copied tables, the child's own trap
frame in the place of the parent's, and the fields of its control block.
What is left are the two stores to `a0`, one in each trap frame. §3 puts
the invariant through all of it, and says that only a lack of slots or of
pages makes `kproc_fork` panic.
-/
import Risky321.Kernel.CopyTheorems
import Risky321.Kernel.KprocTheorems

namespace Risky321.Kernel

open Risky321.Lib

variable {L : Layout} {k k' k'' : KState} {g g' g'' : Ghost} {i j p v cur ret : Nat}

/-! ## §1 The stages -/

/-- The start of `kproc_fork` up to the copied page table. -/
def forkSpace (L : Layout) (k : KState) (cur i : Nat) : Option KState :=
  let k := setPcb L (setPcb L k i .state ProcState.runnable.code) i .pid (i + 1)
  match kvmemCopyPagetable k (pcb L k cur .pagetable) with
  | none => none
  | some (pagetable, k) => some (setPcb L k i .pagetable pagetable)

/-- Then the trap frame of the child. -/
def forkTrapframe (L : Layout) (k : KState) (cur i : Nat) : Option KState :=
  match kmemAlloc k with
  | none => none
  | some (trapframe, k) =>
    let k := setPcb L k i .trapframe trapframe
    match kvmemMapPage k (pcb L k i .pagetable) vaTrapframe (pcb L k i .trapframe)
        (pteR ||| pteW) with
    | none => none
    | some k => some { k with
        mem := copy k.mem (pcb L k i .trapframe) (pcb L k cur .trapframe) pageSize }

/-- Then its stack pointer and its context. -/
def forkContext (L : Layout) (k : KState) (i : Nat) : KState :=
  initContext L (setPcb L k i .userStack (kvmemGetPa k (pcb L k i .pagetable) vaUserStack)) i

/-- What `kproc_fork` returns in the two processes. -/
def forkReturn (L : Layout) (k : KState) (cur i : Nat) : KState :=
  setTrapWord L (setTrapWord L k cur tfA0 (pcb L k i .pid)) i tfA0 0

theorem kprocFork_eq (L : Layout) (k : KState) (cur : Nat) :
    kprocFork L k cur =
      match freeSlot L k with
      | none => none
      | some i =>
        match forkSpace L k cur i with
        | none => none
        | some k1 =>
          match forkTrapframe L k1 cur i with
          | none => none
          | some k2 =>
            let k3 := forkReturn L (forkContext L k2 i) cur i
            some (pcb L k3 i .pid, k3) := by
  unfold kprocFork forkSpace forkTrapframe
  cases freeSlot L k with
  | none => rfl
  | some i =>
    simp only
    generalize setPcb L (setPcb L k i .state ProcState.runnable.code) i .pid (i + 1) = k1
    cases kvmemCopyPagetable k1 (pcb L k1 cur .pagetable) with
    | none => rfl
    | some dk =>
      simp only
      generalize setPcb L dk.2 i .pagetable dk.1 = k2
      cases kmemAlloc k2 with
      | none => rfl
      | some tk =>
        simp only
        generalize setPcb L tk.2 i .trapframe tk.1 = k3
        cases kvmemMapPage k3 (pcb L k3 i .pagetable) vaTrapframe (pcb L k3 i .trapframe)
            (pteR ||| pteW) with
        | none => rfl
        | some k4 => rfl

theorem kprocFork_stages (h : kprocFork L k cur = some (ret, k')) :
    ∃ i k1 k2, freeSlot L k = some i ∧ forkSpace L k cur i = some k1 ∧
      forkTrapframe L k1 cur i = some k2 ∧ k' = forkReturn L (forkContext L k2 i) cur i ∧
      ret = pcb L k' i .pid := by
  rw [kprocFork_eq] at h
  cases hslot : freeSlot L k with
  | none => simp [hslot] at h
  | some i =>
    cases h1 : forkSpace L k cur i with
    | none => simp [hslot, h1] at h
    | some k1 =>
      cases h2 : forkTrapframe L k1 cur i with
      | none => simp [hslot, h1, h2] at h
      | some k2 =>
        simp only [hslot, h1, h2, Option.some.injEq, Prod.mk.injEq] at h
        obtain ⟨hret, rfl⟩ := h
        exact ⟨i, k1, k2, rfl, h1, h2, rfl, hret.symm⟩

/-! ## §2 The child -/

/-- The child in slot `i` has a copy of the tables of `cur`. -/
structure ForkSpace (L : Layout) (cur i : Nat) (k : KState) (g : Ghost) (k' : KState)
    (g' : Ghost) : Prop where
  kmem : KmemInv L k' g'
  grow : Grow L (Role.Of (.proc i)) (L.InPcb i) k g k' g'
  tree : Tree k'.mem g' (.proc i) (pcb L k' i .pagetable)
  hasTable : ∀ t < 1024, HasTable k'.mem (pcb L k' i .pagetable) t ↔
    HasTable k.mem (pcb L k cur .pagetable) t
  entry : ∀ v < 2 ^ 20, CopyEntry L (.proc i) v k g (walk k.mem (pcb L k cur .pagetable) v) k' g'
    (walk k'.mem (pcb L k' i .pagetable) v)
  pid : pcb L k' i .pid = i + 1
  state : pcb L k' i .state = ProcState.runnable.code
  field_eq : ∀ f : PcbField, f.InStruct → f ≠ .state → f ≠ .pid → f ≠ .pagetable →
    pcb L k' i f = pcb L k i f
  free : g'.free = g.free.drop (1 + copyCount k.mem (pcb L k cur .pagetable))
  page : ∀ t < 1024, HasTable k.mem (pcb L k cur .pagetable) t →
    tableOf k'.mem (pcb L k' i .pagetable) t ∈
      (g.free.drop (1 + tableCount k.mem (pcb L k cur .pagetable) t +
        userCount k.mem (pcb L k cur .pagetable) (1024 * t))).head?
  trap : ∀ p, g'.ow p = .trapframe (.proc i) → g.ow p = .trapframe (.proc i)
  exact : (∀ p, ¬ (g.ow p).Of (.proc i)) →
    Exact k'.mem g' (.proc i) (pcb L k' i .pagetable)

/-- An entry is a copy of the same entry in an earlier state with the same pages. -/
theorem CopyEntry.pre {a : Space} {o o' : Option Nat} {k0 : KState}
    (hc : CopyEntry L a v k g o k' g' o')
    (hmem : ∀ p, L.IsPage p → ∀ x < 4096, k.mem (p + x) = k0.mem (p + x)) :
    CopyEntry L a v k0 g o k' g' o' := by
  unfold CopyEntry at *
  cases o with
  | none => exact hc
  | some e =>
    simp only at hc ⊢
    by_cases hU : e &&& pteU = 0
    · rw [if_pos hU] at hc ⊢
      exact hc
    · rw [if_neg hU] at hc ⊢
      obtain ⟨p, hp, hfree, how, ho', hbytes⟩ := hc
      refine ⟨p, hp, hfree, how, ho', ?_⟩
      intro h1 h2 h3 x hx
      rw [hbytes h1 h2 h3 x hx, hmem _ h1 x hx]

theorem forkSpace_spec (hk : KmemInv L k g)
    (ht : Tree k.mem g (.proc cur) (pcb L k cur .pagetable)) (hcur : cur < 8) (hi : i < 8)
    (hne : i ≠ cur) (h : forkSpace L k cur i = some k') : ∃ g', ForkSpace L cur i k g k' g' := by
  unfold forkSpace at h
  simp only at h
  generalize hk1 : setPcb L (setPcb L k i .state ProcState.runnable.code) i .pid (i + 1) = k1 at h
  obtain ⟨hkmem1, hg1, hpid1, hstate1, hfield1⟩ := takeSlot_grow hk hi hk1.symm
  have hpt1 : pcb L k1 cur .pagetable = pcb L k cur .pagetable :=
    hg1.pcb_other (f := .pagetable) hcur trivial (fun h => hne h.symm)
  rw [hpt1] at h
  have hno : ∀ c, (fun _ : Role => False) c → ¬ c.TableOf (.proc cur) := fun _ h => h.elim
  have ht1 := ht.grow hk hg1 hno
  generalize hs : pcb L k cur .pagetable = s at *
  have hpage1 : ∀ q, L.IsPage q → ∀ x < 4096, k1.mem (q + x) = k.mem (q + x) := by
    intro q hq x _
    rw [← hk1, setPcb_page (f := .pid) hi trivial hq, setPcb_page (f := .state) hi trivial hq]
  have hT1 : ∀ t < 1024, HasTable k1.mem s t ↔ HasTable k.mem s t :=
    fun t htlt => ht.hasTable_grow hk hg1 hno htlt
  have hw1 : ∀ v < 2 ^ 20, walk k1.mem s v = walk k.mem s v :=
    fun v hv => ht.walk_grow hk hg1 hno hv
  have htc : ∀ n ≤ 1024, tableCount k1.mem s n = tableCount k.mem s n :=
    fun n hn => tableCount_congr hT1 hn
  have huc : ∀ n ≤ 2 ^ 20, userCount k1.mem s n = userCount k.mem s n :=
    fun n hn => userCount_congr hw1 hn
  cases hcopy : kvmemCopyPagetable k1 s with
  | none => simp [hcopy] at h
  | some dk =>
    obtain ⟨d, k2⟩ := dk
    simp only [hcopy, Option.some.injEq] at h
    obtain ⟨g', hc⟩ := kvmemCopyPagetable_spec (a := .proc i) hkmem1 ht1
      (by simpa using hne) hcopy
    have hdpage := hc.kmem.page_of hc.tree.root (by simp)
    have hdb := hdpage.bounds
    have hpt : pcb L k' i .pagetable = d := by
      rw [← h, pcb_setPcb_same (by omega)]
    have hf2 : ∀ f : PcbField, f.InStruct → f ≠ .pagetable → pcb L k' i f = pcb L k1 i f := by
      intro f hf hfne
      rw [← h, pcb_setPcb_of_ne_field (g := .pagetable) hf trivial hfne,
        hc.grow.pcb hi hf (fun _ _ hw => hw)]
    have hg2 : Grow L (fun _ => False) (L.InPcb i) k2 g' k' g' := by
      rw [← h]
      exact setPcb_grow (f := .pagetable) hi trivial
    have hiff2 : ∀ t < 1024, HasTable k'.mem d t ↔ HasTable k2.mem d t :=
      fun t htlt => hc.tree.hasTable_grow hc.kmem hg2 (fun _ h => h.elim) htlt
    have hw2 : ∀ v < 2 ^ 20, walk k'.mem d v = walk k2.mem d v :=
      fun v hv => hc.tree.walk_grow hc.kmem hg2 (fun _ h => h.elim) hv
    refine ⟨g', ?_, ?_, ?_, ?_, ?_, ?_, ?_, ?_, ?_, ?_, hc.trap, ?_⟩
    · rw [← h]
      exact hc.kmem.setPcb (f := .pagetable) hi trivial
    · exact ((hg1.mono (fun _ h => h.elim) (fun _ h => h)).trans
        (hc.grow.mono (fun _ h => h) (fun _ h => h.elim))).trans
        (hg2.mono (fun _ h => h.elim) (fun _ h => h))
    · rw [hpt]
      exact hc.tree.grow hc.kmem hg2 (fun _ h => h.elim)
    · intro t htlt
      rw [hpt, hs, hiff2 t htlt, hc.hasTable t htlt, hT1 t htlt]
    · intro v hv
      rw [hs]
      have he := ((hc.entry v hv).frame hg2 id).pre hpage1
      rwa [hw1 v hv, ← hw2 v hv, ← hpt] at he
    · rw [hf2 .pid trivial (by simp), hpid1]
    · rw [hf2 .state trivial (by simp), hstate1]
    · intro f hf h1 h2 h3
      rw [hf2 f hf h3, hfield1 f hf h1 h2]
    · rw [hc.free, hs, copyCount, copyCount, htc _ (le_refl _), huc _ (le_refl _)]
    · rw [hs]
      intro t htlt hT
      have hroot : load32 k'.mem (d + 4 * t) = load32 k2.mem (d + 4 * t) :=
        hg2.load_page hdpage (by rw [hc.tree.root]; simp) id (by omega)
      have hp := hc.page t htlt ((hT1 t htlt).mpr hT)
      rw [htc t (by omega), huc _ (by omega)] at hp
      rwa [hpt, tableOf, hroot]
    · intro hnone
      rw [hpt]
      exact (hc.exact hnone).congr (fun n hn hT => (hiff2 n hn).mpr hT) hw2

theorem forkSpace_none (hk : KmemInv L k g)
    (ht : Tree k.mem g (.proc cur) (pcb L k cur .pagetable)) (hcur : cur < 8) (hi : i < 8)
    (hne : i ≠ cur) (h : forkSpace L k cur i = none) :
    g.free.length < 1 + copyCount k.mem (pcb L k cur .pagetable) := by
  unfold forkSpace at h
  simp only at h
  generalize hk1 : setPcb L (setPcb L k i .state ProcState.runnable.code) i .pid (i + 1) = k1 at h
  obtain ⟨hkmem1, hg1, -, -, -⟩ := takeSlot_grow hk hi hk1.symm
  have hpt1 : pcb L k1 cur .pagetable = pcb L k cur .pagetable :=
    hg1.pcb_other (f := .pagetable) hcur trivial (fun h => hne h.symm)
  rw [hpt1] at h
  have hno : ∀ c, (fun _ : Role => False) c → ¬ c.TableOf (.proc cur) := fun _ h => h.elim
  have ht1 := ht.grow hk hg1 hno
  cases hcopy : kvmemCopyPagetable k1 (pcb L k cur .pagetable) with
  | some dk => simp [hcopy] at h
  | none =>
    have hlt := kvmemCopyPagetable_none (a := .proc i) hkmem1 ht1 (by simpa using hne) hcopy
    rwa [copyCount, tableCount_congr (fun t htlt => ht.hasTable_grow hk hg1 hno htlt) (le_refl _),
      userCount_congr (fun v hv => ht.walk_grow hk hg1 hno hv) (le_refl _)] at hlt

/-- A new page is recorded as the trap frame of slot `i`. -/
structure FrameTaken (L : Layout) (i tf : Nat) (k : KState) (g : Ghost) (k' : KState) : Prop where
  kmem : KmemInv L k' (g.pop (.trapframe (.proc i)))
  grow : Grow L (fun c => c = .trapframe (.proc i)) (L.InPcb i) k g k'
    (g.pop (.trapframe (.proc i)))
  page : L.IsPage tf
  page_free : g.ow tf = .free
  page_ow : (g.pop (.trapframe (.proc i))).ow tf = .trapframe (.proc i)
  field_eq : ∀ f : PcbField, f.InStruct → f ≠ .trapframe → pcb L k' i f = pcb L k i f
  trapframe : pcb L k' i .trapframe = tf

theorem frameTaken {tf : Nat} (hk : KmemInv L k g) (hi : i < 8)
    (hal : kmemAlloc k = some (tf, k')) :
    FrameTaken L i tf k g (setPcb L k' i .trapframe tf) := by
  obtain ⟨-, hp, hfree, -, hinv⟩ := kmemAlloc_spec hk hal
  have hb := hp.bounds
  have hk' := hinv (.trapframe (.proc i)) nofun
  have hf : ∀ f : PcbField, f.InStruct → pcb L k' i f = pcb L k i f := fun f hf =>
    (kmemAlloc_grow (S := fun c => c = .trapframe (.proc i)) (W := fun _ => False) hk hal rfl).pcb
      hi hf (fun _ _ hw => hw)
  exact
    { kmem := hk'.setPcb (f := .trapframe) (v := tf) hi trivial
      grow := (kmemAlloc_grow (S := fun c => c = .trapframe (.proc i)) hk hal rfl).trans
        (setPcb_grow (f := .trapframe) hi trivial)
      page := hp
      page_free := hfree
      page_ow := (kmemAlloc_pop_ow hk hal (.trapframe (.proc i))).1
      field_eq := fun f hfs hne => by
        rw [pcb_setPcb_of_ne_field (g := .trapframe) hfs trivial hne, hf f hfs]
      trapframe := pcb_setPcb_same (by omega) }

/-- A trap frame is no table. -/
theorem trapframe_not_table (a b : Space) (c : Role) (h : c = .trapframe a) : ¬ c.TableOf b := by
  rw [h]
  exact id

/-- Copying a page over the trap frame of slot `i`. -/
theorem frameCopied {tf src : Nat} (hk : KmemInv L k g) (htf : L.IsPage tf)
    (how : g.ow tf = .trapframe (.proc i)) (hsrc : L.IsPage src) (hne : src ≠ tf)
    (hk' : k' = { k with mem := copy k.mem tf src pageSize }) :
    KmemInv L k' g ∧ Grow L (fun c => c = .trapframe (.proc i)) (fun _ => False) k g k' g ∧
      ∀ x < 4096, k'.mem (tf + x) = k.mem (src + x) := by
  have hapart := hsrc.apart htf hne
  have hm : ∀ x, x < tf ∨ tf + 4096 ≤ x → copy k.mem tf src pageSize x = k.mem x :=
    fun x hx => copy_outside _ _ _ _ (by simp only [pageSize]; omega)
  rw [hk']
  refine ⟨hk.write htf (by rw [how]; exact nofun) hm, write_grow htf how hm, ?_⟩
  intro x hx
  exact copy_inside _ (by simp only [pageSize]; omega) (by simp only [pageSize]; omega)

/-- The trap frame of the child: a new page in the place of the parent's, with a copy of it. -/
structure ForkTrapframe (L : Layout) (cur i : Nat) (k : KState) (g : Ghost) (k' : KState)
    (g' : Ghost) : Prop where
  ghost : g' = g.pop (.trapframe (.proc i))
  nonempty : g.free ≠ []
  kmem : KmemInv L k' g'
  tree : Tree k'.mem g' (.proc i) (pcb L k i .pagetable)
  grow : Grow L (fun c => c.TableOf (.proc i) ∨ c = .trapframe (.proc i)) (L.InPcb i) k g k' g'
  field_eq : ∀ f : PcbField, f.InStruct → f ≠ .trapframe → pcb L k' i f = pcb L k i f
  trapframe : g'.ow (pcb L k' i .trapframe) = .trapframe (.proc i)
  hasTable : ∀ t < 1024, HasTable k'.mem (pcb L k i .pagetable) t ↔
    HasTable k.mem (pcb L k i .pagetable) t
  walk_eq : ∀ v < 2 ^ 20, walk k'.mem (pcb L k i .pagetable) v =
    if v = 0xFFFFF then some (pcb L k' i .trapframe / 4 + 7)
    else walk k.mem (pcb L k i .pagetable) v
  bytes : ∀ x < 4096, k'.mem (pcb L k' i .trapframe + x) = k.mem (pcb L k cur .trapframe + x)

theorem forkTrapframe_spec (hk : KmemInv L k g)
    (ht : Tree k.mem g (.proc i) (pcb L k i .pagetable))
    (hT : HasTable k.mem (pcb L k i .pagetable) 1023) (hcur : cur < 8) (hi : i < 8)
    (hne : i ≠ cur) (htf : g.ow (pcb L k cur .trapframe) = .trapframe (.proc cur))
    (h : forkTrapframe L k cur i = some k') : ∃ g', ForkTrapframe L cur i k g k' g' := by
  unfold forkTrapframe at h
  cases hal : kmemAlloc k with
  | none => simp [hal] at h
  | some tk =>
    obtain ⟨tf, k1⟩ := tk
    simp only [hal] at h
    have h2 := frameTaken hk hi hal
    generalize setPcb L k1 i .trapframe tf = k2 at *
    have hno := trapframe_not_table (.proc i) (.proc i)
    have ht2 := ht.grow hk h2.grow hno
    have hT2 : ∀ t < 1024, HasTable k2.mem (pcb L k i .pagetable) t ↔
        HasTable k.mem (pcb L k i .pagetable) t := fun t ht' => ht.hasTable_grow hk h2.grow hno ht'
    rw [h2.field_eq .pagetable trivial (by simp), h2.trapframe] at h
    cases hmap : kvmemMapPage k2 (pcb L k i .pagetable) vaTrapframe tf (pteR ||| pteW) with
    | none => simp [hmap] at h
    | some k3 =>
      simp only [hmap, Option.some.injEq] at h
      have h3 := frameMapped h2.kmem ht2 h2.page hmap
      have hneed : (g.pop (.trapframe (.proc i))).needTable k2.mem (.proc i)
          (pcb L k i .pagetable) 1023 = g.pop (.trapframe (.proc i)) := by
        rw [Ghost.needTable, if_pos ((hT2 1023 (by omega)).mpr hT)]
      obtain ⟨hk3, ht3, hg3, hT3, hw3⟩ := h3
      rw [hneed] at hk3 ht3 hg3
      have hgrow3 : Grow L (fun c => c.TableOf (.proc i) ∨ c = .trapframe (.proc i)) (L.InPcb i)
          k g k3 (g.pop (.trapframe (.proc i))) :=
        (h2.grow.mono (fun _ h => .inr h) (fun _ h => h)).trans
          (hg3.mono (fun _ h => .inl h) (fun _ h => h.elim))
      have hpcb3 : ∀ f : PcbField, f.InStruct → pcb L k3 i f = pcb L k2 i f :=
        fun f hf => hg3.pcb hi hf (fun _ _ hw => hw)
      have hcur3 : pcb L k3 cur .trapframe = pcb L k cur .trapframe :=
        hgrow3.pcb_other (f := .trapframe) hcur trivial (fun h => hne h.symm)
      rw [hpcb3 .trapframe trivial, h2.trapframe, hcur3] at h
      have hcpage := hk.page_of htf (by simp)
      have hcne : pcb L k cur .trapframe ≠ tf := by
        intro heq
        rw [heq, h2.page_free] at htf
        cases htf
      obtain ⟨hk4, hg4, hbytes⟩ := frameCopied hk3 h2.page h2.page_ow hcpage hcne h.symm
      have hpcb4 : ∀ f : PcbField, f.InStruct → pcb L k' i f = pcb L k3 i f :=
        fun f hf => hg4.pcb hi hf (fun _ _ hw => hw)
      have htf4 : pcb L k' i .trapframe = tf := by
        rw [hpcb4 .trapframe trivial, hpcb3 .trapframe trivial, h2.trapframe]
      have hsrc : ¬ ((g.ow (pcb L k cur .trapframe)).TableOf (.proc i) ∨
          g.ow (pcb L k cur .trapframe) = .trapframe (.proc i)) := by
        rw [htf]
        rintro (h | h)
        · exact h
        · simp only [Role.trapframe.injEq, Space.proc.injEq] at h
          exact hne h.symm
      refine ⟨g.pop (.trapframe (.proc i)), ?_⟩
      exact
        { ghost := rfl
          nonempty := by
            rw [(kmemAlloc_spec hk hal).1]
            simp
          kmem := hk4
          tree := ht3.grow hk3 hg4 hno
          grow := hgrow3.trans (hg4.mono (fun _ h => .inr h) (fun _ h => h.elim))
          field_eq := fun f hf hfne => by rw [hpcb4 f hf, hpcb3 f hf, h2.field_eq f hf hfne]
          trapframe := by rw [htf4, h2.page_ow]
          hasTable := fun t htlt => by
            rw [ht3.hasTable_grow hk3 hg4 hno htlt, hT3 t htlt, hT2 t htlt]
            exact or_iff_right_of_imp (fun heq => by rw [heq]; exact hT)
          walk_eq := fun v hv => by
            rw [ht3.walk_grow hk3 hg4 hno hv, hw3 v hv, ht.walk_grow hk h2.grow hno hv, htf4]
          bytes := fun x hx => by
            rw [htf4, hbytes x hx]
            exact hgrow3.page_mem _ hcpage (by rw [htf]; simp) hsrc x hx }

theorem forkTrapframe_none (hk : KmemInv L k g)
    (ht : Tree k.mem g (.proc i) (pcb L k i .pagetable))
    (hT : HasTable k.mem (pcb L k i .pagetable) 1023) (hi : i < 8)
    (h : forkTrapframe L k cur i = none) : g.free = [] := by
  unfold forkTrapframe at h
  cases hal : kmemAlloc k with
  | none => exact kmemAlloc_none hk hal
  | some tk =>
    obtain ⟨tf, k1⟩ := tk
    simp only [hal] at h
    have h2 := frameTaken hk hi hal
    generalize setPcb L k1 i .trapframe tf = k2 at *
    rw [h2.field_eq .pagetable trivial nofun] at h
    cases hmap : kvmemMapPage k2 (pcb L k i .pagetable) vaTrapframe (pcb L k2 i .trapframe)
        (pteR ||| pteW) with
    | some k3 => simp [hmap] at h
    | none =>
      obtain ⟨hno, -⟩ := kvmemMapPage_none h2.kmem (n := 1023) (by decide) (by decide) hmap
      have hT2 := ht.hasTable_grow hk h2.grow (trapframe_not_table (.proc i) (.proc i))
        (show 1023 < 1024 by omega)
      exact absurd (hT2.mpr hT) hno

/-- `kvmem_get_pa` in terms of the walk. -/
theorem kvmemGetPa_eq {r va : Nat} (hva : va < 2 ^ 32) :
    kvmemGetPa k r va = ((walk k.mem r (va / 4096)).map pteAddr).getD 0xFFFFFFFF := by
  unfold kvmemGetPa walk KState.load
  rw [vpn1_eq hva, vpn0_eq]
  simp only
  by_cases hT : load32 k.mem (r + 4 * (va / 4096 / 1024)) &&& pteV ≠ 0
  · rw [if_pos hT, if_pos hT]
    split <;> rfl
  · rw [if_neg hT, if_neg hT]
    rfl

/-- The child in slot `i` is complete, but for its `a0`. -/
structure Forked (L : Layout) (cur i : Nat) (k : KState) (g : Ghost) (k' : KState) (g' : Ghost) :
    Prop where
  kmem : KmemInv L k' g'
  grow : Grow L (Role.Of (.proc i)) (L.InPcb i) k g k' g'
  tree : Tree k'.mem g' (.proc i) (pcb L k' i .pagetable)
  hasTable : ∀ t < 1024, HasTable k'.mem (pcb L k' i .pagetable) t ↔
    HasTable k.mem (pcb L k cur .pagetable) t
  entry : ∀ v < 2 ^ 20, v ≠ 0xFFFFF → CopyEntry L (.proc i) v k g
    (walk k.mem (pcb L k cur .pagetable) v) k' g' (walk k'.mem (pcb L k' i .pagetable) v)
  trapframe : g'.ow (pcb L k' i .trapframe) = .trapframe (.proc i)
  trap_map : walk k'.mem (pcb L k' i .pagetable) 0xFFFFF = some (pcb L k' i .trapframe / 4 + 7)
  words : ∀ w < 1024, w ≠ tfKernelSp → w ≠ tfKernelTrap → trapWord L k' i w = trapWord L k cur w
  pid : pcb L k' i .pid = i + 1
  state : pcb L k' i .state = ProcState.runnable.code
  userStack : pcb L k' i .userStack =
    ((walk k'.mem (pcb L k' i .pagetable) 0xFFFFE).map pteAddr).getD 0xFFFFFFFF
  field_eq : ∀ f : PcbField, f.InStruct → f ≠ .state → f ≠ .pid → f ≠ .pagetable →
    f ≠ .trapframe → f ≠ .userStack → f ≠ .context 0 → f ≠ .context 1 →
    pcb L k' i f = pcb L k i f
  free : g'.free = g.free.drop (2 + copyCount k.mem (pcb L k cur .pagetable))
  exact : (∀ p, ¬ (g.ow p).Of (.proc i)) →
    isUser (walk k.mem (pcb L k cur .pagetable) 0xFFFFF) = false →
    Exact k'.mem g' (.proc i) (pcb L k' i .pagetable)

/-- The copy of an entry that is no user page is none. -/
theorem CopyEntry.not_user {a : Space} {o : Option Nat} {e : Nat}
    (hc : CopyEntry L a v k g o k' g' (some e)) (ho : isUser o = false) : e &&& pteU = 0 := by
  unfold CopyEntry at hc
  cases o with
  | none => exact absurd hc nofun
  | some e' =>
    have hU : e' &&& pteU = 0 := by simpa [isUser] using ho
    simp only [if_pos hU, Option.some.injEq] at hc
    rw [hc]
    exact hU

/-- A copy of the trap frame page has the same words. -/
theorem trapWord_eq {w : Nat} (hw : w < 1024)
    (h : ∀ x < 4096, k'.mem (pcb L k' i .trapframe + x) = k.mem (pcb L k cur .trapframe + x)) :
    trapWord L k' i w = trapWord L k cur w := by
  unfold trapWord KState.load load32
  simp only [Nat.add_assoc]
  rw [h (4 * w) (by omega), h (4 * w + 1) (by omega), h (4 * w + 2) (by omega),
    h (4 * w + 3) (by omega)]

theorem trapWord_setPcb {f : PcbField} {w n : Nat} (hk : KmemInv L k g) (hj : j < 8)
    (hf : f.InStruct) (htf : g.ow (pcb L k i .trapframe) = .trapframe (.proc i)) (hw : w < 1024)
    (hfne : f ≠ .trapframe) : trapWord L (setPcb L k j f n) i w = trapWord L k i w := by
  have hpcb : pcb L (setPcb L k j f n) i .trapframe = pcb L k i .trapframe := by
    by_cases hij : i = j
    · rw [hij, pcb_setPcb_of_ne_field (f := .trapframe) trivial hf (fun h => hfne h.symm)]
    · exact pcb_setPcb_of_ne_slot (f := .trapframe) trivial hf hij
  exact trapWord_grow (setPcb_grow (S := fun _ => False) hj hf) hk htf id hpcb hw

/-- The context stores leave the other words of the trap frame alone. -/
theorem trapWord_initContext {w : Nat} (hk : KmemInv L k g) (hi : i < 8)
    (htf : g.ow (pcb L k i .trapframe) = .trapframe (.proc i)) (hw : w < 1024)
    (h1 : w ≠ tfKernelSp) (h2 : w ≠ tfKernelTrap) :
    trapWord L (initContext L k i) i w = trapWord L k i w := by
  unfold initContext
  simp only
  have hka := hk.setPcb (f := .context 0) (v := L.ktrapToUser) hi (by decide)
  have htfa := pcb_setPcb_of_ne_field (k := k) (v := L.ktrapToUser) (L := L) (i := i)
    (f := .trapframe) (g := .context 0) trivial (by decide) nofun
  have hwa := trapWord_setPcb (n := L.ktrapToUser) (f := .context 0) hk hi (by decide) htf hw
    nofun
  generalize setPcb L k i (.context 0) L.ktrapToUser = ka at *
  rw [← htfa] at htf
  have hkb := hka.setPcb (f := .context 1) (v := pcb L ka i .kernelStackTop) hi (by decide)
  have htfb := pcb_setPcb_of_ne_field (k := ka) (v := pcb L ka i .kernelStackTop) (L := L) (i := i)
    (f := .trapframe) (g := .context 1) trivial (by decide) nofun
  have hwb := trapWord_setPcb (n := pcb L ka i .kernelStackTop) (f := .context 1) hka hi
    (by decide) htf hw nofun
  generalize setPcb L ka i (.context 1) (pcb L ka i .kernelStackTop) = kb at *
  rw [← htfb] at htf
  have hkc := (setTrapWord_grow (W := fun _ => False) (w := tfKernelSp)
    (x := pcb L kb i .kernelStackTop) hkb htf (by decide)).1
  have htfc := pcb_setTrapWord (f := .trapframe) (w := tfKernelSp)
    (x := pcb L kb i .kernelStackTop) hkb htf (by decide) hi trivial
  have hwc := trapWord_setTrapWord_of_ne (w := w) (x := pcb L kb i .kernelStackTop) hkb hi htf
    (show tfKernelSp < 1024 by decide) h1
  generalize setTrapWord L kb i tfKernelSp (pcb L kb i .kernelStackTop) = kc at *
  rw [← htfc] at htf
  rw [trapWord_setTrapWord_of_ne hkc hi htf (by decide) h2, hwc, hwb, hwa]

/-- What `forkContext` writes: the control block and two words of the trap frame. -/
structure ContextSet (L : Layout) (i : Nat) (k : KState) (g : Ghost) (k' : KState) : Prop where
  kmem : KmemInv L k' g
  grow : Grow L (fun c => c = .trapframe (.proc i)) (L.InPcb i) k g k' g
  field_eq : ∀ f : PcbField, f.InStruct → f ≠ .userStack → f ≠ .context 0 → f ≠ .context 1 →
    pcb L k' i f = pcb L k i f
  userStack : pcb L k' i .userStack = kvmemGetPa k (pcb L k i .pagetable) vaUserStack
  words : ∀ w < 1024, w ≠ tfKernelSp → w ≠ tfKernelTrap → trapWord L k' i w = trapWord L k i w

theorem contextSet (hk : KmemInv L k g) (hi : i < 8)
    (htf : g.ow (pcb L k i .trapframe) = .trapframe (.proc i)) :
    ContextSet L i k g (forkContext L k i) := by
  unfold forkContext
  generalize hus : kvmemGetPa k (pcb L k i .pagetable) vaUserStack = us
  have hlt : us < 2 ^ 32 := by
    rw [← hus, kvmemGetPa_eq (by decide)]
    cases walk k.mem (pcb L k i .pagetable) (vaUserStack / 4096) with
    | none => exact (by decide : (0xFFFFFFFF : Nat) < 2 ^ 32)
    | some e => exact pteAddr_lt e
  have hkm := hk.setPcb (f := .userStack) (v := us) hi trivial
  have hfm : ∀ f : PcbField, f.InStruct → f ≠ .userStack →
      pcb L (setPcb L k i .userStack us) i f = pcb L k i f :=
    fun f hf hne => pcb_setPcb_of_ne_field (g := .userStack) hf trivial hne
  have htfm : g.ow (pcb L (setPcb L k i .userStack us) i .trapframe) = .trapframe (.proc i) := by
    rw [hfm .trapframe trivial nofun, htf]
  obtain ⟨hkc, hgc, hfc⟩ := initContext_spec hkm hi htfm
  exact
    { kmem := hkc
      grow := (setPcb_grow (f := .userStack) hi trivial).trans hgc
      field_eq := fun f hf h1 h2 h3 => by rw [hfc f hf h2 h3, hfm f hf h1]
      userStack := by rw [hfc .userStack trivial nofun nofun, pcb_setPcb_same hlt, hus]
      words := fun w hw h1 h2 => by
        rw [trapWord_initContext hkm hi htfm hw h1 h2,
          trapWord_setPcb (f := .userStack) hk hi trivial htf hw nofun] }

/-- The copy of the address space leaves the trap frame of the parent alone. -/
theorem ForkSpace.parent_word {k1 : KState} {g1 : Ghost} {w : Nat}
    (hs : ForkSpace L cur i k g k1 g1) (hcur : cur < 8) (hne : i ≠ cur)
    (htf : g.ow (pcb L k cur .trapframe) = .trapframe (.proc cur)) (hk : KmemInv L k g)
    (hw : w < 1024) : trapWord L k1 cur w = trapWord L k cur w := by
  have hcur1 : pcb L k1 cur .trapframe = pcb L k cur .trapframe :=
    hs.grow.pcb_other (f := .trapframe) hcur trivial (fun h => hne h.symm)
  refine trapWord_grow hs.grow hk htf ?_ hcur1 hw
  intro h
  exact hne (by simpa [Role.Of] using h.symm)

/-- Every page the child has been given is in its tables. -/
theorem ForkSpace.exact_forked {k1 k2 : KState} {g1 g2 : Ghost}
    (hs : ForkSpace L cur i k g k1 g1) (hf : ForkTrapframe L cur i k1 g1 k2 g2)
    (hc : ContextSet L i k2 g2 k') (hnone : ∀ p, ¬ (g.ow p).Of (.proc i))
    (hnouser : isUser (walk k.mem (pcb L k cur .pagetable) 0xFFFFF) = false) :
    Exact k'.mem g2 (.proc i) (pcb L k1 i .pagetable) := by
  have hno := trapframe_not_table (.proc i) (.proc i)
  have hex := hs.exact hnone
  have hnotrap : ∀ q, g1.ow q ≠ .trapframe (.proc i) := by
    intro q hq
    exact hnone q (by rw [hs.trap q hq]; rfl)
  have hold : ∀ q c, c ≠ .trapframe (.proc i) → g2.ow q = c → g1.ow q = c := by
    intro q c hne hq
    rw [hf.ghost] at hq
    obtain h | h := g1.pop_ow (.trapframe (.proc i)) q
    · rw [← h, hq]
    · exact absurd (hq.symm.trans h) hne
  refine ⟨?_, ?_, ?_⟩
  · rw [hf.ghost]
    exact unique_pop hex.unique hnotrap
  · intro p n hp
    obtain ⟨hn, hT⟩ := hex.table p n (hold p _ nofun hp)
    refine ⟨hn, ?_⟩
    rw [hf.tree.hasTable_grow hf.kmem hc.grow hno hn, hf.hasTable n hn]
    exact hT
  · intro p v hp
    obtain ⟨hv, e, hwe, hU⟩ := hex.leaf p v (hold p _ nofun hp)
    have hvne : v ≠ 0xFFFFF := by
      rintro rfl
      have hcopy := hs.entry _ hv
      rw [hwe] at hcopy
      exact hU (hcopy.not_user hnouser)
    refine ⟨hv, e, ?_, hU⟩
    rw [hf.tree.walk_grow hf.kmem hc.grow hno hv, hf.walk_eq v hv, if_neg hvne, hwe]

theorem forkContext_spec {k1 k2 : KState} {g1 g2 : Ghost} (hk : KmemInv L k g)
    (hs : ForkSpace L cur i k g k1 g1) (hf : ForkTrapframe L cur i k1 g1 k2 g2)
    (hk' : k' = forkContext L k2 i) (hcur : cur < 8) (hi : i < 8) (hne : i ≠ cur)
    (htf : g.ow (pcb L k cur .trapframe) = .trapframe (.proc cur)) :
    Forked L cur i k g k' g2 := by
  have hpt2 := hf.field_eq .pagetable trivial nofun
  have hc : ContextSet L i k2 g2 k' := by
    rw [hk']
    exact contextSet hf.kmem hi hf.trapframe
  have hno := trapframe_not_table (.proc i) (.proc i)
  have hpt : pcb L k' i .pagetable = pcb L k1 i .pagetable := by
    rw [hc.field_eq .pagetable trivial nofun nofun nofun, hpt2]
  have htf' : pcb L k' i .trapframe = pcb L k2 i .trapframe :=
    hc.field_eq .trapframe trivial nofun nofun nofun
  have hw' : ∀ v < 2 ^ 20, walk k'.mem (pcb L k1 i .pagetable) v =
      walk k2.mem (pcb L k1 i .pagetable) v :=
    fun v hv => hf.tree.walk_grow hf.kmem hc.grow hno hv
  have hgrow12 := hf.grow.trans (hc.grow.mono (fun _ h => .inr h) (fun _ h => h))
  have hleaf : ∀ v, ¬ (Role.TableOf (.proc i) (.leaf (.proc i) v) ∨
      Role.leaf (.proc i) v = .trapframe (.proc i)) := by
    rintro v (h | h)
    · exact h
    · cases h
  exact
    { kmem := hc.kmem
      grow := hs.grow.trans (hgrow12.mono (fun c hc => by
        obtain h | rfl := hc
        · exact h.of
        · exact rfl) (fun _ h => h))
      tree := by
        rw [hpt]
        exact hf.tree.grow hf.kmem hc.grow hno
      hasTable := fun t ht => by
        rw [hpt, hf.tree.hasTable_grow hf.kmem hc.grow hno ht, hf.hasTable t ht, hs.hasTable t ht]
      entry := fun v hv hvne => by
        have he := (hs.entry v hv).frame hgrow12 (hleaf v)
        rw [hpt, hw' v hv, hf.walk_eq v hv, if_neg hvne]
        exact he
      trapframe := by rw [htf', hf.trapframe]
      trap_map := by rw [hpt, hw' _ (by omega), hf.walk_eq _ (by omega), if_pos rfl, htf']
      words := fun w hw h1 h2 => by
        rw [hc.words w hw h1 h2, trapWord_eq hw hf.bytes, hs.parent_word hcur hne htf hk hw]
      pid := by
        rw [hc.field_eq .pid trivial nofun nofun nofun, hf.field_eq .pid trivial nofun, hs.pid]
      state := by
        rw [hc.field_eq .state trivial nofun nofun nofun, hf.field_eq .state trivial nofun,
          hs.state]
      userStack := by
        rw [hpt, hw' _ (by omega), hc.userStack, hpt2, kvmemGetPa_eq (by decide),
          show vaUserStack / 4096 = 0xFFFFE by decide]
      field_eq := fun f hfs h1 h2 h3 h4 h5 h6 h7 => by
        rw [hc.field_eq f hfs h5 h6 h7, hf.field_eq f hfs h4, hs.field_eq f hfs h1 h2 h3]
      free := by
        rw [hf.ghost, Ghost.pop_free, hs.free, List.tail_drop]
        generalize copyCount k.mem (pcb L k cur .pagetable) = n
        rw [Nat.add_right_comm]
      exact := fun hnone hnouser => by
        rw [hpt]
        exact hs.exact_forked hf hc hnone hnouser }

/-! ## §3 The invariant -/

/-- What a user page of the child is: a new page with the flags of the parent's. -/
theorem CopyEntry.user {a : Space} {e : Nat} {o : Option Nat}
    (hc : CopyEntry L a v k g (some e) k' g' o) (hV : e &&& pteV ≠ 0) (hU : e &&& pteU ≠ 0) :
    ∃ p, L.IsPage p ∧ g.ow p = .free ∧ g'.ow p = .leaf a v ∧ o = some (p / 4 + e % 1024) ∧
      pteAddr (p / 4 + e % 1024) = p ∧
      (L.IsPage (pteAddr e) → g.ow (pteAddr e) ≠ .free → ¬ (g.ow (pteAddr e)).Of a →
        ∀ x < 4096, k'.mem (p + x) = k.mem (pteAddr e + x)) := by
  simp only [CopyEntry, if_neg hU] at hc
  obtain ⟨p, hp, hfree, how, ho, hbytes⟩ := hc
  exact ⟨p, hp, hfree, how, ho, (copiedEntry_valid hp hV hU).2.2.2, hbytes⟩

theorem CopyEntry.kernel {a : Space} {e : Nat} {o : Option Nat}
    (hc : CopyEntry L a v k g (some e) k' g' o) (hU : e &&& pteU = 0) : o = some e := by
  simpa only [CopyEntry, if_pos hU] using hc

/-- An entry that `walk` gives is valid. -/
theorem walk_valid {m : Mem} {r e : Nat} (h : walk m r v = some e) : e &&& pteV ≠ 0 := by
  by_cases hT : HasTable m r (v / 1024)
  · rw [walk_of_hasTable hT] at h
    simp only at h
    split at h
    · rename_i hV
      rw [Option.some.injEq] at h
      rwa [h] at hV
    · exact absurd h nofun
  · rw [walk_of_not_hasTable hT] at h
    exact absurd h nofun

theorem hasTable_of_walk {m : Mem} {r e : Nat} (h : walk m r v = some e) :
    HasTable m r (v / 1024) := by
  by_contra hT
  rw [walk_of_not_hasTable hT] at h
  exact absurd h nofun

theorem trapEntry_not_user (hp : L.IsPage p) : (p / 4 + 7) &&& pteU = 0 := by
  have h3 := hp.2.2
  by_contra h
  have := (and_sixteen_ne_zero _).mp h
  omega

theorem kernelEntry_not_user (v : Nat) : (v * 1024 + 15) &&& pteU = 0 := by
  by_contra h
  have := (and_sixteen_ne_zero _).mp h
  omega

theorem stackEntry_user (hp : L.IsPage p) : (p / 4 + 31) &&& pteU ≠ 0 := by
  have h3 := hp.2.2
  rw [and_sixteen_ne_zero]
  omega

/-- The child is a process. -/
theorem Forked.procInv (hf : Forked L cur i k g k' g') (hk : KmemInv L k g)
    (hp : ProcInv L k g cur) : ProcInv L k' g' i := by
  have hspage := hk.page_of hp.userStack nofun
  have hs3 := hspage.2.2
  have htpage := hf.kmem.page_of hf.trapframe nofun
  have hle := L.kernelPages_lt
  obtain ⟨q, hq, -, howq, hwq, haddr, -⟩ := (show CopyEntry L (.proc i) 0xFFFFE k g
    (some (pcb L k cur .userStack / 4 + 31)) k' g' _ by
      rw [← hp.stack_map]
      exact hf.entry _ (by omega) (by omega)).user
    (walk_valid hp.stack_map) (stackEntry_user hspage)
  have h31 : (pcb L k cur .userStack / 4 + 31) % 1024 = 31 := by omega
  rw [h31] at hwq haddr
  have hus : pcb L k' i .userStack = q := by
    rw [hf.userStack, hwq, Option.map_some, Option.getD_some, haddr]
  refine ⟨hf.pid, hf.tree, ?_, hf.trapframe, by rw [hus, howq], ?_, hf.trap_map,
    by rw [hus, hwq]⟩
  · intro v hv e he hU
    by_cases hvt : v = 0xFFFFF
    · rw [hvt, hf.trap_map, Option.some.injEq] at he
      rw [← he] at hU
      exact absurd (trapEntry_not_user htpage) hU
    · have hc := hf.entry v hv hvt
      rw [he] at hc
      cases hw : walk k.mem (pcb L k cur .pagetable) v with
      | none =>
        rw [hw] at hc
        exact absurd hc nofun
      | some e' =>
        rw [hw] at hc
        by_cases hU' : e' &&& pteU = 0
        · have := hc.kernel hU'
          rw [Option.some.injEq] at this
          rw [this] at hU
          exact absurd hU' hU
        · obtain ⟨p, -, -, how, ho, haddr, -⟩ := hc.user (walk_valid hw) hU'
          rw [Option.some.injEq] at ho
          rw [ho, haddr, how]
  · intro v hv
    have hc := hf.entry v (by omega) (by omega)
    rw [hp.kernel_map v hv] at hc
    exact hc.kernel (kernelEntry_not_user v)

/-- A store to a trap frame of a live process. -/
theorem Inv.setTrapWord {w x : Nat} (hI : Inv L k g) (hlive : Live L k i) (hw : w < 1024) :
    Inv L (Risky321.Kernel.setTrapWord L k i w x) g := by
  obtain ⟨hk1, hg1⟩ := setTrapWord_grow (W := fun _ => False) (x := x) hI.kmem
    (hI.proc i hlive).trapframe hw
  refine hI.pageWrites ?_ hk1 hg1
  rintro c a rfl
  exact id

theorem live_setTrapWord {w x : Nat} (hk : KmemInv L k g)
    (htf : g.ow (pcb L k i .trapframe) = .trapframe (.proc i)) (hw : w < 1024) :
    Live L (setTrapWord L k i w x) j ↔ Live L k j := by
  unfold Live
  refine and_congr_right (fun hj => ?_)
  rw [pcb_setTrapWord (f := .state) hk htf hw hj trivial]

/-- `kproc_fork` from any state in which the free list and the tables of the
caller are in order. -/
theorem kprocFork_spec (hk : KmemInv L k g)
    (ht : Tree k.mem g (.proc cur) (pcb L k cur .pagetable)) (hcur : Live L k cur)
    (hT : HasTable k.mem (pcb L k cur .pagetable) 1023)
    (htf : g.ow (pcb L k cur .trapframe) = .trapframe (.proc cur))
    (h : kprocFork L k cur = some (ret, k')) :
    ∃ i k3 g', freeSlot L k = some i ∧ i ≠ cur ∧ i < 8 ∧ Forked L cur i k g k3 g' ∧
      k' = forkReturn L k3 cur i ∧ ret = pcb L k' i .pid ∧
      2 + copyCount k.mem (pcb L k cur .pagetable) ≤ g.free.length := by
  obtain ⟨i, k1, k2, hslot, h1, h2, hk', hret⟩ := kprocFork_stages h
  obtain ⟨hi, hunused⟩ := freeSlot_spec hslot
  have hne : i ≠ cur := by
    rintro rfl
    exact hcur.2 hunused
  obtain ⟨g1, hs⟩ := forkSpace_spec hk ht hcur.1 hi hne h1
  have htf1 : g1.ow (pcb L k1 cur .trapframe) = .trapframe (.proc cur) := by
    rw [hs.grow.pcb_other (f := .trapframe) hcur.1 trivial (fun h => hne h.symm),
      hs.grow.keep _ (by rw [htf]; exact nofun), htf]
  obtain ⟨g2, hf⟩ := forkTrapframe_spec hs.kmem hs.tree ((hs.hasTable 1023 (by omega)).mpr hT)
    hcur.1 hi hne htf1 h2
  refine ⟨i, _, g2, hslot, hne, hi, forkContext_spec hk hs hf rfl hcur.1 hi hne htf, hk', hret, ?_⟩
  have hlen := List.length_pos_iff.mpr hf.nonempty
  rw [hs.free, List.length_drop] at hlen
  omega

/-- Without a free slot or enough pages it panics, and only then. -/
theorem kprocFork_none (hk : KmemInv L k g)
    (ht : Tree k.mem g (.proc cur) (pcb L k cur .pagetable)) (hcur : Live L k cur)
    (hT : HasTable k.mem (pcb L k cur .pagetable) 1023) (h : kprocFork L k cur = none) :
    freeSlot L k = none ∨ g.free.length < 2 + copyCount k.mem (pcb L k cur .pagetable) := by
  rw [kprocFork_eq] at h
  cases hslot : freeSlot L k with
  | none => exact .inl rfl
  | some i =>
    right
    obtain ⟨hi, hunused⟩ := freeSlot_spec hslot
    have hne : i ≠ cur := by
      rintro rfl
      exact hcur.2 hunused
    simp only [hslot] at h
    cases h1 : forkSpace L k cur i with
    | none =>
      have := forkSpace_none hk ht hcur.1 hi hne h1
      omega
    | some k1 =>
      simp only [h1] at h
      obtain ⟨g1, hs⟩ := forkSpace_spec hk ht hcur.1 hi hne h1
      cases h2 : forkTrapframe L k1 cur i with
      | some k2 =>
        rw [h2] at h
        exact absurd h nofun
      | none =>
        have hnil := forkTrapframe_none hs.kmem hs.tree ((hs.hasTable 1023 (by omega)).mpr hT) hi h2
        have hfree := hs.free
        rw [hnil] at hfree
        have hlen := List.drop_eq_nil_iff.mp hfree.symm
        omega

theorem ProcInv.hasTable_last (hp : ProcInv L k g i) :
    HasTable k.mem (pcb L k i .pagetable) 1023 := by
  have h := hasTable_of_walk hp.trap_map
  rwa [show 0xFFFFF / 1024 = 1023 by decide] at h

/-- `kproc_fork` keeps the invariant. -/
theorem kprocFork_inv (hI : Inv L k g) (hcur : Live L k cur)
    (h : kprocFork L k cur = some (ret, k')) :
    ∃ i k3 g', freeSlot L k = some i ∧ i ≠ cur ∧ Forked L cur i k g k3 g' ∧ Inv L k3 g' ∧
      k' = forkReturn L k3 cur i ∧ Inv L k' g' ∧ Live L k' cur ∧ Live L k' i ∧
      2 + copyCount k.mem (pcb L k cur .pagetable) ≤ g.free.length := by
  have hp := hI.proc cur hcur
  obtain ⟨i, k3, g', hslot, hne, hi, hf, hk', -, hroom⟩ :=
    kprocFork_spec hI.kmem hp.tree hcur hp.hasTable_last hp.trapframe h
  have hI3 : Inv L k3 g' := by
    refine hI.touch hf.grow.touch hf.kmem (fun _ => hf.procInv hI.kmem hp) ?_ ?_
    · obtain ⟨n, heq, hle⟩ := hI.heap i hi
      refine ⟨n, ?_, hle.trans (heapCount_mono hf.grow.heapLeaf)⟩
      rw [hf.field_eq .freeHeapPage trivial nofun nofun nofun nofun nofun nofun nofun, heq]
    · rw [hf.grow.current]
      exact hI.current
  have hlive : Live L k3 cur := by
    refine ⟨hcur.1, ?_⟩
    rw [hf.grow.pcb_other (f := .state) hcur.1 trivial (fun h => hne h.symm)]
    exact hcur.2
  have hlivei : Live L k3 i := ⟨hi, by rw [hf.state]; decide⟩
  have hI4 := hI3.setTrapWord (w := tfA0) (x := pcb L k3 i .pid) hlive (by decide)
  have hlive4 : ∀ {j}, Live L (setTrapWord L k3 cur tfA0 (pcb L k3 i .pid)) j ↔ Live L k3 j :=
    live_setTrapWord hI3.kmem (hI3.proc cur hlive).trapframe (by decide)
  have hi4 := hlive4.mpr hlivei
  have hlive' : ∀ {j}, Live L k' j ↔ Live L k3 j := by
    intro j
    rw [hk', forkReturn]
    exact (live_setTrapWord hI4.kmem (hI4.proc i hi4).trapframe (by decide)).trans hlive4
  refine ⟨i, k3, g', hslot, hne, hf, hI3, hk', ?_, hlive'.mpr hlive, hlive'.mpr hlivei, hroom⟩
  rw [hk', forkReturn]
  exact hI4.setTrapWord hi4 (by decide)

end Risky321.Kernel
