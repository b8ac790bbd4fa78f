/-
Risky321.Kernel.DuplicateTheorems — `kproc_fork` makes a second process like
the caller.

`Forked` and `CopyEntry` say what the copying loop leaves, entry by entry;
here they are put together as a relation between the states before and
after the call (`Duplicated`): the child has the parent's user pages on
pages of its own, shares the kernel's, has its own trap frame with the
parent's registers, and everything else is as it was (`KeptBut`).

That needs the page ownership of `Inv`. After an `exec` whose arguments do
not fit, the copy is made over a page that is in use.
-/
import Risky321.Kernel.SpaceTheorems

namespace Risky321.Kernel

open Risky321.Lib

variable {L : Layout} {k k' k3 : KState} {g g' : Ghost} {i j cur ret p v w : Nat} {s : Sys}

/-! ## §1 What fork promises -/

/-- The process in slot `j` is as before: its control block, its page table,
the bytes of its user pages, and its trap frame but for the words in `T`. -/
structure KeptBut (L : Layout) (k k' : KState) (j : Nat) (T : Nat → Prop) : Prop where
  slot : ∀ x, L.InPcb j x → k'.mem x = k.mem x
  tables : ∀ v < 2 ^ 20, walk k'.mem (pcb L k j .pagetable) v = walk k.mem (pcb L k j .pagetable) v
  memory : ∀ v < 2 ^ 20, ∀ e, walk k.mem (pcb L k j .pagetable) v = some e → e &&& pteU ≠ 0 →
    ∀ x < pageSize, k'.mem (pteAddr e + x) = k.mem (pteAddr e + x)
  words : ∀ w < 1024, ¬ T w → trapWord L k' j w = trapWord L k j w

/-- The page `e` points to has the bytes of the one `e0` points to, is another
one, and was free in `k`. -/
structure FreshCopy (L : Layout) (k k' : KState) (e0 e : Nat) : Prop where
  flags : e &&& 0x3FF = e0 &&& 0x3FF
  bytes : ∀ x < pageSize, k'.mem (pteAddr e + x) = k'.mem (pteAddr e0 + x)
  other : pteAddr e ≠ pteAddr e0
  fresh : ∃ n, UsedFor L k (pteAddr e) (.free n)

/-- Slot `i` holds a copy of the process in slot `cur`, and nothing else has changed. -/
structure Duplicated (L : Layout) (cur i : Nat) (k k' : KState) : Prop where
  live : Live L k' i
  user : ∀ v < 2 ^ 20, ∀ e0, walk k.mem (pcb L k cur .pagetable) v = some e0 → e0 &&& pteU ≠ 0 →
    ∃ e, walk k'.mem (pcb L k' i .pagetable) v = some e ∧ e &&& pteU ≠ 0 ∧ FreshCopy L k k' e0 e
  only : ∀ v < 2 ^ 20, ∀ e, walk k'.mem (pcb L k' i .pagetable) v = some e → e &&& pteU ≠ 0 →
    ∃ e0, walk k.mem (pcb L k cur .pagetable) v = some e0 ∧ e0 &&& pteU ≠ 0
  distinct : ∀ v < 2 ^ 20, ∀ w < 2 ^ 20, ∀ e f, walk k'.mem (pcb L k' i .pagetable) v = some e →
    e &&& pteU ≠ 0 → walk k'.mem (pcb L k' i .pagetable) w = some f → f &&& pteU ≠ 0 →
      v ≠ w → pteAddr e ≠ pteAddr f
  kernel : ∀ v < 2 ^ 20, v ≠ vaTrapframe / pageSize →
    isUser (walk k.mem (pcb L k cur .pagetable) v) = false →
      walk k'.mem (pcb L k' i .pagetable) v = walk k.mem (pcb L k cur .pagetable) v
  trapframe : Maps k'.mem (pcb L k' i .pagetable) (vaTrapframe / pageSize) (pcb L k' i .trapframe)
    (pteR ||| pteW) pteU
  ownTrapframe : ∀ j, Live L k j → pcb L k' i .trapframe ≠ pcb L k' j .trapframe
  registers : ∀ w, IsReg w → w ≠ tfA0 → trapWord L k' i w = trapWord L k cur w
  values : trapWord L k' i tfA0 = 0 ∧ trapWord L k' cur tfA0 = pcb L k' i .pid
  parent : KeptBut L k k' cur (fun w => w = tfA0)
  others : ∀ j, Live L k j → j ≠ cur → KeptBut L k k' j (fun _ => False)

/-! ## §2 The return values -/

/-- The words of the two trap frames that `fork` sets. -/
structure ForkWords (L : Layout) (cur i : Nat) (k : KState) (g : Ghost) (k' : KState) : Prop where
  words : TrapWords L k g k'
  values : trapWord L k' i tfA0 = 0 ∧ trapWord L k' cur tfA0 = pcb L k i .pid
  other : ∀ j, Live L k j → ∀ w < 1024, j ≠ cur ∧ j ≠ i ∨ w ≠ tfA0 →
    trapWord L k' j w = trapWord L k j w

/-- A word of another trap frame. -/
theorem trapWord_setTrapWord_slot {x u : Nat} (hI : Inv L k g) (hi : Live L k i) (hj : Live L k j)
    (hne : j ≠ i) (hw : w < 1024) (hu : u < 1024) :
    trapWord L (setTrapWord L k i u x) j w = trapWord L k j w := by
  obtain ⟨-, hg⟩ := setTrapWord_grow (W := fun _ => False) (x := x) hI.kmem
    (hI.proc i hi).trapframe hu
  refine trapWord_grow hg hI.kmem (hI.proc j hj).trapframe ?_
    (hg.pcb (f := .trapframe) hj.1 trivial (fun _ _ h => h)) hw
  intro heq
  cases heq
  exact hne rfl

theorem forkReturn_words (hI : Inv L k g) (hcur : Live L k cur) (hi : Live L k i) (hne : i ≠ cur) :
    ForkWords L cur i k g (forkReturn L k cur i) := by
  have hw1 : TrapWords L k g (setTrapWord L k cur tfA0 (pcb L k i .pid)) :=
    setTrapWord_words hI hcur (by decide)
  have hI1 := hw1.inv hI
  have hi1 := hw1.live.mpr hi
  have hcur1 := hw1.live.mpr hcur
  have hw2 := setTrapWord_words (w := tfA0) (x := 0) hI1 hi1 (by decide)
  have hpid := pcb_lt L k i .pid
  refine ⟨hw1.trans hw2, ⟨?_, ?_⟩, ?_⟩
  · exact trapWord_setTrapWord_same hI1.kmem hi.1 (hI1.proc i hi1).trapframe (by decide) (by decide)
  · rw [forkReturn, trapWord_setTrapWord_slot hI1 hi1 hcur1 (Ne.symm hne) (by decide) (by decide)]
    exact trapWord_setTrapWord_same hI.kmem hcur.1 (hI.proc cur hcur).trapframe (by decide) hpid
  · intro j hj w hw hor
    have h2 : trapWord L (forkReturn L k cur i) j w =
        trapWord L (setTrapWord L k cur tfA0 (pcb L k i .pid)) j w := by
      by_cases hji : j = i
      · have hwa : w ≠ tfA0 := hor.resolve_left fun h => h.2 hji
        rw [hji]
        exact trapWord_setTrapWord_of_ne hI1.kmem hi.1 (hI1.proc i hi1).trapframe (by decide) hwa
      · exact trapWord_setTrapWord_slot hI1 hi1 (hw1.live.mpr hj) hji hw (by decide)
    rw [h2]
    by_cases hjc : j = cur
    · have hwa : w ≠ tfA0 := hor.resolve_left fun h => h.1 hjc
      rw [hjc]
      exact trapWord_setTrapWord_of_ne hI.kmem hcur.1 (hI.proc cur hcur).trapframe (by decide) hwa
    · exact trapWord_setTrapWord_slot hI hcur hj hjc hw (by decide)

/-! ## §3 What is kept -/

theorem KeptBut.pcb {T : Nat → Prop} (h : KeptBut L k k' j T) {f : PcbField} (hf : f.InStruct) :
    pcb L k' j f = pcb L k j f := by
  have ho := PcbField.offset_lt hf
  refine load32_congr fun x h1 h2 => h.slot x ?_
  simp only [Layout.InPcb]
  omega

theorem KeptBut.trans {T : Nat → Prop} (h : KeptBut L k k3 j (fun _ => False))
    (h' : KeptBut L k3 k' j T) : KeptBut L k k' j T := by
  have hpt : Risky321.Kernel.pcb L k3 j .pagetable = Risky321.Kernel.pcb L k j .pagetable :=
    h.pcb trivial
  refine ⟨fun x hx => (h'.slot x hx).trans (h.slot x hx), fun v hv => ?_, fun v hv e he hU x hx => ?_,
    fun w hw hT => (h'.words w hw hT).trans (h.words w hw id)⟩
  · rw [← h.tables v hv, ← hpt]
    exact h'.tables v hv
  · have he3 : walk k3.mem (Risky321.Kernel.pcb L k3 j .pagetable) v = some e := by
      rw [hpt, h.tables v hv, he]
    rw [h'.memory v hv e he3 hU x hx, h.memory v hv e he hU x hx]

theorem Undisturbed.keptBut (h : Undisturbed L k k' j) : KeptBut L k k' j (fun _ => False) where
  slot := h.slot
  tables := h.tables
  memory := h.memory
  words w hw _ := by
    have htf : pcb L k' j .trapframe = pcb L k j .trapframe := by
      refine load32_congr fun x h1 h2 => h.slot x ?_
      simp only [Layout.InPcb, PcbField.offset] at *
      omega
    rw [trapWord, trapWord, htf]
    refine load32_congr fun x h1 h2 => ?_
    have hx := h.registers (x - pcb L k j .trapframe) (by simp only [pageSize]; omega)
    rwa [Nat.add_sub_cancel' (by omega)] at hx

/-- Words of trap frames are all that changed. -/
theorem TrapWords.keptBut {T : Nat → Prop} (h : TrapWords L k g k') (hI : Inv L k g)
    (hj : Live L k j) (hT : ∀ w < 1024, ¬ T w → trapWord L k' j w = trapWord L k j w) :
    KeptBut L k k' j T where
  slot x hx := by
    have hb := L.proc_bound hj.1
    simp only [Layout.InPcb, sizeofProcess] at *
    exact h.grow.static_mem x (by omega) id
  tables _ hv :=
    (hI.proc j hj).tree.walk_grow hI.kmem h.grow (fun _ hc => hc.not_table) hv
  memory v hv e he hU x hx := by
    have how := (hI.proc j hj).leaves v hv e he hU
    refine h.grow.page_mem _ (hI.kmem.page_of how (by simp)) (by rw [how]; simp) ?_ x hx
    rw [how]
    rintro ⟨n, hn⟩
    cases hn
  words := hT

/-! ## §4 The child -/

/-- A page with the role of a free one is somewhere on the list. -/
theorem KmemInv.usedFor (hk : KmemInv L k g) (h : g.ow p = .free) :
    ∃ n, UsedFor L k p (.free n) := by
  obtain ⟨n, hn, hp⟩ := List.getElem_of_mem ((hk.free_iff p).mpr h)
  have hb := (hk.page_of h (by simp)).bounds
  refine ⟨n, by omega, ?_⟩
  rw [hk.chain.nodeAt_eq, List.getD_eq_getElem _ _ hn, hp]

/-- The entry of a user page in the child. -/
theorem Forked.user_entry (hf : Forked L cur i k g k3 g') (hI : Inv L k g) (hcur : Live L k cur)
    (hne : i ≠ cur) (hw : TrapWords L k3 g' k') (hkept : KeptBut L k k' cur (fun w => w = tfA0))
    (hv : v < 2 ^ 20) {e0 : Nat} (he : walk k.mem (pcb L k cur .pagetable) v = some e0)
    (hU : e0 &&& pteU ≠ 0) : ∃ e, walk k3.mem (pcb L k3 i .pagetable) v = some e ∧
      e &&& pteU ≠ 0 ∧ FreshCopy L k k' e0 e := by
  have hp := hI.proc cur hcur
  have hleaf := hp.leaves v hv e0 he hU
  have hv' : v ≠ 0xFFFFF := by
    rintro rfl
    rw [Option.some.inj (he.symm.trans hp.trap_map)] at hU
    exact hU (trapEntry_not_user (hI.kmem.page_of hp.trapframe (by simp)))
  have hentry := hf.entry v hv hv'
  rw [he] at hentry
  obtain ⟨p, hpage, hfree, how, hw3, haddr, hbytes⟩ := hentry.user (walk_valid he) hU
  have hflags : (p / 4 + e0 % 1024) % 1024 = e0 % 1024 := by
    have hal := hpage.2.2
    omega
  have hsrc := hbytes (hI.kmem.page_of hleaf (by simp)) (by rw [hleaf]; simp) (by
    rw [hleaf]
    intro hof
    cases hof
    exact hne rfl)
  refine ⟨_, hw3, ?_, ⟨?_, ?_, ?_, ?_⟩⟩
  · rw [← mod_1024_and (by decide), hflags, mod_1024_and (by decide)]
    exact hU
  · rw [and_0x3FF, and_0x3FF, hflags]
  · intro x hx
    rw [haddr, hkept.memory v hv e0 he hU x hx, ← hsrc x hx]
    refine hw.grow.page_mem p hpage (by rw [how]; simp) ?_ x hx
    rw [how]
    rintro ⟨n, hn⟩
    cases hn
  · rw [haddr]
    rintro rfl
    rw [hfree] at hleaf
    cases hleaf
  · rw [haddr]
    exact hI.kmem.usedFor hfree

/-- The state behind `kproc_fork`. -/
theorem Forked.duplicated (hf : Forked L cur i k g k3 g') (hI : Inv L k g) (hI3 : Inv L k3 g')
    (hcur : Live L k cur) (hne : i ≠ cur) (hi : Live L k3 i) (hunused : ¬ Live L k i)
    (hw : ForkWords L cur i k3 g' k') : Duplicated L cur i k k' := by
  have hI' := hw.words.inv hI3
  have hi' := hw.words.live.mpr hi
  have hkept3 : ∀ j, Live L k j → KeptBut L k k3 j (fun _ => False) := fun j hj =>
    (hf.grow.touch.undisturbed hI hj fun h => hunused (h ▸ hj)).keptBut
  have hlive3 : ∀ {j}, Live L k j → Live L k3 j := fun hj =>
    ⟨hj.1, by rw [(hkept3 _ hj).pcb (f := .state) trivial]; exact hj.2⟩
  have hkept : ∀ j, Live L k j → ∀ T : Nat → Prop, (∀ w < 1024, ¬ T w → j ≠ cur ∨ w ≠ tfA0) →
      KeptBut L k k' j T := by
    intro j hj T hT
    refine (hkept3 j hj).trans (hw.words.keptBut hI3 (hlive3 hj) fun w hlt hno => ?_)
    obtain hjc | hwa := hT w hlt hno
    · exact hw.other j (hlive3 hj) w hlt (.inl ⟨hjc, fun h => hunused (h ▸ hj)⟩)
    · exact hw.other j (hlive3 hj) w hlt (.inr hwa)
  have hparent := hkept cur hcur (fun w => w = tfA0) fun w _ hno => .inr hno
  have hpt : pcb L k' i .pagetable = pcb L k3 i .pagetable := hw.words.pcb hi.1 trivial
  have htf : pcb L k' i .trapframe = pcb L k3 i .trapframe := hw.words.pcb hi.1 trivial
  have hwalk : ∀ v < 2 ^ 20, walk k'.mem (pcb L k' i .pagetable) v =
      walk k3.mem (pcb L k3 i .pagetable) v := by
    intro v hv
    rw [hpt]
    exact hf.tree.walk_grow hf.kmem hw.words.grow (fun _ hc => hc.not_table) hv
  have hpi := hI'.proc i hi'
  have hnone : ∀ v < 2 ^ 20, v ≠ 0xFFFFF →
      isUser (walk k.mem (pcb L k cur .pagetable) v) = false →
      walk k3.mem (pcb L k3 i .pagetable) v = walk k.mem (pcb L k cur .pagetable) v := by
    intro v hv hvt hno
    have hentry := hf.entry v hv hvt
    cases he : walk k.mem (pcb L k cur .pagetable) v with
    | none =>
      rw [he] at hentry
      exact hentry
    | some e0 =>
      rw [he] at hentry hno
      exact hentry.kernel (by simpa [isUser] using hno)
  refine ⟨hi', ?_, ?_, ?_, ?_, ?_, ?_, ?_, ?_, hparent, ?_⟩
  · intro v hv e0 he hU
    rw [hwalk v hv]
    exact hf.user_entry hI hcur hne hw.words hparent hv he hU
  · intro v hv e he hU
    rw [hwalk v hv] at he
    by_cases hvt : v = 0xFFFFF
    · rw [hvt, hf.trap_map] at he
      rw [← Option.some.inj he] at hU
      exact absurd (trapEntry_not_user (hf.kmem.page_of hf.trapframe (by simp))) hU
    · by_contra hno
      have hfalse : isUser (walk k.mem (pcb L k cur .pagetable) v) = false := by
        cases he0 : walk k.mem (pcb L k cur .pagetable) v with
        | none => rfl
        | some e0 =>
          by_contra huser
          exact hno ⟨e0, he0, by simpa [isUser] using huser⟩
      rw [hnone v hv hvt hfalse] at he
      exact hno ⟨e, he, hU⟩
  · intro v hv w hw' e f he hU hfw hUf hvw heq
    have h1 := hpi.leaves v hv e he hU
    have h2 := hpi.leaves w hw' f hfw hUf
    rw [heq, h2] at h1
    cases h1
    exact hvw rfl
  · intro v hv hvt hno
    rw [hwalk v hv]
    exact hnone v hv hvt hno
  · exact (hI'.spaceShape hi').trapframe
  · intro j hj heq
    have hji : j ≠ i := fun h => hunused (h ▸ hj)
    have h1 := hpi.trapframe
    rw [heq, (hI'.proc j (hw.words.live.mpr (hlive3 hj))).trapframe] at h1
    cases h1
    exact hji rfl
  · intro w hreg hwa
    have hlt : w < 1024 ∧ w ≠ tfKernelSp ∧ w ≠ tfKernelTrap := by
      simp only [IsReg, tfEpc, tfKernelSp, tfKernelTrap] at *
      omega
    rw [hw.other i hi w hlt.1 (.inr hwa), hf.words w hlt.1 hlt.2.1 hlt.2.2]
  · rw [hw.words.pcb (f := .pid) hi.1 trivial]
    exact hw.values
  · exact fun j hj hjc => hkept j hj _ fun _ _ _ => .inl hjc

/-! ## §5 Fork -/

/-- In every run in which the arguments of each `exec` fit, a fork with a free
slot and enough pages succeeds and duplicates the caller. -/
theorem fork_duplicates (L : Layout) {free : List Nat}
    (h : SysReach L (fun s op => op.Safe L s) s) (hlive : Live L s.k cur)
    (hslot : freeSlot L s.k = some i) (hfree : FreeList L s.k free)
    (hroom : 2 + copyCount s.k.mem (pcb L s.k cur .pagetable) ≤ free.length) :
    ∃ k', kprocFork L s.k cur = some (pcb L k' i .pid, k') ∧ Duplicated L cur i s.k k' := by
  obtain ⟨g, hI, -, -⟩ := sysReach_inv (fun _ _ h => h) h
  have hp := hI.proc cur hlive
  cases hf : kprocFork L s.k cur with
  | none =>
    obtain hno | hno := kprocFork_none hI.kmem hp.tree hlive hp.hasTable_last hf
    · cases hslot.symm.trans hno
    · rw [hfree.eq_of_kmemInv hI.kmem] at hno
      omega
  | some rk =>
    obtain ⟨ret, k'⟩ := rk
    obtain ⟨j, k3, g', hslot', hne, hfk, hI3, hk', -, -, -, -⟩ := kprocFork_inv hI hlive hf
    obtain rfl : i = j := Option.some.inj (hslot.symm.trans hslot')
    obtain ⟨j, k1, k2, hslot'', -, -, -, hret⟩ := kprocFork_stages hf
    obtain rfl : i = j := Option.some.inj (hslot.symm.trans hslot'')
    obtain ⟨hi, hunused⟩ := freeSlot_spec hslot
    have hi3 : Live L k3 i := ⟨hi, by rw [hfk.state]; decide⟩
    have hcur3 : Live L k3 cur := by
      refine ⟨hlive.1, ?_⟩
      rw [hfk.grow.pcb_other (f := .state) hlive.1 trivial (Ne.symm hne)]
      exact hlive.2
    have hw := forkReturn_words hI3 hcur3 hi3 hne
    rw [← hk'] at hw
    exact ⟨k', by rw [hret], hfk.duplicated hI hI3 hlive hne hi3 (fun hl => hl.2 hunused) hw⟩

/-- The first process forks. -/
theorem fork_duplicates_first : ∃ (s : Sys) (k' : KState),
    kprocFork exampleLayout s.k 0 = some (pcb exampleLayout k' 1 .pid, k') ∧
      Duplicated exampleLayout 0 1 s.k k' := by
  obtain ⟨s, g, hs, he, -⟩ := exampleEntered (fun s op => op.Safe exampleLayout s)
    (fun _ _ => trivial)
  have hr := he.running
  have hcopy := copyCount_add_free_le hr.inv.inv.kmem (hr.inv.inv.proc 0 hr.live).leaves
  have hroom := he.exampleFree
  obtain ⟨k', hfork, hdup⟩ := fork_duplicates exampleLayout hs hr.live
    (freeSlot_one hr.live (he.others 1 (by decide) (by decide))) hr.inv.inv.kmem.freeList (by omega)
  exact ⟨s, k', hfork, hdup⟩

/-- The first process executes its own file with arguments that do not fit, and
forks: the child's first table is made over the parent's stack page. -/
theorem fork_overwrites_parent : ¬ ∀ (s : Sys) (cur i : Nat) (free : List Nat),
    SysReach exampleLayout (fun s op => op.Lifecycle exampleLayout s) s →
      Live exampleLayout s.k cur → freeSlot exampleLayout s.k = some i →
      FreeList exampleLayout s.k free →
      2 + copyCount s.k.mem (pcb exampleLayout s.k cur .pagetable) ≤ free.length →
      ∃ k', kprocFork exampleLayout s.k cur = some (pcb exampleLayout k' i .pid, k') ∧
        Duplicated exampleLayout cur i s.k k' := by
  intro hclaim
  obtain ⟨s, g, hs, -, -, hlive, hothers, hspill⟩ := exampleSpilled
  have hslot := freeSlot_one hlive (hothers 1 (by decide) (by decide))
  obtain ⟨k', hfork', hdup⟩ := hclaim s 0 1 g.free hs hlive hslot hspill.kmem.freeList hspill.room
  obtain ⟨ret, k3, g2, hfork, htorn, -⟩ := hspill.fork hlive hslot
  have hk' : forkReturn exampleLayout k3 0 1 = k' := by
    rw [hfork] at hfork'
    exact congrArg Prod.snd (Option.some.inj hfork')
  have hentry := htorn.forkReturn.entry
  rw [hk'] at hentry
  have hpage := hspill.kmem.page_of (r := .free)
    ((hspill.kmem.free_iff 0x86B99000).mp (by obtain ⟨p, rest, hfree⟩ := hspill.free; simp [hfree]))
    (by simp)
  have hbyte := hdup.parent.memory 0xFFFFE (by decide) _ hspill.stack_map (stackEntry_user hpage) 0
    (by decide)
  rw [pteAddr_page hpage (by decide), Nat.add_zero, hspill.zero] at hbyte
  rw [load32, hbyte] at hentry
  have hzero : (0 : UInt8).toNat = 0 := rfl
  omega

end Risky321.Kernel
