/-
Risky321.Kernel.SpaceTheorems — whose page is it, and what does an address
space look like.

The invariant of the runs gives each page one role (`Ghost.ow`). Here that is
said without the ghost record: `UsedFor` reads off the memory what a page is
used for, and no page is used for two things (`PagesExclusive`). The same
invariant has the shape of the address spaces that the trap code relies on
(`SpaceShape`): the kernel below, the stack and the trap frame on top, and
the next heap page between them.

Both need that the arguments of each `exec` fit on its stack page. §4 has the
runs in which they do not.
-/
import Risky321.Kernel.OverflowTheorems

namespace Risky321.Kernel

open Risky321.Lib

variable {L : Layout} {k k' : KState} {g : Ghost} {i cur p q v : Nat} {s : Sys}

/-! ## §1 What a page is used for -/

/-- What the kernel uses a page of the free region for: the `n`-th of the free
list, a page table, the trap frame of a process, the user page `v` of a
process, or one of the three virtio pages. -/
inductive PageUse
  | free (n : Nat)
  | root (a : Space)
  | table (a : Space) (n : Nat)
  | trapframe (i : Nat)
  | leaf (i v : Nat)
  | virtio (n : Nat)
  deriving DecidableEq, Repr

/-- `r` is the root of the kernel's page table, or of a live process's. -/
def RootOf (L : Layout) (k : KState) (r : Nat) : Space → Prop
  | .kernel => r = k.kernelPagetable
  | .proc i => Live L k i ∧ r = pcb L k i .pagetable

/-- The page `p` is used for `u`, as the pointers in memory say. -/
def UsedFor (L : Layout) (k : KState) (p : Nat) : PageUse → Prop
  | .free n => p ≠ 0 ∧ p = nodeAt k.mem k.head n
  | .root a => RootOf L k p a
  | .table a n => ∃ r, RootOf L k r a ∧ n < 1024 ∧ HasTable k.mem r n ∧ p = tableOf k.mem r n
  | .trapframe i => Live L k i ∧ p = pcb L k i .trapframe
  | .leaf i v => Live L k i ∧ v < 2 ^ 20 ∧ ∃ e, walk k.mem (pcb L k i .pagetable) v = some e ∧
      e &&& pteU ≠ 0 ∧ p = pteAddr e
  | .virtio n =>
      some p = [k.blkRequestVq + pageSize, k.blkRequestVq, k.blkReqPaddr][n]?

/-- The role a page has when it is used for `u`. -/
def PageUse.role : PageUse → Role
  | .free _ => .free
  | .root a => .root a
  | .table a n => .table a n
  | .trapframe i => .trapframe (.proc i)
  | .leaf i v => .leaf (.proc i) v
  | .virtio n => .virtio n

theorem PageUse.role_ne_lost (u : PageUse) : u.role ≠ .lost := by
  cases u <;> simp [PageUse.role]

theorem PageUse.eq_of_role {u v : PageUse} (h : u.role = v.role) :
    u = v ∨ ∃ n n', u = .free n ∧ v = .free n' := by
  cases u <;> cases v <;> simp_all [PageUse.role]

/-- Where it is on the free list. -/
theorem UsedFor.getElem {n : Nat} (h : UsedFor L k p (.free n)) (hk : KmemInv L k g) :
    g.free[n]? = some p := by
  obtain ⟨hne, hp⟩ := h
  rw [hk.chain.nodeAt_eq, List.getD_eq_getElem?_getD] at hp
  cases hn : g.free[n]? with
  | none =>
    rw [hn] at hp
    exact absurd hp hne
  | some q =>
    rw [hn] at hp
    rw [hp, Option.getD_some]

theorem RootOf.tree {r : Nat} {a : Space} (h : RootOf L k r a) (hI : Inv L k g) :
    Tree k.mem g a r := by
  cases a with
  | kernel =>
    rw [show r = k.kernelPagetable from h]
    exact hI.kernel
  | proc i =>
    obtain ⟨hlive, rfl⟩ := h
    exact (hI.proc i hlive).tree

/-- Its role in the ghost record says what a page is used for. -/
theorem UsedFor.role {u : PageUse} (h : UsedFor L k p u) (hI : Inv L k g) : g.ow p = u.role := by
  cases u with
  | free n => exact (hI.kmem.free_iff p).mp (List.mem_of_getElem? (h.getElem hI.kmem))
  | root a => exact (RootOf.tree h hI).root
  | table a n =>
    obtain ⟨r, hr, hn, hT, rfl⟩ := h
    exact (hr.tree hI).table n hn hT
  | trapframe i =>
    obtain ⟨hlive, rfl⟩ := h
    exact (hI.proc i hlive).trapframe
  | leaf i v =>
    obtain ⟨hlive, hv, e, hw, hU, rfl⟩ := h
    exact (hI.proc i hlive).leaves v hv e hw hU
  | virtio n =>
    obtain _ | _ | _ | n := n
    · rw [Option.some.inj h]
      exact hI.queueUpper
    · rw [Option.some.inj h]
      exact hI.queueLower
    · rw [Option.some.inj h]
      exact hI.request
    · simp [UsedFor] at h

theorem UsedFor.isPage {u : PageUse} (h : UsedFor L k p u) (hI : Inv L k g) : L.IsPage p :=
  hI.kmem.page_of (h.role hI) u.role_ne_lost

theorem UsedFor.unique {u w : PageUse} (h : UsedFor L k p u) (h' : UsedFor L k p w)
    (hI : Inv L k g) : u = w := by
  obtain heq | ⟨n, n', rfl, rfl⟩ := PageUse.eq_of_role ((h.role hI).symm.trans (h'.role hI))
  · exact heq
  · have h1 := h.getElem hI.kmem
    have h2 := h'.getElem hI.kmem
    have hn := (List.getElem?_eq_some_iff.mp h1).1
    rw [(List.getElem?_inj hn hI.kmem.nodup).mp (h1.trans h2.symm)]

/-! ## §2 Exclusive pages -/

/-- The pages that `kproc_free` and `kproc_kill` give back. -/
def releasedPages (L : Layout) (k : KState) (i : Nat) : List Nat :=
  [pcb L k i .trapframe, pcb L k i .pagetable, pcb L k i .userStack]

/-- Each page has one use at most, and only pages of the free region have
one. The pages that are given back when a process ends are different, and none of
them is on the free list already. -/
structure PagesExclusive (L : Layout) (k : KState) : Prop where
  page : ∀ p u, UsedFor L k p u → L.IsPage p
  oneUse : ∀ p u w, UsedFor L k p u → UsedFor L k p w → u = w
  released : ∀ i, Live L k i → (releasedPages L k i).Nodup ∧
    ∀ p ∈ releasedPages L k i, ∀ n, ¬ UsedFor L k p (.free n)

theorem pteAddr_page (hp : L.IsPage p) {f : Nat} (hf : f < 1024) : pteAddr (p / 4 + f) = p := by
  have hb := hp.bounds
  exact pteAddr_entry hp.2.2 (by omega) hf

/-- What the pages that are given back were used for. -/
theorem ProcInv.released_use (hp : ProcInv L k g i) (hk : KmemInv L k g) (hlive : Live L k i) :
    UsedFor L k (pcb L k i .trapframe) (.trapframe i) ∧
      UsedFor L k (pcb L k i .pagetable) (.root (.proc i)) ∧
      UsedFor L k (pcb L k i .userStack) (.leaf i 0xFFFFE) := by
  have hs := hk.page_of hp.userStack (by simp)
  exact ⟨⟨hlive, rfl⟩, ⟨hlive, rfl⟩, hlive, by decide, _, hp.stack_map, stackEntry_user hs,
    (pteAddr_page hs (by decide)).symm⟩

theorem Inv.pagesExclusive (hI : Inv L k g) : PagesExclusive L k where
  page _ _ h := h.isPage hI
  oneUse _ _ _ h h' := h.unique h' hI
  released i hlive := by
    obtain ⟨htf, hpt, hus⟩ := (hI.proc i hlive).released_use hI.kmem hlive
    have hne : ∀ {p q u w}, UsedFor L k p u → UsedFor L k q w → u ≠ w → p ≠ q := by
      rintro p q u w hu hw hne rfl
      exact hne (hu.unique hw hI)
    refine ⟨?_, ?_⟩
    · have h1 := hne htf hpt (by simp)
      have h2 := hne htf hus (by simp)
      have h3 := hne hpt hus (by simp)
      simp [releasedPages, h1, h2, h3]
    · intro p hp n hfree
      simp only [releasedPages, List.mem_cons, List.not_mem_nil, or_false] at hp
      obtain rfl | rfl | rfl := hp
      · cases htf.unique hfree hI
      · cases hpt.unique hfree hI
      · cases hus.unique hfree hI

/-- In every run in which the arguments of each `exec` fit, pages are exclusive. -/
theorem pages_exclusive (L : Layout) (h : SysReach L (fun s op => op.Safe L s) s) :
    PagesExclusive L s.k := by
  obtain ⟨g, hI⟩ := sysReach_inv (fun _ _ h => h) h
  exact hI.inv.pagesExclusive

/-- Two processes are live. -/
theorem pages_exclusive_forked : ∃ (s : Sys) (i : Nat), Live exampleLayout s.k 0 ∧ Live exampleLayout s.k i ∧
    i ≠ 0 ∧ PagesExclusive exampleLayout s.k := by
  obtain ⟨s, g, s1, g1, i, -, hs, -, hstep, hr, hlive, hne⟩ := exampleForked
  exact ⟨s1, i, hr.live, hlive, hne,
    pages_exclusive exampleLayout (hs.step (Op.safe_fork _ _) hstep)⟩

/-- Arguments that do not fit put the stack page of a live process on the free list. -/
theorem exec_frees_stack : ¬ ∀ s,
    SysReach exampleLayout (fun s op => op.Lifecycle exampleLayout s) s →
      PagesExclusive exampleLayout s.k := by
  intro hclaim
  obtain ⟨s, g, hs, -, -, hlive, -, hspill⟩ := exampleSpilled
  obtain ⟨p, rest, hfree⟩ := hspill.free
  have how : g.ow 0x86B99000 = .free := (hspill.kmem.free_iff _).mp (by simp [hfree])
  have hpage := hspill.kmem.page_of how (by simp)
  have hleaf : UsedFor exampleLayout s.k 0x86B99000 (.leaf 0 0xFFFFE) :=
    ⟨hlive, by decide, _, hspill.stack_map, stackEntry_user hpage,
      (pteAddr_page hpage (by decide)).symm⟩
  have hnode : UsedFor exampleLayout s.k 0x86B99000 (.free 1) := by
    refine ⟨by decide, ?_⟩
    rw [hspill.kmem.chain.nodeAt_eq, hfree]
    rfl
  cases (hclaim s hs).oneUse _ _ _ hleaf hnode

/-! ## §3 The shape of an address space -/

/-- The page `v` is the page `p`, with the flags `set` and without the flags `clear`. -/
def Maps (m : Mem) (r v p set clear : Nat) : Prop :=
  ∃ e, walk m r v = some e ∧ pteAddr e = p ∧ e &&& set = set ∧ e &&& clear = 0

theorem maps_of_walk {m : Mem} {r f set clear : Nat} (h : walk m r v = some (p / 4 + f))
    (hp : p % 4096 = 0) (hlt : p < 2 ^ 32) (hf : f < 1024) (hset : set < 1024 ∧ f &&& set = set)
    (hclear : clear < 1024 ∧ f &&& clear = 0) : Maps m r v p set clear := by
  have hmod : (p / 4 + f) % 1024 = f := by omega
  refine ⟨_, h, pteAddr_entry hp hlt hf, ?_, ?_⟩
  · rw [← mod_1024_and hset.1, hmod, hset.2]
  · rw [← mod_1024_and hclear.1, hmod, hclear.2]

/-- What `ktrap_to_user` and the trap handler find in the process in slot `i`. -/
structure SpaceShape (L : Layout) (k : KState) (i : Nat) : Prop where
  pid : pcb L k i .pid = i + 1
  kernel : ∀ va < L.freeRamEnd, Maps k.mem (pcb L k i .pagetable) (va / pageSize)
    (va / pageSize * pageSize) (pteR ||| pteW ||| pteX) pteU
  trapframe : Maps k.mem (pcb L k i .pagetable) (vaTrapframe / pageSize) (pcb L k i .trapframe)
    (pteR ||| pteW) pteU
  userStack : Maps k.mem (pcb L k i .pagetable) (vaUserStack / pageSize) (pcb L k i .userStack)
    pteU 0
  heapPage : vaUserBase ≤ pcb L k i .freeHeapPage ∧ pcb L k i .freeHeapPage < vaUserStack
  addPage : ∀ ret k', kprocAddPage L k i = some (ret, k') → ∀ v < 2 ^ 20,
    v < L.freeRamEnd / pageSize ∨ v = vaUserStack / pageSize ∨ v = vaTrapframe / pageSize →
      walk k'.mem (pcb L k' i .pagetable) v = walk k.mem (pcb L k i .pagetable) v

/-- The page that `kproc_add_page` maps is neither the kernel's nor the stack. -/
theorem PageAdded.keeps {g' : Ghost} (h : PageAdded L i k g q k' g')
    (hlow : vaUserBase ≤ pcb L k i .freeHeapPage) (hhigh : pcb L k i .freeHeapPage < vaUserStack)
    (hv : v < 2 ^ 20)
    (hr : v < L.freeRamEnd / pageSize ∨ v = vaUserStack / pageSize ∨ v = vaTrapframe / pageSize) :
    walk k'.mem (pcb L k' i .pagetable) v = walk k.mem (pcb L k i .pagetable) v := by
  rw [h.field_eq .pagetable trivial (by simp), h.walk_eq v hv, if_neg]
  have hend := L.end_le
  simp only [vaUserBase, vaUserStack, vaUserStackInit, vaTrapframe, pageSize,
    Layout.freeRamEnd] at *
  omega

theorem Inv.spaceShape (hI : Inv L k g) (hlive : Live L k i) : SpaceShape L k i where
  pid := (hI.proc i hlive).pid
  kernel va hva := by
    have hb := L.begin_aligned
    have hle := L.kernelPages_lt
    have hv : va / pageSize < L.kernelPages := by
      simp only [Layout.kernelPages, Layout.freeRamEnd, pageSize] at *
      omega
    have hw := (hI.proc i hlive).kernel_map _ hv
    have hentry : va / pageSize * 1024 + 15 = va / pageSize * pageSize / 4 + 15 := by
      simp only [pageSize]
      omega
    rw [hentry] at hw
    exact maps_of_walk hw (Nat.mul_mod_left _ _) (by simp only [pageSize] at *; omega) (by decide)
      (by decide) (by decide)
  trapframe := by
    have hp := hI.proc i hlive
    have hb := (hI.kmem.page_of hp.trapframe (by simp)).bounds
    exact maps_of_walk hp.trap_map (hI.kmem.page_of hp.trapframe (by simp)).2.2 (by omega)
      (by decide) (by decide) (by decide)
  userStack := by
    have hp := hI.proc i hlive
    have hb := (hI.kmem.page_of hp.userStack (by simp)).bounds
    exact maps_of_walk hp.stack_map (hI.kmem.page_of hp.userStack (by simp)).2.2 (by omega)
      (by decide) (by decide) (by decide)
  heapPage := by
    obtain ⟨hlow, hhigh, -⟩ := (hI.heap i hlive.1).lt
    exact ⟨hlow, hhigh⟩
  addPage ret k' h v hv hr := by
    obtain ⟨hlow, hhigh, -⟩ := (hI.heap i hlive.1).lt
    have hp := hI.proc i hlive
    obtain ⟨-, q, g', ha⟩ := kprocAddPage_spec hI.kmem hlive.1 hp.tree hp.leaves h
    exact ha.keeps hlow hhigh hv hr

/-- In every run in which the arguments of each `exec` fit, each live process
has this shape. -/
theorem space_shape (L : Layout) (h : SysReach L (fun s op => op.Safe L s) s)
    (hlive : Live L s.k i) : SpaceShape L s.k i := by
  obtain ⟨g, hI⟩ := sysReach_inv (fun _ _ h => h) h
  exact hI.inv.spaceShape hlive

/-- The child of the first process. -/
theorem space_shape_child : ∃ (s : Sys) (i : Nat), i ≠ 0 ∧ SpaceShape exampleLayout s.k i := by
  obtain ⟨s, g, s1, g1, i, -, hs, -, hstep, hr, hlive, hne⟩ := exampleForked
  exact ⟨s1, i, hne, space_shape exampleLayout (hs.step (Op.safe_fork _ _) hstep) hlive⟩

/-- The first process executes its own file with arguments that do not fit,
forks, and exits; its child has lost the first page of the kernel. -/
theorem exit_unmaps_child : ¬ ∀ s,
    SysReach exampleLayout (fun s op => op.Lifecycle exampleLayout s) s →
      ∀ i, Live exampleLayout s.k i → SpaceShape exampleLayout s.k i := by
  intro hclaim
  obtain ⟨s, g, hs, huser, hcur, hlive, hothers, hspill⟩ := exampleSpilled
  have hslot := freeSlot_one hlive (hothers 1 (by decide) (by decide))
  obtain ⟨ret, k3, g2, hfork, htorn, hcur3⟩ := hspill.fork hlive hslot
  obtain ⟨s1, hs1⟩ : ∃ s1 : Sys, s1 =
      { s with k := ktrapToUser exampleLayout (forkReturn exampleLayout k3 0 1) 0 } := ⟨_, rfl⟩
  have htorn1 : Torn exampleLayout 0 1 0x86B99000 s1.k g2 := by
    rw [hs1]
    exact htorn.forkReturn.toUser
  have hstep : s.step exampleLayout (.call .fork) = some s1 := by
    rw [Sys.step_call hcur huser hlive, hs1]
    simp only [Sys.call, hfork, Option.map_some]
  have hexit : s1.step exampleLayout (.call (.exit zeroRegs)) =
      some { s1 with k := kprocFree exampleLayout s1.k 0 zeroRegs, user := false } := by
    refine Sys.step_call ?_ ?_ htorn1.live
    · rw [hs1]
      exact hcur3.trans hcur
    · rw [hs1]
      exact huser
  obtain ⟨hchild, hnone⟩ := htorn1.exit zeroRegs
  have hok : Op.Lifecycle exampleLayout s (.call .fork) := trivial
  have hok1 : Op.Lifecycle exampleLayout s1 (.call (.exit zeroRegs)) := trivial
  have hshape := hclaim _ ((hs.step hok hstep).step hok1 hexit) 1 hchild
  obtain ⟨e, he, -⟩ := hshape.kernel 0 (by decide)
  rw [Nat.zero_div] at he
  cases hnone.symm.trans he

end Risky321.Kernel
