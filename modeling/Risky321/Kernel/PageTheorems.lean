/-
Risky321.Kernel.PageTheorems — no page is lost.

A page of the free region is accounted for when it is on the free list, was
taken by the kernel at boot, or can be found from a live process: it is the
root of its page table, one of the tables below it, a user page, the trap
frame or the stack. `kproc_free` gives three of these pages back and drops
the others, `kproc_kill` does the same, and `kproc_exec` drops all of them.

§1 states the property; `Whole` is the invariant behind it: no page has the
role `lost`, and each role is the role of one page that the variables lead
to. §2 proves that the operations that only take pages keep it. §3 lifts
this to runs without `exit`, `kill` and `exec`, and counts the free pages
around a `fork` and an `exit`.
-/
import Risky321.Kernel.HeapTheorems

namespace Risky321.Kernel

open Risky321.Lib

variable {L : Layout} {k k' k'' : KState} {g g' : Ghost} {i j n p v cur : Nat} {m m' : Mem}
  {a : Space} {r : Nat} {s s' : Sys} {op : Op}

/-! ## §1 Where a page can be found -/

/-- A page on the free list. -/
def OnFreeList (L : Layout) (k : KState) (p : Nat) : Prop := ∃ free, FreeList L k free ∧ p ∈ free

/-- A page that `kvmem_init_kernel` or `virtio_blk_init` took. -/
def BootPage (k : KState) (p : Nat) : Prop :=
  p = k.kernelPagetable ∨
    (∃ n < 1024, HasTable k.mem k.kernelPagetable n ∧ p = tableOf k.mem k.kernelPagetable n) ∨
    p = k.blkRequestVq ∨ p = k.blkRequestVq + pageSize ∨ p = k.blkReqPaddr

/-- A page that can be found from the control block of slot `i`. -/
def PageOf (L : Layout) (k : KState) (i p : Nat) : Prop :=
  p = pcb L k i .pagetable ∨
    (∃ n < 1024, HasTable k.mem (pcb L k i .pagetable) n ∧
      p = tableOf k.mem (pcb L k i .pagetable) n) ∨
    (∃ v < 2 ^ 20, ∃ e, walk k.mem (pcb L k i .pagetable) v = some e ∧ e &&& pteU ≠ 0 ∧
      p = pteAddr e) ∨
    p = pcb L k i .trapframe ∨ p = pcb L k i .userStack

/-- Every page of the free region is free, the kernel's, or a live process's. -/
def NoPageLost (L : Layout) (k : KState) : Prop :=
  ∀ p, L.IsPage p → OnFreeList L k p ∨ BootPage k p ∨ ∃ i, Live L k i ∧ PageOf L k i p

/-- Every page has a role, and every role is in use. -/
structure Whole (L : Layout) (k : KState) (g : Ghost) : Prop where
  used : ∀ p, L.IsPage p → g.ow p ≠ .lost
  kernel : Exact k.mem g .kernel k.kernelPagetable
  kernelOnly : ∀ p, (g.ow p).Of .kernel → (g.ow p).TableOf .kernel
  virtio : ∀ p, (g.ow p).Virtio →
    p = k.blkRequestVq + 4096 ∨ p = k.blkRequestVq ∨ p = k.blkReqPaddr
  live : ∀ i, Live L k i → Exact k.mem g (.proc i) (pcb L k i .pagetable)
  dead : ∀ i, ¬ Live L k i → ∀ p, ¬ (g.ow p).Of (.proc i)

theorem Exact.root_eq (he : Exact m g a r) (ht : Tree m g a r) (h : g.ow p = .root a) : p = r :=
  he.unique p r (by rw [h]; rfl) (h.trans ht.root.symm)

theorem Exact.table_eq (he : Exact m g a r) (ht : Tree m g a r) (h : g.ow p = .table a n) :
    n < 1024 ∧ HasTable m r n ∧ p = tableOf m r n := by
  obtain ⟨hn, hT⟩ := he.table p n h
  exact ⟨hn, hT, he.unique p _ (by rw [h]; rfl) (h.trans (ht.table n hn hT).symm)⟩

theorem Exact.leaf_eq (he : Exact m g a r) (hl : Leaves m g a r) (h : g.ow p = .leaf a v) :
    v < 2 ^ 20 ∧ ∃ e, walk m r v = some e ∧ e &&& pteU ≠ 0 ∧ p = pteAddr e := by
  obtain ⟨hv, e, hw, hU⟩ := he.leaf p v h
  exact ⟨hv, e, hw, hU, he.unique p _ (by rw [h]; rfl) (h.trans (hl v hv e hw hU).symm)⟩

/-- The page with a process's role is found from its control block. -/
theorem ProcInv.pageOf (hp : ProcInv L k g i)
    (he : Exact k.mem g (.proc i) (pcb L k i .pagetable)) (h : (g.ow p).Of (.proc i)) :
    PageOf L k i p := by
  cases hr : g.ow p with
  | lost | free | virtio => rw [hr] at h; exact h.elim
  | root b =>
    rw [hr] at h
    obtain rfl : b = .proc i := h
    exact .inl (he.root_eq hp.tree hr)
  | table b n =>
    rw [hr] at h
    obtain rfl : b = .proc i := h
    obtain ⟨hn, hT, hpe⟩ := he.table_eq hp.tree hr
    exact .inr (.inl ⟨n, hn, hT, hpe⟩)
  | trapframe b =>
    rw [hr] at h
    obtain rfl : b = .proc i := h
    refine .inr (.inr (.inr (.inl ?_)))
    exact he.unique p _ (by rw [hr]; rfl) (hr.trans hp.trapframe.symm)
  | leaf b v =>
    rw [hr] at h
    obtain rfl : b = .proc i := h
    obtain ⟨hv, e, hw, hU, hpe⟩ := he.leaf_eq hp.leaves hr
    exact .inr (.inr (.inl ⟨v, hv, e, hw, hU, hpe⟩))

theorem Whole.bootPage (h : Whole L k g) (hI : Inv L k g)
    (hp : (g.ow p).Of .kernel ∨ (g.ow p).Virtio) : BootPage k p := by
  obtain hp | hp := hp
  · have ht := h.kernelOnly p hp
    cases hr : g.ow p with
    | lost | free | virtio | trapframe | leaf => rw [hr] at ht; exact ht.elim
    | root b =>
      rw [hr] at ht
      obtain rfl : b = .kernel := ht
      exact .inl (h.kernel.root_eq hI.kernel hr)
    | table b n =>
      rw [hr] at ht
      obtain rfl : b = .kernel := ht
      obtain ⟨hn, hT, hpe⟩ := h.kernel.table_eq hI.kernel hr
      exact .inr (.inl ⟨n, hn, hT, hpe⟩)
  · obtain h1 | h1 | h1 := h.virtio p hp
    · exact .inr (.inr (.inr (.inl h1)))
    · exact .inr (.inr (.inl h1))
    · exact .inr (.inr (.inr (.inr h1)))

theorem Role.cases_of (c : Role) : c = .lost ∨ c = .free ∨ (c.Of .kernel ∨ c.Virtio) ∨
    ∃ i, c.Of (.proc i) := by
  have hspace : ∀ b : Space, (b = .kernel) ∨ ∃ i, b = .proc i := by
    rintro (_ | i)
    · exact .inl rfl
    · exact .inr ⟨i, rfl⟩
  cases c with
  | lost => exact .inl rfl
  | free => exact .inr (.inl rfl)
  | virtio n => exact .inr (.inr (.inl (.inr ⟨n, rfl⟩)))
  | root b | table b | trapframe b | leaf b =>
    obtain h | ⟨i, h⟩ := hspace b
    · exact .inr (.inr (.inl (.inl h)))
    · exact .inr (.inr (.inr ⟨i, h⟩))

theorem Whole.noPageLost (h : Whole L k g) (hI : Inv L k g) : NoPageLost L k := by
  intro p hp
  obtain hc | hc | hc | ⟨i, hc⟩ := (g.ow p).cases_of
  · exact absurd hc (h.used p hp)
  · exact .inl ⟨g.free, hI.kmem.freeList, (hI.kmem.free_iff p).mpr hc⟩
  · exact .inr (.inl (h.bootPage hI hc))
  · have hlive : Live L k i := by
      by_contra hno
      exact h.dead i hno p hc
    exact .inr (.inr ⟨i, hlive, (hI.proc i hlive).pageOf (h.live i hlive) hc⟩)

/-! ## §2 Operations that lose no page -/

/-- Allocating for others leaves an address space's roles in use. -/
theorem Exact.grow {S : Role → Prop} {W : Nat → Prop} (he : Exact k.mem g a r)
    (ht : Tree k.mem g a r) (hk : KmemInv L k g) (hg : Grow L S W k g k' g')
    (hS : ∀ c, S c → ¬ c.Of a) : Exact k'.mem g' a r := by
  have hST : ∀ c, S c → ¬ c.TableOf a := fun c hc h => hS c hc h.of
  have hm := hg.load_table (a := a) hk hST
  have hback : ∀ {q c}, c.Of a → g'.ow q = c → g.ow q = c := fun hc hq =>
    hg.role_back hc.ne_free (fun hs => hS _ hs hc) hq
  refine ⟨?_, ?_, ?_⟩
  · intro p q hp hpq
    exact he.unique p q (by rwa [hback hp rfl])
      ((hback hp rfl).trans (hback hp hpq.symm).symm)
  · intro p n hp
    obtain ⟨hn, hT⟩ := he.table p n (hback (by rfl) hp)
    refine ⟨hn, ?_⟩
    rwa [HasTable, (ht.load_eq hm).1 n hn]
  · intro p v hp
    obtain ⟨hv, hw⟩ := he.leaf p v (hback (by rfl) hp)
    refine ⟨hv, ?_⟩
    rwa [ht.walk_eq hm hv]

/-- One process gets pages and uses them all. -/
theorem Whole.grow (h : Whole L k g) (hI : Inv L k g) (hi : i < 8)
    (hg : Grow L (Role.Of (.proc i)) (L.InPcb i) k g k' g') (hlive : Live L k' i)
    (he : Exact k'.mem g' (.proc i) (pcb L k' i .pagetable)) : Whole L k' g' := by
  have hother : ∀ j, j ≠ i → (Live L k' j ↔ Live L k j) := by
    intro j hj
    refine and_congr_right fun hj8 => ?_
    rw [hg.pcb_other (f := .state) hj8 trivial hj]
  have hback : ∀ {q c}, c ≠ .free → ¬ c.Of (.proc i) → g'.ow q = c → g.ow q = c := fun hc hS hq =>
    hg.role_back hc hS hq
  have hkernel : ∀ c : Role, c.Of (.proc i) → ¬ c.Of .kernel :=
    fun c hc hc' => absurd (hc.unique hc') nofun
  have hvirt : ∀ c : Role, c.Virtio → c ≠ .free ∧ ¬ c.Of (.proc i) := by
    rintro c ⟨n, rfl⟩
    exact ⟨nofun, id⟩
  refine ⟨?_, ?_, ?_, ?_, ?_, ?_⟩
  · intro p hp hlost
    exact h.used p hp (hback nofun id hlost)
  · rw [hg.kernelPagetable]
    exact h.kernel.grow hI.kernel hI.kmem hg hkernel
  · intro p hp
    have hb := hback hp.ne_free (fun hc => hkernel _ hc hp) rfl
    exact hb ▸ h.kernelOnly p (hb ▸ hp)
  · intro p hp
    have hb := hback (hvirt _ hp).1 (hvirt _ hp).2 rfl
    rw [hg.blkRequestVq, hg.blkReqPaddr]
    exact h.virtio p (hb ▸ hp)
  · intro j hj
    by_cases hji : j = i
    · exact hji ▸ he
    · have hj' := (hother j hji).mp hj
      rw [hg.pcb_other (f := .pagetable) hj.1 trivial hji]
      exact (h.live j hj').grow (hI.proc j hj').tree hI.kmem hg
        (fun c hc hc' => hji (by simpa using (hc'.unique hc)))
  · intro j hj p hp
    have hji : j ≠ i := by
      rintro rfl
      exact hj hlive
    have hb := hback hp.ne_free (fun hc => hji (by simpa using (hp.unique hc))) rfl
    exact h.dead j (fun hl => hj ((hother j hji).mpr hl)) p (hb ▸ hp)

/-- The tables, the roles and the variables that lead to them stay. -/
structure SpacesSame (L : Layout) (k : KState) (g : Ghost) (k' : KState) : Prop where
  load : ∀ a p, (g.ow p).TableOf a → ∀ x, x + 4 ≤ 4096 →
    load32 k'.mem (p + x) = load32 k.mem (p + x)
  field : ∀ i < 8, ∀ f : PcbField, f.InStruct → f.Tracked → pcb L k' i f = pcb L k i f
  kernelPagetable : k'.kernelPagetable = k.kernelPagetable
  blkRequestVq : k'.blkRequestVq = k.blkRequestVq
  blkReqPaddr : k'.blkReqPaddr = k.blkReqPaddr

theorem SpacesSame.exact (ht : SpacesSame L k g k') (htree : Tree k.mem g a r)
    (he : Exact k.mem g a r) : Exact k'.mem g a r := by
  refine he.congr (fun n hn hT => ?_) (fun v hv => htree.walk_eq (ht.load a) hv)
  rwa [HasTable, (htree.load_eq (ht.load a)).1 n hn]

theorem SpacesSame.live (ht : SpacesSame L k g k') : Live L k' i ↔ Live L k i := by
  refine and_congr_right fun hi => ?_
  rw [ht.field i hi .state trivial ⟨nofun, nofun⟩]

theorem Whole.same (h : Whole L k g) (hI : Inv L k g) (ht : SpacesSame L k g k') :
    Whole L k' g := by
  refine ⟨h.used, ?_, h.kernelOnly, ?_, ?_, ?_⟩
  · rw [ht.kernelPagetable]
    exact ht.exact hI.kernel h.kernel
  · rw [ht.blkRequestVq, ht.blkReqPaddr]
    exact h.virtio
  · intro i hi
    have hi' := ht.live.mp hi
    rw [ht.field i hi.1 .pagetable trivial ⟨nofun, nofun⟩]
    exact ht.exact (hI.proc i hi').tree (h.live i hi')
  · exact fun i hi => h.dead i (fun hl => hi (ht.live.mpr hl))

theorem Grow.spacesSame {S : Role → Prop} (hg : Grow L S (fun _ => False) k g k' g)
    (hk : KmemInv L k g) (hS : ∀ c a, S c → ¬ c.TableOf a) : SpacesSame L k g k' where
  load a := hg.load_table hk (fun c hc => hS c a hc)
  field _ hi _ hf _ := hg.pcb hi hf (fun _ _ => id)
  kernelPagetable := hg.kernelPagetable
  blkRequestVq := hg.blkRequestVq
  blkReqPaddr := hg.blkReqPaddr

theorem Untracked.spacesSame (h : Untracked L k k') (hk : KmemInv L k g)
    (hk' : k' = { k with mem := k'.mem }) : SpacesSame L k g k' where
  load a p hp x hx := by
    have hb := (hk.page p hp.ne_lost).bounds
    exact load32_congr fun y hy1 _ => h.page y (by omega)
  field := h.field
  kernelPagetable := by rw [hk']
  blkRequestVq := by rw [hk']
  blkReqPaddr := by rw [hk']

/-- An event that loses no page: no `exit`, no `kill` of a live process, no
`exec` of a file that exists, no `sbrk` over a page in use, and no image with
two segments on one page. -/
def Op.KeepsPages (L : Layout) (s : Sys) : Op → Prop
  | .create idx => (elfPages s.k (L.fsData idx)).Nodup
  | .call (.exec path _) => filesystemGetFiledata L s.k path = 0
  | .call .sbrk => ∀ cur, s.k.current = some cur →
      walk s.k.mem (pcb L s.k cur .pagetable) (pcb L s.k cur .freeHeapPage / pageSize) = none
  | .call (.exit _) => False
  | .call (.kill pid _) => ∀ i, Live L s.k i → pcb L s.k i .pid ≠ pid
  | _ => True

theorem Created.whole {idx : Nat} (hc : Created L idx i k g k' g') (h : Whole L k g)
    (hI : Inv L k g) (hok : ElfOk k (L.fsData idx)) (hnd : (elfPages k (L.fsData idx)).Nodup) :
    Whole L k' g' := by
  obtain ⟨hi, hstate⟩ := freeSlot_spec hc.slot
  obtain ⟨q, hb⟩ := hc.built
  rw [elfPages_eq] at hnd
  refine h.grow hI hi hc.grow ⟨hi, by rw [hc.state]; decide⟩ (hb.exact ?_ hnd ?_)
  · exact h.dead i (fun hl => hl.2 hstate)
  · intro v hv
    rw [← elfPages_eq] at hv
    have := (hok.pages v hv).2
    simp only [vaUserStack, vaUserStackInit, vaTrapframe, pageSize] at this
    omega

theorem Forked.whole (hf : Forked L cur i k g k' g') (h : Whole L k g) (hI : Inv L k g)
    (hslot : freeSlot L k = some i) (hlive : Live L k cur) : Whole L k' g' := by
  obtain ⟨hi, hstate⟩ := freeSlot_spec hslot
  refine h.grow hI hi hf.grow ⟨hi, by rw [hf.state]; decide⟩ (hf.exact ?_ ?_)
  · exact h.dead i (fun hl => hl.2 hstate)
  · have hp := hI.proc cur hlive
    rw [hp.trap_map]
    have hno := trapEntry_not_user (hI.kmem.page_of hp.trapframe nofun)
    simp [isUser, hno]

theorem PageAdded.whole {q : Nat} (ha : PageAdded L cur k g q k' g') (h : Whole L k g)
    (hI : Inv L k g) (hlive : Live L k cur)
    (hnone : walk k.mem (pcb L k cur .pagetable) (pcb L k cur .freeHeapPage / 4096) = none) :
    Whole L k' g' := by
  have hpt : pcb L k' cur .pagetable = pcb L k cur .pagetable := ha.field_eq .pagetable trivial nofun
  refine h.grow hI hlive.1 (ha.grow.mono (fun _ hc => hc.of) (fun _ hx => hx))
    ⟨hlive.1, by rw [ha.field_eq .state trivial nofun]; exact hlive.2⟩ ?_
  rw [hpt]
  exact ha.exact (h.live cur hlive) hnone

theorem fsData_ne_zero (L : Layout) (idx : Nat) : L.fsData idx ≠ 0 := by
  simp only [Layout.fsData, Layout.fsFile]
  omega

theorem Effect.whole (he : Effect L s.k g op k' g') (h : Whole L s.k g) (hI : Inv L s.k g)
    (hkeep : op.KeepsPages L s) : Whole L k' g' := by
  cases he with
  | nothing => exact h
  | scheduled hlive => exact h.same hI ⟨fun _ _ _ _ _ => rfl, fun _ _ _ _ _ => rfl, rfl, rfl, rfl⟩
  | created hidx hok hc => exact hc.whole h hI hok hkeep
  | forked hcur hlive hslot hne hf hI' => exact hf.whole h hI hslot hlive
  | execed hcur hlive hidx hfile hok hfit hx =>
    exact absurd (hfile.symm.trans hkeep) (fsData_ne_zero L _)
  | added hcur hlive ha hI' => exact ha.whole h hI hlive (hkeep _ hcur)
  | exited hcur hlive hr => exact hkeep.elim
  | killed hlive hpid hr => exact absurd hpid (hkeep _ hlive)
  | slept hcur hlive => exact h.same hI ((untracked_yield _ hlive.1).spacesSame hI.kmem rfl)
  | opened hcur hlive hidx hfile hn hfree h3 hfd hnull =>
    exact h.same hI (((untracked_setOsFile _ _ _ hn).trans
      (untracked_setOpenedFile hlive.1 hfd)).spacesSame hI.kmem rfl)
  | openedLeak hcur hlive hidx hfile hn hfree hfull =>
    exact h.same hI ((untracked_setOsFile _ _ _ hn).spacesSame hI.kmem rfl)
  | fileRead hcur hlive hfd ho hk1 hg1 =>
    have h1 := h.same hI (hg1.spacesSame hI.kmem (fun _ _ hc => hc.not_table))
    have hI1 := hI.pageWrites (fun _ _ hc => hc.not_table) hk1 hg1
    exact h1.same hI1 ((untracked_setPosition (ho.same hg1.filesSame).1).spacesSame hk1 rfl)
  | closed hcur hlive h3 hfd hn hentry =>
    exact h.same hI (((untracked_setOpenedFile hlive.1 hfd).trans
      (untracked_setOsFile _ _ _ hn)).spacesSame hI.kmem rfl)
  | stored hcur hlive hc hk' hg' => exact h.same hI (hg'.spacesSame hI.kmem (fun _ _ h => h.not_table))

/-! ## §3 Runs -/

/-- The states of the runs whose first image and events lose no page. -/
abbrev PageReach (L : Layout) : Sys → Prop :=
  Reach (fun s => Sys.Init L s ∧ (elfPages s.k (L.fsData 2)).Nodup)
    (fun s op s' => s.step L op = some s') (fun s op => op.Safe L s ∧ op.KeepsPages L s)

/-- At boot every page is free or the kernel's. -/
theorem Booted.whole {m : Mem} (hb : Booted L m k) (he : BootExact L k L.bootGhost) :
    Whole L k L.bootGhost where
  used _ hp := L.bootGhost_lost hp
  kernel := he.kernel
  kernelOnly p hp := by
    obtain h | h | ⟨n, h⟩ | ⟨n, h⟩ := L.bootGhost_ow p
    · rw [h, L.initGhost_ow] at hp
      split at hp <;> exact hp.elim
    · rw [h]
      rfl
    · rw [h]
      rfl
    · rw [h] at hp
      exact hp.elim
  virtio := he.virtio
  live i hi := absurd (hb.unused i hi.1) hi.2
  dead i _ p := L.bootGhost_of p i

theorem Sys.Init.whole (h : Sys.Init L s) (hnd : (elfPages s.k (L.fsData 2)).Nodup) :
    ∃ g, SysInv L s g ∧ Whole L s.k g := by
  obtain ⟨⟨dev, m, hm, hboot⟩, htty, huser⟩ := h
  obtain ⟨k, g, hb, he, hc⟩ := boot_exact hboot
    (fun k hb => (hb.sameFile (by decide)).elfOk (by decide) hm.elf)
  have hs : Started L s m k g := ⟨hm, hb, hc, htty, huser⟩
  have hok : ElfOk k (L.fsData 2) := (hb.sameFile (by decide)).elfOk (by decide) hm.elf
  refine ⟨g, hs.sysInv, hc.whole (hb.whole he) hb.inv hok ?_⟩
  rwa [elfPages_eq, (hc.filesSame.fsSame.sameFile (by decide)).loads (by decide) hok.headers,
    ← elfPages_eq] at hnd

theorem pageReach_inv (h : PageReach L s) : ∃ g, SysInv L s g ∧ Whole L s.k g := by
  refine h.invariant (fun s h0 => h0.1.whole h0.2) ?_
  rintro s op s' ⟨g, hI, hw⟩ ⟨hsafe, hkeep⟩ hstep
  obtain ⟨k1, g1, he, ht, hI'⟩ := hI.step hsafe hstep
  have hI1 := (he.inv hI.inv hI.files).1
  exact ⟨g1, hI', (he.whole hw hI.inv hkeep).same hI1
    (ht.grow.spacesSame hI1.kmem (fun _ _ hc => hc.not_table))⟩

/-- `exit` and `kill`. -/
def Op.Releases : Op → Prop
  | .call (.exit _) => True
  | .call (.kill _ _) => True
  | _ => False

/-- Nothing else makes the free list longer. -/
theorem Effect.free_le (he : Effect L k g op k' g') (hop : ¬ op.Releases) :
    g'.free.length ≤ g.free.length := by
  cases he with
  | nothing | scheduled | slept | opened | openedLeak | fileRead | closed | stored => exact le_rfl
  | created _ _ h => exact h.grow.suffix.length_le
  | forked _ _ _ _ h => exact h.grow.suffix.length_le
  | execed _ _ _ _ _ _ h => exact h.grow.suffix.length_le
  | added _ _ h => exact h.grow.suffix.length_le
  | exited => exact absurd trivial hop
  | killed => exact absurd trivial hop

theorem Effect.exit_free {c : SavedRegs} (he : Effect L k g (.call (.exit c)) k' g') :
    g'.free.length ≤ g.free.length + 3 := by
  cases he with
  | nothing => omega
  | exited => exact (Ghost.length_release _ _ _ _).le
  | stored _ _ hc => exact absurd hc (by rintro (⟨_, _, h⟩ | ⟨_, _, h⟩) <;> exact absurd h nofun)

/-- A copy takes at least the last table and the stack. -/
theorem ProcInv.two_le_copyCount (hp : ProcInv L k g i) (hk : KmemInv L k g) :
    2 ≤ copyCount k.mem (pcb L k i .pagetable) := by
  have htable : 0 < tableCount k.mem (pcb L k i .pagetable) 1024 :=
    List.countP_pos_iff.mpr ⟨1023, by simp, by simpa using hp.hasTable_last⟩
  have hstack : 0 < userCount k.mem (pcb L k i .pagetable) (2 ^ 20) := by
    refine List.countP_pos_iff.mpr ⟨0xFFFFE, by simp, ?_⟩
    have hU := stackEntry_user (hk.page_of hp.userStack nofun)
    rw [hp.stack_map]
    simpa [isUser] using hU
  simp only [copyCount]
  omega

/-- A fork takes at least four pages. -/
theorem SysInv.fork_free (h : SysInv L s g) (hs : s.step L (.call .fork) = some s')
    (hk' : KmemInv L s'.k g') : g'.free.length + 4 ≤ g.free.length := by
  obtain ⟨cur, -, -, hlive, hs⟩ := Sys.step_call_cases hs
  obtain ⟨⟨ret, k'⟩, hf, rfl⟩ := Option.map_eq_some_iff.mp hs
  obtain ⟨i, k3, g1, -, -, hfk, -, -, hI1, hlive', -, hroom⟩ := kprocFork_inv h.inv hlive hf
  have htwo := (h.inv.proc cur hlive).two_le_copyCount h.inv.kmem
  have hfree := hk'.freeList.eq_of_kmemInv (ktrapToUser_words hI1 hlive').kmem
  rw [← hfree, hfk.free, List.length_drop]
  omega

theorem SysInv.exit_free {c : SavedRegs} (h : SysInv L s g)
    (hs : s.step L (.call (.exit c)) = some s') (hk' : KmemInv L s'.k g') :
    g'.free.length ≤ g.free.length + 3 := by
  obtain ⟨k1, g1, he, ht, -⟩ := h.step (Op.safe_exit _ _ c) hs
  rw [hk'.freeList.eq_of_kmemInv ht.kmem |>.symm]
  exact he.exit_free

/-- The runs that go on from `s` without `exit` and `kill`. -/
abbrev KeptFrom (L : Layout) (s : Sys) : Sys → Prop :=
  Reach (fun s1 => s1 = s) (fun s op s' => s.step L op = some s')
    (fun s op => op.Safe L s ∧ ¬ op.Releases)

theorem KeptFrom.free_le (hI : SysInv L s g) (h : KeptFrom L s s') :
    ∃ g', SysInv L s' g' ∧ g'.free.length ≤ g.free.length := by
  refine h.invariant (I := fun s' => ∃ g', SysInv L s' g' ∧ g'.free.length ≤ g.free.length) ?_ ?_
  · rintro _ rfl
    exact ⟨g, hI, le_rfl⟩
  · rintro s1 op s2 ⟨g1, hI1, hle⟩ ⟨hsafe, hop⟩ hstep
    obtain ⟨k2, g2, he, -, hI2⟩ := hI1.step hsafe hstep
    exact ⟨g2, hI2, (he.free_le hop).trans hle⟩

/-- No page is lost in a run without `exit`, `kill`, `exec` and overlaps; and
a `fork` followed by one `exit` always ends with fewer free pages than
before, whether or not the child has executed a file. -/
theorem no_page_lost (L : Layout) :
    (∀ s, PageReach L s → NoPageLost L s.k) ∧
    ∀ s s1 s2 s3 r free free', SysReach L (fun s op => op.Safe L s) s →
      s.step L (.call .fork) = some s1 → KeptFrom L s1 s2 →
      s2.step L (.call (.exit r)) = some s3 → FreeList L s.k free → FreeList L s3.k free' →
      free'.length < free.length := by
  constructor
  · intro s h
    obtain ⟨g, hI, hw⟩ := pageReach_inv h
    exact hw.noPageLost hI.inv
  · intro s s1 s2 s3 r free free' hs hfork hkept hexit hfree hfree'
    obtain ⟨g, hI⟩ := sysReach_inv (fun _ _ h => h) hs
    obtain ⟨-, g1, -, -, hI1⟩ := hI.step (Op.safe_fork _ _) hfork
    obtain ⟨g2, hI2, hle⟩ := hkept.free_le hI1
    obtain ⟨-, g3, -, -, hI3⟩ := hI2.step (Op.safe_exit _ _ r) hexit
    have h1 := hI.fork_free hfork hI1.inv.kmem
    have h3 := hI2.exit_free hexit hI3.inv.kmem
    rw [← hfree.eq_of_kmemInv hI.inv.kmem, ← hfree'.eq_of_kmemInv hI3.inv.kmem]
    omega

theorem exampleEntered_page : ∃ s g, PageReach exampleLayout s ∧
    SysReach exampleLayout (fun s op => op.Safe exampleLayout s) s ∧
    Entered exampleLayout exampleMem s g := by
  obtain ⟨s, k, g, hinit, hs⟩ := exampleStarted
  have hfiles : FsSame exampleLayout (KState.init exampleMem) s.k :=
    hs.booted.fsSame.trans hs.created.filesSame.fsSame
  have hnd : (elfPages s.k (exampleLayout.fsData 2)).Nodup := by
    rw [elfPages_eq, (hfiles.sameFile (by decide)).loads (by decide) exampleElf_ok.headers,
      exampleElf_loads]
    simp
  obtain ⟨s1, hstep, hent, -⟩ := hs.entered
  have hsafe : Op.Safe exampleLayout s (.schedule 0) := trivial
  have hkeep : Op.KeepsPages exampleLayout s (.schedule 0) := trivial
  exact ⟨s1, g, .step (.init ⟨hinit, hnd⟩) ⟨hsafe, hkeep⟩ hstep,
    .step (.init hinit) hsafe hstep, hent⟩

/-- The first process has forked. -/
theorem exampleForked : ∃ s g s1 g1 i, PageReach exampleLayout s ∧
    SysReach exampleLayout (fun s op => op.Safe exampleLayout s) s ∧
    Entered exampleLayout exampleMem s g ∧ s.step exampleLayout (.call .fork) = some s1 ∧
    Running exampleLayout s1 g1 0 ∧ Live exampleLayout s1.k i ∧ i ≠ 0 := by
  obtain ⟨s, g, hpage, hs, he⟩ := exampleEntered_page
  have hr := he.running
  have hcopy := copyCount_add_free_le hr.inv.inv.kmem (hr.inv.inv.proc 0 hr.live).leaves
  have hfree := he.exampleFree
  have hslot := freeSlot_one hr.live (he.others 1 (by decide) (by decide))
  obtain ⟨s1, k1, g1, hstep, hr1, hne, hfk, hw⟩ := hr.fork hslot (by omega)
  exact ⟨s, g, s1, g1, 1, hpage, hs, he, hstep, hr1,
    hw.live.mpr ⟨by decide, by rw [hfk.state]; decide⟩, hne⟩

/-- The first process forks and exits. -/
theorem no_page_lost_entered : ∃ (s s1 s3 : Sys) (free free' : List Nat),
    NoPageLost exampleLayout s.k ∧ s.step exampleLayout (.call .fork) = some s1 ∧
    s1.step exampleLayout (.call (.exit zeroRegs)) = some s3 ∧
    FreeList exampleLayout s.k free ∧ FreeList exampleLayout s3.k free' ∧
    free'.length < free.length := by
  obtain ⟨s, g, s1, g1, -, hpage, hs, he, hstep, hr1, -, -⟩ := exampleForked
  obtain ⟨hexit, -, hI3⟩ := hr1.exit zeroRegs
  have hlost := no_page_lost exampleLayout
  have hfree := he.running.inv.inv.kmem.freeList
  exact ⟨s, s1, _, g.free, _, hlost.1 s hpage, hstep, hexit, hfree, hI3.inv.kmem.freeList,
    hlost.2 s s1 s1 _ zeroRegs g.free _ hs hstep (.init rfl) hexit hfree hI3.inv.kmem.freeList⟩

/-- A page with a role is found where its role says. -/
theorem Inv.of_bootPage (hI : Inv L k g) (h : BootPage k p) :
    (g.ow p).Of .kernel ∨ (g.ow p).Virtio := by
  obtain rfl | ⟨n, hn, hT, rfl⟩ | rfl | rfl | rfl := h
  · exact .inl (by rw [hI.kernel.root]; rfl)
  · exact .inl (by rw [hI.kernel.table n hn hT]; rfl)
  · exact .inr ⟨1, hI.queueLower⟩
  · exact .inr ⟨0, hI.queueUpper⟩
  · exact .inr ⟨2, hI.request⟩

theorem ProcInv.of_pageOf (hp : ProcInv L k g i) (h : PageOf L k i p) :
    (g.ow p).Of (.proc i) := by
  obtain rfl | ⟨n, hn, hT, rfl⟩ | ⟨v, hv, e, hw, hU, rfl⟩ | rfl | rfl := h
  · rw [hp.tree.root]
    rfl
  · rw [hp.tree.table n hn hT]
    rfl
  · rw [hp.leaves v hv e hw hU]
    rfl
  · rw [hp.trapframe]
    rfl
  · rw [hp.userStack]
    rfl

/-- A process that is gone has left its last table behind. -/
theorem Released.page_lost (h : Released L i k g k') (hI : Inv L k g) (hlive : Live L k i) :
    ¬ NoPageLost L k' := by
  have hp := hI.proc i hlive
  have htable := hp.tree.table 1023 (by omega) hp.hasTable_last
  generalize tableOf k.mem (pcb L k i .pagetable) 1023 = q at *
  have how : (g.release L k i).ow q = .table (.proc i) 1023 := by
    have hne : ∀ {x c}, g.ow x = c → c ≠ .table (.proc i) 1023 → q ≠ x := by
      rintro x c hx hc rfl
      exact hc (hx.symm.trans htable)
    rw [Ghost.release, Ghost.push_ow_of_ne (hne hp.userStack (by simp)),
      Ghost.push_ow_of_ne (hne hp.tree.root (by simp)), Ghost.push_ow_of_ne (hne hp.trapframe (by simp)),
      htable]
  intro hno
  obtain ⟨free, hfree, hq⟩ | hboot | ⟨j, hj, hq⟩ := hno q (hI.kmem.page_of htable (by simp))
  · rw [← hfree.eq_of_kmemInv h.inv.kmem, h.inv.kmem.free_iff, how] at hq
    cases hq
  · obtain hc | ⟨n, hc⟩ := h.inv.of_bootPage hboot
    · rw [how] at hc
      exact absurd (Role.Of.unique hc (b := .proc i) rfl) (by simp)
    · exact absurd (how.symm.trans hc) (by simp)
  · have hc := (h.inv.proc j hj).of_pageOf hq
    rw [how] at hc
    have hji : Space.proc i = .proc j := hc
    rw [Space.proc.injEq] at hji
    exact hj.2 (hji ▸ h.state)

/-- The first process exits. -/
theorem exit_loses_pages : ∃ s, SysReach exampleLayout (fun _ _ => True) s ∧
    ¬ NoPageLost exampleLayout s.k := by
  obtain ⟨s, g, hreach, hent, -⟩ := exampleEntered (fun _ _ => True) (fun _ _ => trivial)
  have hrun := hent.running
  obtain ⟨hstep, hrel, -⟩ := hrun.exit zeroRegs
  exact ⟨_, .step hreach trivial hstep, hrel.page_lost hrun.inv.inv hrun.live⟩

end Risky321.Kernel
