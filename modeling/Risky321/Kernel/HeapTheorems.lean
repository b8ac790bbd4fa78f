/-
Risky321.Kernel.HeapTheorems — when sbrk gives a page that was not in use.

`kproc_add_page` maps its new page at `free_heap_page` whatever is mapped
there. Only `kproc_exec` moves that counter past the pages it loads:
`kproc_create` does not, and `kproc_fork` leaves the counter of the child's
slot as the last process there left it. So the page is unused if and only
if the counter is ahead of the image, which depends on the step that made
the address space.

§1 says what a step does to the address space of one process, §2 is a
single call, §3 follows the counter along a run.
-/
import Risky321.Kernel.DescriptorTheorems
import Risky321.Kernel.SyscallTheorems
import Risky321.Kernel.ExecTheorems

namespace Risky321.Kernel

open Risky321.Lib

variable {L : Layout} {k k' k'' : KState} {g g' : Ghost} {i j cur v : Nat} {s s' : Sys} {op : Op}

/-! ## §1 Address spaces along a step -/

/-- Slot `j` has the same address space and the same control block, but for its
context and its descriptors. -/
structure SpaceSame (L : Layout) (k k' : KState) (j : Nat) : Prop where
  field : ∀ f : PcbField, f.InStruct → f.Tracked → pcb L k' j f = pcb L k j f
  walk_eq : ∀ v < 2 ^ 20, walk k'.mem (pcb L k j .pagetable) v = walk k.mem (pcb L k j .pagetable) v

theorem SpaceSame.refl (k : KState) (j : Nat) : SpaceSame L k k j :=
  ⟨fun _ _ _ => rfl, fun _ _ => rfl⟩

theorem SpaceSame.pagetable (h : SpaceSame L k k' j) :
    pcb L k' j .pagetable = pcb L k j .pagetable := h.field .pagetable trivial ⟨nofun, nofun⟩

theorem SpaceSame.heapPage (h : SpaceSame L k k' j) :
    pcb L k' j .freeHeapPage = pcb L k j .freeHeapPage := h.field .freeHeapPage trivial ⟨nofun, nofun⟩

theorem SpaceSame.trans (h : SpaceSame L k k' j) (h' : SpaceSame L k' k'' j) :
    SpaceSame L k k'' j where
  field := fun f hf ht => (h'.field f hf ht).trans (h.field f hf ht)
  walk_eq := fun v hv => by rw [← h.pagetable, h'.walk_eq v hv, h.pagetable, h.walk_eq v hv]

/-- A process whose tables and control block are unchanged. -/
theorem SpaceSame.of_pages (hp : ProcInv L k g j)
    (hmem : ∀ p, (g.ow p).TableOf (.proc j) → ∀ x < 4096, k'.mem (p + x) = k.mem (p + x))
    (hpcb : ∀ f : PcbField, f.InStruct → f.Tracked → pcb L k' j f = pcb L k j f) :
    SpaceSame L k k' j where
  field := hpcb
  walk_eq := by
    intro v hv
    refine hp.tree.walk_eq (fun p hrole x hx => load32_congr (fun y hy1 _ => ?_)) hv
    have hval := hmem p hrole (y - p) (by omega)
    rwa [Nat.add_sub_cancel' (by omega)] at hval

theorem Touch.spaceSame (ht : Touch L i k g k' g') (hp : ProcInv L k g j) (hk : KmemInv L k g)
    (hj : j < 8) (hij : j ≠ i) : SpaceSame L k k' j := by
  refine .of_pages hp (fun p hrole x hx => ?_) (fun f hf _ => ht.pcb hj hf hij)
  refine ht.mem p (hk.page p hrole.ne_lost) hrole.ne_free (fun h => hij ?_) x hx
  simpa using hrole.of.unique h

theorem Grow.spaceSame {S : Role → Prop} (hg : Grow L S (fun _ => False) k g k' g')
    (hp : ProcInv L k g j) (hk : KmemInv L k g) (hj : j < 8)
    (hS : ∀ c, S c → ¬ c.TableOf (.proc j)) : SpaceSame L k k' j :=
  .of_pages hp
    (fun p hrole x hx => hg.page_mem p (hk.page p hrole.ne_lost) hrole.ne_free
      (fun h => hS _ h hrole) x hx)
    (fun _ hf _ => hg.pcb hj hf (fun _ _ h => h))

theorem TrapWords.spaceSame (h : TrapWords L k g k') (hI : Inv L k g) (hlive : Live L k j) :
    SpaceSame L k k' j :=
  h.grow.spaceSame (hI.proc j hlive) hI.kmem hlive.1 (fun _ hc => hc.not_table)

/-- From `k` to `k'` only static data were written, and in the control blocks
only contexts and descriptors. -/
structure Untracked (L : Layout) (k k' : KState) : Prop where
  page : ∀ x, L.freeRamBegin ≤ x → k'.mem x = k.mem x
  field : ∀ i < 8, ∀ f : PcbField, f.InStruct → f.Tracked → pcb L k' i f = pcb L k i f

theorem Untracked.trans (h : Untracked L k k') (h' : Untracked L k' k'') : Untracked L k k'' where
  page := fun x hx => (h'.page x hx).trans (h.page x hx)
  field := fun i hi f hf ht => (h'.field i hi f hf ht).trans (h.field i hi f hf ht)

theorem Untracked.spaceSame (h : Untracked L k k') (hp : ProcInv L k g j) (hk : KmemInv L k g)
    (hj : j < 8) : SpaceSame L k k' j := by
  refine .of_pages hp (fun p hrole x _ => h.page _ ?_) (h.field j hj)
  have := (hk.page p hrole.ne_lost).1
  omega

theorem untracked_yield (r : SavedRegs) (hi : cur < 8) : Untracked L k (kprocYield L k cur r) :=
  ⟨fun _ hx => kprocYield_page hi hx, fun _ hj _ hf htr => pcb_yield hi hj hf htr.2⟩

theorem untracked_setOsFile (inUse idx pos : Nat) {n : Nat} (hn : n < maxOsFiles) :
    Untracked L k (setOsFile L k n inUse idx pos) where
  page := fun x hx => setOsFile_outside_entry (.inr (by have := (L.osFile_static hn).1; omega))
  field := fun _ hi _ hf _ => pcb_setOsFile hn hi hf

theorem untracked_setOpenedFile {fd : Nat} (hi : i < 8) (hfd : fd < 8) :
    Untracked L k (setPcb L k i (.openedFiles fd) v) := by
  have hf : (PcbField.openedFiles fd).InStruct := hfd
  have hb := L.proc_bound hi
  have ho := PcbField.offset_lt hf
  simp only [sizeofProcess] at hb
  exact ⟨fun x hx => store32_outside _ _ _ (by omega),
    fun j _ f hfs htr => pcb_setPcb_of_ne hfs hf (htr.1 fd)⟩

theorem untracked_setPosition {h pos : Nat} (ho : OpenFile L k h) :
    Untracked L k (k.store (osRwpos h) pos) := by
  obtain ⟨n, hn, rfl⟩ := ho.handle
  have h1 := (L.osFile_static hn).1
  exact ⟨fun x hx => store32_outside _ _ _ (by simp only [osRwpos]; omega),
    fun i hi f hf _ => pcb_store_osFile hn (by omega) hi hf⟩

/-- What a step does to the address space of a process that lives on. -/
theorem Effect.space_cases (he : Effect L k g op k' g') (hI : Inv L k g) (hj : Live L k j)
    (hj' : Live L k' j) :
    SpaceSame L k k' j ∨
      (k.current = some j ∧ op = .call .sbrk ∧ ∃ q, PageAdded L j k g q k' g') ∨
      (k.current = some j ∧ ∃ path argv idx, op = .call (.exec path argv) ∧ idx < maxFsFiles ∧
        filesystemGetFiledata L k path = L.fsData idx ∧ ElfOk k (L.fsData idx) ∧
        Execed L j idx argv k g k' g') := by
  have hj8 : j < 8 := hj.1
  have hp := hI.proc j hj
  have hne : ∀ {i}, freeSlot L k = some i → j ≠ i := fun hs hij =>
    hj.2 (hij ▸ (freeSlot_spec hs).2)
  cases he with
  | nothing => exact .inl (.refl k j)
  | scheduled _ => exact .inl ⟨fun _ _ _ => rfl, fun _ _ => rfl⟩
  | created _ _ h => exact .inl (h.grow.touch.spaceSame hp hI.kmem hj8 (hne h.slot))
  | forked _ _ hslot _ h _ => exact .inl (h.grow.touch.spaceSame hp hI.kmem hj8 (hne hslot))
  | @execed cur idx path argv _ _ hcur hlive hidx hfile hok hfit h =>
    by_cases hij : j = cur
    · rw [hij]
      exact .inr (.inr ⟨hcur, path, argv, idx, rfl, hidx, hfile, hok, h⟩)
    · exact .inl (h.grow.touch.spaceSame hp hI.kmem hj8 hij)
  | @added cur q _ _ hcur hlive h _ =>
    by_cases hij : j = cur
    · rw [hij]
      exact .inr (.inl ⟨hcur, rfl, q, h⟩)
    · exact .inl ((h.grow.mono (fun _ => Role.MappedOf.of) (fun _ hx => hx)).touch.spaceSame hp
        hI.kmem hj8 hij)
  | @exited cur _ _ hcur hlive h =>
    have hij : j ≠ cur := fun hij => hj'.2 (hij ▸ h.state)
    exact .inl (h.touch.spaceSame hp hI.kmem hj8 hij)
  | @killed i _ _ _ hlive hpid h =>
    have hij : j ≠ i := fun hij => hj'.2 (hij ▸ h.state)
    exact .inl (h.touch.spaceSame hp hI.kmem hj8 hij)
  | slept hcur hlive => exact .inl ((untracked_yield _ hlive.1).spaceSame hp hI.kmem hj8)
  | opened hcur hlive hidx hfile hn hfree h3 hfd hnull =>
    exact .inl (((untracked_setOsFile 1 _ 0 hn).trans
      (untracked_setOpenedFile hlive.1 hfd)).spaceSame hp hI.kmem hj8)
  | openedLeak hcur hlive hidx hfile hn hfree hfull =>
    exact .inl ((untracked_setOsFile 1 _ 0 hn).spaceSame hp hI.kmem hj8)
  | fileRead hcur hlive hfd ho hk1 hg1 =>
    have h1 := hg1.spaceSame hp hI.kmem hj8 (fun _ hc => hc.not_table)
    have hI1 := hI.pageWrites (fun _ _ h => h.not_table) hk1 hg1
    have ho1 := (ho.same hg1.filesSame).1
    have hj1 : Live L _ j := (hg1.live hj)
    exact .inl (h1.trans ((untracked_setPosition ho1).spaceSame (hI1.proc j hj1) hI1.kmem hj8))
  | closed hcur hlive h3 hfd hn hentry =>
    exact .inl (((untracked_setOpenedFile hlive.1 hfd).trans
      (untracked_setOsFile 0 _ 0 hn)).spaceSame hp hI.kmem hj8)
  | stored hcur hlive hc hk' hg' =>
    exact .inl (hg'.spaceSame hp hI.kmem hj8 (fun _ hc => hc.not_table))

/-- A process comes from `kproc_create` or from `kproc_fork`. -/
theorem Effect.born (he : Effect L k g op k' g') (hj : ¬ Live L k j) (hj' : Live L k' j) :
    freeSlot L k = some j ∧
      ((∃ idx, op = .create idx ∧ idx < maxFsFiles ∧ Created L idx j k g k' g') ∨
        ∃ cur, k.current = some cur ∧ Live L k cur ∧ op = .call .fork ∧
          Forked L cur j k g k' g') := by
  obtain hiff | hborn | ⟨hlive, -⟩ := he.live_cases hj'.1
  · exact absurd (hiff.mp hj') hj
  · exact hborn
  · exact absurd hlive hj

/-! ## §2 One call -/

/-- What `kproc_add_page` should do: the page at `va` was not mapped, now it is
an empty page the process may read and write, nothing else is translated
differently, and the next page will be the one above. -/
structure HeapGrown (L : Layout) (k : KState) (cur va : Nat) (k' : KState) : Prop where
  aligned : va % pageSize = 0
  unmapped : walk k.mem (pcb L k cur .pagetable) (va / pageSize) = none
  mapped : ∃ e, walk k'.mem (pcb L k' cur .pagetable) (va / pageSize) = some e ∧
    e % 1024 = pteV ||| pteR ||| pteW ||| pteU ∧ ∀ x < pageSize, k'.mem (pteAddr e + x) = 0
  others : ∀ v < 2 ^ 20, v ≠ va / pageSize →
    walk k'.mem (pcb L k' cur .pagetable) v = walk k.mem (pcb L k cur .pagetable) v
  next : ∀ va' k'', kprocAddPage L k' cur = some (va', k'') → va' = va + pageSize

/-- The call returns, and it does that. -/
def AddPageOk (L : Layout) (k : KState) (cur : Nat) : Prop :=
  ∃ va k', kprocAddPage L k cur = some (va, k') ∧ HeapGrown L k cur va k'

/-- Enough pages for the call: one, and one more if the new page is the first
behind its entry of the root table. -/
def HeapRoom (L : Layout) (k : KState) (cur : Nat) (free : List Nat) : Prop :=
  HasTable k.mem (pcb L k cur .pagetable) (pcb L k cur .freeHeapPage / pageSize / 1024) ∨
    2 ≤ free.length

theorem HeapOk.mod_eq (h : HeapOk L k g j) :
    (pcb L k j .freeHeapPage + 4096) % 2 ^ 32 = pcb L k j .freeHeapPage + 4096 := by
  have := h.lt
  simp only [vaUserStack, vaUserStackInit, vaTrapframe, pageSize] at this
  omega

/-- A process whose next heap page is not mapped. -/
theorem PageAdded.grown {q : Nat} (h : PageAdded L cur k g q k' g') (hI : Inv L k g)
    (hI' : Inv L k' g') (hlive : Live L k cur)
    (hnone : walk k.mem (pcb L k cur .pagetable) (pcb L k cur .freeHeapPage / 4096) = none) :
    HeapGrown L k cur (pcb L k cur .freeHeapPage) k' := by
  have hheap := hI.heap cur hlive.1
  obtain ⟨hbase, hstack, hal⟩ := hheap.lt
  have hlt : pcb L k cur .freeHeapPage / 4096 < 2 ^ 20 := by
    simp only [vaUserStack, vaUserStackInit, vaTrapframe, pageSize] at hstack
    omega
  have hpt := h.field_eq .pagetable trivial nofun
  have hb := h.page.bounds
  have hqal := h.page.2.2
  refine ⟨hal, hnone, ⟨q / 4 + 23, ?_, ?_, ?_⟩, ?_, ?_⟩
  · rw [hpt, h.walk_eq _ hlt, if_pos rfl]
  · rw [show pteV ||| pteR ||| pteW ||| pteU = 23 by decide]
    omega
  · rw [pteAddr_entry hqal (by omega) (by omega)]
    exact h.zero
  · intro v hv hne
    rw [hpt, h.walk_eq v hv, if_neg hne]
  · intro va' k'' hadd
    have hlive' : Live L k' cur :=
      ⟨hlive.1, by rw [h.field_eq .state trivial nofun]; exact hlive.2⟩
    obtain ⟨rfl, -⟩ := kprocAddPage_inv hI' hlive' hadd
    rw [h.heapPage, hheap.mod_eq]

theorem addPageOk_iff {free : List Nat} (hI : Inv L k g) (hlive : Live L k cur)
    (hfree : FreeList L k free) (hne : free ≠ []) :
    AddPageOk L k cur ↔
      walk k.mem (pcb L k cur .pagetable) (pcb L k cur .freeHeapPage / pageSize) = none ∧
        HeapRoom L k cur free := by
  have hp := hI.proc cur hlive
  have hgfree := hfree.eq_of_kmemInv hI.kmem
  constructor
  · rintro ⟨va, k', hadd, hgrown⟩
    obtain ⟨rfl, q, g', h, -⟩ := kprocAddPage_inv hI hlive hadd
    refine ⟨hgrown.unmapped, ?_⟩
    by_contra hroom
    obtain ⟨hno, hlt⟩ := not_or.mp hroom
    -- then the last free page is gone before the new page has a table
    have hnone : kprocAddPage L k cur = none := by
      rw [kprocAddPage_none_iff hI.kmem hlive.1 hp.tree, if_neg hno, hgfree]
      omega
    rw [hnone] at hadd
    exact absurd hadd nofun
  · rintro ⟨hnone, hroom⟩
    cases hadd : kprocAddPage L k cur with
    | none =>
      have := (kprocAddPage_none_iff hI.kmem hlive.1 hp.tree).mp hadd
      rw [hgfree] at this
      have hpos := List.length_pos_iff.mpr hne
      split at this
      · omega
      · obtain hT | h2 := hroom
        · contradiction
        · omega
    | some r =>
      obtain ⟨va, k'⟩ := r
      obtain ⟨rfl, q, g', h, hI'⟩ := kprocAddPage_inv hI hlive hadd
      exact ⟨_, k', hadd, h.grown hI hI' hlive hnone⟩

/-! ## §3 Runs -/

/-- From `free_heap_page` to the stack nothing is mapped. -/
def HeapClear (L : Layout) (k : KState) (i : Nat) : Prop :=
  ∀ v, pcb L k i .freeHeapPage / pageSize ≤ v → v < vaUserStack / pageSize →
    walk k.mem (pcb L k i .pagetable) v = none

/-- Which slots had `free_heap_page` ahead of what was mapped when their address
space was made: `kproc_create` does not move it, `kproc_exec` moves it by the
number of pages it loads, and a child has the one its slot had. -/
def aheadNext (ahead : Nat → Prop) (L : Layout) (s s' : Sys) : Op → Nat → Prop
  | .create idx => fun i =>
      if freeSlot L s.k = some i then
        ∀ v ∈ elfPages s.k (L.fsData idx), v < pcb L s.k i .freeHeapPage / pageSize
      else ahead i
  | .call .fork => fun i =>
      if freeSlot L s.k = some i then
        ∀ cur, s.k.current = some cur → ∀ v, pcb L s.k i .freeHeapPage / pageSize ≤ v →
          v < vaUserStack / pageSize → walk s.k.mem (pcb L s.k cur .pagetable) v = none
      else ahead i
  | .call (.exec path _) => fun i =>
      if s.k.current = some i ∧ pcb L s'.k i .pagetable ≠ pcb L s.k i .pagetable then
        ∀ v ∈ elfPages s.k (filesystemGetFiledata L s.k path),
          v < pcb L s.k i .freeHeapPage / pageSize +
            (elfPages s.k (filesystemGetFiledata L s.k path)).length
      else ahead i
  | _ => ahead

/-- Runs with that record. -/
abbrev HeapReach (L : Layout) : Sys × (Nat → Prop) → Prop :=
  Reach (fun x => Sys.Init L x.1 ∧ x.2 = fun _ => elfPages x.1.k (L.fsData 2) = [])
    (fun x op y => x.1.step L op = some y.1 ∧ y.2 = aheadNext x.2 L x.1 y.1 op)
    (fun x op => op.Safe L x.1)

theorem SpaceSame.heapClear (h : SpaceSame L k k' j) (hc : HeapClear L k j) :
    HeapClear L k' j := by
  intro v hv hlt
  rw [h.heapPage] at hv
  rw [h.pagetable, h.walk_eq v (by
    simp only [vaUserStack, vaUserStackInit, vaTrapframe, pageSize] at hlt
    omega)]
  exact hc v hv hlt

theorem PageAdded.heapClear {q : Nat} (h : PageAdded L j k g q k' g') (hh : HeapOk L k g j)
    (hc : HeapClear L k j) : HeapClear L k' j := by
  intro v hv hlt
  rw [h.heapPage, hh.mod_eq] at hv
  simp only [vaUserStack, vaUserStackInit, vaTrapframe, pageSize] at hv hlt
  rw [h.field_eq .pagetable trivial nofun, h.walk_eq v (by omega), if_neg (by omega)]
  refine hc v ?_ ?_ <;>
    simp only [vaUserStack, vaUserStackInit, vaTrapframe, pageSize] <;> omega

/-- A new image all of whose pages are below the counter. -/
theorem Built.heapClear {heap : Bool} {elf p : Nat} {loads : List Load}
    (hb : Built L heap i elf k g loads p k' g')
    (hbase : vaUserBase ≤ pcb L k' i .freeHeapPage)
    (hpages : ∀ v ∈ loads.map Load.page, v < pcb L k' i .freeHeapPage / pageSize) :
    HeapClear L k' i := by
  intro v hv hlt
  have hle := L.kernelPages_lt
  simp only [vaUserBase] at hbase
  simp only [vaUserStack, vaUserStackInit, vaTrapframe, pageSize] at hv hlt hpages
  refine hb.rest v (by omega) (by omega) (by omega) (by omega) (lastLoad_eq_none.mpr ?_)
  intro hmem
  have := hpages v hmem
  omega

theorem Created.heapClear {idx : Nat} (h : Created L idx i k g k' g')
    (hpages : ∀ v ∈ elfPages k (L.fsData idx), v < pcb L k i .freeHeapPage / pageSize) :
    HeapClear L k' i := by
  obtain ⟨q, hb⟩ := h.built
  have hi := (freeSlot_spec h.slot).1
  have hheap := h.field_eq .freeHeapPage trivial nofun nofun nofun nofun nofun nofun nofun
  refine hb.heapClear ((h.inv.heap i hi).lt.1) ?_
  rw [hheap, ← elfPages_eq]
  exact hpages

theorem Execed.heapClear {idx : Nat} {argv : List (List UInt8)}
    (h : Execed L cur idx argv k g k' g') (hI : Inv L k g) (hi : cur < 8)
    (hok : ElfOk k (L.fsData idx))
    (hpages : ∀ v ∈ elfPages k (L.fsData idx),
      v < pcb L k cur .freeHeapPage / pageSize + (elfPages k (L.fsData idx)).length) :
    HeapClear L k' cur := by
  obtain ⟨q, k2, hb, -, hg⟩ := h.image
  have hS : ∀ c : Role, c.StackOf (.proc cur) → ¬ c.TableOf (.proc cur) := fun _ hc => hc.not_table
  have hpt := hg.pcb (f := .pagetable) hi trivial (fun _ _ hx => hx)
  have hheap := hg.pcb (f := .freeHeapPage) hi trivial (fun _ _ hx => hx)
  -- the counter has room for all the pages
  obtain ⟨n, hn, hle⟩ := hI.heap cur hi
  have hcount := hb.count hok.stack_notMem
  have hmax := heapCount_le L g' cur
  have hold : pcb L (setPcb L k cur .state ProcState.runnable.code) cur .freeHeapPage =
      pcb L k cur .freeHeapPage :=
    pcb_setPcb_of_ne_field (f := .freeHeapPage) (g := .state) trivial trivial nofun
  have hnew := hb.heapPage
  rw [if_pos rfl, hold, hn] at hnew
  simp only [vaUserBase] at hn hnew
  rw [Nat.mod_eq_of_lt (by omega)] at hnew
  have hlen : (elfPages k (L.fsData idx)).length = (elfLoads k (L.fsData idx)).length := by
    rw [elfPages_eq, List.length_map]
  have hclear : HeapClear L k2 cur := by
    refine hb.heapClear (by rw [hnew]; simp only [vaUserBase]; omega) (fun v hv => ?_)
    rw [← elfPages_eq] at hv
    have := hpages v hv
    rw [hlen, hn] at this
    rw [hnew]
    simp only [pageSize] at *
    omega
  intro v hv hlt
  rw [hheap] at hv
  rw [hpt, hb.tree.walk_grow hb.kmem hg hS (by
    simp only [vaUserStack, vaUserStackInit, vaTrapframe, pageSize] at hlt
    omega)]
  exact hclear v hv hlt

theorem Forked.heapClear (h : Forked L cur i k g k' g')
    (hnone : ∀ v, pcb L k i .freeHeapPage / pageSize ≤ v → v < vaUserStack / pageSize →
      walk k.mem (pcb L k cur .pagetable) v = none) : HeapClear L k' i := by
  intro v hv hlt
  rw [h.field_eq .freeHeapPage trivial nofun nofun nofun nofun nofun nofun nofun] at hv
  have hw := hnone v hv hlt
  simp only [vaUserStack, vaUserStackInit, vaTrapframe, pageSize] at hlt
  have hc := h.entry v (by omega) (by omega)
  rw [hw] at hc
  exact hc

/-- exec gives the process a new root table. -/
theorem Execed.pagetable_ne {idx : Nat} {argv : List (List UInt8)}
    (h : Execed L cur idx argv k g k' g') (hI : Inv L k g) (hlive : Live L k cur) :
    pcb L k' cur .pagetable ≠ pcb L k cur .pagetable := by
  obtain ⟨q, k2, hb, -, hg⟩ := h.image
  rw [hg.pcb (f := .pagetable) hlive.1 trivial (fun _ _ hx => hx)]
  intro heq
  have hroot := hb.root
  rw [heq] at hroot
  have hmem : pcb L k cur .pagetable ∈ g.free := List.mem_of_mem_head? hroot
  have hfree := (hI.kmem.free_iff _).mp hmem
  rw [(hI.proc cur hlive).tree.root] at hfree
  exact absurd hfree nofun

theorem aheadNext_of_same {ahead : Nat → Prop} (hlive : Live L s.k j)
    (hpt : pcb L s'.k j .pagetable = pcb L s.k j .pagetable)
    (h : aheadNext ahead L s s' op j) : ahead j := by
  have hne : freeSlot L s.k ≠ some j := fun hs => hlive.2 (freeSlot_spec hs).2
  cases op with
  | create idx => simpa [aheadNext, hne] using h
  | call c =>
    cases c with
    | fork => simpa [aheadNext, hne] using h
    | exec path argv => simpa [aheadNext, hpt] using h
    | _ => exact h
  | _ => exact h

/-- The counter stays ahead of a process's pages as long as the process lives. -/
theorem SysInv.step_heapClear {ahead : Nat → Prop} (hI : SysInv L s g)
    (hc : ∀ i, Live L s.k i → ahead i → HeapClear L s.k i) (hsafe : op.Safe L s)
    (hstep : s.step L op = some s') :
    ∀ i, Live L s'.k i → aheadNext ahead L s s' op i → HeapClear L s'.k i := by
  obtain ⟨k1, g1, he, ht, -⟩ := hI.step hsafe hstep
  obtain ⟨hI1, -⟩ := he.inv hI.inv hI.files
  intro j hlive' hnext
  have hlive1 := ht.live.mp hlive'
  have hback := ht.spaceSame hI1 hlive1
  refine hback.heapClear ?_
  by_cases hlive : Live L s.k j
  · obtain hsame | ⟨-, rfl, q, ha⟩ | ⟨hcur, path, argv, idx, rfl, hidx, hfile, hok, hex⟩ :=
      he.space_cases hI.inv hlive hlive1
    · refine hsame.heapClear (hc j hlive (aheadNext_of_same hlive ?_ hnext))
      rw [hback.pagetable, hsame.pagetable]
    · exact ha.heapClear (hI.inv.heap j hlive.1) (hc j hlive hnext)
    · refine hex.heapClear hI.inv hlive.1 hok ?_
      have hne : pcb L s'.k j .pagetable ≠ pcb L s.k j .pagetable := by
        rw [hback.pagetable]
        exact hex.pagetable_ne hI.inv hlive
      simpa only [aheadNext, hfile, if_pos (And.intro hcur hne)] using hnext
  · obtain ⟨hslot, ⟨idx, rfl, hidx, hcr⟩ | ⟨cur, hcur, -, rfl, hf⟩⟩ := he.born hlive hlive1
    · refine hcr.heapClear ?_
      simpa only [aheadNext, if_pos hslot] using hnext
    · refine hf.heapClear ?_
      simp only [aheadNext, if_pos hslot] at hnext
      exact hnext cur hcur

theorem heapReach_inv {x : Sys × (Nat → Prop)} (h : HeapReach L x) :
    ∃ g, SysInv L x.1 g ∧ ∀ i, Live L x.1.k i → x.2 i → HeapClear L x.1.k i := by
  refine h.invariant
    (I := fun x => ∃ g, SysInv L x.1 g ∧ ∀ i, Live L x.1.k i → x.2 i → HeapClear L x.1.k i) ?_ ?_
  · rintro ⟨s, ahead⟩ ⟨h0, hahead⟩
    obtain ⟨m, k, g, hs⟩ := h0.started
    refine ⟨g, hs.sysInv, fun i hlive hnil => ?_⟩
    rw [hahead] at hnil
    obtain rfl : i = 0 := by
      by_contra hi
      refine hlive.2 ?_
      rw [hs.created.grow.pcb_other (f := .state) hlive.1 trivial hi, hs.booted.unused i hlive.1]
    have hok := (hs.booted.sameFile (show 2 < 12 by decide)).elfOk (by decide) hs.mem.elf
    have hpages : elfPages k (L.fsData 2) = [] := by
      have hnil' : elfPages s.k (L.fsData 2) = [] := hnil
      rwa [elfPages_eq, (hs.created.filesSame.fsSame.sameFile (by decide)).loads (by decide)
        hok.headers, ← elfPages_eq] at hnil'
    exact hs.created.heapClear (by simp [hpages])
  · rintro ⟨s, ahead⟩ op ⟨s', ahead'⟩ ⟨g, hI, hc⟩ hsafe ⟨hstep, hnext⟩
    simp only at hstep hnext
    obtain ⟨-, g1, -, -, hI'⟩ := hI.step hsafe hstep
    refine ⟨g1, hI', ?_⟩
    rw [hnext]
    exact hI.step_heapClear hc hsafe hstep

/-- When sbrk gives a page that was not in use: exactly where `free_heap_page` is
not mapped, and that is so as long as the process lives if the counter was
ahead when its address space was made. -/
theorem heap_growth_ok_iff (L : Layout) (s : Sys) (ahead : Nat → Prop) (cur : Nat)
    (free : List Nat) (h : HeapReach L (s, ahead)) (hlive : Live L s.k cur)
    (hfree : FreeList L s.k free) (hne : free ≠ []) :
    (AddPageOk L s.k cur ↔
        walk s.k.mem (pcb L s.k cur .pagetable) (pcb L s.k cur .freeHeapPage / pageSize) = none ∧
          HeapRoom L s.k cur free) ∧
      (ahead cur → HeapRoom L s.k cur free → AddPageOk L s.k cur) := by
  obtain ⟨g, hI, hc⟩ := heapReach_inv h
  have hiff := addPageOk_iff hI.inv hlive hfree hne
  refine ⟨hiff, fun ha hroom => hiff.mpr ⟨hc cur hlive ha _ le_rfl ?_, hroom⟩⟩
  have := (hI.inv.heap cur hlive.1).lt
  simp only [vaUserStack, vaUserStackInit, vaTrapframe, pageSize] at *
  omega

theorem SysReach.heapReach (h : SysReach L (fun s op => op.Safe L s) s) :
    ∃ ahead, HeapReach L (s, ahead) := by
  induction h with
  | @init s h0 => exact ⟨fun _ => elfPages s.k (L.fsData 2) = [], .init ⟨h0, rfl⟩⟩
  | @step s s' op hs hsafe hstep ih =>
    obtain ⟨ahead, ih⟩ := ih
    have hreach : HeapReach L (s', aheadNext ahead L s s' op) := ih.step hsafe ⟨hstep, rfl⟩
    exact ⟨_, hreach⟩

/-- The first process of the example system after it has executed its own file. -/
theorem exampleExeced (argv : List (List UInt8)) (hargv : ∀ arg ∈ argv, 0 ∉ arg)
    (hfit : argBytes argv ≤ pageSize) :
    ∃ s g s' k1 g1, SysReach exampleLayout (fun s op => op.Safe exampleLayout s) s ∧
      Entered exampleLayout exampleMem s g ∧
      Op.Safe exampleLayout s (.call (.exec examplePath argv)) ∧
      s.step exampleLayout (.call (.exec examplePath argv)) = some s' ∧
      filesystemGetFiledata exampleLayout s.k examplePath = exampleLayout.fsData 2 ∧
      ElfOk s.k (exampleLayout.fsData 2) ∧ Execed exampleLayout 0 2 argv s.k g k1 g1 ∧
      TrapWords exampleLayout k1 g1 s'.k := by
  obtain ⟨s, g, k', hs, he, hfile, hexec⟩ :=
    exampleExec (fun s op => op.Safe exampleLayout s) (fun _ _ => trivial) argv
  have hr := he.running
  have hok : ElfOk s.k (exampleLayout.fsData 2) :=
    (he.files.sameFile (by decide)).elfOk (by decide) exampleElf_ok
  have hne : exampleLayout.fsData 2 ≠ 0 := by decide
  obtain ⟨hzero, -⟩ | ⟨idx, g1, hidx, hfile', hex⟩ :=
    kprocExec_inv hr.inv.inv hr.live (fun _ => by rw [hfile]; exact ⟨hok, hfit⟩) hexec
  · exact absurd (hfile.symm.trans hzero) hne
  have hidx2 : idx = 2 := by
    have heq := hfile'.symm.trans hfile
    simp only [Layout.fsData, Layout.fsFile, sizeofFilesystemFile] at heq
    omega
  rw [hidx2] at hex
  have hlive' : Live exampleLayout k' 0 := ⟨by decide, by rw [hex.state]; decide⟩
  refine ⟨s, g, { s with k := ktrapToUser exampleLayout k' 0 }, k', g1, hs, he, ?_, ?_, hfile, hok,
    hex, ktrapToUser_words hex.inv hlive'⟩
  · intro cur _ _
    rw [hfile]
    exact ⟨hok, hfit⟩
  · rw [hr.step_call]
    simp only [Sys.call]
    rw [if_pos ⟨by decide, hargv⟩, hexec]
    rfl

theorem Entered.exampleLoads (he : Entered exampleLayout exampleMem s g) :
    elfLoads s.k (exampleLayout.fsData 2) = [⟨0xC0000, exampleLayout.fsData 2 + 84, 8⟩] := by
  rw [(he.files.sameFile (by decide)).loads (by decide) exampleElf_ok.headers, exampleElf_loads]

theorem heap_growth_after_exec : ∃ s ahead free,
    HeapReach exampleLayout (s, ahead) ∧ Live exampleLayout s.k 0 ∧
      FreeList exampleLayout s.k free ∧ AddPageOk exampleLayout s.k 0 := by
  obtain ⟨s, g, s', k1, g1, hs, he, hsafe, hstep, hfile, hok, hex, ht⟩ :=
    exampleExeced [] (by simp) (by decide)
  obtain ⟨ahead, ha⟩ := hs.heapReach
  have hlive1 : Live exampleLayout k1 0 := ⟨by decide, by rw [hex.state]; decide⟩
  have hlive := ht.live.mpr hlive1
  have hback := ht.spaceSame hex.inv hlive1
  have hpages : elfPages s.k (exampleLayout.fsData 2) = [0xC0000] := by
    rw [elfPages_eq, he.exampleLoads]
    rfl
  -- the counter moved past the page of the image
  have hahead : aheadNext ahead exampleLayout s s' (.call (.exec examplePath [])) 0 := by
    have hne : pcb exampleLayout s'.k 0 .pagetable ≠ pcb exampleLayout s.k 0 .pagetable := by
      rw [hback.pagetable]
      exact hex.pagetable_ne he.running.inv.inv he.running.live
    simp only [aheadNext, if_pos (And.intro he.running.current hne), hfile, hpages,
      he.heap 0 (by decide)]
    decide
  have hreach : HeapReach exampleLayout (s', aheadNext ahead exampleLayout s s'
      (.call (.exec examplePath []))) :=
    ha.step hsafe ⟨hstep, rfl⟩
  have hlen : 2 ≤ g1.free.length := by
    obtain ⟨q, k2, hb, -, -⟩ := hex.image
    have hfree := he.exampleFree
    have hcard := exampleLayout.card_userTables_le [0xC0000]
    rw [hb.free, List.length_drop, he.exampleLoads]
    simp only [Layout.imagePages, List.map_cons, List.map_nil, List.length_cons,
      List.length_nil, exampleLayout_tables] at *
    omega
  have hne : g1.free ≠ [] := by
    rintro hnil
    simp [hnil] at hlen
  exact ⟨s', _, g1.free, hreach, hlive, ht.kmem.freeList,
    (heap_growth_ok_iff exampleLayout s' _ 0 g1.free hreach hlive ht.kmem.freeList hne).2 hahead
      (.inr hlen)⟩

/-- The first `sbrk` of the first process gives it the page its code is on. -/
theorem heap_growth_over_code : ∃ s g, SysReach exampleLayout (fun _ _ => True) s ∧
    s.k.current = some 0 ∧ Live exampleLayout s.k 0 ∧ FreeList exampleLayout s.k g ∧
    15000 ≤ g.length ∧
    (∃ k' e, kprocAddPage exampleLayout s.k 0 = some (0xC0000000, k') ∧
      walk s.k.mem (pcb exampleLayout s.k 0 .pagetable) (0xC0000000 / pageSize) = some e) ∧
    ¬ AddPageOk exampleLayout s.k 0 := by
  obtain ⟨s, g, hs, he, -⟩ := exampleEntered (fun _ _ => True) (fun _ _ => trivial)
  have hr := he.running
  have hlive := hr.live
  have hheap := he.heap 0 (by decide)
  have hlen := he.exampleFree
  have hne : g.free ≠ [] := by
    rintro hnil
    simp [hnil] at hlen
  have hp := hr.inv.inv.proc 0 hlive
  have hloads : lastLoad (elfLoads (KState.init exampleMem) (exampleLayout.fsData 2)) 0xC0000 =
      some ⟨0xC0000, exampleLayout.fsData 2 + 84, 8⟩ := by
    rw [exampleElf_loads]
    rfl
  obtain ⟨q, -, -, hwalk, -⟩ := he.image _ _ hloads
  refine ⟨s, g.free, hs, hr.current, hlive, hr.inv.inv.kmem.freeList, hlen, ?_, ?_⟩
  · cases hadd : kprocAddPage exampleLayout s.k 0 with
    | none =>
      rw [kprocAddPage_none_iff hr.inv.inv.kmem (by decide) hp.tree] at hadd
      split at hadd <;> omega
    | some r =>
      obtain ⟨va, k'⟩ := r
      obtain ⟨rfl, -⟩ := kprocAddPage_inv hr.inv.inv hlive hadd
      exact ⟨k', _, by rw [hheap], hwalk⟩
  · rw [addPageOk_iff hr.inv.inv hlive hr.inv.inv.kmem.freeList hne, hheap]
    rintro ⟨hnone, -⟩
    exact absurd (hwalk.symm.trans hnone) nofun

end Risky321.Kernel
