/-
Risky321.Kernel.KprocTheorems — the operations of `kproc.c` keep the
invariant.

§1 create, §2 exec, §3 sbrk, §4 exit and kill. Fork and the arguments of
exec have modules of their own. Each theorem says that from a state with the
invariant the operation, if it does not panic, leads to one; for exec the
arguments have to fit on the stack page, because nothing in `kproc_exec`
checks that they do.
-/
import Risky321.Kernel.ArgumentTheorems
import Risky321.Kernel.ProcInvariant

namespace Risky321.Kernel

open Risky321.Lib

variable {L : Layout} {k k' k'' : KState} {g g' g'' : Ghost} {i j p v idx : Nat}

/-! ## §1 Create -/

/-- A built address space makes its slot a process. -/
theorem Built.procInv {heap : Bool} {elf : Nat} {loads : List Load}
    (hb : Built L heap i elf k g loads p k' g') (hpid : pcb L k' i .pid = i + 1) : ProcInv L k' g' i :=
  ⟨hpid, hb.tree, hb.leaves, hb.trapframe, by rw [hb.userStack, hb.page_ow], hb.kernel_map,
    hb.trap_map, by rw [hb.userStack, hb.stack_map]⟩

theorem Built.heapOk {heap : Bool} {elf : Nat} {loads : List Load}
    (hb : Built L heap i elf k g loads p k' g') (hno : 0xFFFFE ∉ loads.map Load.page)
    (hh : HeapOk L k g i) : HeapOk L k' g' i := by
  obtain ⟨h, heq, hle⟩ := hh
  have hcount := hb.count hno
  have hmax := heapCount_le L g' i
  cases heap with
  | false =>
    refine ⟨h, ?_, by omega⟩
    rw [hb.heapPage, heq]
    rfl
  | true =>
    refine ⟨h + loads.length, ?_, by omega⟩
    rw [hb.heapPage, heq]
    simp only [if_true, vaUserBase]
    omega

theorem freeSlot_spec (h : freeSlot L k = some i) :
    i < 8 ∧ pcb L k i .state = ProcState.unused.code := by
  unfold freeSlot at h
  have hmem := List.mem_of_find?_eq_some h
  have hp := List.find?_some h
  exact ⟨List.mem_range.mp hmem, by simpa using hp⟩

/-- The first two stores of `kproc_create` and `kproc_fork` into the PCB they take. -/
theorem takeSlot_grow (hk : KmemInv L k g) (hi : i < 8)
    (hk' : k' = setPcb L (setPcb L k i .state ProcState.runnable.code) i .pid (i + 1)) :
    KmemInv L k' g ∧ Grow L (fun _ => False) (L.InPcb i) k g k' g ∧
      pcb L k' i .pid = i + 1 ∧ pcb L k' i .state = ProcState.runnable.code ∧
      ∀ f : PcbField, f.InStruct → f ≠ .state → f ≠ .pid → pcb L k' i f = pcb L k i f := by
  refine ⟨?_, ?_, ?_, ?_, ?_⟩
  · rw [hk']
    exact (hk.setPcb (f := .state) hi trivial).setPcb (f := .pid) hi trivial
  · rw [hk']
    exact (setPcb_grow (f := .state) hi trivial).trans (setPcb_grow (f := .pid) hi trivial)
  · rw [hk', pcb_setPcb_same (by omega)]
  · rw [hk', pcb_setPcb_of_ne_field (f := .state) (g := .pid) trivial trivial nofun,
      pcb_setPcb_same (by decide)]
  · intro f hf h1 h2
    rw [hk', pcb_setPcb_of_ne_field (g := .pid) hf trivial h2,
      pcb_setPcb_of_ne_field (g := .state) hf trivial h1]

theorem takeSlot_heapOk (hI : Inv L k g) (hi : i < 8)
    (hk' : k' = setPcb L (setPcb L k i .state ProcState.runnable.code) i .pid (i + 1)) :
    HeapOk L k' g i := by
  obtain ⟨-, -, -, -, hf⟩ := takeSlot_grow hI.kmem hi hk'
  obtain ⟨h, heq, hle⟩ := hI.heap i hi
  exact ⟨h, by rw [hf .freeHeapPage trivial nofun nofun, heq], hle⟩

/-- An image that may be loaded has no page in place of the stack. -/
theorem ElfOk.stack_notMem {elf : Nat} (hok : ElfOk k elf) :
    0xFFFFE ∉ (elfLoads k elf).map Load.page := by
  intro hmem
  rw [← elfPages_eq] at hmem
  have := (hok.pages _ hmem).2
  simp only [vaUserStack, vaUserStackInit, vaTrapframe, pageSize] at this
  omega

/-- What `kproc_create` can do. -/
theorem kprocCreate_cases {elf : Nat} (h : kprocCreate L k elf = some (i, k')) :
    freeSlot L k = some i ∧ ∃ q, buildImage L false
      (setPcb L (setPcb L k i .state ProcState.runnable.code) i .pid (i + 1)) i elf =
        some (q, k') := by
  unfold kprocCreate at h
  cases hslot : freeSlot L k with
  | none => simp [hslot] at h
  | some n =>
    simp only [hslot] at h
    cases hbuild : buildImage L false
        (setPcb L (setPcb L k n .state ProcState.runnable.code) n .pid (n + 1)) n elf with
    | none => simp [hbuild] at h
    | some pk =>
      obtain ⟨q, k3⟩ := pk
      simp only [hbuild, Option.some.injEq, Prod.mk.injEq] at h
      obtain ⟨rfl, rfl⟩ := h
      exact ⟨rfl, q, hbuild⟩

theorem kprocCreate_none_cases {elf : Nat} (h : kprocCreate L k elf = none) :
    freeSlot L k = none ∨ ∃ i, freeSlot L k = some i ∧ buildImage L false
      (setPcb L (setPcb L k i .state ProcState.runnable.code) i .pid (i + 1)) i elf = none := by
  unfold kprocCreate at h
  cases hslot : freeSlot L k with
  | none => exact .inl rfl
  | some n =>
    simp only [hslot] at h
    refine .inr ⟨n, rfl, ?_⟩
    cases hbuild : buildImage L false
        (setPcb L (setPcb L k n .state ProcState.runnable.code) n .pid (n + 1)) n elf with
    | none => rfl
    | some pk => simp [hbuild] at h

/-- `kproc_create` on one of the files: the slot is taken and an address space built. -/
theorem kprocCreate_spec (hk : KmemInv L k g) (hidx : idx < 12) (hok : ElfAbove k (L.fsData idx))
    (h : kprocCreate L k (L.fsData idx) = some (i, k')) :
    freeSlot L k = some i ∧ ∃ k1 q g',
      k1 = setPcb L (setPcb L k i .state ProcState.runnable.code) i .pid (i + 1) ∧
      Built L false i (L.fsData idx) k1 g (elfLoads k (L.fsData idx)) q k' g' := by
  obtain ⟨hslot, q, hbuild⟩ := kprocCreate_cases h
  obtain ⟨hi, -⟩ := freeSlot_spec hslot
  generalize hk1 : setPcb L (setPcb L k i .state ProcState.runnable.code) i .pid (i + 1) = k1
    at hbuild
  obtain ⟨hkmem1, hg1, -⟩ := takeSlot_grow hk hi hk1.symm
  have hfile := hg1.sameFile hi hidx
  obtain ⟨g', hb⟩ := buildImage_spec hkmem1 hi hidx (hfile.elfAbove hidx hok) hbuild
  rw [hfile.loads hidx hok.headers] at hb
  exact ⟨hslot, k1, q, g', rfl, hb⟩

/-- `kproc_create` panics only for lack of a slot or of pages. -/
theorem kprocCreate_none (hk : KmemInv L k g) (hidx : idx < 12) (hok : ElfAbove k (L.fsData idx))
    (h : kprocCreate L k (L.fsData idx) = none) :
    freeSlot L k = none ∨
      g.free.length < 4 + L.kernelTables + 2 * (elfLoads k (L.fsData idx)).length := by
  obtain hslot | ⟨i, hslot, hbuild⟩ := kprocCreate_none_cases h
  · exact .inl hslot
  · right
    obtain ⟨hi, -⟩ := freeSlot_spec hslot
    generalize hk1 : setPcb L (setPcb L k i .state ProcState.runnable.code) i .pid (i + 1) = k1
      at hbuild
    obtain ⟨hkmem1, hg1, -⟩ := takeSlot_grow hk hi hk1.symm
    have hfile := hg1.sameFile hi hidx
    have hlt := buildImage_none hkmem1 hi hidx (hfile.elfAbove hidx hok) hbuild
    rwa [hfile.loads hidx hok.headers] at hlt

/-- Slot `i` was taken for a process that runs file `idx`. -/
structure Created (L : Layout) (idx i : Nat) (k : KState) (g : Ghost) (k' : KState) (g' : Ghost) :
    Prop where
  slot : freeSlot L k = some i
  built : ∃ q, Built L false i (L.fsData idx)
    (setPcb L (setPcb L k i .state ProcState.runnable.code) i .pid (i + 1)) g
    (elfLoads k (L.fsData idx)) q k' g'
  grow : Grow L (Role.Of (.proc i)) (L.InPcb i) k g k' g'
  inv : Inv L k' g'
  field_eq : ∀ f : PcbField, f.InStruct → f ≠ .state → f ≠ .pid → f ≠ .pagetable →
    f ≠ .trapframe → f ≠ .context 0 → f ≠ .context 1 → f ≠ .userStack →
    pcb L k' i f = pcb L k i f
  state : pcb L k' i .state = ProcState.runnable.code

theorem kprocCreate_inv (hI : Inv L k g) (hidx : idx < 12) (hok : ElfOk k (L.fsData idx))
    (h : kprocCreate L k (L.fsData idx) = some (i, k')) : ∃ g', Created L idx i k g k' g' := by
  obtain ⟨hslot, k1, q, g', hk1, hb⟩ := kprocCreate_spec hI.kmem hidx hok.above h
  obtain ⟨hi, -⟩ := freeSlot_spec hslot
  obtain ⟨-, hg1, hpid1, hstate1, hf1⟩ := takeSlot_grow hI.kmem hi hk1
  have hpid : pcb L k' i .pid = i + 1 := by
    rw [hb.field_eq .pid trivial nofun nofun nofun nofun nofun nofun, hpid1]
  have hgrow := (hg1.mono (fun _ h => h.elim) (fun _ h => h)).trans hb.grow
  refine ⟨g', hslot, ⟨q, hk1 ▸ hb⟩, hgrow, ?_, ?_, ?_⟩
  · refine hI.touch hgrow.touch hb.kmem (fun _ => hb.procInv hpid)
      (hb.heapOk hok.stack_notMem (takeSlot_heapOk hI hi hk1)) ?_
    rw [hgrow.current]
    exact hI.current
  · intro f hf h1 h2 h3 h4 h5 h6 h7
    by_cases hheap : f = .freeHeapPage
    · rw [hheap, hb.heapPage]
      exact hf1 .freeHeapPage trivial nofun nofun
    · rw [hb.field_eq f hf h3 h4 h5 h6 h7 hheap, hf1 f hf h1 h2]
  · rw [hb.field_eq .state trivial nofun nofun nofun nofun nofun nofun, hstate1]

/-! ## §2 Exec -/

/-- A process of which pages were written to, but none of its tables. -/
theorem ProcInv.pageWrites {S : Role → Prop} (hp : ProcInv L k g i) (hk : KmemInv L k g)
    (hi : i < 8) (hS : ∀ c, S c → ¬ c.TableOf (.proc i))
    (hg : Grow L S (fun _ => False) k g k' g) : ProcInv L k' g i := by
  have hpcb : ∀ f : PcbField, f.InStruct → pcb L k' i f = pcb L k i f :=
    fun f hf => hg.pcb hi hf (fun _ _ hw => hw)
  have hle := L.kernelPages_lt
  have hwalk : ∀ v < 2 ^ 20, walk k'.mem (pcb L k i .pagetable) v =
      walk k.mem (pcb L k i .pagetable) v := fun v hv => hp.tree.walk_grow hk hg hS hv
  have h1 := hpcb .pid trivial
  have h2 := hpcb .pagetable trivial
  have h3 := hpcb .trapframe trivial
  have h4 := hpcb .userStack trivial
  refine ⟨?_, ?_, ?_, ?_, ?_, ?_, ?_, ?_⟩
  · rw [h1, hp.pid]
  · rw [h2]
    exact hp.tree.grow hk hg hS
  · rw [h2]
    exact hp.leaves.grow hp.tree hk hg hS
  · rw [h3, hp.trapframe]
  · rw [h4, hp.userStack]
  · intro v hv
    rw [h2, hwalk v (by omega), hp.kernel_map v hv]
  · rw [h2, h3, hwalk _ (by omega), hp.trap_map]
  · rw [h2, h4, hwalk _ (by omega), hp.stack_map]

/-- Writing to pages that are neither tables nor free keeps the invariant. -/
theorem Inv.pageWrites {S : Role → Prop} (hI : Inv L k g) (hS : ∀ c a, S c → ¬ c.TableOf a)
    (hk : KmemInv L k' g) (hg : Grow L S (fun _ => False) k g k' g) : Inv L k' g := by
  refine ⟨hk, ?_, ?_, ?_, ?_, ?_, ?_, ?_⟩
  · rw [hg.kernelPagetable]
    exact hI.kernel.grow hI.kmem hg (fun c => hS c .kernel)
  · rw [hg.blkRequestVq]
    exact hI.queueUpper
  · rw [hg.blkRequestVq]
    exact hI.queueLower
  · rw [hg.blkReqPaddr]
    exact hI.request
  · intro i hlive
    have hold : Live L k i :=
      ⟨hlive.1, by rw [← hg.pcb (f := .state) hlive.1 trivial (fun _ _ h => h)]; exact hlive.2⟩
    exact (hI.proc i hold).pageWrites hI.kmem hlive.1 (fun c => hS c (.proc i)) hg
  · intro i hi
    obtain ⟨n, heq, hle⟩ := hI.heap i hi
    exact ⟨n, by rw [hg.pcb (f := .freeHeapPage) hi trivial (fun _ _ h => h), heq], hle⟩
  · rw [hg.current]
    exact hI.current

/-- What `kproc_exec` can do: nothing, or build an image from one of the files. -/
theorem kprocExec_cases {cur ret : Nat} {path : List UInt8} {argv : List (List UInt8)}
    (h : kprocExec L k cur path argv = some (ret, k')) :
    (filesystemGetFiledata L k path = 0 ∧ ret = 0xFFFFFFFF ∧ k' = k) ∨
      ret = 0 ∧ ∃ idx q k2, idx < 12 ∧ filesystemGetFiledata L k path = L.fsData idx ∧
        filesystemGetFiledata L k path ≠ 0 ∧
        buildImage L true (setPcb L k cur .state ProcState.runnable.code) cur (L.fsData idx) =
          some (q, k2) ∧ k' = execArgs L k2 cur q argv := by
  unfold kprocExec at h
  simp only at h
  generalize helf : filesystemGetFiledata L k path = elf at h
  by_cases h0 : elf = 0
  · rw [if_pos h0, Option.some.injEq, Prod.mk.injEq] at h
    exact .inl ⟨h0, h.1.symm, h.2.symm⟩
  · rw [if_neg h0] at h
    right
    have hfile : ∃ idx < 12, elf = L.fsData idx := by
      unfold filesystemGetFiledata filesystemLocateFile at helf
      simp only at helf
      split at helf
      · exact absurd helf.symm h0
      · rename_i hne
        cases hfind : (List.range maxFsFiles).find?
            (fun idx => strcmp k.mem path (L.fsName idx) == 0) with
        | none => simp [hfind] at hne
        | some n =>
          rw [hfind, Option.getD_some] at helf
          exact ⟨n, List.mem_range.mp (List.mem_of_find?_eq_some hfind), helf.symm⟩
    obtain ⟨idx, hidx, hfile⟩ := hfile
    generalize setPcb L k cur .state ProcState.runnable.code = k1 at h ⊢
    cases hbuild : buildImage L true k1 cur elf with
    | none => simp [hbuild] at h
    | some qk =>
      obtain ⟨q, k2⟩ := qk
      simp only [hbuild, Option.some.injEq, Prod.mk.injEq] at h
      exact ⟨h.1.symm, idx, q, k2, hidx, hfile, h0,
        by rw [← hfile, hbuild], h.2.symm⟩

/-- A new address space in place of the old one, up to the arguments. -/
theorem kprocExec_spec {cur ret : Nat} {path : List UInt8} {argv : List (List UInt8)}
    (hk : KmemInv L k g) (hi : cur < 8)
    (hok : filesystemGetFiledata L k path ≠ 0 → ElfAbove k (filesystemGetFiledata L k path))
    (h : kprocExec L k cur path argv = some (ret, k')) :
    (filesystemGetFiledata L k path = 0 ∧ k' = k) ∨ ∃ idx q k1 k2 g', idx < 12 ∧ filesystemGetFiledata L k path = L.fsData idx ∧
      filesystemGetFiledata L k path ≠ 0 ∧
      k1 = setPcb L k cur .state ProcState.runnable.code ∧
      Built L true cur (L.fsData idx) k1 g (elfLoads k (L.fsData idx)) q k2 g' ∧
      k' = execArgs L k2 cur q argv := by
  obtain ⟨hnone, -, heq⟩ | ⟨-, idx, q, k2, hidx, hfile, hne, hbuild, hk'⟩ := kprocExec_cases h
  · exact .inl ⟨hnone, heq⟩
  · right
    replace hok := hok hne
    rw [hfile] at hok
    have hkmem1 := hk.setPcb (f := .state) (v := ProcState.runnable.code) hi trivial
    have hg1 : Grow L (fun _ => False) (L.InPcb cur) k g
        (setPcb L k cur .state ProcState.runnable.code) g :=
      setPcb_grow (f := .state) hi trivial
    generalize hk1 : setPcb L k cur .state ProcState.runnable.code = k1 at *
    have hsame := hg1.sameFile hi hidx
    obtain ⟨g', hb⟩ := buildImage_spec hkmem1 hi hidx (hsame.elfAbove hidx hok) hbuild
    rw [hsame.loads hidx hok.headers] at hb
    exact ⟨idx, q, k1, k2, g', hidx, hfile, hne, rfl, hb, hk'⟩

/-- Slot `cur` now runs file `idx` with the arguments `argv`. -/
structure Execed (L : Layout) (cur idx : Nat) (argv : List (List UInt8)) (k : KState) (g : Ghost)
    (k' : KState) (g' : Ghost) : Prop where
  image : ∃ q k2, Built L true cur (L.fsData idx) (setPcb L k cur .state ProcState.runnable.code) g
    (elfLoads k (L.fsData idx)) q k2 g' ∧ ArgsStored L cur q k2 argv k' ∧
    Grow L (Role.StackOf (.proc cur)) (fun _ => False) k2 g' k' g'
  grow : Grow L (Role.Of (.proc cur)) (L.InPcb cur) k g k' g'
  inv : Inv L k' g'
  field_eq : ∀ f : PcbField, f.InStruct → f ≠ .state → f ≠ .pagetable → f ≠ .trapframe →
    f ≠ .context 0 → f ≠ .context 1 → f ≠ .userStack → f ≠ .freeHeapPage →
    pcb L k' cur f = pcb L k cur f
  state : pcb L k' cur .state = ProcState.runnable.code

/-- `kproc_exec` with arguments that fit. -/
theorem kprocExec_inv {cur ret : Nat} {path : List UInt8} {argv : List (List UInt8)}
    (hI : Inv L k g) (hcur : Live L k cur)
    (hok : filesystemGetFiledata L k path ≠ 0 →
      ElfOk k (filesystemGetFiledata L k path) ∧ argBytes argv ≤ 4096)
    (h : kprocExec L k cur path argv = some (ret, k')) :
    (filesystemGetFiledata L k path = 0 ∧ k' = k) ∨ ∃ idx g', idx < 12 ∧ filesystemGetFiledata L k path = L.fsData idx ∧
      Execed L cur idx argv k g k' g' := by
  have hi : cur < 8 := hcur.1
  obtain heq | ⟨idx, q, k1, k2, g', hidx, hfile, hne, hk1, hb, hk'⟩ :=
    kprocExec_spec hI.kmem hi (fun hne => (hok hne).1.above) h
  · exact .inl heq
  · obtain ⟨hok, hfit⟩ := hok hne
    rw [hfile] at hok
    have hg1 : Grow L (Role.Of (.proc cur)) (L.InPcb cur) k g k1 g := by
      rw [hk1]
      exact setPcb_grow (f := .state) hi trivial
    have hf1 : ∀ f : PcbField, f.InStruct → f ≠ .state → pcb L k1 cur f = pcb L k cur f := by
      intro f hf hne
      rw [hk1]
      exact pcb_setPcb_of_ne_field (g := .state) hf trivial hne
    have hstate1 : pcb L k1 cur .state = ProcState.runnable.code := by
      rw [hk1]
      exact pcb_setPcb_same (by decide)
    have hpid : pcb L k2 cur .pid = cur + 1 := by
      rw [hb.field_eq .pid trivial nofun nofun nofun nofun nofun nofun,
        hf1 .pid trivial nofun, (hI.proc cur hcur).pid]
    have hheap2 : HeapOk L k2 g' cur := by
      refine hb.heapOk hok.stack_notMem ?_
      obtain ⟨n, heq, hle⟩ := hI.heap cur hi
      exact ⟨n, by rw [hf1 .freeHeapPage trivial nofun, heq], hle⟩
    have hargs := execArgs_spec (argRoom_of_fit hb.kmem hi hb.page_ow hb.trapframe hfit) hb.sp
    obtain ⟨hkmem3, hg3⟩ := hargs.grow hb.kmem hb.page_ow hb.trapframe hfit
    rw [← hk'] at hkmem3 hg3 hargs
    have hf3 : ∀ f : PcbField, f.InStruct → pcb L k' cur f = pcb L k2 cur f :=
      fun f hf => hg3.pcb hi hf (fun _ _ hw => hw)
    have hgrow : Grow L (Role.Of (.proc cur)) (L.InPcb cur) k g k' g' :=
      (hg1.trans hb.grow).trans (hg3.mono (fun _ h => h.of) (fun _ h => h.elim))
    refine .inr ⟨idx, g', hidx, hfile, ⟨q, k2, hk1 ▸ hb, hargs, hg3⟩, hgrow, ?_, ?_, ?_⟩
    · refine hI.touch hgrow.touch hkmem3
        (fun _ => (hb.procInv hpid).pageWrites hb.kmem hi (fun _ h => h.not_table) hg3) ?_ ?_
      · obtain ⟨n, heq, hle⟩ := hheap2
        exact ⟨n, by rw [hf3 .freeHeapPage trivial, heq], hle⟩
      · rw [hgrow.current]
        exact hI.current
    · intro f hf h1 h2 h3 h4 h5 h6 h7
      rw [hf3 f hf, hb.field_eq f hf h2 h3 h4 h5 h6 h7, hf1 f hf h1]
    · rw [hf3 .state trivial, hb.field_eq .state trivial nofun nofun nofun nofun nofun nofun,
        hstate1]

/-! ## §3 Sbrk -/

/-- What `kproc_add_page` can do: map a fresh page at `free_heap_page` and move that up. -/
theorem kprocAddPage_cases {cur ret : Nat} (h : kprocAddPage L k cur = some (ret, k')) :
    ∃ q ka kb, kmemAlloc k = some (q, ka) ∧ ret = pcb L ka cur .freeHeapPage ∧
      kvmemMapPage ka (pcb L ka cur .pagetable) (pcb L ka cur .freeHeapPage) q
        (pteR ||| pteW ||| pteU) = some kb ∧
      k' = setPcb L kb cur .freeHeapPage ((pcb L kb cur .freeHeapPage + pageSize) % 2 ^ 32) := by
  unfold kprocAddPage at h
  cases hal : kmemAlloc k with
  | none => simp [hal] at h
  | some pk =>
    obtain ⟨q, ka⟩ := pk
    simp only [hal] at h
    cases hmap : kvmemMapPage ka (pcb L ka cur .pagetable) (pcb L ka cur .freeHeapPage) q
        (pteR ||| pteW ||| pteU) with
    | none => simp [hmap] at h
    | some kb =>
      simp only [hmap, Option.some.injEq, Prod.mk.injEq] at h
      exact ⟨q, ka, kb, rfl, h.1.symm, hmap, h.2.symm⟩

/-- The page `q` was added to the heap of slot `i`. -/
structure PageAdded (L : Layout) (i : Nat) (k : KState) (g : Ghost) (q : Nat) (k' : KState)
    (g' : Ghost) : Prop where
  kmem : KmemInv L k' g'
  tree : Tree k'.mem g' (.proc i) (pcb L k i .pagetable)
  leaves : Leaves k'.mem g' (.proc i) (pcb L k i .pagetable)
  grow : Grow L (Role.MappedOf (.proc i)) (L.InPcb i) k g k' g'
  page : L.IsPage q
  fresh : g.ow q = .free
  page_ow : g'.ow q = .leaf (.proc i) (pcb L k i .freeHeapPage / 4096)
  walk_eq : ∀ u < 2 ^ 20, walk k'.mem (pcb L k i .pagetable) u =
    if u = pcb L k i .freeHeapPage / 4096 then some (q / 4 + 23)
    else walk k.mem (pcb L k i .pagetable) u
  zero : ∀ x < 4096, k'.mem (q + x) = 0
  leaf_bytes : ∀ p u, u ≠ pcb L k i .freeHeapPage / 4096 → g.ow p = .leaf (.proc i) u →
    ∀ x < 4096, k'.mem (p + x) = k.mem (p + x)
  hasTable : ∀ n < 1024, HasTable k'.mem (pcb L k i .pagetable) n ↔
    n = pcb L k i .freeHeapPage / 4096 / 1024 ∨ HasTable k.mem (pcb L k i .pagetable) n
  free : g'.free = g.free.drop
    (if HasTable k.mem (pcb L k i .pagetable) (pcb L k i .freeHeapPage / 4096 / 1024) then 1 else 2)
  field_eq : ∀ f : PcbField, f.InStruct → f ≠ .freeHeapPage → pcb L k' i f = pcb L k i f
  heapPage : pcb L k' i .freeHeapPage = (pcb L k i .freeHeapPage + 4096) % 2 ^ 32
  exact : Exact k.mem g (.proc i) (pcb L k i .pagetable) →
    walk k.mem (pcb L k i .pagetable) (pcb L k i .freeHeapPage / 4096) = none →
    Exact k'.mem g' (.proc i) (pcb L k i .pagetable)

theorem kprocAddPage_spec {cur ret : Nat} (hk : KmemInv L k g) (hi : cur < 8)
    (ht : Tree k.mem g (.proc cur) (pcb L k cur .pagetable))
    (hl : Leaves k.mem g (.proc cur) (pcb L k cur .pagetable))
    (h : kprocAddPage L k cur = some (ret, k')) :
    ret = pcb L k cur .freeHeapPage ∧ ∃ q g', PageAdded L cur k g q k' g' := by
  obtain ⟨q, ka, kb, hal, hret, hmap, hk'⟩ := kprocAddPage_cases h
  have hpcba : ∀ f : PcbField, f.InStruct → pcb L ka cur f = pcb L k cur f := fun f hf =>
    (kmemAlloc_grow (S := fun c => c = .root .kernel) (W := fun _ => False) hk hal rfl).pcb hi hf
      (fun _ _ hw => hw)
  rw [hpcba .freeHeapPage trivial] at hret
  rw [hpcba .pagetable trivial, hpcba .freeHeapPage trivial] at hmap
  obtain ⟨g', hm⟩ := mapUserPage_spec hk ht hl (pcb_lt L k cur .freeHeapPage) (by decide)
    (by decide) hal (fun _ _ => rfl) hmap
  have hpcbb : ∀ f : PcbField, f.InStruct → pcb L kb cur f = pcb L k cur f :=
    fun f hf => hm.grow.pcb hi hf (fun _ _ hw => hw)
  obtain ⟨-, -, -, hka, -⟩ := kmemAlloc_spec hk hal
  rw [hpcbb .freeHeapPage trivial] at hk'
  have hmod : (pcb L k cur .freeHeapPage + pageSize) % 2 ^ 32 < 2 ^ 32 :=
    Nat.mod_lt _ (by norm_num)
  generalize hnew : (pcb L k cur .freeHeapPage + pageSize) % 2 ^ 32 = new at *
  have hsp : Grow L (Role.MappedOf (.proc cur)) (L.InPcb cur) kb g'
      (setPcb L kb cur .freeHeapPage new) g' := setPcb_grow (f := .freeHeapPage) hi trivial
  refine ⟨hret, q, g', ?_, ?_, ?_, ?_, hm.page, hm.fresh, hm.page_ow, ?_, ?_, ?_, ?_, hm.free, ?_,
    ?_, ?_⟩
  · rw [hk']
    exact hm.kmem.setPcb hi trivial
  · rw [hk']
    exact hm.tree.setPcb hm.kmem hi trivial
  · rw [hk']
    exact hm.leaves.setPcb hm.tree hm.kmem hi trivial
  · rw [hk']
    exact (hm.grow.mono (fun _ h => h) (fun _ h => h.elim)).trans hsp
  · intro u hu
    rw [hk', hm.tree.walk_setPcb (f := .freeHeapPage) hm.kmem hi trivial hu, hm.walk_eq u hu]
    rfl
  · intro x hx
    have hzero : ka.mem (q + x) = 0 := by
      rw [hka]
      exact fill_inside _ _ _ _ (by omega)
    rw [hk', setPcb_page (f := .freeHeapPage) hi trivial hm.page, hm.bytes x hx, hzero]
  · intro p u hne hp x hx
    rw [hk', setPcb_page (f := .freeHeapPage) hi trivial (hk.page_of hp nofun),
      hm.leaf_bytes p u hne hp x hx]
  · intro n hn
    rw [hk', hm.tree.hasTable_setPcb (f := .freeHeapPage) hm.kmem hi trivial hn, hm.hasTable n hn]
  · intro f hf hne
    rw [hk', pcb_setPcb_of_ne_field (g := .freeHeapPage) hf trivial hne, hpcbb f hf]
  · rw [hk', pcb_setPcb_same hmod, ← hnew]
  · intro he hnone
    rw [hk']
    exact (hm.exact he hnone).setPcb hm.tree hm.kmem hi trivial

/-- `kproc_add_page` panics for lack of pages, and for nothing else. -/
theorem kprocAddPage_none_iff {cur : Nat} (hk : KmemInv L k g) (hi : cur < 8)
    (ht : Tree k.mem g (.proc cur) (pcb L k cur .pagetable)) :
    kprocAddPage L k cur = none ↔
      g.free.length < if HasTable k.mem (pcb L k cur .pagetable)
        (pcb L k cur .freeHeapPage / 4096 / 1024) then 1 else 2 := by
  have hlt := pcb_lt L k cur .freeHeapPage
  unfold kprocAddPage
  cases hal : kmemAlloc k with
  | none =>
    rw [kmemAlloc_none hk hal, List.length_nil]
    simp only [true_iff]
    split <;> omega
  | some pk =>
    obtain ⟨q, ka⟩ := pk
    have hga := kmemAlloc_grow (S := fun c => c = .root .kernel) (W := fun _ => False) hk hal rfl
    have hpcba : ∀ f : PcbField, f.InStruct → pcb L ka cur f = pcb L k cur f :=
      fun f hf => hga.pcb hi hf (fun _ _ hw => hw)
    obtain ⟨hhead, -, -, -, hinv⟩ := kmemAlloc_spec hk hal
    have hka := hinv (.root .kernel) nofun
    have hkernel : ∀ c, c = Role.root .kernel → ¬ c.TableOf (.proc cur) := by
      intro c hc htab
      rw [hc] at htab
      exact absurd htab nofun
    have hT : HasTable ka.mem (pcb L k cur .pagetable) (pcb L k cur .freeHeapPage / 4096 / 1024) ↔
        HasTable k.mem (pcb L k cur .pagetable) (pcb L k cur .freeHeapPage / 4096 / 1024) := by
      rw [ht.hasTable_grow hk hga hkernel (by omega)]
    simp only
    rw [hpcba .freeHeapPage trivial, hpcba .pagetable trivial]
    cases hmap : kvmemMapPage ka (pcb L k cur .pagetable) (pcb L k cur .freeHeapPage) q
        (pteR ||| pteW ||| pteU) with
    | none =>
      obtain ⟨hno, hnil⟩ := kvmemMapPage_none hka hlt rfl hmap
      rw [hT] at hno
      rw [Ghost.pop_free] at hnil
      rw [if_neg hno, hhead, hnil, List.length_singleton]
      simp
    | some kb =>
      simp only [reduceCtorEq, false_iff, not_lt]
      split
      · rw [hhead, List.length_cons]
        omega
      · rename_i hno
        by_contra hshort
        -- the second allocation would have failed
        have hnil : (g.pop (.root .kernel)).free = [] := by
          rw [Ghost.pop_free, ← List.length_eq_zero_iff, List.length_tail]
          omega
        rw [kvmemMapPage_of_nil hka hlt rfl (fun h => hno (hT.mp h)) hnil] at hmap
        exact absurd hmap nofun

/-- `kproc_add_page`: the new page is mapped at `free_heap_page`, which is in the user range. -/
theorem kprocAddPage_inv {cur ret : Nat} (hI : Inv L k g) (hcur : Live L k cur)
    (h : kprocAddPage L k cur = some (ret, k')) :
    ret = pcb L k cur .freeHeapPage ∧ ∃ q g', PageAdded L cur k g q k' g' ∧ Inv L k' g' := by
  have hi : cur < 8 := hcur.1
  have hp := hI.proc cur hcur
  have hheap := hI.heap cur hi
  obtain ⟨hlo, hhi, -⟩ := hheap.lt
  simp only [vaUserBase, vaUserStack, vaUserStackInit, vaTrapframe, pageSize] at hlo hhi
  obtain ⟨hret, q, g', ha⟩ := kprocAddPage_spec hI.kmem hi hp.tree hp.leaves h
  have hle := L.kernelPages_lt
  have hwk : ∀ u < 2 ^ 20, u < 0xC0000 ∨ 0xFFFFE ≤ u →
      walk k'.mem (pcb L k cur .pagetable) u = walk k.mem (pcb L k cur .pagetable) u := by
    intro u hu hrange
    rw [ha.walk_eq u hu, if_neg (by omega)]
  have hkeep := ha.grow.keep
  refine ⟨hret, q, g', ha, hI.touch (i := cur)
    (ha.grow.mono (fun _ h => h.of) (fun _ h => h)).touch ha.kmem (fun _ => ?_) ?_ ?_⟩
  · have h1 := ha.field_eq .pid trivial nofun
    have h2 := ha.field_eq .pagetable trivial nofun
    have h3 := ha.field_eq .trapframe trivial nofun
    have h4 := ha.field_eq .userStack trivial nofun
    refine ⟨?_, ?_, ?_, ?_, ?_, ?_, ?_, ?_⟩
    · rw [h1, hp.pid]
    · rw [h2]
      exact ha.tree
    · rw [h2]
      exact ha.leaves
    · rw [h3, hkeep _ (by rw [hp.trapframe]; exact nofun), hp.trapframe]
    · rw [h4, hkeep _ (by rw [hp.userStack]; exact nofun), hp.userStack]
    · intro u hu
      rw [h2, hwk u (by omega) (by omega), hp.kernel_map u hu]
    · rw [h2, h3, hwk _ (by omega) (by omega), hp.trap_map]
    · rw [h2, h4, hwk _ (by omega) (by omega), hp.stack_map]
  · obtain ⟨n, heq, hn⟩ := hheap
    have hcount := heapCount_lt (i := cur) ha.grow.heapLeaf ha.page (by rw [ha.fresh]; rfl)
      (by
        rw [ha.page_ow]
        simp only [Role.HeapLeaf, beq_self_eq_true, Bool.true_and, bne_iff_ne, ne_eq]
        omega)
    have hmax := heapCount_le L g' cur
    refine ⟨n + 1, ?_, by omega⟩
    rw [ha.heapPage, heq]
    simp only [vaUserBase]
    omega
  · intro c hc
    exact hI.current c (by rw [← ha.grow.current]; exact hc)

/-! ## §4 Exit and kill -/

/-- Freeing one page of slot `i` that is no heap page. -/
theorem kmemFree_touch (hk : KmemInv L k g) (hp : (g.ow p).Of (.proc i))
    (hheap : ∀ j, (g.ow p).HeapLeaf j = false) :
    KmemInv L (kmemFree k p) (g.push p) ∧ Touch L i k g (kmemFree k p) (g.push p) ∧
      (∀ x < L.freeRamBegin, (kmemFree k p).mem x = k.mem x) ∧
      ∀ j, heapCount L g j ≤ heapCount L (g.push p) j := by
  have hpage := hk.page p hp.ne_lost
  have hb := hpage.bounds
  refine ⟨kmemFree_spec hk hpage hp.ne_free, ⟨?_, ?_, ?_, rfl, rfl, rfl⟩, ?_, ?_⟩
  · intro q _ hq
    have hne : q ≠ p := fun heq => hq (heq ▸ hp)
    simp [Ghost.push, Function.update_of_ne hne]
  · intro q hqpage _ hq x hx
    have hne : q ≠ p := fun heq => hq (heq ▸ hp)
    have := hqpage.apart hpage hne
    exact store32_outside _ _ _ (by omega)
  · intro x hx _
    exact store32_outside _ _ _ (by omega)
  · intro x hx
    exact store32_outside _ _ _ (by omega)
  · intro j
    refine heapCount_mono (fun q hq => ?_)
    have hne : q ≠ p := by
      intro heq
      rw [heq, hheap j] at hq
      cases hq
    simpa [Ghost.push, Function.update_of_ne hne] using hq

theorem pcb_kmemFree {f : PcbField} (hp : L.freeRamBegin ≤ p) (hj : j < 8) (hf : f.InStruct) :
    pcb L (kmemFree k p) j f = pcb L k j f := by
  have hbj := L.proc_bound hj
  have ho := PcbField.offset_lt hf
  simp only [sizeofProcess] at hbj
  exact load32_congr fun x _ _ => store32_outside _ _ _ (by omega)

/-- The control block is not in a page, so the second and third pointer are
those of the state before. -/
theorem releasePages_eq (hi : i < 8) (htf : L.freeRamBegin ≤ pcb L k i .trapframe)
    (hpt : L.freeRamBegin ≤ pcb L k i .pagetable) :
    releasePages L k i = kmemFree (kmemFree (kmemFree k (pcb L k i .trapframe))
      (pcb L k i .pagetable)) (pcb L k i .userStack) := by
  simp only [releasePages]
  rw [pcb_kmemFree (f := .pagetable) htf hi trivial,
    pcb_kmemFree (f := .userStack) hpt hi trivial,
    pcb_kmemFree (f := .userStack) htf hi trivial]

/-- The roles after `releasePages`. -/
def Ghost.release (g : Ghost) (L : Layout) (k : KState) (i : Nat) : Ghost :=
  ((g.push (pcb L k i .trapframe)).push (pcb L k i .pagetable)).push (pcb L k i .userStack)

theorem Ghost.push_ow_of_ne {q : Nat} (h : q ≠ p) : (g.push p).ow q = g.ow q := by
  simp [Ghost.push, Function.update_of_ne h]

/-- Not one of the three words that link the released pages into the free list. -/
def Layout.OutsideLinks (L : Layout) (k : KState) (i x : Nat) : Prop :=
  (x < pcb L k i .trapframe ∨ pcb L k i .trapframe + 4 ≤ x) ∧
    (x < pcb L k i .pagetable ∨ pcb L k i .pagetable + 4 ≤ x) ∧
    (x < pcb L k i .userStack ∨ pcb L k i .userStack + 4 ≤ x)

theorem releasePages_spec (hk : KmemInv L k g) (hi : i < 8)
    (htf : g.ow (pcb L k i .trapframe) = .trapframe (.proc i))
    (hpt : g.ow (pcb L k i .pagetable) = .root (.proc i))
    (hus : g.ow (pcb L k i .userStack) = .leaf (.proc i) 0xFFFFE) :
    KmemInv L (releasePages L k i) (g.release L k i) ∧
      Touch L i k g (releasePages L k i) (g.release L k i) ∧
      (∀ f : PcbField, f.InStruct → ∀ j < 8, pcb L (releasePages L k i) j f = pcb L k j f) ∧
      (∀ j, heapCount L g j ≤ heapCount L (g.release L k i) j) ∧
      (releasePages L k i).current = k.current ∧
      (releasePages L k i).handedOut = k.handedOut ∧
      ∀ x, L.OutsideLinks k i x → (releasePages L k i).mem x = k.mem x := by
  have hof1 : (g.ow (pcb L k i .trapframe)).Of (.proc i) := by rw [htf]; rfl
  have hne1 : pcb L k i .pagetable ≠ pcb L k i .trapframe := by
    intro heq
    rw [heq, htf] at hpt
    exact absurd hpt (by simp)
  have hne2 : pcb L k i .userStack ≠ pcb L k i .trapframe := by
    intro heq
    rw [heq, htf] at hus
    exact absurd hus (by simp)
  have hne3 : pcb L k i .userStack ≠ pcb L k i .pagetable := by
    intro heq
    rw [heq, hpt] at hus
    exact absurd hus (by simp)
  obtain ⟨hk1, ht1, -, hc1⟩ := kmemFree_touch hk hof1 (by rw [htf]; exact fun _ => rfl)
  have hpt1 : (g.push (pcb L k i .trapframe)).ow (pcb L k i .pagetable) = .root (.proc i) := by
    rw [Ghost.push_ow_of_ne hne1, hpt]
  have hus1 : (g.push (pcb L k i .trapframe)).ow (pcb L k i .userStack) =
      .leaf (.proc i) 0xFFFFE := by
    rw [Ghost.push_ow_of_ne hne2, hus]
  have hof2 : ((g.push (pcb L k i .trapframe)).ow (pcb L k i .pagetable)).Of (.proc i) := by
    rw [hpt1]; rfl
  obtain ⟨hk2, ht2, -, hc2⟩ := kmemFree_touch hk1 hof2 (by rw [hpt1]; exact fun _ => rfl)
  have hus2 : ((g.push (pcb L k i .trapframe)).push (pcb L k i .pagetable)).ow
      (pcb L k i .userStack) = .leaf (.proc i) 0xFFFFE := by
    rw [Ghost.push_ow_of_ne hne3, hus1]
  have hof3 : (((g.push (pcb L k i .trapframe)).push (pcb L k i .pagetable)).ow
      (pcb L k i .userStack)).Of (.proc i) := by
    rw [hus2]; rfl
  obtain ⟨hk3, ht3, -, hc3⟩ := kmemFree_touch hk2 hof3
    (by rw [hus2]; intro j; simp [Role.HeapLeaf])
  have hb1 := (hk.page_of htf (by simp)).1
  have hb2 := (hk.page_of hpt (by simp)).1
  have hb3 := (hk.page_of hus (by simp)).1
  rw [releasePages_eq hi hb1 hb2]
  refine ⟨hk3, (ht1.trans ht2).trans ht3, ?_, ?_, rfl, rfl, ?_⟩
  · intro f hf j hj
    rw [pcb_kmemFree hb3 hj hf, pcb_kmemFree hb2 hj hf, pcb_kmemFree hb1 hj hf]
  · intro j
    exact ((hc1 j).trans (hc2 j)).trans (hc3 j)
  · intro x hx
    obtain ⟨h1, h2, h3⟩ := hx
    simp only [kmemFree, KState.store_mem]
    rw [store32_outside _ _ _ h3, store32_outside _ _ _ h2, store32_outside _ _ _ h1]

/-- Slot `i` was released: three pages are free again and the slot is unused. -/
structure Released (L : Layout) (i : Nat) (k : KState) (g : Ghost) (k' : KState) : Prop where
  inv : Inv L k' (g.release L k i)
  touch : Touch L i k g k' (g.release L k i)
  state : pcb L k' i .state = ProcState.unused.code
  field_eq : ∀ f : PcbField, f.InStruct → f ≠ .state → (∀ r, f ≠ .context r) →
    pcb L k' i f = pcb L k i f
  current : k'.current = k.current
  handed : k'.handedOut = k.handedOut
  pages : ∀ x, L.freeRamBegin ≤ x → L.OutsideLinks k i x → k'.mem x = k.mem x

/-- A live process is released and its slot marked unused, in either order. -/
theorem Inv.release (hI : Inv L k g) (hlive : Live L k i) (hk' : KmemInv L k' (g.release L k i))
    (ht : Touch L i k g k' (g.release L k i))
    (hstate : pcb L k' i .state = ProcState.unused.code)
    (hf : ∀ f : PcbField, f.InStruct → f ≠ .state → (∀ r, f ≠ .context r) →
      pcb L k' i f = pcb L k i f)
    (hcount : ∀ j, heapCount L g j ≤ heapCount L (g.release L k i) j)
    (hcur : k'.current = k.current) (hhand : k'.handedOut = k.handedOut)
    (hpages : ∀ x, L.freeRamBegin ≤ x → L.OutsideLinks k i x → k'.mem x = k.mem x) :
    Released L i k g k' := by
  refine ⟨hI.touch ht hk' (fun hl => absurd hstate hl.2) ?_ ?_, ht, hstate, hf, hcur, hhand, hpages⟩
  · obtain ⟨n, heq, hle⟩ := hI.heap i hlive.1
    exact ⟨n, by rw [hf .freeHeapPage trivial nofun nofun, heq], hle.trans (hcount i)⟩
  · rw [hcur]
    exact hI.current

/-- A pass of the loop of `kproc_kill`. -/
theorem kprocKillSlot_spec {pid : Nat} (hI : Inv L k g) (hlive : Live L k i)
    (hpid : pcb L k i .pid = pid) : Released L i k g (kprocKillSlot L pid k i) := by
  have hi : i < 8 := hlive.1
  have hp := hI.proc i hlive
  obtain ⟨hk1, ht1, hf1, hc1, hcur1, hh1, hm1⟩ :=
    releasePages_spec hI.kmem hi hp.trapframe hp.tree.root hp.userStack
  unfold kprocKillSlot
  rw [if_pos ⟨hlive.2, hpid⟩]
  have hg2 : Grow L (Role.Of (.proc i)) (L.InPcb i) (releasePages L k i) (g.release L k i)
      (setPcb L (releasePages L k i) i .state ProcState.unused.code) (g.release L k i) :=
    setPcb_grow (f := .state) hi trivial
  refine hI.release hlive (hk1.setPcb (f := .state) hi trivial) (ht1.trans hg2.touch)
    (pcb_setPcb_same (by decide)) ?_ hc1 hcur1 hh1 ?_
  · intro f hf hne _
    rw [pcb_setPcb_of_ne_field (g := .state) hf trivial hne, hf1 f hf i hi]
  · intro x hx hout
    have hb := L.proc_bound hi
    simp only [sizeofProcess] at hb
    rw [← hm1 x hout]
    exact store32_outside _ _ _ (by simp only [PcbField.offset]; omega)

theorem kprocKillSlot_of_ne {pid : Nat} (h : ¬ (Live L k i ∧ pcb L k i .pid = pid)) (hi : i < 8) :
    kprocKillSlot L pid k i = k := by
  unfold kprocKillSlot
  rw [if_neg]
  rintro ⟨h1, h2⟩
  exact h ⟨⟨hi, h1⟩, h2⟩

/-- `swtch` writes only to the context in the control block. -/
theorem kprocYield_outside {s : SavedRegs} {x : Nat} (hx : x < L.proc i ∨ L.proc i + 68 ≤ x) :
    (kprocYield L k i s).mem x = k.mem x := by
  have hlen := s.length_rest
  refine storeWords_outside _ _ _ ?_
  rw [List.length_cons, hlen]
  omega

theorem kprocYield_page {s : SavedRegs} {x : Nat} (hi : i < 8) (hx : L.freeRamBegin ≤ x) :
    (kprocYield L k i s).mem x = k.mem x := by
  have hb := L.proc_bound hi
  simp only [sizeofProcess] at hb
  exact kprocYield_outside (by omega)

theorem kprocYield_grow {s : SavedRegs} {S : Role → Prop} (hi : i < 8) :
    Grow L S (L.InPcb i) k g (kprocYield L k i s) g := by
  have hb := L.proc_bound hi
  refine static_grow (fun x hx => kprocYield_outside ?_)
  simp only [Layout.InPcb, sizeofProcess] at *
  omega

theorem KmemInv.yield {s : SavedRegs} (hk : KmemInv L k g) (hi : i < 8) :
    KmemInv L (kprocYield L k i s) g := hk.static fun _ hx => kprocYield_page hi hx

theorem pcb_kprocYield {s : SavedRegs} {f : PcbField} (hf : f.InStruct)
    (hctx : ∀ r, f ≠ .context r) : pcb L (kprocYield L k i s) i f = pcb L k i f := by
  have hlen := s.length_rest
  apply load32_congr
  intro x h1 h2
  refine storeWords_outside _ _ _ ?_
  rw [List.length_cons, hlen]
  cases f <;> simp only [PcbField.offset] at h1 h2 <;> first | omega | exact absurd rfl (hctx _)

/-- `kproc_free`. -/
theorem kprocFree_spec {cur : Nat} {s : SavedRegs} (hI : Inv L k g) (hcur : Live L k cur) :
    Released L cur k g (kprocFree L k cur s) := by
  have hi : cur < 8 := hcur.1
  have hp := hI.proc cur hcur
  unfold kprocFree
  simp only
  have hk1 := hI.kmem.setPcb (f := .state) (v := ProcState.unused.code) hi trivial
  have hg1 : Grow L (Role.Of (.proc cur)) (L.InPcb cur) k g
      (setPcb L k cur .state ProcState.unused.code) g := setPcb_grow (f := .state) hi trivial
  have hf1 : ∀ f : PcbField, f.InStruct → f ≠ .state →
      pcb L (setPcb L k cur .state ProcState.unused.code) cur f = pcb L k cur f :=
    fun f hf hne => pcb_setPcb_of_ne_field (g := .state) hf trivial hne
  have hst1 : pcb L (setPcb L k cur .state ProcState.unused.code) cur .state =
      ProcState.unused.code := pcb_setPcb_same (by decide)
  have hb := L.proc_bound hi
  simp only [sizeofProcess] at hb
  have hm1 : ∀ x, L.freeRamBegin ≤ x →
      (setPcb L k cur .state ProcState.unused.code).mem x = k.mem x :=
    fun x hx => store32_outside _ _ _ (by simp only [PcbField.offset]; omega)
  have hh1 : (setPcb L k cur .state ProcState.unused.code).handedOut = k.handedOut := rfl
  generalize setPcb L k cur .state ProcState.unused.code = k1 at *
  have e1 := hf1 .trapframe trivial (by simp)
  have e2 := hf1 .pagetable trivial (by simp)
  have e3 := hf1 .userStack trivial (by simp)
  obtain ⟨hk2, ht2, hf2, hc2, hcur2, hh2, hm2⟩ := releasePages_spec hk1 hi
    (by rw [e1, hp.trapframe]) (by rw [e2, hp.tree.root]) (by rw [e3, hp.userStack])
  have hrel : g.release L k1 cur = g.release L k cur := by
    simp only [Ghost.release, e1, e2, e3]
  rw [hrel] at hk2 ht2 hc2
  refine hI.release hcur (hk2.yield hi) ((hg1.touch.trans ht2).trans
    (kprocYield_grow hi).touch) ?_ ?_ hc2 (hcur2.trans hg1.current) (hh2.trans hh1) ?_
  · rw [pcb_kprocYield (f := .state) trivial (by simp), hf2 .state trivial cur hi, hst1]
  · intro f hf hne hctx
    rw [pcb_kprocYield hf hctx, hf2 f hf cur hi, hf1 f hf hne]
  · intro x hx hout
    rw [kprocYield_page hi hx, hm2 x (by simpa only [Layout.OutsideLinks, e1, e2, e3] using hout),
      hm1 x hx]

/-- The loop of `kproc_kill` over slots whose processes have another PID. -/
theorem kprocKill_loop_other {pid : Nat} (hI : Inv L k g) (l : List Nat)
    (hl : ∀ i ∈ l, i < 8 ∧ i + 1 ≠ pid) : l.foldl (kprocKillSlot L pid) k = k := by
  induction l with
  | nil => rfl
  | cons i l ih =>
    obtain ⟨hi, hne⟩ := hl i (by simp)
    have hskip : kprocKillSlot L pid k i = k := by
      refine kprocKillSlot_of_ne ?_ hi
      rintro ⟨hlive, hpid⟩
      rw [(hI.proc i hlive).pid] at hpid
      exact hne hpid
    rw [List.foldl_cons, hskip]
    exact ih (fun j hj => hl j (by simp [hj]))

/-- It releases the one process with that PID, if there is one. -/
theorem kprocKill_loop {pid : Nat} (hI : Inv L k g) (l : List Nat) (hnd : l.Nodup)
    (hl : ∀ i ∈ l, i < 8) :
    (l.foldl (kprocKillSlot L pid) k = k ∧ ∀ j ∈ l, ¬ (Live L k j ∧ pcb L k j .pid = pid)) ∨
      ∃ j ∈ l, Live L k j ∧ pcb L k j .pid = pid ∧
        Released L j k g (l.foldl (kprocKillSlot L pid) k) := by
  induction l with
  | nil => exact .inl ⟨rfl, nofun⟩
  | cons i l ih =>
    rw [List.nodup_cons] at hnd
    have hi : i < 8 := hl i (by simp)
    rw [List.foldl_cons]
    by_cases hc : Live L k i ∧ pcb L k i .pid = pid
    · have hrel := kprocKillSlot_spec hI hc.1 hc.2
      have hpid : i + 1 = pid := by rw [← (hI.proc i hc.1).pid, hc.2]
      rw [kprocKill_loop_other hrel.inv l (fun j hj => ⟨hl j (by simp [hj]), by
        rintro hj'
        exact hnd.1 (by rw [show i = j by omega]; exact hj)⟩)]
      exact .inr ⟨i, by simp, hc.1, hc.2, hrel⟩
    · rw [kprocKillSlot_of_ne hc hi]
      obtain ⟨h, hno⟩ | ⟨j, hj, h⟩ := ih hnd.2 (fun j hj => hl j (by simp [hj]))
      · refine .inl ⟨h, ?_⟩
        rintro j (_ | ⟨_, hj⟩)
        · exact hc
        · exact hno j hj
      · exact .inr ⟨j, by simp [hj], h⟩

/-- `kproc_kill`: the caller, nobody, or one other process is released. -/
theorem kprocKill_spec {cur : Nat} (pid : Nat) (s : SavedRegs) (hI : Inv L k g)
    (hcur : Live L k cur) :
    (pcb L k cur .pid = pid ∧ Released L cur k g (kprocKill L k cur pid s)) ∨
      (pcb L k cur .pid ≠ pid ∧ ((kprocKill L k cur pid s = k ∧
          ∀ j, ¬ (Live L k j ∧ pcb L k j .pid = pid)) ∨
        ∃ j, j ≠ cur ∧ Live L k j ∧ pcb L k j .pid = pid ∧
          Released L j k g (kprocKill L k cur pid s))) := by
  unfold kprocKill
  by_cases hself : pcb L k cur .pid = pid
  · rw [if_pos hself]
    exact .inl ⟨hself, kprocFree_spec hI hcur⟩
  · rw [if_neg hself]
    refine .inr ⟨hself, ?_⟩
    obtain ⟨h, hno⟩ | ⟨j, -, hlive, hpid, hrel⟩ := kprocKill_loop hI (List.range numProcesses)
      List.nodup_range (fun i hi => List.mem_range.mp hi)
    · exact .inl ⟨h, fun j hj => hno j (List.mem_range.mpr hj.1.1) hj⟩
    · refine .inr ⟨j, ?_, hlive, hpid, hrel⟩
      rintro rfl
      exact hself hpid

end Risky321.Kernel
