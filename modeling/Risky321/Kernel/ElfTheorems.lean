/-
Risky321.Kernel.ElfTheorems — ELF files, and the programs `kproc_exec` makes
of them.

An image inside its file is a function of the file, so the address space
`kproc_exec` builds depends on the program and its arguments only. Two
things do not. `free_heap_page` is moved up by every exec and never set
back, so the addresses `sbrk` gives tell how much the slot has executed.
And the loader copies `memsz` bytes of every header, where the format says
`filesz` bytes of the `PT_LOAD` ones and zeros behind them.

§1 images inside the file, §2 one program run twice, §3 what the file
describes.
-/
import Risky321.Kernel.HeapTheorems
import Risky321.Kernel.LoaderTheorems

namespace Risky321.Kernel

open Risky321.Lib

variable {L : Layout} {k k' k1 k2 : KState} {g g' : Ghost} {i j cur idx p v n : Nat} {heap : Bool}
  {m m' : Mem} {loads : List Load} {argv : List (List UInt8)} {path : List UInt8}

/-! ## §1 Images inside the file -/

/-- An image whose segments lie inside the file's array. -/
structure ElfInside (k : KState) (elf : Nat) : Prop extends ElfAbove k elf where
  segments : ∀ n < elfPhnum k elf, phOffset k (elfProgramHeader k elf n) +
    phMemsz k (elfProgramHeader k elf n) ≤ maxFilesize

/-- The loads of a segment inside the file. -/
theorem segmentLoads_inside {eph : Nat} (hidx : idx < 12)
    (hin : phOffset k eph + phMemsz k eph ≤ maxFilesize) :
    segmentLoads k (L.fsData idx) eph =
      (List.range ((phMemsz k eph + 4095) / pageSize)).map
        (fun o => ⟨(phVaddr k eph + o * pageSize) % 2 ^ 32 / pageSize,
          L.fsData idx + (phOffset k eph + o * pageSize),
          min pageSize (phMemsz k eph - o * pageSize)⟩) := by
  have hb := L.fsData_bound hidx
  refine List.map_congr_left fun o ho => ?_
  rw [List.mem_range] at ho
  simp only [Load.mk.injEq, true_and, and_true, pageSize] at *
  omega

theorem ElfInside.load_mem (h : ElfInside k (L.fsData idx)) (hidx : idx < 12) {ld : Load}
    (hmem : ld ∈ elfLoads k (L.fsData idx)) :
    ∃ o, ld.src = L.fsData idx + o ∧ o + ld.len ≤ maxFilesize := by
  simp only [elfLoads, List.mem_flatMap, List.mem_range] at hmem
  obtain ⟨n, hn, hmem⟩ := hmem
  have hseg := h.segments n hn
  rw [segmentLoads_inside hidx hseg, List.mem_map] at hmem
  obtain ⟨o, ho, rfl⟩ := hmem
  rw [List.mem_range] at ho
  refine ⟨_, rfl, ?_⟩
  simp only [pageSize] at *
  omega

theorem ElfInside.untouched (h : ElfInside k (L.fsData idx)) (hidx : idx < 12) :
    ElfUntouched L k (L.fsData idx) := by
  refine ⟨h.toElfAbove, fun ld hmem x hx => ?_⟩
  obtain ⟨o, ho, hle⟩ := h.load_mem hidx hmem
  have hin : L.InFile idx (ld.src + x) := by
    simp only [Layout.InFile]
    omega
  exact hin.untouched hidx

/-- The same file in two states, perhaps in two places. -/
def SameElf (L : Layout) (k1 : KState) (i : Nat) (k2 : KState) (j : Nat) : Prop :=
  ∀ x < maxFilesize, k2.mem (L.fsData j + x) = k1.mem (L.fsData i + x)

theorem SameElf.load {x : Nat} (h : SameElf L k1 i k2 j) (hx : x + 4 ≤ maxFilesize) :
    k2.load (L.fsData j + x) = k1.load (L.fsData i + x) := by
  have h0 := h x (by omega)
  have h1 := h (x + 1) (by omega)
  have h2 := h (x + 2) (by omega)
  have h3 := h (x + 3) (by omega)
  simp only [← Nat.add_assoc] at h1 h2 h3
  simp only [KState.load, load32, h0, h1, h2, h3]

/-- What the loader reads of the headers is the same. -/
structure SameHeaders (L : Layout) (k1 : KState) (i : Nat) (k2 : KState) (j : Nat) : Prop where
  entry : elfEntry k2 (L.fsData j) = elfEntry k1 (L.fsData i)
  phnum : elfPhnum k2 (L.fsData j) = elfPhnum k1 (L.fsData i)
  headers : elfPhoff k2 (L.fsData j) + 32 * elfPhnum k2 (L.fsData j) ≤ maxFilesize
  vaddr : ∀ n < elfPhnum k1 (L.fsData i),
    phVaddr k2 (elfProgramHeader k2 (L.fsData j) n) =
      phVaddr k1 (elfProgramHeader k1 (L.fsData i) n)
  memsz : ∀ n < elfPhnum k1 (L.fsData i),
    phMemsz k2 (elfProgramHeader k2 (L.fsData j) n) =
      phMemsz k1 (elfProgramHeader k1 (L.fsData i) n)
  offset : ∀ n < elfPhnum k1 (L.fsData i),
    phOffset k2 (elfProgramHeader k2 (L.fsData j) n) =
      phOffset k1 (elfProgramHeader k1 (L.fsData i) n)

theorem SameElf.headers (h : SameElf L k1 i k2 j) (hi : i < 12) (hj : j < 12)
    (hin : ElfInside k1 (L.fsData i)) : SameHeaders L k1 i k2 j := by
  have hphoff : elfPhoff k2 (L.fsData j) = elfPhoff k1 (L.fsData i) := h.load (by decide)
  have hphnum : elfPhnum k2 (L.fsData j) = elfPhnum k1 (L.fsData i) := by
    unfold elfPhnum load16
    rw [h 44 (by decide), Nat.add_assoc, Nat.add_assoc, h (44 + 1) (by decide)]
  have hheaders : elfPhoff k2 (L.fsData j) + 32 * elfPhnum k2 (L.fsData j) ≤ maxFilesize := by
    rw [hphoff, hphnum]
    exact hin.headers
  -- a word of a program header
  have hword : ∀ n < elfPhnum k1 (L.fsData i), ∀ w, w + 4 ≤ 32 →
      k2.load (elfProgramHeader k2 (L.fsData j) n + w) =
        k1.load (elfProgramHeader k1 (L.fsData i) n + w) := by
    intro n hn w hw
    obtain ⟨h1, hle⟩ := elfProgramHeader_inside hi hin.headers hn
    obtain ⟨h2, -⟩ := elfProgramHeader_inside hj hheaders (hphnum ▸ hn)
    have hw' := h.load (x := elfPhoff k1 (L.fsData i) + n * 32 + w) (by omega)
    rwa [← Nat.add_assoc, ← Nat.add_assoc (L.fsData i), ← hphoff, ← h2, hphoff, ← h1] at hw'
  exact ⟨h.load (by decide), hphnum, hheaders, fun n hn => hword n hn 8 (by omega),
    fun n hn => hword n hn 20 (by omega), fun n hn => hword n hn 4 (by omega)⟩

/-- The load of the same page from a file at another address. -/
def Load.move (a b : Nat) (ld : Load) : Load := { ld with src := ld.src - a + b }

@[simp] theorem Load.move_page (a b : Nat) (ld : Load) : (ld.move a b).page = ld.page := rfl

@[simp] theorem Load.move_len (a b : Nat) (ld : Load) : (ld.move a b).len = ld.len := rfl

theorem Load.move_src {a b o : Nat} {ld : Load} (h : ld.src = a + o) :
    (ld.move a b).src = b + o := by
  rw [Load.move, h, Nat.add_sub_cancel_left, Nat.add_comm]

theorem SameElf.loads_eq (h : SameElf L k1 i k2 j) (hi : i < 12) (hj : j < 12)
    (hin : ElfInside k1 (L.fsData i)) :
    elfLoads k2 (L.fsData j) =
      (elfLoads k1 (L.fsData i)).map (Load.move (L.fsData i) (L.fsData j)) := by
  have hh := h.headers hi hj hin
  unfold elfLoads
  rw [hh.phnum, List.map_flatMap]
  refine List.flatMap_congr fun n hn => ?_
  rw [List.mem_range] at hn
  have hseg := hin.segments n hn
  have hseg' := hseg
  rw [← hh.memsz n hn, ← hh.offset n hn] at hseg'
  rw [segmentLoads_inside hi hseg, segmentLoads_inside hj hseg', hh.vaddr n hn, hh.memsz n hn,
    hh.offset n hn, List.map_map]
  refine List.map_congr_left fun o _ => ?_
  simp only [Load.move, Function.comp_apply, Nat.add_sub_cancel_left, Nat.add_comm]

theorem SameElf.inside (h : SameElf L k1 i k2 j) (hi : i < 12) (hj : j < 12)
    (hin : ElfInside k1 (L.fsData i)) :
    ElfInside k2 (L.fsData j) ∧ elfPages k2 (L.fsData j) = elfPages k1 (L.fsData i) := by
  have hh := h.headers hi hj hin
  have hpages : elfPages k2 (L.fsData j) = elfPages k1 (L.fsData i) := by
    rw [elfPages_eq, elfPages_eq, h.loads_eq hi hj hin, List.map_map]
    exact List.map_congr_left fun ld _ => Load.move_page _ _ ld
  refine ⟨⟨⟨hh.headers, by rw [hpages]; exact hin.base⟩, fun n hn => ?_⟩, hpages⟩
  rw [hh.phnum] at hn
  rw [hh.offset n hn, hh.memsz n hn]
  exact hin.segments n hn

theorem lastLoad_move (a b : Nat) (loads : List Load) (v : Nat) :
    lastLoad (loads.map (Load.move a b)) v = (lastLoad loads v).map (Load.move a b) := by
  induction loads using List.reverseRecOn with
  | nil => rfl
  | append_singleton pre ld ih =>
    rw [List.map_append, List.map_singleton, lastLoad_concat, lastLoad_concat, ih, Load.move_page]
    by_cases h : ld.page = v
    · rw [if_pos h, if_pos h, Option.map_some]
    · rw [if_neg h, if_neg h]

theorem loadedPage_move {a b o : Nat} {ld : Load} (ho : ld.src = a + o)
    (h : ∀ x < ld.len, m' (b + (o + x)) = m (a + (o + x))) :
    loadedPage m' (ld.move a b) = loadedPage m ld := by
  have hbytes : loadBytes m' (b + o) ld.len = loadBytes m (a + o) ld.len := by
    refine List.map_congr_left fun x hx => ?_
    rw [List.mem_range] at hx
    rw [Nat.add_assoc, Nat.add_assoc]
    exact h x hx
  rw [loadedPage, loadedPage, Load.move_src ho, Load.move_len, hbytes, ho]

theorem userImage_move {a b : Nat} {stack : List UInt8}
    (h : ∀ ld ∈ loads, loadedPage m' (ld.move a b) = loadedPage m ld) :
    userImage m' (loads.map (Load.move a b)) stack v = userImage m loads stack v := by
  unfold userImage
  rw [lastLoad_move]
  cases hlast : lastLoad loads v with
  | none => rw [Option.map_none, Option.map_none, Option.map_none]
  | some ld => rw [Option.map_some, Option.map_some, Option.map_some, h ld (lastLoad_mem hlast).1]

theorem SameElf.userImage {stack : List UInt8} (h : SameElf L k1 i k2 j) (hi : i < 12)
    (hj : j < 12) (hin : ElfInside k1 (L.fsData i)) :
    Risky321.Kernel.userImage k2.mem (elfLoads k2 (L.fsData j)) stack v =
      Risky321.Kernel.userImage k1.mem (elfLoads k1 (L.fsData i)) stack v := by
  rw [h.loads_eq hi hj hin]
  refine userImage_move fun ld hmem => ?_
  obtain ⟨o, ho, hle⟩ := hin.load_mem hi hmem
  exact loadedPage_move ho fun x hx => h (o + x) (by omega)

/-! ## §2 One program run twice -/

/-- `n` calls of `kproc_add_page` in a row; gives the addresses they return. -/
def addPages (L : Layout) (cur : Nat) : Nat → KState → Option (List Nat × KState)
  | 0, k => some ([], k)
  | n + 1, k =>
    (kprocAddPage L k cur).bind fun (ret, k) =>
      (addPages L cur n k).map fun (rets, k) => (ret :: rets, k)

/-- They are the pages from `free_heap_page` on. -/
theorem addPages_eq {rets : List Nat} (hk : KmemInv L k g) (hi : cur < 8)
    (ht : Tree k.mem g (.proc cur) (pcb L k cur .pagetable))
    (hl : Leaves k.mem g (.proc cur) (pcb L k cur .pagetable))
    (h : addPages L cur n k = some (rets, k')) :
    rets = (List.range n).map (fun o => (pcb L k cur .freeHeapPage + 4096 * o) % 2 ^ 32) := by
  induction n generalizing k g rets with
  | zero =>
    simp only [addPages, Option.some.injEq, Prod.mk.injEq] at h
    rw [← h.1]
    rfl
  | succ n ih =>
    rw [addPages, Option.bind_eq_some_iff] at h
    obtain ⟨⟨ret, k1⟩, hadd, h⟩ := h
    rw [Option.map_eq_some_iff] at h
    obtain ⟨⟨rest, k2⟩, hrest, h⟩ := h
    rw [Prod.mk.injEq] at h
    obtain ⟨rfl, rfl⟩ := h
    obtain ⟨hret, q, g1, hpa⟩ := kprocAddPage_spec hk hi ht hl hadd
    have hpt := hpa.field_eq .pagetable trivial nofun
    have hlt : pcb L k cur .freeHeapPage < 2 ^ 32 := load32_lt _ _
    have hrest' := ih hpa.kmem (by rw [hpt]; exact hpa.tree) (by rw [hpt]; exact hpa.leaves) hrest
    rw [hret, hrest', hpa.heapPage, List.range_succ_eq_map, List.map_cons, List.map_map]
    refine congrArg₂ List.cons (by rw [Nat.mul_zero, Nat.add_zero, Nat.mod_eq_of_lt hlt]) ?_
    refine List.map_congr_left fun o _ => ?_
    simp only [Function.comp_apply, Nat.succ_eq_add_one]
    omega

theorem addPages_one (hk : KmemInv L k g) (hi : cur < 8)
    (ht : Tree k.mem g (.proc cur) (pcb L k cur .pagetable))
    (hl : Leaves k.mem g (.proc cur) (pcb L k cur .pagetable)) (hroom : 2 ≤ g.free.length) :
    ∃ k', addPages L cur 1 k = some ([pcb L k cur .freeHeapPage], k') := by
  cases hadd : kprocAddPage L k cur with
  | none =>
    have hlt := (kprocAddPage_none_iff hk hi ht).mp hadd
    split at hlt <;> omega
  | some rk =>
    obtain ⟨ret, k'⟩ := rk
    obtain ⟨rfl, -⟩ := kprocAddPage_spec hk hi ht hl hadd
    exact ⟨k', by rw [addPages, hadd]; rfl⟩

/-- The processes in two slots, perhaps in two states, are the same to user mode. -/
structure SameMachine (L : Layout) (k1 : KState) (i : Nat) (k2 : KState) (j : Nat) : Prop where
  user : ∀ v < 2 ^ 20, userPage L k1 i v = userPage L k2 j v
  words : ∀ w ∈ [tfEpc, tfSp, tfA0, tfA1], trapWord L k1 i w = trapWord L k2 j w
  pages : ∀ n rets1 rets2 k1' k2', addPages L i n k1 = some (rets1, k1') →
    addPages L j n k2 = some (rets2, k2') → rets1 = rets2

/-- With pages left for `sbrk`, what is the same to user mode has the same `free_heap_page`. -/
theorem SameMachine.heapPage {e1 e2 : Nat} (hm : SameMachine L k1 i k2 j)
    (h1 : ExecReady L k g e1 argv k1 i) (h2 : ExecReady L k' g' e2 argv k2 j)
    (hroom1 : L.imagePages (elfPages k e1) + 3 ≤ g.free.length)
    (hroom2 : L.imagePages (elfPages k' e2) + 3 ≤ g'.free.length) :
    pcb L k1 i .freeHeapPage = pcb L k2 j .freeHeapPage := by
  obtain ⟨g1, hk1, ht1, hl1, hf1⟩ := h1.owned
  obtain ⟨g2, hk2, ht2, hl2, hf2⟩ := h2.owned
  have hlen1 := congrArg List.length hf1
  have hlen2 := congrArg List.length hf2
  rw [List.length_drop] at hlen1 hlen2
  obtain ⟨ka, hka⟩ := addPages_one hk1 h1.slot ht1 hl1 (by omega)
  obtain ⟨kb, hkb⟩ := addPages_one hk2 h2.slot ht2 hl2 (by omega)
  exact List.head_eq_of_cons_eq (hm.pages 1 _ _ ka kb hka hkb)

theorem exec_sameMachine (L : Layout) (k1 k2 : KState) (free1 free2 : List Nat)
    (cur1 cur2 idx1 idx2 : Nat) (path1 path2 : List UInt8) (argv : List (List UInt8))
    (k1' k2' : KState) (ret1 ret2 : Nat) (hfree1 : FreeList L k1 free1)
    (hfree2 : FreeList L k2 free2) (hcur1 : cur1 < 8) (hcur2 : cur2 < 8) (hidx1 : idx1 < 12)
    (hidx2 : idx2 < 12) (hfile1 : filesystemGetFiledata L k1 path1 = L.fsData idx1)
    (hfile2 : filesystemGetFiledata L k2 path2 = L.fsData idx2)
    (hsame : SameElf L k1 idx1 k2 idx2) (helf : ElfInside k1 (L.fsData idx1))
    (hfit : argBytes argv ≤ pageSize)
    (h1 : kprocExec L k1 cur1 path1 argv = some (ret1, k1'))
    (h2 : kprocExec L k2 cur2 path2 argv = some (ret2, k2')) :
    (pcb L k1 cur1 .freeHeapPage = pcb L k2 cur2 .freeHeapPage →
      SameMachine L k1' cur1 k2' cur2) ∧
    (L.imagePages (elfPages k1 (L.fsData idx1)) + 3 ≤ free1.length →
      L.imagePages (elfPages k1 (L.fsData idx1)) + 3 ≤ free2.length →
      SameMachine L k1' cur1 k2' cur2 →
      pcb L k1 cur1 .freeHeapPage = pcb L k2 cur2 .freeHeapPage) := by
  obtain ⟨helf2, hpages⟩ := hsame.inside hidx1 hidx2 helf
  have hh := hsame.headers hidx1 hidx2 helf
  have hlen : (elfLoads k2 (L.fsData idx2)).length = (elfLoads k1 (L.fsData idx1)).length := by
    rw [hsame.loads_eq hidx1 hidx2 helf, List.length_map]
  obtain ⟨-, he1⟩ := kprocExec_image hfree1.kmemInv hcur1 hidx1 hfile1 (helf.untouched hidx1)
    hfit h1
  obtain ⟨-, he2⟩ := kprocExec_image hfree2.kmemInv hcur2 hidx2 hfile2 (helf2.untouched hidx2)
    hfit h2
  obtain ⟨g1, hk1, ht1, hl1, hf1⟩ := he1.owned
  obtain ⟨g2, hk2, ht2, hl2, hf2⟩ := he2.owned
  have hlt1 : pcb L k1 cur1 .freeHeapPage < 2 ^ 32 := load32_lt _ _
  have hlt2 : pcb L k2 cur2 .freeHeapPage < 2 ^ 32 := load32_lt _ _
  have hheap1 := he1.heapPage
  have hheap2 := he2.heapPage
  rw [hlen] at hheap2
  refine ⟨fun heq => ⟨fun v hv => ?_, fun w hw => ?_, ?_⟩, fun hroom1 hroom2 hm => ?_⟩
  · rw [he1.space.user v hv, he2.space.user v hv]
    exact (hsame.userImage hidx1 hidx2 helf).symm
  · simp only [List.mem_cons, List.not_mem_nil, or_false] at hw
    obtain rfl | rfl | rfl | rfl := hw
    · rw [he1.epc, he2.epc, hh.entry]
    · rw [he1.sp, he2.sp]
    · rw [he1.a0, he2.a0]
    · rw [he1.a1, he2.a1]
  · intro n rets1 rets2 ka kb hr1 hr2
    rw [addPages_eq hk1 hcur1 ht1 hl1 hr1, addPages_eq hk2 hcur2 ht2 hl2 hr2, hheap1, hheap2, heq]
  · have hpage := hm.heapPage he1 he2 hroom1 (by rw [hpages]; exact hroom2)
    rw [hheap1, hheap2] at hpage
    omega

theorem FsSame.sameElf (h : FsSame L k k') (hidx : idx < 12) : SameElf L k idx k' idx := by
  intro x hx
  have hsame : SameFile L idx k k' := h.sameFile hidx
  exact hsame _ ⟨Nat.le_add_right _ _, Nat.add_lt_add_left hx _⟩

theorem Entered.exampleInside {s : Sys} (he : Entered exampleLayout exampleMem s g) :
    ElfInside s.k (exampleLayout.fsData 2) := by
  have hsame : SameElf exampleLayout (KState.init exampleMem) 2 s.k 2 :=
    he.files.sameElf (by omega)
  have hphnum : elfPhnum (KState.init exampleMem) (exampleLayout.fsData 2) = 1 := by
    decide +kernel
  refine (hsame.inside (by omega) (by omega) ⟨exampleElf_ok.above, fun n hn => ?_⟩).1
  obtain rfl : n = 0 := by omega
  decide +kernel

/-- The first process executes its file in slot 0; in another run it forks, and
the child executes the file in slot 1. -/
theorem exec_sameMachine_child : ∃ (s s' : Sys) (k1 k2 : KState),
    SysReach exampleLayout (fun s op => op.Safe exampleLayout s) s ∧
      SysReach exampleLayout (fun s op => op.Safe exampleLayout s) s' ∧
      s.k.current = some 0 ∧ s'.k.current = some 1 ∧ Live exampleLayout s'.k 0 ∧
      kprocExec exampleLayout s.k 0 examplePath [[97]] = some (0, k1) ∧
      kprocExec exampleLayout s'.k 1 examplePath [[97]] = some (0, k2) ∧
      SameMachine exampleLayout k1 0 k2 1 := by
  obtain ⟨s, g, s', g', hs, he, hs', hr', hlive, hfs, hheap, hroom⟩ := exampleChild
    (fun s op => op.Safe exampleLayout s) (fun _ _ => trivial) (fun s => Op.safe_fork _ s)
    (fun _ _ _ => trivial)
  have hk := he.running.inv.inv.kmem
  have hk' := hr'.inv.inv.kmem
  obtain ⟨hdata, k1, hexec⟩ := he.exec exampleElf_ok exampleElf_loads examplePath_locate [[97]]
  obtain ⟨hdata', k2, hexec'⟩ := (he.files.trans hfs).exec hk' (show 1 < 8 by decide) (by omega)
    exampleElf_ok exampleElf_loads examplePath_locate [[97]]
  have hequal : pcb exampleLayout s.k 0 .freeHeapPage = pcb exampleLayout s'.k 1 .freeHeapPage := by
    rw [hheap, he.heap 0 (by decide)]
  have hiff := (exec_sameMachine exampleLayout s.k s'.k g.free g'.free 0 1 2 2 examplePath
    examplePath [[97]] k1 k2 0 0 hk.freeList hk'.freeList (by decide) (by decide) (by decide)
    (by decide) hdata hdata' (hfs.sameElf (by decide)) he.exampleInside (by decide) hexec hexec').1
  exact ⟨s, s', k1, k2, hs, hs', he.running.current, hr'.current, hlive, hexec, hexec',
    hiff hequal⟩

/-- The shell, executed in the first state, and executed again after that:
`sbrk` gives it other addresses the second time. -/
theorem exec_remembers : ∃ (s s' : Sys) (k1 k2 : KState),
    SysReach exampleLayout (fun s op => op.Safe exampleLayout s) s ∧
      SysReach exampleLayout (fun s op => op.Safe exampleLayout s) s' ∧
      SameElf exampleLayout s.k 2 s'.k 2 ∧
      kprocExec exampleLayout s.k 0 examplePath [] = some (0, k1) ∧
      kprocExec exampleLayout s'.k 0 examplePath [] = some (0, k2) ∧
      ¬ SameMachine exampleLayout k1 0 k2 0 := by
  obtain ⟨s, g, s', k', g1, hs, he, hsafe, hstep, hfile, hok, hex, ht⟩ :=
    exampleExeced [] (by simp) (by decide)
  obtain ⟨hdata, k1, hexec1⟩ := he.exec exampleElf_ok exampleElf_loads examplePath_locate []
  have hsame : FsSame exampleLayout s.k s'.k := he.running.inv.step_fsSame hsafe hstep
  have helf : SameElf exampleLayout s.k 2 s'.k 2 := hsame.sameElf (by omega)
  obtain ⟨hin', hpages⟩ := helf.inside (by omega) (by omega) he.exampleInside
  have hloads : elfLoads s.k (exampleLayout.fsData 2) =
      [⟨0xC0000, exampleLayout.fsData 2 + 84, 8⟩] := he.exampleLoads
  have hlen : 10000 ≤ g1.free.length := by
    obtain ⟨q, k2, hb, -, -⟩ := hex.image
    have hfree := he.exampleFree
    have hcard := exampleLayout.card_userTables_le [0xC0000]
    rw [hb.free, List.length_drop, hloads]
    simp only [Layout.imagePages, List.map_cons, List.map_nil, List.length_cons,
      List.length_nil, exampleLayout_tables] at *
    omega
  have hloads' : elfLoads s'.k (exampleLayout.fsData 2) =
      [⟨0xC0000, exampleLayout.fsData 2 + 84, 8⟩] :=
    ((he.files.trans hsame).sameFile (by omega)).loads (by omega) exampleElf_ok.headers |>.trans
      exampleElf_loads
  obtain ⟨hdata', k2, hexec2⟩ := (he.files.trans hsame).exec ht.kmem (show 0 < 8 by decide)
    (by omega) exampleElf_ok exampleElf_loads examplePath_locate []
  refine ⟨s, s', k1, k2, hs, hs.step hsafe hstep, helf, hexec1, hexec2, fun hm => ?_⟩
  obtain ⟨-, he1⟩ := kprocExec_image he.running.inv.inv.kmem (by omega) (by omega) hdata
    (he.exampleInside.untouched (by omega)) (by decide) hexec1
  obtain ⟨-, he2⟩ := kprocExec_image ht.kmem (by omega) (by omega) hdata'
    (hin'.untouched (by omega)) (by decide) hexec2
  have hheap' : pcb exampleLayout s'.k 0 .freeHeapPage = vaUserBase + pageSize := by
    obtain ⟨q, k3, hb, -, hg⟩ := hex.image
    rw [ht.pcb (f := .freeHeapPage) (by omega) trivial,
      hg.pcb (f := .freeHeapPage) (by omega) trivial (fun _ _ => id), hb.heapPage,
      pcb_setPcb_of_ne_field (f := .freeHeapPage) (g := .state) trivial trivial (by simp),
      he.heap 0 (by omega), hloads]
    rfl
  have himage : exampleLayout.imagePages (elfPages s.k (exampleLayout.fsData 2)) + 3 ≤ 10000 := by
    have hcard := exampleLayout.card_userTables_le [0xC0000]
    rw [elfPages_eq, hloads]
    simp only [Layout.imagePages, List.map_cons, List.map_nil, List.length_cons,
      List.length_nil, exampleLayout_tables] at *
    omega
  have hpage := hm.heapPage he1 he2 (by have := he.exampleFree; omega) (by rw [hpages]; omega)
  rw [he1.heapPage, he2.heapPage, he.heap 0 (by omega), hheap', hloads, hloads'] at hpage
  exact absurd hpage (by decide)

/-! ## §3 What the file describes -/

/-- `ELF_PT_LOAD` of `elf.h`, and two members of `struct elf_program_header`
that the loader does not read. -/
def elfPtLoad : Nat := 1
def phType (k : KState) (eph : Nat) : Nat := k.load eph
def phFilesz (k : KState) (eph : Nat) : Nat := k.load (eph + 16)

/-- The byte user mode reads at `va`. -/
def userByte (L : Layout) (k : KState) (i va : Nat) : Option UInt8 :=
  (userPage L k i (va / pageSize)).bind (fun e => e.2[va % pageSize]?)

/-- The segments with headers `n` and `n'` have no page in common. -/
def SegmentsApart (k : KState) (elf n n' : Nat) : Prop :=
  ∀ v ∈ segmentPages k (elfProgramHeader k elf n), v ∉ segmentPages k (elfProgramHeader k elf n')

/-- An ELF file as a linker writes it. -/
structure ElfDescribes (k : KState) (elf : Nat) : Prop where
  headers : elfPhoff k elf + 32 * elfPhnum k elf ≤ maxFilesize
  ranges : ∀ n < elfPhnum k elf, phType k (elfProgramHeader k elf n) = elfPtLoad →
    phOffset k (elfProgramHeader k elf n) + phFilesz k (elfProgramHeader k elf n) ≤ maxFilesize
  aligned : ∀ n < elfPhnum k elf, phType k (elfProgramHeader k elf n) = elfPtLoad →
    phVaddr k (elfProgramHeader k elf n) % pageSize = 0 ∧
      vaUserBase ≤ phVaddr k (elfProgramHeader k elf n) ∧
      phVaddr k (elfProgramHeader k elf n) < vaUserStack
  sizes : ∀ n < elfPhnum k elf, phType k (elfProgramHeader k elf n) = elfPtLoad →
    phFilesz k (elfProgramHeader k elf n) ≤ phMemsz k (elfProgramHeader k elf n)
  apart : ∀ n < elfPhnum k elf, ∀ n' < elfPhnum k elf, n ≠ n' →
    phType k (elfProgramHeader k elf n) = elfPtLoad →
    phType k (elfProgramHeader k elf n') = elfPtLoad → SegmentsApart k elf n n'

/-- The process in slot `i` of `k'` has the image the file in `k` describes. -/
structure ImageLoaded (L : Layout) (k : KState) (elf : Nat) (k' : KState) (i : Nat) : Prop where
  file : ∀ n < elfPhnum k elf, phType k (elfProgramHeader k elf n) = elfPtLoad →
    ∀ o < phFilesz k (elfProgramHeader k elf n),
      userByte L k' i (phVaddr k (elfProgramHeader k elf n) + o) =
        some (k.mem (elf + phOffset k (elfProgramHeader k elf n) + o))
  bss : ∀ n < elfPhnum k elf, phType k (elfProgramHeader k elf n) = elfPtLoad →
    ∀ o < phMemsz k (elfProgramHeader k elf n), phFilesz k (elfProgramHeader k elf n) ≤ o →
      userByte L k' i (phVaddr k (elfProgramHeader k elf n) + o) = some 0
  only : ∀ v < 2 ^ 20, userPage L k' i v ≠ none → v = vaUserStack / pageSize ∨
    ∃ n < elfPhnum k elf, phType k (elfProgramHeader k elf n) = elfPtLoad ∧
      v ∈ segmentPages k (elfProgramHeader k elf n)

/-- A file whose segments hold what is wanted at run time already: zeros up to
`memsz`, and nothing that is not to be loaded. -/
structure ElfPlain (L : Layout) (k : KState) (elf : Nat) : Prop where
  ends : ∀ n < elfPhnum k elf, phType k (elfProgramHeader k elf n) = elfPtLoad →
    phVaddr k (elfProgramHeader k elf n) + phMemsz k (elfProgramHeader k elf n) ≤ vaUserStack
  others : ∀ n < elfPhnum k elf, phType k (elfProgramHeader k elf n) ≠ elfPtLoad →
    phMemsz k (elfProgramHeader k elf n) = 0
  zeros : ∀ n < elfPhnum k elf, phType k (elfProgramHeader k elf n) = elfPtLoad →
    ∀ o < phMemsz k (elfProgramHeader k elf n), phFilesz k (elfProgramHeader k elf n) ≤ o →
      L.Untouched (elf + phOffset k (elfProgramHeader k elf n) + o) ∧
        k.mem (elf + phOffset k (elfProgramHeader k elf n) + o) = 0

/-- Page `o` of a segment that starts at a page and ends below the stack. -/
theorem segmentPages_mem {eph : Nat} (hal : phVaddr k eph % pageSize = 0)
    (hend : phVaddr k eph + phMemsz k eph ≤ vaUserStack) :
    v ∈ segmentPages k eph ↔
      phVaddr k eph / pageSize ≤ v ∧ v * pageSize < phVaddr k eph + phMemsz k eph := by
  simp only [segmentPages, List.mem_map, List.mem_range, vaUserStack, vaUserStackInit,
    vaTrapframe, pageSize] at *
  constructor
  · rintro ⟨o, ho, rfl⟩
    omega
  · rintro ⟨h1, h2⟩
    exact ⟨v - phVaddr k eph / 4096, by omega, by omega⟩

theorem elfPages_mem {elf : Nat} :
    v ∈ elfPages k elf ↔ ∃ n < elfPhnum k elf, v ∈ segmentPages k (elfProgramHeader k elf n) := by
  simp only [elfPages, List.mem_flatMap, List.mem_range]

/-- The load that counts for byte `o` of a segment whose page no other segment has. -/
theorem lastLoad_segment {elf eph o : Nat} (hn : n < elfPhnum k elf)
    (heph : elfProgramHeader k elf n = eph) (hal : phVaddr k eph % pageSize = 0)
    (hend : phVaddr k eph + phMemsz k eph ≤ vaUserStack) (ho : o < phMemsz k eph)
    (honly : ∀ n' < elfPhnum k elf,
      (phVaddr k eph + o) / pageSize ∈ segmentPages k (elfProgramHeader k elf n') → n' = n)
    (hsrc : elf + phOffset k eph + o < 2 ^ 32) :
    ∃ ld, lastLoad (elfLoads k elf) ((phVaddr k eph + o) / pageSize) = some ld ∧
      ld.src + (phVaddr k eph + o) % pageSize = elf + phOffset k eph + o ∧
      (phVaddr k eph + o) % pageSize < ld.len := by
  have hpage : (phVaddr k eph + o) / pageSize ∈ elfPages k elf := by
    refine elfPages_mem.mpr ⟨n, hn, ?_⟩
    rw [heph, segmentPages_mem hal hend]
    simp only [pageSize]
    omega
  cases hlast : lastLoad (elfLoads k elf) ((phVaddr k eph + o) / pageSize) with
  | none =>
    rw [elfPages_eq] at hpage
    exact absurd hpage (lastLoad_eq_none.mp hlast)
  | some ld =>
    obtain ⟨hmem, hpg⟩ := lastLoad_mem hlast
    simp only [elfLoads, List.mem_flatMap, List.mem_range] at hmem
    obtain ⟨n', hn', hmem⟩ := hmem
    -- the load is one of this segment
    obtain rfl : n' = n := by
      refine honly n' hn' ?_
      rw [← hpg]
      simp only [segmentLoads, segmentPages, List.mem_map] at hmem ⊢
      obtain ⟨o', ho', rfl⟩ := hmem
      exact ⟨o', ho', rfl⟩
    rw [heph] at hmem
    simp only [segmentLoads, List.mem_map, List.mem_range, vaUserStack, vaUserStackInit,
      vaTrapframe, pageSize] at hmem hal hend hpg ⊢
    obtain ⟨o', ho', rfl⟩ := hmem
    obtain rfl : o' = o / 4096 := by
      simp only at hpg
      omega
    refine ⟨_, rfl, ?_, ?_⟩
    · simp only
      omega
    · simp only
      omega

theorem ImageSpace.byte {va : Nat} {ld : Load} {stack : List UInt8}
    (h : ImageSpace L k' i m loads stack) (hva : va < vaUserStack)
    (hlast : lastLoad loads (va / pageSize) = some ld) (hx : va % pageSize < ld.len) :
    userByte L k' i va = some (m (ld.src + va % pageSize)) := by
  simp only [vaUserStack, vaUserStackInit, vaTrapframe, pageSize] at hva
  have huser := h.user (va / pageSize) (by simp only [pageSize]; omega)
  rw [userImage, if_neg (by simp only [pageSize]; omega), if_neg (by simp only [pageSize]; omega),
    hlast, Option.map_some] at huser
  rw [userByte, huser, Option.bind_some, loadedPage,
    List.getElem?_append_left (by rw [length_loadBytes]; exact hx)]
  simp [loadBytes, hx]

theorem Layout.Untouched.lt {x : Nat} (h : L.Untouched x) : x < 2 ^ 32 := by
  have h1 := h.1
  have h2 := L.end_le
  simp only [vaUserBase] at h2
  omega

theorem segmentPages_ne {eph : Nat} (h : v ∈ segmentPages k eph) : phMemsz k eph ≠ 0 := by
  intro h0
  rw [segmentPages, h0] at h
  simp [pageSize] at h

theorem ElfPlain.byte_untouched (hp : ElfPlain L k (L.fsData idx))
    (hd : ElfDescribes k (L.fsData idx)) (hidx : idx < 12) {o : Nat}
    (hn : n < elfPhnum k (L.fsData idx))
    (hty : phType k (elfProgramHeader k (L.fsData idx) n) = elfPtLoad)
    (ho : o < phMemsz k (elfProgramHeader k (L.fsData idx) n)) :
    L.Untouched (L.fsData idx + phOffset k (elfProgramHeader k (L.fsData idx) n) + o) := by
  by_cases hf : phFilesz k (elfProgramHeader k (L.fsData idx) n) ≤ o
  · exact (hp.zeros n hn hty o ho hf).1
  · have hr := hd.ranges n hn hty
    have hin : L.InFile idx
        (L.fsData idx + phOffset k (elfProgramHeader k (L.fsData idx) n) + o) := by
      simp only [Layout.InFile]
      omega
    exact hin.untouched hidx

theorem ElfPlain.loaded_type {elf : Nat} (hp : ElfPlain L k elf) (hn : n < elfPhnum k elf)
    (hv : v ∈ segmentPages k (elfProgramHeader k elf n)) :
    phType k (elfProgramHeader k elf n) = elfPtLoad := by
  by_contra hty
  exact segmentPages_ne hv (hp.others n hn hty)

theorem ElfPlain.untouched (hp : ElfPlain L k (L.fsData idx)) (hd : ElfDescribes k (L.fsData idx))
    (hidx : idx < 12) : ElfUntouched L k (L.fsData idx) := by
  refine ⟨⟨hd.headers, fun v hv => ?_⟩, fun ld hmem x hx => ?_⟩
  · obtain ⟨n, hn, hv⟩ := elfPages_mem.mp hv
    have hty := hp.loaded_type hn hv
    obtain ⟨hal, hbase, -⟩ := hd.aligned n hn hty
    have hge := ((segmentPages_mem hal (hp.ends n hn hty)).mp hv).1
    simp only [vaUserBase, pageSize] at *
    omega
  · simp only [elfLoads, List.mem_flatMap, List.mem_range] at hmem
    obtain ⟨n, hn, hmem⟩ := hmem
    generalize heph : elfProgramHeader k (L.fsData idx) n = eph at hmem
    simp only [segmentLoads, List.mem_map, List.mem_range] at hmem
    obtain ⟨o, ho, rfl⟩ := hmem
    have hty : phType k (elfProgramHeader k (L.fsData idx) n) = elfPtLoad := by
      refine hp.loaded_type hn (v := (phVaddr k eph + o * pageSize) % 2 ^ 32 / pageSize) ?_
      rw [heph]
      exact List.mem_map.mpr ⟨o, List.mem_range.mpr ho, rfl⟩
    simp only [pageSize, lt_inf_iff] at hx ho ⊢
    have hlt : o * 4096 + x < phMemsz k (elfProgramHeader k (L.fsData idx) n) := by
      rw [heph]
      omega
    have hu := hp.byte_untouched hd hidx hn hty hlt
    rw [heph] at hu
    have hsmall := hu.lt
    have hmod : (L.fsData idx + phOffset k eph + o * 4096) % 2 ^ 32 =
        L.fsData idx + phOffset k eph + o * 4096 :=
      Nat.mod_eq_of_lt
        (lt_of_le_of_lt (Nat.add_le_add_left (Nat.le_add_right _ _) _) hsmall)
    rw [hmod, Nat.add_assoc]
    exact hu

/-- A plain file is loaded as it describes. -/
theorem ImageReady.loaded (h : ImageReady L k (L.fsData idx) argv k' i)
    (hd : ElfDescribes k (L.fsData idx)) (hp : ElfPlain L k (L.fsData idx)) (hidx : idx < 12) :
    ImageLoaded L k (L.fsData idx) k' i := by
  have hbyte : ∀ n < elfPhnum k (L.fsData idx),
      phType k (elfProgramHeader k (L.fsData idx) n) = elfPtLoad →
      ∀ o < phMemsz k (elfProgramHeader k (L.fsData idx) n),
        userByte L k' i (phVaddr k (elfProgramHeader k (L.fsData idx) n) + o) =
          some (k.mem (L.fsData idx + phOffset k (elfProgramHeader k (L.fsData idx) n) + o)) := by
    intro n hn hty o ho
    obtain ⟨hal, -⟩ := hd.aligned n hn hty
    have hend := hp.ends n hn hty
    have honly : ∀ n' < elfPhnum k (L.fsData idx),
        (phVaddr k (elfProgramHeader k (L.fsData idx) n) + o) / pageSize ∈
          segmentPages k (elfProgramHeader k (L.fsData idx) n') → n' = n := by
      intro n' hn' hv
      by_contra hne
      refine hd.apart n' hn' n hn hne (hp.loaded_type hn' hv) hty _ hv ?_
      rw [segmentPages_mem hal hend]
      simp only [pageSize]
      omega
    obtain ⟨ld, hlast, hsrc, hlen⟩ := lastLoad_segment hn rfl hal hend ho honly
      (hp.byte_untouched hd hidx hn hty ho).lt
    rw [h.space.byte (by omega) hlast hlen, hsrc]
  refine ⟨fun n hn hty o ho => hbyte n hn hty o (by have := hd.sizes n hn hty; omega),
    fun n hn hty o ho hf => ?_, fun v hv huser => ?_⟩
  · rw [hbyte n hn hty o ho, (hp.zeros n hn hty o ho hf).2]
  · rw [h.space.user v hv, userImage] at huser
    by_cases h1 : v = 0xFFFFE
    · exact .inl h1
    rw [if_neg h1] at huser
    split at huser
    · exact absurd rfl huser
    · have hmem : v ∈ elfPages k (L.fsData idx) := by
        by_contra hno
        rw [elfPages_eq] at hno
        rw [lastLoad_eq_none.mpr hno] at huser
        exact huser rfl
      obtain ⟨n, hn, hvn⟩ := elfPages_mem.mp hmem
      exact .inr ⟨n, hn, hp.loaded_type hn hvn, hvn⟩

/-- An image without overlaps: no two segments, of whatever type, share a
page, none reaches the stack, and all are copied from data left alone. -/
structure ElfApart (L : Layout) (k : KState) (elf : Nat) : Prop extends ElfUntouched L k elf where
  below : ∀ v ∈ elfPages k elf, v < vaUserStack / pageSize
  pages : ∀ n < elfPhnum k elf, ∀ n' < elfPhnum k elf, n ≠ n' → SegmentsApart k elf n n'

theorem ElfApart.ends {elf : Nat} (ha : ElfApart L k elf) (hd : ElfDescribes k elf)
    (hn : n < elfPhnum k elf) (hty : phType k (elfProgramHeader k elf n) = elfPtLoad) :
    phVaddr k (elfProgramHeader k elf n) + phMemsz k (elfProgramHeader k elf n) ≤ vaUserStack := by
  obtain ⟨hal, -, htop⟩ := hd.aligned n hn hty
  by_contra hlt
  simp only [vaUserStack, vaUserStackInit, vaTrapframe, pageSize] at hal htop hlt
  have hmem : 0xFFFFE ∈ segmentPages k (elfProgramHeader k elf n) := by
    simp only [segmentPages, List.mem_map, List.mem_range, pageSize]
    exact ⟨0xFFFFE - phVaddr k (elfProgramHeader k elf n) / 4096, by omega, by omega⟩
  have hbelow := ha.below _ (elfPages_mem.mpr ⟨n, hn, hmem⟩)
  simp only [vaUserStack, vaUserStackInit, vaTrapframe, pageSize] at hbelow
  omega

theorem Layout.fsData_add_lt (L : Layout) (hidx : idx < 12) {x o : Nat} (hx : x ≤ maxFilesize)
    (ho : o < 2 ^ 30) : L.fsData idx + x + o < 2 ^ 32 := by
  have h1 := L.filesystemFiles_le
  have h2 := L.end_le
  simp only [Layout.fsData, Layout.fsFile, maxFilesize, sizeofFilesystemFile, maxFsFiles,
    vaUserBase] at *
  omega

/-- Only a plain file is loaded as it describes, if the image has no overlaps. -/
theorem ImageLoaded.plain (hl : ImageLoaded L k (L.fsData idx) k' i)
    (h : ImageReady L k (L.fsData idx) argv k' i) (hd : ElfDescribes k (L.fsData idx))
    (ha : ElfApart L k (L.fsData idx)) (hidx : idx < 12) : ElfPlain L k (L.fsData idx) := by
  refine ⟨fun n hn hty => ha.ends hd hn hty, fun n hn hty => ?_, fun n hn hty o ho hf => ?_⟩
  · -- the first page of a segment of another type would be seen
    by_contra hsz
    generalize heph : elfProgramHeader k (L.fsData idx) n = eph at hty hsz
    have hmem : (phVaddr k eph + 0 * pageSize) % 2 ^ 32 / pageSize ∈
        segmentPages k (elfProgramHeader k (L.fsData idx) n) := by
      rw [heph]
      refine List.mem_map.mpr ⟨0, List.mem_range.mpr ?_, rfl⟩
      simp only [pageSize]
      omega
    generalize (phVaddr k eph + 0 * pageSize) % 2 ^ 32 / pageSize = v at hmem
    have hpages := elfPages_mem.mpr ⟨n, hn, hmem⟩
    have hlt := ha.below v hpages
    simp only [vaUserStack, vaUserStackInit, vaTrapframe, pageSize] at hlt
    have hne : userPage L k' i v ≠ none := by
      rw [elfPages_eq] at hpages
      cases hlast : lastLoad (elfLoads k (L.fsData idx)) v with
      | none => exact absurd hpages (lastLoad_eq_none.mp hlast)
      | some ld =>
        rw [h.space.user v (by omega), userImage, if_neg (by omega), if_neg (by omega), hlast]
        exact Option.some_ne_none _
    obtain hstack | ⟨n', hn', hty', hmem'⟩ := hl.only v (by omega) hne
    · simp only [vaUserStack, vaUserStackInit, vaTrapframe, pageSize] at hstack
      omega
    · by_cases heq : n = n'
      · rw [← heq, heph] at hty'
        exact hty hty'
      · exact ha.pages n hn n' hn' heq v hmem hmem'
  · obtain ⟨hal, hbase, -⟩ := hd.aligned n hn hty
    have hend := ha.ends hd hn hty
    have hr := hd.ranges n hn hty
    have hfz := hl.bss n hn hty o ho hf
    have honly : ∀ n' < elfPhnum k (L.fsData idx),
        (phVaddr k (elfProgramHeader k (L.fsData idx) n) + o) / pageSize ∈
          segmentPages k (elfProgramHeader k (L.fsData idx) n') → n' = n := by
      intro n' hn' hv
      by_contra hne
      refine ha.pages n' hn' n hn hne _ hv ?_
      rw [segmentPages_mem hal hend]
      simp only [pageSize]
      omega
    obtain ⟨ld, hlast, hsrc, hlen⟩ := lastLoad_segment hn rfl hal hend ho honly
      (L.fsData_add_lt hidx (by omega) (by
        simp only [vaUserBase, vaUserStack, vaUserStackInit, vaTrapframe, pageSize] at hbase hend
        omega))
    have hu := ha.sources ld (lastLoad_mem hlast).1 _ hlen
    rw [hsrc] at hu
    rw [h.space.byte (by omega) hlast hlen, hsrc, Option.some.injEq] at hfz
    exact ⟨hu, hfz⟩

/-- `kproc_create` and `kproc_exec` load a plain file as it describes, and,
unless segments overlap, no other. -/
theorem loader_image (L : Layout) (k : KState) (free : List Nat) (cur idx : Nat)
    (path : List UInt8) (argv : List (List UInt8)) (hfree : FreeList L k free) (hcur : cur < 8)
    (hidx : idx < 12) (hfile : filesystemGetFiledata L k path = L.fsData idx)
    (hd : ElfDescribes k (L.fsData idx)) :
    (∀ i k', kprocCreate L k (L.fsData idx) = some (i, k') →
      (ElfPlain L k (L.fsData idx) → ImageLoaded L k (L.fsData idx) k' i) ∧
      (ElfApart L k (L.fsData idx) → ImageLoaded L k (L.fsData idx) k' i →
        ElfPlain L k (L.fsData idx))) ∧
    ∀ ret k', kprocExec L k cur path argv = some (ret, k') → argBytes argv ≤ pageSize →
      (ElfPlain L k (L.fsData idx) → ImageLoaded L k (L.fsData idx) k' cur) ∧
      (ElfApart L k (L.fsData idx) → ImageLoaded L k (L.fsData idx) k' cur →
        ElfPlain L k (L.fsData idx)) := by
  have hk := hfree.kmemInv
  refine ⟨fun i k' h => ⟨fun hp => ?_, fun ha hl => ?_⟩,
    fun ret k' h hfit => ⟨fun hp => ?_, fun ha hl => ?_⟩⟩
  · exact (kprocCreate_ready hk hidx (hp.untouched hd hidx) h).loaded hd hp hidx
  · exact hl.plain (kprocCreate_ready hk hidx ha.toElfUntouched h) hd ha hidx
  · exact (kprocExec_image hk hcur hidx hfile (hp.untouched hd hidx) hfit h).2.loaded hd hp hidx
  · exact hl.plain (kprocExec_image hk hcur hidx hfile ha.toElfUntouched hfit h).2.toImageReady
      hd ha hidx

theorem SameFile.headerWord {w : Nat} (h : SameFile L idx k k') (hidx : idx < 12)
    (hh : elfPhoff k (L.fsData idx) + 32 * elfPhnum k (L.fsData idx) ≤ maxFilesize)
    (hn : n < elfPhnum k (L.fsData idx)) (hw : w + 4 ≤ 32) :
    k'.load (elfProgramHeader k' (L.fsData idx) n + w) =
      k.load (elfProgramHeader k (L.fsData idx) n + w) := by
  obtain ⟨heq, -⟩ := h.programHeader hidx hh hn rfl
  obtain ⟨o, ho, hle⟩ := elfProgramHeader_eq hidx hh hn
  rw [heq, ho, Nat.add_assoc]
  exact h.load (by omega)

/-- The first header is for a segment at `VA_USER_BASE`, and no other one asks
for memory. -/
structure OneSegment (k : KState) (elf offset filesz memsz : Nat) : Prop where
  headers : elfPhoff k elf + 32 * elfPhnum k elf ≤ maxFilesize
  phnum : 0 < elfPhnum k elf
  type : phType k (elfProgramHeader k elf 0) = elfPtLoad
  offset : phOffset k (elfProgramHeader k elf 0) = offset
  vaddr : phVaddr k (elfProgramHeader k elf 0) = vaUserBase
  filesz : phFilesz k (elfProgramHeader k elf 0) = filesz
  memsz : phMemsz k (elfProgramHeader k elf 0) = memsz
  others : ∀ n < elfPhnum k elf, n ≠ 0 → phType k (elfProgramHeader k elf n) ≠ elfPtLoad ∧
    phMemsz k (elfProgramHeader k elf n) = 0

theorem OneSegment.same {o fs ms : Nat} (h : OneSegment k (L.fsData idx) o fs ms)
    (hs : SameFile L idx k k') (hidx : idx < 12) : OneSegment k' (L.fsData idx) o fs ms := by
  have hword : ∀ n < elfPhnum k (L.fsData idx), ∀ w, w + 4 ≤ 32 →
      k'.load (elfProgramHeader k' (L.fsData idx) n + w) =
        k.load (elfProgramHeader k (L.fsData idx) n + w) :=
    fun n hn w hw => hs.headerWord hidx h.headers hn hw
  have htype : ∀ n < elfPhnum k (L.fsData idx), phType k' (elfProgramHeader k' (L.fsData idx) n) =
      phType k (elfProgramHeader k (L.fsData idx) n) := by
    intro n hn
    have h0 := hword n hn 0 (by omega)
    rwa [Nat.add_zero, Nat.add_zero] at h0
  refine ⟨by rw [hs.phoff, hs.phnum]; exact h.headers, by rw [hs.phnum]; exact h.phnum,
    (htype 0 h.phnum).trans h.type, (hword 0 h.phnum 4 (by omega)).trans h.offset,
    (hword 0 h.phnum 8 (by omega)).trans h.vaddr, (hword 0 h.phnum 16 (by omega)).trans h.filesz,
    (hword 0 h.phnum 20 (by omega)).trans h.memsz, fun n hn hne => ?_⟩
  rw [hs.phnum] at hn
  obtain ⟨hother, hmemsz⟩ := h.others n hn hne
  exact ⟨by rw [htype n hn]; exact hother, (hword n hn 20 (by omega)).trans hmemsz⟩

theorem OneSegment.eq_zero {elf o fs ms : Nat} (h : OneSegment k elf o fs ms)
    (hn : n < elfPhnum k elf) (hty : phType k (elfProgramHeader k elf n) = elfPtLoad) : n = 0 := by
  by_contra hne
  exact (h.others n hn hne).1 hty

theorem OneSegment.describes {elf o fs ms : Nat} (h : OneSegment k elf o fs ms) (hle : fs ≤ ms)
    (hin : o + fs ≤ maxFilesize) : ElfDescribes k elf := by
  refine ⟨h.headers, fun n hn hty => ?_, fun n hn hty => ?_, fun n hn hty => ?_, ?_⟩
  · rw [h.eq_zero hn hty, h.offset, h.filesz]
    exact hin
  · rw [h.eq_zero hn hty, h.vaddr]
    decide
  · rw [h.eq_zero hn hty, h.filesz, h.memsz]
    exact hle
  · intro n hn n' hn' hne hty hty'
    exact absurd ((h.eq_zero hn hty).trans (h.eq_zero hn' hty').symm) hne

/-- It is plain when there are zeros behind what it takes from the file. -/
theorem OneSegment.plain {o fs ms : Nat} (h : OneSegment k (L.fsData idx) o fs ms)
    (hidx : idx < 12) (hsmall : ms ≤ pageSize) (hin : o + ms ≤ maxFilesize)
    (hzero : ∀ x < ms, fs ≤ x → k.mem (L.fsData idx + o + x) = 0) :
    ElfPlain L k (L.fsData idx) := by
  refine ⟨fun n hn hty => ?_, fun n hn hty => ?_, fun n hn hty x hx hf => ?_⟩
  · rw [h.eq_zero hn hty, h.vaddr, h.memsz]
    simp only [vaUserBase, vaUserStack, vaUserStackInit, vaTrapframe, pageSize] at *
    omega
  · by_cases h0 : n = 0
    · rw [h0] at hty
      exact absurd h.type hty
    · exact (h.others n hn h0).2
  · rw [h.eq_zero hn hty, h.memsz] at hx
    rw [h.eq_zero hn hty, h.filesz] at hf
    rw [h.eq_zero hn hty, h.offset]
    have hfile : L.InFile idx (L.fsData idx + o + x) := by
      simp only [Layout.InFile]
      omega
    exact ⟨hfile.untouched hidx, hzero x hx hf⟩

/-- The example's file with eight bytes of `.bss` behind its segment of eight,
and a second header, `PT_GNU_STACK`, that asks for no memory. -/
def plainElf : List UInt8 :=
  [0x7F, 0x45, 0x4C, 0x46, 1, 1, 1, 0, 0, 0, 0, 0, 0, 0, 0, 0,
   2, 0, 243, 0, 1, 0, 0, 0, 0, 0, 0, 0xC0, 52, 0, 0, 0, 0, 0, 0, 0,
   0, 0, 0, 0, 52, 0, 32, 0, 2, 0, 40, 0, 0, 0, 0, 0,
   1, 0, 0, 0, 116, 0, 0, 0, 0, 0, 0, 0xC0, 0, 0, 0, 0xC0,
   8, 0, 0, 0, 16, 0, 0, 0, 7, 0, 0, 0, 4, 0, 0, 0,
   0x51, 0xE5, 0x74, 0x64, 0, 0, 0, 0, 0, 0, 0, 0, 0, 0, 0, 0,
   0, 0, 0, 0, 0, 0, 0, 0, 6, 0, 0, 0, 16, 0, 0, 0,
   0x13, 0, 0, 0, 0x6F, 0, 0, 0]

theorem plainElf_load : OneLoad plainElf ⟨0xC0000, exampleLayout.fsData 2 + 116, 16⟩ := by
  constructor <;> decide +kernel

theorem plainElf_segment : elfPhnum (KState.init (elfMem plainElf)) (exampleLayout.fsData 2) = 2 ∧
    OneSegment (KState.init (elfMem plainElf)) (exampleLayout.fsData 2) 116 8 16 ∧
    ∀ x < 16, 8 ≤ x →
      (KState.init (elfMem plainElf)).mem (exampleLayout.fsData 2 + 116 + x) = 0 := by
  refine ⟨by decide +kernel, ?_, by decide +kernel⟩
  constructor <;> decide +kernel

/-- The image of a process that executes that file is what the file describes. -/
theorem loader_image_shell : ∃ (s : Sys) (k' : KState),
    SysReach exampleLayout (fun s op => op.Safe exampleLayout s) s ∧
      elfPhnum s.k (exampleLayout.fsData 2) = 2 ∧
      kprocExec exampleLayout s.k 0 examplePath [] = some (0, k') ∧
      ImageLoaded exampleLayout s.k (exampleLayout.fsData 2) k' 0 ∧
      userByte exampleLayout k' 0 (vaUserBase + 12) = some 0 := by
  obtain ⟨s, g, hreach, he, -⟩ :=
    plainElf_load.entered (fun s op => op.Safe exampleLayout s) (fun _ _ => trivial)
  obtain ⟨hnum, hseg, hzero⟩ := plainElf_segment
  have hsame : SameFile exampleLayout 2 (KState.init (elfMem plainElf)) s.k :=
    he.files.sameFile (by omega)
  have hone := hseg.same hsame (by omega)
  have hplain : ElfPlain exampleLayout s.k (exampleLayout.fsData 2) := by
    refine hone.plain (by omega) (by decide) (by simp only [maxFilesize]; omega) ?_
    intro x hx hf
    have hin : exampleLayout.InFile 2 (exampleLayout.fsData 2 + 116 + x) := by
      simp only [Layout.InFile, maxFilesize]
      omega
    rw [hsame _ hin]
    exact hzero x hx hf
  obtain ⟨hdata, k', hexec⟩ := he.exec plainElf_load.ok plainElf_load.loads plainElf_load.locate []
  have hloaded := ((loader_image exampleLayout s.k g.free 0 2 examplePath []
    he.running.inv.inv.kmem.freeList (by omega) (by omega) hdata
    (hone.describes (by omega) (by decide))).2 0 k' hexec (by decide)).1 hplain
  have hbss := hloaded.bss 0 hone.phnum hone.type 12 (by rw [hone.memsz]; omega)
    (by rw [hone.filesz]; omega)
  rw [hone.vaddr] at hbss
  exact ⟨s, k', hreach, hsame.phnum.trans hnum, hexec, hloaded, hbss⟩

/-- The example's file with a segment of four bytes and four more of `.bss`. -/
def bssElf : List UInt8 :=
  [0x7F, 0x45, 0x4C, 0x46, 1, 1, 1, 0, 0, 0, 0, 0, 0, 0, 0, 0,
   2, 0, 243, 0, 1, 0, 0, 0, 0, 0, 0, 0xC0, 52, 0, 0, 0, 0, 0, 0, 0,
   0, 0, 0, 0, 52, 0, 32, 0, 1, 0, 40, 0, 0, 0, 0, 0,
   1, 0, 0, 0, 84, 0, 0, 0, 0, 0, 0, 0xC0, 0, 0, 0, 0xC0,
   4, 0, 0, 0, 8, 0, 0, 0, 7, 0, 0, 0, 4, 0, 0, 0,
   0x13, 0, 0, 0, 0x6F, 0, 0, 0]

theorem bssElf_load : OneLoad bssElf ⟨0xC0000, exampleLayout.fsData 2 + 84, 8⟩ := by
  constructor <;> decide +kernel

theorem bssElf_segment : OneSegment (KState.init (elfMem bssElf)) (exampleLayout.fsData 2) 84 4 8 := by
  constructor <;> decide +kernel

/-- What user mode finds at `VA_USER_BASE + 4` is the byte of the file, not zero. -/
theorem loader_keeps_bss : ∃ (s : Sys) (k1 k2 : KState),
    SysReach exampleLayout (fun s op => op.Safe exampleLayout s) s ∧
      ElfDescribes s.k (exampleLayout.fsData 2) ∧
      kprocCreate exampleLayout s.k (exampleLayout.fsData 2) = some (1, k1) ∧
      kprocExec exampleLayout s.k 0 examplePath [] = some (0, k2) ∧
      userByte exampleLayout k1 1 (vaUserBase + 4) = some 0x6F ∧
      userByte exampleLayout k2 0 (vaUserBase + 4) = some 0x6F ∧
      ¬ ImageLoaded exampleLayout s.k (exampleLayout.fsData 2) k1 1 ∧
      ¬ ImageLoaded exampleLayout s.k (exampleLayout.fsData 2) k2 0 := by
  obtain ⟨s, g, hreach, he, -⟩ :=
    bssElf_load.entered (fun s op => op.Safe exampleLayout s) (fun _ _ => trivial)
  have hk := he.running.inv.inv.kmem
  have hsame : SameFile exampleLayout 2 (KState.init (elfMem bssElf)) s.k :=
    he.files.sameFile (by omega)
  have hone := bssElf_segment.same hsame (by omega)
  have hloads := (hsame.loads (by omega) bssElf_load.headers).trans bssElf_load.loads
  have huntouched := he.untouched bssElf_load.ok bssElf_load.loads
  obtain ⟨hdata, k2, hexec⟩ := he.exec bssElf_load.ok bssElf_load.loads bssElf_load.locate []
  obtain ⟨k1, hcreate⟩ := he.create bssElf_load.ok bssElf_load.loads
  have hcode : s.k.mem (exampleLayout.fsData 2 + 84 + 4) = 0x6F := by
    have hin : exampleLayout.InFile 2 (exampleLayout.fsData 2 + 84 + 4) := by
      simp only [Layout.InFile, maxFilesize]
      omega
    rw [hsame _ hin]
    decide +kernel
  have hbyte : ∀ k' i, ImageReady exampleLayout s.k (exampleLayout.fsData 2) [] k' i →
      userByte exampleLayout k' i (vaUserBase + 4) = some 0x6F ∧
        ¬ ImageLoaded exampleLayout s.k (exampleLayout.fsData 2) k' i := by
    intro k' i hr
    have hread : userByte exampleLayout k' i (vaUserBase + 4) = some 0x6F := by
      have hlast : lastLoad (elfLoads s.k (exampleLayout.fsData 2)) ((vaUserBase + 4) / pageSize) =
          some ⟨0xC0000, exampleLayout.fsData 2 + 84, 8⟩ := by
        rw [hloads]
        rfl
      have h4 : (vaUserBase + 4) % pageSize = 4 := by decide
      rw [hr.space.byte (by decide) hlast (by decide)]
      simp only [h4, hcode]
    refine ⟨hread, fun hl => ?_⟩
    have hzero := hl.bss 0 hone.phnum hone.type 4 (by rw [hone.memsz]; omega)
      (by rw [hone.filesz])
    rw [hone.vaddr, hread] at hzero
    exact absurd hzero (by decide)
  obtain ⟨h1, h1'⟩ := hbyte k1 1 (kprocCreate_ready hk (by omega) huntouched hcreate)
  obtain ⟨h2, h2'⟩ := hbyte k2 0
    (kprocExec_image hk (by omega) (by omega) hdata huntouched (by decide) hexec).2.toImageReady
  exact ⟨s, k1, k2, hreach, hone.describes (by omega) (by decide), hcreate, hexec, h1, h2, h1',
    h2'⟩

end Risky321.Kernel
