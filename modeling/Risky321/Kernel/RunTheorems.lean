/-
Risky321.Kernel.RunTheorems — runs exist.

§1 takes the example system from power-up to the first instruction of the
shell. §2 is what a process that executes can do next: it forks when there is a
slot and room for a copy, it opens and closes files, it sleeps and exits, and
the scheduler enters another one. Later modules put their runs together from
these steps.
-/
import Risky321.Kernel.SystemTheorems

namespace Risky321.Kernel

open Risky321.Lib

variable {L : Layout} {k k' : KState} {g g' : Ghost} {i cur fd n idx : Nat} {s s' : Sys} {m : Mem}
  {a : Space} {r : Nat}

/-! ## §1 The first process -/

/-- The kernel boots when its memory is as it should be and the shell is not
too large for it. -/
theorem sysInit_exists {m : Mem} (hm : BootMem L m)
    (hroom : 8 + 2 * L.kernelTables + 2 * (elfLoads (KState.init m) (L.fsData 2)).length ≤ 16384) :
    ∃ s, Sys.Init L s ∧ ∃ k g, Started L s m k g := by
  have hdev : VirtioRegs.Ok ⟨0x74726976, 1, 2, 4⟩ := by decide
  obtain ⟨k, hk, hb⟩ := bootKernel_spec L hdev m
  have hsame := hb.sameFile (show 2 < 12 by decide)
  have hok := hsame.elfOk (by decide) hm.elf
  cases hc : kprocCreate L k (L.fsData 2) with
  | none =>
    obtain hslot | hlt := kprocCreate_none hb.inv.kmem (by decide) hok.above hc
    · rw [freeSlot_booted hb] at hslot
      exact absurd hslot nofun
    · rw [L.bootGhost_free, L.length_pagesDown, hsame.loads (by decide) hm.elf.headers] at hlt
      omega
  | some p =>
    obtain ⟨i, k'⟩ := p
    have hinit : Sys.Init L { k := k', tty := Tty.init, user := false } :=
      ⟨⟨_, m, hm, boot_some hk hc⟩, rfl, rfl⟩
    obtain ⟨g, hcr⟩ := kprocCreate_inv hb.inv (by decide) hok hc
    have hi : i = 0 := by
      have hslot := hcr.slot
      rw [freeSlot_booted hb, Option.some.injEq] at hslot
      exact hslot.symm
    rw [hi] at hcr
    exact ⟨_, hinit, k, g, hm, hb, hcr, rfl, rfl⟩

/-- The scheduler may enter any process that can run. -/
theorem Sys.step_schedule (huser : s.user = false) (hi : i < 8)
    (hstate : Risky321.Kernel.pcb L s.k i .state = ProcState.runnable.code) :
    s.step L (.schedule i) = some { s with k := enterSlot L s.k i, user := true } := by
  simp only [Sys.step]
  exact if_pos ⟨huser, hi, .inl hstate⟩

theorem Inv.schedule (hI : Inv L k g) (hlive : Live L k i) : Inv L { k with current := some i } g :=
  ⟨hI.kmem.congr rfl (fun _ _ _ _ => rfl), hI.kernel, hI.queueUpper, hI.queueLower, hI.request,
    fun j hj => (hI.proc j hj).congr (fun _ _ _ _ => rfl) (fun _ _ => rfl) (fun _ _ _ => rfl),
    hI.heap, fun c hc => by rw [← Option.some.inj hc]; exact hlive.1⟩

theorem enterSlot_words (hI : Inv L k g) (hlive : Live L k i) :
    TrapWords L { k with current := some i } g (enterSlot L k i) := by
  have hI1 := hI.schedule hlive
  simp only [enterSlot]
  split
  · exact returnValue_words 0 hI1 hlive
  · exact ktrapToUser_words hI1 hlive

/-- Slot `cur` is executing. -/
structure Running (L : Layout) (s : Sys) (g : Ghost) (cur : Nat) : Prop where
  inv : SysInv L s g
  user : s.user = true
  current : s.k.current = some cur
  live : Live L s.k cur

theorem Running.step_call (hr : Running L s g cur) (c : Call) :
    s.step L (.call c) = s.call L cur c := Sys.step_call hr.current hr.user hr.live

/-- A step whose effect is known keeps the invariant of a run. -/
theorem SysInv.after {op : Op} {k1 : KState} {g1 : Ghost} (hI : SysInv L s g)
    (he : Effect L s.k g op k1 g1) (hw : TrapWords L k1 g1 s'.k) (htty : s'.tty = s.tty) :
    SysInv L s' g1 := by
  obtain ⟨hI1, hf1⟩ := he.inv hI.inv hI.files
  exact ⟨hw.inv hI1, hf1.same hw.grow.filesSame, by rw [htty]; exact hI.tty⟩

/-- The scheduler enters slot `i`. -/
theorem SysInv.enter (hI : SysInv L s g) (huser : s.user = false) (hi : i < 8)
    (hstate : pcb L s.k i .state = ProcState.runnable.code) :
    s.step L (.schedule i) = some { s with k := enterSlot L s.k i, user := true } ∧
      Running L { s with k := enterSlot L s.k i, user := true } g i ∧
      TrapWords L { s.k with current := some i } g (enterSlot L s.k i) := by
  have hlive : Live L s.k i := ⟨hi, by rw [hstate]; decide⟩
  have hw := enterSlot_words hI.inv hlive
  have he : Effect L s.k g (.schedule i) { s.k with current := some i } g := .scheduled hlive
  exact ⟨Sys.step_schedule huser hi hstate, ⟨hI.after he hw rfl, rfl, hw.grow.current,
    hw.live.mpr hlive⟩, hw⟩

/-- The shell executes for the first time, over a memory that held `m` at boot. -/
structure Entered (L : Layout) (m : Mem) (s : Sys) (g : Ghost) : Prop where
  running : Running L s g 0
  others : ∀ i < 8, i ≠ 0 → pcb L s.k i .state = ProcState.unused.code
  files : FsSame L (KState.init m) s.k
  opened : ∀ i < 8, ∀ fd < 8, pcb L s.k i (.openedFiles fd) = 0
  osFiles : ∀ n < maxOsFiles, s.k.load (osInUse (L.osFile n)) = 0
  heap : ∀ i < 8, pcb L s.k i .freeHeapPage = vaUserBase
  stackTop : ∀ i < 8, pcb L s.k i .kernelStackTop = L.proc i + sizeofProcess
  free : g.free = L.pagesDown (16384 -
    (5 + L.kernelTables + L.imagePages (elfPages (KState.init m) (L.fsData 2))))
  image : ∀ v ld, lastLoad (elfLoads (KState.init m) (L.fsData 2)) v = some ld →
    ∃ q, L.IsPage q ∧ g.ow q = .leaf (.proc 0) v ∧
      walk s.k.mem (pcb L s.k 0 .pagetable) v = some (q / 4 + 31) ∧
      ∀ x < ld.len, L.InFiles (ld.src + x) → s.k.mem (q + x) = m (ld.src + x)

theorem Started.schedule {m : Mem} (hs : Started L s m k g) :
    ∃ s1, s.step L (.schedule 0) = some s1 ∧ Running L s1 g 0 ∧ s1.tty = Tty.init ∧
      TrapWords L { s.k with current := some 0 } g s1.k := by
  obtain ⟨hstep, hr, hw⟩ := hs.sysInv.enter hs.user (by decide) hs.created.state
  exact ⟨_, hstep, hr, hs.tty, hw⟩

/-- Before the first process no entry of `os_files` is in use. -/
theorem BootMem.osFiles_zero {m : Mem} (hm : BootMem L m) (hb : Booted L m k)
    (hn : n < maxOsFiles) : k.load (osInUse (L.osFile n)) = 0 := by
  obtain ⟨h1, h2⟩ := L.osFile_static hn
  have hz : ∀ x < 4, k.mem (L.osFile n + x) = 0 := by
    intro x hx
    rw [hb.static _ (by omega) (h2 _ (by omega) (by omega))]
    refine hm.osFiles _ ?_ ?_ <;>
      simp only [Layout.osFile, sizeofOsFile, maxOsFiles] at * <;> omega
  have h0 := hz 0 (by omega)
  rw [Nat.add_zero] at h0
  simp [osInUse, KState.load, load32, h0, hz 1 (by omega), hz 2 (by omega), hz 3 (by omega)]

theorem Booted.fsSame {m : Mem} (hb : Booted L m k) : FsSame L (KState.init m) k :=
  fun x hx => hb.static x hx.apart.1 hx.apart.2.1

theorem elfLoads_len_le {elf : Nat} {ld : Load} (h : ld ∈ elfLoads k elf) : ld.len ≤ 4096 := by
  simp only [elfLoads, segmentLoads, List.mem_flatMap, List.mem_map] at h
  obtain ⟨_, -, _, -, rfl⟩ := h
  exact Nat.min_le_left _ _

theorem Started.entered {m : Mem} (hs : Started L s m k g) :
    ∃ s1, s.step L (.schedule 0) = some s1 ∧ Entered L m s1 g ∧ s1.tty = Tty.init := by
  obtain ⟨s1, hstep, hrun, htty, hw⟩ := hs.schedule
  have hpcb : ∀ i < 8, ∀ f : PcbField, f.InStruct → pcb L s1.k i f = pcb L s.k i f :=
    fun i hi f hf => hw.pcb hi hf
  have hother : ∀ i < 8, i ≠ 0 → ∀ f : PcbField, f.InStruct → pcb L s1.k i f = pcb L k i f := by
    intro i hi hne f hf
    rw [hpcb i hi f hf, hs.created.grow.pcb_other hi hf hne]
  have hkept : ∀ f : PcbField, f.InStruct → f ≠ .state → f ≠ .pid → f ≠ .pagetable →
      f ≠ .trapframe → (∀ r, f ≠ .context r) → f ≠ .userStack →
      ∀ i < 8, pcb L s1.k i f = pcb L k i f := by
    intro f hf h1 h2 h3 h4 h5 h6 i hi
    by_cases h0 : i = 0
    · rw [h0, hpcb 0 (by decide) f hf,
        hs.created.field_eq f hf h1 h2 h3 h4 (h5 0) (h5 1) h6]
    · exact hother i hi h0 f hf
  have hsame : FilesSame L k s1.k := hs.created.filesSame.trans
    ⟨fun x hx _ => hw.grow.static_mem x hx id, fun i hi fd hfd => hpcb i hi (.openedFiles fd) hfd⟩
  have hfile := hs.booted.sameFile (show 2 < 12 by decide)
  have hloads : elfLoads k (L.fsData 2) = elfLoads (KState.init m) (L.fsData 2) :=
    hfile.loads (by decide) hs.mem.elf.headers
  obtain ⟨q, hb⟩ := hs.created.built
  rw [hloads] at hb
  refine ⟨s1, hstep, ⟨hrun, ?_, ?_, ?_, ?_, ?_, ?_, ?_, ?_⟩, htty⟩
  · intro i hi hne
    rw [hother i hi hne .state trivial, hs.booted.unused i hi]
  · exact hs.booted.fsSame.trans hsame.fsSame
  · intro i hi fd hfd
    rw [hsame.opened i hi fd hfd]
    exact hs.mem.opened_zero hs.booted hi hfd
  · intro n hn
    rw [← hs.mem.osFiles_zero hs.booted hn]
    exact hsame.load_osFile (o := 0) hn (by omega)
  · intro i hi
    rw [hkept .freeHeapPage trivial nofun nofun nofun nofun nofun nofun i hi,
      hs.booted.freeHeapPage i hi]
  · intro i hi
    rw [hkept .kernelStackTop trivial nofun nofun nofun nofun nofun nofun i hi,
      hs.booted.kernelStackTop i hi]
  · rw [hb.free, L.bootGhost_free, L.drop_pagesDown, elfPages_eq]
    refine congrArg L.pagesDown ?_
    omega
  · intro v ld hld
    obtain ⟨hmem, rfl⟩ := lastLoad_mem hld
    have hv := (hs.mem.elf.pages ld.page (by
      rw [elfPages_eq]
      exact List.mem_map_of_mem hmem)).2
    simp only [vaUserStack, vaUserStackInit, vaTrapframe, pageSize] at hv
    obtain ⟨q, hq, how, hwalk, hholds⟩ := hb.image _ ld hld (by omega) (by omega)
    refine ⟨q, hq, how, ?_, ?_⟩
    · rw [hpcb 0 (by decide) .pagetable trivial, ← hwalk]
      exact Tree.walk_grow (k := { s.k with current := some 0 }) hb.tree
        (hb.kmem.congr rfl (fun _ _ _ _ => rfl)) hw.grow (fun _ h => h.not_table) (by omega)
    · intro x hx hin
      obtain ⟨h1, h2, -⟩ := hin.apart
      have hno : ¬ (g.ow q).IsTrapframe := by
        rw [how]
        rintro ⟨_, h⟩
        exact absurd h nofun
      have hlen := elfLoads_len_le hmem
      rw [hw.grow.page_mem q hq (by rw [how]; exact nofun) hno x (by omega),
        hholds.copied x hx ⟨h1, fun h => h2 ⟨0, by decide, h⟩⟩,
        setPcb_outside (f := .pid) (by decide) trivial h2,
        setPcb_outside (f := .state) (by decide) trivial h2]
      exact hs.booted.fsSame _ hin

/-- The shell of a memory that is as it should be executes, if it is not too large. -/
theorem BootMem.entered {m : Mem} (hm : BootMem L m) (ok : Sys → Op → Prop)
    (hok : ∀ s i, ok s (.schedule i))
    (hroom : 8 + 2 * L.kernelTables + 2 * (elfLoads (KState.init m) (L.fsData 2)).length ≤ 16384) :
    ∃ s g, SysReach L ok s ∧ Entered L m s g ∧ s.tty = Tty.init := by
  obtain ⟨s, hinit, k, g, hs⟩ := sysInit_exists hm hroom
  obtain ⟨s1, hstep, hent, htty⟩ := hs.entered
  exact ⟨s1, g, .step (.init hinit) (hok s 0) hstep, hent, htty⟩

/-- The example's memory, with another file in place. -/
def elfMem (elf : List UInt8) : Mem := fun x =>
  let file := exampleLayout.fsFile 2
  if x = file then 1
  else if file + 4 ≤ x ∧ x < file + 13 then examplePath.getD (x - (file + 4)) 0
  else if file + 104 ≤ x ∧ x < file + 104 + elf.length then elf.getD (x - (file + 104)) 0
  else if x = file + 4194408 then UInt8.ofNat elf.length
  else 0

theorem elfMem_zero {elf : List UInt8} {x : Nat} (hlen : elf.length ≤ maxFilesize)
    (h : x < exampleLayout.fsFile 2 ∨ exampleLayout.fsFile 3 ≤ x) : elfMem elf x = 0 := by
  have h3 : exampleLayout.fsFile 3 = exampleLayout.fsFile 2 + 4194412 := by decide
  simp only [maxFilesize] at hlen
  unfold elfMem
  generalize exampleLayout.fsFile 2 = file at *
  simp only
  rw [if_neg (by omega), if_neg (by omega), if_neg (by omega), if_neg (by omega)]

theorem elfMem_boot {elf : List UInt8} (hlen : elf.length ≤ maxFilesize)
    (hsizes : ∀ idx < maxFsFiles, load32 (elfMem elf) (exampleLayout.fsSize idx) ≤ maxFilesize)
    (hok : ElfOk (KState.init (elfMem elf)) (exampleLayout.fsData 2)) :
    BootMem exampleLayout (elfMem elf) := by
  refine ⟨?_, ?_, hsizes, hok⟩
  · intro x h1 h2
    refine elfMem_zero hlen (.inr ?_)
    simp only [exampleLayout, Layout.fsFile, sizeofFilesystemFile] at *
    omega
  · intro x h1 h2
    refine elfMem_zero hlen (.inr ?_)
    simp only [exampleLayout, Layout.fsFile, sizeofFilesystemFile] at *
    omega

/-- A file that can stand in for the example's: it asks for one page to be loaded. -/
structure OneLoad (elf : List UInt8) (ld : Load) : Prop where
  length_le : elf.length ≤ maxFilesize
  sizes : ∀ idx < maxFsFiles, load32 (elfMem elf) (exampleLayout.fsSize idx) ≤ maxFilesize
  headers : elfPhoff (KState.init (elfMem elf)) (exampleLayout.fsData 2) +
    32 * elfPhnum (KState.init (elfMem elf)) (exampleLayout.fsData 2) ≤ maxFilesize
  loads : elfLoads (KState.init (elfMem elf)) (exampleLayout.fsData 2) = [ld]
  page : vaUserBase / pageSize ≤ ld.page ∧ ld.page < vaUserStack / pageSize
  locate : filesystemLocateFile exampleLayout (KState.init (elfMem elf)) examplePath = 2

theorem OneLoad.ok {elf : List UInt8} {ld : Load} (h : OneLoad elf ld) :
    ElfOk (KState.init (elfMem elf)) (exampleLayout.fsData 2) := by
  refine ⟨h.headers, ?_⟩
  rw [elfPages_eq, h.loads]
  simpa using h.page

/-- With such a file in place of the shell a process comes to run it. -/
theorem OneLoad.entered {elf : List UInt8} {ld : Load} (h : OneLoad elf ld)
    (ok : Sys → Op → Prop) (hok : ∀ s i, ok s (.schedule i)) :
    ∃ s g, SysReach exampleLayout ok s ∧ Entered exampleLayout (elfMem elf) s g ∧
      s.tty = Tty.init := by
  refine (elfMem_boot h.length_le h.sizes h.ok).entered ok hok ?_
  rw [h.loads, List.length_singleton]
  decide

theorem exampleElf_load : OneLoad exampleElf ⟨0xC0000, exampleLayout.fsData 2 + 84, 8⟩ := by
  constructor <;> decide +kernel

theorem exampleElf_loads : elfLoads (KState.init exampleMem) (exampleLayout.fsData 2) =
    [⟨0xC0000, exampleLayout.fsData 2 + 84, 8⟩] :=
  exampleElf_load.loads

theorem exampleElf_ok : ElfOk (KState.init exampleMem) (exampleLayout.fsData 2) :=
  exampleElf_load.ok

theorem exampleMem_boot : BootMem exampleLayout exampleMem :=
  @elfMem_boot exampleElf exampleElf_load.length_le exampleElf_load.sizes exampleElf_load.ok

theorem exampleElf_room : 8 + 2 * exampleLayout.kernelTables +
    2 * (elfLoads (KState.init exampleMem) (exampleLayout.fsData 2)).length ≤ 16384 := by
  rw [exampleElf_loads]
  decide

/-- A run can start: the shell of the example executes. -/
theorem exampleStarted : ∃ s k g, Sys.Init exampleLayout s ∧
    Started exampleLayout s exampleMem k g := by
  obtain ⟨s, hinit, k, g, hs⟩ := sysInit_exists exampleMem_boot exampleElf_room
  exact ⟨s, k, g, hinit, hs⟩

theorem exampleEntered (ok : Sys → Op → Prop) (hok : ∀ s i, ok s (.schedule i)) :
    ∃ s g, SysReach exampleLayout ok s ∧ Entered exampleLayout exampleMem s g ∧
      s.tty = Tty.init :=
  exampleMem_boot.entered ok hok exampleElf_room

theorem examplePath_locate :
    filesystemLocateFile exampleLayout (KState.init exampleMem) examplePath = 2 :=
  exampleElf_load.locate

theorem Layout.card_userTables_le (L : Layout) (pages : List Nat) :
    (L.userTables pages).card ≤ pages.length + 1 := by
  have h1 := Finset.card_insert_le 1023
    ((pages.map (· / 1024)).toFinset.filter (fun n => L.kernelTables ≤ n))
  have h2 := Finset.card_filter_le (pages.map (· / 1024)).toFinset (fun n => L.kernelTables ≤ n)
  have h3 := List.toFinset_card_le (pages.map (· / 1024))
  rw [List.length_map] at h3
  unfold Layout.userTables
  omega

theorem exampleLayout_tables : exampleLayout.kernelTables = 541 := by decide

/-- A shell of one page leaves most of the pages free. -/
theorem Entered.onePage {s : Sys} {m : Mem} {ld : Load} (he : Entered exampleLayout m s g)
    (hload : elfLoads (KState.init m) (exampleLayout.fsData 2) = [ld]) :
    15000 ≤ g.free.length := by
  have hcard := exampleLayout.card_userTables_le [ld.page]
  rw [he.free, Layout.length_pagesDown, elfPages_eq, hload]
  simp only [Layout.imagePages, List.map_cons, List.map_nil, List.length_cons,
    List.length_nil, exampleLayout_tables] at *
  omega

theorem Entered.exampleFree (he : Entered exampleLayout exampleMem s g) :
    15000 ≤ g.free.length :=
  he.onePage exampleElf_loads

/-! ## §2 What comes next -/

/-- User pages are different pages of the free region, and not free. -/
theorem userCount_add_free_le (hk : KmemInv L k g) (hl : Leaves k.mem g a r) :
    userCount k.mem r (2 ^ 20) + g.free.length ≤ 16384 := by
  have huser : ∀ v ∈ (List.range (2 ^ 20)).filter (fun v => isUser (walk k.mem r v)),
      g.ow (pteAddr ((walk k.mem r v).getD 0)) = .leaf a v := by
    intro v hv
    rw [List.mem_filter, List.mem_range] at hv
    obtain ⟨hv, hU⟩ := hv
    cases hw : walk k.mem r v with
    | none => simp [hw, isUser] at hU
    | some e => exact hl v hv e hw (by simpa [hw, isUser] using hU)
  have hnd : (((List.range (2 ^ 20)).filter (fun v => isUser (walk k.mem r v))).map
      (fun v => pteAddr ((walk k.mem r v).getD 0)) ++ g.free).Nodup := by
    refine List.Nodup.append ?_ hk.nodup ?_
    · refine List.Nodup.map_on (fun v hv u hu heq => ?_) (List.nodup_range.filter _)
      have hvu := (huser v hv).symm.trans ((congrArg g.ow heq).trans (huser u hu))
      simpa using hvu
    · intro q hq hfree
      obtain ⟨v, hv, rfl⟩ := List.mem_map.mp hq
      exact absurd ((huser v hv).symm.trans ((hk.free_iff _).mp hfree)) (by simp)
  have hlen := Layout.length_pages_le (L := L) hnd (fun p hp => ?_)
  · rwa [List.length_append, List.length_map, ← List.countP_eq_length_filter] at hlen
  · obtain hp | hp := List.mem_append.mp hp
    · obtain ⟨v, hv, rfl⟩ := List.mem_map.mp hp
      exact hk.page_of (huser v hv) (by simp)
    · exact hk.page_of ((hk.free_iff p).mp hp) (by simp)

theorem copyCount_add_free_le (hk : KmemInv L k g) (hl : Leaves k.mem g a r) :
    copyCount k.mem r + g.free.length ≤ 16384 + 1024 := by
  have htable : tableCount k.mem r 1024 ≤ 1024 := by
    simpa only [tableCount, List.length_range] using
      (List.countP_le_length (l := List.range 1024) (p := fun i => decide (HasTable k.mem r i)))
  have huser := userCount_add_free_le hk hl
  simp only [copyCount]
  omega

theorem Ghost.length_release (g : Ghost) (L : Layout) (k : KState) (i : Nat) :
    (g.release L k i).free.length = g.free.length + 3 := rfl

theorem freeSlot_one (h0 : Live L k 0) (h1 : pcb L k 1 .state = ProcState.unused.code) :
    freeSlot L k = some 1 := by
  have hlive := h0.2
  rw [freeSlot, show List.range numProcesses = 0 :: 1 :: [2, 3, 4, 5, 6, 7] by decide,
    List.find?_cons_of_neg (by simpa using hlive), List.find?_cons_of_pos (by simpa using h1)]

/-- A process forks when there is a slot, and pages for a copy. -/
theorem Running.fork (hr : Running L s g cur) (hslot : freeSlot L s.k = some i)
    (hroom : 2 + copyCount s.k.mem (pcb L s.k cur .pagetable) ≤ g.free.length) :
    ∃ s' k1 g', s.step L (.call .fork) = some s' ∧ Running L s' g' cur ∧ i ≠ cur ∧
      Forked L cur i s.k g k1 g' ∧ TrapWords L k1 g' s'.k := by
  have hp := hr.inv.inv.proc cur hr.live
  cases hf : kprocFork L s.k cur with
  | none =>
    obtain hfull | hfull := kprocFork_none hr.inv.inv.kmem hp.tree hr.live hp.hasTable_last hf
    · rw [hslot] at hfull
      cases hfull
    · omega
  | some rk =>
    obtain ⟨ret, k'⟩ := rk
    obtain ⟨j, k1, g1, hslot', hne, hfk, hI1, hlive1, hw, -⟩ := fork_words hr.inv.inv hr.live hf
    obtain rfl : i = j := by
      rw [hslot] at hslot'
      exact Option.some.inj hslot'
    have he := Effect.forked hr.current hr.live hslot hne hfk hI1
    refine ⟨{ s with k := ktrapToUser L k' cur }, k1, g1, ?_, ⟨hr.inv.after he hw rfl, hr.user, ?_,
      hw.live.mpr hlive1⟩, hne, hfk, hw⟩
    · rw [hr.step_call]
      simp only [Sys.call, hf, Option.map_some]
    · exact (hw.grow.current.trans hfk.grow.current).trans hr.current

/-- A process closes a file that it has open. -/
theorem Running.close (hr : Running L s g cur) (h3 : 3 ≤ fd) (hfd : fd < 8)
    (hopen : pcb L s.k cur (.openedFiles fd) ≠ 0) :
    ∃ s' n, s.step L (.call (.close fd)) = some s' ∧ n < maxOsFiles ∧
      pcb L s.k cur (.openedFiles fd) = L.osFile n ∧ Running L s' g cur ∧
      TrapWords L (setOsFile L (setPcb L s.k cur (.openedFiles fd) 0) n 0 0xFFFFFFFF 0) g s'.k := by
  obtain ⟨hnull, -⟩ | ⟨n, hn, hentry, hclose⟩ :=
    filesystemFileClose_spec hr.inv.inv hr.inv.files hr.live h3 hfd
  · exact absurd hnull hopen
  have he := Effect.closed (g := g) hr.current hr.live h3 hfd hn hentry
  have hI1 := (he.inv hr.inv.inv hr.inv.files).1
  have hlive1 : Live L (setOsFile L (setPcb L s.k cur (.openedFiles fd) 0) n 0 0xFFFFFFFF 0)
      cur := by
    refine ⟨hr.live.1, ?_⟩
    rw [pcb_setOsFile (f := .state) hn hr.live.1 trivial,
      pcb_setPcb_of_ne (f := .state) (g := .openedFiles fd) trivial hfd nofun]
    exact hr.live.2
  have hw := returnValue_words 0 hI1 hlive1
  refine ⟨{ s with k := returnValue L _ cur 0 }, n, ?_, hn, hentry,
    ⟨hr.inv.after he hw rfl, hr.user, hw.grow.current.trans hr.current, hw.live.mpr hlive1⟩, hw⟩
  rw [hr.step_call]
  simp only [Sys.call, hclose, Option.map_some]
  exact if_pos (by omega)

/-- A register changes, and is saved. -/
theorem Running.saveReg {w v : Nat} (hr : Running L s g cur) (hw : IsReg w) :
    s.step L (.call (.saveReg w v)) = some { s with k := setTrapWord L s.k cur w v } ∧
      Running L { s with k := setTrapWord L s.k cur w v } g cur ∧
      TrapWords L s.k g (setTrapWord L s.k cur w v) := by
  have hlt : w < 1024 := by
    simp only [IsReg, tfEpc] at hw
    omega
  have hwords := setTrapWord_words (x := v) hr.inv.inv hr.live hlt
  refine ⟨?_, ⟨⟨hwords.inv hr.inv.inv, hr.inv.files.same hwords.grow.filesSame, hr.inv.tty⟩,
    hr.user, hr.current, hwords.live.mpr hr.live⟩, hwords⟩
  rw [hr.step_call]
  exact if_pos hw

/-- A process goes to sleep. -/
theorem Running.sleep (hr : Running L s g cur) (c : SavedRegs) :
    s.step L (.call (.sleep c)) = some { s with k := kprocYield L s.k cur c, user := false } ∧
      SysInv L { s with k := kprocYield L s.k cur c, user := false } g := by
  obtain ⟨hI, hf⟩ := (Effect.slept (r := c) hr.current hr.live).inv hr.inv.inv hr.inv.files
  exact ⟨by rw [hr.step_call]; rfl, hI, hf, hr.inv.tty⟩

/-- A process exits. -/
theorem Running.exit (hr : Running L s g cur) (c : SavedRegs) :
    s.step L (.call (.exit c)) = some { s with k := kprocFree L s.k cur c, user := false } ∧
      Released L cur s.k g (kprocFree L s.k cur c) ∧
      SysInv L { s with k := kprocFree L s.k cur c, user := false } (g.release L s.k cur) := by
  have hrel := kprocFree_spec (s := c) hr.inv.inv hr.live
  obtain ⟨hI, hf⟩ := (Effect.exited (r := c) hr.current hr.live hrel).inv hr.inv.inv hr.inv.files
  exact ⟨by rw [hr.step_call]; rfl, hrel, hI, hf, hr.inv.tty⟩

/-- The words `swtch` saves, all zero. -/
def zeroRegs : SavedRegs := ⟨List.replicate 13 0, rfl⟩

/-- The first process of the example system forks and goes to sleep, and the
child, in slot 1, executes. -/
theorem exampleChild (ok : Sys → Op → Prop) (h1 : ∀ s i, ok s (.schedule i))
    (h2 : ∀ s, ok s (.call .fork)) (h3 : ∀ s, ok s (.call (.sleep zeroRegs))) :
    ∃ s g s' g', SysReach exampleLayout ok s ∧ Entered exampleLayout exampleMem s g ∧
      SysReach exampleLayout ok s' ∧ Running exampleLayout s' g' 1 ∧ Live exampleLayout s'.k 0 ∧
      FsSame exampleLayout s.k s'.k ∧ pcb exampleLayout s'.k 1 .freeHeapPage = vaUserBase ∧
      12590 ≤ g'.free.length := by
  obtain ⟨s, g, hs, he, -⟩ := exampleEntered ok h1
  have hr := he.running
  have hcopy := copyCount_add_free_le hr.inv.inv.kmem (hr.inv.inv.proc 0 hr.live).leaves
  have hfree := he.exampleFree
  have hslot := freeSlot_one hr.live (he.others 1 (by decide) (by decide))
  obtain ⟨s1, k1, g1, hfork, hr1, -, hfk, hw1⟩ := hr.fork hslot (by omega)
  obtain ⟨hsleep, hI2⟩ := hr1.sleep zeroRegs
  have hpcb : ∀ f : PcbField, f.InStruct → (∀ r, f ≠ .context r) → ∀ i < 8,
      pcb exampleLayout (kprocYield exampleLayout s1.k 0 zeroRegs) i f =
        pcb exampleLayout k1 i f :=
    fun f hf hctx i hi => (pcb_yield (by decide) hi hf hctx).trans (hw1.pcb hi hf)
  have hstate : pcb exampleLayout (kprocYield exampleLayout s1.k 0 zeroRegs) 1 .state =
      ProcState.runnable.code := (hpcb .state trivial nofun 1 (by decide)).trans hfk.state
  obtain ⟨hsched, hr3, hw3⟩ := hI2.enter rfl (by decide) hstate
  have hfiles : FsSame exampleLayout s.k
      (enterSlot exampleLayout (kprocYield exampleLayout s1.k 0 zeroRegs) 1) := by
    have hf1 := hr.inv.step_fsSame (Op.safe_fork _ _) hfork
    have hf2 := hr1.inv.step_fsSame (show Op.Safe _ _ (.call (.sleep zeroRegs)) from
      fun _ _ => trivial) hsleep
    have hf3 := hI2.step_fsSame (show Op.Safe _ _ (.schedule 1) from trivial) hsched
    exact (hf1.trans hf2).trans hf3
  refine ⟨s, g, _, g1, hs, he, ((hs.step (h2 s) hfork).step (h3 s1) hsleep).step (h1 _ 1) hsched, hr3,
    hw3.live.mpr ⟨by decide, ?_⟩, hfiles, ?_, ?_⟩
  · have h0 := hfk.grow.pcb_other (f := .state) (show 0 < 8 by decide) trivial (by decide)
    have hlive : pcb exampleLayout s.k 0 .state ≠ ProcState.unused.code := hr.live.2
    rw [← h0, ← hpcb .state trivial nofun 0 (by decide)] at hlive
    exact hlive
  · refine (hw3.pcb (f := .freeHeapPage) (by decide) trivial).trans ?_
    refine (hpcb .freeHeapPage trivial nofun 1 (by decide)).trans ?_
    rw [hfk.field_eq .freeHeapPage trivial nofun nofun nofun nofun nofun nofun nofun,
      he.heap 1 (by decide)]
  · rw [hfk.free, List.length_drop]
    omega

/-! ## §3 Open files -/

/-- Descriptor `fd` has been opened on entry `n`, at the start of the file. -/
structure FileOpened (L : Layout) (cur fd n idx : Nat) (k k' : KState) : Prop where
  opened : pcb L k' cur (.openedFiles fd) = L.osFile n
  field : ∀ i < 8, ∀ f : PcbField, f.InStruct → (i = cur → f ≠ .openedFiles fd) →
    pcb L k' i f = pcb L k i f
  file : k'.load (osFsIdx (L.osFile n)) = idx
  start : k'.load (osRwpos (L.osFile n)) = 0
  entry : ∀ j < maxOsFiles, j ≠ n → ∀ o, o + 4 ≤ 12 →
    k'.load (L.osFile j + o) = k.load (L.osFile j + o)

theorem fileOpened_set (hi : cur < 8) (hfd : fd < 8) (hn : n < maxOsFiles) (hidx : idx < 12) :
    FileOpened L cur fd n idx k
      (setPcb L (setOsFile L k n 1 idx 0) cur (.openedFiles fd) (L.osFile n)) := by
  have hword : ∀ {j}, j < maxOsFiles → ∀ o, o + 4 ≤ 12 →
      (setPcb L (setOsFile L k n 1 idx 0) cur (.openedFiles fd) (L.osFile n)).load
        (L.osFile j + o) = (setOsFile L k n 1 idx 0).load (L.osFile j + o) :=
    fun hj o ho => osFile_setPcb (f := .openedFiles fd) hj ho hi hfd
  obtain ⟨-, hfile, hpos⟩ := osFile_setOsFile_same (L := L) k n (show 1 < 2 ^ 32 by omega)
    (show idx < 2 ^ 32 by omega) (show 0 < 2 ^ 32 by omega)
  refine ⟨pcb_setPcb_same (L.osFile_lt hn), fun i hi' f hf hne => ?_,
    (hword hn 8 (by omega)).trans hfile, (hword hn 4 (by omega)).trans hpos, fun j hj hjn o ho => ?_⟩
  · by_cases hic : i = cur
    · rw [hic, pcb_setPcb_of_ne_field (g := .openedFiles fd) hf hfd (hne hic),
        pcb_setOsFile hn hi hf]
    · rw [pcb_setPcb_of_ne_slot (g := .openedFiles fd) hf hfd hic, pcb_setOsFile hn hi' hf]
  · exact (hword hj o ho).trans (osFile_setOsFile_of_ne ho hjn)

theorem FileOpened.words {k'' : KState} (h : FileOpened L cur fd n idx k k')
    (hw : TrapWords L k' g k'') (hi : cur < 8) (hfd : fd < 8) (hn : n < maxOsFiles) :
    FileOpened L cur fd n idx k k'' := by
  have hs := hw.grow.filesSame
  refine ⟨?_, fun i hi' f hf hne => (hw.pcb hi' hf).trans (h.field i hi' f hf hne), ?_, ?_,
    fun j hj hjn o ho => (hs.load_osFile hj ho).trans (h.entry j hj hjn o ho)⟩
  · rw [hw.pcb (f := .openedFiles fd) hi hfd]
    exact h.opened
  · exact (hs.load_osFile (o := 8) hn (by omega)).trans h.file
  · exact (hs.load_osFile (o := 4) hn (by omega)).trans h.start

/-- A process opens a file when there are an entry and a descriptor for it. -/
theorem Running.openFile {path : List UInt8} (hr : Running L s g cur) (hpath : 0 ∉ path)
    (hfile : filesystemLocateFile L s.k path ≠ 0xFFFFFFFF)
    (hentry : ∃ n < maxOsFiles, s.k.load (osInUse (L.osFile n)) = 0)
    (hfd : ∃ fd, 3 ≤ fd ∧ fd < 8 ∧ pcb L s.k cur (.openedFiles fd) = 0) :
    ∃ s' n fd, s.step L (.call (.openFile path)) = some s' ∧ Running L s' g cur ∧
      (n < maxOsFiles ∧ s.k.load (osInUse (L.osFile n)) = 0 ∧
        ∀ j < n, s.k.load (osInUse (L.osFile j)) ≠ 0) ∧
      (3 ≤ fd ∧ fd < 8 ∧ pcb L s.k cur (.openedFiles fd) = 0 ∧
        ∀ fd', 3 ≤ fd' → fd' < fd → pcb L s.k cur (.openedFiles fd') ≠ 0) ∧
      FileOpened L cur fd n (filesystemLocateFile L s.k path) s.k s'.k := by
  have hi := hr.live.1
  have hstep := hr.step_call (.openFile path)
  simp only [Sys.call, if_pos hpath] at hstep
  have hout := filesystemFileOpen_outcome (L := L) s.k path hi
  generalize filesystemFileOpen L s.k cur path = out at *
  obtain ⟨ret, k'⟩ := out
  replace hout : OpenOutcome L s.k cur path ret k' := hout
  simp only at *
  cases hout with
  | noFile hnone => exact absurd hnone hfile
  | noEntry hf hidx hnone =>
    obtain ⟨n, hn, hfree⟩ := hentry
    exact absurd hfree (hnone n hn)
  | noDescriptor hf hidx hn hfree hfirst hfull =>
    obtain ⟨fd, h3, h8, hnull⟩ := hfd
    exact absurd hnull (hfull fd h3 h8)
  | @opened idx n _ hf hidx hn hfree hfirst h3 h8 hnull hlow =>
    have he : Effect L s.k g (.call (.openFile path)) _ g :=
      .opened hr.current hr.live hidx hf hn hfree h3 h8 hnull
    have hset := fileOpened_set (L := L) (k := s.k) hi h8 hn hidx
    have hI1 := (he.inv hr.inv.inv hr.inv.files).1
    have hlive1 : Live L (setPcb L (setOsFile L s.k n 1 idx 0) cur (.openedFiles ret)
        (L.osFile n)) cur := ⟨hi, by
      rw [hset.field cur hi .state trivial (by simp)]
      exact hr.live.2⟩
    have hw := returnValue_words ret hI1 hlive1
    rw [hf]
    exact ⟨_, n, ret, hstep, ⟨hr.inv.after he hw rfl, hr.user, hr.current, hw.live.mpr hlive1⟩,
      ⟨hn, hfree, hfirst⟩, ⟨h3, h8, hnull, hlow⟩, hset.words hw hi h8 hn⟩

/-- The shell, after it has opened the file `path` `n` times. -/
structure HasOpened (L : Layout) (m : Mem) (path : List UInt8) (n : Nat) (s : Sys) (g : Ghost) :
    Prop where
  running : Running L s g 0
  files : FsSame L (KState.init m) s.k
  entries : ∀ fd, 3 ≤ fd → fd < 3 + n → ∃ j < maxOsFiles,
    pcb L s.k 0 (.openedFiles fd) = L.osFile j ∧
      s.k.load (osFsIdx (L.osFile j)) = filesystemLocateFile L (KState.init m) path ∧
      s.k.load (osRwpos (L.osFile j)) = 0
  unused : ∀ fd, 3 + n ≤ fd → fd < 8 → pcb L s.k 0 (.openedFiles fd) = 0
  free : ∀ j, n ≤ j → j < maxOsFiles → s.k.load (osInUse (L.osFile j)) = 0
  others : ∀ i < 8, i ≠ 0 → pcb L s.k i .state = ProcState.unused.code

theorem HasOpened.used {path : List UInt8} (h : HasOpened L m path n s g) (h3 : 3 ≤ fd)
    (hfd : fd < 3 + n) : pcb L s.k 0 (.openedFiles fd) ≠ 0 := by
  obtain ⟨j, -, hentry, -⟩ := h.entries fd h3 hfd
  rw [hentry]
  exact L.osFile_ne_zero j

theorem Entered.hasOpened {path : List UInt8} (he : Entered L m s g) : HasOpened L m path 0 s g :=
  ⟨he.running, he.files, fun _ _ _ => by omega, fun fd _ hfd => he.opened 0 (by decide) fd hfd,
    fun j _ hj => he.osFiles j hj, he.others⟩

/-- One more `open` succeeds as long as there is a descriptor for it. -/
theorem HasOpened.step {path : List UInt8} (h : HasOpened L m path n s g) (hn : n < 5)
    (hpath : 0 ∉ path) (hlen : path.length < maxFilesize)
    (hfile : filesystemLocateFile L (KState.init m) path ≠ 0xFFFFFFFF) :
    ∃ s', s.step L (.call (.openFile path)) = some s' ∧ HasOpened L m path (n + 1) s' g := by
  have hlocate := filesystemLocateFile_congr h.files hlen
  have hn100 : n < maxOsFiles := by
    simp only [maxOsFiles]
    omega
  have hnull := h.unused (3 + n) le_rfl (by omega)
  obtain ⟨s', n', fd', hstep, hr', ⟨hn', hfree', hfirst⟩, ⟨h3, h8, hnull', hlow⟩, hop⟩ :=
    h.running.openFile hpath (by rwa [hlocate]) ⟨n, hn100, h.free n le_rfl hn100⟩
      ⟨3 + n, by omega, by omega, hnull⟩
  have hfs' := h.running.inv.step_fsSame
    (show (Op.call (.openFile path)).Safe L s from fun _ _ => trivial) hstep
  -- the descriptor and the entry are the first free ones
  obtain rfl : fd' = 3 + n := by
    have h1 : ¬ fd' < 3 + n := fun hlt => h.used h3 hlt hnull'
    have h2 : ¬ 3 + n < fd' := fun hlt => hlow (3 + n) (by omega) hlt hnull
    omega
  have hle : n' ≤ n := by
    by_contra hlt
    exact hfirst n (by omega) (h.free n le_rfl hn100)
  refine ⟨s', hstep, hr', h.files.trans hfs', fun fd h3' hlt => ?_, fun fd h3' hlt => ?_,
    fun j hj hlt => ?_, fun i hi hne => ?_⟩
  · by_cases hfd : fd = 3 + n
    · rw [hfd]
      exact ⟨n', hn', hop.opened, hop.file.trans hlocate, hop.start⟩
    · obtain ⟨j, hj, hentry, hidx, hpos⟩ := h.entries fd h3' (by omega)
      have hjn : j ≠ n' := by
        rintro rfl
        have hopen := h.running.inv.files.openFile 0 (by decide) fd (by omega)
          (h.used h3' (by omega))
        rw [hentry] at hopen
        exact hopen.inUse hfree'
      refine ⟨j, hj, ?_, (hop.entry j hj hjn 8 (by omega)).trans hidx,
        (hop.entry j hj hjn 4 (by omega)).trans hpos⟩
      rw [hop.field 0 (by decide) (.openedFiles fd) (show fd < 8 by omega) (by simpa using hfd),
        hentry]
  · rw [hop.field 0 (by decide) (.openedFiles fd) hlt (by simp; omega)]
    exact h.unused fd (by omega) hlt
  · exact (hop.entry j hlt (by omega) 0 (by omega)).trans (h.free j (by omega) hlt)
  · rw [hop.field i hi .state trivial nofun]
    exact h.others i hi hne

theorem examplePath_length : examplePath.length < maxFilesize := by
  simp [examplePath, maxFilesize]

/-- The example's file can be opened. -/
theorem HasOpened.exampleStep (h : HasOpened exampleLayout exampleMem examplePath n s g)
    (hn : n < 5) : ∃ s', s.step exampleLayout (.call (.openFile examplePath)) = some s' ∧
      HasOpened exampleLayout exampleMem examplePath (n + 1) s' g := by
  refine h.step hn (by decide) examplePath_length ?_
  rw [examplePath_locate]
  decide

theorem exampleFile_head :
    (KState.init exampleMem).load (exampleLayout.fsSize 2) = 92 ∧
      (KState.init exampleMem).mem (exampleLayout.fsData 2) = 0x7F := by
  decide +kernel

end Risky321.Kernel
