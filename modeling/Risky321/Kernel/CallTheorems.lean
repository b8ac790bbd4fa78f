/-
Risky321.Kernel.CallTheorems — calls on memory and descriptors are calls of
the world.

For each call that a process makes for itself: the world after the kernel has
handled it is the one that `World.Called` says, for a process that executes
(`runView`). The loaders, the end of a process and `fork` are in
`LifeTheorems.lean`.

§1 registers and pages, §2 open and close, §3 read.
-/
import Risky321.Kernel.ViewTheorems

namespace Risky321.Kernel

open Risky321.Lib

variable {L : Layout} {k k' k1 : KState} {g g' : Ghost} {i j cur fd n idx w v va buf size : Nat}
  {s s' : Sys} {op : Op} {p : Process} {c : UInt8} {path : List UInt8} {argv : List (List UInt8)}

/-! ## §1 Registers and pages -/

theorem World.set_eq_self {u : World} {o : Option Process} (h : u.procs i = o) : u.set i o = u := by
  rw [← h, World.set, Function.update_eq_self]

theorem runView_congr {q : Process} (h : procView L k cur = q) :
    runView L k cur = { q with sleeping := false } := by
  rw [runView, h]

/-- A register before the trap. -/
theorem called_saveReg (h : SysInv L s g) (hlive : Live L s.k cur) (hrun : s.running = some cur)
    (hs : s.call L cur (.saveReg w v) = some s') :
    (s.world L).Called cur (runView L s.k cur) (.saveReg w v) (s'.world L) := by
  simp only [Sys.call] at hs
  by_cases hw : IsReg w
  · rw [if_pos hw, Option.some.injEq] at hs
    have hwords : TrapWords L s.k g (setTrapWord L s.k cur w v) :=
      setTrapWord_words h.inv hlive hw.lt.1
    have hd := (h.callDone hlive).words hwords (touch_setTrapWord h.inv hlive hw.lt.1)
    rw [← hs, hd.world_same h.files hrun hwords.filesSame
      (runView_congr (procView_setTrapWord h.inv hlive hw))]
    exact .saved hw
  · rw [if_neg hw] at hs
    cases hs

/-- The invariants, after stores to the pages of slot `cur`. -/
theorem CallDone.stores (h : SysInv L s g) (hlive : Live L s.k cur)
    (hk : KmemInv L k1 g) (hg : Grow L (Role.LeafOf (.proc cur)) (fun _ => False) s.k g k1 g) :
    CallDone L s cur k1 g where
  inv := h.inv.pageWrites (fun _ _ h => h.not_table) hk hg
  files := h.files.same hg.filesSame
  live := hg.live hlive
  current := hg.current
  others := (Grow.touch (hg.mono (fun _ hc => hc.of) (fun _ hx => hx.elim))).othersKept h.inv
  fs := hg.filesSame.fsSame

theorem runView_has (hu : UserPage L k cur va) (hva : va < 2 ^ 32) : (runView L k cur).Has va 1 := by
  intro j hj
  obtain ⟨e, he, hU⟩ := hu
  have hlt : va / pageSize < 2 ^ 20 := by
    simp only [pageSize]
    omega
  obtain rfl : j = 0 := by omega
  simp only [runView, procView]
  rw [Nat.add_zero, Nat.mod_eq_of_lt hva, if_pos hlt, userPage_some he hU]
  rfl

/-- A store of the program. -/
theorem called_userStore (h : SysInv L s g) (hlive : Live L s.k cur) (hrun : s.running = some cur)
    (hs : s.call L cur (.userStore va c) = some s') :
    (s.world L).Called cur (runView L s.k cur) (.userStore va c) (s'.world L) := by
  simp only [Sys.call] at hs
  by_cases hc : va < 2 ^ 32 ∧ userWritable L s.k cur va = true
  · rw [if_pos hc, Option.map_eq_some_iff] at hs
    obtain ⟨k1, hst, rfl⟩ := hs
    obtain ⟨hva, hw⟩ := hc
    have hu : UserPage L s.k cur va := userPage_of_writable hw
    obtain ⟨hk, hg⟩ := storeByte_user h.inv.kmem (h.inv.proc cur hlive) hva hu hst
    obtain ⟨-, hv⟩ := storeByte_view h.inv hlive hva hu hst
    rw [(CallDone.stores h hlive hk hg).world_same h.files hrun hg.filesSame (runView_congr hv)]
    exact .stored (runView_has hu hva)
  · rw [if_neg hc] at hs
    cases hs

/-- `write` changes nothing. -/
theorem called_write {data : Nat} (h : SysInv L s g) (hlive : Live L s.k cur)
    (hrun : s.running = some cur) (hs : s.call L cur (.write fd data size) = some s') :
    (s.world L).Called cur (runView L s.k cur) (.write fd data size) (s'.world L) := by
  simp only [Sys.call] at hs
  by_cases hc : fd < 2 ^ 32 ∧ data < 2 ^ 32 ∧ size < 2 ^ 32
  · rw [if_pos hc, Option.map_eq_some_iff] at hs
    obtain ⟨-, -, rfl⟩ := hs
    rw [(h.callDone hlive).toUser_same h.files hrun (.refl s.k) rfl,
      World.set_eq_self (procsView_running hlive hrun)]
    exact .wrote
  · rw [if_neg hc] at hs
    cases hs

theorem loadBytes_page {m m' : Mem} {a : Nat} (h : ∀ x < 4096, m' (a + x) = m (a + x)) :
    loadBytes m' a pageSize = loadBytes m a pageSize := by
  refine loadBytes_congr fun x h1 h2 => ?_
  have hx := h (x - a) (by
    simp only [pageSize] at h2
    omega)
  rwa [Nat.add_sub_cancel' h1] at hx

theorem loadBytes_zero {m : Mem} {a : Nat} (h : ∀ x < 4096, m (a + x) = 0) :
    loadBytes m a pageSize = List.replicate pageSize 0 := by
  refine List.ext_getElem (by simp) fun x h1 h2 => ?_
  rw [List.getElem_replicate]
  simp only [length_loadBytes, pageSize] at h1
  simpa [loadBytes] using h x h1

/-- The entry of a heap page. -/
theorem heapEntry {q : Nat} (hq : L.IsPage q) :
    (q / 4 + 23) &&& pteU ≠ 0 ∧ (q / 4 + 23) % 1024 = 23 ∧ pteAddr (q / 4 + 23) = q := by
  have h3 := hq.2.2
  refine ⟨?_, by omega, pteAddr_page hq (by omega)⟩
  rw [and_sixteen_ne_zero]
  omega

/-- A page of zeros. -/
theorem PageAdded.view {q : Nat} (h : PageAdded L cur k g q k' g') (hI : Inv L k g)
    (hlive : Live L k cur) :
    procView L k' cur = (procView L k cur).addPage (pcb L k cur .freeHeapPage / pageSize) := by
  have hp := hI.proc cur hlive
  have hctx : (PcbField.context 0).InStruct := by decide
  have hpt : pcb L k' cur .pagetable = pcb L k cur .pagetable := h.field_eq _ trivial (by simp)
  have htf : pcb L k' cur .trapframe = pcb L k cur .trapframe := h.field_eq _ trivial (by simp)
  have hlt : pcb L k cur .freeHeapPage / pageSize < 2 ^ 20 := by
    have := (hI.heap cur hlive.1).lt
    have hstack : vaUserStack = 0xFFFFE000 := rfl
    simp only [pageSize] at *
    omega
  refine procView_eq (fun w hw => ?_) (fun w hw => if_neg hw) (fun v hv => ?_) (fun v hv => ?_) ?_
  · refine (trapWord_grow h.grow hI.kmem hp.trapframe ?_ htf hw.lt.1).trans (if_pos hw).symm
    exact fun hc => hc.elim
  · simp only [Process.addPage, procView]
    by_cases hvv : v = pcb L k cur .freeHeapPage / pageSize
    · obtain ⟨hU, haddr⟩ := heapEntry h.page
      have hwalk := h.walk_eq v hv
      rw [if_pos hvv, ← hpt] at hwalk
      rw [userPage_some hwalk hU, hvv, Function.update_self, haddr.1, haddr.2,
        loadBytes_zero h.zero]
    · rw [Function.update_of_ne hvv, if_pos hv]
      have hwalk := h.walk_eq v hv
      rw [if_neg hvv] at hwalk
      unfold userPage
      rw [hpt, hwalk]
      cases he : walk k.mem (pcb L k cur .pagetable) v with
      | none => rfl
      | some e =>
        by_cases hU : e &&& pteU ≠ 0
        · simp only [if_pos hU]
          refine congrArg (fun bs => some (e % 1024, bs)) (loadBytes_page fun x hx => ?_)
          exact h.leaf_bytes _ v hvv (hp.leaves v hv e he hU) x hx
        · simp only [if_neg hU]
  · have hvv : v ≠ pcb L k cur .freeHeapPage / pageSize := by
      rintro rfl
      exact hv hlt
    exact (Function.update_of_ne hvv ..).trans (if_neg hv)
  · rw [h.field_eq _ hctx (by simp)]
    rfl

theorem PageAdded.done {q : Nat} (h : PageAdded L cur s.k g q k' g') (hI : Inv L k' g')
    (hs : SysInv L s g) (hlive : Live L s.k cur) (hcur : k'.current = s.k.current) :
    CallDone L s cur k' g' where
  inv := hI
  files := hs.files.same (h.filesSame hlive.1)
  live := ⟨hlive.1, by
    rw [h.field_eq .state trivial (by simp)]
    exact hlive.2⟩
  current := hcur
  others := (Grow.touch (h.grow.mono (fun _ hc => hc.of) fun _ hx => hx)).othersKept hs.inv
  fs := (h.filesSame hlive.1).fsSame

theorem called_sbrk (h : SysInv L s g) (hlive : Live L s.k cur) (hrun : s.running = some cur)
    (hs : s.call L cur .sbrk = some s') :
    (s.world L).Called cur (runView L s.k cur) .sbrk (s'.world L) := by
  obtain ⟨⟨ret, k'⟩, hadd, rfl⟩ := Option.map_eq_some_iff.mp hs
  obtain ⟨rfl, q, g', hq, hI'⟩ := kprocAddPage_inv h.inv hlive hadd
  have hd := hq.done hI' h hlive hq.grow.current
  rw [hd.returns_same h.files hrun (hq.filesSame hlive.1) (runView_congr (hq.view h.inv hlive))]
  exact .grown (h.inv.heap cur hlive.1).lt.2.2

/-! ## §2 Open and close -/

/-- One descriptor was opened, closed or moved. -/
theorem fdView_update {o : Option (Nat × Nat)} (hcur : fdView L k' cur fd = o)
    (hop : ∀ i < 8, ∀ fd' < 8, ¬ (i = cur ∧ fd' = fd) →
      pcb L k' i (.openedFiles fd') = pcb L k i (.openedFiles fd'))
    (hs : OpenSame L k k' fun i fd' => i = cur ∧ fd' = fd) :
    fdView L k' = Function.update (fdView L k) cur (Function.update (fdView L k cur) fd o) := by
  funext i fd'
  by_cases hT : i = cur ∧ fd' = fd
  · rw [hT.1, hT.2, Function.update_self, Function.update_self, hcur]
  · have hright : Function.update (fdView L k) cur (Function.update (fdView L k cur) fd o) i fd' =
        fdView L k i fd' := by
      by_cases hi : i = cur
      · rw [hi, Function.update_self, Function.update_of_ne fun h => hT ⟨hi, h⟩]
      · rw [Function.update_of_ne hi]
    rw [hright]
    exact fdView_congr (fun hi hfd => hop i hi fd' hfd hT) fun hi hfd hne =>
      (hs i hi fd' hfd hT (by rwa [hop i hi fd' hfd hT])).2

theorem fdView_open (hi : cur < 8) (hfd : fd < 8) (hne : pcb L k cur (.openedFiles fd) ≠ 0) :
    fdView L k cur fd = some (k.load (osFsIdx (pcb L k cur (.openedFiles fd))),
      k.load (osRwpos (pcb L k cur (.openedFiles fd)))) :=
  if_pos ⟨hi, hfd, hne⟩

theorem fdView_closed (hnull : pcb L k cur (.openedFiles fd) = 0) : fdView L k cur fd = none :=
  if_neg fun h => h.2.2 hnull

/-- Then static data, in the control blocks descriptors only. -/
theorem CallDone.static (h : CallDone L s cur k1 g) (hI : Inv L k' g) (hf : FilesInv L k')
    (hu : Untracked L k1 k') (hctx : ∀ i < 8, pcb L k' i (.context 0) = pcb L k1 i (.context 0))
    (hcur : k'.current = k1.current) (hfs : FsSame L k1 k') :
    CallDone L s cur k' g ∧ runView L k' cur = runView L k1 cur := by
  obtain ⟨ho, hv⟩ := OthersKept.of_static cur h.inv hu hctx
  refine ⟨⟨hI, hf, ⟨h.live.1, ?_⟩, hcur.trans h.current, h.others.trans ho, h.fs.trans hfs⟩,
    runView_congr (hv h.live)⟩
  rw [hu.field cur h.live.1 .state trivial ⟨nofun, nofun⟩]
  exact h.live.2

theorem context_inStruct : (PcbField.context 0).InStruct := by decide

theorem fsSame_setOsFile {inUse pos : Nat} (hn : n < maxOsFiles) :
    FsSame L k (setOsFile L k n inUse idx pos) :=
  fun _ hx => setOsFile_outside hn hx.apart.2.2

theorem fsSame_setPcb {f : PcbField} (hi : i < 8) (hf : f.InStruct) : FsSame L k (setPcb L k i f v) :=
  fun _ hx => setPcb_outside hi hf hx.apart.2.1

theorem fsSame_setPosition {h pos : Nat} (ho : OpenFile L k h) :
    FsSame L k1 (k1.store (osRwpos h) pos) := by
  obtain ⟨n, hn, rfl⟩ := ho.handle
  intro x hx
  have hos := hx.apart.2.2
  refine store32_outside _ _ _ ?_
  simp only [Layout.InOsFiles, osRwpos, Layout.osFile, maxOsFiles, sizeofOsFile] at *
  omega

theorem findView_eq (hfile : filesystemLocateFile L k path = idx) (hidx : idx < 12) :
    path.length < maxFilesize → findView L k path = some idx := by
  intro hlen
  rw [findView, hfile, if_pos ⟨hlen, hidx⟩]

/-- An entry for the file was taken, and no descriptor. -/
theorem opened_leak (idx : Nat) (h : SysInv L s g) (hlive : Live L s.k cur) (hn : n < maxOsFiles)
    (hfree : s.k.load (osInUse (L.osFile n)) = 0) :
    CallDone L s cur (setOsFile L s.k n 1 idx 0) g ∧
      runView L (setOsFile L s.k n 1 idx 0) cur = runView L s.k cur ∧
      fdView L (setOsFile L s.k n 1 idx 0) = fdView L s.k := by
  obtain ⟨hI, hf⟩ := openLeak_inv idx h.inv h.files hn hfree
  obtain ⟨hd, hv⟩ := (h.callDone hlive).static hI hf (untracked_setOsFile 1 idx 0 hn)
    (fun j hj => pcb_setOsFile hn hj context_inStruct) rfl (fsSame_setOsFile hn)
  refine ⟨hd, hv, funext fun i => funext fun fd => ?_⟩
  refine fdView_congr (fun hi hfd => pcb_setOsFile (f := .openedFiles fd) hn hi hfd)
    fun hi hfd hne => ?_
  have hs : OpenSame L s.k (setOsFile L s.k n 1 idx 0) fun _ _ => False :=
    openSame_setOsFile h.files hn (fun _ hj _ hfd => h.files.not_opened hfree hj hfd)
  refine (hs i hi fd hfd id ?_).2
  rwa [pcb_setOsFile (f := .openedFiles fd) hn hi hfd]

/-- Then the descriptor `fd`. -/
theorem opened_view (hlive : Live L s.k cur) (hidx : idx < 12) (h : SysInv L s g)
    (hn : n < maxOsFiles) (hfree : s.k.load (osInUse (L.osFile n)) = 0) (h3 : 3 ≤ fd) (h8 : fd < 8)
    (hk1 : k1 = setPcb L (setOsFile L s.k n 1 idx 0) cur (.openedFiles fd) (L.osFile n)) :
    CallDone L s cur k1 g ∧ runView L k1 cur = runView L s.k cur ∧
      fdView L k1 = Function.update (fdView L s.k) cur
        (Function.update (fdView L s.k cur) fd (some (idx, 0))) := by
  have hi : cur < 8 := hlive.1
  have hf8 : (PcbField.openedFiles fd).InStruct := h8
  obtain ⟨hI, hf⟩ := openFile_inv h.inv h.files hi hidx hn hfree h3 h8
  have hu := (untracked_setOsFile (L := L) (k := s.k) 1 idx 0 hn).trans
    (untracked_setOpenedFile (v := L.osFile n) hi h8)
  have hop : ∀ j < 8, ∀ fd' < 8, pcb L k1 j (.openedFiles fd') =
      if j = cur ∧ fd' = fd then L.osFile n else pcb L s.k j (.openedFiles fd') := by
    intro j hj fd' hfd'
    rw [hk1, opened_setPcb h8 hfd' (L.osFile_lt hn),
      pcb_setOsFile (f := .openedFiles fd') hn hj hfd']
  have hctx : ∀ j < 8, pcb L k1 j (.context 0) = pcb L s.k j (.context 0) := by
    intro j hj
    rw [hk1, pcb_setPcb_of_ne context_inStruct hf8 (by simp), pcb_setOsFile hn hj context_inStruct]
  have hos := openSame_opened idx h.files hi hn h8 hfree
  rw [← hk1] at hI hf hu hos
  obtain ⟨hd, hv⟩ := (h.callDone hlive).static hI hf hu hctx (by rw [hk1]; rfl) (by
    rw [hk1]
    exact (fsSame_setOsFile hn).trans (fsSame_setPcb hi hf8))
  refine ⟨hd, hv, fdView_update ?_ (fun j hj fd' hfd' hT => ?_) hos⟩
  · have hcur := hop cur hi fd h8
    rw [if_pos ⟨rfl, rfl⟩] at hcur
    rw [fdView_open hi h8 (by rw [hcur]; exact L.osFile_ne_zero n), hcur]
    -- the entry holds the index and the position 0
    obtain ⟨-, h1, h2⟩ := osFile_setOsFile_same (L := L) s.k n (show 1 < 2 ^ 32 by omega)
      (show idx < 2 ^ 32 by omega) (show 0 < 2 ^ 32 by omega)
    obtain ⟨h3, h4⟩ : EntrySame (setOsFile L s.k n 1 idx 0) k1 (L.osFile n) := by
      rw [hk1]
      exact entrySame_setPcb hn hi hf8
    rw [h3, h4, h1, h2]
  · rw [hop j hj fd' hfd', if_neg hT]

/-- An entry for the file was taken, and perhaps the first free descriptor. -/
theorem called_open (h : SysInv L s g) (hlive : Live L s.k cur) (hrun : s.running = some cur)
    (hs : s.call L cur (.openFile path) = some s') :
    (s.world L).Called cur (runView L s.k cur) (.openFile path) (s'.world L) := by
  simp only [Sys.call] at hs
  by_cases hnul : 0 ∉ path
  · rw [if_pos hnul, Option.some.injEq] at hs
    rw [← hs]
    have hi : cur < 8 := hlive.1
    have hout := filesystemFileOpen_outcome (L := L) s.k path hi
    generalize (filesystemFileOpen L s.k cur path).1 = ret at *
    generalize (filesystemFileOpen L s.k cur path).2 = k1 at *
    cases hout with
    | noFile | noEntry =>
      rw [(h.callDone hlive).returns_same h.files hrun (.refl s.k) rfl]
      exact .openFailed
    | @noDescriptor idx n hfile hidx hn hfree hfirst hfull =>
      obtain ⟨hd, hv, hfd⟩ := opened_leak idx h hlive hn hfree
      rw [hd.returns h.files hrun, hv, hfd]
      exact .openFailed
    | @opened idx n fd hfile hidx hn hfree hfirst h3 h8 hnull hlow =>
      obtain ⟨hd, hv, hfd⟩ := opened_view hlive hidx h hn hfree h3 h8 rfl
      rw [hd.returns h.files hrun, hv, hfd]
      refine .opened (findView_eq hfile hidx) ⟨h3, h8, fdView_closed hnull, ?_⟩
      intro fd' h1 h2
      exact (fdView_open hi (by omega) (hlow fd' h1 h2)).trans_ne (Option.some_ne_none _)
  · rw [if_neg hnul] at hs
    cases hs

/-- The descriptor `fd` and its entry were given up. -/
theorem closed_view (hlive : Live L s.k cur) (h : SysInv L s g) (hn : n < maxOsFiles) (h8 : fd < 8)
    (hentry : pcb L s.k cur (.openedFiles fd) = L.osFile n) {k1 : KState}
    (hk1 : k1 = setOsFile L (setPcb L s.k cur (.openedFiles fd) 0) n 0 0xFFFFFFFF 0) :
    CallDone L s cur k1 g ∧ runView L k1 cur = runView L s.k cur ∧
      fdView L k1 = Function.update (fdView L s.k) cur
        (Function.update (fdView L s.k cur) fd none) := by
  have hi : cur < 8 := hlive.1
  have hf8 : (PcbField.openedFiles fd).InStruct := h8
  obtain ⟨hI, hf⟩ := closeFile_inv h.inv h.files hi h8 hn hentry
  have hu := (untracked_setOpenedFile (L := L) (k := s.k) (v := 0) hi h8).trans
    (untracked_setOsFile 0 0xFFFFFFFF 0 hn)
  have hop : ∀ j < 8, ∀ fd' < 8, pcb L k1 j (.openedFiles fd') =
      if j = cur ∧ fd' = fd then 0 else pcb L s.k j (.openedFiles fd') := by
    intro j hj fd' hfd'
    rw [hk1, pcb_setOsFile (f := .openedFiles fd') hn hj hfd', opened_setPcb h8 hfd' (by omega)]
  have hctx : ∀ j < 8, pcb L k1 j (.context 0) = pcb L s.k j (.context 0) := by
    intro j hj
    rw [hk1, pcb_setOsFile hn hj context_inStruct, pcb_setPcb_of_ne context_inStruct hf8 (by simp)]
  have hos := openSame_closed (T := fun i fd' => i = cur ∧ fd' = fd) h.files hi hn h8 hentry
  rw [← hk1] at hI hf hu hos
  obtain ⟨hd, hv⟩ := (h.callDone hlive).static hI hf hu hctx (by rw [hk1]; rfl) (by
    rw [hk1]
    exact (fsSame_setPcb hi hf8).trans (fsSame_setOsFile hn))
  refine ⟨hd, hv, fdView_update (fdView_closed ?_) (fun j hj fd' hfd' hT => ?_) hos⟩
  · rw [hop cur hi fd h8, if_pos ⟨rfl, rfl⟩]
  · rw [hop j hj fd' hfd', if_neg hT]

theorem called_close (h : SysInv L s g) (hlive : Live L s.k cur) (hrun : s.running = some cur)
    (hfd : fd < maxOpenFiles) (hs : s.call L cur (.close fd) = some s') :
    (s.world L).Called cur (runView L s.k cur) (.close fd) (s'.world L) := by
  have h8 : fd < 8 := hfd
  simp only [Sys.call] at hs
  rw [if_pos (by omega), Option.map_eq_some_iff] at hs
  obtain ⟨⟨ret, k1⟩, hclose, rfl⟩ := hs
  by_cases h3 : fd < 3
  · rw [filesystemFileClose, if_pos h3, Option.some.injEq, Prod.mk.injEq] at hclose
    obtain ⟨rfl, rfl⟩ := hclose
    rw [(h.callDone hlive).returns_same h.files hrun (.refl s.k) rfl]
    exact .closeStandard h3
  · obtain ⟨hnull, heq⟩ | ⟨n, hn, hentry, heq⟩ :=
      filesystemFileClose_spec h.inv h.files hlive (by omega) h8
    · rw [hclose, Option.some.injEq, Prod.mk.injEq] at heq
      obtain ⟨rfl, rfl⟩ := heq
      rw [(h.callDone hlive).returns_same h.files hrun (.refl s.k) rfl]
      exact .closeFailed (by omega) (fdView_closed hnull)
    · rw [hclose, Option.some.injEq, Prod.mk.injEq] at heq
      obtain ⟨rfl, hk1⟩ := heq
      obtain ⟨hd, hv, hfds⟩ := closed_view hlive h hn h8 hentry hk1
      rw [hd.returns h.files hrun, hv, hfds]
      refine .closed (fdView_open hlive.1 h8 ?_)
      rw [hentry]
      exact L.osFile_ne_zero n

/-! ## §3 Read -/

/-- Bytes behind `p` of what is at `a`. -/
theorem loadBytes_slice (m : Mem) (a n p q : Nat) :
    ((loadBytes m a n).drop p).take q = loadBytes m (a + p) (min q (n - p)) := by
  refine List.ext_getElem (by simp) fun x h1 h2 => ?_
  simp only [loadBytes, List.getElem_take, List.getElem_drop, List.getElem_map, List.getElem_range,
    Nat.add_assoc]

/-- What `filesystem_file_read` delivers, as a part of the file. -/
theorem fileBytes_eq (L : Layout) (k : KState) (h size : Nat) (hidx : k.load (osFsIdx h) < 12) :
    fileBytes L k h size =
      ((dataView L k (k.load (osFsIdx h))).drop (k.load (osRwpos h))).take size := by
  rw [dataView, if_pos hidx, fileData, loadBytes_slice]
  rfl

theorem Process.storeAll_sleeping (p : Process) (b : Bool) (va : Nat) (cs : List UInt8) :
    Process.storeAll { p with sleeping := b } va cs = { p.storeAll va cs with sleeping := b } := by
  induction cs generalizing p va with
  | nil => rfl
  | cons c cs ih => exact ih (p.store va c) _

/-- A buffer of the process was filled. -/
theorem CallDone.filled {bytes : List UInt8} (h : SysInv L s g) (hlive : Live L s.k cur)
    (hbuf : buf < 2 ^ 32) (hok : BufferOk L s.k cur pteW buf bytes.length)
    (hst : storeBuf L cur buf bytes s.k = some k1) :
    CallDone L s cur k1 g ∧ runView L k1 cur = (runView L s.k cur).storeAll buf bytes ∧
      (runView L s.k cur).Has buf bytes.length ∧ FilesSame L s.k k1 ∧
      KmemInv L k1 g ∧ Grow L (Role.LeafOf (.proc cur)) (fun _ => False) s.k g k1 g := by
  obtain ⟨hk1, hg1⟩ := storeBuf_spec _ h.inv.kmem (h.inv.proc cur hlive) hlive.1 hbuf hok hst
  obtain ⟨-, hv, hhas⟩ := storeBuf_view bytes h.inv hlive hbuf hok hst
  refine ⟨.stores h hlive hk1 hg1, ?_, hhas, hg1.filesSame, hk1, hg1⟩
  rw [runView_congr hv]
  exact (Process.storeAll_sleeping (procView L s.k cur) false buf bytes).symm

/-- Then the position of the descriptor moved on. -/
theorem CallDone.position {pos : Nat} (h : SysInv L s g) (hd : CallDone L s cur k1 g)
    (hs : FilesSame L s.k k1) (h8 : fd < 8) (hne : pcb L s.k cur (.openedFiles fd) ≠ 0)
    (ho : OpenFile L s.k (pcb L s.k cur (.openedFiles fd)))
    (hpos : pos ≤ s.k.load (L.fsSize (s.k.load (osFsIdx (pcb L s.k cur (.openedFiles fd))))))
    (hk' : k' = k1.store (osRwpos (pcb L s.k cur (.openedFiles fd))) pos) :
    CallDone L s cur k' g ∧ runView L k' cur = runView L k1 cur ∧
      fdView L k' = Function.update (fdView L s.k) cur (Function.update (fdView L s.k cur) fd
        (some (s.k.load (osFsIdx (pcb L s.k cur (.openedFiles fd))), pos))) := by
  have hi : cur < 8 := hd.live.1
  obtain ⟨ho1, hidx1, -⟩ := ho.same hs
  have hpos1 : pos ≤ k1.load (L.fsSize (k1.load (osFsIdx (pcb L s.k cur (.openedFiles fd))))) := by
    rwa [hidx1, hs.load_fsSize ho.file]
  have hpcb : ∀ j < 8, ∀ f : PcbField, f.InStruct → pcb L k' j f = pcb L k1 j f := by
    obtain ⟨n, hn, heq⟩ := ho.handle
    intro j hj f hf
    rw [hk', heq]
    exact pcb_store_osFile (o := 4) hn (by omega) hj hf
  have hopen : ∀ j < 8, ∀ fd' < 8, pcb L k' j (.openedFiles fd') = pcb L s.k j (.openedFiles fd') :=
    fun j hj fd' hfd' => (hpcb j hj (.openedFiles fd') hfd').trans (hs.opened j hj fd' hfd')
  have hu : Untracked L k1 (k1.store (osRwpos (pcb L s.k cur (.openedFiles fd))) pos) :=
    untracked_setPosition ho1
  obtain ⟨hd', hv⟩ := hd.static
    (show Inv L k' g by rw [hk']; exact hd.inv.setPosition ho1)
    (by rw [hk']; exact hd.files.setPosition ho1 hpos1) (by rw [hk']; exact hu)
    (fun j hj => hpcb j hj _ context_inStruct) (by rw [hk']; rfl) (by
      rw [hk']
      exact fsSame_setPosition ho)
  refine ⟨hd', hv, fdView_update ?_ (fun j hj fd' hfd' _ => hopen j hj fd' hfd') ?_⟩
  · have hlt : pos < 2 ^ 32 := lt_of_le_of_lt hpos (load32_lt _ _)
    rw [fdView_open hi h8 (by rwa [hopen cur hi fd h8]), hopen cur hi fd h8, hk', ← hidx1]
    refine congrArg some (Prod.ext ?_ (load32_store32_of_lt hlt))
    exact load32_store32_disjoint _ _ (by simp only [osRwpos, osFsIdx]; omega)
  · rw [hk']
    exact openSame_fileRead h.files hi h8 hne hs

theorem called_read (h : SysInv L s g) (hlive : Live L s.k cur) (hrun : s.running = some cur)
    (hopen : FdOpen L s.k cur fd)
    (hok : BufferOk L s.k cur pteW buf (readCount L s cur fd size))
    (hs : s.call L cur (.read fd buf size) = some s') :
    (s.world L).Called cur (runView L s.k cur) (.read fd buf size) (s'.world L) := by
  simp only [Sys.call] at hs
  by_cases hc : fd < 2 ^ 32 ∧ buf < 2 ^ 32 ∧ size < 2 ^ 32
  · rw [if_pos hc, ksysRead_eq h hlive hc.2.1 hopen hok] at hs
    obtain ⟨⟨bytes, k1, tty⟩, hread, rfl⟩ := Option.map_eq_some_iff.mp hs
    obtain ⟨k1, hst, heq⟩ := Option.map_eq_some_iff.mp hread
    simp only [Prod.mk.injEq] at heq
    obtain ⟨rfl, rfl, rfl⟩ := heq
    rw [← length_readBytes h] at hok
    obtain ⟨hd, hv, hhas, hsame, hk1, hg1⟩ := CallDone.filled h hlive hc.2.1 hok hst
    by_cases h3 : fd < 3
    · rw [readDone, if_pos h3, hd.returns_same h.files hrun hsame hv]
      obtain rfl | h1 := Nat.eq_zero_or_pos fd
      · refine .readConsole ?_ hhas
        rw [length_readBytes h, readCount, if_pos rfl]
        exact (deliver_deliverable size s.tty.waiting).2.1
      · have hnil : readBytes L s cur fd size = [] := by
          rw [readBytes, if_neg (by omega), if_pos h3]
        rw [hnil]
        exact .readOutput h1 h3
    · obtain ⟨h8, hne⟩ := hopen.resolve_left h3
      have ho := h.files.openFile cur hlive.1 fd h8 hne
      have hbytes : readBytes L s cur fd size =
          fileBytes L s.k (pcb L s.k cur (.openedFiles fd)) size := by
        rw [readBytes, if_neg (by omega), if_neg h3]
      have hpos : s.k.load (osRwpos (pcb L s.k cur (.openedFiles fd))) +
          fileRest L s.k (pcb L s.k cur (.openedFiles fd)) size ≤
            s.k.load (L.fsSize (s.k.load (osFsIdx (pcb L s.k cur (.openedFiles fd))))) := by
        have := ho.position
        unfold fileRest
        omega
      obtain ⟨hd', hv', hfds⟩ := hd.position h hsame h8 hne ho hpos rfl
      rw [readDone, if_neg h3, hd'.returns h.files hrun, hv', hv, hfds, hbytes,
        ← length_fileBytes]
      rw [hbytes] at hhas
      exact .readFile (by omega) (fdView_open hlive.1 h8 hne) (fileBytes_eq L s.k _ size ho.file) hhas
  · rw [if_neg hc] at hs
    cases hs

end Risky321.Kernel
