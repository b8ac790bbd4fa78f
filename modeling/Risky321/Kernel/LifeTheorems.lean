/-
Risky321.Kernel.LifeTheorems — how processes begin and end, in the world.

`exec` and `create` leave the process that the image starts as, `fork` one
process more with the same pages and registers but for `a0`, `exit` and `kill`
one less. `sleep` and the scheduler change who is executing.

§1 images, §2 exit, kill and sleep, §3 fork.
-/
import Risky321.Kernel.CallTheorems

namespace Risky321.Kernel

open Risky321.Lib

variable {L : Layout} {k k' k1 : KState} {g g' : Ghost} {i j cur fd n idx w v va buf size : Nat}
  {s s' : Sys} {op : Op} {p : Process} {c : UInt8} {path : List UInt8} {argv : List (List UInt8)}

/-! ## §1 Images -/

theorem userImage_stack (m : Mem) (loads : List Load) (stack stack' : List UInt8) (v : Nat) :
    userImage m loads stack v =
      if v = 0xFFFFE then some (31, stack) else userImage m loads stack' v := by
  unfold userImage
  by_cases hv : v = 0xFFFFE
  · rw [if_pos hv, if_pos hv]
  · rw [if_neg hv, if_neg hv, if_neg hv]

/-- The words of the trap frame that neither loader sets are 0. -/
theorem execArgs_zero {page : Nat} (hr : StackReady L cur k g page k1 g') (hi : cur < 8)
    (hfit : argBytes argv ≤ pageSize) (hw : IsReg w) (h1 : w ≠ tfEpc) (h2 : w ≠ tfSp)
    (h3 : w ≠ tfA0) (h4 : w ≠ tfA1) : trapWord L (execArgs L k1 cur page argv) cur w = 0 := by
  have hroom := argRoom_of_fit hr.kmem hi hr.page_ow hr.trapframe hfit
  rw [(execArgs_spec hroom hr.sp).words w hw.lt.1 h2 h3 h4]
  exact hr.words w hw.lt.1 hw.lt.2.1 hw.lt.2.2 h1 h2

/-- The registers of a process that has its arguments. -/
theorem withArgs_reg (hfit : argBytes argv ≤ pageSize) :
    ((imageProcess L k idx).withArgs argv).reg w =
      if w = tfA1 ∨ w = tfSp then vaUserStackInit - argBytes argv
      else if w = tfA0 then argv.length
      else if w = tfEpc then elfEntry k (L.fsData idx) else 0 := by
  have hlen : argv.length ≤ argBytes argv := by
    unfold argBytes
    omega
  have hstack : vaUserStackInit = 0xFFFFF000 := rfl
  have hsp : (vaUserStackInit - argBytes argv) % 2 ^ 32 = vaUserStackInit - argBytes argv := by omega
  have hargc : argv.length % 2 ^ 32 = argv.length := by
    simp only [pageSize] at hfit
    omega
  simp only [Process.withArgs, Process.setReg, imageProcess, hsp, hargc]
  by_cases h1 : w = tfA1
  · rw [h1, Function.update_self, if_pos (.inl rfl)]
  rw [Function.update_of_ne h1]
  by_cases h0 : w = tfA0
  · rw [h0, Function.update_self, if_neg (by decide), if_pos rfl]
  rw [Function.update_of_ne h0]
  by_cases h2 : w = tfSp
  · rw [h2, Function.update_self, if_pos (.inr rfl)]
  rw [Function.update_of_ne h2, if_neg h2, if_neg h0, if_neg (not_or.mpr ⟨h1, h2⟩)]

/-- `kproc_exec` leaves the process that the image starts as, with its arguments. -/
theorem kprocExec_view {ret : Nat} (hI : Inv L k g) (hlive : Live L k cur) (hidx : idx < 12)
    (hfile : filesystemGetFiledata L k path = L.fsData idx) (hin : ElfInside k (L.fsData idx))
    (hfit : argBytes argv ≤ pageSize) (h : kprocExec L k cur path argv = some (ret, k')) :
    runView L k' cur = (imageProcess L k idx).withArgs argv := by
  have hi : cur < 8 := hlive.1
  obtain ⟨-, hready⟩ := kprocExec_image hI.kmem hi hidx hfile (hin.untouched hidx) hfit h
  obtain ⟨-, idx', page, k2, g2, -, -, -, hr, rfl⟩ := kprocExec_ready hI.kmem hi
    (by rw [hfile]; exact L.fsData_ne_zero idx) h
  refine (runView_congr (procView_eq (q := { (imageProcess L k idx).withArgs argv with
    sleeping := (procView L (execArgs L k2 cur page argv) cur).sleeping }) (fun w hw => ?_)
    (fun w hw => ?_) (fun v hv => ?_) (fun v hv => ?_) rfl)).trans rfl
  · refine Eq.trans ?_ (withArgs_reg hfit).symm
    by_cases h1 : w = tfA1
    · rw [h1, if_pos (.inl rfl), hready.a1]
    by_cases h2 : w = tfSp
    · rw [h2, if_pos (.inr rfl), hready.sp]
    rw [if_neg (not_or.mpr ⟨h1, h2⟩)]
    by_cases h0 : w = tfA0
    · rw [h0, if_pos rfl, hready.a0]
    rw [if_neg h0]
    by_cases h3 : w = tfEpc
    · rw [h3, if_pos rfl, hready.epc]
    · rw [if_neg h3, execArgs_zero hr hi hfit hw h3 h2 h0 h1]
  · refine (withArgs_reg hfit).trans ?_
    have hno : ∀ u, IsReg u → w ≠ u := by
      rintro u hu rfl
      exact hw hu
    rw [if_neg (not_or.mpr ⟨hno _ (by decide), hno _ (by decide)⟩), if_neg (hno _ (by decide)),
      if_neg (hno _ (by decide))]
  · rw [hready.space.user v hv, userImage_stack _ _ _ (List.replicate pageSize 0)]
    simp only [Process.withArgs, Process.setReg, imageProcess, Function.update_apply, if_pos hv]
    rfl
  · have hne : v ≠ vaUserStack / pageSize := by
      rintro rfl
      exact hv (by decide)
    simp only [Process.withArgs, Process.setReg, imageProcess, Function.update_of_ne hne, if_neg hv]

theorem Execed.done (h : Execed L cur idx argv s.k g k' g') (hs : SysInv L s g)
    (hlive : Live L s.k cur) : CallDone L s cur k' g' where
  inv := h.inv
  files := hs.files.same (h.filesSame hlive.1)
  live := ⟨hlive.1, by
    rw [h.state]
    decide⟩
  current := h.grow.current
  others := h.grow.touch.othersKept hs.inv
  fs := (h.filesSame hlive.1).fsSame

theorem imageView_eq_some {q : Process} (h : imageView L k idx = some q) :
    ElfInside k (L.fsData idx) ∧ q = imageProcess L k idx := by
  classical
  unfold imageView at h
  split at h
  · next hc => exact ⟨hc.2, (Option.some.inj h).symm⟩
  · cases h

theorem Layout.fsData_inj (L : Layout) {idx idx' : Nat} (h : L.fsData idx = L.fsData idx') :
    idx = idx' := by
  simp only [Layout.fsData, Layout.fsFile, sizeofFilesystemFile] at h
  omega

theorem filesystemGetFiledata_zero (h : filesystemGetFiledata L k path = 0) :
    filesystemLocateFile L k path = 0xFFFFFFFF := by
  by_contra hne
  rw [filesystemGetFiledata, if_neg hne] at h
  exact L.fsData_ne_zero _ h

theorem filesystemGetFiledata_eq (h : filesystemGetFiledata L k path = L.fsData idx) :
    filesystemLocateFile L k path = idx := by
  by_cases hne : filesystemLocateFile L k path = 0xFFFFFFFF
  · rw [filesystemGetFiledata, if_pos hne] at h
    exact absurd h.symm (L.fsData_ne_zero idx)
  · rw [filesystemGetFiledata, if_neg hne] at h
    exact L.fsData_inj h

theorem called_exec (h : SysInv L s g) (hlive : Live L s.k cur) (hrun : s.running = some cur)
    (hsafe : filesystemGetFiledata L s.k path ≠ 0 →
      ElfOk s.k (filesystemGetFiledata L s.k path) ∧ argBytes argv ≤ pageSize)
    (hs : s.call L cur (.exec path argv) = some s') :
    (s.world L).Called cur (runView L s.k cur) (.exec path argv) (s'.world L) := by
  simp only [Sys.call] at hs
  by_cases hnul : 0 ∉ path ∧ ∀ arg ∈ argv, 0 ∉ arg
  · rw [if_pos hnul, Option.map_eq_some_iff] at hs
    obtain ⟨⟨ret, k'⟩, hexec, rfl⟩ := hs
    obtain ⟨h0, rfl⟩ | ⟨idx, g', hidx, hfile, hex⟩ := kprocExec_inv h.inv hlive hsafe hexec
    · rw [(h.callDone hlive).toUser_same h.files hrun (.refl s.k) rfl,
        World.set_eq_self (procsView_running hlive hrun)]
      refine .execFailed fun _ => if_neg fun hlt => ?_
      have hlt := hlt.2
      rw [filesystemGetFiledata_zero h0, maxFsFiles] at hlt
      omega
    · rw [(hex.done h hlive).toUser_same h.files hrun (hex.filesSame hlive.1) rfl]
      have hne : filesystemGetFiledata L s.k path ≠ 0 := by
        rw [hfile]
        exact L.fsData_ne_zero idx
      refine .execed (findView_eq (filesystemGetFiledata_eq hfile) hidx) fun q hq => ?_
      obtain ⟨hin, rfl⟩ := imageView_eq_some hq
      exact kprocExec_view h.inv hlive hidx hfile hin (hsafe hne).2 hexec
  · rw [if_neg hnul] at hs
    cases hs

/-- A new process starts in `ktrap_to_user`. -/
theorem initContext_context (hk : KmemInv L k g) (hi : i < 8)
    (htf : g.ow (pcb L k i .trapframe) = .trapframe (.proc i)) :
    pcb L (initContext L k i) i (.context 0) = L.ktrapToUser := by
  have h1 : (PcbField.context 1).InStruct := by decide
  have h0 : pcb L (setPcb L k i (.context 0) L.ktrapToUser) i (.context 0) = L.ktrapToUser :=
    pcb_setPcb_same L.toUser_lt
  have hk1 := hk.setPcb (f := .context 0) (v := L.ktrapToUser) hi context_inStruct
  have htf1 := pcb_setPcb_of_ne_field (k := k) (v := L.ktrapToUser) (L := L) (i := i)
    (f := .trapframe) (g := .context 0) trivial context_inStruct (by simp)
  unfold initContext
  simp only
  generalize setPcb L k i (.context 0) L.ktrapToUser = k1 at *
  have hk2 := hk1.setPcb (f := .context 1) (v := pcb L k1 i .kernelStackTop) hi h1
  have htf2 := pcb_setPcb_of_ne_field (k := k1) (v := pcb L k1 i .kernelStackTop) (L := L) (i := i)
    (f := .trapframe) (g := .context 1) trivial h1 (by simp)
  have hc2 := pcb_setPcb_of_ne_field (k := k1) (v := pcb L k1 i .kernelStackTop) (L := L) (i := i)
    (f := .context 0) (g := .context 1) context_inStruct h1 (by simp)
  generalize setPcb L k1 i (.context 1) (pcb L k1 i .kernelStackTop) = k2 at *
  have how : g.ow (pcb L k2 i .trapframe) = .trapframe (.proc i) := by rw [htf2, htf1, htf]
  have hw3 : TrapWords L k2 g (setTrapWord L k2 i tfKernelSp (pcb L k2 i .kernelStackTop)) :=
    hk2.trapWord how (by decide)
  have how3 := (congrArg g.ow (hw3.pcb (f := .trapframe) hi trivial)).trans how
  have hw4 := hw3.trans (hw3.kmem.trapWord (x := L.ktrapFromUserHandler) (w := tfKernelTrap) how3
    (by decide))
  rw [hw4.pcb hi context_inStruct, hc2, h0]

/-- So does one that `kproc_create` makes. -/
theorem imageRoot_context (hk : KmemInv L k g) (hi : i < 8) (h : imageRoot L k i = some k') :
    pcb L k' i (.context 0) = L.ktrapToUser := by
  unfold imageRoot at h
  cases hal : kmemAlloc k with
  | none => simp [hal] at h
  | some pk =>
    obtain ⟨p1, k1⟩ := pk
    simp only [hal] at h
    obtain ⟨-, -, -, -, hinv1⟩ := kmemAlloc_spec hk hal
    have hk2 : KmemInv L (setPcb L k1 i .pagetable p1) (g.pop (.root (.proc i))) :=
      (hinv1 (.root (.proc i)) nofun).setPcb hi trivial
    cases hal2 : kmemAlloc (setPcb L k1 i .pagetable p1) with
    | none => simp [hal2] at h
    | some pk =>
      obtain ⟨p2, k3⟩ := pk
      simp only [hal2, Option.some.injEq] at h
      obtain ⟨-, hp2, -, -, hinv3⟩ := kmemAlloc_spec hk2 hal2
      have how := (kmemAlloc_pop_ow hk2 hal2 (.trapframe (.proc i))).1
      have hb := hp2.bounds
      have htf : pcb L (setPcb L k3 i .trapframe p2) i .trapframe = p2 :=
        pcb_setPcb_same (by omega)
      rw [← h]
      exact initContext_context ((hinv3 (.trapframe (.proc i)) nofun).setPcb hi trivial) hi
        (by rw [htf, how])

theorem buildImage_context {heap : Bool} {q : Nat} (hk : KmemInv L k g) (hi : i < 8)
    (hidx : idx < 12) (h : buildImage L heap k i (L.fsData idx) = some (q, k')) :
    pcb L k' i (.context 0) = L.ktrapToUser := by
  obtain ⟨k1, k2, k3, hbase, hk2, hload, hstack⟩ := buildImage_stages h
  obtain ⟨g2, hs⟩ := imageStart_spec hk hi hidx hbase hk2
  obtain ⟨loads, g3, hld⟩ := loadSegments_any hs.kmem hs.tree hs.leaves hi hload
  have hpt3 := hld.field_eq .pagetable trivial nofun
  have htf3 := hld.field_eq .trapframe trivial nofun
  have how3 : g3.ow (pcb L k3 i .trapframe) = .trapframe (.proc i) := by
    rw [htf3, hld.grow.keep _ (by rw [hs.trapframe]; exact nofun), hs.trapframe]
  obtain ⟨g', hst⟩ := imageStack_spec hld.kmem (by rw [hpt3]; exact hld.tree)
    (by rw [hpt3]; exact hld.leaves) hi how3 hstack
  obtain ⟨g1, hb⟩ := imageBase_spec hk hi hbase
  have hbase' := hbase
  unfold imageBase at hbase'
  cases hroot : imageRoot L k i with
  | none => simp [hroot] at hbase'
  | some k0 =>
    simp only [hroot] at hbase'
    obtain ⟨g0, hr⟩ := imageRoot_spec hk hi hroot
    obtain ⟨g5, hmap⟩ := mapKernel_spec (W := fun _ => False) hr.kmem hr.tree hr.empty hbase'
    rw [hst.field_eq _ context_inStruct (by simp), hld.field_eq _ context_inStruct (by simp), hk2,
      pcb_setTrapWord hb.kmem hb.trapframe (by decide) hi context_inStruct,
      hmap.grow.pcb hi context_inStruct (fun _ _ hw => hw)]
    exact imageRoot_context hk hi hroot

/-! ## §2 Exit, kill and sleep -/

theorem Sys.running_eq : s.running = some cur ↔ s.user = true ∧ s.k.current = some cur := by
  unfold Sys.running
  cases s.user <;> simp

theorem Released.not_live (h : Released L i k g k') : ¬ Live L k' i := fun hl => hl.2 h.state

/-- The process in slot `i` is gone, and slot `i` does not execute. -/
theorem Released.world (h : Released L i s.k g k') (hs : SysInv L s g) (hlive : Live L s.k i)
    (hk' : s'.k = k') (hrun : ∀ j, j ≠ i → (s'.running = some j ↔ s.running = some j)) :
    s'.world L = { (s.world L).set i none with running := s'.running } := by
  have hfs := h.filesSame hlive.1
  rw [← hk'] at h hfs
  rw [world_eq (h.touch.othersKept hs.inv) hfs.fsSame hs.files hrun, hfs.fdView hs.files,
    procsView_unused h.not_live]
  rfl

theorem called_exit {r : SavedRegs} (h : SysInv L s g) (hlive : Live L s.k cur)
    (hrun : s.running = some cur) (hs : s.call L cur (.exit r) = some s') :
    (s.world L).Called cur (runView L s.k cur) (.exit r) (s'.world L) := by
  simp only [Sys.call, Option.some.injEq] at hs
  have hrun' : s'.running = none := by rw [← hs, Sys.running, if_neg (by simp)]
  rw [(kprocFree_spec h.inv hlive).world h hlive (show s'.k = _ by rw [← hs])
    (fun j hj => by rw [hrun, hrun']; simp [Ne.symm hj]), hrun']
  exact .exited

/-- Every process has the PID of its slot. -/
theorem World.kill_eq_set (hI : Inv L s.k g) (hpid : pcb L s.k i .pid = w) (hlive : Live L s.k i) :
    (s.world L).kill w = (s.world L).set i none := by
  rw [(hI.proc i hlive).pid] at hpid
  refine World.ext (funext fun j => ?_) rfl rfl rfl rfl rfl
  simp only [World.kill, World.set, Function.update_apply, ← hpid, Nat.add_right_cancel_iff]

theorem World.kill_missed (hI : Inv L s.k g) (hno : ∀ j, ¬ (Live L s.k j ∧ pcb L s.k j .pid = w)) :
    (s.world L).kill w = s.world L := by
  refine World.ext (funext fun j => ?_) rfl rfl rfl rfl rfl
  simp only [World.kill]
  by_cases hj : j + 1 = w
  · rw [if_pos hj]
    refine (procsView_unused fun hl => hno j ⟨hl, ?_⟩).symm
    rw [(hI.proc j hl).pid, hj]
  · rw [if_neg hj]

theorem called_kill {pid : Nat} {r : SavedRegs} (h : SysInv L s g) (hlive : Live L s.k cur)
    (hrun : s.running = some cur) (hs : s.call L cur (.kill pid r) = some s') :
    (s.world L).Called cur (runView L s.k cur) (.kill pid r) (s'.world L) := by
  have hcurpid := (h.inv.proc cur hlive).pid
  simp only [Sys.call] at hs
  obtain ⟨hpid, hrel⟩ | ⟨hpid, hk⟩ := kprocKill_spec pid r h.inv hlive
  · rw [if_pos hpid, Option.some.injEq] at hs
    have hrun' : s'.running = none := by rw [← hs, Sys.running, if_neg (by simp)]
    rw [hrel.world h hlive (show s'.k = _ by rw [← hs])
      (fun j hj => by rw [hrun, hrun']; simp [Ne.symm hj]), hrun',
      ← World.kill_eq_set h.inv hpid hlive]
    exact .killedSelf (by omega)
  · rw [if_neg hpid, Option.some.injEq] at hs
    obtain ⟨heq, hno⟩ | ⟨j, hj, hlj, hpidj, hrel⟩ := hk
    · have hcall : World.Called (s.world L) cur (runView L s.k cur) (.kill pid r) _ :=
        .killed (by omega)
      rw [World.kill_missed h.inv hno] at hcall
      rwa [← hs, heq, (h.callDone hlive).returns_same h.files hrun (.refl s.k) rfl]
    · rw [← hs]
      generalize kprocKill L s.k cur pid r = k1 at *
      -- the state in between, without the process in slot `j`
      have h1 : SysInv L { s with k := k1 } (g.release L s.k j) :=
        ⟨hrel.inv, h.files.same (hrel.filesSame hlj.1), h.tty⟩
      have ho := hrel.touch.othersKept h.inv
      have hlive1 : Live L k1 cur := (ho.live cur (Ne.symm hj)).mpr hlive
      have hrun1 : Sys.running { s with k := k1 } = s.running := by
        rw [Sys.running, Sys.running, hrel.current]
      have hw1 := hrel.world h hlj (show (Sys.mk k1 s.tty s.user).k = k1 from rfl)
        fun j _ => by rw [hrun1]
      rw [(h1.callDone hlive1).returns_same h1.files (hrun1.trans hrun) (.refl k1)
        (runView_congr (ho.view cur hlive (Ne.symm hj))), hw1, hrun1,
        ← World.kill_eq_set h.inv hpidj hlj]
      exact .killed (by omega)

/-- `sleep` stores a context from which `kproc_yield` returns. -/
theorem kprocYield_view {r : SavedRegs} (hI : Inv L k g) (hlive : Live L k cur) :
    procView L (kprocYield L k cur r) cur = { procView L k cur with sleeping := true } := by
  have hu := untracked_yield (L := L) (k := k) r hlive.1
  have hp := hI.proc cur hlive
  have hpage : ∀ q, (g.ow q).Of (.proc cur) → ∀ x < 4096,
      (kprocYield L k cur r).mem (q + x) = k.mem (q + x) := by
    intro q hof x _
    have := (hI.kmem.page q hof.ne_lost).1
    exact hu.page _ (by omega)
  refine procView_eq (fun w hw => ?_) (fun w hw => if_neg hw) (fun v hv => ?_)
    (fun v hv => if_neg hv) ?_
  · refine (trapWord_congr (hpage _ (by rw [hp.trapframe]; rfl))
      (hu.field cur hlive.1 .trapframe trivial ⟨nofun, nofun⟩) hw.lt.1).trans (if_pos hw).symm
  · exact (userPage_congr hp (fun q h => hpage q h.of)
      (hu.field cur hlive.1 .pagetable trivial ⟨nofun, nofun⟩) hv).trans (if_pos hv).symm
  · have hctx : pcb L (kprocYield L k cur r) cur (.context 0) = L.yieldReturn :=
      (load32_storeWords k.mem _ (L.yieldReturn :: r.rest) (n := 0) (by simp)).trans
        (Nat.mod_eq_of_lt L.yield_lt)
    rw [hctx, beq_self_eq_true]

theorem called_sleep {r : SavedRegs} (h : SysInv L s g) (hlive : Live L s.k cur)
    (hrun : s.running = some cur) (hs : s.call L cur (.sleep r) = some s') :
    (s.world L).Called cur (runView L s.k cur) (.sleep r) (s'.world L) := by
  simp only [Sys.call, Option.some.injEq] at hs
  have hrun' : s'.running = none := by rw [← hs, Sys.running, if_neg (by simp)]
  have hk' : s'.k = kprocYield L s.k cur r := by rw [← hs]
  have hfs : FilesSame L s.k s'.k := by
    rw [hk']
    exact kprocYield_filesSame hlive.1
  have hlive' : Live L s'.k cur := ⟨hlive.1, by
    rw [hk', (untracked_yield r hlive.1).field cur hlive.1 .state trivial ⟨by simp, by simp⟩]
    exact hlive.2⟩
  have ho : OthersKept L cur s.k s'.k := by
    rw [hk']
    have ht : Touch L cur s.k g (kprocYield L s.k cur r) g := Grow.touch (kprocYield_grow hlive.1)
    exact ht.othersKept h.inv
  rw [world_eq ho hfs.fsSame h.files (fun j hj => by rw [hrun, hrun']; simp [Ne.symm hj]),
    hfs.fdView h.files, hrun', procsView_idle hlive' (by simp), hk', kprocYield_view h.inv hlive]
  exact .slept

/-- Slot `i` is current, before the return to user mode. -/
theorem current_world {s1 : Sys} (h : SysInv L s g) (hlive : Live L s.k i) (hidle : s.running = none)
    (hs1 : s1 = ⟨{ s.k with current := some i }, s.tty, true⟩) :
    SysInv L s1 g ∧ s1.running = some i ∧ CallDone L s1 i s1.k g ∧
      runView L s1.k i = runView L s.k i ∧ ∀ q : Process, (s1.world L).set i (some q) =
        { (s.world L).set i (some q) with running := some i } := by
  have hrun1 : s1.running = some i := by rw [hs1]; rfl
  have hmem : s1.k.mem = s.k.mem := by rw [hs1]
  have ho : OthersKept L i s.k s1.k := by
    rw [hs1]
    exact ⟨fun _ _ => Iff.rfl, fun _ _ _ => rfl⟩
  have hsame : FilesSame L s.k s1.k := by
    rw [hs1]
    exact ⟨fun _ _ _ => rfl, fun _ _ _ _ => rfl⟩
  have h1 : SysInv L s1 g := by
    rw [hs1]
    exact ⟨h.inv.schedule hlive, h.files.same ⟨fun _ _ _ => rfl, fun _ _ _ _ => rfl⟩, h.tty⟩
  have hlive1 : Live L s1.k i := by rw [hs1]; exact hlive
  refine ⟨h1, hrun1, h1.callDone hlive1, by rw [hs1]; rfl, fun q => ?_⟩
  rw [world_eq ho hsame.fsSame h.files (fun j hj => by rw [hrun1, hidle]; simp [Ne.symm hj]),
    hsame.fdView h.files, hrun1, World.set, World.set, World.set, Function.update_idem]
  rfl

/-- The scheduler enters a process, which wakes up if it slept. -/
theorem schedule_refines (h : SysInv L s g) (hs : s.step L (.schedule i) = some s') :
    (s.world L).Step (.schedule i) (s'.world L) := by
  simp only [Sys.step] at hs
  split at hs
  · next hc =>
    obtain ⟨huser, hi, hstate⟩ := hc
    rw [Option.some.injEq] at hs
    have hlive : Live L s.k i := ⟨hi, by
      rintro hu
      rw [hu] at hstate
      revert hstate
      decide⟩
    have hidle : s.running = none := by rw [Sys.running, huser, if_neg (by simp)]
    have hproc : (s.world L).procs i = some (procView L s.k i) :=
      procsView_idle hlive (by rw [hidle]; simp)
    have hgoal := World.Step.schedule hidle hproc
    obtain ⟨h1, hrun1, hd, hv, hset⟩ := current_world h hlive hidle
      (Eq.refl (Sys.mk { s.k with current := some i } s.tty true))
    have hctx : pcb L { s.k with current := some i } i (.context 0) = pcb L s.k i (.context 0) := rfl
    rw [← hs, enterSlot]
    simp only [hctx]
    by_cases hsleep : pcb L s.k i (.context 0) = L.yieldReturn
    · have htrue : (procView L s.k i).sleeping = true := beq_iff_eq.mpr hsleep
      rw [Process.wake, if_pos htrue] at hgoal
      rw [if_pos hsleep, hd.returns_same h1.files hrun1 (.refl _) hv, hset]
      exact hgoal
    · have hfalse : (procView L s.k i).sleeping = false := beq_false_of_ne hsleep
      rw [Process.wake, hfalse, if_neg (by simp)] at hgoal
      have hrunView : runView L s.k i = procView L s.k i := by rw [runView, ← hfalse]
      rw [if_neg hsleep, hd.toUser_same h1.files hrun1 (.refl _) hv, hset, hrunView]
      exact hgoal
  · cases hs

/-- The slot that `kproc_create` and `kproc_fork` take. -/
theorem freeSlot_first (h : freeSlot L s.k = some i) : (s.world L).FirstUnused i := by
  obtain ⟨hi, hstate⟩ := freeSlot_spec h
  refine ⟨hi, procsView_unused fun hl => hl.2 hstate, fun j hj => ?_⟩
  obtain ⟨-, -, hfirst⟩ := List.find?_range_eq_some.mp h
  have hlive : Live L s.k j := ⟨by simp only [numProcesses] at *; omega, by simpa using hfirst j hj⟩
  exact fun hnone => procsView_eq_none.mp hnone hlive

/-- `kproc_create` leaves the process that the image starts as. -/
theorem kprocCreate_view (hI : Inv L k g) (hidx : idx < 12) (hin : ElfInside k (L.fsData idx))
    (h : kprocCreate L k (L.fsData idx) = some (i, k')) : procView L k' i = imageProcess L k idx := by
  have hready := kprocCreate_ready hI.kmem hidx (hin.untouched hidx) h
  obtain ⟨hslot, q, hbuild⟩ := kprocCreate_cases h
  have hi := (freeSlot_spec hslot).1
  obtain ⟨hk1, -⟩ := takeSlot_grow hI.kmem hi rfl
  obtain ⟨g', hr⟩ := buildImage_any hk1 hi hidx hbuild
  have hctx := buildImage_context hk1 hi hidx hbuild
  have hargs : argBytes [] = 0 := rfl
  have hstack : stackPage [] = List.replicate pageSize 0 := by
    simp [stackPage, hargs, argPointers, argStrings]
  refine procView_eq (fun w hw => ?_) (fun w hw => ?_) (fun v hv => ?_) (fun v hv => if_neg hv) ?_
  · simp only [imageProcess]
    by_cases h3 : w = tfEpc
    · rw [h3, if_pos rfl, hready.epc]
    rw [if_neg h3]
    by_cases h2 : w = tfSp
    · rw [h2, if_pos rfl, hready.sp, hargs]
      rfl
    · rw [if_neg h2]
      exact hr.words w hw.lt.1 hw.lt.2.1 hw.lt.2.2 h3 h2
  · have hno : ∀ u, IsReg u → w ≠ u := by
      rintro u hu rfl
      exact hw hu
    simp only [imageProcess]
    rw [if_neg (hno _ (by decide)), if_neg (hno _ (by decide))]
  · simp only [imageProcess]
    rw [if_pos hv, hready.space.user v hv, hstack]
  · rw [hctx]
    exact beq_false_of_ne L.toUser_ne

theorem create_refines (h : SysInv L s g) (hok : ElfOk s.k (L.fsData idx))
    (hs : s.step L (.create idx) = some s') :
    (s.world L).Step (.create idx) (s'.world L) := by
  simp only [Sys.step] at hs
  by_cases hidx : idx < maxFsFiles
  · rw [if_pos hidx, Option.map_eq_some_iff] at hs
    obtain ⟨⟨i, k'⟩, hcr, hs⟩ := hs
    obtain ⟨g', hc⟩ := kprocCreate_inv h.inv hidx hok hcr
    have hlive : Live L k' i := ⟨(freeSlot_spec hc.slot).1, by
      rw [hc.state]
      decide⟩
    obtain rfl : s'.k = k' := by rw [← hs]
    have hrun : s'.running = s.running := by
      rw [← hs, Sys.running, Sys.running, hc.grow.current]
    obtain ⟨q, hq, himage⟩ : ∃ q, procsView L s'.k s'.running i = some q ∧
        ∀ q', imageView L s.k idx = some q' → q = q' := by
      rw [hrun]
      by_cases hr : s.running = some i
      · refine ⟨_, procsView_running hlive hr, fun q' hq' => ?_⟩
        obtain ⟨hin, rfl⟩ := imageView_eq_some hq'
        exact runView_congr (kprocCreate_view h.inv hidx hin hcr)
      · refine ⟨_, procsView_idle hlive hr, fun q' hq' => ?_⟩
        obtain ⟨hin, rfl⟩ := imageView_eq_some hq'
        exact kprocCreate_view h.inv hidx hin hcr
    rw [world_eq (hc.grow.touch.othersKept h.inv) hc.filesSame.fsSame h.files
      (fun j _ => by rw [hrun]), hc.filesSame.fdView h.files, hq, hrun]
    exact .create (freeSlot_first hc.slot) himage
  · rw [if_neg hidx] at hs
    cases hs

/-! ## §3 Fork -/

/-- The child starts in `ktrap_to_user`, too. -/
theorem kprocFork_context {ret : Nat} (hI : Inv L k g) (hcur : Live L k cur)
    (hslot : freeSlot L k = some i) (h : kprocFork L k cur = some (ret, k')) :
    pcb L k' i (.context 0) = L.ktrapToUser := by
  have hp := hI.proc cur hcur
  obtain ⟨i', k1, k2, hslot', h1, h2, hk', -⟩ := kprocFork_stages h
  obtain rfl : i' = i := Option.some.inj (hslot'.symm.trans hslot)
  obtain ⟨hi, hunused⟩ := freeSlot_spec hslot
  have hne : i' ≠ cur := by
    rintro rfl
    exact hcur.2 hunused
  obtain ⟨g1, hs⟩ := forkSpace_spec hI.kmem hp.tree hcur.1 hi hne h1
  have htf1 : g1.ow (pcb L k1 cur .trapframe) = .trapframe (.proc cur) := by
    rw [hs.grow.pcb_other (f := .trapframe) hcur.1 trivial (fun h => hne h.symm),
      hs.grow.keep _ (by rw [hp.trapframe]; exact nofun), hp.trapframe]
  obtain ⟨g2, hf⟩ := forkTrapframe_spec hs.kmem hs.tree
    ((hs.hasTable 1023 (by omega)).mpr hp.hasTable_last) hcur.1 hi hne htf1 h2
  have hfk := forkContext_spec hI.kmem hs hf rfl hcur.1 hi hne hp.trapframe
  have hctx : pcb L (forkContext L k2 i') i' (.context 0) = L.ktrapToUser :=
    initContext_context (hf.kmem.setPcb (f := .userStack) hi trivial) hi (by
      rw [pcb_setPcb_of_ne_field (f := .trapframe) (g := .userStack) trivial trivial (by simp),
        hf.trapframe])
  have htf : g2.ow (pcb L (forkContext L k2 i') cur .trapframe) = .trapframe (.proc cur) := by
    rw [hfk.grow.pcb_other (f := .trapframe) hcur.1 trivial (fun h => hne h.symm),
      hfk.grow.keep _ (by rw [hp.trapframe]; exact nofun), hp.trapframe]
  have hw1 := hfk.kmem.trapWord (x := pcb L (forkContext L k2 i') i' .pid) (w := tfA0) htf
    (by decide)
  have htf1 := (congrArg g2.ow (hw1.pcb (f := .trapframe) hi trivial)).trans hfk.trapframe
  have hw := hw1.trans (hw1.kmem.trapWord (x := 0) (w := tfA0) htf1 (by decide))
  rw [hk', forkReturn, hw.pcb hi context_inStruct, hctx]

theorem KeptBut.userPage {T : Nat → Prop} (h : KeptBut L k k' j T) (hv : v < 2 ^ 20) :
    userPage L k' j v = userPage L k j v := by
  have hpt : Risky321.Kernel.pcb L k' j .pagetable = Risky321.Kernel.pcb L k j .pagetable :=
    h.pcb trivial
  unfold Risky321.Kernel.userPage
  rw [hpt, h.tables v hv]
  cases he : walk k.mem (Risky321.Kernel.pcb L k j .pagetable) v with
  | none => rfl
  | some e =>
    by_cases hU : e &&& pteU ≠ 0
    · simp only [if_pos hU]
      exact congrArg (fun bs => some (e % 1024, bs)) (loadBytes_page (h.memory v hv e he hU))
    · simp only [if_neg hU]

theorem KeptBut.procView (h : KeptBut L k k' j fun _ => False) :
    procView L k' j = procView L k j :=
  procView_congr (fun w hw => h.words w hw.lt.1 id) (fun _ hv => h.userPage hv)
    (h.pcb context_inStruct)

/-- The parent has the PID of the child in `a0`. -/
theorem KeptBut.parentView (h : KeptBut L k k' j fun w => w = tfA0) (hx : trapWord L k' j tfA0 = w)
    (hw : w < 2 ^ 32) : Risky321.Kernel.procView L k' j =
      (Risky321.Kernel.procView L k j).setReg tfA0 w := by
  refine procView_eq (fun u hu => ?_) (fun u hu => ?_)
    (fun v hv => (h.userPage hv).trans (if_pos hv).symm) (fun v hv => if_neg hv) (by
      rw [h.pcb context_inStruct]
      rfl)
  · simp only [Process.setReg, Risky321.Kernel.procView]
    by_cases hua : u = tfA0
    · rw [hua, Function.update_self, hx, Nat.mod_eq_of_lt hw]
    · rw [Function.update_of_ne hua, if_pos hu, h.words u hu.lt.1 hua]
  · have hua : u ≠ tfA0 := by
      rintro rfl
      exact hu (by decide)
    exact (Function.update_of_ne hua ..).trans (if_neg hu)

theorem userPage_eq_none : userPage L k i v = none ↔
    ∀ e, walk k.mem (pcb L k i .pagetable) v = some e → e &&& pteU = 0 := by
  unfold userPage
  cases walk k.mem (pcb L k i .pagetable) v with
  | none => simp
  | some e => simp

theorem Duplicated.childPage (h : Duplicated L cur i k k') (hv : v < 2 ^ 20) :
    userPage L k' i v = userPage L k cur v := by
  by_cases hnone : userPage L k cur v = none
  · rw [hnone, userPage_eq_none]
    intro e he
    by_contra hU
    obtain ⟨e0, he0, hU0⟩ := h.only v hv e he hU
    exact hU0 (userPage_eq_none.mp hnone e0 he0)
  · obtain ⟨e0, he0, hU0⟩ : ∃ e0, walk k.mem (pcb L k cur .pagetable) v = some e0 ∧
        e0 &&& pteU ≠ 0 := by
      rw [userPage_eq_none] at hnone
      push Not at hnone
      exact hnone
    obtain ⟨e, he, hU, hc⟩ := h.user v hv e0 he0 hU0
    have hflags : e % 1024 = e0 % 1024 := by
      have hf := hc.flags
      rwa [show 0x3FF = 2 ^ 10 - 1 from rfl, Nat.and_two_pow_sub_one_eq_mod,
        Nat.and_two_pow_sub_one_eq_mod] at hf
    rw [userPage_some he hU, userPage_some he0 hU0, hflags]
    refine congrArg (fun bs => some (e0 % 1024, bs)) ?_
    -- the copy has the bytes that the parent's page has, before and after
    refine loadBytes_eq (length_loadBytes ..) fun x hx => ?_
    rw [length_loadBytes] at hx
    rw [hc.bytes x hx, h.parent.memory v hv e0 he0 hU0 x hx]
    simp [loadBytes]

/-- The child has 0, and the same pages. -/
theorem Duplicated.childView (h : Duplicated L cur i k k')
    (hctx : pcb L k' i (.context 0) = L.ktrapToUser) :
    procView L k' i = { (procView L k cur).setReg tfA0 0 with sleeping := false } := by
  refine procView_eq (fun u hu => ?_) (fun u hu => ?_) (fun v hv => ?_) (fun v hv => if_neg hv) ?_
  · simp only [Process.setReg, procView]
    by_cases hua : u = tfA0
    · rw [hua, Function.update_self, h.values.1]
      rfl
    · rw [Function.update_of_ne hua, if_pos hu, h.registers u hu hua]
  · have hua : u ≠ tfA0 := by
      rintro rfl
      exact hu (by decide)
    exact (Function.update_of_ne hua ..).trans (if_neg hu)
  · exact (h.childPage hv).trans (if_pos hv).symm
  · rw [hctx]
    exact beq_false_of_ne L.toUser_ne

theorem called_fork (h : SysInv L s g) (hlive : Live L s.k cur) (hrun : s.running = some cur)
    (hs : s.call L cur .fork = some s') :
    (s.world L).Called cur (runView L s.k cur) .fork (s'.world L) := by
  obtain ⟨⟨ret, k'⟩, hfork, hs⟩ := Option.map_eq_some_iff.mp hs
  obtain ⟨i, k3, g', hslot, hne, hf, hI3, hk', hI', hlc, hli, -⟩ := kprocFork_inv h.inv hlive hfork
  obtain ⟨hi, hunused⟩ := freeSlot_spec hslot
  have hnl : ¬ Live L s.k i := fun hl => hl.2 hunused
  have hlive3 : ∀ j, j ≠ i → (Live L k3 j ↔ Live L s.k j) := fun j hj =>
    and_congr_right fun hj8 => by rw [hf.grow.pcb_other (f := .state) hj8 trivial hj]
  have hli3 : Live L k3 i := ⟨hi, by
    rw [hf.state]
    decide⟩
  have hlc3 : Live L k3 cur := (hlive3 cur (Ne.symm hne)).mpr hlive
  have hw := forkReturn_words hI3 hlc3 hli3 hne
  rw [← hk'] at hw
  have hdup := hf.duplicated h.inv hI3 hlive hne hli3 hnl hw
  have hctx := kprocFork_context h.inv hlive hslot hfork
  have hsame : FilesSame L s.k k' := (hf.filesSame hi).trans hw.words.filesSame
  -- the state before the return to user mode has the same world
  obtain ⟨s1, hs1⟩ : ∃ s1 : Sys, s1 = { s with k := k' } := ⟨_, rfl⟩
  obtain rfl : s1.k = k' := by rw [hs1]
  have h1 : SysInv L s1 g' := ⟨hI', h.files.same hsame, by rw [hs1]; exact h.tty⟩
  have hrun1 : s1.running = some cur := by
    rw [← hrun, hs1, Sys.running, Sys.running, hw.words.grow.current, hf.grow.current]
  have hworld : s'.world L = s1.world L := by
    have huser : Sys.world L ⟨ktrapToUser L s1.k cur, s.tty, s1.user⟩ = _ :=
      (h1.callDone hlc).toUser_same h1.files hrun1 (.refl _) rfl
    rw [World.set_eq_self (procsView_running hlc hrun1)] at huser
    rw [← huser, ← hs, hs1]
  obtain ⟨hdata, hfind, himage⟩ := hsame.fsSame.views h.files
  have hgoal : World.Called (s.world L) cur (runView L s.k cur) .fork _ :=
    .forked (freeSlot_first hslot)
  convert hgoal using 1
  rw [hworld]
  refine World.ext (funext fun j => ?_) (hsame.fdView h.files) (hrun1.trans hrun.symm) hdata hfind
    himage
  by_cases hji : j = i
  · have hidle : s1.running ≠ some i := by
      rw [hrun1]
      exact fun h => hne (Option.some.inj h).symm
    rw [hji, World.set_self]
    exact (procsView_idle hli hidle).trans (congrArg some (hdup.childView hctx))
  rw [World.set_of_ne _ _ hji]
  by_cases hjc : j = cur
  · have hpid : trapWord L s1.k cur tfA0 = i + 1 := by
      rw [hdup.values.2, (hI'.proc i hli).pid]
    rw [hjc, World.set_self]
    exact (procsView_running hlc hrun1).trans
      (congrArg some (runView_congr (hdup.parent.parentView hpid (by omega))))
  rw [World.set_of_ne _ _ hjc]
  have hidle : ∀ t : Sys, t.running = some cur → t.running ≠ some j := by
    intro t ht
    rw [ht]
    exact fun h => hjc (Option.some.inj h).symm
  by_cases hlj : Live L s.k j
  · have hlj' : Live L s1.k j := hw.words.live.mpr ((hlive3 j hji).mpr hlj)
    exact (procsView_idle hlj' (hidle s1 hrun1)).trans
      ((congrArg some (hdup.others j hlj hjc).procView).trans
        (procsView_idle hlj (hidle s hrun)).symm)
  · have hlj' : ¬ Live L s1.k j := fun hl => hlj ((hlive3 j hji).mp (hw.words.live.mp hl))
    exact (procsView_unused hlj').trans (procsView_unused hlj).symm

end Risky321.Kernel
