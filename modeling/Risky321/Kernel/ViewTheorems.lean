/-
Risky321.Kernel.ViewTheorems — the kernel's state as a world of processes.

`Sys.world` reads a world off a state: a live slot is a process whose
registers are the words of its trap frame and whose pages are what its page
table gives user mode. An operation of slot `cur` touches what slot `cur` owns
(`Touch`), so it is enough to say what it does to the view of slot `cur`
(`procView`).

§1 the views, §2 what a store does to a process, §3 what it does to the world.
-/
import Risky321.Kernel.DuplicateTheorems
import Risky321.Kernel.ElfTheorems
import Risky321.Kernel.Processes
import Risky321.Kernel.StreamTheorems
import Risky321.Kernel.SyscallTheorems

namespace Risky321.Kernel

open Risky321.Lib

variable {L : Layout} {k k' k1 : KState} {g g' : Ghost} {i j cur fd n idx w v va buf size : Nat}
  {s s' : Sys} {op : Op} {p : Process} {c : UInt8}

/-! ## §1 Views -/

/-- The process in slot `i`. -/
def procView (L : Layout) (k : KState) (i : Nat) : Process where
  reg w := if IsReg w then trapWord L k i w else 0
  page v := if v < 2 ^ 20 then userPage L k i v else none
  sleeping := pcb L k i (.context 0) == L.yieldReturn

/-- The file and the position of a descriptor. -/
def fdView (L : Layout) (k : KState) (i fd : Nat) : Option (Nat × Nat) :=
  if i < numProcesses ∧ fd < maxOpenFiles ∧ pcb L k i (.openedFiles fd) ≠ 0 then
    some (k.load (osFsIdx (pcb L k i (.openedFiles fd))),
      k.load (osRwpos (pcb L k i (.openedFiles fd))))
  else
    none

def dataView (L : Layout) (k : KState) (idx : Nat) : List UInt8 :=
  if idx < maxFsFiles then fileData L k idx else []

def findView (L : Layout) (k : KState) (path : List UInt8) : Option Nat :=
  if path.length < maxFilesize ∧ filesystemLocateFile L k path < maxFsFiles then
    some (filesystemLocateFile L k path)
  else
    none

/-- The process that an image starts as. -/
def imageProcess (L : Layout) (k : KState) (idx : Nat) : Process where
  reg w := if w = tfEpc then elfEntry k (L.fsData idx) else if w = tfSp then vaUserStackInit else 0
  page v :=
    if v < 2 ^ 20 then userImage k.mem (elfLoads k (L.fsData idx)) (List.replicate pageSize 0) v
    else none
  sleeping := false

open Classical in
/-- Of an image whose segments lie inside the file. -/
noncomputable def imageView (L : Layout) (k : KState) (idx : Nat) : Option Process :=
  if idx < maxFsFiles ∧ ElfInside k (L.fsData idx) then some (imageProcess L k idx) else none

/-- The slot that is executing. -/
def Sys.running (s : Sys) : Option Nat := if s.user then s.k.current else none

/-- A process that is executing does not sleep, whatever its context says. -/
def runView (L : Layout) (k : KState) (i : Nat) : Process :=
  { procView L k i with sleeping := false }

def procsView (L : Layout) (k : KState) (running : Option Nat) (i : Nat) : Option Process :=
  if Live L k i then some (if running = some i then runView L k i else procView L k i) else none

noncomputable def Sys.world (L : Layout) (s : Sys) : World where
  procs := procsView L s.k s.running
  fds := fdView L s.k
  running := s.running
  data := dataView L s.k
  find := findView L s.k
  image := imageView L s.k

/-! ## §2 Stores -/

/-- A page of the process, as long as its tables and its pages are left alone. -/
theorem userPage_congr (hp : ProcInv L k g i)
    (hmem : ∀ q, (g.ow q).MappedOf (.proc i) → ∀ x < 4096, k'.mem (q + x) = k.mem (q + x))
    (hpt : pcb L k' i .pagetable = pcb L k i .pagetable) (hv : v < 2 ^ 20) :
    userPage L k' i v = userPage L k i v := by
  have hwalk : walk k'.mem (pcb L k' i .pagetable) v = walk k.mem (pcb L k i .pagetable) v := by
    rw [hpt]
    refine hp.tree.walk_eq (fun q hrole y hy => load32_congr fun z h1 h2 => ?_) hv
    have h := hmem q hrole.mapped (z - q) (by omega)
    rwa [Nat.add_sub_cancel' (by omega)] at h
  unfold userPage
  rw [hwalk]
  cases he : walk k.mem (pcb L k i .pagetable) v with
  | none => rfl
  | some e =>
    by_cases hU : e &&& pteU ≠ 0
    · simp only [if_pos hU]
      refine congrArg (fun bs => some (e % 1024, bs)) (loadBytes_congr fun x h1 h2 => ?_)
      have h := hmem (pteAddr e) (by rw [hp.leaves v hv e he hU]; rfl) (x - pteAddr e) (by
        simp only [pageSize] at h2
        omega)
      rwa [Nat.add_sub_cancel' h1] at h
    · simp only [if_neg hU]

/-- The registers, as long as the trap frame is left alone. -/
theorem trapWord_congr (hmem : ∀ x < 4096,
      k'.mem (pcb L k i .trapframe + x) = k.mem (pcb L k i .trapframe + x))
    (htf : pcb L k' i .trapframe = pcb L k i .trapframe) (hw : w < 1024) :
    trapWord L k' i w = trapWord L k i w :=
  trapWord_eq hw fun x hx => by rw [htf, hmem x hx]

theorem IsReg.lt (h : IsReg w) : w < 1024 ∧ w ≠ tfKernelSp ∧ w ≠ tfKernelTrap := by
  simp only [IsReg, tfEpc, tfKernelSp, tfKernelTrap] at *
  omega

theorem procView_eq {q : Process} (hreg : ∀ w, IsReg w → trapWord L k i w = q.reg w)
    (hzero : ∀ w, ¬ IsReg w → q.reg w = 0) (hpage : ∀ v < 2 ^ 20, userPage L k i v = q.page v)
    (hnone : ∀ v, ¬ v < 2 ^ 20 → q.page v = none)
    (hsleep : (pcb L k i (.context 0) == L.yieldReturn) = q.sleeping) : procView L k i = q := by
  obtain ⟨reg, page, sleeping⟩ := q
  simp only [procView, Process.mk.injEq]
  refine ⟨funext fun w => ?_, funext fun v => ?_, hsleep⟩
  · by_cases hw : IsReg w
    · rw [if_pos hw]
      exact hreg w hw
    · rw [if_neg hw]
      exact (hzero w hw).symm
  · by_cases hv : v < 2 ^ 20
    · rw [if_pos hv]
      exact hpage v hv
    · rw [if_neg hv]
      exact (hnone v hv).symm

/-- Two views are the same when what they are made of is. -/
theorem procView_congr (hreg : ∀ w, IsReg w → trapWord L k' i w = trapWord L k i w)
    (hpage : ∀ v < 2 ^ 20, userPage L k' i v = userPage L k i v)
    (hctx : pcb L k' i (.context 0) = pcb L k i (.context 0)) : procView L k' i = procView L k i :=
  procView_eq (fun w hw => (hreg w hw).trans (if_pos hw).symm) (fun _ hw => if_neg hw)
    (fun v hv => (hpage v hv).trans (if_pos hv).symm) (fun _ hv => if_neg hv) (by rw [hctx]; rfl)

/-- The pages and the control block of slot `i` are left alone. -/
theorem procView_kept (hp : ProcInv L k g i)
    (hmem : ∀ q, (g.ow q).Of (.proc i) → ∀ x < 4096, k'.mem (q + x) = k.mem (q + x))
    (hpt : pcb L k' i .pagetable = pcb L k i .pagetable)
    (htf : pcb L k' i .trapframe = pcb L k i .trapframe)
    (hctx : pcb L k' i (.context 0) = pcb L k i (.context 0)) : procView L k' i = procView L k i :=
  procView_congr
    (fun _ hw => trapWord_congr (hmem _ (by rw [hp.trapframe]; rfl)) htf hw.lt.1)
    (fun _ hv => userPage_congr hp (fun q h => hmem q h.of) hpt hv) hctx

/-- The process in every slot but `cur` is as before. -/
structure OthersKept (L : Layout) (cur : Nat) (k k' : KState) : Prop where
  live : ∀ j, j ≠ cur → (Live L k' j ↔ Live L k j)
  view : ∀ j, Live L k j → j ≠ cur → procView L k' j = procView L k j

theorem OthersKept.trans (h : OthersKept L cur k k1) (h' : OthersKept L cur k1 k') :
    OthersKept L cur k k' :=
  ⟨fun j hne => (h'.live j hne).trans (h.live j hne), fun j hj hne =>
    (h'.view j ((h.live j hne).mpr hj) hne).trans (h.view j hj hne)⟩

/-- What slot `cur` does to its own pages and control block. -/
theorem Touch.othersKept (h : Touch L cur k g k' g') (hI : Inv L k g) : OthersKept L cur k k' where
  live j hne := and_congr_right fun hj => by rw [h.pcb (f := .state) hj trivial hne]
  view j hj hne := by
    have hctx : (PcbField.context 0).InStruct := by decide
    refine procView_kept (hI.proc j hj) (fun q hof x hx => ?_) (h.pcb hj.1 trivial hne)
      (h.pcb hj.1 trivial hne) (h.pcb hj.1 hctx hne)
    exact h.mem q (hI.kmem.page q hof.ne_lost) hof.ne_free
      (fun hc => hne (by simpa using hof.unique hc)) x hx

/-- Static data was written, in the control blocks descriptors only. -/
theorem OthersKept.of_static (cur : Nat) (hI : Inv L k g) (hu : Untracked L k k')
    (hctx : ∀ i < 8, pcb L k' i (.context 0) = pcb L k i (.context 0)) :
    OthersKept L cur k k' ∧ (Live L k cur → procView L k' cur = procView L k cur) := by
  have hview : ∀ j, Live L k j → procView L k' j = procView L k j := by
    intro j hj
    refine procView_kept (hI.proc j hj) (fun q hof x hx => hu.page _ ?_)
      (hu.field j hj.1 .pagetable trivial ⟨nofun, nofun⟩)
      (hu.field j hj.1 .trapframe trivial ⟨nofun, nofun⟩) (hctx j hj.1)
    have := (hI.kmem.page q hof.ne_lost).1
    omega
  exact ⟨⟨fun j _ => and_congr_right fun hj => by rw [hu.field j hj .state trivial ⟨nofun, nofun⟩],
    fun j hj _ => hview j hj⟩, hview cur⟩

/-- A register stored to the trap frame. -/
theorem procView_setTrapWord (hI : Inv L k g) (hlive : Live L k cur) (hw : IsReg w) :
    procView L (setTrapWord L k cur w v) cur = (procView L k cur).setReg w v := by
  have hp := hI.proc cur hlive
  have hctx : (PcbField.context 0).InStruct := by decide
  obtain ⟨-, hg⟩ := setTrapWord_grow (W := fun _ => False) (x := v) hI.kmem hp.trapframe hw.lt.1
  have hpcb : ∀ {f : PcbField}, f.InStruct →
      pcb L (setTrapWord L k cur w v) cur f = pcb L k cur f :=
    fun hf => hg.pcb hlive.1 hf (fun _ _ h => h)
  refine procView_eq (fun u hu => ?_) (fun u hu => ?_) (fun u hu => ?_) (fun u hu => if_neg hu) ?_
  · simp only [Process.setReg, procView]
    by_cases huw : u = w
    · rw [huw, Function.update_self, trapWord, hpcb (f := .trapframe) trivial]
      exact load32_store32_same _ _ _
    · rw [Function.update_of_ne huw, if_pos hu]
      exact trapWord_setTrapWord_of_ne hI.kmem hlive.1 hp.trapframe hw.lt.1 huw
  · have huw : u ≠ w := by
      rintro rfl
      exact hu hw
    exact (Function.update_of_ne huw ..).trans (if_neg hu)
  · refine (userPage_congr hp (fun q hof x hx => ?_) (hpcb trivial) hu).trans (if_pos hu).symm
    refine hg.page_mem q (hI.kmem.page q hof.of.ne_lost) hof.of.ne_free (fun hq => ?_) x hx
    rw [hq] at hof
    exact hof
  · rw [hpcb hctx]
    rfl

/-- `kernel_sp` and `kernel_trap` are no registers. -/
theorem procView_setKernelWord (hI : Inv L k g) (hlive : Live L k cur) (hw : w < 1024)
    (hno : ¬ IsReg w) : procView L (setTrapWord L k cur w v) cur = procView L k cur := by
  have hp := hI.proc cur hlive
  have hctx : (PcbField.context 0).InStruct := by decide
  obtain ⟨-, hg⟩ := setTrapWord_grow (W := fun _ => False) (x := v) hI.kmem hp.trapframe hw
  have hpcb : ∀ {f : PcbField}, f.InStruct →
      pcb L (setTrapWord L k cur w v) cur f = pcb L k cur f :=
    fun hf => hg.pcb hlive.1 hf (fun _ _ h => h)
  refine procView_congr (fun u hu => ?_) (fun u hu => ?_) (hpcb hctx)
  · refine trapWord_setTrapWord_of_ne hI.kmem hlive.1 hp.trapframe hw ?_
    rintro rfl
    exact hno hu
  · refine userPage_congr hp (fun q hof x hx => ?_) (hpcb trivial) hu
    refine hg.page_mem q (hI.kmem.page q hof.of.ne_lost) hof.of.ne_free (fun hq => ?_) x hx
    rw [hq] at hof
    exact hof

theorem touch_setTrapWord (hI : Inv L k g) (hlive : Live L k cur) (hw : w < 1024) :
    Touch L cur k g (setTrapWord L k cur w v) g := by
  obtain ⟨-, hg⟩ := setTrapWord_grow (W := L.InPcb cur) (x := v) hI.kmem
    (hI.proc cur hlive).trapframe hw
  refine Grow.touch (hg.mono ?_ fun _ h => h)
  rintro _ rfl
  rfl

/-- The way back to user mode. -/
theorem ktrapToUser_view (hI : Inv L k g) (hlive : Live L k cur) :
    Touch L cur k g (ktrapToUser L k cur) g ∧
      procView L (ktrapToUser L k cur) cur = procView L k cur := by
  have hw1 : TrapWords L k g (setTrapWord L k cur tfKernelSp (pcb L k cur .kernelStackTop)) :=
    setTrapWord_words hI hlive (by decide)
  have hI1 := hw1.inv hI
  have hlive1 := hw1.live.mpr hlive
  refine ⟨(touch_setTrapWord hI hlive (by decide)).trans
    (touch_setTrapWord hI1 hlive1 (by decide)), ?_⟩
  exact (procView_setKernelWord hI1 hlive1 (by decide) (by decide)).trans
    (procView_setKernelWord hI hlive (by decide) (by decide))

theorem returnValue_view (ret : Nat) (hI : Inv L k g) (hlive : Live L k cur) :
    Touch L cur k g (returnValue L k cur ret) g ∧
      procView L (returnValue L k cur ret) cur = (procView L k cur).setReg tfA0 ret := by
  have hw1 : TrapWords L k g (setTrapWord L k cur tfA0 ret) :=
    setTrapWord_words hI hlive (by decide)
  obtain ⟨ht, hv⟩ := ktrapToUser_view (hw1.inv hI) (hw1.live.mpr hlive)
  exact ⟨(touch_setTrapWord hI hlive (by decide)).trans ht,
    hv.trans (procView_setTrapWord hI hlive (by decide))⟩

theorem loadBytes_update (m : Mem) (a n : Nat) {j : Nat} (hj : j < n) (c : UInt8) :
    loadBytes (Function.update m (a + j) c) a n = (loadBytes m a n).set j c := by
  refine List.ext_getElem (by simp) fun x h1 h2 => ?_
  obtain rfl | hx := eq_or_ne x j
  · rw [List.getElem_set_self]
    simp [loadBytes]
  · rw [List.getElem_set_ne (Ne.symm hx)]
    simp [loadBytes, hx]

/-- A byte stored to a page of the process. -/
theorem storeByte_view (hI : Inv L k g) (hlive : Live L k cur) (hva : va < 2 ^ 32)
    (hu : UserPage L k cur va) (h : storeByte L k cur va c = some k') :
    Touch L cur k g k' g ∧ procView L k' cur = (procView L k cur).store va c := by
  have hp := hI.proc cur hlive
  have hctx : (PcbField.context 0).InStruct := by decide
  obtain ⟨-, hg⟩ := storeByte_user hI.kmem hp hva hu h
  have htouch : Touch L cur k g k' g :=
    Grow.touch (hg.mono (fun _ hc => hc.of) (fun _ hx => hx.elim))
  refine ⟨htouch, ?_⟩
  have hpcb : ∀ {f : PcbField}, f.InStruct → pcb L k' cur f = pcb L k cur f :=
    fun hf => hg.pcb hlive.1 hf (fun _ _ h => h)
  obtain ⟨e, he, hU⟩ := hu
  have hv : va / pageSize < 2 ^ 20 := by
    simp only [pageSize]
    omega
  have hleaf := hp.leaves _ hv e he hU
  have hpage := hI.kmem.page_of hleaf (by simp)
  have hoff : va % pageSize < pageSize := Nat.mod_lt _ (by decide)
  have hwalk : ∀ v < 2 ^ 20, walk k'.mem (pcb L k' cur .pagetable) v =
      walk k.mem (pcb L k cur .pagetable) v := by
    intro v hv
    rw [hpcb (f := .pagetable) trivial]
    exact hp.tree.walk_grow hI.kmem hg (fun _ hc => hc.not_table) hv
  have hmem : k'.mem = Function.update k.mem (pteAddr e + va % pageSize) c := by
    unfold storeByte translate at h
    rw [he] at h
    simp only at h
    split at h
    · rw [Option.map_some, Option.some.injEq] at h
      rw [← h]
    · cases h
  refine procView_eq (fun w hw => ?_) (fun w hw => if_neg hw) (fun v hv' => ?_) (fun v hv' => ?_) ?_
  · refine (trapWord_grow hg hI.kmem hp.trapframe ?_ (hpcb trivial) hw.lt.1).trans (if_pos hw).symm
    rintro ⟨v, hv⟩
    cases hv
  · simp only [Process.store, procView]
    by_cases hvv : v = va / pageSize
    · rw [hvv, Function.update_self, if_pos hv, userPage_some he hU,
        userPage_some ((hwalk _ hv).trans he) hU, Option.map_some, hmem,
        loadBytes_update _ _ _ hoff]
    · rw [Function.update_of_ne hvv, if_pos hv']
      -- another page of the process, so another frame
      unfold userPage
      rw [hwalk v hv']
      cases he' : walk k.mem (pcb L k cur .pagetable) v with
      | none => rfl
      | some e' =>
        by_cases hU' : e' &&& pteU ≠ 0
        · simp only [if_pos hU']
          have hleaf' := hp.leaves v hv' e' he' hU'
          have hne : pteAddr e ≠ pteAddr e' := by
            intro heq
            rw [← heq, hleaf, Role.leaf.injEq] at hleaf'
            exact hvv hleaf'.2.symm
          have hap := hpage.apart (hI.kmem.page_of hleaf' (by simp)) hne
          refine congrArg (fun bs => some (e' % 1024, bs)) (loadBytes_congr fun x h1 h2 => ?_)
          rw [hmem]
          simp only [pageSize] at *
          exact Function.update_of_ne (by omega) ..
        · simp only [if_neg hU']
  · have hvv : v ≠ va / pageSize := by
      rintro rfl
      exact hv' hv
    exact (Function.update_of_ne hvv ..).trans (if_neg hv')
  · rw [hpcb hctx]
    rfl

theorem Process.store_isSome (p : Process) (va : Nat) (c : UInt8) (v : Nat) :
    ((p.store va c).page v).isSome = (p.page v).isSome := by
  by_cases hv : v = va / pageSize
  · simp [Process.store, hv]
  · simp [Process.store, hv]

/-- A buffer filled in pages of the process. -/
theorem storeBuf_view (bytes : List UInt8) (hI : Inv L k g) (hlive : Live L k cur)
    (hbuf : buf < 2 ^ 32) (hok : BufferOk L k cur pteW buf bytes.length)
    (h : storeBuf L cur buf bytes k = some k') :
    Touch L cur k g k' g ∧ procView L k' cur = (procView L k cur).storeAll buf bytes ∧
      (procView L k cur).Has buf bytes.length := by
  induction bytes generalizing k buf with
  | nil =>
    rw [storeBuf, Option.some.injEq] at h
    rw [← h]
    exact ⟨.refl k g, rfl, fun j hj => absurd hj (by simp)⟩
  | cons c cs ih =>
    rw [storeBuf, Option.bind_eq_some_iff] at h
    obtain ⟨k1, h1, h2⟩ := h
    have hm := storeByte_isSome h1
    have hp := hI.proc cur hlive
    have hu := hok.head hbuf hm
    obtain ⟨hk1, hg1⟩ := storeByte_user hI.kmem hp hbuf hu h1
    have hS : ∀ c : Role, c.LeafOf (.proc cur) → ¬ c.TableOf (.proc cur) := fun _ h => h.not_table
    obtain ⟨ht1, hv1⟩ := storeByte_view hI hlive hbuf hu h1
    obtain ⟨ht, hv, hhas⟩ := ih (hI.pageWrites (fun _ _ h => h.not_table) hk1 hg1) (hg1.live hlive)
      (Nat.mod_lt _ (by norm_num)) (hok.tail hbuf hm hI.kmem hp hlive.1 hg1 hS) h2
    refine ⟨ht1.trans ht, by rw [hv, hv1, Process.storeAll], fun j hj => ?_⟩
    cases j with
    | zero =>
      obtain ⟨e, he, hU⟩ := hu
      have hlt : buf / pageSize < 2 ^ 20 := by
        simp only [pageSize]
        omega
      simp only [procView]
      rw [Nat.add_zero, Nat.mod_eq_of_lt hbuf, if_pos hlt, userPage_some he hU]
      rfl
    | succ j =>
      have hnext : ((buf + 1) % 2 ^ 32 + j) % 2 ^ 32 = (buf + (j + 1)) % 2 ^ 32 := by omega
      have h := hhas j (by simpa using hj)
      rwa [hnext, hv1, Process.store_isSome] at h

/-! ## §3 Worlds -/

/-- A descriptor with the same entry. -/
theorem fdView_congr (hop : i < 8 → fd < 8 →
      pcb L k' i (.openedFiles fd) = pcb L k i (.openedFiles fd))
    (he : i < 8 → fd < 8 → pcb L k i (.openedFiles fd) ≠ 0 →
      EntrySame k k' (pcb L k i (.openedFiles fd))) : fdView L k' i fd = fdView L k i fd := by
  unfold fdView
  by_cases hlt : i < numProcesses ∧ fd < maxOpenFiles
  · rw [hop hlt.1 hlt.2]
    by_cases hne : pcb L k i (.openedFiles fd) ≠ 0
    · obtain ⟨h1, h2⟩ := he hlt.1 hlt.2 hne
      rw [h1, h2]
    · rw [if_neg fun h => hne h.2.2, if_neg fun h => hne h.2.2]
  · rw [if_neg fun h => hlt ⟨h.1, h.2.1⟩, if_neg fun h => hlt ⟨h.1, h.2.1⟩]

theorem FilesSame.fdView (hs : FilesSame L k k') (hf : FilesInv L k) : fdView L k' = fdView L k := by
  funext i fd
  exact fdView_congr (fun hi hfd => hs.opened i hi fd hfd)
    (fun hi hfd hne => hs.entrySame (hf.openFile i hi fd hfd hne).handle)

theorem FsSame.imageView (h : FsSame L k k') : imageView L k' = imageView L k := by
  classical
  funext idx
  unfold Risky321.Kernel.imageView
  by_cases hidx : idx < maxFsFiles
  · have hsame := h.sameElf hidx
    have hiff : ElfInside k' (L.fsData idx) ↔ ElfInside k (L.fsData idx) :=
      ⟨fun h' => (SameElf.inside (fun x hx => (hsame x hx).symm) hidx hidx h').1,
        fun h' => (hsame.inside hidx hidx h').1⟩
    by_cases hin : ElfInside k (L.fsData idx)
    · rw [if_pos ⟨hidx, hiff.mpr hin⟩, if_pos ⟨hidx, hin⟩, imageProcess, imageProcess,
        (hsame.headers hidx hidx hin).entry]
      simp only [hsame.userImage hidx hidx hin]
    · rw [if_neg fun h' => hin (hiff.mp h'.2), if_neg fun h' => hin h'.2]
  · rw [if_neg fun h' => hidx h'.1, if_neg fun h' => hidx h'.1]

/-- The files, how they are found, and the images among them. -/
theorem FsSame.views (h : FsSame L k k') (hf : FilesInv L k) :
    dataView L k' = dataView L k ∧ findView L k' = findView L k ∧
      Risky321.Kernel.imageView L k' = Risky321.Kernel.imageView L k := by
  refine ⟨funext fun idx => ?_, funext fun path => ?_, h.imageView⟩
  · unfold dataView
    by_cases hidx : idx < maxFsFiles
    · rw [if_pos hidx, if_pos hidx, fileData_congr h hidx (hf.sizes idx hidx)]
    · rw [if_neg hidx, if_neg hidx]
  · unfold findView
    by_cases hlen : path.length < maxFilesize
    · rw [filesystemLocateFile_congr h hlen]
    · rw [if_neg fun h => hlen h.1, if_neg fun h => hlen h.1]

section Procs

variable {r r' : Option Nat}

theorem procsView_running (hlive : Live L k i) (hr : r = some i) :
    procsView L k r i = some (runView L k i) := by
  rw [procsView, if_pos hlive, if_pos hr]

theorem procsView_idle (hlive : Live L k i) (hr : r ≠ some i) :
    procsView L k r i = some (procView L k i) := by
  rw [procsView, if_pos hlive, if_neg hr]

theorem procsView_unused (hlive : ¬ Live L k i) : procsView L k r i = none := if_neg hlive

theorem procsView_eq_none : procsView L k r i = none ↔ ¬ Live L k i := by
  by_cases hlive : Live L k i
  · simp [procsView, hlive]
  · simp [procsView, hlive]

theorem OthersKept.procsView (h : OthersKept L cur k k') (hr : r' = some j ↔ r = some j)
    (hne : j ≠ cur) : procsView L k' r' j = procsView L k r j := by
  by_cases hlive : Live L k j
  · have hlive' := (h.live j hne).mpr hlive
    by_cases hj : r = some j
    · rw [procsView_running hlive' (hr.mpr hj), procsView_running hlive hj, runView, runView,
        h.view j hlive hne]
    · rw [procsView_idle hlive' (fun h => hj (hr.mp h)), procsView_idle hlive hj,
        h.view j hlive hne]
  · rw [procsView_unused hlive, procsView_unused fun h' => hlive ((h.live j hne).mp h')]

end Procs

/-- Only slot `cur`, the descriptors, and who is running have changed. -/
theorem world_eq (ho : OthersKept L cur s.k s'.k) (hfs : FsSame L s.k s'.k) (hf : FilesInv L s.k)
    (hrun : ∀ j, j ≠ cur → (s'.running = some j ↔ s.running = some j)) :
    s'.world L = { (s.world L).set cur (procsView L s'.k s'.running cur) with
      fds := fdView L s'.k, running := s'.running } := by
  obtain ⟨hdata, hfind, himage⟩ := hfs.views hf
  refine World.ext (funext fun j => ?_) rfl rfl hdata hfind himage
  by_cases hj : j = cur
  · rw [hj]
    exact (World.set_self _ _ _).symm
  · exact (ho.procsView (hrun j hj) hj).trans (World.set_of_ne (s.world L) _ hj).symm

theorem TrapWords.filesSame (h : TrapWords L k g k') : FilesSame L k k' := h.grow.filesSame

/-- What the kernel has done for slot `cur`, before the handler returns. -/
structure CallDone (L : Layout) (s : Sys) (cur : Nat) (k1 : KState) (g1 : Ghost) : Prop where
  inv : Inv L k1 g1
  files : FilesInv L k1
  live : Live L k1 cur
  current : k1.current = s.k.current
  others : OthersKept L cur s.k k1
  fs : FsSame L s.k k1

/-- Nothing has been done yet. -/
theorem SysInv.callDone (h : SysInv L s g) (hlive : Live L s.k cur) : CallDone L s cur s.k g where
  inv := h.inv
  files := h.files
  live := hlive
  current := rfl
  others := ⟨fun _ _ => Iff.rfl, fun _ _ _ => rfl⟩
  fs := fun _ _ => rfl

/-- Then words of trap frames, of slot `cur` only. -/
theorem CallDone.words (h : CallDone L s cur k1 g) (hw : TrapWords L k1 g k')
    (ht : Touch L cur k1 g k' g) : CallDone L s cur k' g where
  inv := hw.inv h.inv
  files := h.files.same hw.filesSame
  live := hw.live.mpr h.live
  current := hw.grow.current.trans h.current
  others := h.others.trans (ht.othersKept h.inv)
  fs := h.fs.trans hw.filesSame.fsSame

theorem CallDone.running (tty : Tty) (h : CallDone L s cur k1 g) (hrun : s.running = some cur) :
    Sys.running { k := k1, tty := tty, user := s.user } = some cur := by
  rw [← hrun, Sys.running, Sys.running, h.current]

/-- The world when slot `cur` goes on. -/
theorem CallDone.world {tty : Tty} (h : CallDone L s cur k1 g) (hf : FilesInv L s.k)
    (hrun : s.running = some cur) :
    Sys.world L { k := k1, tty := tty, user := s.user } =
      { (s.world L).set cur (some (runView L k1 cur)) with fds := fdView L k1 } := by
  have hrun' := h.running tty hrun
  rw [world_eq (s := s) h.others h.fs hf (fun j _ => by rw [hrun, hrun'])]
  rw [procsView_running h.live hrun', hrun']
  exact World.ext rfl rfl hrun.symm rfl rfl rfl

/-- It goes on as `p`, with the descriptors it had. -/
theorem CallDone.world_same {tty : Tty} (h : CallDone L s cur k1 g) (hf : FilesInv L s.k)
    (hrun : s.running = some cur) (hs : FilesSame L s.k k1) (hv : runView L k1 cur = p) :
    Sys.world L { k := k1, tty := tty, user := s.user } = (s.world L).set cur (some p) := by
  rw [h.world hf hrun, hs.fdView hf, hv]
  rfl

/-- The return from a call whose result goes to `a0`. -/
theorem CallDone.returns {ret : Nat} {tty : Tty} (h : CallDone L s cur k1 g) (hf : FilesInv L s.k)
    (hrun : s.running = some cur) :
    Sys.world L { k := returnValue L k1 cur ret, tty := tty, user := s.user } =
      { (s.world L).set cur (some ((runView L k1 cur).setReg tfA0 ret)) with
        fds := fdView L k1 } := by
  have hw := returnValue_words ret h.inv h.live
  obtain ⟨ht, hv⟩ := returnValue_view ret h.inv h.live
  rw [(h.words hw ht).world hf hrun, hw.filesSame.fdView h.files, runView, hv]
  rfl

theorem CallDone.returns_same {ret : Nat} {tty : Tty} (h : CallDone L s cur k1 g)
    (hf : FilesInv L s.k) (hrun : s.running = some cur) (hs : FilesSame L s.k k1)
    (hv : runView L k1 cur = p) :
    Sys.world L { k := returnValue L k1 cur ret, tty := tty, user := s.user } =
      (s.world L).set cur (some (p.setReg tfA0 ret)) := by
  rw [h.returns hf hrun, hs.fdView hf, hv]
  rfl

/-- The return from a call that leaves the registers alone. -/
theorem CallDone.toUser {tty : Tty} (h : CallDone L s cur k1 g) (hf : FilesInv L s.k)
    (hrun : s.running = some cur) :
    Sys.world L { k := ktrapToUser L k1 cur, tty := tty, user := s.user } =
      { (s.world L).set cur (some (runView L k1 cur)) with fds := fdView L k1 } := by
  have hw := ktrapToUser_words h.inv h.live
  obtain ⟨ht, hv⟩ := ktrapToUser_view h.inv h.live
  rw [(h.words hw ht).world hf hrun, hw.filesSame.fdView h.files, runView, hv]
  rfl

theorem CallDone.toUser_same {tty : Tty} (h : CallDone L s cur k1 g) (hf : FilesInv L s.k)
    (hrun : s.running = some cur) (hs : FilesSame L s.k k1) (hv : runView L k1 cur = p) :
    Sys.world L { k := ktrapToUser L k1 cur, tty := tty, user := s.user } =
      (s.world L).set cur (some p) := by
  rw [h.toUser hf hrun, hs.fdView hf, hv]
  rfl

end Risky321.Kernel
