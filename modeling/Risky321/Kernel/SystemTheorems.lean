/-
Risky321.Kernel.SystemTheorems — what one step of the kernel can do, and the
invariant of whole runs.

§1 states when an event is `Safe`: images lie in the user range, the
arguments of `exec` fit on the stack page, and `read` and `close` are given
a descriptor and a buffer of the caller. The kernel checks none of this.
§2 lists what a safe step can do (`Effect`), §3 shows that every step is one
of these, and §4 that the invariant holds along every safe run. Later
modules argue from `Effect` and never unfold the step function.
-/
import Risky321.Kernel.FileTheorems
import Risky321.Kernel.ForkTheorems
import Risky321.Kernel.System
import Risky321.Kernel.TtyTheorems
import Mathlib.Data.List.Find

namespace Risky321.Kernel

open Risky321.Lib

variable {L : Layout} {k k' k'' : KState} {g g' : Ghost} {i j cur fd n idx : Nat} {s s' : Sys}
  {op : Op}

/-! ## §1 Safe events -/

/-- The bytes between the read and the write index of the console. -/
def Tty.waiting (t : Tty) : List UInt8 :=
  if t.isEmpty then []
  else window t.ttyBuffer ttyBufferSize t.r ((t.w + ttyBufferSize - t.r) % ttyBufferSize)

/-- The three indices are in range. -/
structure Tty.Ok (t : Tty) : Prop where
  r : t.r < ttyBufferSize
  w : t.w < ttyBufferSize
  insert : t.insert < ttyBufferSize

theorem ttyReadLoop_bytes (n : Nat) (t : Tty) (ht : t.Ok) (hE : t.isEmpty = false) :
    (ttyReadLoop n t).1 = LineEditor.deliver n (window t.ttyBuffer ttyBufferSize t.r
      ((t.w + ttyBufferSize - t.r) % ttyBufferSize)) ∧ (ttyReadLoop n t).2.Ok := by
  induction n generalizing t with
  | zero => exact ⟨rfl, ht⟩
  | succ n ih =>
    obtain ⟨hr, hw, hi⟩ := ht
    by_cases hgo : t.r = t.w
    · rw [ttyReadLoop_stop n (fun h => h.2 hgo), hgo,
        show t.w + ttyBufferSize - t.w = ttyBufferSize by omega, Nat.mod_self]
      exact ⟨rfl, hr, hw, hi⟩
    · rw [ttyReadLoop_go n ⟨hE, hgo⟩]
      have hlen : (t.w + ttyBufferSize - t.r) % ttyBufferSize =
          (t.w + ttyBufferSize - (t.r + 1) % ttyBufferSize) % ttyBufferSize + 1 := by
        simp only [ttyBufferSize] at *
        omega
      have hr' : (t.r + 1) % ttyBufferSize < ttyBufferSize := Nat.mod_lt _ (by decide)
      obtain ⟨hb, hok⟩ := ih { t with isFull := false, r := (t.r + 1) % ttyBufferSize }
        ⟨hr', hw, hi⟩ hE
      rw [hlen, window_succ, Nat.mod_eq_of_lt hr, LineEditor.deliver]
      split
      · exact ⟨rfl, hr', hw, hi⟩
      · exact ⟨congrArg (t.ttyBuffer t.r :: ·) hb, hok⟩

/-- What `TtyRead` delivers, from the state before the call. -/
theorem ttyRead_bytes (n : Nat) (t : Tty) (ht : t.Ok) :
    (ttyRead t n).1 = LineEditor.deliver n t.waiting ∧ (ttyRead t n).2.Ok := by
  unfold ttyRead Tty.waiting
  cases hE : t.isEmpty with
  | true =>
    simp only [if_true]
    refine ⟨?_, ht⟩
    cases n <;> rfl
  | false =>
    obtain ⟨hb, hok⟩ := ttyReadLoop_bytes n t ht hE
    simp only [Bool.false_eq_true, if_false]
    refine ⟨hb, ?_⟩
    split
    · exact ⟨hok.r, hok.w, hok.insert⟩
    · exact hok

theorem Tty.Ok.bufferInsert {t : Tty} (ht : t.Ok) (c : UInt8) : (ttyBufferInsert t c).2.Ok := by
  obtain ⟨hr, hw, hi⟩ := ht
  have hmod : ∀ a, a % ttyBufferSize < ttyBufferSize := fun a => Nat.mod_lt _ (by decide)
  unfold ttyBufferInsert ttyErase ttyStore
  split
  · exact ⟨hr, hw, hi⟩
  · simp only
    split
    · split
      · exact ⟨hr, hw, hmod _⟩
      · exact ⟨hr, hw, hi⟩
    · refine ⟨hr, ?_, hmod _⟩
      simp only
      split
      · exact hmod _
      · exact hw

theorem Tty.Ok.init : Tty.init.Ok := ⟨by decide, by decide, by decide⟩

/-- The number of bytes a `read` has to deliver. -/
def readCount (L : Layout) (s : Sys) (cur fd size : Nat) : Nat :=
  if fd = 0 then (LineEditor.deliver size s.tty.waiting).length
  else if fd < 3 then 0
  else fileRest L s.k (pcb L s.k cur (.openedFiles fd)) size

/-- `fd` stands for the console, or an entry of `opened_files` that is not `NULL`. -/
def FdOpen (L : Layout) (k : KState) (cur fd : Nat) : Prop :=
  fd < 3 ∨ fd < maxOpenFiles ∧ pcb L k cur (.openedFiles fd) ≠ 0

/-- What a call has to be given. -/
def Call.Safe (L : Layout) (s : Sys) (cur : Nat) : Call → Prop
  | .exec path argv => filesystemGetFiledata L s.k path ≠ 0 →
      ElfOk s.k (filesystemGetFiledata L s.k path) ∧ argBytes argv ≤ pageSize
  | .read fd buf size =>
      FdOpen L s.k cur fd ∧ BufferOk L s.k cur pteW buf (readCount L s cur fd size)
  | .close fd => fd < maxOpenFiles
  | _ => True

/-- The same for an event. -/
def Op.Safe (L : Layout) (s : Sys) : Op → Prop
  | .create idx => ElfOk s.k (L.fsData idx)
  | .call c => ∀ cur, s.k.current = some cur → c.Safe L s cur
  | _ => True

theorem Op.safe_fork (L : Layout) (s : Sys) : Op.Safe L s (.call .fork) := fun _ _ => trivial

theorem Op.safe_exit (L : Layout) (s : Sys) (r : SavedRegs) : Op.Safe L s (.call (.exit r)) :=
  fun _ _ => trivial

/-! ## §2 What a step can do -/

/-- The role of a trap frame. -/
def Role.IsTrapframe (c : Role) : Prop := ∃ i, c = .trapframe (.proc i)

theorem Role.IsTrapframe.not_table {c : Role} {a : Space} (h : c.IsTrapframe) : ¬ c.TableOf a := by
  obtain ⟨i, rfl⟩ := h
  exact id

/-- Only trap frames were written to. -/
structure TrapWords (L : Layout) (k : KState) (g : Ghost) (k' : KState) : Prop where
  kmem : KmemInv L k' g
  grow : Grow L Role.IsTrapframe (fun _ => False) k g k' g

theorem TrapWords.inv (h : TrapWords L k g k') (hI : Inv L k g) : Inv L k' g :=
  hI.pageWrites (fun _ _ hc => hc.not_table) h.kmem h.grow

theorem TrapWords.pcb (h : TrapWords L k g k') (hi : i < 8) {f : PcbField} (hf : f.InStruct) :
    pcb L k' i f = pcb L k i f :=
  h.grow.pcb hi hf (fun _ _ hw => hw)

theorem TrapWords.live (h : TrapWords L k g k') : Live L k' i ↔ Live L k i := by
  unfold Live
  refine and_congr_right (fun hi => ?_)
  rw [h.pcb (f := .state) hi trivial]

theorem TrapWords.trans (h : TrapWords L k g k') (h' : TrapWords L k' g k'') : TrapWords L k g k'' :=
  ⟨h'.kmem, h.grow.trans h'.grow⟩

theorem KmemInv.trapWord {w x : Nat} (hk : KmemInv L k g)
    (htf : g.ow (pcb L k i .trapframe) = .trapframe (.proc i)) (hw : w < 1024) :
    TrapWords L k g (setTrapWord L k i w x) := by
  obtain ⟨hk1, hg1⟩ := setTrapWord_grow (W := fun _ => False) (x := x) hk htf hw
  exact ⟨hk1, hg1.mono (fun c h => ⟨i, h⟩) (fun _ h => h)⟩

theorem KmemInv.toUser (hk : KmemInv L k g) (hi : i < 8)
    (htf : g.ow (pcb L k i .trapframe) = .trapframe (.proc i)) :
    TrapWords L k g (ktrapToUser L k i) := by
  have h1 : TrapWords L k g (setTrapWord L k i tfKernelSp (pcb L k i .kernelStackTop)) :=
    hk.trapWord htf (by decide)
  refine h1.trans (h1.kmem.trapWord ?_ (by decide))
  rwa [h1.pcb (f := .trapframe) hi trivial]

theorem setTrapWord_words {w x : Nat} (hI : Inv L k g) (hlive : Live L k i) (hw : w < 1024) :
    TrapWords L k g (setTrapWord L k i w x) :=
  hI.kmem.trapWord (hI.proc i hlive).trapframe hw

theorem ktrapToUser_words (hI : Inv L k g) (hlive : Live L k i) :
    TrapWords L k g (ktrapToUser L k i) :=
  hI.kmem.toUser hlive.1 (hI.proc i hlive).trapframe

theorem returnValue_words (ret : Nat) (hI : Inv L k g) (hlive : Live L k i) :
    TrapWords L k g (returnValue L k i ret) := by
  unfold returnValue
  have h1 := setTrapWord_words (w := tfA0) (x := ret) hI hlive (by decide)
  exact h1.trans (ktrapToUser_words (h1.inv hI) (h1.live.mpr hlive))

/-- The change of the kernel's state by an event, up to words of trap frames. -/
inductive Effect (L : Layout) (k : KState) (g : Ghost) : Op → KState → Ghost → Prop
  | nothing {op : Op} : Effect L k g op k g
  | scheduled {i : Nat} (hlive : Live L k i) :
      Effect L k g (.schedule i) { k with current := some i } g
  | created {idx i : Nat} {k' : KState} {g' : Ghost} (hidx : idx < maxFsFiles)
      (hok : ElfOk k (L.fsData idx)) (h : Created L idx i k g k' g') :
      Effect L k g (.create idx) k' g'
  | forked {cur i : Nat} {k' : KState} {g' : Ghost} (hcur : k.current = some cur)
      (hlive : Live L k cur) (hslot : freeSlot L k = some i) (hne : i ≠ cur)
      (h : Forked L cur i k g k' g') (hI : Inv L k' g') : Effect L k g (.call .fork) k' g'
  | execed {cur idx : Nat} {path : List UInt8} {argv : List (List UInt8)} {k' : KState}
      {g' : Ghost} (hcur : k.current = some cur) (hlive : Live L k cur) (hidx : idx < maxFsFiles)
      (hfile : filesystemGetFiledata L k path = L.fsData idx) (hok : ElfOk k (L.fsData idx))
      (hfit : argBytes argv ≤ pageSize) (h : Execed L cur idx argv k g k' g') :
      Effect L k g (.call (.exec path argv)) k' g'
  | added {cur q : Nat} {k' : KState} {g' : Ghost} (hcur : k.current = some cur)
      (hlive : Live L k cur) (h : PageAdded L cur k g q k' g') (hI : Inv L k' g') :
      Effect L k g (.call .sbrk) k' g'
  | exited {cur : Nat} {r : SavedRegs} {k' : KState} (hcur : k.current = some cur)
      (hlive : Live L k cur) (h : Released L cur k g k') :
      Effect L k g (.call (.exit r)) k' (g.release L k cur)
  | killed {i pid : Nat} {r : SavedRegs} {k' : KState} (hlive : Live L k i)
      (hpid : pcb L k i .pid = pid) (h : Released L i k g k') :
      Effect L k g (.call (.kill pid r)) k' (g.release L k i)
  | slept {cur : Nat} {r : SavedRegs} (hcur : k.current = some cur) (hlive : Live L k cur) :
      Effect L k g (.call (.sleep r)) (kprocYield L k cur r) g
  | opened {cur idx n fd : Nat} {path : List UInt8} (hcur : k.current = some cur)
      (hlive : Live L k cur) (hidx : idx < maxFsFiles)
      (hfile : filesystemLocateFile L k path = idx) (hn : n < maxOsFiles)
      (hfree : k.load (osInUse (L.osFile n)) = 0) (h3 : 3 ≤ fd) (hfd : fd < maxOpenFiles)
      (hnull : pcb L k cur (.openedFiles fd) = 0) :
      Effect L k g (.call (.openFile path))
        (setPcb L (setOsFile L k n 1 idx 0) cur (.openedFiles fd) (L.osFile n)) g
  | openedLeak {cur idx n : Nat} {path : List UInt8} (hcur : k.current = some cur)
      (hlive : Live L k cur) (hidx : idx < maxFsFiles)
      (hfile : filesystemLocateFile L k path = idx) (hn : n < maxOsFiles)
      (hfree : k.load (osInUse (L.osFile n)) = 0)
      (hfull : ∀ fd, 3 ≤ fd → fd < maxOpenFiles → pcb L k cur (.openedFiles fd) ≠ 0) :
      Effect L k g (.call (.openFile path)) (setOsFile L k n 1 idx 0) g
  | fileRead {cur fd buf size : Nat} {k1 : KState} (hcur : k.current = some cur)
      (hlive : Live L k cur) (hfd : fd < maxOpenFiles)
      (ho : OpenFile L k (pcb L k cur (.openedFiles fd))) (hk1 : KmemInv L k1 g)
      (hg1 : Grow L (Role.LeafOf (.proc cur)) (fun _ => False) k g k1 g) :
      Effect L k g (.call (.read fd buf size))
        (k1.store (osRwpos (pcb L k cur (.openedFiles fd)))
          (k.load (osRwpos (pcb L k cur (.openedFiles fd))) +
            fileRest L k (pcb L k cur (.openedFiles fd)) size)) g
  | closed {cur fd n : Nat} (hcur : k.current = some cur) (hlive : Live L k cur)
      (h3 : 3 ≤ fd) (hfd : fd < maxOpenFiles) (hn : n < maxOsFiles)
      (hentry : pcb L k cur (.openedFiles fd) = L.osFile n) :
      Effect L k g (.call (.close fd))
        (setOsFile L (setPcb L k cur (.openedFiles fd) 0) n 0 0xFFFFFFFF 0) g
  | stored {cur : Nat} {c : Call} {k' : KState} (hcur : k.current = some cur)
      (hlive : Live L k cur)
      (hc : (∃ buf size, c = .read 0 buf size) ∨ ∃ va b, c = .userStore va b)
      (hk' : KmemInv L k' g)
      (hg' : Grow L (Role.LeafOf (.proc cur)) (fun _ => False) k g k' g) :
      Effect L k g (.call c) k' g

/-! ## §3 Effects keep the invariants -/

/-- Building an image does not touch the file tables. -/
theorem Created.filesSame (h : Created L idx i k g k' g') : FilesSame L k k' :=
  .of_static (freeSlot_spec h.slot).1 h.grow.static_mem
    (fun fd hfd => h.field_eq (.openedFiles fd) hfd nofun nofun nofun nofun nofun nofun nofun)

theorem Forked.filesSame (h : Forked L cur i k g k' g') (hi : i < 8) : FilesSame L k k' :=
  .of_static hi h.grow.static_mem
    (fun fd hfd => h.field_eq (.openedFiles fd) hfd nofun nofun nofun nofun nofun nofun nofun)

theorem Execed.filesSame {argv : List (List UInt8)} (h : Execed L cur idx argv k g k' g')
    (hi : cur < 8) : FilesSame L k k' :=
  .of_static hi h.grow.static_mem
    (fun fd hfd => h.field_eq (.openedFiles fd) hfd nofun nofun nofun nofun nofun nofun nofun)

theorem PageAdded.filesSame {q : Nat} (h : PageAdded L cur k g q k' g') (hi : cur < 8) :
    FilesSame L k k' :=
  .of_static hi h.grow.static_mem (fun fd hfd => h.field_eq (.openedFiles fd) hfd nofun)

theorem Released.filesSame (h : Released L i k g k') (hi : i < 8) : FilesSame L k k' :=
  .of_static hi h.touch.static
    (fun fd hfd => h.field_eq (.openedFiles fd) hfd nofun (fun _ => nofun))

theorem kprocYield_filesSame {r : SavedRegs} (hi : cur < 8) :
    FilesSame L k (kprocYield L k cur r) := by
  have hg : Grow L (fun _ => False) (L.InPcb cur) k ⟨fun _ => .lost, []⟩ (kprocYield L k cur r)
      ⟨fun _ => .lost, []⟩ := kprocYield_grow hi
  exact .of_static hi hg.static_mem
    (fun fd hfd => pcb_kprocYield (f := .openedFiles fd) hfd (fun _ => nofun))

/-- Only the context of one slot is written. -/
theorem pcb_yield {r : SavedRegs} {f : PcbField} (hi : cur < 8) (hj : j < 8) (hf : f.InStruct)
    (hctx : ∀ r, f ≠ .context r) : pcb L (kprocYield L k cur r) j f = pcb L k j f := by
  by_cases hjc : j = cur
  · rw [hjc]
    exact pcb_kprocYield hf hctx
  · have hg : Grow L (fun _ => False) (L.InPcb cur) k ⟨fun _ => .lost, []⟩ (kprocYield L k cur r)
        ⟨fun _ => .lost, []⟩ := kprocYield_grow hi
    exact hg.pcb_other hj hf hjc

/-- The context words of a control block do not matter to the invariant. -/
theorem Inv.yield {r : SavedRegs} (hI : Inv L k g) (hi : cur < 8) :
    Inv L (kprocYield L k cur r) g := by
  exact hI.staticWrites (fun _ hx => kprocYield_page hi hx)
    (fun _ hj _ hf htr => pcb_yield hi hj hf htr.2) rfl

/-- Every effect keeps both invariants. -/
theorem Effect.inv (he : Effect L k g op k' g') (hI : Inv L k g) (hf : FilesInv L k) :
    Inv L k' g' ∧ FilesInv L k' := by
  cases he with
  | nothing => exact ⟨hI, hf⟩
  | scheduled hlive =>
    refine ⟨⟨hI.kmem.congr rfl (fun _ _ _ _ => rfl), hI.kernel, hI.queueUpper, hI.queueLower,
      hI.request, fun i hi => ?_, hI.heap, ?_⟩, hf.same ⟨fun _ _ _ => rfl, fun _ _ _ _ => rfl⟩⟩
    · exact (hI.proc i hi).congr (fun _ _ _ _ => rfl) (fun _ _ => rfl) (fun _ _ _ => rfl)
    · intro c hc
      rw [← Option.some.inj hc]
      exact hlive.1
  | created hidx hok h => exact ⟨h.inv, hf.same h.filesSame⟩
  | forked hcur hlive hslot hne h hI' => exact ⟨hI', hf.same (h.filesSame (freeSlot_spec hslot).1)⟩
  | execed hcur hlive hidx hfile hok hfit h => exact ⟨h.inv, hf.same (h.filesSame hlive.1)⟩
  | added hcur hlive h hI' => exact ⟨hI', hf.same (h.filesSame hlive.1)⟩
  | exited hcur hlive h => exact ⟨h.inv, hf.same (h.filesSame hlive.1)⟩
  | killed hlive hpid h => exact ⟨h.inv, hf.same (h.filesSame hlive.1)⟩
  | slept hcur hlive => exact ⟨hI.yield hlive.1, hf.same (kprocYield_filesSame hlive.1)⟩
  | opened hcur hlive hidx hfile hn hfree h3 hfd hnull =>
    exact openFile_inv hI hf hlive.1 hidx hn hfree h3 hfd
  | openedLeak hcur hlive hidx hfile hn hfree hfull => exact openLeak_inv _ hI hf hn hfree
  | fileRead hcur hlive hfd ho hk1 hg1 => exact fileRead_inv hI hf ho hk1 hg1
  | closed hcur hlive h3 hfd hn hentry => exact closeFile_inv hI hf hlive.1 hfd hn hentry
  | stored hcur hlive hc hk' hg' =>
    exact ⟨hI.pageWrites (fun _ _ h => h.not_table) hk' hg', hf.same hg'.filesSame⟩

/-! ## §4 Every safe step is one of these -/

theorem TrapWords.refl (hk : KmemInv L k g) : TrapWords L k g k := ⟨hk, .refl k g⟩

/-- A system call whose effect is known, and the return from it. -/
theorem Effect.toUser (he : Effect L k g op k' g') (hI : Inv L k g) (hf : FilesInv L k)
    (hlive : Live L k' i) : ∃ k1 g1, Effect L k g op k1 g1 ∧ TrapWords L k1 g1 (ktrapToUser L k' i) :=
  ⟨k', g', he, ktrapToUser_words (he.inv hI hf).1 hlive⟩

theorem Effect.returns {ret : Nat} (he : Effect L k g op k' g') (hI : Inv L k g) (hf : FilesInv L k)
    (hlive : Live L k' i) :
    ∃ k1 g1, Effect L k g op k1 g1 ∧ TrapWords L k1 g1 (returnValue L k' i ret) :=
  ⟨k', g', he, returnValue_words ret (he.inv hI hf).1 hlive⟩

/-- The child of a `fork` call and the way back to the parent. -/
theorem fork_words {ret : Nat} (hI : Inv L k g) (hlive : Live L k cur)
    (h : kprocFork L k cur = some (ret, k')) :
    ∃ i k3 g', freeSlot L k = some i ∧ i ≠ cur ∧ Forked L cur i k g k3 g' ∧ Inv L k3 g' ∧
      Live L k3 cur ∧ TrapWords L k3 g' (ktrapToUser L k' cur) ∧
      2 + copyCount k.mem (pcb L k cur .pagetable) ≤ g.free.length := by
  obtain ⟨i, k3, g', hslot, hne, hfk, hI3, rfl, -, -, -, hroom⟩ := kprocFork_inv hI hlive h
  have hi := (freeSlot_spec hslot).1
  have hlc : Live L k3 cur :=
    ⟨hlive.1, by rw [hfk.grow.pcb_other (f := .state) hlive.1 trivial (Ne.symm hne)]; exact hlive.2⟩
  have hli : Live L k3 i := ⟨hi, by rw [hfk.state]; decide⟩
  refine ⟨i, k3, g', hslot, hne, hfk, hI3, hlc, ?_, hroom⟩
  have h1 := setTrapWord_words (w := tfA0) (x := pcb L k3 i .pid) hI3 hlc (by decide)
  have h2 := setTrapWord_words (w := tfA0) (x := 0) (h1.inv hI3) (h1.live.mpr hli) (by decide)
  have h12 := h1.trans h2
  exact h12.trans (ktrapToUser_words (h12.inv hI3) (h12.live.mpr hlc))

theorem fork_effect {ret : Nat} (hI : Inv L k g) (hcur : k.current = some cur)
    (hlive : Live L k cur) (h : kprocFork L k cur = some (ret, k')) :
    ∃ k1 g1, Effect L k g (.call .fork) k1 g1 ∧ TrapWords L k1 g1 (ktrapToUser L k' cur) := by
  obtain ⟨i, k3, g', hslot, hne, hfk, hI3, -, hw, -⟩ := fork_words hI hlive h
  exact ⟨k3, g', .forked hcur hlive hslot hne hfk hI3, hw⟩

theorem exec_effect {ret : Nat} {path : List UInt8} {argv : List (List UInt8)} (hI : Inv L k g)
    (hf : FilesInv L k) (hcur : k.current = some cur) (hlive : Live L k cur)
    (hsafe : filesystemGetFiledata L k path ≠ 0 →
      ElfOk k (filesystemGetFiledata L k path) ∧ argBytes argv ≤ pageSize)
    (h : kprocExec L k cur path argv = some (ret, k')) :
    ∃ k1 g1, Effect L k g (.call (.exec path argv)) k1 g1 ∧
      TrapWords L k1 g1 (ktrapToUser L k' cur) := by
  obtain ⟨-, rfl⟩ | ⟨idx, g', hidx, hfile, hex⟩ := kprocExec_inv hI hlive hsafe h
  · exact Effect.nothing.toUser hI hf hlive
  · have hne : filesystemGetFiledata L k path ≠ 0 := by
      rw [hfile]
      simp only [Layout.fsData]
      omega
    obtain ⟨hok, hfit⟩ := hsafe hne
    rw [hfile] at hok
    exact (Effect.execed hcur hlive hidx hfile hok hfit hex).toUser hI hf
      ⟨hlive.1, by rw [hex.state]; decide⟩

theorem sbrk_effect {ret : Nat} (hI : Inv L k g) (hf : FilesInv L k) (hcur : k.current = some cur)
    (hlive : Live L k cur) (h : kprocAddPage L k cur = some (ret, k')) :
    ∃ k1 g1, Effect L k g (.call .sbrk) k1 g1 ∧ TrapWords L k1 g1 (returnValue L k' cur ret) := by
  obtain ⟨-, q, g', ha, hI'⟩ := kprocAddPage_inv hI hlive h
  refine (Effect.added hcur hlive ha hI').returns hI hf ⟨hlive.1, ?_⟩
  rw [ha.field_eq .state trivial nofun]
  exact hlive.2

theorem kill_effect {pid : Nat} {r : SavedRegs} (hI : Inv L k g) (hf : FilesInv L k)
    (hlive : Live L k cur) (hne : pcb L k cur .pid ≠ pid) :
    ∃ k1 g1, Effect L k g (.call (.kill pid r)) k1 g1 ∧
      TrapWords L k1 g1 (returnValue L (kprocKill L k cur pid r) cur 0xFFFFFFFF) := by
  obtain ⟨heq, -⟩ | ⟨-, ⟨heq, -⟩ | ⟨j, hj, hlj, hpid, hrel⟩⟩ :=
    kprocKill_spec pid r hI hlive
  · exact absurd heq hne
  · rw [heq]
    exact Effect.nothing.returns hI hf hlive
  · refine (Effect.killed hlj hpid hrel).returns hI hf ⟨hlive.1, ?_⟩
    rw [hrel.touch.pcb (f := .state) hlive.1 trivial (Ne.symm hj)]
    exact hlive.2

theorem open_effect {path : List UInt8} (hI : Inv L k g) (hf : FilesInv L k)
    (hcur : k.current = some cur) (hlive : Live L k cur) :
    ∃ k1 g1, Effect L k g (.call (.openFile path)) k1 g1 ∧
      TrapWords L k1 g1 (returnValue L (filesystemFileOpen L k cur path).2 cur
        (filesystemFileOpen L k cur path).1) := by
  have hi : cur < 8 := hlive.1
  have hout := filesystemFileOpen_outcome (L := L) k path hi
  generalize filesystemFileOpen L k cur path = out at hout
  obtain ⟨ret, k'⟩ := out
  replace hout : OpenOutcome L k cur path ret k' := hout
  cases hout with
  | noFile hfile => exact Effect.nothing.returns hI hf hlive
  | noEntry hfile hidx hfull => exact Effect.nothing.returns hI hf hlive
  | noDescriptor hfile hidx hn hfree hfirst hfull =>
    refine (Effect.openedLeak hcur hlive hidx hfile hn hfree hfull).returns hI hf ⟨hi, ?_⟩
    rw [pcb_setOsFile (f := .state) hn hi trivial]
    exact hlive.2
  | @opened idx n _ hfile hidx hn hfree hfirst h3 h8 hnull hlow =>
    refine (Effect.opened hcur hlive hidx hfile hn hfree h3 h8 hnull).returns hI hf ⟨hi, ?_⟩
    rw [pcb_setPcb_of_ne_field (f := .state) (g := .openedFiles ret) trivial h8 nofun,
      pcb_setOsFile (f := .state) hn hi trivial]
    exact hlive.2

theorem Grow.live {S : Role → Prop} (hg : Grow L S (fun _ => False) k g k' g') (hlive : Live L k i) :
    Live L k' i :=
  ⟨hlive.1, by rw [hg.pcb (f := .state) hlive.1 trivial (fun _ _ h => h)]; exact hlive.2⟩

/-- What `ksys_read` can do. -/
theorem ksysRead_cases {tty tty' : Tty} {buf size : Nat} {bytes : List UInt8}
    (h : ksysRead L k tty cur fd buf size = some (bytes, k', tty')) :
    (fd = 0 ∧ bytes = (ttyRead tty size).1 ∧ tty' = (ttyRead tty size).2 ∧
        storeBuf L cur buf bytes k = some k') ∨
      (1 ≤ fd ∧ fd < 3 ∧ bytes = [] ∧ k' = k ∧ tty' = tty) ∨
      (3 ≤ fd ∧ tty' = tty ∧ ∃ hd, kprocFileGet L k cur fd = some hd ∧
        filesystemFileRead L k cur hd buf size = some (bytes, k')) := by
  unfold ksysRead at h
  by_cases h0 : fd = 0
  · rw [if_pos h0] at h
    obtain ⟨k1, hst, heq⟩ := Option.map_eq_some_iff.mp h
    simp only [Prod.mk.injEq] at heq
    obtain ⟨rfl, rfl, rfl⟩ := heq
    exact .inl ⟨h0, rfl, rfl, hst⟩
  rw [if_neg h0] at h
  by_cases h12 : fd = 1 ∨ fd = 2
  · rw [if_pos h12, Option.some.injEq, Prod.mk.injEq, Prod.mk.injEq] at h
    exact .inr (.inl ⟨by omega, by omega, h.1.symm, h.2.1.symm, h.2.2.symm⟩)
  rw [if_neg h12] at h
  obtain ⟨hd, hget, hread⟩ := Option.bind_eq_some_iff.mp h
  obtain ⟨⟨bs, k1⟩, hr, heq⟩ := Option.map_eq_some_iff.mp hread
  simp only [Prod.mk.injEq] at heq
  obtain ⟨rfl, rfl, rfl⟩ := heq
  exact .inr (.inr ⟨by omega, rfl, hd, hget, hr⟩)

theorem read_effect {buf size : Nat} {bytes : List UInt8} {tty' : Tty} (hI : Inv L s.k g)
    (hf : FilesInv L s.k) (htty : s.tty.Ok) (hcur : s.k.current = some cur)
    (hlive : Live L s.k cur) (hbuf : buf < 2 ^ 32) (hopen : FdOpen L s.k cur fd)
    (hok : BufferOk L s.k cur pteW buf (readCount L s cur fd size))
    (h : ksysRead L s.k s.tty cur fd buf size = some (bytes, k', tty')) :
    tty'.Ok ∧ ∃ k1 g1, Effect L s.k g (.call (.read fd buf size)) k1 g1 ∧
      TrapWords L k1 g1 (returnValue L k' cur bytes.length) := by
  have hi : cur < 8 := hlive.1
  have hp := hI.proc cur hlive
  obtain ⟨hb, htty'⟩ := ttyRead_bytes size s.tty htty
  obtain ⟨rfl, hbytes, rfl, hst⟩ | ⟨-, -, rfl, rfl, rfl⟩ | ⟨h3, rfl, hd, hget, hr⟩ :=
    ksysRead_cases h
  · rw [hb] at hbytes
    rw [readCount, if_pos rfl, ← hbytes] at hok
    obtain ⟨hk', hg'⟩ := storeBuf_spec bytes hI.kmem hp hi hbuf hok hst
    exact ⟨htty', (Effect.stored hcur hlive (.inl ⟨buf, size, rfl⟩) hk' hg').returns hI hf
      (hg'.live hlive)⟩
  · exact ⟨htty, Effect.nothing.returns hI hf hlive⟩
  · obtain hlt | ⟨hfd, hne⟩ := hopen
    · omega
    rw [kprocFileGet_eq hp hi hfd, Option.some.injEq] at hget
    subst hget
    have ho := hf.openFile cur hi fd hfd hne
    rw [readCount, if_neg (by omega), if_neg (by omega)] at hok
    obtain ⟨k1, hk1, hg1, rfl, -⟩ := filesystemFileRead_spec hI.kmem hp hi ho
      (hf.sizes _ ho.file) hbuf hok hr
    have he : Effect L s.k g (.call (.read fd buf size)) _ g := .fileRead hcur hlive hfd ho hk1 hg1
    refine ⟨htty, he.returns hI hf ⟨hi, ?_⟩⟩
    obtain ⟨n, hn, heq⟩ := ho.handle
    rw [heq]
    simp only [osRwpos]
    rw [pcb_store_osFile (f := .state) hn (by omega) hi trivial]
    exact (hg1.live hlive).2

theorem close_effect {ret : Nat} (hI : Inv L k g) (hf : FilesInv L k)
    (hcur : k.current = some cur) (hlive : Live L k cur) (hfd : fd < maxOpenFiles)
    (h : filesystemFileClose L k cur fd = some (ret, k')) :
    ∃ k1 g1, Effect L k g (.call (.close fd)) k1 g1 ∧
      TrapWords L k1 g1 (returnValue L k' cur ret) := by
  have hi : cur < 8 := hlive.1
  by_cases h3 : fd < 3
  · unfold filesystemFileClose at h
    rw [if_pos h3, Option.some.injEq, Prod.mk.injEq] at h
    rw [← h.2]
    exact Effect.nothing.returns hI hf hlive
  obtain ⟨-, hc⟩ | ⟨n, hn, heq, hc⟩ := filesystemFileClose_spec hI hf hlive (by omega) hfd
  · rw [hc, Option.some.injEq, Prod.mk.injEq] at h
    rw [← h.2]
    exact Effect.nothing.returns hI hf hlive
  · rw [hc, Option.some.injEq, Prod.mk.injEq] at h
    rw [← h.2]
    refine (Effect.closed hcur hlive (by omega) hfd hn heq).returns hI hf ⟨hi, ?_⟩
    rw [pcb_setOsFile (f := .state) hn hi trivial,
      pcb_setPcb_of_ne_field (f := .state) (g := .openedFiles fd) trivial hfd nofun]
    exact hlive.2

theorem userPage_of_writable {va : Nat} (hw : userWritable L k cur va = true) :
    UserPage L k cur va := by
  unfold userWritable at hw
  cases hwalk : walk k.mem (pcb L k cur .pagetable) (va / pageSize) with
  | none => simp [hwalk] at hw
  | some e =>
    simp only [hwalk, Bool.and_eq_true, bne_iff_ne, ne_eq] at hw
    exact ⟨e, hwalk, hw.1⟩

theorem userStore_effect {va : Nat} {c : UInt8} (hI : Inv L k g) (hcur : k.current = some cur)
    (hlive : Live L k cur) (hva : va < 2 ^ 32) (hw : userWritable L k cur va = true)
    (h : storeByte L k cur va c = some k') :
    ∃ k1 g1, Effect L k g (.call (.userStore va c)) k1 g1 ∧ TrapWords L k1 g1 k' := by
  obtain ⟨hk', hg'⟩ := storeByte_user hI.kmem (hI.proc cur hlive) hva (userPage_of_writable hw) h
  exact ⟨k', g, .stored hcur hlive (.inr ⟨va, c, rfl⟩) hk' hg', .refl hk'⟩

/-- A call of the current process. -/
theorem Sys.call_effect {c : Call} (hI : Inv L s.k g) (hf : FilesInv L s.k) (htty : s.tty.Ok)
    (hcur : s.k.current = some cur) (hlive : Live L s.k cur) (hsafe : c.Safe L s cur)
    (h : s.call L cur c = some s') :
    s'.tty.Ok ∧ ∃ k1 g1, Effect L s.k g (.call c) k1 g1 ∧ TrapWords L k1 g1 s'.k := by
  cases c with
  | fork =>
    obtain ⟨⟨ret, k'⟩, hfork, rfl⟩ := Option.map_eq_some_iff.mp h
    exact ⟨htty, fork_effect hI hcur hlive hfork⟩
  | exec path argv =>
    simp only [Sys.call] at h
    split at h
    · obtain ⟨⟨ret, k'⟩, hexec, rfl⟩ := Option.map_eq_some_iff.mp h
      exact ⟨htty, exec_effect hI hf hcur hlive hsafe hexec⟩
    · exact absurd h nofun
  | sbrk =>
    obtain ⟨⟨ret, k'⟩, hadd, rfl⟩ := Option.map_eq_some_iff.mp h
    exact ⟨htty, sbrk_effect hI hf hcur hlive hadd⟩
  | exit r =>
    obtain rfl := Option.some.inj h
    have hrel := kprocFree_spec (s := r) hI hlive
    exact ⟨htty, _, _, .exited hcur hlive hrel, .refl hrel.inv.kmem⟩
  | kill pid r =>
    simp only [Sys.call] at h
    split at h
    · rename_i hself
      obtain rfl := Option.some.inj h
      obtain ⟨-, hrel⟩ | ⟨hne, -⟩ := kprocKill_spec pid r hI hlive
      · exact ⟨htty, _, _, .killed hlive hself hrel, .refl hrel.inv.kmem⟩
      · exact absurd hself hne
    · rename_i hne
      obtain rfl := Option.some.inj h
      exact ⟨htty, kill_effect hI hf hlive hne⟩
  | sleep r =>
    obtain rfl := Option.some.inj h
    exact ⟨htty, _, _, .slept hcur hlive, .refl (hI.yield hlive.1).kmem⟩
  | openFile path =>
    simp only [Sys.call] at h
    split at h
    · obtain rfl := Option.some.inj h
      exact ⟨htty, open_effect hI hf hcur hlive⟩
    · exact absurd h nofun
  | read fd buf size =>
    simp only [Sys.call] at h
    split at h
    · rename_i hlt
      obtain ⟨⟨bytes, k', tty'⟩, hread, rfl⟩ := Option.map_eq_some_iff.mp h
      exact read_effect hI hf htty hcur hlive hlt.2.1 hsafe.1 hsafe.2 hread
    · exact absurd h nofun
  | close fd =>
    simp only [Sys.call] at h
    split at h
    · obtain ⟨⟨ret, k'⟩, hclose, rfl⟩ := Option.map_eq_some_iff.mp h
      exact ⟨htty, close_effect hI hf hcur hlive hsafe hclose⟩
    · exact absurd h nofun
  | write fd data size =>
    simp only [Sys.call] at h
    split at h
    · obtain ⟨out, -, rfl⟩ := Option.map_eq_some_iff.mp h
      exact ⟨htty, Effect.nothing.toUser hI hf hlive⟩
    · exact absurd h nofun
  | userStore va c =>
    simp only [Sys.call] at h
    split at h
    · rename_i hw
      obtain ⟨k', hst, rfl⟩ := Option.map_eq_some_iff.mp h
      exact ⟨htty, userStore_effect hI hcur hlive hw.1 hw.2 hst⟩
    · exact absurd h nofun
  | saveReg w v =>
    simp only [Sys.call] at h
    split at h
    · rename_i hw
      obtain rfl := Option.some.inj h
      refine ⟨htty, _, _, .nothing, setTrapWord_words hI hlive ?_⟩
      simp only [IsReg, tfEpc] at hw
      omega
    · exact absurd h nofun

/-- A call is made by the current process, which is live. -/
theorem Sys.step_call_cases {c : Call} (h : s.step L (.call c) = some s') :
    ∃ cur, s.k.current = some cur ∧ s.user = true ∧ Live L s.k cur ∧ s.call L cur c = some s' := by
  simp only [Sys.step] at h
  cases hcur : s.k.current with
  | none => simp [hcur] at h
  | some cur =>
    simp only [hcur] at h
    split at h
    · rename_i hrun
      exact ⟨cur, rfl, hrun.1, hrun.2, h⟩
    · exact absurd h nofun

theorem Sys.step_call {c : Call} (hcur : s.k.current = some cur) (huser : s.user = true)
    (hlive : Live L s.k cur) : s.step L (.call c) = s.call L cur c := by
  simp only [Sys.step, hcur]
  exact if_pos ⟨huser, hlive⟩

/-- What one safe event can do. -/
theorem Sys.step_effect (hI : Inv L s.k g) (hf : FilesInv L s.k) (htty : s.tty.Ok)
    (hsafe : op.Safe L s) (h : s.step L op = some s') :
    s'.tty.Ok ∧ ∃ k1 g1, Effect L s.k g op k1 g1 ∧ TrapWords L k1 g1 s'.k := by
  cases op with
  | schedule i =>
    simp only [Sys.step] at h
    split at h
    · rename_i hrun
      obtain rfl := Option.some.inj h
      have hlive : Live L s.k i := by
        refine ⟨hrun.2.1, ?_⟩
        obtain hst | hst := hrun.2.2 <;> rw [hst] <;> decide
      have he : Effect L s.k g (.schedule i) { s.k with current := some i } g := .scheduled hlive
      refine ⟨htty, ?_⟩
      simp only [enterSlot]
      split
      · exact he.returns hI hf hlive
      · exact he.toUser hI hf hlive
    · exact absurd h nofun
  | create idx =>
    simp only [Sys.step] at h
    split at h
    · rename_i hidx
      obtain ⟨⟨i, k'⟩, hcr, rfl⟩ := Option.map_eq_some_iff.mp h
      obtain ⟨g', hc⟩ := kprocCreate_inv hI hidx hsafe hcr
      exact ⟨htty, k', g', .created hidx hsafe hc, .refl hc.inv.kmem⟩
    · exact absurd h nofun
  | console c =>
    obtain rfl := Option.some.inj h
    exact ⟨htty.bufferInsert c, _, _, .nothing, .refl hI.kmem⟩
  | call c =>
    obtain ⟨cur, hcur, -, hlive, h⟩ := Sys.step_call_cases h
    exact Sys.call_effect hI hf htty hcur hlive (hsafe cur hcur) h

/-! ## §5 Runs -/

/-- The invariant of a run. -/
structure SysInv (L : Layout) (s : Sys) (g : Ghost) : Prop where
  inv : Inv L s.k g
  files : FilesInv L s.k
  tty : s.tty.Ok

theorem SysInv.step (h : SysInv L s g) (hsafe : op.Safe L s) (hs : s.step L op = some s') :
    ∃ k1 g1, Effect L s.k g op k1 g1 ∧ TrapWords L k1 g1 s'.k ∧ SysInv L s' g1 := by
  obtain ⟨htty, k1, g1, he, ht⟩ := Sys.step_effect h.inv h.files h.tty hsafe hs
  obtain ⟨hI1, hf1⟩ := he.inv h.inv h.files
  exact ⟨k1, g1, he, ht, ht.inv hI1, hf1.same ht.grow.filesSame, htty⟩

/-- The first state of a run, as `kproc_create` makes it from the booted kernel. -/
structure Started (L : Layout) (s : Sys) (m : Mem) (k : KState) (g : Ghost) : Prop where
  mem : BootMem L m
  booted : Booted L m k
  created : Created L 2 0 k L.bootGhost s.k g
  tty : s.tty = Tty.init
  user : s.user = false

/-- A file as the boot code finds it. -/
theorem Booted.sameFile {m : Mem} (hb : Booted L m k) (hidx : idx < 12) :
    SameFile L idx (KState.init m) k := by
  intro x hx
  obtain ⟨h1, h2⟩ := hx.static hidx
  refine hb.static x h1 ?_
  rintro ⟨i, hi, hpcb⟩
  exact h2 i hi hpcb

theorem Sys.Init.started (h : Sys.Init L s) : ∃ m k g, Started L s m k g := by
  obtain ⟨⟨dev, m, hm, hboot⟩, htty, huser⟩ := h
  obtain ⟨k, g, hb, hc⟩ := boot_inv hboot
    (fun k hb => (hb.sameFile (by decide)).elfOk (by decide) hm.elf)
  exact ⟨m, k, g, hm, hb, hc, htty, huser⟩

/-- Before the first process no descriptor is in use. -/
theorem BootMem.opened_zero {m : Mem} (hm : BootMem L m) (hb : Booted L m k) (hi : i < 8)
    (hfd : fd < 8) : pcb L k i (.openedFiles fd) = 0 := by
  rw [hb.field_eq i hi (.openedFiles fd) hfd nofun nofun nofun]
  have hz : ∀ x < 4, m (L.proc i + (PcbField.openedFiles fd).offset + x) = 0 := by
    intro x hx
    refine hm.procs _ ?_ ?_ <;>
      simp only [Layout.proc, PcbField.offset, sizeofProcess, numProcesses] <;> omega
  have h0 := hz 0 (by omega)
  rw [Nat.add_zero] at h0
  simp [load32, h0, hz 1 (by omega), hz 2 (by omega), hz 3 (by omega)]

theorem Started.filesInv {m : Mem} (hs : Started L s m k g) : FilesInv L s.k := by
  refine FilesInv.same ⟨?_, ?_, ?_, ?_⟩ hs.created.filesSame
  · intro i hi fd hfd hne
    exact absurd (hs.mem.opened_zero hs.booted hi hfd) hne
  · intro i hi fd hfd
    exact hs.mem.opened_zero hs.booted hi (by omega)
  · intro i hi fd hfd j hj fd' hfd' hne
    exact absurd (hs.mem.opened_zero hs.booted hi hfd) hne
  · intro idx hidx
    obtain ⟨h1, h2⟩ := L.fsSize_static hidx
    have heq : k.load (L.fsSize idx) = load32 m (L.fsSize idx) :=
      load32_congr (fun x hx1 hx2 => hs.booted.static x (by omega) (h2 x hx1 hx2))
    rw [heq]
    exact hs.mem.sizes idx hidx

theorem Started.sysInv {m : Mem} (hs : Started L s m k g) : SysInv L s g :=
  ⟨hs.created.inv, hs.filesInv, by rw [hs.tty]; exact Tty.Ok.init⟩

/-- The states of the runs whose events are all `ok`. -/
abbrev SysReach (L : Layout) (ok : Sys → Op → Prop) : Sys → Prop :=
  Reach (Sys.Init L) (fun s op s' => s.step L op = some s') ok

/-- The invariant holds along every safe run. -/
theorem sysReach_inv {ok : Sys → Op → Prop} (hok : ∀ s op, ok s op → op.Safe L s)
    (h : SysReach L ok s) : ∃ g, SysInv L s g := by
  refine h.invariant (I := fun s => ∃ g, SysInv L s g) ?_ ?_
  · intro s h0
    obtain ⟨m, k, g, hs⟩ := h0.started
    exact ⟨g, hs.sysInv⟩
  · rintro s op s' ⟨g, hI⟩ ho hs
    obtain ⟨-, g1, -, -, hI'⟩ := hI.step (hok s op ho) hs
    exact ⟨g1, hI'⟩

/-! ## §6 The files never change -/

/-- `filesystem_files` and `os_files`. -/
def Layout.InFiles (L : Layout) (x : Nat) : Prop :=
  L.filesystemFiles ≤ x ∧ x < L.filesystemFiles + maxFsFiles * sizeofFilesystemFile

def Layout.InOsFiles (L : Layout) (x : Nat) : Prop :=
  L.osFiles ≤ x ∧ x < L.osFiles + maxOsFiles * sizeofOsFile

theorem Layout.InFiles.apart {x : Nat} (h : L.InFiles x) :
    x < L.freeRamBegin ∧ ¬ L.InPcbs x ∧ ¬ L.InOsFiles x := by
  have h1 := L.filesystemFiles_le
  have h2 := L.proc_fs
  have h3 := L.os_fs
  simp only [Layout.InFiles, Layout.InOsFiles, Layout.InPcbs, Layout.InPcb, Layout.proc, maxFsFiles,
    sizeofFilesystemFile, numProcesses, sizeofProcess, maxOsFiles, sizeofOsFile] at *
  refine ⟨by omega, ?_, by omega⟩
  rintro ⟨i, hi, hx⟩
  omega

theorem setOsFile_outside {x inUse pos : Nat} (hn : n < maxOsFiles) (hx : ¬ L.InOsFiles x) :
    (setOsFile L k n inUse idx pos).mem x = k.mem x := by
  simp only [Layout.InOsFiles, maxOsFiles, sizeofOsFile] at *
  unfold setOsFile osInUse osFsIdx osRwpos Layout.osFile
  simp only [KState.store_mem, sizeofOsFile]
  rw [store32_outside _ _ _ (by omega), store32_outside _ _ _ (by omega),
    store32_outside _ _ _ (by omega)]

theorem setPcb_outside {x v : Nat} {f : PcbField} (hi : i < 8) (hf : f.InStruct)
    (hx : ¬ L.InPcbs x) : (setPcb L k i f v).mem x = k.mem x := by
  have ho := PcbField.offset_lt hf
  have hx' : ¬ L.InPcb i x := fun h => hx ⟨i, hi, h⟩
  simp only [Layout.InPcb] at hx'
  exact store32_outside _ _ _ (by omega)

/-- The bytes of the files are as before. -/
def FsSame (L : Layout) (k k' : KState) : Prop := ∀ x, L.InFiles x → k'.mem x = k.mem x

theorem FilesSame.fsSame (h : FilesSame L k k') : FsSame L k k' :=
  fun x hx => h.static x hx.apart.1 hx.apart.2.1

theorem FsSame.trans (h : FsSame L k k') (h' : FsSame L k' k'') : FsSame L k k'' :=
  fun x hx => (h' x hx).trans (h x hx)

theorem FsSame.load_fsSize (h : FsSame L k k') (hidx : idx < 12) :
    k'.load (L.fsSize idx) = k.load (L.fsSize idx) := by
  refine load32_congr fun x h1 h2 => h x ?_
  simp only [Layout.InFiles, Layout.fsSize, Layout.fsFile, sizeofFilesystemFile, maxFsFiles] at *
  omega

/-- No safe event writes to the files. -/
theorem Effect.fsSame (he : Effect L k g op k' g') : FsSame L k k' := by
  cases he with
  | nothing => exact fun _ _ => rfl
  | scheduled hlive => exact fun _ _ => rfl
  | created hidx hok h => exact h.filesSame.fsSame
  | forked hcur hlive hslot hne h hI' => exact (h.filesSame (freeSlot_spec hslot).1).fsSame
  | execed hcur hlive hidx hfile hok hfit h => exact (h.filesSame hlive.1).fsSame
  | added hcur hlive h hI' => exact (h.filesSame hlive.1).fsSame
  | exited hcur hlive h => exact (h.filesSame hlive.1).fsSame
  | killed hlive hpid h => exact (h.filesSame hlive.1).fsSame
  | slept hcur hlive => exact (kprocYield_filesSame hlive.1).fsSame
  | @opened cur idx n fd path hcur hlive hidx hfile hn hfree h3 hfd hnull =>
    intro x hx
    rw [setPcb_outside (f := .openedFiles fd) hlive.1 hfd hx.apart.2.1,
      setOsFile_outside hn hx.apart.2.2]
  | openedLeak hcur hlive hidx hfile hn hfree hfull =>
    intro x hx
    rw [setOsFile_outside hn hx.apart.2.2]
  | fileRead hcur hlive hfd ho hk1 hg1 =>
    intro x hx
    obtain ⟨n, hn, heq⟩ := ho.handle
    have hos := hx.apart.2.2
    rw [← hg1.static_mem x hx.apart.1 id, heq]
    refine store32_outside _ _ _ ?_
    simp only [Layout.InOsFiles, osRwpos, Layout.osFile, maxOsFiles, sizeofOsFile] at *
    omega
  | @closed cur fd n hcur hlive h3 hfd hn hentry =>
    intro x hx
    rw [setOsFile_outside hn hx.apart.2.2,
      setPcb_outside (f := .openedFiles fd) hlive.1 hfd hx.apart.2.1]
  | stored hcur hlive hc hk' hg' => exact hg'.filesSame.fsSame

theorem SysInv.step_fsSame (h : SysInv L s g) (hsafe : op.Safe L s) (hs : s.step L op = some s') :
    FsSame L s.k s'.k := by
  obtain ⟨k1, g1, he, ht, -⟩ := h.step hsafe hs
  exact he.fsSame.trans ht.grow.filesSame.fsSame

/-- Finding a file depends on its names only. -/
theorem strcmp_congr {m m' : Mem} (path : List UInt8) {a : Nat}
    (h : ∀ x, a ≤ x → x ≤ a + path.length → m' x = m x) : strcmp m' path a = strcmp m path a := by
  induction path generalizing a with
  | nil => rw [strcmp, strcmp, h a le_rfl (by simp)]
  | cons c cs ih =>
    rw [List.length_cons] at h
    rw [strcmp, strcmp, h a le_rfl (by omega), ih (fun x hx1 hx2 => h x (by omega) (by omega))]

/-- A path that ends before the table does. -/
theorem filesystemLocateFile_congr {path : List UInt8} (h : FsSame L k k')
    (hlen : path.length < maxFilesize) :
    filesystemLocateFile L k' path = filesystemLocateFile L k path := by
  unfold filesystemLocateFile
  refine congrArg (fun o : Option Nat => o.getD 0xFFFFFFFF) ?_
  refine List.find?_congr (fun idx hidx => ?_)
  have hidx := List.mem_range.mp hidx
  rw [strcmp_congr]
  intro x hx1 hx2
  refine h x ?_
  simp only [Layout.InFiles, Layout.fsName, Layout.fsFile, sizeofFilesystemFile, maxFsFiles,
    maxFilesize] at *
  omega

end Risky321.Kernel
