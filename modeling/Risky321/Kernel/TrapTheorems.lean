/-
Risky321.Kernel.TrapTheorems — a trap, from the process to the kernel's calls.

What `uservec` and the first lines of the handler do to the kernel's state is
what a few `saveReg` calls do (`Saved`), and the call that the handler then makes
is the one the process asks for. On the other end of the handler the words that
the next `uservec` needs are in place (`Sys.call_returning`).
-/
import Risky321.Kernel.UservecTheorems

namespace Risky321.Kernel

open Risky321.Lib

variable {L : Layout} {k k' k1 : KState} {g : Ghost} {i cur v w va n : Nat} {s s' s1 s2 : Sys}
  {op : Op} {c : Call} {p q : Process} {reg : Reg → Word} {satp pc : Word} {r : SavedRegs}
  {t : TrapInfo}

/-! ## §1 Registers are saved -/

/-- The safe runs from `s` on. -/
abbrev Steps (L : Layout) (s : Sys) : Sys → Prop :=
  Reach (fun u => u = s) (fun u op u' => u.step L op = some u') (fun u op => op.Safe L u)

theorem Steps.one (hsafe : op.Safe L s) (hs : s.step L op = some s') : Steps L s s' :=
  .step (.init rfl) hsafe hs

theorem World.set_set (w : World) (i : Nat) (o o' : Option Process) :
    (w.set i o).set i o' = w.set i o' := by
  simp [World.set, Function.update_idem]

/-- The kernel has stored registers of the process in slot `cur`, which makes it `p`. -/
structure Saved (L : Layout) (s : Sys) (g : Ghost) (cur : Nat) (p : Process) (s' : Sys) : Prop where
  running : Running L s' g cur
  view : runView L s'.k cur = p
  world : s'.world L = (s.world L).set cur (some p)
  steps : Steps L s s'
  words : TrapWords L s.k g s'.k
  kernelWord : ∀ w < 36, ¬ IsReg w → trapWord L s'.k cur w = trapWord L s.k cur w
  tty : s'.tty = s.tty

theorem Running.running_eq (h : Running L s g cur) : s.running = some cur :=
  Sys.running_eq.mpr ⟨h.user, h.current⟩

theorem Running.saved (h : Running L s g cur) : Saved L s g cur (runView L s.k cur) s where
  running := h
  view := rfl
  world := (World.set_eq_self (procsView_running h.live h.running_eq)).symm
  steps := .init rfl
  words := .refl h.inv.inv.kmem
  kernelWord := fun _ _ _ => rfl
  tty := rfl

/-- One more register. -/
theorem Saved.setReg (h : Saved L s g cur p s1) (hw : IsReg w) :
    Saved L s g cur (p.setReg w v) { s1 with k := setTrapWord L s1.k cur w v } := by
  have hI := h.running.inv
  have hlive := h.running.live
  have hcall : s1.call L cur (.saveReg w v) = some { s1 with k := setTrapWord L s1.k cur w v } :=
    if_pos hw
  have hstep := (h.running.step_call (.saveReg w v)).trans hcall
  have hwords : TrapWords L s1.k g (setTrapWord L s1.k cur w v) :=
    setTrapWord_words hI.inv hlive hw.lt.1
  have hview : runView L (setTrapWord L s1.k cur w v) cur = p.setReg w v := by
    rw [runView_congr (procView_setTrapWord hI.inv hlive hw), ← h.view]
    rfl
  have hworld : Sys.world L { s1 with k := setTrapWord L s1.k cur w v } =
      (s1.world L).set cur (some (p.setReg w v)) :=
    ((hI.callDone hlive).words hwords (touch_setTrapWord hI.inv hlive hw.lt.1)).world_same
      hI.files h.running.running_eq hwords.filesSame hview
  refine ⟨⟨⟨hwords.inv hI.inv, hI.files.same hwords.filesSame, hI.tty⟩, h.running.user,
    h.running.current, hwords.live.mpr hlive⟩, hview, ?_,
    .step h.steps (show Op.Safe L s1 (.call (.saveReg w v)) from fun _ _ => trivial) hstep,
    h.words.trans hwords, fun u hu hno => ?_, h.tty⟩
  · rw [hworld, h.world, World.set_set]
  · have hne : u ≠ w := by
      rintro rfl
      exact hno hw
    rw [← h.kernelWord u hu hno]
    exact trapWord_setTrapWord_of_ne hI.inv.kmem hlive.1 (hI.inv.proc cur hlive).trapframe
      hw.lt.1 hne

/-- All registers of a frame. -/
theorem Saved.storeAll {f : Frame} (h : Saved L s g cur p s1) (hf : ∀ u ∈ f, IsReg u.2)
    (reg : Reg → Word) :
    Saved L s g cur (f.storeAll (fun p w v => p.setReg w v.toNat) reg p)
      { s1 with k := f.storeAll (fun k w v => setTrapWord L k cur w v.toNat) reg s1.k } := by
  induction f generalizing p s1 with
  | nil => exact h
  | cons u f ih =>
    exact ih (h.setReg (v := (reg u.1).toNat) (hf u List.mem_cons_self))
      fun t ht => hf t (List.mem_cons_of_mem _ ht)

/-- The stores of `uservec` and the one of `sepc` leave what the process had. -/
theorem Process.storeAll_withHart (p : Process) (reg : Reg → Word) (pc : Word) :
    (trapFrame.storeAll (fun p w v => p.setReg w v.toNat) reg p).setReg tfEpc pc.toNat =
      p.withHart reg pc := by
  have hget : ∀ (p : Process) (w : Nat) (v : Word) (u : Nat),
      (p.setReg w v.toNat).reg u = if u = w then v.toNat else p.reg u := by
    intro p w v u
    rw [Process.setReg, Nat.mod_eq_of_lt v.isLt]
    simp only [Function.update_apply]
  have hpage : (trapFrame.storeAll (fun p w v => p.setReg w v.toNat) reg p).page = p.page :=
    Frame.storeAll_keeps Process.page (fun _ _ _ => by rfl) reg p
  have hsleep : (trapFrame.storeAll (fun p w v => p.setReg w v.toNat) reg p).sleeping =
      p.sleeping :=
    Frame.storeAll_keeps Process.sleeping (fun _ _ _ => by rfl) reg p
  have hreg : ∀ u, ((trapFrame.storeAll (fun p w v => p.setReg w v.toNat) reg p).setReg tfEpc
      pc.toNat).reg u = (p.withHart reg pc).reg u := by
    intro u
    rw [hget]
    simp only [Process.withHart]
    by_cases h3 : u = tfEpc
    · rw [if_pos h3, if_pos h3]
    · rw [if_neg h3, if_neg h3]
      by_cases hu : 5 ≤ u ∧ u < 36
      · have hmem := mem_trapFrame (wordReg u)
        rw [regWord_wordReg hu.1 hu.2] at hmem
        rw [if_pos hu]
        exact Frame.storeAll_get hget reg p trapFrame_words hmem
      · rw [if_neg hu]
        refine Frame.storeAll_get_other hget reg p fun hmem => ?_
        obtain ⟨a, ha, rfl⟩ := List.mem_map.mp hmem
        obtain h | h := trapFrame_isReg a ha
        · exact h3 h
        · exact hu h
  generalize trapFrame.storeAll (fun p w v => p.setReg w v.toNat) reg p = q at *
  simp only [Process.setReg, Process.withHart, Process.mk.injEq] at *
  exact ⟨funext hreg, hpage, hsleep⟩

/-! ## §2 The call -/

/-- A byte of the process, as the kernel loads it. -/
theorem loadByte_of_byte {b : UInt8} (h : (runView L k cur).byte va = some b) :
    loadByte L k cur va = some b := by
  have hv : va / pageSize < 2 ^ 20 := by
    by_contra hv
    simp only [Process.byte, runView, procView, if_neg hv] at h
    cases h
  simp only [Process.byte, runView, procView, if_pos hv, userPage] at h
  simp only [loadByte, translate]
  cases hw : walk k.mem (pcb L k cur .pagetable) (va / pageSize) with
  | none => simp [hw] at h
  | some e =>
    simp only [hw] at h ⊢
    by_cases hU : e &&& pteU ≠ 0
    · have hR : (e % 1024) &&& pteR ≠ 0 ↔ e &&& pteR ≠ 0 := by
        have h1 := and_two_pow_ne_zero (e % 1024) 1
        have h2 := and_two_pow_ne_zero e 1
        norm_num at h1 h2
        rw [ne_eq, ne_eq, h1, h2]
        omega
      have hlt : va % pageSize < pageSize := Nat.mod_lt _ (by decide)
      rw [if_pos hU, Option.bind_some] at h
      by_cases he : e &&& pteR ≠ 0
      · rw [if_pos (hR.mpr he)] at h
        rw [if_pos he, Option.map_some, ← h]
        simp [loadBytes, hlt]
      · rw [if_neg (mt hR.mp he)] at h
        cases h
    · rw [if_neg hU] at h
      cases h

theorem loadWord_of_word (h : (runView L k cur).word va = some w) :
    loadWord L k cur va = some w := by
  simp only [Process.word, Option.bind_eq_some_iff, Option.map_eq_some_iff] at h
  obtain ⟨b0, h0, b1, h1, b2, h2, b3, h3, hw⟩ := h
  simp only [loadWord, loadByte_of_byte h0, loadByte_of_byte h1, loadByte_of_byte h2,
    loadByte_of_byte h3, Option.bind_some, Option.map_some, hw]

theorem loadString_of_hasString {str : List UInt8} (hn : str.length < n)
    (h : (runView L k cur).HasString va str) : loadString L k cur n va = some str := by
  induction str generalizing n va with
  | nil =>
    obtain ⟨n, rfl⟩ := Nat.exists_eq_succ_of_ne_zero (Nat.ne_of_gt hn)
    rw [loadString, loadByte_of_byte h, Option.bind_some, if_pos rfl]
  | cons b bs ih =>
    obtain ⟨n, rfl⟩ := Nat.exists_eq_succ_of_ne_zero (Nat.ne_zero_of_lt hn)
    obtain ⟨hb, hbyte, hrest⟩ := h
    rw [loadString, loadByte_of_byte hbyte, Option.bind_some, if_neg hb,
      ih (Nat.lt_of_succ_lt_succ hn) hrest]
    rfl

theorem loadArgs_of_hasArgs {args : List (List UInt8)} (hn : args.length < n)
    (h : (runView L k cur).HasArgs va args) : loadArgs L k cur n va = some args := by
  induction args generalizing n va with
  | nil =>
    obtain ⟨n, rfl⟩ := Nat.exists_eq_succ_of_ne_zero (Nat.ne_of_gt hn)
    rw [loadArgs, loadWord_of_word h, Option.bind_some, if_pos rfl]
  | cons arg args ih =>
    obtain ⟨n, rfl⟩ := Nat.exists_eq_succ_of_ne_zero (Nat.ne_zero_of_lt hn)
    obtain ⟨q, hq, hword, hlen, hstr, hrest⟩ := h
    rw [loadArgs, loadWord_of_word hword, Option.bind_some, if_neg hq,
      loadString_of_hasString hlen hstr, Option.bind_some, ih (Nat.lt_of_succ_lt_succ hn) hrest]
    rfl

theorem loadArgv_of_hasArgv {args : List (List UInt8)} (h : (runView L k cur).HasArgv va args) :
    loadArgv L k cur va = some args := by
  unfold Process.HasArgv at h
  unfold loadArgv
  by_cases h0 : va = 0
  · rw [if_pos h0] at h ⊢
    rw [h]
  · rw [if_neg h0] at h ⊢
    exact loadArgs_of_hasArgs h.1 h.2

theorem runView_reg (hw : IsReg w) : (runView L k cur).reg w = trapWord L k cur w := if_pos hw

/-- The call that the handler makes is the one the process asks for. -/
theorem ksyscall_asks (h : ksyscall L k cur r = some c) : (runView L k cur).Asks r c := by
  have h0 : (runView L k cur).reg tfA0 = trapWord L k cur tfA0 := runView_reg (by decide)
  have h1 : (runView L k cur).reg tfA1 = trapWord L k cur tfA1 := runView_reg (by decide)
  have h2 : (runView L k cur).reg tfA2 = trapWord L k cur tfA2 := runView_reg (by decide)
  have h7 : (runView L k cur).reg tfA7 = trapWord L k cur tfA7 := runView_reg (by decide)
  have hpath : ∀ {path s : List UInt8},
      loadString L k cur (2 ^ 32) (trapWord L k cur tfA0) = some path → s.length < 2 ^ 32 →
      (runView L k cur).HasString ((runView L k cur).reg tfA0) s → path = s := by
    intro path s hload hlen hs
    rw [h0] at hs
    exact Option.some.inj (hload.symm.trans (loadString_of_hasString hlen hs))
  simp only [ksyscall] at h
  split at h <;> rename_i hnum
  · obtain rfl := Option.some.inj h
    exact .fork (h7.trans hnum)
  · obtain rfl := Option.some.inj h
    exact .exit (h7.trans hnum)
  · obtain rfl := Option.some.inj h
    rw [← h0, ← h1, ← h2]
    exact .read (h7.trans hnum)
  · obtain rfl := Option.some.inj h
    rw [← h0]
    exact .kill (h7.trans hnum)
  · obtain ⟨path, hload, h⟩ := Option.bind_eq_some_iff.mp h
    obtain ⟨argv, hargv, rfl⟩ := Option.map_eq_some_iff.mp h
    refine .exec (h7.trans hnum) (fun s => hpath hload) fun args hargs => ?_
    rw [h1] at hargs
    exact Option.some.inj (hargv.symm.trans (loadArgv_of_hasArgv hargs))
  · obtain rfl := Option.some.inj h
    exact .sbrk (h7.trans hnum)
  · obtain rfl := Option.some.inj h
    exact .sleep (h7.trans hnum)
  · obtain ⟨path, hload, rfl⟩ := Option.map_eq_some_iff.mp h
    exact .openFile (h7.trans hnum) fun s => hpath hload
  · obtain rfl := Option.some.inj h
    rw [← h0, ← h1, ← h2]
    exact .write (h7.trans hnum)
  · obtain rfl := Option.some.inj h
    rw [← h0]
    exact .close (h7.trans hnum)
  · cases h

/-! ## §3 The return -/

/-- `k'` is what `ktrap_to_user` leaves to the process in slot `cur`. -/
def Returning (L : Layout) (cur : Nat) (k' : KState) : Prop :=
  ∃ k g, Inv L k g ∧ Live L k cur ∧ k.current = some cur ∧ k' = ktrapToUser L k cur

theorem Inv.returning (hI : Inv L k g) (hlive : Live L k cur) (hcur : k.current = some cur) :
    Returning L cur (ktrapToUser L k cur) := ⟨k, g, hI, hlive, hcur, rfl⟩

theorem Inv.returning_value (ret : Nat) (hI : Inv L k g) (hlive : Live L k cur)
    (hcur : k.current = some cur) : Returning L cur (returnValue L k cur ret) := by
  have hw : TrapWords L k g (Risky321.Kernel.setTrapWord L k cur tfA0 ret) :=
    setTrapWord_words hI hlive (by decide)
  exact (hw.inv hI).returning (hw.live.mpr hlive) hcur

theorem CallDone.returning_value (ret : Nat) (h : CallDone L s cur k1 g)
    (hcur : s.k.current = some cur) : Returning L cur (returnValue L k1 cur ret) :=
  h.inv.returning_value ret h.live (h.current.trans hcur)

theorem Returning.live (h : Returning L cur k') : Live L k' cur ∧ k'.current = some cur := by
  obtain ⟨k, g, hI, hlive, hcur, rfl⟩ := h
  exact ⟨(ktrapToUser_words hI hlive).live.mpr hlive, hcur⟩

/-- The words of the trap frame that `uservec` goes by: the stack and the handler. -/
structure FrameReady (L : Layout) (cur : Nat) (k : KState) : Prop where
  kernelSp : trapWord L k cur tfKernelSp = pcb L k cur .kernelStackTop
  kernelTrap : trapWord L k cur tfKernelTrap = L.ktrapFromUserHandler

theorem Returning.ready (h : Returning L cur k') : FrameReady L cur k' := by
  obtain ⟨k, g, hI, hlive, -, rfl⟩ := h
  have hi := hlive.1
  have htf := (hI.proc cur hlive).trapframe
  have h1 : TrapWords L k g (setTrapWord L k cur tfKernelSp (pcb L k cur .kernelStackTop)) :=
    setTrapWord_words hI hlive (by decide)
  have htf1 := (h1.inv hI).proc cur (h1.live.mpr hlive) |>.trapframe
  constructor
  · rw [(ktrapToUser_words hI hlive).pcb (f := .kernelStackTop) hi trivial, ktrapToUser,
      trapWord_setTrapWord_of_ne h1.kmem hi htf1 (by decide) (by decide),
      trapWord_setTrapWord_same hI.kmem hi htf (by decide) (pcb_lt ..)]
  · rw [ktrapToUser, trapWord_setTrapWord_same h1.kmem hi htf1 (by decide) L.handler_lt]

/-- What `ksys_read` leaves, whether it is the console, a file, or nothing that is read. -/
theorem read_done {fd buf size : Nat} (h : Running L s g cur) (hopen : FdOpen L s.k cur fd)
    (hok : BufferOk L s.k cur pteW buf (readCount L s cur fd size))
    (hs : s.call L cur (.read fd buf size) = some s') :
    ∃ k1 ret, CallDone L s cur k1 g ∧ s'.k = returnValue L k1 cur ret := by
  have hlive := h.live
  have hinv := h.inv
  simp only [Sys.call] at hs
  split at hs
  · rename_i hlt
    rw [ksysRead_eq hinv hlive hlt.2.1 hopen hok] at hs
    obtain ⟨⟨bytes, k1, tty⟩, hread, rfl⟩ := Option.map_eq_some_iff.mp hs
    obtain ⟨k1, hst, heq⟩ := Option.map_eq_some_iff.mp hread
    simp only [Prod.mk.injEq] at heq
    obtain ⟨rfl, rfl, rfl⟩ := heq
    rw [← length_readBytes hinv] at hok
    obtain ⟨hd, -, -, hsame, -, -⟩ := CallDone.filled hinv hlive hlt.2.1 hok hst
    by_cases h3 : fd < 3
    · exact ⟨k1, (readBytes L s cur fd size).length, hd, by rw [readDone, if_pos h3]⟩
    · obtain ⟨h8, hne⟩ := hopen.resolve_left h3
      have ho := hinv.files.openFile cur hlive.1 fd h8 hne
      have hpos : s.k.load (osRwpos (pcb L s.k cur (.openedFiles fd))) +
          fileRest L s.k (pcb L s.k cur (.openedFiles fd)) size ≤
            s.k.load (L.fsSize (s.k.load (osFsIdx (pcb L s.k cur (.openedFiles fd))))) := by
        have := ho.position
        unfold fileRest
        omega
      obtain ⟨hd', -, -⟩ := hd.position hinv hsame h8 hne ho hpos rfl
      exact ⟨_, (readBytes L s cur fd size).length, hd', by rw [readDone, if_neg h3]⟩
  · cases hs

/-- A call that does not give up the processor goes back to its process. -/
theorem Sys.call_returning (h : Running L s g cur) (hsafe : c.Safe L s cur)
    (hs : s.call L cur c = some s') (hu : s'.user = true) (hstore : ∀ va b, c ≠ .userStore va b)
    (hsave : ∀ w v, c ≠ .saveReg w v) : Returning L cur s'.k := by
  have hcur := h.current
  have hI := h.inv.inv
  have hlive := h.live
  cases c with
  | fork =>
    obtain ⟨⟨ret, k'⟩, hfork, rfl⟩ := Option.map_eq_some_iff.mp hs
    obtain ⟨i, k3, g', -, -, hf, -, rfl, hI', hlive', -⟩ := kprocFork_inv hI hlive hfork
    exact hI'.returning hlive' (hf.grow.current.trans hcur)
  | exec path argv =>
    simp only [Sys.call] at hs
    split at hs
    · obtain ⟨⟨ret, k'⟩, hexec, rfl⟩ := Option.map_eq_some_iff.mp hs
      obtain ⟨-, rfl⟩ | ⟨idx, g', hidx, hfile, hex⟩ := kprocExec_inv hI hlive hsafe hexec
      · exact hI.returning hlive hcur
      · have hd := hex.done h.inv hlive
        exact hd.inv.returning hd.live (hd.current.trans hcur)
    · cases hs
  | sbrk =>
    obtain ⟨⟨ret, k'⟩, hadd, rfl⟩ := Option.map_eq_some_iff.mp hs
    obtain ⟨-, q, g', ha, hI'⟩ := kprocAddPage_inv hI hlive hadd
    exact (ha.done hI' h.inv hlive (ha.grow.current)).returning_value ret hcur
  | exit r =>
    obtain rfl := Option.some.inj hs
    cases hu
  | sleep r =>
    obtain rfl := Option.some.inj hs
    cases hu
  | kill pid r =>
    simp only [Sys.call] at hs
    split at hs
    · obtain rfl := Option.some.inj hs
      cases hu
    · rename_i hne
      obtain rfl := Option.some.inj hs
      obtain ⟨heq, -⟩ | ⟨-, ⟨heq, -⟩ | ⟨j, hj, hlj, hpid, hrel⟩⟩ := kprocKill_spec pid r hI hlive
      · exact absurd heq hne
      · rw [heq]
        exact hI.returning_value _ hlive hcur
      · refine hrel.inv.returning_value _ ?_ (hrel.current.trans hcur)
        exact ((hrel.touch.othersKept hI).live cur (Ne.symm hj)).mpr hlive
  | openFile path =>
    simp only [Sys.call] at hs
    split at hs
    · obtain rfl := Option.some.inj hs
      have hout := filesystemFileOpen_outcome (L := L) s.k path hlive.1
      generalize filesystemFileOpen L s.k cur path = out at hout
      obtain ⟨ret, k'⟩ := out
      replace hout : OpenOutcome L s.k cur path ret k' := hout
      cases hout with
      | noFile => exact hI.returning_value _ hlive hcur
      | noEntry => exact hI.returning_value _ hlive hcur
      | noDescriptor hfile hidx hn hfree =>
        exact (opened_leak _ h.inv hlive hn hfree).1.returning_value _ hcur
      | opened hfile hidx hn hfree hfirst h3 h8 =>
        exact (opened_view hlive hidx h.inv hn hfree h3 h8 rfl).1.returning_value _ hcur
    · cases hs
  | read fd buf size =>
    obtain ⟨k1, ret, hd, heq⟩ := read_done h hsafe.1 hsafe.2 hs
    rw [heq]
    exact hd.returning_value ret hcur
  | close fd =>
    simp only [Sys.call] at hs
    split at hs
    · obtain ⟨⟨ret, k'⟩, hclose, rfl⟩ := Option.map_eq_some_iff.mp hs
      by_cases h3 : fd < 3
      · rw [filesystemFileClose, if_pos h3, Option.some.injEq, Prod.mk.injEq] at hclose
        rw [← hclose.2]
        exact hI.returning_value _ hlive hcur
      · obtain ⟨-, heq⟩ | ⟨n, hn, hentry, heq⟩ :=
          filesystemFileClose_spec hI h.inv.files hlive (by omega) hsafe
        · rw [hclose, Option.some.injEq, Prod.mk.injEq] at heq
          rw [heq.2]
          exact hI.returning_value _ hlive hcur
        · rw [hclose, Option.some.injEq, Prod.mk.injEq] at heq
          exact (closed_view hlive h.inv hn hsafe hentry heq.2).1.returning_value _ hcur
    · cases hs
  | write fd data size =>
    simp only [Sys.call] at hs
    split at hs
    · obtain ⟨out, -, rfl⟩ := Option.map_eq_some_iff.mp hs
      exact hI.returning hlive hcur
    · cases hs
  | userStore va b => exact absurd rfl (hstore va b)
  | saveReg w v => exact absurd rfl (hsave w v)

end Risky321.Kernel
