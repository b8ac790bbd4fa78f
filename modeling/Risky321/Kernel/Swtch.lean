/-
Risky321.Kernel.Swtch — `swtch.S`, and the kernel threads it switches between.

A process that gives up the processor calls `swtch` in `kproc_yield`, and the
scheduler calls it to go on with the process. To both it looks like a call that
returns, with the registers a callee must keep. That takes more than the 28
instructions: the words of the context must be found where they were put, behind
the page table of whichever process has run in between. §1 is the code, §2 its
effect through the kernel's mapping, §3 what becomes of a context while others run,
§4 the two calls together (`swtch_resumes`).
-/
import Risky321.Kernel.ProgramTheorems

namespace Risky321.Kernel

open Risky321.Lib

variable {L : Layout} {k k' : KState} {g : Ghost} {i j cur base old new : Nat} {c c' c1 c2 : Cpu}
  {s s' s1 : Sys} {p q : Process} {op : CpuOp} {kreg : Reg → Word} {r : SavedRegs} {t : TrapInfo}
  {satp pc : Word}

/-! ## §1 The code -/

/-- The stores, to the context in `a0`, and the loads, from the one in `a1`. -/
def swtchSave : List Instr :=
  [
    .sw .ra 0 .a0, .sw .sp 4 .a0, .sw .s0 8 .a0, .sw .s1 12 .a0, .sw .s2 16 .a0, .sw .s3 20 .a0,
    .sw .s4 24 .a0, .sw .s5 28 .a0, .sw .s6 32 .a0, .sw .s7 36 .a0, .sw .s8 40 .a0,
    .sw .s9 44 .a0, .sw .s10 48 .a0, .sw .s11 52 .a0
  ]

def swtchLoad : List Instr :=
  [
    .lw .ra 0 .a1, .lw .sp 4 .a1, .lw .s0 8 .a1, .lw .s1 12 .a1, .lw .s2 16 .a1, .lw .s3 20 .a1,
    .lw .s4 24 .a1, .lw .s5 28 .a1, .lw .s6 32 .a1, .lw .s7 36 .a1, .lw .s8 40 .a1,
    .lw .s9 44 .a1, .lw .s10 48 .a1, .lw .s11 52 .a1
  ]

/-- `swtch` up to `ret`. -/
def swtch : List SInstr := swtchSave.map .base ++ swtchLoad.map .base

/-- A context in the kernel's static data, which is mapped to itself. -/
structure ContextAt (L : Layout) (base : Nat) : Prop where
  aligned : base % 4 = 0
  ge : 1024 * pageSize ≤ base
  le : base + 14 * 4 ≤ L.freeRamBegin

theorem ContextAt.translate {flag x : Nat} (h : ContextAt L base)
    (hT : KernelTable L k.mem (satpRoot satp)) (hx : x < 14) (hflag : flag = pteR ∨ flag = pteW) :
    translateRoot k (satpRoot satp) flag (base + x * 4) = some (base + 4 * x) := by
  have h1 := h.ge
  have h2 := h.le
  have hend := L.freeRamEnd_eq
  have hlt := L.kernelPages_lt
  simp only [Layout.freeRamEnd] at hend
  simp only [pageSize] at h1
  obtain ⟨v, hv⟩ : ∃ v, v = (base + x * 4) / 4096 := ⟨_, rfl⟩
  have hwalk := hT.map v (by omega) (by omega)
  have hand : (v * 1024 + 15) &&& flag ≠ 0 := by
    have h3 := and_two_pow_ne_zero (v * 1024 + 15) 1
    have h4 := and_two_pow_ne_zero (v * 1024 + 15) 2
    norm_num at h3 h4
    obtain rfl | rfl := hflag
    · rw [ne_eq, h3]
      omega
    · rw [ne_eq, h4]
      omega
  simp only [translateRoot, pageSize]
  rw [← hv, hwalk]
  simp only
  have hpa : pteAddr (v * 1024 + 15) = v * 4096 := by
    have h5 := pteAddr_entry (p := v * 4096) (f := 15) (by omega) (by omega) (by decide)
    rwa [show v * 4096 / 4 = v * 1024 by omega] at h5
  rw [if_pos hand, hpa]
  congr 1
  omega

/-- The members of the control block of slot `i` have not changed. -/
def SameBlock (L : Layout) (i : Nat) (k k' : KState) : Prop :=
  ∀ f : PcbField, f.InStruct → pcb L k' i f = pcb L k i f

theorem SameBlock.trans {k1 : KState} (h : SameBlock L i k k1) (h' : SameBlock L i k1 k') :
    SameBlock L i k k' := fun f hf => (h' f hf).trans (h f hf)

theorem TrapWords.sameBlock (h : TrapWords L k g k') (hi : i < 8) : SameBlock L i k k' :=
  fun _ hf => h.pcb hi hf

/-- A call of another process. -/
theorem Running.call_sameBlock {call : Call} (h : Running L s g cur)
    (hsafe : call.Safe L s cur) (hs : s.call L cur call = some s') (hlive : Live L s.k i)
    (hne : i ≠ cur) (hkill : ∀ r, call ≠ .kill (i + 1) r) : SameBlock L i s.k s'.k := by
  have hsafe' : Op.Safe L s (.call call) := fun cur' hcur' => by
    obtain rfl : cur' = cur := Option.some.inj (hcur'.symm.trans h.current)
    exact hsafe
  obtain ⟨j, habout, heff⟩ := h.inv.step_slot hsafe' ((h.step_call call).trans hs)
  refine heff.others i hlive.1 ?_
  rintro rfl
  obtain ⟨hcur, -⟩ | hno | ⟨r, hop⟩ := habout
  · exact hne (Option.some.inj (hcur.symm.trans h.current))
  · exact hno hlive
  · rw [(h.inv.inv.proc i hlive).pid] at hop
    exact hkill r (Op.call.inj hop)

theorem Process.Asks.kill_cases {pid : Nat} {r' : SavedRegs} (h : p.Asks r (.kill pid r')) :
    p.reg tfA7 = 6 ∧ pid = p.reg tfA0 := by
  cases h with
  | kill h => exact ⟨h, rfl⟩

theorem handler_sameBlock (h : Saved L s g cur p s1)
    (hsafe : t.scause = scauseUmodeEcall →
      ∀ call, ksyscall L (atCall L s1.k cur pc) cur r = some call →
        call.Safe L { s1 with k := atCall L s1.k cur pc } cur)
    (hs : ktrapFromUserHandler L s1 cur pc t r = some s') (hlive : Live L s.k i) (hne : i ≠ cur)
    (hkill : t.scause = scauseUmodeEcall → p.reg tfA7 = 6 → p.reg tfA0 ≠ i + 1) :
    SameBlock L i s.k s'.k := by
  by_cases hcause : t.scause = scauseUmodeEcall
  · have h2 := h.atCall pc
    rw [ktrapFromUserHandler_ecall hcause] at hs
    obtain ⟨k2, hk2⟩ : ∃ k2, k2 = atCall L s1.k cur pc := ⟨_, rfl⟩
    rw [← hk2] at h2 hs hsafe
    have hr2 := h2.running
    have hblock : SameBlock L i s.k k2 := h2.words.sameBlock hlive.1
    simp only at hs
    split at hs
    · obtain rfl := Option.some.inj hs
      exact hblock.trans
        ((returnValue_words _ hr2.inv.inv hr2.live).sameBlock hlive.1)
    · obtain ⟨call, hcall, hs⟩ := Option.bind_eq_some_iff.mp hs
      refine hblock.trans (hr2.call_sameBlock (hsafe hcause call hcall) hs
        (h2.words.live.mpr hlive) hne ?_)
      rintro r' rfl
      have hasks : (p.setReg tfEpc pc.toNat).next.Asks r (.kill (i + 1) r') := by
        rw [← h2.view]
        exact ksyscall_asks hcall
      obtain ⟨ha7, ha0⟩ := hasks.kill_cases
      rw [next_reg _ (by decide), Process.setReg_of_ne _ _ (by decide)] at ha7 ha0
      exact hkill hcause ha7 ha0.symm
  · simp only [ktrapFromUserHandler, if_neg hcause] at hs
    split at hs
    · cases hs
    · obtain ⟨tty, htty, rfl⟩ := Option.map_eq_some_iff.mp hs
      have h1 := h.setReg (w := tfEpc) (v := pc.toNat) (by decide)
      have hr1 := h1.running
      exact (h1.words.sameBlock hlive.1).trans
        ((ktrapToUser_words hr1.inv.inv hr1.live).sameBlock hlive.1)

/-- An event that spares the process in slot `i`. -/
theorem Cpu.step_sameBlock (h : CpuInv L c) (hsafe : op.Safe L c) (hs : c.step L op = some c')
    (hlive : Live L c.sys.k i) (hrun : c.sys.running ≠ some i) (hop : op.Spares (c.world L) i) :
    SameBlock L i c.sys.k c'.sys.k := by
  cases op with
  | instr reg pc =>
    simp only [Cpu.step] at hs
    split at hs
    · obtain rfl := Option.some.inj hs
      exact fun _ _ => rfl
    · cases hs
  | store va b =>
    obtain ⟨g, cur, k1, hr, -, -, -, hcall, rfl⟩ := h.store_cases hs
    refine hr.call_sameBlock (show Call.Safe L c.sys cur (.userStore va b) from trivial) hcall hlive
      ?_ ?_
    · rintro rfl
      exact hrun hr.running_eq
    · intro r h
      cases h
  | trap t r kreg =>
    obtain ⟨g, cur, hr, hhandler, -⟩ := h.trap_cases hsafe hs
    have hsaved := hr.savedRegs c.reg rfl
    have hreg : ∀ u, u ≠ tfEpc →
        (trapFrame.storeAll (fun p w v => p.setReg w v.toNat) c.reg (runView L c.sys.k cur)).reg u =
          ((runView L c.sys.k cur).withHart c.reg c.pc).reg u := by
      intro u hu
      rw [← Process.storeAll_withHart, Process.setReg_of_ne _ _ hu]
    have hcall := fun hcause call hcall => hsafe hcause cur call hr.current hcall
    refine handler_sameBlock hsaved hcall hhandler hlive ?_ fun hcause ha7 => ?_
    · rintro rfl
      exact hrun hr.running_eq
    · rw [hreg _ (by decide)] at ha7 ⊢
      exact hop.2 t r kreg rfl hcause cur _ (by rw [Cpu.world_run, hr.running_eq])
        (Cpu.world_proc hr.running_eq) ha7
  | swtch j kreg =>
    obtain ⟨g, hg⟩ := h.sys
    obtain ⟨hsched, -, -, -⟩ := h.swtch_cases hs
    obtain ⟨j', habout, heff⟩ :=
      hg.step_slot (show Op.Safe L c.sys (.schedule j) from trivial) hsched
    refine heff.others i hlive.1 ?_
    rintro rfl
    obtain ⟨-, call, hop'⟩ | hno | ⟨r, hop'⟩ := habout
    · cases hop'
    · exact hno hlive
    · cases hop'
  | kernelTrap t =>
    simp only [Cpu.step] at hs
    split at hs
    · obtain ⟨tty, -, rfl⟩ := Option.map_eq_some_iff.mp hs
      exact fun _ _ => rfl
    · cases hs

/-- The control block of a process that is not running, in a run that spares it. -/
theorem Sparing.sameBlock (h : CpuReach L c) (hrun : Sparing L i c c')
    (hq : (c.world L).procs i = some q) (hidle : c.sys.running ≠ some i) :
    SameBlock L i c.sys.k c'.sys.k := by
  have hall : CpuReach L c' ∧ (c'.world L).procs i = some q ∧ c'.sys.running ≠ some i ∧
      SameBlock L i c.sys.k c'.sys.k := by
    refine hrun.invariant (I := fun u => CpuReach L u ∧ (u.world L).procs i = some q ∧
      u.sys.running ≠ some i ∧ SameBlock L i c.sys.k u.sys.k) ?_ ?_
    · rintro _ rfl
      exact ⟨h, hq, hidle, fun _ _ => rfl⟩
    · rintro u op u' ⟨hu, hproc, hne, hblock⟩ ⟨hsafe, hspares⟩ hs
      have hI := (cpuReach_inv hu).1
      have hkept := (Cpu.step_refines hI hsafe hs).runs.kept hproc
        (by rw [Cpu.world_run]; exact hne) hspares
      rw [Cpu.world_run] at hkept
      exact ⟨.step hu hsafe hs, hkept.1.proc.trans hproc, hkept.2,
        hblock.trans (Cpu.step_sameBlock hI hsafe hs (Cpu.world_live hproc hne) hne hspares)⟩
  exact hall.2.2.2

theorem Steps.current (h : ∃ g, SysInv L s g) (hs : Steps L s s') (hcur : s.k.current ≠ none) :
    s'.k.current ≠ none := by
  have hboth : (∃ g, SysInv L s' g) ∧ s'.k.current ≠ none := by
    refine hs.invariant (I := fun u => (∃ g, SysInv L u g) ∧ u.k.current ≠ none) ?_ ?_
    · rintro _ rfl
      exact ⟨h, hcur⟩
    · rintro u op u' ⟨⟨g, hg⟩, hne⟩ hok hstep
      obtain ⟨k1, g1, -, -, hg1⟩ := hg.step hok hstep
      exact ⟨⟨g1, hg1⟩, hg.step_current hok hstep hne⟩
  exact hboth.2

/-! ## §4 Two calls of `swtch` -/

/-- Where `scheduler_context` is, and what the contexts of `proc_array` need. -/
structure Contexts (L : Layout) where
  scheduler : Nat
  schedulerAt : ContextAt L scheduler
  procArray_aligned : L.procArray % 4 = 0
  procArray_ge : 1024 * pageSize ≤ L.procArray
  apart : scheduler + 14 * 4 ≤ L.procArray ∨
    L.procArray + numProcesses * sizeofProcess ≤ scheduler

/-- The context of slot `i`. -/
def Layout.context (L : Layout) (i : Nat) : Nat := L.proc i + (PcbField.context 0).offset

/-- The hart calls `swtch(old, new)` with the page table in `satp`. The memory is that of
`k`, but for `scheduler_context`, which nothing but `swtch` reads. -/
structure CallsSwtch (x : Contexts L) (k : KState) (satp : Word) (old new : Nat)
    (u : Hart KState) : Prop where
  mem : ∀ y, y < x.scheduler ∨ x.scheduler + 14 * 4 ≤ y → u.mem.mem y = k.mem y
  satp : u.csr .satp = satp
  old : (u.reg .a0).toNat = old
  new : (u.reg .a1).toNat = new

theorem CallsSwtch.table {x : Contexts L} {u : Hart KState} (h : CallsSwtch x k satp old new u)
    (hT : KernelTable L k.mem (satpRoot satp)) :
    KernelTable L u.mem.mem (satpRoot (u.csr .satp)) := by
  have hle := x.schedulerAt.le
  rw [h.satp]
  exact hT.congr_pages fun y hy => h.mem y (.inr (by omega))

theorem CpuReach.current (h : CpuReach L c) (hrun : Sparing L i c c')
    (hcur : c.sys.k.current ≠ none) : c'.sys.k.current ≠ none := by
  have hboth : CpuInv L c' ∧ c'.sys.k.current ≠ none := by
    refine hrun.invariant (I := fun u => CpuInv L u ∧ u.sys.k.current ≠ none) ?_ ?_
    · rintro _ rfl
      exact ⟨(cpuReach_inv h).1, hcur⟩
    · rintro u op u' ⟨hI, hne⟩ hok hs
      have hstep := Cpu.step_refines hI hok.1 hs
      exact ⟨hstep.inv, hstep.steps.current hI.sys hne⟩
  exact hboth.2

end Risky321.Kernel
