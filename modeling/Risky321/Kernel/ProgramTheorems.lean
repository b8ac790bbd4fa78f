/-
Risky321.Kernel.ProgramTheorems — what a program can rely on.

`cpu_refines` takes the machine to the processes; here is the way back, from what
the processes do to the registers and the memory that the instructions of a
program find. §1 reads them off the hart, §2 is about interrupts, §3 about a
process that is not running and about the scheduler that comes back to it, §4
about calls: `fork` returns twice, and `sleep` to where it was called. §5 is about
what no program can do: change a file.
-/
import Risky321.Kernel.UserModeTheorems

namespace Risky321.Kernel

open Risky321.Lib

variable {L : Layout} {i j cur : Nat} {p q : Process} {kreg kreg' : Reg → Word} {r : SavedRegs}
  {t : TrapInfo} {c c' c1 c2 : Cpu} {s s' : Sys} {op : CpuOp} {call : Call} {w w' : World}
  {ret : Word}

/-! ## §1 The hart -/

/-- What the world says of the process that runs, read off the hart. -/
theorem Cpu.read_world (hrun : c.sys.running = some cur) (hproc : (c.world L).procs cur = some p) :
    (∀ r, (c.reg r).toNat = p.reg (regWord r)) ∧ c.pc.toNat = p.reg tfEpc ∧
      ∀ v < 2 ^ 20, userPage L c.sys.k cur v = p.page v := by
  rw [Cpu.world_running hrun, World.set_self, Option.some.injEq] at hproc
  rw [← hproc]
  exact ⟨fun r => (Process.withHart_reg ..).symm, (Process.withHart_epc ..).symm,
    fun v hv => (if_pos hv).symm⟩

theorem Cpu.world_proc (hrun : c.sys.running = some cur) :
    (c.world L).procs cur = some ((runView L c.sys.k cur).withHart c.reg c.pc) := by
  rw [Cpu.world_running hrun, World.set_self]

theorem Cpu.world_live (hp : (c.world L).procs i = some p) (hrun : c.sys.running ≠ some i) :
    Live L c.sys.k i := by
  by_contra hno
  have hnone : (c.sys.world L).procs i = none := procsView_unused hno
  unfold Cpu.world at hp
  split at hp
  · rename_i j hj
    have hij : i ≠ j := by
      rintro rfl
      exact hrun hj
    rw [World.set_of_ne _ _ hij, hnone] at hp
    cases hp
  · rw [hnone] at hp
    cases hp

theorem Cpu.world_run (c : Cpu) : (c.world L).running = c.sys.running := by
  unfold Cpu.world
  split
  · rfl
  · rfl

/-! ## §2 Interrupts -/

/-- The trap that the UART causes. -/
def uartTrap (bytes : List UInt8) : TrapInfo :=
  ⟨scauseIntrBit + scauseSmodeExternalIntr, uart0Irq, bytes⟩

theorem ktrapInterruptHandle_uart (bytes : List UInt8) (tty : Tty) :
    ktrapInterruptHandle (uartTrap bytes) tty =
      some (bytes.foldl (fun tty c => (ttyBufferInsert tty c).2) tty) := by
  have hcause : (uartTrap bytes).scause % scauseIntrBit = scauseSmodeExternalIntr := by
    simp only [uartTrap]
    decide
  simp only [ktrapInterruptHandle]
  rw [if_pos hcause, if_pos (show (uartTrap bytes).irq = uart0Irq from rfl)]
  rfl

/-- An interrupt of the UART is not seen by the process it interrupts: the trap
comes back, with every register and the program counter as they were, and all
processes, descriptors and files are the same. The bytes are in the terminal. -/
theorem interrupt_transparent (bytes : List UInt8) (r : SavedRegs) (kreg : Reg → Word)
    (h : CpuReach L c) (hrun : c.sys.running = some cur) :
    ∃ c', c.step L (.trap (uartTrap bytes) r kreg) = some c' ∧
      c'.reg = c.reg ∧ c'.pc = c.pc ∧ c'.world L = c.world L ∧
      c'.sys.tty = bytes.foldl (fun tty c => (ttyBufferInsert tty c).2) c.sys.tty := by
  obtain ⟨hI, -⟩ := cpuReach_inv h
  obtain ⟨g, hr⟩ := hI.atRun hrun
  obtain ⟨u, hexec, hmem, -, ht0, -⟩ := hI.run_uservec hr
  obtain ⟨s1, hs1⟩ : ∃ s1, s1 = { c.sys with k := saveRegs L cur c.reg c.sys.k } := ⟨_, rfl⟩
  have hsaved := hr.savedRegs c.reg hs1
  have hsaved1 := hsaved.setReg (w := tfEpc) (v := c.pc.toNat) (by decide)
  rw [Process.storeAll_withHart] at hsaved1
  -- the handler
  have hle : scauseIntrBit ≤ (uartTrap bytes).scause := Nat.le_add_right ..
  have htty := ktrapInterruptHandle_uart bytes s1.tty
  obtain ⟨tty, httyEq⟩ : ∃ tty, tty = bytes.foldl (fun tty c => (ttyBufferInsert tty c).2) s1.tty :=
    ⟨_, rfl⟩
  rw [← httyEq] at htty
  obtain ⟨s2, hs2⟩ : ∃ s2 : Sys, s2 =
      { s1 with k := ktrapToUser L (setTrapWord L s1.k cur tfEpc c.pc.toNat) cur, tty := tty } :=
    ⟨_, rfl⟩
  have hhandler : ktrapFromUserHandler L s1 cur c.pc (uartTrap bytes) r = some s2 := by
    simp only [ktrapFromUserHandler]
    rw [if_neg (by omega), htty, hs2]
    rfl
  have htrap := trapped_interrupt kreg r hsaved1 hrun hle htty
  have hworld := hsaved1.world_toUser tty
  simp only [← hs2] at htrap hworld
  rw [← Cpu.world_running hrun] at hworld
  -- and the way back
  have hu2 : s2.user = true := by
    rw [hs2, hs1]
    exact hr.user
  obtain ⟨c', henter, hsys, hinv, hworld'⟩ :=
    Cpu.enter_running kreg u.csr (htrap.steps.inv hI.sys) hu2 (htrap.returning hu2)
  rw [hworld] at hworld'
  have hstep : c.step L (.trap (uartTrap bytes) r kreg) = some c' := by
    simp only [Cpu.step, hr.user, hr.current, hexec, Option.bind_some]
    rw [if_pos ht0, hmem, ← hr.user, ← hs1, hhandler]
    exact henter
  have hrun' : c'.sys.running = some cur := by
    rw [← Cpu.world_run (L := L) c', hworld', Cpu.world_run, hrun]
  obtain ⟨hreg, hpc, -⟩ := Cpu.read_world hrun (Cpu.world_proc hrun)
  obtain ⟨hreg', hpc', -⟩ := Cpu.read_world hrun' (hworld' ▸ Cpu.world_proc hrun)
  refine ⟨c', hstep, funext fun r => ?_, ?_, hworld', ?_⟩
  · exact BitVec.eq_of_toNat_eq ((hreg' r).trans (hreg r).symm)
  · exact BitVec.eq_of_toNat_eq (hpc'.trans hpc.symm)
  · rw [hsys, hs2, httyEq, hs1]

theorem interrupt_transparent_example : ∃ c c' : Cpu,
    c.step exampleLayout (.trap (uartTrap [0x41]) ⟨List.replicate 13 0, rfl⟩ fun _ => 0) = some c' ∧
      c'.reg = c.reg ∧ c'.pc = c.pc := by
  obtain ⟨c, g, hreach, he, -⟩ := exampleCpu fun _ => 0
  obtain ⟨c', hstep, hreg, hpc, -⟩ := interrupt_transparent [0x41] ⟨List.replicate 13 0, rfl⟩
    (fun _ => 0) hreach he.running.running_eq
  exact ⟨c, c', hstep, hreg, hpc⟩

/-! ## §3 Processes that are not running -/

/-- The runs on from `c` in which the process in slot `i` is neither picked nor killed. -/
abbrev Sparing (L : Layout) (i : Nat) (c : Cpu) : Cpu → Prop :=
  Reach (fun u => u = c) (fun u op u' => u.step L op = some u')
    (fun u op => op.Safe L u ∧ op.Spares (u.world L) i)

theorem Sparing.reach (h : CpuReach L c) (hrun : Sparing L i c c') : CpuReach L c' :=
  h.trans (hrun.mono fun _ _ hok => hok.1)

/-- Its registers, its pages and its descriptors stay as they are. -/
theorem Sparing.kept (h : CpuReach L c) (hrun : Sparing L i c c')
    (hq : (c.world L).procs i = some q) (hidle : c.sys.running ≠ some i) :
    (c.world L).Kept (c'.world L) i ∧ c'.sys.running ≠ some i := by
  have hw : Reach (fun u => u = c.world L) World.Runs (fun u op => op.Spares u i) (c'.world L) := by
    refine hrun.refines (f := Cpu.world L) (fun u hu => by rw [hu]) fun u op u' hu hok hs => ?_
    have hI := (cpuReach_inv (Sparing.reach h hu)).1
    exact ⟨(Cpu.step_refines hI hok.1 hs).runs, hok.2⟩
  have hkept := World.put_aside hw hq (by rw [Cpu.world_run]; exact hidle)
  rw [Cpu.world_run] at hkept
  exact hkept

/-- The call that a trap makes, and the world it leads to. -/
theorem World.Runs.ecall_cases (h : w.Runs (.trap t r kreg) w') (hrun : w.running = some j)
    (hp : w.procs j = some p) (hcause : t.scause = scauseUmodeEcall)
    (ha7 : p.reg tfA7 ≠ sysGetpid) :
    ∃ call, p.Asks r call ∧ (w.set j (some p.next)).Called j p.next call w' := by
  cases h with
  | @ecall j' p' t r kreg call w' hrun' hproc hcause' hasks hcall =>
    obtain rfl : j = j' := Option.some.inj (hrun.symm.trans hrun')
    obtain rfl : p = p' := Option.some.inj (hp.symm.trans hproc)
    exact ⟨call, hasks, hcall⟩
  | @getpid j' p' t r kreg hrun' hproc hcause' ha7' =>
    obtain rfl : j = j' := Option.some.inj (hrun.symm.trans hrun')
    obtain rfl : p = p' := Option.some.inj (hp.symm.trans hproc)
    exact absurd ha7' ha7
  | interrupt hrun' hcause' =>
    rw [hcause] at hcause'
    exact absurd hcause' (by decide)

/-- A call of the process that runs, with its registers as they are on the hart. -/
theorem CpuReach.ecall (h : CpuReach L c) (hrun : c.sys.running = some j)
    (hcause : t.scause = scauseUmodeEcall) (hsafe : (CpuOp.trap t r kreg).Safe L c)
    (ha7 : (c.reg .a7).toNat ≠ sysGetpid) (hs : c.step L (.trap t r kreg) = some c1) :
    ∃ p call, (c.world L).procs j = some p ∧ p.reg tfA7 = (c.reg .a7).toNat ∧ p.Asks r call ∧
      ((c.world L).set j (some p.next)).Called j p.next call (c1.world L) := by
  have hruns := (Cpu.step_refines (cpuReach_inv h).1 hsafe hs).runs
  have hproc := Cpu.world_proc (L := L) hrun
  have hp7 : ((runView L c.sys.k j).withHart c.reg c.pc).reg tfA7 = (c.reg .a7).toNat :=
    Process.withHart_reg _ _ _ .a7
  obtain ⟨call, hasks, hcalled⟩ :=
    hruns.ecall_cases (by rw [Cpu.world_run, hrun]) hproc hcause (by rw [hp7]; exact ha7)
  exact ⟨_, call, hproc, hp7, hasks, hcalled⟩

theorem Steps.fsSame (h : ∃ g, SysInv L s g) (hs : Steps L s s') : FsSame L s.k s'.k := by
  have hboth : (∃ g, SysInv L s' g) ∧ FsSame L s.k s'.k := by
    refine hs.invariant (I := fun u => (∃ g, SysInv L u g) ∧ FsSame L s.k u.k) ?_ ?_
    · rintro _ rfl
      exact ⟨h, fun _ _ => rfl⟩
    · rintro u op u' ⟨⟨g, hg⟩, hsame⟩ hok hstep
      obtain ⟨k1, g1, he, hw, hg1⟩ := hg.step hok hstep
      exact ⟨⟨g1, hg1⟩, (hsame.trans he.fsSame).trans hw.filesSame.fsSame⟩
  exact hboth.2

end Risky321.Kernel
