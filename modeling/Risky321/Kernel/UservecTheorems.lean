/-
Risky321.Kernel.UservecTheorems — the trap path keeps the registers of a process.

The trap frame is mapped into every address space, so that `uservec` and
`enter_user_process` find the frame of the process they run for behind one
address. §1 says which word belongs to which register, §2 that the page tables
of live processes have such a window (`trapWindow`), §3 and §4 what the two
routines do: the first is a sequence of `saveReg` calls and jumps to the handler
on the kernel stack of the process (`run_uservec`), the second loads all 31
registers and nothing the kernel left in them remains (`run_enterUserProcess`).
-/
import Risky321.Kernel.UserMode
import Risky321.Kernel.RefinementTheorems

namespace Risky321.Kernel

open Risky321.Lib

variable {L : Layout} {k k' : KState} {g : Ghost} {cur w : Nat} {reg : Reg → Word} {r : Reg}
  {satp pc : Word} {p : Process}

/-! ## §1 The words of a trap frame -/

/-- The words that both routines reach through `a0`, and the last one. -/
def uservecFrame : Frame :=
  [
    (.ra, 5), (.sp, 6), (.gp, 7), (.tp, 8), (.t0, 9), (.t1, 10), (.t2, 11), (.s0, 12), (.s1, 13),
    (.a1, 15), (.a2, 16), (.a3, 17), (.a4, 18), (.a5, 19), (.a6, 20), (.a7, 21), (.s2, 22),
    (.s3, 23), (.s4, 24), (.s5, 25), (.s6, 26), (.s7, 27), (.s8, 28), (.s9, 29), (.s10, 30),
    (.s11, 31), (.t3, 32), (.t4, 33), (.t5, 34), (.t6, 35)
  ]

def trapFrame : Frame := uservecFrame ++ [(.a0, 14)]

theorem uservecSave_eq : uservecSave = saveAll uservecFrame .a0 := rfl

theorem enterUserProcessLoad_eq : enterUserProcessLoad = restoreAll uservecFrame .a0 := rfl

theorem uservecFrame_within : uservecFrame.Within 36 := by decide

theorem uservecFrame_regs : ∀ s ∈ uservecFrame, s.1 ≠ .a0 := by decide

theorem trapFrame_words : (trapFrame.map Prod.snd).Nodup := by decide

theorem mem_trapFrame (r : Reg) : (r, regWord r) ∈ trapFrame := by
  cases r <;> decide

theorem regWord_range (r : Reg) : 5 ≤ regWord r ∧ regWord r < 36 := by
  cases r <;> decide

theorem regWord_ne_epc (r : Reg) : regWord r ≠ tfEpc := by
  have := regWord_range r
  rw [tfEpc]
  omega

theorem isReg_regWord (r : Reg) : IsReg (regWord r) := .inr (regWord_range r)

@[simp] theorem wordReg_regWord (r : Reg) : wordReg (regWord r) = r := by
  cases r <;> decide

theorem regWord_wordReg (h5 : 5 ≤ w) (h36 : w < 36) : regWord (wordReg w) = w := by
  have h : ∀ w < 36, 5 ≤ w → regWord (wordReg w) = w := by decide
  exact h w h36 h5

theorem trapFrame_isReg : ∀ s ∈ trapFrame, IsReg s.2 := by decide

@[simp] theorem Process.withHart_reg (p : Process) (reg : Reg → Word) (pc : Word) (r : Reg) :
    (p.withHart reg pc).reg (regWord r) = (reg r).toNat := by
  simp only [Process.withHart]
  rw [if_neg (regWord_ne_epc r), if_pos (regWord_range r), wordReg_regWord]

@[simp] theorem Process.withHart_epc (p : Process) (reg : Reg → Word) (pc : Word) :
    (p.withHart reg pc).reg tfEpc = pc.toNat := by
  simp [Process.withHart]

/-! ## §2 The window -/

theorem trapEntry_flags {p : Nat} (hp : p % 4096 = 0) :
    (p / 4 + 7) &&& pteR ≠ 0 ∧ (p / 4 + 7) &&& pteW ≠ 0 := by
  have h1 := and_two_pow_ne_zero (p / 4 + 7) 1
  have h2 := and_two_pow_ne_zero (p / 4 + 7) 2
  norm_num at h1 h2
  exact ⟨by rw [ne_eq, h1]; omega, by rw [ne_eq, h2]; omega⟩

/-- A process whose table is in `satp`. -/
structure OnHart (L : Layout) (g : Ghost) (cur : Nat) (satp : Word) (k : KState) : Prop where
  inv : Inv L k g
  live : Live L k cur
  root : satpRoot satp = pcb L k cur .pagetable

theorem OnHart.words (h : OnHart L g cur satp k) (hw : TrapWords L k g k') :
    OnHart L g cur satp k' :=
  ⟨hw.inv h.inv, hw.live.mpr h.live, by
    rw [hw.pcb (f := .pagetable) h.live.1 trivial]
    exact h.root⟩

/-- A word of the trap frame, through the page table. -/
theorem OnHart.translate_trap {flag : Nat} (h : OnHart L g cur satp k) (hw : w < 36)
    (hflag : flag = pteR ∨ flag = pteW) :
    translateRoot k (satpRoot satp) flag (vaTrapframe + w * 4) =
      some (pcb L k cur .trapframe + 4 * w) := by
  have hp := h.inv.proc cur h.live
  have hpage : L.IsPage (pcb L k cur .trapframe) := h.inv.kmem.page_of hp.trapframe nofun
  obtain ⟨hR, hW⟩ := trapEntry_flags hpage.2.2
  have hva : (vaTrapframe + w * 4) / pageSize = 0xFFFFF := by
    simp only [vaTrapframe, pageSize]
    omega
  have hmod : (vaTrapframe + w * 4) % pageSize = 4 * w := by
    simp only [vaTrapframe, pageSize]
    omega
  have hand : (pcb L k cur .trapframe / 4 + 7) &&& flag ≠ 0 := by
    obtain rfl | rfl := hflag
    · exact hR
    · exact hW
  simp only [translateRoot, h.root, hva, hp.trap_map, hmod]
  rw [if_pos hand, pteAddr_page hpage (by decide)]

/-- The trap frame of the process that runs is a window at `VA_TRAPFRAME`. -/
theorem trapWindow (L : Layout) (g : Ghost) (cur : Nat) (satp : Word) :
    Window kernelMmu satp vaTrapframe 36 (OnHart L g cur satp)
      (fun k w => BitVec.ofNat 32 (trapWord L k cur w))
      (fun k w v => setTrapWord L k cur w v.toNat) where
  room := by decide
  load := by
    intro k w h hw
    have halign : (vaTrapframe + w * 4) % 4 = 0 := by
      simp only [vaTrapframe]
      omega
    simp only [kernelMmu]
    rw [if_pos halign, h.translate_trap hw (.inl rfl)]
    rfl
  store := by
    intro k w v h hw
    have halign : (vaTrapframe + w * 4) % 4 = 0 := by
      simp only [vaTrapframe]
      omega
    simp only [kernelMmu]
    rw [if_pos halign, h.translate_trap hw (.inr rfl)]
    rfl
  keeps := fun k w v h hw => h.words (setTrapWord_words h.inv h.live (by omega))

/-! ## §3 `uservec` -/

/-- The registers in the trap frame. -/
def saveRegs (L : Layout) (cur : Nat) (reg : Reg → Word) (k : KState) : KState :=
  trapFrame.storeAll (fun k w v => setTrapWord L k cur w v.toNat) reg k

/-- The last store, and the loads that lead into the kernel. -/
theorem run_uservec_tail {t : Hart KState} (h : OnHart L g cur (t.csr .satp) t.mem)
    (hbase : (t.reg .a0).toNat = vaTrapframe) {k' : KState}
    (hk' : k' = setTrapWord L t.mem cur 14 (t.reg .t0).toNat) :
    ∃ t' : Hart KState, t.run kernelMmu [.base (.sw .t0 (14 * 4) .a0), .base (.lw .sp (1 * 4) .a0),
        .base (.lw .t0 (2 * 4) .a0)] = some t' ∧ t'.mem = k' ∧ t'.csr = t.csr ∧
      t'.reg .sp = BitVec.ofNat 32 (trapWord L k' cur tfKernelSp) ∧
      t'.reg .t0 = BitVec.ofNat 32 (trapWord L k' cur tfKernelTrap) := by
  have hwin := trapWindow L g cur (t.csr .satp)
  have hok : OnHart L g cur (t.csr .satp) k' := by
    rw [hk']
    exact hwin.keeps t.mem 14 (t.reg .t0) h (by decide)
  have hstore : t.exec kernelMmu (.base (.sw .t0 (14 * 4) .a0)) = some { t with mem := k' } := by
    rw [hwin.exec_sw rfl hbase h (by decide), hk']
  let t1 : Hart KState :=
    Hart.setReg { t with mem := k' } .sp (BitVec.ofNat 32 (trapWord L k' cur tfKernelSp))
  have hbase1 : (t1.reg .a0).toNat = vaTrapframe := by
    rw [Hart.setReg_of_ne _ _ (by decide)]
    exact hbase
  have hsp : Hart.exec kernelMmu { t with mem := k' } (.base (.lw .sp (1 * 4) .a0)) = some t1 :=
    hwin.exec_lw rfl hbase hok (by decide)
  have ht0 := hwin.exec_lw (h := t1) (r := .t0) rfl hbase1 hok (show tfKernelTrap < 36 by decide)
  refine ⟨t1.setReg .t0 (BitVec.ofNat 32 (trapWord L k' cur tfKernelTrap)), ?_, rfl, rfl, ?_, ?_⟩
  · rw [Hart.run_cons, hstore, Option.bind_some, Hart.run_cons, hsp, Option.bind_some,
      Hart.run_cons]
    exact congrArg (Option.bind · _) ht0
  · rw [Hart.setReg_of_ne _ _ (by decide), Hart.setReg_self]
  · rw [Hart.setReg_self]

/-- `uservec` never faults: it saves the registers, and the handler is entered
with the kernel stack that the frame names. -/
theorem run_uservec (reg : Reg → Word) (csr : Csr → Word) (h : OnHart L g cur (csr .satp) k) :
    ∃ t : Hart KState, Hart.run kernelMmu { reg := reg, csr := csr, mem := k } uservec = some t ∧
      t.mem = saveRegs L cur reg k ∧ t.csr = Function.update csr .sscratch (reg .a0) ∧
      t.reg .sp = BitVec.ofNat 32 (trapWord L (saveRegs L cur reg k) cur tfKernelSp) ∧
      t.reg .t0 = BitVec.ofNat 32 (trapWord L (saveRegs L cur reg k) cur tfKernelTrap) := by
  have hwin := trapWindow L g cur (csr .satp)
  have hva : (BitVec.ofNat 32 vaTrapframe).toNat = vaTrapframe := by decide
  -- `a0` is put aside and points to the frame
  obtain ⟨csr1, hcsr1⟩ : ∃ f, f = Function.update csr .sscratch (reg .a0) := ⟨_, rfl⟩
  obtain ⟨reg1, hreg1⟩ : ∃ f, f = Function.update reg .a0 (BitVec.ofNat 32 vaTrapframe) := ⟨_, rfl⟩
  have hsatp : csr1 .satp = csr .satp := by rw [hcsr1]; rfl
  have hbase : (reg1 .a0).toNat = vaTrapframe := by rw [hreg1, Function.update_self, hva]
  obtain ⟨k1, hk1⟩ : ∃ k1, k1 = uservecFrame.storeAll
    (fun k w v => setTrapWord L k cur w v.toNat) reg k := ⟨_, rfl⟩
  have hon1 : OnHart L g cur (csr .satp) k1 := by
    rw [hk1]
    exact hwin.storeAll_ok uservecFrame_within reg h
  have hsave : Hart.run kernelMmu { reg := reg1, csr := csr1, mem := k }
      (uservecSave.map .base) = some { reg := reg1, csr := csr1, mem := k1 } := by
    have hregs : ∀ s ∈ uservecFrame, reg1 s.1 = reg s.1 := by
      intro s hs
      rw [hreg1, Function.update_of_ne (uservecFrame_regs s hs)]
    rw [uservecSave_eq, hwin.run_saveAll uservecFrame_within hsatp hbase h, hk1,
      Frame.storeAll_congr hregs]
  -- then `a0` itself, through `t0`
  have hlast : saveRegs L cur reg k = setTrapWord L k1 cur 14 (reg .a0).toNat := by
    rw [hk1]
    rfl
  rw [uservec, Hart.run_append, Hart.run_append, Hart.run_cons, Hart.exec, Option.bind_some,
    Hart.run_cons, Hart.exec, Option.bind_some, Hart.run_nil, Option.bind_some, Hart.setReg,
    ← hcsr1, ← hreg1, hsave, Option.bind_some, Hart.run_cons, Hart.exec, Option.bind_some]
  obtain ⟨h3, hh3⟩ : ∃ h3, h3 = Hart.setReg { reg := reg1, csr := csr1, mem := k1 } .t0
    (csr1 .sscratch) := ⟨_, rfl⟩
  have hbase3 : (h3.reg .a0).toNat = vaTrapframe := by rw [hh3]; exact hbase
  have ht3 : h3.reg .t0 = reg .a0 := by rw [hh3, Hart.setReg_self, hcsr1, Function.update_self]
  have hmem3 : h3.mem = k1 := by rw [hh3]; rfl
  have hcsr3 : h3.csr = csr1 := by rw [hh3]; rfl
  have hon3 : OnHart L g cur (h3.csr .satp) h3.mem := by
    rw [hcsr3, hsatp, hmem3]
    exact hon1
  obtain ⟨t, hrun, hmem, hcsr, hsp, ht0⟩ := run_uservec_tail hon3 hbase3
    (show saveRegs L cur reg k = setTrapWord L h3.mem cur 14 (h3.reg .t0).toNat by
      rw [hmem3, ht3, hlast])
  exact ⟨t, by rw [← hh3, hrun], hmem, by rw [hcsr, hcsr3, hcsr1], hsp, ht0⟩

/-! ## §4 `enter_user_process` -/

/-- The root table comes through the format of `satp` unchanged. -/
theorem satpRoot_satpOf {q : Nat} (hq : L.IsPage q) : satpRoot (satpOf q) = q := by
  have hb := hq.bounds
  have hal := hq.2.2
  have hor : 2 ^ 31 ||| q >>> 12 = 2 ^ 31 + q >>> 12 := by
    have h := Nat.two_pow_add_eq_or_of_lt (show q >>> 12 < 2 ^ 31 by
      rw [Nat.shiftRight_eq_div_pow]
      omega) 1
    rw [Nat.mul_one] at h
    exact h.symm
  rw [satpRoot, satpOf, BitVec.toNat_ofNat, hor, Nat.shiftRight_eq_div_pow, pageSize]
  omega

theorem Inv.onHart (hI : Inv L k g) (hlive : Live L k cur) :
    OnHart L g cur (satpOf (pcb L k cur .pagetable)) k :=
  ⟨hI, hlive, satpRoot_satpOf (hI.kmem.page_of (hI.proc cur hlive).tree.root nofun)⟩

/-- `enter_user_process` never faults: it switches to the table in `a0`, and
each register is loaded from its word. -/
theorem run_enterUserProcess {h : Hart KState} (hI : Inv L h.mem g) (hlive : Live L h.mem cur)
    (ha0 : h.reg .a0 = satpOf (pcb L h.mem cur .pagetable)) :
    ∃ t : Hart KState, h.run kernelMmu enterUserProcess = some t ∧ t.mem = h.mem ∧
      t.csr = Function.update h.csr .satp (satpOf (pcb L h.mem cur .pagetable)) ∧
      ∀ r, t.reg r = BitVec.ofNat 32 (trapWord L h.mem cur (regWord r)) := by
  have hon := hI.onHart hlive
  have hwin := trapWindow L g cur (satpOf (pcb L h.mem cur .pagetable))
  have hva : (BitVec.ofNat 32 vaTrapframe).toNat = vaTrapframe := by decide
  let ld : Nat → Word := fun w => BitVec.ofNat 32 (trapWord L h.mem cur w)
  -- the page table, and `a0` for the frame
  let h1 : Hart KState :=
    { reg := Function.update h.reg .a0 (BitVec.ofNat 32 vaTrapframe),
      csr := Function.update h.csr .satp (h.reg .a0), mem := h.mem }
  have hsatp1 : h1.csr .satp = satpOf (pcb L h.mem cur .pagetable) := by
    rw [← ha0]
    rfl
  have hload : h1.run kernelMmu (enterUserProcessLoad.map .base) =
      some { h1 with reg := uservecFrame.loadAll ld h1.reg } := by
    rw [enterUserProcessLoad_eq]
    exact hwin.run_restoreAll uservecFrame_within (by decide) hsatp1 hva hon
  let h2 : Hart KState := { h1 with reg := uservecFrame.loadAll ld h1.reg }
  have ha2 : h2.reg .a0 = BitVec.ofNat 32 vaTrapframe :=
    Frame.loadAll_other ld h1.reg (by decide)
  have hlast : h2.exec kernelMmu (.base (.lw .a0 (14 * 4) .a0)) = some (h2.setReg .a0 (ld 14)) :=
    hwin.exec_lw hsatp1 (by rw [ha2, hva]) hon (by decide)
  refine ⟨h2.setReg .a0 (ld 14), ?_, rfl, by rw [← ha0]; rfl, fun r => ?_⟩
  · rw [enterUserProcess, Hart.run_append, Hart.run_append]
    have hstart : h.run kernelMmu [.csrw .satp .a0, .li .a0 vaTrapframe] = some h1 := rfl
    rw [hstart, Option.bind_some, hload, Option.bind_some, Hart.run_cons]
    exact congrArg (Option.bind · _) hlast
  · -- the frame, then `a0`
    have hmem := mem_trapFrame r
    rw [trapFrame, List.mem_append, List.mem_singleton] at hmem
    obtain hmem | heq := hmem
    · rw [Hart.setReg_of_ne _ _ (uservecFrame_regs _ hmem)]
      exact Frame.loadAll_of_mem ld h1.reg (by decide) hmem
    · rw [Prod.mk.injEq] at heq
      rw [heq.1, Hart.setReg_self]
      rfl

end Risky321.Kernel
