/-
Risky321.Kernel.Kernelvec — the trap entry for traps taken in kernel mode.

`kernelvec` makes room for a frame of 35 words on the stack it finds, saves
29 registers there, calls the C handler and restores what it saved. The
words keep the numbers they have in a trap frame, 5 to 35, and a frame of 35
words has no word 35: the last slot is the word at the interrupted stack
pointer, which belongs to the code that was interrupted.

§1 is the code, §2 what the C calling convention promises about the handler,
§3 what is left of the interrupted state after `sret`.
-/
import Risky321.Lib.Rv32

namespace Risky321.Kernel

open Risky321.Lib

/-! ## §1 The code -/

/-- `kernelvec` up to the call. -/
def kernelvecSave : List Instr :=
  [
    .addi .sp .sp ((-4) * 35), .sw .ra (5 * 4) .sp, .sw .gp (7 * 4) .sp, .sw .t0 (9 * 4) .sp,
    .sw .t1 (10 * 4) .sp, .sw .t2 (11 * 4) .sp, .sw .s0 (12 * 4) .sp, .sw .s1 (13 * 4) .sp,
    .sw .a0 (14 * 4) .sp, .sw .a1 (15 * 4) .sp, .sw .a2 (16 * 4) .sp, .sw .a3 (17 * 4) .sp,
    .sw .a4 (18 * 4) .sp, .sw .a5 (19 * 4) .sp, .sw .a6 (20 * 4) .sp, .sw .a7 (21 * 4) .sp,
    .sw .s2 (22 * 4) .sp, .sw .s3 (23 * 4) .sp, .sw .s4 (24 * 4) .sp, .sw .s5 (25 * 4) .sp,
    .sw .s6 (26 * 4) .sp, .sw .s7 (27 * 4) .sp, .sw .s8 (28 * 4) .sp, .sw .s9 (29 * 4) .sp,
    .sw .s10 (30 * 4) .sp, .sw .s11 (31 * 4) .sp, .sw .t3 (32 * 4) .sp, .sw .t4 (33 * 4) .sp,
    .sw .t5 (34 * 4) .sp, .sw .t6 (35 * 4) .sp
  ]

/-- `kernelvec` from the call to `sret`. -/
def kernelvecRestore : List Instr :=
  [
    .lw .ra (5 * 4) .sp, .lw .gp (7 * 4) .sp, .lw .t0 (9 * 4) .sp, .lw .t1 (10 * 4) .sp,
    .lw .t2 (11 * 4) .sp, .lw .s0 (12 * 4) .sp, .lw .s1 (13 * 4) .sp, .lw .a0 (14 * 4) .sp,
    .lw .a1 (15 * 4) .sp, .lw .a2 (16 * 4) .sp, .lw .a3 (17 * 4) .sp, .lw .a4 (18 * 4) .sp,
    .lw .a5 (19 * 4) .sp, .lw .a6 (20 * 4) .sp, .lw .a7 (21 * 4) .sp, .lw .s2 (22 * 4) .sp,
    .lw .s3 (23 * 4) .sp, .lw .s4 (24 * 4) .sp, .lw .s5 (25 * 4) .sp, .lw .s6 (26 * 4) .sp,
    .lw .s7 (27 * 4) .sp, .lw .s8 (28 * 4) .sp, .lw .s9 (29 * 4) .sp, .lw .s10 (30 * 4) .sp,
    .lw .s11 (31 * 4) .sp, .lw .t3 (32 * 4) .sp, .lw .t4 (33 * 4) .sp, .lw .t5 (34 * 4) .sp,
    .lw .t6 (35 * 4) .sp, .addi .sp .sp (4 * 35)
  ]

/-- `kernelvec`: save, `call` (which leaves the return address in `ra`), restore. -/
def kernelvec (ret : Word) (handler : Mach → Mach) (m : Mach) : Mach :=
  (handler ((m.run kernelvecSave).setReg .ra ret)).run kernelvecRestore

/-- The slots, as both lists have them. -/
def kernelvecFrame : Frame :=
  [
    (.ra, 5), (.gp, 7), (.t0, 9), (.t1, 10), (.t2, 11), (.s0, 12), (.s1, 13), (.a0, 14),
    (.a1, 15), (.a2, 16), (.a3, 17), (.a4, 18), (.a5, 19), (.a6, 20), (.a7, 21), (.s2, 22),
    (.s3, 23), (.s4, 24), (.s5, 25), (.s6, 26), (.s7, 27), (.s8, 28), (.s9, 29), (.s10, 30),
    (.s11, 31), (.t3, 32), (.t4, 33), (.t5, 34), (.t6, 35)
  ]

theorem kernelvecSave_eq :
    kernelvecSave = .addi .sp .sp ((-4) * 35) :: saveAll kernelvecFrame .sp := rfl

theorem kernelvecRestore_eq :
    kernelvecRestore = restoreAll kernelvecFrame .sp ++ [.addi .sp .sp (4 * 35)] := rfl

/-- Every register but `sp` and `tp` has a slot. -/
theorem mem_kernelvecFrame (r : Reg) : r = .sp ∨ r = .tp ∨ r ∈ kernelvecFrame.map Prod.fst := by
  cases r <;> decide

theorem kernelvecFrame_words : ∀ s ∈ kernelvecFrame, s.2 ≤ 35 := by decide

theorem kernelvecFrame_regs : ∀ s ∈ kernelvecFrame, s.1 ≠ .sp := by decide

/-- The words of all slots but the last one lie in the frame. -/
theorem kernelvecFrame_init : ∀ s ∈ kernelvecFrame.dropLast, s.2 < 35 := by decide

/-! ## §2 The handler -/

/-- The registers a C function gives back as it found them. -/
def calleeSaved : List Reg :=
  [.sp, .gp, .tp, .s0, .s1, .s2, .s3, .s4, .s5, .s6, .s7, .s8, .s9, .s10, .s11]

/-- A handler that follows the calling convention and writes only below its
own stack pointer and to the devices' and the terminal's state `dev`. -/
structure CCall (dev : Nat → Prop) (handler : Mach → Mach) : Prop where
  saved : ∀ m, ∀ r ∈ calleeSaved, (handler m).reg r = m.reg r
  memory : ∀ m x, (m.reg .sp).toNat ≤ x → ¬ dev x → (handler m).mem x = m.mem x

/-- The interrupted code finds its registers and its part of the stack, which
ends at `top`, as they were. -/
structure Transparent (top : Nat) (m m' : Mach) : Prop where
  registers : ∀ r, m'.reg r = m.reg r
  stack : ∀ x, (m.reg .sp).toNat ≤ x → x < top → m'.mem x = m.mem x

/-- There is room for the frame below the stack pointer, and the handler's
state lies neither in the frame nor on the stack. -/
structure Room (top : Nat) (dev : Nat → Prop) (m : Mach) : Prop where
  below : 4 * 35 ≤ (m.reg .sp).toNat
  apart : ∀ x, (m.reg .sp).toNat ≤ x + 4 * 35 → (x < top ∨ x < (m.reg .sp).toNat + 4) → ¬ dev x

/-- The word at the stack pointer, as far as it is on the stack, holds what `t6` holds. -/
def TopHoldsT6 (top : Nat) (m : Mach) : Prop :=
  ∀ x, (m.reg .sp).toNat ≤ x → x < (m.reg .sp).toNat + 4 → x < top →
    m.mem x = wordByte (m.reg .t6).toNat (x - (m.reg .sp).toNat)

variable {m : Mach} {dev : Nat → Prop} {handler : Mach → Mach} {ret : Word} {top : Nat}

/-! ## §3 What the interrupted code finds -/

/-- `kernelvec` before its stores: only the stack pointer has moved. -/
def lowered (m : Mach) : Mach := m.exec (.addi .sp .sp ((-4) * 35))

@[simp] theorem lowered_mem (m : Mach) : (lowered m).mem = m.mem := rfl

theorem lowered_reg (m : Mach) {r : Reg} (h : r ≠ .sp) : (lowered m).reg r = m.reg r :=
  setReg_of_ne m _ h

theorem lowered_sp (hroom : 4 * 35 ≤ (m.reg .sp).toNat) :
    ((lowered m).reg .sp).toNat = (m.reg .sp).toNat - 140 := by
  have hlt := (m.reg .sp).isLt
  have himm : (BitVec.ofInt 32 ((-4) * 35)).toNat = 2 ^ 32 - 140 := by decide
  rw [lowered, Mach.exec, setReg_self, BitVec.toNat_add, himm]
  omega

/-- No slot wraps around the address space. -/
theorem kernelvecFrame_fits (hroom : 4 * 35 ≤ (m.reg .sp).toNat) :
    kernelvecFrame.Fits ((lowered m).reg .sp).toNat := by
  intro s hs
  have hlt := (m.reg .sp).isLt
  have hword := kernelvecFrame_words s hs
  rw [lowered_sp hroom]
  omega

/-- The machine as the handler finds it. -/
def entered (ret : Word) (m : Mach) : Mach := (m.run kernelvecSave).setReg .ra ret

theorem kernelvec_eq (ret : Word) (handler : Mach → Mach) (m : Mach) :
    kernelvec ret handler m = (handler (entered ret m)).run kernelvecRestore := rfl

theorem run_kernelvecSave (m : Mach) :
    m.run kernelvecSave = (lowered m).run (saveAll kernelvecFrame .sp) := by
  rw [kernelvecSave_eq, run_cons]
  rfl

theorem entered_mem (ret : Word) (m : Mach) :
    (entered ret m).mem = ((lowered m).run (saveAll kernelvecFrame .sp)).mem := by
  rw [entered, setReg_mem, run_kernelvecSave]

theorem entered_reg (ret : Word) (m : Mach) {r : Reg} (h : r ≠ .ra) :
    (entered ret m).reg r = (lowered m).reg r := by
  rw [entered, setReg_of_ne _ _ h, run_kernelvecSave, run_saveAll_reg]

/-- From the interrupted stack pointer on the save writes one word, and that
word is not the frame's. -/
theorem entered_mem_above (hroom : 4 * 35 ≤ (m.reg .sp).toNat) {x : Nat}
    (hx : (m.reg .sp).toNat ≤ x) : (entered ret m).mem x
      = if x < (m.reg .sp).toNat + 4 then wordByte (m.reg .t6).toNat (x - (m.reg .sp).toNat)
        else m.mem x := by
  have hsp := lowered_sp hroom
  have hlt := (m.reg .sp).isLt
  have hsplit : saveAll kernelvecFrame .sp
      = saveAll kernelvecFrame.dropLast .sp ++ [.sw .t6 (35 * 4) .sp] := rfl
  have hbelow : ((lowered m).run (saveAll kernelvecFrame.dropLast .sp)).mem x = m.mem x := by
    refine run_saveAll_outside (fun s hs => ?_) fun s hs => ?_
    · have := kernelvecFrame_init s hs
      omega
    · have := kernelvecFrame_init s hs
      omega
  have hbase : ((lowered m).run (saveAll kernelvecFrame.dropLast .sp)).reg = (lowered m).reg :=
    run_saveAll_reg _ _ _
  rw [entered_mem, hsplit, run_append, run_cons, run_nil,
    exec_sw (by rw [hbase, hsp]; omega), hbase, hsp, lowered_reg m (by decide)]
  simp only [store32]
  rw [show (m.reg .sp).toNat - 140 + 35 * 4 = (m.reg .sp).toNat by omega, hbelow]
  simp [hx]

/-- The handler and the restore leave memory from the frame on as the save left it. -/
theorem kernelvec_mem (hcc : CCall dev handler) (hroom : Room top dev m) {x : Nat}
    (hx : (m.reg .sp).toNat ≤ x + 4 * 35) (hin : x < top ∨ x < (m.reg .sp).toNat + 4) :
    (handler (entered ret m)).mem x = (entered ret m).mem x := by
  refine hcc.memory _ x ?_ (hroom.apart x hx hin)
  rw [entered_reg ret m (by decide), lowered_sp hroom.below]
  omega

theorem run_kernelvecRestore (m : Mach) : m.run kernelvecRestore
    = (m.run (restoreAll kernelvecFrame .sp)).exec (.addi .sp .sp (4 * 35)) := by
  rw [kernelvecRestore_eq, run_append]
  rfl

/-- What is on the stack after the trap. -/
theorem kernelvec_stack (hcc : CCall dev handler) (hroom : Room top dev m) {x : Nat}
    (hx : (m.reg .sp).toNat ≤ x) (htop : x < top) : (kernelvec ret handler m).mem x
      = if x < (m.reg .sp).toNat + 4 then wordByte (m.reg .t6).toNat (x - (m.reg .sp).toNat)
        else m.mem x := by
  have hrestore : (kernelvec ret handler m).mem = (handler (entered ret m)).mem := by
    rw [kernelvec_eq, run_kernelvecRestore, Mach.exec, setReg_mem, run_restoreAll_mem]
  rw [hrestore, kernelvec_mem hcc hroom (by omega) (.inl htop), entered_mem_above hroom.below hx]

/-- The handler gives the stack pointer back. -/
theorem handler_sp (hcc : CCall dev handler) (ret : Word) (m : Mach) :
    (handler (entered ret m)).reg .sp = (lowered m).reg .sp := by
  rw [hcc.saved _ .sp (by decide), entered_reg ret m (by decide)]

/-- A saved register is loaded again from the slot it was saved in. -/
theorem kernelvec_slot (hcc : CCall dev handler) (hroom : Room top dev m) {s : Reg × Nat}
    (hs : s ∈ kernelvecFrame) :
    ((handler (entered ret m)).run (restoreAll kernelvecFrame .sp)).reg s.1 = m.reg s.1 := by
  have hsp := lowered_sp hroom.below
  have hfit := kernelvecFrame_fits hroom.below
  have hbelow := hroom.below
  have hword := kernelvecFrame_words s hs
  have hne : s.1 ≠ .sp := kernelvecFrame_regs s hs
  have hload : load32 (handler (entered ret m)).mem (((lowered m).reg .sp).toNat + s.2 * 4)
      = load32 (entered ret m).mem (((lowered m).reg .sp).toNat + s.2 * 4) := by
    apply load32_congr
    intro x h1 h2
    exact kernelvec_mem hcc hroom (by omega) (.inr (by omega))
  rw [run_restoreAll_reg (by rw [handler_sp hcc]; exact hfit) (by decide) (by decide) hs,
    handler_sp hcc, hload, entered_mem, load32_run_saveAll hfit (by decide) hs, lowered_reg m hne]
  exact BitVec.ofNat_toNat _ _

/-- The registers come back whatever the handler does with those it may use. -/
theorem kernelvec_registers (hcc : CCall dev handler) (hroom : Room top dev m) (r : Reg) :
    (kernelvec ret handler m).reg r = m.reg r := by
  rw [kernelvec_eq, run_kernelvecRestore]
  by_cases hsp : r = .sp
  · -- the two additions cancel
    subst hsp
    rw [Mach.exec, setReg_self, run_restoreAll_other _ (by decide), handler_sp hcc, lowered,
      Mach.exec, setReg_self, BitVec.add_assoc]
    have himm : BitVec.ofInt 32 ((-4) * 35) + BitVec.ofInt 32 (4 * 35) = 0#32 := by decide
    rw [himm, BitVec.add_zero]
  · rw [Mach.exec, setReg_of_ne _ _ hsp]
    rcases mem_kernelvecFrame r with rfl | rfl | hframe
    · exact absurd rfl hsp
    · rw [run_restoreAll_other _ (by decide), hcc.saved _ .tp (by decide),
        entered_reg ret m (by decide), lowered_reg m (by decide)]
    · obtain ⟨s, hs, rfl⟩ := List.mem_map.mp hframe
      exact kernelvec_slot hcc hroom hs

/-- A kernel trap is transparent exactly when the word it destroys held the
saved value before. -/
theorem kernelvec_transparent_iff (hcc : CCall dev handler) (hroom : Room top dev m) :
    Transparent top m (kernelvec ret handler m) ↔ TopHoldsT6 top m := by
  constructor
  · intro h x h1 h2 h3
    rw [← h.stack x h1 h3, kernelvec_stack hcc hroom h1 h3, if_pos h2]
  · intro h
    refine ⟨kernelvec_registers hcc hroom, fun x h1 h2 => ?_⟩
    rw [kernelvec_stack hcc hroom h1 h2]
    split
    · next h3 => exact (h x h1 h3 h2).symm
    · rfl

/-- A handler that uses all it may: it clobbers the registers that are not
callee-saved, the word below its stack pointer and one device register. -/
def exampleHandler (m : Mach) : Mach where
  reg r := if r ∈ calleeSaved then m.reg r else 7
  mem x := if (x < (m.reg .sp).toNat ∧ (m.reg .sp).toNat ≤ x + 4) ∨ x = 0x10000000 then 7 else m.mem x

theorem exampleHandler_ccall : CCall (fun x => x = 0x10000000) exampleHandler := by
  constructor
  · intro m r hr
    simp [exampleHandler, hr]
  · intro m x hx hdev
    simp only [exampleHandler]
    rw [if_neg (by omega)]

/-- Code interrupted with one zero word of its own on the stack. -/
def exampleInterrupted (t6 : Word) : Mach where
  reg r := if r = .sp then 0x80010000 else if r = .t6 then t6 else 3
  mem _ := 0

theorem exampleInterrupted_sp (t6 : Word) :
    ((exampleInterrupted t6).reg .sp).toNat = 0x80010000 := by
  simp [exampleInterrupted]

theorem exampleInterrupted_room (t6 : Word) :
    Room 0x80010004 (fun x => x = 0x10000000) (exampleInterrupted t6) := by
  have hsp := exampleInterrupted_sp t6
  refine ⟨by omega, fun x hx _ => ?_⟩
  omega

/-- With a zero in `t6` the trap goes unnoticed. -/
theorem kernelvec_transparent_zero : Transparent 0x80010004 (exampleInterrupted 0)
    (kernelvec 0x80000400 exampleHandler (exampleInterrupted 0)) := by
  refine (kernelvec_transparent_iff exampleHandler_ccall (exampleInterrupted_room 0)).mpr ?_
  intro x _ _ _
  simp [exampleInterrupted, wordByte]

/-- With a one in `t6` the interrupted code finds a one on its stack. -/
theorem kernelvec_overwrites_stack :
    CCall (fun x => x = 0x10000000) exampleHandler ∧
      Room 0x80010004 (fun x => x = 0x10000000) (exampleInterrupted 1) ∧
      ¬ Transparent 0x80010004 (exampleInterrupted 1)
        (kernelvec 0x80000400 exampleHandler (exampleInterrupted 1)) := by
  have hsp := exampleInterrupted_sp 1
  refine ⟨exampleHandler_ccall, exampleInterrupted_room 1, fun h => ?_⟩
  have hbyte := h.stack 0x80010000 (by omega) (by decide)
  rw [kernelvec_stack exampleHandler_ccall (exampleInterrupted_room 1) (by omega) (by decide),
    if_pos (by omega), hsp] at hbyte
  exact absurd hbyte (by decide)

end Risky321.Kernel
