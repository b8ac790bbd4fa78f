/-
Risky321.Kernel.Uservec — the way from a process into the kernel and back,
from `uservec.S` and `ktrap.c`.

`System` starts where the C handler has its arguments. Here are the machine
code around it and the dispatch: `uservec` stores the registers of the
interrupted process through the process's own page table, the handler takes
the call and its arguments from the trap frame, and `enter_user_process`
switches to the page table of the process it returns to and loads all
registers again.

§1 the code, §2 memory as the hart sees it, §3 the handler, §4 the machine.
What the processes do in user mode is not restricted: an instruction may
leave anything in the registers, and a store may go wherever the page table
allows it. `none` is a panic, a fault, or a step that cannot be made.
-/
import Risky321.Kernel.System
import Risky321.Lib.Hart

namespace Risky321.Kernel

open Risky321.Lib

/-! ## §1 The code -/

/-- The stores of `uservec`, less the one of `a0`. -/
def uservecSave : List Instr :=
  [
    .sw .ra (5 * 4) .a0, .sw .sp (6 * 4) .a0, .sw .gp (7 * 4) .a0, .sw .tp (8 * 4) .a0,
    .sw .t0 (9 * 4) .a0, .sw .t1 (10 * 4) .a0, .sw .t2 (11 * 4) .a0, .sw .s0 (12 * 4) .a0,
    .sw .s1 (13 * 4) .a0, .sw .a1 (15 * 4) .a0, .sw .a2 (16 * 4) .a0, .sw .a3 (17 * 4) .a0,
    .sw .a4 (18 * 4) .a0, .sw .a5 (19 * 4) .a0, .sw .a6 (20 * 4) .a0, .sw .a7 (21 * 4) .a0,
    .sw .s2 (22 * 4) .a0, .sw .s3 (23 * 4) .a0, .sw .s4 (24 * 4) .a0, .sw .s5 (25 * 4) .a0,
    .sw .s6 (26 * 4) .a0, .sw .s7 (27 * 4) .a0, .sw .s8 (28 * 4) .a0, .sw .s9 (29 * 4) .a0,
    .sw .s10 (30 * 4) .a0, .sw .s11 (31 * 4) .a0, .sw .t3 (32 * 4) .a0, .sw .t4 (33 * 4) .a0,
    .sw .t5 (34 * 4) .a0, .sw .t6 (35 * 4) .a0
  ]

/-- `uservec` up to `jr t0`. -/
def uservec : List SInstr :=
  [.csrw .sscratch .a0, .li .a0 vaTrapframe] ++ uservecSave.map .base ++
    [.csrr .t0 .sscratch, .base (.sw .t0 (14 * 4) .a0), .base (.lw .sp (1 * 4) .a0),
      .base (.lw .t0 (2 * 4) .a0)]

/-- The loads of `enter_user_process`, less the one of `a0`. -/
def enterUserProcessLoad : List Instr :=
  [
    .lw .ra (5 * 4) .a0, .lw .sp (6 * 4) .a0, .lw .gp (7 * 4) .a0, .lw .tp (8 * 4) .a0,
    .lw .t0 (9 * 4) .a0, .lw .t1 (10 * 4) .a0, .lw .t2 (11 * 4) .a0, .lw .s0 (12 * 4) .a0,
    .lw .s1 (13 * 4) .a0, .lw .a1 (15 * 4) .a0, .lw .a2 (16 * 4) .a0, .lw .a3 (17 * 4) .a0,
    .lw .a4 (18 * 4) .a0, .lw .a5 (19 * 4) .a0, .lw .a6 (20 * 4) .a0, .lw .a7 (21 * 4) .a0,
    .lw .s2 (22 * 4) .a0, .lw .s3 (23 * 4) .a0, .lw .s4 (24 * 4) .a0, .lw .s5 (25 * 4) .a0,
    .lw .s6 (26 * 4) .a0, .lw .s7 (27 * 4) .a0, .lw .s8 (28 * 4) .a0, .lw .s9 (29 * 4) .a0,
    .lw .s10 (30 * 4) .a0, .lw .s11 (31 * 4) .a0, .lw .t3 (32 * 4) .a0, .lw .t4 (33 * 4) .a0,
    .lw .t5 (34 * 4) .a0, .lw .t6 (35 * 4) .a0
  ]

/-- `enter_user_process` up to `sret`. -/
def enterUserProcess : List SInstr :=
  [.csrw .satp .a0, .li .a0 vaTrapframe] ++ enterUserProcessLoad.map .base ++
    [.base (.lw .a0 (14 * 4) .a0)]

/-! ## §2 Memory as the hart sees it -/

/-- The root table that `satp` selects, and the argument of `enter_user_process`:
`SATP_SV32 | pagetable >> 12`. -/
def satpRoot (satp : Word) : Nat := satp.toNat % 2 ^ 22 * pageSize

def satpOf (pagetable : Nat) : Word := BitVec.ofNat 32 (2 ^ 31 ||| pagetable >>> 12)

/-- The physical address of `va` in the address space of a root table, for an
access that needs `flag`. -/
def translateRoot (k : KState) (root flag va : Nat) : Option Nat :=
  match walk k.mem root (va / pageSize) with
  | some e => if e &&& flag ≠ 0 then some (pteAddr e + va % pageSize) else none
  | none => none

/-- Loads and stores of a word in supervisor mode. -/
def kernelMmu : Mmu KState where
  load satp k va :=
    if va % 4 = 0 then
      (translateRoot k (satpRoot satp) pteR va).map fun pa => BitVec.ofNat 32 (k.load pa)
    else
      none
  store satp k va v :=
    if va % 4 = 0 then
      (translateRoot k (satpRoot satp) pteW va).map fun pa => k.store pa v.toNat
    else
      none

/-- A byte stored in user mode. -/
def userStoreByte (satp : Word) (k : KState) (va : Nat) (c : UInt8) : Option KState :=
  match walk k.mem (satpRoot satp) (va / pageSize) with
  | some e =>
    if e &&& pteU ≠ 0 ∧ e &&& pteW ≠ 0 then
      some { k with mem := Function.update k.mem (pteAddr e + va % pageSize) c }
    else
      none
  | none => none

/-- A string: the bytes from `va` on up to the first NUL. -/
def loadString (L : Layout) (k : KState) (cur : Nat) : Nat → Nat → Option (List UInt8)
  | 0, _ => none
  | n + 1, va =>
    (loadByte L k cur va).bind fun c =>
      if c = 0 then some []
      else (loadString L k cur n ((va + 1) % 2 ^ 32)).map fun cs => c :: cs

/-- The strings of an `argv` array, up to the first `NULL` in it. -/
def loadArgs (L : Layout) (k : KState) (cur : Nat) : Nat → Nat → Option (List (List UInt8))
  | 0, _ => none
  | n + 1, va =>
    (loadWord L k cur va).bind fun p =>
      if p = 0 then some []
      else
        (loadString L k cur (2 ^ 32) p).bind fun arg =>
        (loadArgs L k cur n ((va + 4) % 2 ^ 32)).map fun args => arg :: args

/-- `argv`, which may itself be `NULL`. -/
def loadArgv (L : Layout) (k : KState) (cur argv : Nat) : Option (List (List UInt8)) :=
  if argv = 0 then some [] else loadArgs L k cur (2 ^ 30) argv

/-! ## §3 The handler -/

/-- The registers in the order of `struct trap_frame`, whose word 5 is `ra`. -/
def trapRegs : List Reg :=
  [.ra, .sp, .gp, .tp, .t0, .t1, .t2, .s0, .s1, .a0, .a1, .a2, .a3, .a4, .a5, .a6, .a7, .s2, .s3,
    .s4, .s5, .s6, .s7, .s8, .s9, .s10, .s11, .t3, .t4, .t5, .t6]

/-- The word of a register, and the register of a word. -/
def regWord (r : Reg) : Nat := trapRegs.idxOf r + 5

def wordReg (w : Nat) : Reg := trapRegs.getD (w - 5) .ra

def tfA2 : Nat := 16
def tfA7 : Nat := 21

/-- `SCAUSE_INTR_BIT`, `SCAUSE_UMODE_ECALL`, `SCAUSE_SMODE_EXTERNAL_INTR` and `UART0_IRQ`. -/
def scauseIntrBit : Nat := 2 ^ 31
def scauseUmodeEcall : Nat := 8
def scauseSmodeExternalIntr : Nat := 9
def uart0Irq : Nat := 10

/-- What a trap finds: its cause, the interrupt the PLIC hands out, and the
bytes the UART has received. -/
structure TrapInfo where
  scause : Nat
  irq : Nat
  received : List UInt8

/-- `KtrapInterruptHandle`, with the loop of `UartInterruptHandle`. -/
def ktrapInterruptHandle (t : TrapInfo) (tty : Tty) : Option Tty :=
  if t.scause % scauseIntrBit = scauseSmodeExternalIntr then
    if t.irq = uart0Irq then
      some (t.received.foldl (fun tty c => (ttyBufferInsert tty c).2) tty)
    else
      none
  else
    none

/-- The call that `a7` selects, with the arguments that its case passes on.
`getpid` has no function of its own and is not among them. -/
def ksyscall (L : Layout) (k : KState) (cur : Nat) (r : SavedRegs) : Option Call :=
  let a0 := trapWord L k cur tfA0
  let a1 := trapWord L k cur tfA1
  let a2 := trapWord L k cur tfA2
  match trapWord L k cur tfA7 with
  | 1 => some .fork
  | 2 => some (.exit r)
  | 5 => some (.read a0 a1 a2)
  | 6 => some (.kill a0 r)
  | 7 =>
    (loadString L k cur (2 ^ 32) a0).bind fun path =>
    (loadArgv L k cur a1).map fun argv => .exec path argv
  | 12 => some .sbrk
  | 13 => some (.sleep r)
  | 15 => (loadString L k cur (2 ^ 32) a0).map fun path => .openFile path
  | 16 => some (.write a0 a1 a2)
  | 21 => some (.close a0)
  | _ => none

/-- The case for `SYS_getpid`. -/
def sysGetpid : Nat := 11

/-- `ktrap_from_user_handler`, for a trap at `sepc`. -/
def ktrapFromUserHandler (L : Layout) (s : Sys) (cur : Nat) (sepc : Word) (t : TrapInfo)
    (r : SavedRegs) : Option Sys :=
  let k := setTrapWord L s.k cur tfEpc sepc.toNat
  if t.scause < scauseIntrBit then
    let k := setTrapWord L k cur tfEpc ((trapWord L k cur tfEpc + 4) % 2 ^ 32)
    if t.scause = scauseUmodeEcall then
      if trapWord L k cur tfA7 = sysGetpid then
        some { s with k := returnValue L k cur (pcb L k cur .pid) }
      else
        (ksyscall L k cur r).bind fun c => Sys.call L { s with k := k } cur c
    else
      none
  else
    (ktrapInterruptHandle t s.tty).map fun tty => { s with k := ktrapToUser L k cur, tty := tty }

/-! ## §4 The machine -/

/-- The system with its hart: the registers and the program counter are those
of user mode, while a process executes. -/
structure Cpu where
  sys : Sys
  reg : Reg → Word
  pc : Word
  csr : Csr → Word

/-- What happens next. In user mode: an instruction that neither stores nor
traps, a byte of a store, or a trap. In the scheduler: `swtch` to a slot, or an
interrupt. `kreg` is what the kernel has in the registers when it is done. -/
inductive CpuOp
  | instr (reg : Reg → Word) (pc : Word)
  | store (va : Nat) (c : UInt8)
  | trap (t : TrapInfo) (r : SavedRegs) (kreg : Reg → Word)
  | swtch (i : Nat) (kreg : Reg → Word)
  | kernelTrap (t : TrapInfo)

/-- The end of `ktrap_to_user`: `sepc` is set and `enter_user_process` called.
When the process has given up the processor the scheduler goes on instead. -/
def Cpu.enter (L : Layout) (csr : Csr → Word) (kreg : Reg → Word) (s : Sys) : Option Cpu :=
  match s.user, s.k.current with
  | true, some cur =>
    let h : Hart KState :=
      { reg := Function.update kreg .a0 (satpOf (pcb L s.k cur .pagetable)), csr := csr,
        mem := s.k }
    (h.run kernelMmu enterUserProcess).map fun h =>
      { sys := { s with k := h.mem }, reg := h.reg, csr := h.csr,
        pc := BitVec.ofNat 32 (trapWord L s.k cur tfEpc) }
  | _, _ => some { sys := s, reg := kreg, pc := 0, csr := csr }

/-- One event. -/
def Cpu.step (L : Layout) (c : Cpu) : CpuOp → Option Cpu
  | .instr reg pc => if c.sys.user then some { c with reg := reg, pc := pc } else none
  | .store va b =>
    if c.sys.user ∧ va < 2 ^ 32 then
      (userStoreByte (c.csr .satp) c.sys.k va b).map fun k =>
        { c with sys := { c.sys with k := k } }
    else
      none
  | .trap t r kreg =>
    match c.sys.user, c.sys.k.current with
    | true, some cur =>
      (Hart.run kernelMmu { reg := c.reg, csr := c.csr, mem := c.sys.k } uservec).bind fun h =>
        if h.reg .t0 = BitVec.ofNat 32 L.ktrapFromUserHandler then
          (ktrapFromUserHandler L { c.sys with k := h.mem } cur c.pc t r).bind
            (Cpu.enter L h.csr kreg)
        else
          none
    | _, _ => none
  | .swtch i kreg => (c.sys.step L (.schedule i)).bind (Cpu.enter L c.csr kreg)
  | .kernelTrap t =>
    if c.sys.user = false ∧ scauseIntrBit ≤ t.scause then
      (ktrapInterruptHandle t c.sys.tty).map fun tty => { c with sys := { c.sys with tty := tty } }
    else
      none

/-- The scheduler is entered for the first time. -/
def Cpu.Init (L : Layout) (c : Cpu) : Prop := Sys.Init L c.sys

end Risky321.Kernel
