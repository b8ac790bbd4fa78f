/-
Risky321.Kernel.System — the kernel as a system: system calls, from
`ksyscall.c` and `ktrap.c`, and the scheduler of `kproc.c`.

A state is the kernel, the console, and whether a process is executing. One
step is one event: the scheduler picks a process, a byte arrives at the
console, or the current process does something. What a process does is not
restricted: it may store to its own pages, and it may make any system call
with any arguments. The registers it has when it traps are stored to its
trap frame one at a time (`saveReg`), so every combination of register
values can precede a call.

The strings that `exec` and `open` are given are lists of bytes without the
terminating NUL. `none` is a panic, or a step that cannot be made.
-/
import Risky321.Kernel.Kproc
import Risky321.Kernel.Tty
import Risky321.Lib.Run

namespace Risky321.Kernel

open Risky321.Lib

/-! ## §1 Read and write -/

/-- The stores of `TtyRead` through the caller's pointer. -/
def storeBuf (L : Layout) (cur : Nat) : Nat → List UInt8 → KState → Option KState
  | _, [], k => some k
  | buf, c :: cs, k => (storeByte L k cur buf c).bind (storeBuf L cur ((buf + 1) % 2 ^ 32) cs)

/-- The loads of `TtyWrite`. -/
def loadBuf (L : Layout) (k : KState) (cur : Nat) : Nat → Nat → Option (List UInt8)
  | _, 0 => some []
  | buf, n + 1 =>
    (loadByte L k cur buf).bind fun c =>
    (loadBuf L k cur ((buf + 1) % 2 ^ 32) n).map fun cs => c :: cs

/-- `ksys_read`, with the bytes stored; it returns their number. -/
def ksysRead (L : Layout) (k : KState) (tty : Tty) (cur fd buf size : Nat) :
    Option (List UInt8 × KState × Tty) :=
  if fd = 0 then
    let (bytes, tty) := ttyRead tty size
    (storeBuf L cur buf bytes k).map fun k => (bytes, k, tty)
  else if fd = 1 ∨ fd = 2 then
    some ([], k, tty)
  else
    (kprocFileGet L k cur fd).bind fun h =>
    (filesystemFileRead L k cur h buf size).map fun (bytes, k) => (bytes, k, tty)

/-- `ksys_write`, with the bytes sent to the console. -/
def ksysWrite (L : Layout) (k : KState) (cur fd data size : Nat) : Option (Nat × List UInt8) :=
  if fd = 1 then
    (loadBuf L k cur data size).map fun bytes => (0, bytes)
  else
    some (0xFFFFFFFF, [])

/-! ## §2 Steps -/

/-- The kernel, the console, and whether `current` is executing. If not, the
scheduler is. -/
structure Sys where
  k : KState
  tty : Tty
  user : Bool

/-- What the current process may do. -/
inductive Call
  | fork
  | exec (path : List UInt8) (argv : List (List UInt8))
  | sbrk
  | exit (s : SavedRegs)
  | kill (pid : Nat) (s : SavedRegs)
  | sleep (s : SavedRegs)
  | openFile (path : List UInt8)
  | read (fd buf size : Nat)
  | close (fd : Nat)
  | write (fd data size : Nat)
  | userStore (va : Nat) (c : UInt8)
  | saveReg (w v : Nat)

/-- An event. -/
inductive Op
  | schedule (i : Nat)
  | create (idx : Nat)
  | console (c : UInt8)
  | call (c : Call)

/-- `ktrap_to_user`, up to the return to user mode. -/
def ktrapToUser (L : Layout) (k : KState) (cur : Nat) : KState :=
  let k := setTrapWord L k cur tfKernelSp (pcb L k cur .kernelStackTop)
  setTrapWord L k cur tfKernelTrap L.ktrapFromUserHandler

/-- The end of the handler for a call that returns `ret` in `a0`. -/
def returnValue (L : Layout) (k : KState) (cur ret : Nat) : KState :=
  ktrapToUser L (setTrapWord L k cur tfA0 ret) cur

/-- `epc` and the words `ra` to `t6` of a trap frame. -/
def IsReg (w : Nat) : Prop := w = tfEpc ∨ 5 ≤ w ∧ w < 36

instance (w : Nat) : Decidable (IsReg w) := inferInstanceAs (Decidable (_ ∨ _))

/-- A page that user mode may write to. -/
def userWritable (L : Layout) (k : KState) (cur va : Nat) : Bool :=
  match walk k.mem (pcb L k cur .pagetable) (va / pageSize) with
  | some e => e &&& pteU != 0 && e &&& pteW != 0
  | none => false

/-- A call of the process in slot `cur`. -/
def Sys.call (L : Layout) (s : Sys) (cur : Nat) : Call → Option Sys
  | .fork =>
    (kprocFork L s.k cur).map fun (_, k) => { s with k := ktrapToUser L k cur }
  | .exec path argv =>
    if 0 ∉ path ∧ ∀ arg ∈ argv, 0 ∉ arg then
      (kprocExec L s.k cur path argv).map fun (_, k) => { s with k := ktrapToUser L k cur }
    else
      none
  | .sbrk =>
    (kprocAddPage L s.k cur).map fun (ret, k) => { s with k := returnValue L k cur ret }
  | .exit r => some { s with k := kprocFree L s.k cur r, user := false }
  | .kill pid r =>
    if pcb L s.k cur .pid = pid then
      some { s with k := kprocKill L s.k cur pid r, user := false }
    else
      some { s with k := returnValue L (kprocKill L s.k cur pid r) cur 0xFFFFFFFF }
  | .sleep r => some { s with k := kprocYield L s.k cur r, user := false }
  | .openFile path =>
    if 0 ∉ path then
      let (ret, k) := filesystemFileOpen L s.k cur path
      some { s with k := returnValue L k cur ret }
    else
      none
  | .read fd buf size =>
    if fd < 2 ^ 32 ∧ buf < 2 ^ 32 ∧ size < 2 ^ 32 then
      (ksysRead L s.k s.tty cur fd buf size).map fun (bytes, k, tty) =>
        { s with k := returnValue L k cur bytes.length, tty := tty }
    else
      none
  | .close fd =>
    if fd < 2 ^ 32 then
      (filesystemFileClose L s.k cur fd).map fun (ret, k) =>
        { s with k := returnValue L k cur ret }
    else
      none
  | .write fd data size =>
    if fd < 2 ^ 32 ∧ data < 2 ^ 32 ∧ size < 2 ^ 32 then
      (ksysWrite L s.k cur fd data size).map fun _ => { s with k := ktrapToUser L s.k cur }
    else
      none
  | .userStore va c =>
    if va < 2 ^ 32 ∧ userWritable L s.k cur va then
      (storeByte L s.k cur va c).map fun k => { s with k := k }
    else
      none
  | .saveReg w v =>
    if IsReg w then some { s with k := setTrapWord L s.k cur w v } else none

/-- The scheduler enters slot `i`: `swtch` goes to `ktrap_to_user`, or back
into `ksys_sleep`, whose handler returns 0 in `a0`. -/
def enterSlot (L : Layout) (k : KState) (i : Nat) : KState :=
  let k := { k with current := some i }
  if pcb L k i (.context 0) = L.yieldReturn then returnValue L k i 0 else ktrapToUser L k i

/-- One event. -/
def Sys.step (L : Layout) (s : Sys) : Op → Option Sys
  | .schedule i =>
    if s.user = false ∧ i < numProcesses ∧ (pcb L s.k i .state = ProcState.runnable.code ∨
        pcb L s.k i .state = ProcState.running.code) then
      some { s with k := enterSlot L s.k i, user := true }
    else
      none
  | .create idx =>
    if idx < maxFsFiles then
      (kprocCreate L s.k (L.fsData idx)).map fun (_, k) => { s with k := k }
    else
      none
  | .console c => some { s with tty := (ttyBufferInsert s.tty c).2 }
  | .call c =>
    match s.k.current with
    | some cur => if s.user ∧ Live L s.k cur then s.call L cur c else none
    | none => none

/-- Memory before `kernel_main`: `proc_array` and `os_files` are zero, as C
guarantees, the files are in place, and the one the kernel starts can be loaded. -/
structure BootMem (L : Layout) (m : Mem) : Prop where
  procs : ∀ x, L.procArray ≤ x → x < L.procArray + numProcesses * sizeofProcess → m x = 0
  osFiles : ∀ x, L.osFiles ≤ x → x < L.osFiles + maxOsFiles * sizeofOsFile → m x = 0
  sizes : ∀ idx < maxFsFiles, load32 m (L.fsSize idx) ≤ maxFilesize
  elf : ElfOk (KState.init m) (L.fsData 2)

/-- The file `shell.elf`: an ELF header, one `PT_LOAD` header for the eight
bytes at offset 84, to be loaded to `VA_USER_BASE`, and these bytes. -/
def exampleElf : List UInt8 :=
  [0x7F, 0x45, 0x4C, 0x46, 1, 1, 1, 0, 0, 0, 0, 0, 0, 0, 0, 0,
   2, 0, 243, 0, 1, 0, 0, 0, 0, 0, 0, 0xC0, 52, 0, 0, 0, 0, 0, 0, 0,
   0, 0, 0, 0, 52, 0, 32, 0, 1, 0, 40, 0, 0, 0, 0, 0,
   1, 0, 0, 0, 84, 0, 0, 0, 0, 0, 0, 0xC0, 0, 0, 0, 0xC0,
   8, 0, 0, 0, 8, 0, 0, 0, 7, 0, 0, 0, 4, 0, 0, 0,
   0x13, 0, 0, 0, 0x6F, 0, 0, 0]

/-- `"shell.elf"`. -/
def examplePath : List UInt8 := [115, 104, 101, 108, 108, 46, 101, 108, 102]

/-- A memory with that file in place and nothing else. -/
def exampleMem : Mem := fun x =>
  let file := exampleLayout.fsFile 2
  if x = file then 1
  else if file + 4 ≤ x ∧ x < file + 13 then examplePath.getD (x - (file + 4)) 0
  else if file + 104 ≤ x ∧ x < file + 196 then exampleElf.getD (x - (file + 104)) 0
  else if x = file + 4194408 then 92
  else 0

/-- The state in which the scheduler is entered for the first time. -/
structure Sys.Init (L : Layout) (s : Sys) : Prop where
  booted : ∃ dev m, BootMem L m ∧ boot L dev m = some s.k
  tty : s.tty = Tty.init
  user : s.user = false

end Risky321.Kernel
