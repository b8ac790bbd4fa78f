/-
Risky321.Kernel.Kproc — processes, from `kproc.c`, and the boot sequence of
`kernel.c`.

`kproc_create` and `kproc_exec` hold the same code for building an address
space, once on `proc_array[i]` and once on `current_user_process`; here it
is one definition, `buildImage`, whose flag says whether loading a segment
page also moves `free_heap_page` (only `kproc_exec` does that).

What the C code keeps in a register or on the kernel stack across a call is
a variable here. The words that `swtch` saves are a parameter of
`kprocYield`, because they are whatever the registers hold there.
-/
import Risky321.Kernel.Filesystem

namespace Risky321.Kernel

open Risky321.Lib

/-! ## §1 Trap frames and ELF headers -/

/-- The word number of a member of `struct trap_frame`. -/
def tfKernelSp : Nat := 1
def tfKernelTrap : Nat := 2
def tfEpc : Nat := 3
def tfSp : Nat := 6
def tfA0 : Nat := 14
def tfA1 : Nat := 15

/-- `proc_array[i].trapframe->w` and a store to it. -/
def trapWord (L : Layout) (k : KState) (i w : Nat) : Nat :=
  k.load (pcb L k i .trapframe + 4 * w)

def setTrapWord (L : Layout) (k : KState) (i w v : Nat) : KState :=
  k.store (pcb L k i .trapframe + 4 * w) v

/-- Members of `struct elf_header` at `elf`. -/
def elfEntry (k : KState) (elf : Nat) : Nat := k.load (elf + 24)
def elfPhoff (k : KState) (elf : Nat) : Nat := k.load (elf + 28)
def elfPhnum (k : KState) (elf : Nat) : Nat := load16 k.mem (elf + 44)

/-- The address of program header `n`, and members of `struct elf_program_header`. -/
def elfProgramHeader (k : KState) (elf n : Nat) : Nat :=
  (elf + elfPhoff k elf + n * 32) % 2 ^ 32
def phOffset (k : KState) (eph : Nat) : Nat := k.load (eph + 4)
def phVaddr (k : KState) (eph : Nat) : Nat := k.load (eph + 8)
def phMemsz (k : KState) (eph : Nat) : Nat := k.load (eph + 20)

/-- The virtual pages a segment is loaded to, and those of all segments of an
image, in the order the loader takes them. -/
def segmentPages (k : KState) (eph : Nat) : List Nat :=
  (List.range ((phMemsz k eph + 4095) / pageSize)).map
    (fun idx => (phVaddr k eph + idx * pageSize) % 2 ^ 32 / pageSize)

def elfPages (k : KState) (elf : Nat) : List Nat :=
  (List.range (elfPhnum k elf)).flatMap (fun n => segmentPages k (elfProgramHeader k elf n))

/-- One page of an image: the virtual page it is loaded to, the address it is
copied from, and the number of bytes copied. -/
structure Load where
  page : Nat
  src : Nat
  len : Nat
  deriving DecidableEq, Repr

/-- The loads a segment comes down to, and those of all segments of an image,
in the order the loader makes them. -/
def segmentLoads (k : KState) (elf eph : Nat) : List Load :=
  (List.range ((phMemsz k eph + 4095) / pageSize)).map
    (fun idx => ⟨(phVaddr k eph + idx * pageSize) % 2 ^ 32 / pageSize,
      (elf + phOffset k eph + idx * pageSize) % 2 ^ 32,
      min pageSize (phMemsz k eph - idx * pageSize)⟩)

def elfLoads (k : KState) (elf : Nat) : List Load :=
  (List.range (elfPhnum k elf)).flatMap (fun n => segmentLoads k elf (elfProgramHeader k elf n))

/-- Of several loads to one page the last one counts. -/
def lastLoad (loads : List Load) (v : Nat) : Option Load :=
  loads.foldl (fun o ld => if ld.page = v then some ld else o) none

/-- An image whose program headers are inside the file and whose segments do
not reach below `VA_USER_BASE`. -/
structure ElfAbove (k : KState) (elf : Nat) : Prop where
  headers : elfPhoff k elf + 32 * elfPhnum k elf ≤ maxFilesize
  base : ∀ v ∈ elfPages k elf, vaUserBase / pageSize ≤ v

/-- An image that may be loaded: the program headers are inside the file and
every page of a segment is inside `[VA_USER_BASE, VA_USER_STACK)`. -/
structure ElfOk (k : KState) (elf : Nat) : Prop where
  headers : elfPhoff k elf + 32 * elfPhnum k elf ≤ maxFilesize
  pages : ∀ v ∈ elfPages k elf, vaUserBase / pageSize ≤ v ∧ v < vaUserStack / pageSize

/-! ## §2 Building an address space -/

/-- One page of a segment: allocate it, copy `n` bytes from `src`, map it at
`va`. With `heap` the process's `free_heap_page` moves up by a page. -/
def loadPage (L : Layout) (heap : Bool) (i va src n : Nat) (k : KState) : Option KState :=
  match kmemAlloc k with
  | none => none
  | some (page, k) =>
    let k := { k with mem := copy k.mem page src n }
    match kvmemMapPage k (pcb L k i .pagetable) va page (pteR ||| pteW ||| pteX ||| pteU) with
    | none => none
    | some k =>
      if heap then
        some (setPcb L k i .freeHeapPage ((pcb L k i .freeHeapPage + pageSize) % 2 ^ 32))
      else
        some k

/-- One program header: the full pages of the segment, then the rest. -/
def loadSegment (L : Layout) (heap : Bool) (i elf n : Nat) (k : KState) : Option KState :=
  let eph := elfProgramHeader k elf n
  let programStart := elf + phOffset k eph
  let vaddr := phVaddr k eph
  let fullPages := phMemsz k eph / pageSize
  let lastPageSize := phMemsz k eph % pageSize
  match forLoop fullPages
      (fun idx => loadPage L heap i ((vaddr + idx * pageSize) % 2 ^ 32)
        ((programStart + idx * pageSize) % 2 ^ 32) pageSize) k with
  | none => none
  | some k =>
    if 0 < lastPageSize then
      loadPage L heap i ((vaddr + fullPages * pageSize) % 2 ^ 32)
        ((programStart + fullPages * pageSize) % 2 ^ 32) lastPageSize k
    else
      some k

/-- The PCB and trap frame stores that prepare the first return to user mode. -/
def initContext (L : Layout) (k : KState) (i : Nat) : KState :=
  let k := setPcb L k i (.context 0) L.ktrapToUser
  let k := setPcb L k i (.context 1) (pcb L k i .kernelStackTop)
  let k := setTrapWord L k i tfKernelSp (pcb L k i .kernelStackTop)
  setTrapWord L k i tfKernelTrap L.ktrapFromUserHandler

/-- The start of the shared code: root table, trap frame, context. -/
def imageRoot (L : Layout) (k : KState) (i : Nat) : Option KState :=
  match kmemAlloc k with
  | none => none
  | some (pagetable, k) =>
    let k := setPcb L k i .pagetable pagetable
    match kmemAlloc k with
    | none => none
    | some (trapframe, k) => some (initContext L (setPcb L k i .trapframe trapframe) i)

/-- Then the kernel's half of the address space. -/
def imageBase (L : Layout) (k : KState) (i : Nat) : Option KState :=
  match imageRoot L k i with
  | none => none
  | some k => mapKernel L k (pcb L k i .pagetable)

/-- The last part: map the trap frame, allocate and map the user stack.
Gives `user_stack_page`. -/
def imageStack (L : Layout) (k : KState) (i : Nat) : Option (Nat × KState) :=
  match kvmemMapPage k (pcb L k i .pagetable) vaTrapframe (pcb L k i .trapframe)
      (pteR ||| pteW) with
  | none => none
  | some k =>
    match kmemAlloc k with
    | none => none
    | some (userStackPage, k) =>
      let k := setPcb L k i .userStack userStackPage
      let k := setTrapWord L k i tfSp vaUserStackInit
      match kvmemMapPage k (pcb L k i .pagetable) vaUserStack userStackPage
          (pteR ||| pteW ||| pteX ||| pteU) with
      | none => none
      | some k => some (userStackPage, k)

/-- The shared part of `kproc_create` and `kproc_exec`, from the allocation
of the page table to the mapping of the user stack. -/
def buildImage (L : Layout) (heap : Bool) (k : KState) (i elf : Nat) : Option (Nat × KState) :=
  match imageBase L k i with
  | none => none
  | some k =>
    let k := setTrapWord L k i tfEpc (elfEntry k elf)
    match forLoop (elfPhnum k elf) (loadSegment L heap i elf) k with
    | none => none
    | some k => imageStack L k i

/-! ## §3 Creation, exit and kill -/

/-- `kproc_init`. -/
def kprocInit (L : Layout) (k : KState) : KState :=
  (List.range numProcesses).foldl
    (fun k i =>
      let k := setPcb L k i .state ProcState.unused.code
      let k := setPcb L k i .kernelStackTop (L.proc i + sizeofProcess)
      setPcb L k i .freeHeapPage vaUserBase) k

/-- The search for a free PCB of `kproc_create` and `kproc_fork`. -/
def freeSlot (L : Layout) (k : KState) : Option Nat :=
  (List.range numProcesses).find? (fun i => pcb L k i .state == ProcState.unused.code)

/-- `kproc_create`; gives the slot of the new process. -/
def kprocCreate (L : Layout) (k : KState) (elf : Nat) : Option (Nat × KState) :=
  match freeSlot L k with
  | none => none
  | some i =>
    let k := setPcb L k i .state ProcState.runnable.code
    let k := setPcb L k i .pid (i + 1)
    match buildImage L false k i elf with
    | none => none
    | some (_, k) => some (i, k)

/-- The words `swtch` stores: `ra` is the return address in `kproc_yield`,
the others are the kernel `sp` and `s0` to `s11`. -/
structure SavedRegs where
  rest : List Nat
  length_rest : rest.length = 13

/-- `kproc_yield`: `swtch` saves the context of slot `cur`. The scheduler goes on. -/
def kprocYield (L : Layout) (k : KState) (cur : Nat) (s : SavedRegs) : KState :=
  { k with mem := storeWords k.mem (L.proc cur + 12) (L.yieldReturn :: s.rest) }

/-- The three frees that `kproc_free` and `kproc_kill` make. -/
def releasePages (L : Layout) (k : KState) (i : Nat) : KState :=
  let k := kmemFree k (pcb L k i .trapframe)
  let k := kmemFree k (pcb L k i .pagetable)
  kmemFree k (pcb L k i .userStack)

/-- `kproc_free`, up to the `swtch` from which it never returns. -/
def kprocFree (L : Layout) (k : KState) (cur : Nat) (s : SavedRegs) : KState :=
  let k := setPcb L k cur .state ProcState.unused.code
  kprocYield L (releasePages L k cur) cur s

/-- The loop body of `kproc_kill`. -/
def kprocKillSlot (L : Layout) (pid : Nat) (k : KState) (i : Nat) : KState :=
  if pcb L k i .state ≠ ProcState.unused.code ∧ pcb L k i .pid = pid then
    setPcb L (releasePages L k i) i .state ProcState.unused.code
  else
    k

/-- `kproc_kill`; killing oneself is `kproc_free`. -/
def kprocKill (L : Layout) (k : KState) (cur pid : Nat) (s : SavedRegs) : KState :=
  if pcb L k cur .pid = pid then
    kprocFree L k cur s
  else
    (List.range numProcesses).foldl (kprocKillSlot L pid) k

/-! ## §4 Fork, exec and sbrk -/

/-- `kproc_fork`; gives the PID of the new process. -/
def kprocFork (L : Layout) (k : KState) (cur : Nat) : Option (Nat × KState) :=
  match freeSlot L k with
  | none => none
  | some i =>
  let k := setPcb L k i .state ProcState.runnable.code
  let k := setPcb L k i .pid (i + 1)
  match kvmemCopyPagetable k (pcb L k cur .pagetable) with
  | none => none
  | some (pagetable, k) =>
  let k := setPcb L k i .pagetable pagetable
  match kmemAlloc k with
  | none => none
  | some (trapframe, k) =>
  let k := setPcb L k i .trapframe trapframe
  match kvmemMapPage k (pcb L k i .pagetable) vaTrapframe (pcb L k i .trapframe)
      (pteR ||| pteW) with
  | none => none
  | some k =>
  let k := { k with
    mem := copy k.mem (pcb L k i .trapframe) (pcb L k cur .trapframe) pageSize }
  let k := setPcb L k i .userStack (kvmemGetPa k (pcb L k i .pagetable) vaUserStack)
  let k := initContext L k i
  let k := setTrapWord L k cur tfA0 (pcb L k i .pid)
  let k := setTrapWord L k i tfA0 0
  some (pcb L k i .pid, k)

/-- The variables of the loop over the arguments in `kproc_exec`:
`physical_user_stack`, the entries of `tmp_argv` so far, and the kernel. -/
structure ArgState where
  phys : Nat
  tmpArgv : List Nat
  k : KState

/-- One round: the string goes below the last one on the new stack, the saved
`sp` follows, and its value is the entry of `tmp_argv`. -/
def pushArg (L : Layout) (i : Nat) (s : ArgState) (arg : List UInt8) : ArgState :=
  let argLen := arg.length + 1
  let phys := sub32 s.phys argLen
  let k := setTrapWord L s.k i tfSp (sub32 (trapWord L s.k i tfSp) argLen)
  { phys := phys
    tmpArgv := s.tmpArgv ++ [trapWord L k i tfSp]
    k := { k with mem := storeBytes k.mem phys (arg ++ [0]) } }

/-- What follows the loop: the `argv` array below the strings, and the
registers in which `main` finds its arguments. -/
def pushArgv (L : Layout) (i argc : Nat) (s : ArgState) : KState :=
  let phys := sub32 s.phys (4 * argc)
  let k := { s.k with mem := storeWords s.k.mem phys s.tmpArgv }
  let k := setTrapWord L k i tfSp (sub32 (trapWord L k i tfSp) (4 * argc))
  let k := setTrapWord L k i tfA0 argc
  setTrapWord L k i tfA1 (trapWord L k i tfSp)

/-- The end of `kproc_exec`. -/
def execArgs (L : Layout) (k : KState) (i userStackPage : Nat) (argv : List (List UInt8)) :
    KState :=
  pushArgv L i argv.length
    (argv.foldl (pushArg L i) { phys := userStackPage + pageSize, tmpArgv := [], k := k })

/-- `kproc_exec`: -1 and no change when there is no such file. -/
def kprocExec (L : Layout) (k : KState) (cur : Nat) (path : List UInt8)
    (argv : List (List UInt8)) : Option (Nat × KState) :=
  let elf := filesystemGetFiledata L k path
  if elf = 0 then
    some (0xFFFFFFFF, k)
  else
    let k := setPcb L k cur .state ProcState.runnable.code
    match buildImage L true k cur elf with
    | none => none
    | some (userStackPage, k) => some (0, execArgs L k cur userStackPage argv)

/-- `kproc_add_page`; gives the address of the new heap page. -/
def kprocAddPage (L : Layout) (k : KState) (cur : Nat) : Option (Nat × KState) :=
  match kmemAlloc k with
  | none => none
  | some (page, k) =>
    let retval := pcb L k cur .freeHeapPage
    match kvmemMapPage k (pcb L k cur .pagetable) (pcb L k cur .freeHeapPage) page
        (pteR ||| pteW ||| pteU) with
    | none => none
    | some k =>
      some (retval,
        setPcb L k cur .freeHeapPage ((pcb L k cur .freeHeapPage + pageSize) % 2 ^ 32))

/-! ## §5 Boot -/

/-- What the virtio registers answer: the magic value, version and device id,
and the status read back after the negotiation. -/
structure VirtioRegs where
  magic : Nat
  version : Nat
  deviceId : Nat
  status : Nat

/-- `virtq_init`: two pages, which the queue straddles because the allocator
hands out descending addresses, and the two members it sets. -/
def virtqInit (k : KState) (index : Nat) : Option (Nat × KState) :=
  match kmemAlloc k with
  | none => none
  | some (_, k) =>
    match kmemAlloc k with
    | none => none
    | some (vq, k) =>
      let k := k.store (vq + 4228) index
      some (vq, k.store (vq + 4232) (vq + 4098))

/-- `virtio_blk_init`, less the register writes that only the device sees. -/
def virtioBlkInit (dev : VirtioRegs) (k : KState) : Option KState :=
  if dev.magic ≠ 0x74726976 ∨ dev.version ≠ 1 ∨ dev.deviceId ≠ 2 then
    none
  else if dev.status &&& 4 = 0 then
    none
  else
    match virtqInit k 0 with
    | none => none
    | some (vq, k) =>
      match kmemAlloc k with
      | none => none
      | some (page, k) => some { k with blkRequestVq := vq, blkReqPaddr := page }

/-- The kernel's variables before `kernel_main`, over the memory `m`. -/
def KState.init (m : Mem) : KState :=
  { mem := m, head := 0, kernelPagetable := 0, current := none, blkRequestVq := 0,
    blkReqPaddr := 0, handedOut := [] }

/-- `kernel_main` up to its first process: `kmem_init`, `kvmem_init_kernel`,
`kproc_init` and `virtio_blk_init`. -/
def bootKernel (L : Layout) (dev : VirtioRegs) (m : Mem) : Option KState :=
  (kvmemInitKernel L (kmemInit L (KState.init m))).bind
    (fun k => virtioBlkInit dev (kprocInit L k))

/-- `kernel_main` up to the scheduler, over a memory that already holds the
files: then comes `kproc_create` on the file the kernel starts as its shell. -/
def boot (L : Layout) (dev : VirtioRegs) (m : Mem) : Option KState :=
  (bootKernel L dev m).bind (fun k => (kprocCreate L k (L.fsData 2)).map Prod.snd)

end Risky321.Kernel
