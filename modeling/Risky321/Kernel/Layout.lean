/-
Risky321.Kernel.Layout — where the kernel keeps things, from `kernel.ld`,
`kvmem.h`, `kproc.h` and `filesystem.h`.

The kernel, its statically allocated tables and the pages it hands out all
live in one physical memory, and every address space maps that memory 1:1
below `__free_ram_end`. So a kernel pointer is a physical address here,
and the process control blocks, the file tables and the page tables are
all words of the same memory. That matters: a stray store of one part of
the kernel really can hit the data of another.

§1 constants and the linker's layout, §2 the kernel's state, §3 fields of
the process control blocks.
-/
import Risky321.Lib.ByteMem

namespace Risky321.Kernel

open Risky321.Lib

/-! ## §1 Constants and the memory layout -/

/-- `PAGE_SIZE` of `kvmem.h`. -/
abbrev pageSize : Nat := 4096

/-- `VA_TRAPFRAME`, `VA_USER_BASE`, `VA_USER_STACK_INIT` and `VA_USER_STACK` of `kvmem.h`. -/
abbrev vaTrapframe : Nat := 0xFFFFF000
abbrev vaUserBase : Nat := 0xC0000000
abbrev vaUserStackInit : Nat := vaTrapframe
abbrev vaUserStack : Nat := vaUserStackInit - pageSize

/-- `NUM_PROCESSES` and `MAX_OPEN_FILES` of `kproc.h`. -/
abbrev numProcesses : Nat := 8
abbrev maxOpenFiles : Nat := 8

/-- `MAX_OS_FILES`, `MAX_FS_FILES` and `MAX_FILESIZE` of `filesystem.h`. -/
abbrev maxOsFiles : Nat := 100
abbrev maxFsFiles : Nat := 12
abbrev maxFilesize : Nat := 4096 * 1024

/-- `sizeof` of `struct process`, `struct os_file` and `struct filesystem_file`. -/
abbrev sizeofProcess : Nat := 8312
abbrev sizeofOsFile : Nat := 12
abbrev sizeofFilesystemFile : Nat := 4194412

/-- The flag bits of a page table entry. -/
abbrev pteV : Nat := 1
abbrev pteR : Nat := 2
abbrev pteW : Nat := 4
abbrev pteX : Nat := 8
abbrev pteU : Nat := 16

/-- The addresses the linker chooses. Two ranges of static data never
overlap, all of it lies below `__free_ram_begin`, and the 64 MiB of free
memory behind that end below the addresses of user programs. -/
structure Layout where
  procArray : Nat
  osFiles : Nat
  filesystemFiles : Nat
  buffer : Nat
  freeRamBegin : Nat
  ktrapToUser : Nat
  ktrapFromUserHandler : Nat
  /-- The instruction behind the call of `swtch` in `kproc_yield`. -/
  yieldReturn : Nat
  begin_aligned : freeRamBegin % 4096 = 0
  kernelBase_le : 0x80000000 ≤ freeRamBegin
  end_le : freeRamBegin + 64 * 1024 * 1024 ≤ vaUserBase
  procArray_le : procArray + numProcesses * sizeofProcess ≤ freeRamBegin
  osFiles_le : osFiles + maxOsFiles * sizeofOsFile ≤ freeRamBegin
  filesystemFiles_le : filesystemFiles + maxFsFiles * sizeofFilesystemFile ≤ freeRamBegin
  buffer_le : buffer + 512 ≤ freeRamBegin
  proc_os : procArray + numProcesses * sizeofProcess ≤ osFiles ∨
    osFiles + maxOsFiles * sizeofOsFile ≤ procArray
  proc_fs : procArray + numProcesses * sizeofProcess ≤ filesystemFiles ∨
    filesystemFiles + maxFsFiles * sizeofFilesystemFile ≤ procArray
  os_fs : osFiles + maxOsFiles * sizeofOsFile ≤ filesystemFiles ∨
    filesystemFiles + maxFsFiles * sizeofFilesystemFile ≤ osFiles
  buffer_fs : buffer + 512 ≤ filesystemFiles ∨
    filesystemFiles + maxFsFiles * sizeofFilesystemFile ≤ buffer
  osFiles_pos : 0 < osFiles
  toUser_lt : ktrapToUser < 2 ^ 32
  handler_lt : ktrapFromUserHandler < 2 ^ 32
  yield_lt : yieldReturn < 2 ^ 32
  toUser_ne : ktrapToUser ≠ yieldReturn

/-- `__free_ram_end`: the linker script reserves 64 MiB. -/
def Layout.freeRamEnd (L : Layout) : Nat := L.freeRamBegin + 64 * 1024 * 1024

/-- A page of the free region. -/
def Layout.IsPage (L : Layout) (p : Nat) : Prop :=
  L.freeRamBegin ≤ p ∧ p < L.freeRamEnd ∧ p % 4096 = 0

instance (L : Layout) (p : Nat) : Decidable (L.IsPage p) :=
  inferInstanceAs (Decidable (_ ∧ _))

/-- A layout such as the linker may choose. -/
def exampleLayout : Layout where
  procArray := 0x83101010
  osFiles := 0x83030000
  filesystemFiles := 0x80010000
  buffer := 0x83020000
  freeRamBegin := 0x83200000
  ktrapToUser := 0x80000400
  ktrapFromUserHandler := 0x80000200
  yieldReturn := 0x80000600
  begin_aligned := by decide
  kernelBase_le := by decide
  end_le := by decide
  procArray_le := by decide
  osFiles_le := by decide
  filesystemFiles_le := by decide
  buffer_le := by decide
  proc_os := by decide
  proc_fs := by decide
  os_fs := by decide
  buffer_fs := by decide
  osFiles_pos := by decide
  toUser_lt := by decide
  handler_lt := by decide
  yield_lt := by decide
  toUser_ne := by decide

/-! ## §2 The kernel's state -/

/-- Physical memory and the file-scope pointers of `kmem.c`, `kvmem.c`,
`kproc.c` and `virtio.c`. `current` is `current_user_process` as an index
into `proc_array`; it is `NULL` until the scheduler first picks a process.
`handedOut` is a history variable that no code reads: the pages `kmem_alloc`
has returned so far, the latest first. -/
structure KState where
  mem : Mem
  head : Nat
  kernelPagetable : Nat
  current : Option Nat
  blkRequestVq : Nat
  blkReqPaddr : Nat
  handedOut : List Nat

/-- A word read and a word written through a kernel pointer. -/
def KState.load (k : KState) (a : Nat) : Nat := load32 k.mem a

def KState.store (k : KState) (a v : Nat) : KState := { k with mem := store32 k.mem a v }

@[simp] theorem KState.store_mem (k : KState) (a v : Nat) :
    (k.store a v).mem = store32 k.mem a v := rfl

@[simp] theorem KState.store_head (k : KState) (a v : Nat) : (k.store a v).head = k.head := rfl

@[simp] theorem KState.store_current (k : KState) (a v : Nat) :
    (k.store a v).current = k.current := rfl

@[simp] theorem KState.store_kernelPagetable (k : KState) (a v : Nat) :
    (k.store a v).kernelPagetable = k.kernelPagetable := rfl

@[simp] theorem KState.store_blkRequestVq (k : KState) (a v : Nat) :
    (k.store a v).blkRequestVq = k.blkRequestVq := rfl

@[simp] theorem KState.store_blkReqPaddr (k : KState) (a v : Nat) :
    (k.store a v).blkReqPaddr = k.blkReqPaddr := rfl

@[simp] theorem KState.store_handedOut (k : KState) (a v : Nat) :
    (k.store a v).handedOut = k.handedOut := rfl

/-! ## §3 Process control blocks -/

/-- `enum procstate` of `kproc.h`. -/
inductive ProcState
  | unused | used | sleeping | runnable | running
  deriving DecidableEq, Repr

/-- The value C gives the enumerator. -/
def ProcState.code : ProcState → Nat
  | .unused => 0
  | .used => 1
  | .sleeping => 2
  | .runnable => 3
  | .running => 4

/-- The fields of `struct process`. `context r` is the `r`-th of the 14 words
of `struct context` (`ra`, `sp`, `s0` to `s11`). -/
inductive PcbField
  | pid | state | parent
  | context (r : Nat)
  | trapframe | pagetable | userStack | freeHeapPage
  | openedFiles (fd : Nat)
  | kernelStackTop
  deriving DecidableEq, Repr

/-- `offsetof(struct process, field)`. -/
def PcbField.offset : PcbField → Nat
  | .pid => 0
  | .state => 4
  | .parent => 8
  | .context r => 12 + 4 * r
  | .trapframe => 68
  | .pagetable => 72
  | .userStack => 76
  | .freeHeapPage => 80
  | .openedFiles fd => 84 + 4 * fd
  | .kernelStackTop => 116

/-- The field is one of the struct: array indices are in range. -/
def PcbField.InStruct : PcbField → Prop
  | .context r => r < 14
  | .openedFiles fd => fd < maxOpenFiles
  | _ => True

instance : DecidablePred PcbField.InStruct
  | .context r => inferInstanceAs (Decidable (r < 14))
  | .openedFiles fd => inferInstanceAs (Decidable (fd < maxOpenFiles))
  | .pid | .state | .parent | .trapframe | .pagetable | .userStack | .freeHeapPage
  | .kernelStackTop => inferInstanceAs (Decidable True)

/-- `&proc_array[i]`. -/
def Layout.proc (L : Layout) (i : Nat) : Nat := L.procArray + i * sizeofProcess

/-- `proc_array[i].f`. -/
def pcb (L : Layout) (k : KState) (i : Nat) (f : PcbField) : Nat := k.load (L.proc i + f.offset)

/-- `proc_array[i].f = v`. -/
def setPcb (L : Layout) (k : KState) (i : Nat) (f : PcbField) (v : Nat) : KState :=
  k.store (L.proc i + f.offset) v

/-- Slot `i` holds a process: its state is not `UNUSED`. -/
def Live (L : Layout) (k : KState) (i : Nat) : Prop :=
  i < numProcesses ∧ pcb L k i .state ≠ ProcState.unused.code

instance (L : Layout) (k : KState) (i : Nat) : Decidable (Live L k i) :=
  inferInstanceAs (Decidable (_ ∧ _))

theorem PcbField.offset_lt {f : PcbField} (hf : f.InStruct) : f.offset + 4 ≤ 120 := by
  cases f <;> simp only [PcbField.offset, PcbField.InStruct, maxOpenFiles] at * <;> omega

/-- Two fields of the struct do not overlap. -/
theorem PcbField.offset_apart {f g : PcbField} (hf : f.InStruct) (hg : g.InStruct)
    (hne : f ≠ g) : f.offset + 4 ≤ g.offset ∨ g.offset + 4 ≤ f.offset := by
  cases f <;> cases g <;>
    simp only [PcbField.offset, PcbField.InStruct, maxOpenFiles, ne_eq, PcbField.context.injEq,
      PcbField.openedFiles.injEq, not_true_eq_false, reduceCtorEq, not_false_eq_true] at * <;>
    omega

theorem pcb_lt (L : Layout) (k : KState) (i : Nat) (f : PcbField) : pcb L k i f < 2 ^ 32 :=
  load32_lt _ _

theorem pcb_setPcb_same {L : Layout} {k : KState} {i : Nat} {f : PcbField} {v : Nat}
    (hv : v < 2 ^ 32) : pcb L (setPcb L k i f v) i f = v :=
  load32_store32_of_lt hv

theorem pcb_setPcb_of_ne_field {L : Layout} {k : KState} {i : Nat} {f g : PcbField} {v : Nat}
    (hf : f.InStruct) (hg : g.InStruct) (hne : f ≠ g) :
    pcb L (setPcb L k i g v) i f = pcb L k i f := by
  have hoff := PcbField.offset_apart hf hg hne
  exact load32_store32_disjoint _ _ (by omega)

theorem pcb_setPcb_of_ne_slot {L : Layout} {k : KState} {i j : Nat} {f g : PcbField} {v : Nat}
    (hf : f.InStruct) (hg : g.InStruct) (hij : i ≠ j) :
    pcb L (setPcb L k j g v) i f = pcb L k i f := by
  have h1 := PcbField.offset_lt hf
  have h2 := PcbField.offset_lt hg
  apply load32_store32_disjoint
  simp only [Layout.proc, sizeofProcess]
  omega

/-- A store to one field is not seen in any other field of any slot. -/
theorem pcb_setPcb_of_ne {L : Layout} {k : KState} {i j : Nat} {f g : PcbField} {v : Nat}
    (hf : f.InStruct) (hg : g.InStruct) (hne : f ≠ g) :
    pcb L (setPcb L k j g v) i f = pcb L k i f := by
  by_cases hij : i = j
  · rw [hij, pcb_setPcb_of_ne_field hf hg hne]
  · exact pcb_setPcb_of_ne_slot hf hg hij

end Risky321.Kernel
