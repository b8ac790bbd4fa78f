/-
Risky321.Kernel.Filesystem — the file tables, from `filesystem.c`, with the
descriptor functions of `kproc.c` that it calls.

`filesystem_files` and `os_files` are words and bytes of the kernel's
memory. A path is the list of the bytes before its terminating NUL. What is
reached through a pointer or an index that nobody checks (the caller's
buffer, an index into `opened_files`, a file handle) is translated by the
page table of the current process, which also maps the kernel.
-/
import Risky321.Kernel.Kvmem

namespace Risky321.Kernel

open Risky321.Lib

/-! ## §1 The tables -/

/-- `&filesystem_files[idx]` and its members. -/
def Layout.fsFile (L : Layout) (idx : Nat) : Nat := L.filesystemFiles + idx * sizeofFilesystemFile
def Layout.fsExists (L : Layout) (idx : Nat) : Nat := L.fsFile idx
def Layout.fsName (L : Layout) (idx : Nat) : Nat := L.fsFile idx + 4
def Layout.fsData (L : Layout) (idx : Nat) : Nat := L.fsFile idx + 104
def Layout.fsSize (L : Layout) (idx : Nat) : Nat := L.fsFile idx + 4194408

/-- `&os_files[n]`, and the members of a `struct os_file` at `h`. -/
def Layout.osFile (L : Layout) (n : Nat) : Nat := L.osFiles + n * sizeofOsFile
def osInUse (h : Nat) : Nat := h
def osRwpos (h : Nat) : Nat := h + 4
def osFsIdx (h : Nat) : Nat := h + 8

/-! ## §2 Finding a file -/

/-- `strcmp(path, name)`, for the bytes of `path` and the NUL behind them. -/
def strcmp (m : Mem) : List UInt8 → Nat → Int
  | [], a => 0 - (m a).toNat
  | c :: cs, a =>
    if c ≠ 0 ∧ c = m a then strcmp m cs (a + 1) else (c.toNat : Int) - (m a).toNat

/-- `filesystem_locate_file`: the first entry whose name equals the path, else -1. -/
def filesystemLocateFile (L : Layout) (k : KState) (filepath : List UInt8) : Nat :=
  ((List.range maxFsFiles).find? (fun idx => strcmp k.mem filepath (L.fsName idx) == 0)).getD
    0xFFFFFFFF

/-- `filesystem_get_filedata`; `NULL` is 0. -/
def filesystemGetFiledata (L : Layout) (k : KState) (filepath : List UInt8) : Nat :=
  let idx := filesystemLocateFile L k filepath
  if idx = 0xFFFFFFFF then 0 else L.fsData idx

/-! ## §3 Memory through the current page table -/

/-- The physical address behind `va` while slot `cur` runs, for an access that
needs `flag`. Supervisor mode may use user pages (`SSTATUS_SUM` is set), and
the kernel's own pages are mapped too; anything else is a fault. -/
def translate (L : Layout) (k : KState) (cur flag va : Nat) : Option Nat :=
  match walk k.mem (pcb L k cur .pagetable) (va / pageSize) with
  | some e => if e &&& flag ≠ 0 then some (pteAddr e + va % pageSize) else none
  | none => none

/-- `*p` and `*p = c` for a byte; a fault in supervisor mode is a panic. -/
def loadByte (L : Layout) (k : KState) (cur va : Nat) : Option UInt8 :=
  (translate L k cur pteR va).map k.mem

def storeByte (L : Layout) (k : KState) (cur va : Nat) (c : UInt8) : Option KState :=
  (translate L k cur pteW va).map (fun pa => { k with mem := Function.update k.mem pa c })

/-- The same for a word, whose bytes may lie on two pages. -/
def loadWord (L : Layout) (k : KState) (cur va : Nat) : Option Nat :=
  (loadByte L k cur va).bind fun b0 =>
  (loadByte L k cur ((va + 1) % 2 ^ 32)).bind fun b1 =>
  (loadByte L k cur ((va + 2) % 2 ^ 32)).bind fun b2 =>
  (loadByte L k cur ((va + 3) % 2 ^ 32)).map fun b3 =>
    b0.toNat + 256 * b1.toNat + 65536 * b2.toNat + 16777216 * b3.toNat

def storeWord (L : Layout) (k : KState) (cur va v : Nat) : Option KState :=
  (storeByte L k cur va (wordByte v 0)).bind fun k =>
  (storeByte L k cur ((va + 1) % 2 ^ 32) (wordByte v 1)).bind fun k =>
  (storeByte L k cur ((va + 2) % 2 ^ 32) (wordByte v 2)).bind fun k =>
  storeByte L k cur ((va + 3) % 2 ^ 32) (wordByte v 3)

/-! ## §4 Descriptors -/

/-- `kproc_file_add`: the first free descriptor from 3 on, else -1. -/
def kprocFileAdd (L : Layout) (k : KState) (cur openedFile : Nat) : Nat × KState :=
  match (List.range' 3 (maxOpenFiles - 3)).find? (fun fd => pcb L k cur (.openedFiles fd) == 0) with
  | some fd => (fd, setPcb L k cur (.openedFiles fd) openedFile)
  | none => (0xFFFFFFFF, k)

/-- `&current_user_process->opened_files[fd]`. The index is not checked, so
this is an address like any other. -/
def Layout.openedFile (L : Layout) (cur fd : Nat) : Nat :=
  (L.proc cur + (PcbField.openedFiles fd).offset) % 2 ^ 32

/-- `kproc_file_get`. -/
def kprocFileGet (L : Layout) (k : KState) (cur fd : Nat) : Option Nat :=
  loadWord L k cur (L.openedFile cur fd)

/-- `kproc_file_remove`. -/
def kprocFileRemove (L : Layout) (k : KState) (cur fd : Nat) : Option (Nat × KState) :=
  (loadWord L k cur (L.openedFile cur fd)).bind fun h =>
    if h = 0 then
      some (0xFFFFFFFF, k)
    else
      (storeWord L k cur (L.openedFile cur fd) 0).map fun k => (0, k)

/-- `filesystem_file_open`: take a free `os_file` for the file and a descriptor for that. -/
def filesystemFileOpen (L : Layout) (k : KState) (cur : Nat) (filepath : List UInt8) :
    Nat × KState :=
  let fsFileIdx := filesystemLocateFile L k filepath
  if fsFileIdx = 0xFFFFFFFF then
    (0xFFFFFFFF, k)
  else
    match (List.range maxOsFiles).find? (fun n => k.load (osInUse (L.osFile n)) == 0) with
    | none => (0xFFFFFFFF, k)
    | some n =>
      let h := L.osFile n
      let k := k.store (osInUse h) 1
      let k := k.store (osFsIdx h) fsFileIdx
      let k := k.store (osRwpos h) 0
      kprocFileAdd L k cur h

/-- The loop of `filesystem_file_read`: at most `n` more bytes from `cursor`
on. Gives the cursor behind the last byte, the bytes stored, and the state. -/
def fileReadLoop (L : Layout) (cur fsFileIdx fileSize : Nat) :
    Nat → Nat → Nat → KState → Option (Nat × List UInt8 × KState)
  | 0, _, cursor, k => some (cursor, [], k)
  | n + 1, buf, cursor, k =>
    if cursor < fileSize then
      (loadByte L k cur ((L.fsData fsFileIdx + cursor) % 2 ^ 32)).bind fun c =>
      (storeByte L k cur buf c).bind fun k =>
      (fileReadLoop L cur fsFileIdx fileSize n ((buf + 1) % 2 ^ 32) (cursor + 1) k).map
        fun (cursor, cs, k) => (cursor, c :: cs, k)
    else
      some (cursor, [], k)

/-- `filesystem_file_read`, with the bytes stored; the value returned is their
number. Neither the handle nor the buffer is checked. -/
def filesystemFileRead (L : Layout) (k : KState) (cur fileHandle buf size : Nat) :
    Option (List UInt8 × KState) :=
  (loadWord L k cur (osFsIdx fileHandle % 2 ^ 32)).bind fun fsFileIdx =>
  (loadWord L k cur (osRwpos fileHandle % 2 ^ 32)).bind fun cursor =>
  (loadWord L k cur (L.fsSize fsFileIdx % 2 ^ 32)).bind fun fileSize =>
  (fileReadLoop L cur fsFileIdx fileSize size buf cursor k).bind fun (cursor, cs, k) =>
  (storeWord L k cur (osRwpos fileHandle % 2 ^ 32) cursor).map fun k => (cs, k)

/-- `filesystem_file_close`. -/
def filesystemFileClose (L : Layout) (k : KState) (cur fd : Nat) : Option (Nat × KState) :=
  if fd < 3 then
    some (0, k)
  else
    (kprocFileGet L k cur fd).bind fun h =>
    (kprocFileRemove L k cur fd).bind fun (ret, k) =>
      if ret = 0 then
        (storeWord L k cur (osFsIdx h % 2 ^ 32) 0xFFFFFFFF).bind fun k =>
        (storeWord L k cur (osRwpos h % 2 ^ 32) 0).bind fun k =>
        (storeWord L k cur (osInUse h % 2 ^ 32) 0).map fun k => (0, k)
      else
        some (0xFFFFFFFF, k)

end Risky321.Kernel
