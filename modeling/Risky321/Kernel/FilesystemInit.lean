/-
Risky321.Kernel.FilesystemInit — unpacking the disk image at boot, from
`filesystem_init` of `filesystem.c`.

The disk is a function from sector numbers to bytes. `virtio_rw` is taken
at its word here: for a sector inside the disk that the device can read it
puts the bytes of that sector at the given address, for any other sector it
returns without doing anything (`VirtioTheorems` has the protocol behind
it). `none` is a panic. What is printed is left out.
-/
import Risky321.Kernel.Filesystem

namespace Risky321.Kernel

open Risky321.Lib

/-- `SECTOR_SIZE` of `virtio.h`. -/
abbrev sectorSize : Nat := 512

/-- A disk of `sectors` sectors (`blk_capacity` is that times `SECTOR_SIZE`).
`failed s` when the device answers the request for sector `s` with a status
other than 0. `filesystem_init` makes its requests for the sectors 0, 1, 2
and so on, so this is any pattern of failing requests. -/
structure Disk where
  sectors : Nat
  byte : Nat → Nat → UInt8
  failed : Nat → Bool

/-- `virtio_rw(buf, sector, FALSE)`; the sector number is a 32-bit word. -/
def virtioRead (d : Disk) (m : Mem) (buf sector : Nat) : Mem :=
  let sector := sector % 2 ^ 32
  if d.sectors ≤ sector ∨ d.failed sector then
    m
  else
    fun x => if buf ≤ x ∧ x < buf + sectorSize then d.byte sector (x - buf) else m x

/-- `oct2int(oct, len)`: octal digits, most significant first. -/
def oct2int (m : Mem) (oct : Nat) : Nat → Nat
  | 0 => 0
  | len + 1 => (oct2int m oct len * 8 + ((m (oct + len)).toNat + 2 ^ 32 - 48)) % 2 ^ 32

/-- Offset of `size` in `struct tar_header`; `name` is at its start. -/
def tarSize : Nat := 124

/-- The inner `while`: the sectors of a file whose `data` and `size` members
are at these addresses, from `currentSector` on. Gives the sector behind
the last one. `fuel` bounds the turns. -/
def copyFileData (d : Disk) (data size : Nat) : Nat → Nat → Nat → Mem → Option (Nat × Mem)
  | 0, _, _, _ => none
  | fuel + 1, copiedSectors, currentSector, m =>
    if copiedSectors * sectorSize < load32 m size then
      let m := virtioRead d m (data + copiedSectors * sectorSize) currentSector
      -- "filesystem: File too big"
      if copiedSectors + 1 = maxFilesize / sectorSize ∧
          (copiedSectors + 1) * sectorSize < load32 m size then
        none
      else
        copyFileData d data size fuel (copiedSectors + 1) (currentSector + 1) m
    else
      some (currentSector, m)

/-- The header of file `i` is in `buffer`: take over its name and size. -/
def enterFile (L : Layout) (m : Mem) (i : Nat) : Mem :=
  let m := copy m (L.fsName i) L.buffer 100
  let dataSize := oct2int m (L.buffer + tarSize) 11
  let m := store32 m (L.fsSize i) dataSize
  store32 m (L.fsExists i) 1

/-- One turn of the outer `while`, for entry `i`: the memory, and the next
sector unless this was the last turn. -/
def filesystemInitTurn (L : Layout) (d : Disk) (i currentSector : Nat) (m : Mem) :
    Option (Mem × Option Nat) :=
  if currentSector < d.sectors then
    let m := virtioRead d m L.buffer currentSector
    if m L.buffer = 0 then
      some (m, none)
    else
      match copyFileData d (L.fsData i) (L.fsSize i) (maxFilesize / sectorSize + 1) 0
          (currentSector + 1) (enterFile L m i) with
      | none => none
      | some (currentSector, m) => some (m, some currentSector)
  else
    some (m, none)

/-- The outer `while`, with `left` entries of `filesystem_files` still free. -/
def filesystemInitLoop (L : Layout) (d : Disk) : Nat → Nat → Nat → Mem → Option Mem
  | 0, _, _, m => some m
  | left + 1, i, currentSector, m =>
    match filesystemInitTurn L d i currentSector m with
    | none => none
    | some (m, none) => some m
    | some (m, some currentSector) => filesystemInitLoop L d left (i + 1) currentSector m

/-- `filesystem_init`. -/
def filesystemInit (L : Layout) (d : Disk) (m : Mem) : Option Mem :=
  filesystemInitLoop L d maxFsFiles 0 0 m

end Risky321.Kernel
