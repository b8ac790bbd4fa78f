/-
Risky321.User.Umalloc — the user heap, from `user/umalloc.c`.

Every block starts with a `struct malloc_header` of four words, `prev`,
`next`, `size` and `free`; the block's data follows it. The global `head`
is a header too, of which only the links are used: `head.next` is the
first block and `head.prev` the last.

`usys_sbrk` hands out the next page of the heap, which the kernel has
zero-filled, and never comes back when there is none (the kernel panics).
`none` stands for a call that does not return: no page left, or fewer
turns allowed (`fuel`) than a loop takes. `dump_malloc_list` and the
`uprintf` calls only print and are left out.
-/
import Risky321.Lib.ByteMem

namespace Risky321.User

open Risky321.Lib

/-- `sizeof(struct malloc_header)`. -/
def headerSize : Nat := 16

/-- The page size `usys_sbrk` and `umorecore` work in. -/
def pageSize : Nat := 4096

/-- The end of the addresses the heap can grow into: the user stack page. -/
def heapLimit : Nat := 0xFFFFE000

/-- The user program's memory, the links of `head`, and the next address
that `usys_sbrk` returns. -/
structure Heap where
  mem : Mem
  headNext : Nat
  headPrev : Nat
  brk : Nat

/-- The heap before the first call; `brk` is where the first page will be. -/
def Heap.empty (mem : Mem) (brk : Nat) : Heap :=
  { mem := mem, headNext := 0, headPrev := 0, brk := brk }

/-! ## The fields of a header -/

def prevOf (m : Mem) (h : Nat) : Nat := load32 m h
def nextOf (m : Mem) (h : Nat) : Nat := load32 m (h + 4)
def sizeOf (m : Mem) (h : Nat) : Nat := load32 m (h + 8)
def freeOf (m : Mem) (h : Nat) : Nat := load32 m (h + 12)

def setPrev (m : Mem) (h v : Nat) : Mem := store32 m h v
def setNext (m : Mem) (h v : Nat) : Mem := store32 m (h + 4) v
def setSize (m : Mem) (h v : Nat) : Mem := store32 m (h + 8) v
def setFree (m : Mem) (h v : Nat) : Mem := store32 m (h + 12) v

/-! ## The operations -/

/-- `usys_sbrk`: the next contiguous page, zero-filled. -/
def usysSbrk (h : Heap) : Option (Nat × Heap) :=
  if h.brk + pageSize ≤ heapLimit then
    some (h.brk, { h with mem := fill h.mem h.brk pageSize 0, brk := h.brk + pageSize })
  else none

/-- The first `if` of `ufree`: absorb the following block when it is free. -/
def ufreeMergeNext (h : Heap) (hdr : Nat) : Heap :=
  let next := nextOf h.mem hdr
  if next ≠ 0 ∧ freeOf h.mem next ≠ 0 then
    let m := setSize h.mem hdr ((sizeOf h.mem hdr + (headerSize + sizeOf h.mem next)) % 2 ^ 32)
    let m := setNext m hdr (nextOf m next)
    let next := nextOf m hdr
    let m := if next ≠ 0 then setPrev m next hdr else m
    { h with mem := m, headPrev := if next = 0 then hdr else h.headPrev }
  else h

/-- The second `if` of `ufree`: hand the block over to `prev` when that is free. -/
def ufreeMergePrev (h : Heap) (hdr : Nat) : Heap :=
  let prev := prevOf h.mem hdr
  if prev ≠ 0 ∧ freeOf h.mem prev ≠ 0 then
    let m := setSize h.mem prev ((sizeOf h.mem prev + (headerSize + sizeOf h.mem hdr)) % 2 ^ 32)
    let m := setNext m prev (nextOf m hdr)
    let next := nextOf m hdr
    let m := if next ≠ 0 then setPrev m next prev else m
    { h with mem := m, headPrev := if nextOf m prev = 0 then prev else h.headPrev }
  else h

/-- `ufree`. -/
def ufree (h : Heap) (chunk : Nat) : Heap :=
  let hdr := sub32 chunk headerSize
  let h := { h with mem := setFree h.mem hdr 1 }
  let h := ufreeMergeNext h hdr
  ufreeMergePrev h hdr

/-- `umorecore`: link a new page in behind `head.prev` and free it. -/
def umorecore (h : Heap) : Option (Nat × Heap) := do
  let (page, h) ← usysSbrk h
  let m := setFree h.mem page 1
  let m := setSize m page (pageSize - headerSize)
  let m := setNext m page 0
  let h :=
    if h.headNext ≠ 0 then
      let m := setNext m h.headPrev page
      let m := setPrev m page h.headPrev
      { h with mem := m, headPrev := page }
    else
      { h with mem := setPrev m page 0, headNext := page, headPrev := page }
  some (page, ufree h (page + headerSize))

/-- The inner `while` of `umalloc`: the first block on the list from `curr`
that is free and either fits exactly or can be split. -/
def umallocSearch (m : Mem) (alignedBytes requiredBytes : Nat) : Nat → Nat → Option (Option Nat)
  | 0, _ => none
  | fuel + 1, curr =>
      if curr = 0 then some none
      else if freeOf m curr ≠ 0 ∧ (sizeOf m curr = alignedBytes ∨ requiredBytes ≤ sizeOf m curr) then
        some (some curr)
      else umallocSearch m alignedBytes requiredBytes fuel (nextOf m curr)

/-- The two branches of `umalloc` that hand out a block: an exact fit, or
the front part of a larger block with a new header behind it. -/
def umallocTake (h : Heap) (curr alignedBytes : Nat) : Nat × Heap :=
  if sizeOf h.mem curr = alignedBytes then
    (curr + headerSize, { h with mem := setFree h.mem curr 0 })
  else
    let m := setFree h.mem curr 0
    let newHdr := (curr + headerSize + alignedBytes) % 2 ^ 32
    let m := setFree m newHdr 1
    let m := setSize m newHdr (sub32 (sub32 (sizeOf m curr) alignedBytes) headerSize)
    let m := setPrev m newHdr curr
    let m := setNext m newHdr (nextOf m curr)
    let m := setSize m curr alignedBytes
    let m := setNext m curr newHdr
    (curr + headerSize, { h with mem := m })

/-- `aligned_bytes` and `required_bytes` of `umalloc`, in 32-bit arithmetic. -/
def alignedBytes (bytes : Nat) : Nat := ((bytes - 1) / 4 + 1) * 4 % 2 ^ 32
def requiredBytes (bytes : Nat) : Nat := (alignedBytes bytes + headerSize + 4) % 2 ^ 32

/-- The list search of `umalloc`, skipped while there is no list. -/
def umallocFind (fuel : Nat) (h : Heap) (bytes : Nat) : Option (Option Nat) :=
  if h.headNext ≠ 0 then
    umallocSearch h.mem (alignedBytes bytes) (requiredBytes bytes) fuel h.headNext
  else some none

/-- The outer `while(TRUE)` of `umalloc`. -/
def umallocLoop (bytes : Nat) : Nat → Heap → Option (Nat × Heap)
  | 0, _ => none
  | fuel + 1, h => do
      match ← umallocFind (fuel + 1) h bytes with
      | some curr => some (umallocTake h curr (alignedBytes bytes))
      | none =>
          let (newChunk, h) ← umorecore h
          if newChunk = 0 then some (0, h) else umallocLoop bytes fuel h

/-- `umalloc`. -/
def umalloc (fuel : Nat) (h : Heap) (bytes : Nat) : Option (Nat × Heap) :=
  if bytes = 0 then some (0, h) else umallocLoop bytes fuel h

end Risky321.User
