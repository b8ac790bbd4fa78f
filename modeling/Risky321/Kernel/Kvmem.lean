/-
Risky321.Kernel.Kvmem — page allocation and page tables, from `kmem.c` and
`kvmem.c`.

`none` is a panic. Every step of the C code that stores a word is a store
here, in the same order: `kvmem_map_page` writes an entry two or three
times before it has its final value, and `kvmem_copy_pagetable` reads the
source tables and writes the new ones in turn.
-/
import Risky321.Kernel.Layout
import Risky321.Lib.Loop

namespace Risky321.Kernel

open Risky321.Lib

/-! ## `kmem.c` -/

/-- `kmem_free`: push the page on the free list. -/
def kmemFree (k : KState) (page : Nat) : KState :=
  { k.store page k.head with head := page }

/-- `kmem_alloc`: pop a page and clear it; panic when the list is empty. -/
def kmemAlloc (k : KState) : Option (Nat × KState) :=
  if k.head = 0 then
    none
  else
    let page := k.head
    some (page, { k with
      head := k.load page
      mem := fill k.mem page pageSize 0
      handedOut := page :: k.handedOut })

/-- `kmem_init`: free every page from `__free_ram_begin` to `__free_ram_end`. -/
def kmemInit (L : Layout) (k : KState) : KState :=
  (List.range ((L.freeRamEnd - L.freeRamBegin) / pageSize)).foldl
    (fun k i => kmemFree k (L.freeRamBegin + i * pageSize)) k

/-! ## `kvmem.c` -/

/-- The address an entry holds, as the code takes it out:
`(pte & 0xFFFFFC00) << 2`. -/
def pteAddr (e : Nat) : Nat := ((e &&& 0xFFFFFC00) <<< 2) % 2 ^ 32

/-- `(va >> 22) & 0x3FF` and `(va >> 12) & 0x3FF`. -/
def vpn1 (va : Nat) : Nat := (va >>> 22) &&& 0x3FF
def vpn0 (va : Nat) : Nat := (va >>> 12) &&& 0x3FF

/-- The first half of `kvmem_map_page`: when the entry for `va` in the root
is not valid, allocate a second-level table and enter it. -/
def kvmemNeedTable (k : KState) (table va : Nat) : Option KState :=
  let slot := table + 4 * vpn1 va
  if k.load slot &&& pteV = 0 then
    match kmemAlloc k with
    | none => none
    | some (page, k) =>
      let k := k.store slot page
      let k := k.store slot (k.load slot &&& 0xFFFFF000)
      some (k.store slot ((k.load slot >>> 2) ||| pteV))
  else
    some k

/-- `kvmem_map_page`. -/
def kvmemMapPage (k : KState) (table va pa flags : Nat) : Option KState :=
  match kvmemNeedTable k table va with
  | none => none
  | some k =>
    let table0 := pteAddr (k.load (table + 4 * vpn1 va))
    let slot := table0 + 4 * vpn0 va
    let k := k.store slot (pa &&& 0xFFFFF000)
    some (k.store slot ((k.load slot >>> 2) ||| flags ||| pteV))

/-- The loop over `pa` from 0 to `__free_ram_end` that `kvmem_init_kernel`,
`kproc_create` and `kproc_exec` each have: map the kernel 1:1. -/
def mapKernel (L : Layout) (k : KState) (table : Nat) : Option KState :=
  forLoop (L.freeRamEnd / pageSize)
    (fun i k => kvmemMapPage k table (i * pageSize) (i * pageSize) (pteR ||| pteW ||| pteX)) k

/-- `kvmem_init_kernel`. -/
def kvmemInitKernel (L : Layout) (k : KState) : Option KState :=
  match kmemAlloc k with
  | none => none
  | some (table, k) => mapKernel L { k with kernelPagetable := table } table

/-- The inner loop body of `kvmem_copy_pagetable`: entry `j` of the
second-level table `src`, copied to `dst`. A user page is duplicated. -/
def kvmemCopyEntry (src dst j : Nat) (k : KState) : Option KState :=
  if k.load (src + 4 * j) &&& pteV ≠ 0 then
    let k := k.store (dst + 4 * j) (k.load (src + 4 * j))
    if k.load (src + 4 * j) &&& pteU ≠ 0 then
      match kmemAlloc k with
      | none => none
      | some (newPp, k) =>
        let k := k.store (dst + 4 * j) (k.load (dst + 4 * j) &&& 0x000003FF)
        let k := k.store (dst + 4 * j)
          (k.load (dst + 4 * j) ||| ((newPp &&& 0xFFFFF000) >>> 2))
        some { k with mem := copy k.mem newPp (pteAddr (k.load (src + 4 * j))) pageSize }
    else
      some k
  else
    some k

/-- The outer loop body: entry `i` of the root `srcPage`, copied to `destPage`. -/
def kvmemCopyTable (srcPage destPage i : Nat) (k : KState) : Option KState :=
  let pte := k.load (srcPage + 4 * i)
  if pte &&& pteV ≠ 0 then
    let pteBase := pteAddr pte
    match kmemAlloc k with
    | none => none
    | some (destBase, k) =>
      let slot := destPage + 4 * i
      let k := k.store slot destBase
      let k := k.store slot (k.load slot &&& 0xFFFFF000)
      let k := k.store slot ((k.load slot >>> 2) ||| pteV)
      forLoop 1024 (kvmemCopyEntry pteBase destBase) k
  else
    some k

/-- `kvmem_copy_pagetable`. -/
def kvmemCopyPagetable (k : KState) (srcPage : Nat) : Option (Nat × KState) :=
  match kmemAlloc k with
  | none => none
  | some (destPage, k) =>
    match forLoop 1024 (kvmemCopyTable srcPage destPage) k with
    | none => none
    | some k => some (destPage, k)

/-- `kvmem_get_pa`; `(void *)-1` when `va` is not mapped. -/
def kvmemGetPa (k : KState) (pagetable va : Nat) : Nat :=
  let e := k.load (pagetable + 4 * vpn1 va)
  if e &&& pteV ≠ 0 then
    let f := k.load (pteAddr e + 4 * vpn0 va)
    if f &&& pteV ≠ 0 then pteAddr f else 0xFFFFFFFF
  else
    0xFFFFFFFF

/-! ## Translation -/

/-- The leaf entry for virtual page `v` that the hardware finds from the
root `table`, if the entries on the way are valid. -/
def walk (m : Mem) (table v : Nat) : Option Nat :=
  let e := load32 m (table + 4 * (v / 1024))
  if e &&& pteV ≠ 0 then
    let f := load32 m (pteAddr e + 4 * (v % 1024))
    if f &&& pteV ≠ 0 then some f else none
  else
    none

end Risky321.Kernel
