/-
Risky321.Kernel.Sv32Theorems — `kvmem_map_page` is an update of an Sv32 table.

The table may lie anywhere in memory, as long as its pages are not on the
free list. `kvmem_map_page` is then one or two of the changes of `Lib.Sv32`:
a page from `kmem_alloc`, which has just been cleared, is entered into the
root if the root has no table there, and a leaf is set. `kvmem_get_pa` reads
the same `lookup` that the hardware walk reads.
-/
import Risky321.Lib.Sv32
import Risky321.Kernel.KmemTheorems

namespace Risky321.Kernel

open Risky321.Lib

variable {L : Layout} {k k' : KState} {free : List Nat} {r va pa flags e i : Nat}

/-- A table that is in use: none of its pages is on the free list. -/
abbrev TableOk (k : KState) (free : List Nat) (r : Nat) : Prop :=
  WellFormed k.mem (fun p => p ∈ free) r

theorem valid_iff (e : Nat) : e &&& pteV ≠ 0 ↔ Valid e := and_one_ne_zero e

/-- The code's address of an entry is the hardware's when it fits 32 bits. -/
theorem pteAddr_eq_ppn (he : e < 2 ^ 32) (hs : ppn e < 2 ^ 20) : pteAddr e = ppn e * 4096 := by
  rw [pteAddr_eq he, ppn]
  simp only [ppn] at hs
  omega

/-- The code's address of a second-level table. -/
theorem TableOk.pteAddr (h : TableOk k free r) (hi : i < 1024)
    (hroot : Valid (rootEntry k.mem r i)) : pteAddr (rootEntry k.mem r i) = tableAt k.mem r i :=
  pteAddr_eq_ppn (load32_lt _ _) (h.small i hi hroot)

/-- `kvmem_get_pa` reads the table as the hardware does. -/
theorem kvmemGetPa_lookup (h : TableOk k free r) (hva : va < 2 ^ 32) :
    kvmemGetPa k r va = ((lookup k.mem r (va / 4096)).map fun e => ppn e * 4096).getD 0xFFFFFFFF := by
  have hi : va / 4096 / 1024 < 1024 := by omega
  have hj : va / 4096 % 1024 < 1024 := by omega
  rw [kvmemGetPa, vpn1_eq hva, vpn0_eq]
  change (if rootEntry k.mem r (va / 4096 / 1024) &&& pteV ≠ 0 then
    if load32 k.mem (pteAddr (rootEntry k.mem r (va / 4096 / 1024)) + 4 * (va / 4096 % 1024))
      &&& pteV ≠ 0 then
      pteAddr (load32 k.mem (pteAddr (rootEntry k.mem r (va / 4096 / 1024)) + 4 * (va / 4096 % 1024)))
    else 0xFFFFFFFF else 0xFFFFFFFF) = _
  rw [lookup]
  by_cases hroot : Valid (rootEntry k.mem r (va / 4096 / 1024))
  · rw [if_pos ((valid_iff _).mpr hroot), h.pteAddr hi hroot]
    change (if leafEntry k.mem r (va / 4096 / 1024) (va / 4096 % 1024) &&& pteV ≠ 0 then
      pteAddr (leafEntry k.mem r (va / 4096 / 1024) (va / 4096 % 1024)) else 0xFFFFFFFF) = _
    by_cases hleaf : Valid (leafEntry k.mem r (va / 4096 / 1024) (va / 4096 % 1024))
    · rw [if_pos ((valid_iff _).mpr hleaf), if_pos ⟨hroot, hleaf⟩,
        pteAddr_eq_ppn (e := leafEntry _ _ _ _) (load32_lt _ _) (h.leaf _ hi hroot _ hj hleaf).small]
      rfl
    · rw [if_neg (fun hv => hleaf ((valid_iff _).mp hv)), if_neg (fun hv => hleaf hv.2)]
      rfl
  · rw [if_neg (fun hv => hroot ((valid_iff _).mp hv)), if_neg (fun hv => hroot hv.1)]
    rfl

/-- The free list after a store to a page that is not on it. -/
theorem FreeList.store {q v : Nat} (h : FreeList L k free) (hq : q % 4096 = 0) (hnot : q ∉ free)
    {x : Nat} (hx : x + 4 ≤ 4096) : FreeList L (k.store (q + x) v) free := by
  have hk := h.kmemInv
  have hk' : KmemInv L (k.store (q + x) v) (freeGhost free) := by
    refine hk.congr rfl fun p hp y hy => ?_
    have hmem : p ∈ free := (hk.free_iff p).mpr hp
    have hap := page_apart (h.page p hmem).2.2 hq (fun heq => hnot (heq ▸ hmem))
    exact store32_outside _ _ _ (by omega)
  exact hk'.freeList

/-- What `kmem_alloc` leaves to a table that does not use the page. -/
theorem TableOk.alloc {p : Nat} (h : TableOk k free r) (hfree : FreeList L k free)
    (hal : kmemAlloc k = some (p, k')) :
    ∃ rest, free = p :: rest ∧ FreeList L k' rest ∧ L.IsPage p ∧ TableOk k' free r ∧
      (∀ v < 2 ^ 20, lookup k'.mem r v = lookup k.mem r v) ∧
      (∀ x, x + 4 ≤ 4096 → load32 k'.mem (r + x) = load32 k.mem (r + x)) ∧
      ∀ x, x + 4 ≤ 4096 → load32 k'.mem (p + x) = 0 := by
  have hk := hfree.kmemInv
  obtain ⟨hl, hp, -, hk', hinv⟩ := kmemAlloc_spec hk hal
  have hcons : free = p :: free.tail := hl
  have hrest : FreeList L k' free.tail := by
    have hlist := (hinv .lost nofun).freeList
    rwa [Ghost.pop_free] at hlist
  have hmem : p ∈ free := by
    rw [hcons]
    exact List.mem_cons_self
  have helse : ∀ q, q % 4096 = 0 → q ∉ free → ∀ x, x + 4 ≤ 4096 →
      load32 k'.mem (q + x) = load32 k.mem (q + x) := by
    intro q hq hno x hx
    have hap := page_apart hp.2.2 hq (fun heq => hno (heq ▸ hmem))
    rw [hk']
    exact load32_fill_disjoint _ _ (by omega)
  obtain ⟨hok, hsame⟩ := h.congr helse
  exact ⟨free.tail, hcons, hrest, hp, hok, hsame, helse r h.aligned h.used,
    fun x hx => kmemAlloc_load_new hk hal hx⟩

/-- The three stores that enter a second-level table come down to one. -/
theorem kvmemNeedTable_stores {k1 : KState} {p : Nat} (hva : va < 2 ^ 32) (hp : L.IsPage p)
    (hno : ¬ Valid (rootEntry k.mem r (va / 4096 / 1024))) (hal : kmemAlloc k = some (p, k1))
    (h : kvmemNeedTable k r va = some k') :
    k' = k1.store (r + 4 * (va / 4096 / 1024)) (p / 4 + 1) := by
  have hb := hp.bounds
  have hz : k.load (r + 4 * (va / 4096 / 1024)) &&& pteV = 0 :=
    not_not.mp fun hv => hno ((valid_iff _).mp hv)
  have hmask : p &&& 0xFFFFF000 < 2 ^ 32 := by
    rw [and_0xFFFFF000 (by omega)]
    omega
  rw [kvmemNeedTable, vpn1_eq hva] at h
  simp only at h
  rw [if_pos hz] at h
  simp only [hal, KState.load, KState.store, Option.some.injEq] at h
  rw [load32_store32_of_lt (v := p) (by omega),
    load32_store32_of_lt hmask, tableEntry_eq hp.2.2 (by omega), store32_store32,
    store32_store32] at h
  exact h.symm

/-- After the first half the root has a table for `va`, and nothing else has changed. -/
theorem TableOk.needTable (h : TableOk k free r) (hfree : FreeList L k free) (hva : va < 2 ^ 32)
    (hneed : kvmemNeedTable k r va = some k') :
    ∃ free', FreeList L k' free' ∧ TableOk k' free' r ∧
      Valid (rootEntry k'.mem r (va / 4096 / 1024)) ∧
      ∀ v < 2 ^ 20, lookup k'.mem r v = lookup k.mem r v := by
  have hi : va / 4096 / 1024 < 1024 := by omega
  by_cases hroot : Valid (rootEntry k.mem r (va / 4096 / 1024))
  · have hk' : k' = k := by
      rw [kvmemNeedTable, vpn1_eq hva] at hneed
      simp only at hneed
      rw [if_neg (show ¬ k.load _ &&& pteV = 0 from (valid_iff _).mpr hroot),
        Option.some.injEq] at hneed
      exact hneed.symm
    rw [hk']
    exact ⟨free, hfree, h, hroot, fun _ _ => rfl⟩
  · cases hal : kmemAlloc k with
    | none =>
      have hz : k.load (r + 4 * (va / 4096 / 1024)) &&& pteV = 0 :=
        not_not.mp fun hv => hroot ((valid_iff _).mp hv)
      rw [kvmemNeedTable, vpn1_eq hva] at hneed
      simp [hz, hal] at hneed
    | some pk =>
      obtain ⟨p, k1⟩ := pk
      obtain ⟨rest, rfl, hrest, hp, hok, hsame, hroots, hzero⟩ := h.alloc hfree hal
      have hb := hp.bounds
      have hnodup := List.nodup_cons.mp hfree.nodup
      have hno : ¬ Valid (rootEntry k1.mem r (va / 4096 / 1024)) := by
        rw [rootEntry, hroots _ (by omega)]
        exact hroot
      obtain ⟨hok', hvalid, hlook⟩ := hok.enter hi hno hp.2.2 (by omega) List.mem_cons_self hzero
        (fun q hq => List.mem_cons_of_mem p hq) hnodup.1
      rw [kvmemNeedTable_stores hva hp hroot hal hneed]
      refine ⟨rest, hrest.store h.aligned (fun hr => h.used (List.mem_cons_of_mem p hr)) (by omega),
        hok', hvalid, fun v hv => ?_⟩
      rw [← hsame v hv]
      exact hlook v hv

/-- `flags | PTE_V`, with the page number in front, is a proper leaf. -/
theorem leafOk_entry (hpa : pa < 2 ^ 32) (hf : flags < 1024) (hleaf : Readable flags ∨ Executable flags)
    (hwrite : Writable flags → Readable flags) :
    Valid (pa / 4096 * 1024 + (flags ||| 1)) ∧ LeafOk (pa / 4096 * 1024 + (flags ||| 1)) ∧
      ppn (pa / 4096 * 1024 + (flags ||| 1)) = pa / 4096 ∧
      (pa / 4096 * 1024 + (flags ||| 1)) % 1024 = flags ||| pteV ∧
      pa / 4096 * 1024 + (flags ||| 1) < 2 ^ 32 := by
  have hor : flags ||| 1 = flags / 2 * 2 + 1 := or_one_eq flags
  simp only [Readable, Writable, Executable] at hleaf hwrite
  refine ⟨?_, ⟨?_, ?_, ?_⟩, ?_, ?_, ?_⟩ <;>
    simp only [Valid, Readable, Writable, Executable, ppn, hor] <;> omega

/-- The second half of `kvmem_map_page`, once the root has a table for `va`. -/
theorem kvmemMapPage_store {k1 : KState} (h1 : TableOk k1 free r)
    (hneed : kvmemNeedTable k r va = some k1) (hroot : Valid (rootEntry k1.mem r (va / 4096 / 1024)))
    (hva : va < 2 ^ 32) (hpa : pa < 2 ^ 32) (hf : flags < 1024)
    (h : kvmemMapPage k r va pa flags = some k') :
    k' = k1.store (tableAt k1.mem r (va / 4096 / 1024) + 4 * (va / 4096 % 1024))
      (pa / 4096 * 1024 + (flags ||| 1)) := by
  have hmask : pa &&& 0xFFFFF000 < 2 ^ 32 := by
    rw [and_0xFFFFF000 hpa]
    omega
  have htable : pteAddr (load32 k1.mem (r + 4 * (va / 4096 / 1024)))
      = tableAt k1.mem r (va / 4096 / 1024) := h1.pteAddr (by omega) hroot
  rw [kvmemMapPage, hneed] at h
  simp only [KState.load, KState.store, Option.some.injEq, vpn1_eq hva, vpn0_eq] at h
  rw [htable, load32_store32_of_lt hmask, leafEntry_eq hpa hf, store32_store32] at h
  exact h.symm

/-! ## §2 The update -/

/-- What `kvmem_map_page` does, seen through `kvmem_get_pa` and by the hardware. -/
structure MapsPage (L : Layout) (k k' : KState) (r va pa flags : Nat) : Prop where
  mapped : kvmemGetPa k' r va = pa / 4096 * 4096
  others : ∀ v < 2 ^ 32, v / 4096 ≠ va / 4096 → kvmemGetPa k' r v = kvmemGetPa k r v
  wellFormed : ∃ free', FreeList L k' free' ∧ TableOk k' free' r
  hardware : ∀ v < 2 ^ 32, kvmemGetPa k' r v =
    match sv32Translate k'.mem r v with
    | some a => a / 4096 * 4096
    | none => 0xFFFFFFFF
  leaf : ∃ e, sv32Walk k'.mem va 1 r = some (0, e) ∧ e % 1024 = flags ||| pteV

/-- `kvmem_get_pa` agrees with the hardware on every well-formed table. -/
theorem TableOk.hardware (h : TableOk k free r) (hva : va < 2 ^ 32) :
    kvmemGetPa k r va =
      match sv32Translate k.mem r va with
      | some a => a / 4096 * 4096
      | none => 0xFFFFFFFF := by
  rw [kvmemGetPa_lookup h hva, h.translate_eq hva]
  cases lookup k.mem r (va / 4096) with
  | none => rfl
  | some e =>
    change ppn e * 4096 = (ppn e * 4096 + va % 4096) / 4096 * 4096
    omega

theorem kvmem_map_page_update (hfree : FreeList L k free) (h : TableOk k free r)
    (hva : va < 2 ^ 32) (hpa : pa < 2 ^ 32) (hf : flags < 1024)
    (hleaf : Readable flags ∨ Executable flags) (hwrite : Writable flags → Readable flags)
    (hmap : kvmemMapPage k r va pa flags = some k') : MapsPage L k k' r va pa flags := by
  have hi : va / 4096 / 1024 < 1024 := by omega
  have hj : va / 4096 % 1024 < 1024 := by omega
  cases hneed : kvmemNeedTable k r va with
  | none =>
    rw [kvmemMapPage, hneed] at hmap
    exact absurd hmap nofun
  | some k1 =>
    obtain ⟨free1, hfree1, h1, hroot, hsame⟩ := h.needTable hfree hva hneed
    obtain ⟨hvalid, hok, hppn, hflags, hlt⟩ := leafOk_entry hpa hf hleaf hwrite
    have hk' := kvmemMapPage_store h1 hneed hroot hva hpa hf hmap
    obtain ⟨h', hlook⟩ := h1.setLeaf hi hj hroot hlt hvalid hok
    rw [show 1024 * (va / 4096 / 1024) + va / 4096 % 1024 = va / 4096 by omega] at hlook
    have hfree' : FreeList L k' free1 := by
      rw [hk']
      exact hfree1.store (tableAt_aligned k1.mem r _) (h1.notFree _ hi hroot) (by omega)
    have h2 : TableOk k' free1 r := by
      rw [hk']
      exact h'
    have hlook' : ∀ v < 2 ^ 20, lookup k'.mem r v =
        if v = va / 4096 then some (pa / 4096 * 1024 + (flags ||| 1)) else lookup k.mem r v := by
      intro v hv
      rw [hk', ← hsame v hv]
      exact hlook v hv
    have hat : lookup k'.mem r (va / 4096) = some (pa / 4096 * 1024 + (flags ||| 1)) := by
      rw [hlook' _ (by omega), if_pos rfl]
    refine ⟨?_, ?_, ⟨free1, hfree', h2⟩, fun v hv => h2.hardware hv, ?_⟩
    · rw [kvmemGetPa_lookup h2 hva, hat]
      change ppn _ * 4096 = _
      rw [hppn]
    · intro v hv hne
      rw [kvmemGetPa_lookup h2 hv, kvmemGetPa_lookup h hv, hlook' _ (by omega), if_neg hne]
    · refine ⟨_, ?_, hflags⟩
      rw [h2.walk_eq hva, hat]
      rfl

/-- A page that has just been allocated is an empty root. -/
theorem FreeList.newTable {p : Nat} (h : FreeList L k (p :: free)) :
    ∃ k', FreeList L k' free ∧ TableOk k' free p ∧ ∀ i < 1024, rootEntry k'.mem p i = 0 := by
  obtain ⟨k', hal, hfree⟩ := h.alloc
  have hp := h.page p List.mem_cons_self
  have hb := hp.bounds
  have hzero : ∀ i < 1024, rootEntry k'.mem p i = 0 :=
    fun i hi => kmemAlloc_load_new h.kmemInv hal (by omega)
  exact ⟨k', hfree, .empty hp.2.2 (by omega) (List.nodup_cons.mp h.nodup).1 hzero, hzero⟩

/-- While a page is free there is room for a table. -/
theorem kvmemMapPage_isSome {p : Nat} (h : FreeList L k (p :: free)) (hva : va < 2 ^ 32) :
    ∃ k', kvmemMapPage k r va pa flags = some k' := by
  cases hmap : kvmemMapPage k r va pa flags with
  | some k' => exact ⟨k', rfl⟩
  | none =>
    have hnil := (kvmemMapPage_none h.kmemInv hva rfl hmap).2
    exact absurd hnil (List.cons_ne_nil p free)

theorem kvmem_map_page_update_first : ∃ k k' r, ¬ Valid (rootEntry k.mem r 4) ∧
    kvmemMapPage k r 0x1000123 0x83300456 (pteR ||| pteU) = some k' ∧
    MapsPage exampleLayout k k' r 0x1000123 0x83300456 (pteR ||| pteU) := by
  have h0 := (kmemInit_spec exampleLayout fun _ => 0).1.freeList
  rw [Layout.initGhost_free, Layout.pagesDown, Layout.pagesDown] at h0
  obtain ⟨k, hfree, h, hzero⟩ := h0.newTable
  obtain ⟨k', hmap⟩ : ∃ k', kvmemMapPage k _ 0x1000123 0x83300456 (pteR ||| pteU) = some k' :=
    kvmemMapPage_isSome hfree (by norm_num)
  refine ⟨k, k', _, ?_, hmap, kvmem_map_page_update hfree h (by norm_num) (by norm_num) (by decide)
    (.inl (by decide)) (by decide) hmap⟩
  rw [hzero 4 (by norm_num)]
  decide

end Risky321.Kernel
