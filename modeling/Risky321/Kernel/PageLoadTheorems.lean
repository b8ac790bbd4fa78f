/-
Risky321.Kernel.PageLoadTheorems — one more user page.

`buildImage` loads the segments page by page; `Loaded` is the invariant
over the list of virtual pages loaded so far, and `Loaded.page` its step.

Besides the shape of the result two things are counted along the way,
because other results need them: the pages that back a segment or a heap
page (`heapCount`), which bound `free_heap_page`; and whether every page
with a role of the address space is in fact entered in its tables
(`Exact`), which is what "no page is lost" comes down to.
-/
import Risky321.Kernel.KvmemTheorems
import Risky321.Kernel.Kproc
import Mathlib.Data.Finset.Card

namespace Risky321.Kernel

open Risky321.Lib

variable {L : Layout} {k k' k'' : KState} {g g' g'' : Ghost} {a b : Space} {i j r v va p : Nat}
  {m m' : Mem} {S : Role → Prop} {W : Nat → Prop} {heap : Bool} {c : Role}

/-! ## §1 Counting the pages behind a heap -/

/-- A leaf of slot `i` other than its stack. -/
def Role.HeapLeaf (i : Nat) : Role → Bool
  | .leaf (.proc j) v => j == i && v != 0xFFFFE
  | _ => false

/-- The number of pages that are leaves of slot `i` other than its stack. -/
def heapCount (L : Layout) (g : Ghost) (i : Nat) : Nat :=
  ((Finset.range 16384).filter
    (fun n => (g.ow (L.freeRamBegin + 4096 * n)).HeapLeaf i = true)).card

theorem heapCount_le (L : Layout) (g : Ghost) (i : Nat) : heapCount L g i ≤ 16384 := by
  have h := Finset.card_filter_le (Finset.range 16384)
    (fun n => (g.ow (L.freeRamBegin + 4096 * n)).HeapLeaf i = true)
  rwa [Finset.card_range] at h

theorem heapCount_mono (h : ∀ p, (g.ow p).HeapLeaf i = true → (g'.ow p).HeapLeaf i = true) :
    heapCount L g i ≤ heapCount L g' i := by
  apply Finset.card_le_card
  intro n hn
  rw [Finset.mem_filter] at hn ⊢
  exact ⟨hn.1, h _ hn.2⟩

/-- One more leaf is one more in the count. -/
theorem heapCount_lt (h : ∀ p, (g.ow p).HeapLeaf i = true → (g'.ow p).HeapLeaf i = true)
    (hp : L.IsPage p) (hold : (g.ow p).HeapLeaf i = false) (hnew : (g'.ow p).HeapLeaf i = true) :
    heapCount L g i + 1 ≤ heapCount L g' i := by
  obtain ⟨h1, h2, h3⟩ := hp
  have hb := L.begin_aligned
  simp only [Layout.freeRamEnd] at h2
  apply Finset.card_lt_card
  rw [Finset.ssubset_iff_of_subset]
  · refine ⟨(p - L.freeRamBegin) / 4096, ?_, ?_⟩
    · rw [Finset.mem_filter, Finset.mem_range]
      refine ⟨by omega, ?_⟩
      rwa [show L.freeRamBegin + 4096 * ((p - L.freeRamBegin) / 4096) = p by omega]
    · rw [Finset.mem_filter, show L.freeRamBegin + 4096 * ((p - L.freeRamBegin) / 4096) = p by omega,
        hold]
      simp
  · intro n hn
    rw [Finset.mem_filter] at hn ⊢
    exact ⟨hn.1, h _ hn.2⟩

theorem Grow.heapLeaf (hg : Grow L S W k g k' g') :
    ∀ p, (g.ow p).HeapLeaf i = true → (g'.ow p).HeapLeaf i = true := by
  intro p hp
  rw [hg.keep p (by intro hf; rw [hf] at hp; exact absurd hp nofun)]
  exact hp

/-! ## §2 Pages that are really in use -/

/-- Each role of `a` is given to at most one page, and the second-level
tables and leaves are entered in the tables below `r`. -/
structure Exact (m : Mem) (g : Ghost) (a : Space) (r : Nat) : Prop where
  unique : ∀ p q, (g.ow p).Of a → g.ow p = g.ow q → p = q
  table : ∀ p n, g.ow p = .table a n → n < 1024 ∧ HasTable m r n
  leaf : ∀ p v, g.ow p = .leaf a v → v < 2 ^ 20 ∧ ∃ e, walk m r v = some e ∧ e &&& pteU ≠ 0

theorem Ghost.pop_ow (g : Ghost) (c : Role) (q : Nat) :
    (g.pop c).ow q = g.ow q ∨ (g.pop c).ow q = c := by
  unfold Ghost.pop
  split
  · exact .inl rfl
  · rename_i p l _
    by_cases hq : q = p
    · rw [hq]
      simp
    · simp [Function.update_of_ne hq]

/-- A role no page has yet can be given away. -/
theorem unique_pop (hu : ∀ p q, (g.ow p).Of a → g.ow p = g.ow q → p = q)
    (hc : ∀ q, g.ow q ≠ c) : ∀ p q, ((g.pop c).ow p).Of a → (g.pop c).ow p = (g.pop c).ow q →
    p = q := by
  unfold Ghost.pop
  split
  · exact hu
  · rename_i s l _
    intro p q hp hpq
    by_cases hps : p = s <;> by_cases hqs : q = s
    · rw [hps, hqs]
    · rw [hps] at hpq
      simp only [Function.update_self, Function.update_of_ne hqs] at hpq
      exact absurd hpq.symm (hc q)
    · rw [hqs] at hpq
      simp only [Function.update_self, Function.update_of_ne hps] at hpq
      exact absurd hpq (hc p)
    · simp only [Function.update_of_ne hps, Function.update_of_ne hqs] at hp hpq
      exact hu p q hp hpq

/-- `kvmem_map_page` keeps the tables exact: it only takes a page when the
table is missing, and enters it. -/
theorem exact_needTable {n : Nat} (hn : n < 1024)
    (hu : ∀ p q, (g.ow p).Of a → g.ow p = g.ow q → p = q)
    (htable : ∀ p n, g.ow p = .table a n → n < 1024 ∧ HasTable m r n)
    (hleaf : ∀ p v, g.ow p = .leaf a v → v < 2 ^ 20 ∧ ∃ e, walk m' r v = some e ∧ e &&& pteU ≠ 0)
    (hT : ∀ i < 1024, HasTable m' r i ↔ i = n ∨ HasTable m r i) :
    Exact m' (g.needTable m a r n) a r := by
  unfold Ghost.needTable
  by_cases hTn : HasTable m r n
  · rw [if_pos hTn]
    refine ⟨hu, ?_, hleaf⟩
    intro q i hq
    obtain ⟨hi, hTi⟩ := htable q i hq
    exact ⟨hi, (hT i hi).mpr (.inr hTi)⟩
  · rw [if_neg hTn]
    have hnotable : ∀ q, g.ow q ≠ .table a n := fun q hq => hTn (htable q n hq).2
    refine ⟨unique_pop hu hnotable, ?_, ?_⟩
    · intro q i hq
      obtain h | h := g.pop_ow (.table a n) q
      · rw [h] at hq
        obtain ⟨hi, hTi⟩ := htable q i hq
        exact ⟨hi, (hT i hi).mpr (.inr hTi)⟩
      · rw [h, Role.table.injEq] at hq
        rw [← hq.2]
        exact ⟨hn, (hT n hn).mpr (.inl rfl)⟩
    · intro q u hq
      obtain h | h := g.pop_ow (.table a n) q
      · rw [h] at hq
        exact hleaf q u hq
      · rw [h] at hq
        exact absurd hq nofun

/-- Loading a page at an address that was not mapped. -/
theorem Exact.load (he : Exact k.mem g a r) (hv : v < 2 ^ 20) (hnone : walk k.mem r v = none)
    (hT1 : ∀ n < 1024, HasTable m r n ↔ HasTable k.mem r n)
    (hT : ∀ n < 1024, HasTable k'.mem r n ↔ n = v / 1024 ∨ HasTable m r n)
    (hw : ∀ u < 2 ^ 20, u ≠ v → walk k'.mem r u = walk k.mem r u)
    {e : Nat} (hwv : walk k'.mem r v = some e) (hU : e &&& pteU ≠ 0) :
    Exact k'.mem ((g.pop (.leaf a v)).needTable m a r (v / 1024)) a r := by
  have hnoleaf : ∀ q, g.ow q ≠ .leaf a v := by
    intro q hq
    obtain ⟨-, e, hwe, -⟩ := he.leaf q v hq
    rw [hnone] at hwe
    exact absurd hwe nofun
  refine exact_needTable (by omega) (unique_pop he.unique hnoleaf) ?_ ?_ hT
  · intro q n hq
    obtain h | h := g.pop_ow (.leaf a v) q
    · rw [h] at hq
      obtain ⟨hn, hTn⟩ := he.table q n hq
      exact ⟨hn, (hT1 n hn).mpr hTn⟩
    · rw [h] at hq
      exact absurd hq nofun
  · intro q u hq
    by_cases huv : u = v
    · rw [huv]
      exact ⟨hv, e, hwv, hU⟩
    · obtain h | h := g.pop_ow (.leaf a v) q
      · rw [h] at hq
        obtain ⟨hu, e', hwe, hU'⟩ := he.leaf q u hq
        exact ⟨hu, e', by rw [hw u hu huv, hwe], hU'⟩
      · rw [h, Role.leaf.injEq] at hq
        exact absurd hq.2.symm huv

/-! ## §3 Loading segments -/

/-- Mapping the page `p` at `v`: user entries are still leaves of `a`. -/
theorem Leaves.map (hl : Leaves m g a r) (hkeep : ∀ p, g.ow p ≠ .free → g'.ow p = g.ow p)
    {e : Nat} (hw : ∀ u < 2 ^ 20, walk m' r u = if u = v then some e else walk m r u)
    (hleaf : e &&& pteU ≠ 0 → g'.ow (pteAddr e) = .leaf a v) : Leaves m' g' a r := by
  intro u hu e' he' hU
  rw [hw u hu] at he'
  by_cases huv : u = v
  · rw [if_pos huv, Option.some.injEq] at he'
    rw [← he', huv]
    exact hleaf (by rw [he']; exact hU)
  · rw [if_neg huv] at he'
    have h := hl u hu e' he' hU
    rw [hkeep _ (by rw [h]; exact nofun), h]

/-- Taking the next page for role `c` and filling it, with no table involved. -/
theorem alloc_write (hk : KmemInv L k g) (h : kmemAlloc k = some (p, k')) (hc : c ≠ .free)
    (hm : ∀ x, x < p ∨ p + 4096 ≤ x → m x = k'.mem x) :
    KmemInv L { k' with mem := m } (g.pop c) ∧
      Grow L (fun d => d = c) W k g { k' with mem := m } (g.pop c) := by
  obtain ⟨-, hp, -, -, hinv⟩ := kmemAlloc_spec hk h
  have how := (kmemAlloc_pop_ow hk h c).1
  exact ⟨(hinv c hc).write hp (by rw [how]; exact hc) hm,
    (kmemAlloc_grow (S := fun d => d = c) hk h rfl).trans (write_grow hp how hm)⟩

/-- The entry for a user page. -/
theorem userEntry (hp : L.IsPage p) (flags : Nat) (hf : flags < 1024) (hU : flags &&& pteU ≠ 0) :
    p / 4096 * 1024 + (flags ||| 1) = p / 4 + (flags ||| 1) ∧
      pteAddr (p / 4 + (flags ||| 1)) = p ∧ (p / 4 + (flags ||| 1)) &&& pteU ≠ 0 := by
  have hb := hp.bounds
  have h3 := hp.2.2
  have hor : flags ||| 1 < 2 ^ 10 := Nat.or_lt_two_pow (by omega) (by norm_num)
  have hU' : (flags ||| 1) &&& pteU ≠ 0 := by
    rw [Nat.and_or_distrib_right]
    simpa using hU
  refine ⟨by omega, pteAddr_entry h3 (by omega) (by omega), ?_⟩
  rw [and_sixteen_ne_zero] at hU' ⊢
  omega

/-- Addresses that building the address space of slot `i` never writes to. -/
def Layout.Stable (L : Layout) (i x : Nat) : Prop := x < L.freeRamBegin ∧ ¬ L.InPcb i x

/-- The page `p` holds what the load `ld` copies there, and zeros behind it. -/
structure PageHolds (L : Layout) (i : Nat) (m : Mem) (ld : Load) (m' : Mem) (p : Nat) : Prop where
  copied : ∀ x < ld.len, L.Stable i (ld.src + x) → m' (p + x) = m (ld.src + x)
  zero : ∀ x, ld.len ≤ x → x < 4096 → m' (p + x) = 0

/-- The second-level tables below `r` that mapping the virtual pages `pages` adds. -/
def newTables (m : Mem) (r : Nat) (pages : List Nat) : Finset Nat :=
  (pages.map (· / 1024)).toFinset.filter (fun n => ¬ HasTable m r n)

theorem card_newTables_concat (m : Mem) (r : Nat) (pages : List Nat) (v : Nat) :
    (newTables m r (pages ++ [v])).card = (newTables m r pages).card +
      if v / 1024 ∈ pages.map (· / 1024) ∨ HasTable m r (v / 1024) then 0 else 1 := by
  have hset : (pages ++ [v]).map (· / 1024) = pages.map (· / 1024) ++ [v / 1024] := by simp
  unfold newTables
  rw [hset, List.toFinset_append, List.toFinset_cons, List.toFinset_nil, insert_empty_eq,
    Finset.filter_union, Finset.filter_singleton]
  by_cases hT : HasTable m r (v / 1024)
  · rw [if_neg (fun h => h hT), if_pos (.inr hT), Finset.union_empty, Nat.add_zero]
  · rw [if_pos hT]
    by_cases hmem : v / 1024 ∈ pages.map (· / 1024)
    · rw [if_pos (.inl hmem), Nat.add_zero, Finset.union_eq_left.mpr]
      rw [Finset.singleton_subset_iff, Finset.mem_filter, List.mem_toFinset]
      exact ⟨hmem, hT⟩
    · rw [if_neg (by simp only [not_or]; exact ⟨hmem, hT⟩), Finset.union_comm,
        ← Finset.insert_eq, Finset.card_insert_of_notMem]
      rw [Finset.mem_filter, List.mem_toFinset]
      exact fun h => hmem h.1

theorem card_newTables_le (m : Mem) (r : Nat) (pages : List Nat) :
    (newTables m r pages).card ≤ pages.length := by
  refine (Finset.card_filter_le _ _).trans ?_
  have := (pages.map (· / 1024)).toFinset_card_le
  rwa [List.length_map] at this

/-- After the loads `pre` were made for slot `i`, in this order. -/
structure Loaded (L : Layout) (heap : Bool) (i : Nat) (k : KState) (g : Ghost) (pre : List Load)
    (k' : KState) (g' : Ghost) : Prop where
  kmem : KmemInv L k' g'
  tree : Tree k'.mem g' (.proc i) (pcb L k i .pagetable)
  leaves : Leaves k'.mem g' (.proc i) (pcb L k i .pagetable)
  grow : Grow L (Role.MappedOf (.proc i)) (L.InPcb i) k g k' g'
  field_eq : ∀ f : PcbField, f.InStruct → f ≠ .freeHeapPage → pcb L k' i f = pcb L k i f
  heapPage : pcb L k' i .freeHeapPage =
    if heap then (pcb L k i .freeHeapPage + 4096 * pre.length) % 2 ^ 32
    else pcb L k i .freeHeapPage
  bounds : ∀ ld ∈ pre, ld.page < 2 ^ 20 ∧ ld.len ≤ 4096
  walk_other : ∀ v < 2 ^ 20, v ∉ pre.map Load.page →
    walk k'.mem (pcb L k i .pagetable) v =
      walk k.mem (pcb L k i .pagetable) v
  image : ∀ v ld, lastLoad pre v = some ld → ∃ p, L.IsPage p ∧ g'.ow p = .leaf (.proc i) v ∧
    walk k'.mem (pcb L k i .pagetable) v = some (p / 4 + 31) ∧ PageHolds L i k.mem ld k'.mem p
  hasTable : ∀ n < 1024, HasTable k'.mem (pcb L k i .pagetable) n ↔
    n ∈ (pre.map Load.page).map (· / 1024) ∨ HasTable k.mem (pcb L k i .pagetable) n
  free : g'.free = g.free.drop
    (pre.length + (newTables k.mem (pcb L k i .pagetable) (pre.map Load.page)).card)
  count : 0xFFFFE ∉ pre.map Load.page → heapCount L g i + pre.length ≤ heapCount L g' i
  exact : Exact k.mem g (.proc i) (pcb L k i .pagetable) → (pre.map Load.page).Nodup →
    (∀ v ∈ pre.map Load.page, walk k.mem (pcb L k i .pagetable) v = none) →
    Exact k'.mem g' (.proc i) (pcb L k i .pagetable)

theorem lastLoad_concat (pre : List Load) (ld : Load) (v : Nat) :
    lastLoad (pre ++ [ld]) v = if ld.page = v then some ld else lastLoad pre v := by
  rw [lastLoad, List.foldl_append, List.foldl_cons, List.foldl_nil]
  rfl

/-- A page has a last load when it has one at all. -/
theorem lastLoad_eq_none {loads : List Load} {v : Nat} :
    lastLoad loads v = none ↔ v ∉ loads.map Load.page := by
  induction loads using List.reverseRecOn with
  | nil => simp [lastLoad]
  | append_singleton pre ld ih =>
    rw [lastLoad_concat]
    by_cases h : ld.page = v
    · simp [h]
    · rw [if_neg h, ih]
      simp only [List.map_append, List.map_cons, List.map_nil, List.mem_append, List.mem_singleton,
        not_or]
      exact ⟨fun h1 => ⟨h1, fun h2 => h h2.symm⟩, fun h1 => h1.1⟩

theorem lastLoad_mem {loads : List Load} {v : Nat} {ld : Load} (h : lastLoad loads v = some ld) :
    ld ∈ loads ∧ ld.page = v := by
  induction loads using List.reverseRecOn with
  | nil => exact absurd h nofun
  | append_singleton pre ld' ih =>
    rw [lastLoad_concat] at h
    split at h
    · rename_i heq
      rw [Option.some.injEq] at h
      exact ⟨by simp [h], by rw [← h, heq]⟩
    · obtain ⟨h1, h2⟩ := ih h
      exact ⟨by simp [h1], h2⟩

theorem loaded_nil (hk : KmemInv L k g) (ht : Tree k.mem g (.proc i) (pcb L k i .pagetable))
    (hl : Leaves k.mem g (.proc i) (pcb L k i .pagetable)) : Loaded L heap i k g [] k g where
  kmem := hk
  tree := ht
  leaves := hl
  grow := Grow.refl k g
  field_eq := fun _ _ _ => rfl
  heapPage := by
    have := pcb_lt L k i .freeHeapPage
    cases heap
    · rfl
    · simp only [List.length_nil, if_true]
      omega
  bounds := nofun
  walk_other := fun _ _ _ => rfl
  image := nofun
  hasTable := fun _ _ => by simp
  free := by simp [newTables]
  count := fun _ => by simp
  exact := fun he _ _ => he

theorem Ghost.needTable_free (g : Ghost) (m : Mem) (a : Space) (r n : Nat) :
    (g.needTable m a r n).free = g.free.drop (if HasTable m r n then 0 else 1) := by
  unfold Ghost.needTable
  split
  · rw [List.drop_zero]
  · rw [Ghost.pop_free, List.drop_one]

/-- The page `p`, with the contents it has in `m`, was entered for the virtual
page `v` of `a`. -/
structure UserMapped (L : Layout) (a : Space) (r v flags : Nat) (k : KState) (g : Ghost) (p : Nat)
    (m : Mem) (k' : KState) (g' : Ghost) : Prop where
  kmem : KmemInv L k' g'
  tree : Tree k'.mem g' a r
  leaves : Leaves k'.mem g' a r
  grow : Grow L (Role.MappedOf a) (fun _ => False) k g k' g'
  page : L.IsPage p
  fresh : g.ow p = .free
  page_ow : g'.ow p = .leaf a v
  walk_eq : ∀ u < 2 ^ 20, walk k'.mem r u =
    if u = v then some (p / 4 + (flags ||| 1)) else walk k.mem r u
  bytes : ∀ x < 4096, k'.mem (p + x) = m (p + x)
  leaf_bytes : ∀ q u, u ≠ v → g.ow q = .leaf a u → ∀ x < 4096, k'.mem (q + x) = k.mem (q + x)
  hasTable : ∀ n < 1024, HasTable k'.mem r n ↔ n = v / 1024 ∨ HasTable k.mem r n
  free : g'.free = g.free.drop (if HasTable k.mem r (v / 1024) then 1 else 2)
  exact : Exact k.mem g a r → walk k.mem r v = none → Exact k'.mem g' a r

/-- The memory part of `loadPage`: allocate, fill and map. -/
theorem mapUserPage_spec {flags : Nat} (hk : KmemInv L k g) (ht : Tree k.mem g a r)
    (hl : Leaves k.mem g a r) (hva : va < 2 ^ 32) (hf : flags < 1024) (hfU : flags &&& pteU ≠ 0)
    (hal : kmemAlloc k = some (p, k')) (hm : ∀ x, x < p ∨ p + 4096 ≤ x → m x = k'.mem x)
    (hmap : kvmemMapPage { k' with mem := m } r va p flags = some k'') :
    ∃ g'', UserMapped L a r (va / 4096) flags k g p m k'' g'' := by
  obtain ⟨hk1, hg1⟩ :=
    alloc_write (W := fun _ => False) (c := .leaf a (va / 4096)) hk hal (by simp) hm
  have hS : ∀ c, c = Role.leaf a (va / 4096) → ¬ c.TableOf a := by
    intro c hc ht
    rw [hc] at ht
    exact ht
  have ht1 := ht.grow hk hg1 hS
  have hl1 := hl.grow ht hk hg1 hS
  obtain ⟨hhead, hp, hfree, -, -⟩ := kmemAlloc_spec hk hal
  have how := (kmemAlloc_pop_ow hk hal (.leaf a (va / 4096))).1
  have hb := hp.bounds
  obtain ⟨hentry, haddr, hU⟩ := userEntry hp flags hf hfU
  generalize hg'' : (g.pop (.leaf a (va / 4096))).needTable m a r (va / 4096 / 1024) = g''
  obtain ⟨hk2, ht2, hg2, hT2, hw2⟩ :=
    kvmemMapPage_spec (W := fun _ => False) hk1 ht1 hva (by omega) hf rfl hmap hg''.symm
  rw [hentry] at hw2
  have hw : ∀ v < 2 ^ 20, walk k''.mem r v =
      if v = va / 4096 then some (p / 4 + (flags ||| 1)) else walk k.mem r v := by
    intro v hv
    rw [hw2 v hv, ht.walk_grow hk hg1 hS hv]
  have how2 : g''.ow p = .leaf a (va / 4096) := by
    rw [hg2.keep p (by rw [how]; simp), how]
  have hTm : ∀ n < 1024, HasTable m r n ↔ HasTable k.mem r n := by
    intro n hn
    have hrole : (g.ow r).TableOf a := by rw [ht.root]; rfl
    have := hg1.load_page (hk.page r hrole.ne_lost) hrole.ne_free (fun h => hS _ h hrole)
      (show 4 * n + 4 ≤ 4096 by omega)
    simp only [HasTable]
    rw [← this]
  refine ⟨g'', hk2, ht2, ?_, ?_, hp, hfree, how2, hw, ?_, ?_, ?_, ?_, ?_⟩
  · refine hl1.map hg2.keep hw2 (fun _ => ?_)
    rw [haddr]
    exact how2
  · refine (hg1.mono ?_ (fun _ h => h)).trans (hg2.mono (fun _ h => h.mapped) (fun _ h => h))
    intro c hc
    rw [hc]
    rfl
  · exact hg2.page_mem p hp (by rw [how]; simp) (by rw [how]; exact id)
  · intro q u hne hq x hx
    have hqpage := hk.page_of hq (by simp)
    have hq1 : (g.pop (.leaf a (va / 4096))).ow q = .leaf a u := by
      rw [hg1.keep q (by rw [hq]; simp), hq]
    rw [hg2.page_mem q hqpage (by rw [hq1]; simp) (by rw [hq1]; exact id) x hx]
    refine hg1.page_mem q hqpage (by rw [hq]; simp) ?_ x hx
    rw [hq, Role.leaf.injEq]
    exact fun h => hne h.2
  · intro n hn
    rw [hT2 n hn, hTm n hn]
  · rw [← hg'', Ghost.needTable_free, Ghost.pop_free]
    by_cases hT : HasTable k.mem r (va / 4096 / 1024)
    · rw [if_pos hT, if_pos ((hTm _ (by omega)).mpr hT), List.drop_zero, List.drop_one]
    · rw [if_neg hT, if_neg (fun h => hT ((hTm _ (by omega)).mp h)), List.drop_tail]
  · intro he hnone
    have hvpn : va / 4096 < 2 ^ 20 := by omega
    rw [← hg'']
    refine he.load hvpn hnone hTm hT2 ?_ (by rw [hw _ hvpn, if_pos rfl]) hU
    intro u hu hne
    rw [hw u hu, if_neg hne]

/-- Allocating and mapping fails only for lack of pages. -/
theorem mapUserPage_none {flags : Nat} (hk : KmemInv L k g) (hva : va < 2 ^ 32)
    (hal : kmemAlloc k = some (p, k')) (hm : ∀ x, x < p ∨ p + 4096 ≤ x → m x = k'.mem x)
    (hmap : kvmemMapPage { k' with mem := m } r va p flags = none) : g.free.length ≤ 1 := by
  obtain ⟨hk1, -⟩ := alloc_write (W := fun _ => False) (c := .root .kernel) hk hal nofun hm
  obtain ⟨-, hnil⟩ := kvmemMapPage_none hk1 hva rfl hmap
  rw [Ghost.pop_free] at hnil
  have := List.length_tail (l := g.free)
  rw [hnil, List.length_nil] at this
  omega

theorem Tree.hasTable_grow (ht : Tree k.mem g a r) (hk : KmemInv L k g)
    (hg : Grow L S W k g k' g') (hS : ∀ c, S c → ¬ c.TableOf a) {n : Nat} (hn : n < 1024) :
    HasTable k'.mem r n ↔ HasTable k.mem r n := by
  have hrole : (g.ow r).TableOf a := by rw [ht.root]; rfl
  simp only [HasTable]
  rw [hg.load_table hk hS r hrole (4 * n) (by omega)]

/-- A store to a PCB field changes no page. -/
theorem Tree.setPcb (ht : Tree k.mem g a r) (hk : KmemInv L k g) (hi : i < 8) {f : PcbField}
    (hf : f.InStruct) : Tree (setPcb L k i f v).mem g a r :=
  ht.grow hk (setPcb_grow (S := fun _ => False) hi hf) (fun _ h => h.elim)

theorem Leaves.setPcb (hl : Leaves k.mem g a r) (ht : Tree k.mem g a r) (hk : KmemInv L k g)
    (hi : i < 8) {f : PcbField} (hf : f.InStruct) : Leaves (setPcb L k i f v).mem g a r :=
  hl.grow ht hk (setPcb_grow (S := fun _ => False) hi hf) (fun _ h => h.elim)

theorem Tree.walk_setPcb (ht : Tree k.mem g a r) (hk : KmemInv L k g) (hi : i < 8)
    {f : PcbField} (hf : f.InStruct) {u : Nat} (hu : u < 2 ^ 20) :
    walk (Risky321.Kernel.setPcb L k i f v).mem r u = walk k.mem r u :=
  ht.walk_grow hk (setPcb_grow (S := fun _ => False) hi hf) (fun _ h => h.elim) hu

theorem Tree.hasTable_setPcb (ht : Tree k.mem g a r) (hk : KmemInv L k g) (hi : i < 8)
    {f : PcbField} (hf : f.InStruct) {n : Nat} (hn : n < 1024) :
    HasTable (Risky321.Kernel.setPcb L k i f v).mem r n ↔ HasTable k.mem r n :=
  ht.hasTable_grow hk (setPcb_grow (S := fun _ => False) hi hf) (fun _ h => h.elim) hn

theorem Exact.congr (he : Exact m g a r)
    (hT : ∀ n < 1024, HasTable m r n → HasTable m' r n)
    (hw : ∀ v < 2 ^ 20, walk m' r v = walk m r v) : Exact m' g a r := by
  refine ⟨he.unique, ?_, ?_⟩
  · intro p n hp
    obtain ⟨hn, h⟩ := he.table p n hp
    exact ⟨hn, hT n hn h⟩
  · intro p v hp
    obtain ⟨hv, e, hwe, hU⟩ := he.leaf p v hp
    exact ⟨hv, e, by rw [hw v hv, hwe], hU⟩

theorem Exact.setPcb (he : Exact k.mem g a r) (ht : Tree k.mem g a r) (hk : KmemInv L k g)
    (hi : i < 8) {f : PcbField} (hf : f.InStruct) : Exact (setPcb L k i f v).mem g a r := by
  exact he.congr (fun _ hn hT => (ht.hasTable_setPcb hk hi hf hn).mpr hT)
    (fun _ hu => ht.walk_setPcb hk hi hf hu)

/-- Writing to a control block leaves the pages alone. -/
theorem setPcb_page {f : PcbField} {x : Nat} (hi : i < 8) (hf : f.InStruct) (hp : L.IsPage p) :
    (setPcb L k i f v).mem (p + x) = k.mem (p + x) := by
  have hb := L.proc_bound hi
  have ho := PcbField.offset_lt hf
  have hp1 := hp.1
  simp only [sizeofProcess] at hb
  exact store32_outside _ _ _ (by omega)

/-- A page loaded before keeps its contents while other leaves do. -/
theorem PageHolds.congr {ld : Load} (h : PageHolds L i m ld m' p) {m'' : Mem}
    (hm : ∀ x < 4096, m'' (p + x) = m' (p + x)) (hlen : ld.len ≤ 4096) :
    PageHolds L i m ld m'' p :=
  ⟨fun x hx hs => (hm x (by omega)).trans (h.copied x hx hs),
    fun x h1 h2 => (hm x h2).trans (h.zero x h1 h2)⟩

/-- What the copy into the new page leaves there. -/
theorem pageHolds_copy {ka : KState} {ld : Load} (hk : KmemInv L k' g')
    (hal : kmemAlloc k' = some (p, ka))
    (hst : ∀ x, L.Stable i x → k'.mem x = k.mem x) :
    PageHolds L i k.mem ld (copy ka.mem p ld.src ld.len) p := by
  obtain ⟨-, hp, -, hka, -⟩ := kmemAlloc_spec hk hal
  have hp1 := hp.1
  constructor
  · intro x hx hs
    have hlt := hs.1
    rw [copy_at _ hx (by omega), ← hst _ hs, hka]
    exact fill_outside _ _ _ _ (by omega)
  · intro x h1 h2
    rw [copy_outside _ _ _ _ (by omega), hka]
    exact fill_inside _ _ _ _ (by omega)

/-! ### The step of the invariant

`pre` are the pages loaded so far, `ld` is the next one: `k'` the state
before, `kc` the state in which its page is entered. -/

section Step

variable {pre : List Load} {ld : Load} {kc : KState} {gc : Ghost}
  (hld : Loaded L heap i k g pre k' g')
  (hc : UserMapped L (.proc i) (pcb L k i .pagetable) ld.page
    (pteR ||| pteW ||| pteX ||| pteU) k' g' p m kc gc)

theorem pages_concat (pre : List Load) (ld : Load) :
    (pre ++ [ld]).map Load.page = pre.map Load.page ++ [ld.page] := by
  rw [List.map_append, List.map_singleton]

include hld hc

theorem Loaded.step_walk (hv : v < 2 ^ 20) (hnot : v ∉ (pre ++ [ld]).map Load.page) :
    walk kc.mem (pcb L k i .pagetable) v = walk k.mem (pcb L k i .pagetable) v := by
  rw [pages_concat, List.mem_append, List.mem_singleton, not_or] at hnot
  rw [hc.walk_eq v hv, if_neg hnot.2, hld.walk_other v hv hnot.1]

theorem Loaded.step_hasTable {n : Nat} (hn : n < 1024) :
    HasTable kc.mem (pcb L k i .pagetable) n ↔
      n ∈ ((pre ++ [ld]).map Load.page).map (· / 1024) ∨
        HasTable k.mem (pcb L k i .pagetable) n := by
  rw [hc.hasTable n hn, hld.hasTable n hn]
  simp only [List.map_append, List.map_cons, List.map_nil, List.mem_append, List.mem_singleton]
  rw [or_assoc, or_left_comm]

theorem Loaded.step_free (hlt : ld.page < 2 ^ 20) : gc.free = g.free.drop ((pre ++ [ld]).length +
    (newTables k.mem (pcb L k i .pagetable) ((pre ++ [ld]).map Load.page)).card) := by
  rw [hc.free, hld.free, List.drop_drop, pages_concat, card_newTables_concat, List.length_append,
    List.length_singleton]
  refine congrArg (fun n => g.free.drop n) ?_
  have hiff := hld.hasTable (ld.page / 1024) (by omega)
  by_cases hT : HasTable k'.mem (pcb L k i .pagetable) (ld.page / 1024)
  · rw [if_pos hT, if_pos (hiff.mp hT)]
    omega
  · rw [if_neg hT, if_neg (fun h => hT (hiff.mpr h))]
    omega

theorem Loaded.step_count (hno : 0xFFFFE ∉ (pre ++ [ld]).map Load.page) :
    heapCount L g i + (pre ++ [ld]).length ≤ heapCount L gc i := by
  rw [pages_concat, List.mem_append, List.mem_singleton, not_or] at hno
  have h1 := heapCount_lt (i := i) hc.grow.heapLeaf hc.page (by rw [hc.fresh]; rfl)
    (by rw [hc.page_ow]; simp [Role.HeapLeaf, Ne.symm hno.2])
  have h2 := hld.count hno.1
  rw [List.length_append, List.length_singleton]
  omega

theorem Loaded.step_exact (hlt : ld.page < 2 ^ 20)
    (he : Exact k.mem g (.proc i) (pcb L k i .pagetable))
    (hnd : ((pre ++ [ld]).map Load.page).Nodup)
    (hnone : ∀ v ∈ (pre ++ [ld]).map Load.page, walk k.mem (pcb L k i .pagetable) v = none) :
    Exact kc.mem gc (.proc i) (pcb L k i .pagetable) := by
  rw [pages_concat] at hnd hnone
  rw [List.nodup_append] at hnd
  refine hc.exact (hld.exact he hnd.1 (fun v hv => hnone v (by simp [hv]))) ?_
  have hnot : ld.page ∉ pre.map Load.page := fun hmem => hnd.2.2 _ hmem _ (by simp) rfl
  rw [hld.walk_other _ hlt hnot]
  exact hnone _ (by simp)

/-- The new page is the last load of its number; the others are where they were. -/
theorem Loaded.step_image (hlt : ld.page < 2 ^ 20) (hn : ld.len ≤ 4096)
    (hholds : PageHolds L i k.mem ld m p) (v : Nat) (ld' : Load)
    (hlast : lastLoad (pre ++ [ld]) v = some ld') :
    ∃ q, L.IsPage q ∧ gc.ow q = .leaf (.proc i) v ∧
      walk kc.mem (pcb L k i .pagetable) v = some (q / 4 + 31) ∧
      PageHolds L i k.mem ld' kc.mem q := by
  rw [lastLoad_concat] at hlast
  by_cases hv : ld.page = v
  · rw [if_pos hv, Option.some.injEq] at hlast
    rw [← hv, ← hlast]
    refine ⟨p, hc.page, hc.page_ow, ?_, hholds.congr hc.bytes hn⟩
    rw [hc.walk_eq _ hlt, if_pos rfl]
    rfl
  · rw [if_neg hv] at hlast
    obtain ⟨hmem, hpage'⟩ := lastLoad_mem hlast
    obtain ⟨q, hq, howq, hwq, hholds⟩ := hld.image v ld' hlast
    obtain ⟨hv20, hlen⟩ := hld.bounds ld' hmem
    rw [hpage'] at hv20
    refine ⟨q, hq, ?_, ?_, ?_⟩
    · rw [hc.grow.keep q (by rw [howq]; exact nofun), howq]
    · rw [hc.walk_eq v hv20, if_neg (fun h => hv h.symm), hwq]
    · exact hholds.congr (hc.leaf_bytes q v (fun h => hv h.symm) howq) hlen

theorem Loaded.step_bounds (hlt : ld.page < 2 ^ 20) (hn : ld.len ≤ 4096) :
    ∀ ld' ∈ pre ++ [ld], ld'.page < 2 ^ 20 ∧ ld'.len ≤ 4096 := by
  intro ld' hmem
  rw [List.mem_append, List.mem_singleton] at hmem
  obtain hmem | rfl := hmem
  · exact hld.bounds ld' hmem
  · exact ⟨hlt, hn⟩

end Step

/-- What `loadPage` does last: for a heap page `free_heap_page` moves on, and
nothing else changes. -/
structure Counted (L : Layout) (heap : Bool) (i : Nat) (k : KState) (g : Ghost) (k' : KState) :
    Prop where
  kmem : KmemInv L k' g
  grow : Grow L (fun _ => False) (L.InPcb i) k g k' g
  field_eq : ∀ f : PcbField, f.InStruct → f ≠ .freeHeapPage → pcb L k' i f = pcb L k i f
  heapPage : pcb L k' i .freeHeapPage =
    if heap then (pcb L k i .freeHeapPage + pageSize) % 2 ^ 32 else pcb L k i .freeHeapPage

theorem counted (hk : KmemInv L k g) (hi : i < 8)
    (h : k' = if heap then
      setPcb L k i .freeHeapPage ((pcb L k i .freeHeapPage + pageSize) % 2 ^ 32) else k) : Counted L heap i k g k' := by
  cases heap with
  | false =>
    rw [h]
    exact ⟨hk, Grow.refl k g, fun _ _ _ => rfl, rfl⟩
  | true =>
    have hmod : (pcb L k i .freeHeapPage + pageSize) % 2 ^ 32 < 2 ^ 32 :=
      Nat.mod_lt _ (by norm_num)
    rw [h]
    exact ⟨hk.setPcb hi trivial, setPcb_grow hi trivial,
      fun f hf hne => pcb_setPcb_of_ne_field (g := .freeHeapPage) hf trivial hne,
      pcb_setPcb_same hmod⟩

/-- One more page. -/
theorem Loaded.page {pre : List Load} (hld : Loaded L heap i k g pre k' g') (ld : Load)
    (hi : i < 8) (hva : va < 2 ^ 32) (hpage : va / 4096 = ld.page) (hn : ld.len ≤ 4096)
    (h : loadPage L heap i va ld.src ld.len k' = some k'') :
    ∃ g'', Loaded L heap i k g (pre ++ [ld]) k'' g'' := by
  unfold loadPage at h
  cases hal : kmemAlloc k' with
  | none => simp [hal] at h
  | some pk =>
    obtain ⟨p, ka⟩ := pk
    simp only [hal] at h
    have hm : ∀ x, x < p ∨ p + 4096 ≤ x → copy ka.mem p ld.src ld.len x = ka.mem x :=
      fun x hx => copy_outside _ _ _ _ (by omega)
    obtain ⟨-, hgb⟩ := alloc_write (W := fun _ => False) (c := .leaf (.proc i) ld.page)
      hld.kmem hal nofun hm
    have hpt : pcb L { ka with mem := copy ka.mem p ld.src ld.len } i .pagetable =
        pcb L k i .pagetable := by
      rw [hgb.pcb (f := .pagetable) hi trivial (fun _ _ hw => hw),
        hld.field_eq .pagetable trivial nofun]
    rw [hpt] at h
    split at h
    · exact absurd h nofun
    · rename_i kc hmap
      obtain ⟨gc, hc⟩ :=
        mapUserPage_spec hld.kmem hld.tree hld.leaves hva (by decide) (by decide) hal hm hmap
      rw [hpage] at hc
      have hlt : ld.page < 2 ^ 20 := by omega
      have hd : Counted L heap i kc gc k'' := by
        refine counted hc.kmem hi ?_
        cases heap <;> exact (Option.some.inj h).symm
      have hholds : PageHolds L i k.mem ld (copy ka.mem p ld.src ld.len) p :=
        pageHolds_copy hld.kmem hal (fun x hx => hld.grow.static_mem x hx.1 hx.2)
      have hno : ∀ c : Role, (fun _ : Role => False) c → ¬ c.TableOf (.proc i) := fun _ h => h.elim
      have hwalk : ∀ v < 2 ^ 20, walk k''.mem (pcb L k i .pagetable) v =
          walk kc.mem (pcb L k i .pagetable) v :=
        fun v hv => hc.tree.walk_grow hc.kmem hd.grow hno hv
      have hT : ∀ n < 1024, HasTable k''.mem (pcb L k i .pagetable) n ↔
          HasTable kc.mem (pcb L k i .pagetable) n :=
        fun n hn => hc.tree.hasTable_grow hc.kmem hd.grow hno hn
      have hpcb : ∀ f : PcbField, f.InStruct → pcb L kc i f = pcb L k' i f :=
        fun f hf => hc.grow.pcb hi hf (fun _ _ hw => hw)
      refine ⟨gc, ?_⟩
      exact
        { kmem := hd.kmem
          tree := hc.tree.grow hc.kmem hd.grow hno
          leaves := hc.leaves.grow hc.tree hc.kmem hd.grow hno
          grow := (hld.grow.trans (hc.grow.mono (fun _ h => h) (fun _ h => h.elim))).trans
            (hd.grow.mono (fun _ h => h.elim) (fun _ h => h))
          field_eq := fun f hf hne => by rw [hd.field_eq f hf hne, hpcb f hf, hld.field_eq f hf hne]
          heapPage := by
            rw [hd.heapPage, hpcb .freeHeapPage trivial, hld.heapPage]
            cases heap with
            | false => simp only [Bool.false_eq_true, if_false]
            | true =>
              simp only [if_true, List.length_append, List.length_singleton, pageSize]
              omega
          bounds := hld.step_bounds hc hlt hn
          walk_other := fun v hv hnot => (hwalk v hv).trans (hld.step_walk hc hv hnot)
          image := by
            intro v ld' hlast
            obtain ⟨q, hq, howq, hwq, hq'⟩ := hld.step_image hc hlt hn hholds v ld' hlast
            obtain ⟨hmem, hpage'⟩ := lastLoad_mem hlast
            obtain ⟨hv20, hlen⟩ := hld.step_bounds hc hlt hn ld' hmem
            refine ⟨q, hq, howq, ?_, hq'.congr (fun x hx => ?_) hlen⟩
            · rw [hwalk v (by omega), hwq]
            · exact hd.grow.page_mem q hq (by rw [howq]; exact nofun) id x hx
          hasTable := fun n hn => (hT n hn).trans (hld.step_hasTable hc hn)
          free := hld.step_free hc hlt
          count := hld.step_count hc
          exact := fun he hnd hnone => (hld.step_exact hc hlt he hnd hnone).congr
            (fun n hn => (hT n hn).mpr) hwalk }

end Risky321.Kernel
