/-
Risky321.Kernel.KvmemTheorems — what the page table code computes.

A page table is a partial function from virtual pages to leaf entries
(`walk`). `Tree` says that the root and the second-level tables found from
it are pages with the roles `root a` and `table a n` of one address space.
Over a `Tree`, `kvmem_map_page` is the update of that function at one
page (`kvmemMapPage_spec`), and an operation on another address space
leaves it alone (`Tree.grow`, `walk_grow`).
-/
import Risky321.Kernel.Ownership
import Risky321.Lib.Bits

namespace Risky321.Kernel

open Risky321.Lib

/-! ## §1 Entries -/

theorem pteAddr_eq {e : Nat} (he : e < 2 ^ 32) : pteAddr e = e / 1024 % 2 ^ 20 * 4096 := by
  unfold pteAddr
  rw [and_0xFFFFFC00 he, Nat.shiftLeft_eq]
  omega

/-- An entry that holds the page `p` and flags gives the page back. -/
theorem pteAddr_entry {p f : Nat} (hp : p % 4096 = 0) (hlt : p < 2 ^ 32) (hf : f < 1024) :
    pteAddr (p / 4 + f) = p := by
  rw [pteAddr_eq (by omega)]
  omega

theorem pteAddr_lt (e : Nat) : pteAddr e < 2 ^ 32 := Nat.mod_lt _ (by norm_num)

theorem vpn1_eq {va : Nat} (h : va < 2 ^ 32) : vpn1 va = va / 4096 / 1024 := by
  unfold vpn1
  rw [and_0x3FF, Nat.shiftRight_eq_div_pow]
  omega

theorem vpn0_eq (va : Nat) : vpn0 va = va / 4096 % 1024 := by
  unfold vpn0
  rw [and_0x3FF, Nat.shiftRight_eq_div_pow]

/-- The entry `kvmem_map_page` and `kvmem_copy_pagetable` make for a second-level table. -/
theorem tableEntry_eq {p : Nat} (hp : p % 4096 = 0) (hlt : p < 2 ^ 32) :
    ((p &&& 0xFFFFF000) >>> 2) ||| pteV = p / 4 + 1 := by
  rw [and_0xFFFFF000 hlt, Nat.shiftRight_eq_div_pow, show p / 4096 * 4096 = p by omega]
  exact or_low (n := 10) (by omega) (by norm_num)

/-- The entry `kvmem_map_page` makes for a page. -/
theorem leafEntry_eq {pa flags : Nat} (hlt : pa < 2 ^ 32) (hf : flags < 1024) :
    ((pa &&& 0xFFFFF000) >>> 2) ||| flags ||| pteV = pa / 4096 * 1024 + (flags ||| 1) := by
  rw [and_0xFFFFF000 hlt, Nat.shiftRight_eq_div_pow, Nat.or_assoc]
  have hor : flags ||| 1 < 2 ^ 10 := Nat.or_lt_two_pow (by omega) (by norm_num)
  rw [show pa / 4096 * 4096 / 2 ^ 2 = pa / 4096 * 1024 by omega]
  exact or_low (n := 10) (by omega) hor

/-! ## §2 Tables as functions -/

variable {L : Layout} {k k' : KState} {g g' : Ghost} {a b : Space} {r v : Nat}
  {m m' : Mem} {S : Role → Prop} {W : Nat → Prop}

/-- The entry of the root `r` for the second-level table `n` is valid. -/
def HasTable (m : Mem) (r n : Nat) : Prop := load32 m (r + 4 * n) &&& pteV ≠ 0

/-- The second-level table `n` below the root `r`. -/
def tableOf (m : Mem) (r n : Nat) : Nat := pteAddr (load32 m (r + 4 * n))

instance (m : Mem) (r n : Nat) : Decidable (HasTable m r n) :=
  inferInstanceAs (Decidable (¬ _))

theorem walk_of_hasTable (h : HasTable m r (v / 1024)) :
    walk m r v =
      (let f := load32 m (tableOf m r (v / 1024) + 4 * (v % 1024))
       if f &&& pteV ≠ 0 then some f else none) := by
  unfold walk tableOf
  exact if_pos h

theorem walk_of_not_hasTable (h : ¬ HasTable m r (v / 1024)) : walk m r v = none := by
  unfold walk
  exact if_neg h

/-- A `walk` reads one word of the root and one of the table below it. -/
theorem walk_congr (h1 : load32 m' (r + 4 * (v / 1024)) = load32 m (r + 4 * (v / 1024)))
    (h2 : HasTable m r (v / 1024) →
      load32 m' (tableOf m r (v / 1024) + 4 * (v % 1024)) =
        load32 m (tableOf m r (v / 1024) + 4 * (v % 1024))) :
    walk m' r v = walk m r v := by
  have hiff : HasTable m' r (v / 1024) ↔ HasTable m r (v / 1024) := by
    simp only [HasTable, h1]
  have ht : tableOf m' r (v / 1024) = tableOf m r (v / 1024) := by
    simp only [tableOf, h1]
  by_cases h : HasTable m r (v / 1024)
  · rw [walk_of_hasTable h, walk_of_hasTable (hiff.mpr h), ht, h2 h]
  · rw [walk_of_not_hasTable h, walk_of_not_hasTable (fun h' => h (hiff.mp h'))]

/-- The tables found from the root `r` belong to the address space `a`. -/
structure Tree (m : Mem) (g : Ghost) (a : Space) (r : Nat) : Prop where
  root : g.ow r = .root a
  table : ∀ n < 1024, HasTable m r n → g.ow (tableOf m r n) = .table a n

/-- The pages user programs see through the root `r` are leaves of `a`. -/
def Leaves (m : Mem) (g : Ghost) (a : Space) (r : Nat) : Prop :=
  ∀ v < 2 ^ 20, ∀ e, walk m r v = some e → e &&& pteU ≠ 0 → g.ow (pteAddr e) = .leaf a v

/-- Two memories that agree on the tables of `a` have the same entries. -/
theorem Tree.load_eq (ht : Tree m g a r)
    (hm : ∀ p, (g.ow p).TableOf a → ∀ x, x + 4 ≤ 4096 → load32 m' (p + x) = load32 m (p + x)) :
    (∀ n < 1024, load32 m' (r + 4 * n) = load32 m (r + 4 * n)) ∧
    (∀ n < 1024, HasTable m r n → ∀ j < 1024,
      load32 m' (tableOf m r n + 4 * j) = load32 m (tableOf m r n + 4 * j)) := by
  constructor
  · intro n hn
    exact hm r (by rw [ht.root]; rfl) (4 * n) (by omega)
  · intro n hn hT j hj
    exact hm _ (by rw [ht.table n hn hT]; rfl) (4 * j) (by omega)

theorem Tree.walk_eq (ht : Tree m g a r)
    (hm : ∀ p, (g.ow p).TableOf a → ∀ x, x + 4 ≤ 4096 → load32 m' (p + x) = load32 m (p + x))
    (hv : v < 2 ^ 20) : walk m' r v = walk m r v := by
  obtain ⟨h1, h2⟩ := ht.load_eq hm
  exact walk_congr (h1 _ (by omega)) (fun hT => h2 _ (by omega) hT _ (by omega))

theorem Tree.congr (ht : Tree m g a r)
    (hm : ∀ p, (g.ow p).TableOf a → ∀ x, x + 4 ≤ 4096 → load32 m' (p + x) = load32 m (p + x))
    (how : ∀ p, (g.ow p).TableOf a → g'.ow p = g.ow p) : Tree m' g' a r := by
  obtain ⟨h1, -⟩ := ht.load_eq hm
  refine ⟨by rw [how r (by rw [ht.root]; rfl), ht.root], ?_⟩
  intro n hn hT
  have hT' : HasTable m r n := by
    simpa only [HasTable, h1 n hn] using hT
  have heq : tableOf m' r n = tableOf m r n := by
    simp only [tableOf, h1 n hn]
  rw [heq, how _ (by rw [ht.table n hn hT']; rfl), ht.table n hn hT']

theorem Role.TableOf.ne_free {c : Role} (h : c.TableOf a) : c ≠ .free := by
  cases c <;> simp_all [Role.TableOf]

theorem Role.TableOf.ne_lost {c : Role} (h : c.TableOf a) : c ≠ .lost := by
  cases c <;> simp_all [Role.TableOf]

/-- The tables of an address space outside `S` are untouched by a `Grow`. -/
theorem Grow.load_table (hg : Grow L S W k g k' g') (hk : KmemInv L k g)
    (hS : ∀ c, S c → ¬ c.TableOf a) :
    ∀ p, (g.ow p).TableOf a → ∀ x, x + 4 ≤ 4096 →
      load32 k'.mem (p + x) = load32 k.mem (p + x) :=
  fun p hp _ hx => hg.load_page (hk.page p hp.ne_lost) hp.ne_free (fun hs => hS _ hs hp) hx

theorem Tree.grow (ht : Tree k.mem g a r) (hk : KmemInv L k g) (hg : Grow L S W k g k' g')
    (hS : ∀ c, S c → ¬ c.TableOf a) : Tree k'.mem g' a r :=
  ht.congr (hg.load_table hk hS) (fun p hp => hg.keep p hp.ne_free)

theorem Tree.walk_grow (ht : Tree k.mem g a r) (hk : KmemInv L k g)
    (hg : Grow L S W k g k' g') (hS : ∀ c, S c → ¬ c.TableOf a) (hv : v < 2 ^ 20) :
    walk k'.mem r v = walk k.mem r v :=
  ht.walk_eq (hg.load_table hk hS) hv

theorem Leaves.grow (hl : Leaves k.mem g a r) (ht : Tree k.mem g a r) (hk : KmemInv L k g)
    (hg : Grow L S W k g k' g') (hS : ∀ c, S c → ¬ c.TableOf a) : Leaves k'.mem g' a r := by
  intro v hv e he hu
  rw [ht.walk_grow hk hg hS hv] at he
  have h := hl v hv e he hu
  rw [hg.keep _ (by rw [h]; exact nofun), h]

/-! ## §3 Mapping a page -/

variable {p va pa flags : Nat}

/-- Allocating a page changes no table. -/
theorem Tree.alloc (ht : Tree k.mem g a r) (hk : KmemInv L k g)
    (h : kmemAlloc k = some (p, k')) (c : Role) : Tree k'.mem (g.pop c) a r :=
  ht.congr (fun q hq _ hx => kmemAlloc_load hk h (hk.page q hq.ne_lost) hq.ne_free hx)
    (fun q hq => (kmemAlloc_pop_ow hk h c).2 q hq.ne_free)

theorem Tree.walk_alloc (ht : Tree k.mem g a r) (hk : KmemInv L k g)
    (h : kmemAlloc k = some (p, k')) (hv : v < 2 ^ 20) : walk k'.mem r v = walk k.mem r v :=
  ht.walk_eq (fun q hq _ hx => kmemAlloc_load hk h (hk.page q hq.ne_lost) hq.ne_free hx) hv

theorem hasTable_alloc (ht : Tree k.mem g a r) (hk : KmemInv L k g)
    (h : kmemAlloc k = some (p, k')) {n : Nat} (hn : n < 1024) :
    load32 k'.mem (r + 4 * n) = load32 k.mem (r + 4 * n) := by
  have hr : (g.ow r).TableOf a := by rw [ht.root]; rfl
  exact kmemAlloc_load hk h (hk.page r hr.ne_lost) hr.ne_free (by omega)

/-- Entering the cleared page `p` as second-level table `n`, where there was none. -/
theorem Tree.enter (ht : Tree m g a r) (hr : L.IsPage r) (hp : L.IsPage p) {n : Nat}
    (hn : n < 1024) (hnone : ¬ HasTable m r n) (how : g.ow p = .table a n)
    (hpages : ∀ q, (g.ow q).TableOf a → L.IsPage q)
    (hz : ∀ x, x + 4 ≤ 4096 → load32 m (p + x) = 0) :
    let m' := store32 m (r + 4 * n) (p / 4 + 1)
    Tree m' g a r ∧ tableOf m' r n = p ∧ (∀ i < 1024, i ≠ n → tableOf m' r i = tableOf m r i) ∧
      (∀ i < 1024, HasTable m' r i ↔ i = n ∨ HasTable m r i) ∧
      ∀ v < 2 ^ 20, walk m' r v = walk m r v := by
  intro m'
  have hb := hp.bounds
  have hsame : load32 m' (r + 4 * n) = p / 4 + 1 := load32_store32_of_lt (by omega)
  have hother : ∀ i < 1024, i ≠ n → load32 m' (r + 4 * i) = load32 m (r + 4 * i) :=
    fun i _ hi => load32_store32_disjoint m _ (by omega)
  have hpage : ∀ q, L.IsPage q → q ≠ r → ∀ x, x + 4 ≤ 4096 →
      load32 m' (q + x) = load32 m (q + x) := by
    intro q hq hqr x hx
    have := hq.apart hr hqr
    exact load32_store32_disjoint m _ (by omega)
  have htable : tableOf m' r n = p := by
    simp only [tableOf, hsame]
    exact pteAddr_entry hp.2.2 (by omega) (by omega)
  have hhas : HasTable m' r n := by
    simp only [HasTable, hsame]
    rw [and_one_ne_zero]
    have := hp.2.2
    omega
  have hiff : ∀ i < 1024, HasTable m' r i ↔ i = n ∨ HasTable m r i := by
    intro i hi
    by_cases hin : i = n
    · rw [hin]
      simp [hhas]
    · simp only [HasTable, hother i hi hin, hin, false_or]
  have htother : ∀ i < 1024, i ≠ n → tableOf m' r i = tableOf m r i := by
    intro i hi hin
    simp only [tableOf, hother i hi hin]
  refine ⟨⟨ht.root, ?_⟩, htable, htother, hiff, ?_⟩
  · intro i hi hT
    by_cases hin : i = n
    · rw [hin, htable, how]
    · have hT' : HasTable m r i := ((hiff i hi).mp hT).resolve_left hin
      rw [htother i hi hin]
      exact ht.table i hi hT'
  · intro v hv
    by_cases hin : v / 1024 = n
    · -- below the new table every entry is still zero
      have hpr : p ≠ r := by
        intro heq
        rw [heq, ht.root] at how
        exact absurd how nofun
      have hnone' : walk m r v = none := walk_of_not_hasTable (by rw [hin]; exact hnone)
      rw [hnone', walk_of_hasTable (by rw [hin]; exact hhas), hin, htable,
        hpage p hp hpr _ (by omega), hz _ (by omega)]
      simp
    · refine walk_congr (hother _ (by omega) hin) (fun hT => ?_)
      have hq := ht.table _ (by omega) hT
      have hqr : tableOf m r (v / 1024) ≠ r := by
        intro heq
        rw [heq, ht.root] at hq
        exact absurd hq nofun
      exact hpage _ (hpages _ (by rw [hq]; rfl)) hqr _ (by omega)

/-- The roles after the first half of `kvmem_map_page`. -/
def Ghost.needTable (g : Ghost) (m : Mem) (a : Space) (r n : Nat) : Ghost :=
  if HasTable m r n then g else g.pop (.table a n)

/-- What the first half of `kvmem_map_page` leaves: the table for `va` is
there, and no translation has changed. -/
theorem kvmemNeedTable_spec (hk : KmemInv L k g) (ht : Tree k.mem g a r) (hva : va < 2 ^ 32)
    {n : Nat} (hn : va / 4096 / 1024 = n) (h : kvmemNeedTable k r va = some k')
    (hg' : g' = g.needTable k.mem a r n) :
    KmemInv L k' g' ∧ Tree k'.mem g' a r ∧ Grow L (Role.TableOf a) W k g k' g' ∧
      (∀ i < 1024, HasTable k'.mem r i ↔ i = n ∨ HasTable k.mem r i) ∧
      (∀ v < 2 ^ 20, walk k'.mem r v = walk k.mem r v) := by
  unfold Ghost.needTable at hg'
  have hrow : (g.ow r).TableOf a := by rw [ht.root]; rfl
  have hrpage : L.IsPage r := hk.page r hrow.ne_lost
  unfold kvmemNeedTable at h
  rw [vpn1_eq hva, hn] at h
  have hn : n < 1024 := by omega
  by_cases hT : HasTable k.mem r n
  · rw [if_pos hT] at hg'
    simp only at h
    rw [if_neg (show ¬ k.load (r + 4 * n) &&& pteV = 0 from hT), Option.some.injEq] at h
    rw [hg', ← h]
    refine ⟨hk, ht, Grow.refl k g, ?_, fun _ _ => rfl⟩
    intro i hi
    constructor
    · exact .inr
    · intro hor
      obtain rfl | hi := hor
      · exact hT
      · exact hi
  · rw [if_neg hT] at hg'
    have hz : k.load (r + 4 * n) &&& pteV = 0 := not_not.mp hT
    simp only at h
    rw [if_pos hz] at h
    cases hal : kmemAlloc k with
    | none => simp [hal] at h
    | some pk =>
      obtain ⟨p, k1⟩ := pk
      simp only [hal, KState.load, KState.store, Option.some.injEq] at h
      obtain ⟨hl, hp, hpfree, -, hinv⟩ := kmemAlloc_spec hk hal
      obtain ⟨hpow, hkeep⟩ := kmemAlloc_pop_ow hk hal (.table a n)
      have hb := hp.bounds
      have hk1 : KmemInv L k1 (g.pop (.table a n)) := hinv _ nofun
      have ht1 : Tree k1.mem (g.pop (.table a n)) a r := ht.alloc hk hal _
      have hT1 : ¬ HasTable k1.mem r n := by
        simpa only [HasTable, hasTable_alloc ht hk hal hn] using hT
      have hr1 : ((g.pop (.table a n)).ow r).TableOf a := by rw [ht1.root]; rfl
      rw [load32_store32_of_lt (by omega), load32_store32_of_lt, tableEntry_eq hp.2.2 (by omega),
        store32_store32, store32_store32] at h
      swap
      · rw [and_0xFFFFF000 (by omega)]
        omega
      have hk'eq : k' = k1.store (r + 4 * n) (p / 4 + 1) := h.symm
      obtain ⟨ht', -, -, hiff, hwalk⟩ := ht1.enter hrpage hp hn hT1 hpow
        (fun q hq => hk1.page q hq.ne_lost) (fun x hx => kmemAlloc_load_new hk hal hx)
      rw [hg', hk'eq]
      refine ⟨hk1.store hrpage hr1.ne_free (by omega), ht', ?_, ?_, ?_⟩
      · exact (kmemAlloc_grow hk hal (by rfl)).trans (store_grow hrpage hr1 (by omega))
      · intro i hi
        rw [show HasTable k.mem r i ↔ HasTable k1.mem r i by
          simp only [HasTable, hasTable_alloc ht hk hal hi]]
        exact hiff i hi
      · intro v hv
        rw [← ht.walk_alloc hk hal hv]
        exact hwalk v hv

/-- Storing a valid entry into an existing second-level table. -/
theorem Tree.setEntry (ht : Tree m g a r) (hr : L.IsPage r) {n j e : Nat} (hn : n < 1024)
    (hj : j < 1024) (hT : HasTable m r n) (hpages : ∀ q, (g.ow q).TableOf a → L.IsPage q)
    (he : e < 2 ^ 32) (hvalid : e &&& pteV ≠ 0) :
    let m' := store32 m (tableOf m r n + 4 * j) e
    Tree m' g a r ∧ (∀ i < 1024, HasTable m' r i ↔ HasTable m r i) ∧
      (∀ i < 1024, tableOf m' r i = tableOf m r i) ∧
      ∀ v < 2 ^ 20, walk m' r v = if v = 1024 * n + j then some e else walk m r v := by
  intro m'
  have how := ht.table n hn hT
  have htpage : L.IsPage (tableOf m r n) := hpages _ (by rw [how]; rfl)
  have hroot : ∀ i < 1024, load32 m' (r + 4 * i) = load32 m (r + 4 * i) := by
    intro i hi
    have hne : r ≠ tableOf m r n := by
      intro heq
      rw [← heq, ht.root] at how
      exact absurd how nofun
    have := hr.apart htpage hne
    exact load32_store32_disjoint m _ (by omega)
  have hiff : ∀ i < 1024, HasTable m' r i ↔ HasTable m r i := by
    intro i hi
    simp only [HasTable, hroot i hi]
  have htab : ∀ i < 1024, tableOf m' r i = tableOf m r i := by
    intro i hi
    simp only [tableOf, hroot i hi]
  refine ⟨⟨ht.root, ?_⟩, hiff, htab, ?_⟩
  · intro i hi hTi
    rw [htab i hi]
    exact ht.table i hi ((hiff i hi).mp hTi)
  · intro v hv
    by_cases hvn : v = 1024 * n + j
    · have hn' : v / 1024 = n := by omega
      have hj' : v % 1024 = j := by omega
      rw [if_pos hvn, walk_of_hasTable (by rw [hn']; exact (hiff n hn).mpr hT), hn', hj',
        htab n hn, load32_store32_of_lt he]
      exact if_pos hvalid
    · rw [if_neg hvn]
      refine walk_congr (hroot _ (by omega)) (fun hTv => ?_)
      by_cases hvn' : v / 1024 = n
      · rw [hvn']
        exact load32_store32_disjoint m _ (by omega)
      · have howv := ht.table _ (by omega) hTv
        have hne : tableOf m r (v / 1024) ≠ tableOf m r n := by
          intro heq
          rw [heq, how, Role.table.injEq] at howv
          exact hvn' howv.2.symm
        have := (hpages _ (by rw [howv]; rfl)).apart htpage hne
        exact load32_store32_disjoint m _ (by omega)

/-- `kvmem_map_page` is the update of the page table, as a function, at the
page of `va`; it takes a page only when the second-level table is missing. -/
theorem kvmemMapPage_spec (hk : KmemInv L k g) (ht : Tree k.mem g a r) (hva : va < 2 ^ 32)
    (hpa : pa < 2 ^ 32) (hf : flags < 1024) {n : Nat} (hn : va / 4096 / 1024 = n)
    (h : kvmemMapPage k r va pa flags = some k') (hg' : g' = g.needTable k.mem a r n) :
    KmemInv L k' g' ∧ Tree k'.mem g' a r ∧ Grow L (Role.TableOf a) W k g k' g' ∧
      (∀ i < 1024, HasTable k'.mem r i ↔ i = n ∨ HasTable k.mem r i) ∧
      (∀ v < 2 ^ 20, walk k'.mem r v =
        if v = va / 4096 then some (pa / 4096 * 1024 + (flags ||| 1)) else walk k.mem r v) := by
  unfold kvmemMapPage at h
  cases hneed : kvmemNeedTable k r va with
  | none => simp [hneed] at h
  | some k1 =>
    obtain ⟨hk1, ht1, hgrow, hiff, hwalk⟩ := kvmemNeedTable_spec (W := W) hk ht hva hn hneed hg'
    have hn1024 : n < 1024 := by omega
    have hT : HasTable k1.mem r n := (hiff n hn1024).mpr (.inl rfl)
    have hrow : (g'.ow r).TableOf a := by rw [ht1.root]; rfl
    have htow := ht1.table n hn1024 hT
    have htrole : (g'.ow (tableOf k1.mem r n)).TableOf a := by rw [htow]; rfl
    have htpage := hk1.page _ htrole.ne_lost
    simp only [hneed, KState.load, KState.store, Option.some.injEq, vpn1_eq hva, vpn0_eq, hn] at h
    rw [show pteAddr (load32 k1.mem (r + 4 * n)) = tableOf k1.mem r n from rfl] at h
    have hmask : pa &&& 0xFFFFF000 < 2 ^ 32 := by
      rw [and_0xFFFFF000 hpa]
      omega
    rw [load32_store32_of_lt hmask, leafEntry_eq hpa hf, store32_store32] at h
    have hk' : k' = k1.store (tableOf k1.mem r n + 4 * (va / 4096 % 1024))
        (pa / 4096 * 1024 + (flags ||| 1)) := h.symm
    have hor : flags ||| 1 < 2 ^ 10 := Nat.or_lt_two_pow (by omega) (by norm_num)
    have hodd : (flags ||| 1) % 2 = 1 := by
      rw [← Nat.and_one_is_mod, Nat.and_or_distrib_right]
      have := Nat.and_one_is_mod flags
      obtain h0 | h1 : flags % 2 = 0 ∨ flags % 2 = 1 := by omega
      · rw [this, h0]
        rfl
      · rw [this, h1]
        rfl
    have hvalid : (pa / 4096 * 1024 + (flags ||| 1)) &&& pteV ≠ 0 := by
      rw [and_one_ne_zero]
      omega
    obtain ⟨ht', hiff', -, hwalk'⟩ := ht1.setEntry (hk1.page r hrow.ne_lost) hn1024
      (show va / 4096 % 1024 < 1024 by omega) hT (fun q hq => hk1.page q hq.ne_lost)
      (by omega) hvalid
    rw [hk']
    refine ⟨hk1.store htpage htrole.ne_free (by omega), ht', ?_, ?_, ?_⟩
    · exact hgrow.trans (store_grow htpage htrole (by omega))
    · intro i hi
      rw [← hiff i hi]
      exact hiff' i hi
    · intro v hv
      have := hwalk' v hv
      rw [show 1024 * n + va / 4096 % 1024 = va / 4096 by omega, hwalk v hv] at this
      exact this

/-- `kvmem_map_page` only fails when it needs a table and no page is free. -/
theorem kvmemMapPage_none (hk : KmemInv L k g) {n : Nat} (hva : va < 2 ^ 32)
    (hn : va / 4096 / 1024 = n) (h : kvmemMapPage k r va pa flags = none) :
    ¬ HasTable k.mem r n ∧ g.free = [] := by
  unfold kvmemMapPage at h
  cases hneed : kvmemNeedTable k r va with
  | some k1 => simp [hneed] at h
  | none =>
    unfold kvmemNeedTable at hneed
    simp only at hneed
    rw [vpn1_eq hva, hn] at hneed
    by_cases hT : HasTable k.mem r n
    · rw [if_neg (show ¬ k.load (r + 4 * n) &&& pteV = 0 from hT)] at hneed
      exact absurd hneed nofun
    · refine ⟨hT, ?_⟩
      cases hal : kmemAlloc k with
      | none => exact kmemAlloc_none hk hal
      | some pk =>
        rw [if_pos (show k.load (r + 4 * n) &&& pteV = 0 from not_not.mp hT)] at hneed
        simp [hal] at hneed

theorem kvmemMapPage_of_nil (hk : KmemInv L k g) {n : Nat} (hva : va < 2 ^ 32)
    (hn : va / 4096 / 1024 = n) (hno : ¬ HasTable k.mem r n) (hnil : g.free = []) :
    kvmemMapPage k r va pa flags = none := by
  have hslot : k.load (r + 4 * vpn1 va) &&& pteV = 0 := by
    rw [vpn1_eq hva, hn]
    exact not_not.mp hno
  unfold kvmemMapPage kvmemNeedTable
  simp only [if_pos hslot, kmemAlloc_of_nil hk hnil]

/-! ## §4 The kernel's part of an address space -/

/-- The number of pages below `__free_ram_end`, and of the tables that map them. -/
def Layout.kernelPages (L : Layout) : Nat := L.freeRamEnd / 4096
def Layout.kernelTables (L : Layout) : Nat := (L.kernelPages + 1023) / 1024

theorem Layout.kernelPages_lt (L : Layout) : L.kernelPages ≤ 0xC0000 := by
  have := L.end_le
  simp only [Layout.kernelPages, Layout.freeRamEnd, vaUserBase] at *
  omega

/-- After `i` rounds of `mapKernel`: the first `i` pages are mapped to
themselves, nothing else is, and the tables were the first free pages. -/
structure KernelMapped (L : Layout) (W : Nat → Prop) (a : Space) (r : Nat) (k : KState) (g : Ghost)
    (i : Nat) (k' : KState) (g' : Ghost) : Prop where
  ghost : g' = g.popMany (.table a) ((i + 1023) / 1024)
  kmem : KmemInv L k' g'
  tree : Tree k'.mem g' a r
  grow : Grow L (Role.TableOf a) W k g k' g'
  hasTable : ∀ n < 1024, HasTable k'.mem r n ↔ 1024 * n < i
  walk_eq : ∀ v < 2 ^ 20, walk k'.mem r v = if v < i then some (v * 1024 + 15) else none

theorem KernelMapped.step {i : Nat} {k'' : KState} {g' : Ghost}
    (hi : KernelMapped L W a r k g i k' g') (hlt : i < 2 ^ 20)
    (h : kvmemMapPage k' r (i * pageSize) (i * pageSize) (pteR ||| pteW ||| pteX) = some k'') :
    ∃ g'', KernelMapped L W a r k g (i + 1) k'' g'' := by
  have hn : i * pageSize / 4096 / 1024 = i / 1024 := by
    rw [pageSize]
    omega
  have hpage : i * pageSize / 4096 = i := by
    rw [pageSize]
    omega
  have h32 : i * pageSize < 2 ^ 32 := by
    rw [pageSize]
    omega
  have hflags : pteR ||| pteW ||| pteX = 14 := rfl
  rw [hflags] at h
  refine ⟨g'.needTable k'.mem a r (i / 1024), ?_⟩
  obtain ⟨hk2, ht2, hg2, hiff, hwalk⟩ :=
    kvmemMapPage_spec (W := W) hi.kmem hi.tree h32 h32 (by norm_num) hn h rfl
  have hT := hi.hasTable (i / 1024) (by omega)
  refine ⟨?_, hk2, ht2, hi.grow.trans hg2, ?_, ?_⟩
  · -- a table is taken exactly when `i` is the first page below it
    unfold Ghost.needTable
    by_cases hmod : i % 1024 = 0
    · rw [if_neg (by rw [hT]; omega), hi.ghost,
        show (i + 1023) / 1024 = i / 1024 by omega,
        show (i + 1 + 1023) / 1024 = i / 1024 + 1 by omega, Ghost.popMany]
    · rw [if_pos (hT.mpr (by omega)), hi.ghost,
        show (i + 1 + 1023) / 1024 = (i + 1023) / 1024 by omega]
  · intro n hn'
    rw [hiff n hn', hi.hasTable n hn']
    omega
  · intro v hv
    rw [hwalk v hv, hpage, hi.walk_eq v hv]
    by_cases hvi : v = i
    · rw [if_pos hvi, if_pos (by omega), hvi]
      rfl
    · rw [if_neg hvi]
      by_cases hlt' : v < i
      · rw [if_pos hlt', if_pos (by omega)]
      · rw [if_neg hlt', if_neg (by omega)]

/-- Before the first round: a root without tables. -/
theorem kernelMapped_zero (hk : KmemInv L k g) (ht : Tree k.mem g a r)
    (hempty : ∀ n < 1024, ¬ HasTable k.mem r n) : KernelMapped L W a r k g 0 k g := by
  refine ⟨rfl, hk, ht, Grow.refl k g, ?_, ?_⟩
  · intro n hn
    simp [hempty n hn]
  · intro v hv
    rw [walk_of_not_hasTable (hempty _ (by omega))]
    simp

/-- Every run of rounds of `mapKernel` that did not fail. -/
theorem mapKernel_rounds (hk : KmemInv L k g) (ht : Tree k.mem g a r)
    (hempty : ∀ n < 1024, ¬ HasTable k.mem r n) {i : Nat} (hi : i ≤ 2 ^ 20)
    (h : forLoop i (fun i k => kvmemMapPage k r (i * pageSize) (i * pageSize)
      (pteR ||| pteW ||| pteX)) k = some k') : ∃ g', KernelMapped L W a r k g i k' g' := by
  refine forLoop_inv (I := fun i t => ∃ g', KernelMapped L W a r k g i t g') h
    ⟨g, kernelMapped_zero hk ht hempty⟩ ?_
  intro j t t' hj hI hstep
  obtain ⟨g1, hg1⟩ := hI
  exact hg1.step (by omega) hstep

/-- `mapKernel` below an empty root. -/
theorem mapKernel_spec (hk : KmemInv L k g) (ht : Tree k.mem g a r)
    (hempty : ∀ n < 1024, ¬ HasTable k.mem r n) (h : mapKernel L k r = some k') :
    ∃ g', KernelMapped L W a r k g L.kernelPages k' g' := by
  have hle := L.kernelPages_lt
  exact mapKernel_rounds hk ht hempty (by omega) h

/-- `mapKernel` fails only for lack of pages for the tables. -/
theorem mapKernel_none (hk : KmemInv L k g) (ht : Tree k.mem g a r)
    (hempty : ∀ n < 1024, ¬ HasTable k.mem r n) (h : mapKernel L k r = none) :
    g.free.length < L.kernelTables := by
  have hle := L.kernelPages_lt
  obtain ⟨i, t, hi, hrun, hfail⟩ := forLoop_none h
  have hi' : i < L.kernelPages := hi
  obtain ⟨g1, hg1⟩ := mapKernel_rounds (W := fun _ => False) hk ht hempty (by omega) hrun
  have hn : i * pageSize / 4096 / 1024 = i / 1024 := by
    rw [pageSize]
    omega
  obtain ⟨hT, hnil⟩ := kvmemMapPage_none hg1.kmem (by rw [pageSize]; omega) hn hfail
  have hlen : (g.free.drop ((i + 1023) / 1024)).length = 0 := by
    rw [← Ghost.popMany_free, ← hg1.ghost, hnil]
    rfl
  rw [List.length_drop] at hlen
  rw [hg1.hasTable _ (by omega)] at hT
  unfold Layout.kernelTables
  omega

end Risky321.Kernel
