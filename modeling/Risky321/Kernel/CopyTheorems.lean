/-
Risky321.Kernel.CopyTheorems — `kvmem_copy_pagetable` copies the function a
page table is.

The copy walks the parent's tables in the order of the virtual pages.
`CopyInv` is the invariant of its two loops: below the page reached, the
child's entry is related to the parent's by `CopyEntry` (missing stays
missing, a kernel page is shared, a user page is replaced by a fresh page
with the same flags and bytes); above, the child has nothing. The pages it
takes are counted exactly, so that the copy fails only when fewer are free.
-/
import Risky321.Kernel.ImageTheorems

namespace Risky321.Kernel

open Risky321.Lib

variable {L : Layout} {k k' k'' : KState} {g g' g'' : Ghost} {a b : Space}
  {s d i j n p v : Nat} {m m' : Mem} {S : Role → Prop} {W : Nat → Prop}

/-! ## §1 What is counted -/

/-- A page that user mode can see. -/
def isUser (o : Option Nat) : Bool :=
  match o with
  | some e => e &&& pteU != 0
  | none => false

/-- The second-level tables among the first `n`, and the user pages below page `n`. -/
def tableCount (m : Mem) (s n : Nat) : Nat :=
  (List.range n).countP (fun i => decide (HasTable m s i))

def userCount (m : Mem) (s n : Nat) : Nat :=
  (List.range n).countP (fun v => isUser (walk m s v))

theorem tableCount_succ (m : Mem) (s n : Nat) :
    tableCount m s (n + 1) = tableCount m s n + if HasTable m s n then 1 else 0 := by
  simp [tableCount, List.range_succ, List.countP_append, List.countP_singleton]

theorem userCount_succ (m : Mem) (s n : Nat) :
    userCount m s (n + 1) = userCount m s n + if isUser (walk m s n) then 1 else 0 := by
  simp [userCount, List.range_succ, List.countP_append, List.countP_singleton]

/-- A missing table has no pages below it. -/
theorem userCount_skip (hT : ¬ HasTable m s i) (hj : j ≤ 1024) :
    userCount m s (1024 * i + j) = userCount m s (1024 * i) := by
  induction j with
  | zero => rfl
  | succ j ih =>
    rw [← Nat.add_assoc, userCount_succ, ih (by omega),
      walk_of_not_hasTable (by rwa [show (1024 * i + j) / 1024 = i by omega])]
    rfl

/-! ## §2 One entry -/

/-- The child's entry `o'` for page `v` is the copy of the parent's `o`. -/
def CopyEntry (L : Layout) (a : Space) (v : Nat) (k : KState) (g : Ghost) (o : Option Nat)
    (k' : KState) (g' : Ghost) (o' : Option Nat) : Prop :=
  match o with
  | none => o' = none
  | some e =>
    if e &&& pteU = 0 then
      o' = some e
    else
      ∃ p, L.IsPage p ∧ g.ow p = .free ∧ g'.ow p = .leaf a v ∧ o' = some (p / 4 + e % 1024) ∧
        (L.IsPage (pteAddr e) → g.ow (pteAddr e) ≠ .free → ¬ (g.ow (pteAddr e)).Of a →
          ∀ x < 4096, k'.mem (p + x) = k.mem (pteAddr e + x))

/-- The roles a step of the copy at page `v` touches. -/
def Role.CopyOf (a : Space) (v : Nat) (c : Role) : Prop := c.TableOf a ∨ c = .leaf a v

theorem Role.CopyOf.of {c : Role} (h : c.CopyOf a v) : c.Of a := by
  obtain h | h := h
  · exact h.of
  · rw [h]
    rfl

/-- A step that does not touch the page taken for `u` leaves a finished entry alone. -/
theorem CopyEntry.frame {o o' : Option Nat} {u : Nat} (hc : CopyEntry L a u k g o k' g' o')
    (hg : Grow L S W k' g' k'' g'') (hS : ¬ S (.leaf a u)) :
    CopyEntry L a u k g o k'' g'' o' := by
  unfold CopyEntry at *
  cases o with
  | none => exact hc
  | some e =>
    simp only at hc ⊢
    by_cases hU : e &&& pteU = 0
    · rw [if_pos hU] at hc ⊢
      exact hc
    · rw [if_neg hU] at hc ⊢
      obtain ⟨p, hp, hfree, how, ho', hbytes⟩ := hc
      have hnf : g'.ow p ≠ .free := by rw [how]; exact nofun
      have hnS : ¬ S (g'.ow p) := by
        rw [how]
        exact hS
      refine ⟨p, hp, hfree, by rw [hg.keep p hnf, how], ho', ?_⟩
      intro h1 h2 h3 x hx
      rw [hg.page_mem p hp hnf hnS x hx, hbytes h1 h2 h3 x hx]

theorem CopyEntry.grow {o o' : Option Nat} {u : Nat} (hc : CopyEntry L a u k g o k' g' o')
    (hne : u ≠ v) (hg : Grow L (Role.CopyOf a v) W k' g' k'' g'') :
    CopyEntry L a u k g o k'' g'' o' := by
  refine hc.frame hg ?_
  intro h
  obtain h | h := h
  · exact h
  · rw [Role.leaf.injEq] at h
    exact hne h.2

/-- The entry the code builds for a duplicated page. -/
theorem copiedEntry {e : Nat} (hp : L.IsPage p) :
    (e &&& 0x3FF) ||| ((p &&& 0xFFFFF000) >>> 2) = p / 4 + e % 1024 := by
  have hb := hp.bounds
  have h3 := hp.2.2
  rw [and_0x3FF, and_0xFFFFF000 (by omega), Nat.shiftRight_eq_div_pow, Nat.or_comm,
    show p / 4096 * 4096 / 2 ^ 2 = p / 4 by omega]
  exact or_low (n := 10) (by omega) (by omega)

/-- After the first `i` entries of the root and all pages below `n`. -/
structure CopyInv (L : Layout) (a : Space) (s d : Nat) (k : KState) (g : Ghost) (i n : Nat)
    (k' : KState) (g' : Ghost) : Prop where
  kmem : KmemInv L k' g'
  tree : Tree k'.mem g' a d
  grow : Grow L (Role.Of a) (fun _ => False) k g k' g'
  hasTable : ∀ t < 1024, HasTable k'.mem d t ↔ t < i ∧ HasTable k.mem s t
  entry : ∀ v < 2 ^ 20, v < n → CopyEntry L a v k g (walk k.mem s v) k' g' (walk k'.mem d v)
  rest : ∀ v < 2 ^ 20, n ≤ v → walk k'.mem d v = none
  free : g'.free = g.free.drop (tableCount k.mem s i + userCount k.mem s n)
  page : ∀ t < i, t < 1024 → HasTable k.mem s t →
    tableOf k'.mem d t ∈ (g.free.drop (tableCount k.mem s t + userCount k.mem s (1024 * t))).head?
  trap : ∀ p, g'.ow p = .trapframe a → g.ow p = .trapframe a
  exact : Exact k.mem g a d → Exact k'.mem g' a d

/-- What the copy relies on: the parent's tables belong to another address space. -/
structure CopySource (L : Layout) (a b : Space) (s : Nat) (k : KState) (g : Ghost) : Prop where
  kmem : KmemInv L k g
  tree : Tree k.mem g b s
  ne : a ≠ b

theorem CopySource.not_of (hs : CopySource L a b s k g) {c : Role} (hc : c.TableOf b) :
    ¬ c.Of a := fun h => hs.ne (h.unique hc.of)

/-- The parent's tables read as before, all through the copy. -/
theorem CopySource.load_eq (hs : CopySource L a b s k g)
    (hg : Grow L (Role.Of a) (fun _ => False) k g k' g') :
    (∀ n < 1024, load32 k'.mem (s + 4 * n) = load32 k.mem (s + 4 * n)) ∧
    (∀ n < 1024, HasTable k.mem s n → ∀ j < 1024,
      load32 k'.mem (tableOf k.mem s n + 4 * j) = load32 k.mem (tableOf k.mem s n + 4 * j)) :=
  hs.tree.load_eq (hg.load_table hs.kmem (fun _ hc ht => hs.not_of ht hc))

/-- The table entered for `t` is the page that was first on the free list then. -/
theorem CopyInv.tableOf_eq {n' i' : Nat} (h : CopyInv L a s d k g i n k' g')
    (h' : CopyInv L a s d k g i' n' k'' g'') {t : Nat} (ht : t < i) (ht' : t < i')
    (hlt : t < 1024) (hT : HasTable k.mem s t) : tableOf k''.mem d t = tableOf k'.mem d t :=
  Option.mem_unique (h'.page t ht' hlt hT) (h.page t ht hlt hT)

/-- The entry of the next page is done. -/
theorem CopyInv.advance {o : Option Nat} (h : CopyInv L a s d k g i n k' g')
    (hk : KmemInv L k'' g'') (ht : Tree k''.mem g'' a d)
    (hg : Grow L (Role.CopyOf a n) (fun _ => False) k' g' k'' g'')
    (hiff : ∀ t < 1024, HasTable k''.mem d t ↔ HasTable k'.mem d t)
    (htab : ∀ t < 1024, tableOf k''.mem d t = tableOf k'.mem d t)
    (hw : ∀ v < 2 ^ 20, walk k''.mem d v = if v = n then o else walk k'.mem d v)
    (hentry : CopyEntry L a n k g (walk k.mem s n) k'' g'' o)
    (hfree : g''.free = g'.free.drop (if isUser (walk k.mem s n) then 1 else 0))
    (hexact : Exact k'.mem g' a d → Exact k''.mem g'' a d) :
    CopyInv L a s d k g i (n + 1) k'' g'' where
  kmem := hk
  tree := ht
  grow := h.grow.trans (hg.mono (fun _ hc => hc.of) (fun _ hw => hw))
  hasTable := by
    intro t ht
    rw [hiff t ht, h.hasTable t ht]
  entry := by
    intro v hv hvn
    rw [hw v hv]
    by_cases hvn' : v = n
    · rw [if_pos hvn', hvn']
      exact hentry
    · rw [if_neg hvn']
      exact (h.entry v hv (by omega)).grow hvn' hg
  rest := by
    intro v hv hle
    rw [hw v hv, if_neg (by omega)]
    exact h.rest v hv (by omega)
  free := by
    rw [hfree, h.free, List.drop_drop, userCount_succ, Nat.add_assoc]
  page := by
    intro t hti hlt hT
    rw [htab t hlt]
    exact h.page t hti hlt hT
  trap := fun p hp => h.trap p (hg.role_back nofun (fun hc => hc.elim id nofun) hp)
  exact := fun he => hexact (h.exact he)

/-- An entry that is no user page, at a page that had none. -/
theorem Exact.skip {o : Option Nat} (he : Exact m g a d) (hnone : walk m d v = none)
    (hiff : ∀ t < 1024, HasTable m' d t ↔ HasTable m d t)
    (hw : ∀ u < 2 ^ 20, walk m' d u = if u = v then o else walk m d u) : Exact m' g a d := by
  refine ⟨he.unique, ?_, ?_⟩
  · intro p n hp
    obtain ⟨hn, hT⟩ := he.table p n hp
    exact ⟨hn, (hiff n hn).mpr hT⟩
  · intro p u hp
    obtain ⟨hu, e, hwe, hU⟩ := he.leaf p u hp
    refine ⟨hu, e, ?_, hU⟩
    rw [hw u hu, if_neg (fun heq => ?_), hwe]
    rw [heq, hnone] at hwe
    exact absurd hwe nofun

/-- What the stores of one entry do: the entry is set, and a page taken for a
user page holds the bytes of the parent's. -/
theorem kvmemCopyEntry_cases {src dst e : Nat} (hk : KmemInv L k g)
    (hsrc : L.IsPage src) (hdst : L.IsPage dst) (hne : src ≠ dst) (hsfree : g.ow src ≠ .free)
    (hdfree : g.ow dst ≠ .free) (hj : j < 1024) (he : load32 k.mem (src + 4 * j) = e)
    (h : kvmemCopyEntry src dst j k = some k') :
    (e &&& pteV = 0 ∧ k' = k) ∨
    (e &&& pteV ≠ 0 ∧ e &&& pteU = 0 ∧ k' = k.store (dst + 4 * j) e) ∨
    (e &&& pteV ≠ 0 ∧ e &&& pteU ≠ 0 ∧ ∃ p ka, kmemAlloc (k.store (dst + 4 * j) e) = some (p, ka) ∧
      L.IsPage p ∧
      k' = { ka with
        mem := copy (store32 ka.mem (dst + 4 * j) (p / 4 + e % 1024)) p (pteAddr e) 4096 }) := by
  have hapart := hsrc.apart hdst hne
  have helt : e < 2 ^ 32 := by
    rw [← he]
    exact load32_lt _ _
  have hst : ∀ (m : Mem) v, load32 (store32 m (dst + 4 * j) v) (src + 4 * j) =
      load32 m (src + 4 * j) := fun m v => load32_store32_disjoint m v (by omega)
  unfold kvmemCopyEntry at h
  by_cases hV : e &&& pteV = 0
  · rw [if_neg (by rw [KState.load, he]; exact not_not.mpr hV), Option.some.injEq] at h
    exact .inl ⟨hV, h.symm⟩
  · right
    rw [if_pos (by rw [KState.load, he]; exact hV)] at h
    simp only [KState.load, KState.store_mem, hst, he] at h
    by_cases hU : e &&& pteU = 0
    · rw [if_neg (not_not.mpr hU), Option.some.injEq] at h
      exact .inl ⟨hV, hU, h.symm⟩
    · right
      rw [if_pos hU] at h
      have hk1 : KmemInv L (k.store (dst + 4 * j) e) g := hk.store hdst hdfree (by omega)
      cases hal : kmemAlloc (k.store (dst + 4 * j) e) with
      | none => simp [hal] at h
      | some pk =>
        obtain ⟨p, ka⟩ := pk
        obtain ⟨-, hp, -, -, -⟩ := kmemAlloc_spec hk1 hal
        have hb := hp.bounds
        have hlsrc : load32 ka.mem (src + 4 * j) = e := by
          rw [kmemAlloc_load hk1 hal hsrc hsfree (by omega), KState.store_mem, hst, he]
        have hldst : load32 ka.mem (dst + 4 * j) = e := by
          rw [kmemAlloc_load hk1 hal hdst hdfree (by omega), KState.store_mem,
            load32_store32_of_lt helt]
        have hlow : e &&& 0x000003FF < 2 ^ 32 := by
          rw [and_0x3FF]
          omega
        rw [hal] at h
        simp only [KState.store, hlsrc, hldst, load32_store32_of_lt hlow, copiedEntry hp,
          store32_store32, Option.some.injEq] at h
        exact ⟨hV, hU, p, ka, rfl, hp, h.symm⟩

/-- The entry for a duplicated page is valid and holds that page. -/
theorem copiedEntry_valid {e : Nat} (hp : L.IsPage p) (hV : e &&& pteV ≠ 0) (hU : e &&& pteU ≠ 0) :
    p / 4 + e % 1024 < 2 ^ 32 ∧ (p / 4 + e % 1024) &&& pteV ≠ 0 ∧
      (p / 4 + e % 1024) &&& pteU ≠ 0 ∧ pteAddr (p / 4 + e % 1024) = p := by
  have hb := hp.bounds
  have h3 := hp.2.2
  refine ⟨by omega, ?_, ?_, pteAddr_entry h3 (by omega) (by omega)⟩
  · rw [and_one_ne_zero] at hV ⊢
    omega
  · rw [and_sixteen_ne_zero] at hU ⊢
    omega

/-- A page is taken for the user page at `1024 * i + j`, entered and filled. -/
theorem duplicatePage_spec {e q : Nat} {ka : KState} (hk : KmemInv L k g)
    (ht : Tree k.mem g a d) (hi : i < 1024) (hj : j < 1024) (hT : HasTable k.mem d i)
    (hV : e &&& pteV ≠ 0) (hU : e &&& pteU ≠ 0) (hal : kmemAlloc k = some (p, ka))
    (hk' : k' = { ka with
      mem := copy (store32 ka.mem (tableOf k.mem d i + 4 * j) (p / 4 + e % 1024)) p q 4096 })
    (hg' : g' = g.pop (.leaf a (1024 * i + j))) :
    KmemInv L k' g' ∧ Tree k'.mem g' a d ∧
      Grow L (Role.CopyOf a (1024 * i + j)) (fun _ => False) k g k' g' ∧
      (∀ t < 1024, HasTable k'.mem d t ↔ HasTable k.mem d t) ∧
      (∀ t < 1024, tableOf k'.mem d t = tableOf k.mem d t) ∧
      (∀ v < 2 ^ 20, walk k'.mem d v =
        if v = 1024 * i + j then some (p / 4 + e % 1024) else walk k.mem d v) ∧
      g.ow p = .free ∧ g'.ow p = .leaf a (1024 * i + j) ∧
      (L.IsPage q → g.ow q ≠ .free → ¬ (g.ow q).Of a →
        ∀ x < 4096, k'.mem (p + x) = k.mem (q + x)) := by
  obtain ⟨-, hp, hfree, -, hinv⟩ := kmemAlloc_spec hk hal
  obtain ⟨hpow, hkeep⟩ := kmemAlloc_pop_ow hk hal (.leaf a (1024 * i + j))
  rw [← hg'] at hpow hkeep
  obtain ⟨helt, heV, -, -⟩ := copiedEntry_valid hp hV hU
  have hka : KmemInv L ka g' := by
    rw [hg']
    exact hinv _ nofun
  have hta : Tree ka.mem g' a d := by
    rw [hg']
    exact ht.alloc hk hal _
  have hla : ∀ t < 1024, load32 ka.mem (d + 4 * t) = load32 k.mem (d + 4 * t) :=
    fun t ht' => hasTable_alloc ht hk hal ht'
  have hTa : HasTable ka.mem d i := by
    rw [HasTable, hla i hi]
    exact hT
  have htab : tableOf ka.mem d i = tableOf k.mem d i := by
    rw [tableOf, tableOf, hla i hi]
  have htow := hta.table i hi hTa
  have htrole : (g'.ow (tableOf ka.mem d i)).TableOf a := by rw [htow]; rfl
  have htpage := hka.page _ htrole.ne_lost
  have hdrole : (g'.ow d).TableOf a := by rw [hta.root]; rfl
  obtain ⟨ht2, hiff2, htab2, hw2⟩ := hta.setEntry (hka.page _ hdrole.ne_lost) hi hj hTa
    (fun q hq => hka.page q hq.ne_lost) helt heV
  rw [← htab] at hk'
  have hk2 := hka.store (v := p / 4 + e % 1024) htpage htrole.ne_free
    (show 4 * j + 4 ≤ 4096 by omega)
  -- the copy only writes to the new page
  have hm : ∀ x, x < p ∨ p + 4096 ≤ x → k'.mem x =
      store32 ka.mem (tableOf ka.mem d i + 4 * j) (p / 4 + e % 1024) x := by
    intro x hx
    rw [hk']
    exact copy_outside _ _ _ _ (by omega)
  have hg2 : Grow L (Role.CopyOf a (1024 * i + j)) (fun _ => False) k g
      (ka.store (tableOf ka.mem d i + 4 * j) (p / 4 + e % 1024)) g' := by
    rw [hg']
    refine (kmemAlloc_grow hk hal (.inr rfl)).trans (store_grow htpage ?_ (by omega))
    rw [← hg']
    exact .inl htrole
  have hg3 : Grow L (fun c => c = Role.leaf a (1024 * i + j)) (fun _ => False)
      (ka.store (tableOf ka.mem d i + 4 * j) (p / 4 + e % 1024)) g' k' g' := by
    rw [show k' = { ka.store (tableOf ka.mem d i + 4 * j) (p / 4 + e % 1024) with
      mem := k'.mem } by rw [hk']; rfl]
    exact write_grow hp hpow hm
  have hS : ∀ c, c = Role.leaf a (1024 * i + j) → ¬ c.TableOf a := by
    intro c hc h
    rw [hc] at h
    exact h
  have hgrow := hg2.trans (hg3.mono (fun _ hc => .inr hc) (fun _ h => h))
  have hl3 : ∀ t < 1024, load32 k'.mem (d + 4 * t) =
      load32 (store32 ka.mem (tableOf ka.mem d i + 4 * j) (p / 4 + e % 1024)) (d + 4 * t) :=
    (ht2.load_eq (hg3.load_table hk2 hS)).1
  refine ⟨?_, ht2.grow hk2 hg3 hS, hgrow, ?_, ?_, ?_, hfree, hpow, ?_⟩
  · rw [show k' = { ka.store (tableOf ka.mem d i + 4 * j) (p / 4 + e % 1024) with
      mem := k'.mem } by rw [hk']; rfl]
    exact hk2.write hp (by rw [hpow]; exact nofun) hm
  · intro t ht'
    rw [HasTable, hl3 t ht']
    refine (hiff2 t ht').trans ?_
    rw [HasTable, HasTable, hla t ht']
  · intro t ht'
    rw [tableOf, hl3 t ht']
    refine (htab2 t ht').trans ?_
    rw [tableOf, tableOf, hla t ht']
  · intro v hv
    rw [ht2.walk_grow hk2 hg3 hS hv]
    have := hw2 v hv
    rw [ht.walk_alloc hk hal hv] at this
    exact this
  · intro hsrc hsfree hsof x hx
    have hsp : q ≠ p := fun heq => hsfree (heq ▸ hfree)
    have hdisj := hp.apart hsrc hsp.symm
    have hnS : ¬ (g.ow q).CopyOf a (1024 * i + j) := fun hc => hsof hc.of
    rw [hk']
    simp only
    rw [copy_inside _ hdisj hx]
    exact hg2.page_mem q hsrc hsfree hnS x hx

/-- The two tables of an inner loop: different pages, and the parent's reads as at first. -/
theorem CopyInv.tables (hs : CopySource L a b s k g) (h : CopyInv L a s d k g n v k' g')
    (hi : i < 1024) (hj : j < 1024) (hin : i < n) (hT : HasTable k.mem s i) :
    HasTable k'.mem d i ∧ g'.ow (tableOf k.mem s i) = .table b i ∧
      g'.ow (tableOf k'.mem d i) = .table a i ∧ tableOf k.mem s i ≠ tableOf k'.mem d i ∧
      load32 k'.mem (tableOf k.mem s i + 4 * j) = load32 k.mem (tableOf k.mem s i + 4 * j) := by
  have hTd : HasTable k'.mem d i := (h.hasTable i hi).mpr ⟨hin, hT⟩
  have hsow := hs.tree.table i hi hT
  have hsow' : g'.ow (tableOf k.mem s i) = .table b i := by
    rw [h.grow.keep _ (by rw [hsow]; exact nofun), hsow]
  have hdow := h.tree.table i hi hTd
  refine ⟨hTd, hsow', hdow, ?_, (hs.load_eq h.grow).2 i hi hT j hj⟩
  intro heq
  rw [heq, hdow, Role.table.injEq] at hsow'
  exact hs.ne hsow'.1

/-- A walk through a table that is there ends at its entry. -/
theorem walk_entry (hT : HasTable m s i) (hj : j < 1024) :
    walk m s (1024 * i + j) =
      if load32 m (tableOf m s i + 4 * j) &&& pteV ≠ 0 then
        some (load32 m (tableOf m s i + 4 * j)) else none := by
  have hdiv : (1024 * i + j) / 1024 = i := by omega
  have hmod : (1024 * i + j) % 1024 = j := by omega
  rw [walk_of_hasTable (by rw [hdiv]; exact hT), hdiv, hmod]

/-- One entry. -/
theorem CopyInv.entryStep (hs : CopySource L a b s k g)
    (h : CopyInv L a s d k g (i + 1) (1024 * i + j) k' g') (hi : i < 1024) (hj : j < 1024)
    (hT : HasTable k.mem s i)
    (hrun : kvmemCopyEntry (tableOf k.mem s i) (tableOf k'.mem d i) j k' = some k'') :
    ∃ g'', CopyInv L a s d k g (i + 1) (1024 * i + j + 1) k'' g'' := by
  have hn : 1024 * i + j < 2 ^ 20 := by omega
  obtain ⟨hTd, hsow', hdow, hne, hload⟩ := h.tables hs hi hj (by omega) hT
  have hdrole : (g'.ow (tableOf k'.mem d i)).TableOf a := by rw [hdow]; rfl
  have hspage := h.kmem.page_of hsow' nofun
  have hdpage := h.kmem.page_of hdow nofun
  have hpages : ∀ q, (g'.ow q).TableOf a → L.IsPage q := fun q hq => h.kmem.page q hq.ne_lost
  have hroot : (g'.ow d).TableOf a := by rw [h.tree.root]; rfl
  have hwalk := walk_entry (j := j) hT hj
  have hnone : walk k'.mem d (1024 * i + j) = none := h.rest _ hn (le_refl _)
  have helt := load32_lt k.mem (tableOf k.mem s i + 4 * j)
  generalize load32 k.mem (tableOf k.mem s i + 4 * j) = e at *
  obtain ⟨hV, rfl⟩ | ⟨hV, hU, rfl⟩ | ⟨hV, hU, p, ka, hal, hp, rfl⟩ :=
    kvmemCopyEntry_cases h.kmem hspage hdpage hne (by rw [hsow']; exact nofun)
      hdrole.ne_free hj hload hrun
  · rw [if_neg (not_not.mpr hV)] at hwalk
    refine ⟨g', h.advance (o := none) h.kmem h.tree (Grow.refl _ _) (fun _ _ => Iff.rfl)
      (fun _ _ => rfl) ?_ ?_ ?_ id⟩
    · intro v hv
      by_cases hvn : v = 1024 * i + j
      · rw [if_pos hvn, hvn, hnone]
      · rw [if_neg hvn]
    · rw [hwalk]
      rfl
    · rw [hwalk]
      rfl
  · rw [if_pos hV] at hwalk
    obtain ⟨ht', hiff, htab, hw⟩ := h.tree.setEntry (h.kmem.page _ hroot.ne_lost) hi hj hTd hpages
      helt hV
    refine ⟨g', h.advance (o := some e) (h.kmem.store hdpage hdrole.ne_free (by omega)) ht'
      (store_grow hdpage (.inl hdrole) (by omega)) hiff htab hw ?_ ?_ ?_⟩
    · rw [hwalk, CopyEntry, if_pos hU]
    · rw [hwalk]
      simp [isUser, hU]
    · exact fun he => he.skip hnone hiff hw
  · rw [if_pos hV] at hwalk
    -- the first store is overwritten once the new page is known
    have hk1 : KmemInv L (k'.store (tableOf k'.mem d i + 4 * j) e) g' :=
      h.kmem.store hdpage hdrole.ne_free (by omega)
    obtain ⟨ht1, hiff1, htab1, hw1⟩ := h.tree.setEntry (h.kmem.page _ hroot.ne_lost) hi hj hTd
      hpages helt hV
    have hstore : Grow L (Role.CopyOf a (1024 * i + j)) (fun _ => False) k' g'
        (k'.store (tableOf k'.mem d i + 4 * j) e) g' :=
      store_grow hdpage (.inl hdrole) (by omega)
    obtain ⟨hk2, ht2, hg2, hiff2, htab2, hw2, hfree2, how2, hbytes⟩ :=
      duplicatePage_spec (e := e) (q := pteAddr e) (j := j) hk1 ht1 hi hj
        ((hiff1 i hi).mpr hTd) hV hU hal rfl rfl
    simp only [KState.store_mem, htab1 i hi] at hk2 ht2 hg2 hiff2 htab2 hw2 hbytes
    have hw : ∀ v < 2 ^ 20, walk (copy (store32 ka.mem (tableOf k'.mem d i + 4 * j)
        (p / 4 + e % 1024)) p (pteAddr e) 4096) d v =
        if v = 1024 * i + j then some (p / 4 + e % 1024) else walk k'.mem d v := by
      intro v hv
      rw [hw2 v hv]
      by_cases hvn : v = 1024 * i + j
      · rw [if_pos hvn, if_pos hvn]
      · rw [if_neg hvn, if_neg hvn]
        exact (hw1 v hv).trans (if_neg hvn)
    have hiff := fun t ht' => (hiff2 t ht').trans (hiff1 t ht')
    refine ⟨_, h.advance (o := some (p / 4 + e % 1024)) hk2 ht2 (hstore.trans hg2) hiff
      (fun t ht' => (htab2 t ht').trans (htab1 t ht')) hw ?_ ?_ ?_⟩
    · rw [hwalk, CopyEntry]
      simp only
      rw [if_neg hU]
      have hpfree : g.ow p = .free := by
        by_contra hpne
        exact hpne (by rw [← h.grow.keep p hpne, hfree2])
      refine ⟨p, hp, hpfree, how2, rfl, ?_⟩
      intro hsrc hsfree hsof x hx
      have hsow := h.grow.keep _ hsfree
      rw [hbytes hsrc (by rw [hsow]; exact hsfree) (by rw [hsow]; exact hsof) x hx]
      exact (h.grow.trans (hstore.mono (fun _ hc => hc.of) (fun _ hw => hw))).page_mem _ hsrc
        hsfree hsof x hx
    · rw [hwalk, Ghost.pop_free]
      simp [isUser, hU]
    · intro he
      have hdiv : (1024 * i + j) / 1024 = i := by omega
      have hneed : g'.pop (.leaf a (1024 * i + j)) =
          (g'.pop (.leaf a (1024 * i + j))).needTable k'.mem a d ((1024 * i + j) / 1024) := by
        rw [Ghost.needTable, hdiv, if_pos hTd]
      rw [hneed]
      refine he.load hn hnone (m := k'.mem) (fun _ _ => Iff.rfl) ?_ ?_
        ((hw _ hn).trans (if_pos rfl)) (copiedEntry_valid hp hV hU).2.2.1
      · intro t ht'
        rw [hiff t ht']
        constructor
        · exact .inr
        · intro hor
          obtain rfl | hor := hor
          · rwa [hdiv]
          · exact hor
      · intro u hu hne'
        rw [hw u hu, if_neg hne']

/-! ## §3 The two loops -/

/-- Below a missing table there is nothing to copy. -/
theorem CopyInv.skipTable (h : CopyInv L a s d k g i (1024 * i) k' g')
    (hT : ¬ HasTable k.mem s i) : CopyInv L a s d k g (i + 1) (1024 * (i + 1)) k' g' := by
  have hwalk : ∀ v, v / 1024 = i → walk k.mem s v = none := by
    intro v hv
    exact walk_of_not_hasTable (by rw [hv]; exact hT)
  refine ⟨h.kmem, h.tree, h.grow, ?_, ?_, ?_, ?_, ?_, h.trap, h.exact⟩
  · intro t ht
    rw [h.hasTable t ht]
    constructor
    · intro hlt
      exact ⟨by omega, hlt.2⟩
    · intro hlt
      refine ⟨?_, hlt.2⟩
      by_contra hge
      exact hT (by rw [show i = t by omega]; exact hlt.2)
  · intro v hv hlt
    by_cases hvi : v < 1024 * i
    · exact h.entry v hv hvi
    · rw [hwalk v (by omega), h.rest v hv (by omega)]
      rfl
  · intro v hv hle
    exact h.rest v hv (by omega)
  · rw [h.free, tableCount_succ, if_neg hT, Nat.mul_succ, userCount_skip hT (le_refl _)]
    rfl
  · intro t ht hlt hTt
    refine h.page t ?_ hlt hTt
    by_contra hge
    exact hT (by rw [show i = t by omega]; exact hTt)

/-- A second-level table is allocated and entered. -/
theorem CopyInv.enterTable {ka : KState} (h : CopyInv L a s d k g i (1024 * i) k' g')
    (hi : i < 1024) (hT : HasTable k.mem s i) (hal : kmemAlloc k' = some (p, ka)) :
    CopyInv L a s d k g (i + 1) (1024 * i) (ka.store (d + 4 * i) (p / 4 + 1))
      (g'.pop (.table a i)) ∧ tableOf (ka.store (d + 4 * i) (p / 4 + 1)).mem d i = p := by
  obtain ⟨hl, hp, hpfree, -, hinv⟩ := kmemAlloc_spec h.kmem hal
  obtain ⟨hpow, hkeep⟩ := kmemAlloc_pop_ow h.kmem hal (.table a i)
  have hka := hinv (.table a i) (by simp)
  have hta := h.tree.alloc h.kmem hal (.table a i)
  have hla : ∀ t < 1024, load32 ka.mem (d + 4 * t) = load32 k'.mem (d + 4 * t) :=
    fun t ht => hasTable_alloc h.tree h.kmem hal ht
  have hdrole : ((g'.pop (.table a i)).ow d).TableOf a := by rw [hta.root]; rfl
  have hdpage := hka.page _ hdrole.ne_lost
  have hno : ¬ HasTable k'.mem d i := by
    rw [h.hasTable i hi]
    intro hlt
    omega
  obtain ⟨ht2, htab, htother, hiff, hw⟩ := hta.enter hdpage hp hi
    (by rw [HasTable, hla i hi]; exact hno) hpow (fun q hq => hka.page q hq.ne_lost)
    (fun x hx => kmemAlloc_load_new h.kmem hal hx)
  have hgrow : Grow L (Role.TableOf a) (fun _ => False) k' g'
      (ka.store (d + 4 * i) (p / 4 + 1)) (g'.pop (.table a i)) :=
    (kmemAlloc_grow (S := Role.TableOf a) h.kmem hal (r := .table a i) rfl).trans
      (store_grow hdpage hdrole (by omega))
  have hiff' : ∀ t < 1024, HasTable (ka.store (d + 4 * i) (p / 4 + 1)).mem d t ↔
      t = i ∨ HasTable k'.mem d t := by
    intro t ht
    refine (hiff t ht).trans ?_
    rw [HasTable, HasTable, hla t ht]
  have hw' : ∀ v < 2 ^ 20, walk (ka.store (d + 4 * i) (p / 4 + 1)).mem d v = walk k'.mem d v :=
    fun v hv => (hw v hv).trans (h.tree.walk_alloc h.kmem hal hv)
  refine ⟨⟨hka.store hdpage hdrole.ne_free (by omega), ht2,
    h.grow.trans (hgrow.mono (fun _ hc => hc.of) (fun _ h => h)), ?_, ?_, ?_, ?_, ?_,
    fun q hq => h.trap q (hgrow.role_back (by simp) id hq), ?_⟩, htab⟩
  · intro t ht
    rw [hiff' t ht, h.hasTable t ht]
    constructor
    · intro hor
      obtain rfl | hlt := hor
      · exact ⟨by omega, hT⟩
      · exact ⟨by omega, hlt.2⟩
    · intro hlt
      by_cases hti : t = i
      · exact .inl hti
      · exact .inr ⟨by omega, hlt.2⟩
  · intro v hv hlt
    rw [hw' v hv]
    exact (h.entry v hv hlt).frame hgrow id
  · intro v hv hle
    rw [hw' v hv]
    exact h.rest v hv hle
  · rw [Ghost.pop_free, h.free, List.tail_drop, tableCount_succ, if_pos hT]
    congr 1
    omega
  · intro t ht hlt hTt
    by_cases hti : t = i
    · rw [hti, KState.store_mem, htab, ← h.free, hl]
      rfl
    · rw [show tableOf (ka.store (d + 4 * i) (p / 4 + 1)).mem d t = tableOf ka.mem d t from
        htother t hlt hti, tableOf, hla t hlt]
      exact h.page t (by omega) hlt hTt
  · intro he
    have hex := h.exact he
    have hneed : g'.pop (.table a i) = g'.needTable k'.mem a d i := by
      rw [Ghost.needTable, if_neg hno]
    rw [hneed]
    refine exact_needTable hi hex.unique hex.table ?_ hiff'
    intro q v hq
    obtain ⟨hv, e, hwe, hU⟩ := hex.leaf q v hq
    exact ⟨hv, e, by rw [hw' v hv, hwe], hU⟩

/-- Every run of rounds of the inner loop that did not fail. -/
theorem CopyInv.entries (hs : CopySource L a b s k g)
    (h : CopyInv L a s d k g (i + 1) (1024 * i) k' g') (hi : i < 1024) (hT : HasTable k.mem s i)
    (htab : tableOf k'.mem d i = p) (hj : j ≤ 1024)
    (hrun : forLoop j (kvmemCopyEntry (tableOf k.mem s i) p) k' = some k'') :
    ∃ g'', CopyInv L a s d k g (i + 1) (1024 * i + j) k'' g'' := by
  refine forLoop_inv (I := fun j t => ∃ g1, CopyInv L a s d k g (i + 1) (1024 * i + j) t g1) hrun
    ⟨g', h⟩ ?_
  intro j t t' hj' hI hstep
  obtain ⟨g1, hg1⟩ := hI
  have heq := h.tableOf_eq hg1 (by omega) (by omega) hi hT
  rw [htab] at heq
  exact hg1.entryStep hs hi (by omega) hT (by rw [heq]; exact hstep)

/-- The stores that enter a table come down to one. -/
theorem enterTable_stores {ka : KState} {slot : Nat} (hp : L.IsPage p) :
    (let k1 := ka.store slot p
     let k2 := k1.store slot (k1.load slot &&& 0xFFFFF000)
     k2.store slot ((k2.load slot >>> 2) ||| pteV)) = ka.store slot (p / 4 + 1) := by
  have hb := hp.bounds
  have hmask : p &&& 0xFFFFF000 < 2 ^ 32 := by
    rw [and_0xFFFFF000 (by omega)]
    omega
  simp only [KState.store, KState.load, store32_store32]
  rw [load32_store32_of_lt (v := p) (by omega), load32_store32_of_lt hmask,
    tableEntry_eq hp.2.2 (by omega)]

/-- One entry of the root. -/
theorem CopyInv.tableStep (hs : CopySource L a b s k g)
    (h : CopyInv L a s d k g i (1024 * i) k' g') (hi : i < 1024)
    (hrun : kvmemCopyTable s d i k' = some k'') :
    ∃ g'', CopyInv L a s d k g (i + 1) (1024 * (i + 1)) k'' g'' := by
  have hload : load32 k'.mem (s + 4 * i) = load32 k.mem (s + 4 * i) :=
    (hs.load_eq h.grow).1 i hi
  unfold kvmemCopyTable at hrun
  simp only [KState.load, hload] at hrun
  by_cases hT : HasTable k.mem s i
  · rw [if_pos (show load32 k.mem (s + 4 * i) &&& pteV ≠ 0 from hT)] at hrun
    cases hal : kmemAlloc k' with
    | none => simp [hal] at hrun
    | some pk =>
      obtain ⟨p, ka⟩ := pk
      obtain ⟨hent, htab⟩ := h.enterTable hi hT hal
      obtain ⟨-, hp, -, -, -⟩ := kmemAlloc_spec h.kmem hal
      rw [hal] at hrun
      have hloop : forLoop 1024 (kvmemCopyEntry (tableOf k.mem s i) p)
          (ka.store (d + 4 * i) (p / 4 + 1)) = some k'' := by
        rw [← enterTable_stores hp]
        exact hrun
      exact hent.entries hs hi hT htab (by omega) hloop
  · rw [if_neg (show ¬ load32 k.mem (s + 4 * i) &&& pteV ≠ 0 from hT), Option.some.injEq] at hrun
    rw [← hrun]
    exact ⟨g', h.skipTable hT⟩

/-- Before the first entry: the new root is empty. -/
theorem copyInv_zero (hk : KmemInv L k g) (ht : Tree k.mem g a d)
    (hempty : ∀ t < 1024, ¬ HasTable k.mem d t) : CopyInv L a s d k g 0 0 k g where
  kmem := hk
  tree := ht
  grow := Grow.refl k g
  hasTable := by
    intro t ht
    simp [hempty t ht]
  entry := fun v _ hv => absurd hv (Nat.not_lt_zero v)
  rest := fun v hv _ => walk_of_not_hasTable (hempty _ (by omega))
  free := rfl
  page := fun t ht => absurd ht (Nat.not_lt_zero t)
  trap := fun _ h => h
  exact := id

/-- Every run of rounds of the outer loop that did not fail. -/
theorem copyInv_rounds (hs : CopySource L a b s k g) (ht : Tree k.mem g a d)
    (hempty : ∀ t < 1024, ¬ HasTable k.mem d t) (hi : i ≤ 1024)
    (h : forLoop i (kvmemCopyTable s d) k = some k') :
    ∃ g', CopyInv L a s d k g i (1024 * i) k' g' := by
  refine forLoop_inv (I := fun i t => ∃ g1, CopyInv L a s d k g i (1024 * i) t g1) h
    ⟨g, copyInv_zero hs.kmem ht hempty⟩ ?_
  intro j t t' hj hI hstep
  obtain ⟨g1, hg1⟩ := hI
  exact hg1.tableStep hs (by omega) hstep

/-! ## §4 Failure -/

theorem tableCount_mono (h : i ≤ j) : tableCount m s i ≤ tableCount m s j :=
  (List.range_sublist.mpr h).countP_le

theorem userCount_mono (h : i ≤ j) : userCount m s i ≤ userCount m s j :=
  (List.range_sublist.mpr h).countP_le

/-- The pages a copy of the tables below `s` takes, besides the root. -/
def copyCount (m : Mem) (s : Nat) : Nat := tableCount m s 1024 + userCount m s (2 ^ 20)

/-- An entry fails only when it is a user page and no page is free. -/
theorem kvmemCopyEntry_none {src dst e : Nat} (hk : KmemInv L k g) (hsrc : L.IsPage src)
    (hdst : L.IsPage dst) (hne : src ≠ dst) (hdfree : g.ow dst ≠ .free) (hj : j < 1024)
    (he : load32 k.mem (src + 4 * j) = e) (h : kvmemCopyEntry src dst j k = none) :
    e &&& pteV ≠ 0 ∧ e &&& pteU ≠ 0 ∧ g.free = [] := by
  have hapart := hsrc.apart hdst hne
  have hst : ∀ (m : Mem) v, load32 (store32 m (dst + 4 * j) v) (src + 4 * j) =
      load32 m (src + 4 * j) := fun m v => load32_store32_disjoint m v (by omega)
  unfold kvmemCopyEntry at h
  by_cases hV : e &&& pteV = 0
  · rw [if_neg (by rw [KState.load, he]; exact not_not.mpr hV)] at h
    cases h
  · rw [if_pos (by rw [KState.load, he]; exact hV)] at h
    simp only [KState.load, KState.store_mem, hst, he] at h
    by_cases hU : e &&& pteU = 0
    · rw [if_neg (not_not.mpr hU)] at h
      cases h
    · rw [if_pos hU] at h
      refine ⟨hV, hU, ?_⟩
      have hk1 : KmemInv L (k.store (dst + 4 * j) e) g := hk.store hdst hdfree (by omega)
      cases hal : kmemAlloc (k.store (dst + 4 * j) e) with
      | none => exact kmemAlloc_none hk1 hal
      | some pk =>
        rw [hal] at h
        cases h

theorem CopyInv.entry_none (hs : CopySource L a b s k g)
    (h : CopyInv L a s d k g (i + 1) (1024 * i + j) k' g') (hi : i < 1024) (hj : j < 1024)
    (hT : HasTable k.mem s i)
    (hrun : kvmemCopyEntry (tableOf k.mem s i) (tableOf k'.mem d i) j k' = none) :
    g.free.length < copyCount k.mem s := by
  obtain ⟨-, hsow', hdow, hne, hload⟩ := h.tables hs hi hj (by omega) hT
  have hspage := h.kmem.page_of hsow' nofun
  have hdpage := h.kmem.page_of hdow nofun
  obtain ⟨hV, hU, hnil⟩ := kvmemCopyEntry_none h.kmem hspage hdpage hne
    (by rw [hdow]; exact nofun) hj hload hrun
  have huser : isUser (walk k.mem s (1024 * i + j)) = true := by
    rw [walk_entry hT hj, if_pos hV]
    simpa [isUser] using hU
  have hfree := h.free
  rw [hnil] at hfree
  have hlen := List.drop_eq_nil_iff.mp hfree.symm
  have hsucc := userCount_succ k.mem s (1024 * i + j)
  rw [if_pos huser] at hsucc
  have h1 : tableCount k.mem s (i + 1) ≤ tableCount k.mem s 1024 := tableCount_mono (by omega)
  have h2 : userCount k.mem s (1024 * i + j + 1) ≤ userCount k.mem s (2 ^ 20) :=
    userCount_mono (by omega)
  unfold copyCount
  omega

/-- The copy of the tables fails only for lack of pages. -/
theorem copyTables_none (hs : CopySource L a b s k g) (ht : Tree k.mem g a d)
    (hempty : ∀ t < 1024, ¬ HasTable k.mem d t)
    (h : forLoop 1024 (kvmemCopyTable s d) k = none) : g.free.length < copyCount k.mem s := by
  obtain ⟨i, t, hi, hrun, hfail⟩ := forLoop_none h
  obtain ⟨g1, hg1⟩ := copyInv_rounds hs ht hempty (by omega) hrun
  have hload : load32 t.mem (s + 4 * i) = load32 k.mem (s + 4 * i) := (hs.load_eq hg1.grow).1 i hi
  unfold kvmemCopyTable at hfail
  simp only [KState.load, hload] at hfail
  by_cases hT : HasTable k.mem s i
  · rw [if_pos (show load32 k.mem (s + 4 * i) &&& pteV ≠ 0 from hT)] at hfail
    cases hal : kmemAlloc t with
    | none =>
      have hnil := kmemAlloc_none hg1.kmem hal
      have hfree := hg1.free
      rw [hnil] at hfree
      have hlen := List.drop_eq_nil_iff.mp hfree.symm
      have hsucc := tableCount_succ k.mem s i
      rw [if_pos hT] at hsucc
      have h1 : tableCount k.mem s (i + 1) ≤ tableCount k.mem s 1024 := tableCount_mono (by omega)
      have h2 : userCount k.mem s (1024 * i) ≤ userCount k.mem s (2 ^ 20) :=
        userCount_mono (by omega)
      unfold copyCount
      omega
    | some pk =>
      obtain ⟨p, ka⟩ := pk
      obtain ⟨hent, htab⟩ := hg1.enterTable hi hT hal
      obtain ⟨-, hp, -, -, -⟩ := kmemAlloc_spec hg1.kmem hal
      rw [hal] at hfail
      have hloop : forLoop 1024 (kvmemCopyEntry (tableOf k.mem s i) p)
          (ka.store (d + 4 * i) (p / 4 + 1)) = none := by
        rw [← enterTable_stores hp]
        exact hfail
      obtain ⟨j, u, hj, hrun', hfail'⟩ := forLoop_none hloop
      obtain ⟨g2, hg2⟩ := hent.entries hs hi hT htab (by omega) hrun'
      have heq := hent.tableOf_eq hg2 (by omega) (by omega) hi hT
      rw [htab] at heq
      exact hg2.entry_none hs hi hj hT (by rw [heq]; exact hfail')
  · rw [if_neg (show ¬ load32 k.mem (s + 4 * i) &&& pteV ≠ 0 from hT)] at hfail
    cases hfail

/-! ## §5 The whole copy -/

/-- `d` is the root of a copy, for the address space `a`, of the tables below `s`. -/
structure Copied (L : Layout) (a : Space) (s : Nat) (k : KState) (g : Ghost) (d : Nat)
    (k' : KState) (g' : Ghost) : Prop where
  kmem : KmemInv L k' g'
  tree : Tree k'.mem g' a d
  grow : Grow L (Role.Of a) (fun _ => False) k g k' g'
  hasTable : ∀ t < 1024, HasTable k'.mem d t ↔ HasTable k.mem s t
  entry : ∀ v < 2 ^ 20, CopyEntry L a v k g (walk k.mem s v) k' g' (walk k'.mem d v)
  root : d ∈ g.free.head?
  free : g'.free = g.free.drop (1 + copyCount k.mem s)
  page : ∀ t < 1024, HasTable k.mem s t → tableOf k'.mem d t ∈
    (g.free.drop (1 + tableCount k.mem s t + userCount k.mem s (1024 * t))).head?
  trap : ∀ p, g'.ow p = .trapframe a → g.ow p = .trapframe a
  exact : (∀ p, ¬ (g.ow p).Of a) → Exact k'.mem g' a d

theorem tableCount_congr (h : ∀ t < 1024, HasTable m' s t ↔ HasTable m s t) (hn : n ≤ 1024) :
    tableCount m' s n = tableCount m s n := by
  apply List.countP_congr
  intro t ht
  have := List.mem_range.mp ht
  rw [decide_eq_true_eq, decide_eq_true_eq]
  exact h t (by omega)

theorem userCount_congr (h : ∀ v < 2 ^ 20, walk m' s v = walk m s v) (hn : n ≤ 2 ^ 20) :
    userCount m' s n = userCount m s n := by
  apply List.countP_congr
  intro v hv
  have := List.mem_range.mp hv
  rw [h v (by omega)]

/-- The root of the copy is there, the loops have not started. -/
structure CopyStart (L : Layout) (a b : Space) (s d : Nat) (k : KState) (g : Ghost) (k' : KState)
    (g' : Ghost) : Prop where
  source : CopySource L a b s k' g'
  tree : Tree k'.mem g' a d
  empty : ∀ t < 1024, ¬ HasTable k'.mem d t
  grow : Grow L (Role.Of a) (fun _ => False) k g k' g'
  back : ∀ p, g'.ow p = .free → g.ow p = .free
  root : g.free = d :: g'.free
  trap : ∀ p, g'.ow p = .trapframe a → g.ow p = .trapframe a
  hasTable : ∀ t < 1024, HasTable k'.mem s t ↔ HasTable k.mem s t
  walk_eq : ∀ v < 2 ^ 20, walk k'.mem s v = walk k.mem s v

theorem copyStart (hk : KmemInv L k g) (ht : Tree k.mem g b s) (hne : a ≠ b)
    (hal : kmemAlloc k = some (d, k')) : CopyStart L a b s d k g k' (g.pop (.root a)) := by
  obtain ⟨hl, hp, hfree, -, hinv⟩ := kmemAlloc_spec hk hal
  obtain ⟨hpow, hkeep⟩ := kmemAlloc_pop_ow hk hal (.root a)
  have hk' := hinv (.root a) (by simp)
  have hempty : ∀ t < 1024, ¬ HasTable k'.mem d t := by
    intro t htlt
    rw [HasTable, kmemAlloc_load_new hk hal (show 4 * t + 4 ≤ 4096 by omega)]
    simp
  refine ⟨⟨hk', ht.alloc hk hal _, hne⟩, ⟨hpow, fun t htlt hT => absurd hT (hempty t htlt)⟩, hempty,
    kmemAlloc_grow (r := .root a) hk hal rfl, ?_, ?_, ?_, ?_, ?_⟩
  · intro p hpf
    obtain h | h := g.pop_ow (.root a) p
    · rw [← h, hpf]
    · rw [h] at hpf
      cases hpf
  · rw [Ghost.pop_free]
    exact hl
  · intro p hp
    exact (kmemAlloc_grow (S := fun c => c = .root a) (W := fun _ => False) hk hal rfl).role_back
      (by simp) (by simp) hp
  · intro t htlt
    rw [HasTable, HasTable, hasTable_alloc ht hk hal htlt]
  · intro v hv
    exact ht.walk_alloc hk hal hv

/-- An entry copied from the start of the loops on is a copy of the entry before. -/
theorem CopyStart.entry {k1 : KState} {g1 : Ghost} {o o' : Option Nat}
    (hs : CopyStart L a b s d k g k1 g1) (hc : CopyEntry L a v k1 g1 o k' g' o') :
    CopyEntry L a v k g o k' g' o' := by
  unfold CopyEntry at *
  cases o with
  | none => exact hc
  | some e =>
    simp only at hc ⊢
    by_cases hU : e &&& pteU = 0
    · rw [if_pos hU] at hc ⊢
      exact hc
    · rw [if_neg hU] at hc ⊢
      obtain ⟨p, hp, hfree, how, ho', hbytes⟩ := hc
      refine ⟨p, hp, hs.back p hfree, how, ho', ?_⟩
      intro h1 h2 h3 x hx
      have hkeep := hs.grow.keep _ h2
      rw [hbytes h1 (by rw [hkeep]; exact h2) (by rw [hkeep]; exact h3) x hx]
      exact hs.grow.page_mem _ h1 h2 h3 x hx

theorem CopyStart.copied {k1 : KState} {g1 : Ghost} (hs : CopyStart L a b s d k g k1 g1)
    (h : CopyInv L a s d k1 g1 1024 (2 ^ 20) k' g')
    (hexact : (∀ p, ¬ (g.ow p).Of a) → Exact k1.mem g1 a d) : Copied L a s k g d k' g' := by
  have htc : ∀ n ≤ 1024, tableCount k1.mem s n = tableCount k.mem s n :=
    fun n hn => tableCount_congr hs.hasTable hn
  have huc : ∀ n ≤ 2 ^ 20, userCount k1.mem s n = userCount k.mem s n :=
    fun n hn => userCount_congr hs.walk_eq hn
  refine ⟨h.kmem, h.tree, hs.grow.trans h.grow, ?_, ?_, ?_, ?_, ?_,
    fun p hp => hs.trap p (h.trap p hp), fun hno => h.exact (hexact hno)⟩
  · intro t ht
    rw [h.hasTable t ht, hs.hasTable t ht]
    exact and_iff_right ht
  · intro v hv
    have := hs.entry (h.entry v hv hv)
    rwa [hs.walk_eq v hv] at this
  · rw [hs.root]
    rfl
  · rw [h.free, hs.root, htc _ (le_refl _), huc _ (le_refl _), Nat.add_comm 1,
      List.drop_succ_cons, copyCount]
  · intro t ht hT
    have := h.page t ht ht ((hs.hasTable t ht).mpr hT)
    rw [htc t (by omega), huc _ (by omega)] at this
    rwa [hs.root, Nat.add_assoc, Nat.add_comm 1, List.drop_succ_cons]

/-- What `kvmem_copy_pagetable` computes when it does not panic. -/
theorem kvmemCopyPagetable_spec (hk : KmemInv L k g) (ht : Tree k.mem g b s) (hne : a ≠ b)
    (h : kvmemCopyPagetable k s = some (d, k')) : ∃ g', Copied L a s k g d k' g' := by
  unfold kvmemCopyPagetable at h
  cases hal : kmemAlloc k with
  | none => simp [hal] at h
  | some pk =>
    obtain ⟨d', k1⟩ := pk
    rw [hal] at h
    simp only at h
    cases hloop : forLoop 1024 (kvmemCopyTable s d') k1 with
    | none =>
      rw [hloop] at h
      exact absurd h nofun
    | some k2 =>
      rw [hloop, Option.some.injEq, Prod.mk.injEq] at h
      obtain ⟨rfl, rfl⟩ := h
      have hs := copyStart (a := a) hk ht hne hal
      obtain ⟨g', hg'⟩ := copyInv_rounds hs.source hs.tree hs.empty (le_refl _) hloop
      refine ⟨g', hs.copied hg' ?_⟩
      -- a space without pages gets its root here
      intro hno
      refine ⟨unique_pop (fun p _ hp => absurd hp (hno p)) ?_, ?_, ?_⟩
      · intro q hq
        exact hno q (by rw [hq]; rfl)
      · intro q n hq
        obtain h | h := g.pop_ow (.root a) q
        · exact absurd (show (g.ow q).Of a by rw [← h, hq]; rfl) (hno q)
        · rw [h] at hq
          exact absurd hq nofun
      · intro q v hq
        obtain h | h := g.pop_ow (.root a) q
        · exact absurd (show (g.ow q).Of a by rw [← h, hq]; rfl) (hno q)
        · rw [h] at hq
          exact absurd hq nofun

/-- `kvmem_copy_pagetable` panics only for lack of pages. -/
theorem kvmemCopyPagetable_none (hk : KmemInv L k g) (ht : Tree k.mem g b s) (hne : a ≠ b)
    (h : kvmemCopyPagetable k s = none) : g.free.length < 1 + copyCount k.mem s := by
  unfold kvmemCopyPagetable at h
  cases hal : kmemAlloc k with
  | none =>
    rw [kmemAlloc_none hk hal, List.length_nil]
    omega
  | some pk =>
    obtain ⟨d, k1⟩ := pk
    rw [hal] at h
    simp only at h
    cases hloop : forLoop 1024 (kvmemCopyTable s d) k1 with
    | none =>
      have hs := copyStart (a := a) hk ht hne hal
      have hlt := copyTables_none hs.source hs.tree hs.empty hloop
      unfold copyCount at hlt ⊢
      rw [tableCount_congr hs.hasTable (le_refl _), userCount_congr hs.walk_eq (le_refl _)] at hlt
      rw [hs.root, List.length_cons]
      omega
    | some k2 =>
      rw [hloop] at h
      exact absurd h nofun

end Risky321.Kernel
