/-
Risky321.Kernel.Ownership — who owns a page.

The memory alone does not say what a page is for. The proofs carry a ghost
record of it: the free list, and for each page one `Role`. A page has one
role because roles are a function of the page; the invariants say that the
pointers found in memory (links of the free list, entries of page tables,
pointers in process control blocks) agree with it.

`KmemInv` is the part of the invariant about the free list, `Grow` says
what an operation that only allocates can have done: it popped pages and
gave them roles from a set `S`, and it wrote to no page outside `S` and to
no static address outside `W`.
-/
import Risky321.Kernel.Kvmem
import Risky321.Lib.Chain
import Mathlib.Data.List.Nodup

namespace Risky321.Kernel

open Risky321.Lib

/-! ## §1 Roles -/

/-- An address space: the kernel's own, or that of a process slot. -/
inductive Space
  | kernel
  | proc (i : Nat)
  deriving DecidableEq, Repr

/-- What a page is used for. `lost` is a page nobody uses (or no page at all). -/
inductive Role
  | lost
  | free
  | root (a : Space)
  | table (a : Space) (n : Nat)
  | trapframe (a : Space)
  | leaf (a : Space) (v : Nat)
  | virtio (n : Nat)
  deriving DecidableEq, Repr

/-- The roles of the pages that make up the address space `a`. -/
def Role.Of (a : Space) : Role → Prop
  | .root b => b = a
  | .table b _ => b = a
  | .trapframe b => b = a
  | .leaf b _ => b = a
  | _ => False

/-- The roles of the page tables of `a`. -/
def Role.TableOf (a : Space) : Role → Prop
  | .root b => b = a
  | .table b _ => b = a
  | _ => False

/-- The roles of the page tables and the user pages of `a`. -/
def Role.MappedOf (a : Space) : Role → Prop
  | .root b => b = a
  | .table b _ => b = a
  | .leaf b _ => b = a
  | _ => False

theorem Role.MappedOf.of {a : Space} {r : Role} (h : r.MappedOf a) : r.Of a := by
  cases r <;> first | exact h | exact h.elim

theorem Role.TableOf.mapped {a : Space} {r : Role} (h : r.TableOf a) : r.MappedOf a := by
  cases r <;> first | exact h | exact h.elim

theorem Role.TableOf.of {a : Space} {r : Role} (h : r.TableOf a) : r.Of a := by
  cases r <;> first | exact h | exact h.elim

theorem Role.Of.ne_free {a : Space} {c : Role} (h : c.Of a) : c ≠ .free := by
  cases c <;> simp_all [Role.Of]

theorem Role.Of.ne_lost {a : Space} {c : Role} (h : c.Of a) : c ≠ .lost := by
  cases c <;> simp_all [Role.Of]

theorem Role.Of.unique {a b : Space} {c : Role} (h : c.Of a) (h' : c.Of b) : a = b := by
  cases c <;> simp_all [Role.Of]

/-- Which page has which role, and the free list. -/
structure Ghost where
  ow : Nat → Role
  free : List Nat

/-- The first free page gets the role `r`. -/
def Ghost.pop (g : Ghost) (r : Role) : Ghost :=
  match g.free with
  | [] => g
  | p :: l => { ow := Function.update g.ow p r, free := l }

/-- The page `p` becomes free. -/
def Ghost.push (g : Ghost) (p : Nat) : Ghost :=
  { ow := Function.update g.ow p .free, free := p :: g.free }

theorem Ghost.pop_eq {g : Ghost} {p : Nat} {l : List Nat} (h : g.free = p :: l) (r : Role) :
    g.pop r = { ow := Function.update g.ow p r, free := l } := by
  simp only [Ghost.pop, h]

/-- The first `n` free pages get the roles `c 0`, `c 1`, …. -/
def Ghost.popMany (g : Ghost) (c : Nat → Role) : Nat → Ghost
  | 0 => g
  | n + 1 => (g.popMany c n).pop (c n)

@[simp] theorem Ghost.pop_free (g : Ghost) (r : Role) : (g.pop r).free = g.free.tail := by
  unfold Ghost.pop
  split <;> simp_all

@[simp] theorem Ghost.popMany_free (g : Ghost) (c : Nat → Role) (n : Nat) :
    (g.popMany c n).free = g.free.drop n := by
  induction n with
  | zero => simp [Ghost.popMany]
  | succ n ih => simp [Ghost.popMany, ih]

/-! ## §2 The free list -/

variable {L : Layout} {k k' k'' : KState} {g g' g'' : Ghost} {p q : Nat}

theorem Layout.IsPage.apart (hp : L.IsPage p) (hq : L.IsPage q) (hne : p ≠ q) :
    p + 4096 ≤ q ∨ q + 4096 ≤ p := by
  obtain ⟨-, -, hp⟩ := hp
  obtain ⟨-, -, hq⟩ := hq
  omega

theorem Layout.IsPage.bounds (hp : L.IsPage p) :
    L.freeRamBegin ≤ p ∧ p + 4096 ≤ L.freeRamEnd ∧ 0x80000000 ≤ p ∧ p + 4096 ≤ 0xC0000000 := by
  obtain ⟨h1, h2, h3⟩ := hp
  have hb := L.begin_aligned
  have hk := L.kernelBase_le
  have he := L.end_le
  simp only [Layout.freeRamEnd, vaUserBase] at *
  omega

/-- The free list is what the ghost record says, without repetition, and
every page with a role is a page of the free region. -/
structure KmemInv (L : Layout) (k : KState) (g : Ghost) : Prop where
  chain : Chain k.mem k.head g.free
  nodup : g.free.Nodup
  free_iff : ∀ p, p ∈ g.free ↔ g.ow p = .free
  page : ∀ p, g.ow p ≠ .lost → L.IsPage p

theorem KmemInv.page_of (hk : KmemInv L k g) {r : Role} (h : g.ow p = r) (hr : r ≠ .lost) :
    L.IsPage p :=
  hk.page p (by rw [h]; exact hr)

/-- The free list only depends on the head and on the free pages. -/
theorem KmemInv.congr (hk : KmemInv L k g) (hhead : k'.head = k.head)
    (hmem : ∀ p, g.ow p = .free → ∀ x < 4, k'.mem (p + x) = k.mem (p + x)) :
    KmemInv L k' g := by
  refine ⟨?_, hk.nodup, hk.free_iff, hk.page⟩
  rw [hhead]
  apply hk.chain.congr
  intro p hp
  apply load32_congr
  intro x hx1 hx2
  have h := hmem p ((hk.free_iff p).mp hp) (x - p) (by omega)
  rwa [Nat.add_sub_cancel' hx1] at h

/-- Writing to a page that is not free does not touch the free list. -/
theorem KmemInv.write (hk : KmemInv L k g) (hpage : L.IsPage p) (hp : g.ow p ≠ .free) {m : Mem}
    (hm : ∀ x, x < p ∨ p + 4096 ≤ x → m x = k.mem x) : KmemInv L { k with mem := m } g := by
  refine hk.congr (by rfl) ?_
  intro q hq y hy
  have hqpage : L.IsPage q := hk.page_of hq (by decide)
  have := hqpage.apart hpage (fun heq => hp (heq ▸ hq))
  exact hm _ (by omega)

theorem KmemInv.store (hk : KmemInv L k g) (hpage : L.IsPage p) (hp : g.ow p ≠ .free)
    {x v : Nat} (hx : x + 4 ≤ 4096) : KmemInv L (k.store (p + x) v) g :=
  hk.write hpage hp (fun _ hy => store32_outside k.mem (p + x) v (by omega))

/-- Writing below the free region does not touch the free list either. -/
theorem KmemInv.static (hk : KmemInv L k g) {m : Mem}
    (hm : ∀ x, L.freeRamBegin ≤ x → m x = k.mem x) : KmemInv L { k with mem := m } g := by
  refine hk.congr (by rfl) ?_
  intro q hq y hy
  have := (hk.page_of hq (by decide)).1
  exact hm _ (by omega)

/-- What `kmem_alloc` does: it takes the first free page and clears it. -/
theorem kmemAlloc_spec (hk : KmemInv L k g) (h : kmemAlloc k = some (p, k')) :
    g.free = p :: (g.free.tail) ∧ L.IsPage p ∧ g.ow p = .free ∧
      k' = { k with
        head := k.load p
        mem := fill k.mem p 4096 0
        handedOut := p :: k.handedOut } ∧
      ∀ r, r ≠ .free → KmemInv L k' (g.pop r) := by
  unfold kmemAlloc at h
  split at h
  · exact absurd h (by simp)
  · rename_i hne
    simp only [pageSize, Option.some.injEq, Prod.mk.injEq] at h
    obtain ⟨hp, hk'⟩ := h
    obtain ⟨l, hl, hc⟩ := chain_cons hk.chain hne
    rw [hp] at hl hc hk' hne
    have how : g.ow p = .free := (hk.free_iff p).mp (by simp [hl])
    have hpage : L.IsPage p := hk.page p (by rw [how]; decide)
    have hnodup : p ∉ l ∧ l.Nodup := by
      have := hk.nodup
      rwa [hl, List.nodup_cons] at this
    refine ⟨by rw [hl, List.tail_cons], hpage, how, hk'.symm, ?_⟩
    intro r hr
    rw [Ghost.pop_eq hl, ← hk']
    refine ⟨?_, hnodup.2, ?_, ?_⟩
    · apply hc.congr
      intro q hq
      have hql : q ∈ g.free := by simp [hl, hq]
      have hqpage : L.IsPage q := hk.page q (by rw [(hk.free_iff q).mp hql]; decide)
      have hne : q ≠ p := fun heq => hnodup.1 (heq ▸ hq)
      have := hqpage.apart hpage hne
      exact load32_fill_disjoint k.mem 0 (by omega)
    · intro q
      by_cases hqp : q = p
      · rw [hqp]
        simp [hnodup.1, hr]
      · have := hk.free_iff q
        rw [hl, List.mem_cons] at this
        simpa [Function.update_of_ne hqp, hqp] using this
    · intro q hq
      by_cases hqp : q = p
      · rw [hqp]
        exact hpage
      · exact hk.page q (by simpa [Function.update_of_ne hqp] using hq)

/-- An allocation leaves every page alone that is not free. -/
theorem kmemAlloc_load (hk : KmemInv L k g) (h : kmemAlloc k = some (p, k'))
    (hq : L.IsPage q) (hne : g.ow q ≠ .free) {x : Nat} (hx : x + 4 ≤ 4096) :
    load32 k'.mem (q + x) = load32 k.mem (q + x) := by
  obtain ⟨-, hpage, how, hk', -⟩ := kmemAlloc_spec hk h
  have := hq.apart hpage (fun heq => hne (heq ▸ how))
  rw [hk']
  exact load32_fill_disjoint k.mem 0 (by omega)

/-- The new page reads as zero. -/
theorem kmemAlloc_load_new (hk : KmemInv L k g) (h : kmemAlloc k = some (p, k')) {x : Nat}
    (hx : x + 4 ≤ 4096) : load32 k'.mem (p + x) = 0 := by
  obtain ⟨-, -, -, hk', -⟩ := kmemAlloc_spec hk h
  rw [hk']
  exact load32_fill_zero k.mem (by omega)

theorem kmemAlloc_pop_ow (hk : KmemInv L k g) (h : kmemAlloc k = some (p, k')) (c : Role) :
    (g.pop c).ow p = c ∧ ∀ q, g.ow q ≠ .free → (g.pop c).ow q = g.ow q := by
  obtain ⟨hl, -, how, -, -⟩ := kmemAlloc_spec hk h
  rw [Ghost.pop_eq hl]
  refine ⟨by simp, ?_⟩
  intro q hq
  have hne : q ≠ p := fun heq => hq (heq ▸ how)
  simp [Function.update_of_ne hne]

/-- `kmem_alloc` panics exactly when no page is free. -/
theorem kmemAlloc_none (hk : KmemInv L k g) (h : kmemAlloc k = none) : g.free = [] := by
  unfold kmemAlloc at h
  split at h
  · rename_i h0
    have hc := hk.chain
    rw [h0] at hc
    exact chain_zero hc
  · simp at h

theorem kmemAlloc_of_nil (hk : KmemInv L k g) (h : g.free = []) : kmemAlloc k = none := by
  have hc := hk.chain
  rw [h] at hc
  exact if_pos hc

/-- A page that is not free can be freed. -/
theorem kmemFree_spec (hk : KmemInv L k g) (hpage : L.IsPage p) (hp : g.ow p ≠ .free) :
    KmemInv L (kmemFree k p) (g.push p) := by
  have hb := hpage.bounds
  have hpl : p ∉ g.free := fun hm => hp ((hk.free_iff p).mp hm)
  have hhead : k.head < 2 ^ 32 := by
    by_cases h0 : k.head = 0
    · omega
    · obtain ⟨l, hl, -⟩ := chain_cons hk.chain h0
      have how := (hk.free_iff k.head).mp (by simp [hl])
      have := (hk.page_of how (by decide)).bounds
      omega
  refine ⟨?_, ?_, ?_, ?_⟩
  · refine ⟨rfl, by omega, ?_⟩
    simp only [kmemFree, KState.store_mem]
    rw [load32_store32_of_lt hhead]
    apply hk.chain.congr
    intro q hq
    have hqpage : L.IsPage q := hk.page_of ((hk.free_iff q).mp hq) (by decide)
    have := hqpage.apart hpage (fun heq => hpl (heq ▸ hq))
    exact load32_store32_disjoint k.mem k.head (by omega)
  · exact List.nodup_cons.mpr ⟨hpl, hk.nodup⟩
  · intro q
    simp only [Ghost.push, List.mem_cons]
    by_cases hqp : q = p
    · simp [hqp]
    · simpa [Function.update_of_ne hqp, hqp] using hk.free_iff q
  · intro q hq
    simp only [Ghost.push] at hq
    by_cases hqp : q = p
    · rw [hqp]
      exact hpage
    · exact hk.page q (by simpa [Function.update_of_ne hqp] using hq)

/-- The free list is a list of different page frames. -/
structure FreeList (L : Layout) (k : KState) (free : List Nat) : Prop where
  chain : Chain k.mem k.head free
  nodup : free.Nodup
  page : ∀ p ∈ free, L.IsPage p

/-- The roles when nothing but the free list is known. -/
def freeGhost (free : List Nat) : Ghost :=
  { ow := fun p => if p ∈ free then .free else .lost, free := free }

theorem FreeList.kmemInv {free : List Nat} (h : FreeList L k free) :
    KmemInv L k (freeGhost free) where
  chain := h.chain
  nodup := h.nodup
  free_iff := by
    intro p
    by_cases hp : p ∈ free <;> simp [freeGhost, hp]
  page := by
    intro p hp
    refine h.page p ?_
    by_contra hno
    exact hp (by simp [freeGhost, hno])

theorem KmemInv.freeList (h : KmemInv L k g) : FreeList L k g.free :=
  ⟨h.chain, h.nodup, fun p hp => h.page_of ((h.free_iff p).mp hp) nofun⟩

theorem FreeList.eq_of_kmemInv {free : List Nat} (h : FreeList L k free) (hk : KmemInv L k g) :
    g.free = free := hk.chain.unique h.chain

/-! ## §3 Operations that only allocate -/

/-- From `k` to `k'` some free pages got roles from `S`, pages with other
roles were left alone, and so were the static addresses outside `W`. -/
structure Grow (L : Layout) (S : Role → Prop) (W : Nat → Prop) (k : KState) (g : Ghost)
    (k' : KState) (g' : Ghost) : Prop where
  suffix : g'.free <:+ g.free
  keep : ∀ p, g.ow p ≠ .free → g'.ow p = g.ow p
  fresh : ∀ p, g.ow p = .free → g'.ow p = .free ∨ S (g'.ow p)
  page_mem : ∀ p, L.IsPage p → g.ow p ≠ .free → ¬ S (g.ow p) →
    ∀ x < 4096, k'.mem (p + x) = k.mem (p + x)
  static_mem : ∀ x, x < L.freeRamBegin → ¬ W x → k'.mem x = k.mem x
  current : k'.current = k.current
  kernelPagetable : k'.kernelPagetable = k.kernelPagetable
  blkRequestVq : k'.blkRequestVq = k.blkRequestVq
  blkReqPaddr : k'.blkReqPaddr = k.blkReqPaddr
  handed : ∃ l, k'.handedOut = l ++ k.handedOut ∧ ∀ p ∈ l, g.ow p = .free

variable {S S' : Role → Prop} {W W' : Nat → Prop}

theorem Grow.refl (k : KState) (g : Ghost) : Grow L S W k g k g where
  suffix := List.suffix_rfl
  keep := fun _ _ => rfl
  fresh := fun _ h => .inl h
  page_mem := fun _ _ _ _ _ _ => rfl
  static_mem := fun _ _ _ => rfl
  current := rfl
  kernelPagetable := rfl
  blkRequestVq := rfl
  blkReqPaddr := rfl
  handed := ⟨[], rfl, nofun⟩

theorem Grow.trans (h : Grow L S W k g k' g') (h' : Grow L S W k' g' k'' g'') :
    Grow L S W k g k'' g'' where
  suffix := h'.suffix.trans h.suffix
  keep := by
    intro p hp
    have h1 := h.keep p hp
    rw [h'.keep p (by rw [h1]; exact hp), h1]
  fresh := by
    intro p hp
    by_cases h1 : g'.ow p = .free
    · exact h'.fresh p h1
    · have hS : S (g'.ow p) := (h.fresh p hp).resolve_left h1
      rw [h'.keep p h1]
      exact .inr hS
  page_mem := by
    intro p hpage hp hS x hx
    have h1 := h.keep p hp
    rw [h'.page_mem p hpage (by rw [h1]; exact hp) (by rw [h1]; exact hS) x hx,
      h.page_mem p hpage hp hS x hx]
  static_mem := fun x hx hW => (h'.static_mem x hx hW).trans (h.static_mem x hx hW)
  current := h'.current.trans h.current
  kernelPagetable := h'.kernelPagetable.trans h.kernelPagetable
  blkRequestVq := h'.blkRequestVq.trans h.blkRequestVq
  blkReqPaddr := h'.blkReqPaddr.trans h.blkReqPaddr
  handed := by
    obtain ⟨l, hl, hfree⟩ := h.handed
    obtain ⟨l', hl', hfree'⟩ := h'.handed
    refine ⟨l' ++ l, by rw [hl', hl, List.append_assoc], ?_⟩
    intro p hp
    rw [List.mem_append] at hp
    obtain hp | hp := hp
    · by_contra hne
      exact hne ((h.keep p hne).symm.trans (hfree' p hp))
    · exact hfree p hp

theorem Grow.mono (h : Grow L S W k g k' g') (hS : ∀ r, S r → S' r) (hW : ∀ x, W x → W' x) :
    Grow L S' W' k g k' g' :=
  { h with
    fresh := fun p hp => (h.fresh p hp).imp_right (hS _)
    page_mem := fun p hpage hp hr => h.page_mem p hpage hp (fun hs => hr (hS _ hs))
    static_mem := fun x hx hw => h.static_mem x hx (fun hs => hw (hW _ hs)) }

/-- A role outside `S` was there before. -/
theorem Grow.role_back (h : Grow L S W k g k' g') {c : Role} (hc : c ≠ .free) (hS : ¬ S c)
    (hp : g'.ow p = c) : g.ow p = c := by
  by_cases hfree : g.ow p = .free
  · obtain h1 | h1 := h.fresh p hfree
    · exact absurd (hp.symm.trans h1) hc
    · rw [hp] at h1
      exact absurd h1 hS
  · rw [← h.keep p hfree, hp]

/-- A page outside `S` reads as before. -/
theorem Grow.load_page (h : Grow L S W k g k' g') (hpage : L.IsPage p) (hp : g.ow p ≠ .free)
    (hS : ¬ S (g.ow p)) {x : Nat} (hx : x + 4 ≤ 4096) :
    load32 k'.mem (p + x) = load32 k.mem (p + x) := by
  apply load32_congr
  intro y hy1 hy2
  have hval := h.page_mem p hpage hp hS (y - p) (by omega)
  rwa [Nat.add_sub_cancel' (by omega)] at hval

/-- An allocation is a `Grow` that gives one page a role. -/
theorem kmemAlloc_grow (hk : KmemInv L k g) (h : kmemAlloc k = some (p, k')) {r : Role}
    (hr : S r) : Grow L S W k g k' (g.pop r) := by
  obtain ⟨hl, hpage, how, hk', -⟩ := kmemAlloc_spec hk h
  have hb := hpage.bounds
  rw [Ghost.pop_eq hl]
  subst hk'
  refine ⟨?_, ?_, ?_, ?_, ?_, rfl, rfl, rfl, rfl, [p], rfl, by simpa using how⟩
  · exact List.tail_suffix _
  · intro q hq
    have hne : q ≠ p := fun heq => hq (heq ▸ how)
    simp [Function.update_of_ne hne]
  · intro q hq
    by_cases hqp : q = p
    · rw [hqp]
      simp [hr]
    · left
      simpa [Function.update_of_ne hqp] using hq
  · intro q hqpage hq _ x hx
    have hne : q ≠ p := fun heq => hq (heq ▸ how)
    have := hqpage.apart hpage hne
    exact fill_outside k.mem p 4096 0 (by omega)
  · intro x hx _
    exact fill_outside k.mem p 4096 0 (by omega)

/-- Writing to a page whose role is in `S`. -/
theorem write_grow (hpage : L.IsPage p) (hS : S (g.ow p)) {m : Mem}
    (hm : ∀ x, x < p ∨ p + 4096 ≤ x → m x = k.mem x) :
    Grow L S W k g { k with mem := m } g := by
  have hb := hpage.bounds
  refine ⟨List.suffix_rfl, fun _ _ => rfl, fun _ h => .inl h, ?_, ?_, rfl, rfl, rfl, rfl, [], rfl, nofun⟩
  · intro q hq _ hrole y hy
    have hqp : q ≠ p := fun heq => hrole (heq ▸ hS)
    have := hq.apart hpage hqp
    exact hm _ (by omega)
  · intro y hy _
    exact hm _ (by omega)

theorem store_grow (hpage : L.IsPage p) (hS : S (g.ow p)) {x v : Nat} (hx : x + 4 ≤ 4096) :
    Grow L S W k g (k.store (p + x) v) g :=
  write_grow hpage hS (fun _ hy => store32_outside k.mem (p + x) v (by omega))

/-- Writing to static addresses in `W`. -/
theorem static_grow {m : Mem} (hm : ∀ x, ¬ (x < L.freeRamBegin ∧ W x) → m x = k.mem x) :
    Grow L S W k g { k with mem := m } g := by
  refine ⟨List.suffix_rfl, fun _ _ => rfl, fun _ h => .inl h, ?_, ?_, rfl, rfl, rfl, rfl, [], rfl, nofun⟩
  · intro q hq _ _ y _
    have := hq.1
    exact hm _ (fun h => by omega)
  · intro y _ hy
    exact hm _ (fun h => hy h.2)

/-! ## §4 Process control blocks -/

variable {i j v : Nat} {f : PcbField}

/-- The fields of the process control block `i`. -/
def Layout.InPcb (L : Layout) (i x : Nat) : Prop := L.proc i ≤ x ∧ x < L.proc i + 120

theorem Layout.proc_bound (L : Layout) (hi : i < 8) : L.proc i + sizeofProcess ≤ L.freeRamBegin := by
  have := L.procArray_le
  simp only [Layout.proc, sizeofProcess, numProcesses] at *
  omega

theorem KmemInv.setPcb (hk : KmemInv L k g) (hi : i < 8) (hf : f.InStruct) :
    KmemInv L (setPcb L k i f v) g := by
  have hb := L.proc_bound hi
  have ho := PcbField.offset_lt hf
  simp only [sizeofProcess] at hb
  exact hk.static (fun x hx => store32_outside _ _ _ (by omega))

theorem setPcb_grow (hi : i < 8) (hf : f.InStruct) :
    Grow L S (L.InPcb i) k g (setPcb L k i f v) g := by
  have hb := L.proc_bound hi
  have ho := PcbField.offset_lt hf
  simp only [sizeofProcess] at hb
  refine static_grow (fun x hx => store32_outside _ _ _ ?_)
  simp only [Layout.InPcb] at hx
  omega

/-- A PCB field outside `W` reads as before. -/
theorem Grow.pcb (hg : Grow L S W k g k' g') (hi : i < 8) (hf : f.InStruct)
    (hW : ∀ x, L.InPcb i x → ¬ W x) : pcb L k' i f = pcb L k i f := by
  have hb := L.proc_bound hi
  have ho := PcbField.offset_lt hf
  simp only [sizeofProcess] at hb
  apply load32_congr
  intro x h1 h2
  exact hg.static_mem x (by omega) (hW x (by simp only [Layout.InPcb]; omega))

theorem Grow.pcb_other (hg : Grow L S (L.InPcb j) k g k' g') (hi : i < 8) (hf : f.InStruct)
    (hij : i ≠ j) : Risky321.Kernel.pcb L k' i f = Risky321.Kernel.pcb L k i f := by
  refine hg.pcb hi hf (fun x hx hx' => ?_)
  simp only [Layout.InPcb, Layout.proc, sizeofProcess] at hx hx'
  omega

end Risky321.Kernel
