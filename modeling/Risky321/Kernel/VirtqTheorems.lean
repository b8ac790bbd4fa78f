/-
Risky321.Kernel.VirtqTheorems — the two pages of the virtqueue.

`virtq_init` allocates two pages and keeps the address of the second: the
queue starts there and goes on into the first one, if that is the next page
in memory. The comment in the source hopes so. It is, because `kmem_init`
frees the pages in ascending order and nothing is freed before `virtq_init`:
the free list is then always the lowest pages of the region, the highest
first.

§1 a region of any number of pages and what may be done with it, §2 the
members of the queue, §3 the invariant of all runs, §4 that of the runs up to
`virtq_init`, §5 `virtq_init` and what comes after.
-/
import Risky321.Kernel.KmemTheorems
import Risky321.Lib.PageStack

namespace Risky321.Kernel

open Risky321.Lib

variable {k k' : KState} {p q : Nat} {free : List Nat} {s s' : PageState}

/-! ## §1 Regions -/

/-- What lies between `__free_ram_begin` and `__free_ram_end`: a number of
pages, not at address 0 and not up to the end of the address space. -/
structure Region where
  freeRamBegin : Nat
  pages : Nat
  begin_pos : 0 < freeRamBegin
  end_lt : freeRamBegin + pages * pageSize < 2 ^ 32

def Region.freeRamEnd (r : Region) : Nat := r.freeRamBegin + r.pages * pageSize

/-- `kmem_init`, for any region. -/
def kmemInitRegion (r : Region) (k : KState) : KState :=
  (List.range ((r.freeRamEnd - r.freeRamBegin) / pageSize)).foldl
    (fun k i => kmemFree k (r.freeRamBegin + i * pageSize)) k

/-- The 64 MiB the linker script reserves. -/
def Layout.region (L : Layout) : Region where
  freeRamBegin := L.freeRamBegin
  pages := 16384
  begin_pos := by
    have := L.kernelBase_le
    omega
  end_lt := by
    have := L.end_le
    simp only [vaUserBase, pageSize] at *
    omega

theorem kmemInit_eq_region (L : Layout) (k : KState) :
    kmemInit L k = kmemInitRegion L.region k := by
  have hend : L.region.freeRamEnd = L.freeRamEnd := by
    simp only [Region.freeRamEnd, Layout.freeRamEnd, Layout.region, pageSize]
  rw [kmemInit, kmemInitRegion, hend]
  rfl

/-- The byte at `x` is in the page `p`. -/
def OnPage (p x : Nat) : Prop := p ≤ x ∧ x < p + pageSize

/-- What is done between `kmem_init` and any later point: pages are allocated,
pages that are held are given back, and bytes are written to pages that are
held and outside the region. -/
def RegionStep (r : Region) : PageState → PageOp → PageState → Prop
  | s, .write x c, s' =>
    ((∃ p ∈ s.held, OnPage p x) ∨ x < r.freeRamBegin ∨ r.freeRamEnd ≤ x) ∧
      s' = { s with k := { s.k with mem := Function.update s.k.mem x c } }
  | s, op, s' => PageStep s op s'

/-- The state `kmem_init` leaves. -/
def RegionInit (r : Region) (s : PageState) : Prop :=
  ∃ m, s = ⟨kmemInitRegion r (KState.init m), [], 0⟩

/-- The states before the first call of `kmem_free`. -/
abbrev BeforeFree (r : Region) : PageState → Prop :=
  Reach (RegionInit r) (RegionStep r) (fun _ op => ∀ p, op ≠ .free p)

/-! ## §2 The queue -/

/-- The members of `struct virtio_virtq` and of the structs in it. -/
inductive VirtqMember
  | descAddr (i : Fin 16) | descLen (i : Fin 16) | descFlags (i : Fin 16) | descNext (i : Fin 16)
  | availFlags | availIndex | availRing (i : Fin 16)
  | usedFlags | usedIndex | usedId (i : Fin 16) | usedLen (i : Fin 16)
  | queueIndex | usedIndexPtr | lastUsedIndex
  deriving DecidableEq

/-- Where a member is. The descriptors and the avail ring are at the start;
the used ring is aligned to a page. -/
def VirtqMember.offset : VirtqMember → Nat
  | .descAddr i => 16 * i
  | .descLen i => 16 * i + 8
  | .descFlags i => 16 * i + 12
  | .descNext i => 16 * i + 14
  | .availFlags => 256
  | .availIndex => 258
  | .availRing i => 260 + 2 * i
  | .usedFlags => 4096
  | .usedIndex => 4098
  | .usedId i => 4100 + 8 * i
  | .usedLen i => 4104 + 8 * i
  | .queueIndex => 4228
  | .usedIndexPtr => 4232
  | .lastUsedIndex => 4236

def VirtqMember.size : VirtqMember → Nat
  | .descAddr _ => 8
  | .descLen _ | .usedId _ | .usedLen _ | .queueIndex | .usedIndexPtr => 4
  | _ => 2

/-- The byte at `x` belongs to the member of the queue at `vq`. -/
def VirtqMember.Covers (f : VirtqMember) (vq x : Nat) : Prop :=
  vq + f.offset ≤ x ∧ x < vq + f.offset + f.size

/-- The queue is not larger than two pages. -/
theorem VirtqMember.offset_size_le (f : VirtqMember) : f.offset + f.size ≤ 2 * pageSize := by
  cases f <;> simp only [offset, size, pageSize] <;> omega

/-! ## §3 All runs -/

/-- Each page of the region is held or on the list, once. -/
structure RegionSplit (r : Region) (s : PageState) (free : List Nat) : Prop where
  stack : PageStack pageSize s.k.mem s.k.head free
  perm : (s.held ++ free).Perm (pagesDown pageSize r.freeRamBegin r.pages)

variable {r : Region}

theorem kmemAlloc_stack (h : PageStack pageSize k.mem k.head (p :: free)) :
    ∃ k', kmemAlloc k = some (p, k') ∧ PageStack pageSize k'.mem k'.head free := by
  obtain ⟨hp, hne, hrest⟩ := h.pop (by decide) 0
  refine ⟨{ k with
    head := k.load p
    mem := fill k.mem p pageSize 0
    handedOut := p :: k.handedOut }, ?_, hrest⟩
  rw [hp] at hne
  simp only [kmemAlloc, hp, if_neg hne]

theorem kmemAlloc_stack_nil (h : PageStack pageSize k.mem k.head []) : kmemAlloc k = none :=
  if_pos h.chain

theorem kmemFree_stack (h : PageStack pageSize k.mem k.head free) (hp : p ≠ 0) (hlt : p < 2 ^ 32)
    (hap : ∀ q ∈ free, PagesApart pageSize p q) :
    PageStack pageSize (kmemFree k p).mem (kmemFree k p).head (p :: free) :=
  h.push (by decide) hp hlt hap

theorem RegionSplit.mem_region (h : RegionSplit r s free) (hp : p ∈ s.held ∨ p ∈ free) :
    p ∈ pagesDown pageSize r.freeRamBegin r.pages :=
  h.perm.mem_iff.mp (List.mem_append.mpr hp)

theorem RegionSplit.notMem_free (h : RegionSplit r s free) (hp : p ∈ s.held) : p ∉ free := by
  have hnd := h.perm.nodup_iff.mpr (pagesDown_nodup (by decide))
  exact fun hf => List.disjoint_of_nodup_append hnd hp hf

/-- A page that is held does not overlap one on the list. -/
theorem RegionSplit.apart (h : RegionSplit r s free) (hp : p ∈ s.held) (hq : q ∈ free) :
    PagesApart pageSize p q :=
  pagesApart_of_mem (h.mem_region (.inl hp)) (h.mem_region (.inr hq))
    fun heq => h.notMem_free hp (heq ▸ hq)

/-- The pages lie between the ends of the region. -/
theorem Region.bounds (hp : p ∈ pagesDown pageSize r.freeRamBegin r.pages) :
    r.freeRamBegin ≤ p ∧ p + pageSize ≤ r.freeRamEnd := by
  obtain ⟨j, hj, rfl⟩ := mem_pagesDown.mp hp
  have hmul : (j + 1) * pageSize ≤ r.pages * pageSize := Nat.mul_le_mul_right pageSize hj
  rw [Nat.add_mul, Nat.one_mul] at hmul
  simp only [Region.freeRamEnd]
  omega

theorem Region.ne_zero_lt (hp : p ∈ pagesDown pageSize r.freeRamBegin r.pages) :
    p ≠ 0 ∧ p < 2 ^ 32 := by
  obtain ⟨hbegin, hend⟩ := r.bounds hp
  have hlt : r.freeRamEnd < 2 ^ 32 := r.end_lt
  have hpos := r.begin_pos
  exact ⟨by omega, by omega⟩

/-- Writes that stay off the pages on the list change nothing. -/
theorem RegionSplit.write (h : RegionSplit r s free) {m : Mem}
    (hm : ∀ p ∈ free, ∀ x, OnPage p x → m x = s.k.mem x) :
    RegionSplit r { s with k := { s.k with mem := m } } free where
  stack := h.stack.congr fun p hp x h1 h2 => hm p hp x ⟨h1, by simp only [pageSize]; omega⟩
  perm := h.perm

theorem RegionSplit.alloc (h : RegionSplit r s (p :: free)) (n : Nat) :
    ∃ k', kmemAlloc s.k = some (p, k') ∧ RegionSplit r ⟨k', p :: s.held, n⟩ free := by
  obtain ⟨k', hal, hstack⟩ := kmemAlloc_stack h.stack
  exact ⟨k', hal, hstack, List.perm_middle.symm.trans h.perm⟩

theorem RegionSplit.step {op : PageOp} (h : RegionSplit r s free) (hs : RegionStep r s op s') :
    ∃ free', FreeAfter op free free' ∧ RegionSplit r s' free' := by
  cases op with
  | alloc =>
    obtain ⟨p, hal, hheld, -⟩ := hs
    cases free with
    | nil =>
      rw [kmemAlloc_stack_nil h.stack] at hal
      exact absurd hal nofun
    | cons q free =>
      obtain ⟨k', hal', hsplit⟩ := h.alloc s'.most
      obtain ⟨rfl, rfl⟩ := Prod.mk.inj (Option.some.inj (hal'.symm.trans hal))
      rw [← hheld] at hsplit
      exact ⟨free, .alloc, hsplit⟩
  | free p =>
    obtain ⟨hp, rfl⟩ := hs
    obtain ⟨hne, hlt⟩ := r.ne_zero_lt (h.mem_region (.inl hp))
    refine ⟨p :: free, .free, ?_, ?_⟩
    · exact kmemFree_stack h.stack hne hlt fun q hq => h.apart hp hq
    · have herase : (s.held.erase p ++ p :: free).Perm (s.held ++ free) := by
        refine List.perm_middle.trans ?_
        rw [← List.cons_append]
        exact (List.perm_cons_erase hp).symm.append_right free
      exact herase.trans h.perm
  | write x c =>
    obtain ⟨hx, rfl⟩ := hs
    refine ⟨free, .write, h.write fun p hp y hy => Function.update_of_ne ?_ _ _⟩
    rintro rfl
    have hreg := r.bounds (h.mem_region (.inr hp))
    simp only [OnPage] at hx hy
    rcases hx with ⟨q, hq, hqx⟩ | hout
    · have hap := h.apart hq hp
      simp only [PagesApart] at hap
      omega
    · omega

/-! ## §4 Up to the first `kmem_free` -/

/-- The first pages freed are at the end of the list. -/
theorem kmemInitRegion_rounds (r : Region) (m : Mem) {n : Nat} (hn : n ≤ r.pages) :
    let k := (List.range n).foldl (fun k i => kmemFree k (r.freeRamBegin + i * pageSize))
      (KState.init m)
    PageStack pageSize k.mem k.head (pagesDown pageSize r.freeRamBegin n) := by
  induction n with
  | zero => exact .empty pageSize m
  | succ n ih =>
    have hstack := ih (by omega)
    rw [List.range_succ, List.foldl_append, List.foldl_cons, List.foldl_nil]
    obtain ⟨hne, hlt⟩ := r.ne_zero_lt (mem_pagesDown.mpr ⟨n, hn, rfl⟩)
    refine kmemFree_stack hstack hne hlt fun q hq => ?_
    obtain ⟨j, hj, rfl⟩ := mem_pagesDown.mp hq
    exact pagesApart_of_lt hj

theorem Region.pages_eq (r : Region) : (r.freeRamEnd - r.freeRamBegin) / pageSize = r.pages := by
  rw [freeRamEnd, Nat.add_sub_cancel_left, Nat.mul_div_cancel _ (by decide)]

theorem RegionInit.split (h : RegionInit r s) :
    RegionSplit r s (pagesDown pageSize r.freeRamBegin r.pages) ∧ s.held = [] := by
  obtain ⟨m, rfl⟩ := h
  refine ⟨⟨?_, .refl _⟩, rfl⟩
  rw [kmemInitRegion, r.pages_eq]
  exact kmemInitRegion_rounds r m le_rfl

/-- As long as nothing has been given back the lowest pages are free. -/
theorem BeforeFree.split (h : BeforeFree r s) :
    ∃ n, n + s.held.length = r.pages ∧ RegionSplit r s (pagesDown pageSize r.freeRamBegin n) := by
  refine h.invariant (I := fun s => ∃ n, n + s.held.length = r.pages ∧
    RegionSplit r s (pagesDown pageSize r.freeRamBegin n)) ?_ ?_
  · intro s h0
    obtain ⟨hsplit, hheld⟩ := h0.split
    exact ⟨r.pages, by rw [hheld]; rfl, hsplit⟩
  · rintro s op s' ⟨n, hn, hsplit⟩ hop hs
    obtain ⟨free', hafter, hsplit'⟩ := hsplit.step hs
    cases op with
    | alloc =>
      obtain ⟨p, -, hheld, -⟩ := hs
      cases n with
      | zero => exact nomatch hafter
      | succ n =>
        cases hafter
        refine ⟨n, ?_, hsplit'⟩
        rw [hheld, List.length_cons]
        omega
    | free p => exact absurd rfl (hop p)
    | write x c =>
      cases hafter
      obtain ⟨-, rfl⟩ := hs
      exact ⟨n, hn, hsplit'⟩

/-- Any number of pages can be had. -/
theorem BeforeFree.exists (r : Region) {n : Nat} (hn : n ≤ r.pages) :
    ∃ s, BeforeFree r s ∧ s.held.length = n := by
  induction n with
  | zero => exact ⟨_, .init ⟨fun _ => 0, rfl⟩, rfl⟩
  | succ n ih =>
    obtain ⟨s, hs, hlen⟩ := ih (by omega)
    obtain ⟨left, hleft, hsplit⟩ := hs.split
    cases left with
    | zero => omega
    | succ left =>
      obtain ⟨k', hal, -⟩ := hsplit.alloc 0
      have hstep : RegionStep r s .alloc ⟨k', _ :: s.held, max s.most (s.held.length + 1)⟩ :=
        ⟨_, hal, rfl, rfl⟩
      exact ⟨_, hs.step (fun _ => PageOp.noConfusion) hstep, by rw [List.length_cons, hlen]⟩

/-! ## §5 `virtq_init` -/

/-- The queue is in the pages `first` and `vq`, and they stay off the free
list until one of them is given back. -/
structure QueuePlaced (r : Region) (s : PageState) (first vq : Nat) : Prop where
  adjacent : first = vq + pageSize
  inside : ∀ (f : VirtqMember) (x : Nat), f.Covers vq x → OnPage vq x ∨ OnPage first x
  kept : ∀ s', Reach (· = s) (RegionStep r) (fun _ op => op ≠ .free vq ∧ op ≠ .free first) s' →
    ∀ p k', kmemAlloc s'.k = some (p, k') → p + pageSize ≤ vq ∨ vq + 2 * pageSize ≤ p

/-- Two pages that are held are not handed out again before one of them is
given back. -/
theorem RegionSplit.kept {first vq : Nat} (h : RegionSplit r s free) (hf : first ∈ s.held)
    (hv : vq ∈ s.held)
    (hreach : Reach (· = s) (RegionStep r) (fun _ op => op ≠ .free vq ∧ op ≠ .free first) s')
    (hal : kmemAlloc s'.k = some (p, k')) :
    PagesApart pageSize first p ∧ PagesApart pageSize vq p := by
  have hinv : (∃ free, RegionSplit r s' free) ∧ first ∈ s'.held ∧ vq ∈ s'.held := by
    refine hreach.invariant
      (I := fun s => (∃ free, RegionSplit r s free) ∧ first ∈ s.held ∧ vq ∈ s.held) ?_ ?_
    · rintro s rfl
      exact ⟨⟨free, h⟩, hf, hv⟩
    · rintro s op s' ⟨⟨free, hs⟩, hf, hv⟩ ⟨hnv, hnf⟩ hstep
      obtain ⟨free', -, hs'⟩ := hs.step hstep
      refine ⟨⟨free', hs'⟩, ?_⟩
      cases op with
      | alloc =>
        obtain ⟨p, -, hheld, -⟩ := hstep
        rw [hheld]
        exact ⟨List.mem_cons_of_mem _ hf, List.mem_cons_of_mem _ hv⟩
      | free q =>
        obtain ⟨-, rfl⟩ := hstep
        have hfq : first ≠ q := fun heq => hnf (heq ▸ rfl)
        have hvq : vq ≠ q := fun heq => hnv (heq ▸ rfl)
        exact ⟨(List.mem_erase_of_ne hfq).mpr hf, (List.mem_erase_of_ne hvq).mpr hv⟩
      | write x c =>
        obtain ⟨-, rfl⟩ := hstep
        exact ⟨hf, hv⟩
  obtain ⟨⟨free', hs'⟩, hf', hv'⟩ := hinv
  cases free' with
  | nil =>
    rw [kmemAlloc_stack_nil hs'.stack] at hal
    exact absurd hal nofun
  | cons q free' =>
    obtain ⟨k1, hal1, -⟩ := hs'.alloc 0
    obtain ⟨rfl, -⟩ := Prod.mk.inj (Option.some.inj (hal1.symm.trans hal))
    have hmem : q ∈ q :: free' := List.mem_cons_self ..
    exact ⟨hs'.apart hf' hmem, hs'.apart hv' hmem⟩

/-- `virtq_init` takes the two pages at the head of the list and writes to the
first of them. -/
theorem RegionSplit.virtq {first vq : Nat} (h : RegionSplit r s (first :: vq :: free))
    (hfirst : first = vq + pageSize) (index n : Nat) :
    ∃ k1 k2 k', kmemAlloc s.k = some (first, k1) ∧ kmemAlloc k1 = some (vq, k2) ∧
      virtqInit s.k index = some (vq, k') ∧
      RegionSplit r ⟨k', vq :: first :: s.held, n⟩ free := by
  obtain ⟨k1, hal1, h1⟩ := h.alloc 0
  obtain ⟨k2, hal2, h2⟩ := h1.alloc n
  have hinit : virtqInit s.k index =
      some (vq, (k2.store (vq + 4228) index).store (vq + 4232) (vq + 4098)) := by
    simp only [virtqInit, hal1, hal2]
  refine ⟨k1, k2, _, hal1, hal2, hinit, h2.write fun p hp x hx => ?_⟩
  have hap := h2.apart (List.mem_cons_of_mem vq (List.mem_cons_self ..)) hp
  simp only [PagesApart, OnPage, hfirst, pageSize] at hap hx
  have houter := store32_outside (k2.store (vq + 4228) index).mem (vq + 4232) (vq + 4098)
    (show x < vq + 4232 ∨ vq + 4232 + 4 ≤ x by omega)
  have hinner := store32_outside k2.mem (vq + 4228) index
    (show x < vq + 4228 ∨ vq + 4228 + 4 ≤ x by omega)
  exact houter.trans hinner

theorem VirtqMember.inside {f : VirtqMember} {first vq x : Nat} (hfirst : first = vq + pageSize)
    (h : f.Covers vq x) : OnPage vq x ∨ OnPage first x := by
  have hsize := f.offset_size_le
  simp only [Covers, OnPage, hfirst, pageSize] at *
  omega

/-- After any number of allocations that leaves two pages, and before anything
is given back, `virtq_init` gets a page and then the one below it; the queue
lies in the two, and stays there undisturbed. -/
theorem virtq_pages_adjacent (r : Region) (n : Nat) (hn : n + 2 ≤ r.pages) (index : Nat) :
    (∃ s, BeforeFree r s ∧ s.held.length = n) ∧
      ∀ s, BeforeFree r s → s.held.length = n →
        ∃ first k1 vq k2 k', kmemAlloc s.k = some (first, k1) ∧ kmemAlloc k1 = some (vq, k2) ∧
          virtqInit s.k index = some (vq, k') ∧
          QueuePlaced r ⟨k', vq :: first :: s.held, n + 2⟩ first vq := by
  refine ⟨BeforeFree.exists r (by omega), fun s hs hlen => ?_⟩
  obtain ⟨left, hleft, hsplit⟩ := hs.split
  obtain ⟨left, rfl⟩ : ∃ m, left = m + 2 := ⟨left - 2, by omega⟩
  rw [pagesDown, pagesDown] at hsplit
  have hfirst : r.freeRamBegin + (left + 1) * pageSize =
      r.freeRamBegin + left * pageSize + pageSize := by
    rw [Nat.add_mul, Nat.one_mul, Nat.add_assoc]
  obtain ⟨k1, k2, k', hal1, hal2, hinit, hafter⟩ := hsplit.virtq hfirst index (n + 2)
  refine ⟨_, k1, _, k2, k', hal1, hal2, hinit, hfirst, fun f x => VirtqMember.inside hfirst,
    fun s' hreach p k3 hal => ?_⟩
  obtain ⟨hapf, hapv⟩ := hafter.kept (List.mem_cons_of_mem _ (List.mem_cons_self ..))
    (List.mem_cons_self ..) hreach hal
  simp only [PagesApart, pageSize] at *
  omega

/-- The queue of the boot: the kernel's page tables took 542 pages before it,
and the page that is handed out next is apart from the queue. -/
theorem virtq_pages_adjacent_boot : ∃ s first k1 vq k2 k' p k3,
    BeforeFree exampleLayout.region s ∧ s.held.length = 542 ∧
      kmemAlloc s.k = some (first, k1) ∧ kmemAlloc k1 = some (vq, k2) ∧
      virtqInit s.k 0 = some (vq, k') ∧
      QueuePlaced exampleLayout.region ⟨k', vq :: first :: s.held, 544⟩ first vq ∧
      kmemAlloc k' = some (p, k3) ∧ (p + pageSize ≤ vq ∨ vq + 2 * pageSize ≤ p) := by
  obtain ⟨⟨s, hs, hlen⟩, hall⟩ := virtq_pages_adjacent exampleLayout.region 542 (by decide) 0
  obtain ⟨first, k1, vq, k2, k', hal1, hal2, hinit, hqueue⟩ := hall s hs hlen
  -- there are pages left
  obtain ⟨left, hleft, hsplit⟩ := hs.split
  obtain ⟨left, rfl⟩ : ∃ m, left = m + 3 :=
    ⟨left - 3, by simp only [exampleLayout, Layout.region] at hleft; omega⟩
  rw [pagesDown, pagesDown, pagesDown] at hsplit
  obtain ⟨_, _, k'', -, -, hinit', hafter⟩ := hsplit.virtq
    (by rw [Nat.add_mul _ 1, Nat.one_mul, Nat.add_assoc]) 0 544
  obtain ⟨rfl, rfl⟩ := Prod.mk.inj (Option.some.inj (hinit.symm.trans hinit'))
  obtain ⟨k3, hal3, -⟩ := hafter.alloc 0
  exact ⟨s, first, k1, _, k2, k', _, k3, hs, hlen, hal1, hal2, hinit, hqueue, hal3,
    hqueue.kept _ (.init rfl) _ _ hal3⟩

end Risky321.Kernel
