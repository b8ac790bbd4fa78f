/-
Risky321.Kernel.KmemTheorems — `kmem.c` as a page allocator.

The clients are left open: they allocate, they give back pages they hold, and
they write any bytes to pages they hold, in any order. `PagesSplit` is the
invariant: the pages held and the pages on the free list are together the
pages of the region, each once. The links of the list lie in free pages only,
so no write of a client reaches them.

§1 the runs, §2 the invariant, §3 what every call does. §4 places the boot
stack: `entry.S` puts it where the linker script starts the free region, so
it is the lowest page, which the list hands out last.
-/
import Risky321.Kernel.BootTheorems
import Risky321.Lib.Run

namespace Risky321.Kernel

open Risky321.Lib

variable {L : Layout} {k k' : KState} {p q : Nat} {free : List Nat}

/-! ## §1 Runs -/

/-- The allocator, the pages its clients hold, and the largest number of pages
they have held at once. Only `k` is the kernel's. -/
structure PageState where
  k : KState
  held : List Nat
  most : Nat

/-- What clients do. -/
inductive PageOp
  | alloc
  | free (p : Nat)
  | write (x : Nat) (c : UInt8)

/-- One call, or one byte written to a page that is held. -/
def PageStep : PageState → PageOp → PageState → Prop
  | s, .alloc, s' => ∃ p, kmemAlloc s.k = some (p, s'.k) ∧ s'.held = p :: s.held ∧
      s'.most = max s.most (s.held.length + 1)
  | s, .free p, s' => p ∈ s.held ∧ s' = { s with k := kmemFree s.k p, held := s.held.erase p }
  | s, .write x c, s' => (∃ p ∈ s.held, p ≤ x ∧ x < p + pageSize) ∧
      s' = { s with k := { s.k with mem := Function.update s.k.mem x c } }

/-- The states reached after `kmem_init`. -/
abbrev AllocReach (L : Layout) : PageState → Prop :=
  Reach (fun s => ∃ m, s = ⟨kmemInit L (KState.init m), [], 0⟩) PageStep (fun _ _ => True)

/-! ## §2 The invariant -/

/-- Each page of the region is held or on the list, once. -/
structure PagesSplit (L : Layout) (s : PageState) (free : List Nat) : Prop where
  list : FreeList L s.k free
  perm : (s.held ++ free).Perm (L.pagesDown 16384)

theorem FreeList.alloc (h : FreeList L k (p :: free)) :
    ∃ k', kmemAlloc k = some (p, k') ∧ FreeList L k' free := by
  cases hal : kmemAlloc k with
  | none => exact absurd (kmemAlloc_none h.kmemInv hal) (List.cons_ne_nil p free)
  | some r =>
    obtain ⟨q, k'⟩ := r
    obtain ⟨hl, -, -, -, hinv⟩ := kmemAlloc_spec h.kmemInv hal
    have hpq : p = q := (List.cons.inj hl).1
    refine ⟨k', by rw [hpq], ?_⟩
    have hfree := (hinv (.virtio 0) nofun).freeList
    rwa [Ghost.pop_free] at hfree

theorem FreeList.release (h : FreeList L k free) (hp : L.IsPage p) (hnot : p ∉ free) :
    FreeList L (kmemFree k p) (p :: free) :=
  (kmemFree_spec h.kmemInv hp (by simp [freeGhost, hnot])).freeList

theorem FreeList.write (h : FreeList L k free) (hp : L.IsPage p) (hnot : p ∉ free) {x : Nat}
    (hx : p ≤ x ∧ x < p + 4096) (c : UInt8) :
    FreeList L { k with mem := Function.update k.mem x c } free :=
  (h.kmemInv.write hp (by simp [freeGhost, hnot])
    (fun _ hy => Function.update_of_ne (by omega) _ _)).freeList

section
variable {s s' : PageState}

theorem PagesSplit.nodup (h : PagesSplit L s free) : (s.held ++ free).Nodup :=
  h.perm.nodup_iff.mpr (L.nodup_pagesDown _)

theorem PagesSplit.mem_iff (h : PagesSplit L s free) : L.IsPage p ↔ p ∈ s.held ∨ p ∈ free := by
  rw [← List.mem_append, h.perm.mem_iff, Layout.mem_pagesDown_iff]

theorem PagesSplit.length (h : PagesSplit L s free) : s.held.length + free.length = 16384 := by
  rw [← List.length_append, h.perm.length_eq, L.length_pagesDown]

theorem PagesSplit.notMem_free (h : PagesSplit L s free) (hp : p ∈ s.held) : p ∉ free :=
  fun hf => List.disjoint_of_nodup_append h.nodup hp hf

/-- What is left free by one step. -/
inductive FreeAfter : PageOp → List Nat → List Nat → Prop
  | alloc {p : Nat} {free : List Nat} : FreeAfter .alloc (p :: free) free
  | free {p : Nat} {free : List Nat} : FreeAfter (.free p) free (p :: free)
  | write {x : Nat} {c : UInt8} {free : List Nat} : FreeAfter (.write x c) free free

theorem PagesSplit.step {op : PageOp} (h : PagesSplit L s free) (hs : PageStep s op s') :
    ∃ free', FreeAfter op free free' ∧ PagesSplit L s' free' := by
  cases op with
  | alloc =>
    obtain ⟨p, hal, hheld, -⟩ := hs
    cases free with
    | nil =>
      rw [kmemAlloc_of_nil h.list.kmemInv rfl] at hal
      exact absurd hal nofun
    | cons q free =>
      obtain ⟨k', hal', hl⟩ := h.list.alloc
      obtain ⟨rfl, rfl⟩ := Prod.mk.inj (Option.some.inj (hal'.symm.trans hal))
      refine ⟨free, .alloc, hl, ?_⟩
      rw [hheld]
      exact List.perm_middle.symm.trans h.perm
  | free p =>
    obtain ⟨hp, rfl⟩ := hs
    refine ⟨p :: free, .free, h.list.release (h.mem_iff.mpr (.inl hp)) (h.notMem_free hp), ?_⟩
    have herase : (s.held.erase p ++ p :: free).Perm (s.held ++ free) := by
      refine List.perm_middle.trans ?_
      rw [← List.cons_append]
      exact (List.perm_cons_erase hp).symm.append_right free
    exact herase.trans h.perm
  | write x c =>
    obtain ⟨⟨p, hp, hx⟩, rfl⟩ := hs
    exact ⟨free, .write, h.list.write (h.mem_iff.mpr (.inl hp)) (h.notMem_free hp) hx c, h.perm⟩

theorem pagesSplit_init (L : Layout) (m : Mem) :
    PagesSplit L ⟨kmemInit L (KState.init m), [], 0⟩ (L.pagesDown 16384) := by
  obtain ⟨hk, -⟩ := kmemInit_spec L m
  refine ⟨?_, .refl _⟩
  rw [← L.initGhost_free]
  exact hk.freeList

theorem AllocReach.split (h : AllocReach L s) : ∃ free, PagesSplit L s free := by
  refine h.invariant (I := fun s => ∃ free, PagesSplit L s free) ?_ ?_
  · rintro s ⟨m, rfl⟩
    exact ⟨_, pagesSplit_init L m⟩
  · rintro s op s' ⟨free, hI⟩ - hstep
    obtain ⟨free', -, hI'⟩ := hI.step hstep
    exact ⟨free', hI'⟩

/-! ## §3 The allocator -/

/-- What the clients of a page allocator rely on. -/
structure AllocatorOk (L : Layout) (s : PageState) : Prop where
  page : ∀ p k', kmemAlloc s.k = some (p, k') → L.IsPage p
  zero : ∀ p k', kmemAlloc s.k = some (p, k') → ∀ x < pageSize, k'.mem (p + x) = 0
  fresh : ∀ p k', kmemAlloc s.k = some (p, k') → p ∉ s.held
  keeps : ∀ p k', kmemAlloc s.k = some (p, k') → ∀ q ∈ s.held, ∀ x < pageSize,
    k'.mem (q + x) = s.k.mem (q + x)
  panics : kmemAlloc s.k = none ↔ ∀ p, L.IsPage p → p ∈ s.held
  once : ∃ free, FreeList L s.k free ∧ ∀ p, L.IsPage p → (s.held ++ free).count p = 1

theorem PagesSplit.allocated (h : PagesSplit L s free) (hal : kmemAlloc s.k = some (p, k')) :
    p ∈ free ∧ p ∉ s.held := by
  obtain ⟨hl, -, hpfree, -⟩ := kmemAlloc_spec h.list.kmemInv hal
  have hmem : p ∈ free := (h.list.kmemInv.free_iff p).mpr hpfree
  exact ⟨hmem, fun hp => h.notMem_free hp hmem⟩

/-- `kmem.c` is a page allocator, in every state of every run. -/
theorem kmem_allocator (L : Layout) (s : PageState) (h : AllocReach L s) : AllocatorOk L s := by
  obtain ⟨free, hs⟩ := h.split
  refine ⟨?_, ?_, ?_, ?_, ?_, ?_⟩
  · intro p k' hal
    exact hs.list.page p (hs.allocated hal).1
  · intro p k' hal x hx
    obtain ⟨-, -, -, rfl, -⟩ := kmemAlloc_spec hs.list.kmemInv hal
    exact fill_inside _ _ _ _ ⟨Nat.le_add_right p x, Nat.add_lt_add_left hx p⟩
  · intro p k' hal
    exact (hs.allocated hal).2
  · intro p k' hal q hq x hx
    have hp := hs.list.page p (hs.allocated hal).1
    have hqp : q ≠ p := by
      rintro rfl
      exact (hs.allocated hal).2 hq
    have hap := (hs.mem_iff.mpr (.inl hq)).apart hp hqp
    obtain ⟨-, -, -, rfl, -⟩ := kmemAlloc_spec hs.list.kmemInv hal
    simp only [pageSize] at hx ⊢
    exact fill_outside _ _ _ _ (by omega)
  · constructor
    · intro hal p hp
      have hnil : free = [] := kmemAlloc_none hs.list.kmemInv hal
      rw [hs.mem_iff, hnil] at hp
      simpa using hp
    · intro hall
      refine kmemAlloc_of_nil hs.list.kmemInv ?_
      refine List.eq_nil_iff_forall_not_mem.mpr fun p hp => ?_
      exact hs.notMem_free (hall p (hs.list.page p hp)) hp
  · refine ⟨free, hs.list, fun p hp => List.count_eq_one_of_mem hs.nodup ?_⟩
    rw [List.mem_append]
    exact hs.mem_iff.mp hp

/-- A first page can be had. -/
theorem AllocReach.alloc_init (L : Layout) (m : Mem) :
    ∃ s, AllocReach L s ∧ s.held.length = 1 := by
  have hs := pagesSplit_init L m
  rw [Layout.pagesDown] at hs
  obtain ⟨k', hal, -⟩ := hs.list.alloc
  have hstep : PageStep ⟨kmemInit L (KState.init m), [], 0⟩ .alloc ⟨k', [_], 1⟩ :=
    ⟨_, hal, rfl, rfl⟩
  exact ⟨_, .step (.init ⟨m, rfl⟩) trivial hstep, rfl⟩

theorem kmem_allocator_first : ∃ s, AllocReach exampleLayout s ∧ s.held.length = 1 ∧
    AllocatorOk exampleLayout s := by
  obtain ⟨s, hs, hlen⟩ := AllocReach.alloc_init exampleLayout (fun _ => 0)
  exact ⟨s, hs, hlen, kmem_allocator exampleLayout s hs⟩

/-! ## §4 The boot stack -/

/-- `ALIGN(4096)` of the linker script. -/
def alignPage (dot : Nat) : Nat := (dot + 4095) / 4096 * 4096

/-- `__kernel_stack` and `__free_ram_begin` when `.bss` ends at `dot`. -/
def kernelStack (dot : Nat) : Nat := alignPage dot + 4 * 1024
def freeRamBeginAt (dot : Nat) : Nat := alignPage (kernelStack dot)

/-- `sp` when `_entry` calls `start_setup`. -/
def entrySp (dot : Nat) : Nat := kernelStack dot + 4096

/-- The page has a byte in common with the 4096 bytes below `sp`. -/
def OnStack (sp p : Nat) : Prop := p < sp ∧ sp < p + pageSize + 4096

instance (sp p : Nat) : Decidable (OnStack sp p) := inferInstanceAs (Decidable (_ ∧ _))

/-- The stack starts with the free region. -/
theorem entrySp_eq (dot : Nat) : entrySp dot = freeRamBeginAt dot + 4096 := by
  simp only [entrySp, freeRamBeginAt, kernelStack, alignPage]
  omega

/-- Of the pages of the region only the first is on the boot stack. -/
theorem onStack_iff {dot : Nat} (hL : L.freeRamBegin = freeRamBeginAt dot) (hp : L.IsPage p) :
    OnStack (entrySp dot) p ↔ p = L.freeRamBegin := by
  obtain ⟨h1, h2, h3⟩ := hp
  have hal := L.begin_aligned
  simp only [OnStack, entrySp_eq, ← hL, pageSize]
  omega

/-- The lowest page is at the end of the list until all pages are held. -/
structure BottomKept (L : Layout) (s : PageState) (free : List Nat) : Prop where
  split : PagesSplit L s free
  most : s.held.length ≤ s.most
  handed : ∀ p ∈ s.k.handedOut, L.IsPage p
  kept : s.most < 16384 → L.freeRamBegin ∉ s.k.handedOut ∧ ∃ l, free = l ++ [L.freeRamBegin]
  taken : 16384 ≤ s.most → L.freeRamBegin ∈ s.k.handedOut

theorem handedOut_alloc (h : FreeList L k free) (hal : kmemAlloc k = some (p, k')) :
    k'.handedOut = p :: k.handedOut := by
  obtain ⟨-, -, -, rfl, -⟩ := kmemAlloc_spec h.kmemInv hal
  rfl

theorem BottomKept.step {op : PageOp} (h : BottomKept L s free) (hs : PageStep s op s') :
    ∃ free', BottomKept L s' free' := by
  obtain ⟨free', hfa, hsplit⟩ := h.split.step hs
  refine ⟨free', ?_⟩
  cases hfa with
  | @alloc p =>
    obtain ⟨q, hal, hheld, hmost⟩ := hs
    have hq : p = q := by
      obtain ⟨hl, -⟩ := kmemAlloc_spec h.split.list.kmemInv hal
      exact (List.cons.inj hl).1
    have hout : s'.k.handedOut = p :: s.k.handedOut := by
      rw [hq]
      exact handedOut_alloc h.split.list hal
    have hlen := hsplit.length
    rw [hheld, List.length_cons] at hlen
    refine ⟨hsplit, ?_, ?_, fun hlt => ?_, fun hge => ?_⟩
    · rw [hheld, hmost, List.length_cons]
      exact le_max_right _ _
    · rw [hout]
      rintro r (_ | ⟨_, hr⟩)
      · exact h.split.list.page p (List.mem_cons_self ..)
      · exact h.handed r hr
    · obtain ⟨hno, l, hl⟩ := h.kept (lt_of_le_of_lt (hmost ▸ le_max_left _ _) hlt)
      cases l with
      | nil =>
        -- the bottom page is only reached when all others are held
        obtain ⟨-, rfl⟩ := List.cons.inj hl
        rw [List.length_nil] at hlen
        have := hmost ▸ le_max_right s.most (s.held.length + 1)
        omega
      | cons r l =>
        obtain ⟨rfl, rfl⟩ := List.cons.inj hl
        refine ⟨?_, l, rfl⟩
        rw [hout, List.mem_cons]
        rintro (heq | hmem)
        · have hnd := h.split.list.nodup
          rw [← heq] at hnd
          simp at hnd
        · exact hno hmem
    · rw [hout]
      by_cases hold : 16384 ≤ s.most
      · exact List.mem_cons_of_mem _ (h.taken hold)
      · obtain ⟨-, l, hl⟩ := h.kept (by omega)
        have hfull : s.held.length + 1 = 16384 := by
          have := h.most
          rw [hmost] at hge
          omega
        cases l with
        | nil => rw [(List.cons.inj hl).1]; exact List.mem_cons_self ..
        | cons r l =>
          have htail : free' = l ++ [L.freeRamBegin] := (List.cons.inj hl).2
          rw [htail, List.length_append, List.length_singleton] at hlen
          omega
  | @free p =>
    obtain ⟨hp, rfl⟩ := hs
    refine ⟨hsplit, ?_, h.handed, fun hlt => ?_, h.taken⟩
    · exact (List.length_erase_le).trans h.most
    · obtain ⟨hno, l, rfl⟩ := h.kept hlt
      exact ⟨hno, p :: l, rfl⟩
  | write =>
    obtain ⟨-, rfl⟩ := hs
    exact ⟨hsplit, h.most, h.handed, h.kept, h.taken⟩

theorem kmemInit_handedOut (L : Layout) (k : KState) :
    (kmemInit L k).handedOut = k.handedOut := by
  have hfold : ∀ (l : List Nat) (k : KState), (l.foldl
      (fun k i => kmemFree k (L.freeRamBegin + i * pageSize)) k).handedOut = k.handedOut := by
    intro l
    induction l with
    | nil => exact fun _ => rfl
    | cons i l ih => exact fun k => ih _
  exact hfold _ k

/-- The list ends with the lowest page. -/
theorem Layout.pagesDown_last (L : Layout) (n : Nat) :
    ∃ l, L.pagesDown (n + 1) = l ++ [L.freeRamBegin] := by
  induction n with
  | zero =>
    refine ⟨[], ?_⟩
    rw [pagesDown, pagesDown, Nat.zero_mul]
    rfl
  | succ n ih =>
    obtain ⟨l, hl⟩ := ih
    exact ⟨_ :: l, by rw [pagesDown, hl, List.cons_append]⟩

theorem AllocReach.bottomKept (h : AllocReach L s) : ∃ free, BottomKept L s free := by
  refine h.invariant (I := fun s => ∃ free, BottomKept L s free) ?_ ?_
  · rintro s ⟨m, rfl⟩
    have hout := kmemInit_handedOut L (KState.init m)
    refine ⟨_, pagesSplit_init L m, le_rfl, ?_, fun _ => ⟨?_, L.pagesDown_last 16383⟩, nofun⟩
    · rw [hout]
      exact nofun
    · rw [hout]
      exact nofun
  · rintro s op s' ⟨free, hI⟩ - hstep
    exact hI.step hstep

/-- `kmem_alloc` keeps off the boot stack as long as not all pages of the
region have been held at once, and no longer. -/
theorem boot_stack_untouched_iff (L : Layout) (dot : Nat)
    (hL : L.freeRamBegin = freeRamBeginAt dot) (s : PageState) (h : AllocReach L s) :
    (∀ p ∈ s.k.handedOut, ¬ OnStack (entrySp dot) p) ↔ s.most < 16384 := by
  obtain ⟨free, hb⟩ := h.bottomKept
  have hbegin : L.IsPage L.freeRamBegin := by
    refine ⟨le_rfl, ?_, L.begin_aligned⟩
    simp only [Layout.freeRamEnd]
    omega
  constructor
  · intro hno
    by_contra hge
    exact hno _ (hb.taken (by omega)) ((onStack_iff hL hbegin).mpr rfl)
  · intro hlt p hp hon
    rw [(onStack_iff hL (hb.handed p hp)).mp hon] at hp
    exact (hb.kept hlt).1 hp

/-- A run of allocations only. -/
theorem AllocReach.alloc_many (L : Layout) (m : Mem) {n : Nat} (hn : n ≤ 16384) :
    ∃ s, AllocReach L s ∧ s.held.length = n ∧ s.most = n := by
  induction n with
  | zero => exact ⟨_, .init ⟨m, rfl⟩, rfl, rfl⟩
  | succ n ih =>
    obtain ⟨s, hs, hlen, hmost⟩ := ih (by omega)
    obtain ⟨free, hsplit⟩ := hs.split
    have hfree := hsplit.length
    cases free with
    | nil =>
      rw [List.length_nil] at hfree
      omega
    | cons p free =>
      obtain ⟨k', hal, -⟩ := hsplit.list.alloc
      have hstep : PageStep s .alloc ⟨k', p :: s.held, n + 1⟩ := by
        refine ⟨p, hal, rfl, ?_⟩
        show n + 1 = max s.most (s.held.length + 1)
        rw [hmost, hlen, max_eq_right (Nat.le_succ n)]
      exact ⟨_, .step hs trivial hstep, by rw [List.length_cons, hlen], rfl⟩

/-- `.bss` of the example layout ends at `0x831FF000`. -/
theorem exampleLayout_begin : exampleLayout.freeRamBegin = freeRamBeginAt 0x831FF000 := by decide

theorem boot_stack_untouched_first : ∃ s, AllocReach exampleLayout s ∧ s.held.length = 1 ∧
    ∀ p ∈ s.k.handedOut, ¬ OnStack (entrySp 0x831FF000) p := by
  obtain ⟨s, hs, hlen, hmost⟩ :=
    AllocReach.alloc_many exampleLayout (fun _ => 0) (show 1 ≤ 16384 by decide)
  refine ⟨s, hs, hlen, (boot_stack_untouched_iff exampleLayout _ exampleLayout_begin s hs).mpr ?_⟩
  omega

/-- The 16384th page is the one under the boot stack. -/
theorem boot_stack_handed_out : ∃ s, AllocReach exampleLayout s ∧
    ∃ p ∈ s.k.handedOut, OnStack (entrySp 0x831FF000) p := by
  obtain ⟨s, hs, -, hmost⟩ :=
    AllocReach.alloc_many exampleLayout (fun _ => 0) (show 16384 ≤ 16384 by decide)
  obtain ⟨free, hb⟩ := hs.bottomKept
  exact ⟨s, hs, _, hb.taken hmost.ge, by decide⟩

end

end Risky321.Kernel
