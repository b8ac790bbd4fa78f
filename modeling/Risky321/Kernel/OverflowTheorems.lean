/-
Risky321.Kernel.OverflowTheorems — a run in which the arguments of an `exec`
do not fit on the stack page.

`kproc_exec` does not look at the length of the arguments, so strings that do
not fit go on below the stack page. The page below it is the next one on the
free list, because the allocator hands out descending addresses, and its
first word is a link. The arguments here put the address of the stack page
there, and the address of the page after the next one at the start of the
stack page itself: the list is a list again, with the stack page on it.

§1 says what such a state is like (`Spilled`) and §2 that a run leads there.
§3 and §4 go on from it: a `fork` makes the stack page a page table of the
child, and an `exit` of the parent then writes a link over an entry of it.
-/
import Risky321.Kernel.KillTheorems

namespace Risky321.Kernel

open Risky321.Lib

variable {L : Layout} {k k' : KState} {g g' : Ghost} {i j cur p q r n : Nat} {a b : Space}
  {m : Mem} {rest : List Nat} {s : Sys}

/-! ## §1 A stack page on the free list -/

/-- The events that move pages between the free list and the processes, with
images that may be loaded. -/
def Op.Lifecycle (L : Layout) (s : Sys) : Op → Prop
  | .schedule _ | .call .fork | .call .sbrk | .call (.exit _) | .call (.kill _ _) => True
  | .call (.exec path _) => filesystemGetFiledata L s.k path ≠ 0 →
      ElfOk s.k (filesystemGetFiledata L s.k path)
  | _ => False

open Classical in
/-- The roles in `a` are forgotten. -/
noncomputable def Ghost.forget (g : Ghost) (a : Space) : Ghost :=
  { g with ow := fun p => if (g.ow p).Of a then .lost else g.ow p }

theorem Ghost.forget_of_not (h : ¬ (g.ow p).Of a) : (g.forget a).ow p = g.ow p := if_neg h

theorem Ghost.forget_not_of (g : Ghost) (a : Space) (p : Nat) : ¬ ((g.forget a).ow p).Of a := by
  by_cases h : (g.ow p).Of a
  · have hlost : (g.forget a).ow p = .lost := if_pos h
    rw [hlost]
    exact id
  · rwa [Ghost.forget_of_not h]

theorem Ghost.forget_eq_iff {c : Role} (hc : c ≠ .lost) (ha : ¬ c.Of a) :
    (g.forget a).ow p = c ↔ g.ow p = c := by
  by_cases h : (g.ow p).Of a
  · have hlost : (g.forget a).ow p = .lost := if_pos h
    rw [hlost]
    exact ⟨fun he => absurd he.symm hc, fun he => absurd (he ▸ h) ha⟩
  · rw [Ghost.forget_of_not h]

theorem KmemInv.forget (hk : KmemInv L k g) (a : Space) : KmemInv L k (g.forget a) where
  chain := hk.chain
  nodup := hk.nodup
  free_iff p := by
    have hne : Role.free ≠ .lost := nofun
    exact (hk.free_iff p).trans (Ghost.forget_eq_iff hne id).symm
  page p hp := by
    by_cases h : (g.ow p).Of a
    · exact absurd (if_pos h) hp
    · rw [Ghost.forget_of_not h] at hp
      exact hk.page p hp

/-- The page `q` comes after the first page of the free list. -/
def Ghost.spill (g : Ghost) (q : Nat) : Ghost :=
  { ow := Function.update g.ow q .free
    free := g.free.take 1 ++ q :: g.free.drop 1 }

theorem Ghost.spill_free (h : g.free = p :: rest) : (g.spill q).free = p :: q :: rest := by
  rw [spill, h]
  rfl

theorem Ghost.spill_ow_of_ne (h : p ≠ q) : (g.spill q).ow p = g.ow p := Function.update_of_ne h ..

theorem KmemInv.spill (hk : KmemInv L k g) (hfree : g.free = p :: r :: rest) (hq : L.IsPage q)
    (how : g.ow q ≠ .free) (hhead : k'.head = k.head) (hp : load32 k'.mem p = q)
    (hqr : load32 k'.mem q = r) (hlinks : ∀ x ∈ r :: rest, load32 k'.mem x = load32 k.mem x) :
    KmemInv L k' (g.spill q) := by
  have hfree' := Ghost.spill_free (q := q) hfree
  have hqb := hq.bounds
  have hnot : q ∉ p :: r :: rest := by
    rw [← hfree]
    exact fun h => how ((hk.free_iff q).mp h)
  have hchain := hk.chain
  have hnd := hk.nodup
  rw [hfree] at hchain hnd
  obtain ⟨hh, hp0, hr, hr0, htail⟩ := hchain
  refine ⟨?_, ?_, ?_, ?_⟩
  · rw [hfree', hhead]
    refine ⟨hh, hp0, hp, by omega, hqr, hr0, ?_⟩
    rw [hlinks r (by simp)]
    exact htail.congr fun x hx => hlinks x (List.mem_cons_of_mem _ hx)
  · rw [hfree']
    rw [List.mem_cons, not_or] at hnot
    obtain ⟨hpr, hnd'⟩ := List.nodup_cons.mp hnd
    refine List.nodup_cons.mpr ⟨?_, List.nodup_cons.mpr ⟨hnot.2, hnd'⟩⟩
    rw [List.mem_cons, not_or]
    exact ⟨fun h => hnot.1 h.symm, hpr⟩
  · intro x
    rw [hfree']
    by_cases hx : x = q
    · simp [Ghost.spill, hx]
    · rw [Ghost.spill_ow_of_ne hx, ← hk.free_iff, hfree]
      simp [hx]
  · intro x hx
    by_cases hxq : x = q
    · exact hxq ▸ hq
    · rw [Ghost.spill_ow_of_ne hxq] at hx
      exact hk.page x hx

theorem Tree.copyCount_eq {m' : Mem} {r : Nat} (ht : Tree m g a r)
    (hm : ∀ p, (g.ow p).TableOf a → ∀ x, x + 4 ≤ 4096 → load32 m' (p + x) = load32 m (p + x)) :
    copyCount m' r = copyCount m r := by
  have htable : ∀ t < 1024, HasTable m' r t ↔ HasTable m r t := by
    intro t hlt
    rw [HasTable, (ht.load_eq hm).1 t hlt, HasTable]
  rw [copyCount, copyCount, userCount_congr (fun v hv => ht.walk_eq hm hv) (by omega),
    tableCount_congr htable (by omega)]

/-- The stack page `q` of slot `cur` is the second page of the free list, and
slot `i` has never been used. Nothing else is wrong. -/
structure Spilled (L : Layout) (cur i q : Nat) (k : KState) (g : Ghost) : Prop where
  kmem : KmemInv L k g
  free : ∃ p rest, g.free = p :: q :: rest
  tree : Tree k.mem g (.proc cur) (pcb L k cur .pagetable)
  trapframe : g.ow (pcb L k cur .trapframe) = .trapframe (.proc cur)
  userStack : pcb L k cur .userStack = q
  kernel_map : ∀ v < L.kernelPages, walk k.mem (pcb L k cur .pagetable) v = some (v * 1024 + 15)
  trap_map : walk k.mem (pcb L k cur .pagetable) 0xFFFFF = some (pcb L k cur .trapframe / 4 + 7)
  stack_map : walk k.mem (pcb L k cur .pagetable) 0xFFFFE = some (q / 4 + 31)
  unborn : ∀ p, ¬ (g.ow p).Of (.proc i)
  room : 2 + copyCount k.mem (pcb L k cur .pagetable) ≤ g.free.length

/-- The link at the start of the stack page is the address of a page. -/
theorem Spilled.zero (h : Spilled L cur i q k g) : k.mem q = 0 := by
  obtain ⟨p, rest, hfree⟩ := h.free
  have hchain := h.kmem.chain
  rw [hfree] at hchain
  obtain ⟨-, -, -, -, hrest⟩ := hchain
  have haligned : load32 k.mem q % 4096 = 0 := by
    cases rest with
    | nil => rw [show load32 k.mem q = 0 from hrest]
    | cons r rest =>
      have hr := h.kmem.page_of ((h.kmem.free_iff r).mp (by simp [hfree])) nofun
      rw [hrest.1]
      have hal := hr.2.2
      have hbegin := L.begin_aligned
      omega
  have hlt := (k.mem q).toNat_lt
  rw [load32] at haligned
  have hzero : (k.mem q).toNat = 0 := by omega
  exact UInt8.toNat_inj.mp hzero

/-- Words of trap frames do not matter. -/
theorem Spilled.words (h : Spilled L cur i q k g) (ht : TrapWords L k g k') (hcur : cur < 8) :
    Spilled L cur i q k' g := by
  have hpt : pcb L k' cur .pagetable = pcb L k cur .pagetable := ht.pcb hcur trivial
  have htf : pcb L k' cur .trapframe = pcb L k cur .trapframe := ht.pcb hcur trivial
  have hus : pcb L k' cur .userStack = pcb L k cur .userStack := ht.pcb hcur trivial
  have hload := ht.grow.load_table (a := .proc cur) h.kmem (fun _ hc => hc.not_table)
  have hwalk : ∀ v < 2 ^ 20, walk k'.mem (pcb L k cur .pagetable) v =
      walk k.mem (pcb L k cur .pagetable) v := fun v hv => h.tree.walk_eq hload hv
  have hkp := L.kernelPages_lt
  refine ⟨ht.kmem, h.free, ?_, ?_, ?_, ?_, ?_, ?_, h.unborn, ?_⟩
  · rw [hpt]
    exact h.tree.congr hload (fun _ _ => rfl)
  · rw [htf]
    exact h.trapframe
  · rw [hus]
    exact h.userStack
  · intro v hv
    rw [hpt, hwalk v (by omega), h.kernel_map v hv]
  · rw [hpt, htf, hwalk _ (by decide), h.trap_map]
  · rw [hpt, hwalk _ (by decide), h.stack_map]
  · rw [hpt, h.tree.copyCount_eq hload]
    exact h.room

/-- Where arguments of two pages and more are written, there are the stack
page, the two below it, and nothing else that is in use. -/
theorem Built.argRoom {heap : Bool} {elf : Nat} {loads : List Load} {argv : List (List UInt8)}
    {k2 : KState} {g2 : Ghost} (hb : Built L heap i elf k g loads q k2 g2) (hi : i < 8)
    (hfree : g2.free = p :: r :: rest) (hp : p + 4096 = q) (hr : r + 4096 = p)
    (hhigh : argBytes argv ≤ 12284) : ArgRoom L k2 i q (argBytes argv) := by
  have hq := hb.kmem.page_of hb.page_ow nofun
  have hpf : g2.ow p = .free := (hb.kmem.free_iff p).mp (by simp [hfree])
  have hrf : g2.ow r = .free := (hb.kmem.free_iff r).mp (by simp [hfree])
  have hrpage := hb.kmem.page_of hrf nofun
  have htf := hb.kmem.page_of hb.trapframe nofun
  have hne : ∀ {x c}, g2.ow x = c → c ≠ .trapframe (.proc i) → pcb L k2 i .trapframe ≠ x := by
    rintro x c hx hc rfl
    exact hc (hx.symm.trans hb.trapframe)
  have h1 := htf.apart hq (hne hb.page_ow nofun)
  have h2 := htf.apart (hb.kmem.page_of hpf nofun) (hne hpf nofun)
  have h3 := htf.apart hrpage (hne hrf nofun)
  have hqb := hq.bounds
  have hrb := hrpage.bounds
  have htb := htf.bounds
  have hvi : vaUserStackInit = 0xFFFFF000 := rfl
  exact ⟨by omega, by omega, by omega, by omega, by omega, hi⟩

/-- The arguments are above the control blocks. -/
theorem ArgsStored.pcb {argv : List (List UInt8)} (hargs : ArgsStored L i q k argv k')
    (hr : ArgRoom L k i q (argBytes argv)) (hj : j < 8) {f : PcbField} (hf : f.InStruct) :
    Risky321.Kernel.pcb L k' j f = Risky321.Kernel.pcb L k j f := by
  have h1 := hr.low
  have h2 := hr.trapframe_low
  have hoff := PcbField.offset_lt hf
  have hb := L.proc_bound hj
  simp only [sizeofProcess] at hb
  exact load32_congr fun x _ hx => hargs.frame x (by omega) (by omega)

/-- Arguments that put a link to the stack page at the start of the page below
it, and a link to the next free page at the start of the stack page. -/
theorem Built.spilled {heap : Bool} {elf : Nat} {loads : List Load} {argv : List (List UInt8)}
    {k2 : KState} {g2 : Ghost} (hb : Built L heap i elf k g loads q k2 g2) (hi : i < 8)
    (hargs : ArgsStored L i q k2 argv k') (hfree : g2.free = p :: r :: rest) (hp : p + 4096 = q)
    (hr : r + 4096 = p) (hhigh : argBytes argv ≤ 12284) (hpq : load32 k'.mem p = q)
    (hqr : load32 k'.mem q = r) (hij : i ≠ j)
    (hroom : 2 + copyCount k2.mem (pcb L k2 i .pagetable) ≤ g2.free.length) :
    Spilled L i j q k' ((g2.forget (.proc j)).spill q) := by
  have hroomA : ArgRoom L k2 i q (argBytes argv) := hb.argRoom hi hfree hp hr hhigh
  have hq := hb.kmem.page_of hb.page_ow nofun
  have hqb := hq.bounds
  have hnd := hb.kmem.nodup
  have hfreeIff := hb.kmem.free_iff
  have hpf : g2.ow p = .free := (hfreeIff p).mp (by simp [hfree])
  have hrf : g2.ow r = .free := (hfreeIff r).mp (by simp [hfree])
  have hppage := hb.kmem.page_of hpf nofun
  have hrpage := hb.kmem.page_of hrf nofun
  have hrb := hrpage.bounds
  have htb := (hb.kmem.page_of hb.trapframe nofun).bounds
  have hpt : pcb L k' i .pagetable = pcb L k2 i .pagetable := hargs.pcb hroomA hi trivial
  have htf : pcb L k' i .trapframe = pcb L k2 i .trapframe := hargs.pcb hroomA hi trivial
  have hus : pcb L k' i .userStack = pcb L k2 i .userStack := hargs.pcb hroomA hi trivial
  -- a page that is neither one of the two nor the trap frame keeps its words
  have hword : ∀ x, L.IsPage x → x ≠ q → x ≠ p → x ≠ pcb L k2 i .trapframe →
      ∀ y, y + 4 ≤ 4096 → (x = r → y = 0) → load32 k'.mem (x + y) = load32 k2.mem (x + y) := by
    intro x hx hxq hxp hxt y hy hxr
    have h1 := hx.apart hq hxq
    have h2 := hx.apart hppage hxp
    have h3 := hx.apart (hb.kmem.page_of hb.trapframe nofun) hxt
    have h4 : x = r ∨ x + 4096 ≤ r ∨ r + 4096 ≤ x := by
      by_cases hxr' : x = r
      · exact .inl hxr'
      · exact .inr (hx.apart hrpage hxr')
    exact load32_congr fun z _ hz => hargs.frame z (by omega) (by omega)
  have hne : ∀ {x c d}, g2.ow x = c → ∀ {y}, g2.ow y = d → c ≠ d → x ≠ y := by
    rintro x c d hx y hy hcd rfl
    exact hcd (hx.symm.trans hy)
  have how : ∀ {x c}, g2.ow x = c → c ≠ .leaf (.proc i) 0xFFFFE → ¬ c.Of (.proc j) →
      ((g2.forget (.proc j)).spill q).ow x = c := by
    intro x c hx hc hof
    rw [Ghost.spill_ow_of_ne (hne hx hb.page_ow hc), Ghost.forget_of_not (hx ▸ hof), hx]
  have hspace : ∀ {c : Role}, c.Of (.proc i) → ¬ c.Of (.proc j) := fun hc hc' =>
    hij (by simpa using hc.unique hc')
  have htables : ∀ x, (g2.ow x).TableOf (.proc i) → ∀ y, y + 4 ≤ 4096 →
      load32 k'.mem (x + y) = load32 k2.mem (x + y) := by
    intro x hx y hy
    have hneq : ∀ {z d}, g2.ow z = d → ¬ d.TableOf (.proc i) → x ≠ z := by
      rintro z d hz hd rfl
      exact hd (hz ▸ hx)
    refine hword x (hb.kmem.page x hx.ne_lost) (hneq hb.page_ow id) (hneq hpf id)
      (hneq hb.trapframe id) y hy ?_
    rintro rfl
    exact absurd rfl (hneq hrf id)
  have hwalk : ∀ v < 2 ^ 20, walk k'.mem (pcb L k2 i .pagetable) v =
      walk k2.mem (pcb L k2 i .pagetable) v := fun v hv => hb.tree.walk_eq htables hv
  have hkp := L.kernelPages_lt
  have hforget : (g2.forget (.proc j)).ow q ≠ .free := by
    rw [Ghost.forget_of_not (by rw [hb.page_ow]; exact hspace rfl), hb.page_ow]
    nofun
  refine ⟨?_, ⟨p, r :: rest, ?_⟩, ?_, ?_, ?_, ?_, ?_, ?_, ?_, ?_⟩
  · refine (hb.kmem.forget (.proc j)).spill hfree hq hforget (by rw [hargs.state]) hpq hqr ?_
    intro x hx
    have hxf : g2.ow x = .free := (hfreeIff x).mp (by rw [hfree]; exact List.mem_cons_of_mem _ hx)
    refine hword x (hb.kmem.page_of hxf nofun) (hne hxf hb.page_ow nofun) ?_
      (hne hxf hb.trapframe nofun) 0 (by omega) (fun _ => rfl)
    rintro rfl
    rw [hfree] at hnd
    exact (List.nodup_cons.mp hnd).1 hx
  · exact Ghost.spill_free hfree
  · rw [hpt]
    refine hb.tree.congr htables fun x hx => how rfl ?_ (hspace hx.of)
    exact fun hc => (hc ▸ hx : Role.TableOf (.proc i) (.leaf (.proc i) 0xFFFFE))
  · rw [htf]
    exact how hb.trapframe nofun (hspace rfl)
  · rw [hus, hb.userStack]
  · intro v hv
    rw [hpt, hwalk v (by omega), hb.kernel_map v hv]
  · rw [hpt, htf, hwalk _ (by decide), hb.trap_map]
  · rw [hpt, hwalk _ (by decide), hb.stack_map]
  · intro x
    by_cases hx : x = q
    · simp [Ghost.spill, hx, Role.Of]
    · rw [Ghost.spill_ow_of_ne hx]
      exact Ghost.forget_not_of _ _ _
  · rw [hpt]
    have hfree' : ((g2.forget (.proc j)).spill q).free = p :: q :: r :: rest := Ghost.spill_free hfree
    rw [hb.tree.copyCount_eq htables, hfree']
    rw [hfree] at hroom
    simp only [List.length_cons] at *
    omega

/-! ## §2 Arguments that do it -/

/-- Two strings that start with the upper bytes of an address, and between them
three times a string of `l` letters; the strings of letters can all be the end of
one string in memory. -/
def linkArgs (x y : List UInt8) (l m n : Nat) : List (List UInt8) :=
  let f := List.replicate l 97
  [f, f, f, x ++ List.replicate m 97, f, f, f, y ++ List.replicate n 97, []]

theorem argBytes_linkArgs (x y : List UInt8) (l m n : Nat) :
    argBytes (linkArgs x y l m n) = x.length + m + (y.length + n) + 6 * l + 45 := by
  simp [argBytes, linkArgs]
  omega

theorem linkArgs_nul {x y : List UInt8} (l m n : Nat) (hx : 0 ∉ x) (hy : 0 ∉ y) :
    ∀ arg ∈ linkArgs x y l m n, 0 ∉ arg := by
  simp [linkArgs, hx, hy]

/-- `n` letters and after each NUL three times `l` letters, up to the next NUL. -/
def letterStrings (l n : Nat) : List UInt8 :=
  let f := List.replicate l 97
  List.replicate n 97 ++ 0 :: (f ++ 0 :: (f ++ 0 :: f))

theorem length_letterStrings (l n : Nat) : (letterStrings l n).length = n + 3 * l + 3 := by
  simp [letterStrings]
  omega

theorem argStrings_linkArgs (a b c d e f : UInt8) (l m n : Nat) :
    argStrings (linkArgs [a, b, c] [d, e, f] l m n) =
      (0 :: d :: e :: f :: letterStrings l n) ++
        (0 :: a :: b :: c :: (letterStrings l m ++ [0])) := by
  simp [argStrings, linkArgs, letterStrings]

/-- With the NUL below them the upper bytes make a word. -/
theorem load32_of_bytes {m : Mem} {x a b c : UInt8} {l : List UInt8}
    (h : ∀ j, (hj : j < (x :: a :: b :: c :: l).length) →
      m (p + j) = (x :: a :: b :: c :: l)[j]) :
    load32 m p = x.toNat + 256 * a.toNat + 65536 * b.toNat + 16777216 * c.toNat := by
  have h0 := h 0 (by simp)
  have h1 := h 1 (by simp)
  have h2 := h 2 (by simp)
  have h3 := h 3 (by simp)
  simp only [List.getElem_cons_zero, List.getElem_cons_succ, Nat.add_zero] at h0 h1 h2 h3
  rw [load32, h0, h1, h2, h3]

/-- The two links such arguments make. -/
theorem ArgsStored.links {argv : List (List UInt8)} {a b c d e f : UInt8} {low high : List UInt8}
    (hargs : ArgsStored L i q k argv k')
    (hstr : argStrings argv = (0 :: d :: e :: f :: low) ++ (0 :: a :: b :: c :: high))
    (hlow : p + (low.length + 4) = q) (hhigh : high.length + 4 = 4096) :
    load32 k'.mem p = 256 * d.toNat + 65536 * e.toNat + 16777216 * f.toNat ∧
      load32 k'.mem q = 256 * a.toNat + 65536 * b.toNat + 16777216 * c.toNat := by
  have hlen : (argStrings argv).length = low.length + 4 + 4096 := by
    rw [hstr, List.length_append, List.length_cons, List.length_cons, List.length_cons,
      List.length_cons, List.length_cons, List.length_cons, List.length_cons, List.length_cons]
    omega
  have hbyte : ∀ j, (hj : j < (argStrings argv).length) → k'.mem (p + j) = (argStrings argv)[j] := by
    intro j hj
    have haddr : q + 4096 - (argStrings argv).length + j = p + j := by omega
    rw [← hargs.strings j hj, haddr]
  simp only [hstr] at hbyte
  constructor
  · exact (load32_of_bytes hbyte).trans (by simp)
  · refine (load32_of_bytes (x := 0) (a := a) (b := b) (c := c) (l := high) fun j hj => ?_).trans
      (by simp)
    have hpre : (0 :: d :: e :: f :: low).length = low.length + 4 := by simp
    rw [← hlow, Nat.add_assoc, hbyte (low.length + 4 + j) (by simp at hj ⊢; omega),
      List.getElem_append_right (by omega)]
    congr 1
    omega

theorem Layout.pagesDown_two (L : Layout) (n : Nat) : L.pagesDown (n + 2) =
    (L.freeRamBegin + n * 4096 + 4096) :: (L.freeRamBegin + n * 4096) :: L.pagesDown n := by
  rw [pagesDown, pagesDown, Nat.add_mul, Nat.one_mul, Nat.add_assoc]

theorem exampleLayout_imagePages : exampleLayout.imagePages [0xC0000] = 546 := by decide +kernel

/-- Arguments for the pages that `exec` takes when the first process executes
its own file. -/
theorem exampleLinkArgs : ∃ argv : List (List UInt8), (∀ arg ∈ argv, 0 ∉ arg) ∧
    argBytes argv = 8228 ∧ ∀ {i p q k k'}, ArgsStored exampleLayout i q k argv k' → p + 4096 = q →
      load32 k'.mem p = 0x86B99000 ∧ load32 k'.mem q = 0x86B97000 := by
  refine ⟨linkArgs [0x70, 0xB9, 0x86] [0x90, 0xB9, 0x86] 1022 1022 1023,
    linkArgs_nul _ _ _ (by simp) (by simp), argBytes_linkArgs .., ?_⟩
  intro i p q k k' ha hp
  refine ha.links (argStrings_linkArgs ..) ?_ ?_
  · rw [length_letterStrings]
    exact hp
  · rw [List.length_append, length_letterStrings]
    rfl

/-- The stack page it takes, and the two that follow on the free list. -/
theorem Entered.exec_pages {k2 : KState} {g2 : Ghost} (he : Entered exampleLayout exampleMem s g)
    (hb : Built exampleLayout true 0 (exampleLayout.fsData 2) k g
      [⟨0xC0000, exampleLayout.fsData 2 + 84, 8⟩] q k2 g2) :
    ∃ r rest, g2.free = (r + 4096) :: r :: rest ∧ q = r + 4096 + 4096 ∧ r = 0x86B97000 ∧
      rest.length = 14743 := by
  have hdown := he.free
  have hpages : elfPages (KState.init exampleMem) (exampleLayout.fsData 2) = [0xC0000] := by
    rw [elfPages_eq, exampleElf_loads]
    rfl
  rw [hpages, exampleLayout_imagePages, exampleLayout_tables] at hdown
  have hdrop := hb.free
  have hhead := hb.stack_head
  have hbegin : exampleLayout.freeRamBegin = 0x83200000 := by decide
  rw [List.map_cons, List.map_nil, exampleLayout_imagePages, hdown, Layout.drop_pagesDown]
    at hdrop hhead
  obtain ⟨n, hn⟩ : ∃ n, n = 14743 := ⟨_, rfl⟩
  rw [show 16384 - (5 + 541 + 546) - 546 = n + 1 + 2 by omega, Layout.pagesDown_two,
    List.head?_cons, Option.mem_some_iff] at hhead
  rw [show 16384 - (5 + 541 + 546) - (546 + 1) = n + 2 by omega, Layout.pagesDown_two] at hdrop
  refine ⟨_, _, hdrop, ?_, ?_, ?_⟩
  · rw [← hhead, Nat.add_mul, Nat.one_mul]
    simp only [Nat.add_assoc]
  · rw [hbegin, hn]
  · rw [Layout.length_pagesDown, hn]

/-- The first process executes its own file, and its new stack page is on the
free list. -/
theorem exampleSpilled : ∃ s g, SysReach exampleLayout (fun s op => op.Lifecycle exampleLayout s) s ∧
    s.user = true ∧ s.k.current = some 0 ∧ Live exampleLayout s.k 0 ∧
    (∀ i < 8, i ≠ 0 → pcb exampleLayout s.k i .state = ProcState.unused.code) ∧
    Spilled exampleLayout 0 1 0x86B99000 s.k g := by
  obtain ⟨argv, hnul, hbytes, hlinks⟩ := exampleLinkArgs
  obtain ⟨s, g, k', hreach, he, hfile, hexec⟩ :=
    exampleExec (fun s op => op.Lifecycle exampleLayout s) (fun _ _ => trivial) argv
  have hr := he.running
  have hok : ElfOk s.k (exampleLayout.fsData 2) :=
    (he.files.sameFile (by decide)).elfOk (by decide) exampleElf_ok
  obtain ⟨hzero, -⟩ | ⟨idx, q, k1, k2, g2, hidx, hfile', hne, hk1, hb, hk'⟩ :=
    kprocExec_spec hr.inv.inv.kmem (by decide) (fun _ => by rw [hfile]; exact hok.above) hexec
  · exact absurd (hfile.symm.trans hzero) (exampleLayout.fsData_ne_zero 2)
  have hidx2 : idx = 2 := by
    have heq := hfile'.symm.trans hfile
    simp only [Layout.fsData, Layout.fsFile, sizeofFilesystemFile] at heq
    omega
  rw [hidx2, he.exampleLoads] at hb
  obtain ⟨r, rest, hfree2, hq, hr0, hlen⟩ := he.exec_pages hb
  have hsp := hb.sp
  have hroomA : ArgRoom exampleLayout k2 0 q (argBytes argv) :=
    hb.argRoom (by decide) hfree2 hq.symm rfl (by omega)
  have hargs : ArgsStored exampleLayout 0 q k2 argv (execArgs exampleLayout k2 0 q argv) :=
    execArgs_spec hroomA hsp
  rw [← hk'] at hargs
  obtain ⟨hpq, hqr⟩ := hlinks hargs hq.symm
  have hroom := copyCount_add_free_le hb.kmem hb.leaves
  rw [hfree2, List.length_cons, List.length_cons] at hroom
  have hspill := hb.spilled (by decide) hargs hfree2 hq.symm rfl (by omega)
    (by rw [hpq]; omega) (by rw [hqr]; omega) (show 0 ≠ 1 by decide)
    (by rw [hfree2, List.length_cons, List.length_cons]; omega)
  rw [show q = 0x86B99000 by omega] at hspill
  have hw := hspill.kmem.toUser (by decide) hspill.trapframe
  have hstates : ∀ i < 8, pcb exampleLayout k' i .state = pcb exampleLayout k2 i .state :=
    fun i hi => hargs.pcb hroomA hi trivial
  have hevent : Op.Lifecycle exampleLayout s (.call (.exec examplePath argv)) := by
    intro _
    rw [hfile]
    exact hok
  have hstep : s.step exampleLayout (.call (.exec examplePath argv)) =
      some { s with k := ktrapToUser exampleLayout k' 0 } := by
    rw [hr.step_call]
    simp only [Sys.call]
    rw [if_pos ⟨by decide, hnul⟩, hexec]
    rfl
  refine ⟨_, _, hreach.step hevent hstep, hr.user, ?_, ?_, ?_, hspill.words hw (by decide)⟩
  · have hcur : k'.current = k2.current := by rw [hargs.state]
    rw [hw.grow.current, hcur, hb.grow.current, hk1]
    exact hr.current
  · refine hw.live.mpr ⟨by decide, ?_⟩
    have hstate := hb.field_eq .state trivial (by simp) (by simp) (by simp) (by simp) (by simp)
      (by simp)
    rw [hstates 0 (by decide), hstate, hk1,
      pcb_setPcb_same (by decide)]
    decide
  · intro i hi hi0
    rw [hw.pcb (f := .state) hi trivial, hstates i hi,
      hb.grow.pcb_other (f := .state) hi trivial hi0, hk1,
      pcb_setPcb_of_ne_slot (f := .state) (g := .state) trivial trivial hi0]
    exact he.others i hi hi0

/-! ## §3 Fork -/

/-- `kproc_fork` as in `kprocFork_spec`, with the pages that became the
child's tables. -/
theorem kprocFork_tables {ret : Nat} (hk : KmemInv L k g)
    (ht : Tree k.mem g (.proc cur) (pcb L k cur .pagetable)) (hcur : Live L k cur)
    (hT : HasTable k.mem (pcb L k cur .pagetable) 1023)
    (htf : g.ow (pcb L k cur .trapframe) = .trapframe (.proc cur))
    (h : kprocFork L k cur = some (ret, k')) :
    ∃ i k3 g', freeSlot L k = some i ∧ i ≠ cur ∧ Forked L cur i k g k3 g' ∧
      k' = forkReturn L k3 cur i ∧ ∀ t < 1024, HasTable k.mem (pcb L k cur .pagetable) t →
        ∃ q ∈ (g.free.drop (1 + tableCount k.mem (pcb L k cur .pagetable) t +
          userCount k.mem (pcb L k cur .pagetable) (1024 * t))).head?, g'.ow q = .table (.proc i) t := by
  obtain ⟨i, k1, k2, hslot, h1, h2, hk', -⟩ := kprocFork_stages h
  obtain ⟨hi, hunused⟩ := freeSlot_spec hslot
  have hne : i ≠ cur := by
    rintro rfl
    exact hcur.2 hunused
  obtain ⟨g1, hs⟩ := forkSpace_spec hk ht hcur.1 hi hne h1
  have htf1 : g1.ow (pcb L k1 cur .trapframe) = .trapframe (.proc cur) := by
    rw [hs.grow.pcb_other (f := .trapframe) hcur.1 trivial (fun h => hne h.symm),
      hs.grow.keep _ (by rw [htf]; exact nofun), htf]
  obtain ⟨g2, hf⟩ := forkTrapframe_spec hs.kmem hs.tree ((hs.hasTable 1023 (by omega)).mpr hT)
    hcur.1 hi hne htf1 h2
  refine ⟨i, _, g2, hslot, hne, forkContext_spec hk hs hf rfl hcur.1 hi hne htf, hk', ?_⟩
  intro t hlt hTt
  have htable := hs.tree.table t hlt ((hs.hasTable t hlt).mpr hTt)
  exact ⟨_, hs.page t hlt hTt, by rw [hf.grow.keep _ (by rw [htable]; nofun), htable]⟩

/-- The stack page `q` of slot `cur` is the first table of slot `i`. -/
structure Torn (L : Layout) (cur i q : Nat) (k : KState) (g : Ghost) : Prop where
  kmem : KmemInv L k g
  live : Live L k cur
  child : Live L k i
  ne : i ≠ cur
  pagetable : g.ow (pcb L k cur .pagetable) = .root (.proc cur)
  trapframe : g.ow (pcb L k cur .trapframe) = .trapframe (.proc cur)
  childTrapframe : g.ow (pcb L k i .trapframe) = .trapframe (.proc i)
  userStack : pcb L k cur .userStack = q
  root : g.ow (pcb L k i .pagetable) = .root (.proc i)
  page : g.ow q = .table (.proc i) 0
  hasTable : HasTable k.mem (pcb L k i .pagetable) 0
  tableOf : tableOf k.mem (pcb L k i .pagetable) 0 = q
  entry : load32 k.mem q = 15

theorem Torn.words (h : Torn L cur i q k g) (ht : TrapWords L k g k') : Torn L cur i q k' g := by
  have hcur := h.live.1
  have hi := h.child.1
  have hpt : pcb L k' cur .pagetable = pcb L k cur .pagetable := ht.pcb hcur trivial
  have htf : pcb L k' cur .trapframe = pcb L k cur .trapframe := ht.pcb hcur trivial
  have htf' : pcb L k' i .trapframe = pcb L k i .trapframe := ht.pcb hi trivial
  have hus : pcb L k' cur .userStack = pcb L k cur .userStack := ht.pcb hcur trivial
  have hroot : pcb L k' i .pagetable = pcb L k i .pagetable := ht.pcb hi trivial
  have hload := ht.grow.load_table (a := .proc i) h.kmem (fun _ hc => hc.not_table)
  have h0 := hload _ (by rw [h.root]; rfl) (4 * 0) (by omega)
  have hq := hload _ (by rw [h.page]; rfl) 0 (by omega)
  refine ⟨ht.kmem, ht.live.mpr h.live, ht.live.mpr h.child, h.ne, ?_, ?_, ?_, ?_, ?_, h.page,
    ?_, ?_, ?_⟩
  · rw [hpt, h.pagetable]
  · rw [htf, h.trapframe]
  · rw [htf', h.childTrapframe]
  · rw [hus, h.userStack]
  · rw [hroot, h.root]
  · rw [HasTable, hroot, h0]
    exact h.hasTable
  · rw [Risky321.Kernel.tableOf, hroot, h0]
    exact h.tableOf
  · exact hq.trans h.entry

theorem Layout.kernelPages_pos (L : Layout) : 0 < L.kernelPages := by
  have hle := L.kernelBase_le
  simp only [kernelPages, freeRamEnd]
  omega

/-- The child's first table is the second page it takes. -/
theorem Forked.torn {k3 : KState} {g2 : Ghost} (h : Spilled L cur i q k g) (hlive : Live L k cur)
    (hi : i < 8) (hne : i ≠ cur) (hf : Forked L cur i k g k3 g2) (how : g2.ow q = .table (.proc i) 0) :
    Torn L cur i q k3 g2 := by
  have hcur : ∀ f : PcbField, f.InStruct → pcb L k3 cur f = pcb L k cur f := fun f hf' =>
    hf.grow.pcb_other hlive.1 hf' (fun heq => hne heq.symm)
  have hzero : walk k.mem (pcb L k cur .pagetable) 0 = some 15 := by
    rw [h.kernel_map 0 L.kernelPages_pos]
  have hT0 : HasTable k.mem (pcb L k cur .pagetable) 0 := by
    have := hasTable_of_walk hzero
    rwa [Nat.zero_div] at this
  have huser : isUser (walk k.mem (pcb L k cur .pagetable) 0xFFFFF) = false := by
    have htf := trapEntry_not_user (h.kmem.page_of h.trapframe (by simp))
    rw [h.trap_map, isUser, htf]
    rfl
  have hexact := hf.exact h.unborn huser
  obtain ⟨-, hT, hq⟩ := hexact.table_eq hf.tree how
  have hentry := hf.entry 0 (by decide) (by decide)
  rw [hzero] at hentry
  have hwalk := hentry.kernel (by decide)
  have hroot := h.tree.root
  have htrap := h.trapframe
  refine ⟨hf.kmem, ?_, ⟨hi, ?_⟩, hne, ?_, ?_, hf.trapframe, ?_, hf.tree.root, how, hT,
    hq.symm, ?_⟩
  · exact ⟨hlive.1, by rw [hcur .state trivial]; exact hlive.2⟩
  · rw [hf.state]
    decide
  · rw [hcur .pagetable trivial, hf.grow.keep _ (by rw [hroot]; simp), hroot]
  · rw [hcur .trapframe trivial, hf.grow.keep _ (by rw [htrap]; simp), htrap]
  · rw [hcur .userStack trivial, h.userStack]
  · have hload := walk_of_hasTable (v := 0) (by rw [Nat.zero_div]; exact hT)
    rw [Nat.zero_div, Nat.zero_mod, ← hq, hwalk] at hload
    simp only [Nat.mul_zero, Nat.add_zero] at hload
    split at hload
    · exact (Option.some.inj hload).symm
    · cases hload

/-- A fork succeeds, and the child's first table is the second page it takes:
the stack page of the parent. -/
theorem Spilled.fork (h : Spilled L cur i q k g) (hlive : Live L k cur)
    (hslot : freeSlot L k = some i) :
    ∃ ret k3 g2, kprocFork L k cur = some (ret, forkReturn L k3 cur i) ∧ Torn L cur i q k3 g2 ∧
      k3.current = k.current := by
  have hT := hasTable_of_walk h.trap_map
  rw [show 0xFFFFF / 1024 = 1023 by decide] at hT
  cases hf : kprocFork L k cur with
  | none =>
    obtain hno | hno := kprocFork_none h.kmem h.tree hlive hT hf
    · cases hslot.symm.trans hno
    · have hroom := h.room
      omega
  | some rk =>
    obtain ⟨ret, k'⟩ := rk
    obtain ⟨j, k3, g2, hslot', hne, hfk, hk', htables⟩ :=
      kprocFork_tables h.kmem h.tree hlive hT h.trapframe hf
    obtain rfl : i = j := Option.some.inj (hslot.symm.trans hslot')
    have hzero := h.kernel_map 0 L.kernelPages_pos
    have hT0 := hasTable_of_walk hzero
    rw [Nat.zero_div] at hT0
    obtain ⟨p, rest, hfree⟩ := h.free
    obtain ⟨q', hq', how⟩ := htables 0 (by decide) hT0
    have htc : tableCount k.mem (pcb L k cur .pagetable) 0 = 0 := rfl
    have huc : userCount k.mem (pcb L k cur .pagetable) 0 = 0 := rfl
    rw [Nat.mul_zero, htc, huc, hfree] at hq'
    have hqq : q = q' := Option.some.inj hq'
    rw [← hqq] at how
    rw [hk']
    exact ⟨ret, k3, g2, rfl, hfk.torn h hlive (freeSlot_spec hslot).1 hne how, hfk.grow.current⟩

/-- The return values are words of trap frames. -/
theorem Torn.forkReturn (h : Torn L cur i q k g) :
    Torn L cur i q (Risky321.Kernel.forkReturn L k cur i) g := by
  have hw1 : TrapWords L k g (setTrapWord L k cur tfA0 (pcb L k i .pid)) :=
    h.kmem.trapWord h.trapframe (by decide)
  have h1 := h.words hw1
  exact h1.words (h1.kmem.trapWord h1.childTrapframe (by decide))

theorem Torn.toUser (h : Torn L cur i q k g) : Torn L cur i q (ktrapToUser L k cur) g :=
  h.words (h.kmem.toUser h.live.1 h.trapframe)

/-! ## §4 Exit -/

/-- When the parent exits, a link is written over the first entry of the
child's first table. -/
theorem Torn.exit (h : Torn L cur i q k g) (r : SavedRegs) :
    Live L (kprocFree L k cur r) i ∧
      walk (kprocFree L k cur r).mem (pcb L (kprocFree L k cur r) i .pagetable) 0 = none := by
  have hcur := h.live.1
  have hi := h.child.1
  have htf := h.kmem.page_of h.trapframe (by simp)
  have hpt := h.kmem.page_of h.pagetable (by simp)
  have hq := h.kmem.page_of h.page (by simp)
  have hroot := h.kmem.page_of h.root (by simp)
  have hne : ∀ {x y c d}, g.ow x = c → g.ow y = d → c ≠ d → x ≠ y := by
    rintro x y c d hx hy hcd rfl
    exact hcd (hx.symm.trans hy)
  have hprocs := L.proc_bound hcur
  have hproci := L.proc_bound hi
  simp only [sizeofProcess] at hprocs hproci
  obtain ⟨k1, hk1⟩ : ∃ k1, k1 = setPcb L k cur .state ProcState.unused.code := ⟨_, rfl⟩
  have hf1 : ∀ f : PcbField, f.InStruct → f ≠ .state → pcb L k1 cur f = pcb L k cur f := by
    intro f hf hfs
    rw [hk1, pcb_setPcb_of_ne_field (g := .state) hf trivial hfs]
  have hi1 : ∀ f : PcbField, f.InStruct → pcb L k1 i f = pcb L k i f := by
    intro f hf
    rw [hk1, pcb_setPcb_of_ne_slot (g := .state) hf trivial h.ne]
  have e1 := hf1 .trapframe trivial (by simp)
  have e2 := hf1 .pagetable trivial (by simp)
  have e3 := hf1 .userStack trivial (by simp)
  have hrel := releasePages_eq (k := k1) hcur (by rw [e1]; exact htf.1) (by rw [e2]; exact hpt.1)
  rw [e1, e2, e3, h.userStack] at hrel
  obtain ⟨k4, hk4⟩ : ∃ k4, k4 = releasePages L k1 cur := ⟨_, rfl⟩
  have hfree : kprocFree L k cur r = kprocYield L k4 cur r := by rw [hk4, hk1, kprocFree]
  -- the control block of the child
  have hpcb : ∀ f : PcbField, f.InStruct → pcb L (kprocFree L k cur r) i f = pcb L k i f := by
    intro f hf
    have hoff := PcbField.offset_lt hf
    have hyield : pcb L (kprocYield L k4 cur r) i f = pcb L k4 i f := by
      have hne' := h.ne
      refine load32_congr fun x _ _ => kprocYield_outside ?_
      simp only [Layout.proc, sizeofProcess] at *
      omega
    rw [hfree, hyield, hk4, hrel, pcb_kmemFree hq.1 hi hf, pcb_kmemFree hpt.1 hi hf,
      pcb_kmemFree htf.1 hi hf, hi1 f hf]
  -- a word of a page
  have hload : ∀ a, L.freeRamBegin ≤ a →
      load32 (kprocFree L k cur r).mem a = load32 k4.mem a := by
    intro a ha
    rw [hfree]
    exact load32_congr fun x _ _ => kprocYield_outside (by omega)
  have hfirst : load32 (kprocFree L k cur r).mem q = pcb L k cur .pagetable := by
    rw [hload q hq.1, hk4, hrel]
    exact load32_store32_of_lt (pcb_lt L k cur .pagetable)
  have hrootEntry : load32 (kprocFree L k cur r).mem (pcb L k i .pagetable) =
      load32 k.mem (pcb L k i .pagetable) := by
    have h1 := hroot.apart htf (hne h.root h.trapframe (by simp))
    have h2 := hroot.apart hpt (hne h.root h.pagetable (by simpa using h.ne))
    have h3 := hroot.apart hq (hne h.root h.page (by simp))
    have hlow := hroot.1
    rw [hload _ hroot.1, hk4, hrel]
    refine (load32_store32_disjoint _ _ (by omega)).trans ((load32_store32_disjoint _ _
      (by omega)).trans ((load32_store32_disjoint _ _ (by omega)).trans ?_))
    rw [hk1]
    exact load32_store32_disjoint _ _ (by simp only [PcbField.offset]; omega)
  refine ⟨⟨hi, by rw [hpcb .state trivial]; exact h.child.2⟩, ?_⟩
  rw [hpcb .pagetable trivial]
  have hword : ∀ n, n = 0 → load32 (kprocFree L k cur r).mem (pcb L k i .pagetable + 4 * n) =
      load32 k.mem (pcb L k i .pagetable + 4 * n) := by
    rintro n rfl
    exact hrootEntry
  have hT : HasTable (kprocFree L k cur r).mem (pcb L k i .pagetable) (0 / 1024) := by
    rw [Nat.zero_div, HasTable, hword 0 rfl]
    exact h.hasTable
  have htable :
      Risky321.Kernel.tableOf (kprocFree L k cur r).mem (pcb L k i .pagetable) 0 = q := by
    rw [Risky321.Kernel.tableOf, hword 0 rfl]
    exact h.tableOf
  have hinvalid : pcb L k cur .pagetable &&& pteV = 0 := by
    have haligned := hpt.2.2
    rw [Nat.and_one_is_mod]
    omega
  rw [walk_of_hasTable hT, Nat.zero_div, htable]
  simp only [Nat.zero_mod, Nat.mul_zero, Nat.add_zero, hfirst, hinvalid, ne_eq,
    not_true_eq_false, if_false]

end Risky321.Kernel
