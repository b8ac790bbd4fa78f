/-
Risky321.Kernel.ExecTheorems — what `kproc_exec` hands to the new program,
and what it leaves behind when there is no such program.

The arguments go to the top of a fresh stack page: the strings from the top
down, the first argument highest, and below them the array of pointers. The
page that holds them is written through its physical address and read by
the program through the page table that was built just before.

§1 is what building an address space leaves for any image at all, §2 how
strings and argument vectors are read through a page table, §3 that exec
delivers its arguments, §4 that the caller's strings are still there when they
are copied. §5 says when the stack it leaves is well formed.
-/
import Risky321.Kernel.LookupTheorems
import Risky321.Kernel.RunTheorems

namespace Risky321.Kernel

open Risky321.Lib

variable {L : Layout} {k k' k'' : KState} {g g' : Ghost} {i cur idx p n a va : Nat}
  {argv : List (List UInt8)} {path : List UInt8}

/-! ## §1 Any image -/

/-- What `buildImage` leaves whatever the program headers of the image say:
the stack page is new, mapped at its place, empty, and not the trap frame. -/
structure StackReady (L : Layout) (i : Nat) (k : KState) (g : Ghost) (page : Nat) (k' : KState)
    (g' : Ghost) : Prop where
  kmem : KmemInv L k' g'
  tree : Tree k'.mem g' (.proc i) (pcb L k' i .pagetable)
  grow : Grow L (Role.Of (.proc i)) (L.InPcb i) k g k' g'
  trapframe : g'.ow (pcb L k' i .trapframe) = .trapframe (.proc i)
  page_ow : g'.ow page = .leaf (.proc i) 0xFFFFE
  stack_map : walk k'.mem (pcb L k' i .pagetable) 0xFFFFE = some (page / 4 + 31)
  trap_map : walk k'.mem (pcb L k' i .pagetable) 0xFFFFF = some (pcb L k' i .trapframe / 4 + 7)
  sp : trapWord L k' i tfSp = vaUserStackInit
  words : ∀ w < 1024, w ≠ tfKernelSp → w ≠ tfKernelTrap → w ≠ tfEpc → w ≠ tfSp →
    trapWord L k' i w = 0
  root : pcb L k' i .pagetable ∈ g.free.head?
  free : ∃ n, g'.free = g.free.drop (n + 1)

/-- The new trap frame is empty but for the two words of the kernel. -/
theorem imageRoot_words (hk : KmemInv L k g) (hi : i < 8) (h : imageRoot L k i = some k')
    {w : Nat} (hw : w < 1024) (h1 : w ≠ tfKernelSp) (h2 : w ≠ tfKernelTrap) :
    trapWord L k' i w = 0 := by
  unfold imageRoot at h
  cases hal : kmemAlloc k with
  | none => simp [hal] at h
  | some pk =>
    obtain ⟨p1, k1⟩ := pk
    simp only [hal] at h
    obtain ⟨-, -, -, -, hinv1⟩ := kmemAlloc_spec hk hal
    have hk2 : KmemInv L (setPcb L k1 i .pagetable p1) (g.pop (.root (.proc i))) :=
      (hinv1 (.root (.proc i)) nofun).setPcb hi trivial
    cases hal2 : kmemAlloc (setPcb L k1 i .pagetable p1) with
    | none => simp [hal2] at h
    | some pk =>
      obtain ⟨p2, k3⟩ := pk
      simp only [hal2, Option.some.injEq] at h
      obtain ⟨-, hp2, -, -, hinv3⟩ := kmemAlloc_spec hk2 hal2
      have how := (kmemAlloc_pop_ow hk2 hal2 (.trapframe (.proc i))).1
      have hb := hp2.bounds
      have hk4 := (hinv3 (.trapframe (.proc i)) nofun).setPcb (f := .trapframe) (v := p2) hi trivial
      have htf : pcb L (setPcb L k3 i .trapframe p2) i .trapframe = p2 :=
        pcb_setPcb_same (by omega)
      rw [← h, trapWord_initContext hk4 hi (by rw [htf, how]) hw h1 h2, trapWord, htf,
        ← kmemAlloc_load_new hk2 hal2 (show 4 * w + 4 ≤ 4096 by omega)]
      apply load32_congr
      intro x hx1 hx2
      have := setPcb_page (L := L) (k := k3) (i := i) (v := p2) (x := x - p2)
        (f := .trapframe) hi trivial hp2
      rwa [show p2 + (x - p2) = x by omega] at this

theorem imageBase_words (hk : KmemInv L k g) (hi : i < 8) (h : imageBase L k i = some k')
    {w : Nat} (hw : w < 1024) (h1 : w ≠ tfKernelSp) (h2 : w ≠ tfKernelTrap) :
    trapWord L k' i w = 0 := by
  unfold imageBase at h
  cases hroot : imageRoot L k i with
  | none => simp [hroot] at h
  | some k1 =>
    simp only [hroot] at h
    obtain ⟨g1, hr⟩ := imageRoot_spec hk hi hroot
    obtain ⟨g2, hmap⟩ := mapKernel_spec (W := fun _ => False) hr.kmem hr.tree hr.empty h
    rw [trapWord_grow hmap.grow hr.kmem hr.trapframe id
      (hmap.grow.pcb hi trivial (fun _ _ hw => hw)) hw]
    exact imageRoot_words hk hi hroot hw h1 h2

theorem buildImage_any {heap : Bool} (hk : KmemInv L k g) (hi : i < 8) (hidx : idx < 12)
    (h : buildImage L heap k i (L.fsData idx) = some (p, k')) :
    ∃ g', StackReady L i k g p k' g' := by
  obtain ⟨k1, k2, k3, hbase, hk2, hload, hstack⟩ := buildImage_stages h
  obtain ⟨g2, hs⟩ := imageStart_spec hk hi hidx hbase hk2
  obtain ⟨loads, g3, hld⟩ := loadSegments_any hs.kmem hs.tree hs.leaves hi hload
  have hpt3 := hld.field_eq .pagetable trivial nofun
  have htf3 := hld.field_eq .trapframe trivial nofun
  have how3 : g3.ow (pcb L k3 i .trapframe) = .trapframe (.proc i) := by
    rw [htf3, hld.grow.keep _ (by rw [hs.trapframe]; exact nofun), hs.trapframe]
  obtain ⟨g', hst⟩ := imageStack_spec hld.kmem (by rw [hpt3]; exact hld.tree)
    (by rw [hpt3]; exact hld.leaves) hi how3 hstack
  have hpt' : pcb L k' i .pagetable = pcb L k3 i .pagetable :=
    hst.field_eq .pagetable trivial nofun
  have htf' : pcb L k' i .trapframe = pcb L k3 i .trapframe :=
    hst.field_eq .trapframe trivial nofun
  have hgrow3 : Grow L (Role.Of (.proc i)) (L.InPcb i) k g k3 g3 :=
    hs.grow.trans (hld.grow.mono (fun _ h => h.of) (fun _ h => h))
  refine ⟨g', hst.kmem, by rw [hpt']; exact hst.tree, hgrow3.trans hst.grow, ?_, hst.page_ow,
    ?_, ?_, hst.sp, ?_, ?_, ?_⟩
  · rw [htf', hst.grow.keep _ (by rw [how3]; exact nofun), how3]
  · rw [hpt', hst.walk_eq _ (by omega), if_pos rfl]
  · rw [hpt', htf', hst.walk_eq _ (by omega), if_neg (by omega), if_pos rfl]
  · intro w hw h1 h2 h3 h4
    obtain ⟨g1, hb⟩ := imageBase_spec hk hi hbase
    rw [hst.words w hw h4, trapWord_grow hld.grow hs.kmem hs.trapframe id htf3 hw, hk2,
      trapWord_setTrapWord_of_ne hb.kmem hi hb.trapframe (by decide) h3]
    exact imageBase_words hk hi hbase hw h1 h2
  · rw [hpt', hpt3]
    exact hs.root
  · refine ⟨L.imagePages (loads.map Load.page), ?_⟩
    rw [hst.ghost, Ghost.stack, Ghost.pop_free, hs.free_stack hld, List.tail_drop]

/-! ## §2 Strings and vectors through a page table -/

/-- The bytes of `s` and a NUL behind them are at `va`. -/
def StringAt (L : Layout) (k : KState) (cur va : Nat) (s : List UInt8) : Prop :=
  0 ∉ s ∧ ∀ n, (hn : n < (s ++ [0]).length) →
    loadByte L k cur ((va + n) % 2 ^ 32) = some (s ++ [0])[n]

/-- The argument vector at `a`, as `kproc_exec` counts and reads it: a pointer
to each string, and NULL behind them. -/
structure ArgvAt (L : Layout) (k : KState) (cur a : Nat) (argv : List (List UInt8)) : Prop where
  entry : ∀ n, (hn : n < argv.length) → ∃ p, p ≠ 0 ∧
    loadWord L k cur ((a + 4 * n) % 2 ^ 32) = some p ∧ StringAt L k cur p argv[n]
  terminator : loadWord L k cur ((a + 4 * argv.length) % 2 ^ 32) = some 0

/-- At one address there is one string. -/
theorem StringAt.unique {s t : List UInt8} (hs : StringAt L k cur va s)
    (ht : StringAt L k cur va t) : s = t := by
  have hbyte : ∀ n, (h1 : n < (s ++ [0]).length) → (h2 : n < (t ++ [0]).length) →
      (s ++ [0])[n] = (t ++ [0])[n] := by
    intro n h1 h2
    have := hs.2 n h1
    rw [ht.2 n h2, Option.some.injEq] at this
    exact this.symm
  -- a string that ends inside the other one would put a NUL there
  have hle : ∀ u w : List UInt8, 0 ∉ w →
      (∀ n, (h1 : n < (u ++ [0]).length) → (h2 : n < (w ++ [0]).length) →
        (u ++ [0])[n] = (w ++ [0])[n]) → w.length ≤ u.length := by
    intro u w hw hb
    by_contra hlt
    have h0 := hb u.length (by simp) (by simp; omega)
    rw [List.getElem_append_right (by omega), List.getElem_append_left (by omega)] at h0
    simp only [Nat.sub_self, List.getElem_cons_zero] at h0
    exact hw (h0 ▸ List.getElem_mem (by omega))
  have hlen : s.length = t.length :=
    Nat.le_antisymm (hle t s hs.1 (fun n h1 h2 => (hbyte n h2 h1).symm)) (hle s t ht.1 hbyte)
  refine List.ext_getElem hlen (fun n h1 h2 => ?_)
  have := hbyte n (by simp; omega) (by simp; omega)
  rwa [List.getElem_append_left h1, List.getElem_append_left h2] at this

/-- At one address there is one argument vector. -/
theorem ArgvAt.unique {argv' : List (List UInt8)} (h : ArgvAt L k cur a argv)
    (h' : ArgvAt L k cur a argv') : argv = argv' := by
  have hle : ∀ u w, ArgvAt L k cur a u → ArgvAt L k cur a w → w.length ≤ u.length := by
    intro u w hu hw
    by_contra hlt
    obtain ⟨p, hp, hload, -⟩ := hw.entry u.length (by omega)
    rw [hu.terminator, Option.some.injEq] at hload
    exact hp hload.symm
  refine List.ext_getElem (Nat.le_antisymm (hle _ _ h' h) (hle _ _ h h')) (fun n h1 h2 => ?_)
  obtain ⟨p, -, hload, hs⟩ := h.entry n h1
  obtain ⟨p', -, hload', hs'⟩ := h'.entry n h2
  rw [hload, Option.some.injEq] at hload'
  exact hs.unique (hload' ▸ hs')

/-- Reading a byte, and a word that does not cross the page, of a mapped page. -/
theorem loadByte_mapped {e : Nat} (hw : walk k.mem (pcb L k cur .pagetable) (va / 4096) = some e)
    (hR : e &&& pteR ≠ 0) (he : pteAddr e = p) :
    loadByte L k cur va = some (k.mem (p + va % 4096)) := by
  rw [loadByte, translate, pageSize, hw]
  simp only [if_pos hR, he, Option.map_some]

theorem loadWord_mapped {e : Nat} (hw : walk k.mem (pcb L k cur .pagetable) (va / 4096) = some e)
    (hR : e &&& pteR ≠ 0) (he : pteAddr e = p) (hva : va < 2 ^ 32) (hin : va % 4096 + 4 ≤ 4096) :
    loadWord L k cur va = some (k.load (p + va % 4096)) := by
  have hb : ∀ j < 4, loadByte L k cur ((va + j) % 2 ^ 32) = some (k.mem (p + va % 4096 + j)) := by
    intro j hj
    have hdiv : (va + j) % 2 ^ 32 / 4096 = va / 4096 := by omega
    have hmod : (va + j) % 2 ^ 32 % 4096 = va % 4096 + j := by omega
    rw [loadByte_mapped (by rw [hdiv]; exact hw) hR he, hmod, ← Nat.add_assoc]
  have hb0 := hb 0 (by omega)
  rw [Nat.add_zero, Nat.add_zero, Nat.mod_eq_of_lt hva] at hb0
  rw [loadWord, hb0, hb 1 (by omega), hb 2 (by omega), hb 3 (by omega)]
  rfl

/-! ## §3 The arguments -/

theorem argStrings_append (xs ys : List (List UInt8)) :
    argStrings (xs ++ ys) = argStrings ys ++ argStrings xs := by
  simp [argStrings]

/-- The strings behind, of, and before an argument. -/
theorem argStrings_split (hn : n < argv.length) :
    argStrings argv =
      argStrings (argv.drop (n + 1)) ++ ((argv[n] ++ [0]) ++ argStrings (argv.take n)) := by
  have happ := argStrings_append (argv.take (n + 1)) (argv.drop (n + 1))
  rw [List.take_append_drop, List.take_succ_eq_append_getElem hn, argStrings_concat] at happ
  exact happ

/-- Where the string of argument `n` begins, counted down from the top. -/
def argDepth (argv : List (List UInt8)) (n : Nat) : Nat := (argStrings (argv.take (n + 1))).length

theorem argDepth_eq (hn : n < argv.length) :
    argDepth argv n = argv[n].length + 1 + (argStrings (argv.take n)).length := by
  rw [argDepth, List.take_succ_eq_append_getElem hn, argStrings_concat]
  simp only [List.length_append, List.length_singleton]

theorem length_argStrings_split (hn : n < argv.length) :
    (argStrings argv).length = (argStrings (argv.drop (n + 1))).length + argDepth argv n := by
  rw [argStrings_split hn, argDepth_eq hn]
  simp only [List.length_append, List.length_singleton]

/-- The pointers are the places of the strings. -/
theorem argPointers_getElem {sp : Nat} (hsp : sp < 2 ^ 32) (hfit : (argStrings argv).length ≤ sp)
    (hn : n < (argPointers sp argv).length) :
    (argPointers sp argv)[n] = sp - argDepth argv n := by
  induction argv generalizing sp n with
  | nil => simp [argPointers] at hn
  | cons arg args ih =>
    have hlen : (argStrings (arg :: args)).length = (argStrings args).length + (arg.length + 1) := by
      simp only [length_argStrings, List.map_cons, List.sum_cons]
      omega
    have hsub : sub32 sp (arg.length + 1) = sp - (arg.length + 1) := sub32_of_le (by omega) hsp
    cases n with
    | zero => simp [argPointers, argDepth, argStrings, hsub]
    | succ n =>
      simp only [argPointers, List.getElem_cons_succ]
      rw [ih (by omega) (by omega), hsub]
      simp only [argDepth, List.take_succ_cons, length_argStrings, List.map_cons, List.sum_cons]
      omega

section Stored

variable {page : Nat}

/-- The string of argument `n` in the stack page. -/
theorem ArgsStored.string (hs : ArgsStored L i page k argv k') (hfit : argBytes argv ≤ 4096)
    (hn : n < argv.length) {j : Nat} (hj : j < (argv[n] ++ [0]).length) :
    k'.mem (page + (4096 - argDepth argv n + j)) = (argv[n] ++ [0])[j] := by
  have hbytes := argBytes_eq argv
  have hlen := length_argStrings_split hn
  have hdepth := argDepth_eq hn
  have hj' : j < argv[n].length + 1 := by simpa using hj
  have hpos : (argStrings (argv.drop (n + 1))).length + j < (argStrings argv).length := by omega
  have h := hs.strings _ hpos
  rw [show page + 4096 - (argStrings argv).length + ((argStrings (argv.drop (n + 1))).length + j) =
    page + (4096 - argDepth argv n + j) by omega] at h
  rw [h]
  simp only [argStrings_split hn]
  rw [List.getElem_append_right (by omega), List.getElem_append_left (by simp; omega)]
  congr 1
  omega

/-- The pointer to argument `n` in the stack page. -/
theorem ArgsStored.pointer (hs : ArgsStored L i page k argv k') (hfit : argBytes argv ≤ 4096)
    (hn : n < argv.length) :
    k'.load (page + (4096 - argBytes argv + 4 * n)) = vaUserStackInit - argDepth argv n := by
  have hbytes := argBytes_eq argv
  have hlen := length_argStrings_split hn
  have hlenp := length_argPointers vaUserStackInit argv
  rw [KState.load, show page + (4096 - argBytes argv + 4 * n) =
    page + 4096 - argBytes argv + 4 * n by omega]
  rw [load32_congr (fun x hx1 hx2 => hs.pointers x (by omega) (by omega)),
    load32_storeWords _ _ _ (by omega),
    argPointers_getElem (by decide) (by simp only [vaUserStackInit, vaTrapframe]; omega)]
  exact Nat.mod_eq_of_lt (by simp only [vaUserStackInit, vaTrapframe]; omega)

end Stored

/-- Two ranges `(address, length)` that do not overlap. -/
def Apart (r s : Nat × Nat) : Prop := r.1 + r.2 ≤ s.1 ∨ s.1 + s.2 ≤ r.1

/-- The ranges of the pointer array at `a` and of the strings it points to. -/
def argRanges (a : Nat) (ptrs : List Nat) (argv : List (List UInt8)) : List (Nat × Nat) :=
  (a, 4 * argv.length) :: List.zipWith (fun p arg => (p, arg.length + 1)) ptrs argv

/-- What the program of slot `cur` finds: the registers, the pointers and the
strings, all read through its page table, each in a place of its own on the
stack page. -/
structure ArgsDelivered (L : Layout) (k : KState) (cur : Nat) (argv : List (List UInt8)) :
    Prop where
  a0 : trapWord L k cur tfA0 = argv.length
  a1 : trapWord L k cur tfA1 = trapWord L k cur tfSp
  args : ∃ ptrs : List Nat, ptrs.length = argv.length ∧
    (∀ n, (hp : n < ptrs.length) → (hn : n < argv.length) →
      loadWord L k cur (trapWord L k cur tfA1 + 4 * n) = some ptrs[n] ∧
        StringAt L k cur ptrs[n] argv[n]) ∧
    (argRanges (trapWord L k cur tfA1) ptrs argv).Pairwise Apart ∧
    ∀ r ∈ argRanges (trapWord L k cur tfA1) ptrs argv,
      vaUserStack ≤ r.1 ∧ r.1 + r.2 ≤ vaTrapframe
  user : ∀ va, vaUserStack ≤ va → va < vaTrapframe → UserPage L k cur va

theorem length_argStrings_take_le {b : Nat} (h : a ≤ b) :
    (argStrings (argv.take a)).length ≤ (argStrings (argv.take b)).length := by
  have hsplit := argStrings_append ((argv.take b).take a) ((argv.take b).drop a)
  rw [List.take_append_drop, List.take_take, Nat.min_eq_left h] at hsplit
  rw [hsplit, List.length_append]
  omega

/-- The strings are one below the other, and the array is below them all. -/
theorem argRanges_apart (top : Nat) (hsp : top < 2 ^ 32) (hfit : argBytes argv ≤ top) :
    (argRanges (top - argBytes argv) (argPointers top argv) argv).Pairwise Apart ∧
      ∀ r ∈ argRanges (top - argBytes argv) (argPointers top argv) argv,
        top - argBytes argv ≤ r.1 ∧ r.1 + r.2 ≤ top := by
  have hbytes := argBytes_eq argv
  have hget : ∀ n, (hn : n < argv.length) → (hz : n < (List.zipWith
      (fun p (arg : List UInt8) => (p, arg.length + 1)) (argPointers top argv) argv).length) →
      (List.zipWith (fun p (arg : List UInt8) => (p, arg.length + 1))
        (argPointers top argv) argv)[n] = (top - argDepth argv n, argv[n].length + 1) := by
    intro n hn hz
    rw [List.getElem_zipWith, argPointers_getElem hsp (by omega)]
  have hdepth : ∀ n < argv.length, argDepth argv n ≤ (argStrings argv).length := by
    intro n hn
    have := length_argStrings_split hn
    omega
  have hlen : (List.zipWith (fun p (arg : List UInt8) => (p, arg.length + 1))
      (argPointers top argv) argv).length = argv.length := by
    rw [List.length_zipWith, length_argPointers, Nat.min_self]
  have hmem : ∀ r ∈ List.zipWith (fun p (arg : List UInt8) => (p, arg.length + 1))
      (argPointers top argv) argv, top - (argStrings argv).length ≤ r.1 ∧ r.1 + r.2 ≤ top := by
    intro r hr
    obtain ⟨n, hn, hrn⟩ := List.mem_iff_getElem.mp hr
    have hn' : n < argv.length := by omega
    have h1 := hdepth n hn'
    have h2 := argDepth_eq hn'
    rw [hget n hn' hn] at hrn
    rw [← hrn]
    dsimp only
    omega
  refine ⟨List.pairwise_cons.mpr ⟨?_, List.pairwise_iff_getElem.mpr ?_⟩, ?_⟩
  · intro r hr
    have := (hmem r hr).1
    left
    dsimp only
    omega
  · intro i j hi hj hij
    have hi' : i < argv.length := by omega
    have hj' : j < argv.length := by omega
    rw [hget i hi' hi, hget j hj' hj]
    have h1 := argDepth_eq hj'
    have h2 := hdepth j hj'
    have h3 : argDepth argv i ≤ (argStrings (argv.take j)).length :=
      length_argStrings_take_le (by omega)
    right
    dsimp only
    omega
  · intro r hr
    rcases List.mem_cons.mp hr with rfl | hr
    · dsimp only
      omega
    · have := hmem r hr
      omega

/-- A new stack page with the arguments on it, where the page table maps it. -/
structure HandedOver (L : Layout) (cur : Nat) (argv : List (List UInt8)) (page : Nat)
    (k k' : KState) : Prop where
  frame : L.IsPage page
  stack_map : walk k'.mem (pcb L k' cur .pagetable) 0xFFFFE = some (page / 4 + 31)
  trap_map : walk k'.mem (pcb L k' cur .pagetable) 0xFFFFF = some (pcb L k' cur .trapframe / 4 + 7)
  trapframe : L.IsPage (pcb L k' cur .trapframe)
  stored : ArgsStored L cur page k argv k'

theorem StackReady.handOver {page : Nat} (hr : StackReady L cur k g page k' g')
    (argv : List (List UInt8)) (hi : cur < 8) (hfit : argBytes argv ≤ 4096) :
    HandedOver L cur argv page k' (execArgs L k' cur page argv) := by
  have hs := execArgs_spec (argRoom_of_fit hr.kmem hi hr.page_ow hr.trapframe hfit) hr.sp
  obtain ⟨hk'', hg''⟩ := hs.grow hr.kmem hr.page_ow hr.trapframe hfit
  have hpcb : ∀ f : PcbField, f.InStruct →
      pcb L (execArgs L k' cur page argv) cur f = pcb L k' cur f :=
    fun f hf => hg''.pcb hi hf (fun _ _ hw => hw)
  have hwalk : ∀ v < 2 ^ 20, walk (execArgs L k' cur page argv).mem
      (pcb L (execArgs L k' cur page argv) cur .pagetable) v =
        walk k'.mem (pcb L k' cur .pagetable) v := by
    intro v hv
    rw [hpcb .pagetable trivial]
    exact hr.tree.walk_grow hr.kmem hg'' (fun _ h => h.not_table) hv
  refine ⟨hr.kmem.page_of hr.page_ow nofun, ?_, ?_, ?_, hs⟩
  · rw [hwalk _ (by omega), hr.stack_map]
  · rw [hwalk _ (by omega), hpcb .trapframe trivial, hr.trap_map]
  · rw [hpcb .trapframe trivial]
    exact hr.kmem.page_of hr.trapframe nofun

theorem pageEntry_flags (hp : L.IsPage p) {f : Nat} (hf : f < 1024) (hR : f / 2 % 2 = 1) :
    (p / 4 + f) &&& pteR ≠ 0 ∧ pteAddr (p / 4 + f) = p := by
  have hb := hp.bounds
  have hal := hp.2.2
  have hbegin := L.begin_aligned
  refine ⟨(and_two_pow_ne_zero _ 1).mpr ?_, pteAddr_entry ?_ (by omega) hf⟩
  · omega
  · omega

section HandedOver

variable {page x : Nat}

theorem vaUserStack_add (hx : x < 4096) :
    (vaUserStack + x) / 4096 = 0xFFFFE ∧ (vaUserStack + x) % 4096 = x ∧
      vaUserStack + x < 2 ^ 32 := by
  simp only [vaUserStack, vaUserStackInit, vaTrapframe, pageSize]
  omega

theorem HandedOver.loadByte (h : HandedOver L cur argv page k k') (hx : x < 4096) :
    Risky321.Kernel.loadByte L k' cur (vaUserStack + x) = some (k'.mem (page + x)) := by
  obtain ⟨hR, haddr⟩ := pageEntry_flags h.frame (f := 31) (by omega) (by omega)
  obtain ⟨hdiv, hmod, -⟩ := vaUserStack_add hx
  rw [loadByte_mapped (by rw [hdiv]; exact h.stack_map) hR haddr, hmod]

theorem HandedOver.loadWord (h : HandedOver L cur argv page k k') (hx : x + 4 ≤ 4096) :
    Risky321.Kernel.loadWord L k' cur (vaUserStack + x) = some (k'.load (page + x)) := by
  obtain ⟨hR, haddr⟩ := pageEntry_flags h.frame (f := 31) (by omega) (by omega)
  obtain ⟨hdiv, hmod, hlt⟩ := vaUserStack_add (show x < 4096 by omega)
  rw [loadWord_mapped (by rw [hdiv]; exact h.stack_map) hR haddr hlt (by omega), hmod]

/-- The address of an argument, as an offset into the stack page. -/
theorem argDepth_bounds (hfit : argBytes argv ≤ 4096) (hn : n < argv.length) :
    argv[n].length + 1 ≤ argDepth argv n ∧ argDepth argv n + 4 * argv.length ≤ 4096 := by
  have h1 := argBytes_eq argv
  have h2 := length_argStrings_split hn
  have h3 := argDepth_eq hn
  omega

theorem HandedOver.string (h : HandedOver L cur argv page k k') (hfit : argBytes argv ≤ 4096)
    (hn : n < argv.length) (hnul : 0 ∉ argv[n]) :
    StringAt L k' cur (vaUserStackInit - argDepth argv n) argv[n] := by
  refine ⟨hnul, fun j hj => ?_⟩
  have hd := argDepth_bounds hfit hn
  have hj' : j < argv[n].length + 1 := by simpa using hj
  have hva : (vaUserStackInit - argDepth argv n + j) % 2 ^ 32 =
      vaUserStack + (4096 - argDepth argv n + j) := by
    simp only [vaUserStack, vaUserStackInit, vaTrapframe, pageSize]
    omega
  rw [hva, h.loadByte (by omega), h.stored.string hfit hn hj]

/-- The pointer to argument `n`, at its place behind `a1`. -/
theorem HandedOver.pointer (h : HandedOver L cur argv page k k') (hfit : argBytes argv ≤ 4096)
    (hn : n < argv.length) :
    Risky321.Kernel.loadWord L k' cur (vaUserStackInit - argBytes argv + 4 * n) =
      some (vaUserStackInit - argDepth argv n) := by
  have hbytes := argBytes_eq argv
  have hva : vaUserStackInit - argBytes argv + 4 * n =
      vaUserStack + (4096 - argBytes argv + 4 * n) := by
    simp only [vaUserStack, vaUserStackInit, vaTrapframe, pageSize]
    omega
  rw [hva, h.loadWord (by omega), h.stored.pointer hfit hn]

theorem HandedOver.delivered (h : HandedOver L cur argv page k k') (hfit : argBytes argv ≤ 4096)
    (hnul : ∀ arg ∈ argv, 0 ∉ arg) : ArgsDelivered L k' cur argv := by
  have hbytes := argBytes_eq argv
  have ha1 := h.stored.a1
  have hlen := length_argPointers vaUserStackInit argv
  have htop : argBytes argv ≤ vaUserStackInit := by
    simp only [vaUserStackInit, vaTrapframe]
    omega
  obtain ⟨hpair, hin⟩ := argRanges_apart vaUserStackInit (by decide) htop
  refine ⟨h.stored.a0, by rw [ha1, h.stored.sp],
    ⟨argPointers vaUserStackInit argv, hlen, ?_, by rw [ha1]; exact hpair, ?_⟩, ?_⟩
  · intro n hp hn
    rw [ha1, argPointers_getElem (by decide) (by omega), h.pointer hfit hn]
    exact ⟨rfl, h.string hfit hn (hnul _ (List.getElem_mem hn))⟩
  · intro r hr
    rw [ha1] at hr
    obtain ⟨h1, h2⟩ := hin r hr
    simp only [vaUserStack, vaUserStackInit, vaTrapframe, pageSize] at *
    omega
  · intro va h1 h2
    refine ⟨page / 4 + 31, ?_, stackEntry_user h.frame⟩
    rw [show va / pageSize = 0xFFFFE by
      simp only [vaUserStack, vaUserStackInit, vaTrapframe, pageSize] at *; omega]
    exact h.stack_map

end HandedOver

/-- Exec of a file that exists: the new stack is ready, and then the arguments
go there. -/
theorem kprocExec_ready {ret : Nat} (hk : KmemInv L k g) (hi : cur < 8)
    (hfile : filesystemGetFiledata L k path ≠ 0)
    (h : kprocExec L k cur path argv = some (ret, k')) :
    ret = 0 ∧ ∃ idx page k2 g', idx < 12 ∧ filesystemGetFiledata L k path = L.fsData idx ∧
      buildImage L true (setPcb L k cur .state ProcState.runnable.code) cur (L.fsData idx) =
        some (page, k2) ∧
      StackReady L cur k g page k2 g' ∧ k' = execArgs L k2 cur page argv := by
  obtain ⟨h0, -, -⟩ | ⟨hret, idx, q, k2, hidx, hf, -, hbuild, hk'⟩ := kprocExec_cases h
  · exact absurd h0 hfile
  · have hk1 := hk.setPcb (f := .state) (v := ProcState.runnable.code) hi trivial
    obtain ⟨g', hr⟩ := buildImage_any hk1 hi hidx hbuild
    exact ⟨hret, idx, q, k2, g', hidx, hf, hbuild,
      { hr with grow := (setPcb_grow (f := .state) hi trivial).trans hr.grow }, hk'⟩

theorem FsSame.sameFile (h : FsSame L k k') (hidx : idx < 12) : SameFile L idx k k' := by
  intro x hx
  refine h x ?_
  simp only [Layout.InFile, Layout.InFiles, Layout.fsData, Layout.fsFile, maxFilesize, maxFsFiles,
    sizeofFilesystemFile] at *
  omega

theorem Layout.fsData_ne_zero (L : Layout) (idx : Nat) : L.fsData idx ≠ 0 := by
  unfold Layout.fsData
  omega

/-- `kproc_exec` of a file that is there panics only for lack of pages. -/
theorem kprocExec_exists (hk : KmemInv L k g) (hi : cur < 8) (hidx : idx < 12)
    (hfile : filesystemGetFiledata L k path = L.fsData idx) (hok : ElfAbove k (L.fsData idx))
    (hroom : 4 + L.kernelTables + 2 * (elfLoads k (L.fsData idx)).length ≤ g.free.length) :
    ∃ k', kprocExec L k cur path argv = some (0, k') := by
  have hsame : SameFile L idx k (setPcb L k cur .state ProcState.runnable.code) :=
    (setPcb_grow (g := g) (S := fun _ => False) (f := .state) hi trivial).sameFile hi hidx
  cases hbuild : buildImage L true (setPcb L k cur .state ProcState.runnable.code) cur
      (L.fsData idx) with
  | none =>
    have hlt := buildImage_none (hk.setPcb (f := .state) hi trivial) hi hidx
      (hsame.elfAbove hidx hok) hbuild
    rw [hsame.loads hidx hok.headers] at hlt
    omega
  | some pk =>
    refine ⟨execArgs L pk.2 cur pk.1 argv, ?_⟩
    simp only [kprocExec, hfile, if_neg (L.fsData_ne_zero idx), hbuild]

theorem FsSame.getFiledata (h : FsSame L k k') (hlen : path.length < maxFilesize) (hidx : idx < 12)
    (hloc : filesystemLocateFile L k path = idx) :
    filesystemGetFiledata L k' path = L.fsData idx := by
  have hloc' := (filesystemLocateFile_congr h hlen).trans hloc
  rw [filesystemGetFiledata, hloc', if_neg (by omega)]

/-- A process can execute such a shell as long as there are pages for it. -/
theorem FsSame.exec {m : Mem} {ld : Load} (h : FsSame exampleLayout (KState.init m) k)
    (hk : KmemInv exampleLayout k g) (hcur : cur < 8) (hroom : 547 ≤ g.free.length)
    (hok : ElfOk (KState.init m) (exampleLayout.fsData 2))
    (hload : elfLoads (KState.init m) (exampleLayout.fsData 2) = [ld])
    (hloc : filesystemLocateFile exampleLayout (KState.init m) examplePath = 2)
    (argv : List (List UInt8)) :
    filesystemGetFiledata exampleLayout k examplePath = exampleLayout.fsData 2 ∧
      ∃ k', kprocExec exampleLayout k cur examplePath argv = some (0, k') := by
  have hdata := h.getFiledata (by decide) (by omega) hloc
  have hsame : SameFile exampleLayout 2 (KState.init m) k := h.sameFile (by omega)
  refine ⟨hdata, kprocExec_exists hk hcur (by omega) hdata (hsame.elfAbove (by omega) hok.above) ?_⟩
  rw [hsame.loads (by omega) hok.headers, hload, exampleLayout_tables, List.length_singleton]
  omega

theorem Entered.exec {s : Sys} {m : Mem} {ld : Load} (he : Entered exampleLayout m s g)
    (hok : ElfOk (KState.init m) (exampleLayout.fsData 2))
    (hload : elfLoads (KState.init m) (exampleLayout.fsData 2) = [ld])
    (hloc : filesystemLocateFile exampleLayout (KState.init m) examplePath = 2)
    (argv : List (List UInt8)) :
    filesystemGetFiledata exampleLayout s.k examplePath = exampleLayout.fsData 2 ∧
      ∃ k', kprocExec exampleLayout s.k 0 examplePath argv = some (0, k') :=
  he.files.exec he.running.inv.inv.kmem (by decide) (by have := he.onePage hload; omega) hok hload
    hloc argv

/-- The first process of the example system can execute its own file. -/
theorem exampleExec (ok : Sys → Op → Prop) (hok : ∀ s i, ok s (.schedule i))
    (argv : List (List UInt8)) :
    ∃ s g k', SysReach exampleLayout ok s ∧ Entered exampleLayout exampleMem s g ∧
      filesystemGetFiledata exampleLayout s.k examplePath = exampleLayout.fsData 2 ∧
      kprocExec exampleLayout s.k 0 examplePath argv = some (0, k') := by
  obtain ⟨s, g, hreach, he, -⟩ := exampleEntered ok hok
  obtain ⟨hdata, k', hexec⟩ := he.exec exampleElf_ok exampleElf_loads examplePath_locate argv
  exact ⟨s, g, k', hreach, he, hdata, hexec⟩

/-- Arguments that fit on a page are delivered: whatever the image is, and
whatever the state is otherwise, if the free list is sound. -/
theorem exec_delivers_arguments (L : Layout) (k k' : KState) (free : List Nat) (cur ret : Nat)
    (path : List UInt8) (argv : List (List UInt8)) (hfree : FreeList L k free) (hcur : cur < 8)
    (hfile : filesystemGetFiledata L k path ≠ 0) (hnul : ∀ arg ∈ argv, 0 ∉ arg)
    (hfit : (argv.map (fun arg => arg.length + 1)).sum + 4 * argv.length ≤ pageSize)
    (h : kprocExec L k cur path argv = some (ret, k')) :
    ret = 0 ∧ ArgsDelivered L k' cur argv := by
  obtain ⟨hret, idx, page, k2, g', -, -, -, hr, hk'⟩ :=
    kprocExec_ready hfree.kmemInv hcur hfile h
  rw [hk']
  exact ⟨hret, (hr.handOver argv hcur hfit).delivered hfit hnul⟩

theorem exec_delivers_echo : ∃ (s : Sys) (g : Ghost) (k' : KState),
    FreeList exampleLayout s.k g.free ∧
      kprocExec exampleLayout s.k 0 examplePath [[101, 99, 104, 111], [], [104, 105]] =
        some (0, k') ∧
      ArgsDelivered exampleLayout k' 0 [[101, 99, 104, 111], [], [104, 105]] := by
  obtain ⟨s, g, k', -, he, hdata, hexec⟩ := exampleExec (fun _ _ => True) (fun _ _ => trivial)
    [[101, 99, 104, 111], [], [104, 105]]
  have hfree := he.running.inv.inv.kmem.freeList
  exact ⟨s, g, k', hfree, hexec,
    (exec_delivers_arguments exampleLayout s.k k' g.free 0 0 examplePath _ hfree (by decide)
      (by rw [hdata]; decide) (by decide) (by decide) hexec).2⟩

/-! ## §4 The caller's strings -/

/-- A byte of a user page of the address space with root table `root`. While
`kproc_exec` builds the new address space `satp` keeps the root table of the
old one, so this is how it reads the strings of its caller. -/
def spaceByte (k : KState) (root va : Nat) : Option UInt8 :=
  (walk k.mem root (va / pageSize)).bind fun e =>
    if e &&& pteU ≠ 0 then some (k.mem (pteAddr e + va % pageSize)) else none

/-- Whatever is not on the free list when `kproc_exec` is called is neither
freed nor written until the arguments `argv` have been copied. -/
theorem exec_keeps_pages {page : Nat} {free : List Nat} (hfree : FreeList L k free) (hi : cur < 8)
    (hidx : idx < 12)
    (hbuild : buildImage L true (setPcb L k cur .state ProcState.runnable.code) cur
      (L.fsData idx) = some (page, k'))
    (hfit : (argStrings argv).length ≤ 4096) (hp : L.IsPage p) (hused : p ∉ free) (hx : x < 4096) :
    (argv.foldl (pushArg L cur) { phys := page + pageSize, tmpArgv := [], k := k' }).k.mem (p + x) =
      k.mem (p + x) := by
  have hk := hfree.kmemInv
  obtain ⟨g', hr⟩ := buildImage_any (hk.setPcb (f := .state) hi trivial) hi hidx hbuild
  -- the page had no role before, and has none in the new address space
  have hlost : (freeGhost free).ow p = .lost := if_neg hused
  have hrole : ∀ q, g'.ow q ≠ .lost → p ≠ q := by
    rintro q hq rfl
    exact hq ((hr.grow.keep p (by rw [hlost]; simp)).trans hlost)
  have h1 := hp.apart (hr.kmem.page_of hr.page_ow (by simp)) (hrole _ (by rw [hr.page_ow]; simp))
  have h2 := hp.apart (hr.kmem.page_of hr.trapframe (by simp))
    (hrole _ (by rw [hr.trapframe]; simp))
  have hpushed := pushArgs_spec argv
    (argRoom_of_fit hr.kmem hi hr.page_ow hr.trapframe hfit) hr.sp
  have hphys := hpushed.phys
  have hbounds := hp.bounds
  calc _ = k'.mem (p + x) := hpushed.frame (p + x) (by omega) (by simp only [tfSp]; omega)
    _ = (setPcb L k cur .state ProcState.runnable.code).mem (p + x) :=
      hr.grow.page_mem p hp (by rw [hlost]; simp) (by rw [hlost]; exact id) x hx
    _ = k.mem (p + x) := setPcb_page (f := .state) hi trivial hp

/-- What the caller had in its user pages is there when an argument is copied,
the arguments `argv` having been copied before. -/
theorem exec_caller_kept {page : Nat} (hI : Inv L k g) (hlive : Live L k cur) (hidx : idx < 12)
    (hbuild : buildImage L true (setPcb L k cur .state ProcState.runnable.code) cur
      (L.fsData idx) = some (page, k'))
    (hfit : (argStrings argv).length ≤ 4096) (hva : va < 2 ^ 32) :
    spaceByte (argv.foldl (pushArg L cur) { phys := page + pageSize, tmpArgv := [], k := k' }).k
        (pcb L k cur .pagetable) va =
      spaceByte k (pcb L k cur .pagetable) va := by
  have hproc := hI.proc cur hlive
  have hkeep := fun q (hq : g.ow q ≠ .free) (hq' : g.ow q ≠ .lost) x (hx : x < 4096) =>
    exec_keeps_pages hI.kmem.freeList hlive.1 hidx hbuild hfit (hI.kmem.page q hq')
      (fun hmem => hq ((hI.kmem.free_iff q).mp hmem)) hx
  have hwalk := hproc.tree.walk_eq (v := va / pageSize)
    (fun q hq x hx => load32_congr fun y h1 h2 => by
      obtain ⟨o, rfl⟩ := Nat.exists_eq_add_of_le (show q ≤ y by omega)
      exact hkeep q hq.ne_free hq.ne_lost o (by omega)) (by simp only [pageSize]; omega)
  unfold spaceByte
  rw [hwalk]
  cases he : walk k.mem (pcb L k cur .pagetable) (va / pageSize) with
  | none => rfl
  | some e =>
    simp only [Option.bind_some]
    split
    · rename_i hU
      have hleaf := hproc.leaves _ (by simp only [pageSize]; omega) e he hU
      rw [hkeep _ (by rw [hleaf]; simp) (by rw [hleaf]; simp) _
        (Nat.mod_lt va (show 0 < pageSize by decide))]
    · rfl

/-! ## §5 The initial stack -/

/-- Where the end of `kproc_exec` stores, as `(address, length)`: each round of
the loop puts a string at the `physical_user_stack` it comes to, and the array
goes below the last one. -/
def argStores (L : Layout) (i argc : Nat) (s : ArgState) : List (List UInt8) → List (Nat × Nat)
  | [] => [(sub32 s.phys (4 * argc), 4 * argc)]
  | arg :: args => ((pushArg L i s arg).phys, arg.length + 1) ::
      argStores L i argc (pushArg L i s arg) args

/-- The stores of the trap frame do not change where it is. -/
theorem pcb_trapframe_congr {tf : Nat} (htf : pcb L k i .trapframe = tf)
    (hm : ∀ x, L.InPcb i x → k'.mem x = k.mem x) : pcb L k' i .trapframe = tf := by
  rw [← htf]
  refine load32_congr fun x h1 h2 => hm x ?_
  simp only [PcbField.offset] at h1 h2
  simp only [Layout.InPcb]
  omega

/-- The rounds that are left write what `argStores` lists and the trap frame of
the slot, as long as no string hits the slot's control block. -/
theorem pushArgs_outside {argc tf : Nat} {s : ArgState} (htf : pcb L s.k i .trapframe = tf)
    (hlen : s.tmpArgv.length + argv.length = argc)
    (hapart : L.proc i + 120 ≤ tf ∨ tf + 4096 ≤ L.proc i)
    (hslot : ∀ r ∈ argStores L i argc s argv, ∀ x, L.InPcb i x → x < r.1 ∨ r.1 + r.2 ≤ x)
    (hx : ∀ r ∈ argStores L i argc s argv, x < r.1 ∨ r.1 + r.2 ≤ x)
    (hxtf : x < tf ∨ tf + 4096 ≤ x) :
    (pushArgv L i argc (argv.foldl (pushArg L i) s)).mem x = s.k.mem x := by
  have hword : ∀ {k : KState} {w v y : Nat}, pcb L k i .trapframe = tf → w < 1024 →
      y < tf ∨ tf + 4096 ≤ y → (setTrapWord L k i w v).mem y = k.mem y := by
    intro k w v y hk hw hy
    rw [setTrapWord_eq hk]
    exact store32_outside _ _ _ (by omega)
  have hpcb : ∀ {k : KState} {w v : Nat}, pcb L k i .trapframe = tf → w < 1024 →
      pcb L (setTrapWord L k i w v) i .trapframe = tf := fun hk hw =>
    pcb_trapframe_congr hk fun y hy => hword hk hw (by simp only [Layout.InPcb] at hy; omega)
  induction argv generalizing s with
  | nil =>
    rw [List.length_nil, Nat.add_zero] at hlen
    have hrange := hx _ (List.mem_singleton.mpr rfl)
    have hranges := fun y => hslot _ (List.mem_singleton.mpr rfl) y
    have hstore : ∀ y, y < sub32 s.phys (4 * argc) ∨ sub32 s.phys (4 * argc) + 4 * argc ≤ y →
        storeWords s.k.mem (sub32 s.phys (4 * argc)) s.tmpArgv y = s.k.mem y :=
      fun y hy => storeWords_outside _ _ _ (by rw [hlen]; exact hy)
    have htf1 : pcb L { s.k with
        mem := storeWords s.k.mem (sub32 s.phys (4 * argc)) s.tmpArgv } i .trapframe = tf :=
      pcb_trapframe_congr htf fun y hy => hstore y (hranges y hy)
    rw [List.foldl_nil, pushArgv]
    rw [hword (hpcb (hpcb htf1 (by decide)) (by decide)) (by decide) hxtf,
      hword (hpcb htf1 (by decide)) (by decide) hxtf, hword htf1 (by decide) hxtf]
    exact hstore x hrange
  | cons arg args ih =>
    have hstring : ∀ y, (y < tf ∨ tf + 4096 ≤ y) →
        (y < (pushArg L i s arg).phys ∨ (pushArg L i s arg).phys + (arg.length + 1) ≤ y) →
        (pushArg L i s arg).k.mem y = s.k.mem y := by
      intro y hy hys
      refine (storeBytes_outside _ _ _ ?_).trans (hword htf (by decide) hy)
      rw [List.length_append, List.length_singleton]
      exact hys
    obtain ⟨hhead, htail⟩ := List.forall_mem_cons.mp hx
    obtain ⟨hshead, hstail⟩ := List.forall_mem_cons.mp hslot
    have htf1 : pcb L (pushArg L i s arg).k i .trapframe = tf :=
      pcb_trapframe_congr htf fun y hy =>
        hstring y (by simp only [Layout.InPcb] at hy; omega) (hshead y hy)
    have hcount : (pushArg L i s arg).tmpArgv.length + args.length = argc := by
      have hone : (pushArg L i s arg).tmpArgv.length = s.tmpArgv.length + 1 := by simp [pushArg]
      rw [List.length_cons] at hlen
      omega
    rw [List.foldl_cons, ih htf1 hcount hstail htail]
    exact hstring x hxtf hhead

/-- So does the end of `kproc_exec`. -/
theorem execArgs_outside {page tf : Nat} (htf : pcb L k i .trapframe = tf)
    (hapart : L.proc i + 120 ≤ tf ∨ tf + 4096 ≤ L.proc i)
    (hslot : ∀ r ∈ argStores L i argv.length ⟨page + pageSize, [], k⟩ argv,
      ∀ x, L.InPcb i x → x < r.1 ∨ r.1 + r.2 ≤ x)
    (hx : ∀ r ∈ argStores L i argv.length ⟨page + pageSize, [], k⟩ argv, x < r.1 ∨ r.1 + r.2 ≤ x)
    (hxtf : x < tf ∨ tf + 4096 ≤ x) : (execArgs L k i page argv).mem x = k.mem x :=
  pushArgs_outside htf (Nat.zero_add _) hapart hslot hx hxtf

/-- A store inside the page. -/
def InPage (page : Nat) (r : Nat × Nat) : Prop := page ≤ r.1 ∧ r.1 + r.2 ≤ page + pageSize

/-- The stack a program needs to pass on what it was given: exec failed and
changed nothing, or it wrote the arguments inside the new page only, `sp` is
aligned and is the address of the array, NULL ends the array, and the vector
that SYS_exec would read there is the one that was given. -/
def StackWellFormed (L : Layout) (k : KState) (cur : Nat) (path : List UInt8)
    (argv : List (List UInt8)) (ret : Nat) (k' : KState) : Prop :=
  (ret = 0xFFFFFFFF ∧ k' = k) ∨
    ∃ page k2, buildImage L true (setPcb L k cur .state ProcState.runnable.code) cur
        (filesystemGetFiledata L k path) = some (page, k2) ∧
      (∀ r ∈ argStores L cur argv.length { phys := page + pageSize, tmpArgv := [], k := k2 } argv,
        InPage page r) ∧
      trapWord L k' cur tfSp % 4 = 0 ∧ trapWord L k' cur tfA1 = trapWord L k' cur tfSp ∧
      loadWord L k' cur ((trapWord L k' cur tfA1 + 4 * argv.length) % 2 ^ 32) = some 0 ∧
      ∀ argv', ArgvAt L k' cur (trapWord L k' cur tfA1) argv' ↔ argv' = argv

/-- Arguments that give such a stack: they fit on the page, their strings fill
whole words, and there are none, or the last four are empty, so that four
NULs stand where the array ends. -/
structure StackArgs (argv : List (List UInt8)) : Prop where
  fit : argBytes argv ≤ pageSize
  aligned : (argv.map (fun arg => arg.length + 1)).sum % 4 = 0
  ends : argv = [] ∨ List.replicate 4 [] <:+ argv

/-- One store of `n` bytes below `phys`. -/
theorem inPage_sub32_iff {page phys n : Nat} (hpage : page + 4096 < 2 ^ 32) (hpos : 0 < page)
    (hlow : page ≤ phys) (hhigh : phys ≤ page + 4096) :
    InPage page (sub32 phys n, n) ↔ page + n ≤ phys := by
  simp only [InPage, sub32, pageSize]
  omega

/-- The stores stay inside the page as long as the arguments fit. -/
theorem argStores_inPage (L : Layout) (i page argc : Nat) {s : ArgState}
    (hpage : page + 4096 < 2 ^ 32) (hpos : 0 < page) (hlow : page ≤ s.phys)
    (hhigh : s.phys ≤ page + 4096) (argv : List (List UInt8)) :
    (∀ r ∈ argStores L i argc s argv, InPage page r) ↔
      page + ((argStrings argv).length + 4 * argc) ≤ s.phys := by
  induction argv generalizing s with
  | nil => simp [argStores, inPage_sub32_iff hpage hpos hlow hhigh, argStrings]
  | cons arg args ih =>
    have hlen : (argStrings (arg :: args)).length =
        (argStrings args).length + (arg.length + 1) := by
      simp only [length_argStrings, List.map_cons, List.sum_cons]
      omega
    have hphys : (pushArg L i s arg).phys = sub32 s.phys (arg.length + 1) := rfl
    rw [argStores, List.forall_mem_cons, hphys, inPage_sub32_iff hpage hpos hlow hhigh, hlen]
    by_cases h1 : page + (arg.length + 1) ≤ s.phys
    · have hsub : sub32 s.phys (arg.length + 1) = s.phys - (arg.length + 1) :=
        sub32_of_le (by omega) (by omega)
      rw [hsub] at hphys
      rw [ih (by omega) (by omega), hphys]
      omega
    · constructor
      · intro h
        exact absurd h.1 h1
      · intro h
        omega

/-- Strings without a NUL inside begin with `n` NULs only if the first `n` of
them are empty. -/
theorem replicate_zero_prefix_iff (n : Nat) (l : List (List UInt8)) (hnul : ∀ s ∈ l, 0 ∉ s) :
    List.replicate n 0 <+: (l.map (fun s => s ++ [0])).flatten ↔ List.replicate n [] <+: l := by
  induction n generalizing l with
  | zero => simp
  | succ n ih =>
    cases l with
    | nil => simp
    | cons s l =>
      have ih := ih l (fun t ht => hnul t (List.mem_cons_of_mem s ht))
      cases s with
      | nil => simpa [List.replicate_succ] using ih
      | cons c cs =>
        have hc : (0 : UInt8) ≠ c := by
          intro h0
          exact hnul (c :: cs) List.mem_cons_self (by simp [h0])
        simp [List.replicate_succ, hc]

theorem load32_eq_zero_iff (m : Mem) (a : Nat) : load32 m a = 0 ↔ ∀ j < 4, m (a + j) = 0 := by
  have hb : ∀ b : UInt8, b.toNat = 0 ↔ b = 0 := fun b => by
    rw [← UInt8.toNat_inj]
    simp
  constructor
  · intro h j hj
    rw [← hb]
    simp only [load32] at h
    obtain rfl | rfl | rfl | rfl : j = 0 ∨ j = 1 ∨ j = 2 ∨ j = 3 := by omega
    all_goals
      try rw [Nat.add_zero]
      omega
  · intro h
    have h0 := h 0 (by omega)
    rw [Nat.add_zero] at h0
    simp [load32, h0, h 1 (by omega), h 2 (by omega), h 3 (by omega)]

section HandedOver

variable {page : Nat}

/-- Behind the array stands the first word of the strings, or of the trap
frame page when there are none. -/
theorem HandedOver.terminator_iff (h : HandedOver L cur argv page k k')
    (hzero : trapWord L k cur 0 = 0) (hfit : argBytes argv ≤ 4096)
    (hal : (argv.map (fun arg => arg.length + 1)).sum % 4 = 0) (hnul : ∀ arg ∈ argv, 0 ∉ arg) :
    Risky321.Kernel.loadWord L k' cur
        ((vaUserStackInit - argBytes argv + 4 * argv.length) % 2 ^ 32) = some 0 ↔
      argv = [] ∨ List.replicate 4 [] <:+ argv := by
  by_cases hnil : argv = []
  · obtain ⟨hR, haddr⟩ := pageEntry_flags h.trapframe (f := 7) (by omega) (by omega)
    have hword : k'.load (pcb L k' cur .trapframe) = 0 := by
      rw [← hzero, ← h.stored.words 0 (by omega) (by decide) (by decide) (by decide)]
      rfl
    have hva : (vaUserStackInit - argBytes argv + 4 * argv.length) % 2 ^ 32 = 0xFFFFF000 := by
      rw [hnil]
      rfl
    have hload := loadWord_mapped (show walk k'.mem (pcb L k' cur .pagetable) (0xFFFFF000 / 4096) =
      some (pcb L k' cur .trapframe / 4 + 7) from h.trap_map) hR haddr (by omega) (by omega)
    rw [hva, hload]
    simp [hword, hnil]
  · have hbytes := argBytes_eq argv
    have hsum := length_argStrings argv
    have hpos : 0 < (argStrings argv).length := by
      have := length_argStrings_split (List.length_pos_of_ne_nil hnil)
      have := argDepth_eq (List.length_pos_of_ne_nil hnil)
      omega
    have hva : (vaUserStackInit - argBytes argv + 4 * argv.length) % 2 ^ 32 =
        vaUserStack + (4096 - (argStrings argv).length) := by
      simp only [vaUserStack, vaUserStackInit, vaTrapframe, pageSize]
      omega
    have hmem : ∀ j, (hj : j < (argStrings argv).length) →
        k'.mem (page + (4096 - (argStrings argv).length) + j) = (argStrings argv)[j] := by
      intro j hj
      rw [← h.stored.strings j hj]
      congr 1
      omega
    have hzeros : (∀ j < 4, k'.mem (page + (4096 - (argStrings argv).length) + j) = 0) ↔
        List.replicate 4 0 <+: argStrings argv := by
      rw [List.prefix_iff_getElem]
      constructor
      · intro hz
        refine ⟨by simp; omega, fun j hj => ?_⟩
        rw [List.length_replicate] at hj
        rw [List.getElem_replicate, ← hmem j (by omega), hz j hj]
      · rintro ⟨_, hz⟩ j hj
        rw [hmem j (by omega), ← hz j (by simpa using hj), List.getElem_replicate]
    have hrev : argStrings argv = (argv.reverse.map (fun arg => arg ++ [0])).flatten := rfl
    rw [hva, h.loadWord (by omega), Option.some.injEq, KState.load, load32_eq_zero_iff, hzeros,
      hrev, replicate_zero_prefix_iff 4 argv.reverse (by simpa using hnul), or_iff_right hnil,
      ← List.reverse_prefix, List.reverse_replicate]

/-- With NULL behind the array the vector at `a1` is the one that was given. -/
theorem HandedOver.argvAt (h : HandedOver L cur argv page k k') (hfit : argBytes argv ≤ 4096)
    (hnul : ∀ arg ∈ argv, 0 ∉ arg)
    (hend : Risky321.Kernel.loadWord L k' cur
      ((vaUserStackInit - argBytes argv + 4 * argv.length) % 2 ^ 32) = some 0) :
    ArgvAt L k' cur (vaUserStackInit - argBytes argv) argv := by
  refine ⟨fun n hn => ⟨vaUserStackInit - argDepth argv n, ?_, ?_, ?_⟩, hend⟩
  · have := argDepth_bounds hfit hn
    simp only [vaUserStackInit, vaTrapframe]
    omega
  · have hbytes := argBytes_eq argv
    rw [Nat.mod_eq_of_lt (by simp only [vaUserStackInit, vaTrapframe]; omega)]
    exact h.pointer hfit hn
  · exact h.string hfit hn (hnul _ (List.getElem_mem hn))

theorem HandedOver.sp_aligned_iff (h : HandedOver L cur argv page k k')
    (hfit : argBytes argv ≤ 4096) :
    trapWord L k' cur tfSp % 4 = 0 ↔ (argv.map (fun arg => arg.length + 1)).sum % 4 = 0 := by
  have hbytes := argBytes_eq argv
  have hsum := length_argStrings argv
  rw [h.stored.sp]
  simp only [vaUserStackInit, vaTrapframe]
  omega

end HandedOver

/-- The stack is well formed for exactly these arguments. -/
theorem exec_stack_wellFormed_iff (L : Layout) (k k' : KState) (free : List Nat) (cur ret : Nat)
    (path : List UInt8) (argv : List (List UInt8)) (hfree : FreeList L k free) (hcur : cur < 8)
    (hfile : filesystemGetFiledata L k path ≠ 0) (hnul : ∀ arg ∈ argv, 0 ∉ arg)
    (h : kprocExec L k cur path argv = some (ret, k')) :
    StackWellFormed L k cur path argv ret k' ↔ StackArgs argv := by
  obtain ⟨hret, idx, page, k2, g', -, hf, hbuild, hr, hk'⟩ :=
    kprocExec_ready hfree.kmemInv hcur hfile h
  have hb := (hr.kmem.page_of hr.page_ow nofun).bounds
  have hbytes := argBytes_eq argv
  have hstores := argStores_inPage L cur page argv.length
    (s := { phys := page + pageSize, tmpArgv := [], k := k2 }) (by omega) (by omega)
    (show page ≤ page + pageSize by omega) (by rfl) argv
  have hzero : trapWord L k2 cur 0 = 0 :=
    hr.words 0 (by omega) (by decide) (by decide) (by decide) (by decide)
  have hover : argBytes argv ≤ 4096 → HandedOver L cur argv page k2 k' := by
    intro hfit
    rw [hk']
    exact hr.handOver argv hcur hfit
  constructor
  · rintro (⟨hfail, -⟩ | ⟨page', k2', hbuild', hin, hsp, ha1, hend, -⟩)
    · rw [hret] at hfail
      exact absurd hfail (by decide)
    · rw [hf, hbuild, Option.some.injEq, Prod.mk.injEq] at hbuild'
      rw [← hbuild'.1, ← hbuild'.2] at hin
      have hfit : argBytes argv ≤ 4096 := by
        have := hstores.mp hin
        simp only [pageSize] at this
        omega
      have hh := hover hfit
      have hal := (hh.sp_aligned_iff hfit).mp hsp
      rw [hh.stored.a1] at hend
      exact ⟨hfit, hal, (hh.terminator_iff hzero hfit hal hnul).mp hend⟩
  · rintro ⟨hfit, hal, hends⟩
    have hh := hover hfit
    have hend := (hh.terminator_iff hzero hfit hal hnul).mpr hends
    have hargv := hh.argvAt hfit hnul hend
    refine .inr ⟨page, k2, by rw [hf]; exact hbuild, hstores.mpr ?_,
      (hh.sp_aligned_iff hfit).mpr hal, by rw [hh.stored.a1, hh.stored.sp], ?_, ?_⟩
    · simp only [pageSize] at *
      omega
    · rw [hh.stored.a1]
      exact hend
    · intro argv'
      rw [hh.stored.a1]
      constructor
      · intro h'
        exact h'.unique hargv
      · rintro rfl
        exact hargv

theorem exec_stack_wellFormed_empties : ∃ (s : Sys) (k' : KState),
    kprocExec exampleLayout s.k 0 examplePath [[], [], [], []] = some (0, k') ∧
      StackWellFormed exampleLayout s.k 0 examplePath [[], [], [], []] 0 k' := by
  obtain ⟨s, g, k', -, he, hdata, hexec⟩ := exampleExec (fun _ _ => True) (fun _ _ => trivial)
    [[], [], [], []]
  refine ⟨s, k', hexec, (exec_stack_wellFormed_iff exampleLayout s.k k' g.free 0 0 examplePath _
    he.running.inv.inv.kmem.freeList (by decide) (by rw [hdata]; decide) (by decide) hexec).mpr ?_⟩
  exact ⟨by decide, by decide, .inr (List.suffix_refl _)⟩

/-- With the single argument "a" the stack pointer ends in 0xFFA. -/
theorem exec_stack_misaligned : ∃ (s : Sys) (k' : KState),
    SysReach exampleLayout (fun _ _ => True) s ∧ s.k.current = some 0 ∧
      kprocExec exampleLayout s.k 0 examplePath [[97]] = some (0, k') ∧
      trapWord exampleLayout k' 0 tfSp = 0xFFFFEFFA ∧
      ¬ StackWellFormed exampleLayout s.k 0 examplePath [[97]] 0 k' := by
  obtain ⟨s, g, k', hreach, he, hdata, hexec⟩ := exampleExec (fun _ _ => True)
    (fun _ _ => trivial) [[97]]
  obtain ⟨-, idx, page, k2, g', -, -, -, hr, hk'⟩ :=
    kprocExec_ready he.running.inv.inv.kmem (by decide) (by rw [hdata]; decide) hexec
  have hh := hr.handOver [[97]] (by decide) (by decide)
  have hsp : trapWord exampleLayout k' 0 tfSp = 0xFFFFEFFA := by
    rw [hk', hh.stored.sp]
    rfl
  refine ⟨s, k', hreach, he.running.current, hexec, hsp, ?_⟩
  rintro (⟨hfail, -⟩ | ⟨-, -, -, -, hal, -⟩)
  · exact absurd hfail (by decide)
  · rw [hsp] at hal
    exact absurd hal (by decide)

end Risky321.Kernel
