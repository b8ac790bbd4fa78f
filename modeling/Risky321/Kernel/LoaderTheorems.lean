/-
Risky321.Kernel.LoaderTheorems — the address space the loader builds, as the
program in it sees it.

`userPage` is what user mode sees of a virtual page: flags and bytes, not
where the page is. For an image that is copied from static data other than
`proc_array`, `kproc_create` and `kproc_exec` build the user pages that
`userImage` gives, a function of the headers, the bytes they name and the
arguments. So the two loaders agree, whatever the headers say.

§1 pages as user mode sees them, §2 what the loader builds, §3 the two loaders.
-/
import Risky321.Kernel.ExecTheorems

namespace Risky321.Kernel

open Risky321.Lib

variable {L : Layout} {k k' k1 k2 : KState} {g g' : Ghost} {i j cur idx p v n : Nat} {heap : Bool}
  {m m' : Mem} {loads : List Load} {argv : List (List UInt8)} {path : List UInt8}

/-! ## §1 User pages -/

/-- What user mode sees of virtual page `v`: the flags of its entry, and its bytes. -/
def userPage (L : Layout) (k : KState) (i v : Nat) : Option (Nat × List UInt8) :=
  match walk k.mem (pcb L k i .pagetable) v with
  | some e =>
    if e &&& pteU ≠ 0 then some (e % 1024, loadBytes k.mem (pteAddr e) pageSize) else none
  | none => none

theorem userPage_some {e : Nat} (hw : walk k.mem (pcb L k i .pagetable) v = some e)
    (hU : e &&& pteU ≠ 0) :
    userPage L k i v = some (e % 1024, loadBytes k.mem (pteAddr e) pageSize) := by
  rw [userPage, hw]
  exact if_pos hU

theorem userPage_not_user {e : Nat} (hw : walk k.mem (pcb L k i .pagetable) v = some e)
    (hU : e &&& pteU = 0) : userPage L k i v = none := by
  rw [userPage, hw]
  exact if_neg (not_not.mpr hU)

theorem userPage_none (hw : walk k.mem (pcb L k i .pagetable) v = none) :
    userPage L k i v = none := by
  rw [userPage, hw]

/-- A page the loader mapped for user mode. -/
theorem userPage_frame (hp : L.IsPage p)
    (hw : walk k.mem (pcb L k i .pagetable) v = some (p / 4 + 31)) :
    userPage L k i v = some (31, loadBytes k.mem p pageSize) := by
  obtain ⟨-, haddr⟩ := pageEntry_flags hp (f := 31) (by norm_num) (by norm_num)
  have h3 := hp.2.2
  rw [userPage_some hw (stackEntry_user hp), haddr, show (p / 4 + 31) % 1024 = 31 by omega]

/-- The bytes of a page that is loaded: those of the file, then zeros. -/
def loadedPage (m : Mem) (ld : Load) : List UInt8 :=
  loadBytes m ld.src ld.len ++ List.replicate (pageSize - ld.len) 0

/-- The user pages of an image, with `stack` as the bytes of the stack page. -/
def userImage (m : Mem) (loads : List Load) (stack : List UInt8) (v : Nat) :
    Option (Nat × List UInt8) :=
  if v = 0xFFFFE then some (31, stack)
  else if v = 0xFFFFF then none
  else (lastLoad loads v).map fun ld => (31, loadedPage m ld)

theorem PageHolds.bytes {ld : Load} (h : PageHolds L i m ld m' p) (hlen : ld.len ≤ 4096)
    (hsrc : ∀ x < ld.len, L.Stable i (ld.src + x)) :
    loadBytes m' p pageSize = loadedPage m ld := by
  have hsplit : pageSize = ld.len + (pageSize - ld.len) := by
    simp only [pageSize]
    omega
  rw [hsplit, loadBytes_append, loadedPage]
  refine congrArg₂ (· ++ ·) ?_ ?_
  · refine loadBytes_eq (length_loadBytes _ _ _) fun x hx => ?_
    rw [length_loadBytes] at hx
    rw [h.copied x hx (hsrc x hx)]
    simp [loadBytes]
  · refine loadBytes_eq (List.length_replicate ..) fun x hx => ?_
    simp only [List.length_replicate, pageSize] at hx
    rw [List.getElem_replicate, Nat.add_assoc]
    exact h.zero _ (by omega) (by omega)

/-- What the loader builds, before the arguments. -/
theorem Built.userPage {elf : Nat} (hb : Built L heap i elf k g loads p k' g')
    (hlen : ∀ ld ∈ loads, ld.len ≤ 4096)
    (hsrc : ∀ ld ∈ loads, ∀ x < ld.len, L.Stable i (ld.src + x)) (hv : v < 2 ^ 20) :
    Risky321.Kernel.userPage L k' i v =
      userImage k.mem loads (List.replicate pageSize 0) v := by
  have hstack := hb.kmem.page_of hb.page_ow nofun
  have htf := hb.kmem.page_of hb.trapframe nofun
  have hle := L.kernelPages_lt
  rw [userImage]
  by_cases h1 : v = 0xFFFFE
  · rw [if_pos h1, h1, userPage_frame hstack hb.stack_map]
    refine congrArg (fun bs => some (31, bs)) (loadBytes_eq (List.length_replicate ..) ?_)
    intro x hx
    rw [List.length_replicate] at hx
    rw [List.getElem_replicate]
    exact hb.stack_zero x hx
  rw [if_neg h1]
  by_cases h2 : v = 0xFFFFF
  · rw [if_pos h2, h2]
    exact userPage_not_user hb.trap_map (trapEntry_not_user htf)
  rw [if_neg h2]
  cases hlast : lastLoad loads v with
  | some ld =>
    obtain ⟨hmem, -⟩ := lastLoad_mem hlast
    obtain ⟨q, hq, -, hwq, hholds⟩ := hb.image v ld hlast h1 h2
    rw [userPage_frame hq hwq, hholds.bytes (hlen ld hmem) (hsrc ld hmem)]
    rfl
  | none =>
    by_cases hker : v < L.kernelPages
    · exact userPage_not_user (hb.kernel_map v hker) (kernelEntry_not_user v)
    · exact userPage_none (hb.rest v hv (not_lt.mp hker) h1 h2 hlast)

/-- The flags of the entries of an image. -/
def imageFlags (L : Layout) (loads : List Load) (v : Nat) : Option Nat :=
  if v = 0xFFFFE then some 31
  else if v = 0xFFFFF then some 7
  else match lastLoad loads v with
    | some _ => some 31
    | none => if v < L.kernelPages then some 15 else none

/-- The process in slot `i` has the address space of an image. -/
structure ImageSpace (L : Layout) (k : KState) (i : Nat) (m : Mem) (loads : List Load)
    (stack : List UInt8) : Prop where
  user : ∀ v < 2 ^ 20, userPage L k i v = userImage m loads stack v
  flags : ∀ v < 2 ^ 20,
    (walk k.mem (pcb L k i .pagetable) v).map (· % 1024) = imageFlags L loads v
  kernel : ∀ v < 2 ^ 20, v ≠ 0xFFFFF → ∀ e, walk k.mem (pcb L k i .pagetable) v = some e →
    e &&& pteU = 0 → pteAddr e = v * 4096
  trap : ∃ e, walk k.mem (pcb L k i .pagetable) 0xFFFFF = some e ∧
    pteAddr e = pcb L k i .trapframe

theorem Built.imageSpace {elf : Nat} (hb : Built L heap i elf k g loads p k' g')
    (hlen : ∀ ld ∈ loads, ld.len ≤ 4096)
    (hsrc : ∀ ld ∈ loads, ∀ x < ld.len, L.Stable i (ld.src + x)) :
    ImageSpace L k' i k.mem loads (List.replicate pageSize 0) := by
  have htf := hb.kmem.page_of hb.trapframe nofun
  have hstack := hb.kmem.page_of hb.page_ow nofun
  have hle := L.kernelPages_lt
  obtain ⟨-, htfaddr⟩ := pageEntry_flags htf (f := 7) (by norm_num) (by norm_num)
  -- every entry is that of the stack, the trap frame, a load or the kernel
  have hcases : ∀ v < 2 ^ 20, v ≠ 0xFFFFF →
      (walk k'.mem (pcb L k' i .pagetable) v).map (· % 1024) = imageFlags L loads v ∧
      ∀ e, walk k'.mem (pcb L k' i .pagetable) v = some e → e &&& pteU = 0 →
        pteAddr e = v * 4096 := by
    intro v hv hne
    by_cases h1 : v = 0xFFFFE
    · refine ⟨?_, fun e he hU => ?_⟩
      · have h3 := hstack.2.2
        rw [h1, hb.stack_map, imageFlags, if_pos rfl, Option.map_some,
          show (p / 4 + 31) % 1024 = 31 by omega]
      · rw [h1, hb.stack_map, Option.some.injEq] at he
        exact absurd (he ▸ hU) (stackEntry_user hstack)
    rw [imageFlags, if_neg h1, if_neg hne]
    cases hlast : lastLoad loads v with
    | some ld =>
      obtain ⟨q, hq, -, hwq, -⟩ := hb.image v ld hlast h1 hne
      have h3 := hq.2.2
      refine ⟨by rw [hwq, Option.map_some, show (q / 4 + 31) % 1024 = 31 by omega], ?_⟩
      intro e he hU
      rw [hwq, Option.some.injEq] at he
      exact absurd (he ▸ hU) (stackEntry_user hq)
    | none =>
      by_cases hker : v < L.kernelPages
      · have hwk := hb.kernel_map v hker
        refine ⟨by rw [hwk, Option.map_some, show (v * 1024 + 15) % 1024 = 15 by omega]
                   exact (if_pos hker).symm, ?_⟩
        intro e he _
        rw [hwk, Option.some.injEq] at he
        rw [← he]
        exact kernelEntry_addr hv
      · have hnone := hb.rest v hv (not_lt.mp hker) h1 hne hlast
        refine ⟨by rw [hnone]; exact (if_neg hker).symm, fun e he => ?_⟩
        rw [hnone] at he
        exact absurd he nofun
  refine ⟨fun v hv => hb.userPage hlen hsrc hv, fun v hv => ?_,
    fun v hv hne => (hcases v hv hne).2, _, hb.trap_map, htfaddr⟩
  by_cases h2 : v = 0xFFFFF
  · have h3 := htf.2.2
    rw [h2, hb.trap_map, Option.map_some,
      show (pcb L k' i .trapframe / 4 + 7) % 1024 = 7 by omega]
    rfl
  · exact (hcases v hv h2).1

theorem userImage_congr {stack : List UInt8}
    (h : ∀ ld ∈ loads, ∀ x < ld.len, m' (ld.src + x) = m (ld.src + x)) :
    userImage m' loads stack v = userImage m loads stack v := by
  have hpage : ∀ ld ∈ loads, loadedPage m' ld = loadedPage m ld := by
    intro ld hmem
    refine congrArg (· ++ List.replicate (pageSize - ld.len) 0) (loadBytes_congr ?_)
    intro x h1 h2
    have hx := h ld hmem (x - ld.src) (by omega)
    rwa [Nat.add_sub_cancel' h1] at hx
  unfold userImage
  cases hlast : lastLoad loads v with
  | none => rfl
  | some ld => rw [Option.map_some, Option.map_some, hpage ld (lastLoad_mem hlast).1]

/-- Stores to the stack page and the trap frame leave the other user pages alone. -/
theorem userPage_args (hk : KmemInv L k g) (ht : Tree k.mem g (.proc i) (pcb L k i .pagetable))
    (hl : Leaves k.mem g (.proc i) (pcb L k i .pagetable)) (hi : i < 8)
    (hg : Grow L (Role.StackOf (.proc i)) (fun _ => False) k g k' g) (hv : v < 2 ^ 20) :
    walk k'.mem (pcb L k' i .pagetable) v = walk k.mem (pcb L k i .pagetable) v ∧
      (v ≠ 0xFFFFE → userPage L k' i v = userPage L k i v) := by
  have hpt : pcb L k' i .pagetable = pcb L k i .pagetable :=
    hg.pcb (f := .pagetable) hi trivial (fun _ _ => id)
  have hw : walk k'.mem (pcb L k' i .pagetable) v = walk k.mem (pcb L k i .pagetable) v := by
    rw [hpt]
    exact ht.walk_grow hk hg (fun _ h => h.not_table) hv
  refine ⟨hw, fun hne => ?_⟩
  cases hwalk : walk k.mem (pcb L k i .pagetable) v with
  | none => rw [userPage_none hwalk, userPage_none (hw.trans hwalk)]
  | some e =>
    by_cases hU : e &&& pteU = 0
    · rw [userPage_not_user hwalk hU, userPage_not_user (hw.trans hwalk) hU]
    · have how := hl v hv e hwalk hU
      have hpage := hk.page_of how nofun
      rw [userPage_some hwalk hU, userPage_some (hw.trans hwalk) hU]
      refine congrArg (fun bs => some (e % 1024, bs)) (loadBytes_congr fun x h1 h2 => ?_)
      have hx := hg.page_mem _ hpage (by rw [how]; exact nofun) (by
        rw [how]
        rintro (h | h)
        · exact hne (by injection h)
        · exact absurd h nofun) (x - pteAddr e) (by simp only [pageSize] at h2; omega)
      rwa [Nat.add_sub_cancel' h1] at hx

/-- The stack page `kproc_exec` leaves: zeros, `argv`, and the strings. -/
def stackPage (argv : List (List UInt8)) : List UInt8 :=
  List.replicate (pageSize - argBytes argv) 0 ++
    ((argPointers vaUserStackInit argv).flatMap wordBytes ++ argStrings argv)

theorem ArgsStored.stackPage (hs : ArgsStored L i p k argv k') (hfit : argBytes argv ≤ pageSize)
    (hzero : ∀ x < 4096, k.mem (p + x) = 0)
    (hapart : p + 4096 ≤ pcb L k i .trapframe ∨ pcb L k i .trapframe + 4096 ≤ p) :
    loadBytes k'.mem p pageSize = Risky321.Kernel.stackPage argv := by
  have hbytes := argBytes_eq argv
  have hlen := length_argPointers vaUserStackInit argv
  simp only [pageSize] at hfit
  have hsplit : pageSize = (pageSize - argBytes argv) +
      (4 * (argPointers vaUserStackInit argv).length + (argStrings argv).length) := by
    simp only [pageSize]
    omega
  rw [hsplit, loadBytes_append, loadBytes_append, Risky321.Kernel.stackPage]
  refine congrArg₂ (· ++ ·) ?_ (congrArg₂ (· ++ ·) ?_ ?_)
  · refine loadBytes_eq (List.length_replicate ..) fun x hx => ?_
    simp only [List.length_replicate, pageSize] at hx
    rw [List.getElem_replicate, hs.frame _ (by omega) (by omega)]
    exact hzero x (by omega)
  · rw [← loadBytes_storeWords k.mem]
    refine loadBytes_congr fun x h1 h2 => ?_
    simp only [pageSize] at h1 h2
    have hstart : p + (pageSize - argBytes argv) = p + 4096 - argBytes argv := by
      simp only [pageSize]
      omega
    rw [hstart]
    exact hs.pointers x (by omega) (by omega)
  · refine loadBytes_eq rfl fun x hx => ?_
    rw [← hs.strings x hx]
    refine congrArg k'.mem ?_
    simp only [pageSize]
    omega

/-- What `kproc_exec` leaves, with arguments that fit. -/
theorem Built.execSpace {elf : Nat} (hb : Built L heap i elf k1 g loads p k g')
    (hs : ArgsStored L i p k argv k') (hi : i < 8) (hfit : argBytes argv ≤ pageSize)
    (hlen : ∀ ld ∈ loads, ld.len ≤ 4096)
    (hsrc : ∀ ld ∈ loads, ∀ x < ld.len, L.Stable i (ld.src + x)) :
    ImageSpace L k' i k1.mem loads (stackPage argv) := by
  have hsp := hb.imageSpace hlen hsrc
  have hp := hb.kmem.page_of hb.page_ow nofun
  have hapart := hp.apart (hb.kmem.page_of hb.trapframe nofun) (by
    intro heq
    have how := hb.page_ow
    rw [heq, hb.trapframe] at how
    exact absurd how nofun)
  obtain ⟨-, hg⟩ := hs.grow hb.kmem hb.page_ow hb.trapframe hfit
  have hkeep := fun v (hv : v < 2 ^ 20) =>
    userPage_args hb.kmem hb.tree hb.leaves hi hg hv
  refine ⟨fun v hv => ?_, fun v hv => ?_, fun v hv => ?_, ?_⟩
  · obtain ⟨hw, hu⟩ := hkeep v hv
    by_cases h1 : v = 0xFFFFE
    · rw [h1] at hw ⊢
      rw [userPage_frame hp (hw.trans hb.stack_map), hs.stackPage hfit hb.stack_zero hapart,
        userImage, if_pos rfl]
    · rw [hu h1, hsp.user v hv, userImage, userImage, if_neg h1, if_neg h1]
  · rw [(hkeep v hv).1]
    exact hsp.flags v hv
  · rw [(hkeep v hv).1]
    exact hsp.kernel v hv
  · obtain ⟨e, he, haddr⟩ := hsp.trap
    refine ⟨e, (hkeep 0xFFFFF (by norm_num)).1.trans he, ?_⟩
    rw [haddr]
    exact (hg.pcb (f := .trapframe) hi trivial (fun _ _ => id)).symm

/-! ## §3 The two loaders -/

/-- An address in static data other than `proc_array`. -/
def Layout.Untouched (L : Layout) (x : Nat) : Prop := x < L.freeRamBegin ∧ ¬ L.InPcbs x

theorem Layout.Untouched.stable {x : Nat} (h : L.Untouched x) (hi : i < 8) : L.Stable i x :=
  ⟨h.1, fun hx => h.2 ⟨i, hi, hx⟩⟩

theorem Layout.InFile.untouched {x : Nat} (h : L.InFile idx x) (hidx : idx < 12) :
    L.Untouched x :=
  ⟨(h.static hidx).1, fun ⟨i, hi, hx⟩ => (h.static hidx).2 i hi hx⟩

/-- An image that is copied from data which building an address space leaves alone. -/
structure ElfUntouched (L : Layout) (k : KState) (elf : Nat) : Prop extends ElfAbove k elf where
  sources : ∀ ld ∈ elfLoads k elf, ∀ x < ld.len, L.Untouched (ld.src + x)

/-- What a successful `kproc_create` or `kproc_exec` leaves in slot `i`. -/
structure ImageReady (L : Layout) (k : KState) (elf : Nat) (argv : List (List UInt8))
    (k' : KState) (i : Nat) : Prop where
  slot : i < 8
  space : ImageSpace L k' i k.mem (elfLoads k elf) (stackPage argv)
  epc : trapWord L k' i tfEpc = elfEntry k elf
  sp : trapWord L k' i tfSp = vaUserStackInit - argBytes argv

theorem kprocCreate_ready (hk : KmemInv L k g) (hidx : idx < 12)
    (hsrc : ElfUntouched L k (L.fsData idx)) (h : kprocCreate L k (L.fsData idx) = some (i, k')) :
    ImageReady L k (L.fsData idx) [] k' i := by
  obtain ⟨hslot, k1, q, g', hk1, hb⟩ := kprocCreate_spec hk hidx hsrc.toElfAbove h
  obtain ⟨hi, -⟩ := freeSlot_spec hslot
  obtain ⟨-, hg1, -⟩ := takeSlot_grow hk hi hk1
  have hstable : ∀ ld ∈ elfLoads k (L.fsData idx), ∀ x < ld.len, L.Stable i (ld.src + x) :=
    fun ld hmem x hx => (hsrc.sources ld hmem x hx).stable hi
  have hsp := hb.imageSpace (fun ld hmem => elfLoads_len_le hmem) hstable
  have hstack : stackPage [] = List.replicate pageSize 0 := by
    simp [stackPage, argBytes, argPointers, argStrings]
  refine ⟨hi, ⟨fun v hv => ?_, hsp.flags, hsp.kernel, hsp.trap⟩, ?_, ?_⟩
  · rw [hsp.user v hv, hstack]
    exact userImage_congr fun ld hmem x hx =>
      hg1.static_mem _ (hstable ld hmem x hx).1 (hstable ld hmem x hx).2
  · rw [hb.epc]
    exact (hg1.sameFile hi hidx).entry
  · rw [hb.sp]
    rfl

/-- What a successful `kproc_exec` leaves, beyond that. -/
structure ExecReady (L : Layout) (k : KState) (g : Ghost) (elf : Nat) (argv : List (List UInt8))
    (k' : KState) (i : Nat) : Prop extends ImageReady L k elf argv k' i where
  a0 : trapWord L k' i tfA0 = argv.length
  a1 : trapWord L k' i tfA1 = vaUserStackInit - argBytes argv
  heapPage : pcb L k' i .freeHeapPage =
    (pcb L k i .freeHeapPage + 4096 * (elfLoads k elf).length) % 2 ^ 32
  owned : ∃ g', KmemInv L k' g' ∧ Tree k'.mem g' (.proc i) (pcb L k' i .pagetable) ∧
    Leaves k'.mem g' (.proc i) (pcb L k' i .pagetable) ∧
    g'.free = g.free.drop (L.imagePages (elfPages k elf) + 1)

/-- `kproc_exec` in its two parts: the image, and the arguments on its stack. -/
structure ExecParts (L : Layout) (k : KState) (g : Ghost) (cur idx : Nat)
    (argv : List (List UInt8)) (q : Nat) (k1 k2 : KState) (g2 : Ghost) (k' : KState) : Prop where
  start : k1 = setPcb L k cur .state ProcState.runnable.code
  running : Grow L (fun _ => False) (L.InPcb cur) k g k1 g
  built : Built L true cur (L.fsData idx) k1 g (elfLoads k (L.fsData idx)) q k2 g2
  stored : ArgsStored L cur q k2 argv k'
  kmem : KmemInv L k' g2
  grow : Grow L (Role.StackOf (.proc cur)) (fun _ => False) k2 g2 k' g2

theorem kprocExec_parts {ret : Nat} (hk : KmemInv L k g) (hi : cur < 8)
    (hfile : filesystemGetFiledata L k path = L.fsData idx) (hok : ElfAbove k (L.fsData idx))
    (hfit : argBytes argv ≤ pageSize) (h : kprocExec L k cur path argv = some (ret, k')) :
    ret = 0 ∧ ∃ q k1 k2 g2, ExecParts L k g cur idx argv q k1 k2 g2 k' := by
  have hne := L.fsData_ne_zero idx
  obtain ⟨hret, -⟩ := kprocExec_ready hk hi (by rw [hfile]; exact hne) h
  obtain ⟨h0, -⟩ | ⟨idx', q, k1, k2, g2, -, hfile', -, hk1, hb, hk'⟩ :=
    kprocExec_spec hk hi (fun _ => by rw [hfile]; exact hok) h
  · exact absurd (hfile.symm.trans h0) hne
  rw [hfile] at hfile'
  rw [← hfile'] at hb
  have hg1 : Grow L (fun _ => False) (L.InPcb cur) k g k1 g := by
    rw [hk1]
    exact setPcb_grow (f := .state) hi trivial
  have hstored : ArgsStored L cur q k2 argv k' := by
    rw [hk']
    exact execArgs_spec (argRoom_of_fit hb.kmem hi hb.page_ow hb.trapframe hfit) hb.sp
  obtain ⟨hkmem, hg⟩ := hstored.grow hb.kmem hb.page_ow hb.trapframe hfit
  exact ⟨hret, q, k1, k2, g2, hk1, hg1, hb, hstored, hkmem, hg⟩

theorem kprocExec_image {ret : Nat} (hk : KmemInv L k g) (hi : cur < 8) (hidx : idx < 12)
    (hfile : filesystemGetFiledata L k path = L.fsData idx)
    (hsrc : ElfUntouched L k (L.fsData idx)) (hfit : argBytes argv ≤ pageSize)
    (h : kprocExec L k cur path argv = some (ret, k')) :
    ret = 0 ∧ ExecReady L k g (L.fsData idx) argv k' cur := by
  obtain ⟨hret, q, k1, k2, g2, hp⟩ := kprocExec_parts hk hi hfile hsrc.toElfAbove hfit h
  have hb := hp.built
  have hpcb : ∀ f : PcbField, f.InStruct → pcb L k' cur f = pcb L k2 cur f :=
    fun f hf => hp.grow.pcb hi hf (fun _ _ => id)
  have hstable : ∀ ld ∈ elfLoads k (L.fsData idx), ∀ x < ld.len, L.Stable cur (ld.src + x) :=
    fun ld hmem x hx => (hsrc.sources ld hmem x hx).stable hi
  have hsp := hb.execSpace hp.stored hi hfit (fun ld hmem => elfLoads_len_le hmem) hstable
  refine ⟨hret, ⟨⟨hi, ⟨fun v hv => ?_, hsp.flags, hsp.kernel, hsp.trap⟩, ?_, hp.stored.sp⟩,
    hp.stored.a0, hp.stored.a1, ?_, g2, hp.kmem, ?_, ?_, ?_⟩⟩
  · rw [hsp.user v hv]
    exact userImage_congr fun ld hmem x hx =>
      hp.running.static_mem _ (hstable ld hmem x hx).1 (hstable ld hmem x hx).2
  · rw [hp.stored.words tfEpc (by decide) (by decide) (by decide) (by decide), hb.epc]
    exact (hp.running.sameFile hi hidx).entry
  · rw [hpcb .freeHeapPage trivial, hb.heapPage, hp.start,
      pcb_setPcb_of_ne_field (f := .freeHeapPage) (g := .state) trivial trivial nofun]
    rfl
  · rw [hpcb .pagetable trivial]
    exact hb.tree.grow hb.kmem hp.grow (fun _ h => h.not_table)
  · rw [hpcb .pagetable trivial]
    exact hb.leaves.grow hb.tree hb.kmem hp.grow (fun _ h => h.not_table)
  · rw [hb.free, elfPages_eq]

/-- Two processes, perhaps in two states, with the same address space up to the
choice of physical pages for the user's. -/
structure SameSpace (L : Layout) (k1 : KState) (i : Nat) (k2 : KState) (j : Nat) : Prop where
  flags : ∀ v < 2 ^ 20, (walk k1.mem (pcb L k1 i .pagetable) v).map (· % 1024) =
    (walk k2.mem (pcb L k2 j .pagetable) v).map (· % 1024)
  user : ∀ v < 2 ^ 20, userPage L k1 i v = userPage L k2 j v
  kernel : ∀ v < 2 ^ 20, v ≠ vaTrapframe / pageSize →
    ∀ e1, walk k1.mem (pcb L k1 i .pagetable) v = some e1 → e1 &&& pteU = 0 →
    ∀ e2, walk k2.mem (pcb L k2 j .pagetable) v = some e2 → pteAddr e2 = pteAddr e1
  trapframes :
    (∃ e, walk k1.mem (pcb L k1 i .pagetable) (vaTrapframe / pageSize) = some e ∧
      pteAddr e = pcb L k1 i .trapframe) ∧
    ∃ e, walk k2.mem (pcb L k2 j .pagetable) (vaTrapframe / pageSize) = some e ∧
      pteAddr e = pcb L k2 j .trapframe
  epc : trapWord L k1 i tfEpc = trapWord L k2 j tfEpc
  sp : trapWord L k1 i tfSp = trapWord L k2 j tfSp

theorem ImageReady.sameSpace {elf : Nat} (h1 : ImageReady L k elf argv k1 i)
    (h2 : ImageReady L k elf argv k2 j) : SameSpace L k1 i k2 j where
  flags := fun v hv => (h1.space.flags v hv).trans (h2.space.flags v hv).symm
  user := fun v hv => (h1.space.user v hv).trans (h2.space.user v hv).symm
  kernel := by
    intro v hv hne e1 hw1 hU1 e2 hw2
    have hflags := (h1.space.flags v hv).trans (h2.space.flags v hv).symm
    rw [hw1, hw2, Option.map_some, Option.map_some, Option.some.injEq] at hflags
    have hU2 : e2 &&& pteU = 0 := by
      by_contra h
      have h16 := (and_sixteen_ne_zero e2).mp h
      refine (and_sixteen_ne_zero e1).mpr ?_ hU1
      omega
    rw [h1.space.kernel v hv hne e1 hw1 hU1, h2.space.kernel v hv hne e2 hw2 hU2]
  trapframes := ⟨h1.space.trap, h2.space.trap⟩
  epc := h1.epc.trans h2.epc.symm
  sp := h1.sp.trans h2.sp.symm

/-- A second process can be created to run a shell of one page. -/
theorem Entered.create {s : Sys} {ld : Load} (he : Entered exampleLayout m s g)
    (hok : ElfOk (KState.init m) (exampleLayout.fsData 2))
    (hload : elfLoads (KState.init m) (exampleLayout.fsData 2) = [ld]) :
    ∃ k1, kprocCreate exampleLayout s.k (exampleLayout.fsData 2) = some (1, k1) := by
  have hsame : SameFile exampleLayout 2 (KState.init m) s.k := he.files.sameFile (by omega)
  have hfree := he.onePage hload
  have hslot : freeSlot exampleLayout s.k = some 1 := by
    have h0 : pcb exampleLayout s.k 0 .state ≠ ProcState.unused.code := he.running.live.2
    have h1 := he.others 1 (by omega) (by omega)
    unfold freeSlot
    rw [show List.range numProcesses = 0 :: 1 :: [2, 3, 4, 5, 6, 7] from rfl,
      List.find?_cons_of_neg (by simpa using h0), List.find?_cons_of_pos (by simpa using h1)]
  cases hcreate : kprocCreate exampleLayout s.k (exampleLayout.fsData 2) with
  | none =>
    obtain h | h := kprocCreate_none he.running.inv.inv.kmem (by omega)
      (hsame.elfAbove (by omega) hok.above) hcreate
    · rw [hslot] at h
      exact absurd h nofun
    · rw [hsame.loads (by omega) hok.headers, hload, exampleLayout_tables,
        List.length_singleton] at h
      omega
  | some pk =>
    obtain ⟨i, k1⟩ := pk
    obtain ⟨h, -⟩ := kprocCreate_cases hcreate
    rw [hslot, Option.some.injEq] at h
    exact ⟨k1, by rw [h]⟩

/-- The two loaders agree on every image whose bytes they do not overwrite
themselves, and with a slot and the pages neither fails. -/
theorem loaders_agree (L : Layout) (k : KState) (free : List Nat) (cur idx : Nat)
    (path : List UInt8) (hfree : FreeList L k free) (hcur : cur < 8) (hidx : idx < 12)
    (hfile : filesystemGetFiledata L k path = L.fsData idx)
    (hsrc : ElfUntouched L k (L.fsData idx)) :
    (∀ i k1 ret k2, kprocCreate L k (L.fsData idx) = some (i, k1) →
      kprocExec L k cur path [] = some (ret, k2) → SameSpace L k1 i k2 cur) ∧
    (4 + L.kernelTables + 2 * (elfLoads k (L.fsData idx)).length ≤ free.length →
      (freeSlot L k ≠ none → kprocCreate L k (L.fsData idx) ≠ none) ∧
        kprocExec L k cur path [] ≠ none) := by
  have hk := hfree.kmemInv
  refine ⟨fun i k1 ret k2 h1 h2 => ?_, fun hroom => ⟨fun hslot hnone => ?_, fun hnone => ?_⟩⟩
  · obtain ⟨-, hexec⟩ := kprocExec_image hk hcur hidx hfile hsrc (by decide) h2
    exact (kprocCreate_ready hk hidx hsrc h1).sameSpace hexec.toImageReady
  · obtain h | h := kprocCreate_none hk hidx hsrc.toElfAbove hnone
    · exact hslot h
    · exact absurd hroom (not_le.mpr h)
  · obtain ⟨k2, h⟩ : ∃ k2, kprocExec L k cur path [] = some (0, k2) :=
      kprocExec_exists hk hcur hidx hfile hsrc.toElfAbove hroom
    rw [hnone] at h
    exact absurd h nofun

/-- A shell of the eight bytes at offset 84. -/
theorem Entered.untouched {s : Sys} (he : Entered exampleLayout m s g)
    (hok : ElfOk (KState.init m) (exampleLayout.fsData 2))
    (hload : elfLoads (KState.init m) (exampleLayout.fsData 2) =
      [⟨0xC0000, exampleLayout.fsData 2 + 84, 8⟩]) :
    ElfUntouched exampleLayout s.k (exampleLayout.fsData 2) := by
  have hsame : SameFile exampleLayout 2 (KState.init m) s.k := he.files.sameFile (by omega)
  refine ⟨hsame.elfAbove (by omega) hok.above, fun ld hmem x hx => ?_⟩
  rw [hsame.loads (by omega) hok.headers, hload, List.mem_singleton] at hmem
  subst hmem
  have hin : exampleLayout.InFile 2 (exampleLayout.fsData 2 + 84 + x) := by
    simp only [Layout.InFile, maxFilesize] at hx ⊢
    omega
  exact hin.untouched (by omega)

theorem loaders_agree_shell : ∃ (s : Sys) (k1 k2 : KState),
    kprocCreate exampleLayout s.k (exampleLayout.fsData 2) = some (1, k1) ∧
      kprocExec exampleLayout s.k 0 examplePath [] = some (0, k2) ∧
      SameSpace exampleLayout k1 1 k2 0 := by
  obtain ⟨s, g, k2, -, he, hdata, hexec⟩ :=
    exampleExec (fun _ _ => True) (fun _ _ => trivial) []
  obtain ⟨k1, hcreate⟩ := he.create exampleElf_ok exampleElf_loads
  refine ⟨s, k1, k2, hcreate, hexec, ?_⟩
  exact (loaders_agree exampleLayout s.k g.free 0 2 examplePath
    he.running.inv.inv.kmem.freeList (by omega) (by omega) hdata
      (he.untouched exampleElf_ok exampleElf_loads)).1
    1 k1 0 k2 hcreate hexec

/-- A page that `kproc_create` loads may come from any static data, the PCB
it fills in included. -/
theorem loadPage_static {va src : Nat} (hk : KmemInv L k1 g)
    (ht : Tree k1.mem g (.proc i) (pcb L k1 i .pagetable))
    (hl : Leaves k1.mem g (.proc i) (pcb L k1 i .pagetable)) (hi : i < 8) (hva : va < 2 ^ 32)
    (hn : n ≤ 4096) (hsrc : src + n ≤ L.freeRamBegin)
    (h : loadPage L false i va src n k1 = some k2) :
    ∃ q g2 m, UserMapped L (.proc i) (pcb L k1 i .pagetable) (va / 4096) 30 k1 g q m k2 g2 ∧
      ∀ x < n, k2.mem (q + x) = k1.mem (src + x) := by
  unfold loadPage at h
  cases hal : kmemAlloc k1 with
  | none => simp [hal] at h
  | some pk =>
    obtain ⟨q, ka⟩ := pk
    simp only [hal, Bool.false_eq_true, if_false] at h
    obtain ⟨-, hq, -, hka, -⟩ := kmemAlloc_spec hk hal
    have hq1 := hq.1
    have hm : ∀ x, x < q ∨ q + 4096 ≤ x → copy ka.mem q src n x = ka.mem x :=
      fun x hx => copy_outside _ _ _ _ (by omega)
    obtain ⟨-, hgb⟩ := alloc_write (W := fun _ => False) (c := .leaf (.proc i) 0) hk hal nofun hm
    rw [hgb.pcb (f := .pagetable) hi trivial (fun _ _ hw => hw)] at h
    split at h
    · exact absurd h nofun
    · rename_i kc hmap
      obtain ⟨g2, hu⟩ := mapUserPage_spec hk ht hl hva (by decide) (by decide) hal hm hmap
      rw [Option.some.injEq] at h
      subst h
      refine ⟨q, g2, _, hu, fun x hx => ?_⟩
      rw [hu.bytes x (by omega), copy_at _ hx (by omega), hka]
      exact fill_outside _ _ _ _ (by omega)

theorem loadSegment_short {elf eph : Nat} (heph : elfProgramHeader k elf n = eph)
    (hpos : 0 < phMemsz k eph) (hlt : phMemsz k eph < pageSize) :
    loadSegment L heap i elf n k = loadPage L heap i (phVaddr k eph % 2 ^ 32)
      ((elf + phOffset k eph) % 2 ^ 32) (phMemsz k eph) k := by
  have h0 : phMemsz k eph / pageSize = 0 := Nat.div_eq_of_lt hlt
  have h1 : phMemsz k eph % pageSize = phMemsz k eph := Nat.mod_eq_of_lt hlt
  unfold loadSegment
  rw [heph]
  simp only [h0, h1, forLoop, if_pos hpos, Nat.zero_mul, Nat.add_zero]

/-- One short segment, copied from the PCB of the process that is being
created: user mode finds the process's state in it. -/
theorem kprocCreate_ownState {eph : Nat} (hk : KmemInv L k g) (hidx : idx < 12)
    (hok : ElfAbove k (L.fsData idx)) (hone : elfPhnum k (L.fsData idx) = 1)
    (heph : elfProgramHeader k (L.fsData idx) 0 = eph) (hsz : phMemsz k eph = 4)
    (hv : phVaddr k eph = 4096 * v) (hlt : v < 0xFFFFE)
    (hsrc : (L.fsData idx + phOffset k eph) % 2 ^ 32 = L.proc i + PcbField.state.offset)
    (h : kprocCreate L k (L.fsData idx) = some (i, k')) :
    ∃ q, L.IsPage q ∧ walk k'.mem (pcb L k' i .pagetable) v = some (q / 4 + 31) ∧
      (k'.mem (q + 0)).toNat = ProcState.runnable.code := by
  obtain ⟨hslot, q, hbuild⟩ := kprocCreate_cases h
  obtain ⟨hi, -⟩ := freeSlot_spec hslot
  generalize hkt : setPcb L (setPcb L k i .state ProcState.runnable.code) i .pid (i + 1) = kt
    at hbuild
  obtain ⟨hkmt, hgt, -, hstate, -⟩ := takeSlot_grow hk hi hkt.symm
  obtain ⟨k1, k2, k3, hbase, hk2, hload, hstack⟩ := buildImage_stages hbuild
  obtain ⟨g2, hs⟩ := imageStart_spec hkmt hi hidx hbase hk2
  have hsame1 := hgt.sameFile hi hidx
  have hsame2 := hs.grow.sameFile hi hidx
  have hsame : SameFile L idx k k2 := fun x hx => (hsame2 x hx).trans (hsame1 x hx)
  obtain ⟨heph2, hva2, hsz2, hoff2⟩ := hsame.programHeader hidx hok.headers (by omega) heph
  -- the one round of the loop loads one page
  have hpage : loadPage L false i (4096 * v) (L.proc i + PcbField.state.offset) 4 k2 = some k3 := by
    rw [hsame.phnum, hone, forLoop, forLoop, Option.bind_some, loadSegment_short heph2 (by omega)
      (by rw [hsz2, hsz]; decide), hva2, hoff2, hsz2, hsz, hsrc, hv,
      Nat.mod_eq_of_lt (by omega)] at hload
    exact hload
  have hb := L.proc_bound hi
  have hple := L.procArray_le
  obtain ⟨q3, g3, m3, hu, hbytes⟩ := loadPage_static hs.kmem hs.tree hs.leaves hi
    (by omega) (by omega) (by
      simp only [PcbField.offset, Layout.proc, sizeofProcess, numProcesses] at hple ⊢
      omega) hpage
  have hpt3 : pcb L k3 i .pagetable = pcb L k2 i .pagetable :=
    hu.grow.pcb (f := .pagetable) hi trivial (fun _ _ => id)
  have htf3 : pcb L k3 i .trapframe = pcb L k2 i .trapframe :=
    hu.grow.pcb (f := .trapframe) hi trivial (fun _ _ => id)
  obtain ⟨g4, hst⟩ := imageStack_spec hu.kmem (by rw [hpt3]; exact hu.tree)
    (by rw [hpt3]; exact hu.leaves) hi (by
      rw [htf3, hu.grow.keep _ (by rw [hs.trapframe]; simp), hs.trapframe]) hstack
  have hdiv : 4096 * v / 4096 = v := by omega
  have hwalk : walk k'.mem (pcb L k' i .pagetable) v = some (q3 / 4 + 31) := by
    rw [hst.field_eq .pagetable trivial (by simp), hst.walk_eq v (by omega), if_neg (by omega),
      if_neg (by omega), hpt3, hu.walk_eq v (by omega), if_pos hdiv.symm]
    rfl
  have hbyte : (k'.mem (q3 + 0)).toNat = 3 := by
    have how : g3.ow q3 = .leaf (.proc i) v := by
      rw [hu.page_ow, hdiv]
    have hst2 : pcb L k2 i .state = ProcState.runnable.code := by
      rw [hs.field_eq .state trivial (by simp) (by simp) (by simp) (by simp), hstate]
    rw [hst.leaf_bytes q3 v (by omega) how 0 (by omega), hbytes 0 (by omega), Nat.add_zero]
    have hlow : (k2.mem (L.proc i + PcbField.state.offset)).toNat =
        pcb L k2 i .state % 256 := by
      have hlt := (k2.mem (L.proc i + PcbField.state.offset)).toNat_lt
      simp only [pcb, KState.load, load32]
      omega
    rw [hlow, hst2]
    rfl
  exact ⟨q3, hu.page, hwalk, hbyte⟩

theorem userPage_head (hp : L.IsPage p)
    (hw : walk k.mem (pcb L k i .pagetable) v = some (p / 4 + 31)) :
    (userPage L k i v).map (fun e => e.2.head?) = some (some (k.mem p)) := by
  rw [userPage_frame hp hw]
  simp [loadBytes, List.head?_range, pageSize]

/-- A byte of a page that `kproc_exec` loads. -/
theorem kprocExec_source {ret x : Nat} {ld : Load} (hk : KmemInv L k g) (hi : cur < 8)
    (hfile : filesystemGetFiledata L k path = L.fsData idx) (hok : ElfAbove k (L.fsData idx))
    (hfit : argBytes argv ≤ pageSize) (h : kprocExec L k cur path argv = some (ret, k'))
    (hlast : lastLoad (elfLoads k (L.fsData idx)) v = some ld) (hv : v < 0xFFFFE)
    (hx : x < ld.len) (hsrc : L.Stable cur (ld.src + x)) :
    ∃ q, L.IsPage q ∧ walk k'.mem (pcb L k' cur .pagetable) v = some (q / 4 + 31) ∧
      k'.mem (q + x) = k.mem (ld.src + x) := by
  obtain ⟨-, q, k1, k2, g2, hp⟩ := kprocExec_parts hk hi hfile hok hfit h
  have hb := hp.built
  obtain ⟨p, hpage, how, hwalk, hholds⟩ := hb.image v ld hlast (by omega) (by omega)
  have hlen := elfLoads_len_le (lastLoad_mem hlast).1
  obtain ⟨hw, -⟩ := userPage_args hb.kmem hb.tree hb.leaves hi hp.grow (show v < 2 ^ 20 by omega)
  refine ⟨p, hpage, hw.trans hwalk, ?_⟩
  rw [hp.grow.page_mem p hpage (by rw [how]; exact nofun) (by
    rw [how]
    rintro (heq | heq)
    · injection heq with _ hv'
      omega
    · exact absurd heq nofun) x (by omega), hholds.copied x hx hsrc]
  exact hp.running.static_mem _ hsrc.1 hsrc.2

/-- A program header whose segment is not in the file: it asks for the state of
the second process control block. -/
def strayElf : List UInt8 :=
  [0x7F, 0x45, 0x4C, 0x46, 1, 1, 1, 0, 0, 0, 0, 0, 0, 0, 0, 0,
   2, 0, 243, 0, 1, 0, 0, 0, 0, 0, 0, 0xC0, 52, 0, 0, 0, 0, 0, 0, 0,
   0, 0, 0, 0, 52, 0, 32, 0, 1, 0, 40, 0, 0, 0, 0, 0,
   1, 0, 0, 0, 0x4C, 0x2F, 0x8F, 2, 0, 0, 0, 0xC0, 0, 0, 0, 0xC0,
   4, 0, 0, 0, 4, 0, 0, 0, 7, 0, 0, 0, 4, 0, 0, 0,
   0x13, 0, 0, 0, 0x6F, 0, 0, 0]

theorem strayElf_load :
    OneLoad strayElf ⟨0xC0000, exampleLayout.proc 1 + PcbField.state.offset, 4⟩ := by
  constructor <;> decide +kernel

theorem loaders_differ : ∃ (s : Sys) (k1 k2 : KState),
    SysReach exampleLayout (fun s op => op.Safe exampleLayout s) s ∧
      ElfAbove s.k (exampleLayout.fsData 2) ∧
      kprocCreate exampleLayout s.k (exampleLayout.fsData 2) = some (1, k1) ∧
      kprocExec exampleLayout s.k 0 examplePath [] = some (0, k2) ∧
      ¬ SameSpace exampleLayout k1 1 k2 0 := by
  obtain ⟨s, g, hreach, he, -⟩ :=
    strayElf_load.entered (fun s op => op.Safe exampleLayout s) (fun _ _ => trivial)
  have hk := he.running.inv.inv.kmem
  have hsame : SameFile exampleLayout 2 (KState.init (elfMem strayElf)) s.k :=
    he.files.sameFile (by omega)
  have helf := hsame.elfAbove (by omega) strayElf_load.ok.above
  have hloads := (hsame.loads (by omega) strayElf_load.headers).trans strayElf_load.loads
  obtain ⟨hdata, k2, hexec⟩ := he.exec strayElf_load.ok strayElf_load.loads strayElf_load.locate []
  obtain ⟨k1, hcreate⟩ := he.create strayElf_load.ok strayElf_load.loads
  refine ⟨s, k1, k2, hreach, helf, hcreate, hexec, fun hss => ?_⟩
  -- `kproc_create` copies the state it has just written
  have hone : elfPhnum (KState.init (elfMem strayElf)) (exampleLayout.fsData 2) = 1 := by
    decide +kernel
  obtain ⟨heph, hva, hsz, hoff⟩ := hsame.programHeader (by omega) strayElf_load.headers
    (show 0 < _ by rw [hone]; omega) rfl
  obtain ⟨q1, hq1, hw1, hbyte1⟩ := kprocCreate_ownState hk (by omega) helf
    (by rw [hsame.phnum, hone]) heph (by rw [hsz]; decide +kernel)
    (show _ = 4096 * 0xC0000 by rw [hva]; decide +kernel) (by omega)
    (by rw [hoff]; decide +kernel) hcreate
  -- `kproc_exec` copies the state of a slot that is not in use
  obtain ⟨q2, hq2, hw2, hbyte2⟩ := kprocExec_source hk (by omega) hdata helf (by decide) hexec
    (show lastLoad (elfLoads s.k (exampleLayout.fsData 2)) 0xC0000 = some
      ⟨0xC0000, exampleLayout.proc 1 + PcbField.state.offset, 4⟩ by rw [hloads]; rfl)
    (by omega) (show 0 < 4 by omega) ⟨by decide, by
      simp only [Layout.InPcb, Layout.proc, exampleLayout, PcbField.offset, sizeofProcess]
      omega⟩
  have hzero : (s.k.mem (exampleLayout.proc 1 + PcbField.state.offset + 0)).toNat = 0 := by
    have hstate := he.others 1 (by omega) (by omega)
    simp only [pcb, KState.load, load32, ProcState.code] at hstate
    rw [Nat.add_zero]
    omega
  have huser := congrArg (Option.map fun e => e.2.head?) (hss.user 0xC0000 (by norm_num))
  rw [userPage_head hq1 hw1, userPage_head hq2 hw2, Option.some.injEq, Option.some.injEq]
    at huser
  rw [← hbyte2, Nat.add_zero, ← huser] at hzero
  rw [Nat.add_zero] at hbyte1
  exact absurd (hbyte1.symm.trans hzero) (by decide)

end Risky321.Kernel
