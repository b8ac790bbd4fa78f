/-
Risky321.Kernel.RefusalTheorems — what a SYS_exec trap does with a path that
names no file.

The handler assigns what `ksys_exec` returns to a local variable and to nothing
else, so that the caller finds its own `a0` as the result. §1 is how the path
and the arguments are read from memory, §2 what the handler leaves when the
lookup fails and when it does not, §3 that the caller sees a failure only where
`a0`, the address of the path, was -1 already.
-/
import Risky321.Kernel.ExecTheorems
import Risky321.Kernel.Uservec

namespace Risky321.Kernel

open Risky321.Lib

variable {L : Layout} {k k' : KState} {g g' : Ghost} {i cur idx n a va : Nat} {s s' : Sys}
  {argv : List (List UInt8)} {path : List UInt8} {sepc : Word} {t : TrapInfo} {r : SavedRegs}

/-! ## §1 Strings of the caller -/

/-- A string is shorter than the address space, or a NUL would be inside it. -/
theorem StringAt.length_lt (h : StringAt L k cur va path) : path.length < 2 ^ 32 := by
  by_contra hlong
  have hend := h.2 path.length (by simp)
  have hearly := h.2 (path.length - 2 ^ 32) (by rw [List.length_append]; omega)
  rw [List.getElem_append_right le_rfl] at hend
  rw [List.getElem_append_left (by omega),
    show (va + (path.length - 2 ^ 32)) % 2 ^ 32 = (va + path.length) % 2 ^ 32 by omega, hend,
    Option.some.injEq] at hearly
  simp only [Nat.sub_self, List.getElem_cons_zero] at hearly
  exact h.1 (hearly ▸ List.getElem_mem (by omega))

theorem StringAt.tail {c : UInt8} (h : StringAt L k cur va (c :: path)) :
    StringAt L k cur ((va + 1) % 2 ^ 32) path := by
  refine ⟨fun h0 => h.1 (List.mem_cons_of_mem c h0), fun n hn => ?_⟩
  have hbyte := h.2 (n + 1) (by simpa using hn)
  rw [show ((va + 1) % 2 ^ 32 + n) % 2 ^ 32 = (va + (n + 1)) % 2 ^ 32 by omega, hbyte]
  rfl

/-- The kernel reads the string that is there. -/
theorem loadString_of_stringAt (h : StringAt L k cur va path) (hva : va < 2 ^ 32)
    (hn : path.length < n) : loadString L k cur n va = some path := by
  induction path generalizing n va with
  | nil =>
    obtain ⟨n, rfl⟩ := Nat.exists_eq_add_of_lt hn
    have h0 := h.2 0 (by simp)
    rw [Nat.add_zero, Nat.mod_eq_of_lt hva] at h0
    rw [loadString, h0]
    rfl
  | cons c cs ih =>
    obtain ⟨n, rfl⟩ : ∃ m, n = m + 1 := ⟨n - 1, by omega⟩
    have h0 := h.2 0 (by simp)
    rw [Nat.add_zero, Nat.mod_eq_of_lt hva] at h0
    have hc : c ≠ 0 := fun hc => h.1 (hc ▸ List.mem_cons_self)
    have hrest := ih h.tail (Nat.mod_lt _ (by norm_num)) (by simpa using hn)
    rw [loadString, h0, List.getElem_append_left (by simp), List.getElem_cons_zero,
      Option.bind_some, if_neg hc, hrest, Option.map_some]

theorem loadString_nul (h : loadString L k cur n va = some path) : 0 ∉ path := by
  induction n generalizing va path with
  | zero => exact absurd h nofun
  | succ n ih =>
    rw [loadString, Option.bind_eq_some_iff] at h
    obtain ⟨c, -, h⟩ := h
    split at h
    · rw [← Option.some.inj h]
      exact List.not_mem_nil
    · rename_i hc
      obtain ⟨cs, hcs, rfl⟩ := Option.map_eq_some_iff.mp h
      rw [List.mem_cons, not_or]
      exact ⟨Ne.symm hc, ih hcs⟩

theorem loadArgs_nul (h : loadArgs L k cur n va = some argv) : ∀ arg ∈ argv, 0 ∉ arg := by
  induction n generalizing va argv with
  | zero => exact absurd h nofun
  | succ n ih =>
    rw [loadArgs, Option.bind_eq_some_iff] at h
    obtain ⟨p, -, h⟩ := h
    split at h
    · rw [← Option.some.inj h]
      exact fun _ harg => absurd harg List.not_mem_nil
    · obtain ⟨arg, harg, h⟩ := Option.bind_eq_some_iff.mp h
      obtain ⟨args, hargs, rfl⟩ := Option.map_eq_some_iff.mp h
      exact List.forall_mem_cons.mpr ⟨loadString_nul harg, ih hargs⟩

theorem loadArgv_nul (h : loadArgv L k cur va = some argv) : ∀ arg ∈ argv, 0 ∉ arg := by
  unfold loadArgv at h
  split at h
  · rw [← Option.some.inj h]
    exact fun _ harg => absurd harg List.not_mem_nil
  · exact loadArgs_nul h

/-! ## §2 The trap -/

/-- `SYS_exec`. -/
def sysExec : Nat := 7

/-- The state in which the handler makes the call of an `ecall` at `sepc`: only
`epc` has changed. -/
def trapEntry (L : Layout) (k : KState) (cur : Nat) (sepc : Word) : KState :=
  let k := setTrapWord L k cur tfEpc sepc.toNat
  setTrapWord L k cur tfEpc ((trapWord L k cur tfEpc + 4) % 2 ^ 32)

/-- The caller goes on behind its `ecall` with -1, and nothing else is changed:
no other register, no other memory (its own, the page tables, the control
blocks, the links of the free list, other processes), and no variable of the
kernel, the head of the free list among them. Two words of the trap frame are
not registers: the kernel keeps its stack and its handler there. -/
structure ExecRefused (L : Layout) (s : Sys) (cur : Nat) (sepc : Word) (s' : Sys) : Prop where
  a0 : trapWord L s'.k cur tfA0 = 0xFFFFFFFF
  epc : trapWord L s'.k cur tfEpc = (sepc.toNat + 4) % 2 ^ 32
  words : ∀ w < 1024, w ≠ tfA0 → w ≠ tfEpc → w ≠ tfKernelSp → w ≠ tfKernelTrap →
    trapWord L s'.k cur w = trapWord L s.k cur w
  mem : ∀ x, x < pcb L s.k cur .trapframe ∨ pcb L s.k cur .trapframe + 4096 ≤ x →
    s'.k.mem x = s.k.mem x
  state : s' = { s with k := { s.k with mem := s'.k.mem } }

/-- The handler reads the path and the arguments and makes the call. -/
theorem ktrapFromUserHandler_exec (ht : t.scause = scauseUmodeEcall)
    (h7 : trapWord L (trapEntry L s.k cur sepc) cur tfA7 = sysExec) :
    ktrapFromUserHandler L s cur sepc t r =
      (loadString L (trapEntry L s.k cur sepc) cur (2 ^ 32)
        (trapWord L (trapEntry L s.k cur sepc) cur tfA0)).bind fun path =>
      (loadArgv L (trapEntry L s.k cur sepc) cur
        (trapWord L (trapEntry L s.k cur sepc) cur tfA1)).bind fun argv =>
      (kprocExec L (trapEntry L s.k cur sepc) cur path argv).map fun p =>
        { s with k := ktrapToUser L p.2 cur } := by
  unfold ktrapFromUserHandler
  rw [if_pos (by rw [ht]; decide), if_pos ht]
  have hne : ¬ trapWord L (trapEntry L s.k cur sepc) cur tfA7 = sysGetpid := by
    rw [h7]
    decide
  refine (if_neg hne).trans ?_
  change (ksyscall L (trapEntry L s.k cur sepc) cur r).bind
    (fun c => Sys.call L { s with k := trapEntry L s.k cur sepc } cur c) = _
  generalize trapEntry L s.k cur sepc = k1 at *
  replace h7 : trapWord L k1 cur tfA7 = 7 := h7
  simp only [ksyscall, h7, Option.bind_assoc, Option.bind_map]
  refine Option.bind_congr fun path hpath => Option.bind_congr fun argv hargv => ?_
  simp only [Function.comp_apply, Sys.call]
  exact if_pos ⟨loadString_nul hpath, loadArgv_nul hargv⟩

/-- The lookup reads the file table only, however long the path is: no name
runs on past the size of its file. -/
theorem filesystemLocateFile_same (path : List UInt8) (h : FsSame L k k')
    (hsizes : ∀ idx < 12, k.load (L.fsSize idx) ≤ maxFilesize) (hpath : ∀ b ∈ path, b ≠ 0) :
    filesystemLocateFile L k' path = filesystemLocateFile L k path := by
  have hcmp : ∀ idx < 12, strcmp k'.mem path (L.fsName idx) = 0 ↔
      strcmp k.mem path (L.fsName idx) = 0 := by
    intro idx hidx
    -- the high byte of a file's size is zero, and so ends any comparison
    have hle : L.fsName idx ≤ L.fsSize idx + 3 := by
      simp only [Layout.fsName, Layout.fsSize]
      omega
    obtain ⟨n, hn⟩ := Nat.exists_eq_add_of_le hle
    have hmem : ∀ o ≤ n, k'.mem (L.fsName idx + o) = k.mem (L.fsName idx + o) := by
      intro o ho
      refine h _ ?_
      simp only [Layout.InFiles, Layout.fsName, Layout.fsSize, Layout.fsFile, maxFsFiles,
        sizeofFilesystemFile] at *
      omega
    have hstop : k.mem (L.fsName idx + n) = 0 := by
      have hsize := hsizes idx hidx
      rw [← hn, ← UInt8.toNat_inj]
      simp only [KState.load, load32, maxFilesize] at hsize
      simp only [UInt8.toNat_zero]
      omega
    have hshort : ∀ m : Mem, m (L.fsName idx + n) = 0 → BytesAt m (L.fsName idx) path →
        path.length ≤ n := by
      intro m hz hb
      by_contra hlong
      have hbyte := hb n (by omega)
      rw [hz] at hbyte
      exact hpath _ (List.getElem_mem (by omega)) hbyte.symm
    rw [strcmp_eq_zero_iff hpath, strcmp_eq_zero_iff hpath]
    constructor
    · rintro ⟨hb, hz⟩
      have hlen := hshort k'.mem (by rw [hmem n le_rfl, hstop]) hb
      exact ⟨fun j hj => by rw [← hmem j (by omega), hb j hj], by rw [← hmem _ hlen, hz]⟩
    · rintro ⟨hb, hz⟩
      have hlen := hshort k.mem hstop hb
      exact ⟨fun j hj => by rw [hmem j (by omega), hb j hj], by rw [hmem _ hlen, hz]⟩
  unfold filesystemLocateFile
  congr 1
  refine List.find?_congr (fun idx hidx => ?_)
  rw [Bool.eq_iff_iff, beq_iff_eq, beq_iff_eq]
  exact hcmp idx (List.mem_range.mp hidx)

/-- The return to user mode writes the two words of the kernel only. -/
theorem trapWord_ktrapToUser {w : Nat} (hk : KmemInv L k g) (hi : i < 8)
    (htf : g.ow (pcb L k i .trapframe) = .trapframe (.proc i)) (h1 : w ≠ tfKernelSp)
    (h2 : w ≠ tfKernelTrap) : trapWord L (ktrapToUser L k i) i w = trapWord L k i w := by
  have hsp : tfKernelSp < 1024 := by decide
  obtain ⟨hk1, hg1⟩ := setTrapWord_grow (W := fun _ => False)
    (x := pcb L k i .kernelStackTop) hk htf hsp
  have hpcb1 := pcb_setTrapWord (f := .trapframe) (x := pcb L k i .kernelStackTop) hk htf hsp hi
    trivial
  rw [ktrapToUser, trapWord_setTrapWord_of_ne hk1 hi (by rw [hpcb1]; exact htf) (by decide) h2,
    trapWord_setTrapWord_of_ne hk hi htf (by decide) h1]

theorem setTrapWord_head (L : Layout) (k : KState) (i w v : Nat) :
    (setTrapWord L k i w v).head = k.head := rfl

theorem ktrapToUser_head (L : Layout) (k : KState) (i : Nat) :
    (ktrapToUser L k i).head = k.head := by
  simp only [ktrapToUser, setTrapWord_head]

theorem pushArg_head (L : Layout) (i : Nat) (s : ArgState) (arg : List UInt8) :
    (pushArg L i s arg).k.head = s.k.head := by
  unfold pushArg
  exact setTrapWord_head L s.k i tfSp (sub32 (trapWord L s.k i tfSp) (arg.length + 1))

theorem pushArgv_head (L : Layout) (i n : Nat) (s : ArgState) :
    (pushArgv L i n s).head = s.k.head := by
  unfold pushArgv
  rw [setTrapWord_head, setTrapWord_head, setTrapWord_head]

theorem foldl_pushArg_head (L : Layout) (i : Nat) (argv : List (List UInt8)) (s : ArgState) :
    (argv.foldl (pushArg L i) s).k.head = s.k.head := by
  induction argv generalizing s with
  | nil => rfl
  | cons arg args ih => rw [List.foldl_cons, ih, pushArg_head]

theorem execArgs_head (L : Layout) (k : KState) (i page : Nat) (argv : List (List UInt8)) :
    (execArgs L k i page argv).head = k.head := by
  unfold execArgs
  rw [pushArgv_head, foldl_pushArg_head]

/-- Building an address space takes the first free page for good. -/
theorem StackReady.head_ne {page : Nat} (hr : StackReady L i k g page k' g')
    (hk : KmemInv L k g) : k'.head ≠ k.head := by
  obtain ⟨p, hp⟩ : ∃ p, p ∈ g.free.head? := ⟨_, hr.root⟩
  obtain ⟨l, hl⟩ : ∃ l, g.free = p :: l := by
    cases hfree : g.free with
    | nil => simp [hfree] at hp
    | cons q l =>
      rw [hfree, List.head?_cons, Option.mem_some_iff] at hp
      exact ⟨l, by rw [hp]⟩
  obtain ⟨n, hn⟩ := hr.free
  have hchain := hk.chain
  have hnd := hk.nodup
  rw [hl] at hchain hnd hn
  intro heq
  have hne : k'.head ≠ 0 := by
    rw [heq, hchain.1]
    exact hchain.2.1
  obtain ⟨l', hl', -⟩ := chain_cons hr.kmem.chain hne
  have hmem : p ∈ g'.free := by
    rw [hl', heq, hchain.1]
    exact List.mem_cons_self
  rw [hn, List.drop_succ_cons] at hmem
  exact (List.nodup_cons.mp hnd).1 (List.mem_of_mem_drop hmem)

theorem kprocExec_notFound (hfile : filesystemLocateFile L k path = 0xFFFFFFFF) :
    kprocExec L k cur path argv = some (0xFFFFFFFF, k) := by
  have hdata : filesystemGetFiledata L k path = 0 := by
    simp only [filesystemGetFiledata, hfile, if_true]
  simp only [kprocExec, hdata, if_true]

/-- Until the call is made only `epc` changes. -/
theorem trapEntry_spec (sepc : Word) (hI : Inv L k g) (hlive : Live L k cur) :
    TrapWords L k g (trapEntry L k cur sepc) ∧
      trapWord L (trapEntry L k cur sepc) cur tfEpc = (sepc.toNat + 4) % 2 ^ 32 ∧
      (∀ w, w ≠ tfEpc → trapWord L (trapEntry L k cur sepc) cur w = trapWord L k cur w) ∧
      (∀ x, x < pcb L k cur .trapframe ∨ pcb L k cur .trapframe + 4096 ≤ x →
        (trapEntry L k cur sepc).mem x = k.mem x) := by
  have hi := hlive.1
  have h3 : tfEpc < 1024 := by decide
  have htf := (hI.proc cur hlive).trapframe
  have hw1 := setTrapWord_words (x := sepc.toNat) hI hlive h3
  have hI1 := hw1.inv hI
  have hlive1 := hw1.live.mpr hlive
  have hpcb1 := hw1.pcb (f := .trapframe) hi trivial
  have htf1 := (hI1.proc cur hlive1).trapframe
  have hword1 : trapWord L (setTrapWord L k cur tfEpc sepc.toNat) cur tfEpc = sepc.toNat :=
    trapWord_setTrapWord_same hI.kmem hi htf h3 sepc.isLt
  have hw2 := setTrapWord_words (x := (sepc.toNat + 4) % 2 ^ 32) hI1 hlive1 h3
  simp only [trapEntry, hword1]
  refine ⟨hw1.trans hw2, ?_, fun w hne => ?_, fun x hx => ?_⟩
  · exact trapWord_setTrapWord_same hI1.kmem hi htf1 h3 (Nat.mod_lt _ (by norm_num))
  · rw [trapWord_setTrapWord_of_ne hI1.kmem hi htf1 h3 hne,
      trapWord_setTrapWord_of_ne hI.kmem hi htf h3 hne]
  · rw [setTrapWord_eq hpcb1]
    dsimp only
    rw [store32_outside _ _ _ (by simp only [tfEpc]; omega)]
    exact store32_outside _ _ _ (by simp only [tfEpc]; omega)

/-- What is left when the lookup fails: -1 is nowhere stored. -/
theorem trapReturn_spec (sepc : Word) (hI : Inv L k g) (hlive : Live L k cur)
    (hk' : k' = ktrapToUser L (trapEntry L k cur sepc) cur) :
    trapWord L k' cur tfEpc = (sepc.toNat + 4) % 2 ^ 32 ∧
      (∀ w, w ≠ tfEpc → w ≠ tfKernelSp → w ≠ tfKernelTrap →
        trapWord L k' cur w = trapWord L k cur w) ∧
      (∀ x, x < pcb L k cur .trapframe ∨ pcb L k cur .trapframe + 4096 ≤ x → k'.mem x = k.mem x) ∧
      k' = { k with mem := k'.mem } := by
  have hi := hlive.1
  obtain ⟨hw, hepc, hother, hmem⟩ := trapEntry_spec sepc hI hlive
  have hI1 := hw.inv hI
  have hlive1 := hw.live.mpr hlive
  have htf1 := (hI1.proc cur hlive1).trapframe
  have hpcb1 := hw.pcb (f := .trapframe) hi trivial
  have hsp : tfKernelSp < 1024 := by decide
  have hpcb2 := (setTrapWord_words (x := pcb L (trapEntry L k cur sepc) cur .kernelStackTop) hI1
    hlive1 hsp).pcb (f := .trapframe) hi trivial
  have hstate : k' = { k with mem := k'.mem } := by
    rw [hk']
    rfl
  refine ⟨?_, fun w h0 h1 h2 => ?_, fun x hx => ?_, hstate⟩
  · rw [hk', trapWord_ktrapToUser hI1.kmem hi htf1 (by decide) (by decide), hepc]
  · rw [hk', trapWord_ktrapToUser hI1.kmem hi htf1 h1 h2, hother w h0]
  · rw [← hpcb1] at hx
    rw [← hmem x (by rwa [hpcb1] at hx), hk', ktrapToUser, setTrapWord_eq hpcb2]
    dsimp only
    rw [store32_outside _ _ _ (by simp only [tfKernelTrap]; omega), setTrapWord_eq rfl]
    dsimp only
    exact store32_outside _ _ _ (by simp only [tfKernelSp]; omega)

/-! ## §3 When the caller sees the failure -/

/-- The call when the string at `a0` is known: only `a1` is still read. -/
theorem ktrapFromUserHandler_path (hI : Inv L s.k g) (hlive : Live L s.k cur)
    (ht : t.scause = scauseUmodeEcall) (h7 : trapWord L s.k cur tfA7 = sysExec)
    (hpath : StringAt L (trapEntry L s.k cur sepc) cur (trapWord L s.k cur tfA0) path) :
    ktrapFromUserHandler L s cur sepc t r =
      (loadArgv L (trapEntry L s.k cur sepc) cur (trapWord L s.k cur tfA1)).bind fun argv =>
      (kprocExec L (trapEntry L s.k cur sepc) cur path argv).map fun p =>
        { s with k := ktrapToUser L p.2 cur } := by
  obtain ⟨-, -, hother, -⟩ := trapEntry_spec sepc hI hlive
  have hload := loadString_of_stringAt hpath (load32_lt _ _) hpath.length_lt
  rw [ktrapFromUserHandler_exec ht ((hother tfA7 (by decide)).trans h7), hother tfA0 (by decide),
    hother tfA1 (by decide), hload, Option.bind_some]

/-- A failed exec is reported and harmless if and only if the arguments can be
read, the lookup says that there is no such file, and `a0` was -1 already. -/
theorem exec_refused_iff (L : Layout) (s : Sys) (cur : Nat) (sepc : Word) (t : TrapInfo)
    (r : SavedRegs) (path : List UInt8) (hreach : SysReach L (fun s op => op.Safe L s) s)
    (hlive : Live L s.k cur) (ht : t.scause = scauseUmodeEcall)
    (h7 : trapWord L s.k cur tfA7 = sysExec)
    (hpath : StringAt L (trapEntry L s.k cur sepc) cur (trapWord L s.k cur tfA0) path) :
    (∃ s', ktrapFromUserHandler L s cur sepc t r = some s' ∧ ExecRefused L s cur sepc s') ↔
      filesystemLocateFile L s.k path = 0xFFFFFFFF ∧ trapWord L s.k cur tfA0 = 0xFFFFFFFF ∧
        (loadArgv L (trapEntry L s.k cur sepc) cur (trapWord L s.k cur tfA1)).isSome := by
  obtain ⟨g, hI⟩ := sysReach_inv (fun _ _ h => h) hreach
  have hi := hlive.1
  obtain ⟨hw, -⟩ := trapEntry_spec sepc hI.inv hlive
  have hloc := filesystemLocateFile_same path
    (fun x hx => hw.grow.static_mem x hx.apart.1 id) hI.files.sizes
    (fun b hb h0 => hpath.1 (h0 ▸ hb))
  obtain ⟨k2, hk2⟩ : ∃ k2, k2 = ktrapToUser L (trapEntry L s.k cur sepc) cur := ⟨_, rfl⟩
  obtain ⟨hepc', hwords, hmem, hstate⟩ := trapReturn_spec sepc hI.inv hlive hk2
  have hrefused : ∀ argv, filesystemLocateFile L s.k path = 0xFFFFFFFF →
      (kprocExec L (trapEntry L s.k cur sepc) cur path argv).map
        (fun p => { s with k := ktrapToUser L p.2 cur }) = some { s with k := k2 } := by
    intro argv hfile
    rw [kprocExec_notFound (hloc.trans hfile), Option.map_some, hk2]
  rw [ktrapFromUserHandler_path hI.inv hlive ht h7 hpath]
  constructor
  · rintro ⟨s', hs', href⟩
    obtain ⟨argv, hargv, hs'⟩ := Option.bind_eq_some_iff.mp hs'
    by_cases hfile : filesystemLocateFile L s.k path = 0xFFFFFFFF
    · refine ⟨hfile, ?_, by rw [hargv]; rfl⟩
      rw [hrefused argv hfile, Option.some.injEq] at hs'
      rw [← href.a0, ← hs', hwords tfA0 (by decide) (by decide) (by decide)]
    · -- the first free page is gone
      exfalso
      obtain ⟨⟨ret, k3⟩, hexec, rfl⟩ := Option.map_eq_some_iff.mp hs'
      have hdata : filesystemGetFiledata L (trapEntry L s.k cur sepc) path ≠ 0 := by
        rw [filesystemGetFiledata, hloc, if_neg hfile]
        simp only [Layout.fsData]
        omega
      obtain ⟨-, idx, page, k4, g', -, -, -, hr, hk4⟩ := kprocExec_ready hw.kmem hi hdata hexec
      refine hr.head_ne hw.kmem ?_
      have hhead := congrArg (fun u : Sys => u.k.head) href.state
      simp only [ktrapToUser_head, hk4, execArgs_head] at hhead
      rw [hhead]
      rfl
  · rintro ⟨hfile, ha0, hargs⟩
    obtain ⟨argv, hargv⟩ := Option.isSome_iff_exists.mp hargs
    refine ⟨{ s with k := k2 }, by rw [hargv, Option.bind_some, hrefused argv hfile],
      ⟨?_, hepc', fun w _ _ h1 h2 h3 => hwords w h1 h2 h3, hmem, ?_⟩⟩
    · rw [hwords tfA0 (by decide) (by decide) (by decide), ha0]
    · rw [← hstate]

theorem nameField_congr {m m' : Mem} (h : ∀ x, a ≤ x → x < a + n → m' x = m x) :
    nameField m' a n = nameField m a n := by
  induction n generalizing a with
  | zero => rfl
  | succ n ih =>
    rw [nameField, nameField, h a (by omega) (by omega),
      ih (fun x h1 h2 => h x (by omega) (by omega))]

theorem namedFile_congr (h : FsSame L k k') (path : List UInt8) :
    namedFile L k'.mem path = namedFile L k.mem path := by
  unfold namedFile
  congr 1
  refine List.find?_congr (fun idx hidx => ?_)
  have hidx := List.mem_range.mp hidx
  have hmem : ∀ x, L.fsFile idx ≤ x → x < L.fsFile idx + 104 → k'.mem x = k.mem x := by
    intro x h1 h2
    refine h x ?_
    simp only [Layout.InFiles, Layout.fsFile, maxFsFiles, sizeofFilesystemFile] at *
    omega
  have hexists : load32 k'.mem (L.fsExists idx) = load32 k.mem (L.fsExists idx) :=
    load32_congr (fun x h1 h2 => hmem x h1 (by simp only [Layout.fsExists] at h2; omega))
  have hname : fileName L k'.mem idx = fileName L k.mem idx :=
    nameField_congr (fun x h1 h2 => hmem x (by simp only [Layout.fsName] at h1; omega)
      (by simp only [Layout.fsName] at h2; omega))
  rw [hexists, hname]

/-- A process is about to call exec with this `a0` and no arguments. -/
structure AtExec (L : Layout) (k : KState) (g : Ghost) (cur v : Nat) (s' : Sys) : Prop where
  running : Running L s' g cur
  same : TrapWords L k g s'.k
  a0 : trapWord L s'.k cur tfA0 = v
  a1 : trapWord L s'.k cur tfA1 = 0
  a7 : trapWord L s'.k cur tfA7 = sysExec
  words : ∀ w, w ≠ tfA0 → w ≠ tfA1 → w ≠ tfA7 → trapWord L s'.k cur w = trapWord L k cur w

/-- One register: it holds the value, and no other word has changed. -/
theorem Running.setReg {w v : Nat} (hr : Running L s g cur) (hw : IsReg w) (hv : v < 2 ^ 32)
    (hreach : SysReach L (fun s op => op.Safe L s) s) :
    ∃ s', SysReach L (fun s op => op.Safe L s) s' ∧ Running L s' g cur ∧ TrapWords L s.k g s'.k ∧
      trapWord L s'.k cur w = v ∧
      ∀ u, u ≠ w → trapWord L s'.k cur u = trapWord L s.k cur u := by
  obtain ⟨hstep, hr', hwords⟩ := hr.saveReg (v := v) hw
  have hi := hr.live.1
  have htf := (hr.inv.inv.proc cur hr.live).trapframe
  have hlt : w < 1024 := by
    simp only [IsReg, tfEpc] at hw
    omega
  exact ⟨_, hreach.step (o := Op.call (.saveReg w v)) (fun _ _ => trivial) hstep, hr', hwords,
    trapWord_setTrapWord_same hr.inv.inv.kmem hi htf hlt hv,
    fun u hu => trapWord_setTrapWord_of_ne hr.inv.inv.kmem hi htf hlt hu⟩

theorem Running.atExec {v : Nat} (hr : Running L s g cur) (hv : v < 2 ^ 32)
    (hreach : SysReach L (fun s op => op.Safe L s) s) :
    ∃ s', SysReach L (fun s op => op.Safe L s) s' ∧ AtExec L s.k g cur v s' := by
  obtain ⟨s1, hreach1, hr1, hsame1, hset1, hkeep1⟩ := hr.setReg (w := tfA0) (by decide) hv hreach
  obtain ⟨s2, hreach2, hr2, hsame2, hset2, hkeep2⟩ :=
    hr1.setReg (w := tfA1) (v := 0) (by decide) (by norm_num) hreach1
  obtain ⟨s3, hreach3, hr3, hsame3, hset3, hkeep3⟩ :=
    hr2.setReg (w := tfA7) (v := sysExec) (by decide) (by decide) hreach2
  refine ⟨s3, hreach3, hr3, (hsame1.trans hsame2).trans hsame3, ?_, ?_, hset3, ?_⟩
  · rw [hkeep3 tfA0 (by decide), hkeep2 tfA0 (by decide), hset1]
  · rw [hkeep3 tfA1 (by decide), hset2]
  · intro w h0 h1 h7
    rw [hkeep3 w h7, hkeep2 w h1, hkeep1 w h0]

/-- No argument vector, no arguments. -/
theorem loadArgv_null : loadArgv L k cur 0 = some [] := rfl

/-- The trap frame of the first process is empty but for four words. -/
theorem Sys.Init.frame_zero {w : Nat} (h : Sys.Init L s) (hw : w < 1024) (h1 : w ≠ tfKernelSp)
    (h2 : w ≠ tfKernelTrap) (h3 : w ≠ tfEpc) (h4 : w ≠ tfSp) : trapWord L s.k 0 w = 0 := by
  obtain ⟨⟨dev, m, -, hboot⟩, -, -⟩ := h
  obtain ⟨i, k, hk, hc⟩ := boot_stages hboot
  obtain ⟨k', hk', hb⟩ := bootKernel_spec L (bootKernel_ok hk) m
  obtain rfl : k' = k := Option.some.inj (hk'.symm.trans hk)
  obtain ⟨hslot, q, hbuild⟩ := kprocCreate_cases hc
  obtain rfl : i = 0 := by
    rw [freeSlot_booted hb, Option.some.injEq] at hslot
    exact hslot.symm
  obtain ⟨hk1, -⟩ := takeSlot_grow (i := 0) hb.inv.kmem (by decide) rfl
  obtain ⟨g', hr⟩ := buildImage_any hk1 (by decide) (by decide) hbuild
  exact hr.words w hw h1 h2 h3 h4

theorem trapWord_enterSlot {w : Nat} (hI : Inv L k g) (hlive : Live L k i) (h0 : w ≠ tfA0)
    (h1 : w ≠ tfKernelSp) (h2 : w ≠ tfKernelTrap) :
    trapWord L (enterSlot L k i) i w = trapWord L k i w := by
  have hI1 := hI.schedule hlive
  have htf := (hI1.proc i hlive).trapframe
  simp only [enterSlot]
  split
  · have hwords := setTrapWord_words (x := 0) hI1 hlive (show tfA0 < 1024 by decide)
    have hI2 := hwords.inv hI1
    rw [returnValue, trapWord_ktrapToUser hI2.kmem hlive.1
        (hI2.proc i (hwords.live.mpr hlive)).trapframe h1 h2,
      trapWord_setTrapWord_of_ne hI1.kmem hlive.1 htf (by decide) h0]
    rfl
  · exact trapWord_ktrapToUser hI1.kmem hlive.1 htf h1 h2

/-- The last byte of the address space is the last one of the trap frame's page. -/
theorem stringAt_last (hI : Inv L k g) (hlive : Live L k cur) (hz : trapWord L k cur 1023 = 0)
    (hva : va = 0xFFFFFFFF) : StringAt L k cur va [] := by
  have hp := hI.proc cur hlive
  obtain ⟨hR, haddr⟩ := pageEntry_flags (hI.kmem.page_of hp.trapframe nofun) (f := 7) (by omega)
    (by omega)
  refine ⟨List.not_mem_nil, fun n hn => ?_⟩
  obtain rfl : n = 0 := by simpa using hn
  have hdiv : va / 4096 = 0xFFFFF := by omega
  have hmod : va % 4096 = 4 * 1023 + 3 := by omega
  have hbyte : k.mem (pcb L k cur .trapframe + (4 * 1023 + 3)) = 0 := by
    unfold trapWord KState.load load32 at hz
    rw [← Nat.add_assoc, ← UInt8.toNat_inj, UInt8.toNat_zero]
    omega
  rw [Nat.add_zero, Nat.mod_eq_of_lt (by omega),
    loadByte_mapped (by rw [hdiv]; exact hp.trap_map) hR haddr, hmod, hbyte]
  rfl

/-- The example's memory with all twelve entries of the file table in use: the
other files are empty and have the names a, b, d and so on. -/
def fullMem : Mem := fun x =>
  let idx := (x - exampleLayout.fsFile 0) / sizeofFilesystemFile
  let off := (x - exampleLayout.fsFile 0) % sizeofFilesystemFile
  if exampleLayout.fsFile 0 ≤ x ∧ x < exampleLayout.fsFile 12 ∧ idx ≠ 2 then
    if off = 0 then 1 else if off = 4 then UInt8.ofNat (97 + idx) else 0
  else exampleMem x

theorem fullMem_outside {x : Nat}
    (h : x < exampleLayout.fsFile 0 ∨ exampleLayout.fsFile 12 ≤ x) : fullMem x = 0 := by
  have h0 : exampleLayout.fsFile 0 ≤ exampleLayout.fsFile 2 := by decide
  have h3 : exampleLayout.fsFile 3 ≤ exampleLayout.fsFile 12 := by decide
  unfold fullMem
  simp only
  rw [if_neg (by omega)]
  exact @elfMem_zero exampleElf x exampleElf_load.length_le (by omega)

/-- The shell loads as it does alone, and no entry of a full table has the
empty name. -/
theorem fullMem_files :
    (∀ idx < maxFsFiles, load32 fullMem (exampleLayout.fsSize idx) ≤ maxFilesize) ∧
    elfPhoff (KState.init fullMem) (exampleLayout.fsData 2) +
      32 * elfPhnum (KState.init fullMem) (exampleLayout.fsData 2) ≤ maxFilesize ∧
    elfLoads (KState.init fullMem) (exampleLayout.fsData 2) =
      [⟨0xC0000, exampleLayout.fsData 2 + 84, 8⟩] ∧
    filesystemLocateFile exampleLayout (KState.init fullMem) [] = 0xFFFFFFFF := by
  decide +kernel

theorem fullMem_boot : BootMem exampleLayout fullMem := by
  obtain ⟨hsizes, hheaders, hloads, -⟩ := fullMem_files
  refine ⟨fun x h1 h2 => fullMem_outside (.inr ?_), fun x h1 h2 => fullMem_outside (.inr ?_),
    hsizes, hheaders, ?_⟩
  · simp only [exampleLayout, Layout.fsFile, sizeofFilesystemFile] at *
    omega
  · simp only [exampleLayout, Layout.fsFile, sizeofFilesystemFile] at *
    omega
  · rw [elfPages_eq, hloads]
    decide

/-- With a full table and -1 in `a0` already, which is the address of an empty
string, the trap does what it should. -/
theorem exec_refused_minusOne : ∃ s s' : Sys,
    SysReach exampleLayout (fun s op => op.Safe exampleLayout s) s ∧
      StringAt exampleLayout (trapEntry exampleLayout s.k 0 0xC0000004) 0
        (trapWord exampleLayout s.k 0 tfA0) [] ∧
      ktrapFromUserHandler exampleLayout s 0 0xC0000004 ⟨scauseUmodeEcall, 0, []⟩ zeroRegs =
        some s' ∧
      ExecRefused exampleLayout s 0 0xC0000004 s' := by
  obtain ⟨s0, hinit, k, g, hs⟩ := sysInit_exists fullMem_boot
    (by rw [fullMem_files.2.2.1]; decide)
  obtain ⟨s1, hstep, he, -⟩ := hs.entered
  have hreach1 : SysReach exampleLayout (fun s op => op.Safe exampleLayout s) s1 :=
    .step (.init hinit) (show (Op.schedule 0).Safe exampleLayout s0 from trivial) hstep
  obtain ⟨s, hreach, hx⟩ := he.running.atExec (v := 0xFFFFFFFF) (by norm_num) hreach1
  have hI := hx.running.inv.inv
  have hlive := hx.running.live
  -- the last word of the frame is as `kmem_alloc` left it
  have hzero : trapWord exampleLayout s.k 0 1023 = 0 := by
    obtain ⟨hstep', -, -⟩ := hs.sysInv.enter hs.user (by decide) hs.created.state
    obtain rfl := Option.some.inj (hstep.symm.trans hstep')
    have hlive0 : Live exampleLayout s0.k 0 := ⟨by decide, by rw [hs.created.state]; decide⟩
    rw [hx.words 1023 (by decide) (by decide) (by decide),
      trapWord_enterSlot hs.sysInv.inv hlive0 (by decide) (by decide) (by decide),
      hinit.frame_zero (by decide) (by decide) (by decide) (by decide) (by decide)]
  obtain ⟨hw, -, hother, -⟩ := trapEntry_spec 0xC0000004 hI hlive
  have hstr := stringAt_last (hw.inv hI) (hw.live.mpr hlive)
    ((hother 1023 (by decide)).trans hzero) rfl
  rw [← hx.a0] at hstr
  have hloc : filesystemLocateFile exampleLayout s.k [] = 0xFFFFFFFF := by
    rw [filesystemLocateFile_same [] (he.files.trans
      fun x hin => hx.same.grow.static_mem x hin.apart.1 id) fullMem_boot.sizes (by simp),
      fullMem_files.2.2.2]
  obtain ⟨s', hs', href⟩ := (exec_refused_iff exampleLayout s 0 0xC0000004
    ⟨scauseUmodeEcall, 0, []⟩ zeroRegs [] hreach hlive rfl hx.a7 hstr).mpr
      ⟨hloc, hx.a0, by rw [hx.a1, loadArgv_null]; rfl⟩
  exact ⟨s, s', hreach, hstr, hs', href⟩

/-- The first instruction of the example's shell, read as a string. -/
theorem Entered.exampleCode (he : Entered exampleLayout exampleMem s g)
    (hw : TrapWords exampleLayout s.k g k') : StringAt exampleLayout k' 0 0xC0000000 [0x13] := by
  have hI := he.running.inv.inv
  have hlive := he.running.live
  have hload : lastLoad (elfLoads (KState.init exampleMem) (exampleLayout.fsData 2)) 0xC0000 =
      some ⟨0xC0000, exampleLayout.fsData 2 + 84, 8⟩ := by
    rw [exampleElf_loads]
    decide
  obtain ⟨q, hq, how, hwalk, hbytes⟩ := he.image _ _ hload
  obtain ⟨hR, haddr⟩ := pageEntry_flags hq (f := 31) (by omega) (by omega)
  -- the page with the code is not the trap frame
  have hno : ¬ (g.ow q).IsTrapframe := by
    rw [how]
    rintro ⟨_, h⟩
    cases h
  have hin : ∀ x < 8, exampleLayout.InFiles (exampleLayout.fsData 2 + 84 + x) := by
    intro x hx
    simp only [Layout.InFiles, Layout.fsData, Layout.fsFile, maxFsFiles, sizeofFilesystemFile]
    omega
  have hcode : exampleMem (exampleLayout.fsData 2 + 84 + 0) = 0x13 ∧
      exampleMem (exampleLayout.fsData 2 + 84 + 1) = 0 := by decide +kernel
  refine ⟨by decide, fun n hn => ?_⟩
  have hn2 : n < 2 := by simpa using hn
  have hdiv : (0xC0000000 + n) % 2 ^ 32 / 4096 = 0xC0000 := by omega
  have hmod : (0xC0000000 + n) % 2 ^ 32 % 4096 = n := by omega
  have hwalk' : walk k'.mem (pcb exampleLayout k' 0 .pagetable) 0xC0000 = some (q / 4 + 31) := by
    rw [hw.pcb (i := 0) (f := .pagetable) (by decide) trivial, ← hwalk]
    exact (hI.proc 0 hlive).tree.walk_grow hI.kmem hw.grow (fun _ h => h.not_table) (by omega)
  rw [loadByte_mapped (by rw [hdiv]; exact hwalk') hR haddr, hmod,
    hw.grow.page_mem q hq (by rw [how]; simp) hno n (by omega),
    hbytes n (by dsimp only; omega) (hin n (by omega)), Option.some.injEq]
  obtain rfl | rfl : n = 0 ∨ n = 1 := by omega
  · exact hcode.1
  · exact hcode.2

theorem examplePath_none :
    filesystemLocateFile exampleLayout (KState.init exampleMem) [0x13] = 0xFFFFFFFF ∧
      namedFile exampleLayout exampleMem [0x13] = 0xFFFFFFFF := by
  decide +kernel

/-- A call with a path that names no file: the caller finds its own `a0`, the
address of the path, as the result. -/
theorem exec_not_reported : ∃ s s' : Sys,
    SysReach exampleLayout (fun s op => op.Safe exampleLayout s) s ∧ s.k.current = some 0 ∧
      trapWord exampleLayout s.k 0 tfA7 = sysExec ∧
      StringAt exampleLayout (trapEntry exampleLayout s.k 0 0xC0000004) 0
        (trapWord exampleLayout s.k 0 tfA0) [0x13] ∧
      namedFile exampleLayout s.k.mem [0x13] = 0xFFFFFFFF ∧
      ktrapFromUserHandler exampleLayout s 0 0xC0000004 ⟨scauseUmodeEcall, 0, []⟩ zeroRegs =
        some s' ∧
      trapWord exampleLayout s'.k 0 tfA0 = 0xC0000000 ∧
      ¬ ExecRefused exampleLayout s 0 0xC0000004 s' := by
  obtain ⟨s1, g, hreach1, he, -⟩ := exampleEntered (fun s op => op.Safe exampleLayout s)
    (fun _ _ => trivial)
  obtain ⟨s, hreach, hx⟩ := he.running.atExec (v := 0xC0000000) (by norm_num) hreach1
  have hI := hx.running.inv.inv
  have hlive := hx.running.live
  obtain ⟨hw, -⟩ := trapEntry_spec 0xC0000004 hI hlive
  have hstr := he.exampleCode (hx.same.trans hw)
  rw [← hx.a0] at hstr
  have hfs : FsSame exampleLayout (KState.init exampleMem) s.k :=
    he.files.trans fun x hin => hx.same.grow.static_mem x hin.apart.1 id
  have hloc : filesystemLocateFile exampleLayout (trapEntry exampleLayout s.k 0 0xC0000004) [0x13] =
      0xFFFFFFFF := by
    rw [filesystemLocateFile_same [0x13] (hfs.trans
      fun x hin => hw.grow.static_mem x hin.apart.1 id) exampleMem_boot.sizes (by simp),
      examplePath_none.1]
  obtain ⟨k2, hk2⟩ : ∃ k2, k2 = ktrapToUser exampleLayout
      (trapEntry exampleLayout s.k 0 0xC0000004) 0 := ⟨_, rfl⟩
  obtain ⟨-, hwords, -⟩ := trapReturn_spec 0xC0000004 hI hlive hk2
  have ha0 : trapWord exampleLayout k2 0 tfA0 = 0xC0000000 := by
    rw [hwords tfA0 (by decide) (by decide) (by decide), hx.a0]
  refine ⟨s, { s with k := k2 }, hreach, hx.running.current, hx.a7, hstr, ?_, ?_, ha0, ?_⟩
  · rw [namedFile_congr hfs]
    exact examplePath_none.2
  · rw [ktrapFromUserHandler_path hI hlive rfl hx.a7 hstr, hx.a1, loadArgv_null, Option.bind_some,
      kprocExec_notFound hloc, Option.map_some, hk2]
  · intro href
    have h := href.a0
    rw [ha0] at h
    exact absurd h (by decide)

end Risky321.Kernel
