/-
Risky321.Kernel.FileTheorems — the tables of open files.

`FilesInv` relates the two tables: an entry of some `opened_files` that is
not NULL is the address of an `os_files` entry that is in use, names a file
and has its position inside it, and no two entries are the same address.
Operations on processes leave all of this alone (`FilesSame`); §2 shows
what open, read and close do to it.
-/
import Risky321.Kernel.AccessTheorems
import Risky321.Kernel.BootTheorems

namespace Risky321.Kernel

open Risky321.Lib

variable {L : Layout} {k k' k'' : KState} {g g' : Ghost} {i j cur fd n idx : Nat}

/-! ## §1 The invariant -/

/-- `h` is an open file: an `os_files` entry in use for a file, positioned inside it. -/
structure OpenFile (L : Layout) (k : KState) (h : Nat) : Prop where
  handle : ∃ n < maxOsFiles, h = L.osFile n
  inUse : k.load (osInUse h) ≠ 0
  file : k.load (osFsIdx h) < maxFsFiles
  position : k.load (osRwpos h) ≤ k.load (L.fsSize (k.load (osFsIdx h)))

/-- The two tables of open files fit together. -/
structure FilesInv (L : Layout) (k : KState) : Prop where
  openFile : ∀ i < 8, ∀ fd < 8, pcb L k i (.openedFiles fd) ≠ 0 →
    OpenFile L k (pcb L k i (.openedFiles fd))
  low : ∀ i < 8, ∀ fd < 3, pcb L k i (.openedFiles fd) = 0
  unique : ∀ i < 8, ∀ fd < 8, ∀ j < 8, ∀ fd' < 8, pcb L k i (.openedFiles fd) ≠ 0 →
    pcb L k i (.openedFiles fd) = pcb L k j (.openedFiles fd') → i = j ∧ fd = fd'
  sizes : ∀ idx < 12, k.load (L.fsSize idx) ≤ maxFilesize

/-- Neither the file tables nor the descriptors have changed. -/
structure FilesSame (L : Layout) (k k' : KState) : Prop where
  static : ∀ x < L.freeRamBegin, ¬ L.InPcbs x → k'.mem x = k.mem x
  opened : ∀ i < 8, ∀ fd < 8, pcb L k' i (.openedFiles fd) = pcb L k i (.openedFiles fd)

theorem FilesSame.refl (k : KState) : FilesSame L k k := ⟨fun _ _ _ => rfl, fun _ _ _ _ => rfl⟩

theorem FilesSame.trans (h : FilesSame L k k') (h' : FilesSame L k' k'') : FilesSame L k k'' :=
  ⟨fun x hx hp => (h'.static x hx hp).trans (h.static x hx hp),
    fun i hi fd hfd => (h'.opened i hi fd hfd).trans (h.opened i hi fd hfd)⟩

/-- An operation that leaves the control blocks but for slot `i`, and there the descriptors, alone. -/
theorem FilesSame.of_static (hi : i < 8)
    (hm : ∀ x < L.freeRamBegin, ¬ L.InPcb i x → k'.mem x = k.mem x)
    (hf : ∀ fd < 8, pcb L k' i (.openedFiles fd) = pcb L k i (.openedFiles fd)) :
    FilesSame L k k' := by
  refine ⟨fun x hx hp => hm x hx (fun h => hp ⟨i, hi, h⟩), ?_⟩
  intro j hj fd hfd
  by_cases hij : j = i
  · rw [hij]
    exact hf fd hfd
  · have hb := L.proc_bound hj
    have ho := PcbField.offset_lt (show (PcbField.openedFiles fd).InStruct from hfd)
    simp only [sizeofProcess] at hb
    apply load32_congr
    intro x h1 h2
    refine hm x (by omega) (fun hx => ?_)
    simp only [Layout.InPcb, Layout.proc, sizeofProcess] at *
    omega

/-- Only pages were written to. -/
theorem Grow.filesSame {S : Role → Prop} (hg : Grow L S (fun _ => False) k g k' g') :
    FilesSame L k k' :=
  ⟨fun x hx _ => hg.static_mem x hx id,
    fun _ hi _ hfd => hg.pcb hi hfd (fun _ _ h => h)⟩

/-- Static data apart from the control blocks. -/
theorem Layout.osFile_static (L : Layout) (hn : n < maxOsFiles) :
    L.osFile n + 12 ≤ L.freeRamBegin ∧ ∀ x, L.osFile n ≤ x → x < L.osFile n + 12 →
      ¬ L.InPcbs x := by
  have h1 := L.osFiles_le
  have h2 := L.proc_os
  simp only [Layout.osFile, maxOsFiles, sizeofOsFile, numProcesses, sizeofProcess] at *
  refine ⟨by omega, ?_⟩
  rintro x hx1 hx2 ⟨i, hi, hx⟩
  simp only [Layout.InPcb, Layout.proc, sizeofProcess] at hx
  omega

theorem Layout.fsSize_static (L : Layout) (hidx : idx < 12) :
    L.fsSize idx + 4 ≤ L.freeRamBegin ∧ ∀ x, L.fsSize idx ≤ x → x < L.fsSize idx + 4 →
      ¬ L.InPcbs x := by
  have h1 := L.filesystemFiles_le
  have h2 := L.proc_fs
  simp only [Layout.fsSize, Layout.fsFile, maxFsFiles, sizeofFilesystemFile, numProcesses,
    sizeofProcess] at *
  refine ⟨by omega, ?_⟩
  rintro x hx1 hx2 ⟨i, hi, hx⟩
  simp only [Layout.InPcb, Layout.proc, sizeofProcess] at hx
  omega

/-- The words of an `os_files` entry, when the static data are as before. -/
theorem FilesSame.load_osFile (h : FilesSame L k k') (hn : n < maxOsFiles) {o : Nat}
    (ho : o + 4 ≤ 12) : k'.load (L.osFile n + o) = k.load (L.osFile n + o) := by
  obtain ⟨h1, h2⟩ := L.osFile_static hn
  apply load32_congr
  intro x hx1 hx2
  exact h.static x (by omega) (h2 x (by omega) (by omega))

theorem FilesSame.load_fsSize (h : FilesSame L k k') (hidx : idx < 12) :
    k'.load (L.fsSize idx) = k.load (L.fsSize idx) := by
  obtain ⟨h1, h2⟩ := L.fsSize_static hidx
  apply load32_congr
  intro x hx1 hx2
  exact h.static x (by omega) (h2 x hx1 hx2)

/-- An `os_files` entry whose words, and the size of whose file, are as before. -/
theorem OpenFile.congr {h : Nat} (ho : OpenFile L k h)
    (hw : ∀ o, o + 4 ≤ 12 → k'.load (h + o) = k.load (h + o))
    (hs : ∀ idx < 12, k'.load (L.fsSize idx) = k.load (L.fsSize idx)) : OpenFile L k' h := by
  obtain ⟨h1, h2, h3, h4⟩ := ho
  have e0 := hw 0 (by omega)
  have e4 := hw 4 (by omega)
  have e8 := hw 8 (by omega)
  rw [Nat.add_zero] at e0
  refine ⟨h1, ?_, ?_, ?_⟩
  · simp only [osInUse] at h2 ⊢
    rwa [e0]
  · simp only [osFsIdx] at h3 ⊢
    rwa [e8]
  · simp only [osFsIdx, osRwpos] at h3 h4 ⊢
    rw [e4, e8, hs _ h3]
    exact h4

theorem FilesInv.same (hf : FilesInv L k) (h : FilesSame L k k') : FilesInv L k' := by
  refine ⟨?_, ?_, ?_, ?_⟩
  · intro i hi fd hfd hne
    rw [h.opened i hi fd hfd] at hne ⊢
    have ho := hf.openFile i hi fd hfd hne
    obtain ⟨n, hn, heq⟩ := ho.handle
    refine ho.congr (fun o hlt => ?_) (fun idx hidx => h.load_fsSize hidx)
    rw [heq]
    exact h.load_osFile hn hlt
  · intro i hi fd hfd
    rw [h.opened i hi fd (by omega)]
    exact hf.low i hi fd hfd
  · intro i hi fd hfd j hj fd' hfd' hne heq
    rw [h.opened i hi fd hfd] at hne heq
    rw [h.opened j hj fd' hfd'] at heq
    exact hf.unique i hi fd hfd j hj fd' hfd' hne heq
  · intro idx hidx
    rw [h.load_fsSize hidx]
    exact hf.sizes idx hidx

/-! ## §2 Words of the tables -/

/-- A store to an `os_files` entry changes no control block, no size and no other entry. -/
theorem pcb_store_osFile {o v : Nat} {f : PcbField} (hn : n < maxOsFiles) (ho : o + 4 ≤ 12)
    (hi : i < 8) (hf : f.InStruct) : pcb L (k.store (L.osFile n + o) v) i f = pcb L k i f := by
  have h1 := L.proc_os
  have h2 := PcbField.offset_lt hf
  refine load32_store32_disjoint _ _ ?_
  simp only [Layout.osFile, Layout.proc, maxOsFiles, sizeofOsFile, numProcesses,
    sizeofProcess] at *
  omega

theorem fsSize_store_osFile {o v : Nat} (hn : n < maxOsFiles) (ho : o + 4 ≤ 12) (hidx : idx < 12) :
    (k.store (L.osFile n + o) v).load (L.fsSize idx) = k.load (L.fsSize idx) := by
  have h1 := L.os_fs
  refine load32_store32_disjoint _ _ ?_
  simp only [Layout.osFile, Layout.fsSize, Layout.fsFile, maxOsFiles, sizeofOsFile, maxFsFiles,
    sizeofFilesystemFile] at *
  omega

theorem osFile_store_osFile {o o' v n' : Nat} (ho : o + 4 ≤ 12) (ho' : o' + 4 ≤ 12)
    (hne : n' ≠ n) :
    (k.store (L.osFile n + o) v).load (L.osFile n' + o') = k.load (L.osFile n' + o') := by
  refine load32_store32_disjoint _ _ ?_
  simp only [Layout.osFile, sizeofOsFile] at *
  omega

theorem Layout.osFile_inj {n n' : Nat} (h : L.osFile n = L.osFile n') : n = n' := by
  simp only [Layout.osFile, sizeofOsFile] at h
  omega

/-- A store to a descriptor changes no `os_files` entry and no size. -/
theorem osFile_setPcb {o v : Nat} {f : PcbField} (hn : n < maxOsFiles) (ho : o + 4 ≤ 12)
    (hi : i < 8) (hf : f.InStruct) :
    (setPcb L k i f v).load (L.osFile n + o) = k.load (L.osFile n + o) := by
  have h1 := L.proc_os
  have h2 := PcbField.offset_lt hf
  refine load32_store32_disjoint _ _ ?_
  simp only [Layout.osFile, Layout.proc, maxOsFiles, sizeofOsFile, numProcesses,
    sizeofProcess] at *
  omega

theorem fsSize_setPcb {v : Nat} {f : PcbField} (hi : i < 8) (hf : f.InStruct) (hidx : idx < 12) :
    (setPcb L k i f v).load (L.fsSize idx) = k.load (L.fsSize idx) := by
  have h1 := L.proc_fs
  have h2 := PcbField.offset_lt hf
  refine load32_store32_disjoint _ _ ?_
  simp only [Layout.fsSize, Layout.fsFile, Layout.proc, maxFsFiles, sizeofFilesystemFile,
    numProcesses, sizeofProcess] at *
  omega

/-- The entry `n` of `os_files` set up for file `idx`, or cleared. -/
def setOsFile (L : Layout) (k : KState) (n inUse idx pos : Nat) : KState :=
  ((k.store (osInUse (L.osFile n)) inUse).store (osFsIdx (L.osFile n)) idx).store
    (osRwpos (L.osFile n)) pos

section SetOsFile

variable {inUse pos v : Nat}

theorem pcb_setOsFile {f : PcbField} (hn : n < maxOsFiles) (hi : i < 8) (hf : f.InStruct) :
    pcb L (setOsFile L k n inUse idx pos) i f = pcb L k i f := by
  unfold setOsFile osInUse osFsIdx osRwpos
  rw [pcb_store_osFile hn (by omega) hi hf, pcb_store_osFile hn (by omega) hi hf]
  exact pcb_store_osFile (o := 0) hn (by omega) hi hf

theorem fsSize_setOsFile (hn : n < maxOsFiles) {m : Nat} (hm : m < 12) :
    (setOsFile L k n inUse idx pos).load (L.fsSize m) = k.load (L.fsSize m) := by
  unfold setOsFile osInUse osFsIdx osRwpos
  rw [fsSize_store_osFile hn (by omega) hm, fsSize_store_osFile hn (by omega) hm]
  exact fsSize_store_osFile (o := 0) hn (by omega) hm

theorem osFile_setOsFile_of_ne {m o : Nat} (ho : o + 4 ≤ 12) (hne : m ≠ n) :
    (setOsFile L k n inUse idx pos).load (L.osFile m + o) = k.load (L.osFile m + o) := by
  unfold setOsFile osInUse osFsIdx osRwpos
  rw [osFile_store_osFile (by omega) ho hne, osFile_store_osFile (by omega) ho hne]
  exact osFile_store_osFile (o := 0) (by omega) ho hne

theorem osFile_setOsFile_same (k : KState) (n : Nat) (h1 : inUse < 2 ^ 32) (h2 : idx < 2 ^ 32) (h3 : pos < 2 ^ 32) :
    (setOsFile L k n inUse idx pos).load (osInUse (L.osFile n)) = inUse ∧
      (setOsFile L k n inUse idx pos).load (osFsIdx (L.osFile n)) = idx ∧
      (setOsFile L k n inUse idx pos).load (osRwpos (L.osFile n)) = pos := by
  unfold setOsFile osInUse osFsIdx osRwpos
  simp only [KState.load, KState.store_mem]
  refine ⟨?_, ?_, ?_⟩
  · rw [load32_store32_disjoint _ _ (by omega), load32_store32_disjoint _ _ (by omega),
      load32_store32_of_lt h1]
  · rw [load32_store32_disjoint _ _ (by omega), load32_store32_of_lt h2]
  · rw [load32_store32_of_lt h3]

theorem Inv.setOsFile (inUse idx pos : Nat) (hI : Inv L k g) (hn : n < maxOsFiles) :
    Inv L (Risky321.Kernel.setOsFile L k n inUse idx pos) g := by
  obtain ⟨h1, -⟩ := L.osFile_static hn
  refine hI.staticWrites (fun x hx => ?_)
    (fun i hi f hf _ => pcb_setOsFile hn hi hf) rfl
  unfold Risky321.Kernel.setOsFile osInUse osFsIdx osRwpos
  simp only [KState.store_mem]
  rw [store32_outside _ _ _ (by omega), store32_outside _ _ _ (by omega),
    store32_outside _ _ _ (by omega)]

theorem Inv.setOpenedFile (hI : Inv L k g) (hi : i < 8) (hfd : fd < 8) :
    Inv L (setPcb L k i (.openedFiles fd) v) g := by
  have hf : (PcbField.openedFiles fd).InStruct := hfd
  have hb := L.proc_bound hi
  have ho := PcbField.offset_lt hf
  simp only [sizeofProcess] at hb
  refine hI.staticWrites (fun x hx => store32_outside _ _ _ (by omega)) ?_ rfl
  intro j hj f hfs hne
  by_cases hij : j = i
  · rw [hij]
    exact pcb_setPcb_of_ne_field hfs hf (hne.1 fd)
  · exact pcb_setPcb_of_ne_slot hfs hf hij

end SetOsFile

/-! ## §3 Open -/

/-- The value and the state `filesystem_file_open` gives: no such file, no
entry for it, an entry but no descriptor for that, or both, each the first
that is free. -/
inductive OpenOutcome (L : Layout) (k : KState) (cur : Nat) (path : List UInt8) :
    Nat → KState → Prop
  | noFile (hfile : filesystemLocateFile L k path = 0xFFFFFFFF) :
      OpenOutcome L k cur path 0xFFFFFFFF k
  | noEntry {idx : Nat} (hfile : filesystemLocateFile L k path = idx) (hidx : idx < 12)
      (hfull : ∀ n < maxOsFiles, k.load (osInUse (L.osFile n)) ≠ 0) :
      OpenOutcome L k cur path 0xFFFFFFFF k
  | noDescriptor {idx n : Nat} (hfile : filesystemLocateFile L k path = idx) (hidx : idx < 12)
      (hn : n < maxOsFiles) (hfree : k.load (osInUse (L.osFile n)) = 0)
      (hfirst : ∀ j < n, k.load (osInUse (L.osFile j)) ≠ 0)
      (hfull : ∀ fd, 3 ≤ fd → fd < 8 → pcb L k cur (.openedFiles fd) ≠ 0) :
      OpenOutcome L k cur path 0xFFFFFFFF (setOsFile L k n 1 idx 0)
  | opened {idx n fd : Nat} (hfile : filesystemLocateFile L k path = idx) (hidx : idx < 12)
      (hn : n < maxOsFiles) (hfree : k.load (osInUse (L.osFile n)) = 0)
      (hfirst : ∀ j < n, k.load (osInUse (L.osFile j)) ≠ 0) (h3 : 3 ≤ fd) (h8 : fd < 8)
      (hnull : pcb L k cur (.openedFiles fd) = 0)
      (hlow : ∀ fd', 3 ≤ fd' → fd' < fd → pcb L k cur (.openedFiles fd') ≠ 0) :
      OpenOutcome L k cur path fd
        (setPcb L (setOsFile L k n 1 idx 0) cur (.openedFiles fd) (L.osFile n))

theorem filesystemLocateFile_lt {path : List UInt8}
    (h : filesystemLocateFile L k path ≠ 0xFFFFFFFF) : filesystemLocateFile L k path < 12 := by
  unfold filesystemLocateFile at h ⊢
  cases hfind : (List.range maxFsFiles).find?
      (fun idx => strcmp k.mem path (L.fsName idx) == 0) with
  | none => simp [hfind] at h
  | some n =>
    rw [Option.getD_some]
    exact List.mem_range.mp (List.mem_of_find?_eq_some hfind)

/-- `kproc_file_add`: the first descriptor that is free. -/
theorem kprocFileAdd_spec (L : Layout) (k1 : KState) (cur h : Nat) :
    ((∀ fd, 3 ≤ fd → fd < 8 → pcb L k1 cur (.openedFiles fd) ≠ 0) ∧
        kprocFileAdd L k1 cur h = (0xFFFFFFFF, k1)) ∨
      ∃ fd, 3 ≤ fd ∧ fd < 8 ∧ pcb L k1 cur (.openedFiles fd) = 0 ∧
        (∀ fd', 3 ≤ fd' → fd' < fd → pcb L k1 cur (.openedFiles fd') ≠ 0) ∧
        kprocFileAdd L k1 cur h = (fd, setPcb L k1 cur (.openedFiles fd) h) := by
  unfold kprocFileAdd
  cases hfd : (List.range' 3 (maxOpenFiles - 3)).find?
      (fun fd => pcb L k1 cur (.openedFiles fd) == 0) with
  | none =>
    refine .inl ⟨fun fd h3 h8 => ?_, rfl⟩
    have := List.find?_range'_eq_none.mp hfd fd h3 (by simp only [maxOpenFiles]; omega)
    simpa using this
  | some fd =>
    obtain ⟨hz, hmem, hlow⟩ := List.find?_range'_eq_some.mp hfd
    obtain ⟨h3, h8⟩ := List.mem_range'_1.mp hmem
    simp only [maxOpenFiles] at h8
    refine .inr ⟨fd, h3, by omega, by simpa using hz, fun fd' h3' hlt => ?_, rfl⟩
    simpa using hlow fd' h3' hlt

theorem filesystemFileOpen_outcome (k : KState) (path : List UInt8) (hi : cur < 8) :
    OpenOutcome L k cur path (filesystemFileOpen L k cur path).1
      (filesystemFileOpen L k cur path).2 := by
  unfold filesystemFileOpen
  simp only
  by_cases hloc : filesystemLocateFile L k path = 0xFFFFFFFF
  · rw [if_pos hloc]
    exact .noFile hloc
  rw [if_neg hloc]
  have hidx := filesystemLocateFile_lt hloc
  cases hfind : (List.range maxOsFiles).find? (fun n => k.load (osInUse (L.osFile n)) == 0) with
  | none =>
    refine .noEntry rfl hidx (fun n hn => ?_)
    simpa using List.find?_range_eq_none.mp hfind n hn
  | some n =>
    obtain ⟨hfree, hmem, hfirst⟩ := List.find?_range_eq_some.mp hfind
    have hn := List.mem_range.mp hmem
    have hfree' : k.load (osInUse (L.osFile n)) = 0 := by simpa using hfree
    have hfirst' : ∀ j < n, k.load (osInUse (L.osFile j)) ≠ 0 := fun j hj => by
      simpa using hfirst j hj
    generalize hl : filesystemLocateFile L k path = idx at *
    have hpcb : ∀ fd < 8, pcb L (setOsFile L k n 1 idx 0) cur (.openedFiles fd) =
        pcb L k cur (.openedFiles fd) :=
      fun fd hfd => pcb_setOsFile (f := .openedFiles fd) hn hi hfd
    have hk1 : ((k.store (osInUse (L.osFile n)) 1).store (osFsIdx (L.osFile n)) idx).store
        (osRwpos (L.osFile n)) 0 = setOsFile L k n 1 idx 0 := rfl
    simp only [hk1]
    obtain ⟨hfull, heq⟩ | ⟨fd, h3, h8, hz, hlow, heq⟩ :=
      kprocFileAdd_spec L (setOsFile L k n 1 idx 0) cur (L.osFile n)
    · rw [heq]
      refine .noDescriptor hl hidx hn hfree' hfirst' (fun fd h3 h8 => ?_)
      rw [← hpcb fd h8]
      exact hfull fd h3 h8
    · rw [heq]
      refine .opened hl hidx hn hfree' hfirst' h3 h8 ?_ (fun fd' h3' hlt => ?_)
      · rw [← hpcb fd h8]
        exact hz
      · rw [← hpcb fd' (by omega)]
        exact hlow fd' h3' hlt

/-- An entry that is not in use is nobody's. -/
theorem FilesInv.not_opened (hf : FilesInv L k) (hfree : k.load (osInUse (L.osFile n)) = 0)
    (hi : i < 8) (hfd : fd < 8) : pcb L k i (.openedFiles fd) ≠ L.osFile n := by
  intro heq
  by_cases h0 : pcb L k i (.openedFiles fd) = 0
  · have := L.osFiles_pos
    rw [h0] at heq
    simp only [Layout.osFile] at heq
    omega
  · have := (hf.openFile i hi fd hfd h0).inUse
    rw [heq] at this
    exact this hfree

/-- Writing to an entry that nobody has open. -/
theorem FilesInv.setOsFile (inUse idx pos : Nat) (hf : FilesInv L k) (hn : n < maxOsFiles)
    (hno : ∀ i < 8, ∀ fd < 8, pcb L k i (.openedFiles fd) ≠ L.osFile n) :
    FilesInv L (Risky321.Kernel.setOsFile L k n inUse idx pos) := by
  have hpcb : ∀ i < 8, ∀ fd < 8, pcb L (Risky321.Kernel.setOsFile L k n inUse idx pos) i
      (.openedFiles fd) = pcb L k i (.openedFiles fd) :=
    fun i hi fd hfd => pcb_setOsFile hn hi hfd
  refine ⟨?_, ?_, ?_, ?_⟩
  · intro i hi fd hfd hne
    rw [hpcb i hi fd hfd] at hne ⊢
    have ho := hf.openFile i hi fd hfd hne
    obtain ⟨m, hm, heq⟩ := ho.handle
    have hne' : m ≠ n := by
      rintro rfl
      exact hno i hi fd hfd heq
    refine ho.congr (fun o hlt => ?_) (fun idx hidx => fsSize_setOsFile hn hidx)
    rw [heq]
    exact osFile_setOsFile_of_ne hlt hne'
  · intro i hi fd hfd
    rw [hpcb i hi fd (by omega)]
    exact hf.low i hi fd hfd
  · intro i hi fd hfd j hj fd' hfd' hne heq
    rw [hpcb i hi fd hfd] at hne heq
    rw [hpcb j hj fd' hfd'] at heq
    exact hf.unique i hi fd hfd j hj fd' hfd' hne heq
  · intro idx hidx
    rw [fsSize_setOsFile hn hidx]
    exact hf.sizes idx hidx

/-- The other descriptors when one of them is written. -/
theorem opened_setPcb {v fd' : Nat} (hfd : fd < 8) (hfd' : fd' < 8) (hv : v < 2 ^ 32) : pcb L (setPcb L k i (.openedFiles fd) v) j (.openedFiles fd') =
      if j = i ∧ fd' = fd then v else pcb L k j (.openedFiles fd') := by
  by_cases hij : j = i
  · by_cases hfe : fd' = fd
    · rw [if_pos ⟨hij, hfe⟩, hij, hfe, pcb_setPcb_same hv]
    · rw [if_neg (fun h => hfe h.2), hij,
        pcb_setPcb_of_ne_field (f := .openedFiles fd') (g := .openedFiles fd) hfd' hfd (by
          intro h
          exact hfe (PcbField.openedFiles.inj h))]
  · rw [if_neg (fun h => hij h.1),
      pcb_setPcb_of_ne_slot (f := .openedFiles fd') (g := .openedFiles fd) hfd' hfd hij]

theorem Layout.osFile_lt (L : Layout) (hn : n < maxOsFiles) : L.osFile n < 2 ^ 32 := by
  have h1 := (L.osFile_static hn).1
  have h2 := L.end_le
  simp only [vaUserBase] at h2
  omega

theorem Layout.osFile_ne_zero (L : Layout) (n : Nat) : L.osFile n ≠ 0 := by
  have := L.osFiles_pos
  simp only [Layout.osFile]
  omega

/-- Entering an open file that nobody has under a descriptor. -/
theorem FilesInv.addDescriptor (hf : FilesInv L k) (hi : i < 8) (h3 : 3 ≤ fd) (hfd : fd < 8)
    (hn : n < maxOsFiles) (ho : OpenFile L k (L.osFile n))
    (hno : ∀ j < 8, ∀ fd' < 8, pcb L k j (.openedFiles fd') ≠ L.osFile n) :
    FilesInv L (setPcb L k i (.openedFiles fd) (L.osFile n)) := by
  have hlt := L.osFile_lt hn
  have hop : ∀ j < 8, ∀ fd' < 8, pcb L (setPcb L k i (.openedFiles fd) (L.osFile n)) j
      (.openedFiles fd') = if j = i ∧ fd' = fd then L.osFile n else pcb L k j (.openedFiles fd') :=
    fun j _ fd' hfd' => opened_setPcb hfd hfd' hlt
  have hcong : ∀ h, OpenFile L k h →
      OpenFile L (setPcb L k i (.openedFiles fd) (L.osFile n)) h := by
    intro h ho
    obtain ⟨m, hm, heq⟩ := ho.handle
    refine ho.congr (fun o hlt => ?_) (fun idx hidx => fsSize_setPcb hi hfd hidx)
    rw [heq]
    exact osFile_setPcb hm hlt hi hfd
  refine ⟨?_, ?_, ?_, ?_⟩
  · intro j hj fd' hfd' hne
    rw [hop j hj fd' hfd'] at hne ⊢
    by_cases hc : j = i ∧ fd' = fd
    · rw [if_pos hc]
      exact hcong _ ho
    · rw [if_neg hc] at hne ⊢
      exact hcong _ (hf.openFile j hj fd' hfd' hne)
  · intro j hj fd' hfd'
    rw [hop j hj fd' (by omega), if_neg (by omega)]
    exact hf.low j hj fd' hfd'
  · intro a ha fa hfa b hb fb hfb hne heq
    rw [hop a ha fa hfa] at hne heq
    rw [hop b hb fb hfb] at heq
    by_cases hca : a = i ∧ fa = fd <;> by_cases hcb : b = i ∧ fb = fd
    · omega
    · rw [if_pos hca, if_neg hcb] at heq
      exact absurd heq.symm (hno b hb fb hfb)
    · rw [if_neg hca, if_pos hcb] at heq
      exact absurd heq (hno a ha fa hfa)
    · rw [if_neg hca] at hne
      rw [if_neg hca, if_neg hcb] at heq
      exact hf.unique a ha fa hfa b hb fb hfb hne heq
  · intro idx hidx
    rw [fsSize_setPcb (f := .openedFiles fd) hi hfd hidx]
    exact hf.sizes idx hidx

/-- Opening a file for which there is no descriptor: the entry is taken all the same. -/
theorem openLeak_inv (idx : Nat) (hI : Inv L k g) (hf : FilesInv L k) (hn : n < maxOsFiles)
    (hfree : k.load (osInUse (L.osFile n)) = 0) :
    Inv L (setOsFile L k n 1 idx 0) g ∧ FilesInv L (setOsFile L k n 1 idx 0) :=
  ⟨hI.setOsFile 1 idx 0 hn, hf.setOsFile 1 idx 0 hn (fun _ hi _ hfd => hf.not_opened hfree hi hfd)⟩

/-- Opening a file keeps both invariants. -/
theorem openFile_inv (hI : Inv L k g) (hf : FilesInv L k) (hi : cur < 8) (hidx : idx < 12)
    (hn : n < maxOsFiles) (hfree : k.load (osInUse (L.osFile n)) = 0) (h3 : 3 ≤ fd) (hfd : fd < 8) :
    Inv L (setPcb L (setOsFile L k n 1 idx 0) cur (.openedFiles fd) (L.osFile n)) g ∧
      FilesInv L (setPcb L (setOsFile L k n 1 idx 0) cur (.openedFiles fd) (L.osFile n)) := by
  obtain ⟨hI1, hf1⟩ := openLeak_inv idx hI hf hn hfree
  refine ⟨hI1.setOpenedFile hi hfd, hf1.addDescriptor hi h3 hfd hn ?_ ?_⟩
  · obtain ⟨e1, e2, e3⟩ := osFile_setOsFile_same (L := L) k n (show 1 < 2 ^ 32 by omega)
      (show idx < 2 ^ 32 by omega) (show 0 < 2 ^ 32 by omega)
    refine ⟨⟨n, hn, rfl⟩, ?_, ?_, ?_⟩
    · rw [e1]
      exact Nat.one_ne_zero
    · rw [e2]
      exact hidx
    · rw [e3]
      exact Nat.zero_le _
  · intro j hj fd' hfd'
    rw [pcb_setOsFile hn hj (show (PcbField.openedFiles fd').InStruct from hfd')]
    exact hf.not_opened hfree hj hfd'

/-! ## §4 Read -/

/-- A descriptor in range is read from the control block. -/
theorem kprocFileGet_eq (hp : ProcInv L k g cur) (hi : cur < 8) (hfd : fd < 8) :
    kprocFileGet L k cur fd = some (pcb L k cur (.openedFiles fd)) := by
  have hb := L.proc_bound hi
  have he := L.end_le
  simp only [sizeofProcess, vaUserBase] at hb he
  have hmod : L.openedFile cur fd = L.proc cur + (PcbField.openedFiles fd).offset := by
    rw [Layout.openedFile]
    refine Nat.mod_eq_of_lt ?_
    simp only [PcbField.offset]
    omega
  rw [kprocFileGet, hmod, loadWord_kernel hp]
  · rfl
  · simp only [PcbField.offset, Layout.freeRamEnd]
    omega

/-- The bytes a read of `size` bytes has to deliver from the open file `h`. -/
def fileRest (L : Layout) (k : KState) (h size : Nat) : Nat :=
  min size (k.load (L.fsSize (k.load (osFsIdx h))) - k.load (osRwpos h))

/-- The three words of an open file that are loaded. -/
theorem OpenFile.loadWords {h : Nat} (ho : OpenFile L k h) (hp : ProcInv L k g cur) :
    loadWord L k cur (osFsIdx h % 2 ^ 32) = some (k.load (osFsIdx h)) ∧
      loadWord L k cur (osRwpos h % 2 ^ 32) = some (k.load (osRwpos h)) ∧
      loadWord L k cur (L.fsSize (k.load (osFsIdx h)) % 2 ^ 32) =
        some (k.load (L.fsSize (k.load (osFsIdx h)))) := by
  obtain ⟨n, hn, rfl⟩ := ho.handle
  have h1 := (L.osFile_static hn).1
  have h2 := (L.fsSize_static ho.file).1
  have he := L.end_le
  simp only [vaUserBase] at he
  have hword : ∀ a, a + 4 ≤ L.freeRamBegin → loadWord L k cur (a % 2 ^ 32) = some (k.load a) := by
    intro a ha
    rw [Nat.mod_eq_of_lt (by omega)]
    exact loadWord_kernel hp (by simp only [Layout.freeRamEnd]; omega)
  exact ⟨hword _ (by simp only [osFsIdx]; omega), hword _ (by simp only [osRwpos]; omega),
    hword _ h2⟩

/-- The words of `os_files` are away from what translation needs. -/
theorem Layout.osFile_offPagetable (L : Layout) (hn : n < maxOsFiles) (hi : cur < 8) {o : Nat}
    (ho : o + 4 ≤ 12) : ∀ j < 4, L.OffPagetable cur (L.osFile n + o + j) := by
  intro j hj
  obtain ⟨h1, h2⟩ := L.osFile_static hn
  refine ⟨by omega, ?_⟩
  have hno := h2 (L.osFile n + o + j) (by omega) (by omega)
  by_contra hc
  refine hno ⟨cur, hi, ?_⟩
  simp only [Layout.InPcb]
  omega

/-- The bytes `filesystem_file_read` delivers. -/
def fileBytes (L : Layout) (k : KState) (h size : Nat) : List UInt8 :=
  loadBytes k.mem (L.fsData (k.load (osFsIdx h)) + k.load (osRwpos h)) (fileRest L k h size)

@[simp] theorem length_fileBytes (L : Layout) (k : KState) (h size : Nat) :
    (fileBytes L k h size).length = fileRest L k h size := length_loadBytes _ _ _

/-- `filesystem_file_read` of an open file into a buffer of the process: it
fills the buffer and moves the position. -/
theorem filesystemFileRead_eq {h buf size : Nat} (hk : KmemInv L k g) (hp : ProcInv L k g cur)
    (hi : cur < 8) (ho : OpenFile L k h)
    (hsize : k.load (L.fsSize (k.load (osFsIdx h))) ≤ maxFilesize) (hbuf : buf < 2 ^ 32)
    (hok : BufferOk L k cur pteW buf (fileRest L k h size)) :
    filesystemFileRead L k cur h buf size =
      (storeBuf L cur buf (fileBytes L k h size) k).map fun k1 =>
        (fileBytes L k h size, k1.store (osRwpos h) (k.load (osRwpos h) + fileRest L k h size)) := by
  obtain ⟨e1, e2, e3⟩ := ho.loadWords hp
  unfold filesystemFileRead
  rw [e1, Option.bind_some, e2, Option.bind_some, e3, Option.bind_some,
    fileReadLoop_eq hk hp hi ho.file hsize hbuf hok]
  change (Option.map _ (storeBuf L cur buf (fileBytes L k h size) k)).bind _ = _
  cases hst : storeBuf L cur buf (fileBytes L k h size) k with
  | none => rfl
  | some k1 =>
    obtain ⟨hk1, hg1⟩ := storeBuf_spec _ hk hp hi hbuf (by rwa [length_fileBytes]) hst
    have hp1 := hp.pageWrites hk hi (fun _ h => h.not_table) hg1
    obtain ⟨n, hn, rfl⟩ := ho.handle
    have hmod : osRwpos (L.osFile n) % 2 ^ 32 = L.osFile n + 4 := by
      have h1 := (L.osFile_static hn).1
      have he := L.end_le
      simp only [vaUserBase] at he
      simp only [osRwpos]
      omega
    rw [Option.map_some, Option.bind_some, Option.map_some, hmod]
    simp only
    rw [storeWord_static hp1 hk1 (L.osFile_offPagetable hn hi (by omega)), Option.map_some]
    rfl

theorem filesystemFileRead_spec {h buf size : Nat} {bytes : List UInt8} (hk : KmemInv L k g)
    (hp : ProcInv L k g cur) (hi : cur < 8) (ho : OpenFile L k h)
    (hsize : k.load (L.fsSize (k.load (osFsIdx h))) ≤ maxFilesize) (hbuf : buf < 2 ^ 32)
    (hok : BufferOk L k cur pteW buf (fileRest L k h size))
    (hr : filesystemFileRead L k cur h buf size = some (bytes, k')) :
    ∃ k1, KmemInv L k1 g ∧ Grow L (Role.LeafOf (.proc cur)) (fun _ => False) k g k1 g ∧
      k' = k1.store (osRwpos h) (k.load (osRwpos h) + fileRest L k h size) ∧
      bytes = fileBytes L k h size := by
  rw [filesystemFileRead_eq hk hp hi ho hsize hbuf hok, Option.map_eq_some_iff] at hr
  obtain ⟨k1, h1, h2⟩ := hr
  rw [Prod.mk.injEq] at h2
  obtain ⟨hk1, hg1⟩ := storeBuf_spec _ hk hp hi hbuf (by rwa [length_fileBytes]) h1
  exact ⟨k1, hk1, hg1, h2.2.symm, h2.1.symm⟩

/-- Moving the position of an open file. -/
theorem FilesInv.setPosition {h pos : Nat} (hf : FilesInv L k) (ho : OpenFile L k h)
    (hpos : pos ≤ k.load (L.fsSize (k.load (osFsIdx h)))) :
    FilesInv L (k.store (osRwpos h) pos) := by
  obtain ⟨n, hn, rfl⟩ := ho.handle
  have hlt : pos < 2 ^ 32 := lt_of_le_of_lt hpos (load32_lt _ _)
  have hpcb : ∀ i < 8, ∀ fd < 8, pcb L (k.store (osRwpos (L.osFile n)) pos) i (.openedFiles fd) =
      pcb L k i (.openedFiles fd) :=
    fun i hi fd hfd => pcb_store_osFile (f := .openedFiles fd) hn (by omega) hi hfd
  have hsz : ∀ idx < 12, (k.store (osRwpos (L.osFile n)) pos).load (L.fsSize idx) =
      k.load (L.fsSize idx) := fun idx hidx => fsSize_store_osFile hn (by omega) hidx
  -- the entry itself
  have hself : OpenFile L (k.store (osRwpos (L.osFile n)) pos) (L.osFile n) := by
    have e0 : (k.store (osRwpos (L.osFile n)) pos).load (osInUse (L.osFile n)) =
        k.load (osInUse (L.osFile n)) :=
      load32_store32_disjoint _ _ (by simp only [osRwpos, osInUse]; omega)
    have e8 : (k.store (osRwpos (L.osFile n)) pos).load (osFsIdx (L.osFile n)) =
        k.load (osFsIdx (L.osFile n)) :=
      load32_store32_disjoint _ _ (by simp only [osRwpos, osFsIdx]; omega)
    refine ⟨⟨n, hn, rfl⟩, by rw [e0]; exact ho.inUse, by rw [e8]; exact ho.file, ?_⟩
    rw [e8, hsz _ ho.file]
    exact (le_of_eq (load32_store32_of_lt hlt)).trans hpos
  refine ⟨?_, ?_, ?_, ?_⟩
  · intro i hi fd hfd hne
    rw [hpcb i hi fd hfd] at hne ⊢
    have hoi := hf.openFile i hi fd hfd hne
    obtain ⟨m, hm, heq⟩ := hoi.handle
    by_cases hmn : m = n
    · rw [heq, hmn]
      exact hself
    · refine hoi.congr (fun o hlt' => ?_) hsz
      rw [heq]
      exact osFile_store_osFile (by omega) hlt' hmn
  · intro i hi fd hfd
    rw [hpcb i hi fd (by omega)]
    exact hf.low i hi fd hfd
  · intro i hi fd hfd j hj fd' hfd' hne heq
    rw [hpcb i hi fd hfd] at hne heq
    rw [hpcb j hj fd' hfd'] at heq
    exact hf.unique i hi fd hfd j hj fd' hfd' hne heq
  · intro idx hidx
    rw [hsz idx hidx]
    exact hf.sizes idx hidx

theorem Inv.setPosition {h pos : Nat} (hI : Inv L k g) (ho : OpenFile L k h) :
    Inv L (k.store (osRwpos h) pos) g := by
  obtain ⟨n, hn, rfl⟩ := ho.handle
  have h1 := (L.osFile_static hn).1
  exact hI.staticWrites (fun x hx => store32_outside _ _ _ (by simp only [osRwpos]; omega))
    (fun i hi f hf _ => pcb_store_osFile hn (by omega) hi hf) rfl

/-- The words of an open file after pages were written to. -/
theorem OpenFile.same {h : Nat} (ho : OpenFile L k h) (hs : FilesSame L k k') :
    OpenFile L k' h ∧ k'.load (osFsIdx h) = k.load (osFsIdx h) ∧
      k'.load (osRwpos h) = k.load (osRwpos h) := by
  obtain ⟨n, hn, rfl⟩ := ho.handle
  refine ⟨ho.congr (fun o hlt => hs.load_osFile hn hlt) (fun idx hidx => hs.load_fsSize hidx),
    ?_, ?_⟩
  · exact hs.load_osFile hn (by omega)
  · exact hs.load_osFile hn (by omega)

/-- A read from an open file keeps both invariants. -/
theorem fileRead_inv {h size : Nat} {k1 : KState} (hI : Inv L k g) (hf : FilesInv L k)
    (ho : OpenFile L k h) (hk1 : KmemInv L k1 g)
    (hg1 : Grow L (Role.LeafOf (.proc cur)) (fun _ => False) k g k1 g) :
    Inv L (k1.store (osRwpos h) (k.load (osRwpos h) + fileRest L k h size)) g ∧
      FilesInv L (k1.store (osRwpos h) (k.load (osRwpos h) + fileRest L k h size)) := by
  have hs := hg1.filesSame
  obtain ⟨ho1, e1, -⟩ := ho.same hs
  refine ⟨(hI.pageWrites (fun _ _ h => h.not_table) hk1 hg1).setPosition ho1,
    (hf.same hs).setPosition ho1 ?_⟩
  rw [e1, hs.load_fsSize ho.file]
  have := ho.position
  unfold fileRest
  omega

/-! ## §5 Close -/

theorem store32_comm (m : Mem) {a b v w : Nat} (h : a + 4 ≤ b ∨ b + 4 ≤ a) :
    store32 (store32 m a v) b w = store32 (store32 m b w) a v := by
  funext x
  simp only [store32]
  by_cases h1 : b ≤ x ∧ x < b + 4
  · rw [if_pos h1, if_neg (by omega), if_pos h1]
  · rw [if_neg h1]
    by_cases h2 : a ≤ x ∧ x < a + 4
    · rw [if_pos h2, if_pos h2]
    · rw [if_neg h2, if_neg h2, if_neg h1]

/-- `filesystem_file_close` on a descriptor in range: nothing when it is not
open, else descriptor and entry are cleared. -/
theorem filesystemFileClose_spec (hI : Inv L k g) (hf : FilesInv L k) (hlive : Live L k cur)
    (h3 : 3 ≤ fd) (hfd : fd < 8) :
    (pcb L k cur (.openedFiles fd) = 0 ∧
        filesystemFileClose L k cur fd = some (0xFFFFFFFF, k)) ∨
      ∃ n < maxOsFiles, pcb L k cur (.openedFiles fd) = L.osFile n ∧
        filesystemFileClose L k cur fd =
          some (0, setOsFile L (setPcb L k cur (.openedFiles fd) 0) n 0 0xFFFFFFFF 0) := by
  have hi : cur < 8 := hlive.1
  have hp := hI.proc cur hlive
  have hget := kprocFileGet_eq hp hi hfd
  have hget' : loadWord L k cur (L.openedFile cur fd) = some (pcb L k cur (.openedFiles fd)) := hget
  unfold filesystemFileClose kprocFileRemove
  rw [if_neg (by omega), hget, Option.bind_some, hget', Option.bind_some]
  by_cases h0 : pcb L k cur (.openedFiles fd) = 0
  · exact .inl ⟨h0, by rw [if_pos h0]; rfl⟩
  right
  obtain ⟨n, hn, heq⟩ := (hf.openFile cur hi fd hfd h0).handle
  refine ⟨n, hn, heq, ?_⟩
  have hb := L.proc_bound hi
  have he := L.end_le
  simp only [sizeofProcess, vaUserBase] at hb he
  have haddr : L.openedFile cur fd = L.proc cur + (PcbField.openedFiles fd).offset := by
    rw [Layout.openedFile]
    refine Nat.mod_eq_of_lt ?_
    simp only [PcbField.offset]
    omega
  have hst : storeWord L k cur (L.openedFile cur fd) 0 =
      some (setPcb L k cur (.openedFiles fd) 0) := by
    rw [haddr, storeWord_static hp hI.kmem]
    · rfl
    · intro j hj
      simp only [Layout.OffPagetable, PcbField.offset]
      omega
  have hI1 := hI.setOpenedFile (v := 0) hi hfd
  have hlive1 : Live L (setPcb L k cur (.openedFiles fd) 0) cur :=
    ⟨hi, by
      rw [pcb_setPcb_of_ne_field (f := .state) (g := .openedFiles fd) trivial hfd (by simp)]
      exact hlive.2⟩
  rw [if_neg h0, heq, hst]
  generalize setPcb L k cur (.openedFiles fd) 0 = k1 at *
  have hos := (L.osFile_static hn).1
  have hm8 : osFsIdx (L.osFile n) % 2 ^ 32 = L.osFile n + 8 := by
    simp only [osFsIdx]
    omega
  have hm4 : osRwpos (L.osFile n) % 2 ^ 32 = L.osFile n + 4 := by
    simp only [osRwpos]
    omega
  have hm0 : osInUse (L.osFile n) % 2 ^ 32 = L.osFile n + 0 := by
    simp only [osInUse]
    omega
  -- three stores to `os_files`, each of which keeps the invariant
  have hword : ∀ (k2 : KState) (o v : Nat), o + 4 ≤ 12 → Inv L k2 g → Live L k2 cur →
      storeWord L k2 cur (L.osFile n + o) v = some (k2.store (L.osFile n + o) v) ∧
        Inv L (k2.store (L.osFile n + o) v) g ∧ Live L (k2.store (L.osFile n + o) v) cur := by
    intro k2 o v ho hI2 hl2
    refine ⟨storeWord_static (hI2.proc cur hl2) hI2.kmem (L.osFile_offPagetable hn hi ho), ?_, hi, ?_⟩
    · exact hI2.staticWrites (fun x hx => store32_outside _ _ _ (by omega))
        (fun i hi f hf _ => pcb_store_osFile hn ho hi hf) rfl
    · rw [pcb_store_osFile (f := .state) hn ho hi trivial]
      exact hl2.2
  obtain ⟨s1, hI2, hl2⟩ := hword k1 8 0xFFFFFFFF (by omega) hI1 hlive1
  obtain ⟨s2, hI3, hl3⟩ := hword _ 4 0 (by omega) hI2 hl2
  obtain ⟨s3, -, -⟩ := hword _ 0 0 (by omega) hI3 hl3
  simp only [Option.map_some, Option.bind_some, hm8, hm4, hm0, s1, s2, s3, if_true]
  refine congrArg some (congrArg (Prod.mk 0) ?_)
  unfold setOsFile osInUse osFsIdx osRwpos KState.store
  simp only [KState.mk.injEq, and_true, Nat.add_zero]
  rw [store32_comm _ (by omega), store32_comm k1.mem (by omega)]

/-- Removing a descriptor. -/
theorem FilesInv.removeDescriptor (hf : FilesInv L k) (hi : i < 8) (hfd : fd < 8) :
    FilesInv L (setPcb L k i (.openedFiles fd) 0) := by
  have hop : ∀ j < 8, ∀ fd' < 8, pcb L (setPcb L k i (.openedFiles fd) 0) j (.openedFiles fd') =
      if j = i ∧ fd' = fd then 0 else pcb L k j (.openedFiles fd') :=
    fun j _ fd' hfd' => opened_setPcb hfd hfd' (by omega)
  refine ⟨?_, ?_, ?_, ?_⟩
  · intro j hj fd' hfd' hne
    rw [hop j hj fd' hfd'] at hne ⊢
    split at hne
    · exact absurd rfl hne
    · rename_i hc
      rw [if_neg hc]
      have ho := hf.openFile j hj fd' hfd' hne
      obtain ⟨m, hm, heq⟩ := ho.handle
      refine ho.congr (fun o hlt => ?_)
        (fun idx hidx => fsSize_setPcb (f := .openedFiles fd) hi hfd hidx)
      rw [heq]
      exact osFile_setPcb (f := .openedFiles fd) hm hlt hi hfd
  · intro j hj fd' hfd'
    rw [hop j hj fd' (by omega)]
    split
    · rfl
    · exact hf.low j hj fd' hfd'
  · intro a ha fa hfa b hb fb hfb hne heq
    rw [hop a ha fa hfa] at hne heq
    rw [hop b hb fb hfb] at heq
    split at hne
    · exact absurd rfl hne
    · rename_i hca
      rw [if_neg hca] at heq
      split at heq
      · exact absurd heq hne
      · exact hf.unique a ha fa hfa b hb fb hfb hne heq
  · intro idx hidx
    rw [fsSize_setPcb (f := .openedFiles fd) hi hfd hidx]
    exact hf.sizes idx hidx

/-- Closing an open descriptor keeps both invariants. -/
theorem closeFile_inv (hI : Inv L k g) (hf : FilesInv L k) (hi : cur < 8) (hfd : fd < 8)
    (hn : n < maxOsFiles) (hentry : pcb L k cur (.openedFiles fd) = L.osFile n) :
    Inv L (setOsFile L (setPcb L k cur (.openedFiles fd) 0) n 0 0xFFFFFFFF 0) g ∧
      FilesInv L (setOsFile L (setPcb L k cur (.openedFiles fd) 0) n 0 0xFFFFFFFF 0) := by
  refine ⟨(hI.setOpenedFile hi hfd).setOsFile _ _ _ hn,
    (hf.removeDescriptor hi hfd).setOsFile _ _ _ hn ?_⟩
  intro j hj fd' hfd'
  rw [opened_setPcb hfd hfd' (by omega)]
  split
  · exact fun h0 => L.osFile_ne_zero n h0.symm
  · rename_i hne
    intro hsame
    have hne0 : pcb L k cur (.openedFiles fd) ≠ 0 := by
      rw [hentry]
      exact L.osFile_ne_zero n
    obtain ⟨rfl, rfl⟩ := hf.unique cur hi fd hfd j hj fd' hfd' hne0 (by rw [hentry, hsame])
    exact hne ⟨rfl, rfl⟩

end Risky321.Kernel
