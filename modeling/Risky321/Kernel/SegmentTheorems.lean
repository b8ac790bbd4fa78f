/-
Risky321.Kernel.SegmentTheorems — the segments of an ELF file.

§1 says what has to stay for a file to keep describing the same image
(`SameFile`), §2 loads its segments: a full page at a time, then the rest
of the segment, then the next segment.
-/
import Risky321.Kernel.PageLoadTheorems
import Mathlib.Data.List.Flatten

namespace Risky321.Kernel

open Risky321.Lib

variable {L : Layout} {k k' k'' : KState} {g g' g'' : Ghost} {a b : Space} {i j r v va p : Nat}
  {m m' : Mem} {S : Role → Prop} {W : Nat → Prop} {heap : Bool} {c : Role}

/-! ## §1 The bytes of a file -/

/-- The bytes of the data of file `idx`. -/
def Layout.InFile (L : Layout) (idx x : Nat) : Prop :=
  L.fsData idx ≤ x ∧ x < L.fsData idx + maxFilesize

theorem Layout.InFile.static {idx x : Nat} (hidx : idx < 12) (hx : L.InFile idx x) :
    x < L.freeRamBegin ∧ ∀ i < 8, ¬ L.InPcb i x := by
  have h1 := L.filesystemFiles_le
  have h2 := L.proc_fs
  simp only [Layout.InFile, Layout.fsData, Layout.fsFile, Layout.InPcb, Layout.proc, maxFilesize,
    sizeofFilesystemFile, sizeofProcess, numProcesses, maxFsFiles] at *
  refine ⟨by omega, ?_⟩
  intro i hi
  omega

/-- The file `idx` reads the same in both states. -/
def SameFile (L : Layout) (idx : Nat) (k k' : KState) : Prop :=
  ∀ x, L.InFile idx x → k'.mem x = k.mem x

/-- An operation on a process changes no file. -/
theorem Grow.sameFile (hg : Grow L S (L.InPcb i) k g k' g') (hi : i < 8) {idx : Nat}
    (hidx : idx < 12) : SameFile L idx k k' := by
  intro x hx
  obtain ⟨h1, h2⟩ := hx.static hidx
  exact hg.static_mem x h1 (h2 i hi)

variable {idx n : Nat}

theorem SameFile.load (h : SameFile L idx k k') {x : Nat} (hx : x + 4 ≤ maxFilesize) :
    k'.load (L.fsData idx + x) = k.load (L.fsData idx + x) := by
  apply load32_congr
  intro y h1 h2
  exact h y (by simp only [Layout.InFile]; omega)

theorem SameFile.phnum (h : SameFile L idx k k') :
    elfPhnum k' (L.fsData idx) = elfPhnum k (L.fsData idx) := by
  unfold elfPhnum load16
  rw [h _ (by simp only [Layout.InFile, maxFilesize]; omega),
    h _ (by simp only [Layout.InFile, maxFilesize]; omega)]

theorem SameFile.phoff (h : SameFile L idx k k') :
    elfPhoff k' (L.fsData idx) = elfPhoff k (L.fsData idx) :=
  h.load (by decide)

theorem SameFile.entry (h : SameFile L idx k k') :
    elfEntry k' (L.fsData idx) = elfEntry k (L.fsData idx) :=
  h.load (by decide)

theorem Layout.fsData_bound (L : Layout) (hidx : idx < 12) :
    L.fsData idx + maxFilesize < 2 ^ 32 := by
  have h1 := L.filesystemFiles_le
  have h2 := L.end_le
  simp only [Layout.fsData, Layout.fsFile, maxFilesize, sizeofFilesystemFile, maxFsFiles,
    vaUserBase] at *
  omega

/-- Where a program header inside the file is. -/
theorem elfProgramHeader_inside (hidx : idx < 12)
    (hh : elfPhoff k (L.fsData idx) + 32 * elfPhnum k (L.fsData idx) ≤ maxFilesize)
    (hn : n < elfPhnum k (L.fsData idx)) :
    elfProgramHeader k (L.fsData idx) n = L.fsData idx + (elfPhoff k (L.fsData idx) + n * 32) ∧
      elfPhoff k (L.fsData idx) + n * 32 + 32 ≤ maxFilesize := by
  have hb := L.fsData_bound hidx
  refine ⟨?_, by omega⟩
  unfold elfProgramHeader
  rw [Nat.mod_eq_of_lt (by omega), Nat.add_assoc]

theorem elfProgramHeader_eq (hidx : idx < 12)
    (hh : elfPhoff k (L.fsData idx) + 32 * elfPhnum k (L.fsData idx) ≤ maxFilesize)
    (hn : n < elfPhnum k (L.fsData idx)) :
    ∃ o, elfProgramHeader k (L.fsData idx) n = L.fsData idx + o ∧ o + 32 ≤ maxFilesize :=
  ⟨_, elfProgramHeader_inside hidx hh hn⟩

/-- The headers read the same while the image is being built. -/
theorem SameFile.programHeader (h : SameFile L idx k k') (hidx : idx < 12)
    (hh : elfPhoff k (L.fsData idx) + 32 * elfPhnum k (L.fsData idx) ≤ maxFilesize)
    (hn : n < elfPhnum k (L.fsData idx)) {eph : Nat}
    (heph : elfProgramHeader k (L.fsData idx) n = eph) :
    elfProgramHeader k' (L.fsData idx) n = eph ∧ phVaddr k' eph = phVaddr k eph ∧
      phMemsz k' eph = phMemsz k eph ∧ phOffset k' eph = phOffset k eph := by
  obtain ⟨o, ho, hlt⟩ := elfProgramHeader_eq hidx hh hn
  rw [heph] at ho
  have heq : elfProgramHeader k' (L.fsData idx) n = eph := by
    rw [← heph]
    unfold elfProgramHeader
    rw [h.phoff]
  refine ⟨heq, ?_, ?_, ?_⟩
  · unfold phVaddr
    rw [ho, Nat.add_assoc]
    exact h.load (by omega)
  · unfold phMemsz
    rw [ho, Nat.add_assoc]
    exact h.load (by omega)
  · unfold phOffset
    rw [ho, Nat.add_assoc]
    exact h.load (by omega)

theorem elfPages_eq (k : KState) (elf : Nat) : elfPages k elf = (elfLoads k elf).map Load.page := by
  unfold elfPages elfLoads segmentPages segmentLoads
  rw [List.map_flatMap]
  apply List.flatMap_congr
  intro n _
  rw [List.map_map]
  rfl

theorem SameFile.loads (h : SameFile L idx k k') (hidx : idx < 12)
    (hh : elfPhoff k (L.fsData idx) + 32 * elfPhnum k (L.fsData idx) ≤ maxFilesize) :
    elfLoads k' (L.fsData idx) = elfLoads k (L.fsData idx) := by
  unfold elfLoads
  rw [h.phnum]
  apply List.flatMap_congr
  intro n hn
  obtain ⟨h1, h2, h3, h4⟩ := h.programHeader hidx hh (List.mem_range.mp hn) rfl
  unfold segmentLoads
  rw [h1, h2, h3, h4]

theorem SameFile.elfAbove (h : SameFile L idx k k') (hidx : idx < 12)
    (hok : ElfAbove k (L.fsData idx)) : ElfAbove k' (L.fsData idx) := by
  refine ⟨?_, ?_⟩
  · rw [h.phoff, h.phnum]
    exact hok.headers
  · rw [elfPages_eq, h.loads hidx hok.headers, ← elfPages_eq]
    exact hok.base

theorem SameFile.elfOk (h : SameFile L idx k k') (hidx : idx < 12)
    (hok : ElfOk k (L.fsData idx)) : ElfOk k' (L.fsData idx) := by
  refine ⟨?_, ?_⟩
  · rw [h.phoff, h.phnum]
    exact hok.headers
  · rw [elfPages_eq, h.loads hidx hok.headers, ← elfPages_eq]
    exact hok.pages

theorem ElfOk.above {elf : Nat} (h : ElfOk k elf) : ElfAbove k elf :=
  ⟨h.headers, fun v hv => (h.pages v hv).1⟩

/-! ## §2 Loading them -/

/-- A run of full pages. -/
theorem Loaded.fullPages {pre : List Load} (hld : Loaded L heap i k g pre k' g')
    (ls : Nat → Load) (vas : Nat → Nat) (hi : i < 8) (hva : ∀ o, vas o < 2 ^ 32)
    (hpage : ∀ o, vas o / 4096 = (ls o).page) (hlen : ∀ o < n, (ls o).len = pageSize)
    (h : forLoop n (fun o => loadPage L heap i (vas o) (ls o).src pageSize) k' = some k'') :
    ∃ g'', Loaded L heap i k g (pre ++ (List.range n).map ls) k'' g'' := by
  refine forLoop_inv (I := fun o t => ∃ g1, Loaded L heap i k g
    (pre ++ (List.range o).map ls) t g1) h ⟨g', by simpa using hld⟩ ?_
  intro o t t' ho hI hstep
  obtain ⟨g1, hg1⟩ := hI
  have hl := hlen o ho
  obtain ⟨g2, hg2⟩ := hg1.page (ls o) hi (hva o) (hpage o) (by rw [hl])
    (by rw [hl]; exact hstep)
  refine ⟨g2, ?_⟩
  rw [List.range_succ, List.map_append, ← List.append_assoc, List.map_singleton]
  exact hg2

/-- One segment, of whatever the program headers in `k'` say. -/
theorem Loaded.segmentAt {pre : List Load} {elf : Nat} (hld : Loaded L heap i k g pre k' g')
    (hi : i < 8) (h : loadSegment L heap i elf n k' = some k'') :
    ∃ g'', Loaded L heap i k g
      (pre ++ segmentLoads k' elf (elfProgramHeader k' elf n)) k'' g'' := by
  unfold loadSegment at h
  dsimp only at h
  generalize elfProgramHeader k' elf n = eph at *
  unfold segmentLoads
  generalize elf + phOffset k' eph = start at *
  generalize hls : (fun o => (⟨(phVaddr k' eph + o * pageSize) % 2 ^ 32 / pageSize,
    (start + o * pageSize) % 2 ^ 32, min pageSize (phMemsz k' eph - o * pageSize)⟩ : Load)) = ls
  have hva : ∀ o, (phVaddr k' eph + o * pageSize) % 2 ^ 32 < 2 ^ 32 :=
    fun o => Nat.mod_lt _ (by norm_num)
  have hpage : ∀ o, (phVaddr k' eph + o * pageSize) % 2 ^ 32 / 4096 = (ls o).page := by
    intro o
    rw [← hls]
  have hsrc : ∀ o, (start + o * pageSize) % 2 ^ 32 = (ls o).src := by
    intro o
    rw [← hls]
  have hfulllen : ∀ o < phMemsz k' eph / pageSize, (ls o).len = pageSize := by
    intro o ho
    rw [← hls]
    simp only [pageSize] at *
    omega
  simp only [hsrc] at h
  split at h
  · exact absurd h nofun
  · rename_i k1 hloop
    obtain ⟨g1, hg1⟩ := hld.fullPages ls _ hi hva hpage hfulllen hloop
    by_cases hlast : 0 < phMemsz k' eph % pageSize
    · rw [if_pos hlast] at h
      have hlen : (ls (phMemsz k' eph / pageSize)).len = phMemsz k' eph % pageSize := by
        rw [← hls]
        simp only [pageSize] at *
        omega
      obtain ⟨g2, hg2⟩ := hg1.page (ls (phMemsz k' eph / pageSize)) hi (hva _) (hpage _)
        (by rw [hlen]; simp only [pageSize]; omega) (by rw [hlen]; exact h)
      refine ⟨g2, ?_⟩
      rw [show (phMemsz k' eph + 4095) / pageSize = phMemsz k' eph / pageSize + 1 by
          simp only [pageSize] at *; omega,
        List.range_succ, List.map_append, ← List.append_assoc, List.map_singleton]
      exact hg2
    · rw [if_neg hlast, Option.some.injEq] at h
      refine ⟨g1, ?_⟩
      rw [← h, show (phMemsz k' eph + 4095) / pageSize = phMemsz k' eph / pageSize by
        simp only [pageSize] at *; omega]
      exact hg1

/-- One segment of a file whose headers are inside it: the loads are those
the file held before. -/
theorem Loaded.segment {pre : List Load} (hld : Loaded L heap i k g pre k' g')
    (hi : i < 8) (hidx : idx < 12)
    (hh : elfPhoff k (L.fsData idx) + 32 * elfPhnum k (L.fsData idx) ≤ maxFilesize)
    (hn : n < elfPhnum k (L.fsData idx))
    (h : loadSegment L heap i (L.fsData idx) n k' = some k'') :
    ∃ g'', Loaded L heap i k g (pre ++ segmentLoads k (L.fsData idx)
      (elfProgramHeader k (L.fsData idx) n)) k'' g'' := by
  obtain ⟨heph, hvaddr, hmemsz, hoffset⟩ :=
    (hld.grow.sameFile hi hidx).programHeader hidx hh hn rfl
  obtain ⟨g'', hg''⟩ := hld.segmentAt hi h
  refine ⟨g'', ?_⟩
  simpa only [heph, segmentLoads, hvaddr, hmemsz, hoffset] using hg''

/-- The segments of any image at all. -/
theorem loadSegments_any {elf : Nat} (hk : KmemInv L k g)
    (ht : Tree k.mem g (.proc i) (pcb L k i .pagetable))
    (hl : Leaves k.mem g (.proc i) (pcb L k i .pagetable)) (hi : i < 8)
    (h : forLoop n (loadSegment L heap i elf) k = some k') :
    ∃ loads g', Loaded L heap i k g loads k' g' := by
  refine forLoop_inv (I := fun _ t => ∃ loads g', Loaded L heap i k g loads t g') h
    ⟨[], g, loaded_nil hk ht hl⟩ ?_
  intro o t t' _ hI hstep
  obtain ⟨loads, g1, hg1⟩ := hI
  obtain ⟨g2, hg2⟩ := hg1.segmentAt hi hstep
  exact ⟨_, g2, hg2⟩

/-- The segments before the `n`-th. -/
theorem loadSegments_rounds (hk : KmemInv L k g)
    (ht : Tree k.mem g (.proc i) (pcb L k i .pagetable))
    (hl : Leaves k.mem g (.proc i) (pcb L k i .pagetable)) (hi : i < 8) (hidx : idx < 12)
    (hh : elfPhoff k (L.fsData idx) + 32 * elfPhnum k (L.fsData idx) ≤ maxFilesize)
    (hn : n ≤ elfPhnum k (L.fsData idx))
    (h : forLoop n (loadSegment L heap i (L.fsData idx)) k = some k') :
    ∃ g', Loaded L heap i k g ((List.range n).flatMap (fun n => segmentLoads k (L.fsData idx)
      (elfProgramHeader k (L.fsData idx) n))) k' g' := by
  refine forLoop_inv (I := fun n t => ∃ g1, Loaded L heap i k g
    ((List.range n).flatMap (fun n => segmentLoads k (L.fsData idx)
      (elfProgramHeader k (L.fsData idx) n))) t g1) h ⟨g, loaded_nil hk ht hl⟩ ?_
  intro o t t' ho hI hstep
  obtain ⟨g1, hg1⟩ := hI
  obtain ⟨g2, hg2⟩ := hg1.segment hi hidx hh (by omega) hstep
  refine ⟨g2, ?_⟩
  rw [List.range_succ, List.flatMap_append, List.flatMap_singleton]
  exact hg2

/-- All segments of an image. -/
theorem loadSegments_spec (hk : KmemInv L k g)
    (ht : Tree k.mem g (.proc i) (pcb L k i .pagetable))
    (hl : Leaves k.mem g (.proc i) (pcb L k i .pagetable)) (hi : i < 8) (hidx : idx < 12)
    (hh : elfPhoff k (L.fsData idx) + 32 * elfPhnum k (L.fsData idx) ≤ maxFilesize)
    (h : forLoop (elfPhnum k (L.fsData idx)) (loadSegment L heap i (L.fsData idx)) k = some k') :
    ∃ g', Loaded L heap i k g (elfLoads k (L.fsData idx)) k' g' :=
  loadSegments_rounds hk ht hl hi hidx hh (le_refl _) h

/-- A load fails only for lack of pages. -/
theorem loadPage_none {src : Nat} (hk : KmemInv L k g) (hva : va < 2 ^ 32) (hn : n ≤ 4096)
    (h : loadPage L heap i va src n k = none) : g.free.length ≤ 1 := by
  unfold loadPage at h
  cases hal : kmemAlloc k with
  | none =>
    rw [kmemAlloc_none hk hal, List.length_nil]
    omega
  | some pk =>
    obtain ⟨p, ka⟩ := pk
    simp only [hal] at h
    split at h
    · rename_i hmap
      exact mapUserPage_none hk hva hal
        (fun x hx => copy_outside _ _ _ _ (by omega)) hmap
    · split at h <;> exact absurd h nofun

/-- Loading a segment fails only for lack of pages. -/
theorem loadSegment_none {pre : List Load} (hld : Loaded L heap i k g pre k' g')
    (hi : i < 8) (hidx : idx < 12)
    (hh : elfPhoff k (L.fsData idx) + 32 * elfPhnum k (L.fsData idx) ≤ maxFilesize)
    (hn : n < elfPhnum k (L.fsData idx))
    (h : loadSegment L heap i (L.fsData idx) n k' = none) :
    g.free.length < 2 * (pre ++ segmentLoads k (L.fsData idx)
      (elfProgramHeader k (L.fsData idx) n)).length := by
  obtain ⟨heph, hvaddr, hmemsz, hoffset⟩ :=
    (hld.grow.sameFile hi hidx).programHeader hidx hh hn rfl
  unfold loadSegment at h
  simp only [heph, hvaddr, hmemsz, hoffset] at h
  generalize elfProgramHeader k (L.fsData idx) n = eph at *
  unfold segmentLoads
  generalize L.fsData idx + phOffset k eph = start at *
  generalize hls : (fun o => (⟨(phVaddr k eph + o * pageSize) % 2 ^ 32 / pageSize,
    (start + o * pageSize) % 2 ^ 32, min pageSize (phMemsz k eph - o * pageSize)⟩ : Load)) = ls
  have hva : ∀ o, (phVaddr k eph + o * pageSize) % 2 ^ 32 < 2 ^ 32 :=
    fun o => Nat.mod_lt _ (by norm_num)
  have hpage : ∀ o, (phVaddr k eph + o * pageSize) % 2 ^ 32 / 4096 = (ls o).page := by
    intro o
    rw [← hls]
  have hsrc : ∀ o, (start + o * pageSize) % 2 ^ 32 = (ls o).src := by
    intro o
    rw [← hls]
  have hfulllen : ∀ o < phMemsz k eph / pageSize, (ls o).len = pageSize := by
    intro o ho
    rw [← hls]
    simp only [pageSize] at *
    omega
  simp only [hsrc] at h
  rw [List.length_append, List.length_map, List.length_range]
  -- the pages loaded before the one that failed
  have hshort : ∀ o t, o < (phMemsz k eph + 4095) / pageSize →
      (∃ g1, Loaded L heap i k g (pre ++ (List.range o).map ls) t g1 ∧ g1.free.length ≤ 1) →
      g.free.length < 2 * (pre.length + (phMemsz k eph + 4095) / pageSize) := by
    intro o t ho hI
    obtain ⟨g1, hg1, hlen⟩ := hI
    have hfree := congrArg List.length hg1.free
    have hnew := card_newTables_le k.mem (pcb L k i .pagetable)
      ((pre ++ (List.range o).map ls).map Load.page)
    rw [List.length_drop] at hfree
    rw [List.length_map] at hnew
    rw [List.length_append, List.length_map, List.length_range] at hfree hnew
    omega
  split at h
  · rename_i hloop
    obtain ⟨o, t, ho, hrun, hfail⟩ := forLoop_none hloop
    obtain ⟨g1, hg1⟩ := hld.fullPages ls _ hi hva hpage
      (fun o' ho' => hfulllen o' (by omega)) hrun
    refine hshort o t (by simp only [pageSize] at *; omega) ⟨g1, hg1, ?_⟩
    exact loadPage_none hg1.kmem (hva o) (le_refl _) hfail
  · rename_i k1 hloop
    obtain ⟨g1, hg1⟩ := hld.fullPages ls _ hi hva hpage hfulllen hloop
    split at h
    · rename_i hlast
      refine hshort _ k1 (by simp only [pageSize] at *; omega) ⟨g1, hg1, ?_⟩
      exact loadPage_none hg1.kmem (hva _) (by simp only [pageSize]; omega) h
    · exact absurd h nofun

theorem loadSegments_none (hk : KmemInv L k g)
    (ht : Tree k.mem g (.proc i) (pcb L k i .pagetable))
    (hl : Leaves k.mem g (.proc i) (pcb L k i .pagetable)) (hi : i < 8) (hidx : idx < 12)
    (hh : elfPhoff k (L.fsData idx) + 32 * elfPhnum k (L.fsData idx) ≤ maxFilesize)
    (h : forLoop (elfPhnum k (L.fsData idx)) (loadSegment L heap i (L.fsData idx)) k = none) :
    g.free.length < 2 * (elfLoads k (L.fsData idx)).length := by
  obtain ⟨n, t, hn, hrun, hfail⟩ := forLoop_none h
  obtain ⟨g1, hg1⟩ := loadSegments_rounds hk ht hl hi hidx hh (by omega) hrun
  have hlt := loadSegment_none hg1 hi hidx hh hn hfail
  refine lt_of_lt_of_le hlt (Nat.mul_le_mul_left 2 ?_)
  -- the first `n + 1` segments are among all of them
  have hsub : (List.range (n + 1)).Sublist (List.range (elfPhnum k (L.fsData idx))) :=
    List.range_sublist.mpr (by omega)
  have hle := (hsub.flatMap (fun n => segmentLoads k (L.fsData idx)
    (elfProgramHeader k (L.fsData idx) n))).length_le
  rw [List.range_succ, List.flatMap_append, List.flatMap_singleton] at hle
  exact hle

end Risky321.Kernel
