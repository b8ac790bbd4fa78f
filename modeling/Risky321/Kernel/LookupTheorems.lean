/-
Risky321.Kernel.LookupTheorems — what `filesystem_locate_file` finds.

`strcmp` compares the path with the bytes from the name on, up to a NUL. A
name of 100 bytes fills its member, and then the data of the file follows;
an entry that was never filled has the empty name. So the entries where
`strcmp` and the name member disagree are the unused ones, for the empty
path, and those whose name runs on into their data. §1 is the general fact
about two searches through one table, §2 what `strcmp` compares, §3 the
lookup.
-/
import Risky321.Kernel.DiskTheorems

namespace Risky321.Kernel

open Risky321.Lib

variable {L : Layout} {d : Disk} {m m' : Mem} {i n a : Nat} {path : List UInt8}

/-! ## §1 Two searches -/

/-- Two searches stop at the same place if and only if, before any place where
they disagree, there is one that both accept. -/
theorem find?_range_eq_iff {p q : Nat → Bool} :
    (List.range n).find? p = (List.range n).find? q ↔
      ∀ i < n, p i ≠ q i → ∃ j < i, p j = true ∧ q j = true := by
  constructor
  · intro heq i hi hne
    cases hp : (List.range n).find? p with
    | none =>
      have hq := heq ▸ hp
      rw [List.find?_range_eq_none] at hp hq
      have hpi := hp i hi
      have hqi := hq i hi
      simp_all
    | some j =>
      have hq := heq ▸ hp
      rw [List.find?_range_eq_some] at hp hq
      obtain ⟨hpj, -, hpmin⟩ := hp
      obtain ⟨hqj, -, hqmin⟩ := hq
      rcases Nat.lt_trichotomy i j with hij | hij | hij
      · have hpi := hpmin i hij
        have hqi := hqmin i hij
        simp_all
      · subst hij
        exact absurd (by rw [hpj, hqj]) hne
      · exact ⟨j, hij, hpj, hqj⟩
  · intro hall
    -- a first place of either search is one of both
    have hfirst : ∀ {p q : Nat → Bool} (_ : ∀ i < n, p i ≠ q i → ∃ j < i, p j = true ∧ q j = true)
        {i : Nat}, (List.range n).find? p = some i → (List.range n).find? q = some i := by
      intro p q hall i hp
      rw [List.find?_range_eq_some] at hp ⊢
      obtain ⟨hpi, hmem, hmin⟩ := hp
      have hagree : ∀ j ≤ i, p j = q j := by
        intro j hj
        by_contra hne
        obtain ⟨t, ht, hpt, -⟩ := hall j (by have := List.mem_range.mp hmem; omega) hne
        have hno := hmin t (by omega)
        rw [hpt] at hno
        exact absurd hno (by decide)
      refine ⟨by rw [← hagree i (le_refl _), hpi], hmem, fun j hj => ?_⟩
      rw [← hagree j (by omega)]
      exact hmin j hj
    cases hp : (List.range n).find? p with
    | some i => exact (hfirst hall hp).symm
    | none =>
      cases hq : (List.range n).find? q with
      | none => rfl
      | some i =>
        have hsome := hfirst (fun j hj hne => by
          obtain ⟨t, ht, h1, h2⟩ := hall j hj (Ne.symm hne)
          exact ⟨t, ht, h2, h1⟩) hq
        rw [hp] at hsome
        exact hsome

/-! ## §2 Names -/

/-- The bytes from `a` up to the first NUL, at most `n`. -/
def nameField (m : Mem) : Nat → Nat → List UInt8
  | _, 0 => []
  | a, n + 1 => if m a = 0 then [] else m a :: nameField m (a + 1) n

/-- The bytes of the path, in order, from `a` on. -/
def BytesAt (m : Mem) (a : Nat) (path : List UInt8) : Prop :=
  ∀ j (h : j < path.length), m (a + j) = path[j]

theorem bytesAt_cons {c : UInt8} {cs : List UInt8} :
    BytesAt m a (c :: cs) ↔ m a = c ∧ BytesAt m (a + 1) cs := by
  constructor
  · intro hall
    refine ⟨hall 0 (by simp), fun j hj => ?_⟩
    have := hall (j + 1) (by simp; omega)
    rw [show a + (j + 1) = a + 1 + j by omega] at this
    simpa using this
  · rintro ⟨h0, hall⟩ j hj
    cases j with
    | zero => exact h0
    | succ j =>
      rw [show a + (j + 1) = a + 1 + j by omega]
      exact hall j (by simpa using hj)

/-- `strcmp` finds the path equal to the bytes at `a` and a NUL behind them. -/
theorem strcmp_eq_zero_iff (hpath : ∀ b ∈ path, b ≠ 0) :
    strcmp m path a = 0 ↔ BytesAt m a path ∧ m (a + path.length) = 0 := by
  induction path generalizing a with
  | nil =>
    have h0 : (0 : Int) - ((m a).toNat : Int) = 0 ↔ m a = 0 := by
      rw [← UInt8.toNat_inj]
      simp
    simpa [strcmp, BytesAt] using h0
  | cons c cs ih =>
    have hc : c ≠ 0 := hpath c (by simp)
    rw [strcmp, bytesAt_cons, List.length_cons, show a + (cs.length + 1) = a + 1 + cs.length by omega]
    by_cases heq : c = m a
    · rw [if_pos ⟨hc, heq⟩, ih (fun b hb => hpath b (by simp [hb]))]
      simp [heq]
    · rw [if_neg (fun h => heq h.2)]
      have hne : ((c.toNat : Int) - (m a).toNat) ≠ 0 := by
        intro h0
        apply heq
        rw [← UInt8.toNat_inj]
        omega
      constructor
      · intro h0
        exact absurd h0 hne
      · rintro ⟨⟨h0, -⟩, -⟩
        exact absurd h0.symm heq

/-- The member holds the path: all of its bytes, and a NUL behind them if there is room. -/
theorem nameField_eq_iff (hpath : ∀ b ∈ path, b ≠ 0) :
    nameField m a n = path ↔ path.length ≤ n ∧ BytesAt m a path ∧
      (path.length < n → m (a + path.length) = 0) := by
  induction n generalizing a path with
  | zero =>
    constructor
    · rintro rfl
      simp [nameField, BytesAt]
    · rintro ⟨hle, -⟩
      rw [nameField, List.length_eq_zero_iff.mp (Nat.le_zero.mp hle)]
  | succ n ih =>
    cases path with
    | nil => by_cases h0 : m a = 0 <;> simp [nameField, BytesAt, h0]
    | cons c cs =>
      have hc : c ≠ 0 := hpath c (by simp)
      have hcs : ∀ b ∈ cs, b ≠ 0 := fun b hb => hpath b (by simp [hb])
      rw [nameField, bytesAt_cons, List.length_cons,
        show a + (cs.length + 1) = a + 1 + cs.length by omega]
      by_cases h0 : m a = 0
      · rw [if_pos h0]
        constructor
        · intro h
          cases h
        · rintro ⟨-, ⟨hca, -⟩, -⟩
          exact absurd (hca.symm.trans h0) hc
      · rw [if_neg h0, List.cons.injEq, ih hcs]
        constructor
        · rintro ⟨hca, hle, hall, hend⟩
          exact ⟨by omega, ⟨hca, hall⟩, fun h => hend (by omega)⟩
        · rintro ⟨hle, ⟨hca, hall⟩, hend⟩
          exact ⟨hca, by omega, hall, fun h => hend (by omega)⟩

/-! ## §3 The lookup -/

/-- The name that entry `i` holds. -/
def fileName (L : Layout) (m : Mem) (i : Nat) : List UInt8 := nameField m (L.fsName i) 100

/-- The file the path names: the first entry that exists and has that name, else -1. -/
def namedFile (L : Layout) (m : Mem) (path : List UInt8) : Nat :=
  ((List.range maxFsFiles).find? (fun i =>
    load32 m (L.fsExists i) != 0 && fileName L m i == path)).getD 0xFFFFFFFF

/-- The name fills its member and the data goes on without a NUL. -/
def Overruns (L : Layout) (m : Mem) (i : Nat) : Prop := ∀ j ≤ 100, m (L.fsName i + j) ≠ 0

/-- Without an overrun `strcmp` compares the path with the name. -/
theorem strcmp_fileName (hpath : ∀ b ∈ path, b ≠ 0) (hover : ¬ Overruns L m i) :
    strcmp m path (L.fsName i) = 0 ↔ fileName L m i = path := by
  rw [strcmp_eq_zero_iff hpath, fileName, nameField_eq_iff hpath]
  constructor
  · rintro ⟨hall, hend⟩
    refine ⟨?_, hall, fun _ => hend⟩
    -- a longer path would be 101 bytes without a NUL
    by_contra hlong
    apply hover
    intro j hj
    rw [hall j (by omega)]
    exact hpath _ (List.getElem_mem _)
  · rintro ⟨hle, hall, hend⟩
    refine ⟨hall, ?_⟩
    rcases Nat.lt_or_eq_of_le hle with hlt | heq
    · exact hend hlt
    · by_contra hne
      apply hover
      intro j hj
      rcases Nat.lt_or_eq_of_le hj with hj | hj
      · rw [hall j (by omega)]
        exact hpath _ (List.getElem_mem _)
      · rw [hj, ← heq]
        exact hne

/-- With one it never finds the name itself. -/
theorem strcmp_overruns (hpath : ∀ b ∈ path, b ≠ 0) (hover : Overruns L m i)
    (hcmp : strcmp m path (L.fsName i) = 0) : fileName L m i ≠ path := by
  rw [strcmp_eq_zero_iff hpath] at hcmp
  intro hname
  rw [fileName, nameField_eq_iff hpath] at hname
  exact hover path.length hname.1 hcmp.2

theorem getD_find?_inj {p q : Nat → Bool} (hn : n ≤ 0xFFFFFFFF) :
    ((List.range n).find? p).getD 0xFFFFFFFF = ((List.range n).find? q).getD 0xFFFFFFFF ↔
      (List.range n).find? p = (List.range n).find? q := by
  constructor
  · intro heq
    cases hp : (List.range n).find? p with
    | none =>
      cases hq : (List.range n).find? q with
      | none => rfl
      | some j =>
        have hj := List.mem_range.mp (List.mem_of_find?_eq_some hq)
        rw [hp, hq, Option.getD_none, Option.getD_some] at heq
        omega
    | some i =>
      have hi := List.mem_range.mp (List.mem_of_find?_eq_some hp)
      cases hq : (List.range n).find? q with
      | none =>
        rw [hp, hq, Option.getD_none, Option.getD_some] at heq
        omega
      | some j =>
        rw [hp, hq, Option.getD_some, Option.getD_some] at heq
        rw [heq]
  · intro heq
    rw [heq]

/-- The first byte of the name of a file is not NUL. -/
theorem TableOf.name_ne {count : Nat} {m0 : Mem} (h : TableOf L d m0 count m) (hi : i < count) :
    m (L.fsName i) ≠ 0 := by
  obtain ⟨n1, m1, -, -, hne, -, hf⟩ := h.filled i hi
  have h0 := hf.name 0 (by omega)
  rw [Nat.add_zero, Nat.add_zero] at h0
  rw [h0]
  exact hne

/-- An unused entry has no name. -/
theorem TableOf.unused_name {count j : Nat} {m0 : Mem} (h : TableOf L d m0 count m)
    (hbss : BssZero L m0) (hge : count ≤ i) (hi : i < maxFsFiles) (hj : j ≤ 100) :
    m (L.fsName i + j) = 0 := by
  simp only [maxFsFiles] at hi
  have hin : L.InFsFile i (L.fsName i + j) := by
    simp only [Layout.InFsFile, Layout.fsName, sizeofFilesystemFile]
    omega
  rw [h.unused i hge hi _ hin]
  apply hbss.1 <;> simp only [Layout.fsName, Layout.fsFile, maxFsFiles, sizeofFilesystemFile] <;>
    omega

theorem TableOf.not_overruns {count : Nat} {m0 : Mem} (h : TableOf L d m0 count m)
    (hbss : BssZero L m0) (hge : count ≤ i) (hi : i < maxFsFiles) : ¬ Overruns L m i :=
  fun hover => hover 0 (by omega) (h.unused_name hbss hge hi (by omega))

theorem TableOf.unused_fileName {count : Nat} {m0 : Mem} (h : TableOf L d m0 count m)
    (hbss : BssZero L m0) (hge : count ≤ i) (hi : i < maxFsFiles) : fileName L m i = [] := by
  have h0 := h.unused_name hbss hge hi (j := 0) (by omega)
  rw [Nat.add_zero] at h0
  rw [fileName, nameField, if_pos h0]

theorem TableOf.fileName_ne {count : Nat} {m0 : Mem} (h : TableOf L d m0 count m)
    (hi : i < count) : fileName L m i ≠ [] := by
  rw [fileName, nameField, if_neg (h.name_ne hi)]
  simp

/-- When the lookup is right: the empty path needs a full table, and before an
entry whose name runs on into its data and that has the path, with or without
that data, there must be one that has it as its whole name. -/
def LookupClean (L : Layout) (m : Mem) (path : List UInt8) : Prop :=
  (path = [] → ∀ i < maxFsFiles, load32 m (L.fsExists i) ≠ 0) ∧
  ∀ i < maxFsFiles, Overruns L m i →
    (fileName L m i = path ∨ strcmp m path (L.fsName i) = 0) →
    ∃ j < i, ¬ Overruns L m j ∧ load32 m (L.fsExists j) ≠ 0 ∧ fileName L m j = path

/-- **The lookup finds exactly the named file** if and only if the table is
clean for the path. -/
theorem locateFile_exact_iff (L : Layout) (d : Disk) (m : Mem) (k : KState)
    (path : List UInt8) (hbss : BssZero L m) (hret : filesystemInit L d m = some k.mem)
    (hpath : ∀ b ∈ path, b ≠ 0) :
    filesystemLocateFile L k path = namedFile L k.mem path ↔ LookupClean L k.mem path := by
  obtain ⟨count, -, htable⟩ := (AtTurn.start : AtTurn L d m 0 0 m).table hret
  have hex : ∀ {i}, i < maxFsFiles → (load32 k.mem (L.fsExists i) ≠ 0 ↔ i < count) :=
    fun hi => htable.exists_iff hbss hi
  rw [filesystemLocateFile, namedFile, getD_find?_inj (by norm_num), find?_range_eq_iff]
  -- both searches accept an entry that exists, does not run on and has the name
  have hboth : ∀ j < maxFsFiles,
      ((strcmp k.mem path (L.fsName j) == 0) = true ∧
        (load32 k.mem (L.fsExists j) != 0 && fileName L k.mem j == path) = true) ↔
      ¬ Overruns L k.mem j ∧ load32 k.mem (L.fsExists j) ≠ 0 ∧ fileName L k.mem j = path := by
    intro j hj
    simp only [beq_iff_eq, Bool.and_eq_true, bne_iff_ne]
    constructor
    · rintro ⟨hcmp, hexj, hname⟩
      exact ⟨fun hover => strcmp_overruns hpath hover hcmp hname, hexj, hname⟩
    · rintro ⟨hover, hexj, hname⟩
      exact ⟨(strcmp_fileName hpath hover).mpr hname, hexj, hname⟩
  have hdiff : ∀ j, (strcmp k.mem path (L.fsName j) == 0) ≠
        (load32 k.mem (L.fsExists j) != 0 && fileName L k.mem j == path) ↔
      ¬ (strcmp k.mem path (L.fsName j) = 0 ↔
        load32 k.mem (L.fsExists j) ≠ 0 ∧ fileName L k.mem j = path) := by
    intro j
    rw [Ne, Bool.eq_iff_iff]
    simp only [beq_iff_eq, Bool.and_eq_true, bne_iff_ne]
  simp only [hdiff]
  constructor
  · intro hall
    refine ⟨?_, ?_⟩
    · -- an unused entry answers to the empty path, and no file does
      rintro rfl i hi
      by_contra hunused
      have hge : count ≤ i := not_lt.mp (fun hlt => (hex hi).mpr hlt hunused)
      have hcmp : strcmp k.mem [] (L.fsName i) = 0 :=
        (strcmp_fileName hpath (htable.not_overruns hbss hge hi)).mpr
          (htable.unused_fileName hbss hge hi)
      obtain ⟨j, hj, hp, hq⟩ := hall i hi (fun h => (h.mp hcmp).1 hunused)
      obtain ⟨-, hexj, hname⟩ := (hboth j (by omega)).mp ⟨hp, hq⟩
      exact htable.fileName_ne ((hex (by omega)).mp hexj) hname
    · intro i hi hover hor
      have hlt : i < count := by
        by_contra hge
        exact htable.not_overruns hbss (by omega) hi hover
      have hexi := (hex hi).mpr hlt
      have hnot := strcmp_overruns hpath hover
      have hne : ¬ (strcmp k.mem path (L.fsName i) = 0 ↔
          load32 k.mem (L.fsExists i) ≠ 0 ∧ fileName L k.mem i = path) := by
        intro h
        rcases hor with hname | hcmp
        · exact hnot (h.mpr ⟨hexi, hname⟩) hname
        · exact hnot hcmp (h.mp hcmp).2
      obtain ⟨j, hj, hp, hq⟩ := hall i hi hne
      exact ⟨j, hj, (hboth j (by omega)).mp ⟨hp, hq⟩⟩
  · rintro ⟨hempty, hruns⟩ i hi hne
    by_cases hover : Overruns L k.mem i
    · have hor : fileName L k.mem i = path ∨ strcmp k.mem path (L.fsName i) = 0 := by
        by_contra hno
        rw [not_or] at hno
        exact hne ⟨fun h => absurd h hno.2, fun h => absurd h.2 hno.1⟩
      obtain ⟨j, hj, hok⟩ := hruns i hi hover hor
      exact ⟨j, hj, (hboth j (by omega)).mpr hok⟩
    · -- the searches disagree on an unused entry only
      have hiff := strcmp_fileName hpath hover
      by_cases hexi : load32 k.mem (L.fsExists i) ≠ 0
      · exact absurd ⟨fun h => ⟨hexi, hiff.mp h⟩, fun h => hiff.mpr h.2⟩ hne
      · have hge : count ≤ i := not_lt.mp (mt (hex hi).mpr hexi)
        have hname := htable.unused_fileName hbss hge hi
        have hpe : path = [] := by
          by_contra hnp
          exact hne ⟨fun h => absurd ((hname.symm.trans (hiff.mp h)).symm) hnp,
            fun h => absurd h.1 hexi⟩
        exact absurd (hempty hpe i hi) hexi

/-- The kernel after the archive with the one file `a` has been unpacked. -/
theorem exampleArchive_table :
    ∃ k : KState, filesystemInit exampleLayout exampleArchive (fun _ => 0) = some k.mem ∧
      TableOf exampleLayout exampleArchive (fun _ => 0) 1 k.mem ∧
      ∀ j < 100, k.mem (exampleLayout.fsName 0 + j) = exampleArchive.byte 0 j := by
  have hread : exampleArchive.Readable 0 := ⟨by decide, rfl⟩
  obtain ⟨hname, hsize⟩ := exampleArchive_header (m := fun _ => 0) hread rfl
  obtain ⟨m', hret, htable, -, -⟩ := singleFile_returns (L := exampleLayout) (d := exampleArchive)
    (by decide) hname (by rw [hsize]; norm_num) (by rw [hsize]; decide)
  refine ⟨⟨m', 0, 0, none, 0, 0, []⟩, hret, htable, fun j hj => ?_⟩
  obtain ⟨n1, m1, hat, -, -, -, hf⟩ := htable.filled 0 (by omega)
  obtain ⟨rfl, rfl⟩ := AtTurn.start.unique hat
  exact (hf.name j hj).trans (virtioRead_inside hread (by norm_num) (by omega))

theorem exampleArchive_bss : BssZero exampleLayout (fun _ => 0) :=
  ⟨fun _ _ _ => rfl, fun _ _ _ => rfl⟩

/-- The empty path names no file, and yet entry 1 is found. -/
theorem empty_path_found :
    ∃ k : KState, filesystemInit exampleLayout exampleArchive (fun _ => 0) = some k.mem ∧
      namedFile exampleLayout k.mem [] = 0xFFFFFFFF ∧ filesystemLocateFile exampleLayout k [] = 1 := by
  obtain ⟨k, hret, htable, -⟩ := exampleArchive_table
  have hnil : ∀ b ∈ ([] : List UInt8), b ≠ 0 := by simp
  refine ⟨k, hret, ?_, ?_⟩
  · have hnone : (List.range maxFsFiles).find? (fun i =>
        load32 k.mem (exampleLayout.fsExists i) != 0 && fileName exampleLayout k.mem i == []) =
        none := by
      rw [List.find?_eq_none]
      intro i hi
      have hi := List.mem_range.mp hi
      simp only [Bool.and_eq_true, bne_iff_ne, beq_iff_eq]
      rintro ⟨hex, hname⟩
      exact htable.fileName_ne ((htable.exists_iff exampleArchive_bss hi).mp hex) hname
    rw [namedFile, hnone, Option.getD_none]
  · have h1 : strcmp k.mem [] (exampleLayout.fsName 1) = 0 :=
      (strcmp_fileName hnil (htable.not_overruns exampleArchive_bss (by decide) (by decide))).mpr
        (htable.unused_fileName exampleArchive_bss (by decide) (by decide))
    have h0 : strcmp k.mem [] (exampleLayout.fsName 0) ≠ 0 := by
      rw [Ne, strcmp_eq_zero_iff hnil]
      exact fun h => htable.name_ne (by decide) h.2
    have hfound : (List.range maxFsFiles).find?
        (fun i => strcmp k.mem [] (exampleLayout.fsName i) == 0) = some 1 := by
      rw [List.find?_range_eq_some]
      refine ⟨by simp [h1], by decide, fun j hj => ?_⟩
      obtain rfl : j = 0 := by omega
      simp [h0]
    rw [filesystemLocateFile, hfound, Option.getD_some]

/-- The path `a` finds the file. -/
theorem locateFile_exact_example :
    ∃ k : KState, filesystemInit exampleLayout exampleArchive (fun _ => 0) = some k.mem ∧
      filesystemLocateFile exampleLayout k [97] = namedFile exampleLayout k.mem [97] := by
  obtain ⟨k, hret, htable, hname⟩ := exampleArchive_table
  have hclean : ∀ i < maxFsFiles, ¬ Overruns exampleLayout k.mem i := by
    intro i hi hover
    rcases Nat.eq_zero_or_pos i with rfl | hpos
    · refine hover 1 (by decide) ?_
      rw [hname 1 (by decide)]
      decide
    · exact htable.not_overruns exampleArchive_bss hpos hi hover
  have hiff := locateFile_exact_iff exampleLayout exampleArchive (fun _ => 0) k [97]
    exampleArchive_bss hret (by simp)
  exact ⟨k, hret, hiff.mpr ⟨fun h => absurd h (List.cons_ne_nil _ _),
    fun i hi hover => absurd hover (hclean i hi)⟩⟩

end Risky321.Kernel
