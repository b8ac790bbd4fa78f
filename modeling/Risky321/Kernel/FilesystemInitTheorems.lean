/-
Risky321.Kernel.FilesystemInitTheorems — `filesystem_init` undoes `tar`.

`Ustar d n files` says that from sector `n` on the disk `d` holds the
archive of `files`: for each a header sector and the sectors of its data,
and nothing but zeros behind. The outer loop of `filesystem_init` follows
that definition file by file, its inner loop the data sectors of one
file; both keep a frame, because each file is unpacked into an entry of
its own.
-/
import Risky321.Kernel.FilesystemInit

namespace Risky321.Kernel

open Risky321.Lib

variable {L : Layout} {d : Disk} {m m' : Mem} {i n c x : Nat}

/-! ## §1 Archives -/

/-- A file of an archive. -/
structure TarFile where
  name : List UInt8
  data : List UInt8
  name_pos : 1 ≤ name.length
  name_le : name.length ≤ 100
  name_ne : ∀ b ∈ name, b ≠ 0
  data_le : data.length ≤ maxFilesize

/-- The number of sectors the data takes. -/
def TarFile.dataSectors (f : TarFile) : Nat := (f.data.length + 511) / 512

/-- Digit `j` of the eleven octal digits of `size`, most significant first. -/
def octalDigit (size j : Nat) : Nat := size / 8 ^ (10 - j) % 8

/-- The header sector of a file: its name padded with NULs, its size in octal,
an empty prefix. The other members may be anything. -/
structure IsHeader (h : Nat → UInt8) (f : TarFile) : Prop where
  name : ∀ j < 100, h j = f.name.getD j 0
  size : ∀ j < 11, h (tarSize + j) = UInt8.ofNat (48 + octalDigit f.data.length j)
  noPrefix : ∀ j < 155, h (345 + j) = 0

/-- From sector `n` on the disk holds the archive of the files. -/
def Ustar (d : Disk) : Nat → List TarFile → Prop
  | n, [] => ∀ s, n ≤ s → s < d.sectors → ∀ j < 512, d.byte s j = 0
  | n, f :: fs =>
    n + f.dataSectors < d.sectors ∧ IsHeader (d.byte n) f ∧
      (∀ s < f.dataSectors, ∀ j < 512, d.byte (n + 1 + s) j = f.data.getD (512 * s + j) 0) ∧
      Ustar d (n + 1 + f.dataSectors) fs

/-- Entry `i` of `filesystem_files` is the file `f`. -/
structure Unpacked (L : Layout) (m : Mem) (i : Nat) (f : TarFile) : Prop where
  file_exists : load32 m (L.fsExists i) = 1
  name : ∀ j < 100, m (L.fsName i + j) = f.name.getD j 0
  size : load32 m (L.fsSize i) = f.data.length
  data : ∀ j (h : j < f.data.length), m (L.fsData i + j) = f.data[j]

/-! ## §2 Sectors and numbers -/

/-- Sector `n` is inside the disk and the device can read it. -/
def Disk.Readable (d : Disk) (n : Nat) : Prop := n < d.sectors ∧ d.failed n = false

instance (d : Disk) (n : Nat) : Decidable (d.Readable n) := inferInstanceAs (Decidable (_ ∧ _))

theorem virtioRead_inside {x j : Nat} (hs : d.Readable n) (h32 : n < 2 ^ 32) (hj : j < 512) :
    virtioRead d m x n (x + j) = d.byte n j := by
  unfold virtioRead
  rw [Nat.mod_eq_of_lt h32, hs.2, if_neg (by simp [hs.1])]
  simp only [sectorSize]
  rw [if_pos (by omega), Nat.add_sub_cancel_left]

theorem virtioRead_outside {buf : Nat} (hx : x < buf ∨ buf + 512 ≤ x) :
    virtioRead d m buf n x = m x := by
  unfold virtioRead
  simp only [sectorSize]
  split
  · rfl
  · exact if_neg (by omega)

/-- After `t` digits the number read is the leading part of the size. -/
theorem oct2int_eq {a t : Nat} (hsize : n < 2 ^ 32) (ht : t ≤ 11)
    (hm : ∀ j < 11, m (a + j) = UInt8.ofNat (48 + octalDigit n j)) :
    oct2int m a t = n / 8 ^ (11 - t) := by
  induction t with
  | zero =>
    rw [oct2int, Nat.div_eq_of_lt]
    exact lt_of_lt_of_le hsize (by norm_num)
  | succ t ih =>
    have hdigit : (m (a + t)).toNat = 48 + n / 8 ^ (10 - t) % 8 := by
      rw [hm t (by omega), octalDigit, UInt8.toNat_ofNat']
      omega
    have hpow : 8 ^ (11 - t) = 8 ^ (10 - t) * 8 := by
      rw [← Nat.pow_succ, show (10 - t).succ = 11 - t by omega]
    have hle : n / 8 ^ (10 - t) ≤ n := Nat.div_le_self _ _
    rw [oct2int, ih (by omega), hdigit, hpow, ← Nat.div_div_eq_div_mul,
      show 11 - (t + 1) = 10 - t by omega]
    omega

/-! ## §3 One file -/

/-- The addresses of entry `i`. -/
def Layout.InFsFile (L : Layout) (i x : Nat) : Prop :=
  L.fsFile i ≤ x ∧ x < L.fsFile i + sizeofFilesystemFile

/-- The buffer is in no entry. -/
theorem Layout.buffer_apart (L : Layout) (hi : i < 12) :
    L.buffer + 512 ≤ L.fsFile i ∨ L.fsFile i + sizeofFilesystemFile ≤ L.buffer := by
  have := L.buffer_fs
  simp only [Layout.fsFile, sizeofFilesystemFile, maxFsFiles] at *
  omega

/-- The size that the header in `buffer` gives. -/
def headerSize (L : Layout) (m : Mem) : Nat := oct2int m (L.buffer + tarSize) 11

theorem oct2int_congr {a t : Nat} {b : Nat} (hm : ∀ j < t, m (a + j) = m' (b + j)) :
    oct2int m a t = oct2int m' b t := by
  induction t with
  | zero => rfl
  | succ t ih => rw [oct2int, oct2int, ih (fun j hj => hm j (by omega)), hm t (by omega)]

/-- What `filesystem_init` takes from the header in `buffer`, whatever that is. -/
theorem enterFile_fields (hi : i < 12) :
    load32 (enterFile L m i) (L.fsExists i) = 1 ∧
      (∀ j < 100, enterFile L m i (L.fsName i + j) = m (L.buffer + j)) ∧
      load32 (enterFile L m i) (L.fsSize i) = headerSize L m ∧
      (∀ j < 4194304, enterFile L m i (L.fsData i + j) = m (L.fsData i + j)) ∧
      ∀ x, ¬ L.InFsFile i x → enterFile L m i x = m x := by
  have hap := L.buffer_apart hi
  have hname : L.fsName i = L.fsFile i + 4 := rfl
  have hex : L.fsExists i = L.fsFile i := rfl
  have hsz : L.fsSize i = L.fsFile i + 4194408 := rfl
  have hdt : L.fsData i = L.fsFile i + 104 := rfl
  simp only [sizeofFilesystemFile] at hap
  -- the copied name does not touch the header
  have hcopy : ∀ x, x < L.fsName i ∨ L.fsName i + 100 ≤ x →
      copy m (L.fsName i) L.buffer 100 x = m x := fun x hx => copy_outside _ _ _ _ hx
  have hoct : oct2int (copy m (L.fsName i) L.buffer 100) (L.buffer + tarSize) 11 =
      headerSize L m :=
    oct2int_congr (fun j hj => hcopy _ (by simp only [tarSize]; omega))
  have hlt : headerSize L m < 2 ^ 32 := Nat.mod_lt _ (by norm_num)
  unfold enterFile
  simp only [hoct]
  refine ⟨load32_store32_of_lt (by norm_num), ?_, ?_, ?_, ?_⟩
  · intro j hj
    rw [store32_outside _ _ _ (by omega), store32_outside _ _ _ (by omega),
      copy_inside _ (by omega) hj]
  · rw [load32_store32_disjoint _ _ (by omega), load32_store32_of_lt hlt]
  · intro j hj
    rw [store32_outside _ _ _ (by omega), store32_outside _ _ _ (by omega), hcopy _ (by omega)]
  · intro x hx
    simp only [Layout.InFsFile, sizeofFilesystemFile] at hx
    rw [store32_outside _ _ _ (by omega), store32_outside _ _ _ (by omega), hcopy x (by omega)]

/-- What it takes from the header of an archive. -/
theorem enterFile_spec (hi : i < 12) {f : TarFile} {h : Nat → UInt8} (hh : IsHeader h f)
    (hbuf : ∀ j < 512, m (L.buffer + j) = h j) :
    load32 (enterFile L m i) (L.fsExists i) = 1 ∧
      (∀ j < 100, enterFile L m i (L.fsName i + j) = f.name.getD j 0) ∧
      load32 (enterFile L m i) (L.fsSize i) = f.data.length ∧
      ∀ x, ¬ L.InFsFile i x → enterFile L m i x = m x := by
  obtain ⟨hex, hname, hsize, -, hframe⟩ := enterFile_fields (L := L) (m := m) hi
  have hdata := f.data_le
  simp only [maxFilesize] at hdata
  refine ⟨hex, ?_, ?_, hframe⟩
  · intro j hj
    rw [hname j hj, hbuf j (by omega)]
    exact hh.name j hj
  · rw [hsize, headerSize, oct2int_eq (n := f.data.length) (by omega) (le_refl _), Nat.sub_self,
      Nat.pow_zero, Nat.div_one]
    intro j hj
    rw [Nat.add_assoc, hbuf _ (by simp only [tarSize]; omega)]
    exact hh.size j hj

/-- The inner loop, with `c` of the sectors of the file copied. -/
theorem copyFileData_spec {f : TarFile} {fuel data size : Nat} (hsz : size = data + 4194304)
    (hread : ∀ s, d.failed s = false)
    (hdisk : n + f.dataSectors < d.sectors) (h32 : n + f.dataSectors < 2 ^ 32)
    (hbytes : ∀ s < f.dataSectors, ∀ j < 512,
      d.byte (n + 1 + s) j = f.data.getD (512 * s + j) 0)
    (hc : c ≤ f.dataSectors) (hfuel : f.dataSectors - c < fuel)
    (hsize : load32 m size = f.data.length)
    (hdone : ∀ j (h : j < f.data.length), j < 512 * c → m (data + j) = f.data[j]) :
    ∃ m', copyFileData d data size fuel c (n + 1 + c) m = some (n + 1 + f.dataSectors, m') ∧
      (∀ j (h : j < f.data.length), m' (data + j) = f.data[j]) ∧
      ∀ x, x < data ∨ size ≤ x → m' x = m x := by
  have hdata := f.data_le
  have hS : f.dataSectors = (f.data.length + 511) / 512 := rfl
  simp only [maxFilesize] at hdata
  induction fuel generalizing c m with
  | zero => omega
  | succ fuel ih =>
    rw [copyFileData, hsize]
    simp only [sectorSize]
    by_cases hlt : c < f.dataSectors
    · rw [if_pos (by omega)]
      have hout : ∀ x, x < data + c * 512 ∨ data + c * 512 + 512 ≤ x →
          virtioRead d m (data + c * 512) (n + 1 + c) x = m x := fun x hx => virtioRead_outside hx
      have hsize' : load32 (virtioRead d m (data + c * 512) (n + 1 + c)) size = f.data.length := by
        rw [← hsize]
        exact load32_congr (fun x h1 h2 => hout x (by omega))
      have hdone' : ∀ j (h : j < f.data.length), j < 512 * (c + 1) →
          virtioRead d m (data + c * 512) (n + 1 + c) (data + j) = f.data[j] := by
        intro j hj hjc
        by_cases hjc' : j < 512 * c
        · rw [hout _ (by omega)]
          exact hdone j hj hjc'
        · have hin := virtioRead_inside (d := d) (m := m) (n := n + 1 + c) (j := j - 512 * c)
            ⟨show n + 1 + c < d.sectors by omega, hread _⟩ (by omega) (by omega) (x := data + c * 512)
          rw [show data + c * 512 + (j - 512 * c) = data + j by omega] at hin
          rw [hin, hbytes c hlt _ (by omega), show 512 * c + (j - 512 * c) = j by omega]
          simp [hj]
      rw [hsize', if_neg (by simp only [maxFilesize]; omega)]
      obtain ⟨m', hrun, hall, hframe⟩ := ih (by omega) (by omega) hsize' hdone'
      refine ⟨m', hrun, hall, fun x hx => ?_⟩
      rw [hframe x hx, hout x (by omega)]
    · rw [if_neg (by omega)]
      have hceq : c = f.dataSectors := by omega
      exact ⟨m, by rw [hceq], fun j hj => hdone j hj (by omega), fun _ _ => rfl⟩

/-- One file: its entry is filled, nothing else changes. -/
theorem unpackFile_spec (hi : i < 12) {f : TarFile} (hread : ∀ s, d.failed s = false)
    (h32 : n + f.dataSectors < 2 ^ 32)
    (hdisk : n + f.dataSectors < d.sectors) (hh : IsHeader (d.byte n) f)
    (hbytes : ∀ s < f.dataSectors, ∀ j < 512,
      d.byte (n + 1 + s) j = f.data.getD (512 * s + j) 0)
    (hbuf : ∀ j < 512, m (L.buffer + j) = d.byte n j) :
    ∃ m', copyFileData d (L.fsData i) (L.fsSize i) (maxFilesize / sectorSize + 1) 0 (n + 1)
        (enterFile L m i) = some (n + 1 + f.dataSectors, m') ∧
      Unpacked L m' i f ∧ ∀ x, ¬ L.InFsFile i x → m' x = m x := by
  obtain ⟨hex, hname, hsize, hframe⟩ := enterFile_spec hi hh hbuf
  have hdata := f.data_le
  have hS : f.dataSectors = (f.data.length + 511) / 512 := rfl
  simp only [maxFilesize] at hdata
  have hsz : L.fsSize i = L.fsData i + 4194304 := by
    unfold Layout.fsSize Layout.fsData
    omega
  obtain ⟨m', hrun, hall, hout⟩ := copyFileData_spec hsz hread hdisk h32 hbytes (Nat.zero_le _)
    (show f.dataSectors - 0 < maxFilesize / sectorSize + 1 by simp only [maxFilesize, sectorSize]; omega)
    hsize (fun j _ h0 => absurd h0 (by omega))
  have hfile : L.fsExists i = L.fsFile i ∧ L.fsName i = L.fsFile i + 4 ∧
      L.fsData i = L.fsFile i + 104 := ⟨rfl, rfl, rfl⟩
  refine ⟨m', hrun, ⟨?_, ?_, ?_, hall⟩, ?_⟩
  · rw [← hex]
    exact load32_congr (fun x h1 h2 => hout x (by omega))
  · intro j hj
    rw [hout _ (by omega)]
    exact hname j hj
  · rw [← hsize]
    exact load32_congr (fun x h1 h2 => hout x (by omega))
  · intro x hx
    rw [← hframe x hx]
    simp only [Layout.InFsFile, sizeofFilesystemFile] at hx
    exact hout x (by omega)

/-! ## §4 The archive -/

/-- Entries are apart. -/
theorem Layout.fsFile_apart (L : Layout) {j : Nat} (hij : i ≠ j) (hx : L.InFsFile i x) :
    ¬ L.InFsFile j x := by
  intro hx'
  simp only [Layout.InFsFile, Layout.fsFile, sizeofFilesystemFile] at *
  omega

/-- An entry that is not written stays what it is. -/
theorem Unpacked.congr {f : TarFile} (hu : Unpacked L m i f)
    (hm : ∀ x, L.InFsFile i x → m' x = m x) : Unpacked L m' i f := by
  have hdata := f.data_le
  simp only [maxFilesize] at hdata
  have hfile : L.fsExists i = L.fsFile i ∧ L.fsName i = L.fsFile i + 4 ∧
      L.fsData i = L.fsFile i + 104 ∧ L.fsSize i = L.fsFile i + 4194408 := ⟨rfl, rfl, rfl, rfl⟩
  have hin : ∀ x, L.fsFile i ≤ x → x < L.fsFile i + 4194412 → m' x = m x :=
    fun x h1 h2 => hm x ⟨h1, h2⟩
  refine ⟨?_, ?_, ?_, ?_⟩
  · rw [← hu.file_exists]
    exact load32_congr (fun x h1 h2 => hin x (by omega) (by omega))
  · intro j hj
    rw [hin _ (by omega) (by omega)]
    exact hu.name j hj
  · rw [← hu.size]
    exact load32_congr (fun x h1 h2 => hin x (by omega) (by omega))
  · intro j hj
    rw [hin _ (by omega) (by omega)]
    exact hu.data j hj

/-- An entry whose bytes are not written stays unused. -/
theorem fsExists_congr {j : Nat} (hm : ∀ x, L.InFsFile j x → m' x = m x) :
    load32 m' (L.fsExists j) = load32 m (L.fsExists j) := by
  apply load32_congr
  intro x h1 h2
  have hex : L.fsExists j = L.fsFile j := rfl
  exact hm x ⟨by omega, by simp only [sizeofFilesystemFile]; omega⟩

/-- The buffer is read, the entries are not. -/
theorem buffer_frame {j : Nat} (hj : j < 12) (hx : L.InFsFile j x) :
    virtioRead d m L.buffer n x = m x := by
  have hap := L.buffer_apart hj
  simp only [Layout.InFsFile, sizeofFilesystemFile] at hap hx
  exact virtioRead_outside (by omega)

/-- The outer loop unpacks the files of an archive one after the other. -/
theorem filesystemInitLoop_spec {fs : List TarFile} {k : Nat}
    (hread : ∀ s, d.failed s = false) (hik : i + k = 12)
    (hlen : fs.length ≤ k) (hn : n ≤ 8193 * i) (hu : Ustar d n fs)
    (hfree : ∀ j, i ≤ j → j < 12 → load32 m (L.fsExists j) = 0) :
    ∃ m', filesystemInitLoop L d k i n m = some m' ∧
      (∀ j (h : j < fs.length), Unpacked L m' (i + j) fs[j]) ∧
      (∀ j, i + fs.length ≤ j → j < 12 → load32 m' (L.fsExists j) = 0) ∧
      ∀ j < i, ∀ x, L.InFsFile j x → m' x = m x := by
  induction fs generalizing k i n m with
  | nil =>
    cases k with
    | zero => exact ⟨m, rfl, fun j h => absurd h (by simp), hfree, fun _ _ _ _ => rfl⟩
    | succ k =>
      by_cases hlt : n < d.sectors
      · have hzero : virtioRead d m L.buffer n L.buffer = 0 := by
          have := virtioRead_inside (m := m) (x := L.buffer) (j := 0) ⟨hlt, hread _⟩ (by omega)
            (by omega)
          rw [Nat.add_zero] at this
          rw [this]
          exact hu n (le_refl _) hlt 0 (by omega)
        have hturn : filesystemInitTurn L d i n m = some (virtioRead d m L.buffer n, none) := by
          unfold filesystemInitTurn
          rw [if_pos hlt]
          exact if_pos hzero
        refine ⟨virtioRead d m L.buffer n, by rw [filesystemInitLoop, hturn],
          fun j h => absurd h (by simp), ?_, ?_⟩
        · intro j hj hj12
          rw [fsExists_congr (m := m) (fun x hx => buffer_frame hj12 hx)]
          exact hfree j (by simpa using hj) hj12
        · intro j hj x hx
          exact buffer_frame (by omega) hx
      · have hturn : filesystemInitTurn L d i n m = some (m, none) := by
          unfold filesystemInitTurn
          exact if_neg hlt
        exact ⟨m, by rw [filesystemInitLoop, hturn], fun j h => absurd h (by simp), hfree,
          fun _ _ _ _ => rfl⟩
  | cons f fs ih =>
    obtain ⟨hdisk, hhead, hbytes, hrest⟩ := hu
    have hdata := f.data_le
    have hS : f.dataSectors = (f.data.length + 511) / 512 := rfl
    simp only [maxFilesize] at hdata
    rw [List.length_cons] at hlen
    cases k with
    | zero => omega
    | succ k =>
      have hlt : n < d.sectors := by omega
      have hbuf : ∀ j < 512, virtioRead d m L.buffer n (L.buffer + j) = d.byte n j :=
        fun j hj => virtioRead_inside ⟨hlt, hread _⟩ (by omega) hj
      -- the first byte of a name is not NUL
      have hne : virtioRead d m L.buffer n L.buffer ≠ 0 := by
        have h0 := hbuf 0 (by omega)
        rw [Nat.add_zero, hhead.name 0 (by omega)] at h0
        rw [h0]
        have hpos := f.name_pos
        rw [show f.name.getD 0 0 = f.name[0] by simp [show 0 < f.name.length by omega]]
        exact f.name_ne _ (List.getElem_mem _)
      obtain ⟨m1, hrun, hunp, hframe⟩ := unpackFile_spec (L := L) (show i < 12 by omega)
        hread (by omega) hdisk hhead hbytes hbuf
      have hm1 : ∀ j, j < 12 → j ≠ i → ∀ x, L.InFsFile j x → m1 x = m x := by
        intro j hj hji x hx
        rw [hframe x (L.fsFile_apart hji hx)]
        exact buffer_frame hj hx
      have hfree1 : ∀ j, i + 1 ≤ j → j < 12 → load32 m1 (L.fsExists j) = 0 := by
        intro j hj hj12
        rw [fsExists_congr (m := m) (hm1 j hj12 (by omega))]
        exact hfree j (by omega) hj12
      obtain ⟨m', hloop, hall, hunused, hkeep⟩ := ih (k := k) (by omega) (by omega) (by omega)
        hrest hfree1
      have hturn : filesystemInitTurn L d i n m = some (m1, some (n + 1 + f.dataSectors)) := by
        unfold filesystemInitTurn
        rw [if_pos hlt]
        refine (if_neg hne).trans ?_
        rw [hrun]
      refine ⟨m', by rw [filesystemInitLoop, hturn]; exact hloop, ?_, ?_, ?_⟩
      · intro j hj
        cases j with
        | zero => exact hunp.congr (fun x hx => hkeep i (by omega) x hx)
        | succ j =>
          rw [show i + (j + 1) = i + 1 + j by omega]
          exact hall j (by simpa using hj)
      · intro j hj hj12
        rw [List.length_cons] at hj
        exact hunused j (by omega) hj12
      · intro j hj x hx
        rw [hkeep j (by omega) x hx]
        exact hm1 j (by omega) (by omega) x hx

/-- **Unpacking an archive gives its files back**, in order, whatever the
entries held before, as long as none was marked as existing. -/
theorem filesystemInit_unpacks (L : Layout) (d : Disk) (m : Mem) (files : List TarFile)
    (hread : ∀ s, d.failed s = false) (hlen : files.length ≤ maxFsFiles) (hdisk : Ustar d 0 files)
    (hbss : ∀ i < maxFsFiles, load32 m (L.fsExists i) = 0) :
    ∃ m', filesystemInit L d m = some m' ∧
      (∀ i (h : i < files.length), Unpacked L m' i files[i]) ∧
      ∀ i, files.length ≤ i → i < maxFsFiles → load32 m' (L.fsExists i) = 0 := by
  obtain ⟨m', hrun, hall, hunused, -⟩ := filesystemInitLoop_spec (k := 12) (i := 0) (n := 0) hread
    rfl hlen (Nat.zero_le _) hdisk (fun j _ hj => hbss j hj)
  refine ⟨m', hrun, ?_, ?_⟩
  · intro i hi
    have := hall i hi
    rwa [Nat.zero_add] at this
  · intro i hi hi12
    exact hunused i (by omega) hi12

/-- A file `a` with three bytes, and the archive of it, which ends with the disk. -/
def exampleFile : TarFile where
  name := [97]
  data := [1, 2, 3]
  name_pos := by decide
  name_le := by decide
  name_ne := by simp
  data_le := by decide

def exampleArchive : Disk where
  sectors := 2
  byte := fun s j =>
    if s = 0 then
      if j = 0 then 97 else if j = 134 then 51 else if 124 ≤ j ∧ j < 134 then 48 else 0
    else
      exampleFile.data.getD j 0
  failed := fun _ => false

theorem filesystemInit_unpacks_example :
    ∃ m', filesystemInit exampleLayout exampleArchive (fun _ => 0) = some m' ∧
      Unpacked exampleLayout m' 0 exampleFile := by
  have hheader : IsHeader (exampleArchive.byte 0) exampleFile := ⟨by decide, by decide, by decide⟩
  have hdata : ∀ s < exampleFile.dataSectors, ∀ j < 512,
      exampleArchive.byte (0 + 1 + s) j = exampleFile.data.getD (512 * s + j) 0 := by
    intro s hs j _
    have h0 : s = 0 := Nat.lt_one_iff.mp hs
    rw [h0, show 512 * 0 + j = j by omega]
    rfl
  have hend : Ustar exampleArchive (0 + 1 + exampleFile.dataSectors) [] := by
    intro s h1 h2
    exact absurd (lt_of_le_of_lt h1 h2) (by decide)
  obtain ⟨m', hrun, hall, -⟩ := filesystemInit_unpacks exampleLayout exampleArchive (fun _ => 0)
    [exampleFile] (fun _ => rfl) (by decide) ⟨by decide, hheader, hdata, hend⟩ (fun i _ => rfl)
  exact ⟨m', hrun, hall 0 (by decide)⟩

end Risky321.Kernel
