/-
Risky321.Kernel.DiskTheorems — disks that are no archive.

Two ways in which `filesystem_init` does something else than unpack what
the disk holds: §1 a size member that does not fit in a word, which
`oct2int` cuts off; §2 a request the device fails, after which the loops go
on with what is in the buffer. `Disk.Whole` says, in terms of the sectors
alone, which reads such a failure can spoil.
-/
import Risky321.Kernel.UnpackTheorems

namespace Risky321.Kernel

open Risky321.Lib

variable {L : Layout} {d : Disk} {m m' m0 : Mem} {i n c x : Nat}

/-! ## §1 Sizes that do not fit in a word -/

/-- The number that `t` octal digits at `a` denote, most significant first. -/
def octalValue (m : Mem) (a : Nat) : Nat → Nat
  | 0 => 0
  | t + 1 => octalValue m a t * 8 + ((m (a + t)).toNat - 48)

/-- `oct2int` computes in 32 bits. -/
theorem oct2int_eq_octalValue {a t : Nat} (hdigits : ∀ j < t, 48 ≤ (m (a + j)).toNat) :
    oct2int m a t = octalValue m a t % 2 ^ 32 := by
  induction t with
  | zero => rfl
  | succ t ih =>
    have hd := hdigits t (by omega)
    rw [oct2int, octalValue, ih (fun j hj => hdigits j (by omega))]
    omega

theorem octalValue_lt {a t : Nat} (hdigits : ∀ j < t, (m (a + j)).toNat ≤ 55) :
    octalValue m a t < 8 ^ t := by
  induction t with
  | zero => exact Nat.one_pos
  | succ t ih =>
    have hd := hdigits t (by omega)
    have hrest := ih (fun j hj => hdigits j (by omega))
    rw [octalValue, Nat.pow_succ]
    omega

/-- The size `v` in the header of the turn for entry `i` is respected: the file
is entered with that size when it is not too big, and when it is the turn
ends in the panic, and `filesystem_init` with it. -/
def SizeRespected (L : Layout) (d : Disk) (m0 : Mem) (i n : Nat) (m : Mem) (v : Nat) : Prop :=
  (v ≤ maxFilesize → ∃ m' n', filesystemInitTurn L d i n m = some (m', some n') ∧
    load32 m' (L.fsSize i) = v ∧
    ∀ mf, filesystemInit L d m0 = some mf → load32 mf (L.fsSize i) = v) ∧
  (maxFilesize < v →
    (filesystemInitTurnRun L d i n m).2 = .panic ∧ filesystemInitEnd L d m0 = .panic)

/-- A turn with a header goes on or panics as the size that `oct2int` reads says. -/
theorem AtTurn.header (h : AtTurn L d m0 i n m) (hi : i < maxFsFiles) (hn : n < d.sectors)
    (hname : virtioRead d m L.buffer n L.buffer ≠ 0) :
    (headerSize L (virtioRead d m L.buffer n) ≤ maxFilesize →
      ∃ m' n', filesystemInitTurn L d i n m = some (m', some n') ∧
        load32 m' (L.fsSize i) = headerSize L (virtioRead d m L.buffer n)) ∧
    (maxFilesize < headerSize L (virtioRead d m L.buffer n) →
      (filesystemInitTurnRun L d i n m).2 = .panic ∧ filesystemInitEnd L d m0 = .panic) := by
  have hsec := h.inv.sector
  have hrun := h.run.2
  obtain ⟨hout, -⟩ := filesystemInitTurnRun_spec (L := L) (d := d) (m := m) hi
    (show n + 1 + 8192 < 2 ^ 32 by simp only [maxFsFiles] at hi; omega)
  have hturn := filesystemInitTurnRun_toOption L d i n m
  rw [show maxFsFiles - i = (maxFsFiles - (i + 1)) + 1 by omega, filesystemInitRun] at hrun
  generalize filesystemInitTurnRun L d i n m = r at hout hturn hrun
  obtain ⟨w, e⟩ := r
  cases hout with
  | endOfDisk hge => exact absurd hn (not_lt.mpr hge)
  | noName _ h0 => exact absurd h0 hname
  | tooBig _ _ hbig => exact ⟨fun hle => absurd hle (not_le.mpr hbig), fun _ => ⟨rfl, hrun⟩⟩
  | filled _ _ hfits hfilled =>
    exact ⟨fun _ => ⟨_, _, hturn.symm, hfilled.size⟩, fun hbig => absurd hbig (not_lt.mpr hfits)⟩

/-- The size entered in the turn stays to the end. -/
theorem AtTurn.size_kept (h : AtTurn L d m0 i n m) (hi : i < maxFsFiles) {n' : Nat} {mf : Mem}
    (hturn : filesystemInitTurn L d i n m = some (m', some n'))
    (hret : filesystemInit L d m0 = some mf) :
    load32 mf (L.fsSize i) = headerSize L (virtioRead d m L.buffer n) := by
  obtain ⟨count, hle, htable⟩ := (h.next hi hturn).table hret
  obtain ⟨n1, m1, hat1, -, -, -, hf⟩ := htable.filled i hle
  obtain ⟨rfl, rfl⟩ := h.unique hat1
  exact hf.size

/-- **Oversized members are refused** except those whose size wraps around to a
small one: eleven octal digits have 33 bits, and `oct2int` keeps 32. -/
theorem oversized_refused_iff (L : Layout) (d : Disk) (m0 : Mem) (i n : Nat) (m : Mem)
    (hat : AtTurn L d m0 i n m) (hi : i < maxFsFiles) (hn : n < d.sectors)
    (hname : virtioRead d m L.buffer n L.buffer ≠ 0)
    (hdigits : ∀ j < 11, 48 ≤ (virtioRead d m L.buffer n (L.buffer + tarSize + j)).toNat ∧
      (virtioRead d m L.buffer n (L.buffer + tarSize + j)).toNat ≤ 55) :
    SizeRespected L d m0 i n m
        (octalValue (virtioRead d m L.buffer n) (L.buffer + tarSize) 11) ↔
      ¬ (2 ^ 32 ≤ octalValue (virtioRead d m L.buffer n) (L.buffer + tarSize) 11 ∧
        octalValue (virtioRead d m L.buffer n) (L.buffer + tarSize) 11 ≤ 2 ^ 32 + maxFilesize) := by
  obtain ⟨hfits, hbig⟩ := hat.header hi hn hname
  have hwrap : headerSize L (virtioRead d m L.buffer n) =
      octalValue (virtioRead d m L.buffer n) (L.buffer + tarSize) 11 % 2 ^ 32 :=
    oct2int_eq_octalValue (fun j hj => (hdigits j hj).1)
  have hlt := octalValue_lt (fun j hj => (hdigits j hj).2)
  rw [hwrap] at hfits hbig
  generalize octalValue (virtioRead d m L.buffer n) (L.buffer + tarSize) 11 = v at *
  have hpow : (8 : Nat) ^ 11 = 2 * 2 ^ 32 := by norm_num
  rw [hpow] at hlt
  simp only [SizeRespected, maxFilesize] at *
  constructor
  · -- a wrapped size fits, so the turn goes on
    intro hresp hv
    obtain ⟨m', n', hturn, -⟩ := hfits (by omega)
    rw [← filesystemInitTurnRun_toOption, (hresp.2 (by omega)).1] at hturn
    cases hturn
  · intro hv
    refine ⟨fun hle => ?_, fun hgt => hbig (by omega)⟩
    have hmod : v % 2 ^ 32 = v := Nat.mod_eq_of_lt (by omega)
    obtain ⟨m', n', hturn, hsize⟩ := hfits (by omega)
    rw [hmod] at hsize hwrap
    exact ⟨m', n', hturn, hsize, fun mf hret => (hat.size_kept hi hturn hret).trans hwrap⟩

/-- A header that was read, as the bytes of its sector. -/
theorem virtioRead_size (hr : d.Readable n) (h32 : n < 2 ^ 32) {j : Nat} (hj : j < 11) :
    virtioRead d m L.buffer n (L.buffer + tarSize + j) = d.byte n (tarSize + j) := by
  rw [Nat.add_assoc]
  exact virtioRead_inside hr h32 (by simp only [tarSize]; omega)

theorem virtioRead_name (hr : d.Readable n) (h32 : n < 2 ^ 32) :
    virtioRead d m L.buffer n L.buffer = d.byte n 0 := by
  have h0 := virtioRead_inside (m := m) (x := L.buffer) (j := 0) hr h32 (by norm_num)
  rwa [Nat.add_zero] at h0

theorem headerSize_read (hr : d.Readable n) (h32 : n < 2 ^ 32) :
    headerSize L (virtioRead d m L.buffer n) = oct2int (d.byte n) tarSize 11 :=
  oct2int_congr fun _ hj => virtioRead_size hr h32 hj

/-- The archive of a file `a` of 2^32 + 1 bytes, `40000000001` in octal, of
which the disk has the first sector. -/
def oversizedArchive : Disk where
  sectors := 2
  byte := fun s j =>
    if s = 0 then
      if j = 0 then 97 else if j = 124 then 52 else if j = 134 then 49
      else if 124 ≤ j ∧ j < 134 then 48 else 0
    else
      1
  failed := fun _ => false

theorem octalValue_congr {a b t : Nat} (hm : ∀ j < t, m (a + j) = m' (b + j)) :
    octalValue m a t = octalValue m' b t := by
  induction t with
  | zero => rfl
  | succ t ih => rw [octalValue, octalValue, ih (fun j hj => hm j (by omega)), hm t (by omega)]

theorem octalValue_read (hr : d.Readable n) (h32 : n < 2 ^ 32) :
    octalValue (virtioRead d m L.buffer n) (L.buffer + tarSize) 11 =
      octalValue (d.byte n) tarSize 11 :=
  octalValue_congr fun _ hj => virtioRead_size hr h32 hj

/-- The file of more than 4 GiB is taken for one of a single byte. -/
theorem oversized_accepted :
    octalValue (virtioRead oversizedArchive (fun _ => 0) exampleLayout.buffer 0)
        (exampleLayout.buffer + tarSize) 11 = 2 ^ 32 + 1 ∧
      (∃ m' n', filesystemInitTurn exampleLayout oversizedArchive 0 0 (fun _ => 0) =
          some (m', some n') ∧ load32 m' (exampleLayout.fsSize 0) = 1) ∧
      ¬ SizeRespected exampleLayout oversizedArchive (fun _ => 0) 0 0 (fun _ => 0) (2 ^ 32 + 1) := by
  have hat : AtTurn exampleLayout oversizedArchive (fun _ => 0) 0 0 (fun _ => 0) := .start
  have hr : oversizedArchive.Readable 0 := ⟨by decide, rfl⟩
  have hsize : headerSize exampleLayout
      (virtioRead oversizedArchive (fun _ => 0) exampleLayout.buffer 0) = 1 := by
    rw [headerSize_read hr (by norm_num)]
    decide
  obtain ⟨hfits, -⟩ := hat.header (by decide) (by decide)
    (by rw [virtioRead_name hr (by norm_num)]; decide)
  rw [hsize] at hfits
  obtain ⟨m', n', hturn, h1⟩ := hfits (by norm_num)
  refine ⟨?_, ⟨m', n', hturn, h1⟩, fun hresp => ?_⟩
  · rw [octalValue_read hr (by norm_num)]
    decide
  · rw [← filesystemInitTurnRun_toOption, (hresp.2 (by norm_num)).1] at hturn
    cases hturn

/-- The archive of a file `a` of 5 MiB, `00024000000` in octal. -/
def largeArchive : Disk where
  sectors := 10241
  byte := fun s j =>
    if s = 0 then
      if j = 0 then 97 else if j = 127 then 50 else if j = 128 then 52
      else if 124 ≤ j ∧ j < 135 then 48 else 0
    else
      1
  failed := fun _ => false

/-- The file of three bytes is entered, the one of 5 MiB is refused. -/
theorem oversized_refused_small :
    SizeRespected exampleLayout exampleArchive (fun _ => 0) 0 0 (fun _ => 0) 3 ∧
      SizeRespected exampleLayout largeArchive (fun _ => 0) 0 0 (fun _ => 0) 5242880 ∧
      filesystemInitEnd exampleLayout largeArchive (fun _ => 0) = .panic := by
  have hsmall : exampleArchive.Readable 0 := ⟨by decide, rfl⟩
  have hlarge : largeArchive.Readable 0 := ⟨by decide, rfl⟩
  have hdigits1 : ∀ j < 11, 48 ≤ (exampleArchive.byte 0 (tarSize + j)).toNat ∧
      (exampleArchive.byte 0 (tarSize + j)).toNat ≤ 55 := by decide
  have hdigits2 : ∀ j < 11, 48 ≤ (largeArchive.byte 0 (tarSize + j)).toNat ∧
      (largeArchive.byte 0 (tarSize + j)).toNat ≤ 55 := by decide
  have hiff1 := oversized_refused_iff exampleLayout exampleArchive (fun _ => 0) 0 0 (fun _ => 0)
    .start (by decide) (by decide) (by rw [virtioRead_name hsmall (by norm_num)]; decide)
    (fun j hj => by rw [virtioRead_size hsmall (by norm_num) hj]; exact hdigits1 j hj)
  have hiff2 := oversized_refused_iff exampleLayout largeArchive (fun _ => 0) 0 0 (fun _ => 0)
    .start (by decide) (by decide) (by rw [virtioRead_name hlarge (by norm_num)]; decide)
    (fun j hj => by rw [virtioRead_size hlarge (by norm_num) hj]; exact hdigits2 j hj)
  rw [octalValue_read hsmall (by norm_num), show octalValue (exampleArchive.byte 0) tarSize 11 = 3
    by decide] at hiff1
  rw [octalValue_read hlarge (by norm_num), show octalValue (largeArchive.byte 0) tarSize 11 =
    5242880 by decide] at hiff2
  have hresp := hiff2.mpr (by norm_num)
  exact ⟨hiff1.mpr (by norm_num), hresp, (hresp.2 (by norm_num)).2⟩

/-! ## §2 Reads that fail -/

/-- Entry `i` was read from the disk: its header from sector `n`, its data from
the sectors behind it, all of them readable. -/
structure ReadFromDisk (L : Layout) (d : Disk) (m' : Mem) (i n : Nat) : Prop where
  header : d.Readable n
  name : ∀ j < 100, m' (L.fsName i + j) = d.byte n j
  size : load32 m' (L.fsSize i) = oct2int (d.byte n) tarSize 11
  data : ∀ j < load32 m' (L.fsSize i), d.Readable (n + 1 + j / 512) ∧
    m' (L.fsData i + j) = d.byte (n + 1 + j / 512) (j % 512)

/-- The size in the header that sector `n` holds. -/
def Disk.size (d : Disk) (n : Nat) : Nat := oct2int (d.byte n) tarSize 11

/-- With a header due in sector `n` and `left` entries free, the archive can be
read to its end: the header, the data behind it if it has a name, and then the
rest. Past the last sector, or behind a header without a name, it has ended. -/
def Disk.Whole (d : Disk) : Nat → Nat → Prop
  | 0, _ => True
  | left + 1, n => n < d.sectors → d.failed n = false ∧
      (d.byte n 0 ≠ 0 → (∀ s < sectorsOf (d.size n), d.Readable (n + 1 + s)) ∧
        d.Whole left (n + 1 + sectorsOf (d.size n)))

instance Disk.decidableWhole (d : Disk) : ∀ left n, Decidable (d.Whole left n)
  | 0, _ => .isTrue trivial
  | left + 1, n =>
    have := decidableWhole d left (n + 1 + sectorsOf (d.size n))
    inferInstanceAs (Decidable (_ → _))

/-- A turn that goes on has found a name, which stays in the buffer, and asked
for the data behind it. -/
theorem AtTurn.next_sector (h : AtTurn L d m0 i n m) (hi : i < maxFsFiles) {n' : Nat}
    (hturn : filesystemInitTurn L d i n m = some (m', some n')) :
    n < d.sectors ∧ n' = n + 1 + sectorsOf (headerSize L (virtioRead d m L.buffer n)) ∧
      virtioRead d m L.buffer n L.buffer ≠ 0 ∧ m' L.buffer ≠ 0 := by
  have hsec := h.inv.sector
  obtain ⟨hout, -⟩ := filesystemInitTurnRun_spec (L := L) (d := d) (m := m) hi
    (show n + 1 + 8192 < 2 ^ 32 by simp only [maxFsFiles] at hi; omega)
  rw [← filesystemInitTurnRun_toOption] at hturn
  generalize (filesystemInitTurnRun L d i n m).2 = r at hout hturn
  cases hout with
  | endOfDisk => cases hturn
  | noName => cases hturn
  | tooBig => cases hturn
  | filled hlt hname _ _ hframe =>
    cases hturn
    have hap := L.buffer_apart hi
    refine ⟨hlt, rfl, hname, ?_⟩
    rwa [hframe L.buffer (by simp only [Layout.InFsFile, sizeofFilesystemFile] at hap ⊢; omega)]

/-- From the second turn on the buffer holds a name, read or not. -/
theorem AtTurn.buffer_name (h : AtTurn L d m0 i n m) (hi : i ≠ 0) : m L.buffer ≠ 0 := by
  cases h with
  | start => exact absurd rfl hi
  | next hat hlt hturn => exact (hat.next_sector hlt hturn).2.2.2

theorem AtTurn.sector_lt (h : AtTurn L d m0 i n m) (hi : i < maxFsFiles) : n < 2 ^ 32 := by
  have hsec := h.inv.sector
  simp only [maxFsFiles] at hi
  omega

/-- A turn with a name in the buffer enters a file, if the kernel does not panic. -/
theorem AtTurn.entered {mf : Mem} (h : AtTurn L d m0 i n m) (hi : i < maxFsFiles)
    (hn : n < d.sectors) (hname : virtioRead d m L.buffer n L.buffer ≠ 0) (hbss : BssZero L m0)
    (hret : filesystemInit L d m0 = some mf) :
    load32 mf (L.fsExists i) ≠ 0 ∧
      load32 mf (L.fsSize i) = headerSize L (virtioRead d m L.buffer n) ∧
      ∃ m', AtTurn L d m0 (i + 1)
        (n + 1 + sectorsOf (headerSize L (virtioRead d m L.buffer n))) m' := by
  obtain ⟨hfits, hbig⟩ := h.header hi hn hname
  have hle : headerSize L (virtioRead d m L.buffer n) ≤ maxFilesize := by
    by_contra hgt
    rw [← filesystemInit_toOption, (hbig (not_le.mp hgt)).2] at hret
    cases hret
  obtain ⟨m2, n2, hturn, -⟩ := hfits hle
  obtain ⟨-, rfl, -⟩ := h.next_sector hi hturn
  obtain ⟨count, hcount, htable⟩ := (h.next hi hturn).table hret
  exact ⟨(htable.exists_iff hbss hi).mpr hcount, h.size_kept hi hturn hret, m2, h.next hi hturn⟩

/-- A request that fails leaves the buffer as it is. -/
theorem virtioRead_failed {buf : Nat} (hf : d.failed n = true) (h32 : n < 2 ^ 32) :
    virtioRead d m buf n = m := by
  unfold virtioRead
  rw [Nat.mod_eq_of_lt h32]
  exact if_pos (.inr hf)

/-- When every file was read from the disk, the archive is whole from any turn on,
the first one apart. -/
theorem AtTurn.whole {mf : Mem} {left : Nat} (h : AtTurn L d m0 i n m)
    (hleft : i + left = maxFsFiles) (hfirst : i = 0 → d.failed n = false) (hbss : BssZero L m0)
    (hret : filesystemInit L d m0 = some mf)
    (hall : ∀ i < maxFsFiles, load32 mf (L.fsExists i) ≠ 0 →
      ∃ n m1, AtTurn L d m0 i n m1 ∧ ReadFromDisk L d mf i n) : d.Whole left n := by
  induction left generalizing i n m with
  | zero => trivial
  | succ left ih =>
    intro hn
    have hi : i < maxFsFiles := by omega
    have h32 := h.sector_lt hi
    -- what a turn with a name in the buffer enters was read
    have hread : virtioRead d m L.buffer n L.buffer ≠ 0 → ReadFromDisk L d mf i n := by
      intro hname
      obtain ⟨n1, m1, hat, hread⟩ := hall i hi (h.entered hi hn hname hbss hret).1
      obtain ⟨rfl, rfl⟩ := h.unique hat
      exact hread
    have hfail : d.failed n = false := by
      by_contra hf
      rw [Bool.not_eq_false] at hf
      by_cases h0 : i = 0
      · exact absurd (hfirst h0) (by rw [hf]; decide)
      · have hname := h.buffer_name h0
        have hsame : virtioRead d m L.buffer n = m := virtioRead_failed hf h32
        rw [← hsame] at hname
        exact absurd (hread hname).header.2 (by rw [hf]; decide)
    have hr : d.Readable n := ⟨hn, hfail⟩
    refine ⟨hfail, fun hname => ?_⟩
    rw [← virtioRead_name (L := L) (m := m) hr h32] at hname
    obtain ⟨-, -, m2, hnext⟩ := h.entered hi hn hname hbss hret
    rw [headerSize_read hr h32] at hnext
    refine ⟨fun s hs => ?_, ih hnext (by omega) nofun⟩
    have hr' := hread hname
    have hj : 512 * s < load32 mf (L.fsSize i) := by
      rw [hr'.size]
      simp only [sectorsOf, Disk.size] at hs
      omega
    simpa using (hr'.data (512 * s) hj).1

/-- The loop walks along a whole archive. -/
theorem AtTurn.whole_rest (h : AtTurn L d m0 i n m) (hw : d.Whole maxFsFiles 0) :
    d.Whole (maxFsFiles - i) n := by
  induction h with
  | start => exact hw
  | @next i n n' m m' hat hi hturn ih =>
    obtain ⟨hn, rfl, hname, -⟩ := hat.next_sector hi hturn
    rw [show maxFsFiles - i = maxFsFiles - (i + 1) + 1 by omega] at ih
    obtain ⟨hfail, hrest⟩ := ih hn
    have h32 := hat.sector_lt hi
    rw [virtioRead_name ⟨hn, hfail⟩ h32] at hname
    rw [headerSize_read ⟨hn, hfail⟩ h32]
    exact (hrest hname).2

/-- Nothing is entered when the first request fails: the buffer is still empty. -/
theorem AtTurn.firstFailed (h : AtTurn L d m0 i n m) (hi : i < maxFsFiles) (hbss : BssZero L m0)
    (hf : d.failed 0 = true) : virtioRead d m L.buffer n L.buffer = 0 := by
  induction h with
  | start =>
    rw [virtioRead_failed hf (by norm_num)]
    exact hbss.2 L.buffer le_rfl (by omega)
  | next hat hlt hturn ih => exact absurd (ih hlt) (hat.next_sector hlt hturn).2.2.1

/-- **Only data that was read becomes a file** if and only if the archive is
whole or its first sector cannot be read. -/
theorem files_read_iff (L : Layout) (d : Disk) (m m' : Mem) (hbss : BssZero L m)
    (hret : filesystemInit L d m = some m') :
    (∀ i < maxFsFiles, load32 m' (L.fsExists i) ≠ 0 →
        ∃ n m1, AtTurn L d m i n m1 ∧ ReadFromDisk L d m' i n) ↔
      d.failed 0 = true ∨ d.Whole maxFsFiles 0 := by
  constructor
  · intro hall
    by_cases hf : d.failed 0 = true
    · exact .inl hf
    · exact .inr (AtTurn.start.whole (Nat.zero_add _) (fun _ => Bool.eq_false_iff.mpr hf) hbss hret
        hall)
  · intro hcond i hi hex
    obtain ⟨count, -, htable⟩ := (AtTurn.start : AtTurn L d m 0 0 m).table hret
    obtain ⟨n, m1, hat, hn, hname, hz, hf⟩ := htable.filled i ((htable.exists_iff hbss hi).mp hex)
    have h32 := hat.sector_lt hi
    obtain hfirst | hwhole := hcond
    · exact absurd (hat.firstFailed hi hbss hfirst) hname
    have hrest := hat.whole_rest hwhole
    rw [show maxFsFiles - i = maxFsFiles - (i + 1) + 1 by omega] at hrest
    obtain ⟨hfail, hdata⟩ := hrest hn
    have hr : d.Readable n := ⟨hn, hfail⟩
    rw [virtioRead_name hr h32] at hname
    have hsize : load32 m' (L.fsSize i) = d.size n := by
      rw [hf.size, headerSize_read hr h32, Disk.size]
    refine ⟨n, m1, hat, hr, ?_, hsize, ?_⟩
    · intro j hj
      rw [hf.name j hj]
      exact virtioRead_inside hr h32 (by omega)
    · intro j hj
      have hsec : j / 512 < sectorsOf (d.size n) := by
        rw [hsize] at hj
        rw [sectorsOf]
        omega
      have hrj := (hdata hname).1 (j / 512) hsec
      refine ⟨hrj, ?_⟩
      rw [hf.data j (by rw [headerSize_read hr h32]; simp only [Disk.size] at hsec; omega),
        if_pos hrj]

/-- A disk that ends with the data of its first file, or before. -/
theorem AtTurn.single (h : AtTurn L d m0 i n m)
    (hend : d.sectors ≤ 1 + sectorsOf (headerSize L (virtioRead d m0 L.buffer 0)))
    (hn : n < d.sectors) : i = 0 := by
  induction h with
  | start => rfl
  | @next i n n' m m' hat hi hturn ih =>
    obtain ⟨hlt, hn', -⟩ := hat.next_sector hi hturn
    obtain rfl := ih hlt
    obtain ⟨rfl, rfl⟩ := AtTurn.start.unique hat
    omega

/-- Such a disk is unpacked without a panic. -/
theorem singleFile_returns (hpos : 0 < d.sectors)
    (hname : virtioRead d m0 L.buffer 0 L.buffer ≠ 0)
    (hz : headerSize L (virtioRead d m0 L.buffer 0) ≤ maxFilesize)
    (hend : d.sectors ≤ 1 + sectorsOf (headerSize L (virtioRead d m0 L.buffer 0))) :
    ∃ m', filesystemInit L d m0 = some m' ∧ TableOf L d m0 1 m' ∧
      load32 m' (L.fsExists 0) = 1 ∧
      load32 m' (L.fsSize 0) = headerSize L (virtioRead d m0 L.buffer 0) := by
  have hat : AtTurn L d m0 0 0 m0 := .start
  obtain ⟨hfits, -⟩ := hat.header (by decide) hpos hname
  obtain ⟨m1, n1, hturn, -⟩ := hfits hz
  have hpanic : filesystemInitEnd L d m0 ≠ .panic := by
    intro h
    obtain ⟨j, n, m, hatj, hlt, hbig⟩ := (hat.loopEnd (Nat.zero_add maxFsFiles)).panicked h
    obtain rfl := hatj.single hend hlt
    obtain ⟨rfl, rfl⟩ := hat.unique hatj
    exact absurd hz (not_le.mpr hbig)
  obtain ⟨m', hret⟩ := filesystemInit_returns hpanic
  obtain ⟨count, hcount, htable⟩ := (hat.next (by decide) hturn).table hret
  obtain ⟨n2, m2, -, -, -, -, hf⟩ := htable.filled 0 hcount
  have hone : count = 1 := by
    by_contra hne
    obtain ⟨n3, m3, hat3, hlt3, -⟩ := htable.filled 1 (by omega)
    exact absurd (hat3.single hend hlt3) (by decide)
  subst hone
  exact ⟨m', hret, htable, hf.file_exists, hat.size_kept (by decide) hturn hret⟩

/-- The file of three bytes with its data cut off: the disk ends behind the header. -/
def truncatedArchive : Disk := { exampleArchive with sectors := 1 }

theorem exampleArchive_header (hread : d.Readable 0) (hbyte : d.byte 0 = exampleArchive.byte 0) :
    virtioRead d m exampleLayout.buffer 0 exampleLayout.buffer ≠ 0 ∧
      headerSize exampleLayout (virtioRead d m exampleLayout.buffer 0) = 3 := by
  rw [virtioRead_name hread (by norm_num), headerSize_read hread (by norm_num), hbyte]
  decide

/-- The file is entered as if its three bytes had been read. -/
theorem truncated_file_exists :
    ∃ m', filesystemInit exampleLayout truncatedArchive (fun _ => 0) = some m' ∧
      load32 m' (exampleLayout.fsExists 0) = 1 ∧ load32 m' (exampleLayout.fsSize 0) = 3 ∧
      ¬ ∃ n m1, AtTurn exampleLayout truncatedArchive (fun _ => 0) 0 n m1 ∧
        ReadFromDisk exampleLayout truncatedArchive m' 0 n := by
  obtain ⟨hname, hsize⟩ := exampleArchive_header (d := truncatedArchive) (m := fun _ => 0)
    ⟨by decide, rfl⟩ rfl
  obtain ⟨m', hret, -, hex, hsz⟩ := singleFile_returns (L := exampleLayout) (d := truncatedArchive)
    (by decide) hname (by rw [hsize]; norm_num) (by rw [hsize]; decide)
  rw [hsize] at hsz
  refine ⟨m', hret, hex, hsz, ?_⟩
  rintro ⟨n, m1, hat, hread⟩
  obtain ⟨rfl, rfl⟩ := AtTurn.start.unique hat
  have h1 := (hread.data 0 (by rw [hsz]; norm_num)).1.1
  exact absurd h1 (by decide)

/-- The whole file is read. -/
theorem files_read_example :
    ∃ m', filesystemInit exampleLayout exampleArchive (fun _ => 0) = some m' ∧
      load32 m' (exampleLayout.fsExists 0) = 1 ∧
      ∃ n m1, AtTurn exampleLayout exampleArchive (fun _ => 0) 0 n m1 ∧
        ReadFromDisk exampleLayout exampleArchive m' 0 n := by
  obtain ⟨hname, hsize⟩ := exampleArchive_header (d := exampleArchive) (m := fun _ => 0)
    ⟨by decide, rfl⟩ rfl
  have hend : exampleArchive.sectors ≤ 1 + sectorsOf (headerSize exampleLayout
      (virtioRead exampleArchive (fun _ => 0) exampleLayout.buffer 0)) := by
    rw [hsize]
    decide
  obtain ⟨m', hret, -, hex, -⟩ := singleFile_returns (L := exampleLayout) (d := exampleArchive)
    (by decide) hname (by rw [hsize]; norm_num) hend
  have hiff := files_read_iff exampleLayout exampleArchive (fun _ => 0) m'
    ⟨fun _ _ _ => rfl, fun _ _ _ => rfl⟩ hret
  exact ⟨m', hret, hex, hiff.mpr (.inr (by decide)) 0 (by decide) (by rw [hex]; decide)⟩

end Risky321.Kernel
