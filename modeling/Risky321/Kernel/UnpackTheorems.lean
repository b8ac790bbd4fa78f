/-
Risky321.Kernel.UnpackTheorems — `filesystem_init` on any disk.

`FilesystemInitTheorems` is about archives. Here the disk is arbitrary:
its sectors need not be headers, their size members need not be digits,
and the device may fail to read some of them. §1 writes the two loops once
more with a record of the requests they make and with the three ways they
can end told apart, §2 says what one turn of the outer loop does with
whatever is in `buffer`, §3 what all turns so far have left in the table.
-/
import Risky321.Kernel.FilesystemInitTheorems

namespace Risky321.Kernel

open Risky321.Lib

variable {L : Layout} {d : Disk} {m m' m0 : Mem} {i n c x : Nat}

/-! ## §1 Requests and endings -/

/-- How a loop ends: its fuel is used up, the kernel panics, or it returns. -/
inductive Ending (α : Type)
  | unfinished
  | panic
  | returned (a : α)

def Ending.toOption {α : Type} : Ending α → Option α
  | .returned a => some a
  | _ => none

/-- `copyFileData`, with the addresses it has sectors read to. -/
def copyFileDataRun (d : Disk) (data size : Nat) :
    Nat → Nat → Nat → Mem → List Nat × Ending (Nat × Mem)
  | 0, _, _, _ => ([], .unfinished)
  | fuel + 1, copiedSectors, currentSector, m =>
    if copiedSectors * sectorSize < load32 m size then
      let m := virtioRead d m (data + copiedSectors * sectorSize) currentSector
      if copiedSectors + 1 = maxFilesize / sectorSize ∧
          (copiedSectors + 1) * sectorSize < load32 m size then
        ([data + copiedSectors * sectorSize], .panic)
      else
        let r := copyFileDataRun d data size fuel (copiedSectors + 1) (currentSector + 1) m
        ((data + copiedSectors * sectorSize) :: r.1, r.2)
    else
      ([], .returned (currentSector, m))

/-- `filesystemInitTurn`, with the addresses it has sectors read to. -/
def filesystemInitTurnRun (L : Layout) (d : Disk) (i currentSector : Nat) (m : Mem) :
    List Nat × Ending (Mem × Option Nat) :=
  if currentSector < d.sectors then
    let m := virtioRead d m L.buffer currentSector
    if m L.buffer = 0 then
      ([L.buffer], .returned (m, none))
    else
      let r := copyFileDataRun d (L.fsData i) (L.fsSize i) (maxFilesize / sectorSize + 1) 0
        (currentSector + 1) (enterFile L m i)
      match r.2 with
      | .unfinished => (L.buffer :: r.1, .unfinished)
      | .panic => (L.buffer :: r.1, .panic)
      | .returned (currentSector, m) => (L.buffer :: r.1, .returned (m, some currentSector))
  else
    ([], .returned (m, none))

/-- `filesystemInitLoop`, with the addresses it has sectors read to. -/
def filesystemInitRun (L : Layout) (d : Disk) : Nat → Nat → Nat → Mem → List Nat × Ending Mem
  | 0, _, _, m => ([], .returned m)
  | left + 1, i, currentSector, m =>
    let r := filesystemInitTurnRun L d i currentSector m
    match r.2 with
    | .unfinished => (r.1, .unfinished)
    | .panic => (r.1, .panic)
    | .returned (m, none) => (r.1, .returned m)
    | .returned (m, some currentSector) =>
      let r' := filesystemInitRun L d left (i + 1) currentSector m
      (r.1 ++ r'.1, r'.2)

/-- How `filesystem_init` ends. -/
def filesystemInitEnd (L : Layout) (d : Disk) (m : Mem) : Ending Mem :=
  (filesystemInitRun L d maxFsFiles 0 0 m).2

theorem copyFileDataRun_toOption (d : Disk) (data size fuel c n : Nat) (m : Mem) :
    (copyFileDataRun d data size fuel c n m).2.toOption = copyFileData d data size fuel c n m := by
  induction fuel generalizing c n m with
  | zero => rfl
  | succ fuel ih =>
    rw [copyFileDataRun, copyFileData]
    by_cases hlt : c * sectorSize < load32 m size
    · rw [if_pos hlt, if_pos hlt]
      by_cases hbig : c + 1 = maxFilesize / sectorSize ∧ (c + 1) * sectorSize <
          load32 (virtioRead d m (data + c * sectorSize) n) size
      · simp only [if_pos hbig, Ending.toOption]
      · simp only [if_neg hbig]
        exact ih _ _ _
    · rw [if_neg hlt, if_neg hlt]
      rfl

theorem filesystemInitTurnRun_toOption (L : Layout) (d : Disk) (i n : Nat) (m : Mem) :
    (filesystemInitTurnRun L d i n m).2.toOption = filesystemInitTurn L d i n m := by
  unfold filesystemInitTurnRun filesystemInitTurn
  by_cases hlt : n < d.sectors
  · rw [if_pos hlt, if_pos hlt]
    by_cases h0 : virtioRead d m L.buffer n L.buffer = 0
    · simp only [if_pos h0, Ending.toOption]
    · simp only [if_neg h0, ← copyFileDataRun_toOption]
      cases (copyFileDataRun d (L.fsData i) (L.fsSize i) (maxFilesize / sectorSize + 1) 0 (n + 1)
        (enterFile L (virtioRead d m L.buffer n) i)).2 <;> rfl
  · rw [if_neg hlt, if_neg hlt]
    rfl

theorem filesystemInitRun_toOption (L : Layout) (d : Disk) (left i n : Nat) (m : Mem) :
    (filesystemInitRun L d left i n m).2.toOption = filesystemInitLoop L d left i n m := by
  induction left generalizing i n m with
  | zero => rfl
  | succ left ih =>
    rw [filesystemInitRun, filesystemInitLoop, ← filesystemInitTurnRun_toOption]
    cases (filesystemInitTurnRun L d i n m).2 with
    | unfinished => rfl
    | panic => rfl
    | returned r =>
      obtain ⟨m1, next⟩ := r
      cases next with
      | none => rfl
      | some n1 => exact ih _ _ _

/-! ## §2 One turn -/

/-- The sectors that a file of this size takes. -/
def sectorsOf (size : Nat) : Nat := (size + 511) / 512

/-- The bytes from `data` on after the sectors `n`, `n + 1`, … have been asked
for: those of the sectors that can be read, elsewhere what was there. -/
structure Transferred (d : Disk) (n data lo hi : Nat) (m m' : Mem) : Prop where
  inside : ∀ j, lo ≤ j → j < hi →
    m' (data + j) =
      if d.Readable (n + j / 512) then d.byte (n + j / 512) (j % 512) else m (data + j)
  outside : ∀ x, x < data + lo ∨ data + hi ≤ x → m' x = m x

theorem virtioRead_transferred {data : Nat} (h32 : n + c < 2 ^ 32) :
    Transferred d n data (512 * c) (512 * (c + 1)) m (virtioRead d m (data + c * 512) (n + c)) where
  inside := by
    intro j h1 h2
    have hsec : n + j / 512 = n + c := by omega
    rw [hsec]
    by_cases hr : d.Readable (n + c)
    · have hin := virtioRead_inside (m := m) (x := data + c * 512) (j := j % 512) hr h32 (by omega)
      rw [show data + c * 512 + j % 512 = data + j by omega] at hin
      rw [if_pos hr, hin]
    · rw [if_neg hr, virtioRead, Nat.mod_eq_of_lt h32, if_pos]
      rw [Disk.Readable, not_and_or, Bool.not_eq_false] at hr
      exact hr.imp_left not_lt.mp
  outside := fun x hx => virtioRead_outside (by omega)

theorem Transferred.trans {data a b e : Nat} {m1 m2 : Mem} (hab : a ≤ b) (hbe : b ≤ e)
    (h1 : Transferred d n data a b m m1) (h2 : Transferred d n data b e m1 m2) :
    Transferred d n data a e m m2 where
  inside := by
    intro j hj1 hj2
    by_cases hjb : j < b
    · rw [h2.outside _ (by omega), h1.inside j hj1 hjb]
    · rw [h2.inside j (by omega) hj2, h1.outside _ (by omega)]
  outside := by
    intro x hx
    rw [h2.outside x (by omega), h1.outside x (by omega)]

/-- What one run of the inner loop does: it asks for sectors of the `data`
member only, and it panics or returns depending on the size alone. -/
structure CopiedData (d : Disk) (n data c z : Nat) (m : Mem)
    (r : List Nat × Ending (Nat × Mem)) : Prop where
  stores : ∀ a ∈ r.1, ∃ j < maxFilesize / sectorSize, a = data + j * sectorSize
  tooBig : maxFilesize < z → r.2 = .panic
  fits : z ≤ maxFilesize → ∃ m', r.2 = .returned (n + sectorsOf z, m') ∧
    Transferred d n data (512 * c) (512 * sectorsOf z) m m'

/-- The inner loop with `c` sectors of the file done. Its fuel is enough. -/
theorem copyFileDataRun_spec {fuel data size : Nat} (hsz : data + 4194304 ≤ size)
    (hc : c ≤ sectorsOf (load32 m size)) (hc' : c ≤ 8192) (hmax : c = 8192 → load32 m size ≤ maxFilesize)
    (hfuel : 8192 - c < fuel) (h32 : n + 8192 < 2 ^ 32) :
    CopiedData d n data c (load32 m size) m (copyFileDataRun d data size fuel c (n + c) m) := by
  simp only [maxFilesize] at hmax
  induction fuel generalizing c m with
  | zero => omega
  | succ fuel ih =>
    rw [copyFileDataRun]
    simp only [sectorSize]
    by_cases hlt : c * 512 < load32 m size
    · rw [if_pos hlt]
      have hone : Transferred d n data (512 * c) (512 * (c + 1)) m
          (virtioRead d m (data + c * 512) (n + c)) := virtioRead_transferred (by omega)
      -- the sector read ends before the `size` member
      have hsize : load32 (virtioRead d m (data + c * 512) (n + c)) size = load32 m size :=
        load32_congr (fun x _ _ => hone.outside x (by omega))
      have hj : c < maxFilesize / sectorSize := by simp only [maxFilesize, sectorSize]; omega
      rw [hsize]
      by_cases hbig : c + 1 = maxFilesize / 512 ∧ (c + 1) * 512 < load32 m size
      · rw [if_pos hbig]
        simp only [maxFilesize] at hbig
        refine ⟨?_, fun _ => rfl, fun hle => absurd hle (by simp only [maxFilesize]; omega)⟩
        intro a ha
        rw [List.mem_singleton] at ha
        exact ⟨c, hj, ha⟩
      · rw [if_neg hbig]
        simp only [maxFilesize] at hbig
        have hrest := ih (m := virtioRead d m (data + c * 512) (n + c)) (c := c + 1)
          (by rw [hsize, sectorsOf]; omega) (by omega) (by rw [hsize]; omega) (by omega)
        rw [hsize, ← Nat.add_assoc] at hrest
        refine ⟨?_, hrest.tooBig, ?_⟩
        · intro a ha
          rcases List.mem_cons.mp ha with ha | ha
          · exact ⟨c, hj, ha⟩
          · exact hrest.stores a ha
        · intro hle
          obtain ⟨m', hret, htr⟩ := hrest.fits hle
          exact ⟨m', hret, hone.trans (by omega) (by rw [sectorsOf]; omega) htr⟩
    · rw [if_neg hlt]
      simp only [sectorsOf] at hc
      have hceq : c = sectorsOf (load32 m size) := by rw [sectorsOf]; omega
      have hle : load32 m size ≤ maxFilesize := by simp only [maxFilesize]; omega
      refine ⟨fun a ha => absurd ha List.not_mem_nil, fun hgt => absurd hgt (not_lt.mpr hle),
        fun _ => ⟨m, ?_, ?_⟩⟩
      · rw [← hceq]
      · rw [← hceq]
        exact ⟨fun j h1 h2 => absurd h1 (by omega), fun _ _ => rfl⟩

/-- Entry `i` was filled in a turn that asked for sector `n` first and then had
the memory `mh`, with a header in `buffer`. -/
structure Filled (L : Layout) (d : Disk) (i n : Nat) (mh m' : Mem) : Prop where
  file_exists : load32 m' (L.fsExists i) = 1
  name : ∀ j < 100, m' (L.fsName i + j) = mh (L.buffer + j)
  size : load32 m' (L.fsSize i) = headerSize L mh
  data : ∀ j < 512 * sectorsOf (headerSize L mh), m' (L.fsData i + j) =
    if d.Readable (n + 1 + j / 512) then d.byte (n + 1 + j / 512) (j % 512)
    else mh (L.fsData i + j)

/-- What a turn can come to. -/
inductive TurnOutcome (L : Layout) (d : Disk) (i n : Nat) (m : Mem) :
    Ending (Mem × Option Nat) → Prop
  | endOfDisk : d.sectors ≤ n → TurnOutcome L d i n m (.returned (m, none))
  | noName : n < d.sectors → virtioRead d m L.buffer n L.buffer = 0 →
      TurnOutcome L d i n m (.returned (virtioRead d m L.buffer n, none))
  | tooBig : n < d.sectors → virtioRead d m L.buffer n L.buffer ≠ 0 →
      maxFilesize < headerSize L (virtioRead d m L.buffer n) → TurnOutcome L d i n m .panic
  | filled {m' : Mem} : n < d.sectors → virtioRead d m L.buffer n L.buffer ≠ 0 →
      headerSize L (virtioRead d m L.buffer n) ≤ maxFilesize →
      Filled L d i n (virtioRead d m L.buffer n) m' →
      (∀ x, ¬ L.InFsFile i x → m' x = virtioRead d m L.buffer n x) →
      TurnOutcome L d i n m
        (.returned (m', some (n + 1 + sectorsOf (headerSize L (virtioRead d m L.buffer n)))))

theorem sectorsOf_le {z : Nat} (hz : z ≤ maxFilesize) : sectorsOf z ≤ 8192 := by
  simp only [maxFilesize] at hz
  rw [sectorsOf]
  omega

/-- The inner loop on the entry whose header has just been taken over. -/
theorem copiedData_enterFile (hi : i < 12) (hn : n + 1 + 8192 < 2 ^ 32) (mh : Mem) :
    CopiedData d (n + 1) (L.fsData i) 0 (headerSize L mh) (enterFile L mh i)
      (copyFileDataRun d (L.fsData i) (L.fsSize i) (maxFilesize / sectorSize + 1) 0 (n + 1)
        (enterFile L mh i)) := by
  obtain ⟨-, -, hsize, -, -⟩ := enterFile_fields (L := L) (m := mh) hi
  have hsz : L.fsData i + 4194304 ≤ L.fsSize i := by
    unfold Layout.fsSize Layout.fsData
    omega
  have hfuel : 8192 - 0 < maxFilesize / sectorSize + 1 := by norm_num
  have hspec := copyFileDataRun_spec (d := d) (n := n + 1) (c := 0) (m := enterFile L mh i) hsz
    (Nat.zero_le _) (Nat.zero_le _) (fun h => absurd h (by omega)) hfuel hn
  rw [hsize, Nat.add_zero] at hspec
  exact hspec

theorem Transferred.filled (hi : i < 12) {mh : Mem} (hz : headerSize L mh ≤ maxFilesize)
    (h : Transferred d (n + 1) (L.fsData i) (512 * 0) (512 * sectorsOf (headerSize L mh))
      (enterFile L mh i) m') :
    Filled L d i n mh m' ∧ ∀ x, ¬ L.InFsFile i x → m' x = mh x := by
  obtain ⟨hex, hname, hsize, hdata, hframe⟩ := enterFile_fields (L := L) (m := mh) hi
  have hS := sectorsOf_le hz
  have hf : L.fsExists i = L.fsFile i ∧ L.fsName i = L.fsFile i + 4 ∧
      L.fsData i = L.fsFile i + 104 ∧ L.fsSize i = L.fsFile i + 4194408 := ⟨rfl, rfl, rfl, rfl⟩
  refine ⟨⟨?_, ?_, ?_, ?_⟩, ?_⟩
  · rw [← hex]
    exact load32_congr (fun x _ _ => h.outside x (by omega))
  · intro j hj
    rw [h.outside _ (by omega), hname j hj]
  · rw [← hsize]
    exact load32_congr (fun x _ _ => h.outside x (by omega))
  · intro j hj
    rw [h.inside j (by omega) hj, hdata j (by omega)]
  · intro x hx
    rw [← hframe x hx]
    simp only [Layout.InFsFile, sizeofFilesystemFile] at hx
    exact h.outside x (by omega)

/-- The addresses a request of `filesystem_init` may name. -/
def Layout.IsTarget (L : Layout) (a : Nat) : Prop :=
  a = L.buffer ∨
    ∃ i < maxFsFiles, ∃ j < maxFilesize / sectorSize, a = L.fsData i + j * sectorSize

theorem filesystemInitTurnRun_spec (hi : i < 12) (hn : n + 1 + 8192 < 2 ^ 32) :
    TurnOutcome L d i n m (filesystemInitTurnRun L d i n m).2 ∧
      ∀ a ∈ (filesystemInitTurnRun L d i n m).1, L.IsTarget a := by
  unfold filesystemInitTurnRun
  by_cases hlt : n < d.sectors
  · rw [if_pos hlt]
    by_cases h0 : virtioRead d m L.buffer n L.buffer = 0
    · simp only [if_pos h0]
      refine ⟨.noName hlt h0, fun a ha => ?_⟩
      exact .inl (List.mem_singleton.mp ha)
    · have hdone := copiedData_enterFile (L := L) (d := d) hi hn (virtioRead d m L.buffer n)
      simp only [if_neg h0]
      generalize copyFileDataRun d (L.fsData i) (L.fsSize i) (maxFilesize / sectorSize + 1) 0
        (n + 1) (enterFile L (virtioRead d m L.buffer n) i) = r at hdone ⊢
      have htarget : ∀ a ∈ L.buffer :: r.1, L.IsTarget a := by
        intro a ha
        rcases List.mem_cons.mp ha with ha | ha
        · exact .inl ha
        · exact .inr ⟨i, hi, hdone.stores a ha⟩
      rcases Nat.lt_or_ge maxFilesize (headerSize L (virtioRead d m L.buffer n)) with hbig | hfits
      · simp only [hdone.tooBig hbig]
        exact ⟨.tooBig hlt h0 hbig, htarget⟩
      · obtain ⟨m', hret, htr⟩ := hdone.fits hfits
        obtain ⟨hfilled, hframe⟩ := htr.filled hi hfits
        simp only [hret]
        exact ⟨.filled hlt h0 hfits hfilled hframe, htarget⟩
  · rw [if_neg hlt]
    exact ⟨.endOfDisk (by omega), fun a ha => absurd ha List.not_mem_nil⟩

/-! ## §3 All turns -/

/-- The outer loop, started in the memory `m0`, comes to its turn for entry `i`
with sector `n` next, in the memory `m`. -/
inductive AtTurn (L : Layout) (d : Disk) (m0 : Mem) : Nat → Nat → Mem → Prop
  | start : AtTurn L d m0 0 0 m0
  | next {i n n' : Nat} {m m' : Mem} : AtTurn L d m0 i n m → i < maxFsFiles →
      filesystemInitTurn L d i n m = some (m', some n') → AtTurn L d m0 (i + 1) n' m'

/-- The loop has one way to go. -/
theorem AtTurn.unique {n' : Nat} (h : AtTurn L d m0 i n m) (h' : AtTurn L d m0 i n' m') :
    n = n' ∧ m = m' := by
  induction h generalizing n' m' with
  | start =>
    cases h'
    exact ⟨rfl, rfl⟩
  | next h1 _ hturn ih =>
    cases h' with
    | next h2 _ hturn' =>
      obtain ⟨rfl, rfl⟩ := ih h2
      rw [hturn] at hturn'
      simp only [Option.some.injEq, Prod.mk.injEq] at hturn'
      exact ⟨hturn'.2, hturn'.1⟩

/-- The rest of the loop decides how `filesystem_init` ends. -/
theorem AtTurn.run (h : AtTurn L d m0 i n m) :
    i ≤ maxFsFiles ∧
      filesystemInitEnd L d m0 = (filesystemInitRun L d (maxFsFiles - i) i n m).2 := by
  induction h with
  | start => exact ⟨Nat.zero_le _, rfl⟩
  | @next i n n' m m' _ hi hturn ih =>
    refine ⟨hi, ?_⟩
    rw [ih.2, show maxFsFiles - i = (maxFsFiles - (i + 1)) + 1 by omega, filesystemInitRun]
    rw [← filesystemInitTurnRun_toOption] at hturn
    revert hturn
    cases (filesystemInitTurnRun L d i n m).2 with
    | unfinished => intro hturn; cases hturn
    | panic => intro hturn; cases hturn
    | returned r => intro hturn; cases hturn; rfl

/-- The memory before `filesystem_init`: the table and the buffer are in `.bss`. -/
def BssZero (L : Layout) (m : Mem) : Prop :=
  (∀ x, L.filesystemFiles ≤ x → x < L.filesystemFiles + maxFsFiles * sizeofFilesystemFile →
    m x = 0) ∧ ∀ x, L.buffer ≤ x → x < L.buffer + 512 → m x = 0

/-- When the outer loop is at a turn, the entries below it are filled and those
from it on are as they were. -/
structure TurnInv (L : Layout) (d : Disk) (m0 : Mem) (i n : Nat) (m : Mem) : Prop where
  sector : n ≤ 8193 * i
  turn_le : i ≤ n
  filled : ∀ j < i, ∃ n1 m1, AtTurn L d m0 j n1 m1 ∧ n1 < d.sectors ∧
    virtioRead d m1 L.buffer n1 L.buffer ≠ 0 ∧
    headerSize L (virtioRead d m1 L.buffer n1) ≤ maxFilesize ∧
    Filled L d j n1 (virtioRead d m1 L.buffer n1) m
  unused : ∀ j, i ≤ j → j < 12 → ∀ x, L.InFsFile j x → m x = m0 x

/-- An entry keeps what it was filled with while its bytes are not written. -/
theorem Filled.congr {mh : Mem} (h : Filled L d i n mh m)
    (hz : headerSize L mh ≤ maxFilesize) (hm : ∀ x, L.InFsFile i x → m' x = m x) :
    Filled L d i n mh m' := by
  have hS := sectorsOf_le hz
  have hf : L.fsExists i = L.fsFile i ∧ L.fsName i = L.fsFile i + 4 ∧
      L.fsData i = L.fsFile i + 104 ∧ L.fsSize i = L.fsFile i + 4194408 := ⟨rfl, rfl, rfl, rfl⟩
  have hin : ∀ x, L.fsFile i ≤ x → x < L.fsFile i + 4194412 → m' x = m x :=
    fun x h1 h2 => hm x ⟨h1, h2⟩
  refine ⟨?_, ?_, ?_, ?_⟩
  · rw [← h.file_exists]
    exact load32_congr (fun x h1 h2 => hin x (by omega) (by omega))
  · intro j hj
    rw [hin _ (by omega) (by omega), h.name j hj]
  · rw [← h.size]
    exact load32_congr (fun x h1 h2 => hin x (by omega) (by omega))
  · intro j hj
    rw [hin _ (by omega) (by omega), h.data j hj]

theorem AtTurn.inv (h : AtTurn L d m0 i n m) : TurnInv L d m0 i n m := by
  induction h with
  | start =>
    exact ⟨Nat.zero_le _, le_refl _, fun j hj => absurd hj (by omega), fun _ _ _ _ _ => rfl⟩
  | @next i n n' m m' hat hi hturn ih =>
    simp only [maxFsFiles] at hi
    have hn := ih.sector
    have hle := ih.turn_le
    obtain ⟨hout, -⟩ := filesystemInitTurnRun_spec (L := L) (d := d) (m := m) hi
      (show n + 1 + 8192 < 2 ^ 32 by omega)
    rw [← filesystemInitTurnRun_toOption] at hturn
    generalize (filesystemInitTurnRun L d i n m).2 = r at hout hturn
    cases hout with
    | endOfDisk => simp [Ending.toOption] at hturn
    | noName => simp [Ending.toOption] at hturn
    | tooBig => simp [Ending.toOption] at hturn
    | @filled m1 hlt hne hz hfilled hframe =>
      simp only [Ending.toOption, Option.some.injEq, Prod.mk.injEq] at hturn
      obtain ⟨rfl, rfl⟩ := hturn
      have hS := sectorsOf_le hz
      -- the turn writes the buffer and entry `i`
      have hother : ∀ j, j < 12 → j ≠ i → ∀ x, L.InFsFile j x → m1 x = m x := by
        intro j hj hji x hx
        rw [hframe x (L.fsFile_apart hji hx), buffer_frame hj hx]
      refine ⟨by omega, by omega, ?_, ?_⟩
      · intro j hj
        by_cases hji : j = i
        · subst hji
          exact ⟨n, m, hat, hlt, hne, hz, hfilled⟩
        · obtain ⟨n2, m2, hat2, hlt2, hne2, hz2, hf2⟩ := ih.filled j (by omega)
          exact ⟨n2, m2, hat2, hlt2, hne2, hz2, hf2.congr hz2 (hother j (by omega) hji)⟩
      · intro j hij hj x hx
        rw [hother j hj (by omega) x hx]
        exact ih.unused j (by omega) hj x hx

/-- What is left of the loop at a turn: it does not run out of fuel, it asks
for sectors of the table and the buffer only, it panics only at a file that
is too big, and it stops at some turn, after which the entries stay as they
are. -/
structure LoopEnd (L : Layout) (d : Disk) (m0 : Mem) (i : Nat) (r : List Nat × Ending Mem) :
    Prop where
  finished : r.2 ≠ .unfinished
  targets : ∀ a ∈ r.1, L.IsTarget a
  panicked : r.2 = .panic → ∃ j n m, AtTurn L d m0 j n m ∧ n < d.sectors ∧
    maxFilesize < headerSize L (virtioRead d m L.buffer n)
  stopped : ∀ m', r.2 = .returned m' → ∃ count n m, AtTurn L d m0 count n m ∧ i ≤ count ∧
    ∀ j < 12, ∀ x, L.InFsFile j x → m' x = m x

theorem AtTurn.loopEnd {left : Nat} (h : AtTurn L d m0 i n m) (hleft : i + left = maxFsFiles) :
    LoopEnd L d m0 i (filesystemInitRun L d left i n m) := by
  induction left generalizing i n m with
  | zero =>
    refine ⟨by simp [filesystemInitRun], by simp [filesystemInitRun],
      by simp [filesystemInitRun], ?_⟩
    intro m' hret
    rw [filesystemInitRun, Ending.returned.injEq] at hret
    exact ⟨i, n, m, h, le_refl _, fun _ _ _ _ => by rw [hret]⟩
  | succ left ih =>
    have hi : i < maxFsFiles := by omega
    have hn := h.inv.sector
    obtain ⟨hout, htargets⟩ := filesystemInitTurnRun_spec (L := L) (d := d) (m := m) hi
      (show n + 1 + 8192 < 2 ^ 32 by simp only [maxFsFiles] at hi; omega)
    have hturn := filesystemInitTurnRun_toOption L d i n m
    rw [filesystemInitRun]
    generalize filesystemInitTurnRun L d i n m = r at hout htargets hturn ⊢
    obtain ⟨w, e⟩ := r
    cases hout with
    | endOfDisk =>
      refine ⟨by simp, htargets, by simp, fun m' hret => ?_⟩
      cases hret
      exact ⟨i, n, m, h, le_refl _, fun _ _ _ _ => rfl⟩
    | noName =>
      refine ⟨by simp, htargets, by simp, fun m' hret => ?_⟩
      cases hret
      exact ⟨i, n, m, h, le_refl _, fun j hj x hx => buffer_frame hj hx⟩
    | tooBig hlt _ hbig =>
      exact ⟨by simp, htargets, fun _ => ⟨i, n, m, h, hlt, hbig⟩, fun m' hret => by cases hret⟩
    | filled =>
      have hrest := ih (.next h hi hturn.symm) (by omega)
      refine ⟨hrest.finished, ?_, hrest.panicked, ?_⟩
      · intro a ha
        rcases List.mem_append.mp ha with ha | ha
        · exact htargets a ha
        · exact hrest.targets a ha
      · intro m' hret
        obtain ⟨count, n2, m2, hat, hle, hkeep⟩ := hrest.stopped m' hret
        exact ⟨count, n2, m2, hat, by omega, hkeep⟩

theorem filesystemInit_toOption (L : Layout) (d : Disk) (m : Mem) :
    (filesystemInitEnd L d m).toOption = filesystemInit L d m :=
  filesystemInitRun_toOption L d maxFsFiles 0 0 m

/-- Without a panic `filesystem_init` returns. -/
theorem filesystemInit_returns (h : filesystemInitEnd L d m0 ≠ .panic) :
    ∃ m', filesystemInit L d m0 = some m' := by
  have hfin := ((AtTurn.start : AtTurn L d m0 0 0 m0).loopEnd (Nat.zero_add maxFsFiles)).finished
  rw [← filesystemInit_toOption]
  revert h
  change filesystemInitEnd L d m0 ≠ .unfinished at hfin
  revert hfin
  cases filesystemInitEnd L d m0 with
  | unfinished => intro hfin; exact absurd rfl hfin
  | panic => intro _ h; exact absurd rfl h
  | returned m' => intro _ _; exact ⟨m', rfl⟩

/-- The table that `filesystem_init` leaves: `count` entries, each filled in a
turn of its own, and the others untouched. -/
structure TableOf (L : Layout) (d : Disk) (m0 : Mem) (count : Nat) (m' : Mem) : Prop where
  count_le : count ≤ maxFsFiles
  filled : ∀ j < count, ∃ n1 m1, AtTurn L d m0 j n1 m1 ∧ n1 < d.sectors ∧
    virtioRead d m1 L.buffer n1 L.buffer ≠ 0 ∧
    headerSize L (virtioRead d m1 L.buffer n1) ≤ maxFilesize ∧
    Filled L d j n1 (virtioRead d m1 L.buffer n1) m'
  unused : ∀ j, count ≤ j → j < 12 → ∀ x, L.InFsFile j x → m' x = m0 x

/-- A run that comes to turn `i` and returns has filled the entries below `i`. -/
theorem AtTurn.table (h : AtTurn L d m0 i n m) (hret : filesystemInit L d m0 = some m') :
    ∃ count, i ≤ count ∧ TableOf L d m0 count m' := by
  obtain ⟨hi, hrun⟩ := h.run
  have hend : filesystemInitEnd L d m0 = .returned m' := by
    have hopt := filesystemInit_toOption L d m0
    rw [hret] at hopt
    revert hopt
    cases filesystemInitEnd L d m0 with
    | unfinished => intro hopt; cases hopt
    | panic => intro hopt; cases hopt
    | returned a => intro hopt; cases hopt; rfl
  have hloop := h.loopEnd (show i + (maxFsFiles - i) = maxFsFiles by omega)
  obtain ⟨count, n2, m2, hat, hle, hkeep⟩ := hloop.stopped m' (by rw [← hrun, hend])
  have hinv := hat.inv
  have hcount : count ≤ maxFsFiles := hat.run.1
  refine ⟨count, hle, hcount, ?_, ?_⟩
  · intro j hj
    obtain ⟨n1, m1, hat1, hlt1, hne1, hz1, hf1⟩ := hinv.filled j hj
    exact ⟨n1, m1, hat1, hlt1, hne1, hz1,
      hf1.congr hz1 (hkeep j (by simp only [maxFsFiles] at hcount; omega))⟩
  · intro j hj hj12 x hx
    rw [hkeep j hj12 x hx]
    exact hinv.unused j hj hj12 x hx

theorem TableOf.exists_iff {count : Nat} (h : TableOf L d m0 count m')
    (hbss : BssZero L m0) (hi : i < maxFsFiles) :
    load32 m' (L.fsExists i) ≠ 0 ↔ i < count := by
  constructor
  · intro hne
    by_contra hge
    apply hne
    rw [fsExists_congr (fun x hx => h.unused i (by omega) hi x hx)]
    have hzero : ∀ x, L.fsExists i ≤ x → x < L.fsExists i + 4 → m0 x = 0 := by
      intro x h1 h2
      simp only [Layout.fsExists, Layout.fsFile, maxFsFiles, sizeofFilesystemFile] at h1 h2 hi
      exact hbss.1 x (by omega) (by simp only [maxFsFiles, sizeofFilesystemFile]; omega)
    simp [load32, hzero (L.fsExists i) (by omega) (by omega),
      hzero (L.fsExists i + 1) (by omega) (by omega),
      hzero (L.fsExists i + 2) (by omega) (by omega),
      hzero (L.fsExists i + 3) (by omega) (by omega)]
  · intro hlt
    obtain ⟨n1, m1, -, -, -, -, hf⟩ := h.filled i hlt
    rw [hf.file_exists]
    omega

/-! ## §4 Any disk is unpacked safely -/

/-- **`filesystem_init` is safe on every disk**: it returns or panics, it reads
sectors only into the buffer and into `data` members inside the table, and the
files that exist are the first ones of the table, none too big. -/
theorem filesystemInit_safe (L : Layout) (d : Disk) (m : Mem) (hbss : BssZero L m) :
    filesystemInitEnd L d m ≠ .unfinished ∧
      (filesystemInitEnd L d m).toOption = filesystemInit L d m ∧
      (∀ a ∈ (filesystemInitRun L d maxFsFiles 0 0 m).1, a = L.buffer ∨
        ∃ i < maxFsFiles, ∃ j < maxFilesize / sectorSize, a = L.fsData i + j * sectorSize) ∧
      ∀ m', filesystemInit L d m = some m' → ∃ count ≤ maxFsFiles, ∀ i < maxFsFiles,
        (load32 m' (L.fsExists i) ≠ 0 ↔ i < count) ∧
        (i < count → load32 m' (L.fsSize i) ≤ maxFilesize) := by
  have hstart : AtTurn L d m 0 0 m := .start
  have hloop := hstart.loopEnd (Nat.zero_add maxFsFiles)
  refine ⟨hloop.finished, filesystemInit_toOption L d m, hloop.targets, fun m' hret => ?_⟩
  obtain ⟨count, -, htable⟩ := hstart.table hret
  refine ⟨count, htable.count_le, fun i hi => ⟨htable.exists_iff hbss hi, fun hlt => ?_⟩⟩
  obtain ⟨n1, m1, -, -, -, hz, hf⟩ := htable.filled i hlt
  rw [hf.size]
  exact hz

theorem filesystemInit_safe_example :
    BssZero exampleLayout (fun _ => 0) ∧
      filesystemInitEnd exampleLayout exampleArchive (fun _ => 0) ≠ .unfinished := by
  have hbss : BssZero exampleLayout (fun _ => 0) := ⟨fun _ _ _ => rfl, fun _ _ _ => rfl⟩
  exact ⟨hbss, (filesystemInit_safe exampleLayout exampleArchive (fun _ => 0) hbss).1⟩

end Risky321.Kernel
