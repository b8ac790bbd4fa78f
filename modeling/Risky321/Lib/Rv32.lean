/-
Risky321.Lib.Rv32 — straight-line RV32 code that saves and restores registers.

The machine is a register file and a byte memory; `x0` is left out, since it
cannot be written. A register saver is a list of `sw` through one base
register, a restorer the same list of `lw`. Both are given by a frame: which
register goes to which word behind the base.

What such a pair does is said by four lemmas. A saver leaves the registers
alone (`run_saveAll_reg`), writes only the words of its frame
(`run_saveAll_outside`) and fills each of them (`load32_run_saveAll`); a
restorer loads every register of its frame and leaves the others, and the
memory, alone (`run_restoreAll_reg`, `run_restoreAll_other`,
`run_restoreAll_mem`).
-/
import Risky321.Lib.ByteMem

namespace Risky321.Lib

/-- A register's contents. -/
abbrev Word : Type := BitVec 32

/-- The general registers that can be written. -/
inductive Reg
  | ra | sp | gp | tp
  | t0 | t1 | t2
  | s0 | s1
  | a0 | a1 | a2 | a3 | a4 | a5 | a6 | a7
  | s2 | s3 | s4 | s5 | s6 | s7 | s8 | s9 | s10 | s11
  | t3 | t4 | t5 | t6
  deriving DecidableEq, Repr

/-- The machine as far as loads, stores and additions see it. -/
structure Mach where
  reg : Reg → Word
  mem : Mem

/-- The instructions, with the assembler's operands. -/
inductive Instr
  | addi (rd rs : Reg) (imm : Int)
  | lw (rd : Reg) (off : Nat) (base : Reg)
  | sw (rs : Reg) (off : Nat) (base : Reg)
  deriving DecidableEq, Repr

/-- Write a register. -/
def Mach.setReg (m : Mach) (rd : Reg) (v : Word) : Mach :=
  { m with reg := Function.update m.reg rd v }

/-- The address `off(base)`. -/
def Mach.addr (m : Mach) (off : Nat) (base : Reg) : Nat :=
  (m.reg base + BitVec.ofNat 32 off).toNat

/-- One instruction. -/
def Mach.exec (m : Mach) : Instr → Mach
  | .addi rd rs imm => m.setReg rd (m.reg rs + BitVec.ofInt 32 imm)
  | .lw rd off base => m.setReg rd (BitVec.ofNat 32 (load32 m.mem (m.addr off base)))
  | .sw rs off base => { m with mem := store32 m.mem (m.addr off base) (m.reg rs).toNat }

/-- A straight line of instructions. -/
def Mach.run (m : Mach) (code : List Instr) : Mach := code.foldl Mach.exec m

variable {m : Mach} {b r rd : Reg}

@[simp] theorem setReg_mem (m : Mach) (rd : Reg) (v : Word) : (m.setReg rd v).mem = m.mem := rfl

@[simp] theorem setReg_self (m : Mach) (rd : Reg) (v : Word) : (m.setReg rd v).reg rd = v := by
  simp [Mach.setReg]

theorem setReg_of_ne (m : Mach) (v : Word) (h : r ≠ rd) : (m.setReg rd v).reg r = m.reg r := by
  simp [Mach.setReg, h]

@[simp] theorem run_nil (m : Mach) : m.run [] = m := rfl

@[simp] theorem run_cons (m : Mach) (i : Instr) (code : List Instr) :
    m.run (i :: code) = (m.exec i).run code := rfl

theorem run_append (m : Mach) (c c' : List Instr) : m.run (c ++ c') = (m.run c).run c' := by
  simp [Mach.run]

/-- An address that does not wrap around. -/
theorem addr_of_room {off : Nat} (h : (m.reg b).toNat + off < 2 ^ 32) :
    m.addr off b = (m.reg b).toNat + off := by
  rw [Mach.addr, BitVec.toNat_add, BitVec.toNat_ofNat, Nat.mod_eq_of_lt (show off < 2 ^ 32 by omega),
    Nat.mod_eq_of_lt h]

theorem exec_sw {off : Nat} (h : (m.reg b).toNat + off < 2 ^ 32) :
    m.exec (.sw r off b) = { m with mem := store32 m.mem ((m.reg b).toNat + off) (m.reg r).toNat } := by
  rw [Mach.exec, addr_of_room h]

theorem exec_lw {off : Nat} (h : (m.reg b).toNat + off < 2 ^ 32) :
    m.exec (.lw rd off b)
      = m.setReg rd (BitVec.ofNat 32 (load32 m.mem ((m.reg b).toNat + off))) := by
  rw [Mach.exec, addr_of_room h]

/-! ## Frames -/

/-- Which register lives in which word behind the base. -/
abbrev Frame : Type := List (Reg × Nat)

/-- Save the registers of a frame. -/
def saveAll (f : Frame) (b : Reg) : List Instr := f.map fun s => .sw s.1 (s.2 * 4) b

/-- Restore the registers of a frame. -/
def restoreAll (f : Frame) (b : Reg) : List Instr := f.map fun s => .lw s.1 (s.2 * 4) b

/-- Every slot of the frame is below the end of the address space. -/
def Frame.Fits (f : Frame) (base : Nat) : Prop := ∀ s ∈ f, base + s.2 * 4 < 2 ^ 32

variable {f : Frame}

theorem Frame.Fits.tail {s : Reg × Nat} {base : Nat} (h : Frame.Fits (s :: f) base) :
    Frame.Fits f base := fun t ht => h t (List.mem_cons_of_mem _ ht)

theorem run_saveAll_reg (m : Mach) (f : Frame) (b : Reg) : (m.run (saveAll f b)).reg = m.reg := by
  induction f generalizing m with
  | nil => rfl
  | cons s f ih =>
    rw [saveAll, List.map_cons, run_cons, ← saveAll, ih]
    rfl

/-- A saver writes the words of its frame only. -/
theorem run_saveAll_outside (hfit : f.Fits (m.reg b).toNat) {x : Nat}
    (hx : ∀ s ∈ f, x < (m.reg b).toNat + s.2 * 4 ∨ (m.reg b).toNat + s.2 * 4 + 4 ≤ x) :
    (m.run (saveAll f b)).mem x = m.mem x := by
  induction f generalizing m with
  | nil => rfl
  | cons s f ih =>
    have hrest := ih (m := m.exec (.sw s.1 (s.2 * 4) b)) hfit.tail
      fun t ht => hx t (List.mem_cons_of_mem _ ht)
    rw [saveAll, List.map_cons, run_cons, ← saveAll, hrest, exec_sw (hfit s List.mem_cons_self)]
    exact store32_outside _ _ _ (hx s List.mem_cons_self)

/-- After a saver each word of its frame holds the register it is meant for. -/
theorem load32_run_saveAll (hfit : f.Fits (m.reg b).toNat) (hdist : (f.map Prod.snd).Nodup)
    {s : Reg × Nat} (hs : s ∈ f) :
    load32 (m.run (saveAll f b)).mem ((m.reg b).toNat + s.2 * 4) = (m.reg s.1).toNat := by
  induction f generalizing m with
  | nil => cases hs
  | cons t f ih =>
    rw [List.map_cons, List.nodup_cons] at hdist
    rw [saveAll, List.map_cons, run_cons, ← saveAll]
    rcases List.mem_cons.mp hs with rfl | hs
    · -- the later stores go to other words
      have hlater : ∀ u ∈ f, u.2 ≠ s.2 :=
        fun u hu he => hdist.1 (he ▸ List.mem_map_of_mem hu)
      have hkeep : load32 ((m.exec (.sw s.1 (s.2 * 4) b)).run (saveAll f b)).mem
          ((m.reg b).toNat + s.2 * 4)
          = load32 (m.exec (.sw s.1 (s.2 * 4) b)).mem ((m.reg b).toNat + s.2 * 4) := by
        apply load32_congr
        intro x _ _
        refine run_saveAll_outside (m := m.exec (.sw s.1 (s.2 * 4) b)) hfit.tail fun u hu => ?_
        have := hlater u hu
        simp only [Mach.exec]
        omega
      rw [hkeep, exec_sw (hfit s List.mem_cons_self)]
      exact load32_store32_of_lt (m.reg s.1).isLt
    · exact ih (m := m.exec (.sw t.1 (t.2 * 4) b)) hfit.tail hdist.2 hs

@[simp] theorem run_restoreAll_mem (m : Mach) (f : Frame) (b : Reg) :
    (m.run (restoreAll f b)).mem = m.mem := by
  induction f generalizing m with
  | nil => rfl
  | cons s f ih =>
    rw [restoreAll, List.map_cons, run_cons, ← restoreAll, ih]
    rfl

/-- A restorer leaves the registers outside its frame alone. -/
theorem run_restoreAll_other (m : Mach) (h : r ∉ f.map Prod.fst) :
    (m.run (restoreAll f b)).reg r = m.reg r := by
  induction f generalizing m with
  | nil => rfl
  | cons s f ih =>
    rw [List.map_cons, List.mem_cons, not_or] at h
    rw [restoreAll, List.map_cons, run_cons, ← restoreAll, ih _ h.2, Mach.exec]
    exact setReg_of_ne _ _ h.1

/-- A restorer loads each register of its frame, as long as the base is not one of them. -/
theorem run_restoreAll_reg (hfit : f.Fits (m.reg b).toNat) (hdist : (f.map Prod.fst).Nodup)
    (hbase : b ∉ f.map Prod.fst) {s : Reg × Nat} (hs : s ∈ f) :
    (m.run (restoreAll f b)).reg s.1
      = BitVec.ofNat 32 (load32 m.mem ((m.reg b).toNat + s.2 * 4)) := by
  induction f generalizing m with
  | nil => cases hs
  | cons t f ih =>
    rw [List.map_cons, List.nodup_cons] at hdist
    rw [List.map_cons, List.mem_cons, not_or] at hbase
    have hb := setReg_of_ne m (BitVec.ofNat 32 (load32 m.mem ((m.reg b).toNat + t.2 * 4))) hbase.1
    rw [restoreAll, List.map_cons, run_cons, ← restoreAll, exec_lw (hfit t List.mem_cons_self)]
    rcases List.mem_cons.mp hs with rfl | hs
    · rw [run_restoreAll_other _ hdist.1, setReg_self]
    · rw [ih (by rw [hb]; exact hfit.tail) hdist.2 hbase.2 hs, hb]
      rfl

end Risky321.Lib
