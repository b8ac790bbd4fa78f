/-
Risky321.Kernel.UserMode — processes as their programs see them.

In `Processes` the registers of a process are those of its last trap. Here the
process that runs has its registers at hand: `World.Runs` is the machine of
processes that execute instructions and trap. A trap by `ecall` is the call that
the number in `a7` stands for, with the arguments in `a0` to `a2`, and the
program goes on behind the instruction; a trap by an interrupt is not seen.

§1 what a process has in its memory, §2 the events, §3 a process that is not
running.
-/
import Risky321.Kernel.Uservec
import Risky321.Kernel.Processes

namespace Risky321.Kernel

open Risky321.Lib

/-! ## §1 Memory -/

/-- A byte of a page that may be read. -/
def Process.byte (p : Process) (va : Nat) : Option UInt8 :=
  (p.page (va / pageSize)).bind fun q => if q.1 &&& pteR ≠ 0 then q.2[va % pageSize]? else none

/-- A word, whose bytes may lie on two pages. -/
def Process.word (p : Process) (va : Nat) : Option Nat :=
  (p.byte va).bind fun b0 =>
  (p.byte ((va + 1) % 2 ^ 32)).bind fun b1 =>
  (p.byte ((va + 2) % 2 ^ 32)).bind fun b2 =>
  (p.byte ((va + 3) % 2 ^ 32)).map fun b3 =>
    b0.toNat + 256 * b1.toNat + 65536 * b2.toNat + 16777216 * b3.toNat

/-- The process has the string and its NUL at `va`. -/
def Process.HasString (p : Process) : Nat → List UInt8 → Prop
  | va, [] => p.byte va = some 0
  | va, c :: cs => c ≠ 0 ∧ p.byte va = some c ∧ p.HasString ((va + 1) % 2 ^ 32) cs

/-- The process has an array of pointers to the strings at `va`, with a `NULL` behind. -/
def Process.HasArgs (p : Process) : Nat → List (List UInt8) → Prop
  | va, [] => p.word va = some 0
  | va, arg :: args => ∃ q, q ≠ 0 ∧ p.word va = some q ∧ arg.length < 2 ^ 32 ∧ p.HasString q arg ∧
      p.HasArgs ((va + 4) % 2 ^ 32) args

/-- An `argv`, where `NULL` is an empty one. -/
def Process.HasArgv (p : Process) (argv : Nat) (args : List (List UInt8)) : Prop :=
  if argv = 0 then args = [] else args.length < 2 ^ 30 ∧ p.HasArgs argv args

/-! ## §2 Events -/

/-- The registers of a process in the words of its trap frame, with `pc` as the `epc`. -/
def Process.withHart (p : Process) (reg : Reg → Word) (pc : Word) : Process :=
  { p with
    reg := fun w =>
      if w = tfEpc then pc.toNat else if 5 ≤ w ∧ w < 36 then (reg (wordReg w)).toNat else p.reg w }

/-- The process goes on behind the `ecall`. -/
def Process.next (p : Process) : Process := p.setReg tfEpc ((p.reg tfEpc + 4) % 2 ^ 32)

/-- The call that the process asks for. What is at an address that is not its own
is not said. -/
inductive Process.Asks (p : Process) (r : SavedRegs) : Call → Prop
  | fork (h : p.reg tfA7 = 1) : Asks p r .fork
  | exit (h : p.reg tfA7 = 2) : Asks p r (.exit r)
  | read (h : p.reg tfA7 = 5) : Asks p r (.read (p.reg tfA0) (p.reg tfA1) (p.reg tfA2))
  | kill (h : p.reg tfA7 = 6) : Asks p r (.kill (p.reg tfA0) r)
  | exec {path : List UInt8} {argv : List (List UInt8)} (h : p.reg tfA7 = 7)
      (hpath : ∀ s, s.length < 2 ^ 32 → p.HasString (p.reg tfA0) s → path = s)
      (hargv : ∀ args, p.HasArgv (p.reg tfA1) args → argv = args) : Asks p r (.exec path argv)
  | sbrk (h : p.reg tfA7 = 12) : Asks p r .sbrk
  | sleep (h : p.reg tfA7 = 13) : Asks p r (.sleep r)
  | openFile {path : List UInt8} (h : p.reg tfA7 = 15)
      (hpath : ∀ s, s.length < 2 ^ 32 → p.HasString (p.reg tfA0) s → path = s) :
      Asks p r (.openFile path)
  | write (h : p.reg tfA7 = 16) : Asks p r (.write (p.reg tfA0) (p.reg tfA1) (p.reg tfA2))
  | close (h : p.reg tfA7 = 21) : Asks p r (.close (p.reg tfA0))

/-- An event of the machine of processes. -/
inductive World.Runs (w : World) : CpuOp → World → Prop
  | instr {i : Nat} {p : Process} {reg : Reg → Word} {pc : Word} (hrun : w.running = some i)
      (hproc : w.procs i = some p) : Runs w (.instr reg pc) (w.set i (some (p.withHart reg pc)))
  | store {i va : Nat} {p : Process} {b : UInt8} (hrun : w.running = some i)
      (hproc : w.procs i = some p) (hva : p.Has va 1) :
      Runs w (.store va b) (w.set i (some (p.store va b)))
  | ecall {i : Nat} {p : Process} {t : TrapInfo} {r : SavedRegs} {kreg : Reg → Word} {c : Call}
      {w' : World} (hrun : w.running = some i) (hproc : w.procs i = some p)
      (hcause : t.scause = scauseUmodeEcall) (hasks : p.Asks r c)
      (hcall : (w.set i (some p.next)).Called i p.next c w') : Runs w (.trap t r kreg) w'
  | getpid {i : Nat} {p : Process} {t : TrapInfo} {r : SavedRegs} {kreg : Reg → Word}
      (hrun : w.running = some i) (hproc : w.procs i = some p)
      (hcause : t.scause = scauseUmodeEcall) (ha7 : p.reg tfA7 = sysGetpid) :
      Runs w (.trap t r kreg) (w.set i (some (p.next.setReg tfA0 (i + 1))))
  | interrupt {i : Nat} {t : TrapInfo} {r : SavedRegs} {kreg : Reg → Word}
      (hrun : w.running = some i) (hcause : scauseIntrBit ≤ t.scause) : Runs w (.trap t r kreg) w
  | swtch {i : Nat} {p : Process} {kreg : Reg → Word} (hidle : w.running = none)
      (hproc : w.procs i = some p) :
      Runs w (.swtch i kreg) { w.set i p.wake with running := some i }
  | kernelTrap {t : TrapInfo} (hidle : w.running = none) : Runs w (.kernelTrap t) w

/-! ## §3 A process that is not running -/

variable {w w' : World} {i : Nat} {p q : Process} {op : CpuOp} {c : Call} {r : SavedRegs}

/-- The event neither picks the process in slot `i` nor is a call to kill it. -/
def CpuOp.Spares (w : World) (i : Nat) (op : CpuOp) : Prop :=
  (∀ kreg, op ≠ .swtch i kreg) ∧ ∀ t r kreg, op = .trap t r kreg → t.scause = scauseUmodeEcall →
    ∀ j p, w.running = some j → w.procs j = some p → p.reg tfA7 = 6 → p.reg tfA0 ≠ i + 1

theorem World.set_kept {j : Nat} (w : World) (o : Option Process) (h : i ≠ j) :
    w.Kept (w.set j o) i := ⟨World.set_of_ne w o h, rfl⟩

theorem World.Kept.trans {w1 : World} (h : w.Kept w1 i) (h' : w1.Kept w' i) : w.Kept w' i :=
  ⟨h'.proc.trans h.proc, h'.fds.trans h.fds⟩

/-- What a process does while it runs is not seen in slot `i`. -/
theorem World.Runs.kept (h : w.Runs op w') (hq : w.procs i = some q) (hrun : w.running ≠ some i)
    (hop : op.Spares w i) : w.Kept w' i ∧ w'.running ≠ some i := by
  have hne : ∀ j, w.running = some j → i ≠ j := by
    rintro j hj rfl
    exact hrun hj
  cases h with
  | instr hr _ => exact ⟨w.set_kept _ (hne _ hr), hrun⟩
  | store hr _ _ => exact ⟨w.set_kept _ (hne _ hr), hrun⟩
  | getpid hr _ _ _ => exact ⟨w.set_kept _ (hne _ hr), hrun⟩
  | interrupt => exact ⟨⟨rfl, rfl⟩, hrun⟩
  | kernelTrap => exact ⟨⟨rfl, rfl⟩, hrun⟩
  | @swtch j p kreg hidle hproc =>
    have hij : i ≠ j := by
      rintro rfl
      exact hop.1 kreg rfl
    exact ⟨⟨World.set_of_ne w _ hij, rfl⟩, fun h => hij (Option.some.inj h).symm⟩
  | @ecall j p t r kreg c w' hr hproc hcause hasks hcall =>
    have hij := hne j hr
    have hset := w.set_kept (some p.next) hij
    have hkill : ∀ r', c ≠ .kill (i + 1) r' := by
      intro r' hc
      cases hasks with
      | kill h7 => exact hop.2 t r kreg rfl hcause j p hr hproc h7 (Call.kill.inj hc).1
      | _ => cases hc
    refine ⟨hset.trans (hcall.kept (hset.proc.trans hq) hij hkill), ?_⟩
    obtain h | h := hcall.running
    · rw [h]
      exact hrun
    · rw [h]
      exact nofun

/-- In a run that spares it, a process that is not running stays as it is. -/
theorem World.put_aside (h : Reach (fun u => u = w) World.Runs (fun u op => op.Spares u i) w')
    (hq : w.procs i = some q) (hrun : w.running ≠ some i) :
    w.Kept w' i ∧ w'.running ≠ some i := by
  refine h.invariant (I := fun u => w.Kept u i ∧ u.running ≠ some i) ?_ ?_
  · rintro _ rfl
    exact ⟨⟨rfl, rfl⟩, hrun⟩
  · rintro u op u' ⟨hk, hu⟩ hop hs
    obtain ⟨hk', hu'⟩ := hs.kept (hk.proc.trans hq) hu hop
    exact ⟨hk.trans hk', hu'⟩

end Risky321.Kernel
