/-
Risky321.Kernel.Processes — what the kernel is for: processes that do not
disturb each other.

A `World` has no memory, no page tables and no control blocks. A process is
its registers, its pages, and whether it sleeps; a descriptor is a file and a
position. An event changes the process it is about: a call that of the caller,
`fork` also takes an unused slot, `kill` empties one, the scheduler wakes the
process it picks. `World.Step` leaves open what the kernel is free to choose:
the address `sbrk` returns, the bytes the console has, whether there is an
entry left for `open`, and what becomes of a file that is no complete image.

§1 the state, §2 the events, §3 what follows for a process that is not running.
-/
import Risky321.Kernel.LoaderTheorems

namespace Risky321.Kernel

open Risky321.Lib

/-! ## §1 The state -/

/-- A process: the registers it last left user mode with, by their words in a
trap frame, and its pages with their flags and bytes. -/
structure Process where
  reg : Nat → Nat
  page : Nat → Option (Nat × List UInt8)
  sleeping : Bool

/-- The processes by slot, the descriptors of each slot as files and positions,
which slot is executing, the contents of the files, how they are found, and
the process that each image starts as. -/
@[ext]
structure World where
  procs : Nat → Option Process
  fds : Nat → Nat → Option (Nat × Nat)
  running : Option Nat
  data : Nat → List UInt8
  find : List UInt8 → Option Nat
  image : Nat → Option Process

def Process.setReg (p : Process) (w v : Nat) : Process :=
  { p with reg := Function.update p.reg w (v % 2 ^ 32) }

/-- A byte stored to one of its pages. -/
def Process.store (p : Process) (va : Nat) (c : UInt8) : Process :=
  { p with
    page := Function.update p.page (va / pageSize)
      ((p.page (va / pageSize)).map fun q => (q.1, q.2.set (va % pageSize) c)) }

/-- Bytes stored one behind the other. -/
def Process.storeAll : Process → Nat → List UInt8 → Process
  | p, _, [] => p
  | p, va, c :: cs => (p.store va c).storeAll ((va + 1) % 2 ^ 32) cs

/-- The process has the pages of `n` bytes from `va` on. -/
def Process.Has (p : Process) (va n : Nat) : Prop :=
  ∀ j < n, (p.page ((va + j) % 2 ^ 32 / pageSize)).isSome

/-- A page of zeros at `v`, for reading and writing. -/
def Process.addPage (p : Process) (v : Nat) : Process :=
  { p with page := Function.update p.page v (some (23, List.replicate pageSize 0)) }

/-- The arguments on the stack, and in `a0` and `a1` where they are. -/
def Process.withArgs (p : Process) (argv : List (List UInt8)) : Process :=
  let sp := vaUserStackInit - argBytes argv
  { ((p.setReg tfSp sp).setReg tfA0 argv.length).setReg tfA1 sp with
    page := Function.update p.page (vaUserStack / pageSize) (some (31, stackPage argv)) }

/-- `sleep` returns 0. -/
def Process.wake (p : Process) : Process :=
  if p.sleeping then { p.setReg tfA0 0 with sleeping := false } else p

def World.set (w : World) (i : Nat) (p : Option Process) : World :=
  { w with procs := Function.update w.procs i p }

/-- The process with the given PID is gone. -/
def World.kill (w : World) (pid : Nat) : World :=
  { w with procs := fun i => if i + 1 = pid then none else w.procs i }

def World.setFd (w : World) (i fd : Nat) (o : Option (Nat × Nat)) : World :=
  { w with fds := Function.update w.fds i (Function.update (w.fds i) fd o) }

/-- The first slot without a process. -/
def World.FirstUnused (w : World) (i : Nat) : Prop :=
  i < numProcesses ∧ w.procs i = none ∧ ∀ j < i, w.procs j ≠ none

/-- The first descriptor that is not open. -/
def World.FirstClosed (w : World) (i fd : Nat) : Prop :=
  3 ≤ fd ∧ fd < maxOpenFiles ∧ w.fds i fd = none ∧ ∀ fd', 3 ≤ fd' → fd' < fd → w.fds i fd' ≠ none

/-! ## §2 Events -/

/-- A call of the process `p` in slot `cur`. -/
inductive World.Called (w : World) (cur : Nat) (p : Process) : Call → World → Prop
  | forked {i : Nat} (hslot : w.FirstUnused i) :
      Called w cur p .fork ((w.set cur (p.setReg tfA0 (i + 1))).set i
        (some { p.setReg tfA0 0 with sleeping := false }))
  | execed {path : List UInt8} {argv : List (List UInt8)} {idx : Nat} {p' : Process}
      (hfile : path.length < maxFilesize → w.find path = some idx)
      (himage : ∀ q, w.image idx = some q → p' = q.withArgs argv) :
      Called w cur p (.exec path argv) (w.set cur p')
  | execFailed {path : List UInt8} {argv : List (List UInt8)}
      (hfile : path.length < maxFilesize → w.find path = none) :
      Called w cur p (.exec path argv) w
  | grown {va : Nat} (hva : va % pageSize = 0) :
      Called w cur p .sbrk (w.set cur ((p.setReg tfA0 va).addPage (va / pageSize)))
  | exited {r : SavedRegs} : Called w cur p (.exit r) { w.set cur none with running := none }
  | killedSelf {pid : Nat} {r : SavedRegs} (hpid : pid = cur + 1) :
      Called w cur p (.kill pid r) { w.kill pid with running := none }
  | killed {pid : Nat} {r : SavedRegs} (hpid : pid ≠ cur + 1) :
      Called w cur p (.kill pid r) ((w.kill pid).set cur (p.setReg tfA0 0xFFFFFFFF))
  | slept {r : SavedRegs} :
      Called w cur p (.sleep r) { w.set cur (some { p with sleeping := true }) with running := none }
  | opened {path : List UInt8} {idx fd : Nat}
      (hfile : path.length < maxFilesize → w.find path = some idx) (hfd : w.FirstClosed cur fd) :
      Called w cur p (.openFile path) ((w.setFd cur fd (some (idx, 0))).set cur (p.setReg tfA0 fd))
  | openFailed {path : List UInt8} :
      Called w cur p (.openFile path) (w.set cur (p.setReg tfA0 0xFFFFFFFF))
  | readConsole {buf size : Nat} {bytes : List UInt8} (hlen : bytes.length ≤ size)
      (hbuf : p.Has buf bytes.length) :
      Called w cur p (.read 0 buf size)
        (w.set cur ((p.storeAll buf bytes).setReg tfA0 bytes.length))
  | readOutput {fd buf size : Nat} (h1 : 1 ≤ fd) (h3 : fd < 3) :
      Called w cur p (.read fd buf size) (w.set cur (p.setReg tfA0 0))
  | readFile {fd buf size idx pos : Nat} {bytes : List UInt8} (h3 : 3 ≤ fd)
      (hfd : w.fds cur fd = some (idx, pos)) (hbytes : bytes = ((w.data idx).drop pos).take size)
      (hbuf : p.Has buf bytes.length) :
      Called w cur p (.read fd buf size)
        ((w.setFd cur fd (some (idx, pos + bytes.length))).set cur
          ((p.storeAll buf bytes).setReg tfA0 bytes.length))
  | closeStandard {fd : Nat} (h3 : fd < 3) :
      Called w cur p (.close fd) (w.set cur (p.setReg tfA0 0))
  | closed {fd idx pos : Nat} (hfd : w.fds cur fd = some (idx, pos)) :
      Called w cur p (.close fd) ((w.setFd cur fd none).set cur (p.setReg tfA0 0))
  | closeFailed {fd : Nat} (h3 : 3 ≤ fd) (hfd : w.fds cur fd = none) :
      Called w cur p (.close fd) (w.set cur (p.setReg tfA0 0xFFFFFFFF))
  | wrote {fd data size : Nat} : Called w cur p (.write fd data size) w
  | stored {va : Nat} {c : UInt8} (hva : p.Has va 1) :
      Called w cur p (.userStore va c) (w.set cur (p.store va c))
  | saved {u v : Nat} (hu : IsReg u) : Called w cur p (.saveReg u v) (w.set cur (p.setReg u v))

/-- An event. -/
inductive World.Step (w : World) : Op → World → Prop
  | schedule {i : Nat} {p : Process} (hidle : w.running = none)
      (hproc : w.procs i = some p) :
      Step w (.schedule i) { w.set i p.wake with running := some i }
  | create {idx i : Nat} {p : Process} (hslot : w.FirstUnused i)
      (himage : ∀ q, w.image idx = some q → p = q) :
      Step w (.create idx) (w.set i p)
  | console {c : UInt8} : Step w (.console c) w
  | call {w' : World} {cur : Nat} {p : Process} {c : Call} (hrun : w.running = some cur)
      (hproc : w.procs cur = some p) (h : w.Called cur p c w') : Step w (.call c) w'

/-- One process, of the image in entry 2, and no descriptor. -/
structure World.Init (w : World) : Prop where
  running : w.running = none
  fds : ∀ i fd, w.fds i fd = none
  first : ∃ p, w.procs 0 = some p ∧ ∀ q, w.image 2 = some q → p = q
  others : ∀ i, i ≠ 0 → w.procs i = none

/-! ## §3 A process that is not running -/

variable {w w' : World} {i cur : Nat} {p q : Process} {op : Op} {c : Call}

@[simp] theorem World.set_self (w : World) (i : Nat) (o : Option Process) :
    (w.set i o).procs i = o := by
  simp [World.set]

theorem World.set_of_ne {j : Nat} (w : World) (o : Option Process) (h : j ≠ i) :
    (w.set i o).procs j = w.procs j := by
  simp [World.set, h]

@[simp] theorem World.setFd_procs (w : World) (i fd : Nat) (o : Option (Nat × Nat)) :
    (w.setFd i fd o).procs = w.procs := rfl

theorem World.setFd_of_ne {j : Nat} (w : World) (fd : Nat) (o : Option (Nat × Nat)) (h : j ≠ i) :
    (w.setFd i fd o).fds j = w.fds j := by
  simp [World.setFd, h]

theorem World.kill_of_ne {pid : Nat} (w : World) (h : pid ≠ i + 1) :
    (w.kill pid).procs i = w.procs i :=
  if_neg (Ne.symm h)

/-- What is open in slot `i`, and the process there. -/
structure World.Kept (w w' : World) (i : Nat) : Prop where
  proc : w'.procs i = w.procs i
  fds : w'.fds i = w.fds i

/-- A call of another process leaves slot `i` alone, if there is a process in it
and it is not the one to be killed. -/
theorem World.Called.kept (h : w.Called cur p c w') (hq : w.procs i = some q) (hne : i ≠ cur)
    (hkill : ∀ r, c ≠ .kill (i + 1) r) : w.Kept w' i := by
  have hset : ∀ (u : World) (o : Option Process), u.procs i = w.procs i → u.fds i = w.fds i →
      w.Kept (u.set cur o) i := fun u o h1 h2 => ⟨(World.set_of_ne u o hne).trans h1, h2⟩
  cases h with
  | @forked j hslot =>
    have hij : i ≠ j := by
      rintro rfl
      exact absurd (hq.symm.trans hslot.2.1) (by simp)
    exact ⟨(World.set_of_ne _ _ hij).trans (World.set_of_ne w _ hne), rfl⟩
  | execFailed | wrote => exact ⟨rfl, rfl⟩
  | @killedSelf pid r hpid =>
    exact ⟨World.kill_of_ne w fun h => hkill r (by rw [h]), rfl⟩
  | @killed pid r hpid =>
    exact hset _ _ (World.kill_of_ne w fun h => hkill r (by rw [h])) rfl
  | exited | slept => exact ⟨World.set_of_ne w _ hne, rfl⟩
  | opened | readFile | closed => exact hset _ _ rfl (World.setFd_of_ne w _ _ hne)
  | execed | grown | openFailed | readConsole | readOutput | closeStandard | closeFailed | stored
  | saved => exact hset _ _ rfl rfl

/-- A call does not make another process run. -/
theorem World.Called.running (h : w.Called cur p c w') :
    w'.running = w.running ∨ w'.running = none := by
  cases h with
  | exited | killedSelf | slept => exact .inr rfl
  | _ => exact .inl rfl

end Risky321.Kernel
