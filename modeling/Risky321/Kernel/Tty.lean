/-
Risky321.Kernel.Tty — the console line buffer, from `kernel/tty.c`.

Input bytes arrive one at a time from `UartInterruptHandle` (`uart.c`),
which hands each one to `TtyBufferInsert`; `ksys_read` on descriptor 0
calls `TtyRead`. The two share a ring of `TTY_BUFFER_SIZE` cells, three
indices and two flags:

  r       — the next byte to deliver,
  w       — just behind the last committed byte (the last '\n'),
  insert  — where the next typed byte goes.

`r == insert` and `r == w` are each true both of an empty and of a full
ring; the flags `isEmpty` and `isFull` are there to tell them apart.

Two things are made explicit. The bytes a call sends back through
`UartSendBlocking` are returned as a list (`echo`), and the bytes that
`TtyRead` stores at `dest` are returned as a list, because what the tty
does never depends on where `dest` is.
-/
import Mathlib.Logic.Function.Basic

namespace Risky321.Kernel

/-- `TTY_BUFFER_SIZE` of `tty.h`. -/
def ttyBufferSize : Nat := 1024

/-- `BACKSPACE` of `tty.h`. -/
def backspace : UInt8 := 127

/-- The characters `'\n'`, `'\r'`, `'\b'` and `' '` as the bytes C has for them. -/
def newline : UInt8 := 10
def carriageReturn : UInt8 := 13
def bellBackspace : UInt8 := 8
def space : UInt8 := 32

/-- The file-scope variables of `tty.c`. -/
structure Tty where
  ttyBuffer : Nat → UInt8
  isEmpty : Bool
  isFull : Bool
  r : Nat
  w : Nat
  insert : Nat

/-- The initial values: a zeroed buffer, `isEmpty = TRUE`, all indices zero. -/
def Tty.init : Tty :=
  { ttyBuffer := fun _ => 0, isEmpty := true, isFull := false, r := 0, w := 0, insert := 0 }

/-- What a call of `TtyBufferInsert` gives back: its return value and the
bytes it sent to the console. -/
structure InsertOut where
  ret : Bool
  echo : List UInt8
  deriving DecidableEq, Repr

/-- `TtyBufferInsert` rewrites `'\r'` to `'\n'` before it looks at the byte. -/
def crToNl (c : UInt8) : UInt8 := if c = carriageReturn then newline else c

/-- The backspace branch of `TtyBufferInsert`: it steps back over the
previous cell unless the ring is empty or that cell holds a `'\n'`. -/
def ttyErase (s : Tty) : InsertOut × Tty :=
  let prev := (s.insert + ttyBufferSize - 1) % ttyBufferSize
  if s.isEmpty = false ∧ s.ttyBuffer prev ≠ newline then
    (⟨true, [bellBackspace, space, bellBackspace]⟩,
      { s with insert := prev, isEmpty := if prev = s.r then true else s.isEmpty })
  else (⟨true, []⟩, s)

/-- The store branch of `TtyBufferInsert`. -/
def ttyStore (s : Tty) (c : UInt8) : InsertOut × Tty :=
  let insert := (s.insert + 1) % ttyBufferSize
  (⟨true, [c]⟩,
    { s with
      ttyBuffer := Function.update s.ttyBuffer s.insert c
      insert := insert
      isEmpty := false
      w := if c = newline then insert else s.w
      isFull := if insert = s.r then true else s.isFull })

/-- `TtyBufferInsert`. -/
def ttyBufferInsert (s : Tty) (c : UInt8) : InsertOut × Tty :=
  if s.isFull then (⟨false, []⟩, s)
  else
    let c := crToNl c
    if c = backspace then ttyErase s else ttyStore s c

/-- The `while` loop of `TtyRead`; the first argument is `n - i`, the
number of bytes it may still deliver. -/
def ttyReadLoop : Nat → Tty → List UInt8 × Tty
  | 0, s => ([], s)
  | n + 1, s =>
      if s.isEmpty = false ∧ s.r ≠ s.w then
        let c := s.ttyBuffer s.r
        let s := { s with isFull := false, r := (s.r + 1) % ttyBufferSize }
        if c = newline then ([c], s)
        else
          let (bytes, s) := ttyReadLoop n s
          (c :: bytes, s)
      else ([], s)

/-- `TtyRead`: the delivered bytes (its return value is their number). -/
def ttyRead (s : Tty) (n : Nat) : List UInt8 × Tty :=
  if s.isEmpty then ([], s)
  else
    let (bytes, s) := ttyReadLoop n s
    (bytes, if s.r = s.insert then { s with isEmpty := true } else s)

/-! ## Runs -/

/-- A call into the tty. -/
inductive TtyOp where
  | insert (c : UInt8)
  | read (n : Nat)
  deriving DecidableEq, Repr

/-- What the caller and the console see of one call. -/
inductive TtyOut where
  | inserted (o : InsertOut)
  | delivered (bytes : List UInt8)
  deriving DecidableEq, Repr

/-- One call. -/
def Tty.step (s : Tty) : TtyOp → TtyOut × Tty
  | .insert c => let (o, s) := ttyBufferInsert s c; (.inserted o, s)
  | .read n => let (bytes, s) := ttyRead s n; (.delivered bytes, s)

/-- A sequence of calls, with what each of them gave back. -/
def Tty.run (s : Tty) : List TtyOp → List TtyOut × Tty
  | [] => ([], s)
  | op :: ops =>
      let (o, s) := s.step op
      let (os, s) := s.run ops
      (o :: os, s)

end Risky321.Kernel
