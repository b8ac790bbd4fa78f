/-
Risky321.User.Shell — the shell, from `user/shell.c`.

`main` reads standard input a byte at a time into `buf`; at a newline, or
when the buffer is full, `parse_buf` cuts the buffer into words, and if there
are any a child executes them. `parse_buf` keeps its result in the global
`current_cmd`, so a call starts from what the previous one left there.

A pointer in `argv` is `NULL` or one of the rows of `commands`. Every store
to `current_cmd` is recorded together with the place it goes to, so that
"inside the array" can be said of it. The prompt is only printed and is left
out, and so is the child that goes on with this loop after an `exec` that
failed: it is another run of `Shell.read`, from the same state.
-/
import Risky321.Lib.Words

namespace Risky321.User

open Risky321.Lib

def maxCmdArgs : Nat := 10
def maxCmdLen : Nat := 101
def bufSize : Nat := 101

def space : UInt8 := 32
def newline : UInt8 := 10

/-- `struct parsed_buf`; `some i` in `argv` is the address of `commands[i]`. -/
structure ParsedBuf where
  argc : Nat
  argv : Nat → Option Nat
  commands : Nat → Nat → UInt8

/-- The fields of `current_cmd` that a store can go to. -/
inductive Store
  | argc
  | argv (i : Nat)
  | commands (row col : Nat)
  deriving DecidableEq, Repr

/-- The store is inside the array it goes to. -/
def Store.Inside : Store → Prop
  | .argc => True
  | .argv i => i < maxCmdArgs + 1
  | .commands row col => row < maxCmdArgs ∧ col < maxCmdLen

/-- `current_cmd`, the locals `argc` and `argv_pos` of `parse_buf`, the stores
made so far and what has been printed. -/
structure Parse where
  cmd : ParsedBuf
  argc : Nat
  argvPos : Nat
  stores : List Store
  printed : List String

def Parse.setCmdArgc (p : Parse) (v : Nat) : Parse :=
  { p with cmd := { p.cmd with argc := v }, stores := p.stores ++ [.argc] }

def Parse.setArgv (p : Parse) (i : Nat) (v : Option Nat) : Parse :=
  { p with cmd := { p.cmd with argv := Function.update p.cmd.argv i v },
           stores := p.stores ++ [.argv i] }

/-- `argv[i] = commands[i]` for the first `n` rows. -/
def Parse.setArgvs (p : Parse) : Nat → Parse
  | 0 => p
  | n + 1 => (p.setArgvs n).setArgv n (some n)

/-- `current_cmd.commands[argc][argv_pos] = c`. -/
def Parse.putChar (p : Parse) (c : UInt8) : Parse :=
  let row := Function.update (p.cmd.commands p.argc) p.argvPos c
  { p with cmd := { p.cmd with commands := Function.update p.cmd.commands p.argc row },
           stores := p.stores ++ [.commands p.argc p.argvPos] }

def tooManyArguments : String := "Shell Command Parse Error: Too many arguments.\n"

/-- The loop over `buf`; `false` is the `return 0` in it. -/
def parseLoop : List UInt8 → Parse → Bool × Parse
  | [], p => (true, p)
  | b :: bs, p =>
    if b = space then
      if p.argvPos = 0 then parseLoop bs p
      else
        let p := p.putChar 0
        let p := p.setCmdArgc (p.cmd.argc + 1)
        parseLoop bs { p with argc := p.argc + 1, argvPos := 0 }
    else if maxCmdArgs ≤ p.argc then
      (false, { p with printed := p.printed ++ [tooManyArguments] })
    else
      let p := p.putChar b
      let p := { p with argvPos := p.argvPos + 1 }
      if b = 0 then
        if p.argvPos = 1 then (true, p) else (true, p.setCmdArgc (p.cmd.argc + 1))
      else parseLoop bs p

/-- `parse_buf`: the value it returns, and what it leaves. -/
def parseBuf (buf : Vector UInt8 bufSize) (cmd : ParsedBuf) : Nat × Parse :=
  let p : Parse := { cmd := cmd, argc := 0, argvPos := 0, stores := [], printed := [] }
  let p := p.setCmdArgc 0
  if buf[0] = 0 then (0, p.setCmdArgc 0)
  else
    match parseLoop buf.toList p with
    | (false, p) => (0, p)
    | (true, p) =>
      let p := p.setArgvs p.cmd.argc
      let p := p.setArgv p.cmd.argc none
      (p.cmd.argc, p)

/-- A string in a row: the bytes up to the first NUL. -/
def rowString (row : Nat → UInt8) : List UInt8 :=
  ((List.range maxCmdLen).map row).takeWhile (· ≠ 0)

/-- The argument strings of `usys_exec(argv[0], argv)`: those of the pointers before the first `NULL`. -/
def ParsedBuf.arguments (cmd : ParsedBuf) : List (List UInt8) :=
  (((List.range (maxCmdArgs + 1)).map cmd.argv).takeWhile Option.isSome).filterMap
    fun a => a.map fun i => rowString (cmd.commands i)

/-! ## `main` -/

/-- What `main` keeps between two bytes; `i` counts the bytes of the present reading loop. -/
structure Shell where
  buf : Vector UInt8 bufSize
  i : Fin bufSize
  cmd : ParsedBuf

/-- After the reading loop: the command, if there is one, is executed by a child. -/
def Shell.execute (s : Shell) : Shell × List (List (List UInt8)) :=
  let r := parseBuf s.buf s.cmd
  ({ s with i := ⟨0, by decide⟩, cmd := r.2.cmd }, if 0 < r.1 then [r.2.cmd.arguments] else [])

/-- One byte that `usys_read` delivers, and all that `main` does before it asks for the next. -/
def Shell.read (s : Shell) (c : UInt8) : Shell × List (List (List UInt8)) :=
  let s := { s with buf := s.buf.set s.i c }
  if c = newline then
    Shell.execute { s with buf := s.buf.set s.i 0 }
  else if h : s.i.val + 1 < bufSize then
    ({ s with i := ⟨s.i.val + 1, h⟩ }, [])
  else Shell.execute s

/-- Standard input, byte by byte; the commands in the order they are executed. -/
def Shell.feed (s : Shell) : List UInt8 → Shell × List (List (List UInt8))
  | [] => (s, [])
  | c :: cs =>
    let (s', out) := s.read c
    let (s'', outs) := s'.feed cs
    (s'', out ++ outs)

/-- `main` before its first read. -/
def Shell.start (buf : Vector UInt8 bufSize) (cmd : ParsedBuf) : Shell where
  buf := buf.set (bufSize - 1) 0 (by decide)
  i := ⟨0, by decide⟩
  cmd := { cmd with argv := Function.update cmd.argv maxCmdArgs none }

end Risky321.User
