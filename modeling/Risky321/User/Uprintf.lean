/-
Risky321.User.Uprintf — `uprintf`, from `uprintf.c`.

The text is that of `kprintf.c`, with a call of `usys_write` for every byte.
`%c` passes the address of the `int` itself, so what is written is the byte
the `int` begins with in memory, the low one.
-/
import Risky321.Kernel.Kprintf

namespace Risky321.User

open Risky321.Lib
open Risky321.Kernel (CString Arg Output ch printf decBuffer decBuffer_eq Matching directives
  reference printf_eq_reference)

/-- A call of `usys_write`: the descriptor, and the bytes passed. -/
structure WriteCall where
  fd : Nat
  data : List UInt8
  deriving DecidableEq

/-- `usys_write(fd, p, size)`, with `p` the bytes from the pointer on. -/
def usysWrite (fd : Nat) (p : List UInt8) (size : Nat) (calls : List WriteCall) :
    List WriteCall :=
  calls ++ [⟨fd, p.take size⟩]

/-- The bytes of an `int` in memory. -/
def intBytes (val : BitVec 32) : List UInt8 :=
  (List.range 4).map fun i => UInt8.ofNat (val.toNat / 256 ^ i)

/-- `hex_lookup`. -/
def hexLookup : List UInt8 :=
  [ '0', '1', '2', '3', '4', '5', '6', '7', '8', '9', 'A', 'B', 'C', 'D', 'E', 'F'].map ch

/-- Every byte is written to descriptor 1. -/
def syscallOutput : Output (List WriteCall) where
  hexLookup := hexLookup
  sendByte c := usysWrite 1 [c] 1
  sendInt val := usysWrite 1 (intBytes val) 1

/-- `uprintf`: the value returned, and the system calls made. -/
def uprintf (format : CString) (arguments : List Arg) (calls : List WriteCall) :
    Option (Int × List WriteCall) :=
  printf syscallOutput format.bytes arguments calls

theorem intBytes_take (val : BitVec 32) : (intBytes val).take 1 = [UInt8.ofNat val.toNat] := by
  simp [intBytes, List.range_succ]

theorem syscallOutput_proper : syscallOutput.Proper where
  hexLookup := rfl
  sendInt val calls := by
    change calls ++ [⟨1, (intBytes val).take 1⟩] = calls ++ [⟨1, [UInt8.ofNat val.toNat]⟩]
    rw [intBytes_take]

theorem syscallOutput_sendAll (bytes : List UInt8) (calls : List WriteCall) :
    syscallOutput.sendAll bytes calls = calls ++ bytes.map fun b => ⟨1, [b]⟩ := by
  induction bytes generalizing calls with
  | nil => exact (List.append_nil calls).symm
  | cons c bytes ih =>
    rw [Output.sendAll_cons, ih]
    exact List.append_assoc calls [⟨1, [c]⟩] _

theorem uprintf_eq (format : CString) (args : List Arg) (calls : List WriteCall) :
    uprintf format args calls =
      (reference (directives format.bytes) args).map fun r =>
        (r.2, calls ++ r.1.map fun b => ⟨1, [b]⟩) := by
  simp only [uprintf, printf_eq_reference syscallOutput_proper, syscallOutput_sendAll]

/-- Both copies print what the reference says and return its value, whatever
has been printed before; and no store of `print_dec` is past the end of
`str`. -/
theorem printf_meets_reference (format : CString) (args : List Arg)
    (h : Matching (directives format.bytes) args) :
    (∃ bytes ret, reference (directives format.bytes) args = some (bytes, ret) ∧
      (∀ sent, Kernel.kprintf format args sent = some (ret, sent ++ bytes)) ∧
      ∀ calls, uprintf format args calls = some (ret, calls ++ bytes.map fun b => ⟨1, [b]⟩)) ∧
      ∀ val isSigned, decBuffer Kernel.hexLookup val isSigned ≠ none ∧
        decBuffer hexLookup val isSigned ≠ none := by
  constructor
  · obtain ⟨bytes, ret, hr⟩ := h.reference_isSome
    refine ⟨bytes, ret, hr, fun sent => ?_, fun calls => ?_⟩
    · rw [Kernel.kprintf_eq, hr, Option.map_some]
    · rw [uprintf_eq, hr, Option.map_some]
  · intro val isSigned
    have hsome := decBuffer_eq val isSigned
    have hstored : decBuffer Kernel.hexLookup val isSigned ≠ none := by
      rw [hsome]
      exact Option.some_ne_none _
    exact ⟨hstored, hstored⟩

/-- `"%d"`. -/
def exampleFormat : CString := ⟨[37, 100], by simp⟩

/-- `"%d"` with the most negative `int`. -/
theorem printf_meets_reference_min :
    (∃ bytes ret,
      reference (directives exampleFormat.bytes) [.word 0x80000000#32] = some (bytes, ret) ∧
      (∀ sent, Kernel.kprintf exampleFormat [.word 0x80000000#32] sent =
        some (ret, sent ++ bytes)) ∧
      ∀ calls, uprintf exampleFormat [.word 0x80000000#32] calls =
        some (ret, calls ++ bytes.map fun b => ⟨1, [b]⟩)) ∧
      ∀ val isSigned, decBuffer Kernel.hexLookup val isSigned ≠ none ∧
        decBuffer hexLookup val isSigned ≠ none :=
  printf_meets_reference exampleFormat [.word 0x80000000#32] ⟨trivial, trivial⟩

end Risky321.User
