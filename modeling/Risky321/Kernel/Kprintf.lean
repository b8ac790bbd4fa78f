/-
Risky321.Kernel.Kprintf — `kprintf`, from `kprintf.c`, and what a printf is
to print.

The text of `kprintf.c` is also that of `uprintf.c`. What differs is where a
byte goes: to the UART, or through a system call. So the functions take an
`Output`, and each copy is these functions at its own.

Strings are without the NUL that ends them. `none` is a call without a
meaning: an argument that is missing or not of the kind its conversion takes,
or a store past the end of `str` in `print_dec`.
-/
import Risky321.Lib.Numeral

namespace Risky321.Kernel

open Risky321.Lib

variable {σ : Type}

/-! ## §1 The code -/

/-- A string in memory, up to its NUL. -/
structure CString where
  bytes : List UInt8
  noNul : 0 ∉ bytes
  deriving DecidableEq

/-- An argument: a word, or a pointer to a string. -/
inductive Arg where
  | word (v : BitVec 32)
  | str (s : CString)
  deriving DecidableEq

/-- What a copy has of its own: `hex_lookup`, and what it does to send a byte
and to send the byte an `int` begins with. -/
structure Output (σ : Type) where
  hexLookup : List UInt8
  sendByte : UInt8 → σ → σ
  sendInt : BitVec 32 → σ → σ

/-- A character constant. -/
abbrev ch (c : Char) : UInt8 := c.toUInt8

/-- `str[i] = c`, for `char str[16]` and `i` the number of bytes in it. -/
def store (str : List UInt8) (c : UInt8) : Option (List UInt8) :=
  if str.length < 16 then some (str ++ [c]) else none

/-- The do-while loop of `print_dec`. -/
def digitLoop (hexLookup str : List UInt8) (uval : BitVec 32) : Option (List UInt8) :=
  match store str (hexLookup.getD (uval % 10#32).toNat 0) with
  | none => none
  | some str => if uval / 10#32 = 0#32 then some str else digitLoop hexLookup str (uval / 10#32)
termination_by uval.toNat
decreasing_by
  rename_i hne
  have hdiv : (uval / 10#32).toNat = uval.toNat / 10 := BitVec.toNat_udiv
  have hpos : uval.toNat / 10 ≠ 0 := fun h0 => hne (BitVec.eq_of_toNat_eq (by rw [hdiv, h0]; rfl))
  omega

/-- What `print_dec` puts into `str`. -/
def decBuffer (hexLookup : List UInt8) (val : BitVec 32) (isSigned : Bool) :
    Option (List UInt8) :=
  let sign := val.slt 0#32
  -- `-val` wraps around, so that of the most negative value is itself
  let uval := if isSigned && sign then -val else val
  match digitLoop hexLookup [] uval with
  | none => none
  | some str => if isSigned && sign then store str (ch '-') else some str

/-- `while(i>=0)`, with `i + 1` bytes to go. -/
def sendDown (o : Output σ) (str : List UInt8) : Nat → σ → σ
  | 0, out => out
  | i + 1, out => sendDown o str i (o.sendByte (str.getD i 0) out)

/-- `print_dec`. -/
def printDec (o : Output σ) (val : BitVec 32) (isSigned : Bool) (out : σ) : Option σ :=
  (decBuffer o.hexLookup val isSigned).map fun str => sendDown o str str.length out

/-- `for(int i = 7; i >=0; i--)`, with `i + 1` digits to go. -/
def hexLoop (o : Output σ) (val : BitVec 32) : Nat → σ → σ
  | 0, out => out
  | i + 1, out =>
    hexLoop o val i (o.sendByte (o.hexLookup.getD (val >>> (i * 4) &&& 0x0F#32).toNat 0) out)

/-- `print_hex`. -/
def printHex (o : Output σ) (val : BitVec 32) (out : σ) : σ :=
  hexLoop o val 8 (o.sendByte (ch 'x') (o.sendByte (ch '0') out))

/-- `while(*str)`. -/
def sendString (o : Output σ) : List UInt8 → σ → σ
  | [], out => out
  | c :: str, out => sendString o str (o.sendByte c out)

/-- The loop over the format: the value returned, and what has been sent. -/
def printf (o : Output σ) : List UInt8 → List Arg → σ → Option (Int × σ)
  | [], _, out => some (0, out)
  | c :: format, arguments, out =>
    if c = ch '%' then
      match format with
      | [] => some (0, o.sendByte (ch '%') out)
      | k :: format =>
        if k = ch '%' then printf o format arguments (o.sendByte (ch '%') out)
        else if k = ch 'c' then
          match arguments with
          | .word val :: arguments => printf o format arguments (o.sendInt val out)
          | _ => none
        else if k = ch 'd' then
          match arguments with
          | .word val :: arguments => (printDec o val true out).bind (printf o format arguments)
          | _ => none
        else if k = ch 'u' then
          match arguments with
          | .word val :: arguments => (printDec o val false out).bind (printf o format arguments)
          | _ => none
        else if k = ch 'x' then
          match arguments with
          | .word val :: arguments => printf o format arguments (printHex o val out)
          | _ => none
        else if k = ch 'p' then
          match arguments with
          | .word val :: arguments => printf o format arguments (printHex o val out)
          | _ => none
        else if k = ch 's' then
          match arguments with
          | .str str :: arguments => printf o format arguments (sendString o str.bytes out)
          | _ => none
        else some (-1, out)
    else printf o format arguments (o.sendByte c out)

/-- `hex_lookup`. -/
def hexLookup : List UInt8 :=
  [ '0', '1', '2', '3', '4', '5', '6', '7', '8', '9', 'A', 'B', 'C', 'D', 'E', 'F'].map ch

/-- `UartSendBlocking`, which takes a `uint8_t`, with the bytes the UART has
sent as what is sent to. -/
def uartOutput : Output (List UInt8) where
  hexLookup := hexLookup
  sendByte c sent := sent ++ [c]
  sendInt val sent := sent ++ [UInt8.ofNat val.toNat]

/-- `kprintf`: the value returned, and the bytes the UART has sent. -/
def kprintf (format : CString) (arguments : List Arg) (sent : List UInt8) :
    Option (Int × List UInt8) :=
  printf uartOutput format.bytes arguments sent

/-! ## §2 What is to be printed -/

/-- What a conversion makes of its argument. -/
inductive Conversion where
  | char
  | signed
  | unsigned
  | hex
  | string
  deriving DecidableEq

/-- The conversion a letter stands for. -/
def Conversion.ofLetter (k : UInt8) : Option Conversion :=
  if k = ch 'c' then some .char
  else if k = ch 'd' then some .signed
  else if k = ch 'u' then some .unsigned
  else if k = ch 'x' ∨ k = ch 'p' then some .hex
  else if k = ch 's' then some .string
  else none

/-- A format is literal bytes and conversions; one that is not known ends it. -/
inductive Directive where
  | literal (b : UInt8)
  | convert (k : Conversion)
  | unknown
  deriving DecidableEq

/-- The directives of a format: `%%` is a literal `%`, and so is a `%` that
nothing follows. -/
def directives : List UInt8 → List Directive
  | [] => []
  | b :: format =>
    if b = ch '%' then
      match format with
      | [] => [.literal (ch '%')]
      | k :: format =>
        if k = ch '%' then .literal (ch '%') :: directives format
        else ((Conversion.ofLetter k).elim .unknown .convert) :: directives format
    else .literal b :: directives format

/-- The kind of argument a conversion takes. -/
def Conversion.Takes : Conversion → Arg → Prop
  | .string, .str _ => True
  | .string, .word _ => False
  | _, .word _ => True
  | _, .str _ => False

/-- There is an argument of the right kind for every conversion up to the
first unknown one. -/
def Matching : List Directive → List Arg → Prop
  | [], _ => True
  | .literal _ :: ds, args => Matching ds args
  | .convert k :: ds, a :: args => k.Takes a ∧ Matching ds args
  | .convert _ :: _, [] => False
  | .unknown :: _, _ => True

/-- The bytes of a converted argument. -/
def Conversion.render : Conversion → Arg → Option (List UInt8)
  | .char, .word v => some [UInt8.ofNat v.toNat]
  | .signed, .word v => some (intNumeral v.toInt)
  | .unsigned, .word v => some (natNumeral v.toNat)
  | .hex, .word v => some (ch '0' :: ch 'x' :: hexNumeral 8 v.toNat)
  | .string, .str s => some s.bytes
  | _, _ => none

/-- The bytes a format and its arguments stand for, and the value to return. -/
def reference : List Directive → List Arg → Option (List UInt8 × Int)
  | [], _ => some ([], 0)
  | .literal b :: ds, args => (reference ds args).map fun r => (b :: r.1, r.2)
  | .convert k :: ds, a :: args =>
    (k.render a).bind fun bytes => (reference ds args).map fun r => (bytes ++ r.1, r.2)
  | .convert _ :: _, [] => none
  | .unknown :: _, _ => some ([], -1)

/-! ## §3 Digits -/

theorem hexLookup_getD : ∀ d < 16, hexLookup.getD d 0 = hexDigit d := by
  decide

theorem hexLookup_getD_decimal {d : Nat} (h : d < 10) : hexLookup.getD d 0 = decDigit d := by
  rw [hexLookup_getD d (by omega), hexDigit_of_lt d h]

theorem store_eq {str : List UInt8} (c : UInt8) (h : str.length < 16) :
    store str c = some (str ++ [c]) := if_pos h

/-- The loop writes the numeral from its last digit on. -/
theorem digitLoop_eq (str : List UInt8) (uval : BitVec 32)
    (h : str.length + (natNumeral uval.toNat).length ≤ 16) :
    digitLoop hexLookup str uval = some (str ++ (natNumeral uval.toNat).reverse) := by
  induction hn : uval.toNat using Nat.strongRecOn generalizing str uval with
  | _ n ih =>
    subst hn
    have hmod : (uval % 10#32).toNat = uval.toNat % 10 := BitVec.toNat_umod
    have hdiv : (uval / 10#32).toNat = uval.toNat / 10 := BitVec.toNat_udiv
    have hdigit : hexLookup.getD (uval % 10#32).toNat 0 = decDigit (uval.toNat % 10) := by
      rw [hmod]
      exact hexLookup_getD_decimal (Nat.mod_lt _ (by decide))
    have hzero : uval / 10#32 = 0#32 ↔ uval.toNat < 10 := by
      rw [← BitVec.toNat_inj, hdiv]
      simp [Nat.div_eq_zero_iff]
    rw [digitLoop, hdigit]
    by_cases hlt : uval.toNat < 10
    · rw [natNumeral_of_lt hlt] at h ⊢
      rw [List.length_singleton] at h
      rw [store_eq _ (by omega)]
      simp only [if_pos (hzero.mpr hlt), Nat.mod_eq_of_lt hlt, List.reverse_singleton]
    · rw [natNumeral_of_le (not_lt.mp hlt)] at h ⊢
      rw [List.length_append, List.length_singleton] at h
      rw [store_eq _ (by omega)]
      have hrest := ih (uval.toNat / 10) (by omega) (str ++ [decDigit (uval.toNat % 10)])
        (uval / 10#32) (by rw [hdiv, List.length_append, List.length_singleton]; omega) hdiv
      simp only [if_neg (mt hzero.mp hlt), hrest, List.reverse_append, List.append_assoc,
        List.reverse_singleton]

/-- A word has at most ten decimal digits. -/
theorem natNumeral_word_length (v : BitVec 32) : (natNumeral v.toNat).length ≤ 10 :=
  natNumeral_length_le (by decide) (Nat.lt_trans v.isLt (by decide))

/-- What `%d` and `%u` print. -/
def decNumeral (val : BitVec 32) (isSigned : Bool) : List UInt8 :=
  if isSigned then intNumeral val.toInt else natNumeral val.toNat

/-- Negating the word gives the absolute value, of the most negative value
too. -/
theorem intNumeral_toInt (val : BitVec 32) :
    intNumeral val.toInt =
      if val.slt 0#32 then ch '-' :: natNumeral (-val).toNat else natNumeral val.toNat := by
  have hslt : val.slt 0#32 = decide (val.toInt < 0) := rfl
  have hval : val.toInt =
      if 2 * val.toNat < 2 ^ 32 then (val.toNat : Int) else val.toNat - 2 ^ 32 :=
    BitVec.toInt_eq_toNat_cond val
  have hlt : val.toNat < 2 ^ 32 := val.isLt
  by_cases hneg : val.toInt < 0
  · have habs : (-val.toInt).toNat = (-val).toNat := by
      rw [BitVec.toNat_neg]
      split at hval <;> omega
    rw [hslt, if_pos (decide_eq_true hneg), intNumeral_of_neg hneg, habs]
  · have habs : val.toInt.toNat = val.toNat := by
      split at hval <;> omega
    rw [hslt, if_neg (by simpa using hneg), intNumeral_of_nonneg (Int.not_lt.mp hneg), habs]

/-- `print_dec` stays inside `str`, which ends up with the numeral in
reverse. -/
theorem decBuffer_eq (val : BitVec 32) (isSigned : Bool) :
    decBuffer hexLookup val isSigned = some (decNumeral val isSigned).reverse := by
  have hloop : ∀ uval : BitVec 32,
      digitLoop hexLookup [] uval = some (natNumeral uval.toNat).reverse := by
    intro uval
    have hten := natNumeral_word_length uval
    exact digitLoop_eq [] uval (by rw [List.length_nil]; omega)
  unfold decBuffer decNumeral
  cases isSigned with
  | false => simp [hloop]
  | true =>
    rw [if_pos rfl, intNumeral_toInt]
    cases hsign : val.slt 0#32 with
    | false => simp [hloop]
    | true =>
      have hten := natNumeral_word_length (-val)
      have hstore := store_eq (ch '-')
        (show (natNumeral (-val).toNat).reverse.length < 16 by rw [List.length_reverse]; omega)
      simp only [Bool.and_self, if_true, hloop, hstore, List.reverse_cons]

/-- The most negative `int`, its sign last. -/
example : decBuffer hexLookup 0x80000000#32 true =
    some ([ '8', '4', '6', '3', '8', '4', '7', '4', '1', '2', '-'].map ch) := by
  decide +kernel

/-! ## §4 One run over the format -/

/-- Sending a list of bytes. -/
def Output.sendAll (o : Output σ) (bytes : List UInt8) (out : σ) : σ :=
  bytes.foldl (fun out c => o.sendByte c out) out

/-- The copy looks digits up in the right table, and sends the low byte of an
`int`. -/
structure Output.Proper (o : Output σ) : Prop where
  hexLookup : o.hexLookup = Kernel.hexLookup
  sendInt : ∀ val out, o.sendInt val out = o.sendByte (UInt8.ofNat val.toNat) out

variable {o : Output σ}

@[simp] theorem Output.sendAll_nil (out : σ) : o.sendAll [] out = out := rfl

@[simp] theorem Output.sendAll_cons (c : UInt8) (bytes : List UInt8) (out : σ) :
    o.sendAll (c :: bytes) out = o.sendAll bytes (o.sendByte c out) := rfl

theorem Output.sendAll_append (l l' : List UInt8) (out : σ) :
    o.sendAll (l ++ l') out = o.sendAll l' (o.sendAll l out) := List.foldl_append

theorem sendString_eq (str : List UInt8) (out : σ) : sendString o str out = o.sendAll str out := by
  induction str generalizing out with
  | nil => rfl
  | cons c str ih => rw [sendString, ih, Output.sendAll_cons]

/-- The bytes come out in the opposite order. -/
theorem sendDown_eq (str : List UInt8) (i : Nat) (hi : i ≤ str.length) (out : σ) :
    sendDown o str i out = o.sendAll (str.take i).reverse out := by
  induction i generalizing out with
  | zero => rfl
  | succ i ih =>
    have hget : str.getD i 0 = str[i] := by
      rw [List.getD_eq_getElem?_getD, List.getElem?_eq_getElem (by omega), Option.getD_some]
    rw [sendDown, ih (by omega), hget, List.take_succ_eq_append_getElem (by omega),
      List.reverse_append, List.reverse_singleton, List.singleton_append, Output.sendAll_cons]

theorem printDec_eq (ho : o.Proper) (val : BitVec 32) (isSigned : Bool) (out : σ) :
    printDec o val isSigned out = some (o.sendAll (decNumeral val isSigned) out) := by
  rw [printDec, ho.hexLookup, decBuffer_eq, Option.map_some, sendDown_eq _ _ le_rfl,
    List.take_length, List.reverse_reverse]

theorem hexLoop_eq (ho : o.Proper) (val : BitVec 32) (i : Nat) (out : σ) :
    hexLoop o val i out = o.sendAll (hexNumeral i val.toNat) out := by
  induction i generalizing out with
  | zero => rfl
  | succ i ih =>
    have hdigit : (val >>> (i * 4) &&& 0x0F#32).toNat = val.toNat / 16 ^ i % 16 := by
      rw [BitVec.toNat_and, BitVec.toNat_ushiftRight, Nat.shiftRight_eq_div_pow, Nat.mul_comm i 4,
        Nat.pow_mul]
      exact Nat.and_two_pow_sub_one_eq_mod _ 4
    rw [hexLoop, ih, ho.hexLookup, hdigit, hexLookup_getD _ (Nat.mod_lt _ (by decide)), hexNumeral,
      Output.sendAll_cons]

theorem printHex_eq (ho : o.Proper) (val : BitVec 32) (out : σ) :
    printHex o val out = o.sendAll (ch '0' :: ch 'x' :: hexNumeral 8 val.toNat) out := by
  rw [printHex, hexLoop_eq ho, Output.sendAll_cons, Output.sendAll_cons]

/-- A conversion sends what its argument is rendered as. -/
theorem printf_convert (ho : o.Proper) {k : UInt8} {conv : Conversion} (hp : k ≠ ch '%')
    (hk : Conversion.ofLetter k = some conv) (format : List UInt8) (a : Arg) (args : List Arg)
    (out : σ) :
    printf o (ch '%' :: k :: format) (a :: args) out =
      (conv.render a).bind fun bytes => printf o format args (o.sendAll bytes out) := by
  unfold Conversion.ofLetter at hk
  split_ifs at hk with hc hd hu hx hs <;> cases hk
  · subst hc
    cases a <;> simp [printf, hp, ho.sendInt, Conversion.render]
  · subst hd
    cases a <;> simp [printf, hp, hc, printDec_eq ho, decNumeral, Conversion.render]
  · subst hu
    cases a <;> simp [printf, hp, hc, hd, printDec_eq ho, decNumeral, Conversion.render]
  · have hletter : k = ch 'x' ∨ k ≠ ch 'x' ∧ k = ch 'p' := by
      by_cases h : k = ch 'x'
      · exact .inl h
      · exact .inr ⟨h, hx.resolve_left h⟩
    obtain rfl | ⟨hne, rfl⟩ := hletter
    · cases a <;> simp [printf, hp, hc, hd, hu, printHex_eq ho, Conversion.render]
    · cases a <;> simp [printf, hp, hc, hd, hu, hne, printHex_eq ho, Conversion.render]
  · obtain ⟨hx, hpp⟩ := not_or.mp hx
    subst hs
    cases a <;> simp [printf, hp, hc, hd, hu, hx, hpp, sendString_eq, Conversion.render]

/-- With no argument left a conversion has no meaning. -/
theorem printf_no_argument {k : UInt8} {conv : Conversion} (hp : k ≠ ch '%')
    (hk : Conversion.ofLetter k = some conv) (format : List UInt8) (out : σ) :
    printf o (ch '%' :: k :: format) [] out = none := by
  unfold Conversion.ofLetter at hk
  split_ifs at hk with hc hd hu hx hs
  · subst hc
    simp [printf, hp]
  · subst hd
    simp [printf, hp, hc]
  · subst hu
    simp [printf, hp, hc, hd]
  · obtain rfl | rfl := hx <;> simp [printf, hp, hc, hd, hu]
  · obtain ⟨hx, hpp⟩ := not_or.mp hx
    subst hs
    simp [printf, hp, hc, hd, hu, hx, hpp]

theorem printf_unknown {k : UInt8} (hp : k ≠ ch '%') (hk : Conversion.ofLetter k = none)
    (format : List UInt8) (args : List Arg) (out : σ) :
    printf o (ch '%' :: k :: format) args out = some (-1, out) := by
  unfold Conversion.ofLetter at hk
  split_ifs at hk with hc hd hu hx hs
  obtain ⟨hx, hpp⟩ := not_or.mp hx
  simp [printf, hp, hc, hd, hu, hx, hpp, hs]

/-- The loop prints what the reference says: the induction is on the format,
two bytes at a time where there is a `%`. -/
theorem printf_eq_reference (ho : o.Proper) (format : List UInt8) (args : List Arg) (out : σ) :
    printf o format args out =
      (reference (directives format) args).map fun r => (r.2, o.sendAll r.1 out) := by
  induction format using directives.induct generalizing args out with
  | case1 => rfl
  | case2 => simp [printf, directives, reference]
  | case3 format ih =>
    have hstep : printf o (ch '%' :: ch '%' :: format) args out =
        printf o format args (o.sendByte (ch '%') out) := by simp [printf]
    rw [hstep, ih]
    simp [directives, reference, Option.map_map, Function.comp_def]
  | case4 k format hp ih =>
    have hdirs : directives (ch '%' :: k :: format) =
        ((Conversion.ofLetter k).elim .unknown .convert) :: directives format := by
      simp [directives, hp]
    rw [hdirs]
    cases hk : Conversion.ofLetter k with
    | none =>
      rw [printf_unknown hp hk]
      rfl
    | some conv =>
      cases args with
      | nil =>
        rw [printf_no_argument hp hk]
        rfl
      | cons a args =>
        rw [printf_convert ho hp hk]
        simp [reference, ih, Option.map_bind, Option.map_map, Function.comp_def,
          Output.sendAll_append]
  | case5 b format hb ih =>
    have hstep : printf o (b :: format) args out = printf o format args (o.sendByte b out) := by
      rw [printf.eq_def]
      simp only [if_neg hb]
    have hdirs : directives (b :: format) = .literal b :: directives format := by
      rw [directives.eq_def]
      simp only [if_neg hb]
    rw [hstep, hdirs, ih]
    simp [reference, Option.map_map, Function.comp_def]

/-- With matching arguments there is something to print. -/
theorem Matching.reference_isSome {ds : List Directive} {args : List Arg} (h : Matching ds args) :
    ∃ bytes ret, reference ds args = some (bytes, ret) := by
  induction ds, args using reference.induct with
  | case1 args => exact ⟨[], 0, rfl⟩
  | case2 b ds args ih =>
    obtain ⟨bytes, ret, hr⟩ := ih h
    exact ⟨b :: bytes, ret, by rw [reference, hr]; rfl⟩
  | case3 k ds a args ih =>
    obtain ⟨htakes, hrest⟩ := h
    obtain ⟨bytes, ret, hr⟩ := ih hrest
    obtain ⟨rendered, hrendered⟩ : ∃ l, k.render a = some l := by
      cases k <;> cases a <;> first | exact htakes.elim | exact ⟨_, rfl⟩
    exact ⟨rendered ++ bytes, ret, by rw [reference, hr, hrendered]; rfl⟩
  | case4 => exact h.elim
  | case5 => exact ⟨[], -1, rfl⟩

/-! ## §5 The kernel's copy -/

theorem uartOutput_proper : uartOutput.Proper := ⟨rfl, fun _ _ => rfl⟩

theorem uartOutput_sendAll (bytes sent : List UInt8) :
    uartOutput.sendAll bytes sent = sent ++ bytes := by
  induction bytes generalizing sent with
  | nil => exact (List.append_nil sent).symm
  | cons c bytes ih =>
    rw [Output.sendAll_cons, ih]
    exact List.append_assoc sent [c] bytes

theorem kprintf_eq (format : CString) (args : List Arg) (sent : List UInt8) :
    kprintf format args sent =
      (reference (directives format.bytes) args).map fun r => (r.2, sent ++ r.1) := by
  simp only [kprintf, printf_eq_reference uartOutput_proper, uartOutput_sendAll]

end Risky321.Kernel
