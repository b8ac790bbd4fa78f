/-
Risky321.User.ShellTheorems — what `parse_buf` accepts and what the shell runs.

The tokenizer is compared with a scanner on lists, `scan`, which has the
finished words and the unfinished one as its state and no arrays. `Scanned`
relates the two: the rows of `commands` that are complete, the row being
written, and the two counters. `parseLoop_refines` is the simulation; it
holds for every buffer, so the bounds of all stores come with it.

`scan_terminated` then says what the scanner makes of a NUL-terminated
buffer: the words, unless there are more than ten, or ten and a space behind
them. The limit is tested before the byte is looked at, so the NUL after the
space counts as the start of an eleventh word.

§4 is the reading loop of `main`.
-/
import Risky321.User.Shell
import Mathlib.Data.List.TakeWhile

namespace Risky321.User

open Risky321.Lib

/-! ## §1 A scanner on lists -/

/-- The words when the unfinished one ends. -/
def finish (ws : List (List UInt8)) (w : List UInt8) : List (List UInt8) :=
  if w = [] then ws else ws ++ [w]

/-- The tokenizer on lists: `none` when there are too many words. -/
def scan : List UInt8 → List (List UInt8) → List UInt8 → Option (List (List UInt8))
  | [], ws, _ => some ws
  | b :: bs, ws, w =>
    if b = space then scan bs (finish ws w) []
    else if maxCmdArgs ≤ ws.length then none
    else if b = 0 then some (finish ws w)
    else scan bs ws (w ++ [b])

variable {ws vs : List (List UInt8)} {w l bs : List UInt8} {b : UInt8} {p : Parse}
  {buf : Vector UInt8 bufSize} {cmd : ParsedBuf}

theorem finish_eq_words (hw : space ∉ w) : finish ws w = ws ++ words space w := by
  rw [words_of_not_mem hw, finish]
  split <;> simp

theorem endsInWord_of_not_mem (hne : w ≠ []) (hw : space ∉ w) : EndsInWord space w :=
  ⟨w.getLast hne, List.getLast?_eq_some_getLast hne, fun h => hw (h ▸ List.getLast_mem hne)⟩

/-- At least one word has been started. -/
theorem words_ne_nil (hne : w ≠ []) (hw : space ∉ w) : words space (w ++ l) ≠ [] := by
  induction l generalizing w with
  | nil => simp [words_of_not_mem hw, hne]
  | cons b l ih =>
    by_cases hb : b = space
    · rw [hb, words_append_sep, words_of_not_mem hw, if_neg hne]
      simp
    · have hw' : space ∉ w ++ [b] := by simp [hw, Ne.symm hb]
      simpa using ih (w := w ++ [b]) (by simp) hw'

theorem endsInWord_append_sep : EndsInWord space (w ++ space :: l) ↔ EndsInWord space l := by
  cases l with
  | nil => simp [EndsInWord]
  | cons a l => simp [EndsInWord, List.getLast?_append]

/-- Up to ten words are accepted, and the tenth one must be the end of the line. -/
def Accepted (vs : List (List UInt8)) (l : List UInt8) : Prop :=
  vs.length < maxCmdArgs ∨ (vs.length = maxCmdArgs ∧ EndsInWord space l)

instance : Decidable (Accepted vs l) := inferInstanceAs (Decidable (_ ∨ _))

theorem accepted_append_sep : Accepted vs (w ++ space :: l) ↔ Accepted vs l := by
  rw [Accepted, Accepted, endsInWord_append_sep]

/-- The scanner on a NUL-terminated list. -/
theorem scan_terminated (hl : 0 ∉ l) (hw : space ∉ w) (hfull : ws.length ≤ maxCmdArgs)
    (hroom : w ≠ [] → ws.length < maxCmdArgs) :
    scan (l ++ 0 :: bs) ws w = if Accepted (ws ++ words space (w ++ l)) (w ++ l)
      then some (ws ++ words space (w ++ l)) else none := by
  induction l generalizing ws w with
  | nil =>
    rw [List.nil_append, List.append_nil, scan, if_neg (by decide)]
    by_cases hten : maxCmdArgs ≤ ws.length
    · -- the NUL is taken for the start of an eleventh word
      obtain rfl : w = [] := by
        by_contra hne
        exact absurd (hroom hne) (by omega)
      rw [if_pos hten, if_neg]
      simp only [Accepted, words_nil, List.append_nil, EndsInWord]
      simp
      omega
    · rw [if_neg hten, if_pos rfl, finish_eq_words hw, if_pos]
      by_cases hne : w = []
      · simp [Accepted, hne]
        omega
      · have hone : (ws ++ words space w).length = ws.length + 1 := by
          simp [words_of_not_mem hw, hne]
        have hend := endsInWord_of_not_mem hne hw
        simp only [Accepted, hone]
        by_cases hlt : ws.length + 1 < maxCmdArgs
        · exact .inl hlt
        · exact .inr ⟨by omega, hend⟩
  | cons b l ih =>
    have hl' : 0 ∉ l := fun h => hl (List.mem_cons_of_mem _ h)
    have hb0 : b ≠ 0 := fun h => hl (h ▸ List.mem_cons_self)
    rw [List.cons_append, scan]
    by_cases hb : b = space
    · have hlen : (finish ws w).length ≤ maxCmdArgs := by
        rw [finish]
        split
        · exact hfull
        · next hne =>
          have := hroom hne
          simp
          omega
      rw [if_pos hb, ih hl' (by simp) hlen (by simp), hb, words_append_sep, finish_eq_words hw,
        List.nil_append, List.append_assoc]
      exact if_congr accepted_append_sep.symm rfl rfl
    · rw [if_neg hb]
      by_cases hten : maxCmdArgs ≤ ws.length
      · obtain rfl : w = [] := by
          by_contra hne
          exact absurd (hroom hne) (by omega)
        have hmore : words space ([b] ++ l) ≠ [] := words_ne_nil (by simp) (by simp [Ne.symm hb])
        have hlen := List.length_pos_of_ne_nil hmore
        rw [if_pos hten, if_neg]
        simp only [Accepted, List.nil_append, List.length_append]
        simp only [List.singleton_append] at hlen
        omega
      · have hw' : space ∉ w ++ [b] := by simp [hw, Ne.symm hb]
        rw [if_neg hten, if_neg hb0, ih hl' hw' hfull (fun _ => by omega)]
        simp

/-! ## §2 The tokenizer refines the scanner -/

/-- The row holds the string and the NUL behind it. -/
structure StringAt (row : Nat → UInt8) (v : List UInt8) : Prop where
  bytes : ∀ j (h : j < v.length), row j = v[j]
  nul : row v.length = 0

/-- A word that fits a row. -/
structure IsArg (v : List UInt8) : Prop where
  nonempty : v ≠ []
  noNul : 0 ∉ v
  fits : v.length < maxCmdLen

/-- The finished words, with their count, in the rows of `commands`. -/
structure Complete (vs : List (List UInt8)) (p : Parse) : Prop where
  argc : p.cmd.argc = vs.length
  full : vs.length ≤ maxCmdArgs
  rows : ∀ i (h : i < vs.length), StringAt (p.cmd.commands i) vs[i]
  args : ∀ v ∈ vs, IsArg v
  stores : ∀ s ∈ p.stores, s.Inside

/-- The tokenizer between two bytes, with finished words `ws` and `w` unfinished. -/
structure Scanned (ws : List (List UInt8)) (w : List UInt8) (p : Parse) : Prop
    extends Complete ws p where
  words : p.argc = ws.length
  argvPos : p.argvPos = w.length
  row : ∀ j (h : j < w.length), p.cmd.commands ws.length j = w[j]
  noNul : 0 ∉ w
  room : w ≠ [] → ws.length < maxCmdArgs

/-- The loop has done what the scanner does. -/
structure Refines (o : Option (List (List UInt8))) (r : Bool × Parse) : Prop where
  returned : r.1 = o.isSome
  complete : ∀ vs, o = some vs → Complete vs r.2
  stores : ∀ s ∈ r.2.stores, s.Inside

/-- Writing at the end of the unfinished word leaves the finished rows alone. -/
theorem Scanned.putChar_row (h : Scanned ws w p) (b : UInt8) {i : Nat} (hi : i < ws.length) :
    (p.putChar b).cmd.commands i = p.cmd.commands i := by
  have hne : i ≠ p.argc := by
    rw [h.words]
    omega
  simp [Parse.putChar, Function.update_of_ne hne]

theorem Scanned.putChar_at (h : Scanned ws w p) (b : UInt8) :
    (p.putChar b).cmd.commands ws.length
      = Function.update (p.cmd.commands ws.length) w.length b := by
  simp [Parse.putChar, h.words, h.argvPos]

/-- The store of a byte of a word, or of the NUL behind one, is inside. -/
theorem Scanned.putChar_stores (h : Scanned ws w p) (b : UInt8) (hlt : ws.length < maxCmdArgs)
    (hfit : w.length < maxCmdLen) : ∀ s ∈ (p.putChar b).stores, s.Inside := by
  intro s hs
  rcases List.mem_append.mp hs with hs | hs
  · exact h.stores s hs
  · obtain rfl := List.mem_singleton.mp hs
    exact ⟨by rw [h.words]; exact hlt, by rw [h.argvPos]; exact hfit⟩

/-- The NUL behind the unfinished word makes it one more finished word. -/
theorem Scanned.finished (h : Scanned ws w p) (hne : w ≠ []) (hfit : w.length < maxCmdLen) :
    Complete (ws ++ [w]) ((p.putChar 0).setCmdArgc ((p.putChar 0).cmd.argc + 1)) := by
  have hroom := h.room hne
  refine ⟨?_, by simp; omega, fun i hi => ?_, fun v hv => ?_, fun s hs => ?_⟩
  · simp [Parse.setCmdArgc, Parse.putChar, h.argc]
  · simp only [Parse.setCmdArgc]
    by_cases hlt : i < ws.length
    · rw [h.putChar_row 0 hlt, List.getElem_append_left hlt]
      exact h.rows i hlt
    · obtain rfl : i = ws.length := by
        simp at hi
        omega
      rw [h.putChar_at]
      refine ⟨fun j hj => ?_, ?_⟩
      · simp only [List.getElem_concat_length] at hj ⊢
        rw [Function.update_of_ne (by omega), h.row j hj]
      · simp
  · rcases List.mem_append.mp hv with hv | hv
    · exact h.args v hv
    · obtain rfl := List.mem_singleton.mp hv
      exact ⟨hne, h.noNul, hfit⟩
  · rcases List.mem_append.mp hs with hs | hs
    · exact h.putChar_stores 0 hroom hfit s hs
    · obtain rfl := List.mem_singleton.mp hs
      trivial

/-- A NUL that no word stands before. -/
theorem Scanned.blank (h : Scanned ws [] p) (hlt : ws.length < maxCmdArgs) :
    Complete ws (p.putChar 0) where
  argc := h.argc
  full := h.full
  rows i hi := by
    rw [h.putChar_row 0 hi]
    exact h.rows i hi
  args := h.args
  stores := h.putChar_stores 0 hlt (by simp [maxCmdLen])

/-- A byte of a word. -/
theorem Scanned.char (h : Scanned ws w p) (hb : b ≠ 0) (hlt : ws.length < maxCmdArgs)
    (hfit : w.length < maxCmdLen) :
    Scanned ws (w ++ [b]) { p.putChar b with argvPos := (p.putChar b).argvPos + 1 } where
  argc := h.argc
  full := h.full
  rows i hi := by
    show StringAt ((p.putChar b).cmd.commands i) ws[i]
    rw [h.putChar_row b hi]
    exact h.rows i hi
  args := h.args
  stores := h.putChar_stores b hlt hfit
  words := h.words
  argvPos := by simp [Parse.putChar, h.argvPos]
  row j hj := by
    show (p.putChar b).cmd.commands ws.length j = _
    rw [h.putChar_at]
    by_cases hjw : j < w.length
    · rw [Function.update_of_ne (by omega), List.getElem_append_left hjw, h.row j hjw]
    · obtain rfl : j = w.length := by
        simp at hj
        omega
      simp
  noNul := by simp [h.noNul, Ne.symm hb]
  room _ := hlt

theorem refines_some (h : Complete vs p) : Refines (some vs) (true, p) :=
  ⟨rfl, fun us hus => by cases hus; exact h, h.stores⟩

/-- The loop simulates the scanner. -/
theorem parseLoop_refines (h : Scanned ws w p) (hlen : w.length + bs.length ≤ maxCmdLen) :
    Refines (scan bs ws w) (parseLoop bs p) := by
  induction bs generalizing ws w p with
  | nil => exact refines_some h.toComplete
  | cons b bs ih =>
    rw [List.length_cons] at hlen
    have hfit : w.length < maxCmdLen := by omega
    rw [scan, parseLoop]
    by_cases hb : b = space
    · rw [if_pos hb, if_pos hb]
      by_cases hw : w = []
      · rw [if_pos (by rw [h.argvPos, hw]; rfl), finish, if_pos hw]
        subst hw
        exact ih h (by simp at hlen ⊢; omega)
      · rw [if_neg (by rw [h.argvPos]; exact fun h0 => hw (List.length_eq_zero_iff.mp h0)),
          finish, if_neg hw]
        refine ih ?_ (by simp; omega)
        exact { h.finished hw hfit with
          words := by simp [Parse.setCmdArgc, Parse.putChar, h.words]
          argvPos := rfl
          row := fun j hj => absurd hj (by simp)
          noNul := by simp
          room := by simp }
    · rw [if_neg hb, if_neg hb, h.words]
      by_cases hten : maxCmdArgs ≤ ws.length
      · rw [if_pos hten, if_pos hten]
        exact ⟨rfl, by simp, h.stores⟩
      · have hlt : ws.length < maxCmdArgs := by omega
        rw [if_neg hten, if_neg hten]
        by_cases hb0 : b = 0
        · subst hb0
          rw [if_pos rfl, if_pos rfl]
          by_cases hw : w = []
          · subst hw
            have hc := h.blank hlt
            have hone : (p.putChar 0).argvPos + 1 = 1 := by
              show p.argvPos + 1 = 1
              rw [h.argvPos]
              rfl
            rw [if_pos hone]
            exact refines_some ⟨hc.argc, hc.full, hc.rows, hc.args, hc.stores⟩
          · have hc := h.finished hw hfit
            have hmore : ¬ (p.putChar 0).argvPos + 1 = 1 := by
              show ¬ p.argvPos + 1 = 1
              rw [h.argvPos]
              have := List.length_pos_of_ne_nil hw
              omega
            rw [if_neg hmore, finish, if_neg hw]
            exact refines_some ⟨hc.argc, hc.full, hc.rows, hc.args, hc.stores⟩
        · rw [if_neg hb0, if_neg hb0]
          exact ih (h.char hb0 hlt hfit) (by simp; omega)

/-! ## §3 `parse_buf` -/

/-- What the caller of `parse_buf` finds when the value returned is not 0. -/
structure Parsed (vs : List (List UInt8)) (cmd : ParsedBuf) : Prop where
  full : vs.length ≤ maxCmdArgs
  argv : ∀ i < vs.length, cmd.argv i = some i
  null : cmd.argv vs.length = none
  rows : ∀ i (h : i < vs.length), StringAt (cmd.commands i) vs[i]
  args : ∀ v ∈ vs, IsArg v

@[simp] theorem setArgv_argc (p : Parse) (i : Nat) (a : Option Nat) :
    (p.setArgv i a).cmd.argc = p.cmd.argc := rfl

@[simp] theorem setArgv_commands (p : Parse) (i : Nat) (a : Option Nat) :
    (p.setArgv i a).cmd.commands = p.cmd.commands := rfl

@[simp] theorem setArgv_stores (p : Parse) (i : Nat) (a : Option Nat) :
    (p.setArgv i a).stores = p.stores ++ [.argv i] := rfl

@[simp] theorem setArgv_self (p : Parse) (i : Nat) (a : Option Nat) :
    (p.setArgv i a).cmd.argv i = a := by
  simp [Parse.setArgv]

theorem setArgv_of_ne (p : Parse) {i j : Nat} (a : Option Nat) (h : j ≠ i) :
    (p.setArgv i a).cmd.argv j = p.cmd.argv j := by
  simp [Parse.setArgv, h]

@[simp] theorem setArgvs_argc (p : Parse) (n : Nat) : (p.setArgvs n).cmd.argc = p.cmd.argc := by
  induction n with
  | zero => rfl
  | succ n ih => rw [Parse.setArgvs, setArgv_argc, ih]

@[simp] theorem setArgvs_commands (p : Parse) (n : Nat) :
    (p.setArgvs n).cmd.commands = p.cmd.commands := by
  induction n with
  | zero => rfl
  | succ n ih => rw [Parse.setArgvs, setArgv_commands, ih]

theorem setArgvs_argv (p : Parse) {n i : Nat} (h : i < n) :
    (p.setArgvs n).cmd.argv i = some i := by
  induction n with
  | zero => omega
  | succ n ih =>
    rw [Parse.setArgvs]
    by_cases hn : i = n
    · rw [hn, setArgv_self]
    · rw [setArgv_of_ne _ _ hn, ih (by omega)]

/-- The loop stores to the first `n` pointers. -/
theorem setArgvs_stores {n : Nat} (hp : ∀ s ∈ p.stores, s.Inside) (hn : n ≤ maxCmdArgs + 1) :
    ∀ s ∈ (p.setArgvs n).stores, s.Inside := by
  induction n with
  | zero => exact hp
  | succ n ih =>
    intro s hs
    rw [Parse.setArgvs, setArgv_stores, List.mem_append, List.mem_singleton] at hs
    rcases hs with hs | rfl
    · exact ih (by omega) s hs
    · exact hn

/-- The words the scanner finds in the buffer. -/
def scanBuf (buf : Vector UInt8 bufSize) : Option (List (List UInt8)) := scan buf.toList [] []

/-- `parse_buf` behind its loop. -/
theorem Complete.pointed (h : Complete vs p) :
    Parsed vs ((p.setArgvs p.cmd.argc).setArgv p.cmd.argc none).cmd ∧
      ∀ s ∈ ((p.setArgvs p.cmd.argc).setArgv p.cmd.argc none).stores, s.Inside := by
  have hfull := h.full
  rw [h.argc]
  refine ⟨⟨hfull, fun i hi => ?_, setArgv_self _ _ _, fun i hi => ?_, h.args⟩, fun s hs => ?_⟩
  · rw [setArgv_of_ne _ _ (by omega), setArgvs_argv p hi]
  · rw [setArgv_commands, setArgvs_commands]
    exact h.rows i hi
  · rw [setArgv_stores, List.mem_append, List.mem_singleton] at hs
    rcases hs with hs | rfl
    · exact setArgvs_stores h.stores (by omega) s hs
    · show vs.length < maxCmdArgs + 1
      omega

/-- The tokenizer's state before the loop. -/
theorem scanned_start (cmd : ParsedBuf) :
    Scanned [] [] (Parse.setCmdArgc { cmd := cmd, argc := 0, argvPos := 0, stores := [], printed := [] } 0) where
  argc := rfl
  full := by simp
  rows i hi := absurd hi (by simp)
  args := by simp
  stores s hs := by
    obtain rfl := List.mem_singleton.mp hs
    trivial
  words := rfl
  argvPos := rfl
  row j hj := absurd hj (by simp)
  noNul := by simp
  room h := absurd rfl h

/-- A buffer that begins with a NUL has no words. -/
theorem scanBuf_of_empty (h : buf[0] = 0) : scanBuf buf = some [] := by
  have hhead : buf.toList.head? = some 0 := by
    rw [List.head?_eq_getElem?, Vector.getElem?_toList, Vector.getElem?_eq_getElem (by decide), h]
  obtain ⟨as, has⟩ := List.head?_eq_some_iff.mp hhead
  rw [scanBuf, has]
  rfl

/-- `parse_buf` returns the number of words the scanner finds, with the words
in the rows and `argv` pointing at them. -/
theorem parseBuf_refines (buf : Vector UInt8 bufSize) (cmd : ParsedBuf) :
    (parseBuf buf cmd).1 = ((scanBuf buf).getD []).length ∧
      (∀ vs, scanBuf buf = some vs → vs ≠ [] → Parsed vs (parseBuf buf cmd).2.cmd) ∧
      ∀ s ∈ (parseBuf buf cmd).2.stores, s.Inside := by
  rw [parseBuf]
  by_cases h0 : buf[0] = 0
  · rw [if_pos h0, scanBuf_of_empty h0]
    refine ⟨rfl, fun vs hvs hne => ?_, ?_⟩
    · cases hvs
      exact absurd rfl hne
    · simp [Parse.setCmdArgc, Store.Inside]
  · have hlen : ([] : List UInt8).length + buf.toList.length ≤ maxCmdLen := by
      rw [Vector.length_toList, List.length_nil, Nat.zero_add]
      decide
    have href := parseLoop_refines (scanned_start cmd) hlen
    rw [if_neg h0]
    rw [← scanBuf] at href
    generalize parseLoop buf.toList _ = r at href ⊢
    obtain ⟨ran, p⟩ := r
    cases hscan : scanBuf buf with
    | none =>
      obtain rfl : ran = false := by simpa [hscan] using href.returned
      exact ⟨rfl, by simp, href.stores⟩
    | some vs =>
      obtain rfl : ran = true := by simpa [hscan] using href.returned
      have hdone := href.complete vs hscan
      obtain ⟨hparsed, hstores⟩ := hdone.pointed
      simp only [setArgvs_argc, setArgv_argc]
      refine ⟨hdone.argc, fun us hus _ => ?_, hstores⟩
      cases hus
      exact hparsed

/-! ## §4 What `parse_buf` accepts -/

/-- An array read up to the first element that fails a test. -/
theorem takeWhile_map_range {α : Type} {f : Nat → α} {q : α → Bool} {n N : Nat} (hn : n < N)
    (hpos : ∀ j < n, q (f j) = true) (hneg : q (f n) = false) :
    ((List.range N).map f).takeWhile q = (List.range n).map f := by
  obtain ⟨k, rfl⟩ : ∃ k, N = n + (k + 1) := ⟨N - n - 1, by omega⟩
  rw [List.range_add, List.map_append, List.takeWhile_append_of_pos]
  · simp [List.range_succ_eq_map, hneg]
  · intro a ha
    obtain ⟨j, hj, rfl⟩ := List.mem_map.mp ha
    exact hpos j (List.mem_range.mp hj)

/-- A string that fits its row is read back from it. -/
theorem StringAt.rowString {row : Nat → UInt8} {v : List UInt8} (h : StringAt row v)
    (hv : IsArg v) : rowString row = v := by
  have hpos : ∀ j < v.length, decide (row j ≠ 0) = true := by
    intro j hj
    rw [h.bytes j hj, decide_eq_true_eq]
    exact fun h0 => hv.noNul (h0 ▸ List.getElem_mem hj)
  rw [User.rowString, takeWhile_map_range hv.fits hpos (by simp [h.nul])]
  refine List.ext_getElem (by simp) fun j h1 h2 => ?_
  rw [List.getElem_map, List.getElem_range, h.bytes j h2]

/-- What is passed to `usys_exec` is the words. -/
theorem Parsed.arguments (h : Parsed vs cmd) : cmd.arguments = vs := by
  have hfull := h.full
  rw [ParsedBuf.arguments, takeWhile_map_range (n := vs.length) (by omega)
    (fun j hj => by rw [h.argv j hj]; rfl) (by rw [h.null]; rfl), List.filterMap_map]
  have hsome : ∀ i ∈ List.range vs.length,
      ((fun a : Option Nat => a.map fun i => rowString (cmd.commands i)) ∘ cmd.argv) i
        = some (vs.getD i []) := by
    intro i hi
    have hlt := List.mem_range.mp hi
    rw [Function.comp_apply, h.argv i hlt, Option.map_some,
      (h.rows i hlt).rowString (h.args _ (List.getElem_mem hlt)), List.getD_eq_getElem?_getD,
      List.getElem?_eq_getElem hlt, Option.getD_some]
  rw [List.filterMap_congr hsome]
  refine List.ext_getElem (by simp) fun j h1 h2 => ?_
  simp [h2]

/-- The line in the buffer: the bytes before the first NUL. -/
def lineOf (buf : Vector UInt8 bufSize) : List UInt8 := buf.toList.takeWhile (· ≠ 0)

/-- A NUL-terminated buffer is its line, a NUL, and whatever is behind it. -/
theorem toList_of_nul (h : 0 ∈ buf.toList) :
    0 ∉ lineOf buf ∧ ∃ rest, buf.toList = lineOf buf ++ 0 :: rest := by
  refine ⟨fun h0 => by simpa using List.mem_takeWhile_imp h0, ?_⟩
  have hsplit : lineOf buf ++ buf.toList.dropWhile (· ≠ 0) = buf.toList :=
    List.takeWhile_append_dropWhile
  cases hrest : buf.toList.dropWhile (· ≠ 0) with
  | nil => exact absurd (List.dropWhile_eq_nil_iff.mp hrest 0 h) (by simp)
  | cons a rest =>
    have ha : a = 0 := by
      have hhead := List.head?_dropWhile_not (fun x : UInt8 => decide (x ≠ 0)) buf.toList
      rw [hrest] at hhead
      simpa using hhead
    exact ⟨rest, by rw [← hsplit, hrest, ha]⟩

/-- What the scanner makes of a NUL-terminated buffer. -/
theorem scanBuf_of_nul (h : 0 ∈ buf.toList) : scanBuf buf =
    if Accepted (words space (lineOf buf)) (lineOf buf) then some (words space (lineOf buf))
    else none := by
  obtain ⟨hline, rest, hbuf⟩ := toList_of_nul h
  rw [scanBuf, hbuf, scan_terminated hline (by simp) (by simp) (by simp)]
  rfl

/-- The tokenizer as the caller should see it: a number of words that fits is
returned, with the words in `argv`; no words, or too many, give 0. -/
structure Tokenized (ws : List (List UInt8)) (r : Nat × Parse) : Prop where
  returned : r.1 = if 1 ≤ ws.length ∧ ws.length ≤ maxCmdArgs then ws.length else 0
  args : 1 ≤ ws.length → ws.length ≤ maxCmdArgs → ∀ i (h : i < ws.length),
    ∃ row, r.2.cmd.argv i = some row ∧ StringAt (r.2.cmd.commands row) ws[i]
  null : 1 ≤ ws.length → ws.length ≤ maxCmdArgs → r.2.cmd.argv ws.length = none

/-- A line of ten words with a space behind the last one. -/
def FullWithSpace (l : List UInt8) : Prop :=
  (words space l).length = maxCmdArgs ∧ ¬ EndsInWord space l

theorem accepted_iff : Accepted (words space l) l ↔
    (words space l).length ≤ maxCmdArgs ∧ ¬ FullWithSpace l := by
  rw [Accepted, FullWithSpace]
  constructor
  · rintro (hlt | ⟨hten, hend⟩)
    · exact ⟨by omega, fun h => by omega⟩
    · exact ⟨by omega, fun h => h.2 hend⟩
  · rintro ⟨hle, hfull⟩
    by_cases hten : (words space l).length = maxCmdArgs
    · exact .inr ⟨hten, by_contra fun hend => hfull ⟨hten, hend⟩⟩
    · exact .inl (by omega)

/-- `parse_buf` refuses ten words with a space behind them, and that is all it does wrong. -/
theorem tokenized_iff (cmd : ParsedBuf) (h : 0 ∈ buf.toList) :
    Tokenized (words space (lineOf buf)) (parseBuf buf cmd) ↔ ¬ FullWithSpace (lineOf buf) := by
  obtain ⟨hret, hparsed, -⟩ := parseBuf_refines buf cmd
  rw [scanBuf_of_nul h] at hret hparsed
  constructor
  · intro ht hfull
    have hrefused : ¬ Accepted (words space (lineOf buf)) (lineOf buf) :=
      fun ha => (accepted_iff.mp ha).2 hfull
    have hten := hfull.1
    rw [if_neg hrefused, ht.returned, hten, if_pos (by decide)] at hret
    exact absurd hret (by decide)
  · intro hok
    by_cases ha : Accepted (words space (lineOf buf)) (lineOf buf)
    · have hle := (accepted_iff.mp ha).1
      rw [if_pos ha] at hret hparsed
      have hp := fun h1 => hparsed _ rfl (List.ne_nil_of_length_pos h1)
      refine ⟨?_, fun h1 _ i hi => ⟨i, (hp h1).argv i hi, (hp h1).rows i hi⟩, fun h1 _ => (hp h1).null⟩
      rw [hret, Option.getD_some]
      split <;> omega
    · have hmore : maxCmdArgs < (words space (lineOf buf)).length := by
        by_contra hle
        exact ha (accepted_iff.mpr ⟨by omega, hok⟩)
      rw [if_neg ha] at hret
      refine ⟨?_, fun _ h2 => by omega, fun _ h2 => by omega⟩
      rw [hret, if_neg (by omega)]
      rfl

/-- Where the tokenizer is right, its result is a function of the words. -/
theorem parseBuf_arguments (cmd : ParsedBuf) (h : 0 ∈ buf.toList) (hpos : 0 < (parseBuf buf cmd).1) :
    (parseBuf buf cmd).2.cmd.arguments = words space (lineOf buf) := by
  obtain ⟨hret, hparsed, -⟩ := parseBuf_refines buf cmd
  rw [scanBuf_of_nul h] at hret hparsed
  by_cases ha : Accepted (words space (lineOf buf)) (lineOf buf)
  · rw [if_pos ha] at hret hparsed
    rw [hret] at hpos
    exact (hparsed _ rfl (List.ne_nil_of_length_pos hpos)).arguments
  · rw [hret, if_neg ha] at hpos
    exact absurd hpos (by simp)

/-- The tokenizer splits the line exactly as long as the line is not ten words
and a space behind them; and for such lines leading, repeated and trailing
spaces, which the words do not show, never change the result. -/
theorem parseBuf_tokenized_iff (buf : Vector UInt8 bufSize) (cmd : ParsedBuf) (h : 0 ∈ buf.toList) :
    (Tokenized (words space (lineOf buf)) (parseBuf buf cmd) ↔ ¬ FullWithSpace (lineOf buf)) ∧
    ∀ (buf' : Vector UInt8 bufSize) (cmd' : ParsedBuf), 0 ∈ buf'.toList →
      words space (lineOf buf') = words space (lineOf buf) →
      ¬ FullWithSpace (lineOf buf) → ¬ FullWithSpace (lineOf buf') →
      (parseBuf buf' cmd').1 = (parseBuf buf cmd).1 ∧
        (0 < (parseBuf buf cmd).1 →
          (parseBuf buf' cmd').2.cmd.arguments = (parseBuf buf cmd).2.cmd.arguments) := by
  refine ⟨tokenized_iff cmd h, fun buf' cmd' h' hws hok hok' => ?_⟩
  have hsame : (parseBuf buf' cmd').1 = (parseBuf buf cmd).1 := by
    rw [((tokenized_iff cmd h).mpr hok).returned, ((tokenized_iff cmd' h').mpr hok').returned, hws]
  refine ⟨hsame, fun hpos => ?_⟩
  rw [parseBuf_arguments cmd h hpos, parseBuf_arguments cmd' h' (by omega), hws]

instance : Decidable (FullWithSpace l) := inferInstanceAs (Decidable (_ ∧ _))

/-- A buffer with the given bytes at its front and zeros behind them. -/
def exampleBuf (l : List UInt8) : Vector UInt8 bufSize := Vector.ofFn fun i => l.getD i.val 0

/-- What an earlier command may have left: no `NULL` and no NUL anywhere. -/
def exampleCmd : ParsedBuf where
  argc := 3
  argv _ := some 0
  commands _ _ := 120

/-- `"a a a a a a a a a a"`: ten words. -/
def exampleTenWords : List UInt8 := (List.replicate 9 [97, space]).flatten ++ [97]

/-- Ten words without a space behind them are all there. -/
theorem parseBuf_tokenized_ten :
    (Tokenized (words space (lineOf (exampleBuf exampleTenWords)))
        (parseBuf (exampleBuf exampleTenWords) exampleCmd)) ∧
      (words space (lineOf (exampleBuf exampleTenWords))).length = 10 :=
  ⟨(parseBuf_tokenized_iff (exampleBuf exampleTenWords) exampleCmd (by decide +kernel)).1.mpr
    (by decide +kernel), by decide +kernel⟩

/-- The same ten words with a space behind the last one are refused. -/
theorem parseBuf_refuses_ten_words :
    0 ∈ (exampleBuf (exampleTenWords ++ [space])).toList ∧
      words space (lineOf (exampleBuf (exampleTenWords ++ [space])))
        = words space (lineOf (exampleBuf exampleTenWords)) ∧
      ¬ Tokenized (words space (lineOf (exampleBuf (exampleTenWords ++ [space]))))
        (parseBuf (exampleBuf (exampleTenWords ++ [space])) exampleCmd) := by
  refine ⟨by decide +kernel, by decide +kernel, fun h => ?_⟩
  have hfull : FullWithSpace (lineOf (exampleBuf (exampleTenWords ++ [space]))) := by
    decide +kernel
  exact (tokenized_iff exampleCmd (by decide +kernel)).mp h hfull

/-- Every store is inside its array, and what is returned as an argument list
is one: as many strings as the value says, and a `NULL` behind them. -/
theorem parseBuf_memory_safe (buf : Vector UInt8 bufSize) (cmd : ParsedBuf) :
    (∀ s ∈ (parseBuf buf cmd).2.stores, s.Inside) ∧
    (0 < (parseBuf buf cmd).1 →
      (parseBuf buf cmd).1 ≤ maxCmdArgs ∧
      (parseBuf buf cmd).2.cmd.argv (parseBuf buf cmd).1 = none ∧
      ∀ i < (parseBuf buf cmd).1, (parseBuf buf cmd).2.cmd.argv i = some i ∧
        (parseBuf buf cmd).2.cmd.commands i 0 ≠ 0 ∧
        ∃ n < maxCmdLen, (parseBuf buf cmd).2.cmd.commands i n = 0) := by
  obtain ⟨hret, hparsed, hstores⟩ := parseBuf_refines buf cmd
  refine ⟨hstores, fun hpos => ?_⟩
  cases hscan : scanBuf buf with
  | none =>
    rw [hret, hscan] at hpos
    exact absurd hpos (by simp)
  | some vs =>
    have hlen : (parseBuf buf cmd).1 = vs.length := by rw [hret, hscan, Option.getD_some]
    rw [hlen] at hpos
    have hp := hparsed vs hscan (List.ne_nil_of_length_pos hpos)
    rw [hlen]
    refine ⟨hp.full, hp.null, fun i hi => ⟨hp.argv i hi, ?_, vs[i].length, ?_, ?_⟩⟩
    · have harg := hp.args vs[i] (List.getElem_mem hi)
      have hfirst := List.length_pos_of_ne_nil harg.nonempty
      rw [(hp.rows i hi).bytes 0 hfirst]
      exact fun h0 => harg.noNul (h0 ▸ List.getElem_mem hfirst)
    · exact (hp.args vs[i] (List.getElem_mem hi)).fits
    · exact (hp.rows i hi).nul

/-! ## §5 The reading loop -/

/-- The bytes of a line that `parse_buf` gets to see. -/
def beforeNul (l : List UInt8) : List UInt8 := l.takeWhile (· ≠ 0)

theorem beforeNul_of_not_mem (h : 0 ∉ l) : beforeNul l = l := by
  rw [beforeNul, List.takeWhile_eq_self_iff]
  intro b hb
  simpa using fun h0 : b = 0 => h (h0 ▸ hb)

theorem beforeNul_append : beforeNul (l ++ 0 :: bs) = beforeNul l := by
  induction l with
  | nil => simp [beforeNul]
  | cons b l ih =>
    by_cases hb : b = 0
    · simp [beforeNul, hb]
    · simpa [beforeNul, hb] using ih

/-- `parse_buf` makes a command of the line. -/
def Runs (l : List UInt8) : Prop := words space l ≠ [] ∧ Accepted (words space l) l

instance : Decidable (Runs l) := inferInstanceAs (Decidable (_ ∧ _))

/-- A line gives no command, or one: its words. -/
def OneCommand (l : List UInt8) (out : List (List (List UInt8))) : Prop :=
  out = [] ∨ out = [words space l]

/-- The complete lines of the input. -/
def typedLines (input : List UInt8) : List (List UInt8) := (input.splitOn newline).dropLast

/-- Each command is the words of one of the lines, in order, and no line gives two. -/
def OnlyTyped (input : List UInt8) (out : List (List (List UInt8))) : Prop :=
  ∃ outs, List.Forall₂ OneCommand (typedLines input) outs ∧ out = outs.flatten

/-- The reading loop has seen the bytes `l` of the present line. -/
structure Typed (l : List UInt8) (s : Shell) : Prop where
  count : s.i.val = l.length
  bytes : l <+: s.buf.toList

variable {s : Shell} {c : UInt8} {input cs : List UInt8}

/-- Storing a byte behind what has been read. -/
theorem Typed.set (h : Typed l s) (c : UInt8) :
    ∃ rest, (s.buf.set s.i c s.i.isLt).toList = l ++ c :: rest := by
  obtain ⟨t, ht⟩ := h.bytes
  have hlen := congrArg List.length ht
  have hi := s.i.isLt
  rw [h.count] at hi
  rw [Vector.length_toList, List.length_append] at hlen
  cases t with
  | nil =>
    rw [List.length_nil] at hlen
    omega
  | cons a t =>
    refine ⟨t, ?_⟩
    rw [Vector.toList_set, h.count, ← ht, List.set_append_right _ _ (Nat.le_refl _), Nat.sub_self]
    rfl

/-- A byte of a line that still fits. -/
theorem Typed.char (h : Typed l s) (hc : c ≠ newline) (hlen : l.length + 1 < bufSize) :
    Typed (l ++ [c]) (s.read c).1 ∧ (s.read c).2 = [] := by
  obtain ⟨rest, hrest⟩ := h.set c
  have hi : s.i.val + 1 < bufSize := by
    rw [h.count]
    exact hlen
  rw [Shell.read, if_neg hc, dif_pos hi]
  refine ⟨⟨by simp [h.count], rest, ?_⟩, rfl⟩
  rw [hrest]
  simp

/-- What is executed when the buffer holds a terminated line. -/
theorem execute_of_nul (h : 0 ∈ s.buf.toList) : s.execute.2
    = if Runs (lineOf s.buf) then [words space (lineOf s.buf)] else [] := by
  have hret := (parseBuf_refines s.buf s.cmd).1
  rw [scanBuf_of_nul h] at hret
  rw [Shell.execute]
  by_cases hruns : Runs (lineOf s.buf)
  · rw [if_pos hruns.2, Option.getD_some] at hret
    have hpos : 0 < (parseBuf s.buf s.cmd).1 := by
      rw [hret]
      exact List.length_pos_of_ne_nil hruns.1
    simp only [if_pos hruns, if_pos hpos, parseBuf_arguments s.cmd h hpos]
  · have hzero : ¬ 0 < (parseBuf s.buf s.cmd).1 := by
      rw [hret]
      by_cases ha : Accepted (words space (lineOf s.buf)) (lineOf s.buf)
      · have hnil : words space (lineOf s.buf) = [] := by_contra fun hne => hruns ⟨hne, ha⟩
        rw [if_pos ha, hnil]
        simp
      · rw [if_neg ha]
        simp
    simp only [if_neg hruns, if_neg hzero]

/-- The end of a line: what is executed is the words before the first NUL, if anything. -/
theorem Typed.lineEnd (h : Typed l s) : Typed [] (s.read newline).1 ∧
    (s.read newline).2 = if Runs (beforeNul l) then [words space (beforeNul l)] else [] := by
  obtain ⟨rest, hrest⟩ := h.set 0
  rw [Shell.read, if_pos rfl, Vector.set_set]
  refine ⟨⟨rfl, List.nil_prefix⟩, ?_⟩
  have hline : lineOf (s.buf.set s.i 0) = beforeNul l := by
    rw [lineOf, hrest, ← beforeNul, beforeNul_append]
  rw [execute_of_nul (by rw [hrest]; simp)]
  simp only [hline]

theorem splitOn_of_not_mem (hl : newline ∉ l) : l.splitOn newline = [l] := by
  rw [List.splitOn_eq_splitOnP]
  exact List.splitOnP_eq_singleton fun b hb => by simpa using fun he : b = newline => hl (he ▸ hb)

theorem splitOn_line (hl : newline ∉ l) :
    (l ++ newline :: cs).splitOn newline = l :: cs.splitOn newline := by
  rw [List.splitOn_eq_splitOnP, List.splitOn_eq_splitOnP]
  refine List.splitOnP_append_cons_of_forall_mem (fun b hb => ?_) _ (by simp) _
  simpa using fun he : b = newline => hl (he ▸ hb)

theorem typedLines_line (hl : newline ∉ l) :
    typedLines (l ++ newline :: cs) = l :: typedLines cs := by
  rw [typedLines, splitOn_line hl, List.dropLast_cons_of_ne_nil (List.splitOn_ne_nil _ _)]
  rfl

/-- What has been read of a line is the beginning of one of the lines. -/
theorem exists_line (hl : newline ∉ l) :
    ∃ x ∈ (l ++ cs).splitOn newline, l.length ≤ x.length := by
  induction cs generalizing l with
  | nil =>
    rw [List.append_nil, splitOn_of_not_mem hl]
    exact ⟨l, List.mem_singleton_self l, Nat.le_refl _⟩
  | cons c cs ih =>
    by_cases hc : c = newline
    · rw [hc, splitOn_line hl]
      exact ⟨l, List.mem_cons_self, Nat.le_refl _⟩
    · obtain ⟨x, hx, hlong⟩ := ih (l := l ++ [c]) (by simp [hl, Ne.symm hc])
      rw [List.append_assoc, List.singleton_append] at hx
      refine ⟨x, hx, ?_⟩
      simp only [List.length_append, List.length_singleton] at hlong
      omega

/-- The line gives one command or none, if a NUL in it does not leave a part that runs. -/
theorem oneCommand_line (hnul : 0 ∈ l → ¬ Runs (beforeNul l)) :
    OneCommand l (if Runs (beforeNul l) then [words space (beforeNul l)] else []) := by
  by_cases h0 : 0 ∈ l
  · rw [if_neg (hnul h0)]
    exact .inl rfl
  · rw [beforeNul_of_not_mem h0]
    split
    · exact .inr rfl
    · exact .inl rfl

/-- The loop from the middle of a line on. -/
theorem feed_onlyTyped (h : Typed l s) (hl : newline ∉ l)
    (hfit : ∀ x ∈ (l ++ cs).splitOn newline, x.length < bufSize)
    (hnul : ∀ x ∈ typedLines (l ++ cs), 0 ∈ x → ¬ Runs (beforeNul x)) :
    OnlyTyped (l ++ cs) (s.feed cs).2 := by
  induction cs generalizing l s with
  | nil =>
    refine ⟨[], ?_, rfl⟩
    rw [List.append_nil, typedLines, splitOn_of_not_mem hl]
    exact .nil
  | cons c cs ih =>
    rw [Shell.feed]
    by_cases hc : c = newline
    · subst hc
      obtain ⟨hnext, hout⟩ := h.lineEnd
      rw [splitOn_line hl] at hfit
      rw [typedLines_line hl] at hnul
      obtain ⟨outs, houts, hrest⟩ := ih hnext (by simp)
        (fun x hx => hfit x (List.mem_cons_of_mem _ hx))
        (fun x hx => hnul x (List.mem_cons_of_mem _ hx))
      refine ⟨(s.read newline).2 :: outs, ?_, ?_⟩
      · rw [typedLines_line hl, hout]
        exact .cons (oneCommand_line (hnul l List.mem_cons_self)) houts
      · rw [List.flatten_cons, ← hrest]
    · have hcons : l ++ c :: cs = (l ++ [c]) ++ cs := by simp
      have hl' : newline ∉ l ++ [c] := by simp [hl, Ne.symm hc]
      rw [hcons] at hfit hnul ⊢
      have hlen : l.length + 1 < bufSize := by
        obtain ⟨x, hx, hlong⟩ := exists_line hl'
        have := hfit x hx
        simp only [List.length_append, List.length_singleton] at hlong
        omega
      obtain ⟨hnext, hout⟩ := h.char hc hlen
      have hrest := ih hnext hl' hfit hnul
      simp only [hout, List.nil_append]
      exact hrest

/-- Every line fits the buffer, and a NUL in a line does not leave a part of it that runs. -/
structure Typable (input : List UInt8) : Prop where
  fits : ∀ l ∈ input.splitOn newline, l.length < bufSize
  noNul : ∀ l ∈ typedLines input, 0 ∈ l → ¬ Runs (beforeNul l)

/-- As long as the lines fit, the shell executes what was typed and nothing else. -/
theorem shell_runs_typed (buf : Vector UInt8 bufSize) (cmd : ParsedBuf) {input : List UInt8}
    (h : Typable input) : OnlyTyped input ((Shell.start buf cmd).feed input).2 :=
  feed_onlyTyped (l := []) ⟨rfl, List.nil_prefix⟩ (by simp) h.fits h.noNul

/-- `"ls a\n\nb"`: two complete lines and the beginning of a third. -/
def exampleInput : List UInt8 := [108, 115, space, 97, newline, newline, 98]

/-- The words of the first line are executed, for the empty one nothing is. -/
theorem shell_runs_typed_lines :
    OnlyTyped exampleInput ((Shell.start (Vector.replicate bufSize 0) exampleCmd).feed exampleInput).2 :=
  shell_runs_typed (Vector.replicate bufSize 0) exampleCmd
    ⟨by decide +kernel, by decide +kernel⟩

/-- A line of 103 bytes: `"ls "` and a hundred times `a`. -/
def exampleLongLine : List UInt8 := [108, 115, space] ++ List.replicate 100 97 ++ [newline]

/-- `ls` is executed without its argument, and then the argument's tail as a command. -/
theorem shell_runs_pieces :
    ((Shell.start (Vector.replicate bufSize 0) exampleCmd).feed exampleLongLine).2
        = [[[108, 115]], [[97, 97]]] ∧
      ¬ OnlyTyped exampleLongLine
        ((Shell.start (Vector.replicate bufSize 0) exampleCmd).feed exampleLongLine).2 := by
  have hout : ((Shell.start (Vector.replicate bufSize 0) exampleCmd).feed exampleLongLine).2
      = [[[108, 115]], [[97, 97]]] := by decide +kernel
  refine ⟨hout, ?_⟩
  rintro ⟨outs, houts, hflat⟩
  have hlines : typedLines exampleLongLine = [[108, 115, space] ++ List.replicate 100 97] := by
    decide +kernel
  rw [hout] at hflat
  rw [hlines] at houts
  cases houts with
  | cons hone hnone =>
  cases hnone
  rcases hone with rfl | rfl
  · exact absurd hflat (by simp)
  · exact absurd (congrArg List.length hflat) (by simp)

end Risky321.User
