/-
Risky321.Kernel.ArgumentTheorems — the arguments of exec.

`kproc_exec` puts the strings of `argv` on the new stack one by one, then
the array of pointers to them, then sets the three registers in which
`main` finds them. Each of the three stages has its own lemma:
`pushArgs_spec`, `ArgsPushed.array` and `mainRegisters`. None of it hits
what `kproc_exec` works with as long as the arguments fit (`ArgRoom`).
-/
import Risky321.Kernel.StackTheorems
import Mathlib.Data.List.Induction

namespace Risky321.Kernel

open Risky321.Lib

variable {L : Layout} {k k' k'' : KState} {g g' g'' : Ghost} {i j p v idx : Nat}

/-! ## §1 Strings and pointers -/

/-- The bytes `kproc_exec` puts on the new stack: the strings with their
terminating NULs and the `argv` array. -/
def argBytes (argv : List (List UInt8)) : Nat :=
  (argv.map (fun arg => arg.length + 1)).sum + 4 * argv.length

/-- The strings as they come to lie on the stack, from the lowest address on. -/
def argStrings (argv : List (List UInt8)) : List UInt8 :=
  (argv.reverse.map (fun arg => arg ++ [0])).flatten

/-- The entries of `tmp_argv` when the stack pointer starts at `sp`. -/
def argPointers (sp : Nat) : List (List UInt8) → List Nat
  | [] => []
  | arg :: args => sub32 sp (arg.length + 1) :: argPointers (sub32 sp (arg.length + 1)) args

theorem argStrings_concat (argv : List (List UInt8)) (arg : List UInt8) :
    argStrings (argv ++ [arg]) = arg ++ [0] ++ argStrings argv := by
  simp [argStrings]

theorem length_argPointers (sp : Nat) (argv : List (List UInt8)) :
    (argPointers sp argv).length = argv.length := by
  induction argv generalizing sp with
  | nil => rfl
  | cons arg args ih => simp [argPointers, ih]

theorem length_argStrings (argv : List (List UInt8)) :
    (argStrings argv).length = (argv.map (fun arg => arg.length + 1)).sum := by
  induction argv using List.reverseRecOn with
  | nil => rfl
  | append_singleton argv arg ih =>
    rw [argStrings_concat, List.length_append, List.length_append, List.length_singleton, ih]
    simp
    omega

theorem argBytes_eq (argv : List (List UInt8)) :
    argBytes argv = (argStrings argv).length + 4 * argv.length := by
  rw [argBytes, length_argStrings]

/-- The last argument's entry. -/
theorem argPointers_concat (sp : Nat) (argv : List (List UInt8)) (arg : List UInt8)
    (h : (argStrings argv).length + (arg.length + 1) ≤ sp) (hsp : sp < 2 ^ 32) :
    argPointers sp (argv ++ [arg]) =
      argPointers sp argv ++ [sp - ((argStrings argv).length + (arg.length + 1))] := by
  induction argv generalizing sp with
  | nil =>
    simp only [List.nil_append, argPointers, argStrings, List.reverse_nil, List.map_nil,
      List.flatten_nil, List.length_nil, Nat.zero_add] at h ⊢
    rw [sub32_of_le h hsp]
  | cons a argv ih =>
    rw [length_argStrings] at h
    simp only [List.map_cons, List.sum_cons] at h
    have hsub : sub32 sp (a.length + 1) = sp - (a.length + 1) := sub32_of_le (by omega) hsp
    simp only [List.cons_append, argPointers]
    rw [hsub, ih _ (by rw [length_argStrings]; omega) (by omega), length_argStrings,
      length_argStrings]
    simp only [List.map_cons, List.sum_cons]
    rw [show sp - (a.length + 1) - ((argv.map (fun arg => arg.length + 1)).sum + (arg.length + 1)) =
      sp - (a.length + 1 + (argv.map (fun arg => arg.length + 1)).sum + (arg.length + 1)) by omega]

/-! ## §2 Room for them, and the trap frame -/

/-- Where `kproc_exec` may put arguments without hitting what it works with:
the `n` bytes below the end of the stack page are above the static data and
apart from the trap frame. -/
structure ArgRoom (L : Layout) (k : KState) (i page n : Nat) : Prop where
  low : L.freeRamBegin + n ≤ page + 4096
  high : page + 4096 < 2 ^ 32
  trapframe_low : L.freeRamBegin ≤ pcb L k i .trapframe
  apart : page + 4096 ≤ pcb L k i .trapframe ∨ pcb L k i .trapframe + 4096 + n ≤ page + 4096
  size : n ≤ vaUserStackInit
  slot : i < 8

theorem ArgRoom.mono {page n n' : Nat} (h : ArgRoom L k i page n) (hn : n' ≤ n) :
    ArgRoom L k i page n' := by
  have h1 := h.low
  have h2 := h.apart
  have h3 := h.size
  exact ⟨by omega, h.high, h.trapframe_low, by omega, by omega, h.slot⟩

/-- The pointer to the trap frame survives what is written at or above the static data. -/
theorem pcb_trapframe_of_static (hi : i < 8) (hm : ∀ x < L.freeRamBegin, k'.mem x = k.mem x) :
    pcb L k' i .trapframe = pcb L k i .trapframe := by
  have hb := L.proc_bound hi
  simp only [sizeofProcess] at hb
  apply load32_congr
  intro x h1 h2
  simp only [PcbField.offset] at h1 h2
  exact hm x (by omega)

/-- A store to the trap frame, where it is known. -/
theorem setTrapWord_eq {w x tf : Nat} (htf : pcb L k i .trapframe = tf) :
    setTrapWord L k i w x = { k with mem := store32 k.mem (tf + 4 * w) x } := by
  rw [setTrapWord, htf]
  rfl

section TrapFrame

/-! A trap frame above the static data: storing to it cannot change the pointer
to it, so each word reads back. -/

variable {w w' x y : Nat} (hi : i < 8) (hlow : L.freeRamBegin ≤ pcb L k i .trapframe)

include hi hlow

theorem pcb_setTrapWord_static :
    pcb L (setTrapWord L k i w x) i .trapframe = pcb L k i .trapframe :=
  pcb_trapframe_of_static hi (fun _ _ => store32_outside _ _ _ (by omega))

theorem trapWord_same_static (hx : x < 2 ^ 32) : trapWord L (setTrapWord L k i w x) i w = x := by
  rw [trapWord, pcb_setTrapWord_static hi hlow]
  exact load32_store32_of_lt hx

theorem trapWord_ne_static (hne : w' ≠ w) :
    trapWord L (setTrapWord L k i w x) i w' = trapWord L k i w' := by
  rw [trapWord, pcb_setTrapWord_static hi hlow]
  exact load32_store32_disjoint _ _ (by omega)

/-- Where `kproc_exec` leaves the arguments of `main`: `sp`, `a0` and `a1`. -/
theorem mainRegisters {sp argc : Nat} {k1 : KState} (hsp : sp < 2 ^ 32) (hargc : argc < 2 ^ 32)
    (hk1 : k1 = setTrapWord L (setTrapWord L k i tfSp sp) i tfA0 argc)
    (hk' : k' = setTrapWord L k1 i tfA1 (trapWord L k1 i tfSp)) :
    k' = { k with mem := k'.mem } ∧
      (∀ y, y < pcb L k i .trapframe ∨ pcb L k i .trapframe + 4096 ≤ y → k'.mem y = k.mem y) ∧
      trapWord L k' i tfSp = sp ∧ trapWord L k' i tfA0 = argc ∧ trapWord L k' i tfA1 = sp ∧
      ∀ w, w ≠ tfSp → w ≠ tfA0 → w ≠ tfA1 → trapWord L k' i w = trapWord L k i w := by
  have hp0 : pcb L (setTrapWord L k i tfSp sp) i .trapframe = pcb L k i .trapframe :=
    pcb_setTrapWord_static hi hlow
  have hlow0 : L.freeRamBegin ≤ pcb L (setTrapWord L k i tfSp sp) i .trapframe := by rwa [hp0]
  have hp1 : pcb L k1 i .trapframe = pcb L k i .trapframe := by
    rw [hk1, pcb_setTrapWord_static hi hlow0, hp0]
  have hlow1 : L.freeRamBegin ≤ pcb L k1 i .trapframe := by rwa [hp1]
  have hword1 : ∀ w, w ≠ tfA0 → trapWord L k1 i w = trapWord L (setTrapWord L k i tfSp sp) i w := by
    intro w hne
    rw [hk1, trapWord_ne_static hi hlow0 hne]
  have hsp1 : trapWord L k1 i tfSp = sp := by
    rw [hword1 tfSp (by decide), trapWord_same_static hi hlow hsp]
  rw [hsp1] at hk'
  have hword' : ∀ w, w ≠ tfA1 → trapWord L k' i w = trapWord L k1 i w := by
    intro w hne
    rw [hk', trapWord_ne_static hi hlow1 hne]
  refine ⟨by rw [hk', hk1]; rfl, ?_, ?_, ?_, ?_, ?_⟩
  · intro y hy
    rw [hk', setTrapWord_eq hp1, hk1, setTrapWord_eq hp0, setTrapWord_eq rfl]
    simp only
    rw [store32_outside _ _ _ (by simp only [tfA1]; omega),
      store32_outside _ _ _ (by simp only [tfA0]; omega),
      store32_outside _ _ _ (by simp only [tfSp]; omega)]
  · rw [hword' tfSp (by decide), hsp1]
  · rw [hword' tfA0 (by decide), hk1, trapWord_same_static hi hlow0 hargc]
  · rw [hk', trapWord_same_static hi hlow1 hsp]
  · intro w h1 h2 h3
    rw [hword' w h3, hword1 w h2, trapWord_ne_static hi hlow h1]

end TrapFrame

/-! ## §3 The loop -/

/-- After the arguments `argv` were pushed. -/
structure ArgsPushed (L : Layout) (i page : Nat) (k : KState) (argv : List (List UInt8))
    (s : ArgState) : Prop where
  phys : s.phys = page + 4096 - (argStrings argv).length
  strings : ∀ n, (hn : n < (argStrings argv).length) → s.k.mem (s.phys + n) = (argStrings argv)[n]
  pointers : s.tmpArgv = argPointers vaUserStackInit argv
  sp : trapWord L s.k i tfSp = vaUserStackInit - (argStrings argv).length
  frame : ∀ x, x < s.phys ∨ page + 4096 ≤ x →
    x < pcb L k i .trapframe + 4 * tfSp ∨ pcb L k i .trapframe + 4 * tfSp + 4 ≤ x →
    s.k.mem x = k.mem x
  state : s.k = { k with mem := s.k.mem }

theorem ArgsPushed.trapframe {page : Nat} {argv : List (List UInt8)} {s : ArgState}
    (hs : ArgsPushed L i page k argv s) (hr : ArgRoom L k i page (argStrings argv).length) :
    pcb L s.k i .trapframe = pcb L k i .trapframe := by
  have h1 := hr.low
  have h2 := hr.trapframe_low
  refine pcb_trapframe_of_static hr.slot (fun x hx => hs.frame x ?_ (by omega))
  rw [hs.phys]
  omega

theorem length_argStrings_concat (argv : List (List UInt8)) (arg : List UInt8) :
    (argStrings (argv ++ [arg])).length = (argStrings argv).length + (arg.length + 1) := by
  rw [argStrings_concat, List.length_append, List.length_append, List.length_singleton]
  omega

/-- The two stores of a round: `sp`, then the string. -/
theorem ArgsPushed.round {page : Nat} {argv : List (List UInt8)} {s : ArgState}
    (hs : ArgsPushed L i page k argv s) (arg : List UInt8)
    (hr : ArgRoom L k i page (argStrings (argv ++ [arg])).length) :
    pushArg L i s arg =
      { phys := page + 4096 - (argStrings (argv ++ [arg])).length
        tmpArgv := s.tmpArgv ++ [vaUserStackInit - (argStrings (argv ++ [arg])).length]
        k := { s.k with
          mem := storeBytes (store32 s.k.mem (pcb L k i .trapframe + 4 * tfSp)
            (vaUserStackInit - (argStrings (argv ++ [arg])).length))
            (page + 4096 - (argStrings (argv ++ [arg])).length) (arg ++ [0]) } } := by
  have hlen := length_argStrings_concat argv arg
  have htf := hs.trapframe (hr.mono (by omega))
  have h1 := hr.low
  have h3 := hr.size
  have h4 := hr.high
  have h5 := hr.trapframe_low
  have hvi : vaUserStackInit < 2 ^ 32 := by decide
  have hphys : sub32 s.phys (arg.length + 1) =
      page + 4096 - (argStrings (argv ++ [arg])).length := by
    rw [hs.phys, sub32_of_le (by omega) (by omega)]
    omega
  have hspv : sub32 (trapWord L s.k i tfSp) (arg.length + 1) =
      vaUserStackInit - (argStrings (argv ++ [arg])).length := by
    rw [hs.sp, sub32_of_le (by omega) (by omega)]
    omega
  have hnewsp := trapWord_same_static (k := s.k) (w := tfSp) hr.slot (by rw [htf]; exact h5)
    (show vaUserStackInit - (argStrings (argv ++ [arg])).length < 2 ^ 32 by omega)
  unfold pushArg
  simp only [hphys, hspv, hnewsp]
  simp only [setTrapWord, htf, KState.store]

/-- One more argument. -/
theorem ArgsPushed.push {page : Nat} {argv : List (List UInt8)} {s : ArgState}
    (hs : ArgsPushed L i page k argv s) (arg : List UInt8)
    (hr : ArgRoom L k i page (argStrings (argv ++ [arg])).length) :
    ArgsPushed L i page k (argv ++ [arg]) (pushArg L i s arg) := by
  have hlen := length_argStrings_concat argv arg
  have hstr : (arg ++ [0]).length = arg.length + 1 := by
    rw [List.length_append, List.length_singleton]
  have h1 := hr.low
  have h2 := hr.apart
  have h3 := hr.size
  have h4 := hr.high
  have h5 := hr.trapframe_low
  have hspoff : 4 * tfSp + 4 ≤ 4096 := by decide
  have hvi : vaUserStackInit < 2 ^ 32 := by decide
  rw [hs.round arg hr]
  generalize hsp' : vaUserStackInit - (argStrings (argv ++ [arg])).length = sp'
  generalize hp' : page + 4096 - (argStrings (argv ++ [arg])).length = p'
  generalize hm : storeBytes (store32 s.k.mem (pcb L k i .trapframe + 4 * tfSp) sp') p'
    (arg ++ [0]) = m
  have hmem : ∀ x, x < p' ∨ page + 4096 ≤ x →
      x < pcb L k i .trapframe + 4 * tfSp ∨ pcb L k i .trapframe + 4 * tfSp + 4 ≤ x →
      m x = k.mem x := by
    intro x hx1 hx2
    rw [← hm, storeBytes_outside _ _ _ (by omega), store32_outside _ _ _ hx2]
    refine hs.frame x ?_ hx2
    rw [hs.phys]
    omega
  have htf' : pcb L { s.k with mem := m } i .trapframe = pcb L k i .trapframe :=
    pcb_trapframe_of_static hr.slot (fun x hx => hmem x (by omega) (by omega))
  -- behind the new string are those pushed before
  have hold : ∀ n, (hn : n < (argStrings argv).length) →
      m (p' + (arg.length + 1 + n)) = (argStrings argv)[n] := by
    intro n hn
    rw [← hm, storeBytes_outside _ _ _ (by omega), store32_outside _ _ _ (by omega),
      ← hs.strings n hn, hs.phys]
    congr 1
    omega
  refine ⟨hp'.symm, ?_, ?_, ?_, hmem, ?_⟩
  · intro n hn
    simp only [argStrings_concat]
    by_cases hin : n < (arg ++ [0]).length
    · rw [List.getElem_append_left hin, ← hm]
      exact storeBytes_inside _ _ _ hin
    · rw [List.getElem_append_right (by omega), ← hold _ (by omega), hstr]
      congr 1
      omega
  · rw [hs.pointers, argPointers_concat _ _ _ (by omega) (by omega), ← hsp', hlen]
  · rw [trapWord, htf', hsp']
    simp only [KState.load]
    rw [← hm, load32_congr (fun x _ _ => storeBytes_outside _ _ _ (by omega)),
      load32_store32_of_lt (by omega)]
  · simp only
    rw [hs.state]

/-- All arguments. -/
theorem pushArgs_spec {page : Nat} (argv : List (List UInt8))
    (hr : ArgRoom L k i page (argStrings argv).length)
    (hsp : trapWord L k i tfSp = vaUserStackInit) :
    ArgsPushed L i page k argv
      (argv.foldl (pushArg L i) { phys := page + pageSize, tmpArgv := [], k := k }) := by
  induction argv using List.reverseRecOn with
  | nil =>
    refine ⟨rfl, nofun, rfl, ?_, fun _ _ _ => rfl, rfl⟩
    rw [List.foldl_nil, hsp]
    rfl
  | append_singleton argv arg ih =>
    have hlen : (argStrings argv).length ≤ (argStrings (argv ++ [arg])).length := by
      rw [argStrings_concat, List.length_append]
      omega
    rw [List.foldl_append, List.foldl_cons, List.foldl_nil]
    exact (ih (hr.mono hlen)).push arg hr

/-! ## §4 The array and the registers -/

/-- What the end of `kproc_exec` leaves: strings and pointers below the end of
the stack page, and the three registers. -/
structure ArgsStored (L : Layout) (i page : Nat) (k : KState) (argv : List (List UInt8))
    (k' : KState) : Prop where
  state : k' = { k with mem := k'.mem }
  frame : ∀ x, x < page + 4096 - argBytes argv ∨ page + 4096 ≤ x →
    x < pcb L k i .trapframe ∨ pcb L k i .trapframe + 4096 ≤ x → k'.mem x = k.mem x
  strings : ∀ n, (hn : n < (argStrings argv).length) →
    k'.mem (page + 4096 - (argStrings argv).length + n) = (argStrings argv)[n]
  pointers : ∀ x, page + 4096 - argBytes argv ≤ x → x < page + 4096 - (argStrings argv).length →
    k'.mem x = storeWords k.mem (page + 4096 - argBytes argv) (argPointers vaUserStackInit argv) x
  sp : trapWord L k' i tfSp = vaUserStackInit - argBytes argv
  a0 : trapWord L k' i tfA0 = argv.length
  a1 : trapWord L k' i tfA1 = vaUserStackInit - argBytes argv
  words : ∀ w < 1024, w ≠ tfSp → w ≠ tfA0 → w ≠ tfA1 → trapWord L k' i w = trapWord L k i w

/-- The state between the loop and the registers: the `argv` array is stored. -/
structure ArrayStored (L : Layout) (i page : Nat) (k : KState) (argv : List (List UInt8))
    (k' : KState) : Prop where
  state : k' = { k with mem := k'.mem }
  trapframe : pcb L k' i .trapframe = pcb L k i .trapframe
  frame : ∀ x, x < page + 4096 - argBytes argv ∨ page + 4096 ≤ x →
    x < pcb L k i .trapframe ∨ pcb L k i .trapframe + 4096 ≤ x → k'.mem x = k.mem x
  strings : ∀ n, (hn : n < (argStrings argv).length) →
    k'.mem (page + 4096 - (argStrings argv).length + n) = (argStrings argv)[n]
  pointers : ∀ x, page + 4096 - argBytes argv ≤ x → x < page + 4096 - (argStrings argv).length →
    k'.mem x = storeWords k.mem (page + 4096 - argBytes argv) (argPointers vaUserStackInit argv) x
  sp : trapWord L k' i tfSp = vaUserStackInit - (argStrings argv).length
  words : ∀ w < 1024, w ≠ tfSp → trapWord L k' i w = trapWord L k i w

theorem ArgsPushed.array {page : Nat} {argv : List (List UInt8)} {s : ArgState}
    (hs : ArgsPushed L i page k argv s) (hr : ArgRoom L k i page (argBytes argv)) :
    ArrayStored L i page k argv { s.k with
      mem := storeWords s.k.mem (page + 4096 - argBytes argv) s.tmpArgv } := by
  have hbytes := argBytes_eq argv
  have hlen := length_argPointers vaUserStackInit argv
  have htfs := hs.trapframe (hr.mono (by omega))
  have h1 := hr.low
  have h2 := hr.apart
  have h4 := hr.high
  have h5 := hr.trapframe_low
  rw [hs.pointers]
  generalize hm : storeWords s.k.mem (page + 4096 - argBytes argv)
    (argPointers vaUserStackInit argv) = m
  have hout : ∀ x, x < page + 4096 - argBytes argv ∨ page + 4096 - (argStrings argv).length ≤ x →
      m x = s.k.mem x := by
    intro x hx
    rw [← hm]
    exact storeWords_outside _ _ _ (by omega)
  have hpcb : pcb L { s.k with mem := m } i .trapframe = pcb L k i .trapframe := by
    rw [← htfs]
    exact pcb_trapframe_of_static hr.slot (fun x hx => hout x (by omega))
  have hword : ∀ w < 1024, trapWord L { s.k with mem := m } i w = trapWord L s.k i w := by
    intro w hw
    rw [trapWord, trapWord, hpcb, htfs]
    exact load32_congr (fun x hx1 hx2 => hout x (by omega))
  exact
    { state := by
        simp only
        rw [hs.state]
      trapframe := hpcb
      frame := fun x hx1 hx2 => by
        simp only
        rw [hout x (by omega)]
        exact hs.frame x (by rw [hs.phys]; omega) (by simp only [tfSp]; omega)
      strings := fun n hn => by
        simp only
        rw [hout _ (by omega), ← hs.strings n hn, hs.phys]
      pointers := fun x hx1 hx2 => by
        simp only
        rw [← hm]
        refine storeWords_congr _ _ (hs.frame x (by rw [hs.phys]; omega) ?_)
        simp only [tfSp]
        omega
      sp := by rw [hword tfSp (by decide), hs.sp]
      words := fun w hw hne => by
        rw [hword w hw, trapWord, htfs]
        refine load32_congr (fun x hx1 hx2 => hs.frame x (by rw [hs.phys]; omega) ?_)
        simp only [tfSp] at *
        omega }

theorem execArgs_spec {page : Nat} {argv : List (List UInt8)}
    (hr : ArgRoom L k i page (argBytes argv)) (hsp : trapWord L k i tfSp = vaUserStackInit) :
    ArgsStored L i page k argv (execArgs L k i page argv) := by
  have hbytes := argBytes_eq argv
  have hs := pushArgs_spec argv (hr.mono (by omega)) hsp
  have harr := hs.array hr
  have h1 := hr.low
  have h2 := hr.apart
  have h3 := hr.size
  have h4 := hr.high
  have h5 := hr.trapframe_low
  have hvi : vaUserStackInit < 2 ^ 32 := by decide
  generalize hk' : execArgs L k i page argv = k'
  unfold execArgs pushArgv at hk'
  generalize argv.foldl (pushArg L i) { phys := page + pageSize, tmpArgv := [], k := k } = s at *
  have hphys : sub32 s.phys (4 * argv.length) = page + 4096 - argBytes argv := by
    rw [hs.phys, sub32_of_le (by omega) (by omega)]
    omega
  simp only [hphys] at hk'
  generalize { s.k with mem := storeWords s.k.mem (page + 4096 - argBytes argv) s.tmpArgv } = k1
    at *
  have hsub : sub32 (trapWord L k1 i tfSp) (4 * argv.length) = vaUserStackInit - argBytes argv := by
    rw [harr.sp, sub32_of_le (by omega) (by omega)]
    omega
  rw [hsub] at hk'
  obtain ⟨hstate, hframe, hsp', ha0, ha1, hwords⟩ := mainRegisters hr.slot
    (by rw [harr.trapframe]; exact h5) (by omega) (by omega) rfl hk'.symm
  rw [harr.trapframe] at hframe
  exact
    { state := by
        rw [hstate, harr.state]
      frame := fun x hx1 hx2 => by rw [hframe x hx2, harr.frame x hx1 hx2]
      strings := fun n hn => by rw [hframe _ (by omega), harr.strings n hn]
      pointers := fun x hx1 hx2 => by rw [hframe x (by omega), harr.pointers x hx1 hx2]
      sp := hsp'
      a0 := ha0
      a1 := ha1
      words := fun w hw hw1 hw2 hw3 => by rw [hwords w hw1 hw2 hw3, harr.words w hw hw1] }

/-- The stack page and the trap frame page of slot `i` leave room for arguments that fit. -/
theorem argRoom_of_fit {page n : Nat} (hk : KmemInv L k g) (hi : i < 8)
    (how : g.ow page = .leaf (.proc i) 0xFFFFE)
    (htf : g.ow (pcb L k i .trapframe) = .trapframe (.proc i)) (hfit : n ≤ 4096) :
    ArgRoom L k i page n := by
  have hpage := hk.page_of how nofun
  have hpb := hpage.bounds
  have htfpage := hk.page_of htf nofun
  have htfb := htfpage.bounds
  have hne : page ≠ pcb L k i .trapframe := by
    intro heq
    rw [heq, htf] at how
    exact absurd how nofun
  have := hpage.apart htfpage hne
  exact ⟨by omega, by omega, by omega, by omega, by simp only [vaUserStackInit, vaTrapframe]; omega,
    hi⟩

/-- Arguments that fit are written to the stack page and the trap frame only. -/
theorem ArgsStored.grow {page : Nat} {argv : List (List UInt8)}
    (hs : ArgsStored L i page k argv k') (hk : KmemInv L k g)
    (how : g.ow page = .leaf (.proc i) 0xFFFFE)
    (htf : g.ow (pcb L k i .trapframe) = .trapframe (.proc i)) (hfit : argBytes argv ≤ 4096) :
    KmemInv L k' g ∧ Grow L (Role.StackOf (.proc i)) (fun _ => False) k g k' g := by
  have hpage := hk.page_of how nofun
  have hpb := hpage.bounds
  have htfpage := hk.page_of htf nofun
  have htfb := htfpage.bounds
  -- a page with another role than these two
  have hother : ∀ q, L.IsPage q → q ≠ page → q ≠ pcb L k i .trapframe → ∀ x < 4096,
      k'.mem (q + x) = k.mem (q + x) := by
    intro q hq hne1 hne2 x hx
    have h1 := hq.apart hpage hne1
    have h2 := hq.apart htfpage hne2
    exact hs.frame (q + x) (by omega) (by omega)
  have hstate := hs.state
  refine ⟨hk.congr (by rw [hstate]) ?_, ⟨List.suffix_rfl, fun _ _ => rfl, fun _ h => .inl h, ?_, ?_,
    by rw [hstate], by rw [hstate], by rw [hstate], by rw [hstate], [], by rw [hstate]; rfl, nofun⟩⟩
  · intro q hq x hx
    refine hother q (hk.page_of hq nofun) ?_ ?_ x (by omega)
    · intro heq
      rw [heq, how] at hq
      exact absurd hq nofun
    · intro heq
      rw [heq, htf] at hq
      exact absurd hq nofun
  · intro q hq _ hrole x hx
    refine hother q hq ?_ ?_ x hx
    · intro heq
      exact hrole (.inl (by rw [heq, how]))
    · intro heq
      exact hrole (.inr (by rw [heq, htf]))
  · intro x hx _
    exact hs.frame x (by omega) (by omega)

end Risky321.Kernel
