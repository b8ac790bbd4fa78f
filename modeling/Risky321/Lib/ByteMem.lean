/-
Risky321.Lib.ByteMem — byte-addressed memory with little-endian words.

A memory is a function from addresses to bytes. Everything a program does
to it is one of: a word load or store, a fill (`memset`), a forward copy
(`memcpy`), or a store of a list of bytes. For each there are two lemmas:
what it leaves at the addresses it writes, and that it leaves every other
address alone. `load32_congr` turns the second kind into a fact about
words.
-/
import Mathlib.Data.Nat.Basic
import Mathlib.Logic.Function.Basic
import Mathlib.Tactic.NormNum
import Mathlib.Tactic.Common

namespace Risky321.Lib

/-- A memory: the byte at each address. -/
abbrev Mem : Type := Nat → UInt8

/-- Subtraction of 32-bit words. -/
def sub32 (a b : Nat) : Nat := (a + 2 ^ 32 - b) % 2 ^ 32

theorem sub32_of_le {a b : Nat} (hle : b ≤ a) (ha : a < 2 ^ 32) : sub32 a b = a - b := by
  simp only [sub32]
  omega

/-- Byte `k` of a word, counted from the low end. -/
def wordByte (v k : Nat) : UInt8 := UInt8.ofNat (v / 256 ^ k)

/-- The little-endian word at `a`. -/
def load32 (m : Mem) (a : Nat) : Nat :=
  (m a).toNat + 256 * (m (a + 1)).toNat + 65536 * (m (a + 2)).toNat
    + 16777216 * (m (a + 3)).toNat

/-- Store the word `v` at `a`, little-endian. -/
def store32 (m : Mem) (a v : Nat) : Mem :=
  fun x => if a ≤ x ∧ x < a + 4 then wordByte v (x - a) else m x

/-- `memset`: the byte `c` at the `n` addresses from `a`. -/
def fill (m : Mem) (a n : Nat) (c : UInt8) : Mem :=
  fun x => if a ≤ x ∧ x < a + n then c else m x

/-- `memcpy`: the bytes are copied one at a time, lowest address first. -/
def copy (m : Mem) (d s : Nat) : Nat → Mem
  | 0 => m
  | n + 1 =>
      let m' := copy m d s n
      Function.update m' (d + n) (m' (s + n))

/-- Store a list of bytes from `a` on. -/
def storeBytes (m : Mem) (a : Nat) (bs : List UInt8) : Mem :=
  fun x => if h : a ≤ x ∧ x < a + bs.length then bs.get ⟨x - a, by omega⟩ else m x

/-- The `n` bytes from `a` on. -/
def loadBytes (m : Mem) (a n : Nat) : List UInt8 := (List.range n).map (fun k => m (a + k))

/-- Store words one behind the other from `a` on. -/
def storeWords (m : Mem) (a : Nat) : List Nat → Mem
  | [] => m
  | w :: ws => storeWords (store32 m a w) (a + 4) ws

/-- The little-endian half-word at `a`. -/
def load16 (m : Mem) (a : Nat) : Nat := (m a).toNat + 256 * (m (a + 1)).toNat

/-! ## Words -/

theorem load32_lt (m : Mem) (a : Nat) : load32 m a < 2 ^ 32 := by
  have h0 := (m a).toNat_lt
  have h1 := (m (a + 1)).toNat_lt
  have h2 := (m (a + 2)).toNat_lt
  have h3 := (m (a + 3)).toNat_lt
  simp only [load32]
  omega

/-- The low byte of a word is the first one. -/
theorem load32_mod (m : Mem) (a : Nat) : load32 m a % 256 = (m a).toNat := by
  have := (m a).toNat_lt
  simp only [load32]
  omega

/-- A word load reads four bytes and nothing else. -/
theorem load32_congr {m m' : Mem} {a : Nat} (h : ∀ x, a ≤ x → x < a + 4 → m x = m' x) :
    load32 m a = load32 m' a := by
  simp only [load32]
  rw [h a (by omega) (by omega), h (a + 1) (by omega) (by omega),
    h (a + 2) (by omega) (by omega), h (a + 3) (by omega) (by omega)]

theorem store32_outside (m : Mem) (a v : Nat) {x : Nat} (h : x < a ∨ a + 4 ≤ x) :
    store32 m a v x = m x := by
  rw [store32, if_neg (by omega)]

theorem toNat_wordByte (v k : Nat) : (wordByte v k).toNat = v / 256 ^ k % 256 := by
  simp [wordByte]

@[simp] theorem load32_store32_same (m : Mem) (a v : Nat) :
    load32 (store32 m a v) a = v % 2 ^ 32 := by
  have hk : ∀ k, k < 4 → store32 m a v (a + k) = wordByte v k := by
    intro k hk
    rw [store32, if_pos (by omega), Nat.add_sub_cancel_left]
  have h0 := hk 0 (by omega)
  rw [Nat.add_zero] at h0
  simp only [load32, h0, hk 1 (by omega), hk 2 (by omega), hk 3 (by omega), toNat_wordByte]
  norm_num
  omega

theorem load32_store32_of_lt {m : Mem} {a v : Nat} (hv : v < 2 ^ 32) :
    load32 (store32 m a v) a = v := by
  rw [load32_store32_same, Nat.mod_eq_of_lt hv]

theorem load32_store32_disjoint (m : Mem) {a b : Nat} (v : Nat) (h : a + 4 ≤ b ∨ b + 4 ≤ a) :
    load32 (store32 m b v) a = load32 m a := by
  apply load32_congr
  intro x _ _
  exact store32_outside m b v (by omega)

/-- Of two stores to one word the second stays. -/
@[simp] theorem store32_store32 (m : Mem) (a v w : Nat) :
    store32 (store32 m a v) a w = store32 m a w := by
  funext x
  simp only [store32]
  split <;> rfl

/-! ## Fills -/

theorem fill_inside (m : Mem) (a n : Nat) (c : UInt8) {x : Nat} (h : a ≤ x ∧ x < a + n) :
    fill m a n c x = c := by
  rw [fill, if_pos h]

theorem fill_outside (m : Mem) (a n : Nat) (c : UInt8) {x : Nat} (h : x < a ∨ a + n ≤ x) :
    fill m a n c x = m x := by
  rw [fill, if_neg (by omega)]

theorem load32_fill_zero (m : Mem) {a n b : Nat} (h : a ≤ b ∧ b + 4 ≤ a + n) :
    load32 (fill m a n 0) b = 0 := by
  have hz : ∀ x, b ≤ x → x < b + 4 → fill m a n 0 x = 0 :=
    fun x h1 h2 => fill_inside m a n 0 (by omega)
  simp [load32, hz b (by omega) (by omega), hz (b + 1) (by omega) (by omega),
    hz (b + 2) (by omega) (by omega), hz (b + 3) (by omega) (by omega)]

theorem load32_fill_disjoint (m : Mem) {a n b : Nat} (c : UInt8) (h : b + 4 ≤ a ∨ a + n ≤ b) :
    load32 (fill m a n c) b = load32 m b := by
  apply load32_congr
  intro x _ _
  exact fill_outside m a n c (by omega)

/-! ## Copies -/

theorem copy_outside (m : Mem) (d s n : Nat) {x : Nat} (h : x < d ∨ d + n ≤ x) :
    copy m d s n x = m x := by
  induction n with
  | zero => rfl
  | succ n ih =>
    rw [copy, Function.update_of_ne (by omega)]
    exact ih (by omega)

/-- A byte whose source is not overwritten before it is read. -/
theorem copy_before (m : Mem) {d s n k : Nat} (hk : k < n) (hs : s + k < d ∨ d ≤ s) :
    copy m d s n (d + k) = m (s + k) := by
  induction n with
  | zero => omega
  | succ n ih =>
    rw [copy]
    by_cases hkn : k = n
    · subst hkn
      rw [Function.update_self]
      exact copy_outside m d s k (by omega)
    · rw [Function.update_of_ne (by omega)]
      exact ih (by omega)

/-- A byte whose source the copy does not overwrite. -/
theorem copy_at (m : Mem) {d s n k : Nat} (hk : k < n) (hs : s + k < d ∨ d + n ≤ s + k) :
    copy m d s n (d + k) = m (s + k) :=
  copy_before m hk (by omega)

/-- Between ranges that do not overlap a copy gives the source bytes. -/
theorem copy_inside (m : Mem) {d s n : Nat} (hdisj : d + n ≤ s ∨ s + n ≤ d) {k : Nat}
    (hk : k < n) : copy m d s n (d + k) = m (s + k) :=
  copy_at m hk (by omega)

/-! ## Byte lists -/

theorem storeBytes_outside (m : Mem) (a : Nat) (bs : List UInt8) {x : Nat}
    (h : x < a ∨ a + bs.length ≤ x) : storeBytes m a bs x = m x := by
  rw [storeBytes, dif_neg (by omega)]

theorem storeBytes_inside (m : Mem) (a : Nat) (bs : List UInt8) {k : Nat}
    (hk : k < bs.length) : storeBytes m a bs (a + k) = bs[k] := by
  rw [storeBytes, dif_pos (by omega)]
  simp

@[simp] theorem length_loadBytes (m : Mem) (a n : Nat) : (loadBytes m a n).length = n := by
  simp [loadBytes]

theorem loadBytes_congr {m m' : Mem} {a n : Nat} (h : ∀ x, a ≤ x → x < a + n → m x = m' x) :
    loadBytes m a n = loadBytes m' a n := by
  apply List.map_congr_left
  intro k hk
  have := List.mem_range.mp hk
  exact h (a + k) (by omega) (by omega)

/-- A list of bytes is what memory holds when it agrees at each place. -/
theorem loadBytes_eq {m : Mem} {a n : Nat} {bs : List UInt8} (hlen : bs.length = n)
    (h : ∀ x, (hx : x < bs.length) → m (a + x) = bs[x]) : loadBytes m a n = bs := by
  refine List.ext_getElem (by rw [length_loadBytes, hlen]) fun x _ h2 => ?_
  rw [← h x h2]
  simp [loadBytes]

theorem loadBytes_append (m : Mem) (a n n' : Nat) :
    loadBytes m a (n + n') = loadBytes m a n ++ loadBytes m (a + n) n' := by
  simp only [loadBytes, List.range_add, List.map_append, List.map_map, Nat.add_assoc]
  rfl

/-! ## Word lists -/

/-- The bytes of a word, lowest first. -/
def wordBytes (v : Nat) : List UInt8 := [wordByte v 0, wordByte v 1, wordByte v 2, wordByte v 3]

theorem storeWords_outside (m : Mem) (a : Nat) (ws : List Nat) {x : Nat}
    (h : x < a ∨ a + 4 * ws.length ≤ x) : storeWords m a ws x = m x := by
  induction ws generalizing m a with
  | nil => rfl
  | cons w ws ih =>
    rw [List.length_cons] at h
    rw [storeWords, ih _ _ (by omega)]
    exact store32_outside m a w (by omega)

/-- At one address a list of words depends on the old memory there only. -/
theorem storeWords_congr {m m' : Mem} (a : Nat) (ws : List Nat) {x : Nat} (h : m x = m' x) :
    storeWords m a ws x = storeWords m' a ws x := by
  induction ws generalizing m m' a with
  | nil => exact h
  | cons w ws ih =>
    rw [storeWords, storeWords]
    refine ih (a + 4) ?_
    simp only [store32, h]

theorem loadBytes_storeWords (m : Mem) (a : Nat) (ws : List Nat) :
    loadBytes (storeWords m a ws) a (4 * ws.length) = ws.flatMap wordBytes := by
  induction ws generalizing m a with
  | nil => rfl
  | cons w ws ih =>
    have hfirst : loadBytes (storeWords (store32 m a w) (a + 4) ws) a 4 = wordBytes w := by
      refine loadBytes_eq rfl fun x hx => ?_
      have hx4 : x < 4 := hx
      rw [storeWords_outside _ _ _ (by omega)]
      obtain rfl | rfl | rfl | rfl : x = 0 ∨ x = 1 ∨ x = 2 ∨ x = 3 := by omega
      all_goals simp [store32, wordBytes]
    rw [List.length_cons, show 4 * (ws.length + 1) = 4 + 4 * ws.length by omega, loadBytes_append,
      storeWords, hfirst, ih, List.flatMap_cons]

theorem load32_storeWords (m : Mem) (a : Nat) (ws : List Nat) {n : Nat} (hn : n < ws.length) :
    load32 (storeWords m a ws) (a + 4 * n) = ws[n] % 2 ^ 32 := by
  induction ws generalizing m a n with
  | nil => simp at hn
  | cons w ws ih =>
    rw [storeWords]
    cases n with
    | zero =>
      have hout : load32 (storeWords (store32 m a w) (a + 4) ws) a = load32 (store32 m a w) a := by
        apply load32_congr
        intro x _ _
        exact storeWords_outside _ _ _ (by omega)
      simpa using hout
    | succ n =>
      rw [List.length_cons] at hn
      have h := ih (store32 m a w) (a + 4) (show n < ws.length by omega)
      rw [show a + 4 * (n + 1) = a + 4 + 4 * n by omega, h]
      simp

end Risky321.Lib
