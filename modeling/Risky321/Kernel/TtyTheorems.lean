/-
Risky321.Kernel.TtyTheorems — what the console line buffer is for, and
where it does and does not do it.

`LineEditor` is the purpose of `tty.c` in its own terms: a queue of
committed bytes and a pending line. `RingRep` relates it to the ring, the
three indices and the two flags.

  §1  the line editor and the longest deliverable prefix,
  §2  `RingRep` and what each call does to it,
  §3  the refinement: while the ring never fills, the tty is the line
      editor, byte for byte,
  §4  the full ring: the flags are exact, and a committed line can be
      read, precisely along the runs that avoid two kinds of call.

The loop of `TtyRead` tests `r != w` and never `isFull`, so a full ring
whose committed part is everything or nothing (`r == w`) looks to it like
a ring with nothing to deliver; and behind the loop `r == insert` is taken
for "empty" although it is also true of a full ring. §4 says that these
two are the only ways to lose the flags.
-/
import Risky321.Lib.Ring
import Risky321.Kernel.Tty
import Mathlib.Data.List.Infix
import Mathlib.Tactic.Common

namespace Risky321.Kernel

open Risky321.Lib

/-! ## §1 The line editor -/

/-- A line-buffered console: committed bytes in the order they are
delivered, and the line being typed. -/
structure LineEditor where
  committed : List UInt8
  pending : List UInt8
  deriving DecidableEq, Repr

namespace LineEditor

def init : LineEditor := ⟨[], []⟩

/-- Every byte that was accepted and neither erased nor delivered. -/
def contents (e : LineEditor) : List UInt8 := e.committed ++ e.pending

/-- The number of bytes held. -/
def size (e : LineEditor) : Nat := e.committed.length + e.pending.length

/-- Backspace: the last pending byte goes, a committed byte never does. -/
def erase (e : LineEditor) : InsertOut × LineEditor :=
  if e.pending = [] then (⟨true, []⟩, e)
  else (⟨true, [bellBackspace, space, bellBackspace]⟩, { e with pending := e.pending.dropLast })

/-- A byte that is not a backspace: `'\n'` commits the line, any other
byte extends it. -/
def store (e : LineEditor) (c : UInt8) : InsertOut × LineEditor :=
  (⟨true, [c]⟩,
    if c = newline then ⟨e.committed ++ e.pending ++ [newline], []⟩
    else { e with pending := e.pending ++ [c] })

def insert (e : LineEditor) (c : UInt8) : InsertOut × LineEditor :=
  if crToNl c = backspace then e.erase else e.store (crToNl c)

/-- The bytes a read of `n` gets from the queue `q`. -/
def deliver : Nat → List UInt8 → List UInt8
  | 0, _ => []
  | _ + 1, [] => []
  | n + 1, c :: q => if c = newline then [c] else c :: deliver n q

def read (e : LineEditor) (n : Nat) : List UInt8 × LineEditor :=
  let bytes := deliver n e.committed
  (bytes, { e with committed := e.committed.drop bytes.length })

def step (e : LineEditor) : TtyOp → TtyOut × LineEditor
  | .insert c => (.inserted (e.insert c).1, (e.insert c).2)
  | .read n => (.delivered (e.read n).1, (e.read n).2)

def run (e : LineEditor) : List TtyOp → List TtyOut × LineEditor
  | [] => ([], e)
  | op :: ops => ((e.step op).1 :: ((e.step op).2.run ops).1, ((e.step op).2.run ops).2)

end LineEditor

/-- `d` may be delivered from `q` by a read of `n`: it is a prefix of `q`,
has at most `n` bytes, and does not go past a `'\n'`. -/
def Deliverable (n : Nat) (q d : List UInt8) : Prop :=
  d <+: q ∧ d.length ≤ n ∧ newline ∉ d.dropLast

theorem deliver_deliverable (n : Nat) (q : List UInt8) :
    Deliverable n q (LineEditor.deliver n q) := by
  induction n generalizing q with
  | zero => simp [LineEditor.deliver, Deliverable]
  | succ n ih =>
    cases q with
    | nil => simp [LineEditor.deliver, Deliverable]
    | cons c q =>
      by_cases hc : c = newline
      · simp [LineEditor.deliver, Deliverable, hc]
      · obtain ⟨hpre, hlen, hnl⟩ := ih q
        simp only [LineEditor.deliver, if_neg hc, Deliverable, List.cons_prefix_cons, true_and,
          List.length_cons]
        refine ⟨hpre, by omega, ?_⟩
        cases hd : LineEditor.deliver n q with
        | nil => simp
        | cons b bs =>
          rw [hd] at hnl
          simp [List.dropLast_cons_cons, hnl, Ne.symm hc]

/-- What a read delivers is the longest deliverable prefix. -/
theorem deliver_longest (n : Nat) (q d : List UInt8) (h : Deliverable n q d) :
    d.length ≤ (LineEditor.deliver n q).length := by
  induction n generalizing q d with
  | zero => exact le_trans h.2.1 (Nat.zero_le _)
  | succ n ih =>
    obtain ⟨hpre, hlen, hnl⟩ := h
    match d, q with
    | [], _ => simp
    | b :: d, [] => simp at hpre
    | b :: d, c :: q =>
      obtain ⟨rfl, hpre'⟩ := List.cons_prefix_cons.mp hpre
      by_cases hc : b = newline
      · subst hc
        cases d with
        | nil => simp [LineEditor.deliver]
        | cons x xs => simp [List.dropLast_cons_cons] at hnl
      · simp only [LineEditor.deliver, if_neg hc, List.length_cons]
        have hd : Deliverable n q d := by
          refine ⟨hpre', by simpa using hlen, ?_⟩
          cases d with
          | nil => simp
          | cons x xs => simp_all [List.dropLast_cons_cons]
        have := ih q d hd
        omega

theorem deliver_isPrefix (n : Nat) (q : List UInt8) : LineEditor.deliver n q <+: q :=
  (deliver_deliverable n q).1

theorem deliver_ne_nil {n : Nat} {q : List UInt8} (hn : 0 < n) (hq : q ≠ []) :
    LineEditor.deliver n q ≠ [] := by
  obtain ⟨n, rfl⟩ := Nat.exists_eq_succ_of_ne_zero (by omega : n ≠ 0)
  cases q with
  | nil => contradiction
  | cons c q => simp only [LineEditor.deliver]; split <;> simp

/-! ## §2 The ring holds a line editor -/

/-- The buffer cells and the indices hold `e`; nothing about the flags. -/
structure RingCells (s : Tty) (e : LineEditor) : Prop where
  r_lt : s.r < ttyBufferSize
  size_le : e.size ≤ ttyBufferSize
  cells : window s.ttyBuffer ttyBufferSize s.r e.size = e.contents
  insert_eq : s.insert = (s.r + e.size) % ttyBufferSize
  w_eq : s.w = (s.r + e.committed.length) % ttyBufferSize
  committed_ends : ∀ c ∈ e.committed.getLast?, c = newline
  pending_plain : newline ∉ e.pending

/-- The ring holds `e` and both flags are exact. -/
structure RingRep (s : Tty) (e : LineEditor) : Prop extends RingCells s e where
  isEmpty_iff : s.isEmpty = true ↔ e.size = 0
  isFull_iff : s.isFull = true ↔ e.size = ttyBufferSize

theorem ringRep_init : RingRep Tty.init LineEditor.init := by
  refine ⟨⟨?_, ?_, ?_, ?_, ?_, ?_, ?_⟩, ?_, ?_⟩ <;>
    simp [Tty.init, LineEditor.init, LineEditor.size, LineEditor.contents, ttyBufferSize]

theorem LineEditor.length_contents (e : LineEditor) : e.contents.length = e.size := by
  simp [LineEditor.contents, LineEditor.size]

/-- An index at most one turn ahead of `r` is `r` again after no step or a full turn. -/
theorem ring_turn {r k : Nat} (hr : r < ttyBufferSize) (hk : k ≤ ttyBufferSize) :
    (r + k) % ttyBufferSize = r ↔ k = 0 ∨ k = ttyBufferSize := by
  simp only [ttyBufferSize] at *
  omega

/-- The cell that backspace looks at holds the last byte of the contents. -/
theorem RingCells.prev_cell {s : Tty} {e : LineEditor} (h : RingCells s e) {c : UInt8}
    (hc : e.contents.getLast? = some c) :
    (s.insert + ttyBufferSize - 1) % ttyBufferSize = (s.r + (e.size - 1)) % ttyBufferSize ∧
      s.ttyBuffer ((s.r + (e.size - 1)) % ttyBufferSize) = c := by
  have hpos : 0 < e.size := by
    rw [← e.length_contents]
    exact List.length_pos_iff.mpr (by rintro h0; simp [h0] at hc)
  obtain ⟨m, hm⟩ := Nat.exists_eq_succ_of_ne_zero (by omega : e.size ≠ 0)
  refine ⟨?_, ?_⟩
  · have hi := h.insert_eq
    have hr := h.r_lt
    have hle := h.size_le
    simp only [ttyBufferSize] at *
    omega
  · have hcells := h.cells
    rw [hm, Nat.succ_eq_add_one, window_length_succ] at hcells
    rw [← hcells] at hc
    simpa [hm] using hc

/-- Backspace: the ring after it holds the editor after it. -/
theorem ttyErase_rep {s : Tty} {e : LineEditor} (h : RingRep s e) :
    (ttyErase s).1 = e.erase.1 ∧
      (e.size < ttyBufferSize → RingRep (ttyErase s).2 e.erase.2) := by
  by_cases hp : e.pending = []
  · -- nothing pending: either the ring is empty or the previous cell ends a committed line
    have hstay : ¬ (s.isEmpty = false ∧
        s.ttyBuffer ((s.insert + ttyBufferSize - 1) % ttyBufferSize) ≠ newline) := by
      rintro ⟨he, hcell⟩
      have hne : e.contents ≠ [] := by
        intro h0
        have : e.size = 0 := by rw [← e.length_contents, h0]; rfl
        simp [h.isEmpty_iff.mpr this] at he
      obtain ⟨c, hc⟩ := Option.ne_none_iff_exists'.mp (mt List.getLast?_eq_none_iff.mp hne)
      obtain ⟨hprev, hval⟩ := h.prev_cell hc
      rw [hprev, hval] at hcell
      exact hcell (h.committed_ends c (by simpa [LineEditor.contents, hp] using hc))
    simp only [ttyErase, if_neg hstay, LineEditor.erase, if_pos hp]
    exact ⟨trivial, fun _ => h⟩
  · obtain ⟨p, c, hpc⟩ : ∃ p c, e.pending = p ++ [c] :=
      ⟨_, _, (List.dropLast_append_getLast hp).symm⟩
    have hsize : e.size = e.committed.length + p.length + 1 := by
      simp [LineEditor.size, hpc]; omega
    have hc : e.contents.getLast? = some c := by simp [LineEditor.contents, hpc]
    obtain ⟨hprev, hval⟩ := h.prev_cell hc
    have hcn : c ≠ newline := by
      rintro rfl
      exact h.pending_plain (by simp [hpc])
    have hgo : s.isEmpty = false ∧
        s.ttyBuffer ((s.insert + ttyBufferSize - 1) % ttyBufferSize) ≠ newline := by
      refine ⟨?_, by rw [hprev, hval]; exact hcn⟩
      have := h.isEmpty_iff
      cases hE : s.isEmpty <;> simp_all
    simp only [ttyErase, if_pos hgo, LineEditor.erase, if_neg hp, true_and]
    intro hlt
    have hnew : ({ e with pending := e.pending.dropLast } : LineEditor).size = e.size - 1 := by
      simp [LineEditor.size, hpc]
    refine ⟨⟨h.r_lt, ?_, ?_, ?_, h.w_eq, h.committed_ends, ?_⟩, ?_, ?_⟩
    · rw [hnew]; have := h.size_le; omega
    · have hcells := h.cells
      rw [hnew]
      rw [show e.size = (e.size - 1) + 1 by omega, window_length_succ] at hcells
      have := congrArg List.dropLast hcells
      simpa [LineEditor.contents, hpc, ← List.append_assoc] using this
    · rw [hnew]; exact hprev
    · intro hmem
      exact h.pending_plain (List.mem_of_mem_dropLast hmem)
    · rw [hnew, hprev]
      have hturn := ring_turn h.r_lt (k := e.size - 1) (by omega)
      by_cases h0 : e.size - 1 = 0
      · rw [if_pos (hturn.mpr (Or.inl h0))]
        simp [h0]
      · rw [if_neg (by rw [hturn]; omega)]
        simp [h0, hgo.1]
    · rw [hnew]
      have := h.isFull_iff
      simp only [this]
      omega

/-- Storing a byte: the ring after it holds the editor after it. -/
theorem ttyStore_rep {s : Tty} {e : LineEditor} (h : RingRep s e) (c : UInt8)
    (hlt : e.size < ttyBufferSize) : RingRep (ttyStore s c).2 (e.store c).2 := by
  have hsize : (e.store c).2.size = e.size + 1 := by
    by_cases hc : c = newline <;> simp [LineEditor.store, LineEditor.size, hc] <;> omega
  have hcont : (e.store c).2.contents = e.contents ++ [c] := by
    by_cases hc : c = newline <;> simp [LineEditor.store, LineEditor.contents, hc]
  have hins : (s.insert + 1) % ttyBufferSize = (s.r + (e.size + 1)) % ttyBufferSize := by
    rw [h.insert_eq, Nat.mod_add_mod, Nat.add_assoc]
  refine ⟨⟨h.r_lt, ?_, ?_, ?_, ?_, ?_, ?_⟩, ?_, ?_⟩
  · rw [hsize]; omega
  · rw [hsize, hcont, ← h.cells]
    simp only [ttyStore]
    rw [h.insert_eq]
    exact window_update_snoc s.ttyBuffer c hlt
  · rw [hsize]; exact hins
  · by_cases hc : c = newline
    · have hlen : (e.store c).2.committed.length = e.size + 1 := by
        simp [LineEditor.store, LineEditor.size, hc]; omega
      have hw : (ttyStore s c).2.w = (s.insert + 1) % ttyBufferSize := by simp [ttyStore, hc]
      rw [hlen, hw]
      exact hins
    · have hlen : (e.store c).2.committed = e.committed := by simp [LineEditor.store, hc]
      have hw : (ttyStore s c).2.w = s.w := by simp [ttyStore, hc]
      rw [hlen, hw]
      exact h.w_eq
  · by_cases hc : c = newline
    · simp [LineEditor.store, hc]
    · simpa [LineEditor.store, hc] using h.committed_ends
  · by_cases hc : c = newline
    · simp [LineEditor.store, hc]
    · simp [LineEditor.store, hc, h.pending_plain, Ne.symm hc]
  · rw [hsize]
    simp [ttyStore]
  · have hturn := ring_turn h.r_lt (k := e.size + 1) (by omega)
    have hfull := h.isFull_iff
    rw [hsize]
    simp only [ttyStore, hins]
    by_cases hf : e.size + 1 = ttyBufferSize
    · rw [if_pos (hturn.mpr (Or.inr hf))]
      simp [hf]
    · rw [if_neg (by rw [hturn]; omega), hfull]
      omega

/-- An insertion into a ring that is not full does what the editor does. -/
theorem ttyBufferInsert_rep {s : Tty} {e : LineEditor} (h : RingRep s e) (c : UInt8)
    (hlt : e.size < ttyBufferSize) :
    (ttyBufferInsert s c).1 = (e.insert c).1 ∧
      RingRep (ttyBufferInsert s c).2 (e.insert c).2 := by
  have hf : s.isFull = false := by
    have := h.isFull_iff
    cases hF : s.isFull
    · rfl
    · exact absurd (this.mp hF) (by omega)
  simp only [ttyBufferInsert, hf, LineEditor.insert, Bool.false_eq_true, if_false]
  by_cases hc : crToNl c = backspace
  · rw [if_pos hc, if_pos hc]
    exact ⟨(ttyErase_rep h).1, (ttyErase_rep h).2 hlt⟩
  · rw [if_neg hc, if_neg hc]
    exact ⟨rfl, ttyStore_rep h (crToNl c) hlt⟩

/-- The committed queue after a delivery of `bytes`. -/
def LineEditor.dropCommitted (e : LineEditor) (k : Nat) : LineEditor :=
  { e with committed := e.committed.drop k }

/-- Delivering the first committed byte moves `r` one cell on. -/
theorem RingCells.pop {s : Tty} {e : LineEditor} (h : RingCells s e) {c : UInt8}
    {q : List UInt8} (hq : e.committed = c :: q) :
    s.ttyBuffer s.r = c ∧
      RingCells { s with isFull := false, r := (s.r + 1) % ttyBufferSize }
        (e.dropCommitted 1) := by
  have hsize : e.size = (e.dropCommitted 1).size + 1 := by
    simp [LineEditor.size, LineEditor.dropCommitted, hq]; omega
  have hcells := h.cells
  rw [hsize, window_succ, Nat.mod_eq_of_lt h.r_lt] at hcells
  simp only [LineEditor.contents, hq, List.cons_append, List.cons.injEq] at hcells
  refine ⟨hcells.1, ⟨Nat.mod_lt _ (by decide), ?_, ?_, ?_, ?_, ?_, ?_⟩⟩
  · have := h.size_le; omega
  · simpa [LineEditor.contents, LineEditor.dropCommitted, hq] using hcells.2
  · rw [h.insert_eq, hsize, Nat.mod_add_mod]
    congr 1; omega
  · have hw := h.w_eq
    simp only [hq, List.length_cons] at hw
    simp only [LineEditor.dropCommitted, hq, List.drop_succ_cons, List.drop_zero,
      Nat.mod_add_mod]
    rw [hw]
    congr 1; omega
  · intro x hx
    refine h.committed_ends x ?_
    simp only [LineEditor.dropCommitted, hq, List.drop_succ_cons, List.drop_zero] at hx
    rw [hq]
    cases q with
    | nil => simp at hx
    | cons y ys => simpa [List.getLast?_cons_cons] using hx
  · exact h.pending_plain

/-! One turn of the loop, stated apart so that the induction does not unfold it. -/
theorem ttyReadLoop_stop (n : Nat) {s : Tty} (h : ¬ (s.isEmpty = false ∧ s.r ≠ s.w)) :
    ttyReadLoop (n + 1) s = ([], s) := by
  rw [ttyReadLoop, if_neg h]

theorem ttyReadLoop_go (n : Nat) {s : Tty} (h : s.isEmpty = false ∧ s.r ≠ s.w) :
    ttyReadLoop (n + 1) s =
      (let s' := { s with isFull := false, r := (s.r + 1) % ttyBufferSize }
       if s.ttyBuffer s.r = newline then ([s.ttyBuffer s.r], s')
       else (s.ttyBuffer s.r :: (ttyReadLoop n s').1, (ttyReadLoop n s').2)) := by
  rw [ttyReadLoop, if_pos h]

/-- The loop of `TtyRead` delivers what the editor delivers, provided the
committed queue does not fill the ring: with `r == w` ambiguous there, the
loop would not start. -/
theorem ttyReadLoop_cells (n : Nat) {s : Tty} {e : LineEditor} (h : RingCells s e)
    (hE : s.isEmpty = false) (hc : e.committed.length < ttyBufferSize) :
    (ttyReadLoop n s).1 = LineEditor.deliver n e.committed ∧
      RingCells (ttyReadLoop n s).2
        (e.dropCommitted (LineEditor.deliver n e.committed).length) ∧
      (ttyReadLoop n s).2.isEmpty = false ∧
      (ttyReadLoop n s).2.isFull
        = if LineEditor.deliver n e.committed = [] then s.isFull else false := by
  induction n generalizing s e with
  | zero => simpa [ttyReadLoop, LineEditor.deliver, LineEditor.dropCommitted, hE] using h
  | succ n ih =>
    have hturn := ring_turn h.r_lt (k := e.committed.length) (by omega)
    cases hq : e.committed with
    | nil =>
      have hstop : ¬ (s.isEmpty = false ∧ s.r ≠ s.w) := by
        rw [h.w_eq, hturn.mpr (Or.inl (by simp [hq]))]
        simp
      rw [ttyReadLoop_stop n hstop]
      exact ⟨rfl, h, hE, by simp [LineEditor.deliver]⟩
    | cons c q =>
      have hgo : s.isEmpty = false ∧ s.r ≠ s.w := by
        refine ⟨hE, ?_⟩
        rw [h.w_eq]
        intro hrw
        have := hturn.mp hrw.symm
        simp [hq] at this hc
        omega
      obtain ⟨hcell, hpop⟩ := h.pop hq
      rw [ttyReadLoop_go n hgo]
      simp only [hcell, LineEditor.deliver]
      by_cases hnl : c = newline
      · simp only [if_pos hnl, List.length_singleton, true_and]
        exact ⟨hpop, hE, by simp⟩
      · simp only [if_neg hnl, List.length_cons]
        have hq' : (e.dropCommitted 1).committed = q := by simp [LineEditor.dropCommitted, hq]
        obtain ⟨h1, h2, h3, h4⟩ := ih hpop hE (by rw [hq']; simp [hq] at hc; omega)
        rw [hq'] at h1 h2 h4
        refine ⟨by rw [h1], ?_, h3, ?_⟩
        · have hdrop : (e.dropCommitted 1).dropCommitted (LineEditor.deliver n q).length
              = e.dropCommitted ((LineEditor.deliver n q).length + 1) := by
            simp [LineEditor.dropCommitted, hq]
          rwa [hdrop] at h2
        · rw [h4]; simp

/-- The committed queue fits what `r == w` can tell apart. -/
def Distinct (e : LineEditor) : Prop := e.committed.length < ttyBufferSize

/-- A read that is not made on a full ring with nothing to deliver does
what the editor does. -/
theorem ttyRead_rep {s : Tty} {e : LineEditor} (h : RingRep s e) (hd : Distinct e) (n : Nat)
    (hok : e.size = ttyBufferSize → LineEditor.deliver n e.committed ≠ []) :
    (ttyRead s n).1 = (e.read n).1 ∧ RingRep (ttyRead s n).2 (e.read n).2 := by
  by_cases hE : s.isEmpty = true
  · have h0 := h.isEmpty_iff.mp hE
    have hq : e.committed = [] := by
      simp only [LineEditor.size, Nat.add_eq_zero_iff, List.length_eq_zero_iff] at h0
      exact h0.1
    have hdel : LineEditor.deliver n e.committed = [] := by
      rw [hq]; cases n <;> rfl
    simp only [ttyRead, if_pos hE, LineEditor.read, hdel, List.length_nil, List.drop_zero, true_and]
    exact h
  · have hE' : s.isEmpty = false := by simpa using hE
    obtain ⟨h1, h2, h3, h4⟩ := ttyReadLoop_cells n h.toRingCells hE' hd
    have hstate : (e.read n).2 = e.dropCommitted (LineEditor.deliver n e.committed).length := rfl
    -- a delivery from a full ring takes at least one byte, so the ring is not full behind the loop
    have hlt : (e.read n).2.size < ttyBufferSize := by
      have hle := h.size_le
      have hpre := (deliver_isPrefix n e.committed).length_le
      simp only [hstate, LineEditor.dropCommitted, LineEditor.size, List.length_drop] at hle ⊢
      by_cases hf : e.size = ttyBufferSize
      · have := List.length_pos_iff.mpr (hok hf)
        omega
      · simp only [LineEditor.size] at hf
        omega
    have hturn := ring_turn h2.r_lt (k := (e.read n).2.size) (by omega)
    have hins := h2.insert_eq
    rw [← hstate] at h2 hins
    have hfull : (ttyReadLoop n s).2.isFull = false := by
      rw [h4]
      by_cases hb : LineEditor.deliver n e.committed = []
      · rw [if_pos hb]
        have := h.isFull_iff
        cases hF : s.isFull
        · rfl
        · exact absurd hb (hok (this.mp hF))
      · rw [if_neg hb]
    have hne : (e.read n).2.size ≠ ttyBufferSize := by omega
    simp only [ttyRead, hE', Bool.false_eq_true, if_false]
    refine ⟨h1, ?_⟩
    by_cases hr : (ttyReadLoop n s).2.r = (ttyReadLoop n s).2.insert
    · rw [if_pos hr]
      have hz : (e.read n).2.size = 0 := by
        have := hturn.mp (by rw [← hins]; exact hr.symm)
        omega
      exact ⟨⟨h2.r_lt, h2.size_le, h2.cells, h2.insert_eq, h2.w_eq, h2.committed_ends,
        h2.pending_plain⟩, by simp [hz], by simp [hfull, hne]⟩
    · rw [if_neg hr]
      have hz : (e.read n).2.size ≠ 0 := by
        intro hz
        exact hr (by rw [hins]; exact (hturn.mpr (Or.inl hz)).symm)
      exact ⟨h2, by simp [h3, hz], by simp [hfull, hne]⟩

/-! ## §3 While the ring never fills -/

/-- One call, below the ring's capacity. -/
theorem step_refines {s : Tty} {e : LineEditor} (h : RingRep s e) (op : TtyOp)
    (hlt : e.size < ttyBufferSize) :
    (s.step op).1 = (e.step op).1 ∧ RingRep (s.step op).2 (e.step op).2 := by
  cases op with
  | insert c =>
    obtain ⟨hout, hrep⟩ := ttyBufferInsert_rep h c hlt
    exact ⟨congrArg TtyOut.inserted hout, hrep⟩
  | read n =>
    have hd : Distinct e := by
      simp only [Distinct, LineEditor.size] at *
      omega
    obtain ⟨hout, hrep⟩ := ttyRead_rep h hd n (fun hf => absurd hf (by omega))
    exact ⟨congrArg TtyOut.delivered hout, hrep⟩

theorem run_refines {s : Tty} {e : LineEditor} (h : RingRep s e) (ops : List TtyOp)
    (hfit : ∀ ops', ops' <+: ops → (e.run ops').2.size < ttyBufferSize) :
    (s.run ops).1 = (e.run ops).1 ∧ RingRep (s.run ops).2 (e.run ops).2 := by
  induction ops generalizing s e with
  | nil => exact ⟨rfl, h⟩
  | cons op ops ih =>
    obtain ⟨hout, hrep⟩ := step_refines h op (hfit [] List.nil_prefix)
    have hfit' : ∀ ops', ops' <+: ops → ((e.step op).2.run ops').2.size < ttyBufferSize :=
      fun ops' hpre => hfit (op :: ops') (List.cons_prefix_cons.mpr ⟨rfl, hpre⟩)
    obtain ⟨houts, hrun⟩ := ih hrep hfit'
    refine ⟨?_, hrun⟩
    show (s.step op).1 :: ((s.step op).2.run ops).1 = _
    rw [hout, houts]
    rfl

/-- **The tty is a line editor.** Along every run in which the editor
never holds `TTY_BUFFER_SIZE` bytes, each call returns, echoes and
delivers what the line editor does, the ring holds the editor's queue and
pending line, and each delivery is the longest prefix of the committed
queue that a read of that size may have. -/
theorem ttyRun_refines_lineEditor (ops : List TtyOp)
    (hfit : ∀ ops', ops' <+: ops → (LineEditor.init.run ops').2.size < ttyBufferSize) :
    (Tty.init.run ops).1 = (LineEditor.init.run ops).1 ∧
      RingRep (Tty.init.run ops).2 (LineEditor.init.run ops).2 ∧
      ∀ n q, Deliverable n q (LineEditor.deliver n q) ∧
        ∀ d, Deliverable n q d → d.length ≤ (LineEditor.deliver n q).length := by
  obtain ⟨hout, hrep⟩ := run_refines ringRep_init ops hfit
  exact ⟨hout, hrep, fun n q => ⟨deliver_deliverable n q, fun d hd => deliver_longest n q d hd⟩⟩

/-- Typing `a`, backspace, `b`, `'\r'`, `c` and reading twice: the line
`b\n` comes out in two pieces and `c` stays behind. -/
theorem ttyRun_refines_lineEditor_typed :
    (Tty.init.run [.insert 97, .insert 127, .insert 98, .insert 13, .insert 99,
        .read 1, .read 9, .read 9]).1
      = [.inserted ⟨true, [97]⟩, .inserted ⟨true, [8, 32, 8]⟩, .inserted ⟨true, [98]⟩,
        .inserted ⟨true, [10]⟩, .inserted ⟨true, [99]⟩,
        .delivered [98], .delivered [10], .delivered []] := by
  rw [(ttyRun_refines_lineEditor _ ?_).1]
  · decide
  · intro ops' hpre
    rw [← List.mem_inits] at hpre
    revert ops'
    decide

/-! ## §4 The full ring -/

/-- The bytes that were accepted and neither erased nor delivered, from
what the calls themselves report. -/
def outstanding (out : List UInt8) : TtyOp → TtyOut → List UInt8
  | .insert c, .inserted o =>
      if o.ret = false then out
      else if crToNl c = backspace then (if o.echo = [] then out else out.dropLast)
      else out ++ [crToNl c]
  | .read _, .delivered bytes => out.drop bytes.length
  | _, _ => out

/-- A run together with the bytes outstanding behind it. -/
def Tty.track (s : Tty) (out : List UInt8) : List TtyOp → Tty × List UInt8
  | [] => (s, out)
  | op :: ops => (s.step op).2.track (outstanding out op (s.step op).1) ops

/-- The flags say exactly whether the ring is empty or full, never both,
and a committed line can be read. -/
structure FlagsExact (s : Tty) (out : List UInt8) : Prop where
  isEmpty_iff : s.isEmpty = true ↔ out = []
  isFull_iff : s.isFull = true ↔ out.length = ttyBufferSize
  not_both : ¬ (s.isEmpty = true ∧ s.isFull = true)
  readable : newline ∈ out → ∀ n, 1 ≤ n → 1 ≤ (ttyRead s n).1.length

/-- The calls that keep the flags exact: no `'\n'` or `'\r'` goes into the
last free cell, and a full ring is not read with `n = 0` or while nothing
is committed. -/
def CallOk (s : Tty) : TtyOp → Prop
  | .insert c => ¬ (s.isFull = false ∧ (s.insert + 1) % ttyBufferSize = s.r ∧
      crToNl c = newline)
  | .read n => ¬ (s.isFull = true ∧ (n = 0 ∨ s.r = s.w))

theorem LineEditor.contents_erase (e : LineEditor) :
    e.erase.2.contents = if e.erase.1.echo = [] then e.contents else e.contents.dropLast := by
  by_cases hp : e.pending = []
  · simp [LineEditor.erase, hp]
  · simp [LineEditor.erase, hp, LineEditor.contents, List.dropLast_append_of_ne_nil]

theorem LineEditor.contents_store (e : LineEditor) (c : UInt8) :
    (e.store c).2.contents = e.contents ++ [c] := by
  by_cases hc : c = newline <;> simp [LineEditor.store, LineEditor.contents, hc]

/-- The editor's contents are what its reports say is outstanding. -/
theorem LineEditor.contents_step (e : LineEditor) (op : TtyOp) :
    (e.step op).2.contents = outstanding e.contents op (e.step op).1 := by
  cases op with
  | insert c =>
    by_cases hc : crToNl c = backspace
    · have hret : e.erase.1.ret = true := by
        by_cases hp : e.pending = [] <;> simp [LineEditor.erase, hp]
      simp [LineEditor.step, LineEditor.insert, outstanding, hc, hret, e.contents_erase]
    · simp only [LineEditor.step, LineEditor.insert, outstanding, if_neg hc, e.contents_store]
      simp [LineEditor.store]
  | read n =>
    have hpre := (deliver_isPrefix n e.committed).length_le
    simp only [LineEditor.step, LineEditor.read, outstanding, LineEditor.contents]
    rw [List.drop_append_of_le_length hpre]

theorem LineEditor.newline_mem_committed {s : Tty} {e : LineEditor} (h : RingCells s e)
    (hn : newline ∈ e.contents) : e.committed ≠ [] := by
  rcases List.mem_append.mp hn with hq | hp
  · exact List.ne_nil_of_mem hq
  · exact absurd hp h.pending_plain

/-- A ring that holds an editor whose committed queue leaves `r != w` has exact flags. -/
theorem RingRep.flagsExact {s : Tty} {e : LineEditor} (h : RingRep s e) (hd : Distinct e) :
    FlagsExact s e.contents := by
  refine ⟨?_, ?_, ?_, ?_⟩
  · rw [h.isEmpty_iff, ← e.length_contents, List.length_eq_zero_iff]
  · rw [h.isFull_iff, e.length_contents]
  · rintro ⟨h1, h2⟩
    have h1 := h.isEmpty_iff.mp h1
    have h2 := h.isFull_iff.mp h2
    simp [h1, ttyBufferSize] at h2
  · intro hn n hpos
    have hne := deliver_ne_nil hpos (LineEditor.newline_mem_committed h.toRingCells hn)
    rw [(ttyRead_rep h hd n (fun _ => hne)).1]
    exact List.length_pos_iff.mpr hne

/-- An insertion into a full ring is refused. -/
theorem ttyBufferInsert_full {s : Tty} (hf : s.isFull = true) (c : UInt8) :
    ttyBufferInsert s c = (⟨false, []⟩, s) := by
  simp [ttyBufferInsert, hf]

/-- The step lemma: a call that is `CallOk` keeps the representation. -/
theorem step_callOk {s : Tty} {e : LineEditor} (h : RingRep s e) (hd : Distinct e)
    (op : TtyOp) (hok : CallOk s op) :
    ∃ e', RingRep (s.step op).2 e' ∧ Distinct e' ∧
      e'.contents = outstanding e.contents op (s.step op).1 := by
  cases op with
  | insert c =>
    by_cases hf : e.size = ttyBufferSize
    · refine ⟨e, ?_, hd, ?_⟩ <;>
        simp [Tty.step, ttyBufferInsert_full (h.isFull_iff.mpr hf), h, outstanding]
    · have hlt : e.size < ttyBufferSize := lt_of_le_of_ne h.size_le hf
      obtain ⟨hout, hrep⟩ := step_refines h (.insert c) hlt
      refine ⟨_, hrep, ?_, by rw [hout]; exact e.contents_step _⟩
      -- only a '\n' in the last free cell commits the whole ring
      have hnf : s.isFull = false := by
        have := h.isFull_iff
        cases hF : s.isFull
        · rfl
        · exact absurd (this.mp hF) hf
      simp only [Distinct, LineEditor.size] at hd hlt
      by_cases hb : crToNl c = backspace
      · by_cases hp : e.pending = [] <;>
          simpa [Distinct, LineEditor.step, LineEditor.insert, hb, LineEditor.erase, hp] using hd
      · by_cases hnl : crToNl c = newline
        · have hlast : (s.insert + 1) % ttyBufferSize ≠ s.r := fun hr => hok ⟨hnf, hr, hnl⟩
          rw [h.insert_eq, Nat.mod_add_mod, Nat.add_assoc, Ne,
            ring_turn h.r_lt (by simp only [LineEditor.size]; omega)] at hlast
          simp only [LineEditor.size] at hlast
          simp only [Distinct, LineEditor.step, LineEditor.insert, if_neg hb, LineEditor.store,
            if_pos hnl, List.length_append, List.length_singleton]
          omega
        · simpa [Distinct, LineEditor.step, LineEditor.insert, hb, LineEditor.store, hnl] using hd
  | read n =>
    have hdel : e.size = ttyBufferSize → LineEditor.deliver n e.committed ≠ [] := by
      intro hf
      have hok' : ¬ (n = 0 ∨ s.r = s.w) := fun hbad => hok ⟨h.isFull_iff.mpr hf, hbad⟩
      refine deliver_ne_nil (by omega) ?_
      intro hq
      have hw := h.w_eq
      rw [hq, List.length_nil, Nat.add_zero, Nat.mod_eq_of_lt h.r_lt] at hw
      exact hok' (Or.inr hw.symm)
    obtain ⟨hout, hrep⟩ := ttyRead_rep h hd n hdel
    refine ⟨_, hrep, ?_, ?_⟩
    · simp only [Distinct, LineEditor.read, List.length_drop] at hd ⊢
      omega
    · show _ = outstanding e.contents (.read n) (.delivered (ttyRead s n).1)
      rw [hout]
      exact e.contents_step (.read n)

/-- The converse step: a call that is not `CallOk` leaves flags that lie. -/
theorem step_not_callOk {s : Tty} {e : LineEditor} (h : RingRep s e)
    (op : TtyOp) (hbad : ¬ CallOk s op) :
    ¬ FlagsExact (s.step op).2 (outstanding e.contents op (s.step op).1) := by
  intro hex
  cases op with
  | insert c =>
    obtain ⟨hnf, hlast, hnl⟩ := not_not.mp hbad
    have hlt : e.size < ttyBufferSize := by
      refine lt_of_le_of_ne h.size_le fun hf => ?_
      simp [h.isFull_iff.mpr hf] at hnf
    obtain ⟨hout, hrep⟩ := step_refines h (.insert c) hlt
    have hnb : newline ≠ backspace := by decide
    have hstep : (e.step (.insert c)).2 = ⟨e.committed ++ e.pending ++ [newline], []⟩ := by
      simp [LineEditor.step, LineEditor.insert, hnl, hnb, LineEditor.store]
    have hcont := e.contents_step (.insert c)
    rw [hout, ← hcont] at hex
    rw [h.insert_eq, Nat.mod_add_mod, Nat.add_assoc, ring_turn h.r_lt (by omega)] at hlast
    -- the ring is full and wholly committed, so the loop of TtyRead does not start
    have hfull : (e.step (.insert c)).2.committed.length = ttyBufferSize := by
      simp only [hstep, List.length_append, List.length_singleton]
      simp only [LineEditor.size] at hlast
      omega
    have hmem : newline ∈ (e.step (.insert c)).2.contents := by
      simp [hstep, LineEditor.contents]
    have hrw : (s.step (.insert c)).2.r = (s.step (.insert c)).2.w := by
      rw [hrep.w_eq, hfull]
      exact ((ring_turn hrep.r_lt le_rfl).mpr (Or.inr rfl)).symm
    have hread := hex.readable hmem 1 le_rfl
    have hnil : (ttyRead (s.step (.insert c)).2 1).1 = [] := by
      unfold ttyRead
      split
      · rfl
      · rw [ttyReadLoop_stop 0 (fun hgo => hgo.2 hrw)]
    rw [hnil] at hread
    simp at hread
  | read n =>
    obtain ⟨hfull, hwhy⟩ := not_not.mp hbad
    have hsz := h.isFull_iff.mp hfull
    have hE : s.isEmpty = false := by
      have := h.isEmpty_iff
      cases hE : s.isEmpty
      · rfl
      · have h0 := this.mp hE
        simp [h0, ttyBufferSize] at hsz
    have hloop : ttyReadLoop n s = ([], s) := by
      cases n with
      | zero => rfl
      | succ n => exact ttyReadLoop_stop n (fun hgo => hgo.2 (hwhy.resolve_left (by omega)))
    have hri : s.r = s.insert := by
      rw [h.insert_eq]
      exact ((ring_turn h.r_lt h.size_le).mpr (Or.inr hsz)).symm
    have hstep : s.step (.read n) = (.delivered [], { s with isEmpty := true }) := by
      simp [Tty.step, ttyRead, hE, hloop, hri]
    rw [hstep] at hex
    have hnil := hex.isEmpty_iff.mp rfl
    simp only [outstanding, List.length_nil, List.drop_zero] at hnil
    rw [← e.length_contents, hnil] at hsz
    simp [ttyBufferSize] at hsz

/-- The run lemma behind `ttyFlags_exact_iff`, from any state that holds an editor. -/
theorem track_exact_iff {s : Tty} {e : LineEditor} (h : RingRep s e) (hd : Distinct e)
    (ops : List TtyOp) :
    (∀ ops', ops' <+: ops →
        FlagsExact (s.track e.contents ops').1 (s.track e.contents ops').2) ↔
      ∀ ops' op, ops' ++ [op] <+: ops → CallOk (s.track e.contents ops').1 op := by
  induction ops generalizing s e with
  | nil =>
    refine ⟨fun _ ops' op hpre => by simp at hpre, fun _ ops' hpre => ?_⟩
    rw [List.prefix_nil.mp hpre]
    exact h.flagsExact hd
  | cons op ops ih =>
    constructor
    · intro hex
      have hok : CallOk s op := by
        by_contra hbad
        exact step_not_callOk h op hbad (hex [op] (by simp))
      obtain ⟨e', hrep, hd', hcont⟩ := step_callOk h hd op hok
      intro ops' op' hpre
      cases ops' with
      | nil =>
        obtain ⟨rfl, -⟩ := List.cons_prefix_cons.mp hpre
        exact hok
      | cons a ops' =>
        obtain ⟨rfl, hpre'⟩ := List.cons_prefix_cons.mp hpre
        have := (ih hrep hd').mp (fun ops'' hp => by
          rw [hcont]
          exact hex (a :: ops'') (List.cons_prefix_cons.mpr ⟨rfl, hp⟩)) ops' op' hpre'
        rwa [hcont] at this
    · intro hall ops' hpre
      have hok : CallOk s op := hall [] op (by simp)
      obtain ⟨e', hrep, hd', hcont⟩ := step_callOk h hd op hok
      cases ops' with
      | nil => exact h.flagsExact hd
      | cons a ops' =>
        obtain ⟨rfl, hpre'⟩ := List.cons_prefix_cons.mp hpre
        have := (ih hrep hd').mpr (fun ops'' op'' hp => by
          rw [hcont]
          exact hall (a :: ops'') op'' (List.cons_prefix_cons.mpr ⟨rfl, hp⟩)) ops' hpre'
        rwa [hcont] at this

/-- **Exactly when the flags are exact.** For every sequence of calls from
the initial state: the flags are exact and every committed line is
readable in every state of the run if and only if every call of the run is
`CallOk`. -/
theorem ttyFlags_exact_iff (ops : List TtyOp) :
    (∀ ops', ops' <+: ops →
        FlagsExact (Tty.init.track [] ops').1 (Tty.init.track [] ops').2) ↔
      ∀ ops' op, ops' ++ [op] <+: ops → CallOk (Tty.init.track [] ops').1 op :=
  track_exact_iff ringRep_init (by simp [Distinct, LineEditor.init, ttyBufferSize]) ops

/-- `k` bytes `a` are typed: they are all pending. -/
theorem track_replicate (k : Nat) {s : Tty} {p : List UInt8}
    (h : RingRep s ⟨[], p⟩) (hp : p.length + k ≤ ttyBufferSize) :
    ∃ p', (s.track p (List.replicate k (.insert 97))).2 = p' ∧ p'.length = p.length + k ∧
      RingRep (s.track p (List.replicate k (.insert 97))).1 ⟨[], p'⟩ := by
  induction k generalizing s p with
  | zero => exact ⟨p, rfl, rfl, h⟩
  | succ k ih =>
    have hlt : (⟨[], p⟩ : LineEditor).size < ttyBufferSize := by
      simp only [LineEditor.size, List.length_nil]
      omega
    obtain ⟨hout, hrep⟩ := step_refines h (.insert 97) hlt
    have hstep : ((⟨[], p⟩ : LineEditor).step (.insert 97)) =
        (.inserted ⟨true, [97]⟩, ⟨[], p ++ [97]⟩) := rfl
    rw [hstep] at hout hrep
    obtain ⟨p', hp', hlen, hrun⟩ := ih hrep (by simp; omega)
    have htrack : s.track p (List.replicate (k + 1) (.insert 97))
        = (s.step (.insert 97)).2.track (p ++ [97]) (List.replicate k (.insert 97)) := by
      rw [List.replicate_succ, Tty.track, hout]
      rfl
    rw [htrack]
    exact ⟨p', hp', by simp at hlen; omega, hrun⟩

theorem Tty.track_append (s : Tty) (out : List UInt8) (ops ops' : List TtyOp) :
    s.track out (ops ++ ops')
      = (s.track out ops).1.track (s.track out ops).2 ops' := by
  induction ops generalizing s out with
  | nil => rfl
  | cons op ops ih => exact ih _ _

/-- A ring filled with typed bytes and read with `n = 0` has both flags set. -/
theorem track_fill_read_zero {k : Nat} (hk : k = ttyBufferSize) :
    ¬ FlagsExact (Tty.init.track [] (List.replicate k (.insert 97) ++ [.read 0])).1
      (Tty.init.track [] (List.replicate k (.insert 97) ++ [.read 0])).2 := by
  intro hex
  obtain ⟨p', hp', hlen, hrep⟩ := track_replicate k (p := []) ringRep_init (by simp [hk])
  have hfull : (Tty.init.track [] (List.replicate k (.insert 97))).1.isFull = true :=
    hrep.isFull_iff.mpr (by simp [LineEditor.size, hlen, hk])
  rw [Tty.track_append, hp'] at hex
  exact step_not_callOk hrep (.read 0) (fun hok => hok ⟨hfull, Or.inl rfl⟩) hex

/-- 1024 typed bytes and a `TtyRead` with `n = 0`. -/
theorem ttyFlags_not_exact_full_read_zero :
    ¬ ∀ ops, FlagsExact (Tty.init.track [] ops).1 (Tty.init.track [] ops).2 :=
  fun hall => track_fill_read_zero (k := 1024) rfl (hall _)

end Risky321.Kernel
