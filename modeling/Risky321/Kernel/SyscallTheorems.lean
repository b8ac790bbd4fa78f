/-
Risky321.Kernel.SyscallTheorems — what read, write and close touch.

The kernel works on the caller's page table, where its own pages are mapped
too, and checks neither a buffer nor a descriptor. The addresses a call
stores to or loads from are written down here as a list, in the order the
code makes the accesses and up to the access that faults, if one does.

§1 is the trace of a copy loop: it stays in the caller's own pages exactly
if the buffer does. §2 puts this together for SYS_read and SYS_write, §3
for the descriptor argument of read and close.
-/
import Risky321.Kernel.RunTheorems

namespace Risky321.Kernel

open Risky321.Lib

variable {L : Layout} {k k' k1 : KState} {g g' : Ghost} {cur fd buf size n j va flag idx : Nat}
  {s : Sys} {c : UInt8}

/-! ## §1 Copy loops -/

/-- The addresses a loop stores to that puts the bytes `src j`, `src (j + 1)`, …
at `buf`, `buf + 1`, …, at most `n` of them. It ends early where it faults. -/
def storeTrace (L : Layout) (cur : Nat) (src : Nat → KState → Option UInt8) :
    Nat → Nat → Nat → KState → List Nat
  | 0, _, _, _ => []
  | n + 1, j, buf, k =>
    match (src j k).bind (storeByte L k cur buf) with
    | none => []
    | some k => buf :: storeTrace L cur src n (j + 1) ((buf + 1) % 2 ^ 32) k

/-- What a loop loads and passes on that takes `n` bytes from `buf` on: the
addresses, each with its byte. It ends early where it faults. -/
def loadTrace (L : Layout) (k : KState) (cur : Nat) : Nat → Nat → List (Nat × UInt8)
  | _, 0 => []
  | buf, n + 1 =>
    match loadByte L k cur buf with
    | none => []
    | some c => (buf, c) :: loadTrace L k cur ((buf + 1) % 2 ^ 32) n

/-- The `n` addresses from `buf` on. -/
def addrsFrom : Nat → Nat → List Nat
  | _, 0 => []
  | buf, n + 1 => buf :: addrsFrom ((buf + 1) % 2 ^ 32) n

theorem length_addrsFrom (buf n : Nat) : (addrsFrom buf n).length = n := by
  induction n generalizing buf with
  | zero => rfl
  | succ n ih => rw [addrsFrom, List.length_cons, ih]

/-- A loop that comes to its end has stored to one address after the other. -/
theorem storeTrace_storeBuf {src : Nat → KState → Option UInt8} {bytes : List UInt8}
    (hsrc : ∀ l k1, src (j + l) k1 = bytes[l]?) (h : storeBuf L cur buf bytes k = some k') :
    storeTrace L cur src bytes.length j buf k = addrsFrom buf bytes.length := by
  induction bytes generalizing j buf k with
  | nil => rfl
  | cons c cs ih =>
    rw [storeBuf, Option.bind_eq_some_iff] at h
    obtain ⟨k1, h1, h2⟩ := h
    have h0 : src j k = some c := hsrc 0 k
    have hrest : ∀ l k1, src (j + 1 + l) k1 = cs[l]? := by
      intro l k1
      rw [Nat.add_assoc, Nat.add_comm 1 l]
      exact hsrc (l + 1) k1
    rw [List.length_cons, storeTrace, h0, Option.bind_some, h1]
    exact congrArg (buf :: ·) (ih hrest h2)

theorem storeTrace_fileReadLoop {size cursor cursor' : Nat} {bytes : List UInt8}
    (h : fileReadLoop L cur idx size n buf (cursor + j) k = some (cursor', bytes, k')) :
    storeTrace L cur (fun j k => loadByte L k cur ((L.fsData idx + (cursor + j)) % 2 ^ 32))
      (min n (size - (cursor + j))) j buf k = addrsFrom buf bytes.length := by
  induction n generalizing j buf k bytes cursor' with
  | zero =>
    rw [fileReadLoop, Option.some.injEq, Prod.mk.injEq, Prod.mk.injEq] at h
    rw [← h.2.1, Nat.zero_min]
    rfl
  | succ n ih =>
    rw [fileReadLoop] at h
    split at h
    · rename_i hlt
      simp only [Option.bind_eq_some_iff, Option.map_eq_some_iff] at h
      obtain ⟨c, hc, k1, h1, ⟨cursor1, cs, k2⟩, h2, heq⟩ := h
      obtain ⟨rfl, rfl, rfl⟩ : cursor1 = cursor' ∧ c :: cs = bytes ∧ k2 = k' := by simpa using heq
      rw [show min (n + 1) (size - (cursor + j)) = min n (size - (cursor + (j + 1))) + 1 by omega,
        storeTrace, hc, Option.bind_some, h1]
      rw [Nat.add_assoc] at h2
      exact congrArg (buf :: ·) (ih h2)
    · rw [Option.some.injEq, Prod.mk.injEq, Prod.mk.injEq] at h
      rw [← h.2.1, show min (n + 1) (size - (cursor + j)) = 0 by omega]
      rfl

/-- The bytes that a loop takes if it comes to its end. -/
theorem loadTrace_loadBuf {bytes : List UInt8} (h : loadBuf L k cur buf n = some bytes) :
    (loadTrace L k cur buf n).map Prod.fst = addrsFrom buf n ∧
      (loadTrace L k cur buf n).map Prod.snd = bytes := by
  induction n generalizing buf bytes with
  | zero =>
    rw [loadBuf, Option.some.injEq] at h
    exact ⟨rfl, h⟩
  | succ n ih =>
    simp only [loadBuf, Option.bind_eq_some_iff, Option.map_eq_some_iff] at h
    obtain ⟨c, hc, cs, hcs, rfl⟩ := h
    obtain ⟨h1, h2⟩ := ih hcs
    simp only [loadTrace, hc, List.map_cons]
    exact ⟨congrArg (buf :: ·) h1, congrArg (c :: ·) h2⟩

/-- And if it does not, it takes the bytes up to the one that is not mapped. -/
theorem loadTrace_faults (h : loadBuf L k cur buf n = none) :
    (loadTrace L k cur buf n).length < n ∧
      (loadTrace L k cur buf n).map Prod.fst = addrsFrom buf (loadTrace L k cur buf n).length := by
  induction n generalizing buf with
  | zero => exact absurd h nofun
  | succ n ih =>
    cases hc : loadByte L k cur buf with
    | none => simp [loadTrace, hc, addrsFrom]
    | some c =>
      have hrest : loadBuf L k cur ((buf + 1) % 2 ^ 32) n = none := by
        simpa [loadBuf, hc] using h
      obtain ⟨h1, h2⟩ := ih hrest
      simp only [loadTrace, hc, List.length_cons, List.map_cons, addrsFrom]
      exact ⟨by omega, congrArg (buf :: ·) h2⟩

theorem loadBuf_eq (L : Layout) (k : KState) (cur buf n : Nat) :
    loadBuf L k cur buf n =
      if (loadTrace L k cur buf n).length = n then some ((loadTrace L k cur buf n).map Prod.snd)
      else none := by
  cases h : loadBuf L k cur buf n with
  | none => rw [if_neg (by have := (loadTrace_faults h).1; omega)]
  | some bytes =>
    obtain ⟨h1, h2⟩ := loadTrace_loadBuf h
    have hlen := congrArg List.length h1
    rw [List.length_map, length_addrsFrom] at hlen
    rw [if_pos hlen, h2]

/-- Each byte is the one at its address. -/
theorem loadByte_of_mem_loadTrace {p : Nat × UInt8} (h : p ∈ loadTrace L k cur buf n) :
    loadByte L k cur p.1 = some p.2 := by
  induction n generalizing buf with
  | zero => simp [loadTrace] at h
  | succ n ih =>
    rw [loadTrace] at h
    split at h
    · simp at h
    · rename_i c hc
      obtain rfl | h := List.mem_cons.mp h
      · exact hc
      · exact ih h

theorem storeTrace_lt {src : Nat → KState → Option UInt8} (hbuf : buf < 2 ^ 32) :
    ∀ a ∈ storeTrace L cur src n j buf k, a < 2 ^ 32 := by
  induction n generalizing j buf k with
  | zero => simp [storeTrace]
  | succ n ih =>
    intro a ha
    rw [storeTrace] at ha
    split at ha
    · simp at ha
    · rcases List.mem_cons.mp ha with rfl | ha
      · exact hbuf
      · exact ih (Nat.mod_lt _ (by norm_num)) a ha

/-- A buffer whose first byte is mapped: that byte and the rest, also after
stores to pages of the process. -/
theorem bufferOk_succ_iff {S : Role → Prop} (hbuf : buf < 2 ^ 32)
    (hm : (translate L k cur flag buf).isSome) (hk : KmemInv L k g) (hp : ProcInv L k g cur)
    (hi : cur < 8) (hg : Grow L S (fun _ => False) k g k1 g')
    (hS : ∀ c, S c → ¬ c.TableOf (.proc cur)) :
    BufferOk L k cur flag buf (n + 1) ↔
      UserPage L k cur buf ∧ BufferOk L k1 cur flag ((buf + 1) % 2 ^ 32) n := by
  constructor
  · intro h
    exact ⟨h.head hbuf hm, h.tail hbuf hm hk hp hi hg hS⟩
  · rintro ⟨hu, h⟩ j hj hmap
    cases j with
    | zero => rwa [Nat.add_zero, Nat.mod_eq_of_lt hbuf]
    | succ j =>
      have hnext : ∀ l, ((buf + 1) % 2 ^ 32 + l) % 2 ^ 32 = (buf + (l + 1)) % 2 ^ 32 := by
        intro l
        omega
      have hlt : ∀ l, (buf + l) % 2 ^ 32 < 2 ^ 32 := fun l => Nat.mod_lt _ (by norm_num)
      obtain ⟨e, he, hU⟩ := h j (by omega) (fun l hl => by
        rw [hnext l, (translate_grow flag hk hp hi hg hS (hlt (l + 1))).2]
        exact hmap (l + 1) (by omega))
      rw [hnext j, (translate_grow flag hk hp hi hg hS (hlt (j + 1))).1] at he
      exact ⟨e, he, hU⟩

theorem userPage_grow_iff {S : Role → Prop} (hk : KmemInv L k g) (hp : ProcInv L k g cur)
    (hi : cur < 8) (hg : Grow L S (fun _ => False) k g k1 g')
    (hS : ∀ c, S c → ¬ c.TableOf (.proc cur)) (hva : va < 2 ^ 32) :
    UserPage L k1 cur va ↔ UserPage L k cur va := by
  unfold UserPage
  rw [(translate_grow pteW hk hp hi hg hS hva).1]

/-- The loop stores to the caller's own pages only if and only if its buffer
lies there, up to the first byte that is not mapped. -/
theorem storeTrace_user_iff {src : Nat → KState → Option UInt8} (hk : KmemInv L k g)
    (hp : ProcInv L k g cur) (hi : cur < 8) (hbuf : buf < 2 ^ 32)
    (hsrc : ∀ l, j ≤ l → l < j + n → ∀ k1, ProcInv L k1 g cur → (src l k1).isSome) :
    (∀ a ∈ storeTrace L cur src n j buf k, UserPage L k cur a) ↔
      BufferOk L k cur pteW buf n := by
  induction n generalizing j buf k with
  | zero =>
    simp [storeTrace, BufferOk]
  | succ n ih =>
    obtain ⟨c, hc⟩ := Option.isSome_iff_exists.mp (hsrc j le_rfl (by omega) k hp)
    rw [storeTrace, hc, Option.bind_some]
    cases hst : storeByte L k cur buf c with
    | none =>
      have hnone : translate L k cur pteW buf = none := by
        simpa [storeByte] using hst
      constructor
      · intro _ l _ hmap
        have := hmap 0 (by omega)
        rw [Nat.add_zero, Nat.mod_eq_of_lt hbuf, hnone] at this
        exact absurd this (by simp)
      · simp
    | some k1 =>
      have hm := storeByte_isSome hst
      by_cases hu : UserPage L k cur buf
      · obtain ⟨hk1, hg1⟩ := storeByte_user hk hp hbuf hu hst
        have hS : ∀ c : Role, c.LeafOf (.proc cur) → ¬ c.TableOf (.proc cur) :=
          fun _ h => h.not_table
        have hp1 := hp.pageWrites hk hi hS hg1
        have hlt : (buf + 1) % 2 ^ 32 < 2 ^ 32 := Nat.mod_lt _ (by norm_num)
        have hrest : (∀ a ∈ storeTrace L cur src n (j + 1) ((buf + 1) % 2 ^ 32) k1,
            UserPage L k1 cur a) ↔ BufferOk L k1 cur pteW ((buf + 1) % 2 ^ 32) n :=
          ih hk1 hp1 hlt (fun l h1 h2 => hsrc l (by omega) (by omega))
        rw [bufferOk_succ_iff hbuf hm hk hp hi hg1 hS, ← hrest, List.forall_mem_cons]
        refine and_congr_right fun _ => ?_
        refine forall₂_congr fun a ha => ?_
        exact (userPage_grow_iff hk hp hi hg1 hS (storeTrace_lt hlt a ha)).symm
      · constructor
        · intro h
          exact absurd (h buf List.mem_cons_self) hu
        · intro h
          exact absurd (h.head hbuf hm) hu

theorem loadTrace_user_iff (hk : KmemInv L k g) (hp : ProcInv L k g cur) (hi : cur < 8)
    (hbuf : buf < 2 ^ 32) :
    (∀ p ∈ loadTrace L k cur buf n, UserPage L k cur p.1) ↔ BufferOk L k cur pteR buf n := by
  induction n generalizing buf with
  | zero => simp [loadTrace, BufferOk]
  | succ n ih =>
    rw [loadTrace]
    cases hload : loadByte L k cur buf with
    | none =>
      have hnone : translate L k cur pteR buf = none := by
        simpa [loadByte] using hload
      constructor
      · intro _ l _ hmap
        have := hmap 0 (by omega)
        rw [Nat.add_zero, Nat.mod_eq_of_lt hbuf, hnone] at this
        exact absurd this (by simp)
      · simp
    | some c =>
      have hm : (translate L k cur pteR buf).isSome := by
        cases ht : translate L k cur pteR buf with
        | none => simp [loadByte, ht] at hload
        | some pa => rfl
      rw [bufferOk_succ_iff hbuf hm hk hp hi (Grow.refl (S := fun _ => False) k g)
        (fun _ h => h.elim), ← ih (Nat.mod_lt _ (by norm_num)), List.forall_mem_cons]

/-- A byte of physical memory that the process itself could load. -/
def UserReadable (L : Layout) (k : KState) (cur x : Nat) : Prop :=
  ∃ va < 2 ^ 32, UserPage L k cur va ∧ translate L k cur pteR va = some x

/-- The process cannot tell the two states apart: its addresses are mapped
alike, and what it could load is the same. -/
structure SameToUser (L : Layout) (cur : Nat) (k k' : KState) : Prop where
  translate : ∀ va < 2 ^ 32, translate L k' cur pteR va = translate L k cur pteR va
  mem : ∀ x, UserReadable L k cur x → k'.mem x = k.mem x

/-- What a loop takes from pages of the process depends on nothing else. -/
theorem loadTrace_congr (h : SameToUser L cur k k') (hk : KmemInv L k g) (hp : ProcInv L k g cur)
    (hi : cur < 8) (hbuf : buf < 2 ^ 32) (hok : BufferOk L k cur pteR buf n) :
    loadTrace L k' cur buf n = loadTrace L k cur buf n := by
  induction n generalizing buf with
  | zero => rfl
  | succ n ih =>
    have htr := h.translate buf hbuf
    cases ht : translate L k cur pteR buf with
    | none => simp only [loadTrace, loadByte, htr, ht, Option.map_none]
    | some x =>
      have hm : (Risky321.Kernel.translate L k cur pteR buf).isSome := by rw [ht]; rfl
      have hx : k'.mem x = k.mem x := h.mem x ⟨buf, hbuf, hok.head hbuf hm, ht⟩
      have htail := hok.tail hbuf hm hk hp hi (Grow.refl (S := fun _ => False) k g)
        (fun _ h => h.elim)
      simp only [loadTrace, loadByte, htr, ht, Option.map_some, hx,
        ih (Nat.mod_lt _ (by norm_num)) htail]

/-- A byte of physical memory that the process itself could store to. -/
def UserByte (L : Layout) (k : KState) (cur x : Nat) : Prop :=
  ∃ va < 2 ^ 32, UserPage L k cur va ∧ translate L k cur pteW va = some x

/-- The byte at `buf` and the `n - 1` bytes behind it are in writable pages of
the process. -/
def BufferUser (L : Layout) (k : KState) (cur buf n : Nat) : Prop :=
  ∀ j < n, UserPage L k cur ((buf + j) % 2 ^ 32) ∧
    (translate L k cur pteW ((buf + j) % 2 ^ 32)).isSome

theorem BufferUser.bufferOk (h : BufferUser L k cur buf n) : BufferOk L k cur pteW buf n :=
  fun j hj _ => (h j hj).1

/-- Filling a buffer in pages of the process changes nothing else. -/
theorem storeBuf_frame (bytes : List UInt8) (hk : KmemInv L k g) (hp : ProcInv L k g cur)
    (hi : cur < 8) (hbuf : buf < 2 ^ 32) (hok : BufferOk L k cur pteW buf bytes.length)
    (h : storeBuf L cur buf bytes k = some k') :
    k' = { k with mem := k'.mem } ∧ ∀ x, ¬ UserByte L k cur x → k'.mem x = k.mem x := by
  induction bytes generalizing k buf with
  | nil =>
    rw [storeBuf, Option.some.injEq] at h
    rw [← h]
    exact ⟨rfl, fun _ _ => rfl⟩
  | cons c cs ih =>
    rw [storeBuf, Option.bind_eq_some_iff] at h
    obtain ⟨k1, h1, h2⟩ := h
    have hm := storeByte_isSome h1
    have hu := hok.head hbuf hm
    obtain ⟨hk1, hg1⟩ := storeByte_user hk hp hbuf hu h1
    have hS : ∀ c : Role, c.LeafOf (.proc cur) → ¬ c.TableOf (.proc cur) :=
      fun _ h => h.not_table
    obtain ⟨hk', hframe⟩ := ih hk1 (hp.pageWrites hk hi hS hg1) (Nat.mod_lt _ (by norm_num))
      (hok.tail hbuf hm hk hp hi hg1 hS) h2
    rw [storeByte, Option.map_eq_some_iff] at h1
    obtain ⟨pa, hpa, rfl⟩ := h1
    refine ⟨by rw [hk'], ?_⟩
    intro x hx
    have hx1 : ¬ UserByte L { k with mem := Function.update k.mem pa c } cur x := by
      rintro ⟨va, hva, hua, hta⟩
      refine hx ⟨va, hva, (userPage_grow_iff hk hp hi hg1 hS hva).mp hua, ?_⟩
      rwa [(translate_grow pteW hk hp hi hg1 hS hva).2] at hta
    have hne : x ≠ pa := fun heq => hx ⟨buf, hbuf, hu, heq ▸ hpa⟩
    rw [hframe x hx1]
    exact Function.update_of_ne hne _ _

/-- The loop does not fault exactly if the whole buffer is mapped. -/
theorem storeBuf_isSome_iff (bytes : List UInt8) (hk : KmemInv L k g) (hp : ProcInv L k g cur)
    (hi : cur < 8) (hbuf : buf < 2 ^ 32) (hok : BufferOk L k cur pteW buf bytes.length) :
    (storeBuf L cur buf bytes k).isSome ↔ BufferUser L k cur buf bytes.length := by
  induction bytes generalizing k buf with
  | nil => simp [storeBuf, BufferUser]
  | cons c cs ih =>
    rw [storeBuf]
    cases h1 : storeByte L k cur buf c with
    | none =>
      have hnone : translate L k cur pteW buf = none := by
        simpa [storeByte] using h1
      constructor
      · simp
      · intro h
        have := (h 0 (by simp)).2
        rw [Nat.add_zero, Nat.mod_eq_of_lt hbuf, hnone] at this
        exact absurd this (by simp)
    | some k1 =>
      have hm := storeByte_isSome h1
      have hu := hok.head hbuf hm
      obtain ⟨hk1, hg1⟩ := storeByte_user hk hp hbuf hu h1
      have hS : ∀ c : Role, c.LeafOf (.proc cur) → ¬ c.TableOf (.proc cur) :=
        fun _ h => h.not_table
      have hnext : ∀ l, ((buf + 1) % 2 ^ 32 + l) % 2 ^ 32 = (buf + (l + 1)) % 2 ^ 32 := by
        intro l
        omega
      have hlt : ∀ l, (buf + l) % 2 ^ 32 < 2 ^ 32 := fun l => Nat.mod_lt _ (by norm_num)
      rw [Option.bind_some, ih hk1 (hp.pageWrites hk hi hS hg1) (Nat.mod_lt _ (by norm_num))
        (hok.tail hbuf hm hk hp hi hg1 hS)]
      have hstep : ∀ l, (UserPage L k1 cur (((buf + 1) % 2 ^ 32 + l) % 2 ^ 32) ∧
            (translate L k1 cur pteW (((buf + 1) % 2 ^ 32 + l) % 2 ^ 32)).isSome) ↔
          UserPage L k cur ((buf + (l + 1)) % 2 ^ 32) ∧
            (translate L k cur pteW ((buf + (l + 1)) % 2 ^ 32)).isSome := by
        intro l
        rw [hnext l, userPage_grow_iff hk hp hi hg1 hS (hlt _),
          (translate_grow pteW hk hp hi hg1 hS (hlt _)).2]
      constructor
      · intro h j hj
        cases j with
        | zero => exact ⟨by rwa [Nat.add_zero, Nat.mod_eq_of_lt hbuf],
            by rwa [Nat.add_zero, Nat.mod_eq_of_lt hbuf]⟩
        | succ j => exact (hstep j).mp (h j (by simpa using hj))
      · intro h j hj
        exact (hstep j).mpr (h (j + 1) (by simpa using hj))

/-! ## §2 Read and write -/

/-- The addresses `ksys_read` stores the bytes to. -/
def readStores (L : Layout) (s : Sys) (cur fd buf size : Nat) : List Nat :=
  if fd = 0 then
    let bytes := (ttyRead s.tty size).1
    storeTrace L cur (fun j _ => bytes[j]?) bytes.length 0 buf s.k
  else if fd = 1 ∨ fd = 2 then
    []
  else
    ((kprocFileGet L s.k cur fd).bind fun h =>
      (loadWord L s.k cur (osFsIdx h % 2 ^ 32)).bind fun fsFileIdx =>
      (loadWord L s.k cur (osRwpos h % 2 ^ 32)).bind fun cursor =>
      (loadWord L s.k cur (L.fsSize fsFileIdx % 2 ^ 32)).map fun fileSize =>
        storeTrace L cur
          (fun j k => loadByte L k cur ((L.fsData fsFileIdx + (cursor + j)) % 2 ^ 32))
          (min size (fileSize - cursor)) 0 buf s.k).getD []

/-- What `ksys_write` sends to the console: the addresses it loads from, each with its byte. -/
def writeSends (L : Layout) (k : KState) (cur fd data size : Nat) : List (Nat × UInt8) :=
  if fd = 1 then loadTrace L k cur data size else []

/-- A read that returns has stored its bytes to the buffer, one after the other. -/
theorem ksysRead_stores {bytes : List UInt8} {tty' : Tty}
    (h : ksysRead L s.k s.tty cur fd buf size = some (bytes, k', tty')) :
    readStores L s cur fd buf size = addrsFrom buf bytes.length := by
  unfold ksysRead at h
  unfold readStores
  by_cases h0 : fd = 0
  · rw [if_pos h0, Option.map_eq_some_iff] at h
    obtain ⟨k1, hst, heq⟩ := h
    rw [Prod.mk.injEq] at heq
    rw [if_pos h0, ← heq.1]
    exact storeTrace_storeBuf (fun l _ => by rw [Nat.zero_add]) hst
  rw [if_neg h0] at h ⊢
  by_cases h12 : fd = 1 ∨ fd = 2
  · rw [if_pos h12, Option.some.injEq, Prod.mk.injEq] at h
    rw [if_pos h12, ← h.1]
    rfl
  rw [if_neg h12] at h ⊢
  simp only [filesystemFileRead, Option.bind_eq_some_iff, Option.map_eq_some_iff] at h
  obtain ⟨hd, e0, ⟨bytes1, k1⟩, ⟨fsFileIdx, e1, cursor, e2, fileSize, e3, ⟨c1, cs, k2⟩, hloop, k3, -,
    heq⟩, heq'⟩ := h
  rw [Prod.mk.injEq] at heq heq'
  simp only [e0, e1, e2, e3, Option.bind_some, Option.map_some, Option.getD_some]
  rw [← heq'.1, ← heq.1]
  exact storeTrace_fileReadLoop (j := 0) hloop

theorem loadByte_of_mem_writeSends {p : Nat × UInt8} (h : p ∈ writeSends L k cur fd buf size) :
    loadByte L k cur p.1 = some p.2 := by
  unfold writeSends at h
  split at h
  · exact loadByte_of_mem_loadTrace h
  · simp at h

/-- A write that returns has sent these bytes, from these addresses. -/
theorem ksysWrite_sends {ret : Nat} {bytes : List UInt8}
    (h : ksysWrite L k cur fd buf size = some (ret, bytes)) :
    (writeSends L k cur fd buf size).map Prod.fst = addrsFrom buf bytes.length ∧
      (writeSends L k cur fd buf size).map Prod.snd = bytes := by
  unfold ksysWrite at h
  unfold writeSends
  split at h
  · rename_i h1
    rw [if_pos h1]
    obtain ⟨bytes', hload, heq⟩ := Option.map_eq_some_iff.mp h
    rw [Prod.mk.injEq] at heq
    obtain ⟨hfst, hsnd⟩ := loadTrace_loadBuf hload
    rw [← heq.2, hfst, hsnd, ← hsnd, List.length_map, ← List.length_map (f := Prod.fst), hfst]
    exact ⟨by rw [length_addrsFrom], rfl⟩
  · rename_i h1
    rw [Option.some.injEq, Prod.mk.injEq] at h
    rw [if_neg h1, ← h.2]
    exact ⟨rfl, rfl⟩

theorem readStores_user_iff (h : SysInv L s g) (hlive : Live L s.k cur) (hbuf : buf < 2 ^ 32)
    (hopen : FdOpen L s.k cur fd) :
    (∀ a ∈ readStores L s cur fd buf size, UserPage L s.k cur a) ↔
      BufferOk L s.k cur pteW buf (readCount L s cur fd size) := by
  have hi : cur < 8 := hlive.1
  have hp := h.inv.proc cur hlive
  unfold readStores readCount
  by_cases h0 : fd = 0
  · rw [if_pos h0, if_pos h0, ← (ttyRead_bytes size s.tty h.tty).1]
    refine storeTrace_user_iff h.inv.kmem hp hi hbuf (fun l _ hl k1 _ => ?_)
    rw [List.getElem?_eq_getElem (by omega)]
    rfl
  rw [if_neg h0, if_neg h0]
  by_cases h3 : fd < 3
  · rw [if_pos (by omega), if_pos h3]
    simp [BufferOk]
  rw [if_neg (by omega), if_neg h3]
  obtain ⟨hfd, hne⟩ := hopen.resolve_left h3
  have ho := h.files.openFile cur hi fd hfd hne
  obtain ⟨e1, e2, e3⟩ := ho.loadWords hp
  rw [kprocFileGet_eq hp hi hfd, Option.bind_some, e1, Option.bind_some, e2, Option.bind_some, e3,
    Option.map_some, Option.getD_some]
  refine storeTrace_user_iff h.inv.kmem hp hi hbuf (fun l _ hl k1 hp1 => ?_)
  -- a byte of the file is at a kernel address
  have hsize := h.files.sizes _ ho.file
  have hend := L.end_le
  have hdata := L.fsData_static ho.file
    (o := s.k.load (osRwpos (pcb L s.k cur (.openedFiles fd))) + l) (by omega)
  simp only [vaUserBase] at hend
  rw [Nat.mod_eq_of_lt (by omega), loadByte_kernel hp1 (by simp only [Layout.freeRamEnd]; omega)]
  rfl

theorem writeSends_user_iff (h : SysInv L s g) (hlive : Live L s.k cur) (hbuf : buf < 2 ^ 32) :
    (∀ p ∈ writeSends L s.k cur fd buf size, UserPage L s.k cur p.1) ↔
      (fd = 1 → BufferOk L s.k cur pteR buf size) := by
  unfold writeSends
  by_cases h1 : fd = 1
  · rw [if_pos h1, loadTrace_user_iff h.inv.kmem (h.inv.proc cur hlive) hlive.1 hbuf]
    simp [h1]
  · simp [h1]

/-- The bytes `ksys_read` delivers. -/
def readBytes (L : Layout) (s : Sys) (cur fd size : Nat) : List UInt8 :=
  if fd = 0 then (ttyRead s.tty size).1
  else if fd < 3 then []
  else fileBytes L s.k (pcb L s.k cur (.openedFiles fd)) size

theorem length_readBytes (h : SysInv L s g) :
    (readBytes L s cur fd size).length = readCount L s cur fd size := by
  unfold readBytes readCount
  rw [← (ttyRead_bytes size s.tty h.tty).1]
  split
  · rfl
  split
  · rfl
  · exact length_fileBytes _ _ _ _

/-- What is left after the buffer is filled: of a file the position moves. -/
def readDone (L : Layout) (s : Sys) (cur fd size : Nat) (k1 : KState) : KState :=
  if fd < 3 then k1
  else k1.store (osRwpos (pcb L s.k cur (.openedFiles fd)))
    (s.k.load (osRwpos (pcb L s.k cur (.openedFiles fd))) +
      fileRest L s.k (pcb L s.k cur (.openedFiles fd)) size)

/-- `ksys_read` on an open descriptor, into a buffer of the caller. -/
theorem ksysRead_eq (h : SysInv L s g) (hlive : Live L s.k cur) (hbuf : buf < 2 ^ 32)
    (hopen : FdOpen L s.k cur fd)
    (hok : BufferOk L s.k cur pteW buf (readCount L s cur fd size)) :
    ksysRead L s.k s.tty cur fd buf size =
      (storeBuf L cur buf (readBytes L s cur fd size) s.k).map fun k1 =>
        (readBytes L s cur fd size, readDone L s cur fd size k1,
          if fd = 0 then (ttyRead s.tty size).2 else s.tty) := by
  have hi : cur < 8 := hlive.1
  have hp := h.inv.proc cur hlive
  unfold ksysRead readBytes readDone
  by_cases h0 : fd = 0
  · simp [h0]
  rw [if_neg h0, if_neg h0]
  by_cases h3 : fd < 3
  · rw [if_pos (by omega), if_pos h3, storeBuf]
    simp [h0, h3]
  rw [if_neg (by omega), if_neg h3]
  obtain ⟨hfd, hne⟩ := hopen.resolve_left h3
  have ho := h.files.openFile cur hi fd hfd hne
  rw [readCount, if_neg h0, if_neg h3] at hok
  rw [kprocFileGet_eq hp hi hfd, Option.bind_some,
    filesystemFileRead_eq h.inv.kmem hp hi ho (h.files.sizes _ ho.file) hbuf hok, Option.map_map]
  simp [h0, h3, Function.comp_def]

/-- A byte of the position of the open file behind `fd`. -/
def PositionByte (L : Layout) (k : KState) (cur fd x : Nat) : Prop :=
  3 ≤ fd ∧ osRwpos (pcb L k cur (.openedFiles fd)) ≤ x ∧
    x < osRwpos (pcb L k cur (.openedFiles fd)) + 4

theorem ksysRead_frame {bytes : List UInt8} {tty' : Tty} (h : SysInv L s g)
    (hlive : Live L s.k cur) (hbuf : buf < 2 ^ 32) (hopen : FdOpen L s.k cur fd)
    (hok : BufferOk L s.k cur pteW buf (readCount L s cur fd size))
    (hr : ksysRead L s.k s.tty cur fd buf size = some (bytes, k', tty')) :
    (fd ≠ 0 → tty' = s.tty) ∧ k' = { s.k with mem := k'.mem } ∧
      ∀ x, ¬ UserByte L s.k cur x → ¬ PositionByte L s.k cur fd x → k'.mem x = s.k.mem x := by
  rw [ksysRead_eq h hlive hbuf hopen hok, Option.map_eq_some_iff] at hr
  obtain ⟨k1, hst, heq⟩ := hr
  rw [Prod.mk.injEq, Prod.mk.injEq] at heq
  obtain ⟨-, rfl, rfl⟩ := heq
  obtain ⟨hk1, hframe⟩ := storeBuf_frame _ h.inv.kmem (h.inv.proc cur hlive) hlive.1 hbuf
    (by rwa [length_readBytes h]) hst
  refine ⟨fun h0 => by rw [if_neg h0], ?_, ?_⟩
  · unfold readDone
    split
    · exact hk1
    · rw [hk1]
      rfl
  · intro x hx hpos
    rw [← hframe x hx]
    unfold readDone
    split
    · rfl
    · rename_i h3
      refine store32_outside _ _ _ ?_
      simp only [PositionByte] at hpos
      omega

/-- A write from pages of the process sends the same whatever is elsewhere. -/
theorem writeSends_congr (hsame : SameToUser L cur s.k k') (h : SysInv L s g)
    (hlive : Live L s.k cur) (hbuf : buf < 2 ^ 32)
    (hok : fd = 1 → BufferOk L s.k cur pteR buf size) :
    writeSends L k' cur fd buf size = writeSends L s.k cur fd buf size ∧
      ksysWrite L k' cur fd buf size = ksysWrite L s.k cur fd buf size := by
  unfold writeSends ksysWrite
  by_cases h1 : fd = 1
  · have htrace := loadTrace_congr hsame h.inv.kmem (h.inv.proc cur hlive) hlive.1 hbuf (hok h1)
    simp only [if_pos h1, loadBuf_eq, htrace, and_self]
  · simp only [if_neg h1, and_self]

/-- Read stores to pages of the caller only if and only if its buffer lies in
them, and then it leaves everything else alone. Write sends bytes of such pages
only if and only if its buffer lies in them, and then what it sends does not
depend on anything else. -/
theorem read_write_confined_iff (L : Layout) (s : Sys) (cur fd buf size : Nat)
    (h : SysReach L (fun s op => op.Safe L s) s) (hlive : Live L s.k cur) (hbuf : buf < 2 ^ 32)
    (hopen : FdOpen L s.k cur fd) :
    ((∀ a ∈ readStores L s cur fd buf size, UserPage L s.k cur a) ↔
        BufferOk L s.k cur pteW buf (readCount L s cur fd size)) ∧
      ((∀ p ∈ writeSends L s.k cur fd buf size, UserPage L s.k cur p.1) ↔
        (fd = 1 → BufferOk L s.k cur pteR buf size)) ∧
      (BufferOk L s.k cur pteW buf (readCount L s cur fd size) → ∀ bytes k' tty',
        ksysRead L s.k s.tty cur fd buf size = some (bytes, k', tty') →
          readStores L s cur fd buf size = addrsFrom buf bytes.length ∧
            k' = { s.k with mem := k'.mem } ∧ ∀ x, ¬ UserByte L s.k cur x →
              ¬ PositionByte L s.k cur fd x → k'.mem x = s.k.mem x) ∧
      ((∀ p ∈ writeSends L s.k cur fd buf size, loadByte L s.k cur p.1 = some p.2) ∧
        ∀ ret bytes, ksysWrite L s.k cur fd buf size = some (ret, bytes) →
          writeSends L s.k cur fd buf size = (addrsFrom buf bytes.length).zip bytes) ∧
      ((fd = 1 → BufferOk L s.k cur pteR buf size) → ∀ k', SameToUser L cur s.k k' →
        writeSends L k' cur fd buf size = writeSends L s.k cur fd buf size ∧
          ksysWrite L k' cur fd buf size = ksysWrite L s.k cur fd buf size) := by
  obtain ⟨g, hI⟩ := sysReach_inv (fun _ _ h => h) h
  refine ⟨readStores_user_iff hI hlive hbuf hopen, writeSends_user_iff hI hlive hbuf, ?_,
    ⟨fun p hp => loadByte_of_mem_writeSends hp, ?_⟩, ?_⟩
  · intro hok bytes k' tty' hr
    exact ⟨ksysRead_stores hr, (ksysRead_frame hI hlive hbuf hopen hok hr).2⟩
  · intro ret bytes hw
    obtain ⟨h1, h2⟩ := ksysWrite_sends hw
    rw [← h1, ← h2, List.zip_map', List.map_id']
  · exact fun hok k' hsame => writeSends_congr hsame hI hlive hbuf hok

/-- The first process runs and a newline has arrived at the console. -/
theorem exampleNewline (ok : Sys → Op → Prop) (hsched : ∀ s i, ok s (.schedule i))
    (hcons : ∀ s c, ok s (.console c)) :
    ∃ s g, SysReach exampleLayout ok s ∧ Entered exampleLayout exampleMem s g ∧
      (ttyRead s.tty 1).1 = [newline] := by
  obtain ⟨s, g, hs, he, htty⟩ := exampleEntered ok hsched
  refine ⟨{ s with tty := (ttyBufferInsert s.tty newline).2 }, g,
    hs.step (hcons s newline) rfl, ?_, by rw [htty]; rfl⟩
  exact ⟨⟨⟨he.running.inv.inv, he.running.inv.files, he.running.inv.tty.bufferInsert newline⟩,
    he.running.user, he.running.current, he.running.live⟩, he.others, he.files, he.opened, he.osFiles,
    he.heap, he.stackTop, he.free, he.image⟩

theorem not_userPage_kernel (hp : ProcInv L k g cur) (hva : va < L.freeRamEnd) :
    ¬ UserPage L k cur va := by
  rintro ⟨e, he, hU⟩
  rw [hp.kernel_map (va / pageSize) (by rw [L.freeRamEnd_eq] at hva; simp only [pageSize]; omega),
    Option.some.injEq] at he
  exact hU (he ▸ kernelEntry_not_user _)

/-- The bytes of the stack page, for the process and for the kernel. -/
theorem stack_access (hI : Inv L k g) (hlive : Live L k cur) (hj : j < pageSize) :
    UserPage L k cur ((vaUserStack + j) % 2 ^ 32) ∧
      (translate L k cur pteR ((vaUserStack + j) % 2 ^ 32)).isSome ∧
      (translate L k cur pteW ((vaUserStack + j) % 2 ^ 32)).isSome := by
  have hp := hI.proc cur hlive
  have hv : (vaUserStack + j) % 2 ^ 32 / pageSize = 0xFFFFE := by
    simp only [vaUserStack, vaUserStackInit, vaTrapframe, pageSize] at *
    omega
  have hal := (hI.kmem.page_of hp.userStack nofun).2.2
  have hbit : ∀ n ∈ [1, 2, 4], (pcb L k cur .userStack / 4 + 31) &&& 2 ^ n ≠ 0 := by
    intro n hn
    refine (and_two_pow_ne_zero _ n).mpr ?_
    simp only [List.mem_cons, List.not_mem_nil, or_false] at hn
    obtain rfl | rfl | rfl := hn <;> omega
  have hR : (pcb L k cur .userStack / 4 + 31) &&& pteR ≠ 0 := hbit 1 (by simp)
  have hW : (pcb L k cur .userStack / 4 + 31) &&& pteW ≠ 0 := hbit 2 (by simp)
  simp only [UserPage, translate, hv, hp.stack_map, if_pos hR, if_pos hW, Option.isSome_some, and_self,
    and_true]
  exact ⟨_, rfl, hbit 4 (by simp)⟩

theorem bufferOk_stack (flag : Nat) (hI : Inv L k g) (hlive : Live L k cur) (hn : n ≤ pageSize) :
    BufferOk L k cur flag vaUserStack n :=
  fun _ hj _ => (stack_access hI hlive (by omega)).1

theorem loadBuf_isSome (hbuf : buf < 2 ^ 32)
    (h : ∀ j < n, (translate L k cur pteR ((buf + j) % 2 ^ 32)).isSome) :
    (loadBuf L k cur buf n).isSome := by
  induction n generalizing buf with
  | zero => rfl
  | succ n ih =>
    have hnext : ∀ j, ((buf + 1) % 2 ^ 32 + j) % 2 ^ 32 = (buf + (j + 1)) % 2 ^ 32 := by
      intro j
      omega
    have h0 := h 0 (by omega)
    rw [Nat.add_zero, Nat.mod_eq_of_lt hbuf] at h0
    obtain ⟨x, hx⟩ := Option.isSome_iff_exists.mp h0
    have hrest := ih (Nat.mod_lt (buf + 1) (by norm_num)) (fun j hj => by
      rw [hnext j]
      exact h (j + 1) (by omega))
    simpa [loadBuf, loadByte, hx] using hrest

theorem loadBuf_stack (hI : Inv L k g) (hlive : Live L k cur) (hn : n ≤ pageSize) :
    (loadBuf L k cur vaUserStack n).isSome :=
  loadBuf_isSome (by decide) fun _ hj => (stack_access hI hlive (by omega)).2.1

/-- The kernel's own data is nothing that a process could load. -/
theorem sameToUser_update (c : UInt8) (hI : Inv L k g) (hlive : Live L k cur) {x : Nat}
    (hx : L.OffPagetable cur x) :
    SameToUser L cur k { k with mem := Function.update k.mem x c } := by
  have hp := hI.proc cur hlive
  refine ⟨fun va hva => translate_update hp hI.kmem hx hva, ?_⟩
  rintro y ⟨va, hva, ⟨e, he, hU⟩, ht⟩
  have hpage := hI.kmem.page_of (hp.leaves _ (by simp only [pageSize]; omega) e he hU) nofun
  have hle : pteAddr e ≤ y := by
    simp only [translate, he] at ht
    split at ht
    · rw [← Option.some.inj ht]
      omega
    · exact absurd ht nofun
  exact Function.update_of_ne (by have := hpage.1; have := hx.1; omega) _ _

/-- The first process reads a newline to its stack and sends two bytes from
there, whatever the kernel has in the control blocks. -/
theorem read_write_confined_stack : ∃ s,
    SysReach exampleLayout (fun s op => op.Safe exampleLayout s) s ∧ Live exampleLayout s.k 0 ∧
      (ttyRead s.tty 1).1 = [newline] ∧
      (∀ a ∈ readStores exampleLayout s 0 0 vaUserStack 1, UserPage exampleLayout s.k 0 a) ∧
      ∃ b c, ksysWrite exampleLayout s.k 0 1 vaUserStack 2 = some (0, [b, c]) ∧
        writeSends exampleLayout s.k 0 1 vaUserStack 2 = [(vaUserStack, b), (vaUserStack + 1, c)] ∧
        (∀ p ∈ writeSends exampleLayout s.k 0 1 vaUserStack 2, UserPage exampleLayout s.k 0 p.1) ∧
        ∀ v, ksysWrite exampleLayout
          { s.k with mem := Function.update s.k.mem (exampleLayout.proc 0) v } 0 1 vaUserStack 2 =
            some (0, [b, c]) := by
  obtain ⟨s, g, hs, he, htty⟩ :=
    exampleNewline (fun s op => op.Safe exampleLayout s) (fun _ _ => trivial) (fun _ _ => trivial)
  have hlive := he.running.live
  have hI := he.running.inv.inv
  have hread := read_write_confined_iff exampleLayout s 0 0 vaUserStack 1 hs hlive (by decide)
    (.inl (by decide))
  obtain ⟨-, hsend, -, ⟨-, hwrite⟩, hsame⟩ := read_write_confined_iff exampleLayout s 0 1 vaUserStack 2
    hs hlive (by decide) (.inl (by decide))
  have hok : BufferOk exampleLayout s.k 0 pteR vaUserStack 2 :=
    bufferOk_stack pteR hI hlive (by decide)
  have hcount : readCount exampleLayout s 0 0 1 = 1 := by
    rw [← length_readBytes he.running.inv, readBytes, if_pos rfl, htty]
    rfl
  obtain ⟨bytes, hload⟩ := Option.isSome_iff_exists.mp (loadBuf_stack hI hlive (n := 2) (by decide))
  have hlen : bytes.length = 2 := by
    rw [← (loadTrace_loadBuf hload).2, List.length_map, ← List.length_map (f := Prod.fst),
      (loadTrace_loadBuf hload).1, length_addrsFrom]
  obtain ⟨b, c, rfl⟩ := List.length_eq_two.mp hlen
  have hw : ksysWrite exampleLayout s.k 0 1 vaUserStack 2 = some (0, [b, c]) := by
    rw [ksysWrite, if_pos rfl, hload]
    rfl
  have hsends := hwrite 0 [b, c] hw
  refine ⟨s, hs, hlive, htty, hread.1.mpr ?_, b, c, hw, hsends, hsend.mpr (fun _ => hok),
    fun v => ?_⟩
  · rw [hcount]
    exact bufferOk_stack pteW hI hlive (by decide)
  · have hoff : exampleLayout.OffPagetable 0 (exampleLayout.proc 0) :=
      ⟨by decide, .inl (by decide)⟩
    rw [(hsame (fun _ => hok) _ (sameToUser_update v hI hlive hoff)).2, hw]

/-- A process reads a newline over its own PID. -/
theorem read_into_kernel : ∃ s, SysReach exampleLayout (fun _ _ => True) s ∧
    s.k.current = some 0 ∧ Live exampleLayout s.k 0 ∧
    ¬ (∀ a ∈ readStores exampleLayout s 0 0 (exampleLayout.proc 0) 1,
      UserPage exampleLayout s.k 0 a) ∧
    ∃ bytes k' tty', ksysRead exampleLayout s.k s.tty 0 0 (exampleLayout.proc 0) 1 =
      some (bytes, k', tty') ∧ pcb exampleLayout k' 0 .pid ≠ pcb exampleLayout s.k 0 .pid := by
  obtain ⟨s, g, hs, he, htty⟩ :=
    exampleNewline (fun _ _ => True) (fun _ _ => trivial) (fun _ _ => trivial)
  have hlive := he.running.live
  have hp := he.running.inv.inv.proc 0 hlive
  have hva : exampleLayout.proc 0 < exampleLayout.freeRamBegin := by decide
  have hst : storeByte exampleLayout s.k 0 (exampleLayout.proc 0) newline = some _ :=
    storeByte_static hp hva
  refine ⟨s, hs, he.running.current, hlive, ?_, ?_⟩
  · intro h
    have hram : exampleLayout.proc 0 < exampleLayout.freeRamEnd := by decide
    refine not_userPage_kernel hp hram (h _ ?_)
    simp only [readStores, if_pos, htty, storeTrace, List.length_cons, List.length_nil]
    simp [hst]
  · refine ⟨[newline], { s.k with mem := Function.update s.k.mem (exampleLayout.proc 0) newline },
      (ttyRead s.tty 1).2, ?_, ?_⟩
    · simp only [ksysRead, if_pos, htty, storeBuf, hst, Option.bind_some, Option.map_some]
    · intro heq
      have h1 := load32_mod (Function.update s.k.mem (exampleLayout.proc 0) newline)
        (exampleLayout.proc 0)
      rw [Function.update_self] at h1
      have h2 : load32 (Function.update s.k.mem (exampleLayout.proc 0) newline)
          (exampleLayout.proc 0) = 1 := heq.trans hp.pid
      rw [h2] at h1
      exact absurd h1 (by decide)

/-! ## §3 Descriptors -/

/-- A byte of the entry of `opened_files`, or of the entry of `os_files` that it points to. -/
def DescriptorByte (L : Layout) (k : KState) (cur fd x : Nat) : Prop :=
  (L.openedFile cur fd ≤ x ∧ x < L.openedFile cur fd + 4) ∨
    (pcb L k cur (.openedFiles fd) ≤ x ∧ x < pcb L k cur (.openedFiles fd) + sizeofOsFile)

/-- A descriptor that is an index into `opened_files` and names an open file. -/
def HasHandle (L : Layout) (k : KState) (cur fd : Nat) : Prop :=
  3 ≤ fd ∧ fd < maxOpenFiles ∧ pcb L k cur (.openedFiles fd) ≠ 0

/-- `ksys_read` returns, what it stores to are pages of the caller, and it changes
the console for `fd` 0, nothing for the other standard descriptors, and the
handle taken from `opened_files` for any other value. -/
def ReadSafe (L : Layout) (s : Sys) (cur fd buf size : Nat) : Prop :=
  (∀ a ∈ readStores L s cur fd buf size, UserPage L s.k cur a) ∧
    ∃ bytes k' tty', ksysRead L s.k s.tty cur fd buf size = some (bytes, k', tty') ∧
      k' = { s.k with mem := k'.mem } ∧
      (fd = 0 ∧ (∀ x, ¬ UserByte L s.k cur x → k'.mem x = s.k.mem x) ∨
        (fd = 1 ∨ fd = 2) ∧ k' = s.k ∧ tty' = s.tty ∨
        HasHandle L s.k cur fd ∧ tty' = s.tty ∧ ∀ x, ¬ UserByte L s.k cur x →
          ¬ DescriptorByte L s.k cur fd x → k'.mem x = s.k.mem x)

/-- `ksys_close` returns, and it changes nothing, or it fails and changes nothing,
or it changes the two entries of an open file. -/
def CloseSafe (L : Layout) (k : KState) (cur fd : Nat) : Prop :=
  ∃ ret k', filesystemFileClose L k cur fd = some (ret, k') ∧ k' = { k with mem := k'.mem } ∧
    (fd < 3 ∧ k' = k ∨ ret = 0xFFFFFFFF ∧ k' = k ∨
      HasHandle L k cur fd ∧ ∀ x, ¬ DescriptorByte L k cur fd x → k'.mem x = k.mem x)

theorem FdOpen.standard_or_handle (h : FdOpen L k cur fd) : fd < 3 ∨ HasHandle L k cur fd := by
  by_cases h3 : fd < 3
  · exact .inl h3
  · exact .inr ⟨by omega, h.resolve_left h3⟩

theorem readSafe_iff (h : SysInv L s g) (hlive : Live L s.k cur) (hbuf : buf < 2 ^ 32) :
    ReadSafe L s cur fd buf size ↔
      FdOpen L s.k cur fd ∧ BufferUser L s.k cur buf (readCount L s cur fd size) := by
  have hp := h.inv.proc cur hlive
  constructor
  · rintro ⟨htrace, bytes, k', tty', hr, -, hcases⟩
    have hopen : FdOpen L s.k cur fd := by
      obtain ⟨rfl, -⟩ | ⟨h12, -⟩ | ⟨⟨-, hh⟩, -⟩ := hcases
      · exact .inl (by decide)
      · exact .inl (by omega)
      · exact .inr hh
    have hok := (readStores_user_iff h hlive hbuf hopen).mp htrace
    refine ⟨hopen, ?_⟩
    rw [← length_readBytes h] at hok ⊢
    refine (storeBuf_isSome_iff _ h.inv.kmem hp hlive.1 hbuf hok).mp ?_
    rw [length_readBytes h] at hok
    rw [ksysRead_eq h hlive hbuf hopen hok] at hr
    exact Option.isSome_of_mem (Option.map_eq_some_iff.mp hr).choose_spec.1
  · rintro ⟨hopen, hbu⟩
    have hok := hbu.bufferOk
    refine ⟨(readStores_user_iff h hlive hbuf hopen).mpr hok, ?_⟩
    have hsome : (storeBuf L cur buf (readBytes L s cur fd size) s.k).isSome := by
      rw [← length_readBytes h] at hok hbu
      exact (storeBuf_isSome_iff _ h.inv.kmem hp hlive.1 hbuf hok).mpr hbu
    obtain ⟨k1, hst⟩ := Option.isSome_iff_exists.mp hsome
    have hr := ksysRead_eq h hlive hbuf hopen hok
    rw [hst, Option.map_some] at hr
    obtain ⟨htty, hmem, hframe⟩ := ksysRead_frame h hlive hbuf hopen hok hr
    refine ⟨_, _, _, hr, hmem, ?_⟩
    obtain h3 | hh := hopen.standard_or_handle
    · by_cases h0 : fd = 0
      · exact .inl ⟨h0, fun x hx => hframe x hx (fun hpos => by have := hpos.1; omega)⟩
      · refine .inr (.inl ⟨by omega, ?_, htty h0⟩)
        rw [readBytes, if_neg h0, if_pos h3, storeBuf, Option.some.injEq] at hst
        rw [readDone, if_pos h3, hst]
    · refine .inr (.inr ⟨hh, htty (by have := hh.1; omega), fun x hx hd => hframe x hx ?_⟩)
      intro hpos
      refine hd (.inr ?_)
      have h1 := hpos.2.1
      have h2 := hpos.2.2
      simp only [osRwpos, sizeofOsFile] at *
      omega

theorem setOsFile_outside_entry {x inUse idx pos : Nat} (hx : x < L.osFile n ∨ L.osFile n + 12 ≤ x) :
    (setOsFile L k n inUse idx pos).mem x = k.mem x := by
  unfold setOsFile
  simp only [KState.store_mem, osInUse, osFsIdx, osRwpos]
  rw [store32_outside _ _ _ (by omega), store32_outside _ _ _ (by omega),
    store32_outside _ _ _ (by omega)]

theorem Layout.openedFile_eq (L : Layout) (hi : cur < 8) (hfd : fd < 8) :
    L.openedFile cur fd = L.proc cur + (PcbField.openedFiles fd).offset := by
  have hb := L.proc_bound hi
  have he := L.end_le
  refine Nat.mod_eq_of_lt ?_
  simp only [PcbField.offset, sizeofProcess, vaUserBase] at *
  omega

theorem closeSafe_iff (h : SysInv L s g) (hlive : Live L s.k cur) :
    CloseSafe L s.k cur fd ↔
      fd < maxOpenFiles ∨ loadWord L s.k cur (L.openedFile cur fd) = some 0 := by
  constructor
  · rintro ⟨ret, k', hc, -, hcases⟩
    by_cases hfd : fd < maxOpenFiles
    · exact .inl hfd
    right
    obtain ⟨h3, -⟩ | ⟨hret, -⟩ | ⟨hh, -⟩ := hcases
    · simp only [maxOpenFiles] at hfd
      omega
    · -- -1 is returned only where the entry is NULL
      rw [filesystemFileClose, if_neg (by simp only [maxOpenFiles] at hfd; omega), kprocFileGet,
        Option.bind_eq_some_iff] at hc
      obtain ⟨hd, hget, hc⟩ := hc
      rw [kprocFileRemove, hget, Option.bind_some] at hc
      by_cases h0 : hd = 0
      · rw [hget, h0]
      · rw [if_neg h0, Option.bind_eq_some_iff] at hc
        obtain ⟨⟨r, k1⟩, hrem, hc⟩ := hc
        rw [Option.map_eq_some_iff] at hrem
        obtain ⟨k2, -, heq⟩ := hrem
        rw [Prod.mk.injEq] at heq
        obtain ⟨rfl, rfl⟩ := heq
        simp only [if_pos, Option.bind_eq_some_iff, Option.map_eq_some_iff, Prod.mk.injEq] at hc
        obtain ⟨-, -, -, -, -, -, h0', -⟩ := hc
        omega
    · exact absurd hh.2.1 hfd
  · intro hcond
    by_cases h3 : fd < 3
    · exact ⟨0, s.k, by rw [filesystemFileClose, if_pos h3], rfl, .inl ⟨h3, rfl⟩⟩
    by_cases hfd : fd < 8
    · obtain ⟨-, hc⟩ | ⟨n, hn, hentry, hc⟩ :=
        filesystemFileClose_spec h.inv h.files hlive (by omega) hfd
      · exact ⟨_, _, hc, rfl, .inr (.inl ⟨rfl, rfl⟩)⟩
      · refine ⟨_, _, hc, rfl, .inr (.inr ⟨⟨by omega, hfd, ?_⟩, ?_⟩)⟩
        · rw [hentry]
          exact L.osFile_ne_zero n
        · intro x hx
          simp only [DescriptorByte, hentry, L.openedFile_eq hlive.1 hfd, sizeofOsFile] at hx
          rw [setOsFile_outside_entry (by omega)]
          exact store32_outside _ _ _ (by omega)
    · have hnull := hcond.resolve_left hfd
      refine ⟨0xFFFFFFFF, s.k, ?_, rfl, .inr (.inl ⟨rfl, rfl⟩)⟩
      rw [filesystemFileClose, if_neg h3, kprocFileGet, hnull, Option.bind_some, kprocFileRemove,
        hnull]
      rfl

/-- Which descriptor values are safe: those that index `opened_files`. -/
theorem descriptor_calls_safe_iff (L : Layout) (s : Sys) (cur fd buf size : Nat)
    (h : SysReach L (fun s op => op.Safe L s) s) (hlive : Live L s.k cur) (hbuf : buf < 2 ^ 32) :
    (ReadSafe L s cur fd buf size ↔
        FdOpen L s.k cur fd ∧ BufferUser L s.k cur buf (readCount L s cur fd size)) ∧
      (CloseSafe L s.k cur fd ↔
        fd < maxOpenFiles ∨ loadWord L s.k cur (L.openedFile cur fd) = some 0) := by
  obtain ⟨g, hI⟩ := sysReach_inv (fun _ _ h => h) h
  exact ⟨readSafe_iff hI hlive hbuf, closeSafe_iff hI hlive⟩

theorem bufferUser_stack (hI : Inv L k g) (hlive : Live L k cur) (hn : n ≤ pageSize) :
    BufferUser L k cur vaUserStack n := fun j hj => by
  obtain ⟨hu, hR, hW⟩ := stack_access hI hlive (j := j) (by omega)
  exact ⟨hu, hW⟩

/-- The first process has opened its own file: it may read 16 bytes of it to its
stack and close it, and it may close a descriptor that is not open. -/
theorem descriptor_calls_safe_open : ∃ s,
    SysReach exampleLayout (fun s op => op.Safe exampleLayout s) s ∧ Live exampleLayout s.k 0 ∧
      pcb exampleLayout s.k 0 (.openedFiles 3) ≠ 0 ∧ readCount exampleLayout s 0 3 16 = 16 ∧
      ReadSafe exampleLayout s 0 3 vaUserStack 16 ∧ CloseSafe exampleLayout s.k 0 3 ∧
      pcb exampleLayout s.k 0 (.openedFiles 4) = 0 ∧ CloseSafe exampleLayout s.k 0 4 := by
  obtain ⟨s0, g, hs, he, -⟩ :=
    exampleEntered (fun s op => op.Safe exampleLayout s) (fun _ _ => trivial)
  obtain ⟨s, hstep, h1⟩ := he.hasOpened.exampleStep (by decide)
  have hreach : SysReach exampleLayout (fun s op => op.Safe exampleLayout s) s :=
    hs.step (o := Op.call (.openFile examplePath)) (fun _ _ => trivial) hstep
  have hlive := h1.running.live
  have hne := h1.used le_rfl (by decide)
  -- the file has 92 bytes, and nothing has been read yet
  have hcount : readCount exampleLayout s 0 3 16 = 16 := by
    obtain ⟨j, -, hentry, hidx, hpos⟩ := h1.entries 3 le_rfl (by decide)
    have hsize := h1.files.load_fsSize (show 2 < 12 by decide)
    rw [readCount, if_neg (by decide), if_neg (by decide), fileRest, hentry, hidx, hpos,
      examplePath_locate, hsize, exampleFile_head.1]
    rfl
  refine ⟨s, hreach, hlive, hne, hcount, ?_, ?_, h1.unused 4 (by decide) (by decide), ?_⟩
  · refine (descriptor_calls_safe_iff exampleLayout s 0 3 vaUserStack 16 hreach hlive
      (by decide)).1.mpr ⟨.inr ⟨by decide, hne⟩, ?_⟩
    rw [hcount]
    exact bufferUser_stack h1.running.inv.inv hlive (by decide)
  · exact (descriptor_calls_safe_iff exampleLayout s 0 3 vaUserStack 16 hreach hlive
      (by decide)).2.mpr (.inl (by decide))
  · exact (descriptor_calls_safe_iff exampleLayout s 0 4 vaUserStack 16 hreach hlive
      (by decide)).2.mpr (.inl (by decide))

/-- `close(8)` takes `kernel_stack_top` for a handle. -/
theorem close_stack_top : ∃ s, SysReach exampleLayout (fun _ _ => True) s ∧
    s.k.current = some 0 ∧ Live exampleLayout s.k 0 ∧ ¬ CloseSafe exampleLayout s.k 0 8 := by
  obtain ⟨s, g, hs, he, -⟩ := exampleEntered (fun _ _ => True) (fun _ _ => trivial)
  refine ⟨s, hs, he.running.current, he.running.live, ?_⟩
  rw [closeSafe_iff he.running.inv he.running.live]
  rintro (h8 | hnull)
  · exact absurd h8 (by decide)
  · have hp := he.running.inv.inv.proc 0 he.running.live
    have htop := he.stackTop 0 (by decide)
    rw [loadWord_kernel hp (by decide), Option.some.injEq] at hnull
    have hne : exampleLayout.proc 0 + sizeofProcess = 0 := htop.symm.trans hnull
    exact absurd hne (by decide)

end Risky321.Kernel
