/-
Risky321.Kernel.AccessTheorems — what the kernel reaches through the page
table of the current process.

An address below `__free_ram_end` is reached as it is, because every
process maps the kernel 1:1 (§1). An address in a page that the process
itself may use leads to one of its own leaves (§2), so a buffer that lies
in such pages can be filled without touching anything else (§3).
-/
import Risky321.Kernel.ForkTheorems
import Risky321.Kernel.System

namespace Risky321.Kernel

open Risky321.Lib

variable {L : Layout} {k k' k'' : KState} {g g' : Ghost} {cur flag va x v n buf : Nat} {c : UInt8}
  {S : Role → Prop}

/-! ## §1 Kernel addresses -/

theorem Layout.freeRamEnd_eq (L : Layout) : L.freeRamEnd = L.kernelPages * 4096 := by
  have := L.begin_aligned
  simp only [Layout.kernelPages, Layout.freeRamEnd]
  omega

theorem kernelEntry_flags (v : Nat) :
    (v * 1024 + 15) &&& pteR ≠ 0 ∧ (v * 1024 + 15) &&& pteW ≠ 0 := by
  have h1 := and_two_pow_ne_zero (v * 1024 + 15) 1
  have h2 := and_two_pow_ne_zero (v * 1024 + 15) 2
  norm_num at h1 h2
  exact ⟨by rw [ne_eq, h1]; omega, by rw [ne_eq, h2]; omega⟩

theorem kernelEntry_addr (hv : v < 2 ^ 20) : pteAddr (v * 1024 + 15) = v * 4096 := by
  have h := pteAddr_entry (p := v * 4096) (f := 15) (by omega) (by omega) (by omega)
  rwa [show v * 4096 / 4 = v * 1024 by omega] at h

/-- The kernel's own addresses are mapped 1:1. -/
theorem translate_kernel (hp : ProcInv L k g cur) (hva : va < L.freeRamEnd)
    (hflag : flag = pteR ∨ flag = pteW) : translate L k cur flag va = some va := by
  have hend := L.freeRamEnd_eq
  have hle := L.kernelPages_lt
  have hv : va / 4096 < L.kernelPages := by omega
  have hfl : (va / 4096 * 1024 + 15) &&& flag ≠ 0 := by
    obtain ⟨h1, h2⟩ := kernelEntry_flags (va / 4096)
    obtain rfl | rfl := hflag
    · exact h1
    · exact h2
  have haddr := kernelEntry_addr (v := va / 4096) (by omega)
  unfold translate
  rw [show va / pageSize = va / 4096 from rfl, hp.kernel_map _ hv]
  simp only [if_pos hfl, haddr, Option.some.injEq, pageSize]
  omega

theorem loadByte_kernel (hp : ProcInv L k g cur) (hva : va < L.freeRamEnd) :
    loadByte L k cur va = some (k.mem va) := by
  rw [loadByte, translate_kernel hp hva (.inl rfl), Option.map_some]

theorem loadWord_kernel (hp : ProcInv L k g cur) (hva : va + 4 ≤ L.freeRamEnd) :
    loadWord L k cur va = some (k.load va) := by
  have hend := L.end_le
  simp only [Layout.freeRamEnd, vaUserBase] at hva hend
  have hmod : ∀ j < 4, (va + j) % 2 ^ 32 = va + j := fun j hj => Nat.mod_eq_of_lt (by omega)
  have hb : ∀ j < 4, loadByte L k cur (va + j) = some (k.mem (va + j)) :=
    fun j hj => loadByte_kernel hp (by simp only [Layout.freeRamEnd]; omega)
  have hb0 := hb 0 (by omega)
  rw [Nat.add_zero] at hb0
  rw [loadWord, hmod 1 (by omega), hmod 2 (by omega), hmod 3 (by omega), hb0, hb 1 (by omega),
    hb 2 (by omega), hb 3 (by omega)]
  rfl

/-- Translation reads the tables and one field of the control block. -/
theorem translate_congr (k' : KState) (hp : ProcInv L k g cur) (hk : KmemInv L k g)
    (hm : ∀ x, L.freeRamBegin ≤ x → k'.mem x = k.mem x)
    (hpt : pcb L k' cur .pagetable = pcb L k cur .pagetable) (hva : va < 2 ^ 32) :
    translate L k' cur flag va = translate L k cur flag va := by
  unfold translate
  rw [hpt]
  have hwalk : walk k'.mem (pcb L k cur .pagetable) (va / pageSize) =
      walk k.mem (pcb L k cur .pagetable) (va / pageSize) := by
    refine hp.tree.walk_eq (fun p hrole y hy => load32_congr (fun z hz1 hz2 => ?_))
      (by simp only [pageSize]; omega)
    have := (hk.page p hrole.ne_lost).1
    exact hm z (by omega)
  rw [hwalk]

/-- A store to static data other than the pointer to the page table. -/
theorem storeByte_static (hp : ProcInv L k g cur) (hva : va < L.freeRamBegin) :
    storeByte L k cur va c = some { k with mem := Function.update k.mem va c } := by
  rw [storeByte, translate_kernel hp (by simp only [Layout.freeRamEnd]; omega) (.inr rfl),
    Option.map_some]

theorem store32_eq_updates (m : Mem) (a v : Nat) :
    Function.update (Function.update (Function.update (Function.update m a (wordByte v 0)) (a + 1)
      (wordByte v 1)) (a + 2) (wordByte v 2)) (a + 3) (wordByte v 3) = store32 m a v := by
  funext x
  by_cases h : a ≤ x ∧ x < a + 4
  · obtain ⟨j, rfl⟩ := Nat.exists_eq_add_of_le h.1
    have hj : j = 0 ∨ j = 1 ∨ j = 2 ∨ j = 3 := by omega
    obtain rfl | rfl | rfl | rfl := hj <;> simp [store32]
  · rw [store32_outside _ _ _ (by omega), Function.update_of_ne (by omega),
      Function.update_of_ne (by omega), Function.update_of_ne (by omega),
      Function.update_of_ne (by omega)]

/-- The static addresses whose contents translation does not depend on. -/
def Layout.OffPagetable (L : Layout) (cur x : Nat) : Prop :=
  x < L.freeRamBegin ∧ (x < L.proc cur + 72 ∨ L.proc cur + 76 ≤ x)

theorem translate_update (hp : ProcInv L k g cur) (hk : KmemInv L k g)
    (hx : L.OffPagetable cur x) (hva : va < 2 ^ 32) :
    translate L { k with mem := Function.update k.mem x c } cur flag va =
      translate L k cur flag va := by
  refine translate_congr _ hp hk (fun y hy => ?_) ?_ hva
  · have := hx.1
    exact Function.update_of_ne (by omega) _ _
  · have := hx.2
    apply load32_congr
    intro y h1 h2
    simp only [PcbField.offset] at h1 h2
    exact Function.update_of_ne (by omega) _ _

theorem storeWord_static (hp : ProcInv L k g cur) (hk : KmemInv L k g)
    (hx : ∀ j < 4, L.OffPagetable cur (va + j)) : storeWord L k cur va v = some (k.store va v) := by
  have hend := L.end_le
  simp only [vaUserBase] at hend
  have hlt : ∀ j < 4, va + j < L.freeRamBegin := fun j hj => (hx j hj).1
  have h0 := hlt 0 (by omega)
  have h3 := hlt 3 (by omega)
  have hmod : ∀ j < 4, (va + j) % 2 ^ 32 = va + j := fun j hj => Nat.mod_eq_of_lt (by omega)
  have htr : ∀ j < 4, translate L k cur pteW (va + j) = some (va + j) :=
    fun j hj => translate_kernel hp (by simp only [Layout.freeRamEnd]; omega) (.inr rfl)
  have htr0 := htr 0 (by omega)
  have hx0 := hx 0 (by omega)
  rw [Nat.add_zero] at htr0 hx0
  -- each store leaves the translation of the next address alone
  have hstep : ∀ (j : Nat) (m : Mem) (c : UInt8), j < 4 →
      translate L { k with mem := m } cur pteW (va + j) = some (va + j) →
      storeByte L { k with mem := m } cur (va + j) c =
        some { k with mem := Function.update m (va + j) c } := by
    intro j m c _ ht
    rw [storeByte, ht]
    rfl
  have hkeep : ∀ (m : Mem), (∀ y, L.freeRamBegin ≤ y → m y = k.mem y) →
      (∀ y, L.proc cur + 72 ≤ y → y < L.proc cur + 76 → m y = k.mem y) → ∀ j < 4,
      translate L { k with mem := m } cur pteW (va + j) = some (va + j) := by
    intro m h1 h2 j hj
    have hva : va + j < 2 ^ 32 := by omega
    rw [translate_congr { k with mem := m } hp hk h1 ?_ hva, htr j hj]
    apply load32_congr
    intro y hy1 hy2
    simp only [PcbField.offset] at hy1 hy2
    exact h2 y hy1 (by omega)
  have hup : ∀ (m : Mem) (j : Nat) (c : UInt8), j < 4 →
      ((∀ y, L.freeRamBegin ≤ y → m y = k.mem y) ∧
        (∀ y, L.proc cur + 72 ≤ y → y < L.proc cur + 76 → m y = k.mem y)) →
      (∀ y, L.freeRamBegin ≤ y → Function.update m (va + j) c y = k.mem y) ∧
        (∀ y, L.proc cur + 72 ≤ y → y < L.proc cur + 76 →
          Function.update m (va + j) c y = k.mem y) := by
    intro m j c hj hm
    have h1 := hx j hj
    unfold Layout.OffPagetable at h1
    refine ⟨fun y hy => ?_, fun y hy1 hy2 => ?_⟩
    · rw [Function.update_of_ne (by omega), hm.1 y hy]
    · rw [Function.update_of_ne (by omega), hm.2 y hy1 hy2]
  have hm0 : (∀ y, L.freeRamBegin ≤ y → k.mem y = k.mem y) ∧
      (∀ y, L.proc cur + 72 ≤ y → y < L.proc cur + 76 → k.mem y = k.mem y) :=
    ⟨fun _ _ => rfl, fun _ _ _ => rfl⟩
  have hm1 := hup k.mem 0 (wordByte v 0) (by omega) hm0
  have hm2 := hup _ 1 (wordByte v 1) (by omega) hm1
  have hm3 := hup _ 2 (wordByte v 2) (by omega) hm2
  have s0 := hstep 0 k.mem (wordByte v 0) (by omega) (by rw [Nat.add_zero]; exact htr0)
  have s1 := hstep 1 _ (wordByte v 1) (by omega) (hkeep _ hm1.1 hm1.2 1 (by omega))
  have s2 := hstep 2 _ (wordByte v 2) (by omega) (hkeep _ hm2.1 hm2.2 2 (by omega))
  have s3 := hstep 3 _ (wordByte v 3) (by omega) (hkeep _ hm3.1 hm3.2 3 (by omega))
  rw [storeWord, hmod 1 (by omega), hmod 2 (by omega), hmod 3 (by omega)]
  rw [Nat.add_zero] at s0 s1 s2 s3
  rw [show storeByte L k cur va (wordByte v 0) =
    some { k with mem := Function.update k.mem va (wordByte v 0) } from s0, Option.bind_some, s1,
    Option.bind_some, s2, Option.bind_some, s3]
  simp only [KState.store, store32_eq_updates]

/-! ## §2 User addresses -/

/-- The page of `va` is mapped for user mode in slot `cur`. -/
def UserPage (L : Layout) (k : KState) (cur va : Nat) : Prop :=
  ∃ e, walk k.mem (pcb L k cur .pagetable) (va / pageSize) = some e ∧ e &&& pteU ≠ 0

/-- The user pages of `a`. -/
def Role.LeafOf (a : Space) (c : Role) : Prop := ∃ v, c = .leaf a v

theorem Role.LeafOf.of {a : Space} {c : Role} (h : c.LeafOf a) : c.Of a := by
  obtain ⟨v, rfl⟩ := h
  rfl

theorem Role.LeafOf.not_table {a b : Space} {c : Role} (h : c.LeafOf a) : ¬ c.TableOf b := by
  obtain ⟨v, rfl⟩ := h
  exact id

/-- A byte stored to a user page goes to a leaf of the process. -/
theorem storeByte_user (hk : KmemInv L k g) (hp : ProcInv L k g cur) (hva : va < 2 ^ 32)
    (hu : UserPage L k cur va) (h : storeByte L k cur va c = some k') :
    KmemInv L k' g ∧ Grow L (Role.LeafOf (.proc cur)) (fun _ => False) k g k' g := by
  obtain ⟨e, he, hU⟩ := hu
  have how := hp.leaves (va / pageSize) (by simp only [pageSize]; omega) e he hU
  have hpage := hk.page_of how nofun
  unfold storeByte translate at h
  rw [he] at h
  simp only at h
  split at h
  · rw [Option.map_some, Option.some.injEq] at h
    have hm : ∀ x, x < pteAddr e ∨ pteAddr e + 4096 ≤ x →
        Function.update k.mem (pteAddr e + va % pageSize) c x = k.mem x := by
      intro x hx
      refine Function.update_of_ne ?_ _ _
      simp only [pageSize]
      omega
    rw [← h]
    exact ⟨hk.write hpage (by rw [how]; exact nofun) hm,
      write_grow hpage (by rw [how]; exact ⟨_, rfl⟩) hm⟩
  · exact absurd h nofun

/-- While no table is written to, addresses are translated as before. -/
theorem translate_grow (flag : Nat) (hk : KmemInv L k g) (hp : ProcInv L k g cur) (hi : cur < 8)
    (hg : Grow L S (fun _ => False) k g k' g') (hS : ∀ c, S c → ¬ c.TableOf (.proc cur))
    (hva : va < 2 ^ 32) :
    walk k'.mem (pcb L k' cur .pagetable) (va / pageSize) =
      walk k.mem (pcb L k cur .pagetable) (va / pageSize) ∧
    translate L k' cur flag va = translate L k cur flag va := by
  have hpt := hg.pcb (f := .pagetable) hi trivial (fun _ _ h => h)
  have hwalk : walk k'.mem (pcb L k' cur .pagetable) (va / pageSize) =
      walk k.mem (pcb L k cur .pagetable) (va / pageSize) := by
    rw [hpt]
    exact hp.tree.walk_grow hk hg hS (by simp only [pageSize]; omega)
  refine ⟨hwalk, ?_⟩
  unfold translate
  rw [hwalk]

/-! ## §3 Buffers -/

/-- Of the `n` bytes from `buf` on, those the process could not use itself
come only behind one that is not mapped at all. -/
def BufferOk (L : Layout) (k : KState) (cur flag buf n : Nat) : Prop :=
  ∀ j < n, (∀ l ≤ j, (translate L k cur flag ((buf + l) % 2 ^ 32)).isSome) →
    UserPage L k cur ((buf + j) % 2 ^ 32)

theorem BufferOk.head (h : BufferOk L k cur flag buf (n + 1)) (hbuf : buf < 2 ^ 32)
    (hm : (translate L k cur flag buf).isSome) : UserPage L k cur buf := by
  have h0 := h 0 (by omega) (fun l hl => by
    obtain rfl : l = 0 := by omega
    rwa [Nat.add_zero, Nat.mod_eq_of_lt hbuf])
  rwa [Nat.add_zero, Nat.mod_eq_of_lt hbuf] at h0

/-- The rest of a buffer, after its first byte was stored. -/
theorem BufferOk.tail (h : BufferOk L k cur flag buf (n + 1)) (hbuf : buf < 2 ^ 32)
    (hm : (translate L k cur flag buf).isSome) (hk : KmemInv L k g) (hp : ProcInv L k g cur)
    (hi : cur < 8) (hg : Grow L S (fun _ => False) k g k' g')
    (hS : ∀ c, S c → ¬ c.TableOf (.proc cur)) :
    BufferOk L k' cur flag ((buf + 1) % 2 ^ 32) n := by
  have hnext : ∀ j, ((buf + 1) % 2 ^ 32 + j) % 2 ^ 32 = (buf + (j + 1)) % 2 ^ 32 := by
    intro j
    omega
  have hlt : ∀ j, (buf + j) % 2 ^ 32 < 2 ^ 32 := fun j => Nat.mod_lt _ (by norm_num)
  intro j hj hmap
  rw [hnext j]
  obtain ⟨e, he, hU⟩ := h (j + 1) (by omega) (fun l hl => by
    cases l with
    | zero => rwa [Nat.add_zero, Nat.mod_eq_of_lt hbuf]
    | succ l =>
      have := hmap l (by omega)
      rw [hnext l] at this
      rwa [(translate_grow flag hk hp hi hg hS (hlt (l + 1))).2] at this)
  exact ⟨e, by rw [(translate_grow flag hk hp hi hg hS (hlt (j + 1))).1, he], hU⟩

theorem storeByte_isSome (h : storeByte L k cur va c = some k') :
    (translate L k cur pteW va).isSome := by
  cases ht : translate L k cur pteW va with
  | none => simp [storeByte, ht] at h
  | some pa => rfl

/-- Filling a buffer in pages of the process writes to these pages only. -/
theorem storeBuf_spec (bytes : List UInt8) (hk : KmemInv L k g) (hp : ProcInv L k g cur)
    (hi : cur < 8) (hbuf : buf < 2 ^ 32) (hok : BufferOk L k cur pteW buf bytes.length)
    (h : storeBuf L cur buf bytes k = some k') :
    KmemInv L k' g ∧ Grow L (Role.LeafOf (.proc cur)) (fun _ => False) k g k' g := by
  induction bytes generalizing k buf with
  | nil =>
    rw [storeBuf, Option.some.injEq] at h
    rw [← h]
    exact ⟨hk, Grow.refl k g⟩
  | cons c cs ih =>
    rw [storeBuf, Option.bind_eq_some_iff] at h
    obtain ⟨k1, h1, h2⟩ := h
    have hm := storeByte_isSome h1
    obtain ⟨hk1, hg1⟩ := storeByte_user hk hp hbuf (hok.head hbuf hm) h1
    have hS : ∀ c : Role, c.LeafOf (.proc cur) → ¬ c.TableOf (.proc cur) :=
      fun _ h => h.not_table
    obtain ⟨hk', hg'⟩ := ih hk1 (hp.pageWrites hk hi hS hg1) (Nat.mod_lt _ (by norm_num))
      (hok.tail hbuf hm hk hp hi hg1 hS) h2
    exact ⟨hk', hg1.trans hg'⟩

theorem Layout.fsData_static (L : Layout) {idx o : Nat} (hidx : idx < 12) (ho : o < maxFilesize) :
    L.fsData idx + o < L.freeRamBegin := by
  have := L.filesystemFiles_le
  simp only [Layout.fsData, Layout.fsFile, maxFilesize, sizeofFilesystemFile, maxFsFiles] at *
  omega

theorem loadBytes_succ (m : Mem) (a n : Nat) :
    loadBytes m a (n + 1) = m a :: loadBytes m (a + 1) n := by
  unfold loadBytes
  rw [List.range_succ_eq_map, List.map_cons, List.map_map, Nat.add_zero]
  refine congrArg (List.cons _) (List.map_congr_left (fun j _ => ?_))
  simp only [Function.comp_apply]
  rw [show a + (j + 1) = a + 1 + j by omega]

/-- The loop of `filesystem_file_read` on a file, into a buffer in pages of the
process: it fills the buffer with the bytes from the cursor on. -/
theorem fileReadLoop_eq {idx size cursor : Nat} (hk : KmemInv L k g) (hp : ProcInv L k g cur)
    (hi : cur < 8) (hidx : idx < 12) (hsize : size ≤ maxFilesize) (hbuf : buf < 2 ^ 32)
    (hok : BufferOk L k cur pteW buf (min n (size - cursor))) :
    fileReadLoop L cur idx size n buf cursor k =
      (storeBuf L cur buf (loadBytes k.mem (L.fsData idx + cursor) (min n (size - cursor))) k).map
        fun k' => (cursor + min n (size - cursor),
          loadBytes k.mem (L.fsData idx + cursor) (min n (size - cursor)), k') := by
  induction n generalizing k buf cursor with
  | zero => simp [fileReadLoop, loadBytes, storeBuf]
  | succ n ih =>
    rw [fileReadLoop]
    by_cases hcur : cursor < size
    · have hend := L.end_le
      have hdata := L.fsData_static hidx (o := cursor) (by omega)
      simp only [vaUserBase] at hend
      have hmod : (L.fsData idx + cursor) % 2 ^ 32 = L.fsData idx + cursor :=
        Nat.mod_eq_of_lt (by omega)
      have hmin : min (n + 1) (size - cursor) = min n (size - (cursor + 1)) + 1 := by omega
      rw [hmin] at hok ⊢
      rw [if_pos hcur, hmod, loadByte_kernel hp (by simp only [Layout.freeRamEnd]; omega),
        Option.bind_some, loadBytes_succ, storeBuf, Nat.add_assoc]
      cases h1 : storeByte L k cur buf (k.mem (L.fsData idx + cursor)) with
      | none => rfl
      | some k1 =>
        have hm := storeByte_isSome h1
        obtain ⟨hk1, hg1⟩ := storeByte_user hk hp hbuf (hok.head hbuf hm) h1
        have hS : ∀ c : Role, c.LeafOf (.proc cur) → ¬ c.TableOf (.proc cur) :=
          fun _ h => h.not_table
        -- the file itself is not among the pages written to
        have hsame : loadBytes k1.mem (L.fsData idx + (cursor + 1)) (min n (size - (cursor + 1))) =
            loadBytes k.mem (L.fsData idx + (cursor + 1)) (min n (size - (cursor + 1))) := by
          apply loadBytes_congr
          intro x hx1 hx2
          have := L.fsData_static hidx (o := x - L.fsData idx) (by omega)
          exact hg1.static_mem x (by omega) id
        rw [Option.bind_some, Option.bind_some, ih hk1 (hp.pageWrites hk hi hS hg1)
          (Nat.mod_lt _ (by norm_num)) (hok.tail hbuf hm hk hp hi hg1 hS), hsame, Option.map_map]
        congr 1
        funext k'
        simp only [Function.comp_apply, Prod.mk.injEq, and_true]
        omega
    · have hmin : min (n + 1) (size - cursor) = 0 := by omega
      rw [if_neg hcur, hmin]
      simp [loadBytes, storeBuf]

end Risky321.Kernel
