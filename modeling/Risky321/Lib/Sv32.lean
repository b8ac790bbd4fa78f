/-
Risky321.Lib.Sv32 — Sv32 page tables: the hardware's walk, and tables that
map single pages.

`sv32Walk` is the walk of the RISC-V privileged architecture, with leaves at
both levels; access permissions and the accessed and dirty bits are not part
of a translation and are left out. A `WellFormed` table has leaves at the
second level only, and its tables do not overlap. For such a table the walk
is a function of page numbers, `lookup`, and there are two ways to change
one: entering an empty second-level table (`WellFormed.enter`) changes
`lookup` nowhere, setting a leaf (`WellFormed.setLeaf`) at one page.
-/
import Risky321.Lib.ByteMem
import Mathlib.Tactic.SplitIfs

namespace Risky321.Lib

/-! ## Entries -/

def Valid (e : Nat) : Prop := e % 2 = 1
def Readable (e : Nat) : Prop := e / 2 % 2 = 1
def Writable (e : Nat) : Prop := e / 4 % 2 = 1
def Executable (e : Nat) : Prop := e / 8 % 2 = 1

instance (e : Nat) : Decidable (Valid e) := inferInstanceAs (Decidable (_ = _))
instance (e : Nat) : Decidable (Readable e) := inferInstanceAs (Decidable (_ = _))
instance (e : Nat) : Decidable (Writable e) := inferInstanceAs (Decidable (_ = _))
instance (e : Nat) : Decidable (Executable e) := inferInstanceAs (Decidable (_ = _))

/-- The physical page number of an entry. -/
def ppn (e : Nat) : Nat := e / 1024

/-- The part of the virtual page number that indexes the table of a level. -/
def vpn (va level : Nat) : Nat := va / (4096 * 1024 ^ level) % 1024

/-! ## The walk -/

/-- An entry met at some level: a fault, a leaf (aligned, if it maps a
superpage), or a pointer to go `down`. -/
def visitEntry (level e : Nat) (down : Option (Nat × Nat)) : Option (Nat × Nat) :=
  if ¬ Valid e ∨ (¬ Readable e ∧ Writable e) then none
  else if Readable e ∨ Executable e then
    if ppn e % 1024 ^ level = 0 then some (level, e) else none
  else down

/-- The walk from the table at `a`: the leaf and its level, or a page fault. -/
def sv32Walk (m : Mem) (va : Nat) : Nat → Nat → Option (Nat × Nat)
  | 0, a => visitEntry 0 (load32 m (a + 4 * vpn va 0)) none
  | level + 1, a =>
    let e := load32 m (a + 4 * vpn va (level + 1))
    visitEntry (level + 1) e (sv32Walk m va level (ppn e * 4096))

/-- The physical address of `va` under the root table at `r`. -/
def sv32Translate (m : Mem) (r va : Nat) : Option Nat :=
  (sv32Walk m va 1 r).map fun w =>
    ppn w.2 / 1024 ^ w.1 * 1024 ^ w.1 * 4096 + va % (4096 * 1024 ^ w.1)

/-! ## Tables of single pages -/

/-- Entry `i` of the root, the table it points to, and entry `j` of that. -/
def rootEntry (m : Mem) (r i : Nat) : Nat := load32 m (r + 4 * i)
def tableAt (m : Mem) (r i : Nat) : Nat := ppn (rootEntry m r i) * 4096
def leafEntry (m : Mem) (r i j : Nat) : Nat := load32 m (tableAt m r i + 4 * j)

/-- A leaf that maps a page of a memory of 4 GiB. -/
structure LeafOk (e : Nat) : Prop where
  small : ppn e < 2 ^ 20
  leaf : Readable e ∨ Executable e
  write : Writable e → Readable e

/-- A two-level table whose second-level tables are pages of their own.
`Free` are the pages that are not in use. -/
structure WellFormed (m : Mem) (Free : Nat → Prop) (r : Nat) : Prop where
  aligned : r % 4096 = 0
  inMemory : r < 2 ^ 32
  used : ¬ Free r
  pointer : ∀ i < 1024, Valid (rootEntry m r i) →
    ¬ Readable (rootEntry m r i) ∧ ¬ Writable (rootEntry m r i) ∧ ¬ Executable (rootEntry m r i)
  small : ∀ i < 1024, Valid (rootEntry m r i) → ppn (rootEntry m r i) < 2 ^ 20
  distinct : ∀ i < 1024, ∀ j < 1024, Valid (rootEntry m r i) → Valid (rootEntry m r j) →
    tableAt m r i = tableAt m r j → i = j
  notRoot : ∀ i < 1024, Valid (rootEntry m r i) → tableAt m r i ≠ r
  notFree : ∀ i < 1024, Valid (rootEntry m r i) → ¬ Free (tableAt m r i)
  leaf : ∀ i < 1024, Valid (rootEntry m r i) → ∀ j < 1024, Valid (leafEntry m r i j) →
    LeafOk (leafEntry m r i j)

/-- The leaf for virtual page `v`. -/
def lookup (m : Mem) (r v : Nat) : Option Nat :=
  if Valid (rootEntry m r (v / 1024)) ∧ Valid (leafEntry m r (v / 1024) (v % 1024)) then
    some (leafEntry m r (v / 1024) (v % 1024))
  else none

variable {m m' : Mem} {Free Free' : Nat → Prop} {r p i j e v va : Nat}

theorem tableAt_aligned (m : Mem) (r i : Nat) : tableAt m r i % 4096 = 0 := by
  rw [tableAt, Nat.mul_mod_left]

theorem page_apart {p q : Nat} (hp : p % 4096 = 0) (hq : q % 4096 = 0) (hne : p ≠ q) :
    p + 4096 ≤ q ∨ q + 4096 ≤ p := by
  omega

/-- `lookup` for a page given by its two indices. -/
theorem lookup_congr (hroot : rootEntry m' r (v / 1024) = rootEntry m r (v / 1024))
    (hleaf : Valid (rootEntry m r (v / 1024)) →
      leafEntry m' r (v / 1024) (v % 1024) = leafEntry m r (v / 1024) (v % 1024)) :
    lookup m' r v = lookup m r v := by
  by_cases hv : Valid (rootEntry m r (v / 1024))
  · rw [lookup, lookup, hroot, hleaf hv]
  · rw [lookup, lookup, hroot, if_neg (fun h => hv h.1), if_neg (fun h => hv h.1)]

/-- What the hardware finds in a well-formed table. -/
theorem WellFormed.walk_eq (h : WellFormed m Free r) (hva : va < 2 ^ 32) :
    sv32Walk m va 1 r = (lookup m r (va / 4096)).map fun e => (0, e) := by
  have hi : vpn va 1 = va / 4096 / 1024 := by
    simp only [vpn]
    omega
  have hj : vpn va 0 = va / 4096 % 1024 := by
    simp only [vpn]
    omega
  have hlt : va / 4096 / 1024 < 1024 := by omega
  simp only [sv32Walk, hi, hj, lookup]
  change visitEntry 1 (rootEntry m r (va / 4096 / 1024))
    (visitEntry 0 (leafEntry m r (va / 4096 / 1024) (va / 4096 % 1024)) none) = _
  generalize hI : va / 4096 / 1024 = i at *
  generalize hJ : va / 4096 % 1024 = j at *
  have hjlt : j < 1024 := by omega
  by_cases hroot : Valid (rootEntry m r i)
  · obtain ⟨hR, hW, hX⟩ := h.pointer i hlt hroot
    have hdown : visitEntry 1 (rootEntry m r i) (visitEntry 0 (leafEntry m r i j) none)
        = visitEntry 0 (leafEntry m r i j) none := by
      rw [visitEntry, if_neg (by simp [hroot, hW]), if_neg (by simp [hR, hX])]
    rw [hdown]
    by_cases hleaf : Valid (leafEntry m r i j)
    · have hok := h.leaf i hlt hroot j hjlt hleaf
      have hnofault : ¬ (¬ Valid (leafEntry m r i j) ∨
          (¬ Readable (leafEntry m r i j) ∧ Writable (leafEntry m r i j))) := by
        rintro (hno | ⟨hno, hw⟩)
        · exact hno hleaf
        · exact hno (hok.write hw)
      rw [visitEntry, if_neg hnofault, if_pos hok.leaf, if_pos (by simp [Nat.mod_one]),
        if_pos ⟨hroot, hleaf⟩]
      rfl
    · rw [visitEntry, if_pos (.inl hleaf), if_neg (fun hv => hleaf hv.2)]
      rfl
  · rw [visitEntry, if_pos (.inl hroot), if_neg (fun hv => hroot hv.1)]
    rfl

/-- The physical address in a well-formed table. -/
theorem WellFormed.translate_eq (h : WellFormed m Free r) (hva : va < 2 ^ 32) :
    sv32Translate m r va = (lookup m r (va / 4096)).map fun e => ppn e * 4096 + va % 4096 := by
  rw [sv32Translate, h.walk_eq hva]
  cases lookup m r (va / 4096) with
  | none => rfl
  | some e => simp

/-! ## Changing a table -/

/-- A root without entries. -/
theorem WellFormed.empty (hal : r % 4096 = 0) (hlt : r < 2 ^ 32) (hfree : ¬ Free r)
    (hzero : ∀ i < 1024, rootEntry m r i = 0) : WellFormed m Free r := by
  have hno : ∀ i < 1024, ¬ Valid (rootEntry m r i) := by
    intro i hi
    rw [hzero i hi]
    decide
  exact ⟨hal, hlt, hfree, fun i hi hv => absurd hv (hno i hi), fun i hi hv => absurd hv (hno i hi),
    fun i hi _ _ hv => absurd hv (hno i hi), fun i hi hv => absurd hv (hno i hi),
    fun i hi hv => absurd hv (hno i hi), fun i hi hv => absurd hv (hno i hi)⟩

/-- A change that leaves the root alone and puts only proper leaves into the tables. -/
theorem WellFormed.sameRoot (h : WellFormed m Free r)
    (hroot : ∀ i < 1024, rootEntry m' r i = rootEntry m r i)
    (hleaf : ∀ i < 1024, Valid (rootEntry m r i) → ∀ j < 1024, Valid (leafEntry m' r i j) →
      LeafOk (leafEntry m' r i j)) : WellFormed m' Free r := by
  have htable : ∀ i < 1024, tableAt m' r i = tableAt m r i := by
    intro i hi
    rw [tableAt, tableAt, hroot i hi]
  refine ⟨h.aligned, h.inMemory, h.used, ?_, ?_, ?_, ?_, ?_, ?_⟩
  · intro i hi hv
    rw [hroot i hi] at hv ⊢
    exact h.pointer i hi hv
  · intro i hi hv
    rw [hroot i hi] at hv ⊢
    exact h.small i hi hv
  · intro i hi j hj hvi hvj
    rw [hroot i hi] at hvi
    rw [hroot j hj] at hvj
    rw [htable i hi, htable j hj]
    exact h.distinct i hi j hj hvi hvj
  · intro i hi hv
    rw [hroot i hi] at hv
    rw [htable i hi]
    exact h.notRoot i hi hv
  · intro i hi hv
    rw [hroot i hi] at hv
    rw [htable i hi]
    exact h.notFree i hi hv
  · intro i hi hv
    rw [hroot i hi] at hv
    exact hleaf i hi hv

/-- Memory that changes on free pages only. -/
theorem WellFormed.congr (h : WellFormed m Free r)
    (hm : ∀ p, p % 4096 = 0 → ¬ Free p → ∀ x, x + 4 ≤ 4096 →
      load32 m' (p + x) = load32 m (p + x)) :
    WellFormed m' Free r ∧ ∀ v < 2 ^ 20, lookup m' r v = lookup m r v := by
  have hroot : ∀ i < 1024, rootEntry m' r i = rootEntry m r i :=
    fun i hi => hm r h.aligned h.used (4 * i) (by omega)
  have hleaf : ∀ i < 1024, Valid (rootEntry m r i) → ∀ j < 1024,
      leafEntry m' r i j = leafEntry m r i j := by
    intro i hi hv j hj
    rw [leafEntry, leafEntry, tableAt, hroot i hi, ← tableAt]
    exact hm _ (tableAt_aligned m r i) (h.notFree i hi hv) _ (by omega)
  refine ⟨h.sameRoot hroot fun i hi hv j hj hvj => ?_, fun v hv => ?_⟩
  · rw [hleaf i hi hv j hj] at hvj ⊢
    exact h.leaf i hi hv j hj hvj
  · exact lookup_congr (hroot _ (by omega)) fun hvalid => hleaf _ (by omega) hvalid _ (by omega)

theorem pointer_entry (hp : p % 4096 = 0) : Valid (p / 4 + 1) ∧ ¬ Readable (p / 4 + 1) ∧
    ¬ Writable (p / 4 + 1) ∧ ¬ Executable (p / 4 + 1) ∧ ppn (p / 4 + 1) * 4096 = p := by
  simp only [Valid, Readable, Writable, Executable, ppn]
  omega

/-- A free page that is all zero becomes a second-level table. -/
theorem WellFormed.enter (h : WellFormed m Free r) (hi : i < 1024)
    (hno : ¬ Valid (rootEntry m r i)) (hp : p % 4096 = 0) (hlt : p < 2 ^ 32) (hfree : Free p)
    (hzero : ∀ x, x + 4 ≤ 4096 → load32 m (p + x) = 0) (hF : ∀ q, Free' q → Free q)
    (hpF : ¬ Free' p) :
    let m' := store32 m (r + 4 * i) (p / 4 + 1)
    WellFormed m' Free' r ∧ Valid (rootEntry m' r i) ∧ ∀ v < 2 ^ 20, lookup m' r v = lookup m r v := by
  intro m'
  obtain ⟨hvalid, hR, hW, hX, hppn⟩ := pointer_entry hp
  have hpr : p ≠ r := fun heq => h.used (heq ▸ hfree)
  have hnew : rootEntry m' r i = p / 4 + 1 := load32_store32_of_lt (by omega)
  have hold : ∀ n < 1024, n ≠ i → rootEntry m' r n = rootEntry m r n :=
    fun n _ hne => load32_store32_disjoint _ _ (by omega)
  have htnew : tableAt m' r i = p := by rw [tableAt, hnew, hppn]
  have htold : ∀ n < 1024, n ≠ i → tableAt m' r n = tableAt m r n := by
    intro n hn hne
    rw [tableAt, tableAt, hold n hn hne]
  have hpage : ∀ q, q % 4096 = 0 → q ≠ r → ∀ j < 1024,
      load32 m' (q + 4 * j) = load32 m (q + 4 * j) := by
    intro q hq hne j hj
    have hap := page_apart hq h.aligned hne
    exact load32_store32_disjoint _ _ (by omega)
  have hlnew : ∀ j < 1024, leafEntry m' r i j = 0 := by
    intro j hj
    rw [leafEntry, htnew, hpage p hp hpr j hj]
    exact hzero _ (by omega)
  have hlold : ∀ n < 1024, n ≠ i → Valid (rootEntry m r n) → ∀ j < 1024,
      leafEntry m' r n j = leafEntry m r n j := by
    intro n hn hne hv j hj
    rw [leafEntry, htold n hn hne]
    exact hpage _ (tableAt_aligned m r n) (h.notRoot n hn hv) j hj
  have hapart : ∀ n < 1024, Valid (rootEntry m r n) → tableAt m r n ≠ p :=
    fun n hn hv heq => h.notFree n hn hv (heq ▸ hfree)
  refine ⟨⟨h.aligned, h.inMemory, fun hr => h.used (hF r hr), ?_, ?_, ?_, ?_, ?_, ?_⟩,
    by rw [hnew]; exact hvalid, ?_⟩
  · intro n hn hv
    by_cases hni : n = i
    · rw [hni, hnew]
      exact ⟨hR, hW, hX⟩
    · rw [hold n hn hni] at hv ⊢
      exact h.pointer n hn hv
  · intro n hn hv
    by_cases hni : n = i
    · rw [hni, hnew]
      simp only [ppn]
      omega
    · rw [hold n hn hni] at hv ⊢
      exact h.small n hn hv
  · intro a ha b hb hva hvb heq
    by_cases hai : a = i <;> by_cases hbi : b = i
    · rw [hai, hbi]
    · rw [hold b hb hbi] at hvb
      rw [hai, htnew, htold b hb hbi] at heq
      exact absurd heq.symm (hapart b hb hvb)
    · rw [hold a ha hai] at hva
      rw [hbi, htnew, htold a ha hai] at heq
      exact absurd heq (hapart a ha hva)
    · rw [hold a ha hai] at hva
      rw [hold b hb hbi] at hvb
      rw [htold a ha hai, htold b hb hbi] at heq
      exact h.distinct a ha b hb hva hvb heq
  · intro n hn hv
    by_cases hni : n = i
    · rw [hni, htnew]
      exact hpr
    · rw [hold n hn hni] at hv
      rw [htold n hn hni]
      exact h.notRoot n hn hv
  · intro n hn hv
    by_cases hni : n = i
    · rw [hni, htnew]
      exact hpF
    · rw [hold n hn hni] at hv
      rw [htold n hn hni]
      exact fun hf => h.notFree n hn hv (hF _ hf)
  · intro n hn hv j hj hvj
    by_cases hni : n = i
    · rw [hni, hlnew j hj] at hvj
      exact absurd hvj (by decide)
    · rw [hold n hn hni] at hv
      rw [hlold n hn hni hv j hj] at hvj ⊢
      exact h.leaf n hn hv j hj hvj
  · intro v hv
    by_cases hvi : v / 1024 = i
    · rw [lookup, lookup, hvi, hlnew _ (by omega), if_neg (fun hx => absurd hx.2 (by decide)),
        if_neg (fun hx => hno hx.1)]
    · exact lookup_congr (hold _ (by omega) hvi) fun hvalid => hlold _ (by omega) hvi hvalid _ (by omega)

/-- A leaf is set, in a second-level table that is there. -/
theorem WellFormed.setLeaf (h : WellFormed m Free r) (hi : i < 1024) (hj : j < 1024)
    (hroot : Valid (rootEntry m r i)) (he : e < 2 ^ 32) (hvalid : Valid e) (hok : LeafOk e) :
    let m' := store32 m (tableAt m r i + 4 * j) e
    WellFormed m' Free r ∧ ∀ v < 2 ^ 20, lookup m' r v
      = if v = 1024 * i + j then some e else lookup m r v := by
  intro m'
  have hal := tableAt_aligned m r i
  have hne := h.notRoot i hi hroot
  have hpage : ∀ q, q % 4096 = 0 → q ≠ tableAt m r i → ∀ x < 1024,
      load32 m' (q + 4 * x) = load32 m (q + 4 * x) := by
    intro q hq hq' x hx
    have hap := page_apart hq hal hq'
    exact load32_store32_disjoint _ _ (by omega)
  have hrootEq : ∀ n < 1024, rootEntry m' r n = rootEntry m r n :=
    fun n hn => hpage r h.aligned (Ne.symm hne) n hn
  have htable : ∀ n < 1024, tableAt m' r n = tableAt m r n := by
    intro n hn
    rw [tableAt, tableAt, hrootEq n hn]
  have hnew : leafEntry m' r i j = e := by
    rw [leafEntry, htable i hi]
    exact load32_store32_of_lt he
  have hold : ∀ n < 1024, ∀ x < 1024, Valid (rootEntry m r n) → ¬ (n = i ∧ x = j) →
      leafEntry m' r n x = leafEntry m r n x := by
    intro n hn x hx hv hdiff
    rw [leafEntry, leafEntry, htable n hn]
    by_cases hni : n = i
    · subst hni
      have hxj : x ≠ j := fun hxj => hdiff ⟨rfl, hxj⟩
      exact load32_store32_disjoint _ _ (by omega)
    · exact hpage _ (tableAt_aligned m r n) (fun heq => hni (h.distinct n hn i hi hv hroot heq)) x hx
  refine ⟨h.sameRoot hrootEq fun n hn hv x hx hvx => ?_, fun v hv => ?_⟩
  · by_cases hat : n = i ∧ x = j
    · rw [hat.1, hat.2, hnew]
      exact hok
    · rw [hold n hn x hx hv hat] at hvx ⊢
      exact h.leaf n hn hv x hx hvx
  · split_ifs with hvij
    · have h1 : v / 1024 = i := by omega
      have h2 : v % 1024 = j := by omega
      rw [lookup, h1, h2, hnew, hrootEq i hi, if_pos ⟨hroot, hvalid⟩]
    · exact lookup_congr (hrootEq _ (by omega)) fun hvr =>
        hold _ (by omega) _ (by omega) hvr (by omega)

end Risky321.Lib
