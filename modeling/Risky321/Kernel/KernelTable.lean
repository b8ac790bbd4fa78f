/-
Risky321.Kernel.KernelTable — tables on which the kernel can run.

The scheduler has no page table of its own: it goes on with the table of the
process that ran before it, also when that process is gone and its root page is
on the free list. §1 says what the kernel needs of such a table and what it may
lose, §2 that a process which gives up the processor leaves one
(`Sys.call_idle`).
-/
import Risky321.Kernel.RunTheorems

namespace Risky321.Kernel

open Risky321.Lib

variable {L : Layout} {k k' : KState} {m m' : Mem} {g : Ghost} {i cur root : Nat} {s s' : Sys}
  {call : Call}

/-! ## §1 Tables -/

/-- The table maps the kernel's part of the address space, but for the first 4 MiB. -/
structure KernelTable (L : Layout) (m : Mem) (root : Nat) : Prop where
  page : L.IsPage root
  table : ∀ v, 1024 ≤ v → v < L.kernelPages → L.IsPage (tableOf m root (v / 1024))
  map : ∀ v, 1024 ≤ v → v < L.kernelPages → walk m root v = some (v * 1024 + 15)

/-- It needs the words that these addresses lead to. -/
theorem KernelTable.congr (h : KernelTable L m root)
    (hroot : ∀ x, 4 ≤ x → x + 4 ≤ 4096 → load32 m' (root + x) = load32 m (root + x))
    (htable : ∀ v x, 1024 ≤ v → v < L.kernelPages → x + 4 ≤ 4096 →
      load32 m' (tableOf m root (v / 1024) + x) = load32 m (tableOf m root (v / 1024) + x)) :
    KernelTable L m' root := by
  have hlt := L.kernelPages_lt
  have hword : ∀ v, 1024 ≤ v → v < L.kernelPages →
      load32 m' (root + 4 * (v / 1024)) = load32 m (root + 4 * (v / 1024)) :=
    fun v h1 hv => hroot _ (by omega) (by omega)
  refine ⟨h.page, fun v h1 hv => ?_, fun v h1 hv => ?_⟩
  · rw [tableOf, hword v h1 hv]
    exact h.table v h1 hv
  · rw [walk_congr (hword v h1 hv) fun _ => htable v _ h1 hv (by omega)]
    exact h.map v h1 hv

/-- Nothing below the free region matters to it. -/
theorem KernelTable.congr_pages (h : KernelTable L m root)
    (heq : ∀ x, L.freeRamBegin ≤ x → m' x = m x) : KernelTable L m' root := by
  have hword : ∀ q x, L.IsPage q → load32 m' (q + x) = load32 m (q + x) := fun q x hq =>
    load32_congr fun y hy _ => heq y (by have := hq.1; omega)
  exact h.congr (fun x _ _ => hword root x h.page)
    fun v x h1 hv _ => hword _ x (h.table v h1 hv)

theorem ProcInv.tableRole (hp : ProcInv L k g i) {v : Nat} (hv : v < L.kernelPages) :
    g.ow (tableOf k.mem (pcb L k i .pagetable) (v / 1024)) = .table (.proc i) (v / 1024) := by
  have hlt := L.kernelPages_lt
  exact hp.tree.table (v / 1024) (by omega) (hasTable_of_walk (hp.kernel_map v hv))

/-- The table of a live process is one. -/
theorem Inv.kernelTable (hI : Inv L k g) (hlive : Live L k i) :
    KernelTable L k.mem (pcb L k i .pagetable) := by
  have hp := hI.proc i hlive
  exact ⟨hI.kmem.page_of hp.tree.root nofun,
    fun v _ hv => hI.kmem.page_of (hp.tableRole hv) nofun, fun v _ hv => hp.kernel_map v hv⟩

/-- So is that of a process which has just ended: only the first word of its root is
overwritten, and nothing of its other tables. -/
theorem Released.kernelTable (h : Released L i k g k') (hI : Inv L k g) (hlive : Live L k i) :
    KernelTable L k'.mem (pcb L k i .pagetable) := by
  have hp := hI.proc i hlive
  have hT := hI.kernelTable hlive
  have htf := hI.kmem.page_of hp.trapframe nofun
  have hus := hI.kmem.page_of hp.userStack nofun
  have hword : ∀ q x, L.IsPage q → (g.ow q).TableOf (.proc i) → x + 4 ≤ 4096 →
      (q = pcb L k i .pagetable → 4 ≤ x) → load32 k'.mem (q + x) = load32 k.mem (q + x) := by
    intro q x hq hrole hx hfirst
    have hq1 : q ≠ pcb L k i .trapframe := by
      rintro rfl
      rw [hp.trapframe] at hrole
      exact hrole
    have hq2 : q ≠ pcb L k i .userStack := by
      rintro rfl
      rw [hp.userStack] at hrole
      exact hrole
    have h1 := hq.apart htf hq1
    have h2 := hq.apart hus hq2
    have hlo := hq.1
    apply load32_congr
    intro y hy1 hy2
    refine h.pages y (by omega) ⟨by omega, ?_, by omega⟩
    by_cases hqr : q = pcb L k i .pagetable
    · have := hfirst hqr
      omega
    · have := hq.apart hT.page hqr
      omega
  refine hT.congr (fun x hx hx' => hword _ x hT.page ?_ hx' fun _ => hx) fun v x h1 hv hx' => ?_
  · rw [hp.tree.root]
    rfl
  · have hrole := hp.tableRole hv
    refine hword _ x (hT.table v h1 hv) ?_ hx' fun heq => ?_
    · rw [hrole]
      rfl
    · rw [heq, hp.tree.root] at hrole
      exact absurd hrole nofun

/-! ## §2 The end of a turn -/

/-- A call that gives up the processor leaves a table on which the scheduler can run. -/
theorem Sys.call_idle (h : Running L s g cur) (hs : s.call L cur call = some s')
    (hu : s'.user = false) : KernelTable L s'.k.mem (pcb L s.k cur .pagetable) := by
  have hI := h.inv.inv
  have hlive := h.live
  have huser := h.user
  have hno : ∀ {k1 : KState} {tty : Tty}, s' = { k := k1, tty := tty, user := s.user } → False := by
    rintro k1 tty rfl
    rw [huser] at hu
    cases hu
  cases call with
  | exit r =>
    obtain rfl := Option.some.inj hs
    exact (kprocFree_spec hI hlive).kernelTable hI hlive
  | sleep r =>
    obtain rfl := Option.some.inj hs
    exact (hI.kernelTable hlive).congr_pages fun x hx => kprocYield_page hlive.1 hx
  | kill pid r =>
    simp only [Sys.call] at hs
    split at hs
    · rename_i hself
      obtain rfl := Option.some.inj hs
      obtain ⟨-, hrel⟩ | ⟨hne, -⟩ := kprocKill_spec pid r hI hlive
      · exact hrel.kernelTable hI hlive
      · exact absurd hself hne
    · obtain rfl := Option.some.inj hs
      exact (hno rfl).elim
  | fork =>
    obtain ⟨x, -, rfl⟩ := Option.map_eq_some_iff.mp hs
    exact (hno rfl).elim
  | sbrk =>
    obtain ⟨x, -, rfl⟩ := Option.map_eq_some_iff.mp hs
    exact (hno rfl).elim
  | exec | read | close | write | userStore =>
    simp only [Sys.call] at hs
    split at hs
    · obtain ⟨x, -, rfl⟩ := Option.map_eq_some_iff.mp hs
      exact (hno rfl).elim
    · cases hs
  | openFile | saveReg =>
    simp only [Sys.call] at hs
    split at hs
    · obtain rfl := Option.some.inj hs
      exact (hno rfl).elim
    · cases hs

end Risky321.Kernel
