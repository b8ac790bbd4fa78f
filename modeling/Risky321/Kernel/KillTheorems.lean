/-
Risky321.Kernel.KillTheorems — `kproc_kill` of another process.

Three pages of the target go to the free list, and `kmem_free` writes a link
into each. That this hits nobody else is the page ownership of `Inv`: the
pages of the other processes have other roles. What the caller learns is
less: the loop of `kproc_kill` has no exit of its own, so a kill that found
its target and one that did not return the same value.
-/
import Risky321.Kernel.PageTheorems

namespace Risky321.Kernel

open Risky321.Lib

variable {L : Layout} {k k' : KState} {g g' : Ghost} {i j cur pid v : Nat} {s s' : Sys}

/-- The rest of `kproc_kill` when the caller is not the target: the loop over
the slots, and the value behind it. -/
def kprocKillOther (L : Layout) (k : KState) (pid : Nat) : Nat × KState :=
  (0xFFFFFFFF, (List.range numProcesses).foldl (kprocKillSlot L pid) k)

theorem kprocKillOther_value (L : Layout) (k : KState) (pid : Nat) :
    (kprocKillOther L k pid).1 = 0xFFFFFFFF := by
  rw [kprocKillOther]

theorem kprocKillOther_state (L : Layout) (k : KState) (pid : Nat) :
    (kprocKillOther L k pid).2 = (List.range numProcesses).foldl (kprocKillSlot L pid) k := by
  rw [kprocKillOther]

theorem kprocKill_other {r : SavedRegs} (hne : pcb L k cur .pid ≠ pid) :
    kprocKill L k cur pid r = (kprocKillOther L k pid).2 := by
  rw [kprocKill, if_neg hne, kprocKillOther_state]

/-- Some live process has the PID. -/
def HasPid (L : Layout) (k : KState) (pid : Nat) : Prop := ∃ i, Live L k i ∧ pcb L k i .pid = pid

/-- All that another process can notice is as before: its control block, its
page table, the bytes of its user pages, and its trap frame. -/
structure Undisturbed (L : Layout) (k k' : KState) (j : Nat) : Prop where
  slot : ∀ x, L.InPcb j x → k'.mem x = k.mem x
  tables : ∀ v < 2 ^ 20, walk k'.mem (pcb L k j .pagetable) v = walk k.mem (pcb L k j .pagetable) v
  memory : ∀ v < 2 ^ 20, ∀ e, walk k.mem (pcb L k j .pagetable) v = some e → e &&& pteU ≠ 0 →
    ∀ x < pageSize, k'.mem (pteAddr e + x) = k.mem (pteAddr e + x)
  registers : ∀ x < pageSize, k'.mem (pcb L k j .trapframe + x) = k.mem (pcb L k j .trapframe + x)

/-- The process in slot `i` is gone, its three pages are free, and nothing
else has changed. -/
structure Killed (L : Layout) (k k' : KState) (i : Nat) : Prop where
  state : pcb L k' i .state = ProcState.unused.code
  free : ∀ free, FreeList L k free → FreeList L k'
    (pcb L k i .userStack :: pcb L k i .pagetable :: pcb L k i .trapframe :: free)
  states : ∀ j < 8, j ≠ i → pcb L k' j .state = pcb L k j .state
  others : ∀ j, Live L k j → j ≠ i → Undisturbed L k k' j

/-- What a caller of `kproc_kill` with another process's PID relies on. -/
structure KillOk (L : Layout) (k : KState) (pid : Nat) : Prop where
  killed : ∀ i, Live L k i → pcb L k i .pid = pid → Killed L k (kprocKillOther L k pid).2 i
  missed : ¬ HasPid L k pid → (kprocKillOther L k pid).2 = k
  told : HasPid L k pid → ∀ pid' < 2 ^ 32, ¬ HasPid L k pid' →
    (kprocKillOther L k pid).1 ≠ (kprocKillOther L k pid').1

/-- Nobody has the PID: the loop does nothing. -/
theorem kprocKillOther_missed (h : ¬ HasPid L k pid) : (kprocKillOther L k pid).2 = k := by
  have hloop : ∀ l : List Nat, (∀ i ∈ l, i < 8) → l.foldl (kprocKillSlot L pid) k = k := by
    intro l hl
    induction l with
    | nil => rfl
    | cons i l ih =>
      rw [List.foldl_cons, kprocKillSlot_of_ne (fun hi => h ⟨i, hi⟩) (hl i (List.mem_cons_self ..))]
      exact ih (fun j hj => hl j (List.mem_cons_of_mem _ hj))
  rw [kprocKillOther_state]
  exact hloop (List.range numProcesses) (fun i hi => List.mem_range.mp hi)

/-- There are only eight PIDs in use. -/
theorem exists_not_hasPid (L : Layout) (k : KState) : ∃ pid < 2 ^ 32, ¬ HasPid L k pid := by
  have hcard : ((Finset.range 8).image (fun i => pcb L k i .pid)).card < (Finset.range 9).card :=
    lt_of_le_of_lt Finset.card_image_le (by decide)
  obtain ⟨pid, hpid, hno⟩ := Finset.exists_mem_notMem_of_card_lt_card hcard
  have hlt := Finset.mem_range.mp hpid
  refine ⟨pid, by omega, ?_⟩
  rintro ⟨i, hlive, rfl⟩
  exact hno (Finset.mem_image_of_mem _ (Finset.mem_range.mpr hlive.1))

/-- What touches slot `i` does not disturb another one. -/
theorem Touch.undisturbed (h : Touch L i k g k' g') (hI : Inv L k g) (hj : Live L k j)
    (hne : j ≠ i) : Undisturbed L k k' j := by
  have hp := hI.proc j hj
  have hpages : ∀ p, (g.ow p).Of (.proc j) → ∀ x < 4096, k'.mem (p + x) = k.mem (p + x) := by
    intro p hof
    refine h.mem p (hI.kmem.page p hof.ne_lost) hof.ne_free fun hi => hne ?_
    simpa using hof.unique hi
  refine ⟨?_, (h.spaceSame hp hI.kmem hj.1 hne).walk_eq, ?_, ?_⟩
  · intro x hx
    have hb := L.proc_bound hj.1
    have hi := L.proc_bound (i := i)
    refine h.static x ?_ ?_ <;> simp only [Layout.InPcb, Layout.proc, sizeofProcess] at * <;>
      omega
  · intro v hv e hw hU x hx
    exact hpages _ (by rw [hp.leaves v hv e hw hU]; rfl) x hx
  · exact hpages _ (by rw [hp.trapframe]; rfl)

theorem Released.killed (h : Released L i k g k') (hI : Inv L k g) : Killed L k k' i where
  state := h.state
  free free hfree := by
    rw [← hfree.eq_of_kmemInv hI.kmem]
    exact h.inv.kmem.freeList
  states _ hj hne := h.touch.pcb (f := .state) hj trivial hne
  others _ hj hne := h.touch.undisturbed hI hj hne

/-- In a state whose pages have owners, a kill hits its target only. -/
theorem Inv.killed (hI : Inv L k g) (hi : Live L k i) (hpid : pcb L k i .pid = pid) :
    Killed L k (kprocKillOther L k pid).2 i := by
  obtain ⟨-, hno⟩ | ⟨j, -, hj, hpj, hrel⟩ := kprocKill_loop hI (List.range numProcesses)
    List.nodup_range (fun i hi => List.mem_range.mp hi)
  · exact absurd ⟨hi, hpid⟩ (hno i (List.mem_range.mpr hi.1))
  · have hji : j = i := by
      have h1 := (hI.proc j hj).pid
      have h2 := (hI.proc i hi).pid
      omega
    rw [kprocKillOther_state, ← hji]
    exact hrel.killed hI

/-- The value of `kproc_kill` never tells a hit from a miss, so it is what the
caller relies on only when nobody has the PID. The other two conditions hold
in every run whose events are safe. -/
theorem kill_told_iff (L : Layout) :
    (∀ s, SysReach L (fun _ _ => True) s → ∀ cur, s.k.current = some cur → ∀ pid,
      pcb L s.k cur .pid ≠ pid → (KillOk L s.k pid ↔ ¬ HasPid L s.k pid)) ∧
    ∀ s, SysReach L (fun s op => op.Safe L s) s → ∀ cur, s.k.current = some cur → ∀ pid,
      pcb L s.k cur .pid ≠ pid →
        (∀ i, Live L s.k i → pcb L s.k i .pid = pid →
          Killed L s.k (kprocKillOther L s.k pid).2 i) ∧
        (¬ HasPid L s.k pid → (kprocKillOther L s.k pid).2 = s.k) := by
  refine ⟨fun s _ _ _ pid _ => ⟨fun h hpid => ?_, fun hno => ?_⟩,
    fun s hs _ _ pid _ => ⟨?_, kprocKillOther_missed⟩⟩
  · obtain ⟨pid', hlt, hno⟩ := exists_not_hasPid L s.k
    refine h.told hpid pid' hlt hno ?_
    rw [kprocKillOther_value, kprocKillOther_value]
  · exact ⟨fun i hi hpid => absurd ⟨i, hi, hpid⟩ hno, kprocKillOther_missed,
      fun hpid => absurd hpid hno⟩
  · obtain ⟨g, hI⟩ := sysReach_inv (fun _ _ h => h) hs
    exact fun i hi hpid => hI.inv.killed hi hpid

/-- The first process kills a PID that is not in use; and when it has forked it
kills its child, which is then gone. -/
theorem kill_told_missed :
    (∃ s, SysReach exampleLayout (fun _ _ => True) s ∧ s.k.current = some 0 ∧
      KillOk exampleLayout s.k 2) ∧
    ∃ s i, SysReach exampleLayout (fun s op => op.Safe exampleLayout s) s ∧
      s.k.current = some 0 ∧ Live exampleLayout s.k 0 ∧ i ≠ 0 ∧ Live exampleLayout s.k i ∧
      pcb exampleLayout s.k i .pid = i + 1 ∧
      Killed exampleLayout s.k (kprocKillOther exampleLayout s.k (i + 1)).2 i := by
  constructor
  · obtain ⟨s, g, hs, he, -⟩ := exampleEntered (fun _ _ => True) (fun _ _ => trivial)
    have hpid := (he.running.inv.inv.proc 0 he.running.live).pid
    refine ⟨s, hs, he.running.current, ((kill_told_iff exampleLayout).1 s hs 0 he.running.current 2
      (by rw [hpid]; decide)).mpr ?_⟩
    rintro ⟨i, hlive, hpid2⟩
    by_cases h0 : i = 0
    · rw [h0, hpid] at hpid2
      exact absurd hpid2 (by decide)
    · exact hlive.2 (he.others i hlive.1 h0)
  · obtain ⟨s, -, s1, g1, i, -, hs, -, hstep, hr, hlive, hne⟩ := exampleForked
    have hs1 : SysReach exampleLayout (fun s op => op.Safe exampleLayout s) s1 :=
      .step hs (Op.safe_fork exampleLayout s) hstep
    have h0 := (hr.inv.inv.proc 0 hr.live).pid
    have hi := (hr.inv.inv.proc i hlive).pid
    obtain ⟨hkilled, -⟩ := (kill_told_iff exampleLayout).2 s1 hs1 0 hr.current (i + 1) (by omega)
    exact ⟨s1, i, hs1, hr.current, hr.live, hne, hlive, hi, hkilled i hlive hi⟩

/-- The first process kills its child, and is told what it is told when there
is no such process. -/
theorem kill_not_told : ∃ s pid, SysReach exampleLayout (fun _ _ => True) s ∧
    s.k.current = some 0 ∧ pcb exampleLayout s.k 0 .pid ≠ pid ∧ HasPid exampleLayout s.k pid ∧
    ¬ KillOk exampleLayout s.k pid := by
  obtain ⟨s, -, s1, g1, i, -, hs, -, hstep, hr, hlive, hne⟩ := exampleForked
  have hs1 : SysReach exampleLayout (fun _ _ => True) s1 :=
    .step (hs.mono fun _ _ _ => trivial) trivial hstep
  have h0 := (hr.inv.inv.proc 0 hr.live).pid
  have hi := (hr.inv.inv.proc i hlive).pid
  have hpid : HasPid exampleLayout s1.k (i + 1) := ⟨i, hlive, hi⟩
  obtain ⟨pid', hlt, hno⟩ := exists_not_hasPid exampleLayout s1.k
  refine ⟨s1, i + 1, hs1, hr.current, by omega, hpid, fun h => h.told hpid pid' hlt hno ?_⟩
  rw [kprocKillOther_value, kprocKillOther_value]

end Risky321.Kernel
