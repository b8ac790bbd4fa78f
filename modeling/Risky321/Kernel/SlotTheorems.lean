/-
Risky321.Kernel.SlotTheorems — what an event does to `proc_array`.

Most of a control block is written when its process is built and never again,
and no event writes to the blocks of two processes. §1 says so for all events at
once (`Effect.slot`), and §2 what follows for the kernel stacks and the states
in any run.
-/
import Risky321.Kernel.RunTheorems

namespace Risky321.Kernel

open Risky321.Lib

variable {L : Layout} {k k' : KState} {g g' : Ghost} {i j : Nat} {s s' : Sys} {op : Op}

/-! ## §1 One slot -/

/-- What an event does to the control blocks, when it is about slot `i`. -/
structure SlotEffect (L : Layout) (k k' : KState) (i : Nat) : Prop where
  others : ∀ j < 8, j ≠ i → ∀ f : PcbField, f.InStruct → pcb L k' j f = pcb L k j f
  kernelStackTop : i < 8 → pcb L k' i .kernelStackTop = pcb L k i .kernelStackTop
  state : i < 8 → pcb L k' i .state = pcb L k i .state ∨
    pcb L k' i .state = ProcState.runnable.code ∨ pcb L k' i .state = ProcState.unused.code

/-- The event is about the caller, an unused slot, or the process to be killed. -/
def Op.About (L : Layout) (k : KState) (op : Op) (i : Nat) : Prop :=
  (k.current = some i ∧ ∃ c, op = .call c) ∨ ¬ Live L k i ∨
    ∃ r, op = .call (.kill (pcb L k i .pid) r)

theorem SlotEffect.refl (L : Layout) (k : KState) (i : Nat) : SlotEffect L k k i :=
  ⟨fun _ _ _ _ _ => rfl, fun _ => rfl, fun _ => .inl rfl⟩

/-- Control blocks in which only descriptors change. -/
theorem SlotEffect.of_eq (i : Nat) (h : ∀ j < 8, ∀ f : PcbField, f.InStruct →
    (∀ fd, f = .openedFiles fd → j ≠ i) → pcb L k' j f = pcb L k j f) :
    SlotEffect L k k' i where
  others := fun j hj hji f hf => h j hj f hf fun _ _ => hji
  kernelStackTop := fun hi => h i hi .kernelStackTop trivial nofun
  state := fun hi => .inl (h i hi .state trivial nofun)

theorem SlotEffect.of_grow {S : Role → Prop} (hg : Grow L S (L.InPcb i) k g k' g')
    (hstack : pcb L k' i .kernelStackTop = pcb L k i .kernelStackTop)
    (hstate : pcb L k' i .state = pcb L k i .state ∨ pcb L k' i .state = ProcState.runnable.code) :
    SlotEffect L k k' i :=
  ⟨fun _ hj hji _ hf => hg.pcb_other hj hf hji, fun _ => hstack,
    fun _ => hstate.imp_right .inl⟩

theorem Released.slotEffect (h : Released L i k g k') : SlotEffect L k k' i :=
  ⟨fun _ hj hji _ hf => h.touch.pcb hj hf hji,
    fun _ => h.field_eq .kernelStackTop trivial nofun (fun _ => nofun),
    fun _ => .inr (.inr h.state)⟩

theorem not_live_eight (L : Layout) (k : KState) : ¬ Live L k 8 := fun h => absurd h.1 (by decide)

theorem freeSlot_not_live (h : freeSlot L k = some i) : ¬ Live L k i :=
  fun hlive => hlive.2 (freeSlot_spec h).2

theorem pcb_setPcb_fd {f : PcbField} {fd v : Nat} (hf : f.InStruct) (hfd : fd < maxOpenFiles)
    (hne : f = .openedFiles fd → j ≠ i) :
    pcb L (setPcb L k i (.openedFiles fd) v) j f = pcb L k j f := by
  by_cases hji : j = i
  · exact pcb_setPcb_of_ne hf hfd fun heq => hne heq hji
  · exact pcb_setPcb_of_ne_slot hf hfd hji

/-- No event writes to two control blocks. -/
theorem Effect.slot (he : Effect L k g op k' g') : ∃ i, op.About L k i ∧ SlotEffect L k k' i := by
  cases he with
  | nothing => exact ⟨8, .inr (.inl (not_live_eight L k)), .refl L k 8⟩
  | scheduled =>
    exact ⟨8, .inr (.inl (not_live_eight L k)), fun _ _ _ _ _ => rfl, fun _ => rfl,
      fun _ => .inl rfl⟩
  | @created idx i k' g' hidx hok hc =>
    exact ⟨i, .inr (.inl (freeSlot_not_live hc.slot)), .of_grow hc.grow
      (hc.field_eq .kernelStackTop trivial nofun nofun nofun nofun nofun nofun nofun)
      (.inr hc.state)⟩
  | @forked cur i k' g' hcur hlive hslot hne hf =>
    exact ⟨i, .inr (.inl (freeSlot_not_live hslot)), .of_grow hf.grow
      (hf.field_eq .kernelStackTop trivial nofun nofun nofun nofun nofun nofun nofun)
      (.inr hf.state)⟩
  | @execed cur idx path argv k' g' hcur hlive hidx hfile hok hfit he =>
    exact ⟨cur, .inl ⟨hcur, _, rfl⟩, .of_grow he.grow
      (he.field_eq .kernelStackTop trivial nofun nofun nofun nofun nofun nofun nofun)
      (.inr he.state)⟩
  | @added cur q k' g' hcur hlive ha =>
    exact ⟨cur, .inl ⟨hcur, _, rfl⟩, .of_grow ha.grow (ha.field_eq .kernelStackTop trivial nofun)
      (.inl (ha.field_eq .state trivial nofun))⟩
  | @exited cur r k' hcur hlive hr => exact ⟨cur, .inl ⟨hcur, _, rfl⟩, hr.slotEffect⟩
  | @killed i pid r k' hlive hpid hr => exact ⟨i, .inr (.inr ⟨r, by rw [hpid]⟩), hr.slotEffect⟩
  | @slept cur r hcur hlive =>
    have hg : Grow L (fun _ => False) (L.InPcb cur) k g (kprocYield L k cur r) g :=
      kprocYield_grow hlive.1
    exact ⟨cur, .inl ⟨hcur, _, rfl⟩, .of_grow hg (pcb_kprocYield trivial fun _ => nofun)
      (.inl (pcb_kprocYield trivial fun _ => nofun))⟩
  | @opened cur idx n fd path hcur hlive hidx hfile hn hfree h3 hfd =>
    refine ⟨cur, .inl ⟨hcur, _, rfl⟩, .of_eq cur (fun j hj f hf hfds => ?_)⟩
    rw [pcb_setPcb_fd hf hfd (hfds fd), pcb_setOsFile hn hj hf]
  | @openedLeak cur idx n path hcur hlive hidx hfile hn =>
    exact ⟨cur, .inl ⟨hcur, _, rfl⟩, .of_eq cur (fun j hj f hf _ => pcb_setOsFile hn hj hf)⟩
  | @fileRead cur fd buf size k1 hcur hlive hfd ho hk1 hg1 =>
    obtain ⟨n, hn, heq⟩ := ho.handle
    refine ⟨cur, .inl ⟨hcur, _, rfl⟩, .of_eq cur (fun j hj f hf _ => ?_)⟩
    rw [heq]
    simp only [osRwpos]
    rw [pcb_store_osFile hn (by omega) hj hf]
    exact hg1.pcb hj hf (fun _ _ hw => hw)
  | @closed cur fd n hcur hlive h3 hfd hn =>
    refine ⟨cur, .inl ⟨hcur, _, rfl⟩, .of_eq cur (fun j hj f hf hfds => ?_)⟩
    rw [pcb_setOsFile hn hj hf, pcb_setPcb_fd hf hfd (hfds fd)]
  | @stored cur c k' hcur hlive hc hk' hg' =>
    exact ⟨cur, .inl ⟨hcur, _, rfl⟩,
      .of_eq cur (fun j hj f hf _ => hg'.pcb hj hf (fun _ _ hw => hw))⟩

/-- Once there is a current process, there always is. -/
theorem Effect.current_ne_none (he : Effect L k g op k' g') (h : k.current ≠ none) :
    k'.current ≠ none := by
  cases he with
  | nothing | slept | opened | openedLeak | closed => exact h
  | scheduled => simp
  | created _ _ hc =>
    rw [hc.grow.current]
    exact h
  | forked _ _ _ _ hf =>
    rw [hf.grow.current]
    exact h
  | execed _ _ _ _ _ _ he =>
    rw [he.grow.current]
    exact h
  | added _ _ ha =>
    rw [ha.grow.current]
    exact h
  | exited _ _ hr | killed _ _ hr =>
    rw [hr.current]
    exact h
  | fileRead _ _ _ _ _ hg =>
    rw [KState.store_current, hg.current]
    exact h
  | stored _ _ _ _ hg =>
    rw [hg.current]
    exact h

/-! ## §2 Runs -/

/-- Every slot has its own kernel stack, at the end of its control block. -/
def KernelStacks (L : Layout) (k : KState) : Prop :=
  ∀ i < numProcesses, pcb L k i .kernelStackTop = L.proc i + sizeofProcess

/-- A slot is unused or runnable: no process is ever marked `RUNNING` or `SLEEPING`. -/
def SlotStates (L : Layout) (k : KState) : Prop :=
  ∀ i < numProcesses,
    pcb L k i .state = ProcState.unused.code ∨ pcb L k i .state = ProcState.runnable.code

theorem SlotEffect.kernelStacks (h : SlotEffect L k k' i) (hk : KernelStacks L k) :
    KernelStacks L k' := by
  intro j hj
  by_cases hji : j = i
  · rw [← hk j hj, hji]
    exact h.kernelStackTop (hji ▸ hj)
  · rw [← hk j hj]
    exact h.others j hj hji .kernelStackTop trivial

theorem SlotEffect.slotStates (h : SlotEffect L k k' i) (hk : SlotStates L k) :
    SlotStates L k' := by
  intro j hj
  by_cases hji : j = i
  · rw [hji]
    obtain h | h | h := h.state (hji ▸ hj)
    · rw [h, ← hji]
      exact hk j hj
    · exact .inr h
    · exact .inl h
  · rw [h.others j hj hji .state trivial]
    exact hk j hj

/-- What a step leaves of the control blocks. -/
theorem SysInv.step_slot (hI : SysInv L s g) (hsafe : op.Safe L s) (hs : s.step L op = some s') :
    ∃ i, op.About L s.k i ∧ SlotEffect L s.k s'.k i := by
  obtain ⟨k1, g1, he, hw, -⟩ := hI.step hsafe hs
  obtain ⟨i, habout, heff⟩ := he.slot
  refine ⟨i, habout, fun j hj hji f hf => ?_, fun hi => ?_, fun hi => ?_⟩
  · rw [hw.pcb hj hf]
    exact heff.others j hj hji f hf
  · rw [hw.pcb (f := .kernelStackTop) hi trivial]
    exact heff.kernelStackTop hi
  · rw [hw.pcb (f := .state) hi trivial]
    exact heff.state hi

theorem SysInv.step_current (hI : SysInv L s g) (hsafe : op.Safe L s)
    (hs : s.step L op = some s') (h : s.k.current ≠ none) : s'.k.current ≠ none := by
  obtain ⟨k1, g1, he, hw, -⟩ := hI.step hsafe hs
  rw [hw.grow.current]
  exact he.current_ne_none h

/-- The kernel stacks never move, and the states are those two. -/
theorem sysReach_slots (h : SysReach L (fun s op => op.Safe L s) s) :
    KernelStacks L s.k ∧ SlotStates L s.k := by
  have hall : (∃ g, SysInv L s g) ∧ KernelStacks L s.k ∧ SlotStates L s.k := by
    refine h.invariant
      (I := fun u => (∃ g, SysInv L u g) ∧ KernelStacks L u.k ∧ SlotStates L u.k) ?_ ?_
    · intro u h0
      obtain ⟨m, k, g, hs⟩ := h0.started
      have hboot : KernelStacks L k := hs.booted.kernelStackTop
      have heff : SlotEffect L k u.k 0 := .of_grow hs.created.grow
        (hs.created.field_eq .kernelStackTop trivial nofun nofun nofun nofun nofun nofun nofun)
        (.inr hs.created.state)
      exact ⟨⟨g, hs.sysInv⟩, heff.kernelStacks hboot,
        heff.slotStates fun i hi => .inl (hs.booted.unused i hi)⟩
    · rintro u op u' ⟨⟨g, hg⟩, hk, hst⟩ hok hs
      obtain ⟨k1, g1, -, -, hg1⟩ := hg.step hok hs
      obtain ⟨i, -, heff⟩ := hg.step_slot hok hs
      exact ⟨⟨g1, hg1⟩, heff.kernelStacks hk, heff.slotStates hst⟩
  exact hall.2

end Risky321.Kernel
