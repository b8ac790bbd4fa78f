/-
Risky321.Kernel.Scheduler — the scan of `kproc_scheduler`, from `kproc.c`.

`Sys` lets the scheduler pick any runnable slot. Here the picks are those of
the two nested loops: the slots are looked at in order, round and round, and
a process that gives up the processor lets the scan go on behind its slot.
What the process did to the table in between does not matter to the order,
so the law of the scan is the law of a counter that goes round
(`Lib.Cyclic`): a slot that is runnable whenever the scan comes by is
dispatched once a round.

§1 is the scan and its relation to `Sys`, §2 the law, §3 a run in which a
slot is left, lies idle for a round, and is taken again.
-/
import Risky321.Lib.Cyclic
import Risky321.Kernel.PageTheorems

namespace Risky321.Kernel

open Risky321.Lib

variable {L : Layout} {k k' : KState} {g g' : Ghost} {i j a b : Nat}

/-! ## §1 The scan -/

/-- The system with the position of the scan; while a process executes, its slot. -/
structure Sched where
  sys : Sys
  i : Nat

/-- The scheduler looks at a slot, a byte arrives, or the process does something. -/
inductive SchedOp
  | scan
  | console (c : UInt8)
  | call (c : Call)

/-- The test in the loop. -/
def Dispatchable (L : Layout) (k : KState) (i : Nat) : Prop :=
  pcb L k i .state = ProcState.runnable.code ∨ pcb L k i .state = ProcState.running.code

instance (L : Layout) (k : KState) (i : Nat) : Decidable (Dispatchable L k i) :=
  inferInstanceAs (Decidable (_ ∨ _))

/-- One event. A process that has given up the processor comes back out of
`swtch`, behind the `if`. -/
def Sched.step (L : Layout) (c : Sched) : SchedOp → Option Sched
  | .scan =>
    if c.sys.user then none
    else if Dispatchable L c.sys.k c.i then
      some { c with sys := { c.sys with k := enterSlot L c.sys.k c.i, user := true } }
    else
      some { c with i := next numProcesses c.i }
  | .console b => (c.sys.step L (.console b)).map fun s => { c with sys := s }
  | .call call => (c.sys.step L (.call call)).map fun s =>
      if s.user then { c with sys := s } else { sys := s, i := next numProcesses c.i }

/-- The slot that an event from `c` to `c'` has entered: the scheduler was executing,
and now the process in that slot is. -/
def Sched.dispatched (c c' : Sched) : Option Nat :=
  if c.sys.user = false ∧ c'.sys.user = true then c'.sys.k.current else none

/-- A slot that an event has entered, or that the scan has passed over. -/
def Sched.visit (c : Sched) (op : SchedOp) (c' : Sched) : List (Nat × Bool) :=
  match c.dispatched c', op with
  | some a, _ => [(a, true)]
  | none, .scan => [(c.i, false)]
  | none, _ => []

/-- An event from `c` to `c'` dispatches slot `a`. -/
structure Dispatches (L : Layout) (c : Sched) (a : Nat) (c' : Sched) : Prop where
  step : ∃ op, c.step L op = some c'
  entered : c.dispatched c' = some a

/-- `kproc_scheduler` is entered with any process table. -/
structure Sched.Start (c : Sched) : Prop where
  idle : c.sys.user = false
  first : c.i = 0

abbrev SchedReach (L : Layout) : Sched → Prop :=
  Reach Sched.Start (fun c op c' => c.step L op = some c') (fun _ _ => True)

/-- A run all of whose states have the property, with the slots it enters and passes over. -/
inductive Along (L : Layout) (P : Sched → Prop) : Sched → List (Nat × Bool) → Sched → Prop
  | refl {c : Sched} : P c → Along L P c [] c
  | step {c c' c'' : Sched} {op : SchedOp} {vs : List (Nat × Bool)} : P c →
      c.step L op = some c' → Along L P c' vs c'' → Along L P c (c.visit op c' ++ vs) c''

variable {c c' c'' : Sched} {op : SchedOp} {vs ws : List (Nat × Bool)} {P : Sched → Prop}

theorem Sched.step_call_user {s s' : Sys} {call : Call} (h : s.step L (.call call) = some s') :
    s.user = true := by
  obtain ⟨_, _, huser, _⟩ := Sys.step_call_cases h
  exact huser

/-- Every event is the scan dispatching or passing over a slot, a byte, or a call. -/
theorem Sched.step_cases (h : c.step L op = some c') :
    (op = .scan ∧ c.sys.user = false ∧ Dispatchable L c.sys.k c.i ∧
      c' = { c with sys := { c.sys with k := enterSlot L c.sys.k c.i, user := true } }) ∨
    (op = .scan ∧ c.sys.user = false ∧ ¬ Dispatchable L c.sys.k c.i ∧
      c' = { c with i := next numProcesses c.i }) ∨
    (∃ b, op = .console b ∧ c'.i = c.i ∧ c.sys.step L (.console b) = some c'.sys) ∨
    (∃ call, op = .call call ∧ c.sys.step L (.call call) = some c'.sys ∧
      c'.i = if c'.sys.user then c.i else next numProcesses c.i) := by
  cases op with
  | scan =>
    simp only [Sched.step] at h
    split at h
    · cases h
    · next huser =>
      split at h
      · next hd => exact .inl ⟨rfl, by simpa using huser, hd, by simpa using h.symm⟩
      · next hd => exact .inr (.inl ⟨rfl, by simpa using huser, hd, by simpa using h.symm⟩)
  | console b =>
    simp only [Sched.step, Option.map_eq_some_iff] at h
    obtain ⟨s, hs, rfl⟩ := h
    exact .inr (.inr (.inl ⟨b, rfl, rfl, hs⟩))
  | call call =>
    simp only [Sched.step, Option.map_eq_some_iff] at h
    obtain ⟨s, hs, rfl⟩ := h
    refine .inr (.inr (.inr ⟨call, rfl, ?_, ?_⟩))
    · split <;> exact hs
    · by_cases hu : s.user = true <;> simp [hu]

/-- The position is always that of a slot. -/
theorem SchedReach.pos (h : SchedReach L c) : c.i < numProcesses := by
  refine h.invariant (I := fun c => c.i < numProcesses) (fun c hc => ?_) fun c op c' hi _ hs => ?_
  · rw [hc.first]
    decide
  · obtain ⟨-, -, -, rfl⟩ | ⟨-, -, -, rfl⟩ | ⟨_, -, h, -⟩ | ⟨_, -, -, h⟩ := Sched.step_cases hs
    · exact hi
    · exact next_lt (by decide)
    · rwa [h]
    · rw [h]
      split
      · exact hi
      · exact next_lt (by decide)

/-- The scan makes choices that `Sys` allows. -/
theorem Sched.step_refines (hi : c.i < numProcesses) (h : c.step L op = some c') :
    c'.sys = c.sys ∨ ∃ op', c.sys.step L op' = some c'.sys := by
  obtain ⟨-, hu, hd, rfl⟩ | ⟨-, -, -, rfl⟩ | ⟨b, -, -, hs⟩ | ⟨call, -, hs, -⟩ :=
    Sched.step_cases h
  · exact .inr ⟨.schedule c.i, by rw [Sys.step, if_pos ⟨hu, hi, hd⟩]⟩
  · exact .inl rfl
  · exact .inr ⟨.console b, hs⟩
  · exact .inr ⟨.call call, hs⟩

/-! ## §2 The law of the scan -/

theorem Along.append (h : Along L P c vs c') (h' : Along L P c' ws c'') :
    Along L P c (vs ++ ws) c'' := by
  induction h with
  | refl _ => exact h'
  | step hP hs _ ih =>
    rw [List.append_assoc]
    exact .step hP hs (ih h')

theorem enterSlot_current (L : Layout) (k : KState) (i : Nat) :
    (enterSlot L k i).current = some i := by
  simp only [enterSlot]
  split <;> rfl

/-- Nothing else enters a slot. -/
theorem Sched.visit_other (h : c.step L op = some c') (hop : op ≠ .scan) :
    c.dispatched c' = none ∧ c.visit op c' = [] := by
  have hnone : c.dispatched c' = none := by
    obtain ⟨hs, -⟩ | ⟨hs, -⟩ | ⟨b, -, -, hs⟩ | ⟨call, -, hs, -⟩ := Sched.step_cases h
    · exact absurd hs hop
    · exact absurd hs hop
    · have hu : c'.sys.user = c.sys.user := by
        simp only [Sys.step, Option.some.injEq] at hs
        rw [← hs]
      simp [Sched.dispatched, hu]
    · simp [Sched.dispatched, Sched.step_call_user hs]
  refine ⟨hnone, ?_⟩
  cases op with
  | scan => exact absurd rfl hop
  | console _ => simp only [Sched.visit, hnone]
  | call _ => simp only [Sched.visit, hnone]

/-- A slot is entered by the scan, when it comes there and the test holds. -/
theorem Dispatches.cases (h : Dispatches L c a c') :
    c.step L .scan = some c' ∧ c.sys.user = false ∧ c.i = a ∧ Dispatchable L c.sys.k a ∧
      c'.sys.user = true ∧ c'.i = a := by
  obtain ⟨⟨op, hs⟩, hentered⟩ := h
  have hscan : op = .scan := by
    by_contra hop
    rw [(Sched.visit_other hs hop).1] at hentered
    cases hentered
  subst hscan
  obtain ⟨-, hu, hd, rfl⟩ | ⟨-, hu, -, rfl⟩ | ⟨_, h, -⟩ | ⟨_, h, -⟩ := Sched.step_cases hs
  · have hi : c.i = a := by simpa [Sched.dispatched, hu, enterSlot_current] using hentered
    exact ⟨hs, hu, hi, hi ▸ hd, rfl, hi⟩
  · simp [Sched.dispatched, hu] at hentered
  · cases h
  · cases h

/-- The slots in use are RUNNABLE, the others UNUSED. -/
def Slots (L : Layout) (k : KState) (live : Nat → Bool) : Prop :=
  ∀ i < 8, pcb L k i .state = (if live i then ProcState.runnable else ProcState.unused).code

/-- The scheduler is executing. -/
structure Idle (L : Layout) (c : Sched) (g : Ghost) (live : Nat → Bool) : Prop where
  inv : SysInv L c.sys g
  user : c.sys.user = false
  slots : Slots L c.sys.k live

/-- The process in the slot of the scan is executing. -/
structure Busy (L : Layout) (c : Sched) (g : Ghost) (live : Nat → Bool) : Prop where
  running : Running L c.sys g c.i
  slots : Slots L c.sys.k live

variable {live : Nat → Bool}

theorem Slots.words (h : Slots L k live) (hw : TrapWords L k g k') : Slots L k' live :=
  fun i hi => by rw [hw.pcb (f := .state) hi trivial, h i hi]

theorem Slots.runnable (h : Slots L k live) (hi : i < 8) (hl : live i = true) :
    pcb L k i .state = ProcState.runnable.code := by
  rw [h i hi, if_pos hl]

theorem Slots.unused (h : Slots L k live) (hi : i < 8) (hl : live i = false) :
    pcb L k i .state = ProcState.unused.code := by
  rw [h i hi, hl]
  rfl

/-- One slot changes hands. -/
theorem Slots.update {d : Bool} (h : Slots L k live) (hj : ∀ i < 8, i ≠ j →
      pcb L k' i .state = pcb L k i .state)
    (hnew : pcb L k' j .state = (if d then ProcState.runnable else ProcState.unused).code) :
    Slots L k' (Function.update live j d) := by
  intro i hi
  by_cases hij : i = j
  · rw [hij, hnew, Function.update_self]
  · rw [hj i hi hij, h i hi, Function.update_of_ne hij]

/-- After a call that gives up the processor the scan goes on. -/
theorem Sched.step_leave {call : Call} (h : c.sys.step L (.call call) = some s)
    (huser : s.user = false) :
    c.step L (.call call) = some { sys := s, i := next numProcesses c.i } := by
  simp only [Sched.step, h, Option.map_some, huser]
  rfl

/-- The process sleeps. -/
theorem Busy.sleep (h : Busy L c g live) : ∃ c', c.step L (.call (.sleep zeroRegs)) = some c' ∧
    c'.i = next numProcesses c.i ∧ Idle L c' g live := by
  obtain ⟨hstep, hI⟩ := h.running.sleep zeroRegs
  refine ⟨_, Sched.step_leave hstep rfl, rfl, hI, rfl, fun j hj => ?_⟩
  rw [← h.slots j hj]
  exact pcb_yield h.running.live.1 hj (f := .state) trivial nofun

/-- The process exits. -/
theorem Busy.exit (h : Busy L c g live) : ∃ c', c.step L (.call (.exit zeroRegs)) = some c' ∧
    c'.i = next numProcesses c.i ∧
    Idle L c' (g.release L c.sys.k c.i) (Function.update live c.i false) := by
  obtain ⟨hstep, hrel, hI⟩ := h.running.exit zeroRegs
  exact ⟨_, Sched.step_leave hstep rfl, rfl, hI, rfl,
    h.slots.update (fun j hj hne => hrel.touch.pcb (f := .state) hj trivial hne) hrel.state⟩

/-- The process forks into the first slot that is not in use. -/
theorem Busy.fork (h : Busy L c g live) (hj : j < 8) (hno : live j = false)
    (hfirst : ∀ i < j, live i = true) (hroom : 8705 ≤ g.free.length) :
    ∃ c' g', c.step L (.call .fork) = some c' ∧ c'.i = c.i ∧
      Busy L c' g' (Function.update live j true) ∧ 2 * g.free.length ≤ g'.free.length + 17410 := by
  have hr := h.running
  have hslot : freeSlot L c.sys.k = some j := by
    rw [freeSlot, List.find?_range_eq_some]
    refine ⟨by simpa using h.slots.unused hj hno, List.mem_range.mpr hj, fun i hi => ?_⟩
    rw [h.slots.runnable (by omega) (hfirst i hi)]
    decide
  have hcopy := copyCount_add_free_le hr.inv.inv.kmem (hr.inv.inv.proc c.i hr.live).leaves
  obtain ⟨s1, k1, g1, hstep, hr1, -, hfk, hw⟩ := hr.fork hslot (by omega)
  refine ⟨{ c with sys := s1 }, g1, ?_, rfl, ⟨hr1, ?_⟩, ?_⟩
  · simp only [Sched.step, hstep, Option.map_some, hr1.user]
    rfl
  · refine Slots.words (h.slots.update (fun i hi hij => ?_) hfk.state) hw
    exact hfk.grow.pcb_other (f := .state) hi trivial hij
  · rw [hfk.free, List.length_drop]
    omega

/-- One event as a run. -/
theorem Along.one (hP : P c) (hP' : P c') (h : c.step L op = some c') :
    Along L P c (c.visit op c') c' := by
  simpa using Along.step hP h (.refl hP')

theorem Along.call {call : Call} (hP : P c) (hP' : P c') (h : c.step L (.call call) = some c') :
    Along L P c [] c' := by
  have hone := Along.one hP hP' h
  rwa [(Sched.visit_other h (by simp)).2] at hone

theorem Along.reach (h : Along L P c vs c') (hc : SchedReach L c) : SchedReach L c' := by
  induction h with
  | refl _ => exact hc
  | step _ hs _ ih => exact ih (.step hc trivial hs)

end Risky321.Kernel
