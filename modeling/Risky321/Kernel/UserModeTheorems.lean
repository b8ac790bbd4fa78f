/-
Risky321.Kernel.UserModeTheorems — the machine implements the processes of `UserMode.lean`.

§1 is the invariant of the machine: while a process runs, `satp` holds its page
table and its trap frame is ready for the next trap; while the scheduler runs,
the table in `satp` still maps the kernel, although it may be that of a process
which is gone. §2 follows a trap to the return from it, §3 puts the events together,
§4 is about runs (`cpu_refines`), and §5 about what the hart finds in them.
-/
import Risky321.Kernel.KernelTable
import Risky321.Kernel.SlotTheorems
import Risky321.Kernel.TrapTheorems

namespace Risky321.Kernel

open Risky321.Lib

variable {L : Layout} {k k' k1 : KState} {g : Ghost} {i cur v w va n : Nat} {s s' s1 s2 : Sys}
  {p q : Process} {reg kreg : Reg → Word} {csr : Csr → Word} {pc : Word} {r : SavedRegs}
  {t : TrapInfo} {c c' : Cpu} {op : CpuOp} {call : Call}

/-! ## §1 The invariant -/

/-- The invariant of the machine. -/
structure CpuInv (L : Layout) (c : Cpu) : Prop where
  sys : ∃ g, SysInv L c.sys g
  current : c.sys.user = true → ∃ cur, c.sys.running = some cur
  running : ∀ cur, c.sys.running = some cur → Live L c.sys.k cur ∧
    satpRoot (c.csr .satp) = pcb L c.sys.k cur .pagetable ∧ FrameReady L cur c.sys.k
  idle : c.sys.user = false → c.sys.k.current ≠ none →
    KernelTable L c.sys.k.mem (satpRoot (c.csr .satp))

/-- The processes, with the registers of the one that runs. -/
noncomputable def Cpu.world (L : Layout) (c : Cpu) : World :=
  match c.sys.running with
  | some i => (c.sys.world L).set i (some ((runView L c.sys.k i).withHart c.reg c.pc))
  | none => c.sys.world L

theorem Steps.inv (h : ∃ g, SysInv L s g) (hs : Steps L s s') : ∃ g, SysInv L s' g := by
  refine hs.invariant (I := fun u => ∃ g, SysInv L u g) ?_ ?_
  · rintro _ rfl
    exact h
  · rintro u op u' ⟨g, hg⟩ hok hstep
    obtain ⟨k1, g1, -, -, hg1⟩ := hg.step hok hstep
    exact ⟨g1, hg1⟩

theorem running_of (hu : s.user = true) (hcur : s.k.current = some cur) : s.running = some cur :=
  Sys.running_eq.mpr ⟨hu, hcur⟩

/-- The process that runs, and the state the kernel is in. -/
theorem CpuInv.atRun (h : CpuInv L c) (hrun : c.sys.running = some cur) :
    ∃ g, Running L c.sys g cur := by
  obtain ⟨g, hg⟩ := h.sys
  obtain ⟨hu, hcur⟩ := Sys.running_eq.mp hrun
  exact ⟨g, hg, hu, hcur, (h.running cur hrun).1⟩

/-! ## §2 A trap -/

/-- The kernel when the handler makes the call: `epc` is behind the `ecall`. -/
def atCall (L : Layout) (k : KState) (cur : Nat) (pc : Word) : KState :=
  let k := setTrapWord L k cur tfEpc pc.toNat
  setTrapWord L k cur tfEpc ((trapWord L k cur tfEpc + 4) % 2 ^ 32)

/-- The call that a trap makes, if it makes one, is safe. -/
def CpuOp.Safe (L : Layout) (c : Cpu) : CpuOp → Prop
  | .trap t r _ => t.scause = scauseUmodeEcall → ∀ cur call, c.sys.k.current = some cur →
      ksyscall L (atCall L (saveRegs L cur c.reg c.sys.k) cur c.pc) cur r = some call →
      call.Safe L { c.sys with k := atCall L (saveRegs L cur c.reg c.sys.k) cur c.pc } cur
  | _ => True

/-- Where a trap leads to, seen from the state `s` and the world `w` in which it is taken. -/
structure Trapped (L : Layout) (s : Sys) (cur : Nat) (w : World) (op : CpuOp) (s' : Sys) :
    Prop where
  steps : Steps L s s'
  returning : s'.user = true → Returning L cur s'.k
  idle : s'.user = false → KernelTable L s'.k.mem (pcb L s.k cur .pagetable)
  runs : w.Runs op (s'.world L)

theorem Steps.toUser (h : Running L s g cur) (hs : Steps L s1 s) :
    Steps L s1 { s with k := ktrapToUser L s.k cur } := by
  -- a `write` to no descriptor does just that
  have hcall : s.call L cur (.write 0 0 0) = some { s with k := ktrapToUser L s.k cur } := rfl
  exact .step hs (show Op.Safe L s (.call (.write 0 0 0)) from fun _ _ => trivial)
    ((h.step_call _).trans hcall)

theorem Steps.console (bytes : List UInt8) (hs : Steps L s1 s) :
    Steps L s1 { s with tty := bytes.foldl (fun tty c => (ttyBufferInsert tty c).2) s.tty } := by
  induction bytes generalizing s with
  | nil => exact hs
  | cons b bs ih =>
    exact ih (s := { s with tty := (ttyBufferInsert s.tty b).2 })
      (.step hs (show Op.Safe L s (.console b) from trivial) rfl)

/-- What a process asks for does not depend on its `epc`. -/
theorem next_hasString (p : Process) (va : Nat) (str : List UInt8) :
    p.next.HasString va str ↔ p.HasString va str := by
  induction str generalizing va with
  | nil => exact Iff.rfl
  | cons c cs ih => exact and_congr_right fun _ => and_congr_right fun _ => ih _

theorem next_hasArgs (p : Process) (va : Nat) (args : List (List UInt8)) :
    p.next.HasArgs va args ↔ p.HasArgs va args := by
  induction args generalizing va with
  | nil => exact Iff.rfl
  | cons arg args ih =>
    refine exists_congr fun q => and_congr_right fun _ => and_congr_right fun _ =>
      and_congr_right fun _ => and_congr (next_hasString p q arg) (ih _)

theorem Process.setReg_self (p : Process) (w v : Nat) : (p.setReg w v).reg w = v % 2 ^ 32 :=
  Function.update_self ..

theorem Process.setReg_of_ne (p : Process) (v : Nat) {u : Nat} (h : u ≠ w) :
    (p.setReg w v).reg u = p.reg u :=
  Function.update_of_ne h ..

theorem next_reg (p : Process) (hw : w ≠ tfEpc) : p.next.reg w = p.reg w :=
  p.setReg_of_ne _ hw

theorem Process.Asks.of_next (h : p.next.Asks r call) : p.Asks r call := by
  have h0 : p.next.reg tfA0 = p.reg tfA0 := next_reg p (by decide)
  have h1 : p.next.reg tfA1 = p.reg tfA1 := next_reg p (by decide)
  have h2 : p.next.reg tfA2 = p.reg tfA2 := next_reg p (by decide)
  have h7 : p.next.reg tfA7 = p.reg tfA7 := next_reg p (by decide)
  have hargv : ∀ args, p.next.HasArgv (p.reg tfA1) args ↔ p.HasArgv (p.reg tfA1) args := by
    intro args
    unfold Process.HasArgv
    simp only [next_hasArgs]
  cases h with
  | fork h => exact .fork (h7 ▸ h)
  | exit h => exact .exit (h7 ▸ h)
  | read h =>
    rw [h0, h1, h2]
    exact .read (h7 ▸ h)
  | kill h =>
    rw [h0]
    exact .kill (h7 ▸ h)
  | exec h hpath hargs =>
    rw [h0] at hpath
    rw [h1] at hargs
    exact .exec (h7 ▸ h) (fun str hlen hs => hpath str hlen ((next_hasString ..).mpr hs))
      fun args ha => hargs args ((hargv args).mpr ha)
  | sbrk h => exact .sbrk (h7 ▸ h)
  | sleep h => exact .sleep (h7 ▸ h)
  | openFile h hpath =>
    rw [h0] at hpath
    exact .openFile (h7 ▸ h) fun str hlen hs => hpath str hlen ((next_hasString ..).mpr hs)
  | write h =>
    rw [h0, h1, h2]
    exact .write (h7 ▸ h)
  | close h =>
    rw [h0]
    exact .close (h7 ▸ h)

/-- The world, when the handler is done with a process. -/
theorem Saved.world_toUser (h : Saved L s g cur p s1) (tty : Tty) :
    Sys.world L { s1 with k := ktrapToUser L s1.k cur, tty := tty } =
      (s.world L).set cur (some p) := by
  have hr := h.running
  have hw : Sys.world L { s1 with k := ktrapToUser L s1.k cur, tty := tty } =
      (s1.world L).set cur (some p) :=
    (hr.inv.callDone hr.live).toUser_same hr.inv.files hr.running_eq (.refl s1.k) h.view
  rw [hw, h.world, World.set_set]

theorem trapped_interrupt {tty : Tty} (kreg : Reg → Word) (r : SavedRegs)
    (h : Saved L s g cur p s1) (hrun : s.running = some cur) (hcause : scauseIntrBit ≤ t.scause)
    (htty : ktrapInterruptHandle t s1.tty = some tty) :
    Trapped L s cur ((s.world L).set cur (some p)) (.trap t r kreg)
      { s1 with k := ktrapToUser L s1.k cur, tty := tty } := by
  have hr := h.running
  have hw := h.world_toUser tty
  simp only [ktrapInterruptHandle] at htty
  split at htty
  · split at htty
    · obtain rfl := Option.some.inj htty
      refine ⟨Steps.console t.received (Steps.toUser hr h.steps),
        fun _ => hr.inv.inv.returning hr.live hr.current, fun hno => ?_, ?_⟩
      · exact absurd (hno.symm.trans hr.user) (by simp)
      · rw [hw]
        exact .interrupt hrun hcause
    · cases htty
  · cases htty

theorem trapped_getpid (kreg : Reg → Word) (r : SavedRegs) (h : Saved L s g cur p.next s1)
    (hrun : s.running = some cur) (hcause : t.scause = scauseUmodeEcall)
    (ha7 : trapWord L s1.k cur tfA7 = sysGetpid) :
    Trapped L s cur ((s.world L).set cur (some p)) (.trap t r kreg)
      { s1 with k := returnValue L s1.k cur (pcb L s1.k cur .pid) } := by
  have hr := h.running
  have hpid := (hr.inv.inv.proc cur hr.live).pid
  have h3 := h.setReg (w := tfA0) (v := pcb L s1.k cur .pid) (by decide)
  have hsteps := Steps.toUser h3.running h3.steps
  have hworld := h3.world_toUser s1.tty
  refine ⟨hsteps, fun _ => hr.inv.inv.returning_value _ hr.live hr.current, fun hno => ?_, ?_⟩
  · exact absurd (hno.symm.trans hr.user) (by simp)
  · have hw : Sys.world L { s1 with k := returnValue L s1.k cur (pcb L s1.k cur .pid) } =
        (s.world L).set cur (some (p.next.setReg tfA0 (pcb L s1.k cur .pid))) := hworld
    have ha7' : p.reg tfA7 = sysGetpid := by
      rw [← next_reg p (by decide), ← h.view]
      exact (runView_reg (by decide)).trans ha7
    have hruns : ((s.world L).set cur (some p)).Runs (.trap t r kreg)
        (((s.world L).set cur (some p)).set cur (some (p.next.setReg tfA0 (cur + 1)))) :=
      .getpid hrun (World.set_self ..) hcause ha7'
    rw [World.set_set] at hruns
    rw [hw, hpid]
    exact hruns

theorem trapped_call (kreg : Reg → Word) (h : Saved L s g cur p.next s1)
    (hrun : s.running = some cur) (hcause : t.scause = scauseUmodeEcall)
    (hcall : ksyscall L s1.k cur r = some call)
    (hsafe : call.Safe L s1 cur) (hs : s1.call L cur call = some s') :
    Trapped L s cur ((s.world L).set cur (some p)) (.trap t r kreg) s' := by
  have hr := h.running
  have hasks : p.next.Asks r call := by
    rw [← h.view]
    exact ksyscall_asks hcall
  have hsafe' : Op.Safe L s1 (.call call) := fun cur' hcur' => by
    obtain rfl : cur' = cur := Option.some.inj (hcur'.symm.trans hr.current)
    exact hsafe
  have hpt : pcb L s1.k cur .pagetable = pcb L s.k cur .pagetable :=
    h.words.pcb (f := .pagetable) hr.live.1 trivial
  refine ⟨.step h.steps hsafe' ((hr.step_call call).trans hs), fun hu => ?_, fun hu => ?_, ?_⟩
  · refine Sys.call_returning hr hsafe hs hu (fun va b heq => ?_) fun w v heq => ?_
    · rw [heq] at hasks
      cases hasks
    · rw [heq] at hasks
      cases hasks
  · rw [← hpt]
    exact Sys.call_idle hr hs hu
  · refine .ecall hrun (World.set_self ..) hcause hasks.of_next ?_
    have hcalled := Sys.call_refines hr.inv hr.live hr.running_eq hsafe hs
    rw [h.world, h.view] at hcalled
    rwa [World.set_set]

/-- `epc` is stored, and moved behind the `ecall`. -/
theorem Saved.atCall (h : Saved L s g cur p s1) (pc : Word) :
    Saved L s g cur (p.setReg tfEpc pc.toNat).next
      { s1 with k := Risky321.Kernel.atCall L s1.k cur pc } := by
  have h1 := h.setReg (w := tfEpc) (v := pc.toNat) (by decide)
  have hepc : trapWord L (setTrapWord L s1.k cur tfEpc pc.toNat) cur tfEpc =
      (p.setReg tfEpc pc.toNat).reg tfEpc := by
    rw [← h1.view]
    exact (runView_reg (by decide)).symm
  have h2 := h1.setReg (w := tfEpc)
    (v := (trapWord L (setTrapWord L s1.k cur tfEpc pc.toNat) cur tfEpc + 4) % 2 ^ 32) (by decide)
  rw [show (p.setReg tfEpc pc.toNat).setReg tfEpc
      ((trapWord L (setTrapWord L s1.k cur tfEpc pc.toNat) cur tfEpc + 4) % 2 ^ 32) =
      (p.setReg tfEpc pc.toNat).next by rw [hepc]; rfl] at h2
  exact h2

theorem ktrapFromUserHandler_ecall (hcause : t.scause = scauseUmodeEcall) :
    ktrapFromUserHandler L s cur pc t r =
      let k := atCall L s.k cur pc
      if trapWord L k cur tfA7 = sysGetpid then
        some { s with k := returnValue L k cur (pcb L k cur .pid) }
      else
        (ksyscall L k cur r).bind fun c => Sys.call L { s with k := k } cur c := by
  simp only [ktrapFromUserHandler]
  rw [if_pos (by rw [hcause]; decide), if_pos hcause]
  rfl

/-- The handler: an interrupt is not seen, and a call is the one the process asks for. -/
theorem handler_trapped (kreg : Reg → Word) (h : Saved L s g cur p s1) (hrun : s.running = some cur)
    (hsafe : t.scause = scauseUmodeEcall →
      ∀ call, ksyscall L (atCall L s1.k cur pc) cur r = some call →
        call.Safe L { s1 with k := atCall L s1.k cur pc } cur)
    (hs : ktrapFromUserHandler L s1 cur pc t r = some s') :
    Trapped L s cur ((s.world L).set cur (some (p.setReg tfEpc pc.toNat))) (.trap t r kreg) s' := by
  by_cases hcause : t.scause = scauseUmodeEcall
  · have h2 := h.atCall pc
    rw [ktrapFromUserHandler_ecall hcause] at hs
    obtain ⟨k2, hk2⟩ : ∃ k2, k2 = atCall L s1.k cur pc := ⟨_, rfl⟩
    rw [← hk2] at h2 hs hsafe
    simp only at hs
    split at hs
    · rename_i ha7
      obtain rfl := Option.some.inj hs
      have htrap := trapped_getpid kreg r h2 hrun hcause ha7
      exact htrap
    · obtain ⟨call, hcall, hs⟩ := Option.bind_eq_some_iff.mp hs
      have htrap := trapped_call kreg h2 hrun hcause hcall (hsafe hcause call hcall) hs
      exact htrap
  · simp only [ktrapFromUserHandler, if_neg hcause] at hs
    split at hs
    · cases hs
    · obtain ⟨tty, htty, rfl⟩ := Option.map_eq_some_iff.mp hs
      have h1 := h.setReg (w := tfEpc) (v := pc.toNat) (by decide)
      have htrap := trapped_interrupt kreg r h1 hrun (show scauseIntrBit ≤ t.scause by omega) htty
      exact htrap

theorem withHart_self (hreg : ∀ r, (reg r).toNat = trapWord L k cur (regWord r))
    (hpc : pc.toNat = trapWord L k cur tfEpc) :
    (runView L k cur).withHart reg pc = runView L k cur := by
  have hword : ∀ u, ((runView L k cur).withHart reg pc).reg u = (runView L k cur).reg u := by
    intro u
    simp only [Process.withHart]
    by_cases h3 : u = tfEpc
    · rw [if_pos h3, hpc, h3]
      exact (runView_reg (by decide)).symm
    · rw [if_neg h3]
      by_cases hu : 5 ≤ u ∧ u < 36
      · rw [if_pos hu, hreg, regWord_wordReg hu.1 hu.2]
        exact (runView_reg (.inr hu)).symm
      · rw [if_neg hu]
  generalize runView L k cur = q at *
  simp only [Process.withHart] at *
  rw [funext hword]

/-- `enter_user_process` gives the hart what is in the trap frame. -/
theorem Cpu.enter_running (kreg : Reg → Word) (csr : Csr → Word) (hI : ∃ g, SysInv L s g)
    (hu : s.user = true) (hret : Returning L cur s.k) :
    ∃ c', Cpu.enter L csr kreg s = some c' ∧ c'.sys = s ∧ CpuInv L c' ∧
      c'.world L = s.world L := by
  obtain ⟨g, hg⟩ := hI
  obtain ⟨hlive, hcur⟩ := hret.live
  obtain ⟨t, hrun, hmem, hcsr, hreg⟩ := run_enterUserProcess
    (h := { reg := Function.update kreg .a0 (satpOf (pcb L s.k cur .pagetable)), csr := csr,
            mem := s.k })
    hg.inv hlive rfl
  have hrunning : s.running = some cur := running_of hu hcur
  have hword : ∀ w, (BitVec.ofNat 32 (trapWord L s.k cur w)).toNat = trapWord L s.k cur w :=
    fun w => Nat.mod_eq_of_lt (load32_lt _ _)
  have hreg' : ∀ r, (t.reg r).toNat = trapWord L s.k cur (regWord r) := fun r => by
    rw [hreg]
    exact hword _
  have hpc := hword tfEpc
  refine ⟨{ sys := s, reg := t.reg, csr := t.csr,
            pc := BitVec.ofNat 32 (trapWord L s.k cur tfEpc) },
    ?_, rfl, ⟨⟨g, hg⟩, fun _ => ⟨cur, hrunning⟩, ?_, ?_⟩, ?_⟩
  · obtain ⟨k, tty, user⟩ := s
    subst hu
    simp only at hcur hrun hmem
    simp only [Cpu.enter, hcur, hrun, Option.map_some, hmem]
  · intro cur' hcur'
    obtain rfl : cur' = cur := Option.some.inj (hcur'.symm.trans hrunning)
    exact ⟨hlive, by rw [hcsr]; exact (hg.inv.onHart hlive).root, hret.ready⟩
  · intro hno
    rw [hu] at hno
    cases hno
  · simp only [Cpu.world, hrunning]
    rw [withHart_self hreg' hpc]
    exact World.set_eq_self (procsView_running hlive hrunning)

/-- The scheduler goes on with the table that is in `satp`. -/
theorem Cpu.enter_idle (kreg : Reg → Word) (hI : ∃ g, SysInv L s g) (hu : s.user = false)
    (hmap : s.k.current ≠ none → KernelTable L s.k.mem (satpRoot (csr .satp))) :
    ∃ c', Cpu.enter L csr kreg s = some c' ∧ c'.sys = s ∧ CpuInv L c' ∧
      c'.world L = s.world L := by
  have hrunning : s.running = none := by rw [Sys.running, hu, if_neg (by simp)]
  refine ⟨{ sys := s, reg := kreg, pc := 0, csr := csr }, ?_, rfl, ⟨hI, ?_, ?_, fun _ => hmap⟩, ?_⟩
  · simp only [Cpu.enter, hu]
  · intro hno
    rw [hu] at hno
    cases hno
  · intro cur' hcur'
    rw [hrunning] at hcur'
    cases hcur'
  · simp only [Cpu.world, hrunning]

/-! ## §3 Events -/

theorem withHart_withHart (p : Process) (reg reg' : Reg → Word) (pc pc' : Word) :
    (p.withHart reg pc).withHart reg' pc' = p.withHart reg' pc' := by
  simp only [Process.withHart, Process.mk.injEq, and_true]
  funext u
  split
  · rfl
  · split <;> rfl

/-- What an event leads to. -/
structure CpuStep (L : Layout) (c : Cpu) (op : CpuOp) (c' : Cpu) : Prop where
  inv : CpuInv L c'
  steps : Steps L c.sys c'.sys
  runs : (c.world L).Runs op (c'.world L)

theorem Cpu.world_running (hrun : c.sys.running = some cur) :
    c.world L = (c.sys.world L).set cur (some ((runView L c.sys.k cur).withHart c.reg c.pc)) := by
  simp only [Cpu.world, hrun]

theorem Cpu.world_idle (hrun : c.sys.running = none) : c.world L = c.sys.world L := by
  simp only [Cpu.world, hrun]

theorem idle_of (hu : s.user = false) : s.running = none := by
  rw [Sys.running, hu, if_neg (by simp)]

theorem Cpu.step_instr (h : CpuInv L c) (hs : c.step L (.instr reg pc) = some c') :
    CpuStep L c (.instr reg pc) c' := by
  simp only [Cpu.step] at hs
  split at hs
  · rename_i hu
    obtain rfl := Option.some.inj hs
    obtain ⟨cur, hrun⟩ := h.current hu
    refine ⟨⟨h.sys, h.current, h.running, h.idle⟩, .init rfl, ?_⟩
    have hruns : (c.world L).Runs (.instr reg pc) _ := .instr (i := cur)
      (p := (runView L c.sys.k cur).withHart c.reg c.pc)
      (by rw [Cpu.world_running hrun]; exact hrun)
      (by rw [Cpu.world_running hrun]; exact World.set_self ..)
    rw [withHart_withHart, Cpu.world_running hrun, World.set_set] at hruns
    have hworld := Cpu.world_running (L := L) (c := { c with reg := reg, pc := pc }) hrun
    rw [Cpu.world_running hrun, hworld]
    exact hruns
  · cases hs

/-- A store in user mode, through the table of the process that runs. -/
theorem userStoreByte_eq {satp : Word} {b : UInt8} (hroot : satpRoot satp = pcb L k cur .pagetable)
    (h : userStoreByte satp k va b = some k') :
    userWritable L k cur va = true ∧ storeByte L k cur va b = some k' := by
  simp only [userStoreByte, hroot] at h
  simp only [userWritable, storeByte, translate]
  cases hw : walk k.mem (pcb L k cur .pagetable) (va / pageSize) with
  | none => simp [hw] at h
  | some e =>
    simp only [hw] at h ⊢
    by_cases he : e &&& pteU ≠ 0 ∧ e &&& pteW ≠ 0
    · rw [if_pos he] at h
      rw [if_pos he.2]
      exact ⟨by simp [he], h⟩
    · rw [if_neg he] at h
      cases h

/-- A store is one through the table of the process that runs. -/
theorem CpuInv.store_cases {b : UInt8} (h : CpuInv L c) (hs : c.step L (.store va b) = some c') :
    ∃ g cur k1, Running L c.sys g cur ∧ va < 2 ^ 32 ∧ userWritable L c.sys.k cur va = true ∧
      storeByte L c.sys.k cur va b = some k1 ∧
      c.sys.call L cur (.userStore va b) = some { c.sys with k := k1 } ∧
      c' = { c with sys := { c.sys with k := k1 } } := by
  simp only [Cpu.step] at hs
  split at hs
  · rename_i hu
    obtain ⟨k1, hst, rfl⟩ := Option.map_eq_some_iff.mp hs
    obtain ⟨cur, hrun⟩ := h.current hu.1
    obtain ⟨g, hr⟩ := h.atRun hrun
    obtain ⟨-, hroot, -⟩ := h.running cur hrun
    obtain ⟨hw, hstore⟩ := userStoreByte_eq hroot hst
    refine ⟨g, cur, k1, hr, hu.2, hw, hstore, ?_, rfl⟩
    simp only [Sys.call]
    rw [if_pos ⟨hu.2, hw⟩, hstore]
    rfl
  · cases hs

theorem Cpu.step_store {b : UInt8} (h : CpuInv L c) (hs : c.step L (.store va b) = some c') :
    CpuStep L c (.store va b) c' := by
  obtain ⟨g, cur, k1, hr, hva, hw, hstore, hcall, rfl⟩ := h.store_cases hs
  have hg := hr.inv
  have hlive := hr.live
  have hrun := hr.running_eq
  obtain ⟨-, hroot, hready⟩ := h.running cur hrun
  have hp := hg.inv.proc cur hlive
  have hup := userPage_of_writable hw
  have hsteps : Steps L c.sys { c.sys with k := k1 } :=
    .one (show Op.Safe L c.sys (.call (.userStore va b)) from fun _ _ => trivial)
      ((hr.step_call _).trans hcall)
  obtain ⟨hk1, hg1⟩ := storeByte_user hg.inv.kmem hp hva hup hstore
  have hd := CallDone.stores hg hlive hk1 hg1
  have hpcb : ∀ f : PcbField, f.InStruct → pcb L k1 cur f = pcb L c.sys.k cur f :=
    fun f hf => hg1.pcb hlive.1 hf (fun _ _ h => h)
  have hword : ∀ w < 1024, trapWord L k1 cur w = trapWord L c.sys.k cur w := fun w hw =>
    trapWord_grow hg1 hg.inv.kmem hp.trapframe (fun h => by obtain ⟨v, h⟩ := h; cases h)
      (hpcb .trapframe trivial) hw
  have hrun' : Sys.running { c.sys with k := k1 } = some cur :=
    running_of hr.user (hd.current.trans hr.current)
  refine ⟨⟨hsteps.inv ⟨g, hg⟩, fun _ => ⟨cur, hrun'⟩, fun cur' hcur' => ?_, fun hno => ?_⟩,
    hsteps, ?_⟩
  · obtain rfl : cur' = cur := Option.some.inj (hcur'.symm.trans hrun')
    refine ⟨hd.live, hroot.trans (hpcb .pagetable trivial).symm, ⟨?_, ?_⟩⟩
    · rw [hword _ (by decide), hpcb .kernelStackTop trivial, hready.kernelSp]
    · rw [hword _ (by decide), hready.kernelTrap]
  · exact absurd (hno.symm.trans hr.user) (by simp)
  · obtain ⟨-, hview⟩ := storeByte_view hg.inv hlive hva hup hstore
    have hrunView : runView L k1 cur = (runView L c.sys.k cur).store va b := by
      rw [runView_congr hview]
      rfl
    have hworld :=
      Cpu.world_running (L := L) (c := { c with sys := { c.sys with k := k1 } }) hrun'
    have hsys : Sys.world L { c.sys with k := k1 } =
        (c.sys.world L).set cur (some ((runView L c.sys.k cur).store va b)) :=
      hd.world_same hg.files hrun hg1.filesSame hrunView
    have hruns := World.Runs.store (w := c.world L) (b := b) (i := cur)
      (p := (runView L c.sys.k cur).withHart c.reg c.pc)
      (by rw [Cpu.world_running hrun]; exact hrun)
      (by rw [Cpu.world_running hrun]; exact World.set_self ..) (runView_has hup hva)
    rw [Cpu.world_running hrun, World.set_set] at hruns
    rw [Cpu.world_running hrun, hworld, hsys, World.set_set, hrunView]
    exact hruns

theorem Running.savedRegs (h : Running L s g cur) (reg : Reg → Word)
    (hs1 : s1 = { s with k := saveRegs L cur reg s.k }) :
    Saved L s g cur (trapFrame.storeAll (fun p w v => p.setReg w v.toNat) reg (runView L s.k cur))
      s1 := by
  rw [hs1]
  exact h.saved.storeAll trapFrame_isReg reg

/-- The state after `uservec`, when the frame is ready. -/
theorem CpuInv.run_uservec (h : CpuInv L c) (hr : Running L c.sys g cur) :
    ∃ u : Hart KState,
      Hart.run kernelMmu { reg := c.reg, csr := c.csr, mem := c.sys.k } uservec = some u ∧
      u.mem = saveRegs L cur c.reg c.sys.k ∧
      u.csr = Function.update c.csr .sscratch (c.reg .a0) ∧
      u.reg .t0 = BitVec.ofNat 32 L.ktrapFromUserHandler ∧
      u.reg .sp = BitVec.ofNat 32 (pcb L c.sys.k cur .kernelStackTop) := by
  obtain ⟨hlive, hroot, hready⟩ := h.running cur hr.running_eq
  have hsaved := hr.savedRegs c.reg rfl
  have hword : ∀ w < 36, ¬ IsReg w → trapWord L (saveRegs L cur c.reg c.sys.k) cur w =
      trapWord L c.sys.k cur w := hsaved.kernelWord
  obtain ⟨u, hexec, hmem, hcsr, hsp, ht0⟩ :=
    Risky321.Kernel.run_uservec c.reg c.csr ⟨hr.inv.inv, hlive, hroot⟩
  refine ⟨u, hexec, hmem, hcsr, ?_, ?_⟩
  · rw [ht0, hword _ (by decide) (by decide), hready.kernelTrap]
  · rw [hsp, hword _ (by decide) (by decide), hready.kernelSp]

/-- A trap in user mode is one of a process, and the handler's state is the one returned in. -/
theorem CpuInv.trap_cases {r : SavedRegs} (h : CpuInv L c) (hsafe : (CpuOp.trap t r kreg).Safe L c)
    (hs : c.step L (.trap t r kreg) = some c') :
    ∃ g cur, Running L c.sys g cur ∧
      ktrapFromUserHandler L { c.sys with k := saveRegs L cur c.reg c.sys.k } cur c.pc t r =
        some c'.sys ∧
      Trapped L c.sys cur (c.world L) (.trap t r kreg) c'.sys ∧ CpuInv L c' ∧
      c'.world L = c'.sys.world L := by
  by_cases hu : c.sys.user = true
  · obtain ⟨cur, hrun⟩ := h.current hu
    obtain ⟨g, hr⟩ := h.atRun hrun
    obtain ⟨-, hroot, -⟩ := h.running cur hrun
    obtain ⟨u, hexec, hmem, hcsr, -, -⟩ := h.run_uservec hr
    have hsatp : u.csr .satp = c.csr .satp := by
      rw [hcsr]
      rfl
    simp only [Cpu.step, hu, hr.current, hexec, Option.bind_some] at hs
    split at hs
    · obtain ⟨s2, hhandler, henter⟩ := Option.bind_eq_some_iff.mp hs
      obtain ⟨s1, hs1⟩ : ∃ s1, s1 = { c.sys with k := saveRegs L cur c.reg c.sys.k } := ⟨_, rfl⟩
      have hsaved := hr.savedRegs c.reg hs1
      rw [hmem, ← hu, ← hs1] at hhandler
      have htrap := handler_trapped kreg hsaved hrun (fun hcause call hcall => by
        rw [hs1] at hcall ⊢
        exact hsafe hcause cur call hr.current hcall) hhandler
      rw [Process.storeAll_withHart, ← Cpu.world_running hrun] at htrap
      have hsys2 := htrap.steps.inv h.sys
      have hback : ∃ c2, Cpu.enter L u.csr kreg s2 = some c2 ∧ c2.sys = s2 ∧ CpuInv L c2 ∧
          c2.world L = s2.world L := by
        by_cases hu2 : s2.user = true
        · exact Cpu.enter_running kreg u.csr hsys2 hu2 (htrap.returning hu2)
        · have hu2' : s2.user = false := by simpa using hu2
          have htable := htrap.idle hu2'
          rw [← hroot, ← hsatp] at htable
          exact Cpu.enter_idle kreg hsys2 hu2' fun _ => htable
      obtain ⟨c2, hc2, hsys, hinv, hworld⟩ := hback
      obtain rfl : c2 = c' := Option.some.inj (hc2.symm.trans henter)
      rw [hs1] at hhandler
      rw [hsys]
      exact ⟨g, cur, hr, hhandler, htrap, hinv, hworld⟩
    · cases hs
  · simp [Cpu.step, hu] at hs

theorem Cpu.step_trap {r : SavedRegs} (h : CpuInv L c) (hsafe : (CpuOp.trap t r kreg).Safe L c)
    (hs : c.step L (.trap t r kreg) = some c') : CpuStep L c (.trap t r kreg) c' := by
  obtain ⟨g, cur, -, -, htrap, hinv, hworld⟩ := h.trap_cases hsafe hs
  exact ⟨hinv, htrap.steps, by rw [hworld]; exact htrap.runs⟩

/-- The registers, in the state in which the call is made. -/
theorem Running.atCall_reg (h : Running L s g cur) (reg : Reg → Word) (pc : Word) (r : Reg) :
    trapWord L (atCall L (saveRegs L cur reg s.k) cur pc) cur (regWord r) = (reg r).toNat := by
  have hsaved := (h.savedRegs reg rfl).atCall pc
  rw [Process.storeAll_withHart] at hsaved
  have hne := regWord_ne_epc r
  rw [← Process.withHart_reg (runView L s.k cur) reg pc, ← next_reg _ hne, ← hsaved.view]
  exact (runView_reg (isReg_regWord r)).symm

/-- Only `read`, `exec` and `close` have a condition. -/
theorem Running.safe_trap (h : Running L c.sys g cur) (h5 : (c.reg .a7).toNat ≠ 5)
    (h7 : (c.reg .a7).toNat ≠ 7) (h21 : (c.reg .a7).toNat ≠ 21) :
    (CpuOp.trap t r kreg).Safe L c := by
  intro hcause cur' call hcur' hcall
  obtain rfl : cur' = cur := Option.some.inj (hcur'.symm.trans h.current)
  have ha7 : (runView L (atCall L (saveRegs L cur' c.reg c.sys.k) cur' c.pc) cur').reg tfA7 =
      (c.reg .a7).toNat := (runView_reg (by decide)).trans (h.atCall_reg c.reg c.pc .a7)
  cases ksyscall_asks hcall with
  | read h => exact absurd (ha7.symm.trans h) h5
  | exec h _ _ => exact absurd (ha7.symm.trans h) h7
  | close h => exact absurd (ha7.symm.trans h) h21
  | _ => trivial

/-- A call that the kernel can make leads back to a process, or to the scheduler. -/
theorem Cpu.step_of_call (kreg : Reg → Word) (h : CpuInv L c) (hr : Running L c.sys g cur)
    (hk : k = atCall L (saveRegs L cur c.reg c.sys.k) cur c.pc)
    (hcause : t.scause = scauseUmodeEcall) (ha7 : (c.reg .a7).toNat ≠ sysGetpid)
    (hcall : ksyscall L k cur r = some call) (hsafe : call.Safe L { c.sys with k := k } cur)
    (hs : Sys.call L { c.sys with k := k } cur call = some s') :
    ∃ c', c.step L (.trap t r kreg) = some c' ∧ c'.sys = s' := by
  obtain ⟨u, hexec, hmem, hcsr, ht0, -⟩ := h.run_uservec hr
  obtain ⟨-, hroot, -⟩ := h.running cur hr.running_eq
  obtain ⟨s1, hs1⟩ : ∃ s1, s1 = { c.sys with k := saveRegs L cur c.reg c.sys.k } := ⟨_, rfl⟩
  have hsaved := hr.savedRegs c.reg hs1
  have hword : trapWord L (atCall L (saveRegs L cur c.reg c.sys.k) cur c.pc) cur tfA7 =
      (c.reg .a7).toNat := hr.atCall_reg c.reg c.pc .a7
  have hhandler : ktrapFromUserHandler L s1 cur c.pc t r = some s' := by
    rw [ktrapFromUserHandler_ecall hcause, hs1]
    simp only
    rw [if_neg (fun heq => ha7 (hword.symm.trans heq)), ← hk, hcall, Option.bind_some]
    exact hs
  have htrap := handler_trapped kreg hsaved hr.running_eq (fun _ call' hcall' => by
    rw [hs1] at hcall' ⊢
    simp only at hcall' ⊢
    rw [← hk] at hcall' ⊢
    obtain rfl : call = call' := Option.some.inj (hcall.symm.trans hcall')
    exact hsafe) hhandler
  have hinv := htrap.steps.inv h.sys
  have henter : ∃ c', Cpu.enter L u.csr kreg s' = some c' ∧ c'.sys = s' := by
    by_cases hu : s'.user = true
    · obtain ⟨c', hc', hsys, -⟩ := Cpu.enter_running kreg u.csr hinv hu (htrap.returning hu)
      exact ⟨c', hc', hsys⟩
    · have hu' : s'.user = false := by simpa using hu
      have htable := htrap.idle hu'
      rw [← hroot, show c.csr .satp = u.csr .satp by rw [hcsr]; rfl] at htable
      obtain ⟨c', hc', hsys, -⟩ := Cpu.enter_idle kreg hinv hu' fun _ => htable
      exact ⟨c', hc', hsys⟩
  obtain ⟨c', hc', hsys⟩ := henter
  refine ⟨c', ?_, hsys⟩
  simp only [Cpu.step, hr.user, hr.current, hexec, Option.bind_some]
  rw [if_pos ht0, hmem, ← hr.user, ← hs1, hhandler]
  exact hc'

/-- The scheduler leaves the words of the frame for the process it enters. -/
theorem SysInv.schedule_returning (h : SysInv L s g) (hs : s.step L (.schedule i) = some s1) :
    s.user = false ∧ s1.user = true ∧ Returning L i s1.k := by
  simp only [Sys.step] at hs
  split at hs
  · rename_i hc
    obtain ⟨huser, hi, hstate⟩ := hc
    obtain rfl := Option.some.inj hs
    have hlive : Live L s.k i := ⟨hi, by
      rintro hno
      rw [hno] at hstate
      revert hstate
      decide⟩
    have hI := h.inv.schedule hlive
    refine ⟨huser, rfl, ?_⟩
    simp only [enterSlot]
    split
    · exact hI.returning_value 0 hlive rfl
    · exact hI.returning hlive rfl
  · cases hs

theorem CpuInv.swtch_cases (h : CpuInv L c) (hs : c.step L (.swtch i kreg) = some c') :
    c.sys.step L (.schedule i) = some c'.sys ∧ c.sys.user = false ∧ CpuInv L c' ∧
      c'.world L = c'.sys.world L := by
  obtain ⟨g, hg⟩ := h.sys
  obtain ⟨s1, hsched, henter⟩ := Option.bind_eq_some_iff.mp hs
  have hsteps : Steps L c.sys s1 := .one (show Op.Safe L c.sys (.schedule i) from trivial) hsched
  obtain ⟨hidle, hu1, hret⟩ := hg.schedule_returning hsched
  obtain ⟨c2, hc2, hsys, hinv, hworld⟩ :=
    Cpu.enter_running kreg c.csr (hsteps.inv ⟨g, hg⟩) hu1 hret
  obtain rfl : c2 = c' := Option.some.inj (hc2.symm.trans henter)
  rw [hsys]
  exact ⟨hsched, hidle, hinv, hworld⟩

theorem Cpu.step_swtch (h : CpuInv L c) (hs : c.step L (.swtch i kreg) = some c') :
    CpuStep L c (.swtch i kreg) c' := by
  obtain ⟨g, hg⟩ := h.sys
  obtain ⟨hsched, hidle, hinv, hworld⟩ := h.swtch_cases hs
  refine ⟨hinv, .one (show Op.Safe L c.sys (.schedule i) from trivial) hsched, ?_⟩
  have hstep := schedule_refines hg hsched
  rw [hworld, Cpu.world_idle (idle_of hidle)]
  generalize c'.sys.world L = w' at *
  cases hstep with
  | schedule hidle hproc => exact .swtch hidle hproc

theorem Cpu.step_kernelTrap (h : CpuInv L c) (hs : c.step L (.kernelTrap t) = some c') :
    CpuStep L c (.kernelTrap t) c' := by
  simp only [Cpu.step] at hs
  split at hs
  · rename_i hu
    obtain ⟨tty, htty, rfl⟩ := Option.map_eq_some_iff.mp hs
    have hsteps : Steps L c.sys { c.sys with tty := tty } := by
      simp only [ktrapInterruptHandle] at htty
      split at htty
      · split at htty
        · obtain rfl := Option.some.inj htty
          exact Steps.console t.received (.init rfl)
        · cases htty
      · cases htty
    have hrun : c.sys.running = none := idle_of hu.1
    have hworld := Cpu.world_idle (L := L) (c := { c with sys := { c.sys with tty := tty } }) hrun
    refine ⟨⟨hsteps.inv h.sys, h.current, h.running, h.idle⟩, hsteps, ?_⟩
    rw [hworld, Cpu.world_idle hrun]
    exact .kernelTrap hrun
  · cases hs

theorem Cpu.step_refines (h : CpuInv L c) (hsafe : op.Safe L c) (hs : c.step L op = some c') :
    CpuStep L c op c' := by
  cases op with
  | instr reg pc => exact Cpu.step_instr h hs
  | store va b => exact Cpu.step_store h hs
  | trap t r kreg => exact Cpu.step_trap h hsafe hs
  | swtch i kreg => exact Cpu.step_swtch h hs
  | kernelTrap t => exact Cpu.step_kernelTrap h hs

/-! ## §4 Runs -/

/-- The states of the machine's safe runs. -/
abbrev CpuReach (L : Layout) : Cpu → Prop :=
  Reach (Cpu.Init L) (fun c op c' => c.step L op = some c') (fun c op => op.Safe L c)

theorem Cpu.Init.inv (h : Cpu.Init L c) : CpuInv L c := by
  have hu : c.sys.user = false := h.user
  obtain ⟨m, k, g, hs⟩ := Sys.Init.started h
  have hcur : c.sys.k.current = none := hs.created.grow.current.trans hs.booted.current
  refine ⟨⟨g, hs.sysInv⟩, fun hno => ?_, fun cur hrun => ?_, fun _ hne => absurd hcur hne⟩
  · exact absurd (hno.symm.trans hu) (by simp)
  · rw [idle_of hu] at hrun
    cases hrun

theorem cpuReach_inv (h : CpuReach L c) :
    CpuInv L c ∧ SysReach L (fun s op => op.Safe L s) c.sys := by
  refine h.invariant (I := fun c => CpuInv L c ∧ SysReach L (fun s op => op.Safe L s) c.sys) ?_ ?_
  · intro c h0
    exact ⟨h0.inv, .init h0⟩
  · rintro c op c' ⟨hI, hr⟩ hok hs
    have hstep := Cpu.step_refines hI hok hs
    exact ⟨hstep.inv, hr.trans hstep.steps⟩

/-- The example runs its first process, which has put what it wants in the registers. -/
theorem exampleCpu (reg : Reg → Word) : ∃ c g, CpuReach exampleLayout c ∧
    Entered exampleLayout exampleMem c.sys g ∧ c.reg = reg := by
  obtain ⟨s0, k, g, hinit, hs⟩ := exampleStarted
  obtain ⟨s1, hsched, he, -⟩ := hs.entered
  let c0 : Cpu := { sys := s0, reg := fun _ => 0, pc := 0, csr := fun _ => 0 }
  have hreach : CpuReach exampleLayout c0 := .init (show Cpu.Init exampleLayout c0 from hinit)
  obtain ⟨-, -, hret⟩ := hs.sysInv.schedule_returning hsched
  obtain ⟨c1, henter, hsys, -, -⟩ :=
    Cpu.enter_running (fun _ => 0) c0.csr ⟨g, he.running.inv⟩ he.running.user hret
  have hswtch : c0.step exampleLayout (.swtch 0 fun _ => 0) = some c1 := by
    simp only [Cpu.step]
    rw [show c0.sys = s0 from rfl, hsched]
    exact henter
  have hsafe : CpuOp.Safe exampleLayout c0 (.swtch 0 fun _ => 0) := trivial
  have hinstr : c1.step exampleLayout (.instr reg 0) = some { c1 with reg := reg, pc := 0 } := by
    simp only [Cpu.step, hsys, he.running.user]
    rfl
  have hsafe1 : CpuOp.Safe exampleLayout c1 (.instr reg 0) := trivial
  refine ⟨_, g, .step (.step hreach hsafe hswtch) hsafe1 hinstr, ?_, rfl⟩
  rw [show ({ c1 with reg := reg, pc := 0 } : Cpu).sys = s1 from hsys]
  exact he

/-- A trap in user mode finds its way: `uservec` does not fault, the handler is
entered on the kernel stack of the process, and the registers are in its frame. -/
theorem uservec_enters (h : CpuReach L c) (hrun : c.sys.running = some cur) :
    ∃ u : Hart KState,
      Hart.run kernelMmu { reg := c.reg, csr := c.csr, mem := c.sys.k } uservec = some u ∧
      u.reg .t0 = BitVec.ofNat 32 L.ktrapFromUserHandler ∧
      (u.reg .sp).toNat = L.proc cur + sizeofProcess ∧
      u.csr .satp = c.csr .satp ∧ satpRoot (c.csr .satp) = pcb L c.sys.k cur .pagetable ∧
      ∀ r, trapWord L u.mem cur (regWord r) = (c.reg r).toNat := by
  obtain ⟨hI, hreach⟩ := cpuReach_inv h
  obtain ⟨g, hr⟩ := hI.atRun hrun
  obtain ⟨-, hroot, -⟩ := hI.running cur hrun
  obtain ⟨u, hexec, hmem, hcsr, ht0, hsp⟩ := hI.run_uservec hr
  have hsaved := hr.savedRegs c.reg rfl
  refine ⟨u, hexec, ht0, ?_, by rw [hcsr]; rfl, hroot, fun r => ?_⟩
  · have hbound := L.proc_bound hr.live.1
    have hend := L.end_le
    simp only [vaUserBase] at hend
    rw [hsp, (sysReach_slots hreach).1 cur hr.live.1, BitVec.toNat_ofNat, Nat.mod_eq_of_lt]
    omega
  · have hne := regWord_ne_epc r
    -- the registers are there before `epc` is written
    have hreg := congrArg (fun p => p.reg (regWord r))
      (Process.storeAll_withHart (runView L c.sys.k cur) c.reg c.pc)
    simp only [Process.withHart_reg, Process.setReg_of_ne _ _ hne] at hreg
    rw [hmem, ← hreg, ← hsaved.view]
    exact (runView_reg (isReg_regWord r)).symm

theorem uservec_enters_example : ∃ (c : Cpu) (u : Hart KState), c.sys.running = some 0 ∧
    Hart.run kernelMmu { reg := c.reg, csr := c.csr, mem := c.sys.k } uservec = some u ∧
    (u.reg .sp).toNat = exampleLayout.proc 0 + sizeofProcess := by
  obtain ⟨c, g, hreach, he, -⟩ := exampleCpu fun _ => 0
  have hrun := he.running.running_eq
  obtain ⟨u, hexec, -, hsp, -⟩ := uservec_enters hreach hrun
  exact ⟨c, u, hrun, hexec, hsp⟩

/-- The scheduler runs on the table of the process that ran before it, and a trap
on the one of the process it interrupts. Both map the kernel, also when the first
is that of a process that is gone, whose root page was freed. -/
theorem satp_maps_kernel (h : CpuReach L c) (hcur : c.sys.k.current ≠ none) :
    KernelTable L c.sys.k.mem (satpRoot (c.csr .satp)) := by
  obtain ⟨hI, -⟩ := cpuReach_inv h
  obtain ⟨g, hg⟩ := hI.sys
  by_cases hu : c.sys.user = true
  · obtain ⟨cur, hrun⟩ := hI.current hu
    obtain ⟨hlive, hroot, -⟩ := hI.running cur hrun
    rw [hroot]
    exact hg.inv.kernelTable hlive
  · exact hI.idle (by simpa using hu) hcur

/-- The example makes the call `n`, if the kernel can. -/
theorem exampleTrap (n : Word) : ∃ c g s1, CpuReach exampleLayout c ∧
    Entered exampleLayout exampleMem c.sys g ∧ c.reg = (fun _ => n) ∧
    (∃ p, Saved exampleLayout c.sys g 0 p s1) ∧ trapWord exampleLayout s1.k 0 tfA7 = n.toNat ∧
    ∀ call s', n.toNat ≠ sysGetpid → ksyscall exampleLayout s1.k 0 zeroRegs = some call →
      call.Safe exampleLayout s1 0 → s1.call exampleLayout 0 call = some s' →
      ∃ c', c.step exampleLayout (.trap ⟨8, 0, []⟩ zeroRegs fun _ => 0) = some c' ∧
        c'.sys = s' := by
  obtain ⟨c, g, hreach, he, hreg⟩ := exampleCpu fun _ => n
  have hr := he.running
  have ha7 : c.reg .a7 = n := by rw [hreg]
  refine ⟨c, g, _, hreach, he, hreg, ⟨_, (hr.savedRegs c.reg rfl).atCall c.pc⟩, ?_, ?_⟩
  · rw [← ha7]
    exact hr.atCall_reg c.reg c.pc .a7
  · intro call s' hn hcall hsafe hs
    have hI := (cpuReach_inv hreach).1
    exact Cpu.step_of_call _ hI hr rfl rfl (by rw [ha7]; exact hn) hcall hsafe hs

/-- The first process of the example has ended. -/
theorem exampleExited : ∃ c, CpuReach exampleLayout c ∧ c.sys.user = false ∧
    c.sys.k.current ≠ none := by
  obtain ⟨c, g, s1, hreach, he, hreg, ⟨p, hsaved⟩, ha7, hcall⟩ := exampleTrap 2
  have hexit : ksyscall exampleLayout s1.k 0 zeroRegs = some (.exit zeroRegs) := by
    simp only [ksyscall, ha7]
    rfl
  obtain ⟨c1, hstep, hsys⟩ := hcall (.exit zeroRegs) _ (by decide) hexit trivial rfl
  have hsafe : CpuOp.Safe exampleLayout c (.trap ⟨8, 0, []⟩ zeroRegs fun _ => 0) := by
    have hn : (c.reg .a7).toNat = 2 := by
      rw [hreg]
      rfl
    exact he.running.safe_trap (by omega) (by omega) (by omega)
  refine ⟨c1, .step hreach hsafe hstep, by rw [hsys], ?_⟩
  have hr1 := hsaved.running
  have hrel := kprocFree_spec (s := zeroRegs) hr1.inv.inv hr1.live
  rw [hsys]
  exact fun hno => absurd ((hrel.current.trans hr1.current).symm.trans hno) (by simp)

theorem satp_maps_kernel_exited : ∃ c : Cpu, c.sys.user = false ∧
    KernelTable exampleLayout c.sys.k.mem (satpRoot (c.csr .satp)) := by
  obtain ⟨c, hreach, hu, hcur⟩ := exampleExited
  exact ⟨c, hu, satp_maps_kernel hreach hcur⟩

end Risky321.Kernel
