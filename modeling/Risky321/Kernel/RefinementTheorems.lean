/-
Risky321.Kernel.RefinementTheorems — the kernel implements the processes of
`Processes.lean`.

Every safe event of the kernel is an event of the world that `Sys.world` reads
off its state, so every run is a run of worlds. The calls and the events of the
scheduler are taken one by one in `CallTheorems` and `LifeTheorems`; here they
are put together, with the world in which the scheduler is first entered.
-/
import Risky321.Kernel.LifeTheorems

namespace Risky321.Kernel

open Risky321.Lib

variable {L : Layout} {k k' : KState} {g : Ghost} {cur : Nat} {s s' : Sys} {op : Op} {c : Call}

theorem Sys.call_refines (h : SysInv L s g) (hlive : Live L s.k cur) (hrun : s.running = some cur)
    (hsafe : c.Safe L s cur) (hs : s.call L cur c = some s') :
    (s.world L).Called cur (runView L s.k cur) c (s'.world L) := by
  cases c with
  | fork => exact called_fork h hlive hrun hs
  | exec path argv => exact called_exec h hlive hrun hsafe hs
  | sbrk => exact called_sbrk h hlive hrun hs
  | exit r => exact called_exit h hlive hrun hs
  | kill pid r => exact called_kill h hlive hrun hs
  | sleep r => exact called_sleep h hlive hrun hs
  | openFile path => exact called_open h hlive hrun hs
  | read fd buf size => exact called_read h hlive hrun hsafe.1 hsafe.2 hs
  | close fd => exact called_close h hlive hrun hsafe hs
  | write fd data size => exact called_write h hlive hrun hs
  | userStore va b => exact called_userStore h hlive hrun hs
  | saveReg u v => exact called_saveReg h hlive hrun hs

/-- A safe event is an event of the world. -/
theorem Sys.step_refines (h : SysInv L s g) (hsafe : op.Safe L s) (hs : s.step L op = some s') :
    (s.world L).Step op (s'.world L) := by
  cases op with
  | schedule i => exact schedule_refines h hs
  | create idx => exact create_refines h hsafe hs
  | console b =>
    rw [Sys.step, Option.some.injEq] at hs
    rw [← hs]
    exact .console
  | call c =>
    obtain ⟨cur, hcur, huser, hlive, hcall⟩ := Sys.step_call_cases hs
    have hrun : s.running = some cur := Sys.running_eq.mpr ⟨huser, hcur⟩
    exact .call hrun (procsView_running hlive hrun)
      (Sys.call_refines h hlive hrun (hsafe cur hcur) hcall)

/-- The first world. -/
theorem Sys.Init.world (h : Sys.Init L s) : (s.world L).Init := by
  obtain ⟨⟨dev, m, hm, hboot⟩, htty, huser⟩ := h
  obtain ⟨i, k, hk, hc⟩ := boot_stages hboot
  obtain ⟨k', hk', hb⟩ := bootKernel_spec L (bootKernel_ok hk) m
  obtain rfl : k' = k := Option.some.inj (hk'.symm.trans hk)
  have hok := (hb.sameFile (show 2 < 12 by decide)).elfOk (by decide) hm.elf
  obtain ⟨g, hcr⟩ := kprocCreate_inv hb.inv (by decide) hok hc
  obtain rfl : i = 0 := by
    have hslot := hcr.slot
    rw [freeSlot_booted hb, Option.some.injEq] at hslot
    exact hslot.symm
  have hidle : s.running = none := by rw [Sys.running, huser, if_neg (by simp)]
  have hlive : Live L s.k 0 := ⟨by decide, by
    rw [hcr.state]
    decide⟩
  refine ⟨hidle, ?_, ⟨procView L s.k 0, procsView_idle hlive (by rw [hidle]; simp), ?_⟩, ?_⟩
  · intro j fd
    refine if_neg fun h => h.2.2 ?_
    rw [hcr.filesSame.opened j h.1 fd h.2.1, hm.opened_zero hb h.1 h.2.1]
  · intro q hq
    obtain ⟨hin, rfl⟩ := imageView_eq_some ((congrFun hcr.filesSame.fsSame.imageView 2).symm.trans hq)
    exact kprocCreate_view hb.inv (by decide) hin hc
  · intro j hj
    refine procsView_unused fun hl => hl.2 ?_
    rw [hcr.grow.pcb_other (f := .state) hl.1 trivial hj, hb.unused j hl.1]

end Risky321.Kernel
