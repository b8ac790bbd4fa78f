/-
Risky321.Lib.Hart — straight-line supervisor code over a memory that may fault.

The loads and stores of `Rv32` go to bytes. Here they go through whatever the
contents of `satp` select, and of the memory behind it only this is known: a
`Window` is a row of words behind a base address that can be loaded and stored,
with functions that say what a load gives and what a store leaves. Saving a
frame into a window is then a sequence of its stores (`run_saveAll`), restoring
one a sequence of register updates (`run_restoreAll`).
-/
import Risky321.Lib.Rv32

namespace Risky321.Lib

/-- The control and status registers that matter to memory and traps. -/
inductive Csr
  | satp | sscratch
  deriving DecidableEq, Repr

/-- A hart over a memory. -/
structure Hart (σ : Type) where
  reg : Reg → Word
  csr : Csr → Word
  mem : σ

/-- Loads and stores of a word by the contents of `satp` and the address. `none` is a fault. -/
structure Mmu (σ : Type) where
  load : Word → σ → Nat → Option Word
  store : Word → σ → Nat → Word → Option σ

/-- The instructions of `Rv32`, `li`, and the access to the CSRs. -/
inductive SInstr
  | base (i : Instr)
  | li (rd : Reg) (imm : Nat)
  | csrw (csr : Csr) (rs : Reg)
  | csrr (rd : Reg) (csr : Csr)
  deriving DecidableEq, Repr

variable {σ : Type}

def Hart.setReg (h : Hart σ) (rd : Reg) (v : Word) : Hart σ :=
  { h with reg := Function.update h.reg rd v }

@[simp] theorem Hart.setReg_self (h : Hart σ) (rd : Reg) (v : Word) :
    (h.setReg rd v).reg rd = v := Function.update_self ..

theorem Hart.setReg_of_ne {r rd : Reg} (h : Hart σ) (v : Word) (hne : r ≠ rd) :
    (h.setReg rd v).reg r = h.reg r := Function.update_of_ne hne _ _

@[simp] theorem Hart.setReg_csr (h : Hart σ) (rd : Reg) (v : Word) :
    (h.setReg rd v).csr = h.csr := rfl

@[simp] theorem Hart.setReg_mem (h : Hart σ) (rd : Reg) (v : Word) :
    (h.setReg rd v).mem = h.mem := rfl

def Hart.addr (h : Hart σ) (off : Nat) (b : Reg) : Nat := (h.reg b + BitVec.ofNat 32 off).toNat

/-- One instruction. -/
def Hart.exec (mmu : Mmu σ) (h : Hart σ) : SInstr → Option (Hart σ)
  | .base (.addi rd rs imm) => some (h.setReg rd (h.reg rs + BitVec.ofInt 32 imm))
  | .base (.lw rd off b) => (mmu.load (h.csr .satp) h.mem (h.addr off b)).map (h.setReg rd)
  | .base (.sw rs off b) =>
    (mmu.store (h.csr .satp) h.mem (h.addr off b) (h.reg rs)).map fun m => { h with mem := m }
  | .li rd imm => some (h.setReg rd (BitVec.ofNat 32 imm))
  | .csrw csr rs => some { h with csr := Function.update h.csr csr (h.reg rs) }
  | .csrr rd csr => some (h.setReg rd (h.csr csr))

/-- A straight line of instructions. -/
def Hart.run (mmu : Mmu σ) (h : Hart σ) (code : List SInstr) : Option (Hart σ) :=
  code.foldlM (Hart.exec mmu) h

variable {mmu : Mmu σ} {h : Hart σ} {b r : Reg} {f : Frame}

@[simp] theorem Hart.run_nil (mmu : Mmu σ) (h : Hart σ) : h.run mmu [] = some h := rfl

@[simp] theorem Hart.run_cons (mmu : Mmu σ) (h : Hart σ) (i : SInstr) (code : List SInstr) :
    h.run mmu (i :: code) = (h.exec mmu i).bind fun h => h.run mmu code := rfl

theorem Hart.run_append (mmu : Mmu σ) (h : Hart σ) (c c' : List SInstr) :
    h.run mmu (c ++ c') = (h.run mmu c).bind fun h => h.run mmu c' := by
  simp [Hart.run, List.foldlM_append]

/-! ## Windows -/

/-- The first `n` words behind `base` can be loaded and stored while `ok` holds. -/
structure Window (mmu : Mmu σ) (satp : Word) (base n : Nat) (ok : σ → Prop) (ld : σ → Nat → Word)
    (st : σ → Nat → Word → σ) : Prop where
  room : base + n * 4 ≤ 2 ^ 32
  load : ∀ m w, ok m → w < n → mmu.load satp m (base + w * 4) = some (ld m w)
  store : ∀ m w v, ok m → w < n → mmu.store satp m (base + w * 4) v = some (st m w v)
  keeps : ∀ m w v, ok m → w < n → ok (st m w v)

variable {satp : Word} {base n w : Nat} {ok : σ → Prop} {ld : σ → Nat → Word}
  {st : σ → Nat → Word → σ}

theorem Window.addr (hw : Window mmu satp base n ok ld st) (hb : (h.reg b).toNat = base)
    (hlt : w < n) : h.addr (w * 4) b = base + w * 4 := by
  have hroom := hw.room
  rw [Hart.addr, BitVec.toNat_add, BitVec.toNat_ofNat, hb, Nat.mod_eq_of_lt (by omega),
    Nat.mod_eq_of_lt (by omega)]

theorem Window.exec_sw (hw : Window mmu satp base n ok ld st) (hsatp : h.csr .satp = satp)
    (hb : (h.reg b).toNat = base) (hok : ok h.mem) (hlt : w < n) :
    h.exec mmu (.base (.sw r (w * 4) b)) = some { h with mem := st h.mem w (h.reg r) } := by
  rw [Hart.exec, hsatp, hw.addr hb hlt, hw.store _ _ _ hok hlt]
  rfl

theorem Window.exec_lw (hw : Window mmu satp base n ok ld st) (hsatp : h.csr .satp = satp)
    (hb : (h.reg b).toNat = base) (hok : ok h.mem) (hlt : w < n) :
    h.exec mmu (.base (.lw r (w * 4) b)) = some (h.setReg r (ld h.mem w)) := by
  rw [Hart.exec, hsatp, hw.addr hb hlt, hw.load _ _ hok hlt]
  rfl

/-- The stores of a frame, one behind the other. -/
def Frame.storeAll (f : Frame) (st : σ → Nat → Word → σ) (reg : Reg → Word) (m : σ) : σ :=
  f.foldl (fun m s => st m s.2 (reg s.1)) m

/-- The registers after the loads of a frame. -/
def Frame.loadAll (f : Frame) (ld : Nat → Word) (reg : Reg → Word) : Reg → Word :=
  f.foldl (fun reg s => Function.update reg s.1 (ld s.2)) reg

/-- The words of the frame are words of the window. -/
def Frame.Within (f : Frame) (n : Nat) : Prop := ∀ s ∈ f, s.2 < n

instance (f : Frame) (n : Nat) : Decidable (f.Within n) :=
  inferInstanceAs (Decidable (∀ s ∈ f, s.2 < n))

theorem Window.storeAll_ok (hw : Window mmu satp base n ok ld st) (hf : f.Within n)
    (reg : Reg → Word) {m : σ} (hok : ok m) : ok (f.storeAll st reg m) := by
  induction f generalizing m with
  | nil => exact hok
  | cons s f ih =>
    exact ih (fun t ht => hf t (List.mem_cons_of_mem _ ht))
      (hw.keeps _ _ _ hok (hf s List.mem_cons_self))

/-- Only the registers of the frame are stored. -/
theorem Frame.storeAll_congr {reg reg' : Reg → Word} (hreg : ∀ s ∈ f, reg s.1 = reg' s.1) (m : σ) :
    f.storeAll st reg m = f.storeAll st reg' m := by
  induction f generalizing m with
  | nil => rfl
  | cons s f ih =>
    have hrest := ih (fun t ht => hreg t (List.mem_cons_of_mem _ ht)) (st m s.2 (reg s.1))
    rw [hreg s List.mem_cons_self] at hrest
    rw [Frame.storeAll, List.foldl_cons, hreg s List.mem_cons_self]
    exact hrest

section Get

variable {α : Type} {get : σ → Nat → α} {val : Word → α}

/-- What the stores to other words leave alone. -/
theorem Frame.storeAll_get_other
    (hget : ∀ m w v u, get (st m w v) u = if u = w then val v else get m u)
    (reg : Reg → Word) (m : σ) (hw : w ∉ f.map Prod.snd) :
    get (f.storeAll st reg m) w = get m w := by
  induction f generalizing m with
  | nil => rfl
  | cons s f ih =>
    rw [List.map_cons, List.mem_cons, not_or] at hw
    exact (ih _ hw.2).trans ((hget ..).trans (if_neg hw.1))

/-- Each word of the frame gets its register. -/
theorem Frame.storeAll_get (hget : ∀ m w v u, get (st m w v) u = if u = w then val v else get m u)
    (reg : Reg → Word) (m : σ) (hdist : (f.map Prod.snd).Nodup) {s : Reg × Nat} (hs : s ∈ f) :
    get (f.storeAll st reg m) s.2 = val (reg s.1) := by
  induction f generalizing m with
  | nil => cases hs
  | cons t f ih =>
    rw [List.map_cons, List.nodup_cons] at hdist
    rcases List.mem_cons.mp hs with rfl | hs
    · exact (Frame.storeAll_get_other hget reg _ hdist.1).trans ((hget ..).trans (if_pos rfl))
    · exact ih _ hdist.2 hs

/-- What no store touches. -/
theorem Frame.storeAll_keeps (look : σ → α) (hlook : ∀ m w v, look (st m w v) = look m)
    (reg : Reg → Word) (m : σ) : look (f.storeAll st reg m) = look m := by
  induction f generalizing m with
  | nil => rfl
  | cons s f ih => exact (ih _).trans (hlook ..)

end Get

/-- A saver makes the stores of its frame. -/
theorem Window.run_saveAll (hw : Window mmu satp base n ok ld st) (hf : f.Within n)
    (hsatp : h.csr .satp = satp) (hb : (h.reg b).toNat = base) (hok : ok h.mem) :
    h.run mmu ((saveAll f b).map .base) = some { h with mem := f.storeAll st h.reg h.mem } := by
  induction f generalizing h with
  | nil => rfl
  | cons s f ih =>
    have hs := hf s List.mem_cons_self
    have hrest := ih (h := { h with mem := st h.mem s.2 (h.reg s.1) })
      (fun t ht => hf t (List.mem_cons_of_mem _ ht)) hsatp hb (hw.keeps _ _ _ hok hs)
    rw [saveAll, List.map_cons, List.map_cons, Hart.run_cons, hw.exec_sw hsatp hb hok hs,
      Option.bind_some, ← saveAll, hrest]
    rfl

/-- A restorer makes the loads of its frame, as long as the base is not one of its registers. -/
theorem Window.run_restoreAll (hw : Window mmu satp base n ok ld st) (hf : f.Within n)
    (hbase : b ∉ f.map Prod.fst) (hsatp : h.csr .satp = satp) (hb : (h.reg b).toNat = base)
    (hok : ok h.mem) :
    h.run mmu ((restoreAll f b).map .base) =
      some { h with reg := f.loadAll (ld h.mem) h.reg } := by
  induction f generalizing h with
  | nil => rfl
  | cons s f ih =>
    rw [List.map_cons, List.mem_cons, not_or] at hbase
    have hrest := ih (h := h.setReg s.1 (ld h.mem s.2))
      (fun t ht => hf t (List.mem_cons_of_mem _ ht)) hbase.2 hsatp
      (by rw [Hart.setReg_of_ne h _ hbase.1, hb]) hok
    rw [restoreAll, List.map_cons, List.map_cons, Hart.run_cons,
      hw.exec_lw hsatp hb hok (hf s List.mem_cons_self), Option.bind_some, ← restoreAll, hrest]
    rfl

/-- A register outside the frame is not loaded. -/
theorem Frame.loadAll_other (ld : Nat → Word) (reg : Reg → Word) (hr : r ∉ f.map Prod.fst) :
    f.loadAll ld reg r = reg r := by
  induction f generalizing reg with
  | nil => rfl
  | cons s f ih =>
    rw [List.map_cons, List.mem_cons, not_or] at hr
    exact (ih _ hr.2).trans (Function.update_of_ne hr.1 _ _)

/-- A register of the frame holds what its word does. -/
theorem Frame.loadAll_of_mem (ld : Nat → Word) (reg : Reg → Word)
    (hdist : (f.map Prod.fst).Nodup) {s : Reg × Nat} (hs : s ∈ f) :
    f.loadAll ld reg s.1 = ld s.2 := by
  induction f generalizing reg with
  | nil => cases hs
  | cons t f ih =>
    rw [List.map_cons, List.nodup_cons] at hdist
    rcases List.mem_cons.mp hs with rfl | hs
    · exact (Frame.loadAll_other ld _ hdist.1).trans (Function.update_self ..)
    · exact ih _ hdist.2 hs

end Risky321.Lib
