/-
Risky321.Kernel.VirtioTheorems — the handshake of `virtio_rw` with the device.

The 16-bit indices stand for the counters `kicked` and `completed`, which
never differ by more than one (`Counters`); so an equality of two indices
is an equality of counters, however often they have wrapped. What the
driver has put into the request block by the time it kicks is still there
when the device looks (`Prepared`), and what the device has delivered is
still there when the driver looks (`Served`). The three are kept by every
step of either party, in any order.
-/
import Risky321.Kernel.Virtio
import Risky321.Lib.Run

namespace Risky321.Kernel

open Risky321.Lib

variable {cfg : VirtioConfig} {s s' : VirtioState}

/-! ## §1 The invariant -/

/-- The order of the statements of `virtio_rw`. -/
def DriverPc.rank : DriverPc → Nat
  | .idle => 0
  | .setSector => 1
  | .setType => 2
  | .setData => 3
  | .setDesc0 => 4
  | .setDesc1 => 5
  | .setDesc2 => 6
  | .kickRing => 7
  | .kickIndex => 8
  | .kickNotify => 9
  | .kickLastUsed => 10
  | .busy => 11
  | .checkStatus => 12
  | .copyOut => 13

/-- Inside `virtq_kick`, between its two increments. -/
def DriverPc.inKick (pc : DriverPc) : Prop := pc = .kickNotify ∨ pc = .kickLastUsed

/-- The indices and what they count. -/
structure Counters (s : VirtioState) : Prop where
  avail : s.vq.availIndex = .ofNat s.kicked
  used : s.vq.usedIndex = .ofNat s.completed
  lastUsed : ¬ s.pc.inKick → s.vq.lastUsedIndex = .ofNat s.kicked
  lastUsed_kick : s.pc.inKick → s.vq.lastUsedIndex + 1 = .ofNat s.kicked
  lastAvail_idle : s.phase = .idle → s.lastAvail = .ofNat s.completed
  lastAvail : s.phase ≠ .idle → s.lastAvail = .ofNat s.kicked
  phase : s.phase ≠ .idle → s.kicked = s.completed + 1
  outstanding : s.kicked = s.completed ∨
    (s.kicked = s.completed + 1 ∧ 9 ≤ s.pc.rank ∧ s.pc.rank ≤ 11)
  awake : s.kicked = s.completed + 1 → s.phase = .idle → 10 ≤ s.pc.rank → s.notified = true

/-- What the driver has written so far. -/
structure Prepared (cfg : VirtioConfig) (s : VirtioState) : Prop where
  sector : 2 ≤ s.pc.rank → s.req.sector = s.call.sector.toUInt64
  type : 3 ≤ s.pc.rank → s.req.type = if s.call.isWrite then virtioBlkTOut else virtioBlkTIn
  desc0 : 5 ≤ s.pc.rank → s.vq.descs 0 =
    { addr := cfg.blkReqPaddr, len := 16, flags := virtqDescFNext, next := 1 }
  desc1 : 6 ≤ s.pc.rank → s.vq.descs 1 =
    { addr := cfg.blkReqPaddr + offsetofData, len := 512,
      flags := virtqDescFNext ||| (if s.call.isWrite then 0 else virtqDescFWrite), next := 2 }
  desc2 : 7 ≤ s.pc.rank → (s.vq.descs 2).addr = cfg.blkReqPaddr + offsetofStatus ∧
    (s.vq.descs 2).len = 1 ∧ (s.vq.descs 2).flags = virtqDescFWrite
  ring : s.pc = .kickIndex → s.vq.availRing (s.vq.availIndex.toNat % virtqEntryNum) = 0
  ring_kicked : s.kicked = s.completed + 1 →
    s.vq.availRing ((UInt16.ofNat s.completed).toNat % virtqEntryNum) = 0

/-- The request block holds the sector that was asked for. -/
def Delivered (s : VirtioState) : Prop :=
  s.call.isWrite = false → s.req.data = s.disk s.call.sector.toUInt64

/-- What the device has done so far. -/
structure Served (s : VirtioState) : Prop where
  fetched : ∀ h, s.phase = .fetched h → h = 0
  transferred : ∀ h st, s.phase = .transferred h st → h = 0 ∧ (st = 0 → Delivered s)
  reported : ∀ h, s.phase = .reported h → h = 0 ∧ (s.req.status = 0 → Delivered s)
  completed : s.kicked = s.completed → 9 ≤ s.pc.rank → s.req.status = 0 → Delivered s
  copyOut : s.pc = .copyOut → s.req.status = 0
  result : s.pc = .idle → s.outcome = .success → s.call.isWrite = false →
    s.call.buf = s.disk s.call.sector.toUInt64

/-! ## §2 Counters -/

theorem ofNat_succ (n : Nat) : UInt16.ofNat (n + 1) = UInt16.ofNat n + 1 := by
  simp [UInt16.ofNat_add]

/-- Indices one apart are different, wrapped or not. -/
theorem ofNat_succ_ne (n : Nat) : UInt16.ofNat (n + 1) ≠ UInt16.ofNat n := by
  intro h
  have := congrArg UInt16.toNat h
  simp only [UInt16.toNat_ofNat'] at this
  omega

/-- The statements of `virtio_rw` keep the counters. -/
theorem Counters.driver (hc : Counters s) (h : driverStep cfg s = some s') : Counters s' := by
  obtain ⟨h1, h2, h3, h4, h5, h6, h7, h8, h9⟩ := hc
  cases hpc : s.pc with
  | idle => simp [driverStep, hpc] at h
  | kickIndex =>
    simp only [driverStep, hpc, Option.some.injEq] at h
    subst h
    simp only [hpc, DriverPc.rank, DriverPc.inKick] at h3 h8
    have hk : s.kicked = s.completed := by omega
    have hphase : s.phase = .idle := by
      by_contra hne
      have := h7 hne
      omega
    refine ⟨by rw [h1, ofNat_succ], h2, ?_, ?_, h5, fun hne => absurd hphase hne,
      fun hne => absurd hphase hne, ?_, ?_⟩
    · intro hno
      exact absurd (.inl rfl) hno
    · intro _
      rw [h3 (by simp), ofNat_succ]
    · exact .inr ⟨by rw [hk], by simp [DriverPc.rank], by simp [DriverPc.rank]⟩
    · intro _ _ hrank
      simp [DriverPc.rank] at hrank
  | kickNotify =>
    simp only [driverStep, hpc, Option.some.injEq] at h
    subst h
    simp only [hpc, DriverPc.rank, DriverPc.inKick] at h4 h8
    refine ⟨h1, h2, ?_, fun _ => h4 (by simp), h5, h6, h7, ?_, fun _ _ _ => rfl⟩
    · intro hno
      exact absurd (.inr rfl) hno
    · simp only [DriverPc.rank]
      omega
  | kickLastUsed =>
    simp only [driverStep, hpc, Option.some.injEq] at h
    subst h
    simp only [hpc, DriverPc.rank, DriverPc.inKick] at h4 h8 h9
    refine ⟨h1, h2, fun _ => h4 (by simp), ?_, h5, h6, h7, ?_, fun hk hp _ => h9 hk hp (by omega)⟩
    · intro hin
      simp [DriverPc.inKick] at hin
    · simp only [DriverPc.rank]
      omega
  | busy =>
    simp only [driverStep, hpc, Option.some.injEq] at h
    subst h
    simp only [hpc, DriverPc.rank, DriverPc.inKick] at h3 h8 h9
    have hlu := h3 (by simp)
    by_cases hb : virtqIsBusy s.vq = true
    · simp only [hb, if_true]
      refine ⟨h1, h2, fun _ => hlu, ?_, h5, h6, h7, h8, fun hk hp _ => h9 hk hp (by omega)⟩
      intro hin
      simp [DriverPc.inKick] at hin
    · -- the two indices are equal, so the counters are
      have heq : s.vq.lastUsedIndex = s.vq.usedIndex := by simpa [virtqIsBusy] using hb
      have hk : s.kicked = s.completed := by
        rcases h8 with h | ⟨h, -, -⟩
        · exact h
        · rw [hlu, h2, h] at heq
          exact absurd heq (ofNat_succ_ne _)
      simp only [hb, Bool.false_eq_true, if_false]
      refine ⟨h1, h2, fun _ => hlu, ?_, h5, h6, h7, .inl hk, fun h => ?_⟩
      · intro hin
        simp [DriverPc.inKick] at hin
      · simp only at h
        omega
  | checkStatus =>
    simp only [hpc, DriverPc.rank, DriverPc.inKick] at h3 h8 h9
    have hlu := h3 (by simp)
    have hk : s.kicked = s.completed := by omega
    simp only [driverStep, hpc] at h
    split at h <;> (simp only [Option.some.injEq] at h; subst h)
    · exact ⟨h1, h2, fun _ => hlu, by simp [DriverPc.inKick], h5, h6, h7, .inl hk,
        fun h => by simp only at h; omega⟩
    · exact ⟨h1, h2, fun _ => hlu, by simp [DriverPc.inKick], h5, h6, h7, .inl hk,
        fun h => by simp only at h; omega⟩
  | _ =>
    simp only [driverStep, hpc, Option.some.injEq] at h
    subst h
    simp only [hpc, DriverPc.rank, DriverPc.inKick] at h3 h8 h9
    have hlu := h3 (by simp)
    have hk : s.kicked = s.completed := by omega
    exact ⟨h1, h2, fun _ => hlu, by simp [DriverPc.inKick], h5, h6, h7, .inl hk,
      fun h => by simp only at h; omega⟩

/-- Everything a step of the device can do. -/
theorem deviceStep_cases {op : DeviceOp} (h : deviceStep cfg s op = some s') :
    (s.phase = .idle ∧ s.notified = true ∧ s.lastAvail ≠ s.vq.availIndex ∧
      s' = { s with
        phase := .fetched (s.vq.availRing (s.lastAvail.toNat % virtqEntryNum))
        lastAvail := s.lastAvail + 1 }) ∨
    (∃ head, s.phase = .fetched head ∧ (deviceChain cfg s head).isSome ∧
      s.req.type = virtioBlkTIn ∧
      s' = { s with req.data := s.disk s.req.sector, phase := .transferred head 0 }) ∨
    (∃ head, s.phase = .fetched head ∧ (deviceChain cfg s head).isSome ∧
      s.req.type = virtioBlkTOut ∧
      s' = { s with
        disk := Function.update s.disk s.req.sector s.req.data, phase := .transferred head 0 }) ∨
    (∃ head st data, s.phase = .fetched head ∧ st ≠ 0 ∧
      s' = { s with req.data := data, phase := .transferred head st }) ∨
    (∃ head st, s.phase = .transferred head st ∧
      s' = { s with req.status := st, phase := .reported head }) ∨
    (∃ head ring, s.phase = .reported head ∧
      s' = { s with
        vq.usedRing := ring
        vq.usedIndex := s.vq.usedIndex + 1
        phase := .idle
        completed := s.completed + 1 }) ∨
    (s.phase = .idle ∧ s.lastAvail = s.vq.availIndex ∧ s' = { s with notified := false }) := by
  cases op with
  | fetch =>
    cases hphase : s.phase <;> simp only [deviceStep, hphase, reduceCtorEq] at h
    split at h
    · rename_i hcond
      exact .inl ⟨rfl, hcond.1, hcond.2, (Option.some.inj h).symm⟩
    · exact absurd h nofun
  | transfer =>
    cases hphase : s.phase <;> simp only [deviceStep, hphase, reduceCtorEq] at h
    rename_i head
    split at h
    · exact absurd h nofun
    · rename_i hchain
      have hsome : (deviceChain cfg s head).isSome := by rw [hchain]; rfl
      split at h
      · rename_i hin
        exact .inr (.inl ⟨head, rfl, hsome, hin.1, (Option.some.inj h).symm⟩)
      · split at h
        · rename_i hout
          exact .inr (.inr (.inl ⟨head, rfl, hsome, hout, (Option.some.inj h).symm⟩))
        · exact absurd h nofun
  | fail st junk =>
    cases hphase : s.phase <;> simp only [deviceStep, hphase, reduceCtorEq] at h
    rename_i head
    split at h
    · exact absurd h nofun
    · split at h
      · exact absurd h nofun
      · rename_i hst
        exact .inr (.inr (.inr (.inl ⟨head, st, _, rfl, hst, (Option.some.inj h).symm⟩)))
  | report =>
    cases hphase : s.phase <;> simp only [deviceStep, hphase, reduceCtorEq] at h
    exact .inr (.inr (.inr (.inr (.inl ⟨_, _, rfl, (Option.some.inj h).symm⟩))))
  | complete =>
    cases hphase : s.phase <;> simp only [deviceStep, hphase, reduceCtorEq] at h
    exact .inr (.inr (.inr (.inr (.inr (.inl ⟨_, _, rfl, (Option.some.inj h).symm⟩)))))
  | rest =>
    cases hphase : s.phase <;> simp only [deviceStep, hphase, reduceCtorEq] at h
    split at h
    · rename_i heq
      exact .inr (.inr (.inr (.inr (.inr (.inr ⟨rfl, heq, (Option.some.inj h).symm⟩)))))
    · exact absurd h nofun

/-- The steps of the device keep the counters. -/
theorem Counters.device {op : DeviceOp} (hc : Counters s) (h : deviceStep cfg s op = some s') :
    Counters s' := by
  obtain ⟨h1, h2, h3, h4, h5, h6, h7, h8, h9⟩ := hc
  obtain ⟨hp, -, hne, rfl⟩ | ⟨head, hp, -, -, rfl⟩ | ⟨head, hp, -, -, rfl⟩ |
    ⟨head, st, data, hp, -, rfl⟩ | ⟨head, st, hp, rfl⟩ | ⟨head, ring, hp, rfl⟩ |
    ⟨hp, heq, rfl⟩ := deviceStep_cases h
  · -- an entry was there, so a request is outstanding
    have hk : s.kicked = s.completed + 1 := by
      rcases h8 with h | ⟨h, -⟩
      · exact absurd (by rw [h5 hp, h1, h]) hne
      · exact h
    refine ⟨h1, h2, h3, h4, fun h => absurd h nofun, fun _ => ?_, fun _ => hk, h8,
      fun _ h => absurd h nofun⟩
    rw [h5 hp, hk, ofNat_succ]
  · have hne : s.phase ≠ .idle := by rw [hp]; exact nofun
    exact ⟨h1, h2, h3, h4, fun h => absurd h nofun, fun _ => h6 hne, fun _ => h7 hne, h8,
      fun _ h => absurd h nofun⟩
  · have hne : s.phase ≠ .idle := by rw [hp]; exact nofun
    exact ⟨h1, h2, h3, h4, fun h => absurd h nofun, fun _ => h6 hne, fun _ => h7 hne, h8,
      fun _ h => absurd h nofun⟩
  · have hne : s.phase ≠ .idle := by rw [hp]; exact nofun
    exact ⟨h1, h2, h3, h4, fun h => absurd h nofun, fun _ => h6 hne, fun _ => h7 hne, h8,
      fun _ h => absurd h nofun⟩
  · have hne : s.phase ≠ .idle := by rw [hp]; exact nofun
    exact ⟨h1, h2, h3, h4, fun h => absurd h nofun, fun _ => h6 hne, fun _ => h7 hne, h8,
      fun _ h => absurd h nofun⟩
  · have hne : s.phase ≠ .idle := by rw [hp]; exact nofun
    have hk := h7 hne
    refine ⟨h1, by rw [h2, ofNat_succ], h3, h4, fun _ => ?_, fun h => absurd rfl h,
      fun h => absurd rfl h, .inl hk, fun h => ?_⟩
    · rw [h6 hne, hk]
    · simp only at h
      omega
  · refine ⟨h1, h2, h3, h4, h5, h6, h7, h8, ?_⟩
    intro hk _ _
    simp only at hk
    rw [h5 hp, h1, hk] at heq
    exact absurd heq.symm (ofNat_succ_ne _)

/-! ## §3 The request -/

/-- While a request is outstanding the device finds the driver's descriptors. -/
theorem Prepared.chain (hb : Prepared cfg s) (hrank : 9 ≤ s.pc.rank) :
    deviceChain cfg s 0 = some (s.vq.descs 0, s.vq.descs 1, s.vq.descs 2) := by
  have h0 := hb.desc0 (by omega)
  have h1 := hb.desc1 (by omega)
  obtain ⟨h2, h3, h4⟩ := hb.desc2 (by omega)
  unfold deviceChain
  rw [show (0 : UInt16).toNat = 0 from rfl, h0]
  simp only [show (1 : UInt16).toNat = 1 from rfl, h1, show (2 : UInt16).toNat = 2 from rfl]
  rw [if_pos]
  refine ⟨by decide, ?_, ?_, trivial, trivial, trivial, trivial, h2, h3⟩
  · cases s.call.isWrite <;> decide
  · rw [h4]
    decide

/-- The device touches neither the descriptors nor the head of the request. -/
theorem Prepared.device {op : DeviceOp} (hb : Prepared cfg s) (hc : Counters s)
    (h : deviceStep cfg s op = some s') : Prepared cfg s' := by
  obtain ⟨h1, h2, h3, h4, h5, h6, h7⟩ := hb
  obtain ⟨hp, -, hne, rfl⟩ | ⟨head, hp, -, -, rfl⟩ | ⟨head, hp, -, -, rfl⟩ |
    ⟨head, st, data, hp, -, rfl⟩ | ⟨head, st, hp, rfl⟩ | ⟨head, ring, hp, rfl⟩ |
    ⟨hp, heq, rfl⟩ := deviceStep_cases h
  · exact ⟨h1, h2, h3, h4, h5, h6, h7⟩
  · exact ⟨h1, h2, h3, h4, h5, h6, h7⟩
  · exact ⟨h1, h2, h3, h4, h5, h6, h7⟩
  · exact ⟨h1, h2, h3, h4, h5, h6, h7⟩
  · exact ⟨h1, h2, h3, h4, h5, h6, h7⟩
  · have hk := hc.phase (by rw [hp]; exact nofun)
    refine ⟨h1, h2, h3, h4, h5, h6, fun hk' => ?_⟩
    simp only at hk'
    omega
  · exact ⟨h1, h2, h3, h4, h5, h6, h7⟩

/-- The driver fills in the request statement by statement. -/
theorem Prepared.driver (hb : Prepared cfg s) (hc : Counters s) (h : driverStep cfg s = some s') :
    Prepared cfg s' := by
  obtain ⟨h1, h2, h3, h4, h5, h6, h7⟩ := hb
  have hout := hc.outstanding
  cases hpc : s.pc with
  | idle => simp [driverStep, hpc] at h
  | kickRing =>
    simp only [driverStep, hpc, Option.some.injEq] at h
    subst h
    simp only [hpc, DriverPc.rank] at h1 h2 h3 h4 h5 hout
    refine ⟨fun _ => h1 (by omega), fun _ => h2 (by omega), fun _ => h3 (by omega),
      fun _ => h4 (by omega), fun _ => h5 (by omega), fun _ => Function.update_self _ _ _, ?_⟩
    intro hk
    simp only at hk
    omega
  | kickIndex =>
    simp only [driverStep, hpc, Option.some.injEq] at h
    subst h
    simp only [hpc, DriverPc.rank] at h1 h2 h3 h4 h5 hout
    refine ⟨fun _ => h1 (by omega), fun _ => h2 (by omega), fun _ => h3 (by omega),
      fun _ => h4 (by omega), fun _ => h5 (by omega), nofun, ?_⟩
    intro hk
    simp only at hk
    have hring := h6 hpc
    rw [hc.avail, show s.kicked = s.completed by omega] at hring
    exact hring
  | kickNotify | kickLastUsed | busy =>
    simp only [driverStep, hpc, Option.some.injEq] at h
    subst h
    simp only [hpc, DriverPc.rank] at h1 h2 h3 h4 h5
    refine ⟨fun _ => h1 (by omega), fun _ => h2 (by omega), fun _ => h3 (by omega),
      fun _ => h4 (by omega), fun _ => h5 (by omega), ?_, h7⟩
    intro hpc'
    revert hpc'
    simp only
    try split
    all_goals exact nofun
  | checkStatus =>
    simp only [hpc, DriverPc.rank] at h1 h2 h3 h4 h5
    simp only [driverStep, hpc] at h
    split at h <;> (simp only [Option.some.injEq] at h; subst h)
    · exact ⟨fun h => absurd h (by simp [DriverPc.rank]), fun h => absurd h (by simp [DriverPc.rank]),
        fun h => absurd h (by simp [DriverPc.rank]), fun h => absurd h (by simp [DriverPc.rank]),
        fun h => absurd h (by simp [DriverPc.rank]), nofun, h7⟩
    · exact ⟨fun _ => h1 (by omega), fun _ => h2 (by omega), fun _ => h3 (by omega),
        fun _ => h4 (by omega), fun _ => h5 (by omega), nofun, h7⟩
  | _ =>
    simp only [driverStep, hpc, Option.some.injEq] at h
    subst h
    simp only [hpc, DriverPc.rank] at h1 h2 h3 h4 h5 hout
    constructor <;> simp_all [DriverPc.rank]

/-! ## §4 The answer -/

/-- While a request is outstanding only what the device holds has to be shown. -/
theorem Served.of_outstanding (hk : s.kicked = s.completed + 1)
    (hrank : 9 ≤ s.pc.rank ∧ s.pc.rank ≤ 11) (hf : ∀ h, s.phase = .fetched h → h = 0)
    (ht : ∀ h st, s.phase = .transferred h st → h = 0 ∧ (st = 0 → Delivered s))
    (hr : ∀ h, s.phase = .reported h → h = 0 ∧ (s.req.status = 0 → Delivered s)) : Served s where
  fetched := hf
  transferred := ht
  reported := hr
  completed := fun hk' => by omega
  copyOut := fun hpc => by
    rw [hpc] at hrank
    exact absurd hrank.2 (by decide)
  result := fun hpc => by
    rw [hpc] at hrank
    exact absurd hrank.1 (by decide)

/-- While no request is outstanding only what the driver sees has to be shown. -/
theorem Served.of_settled (hphase : s.phase = .idle)
    (hc : 9 ≤ s.pc.rank → s.req.status = 0 → Delivered s)
    (hcopy : s.pc = .copyOut → s.req.status = 0)
    (hres : s.pc = .idle → s.outcome = .success → s.call.isWrite = false →
      s.call.buf = s.disk s.call.sector.toUInt64) : Served s where
  fetched := fun _ h => absurd (hphase.symm.trans h) nofun
  transferred := fun _ _ h => absurd (hphase.symm.trans h) nofun
  reported := fun _ h => absurd (hphase.symm.trans h) nofun
  completed := fun _ => hc
  copyOut := hcopy
  result := hres

/-- The device works only between the driver's kick and the end of its busy loop. -/
theorem Counters.rank_of_phase (hc : Counters s) (hne : s.phase ≠ .idle) :
    s.kicked = s.completed + 1 ∧ 9 ≤ s.pc.rank ∧ s.pc.rank ≤ 11 := by
  have := hc.phase hne
  have := hc.outstanding
  omega

theorem Counters.phase_idle (hc : Counters s) (hk : s.kicked = s.completed) : s.phase = .idle := by
  by_contra hne
  have := hc.phase hne
  omega

/-- What the device does to the request is what was asked for. -/
theorem Served.device {op : DeviceOp} (hs : Served s) (hb : Prepared cfg s) (hc : Counters s)
    (h : deviceStep cfg s op = some s') : Served s' := by
  obtain ⟨hp, -, hne, rfl⟩ | ⟨head, hp, -, -, rfl⟩ | ⟨head, hp, -, htype, rfl⟩ |
    ⟨head, st, data, hp, hst, rfl⟩ | ⟨head, st, hp, rfl⟩ | ⟨head, ring, hp, rfl⟩ |
    ⟨hp, heq, rfl⟩ := deviceStep_cases h
  · have hk : s.kicked = s.completed + 1 ∧ 9 ≤ s.pc.rank ∧ s.pc.rank ≤ 11 := by
      rcases hc.outstanding with h | h
      · exact absurd (by rw [hc.lastAvail_idle hp, hc.avail, h]) hne
      · exact h
    refine .of_outstanding hk.1 hk.2 ?_ nofun nofun
    intro head hhead
    rw [DevicePhase.fetched.injEq] at hhead
    rw [← hhead, hc.lastAvail_idle hp]
    exact hb.ring_kicked hk.1
  · obtain ⟨hk, hr⟩ := hc.rank_of_phase (by rw [hp]; exact nofun)
    refine .of_outstanding hk hr nofun ?_ nofun
    intro h0 st hph
    rw [DevicePhase.transferred.injEq] at hph
    refine ⟨by rw [← hph.1]; exact hs.fetched head hp, fun _ _ => ?_⟩
    simp only
    rw [hb.sector (by omega)]
  · obtain ⟨hk, hr⟩ := hc.rank_of_phase (by rw [hp]; exact nofun)
    refine .of_outstanding hk hr nofun ?_ nofun
    intro h0 st hph
    rw [DevicePhase.transferred.injEq] at hph
    refine ⟨by rw [← hph.1]; exact hs.fetched head hp, fun _ hread => ?_⟩
    -- a request of type OUT is no read
    have := hb.type (by omega)
    rw [htype, if_neg (by simpa using hread)] at this
    exact absurd this (by decide)
  · obtain ⟨hk, hr⟩ := hc.rank_of_phase (by rw [hp]; exact nofun)
    refine .of_outstanding hk hr nofun ?_ nofun
    intro h0 st' hph
    rw [DevicePhase.transferred.injEq] at hph
    exact ⟨by rw [← hph.1]; exact hs.fetched head hp, fun h0' => absurd (hph.2.trans h0') hst⟩
  · obtain ⟨hk, hr⟩ := hc.rank_of_phase (by rw [hp]; exact nofun)
    refine .of_outstanding hk hr nofun nofun ?_
    intro h0 hph
    rw [DevicePhase.reported.injEq] at hph
    rw [← hph]
    exact hs.transferred head st hp
  · obtain ⟨hk, hr⟩ := hc.rank_of_phase (by rw [hp]; exact nofun)
    exact .of_settled rfl (fun _ => (hs.reported head hp).2) hs.copyOut hs.result
  · exact ⟨hs.fetched, hs.transferred, hs.reported, hs.completed, hs.copyOut, hs.result⟩

/-- The driver leaves what the device has delivered alone until it has copied it. -/
theorem Served.driver (hs : Served s) (hc : Counters s) (h : driverStep cfg s = some s') :
    Served s' := by
  have hout := hc.outstanding
  cases hpc : s.pc with
  | idle => simp [driverStep, hpc] at h
  | kickIndex =>
    simp only [hpc, DriverPc.rank] at hout
    have hk : s.kicked = s.completed := by omega
    have hidle := hc.phase_idle hk
    simp only [driverStep, hpc, Option.some.injEq] at h
    subst h
    refine .of_outstanding (by simp only; omega) (by simp [DriverPc.rank]) ?_ ?_ ?_
    · exact fun _ hph => absurd (hidle.symm.trans hph) nofun
    · exact fun _ _ hph => absurd (hidle.symm.trans hph) nofun
    · exact fun _ hph => absurd (hidle.symm.trans hph) nofun
  | kickNotify | kickLastUsed =>
    simp only [driverStep, hpc, Option.some.injEq] at h
    subst h
    refine ⟨hs.fetched, hs.transferred, hs.reported, fun hk _ => ?_, nofun, nofun⟩
    exact hs.completed hk (by rw [hpc]; decide)
  | busy =>
    simp only [driverStep, hpc, Option.some.injEq] at h
    subst h
    have hdone := fun hk => hs.completed hk (by rw [hpc]; decide)
    refine ⟨hs.fetched, hs.transferred, hs.reported, fun hk _ => hdone hk, ?_, ?_⟩
    · cases hb : virtqIsBusy s.vq <;> exact nofun
    · cases hb : virtqIsBusy s.vq <;> exact nofun
  | checkStatus =>
    simp only [hpc, DriverPc.rank] at hout
    have hk : s.kicked = s.completed := by omega
    have hidle := hc.phase_idle hk
    simp only [driverStep, hpc] at h
    split at h <;> (simp only [Option.some.injEq] at h; subst h)
    · exact .of_settled hidle (fun h => absurd h (by simp [DriverPc.rank])) nofun nofun
    · rename_i hst
      exact .of_settled hidle (fun _ => hs.completed hk (by rw [hpc]; decide))
        (fun _ => not_not.mp hst) nofun
  | copyOut =>
    simp only [hpc, DriverPc.rank] at hout
    have hk : s.kicked = s.completed := by omega
    have hidle := hc.phase_idle hk
    simp only [driverStep, hpc, Option.some.injEq] at h
    subst h
    refine .of_settled hidle (fun h => absurd h (by simp [DriverPc.rank])) nofun ?_
    intro _ _ hread
    simp only at hread ⊢
    rw [if_neg (by simpa using hread)]
    exact hs.completed hk (by rw [hpc]; decide) (hs.copyOut hpc) hread
  | _ =>
    simp only [hpc, DriverPc.rank] at hout
    have hidle := hc.phase_idle (by omega)
    simp only [driverStep, hpc, Option.some.injEq] at h
    subst h
    exact .of_settled hidle (fun h => absurd h (by simp [DriverPc.rank])) nofun nofun

/-! ## §5 Runs -/

/-- The invariant of runs. -/
structure VirtioInv (cfg : VirtioConfig) (s : VirtioState) : Prop where
  counters : Counters s
  prepared : Prepared cfg s
  served : Served s

theorem VirtioInit.inv (hi : VirtioInit s) : VirtioInv cfg s := by
  obtain ⟨h1, h2, h3, h4, h5, h6, h7, h8, h9, h10⟩ := hi
  have hrank : s.pc.rank = 0 := by rw [h4]; rfl
  refine ⟨⟨by rw [h1, h9]; rfl, by rw [h2, h10]; rfl, fun _ => by rw [h3, h9]; rfl, ?_,
    fun _ => by rw [h8, h10]; rfl, fun h => absurd h6 h, fun h => absurd h6 h,
    .inl (by rw [h9, h10]), fun h => ?_⟩, ?_, ?_⟩
  · intro hin
    rw [h4] at hin
    simp [DriverPc.inKick] at hin
  · omega
  · refine ⟨fun h => ?_, fun h => ?_, fun h => ?_, fun h => ?_, fun h => ?_, fun h => ?_, fun h => ?_⟩
    · omega
    · omega
    · omega
    · omega
    · omega
    · rw [h4] at h
      exact absurd h nofun
    · omega
  · refine .of_settled h6 (fun h => by omega) (fun h => ?_) (fun _ h => ?_)
    · rw [h4] at h
      exact absurd h nofun
    · rw [h5] at h
      exact absurd h nofun

/-- A call starts when the driver is idle and nothing is outstanding. -/
theorem VirtioInv.call {c : VirtioCall} (hi : VirtioInv cfg s)
    (h : driverCall cfg s c = some s') : VirtioInv cfg s' := by
  obtain ⟨hc, hb, hs⟩ := hi
  unfold driverCall at h
  by_cases hpc : s.pc = .idle
  · have hout := hc.outstanding
    rw [hpc, show DriverPc.idle.rank = 0 from rfl] at hout
    have hk : s.kicked = s.completed := by omega
    have hidle := hc.phase_idle hk
    have hlu := hc.lastUsed (by rw [hpc]; simp [DriverPc.inKick])
    rw [if_neg (not_not.mpr hpc)] at h
    split at h <;> (simp only [Option.some.injEq] at h; subst h)
    · refine ⟨⟨hc.avail, hc.used, fun _ => hlu, hc.lastUsed_kick, hc.lastAvail_idle, hc.lastAvail,
        hc.phase, .inl hk, hc.awake⟩, ?_, ?_⟩
      · constructor <;> simp [hpc, DriverPc.rank, hk]
      · exact .of_settled hidle (by simp [hpc, DriverPc.rank]) (by simp [hpc]) nofun
    · refine ⟨⟨hc.avail, hc.used, fun _ => hlu, by simp [DriverPc.inKick], hc.lastAvail_idle,
        hc.lastAvail, hc.phase, .inl hk, by simp [DriverPc.rank]⟩, ?_, ?_⟩
      · constructor <;> simp [DriverPc.rank, hk]
      · exact .of_settled hidle (by simp [DriverPc.rank]) nofun nofun
  · rw [if_pos hpc] at h
    exact absurd h nofun

/-- The step lemma. -/
theorem VirtioInv.step {op : VirtioOp} (hi : VirtioInv cfg s) (h : virtioStep cfg s op = some s') :
    VirtioInv cfg s' := by
  cases op with
  | call c => exact hi.call h
  | driver =>
    exact ⟨hi.counters.driver h, hi.prepared.driver hi.counters h, hi.served.driver hi.counters h⟩
  | device op =>
    exact ⟨hi.counters.device h, hi.prepared.device hi.counters h,
      hi.served.device hi.prepared hi.counters h⟩

/-- What the handshake guarantees in a state. -/
structure HandshakeOk (cfg : VirtioConfig) (s : VirtioState) : Prop where
  /-- At most one request is outstanding. -/
  one : s.completed ≤ s.kicked ∧ s.kicked ≤ s.completed + 1
  /-- The busy loop is left exactly when the device has completed the last request. -/
  busy_iff : s.pc = .busy → (virtqIsBusy s.vq = false ↔ s.completed = s.kicked)
  /-- Until then the device can go on. -/
  progress : s.pc = .busy → virtqIsBusy s.vq = true →
    ∃ op, (virtioStep cfg s (.device op)).isSome
  /-- The two indices of the driver agree, and when it is idle so does the device's. -/
  indices : ¬ s.pc.inKick → s.vq.availIndex = s.vq.lastUsedIndex
  indices_idle : s.pc = .idle → s.vq.usedIndex = s.vq.lastUsedIndex
  /-- A read that succeeded delivered the sector it asked for. -/
  read : s.pc = .idle → s.outcome = .success → s.call.isWrite = false →
    s.call.buf = s.disk s.call.sector.toUInt64

/-- The device is never stuck with a request. -/
theorem VirtioInv.progress (hi : VirtioInv cfg s) (hpc : s.pc = .busy)
    (hbusy : virtqIsBusy s.vq = true) : ∃ op, (virtioStep cfg s (.device op)).isSome := by
  have hc := hi.counters
  have hrank : s.pc.rank = 11 := by rw [hpc]; rfl
  cases hphase : s.phase with
  | idle =>
    have hk : s.kicked = s.completed + 1 := by
      rcases hc.outstanding with h | ⟨h, -⟩
      · have hlu := hc.lastUsed (by rw [hpc]; simp [DriverPc.inKick])
        rw [virtqIsBusy, hlu, hc.used, h] at hbusy
        simp at hbusy
      · exact h
    refine ⟨.fetch, ?_⟩
    have hne : s.lastAvail ≠ s.vq.availIndex := by
      rw [hc.lastAvail_idle hphase, hc.avail, hk]
      exact (ofNat_succ_ne _).symm
    have hawake := hc.awake hk hphase (by omega)
    simp [virtioStep, deviceStep, hphase, hawake, hne]
  | fetched head =>
    refine ⟨.transfer, ?_⟩
    obtain rfl := hi.served.fetched head hphase
    have htype := hi.prepared.type (by omega)
    have hd1 := hi.prepared.desc1 (by omega)
    simp only [virtioStep, deviceStep, hphase, hi.prepared.chain (by omega)]
    cases hw : s.call.isWrite with
    | true =>
      have hout : s.req.type = virtioBlkTOut := by rw [htype, hw]; rfl
      rw [if_neg (by rw [hout]; exact fun h => absurd h.1 (by decide)), if_pos hout]
      rfl
    | false =>
      have hin : s.req.type = virtioBlkTIn := by rw [htype, hw]; rfl
      have hflags : (s.vq.descs 1).flags &&& virtqDescFWrite ≠ 0 := by
        rw [hd1, hw]
        exact show (virtqDescFNext ||| virtqDescFWrite) &&& virtqDescFWrite ≠ 0 by decide
      rw [if_pos ⟨hin, hflags⟩]
      rfl
  | transferred head st => exact ⟨.report, by simp [virtioStep, deviceStep, hphase]⟩
  | reported head => exact ⟨.complete, by simp [virtioStep, deviceStep, hphase]⟩

/-- **The handshake of `virtio_rw`.** In every interleaving of driver and
device, over any number of calls. -/
theorem virtio_handshake (cfg : VirtioConfig) (s : VirtioState)
    (hrun : Reach VirtioInit (fun s op s' => virtioStep cfg s op = some s') (fun _ _ => True) s) :
    HandshakeOk cfg s := by
  have hi : VirtioInv cfg s := hrun.invariant (fun _ h => h.inv) (fun _ _ _ hI _ h => hI.step h)
  have hc := hi.counters
  refine ⟨?_, ?_, hi.progress, ?_, ?_, hi.served.result⟩
  · rcases hc.outstanding with h | ⟨h, -⟩ <;> omega
  · intro hpc
    have hlu := hc.lastUsed (by rw [hpc]; simp [DriverPc.inKick])
    simp only [virtqIsBusy, hlu, hc.used, bne_eq_false_iff_eq]
    constructor
    · intro heq
      rcases hc.outstanding with h | ⟨h, -⟩
      · exact h.symm
      · rw [h] at heq
        exact absurd heq (ofNat_succ_ne _)
    · intro heq
      rw [heq]
  · intro hin
    rw [hc.avail, hc.lastUsed hin]
  · intro hpc
    have hout := hc.outstanding
    rw [hpc, show DriverPc.idle.rank = 0 from rfl] at hout
    rw [hc.used, hc.lastUsed (by rw [hpc]; simp [DriverPc.inKick]),
      show s.kicked = s.completed by omega]

/-- A disk whose sector 3 is full of `7`, before the first call. -/
def exampleDisk : VirtioState where
  vq :=
    { descs := fun _ => { addr := 0, len := 0, flags := 0, next := 0 }
      availIndex := 0
      availRing := fun _ => 0
      usedIndex := 0
      usedRing := fun _ => (0, 0)
      lastUsedIndex := 0 }
  req := { type := 0, sector := 0, data := fun _ => 0, status := 0 }
  pc := .idle
  call := { buf := fun _ => 0, sector := 0, isWrite := false }
  outcome := .none
  phase := .idle
  notified := false
  lastAvail := 0
  disk := fun n => if n = 3 then fun _ => 7 else fun _ => 0
  kicked := 0
  completed := 0

/-- One read of sector 3. The device answers while the driver is still
inside `virtq_kick`, before `last_used_index` has moved. -/
theorem virtio_handshake_read :
    ∃ s, Reach VirtioInit (fun s op s' => virtioStep ⟨0x83200000, 2048⟩ s op = some s')
        (fun _ _ => True) s ∧ s.completed = 1 ∧ s.call.buf 0 = 7 ∧
      HandshakeOk ⟨0x83200000, 2048⟩ s := by
  have hev : ([.call { buf := fun _ => 0, sector := 3, isWrite := false }, .driver, .driver, .driver,
      .driver, .driver, .driver, .driver, .driver, .driver, .device .fetch, .device .transfer,
      .device .report, .device .complete, .driver, .driver, .driver, .driver].foldlM
        (virtioStep ⟨0x83200000, 2048⟩) exampleDisk).map
          (fun s => (s.pc, s.completed, s.call.buf 0)) = some (.idle, 1, 7) := by
    decide +kernel
  obtain ⟨s, hrun, hs⟩ := Option.map_eq_some_iff.mp hev
  simp only [Prod.mk.injEq] at hs
  have hinit : VirtioInit exampleDisk := ⟨rfl, rfl, rfl, rfl, rfl, rfl, rfl, rfl, rfl, rfl⟩
  have hreach := Reach.foldlM (.init hinit) hrun
  exact ⟨s, hreach, hs.2.1, hs.2.2, virtio_handshake _ s hreach⟩

end Risky321.Kernel
