/-
Risky321.Kernel.DescriptorTheorems — descriptors over whole runs.

  §1  a failed `open`: it takes an `os_files` entry and keeps it when the
      process has no descriptor left, and changes nothing otherwise,
  §2  who owns a descriptor: `opened_files` is neither cleared nor copied
      when a process exits, is killed, or starts in a slot, so ownership
      holds along the runs in which no process dies with a file open and
      no `open` loses its entry.
-/
import Risky321.Kernel.RunTheorems

namespace Risky321.Kernel

open Risky321.Lib

variable {L : Layout} {k k' : KState} {g g' : Ghost} {i j cur fd n idx : Nat} {s s' : Sys} {op : Op}

/-! ## §1 A failed open -/

/-- `os_files` and the `opened_files` of every slot are as before. -/
structure TablesSame (L : Layout) (k k' : KState) : Prop where
  osFiles : ∀ x, L.InOsFiles x → k'.mem x = k.mem x
  opened : ∀ i < numProcesses, ∀ fd < maxOpenFiles,
    pcb L k' i (.openedFiles fd) = pcb L k i (.openedFiles fd)

/-- The file is there and so is an entry for it, but every descriptor is taken. -/
def OpenLeaks (L : Layout) (k : KState) (cur : Nat) (path : List UInt8) : Prop :=
  filesystemLocateFile L k path ≠ 0xFFFFFFFF ∧
    (∃ n < maxOsFiles, k.load (osInUse (L.osFile n)) = 0) ∧
    ∀ fd, 3 ≤ fd → fd < maxOpenFiles → pcb L k cur (.openedFiles fd) ≠ 0

/-- The opens of a list of callers and paths, one after the other. -/
def openAll (L : Layout) (k : KState) : List (Nat × List UInt8) → KState
  | [] => k
  | (cur, path) :: calls => openAll L (filesystemFileOpen L k cur path).2 calls

/-- Each of them fails, and not by a leak. -/
def AllFail (L : Layout) (k : KState) : List (Nat × List UInt8) → Prop
  | [] => True
  | (cur, path) :: calls => cur < numProcesses ∧ ¬ OpenLeaks L k cur path ∧
      (filesystemFileOpen L k cur path).1 = 0xFFFFFFFF ∧
      AllFail L (filesystemFileOpen L k cur path).2 calls

theorem osFile_inOsFiles {x : Nat} (hn : n < maxOsFiles) (h1 : L.osFile n ≤ x)
    (h2 : x < L.osFile n + 12) : L.InOsFiles x := by
  simp only [Layout.InOsFiles, Layout.osFile, maxOsFiles, sizeofOsFile] at *
  omega

/-- Taking an entry shows in `os_files`. -/
theorem not_tablesSame_of_taken (hn : n < maxOsFiles) (hfree : k.load (osInUse (L.osFile n)) = 0)
    (hidx : idx < 2 ^ 32) : ¬ TablesSame L k (setOsFile L k n 1 idx 0) := by
  intro h
  obtain ⟨hone, -, -⟩ := osFile_setOsFile_same (L := L) k n (show 1 < 2 ^ 32 by omega) hidx
    (show 0 < 2 ^ 32 by omega)
  have hsame : (setOsFile L k n 1 idx 0).load (osInUse (L.osFile n)) =
      k.load (osInUse (L.osFile n)) := by
    apply load32_congr
    intro x hx1 hx2
    simp only [osInUse] at hx1 hx2
    exact h.osFiles x (osFile_inOsFiles hn hx1 (by omega))
  rw [hone, hfree] at hsame
  exact absurd hsame Nat.one_ne_zero

/-- An open that fails without a leak changes nothing. -/
theorem failedOpen_same {path : List UInt8} (hi : cur < 8) (hleak : ¬ OpenLeaks L k cur path)
    (hfail : (filesystemFileOpen L k cur path).1 = 0xFFFFFFFF) :
    (filesystemFileOpen L k cur path).2 = k := by
  have hout := filesystemFileOpen_outcome (L := L) k path hi
  generalize filesystemFileOpen L k cur path = out at hout hfail
  obtain ⟨ret, k'⟩ := out
  replace hout : OpenOutcome L k cur path ret k' := hout
  cases hout with
  | noFile hfile => rfl
  | noEntry hfile hidx hfull => rfl
  | noDescriptor hfile hidx hn hfree hfirst hfull =>
    refine absurd ⟨?_, ⟨_, hn, hfree⟩, hfull⟩ hleak
    rw [hfile]
    omega
  | opened hfile hidx hn hfree hfirst h3 h8 hnull hlow =>
    simp only at hfail
    omega

/-- An open that leaks fails, and shows in `os_files`. -/
theorem openLeaks_not_same {path : List UInt8} (hi : cur < 8) (hleak : OpenLeaks L k cur path) :
    ¬ ((filesystemFileOpen L k cur path).1 = 0xFFFFFFFF →
      TablesSame L k (filesystemFileOpen L k cur path).2) := by
  intro h
  obtain ⟨hfile, ⟨n, hn, hfree⟩, hfull⟩ := hleak
  have hout := filesystemFileOpen_outcome (L := L) k path hi
  generalize filesystemFileOpen L k cur path = out at hout h
  obtain ⟨ret, k'⟩ := out
  replace hout : OpenOutcome L k cur path ret k' := hout
  cases hout with
  | noFile hnone => exact hfile hnone
  | noEntry hf hidx hnone => exact hnone n hn hfree
  | noDescriptor hf hidx hn' hfree' hfirst hfull' =>
    exact not_tablesSame_of_taken hn' hfree' (by omega) (h rfl)
  | opened hf hidx hn' hfree' hfirst h3 h8 hnull hlow => exact hfull _ h3 h8 hnull

/-- A failing `open` leaves both tables alone exactly when it does not run
out of descriptors after it has taken an entry; and as long as no open
does that, any number of failing ones changes nothing at all. -/
theorem failedOpen_unchanged_iff (L : Layout) (k : KState) (cur : Nat) (path : List UInt8)
    (hi : cur < numProcesses) :
    (((filesystemFileOpen L k cur path).1 = 0xFFFFFFFF →
        TablesSame L k (filesystemFileOpen L k cur path).2) ↔ ¬ OpenLeaks L k cur path) ∧
      ∀ calls, AllFail L k calls → openAll L k calls = k := by
  constructor
  · constructor
    · exact fun h hleak => openLeaks_not_same hi hleak h
    · intro hleak hfail
      rw [failedOpen_same hi hleak hfail]
      exact ⟨fun _ _ => rfl, fun _ _ _ _ => rfl⟩
  · intro calls
    induction calls with
    | nil => exact fun _ => rfl
    | cons c calls ih =>
      rintro ⟨hc, hleak, hfail, hrest⟩
      have hsame := failedOpen_same hc hleak hfail
      rw [openAll, hsame]
      rw [hsame] at hrest
      exact ih hrest

theorem failedOpen_unchanged_noFile :
    (filesystemFileOpen exampleLayout (KState.init exampleMem) 0 [120]).1 = 0xFFFFFFFF ∧
      TablesSame exampleLayout (KState.init exampleMem)
        (filesystemFileOpen exampleLayout (KState.init exampleMem) 0 [120]).2 := by
  have hnone : filesystemLocateFile exampleLayout (KState.init exampleMem) [120] = 0xFFFFFFFF := by
    decide +kernel
  have hfail : (filesystemFileOpen exampleLayout (KState.init exampleMem) 0 [120]).1 =
      0xFFFFFFFF := by
    simp only [filesystemFileOpen]
    rw [if_pos hnone]
  exact ⟨hfail, (failedOpen_unchanged_iff exampleLayout (KState.init exampleMem) 0 [120]
    (by decide)).1.mpr (fun h => h.1 hnone) hfail⟩

/-- The shell opens the same file five times; the sixth `open` fails and
takes an entry with it. -/
theorem failedOpen_takes_entry : ∃ s cur, SysReach exampleLayout (fun _ _ => True) s ∧
    s.k.current = some cur ∧
    ¬ ((filesystemFileOpen exampleLayout s.k cur examplePath).1 = 0xFFFFFFFF →
      TablesSame exampleLayout s.k (filesystemFileOpen exampleLayout s.k cur examplePath).2) := by
  obtain ⟨s, g, hreach, hent, -⟩ := exampleEntered (fun _ _ => True) (fun _ _ => trivial)
  have hmany : ∀ n ≤ 5, ∃ s, SysReach exampleLayout (fun _ _ => True) s ∧
      HasOpened exampleLayout exampleMem examplePath n s g := by
    intro n hn
    induction n with
    | zero => exact ⟨s, hreach, hent.hasOpened⟩
    | succ n ih =>
      obtain ⟨s1, hr1, h1⟩ := ih (by omega)
      obtain ⟨s2, hstep, h2⟩ := h1.exampleStep (by omega)
      exact ⟨s2, .step hr1 trivial hstep, h2⟩
  obtain ⟨s5, hr5, h5⟩ := hmany 5 le_rfl
  refine ⟨s5, 0, hr5, h5.running.current, openLeaks_not_same (by decide) ⟨?_, ?_, ?_⟩⟩
  · rw [filesystemLocateFile_congr h5.files examplePath_length, examplePath_locate]
    decide
  · exact ⟨5, by decide, h5.free 5 le_rfl (by decide)⟩
  · intro fd h3 h8
    exact h5.used h3 (by simpa using h8)

/-! ## §2 Who owns a descriptor -/

/-- A history variable: the descriptors each slot's process has opened itself,
or found open in its parent when it was forked. -/
abbrev Owned : Type := Nat → Nat → Bool

/-- Some descriptor of the process that forks holds this entry. -/
def inherited (L : Layout) (s s' : Sys) (i fd : Nat) : Bool :=
  match s.k.current with
  | some cur => (List.range maxOpenFiles).any fun fd' =>
      pcb L s.k cur (.openedFiles fd') == pcb L s'.k i (.openedFiles fd)
  | none => false

/-- How an event that leads from `s` to `s'` changes the history. -/
def Owned.next (own : Owned) (L : Layout) (s s' : Sys) : Op → Owned
  | .create _ => fun i fd => if freeSlot L s.k = some i then false else own i fd
  | .call .fork => fun i fd =>
      if freeSlot L s.k = some i then inherited L s s' i fd else own i fd
  | .call (.openFile _) => fun i fd => own i fd ||
      (s.k.current == some i && pcb L s.k i (.openedFiles fd) == 0 &&
        pcb L s'.k i (.openedFiles fd) != 0)
  | _ => own

/-- Runs with their history. -/
abbrev OwnedReach (L : Layout) (ok : Sys → Op → Prop) : Sys × Owned → Prop :=
  Reach (fun x => Sys.Init L x.1 ∧ x.2 = fun _ _ => false)
    (fun x op y => x.1.step L op = some y.1 ∧ y.2 = x.2.next L x.1 y.1 op) (fun x => ok x.1)

/-- An entry in use is open in a live process, and a live process has only
descriptors of its own. -/
structure DescriptorsOwned (L : Layout) (s : Sys) (own : Owned) : Prop where
  inUse : ∀ n < maxOsFiles, s.k.load (osInUse (L.osFile n)) ≠ 0 →
    ∃ i, Live L s.k i ∧ ∃ fd < maxOpenFiles, pcb L s.k i (.openedFiles fd) = L.osFile n
  own : ∀ i, Live L s.k i → ∀ fd < maxOpenFiles, pcb L s.k i (.openedFiles fd) ≠ 0 → own i fd = true

/-- The entries of a process that dies are given back. -/
def ReleasesFiles (L : Layout) (s s' : Sys) : Prop :=
  ∀ i, Live L s.k i → ¬ Live L s'.k i → ∀ fd < maxOpenFiles, pcb L s.k i (.openedFiles fd) ≠ 0 →
    s'.k.load (osInUse (pcb L s.k i (.openedFiles fd))) = 0

/-- Slot `i` has no file open. -/
def NoFiles (L : Layout) (k : KState) (i : Nat) : Prop :=
  ∀ fd < maxOpenFiles, pcb L k i (.openedFiles fd) = 0

/-- No process dies with a file open, and no `open` loses its entry. -/
def Op.KeepsFiles (L : Layout) (s : Sys) : Op → Prop
  | .call (.exit _) => ∀ cur, s.k.current = some cur → NoFiles L s.k cur
  | .call (.kill pid _) => ∀ i, Live L s.k i → pcb L s.k i .pid = pid → NoFiles L s.k i
  | .call (.openFile path) => ∀ cur, s.k.current = some cur → ¬ OpenLeaks L s.k cur path
  | _ => True

/-- The invariant: ownership, and nothing is open in a slot without a process. -/
structure DescInv (L : Layout) (k : KState) (own : Owned) : Prop where
  inUse : ∀ n < maxOsFiles, k.load (osInUse (L.osFile n)) ≠ 0 →
    ∃ i, Live L k i ∧ ∃ fd < 8, pcb L k i (.openedFiles fd) = L.osFile n
  own : ∀ i, Live L k i → ∀ fd < 8, pcb L k i (.openedFiles fd) ≠ 0 → own i fd = true
  dead : ∀ i < 8, ¬ Live L k i → NoFiles L k i

section Steps

variable {own own' : Owned}

/-- The descriptors and the marks in `os_files` are as before. -/
structure DescSame (L : Layout) (k k' : KState) : Prop where
  opened : ∀ i < 8, ∀ fd < 8, pcb L k' i (.openedFiles fd) = pcb L k i (.openedFiles fd)
  inUse : ∀ n < maxOsFiles, k'.load (osInUse (L.osFile n)) = k.load (osInUse (L.osFile n))

theorem FilesSame.descSame (hs : FilesSame L k k') : DescSame L k k' :=
  ⟨hs.opened, fun _ hn => hs.load_osFile (o := 0) hn (by omega)⟩

/-- The tables have not changed, and who is alive only where nothing is open. -/
theorem DescInv.same (h : DescInv L k own) (hs : DescSame L k k')
    (hlive : ∀ j < 8, (Live L k' j ↔ Live L k j) ∨ NoFiles L k j) : DescInv L k' own := by
  have hopen : ∀ j < 8, ∀ fd < 8, pcb L k j (.openedFiles fd) ≠ 0 → (Live L k' j ↔ Live L k j) :=
    fun j hj fd hfd hne => (hlive j hj).resolve_right (fun hnone => hne (hnone fd hfd))
  refine ⟨?_, ?_, ?_⟩
  · intro n hn huse
    rw [hs.inUse n hn] at huse
    obtain ⟨j, hj, fd, hfd, heq⟩ := h.inUse n hn huse
    have hne : pcb L k j (.openedFiles fd) ≠ 0 := by
      rw [heq]
      exact L.osFile_ne_zero n
    exact ⟨j, (hopen j hj.1 fd hfd hne).mpr hj, fd, hfd, by rw [hs.opened j hj.1 fd hfd, heq]⟩
  · intro j hj fd hfd hne
    rw [hs.opened j hj.1 fd hfd] at hne
    exact h.own j ((hopen j hj.1 fd hfd hne).mp hj) fd hfd hne
  · intro j hj hdead fd hfd
    rw [hs.opened j hj fd hfd]
    by_contra hne
    exact hne (h.dead j hj (fun hl => hdead ((hopen j hj fd hfd hne).mpr hl)) fd hfd)

theorem DescInv.mono (h : DescInv L k own)
    (hle : ∀ i, Live L k i → ∀ fd, own i fd = true → own' i fd = true) : DescInv L k own' :=
  ⟨h.inUse, fun i hi fd hfd hne => hle i hi fd (h.own i hi fd hfd hne), h.dead⟩

/-- The history of a live process only grows. -/
theorem Owned.next_mono (hlive : Live L s.k i) (h : own i fd = true) :
    own.next L s s' op i fd = true := by
  have hslot : freeSlot L s.k ≠ some i := fun hs => hlive.2 (freeSlot_spec hs).2
  unfold Owned.next
  split <;> simp [hslot, h]

theorem live_of_state (h : pcb L k' i .state = pcb L k i .state) : Live L k' i ↔ Live L k i := by
  unfold Live
  rw [h]

/-- A file is opened as descriptor `fd` of `cur`. -/
theorem DescInv.opened (h : DescInv L k own) (hlive : Live L k cur) (hn : n < maxOsFiles)
    (hfd : fd < 8) (hnull : pcb L k cur (.openedFiles fd) = 0) (hown : own cur fd = true) :
    DescInv L (setPcb L (setOsFile L k n 1 idx 0) cur (.openedFiles fd) (L.osFile n)) own := by
  have hi : cur < 8 := hlive.1
  generalize hk' : setPcb L (setOsFile L k n 1 idx 0) cur (.openedFiles fd) (L.osFile n) = k'
  have hop : ∀ j < 8, ∀ fd' < 8, pcb L k' j (.openedFiles fd') =
      if j = cur ∧ fd' = fd then L.osFile n else pcb L k j (.openedFiles fd') := by
    intro j hj fd' hfd'
    rw [← hk', opened_setPcb hfd hfd' (L.osFile_lt hn),
      pcb_setOsFile (f := .openedFiles fd') hn hj hfd']
  have hl : ∀ j < 8, Live L k' j ↔ Live L k j := by
    intro j hj
    refine live_of_state ?_
    rw [← hk']
    by_cases hjc : j = cur
    · rw [hjc, pcb_setPcb_of_ne_field (f := .state) (g := .openedFiles fd) trivial hfd nofun,
        pcb_setOsFile (f := .state) hn hi trivial]
    · rw [pcb_setPcb_of_ne_slot (f := .state) (g := .openedFiles fd) trivial hfd hjc,
        pcb_setOsFile (f := .state) hn hj trivial]
  have huse : ∀ n' < maxOsFiles, n' ≠ n →
      k'.load (osInUse (L.osFile n')) = k.load (osInUse (L.osFile n')) := by
    intro n' hn' hne
    rw [← hk']
    exact (osFile_setPcb (f := .openedFiles fd) (o := 0) hn' (by omega) hi hfd).trans
      (osFile_setOsFile_of_ne (o := 0) (by omega) hne)
  refine ⟨?_, ?_, ?_⟩
  · intro n' hn' hne
    by_cases hnn : n' = n
    · exact ⟨cur, (hl cur hi).mpr hlive, fd, hfd, by rw [hop cur hi fd hfd, if_pos ⟨rfl, rfl⟩, hnn]⟩
    · rw [huse n' hn' hnn] at hne
      obtain ⟨j, hj, fd', hfd', heq⟩ := h.inUse n' hn' hne
      refine ⟨j, (hl j hj.1).mpr hj, fd', hfd', ?_⟩
      rw [hop j hj.1 fd' hfd', if_neg, heq]
      rintro ⟨rfl, rfl⟩
      rw [hnull] at heq
      exact L.osFile_ne_zero n' heq.symm
  · intro j hj fd' hfd' hne
    by_cases hc : j = cur ∧ fd' = fd
    · rw [hc.1, hc.2, hown]
    · rw [hop j hj.1 fd' hfd', if_neg hc] at hne
      exact h.own j ((hl j hj.1).mp hj) fd' hfd' hne
  · intro j hj hdead fd' hfd'
    have hdead' : ¬ Live L k j := fun hlj => hdead ((hl j hj).mpr hlj)
    rw [hop j hj fd' hfd', if_neg]
    · exact h.dead j hj hdead' fd' hfd'
    · rintro ⟨rfl, -⟩
      exact hdead' hlive

/-- Descriptor `fd` of `cur` is closed. -/
theorem DescInv.closed (h : DescInv L k own) (hlive : Live L k cur) (hn : n < maxOsFiles)
    (hfd : fd < 8) (hentry : pcb L k cur (.openedFiles fd) = L.osFile n) :
    DescInv L (setOsFile L (setPcb L k cur (.openedFiles fd) 0) n 0 0xFFFFFFFF 0) own := by
  have hi : cur < 8 := hlive.1
  generalize hk' : setOsFile L (setPcb L k cur (.openedFiles fd) 0) n 0 0xFFFFFFFF 0 = k'
  have hop : ∀ j < 8, ∀ fd' < 8, pcb L k' j (.openedFiles fd') =
      if j = cur ∧ fd' = fd then 0 else pcb L k j (.openedFiles fd') := by
    intro j hj fd' hfd'
    rw [← hk', pcb_setOsFile (f := .openedFiles fd') hn hj hfd', opened_setPcb hfd hfd' (by omega)]
  have hl : ∀ j < 8, Live L k' j ↔ Live L k j := by
    intro j hj
    refine live_of_state ?_
    rw [← hk', pcb_setOsFile (f := .state) hn hj trivial]
    by_cases hjc : j = cur
    · rw [hjc, pcb_setPcb_of_ne_field (f := .state) (g := .openedFiles fd) trivial hfd nofun]
    · rw [pcb_setPcb_of_ne_slot (f := .state) (g := .openedFiles fd) trivial hfd hjc]
  have hzero : k'.load (osInUse (L.osFile n)) = 0 := by
    rw [← hk']
    exact (osFile_setOsFile_same _ n (by omega) (by omega) (by omega)).1
  have huse : ∀ n' < maxOsFiles, n' ≠ n →
      k'.load (osInUse (L.osFile n')) = k.load (osInUse (L.osFile n')) := by
    intro n' hn' hne
    rw [← hk']
    exact (osFile_setOsFile_of_ne (o := 0) (by omega) hne).trans
      (osFile_setPcb (f := .openedFiles fd) (o := 0) hn' (by omega) hi hfd)
  refine ⟨?_, ?_, ?_⟩
  · intro n' hn' hne
    by_cases hnn : n' = n
    · rw [hnn, hzero] at hne
      exact absurd rfl hne
    · rw [huse n' hn' hnn] at hne
      obtain ⟨j, hj, fd', hfd', heq⟩ := h.inUse n' hn' hne
      refine ⟨j, (hl j hj.1).mpr hj, fd', hfd', ?_⟩
      rw [hop j hj.1 fd' hfd', if_neg, heq]
      rintro ⟨rfl, rfl⟩
      rw [hentry] at heq
      exact hnn (L.osFile_inj heq).symm
  · intro j hj fd' hfd' hne
    rw [hop j hj.1 fd' hfd'] at hne
    split at hne
    · exact absurd rfl hne
    · exact h.own j ((hl j hj.1).mp hj) fd' hfd' hne
  · intro j hj hdead fd' hfd'
    rw [hop j hj fd' hfd']
    split
    · rfl
    · exact h.dead j hj (fun hlj => hdead ((hl j hj).mpr hlj)) fd' hfd'

/-- Reading moves a position, which is no part of this. -/
theorem descSame_fileRead {h v : Nat} {k1 : KState} (ho : OpenFile L k h) (hs : FilesSame L k k1) :
    DescSame L k (k1.store (osRwpos h) v) := by
  obtain ⟨n, hn, rfl⟩ := ho.handle
  refine ⟨fun i hi fd hfd => ?_, fun n' hn' => ?_⟩
  · exact (pcb_store_osFile (f := .openedFiles fd) (o := 4) hn (by omega) hi hfd).trans
      (hs.opened i hi fd hfd)
  · rw [← hs.descSame.inUse n' hn']
    refine load32_store32_disjoint _ _ ?_
    simp only [osInUse, osRwpos, Layout.osFile, sizeofOsFile]
    omega

/-- Only `create` and `fork` start a process, and only `exit` and `kill` end one. -/
theorem Effect.live_cases (he : Effect L k g op k' g') (hj : j < 8) :
    (Live L k' j ↔ Live L k j) ∨
      (freeSlot L k = some j ∧
        ((∃ idx, op = .create idx ∧ idx < maxFsFiles ∧ Created L idx j k g k' g') ∨
          ∃ cur, k.current = some cur ∧ Live L k cur ∧ op = .call .fork ∧
            Forked L cur j k g k' g')) ∨ Live L k j ∧
      ((∃ r, op = .call (.exit r) ∧ k.current = some j) ∨
        ∃ pid r, op = .call (.kill pid r) ∧ pcb L k j .pid = pid) := by
  cases he with
  | nothing => exact .inl Iff.rfl
  | scheduled hlive => exact .inl Iff.rfl
  | @created idx i _ _ hidx hok hc =>
    by_cases hji : j = i
    · subst hji
      exact .inr (.inl ⟨hc.slot, .inl ⟨idx, rfl, hidx, hc⟩⟩)
    · exact .inl (live_of_state (hc.grow.pcb_other (f := .state) hj trivial hji))
  | @forked cur i _ _ hcur hlive hslot hne hf hI' =>
    by_cases hji : j = i
    · subst hji
      exact .inr (.inl ⟨hslot, .inr ⟨cur, hcur, hlive, rfl, hf⟩⟩)
    · exact .inl (live_of_state (hf.grow.pcb_other (f := .state) hj trivial hji))
  | @execed cur idx path argv _ _ hcur hlive hidx hfile hok hfit hex =>
    left
    by_cases hjc : j = cur
    · rw [hjc]
      exact ⟨fun _ => hlive, fun _ => ⟨hlive.1, by rw [hex.state]; decide⟩⟩
    · exact live_of_state (hex.grow.pcb_other (f := .state) hj trivial hjc)
  | @added cur q _ _ hcur hlive ha hI' =>
    refine .inl (live_of_state ?_)
    by_cases hjc : j = cur
    · rw [hjc]
      exact ha.field_eq .state trivial nofun
    · exact ha.grow.pcb_other (f := .state) hj trivial hjc
  | @exited cur r _ hcur hlive hrel =>
    by_cases hjc : j = cur
    · rw [hjc]
      exact .inr (.inr ⟨hlive, .inl ⟨r, rfl, hcur⟩⟩)
    · exact .inl (live_of_state (hrel.touch.pcb (f := .state) hj trivial hjc))
  | @killed i pid r _ hlive hpid hrel =>
    by_cases hji : j = i
    · rw [hji]
      exact .inr (.inr ⟨hlive, .inr ⟨pid, r, rfl, hpid⟩⟩)
    · exact .inl (live_of_state (hrel.touch.pcb (f := .state) hj trivial hji))
  | @slept cur r hcur hlive =>
    refine .inl (live_of_state ?_)
    by_cases hjc : j = cur
    · rw [hjc]
      exact pcb_kprocYield (f := .state) trivial (fun _ => nofun)
    · have hg : Grow L (fun _ => False) (L.InPcb cur) k g (kprocYield L k cur r) g :=
        kprocYield_grow hlive.1
      exact hg.pcb_other (f := .state) hj trivial hjc
  | @opened cur idx n fd path hcur hlive hidx hfile hn hfree h3 hfd hnull =>
    refine .inl (live_of_state ?_)
    rw [pcb_setPcb_of_ne (f := .state) (g := .openedFiles fd) trivial hfd nofun,
      pcb_setOsFile (f := .state) hn hj trivial]
  | openedLeak hcur hlive hidx hfile hn hfree hfull =>
    exact .inl (live_of_state (pcb_setOsFile (f := .state) hn hj trivial))
  | fileRead hcur hlive hfd ho hk1 hg1 =>
    obtain ⟨n, hn, heq⟩ := ho.handle
    refine .inl (live_of_state ?_)
    rw [heq]
    exact (pcb_store_osFile (f := .state) (o := 4) hn (by omega) hj trivial).trans
      (hg1.pcb (f := .state) hj trivial (fun _ _ h => h))
  | @closed cur fd n hcur hlive h3 hfd hn hentry =>
    refine .inl (live_of_state ?_)
    rw [pcb_setOsFile (f := .state) hn hj trivial,
      pcb_setPcb_of_ne (f := .state) (g := .openedFiles fd) trivial hfd nofun]
  | stored hcur hlive hc hk' hg' =>
    exact .inl (live_of_state (hg'.pcb (f := .state) hj trivial (fun _ _ h => h)))

/-- Where a process starts or ends, nothing is open. -/
theorem Effect.live_or_noFiles (he : Effect L s.k g op k' g') (h : DescInv L s.k own)
    (hkeep : op.KeepsFiles L s) (hj : j < 8) :
    (Live L k' j ↔ Live L s.k j) ∨ NoFiles L s.k j := by
  obtain hiff | ⟨hslot, -⟩ | ⟨hlive, ⟨r, rfl, hcur⟩ | ⟨pid, r, rfl, hpid⟩⟩ := he.live_cases hj
  · exact .inl hiff
  · exact .inr (h.dead j hj (fun hl => hl.2 (freeSlot_spec hslot).2))
  · exact .inr (hkeep j hcur)
  · exact .inr (hkeep j hlive hpid)

/-- What a safe event that keeps its files does to the invariant. -/
theorem Effect.descInv (he : Effect L s.k g op k' g') (h : DescInv L s.k own)
    (hkeep : op.KeepsFiles L s) (hs : FilesSame L k' s'.k) :
    DescInv L k' (own.next L s s' op) := by
  have hmono : DescInv L s.k (own.next L s s' op) :=
    h.mono (fun i hi fd ho => Owned.next_mono hi ho)
  have hlive : ∀ j < 8, (Live L k' j ↔ Live L s.k j) ∨ NoFiles L s.k j :=
    fun j hj => he.live_or_noFiles h hkeep hj
  cases he with
  | nothing => exact hmono
  | scheduled _ => exact hmono.same ⟨fun _ _ _ _ => rfl, fun _ _ => rfl⟩ hlive
  | created hidx hok hc => exact hmono.same hc.filesSame.descSame hlive
  | forked hcur hl hslot hne hf hI' =>
    exact hmono.same (hf.filesSame (freeSlot_spec hslot).1).descSame hlive
  | execed hcur hl hidx hfile hok hfit hex => exact hmono.same (hex.filesSame hl.1).descSame hlive
  | added hcur hl ha hI' => exact hmono.same (ha.filesSame hl.1).descSame hlive
  | exited hcur hl hrel => exact hmono.same (hrel.filesSame hl.1).descSame hlive
  | killed hl hpid hrel => exact hmono.same (hrel.filesSame hl.1).descSame hlive
  | slept hcur hl => exact hmono.same (kprocYield_filesSame hl.1).descSame hlive
  | @opened cur idx n fd path hcur hl hidx hfile hn hfree h3 hfd hnull =>
    refine hmono.opened hl hn hfd hnull ?_
    have hnew : pcb L s'.k cur (.openedFiles fd) ≠ 0 := by
      rw [hs.opened cur hl.1 fd hfd, pcb_setPcb_same (L.osFile_lt hn)]
      exact L.osFile_ne_zero n
    simp [Owned.next, hcur, hnull, hnew]
  | openedLeak hcur hl hidx hfile hn hfree hfull =>
    refine absurd ⟨?_, ⟨_, hn, hfree⟩, hfull⟩ (hkeep _ hcur)
    rw [hfile]
    simp only [maxFsFiles] at hidx
    omega
  | fileRead hcur hl hfd ho hk1 hg1 => exact hmono.same (descSame_fileRead ho hg1.filesSame) hlive
  | closed hcur hl h3 hfd hn hentry => exact hmono.closed hl hn hfd hentry
  | stored hcur hl hc hk' hg' => exact hmono.same hg'.filesSame.descSame hlive

theorem SysInv.step_descInv (hI : SysInv L s g) (h : DescInv L s.k own) (hsafe : op.Safe L s)
    (hkeep : op.KeepsFiles L s) (hstep : s.step L op = some s') :
    DescInv L s'.k (own.next L s s' op) ∧ ReleasesFiles L s s' := by
  obtain ⟨k1, g1, he, ht, -⟩ := hI.step hsafe hstep
  have hs := ht.grow.filesSame
  refine ⟨(he.descInv h hkeep hs).same hs.descSame (fun j _ => .inl ht.live), ?_⟩
  intro i hi hdead fd hfd hne
  obtain hiff | hnone := he.live_or_noFiles h hkeep hi.1
  · exact absurd (ht.live.mpr (hiff.mpr hi)) hdead
  · exact absurd (hnone fd hfd) hne

/-- At the start nothing is open. -/
theorem Started.descInv {m : Mem} (hs : Started L s m k g) : DescInv L s.k (fun _ _ => false) := by
  have hsame := hs.created.filesSame
  refine ⟨?_, ?_, ?_⟩
  · intro n hn hne
    rw [hsame.descSame.inUse n hn, hs.mem.osFiles_zero hs.booted hn] at hne
    exact absurd rfl hne
  · intro i hi fd hfd hne
    rw [hsame.opened i hi.1 fd hfd, hs.mem.opened_zero hs.booted hi.1 hfd] at hne
    exact absurd rfl hne
  · intro i hi _ fd hfd
    rw [hsame.opened i hi fd hfd, hs.mem.opened_zero hs.booted hi hfd]

end Steps

/-- The events of a run along which descriptors stay with their process. -/
def Op.FilesKept (L : Layout) (s : Sys) (op : Op) : Prop := op.Safe L s ∧ op.KeepsFiles L s

theorem ownedReach_inv {x : Sys × Owned} (h : OwnedReach L (fun s op => op.FilesKept L s) x) :
    (∃ g, SysInv L x.1 g) ∧ DescInv L x.1.k x.2 := by
  refine h.invariant (I := fun x => (∃ g, SysInv L x.1 g) ∧ DescInv L x.1.k x.2) ?_ ?_
  · rintro ⟨s, own⟩ ⟨h0, rfl⟩
    obtain ⟨m, k, g, hs⟩ := h0.started
    exact ⟨⟨g, hs.sysInv⟩, hs.descInv⟩
  · rintro ⟨s, own⟩ op ⟨s', own'⟩ ⟨⟨g, hI⟩, hd⟩ hok ⟨hstep, hnext⟩
    obtain ⟨_, g1, -, -, hI'⟩ := hI.step hok.1 hstep
    refine ⟨⟨g1, hI'⟩, ?_⟩
    rw [hnext]
    exact (hI.step_descInv hd hok.1 hok.2 hstep).1

/-- A run with its history goes on. -/
theorem OwnedReach.next {x : Sys × Owned} (h : OwnedReach L (fun s op => op.FilesKept L s) x)
    (hkept : op.FilesKept L x.1) (hstep : x.1.step L op = some s') :
    OwnedReach L (fun s op => op.FilesKept L s) (s', x.2.next L x.1 s' op) :=
  h.step hkept ⟨hstep, rfl⟩

/-- Every run has a history. -/
theorem SysReach.owned {ok : Sys → Op → Prop} (h : SysReach L ok s) :
    ∃ own, OwnedReach L ok (s, own) :=
  h.recorded (fun _ _ => false) fun own s s' op => Owned.next own L s s' op

/-- The first process has descriptor 3 open, and the second one can run and has nothing open. -/
structure FirstOpened (L : Layout) (k : KState) : Prop where
  live : Live L k 0
  opened : pcb L k 0 (.openedFiles 3) ≠ 0
  state : pcb L k 1 .state = ProcState.runnable.code
  none : NoFiles L k 1

theorem FirstOpened.same (h : FirstOpened L k)
    (hpcb : ∀ i < 8, ∀ f : PcbField, f.InStruct → (∀ r, f ≠ .context r) →
      (i = 0 → f ≠ .openedFiles 4) → pcb L k' i f = pcb L k i f) : FirstOpened L k' := by
  refine ⟨⟨by decide, ?_⟩, ?_, ?_, fun fd hfd => ?_⟩
  · rw [hpcb 0 (by decide) .state trivial nofun nofun]
    exact h.live.2
  · rw [hpcb 0 (by decide) (.openedFiles 3) (by decide) nofun (by simp)]
    exact h.opened
  · rw [hpcb 1 (by decide) .state trivial nofun nofun]
    exact h.state
  · rw [hpcb 1 (by decide) (.openedFiles fd) hfd nofun (by simp)]
    exact h.none fd hfd

theorem FirstOpened.words (h : FirstOpened L k) (hw : TrapWords L k g k') : FirstOpened L k' :=
  h.same fun _ hi _ hf _ _ => hw.pcb hi hf

/-- The first process of the example system opens its file twice, forks, closes
the second descriptor and goes to sleep; the child executes. -/
theorem exampleParentOpened : ∃ s0 s g, Sys.Init exampleLayout s0 ∧
    [Op.schedule 0, .call (.openFile examplePath), .call (.openFile examplePath), .call .fork,
      .call (.close 4), .call (.sleep zeroRegs), .schedule 1].foldlM (Sys.step exampleLayout) s0 =
        some s ∧
    SysReach exampleLayout (fun s op => op.FilesKept exampleLayout s) s ∧
    Running exampleLayout s g 1 ∧ FirstOpened exampleLayout s.k := by
  obtain ⟨s0, k, g, hinit, hstart⟩ := exampleStarted
  obtain ⟨s1, hstep1, hent, -⟩ := hstart.entered
  have hr1 : SysReach exampleLayout (fun s op => op.FilesKept exampleLayout s) s1 :=
    (Reach.init hinit).step (o := Op.schedule 0) ⟨trivial, trivial⟩ hstep1
  have hkept : ∀ n < 5, ∀ s, HasOpened exampleLayout exampleMem examplePath n s g →
      (Op.call (.openFile examplePath)).FilesKept exampleLayout s := by
    intro n hn s h
    refine ⟨fun _ _ => trivial, fun cur hcur hleak => ?_⟩
    obtain rfl : 0 = cur := Option.some.inj (h.running.current.symm.trans hcur)
    exact hleak.2.2 (3 + n) (by omega) (by simp only [maxOpenFiles]; omega)
      (h.unused _ le_rfl (by omega))
  have h1 : HasOpened exampleLayout exampleMem examplePath 0 s1 g := hent.hasOpened
  obtain ⟨s2, hstep2, h2⟩ := h1.exampleStep (by decide)
  have hr2 := hr1.step (hkept 0 (by decide) _ h1) hstep2
  obtain ⟨s3, hstep3, h3⟩ := h2.exampleStep (by decide)
  have hr3 := hr2.step (hkept 1 (by decide) _ h2) hstep3
  -- the child goes to slot 1, where nothing is open
  obtain ⟨own, ho⟩ := SysReach.owned hr3
  have hslot := freeSlot_one h3.running.live (h3.others 1 (by decide) (by decide))
  have hnone : NoFiles exampleLayout s3.k 1 := (ownedReach_inv ho).2.dead 1 (by decide)
    fun hl => hl.2 (h3.others 1 (by decide) (by decide))
  have hcopy := copyCount_add_free_le h3.running.inv.inv.kmem
    (h3.running.inv.inv.proc 0 h3.running.live).leaves
  have hfree := hent.exampleFree
  obtain ⟨s4, k4, g4, hstep4, hrun4, -, hfk, hw4⟩ := h3.running.fork hslot (by omega)
  have hr4 := hr3.step (o := Op.call .fork) ⟨Op.safe_fork _ _, trivial⟩ hstep4
  have hsame := hfk.filesSame (by decide)
  have h4 : FirstOpened exampleLayout s4.k := by
    refine FirstOpened.words ⟨⟨by decide, ?_⟩, ?_, hfk.state, fun fd hfd => ?_⟩ hw4
    · rw [hfk.grow.pcb_other (f := .state) (by decide) trivial (by decide)]
      exact h3.running.live.2
    · rw [hsame.opened 0 (by decide) 3 (by decide)]
      exact h3.used (by decide) (by decide)
    · rw [hsame.opened 1 (by decide) fd hfd]
      exact hnone fd hfd
  have h44 : pcb exampleLayout s4.k 0 (.openedFiles 4) ≠ 0 := by
    rw [hw4.pcb (f := .openedFiles 4) (by decide) (by decide),
      hsame.opened 0 (by decide) 4 (by decide)]
    exact h3.used (by decide) (by decide)
  obtain ⟨s5, n, hstep5, hn, -, hrun5, hw5⟩ := hrun4.close (show 3 ≤ 4 by decide) (by decide) h44
  have hr5 := hr4.step (o := Op.call (.close 4))
    ⟨fun _ _ => (by decide : 4 < maxOpenFiles), trivial⟩ hstep5
  have h5 : FirstOpened exampleLayout s5.k := by
    refine FirstOpened.words (h4.same fun i hi f hf _ h0 => ?_) hw5
    rw [pcb_setOsFile hn hi hf]
    by_cases hi0 : i = 0
    · rw [hi0, pcb_setPcb_of_ne_field (g := .openedFiles 4) hf (by decide) (h0 hi0)]
    · rw [pcb_setPcb_of_ne_slot (g := .openedFiles 4) hf (by decide) hi0]
  obtain ⟨hstep6, hI6⟩ := hrun5.sleep zeroRegs
  have hr6 := hr5.step (o := Op.call (.sleep zeroRegs)) ⟨fun _ _ => trivial, trivial⟩ hstep6
  have h6 : FirstOpened exampleLayout (kprocYield exampleLayout s5.k 0 zeroRegs) :=
    h5.same fun i hi f hf hctx _ => pcb_yield (by decide) hi hf hctx
  obtain ⟨hstep7, hrun7, hw7⟩ := hI6.enter rfl (by decide) h6.state
  have hr7 := hr6.step (o := Op.schedule 1) ⟨trivial, trivial⟩ hstep7
  refine ⟨s0, _, g4, hinit, ?_, hr7, hrun7, FirstOpened.words ?_ hw7⟩
  · simp only [List.foldlM_cons, List.foldlM_nil, hstep1, hstep2, hstep3, hstep4, hstep5, hstep6,
      hstep7, Option.bind_eq_bind, Option.bind_some]
    rfl
  · exact ⟨h6.live, h6.opened, h6.state, h6.none⟩

/-- Along a run in which no process dies with a file open and no `open`
loses its entry, every entry in use is open in a live process, and a
process has only descriptors it opened itself or found in its parent. -/
theorem descriptors_stay_with_process (L : Layout) (s : Sys) (own : Owned)
    (h : OwnedReach L (fun s op => op.FilesKept L s) (s, own)) :
    DescriptorsOwned L s own ∧
      ∀ op s', op.FilesKept L s → s.step L op = some s' → ReleasesFiles L s s' := by
  obtain ⟨⟨g, hI⟩, hd⟩ := ownedReach_inv h
  refine ⟨⟨hd.inUse, hd.own⟩, fun op s' hok hstep => ?_⟩
  exact (hI.step_descInv hd hok.1 hok.2 hstep).2

/-- The child exits with nothing open while its parent has a file open. -/
theorem descriptors_stay_with_shell : ∃ s0 s own s' own',
    Sys.Init exampleLayout s0 ∧
    [Op.schedule 0, .call (.openFile examplePath), .call (.openFile examplePath), .call .fork,
      .call (.close 4), .call (.sleep zeroRegs), .schedule 1].foldlM (Sys.step exampleLayout) s0 =
        some s ∧
    s.step exampleLayout (.call (.exit zeroRegs)) = some s' ∧
    (Live exampleLayout s.k 1 ∧ ¬ Live exampleLayout s'.k 1) ∧
    (Live exampleLayout s.k 0 ∧ pcb exampleLayout s.k 0 (.openedFiles 3) ≠ 0) ∧ own 0 3 = true ∧
    DescriptorsOwned exampleLayout s own ∧ ReleasesFiles exampleLayout s s' ∧
    DescriptorsOwned exampleLayout s' own' := by
  obtain ⟨s0, s, g, hinit, hops, hreach, hrun, hfirst⟩ := exampleParentOpened
  obtain ⟨own, ho⟩ := hreach.owned
  obtain ⟨hstep, hrel, -⟩ := hrun.exit zeroRegs
  have hkept : (Op.call (.exit zeroRegs)).FilesKept exampleLayout s := by
    refine ⟨Op.safe_exit _ _ _, fun cur hcur => ?_⟩
    obtain rfl : 1 = cur := Option.some.inj (hrun.current.symm.trans hcur)
    exact hfirst.none
  obtain ⟨hown, hrelease⟩ := descriptors_stay_with_process exampleLayout s own ho
  have hnext := descriptors_stay_with_process exampleLayout _ _ (OwnedReach.next ho hkept hstep)
  exact ⟨s0, s, own, _, _, hinit, hops, hstep, ⟨hrun.live, fun hl => hl.2 hrel.state⟩,
    ⟨hfirst.live, hfirst.opened⟩, hown.own 0 hfirst.live 3 (by decide) hfirst.opened, hown,
    hrelease _ _ hkept hstep, hnext.1⟩

/-- The shell opens a file and exits: the entry stays in use with no process left. -/
theorem exit_keeps_entry : ∃ s own, OwnedReach exampleLayout (fun _ _ => True) (s, own) ∧
    ¬ DescriptorsOwned exampleLayout s own := by
  obtain ⟨s, g, hreach, hent, -⟩ := exampleEntered (fun _ _ => True) (fun _ _ => trivial)
  obtain ⟨s1, hstep1, h1⟩ := hent.hasOpened.exampleStep (by omega)
  have hrun := h1.running
  have hopen := hrun.inv.files.openFile 0 (by decide) 3 (by decide) (h1.used le_rfl (by omega))
  obtain ⟨n, hn, heq⟩ := hopen.handle
  obtain ⟨hstep2, hrel, -⟩ := hrun.exit zeroRegs
  have hreach2 : SysReach exampleLayout (fun _ _ => True)
      { s1 with k := kprocFree exampleLayout s1.k 0 zeroRegs, user := false } :=
    .step (.step hreach trivial hstep1) trivial hstep2
  obtain ⟨own, ho⟩ := hreach2.owned
  refine ⟨_, own, ho, fun hd => ?_⟩
  obtain ⟨i, hlive, -⟩ := hd.inUse n hn (by
    rw [(hrel.filesSame (by decide)).descSame.inUse n hn, ← heq]
    exact hopen.inUse)
  -- nobody is left
  refine hlive.2 ?_
  by_cases h0 : i = 0
  · rw [h0]
    exact hrel.state
  · exact (hrel.touch.pcb (f := .state) hlive.1 trivial h0).trans (h1.others i hlive.1 h0)

end Risky321.Kernel
