/-
Risky321.Kernel.StreamTheorems — an open descriptor is a stream.

A record is kept along the run (`Streams`): for each descriptor of each slot
what the file held when it was opened, and the bytes that reads on it have
delivered since. The invariant `StreamInv` says that the entry of `os_files`
behind the descriptor is for that file and that its `rwpos` counts these
bytes. No other descriptor has the same entry (`FilesInv.unique`), so a step
moves at most the stream it is about, also when processes come and go.

A buffer that is not in the caller's own pages may be the entry itself; §4
has a read of one byte that makes its own descriptor a dangling one.
-/
import Risky321.Kernel.DescriptorTheorems

namespace Risky321.Kernel

open Risky321.Lib

variable {L : Layout} {k k' k1 : KState} {g g' : Ghost} {i j cur fd n idx : Nat} {s s' : Sys}
  {op : Op} {c : UInt8}

/-! ## §1 Streams -/

/-- What the file held when the descriptor was opened, and the bytes that
have been delivered since. -/
structure Stream where
  data : List UInt8
  bytes : List UInt8

/-- The streams of the descriptors of all slots. -/
abbrev Streams : Type := Nat → Nat → Stream

/-- The contents of a file. -/
def fileData (L : Layout) (k : KState) (idx : Nat) : List UInt8 :=
  loadBytes k.mem (L.fsData idx) (k.load (L.fsSize idx))

/-- The bytes that a `ksys_read` stores through the caller's pointer. -/
def deliveredBytes (L : Layout) (s : Sys) (cur fd buf size : Nat) : List UInt8 :=
  match ksysRead L s.k s.tty cur fd buf size with
  | some (bytes, _, _) => bytes
  | none => []

/-- `open` starts a stream on the descriptor it takes, and `read` continues one. -/
def Streams.next (st : Streams) (L : Layout) (s s' : Sys) : Op → Streams
  | .call (.openFile path) => fun i fd =>
      if s.k.current = some i ∧ pcb L s.k i (.openedFiles fd) = 0 ∧
          pcb L s'.k i (.openedFiles fd) ≠ 0 then
        ⟨fileData L s.k (filesystemLocateFile L s.k path), []⟩
      else st i fd
  | .call (.read fd buf size) => fun i fd' =>
      if s.k.current = some i ∧ fd' = fd then
        { st i fd with bytes := (st i fd).bytes ++ deliveredBytes L s i fd buf size }
      else st i fd'
  | _ => st

/-- The states of a run with the streams. -/
abbrev StreamReach (L : Layout) (ok : Sys → Op → Prop) : Sys × Streams → Prop :=
  Recorded (Sys.Init L) (fun s op s' => s.step L op = some s') ok (fun _ _ => ⟨[], []⟩)
    fun st s s' op => st.next L s s' op

/-- Open descriptors are independent streams: each has an entry of its own in
`os_files`, for the file it was opened on, and has delivered the bytes of that
file up to its position. A read that delivers nothing finds it at the end. -/
structure DescriptorStreams (L : Layout) (s : Sys) (st : Streams) : Prop where
  openFile : ∀ i < numProcesses, ∀ fd < maxOpenFiles, pcb L s.k i (.openedFiles fd) ≠ 0 →
    OpenFile L s.k (pcb L s.k i (.openedFiles fd))
  unique : ∀ i < numProcesses, ∀ fd < maxOpenFiles, ∀ j < numProcesses, ∀ fd' < maxOpenFiles,
    pcb L s.k i (.openedFiles fd) ≠ 0 →
      pcb L s.k i (.openedFiles fd) = pcb L s.k j (.openedFiles fd') → i = j ∧ fd = fd'
  data : ∀ i < numProcesses, ∀ fd < maxOpenFiles, pcb L s.k i (.openedFiles fd) ≠ 0 →
    (st i fd).data = fileData L s.k (s.k.load (osFsIdx (pcb L s.k i (.openedFiles fd))))
  bytes : ∀ i < numProcesses, ∀ fd < maxOpenFiles, pcb L s.k i (.openedFiles fd) ≠ 0 →
    (st i fd).bytes = (st i fd).data.take (s.k.load (osRwpos (pcb L s.k i (.openedFiles fd))))
  whole : ∀ cur, s.k.current = some cur → Live L s.k cur → ∀ fd, 3 ≤ fd → fd < maxOpenFiles →
    pcb L s.k cur (.openedFiles fd) ≠ 0 → ∀ buf size k' tty', 0 < size →
      ksysRead L s.k s.tty cur fd buf size = some ([], k', tty') →
      (st cur fd).bytes = (st cur fd).data

/-! ## §2 The invariant -/

/-- `x` is the stream of the entry `h`. -/
def StreamOf (L : Layout) (k : KState) (h : Nat) (x : Stream) : Prop :=
  x.data = fileData L k (k.load (osFsIdx h)) ∧ x.bytes = x.data.take (k.load (osRwpos h))

/-- Each open descriptor has delivered the start of its file, up to `rwpos`. -/
def StreamInv (L : Layout) (k : KState) (st : Streams) : Prop :=
  ∀ i < 8, ∀ fd < 8, pcb L k i (.openedFiles fd) ≠ 0 →
    StreamOf L k (pcb L k i (.openedFiles fd)) (st i fd)

theorem fileData_congr (h : FsSame L k k') (hidx : idx < 12)
    (hsize : k.load (L.fsSize idx) ≤ maxFilesize) : fileData L k' idx = fileData L k idx := by
  have hin : ∀ x, L.fsData idx ≤ x → x < L.fsData idx + maxFilesize → L.InFiles x := by
    intro x h1 h2
    simp only [Layout.InFiles, Layout.fsData, Layout.fsFile, sizeofFilesystemFile, maxFsFiles,
      maxFilesize] at *
    omega
  rw [fileData, fileData, h.load_fsSize hidx]
  exact loadBytes_congr fun x h1 h2 => h x (hin x h1 (by omega))

/-- The entry `h` of `os_files` is for the same file, at the same position. -/
def EntrySame (k k' : KState) (h : Nat) : Prop :=
  k'.load (osFsIdx h) = k.load (osFsIdx h) ∧ k'.load (osRwpos h) = k.load (osRwpos h)

theorem StreamOf.same {h : Nat} {x : Stream} (hx : StreamOf L k h x) (hf : FilesInv L k)
    (ho : OpenFile L k h) (hs : EntrySame k k' h) (hfs : FsSame L k k') : StreamOf L k' h x := by
  rw [StreamOf, hs.1, hs.2, fileData_congr hfs ho.file (hf.sizes _ ho.file)]
  exact hx

/-- The descriptors that are open, but for those in `T`, were open before, with
the same entry. -/
def OpenSame (L : Layout) (k k' : KState) (T : Nat → Nat → Prop) : Prop :=
  ∀ i < 8, ∀ fd < 8, ¬ T i fd → pcb L k' i (.openedFiles fd) ≠ 0 →
    pcb L k' i (.openedFiles fd) = pcb L k i (.openedFiles fd) ∧
      EntrySame k k' (pcb L k i (.openedFiles fd))

section OpenSame

variable {T : Nat → Nat → Prop}

theorem FilesSame.entrySame {h : Nat} (hs : FilesSame L k k') (ho : ∃ n < maxOsFiles, h = L.osFile n) :
    EntrySame k k' h := by
  obtain ⟨n, hn, rfl⟩ := ho
  exact ⟨hs.load_osFile hn (by omega), hs.load_osFile hn (by omega)⟩

theorem FilesSame.openSame (hs : FilesSame L k k') (hf : FilesInv L k) : OpenSame L k k' T := by
  intro i hi fd hfd _ hne
  rw [hs.opened i hi fd hfd] at hne ⊢
  exact ⟨rfl, hs.entrySame (hf.openFile i hi fd hfd hne).handle⟩

theorem OpenSame.then (h : OpenSame L k k1 T) (hf : FilesInv L k) (hs : FilesSame L k1 k') :
    OpenSame L k k' T := by
  intro i hi fd hfd hT hne
  rw [hs.opened i hi fd hfd] at hne ⊢
  obtain ⟨hop, he1, he2⟩ := h i hi fd hfd hT hne
  rw [hop] at hne
  obtain ⟨h1, h2⟩ := hs.entrySame (hf.openFile i hi fd hfd hne).handle
  exact ⟨hop, h1.trans he1, h2.trans he2⟩

/-- Another entry was written. -/
theorem entrySame_setOsFile {m inUse pos : Nat} (hne : m ≠ n) :
    EntrySame k (setOsFile L k n inUse idx pos) (L.osFile m) :=
  ⟨osFile_setOsFile_of_ne (o := 8) (by omega) hne, osFile_setOsFile_of_ne (o := 4) (by omega) hne⟩

/-- An entry that no descriptor has was written. -/
theorem openSame_setOsFile {inUse pos : Nat} (hf : FilesInv L k) (hn : n < maxOsFiles)
    (hno : ∀ i < 8, ∀ fd < 8, pcb L k i (.openedFiles fd) ≠ L.osFile n) :
    OpenSame L k (setOsFile L k n inUse idx pos) T := by
  intro i hi fd hfd _ hne
  rw [pcb_setOsFile (f := .openedFiles fd) hn hi hfd] at hne ⊢
  obtain ⟨m, hm, heq⟩ := (hf.openFile i hi fd hfd hne).handle
  refine ⟨rfl, ?_⟩
  rw [heq]
  refine entrySame_setOsFile ?_
  rintro rfl
  exact hno i hi fd hfd heq

theorem entrySame_setPcb {v : Nat} {f : PcbField} {m : Nat} (hm : m < maxOsFiles) (hi : i < 8)
    (hf : f.InStruct) : EntrySame k (setPcb L k i f v) (L.osFile m) :=
  ⟨osFile_setPcb (o := 8) hm (by omega) hi hf, osFile_setPcb (o := 4) hm (by omega) hi hf⟩

theorem openSame_opened (idx : Nat) (hf : FilesInv L k) (hi : cur < 8) (hn : n < maxOsFiles) (hfd : fd < 8)
    (hfree : k.load (osInUse (L.osFile n)) = 0) :
    OpenSame L k (setPcb L (setOsFile L k n 1 idx 0) cur (.openedFiles fd) (L.osFile n))
      (fun i fd' => i = cur ∧ fd' = fd) := by
  intro i hi' fd' hfd' hT hne
  rw [opened_setPcb hfd hfd' (L.osFile_lt hn), if_neg hT] at hne ⊢
  obtain ⟨hop, he1, he2⟩ := openSame_setOsFile (T := fun _ _ => False) hf hn
    (fun _ hj _ hfdj => hf.not_opened hfree hj hfdj) i hi' fd' hfd' id hne
  rw [hop] at hne
  obtain ⟨m, hm, heq⟩ := (hf.openFile i hi' fd' hfd' hne).handle
  refine ⟨hop, ?_⟩
  rw [heq] at he1 he2 ⊢
  have h2 : EntrySame (setOsFile L k n 1 idx 0) (setPcb L (setOsFile L k n 1 idx 0) cur
      (.openedFiles fd) (L.osFile n)) (L.osFile m) := entrySame_setPcb hm hi hfd
  exact ⟨h2.1.trans he1, h2.2.trans he2⟩

theorem openSame_closed (hf : FilesInv L k) (hi : cur < 8) (hn : n < maxOsFiles) (hfd : fd < 8)
    (hentry : pcb L k cur (.openedFiles fd) = L.osFile n) :
    OpenSame L k (setOsFile L (setPcb L k cur (.openedFiles fd) 0) n 0 0xFFFFFFFF 0) T := by
  intro i hi' fd' hfd' _ hne
  rw [pcb_setOsFile (f := .openedFiles fd') hn hi' hfd', opened_setPcb hfd hfd' (by omega)] at hne ⊢
  have hT : ¬ (i = cur ∧ fd' = fd) := by
    intro h
    rw [if_pos h] at hne
    exact hne rfl
  rw [if_neg hT] at hne ⊢
  obtain ⟨m, hm, heq⟩ := (hf.openFile i hi' fd' hfd' hne).handle
  have hmn : m ≠ n := by
    rintro rfl
    exact hT (hf.unique i hi' fd' hfd' cur hi fd hfd hne (heq.trans hentry.symm))
  refine ⟨rfl, ?_⟩
  rw [heq]
  have h1 : EntrySame k (setPcb L k cur (.openedFiles fd) 0) (L.osFile m) :=
    entrySame_setPcb hm hi hfd
  have h2 : EntrySame (setPcb L k cur (.openedFiles fd) 0)
      (setOsFile L (setPcb L k cur (.openedFiles fd) 0) n 0 0xFFFFFFFF 0) (L.osFile m) :=
    entrySame_setOsFile hmn
  exact ⟨h2.1.trans h1.1, h2.2.trans h1.2⟩

end OpenSame

/-! ## §3 Steps and runs -/

section Steps

variable {st st' : Streams} {T : Nat → Nat → Prop}

/-- What remains to be shown of a step that is about the descriptors in `T`. -/
theorem StreamInv.step (h : StreamInv L k st) (hf : FilesInv L k) (hs : OpenSame L k k' T)
    (hfs : FsSame L k k')
    (hst : ∀ i < 8, ∀ fd < 8, ¬ T i fd → pcb L k' i (.openedFiles fd) ≠ 0 → st' i fd = st i fd)
    (hnew : ∀ i < 8, ∀ fd < 8, T i fd → pcb L k' i (.openedFiles fd) ≠ 0 →
      StreamOf L k' (pcb L k' i (.openedFiles fd)) (st' i fd)) : StreamInv L k' st' := by
  intro i hi fd hfd hne
  by_cases hT : T i fd
  · exact hnew i hi fd hfd hT hne
  · obtain ⟨hop, he⟩ := hs i hi fd hfd hT hne
    rw [hst i hi fd hfd hT hne]
    rw [hop] at hne ⊢
    exact (h i hi fd hfd hne).same hf (hf.openFile i hi fd hfd hne) he hfs

/-- Only `read` and a new descriptor change a stream. -/
theorem Streams.next_of_open (st : Streams) (hop : ∀ fd buf size, op ≠ .call (.read fd buf size))
    (hsame : pcb L s'.k i (.openedFiles fd) = pcb L s.k i (.openedFiles fd)) :
    st.next L s s' op i fd = st i fd := by
  cases op with
  | call c =>
    cases c with
    | read fd buf size => exact absurd rfl (hop fd buf size)
    | openFile path =>
      refine if_neg ?_
      rintro ⟨-, h0, hne⟩
      exact hne (hsame.trans h0)
    | _ => rfl
  | _ => rfl

/-- The stream of a descriptor that was just opened. -/
theorem streamOf_opened (hi : cur < 8) (hn : n < maxOsFiles) (hfd : fd < 8) (hidx : idx < 12)
    (hsize : k.load (L.fsSize idx) ≤ maxFilesize)
    (hs : FilesSame L (setPcb L (setOsFile L k n 1 idx 0) cur (.openedFiles fd) (L.osFile n)) k')
    (hfs : FsSame L k k') :
    StreamOf L k' (pcb L k' cur (.openedFiles fd)) ⟨fileData L k idx, []⟩ := by
  obtain ⟨-, h8, h4⟩ := osFile_setOsFile_same (L := L) k n (show 1 < 2 ^ 32 by omega)
    (show idx < 2 ^ 32 by omega) (show 0 < 2 ^ 32 by omega)
  obtain ⟨e1, e2⟩ := hs.entrySame ⟨n, hn, rfl⟩
  have h2 : EntrySame (setOsFile L k n 1 idx 0) (setPcb L (setOsFile L k n 1 idx 0) cur
      (.openedFiles fd) (L.osFile n)) (L.osFile n) := entrySame_setPcb hn hi hfd
  rw [hs.opened cur hi fd hfd, pcb_setPcb_same (L.osFile_lt hn), StreamOf, e1, e2, h2.1, h2.2, h8,
    h4, fileData_congr hfs hidx hsize, List.take_zero]
  exact ⟨rfl, rfl⟩

/-- What a safe event other than a read does to the streams. -/
theorem Effect.streamInv (he : Effect L s.k g op k1 g') (hf : FilesInv L s.k)
    (h : StreamInv L s.k st) (hs : FilesSame L k1 s'.k) (hfs : FsSame L s.k s'.k)
    (hop : ∀ fd buf size, op ≠ .call (.read fd buf size)) :
    StreamInv L s'.k (st.next L s s' op) := by
  have hkeep : OpenSame L s.k k1 (fun _ _ => False) → StreamInv L s'.k (st.next L s s' op) := by
    intro ho
    have ho' := ho.then hf hs
    refine h.step hf ho' hfs (fun i hi fd hfd hT hne => ?_) (fun _ _ _ _ hT _ => hT.elim)
    exact st.next_of_open hop (ho' i hi fd hfd hT hne).1
  cases he with
  | nothing => exact hkeep ((FilesSame.refl _).openSame hf)
  | scheduled _ => exact hkeep fun i hi fd hfd _ _ => ⟨rfl, rfl, rfl⟩
  | created hidx hok hc => exact hkeep (hc.filesSame.openSame hf)
  | forked hcur hl hslot hne hfk hI' =>
    exact hkeep ((hfk.filesSame (freeSlot_spec hslot).1).openSame hf)
  | execed hcur hl hidx hfile hok hfit hex => exact hkeep ((hex.filesSame hl.1).openSame hf)
  | added hcur hl ha hI' => exact hkeep ((ha.filesSame hl.1).openSame hf)
  | exited hcur hl hrel => exact hkeep ((hrel.filesSame hl.1).openSame hf)
  | killed hl hpid hrel => exact hkeep ((hrel.filesSame hl.1).openSame hf)
  | slept hcur hl => exact hkeep ((kprocYield_filesSame hl.1).openSame hf)
  | @opened cur idx n fd path hcur hl hidx hfile hn hfree h3 hfd hnull =>
    have ho := (openSame_opened idx hf hl.1 hn hfd hfree).then hf hs
    refine h.step hf ho hfs (fun i hi fd' hfd' hT hne => ?_) ?_
    · exact st.next_of_open hop (ho i hi fd' hfd' hT hne).1
    · rintro i hi fd' hfd' ⟨rfl, rfl⟩ hne
      have hnext : st.next L s s' (.call (.openFile path)) i fd' = ⟨fileData L s.k idx, []⟩ := by
        rw [← hfile]
        exact if_pos ⟨hcur, hnull, hne⟩
      rw [hnext]
      exact streamOf_opened hi hn hfd hidx (hf.sizes idx hidx) hs hfs
  | openedLeak hcur hl hidx hfile hn hfree hfull =>
    exact hkeep (openSame_setOsFile hf hn fun _ hj _ hfdj => hf.not_opened hfree hj hfdj)
  | fileRead hcur hl hfd ho hk1 hg1 => exact absurd rfl (hop _ _ _)
  | closed hcur hl h3 hfd hn hentry => exact hkeep (openSame_closed hf hl.1 hn hfd hentry)
  | stored hcur hl hc hk' hg' => exact hkeep (hg'.filesSame.openSame hf)

/-- A chunk behind the bytes before it. -/
theorem take_append_fileBytes {h : Nat} (ho : OpenFile L k h) (size : Nat) :
    (fileData L k (k.load (osFsIdx h))).take (k.load (osRwpos h)) ++ fileBytes L k h size =
      (fileData L k (k.load (osFsIdx h))).take (k.load (osRwpos h) + fileRest L k h size) := by
  have htake : ∀ p, p ≤ k.load (L.fsSize (k.load (osFsIdx h))) →
      (fileData L k (k.load (osFsIdx h))).take p = loadBytes k.mem (L.fsData (k.load (osFsIdx h))) p := by
    intro p hp
    obtain ⟨d, hd⟩ := Nat.exists_eq_add_of_le hp
    rw [fileData, hd, loadBytes_append, List.take_left' (length_loadBytes _ _ _)]
  have hpos := ho.position
  have hrest : k.load (osRwpos h) + fileRest L k h size ≤ k.load (L.fsSize (k.load (osFsIdx h))) := by
    unfold fileRest
    omega
  rw [htake _ hpos, htake _ hrest, loadBytes_append]
  rfl

/-- A read moves the position of one entry. -/
theorem openSame_fileRead {v : Nat} (hf : FilesInv L k) (hi : cur < 8) (hfd : fd < 8)
    (hne : pcb L k cur (.openedFiles fd) ≠ 0) (hs : FilesSame L k k1) :
    OpenSame L k (k1.store (osRwpos (pcb L k cur (.openedFiles fd))) v)
      (fun i fd' => i = cur ∧ fd' = fd) := by
  obtain ⟨n, hn, hh⟩ := (hf.openFile cur hi fd hfd hne).handle
  intro i hi' fd' hfd' hT hne'
  rw [hh] at hne' ⊢
  have hop : pcb L (k1.store (osRwpos (L.osFile n)) v) i (.openedFiles fd') =
      pcb L k i (.openedFiles fd') :=
    (pcb_store_osFile (f := .openedFiles fd') hn (by omega) hi' hfd').trans (hs.opened i hi' fd' hfd')
  rw [hop] at hne'
  obtain ⟨m, hm, heq⟩ := (hf.openFile i hi' fd' hfd' hne').handle
  have hmn : m ≠ n := by
    rintro rfl
    exact hT (hf.unique i hi' fd' hfd' cur hi fd hfd hne' (heq.trans hh.symm))
  obtain ⟨e1, e2⟩ := hs.entrySame ⟨m, hm, rfl⟩
  refine ⟨hop, ?_⟩
  rw [heq]
  exact ⟨(osFile_store_osFile (o := 4) (by omega) (show 8 + 4 ≤ 12 by omega) hmn).trans e1,
    (osFile_store_osFile (o := 4) (by omega) (show 4 + 4 ≤ 12 by omega) hmn).trans e2⟩

/-- The stream that was read from. -/
theorem streamOf_read {x : Stream} {size : Nat} (hf : FilesInv L k) (hi : cur < 8) (hfd : fd < 8)
    (hne : pcb L k cur (.openedFiles fd) ≠ 0) (hs : FilesSame L k k1)
    (hs' : FilesSame L (k1.store (osRwpos (pcb L k cur (.openedFiles fd)))
      (k.load (osRwpos (pcb L k cur (.openedFiles fd))) +
        fileRest L k (pcb L k cur (.openedFiles fd)) size)) k')
    (hfs : FsSame L k k') (hx : StreamOf L k (pcb L k cur (.openedFiles fd)) x) :
    StreamOf L k' (pcb L k' cur (.openedFiles fd))
      { x with bytes := x.bytes ++ fileBytes L k (pcb L k cur (.openedFiles fd)) size } := by
  have ho := hf.openFile cur hi fd hfd hne
  have hlen := take_append_fileBytes ho size
  have hpos := ho.position
  have hlt := load32_lt k.mem (L.fsSize (k.load (osFsIdx (pcb L k cur (.openedFiles fd)))))
  have hrest : fileRest L k (pcb L k cur (.openedFiles fd)) size ≤
      k.load (L.fsSize (k.load (osFsIdx (pcb L k cur (.openedFiles fd))))) -
        k.load (osRwpos (pcb L k cur (.openedFiles fd))) := Nat.min_le_right _ _
  obtain ⟨n, hn, hh⟩ := ho.handle
  have hopen : pcb L k' cur (.openedFiles fd) = L.osFile n := by
    rw [hs'.opened cur hi fd hfd, ← hh]
    rw [hh] at hs' ⊢
    exact ((pcb_store_osFile (f := .openedFiles fd) hn (by omega) hi hfd).trans
      (hs.opened cur hi fd hfd)).trans hh
  obtain ⟨hdata, hbytes⟩ := hx
  obtain ⟨e1, e2⟩ := hs'.entrySame ⟨n, hn, rfl⟩
  have hidx : k'.load (osFsIdx (L.osFile n)) = k.load (osFsIdx (L.osFile n)) := by
    refine e1.trans ?_
    rw [hh]
    refine Eq.trans ?_ (hs.entrySame ⟨n, hn, rfl⟩).1
    exact load32_store32_disjoint _ _ (by simp only [osFsIdx, osRwpos]; omega)
  have hrw : k'.load (osRwpos (L.osFile n)) = k.load (osRwpos (pcb L k cur (.openedFiles fd))) +
      fileRest L k (pcb L k cur (.openedFiles fd)) size := by
    refine e2.trans ?_
    have hsum : k.load (osRwpos (pcb L k cur (.openedFiles fd))) +
        fileRest L k (pcb L k cur (.openedFiles fd)) size < 2 ^ 32 := by
      simp only [KState.load] at *
      omega
    generalize k.load (osRwpos (pcb L k cur (.openedFiles fd))) +
        fileRest L k (pcb L k cur (.openedFiles fd)) size = v at *
    rw [hh]
    exact load32_store32_of_lt hsum
  rw [hopen, StreamOf, hidx, hrw, ← hh, fileData_congr hfs ho.file (hf.sizes _ ho.file)]
  refine ⟨hdata, ?_⟩
  simp only
  rw [hbytes, hdata]
  exact hlen

theorem SysInv.step_read {buf size : Nat} (hI : SysInv L s g) (h : StreamInv L s.k st)
    (hsafe : Op.Safe L s (.call (.read fd buf size)))
    (hstep : s.step L (.call (.read fd buf size)) = some s') :
    StreamInv L s'.k (st.next L s s' (.call (.read fd buf size))) := by
  have hfs := hI.step_fsSame hsafe hstep
  obtain ⟨cur, hcur, -, hlive, hcall⟩ := Sys.step_call_cases hstep
  obtain ⟨hopen, hbuf⟩ := hsafe cur hcur
  have hi : cur < 8 := hlive.1
  have hp := hI.inv.proc cur hlive
  simp only [Sys.call] at hcall
  split at hcall
  swap
  · cases hcall
  rename_i hlt
  obtain ⟨⟨bytes, k', tty'⟩, hread, hs'⟩ := Option.map_eq_some_iff.mp hcall
  have hk' : s'.k = returnValue L k' cur bytes.length := by rw [← hs']
  have hret : Inv L k' g → Live L k' cur → FilesSame L k' s'.k := by
    intro hI' hl'
    rw [hk']
    exact (returnValue_words bytes.length hI' hl').grow.filesSame
  have hst : ∀ i < 8, ∀ fd' < 8, ¬ (i = cur ∧ fd' = fd) → pcb L s'.k i (.openedFiles fd') ≠ 0 →
      st.next L s s' (.call (.read fd buf size)) i fd' = st i fd' := by
    intro i _ fd' _ hT _
    refine if_neg ?_
    rintro ⟨hc, rfl⟩
    exact hT ⟨Option.some.inj (hc.symm.trans hcur), rfl⟩
  -- the console and the two descriptors behind it are no files
  have hlow : fd < 3 → FilesSame L s.k k' → Inv L k' g → Live L k' cur →
      StreamInv L s'.k (st.next L s s' (.call (.read fd buf size))) := by
    intro h3 hs hI' hl'
    have hsame := hs.trans (hret hI' hl')
    refine h.step hI.files (hsame.openSame hI.files) hfs hst ?_
    rintro i - fd' hfd' ⟨rfl, rfl⟩ hne
    rw [hsame.opened i hi fd' hfd', hI.files.low i hi fd' h3] at hne
    exact absurd rfl hne
  obtain ⟨rfl, hb, -, hstore⟩ | ⟨h1, h3, -, rfl, -⟩ | ⟨h3, -, hd, hget, hr⟩ := ksysRead_cases hread
  · rw [readCount, if_pos rfl, ← (ttyRead_bytes size s.tty hI.tty).1, ← hb] at hbuf
    obtain ⟨hkm, hg⟩ := storeBuf_spec bytes hI.inv.kmem hp hi hlt.2.1 hbuf hstore
    exact hlow (by decide) hg.filesSame (hI.inv.pageWrites (fun _ _ hc => hc.not_table) hkm hg)
      (hg.live hlive)
  · exact hlow h3 (FilesSame.refl _) hI.inv hlive
  · obtain hlt3 | ⟨hfd, hne⟩ := hopen
    · omega
    have ho := hI.files.openFile cur hi fd hfd hne
    rw [kprocFileGet_eq hp hi hfd, Option.some.injEq] at hget
    rw [← hget] at hr
    rw [readCount, if_neg (by omega), if_neg (by omega)] at hbuf
    obtain ⟨k1, hk1, hg1, hkk, hb⟩ := filesystemFileRead_spec hI.inv.kmem hp hi ho
      (hI.files.sizes _ ho.file) hlt.2.1 hbuf hr
    have hlive' : Live L k' cur := by
      obtain ⟨n, hn, heq⟩ := ho.handle
      refine ⟨hi, ?_⟩
      rw [hkk, heq]
      simp only [osRwpos]
      rw [pcb_store_osFile (f := .state) hn (by omega) hi trivial]
      exact (hg1.live hlive).2
    have hI' : Inv L k' g := by
      rw [hkk]
      exact (fileRead_inv hI.inv hI.files ho hk1 hg1).1
    have hs' := hret hI' hlive'
    rw [hkk] at hs'
    refine h.step hI.files ((openSame_fileRead hI.files hi hfd hne hg1.filesSame).then hI.files hs')
      hfs hst ?_
    rintro i - fd' - ⟨rfl, rfl⟩ -
    have hnext : st.next L s s' (.call (.read fd' buf size)) i fd' =
        { st i fd' with
          bytes := (st i fd').bytes ++ fileBytes L s.k (pcb L s.k i (.openedFiles fd')) size } := by
      rw [← hb]
      have hbytes : deliveredBytes L s i fd' buf size = bytes := by
        rw [deliveredBytes, hread]
      rw [← hbytes]
      exact if_pos ⟨hcur, rfl⟩
    rw [hnext]
    exact streamOf_read hI.files hi hfd hne hg1.filesSame hs' hfs (h i hi fd' hfd hne)

/-- What a safe event does to the streams. -/
theorem SysInv.step_streams (hI : SysInv L s g) (h : StreamInv L s.k st) (hsafe : op.Safe L s)
    (hstep : s.step L op = some s') : StreamInv L s'.k (st.next L s s' op) := by
  by_cases hop : ∃ fd buf size, op = .call (.read fd buf size)
  · obtain ⟨fd, buf, size, rfl⟩ := hop
    exact hI.step_read h hsafe hstep
  · obtain ⟨k1, g1, he, ht, -⟩ := hI.step hsafe hstep
    exact he.streamInv hI.files h ht.grow.filesSame (hI.step_fsSame hsafe hstep)
      fun fd buf size heq => hop ⟨fd, buf, size, heq⟩

/-- At the start nothing is open. -/
theorem Started.streamInv {m : Mem} (hs : Started L s m k g) : StreamInv L s.k st := by
  intro i hi fd hfd hne
  rw [hs.created.filesSame.opened i hi fd hfd, hs.mem.opened_zero hs.booted hi hfd] at hne
  exact absurd rfl hne

theorem streamReach_inv {x : Sys × Streams} (h : StreamReach L (fun s op => op.Safe L s) x) :
    (∃ g, SysInv L x.1 g) ∧ StreamInv L x.1.k x.2 := by
  refine h.invariant (I := fun x => (∃ g, SysInv L x.1 g) ∧ StreamInv L x.1.k x.2) ?_ ?_
  · rintro ⟨s, st⟩ ⟨h0, rfl⟩
    obtain ⟨m, k, g, hs⟩ := h0.started
    exact ⟨⟨g, hs.sysInv⟩, hs.streamInv⟩
  · rintro ⟨s, st⟩ op ⟨s', st'⟩ ⟨⟨g, hI⟩, hst⟩ hok ⟨hstep, hnext⟩
    obtain ⟨_, g1, -, -, hI'⟩ := hI.step hok hstep
    refine ⟨⟨g1, hI'⟩, ?_⟩
    rw [hnext]
    exact hI.step_streams hst hok hstep

/-- A read of at least one byte that delivers none finds the position at the end. -/
theorem ksysRead_nothing {buf size : Nat} {tty' : Tty} (hI : SysInv L s g)
    (hlive : Live L s.k cur) (h3 : 3 ≤ fd) (hfd : fd < 8)
    (hne : pcb L s.k cur (.openedFiles fd) ≠ 0) (hsize : 0 < size)
    (h : ksysRead L s.k s.tty cur fd buf size = some ([], k', tty')) :
    s.k.load (L.fsSize (s.k.load (osFsIdx (pcb L s.k cur (.openedFiles fd))))) ≤
      s.k.load (osRwpos (pcb L s.k cur (.openedFiles fd))) := by
  have hp := hI.inv.proc cur hlive
  have ho := hI.files.openFile cur hlive.1 fd hfd hne
  obtain ⟨e1, e2, e3⟩ := ho.loadWords hp
  obtain ⟨rfl, -⟩ | ⟨-, hlt, -⟩ | ⟨-, -, hd, hget, hr⟩ := ksysRead_cases h
  · omega
  · omega
  · rw [kprocFileGet_eq hp hlive.1 hfd, Option.some.injEq] at hget
    rw [← hget] at hr
    simp only [filesystemFileRead, e1, e2, e3, Option.bind_some] at hr
    by_contra hlt
    obtain ⟨n, rfl⟩ := Nat.exists_eq_succ_of_ne_zero (by omega : size ≠ 0)
    rw [fileReadLoop, if_pos (by omega)] at hr
    simp only [Option.bind_eq_some_iff, Option.map_eq_some_iff] at hr
    obtain ⟨out, ⟨c, -, k1, -, rest, -, rfl⟩, k2, -, heq⟩ := hr
    cases heq

/-- In every run in which reads and closes are on open descriptors, and reads
into the caller's own pages, descriptors are independent streams. -/
theorem descriptor_streams (L : Layout) (h : StreamReach L (fun s op => op.Safe L s) (s, st)) :
    DescriptorStreams L s st := by
  obtain ⟨⟨g, hI⟩, hst⟩ := streamReach_inv h
  refine ⟨hI.files.openFile, hI.files.unique, fun i hi fd hfd hne => (hst i hi fd hfd hne).1,
    fun i hi fd hfd hne => (hst i hi fd hfd hne).2, ?_⟩
  intro cur _ hlive fd h3 hfd hne buf size k' tty' hsize hread
  obtain ⟨hdata, hbytes⟩ := hst cur hlive.1 fd hfd hne
  have hle := ksysRead_nothing hI hlive h3 hfd hne hsize hread
  rw [hbytes, List.take_of_length_le]
  rw [hdata, fileData, length_loadBytes]
  exact hle

end Steps

/-! ## §4 The first descriptor -/

/-- The first process opens its own file. -/
theorem exampleOpened (ok : Sys → Op → Prop) (h1 : ∀ s i, ok s (.schedule i))
    (h2 : ∀ s path, ok s (.call (.openFile path))) :
    ∃ s st g, StreamReach exampleLayout ok (s, st) ∧ Running exampleLayout s g 0 ∧
      pcb exampleLayout s.k 0 (.openedFiles 3) ≠ 0 ∧ StreamInv exampleLayout s.k st ∧
      st 0 3 = ⟨fileData exampleLayout (KState.init exampleMem) 2, []⟩ := by
  obtain ⟨s, g, hreach, he, -⟩ := exampleEntered ok h1
  obtain ⟨st, hst⟩ := hreach.recorded (fun _ _ => (⟨[], []⟩ : Stream))
    fun st s s' op => Streams.next st exampleLayout s s' op
  obtain ⟨s1, hstep, hone⟩ := he.hasOpened.exampleStep (by omega)
  have hne := hone.used le_rfl (by omega)
  have hnone : StreamInv exampleLayout s.k st := by
    intro i hi fd hfd hopen
    exact absurd (he.opened i hi fd hfd) hopen
  have hsafe : Op.Safe exampleLayout s (.call (.openFile examplePath)) := fun _ _ => trivial
  refine ⟨s1, Streams.next st exampleLayout s s1 (.call (.openFile examplePath)), g,
    .step hst (h2 s examplePath) ⟨hstep, rfl⟩, hone.running, hne,
    he.running.inv.step_streams hnone hsafe hstep, ?_⟩
  have hsize : (KState.init exampleMem).load (exampleLayout.fsSize 2) ≤ maxFilesize := by
    decide +kernel
  refine (if_pos ⟨he.running.current, he.opened 0 (by decide) 3 (by decide), hne⟩).trans ?_
  rw [filesystemLocateFile_congr he.files examplePath_length, examplePath_locate,
    fileData_congr he.files (by decide) hsize]

/-- The first process has opened its own file. -/
theorem descriptor_streams_opened : ∃ s st, s.k.current = some 0 ∧
    pcb exampleLayout s.k 0 (.openedFiles 3) ≠ 0 ∧ DescriptorStreams exampleLayout s st := by
  obtain ⟨s, st, g, hs, hr, hne, -, -⟩ := exampleOpened (fun s op => op.Safe exampleLayout s)
    (fun _ _ => trivial) (fun _ _ _ _ => trivial)
  exact ⟨s, st, hr.current, hne, descriptor_streams exampleLayout hs⟩

/-- The calls about files and processes, with reads and closes on open
descriptors only and images that can be loaded; the buffers may be anywhere. -/
def Op.FileCall (L : Layout) (s : Sys) : Op → Prop
  | .schedule _ | .call .fork | .call (.exit _) | .call (.kill _ _) | .call (.openFile _) => True
  | .call (.exec path argv) => Op.Safe L s (.call (.exec path argv))
  | .call (.read fd _ _) | .call (.close fd) => 3 ≤ fd ∧ fd < maxOpenFiles ∧
      ∀ cur, s.k.current = some cur → pcb L s.k cur (.openedFiles fd) ≠ 0
  | _ => False

/-- A byte of an entry is no byte of a control block. -/
theorem pcb_updateEntry {o : Nat} {f : PcbField} (k : KState) (hn : n < maxOsFiles) (ho : o < 12)
    (hi : i < 8) (hf : f.InStruct) (c : UInt8) :
    pcb L { k with mem := Function.update k.mem (L.osFile n + o) c } i f = pcb L k i f := by
  have hout := (L.osFile_static hn).2
  have hoff := PcbField.offset_lt hf
  refine load32_congr fun x h1 h2 => Function.update_of_ne ?_ ..
  rintro rfl
  refine hout (L.osFile n + o) (by omega) (by omega) ⟨i, hi, ?_⟩
  simp only [Layout.InPcb]
  omega

theorem Inv.updateEntry {o : Nat} (hI : Inv L k g) (hn : n < maxOsFiles) (ho : o < 12) (c : UInt8) :
    Inv L { k with mem := Function.update k.mem (L.osFile n + o) c } g := by
  have hend := (L.osFile_static hn).1
  refine hI.staticWrites (fun x hx => Function.update_of_ne (by omega) ..) ?_ rfl
  exact fun i hi f hf _ => pcb_updateEntry k hn ho hi hf c

/-- A read of one byte into the index of the file, in the entry of the file itself. -/
theorem filesystemFileRead_entry (hI : Inv L k g) (hlive : Live L k cur) (hn : n < maxOsFiles)
    (ho : OpenFile L k (L.osFile n))
    (hlt : k.load (osRwpos (L.osFile n)) < k.load (L.fsSize (k.load (osFsIdx (L.osFile n)))))
    (hsize : k.load (L.fsSize (k.load (osFsIdx (L.osFile n)))) ≤ maxFilesize)
    (hc : k.mem (L.fsData (k.load (osFsIdx (L.osFile n))) + k.load (osRwpos (L.osFile n))) = c) :
    ∃ k1, filesystemFileRead L k cur (L.osFile n) (osFsIdx (L.osFile n)) 1 = some ([c], k1) ∧
      Inv L k1 g ∧ Live L k1 cur ∧ k1.load (osFsIdx (L.osFile n)) % 256 = c.toNat ∧
      ∀ i < 8, ∀ f : PcbField, f.InStruct → pcb L k1 i f = pcb L k i f := by
  have hp := hI.proc cur hlive
  have he := L.end_le
  have hos := (L.osFile_static hn).1
  have hdata := L.fsData_static ho.file (hlt.trans_le hsize)
  simp only [vaUserBase] at he
  obtain ⟨e1, e2, e3⟩ := ho.loadWords hp
  have hload : loadByte L k cur
      (L.fsData (k.load (osFsIdx (L.osFile n))) + k.load (osRwpos (L.osFile n))) = _ :=
    loadByte_kernel hp (by simp only [Layout.freeRamEnd]; omega)
  have hstore : storeByte L k cur (osFsIdx (L.osFile n)) c = _ :=
    storeByte_static hp (by simp only [osFsIdx]; omega)
  -- the entry is no part of the tables, so the last store finds its word as before
  have hI1 := hI.updateEntry hn (show 8 < 12 by omega) c
  have hlive1 : Live L { k with mem := Function.update k.mem (L.osFile n + 8) c } cur := by
    refine ⟨hlive.1, ?_⟩
    rw [pcb_updateEntry (f := .state) k hn (by omega) hlive.1 trivial]
    exact hlive.2
  have hpos : storeWord L { k with mem := Function.update k.mem (osFsIdx (L.osFile n)) c } cur
      (osRwpos (L.osFile n)) (k.load (osRwpos (L.osFile n)) + 1) = _ :=
    storeWord_static (hI1.proc cur hlive1) hI1.kmem (L.osFile_offPagetable hn hlive.1 (by omega))
  have hsame : ∀ i < 8, ∀ f : PcbField, f.InStruct →
      pcb L (KState.store { k with mem := Function.update k.mem (osFsIdx (L.osFile n)) c }
        (osRwpos (L.osFile n)) (k.load (osRwpos (L.osFile n)) + 1)) i f = pcb L k i f := by
    intro i hi f hf
    exact (pcb_store_osFile hn (show 4 + 4 ≤ 12 by omega) hi hf).trans
      (pcb_updateEntry k hn (by omega) hi hf c)
  refine ⟨KState.store { k with mem := Function.update k.mem (osFsIdx (L.osFile n)) c }
    (osRwpos (L.osFile n)) (k.load (osRwpos (L.osFile n)) + 1), ?_, ?_, ⟨hlive.1, ?_⟩, ?_, hsame⟩
  · have hmod : osRwpos (L.osFile n) % 2 ^ 32 = osRwpos (L.osFile n) := by
      simp only [osRwpos]
      omega
    rw [filesystemFileRead, e1, Option.bind_some, e2, Option.bind_some, e3, Option.bind_some,
      fileReadLoop, if_pos hlt, Nat.mod_eq_of_lt (by omega), hload, Option.bind_some, hc, hstore,
      Option.bind_some, fileReadLoop, Option.map_some, Option.bind_some, hmod]
    simp only [hpos, Option.map_some]
  · refine hI1.staticWrites (fun x hx => store32_outside _ _ _ ?_)
      (fun i hi f hf _ => pcb_store_osFile hn (show 4 + 4 ≤ 12 by omega) hi hf) rfl
    simp only [osRwpos]
    omega
  · rw [hsame cur hlive.1 .state trivial]
    exact hlive.2
  · have hdisj : (KState.store { k with mem := Function.update k.mem (osFsIdx (L.osFile n)) c }
        (osRwpos (L.osFile n)) (k.load (osRwpos (L.osFile n)) + 1)).load (osFsIdx (L.osFile n)) =
        load32 (Function.update k.mem (osFsIdx (L.osFile n)) c) (osFsIdx (L.osFile n)) :=
      load32_store32_disjoint _ _ (by simp only [osRwpos, osFsIdx]; omega)
    rw [hdisj, load32_mod, Function.update_self]

/-- `ksys_read` checks no buffer: the first byte of the file, read into the
index of its own entry, makes it no index of a file. -/
theorem read_overwrites_entry : ¬ ∀ s st,
    StreamReach exampleLayout (fun s op => op.FileCall exampleLayout s) (s, st) →
      DescriptorStreams exampleLayout s st := by
  intro hall
  obtain ⟨s, st, g, hs, hr, hne, hst, hstart⟩ :=
    exampleOpened (fun s op => op.FileCall exampleLayout s) (fun _ _ => trivial) (fun _ _ => trivial)
  have hlive := hr.live
  have hp := hr.inv.inv.proc 0 hlive
  have ho := hr.inv.files.openFile 0 (by decide) 3 (by decide) hne
  obtain ⟨hdata, hbytes⟩ := hst 0 (by decide) 3 (by decide) hne
  have hget := kprocFileGet_eq hp (by decide) (show 3 < 8 by decide)
  obtain ⟨n, hn, hentry⟩ := ho.handle
  rw [hentry] at ho hdata hbytes hget
  -- nothing has been read yet
  obtain ⟨hsize, hhead⟩ := exampleFile_head
  rw [hstart] at hdata hbytes
  simp only at hdata hbytes
  have hlen := congrArg List.length hdata
  rw [fileData, fileData, length_loadBytes, length_loadBytes, hsize] at hlen
  have hzero : s.k.load (osRwpos (exampleLayout.osFile n)) = 0 := by
    have h := congrArg List.length hbytes
    rw [List.length_take, fileData, length_loadBytes, hsize, List.length_nil] at h
    omega
  have hfirst : s.k.mem (exampleLayout.fsData (s.k.load (osFsIdx (exampleLayout.osFile n))) +
      s.k.load (osRwpos (exampleLayout.osFile n))) = 0x7F := by
    rw [fileData, fileData, hsize, ← hlen, loadBytes_succ _ _ 91, loadBytes_succ _ _ 91,
      List.cons.injEq] at hdata
    rw [hzero, Nat.add_zero, ← hdata.1, hhead]
  obtain ⟨k1, hread, hI1, hlive1, hidx, hpcb⟩ := filesystemFileRead_entry hr.inv.inv hlive hn ho
    (by omega) (hr.inv.files.sizes _ ho.file) hfirst
  -- the event
  have hbuf : osFsIdx (exampleLayout.osFile n) < 2 ^ 32 := by
    have he := exampleLayout.end_le
    have hos := (exampleLayout.osFile_static hn).1
    simp only [vaUserBase, osFsIdx] at he hos ⊢
    omega
  have hstep : s.step exampleLayout (.call (.read 3 (osFsIdx (exampleLayout.osFile n)) 1)) =
      some { s with k := returnValue exampleLayout k1 0 1 } := by
    rw [hr.step_call]
    simp only [Sys.call]
    rw [if_pos ⟨by decide, hbuf, by decide⟩, ksysRead, if_neg (by decide), if_neg (by decide), hget,
      Option.bind_some, hread]
    rfl
  have hevent : Op.FileCall exampleLayout s
      (.call (.read 3 (osFsIdx (exampleLayout.osFile n)) 1)) := by
    refine ⟨le_rfl, by decide, fun cur hcur => ?_⟩
    rw [hr.current, Option.some.injEq] at hcur
    rw [← hcur]
    exact hne
  -- the descriptor is still open, and its entry is for file 127 or above
  have hw := returnValue_words 1 hI1 hlive1
  have hopened : pcb exampleLayout (returnValue exampleLayout k1 0 1) 0 (.openedFiles 3) =
      exampleLayout.osFile n := by
    rw [hw.pcb (f := .openedFiles 3) (by decide) (show 3 < 8 by decide),
      hpcb 0 (by decide) (.openedFiles 3) (show 3 < 8 by decide), hentry]
  have hfinal := (hall _ _ (.step hs hevent ⟨hstep, rfl⟩)).openFile 0 (by decide) 3 (by decide)
  simp only [hopened] at hfinal
  have hfile := (hfinal (hentry ▸ hne)).file
  rw [(hw.grow.filesSame.entrySame ⟨n, hn, rfl⟩).1] at hfile
  simp only [maxFsFiles, UInt8.reduceToNat] at hfile hidx
  omega

end Risky321.Kernel
