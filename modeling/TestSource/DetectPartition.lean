import TestSource.MountLog
import TestSource.MountTable
import TestSource.Registry

/- xl_usb_mng.c: mnt_usb_detect_partition, one pass over the partitions of a disk. The
   array of records is allocated without being cleared. -/
namespace TestSource
open LinkedHeap OrderedMap Runs

def DISK_MOUNTED : Int := 0

def DISK_UNMOUNTED : Int := 1

/-- A disk the probe found, with what access and opendir answer about its nodes. -/
structure PluggedDisk where
  nDiskId : Nat
  szDiskName : CStr
  scanned : szDiskName ∈ scanNames
  access : CStr → Bool
  opendir : Bool

def partPath (szDiskName : CStr) (nPartitionIndex : Nat) : CStr :=
  if ['s', 'd'] <+: szDiskName then devPath szDiskName ++ Nat.toDigits 10 nPartitionIndex
  else devPath szDiskName ++ 'p' :: Nat.toDigits 10 nPartitionIndex

def PluggedDisk.hasNode (disk : PluggedDisk) (nPartitionIndex : Nat) : Bool :=
  disk.access (partPath disk.szDiskName nPartitionIndex)

def countNodes (node : Nat → Bool) : Nat × Nat :=
  (List.range 64).foldl (fun r nIndex => if node nIndex then (r.1 + 1, nIndex) else r) (0, 0)

def mntUsbGetPartitionCnt (disk : PluggedDisk) (pMaxPartIndex : Nat) : Int × Nat :=
  if !disk.opendir then (-1, pMaxPartIndex)
  else
    let r := if ['s', 'd'] <+: disk.szDiskName then
        countNodes fun nIndex => disk.access (devPath disk.szDiskName ++ Nat.toDigits 10 nIndex)
      else if ['m', 'm', 'c', 'b', 'l', 'k'] <+: disk.szDiskName then
        countNodes fun nIndex => disk.access (devPath disk.szDiskName ++ 'p' :: Nat.toDigits 10 nIndex)
      else (0, 0)
    (r.1, r.2)

structure Statfs where
  fType : Nat
  fBsize : Nat
  fBlocks : Nat
  fBfree : Nat

/-- What one pass finds: the mount table, what the allocated array holds before it is
    written, the answers of statfs, and the label an ext3 partition can be read for. -/
structure PassView where
  table : List MountEntry
  array : Nat → PartitionInfo
  statfs : CStr → Option Statfs
  ext3Label : CStr → Option CStr

def mntUsbReadPartitionSpace (view : PassView) (r : PartitionInfo) : PartitionInfo :=
  match view.statfs r.szMountDir with
  | none => r
  | some fs =>
      let freespace := BitVec.ofNat 64 fs.fBfree * BitVec.ofNat 64 fs.fBsize
      let totalspace := BitVec.ofNat 64 fs.fBlocks * BitVec.ofNat 64 fs.fBsize
      { r with u64Capacity := totalspace.toNat, u64Used := (totalspace - freespace).toNat }

def EXT3_SUPER_MAGIC : Nat := 0xEF53
def MSDOS_SUPER_MAGIC : Nat := 0x4d44
def NTFS_SB_MAGIC : Nat := 0x5346544e
def NTFS_MAGIC : Nat := 0x65735546

def mntUsbGetLabel (view : PassView) (r : PartitionInfo) : PartitionInfo :=
  match view.statfs r.szMountDir with
  | none => r
  | some fs =>
      if fs.fType = EXT3_SUPER_MAGIC then
        { r with szVolume := (view.ext3Label r.szPartName).getD r.szVolume }
      else if fs.fType = MSDOS_SUPER_MAGIC ∨ fs.fType = NTFS_SB_MAGIC ∨ fs.fType = NTFS_MAGIC then
        { r with szVolume := "ntfslabel".toList }
      else { r with szVolume := "unknow label".toList }

def gatherRecord (disk : PluggedDisk) (view : PassView) (nPartitionIndex : Nat)
    (psTmpPartition : PartitionInfo) : Option PartitionInfo := do
  let r := { psTmpPartition with
    szPartName := partPath disk.szDiskName nPartitionIndex
    nUSBDiskId := disk.nDiskId
    nPatitionId := nPartitionIndex
    szMountDir := [] }
  match ← mntUsbGetMountPath (mountLog disk.szDiskName view.table) r.szPartName with
  | none => some { r with bMounted := DISK_UNMOUNTED }
  | some (szMountDir, map_index) =>
      let r := { r with szMountDir := szMountDir, bMounted := DISK_MOUNTED, nMapIndex := map_index }
      some (mntUsbGetLabel view (mntUsbReadPartitionSpace view r))

/-- The rounds of the do loop up to the last index; it also ends with the last record. -/
def gatherLoop (disk : PluggedDisk) (view : PassView) (nPartitionCnt : Nat) :
    Nat → Nat → Nat → Option (List PartitionInfo)
  | 0, _, _ => some []
  | rounds + 1, nPartitionIndex, n =>
      if disk.hasNode nPartitionIndex then do
        let r ← gatherRecord disk view nPartitionIndex (view.array n)
        if n + 1 ≥ nPartitionCnt then some [r]
        else do
          let rest ← gatherLoop disk view nPartitionCnt rounds (nPartitionIndex + 1) (n + 1)
          some (r :: rest)
      else gatherLoop disk view nPartitionCnt rounds (nPartitionIndex + 1) n

structure PassState where
  query : QueryState
  statics : MountStatics

def mntUsbDetectPartition (z : WordSize) (disk : PluggedDisk) (view : PassView) (s : PassState) :
    Option (ErrorNum × PassState) :=
  let log := mountLog disk.szDiskName view.table
  let made := mntUsbCreateMountLog z (s.query.usbThread disk.nDiskId).detectStat (some log.length)
    s.statics
  let s : PassState := ⟨s.query.setStat disk.nDiskId made.2.1, made.2.2⟩
  if made.1 ≠ .ok then some (made.1, s)
  else
    let counted := mntUsbGetPartitionCnt disk 1
    if 0 ≥ counted.1 then some (.errorFailed, s)
    else do
      let psTmpPartition ← gatherLoop disk view counted.1.toNat (counted.2 + 1) 0 0
      let r ← mntUsbInsertPartitionList (some psTmpPartition) counted.1 s.query.parts
      some (r.1, ⟨{ s.query with parts := r.2 }, s.statics⟩)

def ShowsMount (table : List MountEntry) (x : PartitionInfo) : Prop :=
  match mountPoint table x.szPartName with
  | some dir => x.bMounted = DISK_MOUNTED ∧ x.szMountDir = dir
  | none => x.bMounted = DISK_UNMOUNTED

/-- The log is not empty and, unless the disk has just been plugged in, not of the size
    of the last one. -/
def Looks (z : WordSize) (disk : PluggedDisk) (s : PassState) (view : PassView) : Prop :=
  let size := logSize z (some (mountLog disk.szDiskName view.table).length)
  0 < size ∧
    ((s.query.usbThread disk.nDiskId).detectStat = .plugIn ∨ s.statics.nPresize ≠ size)

def QueryState.logged (s : QueryState) (d : Nat) : QueryState :=
  let stat := (s.usbThread d).detectStat
  s.setStat d (if stat = .plugIn then .zero else stat)

def present (disk : PluggedDisk) : List Nat :=
  if disk.opendir then (List.range 64).filter disk.hasNode else []

structure Gathered (disk : PluggedDisk) (table : List MountEntry) (x : PartitionInfo) : Prop where
  own : x.nUSBDiskId = disk.nDiskId
  name : x.szPartName = partPath disk.szDiskName x.nPatitionId
  shows : ShowsMount table x

theorem opendir_of_present {disk : PluggedDisk} (nonempty : present disk ≠ []) :
    disk.opendir = true := by
  by_contra missing
  exact nonempty (if_neg missing)

theorem shows_same_iff {a b : List MountEntry} {x : PartitionInfo} (shown : ShowsMount a x) :
    ShowsMount b x ↔ mountPoint b x.szPartName = mountPoint a x.szPartName := by
  unfold ShowsMount at shown ⊢
  cases old : mountPoint a x.szPartName with
  | none =>
    rw [old] at shown
    cases new : mountPoint b x.szPartName with
    | none => simp [shown]
    | some dir => simp [shown, DISK_MOUNTED, DISK_UNMOUNTED]
  | some last =>
    rw [old] at shown
    cases new : mountPoint b x.szPartName with
    | none => simp [shown, DISK_MOUNTED, DISK_UNMOUNTED]
    | some dir => simp [shown, eq_comm]

section Count
variable (node : Nat → Bool)

theorem count_rounds (m : Nat) :
    let r := (List.range m).foldl (fun r i => if node i then (r.1 + 1, i) else r) (0, 0)
    r.1 = ((List.range m).filter node).length ∧ (r.2 = 0 ∨ r.2 < m) ∧
      ∀ i < m, node i = true → i ≤ r.2 := by
  induction m with
  | zero => simp
  | succ m ih =>
    obtain ⟨number, low, last⟩ := ih
    simp only [List.range_succ, List.foldl_append, List.foldl_cons, List.foldl_nil,
      List.filter_append, List.length_append]
    by_cases there : node m = true
    · simp only [there, ↓reduceIte, number, List.filter_cons_of_pos, List.filter_nil,
        List.length_singleton, true_and]
      constructor
      · omega
      · intro i below _
        omega
    · simp only [there, number, List.filter_cons, List.filter_nil, Bool.false_eq_true, ↓reduceIte,
        List.length_nil, Nat.add_zero, true_and]
      refine ⟨by omega, ?_⟩
      intro i below found
      have other : i ≠ m := fun same => there (same ▸ found)
      exact last i (by omega) found

theorem count_last (m : Nat) :
    let r := (List.range m).foldl (fun r i => if node i then (r.1 + 1, i) else r) (0, 0)
    0 < r.1 → node r.2 = true ∧ r.2 < m := by
  induction m with
  | zero => simp
  | succ m ih =>
    simp only [List.range_succ, List.foldl_append, List.foldl_cons, List.foldl_nil]
    intro some
    by_cases there : node m = true
    · simp [there]
    · simp only [there, Bool.false_eq_true, ↓reduceIte] at some ⊢
      obtain ⟨found, below⟩ := ih some
      exact ⟨found, by omega⟩

theorem filter_range_cut {k m : Nat} (fewer : k ≤ m) (none : ∀ i, k ≤ i → i < m → node i = false) :
    (List.range m).filter node = (List.range k).filter node := by
  obtain ⟨n, rfl⟩ := Nat.exists_eq_add_of_le fewer
  have rest : ((List.range n).map (k + ·)).filter node = [] := by
    simp only [List.filter_eq_nil_iff, List.mem_map, List.mem_range]
    rintro _ ⟨i, below, rfl⟩
    simp [none (k + i) (by omega) (by omega)]
  rw [List.range_add, List.filter_append, rest, List.append_nil]

theorem countNodes_spec :
    (countNodes node).1 = ((List.range 64).filter node).length ∧
    (List.range ((countNodes node).2 + 1)).filter node = (List.range 64).filter node := by
  obtain ⟨number, low, last⟩ := count_rounds node 64
  refine ⟨number, ?_⟩
  symm
  unfold countNodes
  apply filter_range_cut node (by omega)
  intro i above below
  by_contra there
  have := last i below (by simpa using there)
  omega

end Count

section Gather
variable (disk : PluggedDisk)

theorem partitionCnt_scanned (dir : disk.opendir = true) (pMaxPartIndex : Nat) :
    mntUsbGetPartitionCnt disk pMaxPartIndex =
      (((countNodes disk.hasNode).1 : Int), (countNodes disk.hasNode).2) := by
  unfold mntUsbGetPartitionCnt PluggedDisk.hasNode partPath
  by_cases sd : ['s', 'd'] <+: disk.szDiskName
  · simp only [dir, sd, Bool.not_true, Bool.false_eq_true, ↓reduceIte]
  · have mmc : ['m', 'm', 'c', 'b', 'l', 'k'] <+: disk.szDiskName := by
      rcases List.mem_append.mp disk.scanned with first | second
      · obtain ⟨i, _, name⟩ := List.mem_map.mp first
        rw [← name] at sd
        exact absurd (List.prefix_append ['s', 'd'] _) sd
      · obtain ⟨i, _, name⟩ := List.mem_map.mp second
        rw [← name]
        exact List.prefix_append _ _
    simp only [dir, sd, mmc, Bool.not_true, Bool.false_eq_true, ↓reduceIte]

theorem count_present (nonempty : present disk ≠ []) (pMaxPartIndex : Nat) :
    mntUsbGetPartitionCnt disk pMaxPartIndex =
      (((present disk).length : Int), (countNodes disk.hasNode).2) := by
  have dir := opendir_of_present nonempty
  have all : present disk = (List.range 64).filter disk.hasNode := if_pos dir
  rw [partitionCnt_scanned disk dir, (countNodes_spec disk.hasNode).1, all]

theorem count_none (none : present disk = []) (pMaxPartIndex : Nat) :
    (mntUsbGetPartitionCnt disk pMaxPartIndex).1 ≤ 0 := by
  unfold present at none
  by_cases dir : disk.opendir = true
  · rw [if_pos dir] at none
    rw [partitionCnt_scanned disk dir, (countNodes_spec disk.hasNode).1, none]
    simp
  · simp [mntUsbGetPartitionCnt, dir]

theorem name_in_partPath (i : Nat) : disk.szDiskName <:+: partPath disk.szDiskName i := by
  have whole : disk.szDiskName <:+: devPath disk.szDiskName := (List.suffix_append _ _).isInfix
  unfold partPath
  split
  · exact whole.trans (List.prefix_append _ _).isInfix
  · exact whole.trans (List.prefix_append _ _).isInfix

theorem space_label_frame (view : PassView) (r : PartitionInfo) :
    ∃ szVolume u64Capacity u64Used, mntUsbGetLabel view (mntUsbReadPartitionSpace view r) =
      { r with szVolume := szVolume, u64Capacity := u64Capacity, u64Used := u64Used } := by
  cases fs : view.statfs r.szMountDir with
  | none =>
    refine ⟨r.szVolume, r.u64Capacity, r.u64Used, ?_⟩
    simp only [mntUsbGetLabel, mntUsbReadPartitionSpace, fs]
  | some fs' =>
    simp only [mntUsbReadPartitionSpace, mntUsbGetLabel, fs]
    split
    · exact ⟨_, _, _, rfl⟩
    · split
      · exact ⟨_, _, _, rfl⟩
      · exact ⟨_, _, _, rfl⟩

variable {view : PassView} (fits : ∀ e ∈ grepTable disk.szDiskName view.table, e.Fits)
include fits

theorem gatherRecord_spec (i : Nat) (slot : PartitionInfo) :
    ∃ r, gatherRecord disk view i slot = some r ∧ r.nPatitionId = i ∧
      Gathered disk view.table r := by
  obtain ⟨k, found⟩ := getMountPath_spec (name_in_partPath disk i) fits
  unfold gatherRecord
  simp only [found, Option.bind_eq_bind, Option.bind_some]
  cases point : mountPoint view.table (partPath disk.szDiskName i) with
  | none => exact ⟨_, rfl, rfl, rfl, rfl, by simp [ShowsMount, point]⟩
  | some dir =>
    simp only [Option.map_some]
    obtain ⟨szVolume, u64Capacity, u64Used, described⟩ := space_label_frame view
      { slot with
        szPartName := partPath disk.szDiskName i
        nUSBDiskId := disk.nDiskId
        nPatitionId := i
        szMountDir := dir
        bMounted := DISK_MOUNTED
        nMapIndex := k }
    rw [described]
    exact ⟨_, rfl, rfl, rfl, rfl, by simp [ShowsMount, point]⟩

/-- The loop gathers the partitions of its indices in their order, up to the number it is
    told. -/
theorem gatherLoop_spec (rounds i : Nat) {cnt n : Nat} (room : n < cnt) :
    ∃ batch, gatherLoop disk view cnt rounds i n = some batch ∧
      batch.map PartitionInfo.nPatitionId =
        ((List.range' i rounds).filter disk.hasNode).take (cnt - n) ∧
      ∀ r ∈ batch, Gathered disk view.table r := by
  induction rounds generalizing i n with
  | zero => exact ⟨[], rfl, by simp, by simp⟩
  | succ rounds ih =>
    unfold gatherLoop
    rw [List.range'_succ]
    by_cases there : disk.hasNode i = true
    · obtain ⟨r, gathered, index, own⟩ := gatherRecord_spec disk fits i (view.array n)
      rw [List.filter_cons_of_pos there, if_pos there, gathered]
      simp only [Option.bind_eq_bind, Option.bind_some]
      by_cases last : n + 1 ≥ cnt
      · have one : cnt - n = 1 := by omega
        exact ⟨[r], if_pos last, by simp [one, index], by simpa using own⟩
      · obtain ⟨batch, run, indices, all⟩ := ih (i + 1) (n := n + 1) (by omega)
        have more : cnt - n = (cnt - (n + 1)) + 1 := by omega
        refine ⟨r :: batch, by simp [last, run], by simp [index, indices, more], ?_⟩
        intro x mem
        rcases List.mem_cons.mp mem with rfl | later
        · exact own
        · exact all x later
    · rw [List.filter_cons_of_neg there, if_neg there]
      exact ih (i + 1) room

theorem gather_present (nonempty : present disk ≠ []) :
    ∃ batch cnt max, mntUsbGetPartitionCnt disk 1 = (((cnt : Nat) : Int), max) ∧
      gatherLoop disk view cnt (max + 1) 0 0 = some batch ∧ batch.length = cnt ∧ batch ≠ [] ∧
      batch.map PartitionInfo.nPatitionId = present disk ∧
      ∀ x ∈ batch, Gathered disk view.table x := by
  have all : present disk = (List.range 64).filter disk.hasNode := if_pos (opendir_of_present nonempty)
  have cut := (countNodes_spec disk.hasNode).2
  rw [← all, List.range_eq_range'] at cut
  obtain ⟨batch, run, indices, gathered⟩ :=
    gatherLoop_spec disk fits ((countNodes disk.hasNode).2 + 1) 0 (List.length_pos_of_ne_nil nonempty)
  rw [cut, Nat.sub_zero, List.take_length] at indices
  refine ⟨batch, _, _, count_present disk nonempty 1, run, ?_, ?_, indices, gathered⟩
  · rw [← indices, List.length_map]
  · intro empty
    rw [empty] at indices
    exact nonempty indices.symm

end Gather

section Pass
variable (z : WordSize) (disk : PluggedDisk) (s : PassState) (view : PassView)

theorem create_log_cases :
    let made := mntUsbCreateMountLog z (s.query.usbThread disk.nDiskId).detectStat
      (some (mountLog disk.szDiskName view.table).length) s.statics
    made.1 = .ok ∧ Looks z disk s view ∨ made.1 = .errorFailed ∧ ¬ Looks z disk s view := by
  have step := (createMountLog_step z s.statics ⟨disk.nDiskId,
    (s.query.usbThread disk.nDiskId).detectStat,
    some (mountLog disk.szDiskName view.table).length⟩).1
  simp only [verdict] at step
  simp only [step, Looks]
  split
  · right
    refine ⟨rfl, ?_⟩
    omega
  · rename_i more
    split
    · rename_i differs
      exact .inl ⟨rfl, by omega, differs⟩
    · rename_i same
      exact .inr ⟨rfl, fun looks => same looks.2⟩

theorem create_log_stat (d : Nat) (stSize : Option Nat) :
    s.query.setStat d (mntUsbCreateMountLog z (s.query.usbThread d).detectStat stSize s.statics).2.1 =
      s.query.logged d := by
  unfold mntUsbCreateMountLog QueryState.logged
  dsimp only
  split
  · rfl
  · rfl

theorem detect_skips {z disk s view} (nothing : ¬ Looks z disk s view ∨ present disk = []) :
    ∃ statics, mntUsbDetectPartition z disk view s =
      some (.errorFailed, ⟨s.query.logged disk.nDiskId, statics⟩) := by
  unfold mntUsbDetectPartition
  simp only [create_log_stat]
  rcases create_log_cases z disk s view with ⟨made, looks⟩ | ⟨failed, _⟩
  · have none : present disk = [] := nothing.resolve_left (not_not_intro looks)
    have counted := count_none disk none 1
    simp only [made, ne_eq, not_true, ↓reduceIte, ge_iff_le, counted]
    exact ⟨_, rfl⟩
  · simp only [failed, ne_eq, reduceCtorEq, not_false_eq_true, ↓reduceIte]
    exact ⟨_, rfl⟩

theorem detect_records {z disk s view} (looks : Looks z disk s view) (there : present disk ≠ [])
    (fits : ∀ e ∈ grepTable disk.szDiskName view.table, e.Fits) :
    ∃ statics batch, batch ≠ [] ∧ batch.map PartitionInfo.nPatitionId = present disk ∧
      (∀ x ∈ batch, Gathered disk view.table x) ∧
      mntUsbDetectPartition z disk view s =
        (mntUsbInsertPartitionList (some batch) batch.length s.query.parts).map fun r =>
          (r.1, ⟨{ s.query.logged disk.nDiskId with parts := r.2 }, statics⟩) := by
  obtain ⟨batch, cnt, max, counted, run, length, nonempty, indices, gathered⟩ :=
    gather_present disk fits there
  have positive := List.length_pos_of_ne_nil nonempty
  have more : ¬ (0 : Int) ≥ cnt := by omega
  have outcome := create_log_cases z disk s view
  unfold mntUsbDetectPartition
  simp only [create_log_stat]
  dsimp only at outcome
  generalize mntUsbCreateMountLog z (s.query.usbThread disk.nDiskId).detectStat
    (some (mountLog disk.szDiskName view.table).length) s.statics = made at outcome ⊢
  rcases outcome with ⟨ok, _⟩ | ⟨_, skipped⟩
  · refine ⟨made.2.2, batch, nonempty, indices, gathered, ?_⟩
    simp only [ok, counted, more, ne_eq, not_true, ↓reduceIte, Int.toNat_natCast, run,
      Option.bind_eq_bind, Option.bind_some, length, Option.map_eq_bind]
    rfl
  · exact absurd looks skipped

end Pass

end TestSource
