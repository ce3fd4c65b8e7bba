import TestSource.Device
import TestSource.Partition
import TestSource.Splice

/- xl_usb_mng.c: the queries for the partitions of a disk, one for USB disks and one for SD
   cards. The result array is sized by one walk over the list and filled by another. A
   counter fits in its type, since no target has room for so many nodes. -/
namespace TestSource
open LinkedHeap Splice

def mntUsbCheckDiskId (nUSBDiskID : Nat) (s : DevState) : Option ErrorNum :=
  if s.gPsUSBDevHead = 0 then some .errorFailed
  else
    s.heap.walk (fun psUSBDevItem eError =>
      if ALL_USB_DISK = nUSBDiskID then
        if psUSBDevItem.nDiskId > 0 then .done .ok else .yield eError
      else if psUSBDevItem.nDiskId = nUSBDiskID then .done .ok
      else .yield eError) s.heap.top s.gPsUSBDevHead .errorFailed

def getPartitionCount (szMedium : CStr) (nUSBDiskID : Nat) (s : PartState) : Option Nat :=
  if s.sPsPartHead = 0 then some 0
  else
    s.heap.walk (fun r nPartCnt =>
      if szMedium.isPrefixOf r.szPartName then
        if (ALL_USB_DISK = nUSBDiskID ∨ r.nUSBDiskId = nUSBDiskID) ∧ 0 < r.nUSBDiskId then
          .yield (nPartCnt + 1)
        else .yield nPartCnt
      else .yield nPartCnt) s.heap.top s.sPsPartHead 0

/-- One round of the copy: the result so far and the records written to the array, from its
    start on. The test of the capacity comes behind the write. -/
def copyRecord (szMedium : CStr) (nUSBDiskID nPartCnt : Nat) (r : PartitionInfo)
    (copied : ErrorNum × List PartitionInfo) : ForInStep (ErrorNum × List PartitionInfo) :=
  if szMedium.isPrefixOf r.szPartName then
    if (r.nUSBDiskId = nUSBDiskID ∨ ALL_USB_DISK = nUSBDiskID) ∧ r.nUSBDiskId > 0 then
      let written := copied.2 ++ [r]
      if written.length > nPartCnt then .done (.errorFailed, written)
      else .yield (.ok, written)
    else .yield copied
  else .yield copied

/-- psPartitionInfo says whether there is an array. -/
def readPartitionFromList (szMedium : CStr) (psPartitionInfo : Bool) (nUSBDiskID nPartCnt : Nat)
    (s : PartState) : Option (ErrorNum × List PartitionInfo) :=
  if s.sPsPartHead = 0 then some (.nullP, [])
  else if !psPartitionInfo then some (.nullP, [])
  else
    s.heap.walk (copyRecord szMedium nUSBDiskID nPartCnt) s.heap.top s.sPsPartHead (.errorFailed, [])

structure PartitionRead where
  eError : ErrorNum
  pnCnt : Nat
  pDestData : Option (List PartitionInfo)
  deriving DecidableEq, Repr

/-- A query. `memory` is what the memory that malloc gives holds, and absent where malloc
    fails; pnCnt is then left as it was. -/
def readPartition (szMedium : CStr) (z : WordSize) (memory : Option (Nat → PartitionInfo))
    (nUSBDiskID pnCnt : Nat) (devs : DevState) (s : PartState) : Option PartitionRead := do
  let eError ← mntUsbCheckDiskId nUSBDiskID devs
  if eError ≠ .ok then some ⟨.errorUnknow, 0, none⟩
  else
    let nPartitionCnt ← getPartitionCount szMedium nUSBDiskID s
    if nPartitionCnt = 0 then some ⟨.errorFailed, 0, none⟩
    else
      match memory with
      | none => some ⟨.errorNoMemory, pnCnt, none⟩
      | some content =>
          let pTmpPtr := clearStart z ((List.range nPartitionCnt).map content)
          let (eError, written) ← readPartitionFromList szMedium true nUSBDiskID nPartitionCnt s
          if written.length > pTmpPtr.length then none
          else some ⟨eError, nPartitionCnt, some (splice pTmpPtr 0 written)⟩

def usbMedium : CStr := ['/', 'd', 'e', 'v', '/', 's', 'd']

def sdcardMedium : CStr := ['/', 'd', 'e', 'v', '/', 'm', 'm', 'c']

def mntUsbReadPartitionFromList := readPartitionFromList usbMedium

def mntSdcardReadPartitionFromList := readPartitionFromList sdcardMedium

def mntUsbReadPartition := readPartition usbMedium

def mntSdcardReadPartition := readPartition sdcardMedium

def Wanted (szMedium : CStr) (nUSBDiskID : Nat) (r : PartitionInfo) : Prop :=
  szMedium <+: r.szPartName ∧ 0 < r.nUSBDiskId ∧
    (r.nUSBDiskId = nUSBDiskID ∨ nUSBDiskID = ALL_USB_DISK)

instance (szMedium : CStr) (nUSBDiskID : Nat) : DecidablePred (Wanted szMedium nUSBDiskID) :=
  fun _ => inferInstanceAs (Decidable (_ ∧ _))

def wanted (szMedium : CStr) (nUSBDiskID : Nat) (records : List PartitionInfo) : List PartitionInfo :=
  records.filter (Wanted szMedium nUSBDiskID)

section Walks
variable {szMedium : CStr} {q : Nat}

theorem wanted_iff (r : PartitionInfo) :
    Wanted szMedium q r ↔ szMedium.isPrefixOf r.szPartName = true ∧
      (r.nUSBDiskId = q ∨ ALL_USB_DISK = q) ∧ r.nUSBDiskId > 0 := by
  rw [Wanted, List.isPrefixOf_iff_prefix, eq_comm (a := q), gt_iff_lt]
  tauto

/-- What mnt_usb_check_disk_id looks for. -/
def carries (q : Nat) (d : StorageInfo) : Bool :=
  if ALL_USB_DISK = q then d.nDiskId > 0 else d.nDiskId = q

theorem check_disk_id {devs : DevState} {l : List (Nat × StorageInfo)}
    (holds : Holds devs.heap devs.gPsUSBDevHead l) (q : Nat) :
    mntUsbCheckDiskId q devs =
      some (if (l.map Prod.snd).any (carries q) then .ok else .errorFailed) := by
  have body : (fun (d : StorageInfo) (eError : ErrorNum) =>
      if ALL_USB_DISK = q then if d.nDiskId > 0 then ForInStep.done .ok else .yield eError
      else if d.nDiskId = q then .done .ok else .yield eError) =
      fun d eError => if carries q d then .done .ok else .yield eError := by
    funext d eError
    by_cases all : ALL_USB_DISK = q
    · simp [carries, all]
    · simp [carries, all]
  rw [mntUsbCheckDiskId, body, holds_walk holds, walkList_find]
  by_cases empty : l = []
  · rw [if_pos ((holds_entry_zero holds).mpr empty)]
    simp [empty]
  · rw [if_neg (mt (holds_entry_zero holds).mp empty)]

theorem partition_count {s : PartState} {l : List (Nat × PartitionInfo)}
    (holds : Holds s.heap s.sPsPartHead l) :
    getPartitionCount szMedium q s = some (wanted szMedium q (l.map Prod.snd)).length := by
  have body : (fun (r : PartitionInfo) (nPartCnt : Nat) =>
      if szMedium.isPrefixOf r.szPartName then
        if (ALL_USB_DISK = q ∨ r.nUSBDiskId = q) ∧ 0 < r.nUSBDiskId then
          ForInStep.yield (nPartCnt + 1)
        else .yield nPartCnt
      else .yield nPartCnt) =
      fun r nPartCnt => .yield (if decide (Wanted szMedium q r) then nPartCnt + 1 else nPartCnt) := by
    funext r nPartCnt
    have same := @wanted_iff szMedium q r
    rw [or_comm] at same
    by_cases medium : szMedium.isPrefixOf r.szPartName = true
    · simp only [medium, true_and, if_true] at same ⊢
      by_cases ids : (ALL_USB_DISK = q ∨ r.nUSBDiskId = q) ∧ 0 < r.nUSBDiskId
      · rw [if_pos ids, if_pos (decide_eq_true (same.mpr ids))]
      · rw [if_neg ids, if_neg (by simpa using mt same.mp ids)]
    · simp only [medium, Bool.false_eq_true, false_and, iff_false, if_false] at same ⊢
      simp [same]
  rw [getPartitionCount, body, holds_walk holds, walkList_count, Nat.zero_add, wanted,
    List.countP_eq_length_filter]
  by_cases empty : l = []
  · rw [if_pos ((holds_entry_zero holds).mpr empty)]
    simp [empty]
  · rw [if_neg (mt (holds_entry_zero holds).mp empty)]

theorem copyRecord_wanted {r : PartitionInfo} (want : Wanted szMedium q r) (cap : Nat)
    (copied : ErrorNum × List PartitionInfo) :
    copyRecord szMedium q cap r copied =
      if copied.2.length + 1 > cap then .done (.errorFailed, copied.2 ++ [r])
      else .yield (.ok, copied.2 ++ [r]) := by
  obtain ⟨medium, ids⟩ := (wanted_iff r).mp want
  rw [copyRecord, if_pos medium, if_pos ids]
  simp only [List.length_append, List.length_singleton]

theorem copyRecord_other {r : PartitionInfo} (other : ¬ Wanted szMedium q r) (cap : Nat)
    (copied : ErrorNum × List PartitionInfo) : copyRecord szMedium q cap r copied = .yield copied := by
  rw [wanted_iff, not_and] at other
  unfold copyRecord
  split
  · rename_i medium
    rw [if_neg (other medium)]
  · rfl

/-- The copy ends behind the last wanted record, or with the one that no longer fits. -/
theorem copy_records (cap : Nat) (records : List PartitionInfo) (copied : ErrorNum × List PartitionInfo)
    (room : copied.2.length ≤ cap) :
    walkList (copyRecord szMedium q cap) records copied =
      if copied.2.length + (wanted szMedium q records).length ≤ cap then
        (if wanted szMedium q records = [] then copied.1 else .ok, copied.2 ++ wanted szMedium q records)
      else (.errorFailed, copied.2 ++ (wanted szMedium q records).take (cap + 1 - copied.2.length)) := by
  induction records generalizing copied with
  | nil => simp [walkList, wanted, room]
  | cons r records ih =>
    rw [walkList]
    by_cases want : Wanted szMedium q r
    · have more : wanted szMedium q (r :: records) = r :: wanted szMedium q records := by
        simp [wanted, want]
      rw [copyRecord_wanted want, more, List.length_cons]
      by_cases full : copied.2.length + 1 > cap
      · have last : cap + 1 - copied.2.length = 1 := by omega
        rw [if_pos full, if_neg (by omega), last]
        simp
      · have next := ih (.ok, copied.2 ++ [r]) (by
          simp only [List.length_append, List.length_singleton]
          omega)
        simp only [List.length_append, List.length_singleton] at next
        rw [if_neg full]
        dsimp only
        rw [next, Nat.add_assoc, Nat.add_comm 1]
        by_cases fits : copied.2.length + ((wanted szMedium q records).length + 1) ≤ cap
        · rw [if_pos fits, if_pos fits]
          simp
        · have shift : cap + 1 - copied.2.length = (cap + 1 - (copied.2.length + 1)) + 1 := by omega
          rw [if_neg fits, if_neg fits, shift, List.take_succ_cons]
          simp
    · have same : wanted szMedium q (r :: records) = wanted szMedium q records := by
        simp [wanted, want]
      rw [copyRecord_other want, same]
      exact ih copied room

theorem read_from_list {s : PartState} {l : List (Nat × PartitionInfo)}
    (holds : Holds s.heap s.sPsPartHead l) (cap : Nat) :
    readPartitionFromList szMedium true q cap s =
      some (if l = [] then (.nullP, [])
        else if (wanted szMedium q (l.map Prod.snd)).length ≤ cap then
          (if wanted szMedium q (l.map Prod.snd) = [] then .errorFailed else .ok,
            wanted szMedium q (l.map Prod.snd))
        else (.errorFailed, (wanted szMedium q (l.map Prod.snd)).take (cap + 1))) := by
  rw [readPartitionFromList]
  by_cases empty : l = []
  · rw [if_pos ((holds_entry_zero holds).mpr empty), if_pos empty]
  · have copy := @copy_records szMedium q cap (l.map Prod.snd) (.errorFailed, []) (Nat.zero_le cap)
    rw [if_neg (mt (holds_entry_zero holds).mp empty), if_neg (by simp), holds_walk holds, copy,
      if_neg empty]
    simp only [List.length_nil, Nat.zero_add, List.nil_append, Nat.sub_zero]

end Walks

def PartitionRead.returned (read : PartitionRead) : List PartitionInfo := read.pDestData.getD []

/-- A query succeeds where the disk is known and has a partition, and then gives all its
    partitions in the order of the list. -/
structure QueryExact (szMedium : CStr) (q : Nat) (check : ErrorNum) (records : List PartitionInfo)
    (read : PartitionRead) : Prop where
  succeeds : read.eError = .ok ↔ check = .ok ∧ ∃ r ∈ records, Wanted szMedium q r
  array : read.eError = .ok → read.pDestData = some (wanted szMedium q records) ∧
    read.pnCnt = (wanted szMedium q records).length
  nothing : read.eError ≠ .ok → read.pDestData = none

section Queries
variable {szMedium : CStr} {q : Nat}

theorem wanted_nil_iff {records : List PartitionInfo} :
    wanted szMedium q records = [] ↔ ¬ ∃ r ∈ records, Wanted szMedium q r := by
  simp [wanted, List.filter_eq_nil_iff]

theorem splice_whole {α : Type} {l m : List α} (same : m.length = l.length) : splice l 0 m = m := by
  rw [splice_start, List.drop_eq_nil_of_le (by omega), List.append_nil]

theorem query_exact {devs : DevState} {s : PartState} {pl : List (Nat × PartitionInfo)}
    (partList : Holds s.heap s.sPsPartHead pl) (z : WordSize) (content : Nat → PartitionInfo)
    (pnCnt : Nat) {check : ErrorNum} (checked : mntUsbCheckDiskId q devs = some check) :
    ∃ read, readPartition szMedium z (some content) q pnCnt devs s = some read ∧
      QueryExact szMedium q check (pl.map Prod.snd) read := by
  unfold readPartition
  simp only [checked, Option.bind_eq_bind, Option.bind_some, partition_count partList]
  by_cases known : check = .ok
  · rw [if_neg (not_not_intro known)]
    by_cases empty : wanted szMedium q (pl.map Prod.snd) = []
    · refine ⟨⟨.errorFailed, 0, none⟩, by rw [empty]; rfl, ?_, by simp, by simp⟩
      exact iff_of_false (by simp) fun both => wanted_nil_iff.mp empty both.2
    · have more : pl ≠ [] := by
        intro none
        rw [none] at empty
        exact empty rfl
      have found : ∃ r ∈ pl.map Prod.snd, Wanted szMedium q r := by
        by_contra none
        exact empty (wanted_nil_iff.mpr none)
      have number : (wanted szMedium q (pl.map Prod.snd)).length ≠ 0 :=
        mt List.length_eq_zero_iff.mp empty
      have copied := @read_from_list szMedium q s pl partList
        (wanted szMedium q (pl.map Prod.snd)).length
      rw [if_neg more, if_pos (Nat.le_refl _), if_neg empty] at copied
      have size : (clearStart z ((List.range (wanted szMedium q (pl.map Prod.snd)).length).map
          content)).length = (wanted szMedium q (pl.map Prod.snd)).length := by
        rw [clearStart_length, List.length_map, List.length_range]
      refine ⟨⟨.ok, (wanted szMedium q (pl.map Prod.snd)).length,
        some (wanted szMedium q (pl.map Prod.snd))⟩, ?_, ?_, fun _ => ⟨rfl, rfl⟩, by simp⟩
      · rw [if_neg number]
        simp only [copied, Option.bind_some]
        rw [if_neg (by omega), splice_whole size.symm]
      · simp only [true_iff]
        exact ⟨known, found⟩
  · rw [if_pos known]
    exact ⟨_, rfl, by simp [known], by simp, by simp⟩

theorem query_returned {check : ErrorNum} {records : List PartitionInfo} {read : PartitionRead}
    (exact : QueryExact szMedium q check records read) (r : PartitionInfo) :
    r ∈ read.returned ↔ check = .ok ∧ r ∈ records ∧ Wanted szMedium q r := by
  unfold PartitionRead.returned
  by_cases success : read.eError = .ok
  · obtain ⟨known, _⟩ := exact.succeeds.mp success
    rw [(exact.array success).1]
    simp [wanted, known]
  · rw [exact.nothing success]
    simp only [Option.getD_none, List.not_mem_nil, false_iff]
    intro all
    exact success (exact.succeeds.mpr ⟨all.1, r, all.2⟩)

end Queries

theorem media_apart {name : CStr} (usb : usbMedium <+: name) (sdcard : sdcardMedium <+: name) : False := by
  have longer := List.prefix_of_prefix_length_le usb sdcard (by decide)
  exact absurd longer (by decide)

/-- Both queries are exact. Over all disks they give no record twice and, where any disk is
    known, every record of either medium. -/
theorem partition_queries_exact (z : WordSize) (usbContent sdContent : Nat → PartitionInfo)
    (q usbCnt sdCnt : Nat) (devs : DevState) (s : PartState) (dl : List (Nat × StorageInfo))
    (pl : List (Nat × PartitionInfo)) (devList : Holds devs.heap devs.gPsUSBDevHead dl)
    (partList : Holds s.heap s.sPsPartHead pl) :
    ∃ check usb sdcard, mntUsbCheckDiskId q devs = some check ∧
      mntUsbReadPartition z (some usbContent) q usbCnt devs s = some usb ∧
      mntSdcardReadPartition z (some sdContent) q sdCnt devs s = some sdcard ∧
      QueryExact usbMedium q check (pl.map Prod.snd) usb ∧
      QueryExact sdcardMedium q check (pl.map Prod.snd) sdcard ∧
      (q = ALL_USB_DISK →
        (∀ r, ¬ (r ∈ usb.returned ∧ r ∈ sdcard.returned)) ∧
        (check = .ok → ∀ r ∈ pl.map Prod.snd, 0 < r.nUSBDiskId →
          usbMedium <+: r.szPartName ∨ sdcardMedium <+: r.szPartName →
          r ∈ usb.returned ∨ r ∈ sdcard.returned)) := by
  have checked := check_disk_id devList q
  obtain ⟨usb, usbRun, usbExact⟩ :=
    @query_exact usbMedium q devs s pl partList z usbContent usbCnt _ checked
  obtain ⟨sdcard, sdRun, sdExact⟩ :=
    @query_exact sdcardMedium q devs s pl partList z sdContent sdCnt _ checked
  refine ⟨_, usb, sdcard, checked, usbRun, sdRun, usbExact, sdExact, ?_⟩
  intro all
  constructor
  · intro r both
    have first := (query_returned usbExact r).mp both.1
    have second := (query_returned sdExact r).mp both.2
    exact media_apart first.2.2.1 second.2.2.1
  · intro known r mem positive medium
    rw [query_returned usbExact, query_returned sdExact]
    rcases medium with usbName | sdName
    · exact .inl ⟨known, mem, usbName, positive, .inr all⟩
    · exact .inr ⟨known, mem, sdName, positive, .inr all⟩

def namedRecord (nUSBDiskId : Nat) (szPartName : CStr) : PartitionInfo :=
  ⟨nUSBDiskId, 0, [], [], 0, 0, 1, szPartName, 0⟩

def pairList (first second : PartitionInfo) : PartState where
  heap :=
    { cell := fun p => if p = 1 then some ⟨first, 2, true⟩
        else if p = 2 then some ⟨second, 0, true⟩ else none
      top := 3
      limit := none
      keepsFreed := true }
  sPsPartHead := 1

theorem pairList_holds (first second : PartitionInfo) :
    Holds (pairList first second).heap (pairList first second).sPsPartHead [(1, first), (2, second)] :=
  ⟨rfl, ⟨Nat.one_ne_zero, rfl, Nat.succ_ne_zero 1, rfl, trivial⟩, by simp, by simp [pairList],
    by simp [pairList]⟩

def oneDisk : DevState where
  heap :=
    { cell := fun p => if p = 1 then some ⟨⟨1, sdName 0⟩, 0, true⟩ else none
      top := 2
      limit := none
      keepsFreed := true }
  gPsUSBDevHead := 1
  gDevID i := i == 0
  queue := []

theorem oneDisk_holds : Holds oneDisk.heap oneDisk.gPsUSBDevHead [(1, ⟨1, sdName 0⟩)] :=
  ⟨rfl, ⟨by decide, rfl, trivial⟩, by decide, by decide, by decide⟩

def usbRecord : PartitionInfo := namedRecord 1 (usbMedium ++ ['a', '1'])

def sdcardRecord : PartitionInfo := namedRecord 2 (sdcardMedium ++ ['b', 'l', 'k', '0', 'p', '1'])

theorem both_media_returned : ∃ usb sdcard,
    mntUsbReadPartition .bits32 (some fun _ => usbRecord) ALL_USB_DISK 0 oneDisk
      (pairList usbRecord sdcardRecord) = some usb ∧
    mntSdcardReadPartition .bits32 (some fun _ => usbRecord) ALL_USB_DISK 0 oneDisk
      (pairList usbRecord sdcardRecord) = some sdcard ∧
    (∀ r, ¬ (r ∈ usb.returned ∧ r ∈ sdcard.returned)) ∧
    (sdcardRecord ∈ usb.returned ∨ sdcardRecord ∈ sdcard.returned) := by
  obtain ⟨check, usb, sdcard, checked, usbRun, sdRun, _, _, all⟩ := partition_queries_exact .bits32
    (fun _ => usbRecord) (fun _ => usbRecord) ALL_USB_DISK 0 0 oneDisk (pairList usbRecord sdcardRecord)
    [(1, ⟨1, sdName 0⟩)] [(1, usbRecord), (2, sdcardRecord)] oneDisk_holds (pairList_holds _ _)
  obtain ⟨apart, covered⟩ := all rfl
  have known : check = .ok := by
    have answer : mntUsbCheckDiskId ALL_USB_DISK oneDisk = some .ok := by decide
    rw [answer] at checked
    exact (Option.some.inj checked).symm
  exact ⟨usb, sdcard, usbRun, sdRun, apart,
    covered known sdcardRecord (by simp) (by decide) (by decide)⟩

/-- Records that are left behind when the last disk is gone are returned by neither query. -/
theorem leftover_records_not_returned :
    Holds (DevState.init true).heap (DevState.init true).gPsUSBDevHead [] ∧
    Holds (pairList usbRecord sdcardRecord).heap (pairList usbRecord sdcardRecord).sPsPartHead
      [(1, usbRecord), (2, sdcardRecord)] ∧
    0 < usbRecord.nUSBDiskId ∧ usbMedium <+: usbRecord.szPartName ∧
    ∃ usb sdcard,
      mntUsbReadPartition .bits32 (some fun _ => usbRecord) ALL_USB_DISK 0 (DevState.init true)
        (pairList usbRecord sdcardRecord) = some usb ∧
      mntSdcardReadPartition .bits32 (some fun _ => usbRecord) ALL_USB_DISK 0 (DevState.init true)
        (pairList usbRecord sdcardRecord) = some sdcard ∧
      ¬ (usbRecord ∈ usb.returned ∨ usbRecord ∈ sdcard.returned) := by
  refine ⟨holds_empty true, pairList_holds _ _, by decide, by decide, ?_⟩
  exact ⟨⟨.errorUnknow, 0, none⟩, ⟨.errorUnknow, 0, none⟩, rfl, rfl, by decide⟩

/-- What the copy is to do with an array of nPartCnt records, for so many matching ones. -/
def CopyInBounds (run : ErrorNum × List PartitionInfo) (matching nPartCnt : Nat) : Prop :=
  run.2.length ≤ nPartCnt ∧ (run.1 = .ok ↔ 1 ≤ matching ∧ matching ≤ nPartCnt)

theorem copy_in_bounds_iff {szMedium : CStr} {q : Nat} {s : PartState}
    {pl : List (Nat × PartitionInfo)} (partList : Holds s.heap s.sPsPartHead pl) (nPartCnt : Nat) :
    ∃ run, readPartitionFromList szMedium true q nPartCnt s = some run ∧
      (CopyInBounds run (wanted szMedium q (pl.map Prod.snd)).length nPartCnt ↔
        (wanted szMedium q (pl.map Prod.snd)).length ≤ nPartCnt) := by
  refine ⟨_, read_from_list partList nPartCnt, ?_⟩
  by_cases empty : pl = []
  · simp [CopyInBounds, empty, wanted]
  · rw [if_neg empty]
    by_cases fits : (wanted szMedium q (pl.map Prod.snd)).length ≤ nPartCnt
    · rw [if_pos fits]
      refine iff_of_true ⟨fits, ?_⟩ fits
      by_cases none : wanted szMedium q (pl.map Prod.snd) = []
      · simp [none]
      · have positive := List.length_pos_of_ne_nil none
        simp only [none, if_false, true_iff]
        exact ⟨positive, fits⟩
    · rw [if_neg fits]
      refine iff_of_false ?_ fits
      intro bounded
      have written := bounded.1
      rw [List.length_take] at written
      omega

/-- Both copies stay inside the array exactly when all the matching records fit in it: one
    record more is written before the capacity is tested. -/
theorem partition_copies_in_bounds_iff (q nPartCnt : Nat) (s : PartState)
    (pl : List (Nat × PartitionInfo)) (partList : Holds s.heap s.sPsPartHead pl) :
    ∃ usb sdcard, mntUsbReadPartitionFromList true q nPartCnt s = some usb ∧
      mntSdcardReadPartitionFromList true q nPartCnt s = some sdcard ∧
      (CopyInBounds usb (wanted usbMedium q (pl.map Prod.snd)).length nPartCnt ↔
        (wanted usbMedium q (pl.map Prod.snd)).length ≤ nPartCnt) ∧
      (CopyInBounds sdcard (wanted sdcardMedium q (pl.map Prod.snd)).length nPartCnt ↔
        (wanted sdcardMedium q (pl.map Prod.snd)).length ≤ nPartCnt) := by
  obtain ⟨usb, usbRun, usbBounds⟩ := copy_in_bounds_iff partList nPartCnt
  obtain ⟨sdcard, sdRun, sdBounds⟩ := copy_in_bounds_iff partList nPartCnt
  exact ⟨usb, sdcard, usbRun, sdRun, usbBounds, sdBounds⟩

theorem single_records_copied : ∃ usb sdcard,
    mntUsbReadPartitionFromList true 1 1 (pairList usbRecord sdcardRecord) = some usb ∧
    mntSdcardReadPartitionFromList true 1 1 (pairList usbRecord sdcardRecord) = some sdcard ∧
    CopyInBounds usb 1 1 ∧ CopyInBounds sdcard 0 1 := by
  obtain ⟨usb, sdcard, usbRun, sdRun, usbBounds, sdBounds⟩ := partition_copies_in_bounds_iff 1 1
    (pairList usbRecord sdcardRecord) [(1, usbRecord), (2, sdcardRecord)] (pairList_holds _ _)
  exact ⟨usb, sdcard, usbRun, sdRun, usbBounds.mpr (by decide), sdBounds.mpr (by decide)⟩

def secondUsbRecord : PartitionInfo :=
  { usbRecord with nPatitionId := 2, szPartName := usbMedium ++ ['a', '2'] }

def secondSdcardRecord : PartitionInfo :=
  { sdcardRecord with nPatitionId := 2, szPartName := sdcardMedium ++ ['b', 'l', 'k', '0', 'p', '2'] }

/-- Two partitions of a disk and an array of one record: two records are written. -/
theorem copy_leaves_array :
    Holds (pairList usbRecord secondUsbRecord).heap (pairList usbRecord secondUsbRecord).sPsPartHead
      [(1, usbRecord), (2, secondUsbRecord)] ∧
    mntUsbReadPartitionFromList true 1 1 (pairList usbRecord secondUsbRecord) =
      some (.errorFailed, [usbRecord, secondUsbRecord]) ∧
    ¬ CopyInBounds (.errorFailed, [usbRecord, secondUsbRecord]) 2 1 ∧
    mntSdcardReadPartitionFromList true 2 1 (pairList sdcardRecord secondSdcardRecord) =
      some (.errorFailed, [sdcardRecord, secondSdcardRecord]) := by
  refine ⟨pairList_holds _ _, by decide, ?_, by decide⟩
  intro bounded
  exact absurd bounded.1 (by decide)

end TestSource
