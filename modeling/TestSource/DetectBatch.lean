import TestSource.DetectPartition

/- xl_usb_mng.c: the array that mnt_usb_detect_partition hands to
   mnt_usb_insert_partition_list. It is sized by the scan that counts the nodes of a disk and
   filled by a second one, and nodes come and go between the two. -/
namespace TestSource

/-- The filling loop on its array, with the indices whose node it finds. Each round writes the
    name of a node to the next record before it looks for the node. -/
def fillLoop (disk : PluggedDisk) (view : PassView) (nPartitionCnt : Nat) :
    Nat → Nat → Nat → List PartitionInfo → Option (List PartitionInfo × List Nat)
  | 0, _, _, array => some (array, [])
  | rounds + 1, nPartitionIndex, n, array => do
      let psTmpPartition ← array[n]?
      let named := { psTmpPartition with szPartName := partPath disk.szDiskName nPartitionIndex }
      if disk.access named.szPartName then do
        let r ← gatherRecord disk view nPartitionIndex named
        if n + 1 ≥ nPartitionCnt then some (array.set n r, [nPartitionIndex])
        else do
          let (array, found) ← fillLoop disk view nPartitionCnt rounds (nPartitionIndex + 1) (n + 1)
            (array.set n r)
          some (array, nPartitionIndex :: found)
      else fillLoop disk view nPartitionCnt rounds (nPartitionIndex + 1) n (array.set n named)

/-- The batch a pass hands over and the indices it was filled for, if it gets so far. The
    access of the disk answers the count and `filling` the loop; malloc succeeds. -/
def detectBatch (z : WordSize) (disk : PluggedDisk) (filling : CStr → Bool) (view : PassView) :
    Option (Option (List PartitionInfo × List Nat)) :=
  let counted := mntUsbGetPartitionCnt disk 1
  if 0 ≥ counted.1 then some none
  else
    let psTmpPartition := clearStart z ((List.range counted.1.toNat).map view.array)
    (fillLoop { disk with access := filling } view counted.1.toNat (counted.2 + 1) 0 0
      psTmpPartition).map some

/-- The nodes the loop can get to: those not behind the last one counted. -/
def reachable (disk : PluggedDisk) (filling : CStr → Bool) : List Nat :=
  (List.range 64).filter fun i => filling (partPath disk.szDiskName i) && (present disk).any (i ≤ ·)

def foundNodes (disk : PluggedDisk) (filling : CStr → Bool) : List Nat :=
  (reachable disk filling).take (present disk).length

def Filled (disk : PluggedDisk) (view : PassView) (r : PartitionInfo) : Prop :=
  r.nUSBDiskId = disk.nDiskId ∧ ∃ slot, gatherRecord disk view r.nPatitionId slot = some r

/-- A batch of one record for each node found, in their order, all of them filled. -/
structure BatchExact (disk : PluggedDisk) (filling : CStr → Bool) (view : PassView)
    (batch : List PartitionInfo) (found : List Nat) : Prop where
  visited : found = foundNodes disk filling
  keys : batch.map PartitionInfo.key = found.map fun i => (disk.nDiskId, i)
  filled : ∀ r ∈ batch, Filled disk view r

def Readable (disk : PluggedDisk) (view : PassView) (i : Nat) : Prop :=
  mntUsbGetMountPath (mountLog disk.szDiskName view.table) (partPath disk.szDiskName i) ≠ none

/-- A record whose mount data and place in the table are still to be written. -/
def Leftover (slot content : PartitionInfo) : Prop :=
  ∃ szPartName nUSBDiskId bMounted, slot =
    { content with szPartName := szPartName, nUSBDiskId := nUSBDiskId, bMounted := bMounted }

section Fill
variable {disk : PluggedDisk} {view : PassView}

theorem gatherRecord_leftover {slot content : PartitionInfo} (same : Leftover slot content) (i : Nat) :
    gatherRecord disk view i slot = gatherRecord disk view i content := by
  obtain ⟨szPartName, nUSBDiskId, bMounted, rfl⟩ := same
  rfl

theorem leftover_named {slot content : PartitionInfo} (same : Leftover slot content) (name : CStr) :
    Leftover { slot with szPartName := name } content := by
  obtain ⟨szPartName, nUSBDiskId, bMounted, rfl⟩ := same
  exact ⟨name, nUSBDiskId, bMounted, rfl⟩

def OldFrom (view : PassView) (cnt n : Nat) (array : List PartitionInfo) : Prop :=
  ∀ k, n ≤ k → k < cnt → ∃ slot, array[k]? = some slot ∧ Leftover slot (view.array k)

theorem oldFrom_cleared (z : WordSize) (view : PassView) (cnt : Nat) :
    OldFrom view cnt 0 (clearStart z ((List.range cnt).map view.array)) := by
  intro k _ inside
  obtain ⟨m, rfl⟩ : ∃ m, cnt = m + 1 := ⟨cnt - 1, by omega⟩
  rw [List.range_succ_eq_map, List.map_cons]
  cases k with
  | zero =>
    cases z with
    | bits32 => exact ⟨_, rfl, (view.array 0).szPartName, 0, (view.array 0).bMounted, rfl⟩
    | bits64 => exact ⟨_, rfl, (view.array 0).szPartName, 0, 0, rfl⟩
  | succ k =>
    refine ⟨view.array (k + 1), ?_, (view.array (k + 1)).szPartName, (view.array (k + 1)).nUSBDiskId,
      (view.array (k + 1)).bMounted, rfl⟩
    cases z with
    | bits32 => simp [clearStart, show k < m by omega]
    | bits64 => simp [clearStart, show k < m by omega]

theorem oldFrom_stored {cnt n : Nat} {array : List PartitionInfo} (old : OldFrom view cnt n array)
    (r : PartitionInfo) : OldFrom view cnt (n + 1) (array.set n r) := by
  intro k above below
  rw [List.getElem?_set_ne (by omega)]
  exact old k (by omega) below

theorem oldFrom_named {cnt n : Nat} {array : List PartitionInfo} (old : OldFrom view cnt n array)
    (inside : n < array.length) {slot : PartitionInfo} (same : Leftover slot (view.array n)) :
    OldFrom view cnt n (array.set n slot) := by
  intro k above below
  by_cases here : n = k
  · subst here
    exact ⟨slot, List.getElem?_set_self inside, same⟩
  · rw [List.getElem?_set_ne here]
    exact old k above below

theorem take_stored {n : Nat} {array : List PartitionInfo} (inside : n < array.length)
    (r : PartitionInfo) : (array.set n r).take (n + 1) = array.take n ++ [r] := by
  have before : (array.take n).length = n := by
    rw [List.length_take]
    omega
  rw [List.set_eq_take_append_cons_drop, if_pos inside, List.take_append,
    List.take_of_length_le (by omega), before, Nat.add_sub_cancel_left, List.take_succ_cons,
    List.take_zero]

theorem gatherRecord_filled {i : Nat} {slot r : PartitionInfo}
    (gathered : gatherRecord disk view i slot = some r) : r.nPatitionId = i ∧ Filled disk view r := by
  have own : r.nPatitionId = i ∧ r.nUSBDiskId = disk.nDiskId := by
    obtain ⟨found, _, rest⟩ := Option.bind_eq_some_iff.mp gathered
    cases found with
    | none =>
      cases rest
      exact ⟨rfl, rfl⟩
    | some mount =>
      obtain ⟨szMountDir, k⟩ := mount
      obtain ⟨szVolume, u64Capacity, u64Used, described⟩ := space_label_frame view
        { slot with
          szPartName := partPath disk.szDiskName i
          nUSBDiskId := disk.nDiskId
          nPatitionId := i
          szMountDir := szMountDir
          bMounted := DISK_MOUNTED
          nMapIndex := k }
      simp only [described, Option.some.injEq] at rest
      subst rest
      exact ⟨rfl, rfl⟩
  exact ⟨own.1, own.2, slot, by rw [own.1]; exact gathered⟩

theorem gatherRecord_reads (i : Nat) (slot : PartitionInfo) :
    (∃ r, gatherRecord disk view i slot = some r) ↔ Readable disk view i := by
  unfold gatherRecord Readable
  cases searched : mntUsbGetMountPath (mountLog disk.szDiskName view.table) (partPath disk.szDiskName i) with
  | none => simp [searched]
  | some found =>
    cases found with
    | none => simp [searched]
    | some mount => simp [searched]

theorem gatherLoop_cases (rounds i : Nat) {cnt n : Nat} (room : n < cnt) :
    match gatherLoop disk view cnt rounds i n with
    | none => ∃ j ∈ ((List.range' i rounds).filter disk.hasNode).take (cnt - n), ¬ Readable disk view j
    | some batch => (∀ r ∈ batch, Filled disk view r ∧ Readable disk view r.nPatitionId) ∧
        batch.map PartitionInfo.nPatitionId = ((List.range' i rounds).filter disk.hasNode).take (cnt - n) := by
  induction rounds generalizing i n with
  | zero => exact ⟨by simp, by simp⟩
  | succ rounds ih =>
    unfold gatherLoop
    rw [List.range'_succ]
    by_cases there : disk.hasNode i = true
    · have more : cnt - n = (cnt - (n + 1)) + 1 := by omega
      rw [List.filter_cons_of_pos there, if_pos there, more, List.take_succ_cons]
      cases gathered : gatherRecord disk view i (view.array n) with
      | none =>
        refine ⟨i, by simp, ?_⟩
        rw [← gatherRecord_reads i (view.array n), gathered]
        simp
      | some r =>
        obtain ⟨index, filled⟩ := gatherRecord_filled gathered
        have read : Readable disk view r.nPatitionId := by
          rw [index, ← gatherRecord_reads i (view.array n)]
          exact ⟨r, gathered⟩
        simp only [Option.bind_eq_bind, Option.bind_some]
        by_cases last : n + 1 ≥ cnt
        · have none : cnt - (n + 1) = 0 := by omega
          rw [if_pos last, none]
          exact ⟨by simpa using ⟨filled, read⟩, by simp [index]⟩
        · have rest := ih (i + 1) (n := n + 1) (by omega)
          rw [if_neg last]
          cases later : gatherLoop disk view cnt rounds (i + 1) (n + 1) with
          | none =>
            rw [later] at rest
            obtain ⟨j, mem, blind⟩ := rest
            exact ⟨j, List.mem_cons_of_mem i mem, blind⟩
          | some batch =>
            rw [later] at rest
            obtain ⟨all, indices⟩ := rest
            refine ⟨?_, by simp [index, indices]⟩
            simpa using ⟨⟨filled, read⟩, all⟩
    · rw [List.filter_cons_of_neg there, if_neg there]
      exact ih (i + 1) room

/-- The loop leaves the gathered records in the array and the rest of it behind them. -/
theorem fillLoop_gathers (rounds i : Nat) {cnt n : Nat} {array : List PartitionInfo}
    (size : array.length = cnt) (room : n < cnt) (old : OldFrom view cnt n array) :
    match gatherLoop disk view cnt rounds i n with
    | none => fillLoop disk view cnt rounds i n array = none
    | some batch => ∃ rest, fillLoop disk view cnt rounds i n array =
        some (array.take n ++ batch ++ rest, batch.map PartitionInfo.nPatitionId) ∧
        n + batch.length + rest.length = cnt := by
  induction rounds generalizing i n array with
  | zero =>
    refine ⟨array.drop n, ?_, ?_⟩
    · rw [List.append_nil, List.take_append_drop]
      rfl
    · simp only [List.length_nil, List.length_drop]
      omega
  | succ rounds ih =>
    obtain ⟨slot, here, left⟩ := old n (Nat.le_refl n) room
    have named := leftover_named left (partPath disk.szDiskName i)
    have inside : n < array.length := by omega
    rw [fillLoop, gatherLoop, here]
    simp only [Option.bind_eq_bind, Option.bind_some]
    cases there : disk.access (partPath disk.szDiskName i) with
    | true =>
      have node : disk.hasNode i = true := there
      simp only [node, if_true, gatherRecord_leftover named]
      cases gathered : gatherRecord disk view i (view.array n) with
      | none => rfl
      | some r =>
        have index := (gatherRecord_filled gathered).1
        have front := take_stored inside r
        simp only [Option.bind_some]
        by_cases last : n + 1 ≥ cnt
        · have whole : (array.set n r).take (n + 1) = array.set n r :=
            List.take_of_length_le (by rw [List.length_set]; omega)
          rw [if_pos last, if_pos last]
          refine ⟨[], ?_, by simp only [List.length_singleton, List.length_nil]; omega⟩
          rw [← front, whole]
          simp [index]
        · have rest := ih (i + 1) (n := n + 1) (by rw [List.length_set, size]) (by omega)
            (oldFrom_stored old r)
          rw [if_neg last, if_neg last]
          cases later : gatherLoop disk view cnt rounds (i + 1) (n + 1) with
          | none =>
            rw [later] at rest
            simp only at rest
            rw [rest]
            rfl
          | some batch =>
            rw [later] at rest
            obtain ⟨rest, filled, number⟩ := rest
            refine ⟨rest, ?_, by rw [List.length_cons]; omega⟩
            rw [filled, front]
            simp [index]
    | false =>
      have gone : disk.hasNode i = false := there
      have rest := ih (i + 1) (n := n) (by rw [List.length_set, size]) room (oldFrom_named old inside named)
      simp only [gone, Bool.false_eq_true, if_false]
      rw [List.take_set_of_le (Nat.le_refl n)] at rest
      exact rest

end Fill

section Batch
variable {disk : PluggedDisk}

theorem reachable_eq (filling : CStr → Bool) (nonempty : present disk ≠ []) :
    (List.range' 0 ((countNodes disk.hasNode).2 + 1)).filter
        ({ disk with access := filling } : PluggedDisk).hasNode = reachable disk filling := by
  have all : present disk = (List.range 64).filter disk.hasNode := if_pos (opendir_of_present nonempty)
  have number := (countNodes_spec disk.hasNode).1
  rw [← all] at number
  obtain ⟨last, low⟩ : disk.hasNode (countNodes disk.hasNode).2 = true ∧ (countNodes disk.hasNode).2 < 64 :=
    count_last disk.hasNode 64 (by
      have positive := List.length_pos_of_ne_nil nonempty
      rw [← number] at positive
      exact positive)
  have upper := (count_rounds disk.hasNode 64).2.2
  have up : ∀ i, (present disk).any (i ≤ ·) = decide (i ≤ (countNodes disk.hasNode).2) := by
    intro i
    rw [Bool.eq_iff_iff, List.any_eq_true, decide_eq_true_eq, all]
    constructor
    · intro some
      obtain ⟨j, member, before⟩ := some
      obtain ⟨within, node⟩ := List.mem_filter.mp member
      have bound := upper j (List.mem_range.mp within) node
      exact Nat.le_trans (of_decide_eq_true before) bound
    · intro before
      exact ⟨_, List.mem_filter.mpr ⟨List.mem_range.mpr low, last⟩, decide_eq_true before⟩
  have cut := filter_range_cut (fun i => filling (partPath disk.szDiskName i) &&
    decide (i ≤ (countNodes disk.hasNode).2)) (k := (countNodes disk.hasNode).2 + 1) (m := 64)
    (by omega) (by
      intro i above _
      have behind : ¬ i ≤ (countNodes disk.hasNode).2 := by omega
      simp [behind])
  simp only [reachable, up]
  rw [cut, ← List.range_eq_range']
  apply List.filter_congr
  intro i mem
  have before : i ≤ (countNodes disk.hasNode).2 := by
    have below := List.mem_range.mp mem
    omega
  simp only [before, decide_true, Bool.and_true]
  rfl

theorem filled_keys {view : PassView} {batch : List PartitionInfo}
    (filled : ∀ r ∈ batch, Filled disk view r) :
    batch.map PartitionInfo.key =
      (batch.map PartitionInfo.nPatitionId).map fun i => (disk.nDiskId, i) := by
  rw [List.map_map]
  apply List.map_congr_left
  intro r mem
  exact Prod.ext (filled r mem).1 rfl

theorem batch_exact_iff {filling : CStr → Bool} {view : PassView} {batch rest : List PartitionInfo}
    (filled : ∀ r ∈ batch, Filled disk view r)
    (indices : batch.map PartitionInfo.nPatitionId = foundNodes disk filling) :
    BatchExact disk filling view (batch ++ rest) (batch.map PartitionInfo.nPatitionId) ↔ rest = [] := by
  constructor
  · intro exact
    have lengths := congrArg List.length exact.keys
    simp only [List.length_map, List.length_append] at lengths
    exact List.length_eq_zero_iff.mp (by omega)
  · intro none
    subst none
    rw [List.append_nil]
    exact ⟨indices, filled_keys filled, filled⟩

/-- What a pass hands over: the records it has filled and the rest of its array, unless a
    node cannot be looked up. -/
theorem detectBatch_cases (z : WordSize) (filling : CStr → Bool) (view : PassView)
    (nonempty : present disk ≠ []) :
    ((∃ i ∈ foundNodes disk filling, ¬ Readable disk view i) ∧ detectBatch z disk filling view = none) ∨
    ∃ batch rest, detectBatch z disk filling view =
        some (some (batch ++ rest, batch.map PartitionInfo.nPatitionId)) ∧
      (∀ r ∈ batch, Filled disk view r ∧ Readable disk view r.nPatitionId) ∧
      batch.map PartitionInfo.nPatitionId = foundNodes disk filling ∧
      batch.length + rest.length = (present disk).length := by
  have positive := List.length_pos_of_ne_nil nonempty
  have old := oldFrom_cleared z view (present disk).length
  have size : (clearStart z ((List.range (present disk).length).map view.array)).length =
      (present disk).length := by
    rw [clearStart_length, List.length_map, List.length_range]
  have gather := @gatherLoop_cases { disk with access := filling } view
    ((countNodes disk.hasNode).2 + 1) 0 _ 0 positive
  have fill := @fillLoop_gathers { disk with access := filling } view
    ((countNodes disk.hasNode).2 + 1) 0 _ 0 _ size positive old
  rw [reachable_eq filling nonempty, Nat.sub_zero] at gather
  rw [detectBatch, count_present disk nonempty, if_neg (by omega)]
  simp only [Int.toNat_natCast]
  cases gathered : gatherLoop { disk with access := filling } view (present disk).length
      ((countNodes disk.hasNode).2 + 1) 0 0 with
  | none =>
    rw [gathered] at gather fill
    simp only at fill
    exact .inl ⟨gather, by rw [fill, Option.map_none]⟩
  | some batch =>
    rw [gathered] at gather fill
    obtain ⟨rest, filled, number⟩ := fill
    refine .inr ⟨batch, rest, ?_, gather.1, gather.2, by omega⟩
    rw [filled, List.take_zero, List.nil_append, Option.map_some]

/-- What is handed over is what a worker of the disk inserts: gathered records, and what the
    rest of the array has held. -/
theorem handed_gathered {z : WordSize} {filling : CStr → Bool} {view : PassView}
    {array : List PartitionInfo} {found : List Nat}
    (run : detectBatch z disk filling view = some (some (array, found))) :
    array ≠ [] ∧ ∃ (batch : Batch disk.nDiskId) (rest : List PartitionInfo), array = batch.records ++ rest := by
  by_cases empty : present disk = []
  · rw [detectBatch, if_pos (count_none disk empty 1)] at run
    cases run
  · have positive := List.length_pos_of_ne_nil empty
    rcases detectBatch_cases z filling view empty with ⟨_, fault⟩ | ⟨batch, rest, done, all, indices, number⟩
    · rw [fault] at run
      cases run
    · rw [done] at run
      cases run
      have rising : (batch.map PartitionInfo.nPatitionId).Pairwise (· < ·) := by
        rw [indices]
        exact (List.pairwise_lt_range.filter _).sublist (List.take_sublist _ _)
      refine ⟨?_, ⟨batch, fun r mem => (all r mem).1.1, rising⟩, rest, rfl⟩
      rw [← List.length_pos_iff, List.length_append]
      omega

end Batch

/-- A pass hands over one filled record for each node it finds exactly when the loop can
    still get to as many nodes as were counted and each of them can be looked up. Otherwise
    records that were never filled are handed over too, or a buffer of the lookup is left. -/
theorem detect_batch_exact_iff (z : WordSize) (disk : PluggedDisk) (filling : CStr → Bool)
    (view : PassView) :
    (∃ handed, detectBatch z disk filling view = some handed ∧
      ∀ batch found, handed = some (batch, found) → BatchExact disk filling view batch found) ↔
    (present disk).length ≤ (reachable disk filling).length ∧
      ∀ i ∈ foundNodes disk filling, Readable disk view i := by
  by_cases empty : present disk = []
  · have none : detectBatch z disk filling view = some none := by
      rw [detectBatch, if_pos (count_none disk empty 1)]
    simp [none, empty, foundNodes]
  · rcases detectBatch_cases z filling view empty with ⟨⟨i, mem, blind⟩, fault⟩ | handed
    · rw [fault]
      constructor
      · rintro ⟨_, absent, _⟩
        cases absent
      · rintro ⟨_, reads⟩
        exact absurd (reads i mem) blind
    · obtain ⟨batch, rest, run, all, indices, number⟩ := handed
      have filled : ∀ r ∈ batch, Filled disk view r := fun r mem => (all r mem).1
      have reads : ∀ i ∈ foundNodes disk filling, Readable disk view i := by
        rw [← indices, List.forall_mem_map]
        exact fun r mem => (all r mem).2
      have exact_iff : BatchExact disk filling view (batch ++ rest) (batch.map PartitionInfo.nPatitionId) ↔
          rest = [] := batch_exact_iff filled indices
      have length := congrArg List.length indices
      rw [List.length_map, foundNodes, List.length_take] at length
      have whole : rest = [] ↔ (present disk).length ≤ (reachable disk filling).length := by
        rw [← List.length_eq_zero_iff]
        omega
      rw [run, ← whole, ← exact_iff]
      constructor
      · rintro ⟨_, same, every⟩
        cases same
        exact ⟨every _ _ rfl, reads⟩
      · rintro ⟨exact, _⟩
        refine ⟨_, rfl, ?_⟩
        intro array found same
        cases same
        exact exact

theorem readable_of_fits {disk : PluggedDisk} {view : PassView}
    (fits : ∀ e ∈ grepTable disk.szDiskName view.table, e.Fits) (i : Nat) : Readable disk view i := by
  obtain ⟨k, found⟩ := getMountPath_spec (name_in_partPath disk i) fits
  rw [Readable, found]
  simp

def twoPartitions : PluggedDisk where
  nDiskId := 1
  szDiskName := sdName 0
  scanned := by decide
  access := fun p => p == partPath (sdName 0) 1 || p == partPath (sdName 0) 2
  opendir := true

def usedMemory : PassView where
  table := []
  array := fun _ => ⟨7, 7, [], [], 7, 7, 7, [], 7⟩
  statfs := fun _ => none
  ext3Label := fun _ => none

/-- The second node is gone when the loop looks for it: its record is handed over all the
    same, with the memory's old disk id and partition id. -/
theorem vanished_node_batch :
    detectBatch .bits32 twoPartitions (fun p => p == partPath (sdName 0) 1) usedMemory =
      some (some ([⟨1, 1, [], [], 7, 7, 1, partPath (sdName 0) 1, 7⟩,
        ⟨7, 7, [], [], 7, 7, 7, partPath (sdName 0) 2, 7⟩], [1])) ∧
    ¬ BatchExact twoPartitions (fun p => p == partPath (sdName 0) 1) usedMemory
      [⟨1, 1, [], [], 7, 7, 1, partPath (sdName 0) 1, 7⟩,
        ⟨7, 7, [], [], 7, 7, 7, partPath (sdName 0) 2, 7⟩] [1] := by
  refine ⟨by decide +kernel, ?_⟩
  intro exact
  have lengths := congrArg List.length exact.keys
  simp at lengths

end TestSource
