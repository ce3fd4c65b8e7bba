import TestSource.DosFat

/- The passes of fat.c over the whole table: read_fat, fix_bad, reclaim_free and update_free.
   Each sets some of the entries, one after the other from the first to the last. -/
namespace TestSource.Dosfsck
open Splice

/-- for (i = 2; i < fs->clusters+2; i++) if (cond) set_fat(fs,i,new), and the clusters set. -/
def sweep (o : Options) (fs : DosFs) (cond : Fat → Nat → Bool) (new : Nat) :
    List Nat → Fat → Except Died (Fat × List Nat)
  | [], s => .ok (s, [])
  | i :: rest, s => do
      if cond s i then
        let t ← setFat o fs s i new
        let (u, set) ← sweep o fs cond new rest t
        pure (u, i :: set)
      else sweep o fs cond new rest s

def allClusters (fs : DosFs) : List Nat := List.range' 2 fs.clusters

section Passes
variable (o : Options) (fs : DosFs)

def unreadable (s : Fat) (i : Nat) : Bool :=
  (getOwner s i).isNone && !fatIsBad o fs (s.table i).value &&
    !fsTest s.disk (clusterStart fs i) fs.clusterSize

def fixBad (s : Fat) : Except Died (Fat × List Nat) :=
  sweep o fs (unreadable o fs) minusTwo (allClusters fs) s

def unused (s : Fat) (i : Nat) : Bool :=
  (getOwner s i).isNone && (s.table i).value ≠ 0 && !fatIsBad o fs (s.table i).value

def reclaimFree (s : Fat) : Except Died (Fat × List Nat) :=
  sweep o fs (unused o fs) 0 (allClusters fs) s

/-- The count that update_free returns. -/
def countFree (s : Fat) : Nat :=
  ((allClusters fs).filter fun i => (getOwner s i).isNone && !fatIsBad o fs (s.table i).value).length

end Passes

section Sweep
variable {o : Options} {fs : DosFs} {dev : Device}

/-- A condition of a pass: it reads the entry of its cluster and the device. -/
def Local (o : Options) (dev : Device) (cond : Fat → Nat → Bool) : Prop :=
  ∀ s t i, Ready o dev s.disk → Ready o dev t.disk → s.table i = t.table i → cond s i = cond t i

theorem sweep_sets {cond : Fat → Nat → Bool} {new : Nat} {lost : Bool} {is : List Nat} {s : Fat}
    (laid : Laid o fs dev) (ready : Ready o dev s.disk) (shows : BothShow fs s lost)
    (reads : Local o dev cond)
    (legal : new = minusOne ∨ new = minusTwo ∨ new < 2 ^ fs.fatBits.effSize)
    (inside : ∀ i ∈ is, 2 ≤ i ∧ i < fs.clusters + 2) (distinct : is.Nodup) :
    ∃ t, sweep o fs cond new is s = .ok (t, is.filter (cond s)) ∧ Ready o dev t.disk ∧
      (∀ i, t.table i = if i ∈ is ∧ cond s i then { s.table i with value := newValue o fs new }
        else s.table i) ∧
      BothShow fs t ((is.filter (cond s)).foldl (lostAfter fs) lost) ∧
      Untouched fs s.disk.view t.disk.view := by
  induction is generalizing s lost with
  | nil => exact ⟨s, rfl, ready, by simp, shows, fun _ _ => rfl⟩
  | cons i is ih =>
    obtain ⟨fresh, apart⟩ := List.nodup_cons.mp distinct
    have rest : ∀ j ∈ is, 2 ≤ j ∧ j < fs.clusters + 2 := fun j mem => inside j (by simp [mem])
    by_cases meets : cond s i = true
    · obtain ⟨low, high⟩ := inside i (by simp)
      obtain ⟨u, done, next, table, shown, kept⟩ := setFat_shows laid ready shows low high legal
      obtain ⟨t, swept, last, final, both, more⟩ := ih next shown rest apart
      -- the entries still to come are as they were
      have other : ∀ j, j ≠ i → u.table j = s.table j := by
        intro j ne
        rw [table, setValue, Function.update_of_ne ne]
      have same : ∀ j ∈ is, cond u j = cond s j := by
        intro j mem
        apply reads u s j next ready
        exact other j (fun equal => fresh (equal ▸ mem))
      have filter : is.filter (cond u) = is.filter (cond s) := List.filter_congr same
      rw [filter] at swept both
      refine ⟨t, ?_, last, ?_, ?_, untouched_trans kept more⟩
      · simp [sweep, meets, done, swept, bind, Except.bind, pure, Except.pure]
      · intro j
        rw [final j]
        by_cases here : j = i
        · subst here
          rw [if_neg (fun both => fresh both.1), if_pos ⟨by simp, meets⟩, table, setValue,
            Function.update_self]
        · rw [other j here]
          by_cases mem : j ∈ is
          · simp [mem, same j mem]
          · simp [mem, here]
      · simpa [meets] using both
    · obtain ⟨t, swept, last, final, both, kept⟩ := ih ready shows rest apart
      refine ⟨t, ?_, last, ?_, ?_, kept⟩
      · simp [sweep, meets, swept]
      · intro j
        rw [final j]
        by_cases here : j = i
        · subst here
          simp [meets, fresh]
        · simp [here]
      · simpa [meets] using both

/-- A pass that sets the cluster before `clusters`, and not `clusters` itself, on a FAT12
    with an odd number of clusters. -/
def Truncates (fs : DosFs) (cond : Nat → Bool) : Prop :=
  (fs.fatBits = .fat12 ∧ fs.clusters % 2 = 1 ∧ 3 ≤ fs.clusters) ∧
    cond (fs.clusters - 1) = true ∧ cond fs.clusters = false

instance (fs : DosFs) (cond : Nat → Bool) : Decidable (Truncates fs cond) := by
  unfold Truncates
  infer_instance

theorem foldl_lost_false {is : List Nat} (apart : ∀ i ∈ is, ¬ Slip fs i) :
    is.foldl (lostAfter fs) false = false := by
  induction is with
  | nil => rfl
  | cons i is ih =>
    have first : lostAfter fs false i = false := by
      simp [lostAfter, apart i (by simp)]
    rw [List.foldl_cons, first]
    exact ih fun j mem => apart j (by simp [mem])

theorem allClusters_split (large : 3 ≤ fs.clusters) :
    allClusters fs = List.range' 2 (fs.clusters - 3) ++
      [fs.clusters - 1, fs.clusters, fs.clusters + 1] := by
  have tail : [fs.clusters - 1, fs.clusters, fs.clusters + 1] =
      List.range' (2 + 1 * (fs.clusters - 3)) 3 := by
    have first : 2 + 1 * (fs.clusters - 3) = fs.clusters - 1 := by omega
    have second : fs.clusters - 1 + 1 = fs.clusters := by omega
    simp only [List.range'_succ, List.range'_zero, first, second]
  rw [tail, List.range'_append, allClusters]
  congr 1
  omega

theorem lost_after_pass (cond : Nat → Bool) :
    ((allClusters fs).filter cond).foldl (lostAfter fs) false = decide (Truncates fs cond) := by
  by_cases large : 3 ≤ fs.clusters
  · have front : ((List.range' 2 (fs.clusters - 3)).filter cond).foldl (lostAfter fs) false = false := by
      apply foldl_lost_false
      intro i mem slip
      have := List.mem_range'_1.mp (List.mem_filter.mp mem).1
      have := slip.2.2
      omega
    have slip : Slip fs (fs.clusters - 1) ↔ fs.fatBits = .fat12 ∧ fs.clusters % 2 = 1 := by
      unfold Slip
      constructor
      · rintro ⟨kind, even, _⟩
        exact ⟨kind, by omega⟩
      · rintro ⟨kind, odd⟩
        exact ⟨kind, by omega, by omega⟩
    have itself : ¬ Slip fs fs.clusters := fun slip => by have := slip.2.2; omega
    have behind : ¬ Slip fs (fs.clusters + 1) := fun slip => by have := slip.2.2; omega
    have before : ¬ fs.clusters - 1 = fs.clusters := by omega
    rw [allClusters_split large, List.filter_append, List.foldl_append, front]
    cases first : cond (fs.clusters - 1) <;> cases second : cond fs.clusters <;>
      cases third : cond (fs.clusters + 1) <;>
      simp [first, second, third, lostAfter, slip, itself, behind, before, Truncates, large]
  · have none : ((allClusters fs).filter cond).foldl (lostAfter fs) false = false := by
      apply foldl_lost_false
      intro i mem slip
      have := List.mem_range'_1.mp (List.mem_filter.mp mem).1
      have := slip.2.2
      omega
    rw [none, eq_comm, decide_eq_false_iff_not]
    exact fun truncates => large truncates.1.2.2

/-- Reading either copy of the table back gives the table in memory, less the low bits of
    the entry of `clusters` when they are lost. -/
def ReadsAs (fs : DosFs) (s : Fat) (lost : Bool) : Prop :=
  ∀ start, start = fs.fatStart ∨ start = fs.fatStart + fs.fatSize →
    ∃ bytes, fsRead s.disk start (effSize fs) = .ok bytes ∧
      ∀ i, 2 ≤ i → i < fs.clusters + 2 →
        (getFat (s.table i) bytes i fs).value = shownValue fs s.table lost i

theorem readsAs_of_shows {s : Fat} {lost : Bool} (laid : Laid o fs dev) (ready : Ready o dev s.disk)
    (shows : BothShow fs s lost) : ReadsAs fs s lost := by
  obtain ⟨first, second⟩ := copies_within laid
  intro start place
  cases place with
  | inl front =>
    subst front
    refine ⟨_, fsRead_ready ready first, ?_⟩
    intro i lowest highest
    rw [getFat_slice _ _ _ (covered_of_lt highest), shows.1.value i lowest highest]
  | inr back =>
    subst back
    refine ⟨_, fsRead_ready ready second, ?_⟩
    intro i lowest highest
    rw [getFat_slice _ _ _ (covered_of_lt highest), shows.2.value i lowest highest]

theorem pass_sets {cond : Fat → Nat → Bool} {new : Nat} {s : Fat} (laid : Laid o fs dev)
    (ready : Ready o dev s.disk) (mirrored : Mirrored fs s) (reads : Local o dev cond)
    (legal : new = minusOne ∨ new = minusTwo ∨ new < 2 ^ fs.fatBits.effSize) :
    ∃ t, sweep o fs cond new (allClusters fs) s = .ok (t, (allClusters fs).filter (cond s)) ∧
      Ready o dev t.disk ∧
      (∀ i, t.table i = if (2 ≤ i ∧ i < fs.clusters + 2) ∧ cond s i then
          { s.table i with value := newValue o fs new } else s.table i) ∧
      ReadsAs fs t (decide (Truncates fs (cond s))) ∧ Untouched fs s.disk.view t.disk.view := by
  have inside : ∀ i, i ∈ allClusters fs ↔ 2 ≤ i ∧ i < fs.clusters + 2 := by
    intro i
    rw [allClusters, List.mem_range'_1, Nat.add_comm 2]
  obtain ⟨t, swept, next, table, shows, kept⟩ := sweep_sets laid ready
    (bothShow_of_mirrored laid ready mirrored) reads legal (fun i mem => (inside i).mp mem)
    (List.nodup_range')
  rw [lost_after_pass] at shows
  refine ⟨t, swept, next, ?_, readsAs_of_shows laid next shows, kept⟩
  intro i
  rw [table i]
  simp only [inside]

theorem unused_local (fs : DosFs) : Local o dev (unused o fs) := by
  intro s t i _ _ same
  simp only [unused, getOwner, same]

theorem unreadable_local (fs : DosFs) : Local o dev (unreadable o fs) := by
  intro s t i first second same
  have test : fsTest s.disk (clusterStart fs i) fs.clusterSize =
      fsTest t.disk (clusterStart fs i) fs.clusterSize := by
    simp only [fsTest, Device.read, slice, List.length_take, List.length_drop, first.length,
      second.length, first.unreadable, second.unreadable]
  simp only [unreadable, getOwner, same, test]

theorem bad_marked : fatIsBad o fs (newValue o fs minusTwo) = true := by
  have marked : newValue o fs minusTwo = fatBad fs := rfl
  rw [marked]
  unfold fatIsBad fatMinBad fatMaxBad fatBad fatExtd
  cases fs.fatBits <;> cases o.atariFormat <;> decide

/-- fix_bad marks exactly the clusters of no file that cannot be read, and none is left. -/
theorem fix_bad_marks {s : Fat} (laid : Laid o fs dev) (ready : Ready o dev s.disk)
    (mirrored : Mirrored fs s) :
    ∃ t, fixBad o fs s = .ok (t, (allClusters fs).filter (unreadable o fs s)) ∧
      (∀ i, 2 ≤ i → i < fs.clusters + 2 →
        fatIsBad o fs (t.table i).value = (fatIsBad o fs (s.table i).value || unreadable o fs s i) ∧
        unreadable o fs t i = false) ∧
      ReadsAs fs t (decide (Truncates fs (unreadable o fs s))) ∧
      Untouched fs s.disk.view t.disk.view := by
  obtain ⟨t, swept, next, table, reads, kept⟩ :=
    pass_sets laid ready mirrored (unreadable_local fs) (Or.inr (Or.inl rfl))
  refine ⟨t, swept, ?_, reads, kept⟩
  intro i lowest highest
  have entry := table i
  simp only [lowest, highest, and_self, true_and] at entry
  cases seen : unreadable o fs s i with
  | true =>
    rw [seen, if_pos rfl] at entry
    have bad : fatIsBad o fs (t.table i).value = true := by
      rw [entry]
      exact bad_marked
    exact ⟨by rw [bad, Bool.or_true], by simp [unreadable, bad]⟩
  | false =>
    rw [seen, if_neg (by decide)] at entry
    rw [entry, Bool.or_false, ← seen]
    exact ⟨rfl, unreadable_local fs t s i next ready entry⟩

theorem newValue_zero : newValue o fs 0 = 0 := rfl

theorem not_bad_zero : fatIsBad o fs 0 = false := by
  unfold fatIsBad fatMinBad fatMaxBad fatExtd
  cases fs.fatBits <;> cases o.atariFormat <;> decide

/-- reclaim_free frees exactly the clusters that are in use, not bad and owned by no file, and
    leaves every other entry alone; the count of update_free is then that of the zero
    entries without an owner. Both copies on the disk read back as the table, but for one
    case: on a FAT12 with an odd number of clusters, when the cluster before `clusters` is
    freed and `clusters` is not, the entry of `clusters` loses its low four bits on the disk. -/
theorem reclaim_free_frees {s : Fat} (laid : Laid o fs dev) (ready : Ready o dev s.disk)
    (mirrored : Mirrored fs s) :
    ∃ t, reclaimFree o fs s = .ok (t, (allClusters fs).filter (unused o fs s)) ∧
      (∀ i, 2 ≤ i → i < fs.clusters + 2 →
        t.table i = (if unused o fs s i then { s.table i with value := 0 } else s.table i) ∧
        unused o fs t i = false) ∧
      countFree o fs t = ((allClusters fs).filter fun i =>
        (getOwner s i).isNone && (t.table i).value = 0).length ∧
      ReadsAs fs t (decide (Truncates fs (unused o fs s))) ∧
      Untouched fs s.disk.view t.disk.view := by
  obtain ⟨t, swept, next, table, reads, kept⟩ :=
    pass_sets laid ready mirrored (unused_local fs) (Or.inr (Or.inr (Nat.two_pow_pos fs.fatBits.effSize)))
  rw [newValue_zero] at table
  have entry : ∀ i, 2 ≤ i → i < fs.clusters + 2 →
      t.table i = if unused o fs s i then { s.table i with value := 0 } else s.table i := by
    intro i lowest highest
    rw [table i]
    simp [lowest, highest]
  have done : ∀ i, 2 ≤ i → i < fs.clusters + 2 → unused o fs t i = false := by
    intro i lowest highest
    have here := entry i lowest highest
    cases used : unused o fs s i with
    | true =>
      rw [used, if_pos rfl] at here
      simp [unused, here]
    | false =>
      rw [used, if_neg (by decide)] at here
      rw [← used]
      exact unused_local fs t s i next ready here
  refine ⟨t, swept, fun i lowest highest => ⟨entry i lowest highest, done i lowest highest⟩, ?_,
    reads, kept⟩
  rw [countFree]
  congr 1
  apply List.filter_congr
  intro i mem
  rw [allClusters, List.mem_range'_1] at mem
  have owner : getOwner t i = getOwner s i := by
    rw [getOwner, entry i mem.1 (by omega), getOwner]
    split <;> rfl
  have free := done i mem.1 (by omega)
  simp only [unused, owner] at free
  rw [owner]
  by_cases zero : (t.table i).value = 0
  · simp [zero, not_bad_zero]
  · cases none : (getOwner s i).isNone with
    | true => simpa [none, zero] using free
    | false => simp

theorem three_clusters_freed : ∃ t, reclaimFree automatic threeClusters threeFat = .ok (t, [2]) ∧
    ReadsAs threeClusters t true ∧ (t.table 3).value = 0xff8 ∧
    shownValue threeClusters t.table true 3 = 0xff0 := by
  have freed : (allClusters threeClusters).filter (unused automatic threeClusters threeFat) = [2] := by
    decide
  have cut : decide (Truncates threeClusters (unused automatic threeClusters threeFat)) = true := by
    decide
  obtain ⟨t, done, entries, _, reads, _⟩ :=
    reclaim_free_frees three_laid three_ready three_mirrored
  rw [freed] at done
  rw [cut] at reads
  have third : t.table 3 = threeFat.table 3 := (entries 3 (by decide) (by decide)).1
  refine ⟨t, done, reads, by rw [third]; rfl, ?_⟩
  rw [shownValue, third]
  decide

end Sweep

section Load
variable {o : Options} {fs : DosFs} {dev : Device} {d : Disk}

def firstFat (fs : DosFs) (d : Disk) : List Byte := slice d.view fs.fatStart (effSize fs)
def secondFat (fs : DosFs) (d : Disk) : List Byte :=
  slice d.view (fs.fatStart + fs.fatSize) (effSize fs)

theorem copy_first (laid : Laid o fs dev) (ready : Ready o dev d) :
    ∃ t, fsWrite o.writeImmed d (fs.fatStart + fs.fatSize) (firstFat fs d) = .ok t ∧ Ready o dev t ∧
      firstFat fs t = firstFat fs d ∧ secondFat fs t = firstFat fs d ∧ Untouched fs d.view t.view := by
  have room := laid.room
  have whole := effSize_le laid
  have view := ready_length ready
  have length : (firstFat fs d).length = effSize fs := slice_length (by omega)
  obtain ⟨t, wrote, next, after⟩ := ready_write ready
    (show fs.fatStart + fs.fatSize + (firstFat fs d).length ≤ _ by omega)
  have fits : fs.fatStart + fs.fatSize + (firstFat fs d).length ≤ d.view.length := by omega
  refine ⟨t, wrote, next, ?_, ?_, ?_⟩
  · rw [firstFat, after, slice_splice_beside fits (by omega), firstFat]
  · rw [secondFat, after, ← length, slice_splice_same fits]
  · rw [after]
    exact untouched_splice fits (by omega) (by omega)

end Load
end TestSource.Dosfsck
