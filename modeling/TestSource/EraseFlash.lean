import TestSource.Common
import Mathlib.Data.List.Basic

/- test_erase_flash.c: erasing sectors of an MTD device, by a table of regions or by one
   sector size. An int and a __u32 are both 32 bits here; the comparisons of offsets are
   unsigned and the loop counters signed, as in the source. calloc succeeds. -/
namespace TestSource

structure RegionInfo where
  offset : BitVec 32
  erasesize : BitVec 32
  numblocks : BitVec 32

structure MtdInfo where
  size : BitVec 32
  erasesize : BitVec 32

structure EraseInfo where
  start : BitVec 32
  length : BitVec 32
  deriving DecidableEq, Repr

/-- What open and the five ioctls answer. MEMUNLOCK and MEMERASE succeed or fail call by
    call; a call that fails to report has no answer. -/
structure Mtd where
  opens : Bool
  regionCount : Option (BitVec 32)
  regionInfo : Nat → Option RegionInfo
  memInfo : Option MtdInfo
  unlocks : Nat → Bool
  erases : Nat → Bool

/-- The rounds a loop makes that counts an int up from, or down to, zero. -/
def rounds (count : BitVec 32) : Nat := count.toInt.toNat

def RegionInfo.stop (r : RegionInfo) : BitVec 32 := r.offset + r.numblocks * r.erasesize

def RegionInfo.holds (start : BitVec 32) (r : RegionInfo) : Bool :=
  start ≥ r.offset && start < r.stop

/-- The erasing loop of region_erase from round `j` on, in region `i`: the result and the
    sectors erased. The loop also ends behind the last region. -/
def regionLoop (m : Mtd) (unlock : Bool) (reginfo : List RegionInfo) :
    Nat → Nat → Nat → BitVec 32 → Int × List EraseInfo
  | 0, _, _, _ => (0, [])
  | n + 1, j, i, start =>
      match reginfo[i]? with
      | none => (0, [])
      | some r =>
          let erase : EraseInfo := ⟨start, r.erasesize⟩
          if unlock && !m.unlocks j then (8, [])
          else if !m.erases j then (8, [])
          else
            let start := start + erase.length
            let rest := regionLoop m unlock reginfo n (j + 1)
              (if start ≥ r.stop then i + 1 else i) start
            (rest.1, erase :: rest.2)

def readRegions (m : Mtd) (regcount : BitVec 32) : Option (List RegionInfo) :=
  (List.range (rounds regcount)).mapM m.regionInfo

def regionErase (m : Mtd) (start count : BitVec 32) (unlock : Bool) (regcount : BitVec 32) :
    Int × List EraseInfo :=
  match readRegions m regcount with
  | none => (8, [])
  | some reginfo =>
      match reginfo.findIdx? (RegionInfo.holds start) with
      | none => (8, [])
      | some i => regionLoop m unlock reginfo (rounds count) 0 i start

def nonRegionLoop (m : Mtd) (unlock : Bool) (erasesize : BitVec 32) :
    Nat → Nat → BitVec 32 → Int × List EraseInfo
  | 0, _, _ => (0, [])
  | n + 1, j, start =>
      let erase : EraseInfo := ⟨start, erasesize⟩
      if unlock && !m.unlocks j then (8, [])
      else if !m.erases j then (8, [])
      else
        let rest := nonRegionLoop m unlock erasesize n (j + 1) (start + erasesize)
        (rest.1, erase :: rest.2)

/-- A sector size of zero is a division by zero. -/
def nonRegionErase (m : Mtd) (start count : BitVec 32) (unlock : Bool) :
    Option (Int × List EraseInfo) :=
  match m.memInfo with
  | none => some (0, [])
  | some meminfo =>
      if meminfo.erasesize = 0 then none
      else
        let tmpCount := meminfo.size / meminfo.erasesize
        let count := if start = 0 ∧ count = 0xFFFFFFFF then tmpCount else count
        some (nonRegionLoop m unlock meminfo.erasesize (rounds count) 0 start)

/-- start is a long here and an int in the two functions it is passed to. -/
def eraseBlock (z : WordSize) (m : Mtd) (start : BitVec z.bits) (count : BitVec 32) :
    Option (Int × List EraseInfo) :=
  if !m.opens then some (8, [])
  else
    match m.regionCount with
    | none => some (0, [])
    | some regcount =>
        if regcount = 0 then nonRegionErase m (start.setWidth 32) count false
        else some (regionErase m (start.setWidth 32) count false regcount)

def Consecutive : Nat → List EraseInfo → Prop
  | _, [] => True
  | start, e :: rest => e.start.toNat = start ∧ Consecutive (start + e.length.toNat) rest

structure AllErased (start : Nat) (count : BitVec 32) (erased : List EraseInfo) : Prop where
  number : (erased.length : Int) = count.toInt
  adjacent : Consecutive start erased

/-- The erase calls for sectors of the given sizes, where offsets are 32-bit words. -/
def placed : BitVec 32 → List (BitVec 32) → List EraseInfo
  | _, [] => []
  | start, size :: sizes => ⟨start, size⟩ :: placed (start + size) sizes

def Addressable : Nat → List (BitVec 32) → Prop
  | _, [] => True
  | start, size :: sizes => start < 4294967296 ∧ Addressable (start + size.toNat) sizes

def walk (reginfo : List RegionInfo) : Nat → Nat → BitVec 32 → List (BitVec 32)
  | 0, _, _ => []
  | n + 1, i, start =>
      match reginfo[i]? with
      | none => []
      | some r =>
          let next := start + r.erasesize
          r.erasesize :: walk reginfo n (if next ≥ r.stop then i + 1 else i) next

theorem placed_length (start : BitVec 32) (sizes : List (BitVec 32)) :
    (placed start sizes).length = sizes.length := by
  induction sizes generalizing start with
  | nil => rfl
  | cons size sizes ih => simp [placed, ih]

theorem placed_consecutive_iff (start : Nat) (sizes : List (BitVec 32)) :
    Consecutive start (placed (BitVec.ofNat 32 start) sizes) ↔ Addressable start sizes := by
  induction sizes generalizing start with
  | nil => exact Iff.rfl
  | cons size sizes ih =>
    have next : BitVec.ofNat 32 start + size = BitVec.ofNat 32 (start + size.toNat) := by
      rw [BitVec.ofNat_add, BitVec.ofNat_toNat, BitVec.setWidth_eq]
    have first : start % 4294967296 = start ↔ start < 4294967296 := by omega
    simp only [placed, Consecutive, Addressable, next, ih, BitVec.toNat_ofNat, first]

section Loops
variable {m : Mtd}

theorem regionLoop_succeeds {reginfo : List RegionInfo} {n j i : Nat} (start : BitVec 32)
    (all : ∀ k, k < (walk reginfo n i start).length → m.erases (j + k) = true) :
    regionLoop m false reginfo n j i start = (0, placed start (walk reginfo n i start)) := by
  induction n generalizing j i start with
  | zero => rfl
  | succ n ih =>
    cases region : reginfo[i]? with
    | none => simp [regionLoop, walk, region, placed]
    | some r =>
      simp only [walk, region, List.length_cons] at all
      have first : m.erases j = true := by simpa using all 0 (by omega)
      have rest := ih (j := j + 1) (i := if start + r.erasesize ≥ r.stop then i + 1 else i)
        (start + r.erasesize) (by
          intro k below
          have later := all (k + 1) (by omega)
          rwa [← Nat.add_assoc, Nat.add_right_comm] at later)
      simp [regionLoop, walk, region, first, rest, placed]

theorem regionLoop_fails {reginfo : List RegionInfo} {n j i k : Nat} (start : BitVec 32)
    (below : k < (walk reginfo n i start).length) (fails : m.erases (j + k) = false) :
    (regionLoop m false reginfo n j i start).1 = 8 := by
  induction n generalizing j i k start with
  | zero => simp [walk] at below
  | succ n ih =>
    cases region : reginfo[i]? with
    | none => simp [walk, region] at below
    | some r =>
      simp only [walk, region, List.length_cons] at below
      by_cases first : m.erases j = true
      · cases k with
        | zero => simp [first] at fails
        | succ k =>
          have later := ih (j := j + 1) (k := k)
            (i := if start + r.erasesize ≥ r.stop then i + 1 else i) (start + r.erasesize) (by omega)
            (by rwa [← Nat.add_assoc, Nat.add_right_comm] at fails)
          simpa [regionLoop, region, first] using later
      · simp [regionLoop, region, first]

theorem nonRegionLoop_succeeds {erasesize : BitVec 32} {n j : Nat} (start : BitVec 32)
    (all : ∀ k, k < n → m.erases (j + k) = true) :
    nonRegionLoop m false erasesize n j start =
      (0, placed start (List.replicate n erasesize)) := by
  induction n generalizing j start with
  | zero => rfl
  | succ n ih =>
    have first : m.erases j = true := by simpa using all 0 (by omega)
    have rest := ih (j := j + 1) (start + erasesize) (by
      intro k below
      have later := all (k + 1) (by omega)
      rwa [← Nat.add_assoc, Nat.add_right_comm] at later)
    simp [nonRegionLoop, first, rest, placed, List.replicate_succ]

theorem nonRegionLoop_fails (erasesize : BitVec 32) {n j k : Nat} (start : BitVec 32)
    (below : k < n) (fails : m.erases (j + k) = false) :
    (nonRegionLoop m false erasesize n j start).1 = 8 := by
  induction n generalizing j k start with
  | zero => omega
  | succ n ih =>
    by_cases first : m.erases j = true
    · cases k with
      | zero => simp [first] at fails
      | succ k =>
        have later := ih (j := j + 1) (k := k) (start + erasesize) (by omega)
          (by rwa [← Nat.add_assoc, Nat.add_right_comm] at fails)
        simpa [nonRegionLoop, first] using later
    · simp [nonRegionLoop, first]

end Loops

/-- The sectors found are as many as asked for and all have a 32-bit offset, or erasing one
    of them fails. -/
def Reached (m : Mtd) (start : Nat) (count : BitVec 32) (sizes : List (BitVec 32)) : Prop :=
  (sizes.length = rounds count ∧ Addressable start sizes) ∨
    ∃ k, k < sizes.length ∧ m.erases k = false

/-- The device cannot be opened, or its geometry is reported and reaches as far as the
    request. A region table that cannot be read, or does not hold the start, is reported as
    a failure. -/
def RequestReached (m : Mtd) (start : Nat) (count : BitVec 32) : Prop :=
  m.opens = false ∨ ∃ regcount, m.regionCount = some regcount ∧
    (regcount = 0 → ∃ meminfo, m.memInfo = some meminfo ∧ (meminfo.erasesize = 0 ∨
      Reached m start count (List.replicate (rounds count) meminfo.erasesize))) ∧
    (regcount ≠ 0 → ∀ reginfo i, readRegions m regcount = some reginfo →
      reginfo.findIdx? (RegionInfo.holds (BitVec.ofNat 32 start)) = some i →
      Reached m start count (walk reginfo (rounds count) i (BitVec.ofNat 32 start)))

theorem rounds_positive {count : BitVec 32} (positive : 1 ≤ count.toInt) :
    (rounds count : Int) = count.toInt := by
  unfold rounds
  omega

theorem nothing_erased {start : Nat} {count : BitVec 32} (positive : 1 ≤ count.toInt) :
    ¬ AllErased start count [] := by
  intro erased
  have number := erased.number
  simp only [List.length_nil] at number
  omega

/-- Both loops end in the same two ways, for the sizes of the sectors they go over. -/
theorem reached_iff {m : Mtd} {start : Nat} {count : BitVec 32} (positive : 1 ≤ count.toInt)
    {sizes : List (BitVec 32)} {run : Int × List EraseInfo}
    (succeeds : (∀ k, k < sizes.length → m.erases (0 + k) = true) →
      run = (0, placed (BitVec.ofNat 32 start) sizes))
    (failed : ∀ k, k < sizes.length → m.erases (0 + k) = false → run.1 = 8) :
    (∀ erased, run = (0, erased) → AllErased start count erased) ↔ Reached m start count sizes := by
  have number := rounds_positive positive
  by_cases fails : ∃ k, k < sizes.length ∧ m.erases k = false
  · have reached : Reached m start count sizes := Or.inr fails
    simp only [reached, iff_true]
    obtain ⟨k, below, no⟩ := fails
    have code := failed k below (by rwa [Nat.zero_add])
    intro erased same
    rw [same] at code
    cases code
  · have done := succeeds (by
      intro k below
      rw [Nat.zero_add]
      by_contra no
      exact fails ⟨k, below, by simpa using no⟩)
    simp only [Reached, fails, or_false, done, Prod.mk.injEq, true_and, forall_eq']
    rw [← placed_consecutive_iff]
    constructor
    · intro whole
      have length := whole.number
      rw [placed_length] at length
      exact ⟨by omega, whole.adjacent⟩
    · rintro ⟨length, adjacent⟩
      exact ⟨by rw [placed_length]; omega, adjacent⟩

theorem nonRegion_erased {m : Mtd} {start : Nat} {count : BitVec 32} (positive : 1 ≤ count.toInt) :
    (∀ erased, nonRegionErase m (BitVec.ofNat 32 start) count false = some (0, erased) →
      AllErased start count erased) ↔
    ∃ meminfo, m.memInfo = some meminfo ∧ (meminfo.erasesize = 0 ∨
      Reached m start count (List.replicate (rounds count) meminfo.erasesize)) := by
  unfold nonRegionErase
  cases info : m.memInfo with
  | none =>
    simp only [reduceCtorEq, false_and, exists_false, iff_false]
    intro every
    exact nothing_erased positive (every [] rfl)
  | some meminfo =>
    have plain : ¬ (BitVec.ofNat 32 start = 0 ∧ count = 0xFFFFFFFF) := by
      rintro ⟨_, all⟩
      rw [all] at positive
      exact absurd positive (by decide)
    simp only [Option.some.injEq, exists_eq_left', plain, ↓reduceIte]
    by_cases zero : meminfo.erasesize = 0
    · simp [zero]
    · simp only [zero, ↓reduceIte, false_or, Option.some.injEq]
      apply reached_iff positive
      · intro all
        exact nonRegionLoop_succeeds _ (by simpa using all)
      · intro k below no
        exact nonRegionLoop_fails _ _ (by simpa using below) no

theorem regionErase_placed {m : Mtd} {regcount start : BitVec 32} {reginfo : List RegionInfo}
    {i : Nat} (table : readRegions m regcount = some reginfo)
    (place : reginfo.findIdx? (RegionInfo.holds start) = some i) (count : BitVec 32)
    (unlock : Bool) :
    regionErase m start count unlock regcount =
      regionLoop m unlock reginfo (rounds count) 0 i start := by
  simp only [regionErase, table, place]

theorem region_erased {m : Mtd} {regcount : BitVec 32} {start : Nat} {count : BitVec 32}
    (positive : 1 ≤ count.toInt) :
    (∀ erased, regionErase m (BitVec.ofNat 32 start) count false regcount = (0, erased) →
      AllErased start count erased) ↔
    ∀ reginfo i, readRegions m regcount = some reginfo →
      reginfo.findIdx? (RegionInfo.holds (BitVec.ofNat 32 start)) = some i →
      Reached m start count (walk reginfo (rounds count) i (BitVec.ofNat 32 start)) := by
  have located {reginfo : List RegionInfo} {i : Nat} (table : readRegions m regcount = some reginfo)
      (place : reginfo.findIdx? (RegionInfo.holds (BitVec.ofNat 32 start)) = some i) :
      (∀ erased, regionErase m (BitVec.ofNat 32 start) count false regcount = (0, erased) →
        AllErased start count erased) ↔
      Reached m start count (walk reginfo (rounds count) i (BitVec.ofNat 32 start)) := by
    rw [regionErase_placed table place]
    exact reached_iff positive (regionLoop_succeeds _) fun _ => regionLoop_fails _
  constructor
  · intro every reginfo i table place
    exact (located table place).mp every
  · intro reached
    cases table : readRegions m regcount with
    | none => simp [regionErase, table]
    | some reginfo =>
      cases place : reginfo.findIdx? (RegionInfo.holds (BitVec.ofNat 32 start)) with
      | none => simp [regionErase, table, place]
      | some i => exact (located table place).mpr (reached reginfo i table place)

/-- For a request of at least one sector, a reported success means that all requested
    sectors were erased exactly when the reported geometry reaches as far as the request. -/
theorem erase_success_means_erased_iff (z : WordSize) (m : Mtd) (start : BitVec z.bits)
    (count : BitVec 32) (positive : 1 ≤ count.toInt) :
    (∀ erased, eraseBlock z m start count = some (0, erased) →
      AllErased start.toNat count erased) ↔ RequestReached m start.toNat count := by
  have cut : start.setWidth 32 = BitVec.ofNat 32 start.toNat := by
    apply BitVec.eq_of_toNat_eq
    simp
  unfold eraseBlock RequestReached
  rw [cut]
  cases opens : m.opens with
  | false => simp
  | true =>
    cases counted : m.regionCount with
    | none =>
      simp only [Bool.not_true, Bool.false_eq_true, ↓reduceIte, reduceCtorEq, false_and,
        exists_false, or_false, iff_false]
      intro every
      exact nothing_erased positive (every [] rfl)
    | some regcount =>
      simp only [Bool.not_true, Bool.false_eq_true, ↓reduceIte, reduceCtorEq, false_or,
        Option.some.injEq, exists_eq_left']
      by_cases flat : regcount = 0
      · simp only [flat, ↓reduceIte, forall_const, not_true, ne_eq, false_implies, and_true]
        exact nonRegion_erased positive
      · simp only [flat, ↓reduceIte, false_implies, true_and, ne_eq, not_false_eq_true,
          forall_const, Option.some.injEq]
        exact region_erased positive

def flatDevice : Mtd :=
  ⟨true, some 0, fun _ => none, some ⟨0x40000, 0x10000⟩, fun _ => true, fun _ => true⟩

theorem two_sectors_erased :
    1 ≤ (2#32).toInt ∧
    ((∀ erased, eraseBlock .bits32 flatDevice 0#32 2 = some (0, erased) → AllErased 0 2 erased) ↔
      RequestReached flatDevice 0 2) := by
  have positive : 1 ≤ (2#32).toInt := by decide
  exact ⟨positive, erase_success_means_erased_iff .bits32 flatDevice 0#32 2 positive⟩

def shortDevice : Mtd :=
  { flatDevice with regionCount := some 1, regionInfo := fun _ => some ⟨0, 0x10000, 2⟩ }

/-- Success is reported with nothing erased when the region count or the device info
    cannot be read, and with too little erased when the regions end first. -/
theorem success_without_erasing :
    eraseBlock .bits32 { flatDevice with regionCount := none } 0 1 = some (0, []) ∧
    ¬ AllErased 0 1 [] ∧
    eraseBlock .bits32 { flatDevice with memInfo := none } 0 1 = some (0, []) ∧
    eraseBlock .bits32 shortDevice 0 3 = some (0, [⟨0, 0x10000⟩, ⟨0x10000, 0x10000⟩]) ∧
    ¬ AllErased 0 3 [⟨0, 0x10000⟩, ⟨0x10000, 0x10000⟩] := by
  refine ⟨rfl, nothing_erased (by decide), rfl, by decide +kernel, ?_⟩
  intro erased
  exact absurd erased.number (by decide)

end TestSource
