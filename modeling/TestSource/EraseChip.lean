import Mathlib.Algebra.Order.Ring.Nat
import TestSource.EraseFlash

/- The two paths of erase_block on a chip with one sector size, once reported without
   regions and once as a table of adjoining regions; every ioctl succeeds. -/
namespace TestSource

/-- The sectors of each region in turn. The size of the chip fits in the __u32 that reports
    it and the number of regions in an int. -/
structure UniformChip where
  erasesize : Nat
  blocks : List Nat
  positive : 0 < erasesize
  nonempty : 0 < blocks.sum
  sized : blocks.sum * erasesize < 4294967296
  counted : blocks.length < 2147483648

namespace UniformChip
variable (c : UniformChip)

def regionStart (i : Nat) : Nat := (c.blocks.take i).sum * c.erasesize

def regionAt (i : Nat) : RegionInfo :=
  ⟨BitVec.ofNat 32 (c.regionStart i), BitVec.ofNat 32 c.erasesize, BitVec.ofNat 32 (c.blocks.getD i 0)⟩

def info : MtdInfo := ⟨BitVec.ofNat 32 (c.blocks.sum * c.erasesize), BitVec.ofNat 32 c.erasesize⟩

def flat : Mtd := ⟨true, some 0, fun _ => none, some c.info, fun _ => true, fun _ => true⟩

def byRegions : Mtd where
  opens := true
  regionCount := some (BitVec.ofNat 32 c.blocks.length)
  regionInfo := fun i => if i < c.blocks.length then some (c.regionAt i) else none
  memInfo := some c.info
  unlocks := fun _ => true
  erases := fun _ => true

def table : List RegionInfo := (List.range c.blocks.length).map c.regionAt

inductive Request where
  | inside (first number : Nat) (starts : first < c.blocks.sum) (ends : first + number ≤ c.blocks.sum)
      (int : number < 2147483648)
  | whole

def Request.start {c : UniformChip} : Request c → Nat
  | .inside first _ _ _ _ => first * c.erasesize
  | .whole => 0

def Request.count {c : UniformChip} : Request c → BitVec 32
  | .inside _ number _ _ _ => BitVec.ofNat 32 number
  | .whole => 0xFFFFFFFF

end UniformChip

theorem rounds_ofNat {n : Nat} (small : n < 2147483648) : rounds (BitVec.ofNat 32 n) = n := by
  rw [rounds, BitVec.toInt_eq_toNat_of_lt]
  · rw [BitVec.toNat_ofNat]
    omega
  · rw [BitVec.toNat_ofNat]
    omega

theorem rounds_large {n : Nat} (large : 2147483648 ≤ n) (word : n < 4294967296) :
    rounds (BitVec.ofNat 32 n) = 0 := by
  rw [rounds, BitVec.toInt_eq_toNat_cond, BitVec.toNat_ofNat]
  rw [Nat.mod_eq_of_lt word, if_neg (by omega)]
  omega

theorem rounds_zero_iff {n : Nat} (positive : 0 < n) (word : n < 4294967296) :
    rounds (BitVec.ofNat 32 n) = 0 ↔ 2147483648 ≤ n := by
  constructor
  · intro none
    by_contra small
    rw [rounds_ofNat (by omega)] at none
    omega
  · intro large
    exact rounds_large large word

section Regions
variable {c : UniformChip}
open UniformChip

theorem regionStart_succ {i : Nat} (inside : i < c.blocks.length) :
    c.regionStart (i + 1) = c.regionStart i + c.blocks.getD i 0 * c.erasesize := by
  simp only [regionStart, List.take_add_one, List.sum_append, Nat.add_mul]
  simp [inside]

theorem regionStart_le (i : Nat) : c.regionStart i ≤ c.blocks.sum * c.erasesize := by
  apply Nat.mul_le_mul_right
  have split : c.blocks.sum = (c.blocks.take i).sum + (c.blocks.drop i).sum := by
    rw [← List.sum_append, List.take_append_drop]
  omega

theorem regionStart_end {i : Nat} (behind : c.blocks.length ≤ i) :
    c.regionStart i = c.blocks.sum * c.erasesize := by
  rw [regionStart, List.take_of_length_le behind]

theorem region_stop {i : Nat} (inside : i < c.blocks.length) :
    (c.regionAt i).stop = BitVec.ofNat 32 (c.regionStart (i + 1)) := by
  simp only [RegionInfo.stop, regionAt, regionStart_succ inside, BitVec.ofNat_add, BitVec.ofNat_mul]

theorem ofNat_le_iff {a b : Nat} (left : a < 4294967296) (right : b < 4294967296) :
    BitVec.ofNat 32 a ≤ BitVec.ofNat 32 b ↔ a ≤ b := by
  rw [BitVec.le_def, BitVec.toNat_ofNat, BitVec.toNat_ofNat, Nat.mod_eq_of_lt left,
    Nat.mod_eq_of_lt right]

theorem reports_read {f : Nat → Option RegionInfo} {entry : Nat → RegionInfo} {l : List Nat}
    (reported : ∀ i ∈ l, f i = some (entry i)) : l.mapM f = some (l.map entry) := by
  induction l with
  | nil => rfl
  | cons i l ih =>
    have first := reported i (by simp)
    have rest := ih fun x mem => reported x (by simp [mem])
    simp [List.mapM_cons, first, rest]

theorem table_read : readRegions c.byRegions (BitVec.ofNat 32 c.blocks.length) = some c.table := by
  rw [readRegions, rounds_ofNat c.counted]
  apply reports_read
  intro i inside
  exact if_pos (List.mem_range.mp inside)

theorem region_found {place : Nat} (inside : place < c.blocks.sum * c.erasesize) :
    ∃ i, i < c.blocks.length ∧ c.regionStart i ≤ place ∧ place < c.regionStart (i + 1) := by
  have every : ∀ n, n ≤ c.blocks.length → place < c.regionStart n →
      ∃ i, i < n ∧ c.regionStart i ≤ place ∧ place < c.regionStart (i + 1) := by
    intro n
    induction n with
    | zero => simp [regionStart]
    | succ n ih =>
      intro within below
      by_cases before : place < c.regionStart n
      · obtain ⟨i, less, found⟩ := ih (by omega) before
        exact ⟨i, by omega, found⟩
      · exact ⟨n, by omega, by omega, below⟩
  exact every _ (Nat.le_refl _) (by rwa [regionStart_end (Nat.le_refl _)])

theorem region_holds_iff {place i : Nat} (inside : place < c.blocks.sum * c.erasesize)
    (region : i < c.blocks.length) :
    (c.regionAt i).holds (BitVec.ofNat 32 place) = true ↔
      c.regionStart i ≤ place ∧ place < c.regionStart (i + 1) := by
  have sized := c.sized
  have low := regionStart_le (c := c) i
  have high := regionStart_le (c := c) (i + 1)
  have first : (c.regionAt i).offset = BitVec.ofNat 32 (c.regionStart i) := rfl
  simp only [RegionInfo.holds, region_stop region, first, ge_iff_le, Bool.and_eq_true,
    decide_eq_true_eq, ← BitVec.not_le]
  rw [ofNat_le_iff (by omega) (by omega), ofNat_le_iff (by omega) (by omega), Nat.not_le]

theorem table_entry_at {i : Nat} (region : i < c.blocks.length) :
    c.table[i]? = some (c.regionAt i) := by
  simp [table, region]

theorem place_found {place : Nat} (inside : place < c.blocks.sum * c.erasesize) :
    ∃ i, c.table.findIdx? (RegionInfo.holds (BitVec.ofNat 32 place)) = some i ∧
      c.regionStart i ≤ place := by
  obtain ⟨k, region, found⟩ := region_found inside
  cases search : c.table.findIdx? (RegionInfo.holds (BitVec.ofNat 32 place)) with
  | none =>
    have nowhere := List.findIdx?_eq_none_iff.mp search (c.regionAt k)
      (List.mem_of_getElem? (table_entry_at region))
    rw [(region_holds_iff inside region).mpr found] at nowhere
    cases nowhere
  | some i =>
    obtain ⟨within, holds, _⟩ := List.findIdx?_eq_some_iff_getElem.mp search
    have region : i < c.blocks.length := by simpa [table] using within
    have entry : c.table[i] = c.regionAt i := by simp [table]
    rw [entry, region_holds_iff inside region] at holds
    exact ⟨i, rfl, holds.1⟩

/-- Walking the regions erases the same sectors as counting them. The region index can
    fall behind where regions are empty, but never runs ahead of the place reached. -/
theorem regionLoop_uniform (n j : Nat) {i k : Nat} (behind : c.regionStart i ≤ k * c.erasesize)
    (room : k + n ≤ c.blocks.sum) :
    regionLoop c.byRegions false c.table n j i (BitVec.ofNat 32 (k * c.erasesize)) =
      (0, placed (BitVec.ofNat 32 (k * c.erasesize)) (List.replicate n (BitVec.ofNat 32 c.erasesize))) := by
  induction n generalizing j i k with
  | zero => rfl
  | succ n ih =>
    have sized := c.sized
    have region : i < c.blocks.length := by
      by_contra beyond
      rw [regionStart_end (by omega)] at behind
      have less : k * c.erasesize < c.blocks.sum * c.erasesize :=
        Nat.mul_lt_mul_of_pos_right (by omega) c.positive
      omega
    have next : BitVec.ofNat 32 (k * c.erasesize) + BitVec.ofNat 32 c.erasesize =
        BitVec.ofNat 32 ((k + 1) * c.erasesize) := by
      rw [← BitVec.ofNat_add, Nat.succ_mul]
    have within : (k + 1) * c.erasesize ≤ c.blocks.sum * c.erasesize :=
      Nat.mul_le_mul_right _ (by omega)
    have stop := regionStart_le (c := c) (i + 1)
    have moves : BitVec.ofNat 32 (c.regionStart (i + 1)) ≤ BitVec.ofNat 32 ((k + 1) * c.erasesize) ↔
        c.regionStart (i + 1) ≤ (k + 1) * c.erasesize := ofNat_le_iff (by omega) (by omega)
    have rest := ih (j + 1) (i := if c.regionStart (i + 1) ≤ (k + 1) * c.erasesize then i + 1 else i)
      (k := k + 1) (by
        split
        · assumption
        · rw [Nat.succ_mul]
          omega) (by omega)
    have size : (c.regionAt i).erasesize = BitVec.ofNat 32 c.erasesize := rfl
    have good : c.byRegions.erases j = true := rfl
    simp only [regionLoop, table_entry_at region, size, next, region_stop region, moves, good,
      Bool.false_and, Bool.not_true, Bool.false_eq_true, ↓reduceIte, rest, placed, List.replicate_succ]

theorem erasesize_word : c.erasesize < 4294967296 := by
  have sized := c.sized
  have least := Nat.le_mul_of_pos_left c.erasesize c.nonempty
  omega

theorem erasesize_nonzero : BitVec.ofNat 32 c.erasesize ≠ 0 := by
  have word := erasesize_word (c := c)
  have positive := c.positive
  intro zero
  have value : c.erasesize % 4294967296 = 0 := by simpa using congrArg BitVec.toNat zero
  omega

theorem sector_count : c.info.size / c.info.erasesize = BitVec.ofNat 32 c.blocks.sum := by
  have sized := c.sized
  have word := erasesize_word (c := c)
  have fewer := Nat.le_mul_of_pos_right c.blocks.sum c.positive
  apply BitVec.eq_of_toNat_eq
  simp only [info, BitVec.toNat_udiv, BitVec.toNat_ofNat, Nat.reducePow, Nat.mod_eq_of_lt sized,
    Nat.mod_eq_of_lt word, Nat.mul_div_cancel _ c.positive]
  rw [Nat.mod_eq_of_lt (by omega)]

theorem flat_erases {start count : BitVec 32} (unlock : ¬ (start = 0 ∧ count = 0xFFFFFFFF)) :
    nonRegionErase c.flat start count false =
      some (0, placed start (List.replicate (rounds count) (BitVec.ofNat 32 c.erasesize))) := by
  have info : c.flat.memInfo = some c.info := rfl
  have size : c.info.erasesize = BitVec.ofNat 32 c.erasesize := rfl
  simp only [nonRegionErase, info, size, erasesize_nonzero, unlock, ↓reduceIte]
  rw [nonRegionLoop_succeeds start fun _ _ => rfl]

theorem flat_erases_whole :
    nonRegionErase c.flat 0#32 0xFFFFFFFF false =
      some (0, placed 0#32 (List.replicate (rounds (BitVec.ofNat 32 c.blocks.sum))
        (BitVec.ofNat 32 c.erasesize))) := by
  have info : c.flat.memInfo = some c.info := rfl
  have size : c.info.erasesize = BitVec.ofNat 32 c.erasesize := rfl
  have total : c.info.size / BitVec.ofNat 32 c.erasesize = BitVec.ofNat 32 c.blocks.sum := sector_count
  simp only [nonRegionErase, info, size, total, erasesize_nonzero, ↓reduceIte]
  simp only [BitVec.ofNat_eq_ofNat, and_self, ↓reduceIte]
  rw [nonRegionLoop_succeeds 0#32 fun _ _ => rfl]

theorem region_count_nonzero : BitVec.ofNat 32 c.blocks.length ≠ 0 := by
  have counted := c.counted
  have some : c.blocks ≠ [] := by
    intro empty
    have nonempty := c.nonempty
    simp [empty] at nonempty
  have positive := List.length_pos_iff.mpr some
  intro zero
  have value : c.blocks.length % 4294967296 = 0 := by simpa using congrArg BitVec.toNat zero
  omega

theorem start_cut (z : WordSize) (n : Nat) :
    (BitVec.ofNat z.bits n).setWidth 32 = BitVec.ofNat 32 n :=
  BitVec.setWidth_ofNat_of_le z.wide n

end Regions

namespace UniformChip

/-- Both paths end with the same code and have erased the same sectors. -/
def Agree (z : WordSize) (c : UniformChip) (req : Request c) : Prop :=
  ∃ code one other, eraseBlock z c.flat (BitVec.ofNat z.bits req.start) req.count = some (code, one) ∧
    eraseBlock z c.byRegions (BitVec.ofNat z.bits req.start) req.count = some (code, other) ∧
    ∀ e, e ∈ one ↔ e ∈ other

theorem agree_iff {z : WordSize} {c : UniformChip} (req : Request c) {n : Nat} {count : BitVec 32}
    (start : req.start = n) (number : req.count = count) {code : Int} {one other : List EraseInfo}
    (flat : eraseBlock z c.flat (BitVec.ofNat z.bits n) count = some (code, one))
    (regions : eraseBlock z c.byRegions (BitVec.ofNat z.bits n) count = some (code, other)) :
    Agree z c req ↔ ∀ e, e ∈ one ↔ e ∈ other := by
  unfold Agree
  rw [start, number, flat, regions]
  constructor
  · rintro ⟨code, first, second, left, right, same⟩
    cases left
    cases right
    exact same
  · intro same
    exact ⟨code, one, other, rfl, rfl, same⟩

end UniformChip

open UniformChip

theorem flat_block (z : WordSize) (c : UniformChip) (n : Nat) (count : BitVec 32) :
    eraseBlock z c.flat (BitVec.ofNat z.bits n) count =
      nonRegionErase c.flat (BitVec.ofNat 32 n) count false := by
  simp only [eraseBlock, start_cut]
  rfl

theorem region_block (z : WordSize) (c : UniformChip) (n : Nat) (count : BitVec 32) :
    eraseBlock z c.byRegions (BitVec.ofNat z.bits n) count =
      some (regionErase c.byRegions (BitVec.ofNat 32 n) count false
        (BitVec.ofNat 32 c.blocks.length)) := by
  have counted : c.byRegions.regionCount = some (BitVec.ofNat 32 c.blocks.length) := rfl
  have opens : c.byRegions.opens = true := rfl
  simp only [eraseBlock, start_cut, opens, counted, region_count_nonzero, Bool.not_true,
    Bool.false_eq_true, ↓reduceIte]

theorem inside_agrees (z : WordSize) (c : UniformChip) {first number : Nat}
    (starts : first < c.blocks.sum) (ends : first + number ≤ c.blocks.sum)
    (int : number < 2147483648) : Agree z c (.inside first number starts ends int) := by
  have inside : first * c.erasesize < c.blocks.sum * c.erasesize :=
    Nat.mul_lt_mul_of_pos_right starts c.positive
  have plain : ¬ (BitVec.ofNat 32 (first * c.erasesize) = 0 ∧
      BitVec.ofNat 32 number = 0xFFFFFFFF) := by
    rintro ⟨_, all⟩
    have value : number % 4294967296 = 4294967295 := by simpa using congrArg BitVec.toNat all
    omega
  obtain ⟨i, found, behind⟩ := place_found inside
  have flat := flat_block z c (first * c.erasesize) (BitVec.ofNat 32 number)
  rw [flat_erases plain, rounds_ofNat int] at flat
  have regions := region_block z c (first * c.erasesize) (BitVec.ofNat 32 number)
  rw [regionErase_placed table_read found, rounds_ofNat int,
    regionLoop_uniform number 0 behind ends] at regions
  rw [agree_iff (.inside first number starts ends int) rfl rfl flat regions]
  simp

/-- The region loop makes no round for the whole device, so the paths agree when the other
    loop makes none either. -/
theorem whole_agrees_iff (z : WordSize) (c : UniformChip) :
    Agree z c .whole ↔ rounds (BitVec.ofNat 32 c.blocks.sum) = 0 := by
  have inside : 0 < c.blocks.sum * c.erasesize := Nat.mul_pos c.nonempty c.positive
  obtain ⟨i, found, _⟩ := place_found inside
  have flat := flat_block z c 0 0xFFFFFFFF
  rw [flat_erases_whole] at flat
  have regions := region_block z c 0 0xFFFFFFFF
  -- the sentinel is -1 as an int
  have none : rounds 0xFFFFFFFF = 0 := by decide
  rw [regionErase_placed table_read found, none] at regions
  rw [agree_iff .whole rfl rfl flat regions]
  simp only [List.not_mem_nil, iff_false]
  cases rounds (BitVec.ofNat 32 c.blocks.sum) with
  | zero => simp [placed]
  | succ n =>
    simp only [Nat.succ_ne_zero, iff_false]
    intro empty
    rw [List.replicate_succ, placed] at empty
    exact empty _ List.mem_cons_self

/-- The two paths agree on every request inside the chip. On the whole-device request they
    agree only for a chip of so many sectors that their number is no positive int. -/
theorem erase_paths_agree_iff (z : WordSize) (c : UniformChip) (req : Request c) :
    Agree z c req ↔ (req = .whole → 2147483648 ≤ c.blocks.sum) := by
  cases req with
  | inside first number starts ends int =>
    simp only [reduceCtorEq, false_implies, iff_true]
    exact inside_agrees z c starts ends int
  | whole =>
    have sized := c.sized
    have fewer := Nat.le_mul_of_pos_right c.blocks.sum c.positive
    simp only [forall_const]
    rw [whole_agrees_iff, rounds_zero_iff c.nonempty (by omega)]

def smallChip : UniformChip where
  erasesize := 0x10000
  blocks := [4]
  positive := by decide
  nonempty := by decide
  sized := by decide
  counted := by decide

/-- The request of every upgrade tool erases all four sectors on one path and none on the
    other, and both report success. -/
theorem whole_device_request_differs :
    eraseBlock .bits32 smallChip.flat 0 0xFFFFFFFF =
      some (0, [⟨0, 0x10000⟩, ⟨0x10000, 0x10000⟩, ⟨0x20000, 0x10000⟩, ⟨0x30000, 0x10000⟩]) ∧
    eraseBlock .bits32 smallChip.byRegions 0 0xFFFFFFFF = some (0, []) ∧
    ¬ Agree .bits32 smallChip .whole := by
  have flat : eraseBlock .bits32 smallChip.flat 0 0xFFFFFFFF =
      some (0, [⟨0, 0x10000⟩, ⟨0x10000, 0x10000⟩, ⟨0x20000, 0x10000⟩, ⟨0x30000, 0x10000⟩]) := by
    decide +kernel
  have regions : eraseBlock .bits32 smallChip.byRegions 0 0xFFFFFFFF = some (0, []) := by
    decide +kernel
  refine ⟨flat, regions, ?_⟩
  rw [agree_iff .whole rfl rfl flat regions]
  intro same
  exact absurd ((same ⟨0, 0x10000⟩).mp (by simp)) (by simp)

end TestSource
