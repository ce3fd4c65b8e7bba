import TestSource.EraseChip

/- region_erase of test_erase_flash.c on a chip whose regions have sector sizes of their own.
   The regions are not empty and adjoin from offset 0 on; every ioctl succeeds. -/
namespace TestSource

def RegionInfo.extent (r : RegionInfo) : Nat := r.numblocks.toNat * r.erasesize.toNat

def RegionInfo.sector (r : RegionInfo) (k : Nat) : EraseInfo :=
  ⟨BitVec.ofNat 32 (r.offset.toNat + k * r.erasesize.toNat), r.erasesize⟩

def RegionInfo.sectors (r : RegionInfo) : List EraseInfo :=
  (List.range r.numblocks.toNat).map r.sector

/-- Regions that are not empty and follow one another from `start` to `stop`. -/
inductive Adjoining : Nat → Nat → List RegionInfo → Prop where
  | nil (stop : Nat) : Adjoining stop stop []
  | cons {start stop : Nat} {r : RegionInfo} {rest : List RegionInfo}
      (first : r.offset.toNat = start) (nonempty : 0 < r.extent)
      (tail : Adjoining (start + r.extent) stop rest) : Adjoining start stop (r :: rest)

structure RegionChip where
  table : List RegionInfo
  size : Nat
  mtd : Mtd
  adjoining : Adjoining 0 size table
  sized : size < 2147483648
  reported : ∀ i, i < table.length → mtd.regionInfo i = table[i]?
  unlocks : ∀ j, mtd.unlocks j = true
  erases : ∀ j, mtd.erases j = true

namespace RegionChip
variable (c : RegionChip)

def regcount : BitVec 32 := BitVec.ofNat 32 c.table.length

def sectors : List EraseInfo := c.table.flatMap RegionInfo.sectors

def sectorsFrom (start : BitVec 32) : List EraseInfo := c.sectors.filter fun e => start ≤ e.start

def Within (start : BitVec 32) : Prop := 0 ≤ start.toInt ∧ start.toInt < c.size

def Boundary (start : BitVec 32) : Prop :=
  ∃ r ∈ c.table, ∃ k, k < r.numblocks.toNat ∧
    start.toNat = r.offset.toNat + k * r.erasesize.toNat

/-- What erasing `count` sectors from `start` on has to do on this chip. -/
structure Exact (start count : BitVec 32) (erased : List EraseInfo) : Prop where
  same : erased = (c.sectorsFrom start).take count.toNat
  number : erased.length = min count.toNat (c.sectorsFrom start).length
  adjacent : Consecutive start.toNat erased
  own : ∀ e ∈ erased, ∃ r ∈ c.table, e.length = r.erasesize ∧ r.offset.toNat ≤ e.start.toNat ∧
    e.start.toNat + e.length.toNat ≤ r.offset.toNat + r.extent
  inside : ∀ e ∈ erased, e.start.toNat + e.length.toNat ≤ c.size

end RegionChip

theorem adjoining_le {start stop : Nat} {table : List RegionInfo}
    (adjoining : Adjoining start stop table) : start ≤ stop := by
  induction adjoining with
  | nil => omega
  | cons first nonempty tail ih => omega

theorem adjoining_split {start stop : Nat} {table : List RegionInfo} {r : RegionInfo}
    (adjoining : Adjoining start stop table) (mem : r ∈ table) :
    ∃ before after, table = before ++ r :: after ∧ Adjoining start r.offset.toNat before ∧
      0 < r.extent ∧ Adjoining (r.offset.toNat + r.extent) stop after := by
  induction adjoining with
  | nil => cases mem
  | @cons start stop first rest offset nonempty tail ih =>
    rcases List.mem_cons.mp mem with same | later
    · subst same
      exact ⟨[], rest, rfl, offset ▸ .nil _, nonempty, offset ▸ tail⟩
    · obtain ⟨before, after, split, left, positive, right⟩ := ih later
      exact ⟨first :: before, after, by rw [split]; rfl, .cons offset nonempty left, positive, right⟩

theorem adjoining_bounds {start stop : Nat} {table : List RegionInfo} {r : RegionInfo}
    (adjoining : Adjoining start stop table) (mem : r ∈ table) :
    start ≤ r.offset.toNat ∧ r.offset.toNat + r.extent ≤ stop := by
  obtain ⟨before, after, _, left, _, right⟩ := adjoining_split adjoining mem
  exact ⟨adjoining_le left, adjoining_le right⟩

theorem adjoining_length {start stop : Nat} {table : List RegionInfo}
    (adjoining : Adjoining start stop table) : start + table.length ≤ stop := by
  induction adjoining with
  | nil => simp
  | cons first nonempty tail ih =>
    rw [List.length_cons]
    omega

section Sectors
variable {r : RegionInfo} {k : Nat}

theorem sector_end_le (inside : k < r.numblocks.toNat) :
    k * r.erasesize.toNat + r.erasesize.toNat ≤ r.extent := by
  rw [← Nat.succ_mul]
  exact Nat.mul_le_mul_right _ inside

theorem sectors_drop (inside : k < r.numblocks.toNat) :
    r.sectors.drop k = r.sector k :: r.sectors.drop (k + 1) := by
  have within : k < r.sectors.length := by simpa [RegionInfo.sectors] using inside
  rw [List.drop_eq_getElem_cons within]
  simp [RegionInfo.sectors]

theorem sectors_drop_all (behind : r.numblocks.toNat ≤ k) : r.sectors.drop k = [] := by
  apply List.drop_of_length_le
  simpa [RegionInfo.sectors] using behind

theorem sector_start (word : r.offset.toNat + r.extent < 4294967296)
    (inside : k < r.numblocks.toNat) :
    (r.sector k).start.toNat = r.offset.toNat + k * r.erasesize.toNat := by
  have room := sector_end_le inside
  rw [RegionInfo.sector, BitVec.toNat_ofNat]
  omega

theorem mem_sectors {e : EraseInfo} (mem : e ∈ r.sectors) :
    ∃ k, k < r.numblocks.toNat ∧ e = r.sector k := by
  obtain ⟨k, inside, same⟩ := List.mem_map.mp mem
  exact ⟨k, List.mem_range.mp inside, same.symm⟩

theorem consecutive_drop {rest : List EraseInfo} (word : r.offset.toNat + r.extent < 4294967296)
    (inside : k ≤ r.numblocks.toNat) (follows : Consecutive (r.offset.toNat + r.extent) rest) :
    Consecutive (r.offset.toNat + k * r.erasesize.toNat) (r.sectors.drop k ++ rest) := by
  induction left : r.numblocks.toNat - k generalizing k with
  | zero =>
    have last : k = r.numblocks.toNat := by omega
    subst last
    rw [sectors_drop_all (Nat.le_refl _)]
    exact follows
  | succ n ih =>
    have next := ih (k := k + 1) (by omega) (by omega)
    rw [sectors_drop (by omega)]
    refine ⟨sector_start word (by omega), ?_⟩
    rw [Nat.succ_mul, ← Nat.add_assoc] at next
    exact next

end Sectors

theorem adjoining_consecutive {start stop : Nat} {table : List RegionInfo}
    (adjoining : Adjoining start stop table) (word : stop < 4294967296) :
    Consecutive start (table.flatMap RegionInfo.sectors) := by
  induction adjoining with
  | nil => trivial
  | @cons start stop r rest first nonempty tail ih =>
    subst first
    have room := adjoining_le tail
    have all := consecutive_drop (k := 0) (by omega) (Nat.zero_le _) (ih word)
    rw [Nat.zero_mul, Nat.add_zero, List.drop_zero] at all
    exact all

theorem consecutive_take {start : Nat} {l : List EraseInfo} (n : Nat)
    (all : Consecutive start l) : Consecutive start (l.take n) := by
  induction l generalizing start n with
  | nil => simp [Consecutive]
  | cons e l ih =>
    cases n with
    | zero => trivial
    | succ n => exact ⟨all.1, ih n all.2⟩

section Loop
variable {m : Mtd} {r : RegionInfo}

theorem stop_toNat (word : r.offset.toNat + r.extent < 4294967296) :
    r.stop.toNat = r.offset.toNat + r.extent := by
  unfold RegionInfo.extent at word ⊢
  rw [RegionInfo.stop, BitVec.toNat_add, BitVec.toNat_mul]
  rw [Nat.mod_eq_of_lt (a := _ * _) (by omega), Nat.mod_eq_of_lt (by omega)]

theorem sector_next (k : Nat) : (r.sector k).start + r.erasesize = (r.sector (k + 1)).start := by
  simp only [RegionInfo.sector, Nat.succ_mul, ← Nat.add_assoc, BitVec.ofNat_add, BitVec.ofNat_toNat,
    BitVec.setWidth_eq]

theorem region_finished_iff {k : Nat} (word : r.offset.toNat + r.extent < 4294967296)
    (nonempty : 0 < r.extent) (inside : k < r.numblocks.toNat) :
    (r.sector (k + 1)).start ≥ r.stop ↔ k + 1 = r.numblocks.toNat := by
  have room := sector_end_le inside
  have next : (r.sector (k + 1)).start.toNat = r.offset.toNat + (k + 1) * r.erasesize.toNat := by
    rw [RegionInfo.sector, BitVec.toNat_ofNat, Nat.succ_mul]
    omega
  rw [ge_iff_le, BitVec.le_def, next, stop_toNat word, Nat.add_le_add_iff_left]
  have positive : 0 < r.erasesize.toNat := Nat.pos_of_mul_pos_left nonempty
  rw [RegionInfo.extent, Nat.mul_le_mul_right_iff positive]
  omega

theorem regionLoop_round {table : List RegionInfo} {n j i : Nat} {unlock : Bool} {start : BitVec 32}
    (unlocks : m.unlocks j = true) (erases : m.erases j = true) (region : table[i]? = some r) :
    regionLoop m unlock table (n + 1) j i start =
      let rest := regionLoop m unlock table n (j + 1)
        (if start + r.erasesize ≥ r.stop then i + 1 else i) (start + r.erasesize)
      (rest.1, ⟨start, r.erasesize⟩ :: rest.2) := by
  simp only [regionLoop, region, unlocks, erases, Bool.not_true, Bool.and_false, Bool.false_eq_true,
    ↓reduceIte]

theorem regionLoop_behind {table : List RegionInfo} {n j i : Nat} {unlock : Bool} {start : BitVec 32}
    (behind : table.length ≤ i) : regionLoop m unlock table n j i start = (0, []) := by
  cases n with
  | zero => rfl
  | succ n => simp only [regionLoop, List.getElem?_eq_none behind]

/-- From sector `k` of a region on, the loop erases what is left of the region and then the
    sectors of the regions behind it. -/
theorem regionLoop_erases {size : Nat} {unlock : Bool} (unlocks : ∀ j, m.unlocks j = true)
    (erases : ∀ j, m.erases j = true) (word : size < 4294967296) (n j : Nat)
    {before after : List RegionInfo} {k : Nat} (inside : k < r.numblocks.toNat)
    (nonempty : 0 < r.extent) (behind : Adjoining (r.offset.toNat + r.extent) size after) :
    regionLoop m unlock (before ++ r :: after) n j before.length (r.sector k).start =
      (0, (r.sectors.drop k ++ after.flatMap RegionInfo.sectors).take n) := by
  induction n generalizing j before r after k with
  | zero => rfl
  | succ n ih =>
    have room := adjoining_le behind
    have region : (before ++ r :: after)[before.length]? = some r := by simp
    have finished := region_finished_iff (by omega) nonempty inside
    rw [regionLoop_round (unlocks j) (erases j) region, sector_next, sectors_drop inside,
      List.cons_append, List.take_succ_cons]
    by_cases last : k + 1 = r.numblocks.toNat
    · have shifted : before ++ r :: after = (before ++ [r]) ++ after := by simp
      rw [if_pos (finished.mpr last), sectors_drop_all (by omega), List.nil_append, shifted]
      cases behind with
      | nil =>
        rw [regionLoop_behind (by simp)]
        simp [RegionInfo.sector]
      | @cons _ _ next rest first positive tail =>
        -- the address behind the last sector is the first one of the next region
        have border : (r.sector (k + 1)).start = (next.sector 0).start := by
          rw [RegionInfo.sector, last, ← RegionInfo.extent, ← first, RegionInfo.sector, Nat.zero_mul]
          rfl
        have entered : before.length + 1 = (before ++ [r]).length := by simp
        rw [border, entered, ih (j + 1) (Nat.pos_of_mul_pos_right positive) positive (first ▸ tail),
          List.drop_zero]
        rfl
    · rw [if_neg (mt finished.mp last), ih (j + 1) (by omega) nonempty behind]
      rfl

end Loop

theorem holds_iff {r : RegionInfo} (word : r.offset.toNat + r.extent < 4294967296) (start : BitVec 32) :
    r.holds start = true ↔ r.offset.toNat ≤ start.toNat ∧ start.toNat < r.offset.toNat + r.extent := by
  rw [RegionInfo.holds, Bool.and_eq_true, decide_eq_true_eq, decide_eq_true_eq, ge_iff_le,
    BitVec.le_def, BitVec.lt_def, stop_toNat word]

section Chip
variable {c : RegionChip}
open RegionChip

theorem regions_read : readRegions c.mtd c.regcount = some c.table := by
  have few := adjoining_length c.adjoining
  have sized := c.sized
  rw [readRegions, regcount, rounds_ofNat (by omega)]
  have entries : (List.range c.table.length).mapM c.mtd.regionInfo =
      some ((List.range c.table.length).map (c.table.getD · ⟨0, 0, 0⟩)) := by
    apply reports_read
    intro i mem
    have inside := List.mem_range.mp mem
    rw [c.reported i inside]
    simp [inside]
  rw [entries, Option.some.injEq]
  apply List.ext_getElem
  · simp
  · intro i _ inside
    simp [inside]

theorem region_search {before after : List RegionInfo} {r : RegionInfo} {start : BitVec 32}
    (split : c.table = before ++ r :: after) (left : Adjoining 0 r.offset.toNat before)
    (word : r.offset.toNat + r.extent ≤ c.size) (low : r.offset.toNat ≤ start.toNat)
    (high : start.toNat < r.offset.toNat + r.extent) :
    c.table.findIdx? (RegionInfo.holds start) = some before.length := by
  have sized := c.sized
  have earlier : before.findIdx? (RegionInfo.holds start) = none := by
    rw [List.findIdx?_eq_none_iff]
    intro other mem
    have bounds := adjoining_bounds left mem
    by_contra holds
    rw [Bool.not_eq_false, holds_iff (by omega)] at holds
    omega
  have here : r.holds start = true := (holds_iff (by omega) start).mpr ⟨low, high⟩
  rw [split, List.findIdx?_append, earlier, List.findIdx?_cons, here]
  simp

theorem nothing_before {start stop : Nat} {table : List RegionInfo} {place : BitVec 32}
    (adjoining : Adjoining start stop table) (behind : stop ≤ place.toNat) :
    (table.flatMap RegionInfo.sectors).filter (fun e => place ≤ e.start) = [] := by
  rw [List.filter_eq_nil_iff]
  intro e mem
  obtain ⟨r, region, sector⟩ := List.mem_flatMap.mp mem
  obtain ⟨k, inside, same⟩ := mem_sectors sector
  have bounds := adjoining_bounds adjoining region
  have room := sector_end_le inside
  have first := sector_start (by omega) inside
  rw [same, decide_eq_true_eq, BitVec.le_def, first]
  have positive : 0 < r.erasesize.toNat := by
    obtain ⟨_, _, _, _, nonempty, _⟩ := adjoining_split adjoining region
    exact Nat.pos_of_mul_pos_left nonempty
  omega

theorem everything_behind {start stop : Nat} {table : List RegionInfo} {place : BitVec 32}
    (adjoining : Adjoining start stop table) (word : stop < 4294967296)
    (before : place.toNat ≤ start) :
    (table.flatMap RegionInfo.sectors).filter (fun e => place ≤ e.start) =
      table.flatMap RegionInfo.sectors := by
  rw [List.filter_eq_self]
  intro e mem
  obtain ⟨r, region, sector⟩ := List.mem_flatMap.mp mem
  obtain ⟨k, inside, same⟩ := mem_sectors sector
  have bounds := adjoining_bounds adjoining region
  have first := sector_start (by omega) inside
  rw [same, decide_eq_true_eq, BitVec.le_def, first]
  omega

theorem region_from {r : RegionInfo} {k : Nat} {place : BitVec 32}
    (word : r.offset.toNat + r.extent < 4294967296) (nonempty : 0 < r.extent)
    (boundary : place.toNat = r.offset.toNat + k * r.erasesize.toNat) :
    r.sectors.filter (fun e => place ≤ e.start) = r.sectors.drop k := by
  have positive : 0 < r.erasesize.toNat := Nat.pos_of_mul_pos_left nonempty
  have test : ∀ i, i < r.numblocks.toNat → (place ≤ (r.sector i).start ↔ k ≤ i) := by
    intro i inside
    rw [BitVec.le_def, sector_start word inside, boundary, Nat.add_le_add_iff_left,
      Nat.mul_le_mul_right_iff positive]
  have entry : ∀ i, (inside : i < r.sectors.length) → r.sectors[i] = r.sector i := by
    intro i inside
    simp [RegionInfo.sectors]
  have length : r.sectors.length = r.numblocks.toNat := by simp [RegionInfo.sectors]
  have parted := List.take_append_drop k r.sectors
  nth_rewrite 1 [← parted]
  rw [List.filter_append]
  have front : (r.sectors.take k).filter (fun e => place ≤ e.start) = [] := by
    rw [List.filter_eq_nil_iff]
    intro e mem
    obtain ⟨i, inside, same⟩ := List.mem_take_iff_getElem.mp mem
    rw [← same, entry, decide_eq_true_eq, test i (by omega)]
    omega
  have back : (r.sectors.drop k).filter (fun e => place ≤ e.start) = r.sectors.drop k := by
    rw [List.filter_eq_self]
    intro e mem
    obtain ⟨i, inside, same⟩ := List.mem_drop_iff_getElem.mp mem
    rw [← same, entry, decide_eq_true_eq, test (k + i) (by omega)]
    omega
  rw [front, back, List.nil_append]

theorem sectorsFrom_split {before after : List RegionInfo} {r : RegionInfo} {k : Nat}
    {start : BitVec 32} (split : c.table = before ++ r :: after)
    (left : Adjoining 0 r.offset.toNat before) (nonempty : 0 < r.extent)
    (right : Adjoining (r.offset.toNat + r.extent) c.size after) (inside : k < r.numblocks.toNat)
    (boundary : start.toNat = r.offset.toNat + k * r.erasesize.toNat) :
    c.sectorsFrom start = r.sectors.drop k ++ after.flatMap RegionInfo.sectors := by
  have sized := c.sized
  have room := adjoining_le right
  have last := sector_end_le inside
  rw [sectorsFrom, sectors, split, List.flatMap_append, List.flatMap_cons, List.filter_append,
    List.filter_append, nothing_before left (by omega),
    region_from (by omega) nonempty boundary, everything_behind right (by omega) (by omega),
    List.nil_append]

theorem sector_of_region {e : EraseInfo} (mem : e ∈ c.sectors) :
    ∃ r ∈ c.table, e.length = r.erasesize ∧ r.offset.toNat ≤ e.start.toNat ∧
      e.start.toNat + e.length.toNat ≤ r.offset.toNat + r.extent := by
  obtain ⟨r, region, sector⟩ := List.mem_flatMap.mp mem
  obtain ⟨k, inside, same⟩ := mem_sectors sector
  have bounds := adjoining_bounds c.adjoining region
  have sized := c.sized
  have room := sector_end_le inside
  have first := sector_start (by omega) inside
  have length : e.length = r.erasesize := by rw [same, RegionInfo.sector]
  rw [← same] at first
  exact ⟨r, region, length, by omega, by rw [length]; omega⟩

theorem rounds_nonneg {count : BitVec 32} (nonneg : 0 ≤ count.toInt) : rounds count = count.toNat := by
  rw [BitVec.toInt_eq_toNat_cond] at nonneg
  rw [rounds, BitVec.toInt_eq_toNat_of_lt]
  · omega
  · by_contra large
    rw [if_neg large] at nonneg
    omega

theorem boundary_erased {start : BitVec 32} (boundary : c.Boundary start) (count : BitVec 32)
    (unlock : Bool) :
    regionErase c.mtd start count unlock c.regcount =
      (0, (c.sectorsFrom start).take (rounds count)) ∧
    Consecutive start.toNat (c.sectorsFrom start) := by
  obtain ⟨r, mem, k, inside, place⟩ := boundary
  obtain ⟨before, after, split, left, nonempty, right⟩ := adjoining_split c.adjoining mem
  have sized := c.sized
  have room := adjoining_le right
  have last := sector_end_le inside
  have positive : 0 < r.erasesize.toNat := Nat.pos_of_mul_pos_left nonempty
  have first : start = (r.sector k).start := by
    apply BitVec.eq_of_toNat_eq
    rw [sector_start (by omega) inside, place]
  have search : c.table.findIdx? (RegionInfo.holds start) = some before.length :=
    region_search split left room (by omega) (by omega)
  rw [sectorsFrom_split split left nonempty right inside place]
  constructor
  · rw [regionErase_placed regions_read search, split, first]
    exact regionLoop_erases c.unlocks c.erases (by omega) _ 0 inside nonempty right
  · rw [place]
    exact consecutive_drop (by omega) (by omega) (adjoining_consecutive right (by omega))

/-- As an unsigned word, an int that names no place on the chip lies behind it. -/
theorem outside_rejected {start : BitVec 32} (outside : ¬ c.Within start) (count : BitVec 32)
    (unlock : Bool) : regionErase c.mtd start count unlock c.regcount = (8, []) := by
  have sized := c.sized
  have behind : c.size ≤ start.toNat := by
    by_contra before
    apply outside
    have value : start.toInt = start.toNat := BitVec.toInt_eq_toNat_of_lt (by omega)
    exact ⟨by omega, by omega⟩
  have nowhere : c.table.findIdx? (RegionInfo.holds start) = none := by
    rw [List.findIdx?_eq_none_iff]
    intro r mem
    have bounds := adjoining_bounds c.adjoining mem
    by_contra holds
    rw [Bool.not_eq_false, holds_iff (by omega)] at holds
    omega
  simp only [regionErase, regions_read, nowhere]

end Chip

/-- From a sector boundary on, region_erase erases as many sectors as asked for or as the
    chip still has, one behind the other and each in the size of its region. Where the start
    is no place on the chip, it erases nothing. -/
theorem region_erase_exact (c : RegionChip) (start count : BitVec 32) (unlock : Bool) :
    (c.Boundary start → 0 ≤ count.toInt →
      ∃ erased, regionErase c.mtd start count unlock c.regcount = (0, erased) ∧
        c.Exact start count erased) ∧
    (¬ c.Within start → regionErase c.mtd start count unlock c.regcount = (8, [])) := by
  refine ⟨?_, fun outside => outside_rejected outside count unlock⟩
  intro boundary nonneg
  obtain ⟨run, adjacent⟩ := boundary_erased boundary count unlock
  rw [rounds_nonneg nonneg] at run
  have onChip : ∀ e ∈ (c.sectorsFrom start).take count.toNat, e ∈ c.sectors := by
    intro e mem
    exact (List.mem_filter.mp (List.mem_of_mem_take mem)).1
  refine ⟨_, run, rfl, List.length_take, consecutive_take _ adjacent, ?_, ?_⟩
  · intro e mem
    exact sector_of_region (onChip e mem)
  · intro e mem
    obtain ⟨r, region, _, _, ends⟩ := sector_of_region (onChip e mem)
    have bounds := adjoining_bounds c.adjoining region
    omega

def mixedChip : RegionChip where
  table := [⟨0, 0x1000, 2⟩, ⟨0x2000, 0x10000, 1⟩]
  size := 0x12000
  mtd := ⟨true, some 2, fun i => [⟨0, 0x1000, 2⟩, ⟨0x2000, 0x10000, 1⟩][i]?, none, fun _ => true,
    fun _ => true⟩
  adjoining := .cons rfl (by decide) (.cons rfl (by decide) (.nil _))
  sized := by decide
  reported := fun _ _ => rfl
  unlocks := fun _ => rfl
  erases := fun _ => rfl

theorem mixed_chip_erased :
    mixedChip.Boundary 0x1000 ∧ 0 ≤ (5#32).toInt ∧ ¬ mixedChip.Within 0x12000 ∧
    regionErase mixedChip.mtd 0x1000 5 true mixedChip.regcount =
      (0, [⟨0x1000, 0x1000⟩, ⟨0x2000, 0x10000⟩]) ∧
    mixedChip.Exact 0x1000 5 [⟨0x1000, 0x1000⟩, ⟨0x2000, 0x10000⟩] ∧
    regionErase mixedChip.mtd 0x12000 5 true mixedChip.regcount = (8, []) := by
  have boundary : mixedChip.Boundary 0x1000 :=
    ⟨⟨0, 0x1000, 2⟩, List.mem_cons_self, 1, by decide, by decide⟩
  have nonneg : 0 ≤ (5#32).toInt := by decide
  have outside : ¬ mixedChip.Within 0x12000 := by
    intro within
    exact absurd within.2 (by decide)
  have run : regionErase mixedChip.mtd 0x1000 5 true mixedChip.regcount =
      (0, [⟨0x1000, 0x1000⟩, ⟨0x2000, 0x10000⟩]) := by decide +kernel
  obtain ⟨erased, same, exact⟩ := (region_erase_exact mixedChip 0x1000 5 true).1 boundary nonneg
  rw [run, Prod.mk.injEq] at same
  rw [← same.2] at exact
  exact ⟨boundary, nonneg, outside, run, exact,
    (region_erase_exact mixedChip 0x12000 5 true).2 outside⟩

end TestSource
