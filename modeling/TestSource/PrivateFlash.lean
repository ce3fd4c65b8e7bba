import TestSource.EraseFlash
import TestSource.PrivateArea

/- xl_private_area.c: writing to the private area in flash, sector by sector, through a
   buffer of one sector. -/
namespace TestSource.PrivateArea
open Splice

def ERASE_BLOCK_SIZE : Nat := 0x10000

def BLOCK_SIZE : Nat := 1024

/-- The macro is ((a)>(b)?:(a),(b)): a comma expression, whose value is its right side. -/
def MIN (a b : Int) : Int := (if a > b then 1 else a, b).2

/-- memcpy into tmpbuf. A negative count is larger than any buffer once it is a size_t. -/
def copyInto (tmpbuf : List Byte) (pos : Nat) (buf : List Byte) (n : Int) : Option (List Byte) :=
  if n = 0 then some tmpbuf
  else if 0 < n ∧ pos + n ≤ tmpbuf.length ∧ n ≤ buf.length then
    some (splice tmpbuf pos (buf.take n.toNat))
  else none

def eraseSectors (flash : List Byte) (sectors : List EraseInfo) : List Byte :=
  sectors.foldl (fun flash e => flash.mapIdx fun a b =>
    if e.start.toNat ≤ a ∧ a < e.start.toNat + e.length.toNat then 0xFF else b) flash

def deviceWrite (flash : List Byte) (pos : Nat) (bytes : List Byte) : List Byte :=
  splice flash pos (bytes.take (flash.length - pos))

/-- What the system answers in each round: to erase_block and to fopen of the device. -/
structure FlashCalls where
  mtd : Nat → Mtd
  opens : Nat → Bool

section Flash
variable (z : WordSize) (calls : FlashCalls) (file : Option (List Byte))

/-- The rounds from `i` on: the result and the flash. No result is an access outside tmpbuf
    or Src, or a device without a sector size. Every round copies from the start of Src. -/
def flashLoop (nOffset nBaseStart : Nat) (buf : List Byte) :
    Nat → Nat → Int → Int → List Byte → Option (Int × List Byte)
  | 0, _, _, _, flash => some (0, flash)
  | n + 1, i, nTmpLen, nFreeSize, flash => do
      let tmpbuf := List.replicate ERASE_BLOCK_SIZE 0
      let (_, tmpbuf) := xlReadPrivateArea file ((nBaseStart + i) * ERASE_BLOCK_SIZE)
        ERASE_BLOCK_SIZE tmpbuf
      let nWrittenSize := MIN nTmpLen nFreeSize
      let tmpbuf ← copyInto tmpbuf nOffset buf nWrittenSize
      let nTmpLen := nTmpLen - nWrittenSize
      let (_, erased) ← eraseBlock z (calls.mtd i) (BitVec.ofNat _ (nBaseStart + i)) 1
      let flash := eraseSectors flash erased
      if !calls.opens i then some (-1, flash)
      else
        let flash := deviceWrite flash ((nBaseStart + i) * BLOCK_SIZE) (tmpbuf.take BLOCK_SIZE)
        flashLoop nOffset nBaseStart buf n (i + 1) (nTmpLen - nWrittenSize) ERASE_BLOCK_SIZE flash

def xlWritePrivateAreaFlash (flash : List Byte) (startAddr nLen : Nat)
    (srcAddr : Option (List Byte)) : Option (Int × List Byte) :=
  match srcAddr with
  | none => some (-1, flash)
  | some buf =>
      let nBaseStart := startAddr / ERASE_BLOCK_SIZE
      let nUnitCnt := nLen / ERASE_BLOCK_SIZE + 1
      let nFreeSize : Int := BLOCK_SIZE - (startAddr % ERASE_BLOCK_SIZE : Nat)
      flashLoop z calls file startAddr nBaseStart buf nUnitCnt 0 nLen nFreeSize flash

/-- The sectors of the device are those of the code: MEMERASE refuses a request that does
    not start at one. -/
def WholeSectors (nBaseStart : Nat) : Prop := ∀ i, ∃ nRet sectors,
  eraseBlock z (calls.mtd i) (BitVec.ofNat _ (nBaseStart + i)) 1 = some (nRet, sectors) ∧
    ∀ e ∈ sectors, e.length.toNat = ERASE_BLOCK_SIZE ∧ ERASE_BLOCK_SIZE ∣ e.start.toNat

def afterErase (flash : List Byte) (nBaseStart : Nat) : List Byte :=
  match eraseBlock z (calls.mtd 0) (BitVec.ofNat _ nBaseStart) 1 with
  | some (_, sectors) => eraseSectors flash sectors
  | none => flash

/-- What the first round finds of the private file: its first MAXLEN bytes from the sector
    on, and zeros. -/
def image (nBaseStart : Nat) : List Byte :=
  splice (List.replicate ERASE_BLOCK_SIZE 0) 0
    (((file.getD []).drop (nBaseStart * ERASE_BLOCK_SIZE)).take MAXLEN)

end Flash

section Rounds

theorem eraseSectors_length (flash : List Byte) (sectors : List EraseInfo) :
    (eraseSectors flash sectors).length = flash.length := by
  induction sectors generalizing flash with
  | nil => rfl
  | cons e sectors ih =>
    rw [eraseSectors, List.foldl_cons, ← eraseSectors, ih, List.length_mapIdx]

section OneSector
variable {m : Mtd} {start : BitVec 32}

theorem nonRegionErase_one {nRet : Int} {sectors : List EraseInfo}
    (done : nonRegionErase m start 1 false = some (nRet, sectors)) :
    ∀ e ∈ sectors, e.start = start := by
  have one : rounds 1 = 1 := by decide
  have plain : ¬(start = 0 ∧ (1 : BitVec 32) = 0xFFFFFFFF) := by
    intro both
    rcases both with ⟨_, bad⟩
    exact absurd bad (by decide)
  unfold nonRegionErase at done
  cases info : m.memInfo with
  | none =>
    simp only [info, Option.some.injEq, Prod.mk.injEq] at done
    simp [← done.2]
  | some meminfo =>
    simp only [info, one, if_neg plain, nonRegionLoop, Bool.false_and, Bool.false_eq_true,
      if_false] at done
    split at done
    · contradiction
    · simp only [Option.some.injEq] at done
      split at done
      · cases done
        simp
      · cases done
        simp

theorem regionErase_one (m : Mtd) (start regcount : BitVec 32) :
    ∀ e ∈ (regionErase m start 1 false regcount).2, e.start = start := by
  have one : rounds 1 = 1 := by decide
  unfold regionErase
  cases readRegions m regcount with
  | none => simp
  | some reginfo =>
    cases place : reginfo.findIdx? (RegionInfo.holds start) with
    | none => simp [place]
    | some i =>
      simp only [place, one, regionLoop, Bool.false_and, Bool.false_eq_true, if_false]
      cases region : reginfo[i]? with
      | none => simp
      | some r =>
        dsimp only
        split <;> simp

theorem eraseBlock_one {z : WordSize} {start : BitVec z.bits} {nRet : Int}
    {sectors : List EraseInfo} (done : eraseBlock z m start 1 = some (nRet, sectors)) :
    ∀ e ∈ sectors, e.start = start.setWidth 32 := by
  unfold eraseBlock at done
  split at done
  · cases done
    simp
  · cases regions : m.regionCount with
    | none =>
      simp only [regions] at done
      cases done
      simp
    | some regcount =>
      simp only [regions] at done
      split at done
      · exact nonRegionErase_one done
      · have erased := regionErase_one m (start.setWidth 32) regcount
        rw [Option.some.inj done] at erased
        exact erased

end OneSector

theorem image_read (file : Option (List Byte)) (nBaseStart : Nat) :
    (xlReadPrivateArea file (nBaseStart * ERASE_BLOCK_SIZE) ERASE_BLOCK_SIZE
      (List.replicate ERASE_BLOCK_SIZE 0)).2 = image file nBaseStart := by
  cases file with
  | none => simp [xlReadPrivateArea, image, splice]
  | some content =>
    -- only the first of the 64 pieces is ever read
    rw [read_long _ _ _ (by decide), image, Option.getD_some]

theorem image_length (file : Option (List Byte)) (nBaseStart : Nat) :
    (image file nBaseStart).length = ERASE_BLOCK_SIZE := by
  have room : MAXLEN ≤ ERASE_BLOCK_SIZE := by decide
  rw [image, splice_length (by simp only [List.length_take, List.length_replicate]; omega),
    List.length_replicate]

/-- Where the copy of the first round stays inside both buffers: it fills the first block,
    or copies nothing. -/
def CopyFits (startAddr nLen : Nat) : Prop :=
  (startAddr < BLOCK_SIZE ∧ BLOCK_SIZE - startAddr ≤ nLen) ∨
    startAddr % ERASE_BLOCK_SIZE = BLOCK_SIZE

def block (file : Option (List Byte)) (startAddr : Nat) (src : List Byte) : List Byte :=
  (splice (image file (startAddr / ERASE_BLOCK_SIZE)) startAddr
    (src.take (BLOCK_SIZE - startAddr))).take BLOCK_SIZE

section Copies
variable {file : Option (List Byte)} {startAddr : Nat} {src : List Byte}

theorem copy_first (fits : CopyFits startAddr src.length) :
    copyInto (image file (startAddr / ERASE_BLOCK_SIZE)) startAddr src
      (BLOCK_SIZE - (startAddr % ERASE_BLOCK_SIZE : Nat)) =
      some (splice (image file (startAddr / ERASE_BLOCK_SIZE)) startAddr
        (src.take (BLOCK_SIZE - startAddr))) := by
  have size := image_length file (startAddr / ERASE_BLOCK_SIZE)
  simp only [CopyFits, BLOCK_SIZE, ERASE_BLOCK_SIZE] at fits size ⊢
  unfold copyInto
  rcases fits with ⟨low, enough⟩ | aligned
  · have count : (((1024 : Nat) : Int) - (startAddr % 65536 : Nat)).toNat = 1024 - startAddr := by
      omega
    rw [if_neg (by omega), if_pos (by omega), count]
  · rw [if_pos (by omega), show 1024 - startAddr = 0 by omega]
    simp [splice]

theorem copy_first_faults (misfit : ¬CopyFits startAddr src.length) :
    copyInto (image file (startAddr / ERASE_BLOCK_SIZE)) startAddr src
      (BLOCK_SIZE - (startAddr % ERASE_BLOCK_SIZE : Nat)) = none := by
  have size := image_length file (startAddr / ERASE_BLOCK_SIZE)
  simp only [CopyFits, BLOCK_SIZE, ERASE_BLOCK_SIZE] at misfit size ⊢
  unfold copyInto
  rw [if_neg (by omega), if_neg (by omega)]

theorem copy_later {src : List Byte} (enough : ERASE_BLOCK_SIZE ≤ src.length) {tmpbuf : List Byte}
    (size : tmpbuf.length = ERASE_BLOCK_SIZE) :
    copyInto tmpbuf 0 src ERASE_BLOCK_SIZE = some (src.take ERASE_BLOCK_SIZE) := by
  simp only [ERASE_BLOCK_SIZE] at enough size ⊢
  unfold copyInto
  rw [if_neg (by omega), if_pos (by omega), splice_start, Int.toNat_natCast,
    List.drop_eq_nil_of_le (by simp only [List.length_take]; omega), List.append_nil]

theorem copy_later_faults (src : List Byte) (moved : startAddr ≠ 0) {tmpbuf : List Byte}
    (size : tmpbuf.length = ERASE_BLOCK_SIZE) :
    copyInto tmpbuf startAddr src ERASE_BLOCK_SIZE = none := by
  simp only [ERASE_BLOCK_SIZE] at size ⊢
  unfold copyInto
  rw [if_neg (by omega), if_neg (by omega)]

theorem block_length (file : Option (List Byte)) (startAddr : Nat) (src : List Byte) :
    (block file startAddr src).length = BLOCK_SIZE := by
  have size := image_length file (startAddr / ERASE_BLOCK_SIZE)
  simp only [BLOCK_SIZE, ERASE_BLOCK_SIZE] at size ⊢
  simp only [block, splice, List.length_append, List.length_take, List.length_drop, BLOCK_SIZE,
    ERASE_BLOCK_SIZE]
  omega

theorem getElem?_block (fits : CopyFits startAddr src.length) {k : Nat} (inside : k < BLOCK_SIZE) :
    (block file startAddr src)[k]? = if startAddr ≤ k then src[k - startAddr]?
      else (image file (startAddr / ERASE_BLOCK_SIZE))[k]? := by
  have size := image_length file (startAddr / ERASE_BLOCK_SIZE)
  rw [block, List.getElem?_take_of_lt inside]
  simp only [CopyFits, BLOCK_SIZE, ERASE_BLOCK_SIZE] at fits inside size ⊢
  rcases fits with ⟨low, enough⟩ | aligned
  · have copied : (src.take (1024 - startAddr)).length = 1024 - startAddr := by
      rw [List.length_take]
      omega
    rw [getElem?_splice (by omega), copied]
    by_cases above : startAddr ≤ k
    · rw [if_pos (by omega), if_pos above, List.getElem?_take_of_lt (by omega)]
    · rw [if_neg (by omega), if_neg above]
  · rw [show 1024 - startAddr = 0 by omega, if_neg (by omega)]
    simp [splice]

end Copies

section Loop
variable {z : WordSize} {calls : FlashCalls}

theorem deviceWrite_block {flash block : List Byte} {n : Nat} (whole : block.length = BLOCK_SIZE)
    (room : (n + 1) * BLOCK_SIZE ≤ flash.length) :
    deviceWrite flash (n * BLOCK_SIZE) block = splice flash (n * BLOCK_SIZE) block := by
  rw [Nat.succ_mul] at room
  rw [deviceWrite, List.take_of_length_le (by omega)]

/-- Only a request at the start of the device meets the start of a sector. -/
theorem nothing_erased_behind {nBaseStart i : Nat} (sectors : WholeSectors z calls nBaseStart)
    (behind : 0 < nBaseStart + i) (small : nBaseStart + i < ERASE_BLOCK_SIZE) :
    ∃ nRet, eraseBlock z (calls.mtd i) (BitVec.ofNat _ (nBaseStart + i)) 1 = some (nRet, []) := by
  obtain ⟨nRet, erased, done, whole⟩ := sectors i
  have empty : erased = [] := by
    apply List.eq_nil_iff_forall_not_mem.mpr
    intro e found
    have aligned := (whole e found).2
    have wide := z.wide
    have room : 2 ^ 32 ≤ 2 ^ z.bits := Nat.pow_le_pow_right (by decide) wide
    rw [eraseBlock_one done e found] at aligned
    simp only [BitVec.toNat_setWidth, BitVec.toNat_ofNat, ERASE_BLOCK_SIZE] at aligned small
    rw [Nat.mod_eq_of_lt (by omega : nBaseStart + i < 2 ^ z.bits), Nat.mod_eq_of_lt (by omega)] at aligned
    have bound := Nat.le_of_dvd behind aligned
    omega
  rw [empty] at done
  exact ⟨nRet, done⟩

theorem later_rounds (file : Option (List Byte)) {src rest : List Byte} (sectors : WholeSectors z calls 0)
    (enough : ERASE_BLOCK_SIZE ≤ src.length) (n : Nat) : ∀ (i : Nat) (t : Int) (flash : List Byte),
    0 < i → i + n ≤ ERASE_BLOCK_SIZE → (i + n) * BLOCK_SIZE ≤ rest.length →
    Stamped BLOCK_SIZE rest 0 i (src.take BLOCK_SIZE) flash →
    ∃ nRet left, flashLoop z calls file 0 0 src n i t ERASE_BLOCK_SIZE flash = some (nRet, left) ∧
      ((∀ j, i ≤ j → j < i + n → calls.opens j = true) →
        nRet = 0 ∧ Stamped BLOCK_SIZE rest 0 (i + n) (src.take BLOCK_SIZE) left) ∧
      ((∃ j, i ≤ j ∧ j < i + n ∧ calls.opens j = false) → nRet = -1) := by
  have unit : BLOCK_SIZE = 1024 := rfl
  have sector : ERASE_BLOCK_SIZE = 65536 := rfl
  have first : (src.take ERASE_BLOCK_SIZE).take BLOCK_SIZE = src.take BLOCK_SIZE := by
    rw [List.take_take]
    rfl
  have whole : (src.take BLOCK_SIZE).length = BLOCK_SIZE := by
    rw [List.length_take]
    omega
  induction n with
  | zero =>
    intro i t flash _ _ _ stamped
    refine ⟨0, flash, rfl, ?_, ?_⟩
    · intro _
      exact ⟨rfl, stamped⟩
    · intro somewhere
      rcases somewhere with ⟨j, low, high, _⟩
      omega
  | succ n ih =>
    intro i t flash positive small room stamped
    obtain ⟨nRet, untouched⟩ := nothing_erased_behind (i := i) sectors (by omega) (by omega)
    have copied := copy_later enough (image_length file (0 + i))
    have here : (0 + i + 1) * BLOCK_SIZE ≤ rest.length :=
      Nat.le_trans (Nat.mul_le_mul_right _ (by omega)) room
    have next := stamped_step stamped whole here
    rw [← deviceWrite_block whole (by rw [stamped.length]; exact here)] at next
    rw [flashLoop]
    simp only [image_read, MIN, copied, untouched, Option.bind_eq_bind, Option.bind_some,
      eraseSectors, List.foldl_nil, first]
    cases opened : calls.opens i with
    | false =>
      refine ⟨-1, flash, rfl, ?_, ?_⟩
      · intro all
        rw [all i (by omega) (by omega)] at opened
        contradiction
      · intro _
        rfl
    | true =>
      obtain ⟨nRet, left, run, succeeds, fails⟩ := ih (i + 1) (t - ERASE_BLOCK_SIZE - ERASE_BLOCK_SIZE)
        _ (by omega) (by omega) (Nat.le_trans (Nat.mul_le_mul_right _ (by omega)) room) next
      refine ⟨nRet, left, run, ?_, ?_⟩
      · intro all
        rw [show i + (n + 1) = i + 1 + n by omega] at all ⊢
        apply succeeds
        intro j low high
        exact all j (by omega) high
      · intro somewhere
        rcases somewhere with ⟨j, low, high, closed⟩
        have other : j ≠ i := by
          intro same
          rw [same, opened] at closed
          contradiction
        exact fails ⟨j, by omega, by omega, closed⟩

end Loop

/-- Where the bytes that reach the flash happen to be the right ones: what the private file
    holds below the request is what the flash held, the blocks of Src repeat, and the rest
    of the request was there before, as was the erased sector. -/
structure Coincides (z : WordSize) (calls : FlashCalls) (file : Option (List Byte))
    (flash : List Byte) (startAddr : Nat) (src : List Byte) (nBaseStart nUnitCnt : Nat) :
    Prop where
  kept : ∀ k, k < BLOCK_SIZE → k < startAddr →
    (image file nBaseStart)[k]? = flash[nBaseStart * BLOCK_SIZE + k]?
  repeated : ∀ k, BLOCK_SIZE ≤ k → k < nUnitCnt * BLOCK_SIZE → src[k % BLOCK_SIZE]? = src[k]?
  behind : ∀ k, k < src.length → (nBaseStart + nUnitCnt) * BLOCK_SIZE ≤ startAddr + k →
    (afterErase z calls flash nBaseStart)[startAddr + k]? = src[k]?
  others : ∀ a, a < nBaseStart * BLOCK_SIZE ∨ (nBaseStart + nUnitCnt) * BLOCK_SIZE ≤ a →
    a < startAddr ∨ startAddr + src.length ≤ a →
    (afterErase z calls flash nBaseStart)[a]? = flash[a]?

theorem afterErase_length (z : WordSize) (calls : FlashCalls) (flash : List Byte)
    (nBaseStart : Nat) : (afterErase z calls flash nBaseStart).length = flash.length := by
  unfold afterErase
  split
  · exact eraseSectors_length _ _
  · rfl

/-- The blocks the call writes lie inside the request or just below it. -/
def Placed (startAddr nLen nBaseStart nUnitCnt : Nat) : Prop :=
  (nBaseStart * BLOCK_SIZE = 0 ∧ startAddr < BLOCK_SIZE ∧ BLOCK_SIZE ≤ startAddr + nLen ∧
    (nUnitCnt * BLOCK_SIZE = BLOCK_SIZE ∨ startAddr = 0 ∧ nUnitCnt * BLOCK_SIZE ≤ nLen)) ∨
  (nBaseStart * BLOCK_SIZE + BLOCK_SIZE ≤ startAddr ∧ nUnitCnt * BLOCK_SIZE = BLOCK_SIZE)

theorem layout {startAddr nLen : Nat} (fits : CopyFits startAddr nLen)
    (single : nLen < ERASE_BLOCK_SIZE ∨ startAddr = 0) :
    Placed startAddr nLen (startAddr / ERASE_BLOCK_SIZE) (nLen / ERASE_BLOCK_SIZE + 1) := by
  simp only [CopyFits, Placed, BLOCK_SIZE, ERASE_BLOCK_SIZE] at fits single ⊢
  omega

end Rounds

section Result
variable {z : WordSize} {calls : FlashCalls} {file : Option (List Byte)} {flash src : List Byte}
  {startAddr nBaseStart nUnitCnt : Nat}

section Stamps
variable {left : List Byte} (fits : CopyFits startAddr src.length)
  (base : nBaseStart = startAddr / ERASE_BLOCK_SIZE)
  (placed : Placed startAddr src.length nBaseStart nUnitCnt)
  (inside : startAddr + src.length ≤ flash.length)
  (stamped : Stamped BLOCK_SIZE (afterErase z calls flash nBaseStart) nBaseStart nUnitCnt
    (block file startAddr src) left)
include fits base stamped

theorem stamped_byte {k : Nat} (covered : k < nUnitCnt * BLOCK_SIZE) :
    left[nBaseStart * BLOCK_SIZE + k]? = if startAddr ≤ k % BLOCK_SIZE then
      src[k % BLOCK_SIZE - startAddr]? else (image file nBaseStart)[k % BLOCK_SIZE]? := by
  have unit : 0 < BLOCK_SIZE := by decide
  have next := Nat.add_mul nBaseStart nUnitCnt BLOCK_SIZE
  rw [stamped.inside _ (by omega) (by omega), Nat.add_sub_cancel_left,
    getElem?_block fits (Nat.mod_lt _ unit), base]

include placed inside

theorem coincides_of_right (right : left = splice flash startAddr src) :
    Coincides z calls file flash startAddr src nBaseStart nUnitCnt := by
  have written := getElem?_splice inside
  have next := Nat.add_mul nBaseStart nUnitCnt BLOCK_SIZE
  unfold Placed at placed
  constructor
  case kept =>
    intro k low below
    have byte := stamped_byte fits base stamped (show k < nUnitCnt * BLOCK_SIZE by omega)
    rw [right, written, if_neg (by omega), Nat.mod_eq_of_lt low, if_neg (by omega)] at byte
    exact byte.symm
  case repeated =>
    intro k high covered
    have byte := stamped_byte fits base stamped covered
    have start : startAddr = 0 := by omega
    have first : nBaseStart * BLOCK_SIZE = 0 := by omega
    rw [right, first, start, Nat.zero_add, if_pos (by omega), Nat.sub_zero, ← start, written,
      if_pos (by omega), start, Nat.sub_zero] at byte
    exact byte.symm
  case behind =>
    intro k below beside
    have byte := stamped.outside (startAddr + k) (.inr beside)
    rw [right, written, if_pos (by omega), Nat.add_sub_cancel_left] at byte
    exact byte.symm
  case others =>
    intro a beside unasked
    have byte := stamped.outside a beside
    rw [right, written, if_neg (by omega)] at byte
    exact byte.symm

theorem right_of_coincides
    (same : Coincides z calls file flash startAddr src nBaseStart nUnitCnt) :
    left = splice flash startAddr src := by
  have next := Nat.add_mul nBaseStart nUnitCnt BLOCK_SIZE
  unfold Placed at placed
  apply List.ext_getElem?
  intro a
  rw [getElem?_splice inside]
  by_cases beside : a < nBaseStart * BLOCK_SIZE ∨ (nBaseStart + nUnitCnt) * BLOCK_SIZE ≤ a
  · rw [stamped.outside a beside]
    by_cases asked : startAddr ≤ a ∧ a < startAddr + src.length
    · have byte := same.behind (a - startAddr) (by omega) (by omega)
      rw [Nat.add_sub_cancel' asked.1] at byte
      rw [if_pos asked, byte]
    · rw [if_neg asked, same.others a beside (by omega)]
  · obtain ⟨k, rfl⟩ : ∃ k, a = nBaseStart * BLOCK_SIZE + k :=
      ⟨a - nBaseStart * BLOCK_SIZE, by omega⟩
    have covered : k < nUnitCnt * BLOCK_SIZE := by omega
    rw [stamped_byte fits base stamped covered]
    by_cases low : k < BLOCK_SIZE
    · rw [Nat.mod_eq_of_lt low]
      by_cases above : startAddr ≤ k
      · have first : nBaseStart * BLOCK_SIZE = 0 := by omega
        rw [first, Nat.zero_add, if_pos above, if_pos (by omega)]
      · rw [if_neg above, if_neg (by omega), same.kept k low (by omega)]
    · have start : startAddr = 0 := by omega
      have first : nBaseStart * BLOCK_SIZE = 0 := by omega
      rw [start, first, Nat.zero_add, if_pos (Nat.zero_le _), if_pos (by omega), Nat.sub_zero,
        Nat.sub_zero, same.repeated k (by omega) covered]

/-- A stamped flash is the wanted one exactly when the bytes coincide. -/
theorem stamped_right_iff :
    left = splice flash startAddr src ↔
      Coincides z calls file flash startAddr src nBaseStart nUnitCnt := by
  constructor
  · exact coincides_of_right fits base placed inside stamped
  · exact right_of_coincides fits base placed inside stamped

end Stamps

theorem first_round (file : Option (List Byte)) (flash : List Byte)
    (sectors : WholeSectors z calls (startAddr / ERASE_BLOCK_SIZE))
    (fits : CopyFits startAddr src.length) (n : Nat) (t : Int) : ∃ t',
    flashLoop z calls file startAddr (startAddr / ERASE_BLOCK_SIZE) src (n + 1) 0 t
      (BLOCK_SIZE - (startAddr % ERASE_BLOCK_SIZE : Nat)) flash =
    if calls.opens 0 = true then
      flashLoop z calls file startAddr (startAddr / ERASE_BLOCK_SIZE) src n 1 t' ERASE_BLOCK_SIZE
        (deviceWrite (afterErase z calls flash (startAddr / ERASE_BLOCK_SIZE))
          (startAddr / ERASE_BLOCK_SIZE * BLOCK_SIZE) (block file startAddr src))
    else some (-1, afterErase z calls flash (startAddr / ERASE_BLOCK_SIZE)) := by
  obtain ⟨nRet, erased, done, _⟩ := sectors 0
  rw [Nat.add_zero] at done
  rw [flashLoop]
  simp only [Nat.add_zero, image_read, MIN, copy_first fits, done, Option.bind_eq_bind,
    Option.bind_some, afterErase]
  cases calls.opens 0 with
  | false => exact ⟨t, rfl⟩
  | true => exact ⟨_, rfl⟩

theorem first_stamped (z : WordSize) (calls : FlashCalls) (flash : List Byte)
    (file : Option (List Byte)) (fits : CopyFits startAddr src.length)
    (inside : startAddr + src.length ≤ flash.length) :
    Stamped BLOCK_SIZE (afterErase z calls flash (startAddr / ERASE_BLOCK_SIZE))
      (startAddr / ERASE_BLOCK_SIZE) 1 (block file startAddr src)
      (deviceWrite (afterErase z calls flash (startAddr / ERASE_BLOCK_SIZE))
        (startAddr / ERASE_BLOCK_SIZE * BLOCK_SIZE) (block file startAddr src)) := by
  have length := afterErase_length z calls flash (startAddr / ERASE_BLOCK_SIZE)
  have whole := block_length file startAddr src
  have room : (startAddr / ERASE_BLOCK_SIZE + 1) * BLOCK_SIZE ≤ flash.length := by
    simp only [CopyFits, BLOCK_SIZE, ERASE_BLOCK_SIZE] at fits ⊢
    omega
  rw [deviceWrite_block whole (by omega)]
  exact stamped_step (stamped_start BLOCK_SIZE _ _ _) whole (by rw [length]; exact room)

theorem long_request (file : Option (List Byte)) (flash : List Byte) (t : Int)
    (sectors : WholeSectors z calls 0) (long : ERASE_BLOCK_SIZE ≤ src.length)
    (inside : src.length ≤ flash.length) (int : src.length < 2147483648)
    (opened : calls.opens 0 = true) : ∃ nRet left,
    flashLoop z calls file 0 0 src (src.length / ERASE_BLOCK_SIZE) 1 t ERASE_BLOCK_SIZE
      (deviceWrite (afterErase z calls flash 0) (0 * BLOCK_SIZE) (block file 0 src)) =
        some (nRet, left) ∧
    ((∀ i, i < src.length / ERASE_BLOCK_SIZE + 1 → calls.opens i = true) → nRet = 0 ∧
      Stamped BLOCK_SIZE (afterErase z calls flash 0) 0 (src.length / ERASE_BLOCK_SIZE + 1)
        (block file 0 src) left) ∧
    ((∃ i, i < src.length / ERASE_BLOCK_SIZE + 1 ∧ calls.opens i = false) → nRet = -1) := by
  have length := afterErase_length z calls flash 0
  have fits : CopyFits 0 src.length := by
    simp only [CopyFits, BLOCK_SIZE, ERASE_BLOCK_SIZE] at long ⊢
    omega
  have stamped := first_stamped z calls flash file fits (by omega)
  have same : block file 0 src = src.take BLOCK_SIZE := by
    have size : (src.take BLOCK_SIZE).length = BLOCK_SIZE := by
      simp only [BLOCK_SIZE, ERASE_BLOCK_SIZE, List.length_take] at long ⊢
      omega
    rw [block, Nat.sub_zero, splice_start, List.take_left' size]
  rw [Nat.zero_div, same] at stamped
  rw [same]
  have few : 1 + src.length / ERASE_BLOCK_SIZE ≤ ERASE_BLOCK_SIZE := by
    simp only [ERASE_BLOCK_SIZE]
    omega
  have room : (1 + src.length / ERASE_BLOCK_SIZE) * BLOCK_SIZE ≤ (afterErase z calls flash 0).length := by
    simp only [BLOCK_SIZE, ERASE_BLOCK_SIZE] at long ⊢
    omega
  obtain ⟨nRet, left, run, succeeds, fails⟩ := later_rounds file sectors long
    (src.length / ERASE_BLOCK_SIZE) 1 t _ (by decide) few room stamped
  rw [Nat.add_comm 1] at succeeds fails
  refine ⟨nRet, left, run, ?_, ?_⟩
  · intro all
    exact succeeds fun j _ high => all j high
  · intro somewhere
    rcases somewhere with ⟨i, high, closed⟩
    have behind : 1 ≤ i := by
      cases i with
      | zero =>
        rw [opened] at closed
        contradiction
      | succ i => omega
    exact fails ⟨i, behind, high, closed⟩

end Result

/-- What a call is to do: stay inside its buffers and, when it returns 0, leave the request
    in the flash and nothing else changed. -/
def FlashWritten (z : WordSize) (calls : FlashCalls) (file : Option (List Byte))
    (flash : List Byte) (startAddr : Nat) (src : List Byte) : Prop :=
  ∃ nRet left, xlWritePrivateAreaFlash z calls file flash startAddr src.length (some src) =
    some (nRet, left) ∧ (nRet = 0 → left = splice flash startAddr src)

/-- When it does: the copies stay inside, and where every round can write, the bytes that
    reach the flash coincide with the wanted ones. -/
def WriteCondition (z : WordSize) (calls : FlashCalls) (file : Option (List Byte))
    (flash : List Byte) (startAddr : Nat) (src : List Byte) : Prop :=
  CopyFits startAddr src.length ∧ (calls.opens 0 = true →
    (src.length < ERASE_BLOCK_SIZE ∨ startAddr = 0) ∧
    ((∀ i, i < src.length / ERASE_BLOCK_SIZE + 1 → calls.opens i = true) →
      Coincides z calls file flash startAddr src (startAddr / ERASE_BLOCK_SIZE)
        (src.length / ERASE_BLOCK_SIZE + 1)))

theorem misfit_faults {z : WordSize} {calls : FlashCalls} {file : Option (List Byte)}
    {flash src : List Byte} {startAddr : Nat} (misfit : ¬CopyFits startAddr src.length) :
    xlWritePrivateAreaFlash z calls file flash startAddr src.length (some src) = none := by
  unfold xlWritePrivateAreaFlash
  dsimp only
  rw [flashLoop]
  simp only [Nat.add_zero, image_read, MIN, copy_first_faults misfit, Option.bind_eq_bind,
    Option.bind_none]

/-- A request at another place than the start and of more than one sector leaves tmpbuf in
    its second round. -/
theorem moved_long_faults {z : WordSize} {calls : FlashCalls} {file : Option (List Byte)}
    {src : List Byte} {startAddr nBaseStart n : Nat} (moved : startAddr ≠ 0) (i : Nat) (t : Int)
    (flash : List Byte) :
    flashLoop z calls file startAddr nBaseStart src (n + 1) i t ERASE_BLOCK_SIZE flash = none := by
  have faults := copy_later_faults src moved (image_length file (nBaseStart + i))
  rw [flashLoop]
  simp only [image_read, MIN, faults, Option.bind_eq_bind, Option.bind_none]

/-- A call that returns is right exactly when its successful runs are. -/
theorem outcome_iff {run : Option (Int × List Byte)} {nRet : Int} {left wanted : List Byte}
    {opens coincides : Prop} (done : run = some (nRet, left))
    (succeeds : opens → nRet = 0 ∧ (left = wanted ↔ coincides)) (fails : ¬opens → nRet ≠ 0) :
    (∃ nRet left, run = some (nRet, left) ∧ (nRet = 0 → left = wanted)) ↔ (opens → coincides) := by
  constructor
  · rintro ⟨code, flash, same, right⟩ opened
    rw [done] at same
    cases same
    obtain ⟨zero, iff⟩ := succeeds opened
    exact iff.mp (right zero)
  · intro coincide
    refine ⟨nRet, left, done, ?_⟩
    intro zero
    have opened : opens := by
      by_contra closed
      exact fails closed zero
    exact (succeeds opened).2.mpr (coincide opened)

theorem flash_write_right_iff (z : WordSize) (calls : FlashCalls) (file : Option (List Byte))
    (flash : List Byte) (startAddr : Nat) (src : List Byte)
    (sectors : WholeSectors z calls (startAddr / ERASE_BLOCK_SIZE))
    (inside : startAddr + src.length ≤ flash.length) (int : src.length < 2147483648) :
    FlashWritten z calls file flash startAddr src ↔
      WriteCondition z calls file flash startAddr src := by
  unfold FlashWritten WriteCondition
  by_cases fits : CopyFits startAddr src.length
  · unfold xlWritePrivateAreaFlash
    obtain ⟨t, first⟩ := first_round file flash sectors fits (src.length / ERASE_BLOCK_SIZE)
      src.length
    dsimp only
    rw [first]
    cases opened : calls.opens 0 with
    | false => simp [fits]
    | true =>
      simp only [fits, true_and, if_true, forall_const]
      by_cases short : src.length < ERASE_BLOCK_SIZE
      · -- one round
        have one : src.length / ERASE_BLOCK_SIZE = 0 := Nat.div_eq_of_lt short
        have shape := layout fits (.inl short)
        have stamped := first_stamped z calls flash file fits inside
        simp only [short, true_or, true_and]
        rw [one] at shape ⊢
        apply outcome_iff rfl
        · intro _
          exact ⟨rfl, stamped_right_iff fits rfl shape inside stamped⟩
        · intro closed
          exact absurd (fun i below => by rw [show i = 0 by omega, opened]) closed
      · by_cases start : startAddr = 0
        · subst start
          rw [Nat.zero_div] at sectors ⊢
          obtain ⟨nRet, left, run, succeeds, fails⟩ := long_request file flash t sectors
            (Nat.le_of_not_lt short) (by omega) int opened
          simp only [or_true, true_and]
          apply outcome_iff run
          · intro all
            obtain ⟨zero, stamped⟩ := succeeds all
            exact ⟨zero, stamped_right_iff fits (Nat.zero_div _).symm
              (by simpa using layout fits (.inr rfl)) inside stamped⟩
          · intro closed
            have code := fails (by simpa using closed)
            omega
        · -- the second round leaves tmpbuf
          obtain ⟨n, more⟩ : ∃ n, src.length / ERASE_BLOCK_SIZE = n + 1 := by
            have positive : 1 ≤ src.length / ERASE_BLOCK_SIZE :=
              (Nat.one_le_div_iff (by decide)).mpr (Nat.le_of_not_lt short)
            exact ⟨src.length / ERASE_BLOCK_SIZE - 1, by omega⟩
          rw [more, moved_long_faults start]
          simp [short, start]
  · rw [misfit_faults fits]
    simp [fits]

def flashDevice : FlashCalls where
  mtd i := ⟨true, some 0, fun _ => none, some ⟨0x40000, 0x10000⟩, fun _ => true, fun _ => i == 0⟩
  opens _ := true

theorem flashDevice_sectors : WholeSectors .bits32 flashDevice 0 := by
  intro i
  cases i with
  | zero => exact ⟨0, [⟨0, 0x10000⟩], by decide, by decide⟩
  | succ i =>
    refine ⟨8, [], ?_, by simp⟩
    have one : rounds 1#32 = 1 := by decide
    simp [eraseBlock, nonRegionErase, flashDevice, one, nonRegionLoop]

theorem full_block_written : FlashWritten .bits32 flashDevice none (List.replicate 1024 0xFF) 0
    (List.replicate 1024 7) :=
  (flash_write_right_iff .bits32 flashDevice none _ 0 (List.replicate 1024 7) flashDevice_sectors
    (by simp only [List.length_replicate]; omega) (by simp only [List.length_replicate]; omega)).mpr
    (by
      have length := afterErase_length .bits32 flashDevice (List.replicate 1024 0xFF) 0
      simp only [WriteCondition, CopyFits, List.length_replicate, BLOCK_SIZE,
        ERASE_BLOCK_SIZE] at length ⊢
      refine ⟨by omega, fun _ => ⟨by omega, fun _ => ?_⟩⟩
      constructor
      · intro k _ below
        omega
      · intro k high low
        simp only [BLOCK_SIZE] at high low
        omega
      · intro k below high
        simp only [BLOCK_SIZE, List.length_replicate] at below high
        omega
      · intro a beside _
        simp only [BLOCK_SIZE] at beside
        rw [List.getElem?_eq_none (by rw [Nat.zero_div]; omega),
          List.getElem?_eq_none (by simp only [List.length_replicate]; omega)])

/-- One byte: the copy of the first round reads 1023 bytes behind it. -/
theorem one_byte_overreads : WholeSectors .bits32 flashDevice 0 ∧
    ¬FlashWritten .bits32 flashDevice none (List.replicate 0x40000 0xFF) 0 [7] := by
  constructor
  · exact flashDevice_sectors
  · intro done
    rcases done with ⟨nRet, left, run, _⟩
    have misfit : ¬CopyFits 0 [(7 : Byte)].length := by
      simp only [CopyFits, BLOCK_SIZE, ERASE_BLOCK_SIZE, List.length_singleton]
      omega
    rw [misfit_faults misfit] at run
    contradiction

end TestSource.PrivateArea
