import Mathlib.Data.List.GetD
import TestSource.Upgrade
import TestSource.CrcTools
import TestSource.Recorded

/- The uImage check of upgrade_mtk against the checksums it is meant to compare: CRC-32 as a
   value of 32 bits, whatever the width of unsigned long. -/
namespace TestSource
open CrcRegister

def standardCrc (m : List Byte) : BitVec 32 := ~~~ register Poly (~~~ 0#32) m

section Width

theorem table_fits (i : Nat) : crcTable.getD i 0 < 4294967296 := by
  have all : ∀ word ∈ crcTable, word < 4294967296 := by decide +kernel
  by_cases inside : i < crcTable.length
  · rw [List.getD_eq_getElem _ _ inside]
    exact all _ (List.getElem_mem inside)
  · rw [List.getD_eq_default _ _ (by omega)]
    decide

theorem do1_wide {w : Nat} (wide : 32 ≤ w) (c : BitVec 32) (b : Byte) :
    do1 (c.setWidth w) b = (do1 c b).setWidth w := by
  have same : (c.setWidth w).setWidth 32 = c := by
    rw [BitVec.setWidth_setWidth_of_le c wide, BitVec.setWidth_eq]
  have shifted : c.setWidth w >>> 8 = (c >>> 8).setWidth w :=
    (BitVec.setWidth_ushiftRight wide).symm
  have word := BitVec.setWidth_ofNat_of_le_of_lt wide
    (table_fits ((c ^^^ b.setWidth 32) &&& 0xff#32).toNat)
  simp only [do1, same, shifted, BitVec.setWidth_xor, BitVec.setWidth_eq, word]

theorem foldl_wide {w : Nat} (wide : 32 ≤ w) (m : List Byte) (c : BitVec 32) :
    m.foldl do1 (c.setWidth w) = (m.foldl do1 c).setWidth w := by
  induction m generalizing c with
  | nil => rfl
  | cons b m ih => rw [List.foldl_cons, List.foldl_cons, do1_wide wide, ih]

/-- crc32 returns the standard CRC-32, in an unsigned long of either width. -/
theorem crc32_standard (z : WordSize) (m : List Byte) :
    crc32 z 0 m = (standardCrc m).setWidth z.bits := by
  have ones : BitVec.ofNat z.bits 0xffffffff = (0xffffffff#32).setWidth z.bits :=
    (BitVec.setWidth_ofNat_of_le_of_lt z.wide (by decide)).symm
  have start (c : BitVec z.bits) : (0 : BitVec z.bits) ^^^ c = c := BitVec.zero_xor
  have narrow : m.foldl do1 0xffffffff#32 ^^^ 0xffffffff#32 = standardCrc m := by
    rw [← crcLoop_eq_foldl]
    exact crc32_register m 0
  rw [crc32, crcLoop_eq_foldl, start, ones, foldl_wide z.wide, ← BitVec.setWidth_xor, narrow]

theorem setWidth_eq_iff (z : WordSize) (a v : BitVec 32) :
    a.setWidth z.bits = v.setWidth z.bits ↔ a = v := by
  constructor
  · intro same
    have back := congrArg (BitVec.setWidth 32) same
    rw [BitVec.setWidth_setWidth_of_le a z.wide, BitVec.setWidth_setWidth_of_le v z.wide,
      BitVec.setWidth_eq, BitVec.setWidth_eq] at back
    exact back
  · intro same
    rw [same]

/-- An int keeps its value when it is compared with an unsigned long. -/
def FitsInt (z : WordSize) (v : BitVec 32) : Prop := z = .bits32 ∨ v.msb = false

/-- The comparison with an int: its sign fills the upper half of a wider unsigned long. -/
theorem setWidth_eq_signExtend_iff (z : WordSize) (a v : BitVec 32) :
    a.setWidth z.bits = v.signExtend z.bits ↔ a = v ∧ FitsInt z v := by
  cases z with
  | bits32 =>
    have wide : a.setWidth 32 = v.signExtend 32 ↔ a = v := by
      rw [BitVec.setWidth_eq, BitVec.signExtend_eq]
    simp only [FitsInt, true_or, and_true]
    exact wide
  | bits64 =>
    by_cases negative : v.msb = false
    · rw [BitVec.signExtend_eq_setWidth_of_msb_false negative, setWidth_eq_iff]
      simp [FitsInt, negative]
    · have upper : (a.setWidth 64).msb ≠ (v.signExtend 64).msb := by
        simp [BitVec.msb_setWidth, BitVec.msb_signExtend, negative]
      constructor
      · intro same
        exact absurd (congrArg BitVec.msb same) upper
      · intro both
        rcases both with ⟨_, narrow | positive⟩
        · cases narrow
        · exact absurd positive negative

end Width

section Table
variable (z : WordSize) (content : List Byte)

/-- A zero entry of the table of a multi-file image, inside the mapped pages. -/
def ZeroEntry (pos : Nat) : Prop :=
  ∃ entry, readMapped content pos (z.bits / 8) = some entry ∧ entry.all (· == 0) = true

theorem length_le_mappedPages : content.length ≤ (mappedPages content).length := by
  rw [mappedPages, List.length_append]
  omega

theorem readMapped_isSome_iff (offset len : Nat) :
    (readMapped content offset len).isSome ↔ offset + len ≤ (mappedPages content).length := by
  unfold readMapped
  split <;> simp [*]

theorem ZeroEntry.inside {z : WordSize} {content : List Byte} {pos : Nat}
    (zero : ZeroEntry z content pos) : pos + z.bits / 8 ≤ (mappedPages content).length := by
  obtain ⟨entry, read, _⟩ := zero
  rw [← readMapped_isSome_iff, read]
  rfl

theorem zeroEntry_read {z : WordSize} {content entry : List Byte} {pos : Nat}
    (read : readMapped content pos (z.bits / 8) = some entry) :
    ZeroEntry z content pos ↔ entry.all (· == 0) = true := by
  simp [ZeroEntry, read]

theorem exists_entry_next (entryAt : Nat → Prop) {pos : Nat} (size : Nat) (skip : ¬entryAt pos) :
    (∃ i, entryAt (pos + i * size)) ↔ ∃ i, entryAt (pos + size + i * size) := by
  have next (i : Nat) : pos + (i + 1) * size = pos + size + i * size := by
    rw [Nat.add_mul]
    omega
  constructor
  · intro somewhere
    rcases somewhere with ⟨i, found⟩
    cases i with
    | zero => simp only [Nat.zero_mul, Nat.add_zero] at found; contradiction
    | succ i => exact ⟨i, next i ▸ found⟩
  · intro somewhere
    rcases somewhere with ⟨i, found⟩
    exact ⟨i + 1, (next i).symm ▸ found⟩

/-- The walk ends exactly when there is a zero entry for it to find. -/
theorem countImages_isSome_iff (fuel pos : Nat)
    (enough : (mappedPages content).length < pos + fuel * (z.bits / 8)) :
    (countImages z content fuel pos).isSome ↔
      ∃ i, ZeroEntry z content (pos + i * (z.bits / 8)) := by
  induction fuel generalizing pos with
  | zero =>
    simp only [countImages, Option.isSome_none, Bool.false_eq_true, false_iff]
    intro somewhere
    rcases somewhere with ⟨i, zero⟩
    have inside := zero.inside
    omega
  | succ fuel ih =>
    cases read : readMapped content pos (z.bits / 8) with
    | none =>
      have beyond : ¬pos + z.bits / 8 ≤ (mappedPages content).length := by
        rw [← readMapped_isSome_iff, read]
        decide
      simp only [countImages, read, Option.bind_eq_bind, Option.bind_none, Option.isSome_none,
        Bool.false_eq_true, false_iff]
      intro somewhere
      rcases somewhere with ⟨i, zero⟩
      have inside := zero.inside
      omega
    | some entry =>
      by_cases zero : entry.all (· == 0) = true
      · simp only [countImages, read, Option.bind_eq_bind, Option.bind_some, zero, if_true,
          Option.isSome_some, true_iff]
        exact ⟨0, by rw [Nat.zero_mul, Nat.add_zero, zeroEntry_read read]; exact zero⟩
      · have skip : ¬ZeroEntry z content pos := by rwa [zeroEntry_read read]
        have later := ih (pos + z.bits / 8) (by rw [Nat.add_mul] at enough; omega)
        simp only [countImages, read, Option.bind_eq_bind, Option.bind_some, zero,
          Bool.false_eq_true, if_false, Option.isSome_map, later]
        exact (exists_entry_next (ZeroEntry z content) _ skip).symm

end Table

def imageHeader (content : List Byte) : List Byte :=
  (content.drop sizeofImgHeader).take sizeofImageHeader

structure ValidImage (content : List Byte) : Prop where
  magic : ntohlAt content 64 = IH_MAGIC
  header : standardCrc (clearHcrc (imageHeader content)) = ntohlAt content 68
  data : standardCrc (content.drop 128) = ntohlAt content 88

def MapCalls.succeed (calls : MapCalls) (content : List Byte) : Prop :=
  calls.opens = true ∧ calls.stats = true ∧ calls.maps = true ∧ content ≠ []

def HasTable (content : List Byte) : Prop :=
  byteAt content 94 = IH_TYPE_MULTI ∨ byteAt content 94 = IH_TYPE_SCRIPT

/-- What the check does with the mapping: it reads a range, and it passes a length to the
    data CRC. -/
inductive Access where
  | read (offset len : Nat)
  | dataCrc (len : Int)
  deriving DecidableEq, Repr

section Trace
variable (z : WordSize) (content : List Byte)

def readRecorded (offset len : Nat) : Recorded Access (List Byte) :=
  .record (.read offset len) (readMapped content offset len)

/-- The walk; the loop that prints the images reads the same entries again. -/
def countImagesRecorded : Nat → Nat → Recorded Access Nat
  | 0, _ => ⟨[], none⟩
  | fuel + 1, pos => do
      let entry ← readRecorded content pos (z.bits / 8)
      if entry.all (· == 0) then pure 0
      else do
        let n ← countImagesRecorded fuel (pos + z.bits / 8)
        pure (n + 1)

/-- The fields that are printed are read through the mapping too. -/
def printHeaderRecorded (hdr : List Byte) (pos : Nat) : Recorded Access Nat := do
  let _ ← readRecorded content pos sizeofImageHeader
  if byteAt hdr 30 = IH_TYPE_MULTI ∨ byteAt hdr 30 = IH_TYPE_SCRIPT then
    countImagesRecorded z content (mappedPages content).length (pos + sizeofImageHeader)
  else pure 0

def checkDataRecorded (hdr : List Byte) : Recorded Access Int := do
  let _ ← Recorded.record (Access.dataCrc (toS32 (dataLen content))) (some ())
  let data ← readRecorded content (sizeofImgHeader + sizeofImageHeader) (dataLen content)
  if crc32 z 0 data ≠ (ntohlAt hdr 24).setWidth z.bits then pure (-6)
  else do
    let _ ← printHeaderRecorded z content hdr sizeofImgHeader
    pure 0

def caculateCrcFileRecorded (calls : MapCalls) : Recorded Access Int :=
  if !calls.opens then pure (-1)
  else if !calls.stats then pure (-2)
  else if !calls.maps || content.isEmpty then pure (-3)
  else do
    let hdr ← readRecorded content sizeofImgHeader sizeofImageHeader
    if ntohlAt hdr 0 ≠ IH_MAGIC then pure (-4)
    else
      let checksum : BitVec z.bits := (ntohlAt hdr 4).signExtend z.bits
      if crc32 z 0 (clearHcrc hdr) ≠ checksum then pure (-5)
      else checkDataRecorded z content hdr

@[simp]
theorem readRecorded_value (offset len : Nat) :
    (readRecorded content offset len).value = readMapped content offset len := rfl

theorem countImagesRecorded_value (fuel pos : Nat) :
    (countImagesRecorded z content fuel pos).value = countImages z content fuel pos := by
  induction fuel generalizing pos with
  | zero => rfl
  | succ fuel ih =>
    simp only [countImagesRecorded, countImages, Recorded.value_bind, readRecorded_value,
      Option.bind_eq_bind]
    congr 1
    funext entry
    split
    · rfl
    · simp only [Recorded.value_bind, ih, Recorded.value_pure]
      cases countImages z content fuel (pos + z.bits / 8) with
      | none => rfl
      | some n => rfl

theorem caculateCrcFileRecorded_unmapped {calls : MapCalls} (failed : ¬calls.succeed content) :
    ∃ code, caculateCrcFileRecorded z content calls = pure code ∧ code < 0 := by
  unfold caculateCrcFileRecorded
  by_cases opens : calls.opens = true
  · by_cases stats : calls.stats = true
    · by_cases maps : calls.maps = true ∧ content ≠ []
      · exact absurd ⟨opens, stats, maps⟩ failed
      · have refused : (!calls.maps || content.isEmpty) = true := by
          simp only [not_and_or, not_not] at maps
          simpa using maps
        exact ⟨-3, by simp [opens, stats, refused], by decide⟩
    · exact ⟨-2, by simp [opens, stats], by decide⟩
  · exact ⟨-1, by simp [opens], by decide⟩

theorem caculateCrcFileRecorded_value (calls : MapCalls) :
    (caculateCrcFileRecorded z content calls).value = caculateCrcFile z calls content := by
  unfold caculateCrcFileRecorded caculateCrcFile
  split
  · rfl
  split
  · rfl
  split
  · rfl
  simp only [Recorded.value_bind, readRecorded_value, Option.bind_eq_bind]
  cases read : readMapped content sizeofImgHeader sizeofImageHeader with
  | none => rfl
  | some hdr =>
    simp only [Option.bind_some]
    split
    · rfl
    split
    · rfl
    simp only [checkDataRecorded, Recorded.value_bind, Recorded.value_record, readRecorded_value,
      Option.bind_some]
    congr 1
    funext data
    split
    · rfl
    · have printed : (printHeaderRecorded z content hdr sizeofImgHeader).value =
          printHeader z content hdr sizeofImgHeader := by
        simp only [printHeaderRecorded, printHeader, Recorded.value_bind, readRecorded_value, read,
          Option.bind_some]
        split
        · exact countImagesRecorded_value z content _ _
        · rfl
      simp only [Recorded.value_bind, printed]
      rfl

end Trace

section Long
variable {content : List Byte}

theorem byteAt_header {i : Nat} (inside : i < 64) :
    byteAt (imageHeader content) i = byteAt content (64 + i) := by
  simp [imageHeader, byteAt, sizeofImgHeader, sizeofImageHeader, inside]

theorem ntohlAt_header {i : Nat} (inside : i + 3 < 64) :
    ntohlAt (imageHeader content) i = ntohlAt content (64 + i) := by
  simp (disch := omega) only [ntohlAt, byteAt_header, Nat.add_assoc]

theorem header_words (content : List Byte) :
    ntohlAt (imageHeader content) 0 = ntohlAt content 64 ∧
      ntohlAt (imageHeader content) 4 = ntohlAt content 68 ∧
      ntohlAt (imageHeader content) 24 = ntohlAt content 88 :=
  ⟨ntohlAt_header (by omega), ntohlAt_header (by omega), ntohlAt_header (by omega)⟩

theorem dataLen_long (long : 128 ≤ content.length) (short : content.length < 4294967296) :
    dataLen content = content.length - 128 := by
  simp only [dataLen, sizeofImgHeader, sizeofImageHeader]
  omega

theorem header_read (long : 128 ≤ content.length) :
    readMapped content sizeofImgHeader sizeofImageHeader = some (imageHeader content) := by
  apply readMapped_inside
  simp only [sizeofImgHeader, sizeofImageHeader]
  omega

theorem data_read (long : 128 ≤ content.length) (short : content.length < 4294967296) :
    readMapped content (sizeofImgHeader + sizeofImageHeader) (dataLen content) =
      some (content.drop 128) := by
  have size : sizeofImgHeader + sizeofImageHeader = 128 := rfl
  have all : (content.drop 128).length ≤ content.length - 128 := Nat.le_of_eq List.length_drop
  rw [dataLen_long long short, size, readMapped_inside (by omega), List.take_of_length_le all]

/-- The entries of the mapped pages run out before the fuel does. -/
theorem table_walk_fuel (z : WordSize) (content : List Byte) :
    (mappedPages content).length < 128 + (mappedPages content).length * (z.bits / 8) := by
  have step : 1 ≤ z.bits / 8 := by
    cases z <;> decide
  have more := Nat.mul_le_mul_left (mappedPages content).length step
  omega

theorem printHeader_isSome_iff (z : WordSize) (content : List Byte) :
    (printHeader z content (imageHeader content) sizeofImgHeader).isSome ↔
      (HasTable content → ∃ i, ZeroEntry z content (128 + i * (z.bits / 8))) := by
  have kind : byteAt (imageHeader content) 30 = byteAt content 94 := byteAt_header (by omega)
  have size : sizeofImgHeader + sizeofImageHeader = 128 := rfl
  unfold printHeader HasTable
  rw [kind, size]
  split
  case isTrue table =>
    rw [countImages_isSome_iff z content _ _ (table_walk_fuel z content)]
    exact ⟨fun ends _ => ends, fun ends => ends table⟩
  case isFalse plain => simp [plain]

theorem caculateCrcFile_mapped (z : WordSize) {calls : MapCalls} (called : calls.succeed content)
    (long : 128 ≤ content.length) (short : content.length < 4294967296) :
    caculateCrcFile z calls content =
      if ntohlAt content 64 ≠ IH_MAGIC then some (-4)
      else if (standardCrc (clearHcrc (imageHeader content))).setWidth z.bits ≠
          (ntohlAt content 68).signExtend z.bits then some (-5)
      else if (standardCrc (content.drop 128)).setWidth z.bits ≠
          (ntohlAt content 88).setWidth z.bits then some (-6)
      else (printHeader z content (imageHeader content) sizeofImgHeader).map fun _ => 0 := by
  obtain ⟨opens, stats, maps, something⟩ := called
  obtain ⟨magic, hcrc, dcrc⟩ := header_words content
  have mapped : content.isEmpty = false := by simpa using something
  simp only [caculateCrcFile, opens, stats, maps, mapped, header_read long, data_read long short,
    magic, hcrc, dcrc, crc32_standard, Bool.not_true, Bool.false_eq_true, Bool.or_self, if_false,
    Option.bind_eq_bind, Option.bind_some, Option.map_eq_bind]
  rfl

theorem caculateCrcFile_unmapped (z : WordSize) {calls : MapCalls} (failed : ¬calls.succeed content) :
    ∃ code, caculateCrcFile z calls content = some code ∧ code < 0 := by
  obtain ⟨code, refused, negative⟩ := caculateCrcFileRecorded_unmapped z content failed
  exact ⟨code, by rw [← caculateCrcFileRecorded_value, refused]; rfl, negative⟩

theorem caculateCrcFile_accepts_iff (z : WordSize) (calls : MapCalls) (long : 128 ≤ content.length)
    (short : content.length < 4294967296) :
    caculateCrcFile z calls content = some 0 ↔
      ValidImage content ∧ calls.succeed content ∧ FitsInt z (ntohlAt content 68) ∧
        (HasTable content → ∃ i, ZeroEntry z content (128 + i * (z.bits / 8))) := by
  by_cases called : calls.succeed content
  case neg =>
    obtain ⟨code, refused, negative⟩ := caculateCrcFile_unmapped z called
    constructor
    · intro accepted
      rw [refused, Option.some.injEq] at accepted
      omega
    · intro conditions
      exact absurd conditions.2.1 called
  case pos =>
    rw [caculateCrcFile_mapped z called long short, ← printHeader_isSome_iff]
    constructor
    · intro accepted
      by_cases magic : ntohlAt content 64 = IH_MAGIC
      case neg =>
        rw [if_pos magic] at accepted
        cases accepted
      rw [if_neg (not_not.mpr magic)] at accepted
      by_cases header : (standardCrc (clearHcrc (imageHeader content))).setWidth z.bits =
          (ntohlAt content 68).signExtend z.bits
      case neg =>
        rw [if_pos header] at accepted
        cases accepted
      rw [if_neg (not_not.mpr header)] at accepted
      by_cases data : (standardCrc (content.drop 128)).setWidth z.bits =
          (ntohlAt content 88).setWidth z.bits
      case neg =>
        rw [if_pos data] at accepted
        cases accepted
      rw [if_neg (not_not.mpr data)] at accepted
      obtain ⟨count, walk, _⟩ := Option.map_eq_some_iff.mp accepted
      obtain ⟨same, fits⟩ := (setWidth_eq_signExtend_iff z _ _).mp header
      exact ⟨⟨magic, same, (setWidth_eq_iff z _ _).mp data⟩, called, fits, by rw [walk]; rfl⟩
    · intro conditions
      rcases conditions with ⟨valid, _, fits, printed⟩
      obtain ⟨count, walk⟩ := Option.isSome_iff_exists.mp printed
      have header := (setWidth_eq_signExtend_iff z _ _).mpr ⟨valid.header, fits⟩
      have data := (setWidth_eq_iff z _ _).mpr valid.data
      rw [if_neg (not_not.mpr valid.magic), if_neg (not_not.mpr header), if_neg (not_not.mpr data),
        walk]
      rfl

end Long

/-- The check accepts exactly the valid images when the stored header checksum is compared
    as it stands and the table of a multi-file image has an end. -/
theorem image_check_exact_iff (z : WordSize) (calls : MapCalls) (content : List Byte)
    (long : 128 ≤ content.length) (short : content.length < 2147483648) :
    (caculateCrcFile z calls content = some 0 ↔ ValidImage content) ↔
      (ValidImage content → calls.succeed content ∧ FitsInt z (ntohlAt content 68) ∧
        (HasTable content → ∃ i, ZeroEntry z content (128 + i * (z.bits / 8)))) := by
  rw [caculateCrcFile_accepts_iff z calls long (by omega)]
  constructor
  · intro exactly valid
    exact (exactly.mpr valid).2
  · intro enough
    constructor
    · intro both
      exact both.1
    · intro valid
      exact ⟨valid, enough valid⟩

theorem rom_file_checked_exactly :
    caculateCrcFile .bits32 ⟨true, true, true⟩ romFile = some 0 ↔ ValidImage romFile := by
  apply (image_check_exact_iff .bits32 ⟨true, true, true⟩ romFile (by decide +kernel)
    (by decide +kernel)).mpr
  intro _
  refine ⟨⟨rfl, rfl, rfl, by decide⟩, .inl rfl, ?_⟩
  intro table
  exact absurd table (by unfold HasTable; decide)

/-- The image of romFile with another date: its header checksum has the top bit set. -/
def dateFile : List Byte :=
  [0x41, 0x4c, 0x4c, 0] ++ List.replicate 60 0 ++
  [0x27, 0x05, 0x19, 0x56, 0xf1, 0x40, 0x28, 0xf0, 0, 0, 0, 2, 0, 0, 0, 4,
   0x80, 0, 0, 0, 0x80, 0, 0, 0, 0x9b, 0x66, 0x1e, 0xd7, 5, 5, 2, 3] ++
  List.replicate 32 0 ++ [0x44, 0x41, 0x54, 0x41]

theorem high_checksum_refused :
    dateFile.length = 132 ∧ ValidImage dateFile ∧
      caculateCrcFile .bits64 ⟨true, true, true⟩ dateFile = some (-5) := by
  refine ⟨?_, ⟨?_, ?_, ?_⟩, ?_⟩
  · decide +kernel
  · decide +kernel
  · decide +kernel
  · decide +kernel
  · decide +kernel

/-- A read ends inside the file, and the data CRC gets what is behind both headers. -/
def Access.Right (size : Nat) : Access → Prop
  | .read offset len => offset + len ≤ size
  | .dataCrc len => 0 ≤ len ∧ len = (size : Int) - 128

def ChecksInside (z : WordSize) (calls : MapCalls) (content : List Byte) : Prop :=
  (caculateCrcFileRecorded z content calls).Holds (Access.Right content.length)

section Inside
variable (z : WordSize) {content : List Byte}

@[simp]
theorem read_inside_iff (offset len : Nat) :
    (readRecorded content offset len).Holds (Access.Right content.length) ↔
      offset + len ≤ content.length := by
  rw [readRecorded, Recorded.holds_record, Access.Right]

/-- The walk stays in the file exactly when the file holds a zero entry. -/
theorem walk_inside_iff (fuel pos : Nat) (started : 0 < fuel)
    (enough : (mappedPages content).length < pos + fuel * (z.bits / 8)) :
    (countImagesRecorded z content fuel pos).Holds (Access.Right content.length) ↔
      ∃ i, ZeroEntry z content (pos + i * (z.bits / 8)) ∧
        pos + i * (z.bits / 8) + z.bits / 8 ≤ content.length := by
  induction fuel generalizing pos with
  | zero => omega
  | succ fuel ih =>
    rw [countImagesRecorded, Recorded.holds_bind, read_inside_iff]
    by_cases inside : pos + z.bits / 8 ≤ content.length
    case neg =>
      constructor
      · intro both
        exact absurd both.1 inside
      · intro somewhere
        rcases somewhere with ⟨i, _, fits⟩
        omega
    case pos =>
      have pages := length_le_mappedPages content
      have read := readMapped_inside inside
      simp only [inside, readRecorded_value, read, Option.some.injEq, true_and, forall_eq']
      by_cases zero : ((content.drop pos).take (z.bits / 8)).all (· == 0) = true
      · rw [if_pos zero]
        have here : ZeroEntry z content pos := (zeroEntry_read read).mpr zero
        simp only [Recorded.holds_pure, true_iff]
        exact ⟨0, by simpa using here, by simpa using inside⟩
      · have skip : ¬(ZeroEntry z content pos ∧ pos + z.bits / 8 ≤ content.length) := by
          rw [zeroEntry_read read]
          exact fun both => zero both.1
        rw [Nat.add_mul] at enough
        have left : 0 < fuel := by
          apply Nat.pos_of_ne_zero
          intro empty
          subst empty
          omega
        have later := ih (pos + z.bits / 8) left (by omega)
        rw [if_neg zero, Recorded.holds_bind, later]
        simp only [Recorded.holds_pure, implies_true, and_true]
        exact (exists_entry_next (fun p => ZeroEntry z content p ∧ p + z.bits / 8 ≤ content.length)
          _ skip).symm

theorem printHeader_inside_iff (long : 128 ≤ content.length) :
    (printHeaderRecorded z content (imageHeader content) sizeofImgHeader).Holds
        (Access.Right content.length) ↔
      (HasTable content → ∃ i, ZeroEntry z content (128 + i * (z.bits / 8)) ∧
        128 + i * (z.bits / 8) + z.bits / 8 ≤ content.length) := by
  have kind : byteAt (imageHeader content) 30 = byteAt content 94 := byteAt_header (by omega)
  have size : sizeofImgHeader + sizeofImageHeader = 128 := rfl
  have pages := length_le_mappedPages content
  rw [printHeaderRecorded, Recorded.holds_bind, read_inside_iff, size, kind]
  simp only [long, true_and, readRecorded_value, header_read long, Option.some.injEq, forall_eq']
  by_cases table : byteAt content 94 = IH_TYPE_MULTI ∨ byteAt content 94 = IH_TYPE_SCRIPT
  · rw [if_pos table, walk_inside_iff z _ _ (by omega) (table_walk_fuel z content)]
    exact ⟨fun ends _ => ends, fun ends => ends table⟩
  · rw [if_neg table]
    simp [HasTable, table]

/-- The length is right below 2 GiB, where it fits an int. -/
theorem dataCrc_right_iff (long : 128 ≤ content.length) :
    Access.Right content.length (.dataCrc (toS32 (dataLen content))) ↔
      content.length < 2147483776 := by
  have cut : dataLen content = (content.length - 128) % 4294967296 := by
    simp only [dataLen, sizeofImgHeader, sizeofImageHeader]
    omega
  simp only [Access.Right, toS32]
  split
  · omega
  · omega

theorem checkData_inside_iff (long : 128 ≤ content.length) :
    (checkDataRecorded z content (imageHeader content)).Holds (Access.Right content.length) ↔
      content.length < 2147483776 ∧
        (standardCrc (content.drop 128) = ntohlAt content 88 → HasTable content →
          ∃ i, ZeroEntry z content (128 + i * (z.bits / 8)) ∧
            128 + i * (z.bits / 8) + z.bits / 8 ≤ content.length) := by
  obtain ⟨_, _, dcrcAt⟩ := header_words content
  rw [checkDataRecorded, Recorded.holds_bind, Recorded.holds_record, dataCrc_right_iff long]
  apply and_congr_right
  intro small
  have fits : content.length < 4294967296 := by omega
  have within : sizeofImgHeader + sizeofImageHeader + dataLen content ≤ content.length := by
    rw [dataLen_long long fits]
    simp only [sizeofImgHeader, sizeofImageHeader]
    omega
  simp only [Recorded.value_record, Option.some.injEq, forall_eq', Recorded.holds_bind,
    read_inside_iff, within, true_and, readRecorded_value, data_read long fits, crc32_standard, dcrcAt]
  by_cases data : standardCrc (content.drop 128) = ntohlAt content 88
  · have same := (setWidth_eq_iff z _ _).mpr data
    rw [if_neg (not_not.mpr same), Recorded.holds_bind, printHeader_inside_iff z long]
    simp [data]
  · have differ := mt (setWidth_eq_iff z _ _).mp data
    rw [if_pos differ]
    simp [data]

end Inside

def HeaderPasses (z : WordSize) (content : List Byte) : Prop :=
  ntohlAt content 64 = IH_MAGIC ∧
    standardCrc (clearHcrc (imageHeader content)) = ntohlAt content 68 ∧
    FitsInt z (ntohlAt content 68)

/-- The check stays inside the file exactly when there is nothing mapped, or both headers
    are there, and behind an accepted header the data is shorter than 2 GiB and, if its
    checksum is right, holds the end of the table that is walked. -/
theorem checks_inside_iff (z : WordSize) (calls : MapCalls) (content : List Byte) :
    ChecksInside z calls content ↔ (calls.succeed content → 128 ≤ content.length ∧
      (HeaderPasses z content → content.length < 2147483776 ∧
        (standardCrc (content.drop 128) = ntohlAt content 88 → HasTable content →
          ∃ i, ZeroEntry z content (128 + i * (z.bits / 8)) ∧
            128 + i * (z.bits / 8) + z.bits / 8 ≤ content.length))) := by
  by_cases called : calls.succeed content
  case neg =>
    obtain ⟨code, refused, _⟩ := caculateCrcFileRecorded_unmapped z content called
    simp [ChecksInside, refused, called]
  case pos =>
    have ⟨opens, stats, maps, something⟩ := called
    have mapped : content.isEmpty = false := by simpa using something
    unfold ChecksInside caculateCrcFileRecorded
    simp only [opens, stats, maps, mapped, Bool.not_true, Bool.false_eq_true, Bool.or_self, if_false,
      Recorded.holds_bind, read_inside_iff]
    by_cases long : 128 ≤ content.length
    case neg =>
      have short : ¬sizeofImgHeader + sizeofImageHeader ≤ content.length := long
      simp [short, long, called]
    have both : sizeofImgHeader + sizeofImageHeader ≤ content.length := long
    simp only [both, long, called, true_and, true_implies, readRecorded_value, header_read long,
      Option.some.injEq, forall_eq']
    obtain ⟨magicAt, hcrcAt, _⟩ := header_words content
    rw [magicAt, hcrcAt, crc32_standard]
    by_cases magic : ntohlAt content 64 = IH_MAGIC
    case neg =>
      rw [if_pos magic]
      simp [HeaderPasses, magic]
    rw [if_neg (not_not.mpr magic)]
    by_cases header : (standardCrc (clearHcrc (imageHeader content))).setWidth z.bits =
        (ntohlAt content 68).signExtend z.bits
    case neg =>
      have failed : ¬HeaderPasses z content := fun passes =>
        header ((setWidth_eq_signExtend_iff z _ _).mpr passes.2)
      rw [if_pos header]
      simp [failed]
    have passed : HeaderPasses z content := ⟨magic, (setWidth_eq_signExtend_iff z _ _).mp header⟩
    rw [if_neg (not_not.mpr header), checkData_inside_iff z long]
    simp only [passed, true_implies]

theorem header_only_overreads :
    checkImgFile (some (romFile.take 64)) 0 = (0, 2) ∧
      ¬ChecksInside .bits64 ⟨true, true, true⟩ (romFile.take 64) := by
  refine ⟨by decide +kernel, ?_⟩
  intro inside
  have bound : 64 + 64 ≤ (romFile.take 64).length := inside (.read 64 64) (by decide +kernel)
  exact absurd bound (by decide +kernel)

end TestSource
