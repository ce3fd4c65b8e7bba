import TestSource.CrcTools
import TestSource.Upgrade

/- test_burn_img.c of C_TEST on a little-endian target: the image file holds a TRX image
   behind its 64-byte header. Reads and writes are complete; an int is kept as its 32 bits
   and becomes a size_t by sign extension. -/
namespace TestSource.CTest
open CrcRegister

def CRC32_INIT_VALUE : BitVec 32 := 0xffffffff
def TRX_MAGIC : BitVec 32 := 0x30524448
def MAX_FIRMWARE_SIZE : BitVec 32 := 0x100000 * 32

/-- struct trx_header: magic, len, crc32, flag_version and three offsets. -/
def sizeofTrxHeader : Nat := 28
def offsetofLen : Nat := 4
def offsetofCrc32 : Nat := 8
def offsetofFlagVersion : Nat := 12

def sizeofTmpBuf : Nat := 512

/-- The content of a file that can be opened, and what the call leaves in *pnType. -/
def checkImgFile (uploadFile : Option (List Byte)) (nType : Int) : Int × Int :=
  match uploadFile with
  | none => (-1, nType)
  | some content =>
      let img := content.take sizeofImgHeader
      if img.length ≠ sizeofImgHeader then (-1, nType)
      else if wordAt img 0 = IMG_MAGIC then (0, 0)
      else if wordAt img 0 = APP_MAGIC then (0, 1)
      else (-1, nType)

def minLen (z : WordSize) (len : BitVec 32) (n : Nat) : BitVec 32 :=
  if (len.signExtend z.bits).toNat < n then len else BitVec.ofNat 32 n

def safeFread (z : WordSize) (size : BitVec 32) (pfile : List Byte) : List Byte × List Byte :=
  pfile.splitAt (size.signExtend z.bits).toNat

/-- The loop over the image behind its header: the register and crc_len, or an error. -/
def crcFileLoop (z : WordSize) : Nat → Bool → BitVec 32 → List Byte → BitVec 32 → BitVec 32 →
    Option (Except Int (BitVec 32 × BitVec 32))
  | 0, _, _, _, _, _ => none
  | fuel + 1, first, len, pfile, crc, crcLen =>
      if len = 0 then some (.ok (crc, crcLen))
      else
        let readLen := if first then minLen z len (sizeofTmpBuf - sizeofTrxHeader)
          else minLen z len sizeofTmpBuf
        let (tmpBuf, pfile) := safeFread z readLen pfile
        let count := BitVec.ofNat 32 tmpBuf.length
        if count ≠ readLen then some (.error (-1))
        else crcFileLoop z fuel false (len - count) pfile (hndcrc32 tmpBuf crc) (crcLen + count)

def caculateCrcFile (z : WordSize) (uploadFile : Option (List Byte)) (nCRC : BitVec 32) :
    Option (Int × BitVec 32) :=
  match uploadFile with
  | none => some (-1, nCRC)
  | some content =>
      let pfile := content.drop sizeofImgHeader
      let trx := pfile.take sizeofTrxHeader
      let len := wordAt trx offsetofLen
      let trxSize := BitVec.ofNat 32 sizeofTrxHeader
      if trx.length < sizeofTrxHeader then some (-1, nCRC)
      else if wordAt trx 0 ≠ TRX_MAGIC ∨ len > MAX_FIRMWARE_SIZE ∨ len < trxSize then
        some (-1, nCRC)
      else do
        let crc := hndcrc32 (trx.drop offsetofFlagVersion) CRC32_INIT_VALUE
        match ← crcFileLoop z (len.toNat + 1) true (len - trxSize) (pfile.drop sizeofTrxHeader)
            crc 0 with
        | .error _ => some (-1, nCRC)
        | .ok (crc, crcLen) =>
            if crcLen = len - trxSize then
              if crc ≠ wordAt trx offsetofCrc32 then some (-1, nCRC)
              else some (0, wordAt trx offsetofCrc32)
            else some (0, nCRC)

def mtd2 : CStr := ['/', 'd', 'e', 'v', '/', 'm', 't', 'd', '2']
def mtd4 : CStr := ['/', 'd', 'e', 'v', '/', 'm', 't', 'd', '4']

def burnData (content : List Byte) (mtdName : Option CStr) (calls : BurnCalls) :
    Option (Int × List Byte) :=
  if mtdName.isNone then some (-1, [])
  else if !calls.outOpens || !calls.inOpens then some (-2, [])
  else if !calls.seeks then some (-3, [])
  else
    let infile := content.drop sizeofImgHeader
    (burnLoop (infile.length + 1) infile).map fun written => (0, written)

/-- The device and what burn_data does with it; no device for an unknown type. -/
def burnFileToMtd (content : List Byte) (calls : BurnCalls) (nType : Int) :
    Option (Int × Option CStr × List Byte) :=
  if nType = 0 then (burnData content (some mtd2) calls).map fun r => (r.1, some mtd2, r.2)
  else if nType = 1 then (burnData content (some mtd4) calls).map fun r => (r.1, some mtd4, r.2)
  else some (-1, none, [])

section Loop
variable (z : WordSize)

theorem signExtend_small {n : Nat} (small : n < 2147483648) :
    ((BitVec.ofNat 32 n).signExtend z.bits).toNat = n := by
  have positive : (BitVec.ofNat 32 n).msb = false := by
    rw [BitVec.msb_eq_decide, BitVec.toNat_ofNat]
    simp only [decide_eq_false_iff_not]
    omega
  have wide := z.wide
  have room : 4294967296 ≤ 2 ^ z.bits := by
    cases z <;> decide
  rw [BitVec.signExtend_eq_setWidth_of_msb_false positive, BitVec.toNat_setWidth,
    BitVec.toNat_ofNat]
  rw [Nat.mod_eq_of_lt (by omega : n < 2 ^ 32), Nat.mod_eq_of_lt (by omega)]

theorem minLen_small {n m : Nat} (small : n < 2147483648) :
    minLen z (BitVec.ofNat 32 n) m = BitVec.ofNat 32 (min n m) := by
  rw [minLen, signExtend_small z small]
  split
  · rw [Nat.min_eq_left (by omega)]
  · rw [Nat.min_eq_right (by omega)]

theorem readLen_small {n : Nat} (small : n < 2147483648) (first : Bool) :
    ∃ m, (n ≠ 0 → 0 < m) ∧ m ≤ n ∧
      (if first then minLen z (BitVec.ofNat 32 n) (sizeofTmpBuf - sizeofTrxHeader)
        else minLen z (BitVec.ofNat 32 n) sizeofTmpBuf) = BitVec.ofNat 32 m := by
  cases first
  · refine ⟨min n sizeofTmpBuf, ?_, Nat.min_le_left _ _, minLen_small z small⟩
    simp only [sizeofTmpBuf]
    omega
  · refine ⟨min n (sizeofTmpBuf - sizeofTrxHeader), ?_, Nat.min_le_left _ _, minLen_small z small⟩
    simp only [sizeofTmpBuf, sizeofTrxHeader]
    omega

theorem fread_small {m : Nat} (small : m < 2147483648) (pfile : List Byte) :
    safeFread z (BitVec.ofNat 32 m) pfile = (pfile.take m, pfile.drop m) := by
  simp only [safeFread, signExtend_small z small, List.splitAt_eq]

theorem sub_small {m n : Nat} (less : m ≤ n) (small : n < 2147483648) :
    BitVec.ofNat 32 n - BitVec.ofNat 32 m = BitVec.ofNat 32 (n - m) := by
  apply BitVec.eq_of_toNat_eq
  simp only [BitVec.toNat_sub, BitVec.toNat_ofNat]
  omega

theorem hndcrc32_append (a b : List Byte) (crc : BitVec 32) :
    hndcrc32 (a ++ b) crc = hndcrc32 b (hndcrc32 a crc) := by
  simp [hndcrc32]

/-- What the loop computes of `n` bytes: their checksum in one go, or an error when the
    file ends before them. -/
theorem crcFileLoop_spec (fuel : Nat) (first : Bool) {n : Nat} (small : n < 2147483648)
    (enough : n < fuel) (pfile : List Byte) (crc crcLen : BitVec 32) :
    crcFileLoop z fuel first (BitVec.ofNat 32 n) pfile crc crcLen =
      some (if n ≤ pfile.length then
        .ok (hndcrc32 (pfile.take n) crc, crcLen + BitVec.ofNat 32 n) else .error (-1)) := by
  induction fuel generalizing n first pfile crc crcLen with
  | zero => omega
  | succ fuel ih =>
    by_cases done : n = 0
    · subst done
      simp [crcFileLoop, hndcrc32]
    · have more : BitVec.ofNat 32 n ≠ 0 := by
        intro zero
        have value : n % 4294967296 = 0 := by simpa using congrArg BitVec.toNat zero
        omega
      obtain ⟨m, positive, within, readLen⟩ := readLen_small z small first
      have some := positive done
      unfold crcFileLoop
      simp only [more, ↓reduceIte, readLen, fread_small z (by omega : m < 2147483648)]
      by_cases long : m ≤ pfile.length
      · have full : (pfile.take m).length = m := by simp [long]
        have split : pfile.take n = pfile.take m ++ (pfile.drop m).take (n - m) := by
          rw [← List.take_add, Nat.add_sub_cancel' within]
        have count : crcLen + BitVec.ofNat 32 m + BitVec.ofNat 32 (n - m) =
            crcLen + BitVec.ofNat 32 n := by
          rw [BitVec.add_assoc, ← BitVec.ofNat_add, Nat.add_sub_cancel' within]
        have rest : n - m ≤ pfile.length - m ↔ n ≤ pfile.length := by omega
        simp only [full, ne_eq, not_true, ↓reduceIte, sub_small within small]
        rw [ih false (by omega) (by omega), List.length_drop, split, hndcrc32_append, count]
        simp only [rest]
      · have cut : BitVec.ofNat 32 (pfile.take m).length ≠ BitVec.ofNat 32 m := by
          intro same
          have value := congrArg BitVec.toNat same
          simp only [BitVec.toNat_ofNat, List.length_take] at value
          omega
        simp only [cut, ne_eq, not_false_eq_true, ↓reduceIte, show ¬ n ≤ pfile.length by omega]

end Loop

/-- The files the check is meant to accept: the image at offset 64 has the right magic, a
    length between that of its header and 32 MiB, is all there, and its checksum over what
    follows the crc32 field is that field. -/
structure TrxAccepted (content : List Byte) : Prop where
  header : 64 + 28 ≤ content.length
  magic : wordAt content 64 = 0x30524448
  least : 28 ≤ (wordAt content 68).toNat
  most : (wordAt content 68).toNat ≤ 32 * 1024 * 1024
  whole : 64 + (wordAt content 68).toNat ≤ content.length
  checksum : hndcrc32 ((content.drop (64 + 12)).take ((wordAt content 68).toNat - 12)) 0xffffffff =
    wordAt content 72

theorem byteAt_drop (bytes : List Byte) (n i : Nat) : byteAt (bytes.drop n) i = byteAt bytes (n + i) := by
  simp [byteAt]

theorem trx_word (content : List Byte) {i : Nat} (inside : i + 3 < sizeofTrxHeader) :
    wordAt ((content.drop sizeofImgHeader).take sizeofTrxHeader) i = wordAt content (64 + i) := by
  have front : sizeofImgHeader = 64 := rfl
  simp (disch := omega) only [wordAt, byteAt_take, byteAt_drop, front, Nat.add_assoc]

theorem trx_length (content : List Byte) :
    ((content.drop sizeofImgHeader).take sizeofTrxHeader).length < sizeofTrxHeader ↔
      ¬ 64 + 28 ≤ content.length := by
  simp only [List.length_take, List.length_drop, sizeofImgHeader, sizeofTrxHeader]
  omega

theorem checksum_split (content : List Byte) {len : Nat} (least : 28 ≤ len)
    (crc : BitVec 32) :
    hndcrc32 (((content.drop sizeofImgHeader).drop sizeofTrxHeader).take (len - 28))
        (hndcrc32 (((content.drop sizeofImgHeader).take sizeofTrxHeader).drop offsetofFlagVersion) crc) =
      hndcrc32 ((content.drop (64 + 12)).take (len - 12)) crc := by
  rw [← hndcrc32_append]
  congr 1
  simp only [sizeofImgHeader, sizeofTrxHeader, offsetofFlagVersion, List.drop_take, List.drop_drop]
  have sum : len - 12 = (28 - 12) + (len - 28) := by omega
  rw [sum, List.take_add, List.drop_drop]

theorem len_small (content : List Byte) (most : (wordAt content 68).toNat ≤ 32 * 1024 * 1024)
    (least : 28 ≤ (wordAt content 68).toNat) :
    wordAt content 68 - BitVec.ofNat 32 sizeofTrxHeader =
      BitVec.ofNat 32 ((wordAt content 68).toNat - 28) := by
  have exact : wordAt content 68 = BitVec.ofNat 32 (wordAt content 68).toNat := by simp
  rw [exact, sizeofTrxHeader, sub_small least (by omega)]
  simp

theorem bad_header_iff (len : BitVec 32) :
    (len > MAX_FIRMWARE_SIZE ∨ len < BitVec.ofNat 32 sizeofTrxHeader) ↔
      ¬ (28 ≤ len.toNat ∧ len.toNat ≤ 32 * 1024 * 1024) := by
  have most : MAX_FIRMWARE_SIZE.toNat = 32 * 1024 * 1024 := by decide
  have least : (BitVec.ofNat 32 sizeofTrxHeader).toNat = 28 := by decide
  rw [gt_iff_lt, BitVec.lt_def, BitVec.lt_def, most, least]
  omega

theorem caculateCrcFile_eq (z : WordSize) (content : List Byte) (nCRC : BitVec 32) :
    caculateCrcFile z (some content) nCRC =
      if ¬ 64 + 28 ≤ content.length then some (-1, nCRC)
      else if wordAt content 64 ≠ TRX_MAGIC ∨
          ¬ (28 ≤ (wordAt content 68).toNat ∧ (wordAt content 68).toNat ≤ 32 * 1024 * 1024) then
        some (-1, nCRC)
      else if ¬ 64 + (wordAt content 68).toNat ≤ content.length then some (-1, nCRC)
      else if hndcrc32 ((content.drop (64 + 12)).take ((wordAt content 68).toNat - 12))
          CRC32_INIT_VALUE ≠ wordAt content 72 then some (-1, nCRC)
      else some (0, wordAt content 72) := by
  unfold caculateCrcFile
  have magic : wordAt ((content.drop sizeofImgHeader).take sizeofTrxHeader) 0 = wordAt content 64 :=
    trx_word content (by decide)
  have len : wordAt ((content.drop sizeofImgHeader).take sizeofTrxHeader) offsetofLen =
      wordAt content 68 := trx_word content (by decide)
  have field : wordAt ((content.drop sizeofImgHeader).take sizeofTrxHeader) offsetofCrc32 =
      wordAt content 72 := trx_word content (by decide)
  simp only [trx_length, magic, len, field, bad_header_iff]
  by_cases header : 64 + 28 ≤ content.length
  · by_cases bad : wordAt content 64 ≠ TRX_MAGIC ∨
        ¬ (28 ≤ (wordAt content 68).toNat ∧ (wordAt content 68).toNat ≤ 32 * 1024 * 1024)
    · simp only [header, not_true, ↓reduceIte, bad]
    · have bounds := not_not.mp (not_or.mp bad).2
      have size := len_small content bounds.2 bounds.1
      have behind : ((content.drop sizeofImgHeader).drop sizeofTrxHeader).length =
          content.length - 64 - 28 := by
        simp [sizeofImgHeader, sizeofTrxHeader]
        omega
      have whole : (wordAt content 68).toNat - 28 ≤ content.length - 64 - 28 ↔
          64 + (wordAt content 68).toNat ≤ content.length := by omega
      simp only [header, not_true, ↓reduceIte, bad, size]
      rw [crcFileLoop_spec z _ true (by omega) (by omega), behind]
      by_cases long : 64 + (wordAt content 68).toNat ≤ content.length
      · simp only [whole, long, ↓reduceIte, not_true, Option.bind_eq_bind, Option.bind_some,
          checksum_split content bounds.1]
        simp
      · simp only [whole, long, ↓reduceIte, not_false_eq_true, Option.bind_eq_bind,
          Option.bind_some]
  · simp only [header, not_false_eq_true, ↓reduceIte]

theorem caculateCrcFile_accepts (z : WordSize) {content : List Byte} (nCRC : BitVec 32)
    (accepted : TrxAccepted content) :
    caculateCrcFile z (some content) nCRC = some (0, wordAt content 72) := by
  have right : wordAt content 64 = TRX_MAGIC := accepted.magic
  have checked : hndcrc32 ((content.drop (64 + 12)).take ((wordAt content 68).toNat - 12))
      CRC32_INIT_VALUE = wordAt content 72 := accepted.checksum
  rw [caculateCrcFile_eq]
  simp only [accepted.header, right, accepted.least, accepted.most, accepted.whole, checked,
    and_self, not_true, ne_eq, or_self, ↓reduceIte]

theorem caculateCrcFile_refuses (z : WordSize) {content : List Byte} (nCRC : BitVec 32)
    (other : ¬ TrxAccepted content) :
    caculateCrcFile z (some content) nCRC = some (-1, nCRC) := by
  rw [caculateCrcFile_eq]
  split
  · rfl
  · rename_i header
    split
    · rfl
    · rename_i fields
      obtain ⟨magic, bounds⟩ := not_or.mp fields
      split
      · rfl
      · rename_i whole
        split
        · rfl
        · rename_i checked
          simp only [ne_eq, not_not] at header magic bounds whole checked
          exact absurd ⟨header, magic, bounds.1, bounds.2, whole, checked⟩ other

theorem accepted_of_passed {z : WordSize} {content : List Byte} {nCRC c : BitVec 32}
    (passed : caculateCrcFile z (some content) nCRC = some (0, c)) : TrxAccepted content := by
  by_contra other
  rw [caculateCrcFile_refuses z nCRC other] at passed
  cases passed

/-- The check accepts exactly the well-formed images, reports their checksum, and refuses
    everything else without touching the result. -/
theorem trx_acceptance_exact (z : WordSize) (content : List Byte) (nCRC : BitVec 32) :
    ((∃ c, caculateCrcFile z (some content) nCRC = some (0, c)) ↔ TrxAccepted content) ∧
    (TrxAccepted content → caculateCrcFile z (some content) nCRC = some (0, wordAt content 72)) ∧
    (¬ TrxAccepted content → caculateCrcFile z (some content) nCRC = some (-1, nCRC)) := by
  refine ⟨⟨?_, ?_⟩, caculateCrcFile_accepts z nCRC, caculateCrcFile_refuses z nCRC⟩
  · rintro ⟨c, passed⟩
    exact accepted_of_passed passed
  · intro accepted
    exact ⟨_, caculateCrcFile_accepts z nCRC accepted⟩

def trxImage (content : List Byte) : List Byte :=
  (content.drop 64).take (wordAt content 68).toNat

def mtdOf (nType : Int) : CStr := if nType = 0 then mtd2 else mtd4

theorem checkImgFile_eq (content : List Byte) (before : Int) :
    checkImgFile (some content) before =
      if ¬ 64 ≤ content.length then (-1, before)
      else if wordAt content 0 = IMG_MAGIC then (0, 0)
      else if wordAt content 0 = APP_MAGIC then (0, 1)
      else (-1, before) := by
  have short : (content.take sizeofImgHeader).length ≠ sizeofImgHeader ↔ ¬ 64 ≤ content.length := by
    simp only [List.length_take, sizeofImgHeader]
    omega
  simp only [checkImgFile, wordAt_take, short]

theorem checkImgFile_type {content : List Byte} {before nType : Int}
    (recognised : checkImgFile (some content) before = (0, nType)) : nType = 0 ∨ nType = 1 := by
  rw [checkImgFile_eq] at recognised
  split at recognised
  · cases recognised
  · split at recognised
    · cases recognised
      exact Or.inl rfl
    · split at recognised
      · cases recognised
        exact Or.inr rfl
      · cases recognised

theorem burn_copies (content : List Byte) (mtdName : CStr) :
    burnData content (some mtdName) allSucceed = some (0, content.drop 64) := by
  have copied (infile : List Byte) : burnLoop (infile.length + 1) infile = some infile :=
    burnLoop_copies _ (by omega)
  simp only [burnData, allSucceed, copied]
  rfl

theorem burn_known_type (content : List Byte) {nType : Int} (known : nType = 0 ∨ nType = 1) :
    burnFileToMtd content allSucceed nType = some (0, some (mtdOf nType), content.drop 64) := by
  rcases known with rfl | rfl
  · simp [burnFileToMtd, burn_copies, mtdOf]
  · simp [burnFileToMtd, burn_copies, mtdOf]

/-- Of the files both checks accept, exactly those that end with their image are written
    to the device as checked: the copy runs to the end of the file. -/
theorem burned_is_checked_iff (z : WordSize) (content : List Byte) (before nType : Int)
    (nCRC c : BitVec 32) (recognised : checkImgFile (some content) before = (0, nType))
    (verified : caculateCrcFile z (some content) nCRC = some (0, c)) :
    burnFileToMtd content allSucceed nType = some (0, some (mtdOf nType), trxImage content) ↔
      content.length = 64 + (wordAt content 68).toNat := by
  have accepted := accepted_of_passed verified
  have whole := accepted.whole
  rw [burn_known_type content (checkImgFile_type recognised)]
  simp only [Option.some.injEq, Prod.mk.injEq, true_and, trxImage]
  constructor
  · intro same
    have lengths := congrArg List.length same
    simp only [List.length_take, List.length_drop] at lengths
    omega
  · intro ends
    rw [List.take_of_length_le]
    simp only [List.length_drop]
    omega

def trxBytes : List Byte :=
  [0x48, 0x44, 0x52, 0x30, 32, 0, 0, 0, 0xb9, 0xa5, 0x08, 0x4a] ++
  List.replicate 16 0 ++ [0x44, 0x41, 0x54, 0x41]

def trxFile : List Byte := [0x49, 0x4d, 0x47, 0] ++ List.replicate 60 0 ++ trxBytes

def longFile : List Byte := trxFile ++ [0x58]

theorem trx_file_burned_checked :
    checkImgFile (some trxFile) 0 = (0, 0) ∧
    caculateCrcFile .bits64 (some trxFile) 0 = some (0, wordAt trxFile 72) ∧
    (burnFileToMtd trxFile allSucceed 0 = some (0, some (mtdOf 0), trxImage trxFile) ↔
      trxFile.length = 64 + (wordAt trxFile 68).toNat) := by
  have recognised : checkImgFile (some trxFile) 0 = (0, 0) := by decide +kernel
  have verified : caculateCrcFile .bits64 (some trxFile) 0 = some (0, wordAt trxFile 72) := by
    decide +kernel
  exact ⟨recognised, verified, burned_is_checked_iff _ _ _ _ _ _ recognised verified⟩

theorem appended_byte_is_burned :
    checkImgFile (some longFile) 0 = (0, 0) ∧
    caculateCrcFile .bits64 (some longFile) 0 = some (0, wordAt longFile 72) ∧
    burnFileToMtd longFile allSucceed 0 = some (0, some mtd2, trxImage longFile ++ [0x58]) ∧
    trxImage longFile ++ [0x58] ≠ trxImage longFile := by
  constructor
  · decide +kernel
  constructor
  · decide +kernel
  constructor
  · decide +kernel
  · decide +kernel

/-- Two byte strings of one length that differ, but only inside the window of at most four
    bytes from position `i`. -/
structure Burst (i n : Nat) (a b : List Byte) : Prop where
  lengths : a.length = b.length
  differ : a ≠ b
  short : n ≤ 4
  outside : ∀ j, ¬ (i ≤ j ∧ j < i + n) → a[j]? = b[j]?

theorem window_split (a : List Byte) (i n : Nat) :
    a = a.take i ++ (a.drop i).take n ++ a.drop (i + n) := by
  rw [List.append_assoc, ← List.drop_drop, List.take_append_drop, List.take_append_drop]

theorem burst_changes_crc {i n : Nat} {a b : List Byte} (burst : Burst i n a b) (crc : BitVec 32) :
    hndcrc32 a crc ≠ hndcrc32 b crc := by
  intro same
  have front : a.take i = b.take i := by
    apply List.ext_getElem?
    intro j
    rw [List.getElem?_take, List.getElem?_take]
    split
    · exact burst.outside j (by omega)
    · rfl
  have back : a.drop (i + n) = b.drop (i + n) := by
    apply List.ext_getElem?
    intro j
    rw [List.getElem?_drop, List.getElem?_drop]
    exact burst.outside (i + n + j) (by omega)
  have lengths : ((a.drop i).take n).length = ((b.drop i).take n).length := by
    simp only [List.length_take, List.length_drop, burst.lengths]
  have fits : 8 * ((a.drop i).take n).length ≤ 32 := by
    have short := burst.short
    rw [List.length_take]
    omega
  have window : (a.drop i).take n = (b.drop i).take n := by
    have top : Poly.msb = true := by decide
    apply register_separates top crc (a.take i) (a.drop (i + n)) lengths fits
    rw [← window_split a i n, front, back, ← window_split b i n]
    rw [← hndcrc32_register, ← hndcrc32_register]
    exact same
  apply burst.differ
  rw [window_split a i n, window_split b i n, front, window, back]

def covered (content : List Byte) (len : Nat) : List Byte := (content.drop 76).take (len - 12)

theorem covered_bit (content : List Byte) (len : Nat) {j : Nat} (low : 76 ≤ j) (high : j < 64 + len) :
    (covered content len)[j - 76]? = content[j]? := by
  rw [covered, List.getElem?_take, if_pos (by omega), List.getElem?_drop]
  congr 1
  omega

theorem burst_covered {i n len : Nat} {f g : List Byte} (burst : Burst i n f g) (low : 76 ≤ i)
    (high : i + n ≤ 64 + len) : Burst (i - 76) n (covered f len) (covered g len) where
  lengths := by
    simp only [covered, List.length_take, List.length_drop, burst.lengths]
  differ := by
    intro same
    apply burst.differ
    apply List.ext_getElem?
    intro j
    by_cases inside : i ≤ j ∧ j < i + n
    · rw [← covered_bit f len (by omega) (by omega), same, covered_bit g len (by omega) (by omega)]
    · exact burst.outside j inside
  short := burst.short
  outside := by
    intro j apart
    simp only [covered, List.getElem?_take, List.getElem?_drop]
    split
    · exact burst.outside (76 + j) (by omega)
    · rfl

theorem burst_header {i n k : Nat} {f g : List Byte} (burst : Burst i n f g) (low : k + 4 ≤ i) :
    wordAt f k = wordAt g k := by
  have byte (j : Nat) (before : j < i) : byteAt f j = byteAt g j := by
    simp only [byteAt, List.getD_eq_getElem?_getD, burst.outside j (by omega)]
  simp (disch := omega) only [wordAt, byte]

/-- hndcrc32 tells apart any two strings that differ in a burst, and so of two files that
    differ in a burst of the covered bytes at most one is accepted. -/
theorem bursts_are_caught :
    (∀ (a b : List Byte) (crc : BitVec 32) (i n : Nat), Burst i n a b →
      hndcrc32 a crc ≠ hndcrc32 b crc) ∧
    ∀ (z : WordSize) (f g : List Byte) (i n : Nat) (nCRC : BitVec 32), Burst i n f g →
      64 + 12 ≤ i → i + n ≤ 64 + (wordAt f 68).toNat →
      ¬ ((∃ c, caculateCrcFile z (some f) nCRC = some (0, c)) ∧
        ∃ c, caculateCrcFile z (some g) nCRC = some (0, c)) := by
  constructor
  · intro a b crc i n burst
    exact burst_changes_crc burst crc
  · rintro z f g i n nCRC burst low high ⟨⟨c, first⟩, ⟨d, second⟩⟩
    have ours := (accepted_of_passed first).checksum
    have theirs := (accepted_of_passed second).checksum
    rw [← burst_header burst (by omega), ← burst_header (k := 72) burst (by omega), ← ours] at theirs
    exact burst_changes_crc (burst_covered burst low high) 0xffffffff theirs.symm

def alteredFile : List Byte := trxFile.take 95 ++ [0x42]

theorem altered_file_is_refused :
    Burst 95 1 trxFile alteredFile ∧
    ¬ ((∃ c, caculateCrcFile .bits64 (some trxFile) 0 = some (0, c)) ∧
      ∃ c, caculateCrcFile .bits64 (some alteredFile) 0 = some (0, c)) := by
  have burst : Burst 95 1 trxFile alteredFile := by
    constructor
    · decide +kernel
    · decide +kernel
    · decide
    · intro j apart
      have size : trxFile.length = 96 := by decide +kernel
      have altered : alteredFile.length = 96 := by decide +kernel
      by_cases inside : j < 95
      · rw [alteredFile, List.getElem?_append_left, List.getElem?_take_of_lt inside]
        rw [List.length_take]
        omega
      · rw [List.getElem?_eq_none (by omega), List.getElem?_eq_none (by omega)]
  exact ⟨burst, bursts_are_caught.2 _ _ _ _ _ _ burst (by decide) (by decide +kernel)⟩

end TestSource.CTest
