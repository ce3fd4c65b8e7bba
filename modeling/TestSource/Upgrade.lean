import TestSource.Crc32

/- test_burn_img.c of upgrade_mtk on a little-endian target: recognising an image file,
   checking the uImage at offset 64, and copying the file to the flash device. No result
   means an access outside the mapped pages. -/
namespace TestSource

def IMG_MAGIC : BitVec 32 := 0x00474D49
def APP_MAGIC : BitVec 32 := 0x00505041
def XL_ROM_MAGIC : BitVec 32 := 0x004c4c41
def IH_MAGIC : BitVec 32 := 0x27051956
def IH_TYPE_MULTI : Byte := 4
def IH_TYPE_SCRIPT : Byte := 6

/-- The sizes of struct img_header and of image_header_t, both without padding. -/
def sizeofImgHeader : Nat := 64
def sizeofImageHeader : Nat := 64

def MAXLEN : Nat := 1024

def byteAt (bytes : List Byte) (i : Nat) : Byte := bytes.getD i 0

def wordAt (bytes : List Byte) (i : Nat) : BitVec 32 :=
  byteAt bytes (i + 3) ++ byteAt bytes (i + 2) ++ byteAt bytes (i + 1) ++ byteAt bytes i

def ntohlAt (bytes : List Byte) (i : Nat) : BitVec 32 :=
  byteAt bytes i ++ byteAt bytes (i + 1) ++ byteAt bytes (i + 2) ++ byteAt bytes (i + 3)

/-- The content of a file that can be opened. The second part of the result is what the
    call leaves in *pnType. -/
def checkImgFile (uploadFile : Option (List Byte)) (nType : Int) : Int × Int :=
  match uploadFile with
  | none => (-1, nType)
  | some content =>
      let img := content.take sizeofImgHeader
      if img.length ≠ sizeofImgHeader then (-1, nType)
      else if wordAt img 0 = IMG_MAGIC then (0, 0)
      else if wordAt img 0 = APP_MAGIC then (0, 1)
      else if wordAt img 0 = XL_ROM_MAGIC then (0, 2)
      else (-1, nType)

/-- The bytes that can be read through a shared mapping of the file: the last page is
    filled up with zeros, and an access behind it is a bus error. -/
def mappedPages (content : List Byte) : List Byte :=
  content ++ List.replicate ((4096 - content.length % 4096) % 4096) 0

def readMapped (content : List Byte) (offset len : Nat) : Option (List Byte) :=
  if offset + len ≤ (mappedPages content).length then
    some (((mappedPages content).drop offset).take len)
  else none

/-- The walk over a table of unsigned longs up to its zero entry. -/
def countImages (z : WordSize) (content : List Byte) : Nat → Nat → Option Nat
  | 0, _ => none
  | fuel + 1, pos => do
      let entry ← readMapped content pos (z.bits / 8)
      if entry.all (· == 0) then some 0
      else (countImages z content fuel (pos + z.bits / 8)).map (· + 1)

/-- print_header: only a multi-file or script image makes it read behind the header. -/
def printHeader (z : WordSize) (content : List Byte) (hdr : List Byte) (pos : Nat) : Option Nat :=
  if byteAt hdr 30 = IH_TYPE_MULTI ∨ byteAt hdr 30 = IH_TYPE_SCRIPT then
    countImages z content (mappedPages content).length (pos + sizeofImageHeader)
  else some 0

/-- What open, fstat and mmap answer. An empty mapping is refused by mmap itself. -/
structure MapCalls where
  opens : Bool
  stats : Bool
  maps : Bool

def clearHcrc (hdr : List Byte) : List Byte := hdr.take 4 ++ [0, 0, 0, 0] ++ hdr.drop 8

/-- The length passed to the data CRC, an unsigned difference cut to 32 bits. -/
def dataLen (content : List Byte) : Nat :=
  (((content.length : Int) - sizeofImgHeader - sizeofImageHeader) % 4294967296).toNat

def caculateCrcFile (z : WordSize) (calls : MapCalls) (content : List Byte) : Option Int :=
  if !calls.opens then some (-1)
  else if !calls.stats then some (-2)
  else if !calls.maps || content.isEmpty then some (-3)
  else do
    let offset := sizeofImgHeader
    let hdr ← readMapped content offset sizeofImageHeader
    if ntohlAt hdr 0 ≠ IH_MAGIC then some (-4)
    else
      -- the stored checksum is an int and is widened as one
      let checksum : BitVec z.bits := (ntohlAt hdr 4).signExtend z.bits
      if crc32 z 0 (clearHcrc hdr) ≠ checksum then some (-5)
      else do
        let data ← readMapped content (offset + sizeofImageHeader) (dataLen content)
        if crc32 z 0 data ≠ (ntohlAt hdr 24).setWidth z.bits then some (-6)
        else do
          let _ ← printHeader z content hdr offset
          some 0

/-- The copy loop, with what fread still has before it; the bytes passed to fwrite. -/
def burnLoop : Nat → List Byte → Option (List Byte)
  | 0, _ => none
  | fuel + 1, infile =>
      let buf := infile.take MAXLEN
      if buf.length = 0 then some []
      else (burnLoop fuel (infile.drop MAXLEN)).map (buf ++ ·)

/-- What fopen answers for the device and for the source, and what fseek answers. -/
structure BurnCalls where
  outOpens : Bool
  inOpens : Bool
  seeks : Bool

def burnData (content : List Byte) (mtdName : Option CStr) (calls : BurnCalls) (nType : Int) :
    Option (Int × List Byte) :=
  if mtdName.isNone then some (-1, [])
  else if !calls.outOpens || !calls.inOpens then some (-2, [])
  else if 2 = nType ∧ !calls.seeks then some (-3, [])
  else
    let infile := if 2 = nType then content.drop sizeofImgHeader else content
    (burnLoop (infile.length + 1) infile).map fun written => (0, written)

def mtdblock4 : CStr := ['/', 'd', 'e', 'v', '/', 'm', 't', 'd', 'b', 'l', 'o', 'c', 'k', '4']

def burnFileToMtd (content : List Byte) (calls : BurnCalls) (nType : Int) :
    Option (Int × List Byte) :=
  burnData content (some mtdblock4) calls nType

theorem byteAt_take (bytes : List Byte) {n i : Nat} (inside : i < n) :
    byteAt (bytes.take n) i = byteAt bytes i := by
  simp [byteAt, inside]

theorem wordAt_take (bytes : List Byte) : wordAt (bytes.take sizeofImgHeader) 0 = wordAt bytes 0 := by
  have size : sizeofImgHeader = 64 := rfl
  simp (disch := omega) only [wordAt, byteAt_take]

theorem checkImgFile_accepts {content : List Byte} {before nType : Int}
    (accepted : checkImgFile (some content) before = (0, nType)) :
    sizeofImgHeader ≤ content.length ∧ (nType = 2 ↔ wordAt content 0 = XL_ROM_MAGIC) := by
  simp only [checkImgFile, wordAt_take] at accepted
  by_cases short : (content.take sizeofImgHeader).length = sizeofImgHeader
  · have long : sizeofImgHeader ≤ content.length := by
      rw [List.length_take] at short
      omega
    refine ⟨long, ?_⟩
    rw [if_neg (not_not.mpr short)] at accepted
    by_cases img : wordAt content 0 = IMG_MAGIC
    · rw [if_pos img] at accepted
      cases accepted
      simp [img, IMG_MAGIC, XL_ROM_MAGIC]
    · by_cases app : wordAt content 0 = APP_MAGIC
      · rw [if_neg img, if_pos app] at accepted
        cases accepted
        simp [app, APP_MAGIC, XL_ROM_MAGIC]
      · by_cases rom : wordAt content 0 = XL_ROM_MAGIC
        · rw [if_neg img, if_neg app, if_pos rom] at accepted
          cases accepted
          simp [rom]
        · rw [if_neg img, if_neg app, if_neg rom] at accepted
          cases accepted
  · rw [if_pos short] at accepted
    cases accepted

theorem burnLoop_copies (fuel : Nat) {infile : List Byte} (enough : infile.length < fuel) :
    burnLoop fuel infile = some infile := by
  induction fuel generalizing infile with
  | zero => omega
  | succ fuel ih =>
    unfold burnLoop
    by_cases empty : infile = []
    · simp [empty]
    · have more : 0 < infile.length := List.length_pos_iff.mpr empty
      have chunk : MAXLEN = 1024 := rfl
      have taken : (infile.take MAXLEN).length ≠ 0 := by
        rw [List.length_take]
        omega
      have less : (infile.drop MAXLEN).length < fuel := by
        rw [List.length_drop]
        omega
      simp only [taken, ↓reduceIte, ih less, Option.map_some, List.take_append_drop]

def allSucceed : BurnCalls := ⟨true, true, true⟩

/-- The copy starts behind the image header for one of the three types only. -/
theorem burn_writes (content : List Byte) (nType : Int) :
    burnFileToMtd content allSucceed nType =
      some (0, if nType = 2 then content.drop sizeofImgHeader else content) := by
  have copied (infile : List Byte) : burnLoop (infile.length + 1) infile = some infile :=
    burnLoop_copies _ (by omega)
  by_cases rom : nType = 2
  · subst rom
    simp only [burnFileToMtd, burnData, allSucceed, copied]
    rfl
  · simp [burnFileToMtd, burnData, allSucceed, rom, Ne.symm rom, copied]

theorem readMapped_inside {content : List Byte} {offset len : Nat}
    (inside : offset + len ≤ content.length) :
    readMapped content offset len = some ((content.drop offset).take len) := by
  have mapped : offset + len ≤ (mappedPages content).length := by
    simp only [mappedPages, List.length_append]
    omega
  have before : offset ≤ content.length := by omega
  have enough : len ≤ (content.drop offset).length := by
    rw [List.length_drop]
    omega
  rw [readMapped, if_pos mapped, mappedPages, List.drop_append_of_le_length before,
    List.take_append_of_le_length enough]

theorem mappedPages_length (content : List Byte) :
    (mappedPages content).length < content.length + 4096 := by
  simp only [mappedPages, List.length_append, List.length_replicate]
  omega

structure Verified (z : WordSize) (len : Nat) (image : List Byte) : Prop where
  magic : ntohlAt image 0 = IH_MAGIC
  header : crc32 z 0 (clearHcrc (image.take sizeofImageHeader)) =
    (ntohlAt image 4).signExtend z.bits
  data : crc32 z 0 ((image.drop sizeofImageHeader).take len) = (ntohlAt image 24).setWidth z.bits

theorem ntohlAt_take (bytes : List Byte) {i : Nat} (inside : i + 3 < 64) :
    ntohlAt (bytes.take sizeofImageHeader) i = ntohlAt bytes i := by
  have size : sizeofImageHeader = 64 := rfl
  simp (disch := omega) only [ntohlAt, byteAt_take]

theorem dataLen_read {content data : List Byte}
    (read : readMapped content (sizeofImgHeader + sizeofImageHeader) (dataLen content) = some data) :
    128 ≤ content.length := by
  have mapped := mappedPages_length content
  have reach : sizeofImgHeader + sizeofImageHeader + dataLen content ≤ (mappedPages content).length := by
    by_contra beyond
    rw [readMapped, if_neg beyond] at read
    cases read
  -- a shorter file gives a length near 2 ^ 32, far behind the last page
  simp only [sizeofImgHeader, sizeofImageHeader, dataLen] at reach
  omega

theorem dataLen_le {content : List Byte} (long : 128 ≤ content.length) :
    128 + dataLen content ≤ content.length := by
  simp only [dataLen, sizeofImgHeader, sizeofImageHeader]
  omega

theorem caculateCrcFile_verified {z : WordSize} {calls : MapCalls} {content : List Byte}
    (passed : caculateCrcFile z calls content = some 0) :
    128 ≤ content.length ∧ Verified z (dataLen content) (content.drop sizeofImgHeader) := by
  simp only [caculateCrcFile, Option.bind_eq_bind] at passed
  split at passed
  · cases passed
  split at passed
  · cases passed
  split at passed
  · cases passed
  obtain ⟨hdr, read, passed⟩ := Option.bind_eq_some_iff.mp passed
  split at passed
  · cases passed
  rename_i magic
  split at passed
  · cases passed
  rename_i header
  obtain ⟨data, body, passed⟩ := Option.bind_eq_some_iff.mp passed
  split at passed
  · cases passed
  rename_i checked
  have long := dataLen_read body
  have within := dataLen_le long
  have sizes : sizeofImgHeader = 64 ∧ sizeofImageHeader = 64 := ⟨rfl, rfl⟩
  rw [readMapped_inside (by omega)] at read body
  cases read
  cases body
  simp only [not_not] at magic header checked
  rw [ntohlAt_take _ (by omega)] at magic header checked
  rw [← List.drop_drop] at checked
  exact ⟨long, magic, header, checked⟩

/-- Both checks accept the image at offset 64, and of the files they accept exactly the
    XL_ROM ones are burned from that offset. -/
theorem burned_is_verified_iff (z : WordSize) (calls : MapCalls) (content : List Byte)
    (before nType : Int) (recognised : checkImgFile (some content) before = (0, nType))
    (verified : caculateCrcFile z calls content = some 0) :
    Verified z (dataLen content) (content.drop sizeofImgHeader) ∧
    (burnFileToMtd content allSucceed nType = some (0, content.drop sizeofImgHeader) ↔
      wordAt content 0 = XL_ROM_MAGIC) := by
  refine ⟨(caculateCrcFile_verified verified).2, ?_⟩
  obtain ⟨long, rom⟩ := checkImgFile_accepts recognised
  rw [burn_writes, ← rom]
  by_cases two : nType = 2
  · simp [two]
  · simp only [two, ↓reduceIte, Option.some.injEq, Prod.mk.injEq, true_and, iff_false]
    intro same
    have lengths := congrArg List.length same
    rw [List.length_drop] at lengths
    have size : sizeofImgHeader = 64 := rfl
    omega

def uImage : List Byte :=
  [0x27, 0x05, 0x19, 0x56, 0x0c, 0xf1, 0x48, 0x72, 0, 0, 0, 0, 0, 0, 0, 4,
   0x80, 0, 0, 0, 0x80, 0, 0, 0, 0x9b, 0x66, 0x1e, 0xd7, 5, 5, 2, 3] ++
  List.replicate 32 0 ++ [0x44, 0x41, 0x54, 0x41]

def romFile : List Byte := [0x41, 0x4c, 0x4c, 0] ++ List.replicate 60 0 ++ uImage

def imgFile : List Byte := [0x49, 0x4d, 0x47, 0] ++ List.replicate 60 0 ++ uImage

theorem rom_file_burned_verified :
    checkImgFile (some romFile) 0 = (0, 2) ∧
    caculateCrcFile .bits64 ⟨true, true, true⟩ romFile = some 0 ∧
    Verified .bits64 (dataLen romFile) (romFile.drop sizeofImgHeader) ∧
    (burnFileToMtd romFile allSucceed 2 = some (0, romFile.drop sizeofImgHeader) ↔
      wordAt romFile 0 = XL_ROM_MAGIC) := by
  have recognised : checkImgFile (some romFile) 0 = (0, 2) := by decide +kernel
  have verified : caculateCrcFile .bits64 ⟨true, true, true⟩ romFile = some 0 := by decide +kernel
  exact ⟨recognised, verified, burned_is_verified_iff _ _ _ _ _ recognised verified⟩

theorem img_file_burned_shifted :
    checkImgFile (some imgFile) 0 = (0, 0) ∧
    caculateCrcFile .bits64 ⟨true, true, true⟩ imgFile = some 0 ∧
    burnFileToMtd imgFile allSucceed 0 = some (0, imgFile) ∧
    imgFile ≠ imgFile.drop sizeofImgHeader := by
  refine ⟨?_, ?_, ?_, ?_⟩
  · decide +kernel
  · decide +kernel
  · decide +kernel
  · decide +kernel

end TestSource
