import TestSource.QrSpec

/- qrinput.c of qrencode-3.4.4 but for Micro QR: the entries of an input, their bits, the
   version these need and the padding. Memory never runs out, and no FNC1 header is set. -/
namespace TestSource.Qr
open BitString

structure Entry where
  mode : QRencodeMode
  data : List Byte
deriving DecidableEq

def Entry.size (entry : Entry) : Nat := entry.data.length

/-- What comes of an error: errno, a NULL bit stream that is read, or an int that overflows. -/
inductive Failure where
  | einval
  | erange
  | nullRead
  | overflow
deriving DecidableEq

abbrev BitStream := List Bool

def appendNum (bits num : Nat) : BitStream := bitsOf bits num

def appendBytes (data : List Byte) : BitStream := data.flatMap fun b => bitsOf 8 b.toNat

section Check

def isdigit (c : Byte) : Bool := 0x30 ≤ c && c ≤ 0x39

def lookAnTable (c : Byte) : Int := if 0x80 ≤ c then -1 else anTable.getD c.toNat (-1)

def checkModeNum (data : List Byte) : Bool := data.all isdigit

def checkModeAn (data : List Byte) : Bool := data.all fun c => 0 ≤ lookAnTable c

def pairOf (hi lo : Byte) : Nat := hi.toNat * 256 + lo.toNat

def isKanji (word : Nat) : Bool :=
  0x8140 ≤ word && word ≤ 0x9ffc || 0xe040 ≤ word && word ≤ 0xebbf

def checkModeKanji : List Byte → Bool
  | [] => true
  | [_] => false
  | hi :: lo :: data => isKanji (pairOf hi lo) && checkModeKanji data

/-- Whether an entry is made; the first test of its size leaves no entry empty. -/
def check (mode : QRencodeMode) (data : List Byte) : Bool :=
  !data.isEmpty &&
    match mode with
    | .num => checkModeNum data
    | .an => checkModeAn data
    | .kanji => checkModeKanji data
    | .fnc1second => data.length = 1
    | .nul => false
    | _ => true

end Check

section Encode

def QRSPEC_MODEID_ECI : Nat := 7
def QRSPEC_MODEID_NUM : Nat := 1
def QRSPEC_MODEID_AN : Nat := 2
def QRSPEC_MODEID_8 : Nat := 4
def QRSPEC_MODEID_KANJI : Nat := 8
def QRSPEC_MODEID_FNC1SECOND : Nat := 9
def QRSPEC_MODEID_STRUCTURE : Nat := 3

def modeHeader (id : Nat) (mode : QRencodeMode) (version count : Nat) : BitStream :=
  appendNum 4 id ++ appendNum (lengthIndicator mode version) count

def digit (c : Byte) : Nat := c.toNat - 0x30

def numBits : List Byte → BitStream
  | a :: b :: c :: data => appendNum 10 (digit a * 100 + digit b * 10 + digit c) ++ numBits data
  | [a, b] => appendNum 7 (digit a * 10 + digit b)
  | [a] => appendNum 4 (digit a)
  | [] => []

def encodeModeNum (version : Nat) (data : List Byte) : BitStream :=
  modeHeader QRSPEC_MODEID_NUM .num version data.length ++ numBits data

def anDigit (c : Byte) : Nat := (lookAnTable c).toNat

def anBits : List Byte → BitStream
  | a :: b :: data => appendNum 11 (anDigit a * 45 + anDigit b) ++ anBits data
  | [a] => appendNum 6 (anDigit a)
  | [] => []

def encodeModeAn (version : Nat) (data : List Byte) : BitStream :=
  modeHeader QRSPEC_MODEID_AN .an version data.length ++ anBits data

def encodeMode8 (version : Nat) (data : List Byte) : BitStream :=
  modeHeader QRSPEC_MODEID_8 .eight version data.length ++ appendBytes data

def kanjiNum (hi lo : Byte) : Nat :=
  let val := pairOf hi lo
  let val := if val ≤ 0x9ffc then val - 0x8140 else val - 0xc140
  val % 256 + val / 256 * 0xc0

def kanjiBits : List Byte → BitStream
  | hi :: lo :: data => appendNum 13 (kanjiNum hi lo) ++ kanjiBits data
  | _ => []

def encodeModeKanji (version : Nat) (data : List Byte) : BitStream :=
  modeHeader QRSPEC_MODEID_KANJI .kanji version (data.length / 2) ++ kanjiBits data

def encodeModeStructure (data : List Byte) : BitStream :=
  appendNum 4 QRSPEC_MODEID_STRUCTURE ++ appendNum 4 (data.getD 1 0 - 1).toNat ++
    appendNum 4 (data.getD 0 0 - 1).toNat ++ appendNum 8 (data.getD 2 0).toNat

def encodeModeFNC1Second (data : List Byte) : BitStream :=
  appendNum 4 QRSPEC_MODEID_FNC1SECOND ++ appendBytes (data.take 1)

def decodeECIfromByteArray (data : List Byte) : Nat :=
  (data.getD 0 0).toNat + (data.getD 1 0).toNat * 256 + (data.getD 2 0).toNat * 65536 +
    (data.getD 3 0).toNat * 16777216

def encodeModeECI (data : List Byte) : BitStream :=
  let ecinum := decodeECIfromByteArray data
  appendNum 4 QRSPEC_MODEID_ECI ++
    if ecinum < 128 then appendNum 8 ecinum
    else if ecinum < 16384 then appendNum 16 (0x8000 + ecinum)
    else appendNum 24 (0xc0000 + ecinum)

/-- The switch of QRinput_encodeBitStream. No case makes a bit stream of FNC1 in first place. -/
def encodeMode (version : Nat) (entry : Entry) : Except Failure BitStream :=
  match entry.mode with
  | .num => .ok (encodeModeNum version entry.data)
  | .an => .ok (encodeModeAn version entry.data)
  | .eight => .ok (encodeMode8 version entry.data)
  | .kanji => .ok (encodeModeKanji version entry.data)
  | .struct => .ok (encodeModeStructure entry.data)
  | .eci => .ok (encodeModeECI entry.data)
  | .fnc1second => .ok (encodeModeFNC1Second entry.data)
  | _ => .error .nullRead

/-- An entry that is too long for its length indicator is encoded in two parts. -/
def encodeBitStream (version : Nat) (entry : Entry) : Except Failure BitStream :=
  let words := maximumWords entry.mode version
  if _long : words ≠ 0 ∧ words < entry.size then
    if check entry.mode (entry.data.take words) && check entry.mode (entry.data.drop words) then do
      let st1 ← encodeBitStream version { entry with data := entry.data.take words }
      let st2 ← encodeBitStream version { entry with data := entry.data.drop words }
      pure (st1 ++ st2)
    else .error .einval
  else encodeMode version entry
termination_by entry.size
decreasing_by
  all_goals simp only [Entry.size, List.length_take, List.length_drop] at _long ⊢
  all_goals omega

/-- The total of the bits is an int, and 7 is added to it for the number of bytes. -/
def createBitStream (version : Nat) (input : List Entry) : Except Failure (List BitStream) := do
  let streams ← input.mapM (encodeBitStream version)
  if streams.flatten.length + 7 < 2147483648 then pure streams else .error .overflow

end Encode

section Version

def MODE_INDICATOR_SIZE : Nat := 4

def STRUCTURE_HEADER_SIZE : Nat := 20

def estimateBitsModeNum (size : Nat) : Nat :=
  size / 3 * 10 + if size % 3 = 1 then 4 else if size % 3 = 2 then 7 else 0

def estimateBitsModeAn (size : Nat) : Nat := size / 2 * 11 + if size % 2 = 1 then 6 else 0

def estimateBitsMode8 (size : Nat) : Nat := size * 8

def estimateBitsModeKanji (size : Nat) : Nat := size / 2 * 13

def estimateBitsModeECI (data : List Byte) : Nat :=
  let ecinum := decodeECIfromByteArray data
  MODE_INDICATOR_SIZE + if ecinum < 128 then 8 else if ecinum < 16384 then 16 else 24

/-- The bits with the headers of as many parts as an entry is taken to have. -/
def estimateParts (mode : QRencodeMode) (version size bits : Nat) : Nat :=
  let l := lengthIndicator mode version
  bits + (size + 2 ^ l - 1) / 2 ^ l * (MODE_INDICATOR_SIZE + l)

def estimateBitStreamSizeOfEntry (version : Nat) (entry : Entry) : Nat :=
  let version := if version = 0 then 1 else version
  match entry.mode with
  | .num => estimateParts .num version entry.size (estimateBitsModeNum entry.size)
  | .an => estimateParts .an version entry.size (estimateBitsModeAn entry.size)
  | .eight => estimateParts .eight version entry.size (estimateBitsMode8 entry.size)
  | .kanji => estimateParts .kanji version entry.size (estimateBitsModeKanji entry.size)
  | .struct => STRUCTURE_HEADER_SIZE
  | .eci => estimateParts .eci version entry.size (estimateBitsModeECI entry.data)
  | .fnc1first => MODE_INDICATOR_SIZE
  | .fnc1second => MODE_INDICATOR_SIZE + 8
  | .nul => 0

def estimateBitStreamSize (version : Nat) (input : List Entry) : Nat :=
  input.foldl (fun bits entry => bits + estimateBitStreamSizeOfEntry version entry) 0

/-- The do-while of QRinput_estimateVersion: the outer none is one round too many or an int
    that overflows, the inner one the -1. -/
def estimateLoop (level : QRecLevel) (input : List Entry) : Nat → Nat → Option (Option Nat)
  | 0, _ => none
  | rounds + 1, prev =>
      let bits := estimateBitStreamSize prev input
      if bits + 7 < 2147483648 then
        match getMinimumVersion ((bits + 7) / 8) level with
        | none => some none
        | some version => if prev < version then estimateLoop level input rounds version
            else some (some version)
      else none

def estimateVersion (level : QRecLevel) (input : List Entry) : Option (Option Nat) :=
  estimateLoop level input (QRSPEC_VERSION_MAX + 1) 0

def convertLoop (level : QRecLevel) (input : List Entry) : Nat → Nat →
    Option (Except Failure (Nat × BitStream))
  | 0, _ => none
  | rounds + 1, version =>
      match createBitStream version input with
      | .error e => some (.error e)
      | .ok streams =>
          match getMinimumVersion ((streams.flatten.length + 7) / 8) level with
          | none => some (.error .erange)
          | some ver => if version < ver then convertLoop level input rounds ver
              else some (.ok (version, streams.flatten))

/-- The version that is left in the input, and the merged bit stream. -/
def convertData (version : Nat) (level : QRecLevel) (input : List Entry) :
    Option (Except Failure (Nat × BitStream)) := do
  let ver ← estimateVersion level input
  convertLoop level input (QRSPEC_VERSION_MAX + 2) (max version (ver.getD 0))

end Version

section Padding

def paddingBytes (padlen : Nat) : List Byte :=
  (List.range padlen).map fun i => if i % 2 = 1 then 0x11 else 0xec

def appendPaddingBit (version : Nat) (level : QRecLevel) (bstream : BitStream) :
    Except Failure BitStream :=
  let bits := bstream.length
  let maxwords := getDataLength version level
  let maxbits := maxwords * 8
  if maxbits < bits then .error .erange
  else if maxbits = bits then .ok bstream
  else if maxbits - bits ≤ 4 then .ok (bstream ++ appendNum (maxbits - bits) 0)
  else
    let words := (bits + 4 + 7) / 8
    .ok (bstream ++ (appendNum (words * 8 - bits) 0 ++ appendBytes (paddingBytes (maxwords - words))))

def getBitStream (version : Nat) (level : QRecLevel) (input : List Entry) :
    Option (Except Failure (Nat × BitStream)) := do
  match ← convertData version level input with
  | .error e => pure (.error e)
  | .ok (version, bstream) =>
      match appendPaddingBit version level bstream with
      | .error e => pure (.error e)
      | .ok bstream => pure (.ok (version, bstream))

end Padding
end TestSource.Qr
