import TestSource.QrInput
import TestSource.Splice

/- tests/decoder.c of qrencode-3.4.4, the part that reads the bits of a symbol, and what it
   makes of the bits of an input. No result is a read or a write outside of a table or buffer. -/
namespace TestSource.Qr
open BitString Splice

structure DataChunk where
  mode : QRencodeMode
  data : List Byte
deriving DecidableEq

/-- A chunk, or NULL, and the bits behind. -/
inductive Decoded where
  | chunk (chunk : DataChunk) (rest : BitStream)
  | null (rest : BitStream)
deriving DecidableEq

/-- A length that is cut off counts as zero and is not skipped. -/
def decodeLength (lbits : Nat) (bits : BitStream) : Nat × BitStream :=
  if bits.length < lbits then (0, bits) else (value (bits.take lbits), bits.drop lbits)

def sprintfAt (buf : List Byte) (q : Nat) (text : List Byte) : Option (List Byte) :=
  if q + (text.length + 1) ≤ buf.length then some (splice buf q (text ++ [0])) else none

def printWords (n k : Nat) (text : Nat → Option (List Byte)) :
    Nat → BitStream → Nat → List Byte → Option (List Byte)
  | 0, _, _, buf => some buf
  | words + 1, bits, q, buf => do
      let printed ← text (value (bits.take n))
      let buf ← sprintfAt buf q printed
      printWords n k text words (bits.drop n) (q + k) buf

def digitsText : Nat → Nat → List Byte
  | 0, _ => []
  | n + 1, val => digitsText n (val / 10) ++ [BitVec.ofNat 8 (0x30 + val % 10)]

/-- %0nd of a value that is at most one digit too long. -/
def printDigits (n val : Nat) : List Byte :=
  if val < 10 ^ n then digitsText n val else digitsText (n + 1) val

def numTail (remain : Nat) (bits : BitStream) (q : Nat) (buf : List Byte) : Option (List Byte) :=
  if remain = 2 then sprintfAt buf q (printDigits 2 (value (bits.take 7)))
  else if remain = 1 then sprintfAt buf q (printDigits 1 (value (bits.take 4)))
  else some buf

def decodeNum (version : Nat) (bits : BitStream) : Option Decoded :=
  let (size, bits) := decodeLength (lengthIndicator .num version) bits
  let words := size / 3
  let remain := size % 3
  let sizeInBit := words * 10 + if remain = 2 then 7 else if remain = 1 then 4 else 0
  if bits.length < sizeInBit then some (.null bits)
  else do
    let buf ← printWords 10 3 (fun val => some (printDigits 3 val)) words bits 0
      (List.replicate (size + 1) 0)
    let buf ← numTail remain (bits.drop (words * 10)) (words * 3) buf
    some (.chunk ⟨.num, buf.take size⟩ (bits.drop sizeInBit))

def decodeAnTable : List Byte := [
  0x30, 0x31, 0x32, 0x33, 0x34, 0x35, 0x36, 0x37, 0x38, 0x39,
  0x41, 0x42, 0x43, 0x44, 0x45, 0x46, 0x47, 0x48, 0x49, 0x4a,
  0x4b, 0x4c, 0x4d, 0x4e, 0x4f, 0x50, 0x51, 0x52, 0x53, 0x54,
  0x55, 0x56, 0x57, 0x58, 0x59, 0x5a, 0x20, 0x24, 0x25, 0x2a,
  0x2b, 0x2d, 0x2e, 0x2f, 0x3a]

def anText (val : Nat) : Option (List Byte) := do
  let ch ← decodeAnTable[val / 45]?
  let cl ← decodeAnTable[val % 45]?
  some [ch, cl]

def anTail (remain : Nat) (bits : BitStream) (q : Nat) (buf : List Byte) : Option (List Byte) :=
  if remain = 1 then do
    let c ← decodeAnTable[value (bits.take 6)]?
    sprintfAt buf q [c]
  else some buf

def decodeAn (version : Nat) (bits : BitStream) : Option Decoded :=
  let (size, bits) := decodeLength (lengthIndicator .an version) bits
  let words := size / 2
  let remain := size % 2
  let sizeInBit := words * 11 + remain * 6
  if bits.length < sizeInBit then some (.null bits)
  else do
    let buf ← printWords 11 2 anText words bits 0 (List.replicate (size + 1) 0)
    let buf ← anTail remain (bits.drop (words * 11)) (words * 2) buf
    some (.chunk ⟨.an, buf.take size⟩ (bits.drop sizeInBit))

def bytesAt : Nat → BitStream → List Byte
  | 0, _ => []
  | size + 1, bits => BitVec.ofNat 8 (value (bits.take 8)) :: bytesAt size (bits.drop 8)

def decode8 (version : Nat) (bits : BitStream) : Option Decoded :=
  let (size, bits) := decodeLength (lengthIndicator .eight version) bits
  if bits.length < size * 8 then some (.null bits)
  else some (.chunk ⟨.eight, bytesAt size bits⟩ (bits.drop (size * 8)))

def kanjiText (val : Nat) : Option (List Byte) :=
  let val := val / 0xc0 * 256 + val % 0xc0
  let val := if 0x1f00 ≤ val then val + 0xc140 else val + 0x8140
  some [BitVec.ofNat 8 (val / 256), BitVec.ofNat 8 val]

def decodeKanji (version : Nat) (bits : BitStream) : Option Decoded :=
  let (size, bits) := decodeLength (lengthIndicator .kanji version) bits
  if bits.length < size * 13 then some (.null bits)
  else do
    let buf ← printWords 13 2 kanjiText size bits 0 (List.replicate (size * 2 + 1) 0)
    some (.chunk ⟨.kanji, buf.take (size * 2)⟩ (bits.drop (size * 13)))

def decodeChunk (version : Nat) (bits : BitStream) : Option Decoded :=
  if bits.length < 4 then some (.null bits)
  else
    let val := value (bits.take 4)
    let bits := bits.drop 4
    if val = 1 then decodeNum version bits
    else if val = 2 then decodeAn version bits
    else if val = 4 then decode8 version bits
    else if val = 8 then decodeKanji version bits
    else some (.null bits)

/-- The chunks up to a NULL, and the bits that are left then. Each round takes four bits. -/
def decodeLoop (version : Nat) : Nat → BitStream → Option (List DataChunk × BitStream)
  | 0, _ => none
  | rounds + 1, bits => do
      match ← decodeChunk version bits with
      | .null rest => some ([], rest)
      | .chunk chunk rest => do
          let (chunks, rest) ← decodeLoop version rounds rest
          some (chunk :: chunks, rest)

def decodeBits (version : Nat) (bits : BitStream) : Option (List DataChunk × BitStream) :=
  decodeLoop version (bits.length + 1) bits

def concatChunks (chunks : List DataChunk) : List Byte := chunks.flatMap DataChunk.data

def checkRemainderWords (rest : BitStream) : Bool :=
  let words := rest.length / 8
  let rbits := rest.length - words * 8
  (rest.take rbits).all (! ·) && bytesAt words (rest.drop rbits) = paddingBytes words

section Print

structure Printed (buf : List Byte) (q : Nat) (text out : List Byte) : Prop where
  room : out.length = buf.length
  written : out.take (q + text.length) = buf.take q ++ text

theorem Printed.append {buf mid out a b : List Byte} {q : Nat} (first : Printed buf q a mid)
    (second : Printed mid (q + a.length) b out) : Printed buf q (a ++ b) out where
  room := second.room.trans first.room
  written := by
    rw [List.length_append, ← Nat.add_assoc, second.written, first.written, List.append_assoc]

theorem Printed.none (buf : List Byte) (q : Nat) : Printed buf q [] buf where
  room := rfl
  written := by rw [List.length_nil, Nat.add_zero, List.append_nil]

theorem sprintfAt_printed (buf text : List Byte) (q : Nat) (fits : q + text.length < buf.length) :
    ∃ out, sprintfAt buf q text = some out ∧ Printed buf q text out := by
  have inside : q + (text ++ [0]).length ≤ buf.length := by
    rw [List.length_append, List.length_singleton]
    omega
  have front : (buf.take q ++ text).length = q + text.length := by
    rw [List.length_append, List.length_take, Nat.min_eq_left (by omega)]
  refine ⟨splice buf q (text ++ [0]), if_pos fits, splice_length inside, ?_⟩
  rw [splice, ← List.append_assoc, List.append_assoc]
  exact List.take_left' front

theorem printWords_step {n k num : Nat} (text : Nat → Option (List Byte)) {printed : List Byte}
    (small : num < 2 ^ n) (known : text num = some printed) (size : printed.length = k) (words : Nat)
    (bits : BitStream) (buf : List Byte) (q : Nat) (fits : q + k < buf.length) :
    ∃ mid, Printed buf q printed mid ∧
      printWords n k text (words + 1) (appendNum n num ++ bits) q buf =
        printWords n k text words bits (q + k) mid := by
  obtain ⟨mid, done, shown⟩ := sprintfAt_printed buf printed q (by omega)
  refine ⟨mid, shown, ?_⟩
  simp only [printWords, appendNum, value_take small, known, drop_bitsOf, Option.bind_eq_bind, Option.bind_some, done]

theorem drop_word (n num k : Nat) (bits : BitStream) :
    (appendNum n num ++ bits).drop (k + n) = bits.drop k := by
  rw [Nat.add_comm, ← List.drop_drop, appendNum, drop_bitsOf]

end Print

section Digits

theorem isdigit_iff (c : Byte) : isdigit c = true ↔ 0x30 ≤ c.toNat ∧ c.toNat ≤ 0x39 := by
  simp [isdigit, BitVec.le_def]

theorem digit_char {c : Byte} (known : isdigit c = true) {val : Nat} (same : val % 10 = digit c) :
    BitVec.ofNat 8 (0x30 + val % 10) = c := by
  rw [isdigit_iff] at known
  apply BitVec.eq_of_toNat_eq
  rw [same, BitVec.toNat_ofNat, digit]
  omega

theorem digit_le {c : Byte} (known : isdigit c = true) : digit c ≤ 9 := by
  rw [isdigit_iff] at known
  rw [digit]
  omega

theorem one_digit {a : Byte} (known : isdigit a = true) : printDigits 1 (digit a) = [a] := by
  have low := digit_le known
  rw [printDigits, if_pos (by omega)]
  simp only [digitsText, List.nil_append]
  rw [digit_char known (by omega)]

theorem two_digits {a b : Byte} (first : isdigit a = true) (second : isdigit b = true) :
    printDigits 2 (digit a * 10 + digit b) = [a, b] := by
  have high := digit_le first
  have low := digit_le second
  rw [printDigits, if_pos (by omega)]
  simp only [digitsText, List.nil_append, List.cons_append]
  rw [digit_char first (by omega), digit_char second (by omega)]

theorem three_digits {a b c : Byte} (first : isdigit a = true) (second : isdigit b = true)
    (third : isdigit c = true) : printDigits 3 (digit a * 100 + digit b * 10 + digit c) = [a, b, c] := by
  have high := digit_le first
  have middle := digit_le second
  have low := digit_le third
  rw [printDigits, if_pos (by omega)]
  simp only [digitsText, List.nil_append, List.cons_append]
  rw [digit_char first (by omega), digit_char second (by omega), digit_char third (by omega)]

theorem length_appendNum (n num : Nat) : (appendNum n num).length = n := length_bitsOf n num

theorem numBits_length (data : List Byte) :
    (numBits data).length = data.length / 3 * 10 +
      if data.length % 3 = 2 then 7 else if data.length % 3 = 1 then 4 else 0 := by
  fun_induction numBits data with
  | case1 a b c data ih =>
    have words : (data.length + 3) / 3 = data.length / 3 + 1 := by omega
    simp only [List.length_append, length_appendNum, ih, List.length_cons, Nat.add_assoc, Nat.reduceAdd,
      words, Nat.add_mod_right]
    omega
  | case2 a b => simp [length_appendNum]
  | case3 a => simp [length_appendNum]
  | case4 => rfl

theorem num_printed (data : List Byte) (digits : checkModeNum data = true) (rest : BitStream)
    (q : Nat) (buf : List Byte) (fits : q + data.length < buf.length) :
    ∃ mid out,
      printWords 10 3 (fun val => some (printDigits 3 val)) (data.length / 3) (numBits data ++ rest) q buf =
        some mid ∧
      numTail (data.length % 3) ((numBits data ++ rest).drop (data.length / 3 * 10))
        (q + data.length / 3 * 3) mid = some out ∧
      Printed buf q data out := by
  fun_induction numBits data generalizing q buf with
  | case1 a b c data ih =>
    simp only [checkModeNum, List.all_cons, Bool.and_eq_true] at digits ih
    obtain ⟨first, second, third, others⟩ := digits
    simp only [List.length_cons] at fits
    have high := digit_le first
    have middle := digit_le second
    have low := digit_le third
    obtain ⟨front, shown, step⟩ := printWords_step (n := 10) (k := 3)
      (fun val => some (printDigits 3 val)) (show digit a * 100 + digit b * 10 + digit c < 2 ^ 10 by omega)
      (congrArg some (three_digits first second third)) rfl (data.length / 3) (numBits data ++ rest) buf q
      (by omega)
    obtain ⟨mid, out, words, tail, behind⟩ := ih others (q + 3) front (by rw [shown.room]; omega)
    have size : (a :: b :: c :: data).length / 3 = data.length / 3 + 1 := by
      simp only [List.length_cons]
      omega
    have left : (a :: b :: c :: data).length % 3 = data.length % 3 := by
      simp only [List.length_cons]
      omega
    refine ⟨mid, out, ?_, ?_, shown.append behind⟩
    · rw [size, List.append_assoc]
      exact step.trans words
    · have place : q + (data.length / 3 + 1) * 3 = q + 3 + data.length / 3 * 3 := by omega
      rw [size, left, List.append_assoc, Nat.add_mul, Nat.one_mul, drop_word, ← tail, ← place]
  | case2 a b =>
    simp only [checkModeNum, List.all_cons, Bool.and_eq_true] at digits
    have high := digit_le digits.1
    have low := digit_le digits.2.1
    obtain ⟨out, done, shown⟩ := sprintfAt_printed buf [a, b] q fits
    refine ⟨buf, out, by simp [printWords], ?_, shown⟩
    have small : digit a * 10 + digit b < 2 ^ 7 := by omega
    simp [numTail, appendNum, value_bitsOf small, two_digits digits.1 digits.2.1, done]
  | case3 a =>
    simp only [checkModeNum, List.all_cons, Bool.and_eq_true] at digits
    have low := digit_le digits.1
    obtain ⟨out, done, shown⟩ := sprintfAt_printed buf [a] q fits
    refine ⟨buf, out, by simp [printWords], ?_, shown⟩
    have small : digit a < 2 ^ 4 := by omega
    simp [numTail, appendNum, value_bitsOf small, one_digit digits.1, done]
  | case4 => exact ⟨buf, buf, rfl, rfl, Printed.none buf q⟩

end Digits

section Letters

theorem an_letter {c : Byte} (known : 0 ≤ lookAnTable c) :
    anDigit c < 45 ∧ decodeAnTable[anDigit c]? = some c := by
  have all : ∀ n < 128, 0 ≤ anTable.getD n (-1) →
      (anTable.getD n (-1)).toNat < 45 ∧
        decodeAnTable[(anTable.getD n (-1)).toNat]? = some (BitVec.ofNat 8 n) := by decide +kernel
  have low : ¬0x80 ≤ c := by
    intro high
    rw [lookAnTable, if_pos high] at known
    exact absurd known (by decide)
  have inside : c.toNat < 128 := by
    rw [BitVec.le_def] at low
    exact Nat.lt_of_not_le low
  have same : lookAnTable c = anTable.getD c.toNat (-1) := if_neg low
  have found := all c.toNat inside (same ▸ known)
  rw [BitVec.ofNat_toNat, BitVec.setWidth_eq] at found
  rw [anDigit, same]
  exact found

theorem two_letters {a b : Byte} (first : 0 ≤ lookAnTable a) (second : 0 ≤ lookAnTable b) :
    anText (anDigit a * 45 + anDigit b) = some [a, b] := by
  obtain ⟨_, high⟩ := an_letter first
  obtain ⟨small, low⟩ := an_letter second
  have word : (anDigit a * 45 + anDigit b) / 45 = anDigit a := by omega
  have left : (anDigit a * 45 + anDigit b) % 45 = anDigit b := by omega
  rw [anText, word, left, high, low]
  rfl

theorem anBits_length (data : List Byte) :
    (anBits data).length = data.length / 2 * 11 + data.length % 2 * 6 := by
  fun_induction anBits data with
  | case1 a b data ih =>
    have words : (data.length + 2) / 2 = data.length / 2 + 1 := by omega
    simp only [List.length_append, length_appendNum, ih, List.length_cons, Nat.add_assoc, Nat.reduceAdd,
      words, Nat.add_mod_right]
    omega
  | case2 a => simp [length_appendNum]
  | case3 => rfl

theorem an_printed (data : List Byte) (letters : checkModeAn data = true) (rest : BitStream)
    (q : Nat) (buf : List Byte) (fits : q + data.length < buf.length) :
    ∃ mid out,
      printWords 11 2 anText (data.length / 2) (anBits data ++ rest) q buf = some mid ∧
      anTail (data.length % 2) ((anBits data ++ rest).drop (data.length / 2 * 11))
        (q + data.length / 2 * 2) mid = some out ∧
      Printed buf q data out := by
  fun_induction anBits data generalizing q buf with
  | case1 a b data ih =>
    simp only [checkModeAn, List.all_cons, Bool.and_eq_true, decide_eq_true_eq] at letters ih
    obtain ⟨first, second, others⟩ := letters
    simp only [List.length_cons] at fits
    have high := (an_letter first).1
    have low := (an_letter second).1
    obtain ⟨front, shown, step⟩ := printWords_step (n := 11) (k := 2) anText
      (show anDigit a * 45 + anDigit b < 2 ^ 11 by omega) (two_letters first second) rfl
      (data.length / 2) (anBits data ++ rest) buf q (by omega)
    obtain ⟨mid, out, words, tail, behind⟩ := ih others (q + 2) front (by rw [shown.room]; omega)
    have size : (a :: b :: data).length / 2 = data.length / 2 + 1 := by
      simp only [List.length_cons]
      omega
    have left : (a :: b :: data).length % 2 = data.length % 2 := by
      simp only [List.length_cons]
      omega
    refine ⟨mid, out, ?_, ?_, shown.append behind⟩
    · rw [size, List.append_assoc]
      exact step.trans words
    · have place : q + (data.length / 2 + 1) * 2 = q + 2 + data.length / 2 * 2 := by omega
      rw [size, left, List.append_assoc, Nat.add_mul, Nat.one_mul, drop_word, ← tail, ← place]
  | case2 a =>
    simp only [checkModeAn, List.all_cons, Bool.and_eq_true, decide_eq_true_eq] at letters
    obtain ⟨small, letter⟩ := an_letter letters.1
    obtain ⟨out, done, shown⟩ := sprintfAt_printed buf [a] q fits
    refine ⟨buf, out, by simp [printWords], ?_, shown⟩
    have word : anDigit a < 2 ^ 6 := by omega
    simp [anTail, appendNum, value_bitsOf word, letter, done]
  | case3 => exact ⟨buf, buf, rfl, rfl, Printed.none buf q⟩

end Letters

section Bytes

theorem appendBytes_length (data : List Byte) : (appendBytes data).length = data.length * 8 := by
  induction data with
  | nil => rfl
  | cons b data ih =>
    rw [appendBytes, List.flatMap_cons, List.length_append, length_bitsOf, ← appendBytes, ih, List.length_cons]
    omega

theorem bytesAt_appendBytes (data : List Byte) (rest : BitStream) :
    bytesAt data.length (appendBytes data ++ rest) = data := by
  induction data with
  | nil => rfl
  | cons b data ih =>
    have split : appendBytes (b :: data) ++ rest = bitsOf 8 b.toNat ++ (appendBytes data ++ rest) := by
      rw [appendBytes, List.flatMap_cons, List.append_assoc]
      rfl
    rw [List.length_cons, bytesAt, split, drop_bitsOf, ih, value_take b.isLt, BitVec.ofNat_toNat,
      BitVec.setWidth_eq]

end Bytes

section Kanji

def trail (lo : Byte) : Byte := if lo.toNat < 0x40 then lo + 0x40 else lo

def rereadKanji : List Byte → List Byte
  | hi :: lo :: data => hi :: trail lo :: rereadKanji data
  | data => data

theorem trail_cell (lo : Byte) : ∃ cell, (trail lo).toNat = cell + 0x40 ∧ cell < 0xc0 ∧
    (lo.toNat = cell ∧ cell < 0x40 ∨ lo.toNat = cell + 0x40) := by
  have byte := lo.isLt
  unfold trail
  split
  · rename_i low
    refine ⟨lo.toNat, ?_, by omega, .inl ⟨rfl, low⟩⟩
    rw [BitVec.toNat_add]
    exact Nat.mod_eq_of_lt (show lo.toNat + 64 < 256 by omega)
  · exact ⟨lo.toNat - 0x40, by omega, by omega, .inr (by omega)⟩

/-- The rows have 0xc0 numbers: a second byte below 0x40 is one of the row before. -/
theorem kanji_row {base row hi lo cell : Nat} (start : base = row * 256 + 0x40)
    (inside : base ≤ hi * 256 + lo) (small : cell < 0xc0)
    (place : lo = cell ∧ cell < 0x40 ∨ lo = cell + 0x40) :
    (hi * 256 + lo - base) % 256 + (hi * 256 + lo - base) / 256 * 0xc0 = (hi - row) * 0xc0 + cell := by
  omega

theorem kanji_word {hi lo : Byte} (known : isKanji (pairOf hi lo) = true) :
    kanjiNum hi lo < 2 ^ 13 ∧ kanjiText (kanjiNum hi lo) = some [hi, trail lo] := by
  have byte := hi.isLt
  simp only [isKanji, Bool.or_eq_true, Bool.and_eq_true, decide_eq_true_eq] at known
  obtain ⟨cell, trailed, inside, place⟩ := trail_cell lo
  have pair : pairOf hi lo = hi.toNat * 256 + lo.toNat := rfl
  obtain ⟨row, number, small, read⟩ : ∃ row, kanjiNum hi lo = (hi.toNat - row) * 0xc0 + cell ∧
      (hi.toNat - row) * 0xc0 + cell < 2 ^ 13 ∧
      (if 0x1f00 ≤ (hi.toNat - row) * 256 + cell then (hi.toNat - row) * 256 + cell + 0xc140
        else (hi.toNat - row) * 256 + cell + 0x8140) = hi.toNat * 256 + (cell + 0x40) := by
    by_cases first : pairOf hi lo ≤ 0x9ffc
    · refine ⟨0x81, ?_, by omega, ?_⟩
      · rw [kanjiNum, if_pos first]
        exact kanji_row rfl (by omega) inside place
      · rw [if_neg (by omega)]
        omega
    · refine ⟨0xc1, ?_, by omega, ?_⟩
      · rw [kanjiNum, if_neg first]
        exact kanji_row rfl (by omega) inside place
      · rw [if_pos (by omega)]
        omega
  have quotient : ((hi.toNat - row) * 0xc0 + cell) / 0xc0 = hi.toNat - row := by omega
  have remainder : ((hi.toNat - row) * 0xc0 + cell) % 0xc0 = cell := by omega
  have first : BitVec.ofNat 8 ((hi.toNat * 256 + (cell + 0x40)) / 256) = hi := by
    apply BitVec.eq_of_toNat_eq
    rw [BitVec.toNat_ofNat]
    omega
  have second : BitVec.ofNat 8 (hi.toNat * 256 + (cell + 0x40)) = trail lo := by
    apply BitVec.eq_of_toNat_eq
    rw [BitVec.toNat_ofNat, trailed]
    omega
  rw [number]
  refine ⟨small, ?_⟩
  simp only [kanjiText, quotient, remainder, read, first, second]

theorem kanjiBits_length (data : List Byte) : (kanjiBits data).length = data.length / 2 * 13 := by
  fun_induction kanjiBits data with
  | case1 hi lo data ih =>
    rw [List.length_append, length_appendNum, ih]
    simp only [List.length_cons]
    omega
  | case2 data short =>
    cases data with
    | nil => rfl
    | cons hi data =>
      cases data with
      | nil => simp
      | cons lo data => exact absurd rfl (short hi lo data)

theorem kanji_printed (data : List Byte) (known : checkModeKanji data = true) (rest : BitStream)
    (q : Nat) (buf : List Byte) (fits : q + data.length < buf.length) :
    ∃ out, printWords 13 2 kanjiText (data.length / 2) (kanjiBits data ++ rest) q buf = some out ∧
      Printed buf q (rereadKanji data) out := by
  fun_induction checkModeKanji data generalizing q buf with
  | case1 => exact ⟨buf, rfl, Printed.none buf q⟩
  | case2 a => cases known
  | case3 hi lo data ih =>
    simp only [Bool.and_eq_true] at known
    simp only [List.length_cons] at fits
    obtain ⟨small, text⟩ := kanji_word known.1
    obtain ⟨front, shown, step⟩ := printWords_step (n := 13) (k := 2) kanjiText small text rfl
      (data.length / 2) (kanjiBits data ++ rest) buf q (by omega)
    obtain ⟨out, words, behind⟩ := ih known.2 (q + 2) front (by rw [shown.room]; omega)
    have size : (hi :: lo :: data).length / 2 = data.length / 2 + 1 := by
      simp only [List.length_cons]
      omega
    refine ⟨out, ?_, shown.append behind⟩
    rw [size, kanjiBits, List.append_assoc]
    exact step.trans words

end Kanji

section Chunks
variable {version : Nat}

theorem enough_bits {n : Nat} (bits rest : BitStream) (size : bits.length = n) : ¬(bits ++ rest).length < n := by
  rw [List.length_append]
  omega

theorem decodeLength_header {lbits size : Nat} (small : size < 2 ^ lbits) (rest : BitStream) :
    decodeLength lbits (appendNum lbits size ++ rest) = (size, rest) := by
  have long := enough_bits (appendNum lbits size) rest (length_appendNum lbits size)
  rw [decodeLength, if_neg long, appendNum, value_take small, drop_bitsOf]

theorem decodeChunk_mode {id : Nat} (small : id < 2 ^ 4) (rest : BitStream) :
    decodeChunk version (appendNum 4 id ++ rest) =
      if id = 1 then decodeNum version rest
      else if id = 2 then decodeAn version rest
      else if id = 4 then decode8 version rest
      else if id = 8 then decodeKanji version rest
      else some (.null rest) := by
  have long := enough_bits (appendNum 4 id) rest (length_appendNum 4 id)
  rw [decodeChunk, if_neg long]
  simp only [appendNum, value_take small, drop_bitsOf]

theorem Printed.whole {buf text out : List Byte} (shown : Printed buf 0 text out) :
    out.take text.length = text := by
  have written := shown.written
  rw [Nat.zero_add, List.take_zero, List.nil_append] at written
  exact written

theorem decode_num {data : List Byte} (digits : checkModeNum data = true)
    (short : data.length < 2 ^ lengthIndicator .num version) (rest : BitStream) :
    decodeChunk version (encodeModeNum version data ++ rest) = some (.chunk ⟨.num, data⟩ rest) := by
  have size := enough_bits (numBits data) rest rfl
  obtain ⟨mid, out, words, tail, shown⟩ := num_printed data digits rest 0
    (List.replicate (data.length + 1) 0) (by rw [List.length_replicate]; omega)
  rw [Nat.zero_add] at tail
  rw [encodeModeNum, modeHeader, List.append_assoc, List.append_assoc, decodeChunk_mode (by decide),
    QRSPEC_MODEID_NUM, if_pos rfl, decodeNum, decodeLength_header short]
  simp only [← numBits_length, if_neg size, words, tail, Option.bind_eq_bind, Option.bind_some, shown.whole,
    List.drop_left]

theorem decode_an {data : List Byte} (letters : checkModeAn data = true)
    (short : data.length < 2 ^ lengthIndicator .an version) (rest : BitStream) :
    decodeChunk version (encodeModeAn version data ++ rest) = some (.chunk ⟨.an, data⟩ rest) := by
  have size := enough_bits (anBits data) rest rfl
  obtain ⟨mid, out, words, tail, shown⟩ := an_printed data letters rest 0
    (List.replicate (data.length + 1) 0) (by rw [List.length_replicate]; omega)
  rw [Nat.zero_add] at tail
  rw [encodeModeAn, modeHeader, List.append_assoc, List.append_assoc, decodeChunk_mode (by decide),
    QRSPEC_MODEID_AN, if_neg (by decide), if_pos rfl, decodeAn, decodeLength_header short]
  simp only [← anBits_length, if_neg size, words, tail, Option.bind_eq_bind, Option.bind_some, shown.whole,
    List.drop_left]

theorem decode_eight {data : List Byte} (short : data.length < 2 ^ lengthIndicator .eight version)
    (rest : BitStream) :
    decodeChunk version (encodeMode8 version data ++ rest) = some (.chunk ⟨.eight, data⟩ rest) := by
  have size := enough_bits (appendBytes data) rest rfl
  rw [encodeMode8, modeHeader, List.append_assoc, List.append_assoc, decodeChunk_mode (by decide),
    QRSPEC_MODEID_8, if_neg (by decide), if_neg (by decide), if_pos rfl, decode8, decodeLength_header short]
  simp only [← appendBytes_length, if_neg size, bytesAt_appendBytes, List.drop_left]

theorem rereadKanji_length (data : List Byte) : (rereadKanji data).length = data.length := by
  fun_induction rereadKanji data with
  | case1 hi lo data ih => simp only [List.length_cons, ih]
  | case2 data short => rfl

theorem checkModeKanji_even {data : List Byte} (known : checkModeKanji data = true) :
    data.length / 2 * 2 = data.length := by
  fun_induction checkModeKanji data with
  | case1 => rfl
  | case2 a => cases known
  | case3 hi lo data ih =>
    rw [Bool.and_eq_true] at known
    have even := ih known.2
    simp only [List.length_cons]
    omega

theorem decode_kanji {data : List Byte} (known : checkModeKanji data = true)
    (short : data.length / 2 < 2 ^ lengthIndicator .kanji version) (rest : BitStream) :
    decodeChunk version (encodeModeKanji version data ++ rest) =
      some (.chunk ⟨.kanji, rereadKanji data⟩ rest) := by
  have even := checkModeKanji_even known
  have size := enough_bits (kanjiBits data) rest rfl
  obtain ⟨out, words, shown⟩ := kanji_printed data known rest 0
    (List.replicate (data.length + 1) 0) (by rw [List.length_replicate]; omega)
  have whole := shown.whole
  rw [rereadKanji_length] at whole
  rw [encodeModeKanji, modeHeader, List.append_assoc, List.append_assoc, decodeChunk_mode (by decide),
    QRSPEC_MODEID_KANJI, if_neg (by decide), if_neg (by decide), if_neg (by decide), if_pos rfl, decodeKanji,
    decodeLength_header short]
  simp only [← kanjiBits_length, if_neg size, words, Option.bind_eq_bind, Option.bind_some, even, whole,
    List.drop_left]

end Chunks

section Stream
variable {version : Nat}

structure Reads (version : Nat) (bits : BitStream) (chunks : List DataChunk) : Prop where
  few : chunks.length ≤ bits.length
  loop : ∀ rounds rest, decodeLoop version (rounds + chunks.length) (bits ++ rest) =
    (decodeLoop version rounds rest).map fun read => (chunks ++ read.1, read.2)

theorem Reads.nil : Reads version [] [] where
  few := Nat.le_refl 0
  loop rounds rest := by
    rw [List.length_nil, Nat.add_zero, List.nil_append]
    cases decodeLoop version rounds rest with
    | none => rfl
    | some read => rfl

theorem Reads.append {a b : BitStream} {first second : List DataChunk} (left : Reads version a first)
    (right : Reads version b second) : Reads version (a ++ b) (first ++ second) where
  few := by
    have one := left.few
    have two := right.few
    rw [List.length_append, List.length_append]
    omega
  loop rounds rest := by
    rw [List.length_append, Nat.add_comm first.length, ← Nat.add_assoc, List.append_assoc, left.loop, right.loop,
      Option.map_map]
    congr 1
    funext read
    simp only [Function.comp_apply, List.append_assoc]

theorem Reads.single {bits : BitStream} {chunk : DataChunk} (some_bits : 0 < bits.length)
    (read : ∀ rest, decodeChunk version (bits ++ rest) = some (.chunk chunk rest)) :
    Reads version bits [chunk] where
  few := some_bits
  loop rounds rest := by
    simp only [List.length_singleton, decodeLoop, read, Option.bind_eq_bind, Option.bind_some]
    cases decodeLoop version rounds rest with
    | none => rfl
    | some left => rfl

structure Plain (entry : Entry) : Prop where
  mode : isSplittableMode entry.mode = true
  checked : check entry.mode entry.data = true

def Entry.reread (entry : Entry) : List Byte :=
  if entry.mode = .kanji then rereadKanji entry.data else entry.data

theorem modeHeader_positive (id : Nat) (mode : QRencodeMode) (count : Nat) (rest : BitStream) :
    0 < (modeHeader id mode version count ++ rest).length := by
  simp only [modeHeader, List.length_append, length_appendNum]
  omega

theorem two_pow_pred (n : Nat) {size : Nat} (short : size ≤ 2 ^ n - 1) : size < 2 ^ n := by
  have positive := Nat.two_pow_pos n
  omega

theorem encodeMode_reads {entry : Entry} (plain : Plain entry)
    (short : entry.size ≤ maximumWords entry.mode version) :
    ∃ bits, encodeMode version entry = .ok bits ∧ Reads version bits [⟨entry.mode, entry.reread⟩] := by
  obtain ⟨mode, data⟩ := entry
  obtain ⟨known, checked⟩ := plain
  simp only [check, Bool.and_eq_true] at checked
  simp only [maximumWords, if_pos known, Entry.size] at short
  cases mode with
  | num =>
    exact ⟨_, rfl, .single (modeHeader_positive _ _ _ _) fun rest =>
      decode_num checked.2 (two_pow_pred _ short) rest⟩
  | an =>
    exact ⟨_, rfl, .single (modeHeader_positive _ _ _ _) fun rest =>
      decode_an checked.2 (two_pow_pred _ short) rest⟩
  | eight =>
    exact ⟨_, rfl, .single (modeHeader_positive _ _ _ _) fun rest => decode_eight (two_pow_pred _ short) rest⟩
  | kanji =>
    rw [if_pos rfl] at short
    exact ⟨_, rfl, .single (modeHeader_positive _ _ _ _) fun rest =>
      decode_kanji checked.2 (two_pow_pred _ (by omega)) rest⟩
  | _ => cases known

theorem checkModeKanji_append {a b : List Byte} (even : a.length % 2 = 0)
    (known : checkModeKanji (a ++ b) = true) : checkModeKanji a = true ∧ checkModeKanji b = true ∧
      rereadKanji (a ++ b) = rereadKanji a ++ rereadKanji b := by
  fun_induction checkModeKanji a with
  | case1 => exact ⟨rfl, known, rfl⟩
  | case2 hi =>
    rw [List.length_singleton] at even
    omega
  | case3 hi lo data ih =>
    simp only [List.length_cons] at even
    rw [List.cons_append, List.cons_append, checkModeKanji, Bool.and_eq_true] at known
    obtain ⟨front, behind, read⟩ := ih (by omega) known.2
    refine ⟨by rw [known.1, front]; rfl, behind, ?_⟩
    rw [List.cons_append, List.cons_append, rereadKanji, rereadKanji, read]
    rfl

theorem Plain.split {entry : Entry} (plain : Plain entry)
    (long : maximumWords entry.mode version ≠ 0 ∧ maximumWords entry.mode version < entry.size) :
    Plain { entry with data := entry.data.take (maximumWords entry.mode version) } ∧
      Plain { entry with data := entry.data.drop (maximumWords entry.mode version) } ∧
      entry.reread =
        Entry.reread { entry with data := entry.data.take (maximumWords entry.mode version) } ++
          Entry.reread { entry with data := entry.data.drop (maximumWords entry.mode version) } := by
  obtain ⟨mode, data⟩ := entry
  obtain ⟨known, checked⟩ := plain
  simp only [Entry.size] at long
  generalize bound : maximumWords mode version = words at long
  have front : (data.take words).isEmpty = false := by
    rw [List.isEmpty_eq_false_iff, ← List.length_pos_iff, List.length_take]
    omega
  have behind : (data.drop words).isEmpty = false := by
    rw [List.isEmpty_eq_false_iff, ← List.length_pos_iff, List.length_drop]
    omega
  have whole := List.take_append_drop words data
  simp only [check, Bool.and_eq_true] at checked
  have parts (p : Byte → Bool) (all : data.all p = true) :
      (data.take words).all p = true ∧ (data.drop words).all p = true := by
    rw [← whole, List.all_append, Bool.and_eq_true] at all
    exact all
  cases mode with
  | num =>
    have both := parts _ checked.2
    exact ⟨⟨known, by simp [check, front, checkModeNum, both.1]⟩,
      ⟨known, by simp [check, behind, checkModeNum, both.2]⟩, whole.symm⟩
  | an =>
    have both := parts _ checked.2
    exact ⟨⟨known, by simp only [check, front, checkModeAn, both.1]; rfl⟩,
      ⟨known, by simp only [check, behind, checkModeAn, both.2]; rfl⟩, whole.symm⟩
  | eight =>
    exact ⟨⟨known, by simp [check, front]⟩, ⟨known, by simp [check, behind]⟩, whole.symm⟩
  | kanji =>
    have even : (data.take words).length % 2 = 0 := by
      have double : (2 ^ lengthIndicator .kanji version - 1) * 2 = words := bound
      rw [List.length_take]
      omega
    have pairs := checked.2
    rw [← whole] at pairs
    obtain ⟨left, right, read⟩ := checkModeKanji_append even pairs
    rw [whole] at read
    exact ⟨⟨known, by simp [check, front, left]⟩, ⟨known, by simp [check, behind, right]⟩, read⟩
  | _ => cases known

theorem lengthIndicator_bounds (version : Nat) {mode : QRencodeMode} (known : isSplittableMode mode = true) :
    8 ≤ lengthIndicator mode version ∧ lengthIndicator mode version ≤ 16 := by
  unfold lengthIndicator lengthClass
  cases mode with
  | num | an | eight | kanji =>
    split
    · decide
    · split <;> decide
  | _ => cases known

theorem maximumWords_large (version : Nat) {mode : QRencodeMode} (known : isSplittableMode mode = true) :
    255 ≤ maximumWords mode version := by
  have wide := Nat.pow_le_pow_right (show 0 < 2 by decide) (lengthIndicator_bounds version known).1
  simp only [maximumWords, if_pos known]
  split <;> omega

theorem encodeBitStream_short (version : Nat) {entry : Entry} (short : entry.size ≤ maximumWords entry.mode version) :
    encodeBitStream version entry = encodeMode version entry := by
  have whole : ¬(maximumWords entry.mode version ≠ 0 ∧ maximumWords entry.mode version < entry.size) := by omega
  rw [encodeBitStream]
  simp only [dif_neg whole]

theorem encodeBitStream_few (version : Nat) {entry : Entry} (known : isSplittableMode entry.mode = true)
    (few : entry.size ≤ 255) : encodeBitStream version entry = encodeMode version entry :=
  encodeBitStream_short version (Nat.le_trans few (maximumWords_large version known))

theorem Plain.positive {entry : Entry} (plain : Plain entry) : 0 < entry.size := by
  have checked := plain.checked
  unfold check at checked
  rw [Bool.and_eq_true, Bool.not_eq_true', List.isEmpty_eq_false_iff] at checked
  exact List.length_pos_iff.mpr checked.1

/-- A byte takes no more than eight bits, and the header no more than twenty. -/
theorem encodeMode_length {entry : Entry} {bits : BitStream} (plain : Plain entry)
    (done : encodeMode version entry = .ok bits) : bits.length ≤ 28 * entry.size := by
  have some := plain.positive
  have header := (lengthIndicator_bounds version plain.mode).2
  obtain ⟨mode, data⟩ := entry
  have known := plain.mode
  simp only [Entry.size] at some header ⊢
  cases mode with
  | num =>
    cases done
    have last : (if data.length % 3 = 2 then 7 else if data.length % 3 = 1 then 4 else 0) ≤ 7 := by
      repeat' split
      all_goals omega
    simp only [encodeModeNum, modeHeader, List.length_append, length_appendNum, numBits_length]
    omega
  | an =>
    cases done
    simp only [encodeModeAn, modeHeader, List.length_append, length_appendNum, anBits_length]
    omega
  | eight =>
    cases done
    simp only [encodeMode8, modeHeader, List.length_append, length_appendNum, appendBytes_length]
    omega
  | kanji =>
    cases done
    simp only [encodeModeKanji, modeHeader, List.length_append, length_appendNum, kanjiBits_length]
    omega
  | _ => cases known

theorem encodeBitStream_reads (version : Nat) {entry : Entry} (plain : Plain entry) :
    ∃ bits chunks, encodeBitStream version entry = .ok bits ∧ Reads version bits chunks ∧
      concatChunks chunks = entry.reread ∧ bits.length ≤ 28 * entry.size := by
  induction size : entry.size using Nat.strong_induction_on generalizing entry with
  | h n ih =>
    subst size
    by_cases long : maximumWords entry.mode version ≠ 0 ∧ maximumWords entry.mode version < entry.size
    · obtain ⟨left, right, read⟩ := plain.split long
      have less : (Entry.mk entry.mode (entry.data.take (maximumWords entry.mode version))).size < entry.size := by
        simp only [Entry.size, List.length_take] at long ⊢
        omega
      have fewer : (Entry.mk entry.mode (entry.data.drop (maximumWords entry.mode version))).size < entry.size := by
        simp only [Entry.size, List.length_drop] at long ⊢
        omega
      obtain ⟨a, first, done, reads, same, short⟩ := ih _ less left rfl
      obtain ⟨b, second, done', reads', same', short'⟩ := ih _ fewer right rfl
      refine ⟨a ++ b, first ++ second, ?_, reads.append reads', ?_, ?_⟩
      · rw [encodeBitStream]
        simp only [dif_pos long, left.checked, right.checked, Bool.and_self, if_true, done, done']
        rfl
      · rw [concatChunks, List.flatMap_append, ← concatChunks, ← concatChunks, same, same', read]
      · simp only [Entry.size, List.length_take, List.length_drop, List.length_append] at long short short' ⊢
        omega
    · have positive := maximumWords_large version plain.mode
      have short : entry.size ≤ maximumWords entry.mode version := by omega
      obtain ⟨bits, done, reads⟩ := encodeMode_reads plain short
      exact ⟨bits, _, (encodeBitStream_short version short).trans done, reads, by simp [concatChunks],
        encodeMode_length plain done⟩

theorem entries_read (version : Nat) {input : List Entry} (plain : ∀ entry ∈ input, Plain entry) :
    ∃ streams chunks, input.mapM (encodeBitStream version) = .ok streams ∧ Reads version streams.flatten chunks ∧
      concatChunks chunks = input.flatMap Entry.reread ∧
      streams.flatten.length ≤ 28 * (input.flatMap Entry.data).length := by
  induction input with
  | nil => exact ⟨[], [], rfl, .nil, rfl, Nat.le_refl 0⟩
  | cons entry input ih =>
    obtain ⟨bits, first, done, reads, same, short⟩ := encodeBitStream_reads version (plain entry (by simp))
    obtain ⟨streams, others, rest, behind, same', short'⟩ := ih fun e mem => plain e (by simp [mem])
    refine ⟨bits :: streams, first ++ others, ?_, reads.append behind, ?_, ?_⟩
    · rw [List.mapM_cons, done, rest]
      rfl
    · rw [concatChunks, List.flatMap_append, ← concatChunks, ← concatChunks, same, same', List.flatMap_cons]
    · simp only [Entry.size] at short
      rw [List.flatten_cons, List.length_append, List.flatMap_cons, List.length_append]
      omega

theorem createBitStream_ok {input : List Entry} {streams : List BitStream} :
    createBitStream version input = .ok streams ↔
      input.mapM (encodeBitStream version) = .ok streams ∧ streams.flatten.length + 7 < 2147483648 := by
  unfold createBitStream
  cases input.mapM (encodeBitStream version) with
  | error e => simp [bind, Except.bind]
  | ok made =>
    simp only [bind, Except.bind]
    split
    · rename_i int
      constructor
      · intro done
        cases done
        exact ⟨rfl, int⟩
      · intro both
        cases both.1
        rfl
    · rename_i int
      constructor
      · intro done
        cases done
      · intro both
        cases both.1
        exact absurd both.2 int

theorem convertLoop_ok {level : QRecLevel} {input : List Entry} {rounds v : Nat} {bits : BitStream}
    (made : convertLoop level input rounds version = some (.ok (v, bits))) :
    version ≤ v ∧ ∃ streams, createBitStream v input = .ok streams ∧ bits = streams.flatten := by
  induction rounds generalizing version with
  | zero => cases made
  | succ rounds ih =>
    rw [convertLoop] at made
    cases done : createBitStream version input with
    | error e =>
      rw [done] at made
      cases made
    | ok streams =>
      rw [done] at made
      simp only at made
      split at made
      · cases made
      · split at made
        · rename_i more
          obtain ⟨least, found⟩ := ih made
          exact ⟨Nat.le_trans (Nat.le_of_lt more) least, found⟩
        · cases made
          exact ⟨Nat.le_refl _, streams, done, rfl⟩

end Stream

section Padding
variable {version : Nat}

theorem zeros_checked {k : Nat} (few : k < 8) (n : Nat) :
    checkRemainderWords (List.replicate k false ++ appendBytes (paddingBytes n)) = true := by
  have count : (paddingBytes n).length = n := by
    simp [paddingBytes]
  have size : (List.replicate k false ++ appendBytes (paddingBytes n)).length = k + n * 8 := by
    rw [List.length_append, List.length_replicate, appendBytes_length, count]
  have words : (k + n * 8) / 8 = n := by omega
  have front : (List.replicate k false ++ appendBytes (paddingBytes n)).take k = List.replicate k false :=
    List.take_left' List.length_replicate
  have behind : (List.replicate k false ++ appendBytes (paddingBytes n)).drop k = appendBytes (paddingBytes n) :=
    List.drop_left' List.length_replicate
  have read := bytesAt_appendBytes (paddingBytes n) []
  rw [count, List.append_nil] at read
  simp only [checkRemainderWords, size, words, Nat.add_sub_cancel, front, behind, read, decide_true, Bool.and_true]
  simp

/-- The terminator: four zeros, or the end of the bits before. -/
theorem decodeChunk_zeros {k : Nat} {rest : BitStream} (enough : 4 ≤ k ∨ rest = []) :
    decodeChunk version (List.replicate k false ++ rest) =
      some (.null (List.replicate (if k < 4 then k else k - 4) false ++ rest)) := by
  by_cases few : k < 4
  · have nothing : rest = [] := by
      cases enough with
      | inl more => omega
      | inr nothing => exact nothing
    subst nothing
    have short : (List.replicate k false ++ ([] : BitStream)).length < 4 := by
      simpa using few
    rw [decodeChunk, if_pos short, if_pos few]
  · have split : List.replicate k false ++ rest = appendNum 4 0 ++ (List.replicate (k - 4) false ++ rest) := by
      rw [appendNum, bitsOf_zero, ← List.append_assoc, List.replicate_append_replicate]
      congr 2
      omega
    rw [if_neg few, split, decodeChunk_mode (by decide)]
    rfl

/-- The padding is zeros and then the two padding bytes in turn. -/
theorem appendPaddingBit_spec {level : QRecLevel} {bstream out : BitStream}
    (made : appendPaddingBit version level bstream = .ok out) :
    out.length = getDataLength version level * 8 ∧ ∃ k n, k < 12 ∧ (4 ≤ k ∨ n = 0) ∧
      out = bstream ++ (List.replicate k false ++ appendBytes (paddingBytes n)) := by
  have nothing : appendBytes (paddingBytes 0) = [] := rfl
  simp only [appendPaddingBit] at made
  split at made
  · cases made
  · split at made
    · rename_i full
      cases made
      exact ⟨full.symm, 0, 0, by omega, .inr rfl, by rw [nothing]; simp⟩
    · split at made
      · rename_i few
        cases made
        refine ⟨?_, getDataLength version level * 8 - bstream.length, 0, by omega, .inr rfl, ?_⟩
        · rw [List.length_append, length_appendNum]
          omega
        · rw [nothing, appendNum, bitsOf_zero, List.append_nil]
      · cases made
        refine ⟨?_, (bstream.length + 4 + 7) / 8 * 8 - bstream.length,
          getDataLength version level - (bstream.length + 4 + 7) / 8, by omega, .inl (by omega), ?_⟩
        · simp only [List.length_append, length_appendNum, appendBytes_length, paddingBytes, List.length_map,
            List.length_range]
          omega
        · rw [appendNum, bitsOf_zero]

/-- A bit stream is made of the bits of the entries at the version it has, padded. -/
theorem getBitStream_merged {version v : Nat} {level : QRecLevel} {input : List Entry} {bits : BitStream}
    (made : getBitStream version level input = some (.ok (v, bits))) :
    ∃ bstream, version ≤ v ∧ (∃ streams, createBitStream v input = .ok streams ∧ bstream = streams.flatten) ∧
      appendPaddingBit v level bstream = .ok bits := by
  unfold getBitStream convertData at made
  cases estimated : estimateVersion level input with
  | none =>
    rw [estimated] at made
    cases made
  | some ver =>
    rw [estimated, Option.bind_eq_bind, Option.bind_eq_bind, Option.bind_some] at made
    cases converted : convertLoop level input (QRSPEC_VERSION_MAX + 2) (max version (ver.getD 0)) with
    | none =>
      rw [converted] at made
      cases made
    | some result =>
      rw [converted, Option.bind_some] at made
      cases result with
      | error e => cases made
      | ok result =>
        obtain ⟨w, bstream⟩ := result
        simp only at made
        cases padded : appendPaddingBit w level bstream with
        | error e =>
          rw [padded] at made
          cases made
        | ok out =>
          rw [padded] at made
          cases made
          obtain ⟨least, streams⟩ := convertLoop_ok converted
          exact ⟨bstream, by omega, streams, padded⟩

/-- The bits of an input are read back to the data of its entries, and the rest is the padding
    the decoder checks for. -/
theorem getBitStream_reads {version v : Nat} {level : QRecLevel} {input : List Entry} {bits : BitStream}
    (plain : ∀ entry ∈ input, Plain entry)
    (made : getBitStream version level input = some (.ok (v, bits))) :
    version ≤ v ∧ bits.length = getDataLength v level * 8 ∧ ∃ chunks rest,
      decodeBits v bits = some (chunks, rest) ∧ checkRemainderWords rest = true ∧
      concatChunks chunks = input.flatMap Entry.reread := by
  obtain ⟨bstream, least, ⟨streams, done, rfl⟩, padded⟩ := getBitStream_merged made
  obtain ⟨size, k, n, few, enough, rfl⟩ := appendPaddingBit_spec padded
  obtain ⟨streams', chunks, done', reads, same, _⟩ := entries_read v plain
  rw [(createBitStream_ok.mp done).1] at done'
  cases done'
  have terminator : 4 ≤ k ∨ appendBytes (paddingBytes n) = [] := by
    cases enough with
    | inl more => exact .inl more
    | inr none => exact .inr (by rw [none]; rfl)
  refine ⟨least, size, chunks, _, ?_, zeros_checked (k := if k < 4 then k else k - 4) (by split <;> omega) n, same⟩
  obtain ⟨rounds, more⟩ : ∃ rounds, (streams.flatten ++ (List.replicate k false ++
      appendBytes (paddingBytes n))).length + 1 = rounds + 1 + chunks.length := by
    have few := reads.few
    refine ⟨(streams.flatten ++ (List.replicate k false ++ appendBytes (paddingBytes n))).length - chunks.length, ?_⟩
    rw [List.length_append]
    omega
  rw [decodeBits, more, reads.loop, decodeLoop, decodeChunk_zeros terminator, Option.bind_eq_bind, Option.bind_some,
    Option.map_some, List.append_nil]

def seconds : List Byte → List Byte
  | _ :: lo :: data => lo :: seconds data
  | _ => []

theorem trail_same_iff (lo : Byte) : trail lo = lo ↔ 0x40 ≤ lo.toNat := by
  obtain ⟨cell, trailed, small, place⟩ := trail_cell lo
  constructor
  · intro same
    rw [same] at trailed
    omega
  · intro high
    apply BitVec.eq_of_toNat_eq
    omega

theorem rereadKanji_same_iff (data : List Byte) :
    rereadKanji data = data ↔ ∀ lo ∈ seconds data, 0x40 ≤ lo.toNat := by
  fun_induction rereadKanji data with
  | case1 hi lo data ih => simp only [seconds, List.cons.injEq, true_and, trail_same_iff, ih, List.forall_mem_cons]
  | case2 data short =>
    cases data with
    | nil => simp [seconds]
    | cons hi data =>
      cases data with
      | nil => simp [seconds]
      | cons lo data => exact absurd rfl (short hi lo data)

theorem reread_length (entry : Entry) : entry.reread.length = entry.data.length := by
  unfold Entry.reread
  split
  · exact rereadKanji_length _
  · rfl

theorem flatMap_reread_iff (input : List Entry) :
    input.flatMap Entry.reread = input.flatMap Entry.data ↔ ∀ entry ∈ input, entry.reread = entry.data := by
  induction input with
  | nil => simp
  | cons entry input ih =>
    rw [List.flatMap_cons, List.flatMap_cons, List.forall_mem_cons, ← ih]
    constructor
    · exact fun same => List.append_inj same (reread_length entry)
    · intro same
      rw [same.1, same.2]

end Padding

end TestSource.Qr
