import TestSource.Message
import TestSource.BigEndian
import TestSource.Splice
import Mathlib.Data.List.Basic

/- xl_decode.c of coding: numbers and length-prefixed strings of a protocol. Plain char is
   signed, a ULONG has 32 bits. A read or a write outside a buffer gives nothing. -/
namespace TestSource.Coding
open BigEndian Splice

/-- The sum is made in an int and stored in a USHORT. -/
def xlDecodeU16 (pcBuf : List Byte) : Option (BitVec 16) := do
  let a ← pcBuf[0]?
  let b ← pcBuf[1]?
  let usData : BitVec 16 := (promote a).setWidth 16
  some (((usData.setWidth 32 <<< 8) + promote b).setWidth 16)

/-- Through a UCHAR pointer. -/
def xlDecodeU32 (pcBuf : List Byte) : Option (BitVec 32) := do
  let a ← pcBuf[0]?
  let b ← pcBuf[1]?
  let c ← pcBuf[2]?
  let d ← pcBuf[3]?
  let ulData : BitVec 32 := a.setWidth 32
  let ulData := (ulData <<< 8) + b.setWidth 32
  let ulData := (ulData <<< 8) + c.setWidth 32
  some ((ulData <<< 8) + d.setWidth 32)

def decodeRound (pcBuf : List Byte) (dulData : BitVec 64) (i : Nat) : Option (BitVec 64) := do
  let b ← pcBuf[i]?
  some ((dulData <<< 8) + (promote b).signExtend 64)

def xlDecodeU64 (pcBuf : List Byte) : Option (BitVec 64) := do
  let a ← pcBuf[0]?
  (List.range' 1 7).foldlM (decodeRound pcBuf) ((promote a).signExtend 64)

/-- The result, pcData and *pulLen. -/
def xlDecodeStrLimit (pcBuf pcData : List Byte) (ulMaxLen pulLen : BitVec 32) :
    Option (BitVec 32 × List Byte × BitVec 32) := do
  let ulLen ← xlDecodeU32 pcBuf
  if ulLen > ulMaxLen then some (-1, pcData, pulLen)
  else if pcBuf.length < 4 + ulLen.toNat ∨ pcData.length < ulLen.toNat + 1 then none
  else some (0, splice pcData 0 ((pcBuf.drop 4).take ulLen.toNat ++ [0]), ulLen + 4)

section Numbers

theorem promote_short (b : Byte) : (promote b).setWidth 16 = b.signExtend 16 := by
  ext i inside
  have below : i < 32 := by omega
  rw [promote, BitVec.getElem_setWidth, BitVec.getLsbD_signExtend, BitVec.getElem_signExtend]
  simp only [below, decide_true, Bool.true_and]
  split
  · simp [*]
  · rfl

theorem promote_wide (b : Byte) : (promote b).signExtend 64 = b.signExtend 64 := by
  apply BitVec.eq_of_toInt_eq
  rw [BitVec.toInt_signExtend_of_le (by decide), promote, BitVec.toInt_signExtend_of_le (by decide),
    BitVec.toInt_signExtend_of_le (by decide)]

theorem u16_accumulates (a b : Byte) (rest : List Byte) :
    xlDecodeU16 (a :: b :: rest) =
      some (accumulate (fun b => b.signExtend 16) (a.signExtend 16) [b]) := by
  have cut : (((a.signExtend 16).setWidth 32 <<< 8) + promote b).setWidth 16 =
      (a.signExtend 16 <<< 8) + b.signExtend 16 := by
    rw [BitVec.setWidth_add _ _ (by decide), BitVec.setWidth_shiftLeft_of_le (by decide),
      promote_short, BitVec.setWidth_setWidth_of_le _ (by decide), BitVec.setWidth_eq]
  simp only [xlDecodeU16, List.getElem?_cons_zero, List.getElem?_cons_succ, Option.bind_eq_bind,
    Option.bind_some, promote_short, cut]
  rfl

theorem u32_accumulates (a b c d : Byte) (rest : List Byte) :
    xlDecodeU32 (a :: b :: c :: d :: rest) =
      some (accumulate (fun b => b.setWidth 32) 0 [a, b, c, d]) := by
  simp [xlDecodeU32, accumulate]

theorem rounds_accumulate (front bytes rest : List Byte) (dulData : BitVec 64) :
    (List.range' front.length bytes.length).foldlM (decodeRound (front ++ bytes ++ rest)) dulData =
      some (accumulate (fun b => b.signExtend 64) dulData bytes) := by
  induction bytes generalizing front dulData with
  | nil => rfl
  | cons b bytes ih =>
    have here : decodeRound (front ++ b :: bytes ++ rest) dulData front.length =
        some ((dulData <<< 8) + b.signExtend 64) := by
      simp [decodeRound, promote_wide]
    have next := ih (front ++ [b]) ((dulData <<< 8) + b.signExtend 64)
    rw [List.length_append, List.length_singleton, List.append_assoc front, List.singleton_append] at next
    rw [List.length_cons, List.range'_succ, List.foldlM_cons, here]
    exact next

theorem u64_accumulates (a : Byte) {bytes : List Byte} (seven : bytes.length = 7) (rest : List Byte) :
    xlDecodeU64 (a :: (bytes ++ rest)) =
      some (accumulate (fun b => b.signExtend 64) (a.signExtend 64) bytes) := by
  have rounds := rounds_accumulate [a] bytes rest (a.signExtend 64)
  rw [seven] at rounds
  simp only [xlDecodeU64, List.getElem?_cons_zero, Option.bind_eq_bind, Option.bind_some, promote_wide]
  exact rounds

theorem common_accumulates (a b c d : Byte) (rest : List Byte) :
    TestSource.xlDecodeU32 (a :: b :: c :: d :: rest) =
      accumulate (fun b => b.signExtend 32) (a.signExtend 32) [b, c, d] := rfl

theorem split_at {bytes : List Byte} {n : Nat} (long : n + 1 ≤ bytes.length) :
    ∃ a front rest, bytes = a :: (front ++ rest) ∧ front.length = n ∧ bytes.take (n + 1) = a :: front := by
  cases bytes with
  | nil => simp at long
  | cons a bytes =>
    rw [List.length_cons] at long
    refine ⟨a, bytes.take n, bytes.drop n, ?_, ?_, rfl⟩
    · rw [List.take_append_drop]
    · rw [List.length_take]
      omega

theorem u32_value {bytes : List Byte} (long : 4 ≤ bytes.length) :
    ∃ v, xlDecodeU32 bytes = some v ∧ v.toNat = value (bytes.take 4) := by
  obtain ⟨a, front, rest, rfl, three, taken⟩ := split_at long
  obtain ⟨b, c, d, rfl⟩ := List.length_eq_three.mp three
  refine ⟨_, u32_accumulates a b c d rest, ?_⟩
  rw [taken]
  exact accumulate_unsigned (Nat.le_refl 32)

def AsciiBehind (n : Nat) (bytes : List Byte) : Prop := ∀ b ∈ (bytes.take n).drop 1, b.toNat < 128

theorem u16_exact_iff {bytes : List Byte} (long : 2 ≤ bytes.length) :
    ∃ v, xlDecodeU16 bytes = some v ∧ (v.toNat = value (bytes.take 2) ↔ AsciiBehind 2 bytes) := by
  obtain ⟨a, front, rest, rfl, one, taken⟩ := split_at long
  obtain ⟨b, rfl⟩ := List.length_eq_one_iff.mp one
  refine ⟨_, u16_accumulates a b rest, ?_⟩
  rw [AsciiBehind, taken]
  exact accumulate_signed_iff rfl

theorem u64_exact_iff {bytes : List Byte} (long : 8 ≤ bytes.length) :
    ∃ v, xlDecodeU64 bytes = some v ∧ (v.toNat = value (bytes.take 8) ↔ AsciiBehind 8 bytes) := by
  obtain ⟨a, front, rest, rfl, seven, taken⟩ := split_at long
  refine ⟨_, u64_accumulates a seven rest, ?_⟩
  rw [AsciiBehind, taken]
  exact accumulate_signed_iff (by rw [seven])

theorem common_exact_iff {bytes : List Byte} (long : 4 ≤ bytes.length) :
    (TestSource.xlDecodeU32 bytes).toNat = value (bytes.take 4) ↔ AsciiBehind 4 bytes := by
  obtain ⟨a, front, rest, rfl, three, taken⟩ := split_at long
  obtain ⟨b, c, d, rfl⟩ := List.length_eq_three.mp three
  rw [AsciiBehind, taken, List.cons_append, List.cons_append, List.cons_append, List.nil_append,
    common_accumulates]
  exact accumulate_signed_iff rfl

/-- Only xl_decode_u32 is right for all bytes: the others read a byte above 127 behind the
    first as negative, as the function of the same name in xl_common.h does. -/
theorem decoders_big_endian_iff (bytes : List Byte) :
    (2 ≤ bytes.length → ∃ v, xlDecodeU16 bytes = some v ∧
      (v.toNat = value (bytes.take 2) ↔ AsciiBehind 2 bytes)) ∧
    (4 ≤ bytes.length → ∃ v, xlDecodeU32 bytes = some v ∧ v.toNat = value (bytes.take 4) ∧
      (TestSource.xlDecodeU32 bytes = v ↔ AsciiBehind 4 bytes)) ∧
    (8 ≤ bytes.length → ∃ v, xlDecodeU64 bytes = some v ∧
      (v.toNat = value (bytes.take 8) ↔ AsciiBehind 8 bytes)) := by
  refine ⟨u16_exact_iff, ?_, u64_exact_iff⟩
  intro long
  obtain ⟨v, run, exact⟩ := u32_value long
  refine ⟨v, run, exact, ?_⟩
  rw [← common_exact_iff long, ← exact, BitVec.toNat_inj]

theorem ascii_bytes_decoded : ∃ v, xlDecodeU16 [0xff, 0x7f] = some v ∧ v.toNat = 65407 := by
  obtain ⟨v, run, exact⟩ := (decoders_big_endian_iff [0xff, 0x7f]).1 (by decide)
  exact ⟨v, run, exact.mpr (by simp [AsciiBehind])⟩

theorem high_bytes_borrow :
    xlDecodeU16 [0, 0x80] = some 0xff80 ∧ value [0, 0x80] = 0x80 ∧
    xlDecodeU64 [0, 0, 0, 0, 0, 0, 0, 0x80] = some 0xffffffffffffff80 ∧
    xlDecodeU32 [0, 0, 0, 0x80] = some 0x80 ∧
    TestSource.xlDecodeU32 [0, 0, 0, 0x80] = 0xffffff80 := by
  refine ⟨by decide, by decide, by decide, by decide, by decide⟩

end Numbers

section Strings
variable {ulMaxLen : BitVec 32}

def encodeStr (s : List Byte) : List Byte := bytesOf 4 s.length ++ s

def encodeAll (strs : List (List Byte)) : List Byte := strs.flatMap encodeStr

/-- What calls from one place of the stream to the next have given: the strings with their
    NULs, whether the last call was refused, what is left of the stream, and the outputs. -/
structure Fields where
  strings : List (List Byte)
  refused : Bool
  rest : List Byte
  pcData : List Byte
  pulLen : BitVec 32

def decodeAll (ulMaxLen : BitVec 32) : Nat → List Byte → List Byte → BitVec 32 → Option Fields
  | 0, _, _, _ => none
  | fuel + 1, stream, pcData, pulLen =>
      if stream = [] then some ⟨[], false, [], pcData, pulLen⟩
      else do
        let (ret, pcData, pulLen) ← xlDecodeStrLimit stream pcData ulMaxLen pulLen
        if ret = 0 then
          let later ← decodeAll ulMaxLen fuel (stream.drop pulLen.toNat) pcData pulLen
          some { later with strings := pcData.take (pulLen.toNat - 3) :: later.strings }
        else some ⟨[], true, stream, pcData, pulLen⟩

theorem u32_length {s : List Byte} (small : s.length < 4294967296) (rest : List Byte) :
    xlDecodeU32 (encodeStr s ++ rest) = some (BitVec.ofNat 32 s.length) := by
  have long : 4 ≤ (encodeStr s ++ rest).length := by
    rw [List.length_append, encodeStr, List.length_append, length_bytesOf]
    omega
  have front : (encodeStr s ++ rest).take 4 = bytesOf 4 s.length := by
    rw [encodeStr, List.append_assoc]
    exact List.take_left' (length_bytesOf 4 _)
  obtain ⟨v, run, exact⟩ := u32_value long
  rw [front, value_bytesOf 4 _ small] at exact
  rw [run]
  congr 1
  apply BitVec.eq_of_toNat_eq
  rw [exact, BitVec.toNat_ofNat, Nat.mod_eq_of_lt small]

theorem strLimit_accepts {s pcData : List Byte} (short : s.length ≤ ulMaxLen.toNat)
    (room : ulMaxLen.toNat < pcData.length) (rest : List Byte) (pulLen : BitVec 32) :
    xlDecodeStrLimit (encodeStr s ++ rest) pcData ulMaxLen pulLen =
      some (0, splice pcData 0 (s ++ [0]), BitVec.ofNat 32 s.length + 4) := by
  have small : s.length < 4294967296 := Nat.lt_of_le_of_lt short ulMaxLen.isLt
  have length : (BitVec.ofNat 32 s.length).toNat = s.length := by
    rw [BitVec.toNat_ofNat, Nat.mod_eq_of_lt small]
  have within : ¬BitVec.ofNat 32 s.length > ulMaxLen := by
    rw [gt_iff_lt, BitVec.lt_def, length]
    omega
  have size : (encodeStr s ++ rest).length = 4 + s.length + rest.length := by
    rw [List.length_append, encodeStr, List.length_append, length_bytesOf]
  have behind : ((encodeStr s ++ rest).drop 4).take s.length = s := by
    rw [encodeStr, List.append_assoc, List.drop_left' (length_bytesOf 4 _), List.take_left]
  have inside : ¬((encodeStr s ++ rest).length < 4 + s.length ∨ pcData.length < s.length + 1) := by
    omega
  simp only [xlDecodeStrLimit, u32_length small, Option.bind_eq_bind, Option.bind_some, if_neg within,
    length, if_neg inside, behind]

theorem strLimit_refuses {s : List Byte} (long : ulMaxLen.toNat < s.length)
    (small : s.length < 4294967296) (rest pcData : List Byte) (pulLen : BitVec 32) :
    xlDecodeStrLimit (encodeStr s ++ rest) pcData ulMaxLen pulLen = some (-1, pcData, pulLen) := by
  have above : BitVec.ofNat 32 s.length > ulMaxLen := by
    rw [gt_iff_lt, BitVec.lt_def, BitVec.toNat_ofNat, Nat.mod_eq_of_lt small]
    exact long
  simp only [xlDecodeStrLimit, u32_length small, Option.bind_eq_bind, Option.bind_some, if_pos above]

def outputs (strs : List (List Byte)) (pcData : List Byte) (pulLen : BitVec 32) :
    List Byte × BitVec 32 :=
  strs.foldl (fun o s => (splice o.1 0 (s ++ [0]), BitVec.ofNat 32 s.length + 4)) (pcData, pulLen)

theorem decodeAll_nil (fuel : Nat) (pcData : List Byte) (pulLen : BitVec 32) :
    decodeAll ulMaxLen (fuel + 1) [] pcData pulLen = some ⟨[], false, [], pcData, pulLen⟩ := by
  rw [decodeAll, if_pos rfl]

theorem encodeStr_ne_nil (s rest : List Byte) : encodeStr s ++ rest ≠ [] := by
  intro empty
  have length := congrArg List.length empty
  rw [List.length_append, encodeStr, List.length_append, length_bytesOf, List.length_nil] at length
  omega

theorem decodeAll_string (limit : ulMaxLen.toNat < 4294967292) {s pcData : List Byte}
    (short : s.length ≤ ulMaxLen.toNat) (room : ulMaxLen.toNat < pcData.length) (fuel : Nat)
    (rest : List Byte) (pulLen : BitVec 32) :
    decodeAll ulMaxLen (fuel + 1) (encodeStr s ++ rest) pcData pulLen =
      (decodeAll ulMaxLen fuel rest (splice pcData 0 (s ++ [0])) (BitVec.ofNat 32 s.length + 4)).map
        fun later => { later with strings := (s ++ [0]) :: later.strings } := by
  have advance : (BitVec.ofNat 32 s.length + 4).toNat = 4 + s.length := by
    have four : (4 : BitVec 32).toNat = 4 := rfl
    rw [BitVec.toNat_add, BitVec.toNat_ofNat, four]
    omega
  have behind : (encodeStr s ++ rest).drop (4 + s.length) = rest := by
    apply List.drop_left'
    rw [encodeStr, List.length_append, length_bytesOf]
  have field : (splice pcData 0 (s ++ [0])).take (4 + s.length - 3) = s ++ [0] := by
    rw [splice_start]
    apply List.take_left'
    rw [List.length_append, List.length_singleton]
    omega
  rw [decodeAll, if_neg (encodeStr_ne_nil s rest), strLimit_accepts short room]
  simp only [Option.bind_eq_bind, Option.bind_some, if_true, advance, behind, field]
  rw [Option.map_eq_bind]
  rfl

theorem decodeAll_strings (limit : ulMaxLen.toNat < 4294967292) {front : List (List Byte)}
    (short : ∀ s ∈ front, s.length ≤ ulMaxLen.toNat) {pcData : List Byte}
    (room : ulMaxLen.toNat < pcData.length) (fuel : Nat) (rest : List Byte) (pulLen : BitVec 32) :
    decodeAll ulMaxLen (front.length + fuel) (encodeAll front ++ rest) pcData pulLen =
      (decodeAll ulMaxLen fuel rest (outputs front pcData pulLen).1 (outputs front pcData pulLen).2).map
        fun later => { later with strings := front.map (· ++ [0]) ++ later.strings } := by
  induction front generalizing pcData pulLen with
  | nil =>
    rw [List.length_nil, Nat.zero_add]
    simp [encodeAll, outputs]
  | cons s front ih =>
    have first := short s List.mem_cons_self
    have size : (splice pcData 0 (s ++ [0])).length = pcData.length := by
      apply splice_length
      rw [List.length_append, List.length_singleton]
      omega
    have next := ih (fun x mem => short x (List.mem_cons_of_mem s mem)) (by rw [size]; exact room)
      (BitVec.ofNat 32 s.length + 4)
    have stream : encodeAll (s :: front) ++ rest = encodeStr s ++ (encodeAll front ++ rest) := by
      simp [encodeAll]
    rw [stream, List.length_cons, Nat.add_right_comm, decodeAll_string limit first room, next,
      Option.map_map]
    rfl

end Strings

/-- The calls give back the strings of the stream up to the first that is too long. There
    the call is refused, with the outputs as the call before has left them. -/
theorem streams_decode_field_by_field {ulMaxLen : BitVec 32} (limit : ulMaxLen.toNat < 4294967292)
    {front : List (List Byte)} (short : ∀ s ∈ front, s.length ≤ ulMaxLen.toNat) {pcData : List Byte}
    (room : ulMaxLen.toNat < pcData.length) (pulLen : BitVec 32) :
    ∃ done : Fields, done.strings = front.map (· ++ [0]) ∧ done.refused = false ∧ done.rest = [] ∧
      (∀ fuel, front.length < fuel → decodeAll ulMaxLen fuel (encodeAll front) pcData pulLen = some done) ∧
      ∀ s back, ulMaxLen.toNat < s.length → s.length < 4294967296 →
        xlDecodeStrLimit (encodeAll (s :: back)) done.pcData ulMaxLen done.pulLen =
          some (-1, done.pcData, done.pulLen) ∧
        ∀ fuel, front.length < fuel →
          decodeAll ulMaxLen fuel (encodeAll (front ++ s :: back)) pcData pulLen =
            some { done with refused := true, rest := encodeAll (s :: back) } := by
  have calls := @decodeAll_strings ulMaxLen limit front short pcData room
  refine ⟨⟨front.map (· ++ [0]), false, [], (outputs front pcData pulLen).1,
    (outputs front pcData pulLen).2⟩, rfl, rfl, rfl, ?_, ?_⟩
  · intro fuel enough
    obtain ⟨more, rfl⟩ := Nat.exists_eq_add_of_lt enough
    have run := calls (more + 1) [] pulLen
    rw [List.append_nil, decodeAll_nil, Option.map_some, List.append_nil] at run
    exact run
  · intro s back long small
    have refused := strLimit_refuses long small (encodeAll back) (outputs front pcData pulLen).1
      (outputs front pcData pulLen).2
    have stream : encodeAll (s :: back) = encodeStr s ++ encodeAll back := by simp [encodeAll]
    refine ⟨by rw [stream]; exact refused, ?_⟩
    intro fuel enough
    obtain ⟨more, rfl⟩ := Nat.exists_eq_add_of_lt enough
    have run := calls (more + 1) (encodeAll (s :: back)) pulLen
    have whole : encodeAll (front ++ s :: back) = encodeAll front ++ encodeAll (s :: back) := by
      simp [encodeAll]
    have last : decodeAll ulMaxLen (more + 1) (encodeAll (s :: back)) (outputs front pcData pulLen).1
        (outputs front pcData pulLen).2 = some ⟨[], true, encodeAll (s :: back),
          (outputs front pcData pulLen).1, (outputs front pcData pulLen).2⟩ := by
      rw [stream, decodeAll, if_neg (encodeStr_ne_nil s _), refused]
      rfl
    rw [last, Option.map_some, List.append_nil] at run
    rw [whole]
    exact run

theorem second_string_refused : ∃ done : Fields, done.strings = [[0, 0, 0, 9, 0], [0]] ∧
    decodeAll 4 3 (encodeAll [[0, 0, 0, 9], [], [1, 2, 3, 4, 5]]) (List.replicate 5 7) 0 =
      some { done with refused := true, rest := encodeAll [[1, 2, 3, 4, 5]] } := by
  obtain ⟨done, strings, _, _, _, refused⟩ := @streams_decode_field_by_field 4 (by decide)
    [[0, 0, 0, 9], []] (by decide) (List.replicate 5 7) (by decide) 0
  exact ⟨done, strings, (refused [1, 2, 3, 4, 5] [] (by decide) (by decide)).2 3 (by decide)⟩

end TestSource.Coding
