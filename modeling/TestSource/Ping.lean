import TestSource.Common
import TestSource.OnesComplement
import TestSource.Splice
import Mathlib.Tactic.Ring

/- ping.c: the checksum of an ICMP packet and the packet that pack makes. An int is an Int,
   and a sum that leaves the range of an int has no result, like a read outside the buffer. -/
namespace TestSource.Ping
open Splice

inductive ByteOrder where
  | little
  | big
  deriving DecidableEq, Repr

def loadShort : ByteOrder → Byte → Byte → Nat
  | .little, a, b => a.toNat + 256 * b.toNat
  | .big, a, b => 256 * a.toNat + b.toNat

def storeShort : ByteOrder → BitVec 16 → List Byte
  | .little, v => [v.setWidth 8, (v >>> 8).setWidth 8]
  | .big, v => [(v >>> 8).setWidth 8, v.setWidth 8]

def addInt (a b : Int) : Option Int :=
  if -2147483648 ≤ a + b ∧ a + b < 2147483648 then some (a + b) else none

/-- The while loop: what is left of the bytes and of nleft, and the sum. -/
def sumLoop (o : ByteOrder) : Nat → List Byte → Int → Option (Nat × List Byte × Int)
  | nleft + 2, a :: b :: w, sum => do sumLoop o nleft w (← addInt sum (loadShort o a b))
  | _ + 2, _, _ => none
  | nleft, w, sum => some (nleft, w, sum)

/-- The sum of all shorts; a last byte becomes the first byte of a short that is zero otherwise. -/
def sumShorts (o : ByteOrder) (addr : List Byte) (len : Int) : Option Int := do
  let (nleft, w, sum) ← sumLoop o len.toNat addr 0
  if nleft = 1 then addInt sum (loadShort o (← w.head?) 0) else some sum

/-- sum >> 16 and sum & 0xffff are the quotient and the rest, rounded down. -/
def foldSum (sum : Int) : Option (BitVec 16) := do
  let sum ← addInt (sum / 65536) (sum % 65536)
  let sum ← addInt sum (sum / 65536)
  some (BitVec.ofInt 16 (-sum - 1))

def calChksum (o : ByteOrder) (addr : List Byte) (len : Int) : Option (BitVec 16) := do
  foldSum (← sumShorts o addr len)

def datalen : Nat := 56

/-- The echo request in sendpacket with a checksum of zero: type, code, sequence number, id and
    the time at the start of the data. -/
def packFields (o : ByteOrder) (pid packNo : BitVec 32) (tval sendpacket : List Byte) : List Byte :=
  let icmp := splice sendpacket 0 [8]
  let icmp := splice icmp 1 [0]
  let icmp := splice icmp 2 (storeShort o 0)
  let icmp := splice icmp 6 (storeShort o (packNo.setWidth 16))
  let icmp := splice icmp 4 (storeShort o (pid.setWidth 16))
  splice icmp 8 tval

def pack (o : ByteOrder) (pid packNo : BitVec 32) (tval sendpacket : List Byte) :
    Option (Nat × List Byte) := do
  let packsize := 8 + datalen
  let icmp := packFields o pid packNo tval sendpacket
  let cksum ← calChksum o icmp packsize
  some (packsize, splice icmp 2 (storeShort o cksum))

def words (o : ByteOrder) : List Byte → List Nat
  | a :: b :: rest => loadShort o a b :: words o rest
  | [a] => [loadShort o a 0]
  | [] => []

section Words
variable {o : ByteOrder}

theorem loadShort_le (a b : Byte) : loadShort o a b ≤ 65535 := by
  have := a.isLt
  have := b.isLt
  cases o <;> simp only [loadShort] <;> omega

theorem load_store (v : BitVec 16) : words o (storeShort o v) = [v.toNat] := by
  have := v.isLt
  cases o with
  | little =>
    simp [words, loadShort, storeShort, Nat.shiftRight_eq_div_pow]
    omega
  | big =>
    simp [words, loadShort, storeShort, Nat.shiftRight_eq_div_pow]
    omega

theorem words_le (l : List Byte) : ∀ w ∈ words o l, w ≤ 65535 := by
  fun_induction words o l with
  | case1 a b rest ih =>
    intro w mem
    rcases List.mem_cons.mp mem with rfl | later
    · exact loadShort_le a b
    · exact ih w later
  | case2 a =>
    intro w mem
    rw [List.mem_singleton.mp mem]
    exact loadShort_le a 0
  | case3 => simp

theorem words_sum_le (l : List Byte) : (words o l).sum ≤ 65535 * ((l.length + 1) / 2) := by
  fun_induction words o l with
  | case1 a b rest ih =>
    have := loadShort_le (o := o) a b
    simp only [List.sum_cons, List.length_cons]
    omega
  | case2 a =>
    have := loadShort_le (o := o) a 0
    simp
    omega
  | case3 => simp

theorem words_append {l : List Byte} (even : l.length % 2 = 0) (more : List Byte) :
    words o (l ++ more) = words o l ++ words o more := by
  fun_induction words o l with
  | case1 a b rest ih =>
    have shorter : rest.length % 2 = 0 := by
      simp only [List.length_cons] at even
      omega
    simp [words, ih shorter]
  | case2 a => simp at even
  | case3 => rfl

end Words

section Checksum
variable {o : ByteOrder}

theorem addInt_fits {a b : Nat} (fits : a + b < 2147483648) :
    addInt (a : Int) (b : Int) = some ((a + b : Nat) : Int) := by
  simp only [addInt, Int.natCast_add]
  rw [if_pos (by omega)]

theorem sumLoop_words (l more : List Byte) {sum : Nat} (fits : sum + (words o l).sum < 2147483648) :
    ∃ nleft w total, sumLoop o l.length (l ++ more) sum = some (nleft, w, total) ∧
      (if nleft = 1 then w.head?.bind fun b => addInt total (loadShort o b 0) else some total) =
        some ((sum + (words o l).sum : Nat) : Int) := by
  fun_induction words o l generalizing sum with
  | case1 a b rest ih =>
    simp only [List.sum_cons] at fits
    have later : sum + loadShort o a b + (words o rest).sum < 2147483648 := by omega
    obtain ⟨nleft, w, total, looped, added⟩ := ih later
    have first := addInt_fits (show sum + loadShort o a b < 2147483648 by omega)
    refine ⟨nleft, w, total, ?_, ?_⟩
    · simpa [sumLoop, first] using looped
    · simpa [Nat.add_assoc, Int.add_assoc] using added
  | case2 a =>
    simp only [List.sum_cons, List.sum_nil, Nat.add_zero] at fits
    refine ⟨1, a :: more, sum, by simp [sumLoop], ?_⟩
    rw [if_pos rfl, List.head?_cons, Option.bind_some, addInt_fits fits, List.sum_singleton]
  | case3 => exact ⟨0, more, sum, by simp [sumLoop], by simp⟩

theorem sumShorts_words {l : List Byte} (short : l.length ≤ 65535) (more : List Byte) :
    sumShorts o (l ++ more) l.length = some ((words o l).sum : Int) := by
  have bound := words_sum_le (o := o) l
  have fits : 0 + (words o l).sum < 2147483648 := by omega
  obtain ⟨nleft, w, total, looped, added⟩ := sumLoop_words l more fits
  have start : sumLoop o l.length (l ++ more) 0 = some (nleft, w, total) := looped
  simp only [Nat.zero_add] at added
  simpa [sumShorts, start] using added

theorem two_folds {sum : Nat} (fits : sum < 2147483648) :
    (sum / 65536 + sum % 65536 + (sum / 65536 + sum % 65536) / 65536) % 65536 =
      OnesComplement.rep 65535 sum := by
  rw [← OnesComplement.rep_fold]
  exact OnesComplement.rep_carry (by omega)

theorem ofInt_complement (n : Nat) : BitVec.ofInt 16 (-(n : Int) - 1) = ~~~BitVec.ofNat 16 (n % 65536) := by
  have negative : -(n : Int) - 1 = Int.negSucc n := by omega
  rw [negative, BitVec.ofInt_negSucc_eq_not_ofNat]
  congr 1
  apply BitVec.eq_of_toNat_eq
  simp

theorem foldSum_once {once : Nat} (small : once < 131072) :
    ((addInt once ((once : Int) / 65536)).bind fun sum => some (BitVec.ofInt 16 (-sum - 1))) =
      some (~~~BitVec.ofNat 16 ((once + once / 65536) % 65536)) := by
  have carry : (once : Int) / 65536 = (once / 65536 : Nat) := by omega
  rw [carry, addInt_fits (by omega), Option.bind_some, ofInt_complement]

theorem foldSum_rep {sum : Nat} (fits : sum < 2147483648) :
    foldSum sum = some (~~~BitVec.ofNat 16 (OnesComplement.rep 65535 sum)) := by
  have high : (sum : Int) / 65536 = (sum / 65536 : Nat) := by omega
  have low : (sum : Int) % 65536 = (sum % 65536 : Nat) := by omega
  have first : addInt ((sum : Int) / 65536) ((sum : Int) % 65536) =
      some ((sum / 65536 + sum % 65536 : Nat) : Int) := by
    rw [high, low, addInt_fits (by omega)]
  have second := foldSum_once (show sum / 65536 + sum % 65536 < 131072 by omega)
  rw [two_folds fits] at second
  rw [← second, foldSum, first]
  exact Option.bind_some _ _

theorem calChksum_sum {l : List Byte} (short : l.length ≤ 65535) (more : List Byte) :
    calChksum o (l ++ more) l.length =
      some (~~~BitVec.ofNat 16 (OnesComplement.sum 65535 (words o l))) := by
  have bound := words_sum_le (o := o) l
  rw [OnesComplement.sum_eq_rep (by decide) (words_le l), ← foldSum_rep (by omega)]
  rw [calChksum, sumShorts_words short]
  exact Option.bind_some _ _

end Checksum

/-- A packet around its checksum field, which stands at an even offset. -/
structure Packet where
  front : List Byte
  back : List Byte
  frontEven : front.length % 2 = 0
  backEven : back.length % 2 = 0
  short : front.length + 2 + back.length ≤ 65534

def Packet.bytes (p : Packet) (o : ByteOrder) (field : BitVec 16) : List Byte :=
  p.front ++ (storeShort o field ++ p.back)

section SelfCheck
variable (p : Packet) (o : ByteOrder)

theorem store_length (v : BitVec 16) : (storeShort o v).length = 2 := by
  cases o <;> rfl

theorem packet_length (v : BitVec 16) : (p.bytes o v).length = p.front.length + 2 + p.back.length := by
  simp [Packet.bytes, store_length]
  omega

theorem packet_sum (v : BitVec 16) :
    (words o (p.bytes o v)).sum = (words o p.front).sum + (words o p.back).sum + v.toNat := by
  have field : (storeShort o v).length % 2 = 0 := by
    rw [store_length]
  rw [Packet.bytes, words_append p.frontEven, words_append field, load_store]
  simp
  omega

theorem packet_checked (more : List Byte) : ∃ cksum,
    calChksum o (p.bytes o 0 ++ more) (p.bytes o 0).length = some cksum ∧
      calChksum o (p.bytes o cksum ++ more) (p.bytes o cksum).length = some 0 := by
  have short := p.short
  refine ⟨_, calChksum_sum (by rw [packet_length]; omega) more, ?_⟩
  rw [calChksum_sum (by rw [packet_length]; omega) more]
  have complement (v : BitVec 16) :
      OnesComplement.sum 65535 (words o (p.bytes o v)) =
        OnesComplement.rep 65535 ((words o p.front).sum + (words o p.back).sum + v.toNat) := by
    rw [OnesComplement.sum_eq_rep (by decide) (words_le _), packet_sum]
  rw [complement, complement]
  generalize (words o p.front).sum + (words o p.back).sum = total
  have small := OnesComplement.rep_le (m := 65535) (by decide) total
  have field : (~~~BitVec.ofNat 16 (OnesComplement.rep 65535 (total + (0 : BitVec 16).toNat))).toNat =
      65535 - OnesComplement.rep 65535 total := by
    simp
    omega
  rw [field, OnesComplement.rep_complement (by decide)]
  decide

variable (pid packNo : BitVec 32) {tval sendpacket : List Byte}

theorem packFields_header (room : sendpacket.length = 4096) (time : tval.length ≤ 56) : ∃ rest,
    packFields o pid packNo tval sendpacket = [8, 0] ++ (storeShort o 0 ++ rest) ∧ rest.length = 4092 := by
  have header : splice (splice (splice sendpacket 0 [8]) 1 [0]) 2 (storeShort o 0) =
      [8, 0] ++ storeShort o 0 ++ sendpacket.drop 4 := by
    have two := splice_splice [8] [0] (Nat.zero_le sendpacket.length)
    have four := splice_splice [8, 0] (storeShort o 0) (Nat.zero_le sendpacket.length)
    simp only [List.length_singleton, Nat.zero_add, List.singleton_append] at two
    simp only [List.length_cons, List.length_nil, Nat.zero_add] at four
    rw [two, four, splice_start]
    simp [store_length]
  have size : ([8, 0] ++ storeShort o 0).length = 4 := by simp [store_length]
  have behind := splice_behind ([8, 0] ++ storeShort o 0)
  rw [size] at behind
  have start : (sendpacket.drop 4).length = 4092 := by simp [room]
  have seq := splice_length (show 2 + (storeShort o (packNo.setWidth 16)).length ≤ (sendpacket.drop 4).length by
    rw [store_length]; omega)
  have id := splice_length (show 0 + (storeShort o (pid.setWidth 16)).length ≤
      (splice (sendpacket.drop 4) 2 (storeShort o (packNo.setWidth 16))).length by
    rw [store_length]; omega)
  have length := (splice_length (show 4 + tval.length ≤ _ by omega)).trans (id.trans (seq.trans start))
  refine ⟨_, ?_, length⟩
  rw [packFields, header, behind _ _ 2, behind _ _ 0, behind _ _ 4, List.append_assoc]

/-- The packet that pack leaves in its buffer is accepted by the same checksum. -/
theorem pack_checked (room : sendpacket.length = 4096) (time : tval.length ≤ 56) : ∃ packet,
    pack o pid packNo tval sendpacket = some (64, packet) ∧ calChksum o packet 64 = some 0 := by
  obtain ⟨rest, fields, length⟩ := packFields_header o pid packNo room time
  let p : Packet := ⟨[8, 0], rest.take 60, rfl, by simp [length], by simp [length]⟩
  have whole (v : BitVec 16) : [8, 0] ++ (storeShort o v ++ rest) = p.bytes o v ++ rest.drop 60 := by
    simp [p, Packet.bytes]
  have size (v : BitVec 16) : ((p.bytes o v).length : Int) = 64 := by
    rw [packet_length]
    simp [p, length]
  obtain ⟨cksum, computed, checked⟩ := packet_checked p o (rest.drop 60)
  rw [size, ← whole] at computed checked
  have stored : splice ([8, 0] ++ (storeShort o 0 ++ rest)) 2 (storeShort o cksum) =
      [8, 0] ++ (storeShort o cksum ++ rest) := by
    have field := splice_behind [8, 0] (storeShort o 0 ++ rest) (storeShort o cksum) 0
    rw [splice_start, store_length, List.drop_left' (store_length o 0)] at field
    exact field
  refine ⟨[8, 0] ++ (storeShort o cksum ++ rest), ?_, checked⟩
  have sized : calChksum o ([8, 0] ++ (storeShort o 0 ++ rest)) ((8 + datalen : Nat) : Int) = some cksum := computed
  simp only [pack, fields, sized, stored, Option.bind_eq_bind, Option.bind_some]
  rfl

end SelfCheck

/-- A packet whose field is zero is completed by its checksum, and no packet of a legal length
    makes the accumulator overflow or needs a third fold. -/
theorem checksum_verifies_itself (o : ByteOrder) :
    (∀ p : Packet, ∃ cksum, calChksum o (p.bytes o 0) (p.bytes o 0).length = some cksum ∧
      calChksum o (p.bytes o cksum) (p.bytes o cksum).length = some 0) ∧
    ∀ packet : List Byte, packet.length ≤ 65535 →
      sumShorts o packet packet.length = some ((words o packet).sum : Int) ∧
        calChksum o packet packet.length =
          some (~~~BitVec.ofNat 16 (OnesComplement.sum 65535 (words o packet))) := by
  constructor
  · intro p
    have checked := packet_checked p o []
    simpa only [List.append_nil] using checked
  · intro packet short
    have added := sumShorts_words (o := o) short []
    have folded := calChksum_sum (o := o) short []
    rw [List.append_nil] at added folded
    exact ⟨added, folded⟩

theorem echo_request_checked :
    calChksum .big [8, 0, 0, 0] 4 = some 0xf7ff ∧ calChksum .big [8, 0, 0xf7, 0xff] 4 = some 0 := by
  obtain ⟨cksum, computed, checked⟩ := (checksum_verifies_itself .big).1
    ⟨[8, 0], [], rfl, rfl, by decide⟩
  have value : calChksum .big [8, 0, 0, 0] 4 = some 0xf7ff :=
    ((checksum_verifies_itself .big).2 [8, 0, 0, 0] (by decide)).2
  have same : cksum = 0xf7ff := Option.some.inj (computed.symm.trans value)
  subst same
  exact ⟨value, checked⟩

end TestSource.Ping
