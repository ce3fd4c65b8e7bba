import Mathlib.Tactic.Common
import TestSource.Common

/- Length-prefixed messages: xl_mnt_msg_process.c, and plugin_opkg_control.c with the codec
   of xl_common.h. Plain char is signed. An int and a ULONG are the same 32 bits; they
   differ in how they shift right and in what they become as a size_t. -/
namespace TestSource

def BUFFER_SIZE : Nat := 256

/-- msg_text without the length prefix, BUFFER_SIZE - sizeof(U32). -/
def payloadRoom : Nat := BUFFER_SIZE - 4

def WordSize.ofInt (z : WordSize) (n : BitVec 32) : Nat := (n.signExtend z.bits).toNat

def encodeBytes (shr : BitVec 32 → Nat → BitVec 32) (ulData : BitVec 32) : List Byte :=
  [shr ulData 24, shr ulData 16, shr ulData 8, ulData].map fun x => (x &&& 0xff#32).setWidth 8

def promote (c : Byte) : BitVec 32 := c.signExtend 32

def xlDecodeU32 : List Byte → BitVec 32
  | a :: b :: c :: d :: _ =>
      ((((((promote a) <<< 8) + promote b) <<< 8) + promote c) <<< 8) + promote d
  | _ => 0

structure Text where
  bytes : List Byte
  size : bytes.length = BUFFER_SIZE
  deriving DecidableEq

def frame (shr : BitVec 32 → Nat → BitVec 32) (nLen : BitVec 32) (data : List Byte)
    (fits : data.length ≤ payloadRoom) : Text where
  bytes := encodeBytes shr nLen ++ data ++ List.replicate (payloadRoom - data.length) 0
  size := by
    simp only [encodeBytes, List.length_append, List.length_map, List.length_cons, List.length_nil,
      List.length_replicate]
    simp only [payloadRoom, BUFFER_SIZE] at fits ⊢
    omega

/-- `posted` is what msgsnd answers. Reading behind the data is a fault. -/
def sendFramed (shr : BitVec 32 → Nat → BitVec 32) (z : WordSize) (pData : List Byte)
    (nLen : BitVec 32) (posted : Bool) (queue : List Text) : Option (ErrorNum × List Text) :=
  if long : payloadRoom < z.ofInt nLen then some (.errorFailed, queue)
  else if pData.length < z.ofInt nLen then none
  else
    let msg := frame shr nLen (pData.take (z.ofInt nLen))
      (Nat.le_trans (List.length_take_le _ _) (Nat.le_of_not_lt long))
    if posted then some (.ok, queue ++ [msg]) else some (.errorFailed, queue)

def mntUsbMsgSend := sendFramed fun x k => x >>> k

def msgSendCommand := sendFramed fun x k => x.sshiftRight k

inductive Outcome (α : Type) where
  | waiting
  | fault
  | returned (result : α)
  deriving DecidableEq

inductive Reply where
  | interrupted
  | failed
  | text (t : Text)

def awaitText : List Reply → Outcome (Option Text)
  | [] => .waiting
  | .interrupted :: more => awaitText more
  | .failed :: _ => .returned none
  | .text t :: _ => .returned (some t)

/-- The length and the buffer behind `pData` after the copy, unless it leaves the text or
    the buffer. -/
def unframe (z : WordSize) (pData : List Byte) (t : Text) : Option (BitVec 32 × List Byte) :=
  let nLen := xlDecodeU32 t.bytes
  let n := z.ofInt nLen
  if payloadRoom < n ∨ pData.length < n then none
  else some (nLen, (t.bytes.drop 4).take n ++ pData.drop n)

/-- A null pointer has no bytes behind it; `pnLen` tells whether the length has a place. -/
def msgRecvCommand (z : WordSize) (pData : Option (List Byte)) (pnLen : Bool) (replies : List Reply) :
    Outcome (ErrorNum × Option (BitVec 32 × List Byte)) :=
  match awaitText replies with
  | .waiting => .waiting
  | .fault => .fault
  | .returned none => .returned (.errorFailed, none)
  | .returned (some t) =>
      match unframe z (pData.getD []) t with
      | none => .fault
      | some result => if pnLen then .returned (.ok, some result) else .fault

def mntUsbMsgRcv (z : WordSize) (pData : Option (List Byte)) (pnLen : Bool) (replies : List Reply) :
    Outcome (ErrorNum × Option (BitVec 32 × List Byte)) :=
  if pData.isNone then .returned (.nullP, none)
  else if !pnLen then .returned (.nullP, none)
  else msgRecvCommand z pData pnLen replies

abbrev Sender := List Byte → BitVec 32 → Bool → List Text → Option (ErrorNum × List Text)

abbrev Receiver := Option (List Byte) → Bool → List Reply →
  Outcome (ErrorNum × Option (BitVec 32 × List Byte))

/-- The framing contract at one length: a payload of 0 to 252 bytes is queued and comes
    back whole, after any number of interrupted waits; any other length is refused. -/
def RoundTrips (send : Sender) (rcv : Receiver) (nLen : BitVec 32) : Prop :=
  if 0 ≤ nLen.toInt ∧ nLen.toInt ≤ 252 then
    ∀ payload queue, payload.length = nLen.toNat →
      ∃ text, send payload nLen true queue = some (.ok, queue ++ [text]) ∧
        ∀ room interrupts later, payloadRoom ≤ room.length →
          rcv (some room) true (List.replicate interrupts .interrupted ++ .text text :: later) =
            .returned (.ok, some (nLen, payload ++ room.drop nLen.toNat))
  else ∀ pData posted queue, send pData nLen posted queue = some (.errorFailed, queue)

theorem toInt_range (n : BitVec 32) : 0 ≤ n.toInt ∧ n.toInt ≤ 252 ↔ n.toNat ≤ 252 := by
  have bound := n.isLt
  rw [BitVec.toInt_eq_toNat_cond]
  split <;> omega

theorem ofInt_small (z : WordSize) {n : BitVec 32} (small : n.toNat < 2147483648) :
    z.ofInt n = n.toNat := by
  have positive : n.msb = false := by
    rw [BitVec.msb_eq_decide]
    simp only [decide_eq_false_iff_not]
    omega
  have wide : 2 ^ 32 ≤ 2 ^ z.bits := Nat.pow_le_pow_right (by omega) z.wide
  rw [WordSize.ofInt, BitVec.toNat_signExtend, positive, BitVec.toNat_setWidth]
  simp only [Bool.false_eq_true, ↓reduceIte, Nat.add_zero]
  exact Nat.mod_eq_of_lt (by omega)

theorem ofInt_large (z : WordSize) {n : BitVec 32} (large : 2147483648 ≤ n.toNat) :
    2147483648 ≤ z.ofInt n := by
  have negative : n.msb = true := by
    rw [BitVec.msb_eq_decide]
    simpa using large
  have wide : 2 ^ 32 ≤ 2 ^ z.bits := Nat.pow_le_pow_right (by omega) z.wide
  have bound := n.isLt
  rw [WordSize.ofInt, BitVec.toNat_signExtend, negative, BitVec.toNat_setWidth,
    Nat.mod_eq_of_lt (by omega)]
  simp only [↓reduceIte]
  omega

theorem ofInt_long_iff (z : WordSize) (n : BitVec 32) : payloadRoom < z.ofInt n ↔ 252 < n.toNat := by
  have room : payloadRoom = 252 := rfl
  by_cases small : n.toNat < 2147483648
  · rw [ofInt_small z small, room]
  · have := ofInt_large z (Nat.le_of_not_lt small)
    omega

theorem low_byte (x : BitVec 32) : (x &&& 0xff#32).setWidth 8 = x.setWidth 8 := by
  rw [BitVec.setWidth_and]
  exact BitVec.and_allOnes

/-- The mask hides what an arithmetic shift brings in. -/
theorem encode_shift_kind (n : BitVec 32) :
    encodeBytes (fun x k => x.sshiftRight k) n = encodeBytes (fun x k => x >>> k) n := by
  have same (k : Nat) (inside : k + 8 ≤ 32) :
      (n.sshiftRight k).setWidth 8 = (n >>> k).setWidth 8 := by
    ext i small
    have here : k + i < 32 := by omega
    simp [BitVec.getLsbD_sshiftRight, here]
    omega
  simp only [encodeBytes, low_byte, List.map_cons, List.map_nil, same 24 (by omega),
    same 16 (by omega), same 8 (by omega)]

theorem encode_short {n : BitVec 32} (short : n.toNat < 256) :
    encodeBytes (fun x k => x >>> k) n = [0, 0, 0, n.setWidth 8] := by
  have top (k : Nat) (far : 256 ≤ 2 ^ k) : n >>> k = 0#32 := by
    apply BitVec.eq_of_toNat_eq
    rw [BitVec.toNat_ushiftRight, Nat.shiftRight_eq_div_pow]
    exact Nat.div_eq_of_lt (by omega)
  simp only [encodeBytes, low_byte, List.map_cons, List.map_nil, top 24 (by omega),
    top 16 (by omega), top 8 (by omega)]
  rfl

theorem decode_short (d : Byte) (rest : List Byte) :
    xlDecodeU32 (0 :: 0 :: 0 :: d :: rest) = d.signExtend 32 := by
  simp [xlDecodeU32, promote]

theorem promote_ascii {n : BitVec 32} (ascii : n.toNat < 128) :
    (n.setWidth 8).signExtend 32 = n := by
  have positive : (n.setWidth 8).msb = false := by
    rw [BitVec.msb_eq_decide]
    simp only [BitVec.toNat_setWidth, decide_eq_false_iff_not]
    omega
  rw [BitVec.signExtend_eq_setWidth_of_msb_false positive]
  apply BitVec.eq_of_toNat_eq
  simp only [BitVec.toNat_setWidth]
  omega

theorem promote_high {n : BitVec 32} (high : 128 ≤ n.toNat) (short : n.toNat < 256) :
    2147483648 ≤ ((n.setWidth 8).signExtend 32).toNat := by
  have negative : (n.setWidth 8).msb = true := by
    rw [BitVec.msb_eq_decide]
    simp only [BitVec.toNat_setWidth, decide_eq_true_eq]
    omega
  rw [BitVec.toNat_signExtend, negative]
  simp only [↓reduceIte]
  omega

theorem await_interrupted (k : Nat) (t : Text) (later : List Reply) :
    awaitText (List.replicate k .interrupted ++ .text t :: later) = .returned (some t) := by
  induction k with
  | zero => rfl
  | succ k ih => rw [List.replicate_succ, List.cons_append, awaitText, ih]

section Framed
variable (shr : BitVec 32 → Nat → BitVec 32) (z : WordSize)

theorem send_refused {n : BitVec 32} (long : 252 < n.toNat) (pData : List Byte) (posted : Bool)
    (queue : List Text) : sendFramed shr z pData n posted queue = some (.errorFailed, queue) := by
  rw [sendFramed, dif_pos ((ofInt_long_iff z n).mpr long)]

theorem send_queued {n : BitVec 32} {payload : List Byte} (short : n.toNat ≤ 252)
    (length : payload.length = n.toNat) (queue : List Text) :
    ∃ text, sendFramed shr z payload n true queue = some (.ok, queue ++ [text]) ∧
      text.bytes = encodeBytes shr n ++ payload ++ List.replicate (payloadRoom - n.toNat) 0 := by
  have fits : ¬ payloadRoom < z.ofInt n := by
    rw [ofInt_long_iff]
    omega
  have count := ofInt_small z (n := n) (by omega)
  have enough : ¬ payload.length < z.ofInt n := by omega
  have whole : payload.take (z.ofInt n) = payload := List.take_of_length_le (by omega)
  rw [sendFramed, dif_neg fits, if_neg enough]
  refine ⟨_, rfl, ?_⟩
  simp only [frame, whole, length]

theorem unframe_whole {n : BitVec 32} (ascii : n.toNat < 128) {payload room rest : List Byte}
    (length : payload.length = n.toNat) (enough : payloadRoom ≤ room.length) {t : Text}
    (bytes : t.bytes = [0, 0, 0, n.setWidth 8] ++ payload ++ rest) :
    unframe z room t = some (n, payload ++ room.drop n.toNat) := by
  have decoded : xlDecodeU32 t.bytes = n := by
    rw [bytes]
    exact (decode_short _ _).trans (promote_ascii ascii)
  have count := ofInt_small z (n := n) (by omega)
  have limit : payloadRoom = 252 := rfl
  have copied : (t.bytes.drop 4).take n.toNat = payload := by
    rw [bytes, ← length]
    simp
  have inside : ¬ (payloadRoom < n.toNat ∨ room.length < n.toNat) := by omega
  simp only [unframe, decoded, count, inside, ↓reduceIte, copied]

theorem unframe_faults {n : BitVec 32} (high : 128 ≤ n.toNat) (short : n.toNat < 256)
    (room : List Byte) {rest : List Byte} {t : Text}
    (bytes : t.bytes = [0, 0, 0, n.setWidth 8] ++ rest) : unframe z room t = none := by
  have decoded : xlDecodeU32 t.bytes = (n.setWidth 8).signExtend 32 := by
    rw [bytes]
    exact decode_short _ _
  have huge := ofInt_large z (promote_high high short)
  have limit : payloadRoom = 252 := rfl
  have outside : payloadRoom < z.ofInt ((n.setWidth 8).signExtend 32) := by omega
  simp only [unframe, decoded, outside, true_or, ↓reduceIte]

theorem recv_framed (room : List Byte) (k : Nat) (t : Text) (later : List Reply) :
    msgRecvCommand z (some room) true (List.replicate k .interrupted ++ .text t :: later) =
      match unframe z room t with
      | none => .fault
      | some result => .returned (.ok, some result) := by
  simp only [msgRecvCommand, await_interrupted, Option.getD_some]
  cases unframe z room t <;> rfl

theorem framed_round_trip_iff {shr : BitVec 32 → Nat → BitVec 32}
    (masked : ∀ n, encodeBytes shr n = encodeBytes (fun x k => x >>> k) n) {rcv : Receiver}
    (valid : ∀ room replies, rcv (some room) true replies = msgRecvCommand z (some room) true replies)
    (n : BitVec 32) :
    RoundTrips (sendFramed shr z) rcv n ↔ ¬ (128 ≤ n.toInt ∧ n.toInt ≤ 252) := by
  have signed : 128 ≤ n.toInt ∧ n.toInt ≤ 252 ↔ 128 ≤ n.toNat ∧ n.toNat ≤ 252 := by
    have bound := n.isLt
    rw [BitVec.toInt_eq_toNat_cond]
    split <;> omega
  simp only [RoundTrips, toInt_range, signed]
  by_cases short : n.toNat ≤ 252
  · have encoded : encodeBytes shr n = [0, 0, 0, n.setWidth 8] :=
      (masked n).trans (encode_short (by omega))
    simp only [short, ↓reduceIte, and_true, valid, recv_framed]
    constructor
    · intro trips high
      -- any payload of that length is queued and then faults the receiver
      have length : (List.replicate n.toNat (0 : Byte)).length = n.toNat := List.length_replicate
      obtain ⟨text, queued, back⟩ := trips _ [] length
      obtain ⟨sent, again, bytes⟩ := send_queued shr z short length []
      rw [queued] at again
      obtain rfl : text = sent := by simpa using again
      rw [encoded, List.append_assoc] at bytes
      have fault := unframe_faults z high (by omega) (List.replicate payloadRoom 0) bytes
      have whole := back (List.replicate payloadRoom 0) 0 [] (by simp)
      rw [fault] at whole
      cases whole
    · intro ascii payload queue length
      obtain ⟨text, queued, bytes⟩ := send_queued shr z short length queue
      refine ⟨text, queued, ?_⟩
      intro room interrupts later enough
      rw [encoded] at bytes
      rw [unframe_whole z (by omega) length enough bytes]
  · simp only [short, ↓reduceIte, and_false, not_false_eq_true, iff_true]
    intro pData posted queue
    exact send_refused shr z (by omega) pData posted queue

end Framed

/-- Both message modules keep the framing contract at every length except 128 to 252. -/
theorem framing_round_trips_iff (z : WordSize) (n : BitVec 32) :
    (RoundTrips (mntUsbMsgSend z) (mntUsbMsgRcv z) n ↔ ¬ (128 ≤ n.toInt ∧ n.toInt ≤ 252)) ∧
      (RoundTrips (msgSendCommand z) (msgRecvCommand z) n ↔
        ¬ (128 ≤ n.toInt ∧ n.toInt ≤ 252)) := by
  constructor
  · exact framed_round_trip_iff z (fun _ => rfl) (fun _ _ => rfl) n
  · exact framed_round_trip_iff z encode_shift_kind (fun _ _ => rfl) n

theorem letters_fit : (List.replicate 128 (0x41 : Byte)).length ≤ payloadRoom := by
  simp [payloadRoom, BUFFER_SIZE]

theorem length_128_faults :
    (∃ text, mntUsbMsgSend .bits32 (List.replicate 128 0x41) 128 true [] =
        some (.ok, [text]) ∧
      mntUsbMsgRcv .bits32 (some (List.replicate 256 0)) true [.text text] = .fault) ∧
    (∃ text, msgSendCommand .bits32 (List.replicate 128 0x41) 128 true [] =
        some (.ok, [text]) ∧
      msgRecvCommand .bits32 (some (List.replicate 256 0)) true [.text text] = .fault) ∧
    ¬ RoundTrips (mntUsbMsgSend .bits32) (mntUsbMsgRcv .bits32) 128 ∧
    ¬ RoundTrips (msgSendCommand .bits32) (msgRecvCommand .bits32) 128 := by
  refine ⟨⟨frame (fun x k => x >>> k) 128 _ letters_fit, ?_, ?_⟩,
    ⟨frame (fun x k => x.sshiftRight k) 128 _ letters_fit, ?_, ?_⟩, ?_, ?_⟩
  · decide +kernel
  · decide +kernel
  · decide +kernel
  · decide +kernel
  · intro trips
    exact (framed_round_trip_iff _ (fun _ => rfl) (fun _ _ => rfl) 128).mp trips (by decide)
  · intro trips
    exact (framed_round_trip_iff _ encode_shift_kind (fun _ _ => rfl) 128).mp trips (by decide)

end TestSource
