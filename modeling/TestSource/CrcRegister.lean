import Mathlib.Tactic.Common

/- A reflected CRC register of any width and polynomial, one bit at a time. The register is
   linear over exclusive or; this gives the table step of eight bits at once, and, when the
   polynomial has its top bit set, that nothing is lost by a step. -/
namespace CrcRegister
variable {w : Nat}

def bitStep (poly c : BitVec w) : BitVec w :=
  if c.getLsbD 0 then (c >>> 1) ^^^ poly else c >>> 1

def bitSteps (poly : BitVec w) : Nat → BitVec w → BitVec w
  | 0, c => c
  | n + 1, c => bitSteps poly n (bitStep poly c)

def byteStep (poly c : BitVec w) (b : BitVec 8) : BitVec w :=
  bitSteps poly 8 (c ^^^ b.setWidth w)

/-- The register after a byte string, started at `c`. -/
def register (poly c : BitVec w) (bytes : List (BitVec 8)) : BitVec w :=
  bytes.foldl (byteStep poly) c

section Linear
variable (poly : BitVec w)

theorem bitStep_xor (a b : BitVec w) :
    bitStep poly (a ^^^ b) = bitStep poly a ^^^ bitStep poly b := by
  simp only [bitStep, BitVec.getLsbD_xor, BitVec.ushiftRight_xor_distrib]
  cases a.getLsbD 0 <;> cases b.getLsbD 0
  · simp
  · simp [BitVec.xor_assoc]
  · simp only [Bool.xor_false, ↓reduceIte, Bool.false_eq_true]
    ac_rfl
  · simp only [Bool.xor_true, Bool.not_true, Bool.false_eq_true, ↓reduceIte]
    have cancel : (a >>> 1 ^^^ poly) ^^^ (b >>> 1 ^^^ poly) =
        (a >>> 1 ^^^ b >>> 1) ^^^ (poly ^^^ poly) := by ac_rfl
    rw [cancel, BitVec.xor_self, BitVec.xor_zero]

theorem bitSteps_xor (n : Nat) (a b : BitVec w) :
    bitSteps poly n (a ^^^ b) = bitSteps poly n a ^^^ bitSteps poly n b := by
  induction n generalizing a b with
  | zero => rfl
  | succ n ih => simp only [bitSteps, bitStep_xor, ih]

theorem bitSteps_add (m n : Nat) (c : BitVec w) :
    bitSteps poly (m + n) c = bitSteps poly n (bitSteps poly m c) := by
  induction m generalizing c with
  | zero => simp [bitSteps]
  | succ m ih => rw [Nat.succ_add, bitSteps, bitSteps, ih]

theorem bitSteps_clear (n : Nat) {c : BitVec w} (clear : ∀ i, i < n → c.getLsbD i = false) :
    bitSteps poly n c = c >>> n := by
  induction n generalizing c with
  | zero => simp [bitSteps]
  | succ n ih =>
    have low : bitStep poly c = c >>> 1 := by simp [bitStep, clear 0 (by omega)]
    rw [bitSteps, low, ih, ← BitVec.shiftRight_add, Nat.add_comm]
    intro i below
    rw [BitVec.getLsbD_ushiftRight]
    exact clear (1 + i) (by omega)

theorem register_append (c : BitVec w) (a b : List (BitVec 8)) :
    register poly c (a ++ b) = register poly (register poly c a) b := by
  simp [register]

end Linear

section Table
variable (poly : BitVec w)

def tableWord (poly : BitVec w) (i : Nat) : BitVec w := bitSteps poly 8 (BitVec.ofNat w i)

def lowByte (c : BitVec w) : BitVec w := c &&& BitVec.ofNat w 255

theorem lowByte_bit (c : BitVec w) (i : Nat) :
    (lowByte c).getLsbD i = (c.getLsbD i && decide (i < 8)) := by
  have ones : (255 : Nat).testBit i = decide (i < 8) := Nat.testBit_two_pow_sub_one 8 i
  rw [lowByte, BitVec.getLsbD_and, BitVec.getLsbD_ofNat, ones]
  by_cases inside : i < w
  · simp [inside]
  · simp [BitVec.getLsbD_of_ge c i (by omega)]

theorem bitSteps_table (c : BitVec w) :
    bitSteps poly 8 c = (c >>> 8) ^^^ bitSteps poly 8 (lowByte c) := by
  have split : c = (c ^^^ lowByte c) ^^^ lowByte c := by
    rw [BitVec.xor_assoc, BitVec.xor_self, BitVec.xor_zero]
  have clear : ∀ i, i < 8 → (c ^^^ lowByte c).getLsbD i = false := by
    intro i low
    simp [lowByte_bit, low]
  have gone : lowByte c >>> 8 = 0#w := by
    apply BitVec.eq_of_getLsbD_eq
    intro i _
    simp [lowByte_bit]
  calc bitSteps poly 8 c
      = bitSteps poly 8 ((c ^^^ lowByte c) ^^^ lowByte c) := by rw [← split]
    _ = bitSteps poly 8 (c ^^^ lowByte c) ^^^ bitSteps poly 8 (lowByte c) := bitSteps_xor ..
    _ = ((c ^^^ lowByte c) >>> 8) ^^^ bitSteps poly 8 (lowByte c) := by
      rw [bitSteps_clear poly 8 clear]
    _ = (c >>> 8) ^^^ bitSteps poly 8 (lowByte c) := by
      rw [BitVec.ushiftRight_xor_distrib, gone, BitVec.xor_zero]

theorem byte_moved_out (b : BitVec 8) : b.setWidth w >>> 8 = 0#w := by
  apply BitVec.eq_of_getLsbD_eq
  intro i _
  simp

theorem byteStep_table (c : BitVec w) (b : BitVec 8) :
    byteStep poly c b = (c >>> 8) ^^^ tableWord poly (lowByte (c ^^^ b.setWidth w)).toNat := by
  rw [byteStep, bitSteps_table, BitVec.ushiftRight_xor_distrib, byte_moved_out, BitVec.xor_zero,
    tableWord, BitVec.ofNat_toNat, BitVec.setWidth_eq]

end Table

section Injective
variable {poly : BitVec w} (top : poly.msb = true)
include top

theorem bitStep_zero {d : BitVec w} (gone : bitStep poly d = 0#w) : d = 0#w := by
  have positive : 0 < w := by
    rcases Nat.eq_zero_or_pos w with zero | positive
    · subst zero
      simp [BitVec.msb, BitVec.getMsbD] at top
    · exact positive
  rw [bitStep] at gone
  by_cases odd : d.getLsbD 0 = true
  · rw [if_pos odd] at gone
    -- the shifted register has its top bit clear, the polynomial has it set
    have bit := congrArg BitVec.msb gone
    rw [BitVec.msb_xor, top, BitVec.msb_ushiftRight] at bit
    simp at bit
  · rw [if_neg odd] at gone
    apply BitVec.eq_of_getLsbD_eq
    intro i inside
    rw [BitVec.getLsbD_zero]
    cases i with
    | zero => simpa using odd
    | succ i =>
      have bit := congrArg (fun v => v.getLsbD i) gone
      simpa [Nat.add_comm] using bit

theorem bitSteps_zero {n : Nat} {d : BitVec w} (gone : bitSteps poly n d = 0#w) : d = 0#w := by
  induction n generalizing d with
  | zero => exact gone
  | succ n ih => exact bitStep_zero top (ih gone)

theorem bitSteps_injective {n : Nat} {a b : BitVec w}
    (same : bitSteps poly n a = bitSteps poly n b) : a = b := by
  apply BitVec.xor_eq_zero_iff.mp
  apply bitSteps_zero top (n := n)
  rw [bitSteps_xor, same, BitVec.xor_self]

theorem register_injective {a b : BitVec w} {bytes : List (BitVec 8)}
    (same : register poly a bytes = register poly b bytes) : a = b := by
  induction bytes generalizing a b with
  | nil => exact same
  | cons x bytes ih =>
    have words := bitSteps_injective top (ih same)
    exact (BitVec.xor_left_inj _).mp words

end Injective

section Window

/-- The bytes of a window as one word, the first byte lowest. -/
def pack : List (BitVec 8) → BitVec w
  | [] => 0#w
  | b :: bytes => b.setWidth w ^^^ (pack bytes <<< 8)

theorem pack_high (bytes : List (BitVec 8)) {i : Nat} (high : 8 * bytes.length ≤ i) :
    (pack bytes : BitVec w).getLsbD i = false := by
  induction bytes generalizing i with
  | nil => simp [pack]
  | cons b bytes ih =>
    rw [List.length_cons] at high
    have rest := ih (i := i - 8) (by omega)
    have beyond : b.getLsbD i = false := BitVec.getLsbD_of_ge b i (by omega)
    simp [pack, rest, beyond]

theorem pack_moved (bytes : List (BitVec 8)) (fits : 8 * bytes.length + 8 ≤ w) :
    (pack bytes <<< 8 : BitVec w) >>> 8 = pack bytes := by
  apply BitVec.eq_of_getLsbD_eq
  intro i inside
  by_cases low : 8 * bytes.length ≤ i
  · simp [pack_high bytes low]
  · rw [BitVec.getLsbD_ushiftRight, BitVec.getLsbD_shiftLeft]
    simp [show 8 + i < w by omega, show ¬ 8 + i < 8 by omega]

theorem register_pack (poly c : BitVec w) (bytes : List (BitVec 8)) (fits : 8 * bytes.length ≤ w) :
    register poly c bytes = bitSteps poly (8 * bytes.length) (c ^^^ pack bytes) := by
  induction bytes generalizing c with
  | nil => simp [register, bitSteps, pack]
  | cons b bytes ih =>
    rw [List.length_cons] at fits
    have later : bitSteps poly 8 (pack bytes <<< 8) = pack bytes := by
      rw [bitSteps_clear poly 8, pack_moved bytes (by omega)]
      intro i below
      simp [BitVec.getLsbD_shiftLeft, below]
    calc register poly c (b :: bytes)
        = register poly (byteStep poly c b) bytes := rfl
      _ = bitSteps poly (8 * bytes.length) (byteStep poly c b ^^^ pack bytes) := ih _ (by omega)
      _ = bitSteps poly (8 * bytes.length)
            (bitSteps poly 8 (c ^^^ b.setWidth w) ^^^ bitSteps poly 8 (pack bytes <<< 8)) := by
        rw [later, byteStep]
      _ = bitSteps poly (8 + 8 * bytes.length) (c ^^^ b.setWidth w ^^^ (pack bytes <<< 8)) := by
        rw [← bitSteps_xor, ← bitSteps_add]
      _ = bitSteps poly (8 * (b :: bytes).length) (c ^^^ pack (b :: bytes)) := by
        rw [pack, BitVec.xor_assoc, List.length_cons, Nat.mul_succ, Nat.add_comm]

theorem pack_low (b : BitVec 8) (bytes : List (BitVec 8)) (fits : 8 ≤ w) :
    (pack (b :: bytes) : BitVec w).setWidth 8 = b := by
  apply BitVec.eq_of_getLsbD_eq
  intro i inside
  simp [pack, inside, show i < w by omega]

theorem pack_rest (b : BitVec 8) (bytes : List (BitVec 8)) (fits : 8 * bytes.length + 8 ≤ w) :
    (pack (b :: bytes) : BitVec w) >>> 8 = pack bytes := by
  rw [pack, BitVec.ushiftRight_xor_distrib, byte_moved_out, pack_moved bytes fits,
    BitVec.zero_xor]

theorem pack_injective {a b : List (BitVec 8)} (lengths : a.length = b.length)
    (fits : 8 * a.length ≤ w) (same : (pack a : BitVec w) = pack b) : a = b := by
  induction a generalizing b with
  | nil => exact (List.length_eq_zero_iff.mp lengths.symm).symm
  | cons x a ih =>
    cases b with
    | nil => cases lengths
    | cons y b =>
      simp only [List.length_cons, Nat.add_right_cancel_iff] at lengths fits
      have first : x = y := by
        rw [← pack_low (w := w) x a (by omega), same, pack_low y b (by omega)]
      have rest : (pack a : BitVec w) = pack b := by
        rw [← pack_rest x a (by omega), same, pack_rest y b (by omega)]
      rw [first, ih lengths (by omega) rest]

/-- Two strings that differ only in a window no longer than the register leave different
    registers, whatever comes before and after the window. -/
theorem register_separates {poly : BitVec w} (top : poly.msb = true) (c : BitVec w)
    (front back : List (BitVec 8)) {a b : List (BitVec 8)} (lengths : a.length = b.length)
    (fits : 8 * a.length ≤ w)
    (same : register poly c (front ++ a ++ back) = register poly c (front ++ b ++ back)) :
    a = b := by
  simp only [register_append] at same
  have window := register_injective top same
  rw [register_pack _ _ a fits, register_pack _ _ b (lengths ▸ fits), lengths] at window
  have words := bitSteps_injective top window
  exact pack_injective lengths fits ((BitVec.xor_right_inj _).mp words)

end Window

end CrcRegister
