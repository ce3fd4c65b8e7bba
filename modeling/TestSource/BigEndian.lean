import Mathlib.Data.List.Induction
import Mathlib.Tactic.Common
import Mathlib.Tactic.Ring

/- Big-endian numbers in lists of bytes, and what an accumulator of w bits makes of them when
   it is shifted by one byte and the next byte is added, zero-extended or sign-extended. -/
namespace BigEndian
variable {w : Nat}

def value (bytes : List (BitVec 8)) : Nat := bytes.foldl (fun n b => n * 256 + b.toNat) 0

def bytesOf : Nat → Nat → List (BitVec 8)
  | 0, _ => []
  | n + 1, v => bytesOf n (v / 256) ++ [BitVec.ofNat 8 v]

def accumulate (extend : BitVec 8 → BitVec w) (start : BitVec w) (bytes : List (BitVec 8)) : BitVec w :=
  bytes.foldl (fun d b => (d <<< 8) + extend b) start

theorem value_concat (bytes : List (BitVec 8)) (b : BitVec 8) :
    value (bytes ++ [b]) = value bytes * 256 + b.toNat := by
  simp [value]

@[simp]
theorem length_bytesOf (n v : Nat) : (bytesOf n v).length = n := by
  induction n generalizing v with
  | zero => rfl
  | succ n ih => simp [bytesOf, ih]

theorem value_bytesOf (n v : Nat) (small : v < 256 ^ n) : value (bytesOf n v) = v := by
  induction n generalizing v with
  | zero =>
    rw [Nat.pow_zero] at small
    rw [Nat.lt_one_iff.mp small]
    rfl
  | succ n ih =>
    rw [Nat.pow_succ] at small
    rw [bytesOf, value_concat, ih (v / 256) (by omega), BitVec.toNat_ofNat]
    omega

theorem bytesOf_value (bytes : List (BitVec 8)) : bytesOf bytes.length (value bytes) = bytes := by
  induction bytes using List.reverseRecOn with
  | nil => rfl
  | append_singleton bytes b ih =>
    have small := b.isLt
    have high : (value bytes * 256 + b.toNat) / 256 = value bytes := by omega
    have low : BitVec.ofNat 8 (value bytes * 256 + b.toNat) = b := by
      apply BitVec.eq_of_toNat_eq
      rw [BitVec.toNat_ofNat]
      omega
    rw [List.length_append, List.length_singleton, bytesOf, value_concat, high, ih, low]

theorem foldl_value (bytes : List (BitVec 8)) (n : Nat) :
    bytes.foldl (fun n b => n * 256 + b.toNat) n = n * 256 ^ bytes.length + value bytes := by
  induction bytes generalizing n with
  | nil => simp [value]
  | cons b bytes ih =>
    simp only [value, List.foldl_cons, List.length_cons, ih (n * 256 + b.toNat), ih (0 * 256 + b.toNat)]
    ring

theorem value_cons (a : BitVec 8) (bytes : List (BitVec 8)) :
    value (a :: bytes) = a.toNat * 256 ^ bytes.length + value bytes := by
  rw [← foldl_value, value, List.foldl_cons, Nat.zero_mul, Nat.zero_add]

theorem value_lt (bytes : List (BitVec 8)) : value bytes < 256 ^ bytes.length := by
  induction bytes with
  | nil => decide
  | cons b bytes ih =>
    have byte : (b.toNat + 1) * 256 ^ bytes.length ≤ 256 * 256 ^ bytes.length :=
      Nat.mul_le_mul_right _ b.isLt
    rw [Nat.succ_mul] at byte
    rw [value_cons, List.length_cons, Nat.pow_succ']
    omega

theorem value_zero_iff (bytes : List (BitVec 8)) : value bytes = 0 ↔ ∀ b ∈ bytes, b = 0 := by
  induction bytes with
  | nil => simp [value]
  | cons b bytes ih =>
    have unit : 256 ^ bytes.length ≠ 0 := Nat.pos_iff_ne_zero.mp (Nat.pow_pos (by decide))
    have zero : b = 0 ↔ b.toNat = 0 := by
      rw [← BitVec.toNat_inj]
      rfl
    rw [value_cons, Nat.add_eq_zero_iff, Nat.mul_eq_zero, ih, List.forall_mem_cons, zero]
    simp only [unit, or_false]

theorem two_pow_bytes (n : Nat) : 2 ^ (8 * n) = 256 ^ n := Nat.pow_mul 2 8 n

theorem shift_add (n x : Int) :
    (BitVec.ofInt w n <<< 8) + BitVec.ofInt w x = BitVec.ofInt w (n * 256 + x) := by
  have byte : BitVec.twoPow w 8 = BitVec.ofInt w 256 := by
    apply BitVec.eq_of_toNat_eq
    rw [BitVec.toNat_twoPow, BitVec.toNat_ofInt]
    rfl
  rw [BitVec.shiftLeft_eq_mul_twoPow, byte, ← BitVec.ofInt_mul, ← BitVec.ofInt_add]

theorem accumulate_ofInt {extend : BitVec 8 → BitVec w} {digit : BitVec 8 → Int}
    (extended : ∀ b, extend b = BitVec.ofInt w (digit b)) (bytes : List (BitVec 8)) (n : Int) :
    accumulate extend (BitVec.ofInt w n) bytes =
      BitVec.ofInt w (bytes.foldl (fun n b => n * 256 + digit b) n) := by
  induction bytes generalizing n with
  | nil => rfl
  | cons b bytes ih =>
    have step : accumulate extend (BitVec.ofInt w n) (b :: bytes) =
        accumulate extend ((BitVec.ofInt w n <<< 8) + extend b) bytes := rfl
    rw [step, extended, shift_add, ih]
    rfl

theorem foldl_unsigned (bytes : List (BitVec 8)) (n : Nat) :
    bytes.foldl (fun n b => n * 256 + (b.toNat : Int)) (n : Int) =
      (bytes.foldl (fun n b => n * 256 + b.toNat) n : Nat) := by
  induction bytes generalizing n with
  | nil => rfl
  | cons b bytes ih =>
    rw [List.foldl_cons, List.foldl_cons, ← ih]
    push_cast
    rfl

theorem accumulate_unsigned {bytes : List (BitVec 8)} (fits : 8 * bytes.length ≤ w) :
    (accumulate (fun b => b.setWidth w) 0 bytes).toNat = value bytes := by
  have room : 256 ^ bytes.length ≤ 2 ^ w := by
    rw [← two_pow_bytes]
    exact Nat.pow_le_pow_right (by decide) fits
  have widened : ∀ b : BitVec 8, b.setWidth w = BitVec.ofInt w (b.toNat : Int) := by
    intro b
    rw [BitVec.ofInt_natCast, BitVec.ofNat_toNat]
  have sum : accumulate (fun b => b.setWidth w) (BitVec.ofInt w (0 : Nat)) bytes = _ :=
    accumulate_ofInt widened bytes (0 : Nat)
  have small := value_lt bytes
  have cut : (value bytes : Int) % ((2 ^ w : Nat) : Int) = value bytes :=
    Int.emod_eq_of_lt (by omega) (by omega)
  rw [foldl_unsigned] at sum
  have zero : BitVec.ofInt w (0 : Nat) = 0 := rfl
  rw [← zero, sum, BitVec.toNat_ofInt]
  exact congrArg Int.toNat cut

/-- The byte that a sign extension takes from the sum above it. -/
def borrow (b : BitVec 8) : BitVec 8 := if 128 ≤ b.toNat then 1 else 0

theorem toInt_borrow (b : BitVec 8) : b.toInt = b.toNat - 256 * ((borrow b).toNat : Int) := by
  have byte := b.isLt
  rw [BitVec.toInt_eq_toNat_cond, borrow]
  by_cases high : 128 ≤ b.toNat
  · rw [if_pos high, if_neg (by omega)]
    rfl
  · rw [if_neg high, if_pos (by omega)]
    simp

theorem foldl_signed (bytes : List (BitVec 8)) (n : Int) :
    bytes.foldl (fun n b => n * 256 + b.toInt) n =
      n * 256 ^ bytes.length + value bytes - 256 * (value (bytes.map borrow) : Int) := by
  induction bytes generalizing n with
  | nil => simp [value]
  | cons b bytes ih =>
    rw [List.foldl_cons, ih, toInt_borrow, List.map_cons, value_cons, value_cons, List.length_map,
      List.length_cons]
    push_cast
    ring

/-- Sign-extended bytes that fill the accumulator give the number they spell exactly when none
    behind the first is negative. -/
theorem accumulate_signed_iff {a : BitVec 8} {bytes : List (BitVec 8)}
    (fills : w = 8 * (bytes.length + 1)) :
    (accumulate (fun b => b.signExtend w) (a.signExtend w) bytes).toNat = value (a :: bytes) ↔
      ∀ b ∈ bytes, b.toNat < 128 := by
  have whole : 2 ^ w = 256 ^ (bytes.length + 1) := by rw [fills, two_pow_bytes]
  have sum : accumulate (fun b => b.signExtend w) (BitVec.ofInt w a.toInt) bytes = _ :=
    accumulate_ofInt (fun b => rfl) bytes a.toInt
  have small : value (a :: bytes) < 2 ^ w := by
    rw [whole]
    exact value_lt (a :: bytes)
  have lost : value (bytes.map borrow) < 256 ^ bytes.length := by
    have bound := value_lt (bytes.map borrow)
    rw [List.length_map] at bound
    exact bound
  rw [Nat.pow_succ'] at whole
  -- what the first byte loses is a multiple of 2 ^ w
  have parts : a.toInt * 256 ^ bytes.length + value bytes - 256 * (value (bytes.map borrow) : Int) =
      (value (a :: bytes) - 256 * (value (bytes.map borrow) : Int)) -
        ((2 ^ w : Nat) : Int) * (borrow a).toNat := by
    rw [toInt_borrow, value_cons, whole]
    push_cast
    ring
  have cut : (accumulate (fun b => b.signExtend w) (a.signExtend w) bytes).toNat =
      ((value (a :: bytes) - 256 * (value (bytes.map borrow) : Int)) % ((2 ^ w : Nat) : Int)).toNat := by
    have first : a.signExtend w = BitVec.ofInt w a.toInt := rfl
    rw [first, sum, BitVec.toNat_ofInt, foldl_signed, parts, Int.sub_mul_emod_self_left]
  have none_lost : value (bytes.map borrow) = 0 ↔ ∀ b ∈ bytes, b.toNat < 128 := by
    rw [value_zero_iff, List.forall_mem_map]
    apply forall_congr'
    intro b
    apply imp_congr_right
    intro _
    unfold borrow
    split
    · simp; omega
    · simp; omega
  rw [cut, ← none_lost]
  generalize value (a :: bytes) = v at small
  generalize value (bytes.map borrow) = s at lost
  generalize 2 ^ w = m at small whole
  by_cases enough : 256 * s ≤ v
  · rw [Int.emod_eq_of_lt (by omega) (by omega)]
    omega
  · rw [← Int.add_emod_right, Int.emod_eq_of_lt (by omega) (by omega)]
    omega

end BigEndian
