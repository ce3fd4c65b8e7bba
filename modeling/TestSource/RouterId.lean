import TestSource.Numeral
import Mathlib.Data.List.Induction

/- test_routerid.c of C_TEST: the device id that main makes of a serial number. An int is a
   word of 32 bits, a long long one of 64. -/
namespace TestSource.RouterId
open Download

def charInt (c : Byte) : BitVec 32 := c.signExtend 32

/-- The sum of strtohex after one more character. -/
def hexStep (sum : BitVec 32) (c : Byte) : BitVec 32 :=
  if 48 ≤ c ∧ c ≤ 57 then sum + (sum * 16 + charInt c - 48)
  else if c ≤ 102 ∧ 97 ≤ c then sum + (sum * 16 + charInt c - 97 + 10)
  else if c ≤ 70 ∧ 65 ≤ c then sum + (sum * 16 + charInt c - 65 + 10)
  else sum

def strtohex (str : List Byte) : BitVec 32 := (str.takeWhile (· ≠ 0)).foldl hexStep 0

def convertToU64High (nHigh : BitVec 32) : BitVec 64 :=
  Nat.repeat (· * 16) 8 (nHigh.signExtend 64)

def productVersion (c : Byte) : Option (BitVec 64) :=
  if c = 84 then some 0
  else if c = 80 then some 1
  else if c = 77 then some 2
  else none

def lowIntNo (nSerialCnt nBatch nMounth nYear : BitVec 32) : BitVec 32 :=
  nSerialCnt ||| nBatch <<< 17 ||| nMounth <<< 21 ||| nYear <<< 25

/-- The two long longs make the whole a long long, which is cut to an int. -/
def highIntNo (nYear nFactoryNo : BitVec 32) (nProductVersion nProductNo : BitVec 64) : BitVec 32 :=
  ((nYear.sshiftRight 7 ||| nFactoryNo <<< 1).signExtend 64 ||| nProductVersion <<< 6 |||
    nProductNo <<< 8).setWidth 32

/-- What main prints as the device id; a version letter it does not know ends it. -/
def deviceId (z : WordSize) (strSN : List Byte) : Option (BitVec 64) := do
  let char k := strSN.getD k 0
  let nProductNo := ((charInt (char 0) - 65) * 26 + (charInt (char 1) - 65) + 1).signExtend 64
  let nProductVersion ← productVersion (char 2)
  let nFactoryNo := charInt (char 3) - 65 + 1
  let nYear := strtohex ((strSN.drop 4).take 2)
  let nMounth := strtohex [char 6]
  let nBatch := BitVec.ofInt 32 (atoi z [char 7])
  let nSerialCnt := BitVec.ofInt 32 (atoi z ((strSN.drop 8).take 5))
  some (convertToU64High (highIntNo nYear nFactoryNo nProductVersion nProductNo) +
    (lowIntNo nSerialCnt nBatch nMounth nYear).signExtend 64)

section Words

theorem convertToU64High_eq (nHigh : BitVec 32) :
    convertToU64High nHigh = nHigh.signExtend 64 * 4294967296#64 := by
  show nHigh.signExtend 64 * 16 * 16 * 16 * 16 * 16 * 16 * 16 * 16 = _
  simp only [BitVec.mul_assoc]
  rfl

theorem signExtend_low (x : BitVec 32) : (x.signExtend 64).toNat % 4294967296 = x.toNat := by
  have small := x.isLt
  rw [BitVec.toNat_signExtend]
  simp only [BitVec.toNat_setWidth]
  split <;> omega

theorem words_eq_iff {high low high' low' : BitVec 32} :
    convertToU64High high + low.signExtend 64 = convertToU64High high' + low'.signExtend 64 ↔
      high = high' ∧ low = low' := by
  constructor
  · intro same
    rw [convertToU64High_eq, convertToU64High_eq] at same
    have values := congrArg BitVec.toNat same
    rw [BitVec.toNat_add, BitVec.toNat_add, BitVec.toNat_mul, BitVec.toNat_mul, BitVec.toNat_ofNat] at values
    have highLow := signExtend_low high
    have highLow' := signExtend_low high'
    have lowLow := signExtend_low low
    have lowLow' := signExtend_low low'
    have sameLow : low = low' := by
      apply BitVec.eq_of_toNat_eq
      omega
    subst sameLow
    refine ⟨?_, rfl⟩
    apply BitVec.eq_of_toNat_eq
    omega
  · rintro ⟨rfl, rfl⟩
    rfl

theorem or_shifted {x p : Nat} (y : Nat) {i : Nat} (size : p = Nat.pow 2 i) (below : x < p) :
    x ||| y <<< i = x + y * p := by
  subst size
  rw [Nat.or_comm, ← Nat.shiftLeft_add_eq_or_of_lt below, Nat.shiftLeft_eq]
  exact Nat.add_comm _ _

theorem lowIntNo_toNat {nSerialCnt nBatch nMounth nYear : BitVec 32}
    (serialFits : nSerialCnt.toNat < 131072) (batchFits : nBatch.toNat < 16)
    (monthFits : nMounth.toNat < 16) :
    (lowIntNo nSerialCnt nBatch nMounth nYear).toNat = nSerialCnt.toNat + nBatch.toNat * 131072 +
      nMounth.toNat * 2097152 + nYear.toNat % 128 * 33554432 := by
  have batch : (nBatch <<< 17).toNat = nBatch.toNat <<< 17 := by
    rw [BitVec.toNat_shiftLeft, Nat.shiftLeft_eq]
    omega
  have month : (nMounth <<< 21).toNat = nMounth.toNat <<< 21 := by
    rw [BitVec.toNat_shiftLeft, Nat.shiftLeft_eq]
    omega
  have year : (nYear <<< 25).toNat = (nYear.toNat % 128) <<< 25 := by
    rw [BitVec.toNat_shiftLeft, Nat.shiftLeft_eq, Nat.shiftLeft_eq]
    omega
  rw [lowIntNo, BitVec.toNat_or, BitVec.toNat_or, BitVec.toNat_or, batch, month, year,
    or_shifted (i := 17) (p := 131072) _ rfl (by omega),
    or_shifted (i := 21) (p := 2097152) _ rfl (by omega), or_shifted (i := 25) (p := 33554432) _ rfl (by omega)]

theorem msb_small {w n : Nat} {x : BitVec w} (small : 2 * x.toNat < n) (size : n = Nat.pow 2 w) :
    x.msb = false := by
  rw [BitVec.msb_eq_false_iff_two_mul_lt]
  exact Nat.lt_of_lt_of_eq small size

theorem signExtend_small {x : BitVec 32} (small : x.toNat < 2147483648) :
    (x.signExtend 64).toNat = x.toNat := by
  rw [BitVec.signExtend_eq_setWidth_of_msb_false (msb_small (n := 4294967296) (by omega) rfl), BitVec.toNat_setWidth]
  omega

theorem factory_year_toNat {nYear nFactoryNo : BitVec 32} (yearFits : nYear.toNat < 512)
    (factoryFits : nFactoryNo.toNat < 32) :
    (nYear.sshiftRight 7 ||| nFactoryNo <<< 1).toNat = nYear.toNat / 128 ||| nFactoryNo.toNat * 2 := by
  have year : (nYear.sshiftRight 7).toNat = nYear.toNat / 128 := by
    rw [BitVec.sshiftRight_eq_of_msb_false (msb_small (n := 4294967296) (by omega) rfl), BitVec.toNat_ushiftRight,
      Nat.shiftRight_eq_div_pow]
  have factory : (nFactoryNo <<< 1).toNat = nFactoryNo.toNat * 2 := by
    rw [BitVec.toNat_shiftLeft, Nat.shiftLeft_eq]
    omega
  rw [BitVec.toNat_or, year, factory]

theorem factory_year_lt {year factory : Nat} (yearFits : year < 512) (factoryFits : factory < 32) :
    year / 128 ||| factory * 2 < 64 := by
  have below : year / 128 ||| factory * 2 < 2 ^ 6 := Nat.or_lt_two_pow (by omega) (by omega)
  exact below

theorem highIntNo_toNat {nYear nFactoryNo : BitVec 32} {nProductVersion nProductNo : BitVec 64}
    (yearFits : nYear.toNat < 512) (factoryFits : nFactoryNo.toNat < 32)
    (versionFits : nProductVersion.toNat < 4) (productFits : nProductNo.toNat < 1024) :
    (highIntNo nYear nFactoryNo nProductVersion nProductNo).toNat =
      (nYear.toNat / 128 ||| nFactoryNo.toNat * 2) + nProductVersion.toNat * 64 +
        nProductNo.toNat * 256 := by
  have bound := factory_year_lt yearFits factoryFits
  have lowest := factory_year_toNat yearFits factoryFits
  have extended : ((nYear.sshiftRight 7 ||| nFactoryNo <<< 1).signExtend 64).toNat =
      nYear.toNat / 128 ||| nFactoryNo.toNat * 2 := by
    rw [signExtend_small (by omega), lowest]
  have version : (nProductVersion <<< 6).toNat = nProductVersion.toNat <<< 6 := by
    rw [BitVec.toNat_shiftLeft, Nat.shiftLeft_eq]
    omega
  have product : (nProductNo <<< 8).toNat = nProductNo.toNat <<< 8 := by
    rw [BitVec.toNat_shiftLeft, Nat.shiftLeft_eq]
    omega
  rw [highIntNo, BitVec.toNat_setWidth, BitVec.toNat_or, BitVec.toNat_or, extended, version, product,
    or_shifted (i := 6) (p := 64) _ rfl bound, or_shifted (i := 8) (p := 256) _ rfl (by omega)]
  omega

end Words

section Characters

def isUpper (b : Byte) : Bool := 65 ≤ b && b ≤ 90

def isHexDigit (b : Byte) : Bool := isDigit b || (65 ≤ b && b ≤ 70)

def hexValue (b : Byte) : Nat := if b ≤ 57 then b.toNat - 48 else b.toNat - 55

theorem upper_bounds {b : Byte} (upper : isUpper b = true) : 65 ≤ b.toNat ∧ b.toNat ≤ 90 := by
  simp only [isUpper, Bool.and_eq_true, decide_eq_true_eq, BitVec.le_def] at upper
  exact upper

theorem charInt_toNat {b : Byte} (ascii : b.toNat < 128) : (charInt b).toNat = b.toNat := by
  rw [charInt, BitVec.signExtend_eq_setWidth_of_msb_false (msb_small (n := 256) (by omega) rfl),
    BitVec.toNat_setWidth]
  omega

theorem charInt_upper {b : Byte} (upper : isUpper b = true) : (charInt b - 65).toNat = b.toNat - 65 := by
  have bounds := upper_bounds upper
  have letter : (65 : BitVec 32).toNat = 65 := rfl
  rw [BitVec.toNat_sub, charInt_toNat (by omega), letter]
  omega

/-- The step of strtohex multiplies by seventeen. -/
theorem hexStep_toNat {b : Byte} (hex : isHexDigit b = true) (sum : BitVec 32) :
    (hexStep sum b).toNat = (17 * sum.toNat + hexValue b) % 4294967296 := by
  simp only [isHexDigit, Bool.or_eq_true, Bool.and_eq_true, decide_eq_true_eq] at hex
  rcases hex with digit | letter
  · have bounds := digit_bounds digit
    have low : 48 ≤ b ∧ b ≤ 57 := by
      rw [BitVec.le_def, BitVec.le_def]
      exact bounds
    rw [hexStep, if_pos low, hexValue, if_pos low.2]
    have zero : (48 : BitVec 32).toNat = 48 := rfl
    have sixteen : (16 : BitVec 32).toNat = 16 := rfl
    rw [BitVec.toNat_add, BitVec.toNat_sub, BitVec.toNat_add, BitVec.toNat_mul, charInt_toNat (by omega),
      zero, sixteen]
    omega
  · have bounds : 65 ≤ b.toNat ∧ b.toNat ≤ 70 := by
      rw [BitVec.le_def, BitVec.le_def] at letter
      exact letter
    have noDigit : ¬b ≤ 57 := by
      rw [BitVec.le_def]
      have nine : (57 : Byte).toNat = 57 := rfl
      omega
    have noLower : ¬97 ≤ b := by
      rw [BitVec.le_def]
      have a : (97 : Byte).toNat = 97 := rfl
      omega
    rw [hexStep, if_neg (fun digit => noDigit digit.2), if_neg (fun lower => noLower lower.2),
      if_pos letter.symm, hexValue, if_neg noDigit]
    have ten : (10 : BitVec 32).toNat = 10 := rfl
    have zero : (65 : BitVec 32).toNat = 65 := rfl
    have sixteen : (16 : BitVec 32).toNat = 16 := rfl
    rw [BitVec.toNat_add, BitVec.toNat_add, BitVec.toNat_sub, BitVec.toNat_add, BitVec.toNat_mul,
      charInt_toNat (by omega), zero, sixteen, ten]
    omega

theorem hex_bounds {b : Byte} (hex : isHexDigit b = true) :
    (48 ≤ b.toNat ∧ b.toNat ≤ 57 ∧ hexValue b = b.toNat - 48) ∨
      (65 ≤ b.toNat ∧ b.toNat ≤ 70 ∧ hexValue b = b.toNat - 55) := by
  revert b
  decide +kernel

theorem hexValue_lt {b : Byte} (hex : isHexDigit b = true) : hexValue b < 16 := by
  have bounds := hex_bounds hex
  omega

theorem hexValue_inj {b c : Byte} (hex : isHexDigit b = true) (other : isHexDigit c = true)
    (same : hexValue b = hexValue c) : b = c := by
  have bounds := hex_bounds hex
  have bounds' := hex_bounds other
  apply BitVec.eq_of_toNat_eq
  omega

end Characters

section Positional

def isXDigit (b : Byte) : Bool := isHexDigit b || (97 ≤ b && b ≤ 102)

def xdigitValue (b : Byte) : Nat := if b ≤ 70 then hexValue b else b.toNat - 87

theorem xdigit_bounds {b : Byte} (digit : isXDigit b = true) :
    xdigitValue b < 16 ∧ b ≠ 0 := by
  revert b
  decide +kernel

theorem hexStep_xdigit {b : Byte} (digit : isXDigit b = true) (sum : BitVec 32) :
    (hexStep sum b).toNat = (17 * sum.toNat + xdigitValue b) % 4294967296 := by
  have split := digit
  simp only [isXDigit, Bool.or_eq_true, Bool.and_eq_true, decide_eq_true_eq] at split
  rcases split with hex | small
  · have bounds := hex_bounds hex
    have upto : b ≤ 70 := by
      rw [BitVec.le_def]
      have letter : (70 : Byte).toNat = 70 := rfl
      omega
    rw [hexStep_toNat hex, xdigitValue, if_pos upto]
  · have bounds : 97 ≤ b.toNat ∧ b.toNat ≤ 102 := by
      rw [BitVec.le_def, BitVec.le_def] at small
      exact small
    have behind {c : Byte} (before : c.toNat < 97) : ¬b ≤ c := by
      rw [BitVec.le_def]
      omega
    rw [hexStep, if_neg (fun digit => behind (by decide) digit.2), if_pos small.symm, xdigitValue,
      if_neg (behind (by decide))]
    have ten : (10 : BitVec 32).toNat = 10 := rfl
    have zero : (97 : BitVec 32).toNat = 97 := rfl
    have sixteen : (16 : BitVec 32).toNat = 16 := rfl
    rw [BitVec.toNat_add, BitVec.toNat_add, BitVec.toNat_sub, BitVec.toNat_add, BitVec.toNat_mul,
      charInt_toNat (by omega), zero, sixteen, ten]
    omega

def positional (base : Nat) (s : List Byte) : Nat := s.foldl (fun n b => base * n + xdigitValue b) 0

theorem positional_snoc (base : Nat) (s : List Byte) (b : Byte) :
    positional base (s ++ [b]) = base * positional base s + xdigitValue b := by
  rw [positional, List.foldl_append]
  rfl

variable {s : List Byte}

theorem foldl_hexStep (digits : ∀ b ∈ s, isXDigit b = true) :
    (s.foldl hexStep 0).toNat = positional 17 s % 4294967296 := by
  induction s using List.reverseRecOn with
  | nil => rfl
  | append_singleton s b ih =>
    have before := ih fun x mem => digits x (List.mem_append_left [b] mem)
    have last : (s ++ [b]).foldl hexStep 0 = hexStep (s.foldl hexStep 0) b := List.foldl_append
    rw [last, hexStep_xdigit (digits b (by simp)), before, positional_snoc]
    omega

theorem strtohex_positional (digits : ∀ b ∈ s, isXDigit b = true) :
    (strtohex s).toNat = positional 17 s % 4294967296 := by
  have noNul : 0 ∉ s := fun mem => (xdigit_bounds (digits 0 mem)).2 rfl
  rw [strtohex, Occurs.takeWhile_absent noNul, foldl_hexStep digits]

theorem hex_xdigit {b : Byte} (hex : isHexDigit b = true) : isXDigit b = true ∧ xdigitValue b = hexValue b := by
  revert b
  decide +kernel

theorem strtohex_one {b : Byte} (hex : isHexDigit b = true) : (strtohex [b]).toNat = hexValue b := by
  have small := hexValue_lt hex
  obtain ⟨digit, value⟩ := hex_xdigit hex
  rw [strtohex_positional (by simp [digit]), positional, List.foldl_cons, List.foldl_nil, value]
  omega

theorem strtohex_two {b c : Byte} (first : isHexDigit b = true) (second : isHexDigit c = true) :
    (strtohex [b, c]).toNat = 17 * hexValue b + hexValue c := by
  have small := hexValue_lt first
  have small' := hexValue_lt second
  obtain ⟨digit, value⟩ := hex_xdigit first
  obtain ⟨digit', value'⟩ := hex_xdigit second
  rw [strtohex_positional (by simp [digit, digit']), positional, List.foldl_cons, List.foldl_cons, List.foldl_nil,
    value, value']
  omega

theorem positional_small (below : positional 16 s < 16) : positional 17 s = positional 16 s := by
  induction s using List.reverseRecOn with
  | nil => rfl
  | append_singleton s b ih =>
    rw [positional_snoc] at below ⊢
    have before := ih (by omega)
    rw [positional_snoc]
    omega

theorem positional_le : positional 16 s ≤ positional 17 s := by
  induction s using List.reverseRecOn with
  | nil => exact Nat.le_refl _
  | append_singleton s b ih =>
    rw [positional_snoc, positional_snoc]
    omega

theorem positional_lt (digits : ∀ b ∈ s, isXDigit b = true) (above : 16 ≤ positional 16 s) :
    positional 16 s < positional 17 s := by
  induction s using List.reverseRecOn with
  | nil => cases above
  | append_singleton s b _ =>
    have last := xdigit_bounds (digits b (by simp))
    have before := positional_le (s := s)
    rw [positional_snoc] at above ⊢
    rw [positional_snoc]
    omega

theorem positional_bound {m : Nat} (first : m ≤ 16) (digits : ∀ b ∈ s, isXDigit b = true) (j : Nat)
    (below : positional 16 s < m * Nat.pow 16 j) :
    16 * positional 17 s + 15 ≤ (16 * m - 1) * Nat.pow 17 j := by
  induction j generalizing s with
  | zero =>
    have one : m * Nat.pow 16 0 = m := Nat.mul_one m
    have same := positional_small (s := s) (by omega)
    have start : (16 * m - 1) * Nat.pow 17 0 = 16 * m - 1 := Nat.mul_one _
    omega
  | succ j ih =>
    have more : m * Nat.pow 16 (j + 1) = 16 * (m * Nat.pow 16 j) := by
      rw [show Nat.pow 16 (j + 1) = Nat.pow 16 j * 16 from rfl, ← Nat.mul_assoc, Nat.mul_comm]
    have longer : (16 * m - 1) * Nat.pow 17 (j + 1) = 17 * ((16 * m - 1) * Nat.pow 17 j) := by
      rw [show Nat.pow 17 (j + 1) = Nat.pow 17 j * 17 from rfl, ← Nat.mul_assoc, Nat.mul_comm]
    rw [more] at below
    rw [longer]
    rcases List.eq_nil_or_concat s with rfl | ⟨s, b, rfl⟩
    · have empty := ih (s := []) (by simp) (by exact Nat.pos_of_mul_pos_left below)
      exact Nat.le_trans empty (Nat.le_mul_of_pos_left _ (by decide))
    · rw [List.concat_eq_append] at digits below ⊢
      have last := xdigit_bounds (digits b (by simp))
      rw [positional_snoc] at below ⊢
      have before := ih (s := s) (fun x mem => digits x (by simp [mem])) (by omega)
      omega

/-- strtohex is right about the numbers of one digit and about no others. -/
theorem strtohex_base_sixteen_iff (s : List Byte) (digits : ∀ b ∈ s, isXDigit b = true)
    (below : positional 16 s < 2147483648) :
    (strtohex s).toInt = positional 16 s ↔ positional 16 s < 16 := by
  have bound := positional_bound (m := 8) (by decide) digits 7 below
  have limit : (16 * 8 - 1) * Nat.pow 17 7 = 52113011471 := rfl
  have value : (strtohex s).toNat = positional 17 s := by
    rw [strtohex_positional digits]
    omega
  rw [BitVec.toInt_eq_toNat_cond, value]
  constructor
  · intro same
    by_contra above
    have larger := positional_lt digits (by omega)
    split at same <;> omega
  · intro small
    have same := positional_small small
    rw [if_pos (by omega), same]

theorem one_digit_read : (strtohex (ascii ['0', 'c'])).toInt = positional 16 (ascii ['0', 'c']) :=
  (strtohex_base_sixteen_iff (ascii ['0', 'c']) (by decide) (by decide)).mpr (by decide)

theorem two_digits_misread : (∀ b ∈ ascii ['1', '0'], isXDigit b = true) ∧
    positional 16 (ascii ['1', '0']) = 16 ∧ (strtohex (ascii ['1', '0'])).toInt = 17 := by
  decide

end Positional

section SerialNumbers

/-- Two upper-case letters, one of T, P and M, a letter, three hex digits, and six digits. -/
structure SerialNumber where
  product0 : Byte
  product1 : Byte
  version : Byte
  factory : Byte
  year0 : Byte
  year1 : Byte
  month : Byte
  batch : Byte
  serial : List Byte
  product0_upper : isUpper product0 = true
  product1_upper : isUpper product1 = true
  version_known : version ∈ ascii ['T', 'P', 'M']
  factory_upper : isUpper factory = true
  year0_hex : isHexDigit year0 = true
  year1_hex : isHexDigit year1 = true
  month_hex : isHexDigit month = true
  batch_digit : isDigit batch = true
  serial_length : serial.length = 5
  serial_digits : ∀ b ∈ serial, isDigit b = true

def SerialNumber.text (s : SerialNumber) : List Byte :=
  s.product0 :: s.product1 :: s.version :: s.factory :: s.year0 :: s.year1 :: s.month :: s.batch :: s.serial

/-- The numbers that the fields of a serial number stand for. A year may need a ninth bit. -/
structure Fields where
  product : Nat
  version : Nat
  factory : Nat
  year : Nat
  month : Nat
  batch : Nat
  serial : Nat
  product_lt : product < 1024
  version_lt : version < 4
  factory_lt : factory < 32
  year_lt : year < 512
  month_lt : month < 16
  batch_lt : batch < 16
  serial_lt : serial < 131072

def Fields.high (f : Fields) : Nat :=
  (f.year / 128 ||| f.factory * 2) + f.version * 64 + f.product * 256

def Fields.low (f : Fields) : Nat :=
  f.serial + f.batch * 131072 + f.month * 2097152 + f.year % 128 * 33554432

theorem highIntNo_fields (f : Fields) {nYear nFactoryNo : BitVec 32}
    {nProductVersion nProductNo : BitVec 64} (year : nYear.toNat = f.year)
    (factory : nFactoryNo.toNat = f.factory) (version : nProductVersion.toNat = f.version)
    (product : nProductNo.toNat = f.product) :
    (highIntNo nYear nFactoryNo nProductVersion nProductNo).toNat = f.high := by
  have yearFits := f.year_lt
  have factoryFits := f.factory_lt
  have versionFits := f.version_lt
  have productFits := f.product_lt
  rw [highIntNo_toNat (by omega) (by omega) (by omega) (by omega), year, factory, version, product,
    Fields.high]

theorem lowIntNo_fields (f : Fields) {nSerialCnt nBatch nMounth nYear : BitVec 32}
    (serial : nSerialCnt.toNat = f.serial) (batch : nBatch.toNat = f.batch)
    (month : nMounth.toNat = f.month) (year : nYear.toNat = f.year) :
    (lowIntNo nSerialCnt nBatch nMounth nYear).toNat = f.low := by
  have serialFits := f.serial_lt
  have batchFits := f.batch_lt
  have monthFits := f.month_lt
  rw [lowIntNo_toNat (by omega) (by omega) (by omega), serial, batch, month, year, Fields.low]

def versionNumber (c : Byte) : Nat := if c = 84 then 0 else if c = 80 then 1 else 2

theorem versionNumber_lt (c : Byte) : versionNumber c < 4 := by
  unfold versionNumber
  split
  · decide
  · split <;> decide

theorem productVersion_known {c : Byte} (known : c ∈ ascii ['T', 'P', 'M']) :
    productVersion c = some (BitVec.ofNat 64 (versionNumber c)) := by
  revert c
  decide +kernel

theorem product_toNat {b c : Byte} (first : isUpper b = true) (second : isUpper c = true) :
    (((charInt b - 65) * 26 + (charInt c - 65) + 1).signExtend 64).toNat =
      (b.toNat - 65) * 26 + (c.toNat - 65) + 1 := by
  have bounds := upper_bounds first
  have bounds' := upper_bounds second
  have letters : (26 : BitVec 32).toNat = 26 := rfl
  have one : (1 : BitVec 32).toNat = 1 := rfl
  have value : ((charInt b - 65) * 26 + (charInt c - 65) + 1).toNat =
      (b.toNat - 65) * 26 + (c.toNat - 65) + 1 := by
    rw [BitVec.toNat_add, BitVec.toNat_add, BitVec.toNat_mul, charInt_upper first, charInt_upper second,
      letters, one]
    omega
  rw [signExtend_small (by omega), value]

theorem factory_toNat {b : Byte} (upper : isUpper b = true) :
    (charInt b - 65 + 1).toNat = b.toNat - 64 := by
  have bounds := upper_bounds upper
  have one : (1 : BitVec 32).toNat = 1 := rfl
  rw [BitVec.toNat_add, charInt_upper upper, one]
  omega

theorem number_few {t : List Byte} (digits : ∀ b ∈ t, isDigit b = true) (few : t.length ≤ 5) :
    number t < 100000 := by
  have size : 10 ^ t.length ≤ 10 ^ 5 := Nat.pow_le_pow_right (by decide) few
  exact Nat.lt_of_lt_of_le (number_lt digits) size

theorem digits_toNat (z : WordSize) {t : List Byte} (digits : ∀ b ∈ t, isDigit b = true)
    (few : t.length ≤ 5) : (BitVec.ofInt 32 (atoi z t)).toNat = number t := by
  have small := number_few digits few
  rw [atoi_digits z digits (by omega), BitVec.ofInt_natCast, BitVec.toNat_ofNat]
  omega

def SerialNumber.fields (s : SerialNumber) : Fields where
  product := (s.product0.toNat - 65) * 26 + (s.product1.toNat - 65) + 1
  version := versionNumber s.version
  factory := s.factory.toNat - 64
  year := 17 * hexValue s.year0 + hexValue s.year1
  month := hexValue s.month
  batch := s.batch.toNat - 48
  serial := number s.serial
  product_lt := by
    have first := upper_bounds s.product0_upper
    have second := upper_bounds s.product1_upper
    omega
  version_lt := versionNumber_lt s.version
  factory_lt := by
    have bounds := upper_bounds s.factory_upper
    omega
  year_lt := by
    have first := hexValue_lt s.year0_hex
    have second := hexValue_lt s.year1_hex
    omega
  month_lt := hexValue_lt s.month_hex
  batch_lt := by
    have bounds := digit_bounds s.batch_digit
    omega
  serial_lt := Nat.lt_trans (number_few s.serial_digits (Nat.le_of_eq s.serial_length)) (by decide)

theorem deviceId_words (z : WordSize) (s : SerialNumber) : ∃ high low : BitVec 32,
    deviceId z s.text = some (convertToU64High high + low.signExtend 64) ∧
      high.toNat = s.fields.high ∧ low.toNat = s.fields.low := by
  have version : (BitVec.ofNat 64 (versionNumber s.version)).toNat = versionNumber s.version := by
    have bound := versionNumber_lt s.version
    rw [BitVec.toNat_ofNat]
    omega
  have batch : (BitVec.ofInt 32 (atoi z [s.batch])).toNat = s.batch.toNat - 48 := by
    rw [digits_toNat z (by simp [s.batch_digit]) (by simp)]
    exact Nat.zero_add _
  have serial := digits_toNat z s.serial_digits (Nat.le_of_eq s.serial_length)
  have year := strtohex_two s.year0_hex s.year1_hex
  refine ⟨_, _, ?_, highIntNo_fields s.fields year (factory_toNat s.factory_upper) version
    (product_toNat s.product0_upper s.product1_upper),
    lowIntNo_fields s.fields serial batch (strtohex_one s.month_hex) year⟩
  have known := productVersion_known s.version_known
  have digits : s.serial.take 5 = s.serial := List.take_of_length_le (Nat.le_of_eq s.serial_length)
  simp only [deviceId, SerialNumber.text, List.drop_succ_cons, List.drop_zero, List.take_succ_cons,
    List.take_zero, List.getD_cons_succ, List.getD_cons_zero, known, digits, Option.bind_eq_bind,
    Option.bind_some]

end SerialNumbers

section Clashes

/-- The id has room for the fields one beside the other, except for the year's ninth bit, which
    falls on the lowest bit of the factory. -/
theorem words_iff (f g : Fields) : f.high = g.high ∧ f.low = g.low ↔
    (f.product = g.product ∧ f.version = g.version ∧ f.month = g.month ∧ f.batch = g.batch ∧
      f.serial = g.serial) ∧ f.year % 128 = g.year % 128 ∧
        (f.year / 128 ||| f.factory * 2) = (g.year / 128 ||| g.factory * 2) := by
  have shared := factory_year_lt f.year_lt f.factory_lt
  have shared' := factory_year_lt g.year_lt g.factory_lt
  have version := f.version_lt
  have version' := g.version_lt
  have month := f.month_lt
  have month' := g.month_lt
  have batch := f.batch_lt
  have batch' := g.batch_lt
  have serial := f.serial_lt
  have serial' := g.serial_lt
  simp only [Fields.high, Fields.low]
  omega

/-- What the ninth bit of the year does to the factory. -/
theorem shared_bits (f : Fields) (late : f.year < 384) : f.year / 128 ||| f.factory * 2 =
    if 256 ≤ f.year then f.factory / 2 * 4 + 2 else f.year / 128 + f.factory * 2 := by
  split
  · have two : f.year / 128 = 2 := by omega
    have odd : ∀ factory < 32, 2 ||| factory * 2 = factory / 2 * 4 + 2 := by decide
    rw [two, odd f.factory f.factory_lt]
  · have shifted : f.year / 128 ||| f.factory <<< 1 = _ := or_shifted (p := 2) f.factory rfl (by omega)
    rw [Nat.shiftLeft_eq] at shifted
    exact shifted

/-- What an id shows of the year and the factory: a year from F1 on is shown as one from 00 on,
    with the factory's lowest bit set. -/
def SerialNumber.shown (s : SerialNumber) : (Nat × Nat) × Nat :=
  let factory := s.factory.toNat - 64
  if s.year0 = 70 ∧ s.year1 ≠ 48 then ((0, hexValue s.year1 - 1), factory / 2 * 2 + 1)
  else ((hexValue s.year0, hexValue s.year1), factory)

theorem late_iff (s : SerialNumber) : s.year0 = 70 ∧ s.year1 ≠ 48 ↔ 256 ≤ s.fields.year := by
  have bounds := hex_bounds s.year0_hex
  have bounds' := hex_bounds s.year1_hex
  rw [← BitVec.toNat_inj, ne_eq, ← BitVec.toNat_inj]
  have letter : (70 : Byte).toNat = 70 := rfl
  have zero : (48 : Byte).toNat = 48 := rfl
  show _ ↔ 256 ≤ 17 * hexValue s.year0 + hexValue s.year1
  omega

theorem shown_iff (s t : SerialNumber) : s.shown = t.shown ↔
    s.fields.year % 128 = t.fields.year % 128 ∧
      (s.fields.year / 128 ||| s.fields.factory * 2) = (t.fields.year / 128 ||| t.fields.factory * 2) := by
  have hex0 := hexValue_lt s.year0_hex
  have hex1 := hexValue_lt s.year1_hex
  have hex0' := hexValue_lt t.year0_hex
  have hex1' := hexValue_lt t.year1_hex
  have year : s.fields.year = 17 * hexValue s.year0 + hexValue s.year1 := rfl
  have year' : t.fields.year = 17 * hexValue t.year0 + hexValue t.year1 := rfl
  have factory : s.fields.factory = s.factory.toNat - 64 := rfl
  have factory' : t.fields.factory = t.factory.toNat - 64 := rfl
  have late : 256 ≤ s.fields.year → hexValue s.year0 = 15 := by omega
  have late' : 256 ≤ t.fields.year → hexValue t.year0 = 15 := by omega
  rw [shared_bits s.fields (by omega), shared_bits t.fields (by omega)]
  simp only [SerialNumber.shown, late_iff]
  split <;> split <;> simp only [Prod.mk.injEq, true_and] <;> omega

def SerialNumber.others (s : SerialNumber) : (Byte × Byte) × Byte × Byte × Byte × List Byte :=
  ((s.product0, s.product1), s.version, s.month, s.batch, s.serial)

theorem version_inj {b c : Byte} (known : b ∈ ascii ['T', 'P', 'M']) (other : c ∈ ascii ['T', 'P', 'M'])
    (same : versionNumber b = versionNumber c) : b = c := by
  simp only [ascii, List.map_cons, List.map_nil, List.mem_cons, List.not_mem_nil, or_false] at known other
  rcases known with rfl | rfl | rfl <;> rcases other with rfl | rfl | rfl <;>
    first | rfl | exact absurd same (by decide)

theorem others_iff (s t : SerialNumber) : s.others = t.others ↔
    s.fields.product = t.fields.product ∧ s.fields.version = t.fields.version ∧
      s.fields.month = t.fields.month ∧ s.fields.batch = t.fields.batch ∧
        s.fields.serial = t.fields.serial := by
  simp only [SerialNumber.others, SerialNumber.fields, Prod.mk.injEq]
  constructor
  · rintro ⟨⟨product0, product1⟩, version, month, batch, serial⟩
    rw [product0, product1, version, month, batch, serial]
    exact ⟨rfl, rfl, rfl, rfl, rfl⟩
  · rintro ⟨product, version, month, batch, serial⟩
    have first := upper_bounds s.product0_upper
    have second := upper_bounds s.product1_upper
    have first' := upper_bounds t.product0_upper
    have second' := upper_bounds t.product1_upper
    have digit := digit_bounds s.batch_digit
    have digit' := digit_bounds t.batch_digit
    refine ⟨⟨BitVec.eq_of_toNat_eq (by omega), BitVec.eq_of_toNat_eq (by omega)⟩,
      version_inj s.version_known t.version_known version, hexValue_inj s.month_hex t.month_hex month,
      BitVec.eq_of_toNat_eq (by omega), number_inj s.serial_digits t.serial_digits ?_ serial⟩
    rw [s.serial_length, t.serial_length]

/-- Two devices that agree in the fields with bits of their own and show the same year and factory. -/
def Clash (s t : SerialNumber) : Prop := s.others = t.others ∧ s.shown = t.shown

theorem device_ids_differ_iff (z : WordSize) (s t : SerialNumber) :
    ∃ id id', deviceId z s.text = some id ∧ deviceId z t.text = some id' ∧
      ((s.text ≠ t.text → id ≠ id') ↔ (s.text ≠ t.text → ¬Clash s t)) := by
  obtain ⟨high, low, known, highValue, lowValue⟩ := deviceId_words z s
  obtain ⟨high', low', known', highValue', lowValue'⟩ := deviceId_words z t
  refine ⟨_, _, known, known', imp_congr_right fun _ => not_congr ?_⟩
  rw [words_eq_iff, ← BitVec.toNat_inj, ← BitVec.toNat_inj, highValue, lowValue, highValue', lowValue',
    words_iff, ← others_iff, ← shown_iff, Clash]

end Clashes

def seventh (factory year0 year1 : Byte) (upper : isUpper factory = true)
    (hex0 : isHexDigit year0 = true) (hex1 : isHexDigit year1 = true) : SerialNumber :=
  ⟨65, 65, 84, factory, year0, year1, 49, 48, ascii ['0', '0', '0', '0', '7'], rfl, rfl, by decide,
    upper, hex0, hex1, rfl, rfl, rfl, by decide⟩

/-- The years F1 and 00 of factory A have the same ids, and so have the factories B and C in F1. -/
theorem late_years_share_ids :
    (∃ s t : SerialNumber,
      s.text = ascii ['A', 'A', 'T', 'A', 'F', '1', '1', '0', '0', '0', '0', '0', '7'] ∧
      t.text = ascii ['A', 'A', 'T', 'A', '0', '0', '1', '0', '0', '0', '0', '0', '7'] ∧
      s.text ≠ t.text ∧ deviceId .bits32 s.text = deviceId .bits32 t.text) ∧
    ∃ s t : SerialNumber,
      s.text = ascii ['A', 'A', 'T', 'B', 'F', '1', '1', '0', '0', '0', '0', '0', '7'] ∧
      t.text = ascii ['A', 'A', 'T', 'C', 'F', '1', '1', '0', '0', '0', '0', '0', '7'] ∧
      s.text ≠ t.text ∧ deviceId .bits32 s.text = deviceId .bits32 t.text := by
  constructor
  · refine ⟨seventh 65 70 49 rfl rfl rfl, seventh 65 48 48 rfl rfl rfl, rfl, rfl, ?_, ?_⟩
    · decide
    · decide +kernel
  · refine ⟨seventh 66 70 49 rfl rfl rfl, seventh 67 70 49 rfl rfl rfl, rfl, rfl, ?_, ?_⟩
    · decide
    · decide +kernel

end TestSource.RouterId
