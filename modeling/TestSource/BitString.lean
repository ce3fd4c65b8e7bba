import Mathlib.Data.List.Basic
import Mathlib.Tactic.Ring

/- Numbers written as strings of bits, the highest bit first. -/
namespace BitString

def bitsOf : Nat → Nat → List Bool
  | 0, _ => []
  | n + 1, v => v.testBit n :: bitsOf n v

def value (bits : List Bool) : Nat := bits.foldl (fun v bit => 2 * v + bit.toNat) 0

@[simp]
theorem length_bitsOf (n v : Nat) : (bitsOf n v).length = n := by
  induction n with
  | zero => rfl
  | succ n ih => rw [bitsOf, List.length_cons, ih]

theorem foldl_value (bits : List Bool) (v : Nat) :
    bits.foldl (fun v bit => 2 * v + bit.toNat) v = v * 2 ^ bits.length + value bits := by
  induction bits generalizing v with
  | nil => simp [value]
  | cons bit bits ih =>
    simp only [value, List.foldl_cons, List.length_cons, ih (2 * v + bit.toNat), ih (2 * 0 + bit.toNat)]
    ring

theorem value_cons (bit : Bool) (bits : List Bool) :
    value (bit :: bits) = bit.toNat * 2 ^ bits.length + value bits := by
  rw [value, List.foldl_cons, foldl_value, Nat.mul_zero, Nat.zero_add]

theorem value_mod (n v : Nat) : value (bitsOf n v) = v % 2 ^ n := by
  induction n with
  | zero => rw [Nat.pow_zero, Nat.mod_one]; rfl
  | succ n ih =>
    rw [bitsOf, value_cons, ih, length_bitsOf, Nat.toNat_testBit, Nat.mod_pow_succ]
    ring

theorem value_bitsOf {n v : Nat} (small : v < 2 ^ n) : value (bitsOf n v) = v := by
  rw [value_mod, Nat.mod_eq_of_lt small]

theorem bitsOf_zero (n : Nat) : bitsOf n 0 = List.replicate n false := by
  induction n with
  | zero => rfl
  | succ n ih => rw [bitsOf, ih, Nat.zero_testBit, List.replicate_succ]

theorem value_take {n v : Nat} (small : v < 2 ^ n) (rest : List Bool) :
    value ((bitsOf n v ++ rest).take n) = v := by
  rw [List.take_left' (length_bitsOf n v), value_bitsOf small]

theorem drop_bitsOf (n v : Nat) (rest : List Bool) : (bitsOf n v ++ rest).drop n = rest :=
  List.drop_left' (length_bitsOf n v)

end BitString
