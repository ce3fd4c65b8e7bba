import Mathlib.Algebra.GroupWithZero.Nat
import Mathlib.Data.List.Basic

/- Sums with an end-around carry: the numbers up to m, where m and zero both stand for
   nothing and only a sum of zeros is zero. -/
namespace OnesComplement

/-- A carry out of the largest number comes in again at the lowest place. -/
def add (m a b : Nat) : Nat := if a + b ≤ m then a + b else a + b - m

def sum (m : Nat) (l : List Nat) : Nat := l.foldl (add m) 0

/-- The number that an unbounded sum stands for. -/
def rep (m n : Nat) : Nat := if n = 0 then 0 else (n - 1) % m + 1

variable {m : Nat}

theorem rep_small {n : Nat} (small : n ≤ m) : rep m n = n := by
  unfold rep
  split
  · omega
  · rw [Nat.mod_eq_of_lt (by omega)]
    omega

theorem rep_le (positive : 0 < m) (n : Nat) : rep m n ≤ m := by
  unfold rep
  split
  · exact Nat.zero_le m
  · exact Nat.mod_lt _ positive

theorem rep_round {n : Nat} (some : n ≠ 0) : rep m (n + m) = rep m n := by
  unfold rep
  rw [if_neg some, if_neg (by omega)]
  have moved : n + m - 1 = n - 1 + m := by omega
  rw [moved, Nat.add_mod_right]

theorem rep_rounds {n : Nat} (some : n ≠ 0) (k : Nat) : rep m (n + m * k) = rep m n := by
  induction k with
  | zero => rfl
  | succ k ih =>
    have more : n + m * (k + 1) = n + m * k + m := by
      rw [Nat.mul_succ]
      omega
    rw [more, rep_round (by omega), ih]

theorem rep_fold (n : Nat) : rep m (n / (m + 1) + n % (m + 1)) = rep m n := by
  have split := Nat.mod_add_div n (m + 1)
  rw [Nat.succ_mul] at split
  by_cases none : n = 0
  · subst none
    simp
  · have some : n / (m + 1) + n % (m + 1) ≠ 0 := by
      intro zero
      rw [(Nat.add_eq_zero_iff.mp zero).1, (Nat.add_eq_zero_iff.mp zero).2] at split
      omega
    have whole : n = n / (m + 1) + n % (m + 1) + m * (n / (m + 1)) := by omega
    rw [← rep_rounds some (n / (m + 1)), ← whole]

theorem rep_carry {n : Nat} (small : n ≤ m + m) : (n + n / (m + 1)) % (m + 1) = rep m n := by
  by_cases fits : n ≤ m
  · rw [Nat.div_eq_of_lt (by omega), rep_small fits]
    exact Nat.mod_eq_of_lt (by omega)
  · have one : n / (m + 1) = 1 := Nat.div_eq_of_lt_le (by omega) (by omega)
    have past : n + 1 = n - m + (m + 1) := by omega
    have round : n = n - m + m := by omega
    rw [one, past, Nat.add_mod_right, Nat.mod_eq_of_lt (by omega)]
    rw [round, rep_round (by omega), rep_small (by omega)]
    omega

theorem add_eq_rep {a b : Nat} (small : a ≤ m) (small' : b ≤ m) : add m a b = rep m (a + b) := by
  unfold add
  split
  · rename_i fits
    exact (rep_small fits).symm
  · have past : a + b = a + b - m + m := by omega
    rw [past, rep_round (by omega), rep_small (by omega), Nat.add_sub_cancel]

theorem rep_rep_add (n a : Nat) : rep m (rep m n + a) = rep m (n + a) := by
  by_cases none : n = 0
  · subst none
    rfl
  · have rest : rep m n = (n - 1) % m + 1 := if_neg none
    have split := Nat.mod_add_div (n - 1) m
    have whole : n + a = rep m n + a + m * ((n - 1) / m) := by omega
    rw [whole, rep_rounds (by omega)]

theorem foldl_add (positive : 0 < m) {l : List Nat} (small : ∀ a ∈ l, a ≤ m) (n : Nat) :
    l.foldl (add m) (rep m n) = rep m (n + l.sum) := by
  induction l generalizing n with
  | nil => rfl
  | cons a l ih =>
    have first := add_eq_rep (rep_le positive n) (small a List.mem_cons_self)
    rw [List.foldl_cons, first, rep_rep_add, ih fun b mem => small b (List.mem_cons_of_mem a mem),
      List.sum_cons, Nat.add_assoc]

theorem sum_eq_rep (positive : 0 < m) {l : List Nat} (small : ∀ a ∈ l, a ≤ m) :
    sum m l = rep m l.sum := by
  have all := foldl_add positive small 0
  rw [Nat.zero_add] at all
  exact all

theorem rep_complement (positive : 0 < m) (n : Nat) : rep m (n + (m - rep m n)) = m := by
  have small := rep_le positive n
  have whole : rep m n + (m - rep m n) = m := by omega
  rw [← rep_rep_add, whole, rep_small (Nat.le_refl m)]

end OnesComplement
