import Mathlib.Tactic.Common

/- The Gregorian calendar from 1970 on, as blocks in a row: years, and in each year its months. A
   place is found by walking over the blocks before it. -/
namespace Calendar

section Blocks
variable (len : Nat → Nat)

def start : Nat → Nat
  | 0 => 0
  | k + 1 => start k + len k

/-- The block of the place n behind the start of block k, and the place in it. -/
def walk : Nat → Nat → Nat → Nat × Nat
  | 0, k, n => (k, n)
  | fuel + 1, k, n => if n < len k then (k, n) else walk fuel (k + 1) (n - len k)

def locate (n : Nat) : Nat × Nat := walk len n 0 n

variable {len}

theorem walk_inside (positive : ∀ k, 0 < len k) {fuel n : Nat} (enough : n ≤ fuel) (k : Nat) :
    (walk len fuel k n).2 < len (walk len fuel k n).1 ∧
    start len (walk len fuel k n).1 + (walk len fuel k n).2 = start len k + n := by
  induction fuel generalizing k n with
  | zero =>
    have here := positive k
    exact ⟨Nat.lt_of_le_of_lt enough here, rfl⟩
  | succ fuel ih =>
    rw [walk]
    split
    · rename_i inside
      exact ⟨inside, rfl⟩
    · have here := positive k
      obtain ⟨inside, place⟩ := ih (n := n - len k) (by omega) (k + 1)
      rw [start] at place
      exact ⟨inside, by omega⟩

theorem locate_inside (positive : ∀ k, 0 < len k) (n : Nat) : (locate len n).2 < len (locate len n).1 :=
  (walk_inside positive (Nat.le_refl n) 0).1

theorem locate_place (positive : ∀ k, 0 < len k) (n : Nat) :
    start len (locate len n).1 + (locate len n).2 = n := by
  have place := (walk_inside positive (Nat.le_refl n) 0).2
  rwa [start, Nat.zero_add] at place

theorem start_mono {j k : Nat} (le : j ≤ k) : start len j ≤ start len k := by
  induction le with
  | refl => exact Nat.le_refl _
  | step _ ih => exact Nat.le_trans ih (Nat.le_add_right _ _)

theorem locate_before (positive : ∀ k, 0 < len k) {n b : Nat} (before : n < start len b) :
    (locate len n).1 < b := by
  by_contra behind
  have mono : start len b ≤ start len (locate len n).1 := start_mono (Nat.not_lt.mp behind)
  have place := locate_place positive n
  omega

end Blocks

def isLeap (year : Nat) : Bool := year % 4 = 0 ∧ (year % 100 ≠ 0 ∨ year % 400 = 0)

def yearLength (year : Nat) : Nat := if isLeap year then 366 else 365

def years (k : Nat) : Nat := yearLength (1970 + k)

def monthLength (year : Nat) : Nat → Nat
  | 1 => if isLeap year then 29 else 28
  | 3 | 5 | 8 | 10 => 30
  | _ => 31

theorem years_positive (k : Nat) : 0 < years k := by
  unfold years yearLength
  split <;> omega

theorem month_positive (year month : Nat) : 0 < monthLength year month := by
  unfold monthLength
  split
  · split <;> omega
  all_goals omega

theorem months_year (year : Nat) : start (monthLength year) 12 = yearLength year := by
  simp only [start, monthLength, yearLength]
  split <;> rfl

/-- A date and a time of day; months and days count from 1. -/
structure Civil where
  year : Nat
  month : Nat
  day : Nat
  hour : Nat
  minute : Nat
  second : Nat
  deriving DecidableEq, Repr

structure Civil.Valid (c : Civil) : Prop where
  year : 1970 ≤ c.year
  month : 1 ≤ c.month ∧ c.month ≤ 12
  day : 1 ≤ c.day ∧ c.day ≤ monthLength c.year (c.month - 1)
  hour : c.hour < 24
  minute : c.minute < 60
  second : c.second < 60

def Civil.days (c : Civil) : Nat :=
  start years (c.year - 1970) + start (monthLength c.year) (c.month - 1) + (c.day - 1)

def Civil.seconds (c : Civil) : Nat := c.days * 86400 + c.hour * 3600 + c.minute * 60 + c.second

def ofSeconds (t : Nat) : Civil :=
  let year := locate years (t / 86400)
  let month := locate (monthLength (1970 + year.1)) year.2
  ⟨1970 + year.1, month.1 + 1, month.2 + 1, t % 86400 / 3600, t % 3600 / 60, t % 60⟩

theorem ofSeconds_valid (t : Nat) : (ofSeconds t).Valid := by
  have inYear := locate_inside years_positive (t / 86400)
  rw [years, ← months_year] at inYear
  have inMonths := locate_before (month_positive _) inYear
  have inMonth := locate_inside (month_positive (ofSeconds t).year) (locate years (t / 86400)).2
  constructor
  · exact Nat.le_add_right _ _
  · exact ⟨Nat.le_add_left _ _, inMonths⟩
  · exact ⟨Nat.le_add_left _ _, inMonth⟩
  · simp only [ofSeconds]
    omega
  · simp only [ofSeconds]
    omega
  · simp only [ofSeconds]
    omega

theorem days_ofSeconds (t : Nat) : (ofSeconds t).days = t / 86400 := by
  have inYears := locate_place years_positive (t / 86400)
  have months := locate_place (month_positive (ofSeconds t).year) (locate years (t / 86400)).2
  simp only [ofSeconds] at months
  simp only [Civil.days, ofSeconds, Nat.add_sub_cancel_left, Nat.add_sub_cancel]
  omega

theorem seconds_ofSeconds (t : Nat) : (ofSeconds t).seconds = t := by
  rw [Civil.seconds, days_ofSeconds]
  simp only [ofSeconds]
  omega

example : ofSeconds 951868799 = ⟨2000, 2, 29, 23, 59, 59⟩ := by decide

end Calendar
