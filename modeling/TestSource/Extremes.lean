import Mathlib.Tactic.Common

/- The least and the greatest value of a list, by the values that attain and bound them. -/
namespace Extremes
open Std

variable {α : Type} [LE α] [IsLinearOrder α] {xs ys : List α} {m : α}

section Least
variable [Min α] [LawfulOrderMin α]

theorem min_snoc (least : xs.min? = some m) (x : α) : (xs ++ [x]).min? = some (min m x) := by
  obtain ⟨attained, below⟩ := List.min?_eq_some_iff.mp least
  rw [List.min?_eq_some_iff]
  constructor
  · rcases MinEqOr.min_eq_or m x with left | right
    · rw [left]
      exact List.mem_append_left _ attained
    · rw [right]
      exact List.mem_append_right _ List.mem_cons_self
  · intro y mem
    rcases List.mem_append.mp mem with old | new
    · exact le_trans min_le_left (below y old)
    · rw [List.mem_singleton.mp new]
      exact min_le_right

theorem min_same_iff (least : xs.min? = some m) (ys : List α) :
    ys.min? = some m ↔ (∀ y ∈ ys, ∃ x ∈ xs, x ≤ y) ∧ ∀ x ∈ xs, ∃ y ∈ ys, y ≤ x := by
  obtain ⟨attained, below⟩ := List.min?_eq_some_iff.mp least
  rw [List.min?_eq_some_iff]
  constructor
  · rintro ⟨also, under⟩
    exact ⟨fun y mem => ⟨m, attained, under y mem⟩, fun x mem => ⟨m, also, below x mem⟩⟩
  · rintro ⟨under, reach⟩
    obtain ⟨y, mem, low⟩ := reach m attained
    obtain ⟨x, inside, lower⟩ := under y mem
    have eq : y = m := le_antisymm low (le_trans (below x inside) lower)
    constructor
    · rw [← eq]
      exact mem
    · intro z inside
      obtain ⟨x, memx, le⟩ := under z inside
      exact le_trans (below x memx) le

theorem min_of_perm (perm : xs.Perm ys) : xs.min? = ys.min? := by
  cases least : ys.min? with
  | none =>
    rw [List.min?_eq_none_iff] at least ⊢
    rw [least] at perm
    exact perm.eq_nil
  | some m =>
    rw [List.min?_eq_some_iff] at least ⊢
    exact ⟨perm.mem_iff.mpr least.1, fun x mem => least.2 x (perm.mem_iff.mp mem)⟩

end Least

section Greatest
variable [Max α] [LawfulOrderMax α]

theorem max_same_iff (greatest : xs.max? = some m) (part : ∀ y ∈ ys, y ∈ xs) :
    ys.max? = some m ↔ ∀ x ∈ xs, ∃ y ∈ ys, x ≤ y := by
  obtain ⟨attained, above⟩ := List.max?_eq_some_iff.mp greatest
  rw [List.max?_eq_some_iff]
  constructor
  · rintro ⟨also, _⟩ x mem
    exact ⟨m, also, above x mem⟩
  · intro reach
    obtain ⟨y, mem, high⟩ := reach m attained
    have eq : y = m := le_antisymm (above y (part y mem)) high
    constructor
    · rw [← eq]
      exact mem
    · intro z inside
      exact above z (part z inside)

theorem max_of_perm (perm : xs.Perm ys) : xs.max? = ys.max? := by
  cases greatest : ys.max? with
  | none =>
    rw [List.max?_eq_none_iff] at greatest ⊢
    rw [greatest] at perm
    exact perm.eq_nil
  | some m =>
    rw [List.max?_eq_some_iff] at greatest ⊢
    exact ⟨perm.mem_iff.mpr greatest.1, fun x mem => greatest.2 x (perm.mem_iff.mp mem)⟩

end Greatest

end Extremes
