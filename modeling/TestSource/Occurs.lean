import Mathlib.Tactic.Common

/- The first place where one list occurs in another. -/
namespace Occurs
variable {α : Type} [BEq α] [LawfulBEq α]

def find (needle : List α) : List α → Option Nat
  | [] => if needle.isEmpty then some 0 else none
  | a :: l => if needle.isPrefixOf (a :: l) then some 0 else (find needle l).map (· + 1)

theorem find_occurs {needle l : List α} {i : Nat} (found : find needle l = some i) :
    needle <+: l.drop i := by
  induction l generalizing i with
  | nil =>
    unfold find at found
    split at found
    · cases found
      simp_all
    · contradiction
  | cons a l ih =>
    unfold find at found
    split at found
    · cases found
      rw [List.drop_zero]
      exact List.isPrefixOf_iff_prefix.mp ‹_›
    · obtain ⟨j, later, rfl⟩ := Option.map_eq_some_iff.mp found
      exact ih later

theorem find_isSome {needle l : List α} {i : Nat} (occurs : needle <+: l.drop i)
    (inside : i ≤ l.length) : (find needle l).isSome := by
  induction l generalizing i with
  | nil =>
    rw [List.drop_nil, List.prefix_nil] at occurs
    simp [find, occurs]
  | cons a l ih =>
    unfold find
    split
    · rfl
    · rename_i absent
      cases i with
      | zero => exact absurd (List.isPrefixOf_iff_prefix.mpr occurs) absent
      | succ i =>
        have later := ih occurs (Nat.le_of_succ_le_succ inside)
        simpa using later

theorem find_append {needle l : List α} (m : List α) {i : Nat} (found : find needle l = some i) :
    find needle (l ++ m) = some i := by
  induction l generalizing i with
  | nil =>
    unfold find at found
    split at found
    · rename_i empty
      cases found
      have nothing : needle = [] := List.isEmpty_iff.mp empty
      subst nothing
      cases m <;> simp [find]
    · contradiction
  | cons a l ih =>
    rw [List.cons_append]
    unfold find at found ⊢
    split at found
    · rename_i here
      cases found
      have longer : needle.isPrefixOf (a :: (l ++ m)) := by
        rw [List.isPrefixOf_iff_prefix] at here ⊢
        exact here.trans (List.prefix_append (a :: l) m)
      rw [if_pos longer]
    · rename_i absent
      obtain ⟨j, later, rfl⟩ := Option.map_eq_some_iff.mp found
      -- an occurrence that starts here would have to end before the one found later
      have still : ¬needle.isPrefixOf (a :: (l ++ m)) := by
        intro here
        have place := find_occurs later
        have size := place.length_le
        have first : needle <+: a :: l :=
          List.prefix_of_prefix_length_le (List.isPrefixOf_iff_prefix.mp here)
            (List.prefix_append (a :: l) m) (by
              simp only [List.length_drop, List.length_cons] at size ⊢
              omega)
        exact absent (List.isPrefixOf_iff_prefix.mpr first)
      rw [if_neg still, ih later]
      rfl

omit [LawfulBEq α] in
theorem find_cons {needle : List α} (a : α) (l : List α) :
    (find needle (a :: l)).isSome = (needle.isPrefixOf (a :: l) || (find needle l).isSome) := by
  rw [find]
  split
  · rename_i here
    rw [here, Bool.true_or]
    rfl
  · rename_i absent
    rw [Bool.not_eq_true] at absent
    rw [absent, Bool.false_or, Option.isSome_map]

theorem find_behind {c : α} {cs front : List α} (absent : c ∉ front) (l : List α) :
    find (c :: cs) (front ++ l) = (find (c :: cs) l).map (· + front.length) := by
  induction front with
  | nil => simp
  | cons a front ih =>
    have differ : c ≠ a := by
      rintro rfl
      exact absent List.mem_cons_self
    have here : (c :: cs).isPrefixOf (a :: (front ++ l)) = false := by
      rw [List.isPrefixOf_cons_cons, beq_eq_false_iff_ne.mpr differ, Bool.false_and]
    rw [List.cons_append, find, here, if_neg Bool.false_ne_true,
      ih fun mem => absent (List.mem_cons_of_mem a mem), Option.map_map]
    rfl

section Single
variable {β : Type} [DecidableEq β] {c : β}

theorem findIdx_absent {l : List β} (absent : c ∉ l) : l.findIdx? (· = c) = none := by
  rw [List.findIdx?_eq_none_iff]
  intro x mem
  rw [decide_eq_false_iff_not]
  intro same
  exact absent (same ▸ mem)

theorem findIdx_first {a : List β} (absent : c ∉ a) (l : List β) :
    (a ++ c :: l).findIdx? (· = c) = some a.length := by
  rw [List.findIdx?_append, findIdx_absent absent]
  simp [List.findIdx?_cons]

theorem takeWhile_until {a : List β} (absent : c ∉ a) (l : List β) :
    (a ++ l).takeWhile (· ≠ c) = a ++ l.takeWhile (· ≠ c) := by
  apply List.takeWhile_append_of_pos
  intro x mem
  rw [decide_eq_true_eq]
  intro same
  exact absent (same ▸ mem)

theorem takeWhile_absent {a : List β} (absent : c ∉ a) : a.takeWhile (· ≠ c) = a := by
  have whole := takeWhile_until absent []
  rwa [List.append_nil, List.takeWhile_nil, List.append_nil] at whole

theorem dropWhile_absent {a : List β} (absent : c ∉ a) : a.dropWhile (· ≠ c) = [] := by
  have parts := List.takeWhile_append_dropWhile (p := (· ≠ c)) (l := a)
  rwa [takeWhile_absent absent, List.append_right_eq_self] at parts

theorem dropWhile_until {a : List β} (absent : c ∉ a) (l : List β) :
    (a ++ c :: l).dropWhile (· ≠ c) = c :: l := by
  rw [List.dropWhile_append_of_pos]
  · simp
  · intro x mem
    rw [decide_eq_true_eq]
    intro same
    exact absent (same ▸ mem)

theorem dropWhile_run {l : List β} (next : ∀ b, l.head? = some b → b ≠ c) (n : Nat) :
    (List.replicate n c ++ l).dropWhile (· = c) = l := by
  rw [List.dropWhile_append_of_pos (by simp)]
  cases l with
  | nil => rfl
  | cons b l => simp [next b rfl]

end Single

theorem findSome_first {β : Type} {f : Nat → Option β} {n k : Nat} (inside : k < n)
    (earlier : ∀ j < k, f j = none) (found : (f k).isSome) : (List.range n).findSome? f = f k := by
  induction n with
  | zero => omega
  | succ n ih =>
    rw [List.range_succ, List.findSome?_append]
    by_cases last : k = n
    · subst last
      have none : (List.range k).findSome? f = none :=
        List.findSome?_eq_none_iff.mpr fun j mem => earlier j (List.mem_range.mp mem)
      simp [none]
    · rw [ih (by omega)]
      exact Option.or_of_isSome found

end Occurs
