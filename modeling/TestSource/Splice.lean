import Mathlib.Tactic.Common

/- Writing a run of cells into a list at a position, as a copy into a buffer or a write to
   a device does. -/
namespace Splice
variable {α : Type}

/-- The list with its cells from `pos` on replaced by those of `m`. -/
def splice (l : List α) (pos : Nat) (m : List α) : List α :=
  l.take pos ++ m ++ l.drop (pos + m.length)

theorem splice_length {l m : List α} {pos : Nat} (fits : pos + m.length ≤ l.length) :
    (splice l pos m).length = l.length := by
  simp only [splice, List.length_append, List.length_take, List.length_drop]
  omega

theorem getElem?_splice {l m : List α} {pos : Nat} (fits : pos + m.length ≤ l.length) (a : Nat) :
    (splice l pos m)[a]? = if pos ≤ a ∧ a < pos + m.length then m[a - pos]? else l[a]? := by
  have before : (l.take pos).length = pos := by
    simp only [List.length_take]
    omega
  have upto : (l.take pos ++ m).length = pos + m.length := by
    rw [List.length_append, before]
  unfold splice
  by_cases low : a < pos
  · rw [if_neg (by omega), List.getElem?_append_left (by omega),
      List.getElem?_append_left (by omega), List.getElem?_take_of_lt low]
  · by_cases high : a < pos + m.length
    · rw [if_pos (by omega), List.getElem?_append_left (by omega),
        List.getElem?_append_right (by omega), before]
    · rw [if_neg (by omega), List.getElem?_append_right (by omega), upto, List.getElem?_drop]
      congr 1
      omega

theorem splice_start (l m : List α) : splice l 0 m = m ++ l.drop m.length := by
  simp [splice]

theorem splice_behind (a l m : List α) (pos : Nat) :
    splice (a ++ l) (a.length + pos) m = a ++ splice l pos m := by
  simp only [splice, List.take_length_add_append, Nat.add_assoc, List.drop_length_add_append, List.append_assoc]

theorem splice_splice {l : List α} (m n : List α) {pos : Nat} (inside : pos ≤ l.length) :
    splice (splice l pos m) (pos + m.length) n = splice l pos (m ++ n) := by
  have before : (l.take pos ++ m).length = pos + m.length := by
    simp only [List.length_append, List.length_take]
    omega
  have kept : (splice l pos m).take (pos + m.length) = l.take pos ++ m := by
    rw [splice, List.take_left' before]
  have rest : (splice l pos m).drop (pos + m.length + n.length) =
      l.drop (pos + (m ++ n).length) := by
    rw [splice, ← List.drop_drop, List.drop_left' before, List.drop_drop, List.length_append]
    congr 1
    omega
  rw [splice, kept, rest, splice]
  simp only [List.append_assoc]

def slice (l : List α) (pos n : Nat) : List α := (l.drop pos).take n

theorem slice_length {l : List α} {pos n : Nat} (inside : pos + n ≤ l.length) :
    (slice l pos n).length = n := by
  simp only [slice, List.length_take, List.length_drop]
  omega

theorem getElem?_slice (l : List α) (pos n a : Nat) :
    (slice l pos n)[a]? = if a < n then l[pos + a]? else none := by
  rw [slice, List.getElem?_take, List.getElem?_drop]

theorem slice_behind (a l : List α) (pos n : Nat) : slice (a ++ l) (a.length + pos) n = slice l pos n := by
  rw [slice, List.drop_length_add_append, slice]

theorem slice_start (m rest : List α) : slice (m ++ rest) 0 m.length = m := by
  rw [slice, List.drop_zero, List.take_left]

theorem slice_splice_beside {l m : List α} {pos n start : Nat} (fits : pos + m.length ≤ l.length)
    (beside : start + n ≤ pos ∨ pos + m.length ≤ start) : slice (splice l pos m) start n = slice l start n := by
  apply List.ext_getElem?
  intro a
  rw [getElem?_slice, getElem?_slice, getElem?_splice fits]
  by_cases low : a < n
  · rw [if_pos low, if_pos low, if_neg (by omega)]
  · rw [if_neg low, if_neg low]

theorem slice_splice_same {l m : List α} {pos : Nat} (fits : pos + m.length ≤ l.length) :
    slice (splice l pos m) pos m.length = m := by
  apply List.ext_getElem?
  intro a
  rw [getElem?_slice, getElem?_splice fits]
  by_cases low : a < m.length
  · rw [if_pos low, if_pos (by omega), Nat.add_sub_cancel_left]
  · rw [if_neg low, List.getElem?_eq_none (by omega)]

structure Stamped (size : Nat) (rest : List α) (base n : Nat) (block l : List α) : Prop where
  length : l.length = rest.length
  inside : ∀ a, base * size ≤ a → a < (base + n) * size →
    l[a]? = block[(a - base * size) % size]?
  outside : ∀ a, a < base * size ∨ (base + n) * size ≤ a → l[a]? = rest[a]?

theorem stamped_start (size : Nat) (rest block : List α) (base : Nat) :
    Stamped size rest base 0 block rest := by
  constructor
  · rfl
  · intro a low high
    rw [Nat.add_zero] at high
    omega
  · intro a _
    rfl

theorem stamped_step {size base n : Nat} {rest block l : List α}
    (stamped : Stamped size rest base n block l) (whole : block.length = size)
    (room : (base + n + 1) * size ≤ rest.length) :
    Stamped size rest base (n + 1) block (splice l ((base + n) * size) block) := by
  obtain ⟨length, inside, outside⟩ := stamped
  have next : (base + (n + 1)) * size = (base + n) * size + size := Nat.succ_mul (base + n) size
  have before : (base + n) * size = base * size + n * size := Nat.add_mul base n size
  rw [← Nat.add_assoc] at next
  have fits : (base + n) * size + block.length ≤ l.length := by omega
  constructor
  · rw [splice_length fits, length]
  · intro a low high
    rw [← Nat.add_assoc, next] at high
    rw [getElem?_splice fits, whole]
    by_cases here : (base + n) * size ≤ a
    · have place : a - base * size = (a - (base + n) * size) + size * n := by
        rw [Nat.mul_comm size n]
        omega
      rw [if_pos (by omega), place, Nat.add_mul_mod_self_left, Nat.mod_eq_of_lt (by omega)]
    · rw [if_neg (by omega), inside a low (by omega)]
  · intro a beside
    rw [← Nat.add_assoc, next] at beside
    rw [getElem?_splice fits, whole, if_neg (by omega), outside a (by omega)]

end Splice
