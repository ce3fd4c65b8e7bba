import TestSource.MountTable
import TestSource.Occurs

/- The loop `while (fgets(buf, 1024, fd))` over a whole text: the contents that buf has in its
   rounds. -/
namespace TestSource

def linesLoop : Nat → CStr → List CStr
  | 0, _ => []
  | fuel + 1, text => if text = [] then [] else (fgets text).1 :: linesLoop fuel (fgets text).2

def readLines (text : CStr) : List CStr := linesLoop text.length text

section Lines
variable {text line : CStr}

theorem fgets_shorter (more : text ≠ []) : (fgets text).2.length < text.length := by
  have positive := List.length_pos_iff.mpr more
  unfold fgets
  split
  · simp
    omega
  · simp
    omega

theorem linesLoop_enough {fuel fuel' : Nat} (enough : text.length ≤ fuel) (other : text.length ≤ fuel') :
    linesLoop fuel text = linesLoop fuel' text := by
  induction fuel generalizing text fuel' with
  | zero =>
    rw [List.length_eq_zero_iff.mp (Nat.le_zero.mp enough)]
    cases fuel' <;> simp [linesLoop]
  | succ fuel ih =>
    by_cases ended : text = []
    · subst ended
      cases fuel' <;> simp [linesLoop]
    · have shorter := fgets_shorter ended
      cases fuel' with
      | zero => omega
      | succ fuel' =>
        have rest : linesLoop fuel (fgets text).2 = linesLoop fuel' (fgets text).2 := ih (by omega) (by omega)
        rw [linesLoop, linesLoop, if_neg ended, if_neg ended, rest]

theorem readLines_step (more : text ≠ []) : readLines text = (fgets text).1 :: readLines (fgets text).2 := by
  have shorter := fgets_shorter more
  obtain ⟨n, size⟩ : ∃ n, text.length = n + 1 := ⟨text.length - 1, by omega⟩
  rw [readLines, size, linesLoop, if_neg more, linesLoop_enough (by omega) (Nat.le_refl _)]
  rfl

theorem readLines_line (plain : '\n' ∉ line) (short : line.length < 1023) (rest : CStr) :
    readLines (line ++ '\n' :: rest) = (line ++ ['\n']) :: readLines rest := by
  rw [readLines_step (by simp), fgets_line plain short]

theorem readLines_last (plain : '\n' ∉ line) (short : line.length < 1023) (some : line ≠ []) :
    readLines line = [line] := by
  have whole : fgets line = (line, []) := by
    unfold fgets
    rw [List.take_of_length_le (by omega), Occurs.findIdx_absent plain]
    simp [List.splitAt_eq]
    omega
  rw [readLines_step some, whole]
  rfl

def Ended (text : CStr) : Prop := ∀ c, text.getLast? = some c → c = '\n'

theorem ended_drop (ended : Ended text) (n : Nat) : Ended (text.drop n) := by
  intro c last
  rw [List.getLast?_drop] at last
  split at last
  · contradiction
  · exact ended c last

theorem fgets_ended (ended : Ended text) (more : text ≠ []) (rest : CStr) :
    fgets (text ++ rest) = ((fgets text).1, (fgets text).2 ++ rest) ∧ Ended (fgets text).2 := by
  unfold fgets
  rw [List.take_append]
  cases found : (text.take 1023).findIdx? fun x => x = '\n' with
  | some k =>
    have inside := (List.findIdx?_eq_some_iff_findIdx_eq.mp found).1
    rw [List.length_take] at inside
    rw [List.findIdx?_append, found]
    simp only [List.splitAt_eq, Option.some_or]
    rw [List.take_append_of_le_length (by omega), List.drop_append_of_le_length (by omega)]
    exact ⟨rfl, ended_drop ended _⟩
  | none =>
    have long : 1023 ≤ text.length := by
      by_contra short
      have newline := ended _ (List.getLast?_eq_some_getLast more)
      rw [List.take_of_length_le (by omega), List.findIdx?_eq_none_iff] at found
      have last := found _ (List.getLast_mem more)
      simp [newline] at last
    rw [Nat.sub_eq_zero_of_le long, List.take_zero, List.append_nil, found]
    simp only [List.splitAt_eq]
    rw [List.take_append_of_le_length long, List.drop_append_of_le_length long]
    exact ⟨rfl, ended_drop ended _⟩

theorem readLines_append (ended : Ended text) (rest : CStr) :
    readLines (text ++ rest) = readLines text ++ readLines rest := by
  generalize size : text.length = n
  induction n using Nat.strongRecOn generalizing text with
  | ind n ih =>
    by_cases more : text = []
    · subst more
      rfl
    · obtain ⟨first, later⟩ := fgets_ended ended more rest
      have shorter := fgets_shorter more
      rw [readLines_step (by simp [more]), readLines_step more, first, List.cons_append,
        ih _ (size ▸ shorter) later rfl]

/-- A text is a last line without a newline, or a line in front of a text. -/
@[elab_as_elim]
theorem line_induction {motive : CStr → Prop} (text : CStr) (last : ∀ p : CStr, '\n' ∉ p → motive p)
    (line : ∀ p s : CStr, '\n' ∉ p → motive s → motive (p ++ '\n' :: s)) : motive text := by
  generalize size : text.length = n
  induction n using Nat.strongRecOn generalizing text with
  | ind n ih =>
    by_cases more : '\n' ∈ text
    · obtain ⟨p, s, rfl, plain⟩ := List.eq_append_cons_of_mem more
      have shorter : s.length < n := by
        simp at size
        omega
      exact line p s plain (ih s.length shorter s rfl)
    · exact last text more

def wholeLines (text : CStr) : CStr := (text.reverse.dropWhile (· ≠ '\n')).reverse

theorem wholeLines_plain (plain : '\n' ∉ text) : wholeLines text = [] := by
  have absent : '\n' ∉ text.reverse := by simpa using plain
  rw [wholeLines, Occurs.dropWhile_absent absent, List.reverse_nil]

theorem wholeLines_line (line s : CStr) : wholeLines (line ++ '\n' :: s) = line ++ '\n' :: wholeLines s := by
  unfold wholeLines
  rw [List.reverse_append, List.reverse_cons, List.append_assoc, List.dropWhile_append]
  split
  · rename_i empty
    rw [List.isEmpty_iff.mp empty]
    simp
  · simp

end Lines
end TestSource
