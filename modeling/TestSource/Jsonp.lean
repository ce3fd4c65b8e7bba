import TestSource.TextLines
import Mathlib.Data.List.Flatten

/- cjson_main.c: convert_jsonp_to_json, which takes the wrapping of a JSONP text off line by
   line. -/
namespace TestSource.Jsonp

/-- What is written of one line: from its first '{' on, else up to its first '}', else all. -/
def convertLine (buf : CStr) : CStr :=
  let buf := buf.takeWhile (· ≠ '\x00')
  match strchr buf '{', strchr buf '}' with
  | some preCh, _ => buf.drop preCh
  | none, some lastCh => buf.take (lastCh + 1)
  | none, none => buf

def convertText (text : CStr) : CStr := (readLines text).flatMap convertLine

/-- The result and the file that is written. A name that is null and a file that cannot be opened
    or created make the call fail. -/
def convertJsonpToJson (jsonp : Option CStr) (created : Bool) : Int × Option CStr :=
  match jsonp, created with
  | some text, true => (0, some (convertText text))
  | _, _ => (-1, none)

def isBlank (c : Char) : Bool := c ∈ [' ', '\t', '\n', '\x0b', '\x0c', '\r']

def visible (s : CStr) : CStr := s.filter fun c => !isBlank c

/-- A text with one bracketed part. A line fits the buffer with its newline. -/
structure Wrapped where
  front : CStr
  body : CStr
  back : CStr
  front_plain : '{' ∉ front ∧ '}' ∉ front
  back_plain : '{' ∉ back ∧ '}' ∉ back
  starts : body.head? = some '{'
  ends : body.getLast? = some '}'
  noNul : '\x00' ∉ front ++ (body ++ back)
  short : ∀ line ∈ (front ++ (body ++ back)).splitOn '\n', line.length < 1023

/-- The body is written, up to blanks, behind what is written of the lines in front of it. -/
def Wrapped.Unwrapped (w : Wrapped) : Prop :=
  ∃ written, convertJsonpToJson (some (w.front ++ (w.body ++ w.back))) true =
      (0, some (convertText (wholeLines w.front) ++ written)) ∧ visible written = visible w.body

/-- Nothing but blanks stands before the first '{' of a line, or behind the first '}' of a line
    without a '{'. -/
def LineKept (line : CStr) : Prop :=
  if '{' ∈ line then ∀ c ∈ line.takeWhile (· ≠ '{'), isBlank c = true
  else if '}' ∈ line then ∀ c ∈ (line.dropWhile (· ≠ '}')).drop 1, isBlank c = true
  else True

def behind (body back : CStr) : CStr :=
  if '{' ∈ (body.splitOn '\n').getLastD [] then back else back.dropWhile (· ≠ '\n')

structure Wrapped.Kept (w : Wrapped) : Prop where
  lines : ∀ line ∈ w.body.splitOn '\n', LineKept line
  rest : ∀ c ∈ behind w.body w.back, isBlank c = true

section Converted
variable {p s : CStr}

theorem strchr_absent {c : Char} (absent : c ∉ p) : strchr p c = none := Occurs.findIdx_absent absent

theorem convert_plain (noNul : '\x00' ∉ p) (opened : '{' ∉ p) (closed : '}' ∉ p) : convertLine p = p := by
  simp only [convertLine, Occurs.takeWhile_absent noNul, strchr_absent opened, strchr_absent closed]

theorem convert_opened (noNul : '\x00' ∉ p ++ '{' :: s) (before : '{' ∉ p) :
    convertLine (p ++ '{' :: s) = '{' :: s := by
  simp only [convertLine, Occurs.takeWhile_absent noNul, strchr_append before, List.drop_left]

theorem convert_closed (noNul : '\x00' ∉ p ++ '}' :: s) (opened : '{' ∉ p ++ '}' :: s) (before : '}' ∉ p) :
    convertLine (p ++ '}' :: s) = p ++ ['}'] := by
  simp only [convertLine, Occurs.takeWhile_absent noNul, strchr_absent opened, strchr_append before,
    List.take_length_add_append, List.take_succ_cons, List.take_zero]

theorem convert_append_opened (noNul : '\x00' ∉ p ++ s) (opened : '{' ∈ p) :
    convertLine (p ++ s) = convertLine p ++ s := by
  obtain ⟨a, b, rfl, before⟩ := List.eq_append_cons_of_mem opened
  rw [List.append_assoc, List.cons_append] at noNul ⊢
  have first : '\x00' ∉ a ++ '{' :: b := by
    simp at noNul ⊢
    exact ⟨noNul.1, noNul.2.1⟩
  rw [convert_opened noNul before, convert_opened first before, List.cons_append]

theorem convert_append_closed (noNul : '\x00' ∉ p ++ s) (opened : '{' ∉ p ++ s) (closed : '}' ∈ p) :
    convertLine (p ++ s) = convertLine p := by
  obtain ⟨a, b, rfl, before⟩ := List.eq_append_cons_of_mem closed
  rw [List.append_assoc, List.cons_append] at noNul opened ⊢
  have first : '\x00' ∉ a ++ '}' :: b := by
    simp at noNul ⊢
    exact ⟨noNul.1, noNul.2.1⟩
  have unopened : '{' ∉ a ++ '}' :: b := by
    simp at opened ⊢
    exact ⟨opened.1, opened.2.1⟩
  rw [convert_closed noNul opened before, convert_closed first unopened before]

theorem convertLine_sublist (p : CStr) : (convertLine p).Sublist p := by
  have cut := List.takeWhile_sublist (fun c : Char => decide (c ≠ '\x00')) (l := p)
  unfold convertLine
  dsimp only
  split
  · exact (List.drop_sublist _ _).trans cut
  · exact (List.take_sublist _ _).trans cut
  · exact cut

end Converted

section Visible
variable {p s : CStr}

@[simp]
theorem visible_append (p s : CStr) : visible (p ++ s) = visible p ++ visible s := List.filter_append p s

@[simp]
theorem visible_nil : visible [] = [] := rfl

@[simp]
theorem visible_newline (s : CStr) : visible ('\n' :: s) = visible s := by
  simp [visible, isBlank]

theorem visible_nil_iff : visible s = [] ↔ ∀ c ∈ s, isBlank c = true := by
  simp [visible, List.filter_eq_nil_iff]

theorem visible_line (noNul : '\x00' ∉ p) : visible (convertLine (p ++ ['\n'])) = visible (convertLine p) := by
  have noNul' : '\x00' ∉ p ++ ['\n'] := by simp [noNul]
  by_cases opened : '{' ∈ p
  · rw [convert_append_opened noNul' opened]
    simp [visible, isBlank]
  · have unopened : '{' ∉ p ++ ['\n'] := by simp [opened]
    by_cases closed : '}' ∈ p
    · rw [convert_append_closed noNul' unopened closed]
    · have unclosed : '}' ∉ p ++ ['\n'] := by simp [closed]
      rw [convert_plain noNul' unopened unclosed, convert_plain noNul opened closed]
      simp [visible, isBlank]

theorem visible_pieces (text : CStr) : visible text = (text.splitOn '\n').flatMap visible := by
  induction text using line_induction with
  | last p plain => simp [List.splitOn_eq_singleton plain]
  | line p s plain ih =>
    rw [List.splitOn_append_cons_self_of_not_mem plain, visible_append, visible_newline, ih]
    rfl

theorem visible_converted (text : CStr) (noNul : '\x00' ∉ text)
    (short : ∀ line ∈ text.splitOn '\n', line.length < 1023) :
    visible (convertText text) = (text.splitOn '\n').flatMap fun line => visible (convertLine line) := by
  induction text using line_induction with
  | last p plain =>
    rw [List.splitOn_eq_singleton plain] at short ⊢
    by_cases empty : p = []
    · subst empty
      rfl
    · rw [convertText, readLines_last plain (short p (by simp)) empty]
      simp
  | line p s plain ih =>
    rw [List.splitOn_append_cons_self_of_not_mem plain] at short ⊢
    simp only [List.mem_append, List.mem_cons, not_or] at noNul
    have later := ih noNul.2.2 fun line mem => short line (List.mem_cons_of_mem p mem)
    rw [convertText, readLines_line plain (short p (by simp)), List.flatMap_cons, visible_append,
      visible_line noNul.1, List.flatMap_cons, ← later]
    rfl

theorem pieces_plain (text : CStr) (noNul : '\x00' ∉ text) (opened : '{' ∉ text) (closed : '}' ∉ text) :
    ((text.splitOn '\n').flatMap fun line => visible (convertLine line)) = visible text := by
  induction text using line_induction with
  | last p plain => simp [List.splitOn_eq_singleton plain, convert_plain noNul opened closed]
  | line p s plain ih =>
    simp only [List.mem_append, List.mem_cons, not_or] at noNul opened closed
    rw [List.splitOn_append_cons_self_of_not_mem plain, List.flatMap_cons,
      ih noNul.2.2 opened.2.2 closed.2.2, convert_plain noNul.1 opened.1 closed.1]
    simp

end Visible

section Body
variable {body back : CStr}

theorem pieces_last {p : CStr} (plain : '\n' ∉ p) (closed : '}' ∈ p) (noNul : '\x00' ∉ p ++ back)
    (backOpened : '{' ∉ back) (backClosed : '}' ∉ back) :
    (((p ++ back).splitOn '\n').flatMap fun line => visible (convertLine line)) =
      visible (convertLine p) ++ visible (if '{' ∈ p then back else back.dropWhile (· ≠ '\n')) := by
  have firstLine {s : CStr} (noNul : '\x00' ∉ p ++ s) (backOpened : '{' ∉ s) :
      visible (convertLine (p ++ s)) = visible (convertLine p) ++ visible (if '{' ∈ p then s else []) := by
    by_cases opened : '{' ∈ p
    · rw [convert_append_opened noNul opened, if_pos opened, visible_append]
    · rw [convert_append_closed noNul (by simp [opened, backOpened]) closed, if_neg opened]
      simp [visible]
  by_cases more : '\n' ∈ back
  · obtain ⟨s, rest, rfl, plain'⟩ := List.eq_append_cons_of_mem more
    have line : '\n' ∉ p ++ s := by simp [plain, plain']
    simp only [List.mem_append, List.mem_cons, not_or] at noNul backOpened backClosed
    rw [← List.append_assoc, List.splitOn_append_cons_self_of_not_mem line, List.flatMap_cons,
      pieces_plain rest noNul.2.2.2 backOpened.2.2 backClosed.2.2,
      firstLine (by simp [noNul.1, noNul.2.1]) backOpened.1, Occurs.dropWhile_until plain']
    split <;> simp
  · have line : '\n' ∉ p ++ back := by simp [plain, more]
    rw [List.splitOn_eq_singleton line, Occurs.dropWhile_absent more, List.flatMap_cons,
      firstLine noNul backOpened]
    simp

theorem pieces_body (noNul : '\x00' ∉ body ++ back) (ends : body.getLast? = some '}')
    (backOpened : '{' ∉ back) (backClosed : '}' ∉ back) :
    (((body ++ back).splitOn '\n').flatMap fun line => visible (convertLine line)) =
      ((body.splitOn '\n').flatMap fun line => visible (convertLine line)) ++ visible (behind body back) := by
  unfold behind
  induction body using line_induction with
  | last p plain =>
    have closed : '}' ∈ p := List.mem_of_getLast? ends
    rw [pieces_last plain closed noNul backOpened backClosed, List.splitOn_eq_singleton plain]
    simp
  | line p s plain ih =>
    have ends' : s.getLast? = some '}' := by
      cases s with
      | nil => simp at ends
      | cons c s => simpa [List.getLast?_append] using ends
    have noNul' : '\x00' ∉ s ++ back := by
      simp at noNul ⊢
      exact ⟨noNul.2.1, noNul.2.2⟩
    have split := List.splitOn_append_cons_self_of_not_mem plain (s ++ back)
    rw [List.append_assoc, List.cons_append, split, List.splitOn_append_cons_self_of_not_mem plain,
      List.flatMap_cons, List.flatMap_cons, ih noNul' ends', List.append_assoc]
    have last : (p :: s.splitOn '\n').getLastD [] = (s.splitOn '\n').getLastD [] := by
      have some := List.splitOn_ne_nil '\n' s
      cases pieces : s.splitOn '\n' with
      | nil => exact absurd pieces some
      | cons q qs => simp
    rw [last]

theorem lineKept_iff {line : CStr} (noNul : '\x00' ∉ line) :
    visible (convertLine line) = visible line ↔ LineKept line := by
  unfold LineKept
  by_cases opened : '{' ∈ line
  · rw [if_pos opened, ← visible_nil_iff]
    obtain ⟨a, b, rfl, before⟩ := List.eq_append_cons_of_mem opened
    rw [convert_opened noNul before, visible_append, Occurs.takeWhile_until before, eq_comm]
    simp
  · rw [if_neg opened]
    by_cases closed : '}' ∈ line
    · rw [if_pos closed, ← visible_nil_iff]
      obtain ⟨a, b, rfl, before⟩ := List.eq_append_cons_of_mem closed
      have shape : a ++ '}' :: b = (a ++ ['}']) ++ b := by simp
      rw [convert_closed noNul opened before, Occurs.dropWhile_until before, shape, visible_append _ b]
      simp
    · rw [if_neg closed, convert_plain noNul opened closed]
      simp

theorem flatMap_eq_iff {α β : Type} {f g : α → List β} {l : List α} (sub : ∀ a ∈ l, (f a).Sublist (g a)) :
    l.flatMap f = l.flatMap g ↔ ∀ a ∈ l, f a = g a := by
  induction l with
  | nil => simp
  | cons a l ih =>
    have later := ih fun b mem => sub b (List.mem_cons_of_mem a mem)
    have first := sub a List.mem_cons_self
    have rest := List.Sublist.flatMap_right l fun b mem => sub b (List.mem_cons_of_mem a mem)
    simp only [List.flatMap_cons, List.forall_mem_cons, ← later]
    constructor
    · intro same
      have sizes := congrArg List.length same
      simp only [List.length_append] at sizes
      have short := first.length_le
      have short' := rest.length_le
      exact ⟨first.eq_of_length (by omega), rest.eq_of_length (by omega)⟩
    · rintro ⟨here, there⟩
      rw [here, there]

/-- Characters behind the body end the output otherwise than the body ends. -/
theorem behind_plain {w : Wrapped} : ∀ c ∈ behind w.body w.back, c ≠ '}' := by
  intro c mem
  have inside : c ∈ w.back := by
    unfold behind at mem
    split at mem
    · exact mem
    · exact List.dropWhile_subset _ mem
  rintro rfl
  exact w.back_plain.2 inside

end Body

section Front
variable {p : CStr}

theorem short_behind (front : CStr) {text : CStr}
    (short : ∀ line ∈ (front ++ text).splitOn '\n', line.length < 1023) :
    ∀ line ∈ text.splitOn '\n', line.length < 1023 := by
  induction front using line_induction with
  | last p plain =>
    by_cases more : '\n' ∈ text
    · obtain ⟨x, rest, rfl, plain'⟩ := List.eq_append_cons_of_mem more
      rw [← List.append_assoc, List.splitOn_append_cons_self_of_not_mem (by simp [plain, plain'])] at short
      rw [List.splitOn_append_cons_self_of_not_mem plain']
      simp only [List.forall_mem_cons, List.length_append] at short ⊢
      exact ⟨by omega, short.2⟩
    · rw [List.splitOn_eq_singleton (by simp [plain, more])] at short
      rw [List.splitOn_eq_singleton more]
      simp at short ⊢
      omega
  | line q s plain ih =>
    rw [List.append_assoc, List.cons_append, List.splitOn_append_cons_self_of_not_mem plain] at short
    exact ih fun line mem => short line (List.mem_cons_of_mem q mem)

theorem converted_first (plain : '\n' ∉ p) (opened : '{' ∉ p) {t : CStr} (noNul : '\x00' ∉ p ++ '{' :: t)
    (short : ∀ line ∈ (p ++ '{' :: t).splitOn '\n', line.length < 1023) :
    convertText (p ++ '{' :: t) = convertText ('{' :: t) := by
  have short' := short_behind p short
  have same {s : CStr} (noNul : '\x00' ∉ p ++ '{' :: s) : convertLine (p ++ '{' :: s) = convertLine ('{' :: s) := by
    have alone : '\x00' ∉ [] ++ '{' :: s := by
      simp at noNul ⊢
      exact noNul.2
    rw [convert_opened noNul opened]
    exact (convert_opened alone (by simp)).symm
  by_cases more : '\n' ∈ t
  · obtain ⟨x, rest, rfl, plain'⟩ := List.eq_append_cons_of_mem more
    have line : '\n' ∉ p ++ '{' :: x := by simp [plain, plain']
    have line' : '\n' ∉ '{' :: x := by simp [plain']
    have shape : p ++ '{' :: (x ++ '\n' :: rest) = (p ++ '{' :: x) ++ '\n' :: rest := by simp
    have shape' : '{' :: (x ++ '\n' :: rest) = ('{' :: x) ++ '\n' :: rest := by simp
    rw [shape, List.splitOn_append_cons_self_of_not_mem line] at short
    rw [shape', List.splitOn_append_cons_self_of_not_mem line'] at short'
    rw [shape, shape', convertText, convertText, readLines_line line (short _ (by simp)),
      readLines_line line' (short' _ (by simp)), List.flatMap_cons, List.flatMap_cons]
    have first := same (s := x ++ ['\n']) (by simp at noNul ⊢; exact ⟨noNul.1, noNul.2.1⟩)
    simp only [List.append_assoc, List.cons_append] at first ⊢
    rw [first]
  · have line : '\n' ∉ p ++ '{' :: t := by simp [plain, more]
    have line' : '\n' ∉ '{' :: t := by simp [more]
    rw [List.splitOn_eq_singleton line] at short
    rw [List.splitOn_eq_singleton line'] at short'
    rw [convertText, convertText, readLines_last line (short _ (by simp)) (by simp),
      readLines_last line' (short' _ (by simp)) (by simp)]
    simp [same noNul]

theorem converted_front (front : CStr) (opened : '{' ∉ front) {t : CStr} (noNul : '\x00' ∉ front ++ '{' :: t)
    (short : ∀ line ∈ (front ++ '{' :: t).splitOn '\n', line.length < 1023) :
    convertText (front ++ '{' :: t) = convertText (wholeLines front) ++ convertText ('{' :: t) := by
  induction front using line_induction with
  | last p plain =>
    rw [wholeLines_plain plain, converted_first plain opened noNul short]
    rfl
  | line q s plain ih =>
    rw [List.append_assoc, List.cons_append] at noNul short ⊢
    rw [List.splitOn_append_cons_self_of_not_mem plain] at short
    have opened' : '{' ∉ s := fun mem => opened (by simp [mem])
    have noNul' : '\x00' ∉ s ++ '{' :: t := fun mem => noNul (by simp [mem])
    have later := ih opened' noNul' fun line mem => short line (List.mem_cons_of_mem q mem)
    have fits := short q (by simp)
    rw [wholeLines_line, convertText, readLines_line plain fits, List.flatMap_cons]
    rw [convertText, readLines_line plain fits, List.flatMap_cons, List.append_assoc]
    exact congrArg _ later

end Front

section Unwrapping
variable (w : Wrapped)

theorem converted_wrapped : convertText (w.front ++ (w.body ++ w.back)) =
    convertText (wholeLines w.front) ++ convertText (w.body ++ w.back) := by
  have noNul := w.noNul
  have short := w.short
  obtain ⟨t, shape⟩ := List.head?_eq_some_iff.mp w.starts
  rw [shape, List.cons_append] at noNul short ⊢
  exact converted_front w.front w.front_plain.1 noNul short

theorem noNul_body : '\x00' ∉ w.body ++ w.back := fun mem => w.noNul (List.mem_append_right _ mem)

theorem visible_wrapped : visible (convertText (w.body ++ w.back)) =
    ((w.body.splitOn '\n').flatMap fun line => visible (convertLine line)) ++ visible (behind w.body w.back) := by
  rw [visible_converted _ (noNul_body w) (short_behind w.front w.short),
    pieces_body (noNul_body w) w.ends w.back_plain.1 w.back_plain.2]

theorem piece_subset (text : CStr) : ∀ line ∈ text.splitOn '\n', line ⊆ text := by
  induction text using line_induction with
  | last p plain => simp [List.splitOn_eq_singleton plain]
  | line p s plain ih =>
    rw [List.splitOn_append_cons_self_of_not_mem plain]
    intro line mem
    rcases List.mem_cons.mp mem with rfl | later
    · simp
    · exact fun c inside => by simp [ih line later inside]

theorem piece_noNul : ∀ line ∈ w.body.splitOn '\n', '\x00' ∉ line := by
  intro line mem inside
  exact noNul_body w (List.mem_append_left _ (piece_subset w.body line mem inside))

theorem visible_ends : (visible w.body).getLast? = some '}' := by
  obtain ⟨t, shape⟩ := List.getLast?_eq_some_iff.mp w.ends
  rw [shape, visible_append]
  simp [visible, isBlank]

/-- The output is the body up to blanks exactly when its lines are kept and nothing else than
    blanks is written behind it. -/
theorem jsonp_unwrapped_iff : w.Unwrapped ↔ w.Kept := by
  have written : w.Unwrapped ↔ visible (convertText (w.body ++ w.back)) = visible w.body := by
    simp [Wrapped.Unwrapped, convertJsonpToJson, converted_wrapped w]
  rw [written, visible_wrapped]
  have lines := flatMap_eq_iff (l := w.body.splitOn '\n') (f := fun line => visible (convertLine line))
    (g := visible) fun line _ => (convertLine_sublist line).filter _
  rw [← visible_pieces] at lines
  constructor
  · intro same
    have nothing : visible (behind w.body w.back) = [] := by
      by_contra some
      have last := congrArg List.getLast? same
      rw [visible_ends, List.getLast?_append_of_ne_nil _ some] at last
      have inside := List.mem_of_getLast? last
      exact behind_plain _ (List.mem_of_mem_filter inside) rfl
    rw [nothing, List.append_nil, lines] at same
    refine ⟨?_, visible_nil_iff.mp nothing⟩
    intro line mem
    exact (lineKept_iff (piece_noNul w line mem)).mp (same line mem)
  · intro kept
    rw [visible_nil_iff.mpr kept.rest, List.append_nil, lines]
    intro line mem
    exact (lineKept_iff (piece_noNul w line mem)).mpr (kept.lines line mem)

end Unwrapping

section Samples

def oneLine : Wrapped where
  front := ['f', '(']
  body := ['{', '}']
  back := [')', ';']
  front_plain := by decide
  back_plain := by decide
  starts := rfl
  ends := rfl
  noNul := by decide
  short := by decide

def nested : Wrapped where
  front := ['f', '(', '\n']
  body := ['{', '\n', '"', 'a', '"', ':', '{', '\n', '}', '}']
  back := [')', ';', '\n']
  front_plain := by decide
  back_plain := by decide
  starts := rfl
  ends := rfl
  noNul := by decide
  short := by decide

/-- The end of the wrapping is written, and the name and a brace are lost. -/
theorem wrapping_written_and_body_lost :
    convertText (oneLine.front ++ (oneLine.body ++ oneLine.back)) = ['{', '}', ')', ';'] ∧
    ¬oneLine.Unwrapped ∧
    convertText (nested.front ++ (nested.body ++ nested.back)) =
      ['f', '(', '\n', '{', '\n', '{', '\n', '}'] ∧
    ¬nested.Unwrapped := by
  have first : convertText (oneLine.front ++ (oneLine.body ++ oneLine.back)) = ['{', '}', ')', ';'] := by decide
  have second : convertText (nested.front ++ (nested.body ++ nested.back)) =
      convertText (wholeLines nested.front) ++ ['{', '\n', '{', '\n', '}'] := by decide
  refine ⟨first, ?_, by decide, ?_⟩
  · rintro ⟨written, done, same⟩
    cases done
    exact absurd same (by decide)
  · rintro ⟨written, done, same⟩
    rw [convertJsonpToJson, second] at done
    simp only [Prod.mk.injEq, Option.some.injEq, List.append_cancel_left_eq, true_and] at done
    subst done
    exact absurd same (by decide)

end Samples

end TestSource.Jsonp
