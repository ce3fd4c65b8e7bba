import TestSource.Numeral
import TestSource.Recorded
import Mathlib.Data.Prod.Lex

/- test_compare_version.c of C_TEST: do_compare_img_version. A pointer into a version string
   is what is left of the string from there on, and is missing once it was computed from a
   search that found nothing. Every search and every copy is recorded. -/
namespace TestSource.Version
open Download

def dot : Byte := 46

/-- Where a search starts, inside its string or not, and how many bytes a copy into one of
    the two buffers of 10 bytes has. -/
inductive VersionEvent where
  | search (inside : Bool)
  | copy (len : Nat)
  deriving DecidableEq, Repr

/-- A pointer that is no place of its string cannot be searched from. -/
def searchFrom (p : Option (List Byte)) : Recorded VersionEvent (List Byte) :=
  Recorded.record (.search p.isSome) p

def copyPart (len : Nat) : Recorded VersionEvent Unit :=
  Recorded.record (.copy len) (if len < 10 then some () else none)

def dotAt (p : List Byte) : Option Nat := p.findIdx? (· = dot)

/-- One round of the loop: the two numbers and the pointers of the next round. -/
def versionRound (z : WordSize) (pCurVer pImgVer : Option (List Byte)) :
    Recorded VersionEvent ((Int × Int) × Option (List Byte) × Option (List Byte)) := do
  let cur ← searchFrom pCurVer
  let img ← searchFrom pImgVer
  let (len0, len1) := match dotAt cur, dotAt img with
    | some pTmp0, some pTmp1 => (pTmp0, pTmp1)
    | _, _ => (cur.length, img.length)
  let _ ← copyPart len0
  let _ ← copyPart len1
  pure ((atoi z (cur.take len0), atoi z (img.take len1)),
    (dotAt cur).map fun pTmp0 => cur.drop (pTmp0 + 1),
    (dotAt img).map fun pTmp1 => img.drop (pTmp1 + 1))

def compareLoop (z : WordSize) :
    Nat → Option (List Byte) → Option (List Byte) → Recorded VersionEvent Int
  | 0, _, _ => pure (-1)
  | rounds + 1, pCurVer, pImgVer => do
      let ((nCurVer, nImgVer), pCurVer, pImgVer) ← versionRound z pCurVer pImgVer
      if nCurVer < nImgVer then pure 0
      else if nCurVer > nImgVer then pure (-1)
      else compareLoop z rounds pCurVer pImgVer

/-- The first character of a version is skipped; behind an empty string there is nothing. -/
def behindFirst : List Byte → Option (List Byte)
  | [] => none
  | _ :: rest => some rest

def doCompareImgVersion (z : WordSize) (currentVersion imgVersion : Option (List Byte)) :
    Recorded VersionEvent Int :=
  match currentVersion, imgVersion with
  | some cur, some img => compareLoop z 3 (behindFirst cur) (behindFirst img)
  | _, _ => pure (-1)

section Rounds
open Recorded hiding pure bind
variable (z : WordSize) {a b p q p' q' : List Byte}

def Right : VersionEvent → Prop
  | .search inside => inside = true
  | .copy len => len < 10

theorem searchFrom_inside (p : List Byte) : Gives Right (searchFrom (some p)) p := gives_record p rfl

theorem searchFrom_right {p : Option (List Byte)} : Holds Right (searchFrom p) ↔ p.isSome = true :=
  holds_record (VersionEvent.search p.isSome) p

theorem copyPart_right {len : Nat} : Holds Right (copyPart len) ↔ len < 10 :=
  holds_record (VersionEvent.copy len) _

theorem copyPart_fits {len : Nat} (fits : len < 10) : Gives Right (copyPart len) () := by
  rw [copyPart, if_pos fits]
  exact gives_record () fits

theorem dotAt_none (plain : dot ∉ p) : dotAt p = none := Occurs.findIdx_absent plain

theorem dotAt_some (plain : dot ∉ a) (rest : List Byte) : dotAt (a ++ dot :: rest) = some a.length :=
  Occurs.findIdx_first plain rest

theorem versionRound_dots (curPlain : dot ∉ a) (imgPlain : dot ∉ b) (curFits : a.length < 10)
    (imgFits : b.length < 10) :
    Gives Right (versionRound z (some (a ++ dot :: p)) (some (b ++ dot :: q)))
      ((atoi z a, atoi z b), some p, some q) := by
  apply gives_bind (searchFrom_inside _)
  apply gives_bind (searchFrom_inside _)
  rw [dotAt_some curPlain, dotAt_some imgPlain]
  apply gives_bind (copyPart_fits curFits)
  apply gives_bind (copyPart_fits imgFits)
  simp only [Option.map_some]
  rw [List.take_left, List.take_left, ← List.drop_drop, List.drop_left, ← List.drop_drop, List.drop_left]
  exact gives_pure _

theorem lengths_whole (missing : dot ∉ p ∨ dot ∉ q) :
    (match dotAt p, dotAt q with
      | some pTmp0, some pTmp1 => (pTmp0, pTmp1)
      | _, _ => (p.length, q.length)) = (p.length, q.length) := by
  rcases missing with cur | img
  · rw [dotAt_none cur]
  · rw [dotAt_none img]
    cases dotAt p <;> rfl

theorem versionRound_last (missing : dot ∉ p ∨ dot ∉ q) (curFits : p.length < 10)
    (imgFits : q.length < 10) : ∃ curNext imgNext, (curNext = none ∨ imgNext = none) ∧
    Gives Right (versionRound z (some p) (some q)) ((atoi z p, atoi z q), curNext, imgNext) := by
  refine ⟨(dotAt p).map fun i => p.drop (i + 1), (dotAt q).map fun i => q.drop (i + 1), ?_, ?_⟩
  · rcases missing with cur | img
    · exact .inl (by rw [dotAt_none cur]; rfl)
    · exact .inr (by rw [dotAt_none img]; rfl)
  · apply gives_bind (searchFrom_inside _)
    apply gives_bind (searchFrom_inside _)
    rw [lengths_whole missing]
    apply gives_bind (copyPart_fits curFits)
    apply gives_bind (copyPart_fits imgFits)
    simp only [List.take_length]
    exact gives_pure _

theorem versionRound_long (missing : dot ∉ p ∨ dot ∉ q) (long : 10 ≤ p.length ∨ 10 ≤ q.length) :
    ¬Holds Right (versionRound z (some p) (some q)) := by
  intro right
  have searched := (holds_after (searchFrom_inside q)).mp ((holds_after (searchFrom_inside p)).mp right)
  rw [lengths_whole missing] at searched
  have copies := (holds_bind _ _).mp searched
  have curFits : p.length < 10 := copyPart_right.mp copies.1
  have later := (holds_after (copyPart_fits curFits)).mp searched
  have imgFits : q.length < 10 := copyPart_right.mp ((holds_bind _ _).mp later).1
  omega

def Safe (run : Recorded VersionEvent Int) : Prop := Holds Right run ∧ run.value.isSome = true

theorem safe_pure (n : Int) : Safe (pure n) := ⟨holds_pure n, rfl⟩

theorem safe_after {α : Type} {t : Recorded VersionEvent α} {f : α → Recorded VersionEvent Int} {x : α}
    (first : Gives Right t x) : Safe (t >>= f) ↔ Safe (f x) := by
  rw [Safe, holds_after first, value_bind, first.value, Option.bind_some]
  rfl

theorem compareLoop_lost {curNext imgNext : Option (List Byte)} (rounds : Nat)
    (lost : curNext = none ∨ imgNext = none) : ¬Safe (compareLoop z (rounds + 1) curNext imgNext) := by
  intro safe
  have round := ((holds_bind _ _).mp safe.1).1
  have first := (holds_bind _ _).mp round
  have cur : curNext.isSome = true := searchFrom_right.mp first.1
  obtain ⟨p, rfl⟩ := Option.isSome_iff_exists.mp cur
  have img : imgNext.isSome = true :=
    searchFrom_right.mp ((holds_bind _ _).mp (first.2 p rfl)).1
  rcases lost with none | none
  · cases none
  · rw [none] at img
    cases img

theorem compared_iff {m n : Int} {next : Recorded VersionEvent Int} :
    Safe (if m < n then pure 0 else if m > n then pure (-1) else next) ↔ m ≠ n ∨ Safe next := by
  rcases Int.lt_trichotomy m n with less | same | more
  · rw [if_pos less]
    exact iff_of_true (safe_pure 0) (.inl (by omega))
  · rw [if_neg (by omega), if_neg (by omega)]
    constructor
    · exact .inr
    · rintro (differ | safe)
      · exact absurd same differ
      · exact safe
  · rw [if_neg (by omega), if_pos more]
    exact iff_of_true (safe_pure (-1)) (.inl (by omega))

theorem compareLoop_dots (rounds : Nat) (curPlain : dot ∉ a) (imgPlain : dot ∉ b)
    (curFits : a.length < 10) (imgFits : b.length < 10) :
    Safe (compareLoop z (rounds + 1) (some (a ++ dot :: p)) (some (b ++ dot :: q))) ↔
      atoi z a ≠ atoi z b ∨ Safe (compareLoop z rounds (some p) (some q)) := by
  rw [compareLoop, safe_after (versionRound_dots z curPlain imgPlain curFits imgFits)]
  exact compared_iff

theorem compareLoop_last (rounds : Nat) (missing : dot ∉ p ∨ dot ∉ q) (curFits : p.length < 10)
    (imgFits : q.length < 10) :
    Safe (compareLoop z (rounds + 1) (some p) (some q)) ↔ atoi z p ≠ atoi z q ∨ rounds = 0 := by
  obtain ⟨curNext, imgNext, lost, round⟩ := versionRound_last z missing curFits imgFits
  have rest : Safe (compareLoop z rounds curNext imgNext) ↔ rounds = 0 := by
    cases rounds with
    | zero => exact iff_of_true (safe_pure (-1)) rfl
    | succ rounds => exact iff_of_false (compareLoop_lost z rounds lost) (Nat.succ_ne_zero rounds)
  rw [compareLoop, safe_after round, ← rest]
  exact compared_iff

end Rounds

section Components
variable (z : WordSize)

def numbers (p : List Byte) : List Int := (p.splitOn dot).map (atoi z)

theorem numbers_plain {p : List Byte} (plain : dot ∉ p) : numbers z p = [atoi z p] := by
  rw [numbers, List.splitOn_eq_singleton plain]
  rfl

theorem numbers_dot {a : List Byte} (plain : dot ∉ a) (p : List Byte) :
    numbers z (a ++ dot :: p) = atoi z a :: numbers z p := by
  rw [numbers, List.splitOn_append_cons_self_of_not_mem plain]
  rfl

theorem numbers_first (p : List Byte) : ∃ later, numbers z p = atoi z p :: later := by
  by_cases plain : dot ∈ p
  · obtain ⟨a, rest, rfl, before⟩ := List.eq_append_cons_of_mem plain
    refine ⟨numbers z rest, ?_⟩
    rw [numbers_dot z before, atoi_stops z a rest (by decide) (by decide) (by decide)]
  · exact ⟨[], numbers_plain z plain⟩

def common (p q : List Byte) : Nat := min (numbers z p).length (numbers z q).length

theorem common_missing {p q : List Byte} (missing : dot ∉ p ∨ dot ∉ q) : common z p q = 1 := by
  obtain ⟨later, cur⟩ := numbers_first z p
  obtain ⟨more, img⟩ := numbers_first z q
  rcases missing with plain | plain
  · rw [common, numbers_plain z plain, img, List.length_singleton, List.length_cons]
    omega
  · rw [common, numbers_plain z plain, cur, List.length_singleton, List.length_cons]
    omega

theorem common_dots {a b : List Byte} (curPlain : dot ∉ a) (imgPlain : dot ∉ b) (p q : List Byte) :
    common z (a ++ dot :: p) (b ++ dot :: q) = common z p q + 1 := by
  rw [common, numbers_dot z curPlain, numbers_dot z imgPlain, List.length_cons, List.length_cons, common]
  omega

def Differ (p q : List Byte) : Prop :=
  (numbers z p).take (common z p q) ≠ (numbers z q).take (common z p q)

theorem differ_dots {a b : List Byte} (curPlain : dot ∉ a) (imgPlain : dot ∉ b) (p q : List Byte) :
    Differ z (a ++ dot :: p) (b ++ dot :: q) ↔ atoi z a ≠ atoi z b ∨ Differ z p q := by
  rw [Differ, common_dots z curPlain imgPlain, numbers_dot z curPlain, numbers_dot z imgPlain,
    List.take_succ_cons, List.take_succ_cons, ne_eq, List.cons.injEq, not_and_or]
  rfl

theorem differ_missing {p q : List Byte} (missing : dot ∉ p ∨ dot ∉ q) :
    Differ z p q ↔ atoi z p ≠ atoi z q := by
  obtain ⟨later, cur⟩ := numbers_first z p
  obtain ⟨more, img⟩ := numbers_first z q
  rw [Differ, common_missing z missing, cur, img]
  simp

theorem dots_or_missing (p q : List Byte) :
    (∃ a p' b q', dot ∉ a ∧ dot ∉ b ∧ p = a ++ dot :: p' ∧ q = b ++ dot :: q') ∨ dot ∉ p ∨ dot ∉ q := by
  by_cases cur : dot ∈ p
  · by_cases img : dot ∈ q
    · obtain ⟨a, p', curParts, curPlain⟩ := List.eq_append_cons_of_mem cur
      obtain ⟨b, q', imgParts, imgPlain⟩ := List.eq_append_cons_of_mem img
      exact .inl ⟨a, p', b, q', curPlain, imgPlain, curParts, imgParts⟩
    · exact .inr (.inr img)
  · exact .inr (.inl cur)

/-- Strings whose ends fit the buffers are compared safely when they have a component for each
    round, or differ before. -/
theorem compareLoop_safe_iff (rounds : Nat) {p q : List Byte} (curFits : p.length < 10)
    (imgFits : q.length < 10) :
    Safe (compareLoop z rounds (some p) (some q)) ↔ rounds ≤ common z p q ∨ Differ z p q := by
  induction rounds generalizing p q with
  | zero => exact iff_of_true (safe_pure (-1)) (.inl (Nat.zero_le _))
  | succ rounds ih =>
    rcases dots_or_missing p q with ⟨a, p', b, q', curPlain, imgPlain, rfl, rfl⟩ | missing
    · rw [List.length_append, List.length_cons] at curFits imgFits
      rw [compareLoop_dots z rounds curPlain imgPlain (by omega) (by omega), ih (by omega) (by omega),
        common_dots z curPlain imgPlain, differ_dots z curPlain imgPlain, Nat.add_le_add_iff_right,
        or_left_comm]
    · rw [compareLoop_last z rounds missing curFits imgFits, common_missing z missing,
        differ_missing z missing, or_comm, Nat.add_le_add_iff_right (n := 1) (k := 0), Nat.le_zero]

end Components

/-- The two have a dot behind the first character or fewer than 11 characters, and they have
    two dots each or differ in a component that both have. -/
def SafeVersions (z : WordSize) (cur img : List Byte) : Prop :=
  ((dot ∈ cur.drop 1 ∧ dot ∈ img.drop 1) ∨ (cur.length ≤ 10 ∧ img.length ≤ 10)) ∧
    (3 ≤ common z (cur.drop 1) (img.drop 1) ∨ Differ z (cur.drop 1) (img.drop 1))

theorem version_compare_safe_iff (z : WordSize) {cur img : List Byte}
    (curSome : 1 ≤ cur.length) (curFew : cur.length ≤ 11) (imgSome : 1 ≤ img.length)
    (imgFew : img.length ≤ 11) :
    Safe (doCompareImgVersion z (some cur) (some img)) ↔ SafeVersions z cur img := by
  obtain ⟨c, p, rfl⟩ := List.exists_cons_of_length_pos curSome
  obtain ⟨d, q, rfl⟩ := List.exists_cons_of_length_pos imgSome
  have loop : doCompareImgVersion z (some (c :: p)) (some (d :: q)) = compareLoop z 3 (some p) (some q) :=
    rfl
  rw [loop, SafeVersions, List.drop_one, List.drop_one, List.tail_cons, List.tail_cons]
  rw [List.length_cons] at curFew imgFew ⊢
  rw [List.length_cons]
  rcases dots_or_missing p q with ⟨a, p', b, q', curPlain, imgPlain, rfl, rfl⟩ | missing
  · rw [List.length_append, List.length_cons] at curFew imgFew
    have more : 3 ≤ common z p' q' + 1 ↔ 2 ≤ common z p' q' := by omega
    rw [compareLoop_dots z 2 curPlain imgPlain (by omega) (by omega),
      compareLoop_safe_iff z 2 (by omega) (by omega), common_dots z curPlain imgPlain,
      differ_dots z curPlain imgPlain, more, or_left_comm]
    simp only [List.mem_append, List.mem_cons, true_or, or_true, true_and, and_self]
  · have short : ¬(dot ∈ p ∧ dot ∈ q) := by
      rintro ⟨cur, img⟩
      rcases missing with plain | plain
      · exact plain cur
      · exact plain img
    simp only [short, false_or, common_missing z missing, differ_missing z missing]
    by_cases fits : p.length < 10 ∧ q.length < 10
    · rw [compareLoop_last z 2 missing fits.1 fits.2]
      omega
    · apply iff_of_false
      · intro safe
        exact versionRound_long z missing (by omega) ((Recorded.holds_bind _ _).mp safe.1).1
      · omega

theorem equal_short_versions_safe :
    Safe (doCompareImgVersion .bits32 (some (ascii ['v', '1', '.', '2', '.', '3']))
      (some (ascii ['v', '1', '.', '2', '.', '3']))) := by
  apply (version_compare_safe_iff .bits32 (by decide) (by decide) (by decide) (by decide)).mpr
  exact ⟨.inr (by decide), .inl (by decide +kernel)⟩

/-- Equal versions with one dot are searched from no place, and eleven characters without a dot
    fill a buffer. -/
theorem short_and_long_versions_unsafe :
    ¬Safe (doCompareImgVersion .bits32 (some (ascii ['v', '1', '.', '2']))
      (some (ascii ['v', '1', '.', '2']))) ∧
    ¬Safe (doCompareImgVersion .bits32
      (some (ascii ['v', '1', '2', '3', '4', '5', '6', '7', '8', '9', '0']))
      (some (ascii ['v', '1']))) := by
  constructor
  · intro safe
    have lost := safe.1 (.search false) (by decide +kernel)
    cases lost
  · intro safe
    have full : 10 < 10 := safe.1 (.copy 10) (by decide +kernel)
    exact absurd full (by decide)

section Order
open Recorded hiding pure bind
variable (z : WordSize)

structure Component where
  digits : List Byte
  decimal : ∀ b ∈ digits, isDigit b = true
  nonempty : digits ≠ []
  few : digits.length ≤ 9

def Component.value (c : Component) : Nat := number c.digits

theorem atoi_component (c : Component) : atoi z c.digits = c.value := by
  apply atoi_digits z c.decimal
  have size : 10 ^ c.digits.length ≤ 10 ^ 9 := Nat.pow_le_pow_right (by decide) c.few
  exact Nat.lt_of_lt_of_le (number_lt c.decimal) (Nat.le_trans size (by decide))

theorem component_plain (c : Component) : dot ∉ c.digits := by
  intro mem
  exact absurd (c.decimal dot mem) (by decide)

structure Dotted where
  first : Byte
  major : Component
  minor : Component
  patch : Component

def Dotted.text (v : Dotted) : List Byte :=
  v.first :: (v.major.digits ++ dot :: (v.minor.digits ++ dot :: v.patch.digits))

def Dotted.triple (v : Dotted) : Nat ×ₗ Nat ×ₗ Nat :=
  toLex (v.major.value, toLex (v.minor.value, v.patch.value))

theorem compareLoop_value {rounds : Nat} {p q p' q' : Option (List Byte)} {m n : Int}
    (round : Gives Right (versionRound z p q) ((m, n), p', q')) :
    (compareLoop z (rounds + 1) p q).value =
      if m < n then some 0 else if m > n then some (-1) else (compareLoop z rounds p' q').value := by
  rw [compareLoop, value_bind, round.value, Option.bind_some]
  show (if m < n then pure 0 else if m > n then pure (-1) else compareLoop z rounds p' q').value = _
  split
  · rfl
  · split
    · rfl
    · rfl

theorem compare_dotted (cur img : Dotted) :
    (doCompareImgVersion z (some cur.text) (some img.text)).value =
      some (if cur.triple < img.triple then 0 else -1) := by
  have fits : ∀ c : Component, c.digits.length < 10 := fun c => Nat.lt_succ_of_le c.few
  have first := versionRound_dots z (component_plain cur.major) (component_plain img.major)
    (fits cur.major) (fits img.major) (p := cur.minor.digits ++ dot :: cur.patch.digits)
    (q := img.minor.digits ++ dot :: img.patch.digits)
  have second := versionRound_dots z (component_plain cur.minor) (component_plain img.minor)
    (fits cur.minor) (fits img.minor) (p := cur.patch.digits) (q := img.patch.digits)
  obtain ⟨p, q, _, third⟩ := versionRound_last z (.inl (component_plain cur.patch)) (fits cur.patch)
    (fits img.patch)
  have loop : doCompareImgVersion z (some cur.text) (some img.text) = compareLoop z 3
      (some (cur.major.digits ++ dot :: (cur.minor.digits ++ dot :: cur.patch.digits)))
      (some (img.major.digits ++ dot :: (img.minor.digits ++ dot :: img.patch.digits))) := rfl
  rw [loop, compareLoop_value z first, compareLoop_value z second, compareLoop_value z third]
  simp only [atoi_component, Dotted.triple, Prod.Lex.toLex_lt_toLex]
  split_ifs <;> first | rfl | (exfalso; omega)

def Upgrade (cur img : Dotted) : Prop :=
  (doCompareImgVersion z (some cur.text) (some img.text)).value = some 0

theorem upgrade_iff (cur img : Dotted) : Upgrade z cur img ↔ cur.triple < img.triple := by
  rw [Upgrade, compare_dotted]
  split
  · next less => exact iff_of_true rfl less
  · next least => exact iff_of_false (by decide) least

theorem version_compare_is_numeric_order :
    (∀ cur img : Dotted,
      (doCompareImgVersion z (some cur.text) (some img.text)).value =
        some (if cur.triple < img.triple then 0 else -1)) ∧
    (∀ v, ¬Upgrade z v v) ∧
    (∀ v w, Upgrade z v w → ¬Upgrade z w v) ∧
    (∀ u v w, Upgrade z u v → Upgrade z v w → Upgrade z u w) ∧
    (∀ v w : Dotted, v.triple ≠ w.triple → Upgrade z v w ∨ Upgrade z w v) := by
  simp only [upgrade_iff]
  refine ⟨compare_dotted z, fun v => lt_irrefl v.triple, ?_, ?_, ?_⟩
  · intro v w less
    exact lt_asymm less
  · intro u v w less more
    exact lt_trans less more
  · intro v w differ
    exact lt_or_gt_of_ne differ

end Order

theorem tenth_version_is_later : ∃ v w : Dotted,
    v.text = ascii ['v', '1', '.', '0', '9', '.', '7'] ∧
    w.text = ascii ['v', '1', '.', '1', '0', '.', '2'] ∧ Upgrade .bits32 v w := by
  let v : Dotted := ⟨118, ⟨ascii ['1'], by decide, by decide, by decide⟩,
    ⟨ascii ['0', '9'], by decide, by decide, by decide⟩, ⟨ascii ['7'], by decide, by decide, by decide⟩⟩
  let w : Dotted := ⟨118, ⟨ascii ['1'], by decide, by decide, by decide⟩,
    ⟨ascii ['1', '0'], by decide, by decide, by decide⟩, ⟨ascii ['2'], by decide, by decide, by decide⟩⟩
  have differ : v.triple ≠ w.triple := by decide
  have order := version_compare_is_numeric_order .bits32
  refine ⟨v, w, by decide, by decide, ?_⟩
  rcases order.2.2.2.2 v w differ with later | earlier
  · exact later
  · exact absurd ((upgrade_iff .bits32 w v).mp earlier) (by decide)

end TestSource.Version
