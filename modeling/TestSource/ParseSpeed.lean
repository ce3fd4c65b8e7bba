import TestSource.Common
import TestSource.Extremes
import Mathlib.Algebra.BigOperators.Group.List.Basic
import Mathlib.Algebra.Ring.Int.Defs
import Mathlib.Data.List.DropRight
import Mathlib.Data.List.Induction
import Mathlib.Logic.Function.Basic
import Mathlib.Order.Lattice

/- parse_speed.py: the summary of one file of speeds. A file is the list of its lines; no
   result means that an exception is raised. A dictionary is a function from its keys, and a
   key of an inner dictionary that may be missing is an option. -/
namespace TestSource.ParseSpeed

def versionList : List CStr :=
  ["V1.0.808", "V1.0.805", "V1.0.1334", "V1.0.1064", "V1.0.1406", "V1.0.1385"].map String.toList

structure Row where
  version : CStr
  minspeed : Int
  maxspeed : Int
  avgspeed : Int
  deriving DecidableEq, Repr

def isSpace (c : Char) : Bool := c ∈ [' ', '\t', '\n', '\x0b', '\x0c', '\r']

def natural (s : CStr) : Option Int :=
  if s ≠ [] ∧ s.all Char.isDigit then some (s.foldl (fun n c => n * 10 + (c.toNat - 48)) (0 : Nat)) else none

/-- int(s): a number may have a sign and blanks around it. -/
def int (s : CStr) : Option Int :=
  match (s.dropWhile isSpace).rdropWhile isSpace with
  | '-' :: digits => (natural digits).map fun n => -n
  | '+' :: digits => natural digits
  | digits => natural digits

/-- The pattern takes the last five commas before the newline for its separators. -/
def rowOf (line : CStr) : Option Row :=
  match ((line.takeWhile (· ≠ '\n')).splitOn ',').reverse with
  | avgspeed :: maxspeed :: minspeed :: version :: _ :: _ :: _ => do
      some ⟨version, ← int minspeed, ← int maxspeed, ← int avgspeed⟩
  | _ => none

def Row.Silent (r : Row) : Prop := (r.minspeed, r.maxspeed, r.avgspeed) = (0, 0, 0)

instance (r : Row) : Decidable r.Silent := inferInstanceAs (Decidable (_ = _))

structure VersionInfo where
  noSpeed : Option Int
  validSpeed : Option Int
  avgSpeed : Option Int
  minspeed : Option Int
  maxspeed : Option Int
  deriving DecidableEq, Repr

structure Totals where
  zeroSpeedCount : Int
  validSpeedCount : Int
  avgspeedAll : Int
  minspeedAll : Int
  maxspeedAll : Int
  result : CStr → VersionInfo

def start : Totals := ⟨0, 0, 0, 0, 0, fun _ => ⟨none, none, none, none, none⟩⟩

/-- The counters of the version of a row; the first silent row sets its counter to zero. -/
def countRow (info : VersionInfo) (r : Row) : VersionInfo :=
  if r.Silent then
    { info with noSpeed := some (match info.noSpeed with | none => 0 | some n => n + 1) }
  else
    { info with
      validSpeed := some (match info.validSpeed with | none => 1 | some n => n + 1)
      avgSpeed := some (match info.avgSpeed with | none => r.avgspeed | some s => s + r.avgspeed) }

def minStep (minspeedAll minspeed : Int) : Int :=
  min (if minspeedAll = 0 then minspeed else minspeedAll) minspeed

def rowStep (t : Totals) (r : Row) : Totals :=
  let minspeedAll := minStep t.minspeedAll r.minspeed
  let maxspeedAll := max t.maxspeedAll r.maxspeed
  { zeroSpeedCount := if r.Silent then t.zeroSpeedCount + 1 else t.zeroSpeedCount
    validSpeedCount := if r.Silent then t.validSpeedCount else t.validSpeedCount + 1
    avgspeedAll := if r.Silent then t.avgspeedAll else t.avgspeedAll + r.avgspeed
    minspeedAll
    maxspeedAll
    result :=
      if r.version ∈ versionList then
        Function.update t.result r.version
          { countRow (t.result r.version) r with minspeed := some minspeedAll, maxspeed := some maxspeedAll }
      else t.result }

def averaged (info : VersionInfo) : VersionInfo :=
  match info.avgSpeed, info.validSpeed with
  | some sum, some n => { info with avgSpeed := some (sum / n) }
  | _, _ => info

structure Summary where
  zeroSpeedCount : Int
  validSpeedCount : Int
  avgspeed : Int
  minspeed : Int
  maxspeed : Int
  versionInfo : CStr → VersionInfo

def parseTheCommonInfo (file : List CStr) : Option Summary := do
  let rows ← (file.drop 1).mapM rowOf
  let t := rows.foldl rowStep start
  if t.validSpeedCount = 0 then none
  else some ⟨t.zeroSpeedCount, t.validSpeedCount, t.avgspeedAll / t.validSpeedCount, t.minspeedAll,
    t.maxspeedAll, fun version => averaged (t.result version)⟩

section RunningMinimum

def minRun (xs : List Int) : Int := xs.foldl minStep 0

/-- The values that the running minimum stands for: it starts anew behind a zero, unless a value
    before was negative. -/
def counted (xs : List Int) : List Int :=
  if (∃ x ∈ xs, x < 0) ∨ xs.getLast? = some 0 then xs else xs.rtakeWhile (· ≠ 0)

theorem minRun_snoc (xs : List Int) (x : Int) : minRun (xs ++ [x]) = minStep (minRun xs) x := by
  rw [minRun, List.foldl_append]
  rfl

theorem minRun_nonneg {xs : List Int} (nonneg : ∀ x ∈ xs, 0 ≤ x) :
    0 ≤ minRun xs ∧ ∀ x, xs.getLast? = some x → (minRun xs = 0 ↔ x = 0) := by
  induction xs using List.reverseRecOn with
  | nil => simp [minRun]
  | append_singleton xs x ih =>
    obtain ⟨before, _⟩ := ih fun y mem => nonneg y (by simp [mem])
    have here := nonneg x (by simp)
    rw [minRun_snoc, minStep]
    constructor
    · split <;> omega
    · intro y last
      simp at last
      split <;> omega

theorem nonneg_of_none {xs : List Int} (none : ¬∃ x ∈ xs, x < 0) : ∀ x ∈ xs, 0 ≤ x := by
  intro x mem
  exact Int.not_lt.mp fun below => none ⟨x, mem, below⟩

theorem minRun_negative {xs : List Int} (negative : ∃ x ∈ xs, x < 0) : xs.min? = some (minRun xs) := by
  induction xs using List.reverseRecOn with
  | nil => simp at negative
  | append_singleton xs x ih =>
    rw [minRun_snoc, minStep]
    by_cases before : ∃ y ∈ xs, y < 0
    · have least := ih before
      obtain ⟨y, mem, below⟩ := before
      have low := (List.min?_eq_some_iff.mp least).2 y mem
      rw [if_neg (by omega), Extremes.min_snoc least]
    · -- the first negative value is below everything before it
      have nonneg := nonneg_of_none before
      have low := (minRun_nonneg nonneg).1
      have here : x < 0 := by
        obtain ⟨y, mem, below⟩ := negative
        rcases List.mem_append.mp mem with old | new
        · exact absurd ⟨y, old, below⟩ before
        · rw [← List.mem_singleton.mp new]
          exact below
      have value : min (if minRun xs = 0 then x else minRun xs) x = x := by
        split <;> omega
      rw [value, List.min?_eq_some_iff]
      refine ⟨by simp, ?_⟩
      intro y mem
      rcases List.mem_append.mp mem with old | new
      · have := nonneg y old
        omega
      · rw [List.mem_singleton.mp new]

theorem minRun_positive {xs : List Int} (some : xs ≠ []) (nonneg : ∀ x ∈ xs, 0 ≤ x)
    (last : xs.getLast? ≠ Option.some 0) :
    (xs.rtakeWhile (· ≠ 0)).min? = Option.some (minRun xs) := by
  induction xs using List.reverseRecOn with
  | nil => exact absurd rfl some
  | append_singleton xs x ih =>
    have differ : x ≠ 0 := by simpa using last
    have before : ∀ y ∈ xs, 0 ≤ y := fun y mem => nonneg y (by simp [mem])
    rw [minRun_snoc, minStep, List.rtakeWhile_concat_pos _ _ _ (by simpa using differ)]
    by_cases fresh : xs = [] ∨ xs.getLast? = Option.some 0
    · have ended : xs.rtakeWhile (· ≠ 0) = [] := by
        rw [List.rtakeWhile_eq_nil_iff]
        intro more
        rcases fresh with empty | zero
        · exact absurd empty more
        · rw [List.getLast?_eq_some_getLast more] at zero
          simp [Option.some.inj zero]
      have zero : minRun xs = 0 := by
        rcases fresh with empty | zero
        · subst empty
          rfl
        · exact ((minRun_nonneg before).2 0 zero).mpr rfl
      rw [ended, if_pos zero]
      simp
    · rw [not_or] at fresh
      have least := ih fresh.1 before fresh.2
      have nonzero : minRun xs ≠ 0 := by
        have inside := (List.min?_eq_some_iff.mp least).1
        simpa using List.mem_rtakeWhile_imp inside
      rw [if_neg nonzero, Extremes.min_snoc least]

theorem minRun_counted {xs : List Int} (some : xs ≠ []) : (counted xs).min? = Option.some (minRun xs) := by
  unfold counted
  split
  · rename_i whole
    by_cases negative : ∃ x ∈ xs, x < 0
    · exact minRun_negative negative
    · have nonneg := nonneg_of_none negative
      have zero := whole.resolve_left negative
      have value := ((minRun_nonneg nonneg).2 0 zero).mpr rfl
      rw [value, List.min?_eq_some_iff]
      exact ⟨List.mem_of_getLast? zero, nonneg⟩
  · rename_i rest
    rw [not_or] at rest
    exact minRun_positive some (nonneg_of_none rest.1) rest.2

def maxRun (xs : List Int) : Int := xs.foldl max 0

theorem maxRun_snoc (xs : List Int) (x : Int) : maxRun (xs ++ [x]) = max (maxRun xs) x := by
  rw [maxRun, List.foldl_append]
  rfl

theorem maxRun_greatest (xs : List Int) : (0 :: xs).max? = some (maxRun xs) := rfl

end RunningMinimum

section Counters

def own (version : CStr) (rows : List Row) : List Row := rows.filter (·.version = version)

def silent (rows : List Row) : List Row := rows.filter fun r => r.Silent

def speaking (rows : List Row) : List Row := rows.filter fun r => ¬r.Silent

def upto (version : CStr) (rows : List Row) : List Row := rows.rdropWhile (·.version ≠ version)

theorem silent_snoc {r : Row} (quiet : r.Silent) (rows : List Row) :
    silent (rows ++ [r]) = silent rows ++ [r] := by
  simp [silent, quiet]

theorem silent_snoc_speaking {r : Row} (speaks : ¬r.Silent) (rows : List Row) :
    silent (rows ++ [r]) = silent rows := by
  simp [silent, speaks]

theorem speaking_snoc {r : Row} (speaks : ¬r.Silent) (rows : List Row) :
    speaking (rows ++ [r]) = speaking rows ++ [r] := by
  simp [speaking, speaks]

theorem speaking_snoc_silent {r : Row} (quiet : r.Silent) (rows : List Row) :
    speaking (rows ++ [r]) = speaking rows := by
  simp [speaking, quiet]

def totals (rows : List Row) : Totals := rows.foldl rowStep start

theorem totals_snoc (rows : List Row) (r : Row) : totals (rows ++ [r]) = rowStep (totals rows) r := by
  rw [totals, List.foldl_append]
  rfl

theorem totals_counted (rows : List Row) :
    (totals rows).zeroSpeedCount = (silent rows).length ∧
    (totals rows).validSpeedCount = (speaking rows).length ∧
    (totals rows).avgspeedAll = ((speaking rows).map (·.avgspeed)).sum := by
  induction rows using List.reverseRecOn with
  | nil => simp [totals, start, silent, speaking]
  | append_singleton rows r ih =>
    obtain ⟨zero, valid, sum⟩ := ih
    rw [totals_snoc]
    by_cases quiet : r.Silent
    · rw [silent_snoc quiet, speaking_snoc_silent quiet]
      simp [rowStep, quiet, zero, valid, sum]
    · rw [silent_snoc_speaking quiet, speaking_snoc quiet]
      simp [rowStep, quiet, zero, valid, sum]

theorem totals_extremes (rows : List Row) :
    (totals rows).minspeedAll = minRun (rows.map (·.minspeed)) ∧
    (totals rows).maxspeedAll = maxRun (rows.map (·.maxspeed)) := by
  induction rows using List.reverseRecOn with
  | nil => simp [totals, start, minRun, maxRun]
  | append_singleton rows r ih =>
    rw [totals_snoc, List.map_append, List.map_append]
    exact ⟨by simp [rowStep, ih.1, minRun_snoc], by simp [rowStep, ih.2, maxRun_snoc]⟩

theorem own_snoc_same (rows : List Row) (r : Row) : own r.version (rows ++ [r]) = own r.version rows ++ [r] := by
  simp [own]

theorem own_snoc_other {rows : List Row} {r : Row} {version : CStr} (other : r.version ≠ version) :
    own version (rows ++ [r]) = own version rows := by
  simp [own, other]

theorem upto_snoc_same (rows : List Row) (r : Row) : upto r.version (rows ++ [r]) = rows ++ [r] := by
  simp [upto]

theorem upto_snoc_other {rows : List Row} {r : Row} {version : CStr} (other : r.version ≠ version) :
    upto version (rows ++ [r]) = upto version rows := by
  rw [upto, List.rdropWhile_concat_pos _ _ _ (by simpa using other)]
  rfl

/-- The entry of a version: the counter of silent rows is one behind, and the extremes are the
    overall ones at the last row of the version. -/
def infoOf (version : CStr) (rows : List Row) : VersionInfo :=
  let quiet := (silent (own version rows)).length
  let valid := speaking (own version rows)
  { noSpeed := if quiet = 0 then none else some (quiet - 1)
    validSpeed := if valid = [] then none else some valid.length
    avgSpeed := if valid = [] then none else some (valid.map (·.avgspeed)).sum
    minspeed := if own version rows = [] then none else some (minRun ((upto version rows).map (·.minspeed)))
    maxspeed := if own version rows = [] then none else some (maxRun ((upto version rows).map (·.maxspeed))) }

theorem result_infoOf {version : CStr} (listed : version ∈ versionList) (rows : List Row) :
    (totals rows).result version = infoOf version rows := by
  induction rows using List.reverseRecOn with
  | nil => rfl
  | append_singleton rows r ih =>
    rw [totals_snoc]
    by_cases same : r.version = version
    · subst same
      have lowest : minStep (totals rows).minspeedAll r.minspeed
          = minRun ((rows ++ [r]).map (·.minspeed)) := by
        rw [(totals_extremes rows).1, List.map_append]
        exact (minRun_snoc _ _).symm
      have highest : max (totals rows).maxspeedAll r.maxspeed
          = maxRun ((rows ++ [r]).map (·.maxspeed)) := by
        rw [(totals_extremes rows).2, List.map_append]
        exact (maxRun_snoc _ _).symm
      simp only [rowStep, listed, if_true, Function.update_self, ih, lowest, highest]
      simp only [infoOf, own_snoc_same, upto_snoc_same, countRow]
      by_cases quiet : r.Silent
      · rw [silent_snoc quiet, speaking_snoc_silent quiet]
        cases silent (own r.version rows) <;> simp [quiet]
      · rw [silent_snoc_speaking quiet, speaking_snoc quiet]
        cases speaking (own r.version rows) <;> simp [quiet, Int.add_assoc]
    · have kept : (rowStep (totals rows) r).result version = (totals rows).result version := by
        simp only [rowStep]
        split
        · exact Function.update_of_ne (fun eq => same eq.symm) _ _
        · rfl
      rw [kept, ih, infoOf, infoOf, own_snoc_other same, upto_snoc_other same]

theorem averaged_infoOf (version : CStr) (rows : List Row) :
    averaged (infoOf version rows) =
      { infoOf version rows with
        avgSpeed :=
          let valid := speaking (own version rows)
          if valid = [] then none else some ((valid.map (·.avgspeed)).sum / valid.length) } := by
  by_cases none : speaking (own version rows) = [] <;> simp [averaged, infoOf, none]

def summaryOf (rows : List Row) : Summary :=
  ⟨(silent rows).length, (speaking rows).length,
    ((speaking rows).map (·.avgspeed)).sum / (speaking rows).length, minRun (rows.map (·.minspeed)),
    maxRun (rows.map (·.maxspeed)), fun version => averaged ((totals rows).result version)⟩

theorem parseTheCommonInfo_eq {header : CStr} {lines : List CStr} {rows : List Row}
    (parsed : lines.mapM rowOf = some rows) (valid : ∃ r ∈ rows, ¬r.Silent) :
    parseTheCommonInfo (header :: lines) = some (summaryOf rows) := by
  obtain ⟨zero, count, sum⟩ := totals_counted rows
  obtain ⟨lowest, highest⟩ := totals_extremes rows
  obtain ⟨r, mem, speaks⟩ := valid
  have inside : r ∈ speaking rows := by simp [speaking, mem, speaks]
  have positive := List.length_pos_of_mem inside
  rw [totals] at zero count sum lowest highest
  have several : (rows.foldl rowStep start).validSpeedCount ≠ 0 := by omega
  simp only [parseTheCommonInfo, List.drop_one, List.tail_cons, parsed, Option.bind_eq_bind,
    Option.bind_some, if_neg several]
  rw [zero, count, sum, lowest, highest]
  rfl

end Counters

section Versions

structure VersionInfo.Describes (info : VersionInfo) (rows : List Row) : Prop where
  noSpeed : info.noSpeed.getD 0 = (silent rows).length
  validSpeed : info.validSpeed.getD 0 = (speaking rows).length
  avgSpeed : info.avgSpeed =
    if speaking rows = [] then none
    else some (((speaking rows).map (·.avgspeed)).sum / (speaking rows).length)
  minspeed : info.minspeed = (rows.map (·.minspeed)).min?
  maxspeed : info.maxspeed = (rows.map (·.maxspeed)).max?

structure Summary.DescribesVersions (s : Summary) (rows : List Row) : Prop where
  entries : ∀ version ∈ versionList, (s.versionInfo version).Describes (own version rows)
  zeroTotal : (∀ r ∈ rows, r.version ∈ versionList) →
    (versionList.map fun version => (s.versionInfo version).noSpeed.getD 0).sum = s.zeroSpeedCount
  validTotal : (∀ r ∈ rows, r.version ∈ versionList) →
    (versionList.map fun version => (s.versionInfo version).validSpeed.getD 0).sum = s.validSpeedCount

/-- The version has no silent row, the rows that count for the running minimum at its last row
    reach down as far as its own rows do, and no row before goes above its own. -/
def Undisturbed (version : CStr) (rows : List Row) : Prop :=
  silent (own version rows) = [] ∧
  (∀ r ∈ own version rows, ∃ m ∈ counted ((upto version rows).map (·.minspeed)), m ≤ r.minspeed) ∧
  (∀ m ∈ counted ((upto version rows).map (·.minspeed)), ∃ r ∈ own version rows, r.minspeed ≤ m) ∧
  (own version rows ≠ [] →
    ∀ m ∈ 0 :: (upto version rows).map (·.maxspeed), ∃ r ∈ own version rows, m ≤ r.maxspeed)

instance (version : CStr) (rows : List Row) : Decidable (Undisturbed version rows) :=
  inferInstanceAs (Decidable (_ ∧ _))

theorem own_upto {version : CStr} {rows : List Row} {r : Row} (mem : r ∈ own version rows) :
    r ∈ upto version rows := by
  induction rows using List.reverseRecOn with
  | nil => simp [own] at mem
  | append_singleton rows q ih =>
    by_cases same : q.version = version
    · subst same
      rw [upto_snoc_same]
      exact List.mem_of_mem_filter mem
    · rw [own_snoc_other same] at mem
      rw [upto_snoc_other same]
      exact ih mem

theorem upto_nil {version : CStr} {rows : List Row} (none : own version rows = []) :
    upto version rows = [] := by
  rw [upto, List.rdropWhile_eq_nil_iff]
  intro r mem
  have outside : r ∉ own version rows := by simp [none]
  simpa [own, mem] using outside

theorem lowest_own_iff (version : CStr) (rows : List Row) :
    (infoOf version rows).minspeed = ((own version rows).map (·.minspeed)).min? ↔
    (∀ r ∈ own version rows, ∃ m ∈ counted ((upto version rows).map (·.minspeed)), m ≤ r.minspeed) ∧
    ∀ m ∈ counted ((upto version rows).map (·.minspeed)), ∃ r ∈ own version rows, r.minspeed ≤ m := by
  by_cases none : own version rows = []
  · simp [infoOf, none, upto_nil none, counted]
  · obtain ⟨r, rest, first⟩ := List.exists_cons_of_ne_nil none
    have before : (upto version rows).map (·.minspeed) ≠ [] := by
      have inside : r ∈ upto version rows := own_upto (by simp [first])
      intro empty
      rw [List.map_eq_nil_iff] at empty
      simp [empty] at inside
    have same := Extremes.min_same_iff (minRun_counted before) ((own version rows).map (·.minspeed))
    simp only [infoOf, if_neg none]
    rw [eq_comm, same]
    simp

theorem highest_own_iff (version : CStr) (rows : List Row) :
    (infoOf version rows).maxspeed = ((own version rows).map (·.maxspeed)).max? ↔
    (own version rows ≠ [] →
      ∀ m ∈ 0 :: (upto version rows).map (·.maxspeed), ∃ r ∈ own version rows, m ≤ r.maxspeed) := by
  by_cases none : own version rows = []
  · simp [infoOf, none]
  · have part : ∀ m ∈ (own version rows).map (·.maxspeed), m ∈ 0 :: (upto version rows).map (·.maxspeed) := by
      intro m mem
      obtain ⟨r, inside, eq⟩ := List.mem_map.mp mem
      exact List.mem_cons_of_mem _ (List.mem_map.mpr ⟨r, own_upto inside, eq⟩)
    have same := Extremes.max_same_iff (maxRun_greatest _) part
    simp only [infoOf, if_neg none]
    rw [eq_comm, same]
    simp [none]

theorem entry_describes_iff (version : CStr) (rows : List Row) :
    (averaged (infoOf version rows)).Describes (own version rows) ↔ Undisturbed version rows := by
  rw [averaged_infoOf]
  constructor
  · intro right
    obtain ⟨counted, spread⟩ := (lowest_own_iff version rows).mp right.minspeed
    refine ⟨?_, counted, spread, (highest_own_iff version rows).mp right.maxspeed⟩
    have behind := right.noSpeed
    cases quiet : silent (own version rows) with
    | nil => rfl
    | cons r rest => simp [infoOf, quiet] at behind
  · rintro ⟨speaks, counted, spread, top⟩
    constructor
    · simp [infoOf, speaks]
    · by_cases none : speaking (own version rows) = [] <;> simp [infoOf, none]
    · rfl
    · exact (lowest_own_iff version rows).mpr ⟨counted, spread⟩
    · exact (highest_own_iff version rows).mpr top

theorem listed_once :
    ∀ version ∈ versionList, (versionList.map fun v => if v = version then (1 : Int) else 0).sum = 1 := by
  decide

theorem own_lengths {rows : List Row} (listed : ∀ r ∈ rows, r.version ∈ versionList) :
    (versionList.map fun version => ((own version rows).length : Int)).sum = rows.length := by
  induction rows with
  | nil => simp [own]
  | cons r rows ih =>
    have split : ∀ version, ((own version (r :: rows)).length : Int)
        = (own version rows).length + if version = r.version then 1 else 0 := by
      intro version
      by_cases same : r.version = version
      · simp [own, same]
      · simp [own, same, Ne.symm same]
    simp only [split, List.sum_map_add]
    rw [ih fun q mem => listed q (by simp [mem]), listed_once r.version (listed r (by simp))]
    simp

theorem own_silent (version : CStr) (rows : List Row) :
    silent (own version rows) = own version (silent rows) := by
  simp only [silent, own, List.filter_filter, Bool.and_comm]

theorem own_speaking (version : CStr) (rows : List Row) :
    speaking (own version rows) = own version (speaking rows) := by
  simp only [speaking, own, List.filter_filter, Bool.and_comm]

theorem entries_describe {s : Summary} {rows : List Row}
    (zero : s.zeroSpeedCount = (silent rows).length) (valid : s.validSpeedCount = (speaking rows).length)
    (entries : ∀ version ∈ versionList, (s.versionInfo version).Describes (own version rows)) :
    s.DescribesVersions rows := by
  refine ⟨entries, ?_, ?_⟩
  · intro listed
    have once : ∀ r ∈ silent rows, r.version ∈ versionList := fun r mem => listed r (List.mem_of_mem_filter mem)
    rw [zero, ← own_lengths once]
    refine congrArg List.sum (List.map_congr_left ?_)
    intro version mem
    rw [(entries version mem).noSpeed, own_silent]
  · intro listed
    have once : ∀ r ∈ speaking rows, r.version ∈ versionList := fun r mem => listed r (List.mem_of_mem_filter mem)
    rw [valid, ← own_lengths once]
    refine congrArg List.sum (List.map_congr_left ?_)
    intro version mem
    rw [(entries version mem).validSpeed, own_speaking]

theorem summary_describes_iff (rows : List Row) :
    (summaryOf rows).DescribesVersions rows ↔ ∀ version ∈ versionList, Undisturbed version rows := by
  have entry : ∀ version ∈ versionList,
      (((summaryOf rows).versionInfo version).Describes (own version rows) ↔ Undisturbed version rows) := by
    intro version listed
    simp only [summaryOf, result_infoOf listed]
    exact entry_describes_iff version rows
  constructor
  · intro right version listed
    exact (entry version listed).mp (right.entries version listed)
  · intro undisturbed
    exact entries_describe rfl rfl fun version listed => (entry version listed).mpr (undisturbed version listed)

/-- The entries of the versions describe them exactly for files whose listed versions have no
    silent row and are not disturbed by the rows of another one. -/
theorem versions_described_iff (header : CStr) {lines : List CStr} {rows : List Row}
    (parsed : lines.mapM rowOf = some rows) (valid : ∃ r ∈ rows, ¬r.Silent) :
    ∃ summary, parseTheCommonInfo (header :: lines) = some summary ∧
      (summary.DescribesVersions rows ↔ ∀ version ∈ versionList, Undisturbed version rows) := by
  exact ⟨summaryOf rows, parseTheCommonInfo_eq parsed valid, summary_describes_iff rows⟩

def separateLines : List CStr := ["1,321,V1.0.808,20,40,30\n", "2,401,V1.0.805,10,90,50\n"].map String.toList

def separateRows : List Row := [⟨"V1.0.808".toList, 20, 40, 30⟩, ⟨"V1.0.805".toList, 10, 90, 50⟩]

theorem separate_versions_described :
    ∃ summary, parseTheCommonInfo ([] :: separateLines) = some summary ∧ summary.DescribesVersions separateRows := by
  have parsed : separateLines.mapM rowOf = some separateRows := by decide
  obtain ⟨summary, returned, iff⟩ := versions_described_iff [] parsed (by decide)
  exact ⟨summary, returned, iff.mpr (by decide)⟩

def mixedLines : List CStr :=
  ["2,401,V1.0.805,10,90,50\n", "1,321,V1.0.808,20,40,30\n", "3,321,V1.0.808,0,0,0\n"].map String.toList

def mixedRows : List Row :=
  [⟨"V1.0.805".toList, 10, 90, 50⟩, ⟨"V1.0.808".toList, 20, 40, 30⟩, ⟨"V1.0.808".toList, 0, 0, 0⟩]

theorem mixed_versions_misdescribed :
    mixedLines.mapM rowOf = some mixedRows ∧
    ∃ summary, parseTheCommonInfo ([] :: mixedLines) = some summary ∧
      (summary.versionInfo "V1.0.808".toList).noSpeed = some 0 ∧
      (summary.versionInfo "V1.0.808".toList).maxspeed = some 90 ∧
      ¬summary.DescribesVersions mixedRows := by
  have parsed : mixedLines.mapM rowOf = some mixedRows := by decide
  refine ⟨parsed, summaryOf mixedRows, parseTheCommonInfo_eq parsed (by decide), by decide, by decide, ?_⟩
  rw [summary_describes_iff]
  decide

end Versions

section Order

def Summary.overall (s : Summary) : Int × Int × Int × Int × Int :=
  (s.zeroSpeedCount, s.validSpeedCount, s.avgspeed, s.minspeed, s.maxspeed)

/-- The seed of the running minimum cannot be taken for a value: a negative minimum is below it,
    or all or none of the minima are zero. -/
def Seeded (rows : List Row) : Prop :=
  (∃ r ∈ rows, r.minspeed < 0) ∨ (∀ r ∈ rows, r.minspeed ≠ 0) ∨ ∀ r ∈ rows, r.minspeed = 0

instance (rows : List Row) : Decidable (Seeded rows) := inferInstanceAs (Decidable (_ ∨ _))

theorem counted_seeded {rows : List Row} (seeded : Seeded rows) :
    counted (rows.map (·.minspeed)) = rows.map (·.minspeed) := by
  rw [counted]
  split
  · rfl
  · rename_i rest
    rw [not_or] at rest
    obtain ⟨nonneg, last⟩ := rest
    rw [List.rtakeWhile_eq_self_iff]
    rcases seeded with ⟨r, mem, negative⟩ | nonzero | zero
    · exact absurd ⟨r.minspeed, List.mem_map_of_mem mem, negative⟩ nonneg
    · simpa using nonzero
    · cases rows using List.reverseRecOn with
      | nil => simp
      | append_singleton rows r =>
        have here := zero r (by simp)
        simp [here] at last

theorem maxRun_perm {xs ys : List Int} (perm : xs.Perm ys) : maxRun xs = maxRun ys := by
  have same := Extremes.max_of_perm (perm.cons 0)
  rw [maxRun_greatest, maxRun_greatest] at same
  exact Option.some.inj same

theorem seeded_perm {rows rows' : List Row} (perm : rows'.Perm rows) (seeded : Seeded rows) : Seeded rows' := by
  simpa only [Seeded, perm.mem_iff] using seeded

theorem minRun_perm {rows rows' : List Row} (perm : rows'.Perm rows) (seeded : Seeded rows) :
    minRun (rows'.map (·.minspeed)) = minRun (rows.map (·.minspeed)) := by
  by_cases none : rows = []
  · rw [none] at perm ⊢
    rw [perm.eq_nil]
  · have other : rows' ≠ [] := by
      intro empty
      rw [empty] at perm
      exact none perm.symm.eq_nil
    have first := minRun_counted (show rows'.map (·.minspeed) ≠ [] by simpa using other)
    have second := minRun_counted (show rows.map (·.minspeed) ≠ [] by simpa using none)
    rw [counted_seeded (seeded_perm perm seeded), Extremes.min_of_perm (perm.map _)] at first
    rw [counted_seeded seeded, first] at second
    exact Option.some.inj second

theorem overall_perm {rows rows' : List Row} (perm : rows'.Perm rows) (seeded : Seeded rows) :
    (summaryOf rows').overall = (summaryOf rows).overall := by
  have quiet : (silent rows').Perm (silent rows) := perm.filter _
  have spoken : (speaking rows').Perm (speaking rows) := perm.filter _
  simp only [summaryOf, Summary.overall, quiet.length_eq, spoken.length_eq, (spoken.map _).sum_eq,
    minRun_perm perm seeded, maxRun_perm (perm.map _)]

theorem mapM_filterMap {lines : List CStr} (readable : ∀ line ∈ lines, (rowOf line).isSome) :
    lines.mapM rowOf = some (lines.filterMap rowOf) := by
  induction lines with
  | nil => rfl
  | cons line lines ih =>
    obtain ⟨r, here⟩ := Option.isSome_iff_exists.mp (readable line (by simp))
    rw [List.mapM_cons, here, ih fun l mem => readable l (by simp [mem])]
    simp [here]

theorem mapM_readable {lines : List CStr} {rows : List Row} (parsed : lines.mapM rowOf = some rows) :
    ∀ line ∈ lines, (rowOf line).isSome := by
  induction lines generalizing rows with
  | nil => simp
  | cons line lines ih =>
    rw [List.mapM_cons] at parsed
    obtain ⟨r, here, rest⟩ := Option.bind_eq_some_iff.mp parsed
    obtain ⟨others, later, _⟩ := Option.bind_eq_some_iff.mp rest
    intro l mem
    rcases List.mem_cons.mp mem with first | behind
    · rw [first, here]
      rfl
    · exact ih later l behind

theorem rows_filterMap {lines : List CStr} {rows : List Row} (parsed : lines.mapM rowOf = some rows) :
    rows = lines.filterMap rowOf := by
  rw [mapM_filterMap (mapM_readable parsed)] at parsed
  exact (Option.some.inj parsed).symm

theorem lines_perm {lines lines' : List CStr} {rows : List Row} (parsed : lines.mapM rowOf = some rows)
    (perm : lines'.Perm lines) : ∃ rows', lines'.mapM rowOf = some rows' ∧ rows'.Perm rows := by
  refine ⟨lines'.filterMap rowOf, mapM_filterMap ?_, ?_⟩
  · intro line mem
    exact mapM_readable parsed line (perm.mem_iff.mp mem)
  · rw [rows_filterMap parsed]
    exact perm.filterMap _

theorem line_last {lines : List CStr} {rows : List Row} {r : Row} (parsed : lines.mapM rowOf = some rows)
    (mem : r ∈ rows) :
    ∃ (lines' : List CStr) (rows' : List Row), lines'.Perm lines ∧ lines'.mapM rowOf = some (rows' ++ [r]) := by
  rw [rows_filterMap parsed, List.mem_filterMap] at mem
  obtain ⟨line, inside, read⟩ := mem
  have perm : (lines.erase line ++ [line]).Perm lines :=
    List.perm_append_comm.trans (List.perm_cons_erase inside).symm
  refine ⟨_, (lines.erase line).filterMap rowOf, perm, ?_⟩
  rw [mapM_filterMap fun l mem => mapM_readable parsed l (perm.mem_iff.mp mem)]
  simp [read]

/-- Two files with the same rows in another order have one summary, the entries of the versions apart. -/
def SameOverall (file file' : List CStr) : Prop :=
  ∃ s s', parseTheCommonInfo file = some s ∧ parseTheCommonInfo file' = some s' ∧ s'.overall = s.overall

/-- The last row decides whether the running minimum of values that are not negative is zero. -/
theorem minspeed_last_zero {rows : List Row} {r : Row} (nonneg : ∀ q ∈ rows ++ [r], 0 ≤ q.minspeed) :
    (summaryOf (rows ++ [r])).minspeed = 0 ↔ r.minspeed = 0 := by
  have spread : ∀ m ∈ (rows ++ [r]).map (·.minspeed), 0 ≤ m := by
    intro m mem
    obtain ⟨q, inside, eq⟩ := List.mem_map.mp mem
    rw [← eq]
    exact nonneg q inside
  exact (minRun_nonneg spread).2 r.minspeed (by simp)

theorem summary_last {header : CStr} {lines lines' : List CStr} {rows rows' : List Row} {r : Row}
    (parsed : lines.mapM rowOf = some rows) (valid : ∃ r ∈ rows, ¬r.Silent) (perm : lines'.Perm lines)
    (read : lines'.mapM rowOf = some (rows' ++ [r])) (same : SameOverall (header :: lines) (header :: lines')) :
    (summaryOf (rows' ++ [r])).minspeed = (summaryOf rows).minspeed ∧ (rows' ++ [r]).Perm rows := by
  obtain ⟨_, other, also⟩ := lines_perm parsed perm
  rw [read] at other
  obtain rfl := Option.some.inj other
  obtain ⟨q, mem, speaks⟩ := valid
  obtain ⟨s, s', first, second, equal⟩ := same
  rw [parseTheCommonInfo_eq parsed ⟨q, mem, speaks⟩] at first
  rw [parseTheCommonInfo_eq read ⟨q, also.mem_iff.mpr mem, speaks⟩] at second
  obtain rfl := Option.some.inj first
  obtain rfl := Option.some.inj second
  simp only [Summary.overall, Prod.mk.injEq] at equal
  exact ⟨equal.2.2.2.1, also⟩

/-- The order of the rows does not matter exactly when the seed cannot be taken for a value. -/
theorem order_irrelevant_iff (header : CStr) {lines : List CStr} {rows : List Row}
    (parsed : lines.mapM rowOf = some rows) (valid : ∃ r ∈ rows, ¬r.Silent) :
    (∀ lines' : List CStr, lines'.Perm lines → SameOverall (header :: lines) (header :: lines')) ↔ Seeded rows := by
  constructor
  · intro same
    -- of two orders, one ends with a zero minimum and the other one does not
    by_contra unseeded
    simp only [Seeded, not_or, not_forall, not_exists, not_and] at unseeded
    obtain ⟨nonneg, ⟨quiet, memQuiet, zero⟩, ⟨loud, memLoud, nonzero⟩⟩ := unseeded
    obtain ⟨lines₀, rows₀, perm₀, read₀⟩ := line_last parsed memQuiet
    obtain ⟨lines₁, rows₁, perm₁, read₁⟩ := line_last parsed memLoud
    obtain ⟨equal₀, also₀⟩ := summary_last parsed valid perm₀ read₀ (same lines₀ perm₀)
    obtain ⟨equal₁, also₁⟩ := summary_last parsed valid perm₁ read₁ (same lines₁ perm₁)
    have spread : ∀ r ∈ rows, 0 ≤ r.minspeed := fun r mem => Int.not_lt.mp (nonneg r mem)
    have first := (minspeed_last_zero fun r mem => spread r (also₀.mem_iff.mp mem)).mpr (not_not.mp zero)
    have second := mt (minspeed_last_zero fun r mem => spread r (also₁.mem_iff.mp mem)).mp nonzero
    rw [equal₁, ← equal₀] at second
    exact second first
  · intro seeded lines' perm
    obtain ⟨rows', read, also⟩ := lines_perm parsed perm
    obtain ⟨r, mem, speaks⟩ := valid
    exact ⟨_, _, parseTheCommonInfo_eq parsed ⟨r, mem, speaks⟩,
      parseTheCommonInfo_eq read ⟨r, also.mem_iff.mpr mem, speaks⟩, overall_perm also seeded⟩

theorem separate_order_irrelevant : SameOverall ([] :: separateLines) ([] :: separateLines.reverse) := by
  have parsed : separateLines.mapM rowOf = some separateRows := by decide
  exact (order_irrelevant_iff [] parsed (by decide)).mpr (by decide) _ (List.reverse_perm _)

/-- The minimum of a speaking row behind a silent one, and the other way around. -/
theorem silent_row_moved :
    let quiet := "3,321,V1.0.808,0,0,0\n".toList
    let loud := "1,321,V1.0.808,20,40,30\n".toList
    (parseTheCommonInfo [[], quiet, loud]).map Summary.overall = some (1, 1, 30, 20, 40) ∧
    (parseTheCommonInfo [[], loud, quiet]).map Summary.overall = some (1, 1, 30, 0, 40) ∧
    [loud, quiet].Perm [quiet, loud] ∧ ¬SameOverall [[], quiet, loud] [[], loud, quiet] := by
  intro quiet loud
  have first : (parseTheCommonInfo [[], quiet, loud]).map Summary.overall = some (1, 1, 30, 20, 40) := by decide
  have second : (parseTheCommonInfo [[], loud, quiet]).map Summary.overall = some (1, 1, 30, 0, 40) := by decide
  refine ⟨first, second, .swap _ _ _, ?_⟩
  rintro ⟨s, s', one, two, equal⟩
  simp only [one, two, Option.map_some, equal] at first second
  rw [first] at second
  simp at second

end Order

end TestSource.ParseSpeed
