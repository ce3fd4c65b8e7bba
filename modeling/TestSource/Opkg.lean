import TestSource.TextLines

/- uptest.c of opkg_app: the three functions that read a package listing. The arrays are the
   C strings in them. No result means a write outside an array or a conversion of sprintf that
   has no argument. The tokens that are printed on the way are left out. -/
namespace TestSource.Opkg

def strtok (delim : Char) (s : CStr) : Option (CStr × CStr) :=
  let s := s.dropWhile (· = delim)
  if s = [] then none else some (s.takeWhile (· ≠ delim), (s.dropWhile (· ≠ delim)).drop 1)

/-- What sprintf makes of a format without arguments. -/
def formatted : CStr → Option CStr
  | [] => some []
  | '%' :: '%' :: s => (formatted s).map ('%' :: ·)
  | '%' :: _ => none
  | c :: s => (formatted s).map (c :: ·)

/-- What a loop does with a token: it is copied from `skip` on into an array of `size` bytes and
    `trim` characters are cut off; then the loop may break. -/
structure FieldRule where
  size : Nat
  skip : Nat
  trim : Nat
  stop : Bool

def FieldRule.store (r : FieldRule) (p : CStr) : Option CStr := do
  let s ← formatted (p.drop r.skip)
  if s.length < r.size ∧ r.trim ≤ s.length then some (s.take (s.length - r.trim)) else none

def readFields : List FieldRule → Option (CStr × CStr) → List CStr → Option (List CStr)
  | r :: rules, some (p, saved), _ :: arrays => do
      let a ← r.store p
      if r.stop then some (a :: arrays)
      else do
        let arrays ← readFields rules (strtok '-' saved) arrays
        some (a :: arrays)
  | _, _, arrays => some arrays

/-- A buffer is a string up to its first NUL. -/
def readLine (rules : List FieldRule) (arrays : List CStr) (buffer : CStr) : Option (List CStr) :=
  readFields rules (strtok ' ' (buffer.takeWhile (· ≠ '\x00'))) arrays

/-- The arrays as they are printed after each line; they may be cleared then. -/
def listing (rules : List FieldRule) (clear : Bool) : List CStr → List CStr → Option (List (List CStr))
  | _, [] => some []
  | arrays, buffer :: lines => do
      let arrays ← readLine rules arrays buffer
      let records ← listing rules clear (if clear then arrays.map fun _ => [] else arrays) lines
      some (arrays :: records)

def nameRule : FieldRule := ⟨256, 0, 0, false⟩

def opkgFile (rules : List FieldRule) (clear : Bool) (file : Option CStr) : Option (Int × List (List CStr)) :=
  match file with
  | none => some (-1, [])
  | some text => do
      let records ← listing rules clear (rules.map fun _ => []) (readLines text)
      some (if records = [] then -1 else 0, records)

def opkgListUpgradable : Option CStr → Option (Int × List (List CStr)) :=
  opkgFile [nameRule, ⟨32, 1, 1, true⟩, ⟨32, 1, 1, true⟩] true

def opkgListInstalled : Option CStr → Option (Int × List (List CStr)) :=
  opkgFile [nameRule, ⟨256, 1, 1, true⟩] false

def opkgList : Option CStr → Option (Int × List (List CStr)) :=
  opkgFile [nameRule, ⟨256, 1, 1, false⟩, ⟨1024, 1, 2, true⟩] false

def isPackageChar (c : Char) : Bool := c.isAlphanum || c ∈ ['.', '+', '~', ':', '_', '-']

structure Package where
  name : CStr
  base : CStr
  server : CStr
  name_nonempty : name ≠ []
  base_nonempty : base ≠ []
  server_nonempty : server ≠ []
  name_chars : ∀ c ∈ name, isPackageChar c = true
  base_chars : ∀ c ∈ base, isPackageChar c = true
  server_chars : ∀ c ∈ server, isPackageChar c = true
  name_short : name.length < 256
  base_short : base.length < 32
  server_short : server.length < 32

namespace Package

def installedLine (p : Package) : CStr := p.name ++ ' ' :: '-' :: ' ' :: (p.base ++ ['\n'])

def upgradableLine (p : Package) : CStr :=
  p.name ++ ' ' :: '-' :: ' ' :: (p.base ++ ' ' :: '-' :: ' ' :: (p.server ++ ['\n']))

end Package

section Characters
variable {s : CStr}

theorem chars_without {c : Char} (chars : ∀ x ∈ s, isPackageChar x = true) (other : isPackageChar c = false) :
    c ∉ s := by
  intro mem
  rw [chars c mem] at other
  contradiction

theorem formatted_plain (plain : '%' ∉ s) : formatted s = some s := by
  fun_induction formatted s with
  | case1 => rfl
  | case2 s ih => simp at plain
  | case3 s none => simp at plain
  | case4 c s _ _ ih => simp [ih (fun mem => plain (List.mem_cons_of_mem c mem))]

end Characters

section Tokens
variable {t : CStr}

theorem strtok_first {name : CStr} (nonempty : name ≠ []) (plain : ' ' ∉ name) (rest : CStr) :
    strtok ' ' (name ++ ' ' :: rest) = some (name, rest) := by
  have start : (name ++ ' ' :: rest).dropWhile (· = ' ') = name ++ ' ' :: rest := by
    cases name with
    | nil => exact absurd rfl nonempty
    | cons c name =>
      have differ : c ≠ ' ' := by
        rintro rfl
        exact plain List.mem_cons_self
      simp [differ]
  simp only [strtok, start, Occurs.takeWhile_until plain, Occurs.dropWhile_until plain]
  simp

theorem strtok_next (t : CStr) : strtok '-' ('-' :: ' ' :: t) =
    some (' ' :: t.takeWhile (· ≠ '-'), (t.dropWhile (· ≠ '-')).drop 1) := by
  simp [strtok]

theorem readFields_length {rules : List FieldRule} {p : Option (CStr × CStr)} {arrays read : List CStr}
    (done : readFields rules p arrays = some read) : read.length = arrays.length := by
  induction rules generalizing p arrays read with
  | nil =>
    cases done
    rfl
  | cons r rules ih =>
    rcases p with _ | ⟨p, saved⟩
    · cases done
      rfl
    · cases arrays with
      | nil =>
        cases done
        rfl
      | cons _ arrays =>
        simp only [readFields, Option.bind_eq_bind, Option.bind_eq_some_iff] at done
        obtain ⟨a, _, rest⟩ := done
        split at rest
        · cases rest
          rfl
        · obtain ⟨more, later, last⟩ := Option.bind_eq_some_iff.mp rest
          cases last
          simp [ih later]

theorem readLine_package (pkg : Package) {t : CStr} (text : '\x00' ∉ t) (rules : List FieldRule) (a : CStr)
    (arrays : List CStr) :
    readLine (nameRule :: rules) (a :: arrays) (pkg.name ++ ' ' :: '-' :: ' ' :: t) =
      (readFields rules (some (' ' :: t.takeWhile (· ≠ '-'), (t.dropWhile (· ≠ '-')).drop 1)) arrays).map
        (pkg.name :: ·) := by
  have noNul : '\x00' ∉ pkg.name ++ ' ' :: '-' :: ' ' :: t := by
    simp [chars_without pkg.name_chars (c := '\x00') (by decide), text]
  have stored : nameRule.store pkg.name = some pkg.name := by
    simp [nameRule, FieldRule.store, formatted_plain (chars_without pkg.name_chars (c := '%') (by decide)),
      pkg.name_short]
  rw [readLine, Occurs.takeWhile_absent noNul, strtok_first pkg.name_nonempty (chars_without pkg.name_chars (by decide))]
  simp only [readFields, stored, strtok_next, Option.bind_eq_bind, Option.bind_some]
  exact Option.map_eq_bind.symm

theorem store_behind {size trim : Nat} {stop : Bool} {s : CStr} (plain : '%' ∉ s) :
    FieldRule.store ⟨size, 1, trim, stop⟩ (' ' :: s) =
      if s.length < size ∧ trim ≤ s.length then some (s.take (s.length - trim)) else none := by
  simp [FieldRule.store, formatted_plain plain]

theorem strtok_whole {s : CStr} (plain : '-' ∉ s) : strtok '-' (' ' :: s) = some (' ' :: s, []) := by
  have absent : '-' ∉ ' ' :: s := by simp [plain]
  have start : (' ' :: s).dropWhile (· = '-') = ' ' :: s := by simp
  simp only [strtok, start, Occurs.takeWhile_absent absent, Occurs.dropWhile_absent absent]
  simp

end Tokens

section Listings

theorem listing_snoc {rules : List FieldRule} {clear : Bool} {buffer : CStr} {record : List CStr}
    (reads : ∀ arrays : List CStr, arrays.length = rules.length → readLine rules arrays buffer = some record)
    {lines : List CStr} {arrays : List CStr} (sized : arrays.length = rules.length) {records : List (List CStr)}
    (before : listing rules clear arrays lines = some records) :
    listing rules clear arrays (lines ++ [buffer]) = some (records ++ [record]) := by
  induction lines generalizing arrays records with
  | nil =>
    cases before
    simp [listing, reads arrays sized]
  | cons line lines ih =>
    simp only [listing, Option.bind_eq_bind, Option.bind_eq_some_iff] at before
    obtain ⟨read, first, rest, later, same⟩ := before
    cases same
    have kept : read.length = rules.length := (readFields_length first).trans sized
    have next : (if clear then read.map fun _ => [] else read).length = rules.length := by
      split <;> simp [kept]
    simp only [List.cons_append, listing, first, Option.bind_eq_bind, Option.bind_some, ih next later]

/-- Behind every text of whole lines that can be read, the line gives the record. -/
def Reads (read : Option CStr → Option (Int × List (List CStr))) (line : CStr) (record : List CStr) : Prop :=
  ∀ before ret records, Ended before → read (some before) = some (ret, records) →
    read (some (before ++ line)) = some (0, records ++ [record])

theorem reads_line {rules : List FieldRule} {clear : Bool} {line : CStr} {record : List CStr}
    (plain : '\n' ∉ line) (short : line.length < 1023)
    (reads : ∀ arrays : List CStr, arrays.length = rules.length →
      readLine rules arrays (line ++ ['\n']) = some record) :
    Reads (opkgFile rules clear) (line ++ ['\n']) record := by
  intro before ret records ended done
  simp only [opkgFile, Option.bind_eq_bind, Option.bind_eq_some_iff] at done
  obtain ⟨rest, listed, same⟩ := done
  cases same
  have more := listing_snoc reads (by simp) listed
  have lines : readLines (before ++ (line ++ ['\n'])) = readLines before ++ [line ++ ['\n']] := by
    rw [readLines_append ended, readLines_line plain short]
    rfl
  simp only [opkgFile, lines, more, Option.bind_eq_bind, Option.bind_some]
  simp

theorem reads_first {rules : List FieldRule} {clear : Bool} {line : CStr} {record : List CStr}
    (plain : '\n' ∉ line) (short : line.length < 1023)
    (reads : Reads (opkgFile rules clear) (line ++ ['\n']) record) :
    readLine rules (rules.map fun _ => []) (line ++ ['\n']) = some record := by
  have start : opkgFile rules clear (some []) = some (-1, []) := rfl
  have first := reads [] (-1) [] (by intro c last; cases last) start
  simp only [List.nil_append, opkgFile, readLines_line plain short, Option.bind_eq_bind, listing] at first
  simp only [Option.bind_eq_some_iff] at first
  obtain ⟨records, ⟨arrays, read, rest, _, whole⟩, same⟩ := first
  cases whole
  simp at same
  rw [← same.1]
  exact read

end Listings

section Packages
variable (pkg : Package)

theorem base_line : '\x00' ∉ pkg.base ++ ['\n'] ∧ '%' ∉ pkg.base ++ ['\n'] := by
  simp [chars_without pkg.base_chars (c := '\x00') (by decide), chars_without pkg.base_chars (c := '%') (by decide)]

theorem installed_read (plain : '-' ∉ pkg.base) {arrays : List CStr} (sized : arrays.length = 2) :
    readLine [nameRule, ⟨256, 1, 1, true⟩] arrays pkg.installedLine = some [pkg.name, pkg.base] := by
  obtain ⟨a, b, rfl⟩ := List.length_eq_two.mp sized
  have short := pkg.base_short
  obtain ⟨noNul, noPercent⟩ := base_line pkg
  have absent : '-' ∉ pkg.base ++ ['\n'] := by simp [plain]
  rw [Package.installedLine, readLine_package pkg noNul, Occurs.takeWhile_absent absent]
  have fits : (pkg.base ++ ['\n']).length < 256 ∧ 1 ≤ (pkg.base ++ ['\n']).length := by
    simp
    omega
  simp only [readFields, store_behind noPercent, if_pos fits]
  simp

theorem installed_cut (inside : '-' ∈ pkg.base) (a b : CStr) :
    readLine [nameRule, ⟨256, 1, 1, true⟩] [a, b] pkg.installedLine ≠ some [pkg.name, pkg.base] := by
  obtain ⟨front, back, shape, plain⟩ := List.eq_append_cons_of_mem inside
  have noPercent : '%' ∉ front := by
    have whole := chars_without pkg.base_chars (c := '%') (by decide)
    simp [shape] at whole
    exact whole.1
  have token : (pkg.base ++ ['\n']).takeWhile (· ≠ '-') = front := by
    rw [shape, List.append_assoc, Occurs.takeWhile_until plain]
    simp
  rw [Package.installedLine, readLine_package pkg (base_line pkg).1, token]
  simp only [readFields, store_behind noPercent]
  split
  · intro same
    have cut : front.take (front.length - 1) = pkg.base := by simpa using same
    have sizes := congrArg List.length cut
    rw [shape] at sizes
    simp at sizes
    omega
  · simp

/-- The loop of the upgradable packages breaks before it reaches the version of the server. -/
theorem upgradable_cut (a b : CStr) :
    readLine [nameRule, ⟨32, 1, 1, true⟩, ⟨32, 1, 1, true⟩] [a, b, []] pkg.upgradableLine ≠
      some [pkg.name, pkg.base, pkg.server] := by
  have noNul : '\x00' ∉ pkg.base ++ ' ' :: '-' :: ' ' :: (pkg.server ++ ['\n']) := by
    simp [chars_without pkg.base_chars (c := '\x00') (by decide),
      chars_without pkg.server_chars (c := '\x00') (by decide)]
  rw [Package.upgradableLine, readLine_package pkg noNul]
  intro same
  simp only [readFields, Option.bind_eq_bind, Option.map_eq_some_iff, Option.bind_eq_some_iff] at same
  obtain ⟨arrays, ⟨version, _, stopped⟩, record⟩ := same
  cases stopped
  simp at record
  exact pkg.server_nonempty record.2

/-- The loop of opkg_list goes on to a third field, which it trims by two characters. -/
theorem list_goes_on (plain : '-' ∉ pkg.base) (plain' : '-' ∉ pkg.server) (a b c : CStr) :
    readLine [nameRule, ⟨256, 1, 1, false⟩, ⟨1024, 1, 2, true⟩] [a, b, c] pkg.upgradableLine =
      some [pkg.name, pkg.base, pkg.server.dropLast] := by
  have baseShort := pkg.base_short
  have serverShort := pkg.server_short
  have noNul : '\x00' ∉ pkg.base ++ ' ' :: '-' :: ' ' :: (pkg.server ++ ['\n']) := by
    simp [chars_without pkg.base_chars (c := '\x00') (by decide),
      chars_without pkg.server_chars (c := '\x00') (by decide)]
  have noPercent : '%' ∉ pkg.base ++ [' '] := by
    simp [chars_without pkg.base_chars (c := '%') (by decide)]
  have noPercent' : '%' ∉ pkg.server ++ ['\n'] := by
    simp [chars_without pkg.server_chars (c := '%') (by decide)]
  have shape : pkg.base ++ ' ' :: '-' :: ' ' :: (pkg.server ++ ['\n']) =
      (pkg.base ++ [' ']) ++ '-' :: ' ' :: (pkg.server ++ ['\n']) := by simp
  have front : '-' ∉ pkg.base ++ [' '] := by simp [plain]
  have token : ((pkg.base ++ [' ']) ++ '-' :: ' ' :: (pkg.server ++ ['\n'])).takeWhile (· ≠ '-') =
      pkg.base ++ [' '] := by
    rw [Occurs.takeWhile_until front]
    simp
  have saved := Occurs.dropWhile_until front (' ' :: (pkg.server ++ ['\n']))
  have last : strtok '-' (' ' :: (pkg.server ++ ['\n'])) = some (' ' :: (pkg.server ++ ['\n']), []) :=
    strtok_whole (by simp [plain'])
  have fits : (pkg.base ++ [' ']).length < 256 ∧ 1 ≤ (pkg.base ++ [' ']).length := by
    simp
    omega
  have positive := List.length_pos_iff.mpr pkg.server_nonempty
  have fits' : (pkg.server ++ ['\n']).length < 1024 ∧ 2 ≤ (pkg.server ++ ['\n']).length := by
    simp
    omega
  rw [Package.upgradableLine, readLine_package pkg noNul, shape, token, saved]
  simp only [List.drop_one, List.tail_cons, readFields, store_behind noPercent, if_pos fits, last,
    store_behind noPercent', if_pos fits']
  simp [List.dropLast_eq_take, List.take_append]

/-- No listing of upgradable packages is recovered; one of installed packages is where no version
    has a separator in it. -/
theorem listings_recovered_iff :
    (Reads opkgListInstalled pkg.installedLine [pkg.name, pkg.base] ↔ '-' ∉ pkg.base) ∧
      ¬Reads opkgListUpgradable pkg.upgradableLine [pkg.name, pkg.base, pkg.server] := by
  have nameShort := pkg.name_short
  have baseShort := pkg.base_short
  have serverShort := pkg.server_short
  have noLine {s : CStr} (chars : ∀ c ∈ s, isPackageChar c = true) : '\n' ∉ s := chars_without chars (by decide)
  have installed : pkg.installedLine = (pkg.name ++ ' ' :: '-' :: ' ' :: pkg.base) ++ ['\n'] := by
    simp [Package.installedLine]
  have installedPlain : '\n' ∉ pkg.name ++ ' ' :: '-' :: ' ' :: pkg.base := by
    simp [noLine pkg.name_chars, noLine pkg.base_chars]
  constructor
  · constructor
    · intro reads inside
      rw [installed] at reads
      have first := reads_first installedPlain (by simp; omega) reads
      rw [← installed] at first
      exact installed_cut pkg inside [] [] first
    · intro plain
      rw [installed]
      apply reads_line installedPlain (by simp; omega)
      intro arrays sized
      rw [← installed]
      exact installed_read pkg plain sized
  · intro reads
    have upgradable : pkg.upgradableLine =
        (pkg.name ++ ' ' :: '-' :: ' ' :: (pkg.base ++ ' ' :: '-' :: ' ' :: pkg.server)) ++ ['\n'] := by
      simp [Package.upgradableLine]
    rw [upgradable] at reads
    have first := reads_first (by simp [noLine pkg.name_chars, noLine pkg.base_chars, noLine pkg.server_chars])
      (by simp; omega) reads
    rw [← upgradable] at first
    exact upgradable_cut pkg [] [] first

end Packages

section Sample

def sample (base : CStr) (nonempty : base ≠ []) (chars : ∀ c ∈ base, isPackageChar c = true)
    (short : base.length < 32) : Package where
  name := ['t', 'h', 'u', 'n', 'd', 'e', 'r', '-', 'm', 'i', 'n', 'e', 'r', '-', 'a', 'p', 'p']
  base := base
  server := ['1', '.', '0', '.', '4']
  name_nonempty := by decide
  base_nonempty := nonempty
  server_nonempty := by decide
  name_chars := List.all_eq_true.mp (by decide)
  base_chars := chars
  server_chars := List.all_eq_true.mp (by decide)
  name_short := by decide
  base_short := short
  server_short := by decide

def release : Package := sample ['1', '.', '0', '.', '3'] (by decide) (List.all_eq_true.mp (by decide)) (by decide)
def revision : Package := sample ['1', '.', '0', '-', '3'] (by decide) (List.all_eq_true.mp (by decide)) (by decide)

theorem listing_not_recovered :
    opkgListUpgradable (some release.upgradableLine) = some (0, [[release.name, release.base, []]]) ∧
    ¬Reads opkgListUpgradable release.upgradableLine [release.name, release.base, release.server] ∧
    opkgListInstalled (some revision.installedLine) = some (0, [[revision.name, ['1', '.']]]) ∧
    ¬Reads opkgListInstalled revision.installedLine [revision.name, revision.base] := by
  have upgradable : opkgListUpgradable (some release.upgradableLine) =
      some (0, [[release.name, release.base, []]]) := by decide +kernel
  have installed : opkgListInstalled (some revision.installedLine) =
      some (0, [[revision.name, ['1', '.']]]) := by decide +kernel
  have nothing : Ended [] := by
    intro c last
    cases last
  refine ⟨upgradable, ?_, installed, ?_⟩
  · intro reads
    have first := reads [] (-1) [] nothing rfl
    rw [List.nil_append, upgradable] at first
    exact absurd first (by decide)
  · intro reads
    have first := reads [] (-1) [] nothing rfl
    rw [List.nil_append, installed] at first
    exact absurd first (by decide)

end Sample

end TestSource.Opkg
