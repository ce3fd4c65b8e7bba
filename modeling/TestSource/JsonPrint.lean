import Mathlib.Data.Nat.Digits.Lemmas
import TestSource.Common

/- cJSON.c: the items, and how they are printed. A chain of items is kept as the source links it,
   each with its first child and its next sibling; prev, which no function here reads, is left out. -/
namespace TestSource.Json

def ch (c : Char) : Byte := BitVec.ofNat 8 c.toNat

def text (s : List Char) : List Byte := s.map ch

inductive Kind where
  | false
  | true
  | null
  | number
  | string
  | array
  | object
  deriving DecidableEq, Repr

/-- The fields of an item that are not links. type is the kind and the flag cJSON_IsReference. -/
structure Fields (D : Type) where
  kind : Kind
  isReference : Bool
  valuestring : Option (List Byte)
  valueint : BitVec 32
  valuedouble : D
  string : Option (List Byte)
  deriving DecidableEq, Repr

inductive CJson (D : Type) where
  | nil
  | node (fields : Fields D) (child next : CJson D)
  deriving DecidableEq, Repr

/-- The conversions of printf that print_number uses: "%.0f", "%e" and "%f". -/
inductive Conversion where
  | f0
  | e
  | f
  deriving DecidableEq, Repr

structure Arith (D : Type) where
  ofInt : Int → D
  toInt : D → BitVec 32
  add : D → D → D
  sub : D → D → D
  mul : D → D → D
  pow : D → D → D
  fabs : D → D
  floor : D → D
  le : D → D → Bool
  lt : D → D → Bool
  dblEpsilon : D
  e60 : D
  em6 : D
  e9 : D
  sprintf : Conversion → D → List Byte

variable {D : Type} (o : Arith D)

/-- A buffer of this size for a text and its NUL. There is none for a text that overflows it, or
    once the int in which the size is counted has overflowed. -/
def fits (size : Nat) (out : List Byte) : Option (List Byte) :=
  if size < 2147483648 ∧ out.length < size then some out else none

def digits (n : Nat) : List Byte :=
  if n = 0 then [ch '0'] else (Nat.digits 10 n).reverse.map fun d => BitVec.ofNat 8 (48 + d)

def decimal (n : Int) : List Byte := if n < 0 then ch '-' :: digits n.natAbs else digits n.natAbs

def isInt (f : Fields D) : Bool :=
  o.le (o.fabs (o.sub (o.ofInt f.valueint.toInt) f.valuedouble)) o.dblEpsilon &&
    o.le f.valuedouble (o.ofInt 2147483647) && o.le (o.ofInt (-2147483648)) f.valuedouble

def conversion (d : D) : Conversion :=
  if o.le (o.fabs (o.sub (o.floor d) d)) o.dblEpsilon && o.lt (o.fabs d) o.e60 then .f0
  else if o.lt (o.fabs d) o.em6 || o.lt o.e9 (o.fabs d) then .e
  else .f

def numberText (f : Fields D) : List Byte :=
  if isInt o f then decimal f.valueint.toInt else o.sprintf (conversion o f.valuedouble) f.valuedouble

def printNumber (f : Fields D) : Option (List Byte) := fits (if isInt o f then 21 else 64) (numberText o f)

def hexChar (n : Nat) : Byte := if n < 10 then BitVec.ofNat 8 (48 + n) else BitVec.ofNat 8 (87 + n)

def hex4 (n : Nat) : List Byte :=
  [hexChar (n / 4096 % 16), hexChar (n / 256 % 16), hexChar (n / 16 % 16), hexChar (n % 16)]

def escapeLetter (token : Byte) : Option Byte :=
  if token = ch '\\' then some (ch '\\')
  else if token = ch '"' then some (ch '"')
  else if token = 8 then some (ch 'b')
  else if token = 12 then some (ch 'f')
  else if token = 10 then some (ch 'n')
  else if token = 13 then some (ch 'r')
  else if token = 9 then some (ch 't')
  else none

def escaped (token : Byte) : List Byte :=
  if 31 < token.toNat ∧ token ≠ ch '"' ∧ token ≠ ch '\\' then [token]
  else match escapeLetter token with
    | some letter => [ch '\\', letter]
    | none => ch '\\' :: ch 'u' :: hex4 token.toNat

/-- What the counting loop adds for it: two for a character of "\"\\\b\f\n\r\t". -/
def escapedLen (token : Byte) : Nat :=
  if (escapeLetter token).isSome then 2 else if token.toNat < 32 then 6 else 1

def stringText (s : List Byte) : List Byte := ch '"' :: (s.flatMap escaped ++ [ch '"'])

def nameText : Option (List Byte) → List Byte
  | none => []
  | some s => stringText s

/-- A null pointer is printed as an empty text, without quotes. -/
def printStringPtr : Option (List Byte) → Option (List Byte)
  | none => some []
  | some s => fits (s.foldl (fun len token => len + escapedLen token) 0 + 3) (stringText s)

def arrayBody (fmt : Bool) : List (List Byte) → List Byte
  | [] => []
  | [entry] => entry
  | entry :: next :: entries =>
      entry ++ (ch ',' :: (if fmt then [ch ' '] else [])) ++ arrayBody fmt (next :: entries)

def arrayText (fmt : Bool) (entries : List (List Byte)) : List Byte :=
  ch '[' :: (arrayBody fmt entries ++ [ch ']'])

def printArray (fmt : Bool) (entries : List (List Byte)) : Option (List Byte) :=
  if entries = [] then fits 3 (arrayText fmt entries)
  else fits (entries.foldl (fun len ret => len + ret.length + 2 + if fmt then 1 else 0) 5)
    (arrayText fmt entries)

def tabs (fmt : Bool) (n : Nat) : List Byte := if fmt then List.replicate n (ch '\t') else []

def newline (fmt : Bool) : List Byte := if fmt then [ch '\n'] else []

def memberText (fmt : Bool) (depth : Nat) (entry : List Byte × List Byte) : List Byte :=
  tabs fmt depth ++ entry.1 ++ (ch ':' :: tabs fmt 1) ++ entry.2

def objectBody (fmt : Bool) (depth : Nat) : List (List Byte × List Byte) → List Byte
  | [] => []
  | [entry] => memberText fmt depth entry ++ newline fmt
  | entry :: next :: entries =>
      memberText fmt depth entry ++ (ch ',' :: newline fmt) ++ objectBody fmt depth (next :: entries)

/-- depth is that of the object; its members stand one deeper. The depth - 1 tabs before the
    closing bracket of an empty object are one fewer than those of another. -/
def objectText (fmt : Bool) (depth : Nat) (entries : List (List Byte × List Byte)) : List Byte :=
  ch '{' :: (newline fmt ++ objectBody fmt (depth + 1) entries ++
    tabs fmt (if entries = [] then depth - 1 else depth) ++ [ch '}'])

def printObject (fmt : Bool) (depth : Nat) (entries : List (List Byte × List Byte)) : Option (List Byte) :=
  if entries = [] then fits (if fmt then depth + 4 else 3) (objectText fmt depth entries)
  else fits (entries.foldl (fun len entry => len + entry.2.length + entry.1.length + 2 +
      if fmt then 2 + (depth + 1) else 0) (7 + if fmt then depth + 1 else 0)) (objectText fmt depth entries)

/-- print_value for an item whose children have these names and texts, none where the printing
    of one has failed. -/
def printItem (fmt : Bool) (depth : Nat) (f : Fields D)
    (entries : List (Option (List Byte) × Option (List Byte))) : Option (List Byte) :=
  match f.kind with
  | .null => some (text ['n', 'u', 'l', 'l'])
  | .false => some (text ['f', 'a', 'l', 's', 'e'])
  | .true => some (text ['t', 'r', 'u', 'e'])
  | .number => printNumber o f
  | .string => printStringPtr f.valuestring
  | .array => do printArray fmt (← entries.mapM fun entry => entry.2)
  | .object => do
      printObject fmt depth (← entries.mapM fun entry => do
        let str ← entry.1
        let ret ← entry.2
        pure (str, ret))

def printChain (fmt : Bool) : Nat → CJson D → List (Option (List Byte) × Option (List Byte))
  | _, .nil => []
  | depth, .node f child next =>
      (printStringPtr f.string, printItem o fmt depth f (printChain fmt (depth + 1) child)) ::
        printChain fmt depth next

def printValue (fmt : Bool) (depth : Nat) : CJson D → Option (List Byte)
  | .nil => none
  | .node f child _ => printItem o fmt depth f (printChain o fmt (depth + 1) child)

def cJsonPrint (item : CJson D) : Option (List Byte) := printValue o true 0 item

def cJsonPrintUnformatted (item : CJson D) : Option (List Byte) := printValue o false 0 item

section Texts

def itemText (fmt : Bool) (depth : Nat) (f : Fields D) (entries : List (List Byte × List Byte)) : List Byte :=
  match f.kind with
  | .null => text ['n', 'u', 'l', 'l']
  | .false => text ['f', 'a', 'l', 's', 'e']
  | .true => text ['t', 'r', 'u', 'e']
  | .number => numberText o f
  | .string => nameText f.valuestring
  | .array => arrayText fmt (entries.map fun entry => entry.2)
  | .object => objectText fmt depth entries

def chainTexts (fmt : Bool) : Nat → CJson D → List (List Byte × List Byte)
  | _, .nil => []
  | depth, .node f child next =>
      (nameText f.string, itemText o fmt depth f (chainTexts fmt (depth + 1) child)) ::
        chainTexts fmt depth next

/-- The text of an item, apart from the buffers it is put into. -/
def valueText (fmt : Bool) (depth : Nat) : CJson D → List Byte
  | .nil => []
  | .node f child _ => itemText o fmt depth f (chainTexts o fmt (depth + 1) child)

/-- How long printf makes a number: 60 digits and a sign below 1.0e60, ten digits and six behind
    the point up to 1.0e9. -/
structure Arith.Sized : Prop where
  f0 : ∀ d, o.lt (o.fabs d) o.e60 = true → (o.sprintf .f0 d).length ≤ 61
  e : ∀ d, (o.sprintf .e d).length ≤ 14
  f : ∀ d, o.lt o.e9 (o.fabs d) = false → (o.sprintf .f d).length ≤ 18

end Texts

section Buffers

/-- A text so short that no size counted for it overflows an int: for each comma of an array two
    bytes are counted. -/
def Short (text : List Byte) : Prop := text.length < 1073741822

/-- What is printed is this text, and it is printed if it is short. -/
structure Prints (printed : Option (List Byte)) (text : List Byte) : Prop where
  only : ∀ out, printed = some out → out = text
  short : Short text → printed = some text

theorem prints_some (text : List Byte) : Prints (some text) text :=
  ⟨fun _ printed => (Option.some.inj printed).symm, fun _ => rfl⟩

theorem fits_prints {size : Nat} {out : List Byte} (room : out.length < size)
    (count : size ≤ 2 * out.length + 4 ∨ size ≤ 64) : Prints (fits size out) out where
  only text printed := by
    unfold fits at printed
    split at printed
    · exact (Option.some.inj printed).symm
    · cases printed
  short short := if_pos ⟨by unfold Short at short; omega, room⟩

theorem digits_length {n k : Nat} (small : n < Nat.pow 10 k) (some : 0 < k) : (digits n).length ≤ k := by
  unfold digits
  split
  · exact some
  · rw [List.length_map, List.length_reverse]
    exact (Nat.digits_length_le_iff (by decide) n).mpr small

theorem decimal_length_le {n : Int} {k : Nat} (small : n.natAbs < Nat.pow 10 k) (some : 0 < k) :
    (decimal n).length ≤ k + 1 := by
  have size := digits_length small some
  unfold decimal
  split
  · rw [List.length_cons]
    omega
  · omega

theorem decimal_length (n : BitVec 32) : (decimal n.toInt).length ≤ 11 := by
  have low := BitVec.le_toInt n
  have high := BitVec.toInt_lt (x := n)
  have limit : Nat.pow 10 10 = 10000000000 := by decide
  exact decimal_length_le (by omega) (by decide)

theorem numberText_length (sized : o.Sized) (f : Fields D) :
    (numberText o f).length < if isInt o f then 21 else 64 := by
  unfold numberText
  by_cases whole : isInt o f = true
  · have size := decimal_length f.valueint
    rw [if_pos whole, if_pos whole]
    omega
  · rw [if_neg whole, if_neg whole]
    unfold conversion
    split
    · rename_i integral
      have size := sized.f0 f.valuedouble (Bool.and_eq_true_iff.mp integral).2
      omega
    · split
      · have size := sized.e f.valuedouble
        omega
      · rename_i plain
        have size := sized.f f.valuedouble (by simp at plain; exact plain.2)
        omega

theorem printNumber_prints (sized : o.Sized) (f : Fields D) : Prints (printNumber o f) (numberText o f) := by
  have room := numberText_length o sized f
  apply fits_prints room
  split <;> omega

theorem escapeLetter_plain {token : Byte} (high : 31 < token.toNat) (quote : token ≠ ch '"')
    (backslash : token ≠ ch '\\') : escapeLetter token = none := by
  have control (c : Byte) (low : c.toNat ≤ 31) : token ≠ c := by
    intro same
    rw [same] at high
    omega
  rw [escapeLetter, if_neg backslash, if_neg quote, if_neg (control 8 (by decide)), if_neg (control 12 (by decide)),
    if_neg (control 10 (by decide)), if_neg (control 13 (by decide)), if_neg (control 9 (by decide))]

theorem escapeLetter_none {token : Byte} (none : escapeLetter token = none) :
    token ≠ ch '"' ∧ token ≠ ch '\\' := by
  constructor
  · rintro rfl
    exact absurd none (by decide)
  · rintro rfl
    exact absurd none (by decide)

theorem escaped_length (token : Byte) : (escaped token).length = escapedLen token := by
  unfold escaped escapedLen
  by_cases plain : 31 < token.toNat ∧ token ≠ ch '"' ∧ token ≠ ch '\\'
  · rw [if_pos plain, escapeLetter_plain plain.1 plain.2.1 plain.2.2]
    simp [Nat.not_lt.mpr plain.1]
  · rw [if_neg plain]
    cases letter : escapeLetter token with
    | some c => rfl
    | none =>
      have low : token.toNat < 32 := by
        by_contra high
        exact plain ⟨by omega, escapeLetter_none letter⟩
      simp [low, hex4]

theorem escaped_cases (token : Byte) :
    (escaped token = [token] ∧ token ≠ ch '"' ∧ token ≠ ch '\\') ∨
      (∃ letter, escaped token = [ch '\\', letter] ∧ escapeLetter token = some letter) ∨
      (escaped token = ch '\\' :: ch 'u' :: hex4 token.toNat ∧ token.toNat < 32) := by
  unfold escaped
  by_cases plain : 31 < token.toNat ∧ token ≠ ch '"' ∧ token ≠ ch '\\'
  · exact .inl ⟨if_pos plain, plain.2⟩
  · right
    rw [if_neg plain]
    cases letter : escapeLetter token with
    | some c => exact .inl ⟨c, rfl, rfl⟩
    | none =>
      refine .inr ⟨rfl, ?_⟩
      by_contra high
      exact plain ⟨by omega, escapeLetter_none letter⟩

theorem hexChar_plain : ∀ k < 16, hexChar k ≠ ch '"' ∧ hexChar k ≠ ch '\\' := by decide

theorem flatMap_escaped_length (s : List Byte) (len : Nat) :
    s.foldl (fun len token => len + escapedLen token) len = len + (s.flatMap escaped).length := by
  induction s generalizing len with
  | nil => rfl
  | cons token s ih =>
    rw [List.foldl_cons, ih, List.flatMap_cons, List.length_append, escaped_length]
    omega

/-- The buffer of a string is exactly full. -/
theorem printStringPtr_prints (s : Option (List Byte)) : Prints (printStringPtr s) (nameText s) := by
  cases s with
  | none => exact prints_some []
  | some s =>
    have length : (stringText s).length = (s.flatMap escaped).length + 2 := by
      simp [stringText]
    rw [printStringPtr, flatMap_escaped_length, nameText]
    exact fits_prints (by omega) (by omega)

theorem arrayBody_length (fmt : Bool) {entries : List (List Byte)} (some : entries ≠ []) (len : Nat) :
    entries.foldl (fun len ret => len + ret.length + 2 + if fmt then 1 else 0) len =
        len + (arrayBody fmt entries).length + entries.length + 1 + (if fmt then 1 else 0) ∧
      entries.length ≤ (arrayBody fmt entries).length + 1 := by
  induction entries generalizing len with
  | nil => contradiction
  | cons entry entries ih =>
    rw [List.foldl_cons]
    cases entries with
    | nil =>
      rw [arrayBody, List.foldl_nil, List.length_singleton]
      omega
    | cons next entries =>
      obtain ⟨counted, commas⟩ := ih (List.cons_ne_nil _ _) (len + entry.length + 2 + if fmt then 1 else 0)
      have comma : (ch ',' :: if fmt then [ch ' '] else []).length = 1 + if fmt then 1 else 0 := by
        cases fmt <;> rfl
      rw [counted, arrayBody, List.length_append, List.length_append, comma]
      simp only [List.length_cons] at commas ⊢
      omega

theorem printArray_prints (fmt : Bool) (entries : List (List Byte)) :
    Prints (printArray fmt entries) (arrayText fmt entries) := by
  have length : (arrayText fmt entries).length = (arrayBody fmt entries).length + 2 := by
    simp [arrayText]
  unfold printArray
  split
  · rename_i empty
    subst empty
    rw [arrayBody, List.length_nil] at length
    exact fits_prints (by omega) (by omega)
  · rename_i some
    obtain ⟨counted, commas⟩ := arrayBody_length fmt some 5
    rw [counted]
    exact fits_prints (by omega) (by split <;> omega)

theorem tabs_length (fmt : Bool) (n : Nat) : (tabs fmt n).length = if fmt then n else 0 := by
  cases fmt <;> simp [tabs]

theorem newline_length (fmt : Bool) : (newline fmt).length = if fmt then 1 else 0 := by
  cases fmt <;> rfl

theorem memberText_length (fmt : Bool) (depth : Nat) (entry : List Byte × List Byte) :
    (memberText fmt depth entry).length = entry.2.length + entry.1.length + 1 + if fmt then depth + 1 else 0 := by
  simp only [memberText, List.length_append, List.length_cons, tabs_length]
  cases fmt with
  | false =>
    simp
    omega
  | true =>
    simp
    omega

theorem objectBody_length (fmt : Bool) (depth : Nat) {entries : List (List Byte × List Byte)} (some : entries ≠ [])
    (len : Nat) :
    entries.foldl (fun len entry => len + entry.2.length + entry.1.length + 2 +
        if fmt then 2 + depth else 0) len = len + (objectBody fmt depth entries).length + 1 := by
  induction entries generalizing len with
  | nil => contradiction
  | cons entry entries ih =>
    have here := memberText_length fmt depth entry
    have line := newline_length fmt
    rw [List.foldl_cons]
    cases entries with
    | nil =>
      rw [objectBody, List.length_append, List.foldl_nil]
      cases fmt <;> simp only [if_true, if_false, Bool.false_eq_true] at * <;> omega
    | cons next entries =>
      rw [ih (List.cons_ne_nil _ _), objectBody, List.length_append, List.length_append, List.length_cons]
      cases fmt <;> simp only [if_true, if_false, Bool.false_eq_true] at * <;> omega

theorem objectText_length (fmt : Bool) (depth : Nat) (entries : List (List Byte × List Byte)) :
    (objectText fmt depth entries).length = (objectBody fmt (depth + 1) entries).length + 2 +
      if fmt then 1 + (if entries = [] then depth - 1 else depth) else 0 := by
  simp only [objectText, List.length_cons, List.length_append, List.length_nil, tabs_length, newline_length]
  cases fmt with
  | false => simp
  | true =>
    simp only [if_true]
    omega

theorem printObject_prints (fmt : Bool) (depth : Nat) (entries : List (List Byte × List Byte)) :
    Prints (printObject fmt depth entries) (objectText fmt depth entries) := by
  have length := objectText_length fmt depth entries
  unfold printObject
  split
  · rename_i empty
    subst empty
    simp only [objectBody, List.length_nil, if_true] at length
    cases fmt <;> simp only [if_true, if_false, Bool.false_eq_true] at * <;>
      exact fits_prints (by omega) (by omega)
  · rename_i some
    rw [if_neg some] at length
    have counted := objectBody_length fmt (depth + 1) some (7 + if fmt then depth + 1 else 0)
    rw [counted]
    cases fmt <;> simp only [if_true, if_false, Bool.false_eq_true] at * <;>
      exact fits_prints (by omega) (by omega)

structure EntryPrints (printed : Option (List Byte) × Option (List Byte)) (entry : List Byte × List Byte) : Prop where
  name : Prints printed.1 entry.1
  value : Prints printed.2 entry.2

section Entries
variable {α β γ : Type} {R : α → β → Prop} {p : α → Option γ} {g : β → γ} {as : List α} {bs : List β}

theorem mapM_only (each : ∀ a b, R a b → ∀ c, p a = some c → c = g b) (all : List.Forall₂ R as bs) {cs : List γ}
    (mapped : as.mapM p = some cs) : cs = bs.map g := by
  induction all generalizing cs with
  | nil => exact (Option.some.inj mapped).symm
  | cons here _ ih =>
    simp only [List.mapM_cons, Option.bind_eq_bind, Option.bind_eq_some_iff] at mapped
    obtain ⟨c, first, rest, later, made⟩ := mapped
    rw [← Option.some.inj made, each _ _ here c first, ih later, List.map_cons]

theorem mapM_all (each : ∀ a b, b ∈ bs → R a b → p a = some (g b)) (all : List.Forall₂ R as bs) :
    as.mapM p = some (bs.map g) := by
  induction all with
  | nil => rfl
  | cons here _ ih =>
    have later := ih fun a b mem => each a b (List.mem_cons_of_mem _ mem)
    rw [List.mapM_cons, each _ _ List.mem_cons_self here, later]
    rfl

end Entries

theorem arrayBody_entry {fmt : Bool} {entries : List (List Byte)} {entry : List Byte} (mem : entry ∈ entries) :
    entry.length ≤ (arrayBody fmt entries).length := by
  induction entries with
  | nil => cases mem
  | cons first entries ih =>
    cases entries with
    | nil =>
      rw [List.mem_singleton.mp mem, arrayBody]
    | cons next entries =>
      rw [arrayBody, List.length_append, List.length_append]
      rcases List.mem_cons.mp mem with rfl | later
      · omega
      · have inside := ih later
        omega

theorem objectBody_entry {fmt : Bool} {depth : Nat} {entries : List (List Byte × List Byte)}
    {entry : List Byte × List Byte} (mem : entry ∈ entries) :
    entry.1.length + entry.2.length ≤ (objectBody fmt depth entries).length := by
  induction entries with
  | nil => cases mem
  | cons first entries ih =>
    have here := memberText_length fmt depth first
    cases entries with
    | nil =>
      rw [List.mem_singleton.mp mem, objectBody, List.length_append]
      omega
    | cons next entries =>
      rw [objectBody, List.length_append, List.length_append]
      rcases List.mem_cons.mp mem with rfl | later
      · omega
      · have inside := ih later
        omega

theorem bind_prints {α : Type} {made : Option α} {want : α} {print : α → Option (List Byte)} {text : List Byte}
    (only : ∀ got, made = some got → got = want) (short : Short text → made = some want)
    (printed : Prints (print want) text) : Prints (made.bind print) text where
  only out both := by
    obtain ⟨got, first, second⟩ := Option.bind_eq_some_iff.mp both
    rw [only got first] at second
    exact printed.only out second
  short few := by
    rw [short few]
    exact printed.short few

theorem printItem_prints (sized : o.Sized) (fmt : Bool) (depth : Nat) (f : Fields D)
    {printed : List (Option (List Byte) × Option (List Byte))} {entries : List (List Byte × List Byte)}
    (each : List.Forall₂ EntryPrints printed entries) :
    Prints (printItem o fmt depth f printed) (itemText o fmt depth f entries) := by
  unfold printItem itemText
  cases f.kind with
  | null => exact prints_some _
  | false => exact prints_some _
  | true => exact prints_some _
  | number => exact printNumber_prints o sized f
  | string => exact printStringPtr_prints f.valuestring
  | array =>
    refine bind_prints (fun got made => mapM_only (fun _ _ entry => entry.value.only) each made) ?_
      (printArray_prints fmt _)
    intro short
    apply mapM_all _ each
    intro _ entry mem prints
    apply prints.value.short
    have inside : entry.2.length ≤ (arrayBody fmt (entries.map fun entry => entry.2)).length :=
      arrayBody_entry (List.mem_map_of_mem mem)
    simp only [Short, arrayText, List.length_cons, List.length_append] at short ⊢
    omega
  | object =>
    apply bind_prints _ _ (printObject_prints fmt depth entries)
    · intro got made
      have all := mapM_only (g := fun entry : List Byte × List Byte => entry) ?_ each made
      · rwa [List.map_id'] at all
      · intro _ entry prints both here
        simp only [Option.bind_eq_bind, Option.bind_eq_some_iff] at here
        obtain ⟨str, name, ret, value, made⟩ := here
        rw [← Option.some.inj made, prints.name.only str name, prints.value.only ret value]
    · intro short
      refine (mapM_all (g := fun entry : List Byte × List Byte => entry) ?_ each).trans ?_
      · intro _ entry mem prints
        have inside : entry.1.length + entry.2.length ≤ (objectBody fmt (depth + 1) entries).length :=
          objectBody_entry mem
        simp only [Short, objectText_length] at short
        rw [prints.name.short (by unfold Short; omega), prints.value.short (by unfold Short; omega)]
        rfl
      · rw [List.map_id']

theorem printChain_prints (sized : o.Sized) (fmt : Bool) (depth : Nat) (items : CJson D) :
    List.Forall₂ EntryPrints (printChain o fmt depth items) (chainTexts o fmt depth items) := by
  induction items generalizing depth with
  | nil => exact .nil
  | node f child next ihChild ihNext =>
    exact .cons ⟨printStringPtr_prints f.string, printItem_prints o sized fmt depth f (ihChild (depth + 1))⟩ (ihNext depth)

theorem printValue_prints (sized : o.Sized) (fmt : Bool) (depth : Nat) (f : Fields D) (child next : CJson D) :
    Prints (printValue o fmt depth (.node f child next)) (valueText o fmt depth (.node f child next)) :=
  printItem_prints o sized fmt depth f (printChain_prints o sized fmt (depth + 1) child)

theorem fits_length {size : Nat} {out text : List Byte} (printed : fits size out = some text) :
    text.length < 2147483648 := by
  unfold fits at printed
  split at printed
  · rename_i int
    cases printed
    exact Nat.lt_trans int.2 int.1
  · cases printed

/-- Whatever is printed is shorter than the int in which its buffer was counted. -/
theorem printValue_length {o : Arith D} {fmt : Bool} {depth : Nat} {items : CJson D} {out : List Byte}
    (printed : printValue o fmt depth items = some out) : out.length < 2147483648 := by
  cases items with
  | nil => cases printed
  | node f child next =>
    rw [printValue] at printed
    unfold printItem at printed
    have word {w : List Byte} (short : w.length < 2147483648) (here : some w = some out) : out.length < 2147483648 := by
      rwa [← Option.some.inj here]
    split at printed
    · exact word (by decide) printed
    · exact word (by decide) printed
    · exact word (by decide) printed
    · exact fits_length printed
    · unfold printStringPtr at printed
      split at printed
      · exact word (by decide) printed
      · exact fits_length printed
    · obtain ⟨entries, _, whole⟩ := Option.bind_eq_some_iff.mp printed
      unfold printArray at whole
      split at whole <;> exact fits_length whole
    · obtain ⟨entries, _, whole⟩ := Option.bind_eq_some_iff.mp printed
      unfold printObject at whole
      split at whole <;> exact fits_length whole

end Buffers

/-- No buffer of print_value overflows while a text is short, whatever the tree and its depth. -/
theorem print_fits_buffers (sized : o.Sized) (fmt : Bool) (depth : Nat) (f : Fields D) (child next : CJson D)
    (short : Short (valueText o fmt depth (.node f child next))) :
    printValue o fmt depth (.node f child next) = some (valueText o fmt depth (.node f child next)) :=
  (printValue_prints o sized fmt depth f child next).short short

/-- Numbers without a fraction. They are printed by "%d" and "%.0f" as by a double that holds them. -/
def wholeNumbers : Arith Int where
  ofInt n := n
  toInt n := BitVec.ofInt 32 n
  add a b := a + b
  sub a b := a - b
  mul a b := a * b
  pow a b := a ^ b.toNat
  fabs a := a.natAbs
  floor a := a
  le a b := decide (a ≤ b)
  lt a b := decide (a < b)
  dblEpsilon := 0
  e60 := Nat.pow 10 60
  em6 := 0
  e9 := 1000000000
  sprintf conversion a :=
    match conversion with
    | .f0 => decimal a
    | .e => text ['i', 'n', 'f']
    | .f => decimal a ++ text ['.', '0', '0', '0', '0', '0', '0']

theorem wholeNumbers_sized : wholeNumbers.Sized where
  f0 d small := by
    simp only [wholeNumbers, decide_eq_true_eq] at small
    exact decimal_length_le (Int.ofNat_lt.mp small) (by decide)
  e _ := (by decide : 3 ≤ 14)
  f d small := by
    simp only [wholeNumbers, decide_eq_false_iff_not] at small
    have size : (decimal d).length ≤ 10 + 1 := by
      apply decimal_length_le
      · have limit : Nat.pow 10 10 = 10000000000 := by decide
        omega
      · decide
    have rest : (wholeNumbers.sprintf .f d).length = (decimal d).length + 7 := by
      simp [wholeNumbers, text]
    omega

theorem nested_item_fits :
    printValue wholeNumbers true 0 (.node ⟨.array, false, none, 0, 0, none⟩
      (.node ⟨.object, false, none, 0, 0, none⟩ (.node ⟨.number, false, none, 7, 7, some (text ['a'])⟩ .nil .nil) .nil)
      .nil) = some (text ['[', '{', '\n', '\t', '\t', '"', 'a', '"', ':', '\t', '7', '\n', '\t', '}', ']']) := by
  rw [print_fits_buffers wholeNumbers wholeNumbers_sized]
  · decide
  · unfold Short
    decide

end TestSource.Json
