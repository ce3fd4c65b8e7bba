import Mathlib.Data.List.DropRight
import TestSource.JsonParse

/- What cJSON prints is what it reads. -/
namespace TestSource.Json

section Hex

theorem hexDigit_hexChar : ∀ k < 16, hexDigit (hexChar k) = some k := by decide

structure Spells (code : List Byte) (n : Nat) : Prop where
  length : code.length = 4
  digits : ∀ c ∈ code, ∃ k, hexDigit c = some k
  read : ∀ rest, parseHex4 (code ++ rest) = n

theorem spells_digits {a b c d : Byte} {i j k l : Nat} (first : hexDigit a = some i) (second : hexDigit b = some j)
    (third : hexDigit c = some k) (fourth : hexDigit d = some l) :
    Spells [a, b, c, d] (((i * 16 + j) * 16 + k) * 16 + l) where
  length := rfl
  digits := by
    simp [first, second, third, fourth]
  read rest := by
    simp only [parseHex4, peek, List.cons_append, List.nil_append, List.headD_cons, List.drop_succ_cons,
      List.drop_zero, first, second, third, fourth, Option.bind_eq_bind, Option.bind_some, Option.getD_some]

theorem number_digits {n : Nat} (small : n < 65536) :
    ((n / 4096 % 16 * 16 + n / 256 % 16) * 16 + n / 16 % 16) * 16 + n % 16 = n := by omega

theorem spells_hex4 {n : Nat} (small : n < 65536) : Spells (hex4 n) n := by
  have code := spells_digits (hexDigit_hexChar (n / 4096 % 16) (by omega)) (hexDigit_hexChar (n / 256 % 16) (by omega))
    (hexDigit_hexChar (n / 16 % 16) (by omega)) (hexDigit_hexChar (n % 16) (by omega))
  rwa [number_digits small] at code

theorem hexDigit_plain {c : Byte} {k : Nat} (digit : hexDigit c = some k) : c ≠ ch '"' ∧ c ≠ ch '\\' := by
  have quote : hexDigit (ch '"') = none := by decide
  have backslash : hexDigit (ch '\\') = none := by decide
  constructor
  · rintro rfl
    rw [quote] at digit
    cases digit
  · rintro rfl
    rw [backslash] at digit
    cases digit

theorem advance_append (front rest : List Byte) : advance front.length (front ++ rest) = some rest := by
  rw [advance, if_pos (by simp), List.drop_left]

theorem unicode_spelled {code : List Byte} {n : Nat} (spells : Spells code n) (some : 0 < n)
    (single : n < 0xD800 ∨ 0xDFFF < n) (rest : List Byte) : unicode (code ++ rest) = .some (utf8 n, rest) := by
  have ahead : advance 4 (code ++ rest) = .some rest := by
    rw [← spells.length]
    exact advance_append code rest
  simp only [unicode, spells.read]
  rw [if_neg (by omega), if_neg (by omega), ahead]
  rfl

theorem utf8_ascii {c : Byte} (low : c.toNat < 128) : utf8 c.toNat = [c] := by
  have len : utf8Len c.toNat = 1 := if_pos low
  simp [utf8, len, fill, firstByteMark]

end Hex

section Strings

theorem copyLoop_quote (fuel : Nat) (rest : List Byte) :
    copyLoop (fuel + 1) (ch '"' :: rest) = some ([], ch '"' :: rest) := by
  rw [copyLoop, if_pos rfl]

theorem copyLoop_plain {c : Byte} (quote : c ≠ ch '"') (backslash : c ≠ ch '\\') (fuel : Nat) (rest : List Byte) :
    copyLoop (fuel + 1) (c :: rest) = (copyLoop fuel rest).map fun (out, stop) => (c :: out, stop) := by
  rw [copyLoop, if_neg quote, if_pos backslash]

theorem copyLoop_escape {rest bytes next : List Byte} (read : unescape rest = some (bytes, next)) (fuel : Nat) :
    copyLoop (fuel + 1) (ch '\\' :: rest) =
      (copyLoop fuel next).map fun (out, stop) => (bytes ++ out, stop) := by
  rw [copyLoop, if_neg (by decide), if_neg (by simp)]
  simp only [read, Option.bind_eq_bind, Option.bind_some, Option.map_eq_bind]
  rfl

theorem unescape_u (rest : List Byte) : unescape (ch 'u' :: rest) = unicode rest := rfl

theorem unescape_letter {token letter : Byte} (written : escapeLetter token = some letter) (rest : List Byte) :
    unescape (letter :: rest) = some ([token], rest) := by
  unfold escapeLetter at written
  repeat' split at written
  all_goals
    first
      | contradiction
      | (cases written
         subst_vars
         rfl)

theorem countLoop_plain {c : Byte} (quote : c ≠ ch '"') (backslash : c ≠ ch '\\') (rest : List Byte) :
    countLoop (c :: rest) = (countLoop rest).map (· + 1) := by
  rw [countLoop.eq_def (c :: rest)]
  exact (if_neg quote).trans (if_neg backslash)

theorem countLoop_escape (e : Byte) (rest : List Byte) :
    countLoop (ch '\\' :: e :: rest) = (countLoop rest).map (· + 1) := by
  rw [countLoop, if_neg (by decide), if_pos rfl]

theorem countLoop_digits {code : List Byte} (digits : ∀ c ∈ code, ∃ k, hexDigit c = some k) (rest : List Byte) :
    countLoop (code ++ rest) = (countLoop rest).map (· + code.length) := by
  induction code with
  | nil => simp
  | cons c code ih =>
    obtain ⟨k, digit⟩ := digits c List.mem_cons_self
    obtain ⟨quote, backslash⟩ := hexDigit_plain digit
    rw [List.cons_append, countLoop_plain quote backslash, ih fun x mem => digits x (List.mem_cons_of_mem c mem),
      Option.map_map]
    rfl

theorem countLoop_code {code : List Byte} {n : Nat} (spells : Spells code n) (rest : List Byte) :
    countLoop (ch '\\' :: ch 'u' :: (code ++ rest)) = (countLoop rest).map (· + 5) := by
  rw [countLoop_escape, countLoop_digits spells.digits, spells.length, Option.map_map]
  rfl

/-- A part of a string that one round of the second loop reads as these bytes, for which the first
    has counted enough. -/
structure Copied (part bytes : List Byte) : Prop where
  some : 0 < part.length
  copy : ∀ fuel rest, copyLoop (fuel + 1) (part ++ rest) =
    (copyLoop fuel rest).map fun (out, stop) => (bytes ++ out, stop)
  count : ∃ k, bytes.length ≤ k ∧ k ≤ part.length ∧ ∀ rest, countLoop (part ++ rest) = (countLoop rest).map (· + k)

theorem copied_code {code : List Byte} {n : Nat} (spells : Spells code n) (some : 0 < n)
    (single : n < 0xD800 ∨ 0xDFFF < n) (short : (utf8 n).length ≤ 5) :
    Copied (ch '\\' :: ch 'u' :: code) (utf8 n) where
  some := by simp
  copy fuel rest := by
    have read : unescape (ch 'u' :: (code ++ rest)) = .some (utf8 n, rest) := by
      rw [unescape_u, unicode_spelled spells some single rest]
    exact copyLoop_escape read fuel
  count := by
    refine ⟨5, short, ?_, countLoop_code spells⟩
    rw [List.length_cons, List.length_cons, spells.length]
    decide

theorem copied_escaped {token : Byte} (noNul : token ≠ 0) : Copied (escaped token) [token] := by
  rcases escaped_cases token with ⟨written, quote, backslash⟩ | ⟨letter, written, known⟩ | ⟨written, low⟩
  · rw [written]
    exact ⟨by simp, copyLoop_plain quote backslash, 1, by simp, by simp, countLoop_plain quote backslash⟩
  · rw [written]
    exact ⟨by simp, fun fuel rest => copyLoop_escape (unescape_letter known rest) fuel, 1, by simp, by simp,
      countLoop_escape letter⟩
  · have code : 0 < token.toNat := by
      apply Nat.pos_of_ne_zero
      intro zero
      exact noNul (BitVec.eq_of_toNat_eq zero)
    have ascii := utf8_ascii (by omega : token.toNat < 128)
    have read := copied_code (spells_hex4 (by omega)) code (by omega) (by rw [ascii]; simp)
    rw [written]
    rwa [ascii] at read

theorem copyLoop_parts {parts : List (List Byte × List Byte)} (all : ∀ p ∈ parts, Copied p.1 p.2)
    (rest : List Byte) {fuel : Nat} (enough : parts.length < fuel) :
    copyLoop fuel (parts.flatMap Prod.fst ++ ch '"' :: rest) = some (parts.flatMap Prod.snd, ch '"' :: rest) := by
  obtain ⟨fuel, rfl⟩ : ∃ n, fuel = n + 1 := ⟨fuel - 1, by omega⟩
  induction parts generalizing fuel with
  | nil => exact copyLoop_quote fuel rest
  | cons p parts ih =>
    rw [List.length_cons] at enough
    obtain ⟨fuel, rfl⟩ : ∃ n, fuel = n + 1 := ⟨fuel - 1, by omega⟩
    have later := ih (fun q mem => all q (List.mem_cons_of_mem p mem)) fuel (by omega)
    rw [List.flatMap_cons, List.append_assoc, (all p List.mem_cons_self).copy, later, List.flatMap_cons]
    rfl

theorem countLoop_parts {parts : List (List Byte × List Byte)} (all : ∀ p ∈ parts, Copied p.1 p.2)
    (rest : List Byte) :
    ∃ len, countLoop (parts.flatMap Prod.fst ++ ch '"' :: rest) = some len ∧
      (parts.flatMap Prod.snd).length ≤ len ∧ len ≤ (parts.flatMap Prod.fst).length := by
  induction parts with
  | nil =>
    refine ⟨0, ?_, Nat.le_refl 0, Nat.le_refl 0⟩
    rw [List.flatMap_nil, List.nil_append, countLoop.eq_def]
    exact if_pos rfl
  | cons p parts ih =>
    obtain ⟨len, counted, enough, most⟩ := ih fun q mem => all q (List.mem_cons_of_mem p mem)
    obtain ⟨k, room, small, here⟩ := (all p List.mem_cons_self).count
    refine ⟨len + k, ?_, by rw [List.flatMap_cons, List.length_append]; omega,
      by rw [List.flatMap_cons, List.length_append]; omega⟩
    rw [List.flatMap_cons, List.append_assoc, here, counted]
    rfl

theorem length_parts {parts : List (List Byte × List Byte)} (all : ∀ p ∈ parts, Copied p.1 p.2) :
    parts.length ≤ (parts.flatMap Prod.fst).length := by
  induction parts with
  | nil => exact Nat.le_refl 0
  | cons p parts ih =>
    have here := (all p List.mem_cons_self).some
    have later := ih fun q mem => all q (List.mem_cons_of_mem p mem)
    rw [List.flatMap_cons, List.length_append, List.length_cons]
    omega

/-- A string of such parts is read inside its buffer. -/
theorem parseString_parts {D : Type} (item : Fields D) {parts : List (List Byte × List Byte)}
    (all : ∀ p ∈ parts, Copied p.1 p.2) (short : (parts.flatMap Prod.fst).length < 2147483647) (rest : List Byte) :
    parseString item (ch '"' :: (parts.flatMap Prod.fst ++ ch '"' :: rest)) =
      .ok { item with valuestring := some (parts.flatMap Prod.snd), kind := .string } rest := by
  obtain ⟨len, counted, enough, most⟩ := countLoop_parts all rest
  have int : len < 2147483647 ∧ (parts.flatMap Prod.snd).length ≤ len := ⟨by omega, enough⟩
  have grows := length_parts all
  have copied : copyLoop (parts.flatMap Prod.fst ++ ch '"' :: rest).length (parts.flatMap Prod.fst ++ ch '"' :: rest) = _ :=
    copyLoop_parts all rest (by simp only [List.length_append, List.length_cons]; omega)
  unfold parseString
  rw [if_neg (by simp [peek]), List.drop_succ_cons, List.drop_zero, counted, copied]
  simp only [int, and_self, if_true]
  rfl

theorem parseString_text {D : Type} (item : Fields D) {s : List Byte} (noNul : 0 ∉ s) (rest : List Byte)
    (short : (stringText s ++ rest).length < 2147483648) :
    parseString item (stringText s ++ rest) = .ok { item with valuestring := some s, kind := .string } rest := by
  have all : ∀ p ∈ s.map fun token => (escaped token, [token]), Copied p.1 p.2 := by
    intro p mem
    obtain ⟨token, inside, rfl⟩ := List.mem_map.mp mem
    apply copied_escaped
    rintro rfl
    exact noNul inside
  have length : (stringText s ++ rest).length = (s.flatMap escaped).length + 2 + rest.length := by
    simp [stringText]
    omega
  have int : (s.flatMap escaped).length < 2147483647 := by omega
  have read := parseString_parts item all (by rw [List.flatMap_map]; exact int) rest
  rw [List.flatMap_map, List.flatMap_map, List.flatMap_singleton'] at read
  rw [stringText, List.cons_append, List.append_assoc]
  exact read

end Strings

section Numbers
variable {D : Type} (o : Arith D)

/-- What is known of a double that holds an integer: below 2^53 its arithmetic is exact. The product
    of 0 and a negative number, which is no int but -0.0, is left open. -/
structure Arith.ExactInts : Prop where
  add : ∀ a b : Nat, a + b < 9007199254740992 → o.add (o.ofInt a) (o.ofInt b) = o.ofInt (a + b)
  mul : ∀ (a : Int) (b : Nat), (a < 0 → b ≠ 0) → a.natAbs < 9007199254740992 → b < 9007199254740992 →
    (a * b).natAbs < 9007199254740992 → o.mul (o.ofInt a) (o.ofInt b) = o.ofInt (a * b)
  sub : ∀ a : Int, a.natAbs < 9007199254740992 → o.sub (o.ofInt a) (o.ofInt a) = o.ofInt 0
  pow : ∀ x, o.pow x (o.ofInt 0) = o.ofInt 1
  toInt : ∀ n : BitVec 32, o.toInt (o.ofInt n.toInt) = n
  fabs : o.fabs (o.ofInt 0) = o.ofInt 0
  epsilon : o.le (o.ofInt 0) o.dblEpsilon = true
  le : ∀ a b : Int, a ≤ b → b.natAbs < 9007199254740992 → a.natAbs < 9007199254740992 →
    o.le (o.ofInt a) (o.ofInt b) = true

variable {o}

def Stops (rest : List Byte) : Prop :=
  peek rest = 0 ∨ peek rest = ch ',' ∨ peek rest = ch ']' ∨ peek rest = ch '}' ∨ peek rest = ch '\n'

theorem Stops.noDigit {rest : List Byte} (stops : Stops rest) : isDigit (peek rest) = false := by
  rcases stops with here | here | here | here | here <;> rw [here] <;> decide

theorem Stops.noNumber {rest : List Byte} (stops : Stops rest) :
    peek rest ≠ ch '.' ∧ peek rest ≠ ch 'e' ∧ peek rest ≠ ch 'E' := by
  rcases stops with here | here | here | here | here <;> rw [here] <;> decide

theorem takeWhile_digits {num rest : List Byte} (all : ∀ c ∈ num, isDigit c = true)
    (stops : isDigit (peek rest) = false) :
    (num ++ rest).takeWhile isDigit = num ∧ (num ++ rest).dropWhile isDigit = rest := by
  have none : rest.takeWhile isDigit = [] ∧ rest.dropWhile isDigit = rest := by
    cases rest with
    | nil => exact ⟨rfl, rfl⟩
    | cons c rest =>
      have here : isDigit c = false := stops
      simp [here]
  rw [List.takeWhile_append_of_pos all, List.dropWhile_append_of_pos all, none.1, none.2, List.append_nil]
  exact ⟨rfl, rfl⟩

theorem digit_byte {d : Nat} (small : d < 10) : (BitVec.ofNat 8 (48 + d) : Byte).toNat = 48 + d := by
  rw [BitVec.toNat_ofNat]
  omega

theorem isDigit_byte {d : Nat} (small : d < 10) : isDigit (BitVec.ofNat 8 (48 + d)) = true := by
  rw [isDigit, digit_byte small]
  simp
  omega

theorem isDigit_digits (n : Nat) : ∀ c ∈ digits n, isDigit c = true := by
  intro c mem
  unfold digits at mem
  split at mem
  · rw [List.mem_singleton] at mem
    rw [mem]
    decide
  · rw [List.mem_map] at mem
    obtain ⟨d, inside, rfl⟩ := mem
    exact isDigit_byte (Nat.digits_lt_base (by decide) (List.mem_reverse.mp inside))

theorem foldl_digits_le (ds : List Nat) (a : Nat) : a ≤ ds.foldl (fun n d => n * 10 + d) a := by
  induction ds generalizing a with
  | nil => exact Nat.le_refl a
  | cons d ds ih =>
    have later := ih (a * 10 + d)
    rw [List.foldl_cons]
    omega

theorem foldl_exact (ints : o.ExactInts) {ds : List Nat} (small : ∀ d ∈ ds, d < 10) (a : Nat)
    (fits : ds.foldl (fun n d => n * 10 + d) a < 9007199254740992) :
    (ds.map fun d => (BitVec.ofNat 8 (48 + d) : Byte)).foldl
        (fun n c => o.add (o.mul n (o.ofInt 10)) (o.ofInt (c.toNat - 48))) (o.ofInt a) =
      o.ofInt (ds.foldl (fun n d => n * 10 + d) a : Nat) := by
  induction ds generalizing a with
  | nil => rfl
  | cons d ds ih =>
    rw [List.foldl_cons] at fits
    have grows := foldl_digits_le ds (a * 10 + d)
    have product : o.mul (o.ofInt a) (o.ofInt 10) = o.ofInt (a * 10) :=
      ints.mul a 10 (by omega) (by omega) (by decide) (by omega)
    have sum := ints.add (a * 10) d (by omega)
    have digit : ((48 + d : Nat) : Int) - 48 = d := by omega
    rw [List.map_cons, List.foldl_cons, List.foldl_cons, digit_byte (small d List.mem_cons_self), digit, product,
      ← ih (fun x mem => small x (List.mem_cons_of_mem d mem)) _ fits]
    push_cast at sum ⊢
    rw [sum]

theorem foldl_reverse_digits (n : Nat) : (Nat.digits 10 n).reverse.foldl (fun n d => n * 10 + d) 0 = n := by
  have value := Nat.ofDigits_digits 10 n
  rw [Nat.ofDigits_eq_foldr] at value
  rw [List.foldl_reverse]
  simpa [Nat.add_comm, Nat.mul_comm] using value

theorem digits_first {n : Nat} (some : n ≠ 0) :
    ∃ d ds, digits n = BitVec.ofNat 8 (48 + d) :: ds ∧ d ≠ 0 ∧ d < 10 := by
  have more : Nat.digits 10 n ≠ [] := Nat.digits_ne_nil_iff_ne_zero.mpr some
  have last := Nat.getLast_digit_ne_zero 10 some
  have small := Nat.digits_lt_base (by decide) (List.getLast_mem more)
  have parts : (Nat.digits 10 n).reverse = (Nat.digits 10 n).getLast more :: (Nat.digits 10 n).dropLast.reverse := by
    rw [← List.reverse_concat, List.dropLast_concat_getLast]
  exact ⟨_, _, by rw [digits, if_neg some, parts, List.map_cons], last, small⟩

theorem readDigits_digits (ints : o.ExactInts) {n : Nat} (some : n ≠ 0) (small : n < 9007199254740992)
    {rest : List Byte} (stops : Stops rest) : readDigits o (o.ofInt 0) (digits n ++ rest) = o.ofInt n := by
  have value := foldl_reverse_digits n
  have inside : ∀ d ∈ (Nat.digits 10 n).reverse, d < 10 := by
    intro d mem
    exact Nat.digits_lt_base (by decide) (List.mem_reverse.mp mem)
  have sum := foldl_exact ints inside 0 (by rw [value]; exact small)
  rw [value] at sum
  rw [readDigits, (takeWhile_digits (isDigit_digits n) stops.noDigit).1, digits, if_neg some]
  exact sum

theorem readWhole_digits (ints : o.ExactInts) (n : Nat) (small : n < 9007199254740992) {rest : List Byte}
    (stops : Stops rest) : readWhole o (digits n ++ rest) = (o.ofInt n, rest) := by
  by_cases zero : n = 0
  · subst zero
    have passed : readWhole o (digits 0 ++ rest) =
        if isDigit (peek rest) && peek rest ≠ ch '0' then (readDigits o (o.ofInt 0) rest, rest.dropWhile isDigit)
        else (o.ofInt 0, rest) := rfl
    rw [passed, stops.noDigit]
    rfl
  · obtain ⟨d, ds, text, first, digit⟩ := digits_first zero
    have head : peek (digits n ++ rest) = BitVec.ofNat 8 (48 + d) := by
      rw [text]
      rfl
    have other : (BitVec.ofNat 8 (48 + d) : Byte) ≠ ch '0' := by
      intro same
      have value := congrArg BitVec.toNat same
      rw [digit_byte digit] at value
      have code : (ch '0').toNat = 48 := rfl
      omega
    have behind := (takeWhile_digits (isDigit_digits n) stops.noDigit).2
    unfold readWhole
    simp only [head, other, if_false, isDigit_byte digit, ne_eq, not_false_eq_true, decide_true, Bool.and_self, if_true,
      readDigits_digits ints zero small stops, behind]

theorem readSign_digits (n : Nat) (rest : List Byte) : readSign o (digits n ++ rest) = (o.ofInt 1, digits n ++ rest) := by
  have number : isDigit (peek (digits n ++ rest)) = true := by
    have all := isDigit_digits n
    cases text : digits n with
    | nil =>
      by_cases zero : n = 0
      · rw [digits, if_pos zero] at text
        cases text
      · obtain ⟨d, ds, other, _⟩ := digits_first zero
        rw [other] at text
        cases text
    | cons c cs => exact all c (by rw [text]; exact List.mem_cons_self)
  have unsigned : peek (digits n ++ rest) ≠ ch '-' := by
    intro minus
    rw [minus] at number
    exact absurd number (by decide)
  exact if_neg unsigned

/-- A printed int is read back. -/
theorem parseNumber_decimal (ints : o.ExactInts) (item : Fields D) (n : BitVec 32) {rest : List Byte}
    (stops : Stops rest) :
    parseNumber o item (decimal n.toInt ++ rest) =
      ({ item with valuedouble := o.ofInt n.toInt, valueint := n, kind := .number }, rest) := by
  have low := BitVec.le_toInt n
  have high := BitVec.toInt_lt (x := n)
  have whole := readWhole_digits ints n.toInt.natAbs (by omega) stops
  obtain ⟨point, small, capital⟩ := stops.noNumber
  have fraction (m : D) : readFraction o m rest = (m, o.ofInt 0, rest) := by
    simp [readFraction, point]
  have exponent : readExponent rest = (0, rest) := by
    simp [readExponent, small, capital]
  have nothing : o.add (o.ofInt 0) (o.ofInt 0) = o.ofInt 0 := ints.add 0 0 (by decide)
  have one (m : Int) (fits : m.natAbs < 9007199254740992) : o.mul (o.ofInt m) (o.ofInt 1) = o.ofInt m := by
    have product := ints.mul m 1 (by omega) fits (by omega) (by omega)
    rwa [Int.natCast_one, Int.mul_one] at product
  unfold decimal
  split
  · rename_i negative
    have sign : readSign o (ch '-' :: digits n.toInt.natAbs ++ rest) = (o.ofInt (-1), digits n.toInt.natAbs ++ rest) :=
      rfl
    have product := ints.mul (-1) n.toInt.natAbs (by omega) (by decide) (by omega) (by omega)
    have value : -1 * (n.toInt.natAbs : Int) = n.toInt := by omega
    rw [value] at product
    simp only [parseNumber, sign, whole, fraction, exponent, nothing, ints.pow, product, one n.toInt (by omega),
      ints.toInt]
  · rename_i positive
    have product := ints.mul 1 n.toInt.natAbs (by omega) (by decide) (by omega) (by omega)
    have value : 1 * (n.toInt.natAbs : Int) = n.toInt := by omega
    rw [value] at product
    simp only [parseNumber, readSign_digits, whole, fraction, exponent, nothing, ints.pow, product,
      one n.toInt (by omega), ints.toInt]

theorem numberText_int (ints : o.ExactInts) {f : Fields D} (whole : f.valuedouble = o.ofInt f.valueint.toInt) :
    numberText o f = decimal f.valueint.toInt := by
  have low := BitVec.le_toInt f.valueint
  have high := BitVec.toInt_lt (x := f.valueint)
  have printed : isInt o f = true := by
    rw [isInt, whole, ints.sub _ (by omega), ints.fabs, ints.epsilon, ints.le _ _ (by omega) (by decide) (by omega),
      ints.le _ _ (by omega) (by omega) (by decide)]
    rfl
  rw [numberText, if_pos printed]

end Numbers

section Trees
variable {D : Type} (o : Arith D)

def Fields.readInto (item f : Fields D) : Fields D :=
  match f.kind with
  | .null => { item with kind := .null }
  | .false => { item with kind := .false }
  | .true => { item with kind := .true, valueint := 1 }
  | .number => { item with kind := .number, valuedouble := f.valuedouble, valueint := f.valueint }
  | .string => { item with kind := .string, valuestring := f.valuestring }
  | .array => { item with kind := .array }
  | .object => { item with kind := .object }

def namedItem (name : Option (List Byte)) : Fields D := { newItem o with kind := .string, string := name }

/-- A chain as the parser builds it: the elements of an array have no names, and only arrays and
    objects have children. -/
def reread (named : Bool) : CJson D → CJson D
  | .nil => .nil
  | .node f child next =>
      .node ((if named then namedItem o f.string else newItem o).readInto f)
        (match f.kind with
          | .array => reread false child
          | .object => reread true child
          | _ => .nil)
        (reread named next)

/-- Strings are C strings, numbers are ints, and the members of an object have names. -/
def Plain (named : Bool) : CJson D → Prop
  | .nil => True
  | .node f child next =>
      (named = true → ∃ s, f.string = some s ∧ 0 ∉ s) ∧
      (f.kind = .string → ∃ s, f.valuestring = some s ∧ 0 ∉ s) ∧
      (f.kind = .number → f.valuedouble = o.ofInt f.valueint.toInt) ∧
      (f.kind = .array → Plain false child) ∧ (f.kind = .object → Plain true child) ∧ Plain named next

section Skip

theorem skip_blank {blank : List Byte} (all : ∀ c ∈ blank, c ≠ 0 ∧ c.toNat ≤ 32) (p : List Byte) :
    skip (blank ++ p) = skip p := by
  apply List.dropWhile_append_of_pos
  intro c mem
  obtain ⟨nul, low⟩ := all c mem
  rw [Bool.and_eq_true, decide_eq_true_eq, decide_eq_true_eq]
  exact ⟨nul, low⟩

theorem skip_visible {c : Byte} (visible : 32 < c.toNat) (p : List Byte) : skip (c :: p) = c :: p := by
  apply List.dropWhile_cons_of_neg
  simp
  omega

theorem skip_tabs (fmt : Bool) (n : Nat) (p : List Byte) : skip (tabs fmt n ++ p) = skip p := by
  apply skip_blank
  intro c mem
  cases fmt with
  | false => cases mem
  | true =>
    rw [List.eq_of_mem_replicate mem]
    decide

theorem skip_one {c : Byte} (blank : c ≠ 0 ∧ c.toNat ≤ 32) (p : List Byte) : skip ([c] ++ p) = skip p := by
  apply skip_blank
  intro x mem
  rw [List.mem_singleton.mp mem]
  exact blank

theorem skip_newline (fmt : Bool) (p : List Byte) : skip (newline fmt ++ p) = skip p := by
  cases fmt with
  | false => rfl
  | true => exact skip_one (by decide) p

theorem skip_space (fmt : Bool) (p : List Byte) : skip ((if fmt then [ch ' '] else []) ++ p) = skip p := by
  cases fmt with
  | false => rfl
  | true => exact skip_one (by decide) p

theorem skip_skip (p : List Byte) : skip (skip p) = skip p := List.dropWhile_idempotent _ p

theorem skip_length (p : List Byte) : (skip p).length ≤ p.length :=
  (List.dropWhile_suffix _).length_le

end Skip

variable {o}

theorem isPrefixOf_peek {a : Char} {as : List Char} {value : List Byte}
    (match_ : (text (a :: as)).isPrefixOf value = true) : peek value = ch a := by
  cases value with
  | nil => cases match_
  | cons c value =>
    rw [text, List.map_cons, List.isPrefixOf_cons_cons, Bool.and_eq_true, beq_iff_eq] at match_
    exact match_.1.symm

theorem parseValue_other (fuel : Nat) (item : Fields D) {value : List Byte} (n : peek value ≠ ch 'n')
    (f : peek value ≠ ch 'f') (t : peek value ≠ ch 't') :
    parseValue o (fuel + 1) item value =
      if peek value = ch '"' then (parseString item value).andThen fun item rest => .ok (item, .nil) rest
      else if peek value = ch '-' || isDigit (peek value) then
        .ok ((parseNumber o item value).1, .nil) (parseNumber o item value).2
      else if peek value = ch '[' then parseArray (parseElements o fuel) item value
      else if peek value = ch '{' then parseObject (parseMembers o fuel) item value
      else .fail value := by
  rw [parseValue, if_neg (mt isPrefixOf_peek n), if_neg (mt isPrefixOf_peek f), if_neg (mt isPrefixOf_peek t)]

def ReadsElements (o : Arith D) (fmt : Bool) (items : CJson D) : Prop :=
  ∀ (depth : Nat) (rest value : List Byte) (fuel : Nat), items ≠ .nil → Plain o false items →
    skip value = skip (arrayBody fmt ((chainTexts o fmt depth items).map fun entry => entry.2) ++ ch ']' :: rest) →
    2 * value.length + 2 ≤ fuel → value.length < 2147483648 →
    parseElements o fuel value = .ok (reread o false items) (ch ']' :: rest)

def ReadsMembers (o : Arith D) (fmt : Bool) (items : CJson D) : Prop :=
  ∀ (depth outer : Nat) (rest value : List Byte) (fuel : Nat), items ≠ .nil → Plain o true items →
    skip value = skip (objectBody fmt depth (chainTexts o fmt depth items) ++ (tabs fmt outer ++ ch '}' :: rest)) →
    2 * value.length + 2 ≤ fuel → value.length < 2147483648 →
    parseMembers o fuel value = .ok (reread o true items) (ch '}' :: rest)

def rereadChild (o : Arith D) (f : Fields D) (child : CJson D) : CJson D :=
  match f.kind with
  | .array => reread o false child
  | .object => reread o true child
  | _ => .nil

def PlainItem (o : Arith D) (f : Fields D) (child : CJson D) : Prop :=
  (f.kind = .string → ∃ s, f.valuestring = some s ∧ 0 ∉ s) ∧
    (f.kind = .number → f.valuedouble = o.ofInt f.valueint.toInt) ∧
    (f.kind = .array → Plain o false child) ∧ (f.kind = .object → Plain o true child)

theorem decimal_first (n : Int) : ∃ c cs, decimal n = c :: cs ∧ (c = ch '-' ∨ isDigit c = true) := by
  unfold decimal
  split
  · exact ⟨_, _, rfl, .inl rfl⟩
  · have all := isDigit_digits n.natAbs
    by_cases zero : n.natAbs = 0
    · rw [zero]
      exact ⟨ch '0', [], rfl, .inr (by decide)⟩
    · obtain ⟨d, ds, written, _⟩ := digits_first zero
      rw [written] at all ⊢
      exact ⟨_, _, rfl, .inr (all _ List.mem_cons_self)⟩

theorem number_first {c : Byte} (first : c = ch '-' ∨ isDigit c = true) :
    (32 < c.toNat ∧ c ≠ ch ']') ∧ c ≠ ch 'n' ∧ c ≠ ch 'f' ∧ c ≠ ch 't' ∧ c ≠ ch '"' := by
  rcases first with rfl | digit
  · decide
  · rw [isDigit, Bool.and_eq_true, decide_eq_true_eq, decide_eq_true_eq] at digit
    have other (x : Char) (high : 57 < (ch x).toNat ∨ (ch x).toNat < 48) : c ≠ ch x := by
      rintro rfl
      omega
    exact ⟨⟨by omega, other _ (by decide)⟩, other _ (by decide), other _ (by decide), other _ (by decide),
      other _ (by decide)⟩

def Begins (s : List Byte) : Prop := ∃ c cs, s = c :: cs ∧ 32 < c.toNat ∧ c ≠ ch ']'

theorem Begins.skip_append {s : List Byte} (begins : Begins s) (p : List Byte) : skip (s ++ p) = s ++ p := by
  obtain ⟨c, cs, rfl, high, _⟩ := begins
  exact skip_visible high (cs ++ p)

theorem itemText_begins (ints : o.ExactInts) {f : Fields D} {child : CJson D} (plain : PlainItem o f child)
    (fmt : Bool) (depth : Nat) (entries : List (List Byte × List Byte)) : Begins (itemText o fmt depth f entries) := by
  unfold itemText
  cases kind : f.kind with
  | null => exact ⟨_, _, rfl, by decide⟩
  | false => exact ⟨_, _, rfl, by decide⟩
  | true => exact ⟨_, _, rfl, by decide⟩
  | number =>
    obtain ⟨c, cs, written, first⟩ := decimal_first f.valueint.toInt
    rw [numberText_int ints (plain.2.1 kind)]
    exact ⟨c, cs, written, (number_first first).1⟩
  | string =>
    obtain ⟨s, here, _⟩ := plain.1 kind
    rw [here]
    exact ⟨_, _, rfl, by decide⟩
  | array => exact ⟨_, _, rfl, by decide⟩
  | object => exact ⟨_, _, rfl, by decide⟩

def afterElement (fmt : Bool) (entries : List (List Byte)) (p : List Byte) : List Byte :=
  if entries = [] then p else ch ',' :: ((if fmt then [ch ' '] else []) ++ (arrayBody fmt entries ++ p))

theorem arrayBody_cons (fmt : Bool) (entry : List Byte) (entries : List (List Byte)) (p : List Byte) :
    arrayBody fmt (entry :: entries) ++ p = entry ++ afterElement fmt entries p := by
  cases entries with
  | nil => rfl
  | cons next entries => simp [arrayBody, afterElement]

def afterMember (fmt : Bool) (depth : Nat) (entries : List (List Byte × List Byte)) (p : List Byte) : List Byte :=
  if entries = [] then newline fmt ++ p else ch ',' :: (newline fmt ++ (objectBody fmt depth entries ++ p))

theorem objectBody_cons (fmt : Bool) (depth : Nat) (entry : List Byte × List Byte)
    (entries : List (List Byte × List Byte)) (p : List Byte) :
    objectBody fmt depth (entry :: entries) ++ p =
      tabs fmt depth ++ (entry.1 ++ ch ':' :: (tabs fmt 1 ++ (entry.2 ++ afterMember fmt depth entries p))) := by
  cases entries with
  | nil => simp [objectBody, afterMember, memberText]
  | cons next entries => simp [objectBody, afterMember, memberText]

theorem Plain.item {named : Bool} {f : Fields D} {child next : CJson D} (plain : Plain o named (.node f child next)) :
    PlainItem o f child := ⟨plain.2.1, plain.2.2.1, plain.2.2.2.1, plain.2.2.2.2.1⟩

theorem parseArray_text (ints : o.ExactInts) (fmt : Bool) (depth : Nat) {child : CJson D}
    (elements : ReadsElements o fmt child) (plain : Plain o false child) (item : Fields D) (rest : List Byte)
    {fuel : Nat}
    (enough : 2 * (arrayText fmt ((chainTexts o fmt depth child).map fun entry => entry.2) ++ rest).length ≤ fuel)
    (short : (arrayText fmt ((chainTexts o fmt depth child).map fun entry => entry.2) ++ rest).length < 2147483648) :
    parseArray (parseElements o fuel) item
        (arrayText fmt ((chainTexts o fmt depth child).map fun entry => entry.2) ++ rest) =
      .ok ({ item with kind := .array }, reread o false child) rest := by
  have body : arrayText fmt ((chainTexts o fmt depth child).map fun entry => entry.2) ++ rest =
      ch '[' :: (arrayBody fmt ((chainTexts o fmt depth child).map fun entry => entry.2) ++ ch ']' :: rest) := by
    simp [arrayText]
  rw [body, List.length_cons] at enough short
  rw [body]
  unfold parseArray parseBracketed
  by_cases empty : child = .nil
  · subst empty
    have closed : skip (ch ']' :: rest) = ch ']' :: rest := skip_visible (by decide) rest
    simp [chainTexts, arrayBody, closed, peek, reread]
  · obtain ⟨f, inside, next, rfl⟩ : ∃ f inside next, child = .node f inside next := by
      cases child with
      | nil => contradiction
      | node f inside next => exact ⟨f, inside, next, rfl⟩
    have inner := elements depth rest _ fuel empty plain rfl (by omega) (by omega)
    obtain ⟨c, cs, written, visible, other⟩ :=
      itemText_begins ints plain.item fmt depth (chainTexts o fmt (depth + 1) inside)
    rw [chainTexts, List.map_cons, arrayBody_cons, written, List.cons_append] at inner ⊢
    simp only [List.drop_succ_cons, List.drop_zero, skip_visible visible, peek, List.headD_cons, other, if_false,
      inner, Parsed.andThen, if_true]

theorem parseObject_text (fmt : Bool) (depth : Nat) {child : CJson D} (members : ReadsMembers o fmt child)
    (plain : Plain o true child) (item : Fields D) (rest : List Byte) {fuel : Nat}
    (enough : 2 * (objectText fmt depth (chainTexts o fmt (depth + 1) child) ++ rest).length ≤ fuel)
    (short : (objectText fmt depth (chainTexts o fmt (depth + 1) child) ++ rest).length < 2147483648) :
    parseObject (parseMembers o fuel) item (objectText fmt depth (chainTexts o fmt (depth + 1) child) ++ rest) =
      .ok ({ item with kind := .object }, reread o true child) rest := by
  by_cases empty : child = .nil
  · subst empty
    have written : objectText fmt depth (chainTexts o fmt (depth + 1) (.nil : CJson D)) ++ rest =
        ch '{' :: (newline fmt ++ (tabs fmt (depth - 1) ++ ch '}' :: rest)) := by
      simp [objectText, chainTexts, objectBody]
    have closed : skip (ch '}' :: rest) = ch '}' :: rest := skip_visible (by decide) rest
    rw [written, parseObject, parseBracketed]
    simp [skip_newline, skip_tabs, closed, peek, reread]
  · obtain ⟨f, inside, next, rfl⟩ : ∃ f inside next, child = .node f inside next := by
      cases child with
      | nil => contradiction
      | node f inside next => exact ⟨f, inside, next, rfl⟩
    obtain ⟨name, here, _⟩ := plain.1 rfl
    have written : objectText fmt depth (chainTexts o fmt (depth + 1) (.node f inside next)) ++ rest =
        ch '{' :: (newline fmt ++ (objectBody fmt (depth + 1) (chainTexts o fmt (depth + 1) (.node f inside next)) ++
          (tabs fmt depth ++ ch '}' :: rest))) := by
      simp [objectText, chainTexts]
    rw [written, List.length_cons] at enough short
    rw [written]
    generalize shape : newline fmt ++ (objectBody fmt (depth + 1) (chainTexts o fmt (depth + 1) (.node f inside next)) ++
      (tabs fmt depth ++ ch '}' :: rest)) = body at enough short
    have less := skip_length body
    have start : peek (skip body) = ch '"' := by
      rw [← shape, skip_newline, chainTexts, objectBody_cons, skip_tabs, here, nameText, stringText, List.cons_append,
        skip_visible (by decide)]
      rfl
    have inner := members (depth + 1) depth rest (skip body) fuel empty plain
      (by rw [skip_skip, ← shape, skip_newline]) (by omega) (by omega)
    have other : ¬peek (skip body) = ch '}' := by
      rw [start]
      decide
    rw [parseObject, parseBracketed]
    simp only [List.drop_succ_cons, List.drop_zero, other, if_false, inner, Parsed.andThen]
    simp [peek]

/-- The text of an item, behind which another may stand. -/
theorem parseValue_text (ints : o.ExactInts) (fmt : Bool) (depth : Nat) {f : Fields D} {child : CJson D}
    (plain : PlainItem o f child) (elements : ReadsElements o fmt child) (members : ReadsMembers o fmt child)
    (item : Fields D) {rest : List Byte} (stops : Stops rest) {fuel : Nat}
    (enough : 2 * (itemText o fmt depth f (chainTexts o fmt (depth + 1) child) ++ rest).length + 1 ≤ fuel)
    (short : (itemText o fmt depth f (chainTexts o fmt (depth + 1) child) ++ rest).length < 2147483648) :
    parseValue o fuel item (itemText o fmt depth f (chainTexts o fmt (depth + 1) child) ++ rest) =
      .ok (item.readInto f, rereadChild o f child) rest := by
  obtain ⟨fuel, rfl⟩ : ∃ n, fuel = n + 1 := ⟨fuel - 1, by omega⟩
  unfold itemText Fields.readInto rereadChild
  unfold itemText at enough short
  cases kind : f.kind with
  | null => rfl
  | false => rfl
  | true => rfl
  | number =>
    obtain ⟨c, cs, written, first⟩ := decimal_first f.valueint.toInt
    obtain ⟨_, n, f', t, quote⟩ := number_first first
    have whole := plain.2.1 kind
    have head : peek (decimal f.valueint.toInt ++ rest) = c := by
      rw [written]
      rfl
    have number : (decide (c = ch '-') || isDigit c) = true := by simpa using first
    have read := parseNumber_decimal ints item f.valueint stops
    simp only [numberText_int ints whole]
    rw [parseValue_other fuel item (by rwa [head]) (by rwa [head]) (by rwa [head]), head, if_neg quote, number,
      if_pos rfl, read, whole]
  | string =>
    obtain ⟨s, here, noNul⟩ := plain.1 kind
    simp only [kind, here, nameText] at short
    have read := parseString_text item noNul rest short
    have head : peek (stringText s ++ rest) = ch '"' := rfl
    simp only [here, nameText]
    rw [parseValue_other fuel item (by rw [head]; decide) (by rw [head]; decide) (by rw [head]; decide), head,
      if_pos rfl, read]
    rfl
  | array =>
    simp only [kind] at enough short ⊢
    have head : peek (arrayText fmt ((chainTexts o fmt (depth + 1) child).map fun entry => entry.2) ++ rest) = ch '[' := rfl
    rw [parseValue_other fuel item (by rw [head]; decide) (by rw [head]; decide) (by rw [head]; decide), head,
      if_neg (by decide), if_neg (by decide), if_pos rfl]
    exact parseArray_text ints fmt (depth + 1) elements (plain.2.2.1 kind) item rest (by omega) short
  | object =>
    simp only [kind] at enough short ⊢
    have head : peek (objectText fmt depth (chainTexts o fmt (depth + 1) child) ++ rest) = ch '{' := rfl
    rw [parseValue_other fuel item (by rw [head]; decide) (by rw [head]; decide) (by rw [head]; decide), head,
      if_neg (by decide), if_neg (by decide), if_neg (by decide), if_pos rfl]
    exact parseObject_text fmt depth members (plain.2.2.2 kind) item rest (by omega) short

theorem reread_node (named : Bool) (f : Fields D) (child next : CJson D) :
    reread o named (.node f child next) =
      .node ((if named then namedItem o f.string else newItem o).readInto f) (rereadChild o f child)
        (reread o named next) := by
  rw [reread.eq_def]
  rfl

theorem readsElements_node (ints : o.ExactInts) (fmt : Bool) {f : Fields D} {child next : CJson D}
    (elements : ReadsElements o fmt child) (members : ReadsMembers o fmt child) (others : ReadsElements o fmt next) :
    ReadsElements o fmt (.node f child next) := by
  intro depth rest value fuel _ plain here enough int
  obtain ⟨fuel, rfl⟩ : ∃ n, fuel = n + 1 := ⟨fuel - 1, by omega⟩
  have begins := itemText_begins ints plain.item fmt depth (chainTexts o fmt (depth + 1) child)
  have short := skip_length value
  rw [chainTexts, List.map_cons, arrayBody_cons, begins.skip_append] at here
  rw [here] at short
  rw [parseElements, here, reread_node]
  obtain ⟨c, cs, written, _⟩ := begins
  cases next with
  | nil =>
    have last : afterElement fmt ((chainTexts o fmt depth (.nil : CJson D)).map fun entry => entry.2) (ch ']' :: rest) =
        ch ']' :: rest := rfl
    have closed : skip (ch ']' :: rest) = ch ']' :: rest := skip_visible (by decide) rest
    have stops : Stops (ch ']' :: rest) := .inr (.inr (.inl rfl))
    rw [last] at short ⊢
    rw [parseValue_text ints fmt depth plain.item elements members (newItem o) stops (by omega) (by omega)]
    have other : peek (ch ']' :: rest) ≠ ch ',' := (by decide : ch ']' ≠ ch ',')
    simp only [Parsed.andThen, closed, other, if_false]
    rfl
  | node g inside later =>
    have more : afterElement fmt ((chainTexts o fmt depth (.node g inside later)).map fun entry => entry.2)
        (ch ']' :: rest) = ch ',' :: ((if fmt then [ch ' '] else []) ++
          (arrayBody fmt ((chainTexts o fmt depth (.node g inside later)).map fun entry => entry.2) ++ ch ']' :: rest)) := rfl
    rw [more] at short ⊢
    generalize tail : (if fmt then [ch ' '] else []) ++
      (arrayBody fmt ((chainTexts o fmt depth (.node g inside later)).map fun entry => entry.2) ++ ch ']' :: rest) =
        after at short ⊢
    have comma : skip (ch ',' :: after) = ch ',' :: after := skip_visible (by decide) after
    have stops : Stops (ch ',' :: after) := .inr (.inl rfl)
    have size : 2 * after.length + 2 ≤ fuel ∧ after.length < 2147483648 := by
      rw [written] at short
      simp only [List.length_append, List.length_cons] at short
      omega
    have rest_read := others depth rest after fuel (by simp) plain.2.2.2.2.2 (by rw [← tail, skip_space]) size.1 size.2
    rw [parseValue_text ints fmt depth plain.item elements members (newItem o) stops (by omega) (by omega)]
    simp only [Parsed.andThen, comma, peek, List.headD_cons, if_true, List.drop_succ_cons, List.drop_zero, rest_read]
    rfl

theorem readsMembers_node (ints : o.ExactInts) (fmt : Bool) {f : Fields D} {child next : CJson D}
    (elements : ReadsElements o fmt child) (members : ReadsMembers o fmt child) (others : ReadsMembers o fmt next) :
    ReadsMembers o fmt (.node f child next) := by
  intro depth outer rest value fuel _ plain here enough int
  obtain ⟨fuel, rfl⟩ : ∃ n, fuel = n + 1 := ⟨fuel - 1, by omega⟩
  obtain ⟨name, named, noNul⟩ := plain.1 rfl
  have begins := itemText_begins ints plain.item fmt depth (chainTexts o fmt (depth + 1) child)
  have short := skip_length value
  have start (p : List Byte) : skip (stringText name ++ p) = stringText name ++ p := by
    rw [stringText, List.cons_append, skip_visible (by decide)]
  have colon (p : List Byte) : skip (ch ':' :: p) = ch ':' :: p := skip_visible (by decide) p
  rw [chainTexts, objectBody_cons, skip_tabs, named, nameText, start] at here
  rw [here] at short
  rw [parseMembers, here, reread_node, parseString_text (newItem o) noNul _ (Nat.lt_of_le_of_lt short int)]
  simp only [Parsed.andThen, colon, peek, List.headD_cons, ne_eq, not_true_eq_false, if_false, List.drop_succ_cons,
    List.drop_zero, skip_tabs, begins.skip_append]
  simp only [List.length_append, List.length_cons] at short
  cases next with
  | nil =>
    have last : afterMember fmt depth (chainTexts o fmt depth (.nil : CJson D)) (tabs fmt outer ++ ch '}' :: rest) =
        newline fmt ++ (tabs fmt outer ++ ch '}' :: rest) := rfl
    rw [last] at short ⊢
    have closed : skip (newline fmt ++ (tabs fmt outer ++ ch '}' :: rest)) = ch '}' :: rest := by
      rw [skip_newline, skip_tabs]
      exact skip_visible (by decide) rest
    have stops : Stops (newline fmt ++ (tabs fmt outer ++ ch '}' :: rest)) := by
      cases fmt with
      | false => exact .inr (.inr (.inr (.inl rfl)))
      | true => exact .inr (.inr (.inr (.inr rfl)))
    simp only [List.length_append] at short
    rw [parseValue_text ints fmt depth plain.item elements members _ stops
      (by simp only [List.length_append]; omega) (by simp only [List.length_append]; omega)]
    have other : ch '}' ≠ ch ',' := by decide
    simp only [closed, List.headD_cons, other, if_false, named]
    rfl
  | node g inside later =>
    have more : afterMember fmt depth (chainTexts o fmt depth (.node g inside later)) (tabs fmt outer ++ ch '}' :: rest) =
        ch ',' :: (newline fmt ++ (objectBody fmt depth (chainTexts o fmt depth (.node g inside later)) ++
          (tabs fmt outer ++ ch '}' :: rest))) := rfl
    rw [more] at short ⊢
    generalize tail : newline fmt ++ (objectBody fmt depth (chainTexts o fmt depth (.node g inside later)) ++
      (tabs fmt outer ++ ch '}' :: rest)) = after at short ⊢
    have comma : skip (ch ',' :: after) = ch ',' :: after := skip_visible (by decide) after
    have stops : Stops (ch ',' :: after) := .inr (.inl rfl)
    rw [List.length_cons] at short
    have rest_read := others depth outer rest after fuel (by simp) plain.2.2.2.2.2
      (by rw [← tail, skip_newline]) (by omega) (by omega)
    rw [parseValue_text ints fmt depth plain.item elements members _ stops
      (by simp only [List.length_append, List.length_cons]; omega)
      (by simp only [List.length_append, List.length_cons]; omega)]
    simp only [comma, List.headD_cons, if_true, List.drop_succ_cons, List.drop_zero, rest_read, named]
    rfl

theorem reads_chain (ints : o.ExactInts) (fmt : Bool) (items : CJson D) :
    ReadsElements o fmt items ∧ ReadsMembers o fmt items := by
  induction items with
  | nil =>
    constructor
    · intro _ _ _ _ some
      contradiction
    · intro _ _ _ _ _ some
      contradiction
  | node f child next ihChild ihNext =>
    exact ⟨readsElements_node ints fmt ihChild.1 ihChild.2 ihNext.1,
      readsMembers_node ints fmt ihChild.1 ihChild.2 ihNext.2⟩

end Trees

theorem valueText_read {D : Type} {o : Arith D} (ints : o.ExactInts) (fmt : Bool) (depth : Nat) (f : Fields D)
    (child next : CJson D) (plain : Plain o false (.node f child next))
    (short : (valueText o fmt depth (.node f child next)).length < 2147483648) :
    cJsonParseWithOpts o (valueText o fmt depth (.node f child next)) true =
      .ok (reread o false (.node f child .nil)) [] := by
  obtain ⟨elements, members⟩ := reads_chain ints fmt child
  have begins := itemText_begins ints plain.item fmt depth (chainTexts o fmt (depth + 1) child)
  have whole := begins.skip_append []
  rw [List.append_nil] at whole
  have stops : Stops [] := .inl rfl
  rw [valueText] at short
  have read := parseValue_text ints fmt depth plain.item elements members (newItem o) stops (Nat.le_refl _)
    (by rwa [List.append_nil])
  rw [List.append_nil] at read
  rw [valueText, cJsonParseWithOpts, whole, read, reread_node]
  rfl

/-- A tree of strings, ints, arrays and objects is printed, formatted or not, if its text is short,
    and whatever is printed of it is parsed to the tree the parser would have built. -/
theorem print_parse {D : Type} {o : Arith D} (sized : o.Sized) (ints : o.ExactInts) (fmt : Bool) (depth : Nat)
    (f : Fields D) (child next : CJson D) (plain : Plain o false (.node f child next)) :
    (∀ out, printValue o fmt depth (.node f child next) = some out →
      cJsonParseWithOpts o out true = .ok (reread o false (.node f child .nil)) []) ∧
    (Short (valueText o fmt depth (.node f child next)) →
      ∃ out, printValue o fmt depth (.node f child next) = some out) := by
  have prints := printValue_prints o sized fmt depth f child next
  refine ⟨?_, fun short => ⟨_, prints.short short⟩⟩
  intro out printed
  have int := printValue_length printed
  rw [prints.only out printed] at int ⊢
  exact valueText_read ints fmt depth f child next plain int

theorem wholeNumbers_exact : wholeNumbers.ExactInts where
  add _ _ _ := rfl
  mul _ _ _ _ _ _ := rfl
  sub a _ := Int.sub_self a
  pow a := Int.pow_zero a
  toInt _ := BitVec.ofInt_toInt
  fabs := rfl
  epsilon := rfl
  le _ _ less _ _ := decide_eq_true less

def reportItem : CJson Int :=
  .node ⟨.object, false, none, 0, 0, none⟩
    (.node ⟨.array, false, none, 0, 0, some (text ['a', '"', '\n'])⟩
      (.node ⟨.number, false, none, BitVec.ofInt 32 (-12), -12, none⟩ .nil
        (.node ⟨.string, false, some [1, 0xc3, 0xa9], 0, 0, none⟩ .nil .nil)) .nil) .nil

theorem report_item_reread :
    (∀ out, printValue wholeNumbers true 0 reportItem = some out →
      cJsonParseWithOpts wholeNumbers out true = .ok reportItem []) ∧
    (Short (valueText wholeNumbers true 0 reportItem) → ∃ out, printValue wholeNumbers true 0 reportItem = some out) := by
  have name : (0 : Byte) ∉ text ['a', '"', '\n'] := by decide
  have string : (0 : Byte) ∉ [1, 0xc3, 0xa9] := by decide
  have number : (-12 : Int) = (BitVec.ofInt 32 (-12)).toInt := by decide
  have elements : Plain wholeNumbers false
      (.node ⟨.number, false, none, BitVec.ofInt 32 (-12), -12, none⟩ .nil
        (.node ⟨.string, false, some [1, 0xc3, 0xa9], 0, 0, none⟩ .nil .nil)) :=
    ⟨nofun, nofun, fun _ => number, nofun, nofun, nofun, fun _ => ⟨_, rfl, string⟩, nofun, nofun, nofun, trivial⟩
  have members : Plain wholeNumbers true
      (.node ⟨.array, false, none, 0, 0, some (text ['a', '"', '\n'])⟩
        (.node ⟨.number, false, none, BitVec.ofInt 32 (-12), -12, none⟩ .nil
          (.node ⟨.string, false, some [1, 0xc3, 0xa9], 0, 0, none⟩ .nil .nil)) .nil) :=
    ⟨fun _ => ⟨_, rfl, name⟩, nofun, nofun, fun _ => elements, nofun, trivial⟩
  have plain : Plain wholeNumbers false reportItem := ⟨nofun, nofun, nofun, nofun, fun _ => members, trivial⟩
  exact print_parse wholeNumbers_sized wholeNumbers_exact true 0 _ _ .nil plain

end TestSource.Json
