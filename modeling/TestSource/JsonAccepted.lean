import TestSource.JsonText

/- What cJSON makes of a text it has not printed: the codes of a string, and a tree that was read. -/
namespace TestSource.Json

section Utf8

def utf8Bytes (c : Char) : List Byte := (String.utf8EncodeChar c).map UInt8.toBitVec

theorem continuation_byte (uc : Nat) :
    (BitVec.ofNat 8 ((uc ||| 0x80) &&& 0xBF) : Byte) = BitVec.ofNat 8 (uc % 64 + 128) := by
  have small : ∀ n < 256, ((n ||| 0x80) &&& 0xBF) = n % 64 + 128 := by decide +kernel
  have here := small (uc % 256) (by omega)
  have cut : ((uc ||| 0x80) &&& 0xBF) % 2 ^ 8 = ((uc % 2 ^ 8 ||| 0x80) &&& 0xBF) % 2 ^ 8 := by
    simp only [Nat.and_mod_two_pow, Nat.or_mod_two_pow, Nat.mod_mod]
  apply BitVec.eq_of_toNat_eq
  rw [BitVec.toNat_ofNat, BitVec.toNat_ofNat, cut]
  have power : 2 ^ 8 = 256 := by decide
  rw [power, here]
  omega

theorem char_range (c : Char) : c.toNat < 0xD800 ∨ (0xDFFF < c.toNat ∧ c.toNat < 0x110000) := c.valid

theorem utf8_char (c : Char) : utf8 c.toNat = utf8Bytes c := by
  have range := char_range c
  have two : ∀ k < 32, k ||| 0xC0 = k + 0xC0 := by decide
  have three : ∀ k < 16, k ||| 0xE0 = k + 0xE0 := by decide
  have four : ∀ k < 8, k ||| 0xF0 = k + 0xF0 := by decide
  have shift (n : Nat) : n >>> 6 = n / 64 := Nat.shiftRight_eq_div_pow n 6
  have code : c.val.toNat = c.toNat := rfl
  unfold utf8 utf8Bytes String.utf8EncodeChar utf8Len
  simp only [code]
  generalize c.toNat = v at range
  by_cases one : v < 0x80
  · rw [if_pos one, if_pos (by omega : v ≤ 127)]
    simp only [fill, firstByteMark, Nat.or_zero]
    rfl
  rw [if_neg one, if_neg (by omega : ¬v ≤ 127)]
  by_cases short : v < 0x800
  · rw [if_pos short, if_pos (by omega : v ≤ 2047)]
    have first := two (v / 64) (by omega)
    simp only [fill, firstByteMark, shift, first, continuation_byte]
    have cut : v / 64 % 32 = v / 64 := by omega
    rw [cut]
    rfl
  rw [if_neg short, if_neg (by omega : ¬v ≤ 2047)]
  by_cases plane : v < 0x10000
  · rw [if_pos plane, if_pos (by omega : v ≤ 65535)]
    have first := three (v / 64 / 64) (by omega)
    simp only [fill, firstByteMark, shift, first, continuation_byte]
    have cut : v / 4096 % 16 = v / 64 / 64 := by omega
    rw [cut]
    rfl
  · rw [if_neg plane, if_neg (by omega : ¬v ≤ 65535)]
    have first := four (v / 64 / 64 / 64) (by omega)
    simp only [fill, firstByteMark, shift, first, continuation_byte]
    have cut : v / 262144 % 8 = v / 64 / 64 / 64 := by omega
    have cut' : v / 4096 = v / 64 / 64 := by omega
    rw [cut, cut']
    rfl

theorem utf8_length (uc : Nat) : (utf8 uc).length ≤ 4 := by
  unfold utf8 utf8Len
  repeat' split
  all_goals simp [fill]

end Utf8

section Codes

/-- A hexadecimal digit in either case. -/
def hexCased (upper : Bool) (n : Nat) : Byte := if upper && 10 ≤ n then BitVec.ofNat 8 (55 + n) else hexChar n

def codeDigits (upper : Nat → Bool) (n : Nat) : List Byte :=
  [hexCased (upper 0) (n / 4096 % 16), hexCased (upper 1) (n / 256 % 16), hexCased (upper 2) (n / 16 % 16),
    hexCased (upper 3) (n % 16)]

/-- A character as JSON writes it in ASCII: its code, or those of a surrogate pair. -/
def codeText (upper : Nat → Bool) (c : Char) : List Byte :=
  if c.toNat < 0x10000 then ch '\\' :: ch 'u' :: codeDigits upper c.toNat
  else ch '\\' :: ch 'u' :: (codeDigits upper (0xD800 + (c.toNat - 0x10000) / 1024) ++
    ch '\\' :: ch 'u' :: codeDigits (fun i => upper (i + 4)) (0xDC00 + (c.toNat - 0x10000) % 1024))

theorem hexDigit_hexCased : ∀ upper, ∀ k < 16, hexDigit (hexCased upper k) = some k := by decide

theorem spells_codeDigits (upper : Nat → Bool) {n : Nat} (small : n < 65536) : Spells (codeDigits upper n) n := by
  have code := spells_digits (hexDigit_hexCased (upper 0) (n / 4096 % 16) (by omega))
    (hexDigit_hexCased (upper 1) (n / 256 % 16) (by omega)) (hexDigit_hexCased (upper 2) (n / 16 % 16) (by omega))
    (hexDigit_hexCased (upper 3) (n % 16) (by omega))
  rwa [number_digits small] at code

theorem surrogate_pair {high low : Nat} (h : high < 1024) (l : low < 1024) :
    0x10000 + ((((0xD800 + high) &&& 0x3FF) <<< 10) ||| ((0xDC00 + low) &&& 0x3FF)) = 0x10000 + high * 1024 + low := by
  have upper : (0xD800 + high) &&& 0x3FF = high := by
    rw [Nat.and_two_pow_sub_one_eq_mod _ 10]
    omega
  have lower : (0xDC00 + low) &&& 0x3FF = low := by
    rw [Nat.and_two_pow_sub_one_eq_mod _ 10]
    omega
  have joined := Nat.shiftLeft_add_eq_or_of_lt (by omega : low < 2 ^ 10) high
  rw [upper, lower, ← joined, Nat.shiftLeft_eq]
  omega

theorem unicode_pair {first second : List Byte} {high low : Nat} (spells : Spells first (0xD800 + high))
    (spells' : Spells second (0xDC00 + low)) (h : high < 1024) (l : low < 1024) (rest : List Byte) :
    unicode (first ++ ch '\\' :: ch 'u' :: (second ++ rest)) = some (utf8 (0x10000 + high * 1024 + low), rest) := by
  generalize behind : ch '\\' :: ch 'u' :: (second ++ rest) = tail
  have behind4 (k : Nat) : (first ++ tail).drop (4 + k) = tail.drop k := by
    rw [← spells.length, List.drop_length_add_append]
  have four := behind4 0
  have five := behind4 1
  have six := behind4 2
  have ahead : advance 10 (first ++ tail) = some rest := by
    have whole := advance_append (first ++ (ch '\\' :: ch 'u' :: second)) rest
    rw [← behind]
    simpa [spells.length, spells'.length] using whole
  simp only [unicode, spells.read]
  rw [if_neg (by omega), if_pos (by omega), four, five, six, ← behind]
  simp only [peek, List.headD_cons, List.drop_succ_cons, List.drop_zero, ne_eq, not_true_eq_false, or_self, if_false,
    spells'.read]
  rw [if_neg (by omega), behind, ahead, surrogate_pair h l]
  rfl

theorem copied_codeText (upper : Nat → Bool) {c : Char} (noNul : c.toNat ≠ 0) :
    Copied (codeText upper c) (utf8Bytes c) := by
  have range := char_range c
  have size := utf8_length c.toNat
  rw [← utf8_char]
  unfold codeText
  split
  · rename_i plane
    exact copied_code (spells_codeDigits upper plane) (by omega) (by omega) (by omega)
  · have value : 0x10000 + (c.toNat - 0x10000) / 1024 * 1024 + (c.toNat - 0x10000) % 1024 = c.toNat := by omega
    have first := spells_codeDigits upper (by omega : 0xD800 + (c.toNat - 0x10000) / 1024 < 65536)
    have second := spells_codeDigits (fun i => upper (i + 4)) (by omega : 0xDC00 + (c.toNat - 0x10000) % 1024 < 65536)
    refine ⟨by simp, ?_, 10, by omega, by simp [first.length, second.length], ?_⟩
    · intro fuel rest
      have pair := unicode_pair first second (by omega) (by omega) rest
      rw [value, ← unescape_u] at pair
      simp only [List.cons_append, List.append_assoc]
      exact copyLoop_escape pair fuel
    · intro rest
      simp only [List.cons_append, List.append_assoc, countLoop_code first, countLoop_code second, Option.map_map]
      rfl

end Codes

/-- A string of characters that are all written by their codes, with digits of either case, is read
    as its UTF-8, inside its buffer. -/
theorem codes_read_as_utf8 {D : Type} (item : Fields D) {s : List (Char × (Nat → Bool))}
    (noNul : ∀ p ∈ s, p.1.toNat ≠ 0) (short : (s.flatMap fun p => codeText p.2 p.1).length + 2 < 2147483648)
    (rest : List Byte) :
    parseString item (ch '"' :: ((s.flatMap fun p => codeText p.2 p.1) ++ ch '"' :: rest)) =
      .ok { item with valuestring := some (s.flatMap fun p => utf8Bytes p.1), kind := .string } rest := by
  have all : ∀ p ∈ s.map fun p => (codeText p.2 p.1, utf8Bytes p.1), Copied p.1 p.2 := by
    intro p mem
    obtain ⟨c, inside, rfl⟩ := List.mem_map.mp mem
    exact copied_codeText c.2 (noNul c inside)
  have int : (s.flatMap fun p => codeText p.2 p.1).length < 2147483647 := by omega
  have read := parseString_parts item all (by rw [List.flatMap_map]; exact int) rest
  rw [List.flatMap_map, List.flatMap_map] at read
  exact read

def accentAndEmoji : List (Char × (Nat → Bool)) :=
  [(Char.ofNat 0xe9, fun _ => true), (Char.ofNat 0x1f600, fun i => 4 ≤ i)]

theorem accent_and_emoji_read :
    parseString (newItem wholeNumbers) (text ['"', '\\', 'u', '0', '0', 'E', '9', '\\', 'u', 'd', '8', '3', 'd',
      '\\', 'u', 'D', 'E', '0', '0', '"']) =
      .ok { newItem wholeNumbers with valuestring := some [0xc3, 0xa9, 0xf0, 0x9f, 0x98, 0x80], kind := .string } [] := by
  have written : text ['"', '\\', 'u', '0', '0', 'E', '9', '\\', 'u', 'd', '8', '3', 'd', '\\', 'u', 'D', 'E', '0', '0',
      '"'] = ch '"' :: ((accentAndEmoji.flatMap fun p => codeText p.2 p.1) ++ [ch '"']) := by decide
  rw [written, codes_read_as_utf8 _ (by decide) (by decide) []]
  decide

structure Behind (rest value : List Byte) : Prop where
  suffix : rest <:+ value
  shorter : rest.length < value.length

section Behind
variable {a b c : List Byte}

theorem Behind.trans_suffix (first : Behind a b) (second : b <:+ c) : Behind a c :=
  ⟨first.suffix.trans second, Nat.lt_of_lt_of_le first.shorter second.length_le⟩

theorem Behind.of_suffix (first : a <:+ b) (second : Behind b c) : Behind a c :=
  ⟨first.trans second.suffix, Nat.lt_of_le_of_lt first.length_le second.shorter⟩

theorem skip_suffix (p : List Byte) : skip p <:+ p := List.dropWhile_suffix _

theorem behind_drop {n : Nat} (some : peek a ≠ 0) (more : 0 < n) : Behind (a.drop n) a := by
  cases a with
  | nil => exact absurd rfl some
  | cons x a =>
    refine ⟨List.drop_suffix n _, ?_⟩
    rw [List.length_drop, List.length_cons]
    omega

theorem noNul_suffix (suffix : a <:+ b) (noNul : 0 ∉ b) : 0 ∉ a := fun mem => noNul (suffix.mem mem)

theorem advance_suffix {n : Nat} (ahead : advance n b = some a) : a <:+ b := by
  unfold advance at ahead
  split at ahead
  · cases ahead
    exact List.drop_suffix n b
  · cases ahead

end Behind

section Scanners

theorem ofNat_ne_zero {n : Nat} (bit : n.testBit 7 = true) : (BitVec.ofNat 8 n : Byte) ≠ 0 := by
  intro zero
  have value : n % 2 ^ 8 = 0 := congrArg BitVec.toNat zero
  have high : (n % 2 ^ 8).testBit 7 = true := by
    rw [Nat.testBit_mod_two_pow, bit]
    decide
  rw [value] at high
  exact absurd high (by decide)

theorem marked_ne_zero (x : Nat) {mark : Nat} (bit : mark.testBit 7 = true) :
    (BitVec.ofNat 8 (x ||| mark) : Byte) ≠ 0 :=
  ofNat_ne_zero (by rw [Nat.testBit_or, bit, Bool.or_true])

theorem continuation_ne_zero (x : Nat) : (BitVec.ofNat 8 ((x ||| 0x80) &&& 0xBF) : Byte) ≠ 0 := by
  apply ofNat_ne_zero
  have mark : Nat.testBit 0x80 7 = true := by decide
  have mask : Nat.testBit 0xBF 7 = true := by decide
  rw [Nat.testBit_and, Nat.testBit_or, mark, mask, Bool.or_true, Bool.and_self]

theorem utf8_noNul {uc : Nat} (some : uc ≠ 0) : 0 ∉ utf8 uc := by
  have two (x : Nat) : (BitVec.ofNat 8 (x ||| 0xC0) : Byte) ≠ 0 := marked_ne_zero x (by decide)
  have three (x : Nat) : (BitVec.ofNat 8 (x ||| 0xE0) : Byte) ≠ 0 := marked_ne_zero x (by decide)
  have four (x : Nat) : (BitVec.ofNat 8 (x ||| 0xF0) : Byte) ≠ 0 := marked_ne_zero x (by decide)
  unfold utf8 utf8Len
  split
  · have one : (BitVec.ofNat 8 uc : Byte) ≠ 0 := by
      intro zero
      have value := congrArg BitVec.toNat zero
      rw [BitVec.toNat_ofNat] at value
      have nul : (0 : Byte).toNat = 0 := rfl
      omega
    simp only [fill, firstByteMark, Nat.or_zero, List.mem_singleton]
    exact one.symm
  repeat' split
  · simp only [fill, firstByteMark, List.mem_cons, List.not_mem_nil, or_false, not_or]
    exact ⟨(two _).symm, (continuation_ne_zero _).symm⟩
  · simp only [fill, firstByteMark, List.mem_cons, List.not_mem_nil, or_false, not_or]
    exact ⟨(three _).symm, (continuation_ne_zero _).symm, (continuation_ne_zero _).symm⟩
  · simp only [fill, firstByteMark, List.mem_cons, List.not_mem_nil, or_false, not_or]
    exact ⟨(four _).symm, (continuation_ne_zero _).symm, (continuation_ne_zero _).symm, (continuation_ne_zero _).symm⟩

structure Read (rest bytes next : List Byte) : Prop where
  suffix : next <:+ rest
  noNul : 0 ∉ rest → 0 ∉ bytes

theorem advance_read {n : Nat} {rest bytes next written : List Byte}
    (ahead : (advance n rest).map (written, ·) = some (bytes, next)) (noNul : 0 ∉ written) : Read rest bytes next := by
  obtain ⟨q, moved, same⟩ := Option.map_eq_some_iff.mp ahead
  cases same
  exact ⟨advance_suffix moved, fun _ => noNul⟩

theorem unicode_read {rest bytes next : List Byte} (read : unicode rest = some (bytes, next)) : Read rest bytes next := by
  have nothing : (0 : Byte) ∉ ([] : List Byte) := List.not_mem_nil
  unfold unicode at read
  dsimp only at read
  split at read
  · exact advance_read read nothing
  · split at read
    · split at read
      · exact advance_read read nothing
      · split at read
        · exact advance_read read nothing
        · exact advance_read read (utf8_noNul (by omega))
    · exact advance_read read (utf8_noNul (by omega))

theorem unescape_read {rest bytes next : List Byte} (read : unescape rest = some (bytes, next)) : Read rest bytes next := by
  cases rest with
  | nil => cases read
  | cons e rest =>
    have plain (c : Byte) (noNul : c ≠ 0 ∨ c = e) (here : some ([c], rest) = some (bytes, next)) :
        Read (e :: rest) bytes next := by
      cases here
      refine ⟨List.suffix_cons e _, ?_⟩
      intro clean mem
      rw [List.mem_singleton] at mem
      rcases noNul with visible | same
      · exact visible mem.symm
      · rw [same] at mem
        exact clean (mem ▸ List.mem_cons_self)
    rw [unescape] at read
    repeat' split at read
    · exact plain 8 (.inl (by decide)) read
    · exact plain 12 (.inl (by decide)) read
    · exact plain 10 (.inl (by decide)) read
    · exact plain 13 (.inl (by decide)) read
    · exact plain 9 (.inl (by decide)) read
    · have inner := unicode_read read
      exact ⟨inner.suffix.trans (List.suffix_cons e rest),
        fun clean => inner.noNul fun mem => clean (List.mem_cons_of_mem e mem)⟩
    · exact plain e (.inr rfl) read

theorem copyLoop_read {fuel : Nat} {t out stop : List Byte} (copied : copyLoop fuel t = some (out, stop)) :
    Read t out stop := by
  induction fuel generalizing t out stop with
  | zero =>
    cases t with
    | nil =>
      cases copied
      exact ⟨List.suffix_refl _, fun clean => clean⟩
    | cons c t => cases copied
  | succ fuel ih =>
    cases t with
    | nil =>
      cases copied
      exact ⟨List.suffix_refl _, fun clean => clean⟩
    | cons c t =>
      rw [copyLoop] at copied
      split at copied
      · cases copied
        exact ⟨List.suffix_refl _, fun _ => List.not_mem_nil⟩
      split at copied
      · obtain ⟨⟨rest, stopped⟩, later, same⟩ := Option.map_eq_some_iff.mp copied
        cases same
        have inner := ih later
        refine ⟨inner.suffix.trans (List.suffix_cons c t), ?_⟩
        intro clean mem
        rcases List.mem_cons.mp mem with here | there
        · exact clean (here ▸ List.mem_cons_self)
        · exact inner.noNul (fun inside => clean (List.mem_cons_of_mem c inside)) there
      · simp only [Option.bind_eq_bind, Option.bind_eq_some_iff] at copied
        obtain ⟨⟨bytes, next⟩, read, ⟨rest, stopped⟩, later, same⟩ := copied
        cases same
        have first := unescape_read read
        have inner := ih later
        refine ⟨(inner.suffix.trans first.suffix).trans (List.suffix_cons c t), ?_⟩
        intro clean mem
        have tail : 0 ∉ t := fun inside => clean (List.mem_cons_of_mem c inside)
        rcases List.mem_append.mp mem with here | there
        · exact first.noNul tail here
        · exact inner.noNul (noNul_suffix first.suffix tail) there

theorem parseString_ok {D : Type} {item f : Fields D} {str rest : List Byte} (read : parseString item str = .ok f rest) :
    ∃ s, f = { item with valuestring := some s, kind := .string } ∧ Behind rest str ∧ (0 ∉ str → 0 ∉ s) := by
  unfold parseString at read
  split at read
  · cases read
  · rename_i quote
    have start : peek str ≠ 0 := by
      rw [not_not.mp quote]
      decide
    have first := behind_drop start (by decide : 0 < 1)
    split at read
    · rename_i len out stop counted copied
      have body := copyLoop_read copied
      split at read
      · cases read
        refine ⟨out, rfl, ?_, fun clean => body.noNul (noNul_suffix first.suffix clean)⟩
        apply Behind.of_suffix _ first
        split
        · exact (List.drop_suffix 1 stop).trans body.suffix
        · exact body.suffix
      · cases read
    · cases read

variable {D : Type} {o : Arith D}

theorem readFraction_suffix (n : D) (num : List Byte) : (readFraction o n num).2.2 <:+ num := by
  unfold readFraction
  split
  · exact (List.dropWhile_suffix _).trans (List.drop_suffix 1 num)
  · exact List.suffix_refl num

theorem readExponent_suffix (num : List Byte) : (readExponent num).2 <:+ num := by
  unfold readExponent
  split
  · dsimp only
    split
    · exact (List.dropWhile_suffix _).trans ((List.drop_suffix 1 _).trans (List.drop_suffix 1 num))
    · split
      · exact (List.dropWhile_suffix _).trans ((List.drop_suffix 1 _).trans (List.drop_suffix 1 num))
      · exact (List.dropWhile_suffix _).trans (List.drop_suffix 1 num)
  · exact List.suffix_refl num

theorem readWhole_suffix (num : List Byte) : (readWhole o num).2 <:+ num := by
  have zero : (if peek num = ch '0' then num.drop 1 else num) <:+ num := by
    split
    · exact List.drop_suffix 1 num
    · exact List.suffix_refl num
  unfold readWhole
  dsimp only
  generalize (if peek num = ch '0' then num.drop 1 else num) = p at zero
  split
  · exact (List.dropWhile_suffix _).trans zero
  · exact zero

theorem readWhole_behind {num : List Byte} (digit : isDigit (peek num) = true) : Behind (readWhole o num).2 num := by
  have some : peek num ≠ 0 := by
    intro nul
    rw [nul] at digit
    exact absurd digit (by decide)
  unfold readWhole
  by_cases zero : peek num = ch '0'
  · rw [if_pos zero]
    dsimp only
    split
    · exact Behind.of_suffix (List.dropWhile_suffix _) (behind_drop some (by decide))
    · exact behind_drop some (by decide)
  · rw [if_neg zero]
    simp only [digit, zero, ne_eq, not_false_eq_true, decide_true, Bool.and_self, if_true]
    cases num with
    | nil => exact absurd rfl some
    | cons c num =>
      have here : isDigit c = true := digit
      rw [List.dropWhile_cons_of_pos here]
      exact Behind.of_suffix (List.dropWhile_suffix _) (behind_drop some (by decide : 0 < 1))

theorem parseNumber_ok (o : Arith D) (item : Fields D) {num : List Byte}
    (first : peek num = ch '-' ∨ isDigit (peek num) = true) :
    ((parseNumber o item num).1.kind = .number ∧ (parseNumber o item num).1 = item.readInto (parseNumber o item num).1) ∧
      Behind (parseNumber o item num).2 num := by
  refine ⟨⟨rfl, rfl⟩, ?_⟩
  have tail : (parseNumber o item num).2 <:+ (readWhole o (readSign o num).2).2 :=
    (readExponent_suffix _).trans (readFraction_suffix _ _)
  apply Behind.of_suffix tail
  unfold readSign
  by_cases minus : peek num = ch '-'
  · have some : peek num ≠ 0 := by
      rw [minus]
      decide
    rw [if_pos minus]
    exact Behind.of_suffix (readWhole_suffix _) (behind_drop some (by decide))
  · rw [if_neg minus]
    exact readWhole_behind (first.resolve_left minus)

end Scanners

section Built
variable {D : Type} (o : Arith D)

/-- A chain as the parser leaves it, whatever its numbers. -/
def Built (named : Bool) : CJson D → Prop
  | .nil => True
  | .node f child next =>
      f = (if named then namedItem o f.string else newItem o).readInto f ∧
      (named = true → ∃ s, f.string = some s ∧ 0 ∉ s) ∧
      (f.kind = .string → ∃ s, f.valuestring = some s ∧ 0 ∉ s) ∧
      (f.kind = .array → Built false child) ∧ (f.kind = .object → Built true child) ∧
      (f.kind ≠ .array → f.kind ≠ .object → child = .nil) ∧ Built named next

def Ints : CJson D → Prop
  | .nil => True
  | .node f child next =>
      (f.kind = .number → f.valuedouble = o.ofInt f.valueint.toInt) ∧ Ints child ∧ Ints next

variable {o}

theorem built_plain {named : Bool} {items : CJson D} (built : Built o named items) (ints : Ints o items) :
    Plain o named items := by
  induction items generalizing named with
  | nil => trivial
  | node f child next ihChild ihNext =>
    obtain ⟨_, name, string, array, object, _, later⟩ := built
    obtain ⟨number, inner, others⟩ := ints
    exact ⟨name, string, number, fun kind => ihChild (array kind) inner, fun kind => ihChild (object kind) inner,
      ihNext later others⟩

theorem built_reread {named : Bool} {items : CJson D} (built : Built o named items) : reread o named items = items := by
  induction items generalizing named with
  | nil => rfl
  | node f child next ihChild ihNext =>
    obtain ⟨fields, _, _, array, object, leaf, later⟩ := built
    have inner : rereadChild o f child = child := by
      unfold rereadChild
      split
      · rename_i kind
        exact ihChild (array kind)
      · rename_i kind
        exact ihChild (object kind)
      · rename_i other other'
        exact (leaf other other').symm
    rw [reread_node, ← fields, inner, ihNext later]

theorem andThen_ok {α β : Type} {p : Parsed α} {g : α → List Byte → Parsed β} {b : β} {rest : List Byte} :
    p.andThen g = .ok b rest ↔ ∃ a r, p = .ok a r ∧ g a r = .ok b rest := by
  cases p <;> simp [Parsed.andThen]

variable (o) in
def ItemBuilt (f : Fields D) (child : CJson D) : Prop :=
  (f.kind = .string → ∃ s, f.valuestring = some s ∧ 0 ∉ s) ∧
    (f.kind = .array → Built o false child) ∧ (f.kind = .object → Built o true child) ∧
    (f.kind ≠ .array → f.kind ≠ .object → child = .nil)

structure ValueRead (o : Arith D) (item f : Fields D) (child : CJson D) (value rest : List Byte) : Prop where
  fields : f = item.readInto f
  behind : Behind rest value
  built : 0 ∉ value → ItemBuilt o f child

theorem ValueRead.leaf {item f : Fields D} {value rest : List Byte} (kind : Kind) (here : f.kind = kind)
    (plain : kind ≠ .array ∧ kind ≠ .object) (fields : f = item.readInto f) (behind : Behind rest value)
    (string : kind = .string → 0 ∉ value → ∃ s, f.valuestring = some s ∧ 0 ∉ s) :
    ValueRead o item f .nil value rest := by
  subst here
  exact ⟨fields, behind, fun clean => ⟨fun kind => string kind clean, fun array => absurd array plain.1,
    fun object => absurd object plain.2, fun _ _ => rfl⟩⟩

structure ChainRead (o : Arith D) (named : Bool) (items : CJson D) (value rest : List Byte) : Prop where
  behind : Behind rest value
  built : 0 ∉ value → Built o named items

theorem literal_behind {a : Char} {as : List Char} {value : List Byte} {n : Nat}
    (here : (text (a :: as)).isPrefixOf value = true) (visible : ch a ≠ 0) (more : 0 < n) : Behind (value.drop n) value :=
  behind_drop (by rw [isPrefixOf_peek here]; exact visible) more

theorem parseBracketed_ok {kind : Kind} {close : Byte} {named : Bool}
    (which : kind = .array ∧ named = false ∨ kind = .object ∧ named = true)
    {chain : List Byte → Parsed (CJson D)} {item f : Fields D} {child : CJson D} {value rest : List Byte}
    (opened : peek value ≠ 0) (read : parseBracketed kind close chain item value = .ok (f, child) rest)
    (each : ∀ v t r, chain v = .ok t r → ChainRead o named t v r) : ValueRead o item f child value rest := by
  have inner : Behind (skip (value.drop 1)) value := Behind.of_suffix (skip_suffix _) (behind_drop opened (by decide))
  have fields : { item with kind := kind } = item.readInto { item with kind := kind } := by
    rcases which with ⟨rfl, _⟩ | ⟨rfl, _⟩ <;> rfl
  have bracketed (t : CJson D) (built : Built o named t) : ItemBuilt o { item with kind := kind } t := by
    rcases which with ⟨rfl, rfl⟩ | ⟨rfl, rfl⟩
    · exact ⟨fun here => Kind.noConfusion here, fun _ => built, fun here => Kind.noConfusion here,
        fun other => absurd rfl other⟩
    · exact ⟨fun here => Kind.noConfusion here, fun here => Kind.noConfusion here, fun _ => built,
        fun _ other => absurd rfl other⟩
  unfold parseBracketed at read
  dsimp only at read
  split at read
  · cases read
    exact ⟨fields, Behind.of_suffix (List.drop_suffix 1 _) inner, fun _ => bracketed .nil trivial⟩
  · obtain ⟨t, r, parsed, closed⟩ := andThen_ok.mp read
    have items := each _ t r parsed
    split at closed
    · cases closed
      exact ⟨fields, Behind.of_suffix ((List.drop_suffix 1 r).trans items.behind.suffix) inner,
        fun clean => bracketed _ (items.built (noNul_suffix inner.suffix clean))⟩
    · cases closed

def ReadsValues (o : Arith D) (fuel : Nat) : Prop :=
  ∀ item value f child rest, parseValue o fuel item value = .ok (f, child) rest → ValueRead o item f child value rest

def ReadsChains (o : Arith D) (named : Bool) (parse : List Byte → Parsed (CJson D)) : Prop :=
  ∀ value items rest, parse value = .ok items rest → ChainRead o named items value rest

theorem parseValue_step {fuel : Nat} (elements : ReadsChains o false (parseElements o fuel))
    (members : ReadsChains o true (parseMembers o fuel)) : ReadsValues o (fuel + 1) := by
  intro item value f child rest read
  rw [parseValue] at read
  split at read
  · rename_i here
    cases read
    exact .leaf .null rfl (by decide) rfl (literal_behind here (by decide) (by decide)) (fun kind => absurd kind (by decide))
  split at read
  · rename_i here
    cases read
    exact .leaf .false rfl (by decide) rfl (literal_behind here (by decide) (by decide)) (fun kind => absurd kind (by decide))
  split at read
  · rename_i here
    cases read
    exact .leaf .true rfl (by decide) rfl (literal_behind here (by decide) (by decide)) (fun kind => absurd kind (by decide))
  split at read
  · obtain ⟨g, r, parsed, same⟩ := andThen_ok.mp read
    cases same
    obtain ⟨s, rfl, behind, clean⟩ := parseString_ok parsed
    exact .leaf .string rfl (by decide) rfl behind (fun _ noNul => ⟨s, rfl, clean noNul⟩)
  split at read
  · rename_i first
    have digit : peek value = ch '-' ∨ isDigit (peek value) = true := by simpa using first
    obtain ⟨number, behind⟩ := parseNumber_ok o item digit
    simp only [Parsed.ok.injEq, Prod.mk.injEq] at read
    obtain ⟨⟨rfl, rfl⟩, rfl⟩ := read
    exact .leaf .number number.1 (by decide) number.2 behind (fun kind => absurd kind (by decide))
  split at read
  · rename_i opened
    exact parseBracketed_ok (.inl ⟨rfl, rfl⟩) (by rw [opened]; decide) read elements
  split at read
  · rename_i opened
    exact parseBracketed_ok (.inr ⟨rfl, rfl⟩) (by rw [opened]; decide) read members
  · cases read

theorem parseElements_step {fuel : Nat} (values : ReadsValues o fuel)
    (elements : ReadsChains o false (parseElements o fuel)) : ReadsChains o false (parseElements o (fuel + 1)) := by
  intro value items rest read
  rw [parseElements] at read
  obtain ⟨⟨f, child⟩, r, parsed, next⟩ := andThen_ok.mp read
  have item := values _ _ f child r parsed
  have behind : Behind (skip r) value := Behind.of_suffix (skip_suffix r) (item.behind.trans_suffix (skip_suffix value))
  have node (clean : 0 ∉ value) (later : CJson D) (built : Built o false later) : Built o false (.node f child later) := by
    obtain ⟨string, array, object, leaf⟩ := item.built (noNul_suffix (skip_suffix value) clean)
    exact ⟨item.fields, fun named => absurd named (by decide), string, array, object, leaf, built⟩
  dsimp only at next
  split at next
  · obtain ⟨later, r', more, same⟩ := andThen_ok.mp next
    cases same
    have others := elements _ _ _ more
    have drop := (List.drop_suffix 1 (skip r)).trans behind.suffix
    exact ⟨Behind.trans_suffix others.behind drop, fun clean => node clean later (others.built (noNul_suffix drop clean))⟩
  · cases next
    exact ⟨behind, fun clean => node clean .nil trivial⟩

theorem parseMembers_step {fuel : Nat} (values : ReadsValues o fuel)
    (members : ReadsChains o true (parseMembers o fuel)) : ReadsChains o true (parseMembers o (fuel + 1)) := by
  intro value items rest read
  rw [parseMembers] at read
  obtain ⟨g, r, parsed, next⟩ := andThen_ok.mp read
  obtain ⟨s, rfl, name, clean⟩ := parseString_ok parsed
  have named : skip r <:+ value := (skip_suffix r).trans (name.suffix.trans (skip_suffix value))
  dsimp only at next
  split at next
  · cases next
  rename_i colon
  have some : peek (skip r) ≠ 0 := by
    rw [not_not.mp colon]
    decide
  obtain ⟨⟨f, child⟩, r', parsed', next⟩ := andThen_ok.mp next
  have item := values _ _ f child r' parsed'
  have start : Behind (skip ((skip r).drop 1)) value :=
    Behind.trans_suffix (Behind.of_suffix (skip_suffix _) (behind_drop some (by decide))) named
  have behind : Behind (skip r') value :=
    Behind.of_suffix (skip_suffix r') (Behind.trans_suffix item.behind start.suffix)
  have string : f.string = .some s := by
    rw [item.fields, Fields.readInto]
    cases f.kind <;> rfl
  have fields : f = (namedItem o f.string).readInto f := by
    rw [string]
    exact item.fields
  have node (noNul : 0 ∉ value) (later : CJson D) (built : Built o true later) : Built o true (.node f child later) := by
    obtain ⟨text, array, object, leaf⟩ := item.built (noNul_suffix start.suffix noNul)
    exact ⟨fields, fun _ => ⟨s, string, clean (noNul_suffix (skip_suffix value) noNul)⟩, text, array, object, leaf, built⟩
  dsimp only at next
  split at next
  · obtain ⟨later, r'', more, same⟩ := andThen_ok.mp next
    cases same
    have others := members _ _ _ more
    have drop := (List.drop_suffix 1 (skip r')).trans behind.suffix
    exact ⟨Behind.trans_suffix others.behind drop, fun noNul => node noNul later (others.built (noNul_suffix drop noNul))⟩
  · cases next
    exact ⟨behind, fun noNul => node noNul .nil trivial⟩

theorem parse_reads (o : Arith D) (fuel : Nat) :
    ReadsValues o fuel ∧ ReadsChains o false (parseElements o fuel) ∧ ReadsChains o true (parseMembers o fuel) := by
  induction fuel with
  | zero =>
    refine ⟨?_, ?_, ?_⟩
    · intro item value f child rest read
      cases read
    · intro value items rest read
      cases read
    · intro value items rest read
      cases read
  | succ fuel ih =>
    obtain ⟨values, elements, members⟩ := ih
    exact ⟨parseValue_step elements members, parseElements_step values elements, parseMembers_step values members⟩

end Built

/-- A tree that was read from some text is printed if its text is short, and whatever is printed of
    it is read as the same tree. -/
theorem accepted_tree_stable {D : Type} {o : Arith D} (sized : o.Sized) (ints : o.ExactInts) {value rest : List Byte}
    (noNul : 0 ∉ value) {requireNullTerminated : Bool} {t : CJson D}
    (read : cJsonParseWithOpts o value requireNullTerminated = .ok t rest) (whole : Ints o t) (fmt : Bool) :
    (∀ out, printValue o fmt 0 t = some out → cJsonParseWithOpts o out true = .ok t []) ∧
      (Short (valueText o fmt 0 t) → ∃ out, printValue o fmt 0 t = some out) := by
  obtain ⟨⟨f, child⟩, ended, parsed, root⟩ := andThen_ok.mp read
  have item := (parse_reads o _).1 _ _ f child ended parsed
  have built : Built o false (.node f child .nil) := by
    obtain ⟨string, array, object, leaf⟩ := item.built (noNul_suffix (skip_suffix value) noNul)
    exact ⟨item.fields, fun named => absurd named (by decide), string, array, object, leaf, trivial⟩
  have same : t = .node f child .nil := by
    dsimp only at root
    repeat' split at root
    · cases root
    · cases root
      rfl
    · cases root
      rfl
  subst same
  have again := print_parse sized ints fmt 0 f child .nil (built_plain built whole)
  rw [built_reread built] at again
  exact again

def numberList : CJson Int :=
  .node { newItem wholeNumbers with kind := .array }
    (.node { newItem wholeNumbers with kind := .number, valueint := 5, valuedouble := 5 } .nil .nil) .nil

/-- A text with blanks, and an item behind the tree that is left. -/
theorem spaced_list_stable :
    (∀ out, printValue wholeNumbers true 0 numberList = some out → cJsonParseWithOpts wholeNumbers out true = .ok numberList []) ∧
      (Short (valueText wholeNumbers true 0 numberList) → ∃ out, printValue wholeNumbers true 0 numberList = some out) := by
  have read : cJsonParseWithOpts wholeNumbers (text ['[', ' ', '0', '5', ' ', ']', '!']) false = .ok numberList [ch '!'] := by
    decide
  exact accepted_tree_stable wholeNumbers_sized wholeNumbers_exact (by decide) read
    ⟨nofun, ⟨fun _ => by decide, trivial, trivial⟩, trivial⟩ true

section Ends
variable {D : Type} {o : Arith D}

/-- The parser comes back, and inside the text and its buffers if that is asked. -/
def Ends {α : Type} (clean : Prop) : Parsed α → Prop
  | .spent => False
  | .overrun => ¬clean
  | _ => True

theorem Ends.mono {α : Type} {clean clean' : Prop} {p : Parsed α} (ends : Ends clean p) (less : clean' → clean) :
    Ends clean' p := by
  cases p with
  | overrun => exact fun still => ends (less still)
  | spent => exact ends
  | ok _ _ => trivial
  | fail _ => trivial

theorem Ends.andThen {α β : Type} {clean : Prop} {p : Parsed α} {g : α → List Byte → Parsed β} (ends : Ends clean p)
    (next : ∀ a r, p = .ok a r → Ends clean (g a r)) : Ends clean (p.andThen g) := by
  cases p with
  | ok a r => exact next a r rfl
  | fail _ => trivial
  | overrun => exact ends
  | spent => exact ends

/-- A text without a backslash whose length is an int. -/
structure Clean (value : List Byte) : Prop where
  plain : ch '\\' ∉ value
  short : value.length < 2147483648

end Ends

end TestSource.Json
