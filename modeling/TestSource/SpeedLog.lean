import TestSource.Numeral
import TestSource.Recorded

/- test_parse_speedlog.c of C_TEST: the speed and the address of one line of the log. A C
   string is the list of its bytes before the NUL; the writes to the caller's array for the
   address are recorded by their index. -/
namespace TestSource.SpeedLog
open Download

def space : Byte := 32
def point : Byte := 46
def newline : Byte := 10

structure Output where
  speed : Int
  ip : List Byte
  deriving DecidableEq, Repr

/-- What is before the point is copied to speed_H, which has 16 bytes, and three bytes behind
    it to speed_L; tmpstr is filled up with zeros. -/
def fieldSpeed (z : WordSize) (tmpstr : List Byte) : Option Int :=
  match tmpstr.findIdx? (· = point) with
  | none => some (atoi z tmpstr)
  | some p =>
      if 16 ≤ p then none
      else some (wrapInt (1000 * atoi z (tmpstr.take p) + atoi z ((tmpstr.drop (p + 1)).take 3)))

/-- strncpy writes 16 bytes, and the NUL is written behind them. -/
def copyIp (tmpstr : List Byte) : Recorded Nat (List Byte) :=
  ⟨List.range 16 ++ [16], some ((tmpstr ++ List.replicate 16 0).take 16)⟩

/-- What is done with field i, once it is in tmpstr, which has 256 bytes and is printed. -/
def useField (z : WordSize) (i : Nat) (tmpstr : List Byte) (out : Output) : Recorded Nat Output :=
  if 256 ≤ tmpstr.length then ⟨[], none⟩
  else if i = 0 then ⟨[], (fieldSpeed z tmpstr).map fun speed => { out with speed }⟩
  else if i = 4 then do
    let ip ← copyIp tmpstr
    pure { out with ip }
  else pure out

def fieldLoop (z : WordSize) : Nat → List Byte → Nat → Output → Recorded Nat Output
  | 0, _, _, _ => ⟨[], none⟩
  | fuel + 1, ptr2, i, out => do
      let out ← useField z i (ptr2.takeWhile (· ≠ space)) out
      if ptr2.contains space then
        fieldLoop z fuel ((ptr2.dropWhile (· ≠ space)).dropWhile (· = space)) (i + 1) out
      else pure out

def doParseDeviceSpeed (z : WordSize) (buf : List Byte) (out : Output) : Recorded Nat Output :=
  fieldLoop z (buf.length + 1) buf 0 out

structure Octet where
  digits : List Byte
  nonempty : digits ≠ []
  short : digits.length ≤ 3
  decimal : ∀ b ∈ digits, isDigit b = true
  byte : number digits < 256

/-- A line H[.F] KB/s P packets/s A, with at least one space between its fields. -/
structure SpeedLine where
  high : List Byte
  fraction : Option (List Byte)
  packets : List Byte
  address : Octet × Octet × Octet × Octet
  gaps : Nat × Nat × Nat × Nat
  high_nonempty : high ≠ []
  high_short : high.length ≤ 6
  high_decimal : ∀ b ∈ high, isDigit b = true
  fraction_nonempty : ∀ f ∈ fraction, f ≠ []
  fraction_short : ∀ f ∈ fraction, f.length ≤ 3
  fraction_decimal : ∀ f ∈ fraction, ∀ b ∈ f, isDigit b = true
  packets_nonempty : packets ≠ []
  packets_decimal : ∀ b ∈ packets, isDigit b = true

namespace SpeedLine

def speedText (l : SpeedLine) : List Byte :=
  match l.fraction with
  | none => l.high
  | some f => l.high ++ point :: f

def addressText (l : SpeedLine) : List Byte :=
  let (a, b, c, d) := l.address
  a.digits ++ point :: (b.digits ++ point :: (c.digits ++ point :: d.digits))

def unit : List Byte := ascii ['K', 'B', '/', 's']
def packetUnit : List Byte := ascii ['p', 'a', 'c', 'k', 'e', 't', 's', '/', 's']

def gap (n : Nat) : List Byte := List.replicate (n + 1) space

def text (l : SpeedLine) : List Byte :=
  let (g₁, g₂, g₃, g₄) := l.gaps
  l.speedText ++ (gap g₁ ++ (unit ++ (gap g₂ ++ (l.packets ++ (gap g₃ ++
    (packetUnit ++ (gap g₄ ++ (l.addressText ++ [newline]))))))))

def thousandfold (l : SpeedLine) : Nat :=
  1000 * number l.high + match l.fraction with
    | none => 0
    | some f => number f * Nat.pow 10 (3 - f.length)

end SpeedLine

section Fields
variable {z : WordSize} {fuel i : Nat} {t rest : List Byte} {out : Output}

theorem fieldLoop_field (plain : space ∉ t) (n : Nat) (next : ∀ b, rest.head? = some b → b ≠ space) :
    fieldLoop z (fuel + 1) (t ++ (SpeedLine.gap n ++ rest)) i =
      fun out => useField z i t out >>= fieldLoop z fuel rest (i + 1) := by
  funext out
  have spaces : SpeedLine.gap n = space :: List.replicate n space := rfl
  have field : (t ++ (SpeedLine.gap n ++ rest)).takeWhile (· ≠ space) = t := by
    rw [Occurs.takeWhile_until plain, spaces]
    simp
  have behind : ((t ++ (SpeedLine.gap n ++ rest)).dropWhile (· ≠ space)).dropWhile (· = space) = rest := by
    have run := Occurs.dropWhile_run next (n + 1)
    rw [spaces, List.cons_append, Occurs.dropWhile_until plain]
    exact run
  have more : (t ++ (SpeedLine.gap n ++ rest)).contains space = true := by simp [spaces]
  rw [fieldLoop, field, behind]
  simp only [if_pos more]

theorem fieldLoop_last (plain : space ∉ t) : fieldLoop z (fuel + 1) t i = useField z i t := by
  funext out
  rw [fieldLoop, Occurs.takeWhile_absent plain]
  have last : ¬t.contains space = true := by simpa using plain
  simp only [if_neg last]
  exact Recorded.bind_pure _

theorem head_plain (nonempty : t ≠ []) (plain : space ∉ t) : ∀ b, (t ++ rest).head? = some b → b ≠ space := by
  cases t with
  | nil => exact absurd rfl nonempty
  | cons a t =>
    intro b head
    cases head
    rintro rfl
    exact plain List.mem_cons_self

theorem decimal_plain {c : Byte} (decimal : ∀ b ∈ t, isDigit b = true) (other : isDigit c = false) : c ∉ t := by
  intro mem
  rw [decimal c mem] at other
  contradiction

theorem useField_plain (between : i ≠ 0 ∧ i ≠ 4) (short : t.length < 256) :
    useField z i t out = pure out := by
  rw [useField, if_neg (by omega), if_neg between.1, if_neg between.2]

theorem useField_long (long : 256 ≤ t.length) : useField z i t out = ⟨[], none⟩ := by
  rw [useField, if_pos long]

theorem useField_ip (short : t.length < 256) : useField z 4 t out =
    ⟨List.range 16 ++ [16], some { out with ip := (t ++ List.replicate 16 0).take 16 }⟩ := by
  rw [useField, if_neg (by omega), if_neg (by decide), if_pos rfl]
  rfl

end Fields

section Lines
variable (z : WordSize) (l : SpeedLine) (out : Output)

def SpeedLine.speedRead (l : SpeedLine) : Nat :=
  match l.fraction with
  | none => number l.high
  | some f => 1000 * number l.high + number f

theorem number_few {t : List Byte} (decimal : ∀ b ∈ t, isDigit b = true) {n : Nat} (few : t.length ≤ n) :
    number t < Nat.pow 10 n :=
  Nat.lt_of_lt_of_le (number_lt decimal) (Nat.pow_le_pow_right (by decide) few)

theorem fieldSpeed_line : fieldSpeed z l.speedText = some (l.speedRead : Int) := by
  have high : number l.high < 1000000 := number_few l.high_decimal l.high_short
  have noPoint : point ∉ l.high := decimal_plain l.high_decimal (by decide)
  have short := l.high_short
  unfold fieldSpeed SpeedLine.speedText SpeedLine.speedRead
  cases fraction : l.fraction with
  | none =>
    simp only [Occurs.findIdx_absent noPoint]
    rw [atoi_digits z l.high_decimal (by omega)]
  | some f =>
    have decimal := l.fraction_decimal f fraction
    have few := l.fraction_short f fraction
    have low : number f < 1000 := number_few decimal few
    simp only [Occurs.findIdx_first noPoint, if_neg (show ¬16 ≤ l.high.length by omega), List.take_left,
      ← List.drop_drop, List.drop_left, List.drop_succ_cons, List.drop_zero, List.take_of_length_le few]
    rw [atoi_digits z l.high_decimal (by omega), atoi_digits z decimal (by omega), wrapInt,
      toS32_toU32 (by omega) (by omega)]
    rfl

theorem speedText_plain : space ∉ l.speedText ∧ l.speedText.length < 256 := by
  have noSpace : space ∉ l.high := decimal_plain l.high_decimal (by decide)
  have short := l.high_short
  unfold SpeedLine.speedText
  cases fraction : l.fraction with
  | none => exact ⟨noSpace, by dsimp only; omega⟩
  | some f =>
    have few := l.fraction_short f fraction
    have plain : space ∉ f := decimal_plain (l.fraction_decimal f fraction) (by decide)
    constructor
    · simp only [List.mem_append, List.mem_cons, not_or]
      exact ⟨noSpace, by decide, plain⟩
    · simp only [List.length_append, List.length_cons]
      omega

theorem addressText_without {c : Byte} (noDigit : isDigit c = false) (noPoint : c ≠ point) :
    c ∉ l.addressText := by
  have plain (o : Octet) : c ∉ o.digits := decimal_plain o.decimal noDigit
  simp [SpeedLine.addressText, plain, noPoint]

theorem addressText_short : l.addressText ≠ [] ∧ l.addressText.length < 16 := by
  rcases address : l.address with ⟨a, b, c, d⟩
  have := a.short
  have := b.short
  have := c.short
  have := d.short
  simp only [SpeedLine.addressText, address, List.length_append, List.length_cons]
  exact ⟨by simp, by omega⟩

theorem line_fields : doParseDeviceSpeed z l.text out =
    useField z 0 l.speedText out >>= fun out => useField z 1 SpeedLine.unit out >>= fun out =>
      useField z 2 l.packets out >>= fun out => useField z 3 SpeedLine.packetUnit out >>=
        useField z 4 (l.addressText ++ [newline]) := by
  have noSpace : space ∉ l.packets := decimal_plain l.packets_decimal (by decide)
  have addressSpace : space ∉ l.addressText := addressText_without l (by decide) (by decide)
  have lastSpace : space ∉ l.addressText ++ [newline] := by
    simp only [List.mem_append, List.mem_singleton, not_or]
    exact ⟨addressSpace, by decide⟩
  have enough : ∃ k, l.text.length + 1 = k + 5 := by
    refine ⟨l.text.length - 4, ?_⟩
    simp only [SpeedLine.text, SpeedLine.gap, List.length_append, List.length_replicate]
    omega
  obtain ⟨k, fuel⟩ := enough
  rw [doParseDeviceSpeed, fuel, SpeedLine.text,
    fieldLoop_field (speedText_plain l).1 _ (head_plain (by decide) (by decide)),
    fieldLoop_field (by decide) _ (head_plain l.packets_nonempty noSpace),
    fieldLoop_field noSpace _ (head_plain (by decide) (by decide)),
    fieldLoop_field (by decide) _ (head_plain (addressText_short l).1 addressSpace),
    fieldLoop_last lastSpace]

theorem line_read (short : l.packets.length < 256) : doParseDeviceSpeed z l.text out =
    ⟨List.range 16 ++ [16], some ⟨l.speedRead, (l.addressText ++ [newline] ++ List.replicate 16 0).take 16⟩⟩ := by
  have addressShort := (addressText_short l).2
  have first : useField z 0 l.speedText out = pure { out with speed := l.speedRead } := by
    rw [useField, if_neg (Nat.not_le.mpr (speedText_plain l).2), if_pos rfl, fieldSpeed_line]
    rfl
  rw [line_fields, first]
  simp only [useField_plain (show 1 ≠ 0 ∧ 1 ≠ 4 by decide) (show SpeedLine.unit.length < 256 by decide),
    useField_plain (show 2 ≠ 0 ∧ 2 ≠ 4 by decide) short,
    useField_plain (show 3 ≠ 0 ∧ 3 ≠ 4 by decide) (show SpeedLine.packetUnit.length < 256 by decide)]
  exact useField_ip (by simp; omega)

theorem line_overflows (long : 256 ≤ l.packets.length) : (doParseDeviceSpeed z l.text out).value = none := by
  rw [line_fields]
  simp only [useField_plain (show 1 ≠ 0 ∧ 1 ≠ 4 by decide) (show SpeedLine.unit.length < 256 by decide),
    useField_long long, Recorded.value_bind]
  simp

def SpeedRight : Prop :=
  ∃ read, (doParseDeviceSpeed z l.text out).value = some read ∧ read.speed = l.thousandfold

def AddressRight : Prop :=
  ∃ read, (doParseDeviceSpeed z l.text out).value = some read ∧ 0 ∈ read.ip ∧
    read.ip.takeWhile (· ≠ 0) = l.addressText

/-- Speed and address are right, and nothing is written outside the array of 16 bytes. -/
structure ReadRight : Prop where
  speed : SpeedRight z l out
  address : AddressRight z l out
  inside : Recorded.Holds (· < 16) (doParseDeviceSpeed z l.text out)

/-- A fraction of three digits or of zeros, or a speed of zero without a fraction. -/
def SpeedLine.Exact (l : SpeedLine) : Prop :=
  match l.fraction with
  | none => number l.high = 0
  | some f => f.length = 3 ∨ number f = 0

theorem speedRead_iff : l.speedRead = l.thousandfold ↔ l.Exact := by
  unfold SpeedLine.speedRead SpeedLine.thousandfold SpeedLine.Exact
  cases fraction : l.fraction with
  | none =>
    dsimp only
    omega
  | some f =>
    have few := l.fraction_short f fraction
    have some := List.length_pos_iff.mpr (l.fraction_nonempty f fraction)
    have cases : f.length = 1 ∨ f.length = 2 ∨ f.length = 3 := by omega
    rcases cases with one | two | three
    · simp [one]
      omega
    · simp [two]
      omega
    · simp [three]

theorem written_behind (short : l.packets.length < 256) :
    ¬Recorded.Holds (· < 16) (doParseDeviceSpeed z l.text out) := by
  rw [line_read z l out short]
  intro inside
  exact absurd (inside 16 (by simp)) (by decide)

theorem address_with_newline (short : l.packets.length < 256) : ¬AddressRight z l out := by
  rintro ⟨read, done, _, string⟩
  rw [line_read z l out short] at done
  cases done
  have noNul : (0 : Byte) ∉ l.addressText := addressText_without l (by decide) (by decide)
  have addressShort := (addressText_short l).2
  have room : 16 - l.addressText.length = 15 - l.addressText.length + 1 := by omega
  simp only [List.append_assoc, List.take_append, List.take_of_length_le (Nat.le_of_lt addressShort), room,
    List.singleton_append, List.take_succ_cons] at string
  rw [Occurs.takeWhile_until noNul] at string
  simp [newline] at string

/-- No line is read right: the address never is, and the speed is for the lines that are exact in
    thousandths, as long as no field overflows the buffer it is printed from. -/
theorem speed_line_misread : ¬ReadRight z l out ∧ ¬AddressRight z l out ∧
    (SpeedRight z l out ↔ l.packets.length < 256 ∧ l.Exact) := by
  by_cases short : l.packets.length < 256
  · refine ⟨?_, address_with_newline z l out short, ?_⟩
    · intro right
      exact written_behind z l out short right.inside
    · rw [← speedRead_iff, SpeedRight, line_read z l out short]
      simp only [Option.some.injEq, exists_eq_left', Int.natCast_inj, short, true_and]
  · have failed := line_overflows z l out (by omega)
    refine ⟨?_, ?_, ?_⟩
    · intro right
      obtain ⟨read, done, _⟩ := right.speed
      rw [failed] at done
      contradiction
    · rintro ⟨read, done, _⟩
      rw [failed] at done
      contradiction
    · simp [SpeedRight, failed, short]

end Lines

section Sample

def sample : SpeedLine where
  high := ascii ['1']
  fraction := some (ascii ['5'])
  packets := ascii ['0']
  address := (⟨ascii ['1', '9', '2'], by decide, by decide, by decide, by decide⟩,
    ⟨ascii ['1', '6', '8'], by decide, by decide, by decide, by decide⟩,
    ⟨ascii ['1', '1', '1'], by decide, by decide, by decide, by decide⟩,
    ⟨ascii ['1', '0', '0'], by decide, by decide, by decide, by decide⟩)
  gaps := (0, 1, 0, 0)
  high_nonempty := by decide
  high_short := by decide
  high_decimal := by decide
  fraction_nonempty := by decide
  fraction_short := by decide
  fraction_decimal := by decide
  packets_nonempty := by decide
  packets_decimal := by decide

/-- The speed is 1005 instead of 1500, the address ends in a newline and fills the array, and a NUL
    is written behind it. -/
theorem half_kilobyte_misread : sample.thousandfold = 1500 ∧
    doParseDeviceSpeed .bits32 sample.text ⟨0, List.replicate 16 0⟩ =
      ⟨List.range 16 ++ [16], some ⟨1005, sample.addressText ++ [newline]⟩⟩ ∧
    ¬ReadRight .bits32 sample ⟨0, List.replicate 16 0⟩ := by
  refine ⟨by decide, rfl, ?_⟩
  intro right
  exact written_behind .bits32 sample _ (by decide) right.inside

end Sample

end TestSource.SpeedLog
