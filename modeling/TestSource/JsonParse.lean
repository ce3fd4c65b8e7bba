import TestSource.JsonPrint

/- cJSON.c: the parser. A pointer into the text is the text from there on; its end is the NUL. The
   stack is taken to hold the calls that the brackets of the text nest. -/
namespace TestSource.Json

/-- What a parsing function comes back with. It fails at ep, or reads behind the NUL of the text,
    writes behind its buffer or overflows an int; spent is for the fuel of the model alone. -/
inductive Parsed (α : Type) where
  | ok (value : α) (rest : List Byte)
  | fail (ep : List Byte)
  | overrun
  | spent
  deriving DecidableEq, Repr

def Parsed.andThen {α β : Type} (p : Parsed α) (f : α → List Byte → Parsed β) : Parsed β :=
  match p with
  | .ok value rest => f value rest
  | .fail ep => .fail ep
  | .overrun => .overrun
  | .spent => .spent

def peek (p : List Byte) : Byte := p.headD 0

def skip (p : List Byte) : List Byte := p.dropWhile fun c => c ≠ 0 && c.toNat ≤ 32

def isDigit (c : Byte) : Bool := 48 ≤ c.toNat && c.toNat ≤ 57

section Strings

def hexDigit (c : Byte) : Option Nat :=
  if 48 ≤ c.toNat ∧ c.toNat ≤ 57 then some (c.toNat - 48)
  else if 65 ≤ c.toNat ∧ c.toNat ≤ 70 then some (10 + c.toNat - 65)
  else if 97 ≤ c.toNat ∧ c.toNat ≤ 102 then some (10 + c.toNat - 97)
  else none

/-- 0 when one of the four is no hexadecimal digit; those behind it are not read. -/
def parseHex4 (str : List Byte) : Nat :=
  (do
    let a ← hexDigit (peek str)
    let b ← hexDigit (peek (str.drop 1))
    let c ← hexDigit (peek (str.drop 2))
    let d ← hexDigit (peek (str.drop 3))
    some (((a * 16 + b) * 16 + c) * 16 + d)).getD 0

def firstByteMark : Nat → Nat
  | 2 => 0xC0
  | 3 => 0xE0
  | 4 => 0xF0
  | _ => 0

def utf8Len (uc : Nat) : Nat :=
  if uc < 0x80 then 1 else if uc < 0x800 then 2 else if uc < 0x10000 then 3 else 4

/-- The switch that falls through from the last byte to the first. -/
def fill (len : Nat) : Nat → Nat → List Byte → List Byte
  | 0, _, out => out
  | 1, uc, out => BitVec.ofNat 8 (uc ||| firstByteMark len) :: out
  | n + 2, uc, out => fill len (n + 1) (uc >>> 6) (BitVec.ofNat 8 ((uc ||| 0x80) &&& 0xBF) :: out)

def utf8 (uc : Nat) : List Byte := fill (utf8Len uc) (utf8Len uc) uc []

def advance (n : Nat) (p : List Byte) : Option (List Byte) := if n ≤ p.length then some (p.drop n) else none

def unicode (rest : List Byte) : Option (List Byte × List Byte) :=
  let uc := parseHex4 rest
  if (0xDC00 ≤ uc ∧ uc ≤ 0xDFFF) ∨ uc = 0 then (advance 4 rest).map ([], ·)
  else if 0xD800 ≤ uc ∧ uc ≤ 0xDBFF then
    if peek (rest.drop 4) ≠ ch '\\' ∨ peek (rest.drop 5) ≠ ch 'u' then (advance 4 rest).map ([], ·)
    else
      let uc2 := parseHex4 (rest.drop 6)
      if uc2 < 0xDC00 ∨ 0xDFFF < uc2 then (advance 10 rest).map ([], ·)
      else (advance 10 rest).map (utf8 (0x10000 + (((uc &&& 0x3FF) <<< 10) ||| (uc2 &&& 0x3FF))), ·)
  else (advance 4 rest).map (utf8 uc, ·)

/-- The switch over the character behind a backslash. A NUL there would be copied, and passed. -/
def unescape : List Byte → Option (List Byte × List Byte)
  | [] => none
  | e :: rest =>
      if e = ch 'b' then some ([8], rest)
      else if e = ch 'f' then some ([12], rest)
      else if e = ch 'n' then some ([10], rest)
      else if e = ch 'r' then some ([13], rest)
      else if e = ch 't' then some ([9], rest)
      else if e = ch 'u' then unicode rest
      else some ([e], rest)

/-- The first loop, which counts the characters for the buffer; none when it passes the NUL. -/
def countLoop : List Byte → Option Nat
  | [] => some 0
  | c :: rest =>
      if c = ch '"' then some 0
      else if c = ch '\\' then
        match rest with
        | [] => none
        | _ :: rest => (countLoop rest).map (· + 1)
      else (countLoop rest).map (· + 1)

/-- The second loop, with what it writes and where it stops. Every round goes on behind its
    first character, so the length of the text is fuel enough. -/
def copyLoop : Nat → List Byte → Option (List Byte × List Byte)
  | _, [] => some ([], [])
  | 0, _ :: _ => none
  | fuel + 1, c :: rest =>
      if c = ch '"' then some ([], c :: rest)
      else if c ≠ ch '\\' then (copyLoop fuel rest).map fun (out, stop) => (c :: out, stop)
      else do
        let (bytes, rest) ← unescape rest
        let (out, stop) ← copyLoop fuel rest
        some (bytes ++ out, stop)

/-- The buffer has one byte more than were counted in the int len, for the NUL. -/
def parseString {D : Type} (item : Fields D) (str : List Byte) : Parsed (Fields D) :=
  if peek str ≠ ch '"' then .fail str
  else
    match countLoop (str.drop 1), copyLoop (str.drop 1).length (str.drop 1) with
    | some len, some (out, stop) =>
        if len < 2147483647 ∧ out.length ≤ len then
          .ok { item with valuestring := some out, kind := .string }
            (if peek stop = ch '"' then stop.drop 1 else stop)
        else .overrun
    | _, _ => .overrun

end Strings

variable {D : Type} (o : Arith D)

section Numbers

def readDigits (n : D) (num : List Byte) : D :=
  (num.takeWhile isDigit).foldl (fun n c => o.add (o.mul n (o.ofInt 10)) (o.ofInt (c.toNat - 48))) n

def readSign (num : List Byte) : D × List Byte :=
  if peek num = ch '-' then (o.ofInt (-1), num.drop 1) else (o.ofInt 1, num)

/-- The digits before the point. A leading 0 is passed. -/
def readWhole (num : List Byte) : D × List Byte :=
  let num := if peek num = ch '0' then num.drop 1 else num
  if isDigit (peek num) && peek num ≠ ch '0' then (readDigits o (o.ofInt 0) num, num.dropWhile isDigit)
  else (o.ofInt 0, num)

/-- The digits behind a point, which has to be followed by one; scale is counted down. -/
def readFraction (n : D) (num : List Byte) : D × D × List Byte :=
  if peek num = ch '.' && isDigit (peek (num.drop 1)) then
    let num := num.drop 1
    (readDigits o n num,
      (num.takeWhile isDigit).foldl (fun scale _ => o.sub scale (o.ofInt 1)) (o.ofInt 0),
      num.dropWhile isDigit)
  else (n, o.ofInt 0, num)

def readExponent (num : List Byte) : Int × List Byte :=
  if peek num = ch 'e' ∨ peek num = ch 'E' then
    let num := num.drop 1
    let (signsubscale, num) : Int × List Byte :=
      if peek num = ch '+' then (1, num.drop 1)
      else if peek num = ch '-' then (-1, num.drop 1)
      else (1, num)
    let subscale := (num.takeWhile isDigit).foldl
      (fun subscale c => wrapInt (subscale * 10 + ((c.toNat : Int) - 48))) 0
    (wrapInt (subscale * signsubscale), num.dropWhile isDigit)
  else (0, num)

def parseNumber (item : Fields D) (num : List Byte) : Fields D × List Byte :=
  let (sign, num) := readSign o num
  let (n, num) := readWhole o num
  let (n, scale, num) := readFraction o n num
  let (exponent, num) := readExponent num
  let n := o.mul (o.mul sign n) (o.pow (o.ofInt 10) (o.add scale (o.ofInt exponent)))
  ({ item with valuedouble := n, valueint := o.toInt n, kind := .number }, num)

end Numbers

def newItem : Fields D := ⟨.false, false, none, 0, o.ofInt 0, none⟩

/-- An array or object behind its opening bracket, given the parsing of what stands up to the
    closing one. -/
def parseBracketed (kind : Kind) (close : Byte) (chain : List Byte → Parsed (CJson D)) (item : Fields D)
    (value : List Byte) : Parsed (Fields D × CJson D) :=
  let item := { item with kind := kind }
  let value := skip (value.drop 1)
  if peek value = close then .ok (item, .nil) (value.drop 1)
  else (chain value).andThen fun child value =>
    if peek value = close then .ok (item, child) (value.drop 1) else .fail value

def parseArray (elements : List Byte → Parsed (CJson D)) : Fields D → List Byte → Parsed (Fields D × CJson D) :=
  parseBracketed .array (ch ']') elements

def parseObject (members : List Byte → Parsed (CJson D)) : Fields D → List Byte → Parsed (Fields D × CJson D) :=
  parseBracketed .object (ch '}') members

mutual

def parseValue : Nat → Fields D → List Byte → Parsed (Fields D × CJson D)
  | 0, _, _ => .spent
  | fuel + 1, item, value =>
      if (text ['n', 'u', 'l', 'l']).isPrefixOf value then .ok ({ item with kind := .null }, .nil) (value.drop 4)
      else if (text ['f', 'a', 'l', 's', 'e']).isPrefixOf value then
        .ok ({ item with kind := .false }, .nil) (value.drop 5)
      else if (text ['t', 'r', 'u', 'e']).isPrefixOf value then
        .ok ({ item with kind := .true, valueint := 1 }, .nil) (value.drop 4)
      else if peek value = ch '"' then (parseString item value).andThen fun item rest => .ok (item, .nil) rest
      else if peek value = ch '-' || isDigit (peek value) then
        let (item, rest) := parseNumber o item value
        .ok (item, .nil) rest
      else if peek value = ch '[' then parseArray (parseElements fuel) item value
      else if peek value = ch '{' then parseObject (parseMembers fuel) item value
      else .fail value

def parseElements : Nat → List Byte → Parsed (CJson D)
  | 0, _ => .spent
  | fuel + 1, value =>
      (parseValue fuel (newItem o) (skip value)).andThen fun (item, child) rest =>
        let value := skip rest
        if peek value = ch ',' then
          (parseElements fuel (value.drop 1)).andThen fun next rest => .ok (.node item child next) rest
        else .ok (.node item child .nil) value

def parseMembers : Nat → List Byte → Parsed (CJson D)
  | 0, _ => .spent
  | fuel + 1, value =>
      (parseString (newItem o) (skip value)).andThen fun item rest =>
        let item := { item with string := item.valuestring, valuestring := none }
        let value := skip rest
        if peek value ≠ ch ':' then .fail value
        else
          (parseValue fuel item (skip (value.drop 1))).andThen fun (item, child) rest =>
            let value := skip rest
            if peek value = ch ',' then
              (parseMembers fuel (value.drop 1)).andThen fun next rest => .ok (.node item child next) rest
            else .ok (.node item child .nil) value

end

/-- The root item has no sibling. Each level takes two calls. -/
def cJsonParseWithOpts (value : List Byte) (requireNullTerminated : Bool) : Parsed (CJson D) :=
  (parseValue o (2 * (skip value).length + 1) (newItem o) (skip value)).andThen fun (item, child) ended =>
    if requireNullTerminated then
      if peek (skip ended) ≠ 0 then .fail (skip ended) else .ok (.node item child .nil) (skip ended)
    else .ok (.node item child .nil) ended

end TestSource.Json
