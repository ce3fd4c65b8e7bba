import TestSource.QrVersion

/- split.c of qrencode-3.4.4: a string is cut into entries of the modes that take fewest bits. A
   string is the list of its bytes before the NUL. -/
namespace TestSource.Qr
open BitString

section Split

def isalnum (c : Byte) : Bool := 0 ≤ lookAnTable c

def current (p : List Byte) : Byte := p.headD 0

def identifyMode (hint : QRencodeMode) : List Byte → QRencodeMode
  | [] => .nul
  | c :: rest =>
      if c = 0 then .nul
      else if isdigit c then .num
      else if isalnum c then .an
      else if hint = .kanji && current rest ≠ 0 && isKanji (pairOf c (current rest)) then .kanji
      else .eight

/-- QRinput_append of the first bytes of a string; none is the -1. -/
def append (mode : QRencodeMode) (run : Nat) (string : List Byte) : Option Entry :=
  if check mode (string.take run) then some ⟨mode, string.take run⟩ else none

def upper (c : Byte) : Byte := if 0x61 ≤ c ∧ c ≤ 0x7a then c - 32 else c

def dupAndToUpper (hint : QRencodeMode) : List Byte → List Byte
  | c :: d :: rest =>
      if identifyMode hint (c :: d :: rest) = .kanji then c :: d :: dupAndToUpper hint rest
      else upper c :: dupAndToUpper hint (d :: rest)
  | [c] => [upper c]
  | [] => []

end Split

section Eat
variable {hint : QRencodeMode} {version : Nat}

end Eat

/-- The text of the entries: the string, in capitals if the case does not matter. -/
def textOf (string : List Byte) (hint : QRencodeMode) (casesensitive : Bool) : List Byte :=
  if casesensitive then string else dupAndToUpper hint string

end TestSource.Qr
