import TestSource.Numeral
import TestSource.Recorded
import Mathlib.Data.List.Basic

/- The parsers of the two copies of download.c: the url, the status line and the content
   length. Every copy into a buffer is recorded. -/
namespace TestSource.Http
open Download hiding agentParseHttpRetcode agentParseHttpContentLength
open Occurs

structure Copy where
  size : Nat
  len : Int
  deriving DecidableEq, Repr

/-- There is room for a NUL behind the copied bytes. -/
def Copy.Fits (c : Copy) : Prop := 0 ≤ c.len ∧ c.len < c.size

instance (c : Copy) : Decidable c.Fits := inferInstanceAs (Decidable (_ ∧ _))

def memcpy (size : Nat) (src : List Byte) (len : Int) : Recorded Copy (List Byte) :=
  Recorded.record ⟨size, len⟩ (if (Copy.mk size len).Fits then some (src.take len.toNat) else none)

def slash : Byte := 47
def colon : Byte := 58
def scheme : List Byte := ascii ['h', 't', 't', 'p', ':', '/', '/']

def strchr (s : List Byte) (c : Byte) : Option Nat := (s.takeWhile (· ≠ 0)).findIdx? (· = c)

structure UrlParts where
  domain : List Byte
  hostIp : BitVec 32
  hostPort : BitVec 16
  offset : Nat

def snprintf (old : List Byte) (len : Nat) (s : List Byte) : List Byte :=
  if len = 0 then old else s.take (len - 1)

/-- The port is cut to a short. -/
def splitPort (z : WordSize) (buf : List Byte) : BitVec 16 × List Byte :=
  match strchr buf colon with
  | none => (80, buf)
  | some pos2 => (BitVec.ofInt 16 (atoi z (buf.drop (pos2 + 1))), buf.take pos2)

def parseUrl (z : WordSize) (gethostbyname : List Byte → BitVec 32) (url : List Byte)
    (domainLen : Nat) (out : UrlParts) : Recorded Copy (Int × UrlParts) :=
  if !scheme.isPrefixOf url then pure (-1, out)
  else
    let pos1 := url.drop 7
    match strchr pos1 slash with
    | none => pure (-1, out)
    | some pos2 => do
        let buf ← memcpy 64 pos1 pos2
        let (hostPort, buf) := splitPort z buf
        let hostIp := gethostbyname buf
        pure (if hostIp = 0 then -2 else 0, ⟨snprintf out.domain domainLen buf, hostIp, hostPort, 7 + pos2⟩)

def agentParseUrl (z : WordSize) (agentGethostbyname : List Byte → BitVec 32) :=
  parseUrl z agentGethostbyname

def httpParseUrl (z : WordSize) (httpGethostbyname : List Byte → BitVec 32) :=
  parseUrl z httpGethostbyname

/-- The line is searched for one code after the other. -/
def agentCode (line : List Byte) : Int :=
  if (find (ascii ['2', '0', '0']) line).isSome then 200
  else if (find (ascii ['4', '0', '4']) line).isSome then 404
  else if (find (ascii ['3', '0', '2']) line).isSome ∨ (find (ascii ['3', '0', '1']) line).isSome then 302
  else -1

def httpCode (line : List Byte) : Int :=
  if (find (ascii ['2', '0', '0']) line).isSome then 200
  else if (find (ascii ['4', '0', '4']) line).isSome then 404
  else if (find (ascii ['3', '0', '2']) line).isSome ∨ (find (ascii ['3', '0', '1']) line).isSome then 302
  else if (find (ascii ['2', '0', '1']) line).isSome then 201
  else -1

def parseHttpRetcode (code : List Byte → Int) (recvbuf : List Byte) : Recorded Copy Int :=
  match strstr recvbuf crlf with
  | none => pure (-1)
  | some pos => do
      let line ← memcpy 128 recvbuf pos
      pure (code line)

def agentParseHttpRetcode : List Byte → Recorded Copy Int := parseHttpRetcode agentCode

def httpParseHttpRetcode : List Byte → Recorded Copy Int := parseHttpRetcode httpCode

def parseHttpContentLength (z : WordSize) (recvbuf : List Byte) : Recorded Copy Int :=
  match strstr recvbuf contentLength with
  | none => pure (-1)
  | some pos =>
      match strstr (recvbuf.drop pos) crlf with
      | none => pure (-1)
      | some pos2 => do
          let lenBuf ← memcpy 20 (recvbuf.drop (pos + 16)) (pos2 - 16)
          pure (atoi z lenBuf)

def agentParseHttpContentLength : WordSize → List Byte → Recorded Copy Int := parseHttpContentLength

def httpParseHttpContentLength : WordSize → List Byte → Recorded Copy Int := parseHttpContentLength

section Copies
open Recorded hiding pure bind
variable {size : Nat} {src : List Byte} {len : Int}

theorem memcpy_fits (fits : 0 ≤ len ∧ len < size) :
    Gives Copy.Fits (memcpy size src len) (src.take len.toNat) := by
  have room : (Copy.mk size len).Fits := fits
  rw [memcpy, if_pos room]
  exact gives_record _ room

theorem memcpy_then {α : Type} {f : List Byte → Recorded Copy α}
    (rest : ∀ copied, Holds Copy.Fits (f copied)) :
    Holds Copy.Fits (memcpy size src len >>= f) ↔ 0 ≤ len ∧ len < size := by
  rw [holds_bind]
  constructor
  · rintro ⟨copy, _⟩
    exact (holds_record (Copy.mk size len) _).mp copy
  · intro fits
    exact ⟨(holds_record (Copy.mk size len) _).mpr fits, fun copied _ => rest copied⟩

theorem memcpy_overflows (outside : ¬(0 ≤ len ∧ len < size)) : (memcpy size src len).value = none := by
  have room : ¬(Copy.mk size len).Fits := outside
  rw [memcpy, if_neg room]
  rfl

/-- Where the copies fit, the values are those of the parsers of the download. -/
theorem retcode_value (recvbuf : List Byte) :
    (agentParseHttpRetcode recvbuf).value = (Download.agentParseHttpRetcode recvbuf).toOption := by
  unfold agentParseHttpRetcode parseHttpRetcode Download.agentParseHttpRetcode
  cases strstr recvbuf crlf with
  | none => rfl
  | some pos =>
    dsimp only
    by_cases fits : pos < 128
    · rw [value_bind, (memcpy_fits (by omega)).value, if_neg (by omega), Option.bind_some,
        Int.toNat_natCast]
      unfold agentCode
      split_ifs <;> rfl
    · rw [value_bind, memcpy_overflows (by omega), if_pos (by omega)]
      rfl

theorem content_length_value (z : WordSize) (recvbuf : List Byte) :
    (agentParseHttpContentLength z recvbuf).value =
      (Download.agentParseHttpContentLength z recvbuf).toOption := by
  unfold agentParseHttpContentLength parseHttpContentLength Download.agentParseHttpContentLength
  cases strstr recvbuf contentLength with
  | none => rfl
  | some pos =>
    dsimp only
    cases strstr (recvbuf.drop pos) crlf with
    | none => rfl
    | some pos2 =>
      dsimp only
      by_cases fits : 16 ≤ pos2 ∧ pos2 < 36
      · have copied : ((pos2 : Int) - 16).toNat = pos2 - 16 := by omega
        rw [value_bind, (memcpy_fits (by omega)).value, if_neg (by omega), Option.bind_some, copied]
        rfl
      · rw [value_bind, memcpy_overflows (by omega), if_pos (by omega)]
        rfl

/-- No line end, or the first one within 128 bytes. -/
def LineFits (recvbuf : List Byte) : Prop := ∀ pos, strstr recvbuf crlf = some pos → pos < 128

/-- From the header field's name to the end of its line there are 16 to 35 bytes. -/
def ContentLengthFits (recvbuf : List Byte) : Prop :=
  ∀ pos pos2, strstr recvbuf contentLength = some pos → strstr (recvbuf.drop pos) crlf = some pos2 →
    16 ≤ pos2 ∧ pos2 < 36

theorem retcode_fits_iff (code : List Byte → Int) (recvbuf : List Byte) :
    Holds Copy.Fits (parseHttpRetcode code recvbuf) ↔ LineFits recvbuf := by
  unfold parseHttpRetcode LineFits
  cases strstr recvbuf crlf with
  | none => simp
  | some pos =>
    simp only [Option.some.injEq, forall_eq']
    rw [memcpy_then fun line => holds_pure _]
    omega

theorem content_length_fits_iff (z : WordSize) (recvbuf : List Byte) :
    Holds Copy.Fits (parseHttpContentLength z recvbuf) ↔ ContentLengthFits recvbuf := by
  unfold parseHttpContentLength ContentLengthFits
  cases strstr recvbuf contentLength with
  | none => simp
  | some pos =>
    simp only [Option.some.injEq]
    cases found : strstr (recvbuf.drop pos) crlf with
    | none =>
      refine iff_of_true (holds_pure _) ?_
      rintro pos pos2 rfl line
      rw [found] at line
      cases line
    | some pos2 =>
      dsimp only
      rw [memcpy_then fun lenBuf => holds_pure _]
      constructor
      · rintro fits pos pos3 rfl line
        rw [found] at line
        cases line
        omega
      · intro fits
        have room := fits pos pos2 rfl found
        omega

theorem strchr_absent {s : List Byte} {c : Byte} (absent : c ∉ s) : strchr s c = none := by
  apply findIdx_absent
  intro mem
  exact absent ((List.takeWhile_sublist _).mem mem)

theorem strchr_first {a : List Byte} {c : Byte} (plain : 0 ∉ a) (absent : c ∉ a) (nonzero : c ≠ 0)
    (l : List Byte) : strchr (a ++ c :: l) c = some a.length := by
  have here : (c :: l).takeWhile (· ≠ 0) = c :: l.takeWhile (· ≠ 0) :=
    List.takeWhile_cons_of_pos (decide_eq_true nonzero)
  rw [strchr, takeWhile_until plain, here, findIdx_first absent]

end Copies

section Urls
open Recorded hiding pure bind
variable (z : WordSize) (gethostbyname : List Byte → BitVec 32) (domainLen : Nat) (out : UrlParts)

theorem parseUrl_refused {url : List Byte} (refused : ¬scheme <+: url ∨ slash ∉ url.drop 7) :
    parseUrl z gethostbyname url domainLen out = pure (-1, out) := by
  unfold parseUrl
  split
  · rfl
  · rename_i named
    rcases refused with other | absent
    · rw [← List.isPrefixOf_iff_prefix] at other
      simp [other] at named
    · dsimp only
      rw [strchr_absent absent]

theorem parseUrl_named {authority : List Byte} (plain : 0 ∉ authority) (absent : slash ∉ authority)
    (rest : List Byte) :
    parseUrl z gethostbyname (scheme ++ (authority ++ slash :: rest)) domainLen out =
      memcpy 64 (authority ++ slash :: rest) authority.length >>= fun buf =>
        let (hostPort, buf) := splitPort z buf
        let hostIp := gethostbyname buf
        pure (if hostIp = 0 then -2 else 0,
          ⟨snprintf out.domain domainLen buf, hostIp, hostPort, 7 + authority.length⟩) := by
  have named : scheme.isPrefixOf (scheme ++ (authority ++ slash :: rest)) = true :=
    List.isPrefixOf_iff_prefix.mpr (List.prefix_append _ _)
  have behind : (scheme ++ (authority ++ slash :: rest)).drop 7 = authority ++ slash :: rest := rfl
  unfold parseUrl
  rw [named, if_neg (by decide), behind]
  dsimp only
  rw [strchr_first plain absent (by decide)]

theorem url_cases (url : List Byte) :
    (∃ authority rest, url = scheme ++ (authority ++ slash :: rest) ∧ slash ∉ authority) ∨
      ¬scheme <+: url ∨ slash ∉ url.drop 7 := by
  by_cases named : scheme <+: url
  · obtain ⟨behind, rfl⟩ := named
    by_cases cut : slash ∈ behind
    · obtain ⟨authority, rest, rfl, absent⟩ := List.eq_append_cons_of_mem cut
      exact .inl ⟨authority, rest, rfl, absent⟩
    · exact .inr (.inr cut)
  · exact .inr (.inl named)

/-- A url that is not refused has at most 63 bytes between the scheme and the next slash. -/
def UrlFits (url : List Byte) : Prop :=
  scheme <+: url → slash ∈ url.drop 7 → ((url.drop 7).takeWhile (· ≠ slash)).length ≤ 63

theorem url_fits_iff {url : List Byte} (plain : 0 ∉ url) :
    Holds Copy.Fits (parseUrl z gethostbyname url domainLen out) ↔ UrlFits url := by
  rcases url_cases url with ⟨authority, rest, rfl, absent⟩ | refused
  · have text : 0 ∉ authority := fun mem =>
      plain (List.mem_append_right scheme (List.mem_append_left (slash :: rest) mem))
    have named : scheme <+: scheme ++ (authority ++ slash :: rest) := List.prefix_append _ _
    have behind : (scheme ++ (authority ++ slash :: rest)).drop 7 = authority ++ slash :: rest := rfl
    have before : (authority ++ slash :: rest).takeWhile (· ≠ slash) = authority := by
      rw [takeWhile_until absent, List.takeWhile_cons_of_neg (by simp), List.append_nil]
    have cut : slash ∈ authority ++ slash :: rest := List.mem_append_right _ List.mem_cons_self
    rw [parseUrl_named z gethostbyname domainLen out text absent, memcpy_then fun buf => holds_pure _,
      UrlFits, behind, before]
    simp only [named, cut, true_imp_iff]
    omega
  · rw [parseUrl_refused z gethostbyname domainLen out refused]
    refine iff_of_true (holds_pure _) ?_
    intro named cut
    rcases refused with other | absent
    · exact absurd named other
    · exact absurd cut absent

structure HttpUrl where
  host : List Byte
  port : Option (List Byte)
  rest : List Byte
  host_plain : 0 ∉ host ∧ colon ∉ host ∧ slash ∉ host
  port_decimal : ∀ p ∈ port, p ≠ [] ∧ (∀ b ∈ p, isDigit b = true) ∧ number p ≤ 65535
  short : (host ++ (port.map fun p => colon :: p).getD []).length ≤ 63

def HttpUrl.authority (u : HttpUrl) : List Byte := u.host ++ (u.port.map fun p => colon :: p).getD []

def HttpUrl.text (u : HttpUrl) : List Byte := scheme ++ (u.authority ++ slash :: u.rest)

def HttpUrl.portNumber (u : HttpUrl) : Nat := (u.port.map number).getD 80

theorem digits_plain {p : List Byte} (digits : ∀ b ∈ p, isDigit b = true) {c : Byte}
    (other : isDigit c = false) : c ∉ p := by
  intro mem
  rw [digits c mem] at other
  cases other

theorem authority_plain (u : HttpUrl) {c : Byte} (host : c ∉ u.host) (digit : isDigit c = false)
    (other : c ≠ colon) : c ∉ u.authority := by
  intro mem
  rcases List.mem_append.mp mem with inside | behind
  · exact host inside
  · cases given : u.port with
    | none =>
      rw [given] at behind
      cases behind
    | some p =>
      rw [given] at behind
      rcases List.mem_cons.mp behind with same | later
      · exact other same
      · exact digits_plain (u.port_decimal p given).2.1 digit later

theorem splitPort_authority (u : HttpUrl) :
    (splitPort z u.authority).1.toNat = u.portNumber ∧ (splitPort z u.authority).2 = u.host := by
  cases given : u.port with
  | none =>
    have whole : u.authority = u.host := by
      rw [HttpUrl.authority, given]
      exact List.append_nil _
    rw [whole, splitPort, strchr_absent u.host_plain.2.1, HttpUrl.portNumber, given]
    exact ⟨rfl, rfl⟩
  | some p =>
    obtain ⟨_, digits, bound⟩ := u.port_decimal p given
    have parts : u.authority = u.host ++ colon :: p := by
      rw [HttpUrl.authority, given]
      rfl
    rw [parts, splitPort, strchr_first u.host_plain.1 u.host_plain.2.1 (by decide)]
    dsimp only
    rw [List.take_left, ← List.drop_drop, List.drop_left, List.drop_one, List.tail_cons,
      atoi_digits z digits (by omega), BitVec.ofInt_natCast, BitVec.toNat_ofNat, HttpUrl.portNumber, given]
    exact ⟨Nat.mod_eq_of_lt (by omega), rfl⟩

theorem parseUrl_text (room : 64 ≤ domainLen) (u : HttpUrl) : ∃ parts : UrlParts,
    Gives Copy.Fits (parseUrl z gethostbyname u.text domainLen out)
      (if gethostbyname u.host = 0 then -2 else 0, parts) ∧
    parts.domain = u.host ∧ parts.hostPort.toNat = u.portNumber ∧
    u.text.drop parts.offset = slash :: u.rest := by
  have short : u.authority.length ≤ 63 := u.short
  have port := splitPort_authority z u
  have fits : u.host.length ≤ u.authority.length := by
    rw [HttpUrl.authority, List.length_append]
    omega
  have domain : snprintf out.domain domainLen u.host = u.host := by
    rw [snprintf, if_neg (by omega), List.take_of_length_le (by omega)]
  refine ⟨⟨u.host, gethostbyname u.host, (splitPort z u.authority).1, 7 + u.authority.length⟩, ?_, rfl,
    port.1, ?_⟩
  · rw [HttpUrl.text, parseUrl_named z gethostbyname domainLen out
      (authority_plain u u.host_plain.1 (by decide) (by decide))
      (authority_plain u u.host_plain.2.2 (by decide) (by decide))]
    apply gives_bind (memcpy_fits (by omega))
    rw [Int.toNat_natCast, List.take_left]
    dsimp only
    rw [port.2, domain]
    exact gives_pure _
  · rw [← List.drop_drop]
    exact List.drop_left

theorem url_is_split (room : 64 ≤ domainLen) :
    (∀ u : HttpUrl, ∃ parts : UrlParts,
      Gives Copy.Fits (agentParseUrl z gethostbyname u.text domainLen out)
        (if gethostbyname u.host = 0 then -2 else 0, parts) ∧
      parts.domain = u.host ∧ parts.hostPort.toNat = u.portNumber ∧
      u.text.drop parts.offset = slash :: u.rest) ∧
    ∀ url : List Byte, (¬scheme <+: url ∨ slash ∉ url.drop 7) →
      (agentParseUrl z gethostbyname url domainLen out).value = some (-1, out) := by
  constructor
  · exact parseUrl_text z gethostbyname domainLen out room
  · intro url refused
    rw [agentParseUrl, parseUrl_refused z gethostbyname domainLen out refused]
    rfl

end Urls

theorem high_port_is_kept : ∃ parts : UrlParts,
    Recorded.Gives Copy.Fits
      (agentParseUrl .bits32 (fun _ => 0)
        (scheme ++ ascii ['a', '.', 'b', ':', '6', '5', '5', '3', '5', '/', 'x', ':', '/', 'y'])
        64 ⟨[], 0, 0, 0⟩) (-2, parts) ∧
    parts.domain = ascii ['a', '.', 'b'] ∧ parts.hostPort.toNat = 65535 := by
  let url : HttpUrl := ⟨ascii ['a', '.', 'b'], some (ascii ['6', '5', '5', '3', '5']),
    ascii ['x', ':', '/', 'y'], by decide, by rintro p ⟨⟩; decide, by decide⟩
  obtain ⟨parts, gives, domain, port, _⟩ :=
    (url_is_split .bits32 (fun _ => 0) 64 ⟨[], 0, 0, 0⟩ (by decide)).1 url
  exact ⟨parts, gives, domain, port⟩

section Fits
open Recorded hiding pure bind

/-- When the copies of the parsers fit. -/
theorem copies_fit_iff (z : WordSize) (gethostbyname : List Byte → BitVec 32) (domainLen : Nat)
    (out : UrlParts) {url : List Byte} (plain : 0 ∉ url) (recvbuf : List Byte) :
    (Holds Copy.Fits (agentParseUrl z gethostbyname url domainLen out) ↔ UrlFits url) ∧
    (Holds Copy.Fits (httpParseUrl z gethostbyname url domainLen out) ↔ UrlFits url) ∧
    (Holds Copy.Fits (agentParseHttpRetcode recvbuf) ↔ LineFits recvbuf) ∧
    (Holds Copy.Fits (httpParseHttpRetcode recvbuf) ↔ LineFits recvbuf) ∧
    (Holds Copy.Fits (agentParseHttpContentLength z recvbuf) ↔ ContentLengthFits recvbuf) ∧
    (Holds Copy.Fits (httpParseHttpContentLength z recvbuf) ↔ ContentLengthFits recvbuf) :=
  ⟨url_fits_iff z gethostbyname domainLen out plain, url_fits_iff z gethostbyname domainLen out plain,
    retcode_fits_iff agentCode recvbuf, retcode_fits_iff httpCode recvbuf,
    content_length_fits_iff z recvbuf, content_length_fits_iff z recvbuf⟩

theorem short_texts_fit :
    Holds Copy.Fits (agentParseUrl .bits32 (fun _ => 1) (scheme ++ ascii ['h', '/']) 64 ⟨[], 0, 0, 0⟩) ∧
    Holds Copy.Fits (httpParseHttpContentLength .bits32 (contentLength ++ ascii [' ', '7'] ++ crlf)) := by
  have plain : 0 ∉ scheme ++ ascii ['h', '/'] := by decide
  have fits := copies_fit_iff .bits32 (fun _ => 1) 64 ⟨[], 0, 0, 0⟩ plain
    (contentLength ++ ascii [' ', '7'] ++ crlf)
  constructor
  · exact fits.1.mpr fun _ _ => by decide
  · apply fits.2.2.2.2.2.mpr
    intro pos pos2 name line
    have start : strstr (contentLength ++ ascii [' ', '7'] ++ crlf) contentLength = some 0 := by
      decide +kernel
    rw [start] at name
    cases name
    have stop : strstr ((contentLength ++ ascii [' ', '7'] ++ crlf).drop 0) crlf = some 17 := by
      decide +kernel
    rw [stop] at line
    cases line
    decide

theorem long_texts_overflow :
    ¬Holds Copy.Fits (agentParseHttpContentLength .bits32 (contentLength ++ crlf)) ∧
    ¬Holds Copy.Fits (agentParseHttpContentLength .bits32
      (contentLength ++ ascii [' '] ++ List.replicate 21 49 ++ crlf)) ∧
    ¬Holds Copy.Fits (agentParseHttpRetcode (List.replicate 128 65 ++ crlf)) ∧
    ¬Holds Copy.Fits (agentParseUrl .bits32 (fun _ => 1)
      (scheme ++ List.replicate 64 97 ++ [slash]) 64 ⟨[], 0, 0, 0⟩) := by
  refine ⟨?_, ?_, ?_, ?_⟩
  · intro fits
    exact absurd (fits ⟨20, -1⟩ (by decide +kernel)) (by decide)
  · intro fits
    exact absurd (fits ⟨20, 21⟩ (by decide +kernel)) (by decide)
  · intro fits
    exact absurd (fits ⟨128, 128⟩ (by decide +kernel)) (by decide)
  · intro fits
    exact absurd (fits ⟨64, 64⟩ (by decide +kernel)) (by decide)

end Fits

section Status
open Recorded hiding pure bind

/-- The texts that are looked for, in the order of the code, with what is returned for them. -/
def agentCodes : List (List (List Byte) × Int) :=
  [([ascii ['2', '0', '0']], 200), ([ascii ['4', '0', '4']], 404),
    ([ascii ['3', '0', '2'], ascii ['3', '0', '1']], 302)]

def httpCodes : List (List (List Byte) × Int) := agentCodes ++ [([ascii ['2', '0', '1']], 201)]

def firstCode (occurs : List Byte → Bool) : List (List (List Byte) × Int) → Int
  | [] => -1
  | (texts, code) :: codes => if texts.any occurs then code else firstCode occurs codes

theorem agentCode_first (line : List Byte) :
    agentCode line = firstCode (fun text => (find text line).isSome) agentCodes := by
  simp [agentCode, firstCode, agentCodes]

theorem httpCode_first (line : List Byte) :
    httpCode line = firstCode (fun text => (find text line).isSome) httpCodes := by
  simp [httpCode, firstCode, httpCodes, agentCodes]

def codeOf (codes : List (List (List Byte) × Int)) (status : List Byte) : Int :=
  firstCode (fun text => text = status) codes

/-- The texts that are looked for before those with the code of a status. -/
def triedBefore (status : List Byte) : List (List (List Byte) × Int) → List (List Byte)
  | [] => []
  | (texts, _) :: codes => if status ∈ texts then [] else texts ++ triedBefore status codes

def Distinct : List (List (List Byte) × Int) → Prop
  | [] => True
  | (_, code) :: codes => code ≠ -1 ∧ (∀ other ∈ codes, other.2 ≠ code) ∧ Distinct codes

theorem firstCode_ne {codes : List (List (List Byte) × Int)} {code : Int} (found : code ≠ -1)
    (others : ∀ other ∈ codes, other.2 ≠ code) (occurs : List Byte → Bool) :
    firstCode occurs codes ≠ code := by
  induction codes with
  | nil => exact found.symm
  | cons entry codes ih =>
    rw [firstCode]
    split
    · exact others entry List.mem_cons_self
    · exact ih fun other mem => others other (List.mem_cons_of_mem entry mem)

/-- A search that also finds other texts gives the code of the status exactly when it finds none
    of those that it tries before. -/
theorem firstCode_iff {codes : List (List (List Byte) × Int)} (distinct : Distinct codes)
    (status : List Byte) (elsewhere : List Byte → Bool) :
    firstCode (fun text => text = status || elsewhere text) codes = codeOf codes status ↔
      ∀ text ∈ triedBefore status codes, elsewhere text = false := by
  induction codes with
  | nil => exact iff_of_true rfl fun text mem => absurd mem List.not_mem_nil
  | cons entry codes ih =>
    obtain ⟨texts, code⟩ := entry
    obtain ⟨found, others, rest⟩ := distinct
    by_cases own : status ∈ texts
    · have field : texts.any (fun text => decide (text = status)) = true :=
        List.any_eq_true.mpr ⟨status, own, decide_eq_true rfl⟩
      have searched : texts.any (fun text => decide (text = status) || elsewhere text) = true :=
        List.any_eq_true.mpr ⟨status, own, by simp⟩
      rw [triedBefore, if_pos own, codeOf, firstCode, firstCode, field, searched]
      simp
    · have field : texts.any (fun text => decide (text = status)) = false := by
        rw [List.any_eq_false]
        intro text mem same
        exact own (of_decide_eq_true same ▸ mem)
      rw [triedBefore, if_neg own, List.forall_mem_append, codeOf, firstCode, firstCode, field,
        if_neg Bool.false_ne_true]
      split
      · rename_i misled
        obtain ⟨text, mem, here⟩ := List.any_eq_true.mp misled
        have other : elsewhere text = true := by
          rcases Bool.or_eq_true _ _ ▸ here with same | other
          · exact absurd (of_decide_eq_true same ▸ mem) own
          · exact other
        refine iff_of_false (firstCode_ne found others _).symm ?_
        rintro ⟨none, _⟩
        rw [none text mem] at other
        cases other
      · rename_i clear
        have none : ∀ text ∈ texts, elsewhere text = false := by
          intro text mem
          rw [Bool.eq_false_iff]
          intro here
          exact clear (List.any_eq_true.mpr ⟨text, mem, by rw [here, Bool.or_true]⟩)
        rw [← codeOf, ih rest]
        exact ⟨fun later => ⟨none, later⟩, fun both => both.2⟩

theorem firstCode_congr {codes : List (List (List Byte) × Int)} {occurs other : List Byte → Bool}
    (same : ∀ entry ∈ codes, ∀ text ∈ entry.1, occurs text = other text) :
    firstCode occurs codes = firstCode other codes := by
  induction codes with
  | nil => rfl
  | cons entry codes ih =>
    have first : entry.1.any occurs = entry.1.any other := by
      rw [Bool.eq_iff_iff, List.any_eq_true, List.any_eq_true]
      exact exists_congr fun text => and_congr_right fun mem => by
        rw [same entry List.mem_cons_self text mem]
    rw [firstCode, firstCode, first, ih fun e mem => same e (List.mem_cons_of_mem entry mem)]

/-- HTTP/x.y ddd reason -/
structure StatusLine where
  major : Byte
  minor : Byte
  d0 : Byte
  d1 : Byte
  d2 : Byte
  reason : List Byte
  digits : ∀ b ∈ [major, minor, d0, d1, d2], isDigit b = true
  reason_plain : 0 ∉ reason
  one_line : find crlf reason = none
  short : reason.length < 115

def StatusLine.status (s : StatusLine) : List Byte := [s.d0, s.d1, s.d2]

def StatusLine.front (s : StatusLine) : List Byte :=
  ascii ['H', 'T', 'T', 'P', '/'] ++ [s.major, 46, s.minor, 32, s.d0, s.d1, s.d2, 32]

def StatusLine.line (s : StatusLine) : List Byte := s.front ++ s.reason

variable (s : StatusLine)

theorem digit_apart {t c : Byte} (digit : isDigit t = true) (other : isDigit c = false) :
    (t == c) = false := by
  rw [beq_eq_false_iff_ne]
  rintro rfl
  rw [digit] at other
  cases other

theorem digits_in_line {t0 t1 t2 : Byte} (digits : ∀ b ∈ [t0, t1, t2], isDigit b = true) :
    (find [t0, t1, t2] s.line).isSome =
      (decide ([t0, t1, t2] = s.status) || (find [t0, t1, t2] s.reason).isSome) := by
  have apart0 := fun c => digit_apart (c := c) (digits t0 (by simp))
  have apart1 := fun c => digit_apart (c := c) (digits t1 (by simp))
  have apart2 := fun c => digit_apart (c := c) (digits t2 (by simp))
  simp (disch := decide) only [StatusLine.line, StatusLine.front, ascii, List.map_cons, List.map_nil, List.cons_append,
    List.nil_append, find_cons, List.isPrefixOf_cons_cons, apart0, apart1, apart2, Bool.false_and,
    Bool.and_false, Bool.false_or, List.isPrefixOf_nil_left, Bool.and_true, StatusLine.status]
  congr 1
  rw [Bool.eq_iff_iff]
  simp

theorem front_absent {c : Byte} (digit : isDigit c = false)
    (other : c ∉ ascii ['H', 'T', 'P', '/', '.', ' ']) : c ∉ s.front := by
  have digits := s.digits
  have known : ∀ b ∈ s.front, isDigit b = true ∨ b ∈ ascii ['H', 'T', 'P', '/', '.', ' '] := by
    simp only [List.forall_mem_cons] at digits
    simp [StatusLine.front, ascii, digits]
  intro mem
  rcases known c mem with same | same
  · rw [digit] at same
    cases same
  · exact other same

theorem line_plain : 0 ∉ s.line := by
  intro mem
  rcases List.mem_append.mp mem with front | reason
  · exact front_absent s (by decide) (by decide) front
  · exact s.reason_plain reason

theorem line_length : s.line.length < 128 := by
  have short := s.short
  have front : s.front.length = 13 := rfl
  rw [StatusLine.line, List.length_append]
  omega

theorem line_one : find crlf s.line = none := by
  rw [crlf, StatusLine.line, find_behind (front_absent s (by decide) (by decide)), ← crlf, s.one_line]
  rfl

theorem find_crlf {line : List Byte} (one : find crlf line = none) :
    find crlf (line ++ crlf) = some line.length := by
  induction line with
  | nil => rfl
  | cons a line ih =>
    rw [find] at one
    split at one
    · cases one
    · rename_i absent
      have still : ¬crlf.isPrefixOf (a :: (line ++ crlf)) = true := by
        cases line with
        | nil =>
          rw [List.nil_append, crlf, List.isPrefixOf_cons_cons, List.isPrefixOf_cons_cons]
          simp
        | cons b line =>
          rw [crlf, List.isPrefixOf_cons_cons, List.isPrefixOf_cons_cons] at absent
          rw [crlf, List.cons_append, List.isPrefixOf_cons_cons, List.isPrefixOf_cons_cons]
          exact absent
      rw [List.cons_append, find, if_neg still, ih (Option.map_eq_none_iff.mp one)]
      rfl

theorem retcode_line (code : List Byte → Int) (tail : List Byte) :
    (parseHttpRetcode code (s.line ++ crlf ++ tail)).value = some (code s.line) := by
  have short := line_length s
  have plain : 0 ∉ s.line ++ crlf := by
    intro mem
    rcases List.mem_append.mp mem with line | stop
    · exact line_plain s line
    · exact absurd stop (by decide)
  rw [parseHttpRetcode, strstr_text plain (find_crlf (line_one s)) tail]
  dsimp only
  rw [value_bind, (memcpy_fits (by omega)).value, Int.toNat_natCast, List.append_assoc, List.take_left]
  rfl

/-- The search decides as the status does exactly when the reason has none of the texts that are
    looked for before. -/
theorem searched_iff {code : List Byte → Int} {codes : List (List (List Byte) × Int)}
    (searches : ∀ line, code line = firstCode (fun text => (find text line).isSome) codes)
    (distinct : Distinct codes)
    (numeric : ∀ entry ∈ codes, ∀ text ∈ entry.1, text.length = 3 ∧ ∀ b ∈ text, isDigit b = true)
    (tail : List Byte) :
    (parseHttpRetcode code (s.line ++ crlf ++ tail)).value = some (codeOf codes s.status) ↔
      ∀ text ∈ triedBefore s.status codes, find text s.reason = none := by
  have seen : code s.line =
      firstCode (fun text => text = s.status || (find text s.reason).isSome) codes := by
    rw [searches]
    apply firstCode_congr
    intro entry mem text inside
    obtain ⟨three, digits⟩ := numeric entry mem text inside
    obtain ⟨t0, t1, t2, rfl⟩ := List.length_eq_three.mp three
    exact digits_in_line s digits
  rw [retcode_line, Option.some.injEq, seen, firstCode_iff distinct]
  simp only [Option.isSome_eq_false_iff, Option.isNone_iff_eq_none]

theorem retcode_is_status_iff (tail : List Byte) :
    ((agentParseHttpRetcode (s.line ++ crlf ++ tail)).value = some (codeOf agentCodes s.status) ↔
      ∀ text ∈ triedBefore s.status agentCodes, find text s.reason = none) ∧
    ((httpParseHttpRetcode (s.line ++ crlf ++ tail)).value = some (codeOf httpCodes s.status) ↔
      ∀ text ∈ triedBefore s.status httpCodes, find text s.reason = none) := by
  constructor
  · exact searched_iff s agentCode_first (by simp [Distinct, agentCodes]) (by decide) tail
  · exact searched_iff s httpCode_first (by simp [Distinct, httpCodes, agentCodes]) (by decide) tail

end Status

/-- A missing page whose reason mentions 200 is taken for a page that is there. -/
theorem reason_decides : ∃ s : StatusLine,
    s.line = ascii ['H', 'T', 'T', 'P', '/', '1', '.', '1', ' ', '4', '0', '4', ' ', 'e', '2', '0', '0'] ∧
    (agentParseHttpRetcode (s.line ++ crlf)).value = some 200 ∧
    (httpParseHttpRetcode (s.line ++ crlf)).value = some 200 ∧
    codeOf agentCodes s.status = 404 ∧ codeOf httpCodes s.status = 404 :=
  ⟨⟨49, 49, 52, 48, 52, ascii ['e', '2', '0', '0'], by decide, by decide, by decide, by decide⟩,
    by decide, by decide +kernel, by decide +kernel, by decide, by decide⟩

end TestSource.Http
