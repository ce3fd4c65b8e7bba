import TestSource.Common
import TestSource.Splice
import TestSource.Occurs

/- download.c: fetching a file over HTTP. The memory from the start of the receive buffer on
   is one list that goes on behind the buffer up to the next NUL there, since strstr and
   printf read on where the buffer holds none. A fault is an access outside line, len_buf or
   the file's source, or a signed overflow. -/
namespace TestSource.Download
open Splice Occurs

def HTTP_RECV_BUF_SIZE : Nat := 1024 * 10

def crlf : List Byte := [13, 10]
def blankLine : List Byte := [13, 10, 13, 10]
def contentLength : List Byte :=
  ascii ['C', 'o', 'n', 't', 'e', 'n', 't', '-', 'L', 'e', 'n', 'g', 't', 'h', ':']

/-- Why a run has no result: it faults, or it has not ended yet. -/
inductive Stop where
  | fault
  | running
  deriving DecidableEq, Repr

def strstr (mem needle : List Byte) : Option Nat := find needle (mem.takeWhile (· ≠ 0))

/-- What one recv answers: up to n + 1 bytes of what has not been delivered, nothing once
    the stream has ended, or an error, for which errno may be EAGAIN. -/
inductive Answer where
  | upTo (n : Nat)
  | failed (again : Bool)

structure Net where
  stream : List Byte
  calls : Nat

section Receive
variable (answers : Nat → Answer) (found : Nat → List Byte → Bool)

def recv (net : Net) (len : Nat) : Except Bool (List Byte) × Net :=
  match answers net.calls with
  | .failed again => (.error again, ⟨net.stream, net.calls + 1⟩)
  | .upTo n =>
      let piece := net.stream.take (min len (n + 1))
      (.ok piece, ⟨net.stream.drop piece.length, net.calls + 1⟩)

/-- The loop of agent_tcp_recv, for any answers to its search for the blank line. -/
def recvLoop : Nat → Nat → Nat → List Byte → Net → Except Stop (Except Bool Nat × List Byte × Net)
  | 0, _, _, _, _ => .error .running
  | fuel + 1, hasRecv, remaining, buf, net =>
      if remaining = 0 then .ok (.ok hasRecv, buf, net)
      else
        match recv answers net remaining with
        | (.error again, net) => .ok (.error again, buf, net)
        | (.ok piece, net) =>
            if piece.length = 0 then .ok (.ok hasRecv, buf, net)
            else
              let buf := splice buf hasRecv piece
              let hasRecv := hasRecv + piece.length
              if found net.calls buf then .ok (.ok hasRecv, buf, net)
              else recvLoop fuel hasRecv (remaining - piece.length) buf net

def agentTcpRecv (buf : List Byte) (bufLen : Nat) (net : Net) :
    Except Stop (Except Bool Nat × List Byte × Net) :=
  recvLoop answers found (bufLen + 1) 0 bufLen buf net

def bodyLoop : Nat → Nat → List Byte → Net → List Byte → Except Stop (Int × List Byte)
  | 0, _, _, _, _ => .error .running
  | fuel + 1, restFileSize, recvBuf, net, updFile =>
      if restFileSize = 0 then .ok (0, updFile)
      else do
        let needRecvOneLoop :=
          if restFileSize ≥ HTTP_RECV_BUF_SIZE then HTTP_RECV_BUF_SIZE else restFileSize
        match ← agentTcpRecv answers found recvBuf needRecvOneLoop net with
        | (.error again, _, _) => .ok (if again then -1 else 0, updFile)
        | (.ok nbytes, recvBuf, net) =>
            bodyLoop fuel (restFileSize - nbytes) recvBuf net (updFile ++ recvBuf.take nbytes)

end Receive

def seesBlankLine (_call : Nat) (buf : List Byte) : Bool := (strstr buf blankLine).isSome

/-- A line of 128 bytes has no room for its NUL. -/
def agentParseHttpRetcode (recvbuf : List Byte) : Except Stop Int :=
  match strstr recvbuf crlf with
  | none => .ok (-1)
  | some pos =>
      if 128 ≤ pos then .error .fault
      else
        let line := recvbuf.take pos
        if (find (ascii ['2', '0', '0']) line).isSome then .ok 200
        else if (find (ascii ['4', '0', '4']) line).isSome then .ok 404
        else if (find (ascii ['3', '0', '2']) line).isSome ∨
            (find (ascii ['3', '0', '1']) line).isSome then .ok 302
        else .ok (-1)

def isSpace (b : Byte) : Bool := b = 32 || (9 ≤ b && b ≤ 13)

def isDigit (b : Byte) : Bool := 48 ≤ b && b ≤ 57

/-- strtol clamps to a long, and the long is cut to an int. -/
def atoi (z : WordSize) (s : List Byte) : Int :=
  let s := s.dropWhile isSpace
  let (negative, s) := match s with
    | 45 :: digits => (true, digits)
    | 43 :: digits => (false, digits)
    | digits => (false, digits)
  let n := (s.takeWhile isDigit).foldl (fun n b => n * 10 + (b.toNat - 48)) (0 : Nat)
  let n : Int := if negative then -n else n
  let limit : Int := Nat.pow 2 (z.bits - 1)
  toS32 (toU32 (max (-limit) (min (limit - 1) n)))

def agentParseHttpContentLength (z : WordSize) (recvbuf : List Byte) : Except Stop Int :=
  match strstr recvbuf contentLength with
  | none => .ok (-1)
  | some pos =>
      match strstr (recvbuf.drop pos) crlf with
      | none => .ok (-1)
      | some line =>
          -- 16 characters are skipped, and len_buf has room for 19 and a NUL
          if line < 16 ∨ 20 ≤ line - 16 then .error .fault
          else .ok (atoi z ((recvbuf.drop (pos + 16)).take (line - 16)))

structure Header where
  fileSize : Int
  headerEnd : Nat
  firstContentLen : Int

/-- From the status line to first_content_len; an error is the code that is returned. -/
def readHeader (z : WordSize) (opens : Bool) (firstRecvLen : Nat) (recvBuf : List Byte) :
    Except Stop (Except Int Header) := do
  let ret ← agentParseHttpRetcode recvBuf
  if ret = 404 then return .error (-404)
  else if ret ≠ 200 then return .error 0
  else if !opens then return .error 8
  else
    let fileSize ← agentParseHttpContentLength z recvBuf
    if fileSize = -1 then return .error 9
    else
      match strstr recvBuf blankLine with
      | none => return .error 10
      | some headerEnd =>
          return .ok ⟨fileSize, headerEnd, (firstRecvLen : Int) - headerEnd - 4⟩

/-- The download from the connected socket on. What comes before it either goes through or
    returns a code. The rounds of the body loop are bounded by `fuel`. -/
def agentHttpDownloadFile (z : WordSize) (answers : Nat → Answer) (early : Option Int)
    (opens : Bool) (recvBuf : List Byte) (stream : List Byte) (fuel : Nat) :
    Except Stop (Int × List Byte) :=
  match early with
  | some code => .ok (code, [])
  | none => do
      match ← agentTcpRecv answers seesBlankLine recvBuf HTTP_RECV_BUF_SIZE ⟨stream, 0⟩ with
      | (.error again, _, _) => .ok (if again then 7 else 6, [])
      | (.ok firstRecvLen, recvBuf, net) =>
          match ← readHeader z opens firstRecvLen recvBuf with
          | .error code => .ok (code, [])
          | .ok header =>
              -- a negative count is larger than any buffer once it is a size_t
              if header.firstContentLen < 0 then .error .fault
              else if header.fileSize - header.firstContentLen < -2147483648 then .error .fault
              else
                let first := (recvBuf.drop (header.headerEnd + 4)).take header.firstContentLen.toNat
                bodyLoop answers seesBlankLine fuel
                  (header.fileSize - header.firstContentLen).toNat recvBuf net first

/-- A recv that never fails and gives at least one byte as long as there is one. -/
def cuts (cut : Nat → Nat) (call : Nat) : Answer := .upTo (cut call)

def pieceLen (cut : Nat → Nat) (net : Net) (len : Nat) : Nat :=
  min (min len (cut net.calls + 1)) net.stream.length

section Pieces
variable {cut : Nat → Nat} {found : Nat → List Byte → Bool}

theorem pieceLen_le (cut : Nat → Nat) (net : Net) (len : Nat) : pieceLen cut net len ≤ len := by
  unfold pieceLen
  omega

theorem pieceLen_positive {net : Net} {len : Nat} (asked : len ≠ 0) (more : net.stream ≠ []) :
    0 < pieceLen cut net len := by
  have size := List.length_pos_iff.mpr more
  unfold pieceLen
  omega

theorem piece_length (cut : Nat → Nat) (net : Net) (len : Nat) :
    (net.stream.take (pieceLen cut net len)).length = pieceLen cut net len := by
  rw [List.length_take]
  unfold pieceLen
  omega

theorem recvLoop_step {fuel hasRecv remaining : Nat} {buf : List Byte} {net : Net}
    (more : remaining ≠ 0) (left : net.stream ≠ []) :
    recvLoop (cuts cut) found (fuel + 1) hasRecv remaining buf net =
      if found (net.calls + 1)
        (splice buf hasRecv (net.stream.take (pieceLen cut net remaining))) = true then
        .ok (.ok (hasRecv + pieceLen cut net remaining),
          splice buf hasRecv (net.stream.take (pieceLen cut net remaining)),
          ⟨net.stream.drop (pieceLen cut net remaining), net.calls + 1⟩)
      else recvLoop (cuts cut) found fuel (hasRecv + pieceLen cut net remaining)
        (remaining - pieceLen cut net remaining)
        (splice buf hasRecv (net.stream.take (pieceLen cut net remaining)))
        ⟨net.stream.drop (pieceLen cut net remaining), net.calls + 1⟩ := by
  have positive : 0 < pieceLen cut net remaining := pieceLen_positive more left
  have same : net.stream.take (min remaining (cut net.calls + 1)) =
      net.stream.take (pieceLen cut net remaining) := by
    rw [pieceLen, ← List.take_eq_take_min]
  rw [recvLoop, if_neg more]
  simp only [recv, cuts, same, piece_length, if_neg (by omega : ¬pieceLen cut net remaining = 0)]

theorem recvLoop_ended {fuel hasRecv remaining : Nat} {buf : List Byte} {net : Net}
    (nothing : remaining = 0 ∨ net.stream = []) : ∃ calls,
    recvLoop (cuts cut) found (fuel + 1) hasRecv remaining buf net =
      .ok (.ok hasRecv, buf, ⟨net.stream, calls⟩) := by
  by_cases done : remaining = 0
  · exact ⟨net.calls, by rw [recvLoop, if_pos done]⟩
  · have empty : net.stream = [] := by
      rcases nothing with zero | empty
      · contradiction
      · exact empty
    exact ⟨net.calls + 1, by simp [recvLoop, recv, cuts, empty, done]⟩

/-- Whatever the searches answer, a call gets the next bytes of the stream, and none only
    when there is none. -/
theorem recvLoop_spec (cut : Nat → Nat) (found : Nat → List Byte → Bool) (fuel : Nat) :
    ∀ (hasRecv remaining : Nat) (buf : List Byte) (net : Net),
    remaining < fuel → hasRecv + remaining ≤ buf.length → ∃ n calls,
      recvLoop (cuts cut) found fuel hasRecv remaining buf net =
        .ok (.ok (hasRecv + n), splice buf hasRecv (net.stream.take n),
          ⟨net.stream.drop n, calls⟩) ∧
      n ≤ remaining ∧ n ≤ net.stream.length ∧ (0 < remaining → net.stream ≠ [] → 0 < n) := by
  induction fuel with
  | zero =>
    intro hasRecv remaining buf net enough
    omega
  | succ fuel ih =>
    intro hasRecv remaining buf net enough room
    by_cases nothing : remaining = 0 ∨ net.stream = []
    · obtain ⟨calls, ended⟩ : ∃ calls, recvLoop (cuts cut) found (fuel + 1) hasRecv remaining buf net =
          .ok (.ok hasRecv, buf, ⟨net.stream, calls⟩) := recvLoop_ended nothing
      refine ⟨0, calls, ?_, by omega, by omega, ?_⟩
      · rw [ended]
        simp [splice]
      · intro asked left
        rcases nothing with zero | empty
        · omega
        · contradiction
    · obtain ⟨more, left⟩ := not_or.mp nothing
      have positive : 0 < pieceLen cut net remaining := pieceLen_positive more left
      have asked : pieceLen cut net remaining ≤ remaining := pieceLen_le cut net remaining
      have there : pieceLen cut net remaining ≤ net.stream.length := by
        unfold pieceLen
        omega
      have length := piece_length cut net remaining
      rw [recvLoop_step more left]
      generalize pieceLen cut net remaining = p at positive asked there length
      split
      · exact ⟨p, net.calls + 1, rfl, asked, there, fun _ _ => positive⟩
      · obtain ⟨m, calls, run, fits, within, _⟩ := ih (hasRecv + p) (remaining - p)
          (splice buf hasRecv (net.stream.take p)) ⟨net.stream.drop p, net.calls + 1⟩ (by omega)
          (by rw [splice_length (by omega)]; omega)
        refine ⟨p + m, calls, ?_, by omega, ?_, by omega⟩
        · have joined : splice (splice buf hasRecv (net.stream.take p)) (hasRecv + p)
              ((net.stream.drop p).take m) = splice buf hasRecv (net.stream.take (p + m)) := by
            have both := splice_splice (net.stream.take p) ((net.stream.drop p).take m)
              (show hasRecv ≤ buf.length by omega)
            rw [length] at both
            rw [both, List.take_add]
          rw [run, joined, List.drop_drop, Nat.add_assoc]
        · simp only [List.length_drop] at within
          omega

end Pieces

section Body
variable (cut : Nat → Nat) (found : Nat → List Byte → Bool)

theorem bodyLoop_step (fuel : Nat) {rest : Nat} {buf : List Byte} (net : Net) (file : List Byte)
    (room : HTTP_RECV_BUF_SIZE ≤ buf.length) (positive : rest ≠ 0) : ∃ n calls,
    bodyLoop (cuts cut) found (fuel + 1) rest buf net file =
      bodyLoop (cuts cut) found fuel (rest - n) (splice buf 0 (net.stream.take n))
        ⟨net.stream.drop n, calls⟩ (file ++ net.stream.take n) ∧
    n ≤ rest ∧ n ≤ net.stream.length ∧ n ≤ buf.length ∧ (net.stream ≠ [] → 0 < n) := by
  obtain ⟨need, asked, small, nonzero, within⟩ : ∃ need,
      (if rest ≥ HTTP_RECV_BUF_SIZE then HTTP_RECV_BUF_SIZE else rest) = need ∧ need ≤ rest ∧
        0 < need ∧ need ≤ HTTP_RECV_BUF_SIZE := by
    have size : HTTP_RECV_BUF_SIZE = 10240 := rfl
    exact ⟨_, rfl, by split <;> omega, by split <;> omega, by split <;> omega⟩
  obtain ⟨n, calls, run, fits, there, more⟩ := recvLoop_spec cut found (need + 1) 0 need buf net
    (by omega) (by omega)
  refine ⟨n, calls, ?_, by omega, there, by omega, more nonzero⟩
  have taken : (splice buf 0 (net.stream.take n)).take n = net.stream.take n := by
    rw [splice_start, List.take_left' (by rw [List.length_take]; omega)]
  rw [Nat.zero_add] at run
  rw [bodyLoop, if_neg positive]
  simp only [asked, agentTcpRecv, run, bind, Except.bind, taken]

theorem bodyLoop_exact (fuel : Nat) : ∀ (rest : Nat) (buf : List Byte) (net : Net)
    (file : List Byte), rest < fuel → HTTP_RECV_BUF_SIZE ≤ buf.length → rest ≤ net.stream.length →
    bodyLoop (cuts cut) found fuel rest buf net file = .ok (0, file ++ net.stream.take rest) := by
  induction fuel with
  | zero =>
    intro rest buf net file enough
    omega
  | succ fuel ih =>
    intro rest buf net file enough room there
    by_cases done : rest = 0
    · simp [bodyLoop, done]
    · obtain ⟨n, calls, round, small, within, inside, more⟩ :=
        bodyLoop_step cut found fuel net file room done
      have progress : 0 < n := more (List.length_pos_iff.mp (by omega))
      have length : (net.stream.take n).length = n := by
        rw [List.length_take]
        omega
      have later := ih (rest - n) (splice buf 0 (net.stream.take n)) ⟨net.stream.drop n, calls⟩
        (file ++ net.stream.take n) (by omega) (by rw [splice_length (by omega)]; exact room)
        (by simp only [List.length_drop]; omega)
      have joined : net.stream.take n ++ (net.stream.drop n).take (rest - n) =
          net.stream.take rest := by
        rw [← List.take_add, Nat.add_sub_cancel' small]
      rw [round, later, List.append_assoc, joined]

/-- After the end of the stream a round gets nothing and asks again. -/
theorem bodyLoop_endless (fuel : Nat) : ∀ (rest : Nat) (buf : List Byte) (net : Net)
    (file : List Byte), HTTP_RECV_BUF_SIZE ≤ buf.length → net.stream.length < rest →
    bodyLoop (cuts cut) found fuel rest buf net file = .error .running := by
  induction fuel with
  | zero =>
    intro rest buf net file _ _
    rfl
  | succ fuel ih =>
    intro rest buf net file room short
    obtain ⟨n, calls, round, _, within, inside, _⟩ :=
      bodyLoop_step cut found fuel net file room (by omega : rest ≠ 0)
    have length : (net.stream.take n).length = n := by
      rw [List.length_take]
      omega
    rw [round]
    exact ih _ _ _ _ (by rw [splice_length (by omega)]; exact room)
      (by simp only [List.length_drop]; omega)

end Body

/-- The body loop appends the next restFileSize bytes of the stream and ends, for every way
    recv cuts the stream and every answer of strstr. -/
theorem body_is_exact (cut : Nat → Nat) (found : Nat → List Byte → Bool) (restFileSize : Nat)
    (recvBuf : List Byte) (net : Net) (updFile : List Byte)
    (room : HTTP_RECV_BUF_SIZE ≤ recvBuf.length) (enough : restFileSize ≤ net.stream.length) :
    ∃ rounds, ∀ fuel, rounds ≤ fuel →
      bodyLoop (cuts cut) found fuel restFileSize recvBuf net updFile =
        .ok (0, updFile ++ net.stream.take restFileSize) := by
  constructor
  intro fuel rounds
  exact bodyLoop_exact cut found fuel restFileSize recvBuf net updFile rounds room enough

theorem body_in_single_bytes : ∃ rounds, ∀ fuel, rounds ≤ fuel →
    bodyLoop (cuts fun _ => 0) (fun _ _ => true) fuel 3 (List.replicate 10240 0)
      ⟨[13, 10, 13, 10], 0⟩ [65] = .ok (0, [65, 13, 10, 13]) :=
  body_is_exact (fun _ => 0) (fun _ _ => true) 3 (List.replicate 10240 0) ⟨[13, 10, 13, 10], 0⟩ [65]
    (by simp only [List.length_replicate, HTTP_RECV_BUF_SIZE]; omega) (by decide)

/-- A well-formed response: a header of lines without a NUL that ends at its first blank
    line and is shorter than the buffer, with 200 in its first line and a line that announces
    the length; then the body. -/
structure Response where
  header : List Byte
  body : List Byte
  statusLine : Nat
  noNul : 0 ∉ header
  short : header.length < HTTP_RECV_BUF_SIZE
  ends : find blankLine header = some (header.length - 4)
  status : find crlf header = some statusLine
  ok : (find (ascii ['2', '0', '0']) (header.take statusLine)).isSome
  announces : ∃ before digits after,
    header = before ++ crlf ++ (contentLength ++ [32] ++ digits ++ crlf ++ after) ∧
      digits ≠ [] ∧ ∀ d ∈ digits, isDigit d

def Response.stream (r : Response) : List Byte := r.header ++ r.body

section Response
variable (r : Response)

theorem Response.blank : blankLine <+: r.header.drop (r.header.length - 4) := find_occurs r.ends

theorem Response.long : 4 ≤ r.header.length := by
  have size := r.blank.length_le
  simp only [blankLine, List.length_drop, List.length_cons, List.length_nil] at size
  omega

theorem Response.field : ∃ pos line, find contentLength r.header = some pos ∧
    pos ≤ r.header.length ∧ find crlf (r.header.drop pos) = some line := by
  obtain ⟨before, digits, after, shape, _⟩ := r.announces
  have occurs : contentLength <+: r.header.drop (before ++ crlf).length := by
    rw [shape, List.drop_left, List.append_assoc, List.append_assoc, List.append_assoc]
    exact List.prefix_append _ _
  have size := congrArg List.length shape
  simp only [List.length_append] at size
  have found := find_isSome occurs (by rw [List.length_append]; omega)
  obtain ⟨pos, first⟩ := Option.isSome_iff_exists.mp found
  have place := (find_occurs first).length_le
  have name : contentLength.length = 15 := by decide
  have long := r.long
  rw [name, List.length_drop] at place
  have eol : crlf <+: (r.header.drop pos).drop (r.header.length - 4 - pos) := by
    rw [List.drop_drop, show pos + (r.header.length - 4 - pos) = r.header.length - 4 by omega]
    exact (List.prefix_append crlf crlf).trans r.blank
  have ended := find_isSome eol (by rw [List.length_drop]; omega)
  obtain ⟨line, last⟩ := Option.isSome_iff_exists.mp ended
  exact ⟨pos, line, first, by omega, last⟩

/-- What is found in a text without NUL is what strstr finds where it stands in memory. -/
theorem strstr_text {text needle : List Byte} {i : Nat} (plain : 0 ∉ text)
    (found : find needle text = some i) (behind : List Byte) :
    strstr (text ++ behind) needle = some i := by
  rw [strstr, takeWhile_until plain]
  exact find_append _ found

theorem retcode_response (behind : List Byte) : agentParseHttpRetcode (r.header ++ behind) =
    if 128 ≤ r.statusLine then .error .fault else .ok 200 := by
  have inside := (find_occurs r.status).length_le
  simp only [crlf, List.length_drop, List.length_cons, List.length_nil] at inside
  have line : (r.header ++ behind).take r.statusLine = r.header.take r.statusLine :=
    List.take_append_of_le_length (by omega)
  simp only [agentParseHttpRetcode, strstr_text r.noNul r.status behind, line, r.ok, if_true]

theorem contentLength_response (z : WordSize) {pos line : Nat}
    (name : find contentLength r.header = some pos) (inside : pos ≤ r.header.length)
    (ended : find crlf (r.header.drop pos) = some line) (behind : List Byte) :
    agentParseHttpContentLength z (r.header ++ behind) =
      if line < 16 ∨ 20 ≤ line - 16 then .error .fault
      else .ok (atoi z (((r.header ++ behind).drop (pos + 16)).take (line - 16))) := by
  have rest : (r.header ++ behind).drop pos = r.header.drop pos ++ behind :=
    List.drop_append_of_le_length inside
  have plain : 0 ∉ r.header.drop pos := fun member => r.noNul (List.mem_of_mem_drop member)
  simp only [agentParseHttpContentLength, strstr_text r.noNul name behind, rest,
    strstr_text plain ended behind]

def Response.NumberFits : Prop :=
  ∀ pos line, find contentLength r.header = some pos → find crlf (r.header.drop pos) = some line →
    16 ≤ line ∧ line - 16 < 20

/-- Once the whole header is in memory, it is read as it is meant to be, or a line is too
    long for its buffer. -/
theorem readHeader_response (z : WordSize) (opens : Bool) (n : Nat) (behind : List Byte) :
    (∃ answer, readHeader z opens n (r.header ++ behind) = .ok answer ∧ ∀ h, answer = .ok h →
      h.headerEnd = r.header.length - 4 ∧ h.firstContentLen = (n : Int) - r.header.length) ↔
    r.statusLine < 128 ∧ (opens = true → r.NumberFits) := by
  obtain ⟨pos, line, name, inside, ended⟩ := r.field
  have announced := contentLength_response r z name inside ended behind
  generalize atoi z (((r.header ++ behind).drop (pos + 16)).take (line - 16)) = fileSize at announced
  have long := r.long
  have fits : r.NumberFits ↔ ¬(line < 16 ∨ 20 ≤ line - 16) := by
    constructor
    · intro all
      have bounds := all pos line name ended
      omega
    · intro bounds pos' line' name' ended'
      rw [name] at name'
      cases name'
      rw [ended] at ended'
      cases ended'
      omega
  unfold readHeader
  simp only [retcode_response, announced, strstr_text r.noNul r.ends behind, fits]
  by_cases status : 128 ≤ r.statusLine
  · simp [status, bind, Except.bind, Nat.not_lt_of_le status]
  · rw [if_neg status]
    cases opens with
    | false => simp [bind, Except.bind, pure, Except.pure, Nat.lt_of_not_le status]
    | true =>
      by_cases bad : line < 16 ∨ 20 ≤ line - 16
      · simp [bind, Except.bind, bad]
      · have zero : (n : Int) - (r.header.length - 4 : Nat) - 4 = n - r.header.length := by omega
        by_cases minus : fileSize = -1
        · simp [bind, Except.bind, pure, Except.pure, bad, minus, Nat.lt_of_not_le status]
        · simp [bind, Except.bind, pure, Except.pure, bad, minus, Nat.lt_of_not_le status, zero]

end Response

def arrived (cut : Nat → Nat) (total : Nat) : Nat → Nat
  | 0 => 0
  | k + 1 =>
      let p := arrived cut total k
      p + min (min (HTTP_RECV_BUF_SIZE - p) (cut k + 1)) (total - p)

def filled (recvBuf stream : List Byte) (p : Nat) : List Byte := splice recvBuf 0 (stream.take p)

section Arrival
variable {cut : Nat → Nat}

theorem arrived_mono (total : Nat) {j k : Nat} (earlier : j ≤ k) :
    arrived cut total j ≤ arrived cut total k := by
  induction k with
  | zero =>
    have start : j = 0 := Nat.le_zero.mp earlier
    subst start
    exact Nat.le_refl _
  | succ k ih =>
    by_cases last : j = k + 1
    · subst last
      exact Nat.le_refl _
    · have before := ih (by omega)
      simp only [arrived]
      omega

variable {r : Response} (recvBuf : List Byte)

theorem arrived_lt {k : Nat} (partly : arrived cut r.stream.length k < r.header.length) :
    arrived cut r.stream.length k < arrived cut r.stream.length (k + 1) := by
  have short := r.short
  have total : r.stream.length = r.header.length + r.body.length := List.length_append
  simp only [arrived]
  omega

theorem filled_header {n : Nat} (whole : r.header.length ≤ n) :
    ∃ behind, filled recvBuf r.stream n = r.header ++ behind := by
  have taken : r.stream.take n = r.header ++ r.body.take (n - r.header.length) := by
    rw [Response.stream, List.take_append, List.take_of_length_le whole]
  rw [filled, splice_start, taken, List.append_assoc]
  exact ⟨_, rfl⟩

theorem header_seen {n : Nat} (whole : r.header.length ≤ n) (call : Nat) :
    seesBlankLine call (filled recvBuf r.stream n) = true := by
  obtain ⟨behind, memory⟩ := filled_header recvBuf whole
  rw [seesBlankLine, memory, strstr_text r.noNul r.ends behind]
  rfl

theorem first_recv_step {fuel k : Nat}
    (partly : arrived cut r.stream.length k < r.header.length) :
    recvLoop (cuts cut) seesBlankLine (fuel + 1) (arrived cut r.stream.length k)
      (HTTP_RECV_BUF_SIZE - arrived cut r.stream.length k)
      (filled recvBuf r.stream (arrived cut r.stream.length k))
      ⟨r.stream.drop (arrived cut r.stream.length k), k⟩ =
    if seesBlankLine (k + 1) (filled recvBuf r.stream (arrived cut r.stream.length (k + 1))) = true then
      .ok (.ok (arrived cut r.stream.length (k + 1)),
        filled recvBuf r.stream (arrived cut r.stream.length (k + 1)),
        ⟨r.stream.drop (arrived cut r.stream.length (k + 1)), k + 1⟩)
    else recvLoop (cuts cut) seesBlankLine fuel (arrived cut r.stream.length (k + 1))
      (HTTP_RECV_BUF_SIZE - arrived cut r.stream.length (k + 1))
      (filled recvBuf r.stream (arrived cut r.stream.length (k + 1)))
      ⟨r.stream.drop (arrived cut r.stream.length (k + 1)), k + 1⟩ := by
  have short := r.short
  have total : r.stream.length = r.header.length + r.body.length := List.length_append
  have next : arrived cut r.stream.length (k + 1) = arrived cut r.stream.length k +
      pieceLen cut ⟨r.stream.drop (arrived cut r.stream.length k), k⟩
        (HTTP_RECV_BUF_SIZE - arrived cut r.stream.length k) := by
    simp only [arrived, pieceLen, List.length_drop]
  have more : HTTP_RECV_BUF_SIZE - arrived cut r.stream.length k ≠ 0 := by omega
  have left : (⟨r.stream.drop (arrived cut r.stream.length k), k⟩ : Net).stream ≠ [] := by
    apply List.length_pos_iff.mp
    simp only [List.length_drop]
    omega
  rw [recvLoop_step more left, next]
  have fits := pieceLen_le cut ⟨r.stream.drop (arrived cut r.stream.length k), k⟩
    (HTTP_RECV_BUF_SIZE - arrived cut r.stream.length k)
  generalize arrived cut r.stream.length k = p at partly fits
  generalize pieceLen cut ⟨r.stream.drop p, k⟩ (HTTP_RECV_BUF_SIZE - p) = piece at fits
  have joined : splice (filled recvBuf r.stream p) p ((r.stream.drop p).take piece) =
      filled recvBuf r.stream (p + piece) := by
    have size : (r.stream.take p).length = p := by
      rw [List.length_take]
      omega
    have both := splice_splice (r.stream.take p) ((r.stream.drop p).take piece)
      (Nat.zero_le recvBuf.length)
    rw [size, Nat.zero_add] at both
    rw [filled, both, ← List.take_add, filled]
  simp only [joined, List.drop_drop, Nat.sub_sub]

/-- The first call returns with the whole header unless something looks like its end
    before. -/
theorem first_recv_whole (fuel : Nat) : ∀ k,
    HTTP_RECV_BUF_SIZE - arrived cut r.stream.length k < fuel →
    arrived cut r.stream.length k < r.header.length →
    (∀ j, k < j → arrived cut r.stream.length j < r.header.length →
      strstr (filled recvBuf r.stream (arrived cut r.stream.length j)) blankLine = none) →
    ∃ n calls, recvLoop (cuts cut) seesBlankLine fuel (arrived cut r.stream.length k)
      (HTTP_RECV_BUF_SIZE - arrived cut r.stream.length k)
      (filled recvBuf r.stream (arrived cut r.stream.length k))
      ⟨r.stream.drop (arrived cut r.stream.length k), k⟩ =
        .ok (.ok n, filled recvBuf r.stream n, ⟨r.stream.drop n, calls⟩) ∧
      r.header.length ≤ n := by
  induction fuel with
  | zero =>
    intro k enough
    omega
  | succ fuel ih =>
    intro k enough partly quiet
    have short := r.short
    have progress := arrived_lt partly
    rw [first_recv_step recvBuf partly]
    by_cases whole : r.header.length ≤ arrived cut r.stream.length (k + 1)
    · rw [if_pos (header_seen recvBuf whole _)]
      exact ⟨_, _, rfl, whole⟩
    · have unseen : ¬seesBlankLine (k + 1)
          (filled recvBuf r.stream (arrived cut r.stream.length (k + 1))) = true := by
        rw [seesBlankLine, quiet (k + 1) (by omega) (by omega)]
        decide
      rw [if_neg unseen]
      apply ih (k + 1) (by omega) (by omega)
      intro j later
      exact quiet j (by omega)

/-- Something that looks like the end before it is there makes the call return too early. -/
theorem first_recv_short (fuel : Nat) : ∀ k,
    HTTP_RECV_BUF_SIZE - arrived cut r.stream.length k < fuel →
    arrived cut r.stream.length k < r.header.length →
    (∃ j, k < j ∧ arrived cut r.stream.length j < r.header.length ∧
      strstr (filled recvBuf r.stream (arrived cut r.stream.length j)) blankLine ≠ none) →
    ∃ n rest, recvLoop (cuts cut) seesBlankLine fuel (arrived cut r.stream.length k)
      (HTTP_RECV_BUF_SIZE - arrived cut r.stream.length k)
      (filled recvBuf r.stream (arrived cut r.stream.length k))
      ⟨r.stream.drop (arrived cut r.stream.length k), k⟩ = .ok (.ok n, rest) ∧
      n < r.header.length := by
  induction fuel with
  | zero =>
    intro k enough
    omega
  | succ fuel ih =>
    intro k enough partly ⟨j, later, early, looks⟩
    have short := r.short
    have progress := arrived_lt partly
    have next : arrived cut r.stream.length (k + 1) ≤ arrived cut r.stream.length j :=
      arrived_mono _ later
    rw [first_recv_step recvBuf partly]
    split
    case isTrue seen => exact ⟨_, _, rfl, by omega⟩
    case isFalse unseen =>
      apply ih (k + 1) (by omega) (by omega)
      have other : j ≠ k + 1 := by
        intro same
        subst same
        rw [seesBlankLine, Option.not_isSome_iff_eq_none] at unseen
        exact looks unseen
      exact ⟨j, by omega, early, looks⟩

end Arrival

/-- The header phase does what it is for: the first call returns after the whole header, and
    what is read of it is where it ends and how much of the body is there. -/
def HeaderRight (z : WordSize) (cut : Nat → Nat) (opens : Bool) (recvBuf : List Byte)
    (r : Response) : Prop :=
  ∃ n mem net,
    agentTcpRecv (cuts cut) seesBlankLine recvBuf HTTP_RECV_BUF_SIZE ⟨r.stream, 0⟩ =
      .ok (.ok n, mem, net) ∧
    r.header.length ≤ n ∧
    ∃ answer, readHeader z opens n mem = .ok answer ∧ ∀ h, answer = .ok h →
      h.headerEnd = r.header.length - 4 ∧ h.firstContentLen = (n : Int) - r.header.length

/-- Until the header is whole, no piece leaves a blank line in the memory. -/
def NothingLooksLikeEnd (cut : Nat → Nat) (recvBuf : List Byte) (r : Response) : Prop :=
  ∀ k, 0 < k → arrived cut r.stream.length k < r.header.length →
    strstr (filled recvBuf r.stream (arrived cut r.stream.length k)) blankLine = none

/-- Something that looks like the end keeps the call from waiting for the header. -/
theorem HeaderRight.quiet {z : WordSize} {cut : Nat → Nat} {opens : Bool} {recvBuf : List Byte}
    {r : Response} (right : HeaderRight z cut opens recvBuf r) :
    NothingLooksLikeEnd cut recvBuf r := by
  intro k positive partly
  by_contra looks
  have clean : filled recvBuf r.stream 0 = recvBuf := by simp [filled, splice]
  obtain ⟨n, rest, run, less⟩ := first_recv_short recvBuf (HTTP_RECV_BUF_SIZE + 1) 0
    (by simp [arrived]) (by simp only [arrived]; omega) ⟨k, positive, partly, looks⟩
  simp only [arrived, Nat.sub_zero, clean, List.drop_zero] at run
  obtain ⟨n', mem, net, same, whole, _⟩ := right
  rw [agentTcpRecv, run] at same
  cases same
  omega

theorem header_right_iff (z : WordSize) (cut : Nat → Nat) (opens : Bool) (recvBuf : List Byte)
    (r : Response) :
    HeaderRight z cut opens recvBuf r ↔
      NothingLooksLikeEnd cut recvBuf r ∧ r.statusLine < 128 ∧ (opens = true → r.NumberFits) := by
  have start : arrived cut r.stream.length 0 < r.header.length := by
    have long := r.long
    simp only [arrived]
    omega
  have clean : filled recvBuf r.stream 0 = recvBuf := by simp [filled, splice]
  by_cases quiet : NothingLooksLikeEnd cut recvBuf r
  case neg =>
    constructor
    · intro right
      exact absurd right.quiet quiet
    · intro condition
      exact absurd condition.1 quiet
  case pos =>
    obtain ⟨n, calls, run, whole⟩ := first_recv_whole recvBuf (HTTP_RECV_BUF_SIZE + 1) 0
      (by simp [arrived]) start quiet
    simp only [arrived, Nat.sub_zero, clean, List.drop_zero] at run
    obtain ⟨behind, memory⟩ := filled_header recvBuf whole
    have read := readHeader_response r z opens n behind
    rw [memory] at run
    unfold HeaderRight
    rw [agentTcpRecv, run, ← read]
    constructor
    · intro phase
      rcases phase with ⟨n', mem', net', same, _, right⟩
      cases same
      exact ⟨quiet, right⟩
    · intro conditions
      rcases conditions with ⟨_, right⟩
      exact ⟨n, _, _, rfl, whole, right⟩

def five : Response where
  header := ascii ['H', 'T', 'T', 'P', '/', '1', '.', '1', ' ', '2', '0', '0', ' ', 'O', 'K'] ++ crlf ++
    (contentLength ++ [32] ++ [53] ++ crlf ++ crlf)
  body := ascii ['h', 'e', 'l', 'l', 'o']
  statusLine := 15
  noNul := by decide
  short := by decide
  ends := by decide
  status := by decide
  ok := by decide
  announces := ⟨_, [53], crlf, rfl, by decide, by decide⟩

def staleBuf : List Byte := ascii ['A', 'A', 'A', 'A'] ++ blankLine ++ List.replicate 10232 0

/-- Four bytes arrive, and the old blank line behind them ends the header phase. -/
theorem stale_buffer_ends_header : ¬HeaderRight .bits32 (fun _ => 3) true staleBuf five := by
  intro right
  have quiet := right.quiet 1 (by decide) (by decide)
  have memory : filled staleBuf five.stream 4 =
      ascii ['H', 'T', 'T', 'P'] ++ blankLine ++ List.replicate 10232 0 := rfl
  have count : arrived (fun _ => 3) five.stream.length 1 = 4 := by decide
  have seen : find blankLine (ascii ['H', 'T', 'T', 'P'] ++ blankLine) = some 4 := by decide
  rw [count, memory, strstr_text (by decide) seen] at quiet
  cases quiet

def Announces (z : WordSize) (opens : Bool) (mem : List Byte) (size : Int) (headerEnd : Nat) : Prop :=
  agentParseHttpRetcode mem = .ok 200 ∧ opens = true ∧
    agentParseHttpContentLength z mem = .ok size ∧ size ≠ -1 ∧
    strstr mem blankLine = some headerEnd

def ParsesSafely (z : WordSize) (opens : Bool) (mem : List Byte) : Prop :=
  agentParseHttpRetcode mem ≠ .error .fault ∧
    (agentParseHttpRetcode mem = .ok 200 → opens = true →
      agentParseHttpContentLength z mem ≠ .error .fault)

theorem retcode_stop {mem : List Byte} {stop : Stop} (run : agentParseHttpRetcode mem = .error stop) :
    stop = .fault := by
  unfold agentParseHttpRetcode at run
  split at run
  · cases run
  · split at run
    · cases run
      rfl
    · dsimp only at run
      split_ifs at run

theorem contentLength_stop {z : WordSize} {mem : List Byte} {stop : Stop}
    (run : agentParseHttpContentLength z mem = .error stop) : stop = .fault := by
  unfold agentParseHttpContentLength at run
  split at run
  · cases run
  · split at run
    · cases run
    · split at run
      · cases run
        rfl
      · cases run

theorem readHeader_cases (z : WordSize) (opens : Bool) (n : Nat) (mem : List Byte) :
    (readHeader z opens n mem = .error .fault ∧ ¬ParsesSafely z opens mem) ∨
    (∃ code, readHeader z opens n mem = .ok (.error code) ∧ ParsesSafely z opens mem ∧
      ∀ size headerEnd, ¬Announces z opens mem size headerEnd) ∨
    (∃ size headerEnd, readHeader z opens n mem =
        .ok (.ok ⟨size, headerEnd, (n : Int) - headerEnd - 4⟩) ∧
      ParsesSafely z opens mem ∧ Announces z opens mem size headerEnd) := by
  unfold readHeader ParsesSafely Announces
  cases status : agentParseHttpRetcode mem with
  | error stop =>
    rw [retcode_stop status]
    exact .inl ⟨rfl, by simp⟩
  | ok ret =>
    by_cases found : ret = 200
    case neg =>
      right
      left
      by_cases missing : ret = 404
      · exact ⟨-404, by simp [missing, bind, Except.bind, pure, Except.pure], by simp [found]⟩
      · exact ⟨0, by simp [missing, found, bind, Except.bind, pure, Except.pure], by simp [found]⟩
    case pos =>
      subst found
      cases opens with
      | false =>
        right
        left
        exact ⟨8, by simp [bind, Except.bind, pure, Except.pure], by simp⟩
      | true =>
        cases length : agentParseHttpContentLength z mem with
        | error stop =>
          rw [contentLength_stop length]
          exact .inl ⟨rfl, by simp⟩
        | ok size =>
          right
          by_cases minus : size = -1
          · left
            refine ⟨9, by simp [minus, bind, Except.bind, pure, Except.pure], by simp, ?_⟩
            intro other headerEnd announced
            rcases announced with ⟨_, _, same, accepted, _⟩
            cases same
            exact accepted minus
          · cases blank : strstr mem blankLine with
            | none =>
              left
              exact ⟨10, by simp [minus, bind, Except.bind, pure, Except.pure], by simp⟩
            | some headerEnd =>
              right
              exact ⟨size, headerEnd, by simp [minus, bind, Except.bind, pure, Except.pure],
                by simp [minus]⟩

def Returns (z : WordSize) (cut : Nat → Nat) (early : Option Int) (opens : Bool)
    (recvBuf stream : List Byte) : Prop :=
  ∃ fuel result, agentHttpDownloadFile z (cuts cut) early opens recvBuf stream fuel = .ok result

/-- The n bytes the first call got are parsed without a fault, they hold the header they
    end, and the server sends all that they announce. -/
def AnswerComplete (z : WordSize) (opens : Bool) (stream : List Byte) (n : Nat)
    (mem : List Byte) : Prop :=
  ParsesSafely z opens mem ∧ ∀ size headerEnd, Announces z opens mem size headerEnd →
    headerEnd + 4 ≤ n ∧ -2147483648 ≤ size - ((n : Int) - headerEnd - 4) ∧
      size + headerEnd + 4 ≤ stream.length

theorem rest_returns_iff (cut : Nat → Nat) (size headerEnd : Int) {n calls : Nat}
    {mem stream first : List Byte} (room : HTTP_RECV_BUF_SIZE ≤ mem.length)
    (received : n ≤ stream.length) :
    (∃ fuel result, bodyLoop (cuts cut) seesBlankLine fuel (size - (n - headerEnd - 4)).toNat mem
      ⟨stream.drop n, calls⟩ first = .ok result) ↔ size + headerEnd + 4 ≤ stream.length := by
  have left : (stream.drop n).length = stream.length - n := List.length_drop
  constructor
  · intro returns
    rcases returns with ⟨fuel, result, run⟩
    by_contra short
    rw [bodyLoop_endless cut seesBlankLine fuel _ _ _ _ room (by simp only [left]; omega)] at run
    cases run
  · intro all
    exact ⟨_, _, bodyLoop_exact cut seesBlankLine _ _ _ _ _ (Nat.lt_succ_self _) room
      (by simp only [left]; omega)⟩

theorem answerComplete_iff {z : WordSize} {opens : Bool} {n headerEnd : Nat} {size : Int}
    {mem : List Byte} (stream : List Byte) (safely : ParsesSafely z opens mem)
    (announced : Announces z opens mem size headerEnd) :
    AnswerComplete z opens stream n mem ↔
      headerEnd + 4 ≤ n ∧ -2147483648 ≤ size - ((n : Int) - headerEnd - 4) ∧
        size + headerEnd + 4 ≤ stream.length := by
  constructor
  · intro complete
    exact complete.2 size headerEnd announced
  · intro bounds
    refine ⟨safely, ?_⟩
    intro size' headerEnd' other
    rcases other with ⟨_, _, length, _, blank⟩
    obtain ⟨_, _, length', _, blank'⟩ := announced
    rw [length] at length'
    rw [blank] at blank'
    cases length'
    cases blank'
    exact bounds

theorem answer_returns_iff (z : WordSize) (cut : Nat → Nat) (opens : Bool) {n calls : Nat}
    {recvBuf mem stream : List Byte} (room : HTTP_RECV_BUF_SIZE ≤ mem.length)
    (received : n ≤ stream.length)
    (first : agentTcpRecv (cuts cut) seesBlankLine recvBuf HTTP_RECV_BUF_SIZE ⟨stream, 0⟩ =
      .ok (.ok n, mem, ⟨stream.drop n, calls⟩)) :
    Returns z cut none opens recvBuf stream ↔ AnswerComplete z opens stream n mem := by
  unfold Returns agentHttpDownloadFile
  simp only [first, bind, Except.bind]
  obtain ⟨read, unsafely⟩ | ⟨code, read, safely, silent⟩ | ⟨size, headerEnd, read, safely, announced⟩ :=
    readHeader_cases z opens n mem
  · simp [read, AnswerComplete, unsafely]
  · simp [read, AnswerComplete, safely, silent]
  · rw [answerComplete_iff stream safely announced]
    simp only [read]
    by_cases negative : (n : Int) - headerEnd - 4 < 0
    · simp only [negative, if_true]
      constructor
      · intro returns
        rcases returns with ⟨_, _, fault⟩
        cases fault
      · omega
    · by_cases wraps : size - ((n : Int) - headerEnd - 4) < -2147483648
      · simp only [negative, wraps, if_true, if_false]
        constructor
        · intro returns
          rcases returns with ⟨_, _, fault⟩
          cases fault
        · omega
      · simp only [negative, wraps, if_false]
        rw [rest_returns_iff cut size headerEnd room received]
        omega

/-- A download returns exactly when what precedes it fails, or the answer is complete. -/
theorem download_returns_iff (z : WordSize) (cut : Nat → Nat) (early : Option Int) (opens : Bool)
    (recvBuf stream : List Byte) (room : HTTP_RECV_BUF_SIZE ≤ recvBuf.length) :
    Returns z cut early opens recvBuf stream ↔ (early = none → ∀ n mem net,
      agentTcpRecv (cuts cut) seesBlankLine recvBuf HTTP_RECV_BUF_SIZE ⟨stream, 0⟩ =
        .ok (.ok n, mem, net) → AnswerComplete z opens stream n mem) := by
  cases early with
  | some code => simp [Returns, agentHttpDownloadFile]
  | none =>
    obtain ⟨n, calls, first, fits, received, _⟩ := recvLoop_spec cut seesBlankLine
      (HTTP_RECV_BUF_SIZE + 1) 0 HTTP_RECV_BUF_SIZE recvBuf ⟨stream, 0⟩ (by omega) (by omega)
    rw [Nat.zero_add, ← agentTcpRecv] at first
    have kept : HTTP_RECV_BUF_SIZE ≤ (splice recvBuf 0 (stream.take n)).length := by
      rw [splice_length (by rw [List.length_take]; omega)]
      exact room
    rw [answer_returns_iff z cut opens kept received first]
    constructor
    · intro complete _ n' mem' net' same
      rw [first] at same
      cases same
      exact complete
    · intro all
      exact all rfl _ _ _ first

theorem empty_answer_returns : Returns .bits32 (fun _ => 0) none true (List.replicate 10240 0) [] := by
  apply (download_returns_iff .bits32 (fun _ => 0) none true (List.replicate 10240 0) []
    (by simp only [List.length_replicate, HTTP_RECV_BUF_SIZE]; omega)).mpr
  intro _ n mem net run
  have status : agentParseHttpRetcode mem = .ok (-1) := by
    cases run
    rfl
  clear run
  simp [AnswerComplete, ParsesSafely, Announces, status]

theorem short_answer_never_returns :
    ¬Returns .bits32 (fun _ => 99) none true (List.replicate 10240 0) five.header := by
  intro returns
  rcases returns with ⟨fuel, result, run⟩
  have rest : agentHttpDownloadFile .bits32 (cuts fun _ => 99) none true (List.replicate 10240 0)
      five.header fuel = bodyLoop (cuts fun _ => 99) seesBlankLine fuel 5
        (five.header ++ List.replicate 10202 0) ⟨[], 1⟩ [] := rfl
  have room : HTTP_RECV_BUF_SIZE ≤ (five.header ++ List.replicate 10202 (0 : Byte)).length := by
    rw [List.length_append, List.length_replicate]
    decide
  rw [rest, bodyLoop_endless _ _ _ _ _ _ _ room (by decide)] at run
  cases run

end TestSource.Download
