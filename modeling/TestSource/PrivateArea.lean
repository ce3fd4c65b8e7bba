import TestSource.Common
import TestSource.Splice

/- xl_private_area.c: the private area as a file under /tmp. A Src buffer holds nLen bytes,
   and the file is a regular one, so that fread falls short only at its end. -/
namespace TestSource
open Splice

namespace PrivateArea

def MAXLEN : Nat := 1024

/-- fwrite at a position, behind the end of the file too: the gap reads as zeros. -/
def fwriteAt (file : List Byte) (pos : Nat) (bytes : List Byte) : List Byte :=
  if bytes.isEmpty then file
  else splice (file ++ List.replicate (pos + bytes.length - file.length) 0) pos bytes

/-- One call of xl_write_private_area with what the system answers: whether fopen succeeds
    and how many of the bytes fwrite gets to the file. -/
structure WriteCall where
  startAddr : Nat
  srcAddr : Option (List Byte)
  opens : Bool
  stored : Nat

/-- The result of the call and the file after it. The mode "wb" empties the file, and the
    count that fwrite returns is only printed. -/
def xlWritePrivateArea (file : Option (List Byte)) (call : WriteCall) :
    Int × Option (List Byte) :=
  match call.srcAddr with
  | none => (-1, file)
  | some srcAddr =>
      if !call.opens then (-1, file)
      else (0, some (fwriteAt [] call.startAddr (srcAddr.take call.stored)))

/-- The reading loop, with what fread still has before it: the result and DesAddr. Each
    round copies to the start of DesAddr. -/
def readLoop : Nat → List Byte → Nat → Nat → List Byte → Int × List Byte
  | 0, _, _, _, desAddr => (1, desAddr)
  | fuel + 1, flashfd, nLen, size, desAddr =>
      let nReadLen := if nLen > MAXLEN then MAXLEN else nLen
      let buf := flashfd.take nReadLen
      let rc := buf.length
      if rc = 0 then (1, desAddr)
      else if size + rc ≥ nReadLen then
        (0, splice desAddr 0 (buf.take (rc - (size + rc - nReadLen))))
      else
        readLoop fuel (flashfd.drop nReadLen) (nLen - nReadLen) (size + rc) (splice desAddr 0 buf)

def xlReadPrivateArea (file : Option (List Byte)) (startAddr len : Nat) (desAddr : List Byte) :
    Int × List Byte :=
  match file with
  | none => (-1, desAddr)
  | some content => readLoop (len + 1) (content.drop startAddr) len 0 desAddr

def xlReadPrivateAreaFlash (device : Option (List Byte)) (startAddr len : Nat)
    (desAddr : List Byte) : Int × List Byte := xlReadPrivateArea device startAddr len desAddr

def runWrites : Option (List Byte) → List WriteCall → List Int × Option (List Byte)
  | file, [] => ([], file)
  | file, call :: rest =>
      let (nRet, file) := xlWritePrivateArea file call
      let (nRets, file) := runWrites file rest
      (nRet :: nRets, file)

def WriteCall.src (call : WriteCall) : List Byte := call.srcAddr.getD []

def WriteCall.byteFor (call : WriteCall) (a : Nat) : Option Byte :=
  if call.startAddr ≤ a then call.src[a - call.startAddr]? else none

def latest (calls : List WriteCall) (a : Nat) : Option Byte :=
  calls.foldl (fun old call => (call.byteFor a).or old) none

/-- The law of the store after a sequence of writes: a read of up to MAXLEN bytes that were
    all written returns 0 and gives each one as it was written last. -/
def StoreLaw (file : Option (List Byte)) (calls : List WriteCall) : Prop :=
  ∀ (a n : Nat) (desAddr : List Byte), 1 ≤ n → n ≤ MAXLEN → n ≤ desAddr.length →
    (∀ k, k < n → (latest calls (a + k)).isSome) →
    ∃ des, xlReadPrivateArea (runWrites file calls).2 a n desAddr = (0, des) ∧
      ∀ k, k < n → des[k]? = latest calls (a + k)

/-- What the last call has to leave of the earlier ones: nothing outside its own range but
    zeros below it. -/
def LastCovers (calls : List WriteCall) : Prop :=
  ∀ last, calls.getLast? = some last → last.src.length ≤ last.stored ∧
    ∀ a b, latest calls.dropLast a = some b → last.byteFor a = none →
      a < last.startAddr ∧ last.src ≠ [] ∧ b = 0

section FileLaw

theorem latest_concat (calls : List WriteCall) (last : WriteCall) (a : Nat) :
    latest (calls ++ [last]) a = (last.byteFor a).or (latest calls a) := by
  simp [latest, List.foldl_append]

theorem byteFor_some {call : WriteCall} {a : Nat} {b : Byte} :
    call.byteFor a = some b ↔ call.startAddr ≤ a ∧ call.src[a - call.startAddr]? = some b := by
  unfold WriteCall.byteFor
  split <;> simp [*]

theorem fwriteAt_some {pos : Nat} {bytes : List Byte} {a : Nat} {b : Byte} :
    (fwriteAt [] pos bytes)[a]? = some b ↔
      bytes ≠ [] ∧ (a < pos ∧ b = 0 ∨ pos ≤ a ∧ bytes[a - pos]? = some b) := by
  by_cases empty : bytes = []
  · simp [fwriteAt, empty]
  · have gap : ([] ++ List.replicate (pos + bytes.length - ([] : List Byte).length) (0 : Byte)) =
        List.replicate (pos + bytes.length) 0 := by simp
    rw [fwriteAt, if_neg (by simpa using empty), gap, getElem?_splice (by simp)]
    by_cases low : a < pos
    · rw [if_neg (by omega), List.getElem?_replicate, if_pos (by omega)]
      simp only [Option.some.injEq, ne_eq, empty, not_false_eq_true, true_and, low,
        Nat.not_le_of_lt low, false_and, or_false]
      exact eq_comm
    · have above : pos ≤ a := by omega
      simp only [ne_eq, empty, not_false_eq_true, true_and, low, false_and, false_or, above]
      split
      · rfl
      · rw [List.getElem?_replicate, if_neg (by omega), List.getElem?_eq_none (by omega)]

theorem runWrites_concat (file : Option (List Byte)) (calls : List WriteCall) (last : WriteCall) :
    runWrites file (calls ++ [last]) =
      ((runWrites file calls).1 ++ [(xlWritePrivateArea (runWrites file calls).2 last).1],
        (xlWritePrivateArea (runWrites file calls).2 last).2) := by
  induction calls generalizing file with
  | nil => simp [runWrites]
  | cons call calls ih => simp [runWrites, ih]

theorem write_succeeds {file : Option (List Byte)} {call : WriteCall}
    (success : (xlWritePrivateArea file call).1 = 0) :
    (xlWritePrivateArea file call).2 =
      some (fwriteAt [] call.startAddr (call.src.take call.stored)) := by
  unfold xlWritePrivateArea at success ⊢
  cases source : call.srcAddr with
  | none => simp [source] at success
  | some src =>
    cases opened : call.opens with
    | false => simp [source, opened] at success
    | true => simp [WriteCall.src, source]

theorem read_whole {content desAddr : List Byte} {a n : Nat} (positive : 1 ≤ n) (small : n ≤ MAXLEN)
    (inside : a + n ≤ content.length) : xlReadPrivateArea (some content) a n desAddr =
      (0, splice desAddr 0 ((content.drop a).take n)) := by
  have asked : (if n > MAXLEN then MAXLEN else n) = n := if_neg (by omega)
  have whole : ((content.drop a).take n).length = n := by
    simp only [List.length_take, List.length_drop]
    omega
  simp only [xlReadPrivateArea, readLoop, asked, whole, Nat.zero_add, Nat.sub_self, Nat.sub_zero,
    if_neg (by omega : ¬n = 0), ge_iff_le, Nat.le_refl, if_true, List.take_take, Nat.min_self]

theorem read_short {content : List Byte} (desAddr : List Byte) {a n : Nat} (small : n ≤ MAXLEN)
    (outside : content.length < a + n) :
    (xlReadPrivateArea (some content) a n desAddr).1 = 1 := by
  have asked : (if n > MAXLEN then MAXLEN else n) = n := if_neg (by omega)
  have size : ((content.drop a).take n).length = min n (content.length - a) := by simp
  have positive : 0 < n ∨ n = 0 := by omega
  simp only [xlReadPrivateArea, readLoop, asked, Nat.sub_self, Nat.zero_add]
  split
  · rfl
  · -- the second fread is asked for nothing and gives nothing
    rw [if_neg (by omega)]
    cases n with
    | zero => omega
    | succ m => simp [readLoop]

theorem read_byte {content desAddr : List Byte} {a n k : Nat} (inside : a + n ≤ content.length)
    (room : n ≤ desAddr.length) (below : k < n) :
    (splice desAddr 0 ((content.drop a).take n))[k]? = content[a + k]? := by
  have whole : ((content.drop a).take n).length = n := by
    simp only [List.length_take, List.length_drop]
    omega
  rw [getElem?_splice (by omega), if_pos (by omega), Nat.sub_zero, List.getElem?_take_of_lt below,
    List.getElem?_drop]

/-- The law speaks of single bytes: each must still stand in the file. -/
theorem storeLaw_iff {file : Option (List Byte)} {calls : List WriteCall} {content : List Byte}
    (left : (runWrites file calls).2 = some content) :
    StoreLaw file calls ↔ ∀ a b, latest calls a = some b → content[a]? = some b := by
  unfold StoreLaw
  rw [left]
  constructor
  · intro law a b written
    obtain ⟨des, read, bytes⟩ := law a 1 [0] (by decide) (by decide) (by decide) (by
      intro k below
      rw [show a + k = a by omega, written]
      rfl)
    have value := bytes 0 (by decide)
    rw [Nat.add_zero, written] at value
    have inside : a + 1 ≤ content.length := by
      by_contra outside
      have failed := read_short [0] (by decide) (Nat.lt_of_not_le outside)
      rw [read] at failed
      simp at failed
    rw [read_whole (by decide) (by decide) inside] at read
    injection read with _ same
    rw [← same, read_byte inside (by decide) (by decide)] at value
    exact value
  · intro kept a n desAddr positive small room written
    have present (k : Nat) (below : k < n) : content[a + k]? = latest calls (a + k) := by
      obtain ⟨b, byte⟩ := Option.isSome_iff_exists.mp (written k below)
      rw [byte]
      exact kept _ b byte
    have inside : a + n ≤ content.length := by
      obtain ⟨b, byte⟩ := Option.isSome_iff_exists.mp (written (n - 1) (by omega))
      obtain ⟨bound, _⟩ := List.getElem?_eq_some_iff.mp (kept _ b byte)
      omega
    constructor
    constructor
    · exact read_whole positive small inside
    · intro k below
      rw [read_byte inside room below]
      exact present k below

theorem lastCovers_iff {earlier : List WriteCall} {last : WriteCall} :
    (∀ a b, latest (earlier ++ [last]) a = some b →
      (fwriteAt [] last.startAddr (last.src.take last.stored))[a]? = some b) ↔
    LastCovers (earlier ++ [last]) := by
  simp only [LastCovers, List.getLast?_concat, List.dropLast_concat, Option.some.injEq,
    forall_eq', latest_concat, fwriteAt_some]
  constructor
  · intro kept
    constructor
    · by_contra short
      have lost : last.stored < last.src.length := by omega
      have written : last.byteFor (last.startAddr + last.stored) = some last.src[last.stored] :=
        byteFor_some.mpr ⟨by omega, by simp [lost]⟩
      rcases kept _ _ (by rw [written, Option.some_or]) with ⟨_, below | ⟨_, value⟩⟩
      · omega
      · rw [Nat.add_sub_cancel_left, List.getElem?_take_eq_none (Nat.le_refl _)] at value
        contradiction
    · intro a b before outside
      rcases kept a b (by rw [outside, Option.none_or, before]) with ⟨nonempty, below | ⟨above, value⟩⟩
      · have source : last.src ≠ [] := by
          intro empty
          simp [empty] at nonempty
        exact ⟨below.1, source, below.2⟩
      · -- a byte that the last call stored is one it was asked to write
        rw [List.getElem?_take] at value
        split at value
        · have asked := byteFor_some.mpr ⟨above, value⟩
          rw [outside] at asked
          contradiction
        · contradiction
  · rintro ⟨stored, covers⟩ a b written
    rw [List.take_of_length_le stored]
    cases asked : last.byteFor a with
    | some c =>
      rw [asked, Option.some_or] at written
      cases written
      obtain ⟨above, value⟩ := byteFor_some.mp asked
      have nonempty : last.src ≠ [] := by
        intro empty
        simp [empty] at value
      exact ⟨nonempty, .inr ⟨above, value⟩⟩
    | none =>
      rw [asked, Option.none_or] at written
      obtain ⟨below, nonempty, zero⟩ := covers a b written asked
      exact ⟨nonempty, .inl ⟨below, zero⟩⟩

end FileLaw

/-- After every sequence of writes that all succeed the law holds exactly when the last of
    them happens to cover the others. -/
theorem store_law_iff_last_covers (file : Option (List Byte)) (calls : List WriteCall)
    (succeed : ∀ nRet ∈ (runWrites file calls).1, nRet = 0) :
    StoreLaw file calls ↔ LastCovers calls := by
  rcases List.eq_nil_or_concat calls with rfl | ⟨earlier, last, rfl⟩
  · constructor
    · intro _ last none_
      simp at none_
    · intro _ a n desAddr positive _ _ written
      have first := written 0 (by omega)
      simp [latest] at first
  · rw [List.concat_eq_append] at succeed ⊢
    have success : (xlWritePrivateArea (runWrites file earlier).2 last).1 = 0 :=
      succeed _ (by simp [runWrites_concat])
    have left : (runWrites file (earlier ++ [last])).2 =
        some (fwriteAt [] last.startAddr (last.src.take last.stored)) := by
      rw [runWrites_concat]
      exact write_succeeds success
    rw [storeLaw_iff left]
    exact lastCovers_iff

def write (startAddr : Nat) (src : List Byte) : WriteCall := ⟨startAddr, some src, true, src.length⟩

theorem rewritten_range_kept : StoreLaw none [write 8 [1], write 8 [2, 3]] :=
  (store_law_iff_last_covers none [write 8 [1], write 8 [2, 3]] (by decide)).mpr (by
    intro last found
    cases found
    constructor
    · decide
    · intro a b before outside
      have asked : (write 8 [1]).byteFor a = some b := by simpa [latest] using before
      obtain ⟨above, value⟩ := byteFor_some.mp asked
      obtain ⟨inside, _⟩ := List.getElem?_eq_some_iff.mp value
      have eight : a = 8 := by
        change a - 8 < 1 at inside
        change 8 ≤ a at above
        omega
      subst eight
      exact absurd outside (by decide))

theorem second_write_loses_first :
    (∀ nRet ∈ (runWrites none [write 0 [0x41], write 4 [0x42]]).1, nRet = 0) ∧
      ¬StoreLaw none [write 0 [0x41], write 4 [0x42]] := by
  constructor
  · decide
  · intro law
    obtain ⟨des, read, bytes⟩ := law 0 1 [0] (by decide) (by decide) (by decide) (by decide)
    have value := bytes 0 (by decide)
    have given : xlReadPrivateArea (runWrites none [write 0 [0x41], write 4 [0x42]]).2 0 1 [0] =
        (0, [0]) := by decide
    rw [given] at read
    injection read with _ same
    rw [← same] at value
    exact absurd value (by decide)

section ChunkedReads

theorem readLoop_ended (fuel nLen size : Nat) (desAddr : List Byte) :
    readLoop (fuel + 1) [] nLen size desAddr = (1, desAddr) := by
  simp [readLoop]

/-- Of more than MAXLEN bytes only the first MAXLEN are ever read: where they are all there,
    the loop ends with success, and else at the end of the file. -/
theorem read_long (content desAddr : List Byte) (a : Nat) {n : Nat} (long : MAXLEN < n) :
    xlReadPrivateArea (some content) a n desAddr =
      (if (content.drop a).length < MAXLEN then 1 else 0,
        splice desAddr 0 ((content.drop a).take MAXLEN)) := by
  simp only [xlReadPrivateArea]
  generalize content.drop a = flashfd
  have asked : (if n > MAXLEN then MAXLEN else n) = MAXLEN := if_pos long
  have size : (flashfd.take MAXLEN).length = min MAXLEN flashfd.length := by simp
  rw [readLoop]
  simp only [asked, Nat.zero_add]
  by_cases empty : (flashfd.take MAXLEN).length = 0
  · have none : flashfd.length < MAXLEN := by
      have positive : 0 < MAXLEN := by decide
      omega
    rw [if_pos empty, if_pos none, List.length_eq_zero_iff.mp empty]
    simp [splice]
  · rw [if_neg empty]
    by_cases short : flashfd.length < MAXLEN
    · obtain ⟨m, more⟩ : ∃ m, n = m + 1 := ⟨n - 1, by omega⟩
      rw [if_neg (by omega), if_pos short, List.drop_eq_nil_of_le (by omega), more, readLoop_ended]
    · rw [if_pos (by omega), if_neg short, List.take_of_length_le (by omega)]

def ReadExact (run : Int × List Byte) (file : Option (List Byte)) (startAddr len : Nat) : Prop :=
  (run.1 = 0 ↔ len ≤ ((file.getD []).drop startAddr).length) ∧
    (run.1 = 0 → run.2.take len = ((file.getD []).drop startAddr).take len)

/-- When it does: the request is one chunk, or the first chunk already falls short, or what
    DesAddr holds behind the first chunk is what should be read there. -/
def ReadCondition (file : Option (List Byte)) (startAddr len : Nat) (desAddr : List Byte) : Prop :=
  len ≤ MAXLEN ∨ ((file.getD []).drop startAddr).length < MAXLEN ∨
    (len ≤ ((file.getD []).drop startAddr).length ∧
      (desAddr.take len).drop MAXLEN = (((file.getD []).drop startAddr).take len).drop MAXLEN)

theorem read_one_chunk {content desAddr : List Byte} {a n : Nat} (positive : 1 ≤ n)
    (small : n ≤ MAXLEN) :
    ReadExact (xlReadPrivateArea (some content) a n desAddr) (some content) a n := by
  rw [ReadExact, Option.getD_some]
  by_cases inside : a + n ≤ content.length
  · have there : n ≤ (content.drop a).length := by
      rw [List.length_drop]
      omega
    have whole : ((content.drop a).take n).length = n := by
      rw [List.length_take]
      omega
    rw [read_whole positive small inside, splice_start]
    refine ⟨by simp only [there], ?_⟩
    intro _
    exact List.take_left' whole
  · have failed : (xlReadPrivateArea (some content) a n desAddr).1 = 1 :=
      read_short desAddr small (by omega)
    rw [failed]
    refine ⟨?_, by simp⟩
    rw [List.length_drop]
    omega

theorem read_chunks_iff {content desAddr : List Byte} {a n : Nat} (long : MAXLEN < n) :
    ReadExact (xlReadPrivateArea (some content) a n desAddr) (some content) a n ↔
      ReadCondition (some content) a n desAddr := by
  rw [ReadExact, ReadCondition, Option.getD_some, read_long content desAddr a long]
  generalize content.drop a = bytes
  by_cases short : bytes.length < MAXLEN
  · simp only [short, if_true, true_or, or_true, iff_true]
    constructor
    · omega
    · intro zero
      contradiction
  · have chunk : (bytes.take MAXLEN).length = MAXLEN := by
      rw [List.length_take]
      omega
    have first : (bytes.take n).take MAXLEN = bytes.take MAXLEN := by
      rw [List.take_take, Nat.min_eq_left (by omega)]
    have given : (splice desAddr 0 (bytes.take MAXLEN)).take n =
        bytes.take MAXLEN ++ (desAddr.take n).drop MAXLEN := by
      rw [splice_start, chunk, List.take_append, List.take_of_length_le (by omega), chunk,
        List.drop_take]
    have wanted : bytes.take n = bytes.take MAXLEN ++ (bytes.take n).drop MAXLEN := by
      rw [← first, List.take_append_drop]
    have same : (splice desAddr 0 (bytes.take MAXLEN)).take n = bytes.take n ↔
        (desAddr.take n).drop MAXLEN = (bytes.take n).drop MAXLEN := by
      rw [given, wanted, List.append_cancel_left_eq]
      rw [← wanted]
    simp only [short, if_false, true_iff, forall_const, Nat.not_le_of_lt long, false_or, same]

end ChunkedReads

/-- Both reads do what they are to do exactly where the loop's one full chunk is enough. -/
theorem chunked_reads_exact_iff (file device : Option (List Byte)) (startAddr len : Nat)
    (desAddr : List Byte) (positive : 1 ≤ len) :
    (ReadExact (xlReadPrivateArea file startAddr len desAddr) file startAddr len ↔
      ReadCondition file startAddr len desAddr) ∧
    (ReadExact (xlReadPrivateAreaFlash device startAddr len desAddr) device startAddr len ↔
      ReadCondition device startAddr len desAddr) := by
  have either (content : Option (List Byte)) :
      ReadExact (xlReadPrivateArea content startAddr len desAddr) content startAddr len ↔
        ReadCondition content startAddr len desAddr := by
    cases content with
    | none =>
      have exact : ReadExact (xlReadPrivateArea none startAddr len desAddr) none startAddr len := by
        simp [ReadExact, xlReadPrivateArea]
        omega
      have empty : ReadCondition none startAddr len desAddr := by
        right
        left
        simp [MAXLEN]
      exact iff_of_true exact empty
    | some bytes =>
      by_cases small : len ≤ MAXLEN
      · exact iff_of_true (read_one_chunk positive small) (.inl small)
      · exact read_chunks_iff (Nat.lt_of_not_le small)
  exact ⟨either file, either device⟩

theorem short_reads_exact :
    ReadExact (xlReadPrivateArea (some [1, 2, 3]) 1 2 [0, 0]) (some [1, 2, 3]) 1 2 ∧
    ReadExact (xlReadPrivateAreaFlash (some [1, 2, 3]) 2 2 [0, 0]) (some [1, 2, 3]) 2 2 := by
  have file := (chunked_reads_exact_iff (some [1, 2, 3]) none 1 2 [0, 0] (by decide)).1
  have device := (chunked_reads_exact_iff none (some [1, 2, 3]) 2 2 [0, 0] (by decide)).2
  exact ⟨file.mpr (.inl (by decide)), device.mpr (.inl (by decide))⟩

theorem long_reads_inexact :
    ¬ ReadExact (xlReadPrivateArea (some (List.replicate 1024 7)) 0 1025 (List.replicate 1025 0))
      (some (List.replicate 1024 7)) 0 1025 ∧
    ¬ ReadExact (xlReadPrivateAreaFlash (some (List.replicate 2048 7)) 0 1025
      (List.replicate 1025 0)) (some (List.replicate 2048 7)) 0 1025 := by
  have long : MAXLEN < 1025 := by decide
  constructor
  · rw [read_chunks_iff long, ReadCondition, Option.getD_some, List.drop_zero, List.length_replicate]
    simp only [MAXLEN]
    omega
  · rw [xlReadPrivateAreaFlash, read_chunks_iff long, ReadCondition, Option.getD_some, List.drop_zero,
      List.length_replicate]
    have last : ¬ ((List.replicate 1025 (0 : Byte)).take 1025).drop 1024 =
        ((List.replicate 2048 (7 : Byte)).take 1025).drop 1024 := by
      rw [List.take_replicate, List.drop_replicate, List.take_replicate, List.drop_replicate]
      decide
    simp only [MAXLEN, last, and_false, or_false]
    omega

end PrivateArea
end TestSource
