import TestSource.QrDecode

/- Whole inputs: both loops for the version end, with a version that is enough, and the bits are
   decoded to the data of the entries. -/
namespace TestSource.Qr
open BitString

theorem getMinimumVersion_some {size version : Nat} {level : QRecLevel}
    (found : getMinimumVersion size level = some version) :
    1 ≤ version ∧ version ≤ 40 ∧ size ≤ getDataLength version level := by
  have enough := List.find?_some found
  have inside := List.mem_of_find?_eq_some found
  rw [List.mem_range'_1] at inside
  exact ⟨inside.1, by have upper := inside.2; simp only [QRSPEC_VERSION_MAX] at upper; omega, by simpa using enough⟩

theorem getMinimumVersion_none {size : Nat} {level : QRecLevel}
    (missing : getMinimumVersion size level = none) : getDataLength 40 level < size := by
  rw [getMinimumVersion, List.find?_eq_none] at missing
  have last := missing 40 (by rw [List.mem_range'_1]; decide)
  simpa using last

theorem getDataLength_mono {level : QRecLevel} {i j : Nat} (before : i ≤ j) (inside : j ≤ 40) :
    getDataLength i level ≤ getDataLength j level := by
  have all : ∀ level ∈ [QRecLevel.l, .m, .q, .h], ∀ i < 40, getDataLength i level ≤ getDataLength (i + 1) level := by
    decide +kernel
  have known : level ∈ [QRecLevel.l, .m, .q, .h] := by
    cases level <;> simp
  induction j with
  | zero =>
    rw [Nat.le_zero.mp before]
  | succ j ih =>
    by_cases same : i = j + 1
    · rw [same]
    · exact Nat.le_trans (ih (by omega) (by omega)) (all level known j (by omega))

/-- Entries that hold so few bytes that no number of bits overflows an int. -/
def Small (input : List Entry) : Prop := (input.flatMap Entry.data).length < 67108864

theorem estimateParts_le (version : Nat) {mode : QRencodeMode} {size bits : Nat}
    (known : isSplittableMode mode = true) (few : bits ≤ 8 * size) :
    estimateParts mode version size bits ≤ 28 * size := by
  have header := (lengthIndicator_bounds version known).2
  have positive := Nat.two_pow_pos (lengthIndicator mode version)
  have parts : (size + 2 ^ lengthIndicator mode version - 1) / 2 ^ lengthIndicator mode version ≤ size := by
    cases size with
    | zero => rw [Nat.zero_add, Nat.div_eq_of_lt (by omega)]
    | succ n =>
      apply Nat.div_le_of_le_mul
      have more := Nat.le_mul_of_pos_left n positive
      rw [Nat.mul_succ]
      omega
  have four : MODE_INDICATOR_SIZE = 4 := rfl
  have total := Nat.mul_le_mul parts (by omega : MODE_INDICATOR_SIZE + lengthIndicator mode version ≤ 20)
  simp only [estimateParts]
  omega

theorem estimateEntry_le (version : Nat) {entry : Entry} (plain : Plain entry) :
    estimateBitStreamSizeOfEntry version entry ≤ 28 * entry.size := by
  obtain ⟨mode, data⟩ := entry
  have known := plain.mode
  unfold estimateBitStreamSizeOfEntry
  cases mode with
  | num =>
    apply estimateParts_le _ rfl
    unfold estimateBitsModeNum
    split <;> try split
    all_goals omega
  | an =>
    apply estimateParts_le _ rfl
    unfold estimateBitsModeAn
    split <;> omega
  | eight =>
    apply estimateParts_le _ rfl
    exact Nat.le_of_eq (Nat.mul_comm _ _)
  | kanji =>
    apply estimateParts_le _ rfl
    unfold estimateBitsModeKanji
    omega
  | _ => cases known

theorem estimate_le (version : Nat) {input : List Entry} (plain : ∀ entry ∈ input, Plain entry) :
    estimateBitStreamSize version input ≤ 28 * (input.flatMap Entry.data).length := by
  have sum (bits : Nat) : input.foldl (fun bits entry => bits + estimateBitStreamSizeOfEntry version entry) bits ≤
      bits + 28 * (input.flatMap Entry.data).length := by
    induction input generalizing bits with
    | nil => exact Nat.le_refl _
    | cons entry input ih =>
      have here := estimateEntry_le version (plain entry (by simp))
      have later := ih (fun e mem => plain e (by simp [mem])) (bits + estimateBitStreamSizeOfEntry version entry)
      simp only [Entry.size] at here
      rw [List.foldl_cons, List.flatMap_cons, List.length_append]
      omega
  have whole := sum 0
  rwa [Nat.zero_add] at whole

theorem estimateLoop_ends (level : QRecLevel) {input : List Entry} (plain : ∀ entry ∈ input, Plain entry)
    (small : Small input) (rounds prev : Nat) (inside : prev ≤ 40) (enough : 40 < prev + rounds) :
    ∃ ver, estimateLoop level input rounds prev = some ver ∧ ver.getD 0 ≤ 40 := by
  induction rounds generalizing prev with
  | zero => omega
  | succ rounds ih =>
    have int : estimateBitStreamSize prev input + 7 < 2147483648 := by
      have bits := estimate_le prev plain
      unfold Small at small
      omega
    rw [estimateLoop]
    simp only [int, if_true]
    cases found : getMinimumVersion ((estimateBitStreamSize prev input + 7) / 8) level with
    | none => exact ⟨none, rfl, by decide⟩
    | some version =>
      obtain ⟨_, upper, _⟩ := getMinimumVersion_some found
      simp only
      split
      · exact ih version upper (by omega)
      · exact ⟨some version, rfl, upper⟩

/-- What a run of the loop leaves: a version that holds the bits, or bits for no version. -/
structure Converted (level : QRecLevel) (input : List Entry) (version v : Nat) (bits : BitStream) : Prop where
  least : version ≤ v
  inside : v ≤ 40
  streams : ∃ streams, createBitStream v input = .ok streams ∧ bits = streams.flatten
  holds : bits.length ≤ getDataLength v level * 8

/-- The versions that the loop comes to from this one: the next is the one that its bits ask for. -/
inductive Visited (level : QRecLevel) (input : List Entry) (version : Nat) : Nat → Prop where
  | start : Visited level input version version
  | next {u ver : Nat} {streams : List BitStream} : Visited level input version u →
      createBitStream u input = .ok streams →
      getMinimumVersion ((streams.flatten.length + 7) / 8) level = some ver → u < ver → Visited level input version ver

/-- At a version the loop comes to, the bits are more than version 40 holds. -/
def LoopTooLong (level : QRecLevel) (input : List Entry) (version : Nat) : Prop :=
  ∃ u streams, Visited level input version u ∧ createBitStream u input = .ok streams ∧
    getDataLength 40 level * 8 < streams.flatten.length

/-- The same for the version the loop starts from: the one that is set, or a higher estimate. -/
def TooLong (level : QRecLevel) (input : List Entry) (version : Nat) : Prop :=
  ∃ ver, estimateVersion level input = some ver ∧ LoopTooLong level input (max version (ver.getD 0))

theorem createBitStream_small (version : Nat) {input : List Entry} (plain : ∀ entry ∈ input, Plain entry)
    (small : Small input) : ∃ streams, createBitStream version input = .ok streams := by
  obtain ⟨streams, _, done, _, _, short⟩ := entries_read version plain
  unfold Small at small
  exact ⟨streams, createBitStream_ok.mpr ⟨done, by omega⟩⟩

theorem Visited.before {level : QRecLevel} {input : List Entry} {version ver u : Nat} {streams : List BitStream}
    (done : createBitStream version input = .ok streams)
    (found : getMinimumVersion ((streams.flatten.length + 7) / 8) level = some ver) (more : version < ver)
    (later : Visited level input ver u) : Visited level input version u := by
  induction later with
  | start => exact .next .start done found more
  | next _ done' found' more' ih => exact .next ih done' found' more'

theorem convertLoop_ends (level : QRecLevel) {input : List Entry} (plain : ∀ entry ∈ input, Plain entry)
    (small : Small input) {rounds version : Nat} (inside : version ≤ 40) (enough : 40 < version + rounds) :
    (∃ v bits, convertLoop level input rounds version = some (.ok (v, bits)) ∧
      Converted level input version v bits) ∨
    convertLoop level input rounds version = some (.error .erange) ∧ LoopTooLong level input version := by
  induction rounds generalizing version with
  | zero => omega
  | succ rounds ih =>
    obtain ⟨streams, done⟩ := createBitStream_small version plain small
    rw [convertLoop, done]
    simp only
    cases found : getMinimumVersion ((streams.flatten.length + 7) / 8) level with
    | none =>
      have long := getMinimumVersion_none found
      exact .inr ⟨rfl, version, streams, .start, done, by omega⟩
    | some ver =>
      obtain ⟨lower, upper, holds⟩ := getMinimumVersion_some found
      simp only
      by_cases more : version < ver
      · rw [if_pos more]
        cases ih upper (by omega) with
        | inl ended =>
          obtain ⟨v, bits, run, converted⟩ := ended
          exact .inl ⟨v, bits, run, { converted with least := by have least := converted.least; omega }⟩
        | inr ended =>
          obtain ⟨run, u, streams, visited, rest⟩ := ended
          exact .inr ⟨run, u, streams, visited.before done found more, rest⟩
      · rw [if_neg more]
        have wide : getDataLength ver level ≤ getDataLength version level :=
          getDataLength_mono (by omega) inside
        exact .inl ⟨version, streams.flatten, rfl, Nat.le_refl _, inside, ⟨streams, done, rfl⟩, by omega⟩

theorem appendPaddingBit_ok {version : Nat} {level : QRecLevel} {bstream : BitStream}
    (holds : bstream.length ≤ getDataLength version level * 8) :
    ∃ out, appendPaddingBit version level bstream = .ok out := by
  unfold appendPaddingBit
  rw [if_neg (by omega)]
  split
  · exact ⟨_, rfl⟩
  · split
    · exact ⟨_, rfl⟩
    · exact ⟨_, rfl⟩

theorem convertData_ends {version : Nat} (level : QRecLevel) {input : List Entry}
    (plain : ∀ entry ∈ input, Plain entry) (small : Small input) (inside : version ≤ 40) :
    (∃ v bstream, convertData version level input = some (.ok (v, bstream)) ∧
      Converted level input version v bstream) ∨
    convertData version level input = some (.error .erange) ∧ TooLong level input version := by
  obtain ⟨ver, estimated, upper⟩ :=
    estimateLoop_ends level plain small (QRSPEC_VERSION_MAX + 1) 0 (by decide) (by decide)
  have start : max version (ver.getD 0) ≤ 40 := by omega
  have rounds : 40 < max version (ver.getD 0) + (QRSPEC_VERSION_MAX + 2) := by
    simp only [QRSPEC_VERSION_MAX]
    omega
  have begun : convertData version level input =
      convertLoop level input (QRSPEC_VERSION_MAX + 2) (max version (ver.getD 0)) := by
    rw [convertData, estimateVersion, estimated]
    rfl
  rw [begun]
  cases convertLoop_ends level plain small start rounds with
  | inl ended =>
    obtain ⟨v, bstream, run, converted⟩ := ended
    exact .inl ⟨v, bstream, run, { converted with least := by have least := converted.least; omega }⟩
  | inr ended =>
    exact .inr ⟨ended.1, ver, estimated, ended.2⟩

theorem getBitStream_ok {version v : Nat} {level : QRecLevel} {input : List Entry} {bstream out : BitStream}
    (converted : convertData version level input = some (.ok (v, bstream)))
    (padded : appendPaddingBit v level bstream = .ok out) :
    getBitStream version level input = some (.ok (v, out)) := by
  simp only [getBitStream, converted, Option.bind_eq_bind, Option.bind_some, padded]
  rfl

theorem getBitStream_refused {version : Nat} {level : QRecLevel} {input : List Entry}
    (refused : convertData version level input = some (.error .erange)) :
    getBitStream version level input = some (.error .erange) := by
  simp only [getBitStream, refused, Option.bind_eq_bind, Option.bind_some]
  rfl

/-- An input of less than 64 MiB gets a version that holds its bits, none below the one it has, or
    it is refused since its bits are too many for version 40 at a version the loop came to. -/
theorem version_is_enough (version : Nat) (level : QRecLevel) (input : List Entry)
    (plain : ∀ entry ∈ input, Plain entry) (small : Small input) (inside : version ≤ 40) :
    (∃ v bits streams, getBitStream version level input = some (.ok (v, bits)) ∧ version ≤ v ∧ v ≤ 40 ∧
      createBitStream v input = .ok streams ∧ streams.flatten <+: bits ∧
      bits.length = getDataLength v level * 8) ∨
    getBitStream version level input = some (.error .erange) ∧ TooLong level input version := by
  cases convertData_ends level plain small inside with
  | inl ended =>
    obtain ⟨v, bstream, run, least, upper, ⟨streams, done, rfl⟩, holds⟩ := ended
    obtain ⟨out, padded⟩ := appendPaddingBit_ok holds
    obtain ⟨size, k, n, _, _, split⟩ := appendPaddingBit_spec padded
    exact .inl ⟨v, out, streams, getBitStream_ok run padded, least, upper, done, ⟨_, split.symm⟩, size⟩
  | inr ended =>
    obtain ⟨run, long⟩ := ended
    exact .inr ⟨getBitStream_refused run, long⟩

section Mixed

def mixedInput : List Entry := [⟨.num, [0x31, 0x32]⟩, ⟨.kanji, [0x82, 0x20]⟩]

theorem mixedInput_plain : ∀ entry ∈ mixedInput, Plain entry := by
  intro entry mem
  simp only [mixedInput, List.mem_cons, List.not_mem_nil, or_false] at mem
  cases mem with
  | inl same => exact same ▸ ⟨rfl, by decide⟩
  | inr same => exact same ▸ ⟨rfl, by decide⟩

theorem mixedInput_small : Small mixedInput := (by decide : 4 < 67108864)

theorem mixedInput_short (u : Nat) {streams : List BitStream} (done : createBitStream u mixedInput = .ok streams) :
    streams.flatten.length < 100 := by
  have num : encodeBitStream u ⟨.num, [0x31, 0x32]⟩ = .ok (encodeModeNum u [0x31, 0x32]) :=
    encodeBitStream_few u rfl (by decide)
  have kanji : encodeBitStream u ⟨.kanji, [0x82, 0x20]⟩ = .ok (encodeModeKanji u [0x82, 0x20]) :=
    encodeBitStream_few u rfl (by decide)
  have first := (lengthIndicator_bounds u (show isSplittableMode .num = true from rfl)).2
  have second := (lengthIndicator_bounds u (show isSplittableMode .kanji = true from rfl)).2
  have made := (createBitStream_ok.mp done).1
  simp only [mixedInput, List.mapM_cons, List.mapM_nil, num, kanji] at made
  cases made
  have digits : (numBits [0x31, 0x32]).length = 7 := by decide
  have pair : (kanjiBits [0x82, 0x20]).length = 13 := by decide
  simp only [List.flatten_cons, List.flatten_nil, List.length_append, encodeModeNum, encodeModeKanji, modeHeader,
    length_appendNum, digits, pair, List.length_nil]
  omega

theorem mixedInput_fits (version : Nat) : ¬TooLong .l mixedInput version := by
  intro long
  obtain ⟨_, _, u, streams, _, done, more⟩ := long
  have few := mixedInput_short u done
  have room : getDataLength 40 .l = 2956 := by decide
  omega

theorem mixedInput_versioned : ∃ v bits, getBitStream 1 .l mixedInput = some (.ok (v, bits)) ∧ 1 ≤ v ∧ v ≤ 40 := by
  cases version_is_enough 1 .l mixedInput mixedInput_plain mixedInput_small (by decide) with
  | inl made =>
    obtain ⟨v, bits, _, run, least, upper, _⟩ := made
    exact ⟨v, bits, run, least, upper⟩
  | inr refused => exact absurd refused.2 (mixedInput_fits 1)

theorem mixedInput_made : ∃ v bits, getBitStream 1 .l mixedInput = some (.ok (v, bits)) := by
  cases convertData_ends .l mixedInput_plain mixedInput_small (show 1 ≤ 40 by decide) with
  | inl ended =>
    obtain ⟨v, bstream, run, converted⟩ := ended
    obtain ⟨out, padded⟩ := appendPaddingBit_ok converted.holds
    exact ⟨v, out, getBitStream_ok run padded⟩
  | inr refused => exact absurd refused.2 (mixedInput_fits 1)

end Mixed

/-- Everything that is encoded is read back, but for pairs that Shift-JIS does not have and the
    check of the range lets pass. -/
theorem stream_decoded_iff (version : Nat) (level : QRecLevel) (input : List Entry)
    (plain : ∀ entry ∈ input, Plain entry) (v : Nat) (bits : BitStream)
    (made : getBitStream version level input = some (.ok (v, bits))) :
    ∃ chunks rest, decodeBits v bits = some (chunks, rest) ∧ checkRemainderWords rest = true ∧
      (concatChunks chunks = input.flatMap Entry.data ↔
        ∀ entry ∈ input, entry.mode = .kanji → ∀ lo ∈ seconds entry.data, 0x40 ≤ lo.toNat) := by
  obtain ⟨_, _, chunks, rest, read, checked, same⟩ := getBitStream_reads plain made
  refine ⟨chunks, rest, read, checked, ?_⟩
  rw [same, flatMap_reread_iff]
  have each (entry : Entry) : entry.reread = entry.data ↔
      (entry.mode = .kanji → ∀ lo ∈ seconds entry.data, 0x40 ≤ lo.toNat) := by
    unfold Entry.reread
    split
    · rename_i kanji
      rw [rereadKanji_same_iff]
      exact ⟨fun high _ => high, fun high => high kanji⟩
    · rename_i other
      exact ⟨fun _ kanji => absurd kanji other, fun _ => rfl⟩
  constructor
  · intro all entry mem
    exact (each entry).mp (all entry mem)
  · intro all entry mem
    exact (each entry).mpr (all entry mem)

theorem mixedInput_misread : ∃ v bits chunks rest, getBitStream 1 .l mixedInput = some (.ok (v, bits)) ∧
    decodeBits v bits = some (chunks, rest) ∧ concatChunks chunks ≠ [0x31, 0x32, 0x82, 0x20] := by
  obtain ⟨v, bits, made⟩ := mixedInput_made
  obtain ⟨chunks, rest, read, _, same⟩ := stream_decoded_iff 1 .l mixedInput mixedInput_plain v bits made
  refine ⟨v, bits, chunks, rest, made, read, ?_⟩
  intro equal
  have high := same.mp equal ⟨.kanji, [0x82, 0x20]⟩ (by simp [mixedInput]) rfl 0x20 (by simp [seconds])
  exact absurd high (by decide)

end TestSource.Qr
