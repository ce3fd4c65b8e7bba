import TestSource.Common
import Mathlib.Data.List.Basic
import Mathlib.Tactic.IntervalCases

/- test_base64.c of C_TEST. An int that is kept in `prepare` is its 32 bits, and the value
   never becomes negative. No result means that the call does not come back with a
   buffer: malloc refuses the size and the program exits, or an access leaves its object. -/
namespace TestSource.CTest

def base : List Byte :=
  "ABCDEFGHIJKLMNOPQRSTUVWXYZabcdefghijklmnopqrstuvwxyz0123456789+/=".toList.map
    fun c => BitVec.ofNat 8 c.toNat

/-- A value once it is stored in an int. -/
def asInt (n : Int) : Int := toS32 (toU32 n)

/-- The bytes malloc gives for an int; a negative one is a huge size_t and is refused. -/
def malloc (n : Int) : Option Nat := if 0 ≤ n then some n.toNat else none

/-- One *f++ = v on a buffer of retLen bytes that is filled from its start. -/
def store (retLen : Nat) (f : List Byte) (v : Byte) : Option (List Byte) :=
  if f.length < retLen then some (f ++ [v]) else none

/-- The last *f = 0; what lies behind it is still as memset left it. -/
def finish (retLen : Nat) (f : List Byte) : Option (List Byte) := do
  let f ← store retLen f 0
  some (f ++ List.replicate (retLen - f.length) 0)

/-- The inner loop of both functions: `temp` items of w bits shifted into prepare. -/
def gather (w : Nat) (value : Byte → Option (BitVec 32)) (data : List Byte) (stop : Int) :
    Nat → Nat → BitVec 32 → Option (Nat × BitVec 32)
  | 0, _, prepare => some (0, prepare)
  | rounds + 1, tmp, prepare =>
      if stop ≤ tmp then some (0, prepare)
      else do
        let v ← value (← data[tmp]?)
        let (temp, prepare) ← gather w value data stop rounds (tmp + 1) ((prepare <<< w) ||| v)
        some (temp + 1, prepare)

def changed (temp : Nat) (prepare : BitVec 32) (i : Nat) : BitVec 32 :=
  if temp < i then 0x40 else (prepare >>> ((3 - i) * 6)) &&& 0x3F

def encodeLoop (data : List Byte) (dataLen : Int) (retLen : Nat) :
    Nat → Nat → List Byte → Option (List Byte)
  | 0, _, _ => none
  | fuel + 1, tmp, f =>
      if dataLen ≤ tmp then some f
      else do
        -- a char is sign extended before it is masked
        let (temp, prepare) ← gather 8 (fun ch => some (ch.signExtend 32 &&& 0xFF)) data dataLen
          3 tmp 0
        let prepare := prepare <<< ((3 - temp) * 8)
        let f ← (List.range 4).foldlM (fun f i => do
          store retLen f (← base[(changed temp prepare i).toNat]?)) f
        encodeLoop data dataLen retLen fuel (tmp + temp) f

def base64Encode (data : List Byte) (dataLen : Int) : Option (List Byte) := do
  let retLen := dataLen.tdiv 3 + if 0 < dataLen.tmod 3 then 1 else 0
  let retLen ← malloc (asInt (retLen * 4 + 1))
  let f ← encodeLoop data dataLen retLen (dataLen.toNat + 1) 0 []
  finish retLen f

/-- strrchr also finds the terminating NUL. -/
def strrchr (s : List Byte) (ch : Byte) : Option Nat :=
  if ch ∈ s ++ [0] then some (s.length - (s ++ [0]).reverse.idxOf ch) else none

def findPos (ch : Byte) : Option (BitVec 32) := (strrchr base ch).map (BitVec.ofNat 32)

/-- The outer loop of base64_decode. need has three bytes and memset clears four; the
    fourth does no harm only where the compiler has put nothing behind need. -/
def decodeLoop (spare : Bool) (data : List Byte) (stop : Int) (retLen : Nat) :
    Nat → Nat → List Byte → Option (List Byte)
  | 0, _, _ => none
  | fuel + 1, tmp, f =>
      if stop ≤ tmp then some f
      else if !spare then none
      else do
        let (temp, prepare) ← gather 6 findPos data stop 4 tmp 0
        let prepare := prepare <<< ((4 - temp) * 6)
        let f ← ((List.range 3).takeWhile (· ≠ temp)).foldlM (fun f i =>
          store retLen f (((prepare >>> ((2 - i) * 8)) &&& 0xFF).setWidth 8)) f
        decodeLoop spare data stop retLen fuel (tmp + temp) f

def charAt (data : List Byte) (i : Int) : Option Byte :=
  if 0 ≤ i then data[i.toNat]? else none

/-- Whether *(data + i) is '=', as 0 or 1. -/
def equalAt (data : List Byte) (i : Int) : Option Nat :=
  (charAt data i).map fun ch => if ch = 61 then 1 else 0

/-- The switch over equal_count: what is added to ret_len. -/
def spaceFor : Nat → Nat
  | 0 => 4
  | 1 => 4
  | 2 => 3
  | _ => 2

def base64Decode (spare : Bool) (data : List Byte) (dataLen : Int) : Option (List Byte) := do
  let equalCount := (← equalAt data (dataLen - 1)) + (← equalAt data (dataLen - 2)) +
    (← equalAt data (dataLen - 3))
  let retLen ← malloc (asInt (dataLen.tdiv 4 * 3 + spaceFor equalCount))
  let stop := dataLen - equalCount
  let f ← decodeLoop spare data stop retLen (stop.toNat + 1) 0 []
  finish retLen f

def letter (v : BitVec 6) : Byte :=
  let v := v.toNat
  BitVec.ofNat 8 (if v < 26 then 65 + v else if v < 52 then 97 + (v - 26)
    else if v < 62 then 48 + (v - 52) else if v = 62 then 43 else 47)

def pad : Byte := 61

def sextet (a b c : Byte) (i : Nat) : BitVec 6 := (a ++ b ++ c).extractLsb' ((3 - i) * 6) 6

/-- The padded encoding of RFC 4648. -/
def rfc4648 : List Byte → List Byte
  | [] => []
  | [a] => [letter (sextet a 0 0 0), letter (sextet a 0 0 1), pad, pad]
  | [a, b] => [letter (sextet a b 0 0), letter (sextet a b 0 1), letter (sextet a b 0 2), pad]
  | a :: b :: c :: rest =>
      [letter (sextet a b c 0), letter (sextet a b c 1), letter (sextet a b c 2),
        letter (sextet a b c 3)] ++ rfc4648 rest

theorem base_letter (v : BitVec 6) : base[v.toNat]? = some (letter v) := by
  revert v
  decide +kernel

theorem findPos_letter (v : BitVec 6) : findPos (letter v) = some (v.setWidth 32) := by
  revert v
  decide +kernel

theorem letter_ne_pad (v : BitVec 6) : letter v ≠ pad := by
  revert v
  decide +kernel

def pack (w : Nat) (prepare : BitVec 32) (items : List (BitVec 32)) : BitVec 32 :=
  items.foldl (fun p v => (p <<< w) ||| v) prepare

section Bits

theorem and_low (v : BitVec 32) {k : Nat} (small : k ≤ 32) :
    v &&& BitVec.ofNat 32 (2 ^ k - 1) = (v.setWidth k).setWidth 32 := by
  have pow : 2 ^ k ≤ 2 ^ 32 := Nat.pow_le_pow_right (by decide) small
  have positive := Nat.two_pow_pos k
  apply BitVec.eq_of_toNat_eq
  simp only [BitVec.toNat_and, BitVec.toNat_ofNat, BitVec.toNat_setWidth]
  rw [Nat.mod_eq_of_lt (by omega : 2 ^ k - 1 < 2 ^ 32), Nat.and_two_pow_sub_one_eq_mod]
  exact (Nat.mod_eq_of_lt (Nat.lt_of_lt_of_le (Nat.mod_lt _ positive) pow)).symm

theorem masked_char (ch : Byte) : ch.signExtend 32 &&& 0xFF = ch.setWidth 32 := by
  have low := and_low (ch.signExtend 32) (show 8 ≤ 32 by decide)
  have same : (ch.signExtend 32).setWidth 8 = ch := by
    ext i inside
    simp [BitVec.getLsbD_signExtend, inside]
    omega
  rw [same] at low
  exact low

theorem shifted_setWidth (group : BitVec 24) {shift w : Nat} (fits : shift + w ≤ 24) :
    (group.setWidth 32 >>> shift).setWidth w = group.extractLsb' shift w := by
  ext i inside
  simp
  omega

theorem changed_sextet (a b c : Byte) {temp i : Nat} (inside : i ≤ temp) (small : i ≤ 3) :
    changed temp ((a ++ b ++ c).setWidth 32) i = (sextet a b c i).setWidth 32 := by
  have low := and_low ((a ++ b ++ c).setWidth 32 >>> ((3 - i) * 6)) (show 6 ≤ 32 by decide)
  rw [shifted_setWidth (a ++ b ++ c) (by omega)] at low
  simp only [changed, if_neg (by omega : ¬temp < i)]
  exact low

theorem stored_byte (a b c : Byte) {i : Nat} (small : i ≤ 2) :
    ((((a ++ b ++ c).setWidth 32 >>> ((2 - i) * 8)) &&& 0xFF).setWidth 8 : Byte) =
      (a ++ b ++ c).extractLsb' ((2 - i) * 8) 8 := by
  have low := and_low ((a ++ b ++ c).setWidth 32 >>> ((2 - i) * 8)) (show 8 ≤ 32 by decide)
  rw [shifted_setWidth (a ++ b ++ c) (by omega)] at low
  have cut := congrArg (BitVec.setWidth 8) low
  rw [BitVec.setWidth_setWidth_of_le _ (by decide), BitVec.setWidth_eq] at cut
  exact cut

/-- The shift behind the loop stands for the items that are missing. -/
theorem pack_shift (w : Nat) (prepare : BitVec 32) (items : List (BitVec 32)) (n : Nat) :
    pack w prepare items <<< (n * w) = pack w prepare (items ++ List.replicate n 0) := by
  induction n with
  | zero => simp
  | succ n ih =>
    have last : pack w prepare (items ++ List.replicate (n + 1) 0) =
        pack w prepare (items ++ List.replicate n 0) <<< w := by
      simp [pack, List.replicate_succ', ← List.append_assoc]
    rw [last, ← ih, ← BitVec.shiftLeft_add, Nat.succ_mul]

theorem pack_bytes (a b c : Byte) :
    pack 8 0 [a.setWidth 32, b.setWidth 32, c.setWidth 32] = (a ++ b ++ c).setWidth 32 := by
  ext i inside
  simp [pack]
  grind

theorem pack_sextets (a b c : Byte) :
    pack 6 0 [(sextet a b c 0).setWidth 32, (sextet a b c 1).setWidth 32,
      (sextet a b c 2).setWidth 32, (sextet a b c 3).setWidth 32] = (a ++ b ++ c).setWidth 32 := by
  unfold sextet
  generalize a ++ b ++ c = group
  ext i inside
  simp [pack]
  grind

theorem sextet_two_zero (a : Byte) : sextet a 0 0 2 = 0 := by
  ext i inside
  simp [sextet]
  grind

theorem sextet_three_zero (a b : Byte) : sextet a b 0 3 = 0 := by
  ext i inside
  simp [sextet]
  grind

theorem bytes_of_group (a b c : Byte) :
    (a ++ b ++ c).extractLsb' 16 8 = a ∧ (a ++ b ++ c).extractLsb' 8 8 = b ∧
      (a ++ b ++ c).extractLsb' 0 8 = c := by
  constructor
  · ext i inside
    simp
    grind
  · constructor
    · ext i inside
      simp
      grind
    · ext i inside
      simp
      grind

end Bits

theorem foldlM_store (retLen : Nat) (item : Nat → Option Byte) (value : Nat → Byte)
    (is : List Nat) : ∀ f : List Byte, (∀ i ∈ is, item i = some (value i)) →
      f.length + is.length ≤ retLen →
      is.foldlM (fun f i => (item i).bind (store retLen f)) f = some (f ++ is.map value) := by
  induction is with
  | nil =>
    intro f _ _
    simp
  | cons i is ih =>
    intro f found room
    simp only [List.length_cons] at room
    have here : store retLen f (value i) = some (f ++ [value i]) := by
      rw [store, if_pos (by omega)]
    have rest := ih (f ++ [value i]) (fun j inside => found j (by simp [inside]))
      (by simp only [List.length_append, List.length_singleton]; omega)
    simp only [List.foldlM_cons, found i (by simp), Option.bind_some, here, Option.bind_eq_bind]
    simpa using rest

/-- The items that stand at tmp are all read, up to the number of rounds or to stop. -/
theorem gather_items (w : Nat) (value : Byte → Option (BitVec 32)) (word : Byte → BitVec 32)
    (data : List Byte) (stop : Int) (items : List Byte) :
    ∀ (rounds tmp : Nat) (prepare : BitVec 32) (rest : List Byte),
      (∀ ch ∈ items, value ch = some (word ch)) → data.drop tmp = items ++ rest →
      items.length ≤ rounds → (tmp + items.length : Int) ≤ stop →
      (items.length = rounds ∨ stop = (tmp + items.length : Int)) →
      gather w value data stop rounds tmp prepare =
        some (items.length, pack w prepare (items.map word)) := by
  induction items with
  | nil =>
    intro rounds tmp prepare rest _ _ _ _ ends
    cases rounds with
    | zero => simp [gather, pack]
    | succ rounds =>
      simp only [List.length_nil] at ends
      simp [gather, pack, show stop ≤ tmp by omega]
  | cons ch items ih =>
    intro rounds tmp prepare rest known split fits inside ends
    simp only [List.length_cons] at fits inside ends
    cases rounds with
    | zero => omega
    | succ rounds =>
      have here : data[tmp]? = some ch := by
        have first := congrArg (fun l : List Byte => l[0]?) split
        simpa using first
      have behind : data.drop (tmp + 1) = items ++ rest := by
        rw [← List.drop_drop, split]
        simp
      have after := ih rounds (tmp + 1) ((prepare <<< w) ||| word ch) rest
        (fun c inside => known c (by simp [inside])) behind (by omega) (by omega) (by omega)
      have more : ¬stop ≤ (tmp : Int) := by omega
      simp only [gather, if_neg more, here, Option.bind_eq_bind, Option.bind_some,
        known ch (by simp), after]
      simp [pack]

theorem rfc4648_length (x : List Byte) : (rfc4648 x).length = 4 * ((x.length + 2) / 3) := by
  induction x using rfc4648.induct with
  | case1 => simp [rfc4648]
  | case2 a => simp [rfc4648]
  | case3 a b => simp [rfc4648]
  | case4 a b c rest ih =>
    simp only [rfc4648, List.length_append, List.length_cons, List.length_nil, ih]
    omega

/-- The four characters of a group of which only the first temp bytes are there. -/
def quad (a b c : Byte) (temp : Nat) : List Byte :=
  (List.range 4).map fun i => if temp < i then pad else letter (sextet a b c i)

theorem quad_one (a : Byte) : quad a 0 0 1 = rfc4648 [a] := by
  simp [quad, rfc4648, List.range_succ]

theorem quad_two (a b : Byte) : quad a b 0 2 = rfc4648 [a, b] := by
  simp [quad, rfc4648, List.range_succ]

theorem quad_three (a b c : Byte) (rest : List Byte) :
    rfc4648 (a :: b :: c :: rest) = quad a b c 3 ++ rfc4648 rest := by
  simp [quad, rfc4648, List.range_succ]

section Encode
variable {x : List Byte} {retLen : Nat}

theorem gather_bytes {tmp : Nat} {items rest : List Byte} (split : x.drop tmp = items ++ rest)
    (few : items.length ≤ 3) (nonempty : 0 < items.length) (last : items.length = 3 ∨ rest = []) :
    gather 8 (fun ch => some (ch.signExtend 32 &&& 0xFF)) x x.length 3 tmp 0 =
      some (items.length, pack 8 0 (items.map fun ch => ch.setWidth 32)) := by
  have size := congrArg List.length split
  simp only [List.length_drop, List.length_append] at size
  apply gather_items 8 _ _ x x.length items 3 tmp 0 rest _ split few (by omega)
  · rcases last with full | ended
    · exact .inl full
    · right
      simp only [ended, List.length_nil] at size
      omega
  · intro ch _
    rw [masked_char]

theorem pack_filled {items : List Byte} {a b c : Byte}
    (filled : items ++ List.replicate (3 - items.length) 0 = [a, b, c]) :
    pack 8 0 (items.map fun ch => ch.setWidth 32) <<< ((3 - items.length) * 8) =
      (a ++ b ++ c).setWidth 32 := by
  have zeros : (List.replicate (3 - items.length) (0 : Byte)).map (fun ch => ch.setWidth 32) =
      List.replicate (3 - items.length) (0 : BitVec 32) := by simp
  rw [pack_shift, ← zeros, ← List.map_append, filled]
  exact pack_bytes a b c

theorem base_changed (a b c : Byte) {n i : Nat} (inside : i < 4) :
    base[(changed n ((a ++ b ++ c).setWidth 32) i).toNat]? =
      some (if n < i then pad else letter (sextet a b c i)) := by
  by_cases behind : n < i
  · simp only [changed, if_pos behind]
    decide
  · have small : ((sextet a b c i).setWidth 32).toNat = (sextet a b c i).toNat := by
      simp
      omega
    rw [changed_sextet a b c (by omega) (by omega), if_neg behind, small, base_letter]

/-- One round over one to three bytes; the missing ones count as zero. -/
theorem encodeLoop_group {fuel tmp : Nat} {f : List Byte} (items rest : List Byte) {a b c : Byte}
    (split : x.drop tmp = items ++ rest) (last : items.length = 3 ∨ rest = [])
    (filled : items ++ List.replicate (3 - items.length) 0 = [a, b, c])
    (nonempty : 0 < items.length) (room : f.length + 4 ≤ retLen) :
    encodeLoop x x.length retLen (fuel + 1) tmp f =
      encodeLoop x x.length retLen fuel (tmp + items.length)
        (f ++ quad a b c items.length) := by
  have size := congrArg List.length split
  have three := congrArg List.length filled
  simp only [List.length_drop, List.length_append, List.length_replicate, List.length_cons,
    List.length_nil] at size three
  have stored := foldlM_store retLen
    (fun i => base[(changed items.length ((a ++ b ++ c).setWidth 32) i).toNat]?)
    (fun i => if items.length < i then pad else letter (sextet a b c i)) (List.range 4) f
    (by
      intro i inside
      exact base_changed a b c (List.mem_range.mp inside))
    (by simpa using room)
  have more : ¬(x.length : Int) ≤ tmp := by omega
  rw [encodeLoop, if_neg more, gather_bytes split (by omega) nonempty last]
  simp only [Option.bind_eq_bind, Option.bind_some, pack_filled filled]
  rw [stored]
  simp [quad]

theorem encodeLoop_ended {fuel tmp : Nat} {f : List Byte} (split : x.drop tmp = []) :
    encodeLoop x x.length retLen (fuel + 1) tmp f = some f := by
  have size := congrArg List.length split
  simp only [List.length_drop, List.length_nil] at size
  have ended : (x.length : Int) ≤ tmp := by omega
  rw [encodeLoop, if_pos ended]

theorem encodeLoop_spec (rest : List Byte) : ∀ (fuel tmp : Nat) (f : List Byte),
    x.drop tmp = rest → rest.length < fuel → f.length + (rfc4648 rest).length ≤ retLen →
    encodeLoop x x.length retLen fuel tmp f = some (f ++ rfc4648 rest) := by
  induction rest using rfc4648.induct with
  | case1 =>
    intro fuel tmp f split enough room
    obtain ⟨fuel, rfl⟩ : ∃ k, fuel = k + 1 := ⟨fuel - 1, by omega⟩
    rw [encodeLoop_ended split]
    simp [rfc4648]
  | case2 a =>
    intro fuel tmp f split enough room
    simp only [List.length_singleton] at enough
    obtain ⟨fuel, rfl⟩ : ∃ k, fuel = k + 1 + 1 := ⟨fuel - 2, by omega⟩
    have behind : x.drop (tmp + 1) = [] := by
      rw [← List.drop_drop, split]
      simp
    rw [encodeLoop_group [a] [] split (.inr rfl) rfl (by simp) room]
    rw [List.length_singleton, encodeLoop_ended behind, quad_one]
  | case3 a b =>
    intro fuel tmp f split enough room
    simp only [List.length_cons, List.length_nil] at enough
    obtain ⟨fuel, rfl⟩ : ∃ k, fuel = k + 1 + 1 := ⟨fuel - 2, by omega⟩
    have behind : x.drop (tmp + 2) = [] := by
      rw [← List.drop_drop, split]
      simp
    rw [encodeLoop_group [a, b] [] split (.inr rfl) rfl (by simp) room]
    rw [show [a, b].length = 2 by rfl, encodeLoop_ended behind, quad_two]
  | case4 a b c rest ih =>
    intro fuel tmp f split enough room
    simp only [List.length_cons] at enough
    obtain ⟨fuel, rfl⟩ : ∃ k, fuel = k + 1 := ⟨fuel - 1, by omega⟩
    have behind : x.drop (tmp + 3) = rest := by
      rw [← List.drop_drop, split]
      simp
    have four : (quad a b c 3).length = 4 := by simp [quad]
    rw [quad_three, List.length_append, four] at room
    rw [encodeLoop_group [a, b, c] rest split (.inl rfl) rfl (by simp)
      (by omega)]
    rw [show [a, b, c].length = 3 by rfl, ih fuel (tmp + 3) _ behind (by omega)
      (by rw [List.length_append, four]; omega), quad_three, List.append_assoc]

end Encode

section Decode
variable {data : List Byte} {stop : Int} {retLen : Nat}

section Letters
variable {tmp k : Nat} {rest : List Byte} {a b c : Byte}

theorem gather_letters
    (split : data.drop tmp = ((List.range k).map fun i => letter (sextet a b c i)) ++ rest)
    (most : k ≤ 4) (inside : (tmp + k : Int) ≤ stop) (last : k = 4 ∨ stop = (tmp + k : Int)) :
    gather 6 findPos data stop 4 tmp 0 =
      some (k, pack 6 0 ((List.range k).map fun i => (sextet a b c i).setWidth 32)) := by
  have items := gather_items 6 findPos (fun ch => (findPos ch).getD 0) data stop
    ((List.range k).map fun i => letter (sextet a b c i)) 4 tmp 0 rest
  simp only [List.length_map, List.length_range, List.map_map, Function.comp_def,
    findPos_letter, Option.getD_some] at items
  apply items _ split most inside last
  intro ch known
  obtain ⟨i, _, rfl⟩ := List.mem_map.mp known
  rw [findPos_letter, Option.getD_some]

theorem pack_letters (most : k ≤ 4) (missing : ∀ i, k ≤ i → i < 4 → sextet a b c i = 0) :
    pack 6 0 ((List.range k).map fun i => (sextet a b c i).setWidth 32) <<< ((4 - k) * 6) =
      (a ++ b ++ c).setWidth 32 := by
  have zeros : List.replicate (4 - k) (0 : BitVec 32) =
      (List.range' k (4 - k)).map fun i => (sextet a b c i).setWidth 32 := by
    symm
    apply List.eq_replicate_iff.mpr
    constructor
    · simp
    · intro v known
      obtain ⟨i, place, rfl⟩ := List.mem_map.mp known
      rw [List.mem_range'_1] at place
      rw [missing i (by omega) (by omega)]
      rfl
  have joined : List.range k ++ List.range' k (4 - k) = List.range 4 := by
    interval_cases k <;> rfl
  rw [pack_shift, zeros, ← List.map_append, joined]
  exact pack_sextets a b c

theorem stored_bytes (a b c : Byte) (few : 0 < k) (most : k ≤ 4) :
    ((List.range 3).takeWhile (· ≠ k)).map
      (fun i => (a ++ b ++ c).extractLsb' ((2 - i) * 8) 8) = [a, b, c].take k := by
  obtain ⟨first, second, third⟩ := bytes_of_group a b c
  interval_cases k <;> simp [List.range_succ, List.takeWhile, first, second, third]

end Letters

/-- One round over two to four letters of a group. -/
theorem decodeLoop_group {fuel tmp k : Nat} {f rest : List Byte} {a b c : Byte}
    (split : data.drop tmp = ((List.range k).map fun i => letter (sextet a b c i)) ++ rest)
    (few : 0 < k) (most : k ≤ 4) (missing : ∀ i, k ≤ i → i < 4 → sextet a b c i = 0)
    (inside : (tmp + k : Int) ≤ stop) (last : k = 4 ∨ stop = (tmp + k : Int))
    (room : f.length + 3 ≤ retLen) :
    decodeLoop true data stop retLen (fuel + 1) tmp f =
      decodeLoop true data stop retLen fuel (tmp + k) (f ++ [a, b, c].take k) := by
  have stored := foldlM_store retLen
    (fun i =>
      some (((((a ++ b ++ c).setWidth 32 : BitVec 32) >>> ((2 - i) * 8)) &&& 0xFF).setWidth 8))
    (fun i => (a ++ b ++ c).extractLsb' ((2 - i) * 8) 8)
    ((List.range 3).takeWhile (· ≠ k)) f
    (by
      intro i known
      have small := List.mem_range.mp ((List.takeWhile_sublist _).mem known)
      rw [stored_byte a b c (by omega)])
    (by
      have fewer := (List.takeWhile_sublist (l := List.range 3) (· ≠ k)).length_le
      simp only [List.length_range] at fewer
      omega)
  have more : ¬stop ≤ (tmp : Int) := by omega
  rw [decodeLoop, if_neg more, gather_letters split most inside last]
  simp only [Option.bind_eq_bind, Option.bind_some, pack_letters most missing, Bool.not_true,
    Bool.false_eq_true, if_false]
  simp only [Option.bind_some] at stored
  rw [stored, stored_bytes a b c few most]
  simp

theorem decodeLoop_ended {spare : Bool} {fuel tmp : Nat} {f : List Byte} (ended : stop ≤ tmp) :
    decodeLoop spare data stop retLen (fuel + 1) tmp f = some f := by
  rw [decodeLoop, if_pos ended]

theorem decodeLoop_last {fuel tmp k : Nat} {f rest : List Byte} {a b c : Byte}
    (split : data.drop tmp = ((List.range k).map fun i => letter (sextet a b c i)) ++ rest)
    (few : 0 < k) (most : k ≤ 4) (missing : ∀ i, k ≤ i → i < 4 → sextet a b c i = 0)
    (ended : stop = (tmp + k : Int)) (room : f.length + 3 ≤ retLen) :
    decodeLoop true data stop retLen (fuel + 1 + 1) tmp f = some (f ++ [a, b, c].take k) := by
  have inside : (tmp + k : Int) ≤ stop := by omega
  have behind : stop ≤ ((tmp + k : Nat) : Int) := by omega
  rw [decodeLoop_group split few most missing inside (.inr ended) room, decodeLoop_ended behind]

def pads (x : List Byte) : Nat := (3 - x.length % 3) % 3

/-- A partial group leaves one byte more than it holds. -/
def filler (x : List Byte) : List Byte := if x.length % 3 = 0 then [] else [0]

theorem pads_group (a b c : Byte) (rest : List Byte) : pads (a :: b :: c :: rest) = pads rest := by
  simp only [pads, List.length_cons]
  omega

theorem filler_group (a b c : Byte) (rest : List Byte) :
    filler (a :: b :: c :: rest) = filler rest := by
  have same : (rest.length + 1 + 1 + 1) % 3 = rest.length % 3 := by omega
  simp only [filler, List.length_cons, same]

theorem decodeLoop_spec (rest : List Byte) : ∀ (fuel tmp : Nat) (f tail : List Byte),
    data.drop tmp = rfc4648 rest ++ tail →
    stop = (tmp + (rfc4648 rest).length : Int) - pads rest → rest.length < fuel →
    f.length + 3 * ((rest.length + 2) / 3) ≤ retLen →
    decodeLoop true data stop retLen fuel tmp f = some (f ++ rest ++ filler rest) := by
  induction rest using rfc4648.induct with
  | case1 =>
    intro fuel tmp f tail split size enough room
    obtain ⟨fuel, rfl⟩ : ∃ k, fuel = k + 1 := ⟨fuel - 1, by omega⟩
    rw [decodeLoop_ended (by simp [size, rfc4648, pads])]
    simp [filler]
  | case2 a =>
    intro fuel tmp f tail split size enough room
    simp only [List.length_singleton] at enough room
    obtain ⟨fuel, rfl⟩ : ∃ k, fuel = k + 1 + 1 := ⟨fuel - 2, by omega⟩
    have letters : data.drop tmp =
        ((List.range 2).map fun i => letter (sextet a 0 0 i)) ++ (pad :: pad :: tail) := by
      simp [split, rfc4648, List.range_succ]
    have ended : stop = tmp + 2 := by
      rw [size, rfc4648_length]
      simp [pads]
      omega
    have missing : ∀ i, 2 ≤ i → i < 4 → sextet a 0 0 i = 0 := by
      intro i low high
      interval_cases i
      · exact sextet_two_zero a
      · exact sextet_three_zero a 0
    rw [decodeLoop_last letters (by decide) (by decide) missing ended room]
    simp [filler]
  | case3 a b =>
    intro fuel tmp f tail split size enough room
    simp only [List.length_cons, List.length_nil] at enough room
    obtain ⟨fuel, rfl⟩ : ∃ k, fuel = k + 1 + 1 := ⟨fuel - 2, by omega⟩
    have letters : data.drop tmp =
        ((List.range 3).map fun i => letter (sextet a b 0 i)) ++ (pad :: tail) := by
      simp [split, rfc4648, List.range_succ]
    have ended : stop = tmp + 3 := by
      rw [size, rfc4648_length]
      simp [pads]
      omega
    have missing : ∀ i, 3 ≤ i → i < 4 → sextet a b 0 i = 0 := by
      intro i low high
      interval_cases i
      exact sextet_three_zero a b
    rw [decodeLoop_last letters (by decide) (by decide) missing ended room]
    simp [filler]
  | case4 a b c rest ih =>
    intro fuel tmp f tail split size enough room
    simp only [List.length_cons] at enough room
    obtain ⟨fuel, rfl⟩ : ∃ k, fuel = k + 1 := ⟨fuel - 1, by omega⟩
    have letters : data.drop tmp =
        ((List.range 4).map fun i => letter (sextet a b c i)) ++ (rfc4648 rest ++ tail) := by
      simp [split, rfc4648, List.range_succ]
    have behind : data.drop (tmp + 4) = rfc4648 rest ++ tail := by
      rw [← List.drop_drop, letters]
      simp [List.range_succ]
    rw [pads_group, rfc4648_length] at size
    simp only [List.length_cons] at size
    have fewer : pads rest ≤ 4 * ((rest.length + 2) / 3) := by
      unfold pads
      omega
    rw [decodeLoop_group letters (by decide) (by decide) (by omega) (by omega) (.inl rfl)
      (by omega)]
    rw [ih fuel (tmp + 4) _ tail behind (by rw [rfc4648_length]; omega) (by omega)
      (by simp; omega), filler_group]
    simp

end Decode

theorem rfc4648_ends (x : List Byte) (nonempty : x ≠ []) : ∃ body c₁ c₂ c₃,
    rfc4648 x = body ++ [c₁, c₂, c₃] ∧
      (if c₃ = 61 then 1 else 0) + (if c₂ = 61 then 1 else 0) + (if c₁ = 61 then 1 else 0) =
        pads x := by
  have plain (v : BitVec 6) : letter v ≠ 61#8 := letter_ne_pad v
  induction x using rfc4648.induct with
  | case1 => contradiction
  | case2 a =>
    exact ⟨[letter (sextet a 0 0 0)], letter (sextet a 0 0 1), pad, pad, by simp [rfc4648],
      by simp [pads, pad, plain]⟩
  | case3 a b =>
    exact ⟨[letter (sextet a b 0 0)], letter (sextet a b 0 1), letter (sextet a b 0 2), pad,
      by simp [rfc4648], by simp [pads, pad, plain]⟩
  | case4 a b c rest ih =>
    by_cases ended : rest = []
    · subst ended
      exact ⟨[letter (sextet a b c 0)], letter (sextet a b c 1), letter (sextet a b c 2),
        letter (sextet a b c 3), by simp [rfc4648], by simp [pads, plain]⟩
    · obtain ⟨body, c₁, c₂, c₃, shape, count⟩ := ih ended
      rw [pads_group]
      refine ⟨quad a b c 3 ++ body, c₁, c₂, c₃, ?_, count⟩
      rw [quad_three, shape, ← List.append_assoc]

theorem asInt_small {n : Nat} (small : n < 2147483648) : asInt n = n := by
  unfold asInt toS32 toU32
  split <;> omega

theorem asInt_lt (n : Int) : asInt n < 2147483648 := by
  unfold asInt toS32 toU32
  split <;> omega

theorem malloc_small {n : Nat} (small : n < 2147483648) : malloc (asInt n) = some n := by
  rw [asInt_small small, malloc, if_pos (by omega), Int.toNat_natCast]

theorem malloc_asInt {n : Int} {retLen : Nat} (asked : malloc (asInt n) = some retLen) :
    retLen < 2147483648 := by
  have bound := asInt_lt n
  unfold malloc at asked
  split at asked
  · simp only [Option.some.injEq] at asked
    omega
  · contradiction

theorem finish_room {retLen : Nat} {f : List Byte} (room : f.length < retLen) :
    finish retLen f = some (f ++ [0] ++ List.replicate (retLen - (f.length + 1)) 0) := by
  simp [finish, store, room]

theorem finish_length {retLen : Nat} {f buf : List Byte} (done : finish retLen f = some buf) :
    buf.length = retLen := by
  unfold finish store at done
  split at done
  · simp at done
    subst done
    simp
    omega
  · simp at done

def RoundTrip (spare : Bool) (x : List Byte) : Prop :=
  base64Encode x (asInt x.length) = some (rfc4648 x ++ [0]) ∧
    (rfc4648 x).length = 4 * ((x.length + 2) / 3) ∧
    ∃ buf, base64Decode spare (rfc4648 x ++ [0]) (asInt (rfc4648 x).length) = some buf ∧
      buf.take x.length = x ∧ buf[x.length]? = some 0 ∧ (0 ∉ x → buf.takeWhile (· ≠ 0) = x)

/-- The size passed to malloc for the encoding fits an int. -/
def Fits (x : List Byte) : Prop := 4 * ((x.length + 2) / 3) + 1 < 2147483648

theorem encode_rfc4648 {x : List Byte} (fits : Fits x) :
    base64Encode x (asInt x.length) = some (rfc4648 x ++ [0]) := by
  unfold Fits at fits
  have size : asInt x.length = x.length := asInt_small (by omega)
  have groups : (x.length : Int).tdiv 3 + (if 0 < (x.length : Int).tmod 3 then 1 else 0) =
      ((x.length + 2) / 3 : Nat) := by
    rw [Int.tdiv_eq_ediv_of_nonneg (by omega), Int.tmod_eq_emod_of_nonneg (by omega)]
    split <;> omega
  have room : malloc (asInt (((x.length + 2) / 3 : Nat) * 4 + 1)) =
      some (4 * ((x.length + 2) / 3) + 1) := by
    have small := malloc_small fits
    rw [Nat.mul_comm 4] at small
    rw [Nat.mul_comm 4]
    exact small
  have filled : encodeLoop x x.length (4 * ((x.length + 2) / 3) + 1) (x.length + 1) 0 [] =
      some ([] ++ rfc4648 x) :=
    encodeLoop_spec x _ 0 [] (by simp) (by omega) (by rw [rfc4648_length]; simp)
  have length := rfc4648_length x
  simp only [base64Encode, size, groups, room, Option.bind_eq_bind, Option.bind_some,
    Int.toNat_natCast, filled]
  rw [finish_room (by simp; omega)]
  simp [length]

theorem encode_fits {x text : List Byte} {n : Int} (done : base64Encode x n = some text) :
    text.length < 2147483648 := by
  simp only [base64Encode, Option.bind_eq_bind, Option.bind_eq_some_iff] at done
  obtain ⟨retLen, asked, f, _, ended⟩ := done
  rw [finish_length ended]
  exact malloc_asInt asked

/-- Up to its loop the decoder does the same for every layout of its frame. -/
theorem decode_enters {x : List Byte} (spare : Bool) (nonempty : x ≠ []) (fits : Fits x) :
    base64Decode spare (rfc4648 x ++ [0]) (asInt (rfc4648 x).length) =
      (decodeLoop spare (rfc4648 x ++ [0]) ((rfc4648 x).length - pads x)
        (3 * ((x.length + 2) / 3) + spaceFor (pads x)) ((rfc4648 x).length - pads x + 1) 0 []).bind
        (finish (3 * ((x.length + 2) / 3) + spaceFor (pads x))) := by
  unfold Fits at fits
  have length := rfc4648_length x
  obtain ⟨body, c₁, c₂, c₃, shape, count⟩ := rfc4648_ends x nonempty
  have sizes := congrArg List.length shape
  simp only [List.length_append, List.length_cons, List.length_nil] at sizes
  have last (k : Nat) (c : Byte) (i : Int) (place : i = body.length + k)
      (here : [c₁, c₂, c₃][k]? = some c) :
      equalAt (rfc4648 x ++ [0]) i = some (if c = 61 then 1 else 0) := by
    have read : (rfc4648 x ++ [0])[body.length + k]? = some c := by
      rw [shape, List.append_assoc, List.getElem?_append_right (by omega), Nat.add_sub_cancel_left]
      obtain ⟨inside, _⟩ := List.getElem?_eq_some_iff.mp here
      rw [List.getElem?_append_left inside, here]
    have index : i.toNat = body.length + k := by omega
    simp only [equalAt, charAt, index, read, if_pos (by omega : 0 ≤ i), Option.map_some]
  have third := last 2 c₃ ((rfc4648 x).length - 1) (by omega) rfl
  have second := last 1 c₂ ((rfc4648 x).length - 2) (by omega) rfl
  have first := last 0 c₁ ((rfc4648 x).length - 3) (by omega) rfl
  have size : asInt (rfc4648 x).length = (rfc4648 x).length := asInt_small (by omega)
  have fewer : pads x ≤ (rfc4648 x).length := by
    have positive := List.length_pos_iff.mpr nonempty
    unfold pads
    omega
  have space : spaceFor (pads x) ≤ 4 := by
    unfold spaceFor
    split <;> omega
  have asked : malloc (asInt (((rfc4648 x).length : Int).tdiv 4 * 3 + spaceFor (pads x))) =
      some (3 * ((x.length + 2) / 3) + spaceFor (pads x)) := by
    have small := malloc_small (n := 3 * ((x.length + 2) / 3) + spaceFor (pads x)) (by omega)
    rw [← small, Int.tdiv_eq_ediv_of_nonneg (by omega)]
    congr 2
    omega
  have stop : (((rfc4648 x).length : Int) - pads x).toNat = (rfc4648 x).length - pads x := by omega
  simp only [base64Decode, size, third, second, first, Option.bind_eq_bind, Option.bind_some,
    count, asked, stop]

theorem filler_fits (x : List Byte) :
    x.length + (filler x).length < 3 * ((x.length + 2) / 3) + spaceFor (pads x) := by
  have cases : x.length % 3 = 0 ∨ x.length % 3 = 1 ∨ x.length % 3 = 2 := by omega
  rcases cases with full | one | two
  · simp [filler, pads, spaceFor, full]
    omega
  · simp [filler, pads, spaceFor, one]
    omega
  · simp [filler, pads, spaceFor, two]
    omega

theorem decode_rfc4648 {x : List Byte} (nonempty : x ≠ []) (fits : Fits x) :
    ∃ behind, base64Decode true (rfc4648 x ++ [0]) (asInt (rfc4648 x).length) =
      some (x ++ 0 :: behind) := by
  have length := rfc4648_length x
  have positive := List.length_pos_iff.mpr nonempty
  have space := filler_fits x
  have decoded : decodeLoop true (rfc4648 x ++ [0]) ((rfc4648 x).length - pads x)
      (3 * ((x.length + 2) / 3) + spaceFor (pads x)) ((rfc4648 x).length - pads x + 1) 0 [] =
      some ([] ++ x ++ filler x) :=
    decodeLoop_spec x _ 0 [] [0] (by simp) (by simp) (by unfold pads; omega) (by simp)
  rw [decode_enters true nonempty fits, decoded, Option.bind_some,
    finish_room (by simp only [List.length_append, List.length_nil]; omega)]
  by_cases full : x.length % 3 = 0
  · simp [filler, full]
  · simp [filler, full]

theorem decode_spare {x : List Byte} (nonempty : x ≠ []) (fits : Fits x) :
    base64Decode false (rfc4648 x ++ [0]) (asInt (rfc4648 x).length) = none := by
  have length := rfc4648_length x
  have positive := List.length_pos_iff.mpr nonempty
  have more : ¬((rfc4648 x).length : Int) - pads x ≤ (0 : Nat) := by
    unfold pads
    omega
  rw [decode_enters false nonempty fits, decodeLoop, if_neg more]
  simp

theorem RoundTrip.fits {spare : Bool} {x : List Byte} (holds : RoundTrip spare x) : Fits x := by
  obtain ⟨encoded, length, _⟩ := holds
  have bound := encode_fits encoded
  rw [List.length_append, List.length_singleton, length] at bound
  exact bound

theorem RoundTrip.spare {spare : Bool} {x : List Byte} (nonempty : x ≠ [])
    (holds : RoundTrip spare x) : spare = true := by
  have fits := holds.fits
  obtain ⟨_, _, buf, decoded, _⟩ := holds
  cases spare with
  | true => rfl
  | false =>
    rw [decode_spare nonempty fits] at decoded
    contradiction

/-- The round trip holds exactly where the size of the encoding is an int and the byte
    behind need is free. -/
theorem base64_round_trip (spare : Bool) (x : List Byte) (nonempty : x ≠ []) :
    RoundTrip spare x ↔ spare = true ∧ Fits x := by
  constructor
  · intro holds
    exact ⟨holds.spare nonempty, holds.fits⟩
  · rintro ⟨rfl, fits⟩
    obtain ⟨behind, decoded⟩ := decode_rfc4648 nonempty fits
    refine ⟨encode_rfc4648 fits, rfc4648_length x, x ++ 0 :: behind, decoded, by simp, by simp, ?_⟩
    intro noNul
    have kept : ∀ b ∈ x, decide (b ≠ 0) = true := by
      intro b inside
      simp only [decide_eq_true_eq]
      intro zero
      exact noNul (zero ▸ inside)
    rw [List.takeWhile_append_of_pos kept]
    simp

theorem base64_round_trip_utf8 : RoundTrip true [0xe9, 0x82, 0xa3, 0x61] :=
  (base64_round_trip true [0xe9, 0x82, 0xa3, 0x61] (by simp)).mpr ⟨rfl, by unfold Fits; decide⟩

/-- One byte where something lies behind need, and the shortest input whose encoding has
    no int size. -/
theorem round_trip_fails :
    ¬RoundTrip false [0x41] ∧ ¬RoundTrip true (List.replicate 1610612734 0) := by
  constructor
  · intro holds
    have free := holds.spare (by simp)
    contradiction
  · intro holds
    have fits := holds.fits
    unfold Fits at fits
    rw [List.length_replicate] at fits
    omega

end TestSource.CTest
