import TestSource.Base64

/- test_base64.c again: what base64_decode stores through f for any characters. Here a store
   is not checked against the buffer, and a character that is not in base has the position
   NULL - base, cut to a char. No result means that memset has cleared a byte behind need
   that is in use. -/
namespace TestSource.CTest

def findPosChar (stray ch : Byte) : Byte := ((strrchr base ch).map (BitVec.ofNat 8)).getD stray

/-- The bytes that the rest of the loop stores, and tmp at its end. -/
def decodeStores (spare : Bool) (stray : Byte) (data : List Byte) (stop : Int) :
    Nat → Nat → Option (List Byte × Nat)
  | 0, _ => none
  | fuel + 1, tmp =>
      if stop ≤ tmp then some ([], tmp)
      else if !spare then none
      else do
        let (temp, prepare) ← gather 6 (fun ch => some ((findPosChar stray ch).signExtend 32)) data stop 4 tmp 0
        let prepare := prepare <<< ((4 - temp) * 6)
        let f := ((List.range 3).takeWhile (· ≠ temp)).map fun i =>
          ((prepare >>> ((2 - i) * 8)) &&& 0xFF).setWidth 8
        let (rest, tmp) ← decodeStores spare stray data stop fuel (tmp + temp)
        some (f ++ rest, tmp)

structure DecodeRun where
  retLen : Nat
  stores : List Byte
  tmp : Nat

/-- The allocated size, all stores with the last NUL, and the characters consumed. -/
def decodeRun (spare : Bool) (stray : Byte) (data : List Byte) (dataLen : Int) : Option DecodeRun := do
  let equalCount := (← equalAt data (dataLen - 1)) + (← equalAt data (dataLen - 2)) +
    (← equalAt data (dataLen - 3))
  let retLen ← malloc (asInt (dataLen.tdiv 4 * 3 + spaceFor equalCount))
  let stop := dataLen - equalCount
  let (f, tmp) ← decodeStores spare stray data stop (stop.toNat + 1) 0
  some ⟨retLen, f ++ [0], tmp⟩

section Stores
variable (stray : Byte) {data : List Byte}

theorem gather_any {stop tmp : Nat} (inside : stop ≤ data.length) (more : tmp ≤ stop) : ∃ prepare,
    gather 6 (fun ch => some ((findPosChar stray ch).signExtend 32)) data stop 4 tmp 0 =
      some (min 4 (stop - tmp), prepare) := by
  have read := gather_items 6 (fun ch => some ((findPosChar stray ch).signExtend 32))
    (fun ch => (findPosChar stray ch).signExtend 32) data stop ((data.drop tmp).take (min 4 (stop - tmp)))
    4 tmp 0 ((data.drop tmp).drop (min 4 (stop - tmp)))
  have length : ((data.drop tmp).take (min 4 (stop - tmp))).length = min 4 (stop - tmp) := by
    simp
    omega
  rw [length] at read
  exact ⟨_, read (by simp) (List.take_append_drop _ _).symm (by omega) (by omega) (by omega)⟩

theorem stores_length {temp : Nat} : ((List.range 3).takeWhile (· ≠ temp)).length = min 3 temp := by
  rcases temp with _ | _ | _ | temp
  · decide
  · decide
  · decide
  · simp [List.range_succ]

theorem decodeStores_length {stop : Nat} (inside : stop ≤ data.length) {fuel tmp : Nat}
    (upto : tmp ≤ stop) (enough : stop - tmp < fuel) : ∃ f,
    decodeStores true stray data stop fuel tmp = some (f, stop) ∧
      f.length = 3 * ((stop - tmp) / 4) + (stop - tmp) % 4 := by
  induction fuel generalizing tmp with
  | zero => omega
  | succ fuel ih =>
    by_cases ended : stop = tmp
    · subst ended
      exact ⟨[], by simp [decodeStores], by simp⟩
    · obtain ⟨prepare, read⟩ := gather_any stray inside upto
      have next : tmp + min 4 (stop - tmp) ≤ stop := by omega
      obtain ⟨rest, later, count⟩ := ih next (by omega)
      have more : ¬(stop : Int) ≤ tmp := by omega
      simp only [decodeStores, if_neg more, Bool.not_true, Bool.false_eq_true, ↓reduceIte, read, later,
        Option.bind_eq_bind, Option.bind_some]
      refine ⟨_, rfl, ?_⟩
      rw [List.length_append, List.length_map, stores_length, count]
      omega

end Stores

section Agreement
variable {stray : Byte} {data : List Byte} {stop : Int}

theorem findPosChar_known {ch : Byte} {v : BitVec 32} (known : findPos ch = some v) :
    (findPosChar stray ch).signExtend 32 = v := by
  obtain ⟨p, found, rfl⟩ := Option.map_eq_some_iff.mp known
  -- the position is that of a letter or of the NUL behind them, so its sign bit is clear
  have inside : p < 66 := by
    unfold strrchr at found
    split at found
    · have size : base.length = 65 := by decide
      cases found
      omega
    · contradiction
  have kept : ∀ p < 66, (BitVec.ofNat 8 p).signExtend 32 = BitVec.ofNat 32 p := by decide
  rw [findPosChar, found]
  exact kept p inside

theorem gather_known {rounds tmp : Nat} {prepare : BitVec 32} {x : Nat × BitVec 32}
    (read : gather 6 findPos data stop rounds tmp prepare = some x) :
    gather 6 (fun ch => some ((findPosChar stray ch).signExtend 32)) data stop rounds tmp prepare = some x := by
  induction rounds generalizing tmp prepare x with
  | zero => exact read
  | succ rounds ih =>
    unfold gather at read ⊢
    split at read
    · rename_i ended
      rw [if_pos ended]
      exact read
    · rename_i more
      rw [if_neg more]
      simp only [Option.bind_eq_bind, Option.bind_eq_some_iff] at read ⊢
      obtain ⟨ch, here, v, known, rest⟩ := read
      refine ⟨ch, here, v, congrArg some (findPosChar_known known), ?_⟩
      obtain ⟨y, later, last⟩ := rest
      exact ⟨y, ih later, last⟩

theorem foldlM_stored {retLen : Nat} {value : Nat → Byte} {is : List Nat} {f g : List Byte}
    (done : is.foldlM (fun f i => store retLen f (value i)) f = some g) : g = f ++ is.map value := by
  induction is generalizing f with
  | nil => simpa using done.symm
  | cons i is ih =>
    simp only [List.foldlM_cons, Option.bind_eq_bind, Option.bind_eq_some_iff] at done
    obtain ⟨h, first, rest⟩ := done
    unfold store at first
    split at first
    · cases first
      simpa using ih rest
    · contradiction

variable (stray)

theorem decodeLoop_stores {retLen fuel tmp : Nat} {f g : List Byte}
    (done : decodeLoop true data stop retLen fuel tmp f = some g) :
    ∃ rest last, decodeStores true stray data stop fuel tmp = some (rest, last) ∧ g = f ++ rest := by
  induction fuel generalizing tmp f with
  | zero => contradiction
  | succ fuel ih =>
    unfold decodeLoop at done
    unfold decodeStores
    split at done
    · rename_i ended
      cases done
      exact ⟨[], tmp, by rw [if_pos ended], by simp⟩
    · rename_i more
      simp only [Bool.not_true, Bool.false_eq_true, ↓reduceIte, Option.bind_eq_bind,
        Option.bind_eq_some_iff] at done
      obtain ⟨x, read, h, stored, later⟩ := done
      obtain ⟨rest, last, next, rfl⟩ := ih later
      rw [if_neg more, gather_known read]
      simp only [Bool.not_true, Bool.false_eq_true, ↓reduceIte, Option.bind_eq_bind, Option.bind_some, next]
      refine ⟨_, _, rfl, ?_⟩
      rw [foldlM_stored stored, List.append_assoc]

/-- Where the checked decoder comes back, its buffer holds the stores and zeros behind them. -/
theorem base64Decode_run {n : Int} {buf : List Byte} (done : base64Decode true data n = some buf) :
    ∃ run, decodeRun true stray data n = some run ∧
      buf = run.stores ++ List.replicate (run.retLen - run.stores.length) 0 := by
  simp only [base64Decode, Option.bind_eq_bind, Option.bind_eq_some_iff] at done
  obtain ⟨third, at₃, second, at₂, first, at₁, retLen, asked, f, looped, ended⟩ := done
  obtain ⟨_, last, stored, rfl⟩ := decodeLoop_stores stray looped
  refine ⟨⟨retLen, f ++ [0], last⟩, ?_, ?_⟩
  · simp only [decodeRun, at₃, at₂, at₁, Option.bind_eq_bind, Option.bind_some, asked, stored]
  · unfold finish store at ended
    split at ended
    · simpa using ended.symm
    · contradiction

end Agreement

section Room

def equalCount (data : List Byte) : Nat := (data.drop (data.length - 3)).count pad

theorem equalCount_le (data : List Byte) : equalCount data ≤ 3 := by
  have bound := List.count_le_length (a := pad) (l := data.drop (data.length - 3))
  simp at bound
  unfold equalCount
  omega

theorem equals_counted {data : List Byte} (long : 3 ≤ data.length) : ∃ third second first,
    equalAt data (data.length - 1) = some third ∧ equalAt data (data.length - 2) = some second ∧
      equalAt data (data.length - 3) = some first ∧ third + second + first = equalCount data := by
  have three : (data.drop (data.length - 3)).length = 3 := by
    simp
    omega
  obtain ⟨c₁, c₂, c₃, last⟩ := List.length_eq_three.mp three
  have read (k : Nat) (inside : k < 3) (i : Int) (place : i = data.length - 3 + k) :
      equalAt data i = ([c₁, c₂, c₃][k]?).map fun ch => if ch = 61 then 1 else 0 := by
    have index : i.toNat = data.length - 3 + k := by omega
    rw [equalAt, charAt, if_pos (by omega), index, ← last, List.getElem?_drop]
  refine ⟨_, _, _, read 2 (by decide) _ (by omega), read 1 (by decide) _ (by omega),
    read 0 (by decide) _ (by omega), ?_⟩
  simp only [equalCount, last, List.count_cons, List.count_nil, pad, beq_iff_eq]
  omega

theorem decode_run_eq (spare : Bool) (stray : Byte) {data : List Byte} (long : 3 ≤ data.length)
    (fits : data.length < 2147483648) : decodeRun spare stray data data.length =
      (decodeStores spare stray data (data.length - equalCount data : Nat)
        (data.length - equalCount data + 1) 0).map fun r =>
          ⟨3 * (data.length / 4) + spaceFor (equalCount data), r.1 ++ [0], r.2⟩ := by
  have few := equalCount_le data
  obtain ⟨third, second, first, at₃, at₂, at₁, total⟩ := equals_counted long
  have space : spaceFor (equalCount data) ≤ 4 := by
    unfold spaceFor
    split <;> omega
  have asked : malloc (asInt ((data.length : Int).tdiv 4 * 3 + spaceFor (equalCount data))) =
      some (3 * (data.length / 4) + spaceFor (equalCount data)) := by
    have small := malloc_small (n := 3 * (data.length / 4) + spaceFor (equalCount data)) (by omega)
    rw [← small, Int.tdiv_eq_ediv_of_nonneg (by omega)]
    congr 2
    omega
  have stop : ((data.length : Int) - equalCount data) = (data.length - equalCount data : Nat) := by omega
  simp only [decodeRun, at₃, at₂, at₁, Option.bind_eq_bind, Option.bind_some, total, asked, stop,
    Int.toNat_natCast]
  rw [Option.map_eq_bind]
  rfl

theorem decode_run_ends (stray : Byte) {data : List Byte} (long : 3 ≤ data.length)
    (fits : data.length < 2147483648) : ∃ f, decodeRun true stray data data.length =
      some ⟨3 * (data.length / 4) + spaceFor (equalCount data), f ++ [0], data.length - equalCount data⟩ ∧
      f.length = 3 * ((data.length - equalCount data) / 4) + (data.length - equalCount data) % 4 := by
  have inside : data.length - equalCount data ≤ data.length := by omega
  have enough : data.length - equalCount data - 0 < data.length - equalCount data + 1 := by omega
  obtain ⟨f, stored, length⟩ := decodeStores_length stray inside (Nat.zero_le _) enough
  exact ⟨f, by rw [decode_run_eq true stray long fits, stored, Option.map_some], length⟩

/-- The buffer has room for all that is stored, and all characters but the counted '=' are
    consumed. -/
structure DecodeFits (data : List Byte) (run : DecodeRun) : Prop where
  room : run.stores.length ≤ run.retLen
  consumed : run.tmp = data.length - equalCount data

theorem decode_fits (stray : Byte) {data : List Byte} (long : 3 ≤ data.length)
    (fits : data.length < 2147483648) :
    ∃ run, decodeRun true stray data data.length = some run ∧ DecodeFits data run := by
  obtain ⟨f, ended, length⟩ := decode_run_ends stray long fits
  refine ⟨_, ended, ?_, rfl⟩
  have few : equalCount data = 0 ∨ equalCount data = 1 ∨ equalCount data = 2 ∨ equalCount data = 3 := by
    have bound := equalCount_le data
    omega
  rw [List.length_append, length, List.length_singleton]
  rcases few with none | one | two | three
  · simp only [none, spaceFor]
    omega
  · simp only [one, spaceFor]
    omega
  · simp only [two, spaceFor]
    omega
  · simp only [three, spaceFor]
    omega

theorem no_round_iff {data : List Byte} (long : 3 ≤ data.length) :
    data.length = equalCount data ↔ data = [pad, pad, pad] := by
  constructor
  · intro same
    have few := equalCount_le data
    have three : data.length = 3 := by omega
    have all : data.count pad = data.length := by
      rw [equalCount, three, Nat.sub_self, List.drop_zero] at same
      rw [← same, three]
    rw [List.count_eq_length] at all
    obtain ⟨a, b, c, rfl⟩ := List.length_eq_three.mp three
    simp only [List.mem_cons, List.not_mem_nil, or_false, forall_eq_or_imp, forall_eq] at all
    rw [← all.1, ← all.2.1, ← all.2.2]
  · rintro rfl
    decide

/-- The stores fit, and the characters are consumed, exactly when the byte behind need is not
    in use or no round clears it. -/
theorem decode_stores_fit_iff (spare : Bool) (stray : Byte) (data : List Byte) (long : 3 ≤ data.length)
    (fits : data.length < 2147483648) :
    (∃ run, decodeRun spare stray data data.length = some run ∧ DecodeFits data run) ↔
      spare = true ∨ data = [pad, pad, pad] := by
  cases spare with
  | true => exact iff_of_true (decode_fits stray long fits) (.inl rfl)
  | false =>
    have few := equalCount_le data
    rw [← no_round_iff long, decode_run_eq false stray long fits]
    by_cases none : data.length = equalCount data
    · have stop : data.length - equalCount data = 0 := by omega
      refine iff_of_true ⟨⟨3 * (data.length / 4) + spaceFor (equalCount data), [] ++ [0], 0⟩, ?_, ?_, stop.symm⟩
        (.inr none)
      · rw [stop]
        rfl
      · rw [List.nil_append, List.length_singleton]
        have space : 2 ≤ spaceFor (equalCount data) := by
          unfold spaceFor
          split <;> omega
        exact Nat.le_trans (by omega) (Nat.le_add_left _ _)
    · have more : ¬ ((data.length - equalCount data : Nat) : Int) ≤ ((0 : Nat) : Int) := by omega
      refine iff_of_false ?_ (by simpa using none)
      rintro ⟨run, ended, _⟩
      rw [decodeStores, if_neg more] at ended
      cases ended

/-- Five characters with a '=' between two that base does not have. -/
theorem malformed_data_fits : ∃ run, decodeRun true 7 [65, 66, 33, 61, 35] 5 = some run ∧
    DecodeFits [65, 66, 33, 61, 35] run :=
  (decode_stores_fit_iff true 7 [65, 66, 33, 61, 35] (by decide) (by decide)).mpr (.inl rfl)

/-- With a variable behind need even the text of one byte clears a byte of it. -/
theorem clobbered_frame : ¬ ∃ run, decodeRun false 7 [81, 81, 61, 61] 4 = some run ∧
    DecodeFits [81, 81, 61, 61] run := by
  have fault : decodeRun false 7 [81, 81, 61, 61] 4 = none := by decide +kernel
  rintro ⟨run, ended, _⟩
  rw [fault] at ended
  cases ended

end Room

end TestSource.CTest
