import TestSource.Download

/- What atoi makes of a decimal number, and of a text that goes on behind one. -/
namespace TestSource.Download

def number (s : List Byte) : Nat := s.foldl (fun n b => n * 10 + (b.toNat - 48)) 0

theorem digit_bounds {b : Byte} (digit : isDigit b = true) : 48 ≤ b.toNat ∧ b.toNat ≤ 57 := by
  simp only [isDigit, Bool.and_eq_true, decide_eq_true_eq, BitVec.le_def] at digit
  exact digit

theorem digit_no_space {b : Byte} (digit : isDigit b = true) : isSpace b = false := by
  have bounds := digit_bounds digit
  simp only [isSpace, Bool.or_eq_false_iff, decide_eq_false_iff_not, Bool.and_eq_false_iff,
    BitVec.le_def]
  refine ⟨?_, ?_⟩
  · intro space
    rw [space] at bounds
    simp at bounds
  · right
    have limit : (13 : Byte).toNat = 13 := rfl
    omega

theorem foldl_number_lt {s : List Byte} (digits : ∀ b ∈ s, isDigit b = true) (n : Nat) :
    s.foldl (fun n b => n * 10 + (b.toNat - 48)) n < (n + 1) * Nat.pow 10 s.length := by
  induction s generalizing n with
  | nil => simp
  | cons b s ih =>
    have bounds := digit_bounds (digits b List.mem_cons_self)
    have later := ih (fun x mem => digits x (List.mem_cons_of_mem b mem)) (n * 10 + (b.toNat - 48))
    have grown : (n * 10 + (b.toNat - 48) + 1) * Nat.pow 10 s.length ≤ (n + 1) * 10 * Nat.pow 10 s.length :=
      Nat.mul_le_mul_right _ (by omega)
    have digit : Nat.pow 10 (s.length + 1) = 10 * Nat.pow 10 s.length := Nat.pow_succ'
    rw [List.foldl_cons, List.length_cons, digit, ← Nat.mul_assoc]
    exact Nat.lt_of_lt_of_le later grown

theorem number_lt {s : List Byte} (digits : ∀ b ∈ s, isDigit b = true) :
    number s < Nat.pow 10 s.length := by
  have bound := foldl_number_lt digits 0
  rw [Nat.zero_add, Nat.one_mul] at bound
  exact bound

theorem foldl_number_inj {s t : List Byte} (digits : ∀ b ∈ s, isDigit b = true)
    (others : ∀ b ∈ t, isDigit b = true) (length : s.length = t.length) {m n : Nat}
    (same : s.foldl (fun n b => n * 10 + (b.toNat - 48)) m = t.foldl (fun n b => n * 10 + (b.toNat - 48)) n) :
    m = n ∧ s = t := by
  induction s generalizing t m n with
  | nil =>
    cases List.length_eq_zero_iff.mp length.symm
    exact ⟨same, rfl⟩
  | cons b s ih =>
    cases t with
    | nil => cases length
    | cons c t =>
      have bounds := digit_bounds (digits b List.mem_cons_self)
      have bounds' := digit_bounds (others c List.mem_cons_self)
      obtain ⟨front, rfl⟩ := ih (fun x mem => digits x (List.mem_cons_of_mem b mem))
        (fun x mem => others x (List.mem_cons_of_mem c mem)) (Nat.succ.inj length) same
      dsimp only at front
      have digit : b = c := by
        apply BitVec.eq_of_toNat_eq
        omega
      subst digit
      exact ⟨by omega, rfl⟩

theorem number_inj {s t : List Byte} (digits : ∀ b ∈ s, isDigit b = true)
    (others : ∀ b ∈ t, isDigit b = true) (length : s.length = t.length) (same : number s = number t) :
    s = t := (foldl_number_inj digits others length same).2

theorem takeWhile_digits {s : List Byte} (digits : ∀ b ∈ s, isDigit b = true) :
    s.takeWhile isDigit = s := by
  have whole : (s ++ []).takeWhile isDigit = s ++ [].takeWhile isDigit :=
    List.takeWhile_append_of_pos digits
  rw [List.append_nil, List.takeWhile_nil, List.append_nil] at whole
  exact whole

theorem toS32_toU32 {n : Int} (low : -2147483648 ≤ n) (high : n < 2147483648) :
    toS32 (toU32 n) = n := by
  unfold toS32 toU32
  split <;> omega

def clamped (z : WordSize) (n : Int) : Int :=
  toS32 (toU32 (max (-(Nat.pow 2 (z.bits - 1) : Int)) (min ((Nat.pow 2 (z.bits - 1) : Int) - 1) n)))

theorem clamped_small (z : WordSize) {n : Int} (low : -2147483648 ≤ n) (high : n < 2147483648) :
    clamped z n = n := by
  have limit : (2147483648 : Int) ≤ Nat.pow 2 (z.bits - 1) := by
    cases z <;> decide
  have inside : max (-(Nat.pow 2 (z.bits - 1) : Int)) (min ((Nat.pow 2 (z.bits - 1) : Int) - 1) n) = n := by
    omega
  rw [clamped, inside, toS32_toU32 low high]

/-- The sign and what follows it, of a text without leading blanks. -/
def signed (s : List Byte) : Int :=
  match s with
  | 45 :: digits => -(number (digits.takeWhile isDigit) : Int)
  | 43 :: digits => number (digits.takeWhile isDigit)
  | digits => number (digits.takeWhile isDigit)

theorem signed_minus (s : List Byte) : signed (45 :: s) = -(number (s.takeWhile isDigit) : Int) := rfl

theorem signed_plus (s : List Byte) : signed (43 :: s) = number (s.takeWhile isDigit) := rfl

theorem signed_plain {s : List Byte} (first : ∀ b, s.head? = some b → b ≠ 45 ∧ b ≠ 43) :
    signed s = number (s.takeWhile isDigit) := by
  unfold signed
  split
  · exact absurd rfl (first 45 rfl).1
  · exact absurd rfl (first 43 rfl).2
  · rfl

theorem atoi_eq (z : WordSize) (s : List Byte) : atoi z s = clamped z (signed (s.dropWhile isSpace)) := by
  unfold atoi
  dsimp only
  generalize s.dropWhile isSpace = t
  split
  · rfl
  · rfl
  · rename_i minus plus
    have plain : ∀ b, t.head? = some b → b ≠ 45 ∧ b ≠ 43 := by
      intro b head
      obtain ⟨rest, rfl⟩ := List.head?_eq_some_iff.mp head
      constructor
      · intro sign
        exact minus rest (congrArg (· :: rest) sign)
      · intro sign
        exact plus rest (congrArg (· :: rest) sign)
    rw [signed_plain plain]
    rfl

theorem atoi_digits (z : WordSize) {s : List Byte} (digits : ∀ b ∈ s, isDigit b = true)
    (small : number s < 2147483648) : atoi z s = number s := by
  have text : s.dropWhile isSpace = s := by
    cases s with
    | nil => rfl
    | cons b s =>
      apply List.dropWhile_cons_of_neg
      rw [digit_no_space (digits b List.mem_cons_self)]
      decide
  have unsigned : ∀ b, s.head? = some b → b ≠ 45 ∧ b ≠ 43 := by
    intro b head
    have bounds := digit_bounds (digits b (List.mem_of_mem_head? head))
    constructor
    · intro minus
      rw [minus] at bounds
      exact absurd bounds.1 (by decide)
    · intro plus
      rw [plus] at bounds
      exact absurd bounds.1 (by decide)
  rw [atoi_eq, text, signed_plain unsigned, takeWhile_digits digits, clamped_small z (by omega) (by omega)]

theorem atoi_stops (z : WordSize) (s : List Byte) {c : Byte} (rest : List Byte)
    (blank : isSpace c = false) (digit : isDigit c = false) (sign : c ≠ 45 ∧ c ≠ 43) :
    atoi z (s ++ c :: rest) = atoi z s := by
  have stop : (c :: rest).takeWhile isDigit = [] := by
    simp [digit]
  have read : ∀ t : List Byte, (t ++ c :: rest).takeWhile isDigit = t.takeWhile isDigit := by
    intro t
    induction t with
    | nil => exact stop
    | cons b t ih =>
      rw [List.cons_append, List.takeWhile_cons, List.takeWhile_cons, ih]
  have skipped : (s ++ c :: rest).dropWhile isSpace = s.dropWhile isSpace ++ c :: rest := by
    rw [List.dropWhile_append]
    split
    · rename_i empty
      simp [List.isEmpty_iff.mp empty, blank]
    · rfl
  rw [atoi_eq, atoi_eq, skipped]
  congr 1
  generalize s.dropWhile isSpace = t
  cases t with
  | nil =>
    have plain : signed ([] ++ c :: rest) = _ := signed_plain (by
      intro b head
      cases head
      exact sign)
    rw [plain, read]
    rfl
  | cons b t =>
    by_cases minus : b = 45
    · subst minus
      rw [List.cons_append, signed_minus, signed_minus, read]
    · by_cases plus : b = 43
      · subst plus
        rw [List.cons_append, signed_plus, signed_plus, read]
      · have first : ∀ l : List Byte, ∀ a, (b :: l).head? = some a → a ≠ 45 ∧ a ≠ 43 := by
          intro l a head
          cases head
          exact ⟨minus, plus⟩
        rw [signed_plain (first t), List.cons_append, signed_plain (first _), ← List.cons_append, read]

end TestSource.Download
