import TestSource.JsonPrint

/- cJSON.c: cJSON_Minify, which takes the blanks and comments out of a text in place. -/
namespace TestSource.Json

/-- The loop of a string behind its opening quote: what is copied, with the closing quote, and where
    the text goes on. A string without an end is followed past the NUL. -/
def copyString : List Byte → Option (List Byte × List Byte)
  | [] => none
  | c :: rest =>
      if c = ch '"' then some ([c], rest)
      else if c = ch '\\' then
        match rest with
        | [] => none
        | e :: rest => (copyString rest).map fun (out, stop) => (c :: e :: out, stop)
      else (copyString rest).map fun (out, stop) => (c :: out, stop)

/-- The comment that begins at its '/'; the NUL of one without an end is passed. -/
def skipComment : List Byte → Option (List Byte)
  | [] => none
  | c :: rest => if c = ch '*' && rest.headD 0 = ch '/' then some (rest.drop 1) else skipComment rest

def isBlank (c : Byte) : Bool := c = ch ' ' || c = ch '\t' || c = ch '\r' || c = ch '\n'

/-- The length of the text is fuel enough. -/
def minifyLoop : Nat → List Byte → Option (List Byte)
  | _, [] => some []
  | 0, _ :: _ => none
  | fuel + 1, c :: rest =>
      if isBlank c then minifyLoop fuel rest
      else if c = ch '/' && rest.headD 0 = ch '/' then minifyLoop fuel (rest.dropWhile fun c => c ≠ ch '\n')
      else if c = ch '/' && rest.headD 0 = ch '*' then do
        let rest ← skipComment rest
        minifyLoop fuel rest
      else if c = ch '"' then do
        let (copied, rest) ← copyString rest
        let out ← minifyLoop fuel rest
        some (c :: (copied ++ out))
      else (minifyLoop fuel rest).map (c :: ·)

/-- none when the text is read past its NUL. -/
def cJsonMinify (json : List Byte) : Option (List Byte) := minifyLoop json.length json

section Steps
variable {rest : List Byte}

theorem copyString_shorter {t copied stop : List Byte} (read : copyString t = some (copied, stop)) :
    stop.length < t.length := by
  generalize size : t.length = n
  induction n using Nat.strongRecOn generalizing t copied with
  | ind n ih =>
    cases t with
    | nil =>
      rw [copyString.eq_def] at read
      cases read
    | cons c t =>
      rw [List.length_cons] at size
      rw [copyString.eq_def] at read
      dsimp only at read
      split at read
      · cases read
        omega
      split at read
      · cases t with
        | nil => cases read
        | cons e t =>
          rw [List.length_cons] at size
          obtain ⟨⟨out, ended⟩, later, same⟩ := Option.map_eq_some_iff.mp read
          cases same
          have inner := ih t.length (by omega) later rfl
          omega
      · obtain ⟨⟨out, ended⟩, later, same⟩ := Option.map_eq_some_iff.mp read
        cases same
        have inner := ih t.length (by omega) later rfl
        omega

theorem skipComment_shorter {t stop : List Byte} (read : skipComment t = some stop) : stop.length < t.length := by
  induction t with
  | nil => cases read
  | cons c t ih =>
    rw [skipComment] at read
    rw [List.length_cons]
    split at read
    · cases read
      rw [List.length_drop]
      omega
    · have inner := ih read
      omega

theorem minifyLoop_enough {t : List Byte} {fuel fuel' : Nat} (enough : t.length ≤ fuel) (other : t.length ≤ fuel') :
    minifyLoop fuel t = minifyLoop fuel' t := by
  induction fuel generalizing t fuel' with
  | zero =>
    rw [List.length_eq_zero_iff.mp (Nat.le_zero.mp enough)]
    cases fuel' <;> rfl
  | succ fuel ih =>
    cases t with
    | nil => cases fuel' <;> rfl
    | cons c t =>
      rw [List.length_cons] at enough other
      obtain ⟨fuel', rfl⟩ : ∃ n, fuel' = n + 1 := ⟨fuel' - 1, by omega⟩
      have shorter (s : List Byte) (less : s.length ≤ t.length) : minifyLoop fuel s = minifyLoop fuel' s :=
        ih (by omega) (by omega)
      have line := (List.dropWhile_suffix (fun c => decide (c ≠ ch '\n')) : _ <:+ t).length_le
      have comment : (skipComment t >>= minifyLoop fuel) = skipComment t >>= minifyLoop fuel' := by
        cases read : skipComment t with
        | none => rfl
        | some stop =>
          have less := skipComment_shorter read
          exact shorter stop (by omega)
      have string : (copyString t >>= fun p => minifyLoop fuel p.2 >>= fun out => some (c :: (p.1 ++ out))) =
          copyString t >>= fun p => minifyLoop fuel' p.2 >>= fun out => some (c :: (p.1 ++ out)) := by
        cases read : copyString t with
        | none => rfl
        | some p =>
          obtain ⟨copied, stop⟩ := p
          have less := copyString_shorter read
          simp only [Option.bind_eq_bind, Option.bind_some, shorter stop (by omega)]
      rw [minifyLoop, minifyLoop, shorter t (Nat.le_refl _), shorter _ line, comment]
      simp only [string]

theorem minify_blank {c : Byte} (blank : isBlank c = true) : cJsonMinify (c :: rest) = cJsonMinify rest := by
  rw [cJsonMinify, List.length_cons, minifyLoop, if_pos blank]
  rfl

theorem minify_plain {c : Byte} (visible : isBlank c = false) (slash : c ≠ ch '/') (quote : c ≠ ch '"') :
    cJsonMinify (c :: rest) = (cJsonMinify rest).map (c :: ·) := by
  rw [cJsonMinify, List.length_cons, minifyLoop]
  simp [visible, slash, quote, cJsonMinify]

theorem minify_string {copied stop : List Byte} (read : copyString rest = some (copied, stop)) :
    cJsonMinify (ch '"' :: rest) = (cJsonMinify stop).map fun out => ch '"' :: (copied ++ out) := by
  have shorter := copyString_shorter read
  have enough : minifyLoop rest.length stop = cJsonMinify stop := minifyLoop_enough (by omega) (Nat.le_refl _)
  have visible : isBlank (ch '"') = false := by decide
  have other : ch '"' ≠ ch '/' := by decide
  rw [cJsonMinify, List.length_cons, minifyLoop]
  simp only [visible, other, read, Option.bind_eq_bind, Option.bind_some, Bool.false_eq_true, decide_false, Bool.false_and,
    if_false, if_true, enough, Option.map_eq_bind]
  rfl

theorem copyString_plain {c : Byte} (quote : c ≠ ch '"') (backslash : c ≠ ch '\\') :
    copyString (c :: rest) = (copyString rest).map fun (out, stop) => (c :: out, stop) := by
  rw [copyString.eq_def (c :: rest)]
  exact (if_neg quote).trans (if_neg backslash)

theorem copyString_escape (e : Byte) :
    copyString (ch '\\' :: e :: rest) =
      (copyString rest).map fun (out, stop) => (ch '\\' :: e :: out, stop) := by
  rw [copyString, if_neg (by decide), if_pos rfl]

theorem copyString_token (token : Byte) :
    copyString (escaped token ++ rest) = (copyString rest).map fun (out, stop) => (escaped token ++ out, stop) := by
  rcases escaped_cases token with ⟨written, quote, backslash⟩ | ⟨letter, written, known⟩ | ⟨written, low⟩
  · rw [written]
    exact copyString_plain quote backslash
  · rw [written]
    exact copyString_escape letter
  · have digit (k : Nat) (l : List Byte) :
        copyString (hexChar (k % 16) :: l) = (copyString l).map fun (out, stop) => (hexChar (k % 16) :: out, stop) := by
      obtain ⟨quote, backslash⟩ := hexChar_plain (k % 16) (by omega)
      exact copyString_plain quote backslash
    simp only [written, hex4, List.cons_append, List.nil_append, copyString_escape, digit, Option.map_map]
    rfl

theorem copyString_text (s rest : List Byte) :
    copyString (s.flatMap escaped ++ ch '"' :: rest) = some (s.flatMap escaped ++ [ch '"'], rest) := by
  induction s with
  | nil =>
    rw [List.flatMap_nil, List.nil_append, copyString.eq_def]
    exact if_pos rfl
  | cons token s ih =>
    rw [List.flatMap_cons, List.append_assoc, copyString_token, ih, List.append_assoc]
    rfl

end Steps

/-- The text is cut down to the other, whatever stands behind it. -/
def Minifies (long short : List Byte) : Prop :=
  ∀ rest, cJsonMinify (long ++ rest) = (cJsonMinify rest).map (short ++ ·)

section Texts

theorem minifies_nil : Minifies [] [] := by
  intro rest
  simp

theorem Minifies.append {a a' b b' : List Byte} (first : Minifies a a') (second : Minifies b b') :
    Minifies (a ++ b) (a' ++ b') := by
  intro rest
  rw [List.append_assoc, first, second, Option.map_map]
  congr 1
  funext out
  exact (List.append_assoc a' b' out).symm

theorem minifies_blank {blank : List Byte} (all : ∀ c ∈ blank, isBlank c = true) : Minifies blank [] := by
  induction blank with
  | nil => exact minifies_nil
  | cons c blank ih =>
    intro rest
    rw [List.cons_append, minify_blank (all c List.mem_cons_self)]
    exact ih (fun x mem => all x (List.mem_cons_of_mem c mem)) rest

def Kept (c : Byte) : Prop := isBlank c = false ∧ c ≠ ch '/' ∧ c ≠ ch '"'

instance (c : Byte) : Decidable (Kept c) :=
  inferInstanceAs (Decidable (isBlank c = false ∧ c ≠ ch '/' ∧ c ≠ ch '"'))

theorem minifies_kept {kept : List Byte} (all : ∀ c ∈ kept, Kept c) : Minifies kept kept := by
  induction kept with
  | nil => exact minifies_nil
  | cons c kept ih =>
    intro rest
    obtain ⟨visible, slash, quote⟩ := all c List.mem_cons_self
    have later := ih (fun x mem => all x (List.mem_cons_of_mem c mem)) rest
    rw [List.cons_append, minify_plain visible slash quote, later, Option.map_map]
    rfl

theorem minifies_byte {c : Byte} (kept : Kept c) : Minifies [c] [c] :=
  minifies_kept fun x mem => by rw [List.mem_singleton.mp mem]; exact kept

theorem minifies_string (s : List Byte) : Minifies (stringText s) (stringText s) := by
  intro rest
  have read := minify_string (copyString_text s rest)
  rw [stringText, List.cons_append, List.append_assoc, List.singleton_append, read]
  rfl

theorem minifies_name (name : Option (List Byte)) : Minifies (nameText name) (nameText name) := by
  cases name with
  | none => exact minifies_nil
  | some s => exact minifies_string s

theorem minifies_tabs (n m : Nat) : Minifies (tabs true n) (tabs false m) := by
  apply minifies_blank
  intro c mem
  rw [List.eq_of_mem_replicate mem]
  decide

theorem minifies_newline : Minifies (newline true) (newline false) := by
  apply minifies_blank
  intro c mem
  rw [List.mem_singleton.mp mem]
  decide

theorem minifies_comma : Minifies (ch ',' :: [ch ' ']) [ch ','] :=
  (minifies_byte (by decide)).append (minifies_blank fun c mem => by rw [List.mem_singleton.mp mem]; decide)

theorem minifies_array {entries entries' : List (List Byte)} (each : List.Forall₂ Minifies entries entries') :
    Minifies (arrayText true entries) (arrayText false entries') := by
  have body : Minifies (arrayBody true entries) (arrayBody false entries') := by
    induction each with
    | nil => exact minifies_nil
    | cons first others ih =>
      cases others with
      | nil => exact first
      | cons second others => exact (first.append minifies_comma).append ih
  exact (minifies_byte (by decide : Kept (ch '['))).append (body.append (minifies_byte (by decide)))

def MinifiesEntry (entry entry' : List Byte × List Byte) : Prop :=
  Minifies entry.1 entry'.1 ∧ Minifies entry.2 entry'.2

theorem minifies_member (depth depth' : Nat) {entry entry' : List Byte × List Byte}
    (both : MinifiesEntry entry entry') : Minifies (memberText true depth entry) (memberText false depth' entry') := by
  have colon : Minifies (ch ':' :: tabs true 1) (ch ':' :: tabs false 1) :=
    (minifies_byte (by decide : Kept (ch ':'))).append (minifies_tabs 1 1)
  exact (((minifies_tabs depth depth').append both.1).append colon).append both.2

theorem minifies_object (depth depth' : Nat) {entries entries' : List (List Byte × List Byte)}
    (each : List.Forall₂ MinifiesEntry entries entries') :
    Minifies (objectText true depth entries) (objectText false depth' entries') := by
  have comma : Minifies (ch ',' :: newline true) (ch ',' :: newline false) :=
    (minifies_byte (by decide : Kept (ch ','))).append minifies_newline
  have body (d d' : Nat) : Minifies (objectBody true d entries) (objectBody false d' entries') := by
    induction each with
    | nil => exact minifies_nil
    | cons first others ih =>
      cases others with
      | nil => exact (minifies_member d d' first).append minifies_newline
      | cons second others => exact ((minifies_member d d' first).append comma).append ih
  exact (minifies_byte (by decide : Kept (ch '{'))).append
    (((minifies_newline.append (body (depth + 1) (depth' + 1))).append (minifies_tabs _ _)).append
      (minifies_byte (by decide)))

theorem digits_kept (n : Nat) : ∀ c ∈ digits n, Kept c := by
  have digit : ∀ d < 10, Kept (BitVec.ofNat 8 (48 + d)) := by decide
  intro c mem
  unfold digits at mem
  split at mem
  · rw [List.mem_singleton.mp mem]
    decide
  · obtain ⟨d, inside, rfl⟩ := List.mem_map.mp mem
    exact digit d (Nat.digits_lt_base (by decide) (List.mem_reverse.mp inside))

theorem decimal_kept (n : Int) : ∀ c ∈ decimal n, Kept c := by
  intro c mem
  unfold decimal at mem
  split at mem
  · rcases List.mem_cons.mp mem with rfl | inside
    · decide
    · exact digits_kept _ c inside
  · exact digits_kept _ c mem

end Texts

variable {D : Type} {o : Arith D}

/-- printf writes numbers without blanks, quotes and slashes. -/
def Arith.Unspaced (o : Arith D) : Prop := ∀ conversion d, ∀ c ∈ o.sprintf conversion d, Kept c

theorem numberText_kept (unspaced : o.Unspaced) (f : Fields D) : ∀ c ∈ numberText o f, Kept c := by
  unfold numberText
  split
  · exact decimal_kept _
  · exact unspaced _ _

theorem text_kept {word : List Char} (all : word.all (fun c => decide (Kept (ch c))) = true) :
    ∀ c ∈ text word, Kept c := by
  intro c mem
  obtain ⟨x, inside, rfl⟩ := List.mem_map.mp mem
  exact of_decide_eq_true (List.all_eq_true.mp all x inside)

theorem minifies_item (unspaced : o.Unspaced) (f : Fields D) (depth depth' : Nat)
    {entries entries' : List (List Byte × List Byte)} (each : List.Forall₂ MinifiesEntry entries entries') :
    Minifies (itemText o true depth f entries) (itemText o false depth' f entries') := by
  unfold itemText
  cases f.kind with
  | null => exact minifies_kept (text_kept (by decide))
  | false => exact minifies_kept (text_kept (by decide))
  | true => exact minifies_kept (text_kept (by decide))
  | number => exact minifies_kept (numberText_kept unspaced f)
  | string => exact minifies_name f.valuestring
  | array =>
    apply minifies_array
    rw [List.forall₂_map_left_iff, List.forall₂_map_right_iff]
    exact each.imp fun _ _ both => both.2
  | object => exact minifies_object depth depth' each

theorem minifies_chain (unspaced : o.Unspaced) (items : CJson D) (depth depth' : Nat) :
    List.Forall₂ MinifiesEntry (chainTexts o true depth items) (chainTexts o false depth' items) := by
  induction items generalizing depth depth' with
  | nil => exact .nil
  | node f child next ihChild ihNext =>
    exact .cons ⟨minifies_name f.string, minifies_item unspaced f depth depth' (ihChild (depth + 1) (depth' + 1))⟩
      (ihNext depth depth')

section Sizes

/-- Where the formatted text is printed the unformatted one is too, and it is no longer. -/
def Shrinks (formatted unformatted : Option (List Byte)) : Prop :=
  ∀ out, formatted = some out → ∃ small, unformatted = some small ∧ small.length ≤ out.length

theorem shrinks_refl (printed : Option (List Byte)) : Shrinks printed printed :=
  fun out here => ⟨out, here, Nat.le_refl _⟩

theorem fits_shrinks {size size' : Nat} {out out' : List Byte} (less : size' ≤ size) (room : out'.length < size')
    (shorter : out'.length ≤ out.length) : Shrinks (fits size out) (fits size' out') := by
  intro text printed
  unfold fits at printed
  split at printed
  · rename_i int
    cases printed
    exact ⟨out', if_pos ⟨Nat.lt_of_le_of_lt less int.1, room⟩, shorter⟩
  · cases printed

theorem mapM_shrinks {α β γ δ : Type} {R : α → β → Prop} {S : γ → δ → Prop} {p : α → Option γ} {q : β → Option δ}
    (each : ∀ a b, R a b → ∀ c, p a = some c → ∃ d, q b = some d ∧ S c d) {as : List α} {bs : List β}
    (all : List.Forall₂ R as bs) {cs : List γ} (mapped : as.mapM p = some cs) :
    ∃ ds, bs.mapM q = some ds ∧ List.Forall₂ S cs ds := by
  induction all generalizing cs with
  | nil =>
    cases mapped
    exact ⟨[], rfl, .nil⟩
  | cons here _ ih =>
    simp only [List.mapM_cons, Option.bind_eq_bind, Option.bind_eq_some_iff] at mapped
    obtain ⟨c, first, rest, later, made⟩ := mapped
    obtain ⟨d, first', related⟩ := each _ _ here c first
    obtain ⟨ds, later', others⟩ := ih later
    rw [← Option.some.inj made]
    refine ⟨d :: ds, ?_, .cons related others⟩
    rw [List.mapM_cons, first', later']
    rfl

theorem arrayBody_shrinks {entries entries' : List (List Byte)}
    (each : List.Forall₂ (fun entry entry' => entry'.length ≤ entry.length) entries entries') :
    (arrayBody false entries').length ≤ (arrayBody true entries).length := by
  induction each with
  | nil => exact Nat.le_refl _
  | cons first others ih =>
    cases others with
    | nil => exact first
    | cons second others =>
      simp only [arrayBody, List.length_append, List.length_cons, if_true] at ih ⊢
      simp
      omega

theorem printArray_shrinks {entries entries' : List (List Byte)}
    (each : List.Forall₂ (fun entry entry' => entry'.length ≤ entry.length) entries entries') :
    Shrinks (printArray true entries) (printArray false entries') := by
  have body := arrayBody_shrinks each
  have same := each.length_eq
  have length (fmt : Bool) (entries : List (List Byte)) :
      (arrayText fmt entries).length = (arrayBody fmt entries).length + 2 := by
    simp [arrayText]
  have shorter : (arrayText false entries').length ≤ (arrayText true entries).length := by
    rw [length, length]
    omega
  unfold printArray
  by_cases empty : entries = []
  · subst empty
    have empty' : entries' = [] := List.eq_nil_of_length_eq_zero same.symm
    subst empty'
    have room : (arrayText false []).length < 3 := Nat.lt_succ_self 2
    exact fits_shrinks (Nat.le_refl 3) room shorter
  · have some' : entries' ≠ [] := by
      rintro rfl
      exact empty (List.eq_nil_of_length_eq_zero same)
    obtain ⟨counted, _⟩ := arrayBody_length true empty 5
    obtain ⟨counted', _⟩ := arrayBody_length false some' 5
    rw [if_neg empty, if_neg some', counted, counted']
    simp only [if_true, if_false, Bool.false_eq_true]
    exact fits_shrinks (by omega) (by rw [length]; omega) shorter

def EntryShorter (entry entry' : List Byte × List Byte) : Prop :=
  entry'.1.length ≤ entry.1.length ∧ entry'.2.length ≤ entry.2.length

theorem objectBody_shrinks (depth depth' : Nat) {entries entries' : List (List Byte × List Byte)}
    (each : List.Forall₂ EntryShorter entries entries') :
    (objectBody false depth' entries').length ≤ (objectBody true depth entries).length := by
  have member {entry entry' : List Byte × List Byte} (shorter : EntryShorter entry entry') :
      (memberText false depth' entry').length ≤ (memberText true depth entry).length := by
    obtain ⟨name, value⟩ := shorter
    simp only [memberText_length, if_true, if_false, Bool.false_eq_true]
    omega
  induction each with
  | nil => exact Nat.le_refl _
  | cons first others ih =>
    have here := member first
    cases others with
    | nil =>
      simp only [objectBody, List.length_append, newline_length, if_true, if_false, Bool.false_eq_true]
      omega
    | cons second others =>
      simp only [objectBody, List.length_append, List.length_cons, newline_length, if_true, if_false,
        Bool.false_eq_true] at ih ⊢
      omega

theorem printObject_shrinks (depth depth' : Nat) {entries entries' : List (List Byte × List Byte)}
    (each : List.Forall₂ EntryShorter entries entries') :
    Shrinks (printObject true depth entries) (printObject false depth' entries') := by
  have body := objectBody_shrinks (depth + 1) (depth' + 1) each
  have length := objectText_length true depth entries
  have length' := objectText_length false depth' entries'
  have shorter : (objectText false depth' entries').length ≤ (objectText true depth entries).length := by
    simp only [if_true, if_false, Bool.false_eq_true] at length length'
    omega
  have same := each.length_eq
  unfold printObject
  by_cases empty : entries = []
  · subst empty
    have empty' : entries' = [] := List.eq_nil_of_length_eq_zero same.symm
    subst empty'
    rw [objectBody, List.length_nil] at length'
    rw [if_pos rfl, if_pos rfl]
    simp only [if_true, if_false, Bool.false_eq_true] at length' ⊢
    exact fits_shrinks (by omega) (by omega) shorter
  · have some' : entries' ≠ [] := by
      rintro rfl
      exact empty (List.eq_nil_of_length_eq_zero same)
    have counted := objectBody_length true (depth + 1) empty (7 + (depth + 1))
    have counted' := objectBody_length false (depth' + 1) some' 7
    rw [if_neg empty, if_neg some']
    simp only [if_true, if_false, Bool.false_eq_true, Nat.add_zero] at counted counted' length' ⊢
    rw [counted, counted']
    exact fits_shrinks (by omega) (by omega) shorter

def EntryShrinks (entry entry' : Option (List Byte) × Option (List Byte)) : Prop :=
  Shrinks entry.1 entry'.1 ∧ Shrinks entry.2 entry'.2

theorem printItem_shrinks (o : Arith D) (f : Fields D) (depth depth' : Nat)
    {entries entries' : List (Option (List Byte) × Option (List Byte))}
    (each : List.Forall₂ EntryShrinks entries entries') :
    Shrinks (printItem o true depth f entries) (printItem o false depth' f entries') := by
  unfold printItem
  cases f.kind with
  | null => exact shrinks_refl _
  | false => exact shrinks_refl _
  | true => exact shrinks_refl _
  | number => exact shrinks_refl _
  | string => exact shrinks_refl _
  | array =>
    intro out printed
    obtain ⟨texts, mapped, whole⟩ := Option.bind_eq_some_iff.mp printed
    obtain ⟨texts', mapped', shorter⟩ := mapM_shrinks (fun _ _ both => both.2) each mapped
    obtain ⟨small, made, less⟩ := printArray_shrinks shorter out whole
    exact ⟨small, Option.bind_eq_some_iff.mpr ⟨texts', mapped', made⟩, less⟩
  | object =>
    have member (entry entry' : Option (List Byte) × Option (List Byte)) (both : EntryShrinks entry entry')
        (text : List Byte × List Byte)
        (here : (do let str ← entry.1; let ret ← entry.2; pure (str, ret)) = some text) :
        ∃ text', (do let str ← entry'.1; let ret ← entry'.2; pure (str, ret)) = some text' ∧ EntryShorter text text' := by
      simp only [Option.bind_eq_bind, Option.bind_eq_some_iff] at here
      obtain ⟨str, name, ret, value, made⟩ := here
      obtain ⟨str', name', less⟩ := both.1 str name
      obtain ⟨ret', value', less'⟩ := both.2 ret value
      rw [← Option.some.inj made]
      refine ⟨(str', ret'), ?_, less, less'⟩
      rw [name', value']
      rfl
    intro out printed
    obtain ⟨texts, mapped, whole⟩ := Option.bind_eq_some_iff.mp printed
    obtain ⟨texts', mapped', shorter⟩ := mapM_shrinks member each mapped
    obtain ⟨small, made, less⟩ := printObject_shrinks depth depth' shorter out whole
    exact ⟨small, Option.bind_eq_some_iff.mpr ⟨texts', mapped', made⟩, less⟩

theorem printChain_shrinks (o : Arith D) (items : CJson D) (depth depth' : Nat) :
    List.Forall₂ EntryShrinks (printChain o true depth items) (printChain o false depth' items) := by
  induction items generalizing depth depth' with
  | nil => exact .nil
  | node f child next ihChild ihNext =>
    exact .cons ⟨shrinks_refl _, printItem_shrinks o f depth depth' (ihChild (depth + 1) (depth' + 1))⟩
      (ihNext depth depth')

end Sizes

/-- The formatted text of a tree, where it is printed, is cut down to the unformatted one. -/
theorem minify_print (sized : o.Sized) (unspaced : o.Unspaced) (f : Fields D) (child next : CJson D) {out : List Byte}
    (printed : cJsonPrint o (.node f child next) = some out) :
    ∃ small, cJsonPrintUnformatted o (.node f child next) = some small ∧ cJsonMinify out = some small := by
  have cut := minifies_item unspaced f 0 0 (minifies_chain unspaced child 1 1) []
  obtain ⟨small, made, _⟩ := printItem_shrinks o f 0 0 (printChain_shrinks o child 1 1) out printed
  have formatted := (printValue_prints o sized true 0 f child next).only out printed
  have unformatted := (printValue_prints o sized false 0 f child next).only small made
  refine ⟨small, made, ?_⟩
  rw [List.append_nil] at cut
  rw [formatted, unformatted, valueText, valueText, cut]
  simp [cJsonMinify, minifyLoop]

theorem wholeNumbers_unspaced : wholeNumbers.Unspaced := by
  intro conversion d c mem
  cases conversion with
  | f0 => exact decimal_kept d c mem
  | e => exact text_kept (by decide) c mem
  | f =>
    rcases List.mem_append.mp mem with number | zeros
    · exact decimal_kept d c number
    · exact text_kept (by decide) c zeros

theorem nested_item_minified :
    ∃ small, cJsonPrintUnformatted wholeNumbers (.node ⟨.array, false, none, 0, 0, none⟩
      (.node ⟨.object, false, none, 0, 0, none⟩ (.node ⟨.number, false, none, 7, 7, some (text [' '])⟩ .nil .nil) .nil)
      .nil) = some small ∧
      cJsonMinify (text ['[', '{', '\n', '\t', '\t', '"', ' ', '"', ':', '\t', '7', '\n', '\t', '}', ']']) = some small :=
  minify_print wholeNumbers_sized wholeNumbers_unspaced _ _ _ (by decide)

end TestSource.Json
