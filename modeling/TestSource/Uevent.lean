import TestSource.Hotplug
import TestSource.Recorded

/- parse_event of xl_usb_device.c on the bytes of a received uevent. Every index that is read
   is recorded, and a read outside the buffer gives nothing. strncmp reads up to the first
   difference. -/
namespace TestSource.Uevent

inductive Pointer where
  | null
  | literal
  | into (pos : Nat)
  deriving DecidableEq, Repr

structure LutherGliethttp where
  action : Pointer
  path : Pointer
  subsystem : Pointer
  firmware : Pointer
  devname : Pointer
  physdevdriver : Pointer
  product : Pointer
  major : Int
  minor : Int
  type : Int
  deriving DecidableEq, Repr

/-- As mnt_usb_detect_thread passes it. -/
def cleared : LutherGliethttp := ⟨.null, .null, .null, .null, .null, .null, .null, 0, 0, 0⟩

inductive Key where
  | action
  | subsystem
  | physdevdriver
  | devname
  | product
  deriving DecidableEq, Repr

def Key.text : Key → List Byte
  | .action => ascii "ACTION=".toList
  | .subsystem => ascii "SUBSYSTEM=".toList
  | .physdevdriver => ascii "PHYSDEVDRIVER=".toList
  | .devname => ascii "DEVNAME=".toList
  | .product => ascii "PRODUCT=".toList

def Key.field : Key → LutherGliethttp → Pointer
  | .action, ev => ev.action
  | .subsystem, ev => ev.subsystem
  | .physdevdriver, ev => ev.physdevdriver
  | .devname, ev => ev.devname
  | .product, ev => ev.product

def Key.store (p : Pointer) : Key → LutherGliethttp → LutherGliethttp
  | .action, ev => { ev with action := p }
  | .subsystem, ev => { ev with subsystem := p }
  | .physdevdriver, ev => { ev with physdevdriver := p }
  | .devname, ev => { ev with devname := p }
  | .product, ev => { ev with product := p }

def keys : List Key := [.action, .subsystem, .physdevdriver, .devname, .product]

section Parse
variable (buf : List Byte)

def readByte (msg : Nat) : Recorded Nat Byte := Recorded.record msg buf[msg]?

def sameBytes : Nat → List Byte → Recorded Nat Bool
  | _, [] => pure true
  | msg, c :: key => do
      let b ← readByte buf msg
      if b = c then sameBytes (msg + 1) key else pure false

/-- while (*msg++) -/
def skipLoop : Nat → Nat → Recorded Nat Nat
  | 0, _ => ⟨[], none⟩
  | fuel + 1, msg => do
      let b ← readByte buf msg
      if b = 0 then pure (msg + 1) else skipLoop fuel (msg + 1)

/-- The chain of tests, from a given key on: the place behind the key, if one is found. -/
def matchKey (msg : Nat) (ev : LutherGliethttp) : List Key → Recorded Nat (Nat × LutherGliethttp)
  | [] => pure (msg, ev)
  | k :: rest => do
      let found ← sameBytes buf msg k.text
      if found then pure (msg + k.text.length, k.store (.into (msg + k.text.length)) ev)
      else matchKey msg ev rest

def eventRound (msg : Nat) (ev : LutherGliethttp) : Recorded Nat (Nat × LutherGliethttp) := do
  let (msg, ev) ← matchKey buf msg ev keys
  let msg ← skipLoop buf (buf.length + 1) msg
  pure (msg, ev)

def eventLoop : Nat → Nat → LutherGliethttp → Recorded Nat LutherGliethttp
  | 0, _, _ => ⟨[], none⟩
  | fuel + 1, msg, ev => do
      let b ← readByte buf msg
      if b = 0 then pure ev
      else do
        let (msg, ev) ← eventRound buf msg ev
        eventLoop fuel msg ev

def setUp (ev : LutherGliethttp) : LutherGliethttp :=
  { ev with
    action := .literal
    path := .literal
    subsystem := .literal
    firmware := .literal
    major := -1
    minor := -1
    product := .literal }

def parseEvent (ev : LutherGliethttp) : Recorded Nat LutherGliethttp :=
  eventLoop buf (buf.length + 1) 0 (setUp ev)

def textOf : Pointer → Option (List Byte)
  | .null => none
  | .literal => some []
  | .into pos => some ((buf.drop pos).takeWhile (· ≠ 0))

end Parse

section Entries
open Recorded
variable {buf pre e rest : List Byte}

abbrev Inside {α : Type} (buf : List Byte) (t : Recorded Nat α) : Prop := Holds (· < buf.length) t

abbrev GivesInside {α : Type} (buf : List Byte) (t : Recorded Nat α) (a : α) : Prop :=
  Gives (· < buf.length) t a

theorem readByte_here {b : Byte} (split : buf = pre ++ b :: rest) :
    GivesInside buf (readByte buf pre.length) b := by
  have byte : buf[pre.length]? = some b := by
    rw [split]
    simp
  rw [readByte, byte]
  apply gives_record b
  rw [split, List.length_append, List.length_cons]
  omega

/-- In an entry, strncmp stops at its NUL at the latest. -/
theorem sameBytes_entry (split : buf = pre ++ (e ++ 0 :: rest)) {key : List Byte} (plain : 0 ∉ key) :
    GivesInside buf (sameBytes buf pre.length key) (key.isPrefixOf e) := by
  induction key generalizing pre e with
  | nil => exact gives_pure true
  | cons c key ih =>
    simp only [List.mem_cons, not_or] at plain
    cases e with
    | nil =>
      apply gives_bind (readByte_here split)
      rw [if_neg plain.1]
      exact gives_pure false
    | cons b e =>
      apply gives_bind (readByte_here split)
      by_cases same : b = c
      · have next : GivesInside buf (sameBytes buf (pre ++ [b]).length key) (key.isPrefixOf e) :=
          ih (by rw [split]; simp) plain.2
        rw [List.length_append, List.length_singleton] at next
        rw [if_pos same, List.isPrefixOf_cons_cons, same, beq_self_eq_true, Bool.true_and]
        exact next
      · have differ : (c :: key).isPrefixOf (b :: e) = false := by
          simp [List.isPrefixOf, Ne.symm same]
        rw [if_neg same, differ]
        exact gives_pure false

theorem skipLoop_entry (split : buf = pre ++ (e ++ 0 :: rest)) (plain : 0 ∉ e) {fuel : Nat}
    (enough : e.length < fuel) :
    GivesInside buf (skipLoop buf fuel pre.length) (pre.length + e.length + 1) := by
  induction fuel generalizing pre e with
  | zero => omega
  | succ fuel ih =>
    cases e with
    | nil =>
      apply gives_bind (readByte_here split)
      rw [if_pos rfl]
      exact gives_pure _
    | cons b e =>
      simp only [List.mem_cons, not_or, List.length_cons] at plain enough
      have next : GivesInside buf (skipLoop buf fuel (pre ++ [b]).length)
          ((pre ++ [b]).length + e.length + 1) := ih (by rw [split]; simp) plain.2 (by omega)
      rw [List.length_append, List.length_singleton] at next
      apply gives_bind (readByte_here split)
      rw [if_neg (Ne.symm plain.1), List.length_cons, Nat.add_comm e.length, ← Nat.add_assoc]
      exact next

theorem key_plain (k : Key) : 0 ∉ k.text := by
  cases k <;> decide

def keyOf (ks : List Key) (e : List Byte) : Option Key := ks.find? fun k => k.text.isPrefixOf e

theorem keyOf_starts {ks : List Key} {k : Key} (found : keyOf ks e = some k) : k.text <+: e := by
  have start : (fun k : Key => k.text.isPrefixOf e) k = true :=
    List.find?_some (p := fun k : Key => k.text.isPrefixOf e) found
  exact List.isPrefixOf_iff_prefix.mp start

def storeEntry (ks : List Key) (pos : Nat) (e : List Byte) (ev : LutherGliethttp) : LutherGliethttp :=
  match keyOf ks e with
  | some k => k.store (.into (pos + k.text.length)) ev
  | none => ev

def behindKey (ks : List Key) (pos : Nat) (e : List Byte) : Nat :=
  match keyOf ks e with
  | some k => pos + k.text.length
  | none => pos

theorem matchKey_entry (split : buf = pre ++ (e ++ 0 :: rest)) (ev : LutherGliethttp) (ks : List Key) :
    GivesInside buf (matchKey buf pre.length ev ks)
      (behindKey ks pre.length e, storeEntry ks pre.length e ev) := by
  induction ks with
  | nil => exact gives_pure (pre.length, ev)
  | cons k ks ih =>
    apply gives_bind (sameBytes_entry split (key_plain k))
    cases found : k.text.isPrefixOf e with
    | true =>
      have here : keyOf (k :: ks) e = some k := by simp [keyOf, found]
      simp only [behindKey, storeEntry, here, if_true]
      exact gives_pure _
    | false =>
      have later : keyOf (k :: ks) e = keyOf ks e := by simp [keyOf, found]
      simp only [behindKey, storeEntry, later, Bool.false_eq_true, if_false]
      exact ih

theorem skip_behindKey (split : buf = pre ++ (e ++ 0 :: rest)) (plain : 0 ∉ e) (ks : List Key) :
    GivesInside buf (skipLoop buf (buf.length + 1) (behindKey ks pre.length e))
      (pre.length + e.length + 1) := by
  have room : e.length < buf.length + 1 := by
    rw [split, List.length_append, List.length_append]
    omega
  cases found : keyOf ks e with
  | none =>
    simp only [behindKey, found]
    exact skipLoop_entry split plain room
  | some k =>
    obtain ⟨v, value⟩ := keyOf_starts found
    have behind : buf = (pre ++ k.text) ++ (v ++ 0 :: rest) := by
      rw [split, ← value, List.append_assoc, List.append_assoc]
    have valuePlain : 0 ∉ v := by
      intro zero
      rw [← value] at plain
      exact plain (List.mem_append_right _ zero)
    have lengths : e.length = k.text.length + v.length := by rw [← value, List.length_append]
    have passed : GivesInside buf (skipLoop buf (buf.length + 1) (pre ++ k.text).length)
        ((pre ++ k.text).length + v.length + 1) :=
      skipLoop_entry behind valuePlain (by omega)
    have place : (pre ++ k.text).length + v.length + 1 = pre.length + e.length + 1 := by
      rw [List.length_append]
      omega
    rw [place, List.length_append] at passed
    simp only [behindKey, found]
    exact passed

/-- One round of the loop is one entry. -/
theorem eventRound_entry (split : buf = pre ++ (e ++ 0 :: rest)) (plain : 0 ∉ e)
    (ev : LutherGliethttp) :
    GivesInside buf (eventRound buf pre.length ev)
      (pre.length + e.length + 1, storeEntry keys pre.length e ev) := by
  apply gives_bind (matchKey_entry split ev keys)
  apply gives_bind (skip_behindKey split plain keys)
  exact gives_pure _

def storeEntries : Nat → List (List Byte) → LutherGliethttp → LutherGliethttp
  | _, [], ev => ev
  | pos, e :: rest, ev => storeEntries (pos + e.length + 1) rest (storeEntry keys pos e ev)

def messageOf (entries : List (List Byte)) : List Byte := entries.flatMap fun e => e ++ [0]

theorem split_behind (split : buf = pre ++ (e ++ 0 :: rest)) : buf = (pre ++ (e ++ [0])) ++ rest := by
  rw [split, List.append_assoc, List.append_assoc]
  rfl

theorem length_behind (pre e : List Byte) :
    (pre ++ (e ++ [0])).length = pre.length + e.length + 1 := by
  rw [List.length_append, List.length_append, List.length_singleton, Nat.add_assoc]

theorem eventLoop_round (split : buf = pre ++ (e ++ 0 :: rest)) (nonempty : e ≠ []) (plain : 0 ∉ e)
    (fuel : Nat) (ev : LutherGliethttp) :
    (∀ after, GivesInside buf (eventLoop buf fuel (pre ++ (e ++ [0])).length
        (storeEntry keys pre.length e ev)) after →
      GivesInside buf (eventLoop buf (fuel + 1) pre.length ev) after) ∧
    (Inside buf (eventLoop buf (fuel + 1) pre.length ev) →
      Inside buf (eventLoop buf fuel (pre ++ (e ++ [0])).length (storeEntry keys pre.length e ev))) := by
  obtain ⟨b, more, entry⟩ := List.exists_cons_of_ne_nil nonempty
  have first : buf = pre ++ b :: (more ++ 0 :: rest) := by
    rw [split, entry, List.cons_append]
  have nonzero : b ≠ 0 := by
    intro zero
    exact plain (by rw [entry, zero]; exact List.mem_cons_self)
  have read := readByte_here first
  have round := eventRound_entry split plain ev
  rw [length_behind]
  constructor
  · intro after next
    apply gives_bind read
    rw [if_neg nonzero]
    exact gives_bind round next
  · intro inside
    have tested := (holds_after read).mp inside
    rw [if_neg nonzero] at tested
    exact (holds_after round).mp tested

theorem eventLoop_end (split : buf = pre ++ 0 :: rest) (fuel : Nat) (ev : LutherGliethttp) :
    GivesInside buf (eventLoop buf (fuel + 1) pre.length ev) ev := by
  apply gives_bind (readByte_here split)
  rw [if_pos rfl]
  exact gives_pure ev

theorem eventLoop_entries {entries : List (List Byte)} {tail : List Byte}
    (split : buf = pre ++ (messageOf entries ++ 0 :: tail))
    (wellFormed : ∀ e ∈ entries, e ≠ [] ∧ 0 ∉ e) {fuel : Nat} (enough : entries.length < fuel)
    (ev : LutherGliethttp) :
    GivesInside buf (eventLoop buf fuel pre.length ev) (storeEntries pre.length entries ev) := by
  induction fuel generalizing pre entries ev with
  | zero => omega
  | succ fuel ih =>
    cases entries with
    | nil => exact eventLoop_end split fuel ev
    | cons e entries =>
      obtain ⟨nonempty, plain⟩ := wellFormed e List.mem_cons_self
      have here : buf = pre ++ (e ++ 0 :: (messageOf entries ++ 0 :: tail)) := by
        rw [split]
        simp [messageOf]
      rw [List.length_cons] at enough
      have next := ih (split_behind here)
        (fun x mem => wellFormed x (List.mem_cons_of_mem e mem)) (by omega)
        (storeEntry keys pre.length e ev)
      have passed := (eventLoop_round here nonempty plain fuel ev).1 _ next
      rw [length_behind] at passed
      exact passed

theorem key_unique {k l : Key} (first : k.text <+: e) (second : l.text <+: e) : k = l := by
  have apart : ∀ k l : Key, k.text.isPrefixOf l.text = true → k = l := by
    intro k l
    cases k <;> cases l <;> decide
  rcases Nat.le_total k.text.length l.text.length with shorter | longer
  · have start := List.prefix_of_prefix_length_le first second shorter
    exact apart k l (List.isPrefixOf_iff_prefix.mpr start)
  · have start := List.prefix_of_prefix_length_le second first longer
    exact (apart l k (List.isPrefixOf_iff_prefix.mpr start)).symm

theorem keyOf_iff {k : Key} : keyOf keys e = some k ↔ k.text <+: e := by
  constructor
  · exact keyOf_starts
  · intro start
    have tried : k ∈ keys := by cases k <;> decide
    have some : (keyOf keys e).isSome = true := by
      rw [keyOf, List.find?_isSome]
      exact ⟨k, tried, List.isPrefixOf_iff_prefix.mpr start⟩
    obtain ⟨l, found⟩ := Option.isSome_iff_exists.mp some
    rw [found, key_unique (keyOf_starts found) start]

theorem field_store (p : Pointer) (k l : Key) (ev : LutherGliethttp) :
    k.field (l.store p ev) = if l = k then p else k.field ev := by
  cases k <;> cases l <;> rfl

/-- An entry sets the field of its own key and no other. -/
theorem field_storeEntry (k : Key) (pos : Nat) (ev : LutherGliethttp) :
    k.field (storeEntry keys pos e ev) =
      if k.text.isPrefixOf e then .into (pos + k.text.length) else k.field ev := by
  by_cases start : k.text <+: e
  · rw [if_pos (List.isPrefixOf_iff_prefix.mpr start)]
    simp only [storeEntry, keyOf_iff.mpr start]
    rw [field_store, if_pos rfl]
  · rw [if_neg (fun found => start (List.isPrefixOf_iff_prefix.mp found))]
    cases found : keyOf keys e with
    | none => simp only [storeEntry, found]
    | some l =>
      have other : l ≠ k := by
        intro same
        exact start (same ▸ keyOf_starts found)
      simp only [storeEntry, found]
      rw [field_store, if_neg other]

/-- The text behind the key in the last entry that starts with it. -/
def valueOf (k : Key) (entries : List (List Byte)) : Option (List Byte) :=
  (entries.filter fun e => k.text.isPrefixOf e).getLast?.map fun e => e.drop k.text.length

theorem valueOf_cons (k : Key) (e : List Byte) (entries : List (List Byte)) :
    valueOf k (e :: entries) =
      (valueOf k entries).or (if k.text.isPrefixOf e then some (e.drop k.text.length) else none) := by
  unfold valueOf
  cases start : k.text.isPrefixOf e with
  | false => simp [start]
  | true =>
    cases later : (entries.filter fun e => k.text.isPrefixOf e).getLast? with
    | none => simp [start, List.getLast?_cons, later]
    | some last => simp [start, List.getLast?_cons, later]

theorem textOf_behind {k : Key} (split : buf = pre ++ (e ++ 0 :: rest)) (plain : 0 ∉ e)
    (start : k.text <+: e) :
    textOf buf (.into (pre.length + k.text.length)) = some (e.drop k.text.length) := by
  obtain ⟨v, value⟩ := start
  have dropped : e.drop k.text.length = v := by rw [← value, List.drop_left]
  have behind : buf.drop (pre.length + k.text.length) = v ++ 0 :: rest := by
    rw [split, ← value, List.append_assoc, ← List.append_assoc, ← List.length_append, List.drop_left]
  have valuePlain : ∀ b ∈ v, decide (b ≠ 0) = true := by
    intro b mem
    rw [decide_eq_true_eq]
    intro zero
    rw [← value] at plain
    exact plain (List.mem_append_right _ (zero ▸ mem))
  rw [textOf, behind, dropped, List.takeWhile_append_of_pos valuePlain]
  simp

def FieldIs (buf : List Byte) (before after : Pointer) : Option (List Byte) → Prop
  | some v => textOf buf after = some v
  | none => after = before

theorem storeEntries_field (k : Key) {entries : List (List Byte)}
    (split : buf = pre ++ (messageOf entries ++ rest)) (plain : ∀ e ∈ entries, 0 ∉ e)
    (ev : LutherGliethttp) :
    FieldIs buf (k.field ev) (k.field (storeEntries pre.length entries ev)) (valueOf k entries) := by
  induction entries generalizing pre ev with
  | nil => rfl
  | cons e entries ih =>
    have here : buf = pre ++ (e ++ 0 :: (messageOf entries ++ rest)) := by
      rw [split]
      simp [messageOf]
    have next := ih (split_behind here)
      (fun x mem => plain x (List.mem_cons_of_mem e mem)) (storeEntry keys pre.length e ev)
    rw [length_behind, field_storeEntry] at next
    rw [valueOf_cons, storeEntries]
    cases later : valueOf k entries with
    | some v =>
      rw [later] at next
      exact next
    | none =>
      rw [later] at next
      cases start : k.text.isPrefixOf e with
      | false =>
        rw [start] at next
        exact next
      | true =>
        have text := textOf_behind here (plain e List.mem_cons_self) (List.isPrefixOf_iff_prefix.mp start)
        rw [start] at next
        have pointer : k.field (storeEntries (pre.length + e.length + 1) entries
            (storeEntry keys pre.length e ev)) = .into (pre.length + k.text.length) := next
        rw [Option.none_or, if_pos rfl, FieldIs, pointer]
        exact text

def others (ev : LutherGliethttp) : Pointer × Pointer × Int × Int × Int :=
  (ev.path, ev.firmware, ev.major, ev.minor, ev.type)

theorem storeEntries_others (pos : Nat) (entries : List (List Byte)) (ev : LutherGliethttp) :
    others (storeEntries pos entries ev) = others ev := by
  induction entries generalizing pos ev with
  | nil => rfl
  | cons e entries ih =>
    rw [storeEntries, ih, storeEntry]
    cases keyOf keys e with
    | none => rfl
    | some k => cases k <;> rfl

theorem length_le_messageOf (entries : List (List Byte)) :
    entries.length ≤ (messageOf entries).length := by
  induction entries with
  | nil => exact Nat.le_refl 0
  | cons e entries ih =>
    unfold messageOf at ih ⊢
    rw [List.flatMap_cons, List.length_append, List.length_append, List.length_cons,
      List.length_singleton]
    omega

theorem parseEvent_entries {entries : List (List Byte)}
    (wellFormed : ∀ e ∈ entries, e ≠ [] ∧ 0 ∉ e) (tail : List Byte) (ev : LutherGliethttp) :
    GivesInside (messageOf entries ++ 0 :: tail) (parseEvent (messageOf entries ++ 0 :: tail) ev)
      (storeEntries 0 entries (setUp ev)) := by
  have split : messageOf entries ++ 0 :: tail = [] ++ (messageOf entries ++ 0 :: tail) := rfl
  apply eventLoop_entries split wellFormed
  have short := length_le_messageOf entries
  rw [List.length_append]
  omega

theorem parseEvent_field (k : Key) {entries : List (List Byte)}
    (wellFormed : ∀ e ∈ entries, e ≠ [] ∧ 0 ∉ e) (tail : List Byte) (ev : LutherGliethttp) :
    FieldIs (messageOf entries ++ 0 :: tail) (k.field ev) (k.field (storeEntries 0 entries ev))
      (valueOf k entries) := by
  have split : messageOf entries ++ 0 :: tail = [] ++ (messageOf entries ++ 0 :: tail) := rfl
  have plain : ∀ e ∈ entries, 0 ∉ e := fun e mem => (wellFormed e mem).2
  exact storeEntries_field k split plain ev

end Entries

theorem uevent_fields_exact {entries : List (List Byte)}
    (wellFormed : ∀ e ∈ entries, e ≠ [] ∧ 0 ∉ e) (tail : List Byte) (ev : LutherGliethttp) :
    ∃ after, (parseEvent (messageOf entries ++ 0 :: tail) ev).value = some after ∧
      (∀ k : Key, FieldIs (messageOf entries ++ 0 :: tail) (k.field (setUp ev)) (k.field after)
        (valueOf k entries)) ∧
      others after = others (setUp ev) := by
  refine ⟨storeEntries 0 entries (setUp ev), (parseEvent_entries wellFormed tail ev).value, ?_,
    storeEntries_others 0 entries (setUp ev)⟩
  intro k
  exact parseEvent_field k wellFormed tail (setUp ev)

def removeEntries : List (List Byte) :=
  [ascii "remove@/devices".toList, ascii "ACTION=add".toList, ascii "ACTION=remove".toList, ascii "DEVNAME=".toList,
    ascii "XACTION=change".toList]

theorem remove_fields_read : ∃ after,
    (parseEvent (messageOf removeEntries ++ [0]) cleared).value = some after ∧
      textOf (messageOf removeEntries ++ [0]) after.action = some (ascii "remove".toList) ∧
      textOf (messageOf removeEntries ++ [0]) after.devname = some [] ∧
      after.subsystem = .literal ∧ after.physdevdriver = .null ∧ after.product = .literal := by
  have wellFormed : ∀ e ∈ removeEntries, e ≠ [] ∧ 0 ∉ e := by decide
  obtain ⟨after, value, fields, -⟩ := uevent_fields_exact wellFormed [] cleared
  have field : ∀ (k : Key) (v : Option (List Byte)), valueOf k removeEntries = v →
      FieldIs (messageOf removeEntries ++ [0]) (k.field (setUp cleared)) (k.field after) v := by
    intro k v same
    rw [← same]
    exact fields k
  refine ⟨after, value, ?_, ?_, ?_, ?_, ?_⟩
  · exact field .action (some (ascii "remove".toList)) (by decide)
  · exact field .devname (some []) (by decide)
  · exact field .subsystem none (by decide)
  · exact field .physdevdriver none (by decide)
  · exact field .product none (by decide)

section Action
variable {e : List Byte}

def chars (s : List Byte) : CStr := s.map fun b => Char.ofNat b.toNat

theorem byte_char_injective : Function.Injective fun b : Byte => Char.ofNat b.toNat := by
  have toNat : ∀ b : Byte, (Char.ofNat b.toNat).toNat = b.toNat := by
    intro b
    have small : b.toNat < 256 := b.isLt
    have valid : b.toNat.isValidChar := Or.inl (by omega)
    rw [Char.ofNat, dif_pos valid]
    rfl
  intro a b same
  apply BitVec.eq_of_toNat_eq
  rw [← toNat a, ← toNat b]
  exact congrArg Char.toNat same

theorem chars_start {s : List Byte} : (chars s).isPrefixOf (chars e) = s.isPrefixOf e := by
  rw [Bool.eq_iff_iff, List.isPrefixOf_iff_prefix, List.isPrefixOf_iff_prefix]
  exact List.prefix_map_iff_of_injective byte_char_injective

theorem hotplug_parseEvent {entries : List (List Byte)} (nonempty : ∀ e ∈ entries, e ≠ [])
    (before : List Byte) :
    Hotplug.parseEvent (entries.map chars) (chars before) =
      chars ((valueOf .action entries).getD before) := by
  have key : Hotplug.actionKey = chars Key.action.text := by decide
  induction entries generalizing before with
  | nil => rfl
  | cons e entries ih =>
    have some : (chars e).isEmpty = false := by
      rw [List.isEmpty_eq_false_iff, chars, ne_eq, List.map_eq_nil_iff]
      exact nonempty e List.mem_cons_self
    have later := ih fun x mem => nonempty x (List.mem_cons_of_mem e mem)
    have dropped : (chars e).drop (chars Key.action.text).length =
        chars (e.drop Key.action.text.length) := by
      rw [chars, chars, chars, List.length_map, List.map_drop]
    rw [List.map_cons, Hotplug.parseEvent, some, key, chars_start, dropped, later, later, valueOf_cons]
    cases valueOf .action entries with
    | some v => simp
    | none => cases Key.action.text.isPrefixOf e <;> rfl

/-- The action the state machine is given is the one the bytes spell. -/
theorem action_refines {entries : List (List Byte)} (wellFormed : ∀ e ∈ entries, e ≠ [] ∧ 0 ∉ e)
    (tail : List Byte) (ev : LutherGliethttp) :
    ∃ after text, (parseEvent (messageOf entries ++ 0 :: tail) ev).value = some after ∧
      textOf (messageOf entries ++ 0 :: tail) after.action = some text ∧
      chars text = Hotplug.parseEvent (entries.map chars) [] := by
  have nonempty : ∀ e ∈ entries, e ≠ [] := fun e mem => (wellFormed e mem).1
  have field := parseEvent_field .action wellFormed tail (setUp ev)
  have model := hotplug_parseEvent nonempty []
  refine ⟨_, (valueOf .action entries).getD [], (parseEvent_entries wellFormed tail ev).value, ?_,
    model.symm⟩
  cases value : valueOf .action entries with
  | some v =>
    rw [value] at field
    exact field
  | none =>
    rw [value] at field
    have literal : (storeEntries 0 entries (setUp ev)).action = .literal := field
    rw [literal]
    rfl

end Action

section Bounds
open Recorded
variable {buf pre e rest : List Byte}

theorem readByte_inside {msg : Nat} (inside : Inside buf (readByte buf msg)) :
    ∃ b, buf[msg]? = some b := by
  have below : msg < buf.length := (holds_record msg _).mp inside
  exact ⟨buf[msg], List.getElem?_eq_getElem below⟩

/-- A comparison that stays inside ends, and a key that is found lies inside. -/
theorem sameBytes_inside {msg : Nat} {key : List Byte} (start : msg ≤ buf.length)
    (inside : Inside buf (sameBytes buf msg key)) :
    ∃ found, (sameBytes buf msg key).value = some found ∧
      (found = true → msg + key.length ≤ buf.length) := by
  induction key generalizing msg with
  | nil => exact ⟨true, rfl, fun _ => start⟩
  | cons c key ih =>
    have steps := (holds_bind _ _).mp inside
    obtain ⟨b, byte⟩ := readByte_inside steps.1
    have below : msg < buf.length := (holds_record msg _).mp steps.1
    have read : (readByte buf msg).value = some b := byte
    have after := steps.2 b read
    simp only [sameBytes, value_bind, read, Option.bind_some]
    by_cases same : b = c
    · rw [if_pos same] at after
      obtain ⟨found, value, lies⟩ := ih below after
      refine ⟨found, by rw [if_pos same, value], ?_⟩
      intro yes
      have := lies yes
      rw [List.length_cons]
      omega
    · exact ⟨false, by rw [if_neg same]; rfl, fun no => absurd no Bool.false_ne_true⟩

theorem matchKey_inside {msg : Nat} {ks : List Key} {ev : LutherGliethttp} (start : msg ≤ buf.length)
    (inside : Inside buf (matchKey buf msg ev ks)) :
    ∃ place after, (matchKey buf msg ev ks).value = some (place, after) ∧
      msg ≤ place ∧ place ≤ buf.length := by
  induction ks with
  | nil => exact ⟨msg, ev, rfl, Nat.le_refl msg, start⟩
  | cons k ks ih =>
    have steps := (holds_bind _ _).mp inside
    obtain ⟨found, value, lies⟩ := sameBytes_inside start steps.1
    have after := steps.2 found value
    simp only [matchKey, value_bind, value, Option.bind_some]
    cases found with
    | true => exact ⟨_, _, rfl, Nat.le_add_right msg _, lies rfl⟩
    | false => exact ih after

theorem skipLoop_leaves {msg fuel : Nat} (start : msg ≤ buf.length)
    (unended : ∀ i, msg ≤ i → buf[i]? ≠ some 0) (enough : buf.length < msg + fuel) :
    ¬Inside buf (skipLoop buf fuel msg) := by
  induction fuel generalizing msg with
  | zero => omega
  | succ fuel ih =>
    intro inside
    have steps := (holds_bind _ _).mp inside
    obtain ⟨b, byte⟩ := readByte_inside steps.1
    have below : msg < buf.length := (holds_record msg _).mp steps.1
    have after := steps.2 b byte
    have nonzero : b ≠ 0 := by
      intro zero
      exact unended msg (Nat.le_refl msg) (zero ▸ byte)
    rw [if_neg nonzero] at after
    exact ih below (fun i behind => unended i (by omega)) (by omega) after

theorem eventRound_leaves {msg : Nat} {ev : LutherGliethttp} (start : msg ≤ buf.length)
    (unended : ∀ i, msg ≤ i → buf[i]? ≠ some 0) : ¬Inside buf (eventRound buf msg ev) := by
  intro inside
  have steps := (holds_bind _ _).mp inside
  obtain ⟨place, after, value, behind, below⟩ := matchKey_inside start steps.1
  have skip := ((holds_bind _ _).mp (steps.2 _ value)).1
  exact skipLoop_leaves below (fun i later => unended i (by omega)) (by omega) skip

def Closed (s : List Byte) : Prop := s[0]? = some 0 ∨ ∃ i : Nat, s[i]? = some 0 ∧ s[i + 1]? = some 0

theorem closed_entry (nonempty : e ≠ []) (plain : 0 ∉ e) : Closed (e ++ 0 :: rest) ↔ Closed rest := by
  have inEntry : ∀ i, i < e.length → (e ++ 0 :: rest)[i]? ≠ some 0 := by
    intro i below
    rw [List.getElem?_append_left below]
    exact fun zero => plain (List.mem_of_getElem? zero)
  have atEnd : (e ++ 0 :: rest)[e.length]? = some 0 := by simp
  have behind : ∀ i, (e ++ 0 :: rest)[e.length + 1 + i]? = rest[i]? := by
    intro i
    rw [List.getElem?_append_right (by omega), show e.length + 1 + i - e.length = i + 1 by omega,
      List.getElem?_cons_succ]
  have start : 0 < e.length := List.length_pos_iff.mpr nonempty
  constructor
  · rintro (first | ⟨i, here, next⟩)
    · exact absurd first (inEntry 0 start)
    · rcases Nat.lt_trichotomy i e.length with before | same | later
      · exact absurd here (inEntry i before)
      · left
        rw [← behind 0, Nat.add_zero, ← same]
        exact next
      · obtain ⟨j, place⟩ := Nat.exists_eq_add_of_lt later
        right
        refine ⟨j, ?_, ?_⟩
        · rw [← behind j, ← here, place]
          congr 1
          omega
        · rw [← behind (j + 1), ← next, place]
          congr 1
          omega
  · rintro (first | ⟨i, here, next⟩)
    · right
      refine ⟨e.length, atEnd, ?_⟩
      rw [← behind 0] at first
      exact first
    · right
      refine ⟨e.length + 1 + i, ?_, ?_⟩
      · rw [behind i]
        exact here
      · rw [Nat.add_assoc, behind (i + 1)]
        exact next

theorem not_closed (unended : 0 ∉ rest) : ¬Closed rest := by
  rintro (first | ⟨i, here, -⟩)
  · exact unended (List.mem_of_getElem? first)
  · exact unended (List.mem_of_getElem? here)

theorem eventLoop_leaves (split : buf = pre ++ rest) (unended : 0 ∉ rest) (fuel : Nat)
    (ev : LutherGliethttp) : ¬Inside buf (eventLoop buf (fuel + 1) pre.length ev) := by
  have noZero : ∀ i, pre.length ≤ i → buf[i]? ≠ some 0 := by
    intro i behind byte
    rw [split, List.getElem?_append_right behind] at byte
    exact unended (List.mem_of_getElem? byte)
  have start : pre.length ≤ buf.length := by
    rw [split, List.length_append]
    omega
  intro inside
  have steps := (holds_bind _ _).mp inside
  obtain ⟨b, byte⟩ := readByte_inside steps.1
  have tested := steps.2 b byte
  have nonzero : b ≠ 0 := by
    intro zero
    exact noZero pre.length (Nat.le_refl _) (zero ▸ byte)
  rw [if_neg nonzero] at tested
  exact eventRound_leaves start noZero ((holds_bind _ _).mp tested).1

/-- The loop ends inside the buffer where the rest of it comes to an empty entry, and leaves
    the buffer elsewhere. -/
theorem eventLoop_closed {s : List Byte} (split : buf = pre ++ s) {fuel : Nat}
    (enough : s.length < fuel) (ev : LutherGliethttp) :
    (Closed s → ∃ after, GivesInside buf (eventLoop buf fuel pre.length ev) after) ∧
      (Inside buf (eventLoop buf fuel pre.length ev) → Closed s) := by
  induction fuel generalizing pre s ev with
  | zero => omega
  | succ fuel ih =>
    by_cases ended : 0 ∈ s
    · obtain ⟨e, rest, parts, plain⟩ := List.eq_append_cons_of_mem ended
      rw [parts] at split
      cases e with
      | nil =>
        refine ⟨fun _ => ⟨ev, eventLoop_end split fuel ev⟩, fun _ => ?_⟩
        left
        rw [parts]
        rfl
      | cons b e =>
        have nonempty : b :: e ≠ [] := List.cons_ne_nil b e
        have round := eventLoop_round split nonempty plain fuel ev
        have shorter : rest.length < fuel := by
          rw [parts, List.length_append, List.length_cons (a := 0)] at enough
          omega
        have next := ih (split_behind split) shorter (storeEntry keys pre.length (b :: e) ev)
        rw [parts, closed_entry nonempty plain]
        constructor
        · intro closed
          obtain ⟨after, gives⟩ := next.1 closed
          exact ⟨after, round.1 after gives⟩
        · intro inside
          exact next.2 (round.2 inside)
    · constructor
      · intro closed
        exact absurd closed (not_closed ended)
      · intro inside
        exact absurd inside (eventLoop_leaves split ended fuel ev)

theorem parseEvent_closed (buf : List Byte) (ev : LutherGliethttp) :
    (Closed buf → ∃ after, GivesInside buf (parseEvent buf ev) after) ∧
      (Inside buf (parseEvent buf ev) → Closed buf) := by
  have split : buf = [] ++ buf := rfl
  exact eventLoop_closed split (Nat.lt_succ_self buf.length) (setUp ev)

end Bounds

section Datagrams

/-- UEVENT_BUFFER_SIZE * 2 -/
def bufSize : Nat := 4096

def received (d : List Byte) : List Byte := d.take bufSize ++ List.replicate (bufSize - d.length) 0

theorem received_get {d : List Byte} (fits : d.length ≤ bufSize) (i : Nat) :
    (received d)[i]? = if i < d.length then d[i]? else if i < bufSize then some 0 else none := by
  rw [received, List.take_of_length_le fits]
  by_cases inside : i < d.length
  · rw [if_pos inside, List.getElem?_append_left inside]
  · rw [if_neg inside, List.getElem?_append_right (by omega), List.getElem?_replicate]
    by_cases below : i < bufSize
    · rw [if_pos below, if_pos (by omega)]
    · rw [if_neg below, if_neg (by omega)]

theorem received_length {d : List Byte} (fits : d.length ≤ bufSize) :
    (received d).length = bufSize := by
  rw [received, List.take_of_length_le fits, List.length_append, List.length_replicate]
  omega

/-- Two zeroes of the buffer stay behind the datagram, or it starts with a NUL, holds two in
    a row, or ends with one that the last zero of the buffer follows. -/
def Terminated (d : List Byte) : Prop :=
  d.length + 2 ≤ bufSize ∨ d[0]? = some 0 ∨ (∃ i : Nat, d[i]? = some 0 ∧ d[i + 1]? = some 0) ∨
    (d.length + 1 = bufSize ∧ d.getLast? = some 0)

theorem terminated_of_closed {d : List Byte} (fits : d.length ≤ bufSize) (closed : Closed (received d)) :
    Terminated d := by
  have size : bufSize = 4096 := rfl
  rcases closed with first | ⟨i, here, next⟩
  · rw [received_get fits] at first
    by_cases nonempty : 0 < d.length
    · rw [if_pos nonempty] at first
      exact .inr (.inl first)
    · left
      omega
  · rw [received_get fits] at here next
    by_cases both : i + 1 < d.length
    · rw [if_pos (by omega)] at here
      rw [if_pos both] at next
      exact .inr (.inr (.inl ⟨i, here, next⟩))
    · have below : i + 1 < bufSize := by
        by_contra outside
        rw [if_neg both, if_neg outside] at next
        cases next
      -- the first NUL is the last byte of the datagram, or both are behind it
      by_cases last : i < d.length
      · rw [if_pos last] at here
        by_cases room : d.length + 2 ≤ bufSize
        · exact .inl room
        · refine .inr (.inr (.inr ⟨by omega, ?_⟩))
          rw [List.getLast?_eq_getElem?, show d.length - 1 = i by omega]
          exact here
      · left
        omega

theorem closed_of_terminated {d : List Byte} (fits : d.length ≤ bufSize) (ends : Terminated d) :
    Closed (received d) := by
  have size : bufSize = 4096 := rfl
  rcases ends with room | first | ⟨i, here, next⟩ | ⟨length, last⟩
  · right
    refine ⟨d.length, ?_, ?_⟩
    · rw [received_get fits, if_neg (by omega), if_pos (by omega)]
    · rw [received_get fits, if_neg (by omega), if_pos (by omega)]
  · left
    rw [received_get fits, if_pos (List.getElem?_eq_some_iff.mp first).1]
    exact first
  · have below : i + 1 < d.length := (List.getElem?_eq_some_iff.mp next).1
    right
    refine ⟨i, ?_, ?_⟩
    · rw [received_get fits, if_pos (by omega)]
      exact here
    · rw [received_get fits, if_pos below]
      exact next
  · right
    refine ⟨d.length - 1, ?_, ?_⟩
    · rw [received_get fits, if_pos (by omega), ← List.getLast?_eq_getElem?]
      exact last
    · rw [received_get fits, if_neg (by omega), if_pos (by omega)]

theorem uevent_reads_inside_iff {d : List Byte} (fits : d.length ≤ bufSize) (ev : LutherGliethttp) :
    ((∀ i ∈ (parseEvent (received d) ev).events, i < bufSize) ↔ Terminated d) ∧
      (Terminated d → (parseEvent (received d) ev).value.isSome = true) := by
  have closed : Closed (received d) ↔ Terminated d :=
    ⟨terminated_of_closed fits, closed_of_terminated fits⟩
  have loop := parseEvent_closed (received d) ev
  have inside : (∀ i ∈ (parseEvent (received d) ev).events, i < bufSize) ↔
      Inside (received d) (parseEvent (received d) ev) := by
    unfold Inside Recorded.Holds
    rw [received_length fits]
  constructor
  · rw [inside, ← closed]
    constructor
    · exact loop.2
    · intro ends
      obtain ⟨after, gives⟩ := loop.1 ends
      exact gives.holds
  · intro ends
    obtain ⟨after, gives⟩ := loop.1 (closed.mpr ends)
    rw [gives.value]
    rfl

theorem remove_datagram_inside : (messageOf removeEntries).length ≤ bufSize ∧
    ∀ i ∈ (parseEvent (received (messageOf removeEntries)) cleared).events, i < bufSize := by
  have short : (messageOf removeEntries).length + 2 ≤ bufSize := by decide +kernel
  have fits : (messageOf removeEntries).length ≤ bufSize := by omega
  exact ⟨fits, (uevent_reads_inside_iff fits cleared).1.mpr (.inl short)⟩

def fullDatagram : List Byte := List.replicate bufSize 1

theorem full_datagram_leaves : fullDatagram.length ≤ bufSize ∧
    ¬∀ i ∈ (parseEvent (received fullDatagram) cleared).events, i < bufSize := by
  have length : fullDatagram.length = bufSize := List.length_replicate
  have unended : 0 ∉ received fullDatagram := by
    rw [received, List.take_of_length_le (Nat.le_of_eq length), length, Nat.sub_self,
      List.replicate_zero, List.append_nil]
    intro zero
    have one : (0 : Byte) = 1 := List.eq_of_mem_replicate zero
    exact absurd one (by decide)
  refine ⟨Nat.le_of_eq length, ?_⟩
  intro inside
  apply not_closed unended
  apply (parseEvent_closed (received fullDatagram) cleared).2
  intro i read
  rw [received_length (Nat.le_of_eq length)]
  exact inside i read

end Datagrams

end TestSource.Uevent
