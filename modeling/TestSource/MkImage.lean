import TestSource.Splice
import TestSource.UImage

/- mkimage.c of upgrade_mtk on a little-endian host: the image it writes, a header in front
   of the data files, and what -l lists of an image. Every file that is named can be opened,
   read and written, and none has 2 GiB; an empty one cannot be mapped. -/
namespace TestSource.Mkimage
open Splice

def IH_NMLEN : Nat := 28

/-- The options that go into the header, by the values of their tables. -/
structure Options where
  os : Byte
  arch : Byte
  type : Byte
  comp : Byte
  addr : BitVec 32
  ep : Option (BitVec 32)
  ksz : BitVec 32
  name : List Byte
  xip : Bool
deriving DecidableEq

inductive MkError where
  | xipEntryPoint
  | cannotRead
  | tooSmallForXip
  | invalidBufferForXip
deriving DecidableEq

/-- The messages, less the name of the program and of the file. -/
def MkError.text : MkError → String
  | .xipEntryPoint => "For XIP, the entry point must be the load addr + 64"
  | .cannotRead => "Can't read"
  | .tooSmallForXip => "Bad size: too small for XIP"
  | .invalidBufferForXip => "Bad file: has invalid buffer for XIP"

def Options.multi (o : Options) : Bool := o.type = IH_TYPE_MULTI || o.type = IH_TYPE_SCRIPT

/-- The entry point; the sum it is compared with is a size_t. -/
def entryPoint (z : WordSize) (o : Options) : Except MkError (BitVec 32) :=
  let ep := match o.ep with
    | some ep => ep
    | none => if o.xip then o.addr + 64 else o.addr
  if o.xip && ep.setWidth z.bits ≠ o.addr.setWidth z.bits + 64 then .error .xipEntryPoint
  else .ok ep

def padded (pad : Bool) (body : List Byte) : List Byte :=
  if pad && body.length % 4 ≠ 0 then body ++ List.replicate (4 - body.length % 4) 0 else body

def copyFile (xip pad : Bool) (data : List Byte) : Except MkError (List Byte) :=
  if data = [] then .error .cannotRead
  else if xip then
    if data.length < sizeofImageHeader then .error .tooSmallForXip
    else if !(data.take sizeofImageHeader).all (· == 0xff) then .error .invalidBufferForXip
    else .ok (padded pad (data.drop sizeofImageHeader))
  else .ok (padded pad data)

def copyFiles (xip : Bool) : List (List Byte) → Except MkError (List Byte)
  | [] => .error .cannotRead
  | [file] => copyFile xip false file
  | file :: rest => do
      let copy ← copyFile xip true file
      let copies ← copyFiles xip rest
      pure (copy ++ copies)

def htonl (w : BitVec 32) : List Byte :=
  [w.extractLsb' 24 8, w.extractLsb' 16 8, w.extractLsb' 8 8, w.extractLsb' 0 8]

/-- htonl of the size, as the unsigned long that is written. -/
def sizeEntry (z : WordSize) (file : List Byte) : List Byte :=
  htonl (BitVec.ofNat 32 file.length) ++ List.replicate (z.bits / 8 - 4) 0

/-- The sizes of the files, whatever -x leaves of them, and a zero. -/
def sizeTable (z : WordSize) (files : List (List Byte)) : List Byte :=
  files.flatMap (sizeEntry z) ++ List.replicate (z.bits / 8) 0

/-- What is written behind the header. A file that is neither multi-file nor script is made
    of one data file. -/
def imageData (z : WordSize) (o : Options) (files : List (List Byte)) : Except MkError (List Byte) :=
  if o.multi then do
    let copies ← copyFiles o.xip files
    pure (sizeTable z files ++ copies)
  else copyFile o.xip false (files.headD [])

def strncpy (name : List Byte) (n : Nat) : List Byte :=
  name.take n ++ List.replicate (n - name.length) 0

def headerBytes (o : Options) (ep mtime dcrc hcrc : BitVec 32) (size : Nat) : List Byte :=
  htonl IH_MAGIC ++ htonl hcrc ++ htonl mtime ++ htonl (BitVec.ofNat 32 size) ++ htonl o.addr ++
    htonl ep ++ htonl dcrc ++ [o.os, o.arch, o.type, o.comp] ++ strncpy o.name IH_NMLEN ++
    htonl o.ksz

/-- The image file that is written. mtime is that of the file. -/
def mkimage (z : WordSize) (o : Options) (mtime : BitVec 32) (files : List (List Byte)) :
    Except MkError (List Byte) := do
  let ep ← entryPoint z o
  let data ← imageData z o files
  let dcrc := (crc32 z 0 data).setWidth 32
  -- the header still holds the zero of the dummy header where its checksum will be
  let hcrc := (crc32 z 0 (headerBytes o ep mtime dcrc 0 data.length)).setWidth 32
  pure (headerBytes o ep mtime dcrc hcrc data.length ++ data)

inductive ListError where
  | badSize
  | badMagic
deriving DecidableEq

/-- What -l prints: the two warnings, the fields of the header and the images of the table
    with their sizes, and with their offsets where these are printed. -/
structure Listing where
  badHeader : Bool
  corrupted : Bool
  name : List Byte
  time : BitVec 32
  os : Byte
  arch : Byte
  type : Byte
  comp : Byte
  size : BitVec 32
  load : BitVec 32
  ep : BitVec 32
  ksz : BitVec 32
  contents : List (BitVec 32 × Option (BitVec 32))
deriving DecidableEq

/-- The second loop of print_header. The offsets of a script are printed, but for the first. -/
def listContents (z : WordSize) (script : Bool) (content : List Byte) : Nat → Nat → Nat → BitVec 32 →
    Option (List (BitVec 32 × Option (BitVec 32)))
  | 0, _, _, _ => none
  | fuel + 1, i, lenPtr, pos => do
      let entry ← readMapped content lenPtr (z.bits / 8)
      if entry.all (· == 0) then some []
      else
        let size := ntohlAt entry 0
        let rest ← listContents z script content fuel (i + 1) (lenPtr + z.bits / 8)
          (pos + ((size + 3) &&& ~~~ 3#32))
        some ((size, if script && 0 < i then some pos else none) :: rest)

/-- The table is walked once to count its entries: pos starts behind these, and not behind
    the zero. -/
def printContents (z : WordSize) (content : List Byte) :
    Option (List (BitVec 32 × Option (BitVec 32))) :=
  if byteAt content 30 = IH_TYPE_MULTI ∨ byteAt content 30 = IH_TYPE_SCRIPT then do
    let ptrs ← countImages z content (mappedPages content).length sizeofImageHeader
    listContents z (byteAt content 30 = IH_TYPE_SCRIPT) content (mappedPages content).length 0
      sizeofImageHeader (BitVec.ofNat 32 (sizeofImageHeader + ptrs * (z.bits / 8)))
  else some []

/-- No result where the walk over the table leaves the mapping. -/
def listImage (z : WordSize) (content : List Byte) : Option (Except ListError Listing) :=
  if content.length < sizeofImageHeader then some (.error .badSize)
  else if ntohlAt content 0 ≠ IH_MAGIC then some (.error .badMagic)
  else do
    let hdr := content.take sizeofImageHeader
    let contents ← printContents z content
    some (.ok
      { badHeader := crc32 z 0 (clearHcrc hdr) ≠ (ntohlAt hdr 4).setWidth z.bits
        corrupted := crc32 z 0 (content.drop sizeofImageHeader) ≠ (ntohlAt hdr 24).setWidth z.bits
        name := slice content 32 IH_NMLEN
        time := ntohlAt content 8
        os := byteAt content 28
        arch := byteAt content 29
        type := byteAt content 30
        comp := byteAt content 31
        size := ntohlAt content 12
        load := ntohlAt content 16
        ep := ntohlAt content 20
        ksz := ntohlAt content 60
        contents })

section Header
variable {o : Options} {ep mtime dcrc hcrc : BitVec 32} {size : Nat}

theorem ntohl_htonl (w : BitVec 32) (rest : List Byte) : ntohlAt (htonl w ++ rest) 0 = w := by
  have parts : ntohlAt (htonl w ++ rest) 0 = w.extractLsb' 24 8 ++ w.extractLsb' 16 8 ++
      w.extractLsb' 8 8 ++ w.extractLsb' 0 8 := rfl
  rw [parts]
  ext i inside
  have bit {j : Nat} (same : j = i) : w.getLsbD j = w[i] := by
    subst same
    exact BitVec.getLsbD_eq_getElem inside
  simp only [BitVec.getElem_append, BitVec.getElem_extractLsb']
  split
  · exact bit (by omega)
  · split
    · exact bit (by omega)
    · split
      · exact bit (by omega)
      · exact bit (by omega)

theorem byteAt_append (a l : List Byte) (i : Nat) : byteAt (a ++ l) (a.length + i) = byteAt l i := by
  simp [byteAt, List.getElem?_append_right]

theorem ntohlAt_append (a l : List Byte) (i : Nat) :
    ntohlAt (a ++ l) (a.length + i) = ntohlAt l i := by
  simp only [ntohlAt, Nat.add_assoc, byteAt_append]

theorem strncpy_length (name : List Byte) (n : Nat) : (strncpy name n).length = n := by
  simp only [strncpy, List.length_append, List.length_take, List.length_replicate]
  omega

theorem headerBytes_length : (headerBytes o ep mtime dcrc hcrc size).length = 64 := by
  simp [headerBytes, htonl, strncpy_length, IH_NMLEN]

theorem clearHcrc_header :
    clearHcrc (headerBytes o ep mtime dcrc hcrc size) = headerBytes o ep mtime dcrc 0 size := rfl

theorem word_behind (front : List Byte) (w : BitVec 32) (rest : List Byte) :
    ntohlAt (front ++ (htonl w ++ rest)) front.length = w := by
  have read := ntohlAt_append front (htonl w ++ rest) 0
  rw [Nat.add_zero, ntohl_htonl] at read
  exact read

structure Fields (o : Options) (ep mtime dcrc hcrc : BitVec 32) (size : Nat) (image : List Byte) : Prop where
  magic : ntohlAt image 0 = IH_MAGIC
  hcrc : ntohlAt image 4 = hcrc
  time : ntohlAt image 8 = mtime
  size : ntohlAt image 12 = BitVec.ofNat 32 size
  load : ntohlAt image 16 = o.addr
  ep : ntohlAt image 20 = ep
  dcrc : ntohlAt image 24 = dcrc
  os : byteAt image 28 = o.os
  arch : byteAt image 29 = o.arch
  type : byteAt image 30 = o.type
  comp : byteAt image 31 = o.comp
  name : slice image 32 IH_NMLEN = strncpy o.name IH_NMLEN
  ksz : ntohlAt image 60 = o.ksz

theorem header_fields (data : List Byte) :
    Fields o ep mtime dcrc hcrc size (headerBytes o ep mtime dcrc hcrc size ++ data) := by
  have name := strncpy_length o.name IH_NMLEN
  have whole : headerBytes o ep mtime dcrc hcrc size ++ data =
      htonl IH_MAGIC ++ (htonl hcrc ++ (htonl mtime ++ (htonl (BitVec.ofNat 32 size) ++ (htonl o.addr ++
        (htonl ep ++ (htonl dcrc ++ ([o.os, o.arch, o.type, o.comp] ++
          (strncpy o.name IH_NMLEN ++ (htonl o.ksz ++ data))))))))) := by
    simp only [headerBytes, List.append_assoc]
  rw [whole]
  constructor
  · exact word_behind [] IH_MAGIC _
  · exact word_behind (htonl IH_MAGIC) hcrc _
  · exact word_behind (htonl IH_MAGIC ++ htonl hcrc) mtime _
  · exact word_behind (htonl IH_MAGIC ++ htonl hcrc ++ htonl mtime) (BitVec.ofNat 32 size) _
  · exact word_behind (htonl IH_MAGIC ++ htonl hcrc ++ htonl mtime ++ htonl (BitVec.ofNat 32 size)) o.addr _
  · exact word_behind (htonl IH_MAGIC ++ htonl hcrc ++ htonl mtime ++ htonl (BitVec.ofNat 32 size) ++
      htonl o.addr) ep _
  · exact word_behind (htonl IH_MAGIC ++ htonl hcrc ++ htonl mtime ++ htonl (BitVec.ofNat 32 size) ++
      htonl o.addr ++ htonl ep) dcrc _
  · rfl
  · rfl
  · rfl
  · rfl
  · have read := slice_behind (htonl IH_MAGIC ++ htonl hcrc ++ htonl mtime ++ htonl (BitVec.ofNat 32 size) ++
      htonl o.addr ++ htonl ep ++ htonl dcrc ++ [o.os, o.arch, o.type, o.comp])
      (strncpy o.name IH_NMLEN ++ (htonl o.ksz ++ data)) 0 (strncpy o.name IH_NMLEN).length
    rw [slice_start, name] at read
    exact read
  · have read := word_behind (htonl IH_MAGIC ++ htonl hcrc ++ htonl mtime ++ htonl (BitVec.ofNat 32 size) ++
      htonl o.addr ++ htonl ep ++ htonl dcrc ++ [o.os, o.arch, o.type, o.comp] ++ strncpy o.name IH_NMLEN)
      o.ksz data
    rw [List.length_append, name, List.append_assoc] at read
    exact read

end Header

section Table
variable (z : WordSize)

def Sized (file : List Byte) : Prop := 0 < file.length ∧ file.length < 4294967296

theorem entry_bytes : 4 ≤ z.bits / 8 := by
  cases z <;> decide

theorem sizeEntry_length (file : List Byte) : (sizeEntry z file).length = z.bits / 8 := by
  have wide := entry_bytes z
  simp only [sizeEntry, htonl, List.length_append, List.length_cons, List.length_nil, List.length_replicate]
  omega

theorem sizeTable_length (files : List (List Byte)) :
    (sizeTable z files).length = (files.length + 1) * (z.bits / 8) := by
  induction files with
  | nil => simp [sizeTable]
  | cons file files ih =>
    simp only [sizeTable, List.flatMap_cons, List.append_assoc, List.length_append, List.length_cons,
      sizeEntry_length] at ih ⊢
    rw [ih, Nat.add_mul (files.length + 1) 1]
    omega

theorem sizeEntry_word (file : List Byte) :
    ntohlAt (sizeEntry z file) 0 = BitVec.ofNat 32 file.length := ntohl_htonl _ _

theorem sizeEntry_nonzero {file : List Byte} (sized : Sized file) :
    (sizeEntry z file).all (· == 0) = false := by
  by_contra zero
  rw [Bool.not_eq_false, List.all_eq_true] at zero
  have blank (i : Nat) : byteAt (sizeEntry z file) i = 0 := by
    rw [byteAt, List.getD_eq_getElem?_getD]
    cases found : (sizeEntry z file)[i]? with
    | none => rfl
    | some b => simpa using zero b (List.mem_of_getElem? found)
  have word := sizeEntry_word z file
  have size := congrArg BitVec.toNat word
  simp only [ntohlAt, blank, BitVec.toNat_ofNat] at size
  rw [Nat.mod_eq_of_lt sized.2] at size
  have positive := sized.1
  have none : ((0 : Byte) ++ (0 : Byte) ++ (0 : Byte) ++ (0 : Byte)).toNat = 0 := by decide
  omega

theorem entry_read (front entry rest : List Byte) :
    readMapped (front ++ (entry ++ rest)) front.length entry.length = some entry := by
  have read := slice_behind front (entry ++ rest) 0 entry.length
  rw [slice_start, Nat.add_zero] at read
  rw [readMapped_inside (by simp)]
  exact congrArg some read

theorem sizeTable_cons (file : List Byte) (files : List (List Byte)) (rest : List Byte) :
    sizeTable z (file :: files) ++ rest = sizeEntry z file ++ (sizeTable z files ++ rest) := by
  simp only [sizeTable, List.flatMap_cons, List.append_assoc]

theorem table_entry_read (front rest : List Byte) :
    readMapped (front ++ (sizeTable z [] ++ rest)) front.length (z.bits / 8) =
      some (List.replicate (z.bits / 8) 0) := by
  have read := entry_read front (List.replicate (z.bits / 8) 0) rest
  rw [List.length_replicate] at read
  exact read

theorem zeroes_all (n : Nat) : (List.replicate n (0 : Byte)).all (· == 0) = true := by
  simp

theorem countImages_table {files : List (List Byte)} (sized : ∀ f ∈ files, Sized f)
    (front rest : List Byte) {fuel : Nat} (enough : files.length < fuel) :
    countImages z (front ++ (sizeTable z files ++ rest)) fuel front.length = some files.length := by
  induction files generalizing front fuel with
  | nil =>
    obtain ⟨fuel, rfl⟩ : ∃ n, fuel = n + 1 := ⟨fuel - 1, by omega⟩
    rw [countImages, table_entry_read, Option.bind_eq_bind, Option.bind_some, zeroes_all]
    rfl
  | cons file files ih =>
    obtain ⟨fuel, rfl⟩ : ∃ n, fuel = n + 1 := ⟨fuel - 1, by omega⟩
    have read := entry_read front (sizeEntry z file) (sizeTable z files ++ rest)
    have later := ih (fun f mem => sized f (by simp [mem])) (front ++ sizeEntry z file)
      (show files.length < fuel by simpa using enough)
    rw [List.append_assoc, List.length_append, sizeEntry_length] at later
    rw [sizeEntry_length] at read
    rw [sizeTable_cons, countImages, read, Option.bind_eq_bind, Option.bind_some,
      sizeEntry_nonzero z (sized file (by simp)), later]
    rfl

def listed (script : Bool) : Nat → BitVec 32 → List (List Byte) → List (BitVec 32 × Option (BitVec 32))
  | _, _, [] => []
  | i, pos, file :: files =>
      (BitVec.ofNat 32 file.length, if script && 0 < i then some pos else none) ::
        listed script (i + 1) (pos + ((BitVec.ofNat 32 file.length + 3) &&& ~~~ 3#32)) files

theorem listContents_table {files : List (List Byte)} (sized : ∀ f ∈ files, Sized f) (script : Bool)
    (front rest : List Byte) (i : Nat) (pos : BitVec 32) {fuel : Nat} (enough : files.length < fuel) :
    listContents z script (front ++ (sizeTable z files ++ rest)) fuel i front.length pos =
      some (listed script i pos files) := by
  induction files generalizing front fuel i pos with
  | nil =>
    obtain ⟨fuel, rfl⟩ : ∃ n, fuel = n + 1 := ⟨fuel - 1, by omega⟩
    rw [listContents, table_entry_read, Option.bind_eq_bind, Option.bind_some, zeroes_all]
    rfl
  | cons file files ih =>
    obtain ⟨fuel, rfl⟩ : ∃ n, fuel = n + 1 := ⟨fuel - 1, by omega⟩
    have read := entry_read front (sizeEntry z file) (sizeTable z files ++ rest)
    have later := ih (fun f mem => sized f (by simp [mem])) (front ++ sizeEntry z file) (i + 1)
      (pos + ((BitVec.ofNat 32 file.length + 3) &&& ~~~ 3#32)) (show files.length < fuel by simpa using enough)
    rw [List.append_assoc, List.length_append, sizeEntry_length] at later
    rw [sizeEntry_length] at read
    rw [sizeTable_cons, listContents, read, Option.bind_eq_bind, Option.bind_some,
      sizeEntry_nonzero z (sized file (by simp)), sizeEntry_word]
    simp only [Bool.false_eq_true, if_false, later, Option.bind_eq_bind, Option.bind_some, listed]

end Table

section Copies

def skipped (xip : Bool) : Nat := if xip then sizeofImageHeader else 0

/-- The room a file takes where another one follows it. -/
def room (size : Nat) : Nat := (size + 3) / 4 * 4

def startOf (skip : Nat) : List (List Byte) → Nat → Nat
  | file :: files, i + 1 => room (file.length - skip) + startOf skip files i
  | _, _ => 0

theorem padded_append (pad : Bool) (body : List Byte) : ∃ tail, padded pad body = body ++ tail := by
  unfold padded
  split
  · exact ⟨_, rfl⟩
  · exact ⟨[], (List.append_nil body).symm⟩

theorem padded_length (body : List Byte) : (padded true body).length = room body.length := by
  unfold padded room
  split
  · rename_i odd
    simp only [Bool.true_and, decide_eq_true_eq] at odd
    rw [List.length_append, List.length_replicate]
    omega
  · rename_i even
    simp only [Bool.true_and, decide_eq_true_eq, not_not] at even
    omega

theorem copyFile_ok {xip pad : Bool} {file copy : List Byte} (copied : copyFile xip pad file = .ok copy) :
    file ≠ [] ∧ skipped xip ≤ file.length ∧ copy = padded pad (file.drop (skipped xip)) := by
  unfold copyFile at copied
  by_cases empty : file = []
  · rw [if_pos empty] at copied
    cases copied
  · rw [if_neg empty] at copied
    cases xip with
    | false =>
      simp only [Bool.false_eq_true, if_false, Except.ok.injEq] at copied
      exact ⟨empty, Nat.zero_le _, copied.symm⟩
    | true =>
      simp only [if_true] at copied
      split at copied
      · cases copied
      · rename_i long
        split at copied
        · cases copied
        · simp only [Except.ok.injEq] at copied
          exact ⟨empty, Nat.le_of_not_lt long, copied.symm⟩

structure Copied (xip : Bool) (files : List (List Byte)) (copies : List Byte) : Prop where
  each : ∀ file ∈ files, file ≠ [] ∧ skipped xip ≤ file.length
  place : ∀ i file, files[i]? = some file → ∃ before rest,
    copies = before ++ (file.drop (skipped xip) ++ rest) ∧
      before.length = startOf (skipped xip) files i

theorem copyFiles_ok {xip : Bool} {files : List (List Byte)} {copies : List Byte}
    (copied : copyFiles xip files = .ok copies) : Copied xip files copies := by
  fun_induction copyFiles xip files generalizing copies with
  | case1 => cases copied
  | case2 file =>
    obtain ⟨something, long, rfl⟩ := copyFile_ok copied
    refine ⟨?_, ?_⟩
    · intro f mem
      rw [List.mem_singleton] at mem
      exact mem ▸ ⟨something, long⟩
    · intro i f found
      cases i with
      | zero =>
        cases found
        obtain ⟨tail, split⟩ := padded_append false (file.drop (skipped xip))
        exact ⟨[], tail, split, rfl⟩
      | succ i => simp at found
  | case3 file rest more ih =>
    cases first : copyFile xip true file with
    | error e => rw [first] at copied; cases copied
    | ok copy =>
      cases others : copyFiles xip rest with
      | error e => rw [first, others] at copied; cases copied
      | ok behind =>
        rw [first, others] at copied
        cases copied
        obtain ⟨something, long, rfl⟩ := copyFile_ok first
        have later := ih others
        have size := padded_length (file.drop (skipped xip))
        rw [List.length_drop] at size
        refine ⟨?_, ?_⟩
        · intro f mem
          rw [List.mem_cons] at mem
          cases mem with
          | inl same => exact same ▸ ⟨something, long⟩
          | inr mem => exact later.each f mem
        · intro i f found
          cases i with
          | zero =>
            cases found
            obtain ⟨tail, split⟩ := padded_append true (file.drop (skipped xip))
            exact ⟨[], tail ++ behind, by rw [split, List.append_assoc]; rfl, rfl⟩
          | succ i =>
            obtain ⟨before, tail, split, front⟩ := later.place i f found
            refine ⟨padded true (file.drop (skipped xip)) ++ before, tail, ?_, ?_⟩
            · rw [split, List.append_assoc]
            · rw [List.length_append, size, front, startOf]

theorem round_room (size : Nat) :
    (BitVec.ofNat 32 size + 3) &&& ~~~ 3#32 = BitVec.ofNat 32 (room size) := by
  have cleared (v : BitVec 32) : v &&& ~~~ 3#32 = v >>> 2 <<< 2 := by
    ext i inside
    have mask : (3#32).getLsbD i = decide (i < 2) := by
      have three : Nat.testBit 3 i = decide (i < 2) := Nat.testBit_two_pow_sub_one 2 i
      rw [BitVec.getLsbD_ofNat, three, decide_eq_true inside, Bool.true_and]
    have kept : (~~~ 3#32)[i] = !decide (i < 2) := by
      rw [BitVec.getElem_not, ← BitVec.getLsbD_eq_getElem inside, mask]
    rw [BitVec.getElem_and, kept, BitVec.getElem_shiftLeft, BitVec.getElem_ushiftRight]
    by_cases low : i < 2
    · simp [low]
    · simp [low, show 2 + (i - 2) = i by omega, BitVec.getLsbD_eq_getElem inside]
  have three : (3 : BitVec 32).toNat = 3 := rfl
  apply BitVec.eq_of_toNat_eq
  rw [cleared]
  simp only [BitVec.toNat_shiftLeft, BitVec.toNat_ushiftRight, BitVec.toNat_add, BitVec.toNat_ofNat,
    Nat.shiftLeft_eq, Nat.shiftRight_eq_div_pow, room, three]
  omega

theorem startOf_zero (skip : Nat) (files : List (List Byte)) : startOf skip files 0 = 0 := by
  cases files with
  | nil => rfl
  | cons file files => rfl

theorem listed_get (script : Bool) (files : List (List Byte)) (n : Nat) (pos : BitVec 32) (i : Nat) :
    (listed script n pos files)[i]? = files[i]?.map fun file =>
      (BitVec.ofNat 32 file.length,
        if script && 0 < n + i then some (pos + BitVec.ofNat 32 (startOf 0 files i)) else none) := by
  induction files generalizing n pos i with
  | nil => simp [listed]
  | cons file files ih =>
    cases i with
    | zero => simp [listed, startOf_zero]
    | succ i =>
      have later := ih (n + 1) (pos + ((BitVec.ofNat 32 file.length + 3) &&& ~~~ 3#32)) i
      rw [round_room] at later
      rw [listed, round_room, List.getElem?_cons_succ, List.getElem?_cons_succ, later, startOf,
        BitVec.ofNat_add, BitVec.add_assoc, Nat.sub_zero, Nat.add_assoc, Nat.add_comm 1 i]

theorem listed_length (script : Bool) (files : List (List Byte)) (n : Nat) (pos : BitVec 32) :
    (listed script n pos files).length = files.length := by
  induction files generalizing n pos with
  | nil => rfl
  | cons file files ih => rw [listed, List.length_cons, List.length_cons, ih]

/-- Each of the headers that -x leaves out is counted in the offsets of the files behind it. -/
theorem startOf_skipped {xip : Bool} {files : List (List Byte)}
    (long : ∀ file ∈ files, skipped xip ≤ file.length) {i : Nat} (inside : i ≤ files.length) :
    startOf 0 files i = startOf (skipped xip) files i + i * skipped xip := by
  induction files generalizing i with
  | nil =>
    have first : i = 0 := by simpa using inside
    rw [first, startOf_zero, startOf_zero, Nat.zero_mul]
  | cons file files ih =>
    cases i with
    | zero => rw [startOf_zero, startOf_zero, Nat.zero_mul]
    | succ i =>
      have rest := ih (fun f mem => long f (by simp [mem])) (show i ≤ files.length by simpa using inside)
      have enough := long file (by simp)
      have whole : room file.length = room (file.length - skipped xip) + skipped xip := by
        cases xip with
        | false => rfl
        | true =>
          simp only [room, skipped, sizeofImageHeader, if_true] at enough ⊢
          omega
      rw [startOf, startOf, rest, Nat.sub_zero, whole, Nat.add_mul, Nat.one_mul]
      omega

end Copies

section Made
variable {z : WordSize} {o : Options} {mtime : BitVec 32} {files : List (List Byte)}
  {image data : List Byte}

theorem crc32_narrow (m : List Byte) : (crc32 z 0 m).setWidth 32 = standardCrc m := by
  rw [crc32_standard, BitVec.setWidth_setWidth_of_le _ z.wide, BitVec.setWidth_eq]

def madeHeader (o : Options) (ep mtime : BitVec 32) (data : List Byte) : List Byte :=
  headerBytes o ep mtime (standardCrc data)
    (standardCrc (headerBytes o ep mtime (standardCrc data) 0 data.length)) data.length

theorem madeHeader_length {ep : BitVec 32} : (madeHeader o ep mtime data).length = 64 :=
  headerBytes_length

theorem made_fields (ep mtime : BitVec 32) (data : List Byte) :
    Fields o ep mtime (standardCrc data)
      (standardCrc (headerBytes o ep mtime (standardCrc data) 0 data.length)) data.length
      (madeHeader o ep mtime data ++ data) := header_fields data

theorem mkimage_parts (made : mkimage z o mtime files = .ok image) :
    ∃ ep data, entryPoint z o = .ok ep ∧ imageData z o files = .ok data ∧
      image = madeHeader o ep mtime data ++ data := by
  unfold mkimage at made
  cases point : entryPoint z o with
  | error e =>
    rw [point] at made
    cases made
  | ok ep =>
    cases behind : imageData z o files with
    | error e =>
      rw [point, behind] at made
      cases made
    | ok data =>
      rw [point, behind] at made
      have whole := Except.ok.inj made
      simp only [crc32_narrow] at whole
      exact ⟨ep, data, rfl, rfl, whole.symm⟩

theorem imageData_multi (multi : o.multi = true) (behind : imageData z o files = .ok data) :
    ∃ copies, Copied o.xip files copies ∧ data = sizeTable z files ++ copies := by
  rw [imageData, if_pos multi] at behind
  cases copied : copyFiles o.xip files with
  | error e =>
    rw [copied] at behind
    cases behind
  | ok copies =>
    rw [copied] at behind
    exact ⟨copies, copyFiles_ok copied, (Except.ok.inj behind).symm⟩

theorem Copied.inside {xip : Bool} {copies file : List Byte} (copied : Copied xip files copies) {i : Nat}
    (found : files[i]? = some file) :
    startOf (skipped xip) files i + (file.length - skipped xip) ≤ copies.length := by
  obtain ⟨before, rest, split, front⟩ := copied.place i file found
  rw [split, ← front]
  simp only [List.length_append, List.length_drop]
  omega

theorem Copied.sized {xip : Bool} {copies : List Byte} (copied : Copied xip files copies)
    (short : copies.length < 2147483648) : ∀ file ∈ files, Sized file := by
  intro file mem
  obtain ⟨something, long⟩ := copied.each file mem
  obtain ⟨i, inside, same⟩ := List.getElem_of_mem mem
  have found : files[i]? = some file := by
    rw [List.getElem?_eq_getElem inside, same]
  have fits := copied.inside found
  have skip : skipped xip ≤ 64 := by
    cases xip <;> decide
  exact ⟨List.length_pos_iff.mpr something, by omega⟩

theorem printContents_made (ep mtime : BitVec 32) (short : data.length < 2147483648)
    (behind : imageData z o files = .ok data) :
    printContents z (madeHeader o ep mtime data ++ data) =
      some (if o.multi then
        listed (o.type = IH_TYPE_SCRIPT) 0 (BitVec.ofNat 32 (64 + files.length * (z.bits / 8))) files
      else []) := by
  have kind : byteAt (madeHeader o ep mtime data ++ data) 30 = o.type := (made_fields ep mtime data).type
  unfold printContents
  rw [kind]
  by_cases multi : o.multi = true
  · have table : o.type = IH_TYPE_MULTI ∨ o.type = IH_TYPE_SCRIPT := by
      simpa [Options.multi] using multi
    obtain ⟨copies, copied, rfl⟩ := imageData_multi multi behind
    rw [List.length_append] at short
    have sized := copied.sized (by omega)
    have pages := length_le_mappedPages (madeHeader o ep mtime (sizeTable z files ++ copies) ++
      (sizeTable z files ++ copies))
    have enough : files.length <
        (mappedPages (madeHeader o ep mtime (sizeTable z files ++ copies) ++
          (sizeTable z files ++ copies))).length := by
      have entries := Nat.mul_le_mul_left (files.length + 1) (entry_bytes z)
      rw [List.length_append, List.length_append, sizeTable_length] at pages
      omega
    have count := countImages_table z sized (madeHeader o ep mtime (sizeTable z files ++ copies)) copies enough
    have list := listContents_table z sized (o.type = IH_TYPE_SCRIPT)
      (madeHeader o ep mtime (sizeTable z files ++ copies)) copies 0
      (BitVec.ofNat 32 (64 + files.length * (z.bits / 8))) enough
    rw [madeHeader_length] at count list
    rw [if_pos table, if_pos multi, show sizeofImageHeader = 64 from rfl, count, Option.bind_eq_bind,
      Option.bind_some, list]
  · have plain : ¬(o.type = IH_TYPE_MULTI ∨ o.type = IH_TYPE_SCRIPT) := by
      simpa [Options.multi] using multi
    rw [if_neg plain, if_neg multi]

theorem listImage_made {ep : BitVec 32} {contents : List (BitVec 32 × Option (BitVec 32))}
    (printed : printContents z (madeHeader o ep mtime data ++ data) = some contents) :
    listImage z (madeHeader o ep mtime data ++ data) = some (.ok
      { badHeader := false
        corrupted := false
        name := strncpy o.name IH_NMLEN
        time := mtime
        os := o.os
        arch := o.arch
        type := o.type
        comp := o.comp
        size := BitVec.ofNat 32 data.length
        load := o.addr
        ep
        ksz := o.ksz
        contents }) := by
  have fields : Fields o ep mtime _ _ _ _ := made_fields ep mtime data
  have long : ¬(madeHeader o ep mtime data ++ data).length < sizeofImageHeader := by
    rw [List.length_append, madeHeader_length, show sizeofImageHeader = 64 from rfl]
    omega
  have header : (madeHeader o ep mtime data ++ data).take sizeofImageHeader = madeHeader o ep mtime data :=
    List.take_left' madeHeader_length
  have rest : (madeHeader o ep mtime data ++ data).drop sizeofImageHeader = data :=
    List.drop_left' madeHeader_length
  have hcrc := ntohlAt_take (madeHeader o ep mtime data ++ data) (show 4 + 3 < 64 by decide)
  have dcrc := ntohlAt_take (madeHeader o ep mtime data ++ data) (show 24 + 3 < 64 by decide)
  rw [fields.hcrc, header] at hcrc
  rw [fields.dcrc, header] at dcrc
  have clear : clearHcrc (madeHeader o ep mtime data) =
      headerBytes o ep mtime (standardCrc data) 0 data.length := clearHcrc_header
  rw [listImage, if_neg long, if_neg (not_not.mpr fields.magic), printed, Option.bind_eq_bind,
    Option.bind_some]
  simp only [hcrc, dcrc, header, rest, clear, crc32_standard, fields.name, fields.time, fields.os,
    fields.arch, fields.type, fields.comp, fields.size, fields.load, fields.ep, fields.ksz, ne_eq,
    not_true_eq_false, decide_false]

/-- An image is listed with what was asked for and with the sizes of its files, without a
    warning. -/
theorem made_image_listed (z : WordSize) (o : Options) (mtime : BitVec 32) (files : List (List Byte))
    (image : List Byte) (made : mkimage z o mtime files = .ok image)
    (short : image.length < 2147483648) :
    ∃ ep contents, entryPoint z o = .ok ep ∧
      contents.map (fun entry => entry.1.toNat) = (if o.multi then files.map List.length else []) ∧
      listImage z image = some (.ok
        { badHeader := false
          corrupted := false
          name := strncpy o.name IH_NMLEN
          time := mtime
          os := o.os
          arch := o.arch
          type := o.type
          comp := o.comp
          size := BitVec.ofNat 32 (image.length - 64)
          load := o.addr
          ep
          ksz := o.ksz
          contents }) := by
  obtain ⟨ep, data, point, behind, rfl⟩ := mkimage_parts made
  rw [List.length_append, madeHeader_length] at short
  have printed := printContents_made ep mtime (by omega) behind
  have size : (madeHeader o ep mtime data ++ data).length - 64 = data.length := by
    rw [List.length_append, madeHeader_length]
    omega
  rw [size]
  refine ⟨ep, _, point, ?_, listImage_made printed⟩
  by_cases multi : o.multi = true
  · obtain ⟨copies, copied, rfl⟩ := imageData_multi multi behind
    rw [List.length_append] at short
    have sized := copied.sized (by omega)
    rw [if_pos multi, if_pos multi]
    apply List.ext_getElem?
    intro i
    rw [List.getElem?_map, listed_get, List.getElem?_map, Option.map_map]
    cases found : files[i]? with
    | none => rfl
    | some file =>
      have below := (sized file (List.mem_of_getElem? found)).2
      simp only [Option.map_some, Function.comp_apply, BitVec.toNat_ofNat]
      rw [Nat.mod_eq_of_lt below]
  · rw [if_neg multi, if_neg multi]
    rfl

def scripts : Options where
  os := 5
  arch := 5
  type := IH_TYPE_SCRIPT
  comp := 0
  addr := 0x80000000
  ep := none
  ksz := 0
  name := []
  xip := false

theorem scripts_made : ∃ image, mkimage .bits32 scripts 0 [[0x23], [0x23, 0x0a]] = .ok image ∧
    image.length = 82 := ⟨_, rfl, by decide +kernel⟩

theorem scripts_listed : ∃ image contents,
    mkimage .bits32 scripts 0 [[0x23], [0x23, 0x0a]] = .ok image ∧
      contents.map (fun entry => entry.1.toNat) = [1, 2] ∧
      listImage .bits32 image = some (.ok
        { badHeader := false
          corrupted := false
          name := List.replicate 28 0
          time := 0
          os := 5
          arch := 5
          type := IH_TYPE_SCRIPT
          comp := 0
          size := 18
          load := 0x80000000
          ep := 0x80000000
          ksz := 0
          contents }) := by
  obtain ⟨image, made, size⟩ := scripts_made
  obtain ⟨ep, contents, point, sizes, shown⟩ :=
    made_image_listed .bits32 scripts 0 [[0x23], [0x23, 0x0a]] image made (by omega)
  rw [size] at shown
  cases point
  exact ⟨image, contents, made, sizes, shown⟩

/-- The offset that print_header counts for the i-th file: it starts behind the entries of the
    table, and not behind its zero. -/
def countedOffset (z : WordSize) (files : List (List Byte)) (i : Nat) : Nat :=
  64 + files.length * (z.bits / 8) + startOf 0 files i

/-- Where the files of a table really are: one entry of the table behind the offset that is
    counted, less what -x has left out before. -/
theorem listed_files_found (z : WordSize) (o : Options) (mtime : BitVec 32) (files : List (List Byte))
    (image : List Byte) (made : mkimage z o mtime files = .ok image)
    (short : image.length < 2147483648) (multi : o.multi = true) :
    ∃ listing, listImage z image = some (.ok listing) ∧ listing.contents.length = files.length ∧
      ∀ i file, files[i]? = some file →
        listing.contents[i]? = some (BitVec.ofNat 32 file.length,
          if o.type = IH_TYPE_SCRIPT ∧ 0 < i then some (BitVec.ofNat 32 (countedOffset z files i)) else none) ∧
        slice image (countedOffset z files i + z.bits / 8 - i * skipped o.xip) (file.length - skipped o.xip) =
          file.drop (skipped o.xip) := by
  obtain ⟨ep, data, point, behind, rfl⟩ := mkimage_parts made
  rw [List.length_append, madeHeader_length] at short
  have printed := printContents_made ep mtime (by omega) behind
  rw [if_pos multi] at printed
  obtain ⟨copies, copied, rfl⟩ := imageData_multi multi behind
  refine ⟨_, listImage_made printed, ?_, ?_⟩
  · apply listed_length
  intro i file found
  constructor
  · rw [listed_get, found, ← BitVec.ofNat_add]
    simp [countedOffset]
  have inside := (List.getElem?_eq_some_iff.mp found).1
  have start := startOf_skipped (fun f mem => (copied.each f mem).2) (Nat.le_of_lt inside)
  have place : countedOffset z files i + z.bits / 8 - i * skipped o.xip =
      64 + ((sizeTable z files).length + startOf (skipped o.xip) files i) := by
    rw [countedOffset, start, sizeTable_length, Nat.add_mul, Nat.one_mul]
    omega
  obtain ⟨before, rest, split, front⟩ := copied.place i file found
  have read := slice_behind before (file.drop (skipped o.xip) ++ rest) 0 (file.drop (skipped o.xip)).length
  rw [slice_start, List.length_drop, Nat.add_zero, front] at read
  rw [place, ← madeHeader_length, slice_behind, slice_behind, split, read]

theorem second_script_found : ∃ image listing,
    mkimage .bits32 scripts 0 [[0x23], [0x23, 0x0a]] = .ok image ∧
      listImage .bits32 image = some (.ok listing) ∧
      listing.contents[1]? = some (2, some 76) ∧ slice image 80 2 = [0x23, 0x0a] := by
  obtain ⟨image, made, size⟩ := scripts_made
  obtain ⟨listing, shown, _, each⟩ :=
    listed_files_found .bits32 scripts 0 [[0x23], [0x23, 0x0a]] image made (by omega) rfl
  obtain ⟨entry, found⟩ := each 1 [0x23, 0x0a] rfl
  exact ⟨image, listing, made, shown, entry, found⟩

section Upgraded
variable {imgHeader : List Byte} (front : imgHeader.length = 64)
include front

theorem word_upgraded (image : List Byte) (i : Nat) :
    ntohlAt (imgHeader ++ image) (64 + i) = ntohlAt image i := by
  rw [← front, ntohlAt_append]

theorem kind_upgraded (ep mtime : BitVec 32) (data : List Byte) :
    byteAt (imgHeader ++ (madeHeader o ep mtime data ++ data)) 94 = o.type := by
  have fields : Fields o ep mtime _ _ _ _ := made_fields ep mtime data
  have read := byteAt_append imgHeader (madeHeader o ep mtime data ++ data) 30
  rw [front] at read
  exact read.trans fields.type

theorem valid_upgraded (ep mtime : BitVec 32) (data : List Byte) :
    ValidImage (imgHeader ++ (madeHeader o ep mtime data ++ data)) := by
  have fields : Fields o ep mtime _ _ _ _ := made_fields ep mtime data
  have header : imageHeader (imgHeader ++ (madeHeader o ep mtime data ++ data)) = madeHeader o ep mtime data := by
    rw [imageHeader, show sizeofImgHeader = 64 from rfl, List.drop_left' front]
    exact List.take_left' madeHeader_length
  have rest : (imgHeader ++ (madeHeader o ep mtime data ++ data)).drop 128 = data := by
    rw [← List.append_assoc]
    exact List.drop_left' (by rw [List.length_append, front, madeHeader_length])
  constructor
  · exact (word_upgraded front _ 0).trans fields.magic
  · rw [header, word_upgraded front _ 4, fields.hcrc]
    exact congrArg standardCrc clearHcrc_header
  · rw [rest, word_upgraded front _ 24, fields.dcrc]

/-- The table ends inside the image also for an unsigned long narrower than the one it was written
    with, which meets its zero in halves. -/
theorem table_upgraded {z' : WordSize} (narrow : z'.bits ≤ z.bits) (ep mtime : BitVec 32)
    (behind : imageData z o files = .ok data) (multi : o.multi = true) :
    ∃ i, ZeroEntry z' (imgHeader ++ (madeHeader o ep mtime data ++ data)) (128 + i * (z'.bits / 8)) := by
  obtain ⟨copies, copied, whole⟩ := imageData_multi multi behind
  have table := sizeTable_length z files
  rw [sizeTable, List.length_append, List.length_replicate, Nat.add_mul, Nat.one_mul] at table
  have place : (imgHeader ++ madeHeader o ep mtime data ++ files.flatMap (sizeEntry z)).length =
      128 + files.length * (z.bits / 8) := by
    rw [List.length_append, List.length_append, front, madeHeader_length]
    omega
  obtain ⟨halves, each⟩ : ∃ k, z.bits / 8 = k * (z'.bits / 8) := by
    refine ⟨z.bits / z'.bits, ?_⟩
    cases z <;> cases z' <;> first | decide | exact absurd narrow (by decide)
  have zeroes : List.replicate (z.bits / 8) (0 : Byte) =
      List.replicate (z'.bits / 8) 0 ++ List.replicate (z.bits / 8 - z'.bits / 8) 0 := by
    rw [List.replicate_append_replicate]
    congr 1
    omega
  have content : imgHeader ++ (madeHeader o ep mtime data ++ data) =
      (imgHeader ++ madeHeader o ep mtime data ++ files.flatMap (sizeEntry z)) ++
        (List.replicate (z'.bits / 8) 0 ++ (List.replicate (z.bits / 8 - z'.bits / 8) 0 ++ copies)) := by
    have table : data = files.flatMap (sizeEntry z) ++
        (List.replicate (z'.bits / 8) 0 ++ (List.replicate (z.bits / 8 - z'.bits / 8) 0 ++ copies)) := by
      rw [whole, sizeTable, zeroes, List.append_assoc, List.append_assoc]
    rw [List.append_assoc, List.append_assoc, ← table]
  have read := entry_read (imgHeader ++ madeHeader o ep mtime data ++ files.flatMap (sizeEntry z))
    (List.replicate (z'.bits / 8) 0) (List.replicate (z.bits / 8 - z'.bits / 8) 0 ++ copies)
  rw [← content, place, List.length_replicate, each, ← Nat.mul_assoc] at read
  exact ⟨files.length * halves, _, read, zeroes_all _⟩

end Upgraded

/-- The check of the upgrade, on a target with a long of its own width, accepts every image behind
    a header of its own, but for a header checksum that is negative as an int where unsigned long
    is wider, and for a table whose end a wider unsigned long does not meet. -/
theorem made_image_accepted (z z' : WordSize) (calls : MapCalls) (o : Options) (mtime : BitVec 32)
    (files : List (List Byte)) (image imgHeader : List Byte)
    (made : mkimage z o mtime files = .ok image) (short : image.length < 2147483648)
    (before : imgHeader.length = sizeofImgHeader) :
    caculateCrcFile z' calls (imgHeader ++ image) = some 0 ↔
      calls.opens = true ∧ calls.stats = true ∧ calls.maps = true ∧ FitsInt z' (ntohlAt image 4) ∧
        (z.bits < z'.bits → o.multi = true → ∃ i, ZeroEntry z' (imgHeader ++ image) (128 + i * (z'.bits / 8))) := by
  obtain ⟨ep, data, point, behind, rfl⟩ := mkimage_parts made
  have front : imgHeader.length = 64 := before
  have table : HasTable (imgHeader ++ (madeHeader o ep mtime data ++ data)) ↔ o.multi = true := by
    rw [HasTable, kind_upgraded front ep mtime data, Options.multi, Bool.or_eq_true, decide_eq_true_eq, decide_eq_true_eq]
  rw [List.length_append, madeHeader_length] at short
  have size : (imgHeader ++ (madeHeader o ep mtime data ++ data)).length = 128 + data.length := by
    rw [List.length_append, List.length_append, front, madeHeader_length]
    omega
  have something : imgHeader ++ (madeHeader o ep mtime data ++ data) ≠ [] := by
    intro empty
    rw [empty, List.length_nil] at size
    omega
  rw [caculateCrcFile_accepts_iff z' calls (by omega) (by omega), word_upgraded front _ 4, table]
  constructor
  · rintro ⟨_, called, narrow, ends⟩
    exact ⟨called.1, called.2.1, called.2.2.1, narrow, fun _ => ends⟩
  · rintro ⟨opens, stats, maps, narrow, ends⟩
    refine ⟨valid_upgraded front ep mtime data, ⟨opens, stats, maps, something⟩, narrow, ?_⟩
    intro multi
    by_cases wider : z.bits < z'.bits
    · exact ends wider multi
    · exact table_upgraded front (Nat.le_of_not_lt wider) ep mtime behind multi

theorem wide_scripts_made : ∃ image, mkimage .bits64 scripts 0 [[0x23], [0x23, 0x0a]] = .ok image ∧
    image.length = 94 := ⟨_, rfl, by decide +kernel⟩

theorem scripts_accepted : ∃ image, mkimage .bits64 scripts 0 [[0x23], [0x23, 0x0a]] = .ok image ∧
    caculateCrcFile .bits32 ⟨true, true, true⟩ (List.replicate 64 0 ++ image) = some 0 := by
  obtain ⟨image, made, size⟩ := wide_scripts_made
  have accepted := made_image_accepted .bits64 .bits32 ⟨true, true, true⟩ scripts 0 [[0x23], [0x23, 0x0a]] image
    (List.replicate 64 0) made (by omega) (by decide)
  exact ⟨image, made, accepted.mpr ⟨rfl, rfl, rfl, .inl rfl, fun wider => absurd wider (by decide)⟩⟩

end Made
end TestSource.Mkimage
