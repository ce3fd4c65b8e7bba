import TestSource.TrxBurn

/- test_mkflashimg.c of C_TEST: the option loop that fills in the image header and the
   copy behind it. A C string is the list of its bytes before the terminating NUL; the
   options are taken in the order getopt reports them. -/
namespace TestSource.CTest

/-- An array of the header, always of its declared size. -/
structure Field (n : Nat) where
  bytes : List Byte
  size : bytes.length = n

def Field.zero (n : Nat) : Field n := ⟨List.replicate n 0, by simp⟩

/-- The bytes behind the copied string and its NUL keep what an earlier copy left there. -/
def strcpy {n : Nat} (dst : Field n) (src : List Byte) (fits : src.length < n) : Field n where
  bytes := src ++ [0] ++ dst.bytes.drop (src.length + 1)
  size := by
    simp only [List.length_append, List.length_singleton, List.length_drop, dst.size]
    omega

structure ImgHeader where
  nMagicNo : BitVec 32
  version : Field 12
  boardId : Field 16
  product : Field 16
  reserved : Field 16

def isspace (b : Byte) : Bool := b = 0x20 || (0x09 ≤ b && b ≤ 0x0d)

def isdigit (b : Byte) : Bool := 0x30 ≤ b && b ≤ 0x39

def digits (s : List Byte) : Int :=
  (s.takeWhile isdigit).foldl (fun (n : Int) b => 10 * n + (b.toNat - 0x30)) 0

def atoi (s : List Byte) : Int :=
  match s.dropWhile isspace with
  | 0x2d :: rest => - digits rest
  | 0x2b :: rest => digits rest
  | rest => digits rest

/-- What getopt answers for the option string t:v:p:b:o:i:?h. -/
inductive Opt where
  | t (optarg : List Byte)
  | v (optarg : List Byte)
  | p (optarg : List Byte)
  | b (optarg : List Byte)
  | o (optarg : List Byte)
  | i (optarg : List Byte)
  | help

structure MkState where
  imghead : ImgHeader
  nType : Int
  output : List Byte
  input : List Byte

def MkState.init : MkState :=
  ⟨⟨0, Field.zero 12, Field.zero 16, Field.zero 16, Field.zero 16⟩, 0, [], []⟩

/-- One round of the option loop. An error is the value main returns, absent where the
    return statement has none. -/
def optStep (s : MkState) : Opt → Except (Option Int) MkState
  | .t optarg =>
      if optarg.length > 1 then .error (some (-1))
      else if atoi optarg = 0 then
        .ok { s with nType := 0, imghead.nMagicNo := 0x00474D49 }
      else if atoi optarg = 1 then
        .ok { s with nType := 1, imghead.nMagicNo := 0x00505041 }
      else .error (some (-1))
  | .v pstr =>
      if long : pstr.length > 12 - 1 then .error (some (-1))
      else .ok { s with imghead.version := strcpy s.imghead.version pstr (by omega) }
  | .p pstr =>
      if long : pstr.length > 16 - 1 then .error (some (-1))
      else .ok { s with imghead.product := strcpy s.imghead.product pstr (by omega) }
  | .b pstr =>
      if long : pstr.length > 16 - 1 then .error (some (-1))
      else .ok { s with imghead.boardId := strcpy s.imghead.boardId pstr (by omega) }
  | .o optarg => if optarg.length > 127 then .error none else .ok { s with output := optarg }
  | .i optarg => if optarg.length > 127 then .error none else .ok { s with input := optarg }
  | .help => .ok s

def optLoop (opts : List Opt) : Except (Option Int) MkState := opts.foldlM optStep MkState.init

def wordBytes (w : BitVec 32) : List Byte :=
  [w.extractLsb' 0 8, w.extractLsb' 8 8, w.extractLsb' 16 8, w.extractLsb' 24 8]

def ImgHeader.bytes (h : ImgHeader) : List Byte :=
  wordBytes h.nMagicNo ++ h.version.bytes ++ h.boardId.bytes ++ h.product.bytes ++ h.reserved.bytes

/-- The result and what is written to the output file. The input is absent when it cannot
    be opened; the copy loop is the one of burn_data. -/
def createImgFile (imgHeader : ImgHeader) (outOpens : Bool) (infile : Option (List Byte)) :
    Option (Int × List Byte) :=
  match outOpens, infile with
  | true, some content =>
      (burnLoop (content.length + 1) content).map fun copied => (0, imgHeader.bytes ++ copied)
  | _, _ => some (-1, [])

structure MkFiles where
  writable : List Byte → Bool
  content : List Byte → Option (List Byte)

/-- What main returns, absent where it has no value, the type it has announced, and what is
    in the output file. -/
structure MkResult where
  ret : Option Int
  nType : Option Int
  outfile : List Byte

def mkflashimgMain (files : MkFiles) (opts : List Opt) : Option MkResult :=
  match optLoop opts with
  | .error ret => some ⟨ret, none, []⟩
  | .ok s =>
      if s.output = s.input then some ⟨some (-1), none, []⟩
      else (createImgFile s.imghead (files.writable s.output) (files.content s.input)).map
        fun r => ⟨some r.1, some s.nType, r.2⟩

theorem word_of_bytes (w : BitVec 32) (rest : List Byte) : wordAt (wordBytes w ++ rest) 0 = w := by
  have parts : wordAt (wordBytes w ++ rest) 0 = w.extractLsb' 24 8 ++ w.extractLsb' 16 8 ++
      w.extractLsb' 8 8 ++ w.extractLsb' 0 8 := rfl
  rw [parts]
  ext i inside
  have bit {j : Nat} (same : j = i) : w.getLsbD j = w[i] := by
    subst same
    exact BitVec.getLsbD_eq_getElem inside
  simp only [BitVec.getElem_append, BitVec.getElem_extractLsb']
  split
  · exact bit (by omega)
  · split
    · exact bit (by omega)
    · split
      · exact bit (by omega)
      · exact bit (by omega)

theorem header_length (h : ImgHeader) : h.bytes.length = 64 := by
  simp [ImgHeader.bytes, wordBytes, h.version.size, h.boardId.size, h.product.size,
    h.reserved.size]

/-- Whether main goes on after the option, and the type a -t option asks for. -/
def Opt.Fits : Opt → Prop
  | .t optarg => optarg.length ≤ 1 ∧ (atoi optarg = 0 ∨ atoi optarg = 1)
  | .v optarg => optarg.length ≤ 11
  | .p optarg => optarg.length ≤ 15
  | .b optarg => optarg.length ≤ 15
  | .o optarg => optarg.length ≤ 127
  | .i optarg => optarg.length ≤ 127
  | .help => True

def Opt.type : Opt → Option Int
  | .t optarg => some (atoi optarg)
  | _ => none

def lastType (opts : List Opt) : Option Int :=
  opts.foldl (fun last o => o.type.or last) none

def magicOf : Option Int → BitVec 32
  | none => 0
  | some n => if n = 0 then IMG_MAGIC else APP_MAGIC

structure InStep (last : Option Int) (s : MkState) : Prop where
  asked : last.getD 0 = s.nType
  magic : s.imghead.nMagicNo = magicOf last
  known : ∀ n, last = some n → n = 0 ∨ n = 1

theorem optStep_fits {s : MkState} {o : Opt} (fits : o.Fits) : ∃ t, optStep s o = .ok t := by
  cases o with
  | t optarg =>
    rcases fits with ⟨short, zero | one⟩
    · exact ⟨_, by simp [optStep, Nat.not_lt.mpr short, zero]; rfl⟩
    · exact ⟨_, by simp [optStep, Nat.not_lt.mpr short, one]; rfl⟩
  | v optarg => exact ⟨_, dif_neg (Nat.not_lt.mpr fits)⟩
  | p optarg => exact ⟨_, dif_neg (Nat.not_lt.mpr fits)⟩
  | b optarg => exact ⟨_, dif_neg (Nat.not_lt.mpr fits)⟩
  | o optarg => exact ⟨_, if_neg (Nat.not_lt.mpr fits)⟩
  | i optarg => exact ⟨_, if_neg (Nat.not_lt.mpr fits)⟩
  | help => exact ⟨s, rfl⟩

theorem optStep_cases {s t : MkState} {o : Opt} (run : optStep s o = .ok t) :
    (o.type = some 0 ∧ t.nType = 0 ∧ t.imghead.nMagicNo = IMG_MAGIC) ∨
    (o.type = some 1 ∧ t.nType = 1 ∧ t.imghead.nMagicNo = APP_MAGIC) ∨
    (o.type = none ∧ t.nType = s.nType ∧ t.imghead.nMagicNo = s.imghead.nMagicNo) := by
  cases o with
  | t optarg =>
    simp only [optStep] at run
    split at run
    · cases run
    · split at run
      · rename_i zero
        cases run
        exact Or.inl ⟨by simp [Opt.type, zero], rfl, rfl⟩
      · split at run
        · rename_i one
          cases run
          exact Or.inr (Or.inl ⟨by simp [Opt.type, one], rfl, rfl⟩)
        · cases run
  | v pstr | p pstr | b pstr | o optarg | i optarg =>
    simp only [optStep] at run
    split at run
    · cases run
    · cases run
      exact Or.inr (Or.inr ⟨rfl, rfl, rfl⟩)
  | help =>
    cases run
    exact Or.inr (Or.inr ⟨rfl, rfl, rfl⟩)

theorem inStep_step {last : Option Int} {s t : MkState} {o : Opt} (inStep : InStep last s)
    (run : optStep s o = .ok t) : InStep (o.type.or last) t := by
  rcases optStep_cases run with ⟨asked, nType, magic⟩ | ⟨asked, nType, magic⟩ | ⟨other, nType, magic⟩
  · rw [asked]
    constructor
    · simp [nType]
    · simp [magic, magicOf]
    · intro n same
      cases same
      exact Or.inl rfl
  · rw [asked]
    constructor
    · simp [nType]
    · simp [magic, magicOf]
    · intro n same
      cases same
      exact Or.inr rfl
  · rw [other, Option.none_or]
    constructor
    · rw [nType, inStep.asked]
    · rw [magic, inStep.magic]
    · exact inStep.known

theorem optLoop_inStep {opts : List Opt} {s : MkState} (run : optLoop opts = .ok s) :
    InStep (lastType opts) s := by
  have every : ∀ (opts : List Opt) (last : Option Int) (s t : MkState), InStep last s →
      opts.foldlM optStep s = .ok t →
      InStep (opts.foldl (fun last o => o.type.or last) last) t := by
    intro opts
    induction opts with
    | nil =>
      intro last s t inStep run
      cases run
      exact inStep
    | cons o opts ih =>
      intro last s t inStep run
      rw [List.foldlM_cons] at run
      cases first : optStep s o with
      | error ret =>
        rw [first] at run
        cases run
      | ok u =>
        rw [first] at run
        exact ih _ u t (inStep_step inStep first) run
  exact every opts none MkState.init s ⟨rfl, rfl, by simp⟩ run

theorem optLoop_fits {opts : List Opt} (fits : ∀ o ∈ opts, o.Fits) :
    ∃ s, optLoop opts = .ok s := by
  have every : ∀ (s : MkState), ∃ t, opts.foldlM optStep s = .ok t := by
    induction opts with
    | nil => exact fun s => ⟨s, rfl⟩
    | cons o opts ih =>
      intro s
      obtain ⟨u, first⟩ := optStep_fits (s := s) (fits o (by simp))
      obtain ⟨t, rest⟩ := ih (fun x mem => fits x (by simp [mem])) u
      exact ⟨t, by rw [List.foldlM_cons, first]; exact rest⟩
  exact every MkState.init

theorem createImgFile_writes (h : ImgHeader) (content : List Byte) :
    createImgFile h true (some content) = some (0, h.bytes ++ content) := by
  have copied : burnLoop (content.length + 1) content = some content := burnLoop_copies _ (by omega)
  simp [createImgFile, copied]

theorem made_magic (h : ImgHeader) (content : List Byte) :
    wordAt (h.bytes ++ content) 0 = h.nMagicNo := by
  simp only [ImgHeader.bytes, List.append_assoc]
  exact word_of_bytes h.nMagicNo _

/-- Recognising a file that create_img_file has written looks at its magic number only. -/
theorem made_recognised_iff {last : Option Int} {s : MkState} (inStep : InStep last s)
    (content : List Byte) (before : Int) :
    checkImgFile (some (s.imghead.bytes ++ content)) before = (0, s.nType) ↔ last ≠ none := by
  have long : 64 ≤ (s.imghead.bytes ++ content).length := by
    simp [header_length]
  rw [checkImgFile_eq, made_magic, inStep.magic, if_neg (not_not.mpr long)]
  cases last with
  | none => simp [magicOf, IMG_MAGIC, APP_MAGIC]
  | some n =>
    have asked := inStep.asked
    rcases inStep.known n rfl with rfl | rfl
    · simp [magicOf, ← asked]
    · simp [magicOf, ← asked, IMG_MAGIC, APP_MAGIC]

theorem lastType_none_iff (opts : List Opt) : lastType opts ≠ none ↔ ∃ o ∈ opts, o.type ≠ none := by
  have every : ∀ (last : Option Int), opts.foldl (fun last o => o.type.or last) last ≠ none ↔
      last ≠ none ∨ ∃ o ∈ opts, o.type ≠ none := by
    induction opts with
    | nil => simp
    | cons o opts ih =>
      intro last
      rw [List.foldl_cons, ih]
      cases type : o.type with
      | none => simp [type]
      | some n => simp [type]
  simpa [lastType] using every none

theorem optStep_error {s : MkState} {o : Opt} {ret : Option Int} (stop : optStep s o = .error ret) :
    ret ≠ some 0 := by
  cases o with
  | t optarg =>
    simp only [optStep] at stop
    split at stop
    · cases stop
      simp
    · split at stop
      · cases stop
      · split at stop
        · cases stop
        · cases stop
          simp
  | v pstr | p pstr | b pstr | o optarg | i optarg =>
    simp only [optStep] at stop
    split at stop
    · cases stop
      simp
    · cases stop
  | help => cases stop

/-- An option main does not accept is never reported as success. -/
theorem optLoop_error {opts : List Opt} {ret : Option Int} (stop : optLoop opts = .error ret) :
    ret ≠ some 0 := by
  have every : ∀ (s : MkState), opts.foldlM optStep s = .error ret → ret ≠ some 0 := by
    clear stop
    induction opts with
    | nil =>
      intro s stop
      cases stop
    | cons o opts ih =>
      intro s stop
      rw [List.foldlM_cons] at stop
      cases first : optStep s o with
      | error early =>
        rw [first] at stop
        cases stop
        exact optStep_error first
      | ok u =>
        rw [first] at stop
        exact ih u stop
  exact every MkState.init stop

/-- A file that main has made is recognised as the announced type exactly when some -t
    option was given. -/
theorem made_file_recognised_iff (files : MkFiles) (opts : List Opt) (r : MkResult) (before : Int)
    (made : mkflashimgMain files opts = some r) (success : r.ret = some 0) :
    (∃ nType, r.nType = some nType ∧ checkImgFile (some r.outfile) before = (0, nType)) ↔
      ∃ o ∈ opts, o.type ≠ none := by
  rw [← lastType_none_iff]
  simp only [mkflashimgMain] at made
  split at made
  · rename_i ret loop
    cases made
    exact absurd success (optLoop_error loop)
  · rename_i s loop
    split at made
    · cases made
      cases success
    · have inStep := optLoop_inStep loop
      cases writable : files.writable s.output with
      | false =>
        simp only [writable, createImgFile, Option.map_some] at made
        cases made
        cases success
      | true =>
        cases infile : files.content s.input with
        | none =>
          simp only [writable, infile, createImgFile, Option.map_some] at made
          cases made
          cases success
        | some content =>
          rw [writable, infile, createImgFile_writes] at made
          cases made
          rw [← made_recognised_iff inStep content before]
          simp

/-- -t 1 -v 1.0 -o a -i b -/
def appOptions : List Opt := [.t [0x31], .v [0x31, 0x2e, 0x30], .o [0x61], .i [0x62]]

/-- -o a -i b -/
def untypedOptions : List Opt := [.o [0x61], .i [0x62]]

def oneInput : MkFiles := ⟨fun _ => true, fun name => if name = [0x62] then some trxBytes else none⟩

theorem app_file_recognised :
    ∃ r, mkflashimgMain oneInput appOptions = some r ∧ r.ret = some 0 ∧
      ((∃ nType, r.nType = some nType ∧ checkImgFile (some r.outfile) 0 = (0, nType)) ↔
        ∃ o ∈ appOptions, o.type ≠ none) := by
  have made : mkflashimgMain oneInput appOptions = some _ := rfl
  exact ⟨_, made, rfl, made_file_recognised_iff _ _ _ 0 made rfl⟩

/-- Without -t main announces an IMG file and makes one without a magic number. -/
theorem untyped_file_unrecognised :
    ∃ r, mkflashimgMain oneInput untypedOptions = some r ∧ r.ret = some 0 ∧ r.nType = some 0 ∧
      checkImgFile (some r.outfile) 0 = (-1, 0) := by
  have made : mkflashimgMain oneInput untypedOptions = some _ := rfl
  exact ⟨_, made, rfl, rfl, rfl⟩

structure TrxImage (payload : List Byte) : Prop where
  header : 28 ≤ payload.length
  magic : wordAt payload 0 = 0x30524448
  size : (wordAt payload 4).toNat = payload.length
  most : payload.length ≤ 32 * 1024 * 1024
  checksum : hndcrc32 (payload.drop 12) 0xffffffff = wordAt payload 8

theorem wordAt_behind (h : ImgHeader) (payload : List Byte) (k : Nat) :
    wordAt (h.bytes ++ payload) (64 + k) = wordAt payload k := by
  have byte (j : Nat) : byteAt (h.bytes ++ payload) (64 + j) = byteAt payload j := by
    rw [← header_length h]
    simp [byteAt, List.getElem?_append_right]
  simp only [wordAt, Nat.add_assoc, byte]

theorem made_accepted (h : ImgHeader) {payload : List Byte} (image : TrxImage payload) :
    TrxAccepted (h.bytes ++ payload) := by
  have length : (h.bytes ++ payload).length = 64 + payload.length := by simp [header_length]
  have len : (wordAt (h.bytes ++ payload) 68).toNat = payload.length := by
    rw [wordAt_behind h payload 4, image.size]
  have header := image.header
  have behind : (h.bytes ++ payload).drop (64 + 12) = payload.drop 12 := by
    rw [← header_length h, ← List.drop_drop, List.drop_left]
  constructor
  · omega
  · rw [wordAt_behind h payload 0, image.magic]
  · omega
  · rw [len]
    exact image.most
  · omega
  · rw [behind, len, List.take_of_length_le (by simp), image.checksum, wordAt_behind h payload 8]

/-- Whatever options are given, the file made of a TRX image under the type of the last -t
    option is recognised, accepted, and burned to the device of that type as it was. -/
theorem made_image_burns (z : WordSize) (opts : List Opt) (nType : Int) (payload : List Byte)
    (before : Int) (nCRC : BitVec 32) (fits : ∀ o ∈ opts, o.Fits)
    (typed : lastType opts = some nType) (image : TrxImage payload) :
    ∃ s file, optLoop opts = .ok s ∧ s.nType = nType ∧
      createImgFile s.imghead true (some payload) = some (0, file) ∧
      checkImgFile (some file) before = (0, nType) ∧
      caculateCrcFile z (some file) nCRC = some (0, wordAt payload 8) ∧
      burnFileToMtd file allSucceed nType =
        some (0, some (if nType = 0 then mtd2 else mtd4), payload) := by
  obtain ⟨s, loop⟩ := optLoop_fits fits
  have inStep := optLoop_inStep loop
  rw [typed] at inStep
  have same : s.nType = nType := inStep.asked.symm
  have recognised := (made_recognised_iff inStep payload before).mpr (by simp)
  rw [same] at recognised
  have accepted := caculateCrcFile_accepts z nCRC (made_accepted s.imghead image)
  rw [wordAt_behind s.imghead payload 8] at accepted
  have burned := burn_known_type (s.imghead.bytes ++ payload) (inStep.known nType rfl)
  have behind : (s.imghead.bytes ++ payload).drop 64 = payload := by
    rw [← header_length s.imghead, List.drop_left]
  rw [behind] at burned
  exact ⟨s, _, loop, same, createImgFile_writes s.imghead payload, recognised, accepted, burned⟩

theorem app_options_fit : ∀ o ∈ appOptions, o.Fits := by
  simp only [appOptions, List.mem_cons, List.not_mem_nil, or_false]
  rintro o (rfl | rfl | rfl | rfl) <;> simp only [Opt.Fits] <;> decide

theorem trxBytes_image : TrxImage trxBytes := by
  constructor <;> decide +kernel

theorem app_image_burns :
    (∀ o ∈ appOptions, o.Fits) ∧ lastType appOptions = some 1 ∧ TrxImage trxBytes ∧
    ∃ s file, optLoop appOptions = .ok s ∧ s.nType = 1 ∧
      createImgFile s.imghead true (some trxBytes) = some (0, file) ∧
      checkImgFile (some file) 0 = (0, 1) ∧
      caculateCrcFile .bits64 (some file) 0 = some (0, wordAt trxBytes 8) ∧
      burnFileToMtd file allSucceed 1 = some (0, some mtd4, trxBytes) := by
  have typed : lastType appOptions = some 1 := by decide
  exact ⟨app_options_fit, typed, trxBytes_image,
    made_image_burns .bits64 appOptions 1 trxBytes 0 0 app_options_fit typed trxBytes_image⟩

end TestSource.CTest
