import TestSource.Crc32
import TestSource.CrcRegister

/- The CRC programs of C_TEST: hndcrc32 with its literal table (test_hndcrc.c and
   test_burn_img.c), test_crc.c and test_crc_v1.c with generated tables, and the loops that
   feed them a file chunk by chunk. A buffer stands for the bytes a call is given. -/
namespace TestSource
open CrcRegister

/-- crc32_table, the same 256 words as the table of upgrade_mtk. -/
def crc32Table : List (BitVec 32) := crcTable.map (BitVec.ofNat 32)

def crcInnerLoop (c : BitVec 32) (x : Byte) : BitVec 32 :=
  (c >>> 8) ^^^ crc32Table.getD ((c ^^^ x.setWidth 32) &&& 0xff#32).toNat 0

def hndcrc32 (pdata : List Byte) (crc : BitVec 32) : BitVec 32 := pdata.foldl crcInnerLoop crc

def Poly : BitVec 32 := 0xEDB88320

def initCrc32Tab : List (BitVec 32) :=
  (List.range 256).map fun i =>
    (List.range 8).foldl (fun crc _ =>
      if crc &&& 1#32 ≠ 0 then (crc >>> 1) ^^^ Poly else crc >>> 1) (BitVec.ofNat 32 i)

def getCrc32 (crcinit : BitVec 32) (bs : List Byte) : BitVec 32 :=
  let crc := bs.foldl (fun (crc : BitVec 32) b =>
    (crc >>> 8) ^^^ initCrc32Tab.getD ((crc &&& 0xff#32) ^^^ b.setWidth 32).toNat 0)
    (crcinit ^^^ 0xffffffff#32)
  crc ^^^ 0xffffffff#32

def initCrcTable : List (BitVec 32) :=
  (List.range 256).map fun i =>
    (List.range 8).foldl (fun c _ =>
      if c &&& 1#32 ≠ 0 then 0xedb88320#32 ^^^ (c >>> 1) else c >>> 1) (BitVec.ofNat 32 i)

/-- crc32 of test_crc_v1.c, with the table that main has generated. -/
def crc32V1 (crcTable : List (BitVec 32)) (crc : BitVec 32) (buffer : List Byte) : BitVec 32 :=
  buffer.foldl (fun crc b =>
    crcTable.getD ((crc ^^^ b.setWidth 32) &&& 0xff#32).toNat 0 ^^^ (crc >>> 8)) crc

/-- What a call of fread or read that is not at the end of the file puts into a buffer. -/
structure Chunk (size : Nat) where
  bytes : List Byte
  nonempty : bytes ≠ []
  fits : bytes.length ≤ size

def contents {size : Nat} (fd : List (Chunk size)) : List Byte := fd.flatMap Chunk.bytes

def getFileCRC (fd : List (Chunk (16 * 1024))) : BitVec 32 :=
  fd.foldl (fun crc crcbuf => getCrc32 crc crcbuf.bytes) 0

def BUFSIZE : Nat := 1024 * 4

/-- The file is absent when it cannot be opened; `fails` says whether the last read reports
    an error or the end of the file. The second part is what *img_crc is set to. -/
def calcImgCrc (crcTable : List (BitVec 32)) (inFile : Option (List (Chunk BUFSIZE)))
    (fails : Bool) : Int × Option (BitVec 32) :=
  match inFile with
  | none => (-1, none)
  | some fd =>
      let crc := fd.foldl (fun crc buf => crc32V1 crcTable crc buf.bytes) 0xffffffff#32
      (if fails then -1 else 0, some crc)

section Tables

theorem literal_table : crc32Table = (List.range 256).map (tableWord Poly) := by
  decide +kernel

theorem generated_table : initCrc32Tab = (List.range 256).map (tableWord Poly) := by
  decide +kernel

theorem generated_table_v1 : initCrcTable = (List.range 256).map (tableWord Poly) := by
  decide +kernel

theorem lowByte_lt (c : BitVec 32) : (lowByte c).toNat < 256 := by
  rw [lowByte, BitVec.toNat_and]
  exact Nat.lt_of_le_of_lt Nat.and_le_right (by decide)

theorem table_entry {table : List (BitVec 32)} (words : table = (List.range 256).map (tableWord Poly))
    (c : BitVec 32) : table.getD (lowByte c).toNat 0 = tableWord Poly (lowByte c).toNat := by
  have inside := lowByte_lt c
  simp [words, inside]

end Tables

theorem byteStep_entry {table : List (BitVec 32)}
    (words : table = (List.range 256).map (tableWord Poly)) (c : BitVec 32) (b : Byte) :
    (c >>> 8) ^^^ table.getD (lowByte (c ^^^ b.setWidth 32)).toNat 0 = byteStep Poly c b := by
  rw [table_entry words, byteStep_table]

theorem hndcrc32_register (m : List Byte) (c : BitVec 32) : hndcrc32 m c = register Poly c m := by
  have step : crcInnerLoop = byteStep Poly := by
    funext c b
    exact byteStep_entry literal_table c b
  rw [hndcrc32, register, step]

theorem crc32V1_register (m : List Byte) (c : BitVec 32) :
    crc32V1 initCrcTable c m = register Poly c m := by
  rw [crc32V1, register]
  congr 1
  funext c b
  rw [BitVec.xor_comm]
  exact byteStep_entry generated_table_v1 c b

theorem byte_kept (b : Byte) : lowByte (b.setWidth 32) = b.setWidth 32 := by
  apply BitVec.eq_of_getLsbD_eq
  intro i _
  rw [lowByte_bit, BitVec.getLsbD_setWidth]
  by_cases low : i < 8
  · simp [low]
  · simp [BitVec.getLsbD_of_ge b i (by omega)]

theorem lowByte_xor (a b : BitVec 32) : lowByte (a ^^^ b) = lowByte a ^^^ lowByte b := by
  apply BitVec.eq_of_getLsbD_eq
  intro i _
  rw [BitVec.getLsbD_xor, lowByte_bit, lowByte_bit, lowByte_bit, BitVec.getLsbD_xor]
  cases a.getLsbD i <;> cases b.getLsbD i <;> simp

theorem complement_eq (c : BitVec 32) : c ^^^ 0xffffffff#32 = ~~~ c := by
  have ones : 0xffffffff#32 = BitVec.allOnes 32 := by decide
  rw [ones, BitVec.xor_allOnes]

/-- test_crc.c keeps the complement of the register between its calls. -/
theorem getCrc32_register (m : List Byte) (c : BitVec 32) :
    getCrc32 c m = ~~~ register Poly (~~~ c) m := by
  have step : (fun (crc : BitVec 32) (b : Byte) =>
      (crc >>> 8) ^^^ initCrc32Tab.getD ((crc &&& 0xff#32) ^^^ b.setWidth 32).toNat 0) =
        byteStep Poly := by
    funext c b
    rw [← byteStep_entry generated_table c b, lowByte_xor, byte_kept]
    rfl
  rw [getCrc32, step, complement_eq, complement_eq]
  rfl

theorem getFileCRC_chunks (fd : List (Chunk (16 * 1024))) (crc : BitVec 32) :
    fd.foldl (fun crc crcbuf => getCrc32 crc crcbuf.bytes) crc = getCrc32 crc (contents fd) := by
  induction fd generalizing crc with
  | nil => simp [contents, getCrc32_register, register]
  | cons chunk fd ih =>
    have split : contents (chunk :: fd) = chunk.bytes ++ contents fd := rfl
    rw [List.foldl_cons, ih, split]
    simp only [getCrc32_register, register_append, BitVec.not_not]

theorem calcImgCrc_chunks (fd : List (Chunk BUFSIZE)) (crc : BitVec 32) :
    fd.foldl (fun crc buf => crc32V1 initCrcTable crc buf.bytes) crc =
      crc32V1 initCrcTable crc (contents fd) := by
  induction fd generalizing crc with
  | nil => rfl
  | cons chunk fd ih =>
    have split : contents (chunk :: fd) = chunk.bytes ++ contents fd := rfl
    rw [List.foldl_cons, ih, split, crc32V1_register, crc32V1_register, crc32V1_register,
      register_append]

/-- The three implementations are the bitwise register, and feeding a file to them in
    chunks is the same as feeding it at once. -/
theorem crc_implementations_agree (m : List Byte) (c : BitVec 32) :
    hndcrc32 m c = register Poly c m ∧
    crc32V1 initCrcTable c m = register Poly c m ∧
    ~~~ getCrc32 (~~~ c) m = register Poly c m ∧
    (∀ fd, getFileCRC fd = getCrc32 0 (contents fd)) ∧
    ∀ fd fails, calcImgCrc initCrcTable (some fd) fails =
      (if fails then -1 else 0, some (crc32V1 initCrcTable 0xffffffff#32 (contents fd))) := by
  refine ⟨hndcrc32_register m c, crc32V1_register m c, ?_, ?_, ?_⟩
  · rw [getCrc32_register, BitVec.not_not, BitVec.not_not]
  · intro fd
    exact getFileCRC_chunks fd 0
  · intro fd fails
    rw [calcImgCrc, calcImgCrc_chunks]

theorem crc32_register (m : List Byte) (c : BitVec 32) :
    crc32 .bits32 c m = ~~~ register Poly (~~~ c) m := by
  have step : do1 (w := 32) = byteStep Poly := by
    funext c b
    rw [← byteStep_entry literal_table, BitVec.xor_comm]
    simp [do1, crc32Table, lowByte, List.getD_eq_getElem?_getD]
  have plain : crcLoop m (c ^^^ 0xffffffff#32) ^^^ 0xffffffff#32 = ~~~ register Poly (~~~ c) m := by
    rw [crcLoop_eq_foldl, step, complement_eq, complement_eq, register]
  exact plain

end TestSource
