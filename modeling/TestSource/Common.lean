import Mathlib.Tactic.Common

/- Types shared by the modules of xunlei_test: xl_error_no.h, xl_typedef.h and xl_mnt.h.
   A C string is the list of its characters before the terminating NUL. -/
namespace TestSource

abbrev CStr := List Char

abbrev Byte := BitVec 8

def ascii (s : CStr) : List Byte := s.map fun c => BitVec.ofNat 8 c.toNat

/-- The width of size_t and of unsigned long, 32 bits on mipsel and 32 or 64 on x86. -/
inductive WordSize where
  | bits32
  | bits64
  deriving DecidableEq, Repr

def WordSize.bits : WordSize → Nat
  | .bits32 => 32
  | .bits64 => 64

theorem WordSize.wide (z : WordSize) : 32 ≤ z.bits := by
  cases z <;> decide

inductive ErrorNum where
  | ok
  | errorFailed
  | errPara
  | nullP
  | errorUnknow
  | errorNoMemory
  | errorMax
  deriving DecidableEq, Repr

inductive Action where
  | rm
  | add
  | chg
  | finish
  deriving DecidableEq, Repr

inductive DeviceType where
  | storage
  | unknow
  | finish
  deriving DecidableEq, Repr

/-- St_xl_USB_Info, the record put into a message. -/
structure UsbInfo where
  eAction : Action
  eType : DeviceType
  nDiskId : Nat
  deriving DecidableEq, Repr

/-- St_xl_storage_info, the payload of a device node. -/
structure StorageInfo where
  nDiskId : Nat
  szDiskName : CStr
  deriving DecidableEq, Repr

def ALL_USB_DISK : Nat := 0xffffffff

def toU32 (n : Int) : Nat := (n % 4294967296).toNat

def toS32 (n : Nat) : Int := if n < 2147483648 then n else (n : Int) - 4294967296

def wrapInt (n : Int) : Int := toS32 (toU32 n)

theorem toU32_minus_one : toU32 (-1) = ALL_USB_DISK := by decide

end TestSource
