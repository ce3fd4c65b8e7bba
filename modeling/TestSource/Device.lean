import TestSource.Common
import TestSource.LinkedHeap
import TestSource.Runs

/- xl_usb_device.c: the disk-id table, the device list and the two scans over it.
   Every pointer access goes through the heap and no result means a memory fault or a
   walk that does not end. Sent messages are kept in order in `queue`; presence of a
   /dev entry is what access answers during the call. -/
namespace TestSource
open LinkedHeap

structure DevState where
  heap : Heap StorageInfo
  gPsUSBDevHead : Nat
  gDevID : Nat → Bool
  queue : List UsbInfo

def DevState.init (keepsFreed : Bool) : DevState :=
  ⟨Heap.empty keepsFreed, 0, fun _ => false, []⟩

def mntUsbMsgPost (info : UsbInfo) (s : DevState) : DevState :=
  { s with queue := s.queue ++ [info] }

def setDevID (g : Nat → Bool) (i : Nat) (b : Bool) : Nat → Bool :=
  fun j => if j = i then b else g j

def mntUsbCreateDiskId (gDevID : Nat → Bool) : Int × (Nat → Bool) :=
  match (List.range 128).find? fun i => !gDevID i with
  | some i => ((i : Int) + 1, setDevID gDevID i true)
  | none => (-1, gDevID)

/-- An index outside the 128 entries has no effect. -/
def mntUsbDestroyDiskId (nDevId : Int) (gDevID : Nat → Bool) : Nat → Bool :=
  let n := nDevId - 1
  if 0 ≤ n ∧ n < 128 then
    if gDevID n.toNat then setDevID gDevID n.toNat false else gDevID
  else gDevID

def linkLast : Nat → Nat → Nat → Heap StorageInfo → Option (Heap StorageInfo)
  | 0, _, _, _ => none
  | fuel + 1, psUSBDevItem, node, h => do
      let c ← h.load psUSBDevItem
      if c.next ≠ 0 then linkLast fuel c.next node h else h.setNext psUSBDevItem node

def mntUsbInsertDevNode (psStorageInfo : StorageInfo) (s : DevState) :
    Option (ErrorNum × DevState) :=
  match s.heap.malloc psStorageInfo 0 with
  | none => some (.errorNoMemory, s)
  | some (psTmpUSBDev, h) =>
      if s.gPsUSBDevHead = 0 then
        some (.ok, { s with heap := h, gPsUSBDevHead := psTmpUSBDev })
      else do
        let h ← linkLast h.top s.gPsUSBDevHead psTmpUSBDev h
        some (.ok, { s with heap := h })

def deleteDevLoop (nDiskId : Nat) : Nat → Nat → Nat → DevState → Option (ErrorNum × DevState)
  | 0, _, _, _ => none
  | fuel + 1, psUSBDevItem, psUSBDevPreItem, s => do
      let c ← s.heap.load psUSBDevItem
      if nDiskId = c.val.nDiskId then
        let s := { s with gDevID := mntUsbDestroyDiskId (toS32 nDiskId) s.gDevID }
        let s ← if s.gPsUSBDevHead = psUSBDevItem then
            some { s with gPsUSBDevHead := c.next }
          else (s.heap.setNext psUSBDevPreItem c.next).map fun h => { s with heap := h }
        let h ← s.heap.free psUSBDevItem
        some (.ok, { s with heap := h })
      else if c.next = 0 then some (.errorFailed, s)
      else deleteDevLoop nDiskId fuel c.next psUSBDevItem s

def mntUsbDeleteDevNode (psStorageInfo : StorageInfo) (s : DevState) :
    Option (ErrorNum × DevState) :=
  if s.gPsUSBDevHead = 0 then some (.ok, s)
  else deleteDevLoop psStorageInfo.nDiskId s.heap.top s.gPsUSBDevHead 0 s

def devPath (szDevName : CStr) : CStr := ['/', 'd', 'e', 'v', '/'] ++ szDevName

def sdName (i : Nat) : CStr := ['s', 'd', Char.ofNat (97 + i)]

def mmcName (i : Nat) : CStr := ['m', 'm', 'c', 'b', 'l', 'k'] ++ Nat.toDigits 10 i

/-- The body shared by the two scanning loops. -/
def probeNode (access : CStr → Bool) (szDev : CStr) (r : Int × DevState) :
    Option (Int × DevState) :=
  if access (devPath szDev) then do
    let (id, g) := mntUsbCreateDiskId r.2.gDevID
    let sUSBInfo : UsbInfo := ⟨.add, .storage, toU32 id⟩
    let (_, s) ← mntUsbInsertDevNode ⟨sUSBInfo.nDiskId, szDev⟩ { r.2 with gDevID := g }
    some (0, mntUsbMsgPost sUSBInfo s)
  else some r

def mntUsbDeviceProbe (access : CStr → Bool) (s : DevState) : Option (Int × DevState) := do
  let r ← (List.range 16).foldlM (fun r i => probeNode access (sdName i) r) (1, s)
  (List.range 16).foldlM (fun r i => probeNode access (mmcName i) r) r

def removeDevLoop (access : CStr → Bool) : Nat → Nat → Int × DevState → Option (Int × DevState)
  | 0, _, _ => none
  | fuel + 1, psUSBDevItem, r =>
      if psUSBDevItem = 0 then some r
      else do
        let c ← r.2.heap.load psUSBDevItem
        let szDevName := c.val.szDiskName
        let r ← if access (devPath szDevName) then some r
          else do
            let sUSBInfo : UsbInfo := ⟨.rm, .storage, c.val.nDiskId⟩
            let s := mntUsbMsgPost sUSBInfo r.2
            let (_, s) ← mntUsbDeleteDevNode ⟨sUSBInfo.nDiskId, szDevName⟩ s
            some ((0 : Int), s)
        -- the link of the node just released is read here
        let c ← r.2.heap.load psUSBDevItem
        removeDevLoop access fuel c.next r

def mntUsbRemoveDevNode (access : CStr → Bool) (s : DevState) : Option (Int × DevState) :=
  if s.gPsUSBDevHead = 0 then some (0, s)
  else removeDevLoop access s.heap.top s.gPsUSBDevHead (1, s)

inductive DevOp where
  | probe (access : CStr → Bool)
  | remove (access : CStr → Bool)

def devStep (s : DevState) : DevOp → Option DevState
  | .probe access => (mntUsbDeviceProbe access s).map Prod.snd
  | .remove access => (mntUsbRemoveDevNode access s).map Prod.snd

def DevState.Nodes (s : DevState) (devs : List StorageInfo) : Prop :=
  ∃ l, Holds s.heap s.gPsUSBDevHead l ∧ l.map Prod.snd = devs

end TestSource
