import TestSource.Common
import TestSource.LinkedHeap
import TestSource.Runs
import TestSource.OrderedMap

/- xl_usb_mng.c: the partition list. Insertion links a whole batch when the list is empty
   and overwrites or appends record by record otherwise; deletion unlinks all nodes of
   one disk while walking. No result means a memory fault or an endless walk. -/
namespace TestSource
open LinkedHeap

structure PartitionInfo where
  nUSBDiskId : Nat
  bMounted : Int
  szMountDir : CStr
  szVolume : CStr
  u64Capacity : Nat
  u64Used : Nat
  nPatitionId : Nat
  szPartName : CStr
  nMapIndex : Nat
  deriving DecidableEq, Repr

def PartitionInfo.key (r : PartitionInfo) : Nat × Nat := (r.nUSBDiskId, r.nPatitionId)

/-- The memset of an array clears as many bytes as a size_t has: the first field of the
    first record, and the second one too where a size_t has 64 bits. -/
def clearStart (z : WordSize) : List PartitionInfo → List PartitionInfo
  | [] => []
  | r :: rest =>
      match z with
      | .bits32 => { r with nUSBDiskId := 0 } :: rest
      | .bits64 => { r with nUSBDiskId := 0, bMounted := 0 } :: rest

theorem clearStart_length (z : WordSize) (array : List PartitionInfo) :
    (clearStart z array).length = array.length := by
  cases array with
  | nil => rfl
  | cons r rest => cases z <;> rfl

structure PartState where
  heap : Heap PartitionInfo
  sPsPartHead : Nat

def PartState.init (keepsFreed : Bool) : PartState := ⟨Heap.empty keepsFreed, 0⟩

def linkBatch : List PartitionInfo → Nat → Nat → PartState → Option (ErrorNum × PartState)
  | [], _, _, s => some (.ok, s)
  | psTmpPartNode :: rest, i, psPreTmpNode, s =>
      match s.heap.malloc psTmpPartNode 0 with
      | none => some (.errorNoMemory, s)
      | some (psTmpNode, h) => do
          let h ← if psPreTmpNode ≠ 0 then h.setNext psPreTmpNode psTmpNode else some h
          let head := if i = 0 then psTmpNode else s.sPsPartHead
          linkBatch rest (i + 1) psTmpNode ⟨h, head⟩

/-- One record of the batch in a list that is not empty. The result of malloc is not
    checked, so a failed allocation is a fault. -/
def storeRecord (psTmpPartNode : PartitionInfo) :
    Nat → Nat → Heap PartitionInfo → Option (Heap PartitionInfo)
  | 0, _, _ => none
  | fuel + 1, psPreTmpNode, h => do
      let c ← h.load psPreTmpNode
      if c.val.nUSBDiskId = psTmpPartNode.nUSBDiskId ∧
          c.val.nPatitionId = psTmpPartNode.nPatitionId then
        h.setVal psPreTmpNode psTmpPartNode
      else if c.next = 0 then do
        let (node, h) ← h.malloc psTmpPartNode 0
        h.setNext psPreTmpNode node
      else storeRecord psTmpPartNode fuel c.next h

def storeBatch (batch : List PartitionInfo) (s : PartState) : Option PartState :=
  batch.foldlM (fun s r =>
    (storeRecord r s.heap.top s.sPsPartHead s.heap).map fun h => { s with heap := h }) s

/-- The array is absent for a null pointer; reading past its end is a fault. -/
def mntUsbInsertPartitionList (psPartition : Option (List PartitionInfo)) (nCnt : Int)
    (s : PartState) : Option (ErrorNum × PartState) :=
  match psPartition with
  | none => some (.nullP, s)
  | some array =>
      if 0 ≥ nCnt then some (.errPara, s)
      else if array.length < nCnt.toNat then none
      else if s.sPsPartHead = 0 then linkBatch (array.take nCnt.toNat) 0 0 s
      else (storeBatch (array.take nCnt.toNat) s).map fun s => (.ok, s)

def deletePartLoop (nUSBDiskID : Nat) : Nat → Nat → Nat → PartState → Option PartState
  | 0, _, _, _ => none
  | fuel + 1, pTmpNode, pTmpPreNode, s =>
      if pTmpNode = 0 then some s
      else do
        let c ← s.heap.load pTmpNode
        if c.val.nUSBDiskId = nUSBDiskID then do
          let (s, pre) ← if s.sPsPartHead = pTmpNode then
              some ({ s with sPsPartHead := c.next }, 0)
            else (s.heap.setNext pTmpPreNode c.next).map fun h => ({ s with heap := h }, pTmpPreNode)
          let h ← s.heap.free pTmpNode
          -- the link of the node just released is read here
          let c ← h.load pTmpNode
          deletePartLoop nUSBDiskID fuel c.next pre { s with heap := h }
        else deletePartLoop nUSBDiskID fuel c.next pTmpNode s

/-- The error variable is never set again, so the call always reports a failure. -/
def mntUsbDeletePartitionsFromList (nUSBDiskID : Nat) (s : PartState) :
    Option (ErrorNum × PartState) :=
  (deletePartLoop nUSBDiskID s.heap.top s.sPsPartHead 0 s).map fun s => (.errorFailed, s)

inductive PartOp where
  | insert (batch : List PartitionInfo)
  | delete (nUSBDiskID : Nat)

def partStep (s : PartState) : PartOp → Option PartState
  | .insert batch => (mntUsbInsertPartitionList (some batch) batch.length s).map Prod.snd
  | .delete d => (mntUsbDeletePartitionsFromList d s).map Prod.snd

def PartOp.Valid : PartOp → Prop
  | .insert batch => batch ≠ [] ∧ (batch.map PartitionInfo.key).Nodup
  | .delete _ => True

end TestSource
