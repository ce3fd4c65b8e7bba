import Mathlib.Data.List.TakeWhile
import TestSource.Common
import TestSource.Runs
import TestSource.Splice

/- io.c of dosfsck: the disk under the checker. With write_immed a write goes to the device;
   else it is kept in a list of changes, which every read is patched with and which is
   written back, or dropped, when the disk is closed. Positions are not negative, so that
   every seek succeeds. -/
namespace TestSource.Dosfsck
open Splice

/-- What is behind fd: its bytes, the places among them that cannot be read, and whether it
    is a file, which grows when it is written behind its end. -/
structure Device where
  content : List Byte
  unreadable : List Nat
  regular : Bool
deriving DecidableEq

structure Change where
  pos : Nat
  data : List Byte
deriving DecidableEq

structure Disk where
  device : Device
  changes : List Change
  didChange : Bool
deriving DecidableEq

/-- The messages the program dies with, less the text of errno. -/
inductive Died where
  | read (size pos : Nat)
  | short (got size pos : Nat)
  | write (size pos : Nat)
  | wrote (did size pos : Nat)
  | bothCorrupt
  | nextOnBad
  | ownerChanged
  | chainCollides
  | prevBelowZero
deriving DecidableEq

def Died.text : Died → String
  | .read size pos => s!"Read {size} bytes at {pos}"
  | .short n size pos => s!"Got {n} bytes instead of {size} at {pos}"
  | .write size pos => s!"Write {size} bytes at {pos}"
  | .wrote did size pos => s!"Wrote {did} bytes instead of {size} at {pos}"
  | .bothCorrupt => "Both FATs appear to be corrupt. Giving up."
  | .nextOnBad => "Internal error: next_cluster on bad cluster"
  | .ownerChanged => "Internal error: attempt to change file owner"
  | .chainCollides => "Internal error: free chain collides with file"
  | .prevBelowZero => "Internal error: prev going below zero"

/-- read behind a seek: it stops before the end and before what cannot be read. -/
def Device.read (d : Device) (pos size : Nat) : List Byte :=
  slice d.content pos
    ((List.range size).takeWhile fun i => !d.unreadable.contains (pos + i)).length

def Device.write (d : Device) (pos : Nat) (data : List Byte) : Device × Nat :=
  if data = [] then (d, 0)
  else if d.regular then
    let filled := d.content ++ List.replicate (pos - d.content.length) 0
    ({ d with content := splice filled pos data }, data.length)
  else
    let did := min data.length (d.content.length - pos)
    ({ d with content := splice d.content pos (data.take did) }, did)

def fsOpen (device : Device) : Disk := { device, changes := [], didChange := false }

/-- The body of the loop of fs_read over the changes. -/
def patch (pos size : Nat) (data : List Byte) (walk : Change) : List Byte :=
  if walk.pos < pos + size ∧ walk.pos + walk.data.length > pos then
    if walk.pos < pos then
      splice data 0 (slice walk.data (pos - walk.pos) (min size (walk.data.length + walk.pos - pos)))
    else
      splice data (walk.pos - pos) (walk.data.take (min walk.data.length (size + pos - walk.pos)))
  else data

def fsRead (d : Disk) (pos size : Nat) : Except Died (List Byte) :=
  let data := d.device.read pos size
  if data.length ≠ size then
    -- an error is only returned when not one byte could be read
    if d.device.unreadable.contains pos then .error (.read size pos)
    else .error (.short data.length size pos)
  else .ok (d.changes.foldl (patch pos size) data)

/-- Reads the device alone, not the changes. -/
def fsTest (d : Disk) (pos size : Nat) : Bool := (d.device.read pos size).length = size

def fsWrite (writeImmed : Bool) (d : Disk) (pos : Nat) (data : List Byte) : Except Died Disk :=
  if writeImmed then
    let (device, did) := d.device.write pos data
    if did = data.length then .ok { d with device, didChange := true }
    else if did = 0 then .error (.write data.length pos)
    else .error (.wrote did data.length pos)
  else .ok { d with changes := d.changes ++ [{ pos, data }] }

/-- A change that cannot be written is reported and given up. -/
def fsFlush (d : Disk) : Disk :=
  { d with
    device := d.changes.foldl (fun device this => (device.write this.pos this.data).1) d.device
    changes := [] }

def fsClose (d : Disk) (write : Bool) : Device × Bool :=
  let changed := !d.changes.isEmpty
  ((if write then fsFlush d else { d with changes := [] }).device, changed || d.didChange)

def fsChanged (d : Disk) : Bool := !d.changes.isEmpty || d.didChange

/-- The bytes as they are with every change made. -/
def Disk.view (d : Disk) : List Byte :=
  d.changes.foldl (fun l c => splice l c.pos c.data) d.device.content

def Disk.Inside (d : Disk) : Prop :=
  ∀ c ∈ d.changes, c.pos + c.data.length ≤ d.device.content.length

section Device

theorem read_readable {d : Device} {pos size : Nat}
    (readable : ∀ a ∈ d.unreadable, a < pos ∨ pos + size ≤ a) :
    d.read pos size = slice d.content pos size := by
  have all : ((List.range size).takeWhile fun i => !d.unreadable.contains (pos + i)) =
      List.range size := by
    apply List.takeWhile_eq_self_iff.mpr
    intro i mem
    rw [List.mem_range] at mem
    have fresh : pos + i ∉ d.unreadable := by
      intro bad
      have := readable (pos + i) bad
      omega
    simpa using fresh
  rw [Device.read, all, List.length_range]

theorem write_inside {d : Device} {pos : Nat} {data : List Byte}
    (inside : pos + data.length ≤ d.content.length) :
    d.write pos data = ({ d with content := splice d.content pos data }, data.length) := by
  by_cases empty : data = []
  · subst empty
    simp [Device.write, splice]
  · have filled : pos - d.content.length = 0 := by omega
    have whole : min data.length (d.content.length - pos) = data.length := by omega
    rw [Device.write, if_neg empty]
    split
    · simp only [filled, List.replicate_zero, List.append_nil]
    · simp only [whole, List.take_length]

end Device

section View

theorem foldl_splice_length {l : List Byte} {cs : List Change}
    (inside : ∀ c ∈ cs, c.pos + c.data.length ≤ l.length) :
    (cs.foldl (fun l c => splice l c.pos c.data) l).length = l.length := by
  induction cs generalizing l with
  | nil => rfl
  | cons c cs ih =>
    have first := splice_length (inside c (by simp))
    rw [List.foldl_cons, ih, first]
    intro x mem
    rw [first]
    exact inside x (by simp [mem])

theorem view_length {d : Disk} (inside : d.Inside) :
    d.view.length = d.device.content.length :=
  foldl_splice_length inside

theorem patch_slice {l : List Byte} {c : Change} {pos size : Nat}
    (fits : c.pos + c.data.length ≤ l.length) (inside : pos + size ≤ l.length) :
    patch pos size (slice l pos size) c = slice (splice l c.pos c.data) pos size := by
  have length := slice_length inside
  unfold patch
  by_cases meets : c.pos < pos + size ∧ c.pos + c.data.length > pos
  · rw [if_pos meets]
    apply List.ext_getElem?
    intro a
    by_cases before : c.pos < pos
    · have part : (slice c.data (pos - c.pos)
          (min size (c.data.length + c.pos - pos))).length =
          min size (c.data.length + c.pos - pos) := slice_length (by omega)
      rw [if_pos before, getElem?_splice (by omega), part, getElem?_slice, getElem?_slice,
        getElem?_slice, getElem?_splice fits]
      by_cases low : a < size
      · by_cases covered : a < c.data.length + c.pos - pos
        · rw [if_pos (by omega), if_pos (by omega), if_pos low, if_pos (by omega)]
          congr 1
          omega
        · rw [if_neg (by omega), if_pos low, if_pos low, if_neg (by omega)]
      · rw [if_neg (by omega), if_neg low, if_neg low]
    · have part : (c.data.take (min c.data.length (size + pos - c.pos))).length =
          min c.data.length (size + pos - c.pos) := by
        rw [List.length_take]
        omega
      rw [if_neg before, getElem?_splice (by omega), part, getElem?_slice, getElem?_slice,
        getElem?_splice fits, List.getElem?_take]
      by_cases low : a < size
      · by_cases covered : c.pos ≤ pos + a ∧ pos + a < c.pos + c.data.length
        · rw [if_pos (by omega), if_pos (by omega), if_pos low, if_pos covered]
          congr 1
          omega
        · rw [if_neg (by omega), if_pos low, if_pos low, if_neg covered]
      · rw [if_neg (by omega), if_neg low, if_neg low]
  · rw [if_neg meets]
    exact (slice_splice_beside fits (by omega)).symm

theorem foldl_patch {l : List Byte} {cs : List Change} {pos size : Nat}
    (fits : ∀ c ∈ cs, c.pos + c.data.length ≤ l.length) (inside : pos + size ≤ l.length) :
    cs.foldl (patch pos size) (slice l pos size) =
      slice (cs.foldl (fun l c => splice l c.pos c.data) l) pos size := by
  induction cs generalizing l with
  | nil => rfl
  | cons c cs ih =>
    have first := fits c (by simp)
    have length := splice_length first
    rw [List.foldl_cons, patch_slice first inside, List.foldl_cons]
    apply ih
    · intro x mem
      rw [length]
      exact fits x (by simp [mem])
    · rw [length]
      exact inside

theorem fsRead_view {d : Disk} {pos size : Nat} (inside : d.Inside)
    (within : pos + size ≤ d.device.content.length)
    (readable : ∀ a ∈ d.device.unreadable, a < pos ∨ pos + size ≤ a) :
    fsRead d pos size = .ok (slice d.view pos size) := by
  have got := read_readable readable
  rw [fsRead, got, if_neg (by simp [slice_length within]), foldl_patch inside within]
  rfl

/-- A write on the device, in either mode, is a write to the view. -/
theorem fsWrite_view {d : Disk} {pos : Nat} {data : List Byte} (writeImmed : Bool)
    (inside : d.Inside) (within : pos + data.length ≤ d.device.content.length)
    (mode : writeImmed → d.changes = []) :
    ∃ t, fsWrite writeImmed d pos data = .ok t ∧ t.view = splice d.view pos data ∧ t.Inside ∧
      t.device.content.length = d.device.content.length ∧
      t.device.unreadable = d.device.unreadable ∧ (writeImmed → t.changes = []) ∧
      (¬ writeImmed → t.device = d.device) ∧ fsChanged t := by
  cases writeImmed with
  | true =>
    have none := mode rfl
    refine ⟨{ d with device := { d.device with content := splice d.device.content pos data }, didChange := true },
      ?_, ?_, ?_, splice_length within, rfl, fun _ => none, by simp, by simp [fsChanged]⟩
    · simp [fsWrite, write_inside within]
    · simp [Disk.view, none]
    · intro c mem
      rw [none] at mem
      cases mem
  | false =>
    refine ⟨{ d with changes := d.changes ++ [{ pos, data }] }, rfl, ?_, ?_, rfl, rfl, by simp,
      fun _ => rfl, by simp [fsChanged]⟩
    · simp [Disk.view]
    · intro c mem
      cases List.mem_append.mp mem with
      | inl old => exact inside c old
      | inr new =>
        rw [List.mem_singleton.mp new]
        exact within

theorem flush_content {device : Device} {cs : List Change}
    (inside : ∀ c ∈ cs, c.pos + c.data.length ≤ device.content.length) :
    (cs.foldl (fun device this => (device.write this.pos this.data).1) device).content =
      cs.foldl (fun l c => splice l c.pos c.data) device.content := by
  induction cs generalizing device with
  | nil => rfl
  | cons c cs ih =>
    have first := inside c (by simp)
    rw [List.foldl_cons, List.foldl_cons, write_inside first]
    apply ih
    intro x mem
    rw [splice_length first]
    exact inside x (by simp [mem])

theorem fsClose_write {d : Disk} (inside : d.Inside) : (fsClose d true).1.content = d.view :=
  flush_content inside

end View

section Runs
open Runs

inductive Op where
  | read (pos size : Nat)
  | write (pos : Nat) (data : List Byte)
deriving DecidableEq

def Op.isWrite : Op → Bool
  | .read _ _ => false
  | .write _ _ => true

def Op.Within (device : Device) : Op → Prop
  | .read pos size => pos + size ≤ device.content.length ∧
      ∀ a ∈ device.unreadable, a < pos ∨ pos + size ≤ a
  | .write pos data => pos + data.length ≤ device.content.length

instance (device : Device) : (op : Op) → Decidable (op.Within device)
  | .read pos size => inferInstanceAs (Decidable (pos + size ≤ device.content.length ∧
      ∀ a ∈ device.unreadable, a < pos ∨ pos + size ≤ a))
  | .write pos data => inferInstanceAs (Decidable (pos + data.length ≤ device.content.length))

def diskStep (writeImmed : Bool) : Disk × List (List Byte) → Op → Option (Disk × List (List Byte))
  | (d, log), .read pos size => (fsRead d pos size).toOption.map fun data => (d, log ++ [data])
  | (d, log), .write pos data => (fsWrite writeImmed d pos data).toOption.map fun t => (t, log)

/-- A plain store of bytes: a read returns what is there and a write replaces it. -/
def storeStep : List Byte × List (List Byte) → Op → List Byte × List (List Byte)
  | (l, log), .read pos size => (l, log ++ [slice l pos size])
  | (l, log), .write pos data => (splice l pos data, log)

structure Sees (writeImmed : Bool) (device : Device) (d : Disk) (l : List Byte) (written : Bool) : Prop where
  view : d.view = l
  inside : d.Inside
  length : d.device.content.length = device.content.length
  unreadable : d.device.unreadable = device.unreadable
  direct : writeImmed → d.changes = []
  queued : ¬ writeImmed → d.device = device
  changed : fsChanged d = written

theorem sees_open (writeImmed : Bool) (device : Device) :
    Sees writeImmed device (fsOpen device) device.content false := by
  constructor <;> simp [fsOpen, Disk.view, Disk.Inside, fsChanged]

theorem sees_write {writeImmed : Bool} {device : Device} {d : Disk} {l : List Byte} {written : Bool}
    {pos : Nat} {data : List Byte} (sees : Sees writeImmed device d l written)
    (within : pos + data.length ≤ device.content.length) :
    ∃ t, fsWrite writeImmed d pos data = .ok t ∧
      Sees writeImmed device t (splice l pos data) true := by
  obtain ⟨t, wrote, view, inside, length, unreadable, direct, queued, changed⟩ :=
    fsWrite_view writeImmed sees.inside (sees.length ▸ within) sees.direct
  refine ⟨t, wrote, ?_⟩
  constructor
  · rw [view, sees.view]
  · exact inside
  · rw [length, sees.length]
  · rw [unreadable, sees.unreadable]
  · exact direct
  · intro mode
    rw [queued mode, sees.queued mode]
  · exact changed

theorem sees_run {writeImmed : Bool} {device : Device} {d : Disk} {l : List Byte} {written : Bool}
    {ops : List Op} (sees : Sees writeImmed device d l written)
    (within : ∀ op ∈ ops, op.Within device) (log : List (List Byte)) :
    ∃ t out, exec (diskStep writeImmed) (d, log) ops = some (t, out) ∧
      out = (ops.foldl storeStep (l, log)).2 ∧
      Sees writeImmed device t (ops.foldl storeStep (l, log)).1 (written || ops.any Op.isWrite) := by
  induction ops generalizing d l written log with
  | nil => exact ⟨d, log, rfl, rfl, by simpa using sees⟩
  | cons op ops ih =>
    have first := within op (by simp)
    have rest : ∀ op ∈ ops, op.Within device := fun x mem => within x (by simp [mem])
    cases op with
    | read pos size =>
      have data := fsRead_view sees.inside (sees.length ▸ first.1) (sees.unreadable ▸ first.2)
      rw [sees.view] at data
      obtain ⟨t, out, run, same, final⟩ := ih sees rest (log ++ [slice l pos size])
      exact ⟨t, out, by simpa [exec, diskStep, data, Except.toOption] using run, same,
        by simpa [Op.isWrite, storeStep] using final⟩
    | write pos data =>
      obtain ⟨u, wrote, next⟩ := sees_write sees first
      obtain ⟨t, out, run, same, final⟩ := ih next rest log
      exact ⟨t, out, by simpa [exec, diskStep, wrote, Except.toOption] using run, same,
        by simpa [Op.isWrite, storeStep] using final⟩

/-- In either mode the checker works on a plain store of bytes: every read returns what the
    writes before it left, closing the disk with write leaves that store on the device, and
    closing it without leaves the device as it was opened unless writes were immediate.
    The value returned tells whether anything was written. -/
theorem disk_is_store (writeImmed : Bool) (device : Device) (ops : List Op)
    (within : ∀ op ∈ ops, op.Within device) :
    ∃ d log, exec (diskStep writeImmed) (fsOpen device, []) ops = some (d, log) ∧
      log = (ops.foldl storeStep (device.content, [])).2 ∧
      (fsClose d true).1.content = (ops.foldl storeStep (device.content, [])).1 ∧
      (fsClose d false).1.content =
        (if writeImmed then (ops.foldl storeStep (device.content, [])).1 else device.content) ∧
      fsChanged d = ops.any Op.isWrite ∧
      ∀ write, (fsClose d write).2 = ops.any Op.isWrite := by
  obtain ⟨d, log, run, same, sees⟩ := sees_run (sees_open writeImmed device) within []
  rw [Bool.false_or] at sees
  refine ⟨d, log, run, same, ?_, ?_, sees.changed, fun _ => sees.changed⟩
  · rw [fsClose_write sees.inside, sees.view]
  · cases writeImmed with
    | true =>
      have shown := sees.view
      rw [Disk.view, sees.direct rfl] at shown
      exact shown
    | false =>
      have same := sees.queued (by simp)
      simp [fsClose, same]

theorem overlapping_writes_read :
    ∃ d log, exec (diskStep false) (fsOpen ⟨[1, 2, 3, 4, 5, 6], [], true⟩, [])
        [.write 2 [7, 8, 9], .write 1 [0, 0], .read 0 5] = some (d, log) ∧
      log = [[1, 0, 0, 8, 9]] ∧ (fsClose d true).1.content = [1, 0, 0, 8, 9, 6] ∧
      (fsClose d false).1.content = [1, 2, 3, 4, 5, 6] ∧ fsChanged d = true ∧
      ∀ write, (fsClose d write).2 = true :=
  disk_is_store false ⟨[1, 2, 3, 4, 5, 6], [], true⟩
    [.write 2 [7, 8, 9], .write 1 [0, 0], .read 0 5] (by decide)

end Runs
end TestSource.Dosfsck
