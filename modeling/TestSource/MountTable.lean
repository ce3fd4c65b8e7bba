import TestSource.Common
import TestSource.Splice
import Mathlib.Data.List.Infix

/- xl_usb_mng.c: the mount log of a disk, filtered out of /proc/mounts by name, and the
   search of a partition's mount point in it. The kernel writes the fields of an entry
   without blanks or newlines in them. A character is a byte; no result means an access
   outside a buffer or through a null pointer. -/
namespace TestSource
open Splice

structure MountEntry where
  device : CStr
  dir : CStr
  rest : CStr
  deviceWord : ' ' ∉ device ∧ '\n' ∉ device
  dirWord : ' ' ∉ dir ∧ '\n' ∉ dir
  restLine : '\n' ∉ rest

def MountEntry.line (e : MountEntry) : CStr := e.device ++ ' ' :: (e.dir ++ ' ' :: e.rest)

/-- The entries whose line grep finds the name in. -/
def grepTable (szDiskName : CStr) (table : List MountEntry) : List MountEntry :=
  table.filter fun e => szDiskName <:+: e.line

def logText (entries : List MountEntry) : CStr := entries.flatMap fun e => e.line ++ ['\n']

/-- What the pipe of cat and grep leaves in the log file. -/
def mountLog (szDiskName : CStr) (table : List MountEntry) : CStr :=
  logText (grepTable szDiskName table)

def strchr (s : CStr) (c : Char) : Option Nat := s.findIdx? fun x => x = c

def fgets (text : CStr) : CStr × CStr :=
  match (text.take 1023).findIdx? fun x => x = '\n' with
  | some k => text.splitAt (k + 1)
  | none => text.splitAt 1023

/-- The mount point when the line is one of the partition. The device name is copied to 32
    bytes and the mount point to 256, each with its NUL. -/
def parsingMountLog (buf szPartName : CStr) : Option (Option CStr) := do
  let info ← strchr buf ' '
  if info ≥ 32 then none
  else if buf.take info = szPartName then do
    let tmpbuf := buf.drop (info + 1)
    let info ← strchr tmpbuf ' '
    if info ≥ 256 then none else some (some (tmpbuf.take info))
  else some none

def mountPathLoop (szPartName : CStr) : Nat → CStr → Nat → Option (Option (CStr × Nat))
  | 0, _, _ => none
  | fuel + 1, text, i =>
      if text = [] then some none
      else do
        let (buf, text) := fgets text
        match ← parsingMountLog buf szPartName with
        | some szMountDir => some (some (szMountDir, i))
        | none => mountPathLoop szPartName fuel text (i + 1)

def mntUsbGetMountPath (log szPartName : CStr) : Option (Option (CStr × Nat)) :=
  mountPathLoop szPartName (log.length + 1) log 0

/-- The call with its outputs: the result, the 256 bytes of szMountDir and nMapIndex. The log
    is absent where it cannot be opened; the mount point is copied without a NUL. -/
def mountPathCall (log : Option CStr) (szPartName szMountDir : CStr) (nMapIndex : Int) :
    Option (ErrorNum × CStr × Int) :=
  match log with
  | none => some (.errorFailed, szMountDir, nMapIndex)
  | some text => do
      match ← mntUsbGetMountPath text szPartName with
      | some (dir, i) => some (.ok, splice szMountDir 0 dir, i)
      | none => some (.errorFailed, szMountDir, nMapIndex)

def mountPoint (table : List MountEntry) (szPartName : CStr) : Option CStr :=
  (table.find? fun e => e.device = szPartName).map MountEntry.dir

structure MountEntry.Fits (e : MountEntry) : Prop where
  line : e.line.length < 1023
  device : e.device.length < 32
  dir : e.dir.length < 256

theorem strchr_append {c : Char} {front : CStr} (free : c ∉ front) (back : CStr) :
    strchr (front ++ c :: back) c = some front.length := by
  induction front with
  | nil => simp [strchr, List.findIdx?_cons]
  | cons x front ih =>
    simp only [List.mem_cons, not_or] at free
    have rest := ih free.2
    simp only [strchr] at rest
    simp [strchr, List.findIdx?_cons, Ne.symm free.1, rest]

theorem fgets_line {line : CStr} (plain : '\n' ∉ line) (short : line.length < 1023) (text : CStr) :
    fgets (line ++ '\n' :: text) = (line ++ ['\n'], text) := by
  have cut : (line ++ '\n' :: text).take 1023 = line ++ '\n' :: text.take (1022 - line.length) := by
    rw [List.take_append, List.take_of_length_le (by omega)]
    have more : 1023 - line.length = (1022 - line.length) + 1 := by omega
    rw [more, List.take_succ_cons]
  have found := strchr_append plain (text.take (1022 - line.length))
  simp only [strchr] at found
  have taken : (line ++ '\n' :: text).take (line.length + 1) = line ++ ['\n'] := by
    rw [List.take_length_add_append, List.take_succ_cons, List.take_zero]
  have dropped : (line ++ '\n' :: text).drop (line.length + 1) = text := by
    rw [List.drop_length_add_append, List.drop_succ_cons, List.drop_zero]
  unfold fgets
  rw [cut, found]
  simp only [List.splitAt_eq, taken, dropped]

theorem line_plain (e : MountEntry) : '\n' ∉ e.line := by
  simp [MountEntry.line, e.deviceWord.2, e.dirWord.2, e.restLine]

theorem parse_line {e : MountEntry} (fits : e.Fits) (szPartName : CStr) :
    parsingMountLog (e.line ++ ['\n']) szPartName =
      some (if e.device = szPartName then some e.dir else none) := by
  have shape : e.line ++ ['\n'] = e.device ++ ' ' :: (e.dir ++ ' ' :: (e.rest ++ ['\n'])) := by
    simp [MountEntry.line]
  have first := strchr_append e.deviceWord.1 (e.dir ++ ' ' :: (e.rest ++ ['\n']))
  have second := strchr_append e.dirWord.1 (e.rest ++ ['\n'])
  have device := fits.device
  have dir := fits.dir
  unfold parsingMountLog
  rw [shape, first]
  by_cases own : e.device = szPartName
  · subst own
    simp [Nat.not_le.mpr device, Nat.not_le.mpr dir, second]
  · simp [Nat.not_le.mpr device, own]

theorem mountPathLoop_spec (szPartName : CStr) {entries : List MountEntry}
    (fits : ∀ e ∈ entries, e.Fits) {fuel : Nat} (enough : (logText entries).length < fuel) (i : Nat) :
    mountPathLoop szPartName fuel (logText entries) i =
      some ((mountPoint entries szPartName).map fun dir =>
        (dir, i + entries.findIdx fun e => e.device = szPartName)) := by
  induction entries generalizing fuel i with
  | nil =>
    cases fuel with
    | zero => omega
    | succ fuel => simp [mountPathLoop, logText, mountPoint]
  | cons e entries ih =>
    cases fuel with
    | zero => omega
    | succ fuel =>
      have mine := fits e (by simp)
      have text : logText (e :: entries) = e.line ++ '\n' :: logText entries := by
        simp [logText]
      have more : e.line ++ '\n' :: logText entries ≠ [] := by simp
      have less : (logText entries).length < fuel := by
        rw [text, List.length_append, List.length_cons] at enough
        omega
      have rest := ih (fun x mem => fits x (by simp [mem])) less (i + 1)
      unfold mountPathLoop
      simp only [text, more, ↓reduceIte, fgets_line (line_plain e) mine.line, parse_line mine,
        Option.bind_eq_bind, Option.bind_some]
      by_cases own : e.device = szPartName
      · simp [own, mountPoint, List.findIdx_cons]
      · have next : (e :: entries).findIdx (fun e => e.device = szPartName) =
            entries.findIdx (fun e => e.device = szPartName) + 1 := by
          simp [List.findIdx_cons, own]
        rw [if_neg own, rest, next, mountPoint, mountPoint,
          List.find?_cons_of_neg (by simpa using own), Nat.add_assoc, Nat.add_comm 1]

/-- Lines that grep drops are not of the disk's partitions. -/
theorem mountPoint_grep {szDiskName szPartName : CStr} (named : szDiskName <:+: szPartName)
    (table : List MountEntry) :
    mountPoint (grepTable szDiskName table) szPartName = mountPoint table szPartName := by
  unfold mountPoint grepTable
  rw [List.find?_filter]
  congr 2
  funext e
  by_cases own : e.device = szPartName
  · have kept : szDiskName <:+: e.line := by
      rw [MountEntry.line, own]
      exact named.trans (List.prefix_append _ _).isInfix
    simp [own, kept]
  · simp [own]

/-- The search of the log finds where the whole table has the partition mounted. -/
theorem getMountPath_spec {szDiskName szPartName : CStr} (named : szDiskName <:+: szPartName)
    {table : List MountEntry} (fits : ∀ e ∈ grepTable szDiskName table, e.Fits) :
    ∃ k, mntUsbGetMountPath (mountLog szDiskName table) szPartName =
      some ((mountPoint table szPartName).map fun dir => (dir, k)) := by
  have run := mountPathLoop_spec szPartName fits (Nat.lt_succ_self _) 0
  rw [mountPoint_grep named] at run
  exact ⟨_, run⟩

def zeroedDir : CStr := List.replicate 256 '\x00'

/-- What a search of a log that was made of these entries is to give, with szMountDir zeroed
    by the caller. -/
structure LookupExact (entries : List MountEntry) (szPartName : CStr) (nMapIndex : Int)
    (run : ErrorNum × CStr × Int) : Prop where
  succeeds : run.1 = .ok ↔ ∃ e ∈ entries, e.device = szPartName
  first : ∀ before e after, entries = before ++ e :: after → e.device = szPartName →
    (∀ x ∈ before, x.device ≠ szPartName) →
    run.2.1 = e.dir ++ List.replicate (256 - e.dir.length) '\x00' ∧ run.2.2 = before.length
  missing : (∀ e ∈ entries, e.device ≠ szPartName) →
    run.1 = .errorFailed ∧ run.2.1 = zeroedDir ∧ run.2.2 = nMapIndex

section Lookup
variable {szPartName : CStr}

theorem lookup_found {before : List MountEntry} (after : List MountEntry) {e : MountEntry}
    (own : e.device = szPartName) (others : ∀ x ∈ before, x.device ≠ szPartName) :
    mountPoint (before ++ e :: after) szPartName = some e.dir ∧
      (before ++ e :: after).findIdx (fun e => e.device = szPartName) = before.length := by
  induction before with
  | nil => simp [mountPoint, own, List.findIdx_cons]
  | cons x before ih =>
    have skip : x.device ≠ szPartName := others x (by simp)
    obtain ⟨point, place⟩ := ih fun y mem => others y (by simp [mem])
    constructor
    · simpa [mountPoint, skip] using point
    · simpa [List.findIdx_cons, skip] using place

theorem lookup_missing {entries : List MountEntry} (others : ∀ e ∈ entries, e.device ≠ szPartName) :
    mountPoint entries szPartName = none := by
  rw [mountPoint, Option.map_eq_none_iff, List.find?_eq_none]
  intro e mem
  simpa using others e mem

theorem first_entry {entries : List MountEntry} (some : ∃ e ∈ entries, e.device = szPartName) :
    ∃ before e after, entries = before ++ e :: after ∧ e.device = szPartName ∧
      ∀ x ∈ before, x.device ≠ szPartName := by
  obtain ⟨e, member, own⟩ := some
  obtain ⟨k, x, y, miss, hit, split, _⟩ := List.exists_of_eraseP
    (p := fun e : MountEntry => e.device = szPartName) member (by simpa using own)
  exact ⟨x, k, y, split, by simpa using hit, by simpa using miss⟩

end Lookup

/-- The lookup is exact on every log whose lines fit the buffers. -/
theorem mount_lookup_exact (entries : List MountEntry) (fits : ∀ e ∈ entries, e.Fits)
    (szPartName : CStr) (nMapIndex : Int) :
    ∃ run, mountPathCall (some (logText entries)) szPartName zeroedDir nMapIndex = some run ∧
      LookupExact entries szPartName nMapIndex run := by
  have search : mntUsbGetMountPath (logText entries) szPartName = _ :=
    mountPathLoop_spec szPartName fits (Nat.lt_succ_self _) 0
  by_cases found : ∃ e ∈ entries, e.device = szPartName
  · obtain ⟨before, e, after, split, own, others⟩ := first_entry found
    obtain ⟨point, place⟩ := lookup_found after own others
    rw [← split] at point place
    have size : e.dir.length < 256 := (fits e (by rw [split]; simp)).dir
    have copied : splice zeroedDir 0 e.dir =
        e.dir ++ List.replicate (256 - e.dir.length) '\x00' := by
      rw [splice_start, zeroedDir, List.drop_replicate]
    rw [point, place, Nat.zero_add] at search
    refine ⟨(.ok, splice zeroedDir 0 e.dir, before.length), ?_, ?_, ?_, ?_⟩
    · simp only [mountPathCall, search, Option.bind_eq_bind, Option.bind_some, Option.map_some]
    · exact iff_of_true rfl found
    · intro front x back other hit misses
      obtain ⟨same, number⟩ := lookup_found back hit misses
      rw [← other] at same number
      rw [point] at same
      rw [place] at number
      rw [copied, Option.some.inj same, number]
      exact ⟨rfl, rfl⟩
    · intro none
      obtain ⟨x, member, hit⟩ := found
      exact absurd hit (none x member)
  · have others : ∀ e ∈ entries, e.device ≠ szPartName := fun e mem own => found ⟨e, mem, own⟩
    rw [lookup_missing others] at search
    refine ⟨(.errorFailed, zeroedDir, nMapIndex), ?_, ?_, ?_, fun _ => ⟨rfl, rfl, rfl⟩⟩
    · simp only [mountPathCall, search, Option.bind_eq_bind, Option.bind_some, Option.map_none]
    · exact iff_of_false (by simp) found
    · intro before e after split own
      exact absurd own (others e (by rw [split]; simp))

def mountedAt (device dir : String) (word : ' ' ∉ device.toList ∧ '\n' ∉ device.toList)
    (path : ' ' ∉ dir.toList ∧ '\n' ∉ dir.toList) : MountEntry :=
  ⟨device.toList, dir.toList, "ext3 rw 0 0".toList, word, path, by decide⟩

/-- The name of one partition starts that of another one, which is mounted first. -/
def prefixedNames : List MountEntry :=
  [mountedAt "/dev/sda10" "/mnt/b" (by decide) (by decide),
    mountedAt "/dev/sda1" "/mnt/a" (by decide) (by decide)]

theorem prefixedNames_fit : ∀ e ∈ prefixedNames, e.Fits := by
  intro e mem
  simp only [prefixedNames, List.mem_cons, List.not_mem_nil, or_false] at mem
  rcases mem with first | second
  · subst first
    exact ⟨by decide, by decide, by decide⟩
  · subst second
    exact ⟨by decide, by decide, by decide⟩

theorem prefixed_name_found : ∃ run,
    mountPathCall (some (logText prefixedNames)) "/dev/sda1".toList zeroedDir 0 = some run ∧
    run.1 = .ok ∧ run.2.1 = "/mnt/a".toList ++ List.replicate 250 '\x00' ∧ run.2.2 = 1 := by
  obtain ⟨run, call, exact⟩ := mount_lookup_exact prefixedNames prefixedNames_fit "/dev/sda1".toList 0
  have line : mountedAt "/dev/sda1" "/mnt/a" (by decide) (by decide) ∈ prefixedNames := by
    simp [prefixedNames]
  obtain ⟨dir, index⟩ := exact.first
    [mountedAt "/dev/sda10" "/mnt/b" (by decide) (by decide)]
    (mountedAt "/dev/sda1" "/mnt/a" (by decide) (by decide)) [] rfl rfl (by
      intro x mem
      rw [List.mem_singleton.mp mem]
      decide)
  exact ⟨run, call, exact.succeeds.mpr ⟨_, line, rfl⟩, dir, index⟩

end TestSource
