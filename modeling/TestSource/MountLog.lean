import TestSource.QueryThread

/- xl_usb_mng.c: mnt_usb_create_mount_log decides from the size of the filtered mount log
   whether the table has changed. The two sizes it compares are static variables of the
   function, so all query workers share them. -/
namespace TestSource

structure MountStatics where
  nPresize : Int
  nNowsize : Int
  deriving DecidableEq, Repr

def MountStatics.init : MountStatics := ⟨0, 0⟩

/-- get_file_size: an unsigned long, all ones when stat fails. -/
def getFileSize (z : WordSize) (stSize : Option Nat) : BitVec z.bits :=
  match stSize with
  | none => BitVec.allOnes z.bits
  | some n => BitVec.ofNat z.bits n

def logSize (z : WordSize) (stSize : Option Nat) : Int := ((getFileSize z stSize).setWidth 32).toInt

/-- The result, the detect_stat of the disk and the static variables after a call. -/
def mntUsbCreateMountLog (z : WordSize) (detectStat : MntUsbState) (stSize : Option Nat)
    (s : MountStatics) : ErrorNum × MntUsbState × MountStatics :=
  let plugged := detectStat = .plugIn
  let s := if plugged then ⟨0, 0⟩ else s
  let detectStat := if plugged then .zero else detectStat
  let s := { s with nNowsize := logSize z stSize }
  if 0 ≥ s.nNowsize then (.errorFailed, detectStat, s)
  else
    let eError := if s.nPresize ≠ s.nNowsize then .ok else .errorFailed
    (eError, detectStat, { s with nPresize := s.nNowsize })

/-- A call of one disk's worker, with the detect_stat it finds and the log it measures. -/
structure LogCall where
  disk : Nat
  detectStat : MntUsbState
  stSize : Option Nat

def logResults (z : WordSize) : MountStatics → List LogCall → List (Nat × ErrorNum)
  | _, [] => []
  | s, call :: calls =>
      let r := mntUsbCreateMountLog z call.detectStat call.stSize s
      (call.disk, r.1) :: logResults z r.2.2 calls

def resultsOf (z : WordSize) (d : Nat) (calls : List LogCall) : List (Nat × ErrorNum) :=
  (logResults z MountStatics.init calls).filter fun r => r.1 = d

def ownCalls (d : Nat) (calls : List LogCall) : List LogCall := calls.filter fun c => c.disk = d

/-- No result of any disk changes when the calls of all other disks are left out. -/
def Undisturbed (z : WordSize) (calls : List LogCall) : Prop :=
  ∀ d, resultsOf z d calls = resultsOf z d (ownCalls d calls)

/-- The size of the last log that was not empty, forgotten at a plug-in. -/
def storeSize (z : WordSize) (last : Int) (c : LogCall) : Int :=
  if 0 < logSize z c.stSize then logSize z c.stSize
  else if c.detectStat = .plugIn then 0 else last

def lastSize (z : WordSize) (calls : List LogCall) : Int := calls.foldl (storeSize z) 0

/-- At a call that compares sizes, the last size over all disks gives the same answer as the
    last size of the disk itself. -/
def ComparesOwn (z : WordSize) (calls : List LogCall) : Prop :=
  ∀ before c, before ++ [c] <+: calls → c.detectStat ≠ .plugIn → 0 < logSize z c.stSize →
    (lastSize z before = logSize z c.stSize ↔
      lastSize z (ownCalls c.disk before) = logSize z c.stSize)

def verdict (z : WordSize) (last : Int) (c : LogCall) : ErrorNum :=
  if 0 ≥ logSize z c.stSize then .errorFailed
  else if c.detectStat = .plugIn ∨ last ≠ logSize z c.stSize then .ok else .errorFailed

section Calls
variable (z : WordSize)

theorem createMountLog_step (s : MountStatics) (c : LogCall) :
    (mntUsbCreateMountLog z c.detectStat c.stSize s).1 = verdict z s.nPresize c ∧
    (mntUsbCreateMountLog z c.detectStat c.stSize s).2.2.nPresize = storeSize z s.nPresize c := by
  unfold mntUsbCreateMountLog verdict storeSize
  by_cases empty : 0 ≥ logSize z c.stSize
  · have none : ¬ 0 < logSize z c.stSize := by omega
    by_cases plugged : c.detectStat = .plugIn
    · simp [empty, none, plugged]
    · simp [empty, none, plugged]
  · have more : 0 < logSize z c.stSize := by omega
    by_cases plugged : c.detectStat = .plugIn
    · have differs : (0 : Int) ≠ logSize z c.stSize := by omega
      simp [empty, more, plugged, differs]
    · simp [empty, more, plugged]

theorem logResults_snoc (s : MountStatics) (calls : List LogCall) (c : LogCall) :
    logResults z s (calls ++ [c]) = logResults z s calls ++
      [(c.disk, verdict z (calls.foldl (storeSize z) s.nPresize) c)] := by
  induction calls generalizing s with
  | nil => simp [logResults, createMountLog_step]
  | cons call calls ih =>
    simp only [List.cons_append, logResults, List.foldl_cons, ih, createMountLog_step]

theorem resultsOf_snoc (d : Nat) (calls : List LogCall) (c : LogCall) :
    resultsOf z d (calls ++ [c]) = resultsOf z d calls ++
      if c.disk = d then [(d, verdict z (lastSize z calls) c)] else [] := by
  unfold resultsOf
  rw [logResults_snoc, List.filter_append]
  by_cases own : c.disk = d
  · simp [own, lastSize, MountStatics.init]
  · simp [own]

theorem ownCalls_snoc (d : Nat) (calls : List LogCall) (c : LogCall) :
    ownCalls d (calls ++ [c]) = ownCalls d calls ++ if c.disk = d then [c] else [] := by
  unfold ownCalls
  by_cases own : c.disk = d
  · simp [own]
  · simp [own]

theorem verdict_same_iff (a b : Int) (c : LogCall) :
    verdict z a c = verdict z b c ↔ (c.detectStat ≠ .plugIn → 0 < logSize z c.stSize →
      (a = logSize z c.stSize ↔ b = logSize z c.stSize)) := by
  unfold verdict
  by_cases empty : 0 ≥ logSize z c.stSize
  · have none : ¬ 0 < logSize z c.stSize := by omega
    simp [empty, none]
  · have more : 0 < logSize z c.stSize := by omega
    by_cases plugged : c.detectStat = .plugIn
    · simp [plugged]
    · by_cases left : a = logSize z c.stSize
      · by_cases right : b = logSize z c.stSize
        · simp [empty, more, plugged, left, right]
        · simp [empty, more, plugged, left, right]
      · by_cases right : b = logSize z c.stSize
        · simp [empty, more, plugged, left, right]
        · simp [empty, more, plugged, left, right]

theorem undisturbed_snoc (calls : List LogCall) (c : LogCall) :
    Undisturbed z (calls ++ [c]) ↔ Undisturbed z calls ∧
      verdict z (lastSize z calls) c = verdict z (lastSize z (ownCalls c.disk calls)) c := by
  constructor
  · intro every
    constructor
    · intro d
      have same := every d
      rw [ownCalls_snoc, resultsOf_snoc] at same
      by_cases own : c.disk = d
      · rw [if_pos own, if_pos own, resultsOf_snoc] at same
        exact (List.append_inj' same (by simp [own])).1
      · simpa [own] using same
    · have same := every c.disk
      rw [ownCalls_snoc, resultsOf_snoc, if_pos rfl, if_pos rfl, resultsOf_snoc, if_pos rfl] at same
      simpa using (List.append_inj' same rfl).2
  · rintro ⟨every, here⟩ d
    rw [ownCalls_snoc, resultsOf_snoc]
    by_cases own : c.disk = d
    · subst own
      rw [if_pos rfl, if_pos rfl, resultsOf_snoc, if_pos rfl, every, here]
    · simp [own, every d]

theorem comparesOwn_snoc (calls : List LogCall) (c : LogCall) :
    ComparesOwn z (calls ++ [c]) ↔ ComparesOwn z calls ∧
      verdict z (lastSize z calls) c = verdict z (lastSize z (ownCalls c.disk calls)) c := by
  rw [verdict_same_iff]
  constructor
  · intro every
    constructor
    · intro before x part
      exact every before x (part.trans (List.prefix_append _ _))
    · exact every calls c (List.prefix_refl _)
  · rintro ⟨every, here⟩ before x part
    rcases List.prefix_concat_iff.mp part with whole | part
    · obtain ⟨rfl, last⟩ := List.append_inj' whole rfl
      cases last
      exact here
    · exact every before x part

end Calls

/-- The results of every disk are those of its own calls alone exactly when every
    comparison with the shared size agrees with the one with the disk's own last size. -/
theorem undisturbed_iff (z : WordSize) (calls : List LogCall) :
    Undisturbed z calls ↔ ComparesOwn z calls := by
  induction calls using List.reverseRecOn with
  | nil =>
    constructor
    · intro _ before c part
      simp at part
    · intro _ d
      rfl
  | append_singleton calls c ih => rw [undisturbed_snoc, comparesOwn_snoc, ih]

def twoDisks : List LogCall := [⟨1, .plugIn, some 30⟩, ⟨2, .plugIn, some 50⟩, ⟨1, .rest, some 30⟩]

theorem other_disk_disturbs :
    resultsOf .bits64 1 twoDisks = [(1, .ok), (1, .ok)] ∧
    resultsOf .bits64 1 (ownCalls 1 twoDisks) = [(1, .ok), (1, .errorFailed)] ∧
    ¬ Undisturbed .bits64 twoDisks := by
  have shared : resultsOf .bits64 1 twoDisks = [(1, .ok), (1, .ok)] := by decide
  have alone : resultsOf .bits64 1 (ownCalls 1 twoDisks) = [(1, .ok), (1, .errorFailed)] := by decide
  refine ⟨shared, alone, ?_⟩
  intro undisturbed
  have same := undisturbed 1
  rw [shared, alone] at same
  cases same

end TestSource
