import TestSource.ProbeWorker
import Mathlib.Data.Nat.Find

/- The loop of mnt_usb_probe_device_thread over the outcomes of mnt_usb_device_probe, one probe
   after the other. -/
namespace TestSource
open Runs

/-- The thread between two probes; `tid` is what its argument points to. -/
structure ProbeThread where
  probeCnt : Nat
  tid : Nat
  ended : Bool
  deriving DecidableEq, Repr

def threadRound (t : ProbeThread) (ret : Int) : ProbeThread :=
  if t.ended then t
  else if ret = 0 then { t with tid := 0, ended := true }
  else if t.probeCnt > 0 then { t with probeCnt := t.probeCnt - 1 }
  -- Nothing leaves the loop here.
  else t

def threadAfter (outcomes : Nat → Int) (tid : Nat) : Nat → ProbeThread
  | 0 => ⟨50, tid, false⟩
  | n + 1 => threadRound (threadAfter outcomes tid n) (outcomes n)

section Rounds
variable {outcomes : Nat → Int} (tid : Nat) {n : Nat}

theorem thread_fails (failed : ∀ m < n, outcomes m ≠ 0) :
    threadAfter outcomes tid n = ⟨50 - n, tid, false⟩ := by
  induction n with
  | zero => rfl
  | succ n ih =>
    have before := ih fun m earlier => failed m (Nat.lt_succ_of_lt earlier)
    rw [threadAfter, before, threadRound, if_neg Bool.false_ne_true, if_neg (failed n (Nat.lt_succ_self n))]
    split
    · rfl
    · next spent =>
      have none : 50 - n = 50 - (n + 1) := by
        dsimp only at spent
        omega
      rw [← none]

theorem thread_finds (failed : ∀ m < n, outcomes m ≠ 0) (found : outcomes n = 0) :
    threadAfter outcomes tid (n + 1) = ⟨50 - n, 0, true⟩ := by
  rw [threadAfter, thread_fails tid failed, threadRound, if_neg Bool.false_ne_true, if_pos found]

/-- The thread ends with probe `n`, the first to give 0 or the one after the last retry, and
    leaves no tid. -/
structure EndsAt (outcomes : Nat → Int) (tid n : Nat) : Prop where
  running : (threadAfter outcomes tid n).ended = false
  ended : (threadAfter outcomes tid (n + 1)).ended = true
  cleared : (threadAfter outcomes tid (n + 1)).tid = 0
  budget : n ≤ 50
  cause : outcomes n = 0 ∨ n = 50
  failed : ∀ m < n, outcomes m ≠ 0

theorem ends_first (failed : ∀ m < n, outcomes m ≠ 0) (budget : n ≤ 50) (found : outcomes n = 0) :
    EndsAt outcomes tid n where
  running := by rw [thread_fails tid failed]
  ended := by rw [thread_finds tid failed found]
  cleared := by rw [thread_finds tid failed found]
  budget := budget
  cause := .inl found
  failed := failed

/-- The thread gives up exactly when one of its first 51 probes finds something. -/
theorem probe_thread_ends_iff (outcomes : Nat → Int) (tid : Nat) :
    (∃ n, EndsAt outcomes tid n) ↔ ∃ n ≤ 50, outcomes n = 0 := by
  constructor
  · rintro ⟨n, ends⟩
    refine ⟨n, ends.budget, ?_⟩
    by_contra differs
    have later : ∀ m < n + 1, outcomes m ≠ 0 := by
      intro m bound
      rcases Nat.lt_succ_iff_lt_or_eq.mp bound with earlier | same
      · exact ends.failed m earlier
      · exact same ▸ differs
    have ended := ends.ended
    rw [thread_fails tid later] at ended
    cases ended
  · rintro ⟨n, budget, found⟩
    have some : ∃ n, outcomes n = 0 := ⟨n, found⟩
    have first : Nat.find some ≤ n := Nat.find_le found
    exact ⟨Nat.find some, ends_first tid (fun m earlier => Nat.find_min some earlier)
      (Nat.le_trans first budget) (Nat.find_spec some)⟩

end Rounds

theorem fruitless_probes_never_end :
    (¬∃ n, EndsAt (fun _ => 1) 7 n) ∧ ∀ n, (threadAfter (fun _ => 1) 7 n).ended = false := by
  have running : ∀ n, (threadAfter (fun _ => 1) 7 n).ended = false := by
    intro n
    rw [thread_fails 7 (fun _ _ => Int.one_ne_zero)]
  refine ⟨?_, running⟩
  rintro ⟨n, ends⟩
  have ended := ends.ended
  rw [running (n + 1)] at ended
  cases ended

section Worker

def ProbeThread.worker (t : ProbeThread) : Option ProbeWorker :=
  if t.ended then none else some (ProbeWorker.restart t.probeCnt)

def roundEvents (access : CStr → Bool) : List ProbeEvent :=
  scanNames.flatMap (deviceEvents access) ++ [.look false, .wake]

theorem worker_end (s : DevState) (ret : Int) (t : ProbeThread) (running : t.ended = false) :
    exec probeStep ⟨s, some ⟨scanNames.length, ret, t.probeCnt, .look⟩⟩ [.look false, .wake] =
      some ⟨s, (threadRound t ret).worker⟩ := by
  have past : scanNames[scanNames.length]? = none := List.getElem?_eq_none (Nat.le_refl _)
  have looked : exec probeStep ⟨s, some ⟨scanNames.length, ret, t.probeCnt, .look⟩⟩ [.look false, .wake] =
      exec probeStep ⟨s, endProbe ⟨scanNames.length, ret, t.probeCnt, .look⟩⟩ [.wake] := by
    simp only [exec, probeStep, workerStep, past, Option.bind_some]
  have live : ¬t.ended = true := by
    rw [running]
    exact Bool.false_ne_true
  rw [looked, threadRound, if_neg live, endProbe]
  by_cases found : ret = 0
  · rw [if_pos found, if_pos found]
    rfl
  · rw [if_neg found, if_neg found]
    by_cases retries : t.probeCnt > 0
    · rw [if_pos retries, if_pos retries, ProbeThread.worker, if_neg live]
      rfl
    · have spent : t.probeCnt = 0 := Nat.eq_zero_of_not_pos retries
      rw [if_neg retries, if_neg retries, ProbeThread.worker, if_neg live, spent]
      rfl

theorem worker_round (access : CStr → Bool) (s : DevState) (t : ProbeThread) (running : t.ended = false) :
    exec probeStep ⟨s, t.worker⟩ (roundEvents access) =
      (mntUsbDeviceProbe access s).map fun r => ⟨r.2, (threadRound t r.1).worker⟩ := by
  have worker : t.worker = some (ProbeWorker.restart t.probeCnt) := by
    rw [ProbeThread.worker, if_neg (by simp [running])]
  rw [roundEvents, exec_append, worker, undisturbed_worker_probes]
  cases mntUsbDeviceProbe access s with
  | none => rfl
  | some r => exact worker_end r.2 r.1 t running

theorem no_worker_round (access : CStr → Bool) (s : DevState) :
    exec probeStep ⟨s, none⟩ (roundEvents access) = some ⟨s, none⟩ := by
  have idle : ∀ es : List ProbeEvent, (∀ e ∈ es, probeStep ⟨s, none⟩ e = some ⟨s, none⟩) →
      exec probeStep ⟨s, none⟩ es = some ⟨s, none⟩ := by
    intro es quiet
    induction es with
    | nil => rfl
    | cons e es ih =>
      rw [exec, quiet e List.mem_cons_self]
      exact ih fun x mem => quiet x (List.mem_cons_of_mem e mem)
  apply idle
  intro e mem
  rcases List.mem_append.mp mem with device | rest
  · obtain ⟨name, _, events⟩ := List.mem_flatMap.mp device
    unfold deviceEvents at events
    split at events <;> simp only [List.mem_cons, List.not_mem_nil, or_false] at events
    · rcases events with rfl | rfl | rfl <;> rfl
    · subst events
      rfl
  · simp only [List.mem_cons, List.not_mem_nil, or_false] at rest
    rcases rest with rfl | rfl <;> rfl

def probed (access : CStr → Bool) : Int := if found access = [] then 1 else 0

/-- A worker that is not cancelled is the thread over what its probes find. -/
theorem worker_follows_thread {s : DevState} {l : List (Nat × StorageInfo)} {a : Registry}
    (refines : Refines s l a) (accesses : Nat → CStr → Bool) (tid n : Nat) :
    ∃ t m b, exec probeStep ⟨s, some (ProbeWorker.restart 50)⟩
        ((List.range n).flatMap fun i => roundEvents (accesses i)) =
      some ⟨t, (threadAfter (fun i => probed (accesses i)) tid n).worker⟩ ∧ Refines t m b := by
  induction n with
  | zero => exact ⟨s, l, a, rfl, refines⟩
  | succ n ih =>
    obtain ⟨t, m, b, run, related⟩ := ih
    rw [List.range_succ, List.flatMap_append, exec_append, run, Option.bind_some, List.flatMap_singleton,
      threadAfter]
    generalize threadAfter (fun i => probed (accesses i)) tid n = thread
    cases ended : thread.ended with
    | true =>
      have gone : thread.worker = none := by rw [ProbeThread.worker, if_pos ended]
      have still : threadRound thread (probed (accesses n)) = thread := by rw [threadRound, if_pos ended]
      rw [still, gone, no_worker_round]
      exact ⟨t, m, b, rfl, related⟩
    | false =>
      obtain ⟨u, k, probe, done⟩ := probe_refines related (accesses n)
      rw [worker_round _ _ _ ended, probe]
      exact ⟨u, k, _, rfl, done⟩

end Worker

end TestSource
