import TestSource.QueryThread

/- xl_usb_mng.c: what detect_stat says of the passes that a query worker has made. -/
namespace TestSource
open Runs

/-- The local variables of mnt_usb_query_mount_log_thread and the detect_stat of its disk. -/
structure QueryLoop where
  detectStat : MntUsbState
  flag : Bool
  time : Nat
  oneCounts : Int
  fiveCounts : Int

def QueryLoop.start : QueryLoop := ⟨.plugIn, false, 1000 * 1000, 0, 0⟩

def QueryLoop.log (l : QueryLoop) : QueryLoop :=
  { l with detectStat := if l.detectStat = .plugIn then .zero else l.detectStat }

def QueryLoop.count (l : QueryLoop) (eError : ErrorNum) : QueryLoop :=
  let flag := l.flag || eError = .ok
  let time := if eError = .ok then 3 * 1000 * 1000 else l.time
  let one := if time = 1000 * 1000 then wrapInt (l.oneCounts + 1) else l.oneCounts
  let five := if time = 3 * 1000 * 1000 then wrapInt (l.fiveCounts + 1) else l.fiveCounts
  let stat := if l.flag then l.detectStat else if eError = .ok then .rest else .query
  let stat := if wrapInt (one + wrapInt (five * 3)) ≥ 90 ∧ flag = false then .timeout else stat
  ⟨stat, flag, time, one, five⟩

/-- Whether mnt_usb_detect_partition made a mount log, and what it returned. -/
structure Pass where
  logs : Bool
  eError : ErrorNum

def QueryLoop.pass (l : QueryLoop) (p : Pass) : QueryLoop :=
  (if p.logs then l.log else l).count p.eError

def afterPasses (passes : List Pass) : QueryLoop := passes.foldl QueryLoop.pass QueryLoop.start

def outcomes (passes : List Pass) : List ErrorNum := passes.map Pass.eError

section Counting

theorem wrapInt_add (m n : Int) : wrapInt (wrapInt m + n) = wrapInt (m + n) := by
  unfold wrapInt toS32 toU32
  split <;> split <;> split <;> omega

theorem wrapInt_wrapInt (n : Int) : wrapInt (wrapInt n) = wrapInt n := by
  have zero := wrapInt_add n 0
  rw [Int.add_zero, Int.add_zero] at zero
  exact zero

structure Counted (passes : List Pass) (l : QueryLoop) : Prop where
  flag : l.flag = true ↔ .ok ∈ outcomes passes
  rest : .ok ∈ outcomes passes → l.detectStat = .rest
  time : .ok ∉ outcomes passes → l.time = 1000 * 1000
  one : .ok ∉ outcomes passes → l.oneCounts = wrapInt passes.length
  five : .ok ∉ outcomes passes → l.fiveCounts = 0
  stat : .ok ∉ outcomes passes → passes ≠ [] →
    l.detectStat = if 90 ≤ wrapInt passes.length then .timeout else .query

theorem counted_start : Counted [] QueryLoop.start := by
  constructor
  · simp [QueryLoop.start, outcomes]
  · intro ok
    cases ok
  · intro _
    rfl
  · intro _
    rfl
  · intro _
    rfl
  · intro _ some
    exact absurd rfl some

theorem counted_log {passes : List Pass} {l : QueryLoop} (counted : Counted passes l) (logs : Bool) :
    Counted passes (if logs then l.log else l) := by
  cases logs with
  | false => exact counted
  | true =>
    refine ⟨counted.flag, ?_, counted.time, counted.one, counted.five, ?_⟩
    · intro ok
      show (if l.detectStat = .plugIn then MntUsbState.zero else l.detectStat) = .rest
      rw [counted.rest ok]
      decide
    · intro none some
      show (if l.detectStat = .plugIn then MntUsbState.zero else l.detectStat) = _
      rw [counted.stat none some]
      split <;> decide

theorem count_success {l : QueryLoop} {eError : ErrorNum} (success : l.flag = true ∨ eError = .ok) :
    (l.count eError).flag = true ∧
      (l.count eError).detectStat = if l.flag then l.detectStat else .rest := by
  have flag : (l.flag || decide (eError = .ok)) = true := by
    rcases success with before | now
    · rw [before, Bool.true_or]
    · rw [decide_eq_true now, Bool.or_true]
  refine ⟨flag, ?_⟩
  simp only [QueryLoop.count, flag, Bool.true_eq_false, and_false, ↓reduceIte]
  rcases success with before | now
  · rw [if_pos before, if_pos before]
  · rw [if_pos now]

theorem count_failure {l : QueryLoop} {eError : ErrorNum} {n : Nat} (before : l.flag = false)
    (failed : eError ≠ .ok) (time : l.time = 1000 * 1000) (one : l.oneCounts = wrapInt n)
    (five : l.fiveCounts = 0) :
    l.count eError = ⟨if 90 ≤ wrapInt (n + 1) then .timeout else .query, false, 1000 * 1000,
      wrapInt (n + 1), 0⟩ := by
  have zero : wrapInt 0 = 0 := rfl
  simp [QueryLoop.count, before, failed, time, one, five, wrapInt_add, zero, wrapInt_wrapInt]

theorem counted_count {passes : List Pass} {l : QueryLoop} (counted : Counted passes l) (p : Pass) :
    Counted (passes ++ [p]) (l.count p.eError) := by
  have outs : outcomes (passes ++ [p]) = outcomes passes ++ [p.eError] := by
    rw [outcomes, List.map_append]
    rfl
  by_cases success : .ok ∈ outcomes (passes ++ [p])
  · have known : l.flag = true ∨ p.eError = .ok := by
      rw [outs, List.mem_append, List.mem_singleton] at success
      rcases success with earlier | now
      · exact .inl (counted.flag.mpr earlier)
      · exact .inr now.symm
    obtain ⟨flag, stat⟩ := count_success known
    refine ⟨iff_of_true flag success, ?_, absurd success, absurd success, absurd success, absurd success⟩
    intro _
    rw [stat]
    split
    · next before => exact counted.rest (counted.flag.mp before)
    · rfl
  · have failed := success
    rw [outs, List.mem_append, List.mem_singleton, not_or] at failed
    have before : l.flag = false := by
      rw [Bool.eq_false_iff, ne_eq, counted.flag]
      exact failed.1
    have count := count_failure before (Ne.symm failed.2) (counted.time failed.1) (counted.one failed.1)
      (counted.five failed.1)
    have length : ((passes ++ [p]).length : Int) = passes.length + 1 := by
      rw [List.length_append]
      rfl
    rw [count]
    refine ⟨iff_of_false Bool.false_ne_true success, fun ok => absurd ok success, fun _ => rfl, ?_,
      fun _ => rfl, ?_⟩
    · intro _
      rw [length]
    · intro _ _
      rw [length]

theorem counted_passes (passes : List Pass) : Counted passes (afterPasses passes) := by
  induction passes using List.reverseRecOn with
  | nil => exact counted_start
  | append_singleton passes p ih =>
    rw [afterPasses, List.foldl_append]
    exact counted_count (counted_log ih p.logs) p

def expectedStat (outs : List ErrorNum) : MntUsbState :=
  if .ok ∈ outs then .rest else if outs.length < 90 then .query else .timeout

/-- The int that counts failed passes has not gone over to negative values, or from them to
    small ones. -/
def CountInRange (n : Nat) : Prop := n < 90 ∨ 90 ≤ n % 4294967296 ∧ n % 4294967296 < 2147483648

theorem wrapInt_ninety_iff (n : Nat) :
    90 ≤ wrapInt n ↔ 90 ≤ n % 4294967296 ∧ n % 4294967296 < 2147483648 := by
  unfold wrapInt toS32 toU32
  split <;> omega

theorem stat_expected_iff {passes : List Pass} (some : passes ≠ []) :
    (afterPasses passes).detectStat = expectedStat (outcomes passes) ↔
      .ok ∈ outcomes passes ∨ CountInRange passes.length := by
  have counted := counted_passes passes
  have length : (outcomes passes).length = passes.length := List.length_map _
  rw [expectedStat, length]
  by_cases success : .ok ∈ outcomes passes
  · rw [if_pos success]
    exact iff_of_true (counted.rest success) (.inl success)
  · rw [if_neg success, counted.stat success some, CountInRange, ← wrapInt_ninety_iff]
    simp only [success, false_or]
    by_cases few : passes.length < 90
    · have small : ¬90 ≤ wrapInt passes.length := by
        rw [wrapInt_ninety_iff]
        omega
      rw [if_neg small, if_pos few]
      exact iff_of_true rfl (.inl few)
    · rw [if_neg few]
      simp only [few, false_or]
      split
      · next late => exact iff_of_true rfl late
      · next early => exact iff_of_false (by decide) early

end Counting

section Moves
variable {s t : QueryState} {k : Nat} {w : Worker} {move : Move} {l : QueryLoop}

/-- What a move of a worker leaves alone. -/
structure Frame (k d : Nat) (s t : QueryState) : Prop where
  workers : ∀ j, j ≠ k → t.workers[j]? = s.workers[j]?
  entries : ∀ i, i ≠ d → t.usbThread i = s.usbThread i

theorem setStat_entry (s : QueryState) (d : Nat) (st : MntUsbState) {i : Nat} (other : i ≠ d) :
    (s.setStat d st).usbThread i = s.usbThread i := if_neg other

theorem workerMove_frame (step : workerMove s k w move = some t) : Frame k w.nDiskId s t := by
  apply workerMove_builds (P := Frame k w.nDiskId s) ?_ ?_ ?_ ?_ ⟨fun _ _ => rfl, fun _ _ => rfl⟩ step
  · intro u p frame
    exact ⟨frame.workers, frame.entries⟩
  · intro u st frame
    refine ⟨frame.workers, fun i other => ?_⟩
    rw [setStat_entry u w.nDiskId st other, frame.entries i other]
  · intro u ph frame
    refine ⟨fun j other => ?_, frame.entries⟩
    rw [← frame.workers j other]
    exact List.getElem?_set_ne (Ne.symm other)
  · intro u e frame
    refine ⟨fun j other => ?_, fun i other => ?_⟩
    · rw [← frame.workers j other]
      exact List.getElem?_set_ne (Ne.symm other)
    · rw [← frame.entries i other]
      exact setStat_entry u w.nDiskId _ other

def QueryState.view (s : QueryState) (w : Worker) : QueryLoop :=
  ⟨(s.usbThread w.nDiskId).detectStat, w.flag, w.time, w.oneCounts, w.fiveCounts⟩

theorem setStat_own (s : QueryState) (d : Nat) (st : MntUsbState) :
    ((s.setStat d st).usbThread d).detectStat = st := by
  simp [QueryState.setStat, QueryState.setEntry]

theorem view_setStat (s : QueryState) (w : Worker) (st : MntUsbState) :
    (s.setStat w.nDiskId st).view w = { s.view w with detectStat := st } := by
  rw [QueryState.view, setStat_own]
  rfl

def Shows (s : QueryState) (w : Worker) (l : QueryLoop) : Prop :=
  match w.phase with
  | .entry => s.view w = l ∧ l.detectStat = .plugIn
  | .gather _ => s.view w = l.log
  | .insert _ _ => s.view w = l.log
  | .done => s.view w = l ∨ s.view w = l.log
  | .test => s.view w = l
  | .sleep => s.view w = l
  | .lookup => s.view w = l

def endedPass (s : QueryState) (w : Worker) (move : Move) : Option Pass :=
  match move, w.phase with
  | .noName, .lookup => some ⟨false, .errorFailed⟩
  | .mountLog eError, .lookup => if w.cancelled ∨ eError = .ok then none else some ⟨true, eError⟩
  | .insert, .insert array _ =>
      (mntUsbInsertPartitionList (some array) array.length s.parts).map fun r => ⟨true, r.1⟩
  | _, _ => none

def ShowsAt (k d : Nat) (t : QueryState) (l : QueryLoop) : Prop :=
  ∃ v, t.workers[k]? = some v ∧ v.nDiskId = d ∧ Shows t v l

theorem shows_setPhase (get : s.workers[k]? = some w) {ph : Phase w.nDiskId}
    (shows : Shows s { w with phase := ph } l) : ShowsAt k w.nDiskId (s.setPhase k w ph) l := by
  obtain ⟨inside, _⟩ := List.getElem?_eq_some_iff.mp get
  exact ⟨{ w with phase := ph }, List.getElem?_set_self inside, rfl, shows⟩

theorem shows_endPass (get : s.workers[k]? = some w) (view : s.view w = l) (eError : ErrorNum) :
    ShowsAt k w.nDiskId (s.endPass k w eError) (l.count eError) := by
  obtain ⟨inside, _⟩ := List.getElem?_eq_some_iff.mp get
  subst view
  refine ⟨_, List.getElem?_set_self inside, rfl, ?_⟩
  show QueryLoop.mk (((s.setStat w.nDiskId _).usbThread w.nDiskId).detectStat) _ _ _ _ = _
  rw [setStat_own]
  rfl

theorem shows_guarded {d : Nat} {c : Prop} [Decidable c] {u v : QueryState}
    (step : (if c then some u else some v) = some t) (yes : ShowsAt k d u l) (no : ShowsAt k d v l) :
    ShowsAt k d t l := by
  split at step <;> cases step
  · exact yes
  · exact no

theorem shows_log {d : Nat} {cancelled flag : Bool} {time : Nat} {one five : Int} {eError : ErrorNum}
    (get : s.workers[k]? = some ⟨d, .lookup, cancelled, flag, time, one, five⟩)
    (view : s.view ⟨d, .lookup, cancelled, flag, time, one, five⟩ = l)
    (step : workerMove s k ⟨d, .lookup, cancelled, flag, time, one, five⟩ (.mountLog eError) = some t) :
    ShowsAt k d t ((endedPass s ⟨d, .lookup, cancelled, flag, time, one, five⟩
      (.mountLog eError)).toList.foldl QueryLoop.pass l) := by
  have ended : endedPass s ⟨d, .lookup, cancelled, flag, time, one, five⟩ (.mountLog eError) =
    if cancelled = true ∨ eError = .ok then none else some ⟨true, eError⟩ := rfl
  have log := view_setStat s ⟨d, .lookup, cancelled, flag, time, one, five⟩
    (if (s.usbThread d).detectStat = .plugIn then .zero else (s.usbThread d).detectStat)
  have logged : _ = l.log := log.trans (by rw [← view]; rfl)
  simp only [workerMove] at step
  split at step
  · next gone =>
    rw [if_pos (.inl gone)] at ended
    cases step
    rw [ended]
    exact ⟨_, get, rfl, view⟩
  · next awake =>
    split at step
    · next ok =>
      rw [if_pos (.inr ok)] at ended
      cases step
      rw [ended]
      exact shows_setPhase (s := s.setStat d _) get logged
    · next failed =>
      rw [if_neg (not_or.mpr ⟨awake, failed⟩)] at ended
      cases step
      rw [ended]
      exact shows_endPass (s := s.setStat d _) get logged eError

theorem shows_move (get : s.workers[k]? = some w) (shows : Shows s w l)
    (step : workerMove s k w move = some t) :
    ShowsAt k w.nDiskId t ((endedPass s w move).toList.foldl QueryLoop.pass l) := by
  have still : ShowsAt k w.nDiskId s l := ⟨w, get, rfl, shows⟩
  obtain ⟨d, phase, cancelled, flag, time, one, five⟩ := w
  -- in each phase only a few moves do anything
  cases phase with
  | entry =>
    cases move with
    | enter =>
      cases step
      refine shows_setPhase (s := s.setStat d .plugIn) get ?_
      have view := view_setStat s ⟨d, .test, cancelled, flag, time, one, five⟩ .plugIn
      exact view.trans (by rw [← shows.2, ← shows.1]; rfl)
    | _ =>
      cases step
      exact still
  | test =>
    cases move with
    | test =>
      cases step
      refine shows_setPhase get ?_
      dsimp only
      split
      · exact shows
      · exact .inl shows
    | _ =>
      cases step
      exact still
  | sleep =>
    cases move with
    | wake =>
      refine shows_guarded step still ?_
      exact shows_setPhase get shows
    | die =>
      refine shows_guarded step ?_ still
      exact shows_setPhase get (.inl shows)
    | _ =>
      cases step
      exact still
  | lookup =>
    cases move with
    | noName =>
      cases step
      exact shows_endPass get shows .errorFailed
    | mountLog eError => exact shows_log get shows step
    | die =>
      refine shows_guarded step ?_ still
      exact shows_setPhase get (.inl shows)
    | _ =>
      cases step
      exact still
  | gather batch =>
    cases move with
    | gather r =>
      simp only [workerMove] at step
      split at step <;> cases step
      · exact shows_setPhase get shows
      · exact still
    | gathered rest =>
      simp only [workerMove] at step
      split at step <;> cases step
      · exact still
      · exact shows_setPhase get shows
    | die =>
      refine shows_guarded step ?_ still
      exact shows_setPhase get (.inr shows)
    | _ =>
      cases step
      exact still
  | insert array nonempty =>
    cases move with
    | insert =>
      obtain ⟨r, inserted, rfl⟩ := Option.map_eq_some_iff.mp step
      simp only [endedPass, inserted, Option.map_some]
      exact shows_endPass (s := { s with parts := r.2 }) get shows r.1
    | _ =>
      cases step
      exact still
  | done =>
    cases move <;>
      (cases step
       exact still)

theorem workerMove_owner (get : s.workers[k]? = some w) (step : workerMove s k w move = some t) :
    ∃ v, t.workers[k]? = some v ∧ v.nDiskId = w.nDiskId := by
  have placed : ∀ (u : QueryState) (v : Worker), (∃ x, u.workers[k]? = some x ∧ x.nDiskId = w.nDiskId) →
      v.nDiskId = w.nDiskId → ∃ x, (u.workers.set k v)[k]? = some x ∧ x.nDiskId = w.nDiskId := by
    rintro u v ⟨x, here, _⟩ own
    obtain ⟨inside, _⟩ := List.getElem?_eq_some_iff.mp here
    exact ⟨v, List.getElem?_set_self inside, own⟩
  apply workerMove_builds (P := fun u => ∃ x, u.workers[k]? = some x ∧ x.nDiskId = w.nDiskId)
    ?_ ?_ ?_ ?_ ⟨w, get, rfl⟩ step
  · exact fun u p own => own
  · exact fun u st own => own
  · exact fun u ph own => placed u _ own rfl
  · exact fun u e own => placed u _ own rfl

theorem done_stays (finished : w.phase = .done) (step : workerMove s k w move = some t) : t = s := by
  obtain ⟨d, phase, cancelled, flag, time, one, five⟩ := w
  dsimp only at finished
  subst finished
  cases move <;>
    (cases step
     rfl)

theorem shows_entry (same : t.usbThread w.nDiskId = s.usbThread w.nDiskId) (shows : Shows s w l) :
    Shows t w l := by
  have view : t.view w = s.view w := by rw [QueryState.view, same, QueryState.view]
  unfold Shows at shows ⊢
  rw [view]
  exact shows

theorem shows_cancelled (shows : Shows s w l) : Shows s { w with cancelled := true } l := by
  obtain ⟨d, phase, cancelled, flag, time, one, five⟩ := w
  cases phase <;> exact shows

end Moves

section Disk
variable {d k : Nat} {s t : QueryState} {l : QueryLoop}

def passEnd (k : Nat) (s : QueryState) : QueryEvent → Option Pass
  | .work j move => if j = k then s.workers[k]?.bind fun w => endedPass s w move else none
  | _ => none

def LeavesDisk (d : Nat) : QueryEvent → Prop
  | .add i => i ≠ d
  | .rm i => i ≠ d
  | .work _ _ => True

structure Alone (d k : Nat) (s : QueryState) (l : QueryLoop) : Prop where
  own : ShowsAt k d s l
  others : ∀ j w, j ≠ k → s.workers[j]? = some w → w.nDiskId = d → w.phase = .done

theorem alone_add {i : Nat} (other : i ≠ d) (alone : Alone d k s l) : Alone d k (handleAdd i s) l := by
  obtain ⟨⟨v, get, own, shows⟩, others⟩ := alone
  constructor
  · obtain ⟨inside, _⟩ := List.getElem?_eq_some_iff.mp get
    refine ⟨v, (List.getElem?_append_left inside).trans get, own, shows_entry ?_ shows⟩
    exact if_neg (own ▸ Ne.symm other)
  · intro j w differs here mine
    have place : (s.workers ++ [Worker.start i])[j]? = some w := here
    rw [List.getElem?_append] at place
    split at place
    · exact others j w differs place mine
    · have new : w = Worker.start i := by
        have mem := List.mem_of_getElem? place
        exact List.mem_singleton.mp mem
      rw [new] at mine
      exact absurd mine other

theorem cancel_keeps (tid : Option Nat) (workers : List Worker) (j : Nat) :
    (requestCancel tid workers)[j]? = workers[j]? ∨
      (requestCancel tid workers)[j]? = workers[j]?.map fun w => { w with cancelled := true } := by
  cases tid with
  | none => exact .inl rfl
  | some c =>
    rw [requestCancel, List.getElem?_modify]
    by_cases same : c = j
    · right
      simp only [same, ↓reduceIte]
      rfl
    · left
      simp [same]

theorem alone_rm {i : Nat} (other : i ≠ d) (alone : Alone d k s l)
    (step : handleRm i s = some t) : Alone d k t l := by
  obtain ⟨⟨v, get, own, shows⟩, others⟩ := alone
  obtain ⟨r, _, rfl⟩ := Option.map_eq_some_iff.mp step
  have entry : ∀ w : Worker, w.nDiskId = d →
      (s.setEntry i { s.usbThread i with nRunState := false, detectStat := .plugOut }).usbThread w.nDiskId =
        s.usbThread w.nDiskId := by
    intro w mine
    exact if_neg (mine ▸ Ne.symm other)
  constructor
  · rcases cancel_keeps (s.usbThread i).tid s.workers k with same | cancelled
    · exact ⟨v, same.trans get, own, shows_entry (entry v own) shows⟩
    · rw [get, Option.map_some] at cancelled
      exact ⟨{ v with cancelled := true }, cancelled, own, shows_entry (entry v own) (shows_cancelled shows)⟩
  · intro j w differs here mine
    rcases cancel_keeps (s.usbThread i).tid s.workers j with same | cancelled
    · exact others j w differs (same.symm.trans here) mine
    · obtain ⟨x, old, rfl⟩ := Option.map_eq_some_iff.mp (cancelled.symm.trans here)
      exact others j x differs old mine

theorem alone_work {j : Nat} {w : Worker} {move : Move} (get : s.workers[j]? = some w)
    (alone : Alone d k s l) (step : workerMove s j w move = some t) :
    Alone d k t ((passEnd k s (.work j move)).toList.foldl QueryLoop.pass l) := by
  obtain ⟨⟨v, here, own, shows⟩, others⟩ := alone
  have frame := workerMove_frame step
  by_cases same : j = k
  · subst same
    rw [get] at here
    cases here
    constructor
    · have ended : passEnd j s (.work j move) = endedPass s w move := by simp [passEnd, get]
      rw [ended, ← own]
      exact shows_move get shows step
    · intro i x differs place mine
      rw [frame.workers i differs] at place
      exact others i x differs place mine
  · have hidden : passEnd k s (.work j move) = none := if_neg same
    rw [hidden]
    by_cases disk : w.nDiskId = d
    · rw [done_stays (others j w same get disk) step]
      exact ⟨⟨v, here, own, shows⟩, others⟩
    · constructor
      · rw [← frame.workers k (Ne.symm same)] at here
        exact ⟨v, here, own, shows_entry (frame.entries _ (own ▸ Ne.symm disk)) shows⟩
      · intro i x differs place mine
        by_cases mover : i = j
        · subst mover
          obtain ⟨y, moved, owner⟩ := workerMove_owner get step
          rw [moved] at place
          cases place
          exact absurd (owner.symm.trans mine) disk
        · rw [frame.workers i mover] at place
          exact others i x differs place mine

theorem alone_step (s t : QueryState) (l : QueryLoop) (e : QueryEvent) (leaves : LeavesDisk d e)
    (alone : Alone d k s l) (step : queryStep s e = some t) :
    Alone d k t ((passEnd k s e).toList.foldl QueryLoop.pass l) := by
  cases e with
  | add i =>
    cases step
    exact alone_add leaves alone
  | rm i => exact alone_rm leaves alone step
  | work j move =>
    simp only [queryStep] at step
    cases get : s.workers[j]? with
    | none =>
      rw [get] at step
      cases step
      have hidden : passEnd k s (.work j move) = none := by
        show (if j = k then s.workers[k]?.bind fun w => endedPass s w move else none) = none
        split
        · next same => rw [← same, get, Option.bind_none]
        · rfl
      rw [hidden]
      exact alone
    | some w =>
      rw [get] at step
      exact alone_work get alone step

theorem alone_start (idle : ∀ w ∈ s.workers, w.nDiskId = d → w.phase = .done) :
    Alone d s.workers.length (handleAdd d s) QueryLoop.start := by
  have entry : (handleAdd d s).usbThread d = ⟨true, .plugIn, some s.workers.length⟩ := if_pos rfl
  constructor
  · refine ⟨Worker.start d, List.getElem?_concat_length, rfl, ?_, rfl⟩
    show QueryState.view (handleAdd d s) (Worker.start d) = QueryLoop.start
    rw [QueryState.view, show (Worker.start d).nDiskId = d from rfl, entry]
    rfl
  · intro j w differs place mine
    have before : s.workers[j]? = some w := by
      have inside : j < s.workers.length := by
        have bound := (List.getElem?_eq_some_iff.mp place).1
        have length : (handleAdd d s).workers.length = s.workers.length + 1 := List.length_append
        omega
      exact (List.getElem?_append_left inside).symm.trans place
    exact idle w (List.mem_of_getElem? before) mine

theorem log_keeps {passes : List Pass} (some : passes ≠ []) :
    (afterPasses passes).log.detectStat = (afterPasses passes).detectStat := by
  have counted := counted_passes passes
  have later : (afterPasses passes).detectStat ≠ .plugIn := by
    by_cases success : .ok ∈ outcomes passes
    · rw [counted.rest success]
      decide
    · rw [counted.stat success some]
      split <;> decide
  exact if_neg later

theorem shown_stat {w : Worker} {passes : List Pass} (shows : Shows s w (afterPasses passes))
    (some : passes ≠ []) : (s.usbThread w.nDiskId).detectStat = (afterPasses passes).detectStat := by
  have log := log_keeps some
  have view : s.view w = afterPasses passes ∨ s.view w = (afterPasses passes).log := by
    unfold Shows at shows
    split at shows
    · exact .inl shows.1
    · exact .inr shows
    · exact .inr shows
    · exact shows
    · exact .inl shows
    · exact .inl shows
    · exact .inl shows
  rcases view with same | logged
  · exact congrArg QueryLoop.detectStat same
  · exact (congrArg QueryLoop.detectStat logged).trans log

end Disk

/-- After the first pass detect_stat says what the outcomes so far say, as long as the int that
    counts them does not overflow; so it does in every run of the module in which the disk is
    neither announced again nor removed. -/
theorem query_status_iff (passes : List Pass) (some : passes ≠ []) :
    ((afterPasses passes).detectStat = expectedStat (outcomes passes) ↔
      .ok ∈ outcomes passes ∨ CountInRange passes.length) ∧
    ∀ (s t : QueryState) (d : Nat) (es : List QueryEvent),
      (∀ w ∈ s.workers, w.nDiskId = d → w.phase = .done) → (∀ e ∈ es, LeavesDisk d e) →
      exec queryStep (handleAdd d s) es = .some t →
      labels queryStep (passEnd s.workers.length) (handleAdd d s) es = passes →
      ((t.usbThread d).detectStat = expectedStat (outcomes passes) ↔
        .ok ∈ outcomes passes ∨ CountInRange passes.length) := by
  constructor
  · exact stat_expected_iff some
  · rintro s t d es idle leaves run rfl
    obtain ⟨⟨w, _, own, shows⟩, _⟩ := exec_labels (LeavesDisk d) alone_step leaves (alone_start idle) run
    rw [← stat_expected_iff some, ← shown_stat shows some, own]

theorem second_pass_succeeds :
    (afterPasses [⟨true, .errorFailed⟩, ⟨true, .ok⟩]).detectStat = .rest := by
  have stat := (query_status_iff [⟨true, .errorFailed⟩, ⟨true, .ok⟩] (by simp)).1
  exact (stat.mpr (.inl (by decide))).trans (by decide)

section Failures

def failures (n : Nat) : List Pass := List.replicate n ⟨false, .errorFailed⟩

theorem length_failures (n : Nat) : (failures n).length = n := List.length_replicate

theorem failures_fail (n : Nat) : ErrorNum.ok ∉ outcomes (failures n) := by
  rw [outcomes, failures, List.map_replicate]
  intro ok
  exact absurd (List.eq_of_mem_replicate ok) (by decide)

theorem failures_stat {n : Nat} (some : n ≠ 0) :
    (afterPasses (failures n)).detectStat = if 90 ≤ wrapInt n then .timeout else .query := by
  have nonempty : failures n ≠ [] := by
    intro empty
    have length := length_failures n
    rw [empty] at length
    exact some length.symm
  have stat := (counted_passes (failures n)).stat (failures_fail n) nonempty
  rw [length_failures] at stat
  exact stat

theorem failures_expected {n : Nat} (late : 90 ≤ n) : expectedStat (outcomes (failures n)) = .timeout := by
  have length : (outcomes (failures n)).length = n := (List.length_map _).trans (length_failures n)
  rw [expectedStat, if_neg (failures_fail n), length, if_neg (Nat.not_lt.mpr late)]

end Failures

theorem timeout_is_taken_back :
    (afterPasses (failures 2147483647)).detectStat = .timeout ∧
    (afterPasses (failures 2147483648)).detectStat = .query ∧
    expectedStat (outcomes (failures 2147483648)) = .timeout := by
  refine ⟨?_, ?_, failures_expected (by decide)⟩
  · exact (failures_stat (by decide)).trans (by decide)
  · exact (failures_stat (by decide)).trans (by decide)

end TestSource
