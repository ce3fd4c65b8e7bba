import TestSource.PartitionLaws

/- xl_usb_mng.c: the partition thread, which starts and cancels one query worker per disk,
   interleaved with the workers. A requested cancellation takes effect at the end of the
   sleep, in the calls of system, and possibly while records are gathered; none of these
   lies between the last record and the end of the insertion. The array of a pass is sized
   by a count of its own, so records that were never filled can follow the gathered ones.
   An event that is not enabled changes nothing. -/
namespace TestSource
open LinkedHeap OrderedMap Runs

inductive MntUsbState where
  | zero
  | plugIn
  | query
  | rest
  | plugOut
  | timeout
  deriving DecidableEq

/-- The records a pass over one disk has gathered, in the order of their partitions. -/
structure Batch (disk : Nat) where
  records : List PartitionInfo
  own : ∀ r ∈ records, r.nUSBDiskId = disk
  rising : (records.map PartitionInfo.nPatitionId).Pairwise (· < ·)

def Batch.empty (disk : Nat) : Batch disk := ⟨[], by simp, by simp⟩

def Batch.add {disk : Nat} (b : Batch disk) (r : PartitionInfo) (mine : r.nUSBDiskId = disk)
    (next : ∀ x ∈ b.records, x.nPatitionId < r.nPatitionId) : Batch disk where
  records := b.records ++ [r]
  own := by
    intro x mem
    rcases List.mem_append.mp mem with old | new
    · exact b.own x old
    · simpa [List.mem_singleton.mp new] using mine
  rising := by
    rw [List.map_append, List.pairwise_append]
    refine ⟨b.rising, by simp, ?_⟩
    simpa using next

inductive Phase (disk : Nat) where
  | entry
  | test
  | sleep
  | lookup
  | gather (batch : Batch disk)
  | insert (psTmpPartition : List PartitionInfo) (nonempty : psTmpPartition ≠ [])
  | done

structure Worker where
  nDiskId : Nat
  phase : Phase nDiskId
  cancelled : Bool
  flag : Bool
  time : Nat
  oneCounts : Int
  fiveCounts : Int

def Worker.start (d : Nat) : Worker := ⟨d, .entry, false, false, 1000 * 1000, 0, 0⟩

/-- One entry of s_UsbThread; `tid` is the position of the worker it names. -/
structure ThreadEntry where
  nRunState : Bool
  detectStat : MntUsbState
  tid : Option Nat

structure QueryState where
  parts : PartState
  usbThread : Nat → ThreadEntry
  workers : List Worker

def QueryState.init : QueryState := ⟨PartState.init true, fun _ => ⟨false, .zero, none⟩, []⟩

def QueryState.setEntry (s : QueryState) (d : Nat) (entry : ThreadEntry) : QueryState :=
  { s with usbThread := fun i => if i = d then entry else s.usbThread i }

def QueryState.setStat (s : QueryState) (d : Nat) (stat : MntUsbState) : QueryState :=
  s.setEntry d { s.usbThread d with detectStat := stat }

def QueryState.setPhase (s : QueryState) (k : Nat) (w : Worker) (phase : Phase w.nDiskId) :
    QueryState :=
  { s with workers := s.workers.set k { w with phase := phase } }

/-- The worker's bookkeeping after mnt_usb_detect_partition has returned. -/
def QueryState.endPass (s : QueryState) (k : Nat) (w : Worker) (eError : ErrorNum) : QueryState :=
  let flag := w.flag || eError = .ok
  let time := if eError = .ok then 3 * 1000 * 1000 else w.time
  let one := if time = 1000 * 1000 then wrapInt (w.oneCounts + 1) else w.oneCounts
  let five := if time = 3 * 1000 * 1000 then wrapInt (w.fiveCounts + 1) else w.fiveCounts
  let stat := if w.flag then (s.usbThread w.nDiskId).detectStat
    else if eError = .ok then .rest else .query
  let stat := if wrapInt (one + wrapInt (five * 3)) ≥ 90 ∧ flag = false then .timeout else stat
  let s := s.setStat w.nDiskId stat
  { s with workers := s.workers.set k ⟨w.nDiskId, .test, w.cancelled, flag, time, one, five⟩ }

inductive Move where
  | enter
  | test
  | wake
  | noName
  | mountLog (eError : ErrorNum)
  | gather (r : PartitionInfo)
  /-- The end of the loop, with the records of the array that it has not filled. -/
  | gathered (rest : List PartitionInfo)
  | insert
  | die

inductive QueryEvent where
  | add (d : Nat)
  | rm (d : Nat)
  | work (k : Nat) (move : Move)

def handleAdd (d : Nat) (s : QueryState) : QueryState :=
  { s.setEntry d ⟨true, .plugIn, some s.workers.length⟩ with
    workers := s.workers ++ [Worker.start d] }

def requestCancel (tid : Option Nat) (workers : List Worker) : List Worker :=
  match tid with
  | none => workers
  | some k => workers.modify k fun w => { w with cancelled := true }

def handleRm (d : Nat) (s : QueryState) : Option QueryState :=
  (mntUsbDeletePartitionsFromList d s.parts).map fun r =>
    { s.setEntry d { s.usbThread d with nRunState := false, detectStat := .plugOut } with
      parts := r.2
      workers := requestCancel (s.usbThread d).tid s.workers }

def workerMove (s : QueryState) (k : Nat) (w : Worker) (move : Move) : Option QueryState :=
  match move, w.phase with
  | .enter, .entry => some ((s.setStat w.nDiskId .plugIn).setPhase k w .test)
  | .test, .test =>
      some (s.setPhase k w (if (s.usbThread w.nDiskId).nRunState then .sleep else .done))
  | .wake, .sleep => if w.cancelled then some s else some (s.setPhase k w .lookup)
  | .noName, .lookup => some (s.endPass k w .errorFailed)
  | .mountLog eError, .lookup =>
      if w.cancelled then some s
      else
        let stat := (s.usbThread w.nDiskId).detectStat
        let s := s.setStat w.nDiskId (if stat = .plugIn then .zero else stat)
        if eError = .ok then some (s.setPhase k w (.gather (Batch.empty w.nDiskId)))
        else some (s.endPass k w eError)
  | .gather r, .gather batch =>
      if h : r.nUSBDiskId = w.nDiskId ∧ ∀ x ∈ batch.records, x.nPatitionId < r.nPatitionId then
        some (s.setPhase k w (.gather (batch.add r h.1 h.2)))
      else some s
  | .gathered rest, .gather batch =>
      if h : batch.records ++ rest = [] then some s
      else some (s.setPhase k w (.insert (batch.records ++ rest) h))
  | .insert, .insert psTmpPartition _ =>
      (mntUsbInsertPartitionList (some psTmpPartition) psTmpPartition.length s.parts).map fun r =>
        { s with parts := r.2 }.endPass k w r.1
  | .die, .sleep | .die, .lookup | .die, .gather _ =>
      if w.cancelled then some (s.setPhase k w .done) else some s
  | _, _ => some s

def queryStep (s : QueryState) : QueryEvent → Option QueryState
  | .add d => some (handleAdd d s)
  | .rm d => handleRm d s
  | .work k move =>
      match s.workers[k]? with
      | none => some s
      | some w => workerMove s k w move

def removedStep (d : Nat) (gone : Bool) : QueryEvent → Bool
  | .add i => if i = d then false else gone
  | .rm i => if i = d then true else gone
  | .work _ _ => gone

/-- Whether the removal of the disk has been handled, and no announcement since then. -/
def removed (d : Nat) (es : List QueryEvent) : Bool := es.foldl (removedStep d) false

/-- After every handled removal and until the next announcement of the same disk, the list
    has no record of that disk, at each point of the run. -/
def NoneOutlivesDisk (es : List QueryEvent) : Prop :=
  ∀ p s, p <+: es → exec queryStep QueryState.init p = some s →
    ∃ nodes, Holds s.parts.heap s.parts.sPsPartHead nodes ∧
      ∀ d, removed d p = true → ∀ n ∈ nodes, n.2.nUSBDiskId ≠ d

/-- No worker inserts a record of a removed disk, neither a gathered one nor one that the
    memory of its array has held before. -/
def InsertsUnremoved (es : List QueryEvent) : Prop :=
  ∀ p k s w array nonempty, p ++ [.work k .insert] <+: es →
    exec queryStep QueryState.init p = some s → s.workers[k]? = some w →
    w.phase = .insert array nonempty → ∀ r ∈ array, removed r.nUSBDiskId p = false

structure Tracked where
  state : QueryState
  gone : Nat → Bool

def Tracked.init : Tracked := ⟨QueryState.init, fun _ => false⟩

def trackStep (s : Tracked) (e : QueryEvent) : Option Tracked :=
  (queryStep s.state e).map fun t => ⟨t, fun d => removedStep d (s.gone d) e⟩

def ListsUnremoved (s : Tracked) : Prop :=
  ∃ nodes, Holds s.state.parts.heap s.state.parts.sPsPartHead nodes ∧
    ∀ d, s.gone d = true → ∀ n ∈ nodes, n.2.nUSBDiskId ≠ d

def UnremovedAt (s : Tracked) : QueryEvent → Prop
  | .work k .insert => ∀ w array nonempty, s.state.workers[k]? = some w →
      w.phase = .insert array nonempty → ∀ r ∈ array, s.gone r.nUSBDiskId = false
  | _ => True

structure Clean (s : Tracked) (nodes : List (Nat × PartitionInfo)) : Prop where
  keeps : Keeps s.state.parts nodes
  none : ∀ d, s.gone d = true → ∀ n ∈ nodes, n.2.nUSBDiskId ≠ d

structure Quiet (s t : QueryState) : Prop where
  parts : t.parts = s.parts
  running : ∀ d, (t.usbThread d).nRunState = (s.usbThread d).nRunState

theorem quiet_refl (s : QueryState) : Quiet s s := ⟨rfl, fun _ => rfl⟩

theorem quiet_trans {s t u : QueryState} (first : Quiet s t) (second : Quiet t u) : Quiet s u :=
  ⟨second.parts.trans first.parts, fun d => (second.running d).trans (first.running d)⟩

theorem quiet_setStat (s : QueryState) (d : Nat) (stat : MntUsbState) :
    Quiet s (s.setStat d stat) := by
  refine ⟨rfl, ?_⟩
  intro i
  by_cases same : i = d
  · simp [QueryState.setStat, QueryState.setEntry, same]
  · simp [QueryState.setStat, QueryState.setEntry, same]

theorem quiet_setPhase (s : QueryState) (k : Nat) (w : Worker) (phase : Phase w.nDiskId) :
    Quiet s (s.setPhase k w phase) := ⟨rfl, fun _ => rfl⟩

theorem quiet_endPass (s : QueryState) (k : Nat) (w : Worker) (eError : ErrorNum) :
    Quiet s (s.endPass k w eError) := by
  unfold QueryState.endPass
  exact ⟨rfl, (quiet_setStat s w.nDiskId _).running⟩

theorem workerMove_quiet (s : QueryState) (k : Nat) (w : Worker) {move : Move}
    (other : ∀ array nonempty, ¬ (move = .insert ∧ w.phase = .insert array nonempty)) :
    ∃ t, workerMove s k w move = some t ∧ Quiet s t := by
  unfold workerMove
  split
  · exact ⟨_, rfl, quiet_trans (quiet_setStat _ _ _) (quiet_setPhase _ _ _ _)⟩
  · exact ⟨_, rfl, quiet_setPhase _ _ _ _⟩
  · split
    · exact ⟨s, rfl, quiet_refl s⟩
    · exact ⟨_, rfl, quiet_setPhase _ _ _ _⟩
  · exact ⟨_, rfl, quiet_endPass _ _ _ _⟩
  · split
    · exact ⟨s, rfl, quiet_refl s⟩
    · dsimp only
      split
      · exact ⟨_, rfl, quiet_trans (quiet_setStat _ _ _) (quiet_setPhase _ _ _ _)⟩
      · exact ⟨_, rfl, quiet_trans (quiet_setStat _ _ _) (quiet_endPass _ _ _ _)⟩
  · split
    · exact ⟨_, rfl, quiet_setPhase _ _ _ _⟩
    · exact ⟨s, rfl, quiet_refl s⟩
  · split
    · exact ⟨s, rfl, quiet_refl s⟩
    · exact ⟨_, rfl, quiet_setPhase _ _ _ _⟩
  · rename_i array nonempty phase
    exact absurd ⟨rfl, phase⟩ (other array nonempty)
  · split
    · exact ⟨_, rfl, quiet_setPhase _ _ _ _⟩
    · exact ⟨s, rfl, quiet_refl s⟩
  · split
    · exact ⟨_, rfl, quiet_setPhase _ _ _ _⟩
    · exact ⟨s, rfl, quiet_refl s⟩
  · split
    · exact ⟨_, rfl, quiet_setPhase _ _ _ _⟩
    · exact ⟨s, rfl, quiet_refl s⟩
  · exact ⟨s, rfl, quiet_refl s⟩

theorem workerMove_builds {s t : QueryState} {k : Nat} {w : Worker} {move : Move} {P : QueryState → Prop}
    (parts : ∀ t p, P t → P { t with parts := p })
    (stat : ∀ t st, P t → P (t.setStat w.nDiskId st))
    (phase : ∀ t ph, P t → P (t.setPhase k w ph))
    (pass : ∀ t e, P t → P (t.endPass k w e))
    (start : P s) (step : workerMove s k w move = some t) : P t := by
  unfold workerMove at step
  split at step
  · cases step
    exact phase _ _ (stat _ _ start)
  · cases step
    exact phase _ _ start
  · split at step <;> cases step
    · exact start
    · exact phase _ _ start
  · cases step
    exact pass _ _ start
  · dsimp only at step
    split at step
    · cases step
      exact start
    · split at step <;> cases step
      · exact phase _ _ (stat _ _ start)
      · exact pass _ _ (stat _ _ start)
  · split at step <;> cases step
    · exact phase _ _ start
    · exact start
  · split at step <;> cases step
    · exact start
    · exact phase _ _ start
  · obtain ⟨r, _, rfl⟩ := Option.map_eq_some_iff.mp step
    exact pass _ _ (parts _ _ start)
  all_goals
    first
      | (cases step; exact start)
      | (split at step <;> cases step
         · exact phase _ _ start
         · exact start)

theorem exec_track (es : List QueryEvent) (s : QueryState) (gone : Nat → Bool) :
    exec trackStep ⟨s, gone⟩ es =
      (exec queryStep s es).map fun t => ⟨t, fun d => es.foldl (removedStep d) (gone d)⟩ := by
  induction es generalizing s gone with
  | nil => rfl
  | cons e es ih =>
    simp only [exec, trackStep]
    cases queryStep s e with
    | none => rfl
    | some t => exact ih t _

theorem tracked_run {p : List QueryEvent} {t : Tracked} :
    exec trackStep Tracked.init p = some t ↔
      exec queryStep QueryState.init p = some t.state ∧ t.gone = fun d => removed d p := by
  rw [Tracked.init, exec_track, Option.map_eq_some_iff]
  constructor
  · rintro ⟨s, run, rfl⟩
    exact ⟨run, rfl⟩
  · rintro ⟨run, same⟩
    obtain ⟨state, gone⟩ := t
    dsimp only at run same
    subst same
    exact ⟨state, run, rfl⟩

theorem outlives_iff_always (es : List QueryEvent) :
    NoneOutlivesDisk es ↔ Always trackStep ListsUnremoved Tracked.init es := by
  rw [always_iff_prefixes]
  constructor
  · intro none p t part run
    obtain ⟨ends, same⟩ := tracked_run.mp run
    obtain ⟨nodes, holds, gone⟩ := none p t.state part ends
    refine ⟨nodes, holds, ?_⟩
    intro d
    rw [same]
    exact gone d
  · intro lists p s part run
    exact lists p ⟨s, fun d => removed d p⟩ part (tracked_run.mpr ⟨run, rfl⟩)

theorem inserts_iff_meets (es : List QueryEvent) :
    InsertsUnremoved es ↔ Meets trackStep UnremovedAt Tracked.init es := by
  rw [meets_iff_prefixes]
  constructor
  · intro inserts p e t part run
    obtain ⟨ends, same⟩ := tracked_run.mp run
    cases e with
    | add d => trivial
    | rm d => trivial
    | work k move =>
      cases move with
      | insert =>
        intro w array nonempty get phase r mem
        rw [same]
        exact inserts p k t.state w array nonempty part ends get phase r mem
      | _ => trivial
  · intro meets p k s w array nonempty part run get phase
    exact meets p (.work k .insert) ⟨s, fun d => removed d p⟩ part (tracked_run.mpr ⟨run, rfl⟩)
      w array nonempty get phase

section Steps
variable {s : Tracked} {nodes : List (Nat × PartitionInfo)}

theorem clean_quiet {t : Tracked} (clean : Clean s nodes) (quiet : Quiet s.state t.state)
    (fewer : ∀ d, t.gone d = true → s.gone d = true) : Clean t nodes := by
  refine ⟨?_, fun d gone => clean.none d (fewer d gone)⟩
  rw [quiet.parts]
  exact clean.keeps

theorem clean_add (clean : Clean s nodes) (d : Nat) :
    ∃ t, trackStep s (.add d) = some t ∧ Clean t nodes := by
  refine ⟨_, rfl, clean.keeps, ?_⟩
  intro i gone
  by_cases same : d = i
  · simp [removedStep, same] at gone
  · simp only [removedStep, same, ↓reduceIte] at gone
    exact clean.none i gone

theorem clean_rm (clean : Clean s nodes) (d : Nat) :
    ∃ t m, trackStep s (.rm d) = some t ∧ Clean t m := by
  obtain ⟨parts, run, keeps⟩ := delete_runs d clean.keeps
  obtain ⟨u, handled, same⟩ : ∃ u, handleRm d s.state = some u ∧ u.parts = parts :=
    ⟨_, by rw [handleRm, run, Option.map_some], rfl⟩
  refine ⟨⟨u, fun i => removedStep i (s.gone i) (.rm d)⟩, nodes.filter fun n => n.2.nUSBDiskId ≠ d,
    ?_, ?_, ?_⟩
  · simp only [trackStep, queryStep, handled, Option.map_some]
  · rw [same]
    exact keeps
  intro i gone n mem
  obtain ⟨old, other⟩ := List.mem_filter.mp mem
  by_cases same : d = i
  · simpa [← same] using other
  · simp only [removedStep, same, ↓reduceIte] at gone
    exact clean.none i gone n old

/-- An insertion leaves a record of each disk of the array, and none of another one is new. -/
theorem insert_effect (clean : Clean s nodes) {k : Nat} {w : Worker} {array : List PartitionInfo}
    {nonempty : array ≠ []} (get : s.state.workers[k]? = some w)
    (phase : w.phase = .insert array nonempty) :
    ∃ t m, trackStep s (.work k .insert) = some t ∧ t.gone = s.gone ∧ Keeps t.state.parts m ∧
      (∀ n ∈ m, n.2 ∈ records nodes ∨ n.2 ∈ array) ∧
      ∀ r ∈ array, ∃ n ∈ m, n.2.nUSBDiskId = r.nUSBDiskId := by
  obtain ⟨parts, m, run, keeps, members, stored⟩ := insert_members array nonempty clean.keeps
  have quiet := quiet_endPass { s.state with parts := parts } k w .ok
  refine ⟨⟨{ s.state with parts := parts }.endPass k w .ok, s.gone⟩, m, ?_, rfl, ?_, ?_, ?_⟩
  · simp only [trackStep, queryStep, get, workerMove, phase, run, Option.map_some]
    rfl
  · rw [quiet.parts]
    exact keeps
  · intro n mem
    exact members n.2 (List.mem_map_of_mem mem)
  · intro r mem
    obtain ⟨x, listed, same⟩ := stored r mem
    obtain ⟨n, member, rfl⟩ := List.mem_map.mp listed
    exact ⟨n, member, congrArg Prod.fst same⟩

/-- Every step is an insertion into the list or keeps it clean. -/
theorem query_step_cases (clean : Clean s nodes) (e : QueryEvent) :
    (∃ k w array nonempty, e = .work k .insert ∧ s.state.workers[k]? = some w ∧
      w.phase = .insert array nonempty) ∨
    UnremovedAt s e ∧ ∃ t m, trackStep s e = some t ∧ Clean t m := by
  cases e with
  | add d =>
    obtain ⟨t, step, next⟩ := clean_add clean d
    exact .inr ⟨trivial, t, nodes, step, next⟩
  | rm d => exact .inr ⟨trivial, clean_rm clean d⟩
  | work k move =>
    cases get : s.state.workers[k]? with
    | none =>
      refine .inr ⟨?_, s, nodes, ?_, clean⟩
      · cases move <;> simp [UnremovedAt, get]
      · simp only [trackStep, queryStep, get, Option.map_some]
        rfl
    | some w =>
      by_cases insert : ∃ array nonempty, move = .insert ∧ w.phase = .insert array nonempty
      · obtain ⟨array, nonempty, rfl, phase⟩ := insert
        exact .inl ⟨k, w, array, nonempty, rfl, get, phase⟩
      · have other : ∀ array nonempty, ¬ (move = .insert ∧ w.phase = .insert array nonempty) :=
          fun array nonempty both => insert ⟨array, nonempty, both⟩
        obtain ⟨t, run, quiet⟩ := workerMove_quiet s.state k w other
        refine .inr ⟨?_, ⟨t, s.gone⟩, nodes, ?_, clean_quiet clean quiet fun _ gone => gone⟩
        · cases move with
          | insert =>
            intro v array nonempty found phase
            rw [get] at found
            cases found
            exact absurd ⟨rfl, phase⟩ (other array nonempty)
          | _ => trivial
        · simp only [trackStep, queryStep, get, run, Option.map_some]
          rfl

end Steps

theorem clean_step (s : Tracked) (e : QueryEvent) (clean : ∃ nodes, Clean s nodes)
    (met : UnremovedAt s e) : ∃ t, trackStep s e = some t ∧ ∃ nodes, Clean t nodes := by
  obtain ⟨nodes, clean⟩ := clean
  rcases query_step_cases clean e with ⟨k, w, array, nonempty, rfl, get, phase⟩ | ⟨_, t, m, run, next⟩
  · obtain ⟨t, m, run, same, keeps, members, _⟩ := insert_effect clean get phase
    refine ⟨t, run, m, keeps, ?_⟩
    intro d gone n mem own
    rw [same] at gone
    rcases members n mem with old | new
    · obtain ⟨x, listed, eq⟩ := List.mem_map.mp old
      exact clean.none d gone x listed (eq ▸ own)
    · have there := met w array nonempty get phase n.2 new
      rw [own, gone] at there
      cases there
  · exact ⟨t, run, m, next⟩

theorem removed_step (s : Tracked) (e : QueryEvent) (clean : ∃ nodes, Clean s nodes)
    (unmet : ¬ UnremovedAt s e) : ∃ t, trackStep s e = some t ∧ ¬ ListsUnremoved t := by
  obtain ⟨nodes, clean⟩ := clean
  rcases query_step_cases clean e with ⟨k, w, array, nonempty, rfl, get, phase⟩ | ⟨met, _⟩
  · obtain ⟨t, m, run, same, keeps, _, stored⟩ := insert_effect clean get phase
    obtain ⟨r, listed, gone⟩ : ∃ r ∈ array, s.gone r.nUSBDiskId = true := by
      by_contra none
      apply unmet
      intro v array' nonempty' found shape r mem
      rw [get] at found
      cases found
      rw [phase] at shape
      cases shape
      by_contra gone
      exact none ⟨r, mem, by simpa using gone⟩
    obtain ⟨n, mem, own⟩ := stored r listed
    refine ⟨t, run, ?_⟩
    rintro ⟨nodes', holds, none⟩
    have unique := holds_unique holds keeps.holds
    subst unique
    exact none r.nUSBDiskId (by rw [same]; exact gone) n mem own
  · exact absurd met unmet

/-- Along every interleaving no record outlives its disk exactly when no worker inserts a
    record of a removed disk. -/
theorem none_outlives_disk_iff (es : List QueryEvent) : NoneOutlivesDisk es ↔ InsertsUnremoved es := by
  have start : ∃ nodes, Clean Tracked.init nodes :=
    ⟨[], ⟨holds_empty true, rfl, rfl⟩, by simp⟩
  rw [outlives_iff_always, inserts_iff_meets]
  apply always_iff_meets (I := fun s => ∃ nodes, Clean s nodes) _ clean_step removed_step start
  rintro s ⟨nodes, clean⟩
  exact ⟨nodes, clean.keeps.holds, clean.none⟩

/-- The disk is announced, its worker gathers one record, and the removal is handled
    before the worker inserts it. -/
def lateInsert : List QueryEvent :=
  [.add 1, .work 0 .enter, .work 0 .test, .work 0 .wake, .work 0 (.mountLog .ok),
   .work 0 (.gather (record 1 1)), .work 0 (.gathered []), .rm 1]

theorem late_insert_outlives_disk : ¬ NoneOutlivesDisk (lateInsert ++ [.work 0 .insert]) := by
  rw [outlives_iff_always]
  intro always
  obtain ⟨s, run, clean, late⟩ : ∃ s, exec trackStep Tracked.init lateInsert = some s ∧
      Clean s [] ∧ ¬ UnremovedAt s (.work 0 .insert) := by
    refine ⟨_, rfl, ⟨⟨holds_empty true, rfl, rfl⟩, by simp⟩, ?_⟩
    intro met
    have there := met _ _ _ rfl rfl (record 1 1) (by simp [Batch.add, Batch.empty])
    cases there
  obtain ⟨t, step, broken⟩ := removed_step s _ ⟨[], clean⟩ late
  exact broken ((always_append always run).2 t step)

end TestSource
