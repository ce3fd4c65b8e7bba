import TestSource.DetectPartition

/- xl_usb_mng.c: the passes of the query worker of a single plugged disk. Each pass sees its
   own mount table; the device nodes of the disk stay. -/
namespace TestSource
open LinkedHeap OrderedMap Runs

def queryPass (z : WordSize) (disk : PluggedDisk) (s : PassState) (view : PassView) :
    Option PassState := do
  let w ← s.query.workers[0]?
  if (s.query.usbThread disk.nDiskId).nRunState then do
    let r ← mntUsbDetectPartition z disk view s
    some ⟨r.2.query.endPass 0 w r.1, r.2.statics⟩
  else some s

def PassState.start (disk : PluggedDisk) (statics : MountStatics) : PassState :=
  ⟨((handleAdd disk.nDiskId QueryState.init).setStat disk.nDiskId .plugIn).setPhase 0
    (Worker.start disk.nDiskId) .test, statics⟩

structure PassRun where
  state : PassState
  seen : List MountEntry

def PassRun.start (disk : PluggedDisk) (statics : MountStatics) : PassRun :=
  ⟨PassState.start disk statics, []⟩

def passStep (z : WordSize) (disk : PluggedDisk) (r : PassRun) (view : PassView) : Option PassRun :=
  (queryPass z disk r.state view).map fun t => ⟨t, view.table⟩

/-- Every record of the disk shows what the table of the last pass says. -/
def FollowsTable (disk : PluggedDisk) (r : PassRun) : Prop :=
  ∃ nodes, Holds r.state.query.parts.heap r.state.query.parts.sPsPartHead nodes ∧
    ∀ n ∈ nodes, n.2.nUSBDiskId = disk.nDiskId → ShowsMount r.seen n.2

/-- The pass looks at the log, or nothing is recorded yet, or all partitions are mounted
    as at the pass before. -/
def Notices (z : WordSize) (disk : PluggedDisk) (r : PassRun) (view : PassView) : Prop :=
  Looks z disk r.state view ∨ r.state.query.parts.sPsPartHead = 0 ∨
    ∀ i < 64, disk.hasNode i = true →
      mountPoint view.table (partPath disk.szDiskName i) =
        mountPoint r.seen (partPath disk.szDiskName i)

/-- What a run of passes keeps: the list is empty or has one record for each partition,
    and every record shows the table of the last pass. -/
structure UpToDate (disk : PluggedDisk) (r : PassRun) (nodes : List (Nat × PartitionInfo)) : Prop where
  keeps : Keeps r.state.query.parts nodes
  complete : nodes = [] ∨ (records nodes).map PartitionInfo.nPatitionId = present disk
  gathered : ∀ x ∈ records nodes, Gathered disk r.seen x

structure Working (disk : PluggedDisk) (r : PassRun) : Prop where
  worker : ∃ w, r.state.query.workers[0]? = some w ∧ w.nDiskId = disk.nDiskId
  running : (r.state.query.usbThread disk.nDiskId).nRunState = true

theorem endPass_worker {s : QueryState} {w : Worker} {k : Nat} (get : s.workers[k]? = some w)
    (eError : ErrorNum) :
    ∃ v, (s.endPass k w eError).workers[k]? = some v ∧ v.nDiskId = w.nDiskId := by
  obtain ⟨inside, _⟩ := List.getElem?_eq_some_iff.mp get
  unfold QueryState.endPass
  refine ⟨_, List.getElem?_set_self inside, rfl⟩

theorem logged_running (s : QueryState) (d : Nat) :
    ((s.logged d).usbThread d).nRunState = (s.usbThread d).nRunState :=
  (quiet_setStat s d _).running d

section Steps
variable {z : WordSize} {disk : PluggedDisk} {r : PassRun} {view : PassView}
variable {nodes : List (Nat × PartitionInfo)}

theorem pass_ends (working : Working disk r) {eError : ErrorNum} {t : PassState}
    (detect : mntUsbDetectPartition z disk view r.state = some (eError, t))
    (workers : t.query.workers = r.state.query.workers)
    (running : (t.query.usbThread disk.nDiskId).nRunState =
      (r.state.query.usbThread disk.nDiskId).nRunState) :
    ∃ u, passStep z disk r view = some u ∧ u.seen = view.table ∧
      u.state.query.parts = t.query.parts ∧ Working disk u := by
  obtain ⟨⟨w, get, own⟩, runs⟩ := working
  have quiet := quiet_endPass t.query 0 w eError
  rw [← workers] at get
  obtain ⟨v, next, same⟩ := endPass_worker get eError
  refine ⟨⟨⟨t.query.endPass 0 w eError, t.statics⟩, view.table⟩, ?_, rfl, quiet.parts,
    ⟨v, next, same.trans own⟩, ?_⟩
  · rw [workers] at get
    simp [passStep, queryPass, get, runs, detect]
  · rw [quiet.running, running, runs]

theorem pass_skips (working : Working disk r) (nothing : ¬ Looks z disk r.state view ∨ present disk = []) :
    ∃ u, passStep z disk r view = some u ∧ u.seen = view.table ∧
      u.state.query.parts = r.state.query.parts ∧ Working disk u := by
  obtain ⟨statics, detect⟩ := detect_skips nothing
  apply pass_ends working detect rfl
  exact logged_running r.state.query disk.nDiskId

theorem batch_keys {batch : List PartitionInfo} {table : List MountEntry}
    (gathered : ∀ x ∈ batch, Gathered disk table x) :
    batch.map PartitionInfo.key = (batch.map PartitionInfo.nPatitionId).map fun i => (disk.nDiskId, i) := by
  rw [List.map_map]
  apply List.map_congr_left
  intro x mem
  simp [PartitionInfo.key, (gathered x mem).own]

theorem present_rising (disk : PluggedDisk) : (present disk).Pairwise (· < ·) := by
  unfold present
  split
  · exact List.pairwise_lt_range.filter _
  · exact List.Pairwise.nil

theorem keys_distinct {batch : List PartitionInfo} {table : List MountEntry}
    (gathered : ∀ x ∈ batch, Gathered disk table x)
    (indices : batch.map PartitionInfo.nPatitionId = present disk) :
    (batch.map PartitionInfo.key).Nodup := by
  have distinct : (present disk).Nodup := (present_rising disk).imp Nat.ne_of_lt
  rw [batch_keys gathered, indices]
  exact distinct.map fun i j same => by simpa using same

/-- A pass that looks and has partitions to record leaves a record for each of them that
    shows its own table. -/
theorem pass_records (current : UpToDate disk r nodes)
    (working : Working disk r) (looks : Looks z disk r.state view) (there : present disk ≠ [])
    (fits : ∀ e ∈ grepTable disk.szDiskName view.table, e.Fits) :
    ∃ u m, passStep z disk r view = some u ∧ UpToDate disk u m ∧ Working disk u := by
  obtain ⟨statics, batch, nonempty, indices, gathered, detect⟩ := detect_records looks there fits
  have distinct := keys_distinct gathered indices
  obtain ⟨t, m, run, keeps, same, _⟩ := insert_runs batch nonempty distinct current.keeps
  rw [run, Option.map_some] at detect
  obtain ⟨u, step, seen, parts, works⟩ := pass_ends working detect rfl
    (logged_running r.state.query disk.nDiskId)
  have stored : records m = batch := by
    rw [same]
    rcases current.complete with empty | complete
    · rw [empty]
      exact storeAll_new (l := []) (by simp) distinct
    · have keys : (records nodes).map PartitionInfo.key = batch.map PartitionInfo.key := by
        rw [batch_keys gathered, batch_keys current.gathered, indices, complete]
      exact storeAll_refresh [] keys distinct
  refine ⟨u, m, step, ⟨?_, ?_, ?_⟩, works⟩
  · rw [parts]
    exact keeps
  · rw [stored]
    exact .inr indices
  · rw [stored, seen]
    exact gathered

theorem follows_of_upToDate (current : UpToDate disk r nodes) :
    FollowsTable disk r := by
  refine ⟨nodes, current.keeps.holds, ?_⟩
  intro n listed _
  exact (current.gathered n.2 (List.mem_map_of_mem listed)).shows

theorem upToDate_skipped (current : UpToDate disk r nodes)
    {u : PassRun} (seen : u.seen = view.table)
    (parts : u.state.query.parts = r.state.query.parts)
    (same : ∀ x ∈ records nodes, mountPoint view.table x.szPartName = mountPoint r.seen x.szPartName) :
    UpToDate disk u nodes := by
  constructor
  · rw [parts]
    exact current.keeps
  · exact current.complete
  · intro x mem
    have old := current.gathered x mem
    rw [seen]
    exact ⟨old.own, old.name, (shows_same_iff old.shows).mpr (same x mem)⟩

/-- A pass that skips keeps the records, so they show its table exactly when it has all
    partitions mounted as before. -/
theorem skipped_follows_iff (current : UpToDate disk r nodes)
    {u : PassRun} (seen : u.seen = view.table)
    (parts : u.state.query.parts = r.state.query.parts) :
    FollowsTable disk u ↔ ∀ x ∈ records nodes,
      mountPoint view.table x.szPartName = mountPoint r.seen x.szPartName := by
  have holds := current.keeps.holds
  rw [← parts] at holds
  constructor
  · rintro ⟨other, stored, shows⟩ x mem
    have same := holds_unique stored holds
    subst same
    obtain ⟨n, listed, rfl⟩ := List.mem_map.mp mem
    have mine := current.gathered n.2 mem
    have shown := shows n listed mine.own
    rw [seen] at shown
    exact (shows_same_iff mine.shows).mp shown
  · intro same
    exact follows_of_upToDate (upToDate_skipped current seen parts same)

theorem upToDate_start (disk : PluggedDisk) (statics : MountStatics) :
    UpToDate disk (PassRun.start disk statics) [] ∧ Working disk (PassRun.start disk statics) := by
  refine ⟨⟨⟨holds_empty true, rfl, rfl⟩, .inl rfl, by simp [records]⟩, ⟨_, rfl, rfl⟩, ?_⟩
  simp [PassRun.start, PassState.start, handleAdd, QueryState.setStat, QueryState.setEntry,
    QueryState.setPhase]

theorem present_node {i : Nat} (mem : i ∈ present disk) : i < 64 ∧ disk.hasNode i = true := by
  unfold present at mem
  split at mem
  · simpa using mem
  · cases mem

theorem unchanged_iff (current : UpToDate disk r nodes)
    (table : List MountEntry) :
    (∀ x ∈ records nodes, mountPoint table x.szPartName = mountPoint r.seen x.szPartName) ↔
    r.state.query.parts.sPsPartHead = 0 ∨ ∀ i < 64, disk.hasNode i = true →
      mountPoint table (partPath disk.szDiskName i) =
        mountPoint r.seen (partPath disk.szDiskName i) := by
  rw [holds_entry_zero current.keeps.holds]
  rcases current.complete with empty | complete
  · simp [empty, records]
  · constructor
    · intro same
      by_cases none : present disk = []
      · left
        simpa [none, records] using complete
      · right
        intro i low there
        have dir := opendir_of_present none
        have mem : i ∈ present disk := by simp [present, dir, low, there]
        rw [← complete] at mem
        obtain ⟨x, listed, rfl⟩ := List.mem_map.mp mem
        rw [← (current.gathered x listed).name]
        exact same x listed
    · rintro (empty | same) x listed
      · simp [empty, records] at listed
      · have mem : x.nPatitionId ∈ present disk := by
          rw [← complete]
          exact List.mem_map_of_mem listed
        obtain ⟨low, there⟩ := present_node mem
        rw [(current.gathered x listed).name]
        exact same x.nPatitionId low there

/-- A pass that notices keeps every record in step with the table. -/
theorem noticed_step (current : UpToDate disk r nodes)
    (working : Working disk r) (fits : ∀ e ∈ grepTable disk.szDiskName view.table, e.Fits)
    (notices : Notices z disk r view) :
    ∃ u, passStep z disk r view = some u ∧ ∃ m, UpToDate disk u m ∧ Working disk u := by
  by_cases none : present disk = []
  · have nothing : ¬ Looks z disk r.state view ∨ present disk = [] := .inr none
    obtain ⟨u, step, seen, parts, works⟩ := pass_skips working nothing
    refine ⟨u, step, nodes, upToDate_skipped current seen parts ?_, works⟩
    intro x listed
    rcases current.complete with empty | complete
    · simp [empty, records] at listed
    · simp only [none, List.map_eq_nil_iff] at complete
      simp [complete] at listed
  · by_cases looks : Looks z disk r.state view
    · obtain ⟨u, m, step, next, works⟩ := pass_records current working looks none fits
      exact ⟨u, step, m, next, works⟩
    · obtain ⟨u, step, seen, parts, works⟩ := pass_skips working (.inl looks)
      have same := (unchanged_iff current view.table).mpr (notices.resolve_left looks)
      exact ⟨u, step, nodes, upToDate_skipped current seen parts same, works⟩

/-- A pass that does not notice leaves a record that its table contradicts. -/
theorem unnoticed_step (current : UpToDate disk r nodes)
    (working : Working disk r) (missed : ¬ Notices z disk r view) :
    ∃ u, passStep z disk r view = some u ∧ ¬ FollowsTable disk u := by
  obtain ⟨skips, changed⟩ := not_or.mp missed
  obtain ⟨u, step, seen, parts, _⟩ := pass_skips working (.inl skips)
  refine ⟨u, step, ?_⟩
  rw [skipped_follows_iff current seen parts, unchanged_iff current view.table]
  exact changed

end Steps

/-- For mount tables whose lines fit the buffers, the passes of a disk run through and
    leave every record as the table of the pass has it, pass after pass, exactly when every
    pass notices what has changed. -/
theorem list_follows_table_iff (z : WordSize) (disk : PluggedDisk) (statics : MountStatics)
    (views : List PassView)
    (fits : ∀ view ∈ views, ∀ e ∈ grepTable disk.szDiskName view.table, e.Fits) :
    ((∃ t, exec (passStep z disk) (PassRun.start disk statics) views = some t) ∧
      Always (passStep z disk) (FollowsTable disk) (PassRun.start disk statics) views) ↔
    Meets (passStep z disk) (Notices z disk) (PassRun.start disk statics) views := by
  have holds : ∀ r, (∃ nodes, UpToDate disk r nodes ∧ Working disk r) → FollowsTable disk r := by
    rintro r ⟨nodes, current, _⟩
    exact follows_of_upToDate current
  have start : ∃ nodes, UpToDate disk (PassRun.start disk statics) nodes ∧
      Working disk (PassRun.start disk statics) := ⟨[], upToDate_start disk statics⟩
  constructor
  · rintro ⟨_, always⟩
    apply (always_iff_meets_on (fun view => ∀ e ∈ grepTable disk.szDiskName view.table, e.Fits)
      holds _ _ start fits).mp always
    · rintro r view fit ⟨nodes, current, working⟩ notices
      exact noticed_step current working fit notices
    · rintro r view _ ⟨nodes, current, working⟩ missed
      exact unnoticed_step current working missed
  · intro meets
    apply meets_always holds _ start (meets_legal fits meets)
    rintro r view ⟨nodes, current, working⟩ ⟨fit, notices⟩
    exact noticed_step current working fit notices

section Moves

def move0 (q : QueryState) (move : Move) : Option QueryState := queryStep q (.work 0 move)

def QueryState.setWorker (q : QueryState) (w : Worker) : QueryState :=
  { q with workers := q.workers.set 0 w }

structure Idle (disk : PluggedDisk) (q : QueryState) (w : Worker) : Prop where
  get : q.workers[0]? = some w
  own : w.nDiskId = disk.nDiskId
  phase : w.phase = .test
  awake : w.cancelled = false
  running : (q.usbThread w.nDiskId).nRunState = true

variable {q : QueryState} {w : Worker}

theorem move_setWorker (inside : 0 < q.workers.length) (w : Worker) (move : Move) :
    move0 (q.setWorker w) move = workerMove (q.setWorker w) 0 w move := by
  simp [move0, queryStep, QueryState.setWorker, List.getElem?_set_self inside]

theorem setWorker_self (get : q.workers[0]? = some w) : q.setWorker w = q := by
  obtain ⟨inside, same⟩ := List.getElem?_eq_some_iff.mp get
  simp [QueryState.setWorker, ← same]

theorem setPhase_setWorker (v : Worker) (phase : Phase w.nDiskId) :
    (q.setWorker v).setPhase 0 w phase = q.setWorker { w with phase := phase } := by
  simp [QueryState.setPhase, QueryState.setWorker]

theorem endPass_setWorker (phase : Phase w.nDiskId) (eError : ErrorNum) :
    (q.setWorker { w with phase := phase }).endPass 0 { w with phase := phase } eError =
      q.endPass 0 w eError := by
  simp [QueryState.endPass, QueryState.setWorker, QueryState.setStat, QueryState.setEntry]

variable {disk : PluggedDisk}

theorem wake_moves (idle : Idle disk q w) :
    exec move0 q [.test, .wake] = some (q.setWorker { w with phase := .lookup }) := by
  obtain ⟨inside, _⟩ := List.getElem?_eq_some_iff.mp idle.get
  have first : move0 q .test = some (q.setWorker { w with phase := .sleep }) := by
    have step := move_setWorker inside w .test
    rw [setWorker_self idle.get] at step
    rw [step]
    simp only [workerMove, idle.phase, idle.running, ↓reduceIte]
    rfl
  have second : move0 (q.setWorker { w with phase := .sleep }) .wake =
      some (q.setWorker { w with phase := .lookup }) := by
    rw [move_setWorker inside]
    unfold workerMove
    dsimp only
    rw [if_neg (Bool.eq_false_iff.mp idle.awake), setPhase_setWorker]
  simp [exec, first, second]

theorem log_move (idle : Idle disk q w) (eError : ErrorNum) :
    move0 (q.setWorker { w with phase := .lookup }) (.mountLog eError) =
      some (if eError = .ok then
        (q.logged w.nDiskId).setWorker { w with phase := .gather (Batch.empty w.nDiskId) }
      else (q.logged w.nDiskId).endPass 0 w eError) := by
  obtain ⟨inside, _⟩ := List.getElem?_eq_some_iff.mp idle.get
  rw [move_setWorker inside]
  unfold workerMove
  dsimp only
  rw [if_neg (Bool.eq_false_iff.mp idle.awake)]
  -- the stat is set in the table of threads, which the worker is not part of
  change (if eError = .ok then
      some (((q.logged w.nDiskId).setWorker { w with phase := .lookup }).setPhase 0
        { w with phase := .lookup } (.gather (Batch.empty w.nDiskId)))
    else some (((q.logged w.nDiskId).setWorker { w with phase := .lookup }).endPass 0
      { w with phase := .lookup } eError)) = _
  rw [setPhase_setWorker, endPass_setWorker]
  split
  · rfl
  · rfl

theorem gather_moves (inside : 0 < q.workers.length) (rs : List PartitionInfo)
    {b c : Batch w.nDiskId} (all : c.records = b.records ++ rs) :
    exec move0 (q.setWorker { w with phase := .gather b }) (rs.map .gather) =
      some (q.setWorker { w with phase := .gather c }) := by
  induction rs generalizing b with
  | nil =>
    have same : b = c := by
      cases b
      cases c
      simpa using all.symm
    rw [same]
    rfl
  | cons r rs ih =>
    have mine : r.nUSBDiskId = w.nDiskId := c.own r (by simp [all])
    have next : ∀ x ∈ b.records, x.nPatitionId < r.nPatitionId := by
      have rising := c.rising
      rw [all, List.pairwise_map, List.pairwise_append] at rising
      intro x mem
      exact rising.2.2 x mem r (by simp)
    have step : move0 (q.setWorker { w with phase := .gather b }) (.gather r) =
        some (q.setWorker { w with phase := .gather (b.add r mine next) }) := by
      rw [move_setWorker inside]
      simp only [workerMove]
      rw [dif_pos ⟨mine, next⟩, setPhase_setWorker]
    have rest := ih (b := b.add r mine next) (by simp [Batch.add, all])
    simp [exec, step, rest]

theorem insert_moves (inside : 0 < q.workers.length) {b : Batch w.nDiskId} (nonempty : b.records ≠ [])
    {eError : ErrorNum} {parts : PartState}
    (run : mntUsbInsertPartitionList (some b.records) b.records.length q.parts = some (eError, parts)) :
    exec move0 (q.setWorker { w with phase := .gather b }) [.gathered [], .insert] =
      some ({ q with parts := parts }.endPass 0 w eError) := by
  have first : move0 (q.setWorker { w with phase := .gather b }) (.gathered []) =
      some (q.setWorker { w with phase := .insert b.records nonempty }) := by
    have whole : b.records ++ [] = b.records := List.append_nil b.records
    rw [move_setWorker inside]
    unfold workerMove
    dsimp only
    rw [dif_neg (by rw [whole]; exact nonempty), setPhase_setWorker]
    simp only [whole]
  have second : move0 (q.setWorker { w with phase := .insert b.records nonempty }) .insert =
      some ({ q with parts := parts }.endPass 0 w eError) := by
    have parts' : (q.setWorker { w with phase := .insert b.records nonempty }).parts = q.parts := rfl
    rw [move_setWorker inside]
    unfold workerMove
    dsimp only
    rw [parts', run, Option.map_some]
    exact congrArg some (endPass_setWorker (q := { q with parts := parts }) (.insert b.records nonempty) eError)
  simp [exec, first, second]

theorem idle_endPass (idle : Idle disk q w) (t : QueryState) (workers : t.workers = q.workers)
    (running : ∀ d, (t.usbThread d).nRunState = (q.usbThread d).nRunState) (eError : ErrorNum) :
    ∃ v, Idle disk (t.endPass 0 w eError) v := by
  have get := idle.get
  rw [← workers] at get
  obtain ⟨inside, _⟩ := List.getElem?_eq_some_iff.mp get
  have still : ((t.endPass 0 w eError).usbThread w.nDiskId).nRunState = true := by
    rw [(quiet_endPass t 0 w eError).running, running, idle.running]
  exact ⟨_, List.getElem?_set_self inside, idle.own, rfl, idle.awake, still⟩

variable {z : WordSize} {r u : PassRun} {view : PassView}

theorem idle_pass (idle : Idle disk r.state.query w) (step : passStep z disk r view = some u) :
    ∃ eError t, mntUsbDetectPartition z disk view r.state = some (eError, t) ∧
      u.state.query = t.query.endPass 0 w eError := by
  have running := idle.running
  rw [idle.own] at running
  simp only [passStep, queryPass, idle.get, running, Option.bind_eq_bind, Option.bind_some, ↓reduceIte,
    Option.map_eq_some_iff, Option.bind_eq_some_iff] at step
  obtain ⟨_, ⟨⟨eError, t⟩, detect, same⟩, rfl⟩ := step
  cases same
  exact ⟨eError, t, detect, rfl⟩

theorem skip_moves (idle : Idle disk q w) :
    exec move0 q [.test, .wake, .mountLog .errorFailed] =
      some ((q.logged w.nDiskId).endPass 0 w .errorFailed) := by
  have log := log_move idle .errorFailed
  rw [if_neg (by decide)] at log
  have split : [Move.test, .wake, .mountLog .errorFailed] = [.test, .wake] ++ [.mountLog .errorFailed] :=
    rfl
  rw [split, exec_append, wake_moves idle, Option.bind_some]
  simp [exec, log]

theorem record_moves (idle : Idle disk q w) {b : Batch w.nDiskId} (nonempty : b.records ≠ [])
    {eError : ErrorNum} {parts : PartState}
    (run : mntUsbInsertPartitionList (some b.records) b.records.length q.parts = some (eError, parts)) :
    exec move0 q ([.test, .wake] ++ (.mountLog .ok :: (b.records.map .gather ++ [.gathered [], .insert]))) =
      some ({ q.logged w.nDiskId with parts := parts }.endPass 0 w eError) := by
  obtain ⟨inside, _⟩ := List.getElem?_eq_some_iff.mp idle.get
  have log := log_move idle .ok
  rw [if_pos rfl] at log
  have records' := gather_moves (q := q.logged w.nDiskId) inside b.records (b := Batch.empty w.nDiskId) (c := b) rfl
  have inserted := insert_moves (q := q.logged w.nDiskId) inside nonempty run
  rw [exec_append, wake_moves idle, Option.bind_some, exec, log, Option.bind_some, exec_append,
    records', Option.bind_some, inserted]

theorem pass_moves (idle : Idle disk r.state.query w)
    (fits : ∀ e ∈ grepTable disk.szDiskName view.table, e.Fits)
    (step : passStep z disk r view = some u) :
    ∃ moves v, exec move0 r.state.query moves = some u.state.query ∧ Idle disk u.state.query v := by
  obtain ⟨eError, t, detect, same⟩ := idle_pass idle step
  have running : ∀ d, ((r.state.query.logged w.nDiskId).usbThread d).nRunState =
      (r.state.query.usbThread d).nRunState := (quiet_setStat r.state.query w.nDiskId _).running
  rw [same]
  by_cases nothing : ¬ Looks z disk r.state view ∨ present disk = []
  · obtain ⟨statics, skipped⟩ := detect_skips nothing
    rw [detect, ← idle.own] at skipped
    cases skipped
    obtain ⟨v, next⟩ := idle_endPass idle (r.state.query.logged w.nDiskId) rfl running .errorFailed
    exact ⟨_, v, skip_moves idle, next⟩
  · obtain ⟨looks, there⟩ := not_or.mp nothing
    obtain ⟨statics, batch, nonempty, indices, gathered, recorded⟩ :=
      detect_records (not_not.mp looks) there fits
    rw [detect, ← idle.own] at recorded
    obtain ⟨⟨code, parts⟩, inserted, ends⟩ := Option.map_eq_some_iff.mp recorded.symm
    cases ends
    have own : ∀ x ∈ batch, x.nUSBDiskId = w.nDiskId := by
      intro x mem
      rw [(gathered x mem).own, idle.own]
    have rising : (batch.map PartitionInfo.nPatitionId).Pairwise (· < ·) := by
      rw [indices]
      exact present_rising disk
    obtain ⟨v, next⟩ := idle_endPass idle { r.state.query.logged w.nDiskId with parts := parts } rfl
      running code
    exact ⟨_, v, record_moves idle (b := ⟨batch, own, rising⟩) nonempty inserted, next⟩

/-- Every run of passes of a disk is a run of the interleaved model in which the disk is
    announced and only its worker moves. -/
theorem passes_are_moves (z : WordSize) (disk : PluggedDisk) (statics : MountStatics)
    {views : List PassView}
    (fits : ∀ view ∈ views, ∀ e ∈ grepTable disk.szDiskName view.table, e.Fits) {t : PassRun}
    (run : exec (passStep z disk) (PassRun.start disk statics) views = some t) :
    ∃ moves : List Move, exec queryStep QueryState.init
      (.add disk.nDiskId :: .work 0 .enter :: moves.map (.work 0)) = some t.state.query := by
  have entered : exec queryStep QueryState.init [.add disk.nDiskId, .work 0 .enter] =
      some (PassRun.start disk statics).state.query := rfl
  have idle : Idle disk (PassRun.start disk statics).state.query
      { Worker.start disk.nDiskId with phase := .test } :=
    ⟨rfl, rfl, rfl, rfl, (upToDate_start disk statics).2.running⟩
  have expand : ∀ (r u : PassRun) (q : QueryState) (view : PassView),
      (∀ e ∈ grepTable disk.szDiskName view.table, e.Fits) →
      (q = r.state.query ∧ ∃ w, Idle disk q w) → passStep z disk r view = some u →
      ∃ moves t, exec move0 q moves = some t ∧ t = u.state.query ∧ ∃ w, Idle disk t w := by
    rintro r u _ view fit ⟨rfl, w, idle⟩ step
    obtain ⟨moves, v, made, next⟩ := pass_moves idle fit step
    exact ⟨moves, _, made, rfl, v, next⟩
  obtain ⟨moves, q, fine, rfl, _⟩ := exec_expands move0 _ expand fits ⟨rfl, _, idle⟩ run
  refine ⟨moves, ?_⟩
  have split : (.add disk.nDiskId :: .work 0 .enter :: moves.map (.work 0) : List QueryEvent) =
      [.add disk.nDiskId, .work 0 .enter] ++ moves.map (.work 0) := rfl
  rw [split, exec_append, entered, Option.bind_some, exec_map]
  exact fine

end Moves

def rootEntry : MountEntry :=
  ⟨"rootfs".toList, "/".toList, "rootfs rw 0 0".toList, by decide, by decide, by decide⟩

def sda1At (dir : CStr) (word : ' ' ∉ dir ∧ '\n' ∉ dir) : MountEntry :=
  ⟨"/dev/sda1".toList, dir, "vfat rw 0 0".toList, by decide, word, by decide⟩

def viewOf (table : List MountEntry) : PassView where
  table := table
  array := fun _ => record 0 0
  statfs := fun _ => some ⟨MSDOS_SUPER_MAGIC, 4096, 1000, 600⟩
  ext3Label := fun _ => none

def viewA : PassView := viewOf [rootEntry, sda1At "/mnt/a".toList (by decide)]

def viewB : PassView := viewOf [rootEntry, sda1At "/mnt/b".toList (by decide)]

def viewLong : PassView := viewOf [rootEntry, sda1At "/mnt/disk".toList (by decide)]

def viewUnmounted : PassView := viewOf [rootEntry]

def sda : PluggedDisk where
  nDiskId := 1
  szDiskName := "sda".toList
  scanned := by decide
  access := fun path => path = "/dev/sda1".toList
  opendir := true

def firstRecord (r : PassRun) : Option (Nat × PartitionInfo) :=
  let parts := r.state.query.parts
  (parts.heap.cell parts.sPsPartHead).map fun c => (parts.sPsPartHead, c.val)

instance (table : List MountEntry) (x : PartitionInfo) : Decidable (ShowsMount table x) :=
  match point : mountPoint table x.szPartName with
  | some dir => decidable_of_iff (x.bMounted = DISK_MOUNTED ∧ x.szMountDir = dir)
      (by simp [ShowsMount, point])
  | none => decidable_of_iff (x.bMounted = DISK_UNMOUNTED) (by simp [ShowsMount, point])

instance (z : WordSize) (disk : PluggedDisk) (s : PassState) (view : PassView) :
    Decidable (Looks z disk s view) :=
  inferInstanceAs (Decidable (_ ∧ _))

theorem longer_path_followed :
    (∀ view ∈ [viewA, viewLong], ∀ e ∈ grepTable sda.szDiskName view.table, e.Fits) ∧
    (∃ t, exec (passStep .bits32 sda) (PassRun.start sda MountStatics.init) [viewA, viewLong] = some t) ∧
    Always (passStep .bits32 sda) (FollowsTable sda) (PassRun.start sda MountStatics.init)
      [viewA, viewLong] := by
  have short : ∀ view ∈ [viewA, viewLong], ∀ e ∈ grepTable sda.szDiskName view.table,
      e.line.length < 1023 ∧ e.device.length < 32 ∧ e.dir.length < 256 := by
    decide +kernel
  have fits : ∀ view ∈ [viewA, viewLong], ∀ e ∈ grepTable sda.szDiskName view.table, e.Fits := by
    intro view listed e mem
    obtain ⟨line, device, dir⟩ := short view listed e mem
    exact ⟨line, device, dir⟩
  refine ⟨fits, (list_follows_table_iff .bits32 sda MountStatics.init _ fits).mpr ?_⟩
  have first : Looks .bits32 sda (PassState.start sda MountStatics.init) viewA := by
    decide +kernel
  have second : (passStep .bits32 sda (PassRun.start sda MountStatics.init) viewA).map
      (fun t => decide (Looks .bits32 sda t.state viewLong)) = some true := by
    decide +kernel
  refine ⟨.inl first, ?_⟩
  intro t step
  rw [step, Option.map_some, Option.some.injEq, decide_eq_true_eq] at second
  refine ⟨.inl second, ?_⟩
  intro u _
  trivial

theorem follows_first {disk : PluggedDisk} {r : PassRun} (follows : FollowsTable disk r) {p : Nat}
    {x : PartitionInfo} (first : firstRecord r = some (p, x)) (nonnull : p ≠ 0)
    (own : x.nUSBDiskId = disk.nDiskId) : ShowsMount r.seen x := by
  obtain ⟨nodes, holds, shows⟩ := follows
  simp only [firstRecord, Option.map_eq_some_iff, Prod.mk.injEq] at first
  obtain ⟨c, cell, rfl, rfl⟩ := first
  cases nodes with
  | nil => exact absurd holds.entry nonnull
  | cons n rest =>
    have stored := (holds_cell (a := []) holds).2
    rw [← linkOf_cons n rest 0, ← holds.entry, cell, Option.some.injEq] at stored
    subst stored
    exact shows n (by simp) own

theorem stale_record {z : WordSize} {disk : PluggedDisk} {r : PassRun} (views : List PassView)
    {last : PassView} {p : Nat} {x : PartitionInfo}
    (ends : (exec (passStep z disk) r (views ++ [last])).map firstRecord = some (some (p, x)))
    (nonnull : p ≠ 0) (own : x.nUSBDiskId = disk.nDiskId) (stale : ¬ ShowsMount last.table x) :
    ¬ Always (passStep z disk) (FollowsTable disk) r (views ++ [last]) := by
  intro always
  obtain ⟨t, run, first⟩ := Option.map_eq_some_iff.mp ends
  have seen : t.seen = last.table := by
    rw [exec_append] at run
    obtain ⟨u, _, rest⟩ := Option.bind_eq_some_iff.mp run
    obtain ⟨v, step, same⟩ := Option.bind_eq_some_iff.mp rest
    cases same
    obtain ⟨w, _, rfl⟩ := Option.map_eq_some_iff.mp step
    rfl
  have follows := always_iff_prefixes.mp always _ t (List.prefix_refl _) run
  have shows := follows_first follows first nonnull own
  rw [seen] at shows
  exact stale shows

def mountedAtA : PartitionInfo :=
  ⟨1, DISK_MOUNTED, "/mnt/a".toList, "ntfslabel".toList, 4096000, 1638400, 1, "/dev/sda1".toList, 0⟩

/-- After the partition is mounted elsewhere under a path of the same length, and after
    it is unmounted, the record still has the first mount point. -/
theorem remount_goes_unnoticed :
    (exec (passStep .bits32 sda) (PassRun.start sda MountStatics.init) [viewA, viewB]).map
      firstRecord = some (some (1, mountedAtA)) ∧
    mountPoint viewB.table mountedAtA.szPartName = some "/mnt/b".toList ∧
    (exec (passStep .bits32 sda) (PassRun.start sda MountStatics.init) [viewA, viewUnmounted]).map
      firstRecord = some (some (1, mountedAtA)) ∧
    mountPoint viewUnmounted.table mountedAtA.szPartName = none ∧
    ¬ Always (passStep .bits32 sda) (FollowsTable sda) (PassRun.start sda MountStatics.init)
      [viewA, viewB] ∧
    ¬ Always (passStep .bits32 sda) (FollowsTable sda) (PassRun.start sda MountStatics.init)
      [viewA, viewUnmounted] := by
  have moved : (exec (passStep .bits32 sda) (PassRun.start sda MountStatics.init) [viewA, viewB]).map
      firstRecord = some (some (1, mountedAtA)) := by
    decide +kernel
  have unmounted : (exec (passStep .bits32 sda) (PassRun.start sda MountStatics.init)
      [viewA, viewUnmounted]).map firstRecord = some (some (1, mountedAtA)) := by
    decide +kernel
  refine ⟨moved, by decide, unmounted, by decide, ?_, ?_⟩
  · exact stale_record [viewA] moved (by decide) rfl (by decide)
  · exact stale_record [viewA] unmounted (by decide) rfl (by decide)

end TestSource
