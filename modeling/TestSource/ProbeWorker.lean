import TestSource.DeviceLaws

/- mnt_usb_probe_device_thread, which runs the probe step by step, and the detect thread,
   which cancels and joins it before a removal scan. The worker can be cancelled while it
   looks at a /dev entry, in msgsnd and in usleep, but not between the allocation of an id
   and the end of the insertion. An event that is not enabled changes nothing. -/
namespace TestSource
open LinkedHeap Runs

inductive ProbePos where
  | look
  | insert (nDiskId : Nat)
  | send (nDiskId : Nat)
  | sleep

/-- `i` counts the devices passed in the two loops of the current probe. -/
structure ProbeWorker where
  i : Nat
  ret : Int
  probeCnt : Nat
  pos : ProbePos

def ProbeWorker.restart (probeCnt : Nat) : ProbeWorker := ⟨0, 1, probeCnt, .look⟩

structure ProbeState where
  dev : DevState
  tid : Option ProbeWorker

def ProbeState.init : ProbeState := ⟨DevState.init true, none⟩

inductive ProbeEvent where
  | start
  | look (present : Bool)
  | insert
  | send
  | wake
  | cancel
  | remove (access : CStr → Bool)

/-- At the end of a probe the worker leaves, sleeps, or starts over at once when its
    retries are used up. -/
def endProbe (w : ProbeWorker) : Option ProbeWorker :=
  if w.ret = 0 then none
  else if w.probeCnt > 0 then some { w with pos := .sleep }
  else some (ProbeWorker.restart 0)

def workerStep (s : ProbeState) (w : ProbeWorker) : ProbeEvent → Option ProbeState
  | .look present =>
      match w.pos, scanNames[w.i]? with
      | .look, none => some { s with tid := endProbe w }
      | .look, some _ =>
          if present then
            let (id, g) := mntUsbCreateDiskId s.dev.gDevID
            some ⟨{ s.dev with gDevID := g }, some { w with pos := .insert (toU32 id) }⟩
          else some { s with tid := some { w with i := w.i + 1 } }
      | _, _ => some s
  | .insert =>
      match w.pos with
      | .insert id =>
          (mntUsbInsertDevNode ⟨id, scanNames.getD w.i []⟩ s.dev).map fun r =>
            ⟨r.2, some { w with pos := .send id }⟩
      | _ => some s
  | .send =>
      match w.pos with
      | .send id => some ⟨mntUsbMsgPost ⟨.add, .storage, id⟩ s.dev, some ⟨w.i + 1, 0, w.probeCnt, .look⟩⟩
      | _ => some s
  | .wake =>
      match w.pos with
      | .sleep => some { s with tid := some (ProbeWorker.restart (w.probeCnt - 1)) }
      | _ => some s
  | .cancel =>
      match w.pos with
      | .insert _ => some s
      | _ => some { s with tid := none }
  | _ => some s

/-- The detect thread scans for removed devices only when no worker is left. -/
def probeStep (s : ProbeState) (e : ProbeEvent) : Option ProbeState :=
  match s.tid with
  | some w => workerStep s w e
  | none =>
      match e with
      | .start => some { s with tid := some (ProbeWorker.restart 50) }
      | .remove access => (mntUsbRemoveDevNode access s.dev).map fun r => { s with dev := r.2 }
      | _ => some s

def deviceEvents (access : CStr → Bool) (name : CStr) : List ProbeEvent :=
  if access (devPath name) then [.look true, .insert, .send] else [.look false]

theorem device_events_probe (access : CStr → Bool) {name : CStr} {i : Nat}
    (here : scanNames[i]? = some name) (s : DevState) (ret : Int) (cnt : Nat) :
    exec probeStep ⟨s, some ⟨i, ret, cnt, .look⟩⟩ (deviceEvents access name) =
      (probeNode access name (ret, s)).map fun r => ⟨r.2, some ⟨i + 1, r.1, cnt, .look⟩⟩ := by
  unfold deviceEvents probeNode
  by_cases present : access (devPath name) = true
  · have listed : scanNames.getD i [] = name := by simp [here]
    simp only [present, ↓reduceIte, exec, probeStep, workerStep, here, Option.bind_some, listed]
    cases mntUsbInsertDevNode ⟨toU32 (mntUsbCreateDiskId s.gDevID).1, name⟩
        { s with gDevID := (mntUsbCreateDiskId s.gDevID).2 } with
    | none => rfl
    | some r => rfl
  · simp [present, exec, probeStep, workerStep, here]

theorem device_scan_probe (access : CStr → Bool) (front names : List CStr)
    (split : scanNames = front ++ names) (s : DevState) (ret : Int) (cnt : Nat) :
    exec probeStep ⟨s, some ⟨front.length, ret, cnt, .look⟩⟩ (names.flatMap (deviceEvents access)) =
      (names.foldlM (fun r n => probeNode access n r) (ret, s)).map fun r =>
        ⟨r.2, some ⟨scanNames.length, r.1, cnt, .look⟩⟩ := by
  induction names generalizing front s ret with
  | nil => simp [exec, split]
  | cons name names ih =>
    have here : scanNames[front.length]? = some name := by simp [split]
    have rest : scanNames = (front ++ [name]) ++ names := by simp [split]
    rw [List.flatMap_cons, exec_append, device_events_probe access here, List.foldlM_cons]
    cases probeNode access name (ret, s) with
    | none => rfl
    | some r =>
      have next := ih (front ++ [name]) rest r.2 r.1
      simpa using next

/-- A worker that is not cancelled does what mnt_usb_device_probe does. -/
theorem undisturbed_worker_probes (access : CStr → Bool) (s : DevState) (cnt : Nat) :
    exec probeStep ⟨s, some (ProbeWorker.restart cnt)⟩ (scanNames.flatMap (deviceEvents access)) =
      (mntUsbDeviceProbe access s).map fun r =>
        ⟨r.2, some ⟨scanNames.length, r.1, cnt, .look⟩⟩ := by
  rw [deviceProbe_scan]
  exact device_scan_probe access [] scanNames (List.nil_append _).symm s 1 cnt

def Open (l : List Action) : Prop := ∃ u v, l = u ++ .add :: v ∧ .rm ∉ v

/-- Every RM comes after an ADD with no other RM in between. -/
def RmAnswersAdd (l : List Action) : Prop := ∀ x y, l = x ++ .rm :: y → Open x

def CancelConsistent (s : ProbeState) : Prop :=
  s.tid.isNone → ∃ devs, s.dev.Nodes devs ∧
    (∀ d ∈ devs, Open (announced d.nDiskId s.dev.queue)) ∧
    ∀ i, RmAnswersAdd (announced i s.dev.queue)

def ProbeState.sending (s : ProbeState) : Prop :=
  ∃ w id, s.tid = some w ∧ w.pos = .send id

/-- No cancellation takes effect in msgsnd, and a removal scan withdraws no node that
    shares its id with another listed node. -/
def CancelsBetweenDevices (s : ProbeState) : ProbeEvent → Prop
  | .cancel => ¬ s.sending
  | .remove access => ∀ devs, s.dev.Nodes devs → ∀ d ∈ gone access devs, carriers d.nDiskId devs = 1
  | _ => True

theorem open_add (l : List Action) : Open (l ++ [.add]) := ⟨l, [], rfl, by simp⟩

theorem snoc_split {l x y : List Action} {a b : Action} (split : l ++ [a] = x ++ b :: y) :
    l = x ∧ a = b ∨ ∃ front, l = x ++ b :: front := by
  rcases List.eq_nil_or_concat y with empty | ⟨front, c, concat⟩
  · subst empty
    obtain ⟨same, last⟩ := List.append_inj' split rfl
    exact .inl ⟨same, by simpa using last⟩
  · rw [List.concat_eq_append] at concat
    subst concat
    have last : l ++ [a] = (x ++ b :: front) ++ [c] := by simpa using split
    exact .inr ⟨front, (List.append_inj' last rfl).1⟩

theorem answers_append_add {l : List Action} (answers : RmAnswersAdd l) :
    RmAnswersAdd (l ++ [.add]) := by
  intro x y split
  rcases snoc_split split with ⟨_, last⟩ | ⟨front, earlier⟩
  · cases last
  · exact answers x front earlier

theorem answers_append_rm {l : List Action} (answers : RmAnswersAdd l) (opened : Open l) :
    RmAnswersAdd (l ++ [.rm]) := by
  intro x y split
  rcases snoc_split split with ⟨same, _⟩ | ⟨front, earlier⟩
  · exact same ▸ opened
  · exact answers x front earlier

/-- The id the worker has taken from the table and not yet put into the list. -/
def taken (tid : Option ProbeWorker) : Option Nat :=
  tid.bind fun w => match w.pos with
    | .insert id => some id
    | _ => none

def unsent (tid : Option ProbeWorker) : Option Nat :=
  tid.bind fun w => match w.pos with
    | .send id => some id
    | _ => none

structure Sound (tid : Option ProbeWorker) (a : Registry) : Prop where
  range : ∀ d ∈ a.devs, d.nDiskId < 4294967296
  held : ∀ id, taken tid = some id → id < 4294967296
  agree : ∀ i < 128, carriers (i + 1) a.devs + (if taken tid = some (i + 1) then 1 else 0) =
    if a.used i then 1 else 0
  opened : ∀ d ∈ a.devs, unsent tid = some d.nDiskId ∨ Open (announced d.nDiskId a.sent)
  answers : ∀ i, RmAnswersAdd (announced i a.sent)

theorem sound_move {tid tid' : Option ProbeWorker} {a : Registry} (sound : Sound tid a)
    (same : taken tid' = taken tid) (still : unsent tid' = unsent tid) : Sound tid' a := by
  constructor
  · exact sound.range
  · rw [same]
    exact sound.held
  · rw [same]
    exact sound.agree
  · rw [still]
    exact sound.opened
  · exact sound.answers

theorem toU32_lt (n : Int) : toU32 n < 4294967296 := by
  unfold toU32
  omega

theorem sound_alloc {w : ProbeWorker} {a : Registry} (sound : Sound (some w) a)
    (pos : w.pos = .look) :
    Sound (some { w with pos := .insert (toU32 (mntUsbCreateDiskId a.used).1) })
      { a with used := (mntUsbCreateDiskId a.used).2 } := by
  have idle : taken (some w) = none := by simp [taken, pos]
  have quiet : unsent (some w) = none := by simp [unsent, pos]
  have agree := sound.agree
  have opened := sound.opened
  simp only [idle, reduceCtorEq, ↓reduceIte, Nat.add_zero] at agree
  simp only [quiet, reduceCtorEq, false_or] at opened
  constructor
  · exact sound.range
  · intro id same
    simp only [taken, Option.bind_some, Option.some.injEq] at same
    exact same ▸ toU32_lt _
  · intro i bound
    simp only [taken, Option.bind_some, Option.some.injEq]
    rcases create_cases a.used with ⟨k, low, free, _, create⟩ | ⟨_, create⟩
    · simp only [create, toU32_slot low, setDevID, agree i bound]
      by_cases same : i = k
      · simp [same, free]
      · simp [same, Ne.symm same]
    · simp only [create, toU32_minus_one, all_usb_disk_outside bound, ↓reduceIte, Nat.add_zero]
      exact agree i bound
  · exact fun d mem => .inr (opened d mem)
  · exact sound.answers

theorem sound_insert {w : ProbeWorker} {a : Registry} {id : Nat} (sound : Sound (some w) a)
    (pos : w.pos = .insert id) (name : CStr) :
    Sound (some { w with pos := .send id }) { a with devs := a.devs ++ [⟨id, name⟩] } := by
  have holding : taken (some w) = some id := by simp [taken, pos]
  have quiet : unsent (some w) = none := by simp [unsent, pos]
  have opened := sound.opened
  simp only [quiet, reduceCtorEq, false_or] at opened
  constructor
  · intro d mem
    rcases List.mem_append.mp mem with old | new
    · exact sound.range d old
    · rw [List.mem_singleton.mp new]
      exact sound.held id holding
  · simp [taken]
  · intro i bound
    have agree := sound.agree i bound
    simp only [holding, Option.some.injEq] at agree
    simpa [taken, carriers_append, carriers_single] using agree
  · intro d mem
    rcases List.mem_append.mp mem with old | new
    · exact .inr (opened d old)
    · rw [List.mem_singleton.mp new]
      simp [unsent]
  · exact sound.answers

theorem sound_send {w : ProbeWorker} {a : Registry} {id : Nat} (sound : Sound (some w) a)
    (pos : w.pos = .send id) (i : Nat) (ret : Int) (cnt : Nat) :
    Sound (some ⟨i, ret, cnt, .look⟩) { a with sent := a.sent ++ [⟨.add, .storage, id⟩] } := by
  have idle : taken (some w) = none := by simp [taken, pos]
  have sending : unsent (some w) = some id := by simp [unsent, pos]
  constructor
  · exact sound.range
  · simp [taken]
  · intro i bound
    have agree := sound.agree i bound
    rw [idle] at agree
    simpa [taken] using agree
  · intro d mem
    right
    rw [announced_append]
    by_cases same : id = d.nDiskId
    · rw [if_pos same]
      exact open_add _
    · rw [if_neg same]
      rcases sound.opened d mem with pending | opened
      · rw [sending] at pending
        exact absurd (Option.some.inj pending) same
      · exact opened
  · intro i
    rw [announced_append]
    split
    · exact answers_append_add (sound.answers i)
    · exact sound.answers i

theorem sound_withdraw {a : Registry} (sound : Sound none a) {d : StorageInfo}
    (single : carriers d.nDiskId a.devs = 1) : Sound none (a.withdraw d) := by
  obtain ⟨e, member, same⟩ := carriers_pos.mp (by omega : 0 < carriers d.nDiskId a.devs)
  have range : d.nDiskId < 4294967296 := same ▸ sound.range e member
  have opened : ∀ x ∈ a.devs, Open (announced x.nDiskId a.sent) := by
    simpa [unsent] using sound.opened
  constructor
  · intro x mem
    exact sound.range x (List.mem_of_mem_eraseP mem)
  · simp [taken]
  · intro i bound
    have agree := sound.agree i bound
    simp only [taken, Option.bind_none, reduceCtorEq, ↓reduceIte, Nat.add_zero] at agree ⊢
    simp only [Registry.withdraw, carriers_erase, destroy_apply range bound]
    by_cases hit : d.nDiskId = i + 1
    · simp [← hit, single]
    · simp only [Ne.symm hit, hit, ↓reduceIte, agree]
  · intro x mem
    right
    have other : x.nDiskId ≠ d.nDiskId := by
      intro hit
      have none : carriers d.nDiskId (a.withdraw d).devs = 0 := by
        rw [Registry.withdraw, carriers_erase, if_pos rfl, single]
      have some := carriers_pos.mpr ⟨x, mem, hit⟩
      omega
    simp only [Registry.withdraw, announced_append, Ne.symm other, ↓reduceIte]
    exact opened x (List.mem_of_mem_eraseP mem)
  · intro i
    simp only [Registry.withdraw, announced_append]
    split
    · rename_i hit
      exact answers_append_rm (sound.answers i) (hit ▸ same ▸ opened e member)
    · exact sound.answers i

theorem sound_remove {a : Registry} (sound : Sound none a) (access : CStr → Bool)
    (single : ∀ d ∈ gone access a.devs, carriers d.nDiskId a.devs = 1) :
    Sound none (a.remove access) := by
  -- no withdrawal adds a node, so an id carried once is never carried more often later
  have both := remove_keeps (I := fun b => Sound none b ∧
    ∀ i, carriers i b.devs ≤ carriers i a.devs) access ?_ ⟨sound, fun _ => le_refl _⟩
  · exact both.1
  · rintro b d mem listed ⟨kept, below⟩
    have one := single d mem
    have bound := below d.nDiskId
    refine ⟨sound_withdraw kept (by omega), ?_⟩
    intro i
    have before := below i
    simp only [Registry.withdraw, carriers_erase]
    split <;> omega

def Tied (s : ProbeState) : Prop := ∃ l a, Refines s.dev l a ∧ Sound s.tid a

theorem taken_endProbe (w : ProbeWorker) : taken (endProbe w) = none := by
  unfold endProbe
  split
  · rfl
  · split <;> simp [taken, ProbeWorker.restart]

theorem unsent_endProbe (w : ProbeWorker) : unsent (endProbe w) = none := by
  unfold endProbe
  split
  · rfl
  · split <;> simp [unsent, ProbeWorker.restart]

theorem tied_look {s : ProbeState} (tied : Tied s) {w : ProbeWorker} (active : s.tid = some w)
    (present : Bool) : ∃ t, workerStep s w (.look present) = some t ∧ Tied t := by
  obtain ⟨l, a, refines, sound⟩ := tied
  rw [active] at sound
  cases pos : w.pos with
  | look =>
    have idle : taken (some w) = none := by simp [taken, pos]
    have quiet : unsent (some w) = none := by simp [unsent, pos]
    cases name : scanNames[w.i]? with
    | none =>
      refine ⟨{ s with tid := endProbe w }, by simp only [workerStep, pos, name], l, a, refines, ?_⟩
      exact sound_move sound (by rw [idle, taken_endProbe]) (by rw [quiet, unsent_endProbe])
    | some n =>
      cases present with
      | true =>
        refine ⟨⟨{ s.dev with gDevID := (mntUsbCreateDiskId s.dev.gDevID).2 },
          some { w with pos := .insert (toU32 (mntUsbCreateDiskId s.dev.gDevID).1) }⟩,
          by simp only [workerStep, pos, name, ↓reduceIte], l,
          { a with used := (mntUsbCreateDiskId a.used).2 }, ?_, ?_⟩
        · exact ⟨refines.holds, refines.devs, by simp [refines.used], refines.sent,
            refines.unlimited, refines.kept⟩
        · simp only [refines.used]
          exact sound_alloc sound pos
      | false =>
        refine ⟨{ s with tid := some { w with i := w.i + 1 } },
          by simp only [workerStep, pos, name, Bool.false_eq_true, ↓reduceIte], l, a, refines, ?_⟩
        exact sound_move sound (by simp [taken]) (by simp [unsent])
  | _ => exact ⟨s, by simp [workerStep, pos], l, a, refines, active ▸ sound⟩

theorem tied_insert {s : ProbeState} (tied : Tied s) {w : ProbeWorker} (active : s.tid = some w) :
    ∃ t, workerStep s w .insert = some t ∧ Tied t := by
  obtain ⟨l, a, refines, sound⟩ := tied
  rw [active] at sound
  cases pos : w.pos with
  | insert id =>
    obtain ⟨h, head, run, holds, unlimited, kept⟩ :=
      insert_refines ⟨id, scanNames.getD w.i []⟩ refines.holds refines.unlimited
    refine ⟨⟨{ s.dev with heap := h, gPsUSBDevHead := head }, some { w with pos := .send id }⟩,
      by simp only [workerStep, pos, run, Option.map_some],
      l ++ [(s.dev.heap.top, ⟨id, scanNames.getD w.i []⟩)], _, ?_,
      sound_insert sound pos (scanNames.getD w.i [])⟩
    exact ⟨holds, by simp [refines.devs], refines.used, refines.sent, unlimited,
      kept.trans refines.kept⟩
  | _ => exact ⟨s, by simp [workerStep, pos], l, a, refines, active ▸ sound⟩

theorem tied_send {s : ProbeState} (tied : Tied s) {w : ProbeWorker} (active : s.tid = some w) :
    ∃ t, workerStep s w .send = some t ∧ Tied t := by
  obtain ⟨l, a, refines, sound⟩ := tied
  rw [active] at sound
  cases pos : w.pos with
  | send id =>
    refine ⟨⟨mntUsbMsgPost ⟨.add, .storage, id⟩ s.dev, some ⟨w.i + 1, 0, w.probeCnt, .look⟩⟩,
      by simp only [workerStep, pos], l, _, ?_, sound_send sound pos _ _ _⟩
    exact ⟨refines.holds, refines.devs, refines.used, by simp [mntUsbMsgPost, refines.sent],
      refines.unlimited, refines.kept⟩
  | _ => exact ⟨s, by simp [workerStep, pos], l, a, refines, active ▸ sound⟩

theorem tied_wake {s : ProbeState} (tied : Tied s) {w : ProbeWorker} (active : s.tid = some w) :
    ∃ t, workerStep s w .wake = some t ∧ Tied t := by
  obtain ⟨l, a, refines, sound⟩ := tied
  rw [active] at sound
  cases pos : w.pos with
  | sleep =>
    refine ⟨{ s with tid := some (ProbeWorker.restart (w.probeCnt - 1)) },
      by simp only [workerStep, pos], l, a, refines, ?_⟩
    exact sound_move sound (by simp [taken, pos, ProbeWorker.restart])
      (by simp [unsent, pos, ProbeWorker.restart])
  | _ => exact ⟨s, by simp [workerStep, pos], l, a, refines, active ▸ sound⟩

theorem tied_cancel {s : ProbeState} (tied : Tied s) {w : ProbeWorker} (active : s.tid = some w)
    (between : ¬ s.sending) : ∃ t, workerStep s w .cancel = some t ∧ Tied t := by
  obtain ⟨l, a, refines, sound⟩ := tied
  rw [active] at sound
  cases pos : w.pos with
  | insert id => exact ⟨s, by simp [workerStep, pos], l, a, refines, active ▸ sound⟩
  | send id => exact absurd ⟨w, id, active, pos⟩ between
  | look =>
    refine ⟨{ s with tid := none }, by simp only [workerStep, pos], l, a, refines, ?_⟩
    exact sound_move sound (by simp [taken, pos]) (by simp [unsent, pos])
  | sleep =>
    refine ⟨{ s with tid := none }, by simp only [workerStep, pos], l, a, refines, ?_⟩
    exact sound_move sound (by simp [taken, pos]) (by simp [unsent, pos])

theorem tied_step (s : ProbeState) (e : ProbeEvent) (tied : Tied s)
    (met : CancelsBetweenDevices s e) : ∃ t, probeStep s e = some t ∧ Tied t := by
  cases active : s.tid with
  | some w =>
    simp only [probeStep, active]
    cases e with
    | look present => exact tied_look tied active present
    | insert => exact tied_insert tied active
    | send => exact tied_send tied active
    | wake => exact tied_wake tied active
    | cancel => exact tied_cancel tied active met
    | _ => exact ⟨s, rfl, tied⟩
  | none =>
    simp only [probeStep, active]
    cases e with
    | start =>
      obtain ⟨l, a, refines, sound⟩ := tied
      rw [active] at sound
      exact ⟨_, rfl, l, a, refines, sound_move sound (by simp [taken, ProbeWorker.restart])
        (by simp [unsent, ProbeWorker.restart])⟩
    | remove access =>
      obtain ⟨l, a, refines, sound⟩ := tied
      rw [active] at sound
      obtain ⟨t, m, run, done⟩ := remove_refines refines access
      refine ⟨⟨t, none⟩, by simp only [run, Option.map_some], m, a.remove access, done, ?_⟩
      exact sound_remove sound access (met a.devs ⟨l, refines.holds, refines.devs⟩)
    | _ => exact ⟨s, rfl, tied⟩

theorem tied_consistent (s : ProbeState) (tied : Tied s) : CancelConsistent s := by
  obtain ⟨l, a, refines, sound⟩ := tied
  intro idle
  rw [Option.isNone_iff_eq_none.mp idle] at sound
  refine ⟨a.devs, ⟨l, refines.holds, refines.devs⟩, ?_, ?_⟩
  · intro d mem
    rw [refines.sent]
    simpa [unsent] using sound.opened d mem
  · intro i
    rw [refines.sent]
    exact sound.answers i

theorem tied_init : Tied ProbeState.init := by
  refine ⟨[], Registry.empty, init_refines, ?_⟩
  constructor
  · simp [Registry.empty]
  · simp [ProbeState.init, taken]
  · intro i bound
    simp [ProbeState.init, taken, Registry.empty, carriers]
  · simp [Registry.empty]
  · intro i x y split
    simp [Registry.empty, announced] at split

/-- Along every run in which no probe is cancelled in msgsnd and no withdrawn node shares
    its id, list and queue are consistent whenever no worker is active. -/
theorem cancelled_probe_consistent (es : List ProbeEvent)
    (meets : Meets probeStep CancelsBetweenDevices ProbeState.init es) :
    (∃ s, exec probeStep ProbeState.init es = some s) ∧
      Always probeStep CancelConsistent ProbeState.init es :=
  meets_always tied_consistent tied_step tied_init meets

/-- One disk is found and announced, the worker is cancelled while it looks at the next
    one, and the disk is unplugged. -/
def orderlyRun : List ProbeEvent :=
  [.start, .look true, .insert, .send, .cancel, .remove fun _ => false]

theorem orderly_run_consistent :
    Meets probeStep CancelsBetweenDevices ProbeState.init orderlyRun ∧
      (∃ s, exec probeStep ProbeState.init orderlyRun = some s) ∧
      Always probeStep CancelConsistent ProbeState.init orderlyRun := by
  have meets : Meets probeStep CancelsBetweenDevices ProbeState.init orderlyRun := by
    apply meets_cons trivial rfl
    apply meets_cons trivial rfl
    apply meets_cons trivial rfl
    apply meets_cons trivial rfl
    apply meets_cons _ rfl
    · refine ⟨?_, fun _ _ => trivial⟩
      intro devs nodes
      have one := nodes_unique nodes ⟨[(1, ⟨1, sdName 0⟩)], holds_first (holds_empty true), rfl⟩
      rw [one]
      decide
    · rintro ⟨w, id, active, pos⟩
      cases active
      cases pos
  exact ⟨meets, cancelled_probe_consistent orderlyRun meets⟩

/-- Cancelled in msgsnd, the worker leaves a listed node that was never announced. -/
theorem cancel_in_msgsnd_inconsistent :
    ¬ Always probeStep CancelConsistent ProbeState.init [.start, .look true, .insert, .cancel] := by
  intro always
  obtain ⟨s, run, idle, silent, nodes⟩ :
      ∃ s, exec probeStep ProbeState.init [.start, .look true, .insert, .cancel] = some s ∧
        s.tid.isNone ∧ s.dev.queue = [] ∧ s.dev.Nodes [⟨1, sdName 0⟩] :=
    ⟨_, rfl, rfl, rfl, [(1, ⟨1, sdName 0⟩)], holds_first (holds_empty true), rfl⟩
  have consistent : Always probeStep CancelConsistent s [] :=
    always_append (by simpa using always) run
  obtain ⟨devs, listed, opened, -⟩ := consistent idle
  obtain ⟨u, v, split, -⟩ := opened ⟨1, sdName 0⟩ (by simp [nodes_unique listed nodes])
  simp [silent, announced] at split

end TestSource
