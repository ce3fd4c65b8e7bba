import TestSource.Common
import TestSource.Runs

/- mnt_usb_detect_thread of xl_usb_device.c: the state machine over the uevents of the
   kernel. A message is the list of its NUL-terminated strings. What the system answers in
   a round comes with the uevent; a probe worker ends between two rounds. -/
namespace TestSource.Hotplug
open Runs

inductive DetectState where
  | getAction
  | identifyDevice
  | standby
  deriving DecidableEq, Repr

/-- The static variables of the thread. A tid of 0 is no worker. -/
structure Detect where
  tid : Nat
  eState : DetectState
  eActionNow : Action
  eActionPre : Action
  probeCnt : Nat
  deriving DecidableEq, Repr

def init : Detect := ⟨0, .getAction, .chg, .chg, 10⟩

def actionKey : CStr := ['A', 'C', 'T', 'I', 'O', 'N', '=']

/-- The action of a message; the other fields are not used by the thread. An empty string
    ends the message. -/
def parseEvent : List CStr → CStr → CStr
  | [], action => action
  | msg :: rest, action =>
      if msg.isEmpty then action
      else if actionKey.isPrefixOf msg then parseEvent rest (msg.drop actionKey.length)
      else parseEvent rest action

def mntUsbGetAction (action : CStr) : Option Action :=
  if action = ['a', 'd', 'd'] then some .add
  else if action = ['r', 'e', 'm', 'o', 'v', 'e'] then some .rm
  else if action = ['c', 'h', 'a', 'n', 'g', 'e'] then some .chg
  else none

/-- A received uevent, with the tid that pthread_create would leave and what the removal
    scan would return; or the end of the probe worker, which clears tid. -/
inductive Event where
  | uevent (msg : List CStr) (created : Nat) (ret : Int)
  | workerExit
  deriving DecidableEq, Repr

inductive Effect where
  | start
  | cancel
  | scan (ret : Int)
  deriving DecidableEq, Repr

/-- The removal part of EN_USB_IDENTIFY_DEVICE. -/
def removeScan (d : Detect) (ret : Int) : Detect × List Effect :=
  let effects := if d.tid ≠ 0 then [Effect.cancel, .scan ret] else [.scan ret]
  let d := { d with tid := 0 }
  if ret = 0 then ({ d with eState := .standby }, effects)
  else if d.probeCnt > 0 then ({ d with probeCnt := d.probeCnt - 1 }, effects)
  else ({ d with eState := .standby, probeCnt := 10 }, effects)

/-- One round for an action that is no longer a change. -/
def detectAction (d : Detect) (now : Action) (created : Nat) (ret : Int) :
    Detect × List Effect :=
  let d := { d with eActionNow := now }
  let d := if now ≠ d.eActionPre then { d with eState := .getAction } else d
  match d.eState with
  | .getAction => ({ d with eState := .identifyDevice, eActionPre := now }, [])
  | .identifyDevice =>
      if now = .add then
        if d.tid = 0 then ({ d with tid := created, eState := .standby }, [.start]) else (d, [])
      else if now = .rm then removeScan d ret
      else (d, [])
  | .standby => (d, [])

def detect (d : Detect) : Event → Detect × List Effect
  | .workerExit => ({ d with tid := 0 }, [])
  | .uevent msg created ret =>
      match mntUsbGetAction (parseEvent msg []) with
      | none => (d, [])
      | some action => detectAction d (if action = .chg then .add else action) created ret

def run : Detect → List Event → Detect × List Effect
  | d, [] => (d, [])
  | d, e :: rest =>
      let (d, effects) := detect d e
      let (d, later) := run d rest
      (d, effects ++ later)

def Event.action : Event → Option Action
  | .workerExit => none
  | .uevent msg _ _ => mntUsbGetAction (parseEvent msg [])

def addMessage : List CStr := [actionKey ++ ['a', 'd', 'd']]

/-- An event of the normalised sequence: a change is an add, and a uevent with another
    action is dropped. -/
def Event.normal : Event → Option Event
  | .workerExit => some .workerExit
  | .uevent msg created ret =>
      match mntUsbGetAction (parseEvent msg []) with
      | none => none
      | some .chg => some (.uevent addMessage created ret)
      | some _ => some (.uevent msg created ret)

def normalise (es : List Event) : List Event := es.filterMap Event.normal

theorem dropped_unknown {e : Event} (dropped : e.normal = none) : e.action = none := by
  cases e with
  | workerExit => contradiction
  | uevent msg created ret =>
    unfold Event.normal at dropped
    cases action : mntUsbGetAction (parseEvent msg []) with
    | none => exact action
    | some a => cases a <;> simp [action] at dropped

theorem detect_dropped {e : Event} (dropped : e.normal = none) (d : Detect) :
    detect d e = (d, []) := by
  have unknown := dropped_unknown dropped
  cases e with
  | workerExit => contradiction
  | uevent msg created ret =>
    simp only [Event.action] at unknown
    simp [detect, unknown]

def Normal (e : Event) : Prop := e = .workerExit ∨ e.action = some .add ∨ e.action = some .rm

theorem getAction_cases {action : CStr} {a : Action} (known : mntUsbGetAction action = some a) :
    a = .add ∨ a = .rm ∨ a = .chg := by
  unfold mntUsbGetAction at known
  grind

theorem add_message_action : mntUsbGetAction (parseEvent addMessage []) = some .add := by decide

theorem kept_cases {e f : Event} (kept : e.normal = some f) :
    (f = e ∧ Normal e) ∨
    ∃ msg created ret, e = .uevent msg created ret ∧ mntUsbGetAction (parseEvent msg []) = some .chg ∧
      f = .uevent addMessage created ret := by
  cases e with
  | workerExit =>
    cases kept
    exact .inl ⟨rfl, .inl rfl⟩
  | uevent msg created ret =>
    unfold Event.normal at kept
    cases action : mntUsbGetAction (parseEvent msg []) with
    | none => simp [action] at kept
    | some a =>
      rcases getAction_cases action with rfl | rfl | rfl
      · simp only [action, Option.some.injEq] at kept
        exact .inl ⟨kept.symm, .inr (.inl action)⟩
      · simp only [action, Option.some.injEq] at kept
        exact .inl ⟨kept.symm, .inr (.inr action)⟩
      · simp only [action, Option.some.injEq] at kept
        exact .inr ⟨msg, created, ret, rfl, action, kept.symm⟩

theorem detect_normal {e f : Event} (kept : e.normal = some f) (d : Detect) :
    detect d e = detect d f := by
  obtain ⟨rfl, _⟩ | ⟨msg, created, ret, rfl, change, rfl⟩ := kept_cases kept
  · rfl
  · simp [detect, change, add_message_action]

theorem run_normalise (d : Detect) (es : List Event) : run d es = run d (normalise es) := by
  induction es generalizing d with
  | nil => rfl
  | cons e es ih =>
    cases normal : e.normal with
    | none =>
      simp only [normalise, List.filterMap_cons_none normal, run, detect_dropped normal,
        List.nil_append]
      exact ih d
    | some f =>
      simp only [normalise, List.filterMap_cons_some normal, run, detect_normal normal]
      rw [ih]
      rfl

theorem kept_normal {f e : Event} (kept : f.normal = some e) : Normal e := by
  obtain ⟨rfl, normal⟩ | ⟨msg, created, ret, rfl, change, rfl⟩ := kept_cases kept
  · exact normal
  · exact .inr (.inl add_message_action)

theorem normalise_normal {es : List Event} {e : Event} (member : e ∈ normalise es) : Normal e := by
  obtain ⟨f, _, kept⟩ := List.mem_filterMap.mp member
  exact kept_normal kept

theorem detect_cases {e : Event} (normal : Normal e) (d : Detect) :
    (e.action = none ∧ detect d e = ({ d with tid := 0 }, [])) ∨
    ∃ now created ret, e.action = some now ∧ (now = .add ∨ now = .rm) ∧
      detect d e = detectAction d now created ret := by
  cases e with
  | workerExit => exact .inl ⟨rfl, rfl⟩
  | uevent msg created ret =>
    right
    simp only [Normal, Event.action, reduceCtorEq, false_or] at normal ⊢
    rcases normal with add | rm
    · exact ⟨.add, created, ret, add, .inl rfl, by simp [detect, add]⟩
    · exact ⟨.rm, created, ret, rm, .inr rfl, by simp [detect, rm]⟩

section Rounds
variable {d : Detect} {now : Action} {created : Nat} {ret : Int}

/-- Another action than before, or the very first: nothing but the new action is noted. -/
theorem detectAction_first (fresh : now ≠ d.eActionPre ∨ d.eState = .getAction) :
    detectAction d now created ret =
      ({ d with eState := .identifyDevice, eActionNow := now, eActionPre := now }, []) := by
  unfold detectAction
  by_cases same : now = d.eActionPre
  · have state : d.eState = .getAction := by simpa [same] using fresh
    simp [same, state]
  · simp [same]

theorem detectAction_standby (same : d.eActionPre = now) (state : d.eState = .standby) :
    detectAction d now created ret = ({ d with eActionNow := now }, []) := by
  simp [detectAction, same, state]

theorem detectAction_add (same : d.eActionPre = .add) (state : d.eState = .identifyDevice) :
    detectAction d .add created ret =
      if d.tid = 0 then
        ({ d with tid := created, eState := .standby, eActionNow := .add }, [.start])
      else ({ d with eActionNow := .add }, []) := by
  simp [detectAction, same, state]

theorem detectAction_rm (same : d.eActionPre = .rm) (state : d.eState = .identifyDevice) :
    detectAction d .rm created ret = removeScan { d with eActionNow := .rm } ret := by
  simp [detectAction, same, state]

theorem removeScan_pre (d : Detect) (ret : Int) :
    (removeScan d ret).1.eActionPre = d.eActionPre := by
  unfold removeScan
  grind

theorem detectAction_pre (d : Detect) (known : now = .add ∨ now = .rm) :
    (detectAction d now created ret).1.eActionPre = now := by
  by_cases fresh : now ≠ d.eActionPre ∨ d.eState = .getAction
  · rw [detectAction_first fresh]
  · simp only [not_or, not_not, ne_eq] at fresh
    obtain ⟨same, started⟩ := fresh
    cases state : d.eState with
    | getAction => contradiction
    | standby => rw [detectAction_standby same.symm state, same]
    | identifyDevice =>
      rcases known with rfl | rfl
      · rw [detectAction_add same.symm state]
        split <;> exact same.symm
      · rw [detectAction_rm same.symm state, removeScan_pre, same]

end Rounds

def lastAction (es : List Event) : Option Action := (es.filterMap Event.action).getLast?

def firstAction (es : List Event) : Option Action := (es.filterMap Event.action).head?

theorem detect_pre {e : Event} (normal : Normal e) (d : Detect) :
    (detect d e).1.eActionPre = e.action.getD d.eActionPre := by
  rcases detect_cases normal d with ⟨absent, ended⟩ | ⟨now, created, ret, action, known, round⟩
  · simp [ended, absent]
  · rw [round, action, detectAction_pre d known, Option.getD_some]

theorem lastAction_cons (e : Event) (es : List Event) :
    lastAction (e :: es) = (lastAction es).or e.action := by
  unfold lastAction
  cases action : e.action with
  | none => simp [List.filterMap_cons_none action]
  | some a =>
    rw [List.filterMap_cons_some action, List.getLast?_cons]
    cases (es.filterMap Event.action).getLast? <;> rfl

theorem run_pre {es : List Event} (normal : ∀ e ∈ es, Normal e) (d : Detect) :
    (run d es).1.eActionPre = (lastAction es).getD d.eActionPre := by
  induction es generalizing d with
  | nil => rfl
  | cons e es ih =>
    have rest := ih (fun f member => normal f (by simp [member])) (detect d e).1
    rw [detect_pre (normal e (by simp))] at rest
    rw [lastAction_cons, run]
    dsimp only
    rw [rest]
    cases lastAction es <;> rfl

/-- What the effects of a burst are to be: at most one worker is started, and nothing is
    scanned once a scan has returned 0. -/
structure Orderly (effects : List Effect) : Prop where
  starts : effects.count .start ≤ 1
  scans : effects.Pairwise fun x y => x = .scan 0 → ∀ ret, y ≠ .scan ret

theorem orderly_one (e : Effect) : Orderly [e] := by
  constructor
  · exact List.count_le_length
  · exact List.pairwise_singleton _ _

theorem orderly_failed {effects : List Effect} (orderly : Orderly effects) {before : List Effect}
    (harmless : ∀ e ∈ before, e ≠ .start ∧ e ≠ .scan 0) : Orderly (before ++ effects) := by
  constructor
  · have absent : before.count .start = 0 := List.count_eq_zero.mpr (by
      intro member
      exact (harmless _ member).1 rfl)
    rw [List.count_append, absent, Nat.zero_add]
    exact orderly.starts
  · apply List.pairwise_append.mpr
    refine ⟨?_, orderly.scans, ?_⟩
    · apply List.pairwise_of_forall_mem_list
      intro x member y _ failed
      exact absurd failed (harmless x member).2
    · intro x member y _ failed
      exact absurd failed (harmless x member).2

def OfAction (a : Action) (es : List Event) : Prop :=
  ∀ e ∈ es, Normal e ∧ ∀ b, e.action = some b → b = a

theorem standby_quiet {a : Action} {es : List Event} (burst : OfAction a es) :
    ∀ d : Detect, d.eState = .standby → d.eActionPre = a → (run d es).2 = [] := by
  induction es with
  | nil =>
    intro d _ _
    rfl
  | cons e es ih =>
    intro d state same
    have later := ih fun f member => burst f (by simp [member])
    obtain ⟨normal, own⟩ := burst e (by simp)
    rw [run]
    dsimp only
    rcases detect_cases normal d with ⟨_, ended⟩ | ⟨now, created, ret, action, _, round⟩
    · rw [ended]
      exact later _ state same
    · rw [round, detectAction_standby (by rw [own now action, same]) state]
      exact later _ state same

theorem removeScan_cases (d : Detect) (ret : Int) :
    (∀ e ∈ (removeScan d ret).2, e ≠ .start) ∧ Orderly (removeScan d ret).2 ∧
      ((removeScan d ret).1.eState = .standby ∨
        (removeScan d ret).1.eState = d.eState ∧ ∀ e ∈ (removeScan d ret).2, e ≠ .scan 0) := by
  have effects : (removeScan d ret).2 = (if d.tid ≠ 0 then [Effect.cancel] else []) ++ [.scan ret] := by
    unfold removeScan
    grind
  have harmless : ∀ e ∈ (if d.tid ≠ 0 then [Effect.cancel] else []), e = .cancel := by
    grind
  rw [effects]
  refine ⟨?_, ?_, ?_⟩
  · grind
  · apply orderly_failed (orderly_one _)
    grind
  · by_cases found : ret = 0
    · left
      simp [removeScan, found]
    · by_cases budget : d.probeCnt > 0
      · right
        constructor
        · simp [removeScan, found, budget]
        · grind
      · left
        simp [removeScan, found, budget]

theorem identify_orderly {a : Action} {es : List Event} (burst : OfAction a es) :
    ∀ d : Detect, d.eState = .identifyDevice → d.eActionPre = a → Orderly (run d es).2 := by
  induction es with
  | nil =>
    intro d _ _
    exact ⟨by simp [run], by simp [run]⟩
  | cons e es ih =>
    intro d state same
    have rest : OfAction a es := fun f member => burst f (by simp [member])
    obtain ⟨normal, own⟩ := burst e (by simp)
    rw [run]
    dsimp only
    rcases detect_cases normal d with ⟨_, ended⟩ | ⟨now, created, ret, action, known, round⟩
    · rw [ended]
      exact ih rest _ state same
    · have here : now = a := own now action
      subst here
      rw [round]
      rcases known with rfl | rfl
      · rw [detectAction_add same state]
        split
        · have quiet := standby_quiet rest
            { d with tid := created, eState := .standby, eActionNow := .add } rfl same
          rw [quiet, List.append_nil]
          exact orderly_one .start
        · exact ih rest _ state same
      · rw [detectAction_rm same state]
        obtain ⟨noStart, orderly, ended | ⟨kept, failed⟩⟩ := removeScan_cases { d with eActionNow := .rm } ret
        · rw [standby_quiet rest _ ended (by rw [removeScan_pre]; exact same), List.append_nil]
          exact orderly
        · have later := ih rest _ (by rw [kept]; exact state) (by rw [removeScan_pre]; exact same)
          exact orderly_failed later fun e member => ⟨noStart e member, failed e member⟩

structure MaximalRun (a : Action) (before : List Event) (first : Event) (rest after : List Event) :
    Prop where
  first : first.action = some a
  equal : ∀ e ∈ rest, ∀ b, e.action = some b → b = a
  left : lastAction before ≠ some a
  right : firstAction after ≠ some a

/-- In each maximal run of equal actions the first event has no effect and the effects of
    the run are orderly. -/
def OrderlyBursts (d : Detect) (es : List Event) : Prop :=
  ∀ a before first rest after, es = before ++ first :: rest ++ after →
    MaximalRun a before first rest after →
    (detect (run d before).1 first).2 = [] ∧ Orderly (run (run d before).1 (first :: rest)).2

theorem hotplug_machine (es : List Event) :
    run init es = run init (normalise es) ∧ OrderlyBursts init (normalise es) := by
  constructor
  · exact run_normalise init es
  · intro a before first rest after split maximal
    have normal : ∀ e ∈ before ++ first :: rest ++ after, Normal e := by
      intro e member
      rw [← split] at member
      exact normalise_normal member
    have started := maximal.first
    obtain ⟨absent, _⟩ | ⟨now, created, ret, action, known, round⟩ :=
      detect_cases (normal first (by simp)) (run init before).1
    · rw [absent] at started
      contradiction
    · rw [action] at started
      cases started
      have pre : (run init before).1.eActionPre = (lastAction before).getD .chg :=
        run_pre (fun e member => normal e (by simp [member])) init
      have fresh : a ≠ (run init before).1.eActionPre := by
        intro same
        rw [pre] at same
        cases last : lastAction before with
        | none =>
          rw [last] at same
          rcases known with rfl | rfl <;> contradiction
        | some b =>
          rw [last] at same
          exact maximal.left (by rw [last, same, Option.getD_some])
      have burst : OfAction a rest := fun e member =>
        ⟨normal e (by simp [member]), maximal.equal e member⟩
      rw [run, round, detectAction_first (.inl fresh)]
      exact ⟨rfl, identify_orderly burst _ rfl rfl⟩

def failedScans (effects : List Effect) : Nat :=
  effects.countP fun e => match e with
    | .scan ret => ret ≠ 0
    | _ => false

def startsBurst (d : Detect) (e : Event) : Bool :=
  match e.action with
  | none => false
  | some action => (if action = .chg then .add else action) ≠ d.eActionPre || d.eState = .getAction

structure Watch where
  machine : Detect
  earlier : Nat
  since : Nat
  deriving DecidableEq

def watch (w : Watch) (e : Event) : Option Watch :=
  let (machine, effects) := detect w.machine e
  some (if startsBurst w.machine e then ⟨machine, w.earlier + w.since, 0⟩
    else ⟨machine, w.earlier, w.since + failedScans effects⟩)

def watched : Watch := ⟨init, 0, 0⟩

/-- The round enters EN_USB_STANDBY after a scan that did not return 0. -/
def GivesUp (d : Detect) (e : Event) : Prop :=
  0 < failedScans (detect d e).2 ∧ (detect d e).1.eState = .standby

/-- Every burst that is given up has made eleven unsuccessful scans. -/
def FullBudget (es : List Event) : Prop :=
  Meets watch (fun w e => GivesUp w.machine e →
    w.since + failedScans (detect w.machine e).2 = 11) watched es

/-- Every burst that is given up began with probe_cnt back at 10: the scans that failed
    before it are a multiple of eleven. -/
def BudgetRestored (es : List Event) : Prop :=
  Meets watch (fun w e => GivesUp w.machine e → 11 ∣ w.earlier) watched es

structure Counted (w : Watch) : Prop where
  left : w.machine.probeCnt ≤ 10
  total : (w.earlier + w.since + w.machine.probeCnt) % 11 = 10
  burst : w.machine.eState = .identifyDevice → w.since + w.machine.probeCnt ≤ 10

/-- What a round does to the counter, as far as the budget of a burst goes. -/
inductive Spends (d : Detect) (starts : Bool) (d' : Detect) (failed : Nat) : Prop
  | begins (burst : starts = true) (none : failed = 0) (same : d'.probeCnt = d.probeCnt)
  | nothing (burst : starts = false) (none : failed = 0) (same : d'.probeCnt = d.probeCnt)
      (state : d'.eState = d.eState ∨ d'.eState = .standby)
  | spends (burst : starts = false) (one : failed = 1) (state : d.eState = .identifyDevice)
      (some : 0 < d.probeCnt) (next : d'.probeCnt = d.probeCnt - 1)
      (goesOn : d'.eState = .identifyDevice)
  | givesUp (burst : starts = false) (one : failed = 1) (state : d.eState = .identifyDevice)
      (empty : d.probeCnt = 0) (next : d'.probeCnt = 10) (ends : d'.eState = .standby)

theorem failedScans_removeScan (d : Detect) (ret : Int) :
    failedScans (removeScan d ret).2 = if ret = 0 then 0 else 1 := by
  have effects : (removeScan d ret).2 = if d.tid ≠ 0 then [Effect.cancel, .scan ret] else [.scan ret] := by
    unfold removeScan
    grind
  rw [effects]
  by_cases worker : d.tid = 0 <;> by_cases found : ret = 0 <;> simp [failedScans, worker, found]

theorem removeScan_spends {d : Detect} (state : d.eState = .identifyDevice) (now : Action)
    (ret : Int) : Spends d false (removeScan { d with eActionNow := now } ret).1
      (failedScans (removeScan { d with eActionNow := now } ret).2) := by
  rw [failedScans_removeScan]
  by_cases found : ret = 0
  · rw [if_pos found]
    exact .nothing rfl rfl (by simp [removeScan, found]) (.inr (by simp [removeScan, found]))
  · rw [if_neg found]
    by_cases budget : 0 < d.probeCnt
    · exact .spends rfl rfl state budget (by simp [removeScan, found, budget])
        (by simp [removeScan, found, budget, state])
    · exact .givesUp rfl rfl state (by omega) (by simp [removeScan, found, budget])
        (by simp [removeScan, found, budget])

theorem normal_spends {e : Event} (normal : Normal e) (d : Detect) :
    Spends d (startsBurst d e) (detect d e).1 (failedScans (detect d e).2) := by
  rcases detect_cases normal d with ⟨absent, ended⟩ | ⟨now, created, ret, action, known, round⟩
  · rw [ended]
    exact .nothing (by simp [startsBurst, absent]) rfl rfl (.inl rfl)
  · have starts : startsBurst d e = (decide (now ≠ d.eActionPre) || decide (d.eState = .getAction)) := by
      rcases known with rfl | rfl <;> simp [startsBurst, action]
    rw [round, starts]
    by_cases fresh : now ≠ d.eActionPre ∨ d.eState = .getAction
    · rw [detectAction_first fresh]
      exact .begins (by simpa using fresh) rfl rfl
    · have goesOn : (decide (now ≠ d.eActionPre) || decide (d.eState = .getAction)) = false := by
        simpa using fresh
      rw [goesOn]
      simp only [not_or, not_not, ne_eq] at fresh
      obtain ⟨same, started⟩ := fresh
      cases state : d.eState with
      | getAction => contradiction
      | standby =>
        rw [detectAction_standby same.symm state]
        exact .nothing rfl rfl rfl (.inl rfl)
      | identifyDevice =>
        rcases known with rfl | rfl
        · rw [detectAction_add same.symm state]
          split
          · exact .nothing rfl rfl rfl (.inr rfl)
          · exact .nothing rfl rfl rfl (.inl rfl)
        · rw [detectAction_rm same.symm state]
          exact removeScan_spends state .rm ret

theorem startsBurst_normal {e f : Event} (kept : e.normal = some f) (d : Detect) :
    startsBurst d e = startsBurst d f := by
  obtain ⟨rfl, _⟩ | ⟨msg, created, ret, rfl, change, rfl⟩ := kept_cases kept
  · rfl
  · simp [startsBurst, Event.action, change, add_message_action]

theorem detect_spends (d : Detect) (e : Event) :
    Spends d (startsBurst d e) (detect d e).1 (failedScans (detect d e).2) := by
  cases kept : e.normal with
  | none =>
    rw [detect_dropped kept]
    exact .nothing (by simp [startsBurst, dropped_unknown kept]) rfl rfl (.inl rfl)
  | some f =>
    rw [detect_normal kept, startsBurst_normal kept]
    exact normal_spends (kept_normal kept) d

theorem counted_step (w : Watch) (e : Event) (t : Watch) (counted : Counted w)
    (taken : watch w e = some t) : Counted t := by
  obtain ⟨left, total, burst⟩ := counted
  simp only [watch, Option.some.injEq] at taken
  subst taken
  cases detect_spends w.machine e with
  | begins starts absent same =>
    rw [if_pos starts]
    constructor
    · dsimp only
      omega
    · dsimp only
      omega
    · intro _
      dsimp only
      omega
  | nothing goesOn absent same state =>
    simp only [goesOn, absent, Bool.false_eq_true, if_false]
    constructor
    · dsimp only
      omega
    · dsimp only
      omega
    · intro identify
      dsimp only at identify ⊢
      rcases state with kept | ended
      · have small := burst (by rw [← kept]; exact identify)
        omega
      · rw [ended] at identify
        contradiction
  | spends goesOn one state budget next stays =>
    have small := burst state
    simp only [goesOn, one, Bool.false_eq_true, if_false]
    constructor
    · dsimp only
      omega
    · dsimp only
      omega
    · intro _
      dsimp only
      omega
  | givesUp goesOn one state empty next ends =>
    simp only [goesOn, one, Bool.false_eq_true, if_false]
    constructor
    · dsimp only
      omega
    · dsimp only
      omega
    · intro identify
      dsimp only at identify
      rw [ends] at identify
      contradiction

theorem givesUp_iff (w : Watch) (e : Event) (counted : Counted w) :
    (GivesUp w.machine e → w.since + failedScans (detect w.machine e).2 = 11) ↔
      (GivesUp w.machine e → 11 ∣ w.earlier) := by
  obtain ⟨left, total, burst⟩ := counted
  cases detect_spends w.machine e with
  | begins starts absent same => simp [GivesUp, absent]
  | nothing goesOn absent same state => simp [GivesUp, absent]
  | spends goesOn one state budget next stays => simp [GivesUp, stays]
  | givesUp goesOn one state empty next ends =>
    have small := burst state
    simp only [GivesUp, one, ends, Nat.zero_lt_one, and_self, forall_const]
    omega

/-- In every history the bursts that are given up all have the full budget exactly when
    each of them began with the counter restored. -/
theorem full_budget_iff_restored (es : List Event) : FullBudget es ↔ BudgetRestored es := by
  have start : Counted watched := by
    constructor
    · decide
    · decide
    · intro identify
      contradiction
  exact meets_iff_meets givesUp_iff counted_step start es

def added : Event := .uevent addMessage 1 0

def removed (ret : Int) : Event := .uevent [actionKey ++ ['r', 'e', 'm', 'o', 'v', 'e']] 0 ret

/-- One failed scan of a burst that then succeeds is missing from the next one. -/
theorem second_burst_short_of_budget :
    ¬FullBudget ([removed 1, removed 1, removed 0, added] ++ List.replicate 11 (removed 1)) := by
  intro full
  have split : [removed 1, removed 1, removed 0, added] ++ List.replicate 11 (removed 1) =
      ([removed 1, removed 1, removed 0, added] ++ List.replicate 10 (removed 1)) ++
        removed 1 :: [] := by decide
  rw [FullBudget, split] at full
  have reached : exec watch watched
      ([removed 1, removed 1, removed 0, added] ++ List.replicate 10 (removed 1)) =
        some ⟨⟨0, .identifyDevice, .rm, .rm, 0⟩, 1, 9⟩ := by decide
  have scans := meets_at full reached ⟨by decide, by decide⟩
  exact absurd scans (by decide)

end TestSource.Hotplug
