import TestSource.Runs
import Mathlib.Data.List.Basic

/- The background workers of the usb, sdcard, flash and led tests: xl_mnt_mng.c, flash.c and
   led_test.c. Each worker has a thread-id variable and a break flag. A thread id is the
   position of its thread plus one, 0 means no thread; thread creation succeeds. What the
   workers copy and display is left out, but for the data that the workers of the usb and
   sdcard tests take their mount path from. No result means a fault: a thread that has been
   joined is cancelled or joined again, data is freed twice, or a mount path is read from
   data that is freed or not there. -/
namespace TestSource
open Runs

inductive TestModule where
  | usb
  | sdcard
  | flash
  | led
  deriving DecidableEq

/-- tid_w, tid_r, sdtid_w, sdtid_r of xl_mnt_mng.c, tid_w, tid_r of flash.c, led_tid. -/
inductive Slot where
  | usbW
  | usbR
  | sdW
  | sdR
  | flashW
  | flashR
  | led
  deriving DecidableEq

def Slot.owner : Slot → TestModule
  | .usbW | .usbR => .usb
  | .sdW | .sdR => .sdcard
  | .flashW | .flashR => .flash
  | .led => .led

inductive ThreadPhase where
  | starting
  | looping
  | ended
  | joined
  deriving DecidableEq

structure TestThread where
  slot : Slot
  phase : ThreadPhase
  deriving DecidableEq

def TestThread.alive (th : TestThread) : Bool := th.phase = .starting || th.phase = .looping

inductive Buffer where
  | null
  | held
  | freed
  deriving DecidableEq

structure TestThreads where
  tid : Slot → Nat
  stop : Slot → Bool
  threads : List TestThread
  data : TestModule → Buffer

def TestThreads.init : TestThreads := ⟨fun _ => 0, fun _ => false, [], fun _ => .null⟩

def TestThreads.setTid (s : TestThreads) (k : Slot) (n : Nat) : TestThreads :=
  { s with tid := fun j => if j = k then n else s.tid j }

def TestThreads.setStop (s : TestThreads) (k : Slot) (b : Bool) : TestThreads :=
  { s with stop := fun j => if j = k then b else s.stop j }

def TestThreads.setData (s : TestThreads) (m : TestModule) (b : Buffer) : TestThreads :=
  { s with data := fun j => if j = m then b else s.data j }

/-- The data is that of a list with a partition, or NULL; what it was before is not freed. -/
def mntUsbInitData (found : Bool) (s : TestThreads) : TestThreads :=
  s.setData .usb (if found then .held else .null)

def mntSdcardInitData (found : Bool) (s : TestThreads) : TestThreads :=
  ((s.setStop .sdR false).setStop .sdW false).setData .sdcard (if found then .held else .null)

/-- The first step of a worker: whether it has read its mount path, if it has to. Only the
    worker that writes to the usb disk waits for data that is not there. -/
def mountPathRead (s : TestThreads) (k : Slot) : Option Bool :=
  match k with
  | .flashW | .flashR | .led => some true
  | .usbW | .usbR | .sdW | .sdR =>
      match s.data k.owner with
      | .held => some true
      | .null => if k = .usbW then some false else none
      | .freed => none

def startThread (k : Slot) (s : TestThreads) : TestThreads :=
  if s.tid k = 0 then
    { s.setTid k (s.threads.length + 1) with threads := s.threads ++ [⟨k, .starting⟩] }
  else s

def doWriteUsbAll := startThread .usbW
def doReadUsbAll := startThread .usbR
def doWriteSdcardAll := startThread .sdW
def doReadSdcardAll := startThread .sdR
def doWriteFlashAll := startThread .flashW
def doReadFlashAll := startThread .flashR
def ledStartRun := startThread .led

/-- Cancel and join the thread of `k` if there is one, and clear the variable of `clear`. A
    thread that has not run yet takes its first step before it can be cancelled. -/
def reap (k clear : Slot) (s : TestThreads) : Option TestThreads :=
  if s.tid k = 0 then some s
  else
    match s.threads[s.tid k - 1]? with
    | none => none
    | some th =>
        if th.phase = .joined ∨ th.phase = .starting ∧ mountPathRead s th.slot = none then none
        else some ({ s with
          threads := s.threads.set (s.tid k - 1) { th with phase := .joined } }.setTid clear 0)

/-- The pointer is not set to NULL. -/
def freeData (m : TestModule) (s : TestThreads) : Option TestThreads :=
  match s.data m with
  | .null => some s
  | .held => some (s.setData m .freed)
  | .freed => none

def termData (free : TestThreads → Option TestThreads) (w r clearW clearR : Slot) (s : TestThreads) :
    Option TestThreads := do
  let s ← free ((s.setStop r true).setStop w true)
  let s ← reap w clearW s
  reap r clearR s

def mntUsbTermData := termData (freeData .usb) .usbW .usbR .usbW .usbR

/-- Stops the sdcard workers and clears the variables of the usb workers. -/
def mntSdcardTermData := termData (freeData .sdcard) .sdW .sdR .usbW .usbR

def mntFlashTermData := termData some .flashW .flashR .flashW .flashR

def ledStopRun (s : TestThreads) : TestThreads := s.setStop .led true

inductive Command where
  | doWriteUsbAll
  | doReadUsbAll
  | mntUsbTermData
  | doWriteSdcardAll
  | doReadSdcardAll
  | mntSdcardTermData
  | doWriteFlashAll
  | doReadFlashAll
  | mntFlashTermData
  | ledStartRun
  | ledStopRun
  deriving DecidableEq

def runCommand (s : TestThreads) : Command → Option TestThreads
  | .doWriteUsbAll => some (doWriteUsbAll s)
  | .doReadUsbAll => some (doReadUsbAll s)
  | .mntUsbTermData => mntUsbTermData s
  | .doWriteSdcardAll => some (doWriteSdcardAll s)
  | .doReadSdcardAll => some (doReadSdcardAll s)
  | .mntSdcardTermData => mntSdcardTermData s
  | .doWriteFlashAll => some (doWriteFlashAll s)
  | .doReadFlashAll => some (doReadFlashAll s)
  | .mntFlashTermData => mntFlashTermData s
  | .ledStartRun => some (ledStartRun s)
  | .ledStopRun => some (ledStopRun s)

/-- One step of a thread: all but the led thread clear their own break flag before they
    enter the loop, and a loop is left when its flag is found set. -/
def runThread (i : Nat) (s : TestThreads) : Option TestThreads :=
  match s.threads[i]? with
  | none => some s
  | some th =>
      match th.phase with
      | .starting =>
          (mountPathRead s th.slot).map fun read =>
            if read then
              let s := if th.slot = .led then s else s.setStop th.slot false
              { s with threads := s.threads.set i { th with phase := .looping } }
            else s
      | .looping =>
          some (if s.stop th.slot then
            { s with threads := s.threads.set i { th with phase := .ended } }
          else s)
      | _ => some s

inductive ThreadEvent where
  | mntUsbInitData (found : Bool)
  | mntSdcardInitData (found : Bool)
  | command (c : Command)
  | thread (i : Nat)

def threadsStep (s : TestThreads) : ThreadEvent → Option TestThreads
  | .mntUsbInitData found => some (mntUsbInitData found s)
  | .mntSdcardInitData found => some (mntSdcardInitData found s)
  | .command c => runCommand s c
  | .thread i => runThread i s

def TestThreads.Running (s : TestThreads) (k : Slot) : Prop :=
  ∃ th ∈ s.threads, th.slot = k ∧ th.alive = true

instance (s : TestThreads) (k : Slot) : Decidable (s.Running k) :=
  inferInstanceAs (Decidable (∃ th ∈ s.threads, th.slot = k ∧ th.alive = true))

def TestThreads.threadsOf (s : TestThreads) (k : Slot) : List TestThread :=
  s.threads.filter fun th => th.slot = k

def Command.owner : Command → TestModule
  | .doWriteUsbAll | .doReadUsbAll | .mntUsbTermData => .usb
  | .doWriteSdcardAll | .doReadSdcardAll | .mntSdcardTermData => .sdcard
  | .doWriteFlashAll | .doReadFlashAll | .mntFlashTermData => .flash
  | .ledStartRun | .ledStopRun => .led

/-- The worker a start command is for; a stop command is for all workers of its module. -/
def Command.starts : Command → Option Slot
  | .doWriteUsbAll => some .usbW
  | .doReadUsbAll => some .usbR
  | .doWriteSdcardAll => some .sdW
  | .doReadSdcardAll => some .sdR
  | .doWriteFlashAll => some .flashW
  | .doReadFlashAll => some .flashR
  | .ledStartRun => some .led
  | _ => none

/-- Each thread-id variable is non-zero exactly while its own thread is running. -/
def BookKept (s : TestThreads) : Prop := ∀ k, s.tid k ≠ 0 ↔ s.Running k

/-- What a command has to do: run the worker it starts, leave no worker of its module
    running when it is a stop, and change nothing of the other modules. -/
structure Obeyed (s : TestThreads) (c : Command) (t : TestThreads) : Prop where
  started : ∀ k, c.starts = some k → t.Running k
  stopped : c.starts = none → ∀ k, k.owner = c.owner → ¬ t.Running k
  frame : ∀ k, k.owner ≠ c.owner → t.tid k = s.tid k ∧ t.threadsOf k = s.threadsOf k

/-- Data is freed only once, with every worker of the usb test past its first step or waiting
    for data. The sdcard is stopped only with no sdcard worker started, the led test only
    with no led worker started, and the led worker is not started after a stop. A worker
    takes its first step only while its data is there, or waits. -/
def AvoidsSlips (s : TestThreads) : ThreadEvent → Prop
  | .command .mntUsbTermData => s.data .usb ≠ .freed ∧
      ∀ th ∈ s.threads, th.slot.owner = .usb → th.phase = .starting → th.slot = .usbW ∧ s.data .usb = .null
  | .command .mntSdcardTermData => s.data .sdcard ≠ .freed ∧ s.tid .sdW = 0 ∧ s.tid .sdR = 0
  | .command .ledStopRun => s.tid .led = 0
  | .command .ledStartRun => s.stop .led = false
  | .thread i => ∀ th, s.threads[i]? = some th → th.phase = .starting → mountPathRead s th.slot ≠ none
  | _ => True

structure Registered (s : TestThreads) : Prop where
  own : ∀ j th, s.threads[j]? = some th → th.alive = true → s.tid th.slot = j + 1
  held : ∀ k, s.tid k ≠ 0 →
    ∃ th, s.threads[s.tid k - 1]? = some th ∧ th.slot = k ∧ th.alive = true

def Calm (s : TestThreads) : Prop :=
  ∀ th ∈ s.threads, th.alive = true → th.phase = .looping ∨ th.slot = .led →
    s.stop th.slot = false

theorem registered_bookKept {s : TestThreads} (reg : Registered s) : BookKept s := by
  intro k
  constructor
  · intro set
    obtain ⟨th, get, slot, alive⟩ := reg.held k set
    exact ⟨th, List.mem_of_getElem? get, slot, alive⟩
  · rintro ⟨th, mem, slot, alive⟩
    obtain ⟨j, get⟩ := List.mem_iff_getElem?.mp mem
    have named := reg.own j th get alive
    rw [slot] at named
    omega

theorem not_running {s : TestThreads} (reg : Registered s) {k : Slot} (zero : s.tid k = 0) :
    ¬ s.Running k := by
  intro running
  exact (registered_bookKept reg k).mpr running zero

theorem registered_start {s : TestThreads} (reg : Registered s) (k : Slot) :
    Registered (startThread k s) := by
  unfold startThread
  by_cases free : s.tid k = 0
  · rw [if_pos free]
    constructor
    · intro j th get alive
      simp only [TestThreads.setTid] at get ⊢
      rcases Nat.lt_trichotomy j s.threads.length with old | last | beyond
      · rw [List.getElem?_append_left old] at get
        have named := reg.own j th get alive
        have other : th.slot ≠ k := by
          rintro rfl
          omega
        rw [if_neg other, named]
      · subst last
        simp only [List.getElem?_concat_length, Option.some.injEq] at get
        subst get
        simp
      · rw [List.getElem?_eq_none (by simp; omega)] at get
        cases get
    · intro j set
      simp only [TestThreads.setTid] at set ⊢
      by_cases same : j = k
      · refine ⟨⟨k, .starting⟩, ?_, same.symm, rfl⟩
        simp [same]
      · rw [if_neg same] at set ⊢
        obtain ⟨th, get, slot, alive⟩ := reg.held j set
        have inside := (List.getElem?_eq_some_iff.mp get).1
        exact ⟨th, by rw [List.getElem?_append_left inside, get], slot, alive⟩
  · rw [if_neg free]
    exact reg

theorem calm_start {s : TestThreads} (calm : Calm s) {k : Slot}
    (ready : k = .led → s.stop .led = false) : Calm (startThread k s) := by
  unfold startThread
  split
  · intro th mem alive polls
    rcases List.mem_append.mp mem with old | new
    · exact calm th old alive polls
    · rw [List.mem_singleton.mp new] at polls ⊢
      rcases polls with looping | led
      · cases looping
      · exact led ▸ ready led
  · exact calm

theorem start_running {s : TestThreads} (reg : Registered s) (k : Slot) :
    (startThread k s).Running k := by
  rw [← registered_bookKept (registered_start reg k)]
  unfold startThread
  by_cases free : s.tid k = 0
  · simp [free, TestThreads.setTid]
  · simp [free]

def Untouched (s t : TestThreads) (j : Slot) : Prop :=
  t.tid j = s.tid j ∧ t.threadsOf j = s.threadsOf j

theorem start_untouched (s : TestThreads) {k j : Slot} (other : j ≠ k) :
    Untouched s (startThread k s) j := by
  unfold startThread Untouched
  split
  · simp [TestThreads.setTid, TestThreads.threadsOf, other, Ne.symm other]
  · exact ⟨rfl, rfl⟩

theorem filter_set {l : List TestThread} {i : Nat} {th : TestThread} (get : l[i]? = some th)
    (phase : ThreadPhase) {j : Slot} (other : th.slot ≠ j) :
    (l.set i { th with phase := phase }).filter (fun x => x.slot = j) =
      l.filter fun x => x.slot = j := by
  induction l generalizing i with
  | nil => rfl
  | cons x l ih =>
    cases i with
    | zero =>
      obtain rfl : x = th := by simpa using get
      simp [other]
    | succ i =>
      have rest := ih (i := i) (by simpa using get)
      simp only [List.set_cons_succ, List.filter_cons, rest]

structure Reaped (k : Slot) (s t : TestThreads) : Prop where
  registered : Registered t
  cleared : t.tid k = 0
  flags : t.stop = s.stop
  data : t.data = s.data
  living : ∀ th ∈ t.threads, th.alive = true → th ∈ s.threads
  others : ∀ j, j ≠ k → Untouched s t j

theorem registered_joined {s : TestThreads} (reg : Registered s) {k : Slot} {th : TestThread}
    (set : s.tid k ≠ 0) (get : s.threads[s.tid k - 1]? = some th) (slot : th.slot = k) :
    Registered ({ s with
      threads := s.threads.set (s.tid k - 1) { th with phase := .joined } }.setTid k 0) := by
  constructor
  · intro j x found living
    simp only [TestThreads.setTid] at found ⊢
    by_cases here : s.tid k - 1 = j
    · subst here
      rw [List.getElem?_set_self (List.getElem?_eq_some_iff.mp get).1] at found
      cases found
      cases living
    · rw [List.getElem?_set_ne here] at found
      have named := reg.own j x found living
      have other : x.slot ≠ k := by
        rintro rfl
        omega
      rw [if_neg other, named]
  · intro j more
    simp only [TestThreads.setTid] at more ⊢
    by_cases same : j = k
    · simp [same] at more
    · rw [if_neg same] at more ⊢
      obtain ⟨x, found, mine, living⟩ := reg.held j more
      have apart : s.tid k - 1 ≠ s.tid j - 1 := by
        intro hit
        rw [← hit, get] at found
        cases found
        exact same (mine.symm.trans slot)
      exact ⟨x, by rw [List.getElem?_set_ne apart, found], mine, living⟩

theorem read_same {s t : TestThreads} (data : t.data = s.data) (k : Slot) :
    mountPathRead t k = mountPathRead s k := by
  unfold mountPathRead
  rw [data]

def Ready (s : TestThreads) (k : Slot) : Prop :=
  ∀ th ∈ s.threads, th.slot = k → th.phase = .starting → mountPathRead s k ≠ none

theorem reap_own {s : TestThreads} (reg : Registered s) {k : Slot} (ready : Ready s k) :
    ∃ t, reap k k s = some t ∧ Reaped k s t := by
  unfold reap
  by_cases zero : s.tid k = 0
  · rw [if_pos zero]
    exact ⟨s, rfl, reg, zero, rfl, rfl, fun _ mem _ => mem, fun _ _ => ⟨rfl, rfl⟩⟩
  · obtain ⟨th, get, slot, alive⟩ := reg.held k zero
    have fresh : ¬ (th.phase = .joined ∨ th.phase = .starting ∧ mountPathRead s th.slot = none) := by
      rintro (joined | ⟨starting, blind⟩)
      · simp [TestThread.alive, joined] at alive
      · rw [slot] at blind
        exact ready th (List.mem_of_getElem? get) slot starting blind
    simp only [zero, ↓reduceIte, get, fresh]
    refine ⟨_, rfl, registered_joined reg zero get slot, ?_, rfl, rfl, ?_, ?_⟩
    · simp [TestThreads.setTid]
    · intro x mem living
      rcases List.mem_or_eq_of_mem_set mem with old | new
      · exact old
      · subst new
        cases living
    · intro j other
      refine ⟨by simp [TestThreads.setTid, other], ?_⟩
      exact filter_set get .joined (fun same => other (same.symm.trans slot))

theorem registered_setStop {s : TestThreads} (reg : Registered s) (k : Slot) (b : Bool) :
    Registered (s.setStop k b) := ⟨reg.own, reg.held⟩

structure Terminated (w r : Slot) (s t : TestThreads) : Prop where
  registered : Registered t
  calm : Calm t
  clearedW : t.tid w = 0
  clearedR : t.tid r = 0
  others : ∀ j, j ≠ w → j ≠ r → Untouched s t j

theorem calm_stopped {s t : TestThreads} (reg : Registered t) (calm : Calm s) {w r : Slot}
    (clearedW : t.tid w = 0) (clearedR : t.tid r = 0)
    (living : ∀ th ∈ t.threads, th.alive = true → th ∈ s.threads)
    (flags : ∀ j, j ≠ w → j ≠ r → t.stop j = s.stop j) : Calm t := by
  intro th mem alive polls
  have notW : th.slot ≠ w := fun same => not_running reg clearedW ⟨th, mem, same, alive⟩
  have notR : th.slot ≠ r := fun same => not_running reg clearedR ⟨th, mem, same, alive⟩
  rw [flags th.slot notW notR]
  exact calm th (living th mem alive) alive polls

structure Released (m : TestModule) (s t : TestThreads) : Prop where
  tid : t.tid = s.tid
  stop : t.stop = s.stop
  threads : t.threads = s.threads
  null : s.data m = .null → t.data m = .null

theorem freeData_released {s : TestThreads} {m : TestModule} (once : s.data m ≠ .freed) :
    ∃ t, freeData m s = some t ∧ Released m s t := by
  unfold freeData
  cases found : s.data m with
  | null => exact ⟨s, rfl, rfl, rfl, rfl, fun _ => found⟩
  | held => exact ⟨_, rfl, rfl, rfl, rfl, fun null => by rw [found] at null; cases null⟩
  | freed => exact absurd found once

theorem registered_same {s t : TestThreads} (reg : Registered s) (tid : t.tid = s.tid)
    (threads : t.threads = s.threads) : Registered t := by
  constructor
  · rw [tid, threads]
    exact reg.own
  · rw [tid, threads]
    exact reg.held

theorem termData_own {s u : TestThreads} (reg : Registered s) (calm : Calm s) {w r : Slot} {m : TestModule}
    {free : TestThreads → Option TestThreads} (apart : w ≠ r)
    (freed : free ((s.setStop r true).setStop w true) = some u)
    (released : Released m ((s.setStop r true).setStop w true) u) (readyW : Ready u w) (readyR : Ready u r) :
    ∃ t, termData free w r w r s = some t ∧ Terminated w r s t := by
  have marked := registered_setStop (registered_setStop reg r true) w true
  obtain ⟨v, first, one⟩ := reap_own (registered_same marked released.tid released.threads) readyW
  have still : Ready v r := by
    intro th mem slot starting
    rw [read_same one.data]
    exact readyR th (one.living th mem (by simp [TestThread.alive, starting])) slot starting
  obtain ⟨t, second, two⟩ := reap_own one.registered still
  have clearedW : t.tid w = 0 := (two.others w apart).1.trans one.cleared
  refine ⟨t, by simp [termData, freed, first, second], two.registered, ?_, clearedW, two.cleared, ?_⟩
  · apply calm_stopped two.registered calm clearedW two.cleared
    · intro th mem alive
      have before := one.living th (two.living th mem alive) alive
      rw [released.threads] at before
      exact before
    · intro j notW notR
      rw [two.flags, one.flags, released.stop]
      simp [TestThreads.setStop, notW, notR]
  · intro j notW notR
    have a := one.others j notW
    have b := two.others j notR
    refine ⟨b.1.trans (a.1.trans (congrFun released.tid j)), b.2.trans (a.2.trans ?_)⟩
    rw [TestThreads.threadsOf, released.threads]
    rfl

theorem termData_idle {s : TestThreads} (reg : Registered s) (calm : Calm s) {w r : Slot} {m : TestModule}
    (clearW clearR : Slot) (once : s.data m ≠ .freed) (idleW : s.tid w = 0) (idleR : s.tid r = 0) :
    ∃ t, termData (freeData m) w r clearW clearR s = some t ∧ Terminated w r s t := by
  obtain ⟨t, freed, released⟩ := freeData_released (s := (s.setStop r true).setStop w true) (m := m) once
  have clearedW : t.tid w = 0 := (congrFun released.tid w).trans idleW
  have clearedR : t.tid r = 0 := (congrFun released.tid r).trans idleR
  refine ⟨t, by simp [termData, reap, freed, clearedW, clearedR], ?_⟩
  have marked := registered_setStop (registered_setStop reg r true) w true
  have kept := registered_same marked released.tid released.threads
  refine ⟨kept, ?_, clearedW, clearedR, fun j _ _ => ⟨congrFun released.tid j, ?_⟩⟩
  · apply calm_stopped kept calm clearedW clearedR
    · intro th mem _
      rw [released.threads] at mem
      exact mem
    · intro j notW notR
      rw [released.stop]
      simp [TestThreads.setStop, notW, notR]
  · rw [TestThreads.threadsOf, released.threads]
    rfl

theorem usb_ready {s u : TestThreads} (released : Released .usb s u)
    (begun : ∀ th ∈ s.threads, th.slot.owner = .usb → th.phase = .starting →
      th.slot = .usbW ∧ s.data .usb = .null) {k : Slot} (owner : k.owner = .usb) : Ready u k := by
  intro th mem slot starting
  rw [released.threads] at mem
  obtain ⟨write, null⟩ := begun th mem (slot ▸ owner) starting
  rw [← slot, write]
  simp [mountPathRead, Slot.owner, released.null null]

structure Steady (s : TestThreads) : Prop where
  registered : Registered s
  calm : Calm s

theorem start_obeyed {s : TestThreads} (steady : Steady s) {c : Command} {k : Slot}
    (starts : c.starts = some k) (owner : k.owner = c.owner)
    (ready : k = .led → s.stop .led = false) :
    Steady (startThread k s) ∧ Obeyed s c (startThread k s) := by
  refine ⟨⟨registered_start steady.registered k, calm_start steady.calm ready⟩, ?_, ?_, ?_⟩
  · intro j same
    rw [starts] at same
    cases same
    exact start_running steady.registered k
  · intro none
    rw [starts] at none
    cases none
  · intro j foreign
    apply start_untouched
    rintro rfl
    exact foreign owner

theorem stop_obeyed {s t : TestThreads} {c : Command} {w r : Slot} (done : Terminated w r s t)
    (stops : c.starts = none) (all : ∀ k, k.owner = c.owner ↔ k = w ∨ k = r) :
    Steady t ∧ Obeyed s c t := by
  refine ⟨⟨done.registered, done.calm⟩, ?_, ?_, ?_⟩
  · intro k same
    rw [stops] at same
    cases same
  · intro _ k mine
    rcases (all k).mp mine with rfl | rfl
    · exact not_running done.registered done.clearedW
    · exact not_running done.registered done.clearedR
  · intro j foreign
    have outside := mt (all j).mpr foreign
    exact done.others j (fun same => outside (.inl same)) (fun same => outside (.inr same))

theorem ledStopRun_idle {s : TestThreads} (steady : Steady s) (idle : s.tid .led = 0) :
    Terminated .led .led s (ledStopRun s) := by
  have marked := registered_setStop steady.registered .led true
  refine ⟨marked, ?_, idle, idle, fun _ _ _ => ⟨rfl, rfl⟩⟩
  apply calm_stopped marked steady.calm idle idle (fun _ mem _ => mem)
  intro j other _
  simp [TestThreads.setStop, other]

theorem command_obeyed {s : TestThreads} (steady : Steady s) (c : Command)
    (met : AvoidsSlips s (.command c)) :
    ∃ t, runCommand s c = some t ∧ Steady t ∧ Obeyed s c t := by
  obtain ⟨reg, calm⟩ := steady
  have steady : Steady s := ⟨reg, calm⟩
  cases c with
  | doWriteUsbAll => exact ⟨_, rfl, start_obeyed steady rfl rfl nofun⟩
  | doReadUsbAll => exact ⟨_, rfl, start_obeyed steady rfl rfl nofun⟩
  | doWriteSdcardAll => exact ⟨_, rfl, start_obeyed steady rfl rfl nofun⟩
  | doReadSdcardAll => exact ⟨_, rfl, start_obeyed steady rfl rfl nofun⟩
  | doWriteFlashAll => exact ⟨_, rfl, start_obeyed steady rfl rfl nofun⟩
  | doReadFlashAll => exact ⟨_, rfl, start_obeyed steady rfl rfl nofun⟩
  | ledStartRun => exact ⟨_, rfl, start_obeyed steady rfl rfl fun _ => met⟩
  | mntUsbTermData =>
    obtain ⟨u, freed, released⟩ := freeData_released (s := (s.setStop .usbR true).setStop .usbW true) met.1
    obtain ⟨t, run, done⟩ := termData_own reg calm (show Slot.usbW ≠ .usbR by decide) freed released
      (usb_ready released met.2 rfl) (usb_ready released met.2 rfl)
    exact ⟨t, run, stop_obeyed done rfl fun k => by cases k <;> decide⟩
  | mntFlashTermData =>
    have ready (u : TestThreads) : Ready u .flashW ∧ Ready u .flashR :=
      ⟨fun _ _ _ _ => by simp [mountPathRead], fun _ _ _ _ => by simp [mountPathRead]⟩
    obtain ⟨t, run, done⟩ := termData_own (m := .flash) reg calm (show Slot.flashW ≠ .flashR by decide) rfl
      ⟨rfl, rfl, rfl, fun null => null⟩ (ready _).1 (ready _).2
    exact ⟨t, run, stop_obeyed done rfl fun k => by cases k <;> decide⟩
  | mntSdcardTermData =>
    obtain ⟨t, run, done⟩ := termData_idle reg calm .usbW .usbR met.1 met.2.1 met.2.2
    exact ⟨t, run, stop_obeyed done rfl fun k => by cases k <;> decide⟩
  | ledStopRun =>
    exact ⟨_, rfl, stop_obeyed (ledStopRun_idle steady met) rfl fun k => by cases k <;> decide⟩

theorem registered_phase {s : TestThreads} (reg : Registered s) {i : Nat} {th : TestThread}
    (get : s.threads[i]? = some th) (alive : th.alive = true) (phase : ThreadPhase)
    (still : TestThread.alive ⟨th.slot, phase⟩ = true) {t : TestThreads} (tid : t.tid = s.tid)
    (threads : t.threads = s.threads.set i ⟨th.slot, phase⟩) : Registered t := by
  have inside := (List.getElem?_eq_some_iff.mp get).1
  constructor
  · intro j x found living
    rw [threads] at found
    rw [tid]
    by_cases here : i = j
    · subst here
      rw [List.getElem?_set_self inside] at found
      cases found
      exact reg.own i th get alive
    · rw [List.getElem?_set_ne here] at found
      exact reg.own j x found living
  · intro k set
    rw [tid] at set ⊢
    rw [threads]
    obtain ⟨x, found, mine, living⟩ := reg.held k set
    by_cases here : i = s.tid k - 1
    · rw [← here, get] at found
      cases found
      exact ⟨⟨th.slot, phase⟩, by rw [← here, List.getElem?_set_self inside], mine, still⟩
    · exact ⟨x, by rw [List.getElem?_set_ne here, found], mine, living⟩

/-- A thread step moves a thread into its loop; in a steady state none leaves it. -/
theorem thread_steady {s : TestThreads} (steady : Steady s) (i : Nat)
    (met : AvoidsSlips s (.thread i)) : ∃ t, runThread i s = some t ∧ Steady t := by
  unfold runThread
  cases get : s.threads[i]? with
  | none => exact ⟨s, rfl, steady⟩
  | some th =>
    have mem := List.mem_of_getElem? get
    cases phase : th.phase with
    | starting =>
      have alive : th.alive = true := by simp [TestThread.alive, phase]
      obtain ⟨read, first⟩ := Option.ne_none_iff_exists'.mp (met th get phase)
      simp only [phase, first, Option.map_some]
      refine ⟨_, rfl, ?_⟩
      cases read with
      | false => exact steady
      | true =>
        by_cases led : th.slot = .led
        · simp only [led, ↓reduceIte]
          constructor
          · exact registered_phase steady.registered get alive .looping rfl rfl (by rw [led])
          · intro x member living polls
            rcases List.mem_or_eq_of_mem_set member with old | new
            · exact steady.calm x old living polls
            · subst new
              exact led ▸ steady.calm th mem alive (.inr led)
        · simp only [led, ↓reduceIte]
          constructor
          · exact registered_phase steady.registered get alive .looping rfl rfl rfl
          · intro x member living polls
            simp only [TestThreads.setStop] at member ⊢
            rcases List.mem_or_eq_of_mem_set member with old | new
            · have before := steady.calm x old living polls
              simp [before]
            · subst new
              simp
    | looping =>
      have alive : th.alive = true := by simp [TestThread.alive, phase]
      have clear := steady.calm th mem alive (.inl phase)
      simp only [phase, clear, Bool.false_eq_true, ↓reduceIte]
      exact ⟨s, rfl, steady⟩
    | ended =>
      simp only [phase]
      exact ⟨s, rfl, steady⟩
    | joined =>
      simp only [phase]
      exact ⟨s, rfl, steady⟩

theorem init_steady {s t : TestThreads} (steady : Steady s) (tid : t.tid = s.tid)
    (threads : t.threads = s.threads) (flags : ∀ k, t.stop k = true → s.stop k = true) : Steady t := by
  refine ⟨registered_same steady.registered tid threads, ?_⟩
  intro th mem alive polls
  rw [threads] at mem
  have clear := steady.calm th mem alive polls
  by_contra set
  rw [flags th.slot (by simpa using set)] at clear
  cases clear

def WellRun (s : TestThreads) : Prop :=
  BookKept s ∧ ∀ c, AvoidsSlips s (.command c) → ∃ t, runCommand s c = some t ∧ Obeyed s c t

/-- Along every run of commands and thread steps that avoids the slips, each thread-id
    variable is set exactly while its thread runs and each command does what it has to. -/
theorem worker_bookkeeping (es : List ThreadEvent)
    (meets : Meets threadsStep AvoidsSlips TestThreads.init es) :
    (∃ s, exec threadsStep TestThreads.init es = some s) ∧
      Always threadsStep WellRun TestThreads.init es := by
  apply meets_always (I := Steady) _ _ _ meets
  · intro s steady
    refine ⟨registered_bookKept steady.registered, ?_⟩
    intro c met
    obtain ⟨t, run, _, obeyed⟩ := command_obeyed steady c met
    exact ⟨t, run, obeyed⟩
  · intro s e steady met
    cases e with
    | command c =>
      obtain ⟨t, run, next, _⟩ := command_obeyed steady c met
      exact ⟨t, run, next⟩
    | thread i => exact thread_steady steady i met
    | mntUsbInitData found => exact ⟨_, rfl, init_steady steady rfl rfl fun _ set => set⟩
    | mntSdcardInitData found =>
      refine ⟨_, rfl, init_steady steady rfl rfl ?_⟩
      intro k set
      simp only [mntSdcardInitData, TestThreads.setData, TestThreads.setStop] at set
      split at set
      · cases set
      · split at set
        · cases set
        · exact set
  · exact ⟨⟨by simp [TestThreads.init], by simp [TestThreads.init]⟩, by simp [Calm, TestThreads.init]⟩

def restartRun : List ThreadEvent :=
  [.mntUsbInitData true, .command .doWriteUsbAll, .command .ledStartRun, .thread 0,
   .command .mntUsbTermData, .mntUsbInitData true, .command .doWriteUsbAll]

theorem restart_run_bookkeeping :
    Meets threadsStep AvoidsSlips TestThreads.init restartRun ∧
      (∃ s, exec threadsStep TestThreads.init restartRun = some s) ∧
      Always threadsStep WellRun TestThreads.init restartRun := by
  have meets : Meets threadsStep AvoidsSlips TestThreads.init restartRun := by
    refine meets_cons trivial rfl (meets_cons trivial rfl (meets_cons ?_ rfl (meets_cons ?_ rfl ?_)))
    · show TestThreads.init.stop .led = false
      rfl
    · intro th get _
      cases get
      decide
    · refine meets_cons ⟨by decide, by decide⟩ rfl (meets_cons trivial rfl ?_)
      exact ⟨trivial, fun _ _ => trivial⟩
  exact ⟨meets, worker_bookkeeping restartRun meets⟩

def stopSdcardRun : List ThreadEvent :=
  [.mntUsbInitData true, .command .doWriteUsbAll, .thread 0, .mntSdcardInitData true,
   .command .doWriteSdcardAll, .thread 1, .command .mntSdcardTermData]

def restartLedRun : List ThreadEvent :=
  [.command .ledStartRun, .thread 0, .command .ledStopRun, .thread 0, .command .ledStartRun]

def stopTwiceRun : List ThreadEvent :=
  [.mntUsbInitData true, .command .doWriteUsbAll, .thread 0, .command .mntUsbTermData,
   .command .mntUsbTermData]

/-- Stopping the sdcard clears the variable of the running usb worker and keeps its own, a led
    worker that was stopped is not started again, and a second stop frees the data again. -/
theorem stops_break_bookkeeping :
    (∃ s, exec threadsStep TestThreads.init stopSdcardRun = some s ∧
      s.tid .usbW = 0 ∧ s.Running .usbW ∧ s.tid .sdW ≠ 0 ∧ ¬ s.Running .sdW ∧ ¬ BookKept s) ∧
    (∃ s, exec threadsStep TestThreads.init restartLedRun = some s ∧
      s.tid .led ≠ 0 ∧ ¬ s.Running .led ∧ ¬ BookKept s) ∧
    exec threadsStep TestThreads.init stopTwiceRun = none := by
  refine ⟨?_, ?_, rfl⟩
  · refine ⟨_, rfl, rfl, by decide, by decide, by decide, ?_⟩
    intro kept
    exact absurd ((kept .usbW).mpr (by decide)) (by decide)
  · refine ⟨_, rfl, by decide, by decide, ?_⟩
    intro kept
    exact absurd ((kept .led).mp (by decide)) (by decide)

end TestSource
