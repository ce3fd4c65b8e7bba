import TestSource.Runs
import Mathlib.Data.List.Nodup

/- select_server.c: the loop of main, one round of select after the other. A round has no
   successor where the loop has been left or the kernel cannot answer so. What is printed and the
   closes behind the loop are left out. -/
namespace TestSource.SelectServer
open Runs

def BACKLOG : Nat := 5

inductive Exit where
  | select
  | full
  deriving DecidableEq, Repr

/-- `conns` are the accepted connections that have not been closed, `listening` says that
    sock_fd has not. -/
structure Server where
  fdA : List Nat
  connAmount : Nat
  maxsock : Nat
  exit : Option Exit
  conns : List Nat
  listening : Bool
  deriving DecidableEq, Repr

/-- What select reports: an error, a timeout, or the descriptors that are ready, with the results
    of recv for the slots and of accept. -/
inductive Round where
  | failed
  | timeout
  | ready (fdsr : List Nat) (recv : Nat → Int) (newFd : Int)

section Loop
variable (sockFd : Nat)

def start : Server := ⟨List.replicate BACKLOG 0, 0, sockFd, none, [], true⟩

def watched (s : Server) : List Nat := sockFd :: s.fdA.filter (· ≠ 0)

/-- An empty slot asks for descriptor 0, which is sock_fd where standard input was closed. -/
def recvSlot (recv : Nat → Int) (s : Server) (fdsr : List Nat) (i : Nat) : Server × List Nat :=
  let fd := s.fdA.getD i 0
  if fd ∈ fdsr ∧ recv i ≤ 0 then
    ({ s with fdA := s.fdA.set i 0, conns := s.conns.erase fd, listening := s.listening && fd ≠ sockFd },
      fdsr.filter (· ≠ fd))
  else (s, fdsr)

def recvSlots (recv : Nat → Int) (s : Server) (fdsr : List Nat) : Nat → Server × List Nat
  | 0 => (s, fdsr)
  | n + 1 =>
      let (s, fdsr) := recvSlots recv s fdsr n
      recvSlot sockFd recv s fdsr n

/-- An open descriptor is not given to another connection. -/
def acceptNew (s : Server) (newFd : Int) : Option Server :=
  if newFd ≤ 0 then some s
  else if newFd.toNat ∈ sockFd :: s.conns then none
  else if s.connAmount < BACKLOG then
    some { s with
      fdA := s.fdA.set s.connAmount newFd.toNat
      connAmount := s.connAmount + 1
      maxsock := if newFd > s.maxsock then newFd.toNat else s.maxsock
      conns := s.conns ++ [newFd.toNat] }
  else some { s with exit := some .full }

def step (s : Server) : Round → Option Server
  | .failed => if s.exit = none then some { s with exit := some .select } else none
  | .timeout => if s.exit = none ∧ s.listening then some s else none
  | .ready fdsr recv newFd =>
      if s.exit = none ∧ s.listening ∧ ∀ fd ∈ fdsr, fd ∈ watched sockFd s ∧ fd ≤ s.maxsock then
        let (s, fdsr) := recvSlots sockFd recv s fdsr s.connAmount
        if sockFd ∈ fdsr then acceptNew sockFd s newFd else some s
      else none

end Loop

section Slots

theorem filter_set_zero {l : List Nat} (distinct : (l.filter (· ≠ 0)).Nodup) (i : Nat) :
    (l.set i 0).filter (· ≠ 0) = (l.filter (· ≠ 0)).erase (l.getD i 0) := by
  induction l generalizing i with
  | nil => simp
  | cons a l ih =>
    have absent : 0 ∉ l.filter (· ≠ 0) := by simp
    by_cases empty : a = 0
    · subst empty
      cases i with
      | zero => simpa using (List.erase_of_not_mem absent).symm
      | succ i => simpa using ih (by simpa using distinct) i
    · rw [List.filter_cons_of_pos (by simpa using empty)] at distinct ⊢
      rw [List.nodup_cons] at distinct
      cases i with
      | zero => simp
      | succ i =>
        have other : l.getD i 0 ≠ a := by
          intro same
          rw [List.getD_eq_getElem?_getD] at same
          cases found : l[i]? with
          | none =>
            rw [found] at same
            exact empty same.symm
          | some fd =>
            rw [found, Option.getD_some] at same
            subst same
            apply distinct.1
            simpa [empty] using List.mem_of_getElem? found
        rw [List.set_cons_succ, List.filter_cons_of_pos (by simpa using empty), ih distinct.2,
          List.getD_cons_succ, List.erase_cons_tail (by simpa using Ne.symm other)]

theorem filter_set_fresh {l : List Nat} {n fd : Nat} (unused : ∀ i, n ≤ i → l.getD i 0 = 0)
    (inside : n < l.length) (positive : fd ≠ 0) :
    (l.set n fd).filter (· ≠ 0) = l.filter (· ≠ 0) ++ [fd] := by
  induction l generalizing n with
  | nil => simp at inside
  | cons a l ih =>
    cases n with
    | zero =>
      have none : ∀ x ∈ a :: l, x = 0 := by
        intro x mem
        obtain ⟨i, found⟩ := List.getElem?_of_mem mem
        have zero := unused i (Nat.zero_le i)
        rwa [List.getD_eq_getElem?_getD, found] at zero
      have rest : l.filter (· ≠ 0) = [] := by
        simpa using fun x mem => none x (List.mem_cons_of_mem _ mem)
      have head := none a List.mem_cons_self
      rw [List.set_cons_zero, List.filter_cons_of_pos (by simpa using positive), rest,
        List.filter_cons_of_neg (by simp [head]), rest]
      rfl
    | succ n =>
      have later := ih (fun i behind => unused (i + 1) (Nat.succ_le_succ behind)) (Nat.lt_of_succ_lt_succ inside)
      rw [List.set_cons_succ, List.filter_cons, List.filter_cons, later]
      split <;> rfl

end Slots

section Tracking
variable {sockFd : Nat} {recv : Nat → Int} {s t : Server} {fdsr : List Nat}

/-- The slots hold the open connections in the order they were accepted, each once. -/
structure Tracked (sockFd : Nat) (s : Server) : Prop where
  size : s.fdA.length = BACKLOG
  few : s.connAmount ≤ BACKLOG
  unused : ∀ i, s.connAmount ≤ i → s.fdA.getD i 0 = 0
  held : s.fdA.filter (· ≠ 0) = s.conns
  distinct : s.conns.Nodup
  apart : sockFd ∉ s.conns
  reached : ∀ fd ∈ s.conns, fd ≤ s.maxsock

theorem tracked_start (sockFd : Nat) : Tracked sockFd (start sockFd) := by
  refine ⟨rfl, Nat.zero_le _, ?_, rfl, List.nodup_nil, List.not_mem_nil, ?_⟩
  · intro i _
    simp only [start, List.getD_eq_getElem?_getD, List.getElem?_replicate]
    split <;> rfl
  · intro fd mem
    cases mem

theorem recvSlot_leaves {i : Nat} (leaves : s.fdA.getD i 0 ∈ fdsr ∧ recv i ≤ 0) :
    recvSlot sockFd recv s fdsr i =
      ({ s with
          fdA := s.fdA.set i 0
          conns := s.conns.erase (s.fdA.getD i 0)
          listening := s.listening && s.fdA.getD i 0 ≠ sockFd },
        fdsr.filter (· ≠ s.fdA.getD i 0)) := if_pos leaves

theorem recvSlot_stays {i : Nat} (stays : ¬(s.fdA.getD i 0 ∈ fdsr ∧ recv i ≤ 0)) :
    recvSlot sockFd recv s fdsr i = (s, fdsr) := if_neg stays

theorem recvSlots_succ (n : Nat) : recvSlots sockFd recv s fdsr (n + 1) =
    recvSlot sockFd recv (recvSlots sockFd recv s fdsr n).1 (recvSlots sockFd recv s fdsr n).2 n := rfl

theorem tracked_recvSlot (tracked : Tracked sockFd s) (fdsr : List Nat) (i : Nat) :
    Tracked sockFd (recvSlot sockFd recv s fdsr i).1 := by
  by_cases leaves : s.fdA.getD i 0 ∈ fdsr ∧ recv i ≤ 0
  · rw [recvSlot_leaves leaves]
    refine ⟨?_, tracked.few, ?_, ?_, tracked.distinct.erase _, ?_, ?_⟩
    · simpa using tracked.size
    · intro j behind
      have before := tracked.unused j behind
      rw [List.getD_eq_getElem?_getD] at before ⊢
      rw [List.getElem?_set]
      split
      · split <;> rfl
      · exact before
    · have distinct := tracked.distinct
      simp only [← tracked.held] at distinct ⊢
      exact filter_set_zero distinct i
    · exact fun mem => tracked.apart (List.mem_of_mem_erase mem)
    · exact fun fd mem => tracked.reached fd (List.mem_of_mem_erase mem)
  · rw [recvSlot_stays leaves]
    exact tracked

theorem tracked_recvSlots (tracked : Tracked sockFd s) (recv : Nat → Int) (fdsr : List Nat) (n : Nat) :
    Tracked sockFd (recvSlots sockFd recv s fdsr n).1 := by
  induction n with
  | zero => exact tracked
  | succ n ih =>
    rw [recvSlots_succ]
    exact tracked_recvSlot ih _ n

theorem recvSlots_frame (sockFd : Nat) (recv : Nat → Int) (s : Server) (fdsr : List Nat) (n : Nat) :
    (recvSlots sockFd recv s fdsr n).1.connAmount = s.connAmount ∧
    (recvSlots sockFd recv s fdsr n).1.exit = s.exit ∧
    (recvSlots sockFd recv s fdsr n).1.fdA.length = s.fdA.length := by
  induction n with
  | zero => exact ⟨rfl, rfl, rfl⟩
  | succ n ih =>
    rw [recvSlots_succ]
    generalize recvSlots sockFd recv s fdsr n = mid at ih
    by_cases leaves : mid.1.fdA.getD n 0 ∈ mid.2 ∧ recv n ≤ 0
    · rw [recvSlot_leaves leaves]
      simpa using ih
    · rw [recvSlot_stays leaves]
      exact ih

theorem recvSlots_same {n : Nat} (stay : ∀ i < n, ¬(s.fdA.getD i 0 ∈ fdsr ∧ recv i ≤ 0)) :
    recvSlots sockFd recv s fdsr n = (s, fdsr) := by
  induction n with
  | zero => rfl
  | succ n ih =>
    rw [recvSlots_succ, ih fun i earlier => stay i (Nat.lt_succ_of_lt earlier)]
    exact recvSlot_stays (stay n (Nat.lt_succ_self n))

theorem recvSlots_taken_iff (sockFd : Nat) (recv : Nat → Int) (fdsr : List Nat) {n : Nat}
    (inside : n ≤ s.fdA.length) :
    0 ∉ (recvSlots sockFd recv s fdsr n).1.fdA ↔
      0 ∉ s.fdA ∧ ∀ i < n, ¬(s.fdA.getD i 0 ∈ fdsr ∧ recv i ≤ 0) := by
  constructor
  · intro taken
    induction n with
    | zero => exact ⟨taken, fun i below => absurd below (Nat.not_lt_zero i)⟩
    | succ n ih =>
      rw [recvSlots_succ] at taken
      by_cases leaves : (recvSlots sockFd recv s fdsr n).1.fdA.getD n 0 ∈
          (recvSlots sockFd recv s fdsr n).2 ∧ recv n ≤ 0
      · -- the slot of a client that leaves is empty afterwards
        rw [recvSlot_leaves leaves] at taken
        have room : n < (recvSlots sockFd recv s fdsr n).1.fdA.length := by
          rw [(recvSlots_frame sockFd recv s fdsr n).2.2]
          exact inside
        exact absurd (List.mem_set room 0) taken
      · rw [recvSlot_stays leaves] at taken
        obtain ⟨before, stay⟩ := ih (Nat.le_of_succ_le inside) taken
        rw [recvSlots_same stay] at leaves
        refine ⟨before, ?_⟩
        intro i below
        rcases Nat.lt_succ_iff_lt_or_eq.mp below with earlier | here
        · exact stay i earlier
        · rw [here]
          exact leaves
  · rintro ⟨taken, stay⟩
    rw [recvSlots_same stay]
    exact taken

theorem tracked_acceptNew (tracked : Tracked sockFd s) {newFd : Int}
    (accepted : acceptNew sockFd s newFd = some t) : Tracked sockFd t := by
  unfold acceptNew at accepted
  split at accepted
  · cases accepted
    exact tracked
  · split at accepted
    · contradiction
    · rename_i valid fresh
      split at accepted
      · rename_i room
        cases accepted
        rw [List.mem_cons, not_or] at fresh
        have size := tracked.size
        refine ⟨by simpa using size, room, ?_, ?_, ?_, ?_, ?_⟩
        · intro i behind
          have before := tracked.unused i (Nat.le_of_succ_le behind)
          rw [List.getD_eq_getElem?_getD] at before ⊢
          rwa [List.getElem?_set_ne (Nat.ne_of_lt behind)]
        · have positive : newFd.toNat ≠ 0 := by omega
          rw [← tracked.held]
          exact filter_set_fresh tracked.unused (by omega) positive
        · rw [List.nodup_append]
          refine ⟨tracked.distinct, List.nodup_singleton _, ?_⟩
          rintro fd old _ new rfl
          rw [List.mem_singleton.mp new] at old
          exact fresh.2 old
        · simpa [tracked.apart] using Ne.symm fresh.1
        · intro fd mem
          dsimp only
          rcases List.mem_append.mp mem with old | new
          · have before := tracked.reached fd old
            split <;> omega
          · rw [List.mem_singleton.mp new]
            split <;> omega
      · cases accepted
        exact { tracked with }

/-- What a round does: it leaves the loop by select, waits, or goes through the slots and then
    accepts a connection when one is there. -/
theorem step_cases {e : Round} (taken : step sockFd s e = some t) :
    s.exit = none ∧
    (t = { s with exit := some .select } ∧ e = .failed ∨ t = s ∧ e = .timeout ∨
      ∃ fdsr recv newFd, e = .ready fdsr recv newFd ∧
        let (mid, left) := recvSlots sockFd recv s fdsr s.connAmount
        (sockFd ∈ left ∧ acceptNew sockFd mid newFd = some t ∨ sockFd ∉ left ∧ mid = t)) := by
  cases e with
  | failed =>
    simp only [step] at taken
    split at taken
    · rename_i running
      cases taken
      exact ⟨running, .inl ⟨rfl, rfl⟩⟩
    · contradiction
  | timeout =>
    simp only [step] at taken
    split at taken
    · rename_i running
      cases taken
      exact ⟨running.1, .inr (.inl ⟨rfl, rfl⟩)⟩
    · contradiction
  | ready fdsr recv newFd =>
    simp only [step] at taken
    split at taken
    · rename_i running
      refine ⟨running.1, .inr (.inr ⟨fdsr, recv, newFd, rfl, ?_⟩)⟩
      dsimp only
      split at taken
      · rename_i pending
        exact .inl ⟨pending, taken⟩
      · rename_i quiet
        exact .inr ⟨quiet, Option.some.inj taken⟩
    · contradiction

theorem tracked_step {e : Round} (tracked : Tracked sockFd s) (taken : step sockFd s e = some t) :
    Tracked sockFd t := by
  obtain ⟨_, ⟨rfl, _⟩ | ⟨rfl, _⟩ | ⟨fdsr, recv, newFd, _, ⟨_, accepted⟩ | ⟨_, rfl⟩⟩⟩ :=
    step_cases taken
  · exact { tracked with }
  · exact tracked
  · exact tracked_acceptNew (tracked_recvSlots tracked _ _ _) accepted
  · exact tracked_recvSlots tracked _ _ _

end Tracking

section Refusal
variable (sockFd : Nat) {s t : Server} {e : Round}

def Accepts (s : Server) : Round → Prop
  | .ready fdsr recv newFd => 0 < newFd ∧ sockFd ∈ (recvSlots sockFd recv s fdsr s.connAmount).2
  | _ => False

def Left (s : Server) : Round → Prop
  | .ready fdsr recv _ => 0 ∈ s.fdA ∨ ∃ i < s.connAmount, s.fdA.getD i 0 ∈ fdsr ∧ recv i ≤ 0
  | _ => 0 ∈ s.fdA

/-- The round does not accept a further connection after or while a client leaves. -/
def Lasting (s : Server) (e : Round) : Prop := s.connAmount = BACKLOG → Accepts sockFd s e → ¬Left s e

def RefusedFull (s : Server) : Prop := s.exit = some .full → s.conns.length = BACKLOG

def Placed (s : Server) : Prop := ∀ fd ∈ s.conns, s.fdA.count fd = 1 ∧ fd ≤ s.maxsock

variable {sockFd}

theorem full_iff (tracked : Tracked sockFd s) : s.conns.length = BACKLOG ↔ 0 ∉ s.fdA := by
  rw [← tracked.held, ← tracked.size, List.length_filter_eq_length_iff]
  constructor
  · intro all zero
    simpa using all 0 zero
  · intro absent fd mem
    have nonzero : fd ≠ 0 := by
      rintro rfl
      exact absent mem
    simpa using nonzero

/-- A connection is refused when BACKLOG have been accepted before, whoever is still there. -/
theorem acceptNew_full {newFd : Int} (running : s.exit = none) (accepted : acceptNew sockFd s newFd = some t) :
    (t.exit = some .full ↔ 0 < newFd ∧ BACKLOG ≤ s.connAmount) ∧
      (BACKLOG ≤ s.connAmount → t.conns = s.conns) := by
  unfold acceptNew at accepted
  split at accepted
  · cases accepted
    rw [running]
    simp
    omega
  · split at accepted
    · contradiction
    · split at accepted
      · cases accepted
        simp only [running]
        simp
        omega
      · cases accepted
        simp
        omega

theorem placed (tracked : Tracked sockFd s) : Placed s := by
  intro fd mem
  refine ⟨?_, tracked.reached fd mem⟩
  have nonzero : fd ≠ 0 := by
    rw [← tracked.held, List.mem_filter] at mem
    simpa using mem.2
  have once := List.count_eq_one_of_mem tracked.distinct mem
  rwa [← tracked.held, List.count_filter (by simpa using nonzero)] at once

theorem refused_step (tracked : Tracked sockFd s) (taken : step sockFd s e = some t) :
    RefusedFull t ↔ Lasting sockFd s e := by
  obtain ⟨running, ⟨rfl, rfl⟩ | ⟨rfl, rfl⟩ | ⟨fdsr, recv, newFd, rfl, cases⟩⟩ := step_cases taken
  · simp [RefusedFull, Lasting, Accepts]
  · simp [RefusedFull, Lasting, Accepts, running]
  · have mid := tracked_recvSlots tracked recv fdsr s.connAmount
    obtain ⟨amount, exit, _⟩ := recvSlots_frame sockFd recv s fdsr s.connAmount
    rw [running] at exit
    obtain ⟨pending, accepted⟩ | ⟨quiet, rfl⟩ := cases
    · obtain ⟨refused, kept⟩ := acceptNew_full exit accepted
      rw [amount] at refused kept
      by_cases full : s.connAmount = BACKLOG
      · have inside : s.connAmount ≤ s.fdA.length := by
          rw [tracked.size]
          exact tracked.few
        have taken := recvSlots_taken_iff sockFd recv fdsr inside
        have stayed : ¬Left s (.ready fdsr recv newFd) ↔ 0 ∉ (recvSlots sockFd recv s fdsr s.connAmount).1.fdA := by
          rw [taken, Left, not_or]
          simp
        rw [RefusedFull, kept (by omega), full_iff mid, ← stayed, refused]
        constructor
        · intro right _ accepts
          exact right ⟨accepts.1, by omega⟩
        · rintro lasting ⟨valid, _⟩
          exact lasting full ⟨valid, pending⟩
      · have few := tracked.few
        have room : ¬BACKLOG ≤ s.connAmount := by omega
        simp [RefusedFull, refused, Lasting, full, room]
    · simp [RefusedFull, exit, Lasting, Accepts, quiet]

/-- In every run the clients keep their places, and a connection is refused only while BACKLOG
    clients are connected exactly when none of them has left before. -/
theorem refusals_full_iff {es : List Round} (run : exec (step sockFd) (start sockFd) es = some t) :
    Always (step sockFd) Placed (start sockFd) es ∧
    (Always (step sockFd) RefusedFull (start sockFd) es ↔
      Meets (step sockFd) (Lasting sockFd) (start sockFd) es) := by
  constructor
  · exact always_kept (fun s => placed) (fun s e t => tracked_step) (tracked_start sockFd) es
  · have none : RefusedFull (start sockFd) := by
      intro left
      cases left
    refine always_iff_meets_run (I := fun s => Tracked sockFd s ∧ RefusedFull s) (fun s inv => inv.2) ?_ ?_
      ⟨tracked_start sockFd, none⟩ run
    · rintro s e t ⟨tracked, _⟩ taken lasting
      exact ⟨tracked_step tracked taken, (refused_step tracked taken).mpr lasting⟩
    · rintro s e t ⟨tracked, _⟩ taken broken right
      exact broken ((refused_step tracked taken).mp right)

end Refusal

section Sample

def joins (fd : Nat) : Round := .ready [3] (fun _ => 1) fd

def joining : List Round := [joins 4, joins 5, joins 6, joins 7, joins 8]

theorem sixth_client_refused_full :
    exec (step 3) (start 3) (joining ++ [joins 9]) =
      some ⟨[4, 5, 6, 7, 8], 5, 8, some .full, [4, 5, 6, 7, 8], true⟩ ∧
    Always (step 3) RefusedFull (start 3) (joining ++ [joins 9]) := by
  have run : exec (step 3) (start 3) (joining ++ [joins 9]) =
      some ⟨[4, 5, 6, 7, 8], 5, 8, some .full, [4, 5, 6, 7, 8], true⟩ := by decide
  refine ⟨run, (refusals_full_iff run).2.mpr ?_⟩
  refine meets_cons (t := ⟨[4, 0, 0, 0, 0], 1, 4, none, [4], true⟩)
    (fun few => absurd few (by decide)) rfl ?_
  refine meets_cons (t := ⟨[4, 5, 0, 0, 0], 2, 5, none, [4, 5], true⟩)
    (fun few => absurd few (by decide)) rfl ?_
  refine meets_cons (t := ⟨[4, 5, 6, 0, 0], 3, 6, none, [4, 5, 6], true⟩)
    (fun few => absurd few (by decide)) rfl ?_
  refine meets_cons (t := ⟨[4, 5, 6, 7, 0], 4, 7, none, [4, 5, 6, 7], true⟩)
    (fun few => absurd few (by decide)) rfl ?_
  refine meets_cons (t := ⟨[4, 5, 6, 7, 8], 5, 8, none, [4, 5, 6, 7, 8], true⟩)
    (fun few => absurd few (by decide)) rfl ?_
  refine meets_cons (t := ⟨[4, 5, 6, 7, 8], 5, 8, some .full, [4, 5, 6, 7, 8], true⟩) ?_ rfl trivial
  intro _ _
  simp [Left, joins]

/-- The client in the third slot leaves, and the next one is refused while four are connected. -/
theorem refused_with_a_free_slot :
    exec (step 3) (start 3) (joining ++ [.ready [6] (fun _ => 0) 0, joins 9]) =
      some ⟨[4, 5, 0, 7, 8], 5, 8, some .full, [4, 5, 7, 8], true⟩ ∧
    ¬Always (step 3) RefusedFull (start 3) (joining ++ [.ready [6] (fun _ => 0) 0, joins 9]) := by
  have run : exec (step 3) (start 3) (joining ++ [.ready [6] (fun _ => 0) 0, joins 9]) =
      some ⟨[4, 5, 0, 7, 8], 5, 8, some .full, [4, 5, 7, 8], true⟩ := by decide
  refine ⟨run, ?_⟩
  intro always
  have last := always_iff_prefixes.mp always _ _ (List.prefix_refl _) run
  exact absurd (last rfl) (by decide)

end Sample

end TestSource.SelectServer
