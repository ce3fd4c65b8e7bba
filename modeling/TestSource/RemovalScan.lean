import TestSource.DeviceLaws
import TestSource.PartitionLaws

/- mnt_usb_remove_dev_node and mnt_usb_delete_partitions_from_list walk a list and go on from
   a node that was just released. Where the link of such a node can still be read, the scan
   over disks with ids of their own is a filter; where it cannot, a walk ends in a fault
   unless it releases nothing that it stands on. -/
namespace TestSource
open LinkedHeap

def stillThere (access : CStr → Bool) (n : Nat × StorageInfo) : Bool := access (devPath n.2.szDiskName)

def diskIds (l : List (Nat × StorageInfo)) : List Nat := l.map fun n => n.2.nDiskId

def absent (access : CStr → Bool) (l : List (Nat × StorageInfo)) : List (Nat × StorageInfo) :=
  l.filter fun n => !stillThere access n

def removal (n : Nat × StorageInfo) : UsbInfo := ⟨.rm, .storage, n.2.nDiskId⟩

/-- What a scan over the nodes `r` behind `v` leaves of a state. -/
structure Scanned (access : CStr → Bool) (s t : DevState) (v r : List (Nat × StorageInfo)) : Prop where
  holds : Holds t.heap t.gPsUSBDevHead (v ++ r.filter (stillThere access))
  used : t.gDevID = (absent access r).foldl
    (fun g n => mntUsbDestroyDiskId (toS32 n.2.nDiskId) g) s.gDevID
  queue : t.queue = s.queue ++ (absent access r).map removal

section Scan
variable {access : CStr → Bool} {n : Nat × StorageInfo} {r : List (Nat × StorageInfo)}

theorem absent_here (here : stillThere access n = true) : absent access (n :: r) = absent access r := by
  simp [absent, here]

theorem absent_gone (gone : stillThere access n = false) :
    absent access (n :: r) = n :: absent access r := by
  simp [absent, gone]

theorem removeDevLoop_here {s : DevState} {v : List (Nat × StorageInfo)} (fuel : Nat) (ret : Int)
    (holds : Holds s.heap s.gPsUSBDevHead (v ++ n :: r)) (here : stillThere access n = true) :
    removeDevLoop access (fuel + 1) (linkOf (n :: r) 0) (ret, s) =
      removeDevLoop access fuel (linkOf r 0) (ret, s) := by
  have nonnull := (holds_cell holds).1
  have load := holds_load holds
  have answer : access (devPath n.2.szDiskName) = true := here
  simp only [linkOf_cons, removeDevLoop, nonnull, ↓reduceIte, load, Option.bind_eq_bind,
    Option.bind_some, answer]

theorem removeDevLoop_gone {s t : DevState} {v : List (Nat × StorageInfo)} (fuel : Nat) (ret : Int)
    (holds : Holds s.heap s.gPsUSBDevHead (v ++ n :: r)) (gone : stillThere access n = false)
    (deleted : mntUsbDeleteDevNode n.2 (mntUsbMsgPost (removal n) s) = some (.ok, t)) :
    removeDevLoop access (fuel + 1) (linkOf (n :: r) 0) (ret, s) =
      (t.heap.load n.1).bind fun c => removeDevLoop access fuel c.next (0, t) := by
  have nonnull := (holds_cell holds).1
  have load := holds_load holds
  have answer : access (devPath n.2.szDiskName) = false := gone
  rw [removal] at deleted
  simp only [linkOf_cons, removeDevLoop, nonnull, ↓reduceIte, load, Option.bind_eq_bind,
    Option.bind_some, answer, Bool.false_eq_true, deleted]

theorem removeDevLoop_filters {s : DevState} {v : List (Nat × StorageInfo)} {fuel : Nat}
    (holds : Holds s.heap s.gPsUSBDevHead (v ++ r)) (kept : s.heap.keepsFreed = true)
    (distinct : (diskIds (v ++ r)).Nodup) (ret : Int) (enough : r.length < fuel) :
    ∃ t, removeDevLoop access fuel (linkOf r 0) (ret, s) =
        some (if absent access r = [] then ret else 0, t) ∧ Scanned access s t v r := by
  induction fuel generalizing s v r ret with
  | zero => omega
  | succ fuel ih =>
    cases r with
    | nil =>
      refine ⟨s, by simp [removeDevLoop, absent], ?_, by simp [absent], by simp [absent]⟩
      simpa using holds
    | cons n r =>
      rw [List.length_cons] at enough
      cases here : stillThere access n with
      | true =>
        obtain ⟨t, run, scanned⟩ := ih (v := v ++ [n]) (r := r) (by simpa using holds) kept
          (by simpa using distinct) ret (by omega)
        refine ⟨t, ?_, ?_, ?_, ?_⟩
        · rw [removeDevLoop_here fuel ret holds here, run, absent_here here]
        · simpa [here] using scanned.holds
        · rw [scanned.used, absent_here here]
        · rw [scanned.queue, absent_here here]
      | false =>
        have apart : ∀ k ∈ v, k.2.nDiskId ≠ n.2.nDiskId := by
          intro k mem same
          rw [diskIds, List.map_append] at distinct
          have disjoint := (List.nodup_append.mp distinct).2.2
          exact disjoint _ (List.mem_map_of_mem mem) _ (List.mem_map_of_mem List.mem_cons_self) same
        obtain ⟨t, run, out⟩ := delete_refines n.2 (s := mntUsbMsgPost (removal n) s) holds rfl apart
        have readable : t.heap.keepsFreed = true := out.kept.trans kept
        have rest : (diskIds (v ++ r)).Nodup := by
          have sub : (v ++ r).Sublist (v ++ n :: r) := by simp
          exact (sub.map _).nodup distinct
        obtain ⟨u, more, scanned⟩ := ih out.holds readable rest 0 (by omega)
        refine ⟨u, ?_, ?_, ?_, ?_⟩
        · rw [removeDevLoop_gone fuel ret holds here run, load_kept out.released readable,
            Option.bind_some, more, absent_gone here]
          simp
        · simpa [here] using scanned.holds
        · rw [scanned.used, out.used, absent_gone here]
          rfl
        · rw [scanned.queue, out.queue, absent_gone here]
          simp [mntUsbMsgPost]

end Scan

theorem destroy_id {id : Nat} (low : 1 ≤ id) (high : id ≤ 128) (g : Nat → Bool) (i : Nat) :
    mntUsbDestroyDiskId (toS32 id) g i = if id = i + 1 then false else g i := by
  by_cases inside : i < 128
  · exact destroy_apply (by omega) inside g
  · have word : toS32 id = id := if_pos (by omega)
    rw [if_neg (by omega), mntUsbDestroyDiskId, word, if_pos (by omega)]
    split
    · rw [setDevID, if_neg (by omega)]
    · rfl

theorem destroy_all {l : List (Nat × StorageInfo)}
    (range : ∀ n ∈ l, 1 ≤ n.2.nDiskId ∧ n.2.nDiskId ≤ 128) (g : Nat → Bool) (i : Nat) :
    l.foldl (fun g n => mntUsbDestroyDiskId (toS32 n.2.nDiskId) g) g i =
      if i + 1 ∈ diskIds l then false else g i := by
  induction l generalizing g with
  | nil => simp [diskIds]
  | cons n l ih =>
    obtain ⟨low, high⟩ := range n List.mem_cons_self
    have rest : ∀ m ∈ l, 1 ≤ m.2.nDiskId ∧ m.2.nDiskId ≤ 128 :=
      fun m mem => range m (List.mem_cons_of_mem n mem)
    rw [List.foldl_cons, ih rest, destroy_id low high]
    have either : i + 1 ∈ diskIds (n :: l) ↔ i + 1 = n.2.nDiskId ∨ i + 1 ∈ diskIds l := List.mem_cons
    by_cases later : i + 1 ∈ diskIds l
    · rw [if_pos later, if_pos (either.mpr (.inr later))]
    · rw [if_neg later]
      by_cases hit : n.2.nDiskId = i + 1
      · rw [if_pos hit, if_pos (either.mpr (.inl hit.symm))]
      · have unlisted : i + 1 ∉ diskIds (n :: l) := by
          rw [either, not_or]
          exact ⟨Ne.symm hit, later⟩
        rw [if_neg hit, if_neg unlisted]

/-- The scan over disks with ids of their own keeps the nodes whose /dev entry is there, as
    they were, gives back the ids of the others and announces each of them. -/
theorem removal_scan_filters (access : CStr → Bool) (s : DevState) (l : List (Nat × StorageInfo))
    (holds : Holds s.heap s.gPsUSBDevHead l) (kept : s.heap.keepsFreed = true)
    (range : ∀ n ∈ l, 1 ≤ n.2.nDiskId ∧ n.2.nDiskId ≤ 128) (distinct : (diskIds l).Nodup) :
    ∃ ret t, mntUsbRemoveDevNode access s = some (ret, t) ∧
      Holds t.heap t.gPsUSBDevHead (l.filter (stillThere access)) ∧
      (∀ i, t.gDevID i = if i + 1 ∈ diskIds (absent access l) then false else s.gDevID i) ∧
      t.queue = s.queue ++ (absent access l).map removal ∧
      (ret = 0 ↔ l = [] ∨ absent access l ≠ []) := by
  have entry := holds_entry_zero holds
  by_cases empty : l = []
  · subst empty
    refine ⟨0, s, ?_, by simpa using holds, ?_, by simp [absent], by simp⟩
    · rw [mntUsbRemoveDevNode, if_pos (entry.mpr rfl)]
    · simp [absent, diskIds]
  · obtain ⟨t, run, scanned⟩ : ∃ t, _ ∧ Scanned access s t [] l :=
      removeDevLoop_filters (v := []) holds kept distinct 1 (holds_length holds)
    rw [← holds.entry] at run
    refine ⟨if absent access l = [] then 1 else 0, t, ?_, scanned.holds, ?_, scanned.queue, ?_⟩
    · rw [mntUsbRemoveDevNode, if_neg (mt entry.mp empty), run]
    · intro i
      rw [scanned.used]
      exact destroy_all (fun n mem => range n (List.mem_of_mem_filter mem)) s.gDevID i
    · by_cases none : absent access l = []
      · simp [none, empty]
      · simp [none]

def diskPair (keepsFreed : Bool) : DevState where
  heap :=
    { cell := fun p => if p = 1 then some ⟨⟨1, sdName 0⟩, 2, true⟩
        else if p = 2 then some ⟨⟨2, sdName 1⟩, 0, true⟩ else none
      top := 3
      limit := none
      keepsFreed := keepsFreed }
  gPsUSBDevHead := 1
  gDevID i := decide (i < 2)
  queue := []

theorem diskPair_holds (keepsFreed : Bool) :
    Holds (diskPair keepsFreed).heap (diskPair keepsFreed).gPsUSBDevHead
      [(1, ⟨1, sdName 0⟩), (2, ⟨2, sdName 1⟩)] :=
  ⟨rfl, ⟨by decide, rfl, by decide, rfl, trivial⟩, by decide, by simp [diskPair], by simp [diskPair]⟩

theorem first_disk_removed :
    ∃ ret t, mntUsbRemoveDevNode (fun p => p == devPath (sdName 1)) (diskPair true) = some (ret, t) ∧
      Holds t.heap t.gPsUSBDevHead [(2, ⟨2, sdName 1⟩)] ∧ t.gDevID 0 = false ∧ t.gDevID 1 = true ∧
      t.queue = [⟨.rm, .storage, 1⟩] ∧ ret = 0 := by
  obtain ⟨ret, t, run, nodes, used, queue, code⟩ := removal_scan_filters
    (fun p => p == devPath (sdName 1)) (diskPair true) [(1, ⟨1, sdName 0⟩), (2, ⟨2, sdName 1⟩)]
    (diskPair_holds true) rfl (by decide) (by decide)
  exact ⟨ret, t, run, nodes, used 0, used 1, queue, code.mpr (by decide)⟩

section Strict
variable {access : CStr → Bool}

/-- The first node of every id that is new behind `v` is still there. -/
def FirstsThere (access : CStr → Bool) (v r : List (Nat × StorageInfo)) : Prop :=
  ∀ x n y, r = x ++ n :: y → (∀ k ∈ v ++ x, k.2.nDiskId ≠ n.2.nDiskId) → stillThere access n = true

theorem firstsThere_cons {v r : List (Nat × StorageInfo)} {n : Nat × StorageInfo} :
    FirstsThere access v (n :: r) ↔
      ((∀ k ∈ v, k.2.nDiskId ≠ n.2.nDiskId) → stillThere access n = true) ∧
        FirstsThere access (v ++ [n]) r := by
  constructor
  · intro firsts
    constructor
    · intro fresh
      exact firsts [] n r rfl (by simpa using fresh)
    · intro x m y split fresh
      exact firsts (n :: x) m y (by rw [split]; rfl) (by simpa using fresh)
  · intro both x m y split fresh
    obtain ⟨first, later⟩ := both
    cases x with
    | nil =>
      cases split
      exact first (by simpa using fresh)
    | cons k x =>
      cases split
      exact later x m y rfl (by simpa using fresh)

theorem firstsThere_congr {v w r : List (Nat × StorageInfo)}
    (same : ∀ d, d ∈ diskIds v ↔ d ∈ diskIds w) : FirstsThere access v r ↔ FirstsThere access w r := by
  have fresh : ∀ (x : List (Nat × StorageInfo)) (d : Nat),
      (∀ k ∈ v ++ x, k.2.nDiskId ≠ d) ↔ ∀ k ∈ w ++ x, k.2.nDiskId ≠ d := by
    intro x d
    have either : d ∈ diskIds (v ++ x) ↔ d ∈ diskIds (w ++ x) := by
      have here := same d
      simp only [diskIds, List.map_append, List.mem_append] at here ⊢
      rw [here]
    simp only [diskIds, List.mem_map] at either
    constructor
    · intro none k mem hit
      obtain ⟨e, member, carries⟩ := either.mpr ⟨k, mem, hit⟩
      exact none e member carries
    · intro none k mem hit
      obtain ⟨e, member, carries⟩ := either.mp ⟨k, mem, hit⟩
      exact none e member carries
  simp only [FirstsThere, fresh]

theorem load_released {α : Type} {h : Heap α} {p : Nat} {c : Cell α} (cell : h.cell p = some c)
    (dead : c.live = false) (strict : h.keepsFreed = false) : h.load p = none := by
  simp [Heap.load, cell, dead, strict]

/-- The scan goes on from a node that is gone only where an earlier node with its id is
    deleted in its place. -/
theorem removeDevLoop_completes_iff {s : DevState} {v r : List (Nat × StorageInfo)} {fuel : Nat}
    (holds : Holds s.heap s.gPsUSBDevHead (v ++ r)) (strict : s.heap.keepsFreed = false) (ret : Int)
    (enough : r.length < fuel) :
    (removeDevLoop access fuel (linkOf r 0) (ret, s)).isSome ↔ FirstsThere access v r := by
  induction fuel generalizing s v r ret with
  | zero => omega
  | succ fuel ih =>
    cases r with
    | nil =>
      simp only [linkOf_nil, removeDevLoop, ↓reduceIte, Option.isSome_some, true_iff]
      intro x n y split
      simp at split
    | cons n r =>
      rw [List.length_cons] at enough
      rw [firstsThere_cons]
      cases here : stillThere access n with
      | true =>
        rw [removeDevLoop_here fuel ret holds here,
          ih (v := v ++ [n]) (by simpa using holds) strict ret (by omega)]
        simp
      | false =>
        by_cases earlier : ∃ k ∈ v, k.2.nDiskId = n.2.nDiskId
        · obtain ⟨k, x, y, hit, split, miss⟩ := first_carrier earlier
          subst split
          have chain : Holds s.heap s.gPsUSBDevHead (x ++ k :: (y ++ n :: r)) := by
            simpa using holds
          obtain ⟨t, run, out⟩ := delete_refines n.2 (s := mntUsbMsgPost (removal n) s) chain hit miss
          have after : Holds t.heap t.gPsUSBDevHead ((x ++ y) ++ n :: r) := by
            simpa using out.holds
          -- the visited node takes the place of the deleted one among the ids passed
          have same : ∀ d, d ∈ diskIds ((x ++ y) ++ [n]) ↔ d ∈ diskIds ((x ++ k :: y) ++ [n]) := by
            intro d
            simp only [diskIds, List.map_append, List.map_cons, List.map_nil, List.mem_append,
              List.mem_cons, List.not_mem_nil, or_false, hit]
            tauto
          rw [removeDevLoop_gone fuel ret holds here run, holds_load after, Option.bind_some,
            ih (v := (x ++ y) ++ [n]) (by simpa using after) (out.kept.trans strict) 0 (by omega),
            firstsThere_congr same]
          have passed : ¬ ∀ e ∈ x ++ k :: y, e.2.nDiskId ≠ n.2.nDiskId := by
            intro none
            exact none k (by simp) hit
          simp only [passed, false_implies, true_and]
        · have miss : ∀ k ∈ v, k.2.nDiskId ≠ n.2.nDiskId := fun k mem same => earlier ⟨k, mem, same⟩
          obtain ⟨t, run, out⟩ := delete_refines n.2 (s := mntUsbMsgPost (removal n) s) holds rfl miss
          rw [removeDevLoop_gone fuel ret holds here run,
            load_released out.released rfl (out.kept.trans strict)]
          apply iff_of_false
          · simp
          · intro both
            exact Bool.false_ne_true (both.1 miss)

theorem remove_completes_iff {s : DevState} {l : List (Nat × StorageInfo)}
    (holds : Holds s.heap s.gPsUSBDevHead l) (strict : s.heap.keepsFreed = false) :
    (mntUsbRemoveDevNode access s).isSome ↔ FirstsThere access [] l := by
  have entry := holds_entry_zero holds
  by_cases empty : l = []
  · subst empty
    rw [mntUsbRemoveDevNode, if_pos (entry.mpr rfl)]
    simp only [Option.isSome_some, true_iff]
    intro x n y split
    simp at split
  · rw [mntUsbRemoveDevNode, if_neg (mt entry.mp empty), holds.entry]
    exact removeDevLoop_completes_iff (v := []) holds strict 1 (holds_length holds)

theorem deletePartLoop_completes_iff (d fuel pre : Nat) {s : PartState}
    {v b : List (Nat × PartitionInfo)} (holds : Holds s.heap s.sPsPartHead (v ++ b))
    (strict : s.heap.keepsFreed = false) (behind : ∀ w k, v = w ++ [k] → pre = k.1)
    (enough : b.length < fuel) :
    (deletePartLoop d fuel (linkOf b 0) pre s).isSome ↔ ∀ n ∈ b, n.2.nUSBDiskId ≠ d := by
  induction fuel generalizing v b pre with
  | zero => omega
  | succ fuel ih =>
    cases b with
    | nil => simp [deletePartLoop]
    | cons n b =>
      rw [List.length_cons] at enough
      have nonnull := (holds_cell holds).1
      have load := holds_load holds
      by_cases hit : n.2.nUSBDiskId = d
      · obtain ⟨h₁, h₂, head, out⟩ := take_out holds behind
        have lost := load_released out.released rfl (out.kept.trans strict)
        have found : ¬ ∀ m ∈ n :: b, m.2.nUSBDiskId ≠ d := fun none => none n (by simp) hit
        simp only [found, iff_false]
        by_cases first : s.sPsPartHead = n.1
        · obtain ⟨_, same, _⟩ := out.first first
          subst same
          simp only [linkOf_cons, deletePartLoop, nonnull, ↓reduceIte, load, Option.bind_eq_bind,
            Option.bind_some, hit, first, out.release, lost, Option.bind_none]
          simp
        · obtain ⟨relink, _⟩ := out.later first
          simp only [linkOf_cons, deletePartLoop, nonnull, ↓reduceIte, load, Option.bind_eq_bind,
            Option.bind_some, hit, first, relink, Option.map_some, out.release, lost,
            Option.bind_none]
          simp
      · have rest := ih n.1 (v := v ++ [n]) (b := b) (by simpa using holds)
          (fun w x concat => by rw [last_eq concat]) (by omega)
        simp only [linkOf_cons, deletePartLoop, nonnull, ↓reduceIte, load, Option.bind_eq_bind,
          Option.bind_some, hit, rest, List.forall_mem_cons, ne_eq, not_false_eq_true, true_and]

end Strict

/-- Where a released node cannot be read, deleting the partitions of a disk runs to its end
    exactly when there are none, and the removal scan exactly when the first node of every
    id is still there. -/
theorem walks_complete_iff (access : CStr → Bool) (d : Nat) (p : PartState) (s : DevState)
    (parts : List (Nat × PartitionInfo)) (nodes : List (Nat × StorageInfo))
    (partList : Holds p.heap p.sPsPartHead parts) (devList : Holds s.heap s.gPsUSBDevHead nodes)
    (strict : p.heap.keepsFreed = false ∧ s.heap.keepsFreed = false) :
    ((mntUsbDeletePartitionsFromList d p).isSome ↔ ∀ n ∈ parts, n.2.nUSBDiskId ≠ d) ∧
    ((mntUsbRemoveDevNode access s).isSome ↔ ∀ x n y, nodes = x ++ n :: y →
      (∀ k ∈ x, k.2.nDiskId ≠ n.2.nDiskId) → access (devPath n.2.szDiskName) = true) := by
  constructor
  · rw [mntUsbDeletePartitionsFromList, Option.isSome_map, partList.entry]
    exact deletePartLoop_completes_iff d p.heap.top 0 (v := []) partList strict.1 (by simp)
      (holds_length partList)
  · rw [remove_completes_iff devList strict.2]
    rfl

def onePartition : PartState where
  heap :=
    { cell := fun p => if p = 1 then some ⟨record 1 0, 0, true⟩ else none
      top := 2
      limit := none
      keepsFreed := false }
  sPsPartHead := 1

theorem onePartition_holds : Holds onePartition.heap onePartition.sPsPartHead [(1, record 1 0)] :=
  ⟨rfl, ⟨by decide, rfl, trivial⟩, by decide, by decide, by decide⟩

theorem unchanged_walks_complete :
    (mntUsbDeletePartitionsFromList 2 onePartition).isSome ∧
    (mntUsbRemoveDevNode (fun _ => true) (diskPair false)).isSome := by
  obtain ⟨parts, devs⟩ := walks_complete_iff (fun _ => true) 2 onePartition (diskPair false)
    [(1, record 1 0)] [(1, ⟨1, sdName 0⟩), (2, ⟨2, sdName 1⟩)] onePartition_holds
    (diskPair_holds false) ⟨rfl, rfl⟩
  exact ⟨parts.mpr (by decide), devs.mpr fun _ _ _ _ _ => rfl⟩

/-- Both walks read the link of the node they have just released. -/
theorem walks_follow_released :
    Holds onePartition.heap onePartition.sPsPartHead [(1, record 1 0)] ∧
    mntUsbDeletePartitionsFromList 1 onePartition = none ∧
    Holds (diskPair false).heap (diskPair false).gPsUSBDevHead
      [(1, ⟨1, sdName 0⟩), (2, ⟨2, sdName 1⟩)] ∧
    mntUsbRemoveDevNode (fun p => p == devPath (sdName 1)) (diskPair false) = none :=
  ⟨onePartition_holds, rfl, diskPair_holds false, rfl⟩

end TestSource
