import TestSource.Device

/- What the device module is for: a registry of plugged disks with an id table and the
   stream of announcements. The linked list of xl_usb_device.c refines it, also after
   the table is full and several nodes share the id ALL_USB_DISK. -/
namespace TestSource
open LinkedHeap

structure Registry where
  devs : List StorageInfo
  used : Nat → Bool
  sent : List UsbInfo

def Registry.empty : Registry := ⟨[], fun _ => false, []⟩

def Registry.enter (a : Registry) (name : CStr) : Registry :=
  let (id, used) := mntUsbCreateDiskId a.used
  ⟨a.devs ++ [⟨toU32 id, name⟩], used, a.sent ++ [⟨.add, .storage, toU32 id⟩]⟩

/-- The first record carrying the id goes, which need not be the one that was looked at. -/
def Registry.withdraw (a : Registry) (d : StorageInfo) : Registry :=
  ⟨a.devs.eraseP fun e => d.nDiskId = e.nDiskId,
    mntUsbDestroyDiskId (toS32 d.nDiskId) a.used,
    a.sent ++ [⟨.rm, .storage, d.nDiskId⟩]⟩

def scanNames : List CStr := (List.range 16).map sdName ++ (List.range 16).map mmcName

def found (access : CStr → Bool) : List CStr := scanNames.filter fun n => access (devPath n)

def Registry.probe (access : CStr → Bool) (a : Registry) : Registry :=
  (found access).foldl Registry.enter a

def gone (access : CStr → Bool) (devs : List StorageInfo) : List StorageInfo :=
  devs.filter fun d => !access (devPath d.szDiskName)

def Registry.remove (access : CStr → Bool) (a : Registry) : Registry :=
  (gone access a.devs).foldl Registry.withdraw a

def Registry.step (a : Registry) : DevOp → Registry
  | .probe access => a.probe access
  | .remove access => a.remove access

/- The link between the two levels. Allocation succeeds and a released cell stays
   readable. -/
structure Refines (s : DevState) (l : List (Nat × StorageInfo)) (a : Registry) : Prop where
  holds : Holds s.heap s.gPsUSBDevHead l
  devs : l.map Prod.snd = a.devs
  used : s.gDevID = a.used
  sent : s.queue = a.sent
  unlimited : s.heap.limit = none
  kept : s.heap.keepsFreed = true

theorem nodes_unique {s : DevState} {devs devs' : List StorageInfo} (first : s.Nodes devs)
    (second : s.Nodes devs') : devs = devs' := by
  obtain ⟨l, holds, rfl⟩ := first
  obtain ⟨m, holds', rfl⟩ := second
  rw [holds_unique holds holds']

theorem linkLast_runs (fuel p : Nat) {h : Heap StorageInfo} {head : Nat}
    {a b : List (Nat × StorageInfo)} {n : Nat × StorageInfo} (holds : Holds h head (a ++ (b ++ [n])))
    (enough : b.length < fuel) :
    linkLast fuel (linkOf (b ++ [n]) 0) p h = some (h.put n.1 ⟨n.2, p, true⟩) := by
  induction fuel generalizing a b with
  | zero => omega
  | succ fuel ih =>
    cases b with
    | nil =>
      have cell := (holds_cell (b := []) holds).2
      rw [List.nil_append, linkOf_cons, linkLast, load_live cell rfl]
      simp only [Option.bind_eq_bind, Option.bind_some, linkOf_nil, ne_eq, not_true, ↓reduceIte]
      rw [Heap.setNext, update_live cell rfl]
    | cons m b =>
      have later : linkOf (b ++ [n]) 0 ≠ 0 := by
        have split : Holds h head ((a ++ [m]) ++ (b ++ [n])) := by simpa using holds
        rw [Ne, link_zero_iff split]
        simp
      have rest := ih (a := a ++ [m]) (b := b) (by simpa using holds)
        (by simp only [List.length_cons] at enough; omega)
      rw [List.cons_append, linkOf_cons, linkLast, holds_load holds]
      simpa [later] using rest

theorem insert_refines {s : DevState} {l : List (Nat × StorageInfo)}
    (info : StorageInfo) (holds : Holds s.heap s.gPsUSBDevHead l)
    (unlimited : s.heap.limit = none) :
    ∃ h head, mntUsbInsertDevNode info s =
        some (.ok, { s with heap := h, gPsUSBDevHead := head }) ∧
      Holds h head (l ++ [(s.heap.top, info)]) ∧ h.limit = none ∧
      h.keepsFreed = s.heap.keepsFreed := by
  simp only [mntUsbInsertDevNode, malloc_unlimited unlimited]
  rcases List.eq_nil_or_concat l with empty | ⟨front, n, concat⟩
  · subst empty
    have null := (holds_entry_zero holds).mpr rfl
    refine ⟨_, _, by simp [null], holds_first holds, unlimited, rfl⟩
  · rw [List.concat_eq_append] at concat
    subst concat
    have nonnull : s.gPsUSBDevHead ≠ 0 := by
      rw [Ne, holds_entry_zero holds]
      simp
    have grown := holds_malloc holds info 0
    have low := holds_length holds
    have walk := linkLast_runs (a := []) (b := front) (s.heap.top + 1) s.heap.top grown (by simp at low; omega)
    rw [← holds.entry] at walk
    have fresh : ∀ m ∈ front ++ [n], m.1 ≠ s.heap.top := by
      intro m mem
      have := holds.below m mem
      omega
    refine ⟨_, _, ?_, holds_link_last grown (by simp [Heap.extend])
      (by have := holds.positive; omega) (by simp [Heap.extend]) fresh, unlimited, rfl⟩
    rw [if_neg nonnull]
    simp only [Heap.extend] at walk ⊢
    rw [walk]
    rfl

theorem probeNode_refines {s : DevState} {l : List (Nat × StorageInfo)} {a : Registry}
    (refines : Refines s l a) (access : CStr → Bool) (name : CStr) (ret : Int) :
    ∃ t m, probeNode access name (ret, s) =
        some (if access (devPath name) then 0 else ret, t) ∧
      Refines t m (if access (devPath name) then a.enter name else a) := by
  by_cases present : access (devPath name) = true
  · obtain ⟨h, head, run, holds, unlimited, kept⟩ := insert_refines
      (s := { s with gDevID := (mntUsbCreateDiskId s.gDevID).2 })
      ⟨toU32 (mntUsbCreateDiskId s.gDevID).1, name⟩ refines.holds refines.unlimited
    refine ⟨_, l ++ [(s.heap.top, ⟨toU32 (mntUsbCreateDiskId s.gDevID).1, name⟩)],
      by simp only [probeNode, present, ↓reduceIte, run]; rfl, ?_⟩
    simp only [present, ↓reduceIte, Registry.enter]
    exact ⟨holds, by simp [refines.devs, refines.used], by simp [refines.used, mntUsbMsgPost],
      by simp [refines.used, refines.sent, mntUsbMsgPost], unlimited,
      kept.trans refines.kept⟩
  · exact ⟨s, l, by simp [probeNode, present], by simpa [present] using refines⟩

theorem probe_loop_refines {s : DevState} {l : List (Nat × StorageInfo)} {a : Registry}
    (refines : Refines s l a) (access : CStr → Bool) (names : List CStr) (ret : Int) :
    ∃ t m, names.foldlM (fun r n => probeNode access n r) (ret, s) =
        some (if names.any (fun n => access (devPath n)) then 0 else ret, t) ∧
      Refines t m ((names.filter fun n => access (devPath n)).foldl Registry.enter a) := by
  induction names generalizing s l a ret with
  | nil => exact ⟨s, l, rfl, refines⟩
  | cons n names ih =>
    obtain ⟨t, m, first, next⟩ := probeNode_refines refines access n ret
    obtain ⟨u, k, rest, done⟩ := ih next (if access (devPath n) then 0 else ret)
    refine ⟨u, k, ?_, ?_⟩
    · rw [List.foldlM_cons, first]
      simp only [Option.bind_eq_bind, Option.bind_some, rest, List.any_cons, Bool.or_eq_true]
      congr 2
      by_cases present : access (devPath n) = true <;> simp [present]
    · cases present : access (devPath n) <;> simpa [present] using done

theorem deviceProbe_scan (access : CStr → Bool) (s : DevState) :
    mntUsbDeviceProbe access s = scanNames.foldlM (fun r n => probeNode access n r) (1, s) := by
  unfold mntUsbDeviceProbe scanNames
  simp only [List.foldlM_append, List.foldlM_map]

/-- The probe returns 0 exactly when it saw a device, and registers what it saw in scan
    order. -/
theorem probe_refines {s : DevState} {l : List (Nat × StorageInfo)} {a : Registry}
    (refines : Refines s l a) (access : CStr → Bool) :
    ∃ t m, mntUsbDeviceProbe access s = some (if found access = [] then 1 else 0, t) ∧
      Refines t m (a.probe access) := by
  obtain ⟨t, m, run, done⟩ := probe_loop_refines refines access scanNames 1
  refine ⟨t, m, ?_, done⟩
  have seen : scanNames.any (fun n => access (devPath n)) = true ↔ ¬ found access = [] := by
    simp [found, List.filter_eq_nil_iff]
  rw [deviceProbe_scan, run]
  by_cases none : found access = []
  · rw [if_neg (fun some => seen.mp some none), if_pos none]
  · rw [if_pos (seen.mpr none), if_neg none]

/- The state after the node `n` between `l` and `m` has been unlinked and released. -/
structure Unlinked (s t : DevState) (id : Nat) (l m : List (Nat × StorageInfo))
    (n : Nat × StorageInfo) : Prop where
  holds : Holds t.heap t.gPsUSBDevHead (l ++ m)
  released : t.heap.cell n.1 = some ⟨n.2, linkOf m 0, false⟩
  used : t.gDevID = mntUsbDestroyDiskId (toS32 id) s.gDevID
  queue : t.queue = s.queue
  limit : t.heap.limit = s.heap.limit
  kept : t.heap.keepsFreed = s.heap.keepsFreed

theorem deleteDevLoop_runs (fuel pre : Nat) {s : DevState}
    {v r m : List (Nat × StorageInfo)} {n : Nat × StorageInfo} {id : Nat}
    (holds : Holds s.heap s.gPsUSBDevHead (v ++ (r ++ n :: m)))
    (hit : n.2.nDiskId = id) (miss : ∀ k ∈ r, k.2.nDiskId ≠ id)
    (behind : ∀ w k, v = w ++ [k] → pre = k.1) (enough : r.length < fuel) :
    ∃ t, deleteDevLoop id fuel (linkOf (r ++ n :: m) 0) pre s = some (.ok, t) ∧
      Unlinked s t id (v ++ r) m n := by
  induction fuel generalizing v r pre with
  | zero => omega
  | succ fuel ih =>
    cases r with
    | nil =>
      obtain ⟨h₁, h₂, head, out⟩ := take_out holds behind
      refine ⟨⟨h₂, head, mntUsbDestroyDiskId (toS32 id) s.gDevID, s.queue⟩, ?_,
        by simpa using out.holds, out.released, rfl, rfl, out.limit, out.kept⟩
      rw [List.nil_append, linkOf_cons, deleteDevLoop, holds_load holds]
      simp only [Option.bind_eq_bind, Option.bind_some, hit, ↓reduceIte]
      by_cases first : s.gPsUSBDevHead = n.1
      · obtain ⟨_, same, entry⟩ := out.first first
        subst same entry
        simp only [first, ↓reduceIte, Option.bind_some, out.release]
      · obtain ⟨relink, entry⟩ := out.later first
        subst entry
        simp only [first, ↓reduceIte, relink, Option.map_some, Option.bind_some, out.release]
    | cons k r =>
      have other : id ≠ k.2.nDiskId := fun same => miss k (by simp) same.symm
      have split : Holds s.heap s.gPsUSBDevHead ((v ++ [k]) ++ (r ++ n :: m)) := by
        simpa using holds
      have later : linkOf (r ++ n :: m) 0 ≠ 0 := by
        rw [Ne, link_zero_iff split]
        simp
      obtain ⟨t, run, done⟩ := ih k.1 (v := v ++ [k]) (r := r) split
        (fun x mem => miss x (by simp [mem]))
        (fun w x concat => by rw [last_eq concat])
        (by simp only [List.length_cons] at enough; omega)
      have here : Holds s.heap s.gPsUSBDevHead (v ++ k :: (r ++ n :: m)) := by
        simpa using holds
      refine ⟨t, ?_, by simpa using done⟩
      rw [List.cons_append, linkOf_cons, deleteDevLoop, holds_load here]
      simp only [Option.bind_eq_bind, Option.bind_some, other, later, ↓reduceIte]
      exact run

theorem delete_refines (info : StorageInfo) {s : DevState}
    {l m : List (Nat × StorageInfo)} {n : Nat × StorageInfo}
    (holds : Holds s.heap s.gPsUSBDevHead (l ++ n :: m))
    (hit : n.2.nDiskId = info.nDiskId) (miss : ∀ k ∈ l, k.2.nDiskId ≠ info.nDiskId) :
    ∃ t, mntUsbDeleteDevNode info s = some (.ok, t) ∧ Unlinked s t info.nDiskId l m n := by
  have nonnull : s.gPsUSBDevHead ≠ 0 := by
    rw [Ne, holds_entry_zero holds]
    simp
  have bound := holds_length holds
  obtain ⟨t, run, done⟩ := deleteDevLoop_runs s.heap.top 0 (v := []) (r := l) holds hit miss (by simp)
    (by simp only [List.length_append] at bound; omega)
  refine ⟨t, ?_, by simpa using done⟩
  rw [← holds.entry] at run
  simp only [mntUsbDeleteDevNode, nonnull, ↓reduceIte, run]

theorem eraseP_first {l m : List (Nat × StorageInfo)} {n : Nat × StorageInfo} {id : Nat}
    (hit : n.2.nDiskId = id) (miss : ∀ k ∈ l, k.2.nDiskId ≠ id) :
    ((l ++ n :: m).map Prod.snd).eraseP (fun e => id = e.nDiskId) =
      (l ++ m).map Prod.snd := by
  have skip : ∀ e ∈ l.map Prod.snd, ¬ decide (id = e.nDiskId) = true := by
    intro e mem
    obtain ⟨k, member, rfl⟩ := List.mem_map.mp mem
    simpa using fun same => miss k member same.symm
  rw [List.map_append, List.eraseP_append_right _ skip, List.map_cons,
    List.eraseP_cons_of_pos (by simp [hit]), List.map_append]

theorem first_carrier {v : List (Nat × StorageInfo)} {d : Nat}
    (carried : ∃ k ∈ v, k.2.nDiskId = d) :
    ∃ k x y, k.2.nDiskId = d ∧ v = x ++ k :: y ∧ ∀ e ∈ x, e.2.nDiskId ≠ d := by
  obtain ⟨e, member, same⟩ := carried
  obtain ⟨k, x, y, miss, hit, split, _⟩ := List.exists_of_eraseP
    (p := fun e : Nat × StorageInfo => e.2.nDiskId = d) member (by simpa using same)
  exact ⟨k, x, y, by simpa using hit, split, by simpa using miss⟩

/- One visit of the removal scan: the deleted node is the visited one or an earlier node
   with the same id, and in both cases the link read afterwards leads to the rest. -/
theorem visit_refines {s : DevState} {v m : List (Nat × StorageInfo)}
    {n : Nat × StorageInfo} {a : Registry} (refines : Refines s (v ++ n :: m) a) :
    ∃ t w, mntUsbDeleteDevNode n.2 (mntUsbMsgPost ⟨.rm, .storage, n.2.nDiskId⟩ s) =
        some (.ok, t) ∧ Refines t (w ++ m) (a.withdraw n.2) ∧
      ∃ c, t.heap.load n.1 = some c ∧ c.next = linkOf m 0 := by
  by_cases earlier : ∃ k ∈ v, k.2.nDiskId = n.2.nDiskId
  · obtain ⟨k, x, y, hit, split, miss⟩ := first_carrier earlier
    subst split
    have chain : Holds s.heap s.gPsUSBDevHead (x ++ k :: (y ++ n :: m)) := by
      simpa using refines.holds
    obtain ⟨t, run, done⟩ := delete_refines n.2
      (s := mntUsbMsgPost ⟨.rm, .storage, n.2.nDiskId⟩ s) chain hit miss
    have after : Holds t.heap t.gPsUSBDevHead ((x ++ y) ++ n :: m) := by
      simpa using done.holds
    refine ⟨t, x ++ y ++ [n], run, ⟨by simpa using after, ?_, ?_, ?_, ?_, ?_⟩,
      _, holds_load after, rfl⟩
    · have dropped := eraseP_first (m := y ++ n :: m) hit miss
      simp only [Registry.withdraw, ← refines.devs]
      simpa using dropped.symm
    · simpa [Registry.withdraw, mntUsbMsgPost, refines.used] using done.used
    · simpa [Registry.withdraw, mntUsbMsgPost, refines.sent] using done.queue
    · exact done.limit.trans refines.unlimited
    · exact done.kept.trans refines.kept
  · have miss : ∀ k ∈ v, k.2.nDiskId ≠ n.2.nDiskId := fun k mem same => earlier ⟨k, mem, same⟩
    obtain ⟨t, run, done⟩ := delete_refines n.2
      (s := mntUsbMsgPost ⟨.rm, .storage, n.2.nDiskId⟩ s) refines.holds rfl miss
    have kept : t.heap.keepsFreed = true := done.kept.trans refines.kept
    refine ⟨t, v, run, ⟨done.holds, ?_, ?_, ?_, ?_, kept⟩, _, load_kept done.released kept, rfl⟩
    · simp only [Registry.withdraw, ← refines.devs]
      exact (eraseP_first rfl miss).symm
    · simpa [Registry.withdraw, mntUsbMsgPost, refines.used] using done.used
    · simpa [Registry.withdraw, mntUsbMsgPost, refines.sent] using done.queue
    · exact done.limit.trans refines.unlimited

theorem remove_loop_refines {s : DevState} {v r : List (Nat × StorageInfo)} {a : Registry}
    (refines : Refines s (v ++ r) a) (access : CStr → Bool) (ret : Int) {fuel : Nat}
    (enough : r.length < fuel) :
    ∃ t m, removeDevLoop access fuel (linkOf r 0) (ret, s) =
        some (if gone access (r.map Prod.snd) = [] then ret else 0, t) ∧
      Refines t m ((gone access (r.map Prod.snd)).foldl Registry.withdraw a) := by
  induction fuel generalizing s v r a ret with
  | zero => omega
  | succ fuel ih =>
    cases r with
    | nil => exact ⟨s, v, by simp [removeDevLoop, gone], by simpa [gone] using refines⟩
    | cons n r =>
      have nonnull := (holds_cell refines.holds).1
      have load := holds_load refines.holds
      have less : r.length < fuel := by
        simp only [List.length_cons] at enough
        omega
      by_cases present : access (devPath n.2.szDiskName) = true
      · obtain ⟨t, m, run, done⟩ := ih (v := v ++ [n]) (by simpa using refines) ret less
        have same : gone access ((n :: r).map Prod.snd) = gone access (r.map Prod.snd) := by
          simp [gone, present]
        refine ⟨t, m, ?_, by rw [same]; exact done⟩
        simp only [same, linkOf_cons, removeDevLoop, nonnull, ↓reduceIte, load,
          Option.bind_eq_bind, Option.bind_some, present, run]
      · obtain ⟨t, w, run, next, c, link, follow⟩ := visit_refines refines
        obtain ⟨u, m, rest, done⟩ := ih next 0 less
        have more : gone access ((n :: r).map Prod.snd) =
            n.2 :: gone access (r.map Prod.snd) := by
          simp [gone, present]
        refine ⟨u, m, ?_, by rw [more]; exact done⟩
        simp only [more, linkOf_cons, removeDevLoop, nonnull, ↓reduceIte, load,
          Option.bind_eq_bind, Option.bind_some, present, run, link, follow, rest]
        simp

/-- The removal scan withdraws every record whose device is gone, in list order, and
    returns 0 exactly when the list was empty or something was withdrawn. -/
theorem remove_refines {s : DevState} {l : List (Nat × StorageInfo)} {a : Registry}
    (refines : Refines s l a) (access : CStr → Bool) :
    ∃ t m, mntUsbRemoveDevNode access s =
        some (if a.devs = [] ∨ gone access a.devs ≠ [] then 0 else 1, t) ∧
      Refines t m (a.remove access) := by
  have empty := holds_entry_zero refines.holds
  rcases List.eq_nil_or_concat l with none | ⟨front, n, concat⟩
  · have nodevs : a.devs = [] := by rw [← refines.devs, none]; rfl
    refine ⟨s, l, by simp [mntUsbRemoveDevNode, empty.mpr none, nodevs], ?_⟩
    simpa [Registry.remove, nodevs, gone] using refines
  · have nonnull : s.gPsUSBDevHead ≠ 0 := by
      rw [Ne, empty, concat]
      simp
    have some : a.devs ≠ [] := by
      rw [← refines.devs, concat]
      simp
    obtain ⟨t, m, run, done⟩ := remove_loop_refines (v := []) refines access 1
      (holds_length refines.holds)
    rw [← refines.holds.entry, refines.devs] at run
    refine ⟨t, m, ?_, by rw [Registry.remove, ← refines.devs]; exact done⟩
    simp only [mntUsbRemoveDevNode, nonnull, ↓reduceIte, run, some, false_or]
    split <;> simp_all

/-- Each operation of the device module runs without a fault and does on the registry
    what the registry operation says. -/
theorem step_refines {s : DevState} {l : List (Nat × StorageInfo)} {a : Registry}
    (refines : Refines s l a) (op : DevOp) :
    ∃ t, devStep s op = some t ∧ ∃ m, Refines t m (a.step op) := by
  cases op with
  | probe access =>
    obtain ⟨t, m, run, done⟩ := probe_refines refines access
    exact ⟨t, by simp [devStep, run], m, done⟩
  | remove access =>
    obtain ⟨t, m, run, done⟩ := remove_refines refines access
    exact ⟨t, by simp [devStep, run], m, done⟩

theorem init_refines : Refines (DevState.init true) [] Registry.empty :=
  ⟨holds_empty true, rfl, rfl, rfl, rfl, rfl⟩

theorem run_refines (ops : List DevOp) :
    ∃ s, Runs.exec devStep (DevState.init true) ops = some s ∧
      ∃ l, Refines s l (ops.foldl Registry.step Registry.empty) :=
  Runs.exec_simulates (fun _ => True) (R := fun s a => ∃ l, Refines s l a)
    (fun _ _ op _ related => step_refines related.choose_spec op) (fun _ _ => trivial)
    ⟨[], init_refines⟩

end TestSource
