import TestSource.DeviceLaws

/- Two promises the device module keeps only on some histories: one node per disk, and
   ids that index the 128 entries of the query-thread table. For each the exact
   condition on the probes of a history is proved. -/
namespace TestSource
open LinkedHeap

def OneNodePerDisk (s : DevState) : Prop :=
  ∃ devs, s.Nodes devs ∧ (devs.map StorageInfo.szDiskName).Nodup

/-- A probe meets a list that names none of the devices it will find. -/
def ProbesNewDisks (s : DevState) : DevOp → Prop
  | .probe access => ∀ devs, s.Nodes devs → ∀ d ∈ devs, access (devPath d.szDiskName) = false
  | .remove _ => True

def IdsIndexThreads (s : DevState) : Prop := ∀ m ∈ s.queue, m.nDiskId ≤ 127

/-- The nodes listed and the devices found do not exceed 127 together. -/
def ProbeFits (s : DevState) : DevOp → Prop
  | .probe access => ∀ devs, s.Nodes devs → devs.length + (found access).length ≤ 127
  | .remove _ => True

theorem refines_nodes {s : DevState} {l : List (Nat × StorageInfo)} {a : Registry}
    (refines : Refines s l a) {devs : List StorageInfo} : s.Nodes devs ↔ devs = a.devs := by
  have here : s.Nodes a.devs := ⟨l, refines.holds, refines.devs⟩
  constructor
  · intro other
    exact nodes_unique other here
  · rintro rfl
    exact here

theorem scanNames_nodup : scanNames.Nodup := by decide

theorem enter_devs (a : Registry) (n : CStr) :
    ∃ id, (a.enter n).devs = a.devs ++ [⟨id, n⟩] ∧
      (a.enter n).sent = a.sent ++ [⟨.add, .storage, id⟩] :=
  ⟨_, rfl, rfl⟩

theorem probe_names (a : Registry) (access : CStr → Bool) :
    (a.probe access).devs.map StorageInfo.szDiskName =
      a.devs.map StorageInfo.szDiskName ++ found access := by
  unfold Registry.probe
  induction found access generalizing a with
  | nil => simp
  | cons n rest ih =>
    obtain ⟨id, devs, _⟩ := enter_devs a n
    simp [ih, devs]

theorem remove_sublist (a : Registry) (access : CStr → Bool) :
    (a.remove access).devs.Sublist a.devs := by
  unfold Registry.remove
  induction gone access a.devs generalizing a with
  | nil => exact List.Sublist.refl _
  | cons d rest ih => exact (ih (a.withdraw d)).trans List.eraseP_sublist

structure Named (s : DevState) (a : Registry) : Prop where
  refines : ∃ l, Refines s l a
  scanned : ∀ d ∈ a.devs, d.szDiskName ∈ scanNames
  distinct : (a.devs.map StorageInfo.szDiskName).Nodup

theorem probe_scanned {a : Registry} (scanned : ∀ d ∈ a.devs, d.szDiskName ∈ scanNames)
    (access : CStr → Bool) : ∀ d ∈ (a.probe access).devs, d.szDiskName ∈ scanNames := by
  intro d mem
  have name := List.mem_map_of_mem (f := StorageInfo.szDiskName) mem
  rw [probe_names] at name
  rcases List.mem_append.mp name with old | new
  · obtain ⟨e, listed, same⟩ := List.mem_map.mp old
    exact same ▸ scanned e listed
  · exact (List.mem_filter.mp new).1

theorem probe_distinct_iff {a : Registry} (scanned : ∀ d ∈ a.devs, d.szDiskName ∈ scanNames)
    (distinct : (a.devs.map StorageInfo.szDiskName).Nodup) (access : CStr → Bool) :
    ((a.probe access).devs.map StorageInfo.szDiskName).Nodup ↔
      ∀ d ∈ a.devs, access (devPath d.szDiskName) = false := by
  rw [probe_names, List.nodup_append]
  constructor
  · rintro ⟨_, _, apart⟩ d mem
    by_contra present
    exact apart d.szDiskName (List.mem_map_of_mem mem) d.szDiskName
      (List.mem_filter.mpr ⟨scanned d mem, by simpa using present⟩) rfl
  · intro absent
    refine ⟨distinct, scanNames_nodup.filter _, ?_⟩
    intro x old y new same
    obtain ⟨d, mem, rfl⟩ := List.mem_map.mp old
    have present := (List.mem_filter.mp new).2
    rw [← same, absent d mem] at present
    exact absurd present (by decide)

theorem named_step {s : DevState} {a : Registry} (named : Named s a) (op : DevOp)
    (met : ProbesNewDisks s op) :
    ∃ t, devStep s op = some t ∧ Named t (a.step op) := by
  obtain ⟨l, refines⟩ := named.refines
  obtain ⟨t, run, done⟩ := step_refines refines op
  refine ⟨t, run, done, ?_, ?_⟩
  · cases op with
    | probe access => exact probe_scanned named.scanned access
    | remove access => exact fun d mem => named.scanned d ((remove_sublist a access).subset mem)
  · cases op with
    | probe access =>
      exact (probe_distinct_iff named.scanned named.distinct access).mpr
        (met a.devs ((refines_nodes refines).mpr rfl))
    | remove access => exact ((remove_sublist a access).map _).nodup named.distinct

theorem named_step_broken {s : DevState} {a : Registry} (named : Named s a) (op : DevOp)
    (unmet : ¬ ProbesNewDisks s op) :
    ∃ t, devStep s op = some t ∧ ¬ OneNodePerDisk t := by
  obtain ⟨l, refines⟩ := named.refines
  cases op with
  | remove access => exact absurd trivial unmet
  | probe access =>
    obtain ⟨t, run, m, done⟩ := step_refines refines (.probe access)
    refine ⟨t, run, ?_⟩
    rintro ⟨later, nodes, unique⟩
    rw [(refines_nodes done).mp nodes] at unique
    apply unmet
    intro devs before
    rw [(refines_nodes refines).mp before]
    exact (probe_distinct_iff named.scanned named.distinct access).mp unique

theorem named_init : Named (DevState.init true) Registry.empty :=
  ⟨⟨[], init_refines⟩, by simp [Registry.empty], by simp [Registry.empty]⟩

/-- The list names every disk at most once in all states of a history exactly when no
    probe of it finds a device that is already listed. -/
theorem one_node_per_disk_iff (ops : List DevOp) :
    Runs.Always devStep OneNodePerDisk (DevState.init true) ops ↔
      Runs.Meets devStep ProbesNewDisks (DevState.init true) ops := by
  apply Runs.always_iff_meets (I := fun s => ∃ a, Named s a)
  · rintro s ⟨a, named⟩
    obtain ⟨l, refines⟩ := named.refines
    exact ⟨a.devs, (refines_nodes refines).mpr rfl, named.distinct⟩
  · rintro s op ⟨a, named⟩ met
    obtain ⟨t, run, next⟩ := named_step named op met
    exact ⟨t, run, _, next⟩
  · rintro s op ⟨a, named⟩ unmet
    exact named_step_broken named op unmet
  · exact ⟨_, named_init⟩

def onlySda : CStr → Bool := fun path => path = devPath (sdName 0)

theorem second_probe_duplicates :
    ∃ s, Runs.exec devStep (DevState.init true) [.probe onlySda, .probe onlySda] = some s ∧
      s.Nodes [⟨1, sdName 0⟩, ⟨2, sdName 0⟩] ∧ ¬ OneNodePerDisk s := by
  obtain ⟨s, run, l, refines⟩ := run_refines [.probe onlySda, .probe onlySda]
  have nodes : s.Nodes [⟨1, sdName 0⟩, ⟨2, sdName 0⟩] := by
    rw [refines_nodes refines]
    decide
  refine ⟨s, run, nodes, ?_⟩
  rintro ⟨devs, listed, unique⟩
  rw [nodes_unique listed nodes] at unique
  exact absurd unique (by decide)

/- Registries all of whose ids and announcements stay below 128. -/
structure LowIds (a : Registry) : Prop where
  tracks : Tracks a
  listed : ∀ d ∈ a.devs, 1 ≤ d.nDiskId ∧ d.nDiskId ≤ 127
  said : ∀ m ∈ a.sent, m.nDiskId ≤ 127

theorem low_ids_nodup {a : Registry} (low : LowIds a) :
    (a.devs.map StorageInfo.nDiskId).Nodup := by
  rw [List.nodup_iff_count_le_one]
  intro i
  have count : (a.devs.map StorageInfo.nDiskId).count i = carriers i a.devs := by
    simp only [List.count_eq_countP, List.countP_map, carriers]
    congr 1
  rw [count]
  by_cases none : carriers i a.devs = 0
  · omega
  · obtain ⟨d, mem, rfl⟩ := carriers_pos.mp (Nat.pos_of_ne_zero none)
    obtain ⟨one, high⟩ := low.listed d mem
    have agree := low.tracks.agree (d.nDiskId - 1) (by omega)
    rw [Nat.sub_add_cancel one] at agree
    rw [agree]
    split <;> omega

theorem low_ids_length {a : Registry} (low : LowIds a) : a.devs.length ≤ 127 := by
  have subset : a.devs.map StorageInfo.nDiskId ⊆ List.range' 1 127 := by
    intro i mem
    obtain ⟨d, member, rfl⟩ := List.mem_map.mp mem
    have := low.listed d member
    simp only [List.mem_range'_1]
    omega
  simpa using (low_ids_nodup low).length_le_of_subset subset

theorem low_slot_free {a : Registry} (low : LowIds a) (room : a.devs.length < 127) :
    ∃ i < 127, a.used i = false := by
  by_contra full
  have subset : List.range' 1 127 ⊆ a.devs.map StorageInfo.nDiskId := by
    intro i mem
    simp only [List.mem_range'_1] at mem
    have taken : a.used (i - 1) = true := by
      by_contra free
      exact full ⟨i - 1, by omega, by simpa using free⟩
    have agree := low.tracks.agree (i - 1) (by omega)
    rw [taken, Nat.sub_add_cancel mem.1] at agree
    obtain ⟨d, member, same⟩ := carriers_pos.mp (show 0 < carriers i a.devs by simp [agree])
    exact List.mem_map.mpr ⟨d, member, same⟩
  have bound := (List.nodup_range').length_le_of_subset subset
  simp only [List.length_range', List.length_map] at bound
  omega

theorem low_of_slot {a : Registry} (low : LowIds a) {k : Nat} (small : k < 127)
    (create : mntUsbCreateDiskId a.used = ((k : Int) + 1, setDevID a.used k true))
    (n : CStr) : LowIds (a.enter n) := by
  have slot : toU32 ((k : Int) + 1) = k + 1 := toU32_slot (by omega)
  refine ⟨tracks_enter low.tracks n, ?_, ?_⟩
  · intro d mem
    simp only [Registry.enter, create, slot] at mem
    rcases List.mem_append.mp mem with old | new
    · exact low.listed d old
    · simp only [List.mem_singleton] at new
      subst new
      exact ⟨Nat.succ_pos k, small⟩
  · intro m mem
    simp only [Registry.enter, create, slot] at mem
    rcases List.mem_append.mp mem with old | new
    · exact low.said m old
    · simp only [List.mem_singleton] at new
      subst new
      exact small

theorem low_enter {a : Registry} (low : LowIds a) (room : a.devs.length < 127) (n : CStr) :
    LowIds (a.enter n) := by
  obtain ⟨i, small, free⟩ := low_slot_free low room
  rcases create_cases a.used with ⟨k, _, _, before, create⟩ | ⟨full, _⟩
  · have least : k ≤ i := by
      by_contra above
      rw [before i (by omega)] at free
      exact absurd free (by decide)
    exact low_of_slot low (by omega) create n
  · rw [full i (by omega)] at free
    exact absurd free (by decide)

theorem high_enter {a : Registry} (low : LowIds a) (full : 127 ≤ a.devs.length) (n : CStr) :
    ∃ m ∈ (a.enter n).sent, 127 < m.nDiskId := by
  rcases create_cases a.used with ⟨k, bound, _, _, create⟩ | ⟨_, create⟩
  · refine ⟨⟨.add, .storage, k + 1⟩, by simp [Registry.enter, create, toU32_slot bound], ?_⟩
    show 127 < k + 1
    by_contra small
    obtain ⟨id, devs, _⟩ := enter_devs a n
    have count := low_ids_length (low_of_slot low (by omega) create n)
    rw [devs, List.length_append, List.length_singleton] at count
    omega
  · refine ⟨⟨.add, .storage, ALL_USB_DISK⟩, ?_, by decide⟩
    simp [Registry.enter, create, toU32_minus_one]

theorem sent_kept (names : List CStr) (a : Registry) {m : UsbInfo} (mem : m ∈ a.sent) :
    m ∈ (names.foldl Registry.enter a).sent := by
  induction names generalizing a with
  | nil => exact mem
  | cons n names ih =>
    obtain ⟨id, _, sent⟩ := enter_devs a n
    exact ih (a.enter n) (by simp [sent, mem])

theorem probe_low_or_high (names : List CStr) {a : Registry} (low : LowIds a) :
    if a.devs.length + names.length ≤ 127 then LowIds (names.foldl Registry.enter a)
    else ∃ m ∈ (names.foldl Registry.enter a).sent, 127 < m.nDiskId := by
  induction names generalizing a with
  | nil => simpa [low_ids_length low] using low
  | cons n names ih =>
    obtain ⟨id, devs, _⟩ := enter_devs a n
    by_cases room : a.devs.length < 127
    · have next := ih (low_enter low room n)
      rw [devs, List.length_append, List.length_singleton] at next
      simpa [Nat.add_assoc, Nat.add_comm 1] using next
    · have excess : ¬ a.devs.length + (n :: names).length ≤ 127 := by
        simp only [List.length_cons]
        omega
      obtain ⟨m, mem, high⟩ := high_enter low (by omega) n
      simp only [excess, ↓reduceIte]
      exact ⟨m, sent_kept names _ mem, high⟩

theorem low_withdraw {a : Registry} {d : StorageInfo}
    (found : 0 < carriers d.nDiskId a.devs) (low : LowIds a) : LowIds (a.withdraw d) := by
  refine ⟨tracks_withdraw low.tracks found, ?_, ?_⟩
  · intro e mem
    exact low.listed e (List.mem_of_mem_eraseP mem)
  · intro m mem
    obtain ⟨e, member, same⟩ := carriers_pos.mp found
    rcases List.mem_append.mp mem with old | new
    · exact low.said m old
    · simp only [List.mem_singleton] at new
      subst new
      show d.nDiskId ≤ 127
      rw [← same]
      exact (low.listed e member).2

/-- Every id sent along a history is below 128 exactly when no probe of it takes the
    number of listed nodes above 127. -/
theorem ids_index_threads_iff (ops : List DevOp) :
    Runs.Always devStep IdsIndexThreads (DevState.init true) ops ↔
      Runs.Meets devStep ProbeFits (DevState.init true) ops := by
  apply Runs.always_iff_meets (I := fun s => ∃ l a, Refines s l a ∧ LowIds a)
  · rintro s ⟨l, a, refines, low⟩ m mem
    rw [refines.sent] at mem
    exact low.said m mem
  · rintro s op ⟨l, a, refines, low⟩ met
    obtain ⟨t, run, m, done⟩ := step_refines refines op
    refine ⟨t, run, m, a.step op, done, ?_⟩
    cases op with
    | probe access =>
      have fits := met a.devs ((refines_nodes refines).mpr rfl)
      have split := probe_low_or_high (found access) low
      rwa [if_pos fits] at split
    | remove access => exact remove_keeps access (fun _ _ _ => low_withdraw) low
  · rintro s op ⟨l, a, refines, low⟩ unmet
    obtain ⟨t, run, m, done⟩ := step_refines refines op
    refine ⟨t, run, ?_⟩
    cases op with
    | probe access =>
      have split := probe_low_or_high (found access) low
      have excess : ¬ a.devs.length + (found access).length ≤ 127 := by
        intro fits
        apply unmet
        intro devs nodes
        rwa [(refines_nodes refines).mp nodes]
      rw [if_neg excess] at split
      obtain ⟨x, mem, high⟩ := split
      intro index
      have small := index x (by rw [done.sent]; exact mem)
      omega
    | remove access => exact absurd trivial unmet
  · exact ⟨[], Registry.empty, init_refines, tracks_empty, by simp [Registry.empty],
      by simp [Registry.empty]⟩

def allPresent : CStr → Bool := fun _ => true

theorem fourth_probe_sends_128 :
    ∃ s, Runs.exec devStep (DevState.init true) (List.replicate 4 (.probe allPresent)) = some s ∧
      ⟨.add, .storage, 128⟩ ∈ s.queue ∧ ¬ IdsIndexThreads s := by
  obtain ⟨s, run, l, refines⟩ := run_refines (List.replicate 4 (.probe allPresent))
  have sent : (⟨.add, .storage, 128⟩ : UsbInfo) ∈ s.queue := by
    rw [refines.sent]
    decide +kernel
  refine ⟨s, run, sent, ?_⟩
  intro index
  exact absurd (index _ sent) (by decide)

end TestSource
