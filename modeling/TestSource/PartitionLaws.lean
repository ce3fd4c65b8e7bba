import TestSource.Partition

/- The partition list refines a map in insertion order. Each operation of xl_usb_mng.c is
   shown to do on the stored nodes what the map operation does on the records. -/
namespace TestSource
open LinkedHeap OrderedMap

structure Keeps (s : PartState) (nodes : List (Nat × PartitionInfo)) : Prop where
  holds : Holds s.heap s.sPsPartHead nodes
  unlimited : s.heap.limit = none
  kept : s.heap.keepsFreed = true

def records (nodes : List (Nat × PartitionInfo)) : List PartitionInfo := nodes.map Prod.snd

theorem append_fresh {s : PartState} {l : List (Nat × PartitionInfo)} {n : Nat × PartitionInfo}
    (keeps : Keeps s (l ++ [n])) (r : PartitionInfo) :
    (s.heap.extend r 0).setNext n.1 s.heap.top =
        some ((s.heap.extend r 0).put n.1 ⟨n.2, s.heap.top, true⟩) ∧
      Keeps ⟨(s.heap.extend r 0).put n.1 ⟨n.2, s.heap.top, true⟩, s.sPsPartHead⟩
        (l ++ [n] ++ [(s.heap.top, r)]) := by
  have grown := holds_malloc keeps.holds r 0
  have cell := (holds_cell (b := []) grown).2
  have positive := keeps.holds.positive
  have fresh : ∀ m ∈ l ++ [n], m.1 ≠ s.heap.top := by
    intro m mem
    have := keeps.holds.below m mem
    omega
  refine ⟨?_, ?_, keeps.unlimited, keeps.kept⟩
  · rw [Heap.setNext, update_live cell rfl]
  · exact holds_link_last grown (by simp [Heap.extend]) (by omega) (by simp [Heap.extend]) fresh

theorem linkBatch_runs (batch : List PartitionInfo) (i pre : Nat) {s : PartState}
    {l : List (Nat × PartitionInfo)} (keeps : Keeps s l)
    (start : l = [] → i = 0 ∧ pre = 0) (behind : ∀ w k, l = w ++ [k] → i ≠ 0 ∧ pre = k.1) :
    ∃ t m, linkBatch batch i pre s = some (.ok, t) ∧ Keeps t (l ++ m) ∧ records m = batch := by
  induction batch generalizing i pre s l with
  | nil => exact ⟨s, [], rfl, by simpa using keeps, rfl⟩
  | cons r batch ih =>
    rcases List.eq_nil_or_concat l with empty | ⟨w, k, concat⟩
    · obtain ⟨first, null⟩ := start empty
      subst empty first null
      have next : Keeps ⟨s.heap.extend r 0, s.heap.top⟩ [(s.heap.top, r)] :=
        ⟨holds_first keeps.holds, keeps.unlimited, keeps.kept⟩
      obtain ⟨t, m, run, done, same⟩ := ih 1 s.heap.top next (by simp)
        (fun w k concat => by simp [← last_eq (a := []) concat])
      refine ⟨t, (s.heap.top, r) :: m, ?_, by simpa using done, by simp [records, ← same]⟩
      simp only [linkBatch, malloc_unlimited keeps.unlimited, ne_eq, not_true, ↓reduceIte,
        Option.bind_eq_bind, Option.bind_some]
      exact run
    · rw [List.concat_eq_append] at concat
      obtain ⟨later, after⟩ := behind w k concat
      subst concat after
      obtain ⟨link, next⟩ := append_fresh keeps r
      obtain ⟨t, m, run, done, same⟩ := ih (i + 1) s.heap.top next (by simp)
        (fun v x concat => by simp [← last_eq concat])
      refine ⟨t, (s.heap.top, r) :: m, ?_, by simpa using done, by simp [records, ← same]⟩
      have nonnull := (holds_cell (b := []) keeps.holds).1
      simp only [linkBatch, malloc_unlimited keeps.unlimited, ne_eq, nonnull, not_false_eq_true,
        ↓reduceIte, Option.bind_eq_bind, link, Option.bind_some, later]
      exact run

theorem key_eq_iff (x y : PartitionInfo) :
    x.nUSBDiskId = y.nUSBDiskId ∧ x.nPatitionId = y.nPatitionId ↔ x.key = y.key := by
  simp [PartitionInfo.key]

theorem storeRecord_runs (r : PartitionInfo) (fuel : Nat) {s : PartState}
    {v b : List (Nat × PartitionInfo)} (keeps : Keeps s (v ++ b)) (more : b ≠ [])
    (miss : ∀ n ∈ v, n.2.key ≠ r.key) (enough : b.length ≤ fuel) :
    ∃ h m, storeRecord r fuel (linkOf b 0) s.heap = some h ∧ Keeps ⟨h, s.sPsPartHead⟩ m ∧
      records m = store PartitionInfo.key (records (v ++ b)) r ∧
      (v ++ b).map Prod.fst <+: m.map Prod.fst := by
  induction fuel generalizing v b with
  | zero => exact absurd (List.length_eq_zero_iff.mp (by omega)) more
  | succ fuel ih =>
    cases b with
    | nil => contradiction
    | cons n b =>
      have load := holds_load keeps.holds
      have cell := (holds_cell keeps.holds).2
      have skipped : ∀ x ∈ records v, x.key ≠ r.key := by
        intro x mem
        obtain ⟨k, member, rfl⟩ := List.mem_map.mp mem
        exact miss k member
      have split : records (v ++ n :: b) = records v ++ n.2 :: records b := by simp [records]
      by_cases hit : n.2.key = r.key
      · refine ⟨s.heap.put n.1 ⟨r, linkOf b 0, true⟩, v ++ (n.1, r) :: b, ?_, ⟨holds_setVal keeps.holds r, keeps.unlimited,
          keeps.kept⟩, ?_, by simp⟩
        · simp only [linkOf_cons, storeRecord, load, Option.bind_eq_bind, Option.bind_some,
            key_eq_iff, hit, ↓reduceIte, Heap.setVal, update_live cell rfl]
        · rw [split, store_skip skipped, store, if_pos hit]
          simp [records]
      · by_cases last : b = []
        · subst last
          obtain ⟨link, next⟩ := append_fresh keeps r
          refine ⟨_, v ++ [n] ++ [(s.heap.top, r)], ?_, next, ?_, by simp⟩
          · simp only [linkOf_cons, storeRecord, load, Option.bind_eq_bind, Option.bind_some,
              key_eq_iff, hit, ↓reduceIte, linkOf_nil, malloc_unlimited keeps.unlimited, link]
          · rw [split, store_skip skipped, store, if_neg hit]
            simp [records, store]
        · have here : Keeps s ((v ++ [n]) ++ b) := by simpa using keeps
          have later : linkOf b 0 ≠ 0 := by
            rw [Ne, link_zero_iff here.holds]
            exact last
          obtain ⟨h, m, run, done, same, front⟩ := ih here last
            (fun x mem => by
              rcases List.mem_append.mp mem with old | new
              · exact miss x old
              · simp only [List.mem_singleton] at new
                exact new ▸ hit)
            (by simp only [List.length_cons] at enough; omega)
          refine ⟨h, m, ?_, done, by simpa using same, by simpa using front⟩
          simp only [linkOf_cons, storeRecord, load, Option.bind_eq_bind, Option.bind_some,
            key_eq_iff, hit, ↓reduceIte, later]
          exact run

theorem storeBatch_runs (batch : List PartitionInfo) {s : PartState}
    {l : List (Nat × PartitionInfo)} (keeps : Keeps s l) (more : l ≠ []) :
    ∃ t m, storeBatch batch s = some t ∧ Keeps t m ∧
      records m = storeAll PartitionInfo.key (records l) batch ∧
      l.map Prod.fst <+: m.map Prod.fst := by
  induction batch generalizing s l with
  | nil => exact ⟨s, l, rfl, keeps, rfl, List.prefix_refl _⟩
  | cons r batch ih =>
    obtain ⟨h, m, first, next, same, front⟩ := storeRecord_runs r s.heap.top (v := []) keeps more
      (by simp) (Nat.le_of_lt (holds_length keeps.holds))
    have nonempty : m ≠ [] := by
      intro empty
      rw [empty] at front
      exact more (by simpa using front)
    obtain ⟨t, k, rest, done, all, longer⟩ := ih next nonempty
    refine ⟨t, k, ?_, done, ?_, front.trans longer⟩
    · rw [← keeps.holds.entry] at first
      simp only [storeBatch, List.foldlM_cons, first, Option.map_some, Option.bind_eq_bind,
        Option.bind_some]
      exact rest
    · rw [all, same]
      rfl

theorem insert_runs (batch : List PartitionInfo) (nonempty : batch ≠ [])
    (distinct : (batch.map PartitionInfo.key).Nodup) {s : PartState}
    {l : List (Nat × PartitionInfo)} (keeps : Keeps s l) :
    ∃ t m, mntUsbInsertPartitionList (some batch) batch.length s = some (.ok, t) ∧ Keeps t m ∧
      records m = storeAll PartitionInfo.key (records l) batch ∧
      l.map Prod.fst <+: m.map Prod.fst := by
  have count : ¬ (0 : Int) ≥ batch.length := by
    have := List.length_pos_of_ne_nil nonempty
    omega
  have empty := holds_entry_zero keeps.holds
  simp only [mntUsbInsertPartitionList, count, ↓reduceIte, Int.toNat_natCast, lt_self_iff_false,
    List.take_length, empty]
  by_cases fresh : l = []
  · subst fresh
    obtain ⟨t, m, run, done, same⟩ := linkBatch_runs batch 0 0 keeps (by simp) (by simp)
    refine ⟨t, m, by simp [run], by simpa using done, ?_, by simp⟩
    rw [same]
    exact (storeAll_new (l := []) (by simp) distinct).symm
  · obtain ⟨t, m, run, done, same, front⟩ := storeBatch_runs batch keeps fresh
    exact ⟨t, m, by simp [fresh, run], done, same, front⟩

theorem insert_members (array : List PartitionInfo) (nonempty : array ≠ []) {s : PartState}
    {l : List (Nat × PartitionInfo)} (keeps : Keeps s l) :
    ∃ t m, mntUsbInsertPartitionList (some array) array.length s = some (.ok, t) ∧ Keeps t m ∧
      (∀ x ∈ records m, x ∈ records l ∨ x ∈ array) ∧ ∀ r ∈ array, ∃ x ∈ records m, x.key = r.key := by
  have count : ¬ (0 : Int) ≥ array.length := by
    have := List.length_pos_of_ne_nil nonempty
    omega
  have empty := holds_entry_zero keeps.holds
  simp only [mntUsbInsertPartitionList, count, ↓reduceIte, Int.toNat_natCast, lt_self_iff_false,
    List.take_length, empty]
  by_cases fresh : l = []
  · subst fresh
    obtain ⟨t, m, run, done, same⟩ := linkBatch_runs array 0 0 keeps (by simp) (by simp)
    refine ⟨t, m, by simp [run], by simpa using done, ?_, ?_⟩
    · intro x mem
      exact .inr (same ▸ mem)
    · intro r mem
      exact ⟨r, same ▸ mem, rfl⟩
  · obtain ⟨t, m, run, done, same, _⟩ := storeBatch_runs array keeps fresh
    refine ⟨t, m, by simp [fresh, run], done, ?_, ?_⟩
    · intro x mem
      rw [same] at mem
      exact mem_storeAll mem
    · intro r mem
      have kept : r.key ∈ (records m).map PartitionInfo.key := by
        rw [same]
        exact key_storeAll (.inr (List.mem_map_of_mem mem))
      exact List.mem_map.mp kept

theorem deletePartLoop_runs (d fuel pre : Nat) {s : PartState}
    {v b : List (Nat × PartitionInfo)} (keeps : Keeps s (v ++ b))
    (behind : ∀ w k, v = w ++ [k] → pre = k.1) (enough : b.length < fuel) :
    ∃ t, deletePartLoop d fuel (linkOf b 0) pre s = some t ∧
      Keeps t (v ++ b.filter fun n => n.2.nUSBDiskId ≠ d) := by
  induction fuel generalizing v b pre s with
  | zero => omega
  | succ fuel ih =>
    cases b with
    | nil => exact ⟨s, by simp [deletePartLoop], by simpa using keeps⟩
    | cons n b =>
      have nonnull := (holds_cell keeps.holds).1
      have load := holds_load keeps.holds
      have less : b.length < fuel := by
        simp only [List.length_cons] at enough
        omega
      by_cases hit : n.2.nUSBDiskId = d
      · obtain ⟨h₁, h₂, head, out⟩ := take_out keeps.holds behind
        have next : Keeps ⟨h₂, head⟩ (v ++ b) :=
          ⟨out.holds, out.limit.trans keeps.unlimited, out.kept.trans keeps.kept⟩
        have dangling := load_kept out.released next.kept
        by_cases first : s.sPsPartHead = n.1
        · obtain ⟨alone, same, entry⟩ := out.first first
          subst alone same entry
          obtain ⟨t, run, done⟩ := ih 0 next (by simp) less
          refine ⟨t, ?_, by simpa [hit] using done⟩
          simp only [linkOf_cons, deletePartLoop, nonnull, ↓reduceIte, load, Option.bind_eq_bind,
            Option.bind_some, hit, first, out.release, dangling]
          exact run
        · obtain ⟨relink, entry⟩ := out.later first
          subst entry
          obtain ⟨t, run, done⟩ := ih pre next behind less
          refine ⟨t, ?_, by simpa [hit] using done⟩
          simp only [linkOf_cons, deletePartLoop, nonnull, ↓reduceIte, load, Option.bind_eq_bind,
            Option.bind_some, hit, first, relink, Option.map_some, out.release, dangling]
          exact run
      · have here : Keeps s ((v ++ [n]) ++ b) := by simpa using keeps
        obtain ⟨t, run, done⟩ := ih n.1 here (fun w x concat => by rw [last_eq concat]) less
        refine ⟨t, ?_, by simpa [hit] using done⟩
        simp only [linkOf_cons, deletePartLoop, nonnull, ↓reduceIte, load, Option.bind_eq_bind,
          Option.bind_some, hit]
        exact run

theorem delete_runs (d : Nat) {s : PartState} {l : List (Nat × PartitionInfo)}
    (keeps : Keeps s l) :
    ∃ t, mntUsbDeletePartitionsFromList d s = some (.errorFailed, t) ∧
      Keeps t (l.filter fun n => n.2.nUSBDiskId ≠ d) := by
  obtain ⟨t, run, done⟩ := deletePartLoop_runs d s.heap.top 0 (v := []) keeps (by simp)
    (holds_length keeps.holds)
  rw [← keeps.holds.entry] at run
  exact ⟨t, by simp [mntUsbDeletePartitionsFromList, run], by simpa using done⟩

/-- The record last inserted under a key and not deleted with its disk since then. -/
def latest (k : Nat × Nat) (ops : List PartOp) : Option PartitionInfo :=
  ops.foldl (fun r op => match op with
    | .insert batch => (fetch PartitionInfo.key k batch).or r
    | .delete d => if k.1 = d then none else r) none

def effect (nodes : List (Nat × PartitionInfo)) (op : PartOp)
    (after : List (Nat × PartitionInfo)) : Prop :=
  match op with
  | .insert batch =>
      nodes.map Prod.fst <+: after.map Prod.fst ∧
      (records after).map PartitionInfo.key =
        (records nodes).map PartitionInfo.key ++ freshKeys PartitionInfo.key (records nodes) batch
  | .delete d => after = nodes.filter fun n => n.2.nUSBDiskId ≠ d

structure MapsTo (ops : List PartOp) (nodes : List (Nat × PartitionInfo)) : Prop where
  unique : ((records nodes).map PartitionInfo.key).Nodup
  value : ∀ k, fetch PartitionInfo.key k (records nodes) = latest k ops

theorem part_step {s : PartState} {l : List (Nat × PartitionInfo)} (keeps : Keeps s l)
    {op : PartOp} (valid : op.Valid) {ops : List PartOp} (maps : MapsTo ops l) :
    ∃ t m, partStep s op = some t ∧ Keeps t m ∧ effect l op m ∧ MapsTo (ops ++ [op]) m := by
  cases op with
  | insert batch =>
    obtain ⟨nonempty, distinct⟩ := valid
    obtain ⟨t, m, run, done, same, front⟩ := insert_runs batch nonempty distinct keeps
    refine ⟨t, m, by simp [partStep, run], done, ⟨front, ?_⟩, ?_, ?_⟩
    · rw [same, keys_storeAll distinct]
    · rw [same]
      exact nodup_storeAll batch maps.unique
    · intro k
      rw [same, fetch_storeAll distinct, maps.value]
      simp [latest]
  | delete d =>
    obtain ⟨t, run, done⟩ := delete_runs d keeps
    have dropped : records (l.filter fun n => n.2.nUSBDiskId ≠ d) =
        (records l).filter fun r => r.nUSBDiskId ≠ d := by
      simp [records, List.filter_map, Function.comp_def]
    refine ⟨t, _, by simp [partStep, run], done, rfl, ?_, ?_⟩
    · rw [dropped]
      exact (List.filter_sublist.map _).nodup maps.unique
    · intro k
      have gone : latest k (ops ++ [.delete d]) = if k.1 = d then none else latest k ops := by
        simp [latest]
      rw [dropped, fetch_filter _ _ _ (fun x y same => by simp_all [PartitionInfo.key]), gone,
        ← maps.value]
      cases found : fetch PartitionInfo.key k (records l) with
      | none => simp
      | some r =>
        have key : r.nUSBDiskId = k.1 := by rw [← fetch_key found]; rfl
        by_cases same : k.1 = d <;> simp [Option.filter, key, same]

theorem part_run {ops : List PartOp} (valid : ∀ op ∈ ops, op.Valid) :
    ∃ s nodes, Runs.exec partStep (PartState.init true) ops = some s ∧ Keeps s nodes ∧
      MapsTo ops nodes := by
  induction ops using List.reverseRecOn with
  | nil => exact ⟨_, [], rfl, ⟨holds_empty _, rfl, rfl⟩, by simp [records], by simp [records, fetch, latest]⟩
  | append_singleton ops op ih =>
    obtain ⟨s, l, run, keeps, maps⟩ := ih fun op mem => valid op (by simp [mem])
    obtain ⟨t, m, step, next, -, mapped⟩ := part_step keeps (valid op (by simp)) maps
    refine ⟨t, m, ?_, next, mapped⟩
    rw [Runs.exec_append, run]
    simp [Runs.exec, step]

/-- Every run of batch inserts and disk deletes is fault free and keeps a map in insertion
    order, and whatever valid call comes next has the effect of the map operation. -/
theorem partition_list_refines_map (ops : List PartOp) (valid : ∀ op ∈ ops, op.Valid) :
    ∃ s nodes, Runs.exec partStep (PartState.init true) ops = some s ∧
      Holds s.heap s.sPsPartHead nodes ∧
      ((records nodes).map PartitionInfo.key).Nodup ∧
      (∀ k, fetch PartitionInfo.key k (records nodes) = latest k ops) ∧
      ∀ op : PartOp, op.Valid → ∃ t after, partStep s op = some t ∧
        Holds t.heap t.sPsPartHead after ∧ effect nodes op after := by
  obtain ⟨s, nodes, run, keeps, maps⟩ := part_run valid
  refine ⟨s, nodes, run, keeps.holds, maps.unique, maps.value, ?_⟩
  intro op next
  obtain ⟨t, after, step, kept, change, -⟩ := part_step keeps next maps
  exact ⟨t, after, step, kept.holds, change⟩

def record (d p : Nat) : PartitionInfo := ⟨d, 1, [], [], 0, 0, p, [], 0⟩

def replug : List PartOp :=
  [.insert [record 1 1, record 1 2, record 2 1], .delete 1, .insert [record 2 1, record 1 1]]

theorem replug_valid : ∀ op ∈ replug, op.Valid := by
  simp only [replug, List.mem_cons, List.not_mem_nil, or_false]
  rintro op (rfl | rfl | rfl) <;> simp [PartOp.Valid, record, PartitionInfo.key]

theorem replugged_list_refines_map : (∀ op ∈ replug, op.Valid) ∧
    ∃ s nodes, Runs.exec partStep (PartState.init true) replug = some s ∧
      Holds s.heap s.sPsPartHead nodes ∧
      fetch PartitionInfo.key (1, 1) (records nodes) = some (record 1 1) ∧
      fetch PartitionInfo.key (1, 2) (records nodes) = none := by
  obtain ⟨s, nodes, run, holds, -, value, -⟩ := partition_list_refines_map replug replug_valid
  refine ⟨replug_valid, s, nodes, run, holds, ?_, ?_⟩
  · rw [value]
    decide
  · rw [value]
    decide

end TestSource
