import TestSource.DosChains

/- The loop of reclaim_file over its walks: chains are tagged from their heads, what is left
   lies in circles, and a circle broken gets a head of its own. -/
namespace TestSource.Dosfsck

section Tag
variable {o : Options} {fs : DosFs} {dev : Device} {base : List Byte} {orig table : Nat → Entry}
  {ptr : Nat}

/-- The clusters tagged so far are those of the chains, and the counts of the others are
    the numbers of their links. -/
structure Chained (o : Options) (fs : DosFs) (ptr : Nat) (orig table : Nat → Entry)
    (chains : List (List Nat)) : Prop where
  tagging : Tagging o fs ptr orig table
  nodup : chains.flatten.Nodup
  member : ∀ i, i ∈ chains.flatten ↔ Orphan o fs orig i ∧ (table i).owner = some ptr
  linked : ∀ c ∈ chains, Linked fs table c
  heads : ∀ c ∈ chains, ∀ i ∈ c, (table i).prev = 0 ↔ c.head? = some i
  count : ∀ j, Orphan o fs table j → (table j).prev = (linkers o fs table [] j).card

theorem chained_orphan {chains : List (List Nat)} {i : Nat} (range : fs.clusters + 2 ≤ fatMinBad o fs)
    (chained : Chained o fs ptr orig table chains) (orphan : Orphan o fs table i) :
    Orphan o fs orig i ∧ i ∉ chains.flatten := by
  have used := (cut_used range chained.tagging.cut).mp orphan.2.2
  have free := orphan.2.1
  constructor
  · cases chained.tagging.owner i with
    | inl same => exact ⟨orphan.1, same ▸ free, used⟩
    | inr done => exact done.1
  · intro mem
    rw [((chained.member i).mp mem).2] at free
    cases free

theorem linked_congr {other : Nat → Entry} {c : List Nat}
    (same : ∀ i ∈ c, (other i).value = (table i).value) (linked : Linked fs table c) :
    Linked fs other c := by
  induction c with
  | nil => exact linked
  | cons a c ih =>
    cases c with
    | nil =>
      rw [Linked, same a (by simp)]
      exact linked
    | cons b rest =>
      obtain ⟨link, tail⟩ := linked
      exact ⟨(same a (by simp)).trans link, ih (fun i mem => same i (by simp [mem])) tail⟩

theorem linked_pred {p i : Nat} {tail : List Nat} (linked : Linked fs table (p :: tail))
    (mem : i ∈ tail) : ∃ y ∈ p :: tail, (table y).value = i := by
  induction tail generalizing p with
  | nil => cases mem
  | cons b rest ih =>
    obtain ⟨link, more⟩ := linked
    cases List.mem_cons.mp mem with
    | inl here => exact ⟨p, by simp, link.trans here.symm⟩
    | inr later =>
      obtain ⟨y, inside, found⟩ := ih more later
      exact ⟨y, List.mem_cons_of_mem p inside, found⟩

/-- A walk from a head, the tagging of the head included. -/
structure Walk (o : Options) (fs : DosFs) (ptr : Nat) (s t : Fat) (h : Nat) (tail : List Nat) : Prop where
  nodup : (h :: tail).Nodup
  orphans : ∀ i ∈ h :: tail, Orphan o fs s.table i
  linked : Linked fs t.table (h :: tail)
  owner : ∀ i, (t.table i).owner = if i ∈ h :: tail then some ptr else (s.table i).owner
  prev : ∀ i, (t.table i).prev = (s.table i).prev
  beside : ∀ i, i ∉ h :: tail → (t.table i).value = (s.table i).value
  along : ∀ i ∈ h :: tail, (t.table i).value = (s.table i).value ∨ (t.table i).value = fatEof o fs
  closed : ∀ i ∈ h :: tail, (s.table i).value < fs.clusters + 2 → (t.table (s.table i).value).owner = some ptr

theorem walk_of_walked {s t : Fat} {h : Nat} {tail : List Nat} (orphan : Orphan o fs s.table h)
    (walked : Walked o fs ptr (tag s ptr h) t h tail) : Walk o fs ptr s t h tail := by
  obtain ⟨nodup, fresh, linked, owner, prev, beside, along, closed⟩ := walked
  simp only [tag_value, tag_owner, tag_prev] at owner prev beside along closed
  refine ⟨nodup, ?_, linked, ?_, prev, beside, along, closed⟩
  · intro i mem
    cases List.mem_cons.mp mem with
    | inl here =>
      rw [here]
      exact orphan
    | inr later => exact (tag_orphan.mp (fresh i later)).1
  · intro i
    rw [owner]
    by_cases here : i = h
    · simp [here]
    · simp [here]

/-- The orphans left are those outside the new chain. -/
theorem walk_left {s t : Fat} {h i : Nat} {tail : List Nat} (walk : Walk o fs ptr s t h tail) :
    Orphan o fs t.table i ↔ Orphan o fs s.table i ∧ i ∉ h :: tail := by
  unfold Orphan
  rw [walk.owner]
  by_cases mem : i ∈ h :: tail
  · simp [mem]
  · rw [if_neg mem, walk.beside i mem]
    simp [mem]

theorem walk_linkers {s t : Fat} {h j : Nat} {tail : List Nat} (walk : Walk o fs ptr s t h tail)
    (orphan : Orphan o fs t.table j) : linkers o fs t.table [] j = linkers o fs s.table [] j := by
  apply linkers_congr
  intro i _
  rw [walk_left walk]
  constructor
  · rintro ⟨⟨inner, other⟩, link⟩
    exact ⟨inner, (walk.beside i other) ▸ link⟩
  · rintro ⟨inner, link⟩
    have other : i ∉ h :: tail := by
      intro mem
      have met := walk.closed i mem (by rw [link]; exact orphan.1.2)
      rw [link, orphan.2.1] at met
      cases met
    exact ⟨⟨inner, other⟩, (walk.beside i other).trans link⟩

/-- A cluster behind the head has been counted when its predecessor was seen. -/
theorem walk_behind {s t : Fat} {h i : Nat} {tail : List Nat} (range : fs.clusters + 2 ≤ fatMinBad o fs)
    (walk : Walk o fs ptr s t h tail) (behind : i ∈ tail) : 0 < (linkers o fs s.table [] i).card := by
  obtain ⟨y, within, link⟩ := linked_pred walk.linked behind
  have small := (walk.orphans i (List.mem_cons_of_mem h behind)).1.2
  have value : (s.table y).value = i := by
    cases walk.along y within with
    | inl same => rw [← same, link]
    | inr done =>
      have := (eof_facts range).2.2.2
      omega
  exact Finset.card_pos.mpr ⟨y, mem_linkers.mpr ⟨by simp, walk.orphans y within, value⟩⟩

theorem walk_head {s t : Fat} {h i : Nat} {tail : List Nat} {chains : List (List Nat)}
    (range : fs.clusters + 2 ≤ fatMinBad o fs) (chained : Chained o fs ptr orig s.table chains)
    (walk : Walk o fs ptr s t h tail) (head : (s.table h).prev = 0) (inside : i ∈ h :: tail) :
    (t.table i).prev = 0 ↔ h = i := by
  rw [walk.prev]
  cases List.mem_cons.mp inside with
  | inl here =>
    rw [here]
    exact ⟨fun _ => rfl, fun _ => head⟩
  | inr later =>
    have other : h ≠ i := fun same => (List.nodup_cons.mp walk.nodup).1 (same ▸ later)
    have counted := walk_behind range walk later
    rw [chained.count i (walk.orphans i inside)]
    exact ⟨fun zero => by omega, fun same => absurd same other⟩

theorem chained_walk {s t : Fat} {h : Nat} {tail : List Nat} {chains : List (List Nat)}
    (range : fs.clusters + 2 ≤ fatMinBad o fs) (chained : Chained o fs ptr orig s.table chains)
    (orphan : Orphan o fs s.table h) (head : (s.table h).prev = 0)
    (walked : Walked o fs ptr (tag s ptr h) t h tail) :
    Chained o fs ptr orig t.table (chains ++ [h :: tail]) := by
  have first := (chained_orphan range chained orphan).1
  have walk := walk_of_walked orphan walked
  have apart : ∀ i ∈ chains.flatten, i ∉ h :: tail := by
    intro i old new
    exact (chained_orphan range chained (walk.orphans i new)).2 old
  refine ⟨walked_tagging range (tag_tagging chained.tagging first) first walked, ?_, ?_, ?_, ?_, ?_⟩
  · rw [List.flatten_append, List.flatten_singleton, List.nodup_append]
    refine ⟨chained.nodup, walk.nodup, ?_⟩
    rintro a old b new rfl
    exact apart a old new
  · intro i
    rw [List.flatten_append, List.flatten_singleton, List.mem_append, chained.member, walk.owner]
    by_cases mem : i ∈ h :: tail
    · simp only [mem, or_true, if_true, and_true, true_iff]
      exact (chained_orphan range chained (walk.orphans i mem)).1
    · simp only [mem, or_false, if_false]
  · intro c mem
    cases List.mem_append.mp mem with
    | inl old =>
      apply linked_congr _ (chained.linked c old)
      intro i inside
      exact walk.beside i (apart i (List.mem_flatten.mpr ⟨c, old, inside⟩))
    | inr new =>
      rw [List.mem_singleton.mp new]
      exact walk.linked
  · intro c mem i inside
    cases List.mem_append.mp mem with
    | inl old =>
      rw [walk.prev]
      exact chained.heads c old i inside
    | inr new =>
      rw [List.mem_singleton.mp new] at inside ⊢
      rw [List.head?_cons, Option.some.injEq]
      exact walk_head range chained walk head inside
  · intro j left
    rw [walk.prev, walk_linkers walk left]
    exact chained.count j ((walk_left walk).mp left).1

theorem card_orphans_le : (orphans o fs table).card ≤ fs.clusters := by
  calc (orphans o fs table).card ≤ (Finset.Ico 2 (fs.clusters + 2)).card := Finset.card_filter_le _ _
    _ = fs.clusters := by simp

/-- A pass of tag_free: no orphan that is linked to by none is left. -/
theorem tagFree_tags {rest : List Nat} {s : Fat} {chains : List (List Nat)} (laid : Laid o fs dev)
    (range : fs.clusters + 2 ≤ fatMinBad o fs)
    (ranged : InRange o fs orig) (inside : ∀ i ∈ rest, 2 ≤ i ∧ i < fs.clusters + 2)
    (good : Good o fs dev base s) (chained : Chained o fs ptr orig s.table chains) :
    ∃ t more, tagFree o fs ptr rest s = .ok t ∧ Good o fs dev base t ∧
      Chained o fs ptr orig t.table (chains ++ more) ∧
      (∀ i, Orphan o fs t.table i → Orphan o fs s.table i ∧ (t.table i).value = (s.table i).value ∧
        (t.table i).prev = (s.table i).prev) ∧
      ∀ i ∈ rest, Orphan o fs t.table i → (t.table i).prev ≠ 0 := by
  induction rest generalizing s chains with
  | nil => exact ⟨s, [], rfl, good, by simpa using chained, fun i orphan => ⟨orphan, rfl, rfl⟩, by simp⟩
  | cons h rest ih =>
    have later : ∀ j ∈ rest, 2 ≤ j ∧ j < fs.clusters + 2 := fun j mem => inside j (by simp [mem])
    by_cases first : (unused o fs s h && decide ((s.table h).prev = 0)) = true
    · have ⟨used, head⟩ : unused o fs s h = true ∧ (s.table h).prev = 0 := by simpa using first
      have orphan := (orphan_iff (inside h (by simp))).mpr used
      have start := (chained_orphan range chained orphan).1
      have fewer := tag_card ptr orphan
      have all : (orphans o fs s.table).card ≤ fs.clusters := card_orphans_le
      obtain ⟨u, tail, walks, next, walked⟩ := tagWalk_walks laid range ranged (tag_good good)
        (tag_tagging chained.tagging start) start (by rw [tag_owner, if_pos rfl])
        (show (orphans o fs (tag s ptr h).table).card < fs.clusters by omega)
      obtain ⟨t, more, tags, final, whole, kept, none⟩ :=
        ih later next (chained_walk range chained orphan head walked)
      have walk := walk_of_walked orphan walked
      refine ⟨t, (h :: tail) :: more, ?_, final, by simpa using whole, ?_, ?_⟩
      · rw [tagFree, if_pos first, tagWalk_tags range orphan, walks]
        exact tags
      · intro i alive
        obtain ⟨before, value, prev⟩ := kept i alive
        obtain ⟨left, out⟩ := (walk_left walk).mp before
        exact ⟨left, value.trans (walk.beside i out), prev.trans (walk.prev i)⟩
      · intro i mem alive
        cases List.mem_cons.mp mem with
        | inl here =>
          -- the head itself has been tagged
          exact absurd (by simp [here]) ((walk_left walk).mp (kept i alive).1).2
        | inr inner => exact none i inner alive
    · obtain ⟨t, more, tags, final, whole, kept, none⟩ := ih later good chained
      refine ⟨t, more, ?_, final, whole, kept, ?_⟩
      · rw [tagFree, if_neg first]
        exact tags
      · intro i mem alive zero
        cases List.mem_cons.mp mem with
        | inl here =>
          subst here
          obtain ⟨before, _, prev⟩ := kept i alive
          apply first
          rw [Bool.and_eq_true, decide_eq_true_eq]
          exact ⟨(orphan_iff before.1).mp before, prev ▸ zero⟩
        | inr inner => exact none i inner alive zero

theorem mapped_of_hit {U : Finset Nat} {f : Nat → Nat} (hit : ∀ j ∈ U, ∃ i ∈ U, f i = j) :
    ∀ i ∈ U, f i ∈ U := by
  have covered : U ⊆ (U.filter fun i => f i ∈ U).image f := by
    intro j mem
    obtain ⟨i, inside, same⟩ := hit j mem
    exact Finset.mem_image.mpr ⟨i, Finset.mem_filter.mpr ⟨inside, same ▸ mem⟩, same⟩
  have many : U.card ≤ (U.filter fun i => f i ∈ U).card :=
    (Finset.card_le_card covered).trans Finset.card_image_le
  have all := Finset.eq_of_subset_of_card_le (Finset.filter_subset (fun i => f i ∈ U) U) many
  intro i mem
  rw [← all] at mem
  exact (Finset.mem_filter.mp mem).2

def linking (o : Options) (fs : DosFs) (table : Nat → Entry) : Finset Nat :=
  (orphans o fs table).filter fun i => (table i).value < fs.clusters + 2

/-- When every orphan left is linked to, all of them are in circles. -/
theorem orphan_links {chains : List (List Nat)} (chained : Chained o fs ptr orig table chains)
    (linked : ∀ i, Orphan o fs table i → (table i).prev ≠ 0) {i : Nat} (orphan : Orphan o fs table i) :
    Orphan o fs table (table i).value := by
  rw [← mem_orphans] at orphan ⊢
  apply mapped_of_hit (f := fun i => (table i).value) _ i orphan
  intro j mem
  rw [mem_orphans] at mem
  have positive := linked j mem
  rw [chained.count j mem] at positive
  obtain ⟨k, found⟩ := Finset.card_pos.mp (show 0 < (linkers o fs table [] j).card by omega)
  obtain ⟨_, inner, link⟩ := mem_linkers.mp found
  exact ⟨k, mem_orphans.mpr inner, link⟩

/-- The table after the link of i has been made an end. -/
structure Broken (o : Options) (fs : DosFs) (old table : Nat → Entry) (i : Nat) : Prop where
  value : ∀ j, (table j).value = if j = i then fatEof o fs else (old j).value
  owner : ∀ j, (table j).owner = (old j).owner
  prev : ∀ j, (table j).prev = (old j).prev + if j = (old i).value then -1 else 0

theorem table_broken (o : Options) (fs : DosFs) (s : Fat) (i : Nat) :
    Broken o fs s.table (setValue (addPrev s (s.table i).value (-1)).table i (fatEof o fs)) i := by
  have field : ∀ {β : Type} (f : Entry → β), (∀ e : Entry, ∀ n, f { e with prev := n } = f e) →
      ∀ k, f ((addPrev s (s.table i).value (-1)).table k) = f (s.table k) := by
    intro β f same k
    rw [addPrev, update_field f]
    split
    · rename_i here
      rw [same, here]
    · rfl
  constructor
  · intro j
    rw [setValue_value, field Entry.value fun _ _ => rfl]
  · intro j
    rw [setValue, update_field Entry.owner]
    split
    · rename_i here
      rw [here]
      exact field Entry.owner (fun _ _ => rfl) i
    · exact field Entry.owner (fun _ _ => rfl) j
  · intro j
    have prev : ((addPrev s (s.table i).value (-1)).table j).prev =
        (s.table j).prev + if j = (s.table i).value then -1 else 0 := by
      rw [addPrev, update_field Entry.prev]
      split
      · rename_i here
        rw [here]
      · rw [Int.add_zero]
    rw [setValue, update_field Entry.prev]
    split
    · rename_i here
      cases here
      exact prev
    · exact prev

theorem broken_orphan {old : Nat → Entry} {i j : Nat} (range : fs.clusters + 2 ≤ fatMinBad o fs)
    (broken : Broken o fs old table i) (orphan : Orphan o fs old i) : Orphan o fs table j ↔ Orphan o fs old j := by
  obtain ⟨_, sound, used, _⟩ := eof_facts range
  unfold Orphan
  rw [broken.owner, broken.value]
  by_cases here : j = i
  · rw [if_pos here, here]
    exact ⟨fun _ => orphan, fun _ => ⟨orphan.1, orphan.2.1, used, sound⟩⟩
  · rw [if_neg here]

theorem broken_tagging {old : Nat → Entry} {i : Nat} (range : fs.clusters + 2 ≤ fatMinBad o fs)
    (broken : Broken o fs old table i) (tagging : Tagging o fs ptr orig old) (orphan : Orphan o fs orig i) :
    Tagging o fs ptr orig table := by
  have above := (eof_facts range).2.2.2
  constructor
  · intro j
    rw [broken.value]
    by_cases here : j = i
    · rw [if_pos here, here]
      exact Or.inr ⟨orphan, rfl⟩
    · rw [if_neg here]
      exact tagging.cut j
  · intro j
    rw [broken.owner]
    exact tagging.owner j
  · intro j other link
    rw [broken.value] at link ⊢
    by_cases here : j = i
    · rw [if_pos here] at link
      omega
    · rw [if_neg here] at link ⊢
      exact tagging.target j other link

/-- The link from i is the only one that is gone. -/
theorem broken_linkers {old : Nat → Entry} {i j : Nat} (range : fs.clusters + 2 ≤ fatMinBad o fs)
    (broken : Broken o fs old table i) (orphan : Orphan o fs old i) (small : j < fs.clusters + 2) :
    linkers o fs table [] j = (linkers o fs old [] j).erase i := by
  have above := (eof_facts range).2.2.2
  ext k
  rw [Finset.mem_erase, mem_linkers, mem_linkers, broken_orphan range broken orphan, broken.value]
  by_cases itself : k = i
  · rw [if_pos itself]
    simp only [itself, ne_eq, not_true_eq_false, false_and, iff_false]
    rintro ⟨_, _, link⟩
    omega
  · simp [itself]

theorem broken_count {old : Nat → Entry} {i j : Nat} (range : fs.clusters + 2 ≤ fatMinBad o fs)
    (broken : Broken o fs old table i) (orphan : Orphan o fs old i) (small : j < fs.clusters + 2)
    (count : (old j).prev = (linkers o fs old [] j).card) : (table j).prev = (linkers o fs table [] j).card := by
  rw [broken.prev, count, broken_linkers range broken orphan small]
  by_cases here : j = (old i).value
  · have counted := Finset.card_erase_add_one (mem_linkers.mpr ⟨List.not_mem_nil, orphan, here.symm⟩)
    rw [if_pos here]
    omega
  · have other : i ∉ linkers o fs old [] j := fun mem => here (mem_linkers.mp mem).2.2.symm
    rw [if_neg here, Finset.erase_eq_of_notMem other, Int.add_zero]

theorem broken_linking {old : Nat → Entry} {i : Nat} (range : fs.clusters + 2 ≤ fatMinBad o fs)
    (broken : Broken o fs old table i) (orphan : Orphan o fs old i) (link : (old i).value < fs.clusters + 2) :
    (linking o fs table).card < (linking o fs old).card := by
  have above := (eof_facts range).2.2.2
  apply Finset.card_lt_card
  refine ⟨?_, ?_⟩
  · intro j mem
    rw [linking, Finset.mem_filter, mem_orphans, broken_orphan range broken orphan, broken.value] at mem
    rw [linking, Finset.mem_filter, mem_orphans]
    by_cases here : j = i
    · rw [if_pos here] at mem
      omega
    · rwa [if_neg here] at mem
  · intro back
    have mem := back (Finset.mem_filter.mpr ⟨mem_orphans.mpr orphan, link⟩)
    rw [linking, Finset.mem_filter, broken.value, if_pos rfl] at mem
    omega

theorem chained_break {old : Nat → Entry} {i : Nat} {chains : List (List Nat)}
    (range : fs.clusters + 2 ≤ fatMinBad o fs) (chained : Chained o fs ptr orig old chains)
    (broken : Broken o fs old table i) (orphan : Orphan o fs old i) (target : Orphan o fs old (old i).value) :
    Chained o fs ptr orig table chains := by
  have first := chained_orphan range chained orphan
  have aim := chained_orphan range chained target
  refine ⟨broken_tagging range broken chained.tagging first.1, chained.nodup, ?_, ?_, ?_, ?_⟩
  · intro j
    rw [broken.owner]
    exact chained.member j
  · intro c mem
    apply linked_congr _ (chained.linked c mem)
    intro j inside
    rw [broken.value, if_neg]
    rintro rfl
    exact first.2 (List.mem_flatten.mpr ⟨c, mem, inside⟩)
  · intro c mem j inside
    have other : j ≠ (old i).value := by
      rintro rfl
      exact aim.2 (List.mem_flatten.mpr ⟨c, mem, inside⟩)
    rw [broken.prev, if_neg other, Int.add_zero]
    exact chained.heads c mem j inside
  · intro j left
    have before := (broken_orphan range broken orphan).mp left
    exact broken_count range broken orphan before.1.2 (chained.count j before)

theorem mem_allClusters {i : Nat} : i ∈ allClusters fs ↔ 2 ≤ i ∧ i < fs.clusters + 2 := by
  rw [allClusters, List.mem_range'_1, Nat.add_comm 2]

/-- The loop ends: a circle broken is a link less among the orphans. -/
theorem reclaimLoop_ends {fuel : Nat} {s : Fat} {chains : List (List Nat)} (laid : Laid o fs dev)
    (range : fs.clusters + 2 ≤ fatMinBad o fs)
    (ranged : InRange o fs orig) (good : Good o fs dev base s)
    (chained : Chained o fs ptr orig s.table chains)
    (enough : (linking o fs s.table).card < fuel) :
    ∃ t all, reclaimLoop o fs ptr fuel s = .ok t ∧ Good o fs dev base t ∧
      Chained o fs ptr orig t.table all ∧ ∀ i, ¬ Orphan o fs t.table i := by
  induction fuel generalizing s chains with
  | zero => exact absurd enough (Nat.not_lt_zero _)
  | succ fuel ih =>
    obtain ⟨u, more, tags, next, whole, kept, counted⟩ := tagFree_tags laid range ranged
      (fun i mem => mem_allClusters.mp mem) good chained
    have linked : ∀ i, Orphan o fs u.table i → (u.table i).prev ≠ 0 :=
      fun i orphan => counted i (mem_allClusters.mpr orphan.1) orphan
    have fewer : (linking o fs u.table).card ≤ (linking o fs s.table).card := by
      apply Finset.card_le_card
      intro i mem
      rw [linking, Finset.mem_filter, mem_orphans] at mem ⊢
      obtain ⟨orphan, value, _⟩ := kept i mem.1
      exact ⟨orphan, value ▸ mem.2⟩
    cases found : (allClusters fs).find? (unused o fs u) with
    | none =>
      refine ⟨u, chains ++ more, ?_, next, whole, ?_⟩
      · simp [reclaimLoop, tags, breakCycle, found, bind, Except.bind, pure, Except.pure]
      · intro i orphan
        have used := (orphan_iff orphan.1).mp orphan
        exact absurd used (List.find?_eq_none.mp found i (mem_allClusters.mpr orphan.1))
    | some i =>
      have used := List.find?_some found
      have place := mem_allClusters.mp (List.mem_of_find?_eq_some found)
      have orphan := (orphan_iff place).mpr used
      have target := orphan_links whole linked orphan
      have broken := table_broken o fs u i
      have less := broken_linking range broken orphan target.1.2
      have again := chained_break range whole broken orphan target
      have good' : Good o fs dev base (addPrev u (u.table i).value (-1)) := by
        apply good_congr next
        intro j
        rw [update_field Entry.value, update_field Entry.reserved]
        split <;> simp_all
      obtain ⟨v, sets, table, last⟩ := good_set laid good' place
      rw [← table] at again less
      obtain ⟨t, all, loops, rest⟩ := ih last again (by omega)
      refine ⟨t, all, ?_, rest⟩
      have positive := linked (u.table i).value target
      simp [reclaimLoop, tags, breakCycle, found, positive, sets, taken, Except.mapError, bind,
        Except.bind, pure, Except.pure, loops]

end Tag

section Files
variable {o : Options} {fs : DosFs} {dev : Device} {base : List Byte} {orig table : Nat → Entry}
  {ptr : Nat}

theorem counted_start (s : Fat) : Counted o fs s.table (clearPrev fs s).table (allClusters fs) := by
  have field : ∀ {β : Type} (f : Entry → β), (∀ e : Entry, ∀ n, f { e with prev := n } = f e) →
      ∀ i, f ((clearPrev fs s).table i) = f (s.table i) := by
    intro β f same i
    simp only [clearPrev]
    split
    · rw [same]
    · rfl
  refine ⟨field Entry.owner fun _ _ => rfl, fun i => Or.inl (field Entry.value (fun _ _ => rfl) i), ?_, ?_⟩
  · intro i orphan out
    exact absurd (mem_allClusters.mpr orphan.1) out
  · intro j low high
    have empty : linkers o fs (clearPrev fs s).table (allClusters fs) j = ∅ := by
      apply Finset.eq_empty_of_forall_notMem
      intro i mem
      obtain ⟨out, orphan, _⟩ := mem_linkers.mp mem
      exact out (mem_allClusters.mpr orphan.1)
    rw [empty, Finset.card_empty]
    simp [clearPrev, low, high]

theorem chained_start (ptr : Nat) (counted : Counted o fs orig table []) : Chained o fs ptr orig table [] := by
  refine ⟨⟨counted.cut, fun i => Or.inl (counted.owner i), fun i orphan => counted.target i orphan (by simp)⟩,
    by simp, ?_, by simp, by simp, fun j orphan => counted.count j orphan.1.1 orphan.1.2⟩
  intro i
  simp only [List.flatten_nil, List.not_mem_nil, false_iff, not_and]
  intro orphan
  rw [counted.owner i, orphan.2.1]
  simp

theorem chainSize_linked {s : Fat} {a fuel : Nat} {rest : List Nat} (range : fs.clusters + 2 ≤ fatMinBad o fs)
    (linked : Linked fs s.table (a :: rest))
    (members : ∀ i ∈ a :: rest, (2 ≤ i ∧ i < fs.clusters + 2) ∧ fatIsBad o fs (s.table i).value = false)
    (enough : rest.length + 1 < fuel) :
    chainSize o fs fuel s a = .ok (rest.length + 1) := by
  induction rest generalizing a fuel with
  | nil =>
    obtain ⟨⟨low, high⟩, sound⟩ := members a (by simp)
    have ended : ¬ (a = 0 ∨ a = minusOne) := by
      have := (link_facts range high).2.2.2
      omega
    obtain ⟨fuel, rfl⟩ : ∃ n, fuel = n + 2 := ⟨fuel - 2, by simp at enough; omega⟩
    have ends : fatIsEof fs (s.table a).value = true := linked
    simp [chainSize, ended, nextCluster, sound, ends, taken, Except.mapError, bind, Except.bind, pure,
      Except.pure]
  | cons b rest ih =>
    obtain ⟨link, tail⟩ := linked
    obtain ⟨⟨low, high⟩, sound⟩ := members a (by simp)
    obtain ⟨⟨_, small⟩, _⟩ := members b (by simp)
    have ended : ¬ (a = 0 ∨ a = minusOne) := by
      have := (link_facts range high).2.2.2
      omega
    obtain ⟨fuel, rfl⟩ : ∃ n, fuel = n + 1 := ⟨fuel - 1, by omega⟩
    have live := (link_facts range small).1
    have next := ih tail (fun i mem => members i (by simp [mem])) (by simpa using enough)
    rw [link] at sound
    simp [chainSize, ended, nextCluster, link, sound, live, taken, Except.mapError, bind, Except.bind,
      pure, Except.pure, next]

theorem isHead_iff {s : Fat} {i : Nat} :
    isHead ptr s i = true ↔ (s.table i).owner = some ptr ∧ (s.table i).prev = 0 := by
  rw [isHead, Bool.and_eq_true, decide_eq_true_eq, decide_eq_true_eq, getOwner]

theorem linked_ne_nil {c : List Nat} (linked : Linked fs table c) : c ≠ [] := by
  rintro rfl
  exact linked

theorem nodup_heads {chains : List (List Nat)} (filled : ∀ c ∈ chains, c ≠ [])
    (nodup : chains.flatten.Nodup) : (chains.map fun c => c.headD 0).Nodup := by
  induction chains with
  | nil => simp
  | cons c chains ih =>
    rw [List.flatten_cons, List.nodup_append] at nodup
    obtain ⟨_, rest, apart⟩ := nodup
    rw [List.map_cons, List.nodup_cons]
    refine ⟨?_, ih (fun d mem => filled d (by simp [mem])) rest⟩
    intro mem
    obtain ⟨d, inside, same⟩ := List.mem_map.mp mem
    have first : c.headD 0 ∈ c := by
      cases c with
      | nil => exact absurd rfl (filled [] (by simp))
      | cons a c => simp
    have second : d.headD 0 ∈ d := by
      cases d with
      | nil => exact absurd rfl (filled [] (by simp [inside]))
      | cons a d => simp
    exact apart _ first _ (List.mem_flatten.mpr ⟨d, inside, second⟩) same.symm

theorem heads_perm {s : Fat} {chains : List (List Nat)}
    (chained : Chained o fs ptr orig s.table chains)
    (foreign : ∀ i, 2 ≤ i → i < fs.clusters + 2 → (orig i).owner ≠ some ptr) :
    ((allClusters fs).filter (isHead ptr s)).Perm (chains.map fun c => c.headD 0) := by
  have filled : ∀ c ∈ chains, c ≠ [] := fun c mem => linked_ne_nil (chained.linked c mem)
  have distinct : ((allClusters fs).filter (isHead ptr s)).Nodup := List.Nodup.filter _ List.nodup_range'
  apply (List.perm_ext_iff_of_nodup distinct (nodup_heads filled chained.nodup)).mpr
  intro i
  rw [List.mem_filter, mem_allClusters, isHead_iff, List.mem_map]
  constructor
  · rintro ⟨⟨low, high⟩, owner, head⟩
    have orphan : Orphan o fs orig i := by
      cases chained.tagging.owner i with
      | inl same => exact absurd (same ▸ owner) (foreign i low high)
      | inr done => exact done.1
    obtain ⟨c, mem, inside⟩ := List.mem_flatten.mp ((chained.member i).mpr ⟨orphan, owner⟩)
    have first := (chained.heads c mem i inside).mp head
    exact ⟨c, mem, by simp [List.headD_eq_head?_getD, first]⟩
  · rintro ⟨c, mem, rfl⟩
    obtain ⟨a, rest, rfl⟩ := List.exists_cons_of_ne_nil (filled c mem)
    have inside : a ∈ chains.flatten := List.mem_flatten.mpr ⟨_, mem, by simp⟩
    obtain ⟨orphan, owner⟩ := (chained.member a).mp inside
    exact ⟨orphan.1, owner, (chained.heads _ mem a (by simp)).mpr rfl⟩

theorem chain_length_le {chains : List (List Nat)} {c : List Nat}
    (chained : Chained o fs ptr orig table chains) (mem : c ∈ chains) : c.length ≤ fs.clusters := by
  have nodup : c.Nodup := (List.nodup_flatten.mp chained.nodup).1 c mem
  have within : c.toFinset ⊆ Finset.Ico 2 (fs.clusters + 2) := by
    intro i inside
    have member := (chained.member i).mp (List.mem_flatten.mpr ⟨c, mem, List.mem_toFinset.mp inside⟩)
    exact Finset.mem_Ico.mpr member.1.1
  have bound := Finset.card_le_card within
  rw [List.toFinset_card_of_nodup nodup] at bound
  simpa using bound

/-- reclaim_file comes to its last loop and dies of none of its internal errors, whatever the
    links among the clusters without an owner are, as long as none is to the cluster 1: it puts
    exactly these clusters together to chains without a cluster in common, each of which ends, the
    last loop takes the first clusters of these and walks along all clusters of each, and no
    value is changed but by turning links of such clusters into ends. Both copies of the table
    read back as it is in memory, but for the entry that a FAT12 with an odd number of clusters
    may truncate. -/
theorem reclaim_file_chains {s : Fat} (laid : Laid o fs dev)
    (range : fs.clusters + 2 ≤ fatMinBad o fs) (ready : Ready o dev s.disk)
    (mirrored : Mirrored fs s) (ranged : InRange o fs s.table)
    (foreign : ∀ i, 2 ≤ i → i < fs.clusters + 2 → (s.table i).owner ≠ some ptr) :
    ∃ (t : Fat) (chains : List (List Nat)),
      reclaimChains o fs ptr s = .ok t ∧ chains.flatten.Nodup ∧
      (∀ i, i ∈ chains.flatten ↔ Orphan o fs s.table i) ∧
      (∀ c ∈ chains, Linked fs t.table c ∧ chainSize o fs (fs.clusters + 1) t (c.headD 0) = .ok c.length) ∧
      ((allClusters fs).filter (isHead ptr t)).Perm (chains.map fun c => c.headD 0) ∧
      (∀ i, (t.table i).owner = (if Orphan o fs s.table i then some ptr else (s.table i).owner) ∧
        ((t.table i).value = (s.table i).value ∨
          (Orphan o fs s.table i ∧ (t.table i).value = fatEof o fs))) ∧
      (∃ lost, ReadsAs fs t lost ∧ (lost → fs.fatBits = .fat12 ∧ fs.clusters % 2 = 1)) ∧
      Untouched fs s.disk.view t.disk.view := by
  have shows := bothShow_of_mirrored laid ready mirrored
  have good : Good o fs dev s.disk.view (clearPrev fs s) := by
    apply good_congr ⟨ready, ⟨false, shows⟩, fun _ _ => rfl⟩
    intro i
    split <;> exact ⟨rfl, rfl⟩
  obtain ⟨u, counts, next, counted⟩ := countLinks_counts laid range ranged
    (fun i mem => mem_allClusters.mp mem) List.nodup_range' good (counted_start s)
  have few : (linking o fs u.table).card < fs.clusters + 1 :=
    Nat.lt_succ_of_le ((Finset.card_filter_le _ _).trans card_orphans_le)
  obtain ⟨t, chains, loops, final, chained, none⟩ :=
    reclaimLoop_ends laid range ranged next (chained_start ptr counted) few
  -- every orphan of the start has been tagged
  have owner : ∀ i, (t.table i).owner =
      if Orphan o fs s.table i then some ptr else (s.table i).owner := by
    intro i
    split
    · rename_i orphan
      cases chained.tagging.owner i with
      | inl same =>
        have used := (cut_used range chained.tagging.cut).mpr orphan.2.2
        exact absurd ⟨orphan.1, same.trans orphan.2.1, used⟩ (none i)
      | inr done => exact done.2
    · rename_i other
      cases chained.tagging.owner i with
      | inl same => exact same
      | inr done => exact absurd done.1 other
  have member : ∀ i, i ∈ chains.flatten ↔ Orphan o fs s.table i := by
    intro i
    rw [chained.member, owner]
    constructor
    · exact fun both => both.1
    · intro orphan
      exact ⟨orphan, if_pos orphan⟩
  have size : ∀ c ∈ chains, chainSize o fs (fs.clusters + 1) t (c.headD 0) = .ok c.length := by
    intro c mem
    obtain ⟨a, rest, rfl⟩ := List.exists_cons_of_ne_nil (linked_ne_nil (chained.linked c mem))
    have short := chain_length_le chained mem
    apply chainSize_linked range (chained.linked _ mem)
    · intro i inside
      have orphan := (member i).mp (List.mem_flatten.mpr ⟨_, mem, inside⟩)
      exact ⟨orphan.1, ((cut_used range chained.tagging.cut).mpr orphan.2.2).2⟩
    · simp at short
      omega
  obtain ⟨lost, both⟩ := final.shows
  refine ⟨t, chains, ?_, chained.nodup, member, fun c mem => ⟨chained.linked c mem, size c mem⟩,
    heads_perm chained foreign, fun i => ⟨owner i, chained.tagging.cut i⟩,
    ⟨lost, readsAs_of_shows laid final.ready both, both.1.slipped⟩, final.untouched⟩
  simp [reclaimChains, counts, loops, taken, Except.mapError, bind, Except.bind]

/-- A FAT12 of six clusters: 2 and 3 form a circle, 4 and 6 both link to 5, and 7 is a file. -/
def sixClusters : DosFs :=
  { nfats := 2, fatStart := 0, fatSize := 12, fatBits := .fat12, dataStart := 24, clusterSize := 1,
    clusters := 6 }

def sixBytes : List Byte := [0xf8, 0xff, 0xff, 0x03, 0x20, 0x00, 0x05, 0x80, 0xff, 0x05, 0x80, 0xff]

def sixDevice : Device := { content := sixBytes ++ sixBytes, unreadable := [], regular := true }

def sixFat : Fat :=
  { table := fun i =>
      { value := if i = 2 then 3 else if i = 3 then 2 else if i = 4 ∨ i = 6 then 5 else 0xff8
        reserved := 0, owner := if i = 7 then some 1 else none, prev := 0 }
    disk := fsOpen sixDevice }

example : (reclaimChains automatic sixClusters 9 sixFat).toOption.map
    (fun t => (allClusters sixClusters).filter (isHead 9 t)) = some [3, 4, 6] := by
  decide +kernel

theorem six_clusters_chained : ∃ (t : Fat) (chains : List (List Nat)),
    reclaimChains automatic sixClusters 9 sixFat = .ok t ∧ chains.flatten.Nodup ∧
      (∀ c ∈ chains, Linked sixClusters t.table c ∧
        chainSize automatic sixClusters 7 t (c.headD 0) = .ok c.length) ∧
      ((allClusters sixClusters).filter (isHead 9 t)).Perm (chains.map fun c => c.headD 0) := by
  have laid : Laid automatic sixClusters sixDevice := by
    constructor <;> decide
  have ready : Ready automatic sixDevice sixFat.disk := by
    constructor <;> simp [sixFat, fsOpen, Disk.Inside]
  have six : ∀ i, 2 ≤ i → i < sixClusters.clusters + 2 →
      i = 2 ∨ i = 3 ∨ i = 4 ∨ i = 5 ∨ i = 6 ∨ i = 7 := by
    intro i low high
    simp only [sixClusters] at high
    omega
  have holds : ∀ i, 2 ≤ i → i < sixClusters.clusters + 2 →
      (getFat (sixFat.table i) sixBytes i sixClusters).value = (sixFat.table i).value ∧
      (getFat (sixFat.table i) sixBytes i sixClusters).reserved = (sixFat.table i).reserved := by
    intro i low high
    rcases six i low high with rfl | rfl | rfl | rfl | rfl | rfl <;> decide
  have mirrored : Mirrored sixClusters sixFat :=
    ⟨⟨sixBytes, by decide, holds⟩, ⟨sixBytes, by decide, holds⟩⟩
  have ranged : InRange automatic sixClusters sixFat.table := by
    intro i orphan
    rcases six i orphan.1.1 orphan.1.2 with rfl | rfl | rfl | rfl | rfl | rfl <;> decide
  have foreign : ∀ i, 2 ≤ i → i < sixClusters.clusters + 2 → (sixFat.table i).owner ≠ some 9 := by
    intro i low high
    rcases six i low high with rfl | rfl | rfl | rfl | rfl | rfl <;> decide
  obtain ⟨t, chains, done, nodup, _, linked, perm, _⟩ :=
    reclaim_file_chains laid (by decide) ready mirrored ranged foreign
  exact ⟨t, chains, done, nodup, linked, perm⟩

end Files
end TestSource.Dosfsck
