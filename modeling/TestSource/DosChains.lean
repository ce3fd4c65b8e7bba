import Mathlib.Data.Finset.Card
import Mathlib.Order.Interval.Finset.Nat
import TestSource.DosRepair

/- reclaim_file of fat.c up to its last loop: the clusters in use that belong to no file are put
   together to chains. Chains that run into each other, into a file or in a circle are cut by an
   end mark. Of the last loop, which gives each chain an entry of the root directory, the test of
   a first cluster and the walk from it are here; the entries, for which a full root directory on
   FAT32 gets another cluster, are not. -/
namespace TestSource.Dosfsck

/-- A result of the program, or none where the steps allowed to a loop are used up. -/
abbrev Run (α : Type) := Except (Option Died) α

def taken {α : Type} (r : Except Died α) : Run α := r.mapError some

def addPrev (s : Fat) (i : Nat) (n : Int) : Fat :=
  { s with table := Function.update s.table i { s.table i with prev := (s.table i).prev + n } }

section Model
variable (o : Options) (fs : DosFs)

def clearPrev (s : Fat) : Fat :=
  { s with
    table := fun i => if 2 ≤ i ∧ i < fs.clusters + 2 then { s.table i with prev := 0 } else s.table i }

/-- The loop of reclaim_file that cuts the links out of the free chains and counts the others. -/
def countLinks : List Nat → Fat → Except Died Fat
  | [], s => .ok s
  | i :: rest, s =>
      let next := (s.table i).value
      if (getOwner s i).isNone && next ≠ 0 && next < fs.clusters + 2 then
        if (getOwner s next).isSome || (s.table next).value = 0 || fatIsBad o fs (s.table next).value then do
          let s ← setFat o fs s i minusOne
          countLinks rest s
        else countLinks rest (addPrev s next 1)
      else countLinks rest s

def tagWalk (ptr : Nat) : Nat → Fat → Nat → Nat → Run Fat
  | 0, _, _, _ => .error none
  | fuel + 1, s, prev, walk =>
      if walk = 0 ∨ walk = minusOne then .ok s
      else match getOwner s walk with
        | none => do
            let s ← taken (setOwner s walk (some ptr))
            let next ← taken (nextCluster o fs s walk)
            tagWalk ptr fuel s walk next
        | some owner =>
            if owner ≠ ptr then .error (some .chainCollides)
            else taken (setFat o fs s prev minusOne)

def tagFree (ptr : Nat) : List Nat → Fat → Run Fat
  | [], s => .ok s
  | i :: rest, s =>
      if unused o fs s i && (s.table i).prev = 0 then do
        let s ← tagWalk o fs ptr (fs.clusters + 1) s 0 i
        tagFree ptr rest s
      else tagFree ptr rest s

/-- The second half of the do loop: the first cluster left over is made an end. -/
def breakCycle (s : Fat) : Run (Fat × Bool) :=
  match (allClusters fs).find? (unused o fs s) with
  | none => .ok (s, false)
  | some i => do
      let next := (s.table i).value
      if (s.table next).prev = 0 then .error (some .prevBelowZero)
      else
        let s ← taken (setFat o fs (addPrev s next (-1)) i minusOne)
        pure (s, true)

def reclaimLoop (ptr : Nat) : Nat → Fat → Run Fat
  | 0, _ => .error none
  | fuel + 1, s => do
      let s ← tagFree o fs ptr (allClusters fs) s
      let (s, changed) ← breakCycle o fs s
      if changed then reclaimLoop ptr fuel s else pure s

def isHead (ptr : Nat) (s : Fat) (i : Nat) : Bool := getOwner s i = some ptr && (s.table i).prev = 0

def chainSize : Nat → Fat → Nat → Run Nat
  | 0, _, _ => .error none
  | fuel + 1, s, walk =>
      if walk = 0 ∨ walk = minusOne then .ok 0
      else do
        let next ← taken (nextCluster o fs s walk)
        let n ← chainSize fuel s next
        pure (n + 1)

/-- reclaim_file up to its last loop. ptr stands for &dummy. -/
def reclaimChains (ptr : Nat) (s : Fat) : Run Fat := do
  let s ← taken (countLinks o fs (allClusters fs) (clearPrev fs s))
  reclaimLoop o fs ptr (fs.clusters + 1) s

end Model

section Values
variable {o : Options} {fs : DosFs} {dev : Device}

/-- A cluster in use that belongs to no file. -/
def Orphan (o : Options) (fs : DosFs) (table : Nat → Entry) (i : Nat) : Prop :=
  (2 ≤ i ∧ i < fs.clusters + 2) ∧ (table i).owner = none ∧ (table i).value ≠ 0 ∧
    fatIsBad o fs (table i).value = false

instance (o : Options) (fs : DosFs) (table : Nat → Entry) (i : Nat) :
    Decidable (Orphan o fs table i) := by
  unfold Orphan
  infer_instance

/-- What read_fat leaves of the orphans, none of which links to the cluster 1: that one has
    no entry of its own. -/
def InRange (o : Options) (fs : DosFs) (table : Nat → Entry) : Prop :=
  ∀ i, Orphan o fs table i → (table i).value ≠ 1 ∧
    ((table i).value < fs.clusters + 2 ∨ fatMinBad o fs ≤ (table i).value)

theorem orphan_iff {s : Fat} {i : Nat} (inside : 2 ≤ i ∧ i < fs.clusters + 2) :
    Orphan o fs s.table i ↔ unused o fs s i = true := by
  simp [Orphan, unused, inside, getOwner, and_assoc]

theorem markers (o : Options) (fs : DosFs) : fatMinBad o fs ≤ fatMaxBad fs ∧ fatMaxBad fs + 1 = (0xff8 ||| fatExtd fs) ∧
    fatMaxBad fs < fatEof o fs ∧ fatEof o fs < minusOne := by
  unfold fatMinBad fatMaxBad fatEof fatExtd minusOne
  cases fs.fatBits <;> cases o.atariFormat <;> decide

theorem isEof_iff {v : Nat} : fatIsEof fs v = true ↔ fatMaxBad fs < v := by
  have next := (markers ⟨false, false, false⟩ fs).2.1
  simp only [fatIsEof, ← next, decide_eq_true_eq]
  omega

theorem isBad_iff {v : Nat} : fatIsBad o fs v = true ↔ fatMinBad o fs ≤ v ∧ v ≤ fatMaxBad fs := by
  simp [fatIsBad]

theorem eof_facts (range : fs.clusters + 2 ≤ fatMinBad o fs) :
    fatIsEof fs (fatEof o fs) = true ∧ fatIsBad o fs (fatEof o fs) = false ∧ fatEof o fs ≠ 0 ∧
      fs.clusters + 2 ≤ fatEof o fs := by
  obtain ⟨low, _, high, _⟩ := markers o fs
  refine ⟨isEof_iff.mpr high, ?_, by omega, by omega⟩
  rw [← Bool.not_eq_true, isBad_iff]
  omega

theorem link_facts (range : fs.clusters + 2 ≤ fatMinBad o fs) {v : Nat} (link : v < fs.clusters + 2) :
    fatIsEof fs v = false ∧ fatIsBad o fs v = false ∧ v ≠ fatEof o fs ∧ v ≠ minusOne := by
  obtain ⟨low, _, high, top⟩ := markers o fs
  refine ⟨?_, ?_, by omega, by omega⟩
  · rw [← Bool.not_eq_true, isEof_iff]
    omega
  · rw [← Bool.not_eq_true, isBad_iff]
    omega

end Values

section Disk
variable {o : Options} {fs : DosFs} {dev : Device} {base : List Byte}

/-- The disk under the work: both copies show the table, and nothing else has changed. -/
structure Good (o : Options) (fs : DosFs) (dev : Device) (base : List Byte) (s : Fat) : Prop where
  ready : Ready o dev s.disk
  shows : ∃ lost, BothShow fs s lost
  untouched : Untouched fs base s.disk.view

theorem good_set {s : Fat} {i : Nat} (laid : Laid o fs dev) (good : Good o fs dev base s)
    (inside : 2 ≤ i ∧ i < fs.clusters + 2) :
    ∃ t, setFat o fs s i minusOne = .ok t ∧ t.table = setValue s.table i (fatEof o fs) ∧
      Good o fs dev base t := by
  obtain ⟨lost, shows⟩ := good.shows
  obtain ⟨t, done, next, table, shown, kept⟩ :=
    setFat_shows laid good.ready shows inside.1 inside.2 (Or.inl rfl)
  exact ⟨t, done, table, next, ⟨_, shown⟩, untouched_trans good.untouched kept⟩

theorem shows_congr {table other : Nat → Entry} {l : List Byte} {start : Nat} {lost : Bool}
    (shows : Shows fs table l start lost)
    (same : ∀ i, (other i).value = (table i).value ∧ (other i).reserved = (table i).reserved) :
    Shows fs other l start lost := by
  constructor
  · exact shows.slipped
  · intro i lowest highest
    rw [shows.value i lowest highest, shownValue, shownValue, (same i).1]
  · intro kind i lowest highest
    rw [shows.reserved kind i lowest highest, (same i).2]

theorem good_congr {s : Fat} {other : Nat → Entry} (good : Good o fs dev base s)
    (same : ∀ i, (other i).value = (s.table i).value ∧ (other i).reserved = (s.table i).reserved) :
    Good o fs dev base { s with table := other } := by
  obtain ⟨lost, first, second⟩ := good.shows
  exact ⟨good.ready, ⟨lost, shows_congr first same, shows_congr second same⟩, good.untouched⟩

theorem setOwner_free {s : Fat} {i : Nat} (free : getOwner s i = none) (owner : Option Nat) :
    setOwner s i owner = .ok { s with table := Function.update s.table i { s.table i with owner } } := by
  rw [getOwner] at free
  simp [setOwner, free]

theorem update_field {β : Type} (f : Entry → β) (table : Nat → Entry) (i j : Nat) (e : Entry) :
    f (Function.update table i e j) = if j = i then f e else f (table j) := by
  by_cases here : j = i
  · subst here
    rw [Function.update_self, if_pos rfl]
  · rw [Function.update_of_ne here, if_neg here]

end Disk

section Count
variable {o : Options} {fs : DosFs} {dev : Device} {base : List Byte} {orig table : Nat → Entry}

def linkers (o : Options) (fs : DosFs) (table : Nat → Entry) (rest : List Nat) (j : Nat) : Finset Nat :=
  (Finset.Ico 2 (fs.clusters + 2)).filter fun i =>
    i ∉ rest ∧ Orphan o fs table i ∧ (table i).value = j

theorem mem_linkers {rest : List Nat} {i j : Nat} :
    i ∈ linkers o fs table rest j ↔ i ∉ rest ∧ Orphan o fs table i ∧ (table i).value = j := by
  simp only [linkers, Finset.mem_filter, Finset.mem_Ico, and_iff_right_iff_imp]
  rintro ⟨_, orphan, _⟩
  exact orphan.1

theorem linkers_skip {rest : List Nat} {i j : Nat} (other : Orphan o fs table i → (table i).value ≠ j) :
    linkers o fs table (i :: rest) j = linkers o fs table rest j := by
  ext k
  rw [mem_linkers, mem_linkers, List.mem_cons, not_or]
  constructor
  · rintro ⟨⟨_, out⟩, both⟩
    exact ⟨out, both⟩
  · rintro ⟨out, orphan, link⟩
    refine ⟨⟨?_, out⟩, orphan, link⟩
    rintro rfl
    exact other orphan link

theorem linkers_add {rest : List Nat} {i j : Nat} (fresh : i ∉ rest) (orphan : Orphan o fs table i)
    (link : (table i).value = j) :
    (linkers o fs table rest j).card = (linkers o fs table (i :: rest) j).card + 1 := by
  have out : i ∉ linkers o fs table (i :: rest) j := by
    rw [mem_linkers]
    simp
  rw [← Finset.card_insert_of_notMem out]
  congr 1
  ext k
  rw [Finset.mem_insert, mem_linkers, mem_linkers, List.mem_cons, not_or]
  by_cases here : k = i
  · subst here
    simp [fresh, orphan, link]
  · simp [here]

theorem linkers_congr {other : Nat → Entry} {rest : List Nat} {j : Nat}
    (same : ∀ i, i ∉ rest → (Orphan o fs other i ∧ (other i).value = j ↔
      Orphan o fs table i ∧ (table i).value = j)) :
    linkers o fs other rest j = linkers o fs table rest j := by
  ext i
  rw [mem_linkers, mem_linkers]
  constructor
  · rintro ⟨out, both⟩
    exact ⟨out, (same i out).mp both⟩
  · rintro ⟨out, both⟩
    exact ⟨out, (same i out).mpr both⟩

def CutFrom (o : Options) (fs : DosFs) (orig table : Nat → Entry) : Prop :=
  ∀ i, (table i).value = (orig i).value ∨
    (Orphan o fs orig i ∧ (table i).value = fatEof o fs)

theorem cutFrom_set {i : Nat} (cut : CutFrom o fs orig table) (orphan : Orphan o fs orig i) :
    CutFrom o fs orig (setValue table i (fatEof o fs)) := by
  intro j
  rw [setValue_value]
  by_cases here : j = i
  · subst here
    rw [if_pos rfl]
    exact Or.inr ⟨orphan, rfl⟩
  · rw [if_neg here]
    exact cut j

theorem inRange_cut {i : Nat} (ranged : InRange o fs orig) (cut : CutFrom o fs orig table)
    (orphan : Orphan o fs orig i) : (table i).value ≠ 1 ∧
      ((table i).value < fs.clusters + 2 ∨ fatMinBad o fs ≤ (table i).value) := by
  cases cut i with
  | inl same =>
    rw [same]
    exact ranged i orphan
  | inr done =>
    rw [done.2]
    have bound := (markers o fs).2.2.1
    have first := (markers o fs).1
    have above : 0xff0 ≤ fatMinBad o fs := by
      unfold fatMinBad fatExtd
      cases fs.fatBits <;> cases o.atariFormat <;> decide
    omega

theorem cut_used {i : Nat} (range : fs.clusters + 2 ≤ fatMinBad o fs) (cut : CutFrom o fs orig table) :
    ((table i).value ≠ 0 ∧ fatIsBad o fs (table i).value = false) ↔
      ((orig i).value ≠ 0 ∧ fatIsBad o fs (orig i).value = false) := by
  cases cut i with
  | inl same => rw [same]
  | inr done =>
    obtain ⟨_, sound, used, _⟩ := eof_facts range
    rw [done.2]
    exact ⟨fun _ => done.1.2.2, fun _ => ⟨used, sound⟩⟩

structure Counted (o : Options) (fs : DosFs) (orig table : Nat → Entry) (rest : List Nat) : Prop where
  owner : ∀ i, (table i).owner = (orig i).owner
  cut : CutFrom o fs orig table
  target : ∀ i, Orphan o fs orig i → i ∉ rest → (table i).value < fs.clusters + 2 →
    Orphan o fs orig (table i).value
  count : ∀ j, 2 ≤ j → j < fs.clusters + 2 → (table j).prev = (linkers o fs table rest j).card

theorem counted_orphan {rest : List Nat} {i : Nat} (range : fs.clusters + 2 ≤ fatMinBad o fs)
    (counted : Counted o fs orig table rest) : Orphan o fs table i ↔ Orphan o fs orig i := by
  have used := cut_used (i := i) range counted.cut
  unfold Orphan
  rw [counted.owner i, used]

theorem counted_skip {i : Nat} {rest : List Nat} (range : fs.clusters + 2 ≤ fatMinBad o fs)
    (counted : Counted o fs orig table (i :: rest))
    (ends : Orphan o fs table i → fs.clusters + 2 ≤ (table i).value) :
    Counted o fs orig table rest := by
  refine ⟨counted.owner, counted.cut, ?_, ?_⟩
  · intro j orphan out link
    by_cases here : j = i
    · subst here
      have := ends ((counted_orphan range counted).mpr orphan)
      omega
    · exact counted.target j orphan (by simp [here, out]) link
  · intro j low high
    rw [counted.count j low high, linkers_skip]
    intro orphan link
    have := ends orphan
    omega

theorem counted_cut {i : Nat} {rest : List Nat} (range : fs.clusters + 2 ≤ fatMinBad o fs)
    (counted : Counted o fs orig table (i :: rest)) (orphan : Orphan o fs orig i) :
    Counted o fs orig (setValue table i (fatEof o fs)) rest := by
  obtain ⟨_, _, _, above⟩ := eof_facts range
  have owner : ∀ j, (setValue table i (fatEof o fs) j).owner = (table j).owner := by
    intro j
    rw [setValue, update_field Entry.owner]
    split
    · rename_i here
      rw [here]
    · rfl
  have prev : ∀ j, (setValue table i (fatEof o fs) j).prev = (table j).prev := by
    intro j
    rw [setValue, update_field Entry.prev]
    split
    · rename_i here
      rw [here]
    · rfl
  refine ⟨fun j => (owner j).trans (counted.owner j), cutFrom_set counted.cut orphan, ?_, ?_⟩
  · intro j other out link
    rw [setValue_value] at link ⊢
    by_cases here : j = i
    · rw [if_pos here] at link
      omega
    · rw [if_neg here] at link ⊢
      exact counted.target j other (by simp [here, out]) link
  · intro j low high
    rw [prev, counted.count j low high]
    congr 2
    ext k
    rw [mem_linkers, mem_linkers, List.mem_cons, not_or]
    unfold Orphan
    rw [owner, setValue_value]
    by_cases here : k = i
    · subst here
      rw [if_pos rfl]
      constructor
      · rintro ⟨⟨other, _⟩, _⟩
        exact absurd rfl other
      · rintro ⟨_, _, link⟩
        omega
    · rw [if_neg here]
      simp [here]

theorem counted_add {s : Fat} {i : Nat} {rest : List Nat} (fresh : i ∉ rest)
    (counted : Counted o fs orig s.table (i :: rest)) (orphan : Orphan o fs s.table i)
    (target : Orphan o fs orig (s.table i).value) :
    Counted o fs orig (addPrev s (s.table i).value 1).table rest := by
  have field : ∀ {β : Type} (f : Entry → β), (∀ e : Entry, ∀ n, f { e with prev := n } = f e) →
      ∀ j, f ((addPrev s (s.table i).value 1).table j) = f (s.table j) := by
    intro β f same j
    rw [addPrev, update_field f]
    split
    · rename_i here
      rw [same, here]
    · rfl
  have owner := field Entry.owner fun _ _ => rfl
  have value := field Entry.value fun _ _ => rfl
  refine ⟨fun j => (owner j).trans (counted.owner j), ?_, ?_, ?_⟩
  · intro j
    rw [value]
    exact counted.cut j
  · intro j other out link
    rw [value] at link ⊢
    by_cases here : j = i
    · rw [here]
      exact target
    · exact counted.target j other (by simp [here, out]) link
  · intro j low high
    have same : linkers o fs (addPrev s (s.table i).value 1).table rest j =
        linkers o fs s.table rest j := by
      apply linkers_congr
      intro k _
      unfold Orphan
      rw [owner, value]
    rw [same, addPrev, update_field Entry.prev]
    by_cases here : j = (s.table i).value
    · rw [if_pos here, ← here, linkers_add fresh orphan here.symm, counted.count j low high]
      push_cast
      rfl
    · rw [if_neg here, counted.count j low high, linkers_skip]
      intro _ link
      exact here link.symm

theorem countLinks_counts {rest : List Nat} {s : Fat} (laid : Laid o fs dev)
    (range : fs.clusters + 2 ≤ fatMinBad o fs)
    (ranged : InRange o fs orig) (inside : ∀ i ∈ rest, 2 ≤ i ∧ i < fs.clusters + 2)
    (distinct : rest.Nodup) (good : Good o fs dev base s) (counted : Counted o fs orig s.table rest) :
    ∃ t, countLinks o fs rest s = .ok t ∧ Good o fs dev base t ∧ Counted o fs orig t.table [] := by
  induction rest generalizing s with
  | nil => exact ⟨s, rfl, good, counted⟩
  | cons i rest ih =>
    obtain ⟨fresh, apart⟩ := List.nodup_cons.mp distinct
    have later : ∀ j ∈ rest, 2 ≤ j ∧ j < fs.clusters + 2 := fun j mem => inside j (by simp [mem])
    have place := inside i (by simp)
    by_cases link : ((getOwner s i).isNone && decide ((s.table i).value ≠ 0) &&
        decide ((s.table i).value < fs.clusters + 2)) = true
    · have ⟨⟨free, used⟩, high⟩ : ((getOwner s i = none) ∧ (s.table i).value ≠ 0) ∧
          (s.table i).value < fs.clusters + 2 := by
        simpa using link
      obtain ⟨_, sound, _, _⟩ := link_facts range high
      have orphan : Orphan o fs s.table i := ⟨place, free, used, sound⟩
      have first := (counted_orphan range counted).mp orphan
      have low : 2 ≤ (s.table i).value := by
        have := (inRange_cut ranged counted.cut first).1
        omega
      by_cases dead : ((getOwner s (s.table i).value).isSome ||
          decide ((s.table (s.table i).value).value = 0) ||
          fatIsBad o fs (s.table (s.table i).value).value) = true
      · obtain ⟨t, done, table, next⟩ := good_set laid good place
        obtain ⟨u, counts, final⟩ := ih later apart next (table ▸ counted_cut range counted first)
        refine ⟨u, ?_, final⟩
        rw [countLinks, if_pos link, if_pos dead, done]
        exact counts
      · have alive : Orphan o fs s.table (s.table i).value := by
          simp only [Bool.or_eq_true, decide_eq_true_eq, not_or, Bool.not_eq_true,
            Option.isSome_eq_false_iff, Option.isNone_iff_eq_none] at dead
          exact ⟨⟨low, high⟩, dead.1.1, dead.1.2, dead.2⟩
        have target := (counted_orphan range counted).mp alive
        have next : Good o fs dev base (addPrev s (s.table i).value 1) := by
          apply good_congr good
          intro j
          rw [update_field Entry.value, update_field Entry.reserved]
          split <;> simp_all
        obtain ⟨u, counts, final⟩ := ih later apart next (counted_add fresh counted orphan target)
        refine ⟨u, ?_, final⟩
        rw [countLinks, if_pos link, if_neg dead]
        exact counts
    · have ends : Orphan o fs s.table i → fs.clusters + 2 ≤ (s.table i).value := by
        intro orphan
        apply Nat.le_of_not_lt
        intro high
        apply link
        simp [getOwner, orphan.2.1, orphan.2.2.1, high]
      obtain ⟨u, counts, final⟩ := ih later apart good (counted_skip range counted ends)
      refine ⟨u, ?_, final⟩
      rw [countLinks, if_neg link]
      exact counts

end Count

section Walk
variable {o : Options} {fs : DosFs} {dev : Device} {base : List Byte} {orig table : Nat → Entry}
  {ptr : Nat}

def orphans (o : Options) (fs : DosFs) (table : Nat → Entry) : Finset Nat :=
  (Finset.Ico 2 (fs.clusters + 2)).filter (Orphan o fs table)

theorem mem_orphans {i : Nat} : i ∈ orphans o fs table ↔ Orphan o fs table i := by
  simp only [orphans, Finset.mem_filter, Finset.mem_Ico, and_iff_right_iff_imp]
  exact fun orphan => orphan.1

/-- A chain: each cluster links to the next and the last is an end. -/
def Linked (fs : DosFs) (table : Nat → Entry) : List Nat → Prop
  | [] => False
  | [a] => fatIsEof fs (table a).value = true
  | a :: b :: rest => (table a).value = b ∧ Linked fs table (b :: rest)

structure Tagging (o : Options) (fs : DosFs) (ptr : Nat) (orig table : Nat → Entry) : Prop where
  cut : CutFrom o fs orig table
  owner : ∀ i, (table i).owner = (orig i).owner ∨
    (Orphan o fs orig i ∧ (table i).owner = some ptr)
  target : ∀ i, Orphan o fs orig i → (table i).value < fs.clusters + 2 →
    Orphan o fs orig (table i).value

def tag (s : Fat) (ptr i : Nat) : Fat :=
  { s with table := Function.update s.table i { s.table i with owner := some ptr } }

theorem tag_owner (s : Fat) (ptr i j : Nat) :
    ((tag s ptr i).table j).owner = if j = i then some ptr else (s.table j).owner :=
  update_field Entry.owner s.table i j _

theorem tag_value (s : Fat) (ptr i j : Nat) : ((tag s ptr i).table j).value = (s.table j).value := by
  rw [tag, update_field Entry.value]
  split
  · rename_i here
    rw [here]
  · rfl

theorem tag_prev (s : Fat) (ptr i j : Nat) : ((tag s ptr i).table j).prev = (s.table j).prev := by
  rw [tag, update_field Entry.prev]
  split
  · rename_i here
    rw [here]
  · rfl

theorem tag_good {s : Fat} {i : Nat} (good : Good o fs dev base s) :
    Good o fs dev base (tag s ptr i) := by
  apply good_congr good
  intro j
  rw [update_field Entry.value, update_field Entry.reserved]
  split <;> simp_all

theorem tag_tagging {s : Fat} {i : Nat} (tagging : Tagging o fs ptr orig s.table)
    (orphan : Orphan o fs orig i) : Tagging o fs ptr orig (tag s ptr i).table := by
  refine ⟨?_, ?_, ?_⟩
  · intro j
    rw [tag_value]
    exact tagging.cut j
  · intro j
    rw [tag_owner]
    by_cases here : j = i
    · subst here
      rw [if_pos rfl]
      exact Or.inr ⟨orphan, rfl⟩
    · rw [if_neg here]
      exact tagging.owner j
  · intro j other link
    rw [tag_value] at link ⊢
    exact tagging.target j other link

theorem tag_orphan {s : Fat} {i j : Nat} :
    Orphan o fs (tag s ptr i).table j ↔ Orphan o fs s.table j ∧ j ≠ i := by
  unfold Orphan
  rw [tag_owner, tag_value]
  by_cases here : j = i
  · simp [here]
  · simp [here]

theorem tag_card (ptr : Nat) {s : Fat} {i : Nat} (orphan : Orphan o fs s.table i) :
    (orphans o fs (tag s ptr i).table).card + 1 = (orphans o fs s.table).card := by
  have erased : orphans o fs (tag s ptr i).table = (orphans o fs s.table).erase i := by
    ext j
    rw [mem_orphans, tag_orphan, Finset.mem_erase, mem_orphans, and_comm]
  rw [erased, Finset.card_erase_add_one (mem_orphans.mpr orphan)]

/-- An orphan of the start is in use, and links to a cluster or is an end, all the time. -/
theorem tagging_value {i : Nat} (range : fs.clusters + 2 ≤ fatMinBad o fs) (ranged : InRange o fs orig)
    (tagging : Tagging o fs ptr orig table) (orphan : Orphan o fs orig i) :
    ((table i).value ≠ 0 ∧ fatIsBad o fs (table i).value = false) ∧
      (((2 ≤ (table i).value ∧ (table i).value < fs.clusters + 2) ∧
          fatIsEof fs (table i).value = false ∧ Orphan o fs orig (table i).value) ∨
        fatIsEof fs (table i).value = true) := by
  have used := (cut_used range tagging.cut).mpr orphan.2.2
  refine ⟨used, ?_⟩
  have place := inRange_cut ranged tagging.cut orphan
  have sound := used.2
  rw [← Bool.not_eq_true, isBad_iff] at sound
  by_cases link : (table i).value < fs.clusters + 2
  · left
    exact ⟨⟨by omega, link⟩, (link_facts range link).1, tagging.target i orphan link⟩
  · right
    rw [isEof_iff]
    omega

def nextOf (fs : DosFs) (s : Fat) (i : Nat) : Nat :=
  if fatIsEof fs (s.table i).value then minusOne else (s.table i).value

theorem tagWalk_tags {fuel prev i : Nat} {s : Fat} (range : fs.clusters + 2 ≤ fatMinBad o fs)
    (orphan : Orphan o fs s.table i) :
    tagWalk o fs ptr (fuel + 1) s prev i =
      tagWalk o fs ptr fuel (tag s ptr i) i (nextOf fs (tag s ptr i) i) := by
  obtain ⟨⟨low, high⟩, free, _, sound⟩ := orphan
  have other := (link_facts range high).2.2.2
  have ended : ¬ (i = 0 ∨ i = minusOne) := by omega
  have next : nextCluster o fs (tag s ptr i) i = .ok (nextOf fs (tag s ptr i) i) := by
    have same := tag_value s ptr i i
    simp [nextCluster, nextOf, same, sound]
  have owner : setOwner s i (some ptr) = .ok (tag s ptr i) := setOwner_free free _
  have free' : getOwner s i = none := free
  simp [tagWalk, ended, free', owner, next, taken, Except.mapError, bind, Except.bind]

/-- A walk on from the tagged cluster p: the clusters of `tail` are tagged and the chain ends. -/
structure Walked (o : Options) (fs : DosFs) (ptr : Nat) (s t : Fat) (p : Nat) (tail : List Nat) : Prop where
  nodup : (p :: tail).Nodup
  fresh : ∀ i ∈ tail, Orphan o fs s.table i
  linked : Linked fs t.table (p :: tail)
  owner : ∀ i, (t.table i).owner = if i ∈ tail then some ptr else (s.table i).owner
  prev : ∀ i, (t.table i).prev = (s.table i).prev
  beside : ∀ i, i ∉ p :: tail → (t.table i).value = (s.table i).value
  along : ∀ i ∈ p :: tail, (t.table i).value = (s.table i).value ∨ (t.table i).value = fatEof o fs
  closed : ∀ i ∈ p :: tail, (s.table i).value < fs.clusters + 2 →
    (t.table (s.table i).value).owner = some ptr

theorem walked_end {s : Fat} {p : Nat} (range : fs.clusters + 2 ≤ fatMinBad o fs)
    (ends : fatIsEof fs (s.table p).value = true) : Walked o fs ptr s s p [] := by
  constructor
  · simp
  · simp
  · exact ends
  · simp
  · simp
  · simp
  · simp
  · intro i mem link
    rw [List.mem_singleton.mp mem] at link
    rw [(link_facts range link).1] at ends
    cases ends

theorem walked_cut {s t : Fat} {p : Nat} (range : fs.clusters + 2 ≤ fatMinBad o fs)
    (table : t.table = setValue s.table p (fatEof o fs))
    (met : (s.table (s.table p).value).owner = some ptr) : Walked o fs ptr s t p [] := by
  have value : ∀ i, (t.table i).value = if i = p then fatEof o fs else (s.table i).value := by
    intro i
    rw [table, setValue_value]
  have owner : ∀ i, (t.table i).owner = (s.table i).owner := by
    intro i
    rw [table, setValue, update_field Entry.owner]
    split
    · rename_i here
      rw [here]
    · rfl
  have prev : ∀ i, (t.table i).prev = (s.table i).prev := by
    intro i
    rw [table, setValue, update_field Entry.prev]
    split
    · rename_i here
      rw [here]
    · rfl
  constructor
  · simp
  · simp
  · rw [Linked, value, if_pos rfl]
    exact (eof_facts range).1
  · simpa using owner
  · exact prev
  · intro i out
    rw [value, if_neg (by simpa using out)]
  · intro i mem
    rw [value, if_pos (List.mem_singleton.mp mem)]
    exact Or.inr rfl
  · intro i mem _
    rw [owner, List.mem_singleton.mp mem]
    exact met

theorem walked_cons {s t : Fat} {p w : Nat} {tail : List Nat} (own : (s.table p).owner = some ptr)
    (link : (s.table p).value = w) (orphan : Orphan o fs s.table w)
    (walked : Walked o fs ptr (tag s ptr w) t w tail) : Walked o fs ptr s t p (w :: tail) := by
  obtain ⟨nodup, fresh, linked, owner, prev, beside, along, closed⟩ := walked
  have apart : p ≠ w := by
    rintro rfl
    rw [orphan.2.1] at own
    cases own
  have out : p ∉ w :: tail := by
    rw [List.mem_cons, not_or]
    refine ⟨apart, ?_⟩
    intro mem
    have free := (tag_orphan.mp (fresh p mem)).1.2.1
    rw [own] at free
    cases free
  have tagged : (t.table w).owner = some ptr := by
    rw [owner, tag_owner, if_pos rfl]
    split <;> rfl
  simp only [tag_value] at beside along closed
  constructor
  · exact List.nodup_cons.mpr ⟨out, nodup⟩
  · intro i mem
    cases List.mem_cons.mp mem with
    | inl here =>
      rw [here]
      exact orphan
    | inr later => exact (tag_orphan.mp (fresh i later)).1
  · exact ⟨(beside p out).trans link, linked⟩
  · intro i
    rw [owner, tag_owner]
    by_cases here : i = w
    · subst here
      rw [if_pos rfl, ite_self, if_pos (by simp)]
    · rw [if_neg here]
      simp [here]
  · intro i
    rw [prev, tag_prev]
  · intro i other
    exact beside i fun mem => other (List.mem_cons_of_mem p mem)
  · intro i mem
    cases List.mem_cons.mp mem with
    | inl here =>
      rw [here]
      exact Or.inl (beside p out)
    | inr later => exact along i later
  · intro i mem small
    cases List.mem_cons.mp mem with
    | inl here =>
      rw [here, link]
      exact tagged
    | inr later => exact closed i later small

theorem walked_tagging {s t : Fat} {p : Nat} {tail : List Nat} (range : fs.clusters + 2 ≤ fatMinBad o fs)
    (tagging : Tagging o fs ptr orig s.table) (first : Orphan o fs orig p)
    (walked : Walked o fs ptr s t p tail) : Tagging o fs ptr orig t.table := by
  have member : ∀ i ∈ p :: tail, Orphan o fs orig i := by
    intro i mem
    cases List.mem_cons.mp mem with
    | inl here =>
      rw [here]
      exact first
    | inr later =>
      have orphan := walked.fresh i later
      cases tagging.owner i with
      | inl same => exact ⟨orphan.1, same ▸ orphan.2.1, (cut_used range tagging.cut).mp orphan.2.2⟩
      | inr done => exact done.1
  refine ⟨?_, ?_, ?_⟩
  · intro i
    by_cases mem : i ∈ p :: tail
    · cases walked.along i mem with
      | inl same =>
        rw [same]
        exact tagging.cut i
      | inr done => exact Or.inr ⟨member i mem, done⟩
    · rw [walked.beside i mem]
      exact tagging.cut i
  · intro i
    rw [walked.owner]
    split
    · rename_i mem
      exact Or.inr ⟨member i (List.mem_cons_of_mem p mem), rfl⟩
    · exact tagging.owner i
  · intro i orphan link
    by_cases mem : i ∈ p :: tail
    · cases walked.along i mem with
      | inl same =>
        rw [same] at link ⊢
        exact tagging.target i orphan link
      | inr done =>
        rw [done] at link
        have := (eof_facts range).2.2.2
        omega
    · rw [walked.beside i mem] at link ⊢
      exact tagging.target i orphan link

/-- The walk from a tagged cluster ends within as many steps as there are orphans left. -/
theorem tagWalk_walks {fuel p : Nat} {s : Fat} (laid : Laid o fs dev)
    (range : fs.clusters + 2 ≤ fatMinBad o fs) (ranged : InRange o fs orig)
    (good : Good o fs dev base s) (tagging : Tagging o fs ptr orig s.table)
    (first : Orphan o fs orig p) (own : (s.table p).owner = some ptr)
    (enough : (orphans o fs s.table).card < fuel) :
    ∃ t tail, tagWalk o fs ptr fuel s p (nextOf fs s p) = .ok t ∧ Good o fs dev base t ∧
      Walked o fs ptr s t p tail := by
  induction fuel generalizing s p with
  | zero => exact absurd enough (Nat.not_lt_zero _)
  | succ fuel ih =>
    obtain ⟨_, way⟩ := tagging_value range ranged tagging first
    rcases way with ⟨⟨low, high⟩, live, target⟩ | ends
    · have next : nextOf fs s p = (s.table p).value := by simp [nextOf, live]
      rw [next]
      have use := (cut_used range tagging.cut).mpr target.2.2
      cases tagging.owner (s.table p).value with
      | inl same =>
        have orphan : Orphan o fs s.table (s.table p).value :=
          ⟨target.1, same.trans target.2.1, use⟩
        have fewer := tag_card ptr orphan
        obtain ⟨t, tail, done, final, walked⟩ := ih (tag_good good) (tag_tagging tagging target) target
          (by rw [tag_owner, if_pos rfl]) (by omega)
        refine ⟨t, (s.table p).value :: tail, ?_, final, walked_cons own rfl orphan walked⟩
        rw [tagWalk_tags range orphan]
        exact done
      | inr met =>
        obtain ⟨t, done, table, final⟩ := good_set laid good first.1
        refine ⟨t, [], ?_, final, walked_cut range table met.2⟩
        have ended : ¬ ((s.table p).value = 0 ∨ (s.table p).value = minusOne) := by
          have := (link_facts range high).2.2.2
          omega
        have owner : getOwner s (s.table p).value = some ptr := met.2
        simp [tagWalk, ended, owner, done, taken, Except.mapError]
    · refine ⟨s, [], ?_, good, walked_end range ends⟩
      simp [nextOf, ends, tagWalk]

end Walk

end TestSource.Dosfsck
