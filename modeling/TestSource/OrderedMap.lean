import Mathlib.Data.List.Nodup
import Mathlib.Tactic.Common

/- Finite maps kept as lists in order of first insertion. Overwriting a key keeps its
   place, a new key goes to the end. -/
namespace OrderedMap
variable {R K : Type} [DecidableEq K] (key : R → K)

def store : List R → R → List R
  | [], r => [r]
  | x :: rest, r => if key x = key r then r :: rest else x :: store rest r

def storeAll (l batch : List R) : List R := batch.foldl (store key) l

def fetch (k : K) (l : List R) : Option R := l.find? fun x => key x = k

def freshKeys (l batch : List R) : List K := (batch.map key).filter fun k => k ∉ l.map key

variable {key}

theorem keys_store (l : List R) (r : R) :
    (store key l r).map key = if key r ∈ l.map key then l.map key else l.map key ++ [key r] := by
  induction l with
  | nil => simp [store]
  | cons x rest ih =>
    by_cases same : key x = key r
    · simp [store, same]
    · simp only [store, same, ↓reduceIte, List.map_cons, ih, List.mem_cons, Ne.symm same, false_or]
      split <;> simp

theorem store_skip {l : List R} {r : R} (other : ∀ x ∈ l, key x ≠ key r) (m : List R) :
    store key (l ++ m) r = l ++ store key m r := by
  induction l with
  | nil => rfl
  | cons x l ih =>
    rw [List.cons_append, store, if_neg (other x (by simp)), ih fun y mem => other y (by simp [mem])]
    rfl

theorem storeAll_cons (l : List R) (r : R) (batch : List R) :
    storeAll key l (r :: batch) = storeAll key (store key l r) batch := rfl

theorem storeAll_new {l batch : List R} (fresh : ∀ r ∈ batch, key r ∉ l.map key)
    (distinct : (batch.map key).Nodup) : storeAll key l batch = l ++ batch := by
  induction batch generalizing l with
  | nil => simp [storeAll]
  | cons r batch ih =>
    obtain ⟨out, rest⟩ := List.nodup_cons.mp distinct
    have other : ∀ x ∈ l, key x ≠ key r :=
      fun x mem same => fresh r (by simp) (same ▸ List.mem_map_of_mem mem)
    have last : store key l r = l ++ [r] := by
      simpa [store] using store_skip other []
    have unseen : ∀ x ∈ batch, key x ∉ (l ++ [r]).map key := by
      intro x mem
      simp only [List.map_append, List.map_cons, List.map_nil, List.mem_append,
        List.mem_singleton, not_or]
      exact ⟨fresh x (by simp [mem]), fun same => out (same ▸ List.mem_map_of_mem mem)⟩
    rw [storeAll_cons, last, ih unseen rest, List.append_assoc, List.singleton_append]

/-- A batch of the keys that follow `before`, in their order, takes the place of their
    records. -/
theorem storeAll_refresh (before : List R) {l batch : List R} (same : l.map key = batch.map key)
    (distinct : ((before ++ batch).map key).Nodup) :
    storeAll key (before ++ l) batch = before ++ batch := by
  induction batch generalizing before l with
  | nil =>
    rw [List.map_eq_nil_iff.mp same]
    rfl
  | cons r batch ih =>
    cases l with
    | nil => cases same
    | cons x l =>
      simp only [List.map_cons, List.cons.injEq] at same
      have other : ∀ y ∈ before, key y ≠ key r := by
        intro y mem
        rw [List.map_append, List.nodup_append] at distinct
        exact distinct.2.2 (key y) (List.mem_map_of_mem mem) (key r) (by simp)
      have first : store key (before ++ x :: l) r = (before ++ [r]) ++ l := by
        rw [store_skip other, store, if_pos same.1, List.append_assoc, List.singleton_append]
      have rest := ih (before ++ [r]) same.2 (by simpa using distinct)
      rw [storeAll_cons, first, rest, List.append_assoc, List.singleton_append]

theorem fetch_store (k : K) (l : List R) (r : R) :
    fetch key k (store key l r) = if key r = k then some r else fetch key k l := by
  induction l with
  | nil => by_cases hit : key r = k <;> simp [store, fetch, hit]
  | cons x rest ih =>
    unfold fetch at ih ⊢
    by_cases same : key x = key r
    · by_cases hit : key r = k <;> simp [store, same, hit]
    · by_cases hit : key x = k
      · have other : ¬ key r = k := fun eq => same (hit.trans eq.symm)
        rw [store, if_neg same]
        simp [hit, other]
      · simpa [store, same, hit] using ih

theorem mem_store {l : List R} {r x : R} (mem : x ∈ store key l r) : x ∈ l ∨ x = r := by
  induction l with
  | nil => exact .inr (List.mem_singleton.mp mem)
  | cons y rest ih =>
    by_cases same : key y = key r
    · rw [store, if_pos same] at mem
      rcases List.mem_cons.mp mem with new | old
      · exact .inr new
      · exact .inl (List.mem_cons_of_mem y old)
    · rw [store, if_neg same] at mem
      rcases List.mem_cons.mp mem with first | later
      · exact .inl (first ▸ List.mem_cons_self)
      · exact (ih later).imp_left (List.mem_cons_of_mem y)

theorem mem_storeAll {l batch : List R} {x : R} (mem : x ∈ storeAll key l batch) :
    x ∈ l ∨ x ∈ batch := by
  induction batch generalizing l with
  | nil => exact .inl mem
  | cons r batch ih =>
    rcases ih mem with stored | later
    · rcases mem_store stored with old | new
      · exact .inl old
      · exact .inr (new ▸ List.mem_cons_self)
    · exact .inr (List.mem_cons_of_mem r later)

theorem key_storeAll {l batch : List R} {k : K} (known : k ∈ l.map key ∨ k ∈ batch.map key) :
    k ∈ (storeAll key l batch).map key := by
  induction batch generalizing l with
  | nil => exact known.resolve_right (by simp)
  | cons r batch ih =>
    apply ih
    rw [keys_store]
    rcases known with old | new
    · left
      split
      · exact old
      · exact List.mem_append_left _ old
    · rcases List.mem_cons.mp new with rfl | later
      · left
        split
        · assumption
        · simp
      · exact .inr later

theorem nodup_storeAll {l : List R} (batch : List R) (nodup : (l.map key).Nodup) :
    ((storeAll key l batch).map key).Nodup := by
  induction batch generalizing l with
  | nil => exact nodup
  | cons r batch ih =>
    apply ih
    rw [keys_store]
    split
    · exact nodup
    · rename_i new
      rw [List.nodup_append]
      refine ⟨nodup, by simp, ?_⟩
      intro a mem b last same
      simp only [List.mem_singleton] at last
      exact new (last ▸ same ▸ mem)

theorem keys_storeAll {l batch : List R} (distinct : (batch.map key).Nodup) :
    (storeAll key l batch).map key = l.map key ++ freshKeys key l batch := by
  induction batch generalizing l with
  | nil => simp [storeAll, freshKeys]
  | cons r batch ih =>
    obtain ⟨out, rest⟩ := List.nodup_cons.mp distinct
    rw [storeAll_cons, ih rest]
    simp only [freshKeys, keys_store, List.map_cons, List.filter_cons]
    by_cases known : key r ∈ l.map key
    · simp [known]
    · simp only [known, not_false_eq_true, decide_true, ↓reduceIte, List.append_assoc,
        List.singleton_append]
      congr 2
      apply List.filter_congr
      intro k mem
      have other : k ≠ key r := fun same => out (same ▸ mem)
      simp [other]

/-- A batch of distinct keys decides its own keys and leaves the others alone. -/
theorem fetch_storeAll {l batch : List R} (distinct : (batch.map key).Nodup) (k : K) :
    fetch key k (storeAll key l batch) = (fetch key k batch).or (fetch key k l) := by
  induction batch generalizing l with
  | nil => simp [storeAll, fetch]
  | cons r batch ih =>
    obtain ⟨out, rest⟩ := List.nodup_cons.mp distinct
    rw [storeAll_cons, ih rest, fetch_store]
    by_cases hit : key r = k
    · have missing : fetch key k batch = none := by
        simp only [fetch, List.find?_eq_none, decide_eq_true_eq]
        intro x mem same
        exact out (hit.trans same.symm ▸ List.mem_map_of_mem mem)
      rw [missing, if_pos hit]
      simp [fetch, hit]
    · simp [hit, fetch]

theorem fetch_key {k : K} {l : List R} {r : R} (found : fetch key k l = some r) : key r = k := by
  simpa using List.find?_some found

theorem fetch_filter (k : K) (p : R → Bool) (l : List R)
    (byKey : ∀ x y, key x = key y → p x = p y) :
    fetch key k (l.filter p) = (fetch key k l).filter p := by
  induction l with
  | nil => rfl
  | cons x rest ih =>
    unfold fetch at ih ⊢
    by_cases hit : key x = k
    · by_cases kept : p x = true
      · simp [kept, hit, Option.filter]
      · have gone : (rest.filter p).find? (fun y => key y = k) = none := by
          simp only [List.find?_eq_none, List.mem_filter, decide_eq_true_eq]
          intro y mem same
          exact kept (byKey x y (hit.trans same.symm) ▸ mem.2)
        simp [kept, hit, gone, Option.filter]
    · by_cases kept : p x = true <;> simpa [kept, hit] using ih

end OrderedMap
