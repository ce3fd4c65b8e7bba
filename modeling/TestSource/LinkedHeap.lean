import Mathlib.Data.List.Nodup
import Mathlib.Data.List.Range
import Mathlib.Tactic.Common

/- Singly linked cells in an explicit heap. Addresses are Nat, zero is the null
   pointer, and a released cell stays in the map with its mark cleared, so that a
   client can choose whether a read of a released cell succeeds. -/
namespace LinkedHeap
variable {α : Type}

structure Cell (α : Type) where
  val : α
  next : Nat
  live : Bool

/-- `top` is the next address handed out. Allocation fails from `limit` on, and
    never fails when there is no limit. -/
structure Heap (α : Type) where
  cell : Nat → Option (Cell α)
  top : Nat
  limit : Option Nat
  keepsFreed : Bool

def Heap.empty (keepsFreed : Bool) : Heap α := ⟨fun _ => none, 1, none, keepsFreed⟩

def Heap.put (h : Heap α) (p : Nat) (c : Cell α) : Heap α :=
  { h with cell := fun q => if q = p then some c else h.cell q }

def Heap.load (h : Heap α) (p : Nat) : Option (Cell α) :=
  match h.cell p with
  | some c => if c.live || h.keepsFreed then some c else none
  | none => none

def Heap.update (h : Heap α) (p : Nat) (change : Cell α → Cell α) : Option (Heap α) :=
  match h.cell p with
  | some c => if c.live then some (h.put p (change c)) else none
  | none => none

def Heap.setVal (h : Heap α) (p : Nat) (v : α) : Option (Heap α) :=
  h.update p fun c => { c with val := v }

def Heap.setNext (h : Heap α) (p next : Nat) : Option (Heap α) :=
  h.update p fun c => { c with next := next }

def Heap.free (h : Heap α) (p : Nat) : Option (Heap α) :=
  h.update p fun c => { c with live := false }

def Heap.exhausted (h : Heap α) : Bool :=
  match h.limit with
  | none => false
  | some bound => bound ≤ h.top

def Heap.extend (h : Heap α) (v : α) (next : Nat) : Heap α :=
  ⟨(h.put h.top ⟨v, next, true⟩).cell, h.top + 1, h.limit, h.keepsFreed⟩

def Heap.malloc (h : Heap α) (v : α) (next : Nat) : Option (Nat × Heap α) :=
  if h.exhausted then none else some (h.top, h.extend v next)

def linkOf : List (Nat × α) → Nat → Nat
  | [], stop => stop
  | n :: _, _ => n.1

def Linked (h : Heap α) : List (Nat × α) → Nat → Prop
  | [], _ => True
  | n :: rest, stop =>
      n.1 ≠ 0 ∧ h.cell n.1 = some ⟨n.2, linkOf rest stop, true⟩ ∧ Linked h rest stop

/-- The heap stores exactly the listed nodes, in order, from `head` to the null link. -/
structure Holds (h : Heap α) (head : Nat) (nodes : List (Nat × α)) : Prop where
  entry : head = linkOf nodes 0
  linked : Linked h nodes 0
  nodup : (nodes.map Prod.fst).Nodup
  below : ∀ n ∈ nodes, n.1 < h.top
  positive : 0 < h.top

/-- A walk along the links. Each value goes through `body`, which may end the walk. -/
def Heap.walk {σ : Type} (h : Heap α) (body : α → σ → ForInStep σ) : Nat → Nat → σ → Option σ
  | 0, _, _ => none
  | fuel + 1, p, s =>
      if p = 0 then some s
      else do
        let c ← h.load p
        match body c.val s with
        | .yield s => h.walk body fuel c.next s
        | .done s => some s

def walkList {σ : Type} (body : α → σ → ForInStep σ) : List α → σ → σ
  | [], s => s
  | x :: rest, s =>
      match body x s with
      | .yield s => walkList body rest s
      | .done s => s

@[simp] theorem linkOf_nil (stop : Nat) : linkOf ([] : List (Nat × α)) stop = stop := rfl

@[simp] theorem linkOf_cons (n : Nat × α) (l : List (Nat × α)) (stop : Nat) :
    linkOf (n :: l) stop = n.1 := rfl

theorem linkOf_append (l m : List (Nat × α)) (stop : Nat) :
    linkOf (l ++ m) stop = linkOf l (linkOf m stop) := by
  cases l <;> rfl

theorem linked_append (h : Heap α) (l m : List (Nat × α)) (stop : Nat) :
    Linked h (l ++ m) stop ↔ Linked h l (linkOf m stop) ∧ Linked h m stop := by
  induction l with
  | nil => simp [Linked]
  | cons n l ih =>
    simp only [List.cons_append, Linked, linkOf_append, ih]
    tauto

theorem linked_frame {h h' : Heap α} {l : List (Nat × α)} {stop : Nat}
    (same : ∀ n ∈ l, h'.cell n.1 = h.cell n.1) (linked : Linked h l stop) :
    Linked h' l stop := by
  induction l with
  | nil => trivial
  | cons n l ih =>
    obtain ⟨nonnull, cell, rest⟩ := linked
    refine ⟨nonnull, ?_, ih (fun m mem => same m (by simp [mem])) rest⟩
    rw [same n (by simp), cell]

theorem linked_member {h : Heap α} {l : List (Nat × α)} {stop : Nat}
    (linked : Linked h l stop) {n : Nat × α} (mem : n ∈ l) :
    n.1 ≠ 0 ∧ ∃ next, h.cell n.1 = some ⟨n.2, next, true⟩ := by
  obtain ⟨a, b, rfl⟩ := List.append_of_mem mem
  obtain ⟨nonnull, cell, _⟩ := ((linked_append h a (n :: b) stop).mp linked).2
  exact ⟨nonnull, _, cell⟩

theorem put_other {h : Heap α} {p q : Nat} {c : Cell α} (ne : q ≠ p) :
    (h.put p c).cell q = h.cell q := by
  simp [Heap.put, ne]

@[simp] theorem put_same (h : Heap α) (p : Nat) (c : Cell α) : (h.put p c).cell p = some c := by
  simp [Heap.put]

theorem load_live {h : Heap α} {p : Nat} {c : Cell α} (cell : h.cell p = some c)
    (live : c.live = true) : h.load p = some c := by
  simp [Heap.load, cell, live]

theorem load_kept {h : Heap α} {p : Nat} {c : Cell α} (cell : h.cell p = some c)
    (kept : h.keepsFreed = true) : h.load p = some c := by
  simp [Heap.load, cell, kept]

theorem update_live {h : Heap α} {p : Nat} {c : Cell α} (cell : h.cell p = some c)
    (live : c.live = true) (change : Cell α → Cell α) :
    h.update p change = some (h.put p (change c)) := by
  simp [Heap.update, cell, live]

theorem malloc_unlimited {h : Heap α} (unlimited : h.limit = none) (v : α) (next : Nat) :
    h.malloc v next = some (h.top, h.extend v next) := by
  simp [Heap.malloc, Heap.exhausted, unlimited]

theorem holds_empty (kept : Bool) : Holds (Heap.empty kept : Heap α) 0 [] :=
  ⟨rfl, trivial, by simp, by simp, by simp [Heap.empty]⟩

theorem holds_cell {h : Heap α} {head : Nat} {a b : List (Nat × α)} {n : Nat × α}
    (holds : Holds h head (a ++ n :: b)) :
    n.1 ≠ 0 ∧ h.cell n.1 = some ⟨n.2, linkOf b 0, true⟩ := by
  obtain ⟨nonnull, cell, _⟩ := ((linked_append h a (n :: b) 0).mp holds.linked).2
  exact ⟨nonnull, cell⟩

theorem holds_load {h : Heap α} {head : Nat} {a b : List (Nat × α)} {n : Nat × α}
    (holds : Holds h head (a ++ n :: b)) :
    h.load n.1 = some ⟨n.2, linkOf b 0, true⟩ :=
  load_live (holds_cell holds).2 rfl

theorem holds_entry_zero {h : Heap α} {head : Nat} {l : List (Nat × α)}
    (holds : Holds h head l) : head = 0 ↔ l = [] := by
  cases l with
  | nil => simpa [linkOf] using holds.entry
  | cons n l =>
    have nonnull := (holds_cell (a := []) holds).1
    simpa [holds.entry, linkOf] using nonnull

theorem link_zero_iff {h : Heap α} {head : Nat} {a b : List (Nat × α)}
    (holds : Holds h head (a ++ b)) : linkOf b 0 = 0 ↔ b = [] := by
  cases b with
  | nil => simp [linkOf]
  | cons n b => simpa [linkOf] using (holds_cell holds).1

theorem linked_unique {h : Heap α} {l m : List (Nat × α)} (first : Linked h l 0)
    (second : Linked h m 0) (same : linkOf l 0 = linkOf m 0) : l = m := by
  induction l generalizing m with
  | nil =>
    cases m with
    | nil => rfl
    | cons n m => exact absurd same.symm second.1
  | cons n l ih =>
    cases m with
    | nil => exact absurd same first.1
    | cons k m =>
      obtain ⟨_, cell, rest⟩ := first
      obtain ⟨_, cell', rest'⟩ := second
      rw [show n.1 = k.1 from same, cell'] at cell
      simp only [Option.some.injEq, Cell.mk.injEq, and_true] at cell
      rw [ih rest rest' cell.2.symm, Prod.ext same cell.1.symm]

theorem holds_unique {h : Heap α} {head : Nat} {l m : List (Nat × α)} (first : Holds h head l)
    (second : Holds h head m) : l = m :=
  linked_unique first.linked second.linked (first.entry.symm.trans second.entry)

/-- A stored list is shorter than the number of addresses handed out, which is the
    bound that makes a walk along the links terminate. -/
theorem holds_length {h : Heap α} {head : Nat} {l : List (Nat × α)}
    (holds : Holds h head l) : l.length < h.top := by
  have subset : l.map Prod.fst ⊆ List.range' 1 (h.top - 1) := by
    intro p mem
    obtain ⟨n, member, rfl⟩ := List.mem_map.mp mem
    have nonnull := (linked_member holds.linked member).1
    have low := holds.below n member
    simp only [List.mem_range'_1]
    omega
  have bound := holds.nodup.length_le_of_subset subset
  simp only [List.length_map, List.length_range'] at bound
  have := holds.positive
  omega

theorem holds_walk_rest {σ : Type} {h : Heap α} {head : Nat} {a b : List (Nat × α)}
    (holds : Holds h head (a ++ b)) (body : α → σ → ForInStep σ) (s : σ) {fuel : Nat}
    (enough : b.length < fuel) :
    h.walk body fuel (linkOf b 0) s = some (walkList body (b.map Prod.snd) s) := by
  induction fuel generalizing a b s with
  | zero => omega
  | succ fuel ih =>
    cases b with
    | nil => simp [Heap.walk, walkList]
    | cons n b =>
      have nonnull := (holds_cell holds).1
      rw [List.length_cons] at enough
      have rest : Holds h head ((a ++ [n]) ++ b) := by simpa using holds
      simp only [linkOf_cons, Heap.walk, nonnull, ↓reduceIte, holds_load holds, Option.bind_eq_bind,
        Option.bind_some, List.map_cons, walkList]
      cases body n.2 s with
      | yield s => exact ih rest s (by omega)
      | done s => rfl

theorem holds_walk {σ : Type} {h : Heap α} {head : Nat} {l : List (Nat × α)} (holds : Holds h head l)
    (body : α → σ → ForInStep σ) (s : σ) :
    h.walk body h.top head s = some (walkList body (l.map Prod.snd) s) := by
  have run := holds_walk_rest (a := []) holds body s (holds_length holds)
  rw [← holds.entry] at run
  exact run

theorem walkList_find {σ : Type} (p : α → Bool) (found s : σ) (l : List α) :
    walkList (fun x s => if p x then .done found else .yield s) l s = if l.any p then found else s := by
  induction l with
  | nil => rfl
  | cons x l ih =>
    rw [walkList, List.any_cons]
    cases p x with
    | true => rfl
    | false => simpa using ih

theorem walkList_count (p : α → Bool) (l : List α) (n : Nat) :
    walkList (fun x n => .yield (if p x then n + 1 else n)) l n = n + l.countP p := by
  induction l generalizing n with
  | nil => rfl
  | cons x l ih =>
    rw [walkList]
    dsimp only
    rw [ih, List.countP_cons]
    cases p x with
    | true =>
      simp only [if_true]
      omega
    | false => rfl

theorem holds_malloc {h : Heap α} {head : Nat} {l : List (Nat × α)} (holds : Holds h head l)
    (v : α) (next : Nat) :
    Holds (h.extend v next) head l := by
  refine ⟨holds.entry, ?_, holds.nodup, ?_, by simp [Heap.extend]⟩
  · apply linked_frame _ holds.linked
    intro n mem
    have := holds.below n mem
    exact put_other (by omega)
  · intro n mem
    have := holds.below n mem
    simp only [Heap.extend]
    omega

theorem nodup_split {a b : List (Nat × α)} {n : Nat × α}
    (nodup : ((a ++ n :: b).map Prod.fst).Nodup) :
    (∀ m ∈ a, m.1 ≠ n.1) ∧ (∀ m ∈ b, m.1 ≠ n.1) := by
  simp only [List.map_append, List.map_cons] at nodup
  obtain ⟨_, tail, apart⟩ := List.nodup_append.mp nodup
  constructor
  · intro m mem same
    exact apart m.1 (List.mem_map_of_mem mem) n.1 (by simp) same
  · intro m mem same
    exact (List.nodup_cons.mp tail).1 (same ▸ List.mem_map_of_mem mem)

theorem last_eq {a b : List (Nat × α)} {m n : Nat × α} (same : a ++ [m] = b ++ [n]) : m = n := by
  have last := (List.append_inj' same rfl).2
  simpa using last

theorem holds_entry_ne {h : Heap α} {head : Nat} {a b : List (Nat × α)} {m n : Nat × α}
    (holds : Holds h head (a ++ m :: n :: b)) : head ≠ n.1 := by
  have nodup : (((a ++ [m]) ++ n :: b).map Prod.fst).Nodup := by simpa using holds.nodup
  have before := (nodup_split nodup).1
  rw [holds.entry]
  cases a with
  | nil => exact before m (by simp)
  | cons x a => exact before x (by simp)

theorem holds_link_last {h : Heap α} {head : Nat} {l : List (Nat × α)} {n : Nat × α} {v : α}
    {p : Nat} (holds : Holds h head (l ++ [n])) (cell : h.cell p = some ⟨v, 0, true⟩)
    (nonnull : p ≠ 0) (low : p < h.top) (fresh : ∀ m ∈ l ++ [n], m.1 ≠ p) :
    Holds (h.put n.1 ⟨n.2, p, true⟩) head (l ++ [n] ++ [(p, v)]) := by
  have parts := (linked_append h l [n] 0).mp holds.linked
  refine ⟨?_, ?_, ?_, ?_, holds.positive⟩
  · rw [holds.entry]
    cases l <;> rfl
  · rw [List.append_assoc, linked_append]
    constructor
    · exact linked_frame (fun m mem => put_other ((nodup_split holds.nodup).1 m mem)) parts.1
    · refine ⟨parts.2.1, by simp [linkOf], nonnull, ?_, trivial⟩
      rw [put_other (Ne.symm (fresh n (by simp))), cell]
      rfl
  · rw [List.map_append, List.nodup_append]
    refine ⟨holds.nodup, by simp, ?_⟩
    intro x memx y memy same
    obtain ⟨m, mem, rfl⟩ := List.mem_map.mp memx
    simp only [List.map_cons, List.map_nil, List.mem_singleton] at memy
    exact fresh m mem (same.trans memy)
  · intro m mem
    rcases List.mem_append.mp mem with old | new
    · exact holds.below m old
    · simp only [List.mem_singleton] at new
      subst new
      exact low

theorem holds_first {h : Heap α} {head : Nat} {v : α} (holds : Holds h head []) :
    Holds (h.extend v 0) h.top [(h.top, v)] := by
  have := holds.positive
  refine ⟨rfl, ⟨?_, by simp [Heap.extend, linkOf], trivial⟩, by simp, ?_, by simp [Heap.extend]⟩
  · show h.top ≠ 0
    omega
  · intro n mem
    simp only [List.mem_singleton] at mem
    subst mem
    simp [Heap.extend]

theorem holds_setVal {h : Heap α} {head : Nat} {a b : List (Nat × α)} {n : Nat × α}
    (holds : Holds h head (a ++ n :: b)) (v : α) :
    Holds (h.put n.1 ⟨v, linkOf b 0, true⟩) head (a ++ (n.1, v) :: b) := by
  obtain ⟨before, after⟩ := nodup_split holds.nodup
  have parts := (linked_append h a (n :: b) 0).mp holds.linked
  refine ⟨?_, ?_, ?_, ?_, holds.positive⟩
  · rw [holds.entry]
    cases a <;> rfl
  · rw [linked_append]
    constructor
    · exact linked_frame (fun m mem => put_other (before m mem)) parts.1
    · refine ⟨parts.2.1, by simp, ?_⟩
      exact linked_frame (fun m mem => put_other (after m mem)) parts.2.2.2
  · simpa using holds.nodup
  · intro m mem
    simp only [List.mem_append, List.mem_cons] at mem
    rcases mem with early | same | late
    · exact holds.below m (by simp [early])
    · subst same
      exact holds.below n (by simp)
    · exact holds.below m (by simp [late])

theorem holds_unlink_head {h : Heap α} {head : Nat} {l : List (Nat × α)} {n : Nat × α}
    {c : Cell α} (holds : Holds h head (n :: l)) : Holds (h.put n.1 c) (linkOf l 0) l := by
  obtain ⟨_, after⟩ := nodup_split (a := []) holds.nodup
  refine ⟨rfl, ?_, ?_, ?_, holds.positive⟩
  · exact linked_frame (fun m mem => put_other (after m mem)) holds.linked.2.2
  · exact (List.nodup_cons.mp holds.nodup).2
  · intro m mem
    exact holds.below m (by simp [mem])

/-- Linking a node to the one behind its successor, then releasing the successor. -/
theorem holds_relink {h : Heap α} {head : Nat} {a b : List (Nat × α)} {m n : Nat × α}
    (holds : Holds h head (a ++ m :: n :: b)) :
    h.setNext m.1 (linkOf b 0) = some (h.put m.1 ⟨m.2, linkOf b 0, true⟩) ∧
    (h.put m.1 ⟨m.2, linkOf b 0, true⟩).free n.1 =
      some ((h.put m.1 ⟨m.2, linkOf b 0, true⟩).put n.1 ⟨n.2, linkOf b 0, false⟩) := by
  have rest : Holds h head ((a ++ [m]) ++ n :: b) := by simpa using holds
  have apart : n.1 ≠ m.1 := (nodup_split holds.nodup).2 n (by simp)
  have cell : (h.put m.1 ⟨m.2, linkOf b 0, true⟩).cell n.1 = some ⟨n.2, linkOf b 0, true⟩ := by
    rw [put_other apart, (holds_cell rest).2]
  constructor
  · rw [Heap.setNext, update_live (holds_cell holds).2 rfl]
  · rw [Heap.free, update_live cell rfl]

/-- Redirecting a predecessor past a node removes that node from the stored list,
    whatever is written into the unlinked cell afterwards. -/
theorem holds_unlink {h : Heap α} {head : Nat} {a b : List (Nat × α)} {m n : Nat × α}
    {c : Cell α} (holds : Holds h head (a ++ m :: n :: b)) :
    Holds ((h.put m.1 ⟨m.2, linkOf b 0, true⟩).put n.1 c) head (a ++ m :: b) := by
  obtain ⟨before, _⟩ := nodup_split holds.nodup
  have nodup : (((a ++ [m]) ++ n :: b).map Prod.fst).Nodup := by simpa using holds.nodup
  obtain ⟨gone, after⟩ := nodup_split nodup
  have parts := (linked_append h a (m :: n :: b) 0).mp holds.linked
  have rest : ∀ k ∈ b, k.1 ≠ m.1 := fun k mem =>
    (nodup_split holds.nodup).2 k (by simp [mem])
  refine ⟨?_, ?_, ?_, ?_, holds.positive⟩
  · rw [holds.entry]
    cases a <;> rfl
  · rw [linked_append]
    constructor
    · refine linked_frame (fun k mem => ?_) parts.1
      rw [put_other (gone k (by simp [mem])), put_other (before k mem)]
    · refine ⟨parts.2.1, ?_, ?_⟩
      · rw [put_other (gone m (by simp)), put_same]
      · refine linked_frame (fun k mem => ?_) parts.2.2.2.2.2
        rw [put_other (after k mem), put_other (rest k mem)]
  · have sub : (a ++ m :: b).Sublist (a ++ m :: n :: b) := by simp
    exact (sub.map Prod.fst).nodup holds.nodup
  · intro k mem
    have sub : (a ++ m :: b).Sublist (a ++ m :: n :: b) := by simp
    exact holds.below k (sub.subset mem)

/-- A node taken out of a list and released: h₁ is the heap with the link around it, h₂ the
    one after the release. -/
structure TakenOut (h h₁ h₂ : Heap α) (head head' pre : Nat) (v m : List (Nat × α))
    (n : Nat × α) : Prop where
  first : head = n.1 → v = [] ∧ h₁ = h ∧ head' = linkOf m 0
  later : head ≠ n.1 → h.setNext pre (linkOf m 0) = some h₁ ∧ head' = head
  release : h₁.free n.1 = some h₂
  holds : Holds h₂ head' (v ++ m)
  released : h₂.cell n.1 = some ⟨n.2, linkOf m 0, false⟩
  limit : h₂.limit = h.limit
  kept : h₂.keepsFreed = h.keepsFreed

theorem take_out {h : Heap α} {head pre : Nat} {v m : List (Nat × α)} {n : Nat × α}
    (holds : Holds h head (v ++ n :: m)) (behind : ∀ w k, v = w ++ [k] → pre = k.1) :
    ∃ h₁ h₂ head', TakenOut h h₁ h₂ head head' pre v m n := by
  rcases List.eq_nil_or_concat v with first | ⟨w, k, concat⟩
  · subst first
    have entry : head = n.1 := holds.entry
    have cell := (holds_cell holds).2
    refine ⟨h, h.put n.1 ⟨n.2, linkOf m 0, false⟩, linkOf m 0, ?_⟩
    exact ⟨fun _ => ⟨rfl, rfl, rfl⟩, fun other => absurd entry other,
      by rw [Heap.free, update_live cell rfl], holds_unlink_head holds, put_same _ _ _, rfl, rfl⟩
  · rw [List.concat_eq_append] at concat
    have after : pre = k.1 := behind w k concat
    subst concat after
    have chain : Holds h head (w ++ k :: n :: m) := by simpa using holds
    obtain ⟨relink, release⟩ := holds_relink chain
    refine ⟨h.put k.1 ⟨k.2, linkOf m 0, true⟩,
      (h.put k.1 ⟨k.2, linkOf m 0, true⟩).put n.1 ⟨n.2, linkOf m 0, false⟩, head, ?_⟩
    exact ⟨fun entry => absurd entry (holds_entry_ne chain), fun _ => ⟨relink, rfl⟩, release,
      by simpa using holds_unlink chain, put_same _ _ _, rfl, rfl⟩

end LinkedHeap
