import TestSource.Registry
import Mathlib.Data.List.Count

/- What holds along every history of probes and removal scans: the id table and the
   device list agree, and the announcements of one id alternate. Ids are shared only
   when the table is full, and then only the value ALL_USB_DISK. -/
namespace TestSource
open LinkedHeap

def carriers (i : Nat) (devs : List StorageInfo) : Nat := devs.countP fun d => d.nDiskId = i

def announced (i : Nat) (sent : List UsbInfo) : List Action :=
  (sent.filter fun m => m.nDiskId = i).map UsbInfo.eAction

def counterpart : Action → Action
  | .add => .rm
  | _ => .add

def Alternates : Action → List Action → Prop
  | _, [] => True
  | first, a :: rest => a = first ∧ Alternates (counterpart first) rest

/-- The action that would continue an alternating sequence. -/
def due : Action → List Action → Action
  | first, [] => first
  | first, _ :: rest => due (counterpart first) rest

structure Tracks (a : Registry) : Prop where
  range : ∀ d ∈ a.devs, d.nDiskId < 4294967296
  agree : ∀ i < 128, carriers (i + 1) a.devs = if a.used i then 1 else 0
  speaks : ∀ i < 128, Alternates .add (announced (i + 1) a.sent)
  expects : ∀ i < 128, due .add (announced (i + 1) a.sent) = if a.used i then .rm else .add

theorem alternates_append {first : Action} {l : List Action} (alt : Alternates first l) :
    Alternates first (l ++ [due first l]) := by
  induction l generalizing first with
  | nil => simp [due, Alternates]
  | cons a l ih => exact ⟨alt.1, ih alt.2⟩

theorem due_append (first : Action) (l : List Action) (x : Action) :
    due first (l ++ [x]) = counterpart (due first l) := by
  induction l generalizing first with
  | nil => rfl
  | cons a l ih => exact ih (counterpart first)

theorem alternates_last {l : List Action} (alt : Alternates .add l) :
    l.getLast? = some .add ↔ due .add l = .rm := by
  rcases List.eq_nil_or_concat l with empty | ⟨front, x, concat⟩
  · subst empty
    simp [due]
  · rw [List.concat_eq_append] at concat
    subst concat
    have prefixAlt : ∀ first, Alternates first (front ++ [x]) → x = due first front := by
      clear alt
      induction front with
      | nil => exact fun first alt => alt.1
      | cons a front ih => exact fun first alt => ih _ alt.2
    rw [due_append, ← prefixAlt _ alt]
    cases x <;> simp [counterpart]

theorem create_cases (g : Nat → Bool) :
    (∃ i < 128, g i = false ∧ (∀ j < i, g j = true) ∧
        mntUsbCreateDiskId g = ((i : Int) + 1, setDevID g i true)) ∨
      ((∀ i < 128, g i = true) ∧ mntUsbCreateDiskId g = (-1, g)) := by
  unfold mntUsbCreateDiskId
  cases scan : (List.range 128).find? fun i => !g i with
  | none =>
    right
    refine ⟨fun i low => ?_, rfl⟩
    simpa using List.find?_eq_none.mp scan i (List.mem_range.mpr low)
  | some i =>
    left
    obtain ⟨free, low, taken⟩ := List.find?_range_eq_some.mp scan
    exact ⟨i, List.mem_range.mp low, by simpa using free, fun j less => by simpa using taken j less, rfl⟩

theorem toU32_slot {i : Nat} (low : i < 128) : toU32 ((i : Int) + 1) = i + 1 := by
  unfold toU32
  omega

theorem destroy_apply {id j : Nat} (range : id < 4294967296) (low : j < 128)
    (g : Nat → Bool) :
    mntUsbDestroyDiskId (toS32 id) g j = if id = j + 1 then false else g j := by
  unfold mntUsbDestroyDiskId toS32 setDevID
  grind

theorem carriers_append (i : Nat) (l m : List StorageInfo) :
    carriers i (l ++ m) = carriers i l + carriers i m := by
  simp [carriers]

theorem carriers_single (i : Nat) (d : StorageInfo) :
    carriers i [d] = if d.nDiskId = i then 1 else 0 := by
  simp [carriers, List.countP_cons]

theorem carriers_erase (i id : Nat) (l : List StorageInfo) :
    carriers i (l.eraseP fun e => id = e.nDiskId) =
      if i = id then carriers i l - 1 else carriers i l := by
  induction l with
  | nil => simp [carriers]
  | cons d l ih =>
    unfold carriers at ih ⊢
    by_cases same : id = d.nDiskId
    · rw [List.eraseP_cons_of_pos (by simpa using same), List.countP_cons]
      by_cases hit : i = id
      · simp [hit, same]
      · simp [hit, show ¬ d.nDiskId = i by omega]
    · rw [List.eraseP_cons_of_neg (by simpa using same), List.countP_cons, List.countP_cons, ih]
      by_cases hit : i = id
      · simp [hit, show ¬ d.nDiskId = id by omega]
      · simp [hit]

theorem carriers_pos {i : Nat} {l : List StorageInfo} :
    0 < carriers i l ↔ ∃ d ∈ l, d.nDiskId = i := by
  simp [carriers, List.countP_pos_iff]

theorem announced_append (i : Nat) (l : List UsbInfo) (m : UsbInfo) :
    announced i (l ++ [m]) =
      if m.nDiskId = i then announced i l ++ [m.eAction] else announced i l := by
  by_cases hit : m.nDiskId = i <;> simp [announced, List.filter_append, hit]

theorem all_usb_disk_outside {i : Nat} (low : i < 128) : ALL_USB_DISK ≠ i + 1 := by
  unfold ALL_USB_DISK
  omega

theorem range_append {a : Registry} (tracks : Tracks a) {d : StorageInfo}
    (word : d.nDiskId < 4294967296) : ∀ x ∈ a.devs ++ [d], x.nDiskId < 4294967296 := by
  intro x mem
  rcases List.mem_append.mp mem with old | new
  · exact tracks.range x old
  · simp only [List.mem_singleton] at new
    subst new
    exact word

theorem tracks_enter_slot {a : Registry} (tracks : Tracks a) {k : Nat} (low : k < 128)
    (free : a.used k = false) (name : CStr) :
    Tracks ⟨a.devs ++ [⟨k + 1, name⟩], setDevID a.used k true, a.sent ++ [⟨.add, .storage, k + 1⟩]⟩ := by
  constructor
  · apply range_append tracks
    show k + 1 < 4294967296
    omega
  · intro i bound
    have old := tracks.agree i bound
    simp only [carriers_append, carriers_single, old, setDevID]
    by_cases same : i = k
    · simp [same, free]
    · simp [same, Ne.symm same]
  · intro i bound
    have old := tracks.speaks i bound
    simp only [announced_append]
    split
    · rename_i same
      obtain rfl : k = i := by omega
      have next := alternates_append old
      rwa [tracks.expects k bound, free] at next
    · exact old
  · intro i bound
    have old := tracks.expects i bound
    simp only [announced_append, setDevID]
    by_cases same : i = k
    · subst same
      rw [free] at old
      simp [due_append, old, counterpart]
    · simp [same, Ne.symm same, old]

theorem tracks_enter_full {a : Registry} (tracks : Tracks a) (name : CStr) :
    Tracks ⟨a.devs ++ [⟨ALL_USB_DISK, name⟩], a.used, a.sent ++ [⟨.add, .storage, ALL_USB_DISK⟩]⟩ := by
  constructor
  · apply range_append tracks
    show ALL_USB_DISK < 4294967296
    decide
  · intro i bound
    simp [carriers_append, carriers_single, all_usb_disk_outside bound, tracks.agree i bound]
  · intro i bound
    simpa [announced_append, all_usb_disk_outside bound] using tracks.speaks i bound
  · intro i bound
    simpa [announced_append, all_usb_disk_outside bound] using tracks.expects i bound

theorem tracks_enter {a : Registry} (tracks : Tracks a) (name : CStr) :
    Tracks (a.enter name) := by
  rcases create_cases a.used with ⟨k, low, free, _, create⟩ | ⟨_, create⟩
  · simp only [Registry.enter, create, toU32_slot low]
    exact tracks_enter_slot tracks low free name
  · simp only [Registry.enter, create, toU32_minus_one]
    exact tracks_enter_full tracks name

theorem taken_of_listed {a : Registry} (tracks : Tracks a) {i : Nat} (low : i < 128)
    (listed : 0 < carriers (i + 1) a.devs) : a.used i = true := by
  have count := tracks.agree i low
  by_contra unused
  simp only [unused, ↓reduceIte] at count
  omega

theorem tracks_withdraw {a : Registry} (tracks : Tracks a) {d : StorageInfo}
    (listed : 0 < carriers d.nDiskId a.devs) : Tracks (a.withdraw d) := by
  obtain ⟨e, member, same⟩ := carriers_pos.mp listed
  have range : d.nDiskId < 4294967296 := same ▸ tracks.range e member
  constructor
  · intro x mem
    exact tracks.range x (List.mem_of_mem_eraseP mem)
  · intro i bound
    have old := tracks.agree i bound
    simp only [Registry.withdraw, carriers_erase, destroy_apply range bound]
    by_cases hit : d.nDiskId = i + 1
    · have taken : carriers (i + 1) a.devs ≤ 1 := by rw [old]; split <;> omega
      simp [hit]
      omega
    · simp [hit, Ne.symm hit, old]
  · intro i bound
    have old := tracks.speaks i bound
    simp only [Registry.withdraw, announced_append]
    split
    · rename_i hit
      have next := alternates_append old
      rwa [tracks.expects i bound, taken_of_listed tracks bound (hit ▸ listed)] at next
    · exact old
  · intro i bound
    have old := tracks.expects i bound
    simp only [Registry.withdraw, announced_append, destroy_apply range bound]
    by_cases hit : d.nDiskId = i + 1
    · have taken := taken_of_listed tracks bound (hit ▸ listed)
      simp [hit, due_append, old, taken, counterpart]
    · simp [hit, old]

/- Rules for the two scans. A withdrawal always finds a record with the id it looks for. -/
theorem probe_keeps {I : Registry → Prop} (keep : ∀ a n, n ∈ scanNames → I a → I (a.enter n))
    {a : Registry} (start : I a) (access : CStr → Bool) : I (a.probe access) := by
  unfold Registry.probe
  have names : ∀ n ∈ found access, n ∈ scanNames := fun n mem => (List.mem_filter.mp mem).1
  revert names
  induction found access generalizing a with
  | nil => exact fun _ => start
  | cons n rest ih =>
    intro names
    exact ih (keep a n (names n (by simp)) start) (fun m mem => names m (by simp [mem]))

theorem remove_keeps {I : Registry → Prop} {a : Registry} (access : CStr → Bool)
    (keep : ∀ b d, d ∈ gone access a.devs → 0 < carriers d.nDiskId b.devs → I b → I (b.withdraw d))
    (start : I a) : I (a.remove access) := by
  have fold : ∀ l b, (∀ d ∈ l, d ∈ gone access a.devs) →
      (∀ i, carriers i l ≤ carriers i b.devs) → I b → I (l.foldl Registry.withdraw b) := by
    intro l
    induction l with
    | nil => exact fun _ _ _ start => start
    | cons d rest ih =>
      intro b member covered start
      have count : ∀ i, carriers i (d :: rest) = carriers i [d] + carriers i rest :=
        fun i => carriers_append i [d] rest
      have listed : 0 < carriers d.nDiskId b.devs := by
        have := covered d.nDiskId
        simp only [count, carriers_single, ↓reduceIte] at this
        omega
      apply ih (b.withdraw d) (fun e mem => member e (by simp [mem]))
      · intro i
        have before := covered i
        simp only [count, carriers_single] at before
        simp only [Registry.withdraw, carriers_erase]
        by_cases same : i = d.nDiskId
        · simp only [same, ↓reduceIte] at before ⊢
          omega
        · simp only [same, Ne.symm same, ↓reduceIte] at before ⊢
          omega
      · exact keep b d (member d (by simp)) listed start
  exact fold _ a (fun _ mem => mem) (fun i => List.Sublist.countP_le List.filter_sublist) start

theorem tracks_step {a : Registry} (tracks : Tracks a) (op : DevOp) : Tracks (a.step op) := by
  cases op with
  | probe access =>
    exact probe_keeps (I := Tracks) (fun _ n _ old => tracks_enter old n) tracks access
  | remove access =>
    exact remove_keeps access (fun _ _ _ listed old => tracks_withdraw old listed) tracks

theorem tracks_empty : Tracks Registry.empty :=
  ⟨by simp [Registry.empty], fun _ _ => rfl, fun _ _ => trivial, fun _ _ => rfl⟩

theorem tracks_run (ops : List DevOp) : Tracks (ops.foldl Registry.step Registry.empty) := by
  have every : ∀ a, Tracks a → Tracks (ops.foldl Registry.step a) := by
    induction ops with
    | nil => exact fun a tracks => tracks
    | cons op ops ih => exact fun a tracks => ih _ (tracks_step tracks op)
  exact every _ tracks_empty

/-- Along every history the id table marks exactly the ids carried by one node, and no
    id of the table is carried by two. -/
theorem disk_id_table_agrees (ops : List DevOp) :
    ∃ s, Runs.exec devStep (DevState.init true) ops = some s ∧
      ∃ devs, s.Nodes devs ∧ ∀ i, 1 ≤ i → i ≤ 128 →
        (s.gDevID (i - 1) = true ↔ carriers i devs = 1) ∧ carriers i devs ≤ 1 := by
  obtain ⟨s, run, l, refines⟩ := run_refines ops
  refine ⟨s, run, _, ⟨l, refines.holds, refines.devs⟩, ?_⟩
  intro i low high
  have agree := (tracks_run ops).agree (i - 1) (by omega)
  rw [Nat.sub_add_cancel low] at agree
  rw [refines.used, agree]
  split <;> simp_all

/-- Along every history the messages of one id alternate, beginning with ADD, and end
    with ADD exactly when a node with that id is listed. -/
theorem announcements_alternate (ops : List DevOp) :
    ∃ s, Runs.exec devStep (DevState.init true) ops = some s ∧
      ∃ devs, s.Nodes devs ∧ ∀ i, 1 ≤ i → i ≤ 128 →
        Alternates .add (announced i s.queue) ∧
        ((announced i s.queue).getLast? = some .add ↔ ∃ d ∈ devs, d.nDiskId = i) := by
  obtain ⟨s, run, l, refines⟩ := run_refines ops
  refine ⟨s, run, _, ⟨l, refines.holds, refines.devs⟩, ?_⟩
  intro i low high
  have tracks := tracks_run ops
  have bound : i - 1 < 128 := by omega
  have speaks := tracks.speaks (i - 1) bound
  have expects := tracks.expects (i - 1) bound
  have agree := tracks.agree (i - 1) bound
  rw [Nat.sub_add_cancel low] at speaks expects agree
  rw [refines.sent]
  refine ⟨speaks, ?_⟩
  rw [alternates_last speaks, expects, ← carriers_pos, agree]
  split <;> simp

end TestSource
