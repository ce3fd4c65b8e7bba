import Mathlib.Tactic.Common

/- Runs of a partial step function. A step that faults or is not enabled gives no
   successor; the rules below turn facts about one step into facts about runs. -/
namespace Runs
variable {σ ε τ : Type}

def exec (step : σ → ε → Option σ) : σ → List ε → Option σ
  | s, [] => some s
  | s, e :: rest => (step s e).bind fun t => exec step t rest

/-- Every event of the run meets the condition in the state it is taken from. -/
def Meets (step : σ → ε → Option σ) (cond : σ → ε → Prop) : σ → List ε → Prop
  | _, [] => True
  | s, e :: rest => cond s e ∧ ∀ t, step s e = some t → Meets step cond t rest

def Always (step : σ → ε → Option σ) (P : σ → Prop) : σ → List ε → Prop
  | s, [] => P s
  | s, e :: rest => P s ∧ ∀ t, step s e = some t → Always step P t rest

section Rules
variable {step : σ → ε → Option σ}

theorem meets_cons {cond : σ → ε → Prop} {s t : σ} {e : ε} {es : List ε} (met : cond s e)
    (first : step s e = some t) (rest : Meets step cond t es) : Meets step cond s (e :: es) := by
  refine ⟨met, ?_⟩
  intro u taken
  rw [first] at taken
  cases taken
  exact rest

theorem exec_append (s : σ) (l m : List ε) :
    exec step s (l ++ m) = (exec step s l).bind fun t => exec step t m := by
  induction l generalizing s with
  | nil => rfl
  | cons e l ih =>
    simp only [List.cons_append, exec]
    cases step s e with
    | none => rfl
    | some t => exact ih t

theorem exec_map {φ : Type} (f : φ → ε) (s : σ) (es : List φ) :
    exec step s (es.map f) = exec (fun s e => step s (f e)) s es := by
  induction es generalizing s with
  | nil => rfl
  | cons e es ih =>
    simp only [List.map_cons, exec]
    cases step s (f e) with
    | none => rfl
    | some t => exact ih t

/-- Invariant rule: a run whose steps all meet the condition does not fault and has the
    property throughout. -/
theorem meets_always {I P : σ → Prop} {cond : σ → ε → Prop} (holds : ∀ s, I s → P s)
    (keep : ∀ s e, I s → cond s e → ∃ t, step s e = some t ∧ I t)
    {s : σ} (start : I s) {es : List ε} (meets : Meets step cond s es) :
    (∃ t, exec step s es = some t) ∧ Always step P s es := by
  induction es generalizing s with
  | nil => exact ⟨⟨s, rfl⟩, holds s start⟩
  | cons e es ih =>
    obtain ⟨u, first, next⟩ := keep s e start meets.1
    obtain ⟨⟨t, rest⟩, always⟩ := ih next (meets.2 u first)
    refine ⟨⟨t, by simp [exec, first, rest]⟩, holds s start, ?_⟩
    intro v step
    rw [first] at step
    cases step
    exact always

/-- Simulation rule: a relation kept by every step carries a run of a total abstract
    step function to a fault-free run of the concrete one. -/
theorem exec_simulates (legal : ε → Prop) {astep : τ → ε → τ} {R : σ → τ → Prop}
    (sim : ∀ s a e, legal e → R s a → ∃ t, step s e = some t ∧ R t (astep a e))
    {s : σ} {a : τ} {es : List ε} (all : ∀ e ∈ es, legal e) (start : R s a) :
    ∃ t, exec step s es = some t ∧ R t (es.foldl astep a) := by
  induction es generalizing s a with
  | nil => exact ⟨s, rfl, start⟩
  | cons e es ih =>
    obtain ⟨u, first, related⟩ := sim s a e (all e (by simp)) start
    obtain ⟨t, rest, done⟩ := ih (fun e mem => all e (by simp [mem])) related
    exact ⟨t, by simp [exec, first, rest], done⟩

/-- Expansion rule: when every legal step is a run of finer steps that keeps a relation,
    so is every legal run. -/
theorem exec_expands {φ : Type} (fine : τ → φ → Option τ) (legal : ε → Prop) {R : σ → τ → Prop}
    (expand : ∀ s t a e, legal e → R s a → step s e = some t →
      ∃ fs b, exec fine a fs = some b ∧ R t b)
    {s t : σ} {a : τ} {es : List ε} (all : ∀ e ∈ es, legal e) (start : R s a)
    (run : exec step s es = some t) : ∃ fs b, exec fine a fs = some b ∧ R t b := by
  induction es generalizing s a with
  | nil =>
    cases run
    exact ⟨[], a, rfl, start⟩
  | cons e es ih =>
    obtain ⟨u, first, rest⟩ := Option.bind_eq_some_iff.mp run
    obtain ⟨fs, b, moves, related⟩ := expand s u a e (all e (by simp)) start first
    obtain ⟨gs, c, more, done⟩ := ih (fun x mem => all x (by simp [mem])) related rest
    refine ⟨fs ++ gs, c, ?_, done⟩
    rw [exec_append, moves]
    exact more

def labels {φ : Type} (step : σ → ε → Option σ) (visible : σ → ε → Option φ) : σ → List ε → List φ
  | _, [] => []
  | s, e :: es =>
      (visible s e).toList ++ match step s e with
        | none => []
        | some t => labels step visible t es

theorem exec_labels {φ : Type} {visible : σ → ε → Option φ} (legal : ε → Prop) {astep : τ → φ → τ}
    {R : σ → τ → Prop}
    (keeps : ∀ s t a e, legal e → R s a → step s e = some t →
      R t ((visible s e).toList.foldl astep a))
    {s t : σ} {a : τ} {es : List ε} (all : ∀ e ∈ es, legal e) (start : R s a)
    (run : exec step s es = some t) : R t ((labels step visible s es).foldl astep a) := by
  induction es generalizing s a with
  | nil =>
    cases run
    exact start
  | cons e es ih =>
    obtain ⟨u, first, rest⟩ := Option.bind_eq_some_iff.mp run
    have next := keeps s u a e (all e (by simp)) start first
    rw [labels, first, List.foldl_append]
    exact ih (fun x mem => all x (by simp [mem])) next rest

theorem always_append {P : σ → Prop} {s t : σ} {l m : List ε} (always : Always step P s (l ++ m))
    (run : exec step s l = some t) : Always step P t m := by
  induction l generalizing s with
  | nil =>
    cases run
    exact always
  | cons e l ih =>
    obtain ⟨u, first, rest⟩ := Option.bind_eq_some_iff.mp run
    exact ih (always.2 u first) rest

theorem always_iff_prefixes {P : σ → Prop} {s : σ} {es : List ε} :
    Always step P s es ↔ ∀ p t, p <+: es → exec step s p = some t → P t := by
  induction es generalizing s with
  | nil =>
    constructor
    · intro always p t part run
      rw [List.prefix_nil.mp part] at run
      cases run
      exact always
    · intro every
      exact every [] s (List.prefix_refl _) rfl
  | cons e es ih =>
    constructor
    · rintro ⟨here, later⟩ p t part run
      cases p with
      | nil =>
        cases run
        exact here
      | cons f q =>
        obtain ⟨rfl, rest⟩ := List.cons_prefix_cons.mp part
        obtain ⟨u, first, next⟩ := Option.bind_eq_some_iff.mp run
        exact ih.mp (later u first) q t rest next
    · intro every
      refine ⟨every [] s List.nil_prefix rfl, ?_⟩
      intro u first
      apply ih.mpr
      intro q t part run
      exact every (e :: q) t (List.cons_prefix_cons.mpr ⟨rfl, part⟩) (by simp [exec, first, run])

theorem meets_iff_prefixes {cond : σ → ε → Prop} {s : σ} {es : List ε} :
    Meets step cond s es ↔ ∀ p e t, p ++ [e] <+: es → exec step s p = some t → cond t e := by
  induction es generalizing s with
  | nil => simp [Meets]
  | cons e es ih =>
    constructor
    · rintro ⟨here, later⟩ p f t part run
      cases p with
      | nil =>
        cases run
        rw [(List.cons_prefix_cons.mp part).1]
        exact here
      | cons g q =>
        obtain ⟨rfl, rest⟩ := List.cons_prefix_cons.mp part
        obtain ⟨u, first, next⟩ := Option.bind_eq_some_iff.mp run
        exact ih.mp (later u first) q f t rest next
    · intro every
      refine ⟨every [] e s (List.cons_prefix_cons.mpr ⟨rfl, List.nil_prefix⟩) rfl, ?_⟩
      intro u first
      apply ih.mpr
      intro q f t part run
      exact every (e :: q) f t (List.cons_prefix_cons.mpr ⟨rfl, part⟩) (by simp [exec, first, run])

/-- Exactness rule: when a legal step from an invariant state keeps the invariant if it
    meets the condition and breaks the property if it does not, the property holds along a
    legal run exactly when every step meets the condition. -/
theorem always_iff_meets_on (legal : ε → Prop) {I P : σ → Prop} {cond : σ → ε → Prop}
    (holds : ∀ s, I s → P s)
    (keep : ∀ s e, legal e → I s → cond s e → ∃ t, step s e = some t ∧ I t)
    (broken : ∀ s e, legal e → I s → ¬ cond s e → ∃ t, step s e = some t ∧ ¬ P t)
    {s : σ} (start : I s) {es : List ε} (all : ∀ e ∈ es, legal e) :
    Always step P s es ↔ Meets step cond s es := by
  induction es generalizing s with
  | nil => simp [Always, Meets, holds s start]
  | cons e es ih =>
    simp only [Always, Meets, holds s start, true_and]
    have first := all e (by simp)
    have rest : ∀ e ∈ es, legal e := fun x mem => all x (by simp [mem])
    by_cases met : cond s e
    · obtain ⟨t, taken, inv⟩ := keep s e first start met
      simp [met, taken, ih inv rest]
    · obtain ⟨t, taken, bad⟩ := broken s e first start met
      simp only [met, false_and, iff_false, taken, Option.some.injEq, forall_eq']
      intro always
      cases es with
      | nil => exact bad always
      | cons e es => exact bad always.1

theorem always_iff_meets {I P : σ → Prop} {cond : σ → ε → Prop}
    (holds : ∀ s, I s → P s)
    (keep : ∀ s e, I s → cond s e → ∃ t, step s e = some t ∧ I t)
    (broken : ∀ s e, I s → ¬ cond s e → ∃ t, step s e = some t ∧ ¬ P t)
    {s : σ} (start : I s) (es : List ε) : Always step P s es ↔ Meets step cond s es :=
  always_iff_meets_on (fun _ => True) holds (fun s e _ => keep s e) (fun s e _ => broken s e) start
    fun _ _ => trivial

theorem always_kept {I P : σ → Prop} (holds : ∀ s, I s → P s)
    (keep : ∀ s e t, I s → step s e = some t → I t) {s : σ} (start : I s) (es : List ε) :
    Always step P s es := by
  induction es generalizing s with
  | nil => exact holds s start
  | cons e es ih =>
    refine ⟨holds s start, ?_⟩
    intro t taken
    exact ih (keep s e t start taken)

theorem always_iff_meets_run {I P : σ → Prop} {cond : σ → ε → Prop} (holds : ∀ s, I s → P s)
    (keep : ∀ s e t, I s → step s e = some t → cond s e → I t)
    (broken : ∀ s e t, I s → step s e = some t → ¬ cond s e → ¬ P t)
    {s t : σ} (start : I s) {es : List ε} (run : exec step s es = some t) :
    Always step P s es ↔ Meets step cond s es := by
  induction es generalizing s with
  | nil => simp [Always, Meets, holds s start]
  | cons e es ih =>
    obtain ⟨u, taken, rest⟩ := Option.bind_eq_some_iff.mp run
    simp only [Always, Meets, holds s start, true_and, taken, Option.some.injEq, forall_eq']
    by_cases met : cond s e
    · simp [met, ih (keep s e u start taken met) rest]
    · have bad := broken s e u start taken met
      simp only [met, false_and, iff_false]
      intro always
      cases es with
      | nil => exact bad always
      | cons e es => exact bad always.1

theorem meets_at {cond : σ → ε → Prop} {s t : σ} {l m : List ε} {e : ε}
    (meets : Meets step cond s (l ++ e :: m)) (run : exec step s l = some t) : cond t e := by
  induction l generalizing s with
  | nil =>
    cases run
    exact meets.1
  | cons f l ih =>
    obtain ⟨u, first, rest⟩ := Option.bind_eq_some_iff.mp run
    exact ih (meets.2 u first) rest

theorem meets_iff_meets {I : σ → Prop} {cond other : σ → ε → Prop}
    (agree : ∀ s e, I s → (cond s e ↔ other s e))
    (keep : ∀ s e t, I s → step s e = some t → I t) {s : σ} (start : I s) (es : List ε) :
    Meets step cond s es ↔ Meets step other s es := by
  induction es generalizing s with
  | nil => exact Iff.rfl
  | cons e es ih =>
    have later : (∀ t, step s e = some t → Meets step cond t es) ↔
        ∀ t, step s e = some t → Meets step other t es := by
      constructor
      · intro meets t taken
        exact (ih (keep s e t start taken)).mp (meets t taken)
      · intro meets t taken
        exact (ih (keep s e t start taken)).mpr (meets t taken)
    simp only [Meets, agree s e start, later]

theorem meets_legal {legal : ε → Prop} {cond : σ → ε → Prop} {s : σ} {es : List ε}
    (all : ∀ e ∈ es, legal e) (meets : Meets step cond s es) :
    Meets step (fun s e => legal e ∧ cond s e) s es := by
  induction es generalizing s with
  | nil => trivial
  | cons e es ih =>
    refine ⟨⟨all e (by simp), meets.1⟩, ?_⟩
    intro t taken
    exact ih (fun x mem => all x (by simp [mem])) (meets.2 t taken)

end Rules
end Runs
