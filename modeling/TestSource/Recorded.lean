import Mathlib.Tactic.Common

/- Computations that record what they do on the way and may stop without a value. A property
   of all that is recorded goes through a sequence step by step. -/

structure Recorded (ε α : Type) where
  events : List ε
  value : Option α

namespace Recorded
variable {ε α β : Type}

def pure (a : α) : Recorded ε α := ⟨[], some a⟩

def bind (t : Recorded ε α) (f : α → Recorded ε β) : Recorded ε β :=
  match t.value with
  | none => ⟨t.events, none⟩
  | some a => ⟨t.events ++ (f a).events, (f a).value⟩

instance : Monad (Recorded ε) where
  pure := pure
  bind := bind

def record (e : ε) (value : Option α) : Recorded ε α := ⟨[e], value⟩

@[simp]
theorem value_pure (a : α) : (Pure.pure a : Recorded ε α).value = some a := rfl

@[simp]
theorem value_record (e : ε) (value : Option α) : (record e value).value = value := rfl

@[simp]
theorem value_bind (t : Recorded ε α) (f : α → Recorded ε β) :
    (t >>= f).value = t.value.bind fun a => (f a).value := by
  have shown : t >>= f = bind t f := rfl
  rw [shown, bind]
  cases t.value with
  | none => rfl
  | some a => rfl

theorem bind_pure (t : Recorded ε α) : t >>= Pure.pure = t := by
  obtain ⟨events, value⟩ := t
  have shown : (⟨events, value⟩ : Recorded ε α) >>= Pure.pure = bind ⟨events, value⟩ Pure.pure := rfl
  rw [shown, bind]
  cases value with
  | none => rfl
  | some a => exact congrArg (Recorded.mk · (some a)) (List.append_nil events)

def Holds (P : ε → Prop) (t : Recorded ε α) : Prop := ∀ e ∈ t.events, P e

variable {P : ε → Prop}

@[simp]
theorem holds_pure (a : α) : Holds P (Pure.pure a : Recorded ε α) := by
  intro e recorded
  cases recorded

@[simp]
theorem holds_record (e : ε) (value : Option α) : Holds P (record e value) ↔ P e := by
  simp [Holds, record]

theorem holds_bind (t : Recorded ε α) (f : α → Recorded ε β) :
    Holds P (t >>= f) ↔ Holds P t ∧ ∀ a, t.value = some a → Holds P (f a) := by
  have shown : t >>= f = bind t f := rfl
  rw [shown, bind]
  cases t.value with
  | none => simp [Holds]
  | some a => simp [Holds, or_imp, forall_and]

/-- The computation ends with the value, and all that it records has the property. -/
structure Gives (P : ε → Prop) (t : Recorded ε α) (a : α) : Prop where
  value : t.value = some a
  holds : Holds P t

theorem gives_pure (a : α) : Gives P (Pure.pure a : Recorded ε α) a := ⟨rfl, holds_pure a⟩

theorem gives_record {e : ε} (a : α) (here : P e) : Gives P (record e (some a)) a :=
  ⟨rfl, (holds_record e _).mpr here⟩

theorem holds_after {t : Recorded ε α} {f : α → Recorded ε β} {a : α} (first : Gives P t a) :
    Holds P (t >>= f) ↔ Holds P (f a) := by
  rw [holds_bind]
  constructor
  · intro both
    exact both.2 a first.value
  · intro rest
    refine ⟨first.holds, ?_⟩
    intro x same
    rw [first.value] at same
    cases same
    exact rest

theorem gives_bind {t : Recorded ε α} {f : α → Recorded ε β} {a : α} {b : β}
    (first : Gives P t a) (next : Gives P (f a) b) : Gives P (t >>= f) b := by
  constructor
  · rw [value_bind, first.value, Option.bind_some, next.value]
  · exact (holds_after first).mpr next.holds

end Recorded
