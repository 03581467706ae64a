import Mathlib.Data.List.Basic

/-!
Outcomes of a C call that may fail to return. A run is stuck when it touches
memory that is not there, or when a loop never leaves its body; every other call
returns a value. Nothing here knows which program is being run.
-/

namespace Outcome

/-- The two ways in which a call does not return. -/
inductive Stuck where
  | fault
  | hang
deriving DecidableEq, Repr

abbrev Run (α : Type) := Except Stuck α

namespace Run

variable {α β : Type}

@[simp] theorem bind_ok (a : α) (f : α → Run β) :
    ((Except.ok a : Run α) >>= f) = f a := rfl

@[simp] theorem bind_error (e : Stuck) (f : α → Run β) :
    ((Except.error e : Run α) >>= f) = Except.error e := rfl

@[simp] theorem pure_eq_ok (a : α) : (pure a : Run α) = Except.ok a := rfl

theorem ok_ne_error (a : α) (e : Stuck) : (Except.ok a : Run α) ≠ Except.error e := by
  intro h
  cases h

/-- A sequence returns exactly when both of its parts do. -/
theorem bind_eq_ok {x : Run α} {f : α → Run β} {b : β} :
    (x >>= f) = Except.ok b ↔ ∃ a, x = Except.ok a ∧ f a = Except.ok b := by
  cases x with
  | error e => simp
  | ok a => simp

theorem bind_eq_error {x : Run α} {f : α → Run β} {e : Stuck} :
    (x >>= f) = Except.error e ↔ x = Except.error e ∨ ∃ a, x = Except.ok a ∧
      f a = Except.error e := by
  cases x with
  | error e => simp
  | ok a => simp

def Returns (x : Run α) : Prop := ∃ a, x = Except.ok a

@[simp] theorem returns_ok (a : α) : Returns (Except.ok a : Run α) := ⟨a, rfl⟩

@[simp] theorem not_returns_error (e : Stuck) : ¬ Returns (Except.error e : Run α) := by
  rintro ⟨a, ha⟩
  cases ha

theorem returns_bind {x : Run α} {f : α → Run β} :
    Returns (x >>= f) ↔ ∃ a, x = Except.ok a ∧ Returns (f a) := by
  constructor
  · rintro ⟨b, hb⟩
    obtain ⟨a, ha, hf⟩ := bind_eq_ok.mp hb
    exact ⟨a, ha, b, hf⟩
  · rintro ⟨a, ha, b, hf⟩
    exact ⟨b, bind_eq_ok.mpr ⟨a, ha, hf⟩⟩

instance decidableReturns (x : Run α) : Decidable (Returns x) :=
  match x with
  | .ok a => isTrue ⟨a, rfl⟩
  | .error e => isFalse (not_returns_error e)

end Run
end Outcome
