import Mathlib.Data.List.Dedup
import Mathlib.Order.Lattice

/-!
Milestones on a clock that does not go back. The clock passes each of them once, so what
happens only when a new one has been passed happens at most as often as there are
different milestones.
-/

namespace Milestones

variable {τ : Type} [LinearOrder τ]

/-- The last reading of the clock has passed the milestone; before the first reading none
has been passed. -/
def isPassed (last : Option τ) (m : τ) : Bool := last.any (m ≤ ·)

def passed (marks : List τ) (last : Option τ) : Nat := marks.dedup.countP (isPassed last)

variable {marks : List τ} {last : Option τ} {m now : τ}

@[simp] theorem isPassed_some : isPassed (some now) m = true ↔ m ≤ now := decide_eq_true_iff

theorem passed_le (marks : List τ) (last : Option τ) : passed marks last ≤ marks.dedup.length :=
  List.countP_le_length

theorem isPassed_later (order : ∀ t ∈ last, t ≤ now) (h : isPassed last m = true) :
    isPassed (some now) m = true := by
  cases last with
  | none => cases h
  | some t => exact isPassed_some.mpr (le_trans (isPassed_some.mp h) (order t rfl))

theorem passed_mono (order : ∀ t ∈ last, t ≤ now) : passed marks last ≤ passed marks (some now) :=
  List.countP_mono_left fun _ _ => isPassed_later order

/-- A milestone that the reading passes for the first time counts. -/
theorem passed_lt (order : ∀ t ∈ last, t ≤ now) (hmem : m ∈ marks) (reached : m ≤ now)
    (new : isPassed last m = false) : passed marks last < passed marks (some now) := by
  obtain ⟨before, after, hsplit⟩ := List.append_of_mem (List.mem_dedup.mpr hmem)
  have hbefore : before.countP (isPassed last) ≤ before.countP (isPassed (some now)) :=
    List.countP_mono_left fun _ _ => isPassed_later order
  have hafter : after.countP (isPassed last) ≤ after.countP (isPassed (some now)) :=
    List.countP_mono_left fun _ _ => isPassed_later order
  rw [passed, passed, hsplit, List.countP_append, List.countP_append,
    List.countP_cons_of_neg (by rw [new]; exact Bool.false_ne_true),
    List.countP_cons_of_pos (isPassed_some.mpr reached)]
  omega

end Milestones
