import Mathlib.Order.Bounds.Basic
import Mathlib.Order.Lattice
import Mathlib.Order.MinMax

/-!
The least value of a list as a loop finds it: the loop starts from a value that is meant
to be above all others and replaces it by every smaller one.
-/

namespace RunningMin

variable {α β : Type} [LinearOrder β] {f : α → β} {t top : β} {l : List α}

def runningMin (f : α → β) (top : β) (l : List α) : β :=
  l.foldl (fun m x => if f x < m then f x else m) top

@[simp] theorem runningMin_nil : runningMin f top [] = top := rfl

@[simp] theorem runningMin_cons (x : α) :
    runningMin f top (x :: l) = runningMin f (min top (f x)) l := by
  rw [runningMin, List.foldl_cons, ← min_def_lt, min_comm]
  rfl

theorem foldl_min_eq : l.foldl (fun m x => min m (f x)) top = runningMin f top l := by
  induction l generalizing top with
  | nil => rfl
  | cons x l ih => rw [List.foldl_cons, ih, runningMin_cons]

theorem le_runningMin : t ≤ runningMin f top l ↔ t ≤ top ∧ ∀ x ∈ l, t ≤ f x := by
  induction l generalizing top with
  | nil => simp
  | cons x l ih => rw [runningMin_cons, ih, le_min_iff, List.forall_mem_cons, and_assoc]

theorem lt_runningMin : t < runningMin f top l ↔ t < top ∧ ∀ x ∈ l, t < f x := by
  induction l generalizing top with
  | nil => simp
  | cons x l ih => rw [runningMin_cons, ih, lt_min_iff, List.forall_mem_cons, and_assoc]

theorem runningMin_le {x : α} (hx : x ∈ l) : runningMin f top l ≤ f x :=
  (le_runningMin.mp le_rfl).2 x hx

theorem runningMin_subset {l' : List α} (h : l ⊆ l') :
    runningMin f top l' ≤ runningMin f top l := by
  obtain ⟨htop, hall⟩ := le_runningMin.mp (le_refl (runningMin f top l'))
  exact le_runningMin.mpr ⟨htop, fun x hx => hall x (h hx)⟩

theorem runningMin_eq : runningMin f top l = top ∨ ∃ x ∈ l, f x = runningMin f top l := by
  induction l generalizing top with
  | nil => exact .inl rfl
  | cons x l ih =>
      rw [runningMin_cons]
      obtain htop | ⟨y, hy, heq⟩ := @ih (min top (f x))
      · rw [htop]
        rcases min_choice top (f x) with hmin | hmin
        · exact .inl hmin
        · exact .inr ⟨x, List.mem_cons_self, hmin.symm⟩
      · exact .inr ⟨y, List.mem_cons_of_mem _ hy, heq⟩

/-- If some value is not above the start then the loop finds the least one. -/
theorem isLeast_runningMin (below : ∃ x ∈ l, f x ≤ top) :
    IsLeast {v | ∃ x ∈ l, f x = v} (runningMin f top l) := by
  refine ⟨?_, ?_⟩
  · obtain htop | hmem := @runningMin_eq _ _ _ f top l
    · obtain ⟨x, hx, hle⟩ := below
      exact ⟨x, hx, le_antisymm (hle.trans_eq htop.symm) (runningMin_le hx)⟩
    · exact hmem
  · rintro v ⟨x, hx, rfl⟩
    exact runningMin_le hx

end RunningMin
