import Mathlib.Data.List.DropRight

/-!
Logs that some of their records cut into spans. A property of the span that is open at
every moment of the log holds of every part of the log without a cut, if it is inherited
by the later part of a span.
-/

namespace Spans

variable {ρ : Type} (cuts : ρ → Bool)

def openSpan (log : List ρ) : List ρ := log.rtakeWhile fun r => !cuts r

/-- The property holds of the open span at every moment of the log. -/
def Always (P : List ρ → Prop) (log : List ρ) : Prop :=
  ∀ past, past <+: log → P (openSpan cuts past)

variable {cuts} {P : List ρ → Prop} {log front span back : List ρ} {r : ρ}

theorem openSpan_nil : openSpan cuts [] = [] := List.rtakeWhile_nil _

theorem openSpan_concat (h : cuts r = false) :
    openSpan cuts (log ++ [r]) = openSpan cuts log ++ [r] :=
  List.rtakeWhile_concat_pos _ _ _ (by simpa using h)

theorem openSpan_cut (h : cuts r = true) : openSpan cuts (log ++ [r]) = [] :=
  List.rtakeWhile_concat_neg _ _ _ (by simpa using h)

theorem suffix_openSpan (uncut : ∀ r ∈ span, cuts r = false) :
    span <:+ openSpan cuts (front ++ span) := by
  induction span using List.reverseRecOn with
  | nil => exact List.nil_suffix
  | append_singleton span r ih =>
      have hlast : cuts r = false := uncut r (by simp)
      obtain ⟨earlier, h⟩ := ih fun r hr => uncut r (List.mem_append_left _ hr)
      refine ⟨earlier, ?_⟩
      rw [← List.append_assoc, ← List.append_assoc, openSpan_concat hlast, h]

theorem always_nil (h : P []) : Always cuts P [] := by
  intro past hpast
  rw [List.prefix_nil.mp hpast, openSpan_nil]
  exact h

theorem Always.concat (h : Always cuts P log) (hlast : P (openSpan cuts (log ++ [r]))) :
    Always cuts P (log ++ [r]) := by
  intro past hpast
  rcases List.prefix_concat_iff.mp hpast with rfl | hpast
  · exact hlast
  · exact h past hpast

theorem Always.uncut (h : Always cuts P log) (inherited : ∀ l l', l <:+ l' → P l' → P l)
    (hlog : log = front ++ span ++ back) (huncut : ∀ r ∈ span, cuts r = false) : P span := by
  apply inherited _ _ (@suffix_openSpan _ _ front _ huncut)
  exact h _ ⟨back, hlog.symm⟩

end Spans
