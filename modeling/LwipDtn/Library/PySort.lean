import Mathlib.Data.List.Sort
import Mathlib.Data.List.Induction

/-!
`list.sort` of Python with a comparison that is written by hand. The comparison is only
ever asked whether a new element goes before an old one, so an element moves in front of
the elements it ties with when the comparison answers yes on a tie.
-/

namespace PySort

variable {α : Type} (lt : α → α → Bool)

/-- Insertion of the elements one after the other, each before the first element that it
is less than. -/
def sort (l : List α) : List α := l.foldl (fun sorted a => sorted.orderedInsert (lt · ·) a) []

variable {lt}

theorem sort_concat (l : List α) (a : α) :
    sort lt (l ++ [a]) = (sort lt l).orderedInsert (lt · ·) a := by
  simp [sort, List.foldl_append]

theorem sort_perm (l : List α) : (sort lt l).Perm l := by
  induction l using List.reverseRecOn with
  | nil => exact .refl _
  | append_singleton l a ih =>
      rw [sort_concat]
      refine (List.perm_orderedInsert _ a _).trans ?_
      exact (ih.cons a).trans (List.perm_append_singleton a l).symm

theorem mem_sort {l : List α} {a : α} : a ∈ sort lt l ↔ a ∈ l := (sort_perm l).mem_iff

theorem sort_pairwise (total : ∀ a b, lt a b = true ∨ lt b a = true)
    (trans : ∀ a b c, lt a b = true → lt b c = true → lt a c = true) (l : List α) :
    (sort lt l).Pairwise (lt · · = true) := by
  have : Std.Total (fun a b : α => lt a b = true) := ⟨total⟩
  have : IsTrans α (fun a b : α => lt a b = true) := ⟨trans⟩
  induction l using List.reverseRecOn with
  | nil => exact .nil
  | append_singleton l a ih =>
      rw [sort_concat]
      exact ih.orderedInsert a _

/-- The first element of the result is the last one among the least elements. -/
theorem sort_head (total : ∀ a b, lt a b = true ∨ lt b a = true)
    (trans : ∀ a b c, lt a b = true → lt b c = true → lt a c = true) {l rest : List α} {b : α}
    (h : sort lt l = b :: rest) :
    (∀ a ∈ l, lt b a = true) ∧ ∃ before after, l = before ++ b :: after ∧
      ∀ a ∈ after, lt a b = false := by
  have refl (a : α) : lt a a = true := (total a a).elim id id
  induction l using List.reverseRecOn generalizing b rest with
  | nil => cases h
  | append_singleton l a ih =>
      rw [sort_concat] at h
      cases hsort : sort lt l with
      | nil =>
          have hnil : l = [] := by
            have := @sort_perm _ lt l
            rw [hsort] at this
            exact this.nil_eq.symm
          subst hnil
          rw [hsort, List.orderedInsert] at h
          cases h
          exact ⟨by simpa using refl _, [], [], rfl, nofun⟩
      | cons c cs =>
          obtain ⟨hleast, before, after, hsplit, hafter⟩ := ih hsort
          rw [hsort, List.orderedInsert_cons] at h
          split at h
          · rename_i hac
            cases h
            refine ⟨fun d hd => ?_, l, [], rfl, nofun⟩
            rcases List.mem_append.mp hd with hd | hd
            · exact trans _ _ _ hac (hleast d hd)
            · cases List.mem_singleton.mp hd
              exact refl _
          · rename_i hac
            cases h
            refine ⟨fun d hd => ?_, before, after ++ [a], by simp [hsplit], fun d hd => ?_⟩
            · rcases List.mem_append.mp hd with hd | hd
              · exact hleast d hd
              · cases List.mem_singleton.mp hd
                exact (total _ _).resolve_left hac
            · rcases List.mem_append.mp hd with hd | hd
              · exact hafter d hd
              · cases List.mem_singleton.mp hd
                exact Bool.eq_false_iff.mpr hac

end PySort
