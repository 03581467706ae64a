import Mathlib.Data.List.Perm.Basic

/-!
Tables of slots, each of which is free or holds a key. Writing to one slot adds its key
to the keys of the table, takes one away or leaves them as they are. A table is also a
partial map: a search finds the first slot that holds a key.
-/

namespace Slots

variable {α κ : Type} (key : α → Option κ)

def keys (table : List α) : List κ := table.filterMap key

variable {key} {table : List α} {i : Nat} {old new : α} {k : κ}

theorem mem_keys : k ∈ keys key table ↔ ∃ a ∈ table, key a = some k := List.mem_filterMap

theorem nodup_keys : (keys key table).Nodup ↔
    table.Pairwise fun a b => ∀ k, key a = some k → key b ≠ some k := by
  rw [keys, List.Nodup, List.pairwise_filterMap]
  constructor
  · intro h
    exact h.imp fun hab k ha hb => hab k ha k hb rfl
  · intro h
    refine h.imp fun hab k ha k' hb heq => ?_
    exact hab k ha (heq ▸ hb)

/-- The slots apart from one of them, and that one. -/
theorem keys_perm (h : table[i]? = some old) :
    (keys key table).Perm ((key old).toList ++ keys key (table.eraseIdx i)) ∧
    (keys key (table.set i new)).Perm ((key new).toList ++ keys key (table.eraseIdx i)) := by
  obtain ⟨hi, rfl⟩ := List.getElem?_eq_some_iff.mp h
  have cons (a : α) : (a :: table.eraseIdx i).filterMap key =
      (key a).toList ++ keys key (table.eraseIdx i) := by
    rw [List.filterMap_cons, keys]
    cases key a <;> rfl
  constructor
  · rw [← cons]
    exact ((List.getElem_cons_eraseIdx_perm hi).filterMap key).symm
  · rw [← cons]
    exact (List.set_perm_cons_eraseIdx hi new).filterMap key

theorem keys_occupy (h : table[i]? = some old) (free : key old = none) (holds : key new = some k) :
    (keys key (table.set i new)).Perm (k :: keys key table) := by
  obtain ⟨hold, hnew⟩ := @keys_perm _ _ key _ _ _ new h
  rw [free] at hold
  rw [holds] at hnew
  exact hnew.trans (hold.symm.cons k)

theorem keys_vacate (h : table[i]? = some old) (holds : key old = some k) (free : key new = none) :
    (keys key table).Perm (k :: keys key (table.set i new)) := by
  obtain ⟨hold, hnew⟩ := @keys_perm _ _ key _ _ _ new h
  rw [holds] at hold
  rw [free] at hnew
  exact hold.trans (hnew.symm.cons k)

theorem keys_keep (h : table[i]? = some old) (same : key new = key old) :
    (keys key (table.set i new)).Perm (keys key table) := by
  obtain ⟨hold, hnew⟩ := @keys_perm _ _ key _ _ _ new h
  rw [same] at hnew
  exact hnew.trans hold.symm

theorem keys_full (full : ∀ a ∈ table, (key a).isSome) :
    (keys key table).length = table.length := by
  rw [keys, List.length_filterMap_eq_countP, List.countP_eq_length]
  exact full

section Lookup

variable [DecidableEq κ]

def slotOf (key : α → Option κ) (table : List α) (k : κ) : Option α :=
  table.find? fun a => key a = some k

theorem slotOf_eq_none : slotOf key table k = none ↔ k ∉ keys key table := by
  simp [slotOf, List.find?_eq_none, mem_keys]

theorem slotOf_mem (h : slotOf key table k = some old) : old ∈ table ∧ key old = some k :=
  ⟨List.mem_of_find?_eq_some h, by simpa using List.find?_some h⟩

theorem slotOf_set_other (h : table[i]? = some old) (hold : key old ≠ some k)
    (hnew : key new ≠ some k) : slotOf key (table.set i new) k = slotOf key table k := by
  induction table generalizing i with
  | nil => rfl
  | cons a table ih =>
      cases i with
      | zero =>
          cases h
          simp [slotOf, hold, hnew]
      | succ i =>
          have := ih h
          rw [slotOf, slotOf] at *
          rw [List.set_cons_succ, List.find?_cons, List.find?_cons, this]

theorem slotOf_set_self (h : table[i]? = some old) (hnew : key new = some k)
    (before : ∀ j < i, ∀ a, table[j]? = some a → key a ≠ some k) :
    slotOf key (table.set i new) k = some new := by
  have hi := (List.getElem?_eq_some_iff.mp h).1
  rw [slotOf, List.find?_eq_some_iff_getElem]
  refine ⟨by simpa using hnew, i, by simpa using hi, List.getElem_set_self _, fun j hj => ?_⟩
  have hlt : j < table.length := Nat.lt_trans hj hi
  rw [List.getElem_set_ne (by omega)]
  simpa using before j hj _ (List.getElem?_eq_getElem hlt)

theorem slotOf_occupy (h : table[i]? = some old) (absent : slotOf key table k = none)
    (hnew : key new = some k) : slotOf key (table.set i new) k = some new := by
  refine slotOf_set_self h hnew fun j _ a ha hk => ?_
  exact slotOf_eq_none.mp absent (mem_keys.mpr ⟨a, List.mem_of_getElem? ha, hk⟩)

theorem slotOf_of_findIdx (h : table.findIdx? (fun a => key a = some k) = some i) :
    ∃ a, table[i]? = some a ∧ slotOf key table k = some a ∧
      ∀ j < i, ∀ b, table[j]? = some b → key b ≠ some k := by
  obtain ⟨hi, hslot, hbefore⟩ := List.findIdx?_eq_some_iff_getElem.mp h
  have hbefore' : ∀ j < i, ∀ b, table[j]? = some b → key b ≠ some k := by
    intro j hj b hb
    obtain ⟨hlt, rfl⟩ := List.getElem?_eq_some_iff.mp hb
    simpa using hbefore j hj
  refine ⟨table[i], List.getElem?_eq_getElem hi, ?_, hbefore'⟩
  rw [slotOf, List.find?_eq_some_iff_getElem]
  exact ⟨hslot, i, hi, rfl, fun j hj => by simpa using hbefore j hj⟩

end Lookup

end Slots
