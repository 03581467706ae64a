import LwipDtn.Library.Outcome
import Mathlib.Data.List.Perm.Basic

/-!
Queues of bounded length whose elements leave in the order of a search from the
front: new elements enter at the tail, and one element at a time is taken out, the
first that a test accepts. The search is given as the usual walk over a singly
linked list with a pointer to the previous node.
-/

namespace BoundedFifo
open Outcome

variable {α β : Type}

/-- `rest` is `items` without `a`, which is the first element with the property. -/
def TakesFirst (P : α → Prop) (items : List α) (a : α) (rest : List α) : Prop :=
  ∃ front back, items = front ++ a :: back ∧ rest = front ++ back ∧ P a ∧ ∀ b ∈ front, ¬ P b

/-- `rest` is `items` without one occurrence of `a`. -/
def Takes (items : List α) (a : α) (rest : List α) : Prop :=
  ∃ front back, items = front ++ a :: back ∧ rest = front ++ back

/-- `rest` is `items`, or `items` without one of its elements. -/
def LosesAtMostOne (items rest : List α) : Prop :=
  rest = items ∨ ∃ front a back, items = front ++ a :: back ∧ rest = front ++ back

theorem TakesFirst.losesAtMostOne {P : α → Prop} {items rest : List α} {a : α}
    (h : TakesFirst P items a rest) : LosesAtMostOne items rest := by
  obtain ⟨front, back, hi, hr, -⟩ := h
  exact .inr ⟨front, a, back, hi, hr⟩

theorem TakesFirst.length {P : α → Prop} {items rest : List α} {a : α}
    (h : TakesFirst P items a rest) : items.length = rest.length + 1 := by
  obtain ⟨front, back, rfl, rfl, -⟩ := h
  simp only [List.length_append, List.length_cons]
  omega

theorem TakesFirst.holds {P : α → Prop} {items rest : List α} {a : α}
    (h : TakesFirst P items a rest) : P a := by
  obtain ⟨_, _, -, -, ha, -⟩ := h
  exact ha

theorem TakesFirst.mem {P : α → Prop} {items rest : List α} {a : α}
    (h : TakesFirst P items a rest) : a ∈ items := by
  obtain ⟨front, back, rfl, -⟩ := h
  simp

theorem TakesFirst.sublist {P : α → Prop} {items rest : List α} {a : α}
    (h : TakesFirst P items a rest) : rest.Sublist items := by
  obtain ⟨front, back, rfl, rfl, -⟩ := h
  exact (List.Sublist.refl front).append (List.sublist_cons_self a back)

theorem Takes.perm {items rest : List α} {a : α} (h : Takes items a rest) :
    items.Perm (a :: rest) := by
  obtain ⟨front, back, rfl, rfl⟩ := h
  exact List.perm_middle

theorem TakesFirst.takes {P : α → Prop} {items rest : List α} {a : α}
    (h : TakesFirst P items a rest) : Takes items a rest := by
  obtain ⟨front, back, hi, hr, -⟩ := h
  exact ⟨front, back, hi, hr⟩

theorem TakesFirst.perm {P : α → Prop} {items rest : List α} {a : α}
    (h : TakesFirst P items a rest) : items.Perm (a :: rest) := h.takes.perm

/-- What is taken is not behind an element with the property. -/
theorem TakesFirst.upTo {P : α → Prop} {seen later rest : List α} {e a : α}
    (h : TakesFirst P (seen ++ e :: later) a rest) (he : P e) :
    ∃ left, TakesFirst P (seen ++ [e]) a left ∧ rest = left ++ later := by
  obtain ⟨front, back, hitems, rfl, ha, hfront⟩ := h
  rw [List.append_cons seen e later, List.append_cons front a back] at hitems
  obtain ⟨between, hlong, hlater⟩ | ⟨between, hseen, hback⟩ := List.append_eq_append_iff.mp hitems
  · cases between with
    | nil =>
        rw [List.append_nil] at hlong
        rw [List.nil_append] at hlater
        exact ⟨front, ⟨front, [], by rw [← hlong], by simp, ha, hfront⟩, by rw [hlater]⟩
    | cons b between =>
        -- then the element would be in front of the first one with the property
        have hmem : e ∈ front := by
          have hpre := congrArg List.dropLast hlong
          rw [List.dropLast_concat, List.append_assoc, List.dropLast_append_of_ne_nil (by simp),
            List.singleton_append, List.dropLast_cons_of_ne_nil (by simp)] at hpre
          rw [hpre]
          simp
        exact absurd he (hfront e hmem)
  · refine ⟨front ++ between, ⟨front, between, ?_, rfl, ha, hfront⟩, ?_⟩
    · rw [hseen, List.append_assoc]
      rfl
    · rw [hback, List.append_assoc]

theorem TakesFirst.unique {P : α → Prop} {items rest rest' : List α} {a a' : α}
    (h : TakesFirst P items a rest) (h' : TakesFirst P items a' rest') : a = a' ∧ rest = rest' := by
  obtain ⟨front, back, rfl, rfl, ha, hfront⟩ := h
  obtain ⟨front', back', heq, rfl, ha', hfront'⟩ := h'
  induction front generalizing front' with
  | nil =>
      cases front' with
      | nil =>
          cases heq
          exact ⟨rfl, rfl⟩
      | cons b front' =>
          cases heq
          exact absurd ha (hfront' _ List.mem_cons_self)
  | cons b front ih =>
      cases front' with
      | nil =>
          cases heq
          exact absurd ha' (hfront _ List.mem_cons_self)
      | cons b' front' =>
          obtain ⟨rfl, htail⟩ := List.cons.inj heq
          obtain ⟨rfl, hrest⟩ := ih (fun c hc => hfront c (List.mem_cons_of_mem _ hc)) front' htail
            fun c hc => hfront' c (List.mem_cons_of_mem _ hc)
          exact ⟨rfl, congrArg _ hrest⟩

theorem Takes.eraseIdx {items rest : List α} {a : α} (h : Takes items a rest) :
    ∃ i, items[i]? = some a ∧ items.eraseIdx i = rest := by
  obtain ⟨front, back, rfl, rfl⟩ := h
  exact ⟨front.length, by simp, by simp [List.eraseIdx_append]⟩

theorem eraseIdx_unique {items : List α} {i j : Nat} {a b : α} (hi : items[i]? = some a)
    (hj : items[j]? = some b) (h : items.eraseIdx i = items.eraseIdx j) : a = b := by
  obtain ⟨hlt, rfl⟩ := List.getElem?_eq_some_iff.mp hi
  obtain ⟨hlt', rfl⟩ := List.getElem?_eq_some_iff.mp hj
  have hperm : ([items[i]] ++ items.eraseIdx i).Perm ([items[j]] ++ items.eraseIdx i) :=
    (List.getElem_cons_eraseIdx_perm hlt).trans (h ▸ (List.getElem_cons_eraseIdx_perm hlt').symm)
  exact List.singleton_perm_singleton.mp ((List.perm_append_right_iff _).mp hperm)

theorem find_eraseIdx {test : α → Bool} {items : List α} {i : Nat} {a b : α}
    (h : items.find? test = some a) (hi : items[i]? = some b) (ne : b ≠ a) :
    (items.eraseIdx i).find? test = some a := by
  induction items generalizing i with
  | nil => cases h
  | cons c items ih =>
      cases i with
      | zero =>
          cases hi
          cases hb : test b with
          | false => rwa [List.find?_cons_of_neg (by simp [hb])] at h
          | true =>
              rw [List.find?_cons_of_pos hb] at h
              exact absurd (Option.some.inj h) ne
      | succ i =>
          rw [List.eraseIdx_cons_succ]
          cases hc : test c with
          | false =>
              rw [List.find?_cons_of_neg (by simp [hc])] at h ⊢
              exact ih h hi
          | true =>
              rw [List.find?_cons_of_pos hc] at h ⊢
              exact h

/-- The walk behind the removals: `prev` holds the nodes already passed, nearest
first, and the node that the test accepts is unlinked. -/
def unlinkFirst (test : α → Run Bool) : List α → List α → Run (Option (α × List α))
  | _, [] => return none
  | prev, current :: next => do
      if ← test current then return some (current, prev.reverse ++ next)
      else unlinkFirst test (current :: prev) next

theorem unlinkFirst_some {test : α → Run Bool} {prev items rest : List α} {a : α}
    (h : unlinkFirst test prev items = .ok (some (a, rest))) :
    ∃ front back, items = front ++ a :: back ∧ rest = prev.reverse ++ front ++ back ∧
      test a = .ok true ∧ ∀ b ∈ front, test b = .ok false := by
  induction items generalizing prev with
  | nil => cases h
  | cons current next ih =>
      rw [unlinkFirst, Run.bind_eq_ok] at h
      obtain ⟨hit, htest, h⟩ := h
      cases hit with
      | true =>
          simp only [if_true, Run.pure_eq_ok, Except.ok.injEq, Option.some.injEq,
            Prod.mk.injEq] at h
          obtain ⟨rfl, rfl⟩ := h
          exact ⟨[], next, rfl, by simp, htest, by simp⟩
      | false =>
          rw [if_neg (by simp)] at h
          obtain ⟨front, back, rfl, rfl, ha, hf⟩ := ih h
          refine ⟨current :: front, back, rfl, by simp, ha, ?_⟩
          intro b hb
          rcases List.mem_cons.mp hb with rfl | hb
          · exact htest
          · exact hf b hb

theorem unlinkFirst_none {test : α → Run Bool} {prev items : List α} :
    unlinkFirst test prev items = .ok none ↔ ∀ b ∈ items, test b = .ok false := by
  induction items generalizing prev with
  | nil => simp [unlinkFirst]
  | cons current next ih =>
      rw [unlinkFirst, Run.bind_eq_ok]
      constructor
      · rintro ⟨hit, htest, h⟩
        cases hit with
        | true => cases h
        | false =>
            rw [if_neg (by simp), ih] at h
            intro b hb
            rcases List.mem_cons.mp hb with rfl | hb
            · exact htest
            · exact h b hb
      · intro h
        refine ⟨false, h current (by simp), ?_⟩
        rw [if_neg (by simp), ih]
        exact fun b hb => h b (by simp [hb])

/-- A walk from the head that finds something takes out the first accepted element. -/
theorem unlinkFirst_takesFirst {test : α → Run Bool} {items rest : List α} {a : α}
    (h : unlinkFirst test [] items = .ok (some (a, rest))) :
    TakesFirst (fun b => test b = .ok true) items a rest := by
  obtain ⟨front, back, hi, hr, ha, hf⟩ := unlinkFirst_some h
  refine ⟨front, back, hi, by simpa using hr, ha, ?_⟩
  intro b hb
  simp [hf b hb]

theorem unlinkFirst_returns {test : α → Run Bool} {prev items : List α}
    (h : ∀ b ∈ items, Run.Returns (test b)) : Run.Returns (unlinkFirst test prev items) := by
  induction items generalizing prev with
  | nil => exact ⟨none, rfl⟩
  | cons current next ih =>
      obtain ⟨hit, htest⟩ := h current (by simp)
      rw [unlinkFirst, htest, Run.bind_ok]
      cases hit with
      | true => exact ⟨_, rfl⟩
      | false => exact ih fun b hb => h b (by simp [hb])

/-- A walk is stuck at the first element that it does not pass. -/
theorem unlinkFirst_stuck {test : α → Run Bool} {prev front back : List α} {a : α} {stuck : Stuck}
    (passes : ∀ b ∈ front, test b = .ok false) (h : test a = .error stuck) :
    unlinkFirst test prev (front ++ a :: back) = .error stuck := by
  induction front generalizing prev with
  | nil => rw [List.nil_append, unlinkFirst, h, Run.bind_error]
  | cons current front ih =>
      rw [List.cons_append, unlinkFirst, passes current (by simp), Run.bind_ok, if_neg (by simp)]
      exact ih fun b hb => passes b (by simp [hb])

theorem unlinkFirst_stuck_iff {test : α → Run Bool} {prev items : List α} {stuck : Stuck} :
    unlinkFirst test prev items = .error stuck ↔ ∃ front a back, items = front ++ a :: back ∧
      (∀ b ∈ front, test b = .ok false) ∧ test a = .error stuck := by
  constructor
  · intro h
    induction items generalizing prev with
    | nil => cases h
    | cons current next ih =>
        rw [unlinkFirst] at h
        cases htest : test current with
        | error e =>
            rw [htest, Run.bind_error] at h
            cases h
            exact ⟨[], current, next, rfl, nofun, htest⟩
        | ok hit =>
            rw [htest, Run.bind_ok] at h
            cases hit with
            | true => cases h
            | false =>
                obtain ⟨front, a, back, rfl, hfront, ha⟩ := ih h
                exact ⟨current :: front, a, back, rfl, List.forall_mem_cons.mpr ⟨htest, hfront⟩, ha⟩
  · rintro ⟨front, a, back, rfl, hfront, ha⟩
    exact unlinkFirst_stuck hfront ha

theorem unlinkFirst_error {test : α → Run Bool} {prev items : List α} {stuck : Stuck}
    (h : unlinkFirst test prev items = .error stuck) : ∃ b ∈ items, test b = .error stuck := by
  obtain ⟨front, a, back, rfl, -, ha⟩ := unlinkFirst_stuck_iff.mp h
  exact ⟨a, by simp, ha⟩

theorem unlinkFirst_found {test : α → Run Bool} {prev front back : List α} {a : α}
    (passes : ∀ b ∈ front, test b = .ok false) (h : test a = .ok true) :
    unlinkFirst test prev (front ++ a :: back) =
      .ok (some (a, prev.reverse ++ (front ++ back))) := by
  induction front generalizing prev with
  | nil => rw [List.nil_append, unlinkFirst, h, Run.bind_ok]; rfl
  | cons current front ih =>
      rw [List.cons_append, unlinkFirst, passes current (by simp), Run.bind_ok, if_neg (by simp),
        ih fun b hb => passes b (by simp [hb])]
      simp

/-- A queue of at most `cap` elements. -/
structure Fifo (α : Type) (cap : Nat) where
  items : List α
  bounded : items.length ≤ cap

/-- What may happen to the queue: an element enters at the tail of a queue with
room, at most one element leaves, and nothing else. -/
inductive Fifo.Step {cap : Nat} (q q' : Fifo α cap) : Prop where
  | push (a : α) (room : q.items.length < cap) (items : q'.items = q.items ++ [a])
  | remove (items : LosesAtMostOne q.items q'.items)

end BoundedFifo
