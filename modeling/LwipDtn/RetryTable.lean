import LwipDtn.RetryLimit

/-!
The retry table as a data structure. No destination has two slots, although nothing
compares the slots with each other: a destination is recorded only after a search through
all of them. That is why untracking can stop at the first slot it finds.
-/

namespace LwipDtn
open Outcome Bytes BoundedFifo Runs Slots

/-- The valid slots hold different destinations, compared without their zones, and a
number of attempts within the limit. -/
structure WellFormedTable (attempts : List ForwardingAttempt) : Prop where
  size : attempts.length = maxDestinations
  distinct : attempts.Pairwise fun a b => a.isValid = true → b.isValid = true →
    a.destination.addr ≠ b.destination.addr
  counts : ∀ a ∈ attempts, a.isValid = true →
    1 ≤ a.retryCount ∧ a.retryCount ≤ maxForwardingRetries

/-- All slots but one are the same. -/
def AtMostOneChanged (attempts attempts' : List ForwardingAttempt) : Prop :=
  ∃ i : Nat, ∀ j : Nat, j ≠ i → attempts'[j]? = attempts[j]?

section

variable {attempts : List ForwardingAttempt} {dest : Ip6Addr} {new : ForwardingAttempt} {i : Nat}

theorem tracked_nodup_iff : (tracked attempts).Nodup ↔
    attempts.Pairwise fun a b => a.isValid = true → b.isValid = true →
      a.destination.addr ≠ b.destination.addr := by
  rw [tracked, nodup_keys]
  simp only [ForwardingAttempt.tracks_eq_some, ne_eq, not_and]
  refine ⟨fun h => h.imp fun hab ha hb heq => ?_, fun h => h.imp fun hab addr ha hb heq => ?_⟩
  · exact hab _ ⟨ha, heq⟩ hb rfl
  · exact hab ha.1 hb (ha.2.trans heq.symm)

theorem AtMostOneChanged.refl : AtMostOneChanged attempts attempts := ⟨0, fun _ _ => rfl⟩

theorem AtMostOneChanged.set : AtMostOneChanged attempts (attempts.set i new) :=
  ⟨i, fun _ hj => List.getElem?_set_ne hj.symm⟩

theorem AtMostOneChanged.invalidate : AtMostOneChanged attempts (invalidate attempts i) :=
  ⟨i, fun _ hj => List.getElem?_modify_ne _ _ hj.symm⟩

theorem one_le_maxForwardingRetries : 1 ≤ maxForwardingRetries := by decide

theorem counts_set (h : ∀ a ∈ attempts, a.isValid = true →
      1 ≤ a.retryCount ∧ a.retryCount ≤ maxForwardingRetries)
    (hnew : new.isValid = true → 1 ≤ new.retryCount ∧ new.retryCount ≤ maxForwardingRetries) :
    ∀ a ∈ attempts.set i new, a.isValid = true →
      1 ≤ a.retryCount ∧ a.retryCount ≤ maxForwardingRetries := by
  intro a ha
  rcases List.mem_or_eq_of_mem_set ha with ha | rfl
  · exact h a ha
  · exact hnew

theorem counts_invalidate (h : ∀ a ∈ attempts, a.isValid = true →
      1 ≤ a.retryCount ∧ a.retryCount ≤ maxForwardingRetries)
    (index : trackedSlot attempts dest = some i) :
    ∀ a ∈ invalidate attempts i, a.isValid = true →
      1 ≤ a.retryCount ∧ a.retryCount ≤ maxForwardingRetries := by
  obtain ⟨c, hc, -⟩ := trackedSlot_found index
  rw [invalidate_eq hc]
  exact counts_set h fun valid => absurd valid Bool.false_ne_true

end

section

variable {env : AttemptEnv} {node node' : Node} {dest : Ip6Addr} {answer : Bool}
  {attempts : List ForwardingAttempt}

theorem WellFormedTable.attempt (h : WellFormedTable node.attempts)
    (hrun : shouldAttemptForward env node dest = .ok (answer, node')) :
    WellFormedTable node'.attempts ∧ AtMostOneChanged node.attempts node'.attempts := by
  have hattempted := shouldAttemptForward_attempted hrun
  have hdistinct := shouldAttemptForward_nodup (tracked_nodup_iff.mpr h.distinct) hrun
  have hsize := hattempted.length.trans h.size
  have table (counts) : WellFormedTable node'.attempts :=
    ⟨hsize, tracked_nodup_iff.mp hdistinct, counts⟩
  cases hattempted with
  | waits | unrecorded => exact ⟨h, .refl⟩
  | expired index => exact ⟨table (counts_invalidate h.counts index), .invalidate⟩
  | retried index slot due left =>
      exact ⟨table (counts_set h.counts fun _ => ⟨Nat.le_add_left _ _, left⟩), .set⟩
  | recorded absent free =>
      exact ⟨table (counts_set h.counts fun _ => ⟨Nat.le_refl _, one_le_maxForwardingRetries⟩),
        .set⟩

theorem WellFormedTable.remove (h : WellFormedTable attempts) :
    WellFormedTable (dtnControllerRemoveTracking attempts dest) ∧
      AtMostOneChanged attempts (dtnControllerRemoveTracking attempts dest) ∧
      ∀ a ∈ dtnControllerRemoveTracking attempts dest, a.isValid = true →
        a.destination.addr ≠ dest.addr := by
  have hdistinct := tracked_nodup_iff.mpr h.distinct
  obtain ⟨hnodup, hgone⟩ := @tracked_removeTracking attempts dest hdistinct
  refine ⟨⟨removeTracking_length.trans h.size, tracked_nodup_iff.mp hnodup, ?_⟩, ?_, ?_⟩
  · rw [dtnControllerRemoveTracking]
    split
    · rename_i i index
      exact counts_invalidate h.counts index
    · exact h.counts
  · rw [dtnControllerRemoveTracking]
    split
    · exact .invalidate
    · exact .refl
  · intro a ha valid
    exact (hgone _ (mem_keys.mpr ⟨a, ha, ForwardingAttempt.tracks_eq_some.mpr ⟨valid, rfl⟩⟩)).2

theorem WellFormedTable.next {s s' : TrackerTrace} {call : TrackerCall}
    (h : WellFormedTable s.attempts) (hnext : s.next call = .ok s') :
    WellFormedTable s'.attempts := by
  cases call with
  | attempt elapsed storage removed dest =>
      rw [TrackerTrace.next, Run.bind_eq_ok] at hnext
      obtain ⟨⟨answer, node⟩, hrun, hnext⟩ := hnext
      cases hnext
      exact (@WellFormedTable.attempt _ ⟨storage, s.attempts⟩ _ _ _ h hrun).1
  | remove elapsed dest =>
      cases hnext
      exact h.remove.1

theorem WellFormedTable.create : WellFormedTable dtnControllerCreate where
  size := rfl
  distinct := by decide
  counts := by decide

end

/-- In every run the table is well formed, and every call returns and changes at most one
slot; after an untracking no slot holds the destination. -/
theorem retry_table_wellFormed (s : TrackerTrace)
    (reached : trackerSystem.Reaches (fun _ _ => True) s) :
    WellFormedTable s.attempts ∧ ∀ call, ∃ s', s.next call = .ok s' ∧
      AtMostOneChanged s.attempts s'.attempts ∧
      ∀ elapsed dest, call = .remove elapsed dest →
        ∀ a ∈ s'.attempts, a.isValid = true → a.destination.addr ≠ dest.addr := by
  have hwf : WellFormedTable s.attempts := by
    refine reached.invariant (P := fun s => WellFormedTable s.attempts) (fun s start => ?_) ?_
    · rw [start.1]
      exact .create
    · intro s call s' ih _ hnext
      exact ih.next hnext
  refine ⟨hwf, fun call => ?_⟩
  cases call with
  | attempt elapsed storage removed dest =>
      obtain ⟨⟨answer, node⟩, hrun⟩ := shouldAttemptForward_returns
        ⟨.ofNat (s.time + elapsed), removed⟩ ⟨storage, s.attempts⟩ dest
      refine ⟨_, by rw [TrackerTrace.next, hrun]; rfl, (hwf.attempt hrun).2, nofun⟩
  | remove elapsed dest =>
      obtain ⟨-, hone, hgone⟩ := @WellFormedTable.remove dest _ hwf
      refine ⟨_, rfl, hone, fun _ _ heq => ?_⟩
      cases heq
      exact hgone

/-- A destination is tracked, and untracked again. -/
theorem retry_table_wellFormed_untracked :
    ∃ s s', trackerSystem.Reaches (fun _ _ => True) s ∧ tracked s.attempts = [(numbered 1).addr] ∧
      s.next (.remove 5 (numbered 1)) = .ok s' ∧
      ∀ a ∈ s'.attempts, a.isValid = true → a.destination.addr ≠ (numbered 1).addr := by
  have hstart : trackerSystem.Reaches (fun _ _ => True) freshTracker := .start ⟨rfl, rfl⟩
  have hfirst := hstart.step (e := callFor 0 1) trivial rfl
  obtain ⟨-, hcalls⟩ := retry_table_wellFormed _ hfirst
  obtain ⟨s', hnext, -, hgone⟩ := hcalls (.remove 5 (numbered 1))
  exact ⟨_, s', hfirst, by decide +kernel, hnext, hgone 5 _ rfl⟩

end LwipDtn
