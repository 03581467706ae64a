import LwipDtn.TrackingSteps
import LwipDtn.Library.Runs
import LwipDtn.Library.Spans

/-!
The retry table as a rate limiter. A run is a sequence of calls of
`should_attempt_forward` and `dtn_controller_remove_tracking` on a table that starts
empty; the clock of the code is the time modulo its width. As long as the table has a
slot for every destination that is asked for, a slot holds the time of the last granted
call for its destination and the number of granted calls since it was taken.
-/

namespace LwipDtn
open Outcome Bytes Runs Slots Spans

inductive TrackerOutcome where
  | granted
  | refused
  | expired
  | removed
deriving DecidableEq

/-- A call that has been made: its time, its destination without the zone, and what came
of it. -/
structure TrackerRecord where
  time : Nat
  dest : Block 16
  outcome : TrackerOutcome
deriving DecidableEq

structure TrackerTrace where
  attempts : List ForwardingAttempt
  time : Nat
  log : List TrackerRecord

/-- A call and the time since the call before it. What is stored at that moment is up to
the rest of the program. -/
inductive TrackerCall where
  | attempt (elapsed : Nat) (storage : StorageFunction) (removed : Bool) (dest : Ip6Addr)
  | remove (elapsed : Nat) (dest : Ip6Addr)

/-- A refused call that leaves the destination without a slot has given a packet up. -/
def outcomeOf (answer : Bool) (attempts : List ForwardingAttempt) (dest : Ip6Addr) :
    TrackerOutcome :=
  if answer then .granted
  else if trackedSlot attempts dest = none then .expired
  else .refused

def TrackerTrace.next (s : TrackerTrace) : TrackerCall → Run TrackerTrace
  | .attempt elapsed storage removed dest => do
      let time := s.time + elapsed
      let (answer, node) ←
        shouldAttemptForward ⟨.ofNat time, removed⟩ ⟨storage, s.attempts⟩ dest
      return ⟨node.attempts, time,
        s.log ++ [⟨time, dest.addr, outcomeOf answer node.attempts dest⟩]⟩
  | .remove elapsed dest =>
      return ⟨dtnControllerRemoveTracking s.attempts dest, s.time + elapsed,
        s.log ++ [⟨s.time + elapsed, dest.addr, .removed⟩]⟩

/-- A tracker from the creation of the controller on, which can be at any time. -/
def trackerSystem : System TrackerTrace TrackerCall where
  start s := s.attempts = dtnControllerCreate ∧ s.log = []
  step s call s' := s.next call = .ok s'

/-- The record of an expiry or a removal of the destination. -/
def endsTracking (addr : Block 16) (r : TrackerRecord) : Bool :=
  r.dest = addr ∧ (r.outcome = .expired ∨ r.outcome = .removed)

def grantTimes (addr : Block 16) (records : List TrackerRecord) : List Nat :=
  (records.filter fun r => r.dest = addr ∧ r.outcome = .granted).map TrackerRecord.time

/-- Any two of the times are a retry delay apart, and there are not more than the number
of retries. -/
structure Paced (times : List Nat) : Prop where
  apart : times.Pairwise fun t t' => t + forwardingRetryDelayMs.toNat ≤ t'
  few : times.length ≤ maxForwardingRetries

/-- In every part of the log without an expiry or a removal of a destination, the granted
calls for it are paced. -/
def RateLimited (log : List TrackerRecord) : Prop :=
  ∀ addr before span after, log = before ++ span ++ after →
    (∀ r ∈ span, endsTracking addr r = false) → Paced (grantTimes addr span)

/-- The destination has a slot, or one is free. -/
def SlotLeft (s : TrackerTrace) : TrackerCall → Prop
  | .attempt _ _ _ dest => trackedSlot s.attempts dest ≠ none ∨ freeSlot s.attempts ≠ none
  | .remove _ _ => True

section

variable {addr : Block 16} {times : List Nat} {log : List TrackerRecord} {r : TrackerRecord}

theorem Paced.nil : Paced [] := ⟨.nil, Nat.zero_le _⟩

theorem Paced.suffix {times' : List Nat} (h : Paced times') (hsuffix : times <:+ times') :
    Paced times :=
  ⟨h.apart.sublist hsuffix.sublist, Nat.le_trans hsuffix.length_le h.few⟩

theorem Paced.concat {last now : Nat} (h : Paced times) (hlast : times.getLast? = some last)
    (apart : last + forwardingRetryDelayMs.toNat ≤ now)
    (few : times.length < maxForwardingRetries) : Paced (times ++ [now]) := by
  obtain ⟨earlier, rfl⟩ := List.getLast?_eq_some_iff.mp hlast
  refine ⟨List.pairwise_append.mpr ⟨h.apart, List.pairwise_singleton _ _, ?_⟩, ?_⟩
  · intro t ht t' ht'
    rw [List.mem_singleton.mp ht']
    rcases List.mem_append.mp ht with ht | ht
    · have := (List.pairwise_append.mp h.apart).2.2 t ht last (List.mem_singleton_self _)
      omega
    · rwa [List.mem_singleton.mp ht]
  · rw [List.length_append]
    exact few

theorem Paced.single (now : Nat) : Paced [now] :=
  ⟨List.pairwise_singleton _ _, by simp [maxForwardingRetries]⟩

theorem grantTimes_suffix {l l' : List TrackerRecord} (h : l <:+ l') :
    grantTimes addr l <:+ grantTimes addr l' := (h.filter _).map _

/-- The times of the granted calls since the last expiry or removal. -/
def openGrants (addr : Block 16) (log : List TrackerRecord) : List Nat :=
  grantTimes addr (openSpan (endsTracking addr) log)

theorem openGrants_other (h : r.dest ≠ addr) :
    openGrants addr (log ++ [r]) = openGrants addr log := by
  rw [openGrants, openSpan_concat (by simp [endsTracking, h])]
  simp [grantTimes, openGrants, h]

theorem openGrants_granted (time : Nat) :
    openGrants addr (log ++ [⟨time, addr, .granted⟩]) = openGrants addr log ++ [time] := by
  rw [openGrants, openSpan_concat (by simp [endsTracking])]
  simp [grantTimes, openGrants]

theorem openGrants_refused (time : Nat) :
    openGrants addr (log ++ [⟨time, addr, .refused⟩]) = openGrants addr log := by
  rw [openGrants, openSpan_concat (by simp [endsTracking])]
  simp [grantTimes, openGrants]

theorem openGrants_ended (h : endsTracking addr r = true) :
    openGrants addr (log ++ [r]) = [] := by
  rw [openGrants, openSpan_cut h]
  rfl

theorem delay_passed {a : ForwardingAttempt} {last now : Nat}
    (hlast : a.lastAttemptTime = .ofNat last) (le : last ≤ now) (due : a.Due (.ofNat now)) :
    last + forwardingRetryDelayMs.toNat ≤ now := by
  rw [ForwardingAttempt.Due, hlast, ← UInt32.ofNat_sub le, UInt32.le_iff_toNat_le,
    UInt32.toNat_ofNat'] at due
  have := Nat.mod_le (now - last) (2 ^ 32)
  have : 0 < forwardingRetryDelayMs.toNat := by decide
  omega

/-- What a slot says about the log. -/
def SlotRecords (log : List TrackerRecord) (time : Nat) (addr : Block 16) :
    Option ForwardingAttempt → Prop
  | none => openGrants addr log = []
  | some a => ∃ last ≤ time, (openGrants addr log).getLast? = some last ∧
      a.lastAttemptTime = .ofNat last ∧ a.retryCount = (openGrants addr log).length

structure TableRecords (s : TrackerTrace) : Prop where
  distinct : (tracked s.attempts).Nodup
  slots : ∀ addr, SlotRecords s.log s.time addr (slotFor s.attempts addr)
  paced : ∀ addr, Always (endsTracking addr) (fun span => Paced (grantTimes addr span)) s.log

theorem SlotRecords.later {time time' : Nat} {slot : Option ForwardingAttempt}
    (h : SlotRecords log time addr slot) (le : time ≤ time') : SlotRecords log time' addr slot := by
  cases slot with
  | none => exact h
  | some a =>
      obtain ⟨last, hle, h⟩ := h
      exact ⟨last, Nat.le_trans hle le, h⟩

variable {s s' : TrackerTrace}

theorem TableRecords.openGrants_paced (h : TableRecords s) (addr : Block 16) :
    Paced (openGrants addr s.log) := h.paced addr _ (List.prefix_refl _)

/-- One record more: only the slot of its destination has to be looked at. -/
theorem TableRecords.extend (h : TableRecords s) (distinct : (tracked s'.attempts).Nodup)
    (time : s.time ≤ s'.time) (hlog : s'.log = s.log ++ [r])
    (others : ∀ addr, addr ≠ r.dest → slotFor s'.attempts addr = slotFor s.attempts addr)
    (own : SlotRecords s'.log s'.time r.dest (slotFor s'.attempts r.dest) ∧
      Paced (openGrants r.dest s'.log)) : TableRecords s' := by
  refine ⟨distinct, fun addr => ?_, fun addr => ?_⟩
  · by_cases heq : addr = r.dest
    · rw [heq]
      exact own.1
    · have hold := (h.slots addr).later time
      rw [others addr heq]
      cases hslot : slotFor s.attempts addr <;>
        rwa [hslot, SlotRecords, ← openGrants_other (Ne.symm heq), ← hlog] at hold
  · rw [hlog]
    refine (h.paced addr).concat ?_
    by_cases heq : addr = r.dest
    · rw [heq, ← hlog]
      exact own.2
    · change Paced (openGrants addr (s.log ++ [r]))
      rw [openGrants_other (Ne.symm heq)]
      exact h.openGrants_paced addr

theorem SlotRecords.granted {a : ForwardingAttempt} {now : Nat}
    (hlast : a.lastAttemptTime = .ofNat now)
    (hcount : a.retryCount = (openGrants addr log).length + 1) :
    SlotRecords (log ++ [⟨now, addr, .granted⟩]) now addr (some a) := by
  refine ⟨now, Nat.le_refl _, ?_, hlast, ?_⟩
  · rw [openGrants_granted, List.getLast?_append]
    rfl
  · rw [openGrants_granted, List.length_append, hcount]
    rfl

theorem outcomeOf_true {attempts : List ForwardingAttempt} {dest : Ip6Addr} :
    outcomeOf true attempts dest = .granted := rfl

theorem outcomeOf_false {attempts : List ForwardingAttempt} {dest : Ip6Addr} :
    outcomeOf false attempts dest =
      if slotFor attempts dest.addr = none then .expired else .refused := by
  simp only [outcomeOf, trackedSlot_eq_none, Bool.false_eq_true, if_false]

theorem TableRecords.attempt (h : TableRecords s) {elapsed : Nat} {storage : StorageFunction}
    {removed : Bool} {dest : Ip6Addr} (left : SlotLeft s (.attempt elapsed storage removed dest))
    (hnext : s.next (.attempt elapsed storage removed dest) = .ok s') : TableRecords s' := by
  rw [TrackerTrace.next, Run.bind_eq_ok] at hnext
  obtain ⟨⟨answer, node⟩, hrun, hnext⟩ := hnext
  cases hnext
  have hattempted := shouldAttemptForward_attempted hrun
  have hold := (h.slots dest.addr).later (Nat.le_add_right s.time elapsed)
  have hpaced := h.openGrants_paced dest.addr
  refine h.extend (shouldAttemptForward_nodup h.distinct hrun) (Nat.le_add_right _ _) rfl
    (fun addr ne => hattempted.slotFor_other ne) ?_
  cases hattempted with
  | waits slot early =>
      dsimp only at slot ⊢
      rw [slot] at hold ⊢
      rw [outcomeOf_false, if_neg (by rw [slot]; nofun), SlotRecords, openGrants_refused]
      exact ⟨hold, hpaced⟩
  | expired index =>
      have hnone := slotFor_invalidate h.distinct index
      dsimp only at hnone ⊢
      rw [hnone, outcomeOf_false, if_pos hnone, SlotRecords,
        openGrants_ended (by simp [endsTracking])]
      exact ⟨rfl, .nil⟩
  | retried index slot due unused =>
      dsimp only at index slot ⊢
      rw [slot] at hold
      obtain ⟨last, hle, hlast, htime, hcount⟩ := hold
      rw [slotFor_retried index slot, outcomeOf_true]
      refine ⟨.granted rfl (by rw [hcount]), ?_⟩
      rw [openGrants_granted]
      exact hpaced.concat hlast (delay_passed htime hle due) (hcount ▸ unused)
  | recorded absent free =>
      dsimp only at absent free ⊢
      rw [absent] at hold
      have hfirst : openGrants dest.addr s.log = [] := hold
      rw [slotFor_recorded absent free, outcomeOf_true]
      refine ⟨.granted rfl (by rw [hfirst]; rfl), ?_⟩
      rw [openGrants_granted, hfirst]
      exact .single _
  | unrecorded absent full =>
      rcases left with tracked | free
      · exact absurd (trackedSlot_eq_none.mpr absent) tracked
      · exact absurd full free

theorem TableRecords.remove (h : TableRecords s) {elapsed : Nat} {dest : Ip6Addr}
    (hnext : s.next (.remove elapsed dest) = .ok s') : TableRecords s' := by
  cases hnext
  refine h.extend (tracked_removeTracking h.distinct).1 (Nat.le_add_right _ _) rfl
    (fun addr ne => slotFor_removeTracking_other ne) ?_
  dsimp only
  rw [slotFor_removeTracking h.distinct, SlotRecords, openGrants_ended (by simp [endsTracking])]
  exact ⟨rfl, .nil⟩

theorem TableRecords.start (h : trackerSystem.start s) : TableRecords s := by
  obtain ⟨hattempts, hlog⟩ := h
  have hnone (addr : Block 16) : slotFor s.attempts addr = none := by
    rw [hattempts]
    exact slotFor_eq_none.mpr (List.not_mem_nil (a := addr))
  refine ⟨by rw [hattempts]; exact List.nodup_nil, fun addr => ?_, fun addr => ?_⟩
  · rw [hnone, hlog]
    rfl
  · rw [hlog]
    exact always_nil .nil

theorem TableRecords.step {call : TrackerCall} (h : TableRecords s) (left : SlotLeft s call)
    (hnext : s.next call = .ok s') : TableRecords s' := by
  cases call with
  | attempt elapsed storage removed dest => exact h.attempt left hnext
  | remove elapsed dest => exact h.remove hnext

theorem TableRecords.rateLimited (h : TableRecords s) : RateLimited s.log := by
  intro addr before span after hlog uncut
  exact (h.paced addr).uncut
    (fun l l' hsuffix hp => hp.suffix (grantTimes_suffix hsuffix)) hlog uncut

theorem next_unrecorded (elapsed : Nat) (storage : StorageFunction) (removed : Bool)
    {dest : Ip6Addr} (h : ¬ SlotLeft s (.attempt elapsed storage removed dest)) :
    s.next (.attempt elapsed storage removed dest) = .ok ⟨s.attempts, s.time + elapsed,
      s.log ++ [⟨s.time + elapsed, dest.addr, .granted⟩]⟩ := by
  rw [SlotLeft, not_or, Ne, Ne, Classical.not_not, Classical.not_not] at h
  rw [TrackerTrace.next, shouldAttemptForward, h.1, h.2]
  rfl

theorem not_rateLimited_twice (time : Nat) :
    ¬ RateLimited (log ++ [⟨time, addr, .granted⟩] ++ [⟨time, addr, .granted⟩]) := by
  intro h
  have hpaced := h addr log [⟨time, addr, .granted⟩, ⟨time, addr, .granted⟩] [] (by simp)
    (by simp [endsTracking])
  have htimes :
      grantTimes addr [⟨time, addr, .granted⟩, ⟨time, addr, .granted⟩] = [time, time] := by
    simp [grantTimes]
  have hapart := hpaced.apart
  rw [htimes, List.pairwise_pair] at hapart
  have : 0 < forwardingRetryDelayMs.toNat := by decide
  omega

end

/-- In every run in which each call finds a slot for its destination, the granted calls
are paced. Any other call can be made twice at once, and is granted both times. -/
theorem retransmissions_rate_limited (s : TrackerTrace) :
    (trackerSystem.Reaches SlotLeft s → RateLimited s.log) ∧
    (trackerSystem.Reaches (fun _ _ => True) s → ∀ call, ¬ SlotLeft s call →
      ∃ s', trackerSystem.Reaches (fun _ _ => True) s' ∧ ¬ RateLimited s'.log) := by
  constructor
  · intro h
    refine (h.invariant (P := TableRecords) (fun _ => .start) ?_).rateLimited
    intro s call s' ih left hnext
    exact ih.step left hnext
  · intro h call unslotted
    cases call with
    | remove => exact absurd trivial unslotted
    | attempt elapsed storage removed dest =>
        have hfirst := h.step trivial (next_unrecorded elapsed storage removed unslotted)
        have hsecond := hfirst.step trivial (next_unrecorded 0 storage removed unslotted)
        exact ⟨_, hsecond, not_rateLimited_twice _⟩

/-! Calls for destinations that differ in their last byte, with nothing stored. -/

def numbered (i : Nat) : Ip6Addr := ⟨⟨List.replicate 15 0 ++ [.ofNat i], by simp⟩, 0, noPadding⟩

def callFor (elapsed i : Nat) : TrackerCall := .attempt elapsed ⟨0, 0, [], []⟩ true (numbered i)

def freshTracker : TrackerTrace := ⟨dtnControllerCreate, 0, []⟩

theorem retransmissions_rate_limited_pair :
    ∃ s, trackerSystem.Reaches SlotLeft s ∧
      grantTimes (numbered 1).addr s.log = [0, forwardingRetryDelayMs.toNat] ∧
      RateLimited s.log := by
  have hstart : trackerSystem.Reaches SlotLeft freshTracker := .start ⟨rfl, rfl⟩
  have hfirst := hstart.step (e := callFor 0 1) (.inr (by decide)) rfl
  have hearly := hfirst.step (e := callFor 29999 1) (.inr (by decide +kernel)) rfl
  have hdue := hearly.step (e := callFor 1 1) (.inr (by decide +kernel)) rfl
  exact ⟨_, hdue, by decide +kernel, (retransmissions_rate_limited _).1 hdue⟩

theorem reaches_calls {s s' : TrackerTrace} {calls : List TrackerCall}
    (h : trackerSystem.Reaches (fun _ _ => True) s)
    (hrun : calls.foldlM TrackerTrace.next s = .ok s') :
    trackerSystem.Reaches (fun _ _ => True) s' := by
  induction calls generalizing s with
  | nil =>
      cases hrun
      exact h
  | cons call calls ih =>
      rw [List.foldlM_cons, Run.bind_eq_ok] at hrun
      obtain ⟨t, hnext, hrun⟩ := hrun
      exact ih (h.step trivial hnext) hrun

/-- Ten destinations fill the table; the eleventh is granted twice at once. -/
theorem eleventh_destination_unlimited :
    ∃ s, trackerSystem.Reaches (fun _ _ => True) s ∧ ¬ RateLimited s.log := by
  have hcrowd : (((List.range 10 ++ [10, 10]).map (callFor 0)).foldlM TrackerTrace.next
      freshTracker).map TrackerTrace.log =
        .ok ((List.range 10).map (fun i => ⟨0, (numbered i).addr, .granted⟩)
        ++ [⟨0, (numbered 10).addr, .granted⟩] ++ [⟨0, (numbered 10).addr, .granted⟩]) := by
    decide +kernel
  obtain ⟨s, hrun⟩ : Run.Returns (((List.range 10 ++ [10, 10]).map (callFor 0)).foldlM
      TrackerTrace.next freshTracker) := by decide +kernel
  rw [hrun] at hcrowd
  refine ⟨s, reaches_calls (.start ⟨rfl, rfl⟩) hrun, ?_⟩
  rw [Except.ok.inj hcrowd]
  exact not_rateLimited_twice 0

end LwipDtn
