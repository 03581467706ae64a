import LwipDtn.StorageFifo
import LwipDtn.Tracking
import LwipDtn.Library.Slots

/-!
What the two functions on the retry table can do. Every way through
`should_attempt_forward` is a constructor of `Attempted`. The table is read as a partial
map from destinations to slots, without their zones.
-/

namespace LwipDtn
open Outcome Bytes BoundedFifo Slots

/-- The destination that a slot holds. -/
def ForwardingAttempt.tracks (a : ForwardingAttempt) : Option (Block 16) :=
  if a.isValid then some a.destination.addr else none

theorem ForwardingAttempt.tracks_eq_some {a : ForwardingAttempt} {addr : Block 16} :
    a.tracks = some addr ↔ a.isValid = true ∧ a.destination.addr = addr := by
  rw [tracks]
  split <;> simp [*]

def tracked (attempts : List ForwardingAttempt) : List (Block 16) :=
  keys ForwardingAttempt.tracks attempts

def slotFor (attempts : List ForwardingAttempt) (addr : Block 16) : Option ForwardingAttempt :=
  slotOf ForwardingAttempt.tracks attempts addr

/-- The retry delay has passed since the last attempt. -/
def ForwardingAttempt.Due (a : ForwardingAttempt) (now : UInt32) : Prop :=
  forwardingRetryDelayMs ≤ now - a.lastAttemptTime

instance (a : ForwardingAttempt) (now : UInt32) : Decidable (a.Due now) :=
  inferInstanceAs (Decidable (forwardingRetryDelayMs ≤ now - a.lastAttemptTime))

section Table

variable {attempts : List ForwardingAttempt} {dest : Ip6Addr} {i : Nat}

theorem slotFor_eq_none {addr : Block 16} :
    slotFor attempts addr = none ↔ addr ∉ tracked attempts := slotOf_eq_none

theorem trackedSlot_eq : trackedSlot attempts dest =
    attempts.findIdx? fun a => a.tracks = some dest.addr := by
  rw [trackedSlot]
  congr 1
  funext a
  rw [Bool.eq_iff_iff, Bool.and_eq_true, Ip6Addr.eqNoZone_iff, decide_eq_true_eq,
    ForwardingAttempt.tracks_eq_some, eq_comm (a := dest.addr)]

theorem trackedSlot_found (h : trackedSlot attempts dest = some i) :
    ∃ a, attempts[i]? = some a ∧ slotFor attempts dest.addr = some a ∧
      ∀ j < i, ∀ b, attempts[j]? = some b → b.tracks ≠ some dest.addr :=
  slotOf_of_findIdx (trackedSlot_eq ▸ h)

theorem trackedSlot_some (h : trackedSlot attempts dest = some i) :
    ∃ a, attempts[i]? = some a ∧ a.tracks = some dest.addr := by
  obtain ⟨a, ha, hslot, -⟩ := trackedSlot_found h
  exact ⟨a, ha, (slotOf_mem hslot).2⟩

theorem trackedSlot_eq_none :
    trackedSlot attempts dest = none ↔ slotFor attempts dest.addr = none := by
  rw [trackedSlot_eq, List.findIdx?_eq_none_iff, slotFor, slotOf, List.find?_eq_none]
  simp

theorem trackedSlot_none (h : trackedSlot attempts dest = none) :
    dest.addr ∉ tracked attempts := slotFor_eq_none.mp (trackedSlot_eq_none.mp h)

theorem freeSlot_some (h : freeSlot attempts = some i) :
    ∃ a, attempts[i]? = some a ∧ a.tracks = none := by
  obtain ⟨hi, hslot, -⟩ := List.findIdx?_eq_some_iff_getElem.mp h
  refine ⟨attempts[i], List.getElem?_eq_getElem hi, ?_⟩
  rw [Bool.not_eq_true'] at hslot
  rw [ForwardingAttempt.tracks, hslot]
  rfl

theorem freeSlot_none (h : freeSlot attempts = none) :
    (tracked attempts).length = attempts.length := by
  refine keys_full fun a ha => ?_
  have := List.findIdx?_eq_none_iff.mp h a ha
  rw [ForwardingAttempt.tracks, if_pos (by simpa using this)]
  rfl

theorem tracked_length (attempts : List ForwardingAttempt) :
    (tracked attempts).length = (attempts.filter fun a => a.isValid).length := by
  rw [tracked, keys, List.length_filterMap_eq_countP, ← List.countP_eq_length_filter]
  refine List.countP_congr fun a _ => ?_
  rw [ForwardingAttempt.tracks]
  split <;> simp [*]

theorem invalidate_eq {a : ForwardingAttempt} (h : attempts[i]? = some a) :
    invalidate attempts i = attempts.set i { a with isValid := false } := by
  rw [invalidate, List.modify_eq_set_getElem?, h]
  rfl

theorem tracked_invalidate (h : trackedSlot attempts dest = some i) :
    (tracked attempts).Perm (dest.addr :: tracked (invalidate attempts i)) := by
  obtain ⟨a, ha, htracks⟩ := trackedSlot_some h
  rw [invalidate_eq ha]
  exact keys_vacate ha htracks rfl

theorem slotFor_invalidate (distinct : (tracked attempts).Nodup)
    (h : trackedSlot attempts dest = some i) :
    slotFor (invalidate attempts i) dest.addr = none :=
  slotFor_eq_none.mpr (List.nodup_cons.mp ((tracked_invalidate h).nodup_iff.mp distinct)).1

theorem slotFor_invalidate_other (h : trackedSlot attempts dest = some i) {addr : Block 16}
    (ne : addr ≠ dest.addr) : slotFor (invalidate attempts i) addr = slotFor attempts addr := by
  obtain ⟨a, ha, htracks⟩ := trackedSlot_some h
  rw [invalidate_eq ha]
  refine slotOf_set_other ha ?_ nofun
  rw [htracks]
  exact fun heq => ne (Option.some.inj heq).symm

theorem removeTracking_length :
    (dtnControllerRemoveTracking attempts dest).length = attempts.length := by
  rw [dtnControllerRemoveTracking]
  split
  · exact List.length_modify _ _ _
  · rfl

theorem slotFor_removeTracking (distinct : (tracked attempts).Nodup) :
    slotFor (dtnControllerRemoveTracking attempts dest) dest.addr = none := by
  rw [dtnControllerRemoveTracking]
  split
  · rename_i i hslot
    exact slotFor_invalidate distinct hslot
  · rename_i hslot
    exact trackedSlot_eq_none.mp hslot

theorem slotFor_removeTracking_other {addr : Block 16} (ne : addr ≠ dest.addr) :
    slotFor (dtnControllerRemoveTracking attempts dest) addr = slotFor attempts addr := by
  rw [dtnControllerRemoveTracking]
  split
  · rename_i i hslot
    exact slotFor_invalidate_other hslot ne
  · rfl

/-- Untracking a destination takes it out and leaves the others. -/
theorem tracked_removeTracking (distinct : (tracked attempts).Nodup) :
    (tracked (dtnControllerRemoveTracking attempts dest)).Nodup ∧
      ∀ addr ∈ tracked (dtnControllerRemoveTracking attempts dest),
        addr ∈ tracked attempts ∧ addr ≠ dest.addr := by
  rw [dtnControllerRemoveTracking]
  split
  · rename_i i hslot
    have hperm := tracked_invalidate hslot
    obtain ⟨hnew, hnodup⟩ := List.nodup_cons.mp (hperm.nodup_iff.mp distinct)
    refine ⟨hnodup, fun addr haddr => ⟨hperm.mem_iff.mpr (List.mem_cons_of_mem _ haddr), ?_⟩⟩
    rintro rfl
    exact hnew haddr
  · rename_i hslot
    refine ⟨distinct, fun addr haddr => ⟨haddr, ?_⟩⟩
    rintro rfl
    exact trackedSlot_none hslot haddr

end Table

/-- What happens to the storage when the retries of a destination are used up. -/
def GivesUp (removed : Bool) (dest : Ip6Addr) (s s' : StorageFunction) : Prop :=
  (s' = s ∧ ∀ e ∈ s.packetListHead, isForDest dest e = false) ∨
    ∃ e rest, s' = s.unlinked removed e rest ∧
      TakesFirst (fun e => isForDest dest e = true) s.packetListHead e rest

/-- The ways through `should_attempt_forward`, with the answer and the node after it. -/
inductive Attempted (env : AttemptEnv) (node : Node) (dest : Ip6Addr) : Bool → Node → Prop
  | waits {a : ForwardingAttempt} (slot : slotFor node.attempts dest.addr = some a)
      (early : ¬ a.Due env.now) : Attempted env node dest false node
  | expired {i : Nat} {a : ForwardingAttempt} {s : StorageFunction}
      (index : trackedSlot node.attempts dest = some i)
      (slot : slotFor node.attempts dest.addr = some a) (due : a.Due env.now)
      (used : maxForwardingRetries ≤ a.retryCount)
      (gone : GivesUp env.removed dest node.storage s) :
      Attempted env node dest false ⟨s, invalidate node.attempts i⟩
  | retried {i : Nat} {a : ForwardingAttempt} (index : trackedSlot node.attempts dest = some i)
      (slot : slotFor node.attempts dest.addr = some a) (due : a.Due env.now)
      (left : a.retryCount < maxForwardingRetries) :
      Attempted env node dest true ⟨node.storage, node.attempts.set i
        { a with lastAttemptTime := env.now, retryCount := a.retryCount + 1 }⟩
  | recorded {i : Nat} (absent : slotFor node.attempts dest.addr = none)
      (free : freeSlot node.attempts = some i) :
      Attempted env node dest true ⟨node.storage, node.attempts.set i ⟨dest, env.now, 1, true⟩⟩
  | unrecorded (absent : slotFor node.attempts dest.addr = none)
      (full : freeSlot node.attempts = none) : Attempted env node dest true node

section

variable {env : AttemptEnv} {node node' : Node} {dest : Ip6Addr} {answer : Bool}

theorem shouldAttemptForward_attempted
    (h : shouldAttemptForward env node dest = .ok (answer, node')) :
    Attempted env node dest answer node' := by
  rw [shouldAttemptForward] at h
  split at h
  · rename_i i hslot
    obtain ⟨a, ha, hslotFor, -⟩ := trackedSlot_found hslot
    have hget : node.attempts.getD i emptyAttempt = a := by
      rw [List.getD_eq_getElem?_getD, ha]
      rfl
    rw [hget] at h
    dsimp only at h
    split at h
    · rename_i due
      split at h
      · rename_i used
        rw [Run.bind_eq_ok] at h
        obtain ⟨⟨r, storage⟩, hretrieve, h⟩ := h
        cases h
        refine .expired hslot hslotFor due used ?_
        obtain ⟨-, rfl, hnone⟩ | ⟨e, rest, -, rfl, htake⟩ := removeFirst_cases hretrieve
        · exact .inl ⟨rfl, fun e he => Except.ok.inj (hnone e he)⟩
        · exact .inr ⟨e, rest, rfl, by simpa using htake⟩
      · rename_i left
        cases h
        exact .retried hslot hslotFor due (Nat.not_le.mp left)
    · rename_i early
      cases h
      exact .waits hslotFor early
  · rename_i hslot
    have habsent := trackedSlot_eq_none.mp hslot
    split at h
    · rename_i i hfree
      cases h
      exact .recorded habsent hfree
    · rename_i hfull
      cases h
      exact .unrecorded habsent hfull

theorem shouldAttemptForward_returns (env : AttemptEnv) (node : Node) (dest : Ip6Addr) :
    Run.Returns (shouldAttemptForward env node dest) := by
  rw [shouldAttemptForward]
  split
  · dsimp only
    split
    · split
      · obtain ⟨r, s, hretrieve, -⟩ := retrieve_first env.removed node.storage dest
        rw [hretrieve]
        exact ⟨_, rfl⟩
      · exact ⟨_, rfl⟩
    · exact ⟨_, rfl⟩
  · split
    · exact ⟨_, rfl⟩
    · exact ⟨_, rfl⟩

theorem slotFor_retried {i : Nat} {a : ForwardingAttempt} {attempts : List ForwardingAttempt}
    (index : trackedSlot attempts dest = some i) (slot : slotFor attempts dest.addr = some a)
    (now : UInt32) (count : Nat) :
    slotFor (attempts.set i { a with lastAttemptTime := now, retryCount := count }) dest.addr =
      some { a with lastAttemptTime := now, retryCount := count } := by
  obtain ⟨c, hc, -, hbefore⟩ := trackedSlot_found index
  exact slotOf_set_self hc (slotOf_mem slot).2 hbefore

theorem slotFor_recorded {i : Nat} {attempts : List ForwardingAttempt}
    (absent : slotFor attempts dest.addr = none) (free : freeSlot attempts = some i)
    (now : UInt32) (count : Nat) :
    slotFor (attempts.set i ⟨dest, now, count, true⟩) dest.addr =
      some ⟨dest, now, count, true⟩ := by
  obtain ⟨c, hc, -⟩ := freeSlot_some free
  exact slotOf_occupy hc absent rfl

theorem Attempted.slotFor_other (h : Attempted env node dest answer node') {addr : Block 16}
    (ne : addr ≠ dest.addr) : slotFor node'.attempts addr = slotFor node.attempts addr := by
  have hne : some dest.addr ≠ some addr := fun heq => ne (Option.some.inj heq).symm
  cases h with
  | waits | unrecorded => rfl
  | expired index => exact slotFor_invalidate_other index ne
  | retried index slot =>
      obtain ⟨c, hc, hfound, -⟩ := trackedSlot_found index
      cases hfound.symm.trans slot
      have htracks := (slotOf_mem slot).2
      exact slotOf_set_other hc (htracks ▸ hne) (by rw [← htracks] at hne; exact hne)
  | recorded absent free =>
      obtain ⟨c, hc, hnone⟩ := freeSlot_some free
      exact slotOf_set_other hc (by rw [hnone]; nofun) hne

theorem Attempted.length (h : Attempted env node dest answer node') :
    node'.attempts.length = node.attempts.length := by
  cases h with
  | waits | unrecorded => rfl
  | expired => exact List.length_modify _ _ _
  | retried | recorded => exact List.length_set

theorem Attempted.answer_iff (h : Attempted env node dest answer node') :
    answer = true ↔ ∀ a, slotFor node.attempts dest.addr = some a →
      a.Due env.now ∧ a.retryCount < maxForwardingRetries := by
  cases h with
  | waits slot early => exact ⟨nofun, fun h => absurd (h _ slot).1 early⟩
  | expired _ slot _ used => exact ⟨nofun, fun h => absurd used (Nat.not_le.mpr (h _ slot).2)⟩
  | retried _ slot due left =>
      refine ⟨fun _ a ha => ?_, fun _ => rfl⟩
      cases slot.symm.trans ha
      exact ⟨due, left⟩
  | recorded absent | unrecorded absent =>
      refine ⟨fun _ a ha => ?_, fun _ => rfl⟩
      cases absent.symm.trans ha

theorem shouldAttemptForward_cases
    (h : shouldAttemptForward env node dest = .ok (answer, node')) :
    node'.storage = node.storage ∨ answer = false ∧ ∃ e rest,
      node'.storage = node.storage.unlinked env.removed e rest ∧
      TakesFirst (fun e => isForDest dest e = true) node.storage.packetListHead e rest := by
  cases shouldAttemptForward_attempted h with
  | waits | retried | recorded | unrecorded => exact .inl rfl
  | expired _ _ _ _ gone =>
      obtain ⟨hs, -⟩ | hgone := gone
      · exact .inl hs
      · exact .inr ⟨rfl, hgone⟩

theorem shouldAttemptForward_sublist
    (h : shouldAttemptForward env node dest = .ok (answer, node')) :
    node'.storage.packetListHead.Sublist node.storage.packetListHead := by
  obtain heq | ⟨-, e, rest, heq, htake⟩ := shouldAttemptForward_cases h
  · rw [heq]
  · rw [heq]
    exact htake.sublist

theorem shouldAttemptForward_tracks
    (h : shouldAttemptForward env node dest = .ok (answer, node')) :
    node'.attempts.length = node.attempts.length ∧
    ((node'.storage = node.storage ∧ (tracked node'.attempts).Perm (tracked node.attempts)) ∨
      (node'.storage = node.storage ∧ dest.addr ∉ tracked node.attempts ∧
        (tracked node'.attempts).Perm (dest.addr :: tracked node.attempts)) ∨
      ((tracked node.attempts).Perm (dest.addr :: tracked node'.attempts) ∧
        (node'.storage = node.storage ∨ ∃ e rest,
          node'.storage = node.storage.unlinked env.removed e rest ∧
          node.storage.packetListHead.Perm (e :: rest) ∧ e.originalDest.addr = dest.addr))) := by
  have hattempted := shouldAttemptForward_attempted h
  refine ⟨hattempted.length, ?_⟩
  cases hattempted with
  | waits | unrecorded => exact .inl ⟨rfl, .refl _⟩
  | retried index slot =>
      obtain ⟨c, hc, hfound, -⟩ := trackedSlot_found index
      cases hfound.symm.trans slot
      exact .inl ⟨rfl, keys_keep hc rfl⟩
  | recorded absent free =>
      obtain ⟨c, hc, hnone⟩ := freeSlot_some free
      exact .inr (.inl ⟨rfl, slotFor_eq_none.mp absent, keys_occupy hc hnone rfl⟩)
  | expired index _ _ _ gone =>
      refine .inr (.inr ⟨tracked_invalidate index, ?_⟩)
      obtain ⟨hs, -⟩ | ⟨e, rest, hs, htake⟩ := gone
      · exact .inl hs
      · exact .inr ⟨e, rest, hs, htake.perm, isForDest_iff.mp htake.holds⟩

theorem shouldAttemptForward_nodup (distinct : (tracked node.attempts).Nodup)
    (h : shouldAttemptForward env node dest = .ok (answer, node')) :
    (tracked node'.attempts).Nodup := by
  obtain ⟨-, ⟨-, hperm⟩ | ⟨-, hfresh, hperm⟩ | ⟨hperm, -⟩⟩ := shouldAttemptForward_tracks h
  · exact hperm.nodup_iff.mpr distinct
  · exact hperm.nodup_iff.mpr (List.nodup_cons.mpr ⟨hfresh, distinct⟩)
  · exact (List.nodup_cons.mp (hperm.nodup_iff.mp distinct)).2

end

end LwipDtn
