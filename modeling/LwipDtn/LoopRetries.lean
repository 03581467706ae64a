import LwipDtn.MainLoop

/-!
The retries of the main loop. A pass that is over before a retry delay has gone by writes
every slot of the retry table once, so no destination has been attempted more often than
there have been passes. Where the contacts have few different starts, no packet ever uses
up its retries.
-/

namespace LwipDtn
open Outcome Bytes BoundedFifo Runs Milestones

section

variable {cfg : Config} {text : AddrText}

/-- A slot of the table after some of the attempts of a pass: its count is within the bound
of the table before the pass, or the pass has written the slot once. -/
def WrittenOnce (env : Nat → PassEnv) (bound step : Nat) (a : ForwardingAttempt) : Prop :=
  a.retryCount ≤ bound ∨
    a.retryCount ≤ bound + 1 ∧ ∃ j < step, a.lastAttemptTime = (env j).attempt.now

/-- No retry delay goes by between the packets of a pass. -/
def Brisk (env : Nat → PassEnv) (n : Nat) : Prop :=
  ∀ j k, j < k → k < n → (env k).attempt.now - (env j).attempt.now < forwardingRetryDelayMs

/-- The counts of all slots in the middle of a pass. -/
structure CountsWithin (env : Nat → PassEnv) (bound step : Nat) (node : Node) : Prop where
  distinct : (tracked node.attempts).Nodup
  counts : ∀ addr a, slotFor node.attempts addr = some a → WrittenOnce env bound step a

theorem CountsWithin.attempt {env : Nat → PassEnv} {bound step n : Nat} {node node' : Node}
    {dest : Ip6Addr} {answer : Bool} (h : CountsWithin env bound step node)
    (few : bound < maxForwardingRetries) (brisk : Brisk env n) (hstep : step < n)
    (hrun : shouldAttemptForward (env step).attempt node dest = .ok (answer, node')) :
    CountsWithin env bound (step + 1) node' ∧ node'.storage = node.storage := by
  have hattempted := shouldAttemptForward_attempted hrun
  have later {a : ForwardingAttempt} (ha : WrittenOnce env bound step a) :
      WrittenOnce env bound (step + 1) a :=
    ha.imp id fun written => written.imp id fun earlier =>
      earlier.imp fun _ => And.imp_left Nat.lt_succ_of_lt
  -- a slot that the pass has written is early for the rest of it
  have unwritten {a : ForwardingAttempt} (ha : WrittenOnce env bound step a)
      (due : a.Due (env step).attempt.now) : a.retryCount ≤ bound := by
    refine ha.resolve_right ?_
    rintro ⟨-, j, hj, hlast⟩
    rw [ForwardingAttempt.Due, hlast] at due
    exact absurd (brisk j step hj hstep) (UInt32.not_lt.mpr due)
  have hdistinct := shouldAttemptForward_nodup h.distinct hrun
  have others {addr : Block 16} (ne : addr ≠ dest.addr) {a : ForwardingAttempt}
      (ha : slotFor node'.attempts addr = some a) : WrittenOnce env bound (step + 1) a :=
    later (h.counts addr a (hattempted.slotFor_other ne ▸ ha))
  have slots (own : ∀ a, slotFor node'.attempts dest.addr = some a →
      WrittenOnce env bound (step + 1) a) : CountsWithin env bound (step + 1) node' := by
    refine ⟨hdistinct, fun addr a ha => ?_⟩
    by_cases hdest : addr = dest.addr
    · subst hdest
      exact own a ha
    · exact others hdest ha
  cases hattempted with
  | waits | unrecorded => exact ⟨slots fun a ha => later (h.counts _ a ha), rfl⟩
  | expired _ slot due used =>
      exact absurd (Nat.le_trans used (unwritten (h.counts _ _ slot) due)) (Nat.not_le.mpr few)
  | retried index slot due left =>
      refine ⟨slots fun a ha => ?_, rfl⟩
      cases (slotFor_retried index slot _ _).symm.trans ha
      exact .inr ⟨Nat.succ_le_succ (unwritten (h.counts _ _ slot) due), step, Nat.lt_succ_self _,
        rfl⟩
  | recorded absent free =>
      refine ⟨slots fun a ha => ?_, rfl⟩
      cases (slotFor_recorded absent free _ _).symm.trans ha
      exact .inr ⟨Nat.le_add_left _ _, step, Nat.lt_succ_self _, rfl⟩

theorem CountsWithin.visits {env : Nat → PassEnv} {bound step i n : Nat} {node node' : Node}
    {entries : List StoredPacketEntry} {visits : List Visit} (h : CountsWithin env bound step node)
    (few : bound < maxForwardingRetries) (brisk : Brisk env n) (fits : step + entries.length ≤ n)
    (hrun : visitEntries cfg env step i entries node = .ok (node', visits)) :
    CountsWithin env bound (step + entries.length) node' ∧ node'.storage = node.storage := by
  induction entries generalizing step i node visits with
  | nil =>
      cases hrun
      exact ⟨h, rfl⟩
  | cons e rest ih =>
      simp only [visitEntries, Run.bind_eq_ok] at hrun
      obtain ⟨⟨answer, m⟩, hattempt, sent, -, ⟨m', later⟩, hlater, hrun⟩ := hrun
      cases hrun
      rw [List.length_cons] at fits
      obtain ⟨hm, hsame⟩ := h.attempt few brisk (by omega) hattempt
      obtain ⟨hm', hsame'⟩ := ih hm (by omega) hlater
      rw [List.length_cons, Nat.add_comm rest.length, ← Nat.add_assoc]
      exact ⟨hm', hsame'.trans hsame⟩

/-- No destination has been attempted more often than there have been passes. -/
structure CountsPasses (attempts : List ForwardingAttempt) (passes : Nat) : Prop where
  distinct : (tracked attempts).Nodup
  counts : ∀ addr a, slotFor attempts addr = some a → a.retryCount ≤ passes

/-- A pass adds one to every count, and keeps the storage as long as the counts are below
the limit. -/
theorem CountsPasses.pass {env : Nat → PassEnv} {passes : Nat} {node node' : Node}
    {forwarded : List Effect} (h : CountsPasses node.attempts passes)
    (few : passes < maxForwardingRetries)
    (brisk : Brisk env node.storage.packetListHead.length)
    (hrun : dtnControllerAttemptForwardStored cfg env node = .ok (node', forwarded)) :
    CountsPasses node'.attempts (passes + 1) ∧ node'.storage = node.storage := by
  rw [attemptForwardStored_eq] at hrun
  obtain ⟨⟨n, visits⟩, hvisits, hrun⟩ := Run.bind_eq_ok.mp hrun
  cases hrun
  have hstart : CountsWithin env passes 0 node :=
    ⟨h.distinct, fun addr a ha => .inl (h.counts addr a ha)⟩
  obtain ⟨hend, hsame⟩ := hstart.visits few brisk (Nat.le_of_eq (Nat.zero_add _)) hvisits
  refine ⟨⟨hend.distinct, fun addr a ha => ?_⟩, hsame⟩
  rcases hend.counts addr a ha with hle | ⟨hle, -⟩
  · exact Nat.le_succ_of_le hle
  · exact hle

theorem CountsPasses.untrack {attempts : List ForwardingAttempt} {passes : Nat}
    (h : CountsPasses attempts passes) (dest : Ip6Addr) :
    CountsPasses (dtnControllerRemoveTracking attempts dest) passes := by
  refine ⟨(tracked_removeTracking h.distinct).1, fun addr a ha => ?_⟩
  by_cases hdest : addr = dest.addr
  · subst hdest
    cases (slotFor_removeTracking h.distinct).symm.trans ha
  · exact h.counts addr a (slotFor_removeTracking_other hdest ▸ ha)

theorem CountsPasses.receive {passes : Nat} {arrival : Option Arrival} {node node' : Node}
    {received : List Effect} (h : CountsPasses node.attempts passes)
    (hrun : LwipDtn.receive cfg text arrival node = .ok (node', received)) :
    CountsPasses node'.attempts passes := by
  obtain ⟨rfl, -⟩ | ⟨env, p, hrun⟩ := receive_event hrun
  · exact h
  cases processIncoming_cases hrun with
  | dropped | delivered | forwarded | relayed | refused | stored => exact h
  | consumed _ hconsumed =>
      obtain ⟨-, rfl | ⟨q, -, hprocess⟩⟩ := consumeStatus_inv hconsumed
      · exact h
      obtain rfl | ⟨dest, -, -, -, hattempts⟩ := icmpv6Process_inv hprocess
      · exact h
      · exact hattempts ▸ h.untrack ⟨dest, 0, noPadding⟩

end

def Round.Brisk : Round → Prop
  | .interrupted => True
  | .checked _ _ _ pass => LwipDtn.Brisk pass maxStoredPackets

def BriskInOrder (s : LoopTrace) (round : Round) : Prop := InOrder s round ∧ round.Brisk

theorem CountsPasses.turn {cfg : Config} {text : AddrText} {contacts : List ContactInfo}
    {s s' : LoopTrace} {round : Round} (h : CountsPasses s.state.node.attempts s.passes)
    (valid : s.state.node.storage.Valid) (few : s'.passes ≤ maxForwardingRetries)
    (brisk : round.Brisk) (turn : Turns cfg text contacts s round s') :
    CountsPasses s'.state.node.attempts s'.passes ∧ ∃ node received,
      LwipDtn.receive cfg text round.arrival s.state.node = .ok (node, received) ∧
      s'.state.node.storage = node.storage := by
  cases turn with
  | interrupted => exact ⟨h, _, _, rfl, rfl⟩
  | quiet hreceive => exact ⟨h.receive hreceive, _, _, hreceive, rfl⟩
  | passes hreceive _ hpass =>
      have hbound := (receive_valid valid hreceive).bounded
      obtain ⟨hcounts, hsame⟩ := (h.receive hreceive).pass few
        (fun j k hjk hk => brisk j k hjk (Nat.lt_of_lt_of_le hk hbound)) hpass
      exact ⟨hcounts, _, _, hreceive, hsame⟩

/-- As long as the remembered contacts have no more different starts than a packet has
retries, no pass takes a packet out of the storage: every round leaves the storage as the
packet that it has read left it. -/
theorem passes_keep_stored_packets (cfg : Config) (text : AddrText) (contacts : List ContactInfo)
    (few : (starts contacts).dedup.length ≤ maxForwardingRetries) (s s' : LoopTrace)
    (reached : (loopSystem cfg text contacts).Reaches BriskInOrder s) (round : Round)
    (condition : BriskInOrder s round) (next : s.next cfg text contacts round = .ok s') :
    ∃ node received, receive cfg text round.arrival s.state.node = .ok (node, received) ∧
      s'.state.node.storage = node.storage := by
  have within {t : LoopTrace} (ht : (loopSystem cfg text contacts).Reaches BriskInOrder t) :
      t.passes ≤ maxForwardingRetries := by
    have hcharged := (charged_of_reaches (fun _ _ => And.left) ht).charged
    exact Nat.le_trans (Nat.le_trans hcharged (passed_le _ _)) few
  have hcounts : CountsPasses s.state.node.attempts s.passes := by
    clear condition next
    induction reached with
    | start fresh =>
        have hfresh : LoopTrace.Fresh _ := fresh
        rw [hfresh.created.1, hfresh.passes]
        exact ⟨List.nodup_nil, fun addr a ha => by cases ha⟩
    | step run condition next ih =>
        exact (ih.turn (loop_valid run) (within (run.step condition next)) condition.2
          (LoopTrace.next_turns next)).1
  exact (hcounts.turn (loop_valid reached) (within (reached.step condition next)) condition.2
    (LoopTrace.next_turns next)).2

/-- The packet is handed over and stays in the storage. -/
theorem passes_keep_waiting_packet :
    ∃ s s', (loopSystem sampleConfig hexAddrText laterContacts).Reaches BriskInOrder s ∧
      s.next sampleConfig hexAddrText laterContacts (idleRound 6000) = .ok s' ∧ s'.passes = 1 ∧
      s'.state.node.storage = s.state.node.storage := by
  have brisk (env : PassEnv) (n : Nat) : Brisk (fun _ => env) n := fun _ _ _ _ => by
    rw [UInt32.sub_self]
    decide
  have hwaiting := LoopTrace.after_reached laterContacts (freshLoop_reached BriskInOrder) rfl
    arrivalRound ⟨⟨nofun, Nat.le_refl _⟩, brisk _ _⟩ (by decide +kernel)
  obtain ⟨s', hnext⟩ : Run.Returns
      (waitingLoop.next sampleConfig hexAddrText laterContacts (idleRound 6000)) := by
    decide +kernel
  have hpasses : servedLoop.passes = 1 := by decide +kernel
  rw [servedLoop, LoopTrace.after, hnext] at hpasses
  obtain ⟨node, received, hreceive, hsame⟩ := passes_keep_stored_packets sampleConfig hexAddrText
    laterContacts (by decide +kernel) _ _ hwaiting (idleRound 6000)
    ⟨inOrder_iff.mpr (by decide +kernel), brisk _ _⟩ hnext
  have hnode := (Prod.mk.inj (Except.ok.inj hreceive)).1
  exact ⟨_, s', hwaiting, hnext, hpasses, by rw [hsame, ← hnode]⟩

end LwipDtn
