import LwipDtn.Buffers
import LwipDtn.ContactWindows
import LwipDtn.Library.Milestones
import LwipDtn.PassVisits

/-!
The loop of `main`. Every round handles the packet that can be read, if there is one, and
checks the contacts; the pass over the stored packets is made only in a round in which a
contact has opened, and starts by checking the contacts once more, without looking at the
answer. So the stored packets are looked at only when the clock has passed the start of a
contact, and never between two starts.
-/

namespace LwipDtn
open Outcome Bytes BoundedFifo Runs Milestones

/-- The storage and the retry table of the node, and the static variables of
`dtn_routing_update_contacts`. -/
structure LoopState where
  node : Node
  states : ContactStates

/-- One round: `select` is interrupted, or it returns, and there is a packet to be read or
not. The clock is read when the contacts are checked, and again at the start of a pass. -/
inductive Round where
  | interrupted
  | checked (arrival : Option Arrival) (now passNow : UInt32) (pass : Nat → PassEnv)

def Round.arrival : Round → Option Arrival
  | .interrupted => none
  | .checked arrival _ _ _ => arrival

/-- What a round has done: when it has checked the contacts, whether it has made a pass,
and the effects of both parts. -/
structure Report where
  readings : List UInt32
  passed : Bool
  received : List Effect
  forwarded : List Effect

/-- `tunif_input`, if `select` says that there is something to read. -/
def receive (cfg : Config) (text : AddrText) (arrival : Option Arrival) (node : Node) :
    Run (Node × List Effect) :=
  match arrival with
  | some a => tunifInput cfg text a node
  | none => return (node, [])

/-- The body of the loop. An error of `select` and a closed tunnel end the loop and are not
rounds. -/
def mainLoopBody (cfg : Config) (text : AddrText) (contacts : List ContactInfo) (s : LoopState) :
    Round → Run (LoopState × Report)
  | .interrupted => return (s, ⟨[], false, [], []⟩)
  | .checked arrival now passNow pass => do
      let (node, received) ← receive cfg text arrival s.node
      let (cont, states) := dtnRoutingUpdateContacts s.states contacts now
      if cont then
        -- the first thing that the pass does, and its result is not used
        let (_, states) := dtnRoutingUpdateContacts states contacts passNow
        let (node, forwarded) ← dtnControllerAttemptForwardStored cfg pass node
        return (⟨node, states⟩, ⟨[now, passNow], true, received, forwarded⟩)
      else return (⟨node, states⟩, ⟨[now], false, received, []⟩)

/-- A run of the loop: the readings of the clock, the number of passes, and the effects of
the packets and of the passes. -/
structure LoopTrace where
  state : LoopState
  readings : List UInt32
  passes : Nat
  received : List Effect
  forwarded : List Effect

def LoopTrace.record (s : LoopTrace) (state : LoopState) (r : Report) : LoopTrace where
  state := state
  readings := s.readings ++ r.readings
  passes := if r.passed then s.passes + 1 else s.passes
  received := s.received ++ r.received
  forwarded := s.forwarded ++ r.forwarded

def LoopTrace.next (cfg : Config) (text : AddrText) (contacts : List ContactInfo) (s : LoopTrace)
    (round : Round) : Run LoopTrace := do
  let (state, report) ← mainLoopBody cfg text contacts s.state round
  return s.record state report

/-- The node has just been created, and no contact has been checked. -/
structure LoopTrace.Fresh (s : LoopTrace) : Prop where
  created : s.state.node.Created
  states : s.state.states = .initial
  readings : s.readings = []
  passes : s.passes = 0
  received : s.received = []
  forwarded : s.forwarded = []

def loopSystem (cfg : Config) (text : AddrText) (contacts : List ContactInfo) :
    System LoopTrace Round where
  start := LoopTrace.Fresh
  step s round s' := s.next cfg text contacts round = .ok s'

def lastReading (readings : List UInt32) : Option Nat := readings.getLast?.map UInt32.toNat

/-- The clock does not go back, and does not wrap. -/
def InOrder (s : LoopTrace) : Round → Prop
  | .interrupted => True
  | .checked _ now passNow _ =>
      (∀ t ∈ lastReading s.readings, t ≤ now.toNat) ∧ now.toNat ≤ passNow.toNat

/-- The times at which the contacts start whose states are remembered. -/
def starts (contacts : List ContactInfo) : List Nat :=
  (contacts.take maxContactStates).map fun c => c.startTimeMs.toNat

section

variable {cfg : Config} {text : AddrText} {contacts : List ContactInfo} {s s' : LoopTrace}
  {round : Round}

inductive Turns (cfg : Config) (text : AddrText) (contacts : List ContactInfo) (s : LoopTrace) :
    Round → LoopTrace → Prop
  | interrupted : Turns cfg text contacts s .interrupted s
  | quiet {arrival : Option Arrival} {now passNow : UInt32} {pass : Nat → PassEnv} {node : Node}
      {received : List Effect} {states : ContactStates}
      (hreceive : receive cfg text arrival s.state.node = .ok (node, received))
      (update : dtnRoutingUpdateContacts s.state.states contacts now = (false, states)) :
      Turns cfg text contacts s (.checked arrival now passNow pass)
        ⟨⟨node, states⟩, s.readings ++ [now], s.passes, s.received ++ received, s.forwarded⟩
  | passes {arrival : Option Arrival} {now passNow : UInt32} {pass : Nat → PassEnv}
      {node node' : Node} {received forwarded : List Effect} {states : ContactStates}
      (hreceive : receive cfg text arrival s.state.node = .ok (node, received))
      (update : dtnRoutingUpdateContacts s.state.states contacts now = (true, states))
      (hpass : dtnControllerAttemptForwardStored cfg pass node = .ok (node', forwarded)) :
      Turns cfg text contacts s (.checked arrival now passNow pass)
        ⟨⟨node', (dtnRoutingUpdateContacts states contacts passNow).2⟩,
          s.readings ++ [now] ++ [passNow], s.passes + 1, s.received ++ received,
          s.forwarded ++ forwarded⟩

theorem LoopTrace.next_turns (h : s.next cfg text contacts round = .ok s') :
    Turns cfg text contacts s round s' := by
  rw [LoopTrace.next, Run.bind_eq_ok] at h
  obtain ⟨⟨state, report⟩, hbody, h⟩ := h
  cases h
  cases round with
  | interrupted =>
      cases hbody
      simp only [record, List.append_nil, Bool.false_eq_true, if_false]
      exact .interrupted
  | checked arrival now passNow pass =>
      rw [mainLoopBody, Run.bind_eq_ok] at hbody
      obtain ⟨⟨node, received⟩, hreceive, hbody⟩ := hbody
      dsimp only at hbody
      split at hbody
      · rename_i cont
        rw [Run.bind_eq_ok] at hbody
        obtain ⟨⟨node', forwarded⟩, hpass, hbody⟩ := hbody
        cases hbody
        simp only [record, if_true]
        rw [List.append_cons s.readings]
        exact .passes hreceive (Prod.ext cont rfl) hpass
      · rename_i cont
        cases hbody
        simp only [record, List.append_nil, Bool.false_eq_true, if_false]
        exact .quiet hreceive (Prod.ext (by simpa using cont) rfl)

/-! The loop as a run of the node: what the rounds do to the node are packets and passes. -/

theorem receive_event {arrival : Option Arrival} {node node' : Node} {received : List Effect}
    (h : receive cfg text arrival node = .ok (node', received)) :
    (node' = node ∧ received = []) ∨
      ∃ env p, NodeEvent.run cfg text node (.incoming env p) = .ok (node', received) := by
  cases arrival with
  | none =>
      cases h
      exact .inl ⟨rfl, rfl⟩
  | some a =>
      rw [receive, tunifInput] at h
      split at h
      · cases h
        exact .inl ⟨rfl, rfl⟩
      · exact .inr ⟨_, _, h⟩

theorem reaches_event {log effects : List Effect} {node node' : Node} (event : NodeEvent)
    (reached : (nodeSystem cfg text).Reaches (fun _ _ => True) ⟨node, log⟩)
    (h : event.run cfg text node = .ok (node', effects)) :
    (nodeSystem cfg text).Reaches (fun _ _ => True) ⟨node', log ++ effects⟩ := by
  refine reached.step (e := event) trivial ?_
  show NodeTrace.next cfg text ⟨node, log⟩ event = _
  rw [NodeTrace.next, h]
  rfl

theorem reaches_receive {log received : List Effect} {node node' : Node} {arrival : Option Arrival}
    (reached : (nodeSystem cfg text).Reaches (fun _ _ => True) ⟨node, log⟩)
    (h : receive cfg text arrival node = .ok (node', received)) :
    (nodeSystem cfg text).Reaches (fun _ _ => True) ⟨node', log ++ received⟩ := by
  obtain ⟨rfl, rfl⟩ | ⟨env, p, h⟩ := receive_event h
  · rwa [List.append_nil]
  · exact reaches_event _ reached h

/-- Every run of the loop is a run of the node. -/
theorem loop_reaches_node {meets : LoopTrace → Round → Prop}
    (h : (loopSystem cfg text contacts).Reaches meets s) :
    ∃ log, (nodeSystem cfg text).Reaches (fun _ _ => True) ⟨s.state.node, log⟩ := by
  refine h.invariant (P := fun s => ∃ log, (nodeSystem cfg text).Reaches _ ⟨s.state.node, log⟩)
    (fun s (fresh : s.Fresh) => ⟨[], .start ⟨fresh.created, rfl⟩⟩) ?_
  rintro s round s' ⟨log, reached⟩ - hnext
  cases LoopTrace.next_turns hnext with
  | interrupted => exact ⟨log, reached⟩
  | quiet hreceive => exact ⟨_, reaches_receive reached hreceive⟩
  | passes hreceive _ hpass =>
      exact ⟨_, reaches_event (.pass _) (reaches_receive reached hreceive) hpass⟩

/-! The clock and the passes. -/

@[simp] theorem lastReading_concat (readings : List UInt32) (now : UInt32) :
    lastReading (readings ++ [now]) = some now.toNat := by
  rw [lastReading, List.getLast?_concat]
  rfl

theorem statesAfter_concat (times : List UInt32) (now : UInt32) :
    statesAfter contacts (times ++ [now]) =
      (dtnRoutingUpdateContacts (statesAfter contacts times) contacts now).2 := by
  rw [statesAfter, List.foldl_append]
  rfl

theorem Turns.remembers (h : Turns cfg text contacts s round s')
    (ih : s.state.states = statesAfter contacts s.readings) :
    s'.state.states = statesAfter contacts s'.readings := by
  cases h with
  | interrupted => exact ih
  | quiet _ update =>
      rw [ih] at update
      rw [statesAfter_concat, update]
  | passes _ update =>
      rw [ih] at update
      rw [statesAfter_concat, statesAfter_concat, update]

/-- A contact opens only when the clock has passed its start since it was last read. -/
theorem start_new {c : ContactInfo} {times : List UInt32} {now : UInt32}
    (opens : c.Opens times.getLast? now) (order : ∀ t ∈ lastReading times, t ≤ now.toNat) :
    c.startTimeMs.toNat ≤ now.toNat ∧
      isPassed (lastReading times) c.startTimeMs.toNat = false := by
  obtain ⟨hopen, hclosed⟩ := opens
  rw [ContactInfo.openAt, Bool.and_eq_true, decide_eq_true_eq, decide_eq_true_eq,
    UInt32.le_iff_toNat_le, UInt32.le_iff_toNat_le] at hopen
  refine ⟨hopen.1, ?_⟩
  rw [lastReading] at order ⊢
  cases hlast : times.getLast? with
  | none => rfl
  | some t =>
      rw [hlast] at hclosed order
      have hle := order t.toNat rfl
      simp only [Option.any_some, ContactInfo.openAt, Bool.and_eq_false_iff,
        decide_eq_false_iff_not, UInt32.le_iff_toNat_le] at hclosed
      refine Bool.eq_false_iff.mpr fun hpassed => ?_
      have hstart := isPassed_some.mp hpassed
      omega

/-- A pass is made in a round in which the clock passes a start. -/
theorem update_passes_start (hstates : s.state.states = statesAfter contacts s.readings)
    {now : UInt32} {states : ContactStates}
    (update : dtnRoutingUpdateContacts s.state.states contacts now = (true, states))
    (order : ∀ t ∈ lastReading s.readings, t ≤ now.toNat) :
    ∃ m ∈ starts contacts, m ≤ now.toNat ∧ isPassed (lastReading s.readings) m = false := by
  have hret : (dtnRoutingUpdateContacts (statesAfter contacts s.readings) contacts now).1 =
      true := by
    rw [← hstates, update]
  obtain ⟨c, hmem, opens⟩ := (updateContacts_ret s.readings).mp hret
  exact ⟨_, List.mem_map.mpr ⟨c, hmem, rfl⟩, start_new opens order⟩

/-- The passes so far are covered by the starts that the clock has passed. -/
structure Charged (contacts : List ContactInfo) (s : LoopTrace) : Prop where
  states : s.state.states = statesAfter contacts s.readings
  charged : s.passes ≤ passed (starts contacts) (lastReading s.readings)

theorem LoopTrace.Fresh.charged (h : s.Fresh) : Charged contacts s where
  states := by
    rw [h.states, h.readings]
    rfl
  charged := by
    rw [h.passes]
    exact Nat.zero_le _

theorem Charged.turn (h : Charged contacts s) (order : InOrder s round)
    (turn : Turns cfg text contacts s round s') : Charged contacts s' := by
  refine ⟨turn.remembers h.states, ?_⟩
  cases turn with
  | interrupted => exact h.charged
  | quiet =>
      rw [lastReading_concat]
      exact Nat.le_trans h.charged (passed_mono order.1)
  | passes _ update =>
      obtain ⟨m, hmem, reached, new⟩ := update_passes_start h.states update order.1
      rw [lastReading_concat]
      calc s.passes + 1 ≤ passed (starts contacts) (lastReading s.readings) + 1 :=
            Nat.succ_le_succ h.charged
        _ ≤ passed (starts contacts) (some _) := passed_lt order.1 hmem reached new
        _ ≤ passed (starts contacts) (some _) :=
            passed_mono fun t ht => Option.some.inj ht ▸ order.2

theorem charged_of_reaches {meets : LoopTrace → Round → Prop}
    (orders : ∀ s round, meets s round → InOrder s round)
    (h : (loopSystem cfg text contacts).Reaches meets s) : Charged contacts s :=
  h.invariant (fun s (fresh : s.Fresh) => fresh.charged)
    fun _ _ _ ih condition hnext => ih.turn (orders _ _ condition) (LoopTrace.next_turns hnext)

/-! What one pass does. -/

theorem visit_handovers_le {env : PassEnv} {answer : Bool} {node : Node} {entry : StoredPacketEntry}
    {sent : List Effect} (h : visitEffects cfg env answer node entry = .ok sent) :
    handovers sent ≤ 1 := by
  cases answer with
  | false =>
      cases h
      exact Nat.zero_le 1
  | true => exact (forwardEntry_handovers h).2

theorem visits_handovers_le {env : Nat → PassEnv} {entries : List StoredPacketEntry} {step i : Nat}
    {node node' : Node} {visits : List Visit}
    (h : visitEntries cfg env step i entries node = .ok (node', visits)) :
    handovers (visits.flatMap Visit.sent) ≤ entries.length := by
  induction entries generalizing step i node visits with
  | nil =>
      cases h
      exact Nat.le_refl _
  | cons e rest ih =>
      simp only [visitEntries, Run.bind_eq_ok] at h
      obtain ⟨⟨answer, n⟩, -, sent, hsent, ⟨n', later⟩, hlater, h⟩ := h
      cases h
      rw [handovers, List.flatMap_cons, List.countP_append, List.length_cons, Nat.add_comm]
      exact Nat.add_le_add (ih hlater) (visit_handovers_le hsent)

theorem pass_handovers_le {env : Nat → PassEnv} {node node' : Node} {forwarded : List Effect}
    (h : dtnControllerAttemptForwardStored cfg env node = .ok (node', forwarded)) :
    handovers forwarded ≤ node.storage.packetListHead.length := by
  rw [attemptForwardStored_eq] at h
  obtain ⟨⟨n, visits⟩, hvisits, h⟩ := Run.bind_eq_ok.mp h
  cases h
  exact visits_handovers_le hvisits

theorem StorageFunction.Valid.offered {node : Node} (h : node.storage.Valid) {env : StoreEnv}
    {p : Pbuf} {dest : Ip6Addr} {r : Bool} {storage : StorageFunction}
    (hstore : dtnStorageStorePacket text env node.storage p dest = .ok (r, storage)) :
    storage.Valid := by
  obtain ⟨-, rfl | ⟨-, -, -, disk, -, rfl⟩⟩ |
    ⟨-, ⟨room, -⟩, -, -, q, disk, -, -, -, rfl⟩ := store_cases hstore
  · exact h
  · exact h.of_disk disk
  · exact (h.of_disk disk).append room _

theorem StorageFunction.Valid.consumeStatus {node node' : Node} (h : node.storage.Valid)
    {env : IncomingEnv} {p : Pbuf} (hrun : LwipDtn.consumeStatus env node p = .ok (some node')) :
    node'.storage.Valid := by
  obtain ⟨-, rfl | ⟨q, -, hprocess⟩⟩ := consumeStatus_inv hrun
  · exact h
  obtain rfl | ⟨-, -, hdelete, -⟩ := icmpv6Process_inv hprocess
  · exact h
  obtain hs | ⟨e, rest, hs, htakes, -⟩ := deleteAcknowledged_inv hdelete
  · exact hs ▸ h
  · exact hs ▸ h.unlinked _ htakes.perm

theorem NodeEvent.valid {event : NodeEvent} {node node' : Node} {effects : List Effect}
    (h : node.storage.Valid) (hrun : event.run cfg text node = .ok (node', effects)) :
    node'.storage.Valid := by
  cases event with
  | pass env =>
      refine (attemptForwardStored_rule (P := fun n => n.storage.Valid) (R := fun _ => True) trivial
        (fun _ _ _ _ => trivial) ?_ (fun _ _ _ _ _ _ _ => trivial) hrun h).1
      intro step n n' entry attempt hn _ hattempt
      obtain hs | ⟨-, e, rest, hs, htake⟩ := shouldAttemptForward_cases hattempt
      · exact hs ▸ hn
      · exact hs ▸ hn.unlinked _ htake.perm
  | incoming env p =>
      cases processIncoming_cases hrun with
      | dropped | delivered | forwarded | relayed => exact h
      | consumed _ hconsumed => exact h.consumeStatus hconsumed
      | refused hstore | stored _ hstore => exact h.offered hstore

theorem receive_valid {arrival : Option Arrival} {node node' : Node} {received : List Effect}
    (h : node.storage.Valid) (hrun : receive cfg text arrival node = .ok (node', received)) :
    node'.storage.Valid := by
  obtain ⟨rfl, -⟩ | ⟨env, p, hrun⟩ := receive_event hrun
  · exact h
  · exact NodeEvent.valid h hrun

theorem loop_valid {meets : LoopTrace → Round → Prop}
    (h : (loopSystem cfg text contacts).Reaches meets s) : s.state.node.storage.Valid := by
  obtain ⟨log, hnode⟩ := loop_reaches_node h
  refine hnode.invariant (P := fun t => t.node.storage.Valid) ?_ ?_
  · rintro t ⟨⟨-, disk, env, hcreate⟩, -⟩
    exact .create hcreate
  · intro t event t' ih _ hnext
    obtain ⟨effects, hrun, -⟩ := NodeTrace.next_cases hnext
    exact NodeEvent.valid ih hrun

end

/-! A packet that waits for a contact. -/

/-- The contacts start after five seconds. -/
def laterContacts : List ContactInfo :=
  openContacts.map fun c => { c with startTimeMs := 5000, endTimeMs := 9000 }

def laterRouting : RoutingView := ⟨laterContacts, fun _ => .ok (some neighbour)⟩

def arrivalRound : Round :=
  .checked (some ⟨some quietPbuf, { incomingAt 1000 true with routing := laterRouting }⟩) 1000 1000
    fun _ => { passAt 1000 with routing := laterRouting }

def idleRound (now : UInt32) : Round :=
  .checked none now now fun _ => { passAt now with routing := laterRouting }

def freshLoop : LoopTrace := ⟨⟨emptyNode, .initial⟩, [], 0, [], []⟩

def LoopTrace.after (contacts : List ContactInfo) (s : LoopTrace) (round : Round) : LoopTrace :=
  (s.next sampleConfig hexAddrText contacts round).toOption.getD s

theorem LoopTrace.after_reached (contacts : List ContactInfo) {meets : LoopTrace → Round → Prop}
    {s : LoopTrace} {S : System LoopTrace Round} (run : S.Reaches meets s)
    (hS : S.step = (loopSystem sampleConfig hexAddrText contacts).step) (round : Round)
    (condition : meets s round)
    (returns : Run.Returns (s.next sampleConfig hexAddrText contacts round)) :
    S.Reaches meets (s.after contacts round) := by
  obtain ⟨s', h⟩ := returns
  rw [after, h]
  refine run.step condition ?_
  rw [hS]
  exact h

theorem freshLoop_fresh : freshLoop.Fresh where
  created := ⟨rfl, [], emptyEnv, rfl⟩
  states := rfl
  readings := rfl
  passes := rfl
  received := rfl
  forwarded := rfl

theorem freshLoop_reached (meets : LoopTrace → Round → Prop) :
    (loopSystem sampleConfig hexAddrText laterContacts).Reaches meets freshLoop :=
  .start freshLoop_fresh

def waitingLoop : LoopTrace := freshLoop.after laterContacts arrivalRound

/-- The contacts open, and the packet is handed over. -/
def servedLoop : LoopTrace := waitingLoop.after laterContacts (idleRound 6000)

theorem servedLoop_reached {meets : LoopTrace → Round → Prop} (first : meets freshLoop arrivalRound)
    (second : meets waitingLoop (idleRound 6000)) :
    (loopSystem sampleConfig hexAddrText laterContacts).Reaches meets servedLoop := by
  have hwaiting := LoopTrace.after_reached laterContacts (freshLoop_reached meets) rfl arrivalRound
    first (by decide +kernel)
  exact LoopTrace.after_reached laterContacts hwaiting rfl (idleRound 6000) second
    (by decide +kernel)

theorem inOrder_iff {s : LoopTrace} {arrival : Option Arrival} {now passNow : UInt32}
    {pass : Nat → PassEnv} : InOrder s (.checked arrival now passNow pass) ↔
      (∀ t ∈ lastReading s.readings, t ≤ now.toNat) ∧ now.toNat ≤ passNow.toNat := Iff.rfl

/-- A clock that does not go back makes at most as many passes as the remembered contacts
have different starts, and a pass hands over at most as many packets as can be stored. -/
theorem passes_bounded_by_starts (cfg : Config) (text : AddrText) (contacts : List ContactInfo)
    (s : LoopTrace) (h : (loopSystem cfg text contacts).Reaches InOrder s) :
    s.passes ≤ (starts contacts).dedup.length ∧
      handovers s.forwarded ≤ maxStoredPackets * s.passes := by
  refine ⟨Nat.le_trans (charged_of_reaches (fun _ _ => id) h).charged (passed_le _ _), ?_⟩
  induction h with
  | start fresh =>
      have hfresh : LoopTrace.Fresh _ := fresh
      rw [hfresh.forwarded]
      exact Nat.zero_le _
  | step run _ next ih =>
      have hvalid := loop_valid run
      cases LoopTrace.next_turns next with
      | interrupted => exact ih
      | quiet => exact ih
      | passes hreceive _ hpass =>
          have hbound : (Node.storage _).packetListHead.length ≤ maxStoredPackets :=
            (receive_valid hvalid hreceive).bounded
          rw [handovers, List.countP_append, Nat.mul_succ]
          exact Nat.add_le_add ih (Nat.le_trans (pass_handovers_le hpass) hbound)

theorem passes_bounded_once :
    ∃ s, (loopSystem sampleConfig hexAddrText laterContacts).Reaches InOrder s ∧ s.passes = 1 ∧
      handovers s.forwarded = 1 ∧ s.passes ≤ (starts laterContacts).dedup.length := by
  have hreached := @servedLoop_reached InOrder ⟨nofun, Nat.le_refl _⟩
    (inOrder_iff.mpr (by decide +kernel))
  exact ⟨_, hreached, by decide +kernel, by decide +kernel,
    (passes_bounded_by_starts sampleConfig hexAddrText laterContacts _ hreached).1⟩

/-- The clock has passed the start of every contact whose state is remembered. -/
def AllStarted (contacts : List ContactInfo) (s : LoopTrace) : Prop :=
  ∀ m ∈ starts contacts, isPassed (lastReading s.readings) m = true

instance (contacts : List ContactInfo) (s : LoopTrace) : Decidable (AllStarted contacts s) :=
  inferInstanceAs (Decidable (∀ m ∈ starts contacts, _))

theorem AllStarted.turn {cfg : Config} {text : AddrText} {contacts : List ContactInfo}
    {s s' : LoopTrace} {round : Round} (h : AllStarted contacts s)
    (hstates : s.state.states = statesAfter contacts s.readings) (order : InOrder s round)
    (turn : Turns cfg text contacts s round s') :
    AllStarted contacts s' ∧ s'.passes = s.passes ∧ s'.forwarded = s.forwarded := by
  cases turn with
  | interrupted => exact ⟨h, rfl, rfl⟩
  | quiet =>
      refine ⟨fun m hm => ?_, rfl, rfl⟩
      rw [lastReading_concat]
      exact isPassed_later order.1 (h m hm)
  | passes _ update =>
      obtain ⟨m, hmem, -, new⟩ := update_passes_start hstates update order.1
      rw [h m hmem] at new
      cases new

/-- Once every remembered contact has started, no packet that waits in the storage is
ever handed over again. -/
theorem nothing_forwarded_after_last_start (cfg : Config) (text : AddrText)
    (contacts : List ContactInfo) (s s' : LoopTrace)
    (reached : (loopSystem cfg text contacts).Reaches InOrder s) (started : AllStarted contacts s)
    (later : ((loopSystem cfg text contacts).resumed s).Reaches InOrder s') :
    s'.passes = s.passes ∧ s'.forwarded = s.forwarded := by
  have hstates := (charged_of_reaches (fun _ _ => id) reached).states
  refine (later.invariant (P := fun s' => s'.state.states = statesAfter contacts s'.readings ∧
    AllStarted contacts s' ∧ s'.passes = s.passes ∧ s'.forwarded = s.forwarded) ?_ ?_).2.2
  · rintro s' rfl
    exact ⟨hstates, started, rfl, rfl⟩
  · rintro t round t' ⟨ht, hstarted, hpasses, hforwarded⟩ order hnext
    have turn := LoopTrace.next_turns hnext
    obtain ⟨hstarted', hpasses', hforwarded'⟩ := hstarted.turn ht order turn
    exact ⟨turn.remembers ht, hstarted', hpasses'.trans hpasses, hforwarded'.trans hforwarded⟩

/-- The contacts are open, and another packet has to wait because there is no route. -/
def stuckRound : Round :=
  .checked (some ⟨some quietPbuf,
    { incomingAt 7000 true with routing := ⟨laterContacts, fun _ => .ok none⟩ }⟩)
    7000 7000 fun _ => { passAt 7000 with routing := laterRouting }

theorem nothing_forwarded_later :
    ∃ s s', (loopSystem sampleConfig hexAddrText laterContacts).Reaches InOrder s ∧
      ((loopSystem sampleConfig hexAddrText laterContacts).resumed s).Reaches InOrder s' ∧
      s'.state.node.stored = [quietPacket, quietPacket] ∧ s'.forwarded = s.forwarded := by
  have hreached := @servedLoop_reached InOrder ⟨nofun, Nat.le_refl _⟩
    (inOrder_iff.mpr (by decide +kernel))
  have hstart : ((loopSystem sampleConfig hexAddrText laterContacts).resumed servedLoop).Reaches
      InOrder servedLoop := .start rfl
  have hlater := LoopTrace.after_reached laterContacts hstart rfl stuckRound
    (inOrder_iff.mpr (by decide +kernel)) (by decide +kernel)
  exact ⟨_, _, hreached, hlater, by decide +kernel, (nothing_forwarded_after_last_start sampleConfig
    hexAddrText laterContacts _ _ hreached (by decide +kernel) hlater).2⟩

end LwipDtn
