import LwipDtn.ControllerReceipt
import LwipDtn.ControllerSteps
import LwipDtn.Library.Runs

/-!
Runs of a node, and what a custodian option promises. A packet that names the node as
its custodian is acknowledged to the node, so the node should hold the packet when it
sends it. The pass over the stored packets keeps this promise; the direct path does not,
because it names the node as custodian of a packet that was never stored.
-/

namespace LwipDtn
open Outcome Bytes BoundedFifo Runs

/-- The first option of the packet is a custodian option with this address. -/
def NamesCustodian (b : Bytes) (c : Block 16) : Prop := CustodyFirst b ∧ (b.drop 44).take 16 = c.1

def Effect.transmission : Effect → Option Transmission
  | .forward t => some t
  | .relay t => some t
  | .status t _ => some t
  | .deliver _ => none
  | .store _ _ => none

/-- A packet sent with the node's own address in its custodian option is in the storage
at that moment, without the option. -/
def HeldIfNamed (cfg : Config) (e : Effect) : Prop :=
  ∀ t, e.transmission = some t → NamesCustodian t.packet cfg.myAddr → untagged t.packet ∈ t.stored

/-- What can happen to a node. Clocks, contacts, routing answers and the outcomes of
allocations and system calls are in the environments. -/
inductive NodeEvent where
  | incoming (env : IncomingEnv) (p : Pbuf)
  | pass (env : Nat → PassEnv)

def NodeEvent.run (cfg : Config) (text : AddrText) (node : Node) :
    NodeEvent → Run (Node × List Effect)
  | .incoming env p => dtnControllerProcessIncoming cfg text env node p
  | .pass env => dtnControllerAttemptForwardStored cfg env node

def Node.Created (node : Node) : Prop :=
  node.attempts = dtnControllerCreate ∧
    ∃ (disk : Disk) (env : CreateEnv disk), dtnStorageCreate env = some node.storage

structure NodeTrace where
  node : Node
  log : List Effect

def NodeTrace.next (cfg : Config) (text : AddrText) (s : NodeTrace) (event : NodeEvent) :
    Run NodeTrace := do
  let (node, effects) ← event.run cfg text s.node
  return ⟨node, s.log ++ effects⟩

def NodeTrace.Fresh (s : NodeTrace) : Prop := s.node.Created ∧ s.log = []

/-- A node from its creation on, with the log of its effects. -/
def nodeSystem (cfg : Config) (text : AddrText) : System NodeTrace NodeEvent where
  start := NodeTrace.Fresh
  step s event s' := s.next cfg text event = .ok s'

/-- The events that keep the promise: no packet takes the direct path, a packet for a
destination outside the plan does not name the node already, and when a pass starts no
stored packet names the node or is shorter than its header says. -/
def KeepsCustody (cfg : Config) (node : Node) : NodeEvent → Prop
  | .incoming env p => ∀ dest, ip6AddrAt p.mem 24 = .ok dest →
      (cfg.isLocal dest = false → ∀ hop, routeAnswer env.routing env.activeNow p ≠ .ok (some hop)) ∧
      (dtnRoutingIsDtnDestination env.routing.contacts dest = false →
        ¬ NamesCustodian p.bytes cfg.myAddr)
  | .pass _ => ∀ b ∈ node.stored, plenOf b + ip6Hlen ≤ b.length ∧ ¬ NamesCustodian b cfg.myAddr

section

variable {cfg : Config} {text : AddrText} {node node' : Node} {effects : List Effect}

theorem statusPacket_nexth (env : StatusEnv) (type code reason : UInt8) (dest : Block 16)
    (plen : Block 2) (quote old : Bytes) :
    nexthOf (statusPacket cfg env type code reason dest plen quote old) = ip6NexthIcmp6 := rfl

theorem heldIfNamed_of_none {e : Effect} (h : e.transmission = none) : HeldIfNamed cfg e := by
  intro t ht
  rw [h] at ht
  cases ht

theorem Acknowledges.held {stored : List Bytes} {packet : Bytes}
    (h : Acknowledges cfg stored packet effects) : ∀ e ∈ effects, HeldIfNamed cfg e := by
  cases h with
  | none => nofun
  | sent env code dest plen old full =>
      intro e he t ht named
      rw [List.mem_singleton] at he
      subst he
      cases ht
      have hnexth := named.1.1
      rw [statusPacket_nexth] at hnexth
      exact absurd hnexth (by decide)

theorem Incoming.held {env : IncomingEnv} {p : Pbuf}
    (keeps : KeepsCustody cfg node (.incoming env p))
    (h : Incoming cfg text env node p node' effects) : ∀ e ∈ effects, HeldIfNamed cfg e := by
  cases h with
  | dropped => nofun
  | consumed _ _ => nofun
  | delivered _ hack =>
      exact List.forall_mem_append.mpr
        ⟨hack.held, List.forall_mem_singleton.mpr (heldIfNamed_of_none rfl)⟩
  | forwarded hdest notLocal answer _ => exact absurd answer ((keeps _ hdest).1 notLocal _)
  | refused _ => exact List.forall_mem_singleton.mpr (heldIfNamed_of_none rfl)
  | stored _ _ hack => exact List.forall_mem_cons.mpr ⟨heldIfNamed_of_none rfl, hack.held⟩
  | relayed hdest notDtn =>
      intro e he t ht named
      rw [List.mem_singleton] at he
      subst he
      cases ht
      exact absurd named ((keeps _ hdest).2 notDtn)

theorem Forwards.held {env : PassEnv} {entry : StoredPacketEntry}
    (hmem : entry ∈ node.storage.packetListHead)
    (keeps : ∀ b ∈ node.stored, plenOf b + ip6Hlen ≤ b.length ∧ ¬ NamesCustodian b cfg.myAddr)
    (h : Forwards cfg env node entry effects) : ∀ e ∈ effects, HeldIfNamed cfg e := by
  cases h with
  | skipped => nofun
  | delivered _ hack =>
      exact List.forall_mem_append.mpr
        ⟨hack.held, List.forall_mem_singleton.mpr (heldIfNamed_of_none rfl)⟩
  | forwarded _ _ _ copied added =>
      intro e he t ht named
      rw [List.mem_singleton] at he
      subst he
      cases ht
      have hstored : entry.p.bytes ∈ node.stored := List.mem_map.mpr ⟨entry, hmem, rfl⟩
      obtain ⟨honest, unnamed⟩ := keeps _ hstored
      obtain ⟨behind, hb, rfl⟩ := pbufClone_single copied
      obtain hsame | ⟨wf, fits, htagged⟩ := add_cases honest added
      · rw [hsame] at named
        exact absurd named unnamed
      · have hp := wf.plen
        rw [ip6Hlen] at hp
        rwa [htagged, untagged_tagged cfg.myAddr wf.header (by omega)]

theorem shouldAttemptForward_stored {env : AttemptEnv} {dest : Ip6Addr} {attempt : Bool}
    (h : shouldAttemptForward env node dest = .ok (attempt, node')) :
    ∀ b ∈ node'.stored, b ∈ node.stored :=
  fun _ hb => ((shouldAttemptForward_sublist h).map _).subset hb

theorem NodeTrace.next_cases {s s' : NodeTrace} {event : NodeEvent}
    (h : s.next cfg text event = .ok s') : ∃ effects,
      event.run cfg text s.node = .ok (s'.node, effects) ∧ s'.log = s.log ++ effects := by
  rw [next, Run.bind_eq_ok] at h
  obtain ⟨⟨node, effects⟩, hrun, h⟩ := h
  cases h
  exact ⟨effects, hrun, rfl⟩

theorem NodeEvent.held {event : NodeEvent} (keeps : KeepsCustody cfg node event)
    (h : event.run cfg text node = .ok (node', effects)) : ∀ e ∈ effects, HeldIfNamed cfg e := by
  cases event with
  | incoming env p => exact Incoming.held keeps (processIncoming_cases h)
  | pass env =>
      exact (attemptForwardStored_rule (R := fun l => ∀ e ∈ l, HeldIfNamed cfg e) (by nofun)
        (fun _ _ hl hl' e he => (List.mem_append.mp he).elim (hl e) (hl' e))
        (fun _ _ _ _ _ hn _ hattempt b hb => hn b (shouldAttemptForward_stored hattempt b hb))
        (fun _ _ _ _ hn hmem hsent => hsent.held hmem hn) h keeps).2

end

/-- In every run whose events keep custody, a packet that is sent with the node's own
address in its custodian option is in the storage at that moment. -/
theorem named_custodian_holds_packet (cfg : Config) (text : AddrText) (s : NodeTrace)
    (h : (nodeSystem cfg text).Reaches (fun s => KeepsCustody cfg s.node) s) :
    ∀ e ∈ s.log, HeldIfNamed cfg e := by
  refine h.invariant (P := fun s => ∀ e ∈ s.log, HeldIfNamed cfg e) ?_ ?_
  · rintro s ⟨-, hlog⟩
    rw [hlog]
    nofun
  · intro s event s' ih keeps hnext
    obtain ⟨effects, hrun, hlog⟩ := NodeTrace.next_cases hnext
    rw [hlog]
    intro e he
    exact (List.mem_append.mp he).elim (ih e) (NodeEvent.held keeps hrun e)

def NodeTrace.after (cfg : Config) (text : AddrText) (s : NodeTrace) (event : NodeEvent) :
    NodeTrace :=
  (s.next cfg text event).toOption.getD s

theorem NodeTrace.after_reached {cfg : Config} {text : AddrText}
    {meets : NodeTrace → NodeEvent → Prop} {s : NodeTrace}
    (run : (nodeSystem cfg text).Reaches meets s) (event : NodeEvent) (condition : meets s event)
    (returns : Run.Returns (s.next cfg text event)) :
    (nodeSystem cfg text).Reaches meets (s.after cfg text event) := by
  obtain ⟨s', h⟩ := returns
  rw [after, h]
  exact run.step condition h

theorem emptyNode_reached (meets : NodeTrace → NodeEvent → Prop) :
    (nodeSystem sampleConfig hexAddrText).Reaches meets ⟨emptyNode, []⟩ :=
  .start ⟨⟨rfl, [], emptyEnv, rfl⟩, rfl⟩

/-- On the direct path the node names itself and holds nothing. -/
theorem direct_path_names_absent_custodian :
    ∃ s, (nodeSystem sampleConfig hexAddrText).Reaches (fun _ _ => True) s ∧
      ¬ ∀ e ∈ s.log, HeldIfNamed sampleConfig e := by
  refine ⟨_, NodeTrace.after_reached (emptyNode_reached _)
    (.incoming (incomingAt 2000 true) quietPbuf) trivial (by decide +kernel), fun h => ?_⟩
  have held := h (.forward ⟨tagged quietPacket sampleConfig.myAddr, neighbour.addr, true, []⟩)
    (List.mem_singleton.mpr rfl) _ rfl ⟨⟨rfl, rfl, rfl⟩, rfl⟩
  cases held

def passAt (now : UInt32) : PassEnv where
  attempt := ⟨now, true⟩
  routing := ⟨openContacts, fun _ => .ok (some neighbour)⟩
  activeNow := now
  forwardClone := smallHeap
  ackClone := smallHeap
  status := statusAt now
  add := smallHeap
  sendto := true

/-- The packet arrives before a contact is open; a pass two seconds after the start
forwards it. -/
def storedFirst : NodeTrace :=
  NodeTrace.after sampleConfig hexAddrText ⟨emptyNode, []⟩ (.incoming (incomingAt 7 true) quietPbuf)

theorem named_custodian_holds_stored :
    ∃ s t, (nodeSystem sampleConfig hexAddrText).Reaches
        (fun s => KeepsCustody sampleConfig s.node) s ∧
      Effect.forward t ∈ s.log ∧ NamesCustodian t.packet sampleConfig.myAddr ∧
      untagged t.packet ∈ t.stored := by
  have hfirst : (nodeSystem sampleConfig hexAddrText).Reaches
      (fun s => KeepsCustody sampleConfig s.node) storedFirst := by
    refine NodeTrace.after_reached (emptyNode_reached _) _ ?_ (by decide +kernel)
    intro dest hdest
    cases hdest
    refine ⟨fun _ hop hhop => ?_, fun notDtn => ?_⟩
    · cases hhop
    · cases notDtn
  have hsecond := NodeTrace.after_reached hfirst (.pass fun _ => passAt 2000) (by
    intro b hb
    rw [show storedFirst.node.stored = [quietPacket] from rfl, List.mem_singleton] at hb
    subst hb
    exact ⟨by decide, fun named => absurd named.1.1 (by decide)⟩) (by decide +kernel)
  have hmem : Effect.forward ⟨tagged quietPacket sampleConfig.myAddr, neighbour.addr, true,
      [quietPacket]⟩ ∈
        (storedFirst.after sampleConfig hexAddrText (.pass fun _ => passAt 2000)).log := by
    decide +kernel
  have names : NamesCustodian (tagged quietPacket sampleConfig.myAddr) sampleConfig.myAddr :=
    ⟨⟨rfl, rfl, rfl⟩, rfl⟩
  exact ⟨_, _, hsecond, hmem, names,
    named_custodian_holds_packet sampleConfig hexAddrText _ hsecond _ hmem _ rfl names⟩

end LwipDtn
