import LwipDtn.BufferLedger
import LwipDtn.MainLoop

/-!
The packet buffers of the main loop. The pass over the stored packets copies what it
sends and releases every copy, and a packet that is given up is released with its entry.
So between two rounds a live buffer belongs to a stored packet, or it is the pool buffer
of a packet that was stored once and is never released. The pool is finite, and this
bounds what a node can store in its lifetime.
-/

namespace LwipDtn
open Outcome Bytes BoundedFifo Runs Ledger

namespace Buffers

/-- The packet that is given up is released. -/
def shouldAttemptForward (env : AttemptEnv) (node : Node) (dest : Ip6Addr) :
    Counted (Bool × Node) := do
  match trackedSlot node.attempts dest with
  | some i =>
      let a := node.attempts.getD i emptyAttempt
      if forwardingRetryDelayMs ≤ env.now - a.lastAttemptTime then
        if maxForwardingRetries ≤ a.retryCount then
          let (expired, storage) ← dtnStorageRetrievePacketForDest env.removed node.storage dest
          match expired with
          | none => return (false, ⟨storage, invalidate node.attempts i⟩)
          | some _ =>
              pbufFree
              return (false, ⟨storage, invalidate node.attempts i⟩)
        else
          let a := { a with lastAttemptTime := env.now, retryCount := a.retryCount + 1 }
          return (true, { node with attempts := node.attempts.set i a })
      else return (false, node)
  | none =>
      match freeSlot node.attempts with
      | some i =>
          return (true, { node with attempts := node.attempts.set i ⟨dest, env.now, 1, true⟩ })
      | none => return (true, node)

def forwardCopy (cfg : Config) (env : PassEnv) (node : Node) (dest hop : Ip6Addr) (q : Pbuf) :
    Counted (List Effect) := do
  if cfg.isLocal dest then
    let ack ← acknowledge cfg env.ackClone env.status node.stored q icmp6CodeDtnNoInfo
    ip6Input
    return ack ++ [.deliver q.bytes]
  else
    copyForNothing env.ackClone q
    let (_, q) ← dtnAddCustodianOption env.add q cfg.myAddr
    pbufFree
    return [.forward ⟨q.bytes, hop.addr, rawSocketSendIpv6 env.sendto q, node.stored⟩]

def forwardEntry (cfg : Config) (env : PassEnv) (node : Node) (entry : StoredPacketEntry) :
    Counted (List Effect) := do
  let src ← ip6AddrAt entry.p.mem 8
  let dest ← ip6AddrAt entry.p.mem 24
  let custodian ← dtnExtractCustodianOption entry.p
  let q ← routeQueryAt entry.p.mem dest (custodian.getD src.addr)
  match ← activeNextHop env.routing env.activeNow q with
  | none => return []
  | some hop =>
      match ← pbufClone env.forwardClone entry.p with
      | none => return []
      | some copy => forwardCopy cfg env node dest hop copy

def forwardFrom (cfg : Config) (env : Nat → PassEnv) : Nat → Nat → Nat → Node →
    Counted (Node × List Effect)
  | 0, _, _, _ => throw .hang
  | fuel + 1, step, i, node =>
      match node.storage.packetListHead[i]? with
      | none => return (node, [])
      | some entry => do
          let (attempt, node') ← shouldAttemptForward (env step).attempt node entry.originalDest
          let sent ← if attempt then forwardEntry cfg (env step) node' entry else pure []
          let j ← nextIndex node.storage.packetListHead node'.storage.packetListHead
            entry.originalDest i
          let (node'', later) ← forwardFrom cfg env fuel (step + 1) j node'
          return (node'', sent ++ later)

def dtnControllerAttemptForwardStored (cfg : Config) (env : Nat → PassEnv) (node : Node) :
    Counted (Node × List Effect) :=
  forwardFrom cfg env (node.storage.packetListHead.length + 1) 0 0 node

def receive (cfg : Config) (text : AddrText) (arrival : Option Arrival) (node : Node) :
    Counted (Node × List Effect) :=
  match arrival with
  | some a => tunifInput cfg text a node
  | none => return (node, [])

def mainLoopBody (cfg : Config) (text : AddrText) (contacts : List ContactInfo) (s : LoopState) :
    Round → Counted (LoopState × Report)
  | .interrupted => return (s, ⟨[], false, [], []⟩)
  | .checked arrival now passNow pass => do
      let (node, received) ← receive cfg text arrival s.node
      let (cont, states) := dtnRoutingUpdateContacts s.states contacts now
      if cont then
        let (_, states) := dtnRoutingUpdateContacts states contacts passNow
        let (node, forwarded) ← dtnControllerAttemptForwardStored cfg pass node
        return (⟨node, states⟩, ⟨[now, passNow], true, received, forwarded⟩)
      else return (⟨node, states⟩, ⟨[now], false, received, []⟩)

section

variable (cfg : Config) (text : AddrText)

theorem shouldAttemptForward_changes (env : AttemptEnv) (node : Node) (dest : Ip6Addr) :
    Changes (shouldAttemptForward env node dest) (LwipDtn.shouldAttemptForward env node dest)
      fun r => r.2.storage.entries - node.storage.entries := by
  rw [shouldAttemptForward, LwipDtn.shouldAttemptForward]
  cases trackedSlot node.attempts dest with
  | none =>
      cases freeSlot node.attempts with
      | none => exact .pure _ (Int.sub_self _)
      | some i => exact .pure _ (Int.sub_self _)
  | some i =>
      refine .ite (fun _ => ?_) fun _ => .pure _ (Int.sub_self _)
      refine .ite (fun _ => .lift_bind fun taken hrun => ?_) fun _ => .pure _ (Int.sub_self _)
      obtain ⟨expired, storage⟩ := taken
      obtain ⟨rfl, rfl, -⟩ | ⟨e, rest, rfl, rfl, htake⟩ := removeFirst_cases hrun
      · exact .pure _ (Int.sub_self _)
      · refine .release_bind (.pure _ ?_)
        have := htake.length
        rw [StorageFunction.entries, StorageFunction.entries, StorageFunction.unlinked]
        dsimp only
        omega

theorem forwardCopy_changes (env : PassEnv) (node : Node) (dest hop : Ip6Addr) (q : Pbuf) :
    Changes (forwardCopy cfg env node dest hop q) (LwipDtn.forwardCopy cfg env node dest hop q)
      fun _ => -1 := by
  refine .ite (fun _ => ?_) fun _ => ?_
  · exact (acknowledge_changes _ _ _ _ _ _).bind fun _ _ => .release_bind (.pure _ rfl)
  · refine .idle_bind (copyForNothing_changes _ _) ?_
    exact (add_changes _ _ _).bind fun _ _ => .release_bind (.pure _ rfl)

theorem forwardEntry_changes (env : PassEnv) (node : Node) (entry : StoredPacketEntry) :
    Changes (forwardEntry cfg env node entry) (LwipDtn.forwardEntry cfg env node entry)
      fun _ => 0 := by
  refine .lift_bind fun src _ => .lift_bind fun dest _ => .lift_bind fun custodian _ =>
    .lift_bind fun query _ => .lift_bind fun answer _ => ?_
  cases answer with
  | none => exact .pure _ rfl
  | some hop =>
      refine .acquire_bind (fun hclone => ?_) fun copy hclone => ?_
      · simp only [hclone]
        exact .pure _ rfl
      · simp only [hclone]
        exact forwardCopy_changes cfg env node dest hop copy

theorem forwardFrom_changes (env : Nat → PassEnv) (fuel step i : Nat) (node : Node) :
    Changes (forwardFrom cfg env fuel step i node) (LwipDtn.forwardFrom cfg env fuel step i node)
      fun r => r.1.storage.entries - node.storage.entries := by
  induction fuel generalizing step i node with
  | zero => exact .error _
  | succ fuel ih =>
      rw [forwardFrom, LwipDtn.forwardFrom]
      cases node.storage.packetListHead[i]? with
      | none => exact .pure _ (Int.sub_self _)
      | some entry =>
          refine (shouldAttemptForward_changes _ node _).bind fun decided _ => ?_
          obtain ⟨attempt, node'⟩ := decided
          refine .ite (fun _ => (forwardEntry_changes cfg _ _ _).bind fun sent _ => ?_)
            fun _ => (Changes.pure (d := fun _ => 0) [] rfl).bind fun sent _ => ?_
          all_goals
            refine .lift_bind fun j _ => (ih (step + 1) j node').bind fun r _ => .pure _ ?_
            dsimp only
            omega

theorem attemptForwardStored_changes (env : Nat → PassEnv) (node : Node) :
    Changes (dtnControllerAttemptForwardStored cfg env node)
      (LwipDtn.dtnControllerAttemptForwardStored cfg env node)
      fun r => r.1.storage.entries - node.storage.entries :=
  forwardFrom_changes cfg env _ _ _ node

theorem receive_changes (arrival : Option Arrival) (node : Node) :
    Changes (receive cfg text arrival node) (LwipDtn.receive cfg text arrival node)
      (surplus node) := by
  cases arrival with
  | none => exact .pure _ (surplus_same node rfl)
  | some a => exact tunifInput_changes cfg text node a

theorem mainLoopBody_changes (contacts : List ContactInfo) (s : LoopState) (round : Round) :
    Changes (mainLoopBody cfg text contacts s round)
      (LwipDtn.mainLoopBody cfg text contacts s round)
      fun r => r.1.node.storage.entries - s.node.storage.entries + accepted r.2.received := by
  cases round with
  | interrupted => exact .pure _ (surplus_same s.node rfl)
  | checked arrival now passNow pass =>
      refine (receive_changes cfg text arrival s.node).bind fun heard _ => ?_
      obtain ⟨node, received⟩ := heard
      refine .ite (fun _ => ?_) fun _ => .pure _ (Int.sub_self _)
      refine (attemptForwardStored_changes cfg pass node).bind fun forwarded _ => .pure _ ?_
      simp only [surplus]
      omega

end

end Buffers

structure BufferTrace where
  trace : LoopTrace
  live : Int

def BufferTrace.next (cfg : Config) (text : AddrText) (contacts : List ContactInfo)
    (s : BufferTrace) (round : Round) : Run BufferTrace := do
  let ((state, report), live) ←
    (Buffers.mainLoopBody cfg text contacts s.trace.state round).run s.live
  return ⟨s.trace.record state report, live⟩

/-- Every packet that was loaded at the start has its buffer. -/
def bufferSystem (cfg : Config) (text : AddrText) (contacts : List ContactInfo) :
    System BufferTrace Round where
  start s := s.trace.Fresh ∧ s.live = s.trace.state.node.storage.entries
  step s round s' := s.next cfg text contacts round = .ok s'

section

variable {cfg : Config} {text : AddrText} {contacts : List ContactInfo} {s s' : BufferTrace}
  {round : Round}

/-- Counting changes nothing, and a round adds the buffers of the packets it has stored. -/
theorem BufferTrace.next_iff : s.next cfg text contacts round = .ok s' ↔
    s.trace.next cfg text contacts round = .ok s'.trace ∧
      s'.live - s'.trace.state.node.storage.entries - accepted s'.trace.received =
        s.live - s.trace.state.node.storage.entries - accepted s.trace.received := by
  have body := Buffers.mainLoopBody_changes cfg text contacts s.trace.state round
  rw [BufferTrace.next, LoopTrace.next, Run.bind_eq_ok, Run.bind_eq_ok]
  constructor
  · rintro ⟨⟨⟨state, report⟩, live⟩, hrun, h⟩
    cases h
    obtain ⟨hplain, rfl⟩ := body.run_eq_ok.mp hrun
    refine ⟨⟨_, hplain, rfl⟩, ?_⟩
    simp only [LoopTrace.record, accepted_append]
    omega
  · rintro ⟨⟨⟨state, report⟩, hplain, h⟩, hlive⟩
    obtain ⟨trace, live⟩ := s'
    cases h
    refine ⟨⟨⟨state, report⟩, live⟩, body.run_eq_ok.mpr ⟨hplain, ?_⟩, rfl⟩
    simp only [accepted_append] at hlive
    dsimp only
    omega

theorem bufferSystem_reaches_loop {meets : BufferTrace → Round → Prop}
    (h : (bufferSystem cfg text contacts).Reaches meets s) :
    (loopSystem cfg text contacts).Reaches (fun _ _ => True) s.trace := by
  induction h with
  | start first => exact .start first.1
  | step _ _ next ih => exact ih.step trivial (BufferTrace.next_iff.mp next).1

theorem bufferSystem_follows_loop {trace : LoopTrace}
    (h : (loopSystem cfg text contacts).Reaches (fun _ _ => True) trace) :
    ∃ s, (bufferSystem cfg text contacts).Reaches (fun _ _ => True) s ∧ s.trace = trace := by
  induction h with
  | @start s fresh => exact ⟨⟨s, s.state.node.storage.entries⟩, .start ⟨fresh, rfl⟩, rfl⟩
  | @step _ trace' _ _ _ next ih =>
      obtain ⟨s, hs, rfl⟩ := ih
      refine ⟨⟨trace', s.live - s.trace.state.node.storage.entries - accepted s.trace.received +
        accepted trace'.received + trace'.state.node.storage.entries⟩,
        hs.step trivial (BufferTrace.next_iff.mpr ⟨next, ?_⟩), rfl⟩
      dsimp only
      omega

theorem bufferSystem_accounted {meets : BufferTrace → Round → Prop}
    (h : (bufferSystem cfg text contacts).Reaches meets s) :
    s.live = s.trace.state.node.storage.entries + accepted s.trace.received := by
  induction h with
  | start first =>
      obtain ⟨fresh, hlive⟩ := first
      rw [hlive, fresh.received]
      exact (Int.add_zero _).symm
  | step _ _ next ih =>
      have hchange := (BufferTrace.next_iff.mp next).2
      omega

end

/-! A round without contacts, which only handles its packet. -/

def quietRound (a : Arrival) : Round := .checked (some a) 60 60 fun _ => passAt 60

theorem quietRound_reached {meets : BufferTrace → Round → Prop} {s : BufferTrace}
    (run : (bufferSystem sampleConfig hexAddrText []).Reaches meets s) {a : Arrival}
    (condition : meets s (quietRound a)) {node : Node} {effects : List Effect}
    (h : tunifInput sampleConfig hexAddrText a s.trace.state.node = .ok (node, effects)) :
    ∃ s', (bufferSystem sampleConfig hexAddrText []).Reaches meets s' ∧
      s'.trace.state.node = node ∧
      accepted s'.trace.received = accepted s.trace.received + accepted effects := by
  have hnext : s.trace.next sampleConfig hexAddrText [] (quietRound a) = .ok
      (s.trace.record ⟨node, ⟨60, s.trace.state.states.lastActiveStates⟩⟩
        ⟨[60], false, effects, []⟩) := by
    rw [LoopTrace.next, quietRound, mainLoopBody, receive, h]
    rfl
  refine ⟨⟨_, s.live + (node.storage.entries - s.trace.state.node.storage.entries) +
    accepted effects⟩, run.step condition (BufferTrace.next_iff.mpr ⟨hnext, ?_⟩), rfl,
    accepted_append _ _⟩
  simp only [accepted_append]
  omega

theorem freshBuffers_reached (meets : BufferTrace → Round → Prop) :
    (bufferSystem sampleConfig hexAddrText []).Reaches meets ⟨freshLoop, 0⟩ :=
  .start ⟨⟨⟨rfl, [], emptyEnv, rfl⟩, rfl, rfl, rfl, rfl, rfl⟩, rfl⟩

def waitingArrival : Arrival := ⟨some quietPbuf, incomingAt 60 true⟩

theorem waitingArrival_returns : ∃ node effects,
    tunifInput sampleConfig hexAddrText waitingArrival emptyNode = .ok (node, effects) ∧
      accepted effects = 1 := by
  have hone : (tunifInput sampleConfig hexAddrText waitingArrival emptyNode).toOption.map
      (fun r => accepted r.2) = some 1 := by decide +kernel
  cases hrun : tunifInput sampleConfig hexAddrText waitingArrival emptyNode with
  | error e =>
      rw [hrun] at hone
      cases hone
  | ok r =>
      rw [hrun] at hone
      exact ⟨r.1, r.2, rfl, Option.some.inj hone⟩

/-- In every run of the main loop, whatever arrives and whatever the allocators answer, a
live buffer between two rounds belongs to a stored packet, or it is the one in which a
packet arrived that was then stored: the passes and the acknowledgements neither keep a
buffer nor release one twice. -/
theorem loop_buffers_accounted (cfg : Config) (text : AddrText) (contacts : List ContactInfo)
    (s : BufferTrace) (h : (bufferSystem cfg text contacts).Reaches (fun _ _ => True) s) :
    s.live = s.trace.state.node.storage.entries + accepted s.trace.received ∧
      s.trace.state.node.storage.entries ≤ maxStoredPackets :=
  ⟨bufferSystem_accounted h, Int.ofNat_le.mpr (loop_valid (bufferSystem_reaches_loop h)).bounded⟩

/-- A packet is stored, and its pool buffer stays when a pass has handed it over. -/
theorem loop_buffers_accounted_served :
    ∃ s, (bufferSystem sampleConfig hexAddrText laterContacts).Reaches (fun _ _ => True) s ∧
      accepted s.trace.received = 1 ∧ s.trace.passes = 1 ∧ handovers s.trace.forwarded = 1 ∧
      s.live = s.trace.state.node.storage.entries + accepted s.trace.received ∧
      s.trace.state.node.storage.entries ≤ maxStoredPackets := by
  obtain ⟨s, hs, htrace⟩ := bufferSystem_follows_loop (servedLoop_reached trivial trivial)
  have haccounted := loop_buffers_accounted _ _ _ s hs
  rw [htrace] at haccounted
  exact ⟨s, hs, by rw [htrace]; decide +kernel, by rw [htrace]; decide +kernel,
    by rw [htrace]; decide +kernel, by rw [htrace]; exact haccounted⟩

/-! The pool of `tunif_input`. -/

def pbufPoolSize : Nat := 100

/-- The buffers of the pool that are in use: the stored packets have buffers of the heap. -/
def BufferTrace.pooled (s : BufferTrace) : Int := s.live - s.trace.state.node.storage.entries

/-- A packet that arrives gets a buffer only if the pool has one left. -/
def FromPool (s : BufferTrace) (round : Round) : Prop :=
  ∀ a p, round.arrival = some a → a.p = some p → s.pooled < pbufPoolSize

section

variable {cfg : Config} {text : AddrText} {contacts : List ContactInfo} {s s' : BufferTrace}
  {round : Round}

theorem Incoming.accepted_le {env : IncomingEnv} {node node' : Node} {p : Pbuf}
    {effects : List Effect} (h : Incoming cfg text env node p node' effects) :
    accepted effects ≤ 1 := by
  cases h with
  | dropped | consumed | forwarded | refused | relayed => exact Int.le_of_lt Int.zero_lt_one
  | delivered _ hack =>
      rw [accepted_append, hack.accepted]
      exact Int.le_of_lt Int.zero_lt_one
  | stored _ _ hack =>
      rw [← List.singleton_append, accepted_append, hack.accepted]
      exact Int.le_refl 1

theorem tunifInput_accepted_le {a : Arrival} {node node' : Node} {effects : List Effect}
    (h : tunifInput cfg text a node = .ok (node', effects)) : accepted effects ≤ 1 := by
  rw [tunifInput] at h
  split at h
  · cases h
    exact Int.le_of_lt Int.zero_lt_one
  · exact (processIncoming_cases h).accepted_le

theorem receive_accepted_le {arrival : Option Arrival} {node node' : Node} {effects : List Effect}
    (h : receive cfg text arrival node = .ok (node', effects)) : accepted effects ≤ 1 := by
  cases arrival with
  | none =>
      cases h
      exact Int.le_of_lt Int.zero_lt_one
  | some a => exact tunifInput_accepted_le h

theorem receive_nothing {arrival : Option Arrival} {node node' : Node} {effects : List Effect}
    (none : ∀ a p, arrival = some a → a.p ≠ some p)
    (h : receive cfg text arrival node = .ok (node', effects)) : effects = [] := by
  cases arrival with
  | none =>
      cases h
      rfl
  | some a =>
      have hp : a.p = Option.none := Option.eq_none_iff_forall_ne_some.mpr fun p => none a p rfl
      rw [receive, tunifInput, hp] at h
      cases h
      rfl

theorem LoopTrace.next_received {s s' : LoopTrace} (h : s.next cfg text contacts round = .ok s') :
    ∃ node effects, receive cfg text round.arrival s.state.node = .ok (node, effects) ∧
      s'.received = s.received ++ effects := by
  cases LoopTrace.next_turns h with
  | interrupted => exact ⟨_, [], rfl, (List.append_nil _).symm⟩
  | quiet hreceive _ => exact ⟨_, _, hreceive, rfl⟩
  | passes hreceive _ _ => exact ⟨_, _, hreceive, rfl⟩

theorem BufferTrace.drained (drained : s.pooled = pbufPoolSize) (condition : FromPool s round)
    (next : s.next cfg text contacts round = .ok s') :
    s'.trace.received = s.trace.received ∧ s'.pooled = pbufPoolSize := by
  obtain ⟨hnext, hchange⟩ := BufferTrace.next_iff.mp next
  obtain ⟨node, effects, hreceive, hreceived⟩ := LoopTrace.next_received hnext
  have hnothing : effects = [] := receive_nothing (fun a p harrival hp => by
    have hroom := condition a p harrival hp
    rw [drained] at hroom
    exact Int.lt_irrefl _ hroom) hreceive
  rw [hnothing, List.append_nil] at hreceived
  refine ⟨hreceived, ?_⟩
  rw [pooled] at drained ⊢
  rw [hreceived] at hchange
  omega

/-- A round stores at most one packet, and none once the pool is empty. -/
theorem BufferTrace.next_accepted (bounded : accepted s.trace.received ≤ pbufPoolSize)
    (accounted : s.pooled = accepted s.trace.received) (condition : FromPool s round)
    (next : s.next cfg text contacts round = .ok s') :
    accepted s'.trace.received ≤ pbufPoolSize := by
  by_cases drained : s.pooled = pbufPoolSize
  · rw [(BufferTrace.drained drained condition next).1]
    exact bounded
  obtain ⟨node, effects, hreceive, hreceived⟩ :=
    LoopTrace.next_received (BufferTrace.next_iff.mp next).1
  have hone := receive_accepted_le hreceive
  rw [hreceived, accepted_append]
  omega

theorem BufferTrace.pooled_eq {meets : BufferTrace → Round → Prop}
    (h : (bufferSystem cfg text contacts).Reaches meets s) :
    s.pooled = accepted s.trace.received := by
  rw [pooled, bufferSystem_accounted h]
  omega

end

/-- A node puts at most as many packets into its storage in its lifetime as the pool has
buffers, however soon they leave the storage again, and after the last of them it never
hears anything again. -/
theorem node_deaf_once_pool_is_drained (cfg : Config) (text : AddrText)
    (contacts : List ContactInfo) (s : BufferTrace)
    (h : (bufferSystem cfg text contacts).Reaches FromPool s) :
    accepted s.trace.received ≤ pbufPoolSize ∧
      (accepted s.trace.received = pbufPoolSize → ∀ s',
        ((bufferSystem cfg text contacts).resumed s).Reaches FromPool s' →
        s'.trace.received = s.trace.received) := by
  have accounted := BufferTrace.pooled_eq h
  constructor
  · clear accounted
    induction h with
    | start first =>
        rw [first.1.received]
        decide
    | step run condition next ih =>
        exact BufferTrace.next_accepted ih (BufferTrace.pooled_eq run) condition next
  · intro hall s' later
    refine (later.invariant (P := fun t : BufferTrace => t.trace.received = s.trace.received ∧
      t.pooled = (pbufPoolSize : Int)) ?_ ?_).1
    · rintro _ rfl
      exact ⟨rfl, accounted.trans hall⟩
    · rintro t round t' ⟨hreceived, drained⟩ condition next
      obtain ⟨hsame, hdrained⟩ := BufferTrace.drained drained condition next
      exact ⟨hsame.trans hreceived, hdrained⟩

/-! A node that hears of the arrival of every packet it has stored, until its pool is
empty. -/

theorem fromPool_of_room {s : BufferTrace}
    (run : (bufferSystem sampleConfig hexAddrText []).Reaches FromPool s)
    (room : accepted s.trace.received < pbufPoolSize) (round : Round) : FromPool s round := by
  intro a p _ _
  rw [BufferTrace.pooled_eq run]
  exact room

theorem draining_reached (n : Nat) (left : n < pbufPoolSize) :
    ∃ s, (bufferSystem sampleConfig hexAddrText []).Reaches FromPool s ∧
      s.trace.state.node = emptyNode ∧ accepted s.trace.received = n := by
  induction n with
  | zero => exact ⟨_, freshBuffers_reached _, rfl, rfl⟩
  | succ n ih =>
      obtain ⟨s, hs, hempty, hn⟩ := ih (Nat.lt_of_succ_lt left)
      obtain ⟨effects, hround, hone⟩ := drainRound_returns
      simp only [drainRound, tunifInputs, Run.bind_eq_ok] at hround
      obtain ⟨⟨node, first⟩, hfirst, _, ⟨⟨node', second⟩, hsecond, _, hnil, hrest⟩, hround⟩ :=
        hround
      cases hnil
      cases hrest
      cases hround
      rw [List.append_nil, accepted_append] at hone
      have hone : accepted first + accepted second = 1 := hone
      have hle := tunifInput_accepted_le hfirst
      rw [← hempty] at hfirst
      obtain ⟨s₁, hs₁, hnode₁, hn₁⟩ :=
        quietRound_reached hs (fromPool_of_room hs (by omega) _) hfirst
      rw [← hnode₁] at hsecond
      obtain ⟨s₂, hs₂, hnode₂, hn₂⟩ :=
        quietRound_reached hs₁ (fromPool_of_room hs₁ (by omega) _) hsecond
      refine ⟨s₂, hs₂, hnode₂, ?_⟩
      rw [hn₂, hn₁, hn]
      omega

theorem drained_node_is_deaf :
    ∃ s, (bufferSystem sampleConfig hexAddrText []).Reaches FromPool s ∧
      accepted s.trace.received = pbufPoolSize ∧ ∀ s',
        ((bufferSystem sampleConfig hexAddrText []).resumed s).Reaches FromPool s' →
        s'.trace.received = s.trace.received := by
  obtain ⟨s, hs, hempty, hn⟩ := draining_reached 99 (by decide)
  obtain ⟨node, effects, hrun, hone⟩ := waitingArrival_returns
  rw [← hempty] at hrun
  obtain ⟨s', hs', -, hn'⟩ :=
    quietRound_reached hs (fromPool_of_room hs (by rw [hn]; decide) _) hrun
  have hall : accepted s'.trace.received = pbufPoolSize := by
    rw [hn', hn, hone]
    rfl
  exact ⟨s', hs', hall, (node_deaf_once_pool_is_drained _ _ _ s' hs').2 hall⟩

end LwipDtn
