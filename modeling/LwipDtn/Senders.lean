import LwipDtn.CustodyWalk
import LwipDtn.ControllerRuns
import LwipDtn.Cgr.Candidates
import LwipDtn.Cgr.NextHop

/-!
Packets do not go back to the node that handed them over, as long as that node can still
be told from the packet. The routing leaves out the sender that it is given. On receipt
that is the custodian of the packet; after a stay in the storage the option is gone, and
the source of the packet takes its place.
-/

namespace LwipDtn
open Outcome Bytes BoundedFifo Cgr Runs

/-- The address of the node that handed a packet over: its custodian, or its source if it
has no custodian option. -/
def HandedOverBy (b : Bytes) (addr : Block 16) : Prop :=
  CustodyFirst b ∧ addr.1 = (b.drop 44).take 16 ∨ ¬ CustodyFirst b ∧ addr.1 = srcOf b

/-- The next hop is not the node that handed the packet over. -/
def AvoidsSender (b : Bytes) (hop : Block 16) : Prop :=
  ∀ addr, HandedOverBy b addr → nodeidToIpv6 (ipv6ToNodeid addr) ≠ some hop

/-- A packet that has been received, and its form in the storage if it was stored. -/
structure Receipt where
  packet : Pbuf
  stored : Option Bytes

structure PlanTrace where
  node : Node
  receipts : List Receipt

inductive PlanEvent where
  | incoming (env : IncomingEnv) (p : Pbuf)
  | pass (env : Nat → PassEnv)
  | restart

/-- The payload of the entry at the end of the list, if a packet has just been stored. -/
def storedForm (node : Node) (effects : List Effect) (p : Pbuf) : Option Bytes :=
  if Effect.store p.bytes true ∈ effects then
    node.storage.packetListHead.getLast?.map fun e => e.p.payload
  else none

section

variable (cfg : Config) (text : AddrText) (plan : List PlanContact) (baseTime : UInt32)

/-- The steps of a node whose routing follows a plan. -/
inductive PlanStep : PlanTrace → PlanEvent → PlanTrace → Prop
  | incoming {s : PlanTrace} {env : IncomingEnv} {p : Pbuf} {clock : UInt32} {node' : Node}
      {effects : List Effect} (routing : env.routing = planView plan baseTime clock)
      (run : dtnControllerProcessIncoming cfg text env s.node p = .ok (node', effects)) :
      PlanStep s (.incoming env p) ⟨node', s.receipts ++ [⟨p, storedForm node' effects p⟩]⟩
  | pass {s : PlanTrace} {env : Nat → PassEnv} {node' : Node} {effects : List Effect}
      (routing : ∀ i, ∃ clock, (env i).routing = planView plan baseTime clock)
      (run : dtnControllerAttemptForwardStored cfg env s.node = .ok (node', effects)) :
      PlanStep s (.pass env) ⟨node', s.receipts⟩
  | restart {s : PlanTrace} {storage : StorageFunction} (env : CreateEnv s.node.storage.disk)
      (run : dtnStorageCreate env = some storage) :
      PlanStep s .restart ⟨⟨storage, dtnControllerCreate⟩, s.receipts⟩

def planSystem : System PlanTrace PlanEvent where
  start s := s.receipts = [] ∧ s.node.attempts = dtnControllerCreate ∧
    ∃ (disk : Disk) (env : CreateEnv disk), dtnStorageCreate env = some s.node.storage
  step := PlanStep cfg text plan baseTime

/-- Neither a packet that is forwarded at once nor a stored packet that a pass forwards
goes back. A stored packet is recognised by its bytes. -/
def NeverReturns (s : PlanTrace) : PlanEvent → Prop
  | .incoming env p => ∀ clock node' effects t, env.routing = planView plan baseTime clock →
      dtnControllerProcessIncoming cfg text env s.node p = .ok (node', effects) →
      Effect.forward t ∈ effects → AvoidsSender p.bytes t.hop
  | .pass env => ∀ i clock node e effects t, (env i).routing = planView plan baseTime clock →
      e ∈ s.node.storage.packetListHead → forwardEntry cfg (env i) node e = .ok effects →
      Effect.forward t ∈ effects →
      ∀ r ∈ s.receipts, r.stored = some e.p.payload → AvoidsSender r.packet.bytes t.hop
  | .restart => True

end

/-- The walk over the extension headers finds the custodian option at the front, in the
first segment, or none at all. -/
def WalkIsHonest (p : Pbuf) : Prop :=
  if nexthOf p.bytes = ip6NexthHopbyhop then 60 ≤ p.len
  else dtnExtractCustodianOption p = .ok none

/-- The custodian of the packet, if it names one, has the node id of the source. -/
def SourceIsSender (b : Bytes) : Prop :=
  ∀ addr src : Block 16, HandedOverBy b addr → src.1 = srcOf b →
    ipv6ToNodeid addr = ipv6ToNodeid src

/-- The events on which the sender is told from the packet: the walk is honest, a packet
that is not forwarded at once comes from its source, and no option is found in a stored
packet. -/
def TellsSender (s : PlanTrace) : PlanEvent → Prop
  | .incoming env p => WalkIsHonest p ∧
      (routeAnswer env.routing env.activeNow p = .ok none → SourceIsSender p.bytes)
  | .pass _ => ∀ e ∈ s.node.storage.packetListHead, ∀ c,
      dtnExtractCustodianOption e.p ≠ .ok (some c)
  | .restart => True

section NodeIds

def nodeTable : List (Int × Block 16) :=
  [(1, netAddr 0x01 1), (10, netAddr 0x01 2), (12, netAddr 0x12 1), (21, netAddr 0x12 2),
    (23, netAddr 0x23 2), (32, netAddr 0x23 3)]

theorem mem_nodeTable {v : Int} {addr : Block 16} (h : nodeidToIpv6 v = some addr) :
    (v, addr) ∈ nodeTable := by
  rw [nodeidToIpv6] at h
  split_ifs at h <;> cases h <;> subst_vars <;> decide

theorem nodeidToIpv6_injective {v w : Int} {addr : Block 16} (hv : nodeidToIpv6 v = some addr)
    (hw : nodeidToIpv6 w = some addr) : v = w := by
  have key : ∀ a ∈ nodeTable, ∀ b ∈ nodeTable, a.2 = b.2 → a.1 = b.1 := by decide
  exact key _ (mem_nodeTable hv) _ (mem_nodeTable hw) rfl

variable {plan : List PlanContact} {baseTime clock now : UInt32} {p : Pbuf}

theorem cgrNextHop_sender {q : RouteQuery} {hop : Ip6Addr}
    (h : cgrNextHop plan baseTime clock q = .ok (some hop)) :
    nodeidToIpv6 (ipv6ToNodeid q.sender) ≠ some hop.addr := by
  intro hsender
  obtain ⟨routes, cands, first, -, hcands, hfirst, haddr, -⟩ := cgrNextHop_candidate h
  have hother := (mem_of_fwdCandidateShared hcands (List.mem_of_mem_head? hfirst)).2.1
  exact hother (nodeidToIpv6_injective haddr hsender)

theorem routeAnswer_sender {hop : Ip6Addr}
    (h : routeAnswer (planView plan baseTime clock) now p = .ok (some hop)) :
    ∃ src custodian, ip6AddrAt p.mem 8 = .ok src ∧ dtnExtractCustodianOption p = .ok custodian ∧
      nodeidToIpv6 (ipv6ToNodeid (custodian.getD src.addr)) ≠ some hop.addr := by
  simp only [routeAnswer, routeQueryAt, Run.bind_eq_ok] at h
  obtain ⟨src, hsrc, dest, -, custodian, hcust, q, ⟨word, -, lo, -, hi, -, hoplim, -, hq⟩, h⟩ := h
  cases hq
  have hanswer := (activeNextHop_eq_some.mp h).1
  rw [dtnRoutingGetDtnNextHop] at hanswer
  refine ⟨src, custodian, hsrc, hcust, ?_⟩
  split at hanswer
  · exact cgrNextHop_sender hanswer
  · cases hanswer

end NodeIds

section Packets

variable {p : Pbuf}

theorem ip6AddrAt_src {src : Ip6Addr} (header : 24 ≤ p.len) (h : ip6AddrAt p.mem 8 = .ok src) :
    src.addr.1 = srcOf p.payload := by
  simp only [ip6AddrAt, Run.bind_eq_ok] at h
  obtain ⟨raw, hraw, addr, haddr, zone, -, padding, -, h⟩ := h
  cases h
  have hread := (readBlock_eq_ok.mp hraw).2
  rw [(readBlock_eq_ok.mp haddr).2, hread, List.drop_zero, List.take_take, Pbuf.mem,
    List.drop_append_of_le_length (by rw [Pbuf.len] at header; omega),
    List.take_append_of_le_length (by rw [List.length_drop, ← Pbuf.len]; omega)]
  rfl

/-- Where the walk is honest the controller takes the right node for the sender. -/
theorem WalkIsHonest.sender (h : WalkIsHonest p) (header : ip6Hlen ≤ p.len) {src : Ip6Addr}
    {custodian : Option (Block 16)} {addr : Block 16} (hsrc : ip6AddrAt p.mem 8 = .ok src)
    (hcust : dtnExtractCustodianOption p = .ok custodian) (hby : HandedOverBy p.bytes addr) :
    custodian.getD src.addr = addr := by
  have h24 : 24 ≤ p.len := Nat.le_trans (by decide) header
  have hsource : src.addr.1 = srcOf p.bytes := (ip6AddrAt_src h24 hsrc).trans (srcOf_payload header)
  have plain (hnone : custodian = none) (hno : ¬ CustodyFirst p.bytes) :
      custodian.getD src.addr = addr := by
    have haddr := (hby.resolve_left fun hc => hno hc.1).2
    rw [hnone, Option.getD_none]
    exact Subtype.ext (hsource.trans haddr.symm)
  rw [WalkIsHonest] at h
  split at h
  · rename_i first
    have htype := p.byteAt_mem (show ip6Hlen + 2 < p.len from Nat.lt_of_lt_of_le (by decide) h)
    have hlen := p.byteAt_mem (show ip6Hlen + 3 < p.len from Nat.lt_of_lt_of_le (by decide) h)
    simp only [dtnExtractCustodianOption, nexth_mem header, first, Run.bind_ok,
      skipExtensionHeaders_hopbyhop, htype, hlen] at hcust
    split at hcust
    · rename_i hno
      exact absurd rfl hno
    split at hcust
    · rename_i hno
      cases hcust
      exact plain rfl fun hc => hno hc.2.1
    split at hcust
    · rename_i hno
      cases hcust
      exact plain rfl fun hc => hno hc.2.2
    rename_i htype' hlen'
    rw [Run.bind_eq_ok] at hcust
    obtain ⟨c, hc, hcust⟩ := hcust
    cases hcust
    have hcustody : CustodyFirst p.bytes :=
      ⟨first, not_not.mp htype', not_not.mp hlen'⟩
    have haddr := (hby.resolve_right fun hno => hno.1 hcustody).2
    have hread := (readBlock_eq_ok.mp hc).2
    refine Subtype.ext ?_
    rw [Option.getD_some, hread, haddr]
    have h60 : 60 ≤ p.payload.length := h
    rw [Pbuf.mem, Pbuf.bytes, ip6Hlen, List.drop_append_of_le_length (by omega),
      List.drop_append_of_le_length (by omega),
      List.take_append_of_le_length (by rw [List.length_drop]; omega),
      List.take_append_of_le_length (by rw [List.length_drop]; omega)]
  · rename_i first
    cases hcust.symm.trans h
    exact plain rfl fun hc => first hc.1

/-- A stored packet has the source that it came with. -/
theorem stored_src {text : AddrText} {env : StoreEnv} {s s' : StorageFunction} {dest : Ip6Addr}
    (header : ip6Hlen ≤ p.len) (h : dtnStorageStorePacket text env s p dest = .ok (true, s')) :
    ∃ e, s'.packetListHead.getLast? = some e ∧ 24 ≤ e.p.len ∧
      srcOf e.p.payload = srcOf p.bytes := by
  obtain ⟨hfalse, -⟩ | ⟨-, -, copy, stripped, q, disk, hclone, hstrip, -, rfl⟩ := store_cases h
  · cases hfalse
  have hpayload := (pbufClone_payload hclone).1
  have hcopy : ip6Hlen ≤ copy.len := by
    rw [Pbuf.len, hpayload, Pbuf.bytes_length]
    exact Nat.le_trans header (Nat.le_add_right _ _)
  obtain ⟨hlen, hsrc⟩ := strip_src hcopy hstrip
  refine ⟨newEntry text q dest env.now, ?_, Nat.le_trans (by decide) hlen, ?_⟩
  · rw [StorageFunction.append, List.getLast?_append]
    rfl
  · rw [newEntry, hsrc, hpayload]

end Packets

section

variable {cfg : Config} {text : AddrText} {plan : List PlanContact} {baseTime : UInt32}

/-- What is known about the packets that have been stored: their senders have the id of
the source that the stored bytes name. -/
def SendersKnown (s : PlanTrace) : Prop :=
  ∀ r ∈ s.receipts, ∀ b, r.stored = some b → 24 ≤ b.length ∧ ∀ addr src : Block 16,
    HandedOverBy r.packet.bytes addr → src.1 = srcOf b → ipv6ToNodeid addr = ipv6ToNodeid src

theorem PlanStep.known {s s' : PlanTrace} {event : PlanEvent}
    (h : PlanStep cfg text plan baseTime s event s') (tells : TellsSender s event)
    (known : SendersKnown s) : SendersKnown s' := by
  cases h with
  | pass | restart => exact known
  | @incoming env p _ node' effects _ run =>
      intro r hr b hb
      rcases List.mem_append.mp hr with hr | hr
      · exact known r hr b hb
      cases List.mem_singleton.mp hr
      dsimp only [storedForm] at hb
      split at hb
      · rename_i hstore
        obtain ⟨dest, storage, waits, hstored, rfl⟩ := stored_of_processIncoming run hstore
        obtain ⟨e, hlast, hlen, hsrc⟩ := stored_src waits.header hstored
        rw [hlast] at hb
        cases hb
        exact ⟨hlen, fun addr src hby hs => tells.2 waits.answer addr src hby (hs.trans hsrc)⟩
      · cases hb

theorem neverReturns_of_known {s : PlanTrace} {event : PlanEvent} (known : SendersKnown s)
    (tells : TellsSender s event) : NeverReturns cfg text plan baseTime s event := by
  cases event with
  | restart => trivial
  | incoming env p =>
      intro clock node' effects t routing run ht addr hby
      have header := header_of_effects run (List.ne_nil_of_mem ht)
      obtain ⟨dest, hop, -, -, answer, hhop⟩ := (processIncoming_cases run).forwards ht
      rw [routing] at answer
      obtain ⟨src, custodian, hsrc, hcust, havoids⟩ := routeAnswer_sender answer
      rw [tells.1.sender header hsrc hcust hby, ← hhop] at havoids
      exact havoids
  | pass env =>
      intro i clock node e effects t routing he run ht r hr hstored addr hby
      obtain ⟨-, dest, hop, -, -, answer, hhop⟩ := (forwardEntry_cases run).forwards ht
      rw [routing] at answer
      obtain ⟨src, custodian, hsrc, hcust, havoids⟩ := routeAnswer_sender answer
      have hnone : custodian = none :=
        Option.eq_none_iff_forall_ne_some.mpr fun c hc => tells e he c (hc ▸ hcust)
      obtain ⟨hlen, hids⟩ := known r hr _ hstored
      rw [hnone, Option.getD_none, ← hhop] at havoids
      rw [hids addr src.addr hby (ip6AddrAt_src hlen hsrc)]
      exact havoids

end

/-- In every run on whose events the sender can be told from the packet, no packet is
forwarded to the node that handed it over. -/
theorem packet_never_returns (cfg : Config) (text : AddrText) (plan : List PlanContact)
    (baseTime : UInt32) (s : PlanTrace)
    (reached : (planSystem cfg text plan baseTime).Reaches TellsSender s) (event : PlanEvent)
    (tells : TellsSender s event) : NeverReturns cfg text plan baseTime s event := by
  refine neverReturns_of_known (reached.invariant (P := SendersKnown) ?_ ?_) tells
  · rintro s ⟨hnone, -⟩ r hr
    rw [hnone] at hr
    cases hr
  · intro s e s' known tells step
    exact PlanStep.known step tells known

/-! A packet of the far node for node 1, and a plan whose only way there leads through the
neighbour. -/

def farPacket : Bytes :=
  [0x60, 0, 0, 0, 0, 8, 17, 64] ++ (netAddr 0x23 3).1 ++ (netAddr 0x01 1).1 ++
    [59, 0, 0x20, 0, 0, 8, 0, 0]

theorem farPacket_length_lt : farPacket.length < 65536 := by decide

def farPbuf : Pbuf := .single farPacket (List.replicate 64 0) farPacket_length_lt

def planFrom (start : Nat) : List PlanContact :=
  [⟨start, 1000, 10, 21, 1000, 1⟩, ⟨start, 1000, 21, 1, 1000, 1⟩]

def planIncoming (plan : List PlanContact) (now : UInt32) : IncomingEnv :=
  { incomingAt now true with routing := planView plan 0 now }

def planPass (plan : List PlanContact) (now : UInt32) : PassEnv :=
  { passAt now with routing := planView plan 0 now }

/-- A packet arrives ten seconds after the start at a node that has received nothing. -/
def firstResult (plan : List PlanContact) (p : Pbuf) : Node × List Effect :=
  (dtnControllerProcessIncoming sampleConfig hexAddrText (planIncoming plan 10000) emptyNode
    p).toOption.getD (emptyNode, [])

def firstTrace (plan : List PlanContact) (p : Pbuf) : PlanTrace :=
  ⟨(firstResult plan p).1,
    [⟨p, storedForm (firstResult plan p).1 (firstResult plan p).2 p⟩]⟩

theorem firstTrace_reached {plan : List PlanContact} {p : Pbuf}
    {meets : PlanTrace → PlanEvent → Prop}
    (condition : meets ⟨emptyNode, []⟩ (.incoming (planIncoming plan 10000) p))
    (returns : Run.Returns (dtnControllerProcessIncoming sampleConfig hexAddrText
      (planIncoming plan 10000) emptyNode p)) :
    (planSystem sampleConfig hexAddrText plan 0).Reaches meets (firstTrace plan p) := by
  have start : (planSystem sampleConfig hexAddrText plan 0).Reaches meets ⟨emptyNode, []⟩ :=
    .start ⟨rfl, rfl, [], emptyEnv, rfl⟩
  obtain ⟨result, run⟩ := returns
  have hresult : firstResult plan p = result := by rw [firstResult, run]; rfl
  rw [firstTrace, hresult]
  exact start.step condition (.incoming (show _ = planView plan 0 10000 from rfl) run)

/-- The packet waits until the contacts open. -/
def waitTrace : PlanTrace := firstTrace (planFrom 20) farPbuf

theorem waitTrace_stores : 0 < waitTrace.node.storage.packetListHead.length := by decide +kernel

def waitEntry : StoredPacketEntry :=
  waitTrace.node.storage.packetListHead.get ⟨0, waitTrace_stores⟩

/-- Then it goes to the neighbour, which is not its source. -/
theorem packet_never_returns_far :
    waitEntry ∈ waitTrace.node.storage.packetListHead ∧
      ∃ t, forwardEntry sampleConfig (planPass (planFrom 20) 30000) waitTrace.node waitEntry =
        .ok [.forward t] ∧ AvoidsSender farPbuf.bytes t.hop := by
  let t : Transmission := ⟨tagged farPacket sampleConfig.myAddr, netAddr 0x12 2, true, [farPacket]⟩
  have honest : WalkIsHonest farPbuf := by
    rw [WalkIsHonest, if_neg (by decide)]
    decide +kernel
  have source : SourceIsSender farPbuf.bytes := by
    rintro addr src (⟨custody, -⟩ | ⟨-, haddr⟩) hsrc
    · exact absurd custody.1 (by decide)
    · rw [Subtype.ext (haddr.trans hsrc.symm)]
  have reached : (planSystem sampleConfig hexAddrText (planFrom 20) 0).Reaches TellsSender
      waitTrace := firstTrace_reached ⟨honest, fun _ => source⟩ (by decide +kernel)
  have tells : ∀ e ∈ waitTrace.node.storage.packetListHead,
      dtnExtractCustodianOption e.p = .ok none := by decide +kernel
  have run : forwardEntry sampleConfig (planPass (planFrom 20) 30000) waitTrace.node waitEntry =
      .ok [.forward t] := by decide +kernel
  have stored : waitEntry ∈ waitTrace.node.storage.packetListHead := List.get_mem _ _
  have same : waitTrace.receipts.map (fun r => r.stored) = [some waitEntry.p.payload] := by
    decide +kernel
  refine ⟨stored, t, run, packet_never_returns sampleConfig hexAddrText (planFrom 20) 0 waitTrace
    reached (.pass fun _ => planPass (planFrom 20) 30000) (fun e he c hc => ?_) 0 30000
    waitTrace.node waitEntry _ t rfl stored run (List.mem_singleton.mpr rfl) _
    (List.mem_singleton.mpr rfl) (List.cons.inj same).1⟩
  cases (tells e he).symm.trans hc

def custodyPacket : Pbuf :=
  .single (tagged farPacket (netAddr 0x12 2)) (List.replicate 64 0) (by decide +kernel)

/-- With the option of the neighbour the packet waits, since the routing leaves out the
neighbour. -/
def backTrace : PlanTrace := firstTrace (planFrom 0) custodyPacket

theorem backTrace_stores : 0 < backTrace.node.storage.packetListHead.length := by decide +kernel

def backEntry : StoredPacketEntry :=
  backTrace.node.storage.packetListHead.get ⟨0, backTrace_stores⟩

/-- The next pass takes the far node for the sender and sends the packet back. -/
theorem waiting_packet_returns :
    (planSystem sampleConfig hexAddrText (planFrom 0) 0).Reaches (fun _ _ => True) backTrace ∧
      ¬ NeverReturns sampleConfig hexAddrText (planFrom 0) 0 backTrace
        (.pass fun _ => planPass (planFrom 0) 30000) := by
  refine ⟨firstTrace_reached trivial (by decide +kernel), fun avoids => ?_⟩
  let t : Transmission :=
    ⟨tagged farPacket sampleConfig.myAddr, netAddr 0x12 2, true, [farPacket]⟩
  have run : forwardEntry sampleConfig (planPass (planFrom 0) 30000) backTrace.node backEntry =
      .ok [.forward t] := by decide +kernel
  have handed : HandedOverBy custodyPacket.bytes (netAddr 0x12 2) :=
    .inl ⟨⟨by decide +kernel, by decide +kernel, by decide +kernel⟩, by decide +kernel⟩
  have same : backTrace.receipts.map (fun r => r.stored) = [some backEntry.p.payload] := by
    decide +kernel
  exact avoids 0 30000 backTrace.node backEntry _ t rfl (List.get_mem _ _) run
    (List.mem_singleton.mpr rfl) _ (List.mem_singleton.mpr rfl) (List.cons.inj same).1 _ handed
    (by decide +kernel)

end LwipDtn
