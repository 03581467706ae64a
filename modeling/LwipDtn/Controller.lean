import LwipDtn.Routing
import LwipDtn.Icmpv6

/-!
`dtn_controller.c`: what happens to an incoming packet, and the pass over the stored
packets. Both return the node they leave behind and the list of their effects, in
order.
-/

namespace LwipDtn
open Outcome Bytes

def Node.stored (node : Node) : List Bytes := node.storage.packetListHead.map fun e => e.p.bytes

def Config.isLocal (cfg : Config) (dest : Ip6Addr) : Bool := cfg.localAddrs.contains dest.addr

/-- `pbuf_header(p, -n)` -/
def Pbuf.removeHeader (p : Pbuf) (n : Nat) : Option Pbuf :=
  if n ≤ p.len then
    some ⟨p.payload.drop n, p.behind, p.chain, by
      have := p.tot_lt
      simp only [List.length_drop]
      omega⟩
  else none

/-- The next hop that the routing answers for a packet, if a contact to it is open. -/
def routeAnswer (routing : RoutingView) (activeNow : UInt32) (p : Pbuf) :
    Run (Option Ip6Addr) := do
  let src ← ip6AddrAt p.mem 8
  let dest ← ip6AddrAt p.mem 24
  let custodian ← dtnExtractCustodianOption p
  let q ← routeQueryAt p.mem dest (custodian.getD src.addr)
  activeNextHop routing activeNow q

/-- Everything the environment decides while one packet is processed. -/
structure IncomingEnv where
  icmpClone : Heap
  icmp : IcmpEnv
  ackClone : Heap
  status : StatusEnv
  routing : RoutingView
  activeNow : UInt32
  rewrite : RewriteEnv
  store : StoreEnv
  sendto : Bool

/-- The ICMPv6 branch: the node after a status message, or nothing when the packet
is not one. A copy that cannot be made drops the packet. -/
def consumeStatus (env : IncomingEnv) (node : Node) (p : Pbuf) : Run (Option Node) := do
  if nexthOf p.payload ≠ ip6NexthIcmp6 then return none
  match (pbufClone env.icmpClone p).bind (Pbuf.removeHeader · ip6Hlen) with
  | none => return some node
  | some q =>
      let (handled, node) ← dtnIcmpv6Process env.icmp node q
      return if handled then some node else none

/-- The DTN-PCK-RECEIVED message about a copy of the packet. -/
def acknowledge (cfg : Config) (clone : Heap) (env : StatusEnv) (stored : List Bytes) (p : Pbuf)
    (code : UInt8) : Run (List Effect) :=
  match pbufClone clone p with
  | none => return []
  | some q => dtnIcmpv6SendPckReceived cfg env stored q code

def deliverLocal (cfg : Config) (env : IncomingEnv) (node : Node) (p : Pbuf) :
    Run (Node × List Effect) := do
  let ack ← acknowledge cfg env.ackClone env.status node.stored p icmp6CodeDtnNoInfo
  return (node, ack ++ [.deliver p.bytes])

def forwardDirect (cfg : Config) (env : IncomingEnv) (node : Node) (p : Pbuf) (hop : Ip6Addr) :
    Run (Node × List Effect) := do
  let (_, q) ← dtnUpdateOrAddCustodianOption env.rewrite p cfg.myAddr
  return (node, [.forward ⟨q.bytes, hop.addr, rawSocketSendIpv6 env.sendto q, node.stored⟩])

def storeIncoming (cfg : Config) (text : AddrText) (env : IncomingEnv) (node : Node) (p : Pbuf)
    (dest : Ip6Addr) : Run (Node × List Effect) := do
  let (accepted, storage) ← dtnStorageStorePacket text env.store node.storage p dest
  let node := { node with storage := storage }
  if accepted then
    let ack ← acknowledge cfg env.ackClone env.status node.stored p icmp6CodeDtnNoContact
    return (node, .store p.bytes true :: ack)
  else return (node, [.store p.bytes false])

/-- A packet that is neither a status message nor for the local stack. -/
def routeIncoming (cfg : Config) (text : AddrText) (env : IncomingEnv) (node : Node) (p : Pbuf)
    (dest : Ip6Addr) (sender : Block 16) : Run (Node × List Effect) := do
  if dtnRoutingIsDtnDestination env.routing.contacts dest then
    let q ← routeQueryAt p.mem dest sender
    match ← activeNextHop env.routing env.activeNow q with
    | some hop => forwardDirect cfg env node p hop
    | none => storeIncoming cfg text env node p dest
  else
    return (node, [.relay ⟨p.bytes, dest.addr, rawSocketSendIpv6 env.sendto p, node.stored⟩])

def dtnControllerProcessIncoming (cfg : Config) (text : AddrText) (env : IncomingEnv) (node : Node)
    (p : Pbuf) : Run (Node × List Effect) := do
  if p.len < ip6Hlen then return (node, [])
  if (p.payload.getD 0 0).toNat / 16 ≠ 6 then return (node, [])
  let src ← ip6AddrAt p.mem 8
  let dest ← ip6AddrAt p.mem 24
  let custodian ← dtnExtractCustodianOption p
  match ← consumeStatus env node p with
  | some node => return (node, [])
  | none =>
      if cfg.isLocal dest then deliverLocal cfg env node p
      else routeIncoming cfg text env node p dest (custodian.getD src.addr)

/-- Everything the environment decides while the pass looks at one entry. -/
structure PassEnv where
  attempt : AttemptEnv
  routing : RoutingView
  activeNow : UInt32
  forwardClone : Heap
  ackClone : Heap
  status : StatusEnv
  add : Heap
  sendto : Bool

/-- A copy of a stored packet is tagged and sent, or given to the local stack. -/
def forwardCopy (cfg : Config) (env : PassEnv) (node : Node) (dest hop : Ip6Addr) (q : Pbuf) :
    Run (List Effect) := do
  if cfg.isLocal dest then
    let ack ← acknowledge cfg env.ackClone env.status node.stored q icmp6CodeDtnNoInfo
    return ack ++ [.deliver q.bytes]
  else
    let (_, q) ← dtnAddCustodianOption env.add q cfg.myAddr
    return [.forward ⟨q.bytes, hop.addr, rawSocketSendIpv6 env.sendto q, node.stored⟩]

def forwardEntry (cfg : Config) (env : PassEnv) (node : Node) (entry : StoredPacketEntry) :
    Run (List Effect) := do
  let src ← ip6AddrAt entry.p.mem 8
  let dest ← ip6AddrAt entry.p.mem 24
  let custodian ← dtnExtractCustodianOption entry.p
  let q ← routeQueryAt entry.p.mem dest (custodian.getD src.addr)
  match ← activeNextHop env.routing env.activeNow q with
  | none => return []
  | some hop =>
      match pbufClone env.forwardClone entry.p with
      | none => return []
      | some copy => forwardCopy cfg env node dest hop copy

/-- Where the saved `next_entry` is after the first entry for a destination may have
been taken out. A saved pointer to the removed entry itself would dangle. -/
def nextIndex (before after : List StoredPacketEntry) (dest : Ip6Addr) (i : Nat) : Run Nat :=
  if after.length = before.length then return i + 1
  else
    match before.findIdx? (isForDest dest) with
    | none => return i + 1
    | some j => if j ≤ i then return i else if j = i + 1 then .error .fault else return i + 1

/-- The loop of the pass; `step` counts the entries that have been looked at. -/
def forwardFrom (cfg : Config) (env : Nat → PassEnv) : Nat → Nat → Nat → Node →
    Run (Node × List Effect)
  | 0, _, _, _ => .error .hang
  | fuel + 1, step, i, node =>
      match node.storage.packetListHead[i]? with
      | none => return (node, [])
      | some entry => do
          let (attempt, node') ← shouldAttemptForward (env step).attempt node entry.originalDest
          let sent ← if attempt then forwardEntry cfg (env step) node' entry else pure []
          let j ← nextIndex node.storage.packetListHead node'.storage.packetListHead
            entry.originalDest i
          let (node'', later) ← forwardFrom cfg env fuel (step + 1) j node'
          return (node'', sent ++ later)

def dtnControllerAttemptForwardStored (cfg : Config) (env : Nat → PassEnv) (node : Node) :
    Run (Node × List Effect) :=
  forwardFrom cfg env (node.storage.packetListHead.length + 1) 0 0 node

end LwipDtn
