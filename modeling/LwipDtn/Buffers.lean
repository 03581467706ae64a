import LwipDtn.Controller
import LwipDtn.Library.Ledger

/-!
The handling of an incoming packet with its packet buffers: every `pbuf_alloc` that
succeeds adds one live buffer, every `pbuf_free` releases one, and `ip6_input` consumes
the buffer it is given. The functions are those of the same names without the buffers,
with the allocations and releases where the source has them.
-/

namespace LwipDtn
open Outcome Bytes BoundedFifo Ledger

/-- `tunif_input` with what its environment decides: the buffer of the packet that has
been read, if there is one in the pool, and everything about its handling. -/
structure Arrival where
  p : Option Pbuf
  env : IncomingEnv

def tunifInput (cfg : Config) (text : AddrText) (a : Arrival) (node : Node) :
    Run (Node × List Effect) :=
  match a.p with
  | none => return (node, [])
  | some p => dtnControllerProcessIncoming cfg text a.env node p

def tunifInputs (cfg : Config) (text : AddrText) : List Arrival → Node → Run (Node × List Effect)
  | [], node => return (node, [])
  | a :: rest, node => do
      let (node, effects) ← tunifInput cfg text a node
      let (node, later) ← tunifInputs cfg text rest node
      return (node, effects ++ later)

namespace Buffers

def pbufAlloc (heap : Heap) (length : Nat) : Counted (Option (Bytes × Bytes)) :=
  acquire (LwipDtn.pbufAlloc heap length)

/-- `pbuf_alloc` and `pbuf_copy`. -/
def pbufClone (heap : Heap) (p : Pbuf) : Counted (Option Pbuf) :=
  acquire (LwipDtn.pbufClone heap p)

def pbufFree : Counted Unit := release

def ip6Input : Counted Unit := release

def dtnAddCustodianOption (heap : Heap) (p : Pbuf) (custodian : Block 16) :
    Counted (Bool × Pbuf) := do
  let oldNexth ← byteAt p.mem 6
  let origLen ← be16At p.mem 4
  let newLen := (origLen + hbhOptHdrLen) % 65536
  match ← pbufAlloc heap (ip6Hlen + newLen) with
  | none => return (false, p)
  | some (newp, behind) =>
      let hdr ← readBlock p.mem 0 ip6Hlen
      let newp ← copyIp6Hdr newp hdr ip6NexthHopbyhop newLen
      let newp ← overwrite newp ip6Hlen (hbhHdr oldNexth custodian)
      let n ← copyLength p.totLen ip6Hlen
      let src ← readBlock p.mem ip6Hlen n
      let newp ← overwrite newp (ip6Hlen + hbhOptHdrLen) src.1
      let q ← Pbuf.ofBlock newp behind
      pbufFree
      return (true, q)

def dtnStripCustodianOption (heap : Heap) (p : Pbuf) : Counted (Bool × Pbuf) := do
  let nexth ← byteAt p.mem 6
  if nexth ≠ ip6NexthHopbyhop then return (false, p)
  else
    let nextNexth ← byteAt p.mem ip6Hlen
    let origLen ← be16At p.mem 4
    let newLen := (origLen + 65536 - hbhOptHdrLen) % 65536
    match ← pbufAlloc heap (ip6Hlen + newLen) with
    | none => return (false, p)
    | some (newp, behind) =>
        let hdr ← readBlock p.mem 0 ip6Hlen
        let newp ← copyIp6Hdr newp hdr nextNexth newLen
        let n ← copyLength p.totLen (ip6Hlen + hbhOptHdrLen)
        let src ← readBlock p.mem (ip6Hlen + hbhOptHdrLen) n
        let newp ← overwrite newp ip6Hlen src.1
        let q ← Pbuf.ofBlock newp behind
        pbufFree
        return (true, q)

def dtnUpdateOrAddCustodianOption (env : RewriteEnv) (p : Pbuf) (custodian : Block 16) :
    Counted (Bool × Pbuf) := do
  let nexth ← byteAt p.mem 6
  if nexth = ip6NexthHopbyhop then
    if ← hasCustodyOption p.mem then
      let q ← p.setCustodian custodian
      return (true, q)
    else
      let (stripped, q) ← dtnStripCustodianOption env.strip p
      if stripped then dtnAddCustodianOption env.add q custodian else return (false, q)
  else dtnAddCustodianOption env.add p custodian

/-- The copy that is stored stays live as long as its entry. -/
def dtnStorageStorePacket (text : AddrText) (env : StoreEnv) (s : StorageFunction) (p : Pbuf)
    (originalDest : Ip6Addr) : Counted (Bool × StorageFunction) := do
  if dtnStorageIsFull s then return (false, s)
  else
    match ← pbufClone env.copy p with
    | none => return (false, s)
    | some copy =>
        let (_, toStore) ← dtnStripCustodianOption env.strip copy
        if env.entry = false then
          pbufFree
          return (false, s)
        else
          let (saved, entry, disk) := dtnStorageSavePacketToDisk text env.save s.disk
            ⟨toStore, originalDest, env.now, []⟩
          if saved then return (true, { s with disk := disk }.append entry)
          else
            pbufFree
            return (false, { s with disk := disk })

/-- A deletion releases the buffer of the entry that it unlinks. -/
def removeFirst (s : StorageFunction) (removed : Bool) (test : StoredPacketEntry → Run Bool) :
    Counted StorageFunction := do
  let (found, s) ← s.removeFirst removed test
  match found with
  | none => return s
  | some _ =>
      pbufFree
      return s

def dtnStorageDeletePacketByIpHeader (removed : Bool) (s : StorageFunction) (origIp6hdr : Bytes) :
    Counted StorageFunction := do
  if s.packetListHead.isEmpty then return s
  else removeFirst s removed fun entry => return matchesHeader origIp6hdr entry

def dtnStorageDeletePacketByIcmpData (removed : Bool) (s : StorageFunction) (icmp : Pbuf) :
    Counted StorageFunction := do
  if s.packetListHead.isEmpty then return s
  else if icmp.len < ip6Hlen + 8 + 9 + ip6Hlen + 8 then return s
  else
    let quote := quotedPacket icmp.payload
    if quote.payloadBytes = 0 then dtnStorageDeletePacketByIpHeader removed s quote.hdr
    else removeFirst s removed (matchesQuote icmp quote)

def dtnIcmpv6SendMessage (cfg : Config) (env : StatusEnv) (stored : List Bytes) (p : Pbuf)
    (type code reason : UInt8) : Counted (List Effect) := do
  match ← pbufAlloc env.message (8 + (9 + quotedLen)) with
  | none => return []
  | some (q, _) =>
      let plen ← readBlock p.mem 4 2
      let quote := p.bytes.take quotedLen
      let dest ← match ← dtnExtractCustodianOption p with
        | some c => pure c
        | none => readBlock p.mem 8 16
      match ← pbufAlloc env.complete (ip6Hlen + (8 + (9 + quotedLen))) with
      | none =>
          pbufFree
          return []
      | some _ =>
          let packet := statusPacket cfg env type code reason dest plen quote
            (q.drop (17 + quote.length))
          pbufFree
          -- sent here, then the complete packet is released
          pbufFree
          return [.status ⟨packet, dest, env.sendto, stored⟩ p.bytes]

def dtnIcmpv6SendPckReceived (cfg : Config) (env : StatusEnv) (stored : List Bytes) (p : Pbuf)
    (code : UInt8) : Counted (List Effect) :=
  dtnIcmpv6SendMessage cfg env stored p icmp6TypeDtnPckReceived code 0

def deleteAcknowledged (env : IcmpEnv) (s : StorageFunction) (q : Pbuf) :
    Counted StorageFunction := do
  match ← pbufAlloc env.copy (ip6Hlen + q.totLen) with
  | some (_, behind) =>
      let outer := [0x60, 0, 0, 0] ++ be16 q.totLen ++ [ip6NexthIcmp6, 255] ++ env.current.1
      let icmp ← Pbuf.ofBlock (outer ++ q.bytes) behind
      let s ← dtnStorageDeletePacketByIcmpData env.removed s icmp
      pbufFree
      return s
  | none =>
      if s.packetListHead.isEmpty then return s
      else
        let hdr ← readBlock q.mem 17 ip6Hlen
        dtnStorageDeletePacketByIpHeader env.removed s hdr.1

def dtnIcmpv6Process (env : IcmpEnv) (node : Node) (q : Pbuf) : Counted (Bool × Node) := do
  let type ← byteAt q.mem 0
  if type = icmp6TypeDtnPckReceived then
    let _ ← readBlock q.mem 0 17
    let storage ← deleteAcknowledged env node.storage q
    let dest ← readBlock q.mem 41 16
    return (true, ⟨storage, dtnControllerRemoveTracking node.attempts ⟨dest, 0, noPadding⟩⟩)
  else if type = icmp6TypeDtnPckForwarded ∨ type = icmp6TypeDtnPckDelivered ∨
      type = icmp6TypeDtnPckDeleted then
    let _ ← readBlock q.mem 0 17
    return (true, node)
  else return (false, node)

/-- Where the packet ends here, both the copy and the packet are released. -/
def consumeStatus (env : IncomingEnv) (node : Node) (p : Pbuf) : Counted (Option Node) := do
  if nexthOf p.payload ≠ ip6NexthIcmp6 then return none
  else
    match ← pbufClone env.icmpClone p with
    | none =>
        pbufFree
        return some node
    | some q =>
        match q.removeHeader ip6Hlen with
        | none =>
            pbufFree
            pbufFree
            return some node
        | some q =>
            let (handled, node) ← dtnIcmpv6Process env.icmp node q
            if handled then
              pbufFree
              pbufFree
              return some node
            else
              pbufFree
              return none

def acknowledge (cfg : Config) (clone : Heap) (env : StatusEnv) (stored : List Bytes) (p : Pbuf)
    (code : UInt8) : Counted (List Effect) := do
  match ← pbufClone clone p with
  | none => return []
  | some q =>
      let effects ← dtnIcmpv6SendPckReceived cfg env stored q code
      pbufFree
      return effects

/-- The copy for a message that is commented out in the source. -/
def copyForNothing (clone : Heap) (p : Pbuf) : Counted Unit := do
  match ← pbufClone clone p with
  | none => return ()
  | some _ => pbufFree

def deliverLocal (cfg : Config) (env : IncomingEnv) (node : Node) (p : Pbuf) :
    Counted (Node × List Effect) := do
  let ack ← acknowledge cfg env.ackClone env.status node.stored p icmp6CodeDtnNoInfo
  ip6Input
  return (node, ack ++ [.deliver p.bytes])

def forwardDirect (cfg : Config) (env : IncomingEnv) (node : Node) (p : Pbuf) (hop : Ip6Addr) :
    Counted (Node × List Effect) := do
  copyForNothing env.ackClone p
  let (_, q) ← dtnUpdateOrAddCustodianOption env.rewrite p cfg.myAddr
  pbufFree
  return (node, [.forward ⟨q.bytes, hop.addr, rawSocketSendIpv6 env.sendto q, node.stored⟩])

/-- A packet that has been stored is not released. -/
def storeIncoming (cfg : Config) (text : AddrText) (env : IncomingEnv) (node : Node) (p : Pbuf)
    (dest : Ip6Addr) : Counted (Node × List Effect) := do
  let (accepted, storage) ← dtnStorageStorePacket text env.store node.storage p dest
  let node := { node with storage := storage }
  if accepted then
    let ack ← acknowledge cfg env.ackClone env.status node.stored p icmp6CodeDtnNoContact
    return (node, .store p.bytes true :: ack)
  else
    copyForNothing env.ackClone p
    pbufFree
    return (node, [.store p.bytes false])

def routeIncoming (cfg : Config) (text : AddrText) (env : IncomingEnv) (node : Node) (p : Pbuf)
    (dest : Ip6Addr) (sender : Block 16) : Counted (Node × List Effect) := do
  if dtnRoutingIsDtnDestination env.routing.contacts dest then
    let q ← routeQueryAt p.mem dest sender
    match ← activeNextHop env.routing env.activeNow q with
    | some hop => forwardDirect cfg env node p hop
    | none => storeIncoming cfg text env node p dest
  else
    pbufFree
    return (node, [.relay ⟨p.bytes, dest.addr, rawSocketSendIpv6 env.sendto p, node.stored⟩])

def dtnControllerProcessIncoming (cfg : Config) (text : AddrText) (env : IncomingEnv) (node : Node)
    (p : Pbuf) : Counted (Node × List Effect) := do
  if p.len < ip6Hlen then
    pbufFree
    return (node, [])
  else if (p.payload.getD 0 0).toNat / 16 ≠ 6 then
    pbufFree
    return (node, [])
  else
    let src ← ip6AddrAt p.mem 8
    let dest ← ip6AddrAt p.mem 24
    let custodian ← dtnExtractCustodianOption p
    match ← consumeStatus env node p with
    | some node => return (node, [])
    | none =>
        if cfg.isLocal dest then deliverLocal cfg env node p
        else routeIncoming cfg text env node p dest (custodian.getD src.addr)

def tunifInput (cfg : Config) (text : AddrText) (a : Arrival) (node : Node) :
    Counted (Node × List Effect) := do
  match ← acquire a.p with
  | none => return (node, [])
  | some p => dtnControllerProcessIncoming cfg text a.env node p

def tunifInputs (cfg : Config) (text : AddrText) :
    List Arrival → Node → Counted (Node × List Effect)
  | [], node => return (node, [])
  | a :: rest, node => do
      let (node, effects) ← tunifInput cfg text a node
      let (node, later) ← tunifInputs cfg text rest node
      return (node, effects ++ later)

end Buffers
end LwipDtn
