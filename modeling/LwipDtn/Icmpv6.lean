import LwipDtn.Tracking

/-!
`dtn_icmpv6.c`: the status messages. A message quotes the IPv6 header and eight more
bytes of the packet it is about, and goes to the custodian that the packet names, or
to its source.
-/

namespace LwipDtn
open Outcome Bytes

def icmp6TypeDtnPckReceived : UInt8 := 200
def icmp6TypeDtnPckForwarded : UInt8 := 201
def icmp6TypeDtnPckDelivered : UInt8 := 202
def icmp6TypeDtnPckDeleted : UInt8 := 203
def icmp6CodeDtnNoInfo : UInt8 := 0
def icmp6CodeDtnNoContact : UInt8 := 7

/-- The addresses of a node: the one its status messages and its custodian options
carry, and the ones of its local stack. -/
structure Config where
  myAddr : Block 16
  localAddrs : List (Block 16)

/-- A call of `raw_socket_send_ipv6`, with the packets that are in the storage at
that moment. -/
structure Transmission where
  packet : Bytes
  hop : Block 16
  sent : Bool
  stored : List Bytes
deriving DecidableEq

/-- What a node does to its surroundings: packets forwarded to a next hop, packets
passed on to a destination outside the plan, status messages about a packet,
packets for the local stack, and packets offered to the storage. -/
inductive Effect where
  | forward (t : Transmission)
  | relay (t : Transmission)
  | status (t : Transmission) (about : Bytes)
  | deliver (packet : Bytes)
  | store (packet : Bytes) (accepted : Bool)
deriving DecidableEq

/-- Packets of more than 2048 bytes do not fit the buffer of the raw socket. -/
def rawSocketSendIpv6 (sendto : Bool) (p : Pbuf) : Bool := p.totLen ≤ 2048 && sendto

structure StatusEnv where
  message : Heap
  now : UInt32
  chksum : Block 2
  complete : Heap
  sendto : Bool

def quotedLen : Nat := ip6Hlen + 8

/-- The packet of a status message. The payload length is copied as it stands in the
header, and a packet shorter than the quoted part leaves old memory at its end. -/
def statusPacket (cfg : Config) (env : StatusEnv) (type code reason : UInt8) (dest : Block 16)
    (plen : Block 2) (quote old : Bytes) : Bytes :=
  [0x60, 0, 0, 0] ++ be16 65 ++ [ip6NexthIcmp6, 255] ++ cfg.myAddr.1 ++ dest.1 ++
    ([type, code] ++ env.chksum.1 ++ [0, 0, 0, 0]) ++
    (le32 env.now ++ [0, 0] ++ plen.1 ++ [reason]) ++ (quote ++ old)

def dtnIcmpv6SendMessage (cfg : Config) (env : StatusEnv) (stored : List Bytes) (p : Pbuf)
    (type code reason : UInt8) : Run (List Effect) := do
  match pbufAlloc env.message (8 + (9 + quotedLen)) with
  | none => return []
  | some (q, _) =>
      let plen ← readBlock p.mem 4 2
      let quote := p.bytes.take quotedLen
      let dest ← match ← dtnExtractCustodianOption p with
        | some c => pure c
        | none => readBlock p.mem 8 16
      match pbufAlloc env.complete (ip6Hlen + (8 + (9 + quotedLen))) with
      | none => return []
      | some _ =>
          let packet := statusPacket cfg env type code reason dest plen quote
            (q.drop (17 + quote.length))
          return [.status ⟨packet, dest, env.sendto, stored⟩ p.bytes]

def dtnIcmpv6SendPckReceived (cfg : Config) (env : StatusEnv) (stored : List Bytes) (p : Pbuf)
    (code : UInt8) : Run (List Effect) :=
  dtnIcmpv6SendMessage cfg env stored p icmp6TypeDtnPckReceived code 0

structure IcmpEnv where
  copy : Heap
  current : Block 32
  removed : Bool

/-- The deletion behind a received message. The whole packet is rebuilt for the
comparison; without memory for it only the quoted header is used. -/
def deleteAcknowledged (env : IcmpEnv) (s : StorageFunction) (q : Pbuf) : Run StorageFunction := do
  match pbufAlloc env.copy (ip6Hlen + q.totLen) with
  | some (_, behind) =>
      let outer := [0x60, 0, 0, 0] ++ be16 q.totLen ++ [ip6NexthIcmp6, 255] ++ env.current.1
      let icmp ← Pbuf.ofBlock (outer ++ q.bytes) behind
      dtnStorageDeletePacketByIcmpData env.removed s icmp
  | none =>
      if s.packetListHead.isEmpty then return s
      let hdr ← readBlock q.mem 17 ip6Hlen
      dtnStorageDeletePacketByIpHeader env.removed s hdr.1

/-- The buffer starts at the ICMPv6 header. -/
def dtnIcmpv6Process (env : IcmpEnv) (node : Node) (q : Pbuf) : Run (Bool × Node) := do
  let type ← byteAt q.mem 0
  if type = icmp6TypeDtnPckReceived then
    let _ ← readBlock q.mem 0 17
    let storage ← deleteAcknowledged env node.storage q
    let dest ← readBlock q.mem 41 16
    return (true, ⟨storage, dtnControllerRemoveTracking node.attempts ⟨dest, 0, noPadding⟩⟩)
  else if type = icmp6TypeDtnPckForwarded ∨ type = icmp6TypeDtnPckDelivered ∨
      type = icmp6TypeDtnPckDeleted then
    let _ ← readBlock q.mem 0 17
    return (true, node)
  else return (false, node)

end LwipDtn
