import LwipDtn.Storage

/-!
The calls that the rest of the module makes on the storage: storing a packet,
looking one up by destination, and the two deletions that follow an
acknowledgement. Each removal is the walk `unlinkFirst` with its own test.
-/

namespace LwipDtn
open Outcome Bytes BoundedFifo

def dtnStorageIsFull (s : StorageFunction) : Bool := s.storedPacketsCount ≥ maxStoredPackets

structure StoreEnv where
  now : UInt32
  copy : Heap
  strip : Heap
  entry : Bool
  save : SaveEnv

def dtnStorageStorePacket (text : AddrText) (env : StoreEnv) (s : StorageFunction) (p : Pbuf)
    (originalDest : Ip6Addr) : Run (Bool × StorageFunction) := do
  if dtnStorageIsFull s then return (false, s)
  match pbufClone env.copy p with
  | none => return (false, s)
  | some copy =>
      let (_, toStore) ← dtnStripCustodianOption env.strip copy
      if env.entry = false then return (false, s)
      let (saved, entry, disk) := dtnStorageSavePacketToDisk text env.save s.disk
        ⟨toStore, originalDest, env.now, []⟩
      if saved then return (true, { s with disk := disk }.append entry)
      else return (false, { s with disk := disk })

/-- What a removal does once its walk is over. -/
def StorageFunction.unlinked (s : StorageFunction) (removed : Bool) (entry : StoredPacketEntry)
    (rest : List StoredPacketEntry) : StorageFunction :=
  { s with
    packetListHead := rest
    storedPacketsCount := s.storedPacketsCount - 1
    disk := dtnStorageRemovePacketFromDisk removed s.disk entry.filename }

/-- Walk, unlink the first entry that the test accepts, and remove its file. -/
def StorageFunction.removeFirst (s : StorageFunction) (removed : Bool)
    (test : StoredPacketEntry → Run Bool) : Run (Option StoredPacketEntry × StorageFunction) := do
  match ← unlinkFirst test [] s.packetListHead with
  | none => return (none, s)
  | some (entry, rest) => return (some entry, s.unlinked removed entry rest)

/-- The destinations are compared after both zones have been cleared. -/
def isForDest (target : Ip6Addr) (entry : StoredPacketEntry) : Bool :=
  entry.originalDest.eqNoZone target

def dtnStorageRetrievePacketForDest (removed : Bool) (s : StorageFunction) (target : Ip6Addr) :
    Run (Option StoredPacketEntry × StorageFunction) :=
  s.removeFirst removed fun entry => return isForDest target entry

structure CopyEnv where
  entry : Bool
  pbuf : Heap

def dtnStorageGetPacketCopyForDest (env : CopyEnv) (s : StorageFunction) (target : Ip6Addr) :
    Option StoredPacketEntry := do
  let current ← s.packetListHead.find? (isForDest target)
  guard env.entry
  let copy ← pbufClone env.pbuf current.p
  return { current with p := copy }

/-- The stored packet has the addresses of the header. -/
def matchesHeader (hdr : Bytes) (entry : StoredPacketEntry) : Bool :=
  ip6Hlen ≤ entry.p.len ∧ srcOf entry.p.payload = srcOf hdr ∧ destOf entry.p.payload = destOf hdr

def dtnStorageDeletePacketByIpHeader (removed : Bool) (s : StorageFunction) (origIp6hdr : Bytes) :
    Run StorageFunction := do
  if s.packetListHead.isEmpty then return s
  let (_, s) ← s.removeFirst removed fun entry => return matchesHeader origIp6hdr entry
  return s

/-- What a status message says about the packet it quotes. -/
structure QuotedPacket where
  hdr : Bytes
  nexth : UInt8
  payloadStart : Nat
  payloadBytes : Nat

/-- The quoted packet starts behind the IPv6 header, the ICMPv6 header and nine
bytes of status. A hop-by-hop header is skipped; the number of payload bytes that
are left is computed in a `u8_t`, so it wraps when the header is longer than what
is quoted. -/
def quotedPacket (m : Bytes) : QuotedPacket :=
  let hdr := (m.drop 57).take ip6Hlen
  if nexthOf hdr = ip6NexthHopbyhop then
    let offset := ((m.getD 98 0).toNat + 1) * 8
    ⟨hdr, m.getD 97 0, 97 + offset, (2056 - offset) % 256⟩
  else ⟨hdr, nexthOf hdr, 97, 8⟩

/-- The quoted payload bytes are compared only when the stored packet has as many. -/
def payloadMatches (icmp : Pbuf) (quote : QuotedPacket) (entry : StoredPacketEntry) : Run Bool :=
  if ip6Hlen + quote.payloadBytes ≤ entry.p.len then do
    let orig ← readBlock icmp.mem quote.payloadStart quote.payloadBytes
    return decide ((entry.p.payload.drop ip6Hlen).take quote.payloadBytes = orig.1)
  else return true

/-- The test of the deletion by a status message. A stored packet that starts with
a hop-by-hop header makes the loop `continue` without advancing. -/
def matchesQuote (icmp : Pbuf) (quote : QuotedPacket) (entry : StoredPacketEntry) : Run Bool :=
  if ¬ (ip6Hlen ≤ entry.p.len ∧ srcOf entry.p.payload = srcOf quote.hdr) then return false
  else if nexthOf entry.p.payload = ip6NexthHopbyhop then .error .hang
  else do
    let payload ← payloadMatches icmp quote entry
    return payload && nexthOf entry.p.payload == quote.nexth

def dtnStorageDeletePacketByIcmpData (removed : Bool) (s : StorageFunction) (icmp : Pbuf) :
    Run StorageFunction := do
  if s.packetListHead.isEmpty then return s
  if icmp.len < ip6Hlen + 8 + 9 + ip6Hlen + 8 then return s
  let quote := quotedPacket icmp.payload
  if quote.payloadBytes = 0 then dtnStorageDeletePacketByIpHeader removed s quote.hdr
  else do
    let (_, s) ← s.removeFirst removed (matchesQuote icmp quote)
    return s

/-- A call on the storage with everything the environment decides about it. -/
inductive StorageCall where
  | store (env : StoreEnv) (p : Pbuf) (dest : Ip6Addr)
  | retrieve (removed : Bool) (dest : Ip6Addr)
  | getCopy (env : CopyEnv) (dest : Ip6Addr)
  | deleteByIpHeader (removed : Bool) (hdr : Bytes)
  | deleteByIcmpData (removed : Bool) (icmp : Pbuf)

def StorageCall.run (text : AddrText) (s : StorageFunction) : StorageCall → Run StorageFunction
  | .store env p dest => Prod.snd <$> dtnStorageStorePacket text env s p dest
  | .retrieve removed dest => Prod.snd <$> dtnStorageRetrievePacketForDest removed s dest
  | .getCopy _ _ => return s
  | .deleteByIpHeader removed hdr => dtnStorageDeletePacketByIpHeader removed s hdr
  | .deleteByIcmpData removed icmp => dtnStorageDeletePacketByIcmpData removed s icmp

end LwipDtn
