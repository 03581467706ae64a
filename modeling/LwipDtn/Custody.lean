import LwipDtn.Ip6

/-!
`dtn_custody.c`: the custodian option, carried as the first option of an IPv6
hop-by-hop header that the DTN module inserts in front of the upper-layer packet.

Each function rebuilds or edits the packet with the offsets, 16-bit lengths and
copies of the source. A result is the returned flag with the buffer the caller is
left with.
-/

namespace LwipDtn
open Outcome Bytes

def custodyOptionType : UInt8 := 0x1E
def hbhOptHdrLen : Nat := 24

/-- `struct hbh_hdr` as `dtn_add_custodian_option` fills it in. -/
def hbhHdr (nextHeader : UInt8) (custodian : Block 16) : Bytes :=
  [nextHeader, UInt8.ofNat (hbhOptHdrLen / 8 - 1), custodyOptionType, 16] ++ custodian.1 ++
    [0, 0, 0, 0]

@[simp] theorem hbhHdr_length (n : UInt8) (c : Block 16) : (hbhHdr n c).length = 24 := by
  simp [hbhHdr, c.2]

/-- Copy the IPv6 header into a new packet and set its next header and length. -/
def copyIp6Hdr (newp : Bytes) (hdr : Block ip6Hlen) (nexth : UInt8) (plen : Nat) : Run Bytes := do
  let newp ← overwrite newp 0 hdr.1
  let newp ← overwrite newp 6 [nexth]
  overwrite newp 4 (be16 plen)

def dtnAddCustodianOption (heap : Heap) (p : Pbuf) (custodian : Block 16) : Run (Bool × Pbuf) := do
  let oldNexth ← byteAt p.mem 6
  let origLen ← be16At p.mem 4
  let newLen := (origLen + hbhOptHdrLen) % 65536
  match pbufAlloc heap (ip6Hlen + newLen) with
  | none => return (false, p)
  | some (newp, behind) =>
      let hdr ← readBlock p.mem 0 ip6Hlen
      let newp ← copyIp6Hdr newp hdr ip6NexthHopbyhop newLen
      let newp ← overwrite newp ip6Hlen (hbhHdr oldNexth custodian)
      let n ← copyLength p.totLen ip6Hlen
      let src ← readBlock p.mem ip6Hlen n
      let newp ← overwrite newp (ip6Hlen + hbhOptHdrLen) src.1
      let q ← Pbuf.ofBlock newp behind
      return (true, q)

/-- The loop over extension headers. The step is computed in a `uint8_t`, so it is
zero for some length bytes; `fuel` bounds the iterations. -/
def skipExtensionHeaders (m : Bytes) : Nat → UInt8 → Nat → Run (UInt8 × Nat)
  | 0, _, _ => .error .hang
  | fuel + 1, nexth, ptr =>
      if nexth ≠ ip6NexthHopbyhop ∧ nexth ≠ ip6NexthNone then do
        let next ← byteAt m ptr
        let extLen ← byteAt m (ptr + 1)
        skipExtensionHeaders m fuel next (ptr + (extLen.toNat + 1) * 8 % 256)
      else return (nexth, ptr)

def dtnExtractCustodianOption (p : Pbuf) : Run (Option (Block 16)) := do
  let nexth ← byteAt p.mem 6
  let (nexth, ptr) ← skipExtensionHeaders p.mem (p.mem.length + 2) nexth ip6Hlen
  if nexth ≠ ip6NexthHopbyhop then return none
  let optType ← byteAt p.mem (ptr + 2)
  if optType ≠ custodyOptionType then return none
  let optDataLen ← byteAt p.mem (ptr + 3)
  if optDataLen ≠ 16 then return none
  let addr ← readBlock p.mem (ptr + 4) 16
  return some addr

def dtnStripCustodianOption (heap : Heap) (p : Pbuf) : Run (Bool × Pbuf) := do
  let nexth ← byteAt p.mem 6
  if nexth ≠ ip6NexthHopbyhop then return (false, p)
  let nextNexth ← byteAt p.mem ip6Hlen
  let origLen ← be16At p.mem 4
  let newLen := (origLen + 65536 - hbhOptHdrLen) % 65536
  match pbufAlloc heap (ip6Hlen + newLen) with
  | none => return (false, p)
  | some (newp, behind) =>
      let hdr ← readBlock p.mem 0 ip6Hlen
      let newp ← copyIp6Hdr newp hdr nextNexth newLen
      let n ← copyLength p.totLen (ip6Hlen + hbhOptHdrLen)
      let src ← readBlock p.mem (ip6Hlen + hbhOptHdrLen) n
      let newp ← overwrite newp ip6Hlen src.1
      let q ← Pbuf.ofBlock newp behind
      return (true, q)

/-- The first option of the hop-by-hop header at the payload is a custodian option. -/
def hasCustodyOption (m : Bytes) : Run Bool := do
  let optType ← byteAt m (ip6Hlen + 2)
  if optType ≠ custodyOptionType then return false
  let optDataLen ← byteAt m (ip6Hlen + 3)
  return optDataLen == 16

/-- The overwritten address may reach past the first segment. -/
def Pbuf.setCustodian (p : Pbuf) (custodian : Block 16) : Run Pbuf := do
  let m ← overwrite p.mem (ip6Hlen + 4) custodian.1
  if h : (m.take p.len).length + p.chain.length < 65536 then
    return ⟨m.take p.len, m.drop p.len, p.chain, h⟩
  else .error .fault

/-- The two allocations of a rewrite: one to strip and one to add. -/
structure RewriteEnv where
  strip : Heap
  add : Heap

def dtnUpdateOrAddCustodianOption (env : RewriteEnv) (p : Pbuf) (custodian : Block 16) :
    Run (Bool × Pbuf) := do
  let nexth ← byteAt p.mem 6
  if nexth = ip6NexthHopbyhop then
    if ← hasCustodyOption p.mem then
      let q ← p.setCustodian custodian
      return (true, q)
    else
      let (stripped, q) ← dtnStripCustodianOption env.strip p
      if stripped then dtnAddCustodianOption env.add q custodian else return (false, q)
  else dtnAddCustodianOption env.add p custodian

end LwipDtn
