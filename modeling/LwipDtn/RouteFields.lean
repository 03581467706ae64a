import LwipDtn.Controller
import LwipDtn.Cgr.NextHop

/-!
The header fields that routing sees. Both callers copy the first word and the payload
length out of the header as they stand, in network order, and the shifts that follow are
those for host order. On a little-endian host the payload length comes out with its bytes
exchanged, and the traffic class is taken from the flow label.
-/

namespace LwipDtn
open Outcome Bytes

def trafficClassOf (b : Bytes) : Nat := (b.getD 0 0).toNat % 16 * 16 + (b.getD 1 0).toNat / 16

def dscpOf (b : Bytes) : Nat := trafficClassOf b / 4

/-- The DSCP that `dtn_routing_get_dtn_next_hop` computes. -/
def RouteQuery.dscp (q : RouteQuery) : Nat := q.vTcFl.toNat / 1048576 % 256 / 4

theorem routePacket_eq (time : ℚ) (q : RouteQuery) : routePacket time q =
    .new time (ipv6ToNodeid q.dest.addr) q.plen (q.hoplim.toNat * 10000 : Nat) q.dscp
      (ipv6ToNodeid q.sender) := rfl

/-- The question that both callers put about a packet. -/
def questionFor (p : Pbuf) : Run RouteQuery := do
  let src ← ip6AddrAt p.mem 8
  let dest ← ip6AddrAt p.mem 24
  let custodian ← dtnExtractCustodianOption p
  routeQueryAt p.mem dest (custodian.getD src.addr)

/-- No other answer of the routing than the one to this question matters to the call. -/
def OnlyAsks {α : Type} (call : RoutingView → α) (q : RouteQuery) : Prop :=
  ∀ routing routing', routing.contacts = routing'.contacts → routing.cgr q = routing'.cgr q →
    call routing = call routing'

/-- The size and the DSCP in the question are those of the packet. -/
structure SeesHeader (q : RouteQuery) (b : Bytes) : Prop where
  size : q.plen = plenOf b
  dscp : q.dscp = dscpOf b

/-- The fields read the same from both ends: the two bytes of the payload length are
equal, and the bits of the flow label that are read as the DSCP agree with it. -/
structure ReadsBothWays (b : Bytes) : Prop where
  size : b.getD 4 0 = b.getD 5 0
  upper : (b.getD 3 0).toNat % 16 = (b.getD 0 0).toNat % 16
  lower : (b.getD 2 0).toNat / 64 = (b.getD 1 0).toNat / 64

section

variable {p : Pbuf} {q : RouteQuery}

theorem activeNextHop_congr {routing routing' : RoutingView} {now : UInt32}
    (contacts : routing.contacts = routing'.contacts) (answer : routing.cgr q = routing'.cgr q) :
    activeNextHop routing now q = activeNextHop routing' now q := by
  rw [activeNextHop, activeNextHop, dtnRoutingGetDtnNextHop, dtnRoutingGetDtnNextHop, contacts,
    answer]

theorem processIncoming_asks (cfg : Config) (text : AddrText) (env : IncomingEnv) (node : Node)
    (asked : questionFor p = .ok q) :
    OnlyAsks
      (fun routing => dtnControllerProcessIncoming cfg text { env with routing } node p) q := by
  intro routing routing' contacts answer
  simp only [questionFor, Run.bind_eq_ok] at asked
  obtain ⟨src, hsrc, dest, hdest, custodian, hcust, hquery⟩ := asked
  have hroute : routeIncoming cfg text { env with routing } node p dest (custodian.getD src.addr) =
      routeIncoming cfg text { env with routing := routing' } node p dest
        (custodian.getD src.addr) := by
    simp only [routeIncoming, hquery, Run.bind_ok, contacts, activeNextHop_congr contacts answer]
    rfl
  simp only [dtnControllerProcessIncoming, hsrc, hdest, hcust, Run.bind_ok, hroute]
  rfl

theorem forwardEntry_asks (cfg : Config) (env : PassEnv) (node : Node) (e : StoredPacketEntry)
    (asked : questionFor e.p = .ok q) :
    OnlyAsks (fun routing => forwardEntry cfg { env with routing } node e) q := by
  intro routing routing' contacts answer
  simp only [questionFor, Run.bind_eq_ok] at asked
  obtain ⟨src, hsrc, dest, hdest, custodian, hcust, hquery⟩ := asked
  simp only [forwardEntry, hsrc, hdest, hcust, hquery, Run.bind_ok,
    activeNextHop_congr contacts answer]
  rfl

theorem routeQueryAt_fields (header : ip6Hlen ≤ p.len) {dest : Ip6Addr} {sender : Block 16}
    (h : routeQueryAt p.mem dest sender = .ok q) :
    q.vTcFl = le32At p.bytes 0 ∧
      q.plen = (p.bytes.getD 4 0).toNat + (p.bytes.getD 5 0).toNat * 256 := by
  rw [ip6Hlen] at header
  simp only [routeQueryAt, p.byteAt_mem (show 4 < p.len by omega),
    p.byteAt_mem (show 5 < p.len by omega), Run.bind_eq_ok] at h
  obtain ⟨word, hword, lo, hlo, hi, hhi, hoplim, -, h⟩ := h
  cases hlo
  cases hhi
  cases h
  refine ⟨?_, rfl⟩
  have hfirst : p.mem.take 4 = p.bytes.take 4 := by
    have hlong : 4 ≤ p.payload.length := Nat.le_trans (by decide) header
    rw [Pbuf.mem, Pbuf.bytes, List.take_append_of_le_length hlong,
      List.take_append_of_le_length hlong]
  rw [(readBlock_eq_ok.mp hword).2, List.drop_zero, hfirst]
  simp [le32At, List.getD_eq_getElem?_getD]

theorem dscp_le32At (b : Bytes) (vTcFl : UInt32) (h : vTcFl = le32At b 0) :
    vTcFl.toNat / 1048576 % 256 / 4 = (b.getD 3 0).toNat % 16 * 4 + (b.getD 2 0).toNat / 64 := by
  have h0 := (b.getD 0 0).toNat_lt
  have h1 := (b.getD 1 0).toNat_lt
  have h2 := (b.getD 2 0).toNat_lt
  have h3 := (b.getD 3 0).toNat_lt
  rw [h, le32At, le32Val, UInt32.toNat_ofNat']
  simp only [Nat.zero_add]
  omega

end

/-- Both callers put the same question, and its size and DSCP are those of the packet
exactly if the fields read the same from both ends. -/
theorem routing_sees_header_iff (cfg : Config) (text : AddrText) (p : Pbuf)
    (header : ip6Hlen ≤ p.len) (q : RouteQuery) (asked : questionFor p = .ok q) :
    (∀ (env : IncomingEnv) (node : Node), OnlyAsks (fun routing =>
      dtnControllerProcessIncoming cfg text { env with routing } node p) q) ∧
    (∀ (env : PassEnv) (node : Node) (e : StoredPacketEntry), e.p = p → OnlyAsks (fun routing =>
      forwardEntry cfg { env with routing } node e) q) ∧
    (SeesHeader q p.bytes ↔ ReadsBothWays p.bytes) := by
  refine ⟨fun env node => processIncoming_asks cfg text env node asked,
    fun env node e he => forwardEntry_asks cfg env node e (he ▸ asked), ?_⟩
  simp only [questionFor, Run.bind_eq_ok] at asked
  obtain ⟨src, -, dest, -, custodian, -, hquery⟩ := asked
  obtain ⟨hword, hplen⟩ := routeQueryAt_fields header hquery
  have hdscp := dscp_le32At p.bytes q.vTcFl hword
  have hsize : q.plen = plenOf p.bytes ↔ p.bytes.getD 4 0 = p.bytes.getD 5 0 := by
    have h4 := (p.bytes.getD 4 0).toNat_lt
    have h5 := (p.bytes.getD 5 0).toNat_lt
    rw [hplen, plenOf, be16Val, ← UInt8.toNat_inj]
    omega
  have h1 := (p.bytes.getD 1 0).toNat_lt
  have h2 := (p.bytes.getD 2 0).toNat_lt
  constructor
  · rintro ⟨size, dscp⟩
    rw [RouteQuery.dscp, hdscp, dscpOf, trafficClassOf] at dscp
    exact ⟨hsize.mp size, by omega, by omega⟩
  · rintro ⟨size, upper, lower⟩
    refine ⟨hsize.mpr size, ?_⟩
    rw [RouteQuery.dscp, hdscp, dscpOf, trafficClassOf]
    omega

/-- A header of next header 59 with 257 bytes of payload and no traffic class. -/
def evenHeader : Pbuf :=
  .single ([0x60, 0, 0, 0, 1, 1, 59, 64] ++ List.replicate 40 0) [] (by decide)

theorem routing_sees_even_header :
    ∃ q, questionFor evenHeader = .ok q ∧ SeesHeader q evenHeader.bytes := by
  refine ⟨_, rfl, ?_⟩
  have hiff := routing_sees_header_iff ⟨netAddr 0x01 2, []⟩ hexAddrText evenHeader (by decide) _ rfl
  exact hiff.2.2.mpr ⟨by decide, by decide, by decide⟩

def urgentHeader : Pbuf :=
  .single ([0x6b, 0x80, 0, 0, 0, 8, 59, 64] ++ List.replicate 40 0) [] (by decide)

/-- Routing takes it for one with DSCP 0 and 2048 bytes of payload. -/
theorem routing_misreads_header :
    ∃ q, questionFor urgentHeader = .ok q ∧ q.plen = 2048 ∧ plenOf urgentHeader.bytes = 8 ∧
      q.dscp = 0 ∧ dscpOf urgentHeader.bytes = 46 :=
  ⟨_, rfl, by decide, by decide, by decide, by decide⟩

end LwipDtn
