import LwipDtn.Routing
import LwipDtn.Cgr.Forward

/-!
The question for the next hop in `dtn_routing.c`: the contact plan as the C loader and
`cp_load` read it, the tables of node ids, and the call of contact graph routing.
-/

namespace LwipDtn
open Outcome Bytes Cgr

/-- A line of the contact plan; the times are in seconds. -/
structure PlanContact where
  start : Nat
  stop : Nat
  frm : Nat
  toNode : Nat
  rate : Nat
  owlt : Nat

/-- The node id of an address. The source compares texts, and `inet_ntop` writes none
with a leading zero, so the address of this node has no id. -/
def ipv6ToNodeid (addr : Block 16) : Int :=
  if addr = netAddr 0x01 1 then 1
  else if addr = netAddr 0x12 1 then 12
  else if addr = netAddr 0x12 2 then 21
  else if addr = netAddr 0x23 2 then 23
  else if addr = netAddr 0x23 3 then 32
  else -1

def nodeidToIpv6 (nodeId : Int) : Option (Block 16) :=
  if nodeId = 1 then some (netAddr 0x01 1)
  else if nodeId = 10 then some (netAddr 0x01 2)
  else if nodeId = 12 then some (netAddr 0x12 1)
  else if nodeId = 21 then some (netAddr 0x12 2)
  else if nodeId = 23 then some (netAddr 0x23 2)
  else if nodeId = 32 then some (netAddr 0x23 3)
  else none

/-- `ipv6_to_nodeid(CURR_NODE_ADDR)`, on the text with the leading zero. -/
def currNodeId : Int := 10

def maxLength : Nat := 5000

/-- The C loader passes over lines with an unknown node. The contact is to `node_addr`,
and the transmitting side is its `next_hop`. -/
def dtnRoutingLoadContacts (baseTime : UInt32) (plan : List PlanContact) : List ContactInfo :=
  plan.filterMap fun c => do
    let fromIp6 ← nodeidToIpv6 c.frm
    let toIp6 ← nodeidToIpv6 c.toNode
    return ⟨⟨toIp6, 0, noPadding⟩, ⟨fromIp6, 0, noPadding⟩,
      UInt32.ofNat (c.start * 1000) + baseTime, UInt32.ofNat (c.stop * 1000) + baseTime, true⟩

def cpLoad (timeNow : ℚ) (plan : List PlanContact) : Fin (plan.take maxLength).length → Contact :=
  fun i =>
    let c := (plan.take maxLength).get i
    .new timeNow c.frm c.toNode c.start c.stop c.rate 1 c.owlt

def seconds (ms : UInt32) : ℚ := (ms.toNat : ℚ) / 1000

/-- The packet as contact graph routing sees it. The traffic class is taken out of the
header word as the host reads it. -/
def routePacket (time : ℚ) (q : RouteQuery) : Ipv6Packet :=
  .new time (ipv6ToNodeid q.dest.addr) q.plen (q.hoplim.toNat * 10000 : Nat)
    (q.vTcFl.toNat / 1048576 % 256 / 4) (ipv6ToNodeid q.sender)

section

variable (plan : List PlanContact) (baseTime clock : UInt32)

/-- `PyTuple_SetItem` has given `contact_plan` away, so the list is gone with the arguments
of `cgr_yen`, and `PyList_New` makes `excluded_nodes` of the same object. -/
def candidatesFor (q : RouteQuery) (routes : List (Route (plan.take maxLength).length)) :
    Py (List (Route (plan.take maxLength).length)) :=
  let time := seconds clock
  fwdCandidateShared (yenContacts time currNodeId (cpLoad (seconds baseTime) plan)) time
    (routePacket time q) routes []

/-- The zone of the answer is never set and never looked at. -/
def cgrNextHop (q : RouteQuery) : Run (Option Ip6Addr) :=
  let time := seconds clock
  match cgrYen time currNodeId (ipv6ToNodeid q.dest.addr) time (cpLoad (seconds baseTime) plan) 10
    with
  | .error .diverges => .error .hang
  | .error _ => return none
  | .ok routes =>
      match candidatesFor plan baseTime clock q routes with
      -- after an exception `PyList_Check` is given a null pointer
      | .error _ => .error .fault
      | .ok candidates => return do
          let first ← candidates.head?
          let addr ← nodeidToIpv6 first.nextNode
          return ⟨addr, 0, noPadding⟩

variable {plan baseTime clock} in
theorem cgrNextHop_candidate {q : RouteQuery} {hop : Ip6Addr}
    (h : cgrNextHop plan baseTime clock q = .ok (some hop)) :
    ∃ routes cands first, cgrYen (seconds clock) currNodeId (ipv6ToNodeid q.dest.addr)
        (seconds clock) (cpLoad (seconds baseTime) plan) 10 = .ok routes ∧
      candidatesFor plan baseTime clock q routes = .ok cands ∧ cands.head? = some first ∧
      nodeidToIpv6 first.nextNode = some hop.addr ∧ hop = ⟨hop.addr, 0, noPadding⟩ := by
  rw [cgrNextHop] at h
  split at h
  · cases h
  · cases h
  rename_i routes hroutes
  split at h
  · cases h
  rename_i cands hcands
  have hanswer := Except.ok.inj h
  simp only [Option.bind_eq_bind, Option.bind_eq_some_iff] at hanswer
  obtain ⟨first, hfirst, addr, haddr, hhop⟩ := hanswer
  cases hhop
  exact ⟨routes, cands, first, hroutes, hcands, hfirst, haddr, rfl⟩

def planView : RoutingView :=
  ⟨dtnRoutingLoadContacts baseTime plan, cgrNextHop plan baseTime clock⟩

end
end LwipDtn
