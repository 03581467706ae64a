import LwipDtn.Ip6

/-!
The part of `dtn_routing.c` that the controller sees: the list of contacts, the
test for a DTN destination, and the question for the next hop, whose answer comes
from contact graph routing and is a parameter here.
-/

namespace LwipDtn
open Outcome Bytes

/-- The address `fd00:net::host`. -/
def netAddr (net host : UInt8) : Block 16 :=
  ⟨[0xfd, 0, 0, net, 0, 0, 0, 0, 0, 0, 0, 0, 0, 0, 0, host], rfl⟩

structure ContactInfo where
  nodeAddr : Ip6Addr
  nextHop : Ip6Addr
  startTimeMs : UInt32
  endTimeMs : UInt32
  isDtnNode : Bool

def ContactInfo.openAt (c : ContactInfo) (now : UInt32) : Bool :=
  c.startTimeMs ≤ now && now ≤ c.endTimeMs

def maxContactStates : Nat := 100

/-- The static variables of `dtn_routing_update_contacts`. -/
structure ContactStates where
  lastCheckTime : UInt32
  lastActiveStates : Vector Bool maxContactStates

def ContactStates.initial : ContactStates := ⟨0, .replicate _ false⟩

/-- The loop over the contacts, which ends at the last state that can be remembered. -/
def updateContactsFrom (now : UInt32) :
    Nat → List ContactInfo → Vector Bool maxContactStates → Bool →
      Bool × Vector Bool maxContactStates
  | _, [], states, ret => (ret, states)
  | contactIndex, contact :: rest, states, ret =>
      if h : contactIndex < maxContactStates then
        let isActive := contact.openAt now
        if isActive ≠ states[contactIndex] then
          updateContactsFrom now (contactIndex + 1) rest (states.set contactIndex isActive)
            (if isActive then true else ret)
        else updateContactsFrom now (contactIndex + 1) rest states ret
      else (ret, states)

/-- Whether a contact has become available since the call before. -/
def dtnRoutingUpdateContacts (s : ContactStates) (contacts : List ContactInfo) (now : UInt32) :
    Bool × ContactStates :=
  let (ret, states) := updateContactsFrom now 0 contacts s.lastActiveStates false
  (ret, ⟨now, states⟩)

/-- What the controller passes on about a packet. The two header words are loaded
as the host sees them. -/
structure RouteQuery where
  vTcFl : UInt32
  plen : Nat
  hoplim : UInt8
  dest : Ip6Addr
  sender : Block 16

/-- The routing function at the time of a call. Contact graph routing runs inside the
process, so that it can take the node down. -/
structure RoutingView where
  contacts : List ContactInfo
  cgr : RouteQuery → Run (Option Ip6Addr)

def dtnRoutingIsDtnDestination (contacts : List ContactInfo) (dest : Ip6Addr) : Bool :=
  contacts.any fun c => c.isDtnNode && c.nodeAddr.eqNoZone dest

def dtnRoutingGetDtnNextHop (routing : RoutingView) (q : RouteQuery) : Run (Option Ip6Addr) :=
  if dtnRoutingIsDtnDestination routing.contacts q.dest then routing.cgr q else return none

/-- Any contact to the next hop counts, whoever transmits in it. -/
def isNextHopActiveContact (contacts : List ContactInfo) (now : UInt32) (hop : Ip6Addr) : Bool :=
  contacts.any fun c => c.nodeAddr.eqNoZone hop && c.openAt now

/-- The next hop, if there is one and a contact to it is open. -/
def activeNextHop (routing : RoutingView) (now : UInt32) (q : RouteQuery) :
    Run (Option Ip6Addr) := do
  let hop ← dtnRoutingGetDtnNextHop routing q
  return hop.filter (isNextHopActiveContact routing.contacts now)

theorem activeNextHop_eq_some {routing : RoutingView} {now : UInt32} {q : RouteQuery}
    {hop : Ip6Addr} : activeNextHop routing now q = .ok (some hop) ↔
      dtnRoutingGetDtnNextHop routing q = .ok (some hop) ∧
        isNextHopActiveContact routing.contacts now hop = true := by
  rw [activeNextHop, Run.bind_eq_ok]
  constructor
  · rintro ⟨answer, hanswer, h⟩
    obtain ⟨rfl, active⟩ := Option.filter_eq_some_iff.mp (Except.ok.inj h)
    exact ⟨hanswer, active⟩
  · rintro ⟨hanswer, active⟩
    exact ⟨_, hanswer, congrArg Except.ok (Option.filter_eq_some_iff.mpr ⟨rfl, active⟩)⟩

/-- The header fields that go into a question, read through the payload pointer. -/
def routeQueryAt (m : Bytes) (dest : Ip6Addr) (sender : Block 16) : Run RouteQuery := do
  let word ← readBlock m 0 4
  let lo ← byteAt m 4
  let hi ← byteAt m 5
  let hoplim ← byteAt m 7
  return ⟨le32At word.1 0, lo.toNat + hi.toNat * 256, hoplim, dest, sender⟩

end LwipDtn
