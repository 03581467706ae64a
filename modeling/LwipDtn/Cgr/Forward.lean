import LwipDtn.Cgr.Search

/-!
`fwd_candidate` and the packet that it forwards. Node ids are small numbers, for which
the identity test of the source is equality.
-/

namespace LwipDtn.Cgr

/-- `ipv6_packet`; the priority is a position in `mav`. -/
structure Ipv6Packet where
  dst : Int
  size : ℚ
  deadline : ℚ
  priority : Fin 3
  sender : Int

def Ipv6Packet.new (timeNow : ℚ) (dst : Int) (size deadline : ℚ) (priority : Nat) (sender : Int) :
    Ipv6Packet where
  dst := dst
  size := size
  priority := if priority = 8 then 0 else if priority = 0 then 1 else if priority = 46 then 2 else 1
  deadline := deadline + timeNow
  sender := sender

section

variable {n : Nat} (g : Contacts n)

/-- Step d): the volume of the contacts before the first one. -/
def applicableBacklogRelief (currTime : ℚ) (first : Contact) : ℚ :=
  (List.finRange n).foldl (fun relief i =>
    let contact := g.plan i
    if contact.frm = first.frm ∧ contact.toNode = first.toNode ∧
        currTime < contact.stop ∧ contact.start < first.start then
      relief + (contact.stop - max currTime contact.start) * contact.rate
    else relief) 0

def earlyTxOpportunity (currTime relief : ℚ) (first : Contact) : Py ℚ :=
  if first.rate = 0 then .error .zeroDivisionError
  else .ok (max currTime first.start + max 0 (0 - relief) / first.rate)

/-- Step e): the first byte times of the hops and the projected arrival time. -/
def projectArrival (size eto : ℚ) (first : Ref n) : ℚ → List (Ref n) → Py (List (Ref n × ℚ) × ℚ)
  | prevLastByteArrTime, [] => .ok ([], prevLastByteArrTime)
  | prevLastByteArrTime, h :: rest => do
      let contact := g.contact h
      let firstByteTxTime := if h = first then eto else max contact.start prevLastByteArrTime
      if contact.rate = 0 then .error .zeroDivisionError
      else
        let (times, arrival) ← projectArrival size eto first
          (firstByteTxTime + size / contact.rate + contact.owlt) rest
        return ((h, firstByteTxTime) :: times, arrival)

/-- The field `first_byte_tx_time` of a contact: what step e) has assigned to it last. -/
def firstByteTxTime (times : List (Ref n × ℚ)) (h : Ref n) : ℚ := (times.reverse.lookup h).getD 0

/-- Step f): the volume limit of the route. The successors of a contact start where
`index` finds it, and a contact without volume is passed over. -/
def routeVolumeLimit (priority : Fin 3) (hops : List (Ref n)) (times : List (Ref n × ℚ)) :
    ℚ → List (Ref n) → ℚ
  | limit, [] => limit
  | limit, h :: rest =>
      let contact := g.contact h
      if contact.volume ≤ 0 then routeVolumeLimit priority hops times limit rest
      else
        let effectiveStopTime := min contact.stop (minSuccStopTime g (hops.drop (hops.idxOf h)))
        let effectiveDuration := effectiveStopTime - firstByteTxTime times h
        let effectiveVolumeLimit := min (effectiveDuration * contact.rate)
          (contact.mav.getD priority.val 0)
        routeVolumeLimit priority hops times
          (if effectiveVolumeLimit < limit then effectiveVolumeLimit else limit) rest

/-- The checks of a route from step d) on, with what the loop of this step comes to. The
loop of step c) changes nothing. -/
def opportunityAfter (relief : Contact → Py ℚ) (currTime : ℚ) (packet : Ipv6Packet)
    (route : Route n) : Py Bool :=
  match route.hops with
  | [] => .error .indexError
  | first :: rest => do
      let backlogRelief ← relief (g.contact first)
      let eto ← earlyTxOpportunity currTime backlogRelief (g.contact first)
      if (g.contact first).stop < eto then return false
      else
        let (times, projArrTime) ← projectArrival g packet.size eto first 0 (first :: rest)
        return !(decide (packet.deadline < projArrTime)) &&
          !(decide (routeVolumeLimit g packet.priority route.hops times sysMaxsize route.hops ≤ 0))

def hasOpportunity (currTime : ℚ) (packet : Ipv6Packet) (route : Route n) : Py Bool :=
  opportunityAfter g (fun first => .ok (applicableBacklogRelief g currTime first)) currTime packet
    route

/-- The loop over the routes; the checks from step d) on may see the list of excluded
nodes. -/
def candidateRoutes (opportunity : List Int → Route n → Py Bool) (packet : Ipv6Packet) :
    List (Route n) → List Int → Py (List (Route n))
  | [], _ => .ok []
  | route :: routes, excludedNodes =>
      if route.nextNode = packet.sender then
        candidateRoutes opportunity packet routes (excludedNodes ++ [route.nextNode])
      else if packet.deadline < route.bestDeliveryTime then
        candidateRoutes opportunity packet routes excludedNodes
      else if excludedNodes.contains route.nextNode then
        candidateRoutes opportunity packet routes excludedNodes
      else do
        let candidate ← opportunity excludedNodes route
        let others ← candidateRoutes opportunity packet routes excludedNodes
        return if candidate then route :: others else others

def fwdCandidate (currTime : ℚ) (packet : Ipv6Packet) (routes : List (Route n))
    (excludedNodes : List Int) : Py (List (Route n)) := do
  let candidates ← candidateRoutes (fun _ => hasOpportunity g currTime packet) packet routes
    excludedNodes
  return PySort.sort Route.lt candidates

/-- `fwd_candidate` when one list is passed both as `contact_plan` and as `excluded_nodes`:
as soon as a node has been excluded, step d) asks a number for its `frm`. -/
def fwdCandidateShared (currTime : ℚ) (packet : Ipv6Packet) (routes : List (Route n))
    (shared : List Int) : Py (List (Route n)) := do
  let relief (shared : List Int) (_ : Contact) : Py ℚ :=
    if shared.isEmpty then .ok 0 else .error .attributeError
  let candidates ← candidateRoutes
    (fun shared => opportunityAfter g (relief shared) currTime packet) packet routes shared
  return PySort.sort Route.lt candidates

end
end LwipDtn.Cgr
