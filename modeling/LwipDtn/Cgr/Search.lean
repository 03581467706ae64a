import LwipDtn.Cgr.Route

/-!
`cgr_dijkstra` and `cgr_yen`. The working areas of the contacts are shared by all
searches and are passed along, with the resets exactly where the source has them.
-/

namespace LwipDtn.Cgr

variable {n : Nat} (g : Contacts n)

/-- The contacts of the plan from a node, in the order of the plan; the table has an
entry for every node of the plan. -/
def contactPlanHash (node : Int) : Py (List (Fin n)) :=
  if (List.finRange n).any fun i => (g.plan i).frm == node || (g.plan i).toNode == node then
    .ok ((List.finRange n).filter fun i => (g.plan i).frm == node)
  else .error .keyError

structure Search (n : Nat) where
  work : WorkArea n
  finalContact : Option (Fin n)
  earliestFinArrT : ℚ

def WorkArea.set (w : WorkArea n) (c : Ref n) (x : Work n) : WorkArea n :=
  fun d => if d = c then x else w d

/-- The tests that make the search ignore a proximate contact. -/
def ignores (w : WorkArea n) (current : Ref n) (c : Fin n) : Bool :=
  (w current).suppressedNextHop.contains (some c) ||
    (w (some c)).suppressed ||
    (w (some c)).visited ||
    (w current).visitedNodes.contains (g.plan c).toNode ||
    (g.plan c).stop ≤ (w current).arrivalTime ||
    (g.plan c).mav.foldl max ((g.plan c).mav.headD 0) ≤ 0 ||
    ((g.contact current).frm == (g.plan c).toNode && (g.contact current).toNode == (g.plan c).frm)

def arrvlTime (w : WorkArea n) (current : Ref n) (c : Fin n) : ℚ :=
  if (g.plan c).start < (w current).arrivalTime then (w current).arrivalTime + (g.plan c).owlt
  else (g.plan c).start + (g.plan c).owlt

/-- The body of the loop over the proximate contacts. -/
def explore (destination : Int) (current : Ref n) (s : Search n) (c : Fin n) : Search n :=
  if ignores g s.work current c then s
  else if arrvlTime g s.work current c ≤ (s.work (some c)).arrivalTime then
    let arrival := arrvlTime g s.work current c
    let work := s.work.set (some c) { s.work (some c) with
      arrivalTime := arrival
      predecessor := some current
      visitedNodes := (s.work current).visitedNodes ++ [(g.plan c).toNode] }
    if (g.plan c).toNode = destination ∧ arrival < s.earliestFinArrT then ⟨work, some c, arrival⟩
    else ⟨work, s.finalContact, s.earliestFinArrT⟩
  else s

/-- The contact with the earliest arrival among those that are still of interest. -/
def nextContact (s : Search n) : Option (Fin n) :=
  ((List.finRange n).foldl (fun (best : ℚ × Option (Fin n)) c =>
    if (s.work (some c)).suppressed || (s.work (some c)).visited then best
    else if s.earliestFinArrT < (s.work (some c)).arrivalTime then best
    else if (s.work (some c)).arrivalTime < best.1 then ((s.work (some c)).arrivalTime, some c)
    else best) (sysMaxsize, none)).2

def markVisited (s : Search n) (c : Ref n) : Search n :=
  { s with work := s.work.set c { s.work c with visited := true } }

/-- The loop of the search; every round visits one more contact. -/
def searchFrom (destination : Int) : Nat → Ref n → Search n → Py (Search n)
  | 0, _, _ => .error .diverges
  | fuel + 1, current, s => do
      let proximate ← contactPlanHash g (g.contact current).toNode
      let s := markVisited (proximate.foldl (explore g destination current) s) current
      match nextContact s with
      | none => return s
      | some next => searchFrom destination fuel (some next) s

/-- The hops from the root contact to a contact, along the predecessors. -/
def hopsTo (w : WorkArea n) (root : Ref n) : Nat → Ref n → List (Ref n) → Py (List (Ref n))
  | 0, _, _ => .error .diverges
  | fuel + 1, c, hops =>
      if c = root then .ok hops
      else
        match (w c).predecessor with
        | none => .error .attributeError
        | some p => hopsTo w root fuel p (c :: hops)

def searchRoute (root : Ref n) (s : Search n) : Py (Option (Route n)) :=
  match s.finalContact with
  | none => return none
  | some final => do
      let hops ← hopsTo s.work root (n + 2) (some final) []
      let route ← Route.along g hops
      return some route

/-- The working areas with which the search starts. -/
def prepareSearch (root : Ref n) (w : WorkArea n) : WorkArea n := fun c =>
  if c = root then
    if (w root).visitedNodes.contains (g.contact root).toNode then w root
    else { w root with visitedNodes := (w root).visitedNodes ++ [(g.contact root).toNode] }
  else if c = none then w none
  else (w c).clearDijkstraWorkingArea

def cgrDijkstra (root : Ref n) (destination : Int) (w : WorkArea n) :
    Py (Option (Route n) × WorkArea n) := do
  let s ← searchFrom g destination (n + 1) root ⟨prepareSearch g root w, none, sysMaxsize⟩
  let route ← searchRoute g root s
  return (route, s.work)

def resetContacts (w : WorkArea n) : WorkArea n
  | none => w none
  | some c => (w (some c)).clearDijkstraWorkingArea.clearManagementWorkingArea

def suppress (hops : List (Ref n)) (w : WorkArea n) : WorkArea n :=
  hops.foldl (fun w h => w.set h { w h with suppressed := true }) w

/-- Suppress the next hops behind `spur` of the routes that start with `rootPath`. -/
def suppressNextHops (rootPath : List (Ref n)) (spur : Ref n) :
    List (Route n) → WorkArea n → Py (WorkArea n)
  | [], w => .ok w
  | route :: rest, w =>
      if rootPath = route.hops.take rootPath.length then
        match route.hops[rootPath.length]? with
        | none => .error .indexError
        | some hop =>
            if (w spur).suppressedNextHop.contains hop then suppressNextHops rootPath spur rest w
            else suppressNextHops rootPath spur rest
              (w.set spur { w spur with suppressedNextHop := (w spur).suppressedNextHop ++ [hop] })
      else suppressNextHops rootPath spur rest w

/-- The spur contact becomes the root of a search that carries on behind the root path. -/
def prepareSpur (rootPath : Route n) (spur : Ref n) (w : WorkArea n) : WorkArea n :=
  w.set spur { (w spur).clearDijkstraWorkingArea with
    arrivalTime := rootPath.bestDeliveryTime
    visitedNodes := rootPath.hops.map fun h => (g.contact h).toNode }

/-- The search for a deviation from `last` behind one of its contacts. -/
def spurSearch (destination : Int) (routes : List (Route n)) (last : Route n) (spur : Ref n)
    (w : WorkArea n) : Py (Option (Route n) × WorkArea n) := do
  let rootPath ← Route.along g (last.hops.take (last.hops.idxOf spur + 1))
  let w := suppress rootPath.hops.dropLast (resetContacts w)
  let w ← suppressNextHops rootPath.hops spur routes w
  let (spurPath, w) ← cgrDijkstra g spur destination (prepareSpur g rootPath spur w)
  match spurPath with
  | none => return (none, w)
  | some path => do
      let totalPath ← Route.along g (rootPath.hops ++ path.hops)
      return (some totalPath, w)

/-- The loop over the spur contacts of the last route. -/
def spurSearches (destination : Int) (routes : List (Route n)) (last : Route n) :
    List (Ref n) → List (Route n) → WorkArea n → Py (List (Route n) × WorkArea n)
  | [], potentialRoutes, w => .ok (potentialRoutes, w)
  | spur :: rest, potentialRoutes, w => do
      let (found, w) ← spurSearch g destination routes last spur w
      spurSearches destination routes last rest (potentialRoutes ++ found.toList) w

/-- The loop that adds one best route after the other; `last` is `routes[-1]`. -/
def yenLoop (destination : Int) : Nat → List (Route n) → Route n → List (Route n) → WorkArea n →
    Py (List (Route n))
  | 0, routes, _, _, _ => .ok routes
  | k + 1, routes, last, potentialRoutes, w => do
      let (potentialRoutes, w) ← spurSearches g destination routes last last.hops.dropLast
        potentialRoutes w
      match PySort.sort Route.lt potentialRoutes with
      | [] => return routes
      | best :: others => yenLoop destination k (routes ++ [best]) best others w

/-- The contacts of a call of `cgr_yen`: the plan and the new root contact. -/
def yenContacts (timeNow : ℚ) (source : Int) (plan : Fin n → Contact) : Contacts n :=
  ⟨plan, Contact.new timeNow source source 0 sysMaxsize 100 1 0⟩

/-- The working areas after the first reset. -/
def yenWork (currTime : ℚ) : WorkArea n
  | none => { Work.new with arrivalTime := currTime }
  | some _ => Work.new

def cgrYen (timeNow : ℚ) (source destination : Int) (currTime : ℚ) (plan : Fin n → Contact)
    (numRoutes : Nat) : Py (List (Route n)) := do
  let g := yenContacts timeNow source plan
  let (route, w) ← cgrDijkstra g none destination (yenWork currTime)
  match route with
  | none => return []
  | some first => do
      let first := { first with hops := none :: first.hops }
      let routes ← yenLoop g destination (numRoutes - 1) [first] first [] w
      routes.mapM fun route => refreshMetrics g route.hops.tail route.visited

end LwipDtn.Cgr
