import LwipDtn.Library.PySort
import Mathlib.Algebra.Order.Ring.Rat
import Mathlib.Algebra.Order.Field.Basic

/-!
`py_cgr_lib.py`: contacts, their working areas and routes. A contact is referred to by
its position in the plan, and the root contact of a search has a place of its own.
Times, rates and volumes are exact numbers.
-/

namespace LwipDtn.Cgr

/-- The exceptions that the library can raise, and a loop that does not end. -/
inductive PyError where
  | assertionError
  | attributeError
  | indexError
  | keyError
  | valueError
  | zeroDivisionError
  | diverges
deriving DecidableEq, Repr

abbrev Py (α : Type) := Except PyError α

/-- `sys.maxsize` -/
def sysMaxsize : ℚ := 9223372036854775807

/-- The fixed parameters of a contact; `to` and `end` of the source are `toNode` and `stop`. -/
structure Contact where
  frm : Int
  toNode : Int
  start : ℚ
  stop : ℚ
  rate : ℚ
  owlt : ℚ
  confidence : ℚ
deriving DecidableEq

namespace Contact

def new (timeNow : ℚ) (frm toNode : Int) (start stop rate confidence owlt : ℚ) : Contact :=
  ⟨frm, toNode, start + timeNow, stop + timeNow, rate, owlt, confidence⟩

def volume (c : Contact) : ℚ := c.rate * (c.stop - c.start)

/-- No modelled function assigns to it after the constructor. -/
def mav (c : Contact) : List ℚ := [c.volume, c.volume, c.volume]

end Contact

/-- A reference to a contact of the plan, or to the root contact. -/
abbrev Ref (n : Nat) := Option (Fin n)

structure Contacts (n : Nat) where
  plan : Fin n → Contact
  root : Contact

def Contacts.contact {n : Nat} (g : Contacts n) : Ref n → Contact
  | none => g.root
  | some i => g.plan i

/-- The search and management working areas of a contact. -/
structure Work (n : Nat) where
  arrivalTime : ℚ
  visited : Bool
  visitedNodes : List Int
  predecessor : Option (Ref n)
  suppressed : Bool
  suppressedNextHop : List (Ref n)

namespace Work

variable {n : Nat}

def new : Work n := ⟨sysMaxsize, false, [], none, false, []⟩

def clearDijkstraWorkingArea (w : Work n) : Work n :=
  { w with arrivalTime := sysMaxsize, visited := false, predecessor := none, visitedNodes := [] }

def clearManagementWorkingArea (w : Work n) : Work n :=
  { w with suppressed := false, suppressedNextHop := [] }

end Work

abbrev WorkArea (n : Nat) := Ref n → Work n

structure Route (n : Nat) where
  hops : List (Ref n)
  visited : List Int
  toNode : Int
  nextNode : Int
  fromTime : ℚ
  toTime : ℚ
  bestDeliveryTime : ℚ
  volume : ℚ
  confidence : ℚ
deriving DecidableEq

section

variable {n : Nat} (g : Contacts n)

def bestDeliveryTime (hops : List (Ref n)) : ℚ :=
  hops.foldl (fun t h => max (t + (g.contact h).owlt) ((g.contact h).start + (g.contact h).owlt)) 0

def minSuccStopTime (hops : List (Ref n)) : ℚ :=
  hops.foldl (fun t h => if (g.contact h).stop < t then (g.contact h).stop else t) sysMaxsize

/-- The loop of `refresh_metrics` that computes the volume; the hops of a route are
distinct, so the successors of a hop are the rest of the list. -/
def minEffectiveVolumeLimit (first : Ref n) : ℚ → ℚ → List (Ref n) → ℚ
  | _, limit, [] => limit
  | prevLastByteArrTime, limit, h :: rest =>
      let c := g.contact h
      let firstByteTxTime := if h = first then c.start else max c.start prevLastByteArrTime
      let effectiveStopTime := min c.stop (minSuccStopTime g (h :: rest))
      let effectiveVolumeLimit := min ((effectiveStopTime - firstByteTxTime) * c.rate) c.volume
      minEffectiveVolumeLimit first (firstByteTxTime + c.owlt)
        (if effectiveVolumeLimit < limit then effectiveVolumeLimit else limit) rest

/-- The route over the hops with its metrics computed. -/
def refreshMetrics (hops : List (Ref n)) (visited : List Int) : Py (Route n) :=
  match hops with
  | [] => .error .assertionError
  | first :: rest => .ok {
      hops := hops
      visited := visited
      toNode := (g.contact (rest.getLastD first)).toNode
      nextNode := (g.contact first).toNode
      fromTime := (g.contact first).start
      toTime := hops.foldl (fun t h => min t (g.contact h).stop) sysMaxsize
      bestDeliveryTime := bestDeliveryTime g hops
      volume := minEffectiveVolumeLimit g first 0 sysMaxsize hops
      confidence := hops.foldl (fun c h => c * (g.contact h).confidence) 1 }

namespace Route

def new (c : Ref n) : Py (Route n) :=
  refreshMetrics g [c] [(g.contact c).frm, (g.contact c).toNode]

def eligible (r : Route n) (c : Ref n) : Bool :=
  !r.visited.contains (g.contact c).toNode &&
    match r.hops.getLast? with
    | some last => (g.contact last).start + (g.contact last).owlt < (g.contact c).stop
    | none => true

def append (r : Route n) (c : Ref n) : Py (Route n) :=
  if r.eligible g c then
    refreshMetrics g (r.hops ++ [c]) (r.visited ++ [(g.contact c).frm, (g.contact c).toNode])
  else .error .assertionError

/-- `Route(hops[0])`, then `append` for the other hops. -/
def along (hops : List (Ref n)) : Py (Route n) :=
  match hops with
  | [] => .error .indexError
  | first :: rest => do rest.foldlM (append g) (← new g first)

/-- `__lt__`: an earlier delivery, then more volume, then at least the confidence. -/
def lt (r other : Route n) : Bool :=
  r.bestDeliveryTime < other.bestDeliveryTime ||
    r.bestDeliveryTime == other.bestDeliveryTime &&
      (other.volume < r.volume ||
        r.volume == other.volume && other.confidence ≤ r.confidence)

end Route
end
end LwipDtn.Cgr
