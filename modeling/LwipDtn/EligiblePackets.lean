import LwipDtn.PassWork
import LwipDtn.Handoff

/-!
Which packets a pass serves. The retry table is kept per destination, so most packets wait
for the pass after the one that serves the first packet for their destination. A packet
for the node itself is delivered and not sent.
-/

namespace LwipDtn
open Outcome Bytes BoundedFifo

/-- A stored packet with an open next hop. Its destination is untracked, or its last
attempt is a retry delay old when the pass begins and it has retries left. -/
structure Eligible (began : UInt32) (env : Nat → PassEnv) (node : Node) (k : Nat)
    (e : StoredPacketEntry) : Prop where
  stored : node.storage.packetListHead[k]? = some e
  route : ∃ hop, routeAnswer (env k).routing (env k).activeNow e.p = .ok (some hop)
  due : ∀ a, slotFor node.attempts e.originalDest.addr = some a →
    a.Due began ∧ a.retryCount < maxForwardingRetries

/-- The pass ends, and when it looks at the packet the packet is handed over once. -/
def HandedOnce (cfg : Config) (env : Nat → PassEnv) (node : Node) (k : Nat) : Prop :=
  ∃ node' visits v, passVisits cfg env node = .ok (node', visits) ∧ visits[k]? = some v ∧
    handovers v.sent = 1

/-- Every packet that is worked on lets the pass through, and the packet is one of them and
not for the node itself. -/
structure Undisturbed (cfg : Config) (env : Nat → PassEnv)
    (worked : Nat → StoredPacketEntry → Prop) (k : Nat) (e : StoredPacketEntry) : Prop where
  through : ∀ j e', worked j e' → LetsPass cfg (env j) e'.p
  remote : ∀ dest, ip6AddrAt e.p.mem 24 = .ok dest → cfg.isLocal dest = false
  granted : worked k e

section

variable {cfg : Config} {env : Nat → PassEnv} {node : Node} {k : Nat} {e : StoredPacketEntry}

theorem handedOnce_iff (hk : node.storage.packetListHead[k]? = some e) :
    HandedOnce cfg env node k ↔ (∀ j e', Granted env node j e' → LetsPass cfg (env j) e'.p) ∧
      HandsOver cfg (env k) e ∧ Granted env node k e := by
  have hvisit {node' : Node} {visits : List Visit}
      (h : passVisits cfg env node = .ok (node', visits)) :
      ∃ v, visits[k]? = some v ∧
        (handovers v.sent = 1 ↔ HandsOver cfg (env k) e ∧ Granted env node k e) := by
    obtain ⟨n, answer, v, hn, hattempt, hsent, hv⟩ := visit_at h hk
    rw [Nat.zero_add] at hattempt hsent
    refine ⟨v, hv, ?_⟩
    rw [LwipDtn.granted_iff hk hn, ← (shouldAttemptForward_attempted hattempt).answer_iff]
    cases answer with
    | false =>
        rw [show v.sent = [] from (Except.ok.inj hsent).symm]
        exact ⟨fun hone => absurd hone Nat.zero_ne_one, fun h => Bool.noConfusion h.2⟩
    | true =>
        rw [(forwardEntry_handovers hsent).1]
        exact ⟨fun hands => ⟨hands, rfl⟩, And.left⟩
  rw [← passVisits_returns_iff]
  constructor
  · rintro ⟨node', visits, v, h, hv, hone⟩
    obtain ⟨w, hw, hhanded⟩ := hvisit h
    cases hv.symm.trans hw
    exact ⟨⟨_, h⟩, hhanded.mp hone⟩
  · rintro ⟨⟨⟨node', visits⟩, h⟩, handed⟩
    obtain ⟨v, hv, hhanded⟩ := hvisit h
    exact ⟨node', visits, v, h, hv, hhanded.mpr handed⟩

end

/-- An eligible packet is handed over once exactly if the packets that are worked on let the
pass through and it is one of them. In a calm pass the table at the beginning says which
these are; the first packet for a destination is one of them as long as its slot is due. -/
theorem pass_serves_eligible_iff (cfg : Config) (began : UInt32) (env : Nat → PassEnv)
    (node : Node)
    (copies : ∀ k e, node.storage.packetListHead[k]? = some e →
      pbufClone (env k).forwardClone e.p ≠ none)
    (k : Nat) (e : StoredPacketEntry) (eligible : Eligible began env node k e) :
    (HandedOnce cfg env node k ↔ Undisturbed cfg env (Granted env node) k e) ∧
    (Calm env node →
      (HandedOnce cfg env node k ↔ Undisturbed cfg env (Served env node) k e)) ∧
    (FirstFor node e.originalDest.addr k →
      (Granted env node k e ↔
        ∀ a, slotFor node.attempts e.originalDest.addr = some a → a.Due (env k).attempt.now)) := by
  have hk := eligible.stored
  have hhanded : HandedOnce cfg env node k ↔ Undisturbed cfg env (Granted env node) k e := by
    rw [handedOnce_iff hk]
    exact ⟨fun h => ⟨h.1, h.2.1.remote, h.2.2⟩,
      fun h => ⟨h.through, ⟨eligible.route, h.remote, copies k e hk⟩, h.granted⟩⟩
  refine ⟨hhanded, fun calm => ?_, fun first => ?_⟩
  · rw [hhanded, calm.granted_eq]
  · obtain ⟨n, hn⟩ := attemptAll_returns env 0 (node.storage.packetListHead.take k) node
    have hle := Nat.le_of_lt (List.getElem?_eq_some_iff.mp hk).1
    rw [granted_iff hk hn, slotFor_unvisited hle first hn]
    exact ⟨fun h a slot => (h a slot).1, fun h a slot => ⟨h a slot, (eligible.due a slot).2⟩⟩

theorem eligible_of_untracked {began : UInt32} {env : Nat → PassEnv} {node : Node} {k : Nat}
    (hop : Ip6Addr) (h : node.storage.packetListHead[k]?.map (fun e =>
      (routeAnswer (env k).routing (env k).activeNow e.p,
        slotFor node.attempts e.originalDest.addr)) = some (.ok (some hop), none)) :
    ∃ e, Eligible began env node k e := by
  obtain ⟨e, stored, hfacts⟩ := Option.map_eq_some_iff.mp h
  obtain ⟨hroute, hslot⟩ := Prod.mk.inj hfacts
  refine ⟨e, stored, ⟨hop, hroute⟩, fun a ha => ?_⟩
  cases hslot.symm.trans ha

theorem calm_of_untracked {env : PassEnv} {node : Node} (h : tracked node.attempts = []) :
    Calm (fun _ => env) node where
  steady := {
    short := fun _ _ _ _ _ _ _ _ => by
      rw [UInt32.sub_self]
      decide
    early := fun _ _ _ _ _ _ _ _ _ _ early => early }
  left := fun _ e a _ slot => by
    have hnone : slotFor node.attempts e.originalDest.addr = none :=
      slotFor_eq_none.mpr (h ▸ List.not_mem_nil)
    cases hnone.symm.trans slot

/-- A packet for one destination and two for another wait. -/
def threeWaiting : Node :=
  ((((NodeTrace.after sampleConfig hexAddrText ⟨emptyNode, []⟩
    (arrivesAt 7 otherPacket otherPacket_length_lt)).after sampleConfig hexAddrText
    (arrivesAt 8 quietPacket quietPacket_length_lt)).after sampleConfig hexAddrText
    (arrivesAt 9 quietPacket quietPacket_length_lt))).node

def waitingPass : PassEnv :=
  { passAt 2000 with routing := { handoffRouting with cgr := fun _ => .ok (some neighbour) } }

theorem pass_serves_eligible_two :
    threeWaiting.storage.packetListHead.length = 3 ∧ Calm (fun _ => waitingPass) threeWaiting ∧
      ∀ k < 2, ∃ e, Eligible 2000 (fun _ => waitingPass) threeWaiting k e ∧
        HandedOnce sampleConfig (fun _ => waitingPass) threeWaiting k := by
  have hnone : tracked threeWaiting.attempts = [] := by decide +kernel
  have calm : Calm (fun _ => waitingPass) threeWaiting := calm_of_untracked hnone
  have hreturns : Run.Returns (passVisits sampleConfig (fun _ => waitingPass) threeWaiting) := by
    decide +kernel
  have hcopies : ∀ e ∈ threeWaiting.storage.packetListHead,
      pbufClone waitingPass.forwardClone e.p ≠ none := by decide +kernel
  have hremote : ∀ e ∈ threeWaiting.storage.packetListHead,
      (ip6AddrAt e.p.mem 24).map sampleConfig.isLocal = .ok false := by decide +kernel
  have heligible : ∀ k < 2, threeWaiting.storage.packetListHead[k]?.map (fun e =>
      (routeAnswer waitingPass.routing waitingPass.activeNow e.p,
        slotFor threeWaiting.attempts e.originalDest.addr)) =
          some (.ok (some neighbour), none) := by
    decide +kernel
  have hfirst : ∀ k < 2, ∀ j < k,
      threeWaiting.storage.packetListHead[j]?.map (fun e => e.originalDest.addr) ≠
        threeWaiting.storage.packetListHead[k]?.map fun e => e.originalDest.addr := by
    decide +kernel
  refine ⟨by decide +kernel, calm, fun k hk => ?_⟩
  obtain ⟨e, eligible⟩ : ∃ e, Eligible 2000 (fun _ => waitingPass) threeWaiting k e :=
    eligible_of_untracked neighbour (heligible k hk)
  refine ⟨e, eligible, ((pass_serves_eligible_iff sampleConfig 2000 (fun _ => waitingPass)
    threeWaiting (fun k e hk => hcopies e (List.mem_of_getElem? hk)) k e eligible).2.1 calm).mpr
    ⟨fun j e' served => ?_, fun dest hdest => ?_, eligible.stored, fun a slot => ?_,
      fun j e' hj hj' heq => ?_⟩⟩
  · exact passVisits_returns_iff.mp hreturns j e' (calm.granted_iff.mpr served)
  · have hlocal := hremote e (List.mem_of_getElem? eligible.stored)
    rw [hdest] at hlocal
    exact Except.ok.inj hlocal
  · have hfree : slotFor threeWaiting.attempts e.originalDest.addr = none :=
      slotFor_eq_none.mpr (by rw [hnone]; exact List.not_mem_nil)
    cases hfree.symm.trans slot
  · refine absurd ?_ (hfirst k hk j hj)
    rw [hj', eligible.stored, Option.map_some, Option.map_some, heq]

theorem pass_skips_second_packet :
    (∃ e, Eligible 2000 (fun _ => waitingPass) threeWaiting 2 e) ∧
      Run.Returns (dtnControllerAttemptForwardStored sampleConfig (fun _ => waitingPass)
        threeWaiting) ∧
      (∀ e ∈ threeWaiting.storage.packetListHead,
        pbufClone waitingPass.forwardClone e.p ≠ none) ∧
      ¬ HandedOnce sampleConfig (fun _ => waitingPass) threeWaiting 2 := by
  refine ⟨eligible_of_untracked neighbour (by decide +kernel), by decide +kernel,
    by decide +kernel, ?_⟩
  rintro ⟨node', visits, v, hvisits, hv, hone⟩
  have hcounts : (passVisits sampleConfig (fun _ => waitingPass) threeWaiting).map
      (fun r => r.2.map fun v => handovers v.sent) = .ok [1, 1, 0] := by decide +kernel
  rw [hvisits] at hcounts
  have hlist : (visits.map fun v => handovers v.sent) = [1, 1, 0] := Except.ok.inj hcounts
  have hthird := List.getElem?_map (f := fun v => handovers v.sent) (l := visits) (i := 2)
  rw [hlist, hv, Option.map_some, hone] at hthird
  cases hthird

end LwipDtn
