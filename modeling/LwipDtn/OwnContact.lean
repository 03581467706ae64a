import LwipDtn.ControllerReceipt
import LwipDtn.ControllerSteps
import LwipDtn.Cgr.Candidates
import LwipDtn.Cgr.NextHop

/-!
When DTN traffic is transmitted. Contact graph routing may answer a neighbour whose
contact with this node lies in the future, and the controller then asks whether any
contact to that neighbour is open, whoever transmits in it. This module says when that
keeps the traffic within the contacts of this node.
-/

namespace LwipDtn
open Outcome Bytes Cgr

def thisNode : List (Block 16) := [netAddr 0x01 2, netAddr 0x12 1]

/-- A contact in which this node transmits to the hop is open. -/
def ownContactOpen (contacts : List ContactInfo) (now : UInt32) (hop : Block 16) : Bool :=
  contacts.any fun c =>
    thisNode.contains c.nextHop.addr && c.nodeAddr.addr == hop && c.openAt now

section

variable (plan : List PlanContact) (baseTime : UInt32)

/-- Whenever one of the two functions sends to a next hop, a contact of this node to that
hop is open. `reads` are the pairs of readings of the clock that the routing and then the
controller can make. -/
structure SendsInOwnContact (reads : UInt32 → UInt32 → Prop) : Prop where
  incoming : ∀ cfg text env node p node' effects clock, cfg.localAddrs = thisNode →
    env.routing = planView plan baseTime clock → reads clock env.activeNow →
    dtnControllerProcessIncoming cfg text env node p = .ok (node', effects) →
    ∀ t, Effect.forward t ∈ effects →
      ownContactOpen (dtnRoutingLoadContacts baseTime plan) env.activeNow t.hop = true
  stored : ∀ cfg env node node' effects, cfg.localAddrs = thisNode →
    (∀ i, ∃ clock, (env i).routing = planView plan baseTime clock ∧
      reads clock (env i).activeNow) →
    dtnControllerAttemptForwardStored cfg env node = .ok (node', effects) →
    ∀ t, Effect.forward t ∈ effects → ∃ i n entry, Forwards cfg (env i) n entry [.forward t] ∧
      ownContactOpen (dtnRoutingLoadContacts baseTime plan) (env i).activeNow t.hop = true

/-- On the answers of contact graph routing the test of the controller agrees with the
test for contacts of this node. -/
def AnswersCovered (clock now : UInt32) : Prop :=
  ∀ q hop, q.plen < 65536 → q.dest.addr ∉ thisNode →
    dtnRoutingGetDtnNextHop (planView plan baseTime clock) q = .ok (some hop) →
    isNextHopActiveContact (dtnRoutingLoadContacts baseTime plan) now hop = true →
    ownContactOpen (dtnRoutingLoadContacts baseTime plan) now hop.addr = true

/-- Contact graph routing can answer the contact: it has a rate and a proper window that
has not ended, and it starts before the longest deadline of a packet. -/
structure Usable (clock : UInt32) (c : PlanContact) : Prop where
  rate : 0 < c.rate
  window : c.start ≤ c.stop
  notEnded : seconds clock < c.stop + seconds baseTime
  inTime : c.start + seconds baseTime ≤ seconds clock + 2550000

/-- Whenever any contact is open to a node to which this node has a usable contact, a
contact of this node to it is open as well. -/
def NeighboursCovered (clock now : UInt32) : Prop :=
  ∀ c ∈ plan.take maxLength, (c.frm : Int) = currNodeId → Usable baseTime clock c →
    ∀ addr, nodeidToIpv6 c.toNode = some addr →
    isNextHopActiveContact (dtnRoutingLoadContacts baseTime plan) now ⟨addr, 0, noPadding⟩ = true →
    ownContactOpen (dtnRoutingLoadContacts baseTime plan) now addr = true

end

section Answers

variable {plan : List PlanContact} {baseTime clock now : UInt32}

theorem routeAnswer_query {routing : RoutingView} {p : Pbuf} {hop : Ip6Addr}
    (h : routeAnswer routing now p = .ok (some hop)) :
    ∃ q, q.plen < 65536 ∧ ip6AddrAt p.mem 24 = .ok q.dest ∧
      dtnRoutingGetDtnNextHop routing q = .ok (some hop) ∧
      isNextHopActiveContact routing.contacts now hop = true := by
  simp only [routeAnswer, routeQueryAt, Run.bind_eq_ok] at h
  obtain ⟨src, -, dest, hdest, custodian, -, q, ⟨word, -, lo, -, hi, -, hoplim, -, hq⟩, h⟩ := h
  cases hq
  obtain ⟨hanswer, hactive⟩ := activeNextHop_eq_some.mp h
  refine ⟨_, ?_, hdest, hanswer, hactive⟩
  have hlo := lo.toNat_lt
  have hhi := hi.toNat_lt
  dsimp only
  omega

/-- An opportunity over a contact that has not ended makes the contact usable. -/
theorem opportunity_usable {q : RouteQuery} {relief : Contact → Py ℚ}
    {r : Route (plan.take maxLength).length} {i : Fin (plan.take maxLength).length}
    {p : List (Fin (plan.take maxLength).length)}
    (hover : r.Over (yenContacts (seconds clock) currNodeId (cpLoad (seconds baseTime) plan))
      (i :: p))
    (notEnded : seconds clock < (cpLoad (seconds baseTime) plan i).stop)
    (h : opportunityAfter (yenContacts (seconds clock) currNodeId (cpLoad (seconds baseTime) plan))
      relief (seconds clock) (routePacket (seconds clock) q) r = .ok true) :
    Usable baseTime clock ((plan.take maxLength).get i) := by
  have hhops := hover.hops
  obtain ⟨first, hfirst, hrate, hstop, hdeadline⟩ := opportunityAfter_first
    (show 0 ≤ (routePacket (seconds clock) q).size from Nat.cast_nonneg _) (fun h hh => by
      rw [hhops] at hh
      obtain ⟨j, -, rfl⟩ := List.mem_map.mp hh
      exact ⟨Nat.cast_nonneg _, Nat.cast_nonneg _⟩) h
  rw [hhops] at hfirst
  obtain rfl := Option.some.inj hfirst
  have hwindow :
      (cpLoad (seconds baseTime) plan i).start ≤ (cpLoad (seconds baseTime) plan i).stop :=
    (max_le_iff.mp hstop).2
  have hhoplim : (q.hoplim.toNat * 10000 : Nat) ≤ 2550000 := by
    have := q.hoplim.toNat_lt
    omega
  have htime : (cpLoad (seconds baseTime) plan i).start ≤
      ((q.hoplim.toNat * 10000 : Nat) : ℚ) + seconds clock := (max_le_iff.mp hdeadline).2
  refine ⟨Nat.cast_pos.mp hrate, Nat.cast_le.mp (le_of_add_le_add_right hwindow), notEnded, ?_⟩
  calc _ ≤ ((q.hoplim.toNat * 10000 : Nat) : ℚ) + seconds clock := htime
    _ ≤ ((2550000 : Nat) : ℚ) + seconds clock := by gcongr
    _ = seconds clock + 2550000 := by rw [add_comm]; norm_num

theorem cgrNextHop_own {q : RouteQuery} {hop : Ip6Addr}
    (h : cgrNextHop plan baseTime clock q = .ok (some hop)) :
    ∃ c ∈ plan.take maxLength, (c.frm : Int) = currNodeId ∧ Usable baseTime clock c ∧
      nodeidToIpv6 c.toNode = some hop.addr ∧ hop = ⟨hop.addr, 0, noPadding⟩ := by
  obtain ⟨routes, cands, first, hroutes, hcands, hfirst, haddr, hhop⟩ := cgrNextHop_candidate h
  have causal : Causal (cpLoad (seconds baseTime) plan) := fun c => Nat.cast_nonneg _
  have now : 0 ≤ seconds clock := div_nonneg (Nat.cast_nonneg _) (by decide)
  by_cases hsource : Occurs (cpLoad (seconds baseTime) plan) currNodeId
  · obtain ⟨routes', words, hyen, hover, hcheapest, -, -⟩ :=
      cgrYen_best causal hsource now (ipv6ToNodeid q.dest.addr) 10
    cases hroutes.symm.trans hyen
    obtain ⟨hmem, -, relief, hopportunity⟩ :=
      mem_of_fwdCandidateShared hcands (List.mem_of_mem_head? hfirst)
    obtain ⟨p, hp, hoverp⟩ := over_of_route hover hmem
    cases p with
    | nil => cases hoverp
    | cons i p =>
        have hboards := (hcheapest.words _ hp).feasible.1.1
        refine ⟨(plan.take maxLength).get i, List.get_mem _ _, hboards.frm,
          opportunity_usable hoverp hboards.time hopportunity, ?_, hhop⟩
        rw [← congrArg Route.nextNode (Except.ok.inj hoverp)] at haddr
        exact haddr
  · rw [(cgrYen_absent hsource _ _ _).1] at hroutes
    cases hroutes

theorem NeighboursCovered.answers (h : NeighboursCovered plan baseTime clock now) :
    AnswersCovered plan baseTime clock now := by
  intro q hop _ _ hanswer hactive
  have hcgr : cgrNextHop plan baseTime clock q = .ok (some hop) := by
    rw [dtnRoutingGetDtnNextHop] at hanswer
    split at hanswer
    · exact hanswer
    · cases hanswer
  obtain ⟨c, hc, hfrm, husable, haddr, hhop⟩ := cgrNextHop_own hcgr
  refine h c hc hfrm husable hop.addr haddr ?_
  rw [← hhop]
  exact hactive

theorem isLocal_false {cfg : Config} {dest : Ip6Addr} (hcfg : cfg.localAddrs = thisNode)
    (h : cfg.isLocal dest = false) : dest.addr ∉ thisNode := by
  rw [Config.isLocal, hcfg] at h
  simpa using h

theorem AnswersCovered.own {cfg : Config} {p : Pbuf} {dest hop : Ip6Addr}
    (h : AnswersCovered plan baseTime clock now) (hcfg : cfg.localAddrs = thisNode)
    (hdest : ip6AddrAt p.mem 24 = .ok dest) (notLocal : cfg.isLocal dest = false)
    (answer : routeAnswer (planView plan baseTime clock) now p = .ok (some hop)) :
    ownContactOpen (dtnRoutingLoadContacts baseTime plan) now hop.addr = true := by
  obtain ⟨q, hplen, hq, hanswer, hactive⟩ := routeAnswer_query answer
  cases hdest.symm.trans hq
  exact h q hop hplen (isLocal_false hcfg notLocal) hanswer hactive

theorem sendsInOwnContact_of_answers {reads : UInt32 → UInt32 → Prop}
    (h : ∀ clock now, reads clock now → AnswersCovered plan baseTime clock now) :
    SendsInOwnContact plan baseTime reads := by
  constructor
  · intro cfg text env node p node' effects clock hcfg hview hreads hrun t ht
    obtain ⟨dest, hop, hdest, notLocal, answer, hhop⟩ := (processIncoming_cases hrun).forwards ht
    rw [hview] at answer
    rw [hhop]
    exact (h clock env.activeNow hreads).own hcfg hdest notLocal answer
  · intro cfg env node node' effects hcfg henv hrun
    refine (attemptForwardStored_rule (P := fun _ => True) (R := fun effects =>
      ∀ t, Effect.forward t ∈ effects → ∃ i n entry, Forwards cfg (env i) n entry [.forward t] ∧
        ownContactOpen (dtnRoutingLoadContacts baseTime plan) (env i).activeNow t.hop = true)
      nofun ?_ (fun _ _ _ _ _ _ _ _ => trivial) ?_ hrun trivial).2
    · intro l l' hl hl' t ht
      exact (List.mem_append.mp ht).elim (hl t) (hl' t)
    · intro i n entry sent _ _ hsent t ht
      obtain ⟨rfl, dest, hop, hdest, notLocal, answer, hhop⟩ := hsent.forwards ht
      refine ⟨i, n, entry, hsent, ?_⟩
      obtain ⟨clock, hview, hreads⟩ := henv i
      rw [hview] at answer
      rw [hhop]
      exact (h clock (env i).activeNow hreads).own hcfg hdest notLocal answer

end Answers

section Packet

variable {plan : List PlanContact} {baseTime clock now : UInt32}

/-- A packet without a payload that asks the routing a given question. -/
def askingBytes (q : RouteQuery) : Bytes :=
  0x60 :: (le32 q.vTcFl).tail ++ [UInt8.ofNat q.plen, UInt8.ofNat (q.plen / 256), ip6NexthNone,
    q.hoplim] ++ q.sender.1 ++ (q.dest.addr.1 ++ q.dest.zone :: q.dest.padding.1)

theorem askingBytes_length (q : RouteQuery) : (askingBytes q).length = 44 := by
  simp [askingBytes, q.sender.2, q.dest.addr.2, q.dest.padding.2]

def askingPbuf (q : RouteQuery) : Pbuf :=
  .single (askingBytes q) [] (by rw [askingBytes_length]; decide)

/-- The question that the packet asks; its version is 6. -/
def askedQuery (q : RouteQuery) : RouteQuery :=
  { q with vTcFl := le32At (0x60 :: (le32 q.vTcFl).tail) 0 }

theorem ip6AddrAt_split {m a c : Bytes} {off : Nat} (x : Ip6Addr)
    (hm : m = a ++ (x.addr.1 ++ x.zone :: x.padding.1) ++ c) (ha : a.length = off) :
    ip6AddrAt m off = .ok x := by
  have hlen := x.addr.2
  have hpad := x.padding.2
  have hraw : readBlock m off 20 = .ok ⟨x.addr.1 ++ x.zone :: x.padding.1, by simp [hlen, hpad]⟩ :=
    readBlock_split _ hm ha
  have haddr : readBlock (x.addr.1 ++ x.zone :: x.padding.1) 0 16 = .ok x.addr :=
    readBlock_split x.addr (a := []) rfl rfl
  have hzone : byteAt (x.addr.1 ++ x.zone :: x.padding.1) 16 = .ok x.zone := by
    rw [byteAt_eq_ok, List.getElem?_append_right (by omega), hlen]
    rfl
  have hpadding : readBlock (x.addr.1 ++ x.zone :: x.padding.1) 17 3 = .ok x.padding :=
    readBlock_split x.padding (a := x.addr.1 ++ [x.zone]) (c := []) (by simp) (by simp [hlen])
  rw [ip6AddrAt, hraw, Run.bind_ok, haddr, Run.bind_ok, hzone, Run.bind_ok, hpadding]
  rfl

theorem asking_dest (q : RouteQuery) : ip6AddrAt (askingPbuf q).mem 24 = .ok q.dest := by
  refine ip6AddrAt_split q.dest (a := 0x60 :: (le32 q.vTcFl).tail ++
    [UInt8.ofNat q.plen, UInt8.ofNat (q.plen / 256), ip6NexthNone, q.hoplim] ++ q.sender.1)
    (c := []) ?_ ?_
  · simp [askingPbuf, askingBytes]
  · simp [q.sender.2]

theorem asking_sender (q : RouteQuery) :
    ∃ src, ip6AddrAt (askingPbuf q).mem 8 = .ok src ∧ src.addr = q.sender := by
  have hlen := q.dest.addr.2
  obtain ⟨d, ds, hd⟩ := List.exists_cons_of_length_pos (l := q.dest.addr.1) (by omega)
  rw [hd, List.length_cons] at hlen
  obtain ⟨pad, rest, hds, hpad⟩ := exists_split (m := ds) (n := 3) (by omega)
  refine ⟨⟨q.sender, d, ⟨pad, hpad⟩⟩, ip6AddrAt_split _ (a := 0x60 :: (le32 q.vTcFl).tail ++
    [UInt8.ofNat q.plen, UInt8.ofNat (q.plen / 256), ip6NexthNone, q.hoplim])
    (c := rest ++ q.dest.zone :: q.dest.padding.1) ?_ rfl, rfl⟩
  simp [askingPbuf, askingBytes, hd, hds]

theorem asking_query (q : RouteQuery) (hplen : q.plen < 65536) :
    routeQueryAt (askingPbuf q).mem q.dest q.sender = .ok (askedQuery q) := by
  have hword : readBlock (askingPbuf q).mem 0 4 =
      .ok ⟨0x60 :: (le32 q.vTcFl).tail, rfl⟩ := by
    refine readBlock_split _ (a := []) (c := [UInt8.ofNat q.plen, UInt8.ofNat (q.plen / 256),
      ip6NexthNone, q.hoplim] ++ q.sender.1 ++
      (q.dest.addr.1 ++ q.dest.zone :: q.dest.padding.1)) ?_ rfl
    simp [askingPbuf, askingBytes]
  rw [routeQueryAt, hword]
  refine congrArg Except.ok ?_
  rw [askedQuery]
  congr 1
  simp only [UInt8.toNat_ofNat']
  omega

theorem asking_custodian (q : RouteQuery) : dtnExtractCustodianOption (askingPbuf q) = .ok none :=
  rfl

-- The question is taken apart first: the kernel would otherwise compare the two header words.
theorem askedQuery_dest (q : RouteQuery) : (askedQuery q).dest = q.dest := by
  cases q
  rfl

theorem askedQuery_class (q : RouteQuery) :
    (askedQuery q).vTcFl.toNat / 1048576 % 256 / 4 = q.vTcFl.toNat / 1048576 % 256 / 4 := by
  have hlt := q.vTcFl.toNat_lt
  have hfirst : (0x60 : UInt8).toNat = 96 := rfl
  simp only [askedQuery, le32, List.tail_cons, le32At, le32Val, List.getD_cons_zero,
    List.getD_cons_succ, UInt32.toNat_ofNat', UInt8.toNat_ofNat', hfirst]
  omega

/-- Of the header word contact graph routing looks at the class only. -/
theorem cgrNextHop_word (q : RouteQuery) (word : UInt32)
    (hclass : word.toNat / 1048576 % 256 / 4 = q.vTcFl.toNat / 1048576 % 256 / 4) :
    cgrNextHop plan baseTime clock ⟨word, q.plen, q.hoplim, q.dest, q.sender⟩ =
      cgrNextHop plan baseTime clock q := by
  obtain ⟨word', plen, hoplim, dest, sender⟩ := q
  simp only [cgrNextHop, candidatesFor, routePacket]
  rw [hclass]

theorem cgrNextHop_asked (q : RouteQuery) :
    cgrNextHop plan baseTime clock (askedQuery q) = cgrNextHop plan baseTime clock q :=
  cgrNextHop_word q _ (askedQuery_class q)

/-- Only the routing and its clock are given; nothing can be allocated for the option. -/
def askingEnv (routing : RoutingView) (now : UInt32) : IncomingEnv :=
  { incomingAt now true with routing := routing, rewrite := ⟨none, none⟩ }

theorem askingEnv_routing (routing : RoutingView) (now : UInt32) :
    (askingEnv routing now).routing = routing ∧ (askingEnv routing now).activeNow = now :=
  ⟨rfl, rfl⟩

theorem asking_consumed (env : IncomingEnv) (node : Node) (q : RouteQuery) :
    consumeStatus env node (askingPbuf q) = .ok none := rfl

theorem asking_forwarded {q : RouteQuery} {hop : Ip6Addr} (hplen : q.plen < 65536)
    (notLocal : q.dest.addr ∉ thisNode)
    (answer : dtnRoutingGetDtnNextHop (planView plan baseTime clock) q = .ok (some hop))
    (active : isNextHopActiveContact (dtnRoutingLoadContacts baseTime plan) now hop = true) :
    ∃ t, dtnControllerProcessIncoming sampleConfig hexAddrText
        (askingEnv (planView plan baseTime clock) now) emptyNode (askingPbuf q) =
          .ok (emptyNode, [.forward t]) ∧ t.hop = hop.addr := by
  obtain ⟨src, hsrc, hsender⟩ := asking_sender q
  have hlen : ¬ (askingPbuf q).len < ip6Hlen := by
    rw [Pbuf.len, askingPbuf, Pbuf.single_payload, askingBytes_length]
    decide
  have hversion : ¬ ((askingPbuf q).payload.getD 0 0).toNat / 16 ≠ 6 := by
    rw [show (askingPbuf q).payload.getD 0 0 = 0x60 from rfl]
    decide
  have hlocal : sampleConfig.isLocal q.dest = false := by
    rw [Config.isLocal, ← Bool.not_eq_true, List.contains_iff_mem]
    exact notLocal
  have hdtn : dtnRoutingIsDtnDestination (planView plan baseTime clock).contacts q.dest = true := by
    by_contra hdtn
    rw [dtnRoutingGetDtnNextHop, if_neg hdtn] at answer
    cases answer
  have hanswer : activeNextHop (planView plan baseTime clock) now (askedQuery q) =
      .ok (some hop) := by
    rw [dtnRoutingGetDtnNextHop, if_pos hdtn] at answer
    refine activeNextHop_eq_some.mpr ⟨?_, active⟩
    rw [dtnRoutingGetDtnNextHop, askedQuery_dest, if_pos hdtn]
    exact (cgrNextHop_asked q).trans answer
  refine ⟨⟨(askingPbuf q).bytes, hop.addr, rawSocketSendIpv6 true (askingPbuf q), emptyNode.stored⟩,
    ?_, rfl⟩
  rw [dtnControllerProcessIncoming, if_neg hlen, if_neg hversion, hsrc, Run.bind_ok, asking_dest,
    Run.bind_ok, asking_custodian, Run.bind_ok, asking_consumed, Run.bind_ok]
  dsimp only
  rw [hlocal, if_neg Bool.false_ne_true, routeIncoming]
  simp only [askingEnv_routing, hdtn, if_true, Option.getD_none, hsender, asking_query q hplen,
    Run.bind_ok, hanswer]
  rfl

end Packet

/-- Traffic stays within the contacts of this node exactly when the test of the
controller agrees with the contacts of this node on the answers of contact graph routing.
It does if no neighbour has another contact while its contacts with this node are
closed. -/
theorem sends_in_own_contact_iff (plan : List PlanContact) (baseTime : UInt32)
    (reads : UInt32 → UInt32 → Prop) :
    (SendsInOwnContact plan baseTime reads ↔
      ∀ clock now, reads clock now → AnswersCovered plan baseTime clock now) ∧
    ((∀ clock now, reads clock now → NeighboursCovered plan baseTime clock now) →
      SendsInOwnContact plan baseTime reads) := by
  refine ⟨⟨?_, sendsInOwnContact_of_answers⟩, fun h => ?_⟩
  · intro h clock now hreads q hop hplen notLocal answer active
    obtain ⟨t, hrun, hhop⟩ := asking_forwarded hplen notLocal answer active
    rw [← hhop]
    exact h.incoming _ _ _ _ _ _ _ clock rfl rfl hreads hrun t (List.mem_singleton.mpr rfl)
  · exact sendsInOwnContact_of_answers fun clock now hreads => (h clock now hreads).answers

/-- A plan in which nobody but this node ever transmits to its neighbour. -/
def soleSender : List PlanContact := [⟨0, 100, 10, 21, 1000, 1⟩, ⟨50, 200, 21, 32, 1000, 1⟩]

theorem sends_in_own_contact_soleSender :
    SendsInOwnContact soleSender 0 (fun _ _ => True) := by
  refine (sends_in_own_contact_iff soleSender 0 fun _ _ => True).2 fun clock now _ => ?_
  intro c hc hfrm _ addr haddr active
  have hc : c = ⟨0, 100, 10, 21, 1000, 1⟩ := by
    rcases List.mem_cons.mp hc with rfl | hc
    · rfl
    · cases List.mem_singleton.mp hc
      cases hfrm
  subst hc
  cases haddr
  have hother : netAddr 0x23 3 ≠ netAddr 0x12 2 := by decide
  have hopen : ContactInfo.openAt ⟨⟨netAddr 0x12 2, 0, noPadding⟩,
      ⟨netAddr 0x01 2, 0, noPadding⟩, 0, 100000, true⟩ now = true := by
    simpa [isNextHopActiveContact, soleSender, dtnRoutingLoadContacts, nodeidToIpv6, hother]
      using active
  exact List.any_eq_true.mpr ⟨_, List.mem_cons_self, hopen⟩

/-- The neighbour is hearing another node while its contact with this node is still to
come. -/
def lentPlan : List PlanContact :=
  [⟨100, 200, 10, 21, 1000, 1⟩, ⟨100, 300, 21, 32, 1000, 1⟩, ⟨0, 50, 32, 21, 1000, 1⟩]

/-- A packet for the far node that arrives ten seconds after the start is sent at once,
ninety seconds before the contact. -/
theorem sends_in_foreign_contact :
    ∃ q t, dtnControllerProcessIncoming sampleConfig hexAddrText
        (askingEnv (planView lentPlan 0 10000) 10000) emptyNode (askingPbuf q) =
          .ok (emptyNode, [.forward t]) ∧
      dtnRoutingIsDtnDestination (dtnRoutingLoadContacts 0 lentPlan) q.dest = true ∧
      ownContactOpen (dtnRoutingLoadContacts 0 lentPlan) 10000 t.hop = false := by
  let q : RouteQuery := ⟨0x60, 1024, 64, farNode, netAddr 1 1⟩
  have answer : cgrNextHop lentPlan 0 10000 q = .ok (some neighbour) := by decide +kernel
  obtain ⟨t, hrun, hhop⟩ := @asking_forwarded lentPlan 0 10000 10000 q neighbour (by decide)
    (by decide) ((if_pos rfl).trans answer) rfl
  refine ⟨q, t, hrun, rfl, ?_⟩
  rw [hhop]
  rfl

end LwipDtn
