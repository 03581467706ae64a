import LwipDtn.ControllerRuns

/-!
Status messages for other nodes. The controller looks for ICMPv6 before it looks at the
destination, so a message in transit is taken for one of its own unless an extension
header stands in front of it.
-/

namespace LwipDtn
open Outcome Bytes BoundedFifo Runs

/-- Hop-by-hop options, routing and destination options: the headers that may stand in
front of an upper-layer header. -/
def extensionHeaders : List UInt8 := [ip6NexthHopbyhop, 43, 60]

/-- The header of the given kind at the given place is, or leads to, an ICMPv6 header with
one of the DTN types. -/
inductive CarriesStatus (b : Bytes) : UInt8 → Nat → Prop
  | here {off : Nat} (inside : off < b.length) (type : b.getD off 0 ∈ statusTypes) :
      CarriesStatus b ip6NexthIcmp6 off
  | behind {nexth : UInt8} {off : Nat} (extension : nexth ∈ extensionHeaders)
      (rest : CarriesStatus b (b.getD off 0) (off + ((b.getD (off + 1) 0).toNat + 1) * 8)) :
      CarriesStatus b nexth off

/-- A DTN status message for another node, in a buffer with readable memory behind it. -/
structure StatusArrives (cfg : Config) (env : IncomingEnv) (p : Pbuf) (dest : Ip6Addr) : Prop where
  layout : p.Pooled
  version : (p.payload.getD 0 0).toNat / 16 = 6
  wf : WellFormed p.bytes
  small : p.totLen ≤ 2048
  readable : p.totLen + 24 ≤ p.mem.length
  copyReadable : ∀ q, pbufClone env.store.copy p = some q → q.totLen + 24 ≤ q.mem.length
  destAddr : ip6AddrAt p.mem 24 = .ok dest
  status : CarriesStatus p.bytes (nexthOf p.bytes) ip6Hlen
  notLocal : cfg.isLocal dest = false

/-- The message has been sent to the next hop or to its destination, or stored, intact but
for its hop-by-hop header, and nothing else has happened to the node. -/
def PassedOn (cfg : Config) (env : IncomingEnv) (node node' : Node) (p : Pbuf) (dest : Ip6Addr)
    (effects : List Effect) : Prop :=
  node'.attempts = node.attempts ∧
  ((node'.storage = node.storage ∧ ∃ t, effects = [.forward t] ∧ SentOn cfg env p t) ∨
    (node'.storage = node.storage ∧ ∃ t, effects = [.relay t] ∧ t.packet = p.bytes ∧
      t.hop = dest.addr ∧ t.sent = true) ∨
    (Effect.store p.bytes true ∈ effects ∧ StoredLast node node' p dest))

/-- The messages that are passed on: the ICMPv6 header stands behind an extension header,
and the handling of the packet as any other traffic keeps it. -/
structure SafeTransit (env : IncomingEnv) (node : Node) (p : Pbuf) (dest : Ip6Addr) :
    Prop where
  hidden : nexthOf p.bytes ≠ ip6NexthIcmp6
  extract : Run.Returns (dtnExtractCustodianOption p)
  relay : dtnRoutingIsDtnDestination env.routing.contacts dest = false → env.sendto = true
  routing : dtnRoutingIsDtnDestination env.routing.contacts dest = true →
    Run.Returns (routeAnswer env.routing env.activeNow p)
  direct : dtnRoutingIsDtnDestination env.routing.contacts dest = true →
    ∀ hop, routeAnswer env.routing env.activeNow p = .ok (some hop) → DirectSafe env p
  stored : dtnRoutingIsDtnDestination env.routing.contacts dest = true →
    routeAnswer env.routing env.activeNow p = .ok none →
    StoreAccepts env.store node.storage p ∧ StripKeeps env.store.strip p.bytes ∧ AckSafe env p

section

variable {cfg : Config} {text : AddrText} {env : IncomingEnv} {node node' : Node} {p : Pbuf}
  {dest : Ip6Addr} {effects : List Effect}

theorem CarriesStatus.inside {b : Bytes} {nexth : UInt8} {off : Nat}
    (h : CarriesStatus b nexth off) : off < b.length := by
  induction h with
  | here inside => exact inside
  | behind _ _ ih => omega

theorem CarriesStatus.complete {b : Bytes} (h : CarriesStatus b (nexthOf b) ip6Hlen) :
    HopByHopComplete b := by
  intro first
  rw [first] at h
  cases h with
  | behind _ rest => exact Nat.le_of_lt rest.inside

theorem StatusArrives.header (h : StatusArrives cfg env p dest) : ip6Hlen ≤ p.len :=
  h.layout.le_len (by decide) (p.bytes_length ▸ h.wf.header)

theorem StatusArrives.forDtn (h : StatusArrives cfg env p dest)
    (hidden : nexthOf p.bytes ≠ ip6NexthIcmp6)
    (dtn : dtnRoutingIsDtnDestination env.routing.contacts dest = true) :
    ArrivesForDtn cfg env p dest :=
  { h with
    complete := h.status.complete
    notStatus := fun nexth => absurd nexth hidden
    dtn := dtn }

theorem CarriesStatus.type {b : Bytes} {off : Nat} (h : CarriesStatus b ip6NexthIcmp6 off) :
    off < b.length ∧ b.getD off 0 ∈ statusTypes := by
  cases h with
  | here inside type => exact ⟨inside, type⟩
  | behind extension => exact absurd extension (by decide)

/-- The ICMPv6 branch does not let a message pass. -/
theorem StatusArrives.not_passes (h : StatusArrives cfg env p dest)
    (nexth : nexthOf p.bytes = ip6NexthIcmp6) : ¬ PassesIcmp env p := by
  intro passes
  obtain ⟨q, type, hclone, htype, hnot⟩ := passes nexth
  obtain ⟨inside, hstatus⟩ := CarriesStatus.type (nexth ▸ h.status)
  have hpayload := (pbufClone_payload hclone).1
  have hbyte := q.byteAt_mem (i := ip6Hlen) (by rw [Pbuf.len, hpayload]; exact inside)
  rw [pbufClone_bytes hclone] at hbyte
  cases htype.symm.trans hbyte
  exact hnot hstatus

theorem PassedOn.effects_ne (h : PassedOn cfg env node node' p dest effects) : effects ≠ [] := by
  rintro rfl
  obtain ⟨-, ⟨-, t, ht, -⟩ | ⟨-, t, ht, -⟩ | ⟨ht, -⟩⟩ := h <;> cases ht

theorem processIncoming_relays (text : AddrText) (node : Node) (h : StatusArrives cfg env p dest)
    (extract : Run.Returns (dtnExtractCustodianOption p)) (icmp : PassesIcmp env p)
    (notDtn : dtnRoutingIsDtnDestination env.routing.contacts dest = false) :
    dtnControllerProcessIncoming cfg text env node p =
      .ok (node, [.relay ⟨p.bytes, dest.addr, rawSocketSendIpv6 env.sendto p, node.stored⟩]) := by
  have htot : 40 ≤ p.totLen := by
    have := h.wf.header
    rwa [Pbuf.bytes_length] at this
  have hmem := h.readable
  obtain ⟨src, hsrc⟩ := @ip6AddrAt_returns p.mem 8 (by omega)
  obtain ⟨custodian, hcust⟩ := extract
  have hconsumed := (consumeStatus_none node h.header).mpr icmp
  rw [dtnControllerProcessIncoming, if_neg (Nat.not_lt.mpr h.header),
    if_neg (by simpa using h.version)]
  simp only [hsrc, h.destAddr, hcust, Run.bind_ok, hconsumed, h.notLocal, Bool.false_eq_true,
    if_false, routeIncoming, notDtn, Run.pure_eq_ok]

theorem forwardDirect_passedOn (h : ArrivesForDtn cfg env p dest) {hop : Ip6Addr}
    (answer : routeAnswer env.routing env.activeNow p = .ok (some hop)) :
    (∃ node' effects, forwardDirect cfg env node p hop = .ok (node', effects) ∧
      PassedOn cfg env node node' p dest effects) ↔ DirectSafe env p := by
  rw [← @forwardDirect_sends_iff cfg env node p dest h hop answer]
  constructor
  · rintro ⟨node', effects, hrun, -, hpassed⟩
    obtain ⟨rfl, t', rfl⟩ := forwardDirect_form hrun
    obtain ⟨-, t, ht, hsent⟩ | ⟨-, t, ht, -⟩ | ⟨ht, -⟩ := hpassed
    · cases ht
      exact ⟨_, hrun, hsent⟩
    · cases ht
    · cases List.mem_singleton.mp ht
  · rintro ⟨t, hrun, hsent⟩
    exact ⟨node, _, hrun, rfl, .inl ⟨rfl, t, rfl, hsent⟩⟩

theorem storeIncoming_passedOn (h : ArrivesForDtn cfg env p dest) :
    (∃ node' effects, storeIncoming cfg text env node p dest = .ok (node', effects) ∧
      PassedOn cfg env node node' p dest effects) ↔
    StoreAccepts env.store node.storage p ∧ StripKeeps env.store.strip p.bytes ∧
      AckSafe env p := by
  rw [← @storeAccepts_iff text env.store node.storage p dest]
  constructor
  · rintro ⟨node', effects, hrun, -, hpassed⟩
    have hform := hrun
    rw [storeIncoming, Run.bind_eq_ok] at hform
    obtain ⟨⟨accepted, s⟩, hstore, -⟩ := hform
    obtain ⟨heffect, hother, not_forward, -⟩ := storeIncoming_effects hstore hrun
    obtain ⟨-, t, ht, -⟩ | ⟨-, t, ht, -⟩ | ⟨ht, hlast⟩ := hpassed
    · exact absurd (ht ▸ List.mem_singleton.mpr rfl) (not_forward t)
    · rw [ht] at heffect
      cases List.mem_singleton.mp heffect
    · cases accepted with
      | false => exact absurd ht hother
      | true =>
          exact ⟨⟨s, hstore⟩, (storeIncoming_stores_iff h hstore).mp ⟨node', effects, hrun, hlast⟩⟩
  · rintro ⟨⟨s, hstore⟩, safe⟩
    obtain ⟨node', effects, hrun, hlast⟩ := (storeIncoming_stores_iff h hstore).mpr safe
    obtain ⟨heffect, -, -, hattempts⟩ := storeIncoming_effects hstore hrun
    exact ⟨node', effects, hrun, hattempts, .inr (.inr ⟨heffect, hlast⟩)⟩

end

/-- A status message for another node is passed on exactly when it is hidden behind an
extension header and its handling as any other traffic keeps it. -/
theorem status_passed_on_iff (cfg : Config) (text : AddrText) (env : IncomingEnv) (node : Node)
    (p : Pbuf) (dest : Ip6Addr) (h : StatusArrives cfg env p dest) :
    (∃ node' effects, dtnControllerProcessIncoming cfg text env node p = .ok (node', effects) ∧
      PassedOn cfg env node node' p dest effects) ↔ SafeTransit env node p dest := by
  have icmp (hidden : nexthOf p.bytes ≠ ip6NexthIcmp6) : PassesIcmp env p :=
    fun nexth => absurd nexth hidden
  have small : rawSocketSendIpv6 env.sendto p = env.sendto := by
    simp [rawSocketSendIpv6, h.small]
  constructor
  · rintro ⟨node', effects, hrun, hpassed⟩
    obtain ⟨extract, passes⟩ := passes_of_processIncoming h.header h.version hrun hpassed.effects_ne
    have hidden : nexthOf p.bytes ≠ ip6NexthIcmp6 := fun nexth => h.not_passes nexth passes
    cases dtn : dtnRoutingIsDtnDestination env.routing.contacts dest with
    | false =>
        have impossible {P : Prop}
            (h : dtnRoutingIsDtnDestination env.routing.contacts dest = true) :
            P := Bool.noConfusion (dtn.symm.trans h)
        rw [processIncoming_relays text node h extract passes dtn] at hrun
        cases hrun
        refine ⟨hidden, extract, fun _ => ?_, impossible, impossible, impossible⟩
        obtain ⟨-, ⟨-, t, ht, -⟩ | ⟨-, t, ht, -, -, hsent⟩ | ⟨ht, -⟩⟩ := hpassed
        · cases ht
        · cases ht
          exact small.symm.trans hsent
        · cases List.mem_singleton.mp ht
    | true =>
        have harrives := h.forDtn hidden dtn
        rw [processIncoming_of_passes text node harrives extract passes, Run.bind_eq_ok] at hrun
        obtain ⟨answer, hanswer, hrun⟩ := hrun
        refine ⟨hidden, extract, fun h => Bool.noConfusion (dtn.symm.trans h),
          fun _ => ⟨answer, hanswer⟩, fun _ hop hhop => ?_, fun _ hnone => ?_⟩
        · cases hanswer.symm.trans hhop
          exact (forwardDirect_passedOn harrives hanswer).mp ⟨node', effects, hrun, hpassed⟩
        · cases hanswer.symm.trans hnone
          exact (storeIncoming_passedOn harrives).mp ⟨node', effects, hrun, hpassed⟩
  · intro safe
    cases dtn : dtnRoutingIsDtnDestination env.routing.contacts dest with
    | false =>
        exact ⟨_, _, processIncoming_relays text node h safe.extract (icmp safe.hidden) dtn, rfl,
          .inr (.inl ⟨rfl, _, rfl, rfl, rfl, small.trans (safe.relay dtn)⟩)⟩
    | true =>
        have harrives := h.forDtn safe.hidden dtn
        obtain ⟨answer, hanswer⟩ := safe.routing dtn
        rw [processIncoming_of_passes text node harrives safe.extract (icmp safe.hidden), hanswer,
          Run.bind_ok]
        cases answer with
        | some hop =>
            exact (forwardDirect_passedOn harrives hanswer).mpr (safe.direct dtn hop hanswer)
        | none => exact (storeIncoming_passedOn harrives).mpr (safe.stored dtn hanswer)

/-! A message about the packet that the sample node has stored. -/

/-- On its way to the far node, behind the custodian option of the neighbour. -/
def hiddenStatus : Pbuf :=
  .single (tagged (strayStatus (netAddr 0x23 3)) (netAddr 0x12 2)) (List.replicate 64 0)
    (by decide +kernel)

/-- Its destination as the controller copies it, with the next bytes of the packet. -/
def hiddenDest : Ip6Addr := ⟨netAddr 0x23 3, 58, ⟨[2, custodyOptionType, 16], rfl⟩⟩

/-- On its way to the source of the packet. -/
def openStatus : Pbuf :=
  .single (strayStatus (netAddr 1 1)) (List.replicate 64 0) (by decide +kernel)

/-- There is no memory for a copy to store. -/
def transitEnv : IncomingEnv :=
  { incomingAt 2000 true with store := { calmEnv 2000 with copy := none } }

theorem hiddenStatus_arrives : StatusArrives sampleConfig transitEnv hiddenStatus hiddenDest where
  layout := .inl rfl
  version := by decide +kernel
  wf := by decide +kernel
  small := by decide +kernel
  readable := by decide +kernel
  copyReadable := nofun
  destAddr := by decide +kernel
  status := .behind (by decide +kernel) (.here (by decide +kernel) (by decide +kernel))
  notLocal := by decide +kernel

theorem status_passed_on_hidden :
    ∃ node' effects, dtnControllerProcessIncoming sampleConfig hexAddrText transitEnv emptyNode
        hiddenStatus = .ok (node', effects) ∧
      PassedOn sampleConfig transitEnv emptyNode node' hiddenStatus hiddenDest effects := by
  have first : nexthOf hiddenStatus.bytes = ip6NexthHopbyhop := by decide +kernel
  have custody : CustodyFirst hiddenStatus.bytes :=
    ⟨first, by decide +kernel, by decide +kernel⟩
  have hanswer : routeAnswer transitEnv.routing transitEnv.activeNow hiddenStatus =
      .ok (some neighbour) := by decide +kernel
  refine (status_passed_on_iff sampleConfig hexAddrText transitEnv emptyNode hiddenStatus
    hiddenDest hiddenStatus_arrives).mpr ⟨by decide +kernel, by decide +kernel, fun _ => rfl,
    fun _ => ⟨_, hanswer⟩, fun _ _ _ => ⟨.inl custody, ⟨fun _ => by decide +kernel,
      fun grows => absurd first grows.1, fun _ other => absurd custody other⟩, rfl,
      fun grows => absurd first grows.1⟩, fun _ hnone => ?_⟩
  cases hanswer.symm.trans hnone

/-- A message for the source of the stored packet is consumed in transit, and the relay
drops its own copy of the packet. -/
theorem stray_status_consumed :
    ∃ s, (nodeSystem sampleConfig hexAddrText).Reaches (fun _ _ => True) s ∧
      StatusArrives sampleConfig transitEnv openStatus
        ⟨netAddr 1 1, icmp6TypeDtnPckReceived, ⟨[icmp6CodeDtnNoInfo, 0, 0], rfl⟩⟩ ∧
      s.node.stored = [quietPacket] ∧
      (dtnControllerProcessIncoming sampleConfig hexAddrText transitEnv s.node
        openStatus).toOption.map (fun r => (r.1.stored, r.2)) = some ([], []) := by
  refine ⟨storedFirst, NodeTrace.after_reached (emptyNode_reached _) _ trivial (by decide +kernel),
    ?_, by decide +kernel, by decide +kernel⟩
  exact {
    layout := .inl rfl
    version := by decide +kernel
    wf := by decide +kernel
    small := by decide +kernel
    readable := by decide +kernel
    copyReadable := nofun
    destAddr := by decide +kernel
    status := .here (by decide +kernel) (by decide +kernel)
    notLocal := by decide +kernel }

end LwipDtn
