import LwipDtn.TrackingSteps
import LwipDtn.Controller

/-!
What a packet and a pass can do to a node. Every way through
`dtn_controller_process_incoming` is a constructor of `Incoming`; a pass is a walk in
which every attempt either looks at an entry with the storage unchanged or gives one
packet up. The results about whole runs use these facts and do not unfold the controller.
-/

namespace LwipDtn
open Outcome Bytes BoundedFifo

section

variable {cfg : Config} {text : AddrText} {node node' : Node} {effects : List Effect}

/-- A received-message about the packet. Old memory fills up a quote that is too short. -/
inductive Acknowledges (cfg : Config) (stored : List Bytes) (packet : Bytes) : List Effect → Prop
  | none : Acknowledges cfg stored packet []
  | sent (env : StatusEnv) (code : UInt8) (dest : Block 16) (plen : Block 2) (old : Bytes)
      (full : (packet.take quotedLen).length + old.length = quotedLen) :
      Acknowledges cfg stored packet [.status ⟨statusPacket cfg env icmp6TypeDtnPckReceived code 0
        dest plen (packet.take quotedLen) old, dest, env.sendto, stored⟩ packet]

theorem acknowledge_cases {clone : Heap} {env : StatusEnv} {stored : List Bytes} {p : Pbuf}
    {code : UInt8} (h : acknowledge cfg clone env stored p code = .ok effects) :
    Acknowledges cfg stored p.bytes effects := by
  rw [acknowledge] at h
  split at h
  · cases h
    exact .none
  rename_i q hclone
  rw [← pbufClone_bytes hclone]
  rw [dtnIcmpv6SendPckReceived, dtnIcmpv6SendMessage] at h
  split at h
  · cases h
    exact .none
  rename_i block behind halloc
  have hblock := pbufAlloc_length halloc
  have hquote := List.length_take_le quotedLen q.bytes
  have full : (q.bytes.take quotedLen).length +
      (block.drop (17 + (q.bytes.take quotedLen).length)).length = quotedLen := by
    rw [quotedLen, ip6Hlen] at *
    rw [List.length_drop, hblock]
    omega
  simp only [Run.bind_eq_ok] at h
  obtain ⟨plen, -, custodian, -, h⟩ := h
  cases custodian with
  | some dest =>
      simp only [Run.pure_eq_ok, Run.bind_ok] at h
      split at h
      · cases h
        exact .none
      · cases h
        exact .sent env code dest plen _ full
  | none =>
      dsimp only at h
      rw [Run.bind_eq_ok] at h
      obtain ⟨dest, -, h⟩ := h
      split at h
      · cases h
        exact .none
      · cases h
        exact .sent env code dest plen _ full

/-- A received-message keeps the storage or takes out one packet. What it quotes is read
from a rebuilt packet, or straight from the buffer if there is no memory for one. -/
theorem deleteAcknowledged_inv {env : IcmpEnv} {s s' : StorageFunction} {q : Pbuf}
    (h : deleteAcknowledged env s q = .ok s') :
    s' = s ∨ ∃ e rest, s' = s.unlinked env.removed e rest ∧ Takes s.packetListHead e rest ∧
      ((65 ≤ q.totLen ∧ ∃ icmp : Pbuf, icmp.payload.drop 57 = q.bytes.drop 17 ∧
        AcceptsQuote icmp e) ∨
        ∃ hdr, readBlock q.mem 17 ip6Hlen = .ok hdr ∧ matchesHeader hdr.1 e = true) := by
  rw [deleteAcknowledged] at h
  split at h
  · rename_i block behind halloc
    rw [Run.bind_eq_ok] at h
    obtain ⟨icmp, hicmp, h⟩ := h
    have hpayload := Pbuf.ofBlock_payload hicmp
    have houter : ([0x60, 0, 0, 0] ++ be16 q.totLen ++ [ip6NexthIcmp6, 255] ++
        env.current.1).length = 40 := by simp [be16, env.current.2]
    obtain rfl | ⟨e, rest, rfl, hlong, htake⟩ := deleteByIcmpData_cases h
    · exact .inl rfl
    refine .inr ⟨e, rest, rfl, htake.takes, .inl ⟨?_, icmp, ?_, htake.holds⟩⟩
    · rw [Pbuf.len, hpayload, List.length_append, houter, Pbuf.bytes_length] at hlong
      omega
    · rw [hpayload, show 57 = 40 + 17 from rfl, ← List.drop_drop, List.drop_left' houter]
  · split at h
    · cases h
      exact .inl rfl
    rw [Run.bind_eq_ok] at h
    obtain ⟨hdr, hread, h⟩ := h
    obtain rfl | ⟨e, rest, rfl, htake⟩ := deleteByIpHeader_cases h
    · exact .inl rfl
    · exact .inr ⟨e, rest, rfl, htake.takes, .inr ⟨hdr, hread, htake.holds⟩⟩

theorem icmpv6Process_inv {env : IcmpEnv} {q : Pbuf} {handled : Bool}
    (h : dtnIcmpv6Process env node q = .ok (handled, node')) :
    node' = node ∨ ∃ dest, byteAt q.mem 0 = .ok icmp6TypeDtnPckReceived ∧
      deleteAcknowledged env node.storage q = .ok node'.storage ∧
      readBlock q.mem 41 16 = .ok dest ∧
      node'.attempts = dtnControllerRemoveTracking node.attempts ⟨dest, 0, noPadding⟩ := by
  rw [dtnIcmpv6Process, Run.bind_eq_ok] at h
  obtain ⟨type, htype, h⟩ := h
  split at h
  · rename_i received
    simp only [Run.bind_eq_ok] at h
    obtain ⟨_, -, storage, hdelete, dest, hdest, h⟩ := h
    cases h
    exact .inr ⟨dest, received ▸ htype, hdelete, hdest, rfl⟩
  split at h
  · rw [Run.bind_eq_ok] at h
    obtain ⟨_, -, h⟩ := h
    cases h
    exact .inl rfl
  · cases h
    exact .inl rfl

/-- A packet ends as a status message: its copy cannot be made, or the copy is handled. -/
theorem consumeStatus_inv {env : IncomingEnv} {p : Pbuf}
    (h : consumeStatus env node p = .ok (some node')) :
    nexthOf p.payload = ip6NexthIcmp6 ∧ (node' = node ∨ ∃ q,
      (pbufClone env.icmpClone p).bind (Pbuf.removeHeader · ip6Hlen) = some q ∧
      dtnIcmpv6Process env.icmp node q = .ok (true, node')) := by
  rw [consumeStatus] at h
  split at h
  · cases h
  rename_i hnexth
  refine ⟨not_not.mp hnexth, ?_⟩
  split at h
  · cases h
    exact .inl rfl
  rename_i q hq
  rw [Run.bind_eq_ok] at h
  obtain ⟨⟨handled, n⟩, hprocess, h⟩ := h
  cases handled with
  | false => cases h
  | true =>
      cases h
      exact .inr ⟨q, hq, hprocess⟩

/-- The ways through the handling of one packet. -/
inductive Incoming (cfg : Config) (text : AddrText) (env : IncomingEnv) (node : Node) (p : Pbuf) :
    Node → List Effect → Prop
  | dropped : Incoming cfg text env node p node []
  | consumed {node' : Node} (header : ip6Hlen ≤ p.len)
      (h : consumeStatus env node p = .ok (some node')) :
      Incoming cfg text env node p node' []
  | delivered {ack : List Effect} (header : ip6Hlen ≤ p.len)
      (h : Acknowledges cfg node.stored p.bytes ack) :
      Incoming cfg text env node p node (ack ++ [.deliver p.bytes])
  | forwarded {dest hop : Ip6Addr} {r : Bool} {q : Pbuf} (hdest : ip6AddrAt p.mem 24 = .ok dest)
      (notLocal : cfg.isLocal dest = false)
      (answer : routeAnswer env.routing env.activeNow p = .ok (some hop))
      (rewritten : dtnUpdateOrAddCustodianOption env.rewrite p cfg.myAddr = .ok (r, q)) :
      Incoming cfg text env node p node
        [.forward ⟨q.bytes, hop.addr, rawSocketSendIpv6 env.sendto q, node.stored⟩]
  | refused {dest : Ip6Addr} {storage : StorageFunction}
      (h : dtnStorageStorePacket text env.store node.storage p dest = .ok (false, storage)) :
      Incoming cfg text env node p { node with storage := storage } [.store p.bytes false]
  | stored {dest : Ip6Addr} {storage : StorageFunction} {ack : List Effect}
      (header : ip6Hlen ≤ p.len)
      (h : dtnStorageStorePacket text env.store node.storage p dest = .ok (true, storage))
      (hack : Acknowledges cfg { node with storage := storage }.stored p.bytes ack) :
      Incoming cfg text env node p { node with storage := storage } (.store p.bytes true :: ack)
  | relayed {dest : Ip6Addr} (hdest : ip6AddrAt p.mem 24 = .ok dest)
      (notDtn : dtnRoutingIsDtnDestination env.routing.contacts dest = false) :
      Incoming cfg text env node p node
        [.relay ⟨p.bytes, dest.addr, rawSocketSendIpv6 env.sendto p, node.stored⟩]

theorem storeIncoming_cases {env : IncomingEnv} {p : Pbuf} {dest : Ip6Addr}
    (header : ip6Hlen ≤ p.len)
    (h : storeIncoming cfg text env node p dest = .ok (node', effects)) :
    Incoming cfg text env node p node' effects := by
  rw [storeIncoming, Run.bind_eq_ok] at h
  obtain ⟨⟨accepted, storage⟩, hstore, h⟩ := h
  cases accepted with
  | false =>
      cases h
      exact .refused hstore
  | true =>
      dsimp only at h
      rw [if_pos rfl, Run.bind_eq_ok] at h
      obtain ⟨ack, hack, h⟩ := h
      cases h
      exact .stored header hstore (acknowledge_cases hack)

/-- A packet ends at the controller, or it is for the local stack, or it is routed. -/
theorem processIncoming_inv {env : IncomingEnv} {p : Pbuf}
    (h : dtnControllerProcessIncoming cfg text env node p = .ok (node', effects)) :
    (effects = [] ∧
      (node' = node ∨ ip6Hlen ≤ p.len ∧ consumeStatus env node p = .ok (some node'))) ∨
    (ip6Hlen ≤ p.len ∧ deliverLocal cfg env node p = .ok (node', effects)) ∨
    (ip6Hlen ≤ p.len ∧ (p.payload.getD 0 0).toNat / 16 = 6 ∧ consumeStatus env node p = .ok none ∧
      ∃ src dest custodian, ip6AddrAt p.mem 8 = .ok src ∧ ip6AddrAt p.mem 24 = .ok dest ∧
      dtnExtractCustodianOption p = .ok custodian ∧ cfg.isLocal dest = false ∧
      routeIncoming cfg text env node p dest (custodian.getD src.addr) = .ok (node', effects)) := by
  rw [dtnControllerProcessIncoming] at h
  split at h
  · cases h
    exact .inl ⟨rfl, .inl rfl⟩
  rename_i header
  have header := Nat.not_lt.mp header
  split at h
  · cases h
    exact .inl ⟨rfl, .inl rfl⟩
  rename_i version
  simp only [Run.bind_eq_ok] at h
  obtain ⟨src, hsrc, dest, hdest, custodian, hcust, consumed, hconsumed, h⟩ := h
  cases consumed with
  | some n =>
      cases h
      exact .inl ⟨rfl, .inr ⟨header, hconsumed⟩⟩
  | none =>
      dsimp only at h
      split at h
      · exact .inr (.inl ⟨header, h⟩)
      · rename_i notLocal
        exact .inr (.inr ⟨header, not_not.mp version, hconsumed, src, dest, custodian, hsrc, hdest,
          hcust, by simpa using notLocal, h⟩)

theorem processIncoming_cases {env : IncomingEnv} {p : Pbuf}
    (h : dtnControllerProcessIncoming cfg text env node p = .ok (node', effects)) :
    Incoming cfg text env node p node' effects := by
  obtain ⟨rfl, rfl | ⟨header, hconsumed⟩⟩ | ⟨header, h⟩ |
    ⟨header, -, -, src, dest, custodian, hsrc, hdest, hcust, notLocal, h⟩ := processIncoming_inv h
  · exact .dropped
  · exact .consumed header hconsumed
  · rw [deliverLocal, Run.bind_eq_ok] at h
    obtain ⟨ack, hack, h⟩ := h
    cases h
    exact .delivered header (acknowledge_cases hack)
  rw [routeIncoming] at h
  split at h
  · rw [Run.bind_eq_ok] at h
    obtain ⟨query, hquery, h⟩ := h
    rw [Run.bind_eq_ok] at h
    obtain ⟨answer, hanswer, h⟩ := h
    cases answer with
    | some hop =>
        dsimp only at h
        rw [forwardDirect, Run.bind_eq_ok] at h
        obtain ⟨⟨r, q⟩, hrewrite, h⟩ := h
        cases h
        refine .forwarded hdest notLocal ?_ hrewrite
        simp only [routeAnswer, hsrc, hdest, hcust, hquery, hanswer, Run.bind_ok]
    | none => exact storeIncoming_cases header h
  · rename_i notDtn
    cases h
    exact .relayed hdest (by simpa using notDtn)

theorem header_of_effects {env : IncomingEnv} {p : Pbuf}
    (h : dtnControllerProcessIncoming cfg text env node p = .ok (node', effects))
    (nonempty : effects ≠ []) : ip6Hlen ≤ p.len := by
  obtain ⟨hempty, -⟩ | ⟨header, -⟩ | ⟨header, -⟩ := processIncoming_inv h
  · exact absurd hempty nonempty
  · exact header
  · exact header

theorem Acknowledges.not_forward {stored : List Bytes} {packet : Bytes} {t : Transmission}
    (h : Acknowledges cfg stored packet effects) : Effect.forward t ∉ effects := by
  cases h with
  | none => exact List.not_mem_nil
  | sent => exact fun hmem => by cases List.mem_singleton.mp hmem

theorem Incoming.forwards {env : IncomingEnv} {p : Pbuf} {t : Transmission}
    (h : Incoming cfg text env node p node' effects) (ht : Effect.forward t ∈ effects) :
    ∃ dest hop, ip6AddrAt p.mem 24 = .ok dest ∧ cfg.isLocal dest = false ∧
      routeAnswer env.routing env.activeNow p = .ok (some hop) ∧ t.hop = hop.addr := by
  cases h with
  | dropped | consumed => cases ht
  | delivered header hack =>
      rcases List.mem_append.mp ht with ht | ht
      · exact absurd ht hack.not_forward
      · cases List.mem_singleton.mp ht
  | forwarded hdest notLocal answer rewritten =>
      cases List.mem_singleton.mp ht
      exact ⟨_, _, hdest, notLocal, answer, rfl⟩
  | refused | relayed => cases List.mem_singleton.mp ht
  | stored header hstore hack =>
      rcases List.mem_cons.mp ht with ht | ht
      · cases ht
      · exact absurd ht hack.not_forward

theorem Acknowledges.not_store {stored : List Bytes} {packet b : Bytes} {accepted : Bool}
    (h : Acknowledges cfg stored packet effects) : Effect.store b accepted ∉ effects := by
  cases h with
  | none => exact List.not_mem_nil
  | sent => exact fun hmem => by cases List.mem_singleton.mp hmem

/-- A packet for another node in the plan gets to the storage: it is no status message,
and the routing has no open next hop for it. -/
structure Waits (cfg : Config) (env : IncomingEnv) (node : Node) (p : Pbuf) (dest : Ip6Addr) :
    Prop where
  header : ip6Hlen ≤ p.len
  version : (p.payload.getD 0 0).toNat / 16 = 6
  notStatus : consumeStatus env node p = .ok none
  hdest : ip6AddrAt p.mem 24 = .ok dest
  notLocal : cfg.isLocal dest = false
  dtn : dtnRoutingIsDtnDestination env.routing.contacts dest = true
  answer : routeAnswer env.routing env.activeNow p = .ok none

theorem Waits.processIncoming {env : IncomingEnv} {p : Pbuf} {dest : Ip6Addr}
    (h : Waits cfg env node p dest) : dtnControllerProcessIncoming cfg text env node p =
      storeIncoming cfg text env node p dest := by
  have answer := h.answer
  simp only [routeAnswer, Run.bind_eq_ok] at answer
  obtain ⟨src, hsrc, dest', hdest, custodian, hcust, query, hquery, answer⟩ := answer
  cases hdest.symm.trans h.hdest
  rw [dtnControllerProcessIncoming, if_neg (Nat.not_lt.mpr h.header),
    if_neg (not_not.mpr h.version)]
  simp only [hsrc, hdest, hcust, h.notStatus, h.notLocal, routeIncoming, h.dtn, hquery, answer,
    Run.bind_ok, Bool.false_eq_true, if_false, if_true]

theorem stored_of_processIncoming {env : IncomingEnv} {p : Pbuf} {b : Bytes}
    (h : dtnControllerProcessIncoming cfg text env node p = .ok (node', effects))
    (hstore : Effect.store b true ∈ effects) :
    ∃ dest storage, Waits cfg env node p dest ∧
      dtnStorageStorePacket text env.store node.storage p dest = .ok (true, storage) ∧
      node' = { node with storage := storage } := by
  obtain ⟨rfl, -⟩ | ⟨-, h⟩ | ⟨header, version, notStatus, src, dest, custodian, hsrc, hdest, hcust,
    notLocal, h⟩ := processIncoming_inv h
  · cases hstore
  · rw [deliverLocal, Run.bind_eq_ok] at h
    obtain ⟨ack, hack, h⟩ := h
    cases h
    rcases List.mem_append.mp hstore with hmem | hmem
    · exact absurd hmem (acknowledge_cases hack).not_store
    · cases List.mem_singleton.mp hmem
  rw [routeIncoming] at h
  split at h
  · rename_i dtn
    rw [Run.bind_eq_ok] at h
    obtain ⟨query, hquery, h⟩ := h
    rw [Run.bind_eq_ok] at h
    obtain ⟨answer, hnext, h⟩ := h
    cases answer with
    | some hop =>
        dsimp only at h
        rw [forwardDirect, Run.bind_eq_ok] at h
        obtain ⟨r, -, h⟩ := h
        cases h
        cases List.mem_singleton.mp hstore
    | none =>
        dsimp only at h
        rw [storeIncoming, Run.bind_eq_ok] at h
        obtain ⟨⟨accepted, storage⟩, haccept, h⟩ := h
        have hanswer : routeAnswer env.routing env.activeNow p = .ok none := by
          simp only [routeAnswer, hsrc, hdest, hcust, hquery, hnext, Run.bind_ok]
        cases accepted with
        | false =>
            cases h
            cases List.mem_singleton.mp hstore
        | true =>
            dsimp only at h
            rw [if_pos rfl, Run.bind_eq_ok] at h
            obtain ⟨ack, -, h⟩ := h
            cases h
            exact ⟨dest, storage, ⟨header, version, notStatus, hdest, notLocal, dtn, hanswer⟩,
              haccept, rfl⟩
  · cases h
    cases List.mem_singleton.mp hstore

/-- The ways in which the pass treats an entry that it attempts. -/
inductive Forwards (cfg : Config) (env : PassEnv) (node : Node) (entry : StoredPacketEntry) :
    List Effect → Prop
  | skipped : Forwards cfg env node entry []
  | delivered {q : Pbuf} {ack : List Effect} (copied : pbufClone env.forwardClone entry.p = some q)
      (h : Acknowledges cfg node.stored entry.p.bytes ack) :
      Forwards cfg env node entry (ack ++ [.deliver entry.p.bytes])
  | forwarded {dest hop : Ip6Addr} {r : Bool} {copy q : Pbuf}
      (hdest : ip6AddrAt entry.p.mem 24 = .ok dest) (notLocal : cfg.isLocal dest = false)
      (answer : routeAnswer env.routing env.activeNow entry.p = .ok (some hop))
      (copied : pbufClone env.forwardClone entry.p = some copy)
      (added : dtnAddCustodianOption env.add copy cfg.myAddr = .ok (r, q)) :
      Forwards cfg env node entry
        [.forward ⟨q.bytes, hop.addr, rawSocketSendIpv6 env.sendto q, node.stored⟩]

theorem forwardEntry_cases {env : PassEnv} {entry : StoredPacketEntry}
    (h : forwardEntry cfg env node entry = .ok effects) :
    Forwards cfg env node entry effects := by
  simp only [forwardEntry, Run.bind_eq_ok] at h
  obtain ⟨src, hsrc, dest, hdest, custodian, hcust, query, hquery, answer, hanswer, h⟩ := h
  split at h
  · cases h
    exact .skipped
  rename_i hop
  split at h
  · cases h
    exact .skipped
  rename_i copy hcopy
  rw [forwardCopy] at h
  split at h
  · rw [Run.bind_eq_ok] at h
    obtain ⟨ack, hack, h⟩ := h
    cases h
    have hbytes := pbufClone_bytes hcopy
    rw [hbytes]
    exact .delivered hcopy (hbytes ▸ acknowledge_cases hack)
  · rename_i notLocal
    rw [Run.bind_eq_ok] at h
    obtain ⟨⟨r, q⟩, hadd, h⟩ := h
    cases h
    refine .forwarded hdest (by simpa using notLocal) ?_ hcopy hadd
    simp only [routeAnswer, hsrc, hdest, hcust, hquery, hanswer, Run.bind_ok]

theorem Forwards.forwards {env : PassEnv} {entry : StoredPacketEntry} {t : Transmission}
    (h : Forwards cfg env node entry effects) (ht : Effect.forward t ∈ effects) :
    effects = [.forward t] ∧ ∃ dest hop, ip6AddrAt entry.p.mem 24 = .ok dest ∧
      cfg.isLocal dest = false ∧
      routeAnswer env.routing env.activeNow entry.p = .ok (some hop) ∧ t.hop = hop.addr := by
  cases h with
  | skipped => cases ht
  | delivered copied hack =>
      rcases List.mem_append.mp ht with ht | ht
      · exact absurd ht hack.not_forward
      · cases List.mem_singleton.mp ht
  | forwarded hdest notLocal answer copied added =>
      cases List.mem_singleton.mp ht
      exact ⟨rfl, _, _, hdest, notLocal, answer, rfl⟩

theorem forwardFrom_succ {env : Nat → PassEnv} {fuel step i : Nat}
    (h : forwardFrom cfg env (fuel + 1) step i node = .ok (node', effects)) :
    (node' = node ∧ effects = []) ∨ ∃ entry attempt n sent j later,
      entry ∈ node.storage.packetListHead ∧
      shouldAttemptForward (env step).attempt node entry.originalDest = .ok (attempt, n) ∧
      (sent = [] ∨ n.storage = node.storage ∧ Forwards cfg (env step) n entry sent) ∧
      forwardFrom cfg env fuel (step + 1) j n = .ok (node', later) ∧ effects = sent ++ later := by
  rw [forwardFrom] at h
  split at h
  · cases h
    exact .inl ⟨rfl, rfl⟩
  rename_i entry hentry
  have hmem := List.mem_of_getElem? hentry
  simp only [Run.bind_eq_ok] at h
  obtain ⟨⟨attempt, n⟩, hattempt, h⟩ := h
  cases attempt with
  | false =>
      simp only [Bool.false_eq_true, if_false, Run.pure_eq_ok, Run.bind_ok, Run.bind_eq_ok] at h
      obtain ⟨j, -, ⟨n', later⟩, hlater, h⟩ := h
      cases h
      exact .inr ⟨entry, false, n, [], j, later, hmem, hattempt, .inl rfl, hlater, rfl⟩
  | true =>
      simp only [if_true, Run.bind_eq_ok] at h
      obtain ⟨sent, hsent, j, -, ⟨n', later⟩, hlater, h⟩ := h
      cases h
      obtain hsame | ⟨hfalse, -⟩ := shouldAttemptForward_cases hattempt
      · exact .inr ⟨entry, true, n, sent, j, later, hmem, hattempt,
          .inr ⟨hsame, forwardEntry_cases hsent⟩, hlater, rfl⟩
      · cases hfalse

/-- The rule for passes: what every attempt keeps holds after the pass, and what holds
of the effects of every forwarded entry holds of all effects, if it can be put together. -/
theorem attemptForwardStored_rule {env : Nat → PassEnv} {P : Node → Prop}
    {R : List Effect → Prop} (nil : R []) (append : ∀ l l', R l → R l' → R (l ++ l'))
    (attempts : ∀ step n n' entry attempt, P n → entry ∈ n.storage.packetListHead →
      shouldAttemptForward (env step).attempt n entry.originalDest = .ok (attempt, n') → P n')
    (forwards : ∀ step n entry sent, P n → entry ∈ n.storage.packetListHead →
      Forwards cfg (env step) n entry sent → R sent)
    (h : dtnControllerAttemptForwardStored cfg env node = .ok (node', effects)) (hnode : P node) :
    P node' ∧ R effects := by
  have key (fuel step i : Nat) (node : Node) (effects : List Effect) (hnode : P node)
      (h : forwardFrom cfg env fuel step i node = .ok (node', effects)) : P node' ∧ R effects := by
    induction fuel generalizing step i node effects with
    | zero => cases h
    | succ fuel ih =>
        obtain ⟨rfl, rfl⟩ |
          ⟨entry, attempt, n, sent, j, later, hmem, hattempt, hsent, hlater, rfl⟩ :=
          forwardFrom_succ h
        · exact ⟨hnode, nil⟩
        have hn := attempts _ _ _ _ _ hnode hmem hattempt
        obtain ⟨hn', hr⟩ := ih _ _ _ _ hn hlater
        refine ⟨hn', append sent later ?_ hr⟩
        obtain rfl | ⟨hsame, hsent⟩ := hsent
        · exact nil
        · exact forwards step n entry sent hn (hsame ▸ hmem) hsent
  exact key _ _ _ _ _ hnode h

end
end LwipDtn
