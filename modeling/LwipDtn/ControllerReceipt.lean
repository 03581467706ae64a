import LwipDtn.CustodyIntact
import LwipDtn.StorageRuns
import LwipDtn.ControllerSteps

/-!
What becomes of a DTN packet on receipt. The packet is accounted for when it has been
sent on or stored intact, or refused by the storage. The conditions under which this is
so name every way in which a packet can get lost: a call that does not return, a copy of
an ICMPv6 packet that cannot be made, a rewriting that takes a part of the packet away,
and above all a send that fails on the direct path, which never falls back on the
storage.
-/

namespace LwipDtn
open Outcome Bytes BoundedFifo

def statusTypes : List UInt8 :=
  [icmp6TypeDtnPckReceived, icmp6TypeDtnPckForwarded, icmp6TypeDtnPckDelivered,
    icmp6TypeDtnPckDeleted]

/-- A packet for a DTN destination that is neither local nor a status message, in a
buffer with readable memory behind it. -/
structure ArrivesForDtn (cfg : Config) (env : IncomingEnv) (p : Pbuf) (dest : Ip6Addr) : Prop where
  layout : p.Pooled
  version : (p.payload.getD 0 0).toNat / 16 = 6
  wf : WellFormed p.bytes
  complete : HopByHopComplete p.bytes
  small : p.totLen ≤ 2048
  readable : p.totLen + 24 ≤ p.mem.length
  copyReadable : ∀ q, pbufClone env.store.copy p = some q → q.totLen + 24 ≤ q.mem.length
  destAddr : ip6AddrAt p.mem 24 = .ok dest
  notStatus : nexthOf p.bytes = ip6NexthIcmp6 → ip6Hlen < p.totLen → p.bytes.getD 40 0 ∉ statusTypes
  notLocal : cfg.isLocal dest = false
  dtn : dtnRoutingIsDtnDestination env.routing.contacts dest = true

/-- The packet has been sent to the next hop that the routing has answered, in the form in
which the rewriting left it. -/
structure SentOn (cfg : Config) (env : IncomingEnv) (p : Pbuf) (t : Transmission) : Prop where
  sent : t.sent = true
  next : ∃ hop, routeAnswer env.routing env.activeNow p = .ok (some hop) ∧ t.hop = hop.addr
  intact : ∃ r q, dtnUpdateOrAddCustodianOption env.rewrite p cfg.myAddr = .ok (r, q) ∧
    t.packet = q.bytes ∧ SentAs cfg.myAddr p.bytes r t.packet

/-- The packet is the last entry of the storage, as it came or without its hop-by-hop
header. -/
def StoredLast (node node' : Node) (p : Pbuf) (dest : Ip6Addr) : Prop :=
  ∃ e, node'.storage.packetListHead = node.storage.packetListHead ++ [e] ∧ e.originalDest = dest ∧
    (e.p.bytes = p.bytes ∨ Bare p.bytes e.p.bytes)

/-- The packet has been sent on, or is in the storage, or was refused by it. -/
def Accounted (cfg : Config) (env : IncomingEnv) (node node' : Node) (p : Pbuf) (dest : Ip6Addr)
    (effects : List Effect) : Prop :=
  (∃ t, Effect.forward t ∈ effects ∧ SentOn cfg env p t) ∨
  (Effect.store p.bytes true ∈ effects ∧ StoredLast node node' p dest) ∨
  Effect.store p.bytes false ∈ effects

/-- An ICMPv6 packet can be copied and the copy is not taken for a status message. -/
def PassesIcmp (env : IncomingEnv) (p : Pbuf) : Prop :=
  nexthOf p.bytes = ip6NexthIcmp6 → ∃ q type, pbufClone env.icmpClone p = some q ∧
    byteAt q.mem ip6Hlen = .ok type ∧ type ∉ statusTypes

/-- The acknowledgement returns: it cannot be made at all, or the walk over the
extension headers of the copy ends. -/
def AckSafe (env : IncomingEnv) (p : Pbuf) : Prop :=
  ∀ q, pbufClone env.ackClone p = some q →
    (pbufAlloc env.status.message (8 + (9 + quotedLen))).isSome →
    Run.Returns (dtnExtractCustodianOption q)

/-- The direct path sends the packet on: the rewriting returns and keeps the packet, and
the raw socket takes it. -/
structure DirectSafe (env : IncomingEnv) (p : Pbuf) : Prop where
  returns : RewriteSafe env.rewrite p
  keeps : RewriteKeeps env.rewrite p
  sendto : env.sendto = true
  fits : RewriteGrows env.rewrite p → p.totLen + 24 ≤ 2048

/-- The receipts on which nothing gets lost. -/
structure SafeReceipt (env : IncomingEnv) (node : Node) (p : Pbuf) : Prop where
  extract : Run.Returns (dtnExtractCustodianOption p)
  icmp : PassesIcmp env p
  routing : Run.Returns (routeAnswer env.routing env.activeNow p)
  direct : ∀ hop, routeAnswer env.routing env.activeNow p = .ok (some hop) → DirectSafe env p
  stored : routeAnswer env.routing env.activeNow p = .ok none →
    (dtnStorageIsFull node.storage = true ∨
      ∀ q, pbufClone env.store.copy p = some q → StripSafe env.store.strip q) ∧
    (StoreAccepts env.store node.storage p →
      StripKeeps env.store.strip p.bytes ∧ AckSafe env p)

section

variable {cfg : Config} {text : AddrText} {env : IncomingEnv} {node node' : Node} {p : Pbuf}
  {dest : Ip6Addr} {effects : List Effect}

theorem ArrivesForDtn.header (h : ArrivesForDtn cfg env p dest) : ip6Hlen ≤ p.len :=
  h.layout.le_len (by decide) (p.bytes_length ▸ h.wf.header)

theorem nexthOf_payload (h : ip6Hlen ≤ p.len) : nexthOf p.payload = nexthOf p.bytes := by
  have h6 : 6 < p.payload.length := Nat.lt_of_lt_of_le (by decide) h
  rw [nexthOf, nexthOf, Pbuf.bytes, List.getD_eq_getElem?_getD, List.getD_eq_getElem?_getD,
    List.getElem?_append_left h6]

theorem ip6AddrAt_returns {m : Bytes} {i : Nat} (h : i + 20 ≤ m.length) :
    ∃ a, ip6AddrAt m i = .ok a := by
  obtain ⟨raw, hraw, -⟩ := readBlock_of_le h
  have hlen := raw.2
  obtain ⟨addr, haddr, -⟩ := readBlock_of_le (m := raw.1) (i := 0) (n := 16) (by omega)
  have hzone : byteAt raw.1 16 = .ok raw.1[16] := byteAt_of_lt (by omega)
  obtain ⟨padding, hpadding, -⟩ := readBlock_of_le (m := raw.1) (i := 17) (n := 3) (by omega)
  exact ⟨⟨addr, raw.1[16], padding⟩, by
    simp only [ip6AddrAt, hraw, haddr, hzone, hpadding, Run.bind_ok, Run.pure_eq_ok]⟩

theorem routeQueryAt_returns {m : Bytes} (h : 8 ≤ m.length) (dest : Ip6Addr) (sender : Block 16) :
    ∃ q, routeQueryAt m dest sender = .ok q := by
  obtain ⟨word, hword, -⟩ := readBlock_of_le (m := m) (i := 0) (n := 4) (by omega)
  have h4 : byteAt m 4 = .ok m[4] := byteAt_of_lt (by omega)
  have h5 : byteAt m 5 = .ok m[5] := byteAt_of_lt (by omega)
  have h7 : byteAt m 7 = .ok m[7] := byteAt_of_lt (by omega)
  exact ⟨_, by simp only [routeQueryAt, hword, h4, h5, h7, Run.bind_ok]; rfl⟩

theorem icmpv6Process_unhandled {icmp : IcmpEnv} {q : Pbuf} :
    (∃ n, dtnIcmpv6Process icmp node q = .ok (false, n)) ↔
      ∃ type, byteAt q.mem 0 = .ok type ∧ type ∉ statusTypes := by
  constructor
  · rintro ⟨n, h⟩
    rw [dtnIcmpv6Process, Run.bind_eq_ok] at h
    obtain ⟨type, htype, h⟩ := h
    refine ⟨type, htype, ?_⟩
    split at h
    · simp only [Run.bind_eq_ok, Run.pure_eq_ok, Except.ok.injEq, Prod.mk.injEq, Bool.true_eq_false,
        false_and, and_false, exists_false] at h
    split at h
    · simp only [Run.bind_eq_ok, Run.pure_eq_ok, Except.ok.injEq, Prod.mk.injEq, Bool.true_eq_false,
        false_and, and_false, exists_false] at h
    · rename_i hreceived hothers
      rw [not_or, not_or] at hothers
      simp [statusTypes, hreceived, hothers]
  · rintro ⟨type, htype, hnot⟩
    simp only [statusTypes, List.mem_cons, List.not_mem_nil, or_false, not_or] at hnot
    exact ⟨node, by simp [dtnIcmpv6Process, htype, hnot]⟩

theorem removeHeader_of_le {n : Nat} (h : n ≤ p.len) :
    ∃ q, p.removeHeader n = some q ∧ q.mem = p.mem.drop n ∧ q.bytes = p.bytes.drop n ∧
      q.payload = p.payload.drop n := by
  refine ⟨_, dif_pos h, ?_, ?_, rfl⟩
  · rw [Pbuf.mem, Pbuf.mem, List.drop_append_of_le_length h]
  · rw [Pbuf.bytes, Pbuf.bytes, List.drop_append_of_le_length h]

theorem clone_removeHeader {heap : Heap} {q : Pbuf} (hclone : pbufClone heap p = some q)
    (tot : ip6Hlen ≤ p.totLen) :
    ∃ q', q.removeHeader ip6Hlen = some q' ∧ q'.mem = q.mem.drop ip6Hlen ∧
      q'.bytes = p.bytes.drop ip6Hlen ∧ q'.payload = p.bytes.drop ip6Hlen := by
  have hpayload := (pbufClone_payload hclone).1
  obtain ⟨q', hremove, hmem, hbytes, hpay⟩ := removeHeader_of_le (p := q) (n := ip6Hlen) (by
    rw [Pbuf.len, hpayload, Pbuf.bytes_length]
    exact tot)
  exact ⟨q', hremove, hmem, pbufClone_bytes hclone ▸ hbytes, hpayload ▸ hpay⟩

/-- The ICMPv6 branch lets a packet pass exactly when it can be copied and the first
byte of its message is no status type. -/
theorem consumeStatus_none (node : Node) (header : ip6Hlen ≤ p.len) :
    consumeStatus env node p = .ok none ↔ PassesIcmp env p := by
  have tot : ip6Hlen ≤ p.totLen := Nat.le_trans header (Nat.le_add_right _ _)
  rw [consumeStatus, nexthOf_payload header, PassesIcmp]
  by_cases hnexth : nexthOf p.bytes = ip6NexthIcmp6
  case neg => simp [hnexth]
  rw [if_neg (by simpa using hnexth)]
  simp only [hnexth, forall_true_left]
  cases hclone : pbufClone env.icmpClone p with
  | none => simp
  | some q =>
      obtain ⟨q', hremove, hmem, -⟩ := clone_removeHeader hclone tot
      have htype : byteAt q'.mem 0 = byteAt q.mem ip6Hlen := by
        rw [byteAt, byteAt, hmem, List.getElem?_drop, Nat.add_zero]
      have hunhandled := @icmpv6Process_unhandled node env.icmp q'
      rw [htype] at hunhandled
      simp only [Option.bind_some, hremove]
      rw [Run.bind_eq_ok]
      constructor
      · rintro ⟨⟨handled, n⟩, hprocess, h⟩
        cases handled with
        | true => simp at h
        | false =>
            obtain ⟨type, htype, hnot⟩ := hunhandled.mp ⟨n, hprocess⟩
            exact ⟨q, type, rfl, htype, hnot⟩
      · rintro ⟨_, type, hq, htype, hnot⟩
        cases hq
        obtain ⟨n, hprocess⟩ := hunhandled.mpr ⟨type, htype, hnot⟩
        exact ⟨(false, n), hprocess, by simp⟩

theorem processIncoming_of_passes (text : AddrText) (node : Node)
    (h : ArrivesForDtn cfg env p dest)
    (extract : Run.Returns (dtnExtractCustodianOption p)) (icmp : PassesIcmp env p) :
    dtnControllerProcessIncoming cfg text env node p = (do
      let answer ← routeAnswer env.routing env.activeNow p
      answer.elim (storeIncoming cfg text env node p dest) (forwardDirect cfg env node p)) := by
  have htot : ip6Hlen ≤ p.totLen := by
    have := h.wf.header
    rwa [Pbuf.bytes_length] at this
  have hmem := h.readable
  have h40 : 40 ≤ p.totLen := htot
  obtain ⟨src, hsrc⟩ := ip6AddrAt_returns (m := p.mem) (i := 8) (by omega)
  obtain ⟨custodian, hcust⟩ := extract
  obtain ⟨q, hq⟩ := routeQueryAt_returns (m := p.mem) (by omega) dest (custodian.getD src.addr)
  have hconsumed := (consumeStatus_none node h.header).mpr icmp
  rw [dtnControllerProcessIncoming, if_neg (Nat.not_lt.mpr h.header),
    if_neg (by simpa using h.version)]
  simp only [routeAnswer, hsrc, h.destAddr, hcust, Run.bind_ok, hconsumed, h.notLocal,
    Bool.false_eq_true, if_false, routeIncoming, h.dtn, if_true, hq]
  refine bind_congr fun answer => ?_
  cases answer <;> rfl

/-- Nothing happens to a packet that does not pass. -/
theorem passes_of_processIncoming (header : ip6Hlen ≤ p.len)
    (version : (p.payload.getD 0 0).toNat / 16 = 6) {node' : Node} {effects : List Effect}
    (hrun : dtnControllerProcessIncoming cfg text env node p = .ok (node', effects))
    (nonempty : effects ≠ []) : Run.Returns (dtnExtractCustodianOption p) ∧ PassesIcmp env p := by
  rw [dtnControllerProcessIncoming, if_neg (Nat.not_lt.mpr header),
    if_neg (by simpa using version)] at hrun
  simp only [Run.bind_eq_ok] at hrun
  obtain ⟨src, -, dest', -, custodian, hcust, consumed, hconsumed, hrun⟩ := hrun
  refine ⟨⟨custodian, hcust⟩, ?_⟩
  cases consumed with
  | some n =>
      cases hrun
      exact absurd rfl nonempty
  | none => exact (consumeStatus_none node header).mp hconsumed

theorem forwardDirect_form {hop : Ip6Addr}
    (h : forwardDirect cfg env node p hop = .ok (node', effects)) :
    node' = node ∧ ∃ t, effects = [.forward t] := by
  rw [forwardDirect, Run.bind_eq_ok] at h
  obtain ⟨⟨r, q⟩, -, h⟩ := h
  cases h
  exact ⟨rfl, _, rfl⟩

theorem forwardDirect_sends_iff (h : ArrivesForDtn cfg env p dest) {hop : Ip6Addr}
    (answer : routeAnswer env.routing env.activeNow p = .ok (some hop)) :
    (∃ t, forwardDirect cfg env node p hop = .ok (node, [.forward t]) ∧ SentOn cfg env p t) ↔
      DirectSafe env p := by
  have small := h.small
  have hread := h.readable
  constructor
  · rintro ⟨t, hrun, hsent, -, r, q, hupdate, hpacket, intact⟩
    have safe : RewriteSafe env.rewrite p := Classical.byContradiction fun stuck =>
      update_stuck cfg.myAddr h.layout h.wf h.complete h.readable stuck ⟨_, hupdate⟩
    obtain ⟨r', q', hupdate', rewritten⟩ := update_rewritten cfg.myAddr h.layout h.wf h.complete
      (by omega) h.readable safe
    cases hupdate.symm.trans hupdate'
    rw [forwardDirect, hupdate] at hrun
    cases hrun
    simp only [rawSocketSendIpv6, Bool.and_eq_true, decide_eq_true_eq] at hsent
    refine ⟨safe, (rewritten.sentAs_iff h.layout h.wf h.complete (by omega) (by omega)).mp intact,
      hsent.2, fun grows => ?_⟩
    rw [← (rewritten.length_le h.layout h.wf (by omega)).1 grows, Pbuf.bytes_length]
    exact hsent.1
  · intro safe
    obtain ⟨r, q, hupdate, rewritten⟩ := update_rewritten cfg.myAddr h.layout h.wf h.complete
      (by omega) h.readable safe.returns
    obtain ⟨hgrows, hstays⟩ := rewritten.length_le h.layout h.wf (by omega)
    rw [Pbuf.bytes_length] at hgrows hstays
    have hlen : q.totLen ≤ 2048 := by
      by_cases grows : RewriteGrows env.rewrite p
      · rw [hgrows grows]
        exact safe.fits grows
      · exact Nat.le_trans (hstays grows) small
    refine ⟨_, by rw [forwardDirect, hupdate]; rfl, ?_, ⟨hop, answer, rfl⟩, r, q, hupdate, rfl,
      (rewritten.sentAs_iff h.layout h.wf h.complete (by omega) (by omega)).mpr safe.keeps⟩
    simp [rawSocketSendIpv6, hlen, safe.sendto]

theorem forwardDirect_accounted (h : ArrivesForDtn cfg env p dest) {hop : Ip6Addr}
    (answer : routeAnswer env.routing env.activeNow p = .ok (some hop)) :
    (∃ node' effects, forwardDirect cfg env node p hop = .ok (node', effects) ∧
      Accounted cfg env node node' p dest effects) ↔ DirectSafe env p := by
  rw [← @forwardDirect_sends_iff cfg env node p dest h hop answer]
  constructor
  · rintro ⟨node', effects, hrun, hacc⟩
    obtain ⟨rfl, t', rfl⟩ := forwardDirect_form hrun
    simp only [Accounted, List.mem_singleton, reduceCtorEq, false_and, or_false] at hacc
    obtain ⟨t, ht, hsent⟩ := hacc
    cases ht
    exact ⟨_, hrun, hsent⟩
  · rintro ⟨t, hrun, hsent⟩
    exact ⟨node, _, hrun, .inl ⟨t, List.mem_singleton.mpr rfl, hsent⟩⟩

theorem pbufClone_totLen {heap : Heap} {q : Pbuf} (hclone : pbufClone heap p = some q) :
    q.totLen = p.totLen := by
  rw [← Pbuf.bytes_length, ← Pbuf.bytes_length, pbufClone_bytes hclone]

theorem clone_header {heap : Heap} {q : Pbuf} (hclone : pbufClone heap p = some q)
    (wf : WellFormed p.bytes) : ip6Hlen ≤ q.len ∧ WellFormed q.bytes := by
  rw [Pbuf.len, (pbufClone_payload hclone).1, pbufClone_bytes hclone]
  exact ⟨wf.header, wf⟩

theorem store_returns_iff (text : AddrText) (h : ArrivesForDtn cfg env p dest) :
    Run.Returns (dtnStorageStorePacket text env.store node.storage p dest) ↔
      dtnStorageIsFull node.storage = true ∨
        ∀ q, pbufClone env.store.copy p = some q → StripSafe env.store.strip q := by
  rw [dtnStorageStorePacket]
  cases dtnStorageIsFull node.storage with
  | true => simp
  | false =>
      cases hclone : pbufClone env.store.copy p with
      | none => simp
      | some q =>
          obtain ⟨header, wf⟩ := clone_header hclone h.wf
          have hstrip := strip_returns_iff env.store.strip header wf (h.copyReadable q hclone)
          simp only [Bool.false_eq_true, if_false, false_or, Option.some.injEq, forall_eq']
          rw [← hstrip, Run.returns_bind]
          refine exists_congr fun r => and_iff_left_of_imp fun _ => ?_
          split
          · exact ⟨_, rfl⟩
          · split <;> exact ⟨_, rfl⟩

theorem sendMessage_returns_iff (status : StatusEnv) (stored : List Bytes)
    (type code reason : UInt8) (src : 24 ≤ p.mem.length) :
    Run.Returns (dtnIcmpv6SendMessage cfg status stored p type code reason) ↔
      ((pbufAlloc status.message (8 + (9 + quotedLen))).isSome →
        Run.Returns (dtnExtractCustodianOption p)) := by
  rw [dtnIcmpv6SendMessage]
  cases pbufAlloc status.message (8 + (9 + quotedLen)) with
  | none => simp
  | some block =>
      obtain ⟨plen, hplen, -⟩ := readBlock_of_le (m := p.mem) (i := 4) (n := 2) (by omega)
      obtain ⟨addr, haddr, -⟩ := readBlock_of_le (m := p.mem) (i := 8) (n := 16) (by omega)
      simp only [hplen, Run.bind_ok, Option.isSome_some, forall_true_left]
      rw [Run.returns_bind]
      refine exists_congr fun c => and_iff_left_of_imp fun _ => ?_
      cases c with
      | none =>
          simp only [haddr, Run.bind_ok]
          split <;> exact ⟨_, rfl⟩
      | some c =>
          simp only [pure_bind]
          split <;> exact ⟨_, rfl⟩

theorem acknowledge_returns_iff (cfg : Config) (stored : List Bytes) (code : UInt8)
    (wf : WellFormed p.bytes) :
    Run.Returns (acknowledge cfg env.ackClone env.status stored p code) ↔ AckSafe env p := by
  rw [acknowledge, AckSafe]
  cases hclone : pbufClone env.ackClone p with
  | none => simp
  | some q =>
      obtain ⟨qheader, qwf⟩ := clone_header hclone wf
      have hmem : ip6Hlen ≤ q.mem.length := by
        rw [Pbuf.mem, List.length_append]
        exact Nat.le_trans qheader (Nat.le_add_right _ _)
      simp only [Option.some.injEq, forall_eq']
      exact sendMessage_returns_iff env.status stored _ code 0 (Nat.le_trans (by decide) hmem)

theorem store_last_iff (h : ArrivesForDtn cfg env p dest) {s : StorageFunction}
    (hstore : dtnStorageStorePacket text env.store node.storage p dest = .ok (true, s)) :
    StoredLast node { node with storage := s } p dest ↔ StripKeeps env.store.strip p.bytes := by
  obtain ⟨hfalse, -⟩ | ⟨-, -, copy, stripped, q, disk, hclone, hstrip, -, hs⟩ := store_cases hstore
  · cases hfalse
  obtain ⟨header, wf⟩ := clone_header hclone h.wf
  have hbytes := pbufClone_bytes hclone
  have htot := pbufClone_totLen hclone
  have hseen : copy.seen = copy.bytes := by
    rw [Pbuf.seen, Pbuf.mem, (pbufClone_payload hclone).1, htot, ← Pbuf.bytes_length,
      List.take_left, hbytes]
  have hlast : StoredLast node { node with storage := s } p dest ↔
      (q.bytes = p.bytes ∨ Bare p.bytes q.bytes) := by
    rw [hs]
    constructor
    · rintro ⟨e, he, -, hform⟩
      cases List.singleton_inj.mp (List.append_cancel_left he)
      exact hform
    · exact fun hform => ⟨_, rfl, rfl, hform⟩
  rw [hlast]
  have safe := (strip_returns_iff env.store.strip header wf (h.copyReadable copy hclone)).mp
    ⟨_, hstrip⟩
  obtain ⟨hkept, noMemory⟩ | ⟨first, long, memory, after, hl, hstripped⟩ :=
    strip_safe header wf (h.copyReadable copy hclone) safe
  · cases hstrip.symm.trans hkept
    refine ⟨fun _ first memory => ?_, fun _ => .inl hbytes⟩
    rw [← hbytes] at first memory
    rw [Pbuf.bytes_length, noMemory first] at memory
    cases memory
  · cases hstrip.symm.trans hstripped
    rw [StripKeeps, ← hbytes, Pbuf.single_bytes, Pbuf.bytes_length]
    have hread := h.copyReadable copy hclone
    have hbare := untagged_bare_iff (p := copy) (.inl (pbufClone_payload hclone).2) wf
      (hbytes ▸ h.complete) first long (by omega)
    have hshort : untagged copy.seen ≠ copy.bytes := fun heq => by
      have hlen := (untagged_wellFormed (seen_wellFormed (by omega) header wf)
        (by rw [Pbuf.seen_length (by omega)]; exact long)).2
      rw [heq, Pbuf.bytes_length, Pbuf.seen_length (by omega)] at hlen
      omega
    rw [or_iff_right hshort, hbare]
    exact ⟨fun hkeeps _ _ => hkeeps.1, fun hkeeps => ⟨hkeeps first memory, hseen⟩⟩

/-- An accepted packet is stored intact and acknowledged exactly if storing keeps it and
the acknowledgement returns. -/
theorem storeIncoming_stores_iff (h : ArrivesForDtn cfg env p dest) {s : StorageFunction}
    (hstore : dtnStorageStorePacket text env.store node.storage p dest = .ok (true, s)) :
    (∃ node' effects, storeIncoming cfg text env node p dest = .ok (node', effects) ∧
      StoredLast node node' p dest) ↔ StripKeeps env.store.strip p.bytes ∧ AckSafe env p := by
  rw [← store_last_iff h hstore, ← acknowledge_returns_iff cfg
    ({ node with storage := s }.stored) icmp6CodeDtnNoContact h.wf]
  simp only [storeIncoming, hstore, Run.bind_ok, if_true]
  constructor
  · rintro ⟨node', effects, hrun, hlast⟩
    rw [Run.bind_eq_ok] at hrun
    obtain ⟨ack, hack, hrun⟩ := hrun
    cases hrun
    exact ⟨hlast, ack, hack⟩
  · rintro ⟨hlast, ack, hack⟩
    exact ⟨_, _, by rw [hack]; rfl, hlast⟩

theorem storeIncoming_effects {s : StorageFunction} {accepted : Bool}
    (hstore : dtnStorageStorePacket text env.store node.storage p dest = .ok (accepted, s))
    (hrun : storeIncoming cfg text env node p dest = .ok (node', effects)) :
    Effect.store p.bytes accepted ∈ effects ∧ Effect.store p.bytes (!accepted) ∉ effects ∧
      (∀ t, Effect.forward t ∉ effects) ∧ node'.attempts = node.attempts := by
  simp only [storeIncoming, hstore, Run.bind_ok] at hrun
  cases accepted with
  | false =>
      cases hrun
      simp
  | true =>
      rw [if_pos rfl, Run.bind_eq_ok] at hrun
      obtain ⟨ack, hack, hrun⟩ := hrun
      cases hrun
      have hack := acknowledge_cases hack
      simp [hack.not_store, hack.not_forward]

theorem storeIncoming_accounted (h : ArrivesForDtn cfg env p dest) :
    (∃ node' effects, storeIncoming cfg text env node p dest = .ok (node', effects) ∧
      Accounted cfg env node node' p dest effects) ↔
    (dtnStorageIsFull node.storage = true ∨
      ∀ q, pbufClone env.store.copy p = some q → StripSafe env.store.strip q) ∧
    (StoreAccepts env.store node.storage p →
      StripKeeps env.store.strip p.bytes ∧ AckSafe env p) := by
  rw [← store_returns_iff text h, ← @storeAccepts_iff text env.store node.storage p dest]
  constructor
  · rintro ⟨node', effects, hrun, hacc⟩
    have hreturns : Run.Returns (dtnStorageStorePacket text env.store node.storage p dest) := by
      rw [storeIncoming, Run.bind_eq_ok] at hrun
      obtain ⟨r, hstore, -⟩ := hrun
      exact ⟨r, hstore⟩
    refine ⟨hreturns, ?_⟩
    rintro ⟨s, hstore⟩
    refine (storeIncoming_stores_iff h hstore).mp ⟨node', effects, hrun, ?_⟩
    obtain ⟨-, not_refused, not_forward, -⟩ := storeIncoming_effects hstore hrun
    obtain ⟨t, ht, -⟩ | ⟨-, hlast⟩ | hrefused := hacc
    · exact absurd ht (not_forward t)
    · exact hlast
    · exact absurd hrefused not_refused
  · rintro ⟨⟨⟨accepted, s⟩, hstore⟩, hsafe⟩
    cases accepted with
    | false =>
        have hrun : storeIncoming cfg text env node p dest =
            .ok ({ node with storage := s }, [.store p.bytes false]) := by
          simp only [storeIncoming, hstore, Run.bind_ok]
          rfl
        exact ⟨_, _, hrun, .inr (.inr (List.mem_singleton.mpr rfl))⟩
    | true =>
        obtain ⟨node', effects, hrun, hlast⟩ :=
          (storeIncoming_stores_iff h hstore).mpr (hsafe ⟨s, hstore⟩)
        exact ⟨node', effects, hrun, .inr (.inl ⟨(storeIncoming_effects hstore hrun).1, hlast⟩)⟩

end

/-- On receipt a DTN packet is sent on, stored or refused exactly when the receipt is
safe. -/
theorem receipt_accounted_iff (cfg : Config) (text : AddrText) (env : IncomingEnv) (node : Node)
    (p : Pbuf) (dest : Ip6Addr) (h : ArrivesForDtn cfg env p dest) :
    (∃ node' effects, dtnControllerProcessIncoming cfg text env node p = .ok (node', effects) ∧
      Accounted cfg env node node' p dest effects) ↔ SafeReceipt env node p := by
  constructor
  · rintro ⟨node', effects, hrun, hacc⟩
    have hne : effects ≠ [] := by
      rintro rfl
      simp [Accounted] at hacc
    obtain ⟨extract, icmp⟩ := passes_of_processIncoming h.header h.version hrun hne
    rw [processIncoming_of_passes text node h extract icmp, Run.bind_eq_ok] at hrun
    obtain ⟨answer, hanswer, hrun⟩ := hrun
    refine ⟨extract, icmp, ⟨answer, hanswer⟩, fun hop hhop => ?_, fun hnone => ?_⟩
    · cases hanswer.symm.trans hhop
      exact (forwardDirect_accounted h hanswer).mp ⟨node', effects, hrun, hacc⟩
    · cases hanswer.symm.trans hnone
      exact (storeIncoming_accounted h).mp ⟨node', effects, hrun, hacc⟩
  · intro safe
    obtain ⟨answer, hanswer⟩ := safe.routing
    rw [processIncoming_of_passes text node h safe.extract safe.icmp, hanswer, Run.bind_ok]
    cases answer with
    | some hop => exact (forwardDirect_accounted h hanswer).mpr (safe.direct hop hanswer)
    | none => exact (storeIncoming_accounted h).mpr (safe.stored hanswer)

/-! A node with one neighbour, to which a contact is open from the first second on. -/

def sampleConfig : Config := ⟨netAddr 0 2, [netAddr 1 2, netAddr 0x12 1]⟩

def neighbour : Ip6Addr := ⟨netAddr 0x12 2, 0, noPadding⟩

def farNode : Ip6Addr := ⟨netAddr 0x23 3, 0, noPadding⟩

def openContacts : List ContactInfo :=
  [⟨neighbour, ⟨netAddr 0x12 1, 0, noPadding⟩, 1000, 10000, true⟩,
    ⟨farNode, ⟨netAddr 0x23 2, 0, noPadding⟩, 1000, 10000, true⟩]

/-- A packet to the far node without an upper-layer header that looks like an
extension header. -/
def quietPacket : Bytes :=
  [0x60, 0, 0, 0, 0, 8, 17, 64] ++ (netAddr 1 1).1 ++ (netAddr 0x23 3).1 ++
    [59, 0, 0x20, 0, 0, 8, 0, 0]

/-- Its destination as the controller copies it: the byte after the address becomes the
zone. -/
def quietDest : Ip6Addr := ⟨netAddr 0x23 3, 59, ⟨[0, 0x20, 0], rfl⟩⟩

theorem quietPacket_length_lt : quietPacket.length < 65536 := by decide

def quietPbuf : Pbuf := .single quietPacket (List.replicate 64 0) quietPacket_length_lt

def emptyNode : Node := ⟨emptyStorage, dtnControllerCreate⟩

def statusAt (now : UInt32) : StatusEnv := ⟨smallHeap, now, ⟨[0, 0], rfl⟩, smallHeap, true⟩

/-- A message about this packet, sent 59 milliseconds after the start. -/
def strayStatus (dest : Block 16) : Bytes :=
  statusPacket ⟨netAddr 0x12 2, []⟩ (statusAt 59) icmp6TypeDtnPckReceived
    icmp6CodeDtnNoInfo 0 dest ⟨[8, 0], rfl⟩ quietPacket []

def incomingAt (now : UInt32) (sendto : Bool) : IncomingEnv where
  icmpClone := smallHeap
  icmp := ⟨smallHeap, ⟨List.replicate 32 0, rfl⟩, true⟩
  ackClone := smallHeap
  status := statusAt now
  routing := ⟨openContacts, fun _ => .ok (some neighbour)⟩
  activeNow := now
  rewrite := ⟨smallHeap, smallHeap⟩
  store := calmEnv now
  sendto := sendto

theorem quiet_arrives (sendto : Bool) :
    ArrivesForDtn sampleConfig (incomingAt 2000 sendto) quietPbuf quietDest where
  layout := .inl rfl
  version := by decide
  wf := by decide
  complete := fun first => absurd first (by decide)
  small := by decide
  readable := by decide
  copyReadable := by
    rintro q hq
    cases hq
    decide
  destAddr := rfl
  notStatus := by decide
  notLocal := rfl
  dtn := rfl

/-- A send that fails on the direct path loses the packet. -/
theorem failed_send_loses_packet :
    ∃ node' effects,
      ArrivesForDtn sampleConfig (incomingAt 2000 false) quietPbuf quietDest ∧
      dtnControllerProcessIncoming sampleConfig hexAddrText (incomingAt 2000 false) emptyNode
        quietPbuf = .ok (node', effects) ∧
      ¬ Accounted sampleConfig (incomingAt 2000 false) emptyNode node' quietPbuf quietDest
        effects := by
  refine ⟨emptyNode, [.forward ⟨tagged quietPacket sampleConfig.myAddr, neighbour.addr, false, []⟩],
    quiet_arrives false, by decide +kernel, ?_⟩
  rintro (⟨t, ht, hsent, -⟩ | ⟨ht, -⟩ | ht)
  · cases List.mem_singleton.mp ht
    cases hsent
  · cases List.mem_singleton.mp ht
  · cases List.mem_singleton.mp ht

theorem receipt_accounted_sample :
    ∃ node' effects,
      dtnControllerProcessIncoming sampleConfig hexAddrText (incomingAt 2000 true) emptyNode
        quietPbuf = .ok (node', effects) ∧
      Accounted sampleConfig (incomingAt 2000 true) emptyNode node' quietPbuf quietDest
        effects := by
  refine (receipt_accounted_iff sampleConfig hexAddrText (incomingAt 2000 true) emptyNode quietPbuf
    quietDest (quiet_arrives true)).mpr ⟨⟨none, rfl⟩, fun h => absurd h (by decide),
    ⟨some neighbour, rfl⟩, fun hop hhop => ?_, fun hnone => ?_⟩
  · have plain : nexthOf quietPbuf.bytes ≠ ip6NexthHopbyhop := by decide
    exact ⟨.inr (.inl plain), ⟨fun h => absurd h.1 plain, fun _ => rfl,
      fun h => absurd h plain⟩, rfl, fun _ => by decide⟩
  · cases hnone

end LwipDtn
