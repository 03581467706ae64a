import LwipDtn.ControllerRuns
import Mathlib.Data.List.Count

/-!
Custody hand-off between two nodes. The first node sends what it has stored, the second
acknowledges what it has stored or delivered, and an acknowledgement removes a packet
from the storage of the first. The message quotes only the start of the packet, and the
first stored packet that shares the source and the protocol of the quote is removed,
which need not be the packet that was acknowledged.
-/

namespace LwipDtn
open Outcome Bytes BoundedFifo Runs

def upperNexth (b : Bytes) : UInt8 :=
  if nexthOf b = ip6NexthHopbyhop then b.getD ip6Hlen 0 else nexthOf b

/-- What the deletion compares at least: the source, and the protocol or the destination. -/
def MatchesQuoted (quote b : Bytes) : Prop :=
  srcOf b = srcOf quote ∧ (nexthOf b = upperNexth quote ∨ destOf b = destOf quote)

instance (quote b : Bytes) : Decidable (MatchesQuoted quote b) :=
  inferInstanceAs (Decidable (_ ∧ (_ ∨ _)))

/-! The removal behind a received-message. -/

section Removal

theorem getD_take (b : Bytes) {i n : Nat} (h : i < n) : (b.take n).getD i 0 = b.getD i 0 := by
  rw [List.getD_eq_getElem?_getD, List.getD_eq_getElem?_getD, List.getElem?_take_of_lt h]

theorem nexthOf_take (b : Bytes) {n : Nat} (h : 6 < n) : nexthOf (b.take n) = nexthOf b :=
  getD_take b h

/-- Whether a packet matches a quote is seen from the bytes that a message carries. -/
theorem matchesQuoted_take {q b : Bytes} :
    MatchesQuoted (q.take quotedLen) b ↔ MatchesQuoted q b := by
  rw [MatchesQuoted, MatchesQuoted, upperNexth, upperNexth, srcOf_take q (by decide),
    destOf_take q (by decide), nexthOf_take q (by decide), getD_take q (by decide)]

theorem matchesHeader_quoted {quote : Bytes} {e : StoredPacketEntry}
    (h : matchesHeader (quote.take ip6Hlen) e = true) : MatchesQuoted quote e.p.bytes := by
  simp only [matchesHeader, decide_eq_true_eq] at h
  obtain ⟨header, hsrc, hdest⟩ := h
  rw [srcOf_payload header, srcOf_take quote (by decide)] at hsrc
  rw [destOf_payload header, destOf_take quote (by decide)] at hdest
  exact ⟨hsrc, .inr hdest⟩

theorem quotedPacket_fields (m : Bytes) :
    (quotedPacket m).hdr = (m.drop 57).take ip6Hlen ∧
      (quotedPacket m).nexth = upperNexth (m.drop 57) := by
  have h97 : m.getD 97 0 = (m.drop 57).getD ip6Hlen 0 := by
    rw [List.getD_eq_getElem?_getD, List.getD_eq_getElem?_getD, List.getElem?_drop]
    rfl
  rw [quotedPacket, upperNexth, nexthOf_take _ (by decide), h97]
  split
  · exact ⟨rfl, rfl⟩
  · exact ⟨rfl, rfl⟩

theorem matchesQuote_quoted {icmp : Pbuf} {e : StoredPacketEntry}
    (h : matchesQuote icmp (quotedPacket icmp.payload) e = .ok true) :
    MatchesQuoted (icmp.payload.drop 57) e.p.bytes := by
  obtain ⟨hhdr, hnexth⟩ := quotedPacket_fields icmp.payload
  rw [matchesQuote] at h
  split at h
  · cases h
  rename_i hsame
  obtain ⟨header, hsrc⟩ := not_not.mp hsame
  rw [srcOf_payload header, hhdr, srcOf_take _ (by decide)] at hsrc
  split at h
  · cases h
  obtain ⟨payload, -, h⟩ := Run.bind_eq_ok.mp h
  have h := Except.ok.inj h
  rw [Bool.and_eq_true, beq_iff_eq, nexthOf_payload header, hnexth] at h
  exact ⟨hsrc, .inl h.2⟩

theorem acceptsQuote_quoted {icmp : Pbuf} {e : StoredPacketEntry} (h : AcceptsQuote icmp e) :
    MatchesQuoted (icmp.payload.drop 57) e.p.bytes := by
  rw [AcceptsQuote] at h
  split at h
  · rw [(quotedPacket_fields _).1] at h
    exact matchesHeader_quoted h
  · exact matchesQuote_quoted h

theorem deleteAcknowledged_cases {env : IcmpEnv} {s s' : StorageFunction} {q : Pbuf}
    (long : 57 ≤ q.len) (h : deleteAcknowledged env s q = .ok s') :
    s' = s ∨ ∃ e rest, s' = s.unlinked env.removed e rest ∧ s.packetListHead.Perm (e :: rest) ∧
      MatchesQuoted (q.bytes.drop 17) e.p.bytes := by
  obtain hsame | ⟨e, rest, hs, htakes, hquoted⟩ := deleteAcknowledged_inv h
  · exact .inl hsame
  refine .inr ⟨e, rest, hs, htakes.perm, ?_⟩
  obtain ⟨-, icmp, hpayload, haccepts⟩ | ⟨hdr, hread, hmatches⟩ := hquoted
  · exact hpayload ▸ acceptsQuote_quoted haccepts
  · have hquote : hdr.1 = (q.bytes.drop 17).take ip6Hlen := by
      have hlen : 57 ≤ q.payload.length := long
      have hdrop : ip6Hlen ≤ (q.payload.drop 17).length := by
        rw [List.length_drop, ip6Hlen]
        omega
      rw [(readBlock_eq_ok.mp hread).2, Pbuf.mem, Pbuf.bytes,
        List.drop_append_of_le_length (by omega), List.drop_append_of_le_length (by omega),
        List.take_append_of_le_length hdrop, List.take_append_of_le_length hdrop]
    exact matchesHeader_quoted (hquote ▸ hmatches)

/-- The packet may be taken for a received-message. -/
def MayAcknowledge (m : Bytes) : Prop :=
  nexthOf m = ip6NexthIcmp6 ∧ (ip6Hlen < m.length → m.getD ip6Hlen 0 = icmp6TypeDtnPckReceived)

theorem consumeStatus_cases {env : IncomingEnv} {node node' : Node} {p : Pbuf}
    (header : ip6Hlen ≤ p.len) (h : consumeStatus env node p = .ok (some node')) :
    node'.storage = node.storage ∨ MayAcknowledge p.bytes ∧ (97 ≤ p.totLen →
      node'.storage = node.storage ∨ ∃ e rest, node'.storage.packetListHead = rest ∧
        node.storage.packetListHead.Perm (e :: rest) ∧
        MatchesQuoted (p.bytes.drop 57) e.p.bytes) := by
  have tot : ip6Hlen ≤ p.totLen := Nat.le_trans header (Nat.le_add_right _ _)
  obtain ⟨hnexth, rfl | ⟨q', hq', hprocess⟩⟩ := consumeStatus_inv h
  · exact .inl rfl
  rw [nexthOf_payload header] at hnexth
  obtain ⟨q, hclone, hremove⟩ := Option.bind_eq_some_iff.mp hq'
  obtain ⟨_, hremove', hmem, hbytes, hpayload⟩ := clone_removeHeader hclone tot
  cases hremove.symm.trans hremove'
  obtain rfl | ⟨-, htype, hdelete, -⟩ := icmpv6Process_inv hprocess
  · exact .inl rfl
  obtain ⟨behind, hb, rfl⟩ := pbufClone_single hclone
  refine .inr ⟨⟨hnexth, fun long => ?_⟩, fun long => ?_⟩
  · have htype' : byteAt (Pbuf.single p.bytes behind hb).mem ip6Hlen =
        .ok icmp6TypeDtnPckReceived := by
      rw [← htype, byteAt, byteAt, hmem, List.getElem?_drop, Nat.add_zero]
    rw [byteAt_mem_single behind hb long] at htype'
    exact Except.ok.inj htype'
  · have hlen : 57 ≤ q'.len := by
      rw [Pbuf.len, hpayload, List.length_drop, Pbuf.bytes_length, ip6Hlen]
      omega
    obtain hsame | ⟨e, rest, hs, hperm, hmatch⟩ := deleteAcknowledged_cases hlen hdelete
    · exact .inl hsame
    · refine .inr ⟨e, rest, by rw [hs]; rfl, hperm, ?_⟩
      rwa [hbytes, List.drop_drop] at hmatch

theorem count_lt_of_mem_diff {l l' : List Bytes} {x : Bytes} (h : x ∈ l.diff l') :
    l'.count x < l.count x := by
  have hpos := List.count_pos_iff.mpr h
  rw [List.count_diff] at hpos
  omega

/-- The handling of a packet takes nothing out of the storage, unless the packet is a
received-message. -/
theorem Incoming.released {cfg : Config} {text : AddrText} {env : IncomingEnv} {node node' : Node}
    {p : Pbuf} {effects : List Effect} {x : Bytes}
    (h : Incoming cfg text env node p node' effects) (hx : x ∈ node.stored.diff node'.stored) :
    MayAcknowledge p.bytes ∧
      (97 ≤ p.totLen → x ∈ node.stored ∧ MatchesQuoted (p.bytes.drop 57) x) := by
  have hcount := count_lt_of_mem_diff hx
  have same (hlist : node'.storage.packetListHead = node.storage.packetListHead) : False := by
    simp only [Node.stored, hlist, Nat.lt_irrefl] at hcount
  cases h with
  | dropped => exact (same rfl).elim
  | delivered => exact (same rfl).elim
  | forwarded => exact (same rfl).elim
  | relayed => exact (same rfl).elim
  | refused hstore =>
      obtain ⟨-, hs | ⟨-, _, _, disk, -, hs⟩⟩ | ⟨htrue, -⟩ := store_cases hstore
      · exact (same (by rw [hs])).elim
      · exact (same (by rw [hs])).elim
      · cases htrue
  | stored _ hstore _ =>
      obtain ⟨hfalse, -⟩ | ⟨-, -, _, _, q, disk, -, -, -, hs⟩ := store_cases hstore
      · cases hfalse
      · simp only [Node.stored, hs, StorageFunction.append, List.map_append, List.count_append]
          at hcount
        omega
  | consumed header hstatus =>
      obtain hs | ⟨may, hmatch⟩ := consumeStatus_cases header hstatus
      · exact (same (by rw [hs])).elim
      refine ⟨may, fun long => ?_⟩
      obtain hs | ⟨e, rest, hrest, hperm, hmatch⟩ := hmatch long
      · exact (same (by rw [hs])).elim
      have hstored : node.stored.Perm (e.p.bytes :: node'.stored) := by
        rw [Node.stored, Node.stored, hrest]
        exact hperm.map fun e => e.p.bytes
      rw [hstored.count_eq, List.count_cons] at hcount
      have hxe : e.p.bytes = x := by
        refine Classical.byContradiction fun hne => ?_
        rw [if_neg (by simpa using hne)] at hcount
        omega
      subst hxe
      exact ⟨hstored.mem_iff.mpr List.mem_cons_self, hmatch⟩

end Removal

/-! Two nodes. -/

structure Parties where
  a : Config
  b : Config
  text : AddrText

/-- Both nodes, and the packets that left the storage of the first while it handled an
incoming packet. -/
structure Handoff where
  a : NodeTrace
  b : NodeTrace
  released : List Bytes

inductive HandoffEvent where
  | atA (event : NodeEvent)
  | atB (event : NodeEvent)

def NodeEvent.releases (event : NodeEvent) (before after : List Bytes) : List Bytes :=
  match event with
  | .incoming _ _ => before.diff after
  | .pass _ => []

def Handoff.next (c : Parties) (w : Handoff) : HandoffEvent → Run Handoff
  | .atA event => do
      let a ← w.a.next c.a c.text event
      return ⟨a, w.b, w.released ++ event.releases w.a.node.stored a.node.stored⟩
  | .atB event => do
      let b ← w.b.next c.b c.text event
      return ⟨w.a, b, w.released⟩

def handoffSystem (c : Parties) : System Handoff HandoffEvent where
  start w := w.a.Fresh ∧ w.b.Fresh ∧ w.released = []
  step w event w' := w.next c event = .ok w'

def transmitted (log : List Effect) : List Bytes :=
  log.filterMap fun e => (e.transmission.filter (·.sent)).map (·.packet)

/-- The second node receives what the first has sent, and the received-messages that
reach the first are among those that the second has sent. Messages may be lost,
repeated and reordered, and any other packet may reach the first node. -/
def InFlight (w : Handoff) : HandoffEvent → Prop
  | .atA (.incoming _ p) => MayAcknowledge p.bytes → p.bytes ∈ transmitted w.b.log
  | .atB (.incoming _ p) => p.bytes ∈ transmitted w.a.log
  | .atA (.pass _) => True
  | .atB (.pass _) => True

instance (b : Bytes) : Decidable (CustodyFirst b) := inferInstanceAs (Decidable (_ ∧ _ ∧ _))

/-- The packet after removing its custody header. -/
def withoutCustody (b : Bytes) : Bytes :=
  if CustodyFirst b ∧ 64 ≤ b.length then untagged b else b

/-- The packet that a node has stored, or delivered to its local stack. -/
def Effect.takenOver : Effect → Option Bytes
  | .store packet true => some packet
  | .deliver packet => some packet
  | _ => none

/-- Every released packet has been taken over by the second node. -/
def HandedOff (w : Handoff) : Prop :=
  ∀ x ∈ w.released, ∃ q ∈ w.b.log.filterMap Effect.takenOver, withoutCustody q = x

instance (w : Handoff) : Decidable (HandedOff w) :=
  inferInstanceAs (Decidable (∀ x ∈ w.released, ∃ q ∈ w.b.log.filterMap Effect.takenOver, _))

/-- A received-message that reaches the first node was made by the second, about a
packet that fills the quote; and no stored packet but this one has its source together
with its protocol or its destination. -/
def AckUnambiguous (w : Handoff) : HandoffEvent → Prop
  | .atA (.incoming _ p) => MayAcknowledge p.bytes → ∃ t q, Effect.status t q ∈ w.b.log ∧
      t.packet = p.bytes ∧ quotedLen ≤ q.length ∧
      ∀ x ∈ w.a.node.stored, MatchesQuoted q x → x = withoutCustody q
  | .atA (.pass _) => True
  | .atB _ => True

section Safety

variable {cfg : Config} {text : AddrText} {effects : List Effect}

/-- A status message is about a packet that the node has taken over, and quotes it. -/
def StatusSound (log : List Effect) : Prop :=
  ∀ t q, Effect.status t q ∈ log → q ∈ log.filterMap Effect.takenOver ∧
    (quotedLen ≤ q.length → t.packet.length = 105 ∧ t.packet.drop 57 = q.take quotedLen)

theorem StatusSound.append {log log' : List Effect} (h : StatusSound log) (h' : StatusSound log') :
    StatusSound (log ++ log') := by
  intro t q hmem
  rw [List.filterMap_append]
  rcases List.mem_append.mp hmem with hmem | hmem
  · exact (h t q hmem).imp (List.mem_append_left _) id
  · exact (h' t q hmem).imp (List.mem_append_right _) id

theorem statusPacket_quote {env : StatusEnv} {type code reason : UInt8} {dest : Block 16}
    {plen : Block 2} {quote old : Bytes} (full : quote.length + old.length = quotedLen) :
    (statusPacket cfg env type code reason dest plen quote old).length = 105 ∧
      (statusPacket cfg env type code reason dest plen quote old).drop 57 = quote ++ old := by
  have hfront : ([0x60, 0, 0, 0] ++ be16 65 ++ [ip6NexthIcmp6, 255] ++ cfg.myAddr.1 ++ dest.1 ++
      ([type, code] ++ env.chksum.1 ++ [0, 0, 0, 0]) ++
      (le32 env.now ++ [0, 0] ++ plen.1 ++ [reason])).length = 57 := by
    simp [be16, le32, cfg.myAddr.2, dest.2, env.chksum.2, plen.2]
  rw [statusPacket]
  refine ⟨?_, List.drop_left' hfront⟩
  rw [List.length_append, hfront, List.length_append, full]
  rfl

theorem Acknowledges.quotes {stored : List Bytes} {packet : Bytes}
    (h : Acknowledges cfg stored packet effects) {t : Transmission} {q : Bytes}
    (hmem : Effect.status t q ∈ effects) : q = packet ∧
      (quotedLen ≤ q.length → t.packet.length = 105 ∧ t.packet.drop 57 = q.take quotedLen) := by
  cases h with
  | none => cases hmem
  | sent env code dest plen old full =>
      cases List.mem_singleton.mp hmem
      refine ⟨rfl, fun long => ?_⟩
      obtain ⟨hlength, hdrop⟩ :=
        @statusPacket_quote cfg env icmp6TypeDtnPckReceived code 0 dest plen _ old full
      have hold : old = [] := by
        rw [List.length_take, Nat.min_eq_left long] at full
        exact List.length_eq_zero_iff.mp (by omega)
      exact ⟨hlength, by rw [hdrop, hold, List.append_nil]⟩

theorem Incoming.statusSound {env : IncomingEnv} {node node' : Node} {p : Pbuf}
    (h : Incoming cfg text env node p node' effects) : StatusSound effects := by
  intro t q hmem
  cases h with
  | dropped => cases hmem
  | consumed => cases hmem
  | forwarded => simp at hmem
  | refused => simp at hmem
  | relayed => simp at hmem
  | delivered _ hack =>
      have hmem : Effect.status t q ∈ _ := (List.mem_append.mp hmem).resolve_right (by simp)
      obtain ⟨rfl, hquotes⟩ := hack.quotes hmem
      exact ⟨List.mem_filterMap.mpr ⟨.deliver _, by simp, rfl⟩, hquotes⟩
  | stored _ _ hack =>
      have hmem : Effect.status t q ∈ _ := (List.mem_cons.mp hmem).resolve_left (by simp)
      obtain ⟨rfl, hquotes⟩ := hack.quotes hmem
      exact ⟨List.mem_filterMap.mpr ⟨.store _ true, by simp, rfl⟩, hquotes⟩

theorem Forwards.statusSound {env : PassEnv} {node : Node} {entry : StoredPacketEntry}
    (h : Forwards cfg env node entry effects) : StatusSound effects := by
  intro t q hmem
  cases h with
  | skipped => cases hmem
  | forwarded => simp at hmem
  | delivered _ hack =>
      have hmem : Effect.status t q ∈ _ := (List.mem_append.mp hmem).resolve_right (by simp)
      obtain ⟨rfl, hquotes⟩ := hack.quotes hmem
      exact ⟨List.mem_filterMap.mpr ⟨.deliver _, by simp, rfl⟩, hquotes⟩

theorem NodeEvent.statusSound {node node' : Node} {event : NodeEvent}
    (h : event.run cfg text node = .ok (node', effects)) : StatusSound effects := by
  cases event with
  | incoming env p => exact (processIncoming_cases h).statusSound
  | pass env =>
      exact (attemptForwardStored_rule (P := fun _ => True) (R := StatusSound) (by nofun)
        (fun _ _ => StatusSound.append) (fun _ _ _ _ _ _ _ _ => trivial)
        (fun _ _ _ _ _ _ hsent => hsent.statusSound) h trivial).2

/-- What the first node releases is the packet that the message is about. -/
theorem released_acknowledged {w : Handoff} {a : NodeTrace} {event : NodeEvent} {x : Bytes}
    (sound : StatusSound w.b.log) (clear : AckUnambiguous w (.atA event))
    (h : w.a.next cfg text event = .ok a)
    (hx : x ∈ event.releases w.a.node.stored a.node.stored) :
    ∃ q ∈ w.b.log.filterMap Effect.takenOver, withoutCustody q = x := by
  obtain ⟨effects, hrun, -⟩ := NodeTrace.next_cases h
  cases event with
  | pass env => cases hx
  | incoming env p =>
      obtain ⟨may, hmatch⟩ := (processIncoming_cases hrun).released hx
      obtain ⟨t, q, hstatus, hpacket, hlong, hunique⟩ := clear may
      obtain ⟨htook, hquotes⟩ := sound t q hstatus
      obtain ⟨hlength, hdrop⟩ := hquotes hlong
      rw [hpacket] at hlength hdrop
      obtain ⟨hstored, hmatch⟩ := hmatch (by rw [← Pbuf.bytes_length]; omega)
      rw [hdrop, matchesQuoted_take] at hmatch
      exact ⟨q, htook, (hunique x hstored hmatch).symm⟩

end Safety

/-- In every run in which the acknowledgements are unambiguous, the first node releases
only packets that the second has stored or delivered. -/
theorem custody_handoff_safe (c : Parties) (w : Handoff)
    (h : (handoffSystem c).Reaches AckUnambiguous w) : HandedOff w := by
  refine (h.invariant (P := fun w => StatusSound w.b.log ∧ HandedOff w) ?_ ?_).2
  · rintro w ⟨-, ⟨-, hlog⟩, hreleased⟩
    rw [HandedOff, hlog, hreleased]
    exact ⟨by nofun, by nofun⟩
  · rintro w event w' ⟨sound, handed⟩ clear hnext
    cases event with
    | atA event =>
        obtain ⟨a, ha, hw⟩ := Run.bind_eq_ok.mp hnext
        cases hw
        refine ⟨sound, fun x hx => ?_⟩
        exact (List.mem_append.mp hx).elim (handed x) (released_acknowledged sound clear ha)
    | atB event =>
        obtain ⟨b, hb, hw⟩ := Run.bind_eq_ok.mp hnext
        cases hw
        obtain ⟨effects, hrun, hlog⟩ := NodeTrace.next_cases hb
        refine ⟨?_, fun x hx => ?_⟩
        · rw [hlog]
          exact sound.append (NodeEvent.statusSound hrun)
        · obtain ⟨q, htaken, hq⟩ := handed x hx
          rw [hlog, List.filterMap_append]
          exact ⟨q, List.mem_append_left _ htaken, hq⟩

def Handoff.after (c : Parties) (w : Handoff) (event : HandoffEvent) : Handoff :=
  (w.next c event).toOption.getD w

theorem Handoff.after_reached {c : Parties} {meets : Handoff → HandoffEvent → Prop} {w : Handoff}
    (run : (handoffSystem c).Reaches meets w) (event : HandoffEvent) (condition : meets w event)
    (returns : Run.Returns (w.next c event)) :
    (handoffSystem c).Reaches meets (w.after c event) := by
  obtain ⟨w', h⟩ := returns
  rw [after, h]
  exact run.step condition h

/-! Two packets of one source for different destinations, of which one can be forwarded. -/

def sampleParties : Parties :=
  ⟨sampleConfig, ⟨netAddr 0 3, [netAddr 0x12 2, netAddr 0x23 2]⟩, hexAddrText⟩

def otherPacket : Bytes :=
  [0x60, 0, 0, 0, 0, 8, 17, 64] ++ (netAddr 1 1).1 ++ (netAddr 0x23 2).1 ++
    [59, 0, 0x20, 0, 0, 8, 0, 0]

theorem otherPacket_length_lt : otherPacket.length < 65536 := by decide

def handoffRouting : RoutingView where
  contacts := openContacts ++ [⟨⟨netAddr 0x23 2, 0, noPadding⟩, farNode, 1000, 10000, true⟩]
  cgr q := .ok (if q.dest.addr = farNode.addr then some neighbour else none)

def arrivesAt (now : UInt32) (packet : Bytes) (h : packet.length < 65536) : NodeEvent :=
  .incoming { incomingAt now true with routing := handoffRouting }
    (.single packet (List.replicate 64 0) h)

def forwardPass : NodeEvent := .pass fun _ => { passAt 2000 with routing := handoffRouting }

/-- The forwarded packet at the second node, which has no next hop for it. -/
def arrivesNext : NodeEvent :=
  .incoming { incomingAt 2001 true with routing :=
    { handoffRouting with cgr := fun _ => .ok none } }
    (.single (tagged quietPacket sampleConfig.myAddr) (List.replicate 64 0) (by decide))

def ackMessage : Bytes :=
  statusPacket sampleParties.b (statusAt 2001) icmp6TypeDtnPckReceived icmp6CodeDtnNoContact 0
    sampleParties.a.myAddr ⟨[0, 32], rfl⟩ ((tagged quietPacket sampleParties.a.myAddr).take 48) []

theorem ackMessage_length_lt : ackMessage.length < 65536 := by decide

def freshHandoff : Handoff := ⟨⟨emptyNode, []⟩, ⟨emptyNode, []⟩, []⟩

theorem freshHandoff_reached (meets : Handoff → HandoffEvent → Prop) :
    (handoffSystem sampleParties).Reaches meets freshHandoff :=
  .start ⟨⟨⟨rfl, [], emptyEnv, rfl⟩, rfl⟩, ⟨⟨rfl, [], emptyEnv, rfl⟩, rfl⟩, rfl⟩

/-- The first node forwards what it can and the second stores it; then the first node
receives the acknowledgement. -/
def acknowledgedAfter (w : Handoff) : Handoff :=
  ((w.after sampleParties (.atA forwardPass)).after sampleParties
    (.atB arrivesNext)).after sampleParties (.atA (arrivesAt 2002 ackMessage ackMessage_length_lt))

def otherStored : Handoff :=
  freshHandoff.after sampleParties (.atA (arrivesAt 7 otherPacket otherPacket_length_lt))

def bothStored : Handoff :=
  otherStored.after sampleParties (.atA (arrivesAt 8 quietPacket quietPacket_length_lt))

/-- The second packet is forwarded and acknowledged, and the first one is removed. -/
theorem ack_removes_other_packet :
    ∃ w, (handoffSystem sampleParties).Reaches InFlight w ∧ ¬ HandedOff w := by
  have hother : (handoffSystem sampleParties).Reaches InFlight otherStored :=
    Handoff.after_reached (freshHandoff_reached _) _ (fun may => absurd may.1 (by decide))
      (by decide +kernel)
  have hboth : (handoffSystem sampleParties).Reaches InFlight bothStored :=
    Handoff.after_reached hother _ (fun may => absurd may.1 (by decide)) (by decide +kernel)
  have hforwarded := Handoff.after_reached hboth (.atA forwardPass) trivial (by decide +kernel)
  have htaken := Handoff.after_reached hforwarded (.atB arrivesNext)
    (show _ ∈ transmitted _ by decide +kernel) (by decide +kernel)
  refine ⟨acknowledgedAfter bothStored, Handoff.after_reached htaken _
    (fun _ => show _ ∈ transmitted _ by decide +kernel) (by decide +kernel), by decide +kernel⟩

def quietStored : Handoff :=
  freshHandoff.after sampleParties (.atA (arrivesAt 8 quietPacket quietPacket_length_lt))

theorem custody_handoff_safe_alone :
    ∃ w, (handoffSystem sampleParties).Reaches AckUnambiguous w ∧ w.released = [quietPacket] ∧
      HandedOff w := by
  have hquiet : (handoffSystem sampleParties).Reaches AckUnambiguous quietStored :=
    Handoff.after_reached (freshHandoff_reached _) _ (fun may => absurd may.1 (by decide))
      (by decide +kernel)
  have hforwarded := Handoff.after_reached hquiet (.atA forwardPass) trivial (by decide +kernel)
  have htaken := Handoff.after_reached hforwarded (.atB arrivesNext) trivial (by decide +kernel)
  have hack := Handoff.after_reached htaken
    (.atA (arrivesAt 2002 ackMessage ackMessage_length_lt)) (fun _ => by
    refine ⟨⟨ackMessage, sampleParties.a.myAddr, true, [quietPacket]⟩,
      tagged quietPacket sampleParties.a.myAddr, by decide +kernel, rfl, by decide +kernel, ?_⟩
    decide +kernel) (by decide +kernel)
  exact ⟨_, hack, by decide +kernel, custody_handoff_safe sampleParties _ hack⟩

end LwipDtn
