import LwipDtn.AckWalk
import LwipDtn.Handoff

/-!
The way of one acknowledgement back. The message quotes the fixed header and eight bytes
of the tagged packet, so all that follows the fixed header is the start of the hop-by-hop
header. The node that looks for the packet takes the header off that quote and ends up
with 240 payload bytes that begin behind the end of the message: a stored packet that has
so many is compared with whatever is in the memory there.
-/

namespace LwipDtn
open Outcome Bytes BoundedFifo

/-- The start of a packet that has been tagged. -/
structure TaggedFrom (b : Bytes) (p : Pbuf) (c : Block 16) : Prop where
  long : 64 ≤ b.length
  nexth : nexthOf b = ip6NexthHopbyhop
  src : srcOf b = srcOf p.payload
  option : ∀ i < 24, b.getD (40 + i) 0 = (hbhHdr (nexthOf p.bytes) c).getD i 0

theorem add_taggedFrom {heap : Heap} {p q : Pbuf} {c : Block 16} (header : ip6Hlen ≤ p.len)
    (h : dtnAddCustodianOption heap p c = .ok (true, q)) : TaggedFrom q.bytes p c := by
  obtain ⟨v, t, r, rest, hi, lo, hp, hv, ht, hchain, hq⟩ := add_shape header h
  rw [Pbuf.bytes, hchain, List.append_nil, hq, be16]
  constructor
  · rw [split_length hv ht, List.length_append, hbhHdr_length]
    omega
  · rw [split_nexth hv]
  · rw [hp, srcOf_addresses, srcOf_addresses, split_addresses hv ht, split_addresses hv ht]
  · intro i hi
    rw [List.getD_eq_getElem?_getD, ← List.getElem?_drop, split_payload hv ht,
      List.getElem?_append_left (by rw [hbhHdr_length]; exact hi), List.getD_eq_getElem?_getD]

/-- The message about a tagged packet: it is made if there is memory for it, and its last
48 bytes are the start of the packet. -/
theorem message_made (cfg : Config) (env : StatusEnv) {p x : Pbuf} {c : Block 16}
    (stored : List Bytes) (code reason : UInt8) (segment : p.chain = [])
    (tag : TaggedFrom p.bytes x c) (message : env.message.Roomy 65)
    (complete : env.complete.Roomy 105) :
    ∃ t, dtnIcmpv6SendMessage cfg env stored p icmp6TypeDtnPckReceived code reason =
        .ok [.status t p.bytes] ∧
      t.packet.length = 105 ∧ t.packet.drop 57 = p.bytes.take quotedLen ∧
      t.packet.getD ip6Hlen 0 = icmp6TypeDtnPckReceived := by
  obtain ⟨hb, hp⟩ := Pbuf.eq_single segment
  have hbytes : p.bytes = p.payload := by rw [Pbuf.bytes, segment, List.append_nil]
  rw [hbytes] at tag
  have hlong := tag.long
  have hmem : p.payload.length ≤ p.mem.length := by
    rw [Pbuf.mem, List.length_append]
    exact Nat.le_add_right _ _
  obtain ⟨block, behind, hblock⟩ := pbufAlloc_roomy message (8 + (9 + quotedLen)) (by decide)
  obtain ⟨block', behind', hblock'⟩ := pbufAlloc_roomy complete
    (ip6Hlen + (8 + (9 + quotedLen))) (by decide)
  obtain ⟨plen, hplen, -⟩ := @readBlock_of_le p.mem 4 2 (by omega)
  have htype : p.payload.getD 42 0 = custodyOptionType := tag.option 2 (by decide)
  have hlen : p.payload.getD 43 0 = 16 := tag.option 3 (by decide)
  obtain ⟨dest, -, hextract⟩ := extract_hopbyhop p.behind hb (by omega) tag.nexth htype hlen
  rw [← hp] at hextract
  have hquote : (p.bytes.take quotedLen).length = quotedLen := by
    rw [hbytes, List.length_take]
    exact Nat.min_eq_left (Nat.le_trans (by decide) hlong)
  have hold : block.drop (17 + (p.bytes.take quotedLen).length) = [] := by
    rw [hquote]
    exact List.drop_eq_nil_of_le (Nat.le_of_eq (pbufAlloc_length hblock))
  refine ⟨⟨statusPacket cfg env icmp6TypeDtnPckReceived code reason dest plen
    (p.bytes.take quotedLen) [], dest, env.sendto, stored⟩, ?_, ?_⟩
  · simp only [dtnIcmpv6SendMessage, hblock, hplen, hextract, hblock', hold, Run.bind_ok,
      Run.pure_eq_ok]
  · obtain ⟨hlength, hdrop⟩ := @statusPacket_quote cfg env icmp6TypeDtnPckReceived code reason dest
      plen (p.bytes.take quotedLen) [] hquote
    refine ⟨hlength, by rw [hdrop, List.append_nil], ?_⟩
    rw [List.getD_eq_getElem?_getD, statusPacket]
    simp [be16, ip6Hlen, cfg.myAddr.2, dest.2, List.getElem?_append]

/-- The packet that is rebuilt around a received message. -/
def rebuilt (env : IcmpEnv) (q : Pbuf) : Bytes :=
  [0x60, 0, 0, 0] ++ be16 q.totLen ++ [ip6NexthIcmp6, 255] ++ env.current.1 ++ q.bytes

theorem rebuilt_length (env : IcmpEnv) (q : Pbuf) : (rebuilt env q).length = 40 + q.totLen := by
  simp [rebuilt, be16, env.current.2]
  omega

theorem rebuilt_drop (env : IcmpEnv) (q : Pbuf) (n : Nat) :
    (rebuilt env q).drop (40 + n) = q.bytes.drop n := by
  rw [← List.drop_drop, rebuilt, List.drop_left' (by simp [be16, env.current.2])]

theorem deleteAcknowledged_rebuilt {env : IcmpEnv} {q : Pbuf} {block behind : Bytes}
    (hblock : pbufAlloc env.copy (ip6Hlen + q.totLen) = some (block, behind))
    (hb : (rebuilt env q).length < 65536) (s : StorageFunction) :
    deleteAcknowledged env s q = dtnStorageDeletePacketByIcmpData env.removed s
      (.single (rebuilt env q) behind hb) := by
  have hof : Pbuf.ofBlock ([0x60, 0, 0, 0] ++ be16 q.totLen ++ [ip6NexthIcmp6, 255] ++
      env.current.1 ++ q.bytes) behind = .ok (.single (rebuilt env q) behind hb) :=
    Pbuf.ofBlock_of_lt hb
  simp only [deleteAcknowledged, hblock, hof, Run.bind_ok]

theorem process_received (env : IcmpEnv) (node : Node) {q : Pbuf} (size : q.totLen = 65)
    (segment : q.chain = []) (type : q.bytes.getD 0 0 = icmp6TypeDtnPckReceived)
    (copy : env.copy.Roomy 105) :
    ∃ block behind hb attempts, pbufAlloc env.copy 105 = some (block, behind) ∧
      dtnIcmpv6Process env node q = (do
        let storage ← dtnStorageDeletePacketByIcmpData env.removed node.storage
          (.single (rebuilt env q) behind hb)
        return (true, ⟨storage, attempts⟩)) := by
  have hlen : q.len = 65 := by
    rw [Pbuf.totLen, segment] at size
    exact size
  have hmem : 65 ≤ q.mem.length := by
    rw [Pbuf.mem, List.length_append, ← hlen]
    exact Nat.le_add_right _ _
  obtain ⟨block, behind, hblock⟩ := pbufAlloc_roomy copy (ip6Hlen + q.totLen)
    (by rw [size]; decide)
  have hb : (rebuilt env q).length < 65536 := by
    rw [rebuilt_length, size]
    decide
  obtain ⟨head, hhead, -⟩ := @readBlock_of_le q.mem 0 17 (by omega)
  obtain ⟨dest, hdest, -⟩ := @readBlock_of_le q.mem 41 16 (by omega)
  refine ⟨block, behind, hb, dtnControllerRemoveTracking node.attempts ⟨dest, 0, noPadding⟩, ?_, ?_⟩
  · rw [← hblock, size]
    rfl
  have htype : byteAt q.mem 0 = .ok icmp6TypeDtnPckReceived := by
    rw [q.byteAt_mem (by omega), type]
  simp only [dtnIcmpv6Process, htype, hhead, hdest, deleteAcknowledged_rebuilt hblock hb,
    Run.bind_ok, if_true]

/-- What the message says about the packet it quotes, once the hop-by-hop header has been
taken off: 240 bytes from position 121 on. -/
theorem quotedPacket_tagged {m packet : Bytes} {x : Pbuf} {c : Block 16}
    (quote : m.drop 57 = packet.take quotedLen) (tag : TaggedFrom packet x c) :
    quotedPacket m = ⟨packet.take ip6Hlen, nexthOf x.bytes, 121, 240⟩ := by
  have hhdr : (m.drop 57).take ip6Hlen = packet.take ip6Hlen := by
    rw [quote, List.take_take]
    rfl
  have hbyte (i : Nat) (hi : i < 8) :
      m.getD (97 + i) 0 = (hbhHdr (nexthOf x.bytes) c).getD i 0 := by
    have hdrop : m.getD (97 + i) 0 = (m.drop 57).getD (40 + i) 0 := by
      rw [List.getD_eq_getElem?_getD, List.getD_eq_getElem?_getD, List.getElem?_drop,
        ← Nat.add_assoc]
    rw [hdrop, quote, getD_take _ (by rw [quotedLen, ip6Hlen]; omega), tag.option i (by omega)]
  have h97 : m.getD 97 0 = nexthOf x.bytes := hbyte 0 (by decide)
  have h98 : m.getD 98 0 = 2 := hbyte 1 (by decide)
  have hnexth : nexthOf (packet.take ip6Hlen) = ip6NexthHopbyhop := by
    rw [nexthOf_take _ (by decide), tag.nexth]
  rw [quotedPacket, hhdr, if_pos hnexth, h97, h98]
  rfl

theorem process_tagged (env : IcmpEnv) {node : Node} {q x : Pbuf} {m packet : Bytes} {c : Block 16}
    (size : m.length = 105) (quote : m.drop 57 = packet.take quotedLen)
    (type : m.getD ip6Hlen 0 = icmp6TypeDtnPckReceived) (tag : TaggedFrom packet x c)
    (segment : q.chain = []) (bytes : q.bytes = m.drop ip6Hlen) (copy : env.copy.Roomy 105)
    (stored : node.storage.packetListHead ≠ []) :
    ∃ block behind hb attempts, pbufAlloc env.copy 105 = some (block, behind) ∧
      dtnIcmpv6Process env node q = (do
        let (_, storage) ← node.storage.removeFirst env.removed
          (matchesQuote (.single (rebuilt env q) behind hb)
            ⟨packet.take ip6Hlen, nexthOf x.bytes, 121, 240⟩)
        return (true, ⟨storage, attempts⟩)) := by
  have htot : q.totLen = 65 := by
    rw [← Pbuf.bytes_length, bytes, List.length_drop, size]
    rfl
  have htype : q.bytes.getD 0 0 = icmp6TypeDtnPckReceived := by
    rw [← type, bytes, List.getD_eq_getElem?_getD, List.getElem?_drop, List.getD_eq_getElem?_getD]
    rfl
  obtain ⟨block, behind, hb, attempts, hblock, hprocess⟩ :=
    process_received env node htot segment htype copy
  refine ⟨block, behind, hb, attempts, hblock, ?_⟩
  have hlen : (Pbuf.single (rebuilt env q) behind hb).len = 105 := by
    rw [Pbuf.len, Pbuf.single_payload, rebuilt_length, htot]
  have hquote : quotedPacket (Pbuf.single (rebuilt env q) behind hb).payload =
      ⟨packet.take ip6Hlen, nexthOf x.bytes, 121, 240⟩ := by
    apply quotedPacket_tagged _ tag
    rw [Pbuf.single_payload, show 57 = 40 + 17 from rfl, rebuilt_drop, bytes, List.drop_drop,
      ← quote]
    rfl
  rw [hprocess, dtnStorageDeletePacketByIcmpData, if_neg (by simpa using stored),
    if_neg (by rw [hlen]; decide), hquote]
  dsimp only
  rw [if_neg (show ¬ 240 = 0 by decide)]
  simp only [bind_assoc, pure_bind]

section Matching

variable {icmp : Pbuf} {packet : Bytes} {x e : StoredPacketEntry} {c : Block 16}

theorem matchesQuote_other (tag : TaggedFrom packet x.p c) (header : ip6Hlen ≤ x.p.len)
    (other : srcOf e.p.bytes ≠ srcOf x.p.bytes) :
    matchesQuote icmp ⟨packet.take ip6Hlen, nexthOf x.p.bytes, 121, 240⟩ e = .ok false := by
  rw [matchesQuote, if_pos]
  · rfl
  rintro ⟨hlen, hsrc⟩
  rw [srcOf_payload hlen, srcOf_take _ (by decide), tag.src, srcOf_payload header] at hsrc
  exact other hsrc

/-- The packet itself matches if it has fewer payload bytes than the message seems to
quote; otherwise the bytes behind the message decide. -/
theorem matchesQuote_self (tag : TaggedFrom packet x.p c) (header : ip6Hlen ≤ x.p.len)
    (plain : nexthOf x.p.bytes ≠ ip6NexthHopbyhop) :
    matchesQuote icmp ⟨packet.take ip6Hlen, nexthOf x.p.bytes, 121, 240⟩ x =
      if 280 ≤ x.p.len then do
        let orig ← readBlock icmp.mem 121 240
        return decide ((x.p.payload.drop ip6Hlen).take 240 = orig.1)
      else .ok true := by
  have hsame : srcOf x.p.payload = srcOf (packet.take ip6Hlen) := by
    rw [srcOf_take _ (by decide), tag.src]
  rw [matchesQuote, if_neg (not_not.mpr ⟨header, hsame⟩), nexthOf_payload header, if_neg plain,
    payloadMatches]
  by_cases big : 280 ≤ x.p.len
  · rw [if_pos big, if_pos (show ip6Hlen + 240 ≤ x.p.len from big)]
    simp
  · rw [if_neg big, if_neg (show ¬ ip6Hlen + 240 ≤ x.p.len from big)]
    simp

end Matching

/-- Whoever makes the message about the packet, and whatever is in the memory of the node
that gets it, the node ends up without the entry. -/
def AckReleases (cfg : Config) (node : Node) (x : StoredPacketEntry)
    (rest : List StoredPacketEntry) (packet : Bytes) : Prop :=
  ∀ (made : StatusEnv) (stored : List Bytes) (p : Pbuf) (code reason : UInt8),
    p.chain = [] → p.bytes = packet → made.message.Roomy 65 → made.complete.Roomy 105 →
    ∃ t, dtnIcmpv6SendMessage cfg made stored p icmp6TypeDtnPckReceived code reason =
        .ok [.status t packet] ∧
      ∀ (env : IcmpEnv) (q : Pbuf), q.chain = [] → q.bytes = t.packet.drop ip6Hlen →
        env.copy.Roomy 105 →
        ∃ attempts, dtnIcmpv6Process env node q =
          .ok (true, ⟨node.storage.unlinked env.removed x rest, attempts⟩)

/-- Memory that ends with the message. -/
def tightHeap (n : Nat) : Heap := some (List.replicate n 0)

theorem tightHeap_roomy (n : Nat) : (tightHeap n).Roomy n :=
  ⟨_, rfl, Nat.le_of_eq List.length_replicate.symm⟩

theorem tightHeap_length {n : Nat} : ∀ m, tightHeap n = some m → m.length ≤ n := by
  rintro m ⟨⟩
  exact Nat.le_of_eq List.length_replicate

theorem pbufAlloc_tight {heap : Heap} {block behind : Bytes} {n : Nat} (small : n < 65536)
    (tight : ∀ m, heap = some m → m.length ≤ n) (h : pbufAlloc heap n = some (block, behind)) :
    behind = [] := by
  cases heap with
  | none => cases h
  | some m =>
      simp only [pbufAlloc, Option.bind_some, Nat.mod_eq_of_lt small] at h
      split at h
      · cases h
        exact List.drop_eq_nil_of_le (tight m rfl)
      · cases h

theorem alloc_tight (p : Pbuf) :
    ∃ block, pbufAlloc (tightHeap p.totLen) p.totLen = some (block, []) := by
  obtain ⟨block, behind, hblock⟩ := pbufAlloc_roomy (tightHeap_roomy p.totLen) p.totLen
    (Nat.mod_le _ _)
  obtain rfl := pbufAlloc_tight p.totLen_lt tightHeap_length hblock
  exact ⟨block, hblock⟩

def tightStatus : StatusEnv := ⟨tightHeap 65, 0, (statusAt 0).chksum, tightHeap 105, true⟩

def tightIcmp : IcmpEnv := { (incomingAt 0 true).icmp with copy := tightHeap 105 }

section Release

variable {b : Config} {node : Node} {x : StoredPacketEntry} {front back : List StoredPacketEntry}
  {c : Block 16} {tagged : Pbuf}

theorem emitted_copy {clone add : Heap} {copy : Pbuf} (header : ip6Hlen ≤ x.p.len)
    (cloned : pbufClone clone x.p = some copy)
    (emitted : dtnAddCustodianOption add copy c = .ok (true, tagged)) :
    TaggedFrom tagged.bytes x.p c ∧ tagged.chain = [] := by
  obtain ⟨behind, hb, rfl⟩ := pbufClone_single cloned
  have hheader : ip6Hlen ≤ (Pbuf.single x.p.bytes behind hb).len := by
    rw [Pbuf.len, Pbuf.single_payload, Pbuf.bytes_length]
    exact Nat.le_trans header (Nat.le_add_right _ _)
  obtain ⟨_, _, _, _, _, _, -, -, -, hchain, -⟩ := add_shape hheader emitted
  have h := add_taggedFrom hheader emitted
  refine ⟨⟨h.long, h.nexth, ?_, fun i hi => ?_⟩, hchain⟩
  · rw [h.src, Pbuf.single_payload, srcOf_payload header]
  · rw [h.option i hi, Pbuf.single_bytes]

theorem front_unmatched (tag : TaggedFrom tagged.bytes x.p c) (header : ip6Hlen ≤ x.p.len)
    (only : ∀ e ∈ front ++ back, srcOf e.p.bytes ≠ srcOf x.p.bytes) (icmp : Pbuf) :
    ∀ e ∈ front, matchesQuote icmp
      ⟨tagged.bytes.take ip6Hlen, nexthOf x.p.bytes, 121, 240⟩ e = .ok false :=
  fun e he => matchesQuote_other tag header (only e (List.mem_append_left _ he))

theorem long_packet_unreleased (tag : TaggedFrom tagged.bytes x.p c) (segment : tagged.chain = [])
    (header : ip6Hlen ≤ x.p.len) (plain : nexthOf x.p.bytes ≠ ip6NexthHopbyhop)
    (held : node.storage.packetListHead = front ++ x :: back)
    (only : ∀ e ∈ front ++ back, srcOf e.p.bytes ≠ srcOf x.p.bytes) (big : 280 ≤ x.p.len) :
    ¬ AckReleases b node x (front ++ back) tagged.bytes := by
  intro releases
  obtain ⟨t, hmade, hsize, hquote, htype⟩ := message_made b tightStatus [] 0 0
    segment tag (tightHeap_roomy 65) (tightHeap_roomy 105)
  obtain ⟨t', hmade', hreleases⟩ := releases tightStatus [] tagged 0 0 segment rfl
    (tightHeap_roomy 65) (tightHeap_roomy 105)
  cases hmade.symm.trans hmade'
  have hshort : (t.packet.drop ip6Hlen).length < 65536 := by
    rw [List.length_drop, hsize]
    decide
  obtain ⟨attempts, hreleased⟩ := hreleases tightIcmp (.single (t.packet.drop ip6Hlen) [] hshort)
    rfl (Pbuf.single_bytes ..) (tightHeap_roomy 105)
  obtain ⟨block, behind, hb, attempts', hblock, hprocess⟩ := process_tagged tightIcmp hsize
    hquote htype tag rfl (Pbuf.single_bytes _ [] hshort) (tightHeap_roomy 105)
    (show node.storage.packetListHead ≠ [] by simp [held])
  have hbehind : behind = [] := pbufAlloc_tight (by decide) tightHeap_length hblock
  have hself : matchesQuote (.single (rebuilt tightIcmp (.single _ [] hshort)) behind hb)
      ⟨tagged.bytes.take ip6Hlen, nexthOf x.p.bytes, 121, 240⟩ x = .error .fault := by
    rw [matchesQuote_self tag header plain, if_pos big, readBlock, dif_neg]
    · rfl
    · rw [Pbuf.single_mem, hbehind, List.append_nil, rebuilt_length, Pbuf.single_totLen,
        List.length_drop, hsize]
      decide
  rw [hprocess, StorageFunction.removeFirst, held,
    unlinkFirst_stuck (front_unmatched tag header only _) hself] at hreleased
  cases hreleased

theorem short_packet_released (tag : TaggedFrom tagged.bytes x.p c) (header : ip6Hlen ≤ x.p.len)
    (plain : nexthOf x.p.bytes ≠ ip6NexthHopbyhop)
    (held : node.storage.packetListHead = front ++ x :: back)
    (only : ∀ e ∈ front ++ back, srcOf e.p.bytes ≠ srcOf x.p.bytes) (small : ¬ 280 ≤ x.p.len) :
    AckReleases b node x (front ++ back) tagged.bytes := by
  intro made stored p code reason segment bytes message complete
  obtain ⟨t, hmade, hsize, hquote, htype⟩ := message_made b made stored code reason segment
    (bytes ▸ tag) message complete
  rw [bytes] at hmade hquote
  refine ⟨t, hmade, fun env q hq hbytes copy => ?_⟩
  obtain ⟨block, behind, hb, attempts, -, hprocess⟩ :=
    process_tagged env hsize hquote htype tag hq hbytes copy
      (show node.storage.packetListHead ≠ [] by simp [held])
  refine ⟨attempts, ?_⟩
  have hself : matchesQuote (.single (rebuilt env q) behind hb)
      ⟨tagged.bytes.take ip6Hlen, nexthOf x.p.bytes, 121, 240⟩ x = .ok true := by
    rw [matchesQuote_self tag header plain, if_neg small]
  rw [hprocess, StorageFunction.removeFirst, held,
    unlinkFirst_found (front_unmatched tag header only _) hself]
  rfl

end Release

/-- The acknowledgement of a stored packet that is alone with its source releases it,
whatever the memory holds, exactly if the packet is shorter than 280 bytes. -/
theorem genuine_ack_releases_iff (a b : Config) (text : AddrText) (node : Node)
    (x : StoredPacketEntry) (front back : List StoredPacketEntry)
    (reached : StorageReachable text node.storage)
    (held : node.storage.packetListHead = front ++ x :: back)
    (only : ∀ e ∈ front ++ back, srcOf e.p.bytes ≠ srcOf x.p.bytes)
    (long : ip6Hlen + 8 ≤ x.p.totLen) (plain : nexthOf x.p.bytes ≠ ip6NexthHopbyhop)
    (clone add : Heap) (copy tagged : Pbuf) (cloned : pbufClone clone x.p = some copy)
    (emitted : dtnAddCustodianOption add copy a.myAddr = .ok (true, tagged)) :
    AckReleases b node x (front ++ back) tagged.bytes ↔ x.p.totLen < 280 := by
  have hsegment : x.p.chain = [] := reached.segment x (by rw [held]; simp)
  have hlen : x.p.len = x.p.totLen := by rw [Pbuf.totLen, hsegment]; rfl
  have header : ip6Hlen ≤ x.p.len := by rw [hlen]; exact Nat.le_trans (by decide) long
  obtain ⟨tag, segment⟩ := emitted_copy header cloned emitted
  constructor
  · intro releases
    refine Nat.not_le.mp fun big => ?_
    exact long_packet_unreleased tag segment header plain held only (hlen ▸ big) releases
  · intro small
    exact short_packet_released tag header plain held only
      (by rw [hlen]; exact Nat.not_le.mpr small)

/-- The second of three stored packets is released. -/
theorem genuine_ack_releases_sample :
    ∃ front x back copy tagged, threeStored.packetListHead = front ++ x :: back ∧
      front.length = 1 ∧ back.length = 1 ∧ x.p.bytes = packetFrom 2 ∧
      dtnAddCustodianOption smallHeap copy sampleConfig.myAddr = .ok (true, tagged) ∧
      AckReleases sampleParties.b ⟨threeStored, []⟩ x (front ++ back) tagged.bytes := by
  obtain ⟨first, x, last, hlist⟩ := List.length_eq_three.mp
    (show threeStored.packetListHead.length = 3 by decide +kernel)
  have hpackets := threeStored_packets
  have hcopies : ∀ e ∈ threeStored.packetListHead, (pbufClone smallHeap e.p).isSome := by
    decide +kernel
  rw [hlist] at hpackets hcopies
  simp only [List.map_cons, List.map_nil, List.cons.injEq, and_true] at hpackets
  obtain ⟨hfirst, hx, hlast⟩ := hpackets
  obtain ⟨copy, hcopy⟩ := Option.isSome_iff_exists.mp (hcopies x (by simp))
  obtain ⟨behind, hb, rfl⟩ := pbufClone_single hcopy
  obtain ⟨after, h, hadd⟩ := add_roomy behind hb (smallHeap_roomy (by rw [hx]; decide))
    sampleConfig.myAddr (by rw [hx]; decide) (by rw [hx]; decide)
  have htot : x.p.totLen = 48 := by rw [← Pbuf.bytes_length, hx]; rfl
  have hreached := threeStored_reached
  generalize threeStored = s at hlist hreached ⊢
  refine ⟨[first], x, [last], _, _, hlist, rfl, rfl, hx, hadd, ?_⟩
  refine (genuine_ack_releases_iff sampleConfig sampleParties.b hexAddrText ⟨s, []⟩ x
    [first] [last] hreached hlist ?_ (by rw [htot]; decide) (by rw [hx]; decide)
    smallHeap smallHeap _ _ hcopy hadd).mpr (by rw [htot]; decide)
  intro e he
  obtain rfl | rfl : e = first ∨ e = last := by simpa using he
  · rw [hfirst, hx]
    decide
  · rw [hlast, hx]
    decide

/-- One round: the packet is stored, a copy of it is tagged, and the message about the
copy comes back. The result is the number of stored packets before and after. -/
def ackRound (heap : Heap) (packet : Bytes) (h : packet.length < 65536) : Run (Nat × Nat) := do
  let s ← (StorageCall.store { calmEnv 7 with copy := heap } (.single packet [] h) farAddr).run
    hexAddrText emptyStorage
  let (_, tagged) ← dtnAddCustodianOption heap (.single packet [] h) sampleConfig.myAddr
  let effects ← dtnIcmpv6SendMessage sampleParties.b { tightStatus with message := heap } []
    tagged icmp6TypeDtnPckReceived icmp6CodeDtnNoContact 0
  match effects with
  | [.status t _] =>
      let q ← Pbuf.ofBlock (t.packet.drop ip6Hlen) []
      let (_, node) ← dtnIcmpv6Process { tightIcmp with copy := heap } ⟨s, []⟩ q
      return (s.packetListHead.length, node.storage.packetListHead.length)
  | _ => return (0, 0)

/-- A packet with 240 bytes behind its header. -/
def bigPacket : Bytes :=
  [0x60, 0, 0, 0, 0, 240, 17, 64] ++ (samplePacket.drop 8).take 32 ++ List.replicate 240 7

/-- The acknowledgement of that packet finds zeros behind the message and does not
release it. -/
theorem genuine_ack_ignored :
    nexthOf bigPacket ≠ ip6NexthHopbyhop ∧ ip6Hlen + 8 ≤ bigPacket.length ∧
      ackRound (some (List.replicate 400 0)) bigPacket (by decide +kernel) = .ok (1, 1) := by
  decide +kernel

end LwipDtn
