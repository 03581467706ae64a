import LwipDtn.Handoff

/-!
The retry table and the storage. A slot is taken for a packet that is stored, and released
when a message quotes its destination or its attempts are used up. The table stays behind
only when a message takes out a packet for another destination than the one it quotes.
-/

namespace LwipDtn
open Outcome Bytes BoundedFifo Runs Slots

def StorageFunction.dests (s : StorageFunction) : List (Block 16) :=
  s.packetListHead.map fun e => e.originalDest.addr

/-- Every tracked destination has a stored packet; no destination has two slots. -/
structure TracksStored (node : Node) : Prop where
  valid : node.storage.Valid
  slots : node.attempts.length = maxDestinations
  distinct : (tracked node.attempts).Nodup
  held : tracked node.attempts ⊆ node.storage.dests

/-- A received-message leaves the tracked destinations other than the one it quotes a
packet from another source than the one it quotes. -/
def AckSparesTracked (node : Node) : NodeEvent → Prop
  | .pass _ => True
  | .incoming env p => nexthOf p.payload = ip6NexthIcmp6 →
      ∀ q, (pbufClone env.icmpClone p).bind (Pbuf.removeHeader · ip6Hlen) = some q →
        byteAt q.mem 0 = .ok icmp6TypeDtnPckReceived →
        ∀ a ∈ node.attempts, a.isValid = true → a.destination.addr.1 ≠ (q.mem.drop 41).take 16 →
          ∃ e ∈ node.storage.packetListHead, e.originalDest.addr = a.destination.addr ∧
            srcOf e.p.bytes ≠ (q.mem.drop 25).take 16

section

variable {node node' : Node}

theorem deleteAcknowledged_src {env : IcmpEnv} {s s' : StorageFunction} {q : Pbuf}
    (single : q.bytes = q.payload) (h : deleteAcknowledged env s q = .ok s') :
    s' = s ∨ ∃ e rest, s' = s.unlinked env.removed e rest ∧ Takes s.packetListHead e rest ∧
      srcOf e.p.bytes = (q.mem.drop 25).take 16 := by
  obtain hsame | ⟨e, rest, hs, htakes, hquoted⟩ := deleteAcknowledged_inv h
  · exact .inl hsame
  refine .inr ⟨e, rest, hs, htakes, ?_⟩
  obtain ⟨hlong, icmp, hpayload, haccepts⟩ | ⟨hdr, hread, hmatches⟩ := hquoted
  · have hlen : 65 ≤ q.payload.length := by
      rwa [← q.bytes_length, single] at hlong
    rw [(acceptsQuote_quoted haccepts).1, hpayload, single, Pbuf.mem, srcOf, List.drop_drop,
      List.drop_append_of_le_length (by omega),
      List.take_append_of_le_length (by rw [List.length_drop]; omega)]
  · rw [(readBlock_eq_ok.mp hread).2] at hmatches
    rw [(matchesHeader_quoted hmatches).1, srcOf, List.drop_drop]

theorem statusCopy_bytes {heap : Heap} {p q : Pbuf} (header : ip6Hlen ≤ p.len)
    (hq : (pbufClone heap p).bind (Pbuf.removeHeader · ip6Hlen) = some q) :
    q.bytes = q.payload := by
  obtain ⟨copy, hclone, hremove⟩ := Option.bind_eq_some_iff.mp hq
  obtain ⟨_, hremove', -, hbytes, hpayload⟩ :=
    clone_removeHeader hclone (Nat.le_trans header (Nat.le_add_right _ _))
  cases hremove.symm.trans hremove'
  rw [hbytes, hpayload]

theorem mem_dests_unlinked {s : StorageFunction} {removed : Bool} {e e' : StoredPacketEntry}
    {rest : List StoredPacketEntry} (hperm : s.packetListHead.Perm (e :: rest))
    (he' : e' ∈ s.packetListHead) (hne : e' ≠ e) :
    e'.originalDest.addr ∈ (s.unlinked removed e rest).dests := by
  refine List.mem_map.mpr ⟨e', ?_, rfl⟩
  exact (List.mem_cons.mp (hperm.mem_iff.mp he')).resolve_left hne

theorem TracksStored.attempt (h : TracksStored node) {env : AttemptEnv} {entry : StoredPacketEntry}
    {attempt : Bool} (stored : entry ∈ node.storage.packetListHead)
    (hrun : shouldAttemptForward env node entry.originalDest = .ok (attempt, node')) :
    TracksStored node' := by
  have hdest : entry.originalDest.addr ∈ node.storage.dests := List.mem_map.mpr ⟨entry, stored, rfl⟩
  obtain ⟨hlength, ⟨hs, hperm⟩ | ⟨hs, hfresh, hperm⟩ | ⟨hperm, hs⟩⟩ :=
    shouldAttemptForward_tracks hrun
  · refine ⟨hs ▸ h.valid, hlength.trans h.slots, hperm.nodup_iff.mpr h.distinct, ?_⟩
    rw [hs]
    exact fun addr haddr => h.held (hperm.mem_iff.mp haddr)
  · refine ⟨hs ▸ h.valid, hlength.trans h.slots,
      hperm.nodup_iff.mpr (List.nodup_cons.mpr ⟨hfresh, h.distinct⟩), ?_⟩
    rw [hs]
    intro addr haddr
    rcases List.mem_cons.mp (hperm.mem_iff.mp haddr) with rfl | haddr
    · exact hdest
    · exact h.held haddr
  · obtain ⟨hout, hnodup⟩ := List.nodup_cons.mp (hperm.nodup_iff.mp h.distinct)
    have hheld : tracked node'.attempts ⊆ node.storage.dests :=
      fun addr haddr => h.held (hperm.mem_iff.mpr (List.mem_cons_of_mem _ haddr))
    obtain hs | ⟨e, rest, hs, hpackets, he⟩ := hs
    · exact ⟨hs ▸ h.valid, hlength.trans h.slots, hnodup, hs ▸ hheld⟩
    · refine ⟨hs ▸ h.valid.unlinked _ hpackets, hlength.trans h.slots, hnodup, ?_⟩
      intro addr haddr
      obtain ⟨e', he', rfl⟩ := List.mem_map.mp (hheld haddr)
      rw [hs]
      refine mem_dests_unlinked hpackets he' ?_
      rintro rfl
      exact hout (he ▸ haddr)

theorem TracksStored.consumed (h : TracksStored node) {env : IncomingEnv} {p : Pbuf}
    (header : ip6Hlen ≤ p.len) (spares : AckSparesTracked node (.incoming env p))
    (hrun : consumeStatus env node p = .ok (some node')) : TracksStored node' := by
  obtain ⟨hnexth, rfl | ⟨q, hq, hprocess⟩⟩ := consumeStatus_inv hrun
  · exact h
  obtain rfl | ⟨dest, htype, hdelete, hdest, hattempts⟩ := icmpv6Process_inv hprocess
  · exact h
  obtain ⟨hnodup, hothers⟩ := @tracked_removeTracking _ ⟨dest, 0, noPadding⟩ h.distinct
  have single := statusCopy_bytes header hq
  have hlength : node'.attempts.length = maxDestinations := by
    rw [hattempts, removeTracking_length, h.slots]
  rw [← hattempts] at hnodup hothers
  obtain hs | ⟨e, rest, hs, htakes, hsrc⟩ := deleteAcknowledged_src single hdelete
  · exact ⟨hs ▸ h.valid, hlength, hnodup, fun addr haddr => hs ▸ h.held (hothers addr haddr).1⟩
  have hperm := htakes.perm
  refine ⟨hs ▸ h.valid.unlinked _ hperm, hlength, hnodup, fun addr haddr => ?_⟩
  obtain ⟨hold, hne⟩ := hothers addr haddr
  obtain ⟨a, ha, htracks⟩ := mem_keys.mp hold
  obtain ⟨hvalid, rfl⟩ := ForwardingAttempt.tracks_eq_some.mp htracks
  have hquoted : a.destination.addr.1 ≠ (q.mem.drop 41).take 16 := by
    rw [← (readBlock_eq_ok.mp hdest).2]
    exact fun heq => hne (Subtype.ext heq)
  obtain ⟨e', he', haddr', hsrc'⟩ := spares hnexth q hq htype a ha hvalid hquoted
  rw [hs, ← haddr']
  refine mem_dests_unlinked hperm he' ?_
  rintro rfl
  exact hsrc' hsrc

theorem TracksStored.offered (h : TracksStored node) {text : AddrText} {env : StoreEnv} {p : Pbuf}
    {dest : Ip6Addr} {r : Bool} {storage : StorageFunction}
    (hstore : dtnStorageStorePacket text env node.storage p dest = .ok (r, storage)) :
    TracksStored { node with storage := storage } := by
  obtain ⟨-, rfl | ⟨-, -, -, disk, -, rfl⟩⟩ |
    ⟨-, ⟨room, -⟩, -, -, q, disk, -, -, -, rfl⟩ := store_cases hstore
  · exact h
  · exact ⟨h.valid.of_disk disk, h.slots, h.distinct, h.held⟩
  · refine ⟨(h.valid.of_disk disk).append room _, h.slots, h.distinct, fun addr haddr => ?_⟩
    rw [StorageFunction.dests, StorageFunction.append, List.map_append]
    exact List.mem_append_left _ (h.held haddr)

theorem TracksStored.event {cfg : Config} {text : AddrText} {event : NodeEvent}
    {effects : List Effect} (h : TracksStored node) (spares : AckSparesTracked node event)
    (hrun : event.run cfg text node = .ok (node', effects)) : TracksStored node' := by
  cases event with
  | pass env =>
      exact (attemptForwardStored_rule (R := fun _ => True) trivial (fun _ _ _ _ => trivial)
        (fun _ _ _ _ _ hn hmem hattempt => hn.attempt hmem hattempt)
        (fun _ _ _ _ _ _ _ => trivial) hrun h).1
  | incoming env p =>
      cases processIncoming_cases hrun with
      | dropped | delivered | forwarded | relayed => exact h
      | consumed header hconsumed => exact h.consumed header spares hconsumed
      | refused hstore | stored _ hstore => exact h.offered hstore

/-- At most as many destinations are tracked as packets can be stored, and a slot is free. -/
theorem TracksStored.bounded (h : TracksStored node) :
    (tracked node.attempts).length ≤ maxStoredPackets ∧ freeSlot node.attempts ≠ none := by
  have hle := (List.subperm_of_subset h.distinct h.held).length_le
  rw [StorageFunction.dests, List.length_map] at hle
  have hbound := Nat.le_trans hle h.valid.bounded
  refine ⟨hbound, fun hfull => ?_⟩
  rw [freeSlot_none hfull, h.slots] at hbound
  exact absurd hbound (by decide)

theorem Node.Created.tracksStored (h : node.Created) : TracksStored node := by
  obtain ⟨hattempts, disk, env, hcreate⟩ := h
  have hnone : tracked node.attempts = [] := by
    rw [hattempts]
    rfl
  refine ⟨.create hcreate, by rw [hattempts]; rfl, ?_, ?_⟩
  · rw [hnone]
    exact List.nodup_nil
  · rw [hnone]
    exact List.nil_subset _

end

/-- In every run in which the received-messages spare the tracked destinations, every
valid slot has a stored packet, at most as many slots are valid as packets can be stored,
and one is free. -/
theorem tracked_destinations_stored (cfg : Config) (text : AddrText) (s : NodeTrace)
    (h : (nodeSystem cfg text).Reaches (fun s => AckSparesTracked s.node) s) :
    (∀ a ∈ s.node.attempts, a.isValid = true →
      ∃ e ∈ s.node.storage.packetListHead, e.originalDest.addr = a.destination.addr) ∧
    (s.node.attempts.filter fun a => a.isValid).length ≤ maxStoredPackets ∧
    freeSlot s.node.attempts ≠ none := by
  have hinv : TracksStored s.node := by
    refine h.invariant (P := fun s => TracksStored s.node) (fun _ fresh => ?_) ?_
    · exact Node.Created.tracksStored fresh.1
    · intro s event s' ih spares hnext
      obtain ⟨effects, hrun, -⟩ := NodeTrace.next_cases hnext
      exact ih.event spares hrun
  obtain ⟨hbound, hfree⟩ := hinv.bounded
  refine ⟨fun a ha hvalid => ?_, tracked_length _ ▸ hbound, hfree⟩
  have hmem := hinv.held (mem_keys.mpr ⟨a, ha, ForwardingAttempt.tracks_eq_some.mpr ⟨hvalid, rfl⟩⟩)
  exact List.mem_map.mp hmem

/-! Two packets of one source for different destinations wait, and a pass tracks both. -/

def bothTracked : NodeTrace :=
  (((NodeTrace.after sampleConfig hexAddrText ⟨emptyNode, []⟩
    (arrivesAt 7 otherPacket otherPacket_length_lt)).after sampleConfig hexAddrText
    (arrivesAt 8 quietPacket quietPacket_length_lt)).after sampleConfig hexAddrText forwardPass)

theorem bothTracked_reached : (nodeSystem sampleConfig hexAddrText).Reaches
    (fun s => AckSparesTracked s.node) bothTracked := by
  have hother := NodeTrace.after_reached (emptyNode_reached fun s => AckSparesTracked s.node)
    (arrivesAt 7 otherPacket otherPacket_length_lt) (fun hicmp => absurd hicmp (by decide))
    (by decide +kernel)
  have hquiet := NodeTrace.after_reached hother (arrivesAt 8 quietPacket quietPacket_length_lt)
    (fun hicmp => absurd hicmp (by decide)) (by decide +kernel)
  exact NodeTrace.after_reached hquiet forwardPass trivial (by decide +kernel)

theorem tracked_destinations_stored_both :
    (bothTracked.node.attempts.filter fun a => a.isValid).length = 2 ∧
    ∀ a ∈ bothTracked.node.attempts, a.isValid = true →
      ∃ e ∈ bothTracked.node.storage.packetListHead,
        e.originalDest.addr = a.destination.addr :=
  ⟨by decide +kernel,
    (tracked_destinations_stored sampleConfig hexAddrText _ bothTracked_reached).1⟩

/-- The acknowledgement of the second packet takes out the first one and untracks the
destination of the second. -/
theorem ack_leaves_slot_without_packet :
    ∃ s, (nodeSystem sampleConfig hexAddrText).Reaches (fun _ _ => True) s ∧
      ∃ a ∈ s.node.attempts, a.isValid = true ∧
        ∀ e ∈ s.node.storage.packetListHead, e.originalDest.addr ≠ a.destination.addr :=
  ⟨_, NodeTrace.after_reached (bothTracked_reached.mono fun _ _ _ => trivial)
    (arrivesAt 2002 ackMessage ackMessage_length_lt) trivial (by decide +kernel), by decide +kernel⟩

end LwipDtn
