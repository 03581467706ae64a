import LwipDtn.AckRelease
import LwipDtn.TrackingSteps

/-!
Status messages of any length. Only the deletion by the rebuilt packet looks at the
length of a message: the type is read from an empty one, the addresses of the quoted
header are read without it, and a hop-by-hop header in the quote moves the bytes that are
compared behind the end of most messages.
-/

namespace LwipDtn
open Outcome Bytes BoundedFifo Slots

/-- The copies that are made of the packet have nothing behind them. -/
structure TightCopies (env : IncomingEnv) (p : Pbuf) : Prop where
  clone : ∀ m, env.icmpClone = some m → m.length ≤ p.totLen
  copy : ∀ m, env.icmp.copy = some m → m.length ≤ p.totLen

/-- Nothing outside the message is read, and a received-message that is too short for an
IPv6 header and eight bytes changes nothing. -/
def HarmlessStatus (node : Node) (p : Pbuf) : Prop :=
  (∀ env, TightCopies env p → consumeStatus env node p ≠ .error .fault) ∧
    (p.bytes.getD ip6Hlen 0 = icmp6TypeDtnPckReceived → p.totLen < 105 →
      ∀ env, consumeStatus env node p = .ok (some node))

section

variable (b : Bytes) (e : StoredPacketEntry)

/-- The header that a received-message quotes, by the bytes of the whole packet. -/
def quotedHeader : Bytes := (b.drop 57).take ip6Hlen

/-- The node neither tracks the quoted destination nor stores a packet with the quoted
addresses. -/
structure Unknown (node : Node) : Prop where
  untracked : ∀ a ∈ node.attempts, a.isValid = true →
    a.destination.addr.1 ≠ destOf (quotedHeader b)
  unstored : ∀ e ∈ node.storage.packetListHead, ¬ (ip6Hlen ≤ e.p.len ∧
    srcOf e.p.payload = srcOf (quotedHeader b) ∧ destOf e.p.payload = destOf (quotedHeader b))

def quotedHbhLen : Nat := (b.getD 98 0).toNat

def SameSource : Prop := ip6Hlen ≤ e.p.len ∧ srcOf e.p.payload = srcOf (quotedHeader b)

/-- The stored packet is long enough for the comparison of the bytes that the quote seems
to have behind its hop-by-hop header. -/
def Compared : Prop :=
  SameSource b e ∧ nexthOf e.p.payload ≠ ip6NexthHopbyhop ∧
    296 ≤ e.p.len + quotedHbhLen b % 32 * 8

/-- The walk goes on behind the stored packet without such a comparison. -/
def PassedOver : Prop :=
  SameSource b e → nexthOf e.p.payload ≠ ip6NexthHopbyhop ∧
    e.p.len + quotedHbhLen b % 32 * 8 < 296 ∧ nexthOf e.p.payload ≠ b.getD 97 0

/-- The message quotes a hop-by-hop header, the bytes behind that header are not in the
message, and the walk comes to a packet that they are compared with. -/
structure Overreads (stored : List StoredPacketEntry) : Prop where
  tagged : b.getD 63 0 = ip6NexthHopbyhop
  left : quotedHbhLen b % 32 ≠ 0
  short : b.length < 361 + quotedHbhLen b / 32 * 256
  reached : ∃ front e back, stored = front ++ e :: back ∧ (∀ x ∈ front, PassedOver b x) ∧
    Compared b e

structure LongEnough (stored : List StoredPacketEntry) : Prop where
  typed : ip6Hlen < b.length
  status : b.getD ip6Hlen 0 ∈ statusTypes → 57 ≤ b.length
  quote : b.getD ip6Hlen 0 = icmp6TypeDtnPckReceived → 97 ≤ b.length
  inside : b.getD ip6Hlen 0 = icmp6TypeDtnPckReceived → 105 ≤ b.length → ¬ Overreads b stored

end

/-! The walk over the stored packets. -/

section Walk

variable {b : Bytes} {icmp : Pbuf} {quote : QuotedPacket} {e : StoredPacketEntry}

theorem quotedPacket_congr {x y : Bytes} (h : x.drop ip6Hlen = y.drop ip6Hlen) :
    quotedPacket x = quotedPacket y := by
  have hdrop (n : Nat) : x.drop (ip6Hlen + n) = y.drop (ip6Hlen + n) := by
    rw [← List.drop_drop, ← List.drop_drop, h]
  have hget (n : Nat) : x.getD (ip6Hlen + n) 0 = y.getD (ip6Hlen + n) 0 := by
    rw [List.getD_eq_getElem?_getD, List.getD_eq_getElem?_getD, ← List.getElem?_drop,
      ← List.getElem?_drop, h]
  have h57 : x.drop 57 = y.drop 57 := hdrop 17
  have h97 : x.getD 97 0 = y.getD 97 0 := hget 57
  have h98 : x.getD 98 0 = y.getD 98 0 := hget 58
  rw [quotedPacket, quotedPacket, h57, h97, h98]

theorem nexthOf_quotedHeader (b : Bytes) : nexthOf (quotedHeader b) = b.getD 63 0 := by
  rw [quotedHeader, nexthOf_take _ (by decide), nexthOf, List.getD_eq_getElem?_getD,
    List.getElem?_drop, List.getD_eq_getElem?_getD]

theorem quotedPacket_plain (h : b.getD 63 0 ≠ ip6NexthHopbyhop) :
    quotedPacket b = ⟨quotedHeader b, b.getD 63 0, 97, 8⟩ := by
  rw [← nexthOf_quotedHeader] at h
  rw [quotedPacket]
  dsimp only
  rw [← quotedHeader, if_neg h, nexthOf_quotedHeader]

theorem quotedPacket_hopbyhop (h : b.getD 63 0 = ip6NexthHopbyhop) :
    quotedPacket b = ⟨quotedHeader b, b.getD 97 0, 105 + quotedHbhLen b * 8,
      (2048 - quotedHbhLen b * 8) % 256⟩ := by
  rw [← nexthOf_quotedHeader] at h
  rw [quotedPacket]
  dsimp only
  rw [← quotedHeader, if_pos h]
  congr 1
  · rw [quotedHbhLen]
    omega
  · rw [quotedHbhLen]
    omega

theorem matchesQuote_fault : matchesQuote icmp quote e = .error .fault ↔
    (ip6Hlen ≤ e.p.len ∧ srcOf e.p.payload = srcOf quote.hdr) ∧
      nexthOf e.p.payload ≠ ip6NexthHopbyhop ∧ ip6Hlen + quote.payloadBytes ≤ e.p.len ∧
      icmp.mem.length < quote.payloadStart + quote.payloadBytes := by
  rw [matchesQuote]
  by_cases hsame : ip6Hlen ≤ e.p.len ∧ srcOf e.p.payload = srcOf quote.hdr
  case neg => simp [hsame]
  by_cases hhbh : nexthOf e.p.payload = ip6NexthHopbyhop
  case pos => simp [hsame, hhbh]
  rw [if_neg (not_not.mpr hsame), if_neg hhbh, payloadMatches]
  split
  · rename_i hlong
    rw [← readBlock_fault]
    cases hread : readBlock icmp.mem quote.payloadStart quote.payloadBytes with
    | error stuck => simp [hsame, hhbh, hlong]
    | ok block => simp
  · rename_i hshort
    simp [hshort]

theorem matchesQuote_passes
    (outside : icmp.mem.length < quote.payloadStart + quote.payloadBytes) :
    matchesQuote icmp quote e = .ok false ↔
      (ip6Hlen ≤ e.p.len ∧ srcOf e.p.payload = srcOf quote.hdr →
        nexthOf e.p.payload ≠ ip6NexthHopbyhop ∧ e.p.len < ip6Hlen + quote.payloadBytes ∧
        nexthOf e.p.payload ≠ quote.nexth) := by
  rw [matchesQuote]
  by_cases hsame : ip6Hlen ≤ e.p.len ∧ srcOf e.p.payload = srcOf quote.hdr
  case neg => simp [hsame]
  by_cases hhbh : nexthOf e.p.payload = ip6NexthHopbyhop
  case pos => simp [hsame, hhbh]
  rw [if_neg (not_not.mpr hsame), if_neg hhbh, payloadMatches]
  split
  · rename_i hlong
    rw [readBlock_fault.mpr outside]
    simp [hsame, Nat.not_lt.mpr hlong]
  · rename_i hshort
    simp [hsame, hhbh, Nat.not_le.mp hshort]

theorem removeFirst_error {removed : Bool} {s : StorageFunction}
    {test : StoredPacketEntry → Run Bool} {stuck : Stuck} :
    (do let (_, s) ← s.removeFirst removed test; return s : Run StorageFunction) = .error stuck ↔
      unlinkFirst test [] s.packetListHead = .error stuck := by
  rw [StorageFunction.removeFirst]
  cases unlinkFirst test [] s.packetListHead with
  | error e => simp
  | ok found =>
      refine iff_of_false ?_ (Run.ok_ne_error found stuck)
      cases found with
      | none => exact Run.ok_ne_error _ _
      | some taken => exact Run.ok_ne_error _ _

/-- The walk reads outside a message exactly if the bytes are not there and the walk comes
to a packet that is compared with them. -/
theorem walk_fault {stored : List StoredPacketEntry} :
    unlinkFirst (matchesQuote icmp quote) [] stored = .error .fault ↔
      icmp.mem.length < quote.payloadStart + quote.payloadBytes ∧
        ∃ front e back, stored = front ++ e :: back ∧
          (∀ x ∈ front, ip6Hlen ≤ x.p.len ∧ srcOf x.p.payload = srcOf quote.hdr →
            nexthOf x.p.payload ≠ ip6NexthHopbyhop ∧ x.p.len < ip6Hlen + quote.payloadBytes ∧
            nexthOf x.p.payload ≠ quote.nexth) ∧
          (ip6Hlen ≤ e.p.len ∧ srcOf e.p.payload = srcOf quote.hdr) ∧
          nexthOf e.p.payload ≠ ip6NexthHopbyhop ∧ ip6Hlen + quote.payloadBytes ≤ e.p.len := by
  rw [unlinkFirst_stuck_iff]
  constructor
  · rintro ⟨front, e, back, rfl, hfront, he⟩
    obtain ⟨hsame, hhbh, hlong, outside⟩ := matchesQuote_fault.mp he
    exact ⟨outside, front, e, back, rfl,
      fun x hx => (matchesQuote_passes outside).mp (hfront x hx), hsame, hhbh, hlong⟩
  · rintro ⟨outside, front, e, back, rfl, hfront, hsame, hhbh, hlong⟩
    exact ⟨front, e, back, rfl, fun x hx => (matchesQuote_passes outside).mpr (hfront x hx),
      matchesQuote_fault.mpr ⟨hsame, hhbh, hlong, outside⟩⟩

theorem quotedHbhLen_rest (left : quotedHbhLen b % 32 ≠ 0) :
    ip6Hlen + (2048 - quotedHbhLen b * 8) % 256 + quotedHbhLen b % 32 * 8 = 296 := by
  have hlt : quotedHbhLen b < 256 := (b.getD 98 0).toNat_lt
  rw [ip6Hlen]
  omega

theorem compared_iff (left : quotedHbhLen b % 32 ≠ 0) : Compared b e ↔
    SameSource b e ∧ nexthOf e.p.payload ≠ ip6NexthHopbyhop ∧
      ip6Hlen + (2048 - quotedHbhLen b * 8) % 256 ≤ e.p.len := by
  rw [Compared, ← quotedHbhLen_rest left, Nat.add_le_add_iff_right]

theorem passedOver_iff (left : quotedHbhLen b % 32 ≠ 0) : PassedOver b e ↔
    (SameSource b e → nexthOf e.p.payload ≠ ip6NexthHopbyhop ∧
      e.p.len < ip6Hlen + (2048 - quotedHbhLen b * 8) % 256 ∧
      nexthOf e.p.payload ≠ b.getD 97 0) := by
  rw [PassedOver, ← quotedHbhLen_rest left, Nat.add_lt_add_iff_right]

/-- A deletion by a complete message with nothing behind it leaves the message
only if it overreads it. -/
theorem deleteByIcmpData_fault {removed : Bool} {s : StorageFunction}
    (same : icmp.payload.drop ip6Hlen = b.drop ip6Hlen) (size : icmp.mem.length = b.length)
    (long : 105 ≤ icmp.len) :
    dtnStorageDeletePacketByIcmpData removed s icmp = .error .fault ↔
      Overreads b s.packetListHead := by
  have hlt : quotedHbhLen b < 256 := (b.getD 98 0).toNat_lt
  have hlong : 105 ≤ b.length := by
    rw [← size, Pbuf.mem, List.length_append]
    exact Nat.le_trans long (Nat.le_add_right _ _)
  rw [dtnStorageDeletePacketByIcmpData, quotedPacket_congr same]
  split
  · rename_i hempty
    refine iff_of_false (Run.ok_ne_error _ _) fun h => ?_
    obtain ⟨front, e, back, hlist, -⟩ := h.reached
    rw [hlist] at hempty
    simp at hempty
  rw [if_neg (show ¬ icmp.len < ip6Hlen + 8 + 9 + ip6Hlen + 8 from Nat.not_lt.mpr long)]
  dsimp only
  by_cases tagged : b.getD 63 0 = ip6NexthHopbyhop
  case neg =>
    rw [quotedPacket_plain tagged, if_neg (by exact Nat.succ_ne_zero _), removeFirst_error,
      walk_fault, size]
    exact iff_of_false (fun h => Nat.not_lt.mpr hlong h.1) fun h => tagged h.tagged
  rw [quotedPacket_hopbyhop tagged]
  dsimp only
  by_cases left : quotedHbhLen b % 32 = 0
  · -- nothing seems to be left behind the header, and only the addresses are compared
    rw [if_pos (by omega)]
    obtain ⟨s', hs'⟩ := deleteByIpHeader_returns removed s (quotedHeader b)
    rw [hs']
    exact iff_of_false (Run.ok_ne_error _ _) fun h => h.left left
  · have hend : 105 + quotedHbhLen b * 8 + (2048 - quotedHbhLen b * 8) % 256 =
        361 + quotedHbhLen b / 32 * 256 := by omega
    rw [if_neg (by omega), removeFirst_error, walk_fault, size]
    dsimp only
    rw [hend]
    constructor
    · rintro ⟨short, front, e, back, hlist, hfront, he⟩
      exact ⟨tagged, left, short, front, e, back, hlist,
        fun x hx => (passedOver_iff left).mpr (hfront x hx), (compared_iff left).mpr he⟩
    · rintro ⟨-, -, short, front, e, back, hlist, hfront, he⟩
      exact ⟨short, front, e, back, hlist,
        fun x hx => (passedOver_iff left).mp (hfront x hx), (compared_iff left).mp he⟩

end Walk

/-! Deletions that change nothing. -/

section Unchanged

variable {attempts : List ForwardingAttempt} {dest : Ip6Addr} {removed : Bool}
  {s : StorageFunction} {hdr : Bytes}

theorem removeTracking_eq_self : dtnControllerRemoveTracking attempts dest = attempts ↔
    ∀ a ∈ attempts, a.isValid = true → a.destination.addr ≠ dest.addr := by
  have huntracked : dest.addr ∉ tracked attempts ↔
      ∀ a ∈ attempts, a.isValid = true → a.destination.addr ≠ dest.addr := by
    rw [tracked, mem_keys]
    simp only [ForwardingAttempt.tracks_eq_some, not_exists, not_and, ne_eq]
  rw [← huntracked, dtnControllerRemoveTracking]
  split
  · rename_i i hslot
    have hperm := tracked_invalidate hslot
    refine ⟨fun heq => ?_, fun hnot => absurd (hperm.mem_iff.mpr List.mem_cons_self) hnot⟩
    have := hperm.length_eq
    rw [heq, List.length_cons] at this
    omega
  · rename_i hslot
    exact ⟨fun _ => trackedSlot_none hslot, fun _ => rfl⟩

theorem deleteByIpHeader_eq_self : dtnStorageDeletePacketByIpHeader removed s hdr = .ok s ↔
    ∀ e ∈ s.packetListHead, ¬ (ip6Hlen ≤ e.p.len ∧ srcOf e.p.payload = srcOf hdr ∧
      destOf e.p.payload = destOf hdr) := by
  have hpasses (e : StoredPacketEntry) : (return matchesHeader hdr e : Run Bool) = .ok false ↔
      ¬ (ip6Hlen ≤ e.p.len ∧ srcOf e.p.payload = srcOf hdr ∧ destOf e.p.payload = destOf hdr) := by
    rw [Run.pure_eq_ok, Except.ok.injEq, matchesHeader, decide_eq_false_iff_not]
  simp only [← hpasses]
  rw [dtnStorageDeletePacketByIpHeader]
  split
  · rename_i hempty
    rw [List.isEmpty_iff.mp hempty]
    exact iff_of_true rfl (List.forall_mem_nil _)
  constructor
  · intro h
    obtain ⟨⟨r, s'⟩, hremove, h⟩ := Run.bind_eq_ok.mp h
    cases h
    obtain ⟨-, -, hnone⟩ | ⟨e, rest, -, hs, front, back, hlist, hrest, -⟩ :=
      removeFirst_cases hremove
    · exact hnone
    · have hlen := congrArg (fun s => s.packetListHead.length) hs
      simp only [StorageFunction.unlinked, hlist, hrest, List.length_append,
        List.length_cons] at hlen
      omega
  · intro hnone
    rw [StorageFunction.removeFirst, unlinkFirst_none.mpr hnone]
    rfl

end Unchanged

/-! The ICMPv6 branch. -/

section Branch

variable {env : IncomingEnv} {icmp : IcmpEnv} {node : Node} {s : StorageFunction} {p : Pbuf}
  {block behind behind' : Bytes}

def message (p : Pbuf) (behind : Bytes) : Pbuf :=
  .single (p.bytes.drop ip6Hlen) behind (by
    have := p.totLen_lt
    rw [List.length_drop, Pbuf.bytes_length]
    omega)

theorem consumeStatus_eq (header : ip6Hlen ≤ p.len) (nexth : nexthOf p.bytes = ip6NexthIcmp6) :
    consumeStatus env node p =
      match pbufAlloc env.icmpClone p.totLen with
      | none => .ok (some node)
      | some (_, behind) => do
          let (handled, node) ← dtnIcmpv6Process env.icmp node (message p behind)
          return if handled then some node else none := by
  have htot : ip6Hlen ≤ p.bytes.length := by
    rw [Pbuf.bytes_length]
    exact Nat.le_trans header (Nat.le_add_right _ _)
  rw [consumeStatus, nexthOf_payload header, if_neg (not_not.mpr nexth), pbufClone]
  cases pbufAlloc env.icmpClone p.totLen with
  | none => rfl
  | some block =>
      obtain ⟨block, behind⟩ := block
      have hremove : (Pbuf.single p.bytes behind (by rw [Pbuf.bytes_length]; exact p.totLen_lt)
          ).removeHeader ip6Hlen = some (message p behind) := if_pos htot
      rw [Option.map_some, Option.bind_some, hremove]

theorem message_totLen (long : ip6Hlen ≤ p.totLen) :
    ip6Hlen + (message p behind).totLen = p.totLen := by
  rw [message, Pbuf.single_totLen, List.length_drop, Pbuf.bytes_length]
  omega

theorem message_type (typed : ip6Hlen < p.totLen) :
    byteAt (message p behind).mem 0 = .ok (p.bytes.getD ip6Hlen 0) := by
  rw [Pbuf.byteAt_mem, message, Pbuf.single_bytes, List.getD_eq_getElem?_getD, List.getElem?_drop,
    List.getD_eq_getElem?_getD, Nat.add_zero]
  rw [Pbuf.len, message, Pbuf.single_payload, List.length_drop, Pbuf.bytes_length]
  omega

theorem message_read {off n : Nat} (long : ip6Hlen + off + n ≤ p.totLen) :
    ∃ b : Block n, readBlock (message p behind).mem off n = .ok b ∧
      b.1 = (p.bytes.drop (ip6Hlen + off)).take n := by
  have hlen : off + n ≤ (p.bytes.drop ip6Hlen).length := by
    rw [List.length_drop, Pbuf.bytes_length]
    omega
  have hle : off + n ≤ (message p behind).mem.length := by
    rw [message, Pbuf.single_mem, List.length_append]
    exact Nat.le_trans hlen (Nat.le_add_right _ _)
  obtain ⟨b, hb, hval⟩ := readBlock_of_le hle
  refine ⟨b, hb, ?_⟩
  rw [hval, message, Pbuf.single_mem, List.drop_append_of_le_length (by omega),
    List.take_append_of_le_length (by rw [List.length_drop]; omega), List.drop_drop]

theorem process_quoted (long : 97 ≤ p.totLen)
    (type : p.bytes.getD ip6Hlen 0 = icmp6TypeDtnPckReceived) :
    ∃ dest : Block 16, dest.1 = destOf (quotedHeader p.bytes) ∧
      dtnIcmpv6Process icmp node (message p behind) = (do
        let storage ← deleteAcknowledged icmp node.storage (message p behind)
        return (true, ⟨storage,
          dtnControllerRemoveTracking node.attempts ⟨dest, 0, noPadding⟩⟩)) := by
  obtain ⟨head, hhead, -⟩ := @message_read p behind 0 17 (by rw [ip6Hlen]; omega)
  obtain ⟨dest, hdest, hval⟩ := @message_read p behind 41 16 (by rw [ip6Hlen]; omega)
  refine ⟨dest, ?_, ?_⟩
  · rw [hval, quotedHeader, destOf_take _ (by decide), destOf, List.drop_drop]
    rfl
  · have htype := @message_type p behind (by rw [ip6Hlen]; omega)
    simp only [dtnIcmpv6Process, htype, type, hhead, hdest, Run.bind_ok, if_true]

theorem deleteAcknowledged_uncopied (long : 97 ≤ p.totLen)
    (none : pbufAlloc icmp.copy p.totLen = none) :
    deleteAcknowledged icmp s (message p behind) =
      dtnStorageDeletePacketByIpHeader icmp.removed s (quotedHeader p.bytes) := by
  obtain ⟨hdr, hhdr, hval⟩ := @message_read p behind 17 ip6Hlen (by rw [ip6Hlen]; omega)
  rw [deleteAcknowledged, message_totLen (Nat.le_trans (by decide) long), none]
  dsimp only
  split
  · rename_i hempty
    rw [dtnStorageDeletePacketByIpHeader, if_pos hempty]
  · rw [hhdr, Run.bind_ok, hval]
    rfl

theorem deleteAcknowledged_short (header : ip6Hlen ≤ p.totLen) (short : p.totLen < 105)
    (hblock : pbufAlloc icmp.copy p.totLen = some (block, behind')) :
    deleteAcknowledged icmp s (message p behind) = .ok s := by
  have htot := @message_totLen p behind header
  have hlen := rebuilt_length icmp (message p behind)
  rw [deleteAcknowledged_rebuilt (by rw [htot]; exact hblock)
    (by rw [hlen]; omega), dtnStorageDeletePacketByIcmpData]
  split
  · rfl
  · rw [if_pos]
    · rfl
    · rw [Pbuf.len, Pbuf.single_payload, hlen]
      exact Nat.lt_of_le_of_lt (Nat.le_of_eq htot) short

theorem deleteAcknowledged_fault (long : 105 ≤ p.totLen)
    (hblock : pbufAlloc icmp.copy p.totLen = some (block, [])) :
    deleteAcknowledged icmp s (message p behind) = .error .fault ↔
      Overreads p.bytes s.packetListHead := by
  have htot := @message_totLen p behind (Nat.le_trans (by decide) long)
  have hlen : (rebuilt icmp (message p behind)).length = p.bytes.length := by
    rw [rebuilt_length, Pbuf.bytes_length]
    exact htot
  rw [deleteAcknowledged_rebuilt (by rw [htot]; exact hblock)
    (by rw [hlen, Pbuf.bytes_length]; exact p.totLen_lt)]
  refine deleteByIcmpData_fault ?_ ?_ ?_
  · rw [Pbuf.single_payload]
    exact (rebuilt_drop icmp (message p behind) 0).trans (by rw [message, Pbuf.single_bytes]; rfl)
  · rw [Pbuf.single_mem, List.append_nil, hlen]
  · rw [Pbuf.len, Pbuf.single_payload, hlen, Pbuf.bytes_length]
    exact long

/-- In memory that ends with the message only the comparison with the stored packets may
leave it. -/
theorem deleteAcknowledged_inside (long : 97 ≤ p.totLen)
    (tight : ∀ m, icmp.copy = some m → m.length ≤ p.totLen)
    (inside : 105 ≤ p.totLen → ¬ Overreads p.bytes s.packetListHead) :
    deleteAcknowledged icmp s (message p behind) ≠ .error .fault := by
  cases hblock : pbufAlloc icmp.copy p.totLen with
  | none =>
      rw [deleteAcknowledged_uncopied long hblock]
      obtain ⟨s', hs'⟩ := deleteByIpHeader_returns icmp.removed s (quotedHeader p.bytes)
      rw [hs']
      exact Run.ok_ne_error _ _
  | some copy =>
      obtain ⟨block, rest⟩ := copy
      obtain rfl := pbufAlloc_tight p.totLen_lt tight hblock
      by_cases short : p.totLen < 105
      · rw [deleteAcknowledged_short (Nat.le_trans (by decide) long) short hblock]
        exact Run.ok_ne_error _ _
      · rw [ne_eq, deleteAcknowledged_fault (Nat.not_lt.mp short) hblock]
        exact inside (Nat.not_lt.mp short)

theorem process_inside (enough : LongEnough p.bytes node.storage.packetListHead)
    (tight : ∀ m, icmp.copy = some m → m.length ≤ p.totLen) :
    dtnIcmpv6Process icmp node (message p []) ≠ .error .fault := by
  obtain ⟨typed, status, quote, inside⟩ := enough
  rw [Pbuf.bytes_length] at typed status quote inside
  by_cases received : p.bytes.getD ip6Hlen 0 = icmp6TypeDtnPckReceived
  · have long := quote received
    obtain ⟨dest, -, hprocess⟩ := @process_quoted icmp node p [] long received
    rw [hprocess, ne_eq, Run.bind_eq_error]
    rintro (hfault | ⟨storage, -, hfault⟩)
    · exact deleteAcknowledged_inside long tight (inside received) hfault
    · cases hfault
  · rw [dtnIcmpv6Process, message_type typed, Run.bind_ok, if_neg received]
    split
    · rename_i others
      obtain ⟨head, hhead, -⟩ := @message_read p [] 0 17
        (status (List.mem_cons_of_mem _
          (by simpa only [List.mem_cons, List.not_mem_nil, or_false])))
      rw [hhead]
      exact Run.ok_ne_error _ _
    · exact Run.ok_ne_error _ _

theorem message_read_fault {off n : Nat} (header : ip6Hlen ≤ p.totLen)
    (short : p.totLen < ip6Hlen + off + n) :
    readBlock (message p []).mem off n = .error .fault := by
  rw [readBlock_fault, message, Pbuf.single_mem, List.append_nil, List.length_drop,
    Pbuf.bytes_length]
  omega

theorem process_empty (empty : p.totLen ≤ ip6Hlen) :
    dtnIcmpv6Process icmp node (message p []) = .error .fault := by
  rw [dtnIcmpv6Process, byteAt_of_le]
  · rfl
  · rw [message, Pbuf.single_mem, List.append_nil, List.length_drop, Pbuf.bytes_length]
    omega

theorem process_truncated (typed : ip6Hlen < p.totLen) (short : p.totLen < 57)
    (status : p.bytes.getD ip6Hlen 0 ∈ statusTypes) :
    dtnIcmpv6Process icmp node (message p []) = .error .fault := by
  have hread : readBlock (message p []).mem 0 17 = .error .fault :=
    message_read_fault (Nat.le_of_lt typed) short
  rw [dtnIcmpv6Process, message_type typed, Run.bind_ok, hread]
  split
  · rfl
  · rename_i other
    rw [if_pos]
    · rfl
    · simpa only [statusTypes, List.mem_cons, List.not_mem_nil, or_false, other,
        false_or] using status

/-- The destination of the quoted header is read whatever the deletion has made of it. -/
theorem process_unquoted (long : 57 ≤ p.totLen) (short : p.totLen < 97)
    (type : p.bytes.getD ip6Hlen 0 = icmp6TypeDtnPckReceived)
    (hblock : pbufAlloc icmp.copy p.totLen = some (block, behind')) :
    dtnIcmpv6Process icmp node (message p []) = .error .fault := by
  have header : ip6Hlen < p.totLen := Nat.lt_of_lt_of_le (by decide) long
  obtain ⟨head, hhead, -⟩ := @message_read p [] 0 17 long
  have hdest : readBlock (message p []).mem 41 16 = .error .fault :=
    message_read_fault (Nat.le_of_lt header) short
  have hdelete :=
    @deleteAcknowledged_short icmp node.storage p block [] behind' (Nat.le_of_lt header)
    (Nat.lt_trans short (by decide)) hblock
  simp only [dtnIcmpv6Process, message_type header, type, hhead, hdest, hdelete, Run.bind_ok,
    Run.bind_error, if_true]

theorem process_unknown (long : 97 ≤ p.totLen) (short : p.totLen < 105)
    (type : p.bytes.getD ip6Hlen 0 = icmp6TypeDtnPckReceived) (unknown : Unknown p.bytes node) :
    dtnIcmpv6Process icmp node (message p behind) = .ok (true, node) := by
  obtain ⟨dest, hdest, hprocess⟩ := @process_quoted icmp node p behind long type
  have hdelete : deleteAcknowledged icmp node.storage (message p behind) = .ok node.storage := by
    cases hblock : pbufAlloc icmp.copy p.totLen with
    | none =>
        rw [deleteAcknowledged_uncopied long hblock]
        exact deleteByIpHeader_eq_self.mpr unknown.unstored
    | some copy => exact deleteAcknowledged_short (Nat.le_trans (by decide) long) short hblock
  have hattempts :
      dtnControllerRemoveTracking node.attempts ⟨dest, 0, noPadding⟩ = node.attempts := by
    refine removeTracking_eq_self.mpr fun a ha valid heq => unknown.untracked a ha valid ?_
    rw [heq, hdest]
  rw [hprocess, hdelete, Run.bind_ok, hattempts]
  rfl

theorem unknown_of_process (long : 97 ≤ p.totLen)
    (type : p.bytes.getD ip6Hlen 0 = icmp6TypeDtnPckReceived)
    (none : pbufAlloc icmp.copy p.totLen = none)
    (h : dtnIcmpv6Process icmp node (message p behind) = .ok (true, node)) :
    Unknown p.bytes node := by
  obtain ⟨dest, hdest, hprocess⟩ := @process_quoted icmp node p behind long type
  rw [hprocess, deleteAcknowledged_uncopied long none] at h
  obtain ⟨storage, hdelete, h⟩ := Run.bind_eq_ok.mp h
  simp only [Run.pure_eq_ok, Except.ok.injEq, Prod.mk.injEq, true_and] at h
  have hstorage : storage = node.storage := congrArg Node.storage h
  have hattempts := congrArg Node.attempts h
  constructor
  · intro a ha valid heq
    exact removeTracking_eq_self.mp hattempts a ha valid (Subtype.ext (heq.trans hdest.symm))
  · exact deleteByIpHeader_eq_self.mp (hstorage ▸ hdelete)

/-! Memory that ends with the message. -/

/-- Just enough memory for the first copy of the packet. -/
def tightIncoming (p : Pbuf) (copy : Heap) : IncomingEnv :=
  { incomingAt 7 true with
    icmpClone := tightHeap p.totLen
    icmp := { (incomingAt 7 true).icmp with copy := copy } }

theorem consumeStatus_tight {copy : Heap} (header : ip6Hlen ≤ p.len)
    (nexth : nexthOf p.bytes = ip6NexthIcmp6) :
    consumeStatus (tightIncoming p copy) node p = (do
      let (handled, node) ← dtnIcmpv6Process (tightIncoming p copy).icmp node (message p [])
      return if handled then some node else none) := by
  obtain ⟨block, hblock⟩ := alloc_tight p
  rw [consumeStatus_eq header nexth]
  simp only [tightIncoming, hblock]

theorem consumeStatus_inside_iff (header : ip6Hlen ≤ p.len)
    (nexth : nexthOf p.bytes = ip6NexthIcmp6) :
    (∀ env, TightCopies env p → consumeStatus env node p ≠ .error .fault) ↔
      LongEnough p.bytes node.storage.packetListHead := by
  constructor
  · intro inside
    obtain ⟨block, hblock⟩ := alloc_tight p
    -- the second copy ends with the message, too
    have hprocess : dtnIcmpv6Process (tightIncoming p (tightHeap p.totLen)).icmp node (message p [])
        ≠ .error .fault := by
      intro hfault
      apply inside (tightIncoming p (tightHeap p.totLen)) ⟨tightHeap_length, tightHeap_length⟩
      rw [consumeStatus_tight header nexth]
      exact Run.bind_eq_error.mpr (.inl hfault)
    have typed : ip6Hlen < p.totLen := Nat.not_le.mp fun empty => hprocess (process_empty empty)
    have status (hstatus : p.bytes.getD ip6Hlen 0 ∈ statusTypes) : 57 ≤ p.totLen :=
      Nat.not_lt.mp fun short => hprocess (process_truncated typed short hstatus)
    have quote (type : p.bytes.getD ip6Hlen 0 = icmp6TypeDtnPckReceived) : 97 ≤ p.totLen := by
      have long := status (by rw [type]; exact List.mem_cons_self)
      exact Nat.not_lt.mp fun short => hprocess (process_unquoted long short type hblock)
    constructor
    all_goals rw [Pbuf.bytes_length]
    · exact typed
    · exact status
    · exact quote
    · intro type long overreads
      obtain ⟨dest, -, hquoted⟩ := @process_quoted (tightIncoming p (tightHeap p.totLen)).icmp node
        p [] (quote type) type
      apply hprocess
      rw [hquoted, (deleteAcknowledged_fault long hblock).mpr overreads]
      rfl
  · intro enough env tight
    rw [consumeStatus_eq header nexth]
    split
    · exact Run.ok_ne_error _ _
    · rename_i hblock
      obtain rfl := pbufAlloc_tight p.totLen_lt tight.clone hblock
      rw [ne_eq, Run.bind_eq_error]
      rintro (hfault | ⟨⟨handled, node'⟩, -, hfault⟩)
      · exact process_inside enough tight.copy hfault
      · cases hfault

theorem consumeStatus_ignores_iff (header : ip6Hlen ≤ p.len)
    (nexth : nexthOf p.bytes = ip6NexthIcmp6) (long : 97 ≤ p.totLen) (short : p.totLen < 105)
    (type : p.bytes.getD ip6Hlen 0 = icmp6TypeDtnPckReceived) :
    (∀ env, consumeStatus env node p = .ok (some node)) ↔ Unknown p.bytes node := by
  constructor
  · intro ignored
    have hignored := ignored (tightIncoming p none)
    rw [consumeStatus_tight header nexth] at hignored
    obtain ⟨⟨handled, node'⟩, hprocess, hsame⟩ := Run.bind_eq_ok.mp hignored
    cases handled with
    | false => cases hsame
    | true =>
        cases hsame
        exact unknown_of_process long type rfl hprocess
  · intro unknown env
    rw [consumeStatus_eq header nexth]
    split
    · rfl
    · rw [process_unknown long short type unknown]
      rfl

end Branch

/-- The ICMPv6 branch is harmless for a packet exactly if its message is long enough for
all that is read of it, and does not stop between the quoted header and the eight bytes
behind it unless the header is unknown. -/
theorem short_status_harmless_iff (node : Node) (p : Pbuf) (header : ip6Hlen ≤ p.len)
    (nexth : nexthOf p.bytes = ip6NexthIcmp6) :
    HarmlessStatus node p ↔ LongEnough p.bytes node.storage.packetListHead ∧
      (p.bytes.getD ip6Hlen 0 = icmp6TypeDtnPckReceived → p.totLen < 105 →
        Unknown p.bytes node) := by
  rw [HarmlessStatus, consumeStatus_inside_iff header nexth]
  refine and_congr_right fun enough => ?_
  refine forall_congr' fun type => forall_congr' fun short => ?_
  have long : 97 ≤ p.totLen := by
    rw [← Pbuf.bytes_length]
    exact enough.quote type
  exact consumeStatus_ignores_iff header nexth long short type

/-- A complete message about a packet to a destination, and parts of it. -/
def statusSample (n : Nat) : Pbuf :=
  .single (([0x60, 0, 0, 0, 0, 65, 58, 255] ++ (netAddr 0x12 2).1 ++ (netAddr 0 2).1 ++
    ([200] ++ List.replicate 16 0) ++
    ([0x60, 0, 0, 0, 0, 8, 17, 64] ++ (netAddr 1 1).1 ++ (netAddr 0x23 3).1) ++
    [0x11, 0x1f, 0x20, 0, 0, 8, 0, 0]).take n) [] (by
      rw [List.length_take]
      exact Nat.lt_of_le_of_lt (Nat.min_le_right _ _) (by decide))

def busyStorage : StorageFunction :=
  (StorageCall.runAll hexAddrText [storeFrom 2 nearAddr 8, storeFrom 3 farAddr 9]
    emptyStorage).toOption.getD emptyStorage

/-- A node that stores them and has tried to forward one of them. -/
def busyNode : Node := ⟨busyStorage, dtnControllerCreate.set 0 ⟨farAddr, 30, 1, true⟩⟩

/-- A message that stops behind the quoted header, about a packet that the node does not
know. -/
theorem short_status_harmless_unknown :
    busyStorage.packetListHead.length = 2 ∧
      shouldAttemptForward ⟨30, true⟩ ⟨busyStorage, dtnControllerCreate⟩ farAddr =
        .ok (true, busyNode) ∧
      HarmlessStatus busyNode (statusSample 97) := by
  refine ⟨by decide +kernel, by decide +kernel, (short_status_harmless_iff busyNode
    (statusSample 97) (by decide) (by decide)).mpr
    ⟨⟨by decide, by decide, by decide, fun _ long => ?_⟩,
      fun _ _ => ⟨by decide +kernel, by decide +kernel⟩⟩⟩
  exact absurd long (by decide)

def trackingNode : Node :=
  { emptyNode with attempts := emptyNode.attempts.set 0 ⟨farNode, 7, 1, true⟩ }

/-- The message that stops behind the quoted header untracks the destination in it, and the
type of an empty message is read outside. -/
theorem short_status_untracks :
    shouldAttemptForward ⟨7, true⟩ emptyNode farNode = .ok (true, trackingNode) ∧
      consumeStatus (incomingAt 8 true) trackingNode (statusSample 97) =
        .ok (some { trackingNode with attempts := invalidate trackingNode.attempts 0 }) ∧
      ¬ HarmlessStatus trackingNode (statusSample 97) ∧
      consumeStatus (tightIncoming (statusSample 40) none) trackingNode (statusSample 40) =
        .error .fault := by
  have huntracked : consumeStatus (incomingAt 8 true) trackingNode (statusSample 97) =
      .ok (some { trackingNode with attempts := invalidate trackingNode.attempts 0 }) := by
    decide +kernel
  refine ⟨by decide +kernel, huntracked, ?_, by decide +kernel⟩
  rintro ⟨-, ignored⟩
  have hignored := ignored (by decide +kernel) (by decide +kernel) (incomingAt 8 true)
  rw [huntracked, Except.ok.injEq, Option.some.injEq] at hignored
  exact absurd hignored (by decide +kernel)

end LwipDtn
