import LwipDtn.CustodyBuffers
import LwipDtn.CustodyWalk

/-!
What `dtn_extract_custodian_option` takes for a custodian option. It looks at the bytes
where its walk stops, without asking whether they belong to a header, to the payload or
to the packet at all, so the answer is right only for packets whose payload does not
happen to lead the walk to such bytes.
-/

namespace LwipDtn
open Outcome Bytes

/-- The bytes start like a hop-by-hop header whose first option is a custodian option. -/
def OptionFirst (h : Bytes) (c : Block 16) : Prop :=
  ∃ x y, h.take 20 = x :: y :: custodyOptionType :: 16 :: c.1

/-- The length that a hop-by-hop header behind the fixed header says it has. -/
def hbhLen (b : Bytes) : Nat := ((b.getD 41 0).toNat + 1) * 8

/-- The packet carries a custodian option: its first header is a hop-by-hop header that
lies within the packet, and the first option of that header, which lies within the
header, has the type, the length and the address. -/
structure CarriesCustodian (b : Bytes) (c : Block 16) : Prop where
  first : nexthOf b = ip6NexthHopbyhop
  header : ip6Hlen + hbhLen b ≤ b.length
  option : 20 ≤ hbhLen b
  custodian : OptionFirst (b.drop ip6Hlen) c

/-- The payload leads the walk to an option: parts that it steps over, one that names a
hop-by-hop header, and bytes that start like such a header as far behind as the length
byte of that last part says. -/
def LeadsToOption (payload : Bytes) (c : Block 16) : Prop :=
  ∃ parts extLen rest,
    payload = List.flatten parts ++ ip6NexthHopbyhop :: extLen :: rest ∧
    (∀ h ∈ parts, SteppedOver h) ∧
    OptionFirst (payload.drop (parts.flatten.length + (extLen.toNat + 1) * 8 % 256)) c

/-- What stands where the option is looked for is an option of the packet: a leading
hop-by-hop header that starts with the option is long enough for it and lies within the
packet, and no other payload leads the walk to such bytes. -/
def ShowsOnlyOptions (p : Pbuf) : Prop :=
  if nexthOf p.bytes = ip6NexthHopbyhop then
    (∃ c, OptionFirst (p.mem.drop ip6Hlen) c) →
      20 ≤ hbhLen p.bytes ∧ ip6Hlen + hbhLen p.bytes ≤ p.totLen
  else nexthOf p.bytes = ip6NexthNone ∨ ¬ ∃ c, LeadsToOption (p.mem.drop ip6Hlen) c

theorem optionFirst_iff {m : Bytes} {ptr : Nat} {c : Block 16} :
    OptionFirst (m.drop ptr) c ↔ byteAt m (ptr + 2) = .ok custodyOptionType ∧
      byteAt m (ptr + 3) = .ok 16 ∧ readBlock m (ptr + 4) 16 = .ok c := by
  have hbyte (i : Nat) : m[ptr + i]? = (m.drop ptr)[i]? := List.getElem?_drop.symm
  have hblock : m.drop (ptr + 4) = (m.drop ptr).drop 4 := (List.drop_drop ..).symm
  have hlen : ptr + 4 + 16 ≤ m.length ↔ 20 ≤ (m.drop ptr).length := by
    rw [List.length_drop]
    omega
  rw [byteAt_eq_ok, byteAt_eq_ok, readBlock_eq_ok, hbyte, hbyte, hblock, hlen]
  generalize m.drop ptr = h
  constructor
  · rintro ⟨x, y, htake⟩
    obtain ⟨tail, rfl⟩ : ∃ tail, h = (x :: y :: custodyOptionType :: 16 :: c.1) ++ tail :=
      ⟨h.drop 20, by rw [← htake, List.take_append_drop]⟩
    refine ⟨rfl, rfl, ?_, ?_⟩
    · simp only [List.length_append, List.length_cons, c.2]
      omega
    · simp only [List.cons_append, List.drop_succ_cons, List.drop_zero]
      rw [List.take_left' c.2]
  · rintro ⟨htype, hdata, hlong, hc⟩
    match h, htype, hdata, hlong, hc with
    | x :: y :: t :: l :: rest, htype, hdata, hlong, hc =>
        cases htype
        cases hdata
        exact ⟨x, y, by simp [hc]⟩

/-- The answer is an address exactly if the walk stops at a hop-by-hop header and the
bytes there start like one with the option. -/
theorem extract_some {p : Pbuf} {c : Block 16} (header : ip6Hlen ≤ p.len) :
    dtnExtractCustodianOption p = .ok (some c) ↔
      ∃ stop, skipExtensionHeaders p.mem (p.mem.length + 2) (nexthOf p.bytes) ip6Hlen =
        .ok (ip6NexthHopbyhop, stop) ∧ OptionFirst (p.mem.drop stop) c := by
  simp only [dtnExtractCustodianOption, nexth_mem header, Run.bind_ok, optionFirst_iff]
  constructor
  · intro h
    obtain ⟨⟨n, stop⟩, hwalk, h⟩ := Run.bind_eq_ok.mp h
    dsimp only at h
    split at h
    · cases h
    rename_i hn
    cases not_ne_iff.mp hn
    obtain ⟨type, htype, h⟩ := Run.bind_eq_ok.mp h
    split at h
    · cases h
    rename_i custody
    cases not_ne_iff.mp custody
    obtain ⟨len, hlen, h⟩ := Run.bind_eq_ok.mp h
    split at h
    · cases h
    rename_i sixteen
    cases not_ne_iff.mp sixteen
    obtain ⟨addr, haddr, h⟩ := Run.bind_eq_ok.mp h
    cases h
    exact ⟨stop, hwalk, htype, hlen, haddr⟩
  · rintro ⟨stop, hwalk, htype, hlen, haddr⟩
    simp only [hwalk, Run.bind_ok, ne_eq, not_true, if_false, htype, hlen, haddr, Run.pure_eq_ok]

theorem walk_to_option {p : Pbuf} {c : Block 16} (hstop : ¬ StopsWalk (nexthOf p.bytes)) :
    (∃ stop, skipExtensionHeaders p.mem (p.mem.length + 2) (nexthOf p.bytes) ip6Hlen =
      .ok (ip6NexthHopbyhop, stop) ∧ OptionFirst (p.mem.drop stop) c) ↔
      LeadsToOption (p.mem.drop ip6Hlen) c := by
  constructor
  · rintro ⟨stop, hwalk, hoption⟩
    obtain ⟨-, parts, extLen, rest, hparts, hover, rfl⟩ := headers_of_walk hstop hwalk
    refine ⟨parts, extLen, rest, hparts, hover, ?_⟩
    rwa [List.drop_drop, ← Nat.add_assoc]
  · rintro ⟨parts, extLen, rest, hparts, hover, hoption⟩
    refine ⟨_, walk_of_headers hstop hparts hover (.inl rfl) ?_, ?_⟩
    · have hlen := congrArg List.length hparts
      have := parts_length_le hover
      rw [List.length_append, List.length_drop] at hlen
      omega
    · rwa [List.drop_drop, ← Nat.add_assoc] at hoption

theorem Pbuf.Pooled.take {p : Pbuf} (layout : p.Pooled) {n : Nat} (hn : n ≤ pbufPoolBufsize)
    (long : n ≤ p.totLen) : p.bytes.take n = p.mem.take n := by
  have hlen : n ≤ p.payload.length := layout.le_len hn long
  rw [Pbuf.bytes, Pbuf.mem, List.take_append_of_le_length hlen, List.take_append_of_le_length hlen]

/-- The packet carries an address if its hop-by-hop header is complete and the bytes that
the extraction reads show it. -/
theorem carriesCustodian_iff {p : Pbuf} (layout : p.Pooled)
    (first : nexthOf p.bytes = ip6NexthHopbyhop) {c : Block 16} : CarriesCustodian p.bytes c ↔
      (20 ≤ hbhLen p.bytes ∧ ip6Hlen + hbhLen p.bytes ≤ p.totLen) ∧
        OptionFirst (p.mem.drop ip6Hlen) c := by
  have hshown (hoption : 20 ≤ hbhLen p.bytes) (hlong : ip6Hlen + hbhLen p.bytes ≤ p.totLen) :
      OptionFirst (p.bytes.drop ip6Hlen) c ↔ OptionFirst (p.mem.drop ip6Hlen) c := by
    rw [OptionFirst, OptionFirst, List.take_drop, layout.take (by decide)
      (by rw [ip6Hlen] at hlong ⊢; omega), ← List.take_drop]
  constructor
  · intro h
    have hlong := h.header
    rw [Pbuf.bytes_length] at hlong
    exact ⟨⟨h.option, hlong⟩, (hshown h.option hlong).mp h.custodian⟩
  · rintro ⟨⟨hoption, hlong⟩, hcustodian⟩
    exact ⟨first, by rwa [Pbuf.bytes_length], hoption, (hshown hoption hlong).mpr hcustodian⟩

/-- On a packet on which it returns, the extraction answers with an address exactly if the
packet carries it, if and only if nothing else looks like an option to it. -/
theorem extracts_option_iff (p : Pbuf) (layout : p.Pooled) (wf : WellFormed p.bytes)
    (r : Option (Block 16)) (returns : dtnExtractCustodianOption p = .ok r) :
    (∀ c, r = some c ↔ CarriesCustodian p.bytes c) ↔ ShowsOnlyOptions p := by
  have header : ip6Hlen ≤ p.len :=
    layout.le_len (by decide) (by rw [← Pbuf.bytes_length]; exact wf.header)
  have hr (c : Block 16) : r = some c ↔
      ∃ stop, skipExtensionHeaders p.mem (p.mem.length + 2) (nexthOf p.bytes) ip6Hlen =
        .ok (ip6NexthHopbyhop, stop) ∧ OptionFirst (p.mem.drop stop) c := by
    rw [← extract_some header, returns, Except.ok.injEq]
  rw [ShowsOnlyOptions]
  by_cases first : nexthOf p.bytes = ip6NexthHopbyhop
  · have hstops (c : Block 16) : r = some c ↔ OptionFirst (p.mem.drop ip6Hlen) c := by
      rw [hr, skip_stops (.inl first), first]
      simp
    rw [if_pos first]
    simp only [hstops, carriesCustodian_iff layout first]
    constructor
    · rintro h ⟨c, hc⟩
      exact ((h c).mp hc).1
    · intro h c
      exact ⟨fun hc => ⟨h ⟨c, hc⟩, hc⟩, And.right⟩
  · have hcarries (c : Block 16) : ¬ CarriesCustodian p.bytes c := fun h => first h.first
    rw [if_neg first]
    simp only [hcarries, iff_false]
    by_cases last : nexthOf p.bytes = ip6NexthNone
    · have hnone (c : Block 16) : ¬ r = some c := by
        rw [hr, skip_stops (.inr last), last]
        rintro ⟨stop, hwalk, -⟩
        cases hwalk
      simp [hnone, last]
    · have hstop : ¬ StopsWalk (nexthOf p.bytes) := not_or.mpr ⟨first, last⟩
      simp only [hr, walk_to_option hstop, last, false_or, not_exists]

theorem extracts_option_padded :
    dtnExtractCustodianOption (.single paddedPacket [] (by decide)) = .ok (some sampleAddr) ∧
      ∀ c, some sampleAddr = some c ↔ CarriesCustodian paddedPacket c := by
  have hreturns : dtnExtractCustodianOption (.single paddedPacket [] (by decide)) =
      .ok (some sampleAddr) := rfl
  refine ⟨hreturns, ?_⟩
  have hiff := extracts_option_iff (.single paddedPacket [] (by decide)) (.inl rfl)
    (by rw [Pbuf.single_bytes]; decide) _ hreturns
  rw [Pbuf.single_bytes] at hiff
  apply hiff.mpr
  rw [ShowsOnlyOptions, Pbuf.single_bytes, if_pos (by decide)]
  exact fun _ => ⟨by decide, by decide⟩

/-- A UDP datagram from port 1: its first byte reads as the next header 0 and its second
as a step of sixteen bytes, to data that looks like the option. -/
def disguisedPacket : Bytes :=
  [0x60, 0, 0, 0, 0, 36, 17, 64] ++ List.replicate 32 0 ++ [0, 1, 0x20, 0, 0, 36, 0, 0] ++
    List.replicate 8 0 ++ [0, 0, 0x1E, 16] ++ sampleAddr.1

theorem extracts_transport_bytes :
    WellFormed disguisedPacket ∧ nexthOf disguisedPacket = 17 ∧
      dtnExtractCustodianOption (.single disguisedPacket [] (by decide)) = .ok (some sampleAddr) ∧
      ¬ CarriesCustodian disguisedPacket sampleAddr :=
  ⟨by decide, rfl, rfl, fun h => absurd h.first (by decide)⟩

end LwipDtn
