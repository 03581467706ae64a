import LwipDtn.CustodyExtract

/-!
Lengths in the rewriting functions. Stripping takes 24 bytes out whatever the length
byte of the header says; sizes of new packets come from the payload length field while
copies are as long as the buffer, and both are read from the first segment only.
-/

namespace LwipDtn
open Outcome Bytes

/-! What stripping keeps. -/

/-- The packet `b'` is `b` without its hop-by-hop header. -/
structure WithoutHopByHop (b b' : Bytes) : Prop where
  payload : b'.drop ip6Hlen = b.drop (ip6Hlen + hbhLen b)
  nexth : nexthOf b' = b.getD ip6Hlen 0
  plen : plenOf b' + ip6Hlen = b'.length
  first : b'.take 4 = b.take 4
  addresses : (b'.drop 7).take 33 = (b.drop 7).take 33

theorem untagged_parts {b : Bytes} (h : 40 ≤ b.length) :
    (untagged b).drop ip6Hlen = b.drop (ip6Hlen + hbhOptHdrLen) ∧
      nexthOf (untagged b) = b.getD ip6Hlen 0 ∧ (untagged b).take 4 = b.take 4 ∧
      ((untagged b).drop 7).take 33 = (b.drop 7).take 33 := by
  have hv : (b.take 4).length = 4 := by
    rw [List.length_take]
    omega
  have ht : ((b.drop 7).take 33).length = 33 := by
    rw [List.length_take, List.length_drop]
    omega
  exact ⟨split_payload hv ht, split_nexth hv, split_take hv, split_addresses hv ht⟩

theorem strip_true {heap : Heap} {p q : Pbuf}
    (h : dtnStripCustodianOption heap p = .ok (true, q)) :
    byteAt p.mem 6 = .ok ip6NexthHopbyhop ∧ 64 ≤ p.totLen ∧ p.totLen ≤ p.mem.length := by
  simp only [dtnStripCustodianOption, Run.bind_eq_ok] at h
  obtain ⟨nexth, hnexth, h⟩ := h
  split at h
  · cases h
  rename_i first
  cases not_ne_iff.mp first
  simp only [Run.bind_eq_ok] at h
  obtain ⟨next, -, len, -, h⟩ := h
  split at h
  · cases h
  simp only [Run.bind_eq_ok] at h
  obtain ⟨hdr, -, m₁, -, n, hn, src, hsrc, -⟩ := h
  obtain ⟨hlong, rfl⟩ := copyLength_eq_ok.mp hn
  have hread := (readBlock_eq_ok.mp hsrc).1
  rw [ip6Hlen, hbhOptHdrLen] at hlong hread
  exact ⟨hnexth, by omega, by omega⟩

theorem Pbuf.Pooled.seen_take {p : Pbuf} (layout : p.Pooled) {n : Nat} (hn : n ≤ pbufPoolBufsize)
    (long : n ≤ p.totLen) : p.seen.take n = p.bytes.take n := by
  rw [layout.take hn long, Pbuf.seen, List.take_take, Nat.min_eq_left long]

/-- Taking 24 bytes out leaves the packet without its hop-by-hop header exactly if the
header has 24 bytes and the packet lies in one piece. -/
theorem untagged_without_iff {p : Pbuf} (layout : p.Pooled) (wf : WellFormed p.bytes)
    (complete : ip6Hlen + hbhLen p.bytes ≤ p.totLen) (long : 64 ≤ p.totLen)
    (readable : p.totLen ≤ p.mem.length) :
    WithoutHopByHop p.bytes (untagged p.seen) ↔ hbhLen p.bytes = 24 ∧ p.seen = p.bytes := by
  have slen := Pbuf.seen_length readable
  constructor
  · intro keeps
    have hpayload := keeps.payload
    rw [(untagged_parts (by omega)).1] at hpayload
    -- the bytes taken out are as many as the header had
    have hlen : hbhLen p.bytes = 24 := by
      have := congrArg List.length hpayload
      rw [List.length_drop, List.length_drop, slen, Pbuf.bytes_length, hbhOptHdrLen] at this
      rw [ip6Hlen] at complete this
      omega
    refine ⟨hlen, ?_⟩
    rw [hlen] at hpayload
    rw [← List.take_append_drop 64 p.seen, ← List.take_append_drop 64 p.bytes,
      layout.seen_take (by decide) long]
    exact congrArg _ hpayload
  · rintro ⟨hlen, whole⟩
    rw [whole]
    obtain ⟨hpayload, hnexth, hfirst, haddresses⟩ := untagged_parts wf.header
    have uwf := (untagged_wellFormed wf (by rw [Pbuf.bytes_length]; exact long)).1
    exact ⟨by rw [hlen]; exact hpayload, hnexth, uwf.plen, hfirst, haddresses⟩

/-- Stripping a complete hop-by-hop header leaves the packet without it exactly if the
header has 24 bytes, the packet lies in one piece and there is memory for the new one. -/
theorem strip_preserves_iff (heap : Heap) (p : Pbuf) (layout : p.Pooled) (wf : WellFormed p.bytes)
    (first : nexthOf p.bytes = ip6NexthHopbyhop)
    (complete : ip6Hlen + hbhLen p.bytes ≤ p.totLen) :
    (∃ q, dtnStripCustodianOption heap p = .ok (true, q) ∧ WithoutHopByHop p.bytes q.bytes) ↔
      hbhLen p.bytes = 24 ∧ p.seen = p.bytes ∧ (pbufAlloc heap (p.totLen - 24)).isSome := by
  have h40 := wf.header
  rw [Pbuf.bytes_length] at h40
  have header : ip6Hlen ≤ p.len := layout.le_len (by decide) h40
  constructor
  · rintro ⟨q, hstrip, keeps⟩
    obtain ⟨-, long, readable⟩ := strip_true hstrip
    obtain ⟨-, hfail⟩ | ⟨halloc, after, hl, hdone⟩ :=
      strip_outcome heap header wf first long readable
    · cases hstrip.symm.trans hfail
    cases hstrip.symm.trans hdone
    rw [Pbuf.single_bytes, untagged_without_iff layout wf complete long readable] at keeps
    exact ⟨keeps.1, keeps.2, halloc⟩
  · rintro ⟨hlen, whole, halloc⟩
    have readable : p.totLen ≤ p.mem.length := by
      have := congrArg List.length whole
      rw [Pbuf.seen, List.length_take, Pbuf.bytes_length] at this
      omega
    have long : 64 ≤ p.totLen := by
      rw [hlen, ip6Hlen] at complete
      exact complete
    obtain ⟨hnone, -⟩ | ⟨-, after, hl, hdone⟩ :=
      strip_outcome heap header wf first long readable
    · rw [hnone] at halloc
      cases halloc
    refine ⟨_, hdone, ?_⟩
    rw [Pbuf.single_bytes]
    exact (untagged_without_iff layout wf complete long readable).mpr ⟨hlen, whole⟩

/-- A hop-by-hop header of eight bytes in front of 24 bytes of payload. -/
def shortHeaderPacket : Bytes :=
  [0x60, 0, 0, 0, 0, 32, 0, 64] ++ List.replicate 32 0 ++ [17, 0, 1, 4, 0, 0, 0, 0] ++
    [0x10, 0, 0x20, 0, 0, 24, 0, 0, 1, 2, 3, 4, 5, 6, 7, 8, 9, 10, 11, 12, 13, 14, 15, 16]

set_option maxRecDepth 8000 in
/-- Sixteen bytes of that payload go with the header. -/
theorem strip_drops_payload :
    WellFormed shortHeaderPacket ∧ nexthOf shortHeaderPacket = ip6NexthHopbyhop ∧
      ip6Hlen + hbhLen shortHeaderPacket ≤ shortHeaderPacket.length ∧
      ∃ q, dtnStripCustodianOption smallHeap (.single shortHeaderPacket [] (by decide)) =
          .ok (true, q) ∧
        q.bytes.drop ip6Hlen = [9, 10, 11, 12, 13, 14, 15, 16] ∧
        ¬ WithoutHopByHop shortHeaderPacket q.bytes := by
  refine ⟨by decide, by decide, by decide, _, rfl, by decide, fun h => ?_⟩
  exact absurd (congrArg List.length h.payload) (by decide)

set_option maxRecDepth 8000 in
theorem strip_preserves_padded :
    ∃ q, dtnStripCustodianOption smallHeap (.single paddedPacket [] (by decide)) = .ok (true, q) ∧
      WithoutHopByHop paddedPacket q.bytes := by
  have hiff := strip_preserves_iff smallHeap (.single paddedPacket [] (by decide)) (.inl rfl)
    (by rw [Pbuf.single_bytes]; decide) (by rw [Pbuf.single_bytes]; decide)
    (by rw [Pbuf.single_bytes]; decide)
  rw [Pbuf.single_bytes] at hiff
  exact hiff.mpr ⟨by decide, by decide, by decide⟩

/-! Bounds. -/

/-- The new lengths of a packet that gets an option do not wrap. -/
def AddLengths (b : Bytes) : Prop :=
  plenOf b + hbhOptHdrLen < 65536 ∧ ip6Hlen + (plenOf b + hbhOptHdrLen) < 65536

/-- The new lengths of a packet that loses its hop-by-hop header do not wrap. -/
def StripLengths (b : Bytes) : Prop :=
  hbhOptHdrLen ≤ plenOf b ∧ ip6Hlen + (plenOf b - hbhOptHdrLen) < 65536

theorem StripLengths.newLen {b : Bytes} (lengths : StripLengths b) :
    (plenOf b + 65536 - hbhOptHdrLen) % 65536 = plenOf b - hbhOptHdrLen :=
  strip_newLen lengths.1 (be16Val_lt _ _)

theorem copyIp6Hdr_returns (newp : Bytes) (hdr : Block ip6Hlen) (nexth : UInt8) (plen : Nat)
    (h : 40 ≤ newp.length) :
    ∃ m, copyIp6Hdr newp hdr nexth plen = .ok m ∧ m.length = newp.length := by
  have first : ∃ m, overwrite newp 0 hdr.1 = .ok m :=
    ⟨_, overwrite_eq_ok.mpr ⟨by rw [hdr.2, ip6Hlen]; omega, rfl⟩⟩
  obtain ⟨m₁, h₁⟩ := first
  have hl₁ := overwrite_length h₁
  have second : ∃ m, overwrite m₁ 6 [nexth] = .ok m :=
    ⟨_, overwrite_eq_ok.mpr ⟨by rw [List.length_singleton]; omega, rfl⟩⟩
  obtain ⟨m₂, h₂⟩ := second
  have hl₂ := overwrite_length h₂
  have third : ∃ m, overwrite m₂ 4 (be16 plen) = .ok m :=
    ⟨_, overwrite_eq_ok.mpr ⟨by rw [be16_length]; omega, rfl⟩⟩
  obtain ⟨m₃, h₃⟩ := third
  refine ⟨m₃, ?_, by rw [overwrite_length h₃, hl₂, hl₁]⟩
  rw [copyIp6Hdr, h₁, Run.bind_ok, h₂, Run.bind_ok, h₃]

section

variable {p : Pbuf} {heap : Heap}

/-- Tagging stays in its memory: there is no new packet, or the copy is in the first
segment's memory and the new packet, whose length may have wrapped, has room for it. -/
theorem add_fits_iff {c : Block 16} (header : ip6Hlen ≤ p.len) :
    Run.Returns (dtnAddCustodianOption heap p c) ↔
      pbufAlloc heap (ip6Hlen + (plenOf p.bytes + hbhOptHdrLen) % 65536) = none ∨
      p.totLen ≤ p.mem.length ∧ p.totLen + hbhOptHdrLen ≤
        (ip6Hlen + (plenOf p.bytes + hbhOptHdrLen)) % 65536 := by
  have htot : ip6Hlen ≤ p.totLen := Nat.le_trans header (Nat.le_add_right _ _)
  have hmem : ip6Hlen ≤ p.mem.length := by
    rw [Pbuf.mem, List.length_append]
    exact Nat.le_trans header (Nat.le_add_right _ _)
  simp only [dtnAddCustodianOption, nexth_mem header, plen_mem header, Run.bind_ok]
  cases halloc : pbufAlloc heap (ip6Hlen + (plenOf p.bytes + hbhOptHdrLen) % 65536) with
  | none => simp
  | some block =>
      obtain ⟨newp, behind⟩ := block
      have hblock := pbufAlloc_length halloc
      rw [Nat.add_mod_mod] at hblock
      simp only [reduceCtorEq, false_or]
      simp only [ip6Hlen, hbhOptHdrLen] at *
      constructor
      · rintro ⟨r, h⟩
        simp only [Run.bind_eq_ok] at h
        obtain ⟨hdr, -, m₁, hcopy, m₂, hopt, n, hn, src, hsrc, m₃, hpay, -⟩ := h
        obtain ⟨-, rfl⟩ := copyLength_eq_ok.mp hn
        have hread := (readBlock_eq_ok.mp hsrc).1
        have hwrite := (overwrite_eq_ok.mp hpay).1
        rw [src.2, overwrite_length hopt, (copyIp6Hdr_length hcopy).2] at hwrite
        omega
      · rintro ⟨hread, hwrite⟩
        obtain ⟨hdr, hhdr, -⟩ := @readBlock_of_le p.mem 0 40 (by omega)
        obtain ⟨m₁, hcopy, hl₁⟩ := copyIp6Hdr_returns newp hdr ip6NexthHopbyhop
          ((plenOf p.bytes + 24) % 65536) (by omega)
        have hfits : ∃ m, overwrite m₁ 40 (hbhHdr (nexthOf p.bytes) c) = .ok m :=
          ⟨_, overwrite_eq_ok.mpr ⟨by rw [hbhHdr_length]; omega, rfl⟩⟩
        obtain ⟨m₂, hopt⟩ := hfits
        have hl₂ := overwrite_length hopt
        obtain ⟨src, hsrc, -⟩ := @readBlock_of_le p.mem 40 (p.totLen - 40) (by omega)
        have hroom : ∃ m, overwrite m₂ (40 + 24) src.1 = .ok m :=
          ⟨_, overwrite_eq_ok.mpr ⟨by rw [src.2]; omega, rfl⟩⟩
        obtain ⟨m₃, hpay⟩ := hroom
        have hl₃ := overwrite_length hpay
        have hq := @Pbuf.ofBlock_of_lt m₃ behind (by omega)
        refine ⟨(true, .single m₃ behind (by omega)), ?_⟩
        simp only [hhdr, hcopy, hopt, copyLength_eq_ok.mpr ⟨htot, rfl⟩, hsrc, hpay, hq, Run.bind_ok,
          Run.pure_eq_ok]

theorem add_returns_iff {c : Block 16} (header : ip6Hlen ≤ p.len) (lengths : AddLengths p.bytes) :
    Run.Returns (dtnAddCustodianOption heap p c) ↔
      pbufAlloc heap (ip6Hlen + (plenOf p.bytes + hbhOptHdrLen)) = none ∨
      p.totLen ≤ p.mem.length ∧ p.totLen ≤ plenOf p.bytes + ip6Hlen := by
  rw [add_fits_iff header, Nat.mod_eq_of_lt lengths.1, Nat.mod_eq_of_lt lengths.2, ← Nat.add_assoc,
    Nat.add_le_add_iff_right, Nat.add_comm ip6Hlen (plenOf p.bytes)]

/-- Stripping stays in its memory: there is no new packet, or the packet has 64 bytes, the
copy is in the first segment's memory and not longer than the payload length says. -/
theorem strip_bounded_iff (header : ip6Hlen ≤ p.len)
    (first : nexthOf p.bytes = ip6NexthHopbyhop) (lengths : StripLengths p.bytes)
    (next : 41 ≤ p.mem.length) :
    Run.Returns (dtnStripCustodianOption heap p) ↔
      pbufAlloc heap (ip6Hlen + (plenOf p.bytes - hbhOptHdrLen)) = none ∨
      64 ≤ p.totLen ∧ p.totLen ≤ p.mem.length ∧ p.totLen ≤ plenOf p.bytes + ip6Hlen := by
  have hmod := lengths.newLen
  obtain ⟨hnew, hsize⟩ := lengths
  have hnext : byteAt p.mem ip6Hlen = .ok p.mem[40] := byteAt_of_lt (i := 40) (by omega)
  simp only [dtnStripCustodianOption, nexth_mem header, plen_mem header, Run.bind_ok, hmod, first,
    ne_eq, not_true, if_false, hnext]
  cases halloc : pbufAlloc heap (ip6Hlen + (plenOf p.bytes - hbhOptHdrLen)) with
  | none => simp
  | some block =>
      obtain ⟨newp, behind⟩ := block
      have hblock := pbufAlloc_length halloc
      rw [Nat.mod_eq_of_lt hsize] at hblock
      simp only [reduceCtorEq, false_or]
      simp only [ip6Hlen, hbhOptHdrLen] at *
      constructor
      · rintro ⟨r, h⟩
        simp only [Run.bind_eq_ok] at h
        obtain ⟨hdr, -, m₁, hcopy, n, hn, src, hsrc, m₂, hpay, -⟩ := h
        obtain ⟨hlong, rfl⟩ := copyLength_eq_ok.mp hn
        have hread := (readBlock_eq_ok.mp hsrc).1
        have hwrite := (overwrite_eq_ok.mp hpay).1
        rw [src.2, (copyIp6Hdr_length hcopy).2] at hwrite
        omega
      · rintro ⟨hlong, hread, hwrite⟩
        obtain ⟨hdr, hhdr, -⟩ := @readBlock_of_le p.mem 0 40 (by omega)
        obtain ⟨m₁, hcopy, hl₁⟩ := copyIp6Hdr_returns newp hdr p.mem[40] (plenOf p.bytes - 24)
          (by omega)
        obtain ⟨src, hsrc, -⟩ := @readBlock_of_le p.mem (40 + 24) (p.totLen - (40 + 24)) (by omega)
        have hroom : ∃ m, overwrite m₁ 40 src.1 = .ok m :=
          ⟨_, overwrite_eq_ok.mpr ⟨by rw [src.2]; omega, rfl⟩⟩
        obtain ⟨m₂, hpay⟩ := hroom
        have hl₂ := overwrite_length hpay
        have hq := @Pbuf.ofBlock_of_lt m₂ behind (by omega)
        refine ⟨(true, .single m₂ behind (by omega)), ?_⟩
        simp only [hhdr, hcopy, copyLength_eq_ok.mpr ⟨hlong, rfl⟩, hsrc, hpay, hq, Run.bind_ok,
          Run.pure_eq_ok]

theorem stripped_lengths {q : Pbuf} (header : ip6Hlen ≤ p.len) (lengths : StripLengths p.bytes)
    (h : dtnStripCustodianOption heap p = .ok (true, q)) :
    q.chain = [] ∧ q.len = ip6Hlen + (plenOf p.bytes - hbhOptHdrLen) ∧
      plenOf q.bytes = plenOf p.bytes - hbhOptHdrLen := by
  obtain ⟨v, t, r, rest, hi, lo, n, next, -, hv, -, -, hchain, hq, hlen⟩ := strip_shape header h
  rw [lengths.newLen] at hq hlen
  rw [Nat.mod_eq_of_lt lengths.2] at hlen
  refine ⟨hchain, hlen, ?_⟩
  rw [Pbuf.bytes, hq, hchain, List.append_nil, be16, split_plen hv]
  exact be16Val_be16 (Nat.lt_of_le_of_lt (Nat.sub_le _ _) (be16Val_lt _ _))

end

/-- The largest packet that is read from the tunnel. -/
def packetBufSize : Nat := 2048

/-- A packet as `tunif_input` hands it over. The memory at its start ends with its first
pool buffer, so that a read that leaves this buffer is a fault. -/
structure Pbuf.FromTun (p : Pbuf) : Prop where
  header : ip6Hlen ≤ p.totLen
  size : p.totLen ≤ packetBufSize
  layout : p.Pooled
  buffer : p.mem.length = pbufPoolBufsize
  version : (p.bytes.getD 0 0).toNat / 16 = 6

structure AddInBounds (p : Pbuf) (c : Block 16) : Prop where
  lengths : AddLengths p.bytes
  copies : ∀ heap, Run.Returns (dtnAddCustodianOption heap p c)

structure StripInBounds (p : Pbuf) : Prop where
  lengths : nexthOf p.bytes = ip6NexthHopbyhop → StripLengths p.bytes
  copies : ∀ heap, Run.Returns (dtnStripCustodianOption heap p)

/-- A rewrite adds an option, overwrites one in the packet, or strips and adds; every
length it computes on its way counts. -/
structure UpdateInBounds (p : Pbuf) (c : Block 16) : Prop where
  add : nexthOf p.bytes ≠ ip6NexthHopbyhop → AddLengths p.bytes
  overwrites : nexthOf p.bytes = ip6NexthHopbyhop → hasCustodyOption p.mem = .ok true →
    ip6Hlen + 20 ≤ p.totLen
  strip : nexthOf p.bytes = ip6NexthHopbyhop → hasCustodyOption p.mem = .ok false →
    StripLengths p.bytes ∧
      ∀ heap q, dtnStripCustodianOption heap p = .ok (true, q) → AddLengths q.bytes
  copies : ∀ env, Run.Returns (dtnUpdateOrAddCustodianOption env p c)

/-- The packet lies in one pool buffer, its payload length is not below what follows the
header and leaves room for the option, and a hop-by-hop header has 24 bytes. -/
structure RewriteRoom (p : Pbuf) : Prop where
  oneBuffer : p.totLen ≤ pbufPoolBufsize
  payload : p.totLen ≤ plenOf p.bytes + ip6Hlen
  room : ip6Hlen + (plenOf p.bytes + hbhOptHdrLen) < 65536
  option : nexthOf p.bytes = ip6NexthHopbyhop → ip6Hlen + hbhOptHdrLen ≤ p.totLen

namespace RewriteRoom

variable {p : Pbuf}

theorem addLengths (h : RewriteRoom p) : AddLengths p.bytes :=
  ⟨Nat.lt_of_le_of_lt (Nat.le_add_left _ _) h.room, h.room⟩

theorem stripLengths (h : RewriteRoom p) (first : nexthOf p.bytes = ip6NexthHopbyhop) :
    StripLengths p.bytes := by
  have hroom := h.room
  have hpayload := h.payload
  have hoption := h.option first
  rw [ip6Hlen, hbhOptHdrLen] at *
  refine ⟨?_, ?_⟩
  · rw [hbhOptHdrLen]
    omega
  · rw [ip6Hlen, hbhOptHdrLen]
    omega

theorem strip_returns (h : RewriteRoom p) (header : ip6Hlen ≤ p.len)
    (buffer : p.mem.length = pbufPoolBufsize) (heap : Heap) :
    Run.Returns (dtnStripCustodianOption heap p) := by
  by_cases first : nexthOf p.bytes = ip6NexthHopbyhop
  · refine (strip_bounded_iff header first (h.stripLengths first) ?_).mpr (.inr ⟨h.option first,
      ?_, h.payload⟩)
    · rw [buffer]
      decide
    · rw [buffer]
      exact h.oneBuffer
  · exact ⟨_, strip_plain heap header first⟩

theorem strip_add_returns (h : RewriteRoom p) (header : ip6Hlen ≤ p.len)
    (first : nexthOf p.bytes = ip6NexthHopbyhop) {heap : Heap} {q : Pbuf} (c : Block 16)
    (hstrip : dtnStripCustodianOption heap p = .ok (true, q)) :
    AddLengths q.bytes ∧ ∀ heap, Run.Returns (dtnAddCustodianOption heap q c) := by
  have hlengths := h.stripLengths first
  have hroom := h.room
  obtain ⟨hchain, hlen, hplen⟩ := stripped_lengths header hlengths hstrip
  have hadd : AddLengths q.bytes := by
    have hnew := hlengths.1
    simp only [AddLengths, hplen, ip6Hlen, hbhOptHdrLen] at hnew hroom ⊢
    omega
  have htot : q.totLen = q.len := by
    rw [Pbuf.totLen, hchain]
    rfl
  refine ⟨hadd, fun heap => (add_returns_iff ?_ hadd).mpr (.inr ⟨?_, ?_⟩)⟩
  · rw [hlen]
    exact Nat.le_add_right _ _
  · rw [htot, Pbuf.mem, List.length_append]
    exact Nat.le_add_right _ _
  · exact Nat.le_of_eq (by rw [htot, hlen, hplen, Nat.add_comm])

theorem update_returns (h : RewriteRoom p) (header : ip6Hlen ≤ p.len)
    (buffer : p.mem.length = pbufPoolBufsize) (c : Block 16) (env : RewriteEnv) :
    Run.Returns (dtnUpdateOrAddCustodianOption env p c) := by
  simp only [dtnUpdateOrAddCustodianOption, nexth_mem header, Run.bind_ok]
  split
  · rename_i first
    obtain ⟨custody, hcustody⟩ := hasCustodyOption_returns (m := p.mem) (by rw [buffer]; decide)
    rw [hcustody, Run.bind_ok]
    cases custody with
    | true =>
        obtain ⟨q, hset, -, -⟩ := setCustodian_outcome c (p := p) (by rw [buffer]; decide)
        simp [hset]
    | false =>
        obtain ⟨⟨stripped, q⟩, hstrip⟩ := h.strip_returns header buffer env.strip
        rw [hstrip, Run.bind_ok]
        cases stripped with
        | true => exact (h.strip_add_returns header first c hstrip).2 env.add
        | false => exact ⟨_, rfl⟩
  · refine (add_returns_iff header h.addLengths).mpr (.inr ⟨?_, h.payload⟩)
    rw [buffer]
    exact h.oneBuffer

end RewriteRoom

/-- On packets from the tunnel the rewriting functions compute lengths that do not wrap,
read inside the first pool buffer and write inside what they allocated exactly if the
packet leaves them room. -/
theorem rewriting_in_bounds_iff (p : Pbuf) (c : Block 16) (tun : p.FromTun) :
    (AddInBounds p c ∧ StripInBounds p ∧ UpdateInBounds p c) ↔ RewriteRoom p := by
  have header : ip6Hlen ≤ p.len := tun.layout.le_len (by decide) tun.header
  -- a heap on which every allocation succeeds shows what a copy needs
  have roomy : Heap.Roomy (some (List.replicate 65535 0)) 65535 :=
    ⟨_, rfl, Nat.le_of_eq List.length_replicate.symm⟩
  constructor
  · rintro ⟨add, strip, -⟩
    have hadd := (add_returns_iff header add.lengths).mp
      (add.copies (some (List.replicate 65535 0)))
    obtain ⟨block, behind, halloc⟩ := pbufAlloc_roomy roomy
      (ip6Hlen + (plenOf p.bytes + hbhOptHdrLen)) (by have := add.lengths.2; omega)
    obtain ⟨hread, hwrite⟩ := hadd.resolve_left (by rw [halloc]; nofun)
    rw [tun.buffer] at hread
    refine ⟨hread, hwrite, add.lengths.2, fun first => ?_⟩
    have lengths := strip.lengths first
    have hstrip := (strip_bounded_iff header first lengths (by rw [tun.buffer]; decide)).mp
      (strip.copies (some (List.replicate 65535 0)))
    obtain ⟨block, behind, halloc⟩ := pbufAlloc_roomy roomy
      (ip6Hlen + (plenOf p.bytes - hbhOptHdrLen)) (by have := lengths.2; omega)
    exact (hstrip.resolve_left (by rw [halloc]; nofun)).1
  · intro room
    have hread : p.totLen ≤ p.mem.length := by
      rw [tun.buffer]
      exact room.oneBuffer
    refine ⟨⟨room.addLengths, fun heap => ?_⟩, ⟨room.stripLengths, ?_⟩, ⟨?_, ?_, ?_, ?_⟩⟩
    · exact (add_returns_iff header room.addLengths).mpr (.inr ⟨hread, room.payload⟩)
    · exact room.strip_returns header tun.buffer
    · exact fun _ => room.addLengths
    · intro first _
      have := room.option first
      rw [hbhOptHdrLen] at this
      omega
    · intro first _
      exact ⟨room.stripLengths first, fun heap q hstrip =>
        (room.strip_add_returns header first c hstrip).1⟩
    · exact room.update_returns header tun.buffer c

def pooled (b : Bytes) (h : b.length = 48) : Pbuf :=
  .single b (List.replicate 1488 0) (by rw [h]; decide)

theorem pooled_fromTun {b : Bytes} (h : b.length = 48) (version : (b.getD 0 0).toNat / 16 = 6) :
    (pooled b h).FromTun where
  header := by
    rw [pooled, Pbuf.single_totLen, h]
    decide
  size := by
    rw [pooled, Pbuf.single_totLen, h]
    decide
  layout := .inl rfl
  buffer := by
    rw [pooled, Pbuf.single_mem, List.length_append, List.length_replicate, h]
    rfl
  version := by rwa [pooled, Pbuf.single_bytes]

theorem rewriting_in_bounds_sample :
    (pooled samplePacket rfl).FromTun ∧ AddInBounds (pooled samplePacket rfl) sampleAddr := by
  have tun := pooled_fromTun (b := samplePacket) rfl (by decide)
  refine ⟨tun, ((rewriting_in_bounds_iff _ sampleAddr tun).mpr ⟨?_, ?_, ?_, ?_⟩).1⟩ <;>
    simp only [pooled, Pbuf.single_bytes, Pbuf.single_totLen] <;> decide

def shortLengthPacket : Bytes := [0x60, 0, 0, 0, 0, 0] ++ samplePacket.drop 6

/-- Tagging it copies eight bytes behind the end of the new packet. -/
theorem add_leaves_bounds :
    (pooled shortLengthPacket rfl).FromTun ∧
      ¬ Run.Returns
        (dtnAddCustodianOption smallHeap (pooled shortLengthPacket rfl) sampleAddr) := by
  refine ⟨pooled_fromTun rfl (by decide), ?_⟩
  rw [add_returns_iff (by decide) (by unfold AddLengths; decide)]
  rintro (hnone | ⟨-, hcopy⟩)
  · obtain ⟨block, behind, halloc⟩ := pbufAlloc_roomy (smallHeap_roomy (Nat.le_refl 128)) _
      (show (ip6Hlen + (plenOf (pooled shortLengthPacket rfl).bytes + hbhOptHdrLen)) % 65536 ≤ 128
        by decide)
    cases halloc.symm.trans hnone
  · exact absurd hcopy (by decide)

end LwipDtn
