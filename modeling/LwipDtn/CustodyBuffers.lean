import LwipDtn.CustodyPaths

/-!
The rewriting functions on buffers of any layout. They read on from the first
segment, so a packet in several segments is rewritten like the packet in one segment
that the memory at its start happens to hold. What is shown here is when they return,
and what they leave.
-/

namespace LwipDtn
open Outcome Bytes

/-- The size of a buffer of the pool that received packets are read into. -/
def pbufPoolBufsize : Nat := 1536

/-- The layouts of the packets of the module: only a full pool buffer is followed by
another segment, and copies have one segment. -/
def Pbuf.Pooled (p : Pbuf) : Prop := p.chain = [] ∨ pbufPoolBufsize ≤ p.len

theorem Pbuf.Pooled.le_len {p : Pbuf} (layout : p.Pooled) {n : Nat} (hn : n ≤ pbufPoolBufsize)
    (long : n ≤ p.totLen) : n ≤ p.len := by
  rcases layout with single | full
  · rw [Pbuf.totLen, single] at long
    exact long
  · exact Nat.le_trans hn full

section Buffers

variable {p : Pbuf}

/-- The bytes that the rewriting functions take for the packet: as many as it has,
read on from the first segment. -/
def Pbuf.seen (p : Pbuf) : Bytes := p.mem.take p.totLen

def Pbuf.unseen (p : Pbuf) : Bytes := p.mem.drop p.totLen

theorem Pbuf.seen_length (h : p.totLen ≤ p.mem.length) : p.seen.length = p.totLen := by
  rw [seen, List.length_take]
  omega

theorem Pbuf.seen_lt (p : Pbuf) : p.seen.length < 65536 := by
  have := p.totLen_lt
  have := List.length_take_le p.totLen p.mem
  rw [seen]
  omega

/-- The buffer in one segment that looks the same to the rewriting functions. -/
def Pbuf.flat (p : Pbuf) : Pbuf := .single p.seen p.unseen p.seen_lt

theorem Pbuf.flat_mem (p : Pbuf) : p.flat.mem = p.mem := List.take_append_drop p.totLen p.mem

theorem Pbuf.flat_totLen (h : p.totLen ≤ p.mem.length) : p.flat.totLen = p.totLen := by
  rw [flat, single_totLen, seen_length h]

theorem add_flat {heap : Heap} {c : Block 16} (h : p.totLen ≤ p.mem.length) :
    dtnAddCustodianOption heap p c = (do
      let (r, q) ← dtnAddCustodianOption heap p.flat c
      return (r, if r then q else p)) := by
  simp only [dtnAddCustodianOption, p.flat_mem, Pbuf.flat_totLen h, bind_assoc]
  congr 1
  funext oldNexth
  congr 1
  funext origLen
  cases pbufAlloc heap (ip6Hlen + (origLen + hbhOptHdrLen) % 65536) with
  | none => rfl
  | some block => simp only [bind_assoc, pure_bind, if_true]

theorem strip_flat {heap : Heap} (h : p.totLen ≤ p.mem.length) :
    dtnStripCustodianOption heap p = (do
      let (r, q) ← dtnStripCustodianOption heap p.flat
      return (r, if r then q else p)) := by
  simp only [dtnStripCustodianOption, p.flat_mem, Pbuf.flat_totLen h, bind_assoc]
  congr 1
  funext nexth
  split
  · rfl
  · simp only [bind_assoc]
    congr 1
    funext nextNexth
    congr 1
    funext origLen
    cases pbufAlloc heap (ip6Hlen + (origLen + 65536 - hbhOptHdrLen) % 65536) with
    | none => rfl
    | some block => simp only [bind_assoc, pure_bind, if_true]

theorem Pbuf.seen_getD (readable : p.totLen ≤ p.mem.length) {i : Nat} (h : i < p.len) :
    p.seen.getD i 0 = p.bytes.getD i 0 := by
  have htot : p.len ≤ p.totLen := Nat.le_add_right _ _
  have hflat := p.flat.byteAt_mem (i := i) (by
    rw [flat, len, single_payload, seen_length readable]; omega)
  rw [p.flat_mem, p.byteAt_mem h, flat, single_bytes] at hflat
  exact (Except.ok.inj hflat).symm

theorem nexthOf_seen (readable : p.totLen ≤ p.mem.length) (h : ip6Hlen ≤ p.len) :
    nexthOf p.seen = nexthOf p.bytes :=
  Pbuf.seen_getD readable (Nat.lt_of_lt_of_le (by decide) h)

theorem seen_wellFormed (readable : p.totLen ≤ p.mem.length) (h : ip6Hlen ≤ p.len)
    (wf : WellFormed p.bytes) : WellFormed p.seen := by
  have hplen : plenOf p.seen = plenOf p.bytes := by
    rw [ip6Hlen] at h
    rw [plenOf, Pbuf.seen_getD readable (by omega), Pbuf.seen_getD readable (by omega), plenOf]
  have hlen : p.seen.length = p.bytes.length := by
    rw [Pbuf.seen_length readable, Pbuf.bytes_length]
  exact ⟨hlen ▸ wf.header, by rw [hplen, hlen]; exact wf.plen⟩

theorem add_outcome (heap : Heap) (c : Block 16) (header : ip6Hlen ≤ p.len)
    (wf : WellFormed p.bytes) (fits : p.totLen + 24 < 65536) (readable : p.totLen ≤ p.mem.length) :
    ∃ r q, dtnAddCustodianOption heap p c = .ok (r, q) ∧
      r = (pbufAlloc heap (p.totLen + 24)).isSome ∧
      q.bytes = if r then tagged p.seen c else p.bytes := by
  have swf := seen_wellFormed readable header wf
  have slen := Pbuf.seen_length readable
  have hp := swf.plen
  rw [slen, ip6Hlen] at hp
  have hsize : ip6Hlen + (plenOf p.seen + hbhOptHdrLen) % 65536 = p.totLen + 24 := by
    rw [ip6Hlen, hbhOptHdrLen]; omega
  rw [add_flat readable]
  cases halloc : pbufAlloc heap (p.totLen + 24) with
  | none =>
      have hadd : dtnAddCustodianOption heap p.flat c = .ok (false, p.flat) := by
        simp only [dtnAddCustodianOption, Pbuf.flat, nexth_single _ _ swf.header,
          plen_single _ _ swf.header, Run.bind_ok, hsize, halloc, Run.pure_eq_ok]
      exact ⟨false, p, by simp only [hadd]; rfl, rfl, rfl⟩
  | some block =>
      obtain ⟨newp, after⟩ := block
      obtain ⟨hl, hadd⟩ := add_tagged p.unseen p.seen_lt c swf (by rw [slen]; exact fits)
        (by rw [hsize]; exact halloc)
      refine ⟨true, .single (tagged p.seen c) after hl, ?_, rfl, Pbuf.single_bytes _ _ _⟩
      simp only [Pbuf.flat, hadd]
      rfl

theorem strip_outcome (heap : Heap) (header : ip6Hlen ≤ p.len) (wf : WellFormed p.bytes)
    (first : nexthOf p.bytes = ip6NexthHopbyhop) (long : 64 ≤ p.totLen)
    (readable : p.totLen ≤ p.mem.length) :
    pbufAlloc heap (p.totLen - 24) = none ∧ dtnStripCustodianOption heap p = .ok (false, p) ∨
      (pbufAlloc heap (p.totLen - 24)).isSome ∧
        ∃ after h, dtnStripCustodianOption heap p =
          .ok (true, .single (untagged p.seen) after h) := by
  have swf := seen_wellFormed readable header wf
  have slen := Pbuf.seen_length readable
  have sfirst := (nexthOf_seen readable header).trans first
  have hp := swf.plen
  rw [slen, ip6Hlen] at hp
  have hsize := strip_newLen (n := plenOf p.seen) (by rw [hbhOptHdrLen]; omega) (be16Val_lt _ _)
  have hnew : p.totLen - 24 = ip6Hlen + (plenOf p.seen - hbhOptHdrLen) := by
    rw [ip6Hlen, hbhOptHdrLen]; omega
  rw [strip_flat readable, hnew]
  cases halloc : pbufAlloc heap (ip6Hlen + (plenOf p.seen - hbhOptHdrLen)) with
  | none =>
      have hnext : byteAt p.flat.mem ip6Hlen = .ok (p.seen.getD ip6Hlen 0) :=
        byteAt_mem_single _ _ (by rw [ip6Hlen]; omega)
      have hstrip : dtnStripCustodianOption heap p.flat = .ok (false, p.flat) := by
        rw [Pbuf.flat] at hnext ⊢
        simp only [dtnStripCustodianOption, nexth_single _ _ swf.header,
          plen_single _ _ swf.header, Run.bind_ok, sfirst, ne_eq, not_true, if_false, hnext, hsize,
          halloc, Run.pure_eq_ok]
      exact .inl ⟨rfl, by simp only [hstrip]; rfl⟩
  | some block =>
      obtain ⟨newp, after⟩ := block
      obtain ⟨hl, hstrip⟩ := strip_untagged p.unseen p.seen_lt swf sfirst (by omega) halloc
      exact .inr ⟨rfl, after, hl, by simp only [Pbuf.flat, hstrip]; rfl⟩

/-- Stripping returns: there is no hop-by-hop header, or the packet is long enough, or
there is no memory for the stripped packet. -/
def StripSafe (heap : Heap) (p : Pbuf) : Prop :=
  nexthOf p.bytes ≠ ip6NexthHopbyhop ∨ 64 ≤ p.totLen ∨
    pbufAlloc heap (p.totLen + 65536 - 24) = none

theorem strip_plain (heap : Heap) (header : ip6Hlen ≤ p.len)
    (first : nexthOf p.bytes ≠ ip6NexthHopbyhop) :
    dtnStripCustodianOption heap p = .ok (false, p) := by
  simp only [dtnStripCustodianOption, nexth_mem header, Run.bind_ok, if_pos first, Run.pure_eq_ok]

theorem strip_noMemory {heap : Heap} (header : ip6Hlen ≤ p.len) (wf : WellFormed p.bytes)
    (first : nexthOf p.bytes = ip6NexthHopbyhop) (readable : 41 ≤ p.mem.length)
    (alloc : pbufAlloc heap (p.totLen + 65536 - 24) = none) :
    dtnStripCustodianOption heap p = .ok (false, p) := by
  have hp := wf.plen
  have hlt := p.totLen_lt
  rw [Pbuf.bytes_length, ip6Hlen] at hp
  have hsize : pbufAlloc heap (ip6Hlen + (plenOf p.bytes + 65536 - hbhOptHdrLen) % 65536) =
      none := by
    rw [← alloc]
    apply pbufAlloc_mod
    rw [ip6Hlen, hbhOptHdrLen]
    omega
  have hnext : byteAt p.mem ip6Hlen = .ok p.mem[40] := byteAt_of_lt (i := 40) (by omega)
  simp only [dtnStripCustodianOption, nexth_mem header, plen_mem header, first, ne_eq, not_true,
    if_false, hnext, Run.bind_ok, hsize, Run.pure_eq_ok]

theorem strip_safe {heap : Heap} (header : ip6Hlen ≤ p.len) (wf : WellFormed p.bytes)
    (readable : p.totLen + 24 ≤ p.mem.length) (safe : StripSafe heap p) :
    dtnStripCustodianOption heap p = .ok (false, p) ∧
        (nexthOf p.bytes = ip6NexthHopbyhop → pbufAlloc heap (p.totLen - 24) = none) ∨
      nexthOf p.bytes = ip6NexthHopbyhop ∧ 64 ≤ p.totLen ∧
        (pbufAlloc heap (p.totLen - 24)).isSome ∧ ∃ after h,
          dtnStripCustodianOption heap p = .ok (true, .single (untagged p.seen) after h) := by
  have h40 := wf.header
  rw [Pbuf.bytes_length, ip6Hlen] at h40
  by_cases first : nexthOf p.bytes = ip6NexthHopbyhop
  · by_cases long : 64 ≤ p.totLen
    · obtain ⟨none, h⟩ | ⟨some, h⟩ := strip_outcome heap header wf first long (by omega)
      · exact .inl ⟨h, fun _ => none⟩
      · exact .inr ⟨first, long, some, h⟩
    · have alloc := (safe.resolve_left (by simpa using first)).resolve_left long
      refine .inl ⟨strip_noMemory header wf first (by omega) alloc, fun _ => ?_⟩
      rw [← alloc]
      exact pbufAlloc_mod heap (by omega)
  · exact .inl ⟨strip_plain heap header first, fun h => absurd h first⟩

theorem strip_returns_iff (heap : Heap) (header : ip6Hlen ≤ p.len) (wf : WellFormed p.bytes)
    (readable : p.totLen + 24 ≤ p.mem.length) :
    Run.Returns (dtnStripCustodianOption heap p) ↔ StripSafe heap p := by
  have h40 := wf.header
  rw [Pbuf.bytes_length, ip6Hlen] at h40
  constructor
  · intro h
    refine Classical.byContradiction fun stuck => ?_
    simp only [StripSafe, not_or, ne_eq, not_not] at stuck
    obtain ⟨first, short, alloc⟩ := stuck
    obtain ⟨block, hblock⟩ := Option.ne_none_iff_exists'.mp alloc
    rw [strip_stuck header wf first (by omega) (by omega) hblock] at h
    exact Run.not_returns_error _ h
  · intro safe
    obtain ⟨h, -⟩ | ⟨-, -, -, after, hl, h⟩ := strip_safe header wf readable safe
    · exact ⟨_, h⟩
    · exact ⟨_, h⟩

theorem setCustodian_outcome (c : Block 16) (readable : 60 ≤ p.mem.length) :
    ∃ q, p.setCustodian c = .ok q ∧ q.totLen = p.totLen ∧
      (60 ≤ p.len → q.bytes = retagged p.bytes c) := by
  have hw : overwrite p.mem (ip6Hlen + 4) c.1 = .ok (p.mem.take 44 ++ c.1 ++ p.mem.drop 60) :=
    overwrite_eq_ok.mpr ⟨by rw [c.2, ip6Hlen]; omega, by rw [c.2, ip6Hlen]⟩
  have hm := overwrite_length hw
  have hlen : ((p.mem.take 44 ++ c.1 ++ p.mem.drop 60).take p.len).length = p.len := by
    rw [List.length_take, hm, Pbuf.mem, List.length_append, Pbuf.len]
    omega
  have htot : ((p.mem.take 44 ++ c.1 ++ p.mem.drop 60).take p.len).length + p.chain.length <
      65536 := by
    rw [hlen]
    exact p.tot_lt
  refine ⟨⟨_, (p.mem.take 44 ++ c.1 ++ p.mem.drop 60).drop p.len, p.chain, htot⟩, ?_, ?_, ?_⟩
  · simp only [Pbuf.setCustodian, hw, Run.bind_ok, dif_pos htot, Run.pure_eq_ok]
  · rw [Pbuf.totLen, hlen]
    rfl
  · intro long
    have h60 : 60 ≤ p.payload.length := long
    have h44 : 44 ≤ p.payload.length := by omega
    have hpre : (p.payload.take 44 ++ c.1 ++ p.payload.drop 60).length = p.len := by
      simp only [List.length_append, List.length_take, List.length_drop, c.2, Pbuf.len]
      omega
    change (p.mem.take 44 ++ c.1 ++ p.mem.drop 60).take p.len ++ p.chain =
      retagged (p.payload ++ p.chain) c
    rw [retagged, Pbuf.mem, List.take_append_of_le_length h44, List.take_append_of_le_length h44,
      List.drop_append_of_le_length h60, List.drop_append_of_le_length h60, ← List.append_assoc,
      List.take_left' hpre]
    simp only [List.append_assoc]

theorem hasCustodyOption_returns {m : Bytes} (h : 44 ≤ m.length) :
    ∃ b, hasCustodyOption m = .ok b := by
  have h2 : byteAt m (ip6Hlen + 2) = .ok m[42] := byteAt_of_lt (i := 42) (by omega)
  have h3 : byteAt m (ip6Hlen + 3) = .ok m[43] := byteAt_of_lt (i := 43) (by omega)
  simp only [hasCustodyOption, h2, h3, Run.bind_ok, Run.pure_eq_ok]
  split <;> exact ⟨_, rfl⟩

theorem srcOf_addresses (b : Bytes) : srcOf b = (((b.drop 7).take 33).drop 1).take 16 := by
  rw [srcOf, List.drop_take, List.drop_drop, List.take_take]
  rfl

theorem strip_false {heap : Heap} {q : Pbuf} (h : dtnStripCustodianOption heap p = .ok (false, q)) :
    q = p := by
  simp only [dtnStripCustodianOption, Run.bind_eq_ok] at h
  obtain ⟨nexth, -, h⟩ := h
  split at h
  · cases h
    rfl
  simp only [Run.bind_eq_ok] at h
  obtain ⟨next, -, len, -, h⟩ := h
  split at h
  · cases h
    rfl
  simp only [Run.bind_eq_ok] at h
  obtain ⟨_, -, _, -, _, -, _, -, _, -, _, -, h⟩ := h
  cases h

/-- The header of a rebuilt packet is the old one with two fields replaced. -/
theorem copied_header {newp m : Bytes} {hdr : Block ip6Hlen} {nexth : UInt8} {plen : Nat}
    (header : ip6Hlen ≤ p.len) (hread : readBlock p.mem 0 ip6Hlen = .ok hdr)
    (hcopy : copyIp6Hdr newp hdr nexth plen = .ok m) :
    ∃ v t r rest hi lo n, p.payload = v ++ [hi, lo] ++ [n] ++ t ++ r ∧ v.length = 4 ∧
      t.length = 33 ∧ m = v ++ be16 plen ++ [nexth] ++ t ++ rest := by
  have hlen := hdr.2
  have hread := (readBlock_eq_ok.mp hread).2
  rw [List.drop_zero, Pbuf.mem, List.take_append_of_le_length header] at hread
  obtain ⟨v, t, r, hi, lo, n, hsplit, hv, ht⟩ := header_split (Nat.le_of_eq hlen.symm)
  have hr : r = [] := by
    have := congrArg List.length hsplit
    rw [hlen, split_length hv ht, ip6Hlen] at this
    exact List.eq_nil_of_length_eq_zero (by omega)
  subst hr
  rw [List.append_nil] at hsplit
  obtain ⟨old, rest, rfl, hold⟩ := exists_split (copyIp6Hdr_length hcopy).1
  rw [copyIp6Hdr_split rest hdr nexth _ hold hsplit hv] at hcopy
  refine ⟨v, t, p.payload.drop ip6Hlen, rest, hi, lo, n, ?_, hv, ht, (Except.ok.inj hcopy).symm⟩
  rw [← hsplit, hread, List.take_append_drop]

theorem strip_shape {heap : Heap} {q : Pbuf} (header : ip6Hlen ≤ p.len)
    (h : dtnStripCustodianOption heap p = .ok (true, q)) :
    ∃ v t r rest hi lo n next, p.payload = v ++ [hi, lo] ++ [n] ++ t ++ r ∧ v.length = 4 ∧
      t.length = 33 ∧ byteAt p.mem ip6Hlen = .ok next ∧ q.chain = [] ∧
      q.payload = v ++ be16 ((plenOf p.bytes + 65536 - hbhOptHdrLen) % 65536) ++ [next] ++ t ++
        rest ∧
      q.len = (ip6Hlen + (plenOf p.bytes + 65536 - hbhOptHdrLen) % 65536) % 65536 := by
  simp only [dtnStripCustodianOption, nexth_mem header, plen_mem header, Run.bind_ok] at h
  split at h
  · cases h
  simp only [Run.bind_eq_ok] at h
  obtain ⟨next, hnext, h⟩ := h
  split at h
  · cases h
  rename_i newp behind halloc
  simp only [Run.bind_eq_ok] at h
  obtain ⟨hdr, hhdr, m₁, hcopy, k, -, src, -, m₂, hpay, q', hq, h⟩ := h
  cases h
  obtain ⟨v, t, r, rest, hi, lo, n, hpayload, hv, ht, rfl⟩ := copied_header header hhdr hcopy
  have hm₂ := overwrite_behind (by simp [hv, ht, be16, ip6Hlen]) hpay
  rw [List.append_assoc] at hm₂
  refine ⟨v, t, r, _, hi, lo, n, next, hpayload, hv, ht, hnext, Pbuf.ofBlock_chain hq,
    (Pbuf.ofBlock_payload hq).trans hm₂, ?_⟩
  rw [Pbuf.len, Pbuf.ofBlock_payload hq, overwrite_length hpay, (copyIp6Hdr_length hcopy).2,
    pbufAlloc_length halloc]

theorem add_shape {heap : Heap} {c : Block 16} {q : Pbuf} (header : ip6Hlen ≤ p.len)
    (h : dtnAddCustodianOption heap p c = .ok (true, q)) :
    ∃ v t r rest hi lo, p.payload = v ++ [hi, lo] ++ [nexthOf p.bytes] ++ t ++ r ∧ v.length = 4 ∧
      t.length = 33 ∧ q.chain = [] ∧
      q.payload = v ++ be16 ((plenOf p.bytes + hbhOptHdrLen) % 65536) ++ [ip6NexthHopbyhop] ++ t ++
        (hbhHdr (nexthOf p.bytes) c ++ rest) := by
  simp only [dtnAddCustodianOption, nexth_mem header, plen_mem header, Run.bind_ok] at h
  split at h
  · cases h
  simp only [Run.bind_eq_ok] at h
  obtain ⟨hdr, hhdr, m₁, hcopy, m₂, hopt, k, -, src, -, m₃, hpay, q', hq, h⟩ := h
  cases h
  obtain ⟨v, t, r, rest, hi, lo, n, hpayload, hv, ht, rfl⟩ := copied_header header hhdr hcopy
  have hn : nexthOf p.bytes = n := by
    rw [Pbuf.bytes, hpayload, List.append_assoc _ r, split_nexth hv]
  have hm₂ := overwrite_behind (by simp [hv, ht, be16, ip6Hlen]) hopt
  rw [hm₂] at hpay
  have hm₃ := overwrite_behind (by simp [hv, ht, be16, ip6Hlen, hbhOptHdrLen]) hpay
  refine ⟨v, t, r, src.1 ++ (rest.drop (hbhHdr (nexthOf p.bytes) c).length).drop src.1.length,
    hi, lo, ?_, hv, ht, Pbuf.ofBlock_chain hq, ?_⟩
  · rw [hn]
    exact hpayload
  · rw [Pbuf.ofBlock_payload hq, hm₃]
    simp only [List.append_assoc]

theorem strip_src {heap : Heap} {stripped : Bool} {q : Pbuf} (header : ip6Hlen ≤ p.len)
    (h : dtnStripCustodianOption heap p = .ok (stripped, q)) :
    ip6Hlen ≤ q.len ∧ srcOf q.payload = srcOf p.payload := by
  cases stripped with
  | false =>
      rw [strip_false h]
      exact ⟨header, rfl⟩
  | true =>
      obtain ⟨v, t, r, rest, hi, lo, n, next, hp, hv, ht, -, -, hq, -⟩ := strip_shape header h
      rw [Pbuf.len, hp, hq, srcOf_addresses, srcOf_addresses, be16, split_addresses hv ht,
        split_addresses hv ht, split_length hv ht]
      exact ⟨Nat.le_add_right _ _, rfl⟩

/-- Tagging a packet that is at least as long as its header says returns only if the
header is right. -/
theorem add_cases {heap : Heap} {b behind : Bytes} {hb : b.length < 65536} {c : Block 16}
    {r : Bool} {q : Pbuf} (honest : plenOf b + ip6Hlen ≤ b.length)
    (h : dtnAddCustodianOption heap (.single b behind hb) c = .ok (r, q)) :
    q.bytes = b ∨ WellFormed b ∧ b.length + 24 < 65536 ∧ q.bytes = tagged b c := by
  rw [ip6Hlen] at honest
  have header : 40 ≤ b.length := by omega
  cases halloc : pbufAlloc heap (ip6Hlen + (plenOf b + hbhOptHdrLen) % 65536) with
  | none =>
      simp only [dtnAddCustodianOption, nexth_single behind hb header, plen_single behind hb header,
        Run.bind_ok, halloc] at h
      cases h
      exact .inl (Pbuf.single_bytes b behind hb)
  | some block =>
      obtain ⟨newp, after⟩ := block
      have hsize := pbufAlloc_length halloc
      have room : b.length + 24 ≤ newp.length := by
        simp only [dtnAddCustodianOption, nexth_single behind hb header,
          plen_single behind hb header, Run.bind_ok, halloc, Run.bind_eq_ok] at h
        obtain ⟨hdr, -, m₁, hcopy, m₂, hopt, n, hn, src, -, m₃, hpay, -⟩ := h
        have hpay := (overwrite_eq_ok.mp hpay).1
        rw [src.2, overwrite_length hopt, (copyIp6Hdr_length hcopy).2,
          (copyLength_eq_ok.mp hn).2, Pbuf.single_totLen, ip6Hlen, hbhOptHdrLen] at hpay
        omega
      rw [ip6Hlen, hbhOptHdrLen] at hsize
      have wf : WellFormed b := ⟨header, by rw [ip6Hlen]; omega⟩
      obtain ⟨hl, hadd⟩ := add_tagged behind hb c wf (by omega) halloc
      cases h.symm.trans hadd
      exact .inr ⟨wf, by omega, Pbuf.single_bytes _ after hl⟩

end Buffers

end LwipDtn
