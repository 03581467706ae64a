import LwipDtn.CustodyLaws

/-!
The option codec as a whole, and the two ways in which a packet gets its option
before it is sent. Immediate forwarding edits a custodian option in place; a stay
in storage strips 24 bytes and rebuilds the header. The results agree unless the
packet already carries a custodian option in a header that is longer than 24 bytes
or whose last four bytes are not zero.
-/

namespace LwipDtn
open Outcome Bytes

/-- The custodian option is a lossless, overwriting tag. -/
theorem custodian_option_codec (p : Pbuf) (c c' : Block 16) (add add' strip : Heap)
    (env env' : RewriteEnv) (segment : p.chain = []) (wf : WellFormed p.bytes)
    (fits : plenOf p.bytes ≤ 65535 - 64) (first : nexthOf p.bytes ≠ ip6NexthHopbyhop)
    (roomAdd : add.Roomy (p.totLen + 24)) (roomAdd' : add'.Roomy (p.totLen + 24))
    (roomStrip : strip.Roomy (p.totLen + 24)) (roomEnv : env.add.Roomy (p.totLen + 24)) :
    ∃ q, dtnAddCustodianOption add p c = .ok (true, q) ∧ WellFormed q.bytes ∧
      dtnExtractCustodianOption q = .ok (some c) ∧
      (∃ r, dtnStripCustodianOption strip q = .ok (true, r) ∧ r.bytes = p.bytes) ∧
      (∃ r r', dtnUpdateOrAddCustodianOption env q c' = .ok (true, r) ∧
        dtnAddCustodianOption add' p c' = .ok (true, r') ∧ r.bytes = r'.bytes) ∧
      ∀ x ∈ [p, q], ∃ r r', dtnUpdateOrAddCustodianOption env x c = .ok (true, r) ∧
        dtnUpdateOrAddCustodianOption env' r c = .ok (true, r') ∧ r'.bytes = r.bytes := by
  obtain ⟨hb, hp⟩ := Pbuf.eq_single segment
  generalize p.payload = b, p.behind = behind at hb hp
  subst hp
  rw [Pbuf.single_bytes] at wf fits first
  rw [Pbuf.single_totLen] at roomAdd roomAdd' roomStrip roomEnv
  have hh : 40 ≤ b.length := wf.header
  have hlen : b.length + 24 < 65536 := by
    have := wf.plen
    rw [ip6Hlen] at this
    omega
  obtain ⟨after, ht, hadd⟩ := add_roomy behind hb roomAdd c wf hlen
  have htwf := tagged_wellFormed c wf hlen
  have htlen := tagged_length c hh
  obtain ⟨htype, hopt, -⟩ := tagged_option c hh
  -- an update of the tagged packet only overwrites the address
  have hupdate (e : RewriteEnv) (d : Block 16) :
      ∃ h, dtnUpdateOrAddCustodianOption e (.single (tagged b c) after ht) d =
        .ok (true, .single (tagged b d) after h) := by
    obtain ⟨h, he⟩ := update_custody after ht e d (by omega)
      (tagged_nexth c hh) htype hopt
    simp only [retagged_tagged c d hh] at he
    exact ⟨by rwa [tagged_length d hh], he⟩
  obtain ⟨after₁, h₁, hstrip⟩ := strip_roomy after ht (roomStrip.mono (by omega)) htwf
    (tagged_nexth c hh) (by omega)
  obtain ⟨after₂, h₂, hadd'⟩ := add_roomy behind hb roomAdd' c' wf hlen
  obtain ⟨h₃, hup'⟩ := hupdate env c'
  obtain ⟨h₄, hup⟩ := hupdate env c
  obtain ⟨after₅, h₅, hplain⟩ := add_roomy behind hb roomEnv c wf hlen
  refine ⟨_, hadd, by rw [Pbuf.single_bytes]; exact htwf, extract_tagged after c ht hh,
    ⟨_, hstrip, ?_⟩, ⟨_, _, hup', hadd', by simp⟩, ?_⟩
  · simp only [Pbuf.single_bytes]
    exact untagged_tagged c hh (by have := wf.plen; rw [ip6Hlen] at this; omega)
  · intro x hx
    rcases List.mem_pair.mp hx with rfl | rfl
    · obtain ⟨h, he⟩ := update_custody after₅ h₅ env' c (by omega)
        (tagged_nexth c hh) htype hopt
      refine ⟨_, _, by rw [update_plain behind hb env c hh first]; exact hplain, he, ?_⟩
      simp only [Pbuf.single_bytes, retagged_tagged c c hh]
    · obtain ⟨h, he⟩ := update_custody after h₄ env' c (by omega)
        (tagged_nexth c hh) htype hopt
      refine ⟨_, _, hup, he, ?_⟩
      simp only [Pbuf.single_bytes, retagged_tagged c c hh]

def samplePacket : Bytes :=
  [0x60, 0, 0, 0, 0, 8, 17, 64] ++
  [0xfd, 0, 0, 1, 0, 0, 0, 0, 0, 0, 0, 0, 0, 0, 0, 1] ++
  [0xfd, 0, 0, 0x23, 0, 0, 0, 0, 0, 0, 0, 0, 0, 0, 0, 3] ++
  [0x10, 0, 0x20, 0, 0, 8, 0, 0]

def sampleAddr : Block 16 := ⟨[0xfd, 0, 0, 0, 0, 0, 0, 0, 0, 0, 0, 0, 0, 0, 0, 2], rfl⟩

def smallHeap : Heap := some (List.replicate 128 0)

theorem smallHeap_roomy {n : Nat} (h : n ≤ 128) : smallHeap.Roomy n :=
  ⟨_, rfl, by rwa [List.length_replicate]⟩

theorem wellFormed_iff (b : Bytes) :
    WellFormed b ↔ ip6Hlen ≤ b.length ∧ plenOf b + ip6Hlen = b.length :=
  ⟨fun h => ⟨h.header, h.plen⟩, fun h => ⟨h.1, h.2⟩⟩

instance (b : Bytes) : Decidable (WellFormed b) := decidable_of_iff' _ (wellFormed_iff b)

theorem custodian_option_codec_sample :
    ∃ q, dtnAddCustodianOption smallHeap (.single samplePacket [] (by decide)) sampleAddr =
        .ok (true, q) ∧ dtnExtractCustodianOption q = .ok (some sampleAddr) := by
  obtain ⟨q, hadd, -, hext, -⟩ := custodian_option_codec (.single samplePacket [] (by decide))
    sampleAddr sampleAddr smallHeap smallHeap smallHeap ⟨smallHeap, smallHeap⟩
    ⟨smallHeap, smallHeap⟩ rfl
    (by rw [Pbuf.single_bytes]; decide) (by rw [Pbuf.single_bytes]; decide)
    (by rw [Pbuf.single_bytes]; decide) (smallHeap_roomy (by decide)) (smallHeap_roomy (by decide))
    (smallHeap_roomy (by decide)) (smallHeap_roomy (by decide))
  exact ⟨q, hadd, hext⟩

/-- What immediate forwarding hands to the raw socket. -/
def directBytes (env : RewriteEnv) (p : Pbuf) (c : Block 16) : Run Bytes := do
  let (_, q) ← dtnUpdateOrAddCustodianOption env p c
  return q.bytes

/-- What is handed to the raw socket after a stay in storage. -/
def storedBytes (strip add : Heap) (p : Pbuf) (c : Block 16) : Run Bytes := do
  let (_, q) ← dtnStripCustodianOption strip p
  let (_, r) ← dtnAddCustodianOption add q c
  return r.bytes

/-- A leading hop-by-hop header lies inside the packet. -/
def HopByHopComplete (b : Bytes) : Prop :=
  nexthOf b = ip6NexthHopbyhop → ip6Hlen + ((b.getD 41 0).toNat + 1) * 8 ≤ b.length

/-- The packet already carries a custodian option. -/
def CustodyFirst (b : Bytes) : Prop :=
  nexthOf b = ip6NexthHopbyhop ∧ b.getD 42 0 = custodyOptionType ∧ b.getD 43 0 = 16

/-- The inputs on which both ways of tagging work and agree: there is room for the
option; a leading hop-by-hop header leaves 64 bytes to work on; and a custodian
option that is already there sits in a header of 24 bytes that ends in zeros. -/
structure PathsAgree (b : Bytes) : Prop where
  room : nexthOf b ≠ ip6NexthHopbyhop → b.length + 24 < 65536
  long : nexthOf b = ip6NexthHopbyhop → 64 ≤ b.length
  canonical : CustodyFirst b → b.getD 41 0 = 2 ∧ (b.drop 60).take 4 = [0, 0, 0, 0]

theorem copyIp6Hdr_short {newp : Bytes} (hdr : Block ip6Hlen) (nexth : UInt8) (plen : Nat)
    (h : newp.length < 40) : copyIp6Hdr newp hdr nexth plen = .error .fault := by
  rw [copyIp6Hdr, overwrite_fault (by rw [hdr.2, ip6Hlen]; omega), Run.bind_error]

section Faults

variable {b : Bytes} {heap : Heap} (behind : Bytes) (hb : b.length < 65536)

theorem readHdr_single (h : 40 ≤ b.length) :
    ∃ hdr, readBlock (Pbuf.single b behind hb).mem 0 ip6Hlen = .ok hdr := by
  obtain ⟨hdr, hr, -⟩ := readBlock_of_le (m := (Pbuf.single b behind hb).mem) (i := 0)
    (n := ip6Hlen) (by simp only [Pbuf.single_mem, List.length_append, ip6Hlen]; omega)
  exact ⟨hdr, hr⟩

theorem add_overflow (room : heap.Roomy b.length) (c : Block 16) (wf : WellFormed b)
    (big : 65536 ≤ b.length + 24) :
    dtnAddCustodianOption heap (.single b behind hb) c = .error .fault := by
  have hh : 40 ≤ b.length := wf.header
  have hp := wf.plen
  rw [ip6Hlen] at hp
  obtain ⟨newp, after, ha⟩ := pbufAlloc_roomy room
    (ip6Hlen + (plenOf b + hbhOptHdrLen) % 65536) (by rw [ip6Hlen, hbhOptHdrLen]; omega)
  have hn := pbufAlloc_length ha
  rw [ip6Hlen, hbhOptHdrLen] at hn
  obtain ⟨hdr, hr⟩ := readHdr_single behind hb hh
  simp only [dtnAddCustodianOption, nexth_single behind hb hh, plen_single behind hb hh,
    Run.bind_ok, ha, hr,
    copyIp6Hdr_short hdr ip6NexthHopbyhop _ (show newp.length < 40 by omega), Run.bind_error]

end Faults

/-- A hop-by-hop packet of less than 64 bytes does not survive stripping: the wrapped
length of the new packet has no room for the header. -/
theorem strip_stuck {heap : Heap} {p : Pbuf} {block : Bytes × Bytes} (header : ip6Hlen ≤ p.len)
    (wf : WellFormed p.bytes) (first : nexthOf p.bytes = ip6NexthHopbyhop) (short : p.totLen < 64)
    (readable : 41 ≤ p.mem.length)
    (alloc : pbufAlloc heap (p.totLen + 65536 - 24) = some block) :
    dtnStripCustodianOption heap p = .error .fault := by
  obtain ⟨newp, after⟩ := block
  have hp := wf.plen
  rw [Pbuf.bytes_length, ip6Hlen] at hp
  have hn := pbufAlloc_length alloc
  have hlen : ip6Hlen + (plenOf p.bytes + 65536 - hbhOptHdrLen) % 65536 =
      p.totLen + 65536 - 24 := by
    rw [ip6Hlen, hbhOptHdrLen]; omega
  obtain ⟨hdr, hr, -⟩ := readBlock_of_le (m := p.mem) (i := 0) (n := ip6Hlen)
    (by rw [ip6Hlen]; omega)
  have hnext : byteAt p.mem ip6Hlen = .ok p.mem[40] := byteAt_of_lt (i := 40) (by omega)
  simp only [dtnStripCustodianOption, nexth_mem header, plen_mem header, first, ne_eq, not_true,
    if_false, hnext, Run.bind_ok, hlen, alloc, hr,
    copyIp6Hdr_short hdr _ _ (show newp.length < 40 by omega), Run.bind_error]

theorem untagged_wellFormed {b : Bytes} (wf : WellFormed b) (long : 64 ≤ b.length) :
    WellFormed (untagged b) ∧ (untagged b).length = b.length - 24 := by
  have hp := wf.plen
  rw [ip6Hlen] at hp
  obtain ⟨v, t, o, r, hi, lo, n, x, rfl, hv, ht, ho⟩ := option_split long
  have hopt : ([x] ++ o ++ r).length = 24 + r.length := by
    rw [List.length_append, List.length_append, ho]
    rfl
  rw [split_plen hv, split_length hv ht, hopt] at hp
  rw [untagged_split hv ht ho, be16]
  refine ⟨⟨?_, ?_⟩, ?_⟩
  · rw [split_length hv ht, ip6Hlen]; omega
  · rw [split_plen hv, split_length hv ht, be16Val_be16 (by
      have := be16Val_lt hi lo
      omega), ip6Hlen, hbhOptHdrLen]
    omega
  · rw [split_length hv ht, split_length hv ht, hopt]
    omega

section Option

variable {v t a pad r : Bytes} {hi lo x h : UInt8}

theorem custody_split {b : Bytes} (long : 64 ≤ b.length) (custody : CustodyFirst b) :
    ∃ (v t a pad r : Bytes) (hi lo x h : UInt8), v.length = 4 ∧ t.length = 33 ∧ a.length = 16 ∧
      pad.length = 4 ∧ b = v ++ [hi, lo] ++ [ip6NexthHopbyhop] ++ t ++
        ([x, h, custodyOptionType, 16] ++ a ++ (pad ++ r)) := by
  obtain ⟨first, type, len⟩ := custody
  obtain ⟨v, t, r, hi, lo, n, rfl, hv, ht⟩ := header_split (show 40 ≤ b.length by omega)
  rw [split_nexth hv] at first
  rw [split_length hv ht] at long
  have hpay (k : Nat) : (v ++ [hi, lo] ++ [n] ++ t ++ r).getD (40 + k) 0 = r.getD k 0 := by
    rw [List.getD_eq_getElem?_getD, List.getElem?_append_right (by simp [hv, ht]),
      List.getD_eq_getElem?_getD]
    simp [hv, ht]
  rw [show 42 = 40 + 2 from rfl, hpay 2] at type
  rw [show 43 = 40 + 3 from rfl, hpay 3] at len
  match r, long with
  | x :: h :: ty :: ln :: r, long =>
  simp only [List.getD_cons_succ, List.getD_cons_zero] at type len
  simp only [List.length_cons] at long
  obtain ⟨a, r, rfl, ha⟩ := exists_split (m := r) (n := 16) (by omega)
  rw [List.length_append] at long
  obtain ⟨pad, r, rfl, hpad⟩ := exists_split (m := r) (n := 4) (by omega)
  exact ⟨v, t, a, pad, r, hi, lo, x, h, hv, ht, ha, hpad, by rw [first, type, len]; simp⟩

theorem retagged_split (c : Block 16) (hv : v.length = 4) (ht : t.length = 33)
    (ha : a.length = 16) :
    retagged (v ++ [hi, lo] ++ [ip6NexthHopbyhop] ++ t ++
      ([x, h, custodyOptionType, 16] ++ a ++ (pad ++ r))) c =
    v ++ [hi, lo] ++ [ip6NexthHopbyhop] ++ t ++ ([x, h, custodyOptionType, 16] ++ c.1 ++
      (pad ++ r)) := by
  have hl : (v ++ [hi, lo] ++ [ip6NexthHopbyhop] ++ t ++
      [x, h, custodyOptionType, 16]).length = 44 := by simp [hv, ht]
  rw [retagged, List.append_assoc _ a, ← List.append_assoc _ _ (a ++ _), List.take_left' hl,
    show 60 = 44 + 16 from rfl, ← List.drop_drop, List.drop_left' hl, List.drop_left' ha]
  simp

theorem tagged_untagged_split (c : Block 16) (hv : v.length = 4) (ht : t.length = 33)
    (ha : a.length = 16) (hpad : pad.length = 4) (fits : 24 ≤ be16Val hi lo) :
    tagged (untagged (v ++ [hi, lo] ++ [ip6NexthHopbyhop] ++ t ++
      ([x, h, custodyOptionType, 16] ++ a ++ (pad ++ r)))) c =
    v ++ [hi, lo] ++ [ip6NexthHopbyhop] ++ t ++ ([x, 2, custodyOptionType, 16] ++ c.1 ++
      ([0, 0, 0, 0] ++ r)) := by
  have hun := @untagged_split v t r hi lo ip6NexthHopbyhop x
    ([h, custodyOptionType, 16] ++ a ++ pad) hv ht (by simp [ha, hpad])
  have hform : [x, h, custodyOptionType, 16] ++ a ++ (pad ++ r) =
      [x] ++ ([h, custodyOptionType, 16] ++ a ++ pad) ++ r := by simp
  have hplen : be16 (be16Val (UInt8.ofNat ((be16Val hi lo - hbhOptHdrLen) / 256))
      (UInt8.ofNat (be16Val hi lo - hbhOptHdrLen)) + hbhOptHdrLen) = [hi, lo] := by
    rw [be16Val_be16 (by have := be16Val_lt hi lo; omega), hbhOptHdrLen,
      Nat.sub_add_cancel fits, be16_be16Val]
  rw [hform, hun, be16, tagged_split c hv ht, hplen]
  simp [hbhHdr, hbhOptHdrLen]

end Option

/-- Rebuilding and editing in place differ in the length byte and the last four
bytes of the hop-by-hop header. -/
theorem tagged_untagged_eq_retagged {b : Bytes} (c : Block 16) (wf : WellFormed b)
    (long : 64 ≤ b.length) (custody : CustodyFirst b) :
    tagged (untagged b) c = retagged b c ↔
      b.getD 41 0 = 2 ∧ (b.drop 60).take 4 = [0, 0, 0, 0] := by
  have hp := wf.plen
  obtain ⟨v, t, a, pad, r, hi, lo, x, h, hv, ht, ha, hpad, rfl⟩ := custody_split long custody
  rw [split_plen hv, ip6Hlen] at hp
  have hlen : (v ++ [hi, lo] ++ [ip6NexthHopbyhop] ++ t ++ [x]).length = 41 := by simp [hv, ht]
  have h41 : (v ++ [hi, lo] ++ [ip6NexthHopbyhop] ++ t ++
      ([x, h, custodyOptionType, 16] ++ a ++ (pad ++ r))).getD 41 0 = h := by
    rw [List.getD_eq_getElem?_getD, List.getElem?_append_right (by simp [hv, ht])]
    simp [hv, ht]
  have h60 : ((v ++ [hi, lo] ++ [ip6NexthHopbyhop] ++ t ++
      ([x, h, custodyOptionType, 16] ++ a ++ (pad ++ r))).drop 60).take 4 = pad := by
    rw [← List.append_assoc, List.drop_left' (by simp [hv, ht, ha]), List.take_left' hpad]
  rw [tagged_untagged_split c hv ht ha hpad (by omega), retagged_split c hv ht ha, h41, h60,
    List.append_cancel_left_eq]
  constructor
  · intro he
    obtain ⟨hhead, htail⟩ := List.append_inj he (by simp)
    refine ⟨?_, (List.append_cancel_right htail).symm⟩
    simpa using hhead.symm
  · rintro ⟨rfl, rfl⟩
    rfl

section Paths

variable {b : Bytes} (behind : Bytes) (hb : b.length < 65536)

theorem stored_plain {strip add : Heap} (c : Block 16) (h : 40 ≤ b.length)
    (first : nexthOf b ≠ ip6NexthHopbyhop) :
    storedBytes strip add (.single b behind hb) c = (do
      let (_, r) ← dtnAddCustodianOption add (.single b behind hb) c
      return r.bytes) := by
  simp only [storedBytes, strip_other behind hb h first, Run.bind_ok]

/-- A stay in storage replaces the first 24 bytes after the fixed header. -/
theorem stored_hopbyhop {strip add : Heap} (roomStrip : strip.Roomy b.length)
    (roomAdd : add.Roomy (b.length + 24))
    (c : Block 16) (wf : WellFormed b) (first : nexthOf b = ip6NexthHopbyhop)
    (long : 64 ≤ b.length) :
    storedBytes strip add (.single b behind hb) c = .ok (tagged (untagged b) c) := by
  obtain ⟨uwf, ulen⟩ := untagged_wellFormed wf long
  obtain ⟨after, h, hstrip⟩ := strip_roomy behind hb roomStrip wf first long
  obtain ⟨after', h', hadd⟩ := add_roomy after h (roomAdd.mono (by omega)) c uwf (by omega)
  simp only [storedBytes, hstrip, hadd, Run.bind_ok, Run.pure_eq_ok, Pbuf.single_bytes]

theorem stored_short {strip add : Heap} (roomStrip : strip.Roomy b.length) (c : Block 16)
    (wf : WellFormed b) (first : nexthOf b = ip6NexthHopbyhop) (complete : 48 ≤ b.length)
    (short : b.length < 64) : storedBytes strip add (.single b behind hb) c = .error .fault := by
  obtain ⟨block, after, halloc⟩ := pbufAlloc_roomy roomStrip (b.length + 65536 - 24) (by omega)
  rw [← Pbuf.single_totLen b behind hb] at halloc
  have hstrip := strip_stuck (p := .single b behind hb) wf.header (by rwa [Pbuf.single_bytes])
    (by rwa [Pbuf.single_bytes]) (by rw [Pbuf.single_totLen]; omega)
    (by rw [Pbuf.single_mem, List.length_append]; omega) halloc
  rw [storedBytes, hstrip, Run.bind_error]

theorem direct_other_option {env : RewriteEnv} (roomStrip : env.strip.Roomy b.length)
    (roomAdd : env.add.Roomy (b.length + 24)) (c : Block 16) (wf : WellFormed b)
    (first : nexthOf b = ip6NexthHopbyhop) (long : 64 ≤ b.length) (other : ¬ CustodyFirst b) :
    directBytes env (.single b behind hb) c = .ok (tagged (untagged b) c) := by
  obtain ⟨uwf, ulen⟩ := untagged_wellFormed wf long
  obtain ⟨after, h, hstrip⟩ := strip_roomy behind hb roomStrip wf first long
  obtain ⟨after', h', hadd⟩ := add_roomy after h (roomAdd.mono (by omega)) c uwf (by omega)
  have hother : ¬ (b.getD 42 0 = custodyOptionType ∧ b.getD 43 0 = 16) :=
    fun hc => other ⟨first, hc⟩
  simp only [directBytes, update_other_option behind hb env c (by omega) first hother, hstrip,
    Run.bind_ok, if_true, hadd, Run.pure_eq_ok, Pbuf.single_bytes]

theorem direct_custody (env : RewriteEnv) (c : Block 16) (long : 64 ≤ b.length)
    (custody : CustodyFirst b) :
    directBytes env (.single b behind hb) c = .ok (retagged b c) := by
  obtain ⟨first, type, len⟩ := custody
  obtain ⟨h, hup⟩ := update_custody behind hb env c (by omega) first type len
  simp only [directBytes, hup, Run.bind_ok, Run.pure_eq_ok, Pbuf.single_bytes]

end Paths

/-- Immediate forwarding and a stay in storage emit the same bytes exactly for the
packets described by `PathsAgree`. -/
theorem direct_eq_stored_iff (p : Pbuf) (c : Block 16) (env : RewriteEnv) (strip add : Heap)
    (segment : p.chain = []) (wf : WellFormed p.bytes) (complete : HopByHopComplete p.bytes)
    (roomEnvStrip : env.strip.Roomy p.totLen) (roomEnvAdd : env.add.Roomy (p.totLen + 24))
    (roomStrip : strip.Roomy p.totLen) (roomAdd : add.Roomy (p.totLen + 24)) :
    (∃ r, directBytes env p c = .ok r ∧ storedBytes strip add p c = .ok r) ↔
      PathsAgree p.bytes := by
  obtain ⟨hb, hp⟩ := Pbuf.eq_single segment
  generalize p.payload = b, p.behind = behind at hb hp
  subst hp
  rw [Pbuf.single_bytes] at wf complete ⊢
  rw [Pbuf.single_totLen] at roomEnvStrip roomEnvAdd roomStrip roomAdd
  have hh : 40 ≤ b.length := wf.header
  by_cases first : nexthOf b = ip6NexthHopbyhop
  · have h48 := complete first
    rw [ip6Hlen] at h48
    by_cases long : 64 ≤ b.length
    · rw [stored_hopbyhop behind hb roomStrip roomAdd c wf first long]
      by_cases custody : CustodyFirst b
      · rw [direct_custody behind hb env c long custody]
        have heq := tagged_untagged_eq_retagged c wf long custody
        constructor
        · rintro ⟨r, hd, hs⟩
          exact ⟨fun h => absurd first h, fun _ => long, fun _ =>
            heq.mp (Except.ok.inj (hs.trans hd.symm))⟩
        · intro h
          exact ⟨retagged b c, rfl, congrArg _ (heq.mpr (h.canonical custody))⟩
      · rw [direct_other_option behind hb roomEnvStrip roomEnvAdd c wf first long custody]
        exact ⟨fun _ => ⟨fun h => absurd first h, fun _ => long, fun h => absurd h custody⟩,
          fun _ => ⟨_, rfl, rfl⟩⟩
    · rw [stored_short behind hb roomStrip c wf first (by omega) (Nat.not_le.mp long)]
      constructor
      · rintro ⟨r, -, hs⟩
        cases hs
      · intro h
        exact absurd (h.long first) long
  · rw [stored_plain behind hb c hh first, directBytes, update_plain behind hb env c hh first]
    by_cases room : b.length + 24 < 65536
    · obtain ⟨after, h, hadd⟩ := add_roomy behind hb roomEnvAdd c wf room
      obtain ⟨after', h', hadd'⟩ := add_roomy behind hb roomAdd c wf room
      simp only [hadd, hadd', Run.bind_ok, Run.pure_eq_ok, Pbuf.single_bytes]
      exact ⟨fun _ => ⟨fun _ => room, fun h => absurd h first, fun h => absurd h.1 first⟩,
        fun _ => ⟨_, rfl, rfl⟩⟩
    · rw [add_overflow behind hb (roomAdd.mono (by omega)) c wf (by omega), Run.bind_error]
      constructor
      · rintro ⟨r, -, hs⟩
        cases hs
      · intro h
        exact absurd (h.room first) room

/-- A packet of 64 bytes whose custodian option is followed by four bytes of padding
option where the rebuilt header has zeros. -/
def paddedPacket : Bytes :=
  [0x60, 0, 0, 0, 0, 24, 0, 64] ++
  [0xfd, 0, 0, 1, 0, 0, 0, 0, 0, 0, 0, 0, 0, 0, 0, 1] ++
  [0xfd, 0, 0, 0x23, 0, 0, 0, 0, 0, 0, 0, 0, 0, 0, 0, 3] ++
  [59, 2, 0x1E, 16] ++ sampleAddr.1 ++ [1, 2, 0, 0]

theorem direct_ne_stored :
    WellFormed paddedPacket ∧ HopByHopComplete paddedPacket ∧
      ∃ r r', directBytes ⟨smallHeap, smallHeap⟩ (.single paddedPacket [] (by decide)) sampleAddr =
          .ok r ∧
        storedBytes smallHeap smallHeap (.single paddedPacket [] (by decide)) sampleAddr = .ok r' ∧
        r ≠ r' :=
  ⟨by decide, fun _ => by decide, paddedPacket, tagged (untagged paddedPacket) sampleAddr, by rfl,
    by decide +kernel, by decide⟩

theorem direct_eq_stored_sample :
    ∃ r, directBytes ⟨smallHeap, smallHeap⟩ (.single samplePacket [] (by decide)) sampleAddr =
      .ok r ∧
      storedBytes smallHeap smallHeap (.single samplePacket [] (by decide)) sampleAddr = .ok r := by
  refine (direct_eq_stored_iff (.single samplePacket [] (by decide)) sampleAddr
    ⟨smallHeap, smallHeap⟩
    smallHeap smallHeap rfl (by rw [Pbuf.single_bytes]; decide) ?_ (smallHeap_roomy (by decide))
    (smallHeap_roomy (by decide))
    (smallHeap_roomy (by decide)) (smallHeap_roomy (by decide))).mpr ?_
  · rw [Pbuf.single_bytes]
    intro first
    exact absurd first (by decide)
  · rw [Pbuf.single_bytes]
    exact ⟨fun _ => by decide, fun first => absurd first (by decide),
      fun custody => absurd custody.1 (by decide)⟩

end LwipDtn
