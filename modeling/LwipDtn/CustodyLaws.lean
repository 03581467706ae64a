import LwipDtn.CustodyCodec

/-!
What the four custody functions do to a packet in one segment: adding and stripping the
option, finding the custodian, and the update in place or by adding.
-/

namespace LwipDtn
open Outcome Bytes

section Pieces

variable {v t a r : Bytes} {hi lo n : UInt8} (behind : Bytes)
  (hb : (v ++ [hi, lo] ++ [n] ++ t ++ (a ++ r)).length < 65536)

theorem read_header (hv : v.length = 4) (ht : t.length = 33) :
    readBlock (Pbuf.single (v ++ [hi, lo] ++ [n] ++ t ++ (a ++ r)) behind hb).mem 0 ip6Hlen =
      .ok ⟨v ++ [hi, lo] ++ [n] ++ t, by simp [hv, ht, ip6Hlen]⟩ :=
  readBlock_split (a := []) (c := a ++ r ++ behind) _ (by simp) rfl

theorem read_rest (hv : v.length = 4) (ht : t.length = 33) :
    readBlock (Pbuf.single (v ++ [hi, lo] ++ [n] ++ t ++ (a ++ r)) behind hb).mem
      (ip6Hlen + a.length) r.length = .ok ⟨r, rfl⟩ :=
  readBlock_split (a := v ++ [hi, lo] ++ [n] ++ t ++ a) (c := behind) _ (by simp)
    (by simp [hv, ht, ip6Hlen]; omega)

theorem copyLength_rest (hv : v.length = 4) (ht : t.length = 33) :
    copyLength (Pbuf.single (v ++ [hi, lo] ++ [n] ++ t ++ (a ++ r)) behind hb).totLen
      (ip6Hlen + a.length) = .ok r.length := by
  rw [copyLength_eq_ok, Pbuf.single_totLen, split_length hv ht, ip6Hlen, List.length_append]
  omega

end Pieces

section SingleSegment

variable {b : Bytes} (behind : Bytes) (hb : b.length < 65536)

theorem byteAt_mem_single {i : Nat} (h : i < b.length) :
    byteAt (Pbuf.single b behind hb).mem i = .ok (b.getD i 0) := by
  rw [Pbuf.byteAt_mem _ (show i < (Pbuf.single b behind hb).len from h), Pbuf.single_bytes]

theorem nexth_single (h : 40 ≤ b.length) :
    byteAt (Pbuf.single b behind hb).mem 6 = .ok (nexthOf b) :=
  byteAt_mem_single behind hb (by omega)

theorem plen_single (h : 40 ≤ b.length) :
    be16At (Pbuf.single b behind hb).mem 4 = .ok (plenOf b) := by
  rw [plen_mem (show ip6Hlen ≤ (Pbuf.single b behind hb).len from h), Pbuf.single_bytes]

theorem add_tagged {heap : Heap} {newp after : Bytes} (c : Block 16) (wf : WellFormed b)
    (fits : b.length + 24 < 65536)
    (alloc : pbufAlloc heap (ip6Hlen + (plenOf b + hbhOptHdrLen) % 65536) = some (newp, after)) :
    ∃ h, dtnAddCustodianOption heap (.single b behind hb) c =
      .ok (true, .single (tagged b c) after h) := by
  have hh := wf.header
  have hp := wf.plen
  rw [ip6Hlen] at hh hp
  have hlen : (tagged b c).length < 65536 := by rw [tagged_length c hh]; exact fits
  refine ⟨hlen, ?_⟩
  have hnew := pbufAlloc_length alloc
  rw [ip6Hlen, hbhOptHdrLen] at hnew
  obtain ⟨v, t, r, hi, lo, n, rfl, hv, ht⟩ := header_split hh
  rw [split_plen hv] at hp hnew alloc
  rw [split_length hv ht] at hp fits
  obtain ⟨old, rest, rfl, hold⟩ := exists_split (m := newp) (n := 40) (by omega)
  obtain ⟨opt, body, rfl, hopt⟩ := exists_split (m := rest) (n := 24) (by
    rw [List.length_append] at hnew; omega)
  simp only [List.length_append] at hnew
  have hhdr := @read_header v t [] r hi lo n behind hb hv ht
  have hsrc := @read_rest v t [] r hi lo n behind hb hv ht
  have htot := @copyLength_rest v t [] r hi lo n behind hb hv ht
  simp only [List.nil_append, List.length_nil, Nat.add_zero] at hhdr hsrc htot
  have hcopy := copyIp6Hdr_split (opt ++ body)
    ⟨v ++ [hi, lo] ++ [n] ++ t, by simp [hv, ht, ip6Hlen]⟩ ip6NexthHopbyhop
    ((be16Val hi lo + hbhOptHdrLen) % 65536) hold rfl hv
  have hmod : (be16Val hi lo + hbhOptHdrLen) % 65536 = be16Val hi lo + hbhOptHdrLen := by
    rw [hbhOptHdrLen]; omega
  have hopts : overwrite (v ++ be16 (be16Val hi lo + hbhOptHdrLen) ++ [ip6NexthHopbyhop] ++ t ++
      (opt ++ body)) ip6Hlen (hbhHdr n c) = .ok (v ++ be16 (be16Val hi lo + hbhOptHdrLen) ++
        [ip6NexthHopbyhop] ++ t ++ hbhHdr n c ++ body) :=
    overwrite_split (b := opt) (by simp) (by simp [hv, ht, ip6Hlen]) (by simp [hopt])
  have hbody : overwrite (v ++ be16 (be16Val hi lo + hbhOptHdrLen) ++ [ip6NexthHopbyhop] ++ t ++
      hbhHdr n c ++ body) (ip6Hlen + hbhOptHdrLen) r = .ok (v ++
        be16 (be16Val hi lo + hbhOptHdrLen) ++ [ip6NexthHopbyhop] ++ t ++ hbhHdr n c ++ r ++ []) :=
    overwrite_split (b := body) (by simp) (by simp [hv, ht, ip6Hlen, hbhOptHdrLen]) (by omega)
  rw [hmod] at hcopy alloc
  simp only [dtnAddCustodianOption, nexth_single behind hb hh, plen_single behind hb hh,
    split_plen hv, split_nexth hv,
    Run.bind_ok, hmod, alloc, hhdr, hcopy, hopts, htot, hsrc, hbody, List.append_nil]
  rw [tagged_split c hv ht] at hlen
  rw [Pbuf.ofBlock_of_lt hlen]
  simp only [Run.bind_ok, Run.pure_eq_ok, tagged_split c hv ht]

theorem strip_untagged {heap : Heap} {newp after : Bytes} (wf : WellFormed b)
    (first : nexthOf b = ip6NexthHopbyhop) (long : 64 ≤ b.length)
    (alloc : pbufAlloc heap (ip6Hlen + (plenOf b - hbhOptHdrLen)) = some (newp, after)) :
    ∃ h, dtnStripCustodianOption heap (.single b behind hb) =
      .ok (true, .single (untagged b) after h) := by
  have hh := wf.header
  have hp := wf.plen
  rw [ip6Hlen] at hh hp
  have hnew := pbufAlloc_length alloc
  rw [ip6Hlen, hbhOptHdrLen] at hnew
  obtain ⟨v, t, o, r, hi, lo, n, x, rfl, hv, ht, ho⟩ := option_split long
  have hopt : ([x] ++ o).length = hbhOptHdrLen := by simp [ho, hbhOptHdrLen]
  have hsize : (v ++ [hi, lo] ++ [n] ++ t ++ ([x] ++ o ++ r)).length = 64 + r.length := by
    rw [split_length hv ht, List.length_append, hopt, hbhOptHdrLen]
    omega
  rw [split_plen hv] at hp hnew alloc
  rw [split_nexth hv] at first
  subst first
  rw [hsize] at hp
  obtain ⟨old, body, rfl, hold⟩ := exists_split (m := newp) (n := 40) (by omega)
  rw [List.length_append] at hnew
  have hun := @untagged_split v t r hi lo ip6NexthHopbyhop x o hv ht ho
  have hlen : (v ++ be16 (be16Val hi lo - hbhOptHdrLen) ++ [x] ++ t ++ r).length < 65536 := by
    rw [be16, split_length hv ht]
    omega
  have hnext := byteAt_mem_single behind hb (i := ip6Hlen) (by rw [ip6Hlen]; omega)
  have hx : (v ++ [hi, lo] ++ [ip6NexthHopbyhop] ++ t ++ ([x] ++ o ++ r)).getD ip6Hlen 0 = x := by
    rw [List.getD_eq_getElem?_getD, List.getElem?_append_right (by simp [hv, ht, ip6Hlen])]
    simp [hv, ht, ip6Hlen]
  have hhdr := @read_header v t ([x] ++ o) r hi lo ip6NexthHopbyhop behind hb hv ht
  have hsrc := @read_rest v t ([x] ++ o) r hi lo ip6NexthHopbyhop behind hb hv ht
  have htot := @copyLength_rest v t ([x] ++ o) r hi lo ip6NexthHopbyhop behind hb hv ht
  rw [hopt] at hsrc htot
  have hmod := strip_newLen (n := be16Val hi lo) (by rw [hbhOptHdrLen]; omega) (be16Val_lt hi lo)
  have hcopy := copyIp6Hdr_split body
    ⟨v ++ [hi, lo] ++ [ip6NexthHopbyhop] ++ t, by simp [hv, ht, ip6Hlen]⟩ x
    (be16Val hi lo - hbhOptHdrLen) hold rfl hv
  have hbody : overwrite (v ++ be16 (be16Val hi lo - hbhOptHdrLen) ++ [x] ++ t ++ body) ip6Hlen r =
      .ok (v ++ be16 (be16Val hi lo - hbhOptHdrLen) ++ [x] ++ t ++ r ++ []) :=
    overwrite_split (b := body) (by simp) (by simp [hv, ht, ip6Hlen]) (by omega)
  refine ⟨by rw [hun]; exact hlen, ?_⟩
  simp only [dtnStripCustodianOption, nexth_single behind hb hh, plen_single behind hb hh,
    split_plen hv, split_nexth hv, ne_eq, not_true, if_false, hnext, hx, Run.bind_ok, hmod, alloc,
    hhdr, hcopy, htot, hsrc, hbody, List.append_nil, Pbuf.ofBlock_of_lt hlen, Run.pure_eq_ok, hun]

theorem strip_other {heap : Heap} (h : 40 ≤ b.length) (first : nexthOf b ≠ ip6NexthHopbyhop) :
    dtnStripCustodianOption heap (.single b behind hb) = .ok (false, .single b behind hb) := by
  simp only [dtnStripCustodianOption, nexth_single behind hb h, Run.bind_ok, if_pos first,
    Run.pure_eq_ok]

theorem hasCustodyOption_single (h : 44 ≤ b.length) :
    hasCustodyOption (Pbuf.single b behind hb).mem =
      .ok (b.getD 42 0 == custodyOptionType && b.getD 43 0 == 16) := by
  simp only [hasCustodyOption, ip6Hlen, byteAt_mem_single behind hb
    (show 40 + 2 < b.length by omega), byteAt_mem_single behind hb
    (show 40 + 3 < b.length by omega), Run.bind_ok, Run.pure_eq_ok]
  rw [show b.getD (40 + 2) 0 = b.getD 42 0 from rfl, show b.getD (40 + 3) 0 = b.getD 43 0 from rfl]
  by_cases ht : b.getD 42 0 = custodyOptionType
  · rw [if_neg (by simpa using ht), ht, beq_self_eq_true, Bool.true_and]
  · rw [if_pos ht, beq_false_of_ne ht, Bool.false_and]

theorem setCustodian_single (c : Block 16) (h : 60 ≤ b.length) :
    ∃ h, (Pbuf.single b behind hb).setCustodian c = .ok (.single (retagged b c) behind h) := by
  have hl : (retagged b c).length = b.length := by
    simp only [retagged, List.length_append, List.length_take, List.length_drop, c.2]; omega
  refine ⟨by rw [hl]; exact hb, ?_⟩
  have hw : overwrite (Pbuf.single b behind hb).mem (ip6Hlen + 4) c.1 =
      .ok (b.take 44 ++ c.1 ++ (b.drop 60 ++ behind)) := by
    refine overwrite_split (b := (b.drop 44).take 16) ?_ ?_ ?_
    · have h60 : b.drop 60 = (b.drop 44).drop 16 := by rw [List.drop_drop]
      rw [Pbuf.single_mem, h60, ← List.append_assoc, List.append_assoc (b.take 44),
        List.take_append_drop, List.take_append_drop]
    · simp only [List.length_take, ip6Hlen]; omega
    · simp only [List.length_take, List.length_drop, c.2]; omega
  have happ : b.take 44 ++ c.1 ++ (b.drop 60 ++ behind) = retagged b c ++ behind := by
    simp [retagged]
  have htake : (retagged b c ++ behind).take (Pbuf.single b behind hb).len = retagged b c :=
    List.take_left' hl
  have hdrop : (retagged b c ++ behind).drop (Pbuf.single b behind hb).len = behind :=
    List.drop_left' hl
  have hlt : (retagged b c).length + ([] : Bytes).length < 65536 := by
    rw [hl]; simpa using hb
  simp only [Pbuf.setCustodian, hw, happ, Run.bind_ok, htake, hdrop, Pbuf.single_chain, dif_pos hlt,
    Run.pure_eq_ok]
  rfl

theorem skipExtensionHeaders_hopbyhop (m : Bytes) (fuel ptr : Nat) :
    skipExtensionHeaders m (fuel + 1) ip6NexthHopbyhop ptr = .ok (ip6NexthHopbyhop, ptr) := by
  simp [skipExtensionHeaders]

theorem extract_hopbyhop (h : 60 ≤ b.length) (first : nexthOf b = ip6NexthHopbyhop)
    (type : b.getD 42 0 = custodyOptionType) (len : b.getD 43 0 = 16) :
    ∃ c : Block 16, c.1 = (b.drop 44).take 16 ∧
      dtnExtractCustodianOption (.single b behind hb) = .ok (some c) := by
  obtain ⟨c, hc, hc'⟩ := readBlock_of_le (m := (Pbuf.single b behind hb).mem) (i := 40 + 4)
    (n := 16) (by simp only [Pbuf.single_mem, List.length_append]; omega)
  refine ⟨c, ?_, ?_⟩
  · rw [hc', Pbuf.single_mem, List.drop_append_of_le_length (by omega),
      List.take_append_of_le_length (by simp only [List.length_drop]; omega)]
  · have htype : byteAt (Pbuf.single b behind hb).mem (40 + 2) = .ok custodyOptionType := by
      rw [byteAt_mem_single behind hb (by omega)]; exact congrArg _ type
    have hlen : byteAt (Pbuf.single b behind hb).mem (40 + 3) = .ok 16 := by
      rw [byteAt_mem_single behind hb (by omega)]; exact congrArg _ len
    simp only [dtnExtractCustodianOption, nexth_single behind hb
      (by omega), first, Run.bind_ok, skipExtensionHeaders_hopbyhop, ip6Hlen, htype, hlen, hc,
      ne_eq, not_true, if_false, Run.pure_eq_ok]

end SingleSegment

theorem tagged_getD {b : Bytes} (c : Block 16) (h : 40 ≤ b.length) {i : Nat} (hi : i < 24) :
    (tagged b c).getD (40 + i) 0 = (hbhHdr (nexthOf b) c).getD i 0 := by
  obtain ⟨v, t, r, x, y, n, rfl, hv, ht⟩ := header_split h
  rw [tagged_split c hv ht, split_nexth hv, List.getD_eq_getElem?_getD, List.append_assoc,
    List.getElem?_append_right (by simp [hv, ht]), List.getElem?_append_left (by simp [hv, ht, hi])]
  simp [hv, ht]

theorem tagged_option {b : Bytes} (c : Block 16) (h : 40 ≤ b.length) :
    (tagged b c).getD 42 0 = custodyOptionType ∧ (tagged b c).getD 43 0 = 16 ∧
      ((tagged b c).drop 44).take 16 = c.1 := by
  refine ⟨?_, ?_, ?_⟩
  · rw [show 42 = 40 + 2 from rfl, tagged_getD c h (by omega)]; rfl
  · rw [show 43 = 40 + 3 from rfl, tagged_getD c h (by omega)]; rfl
  · obtain ⟨v, t, r, x, y, n, rfl, hv, ht⟩ := header_split h
    have hform : v ++ be16 (be16Val x y + hbhOptHdrLen) ++ [ip6NexthHopbyhop] ++ t ++ hbhHdr n c ++
        r = (v ++ be16 (be16Val x y + hbhOptHdrLen) ++ [ip6NexthHopbyhop] ++ t ++
          [n, 2, custodyOptionType, 16]) ++ (c.1 ++ ([0, 0, 0, 0] ++ r)) := by
      simp [hbhHdr, hbhOptHdrLen]
    rw [tagged_split c hv ht, hform, List.drop_left' (by simp [hv, ht]), List.take_left' c.2]

theorem extract_tagged {b : Bytes} (behind : Bytes) (c : Block 16)
    (hb : (tagged b c).length < 65536)
    (h : 40 ≤ b.length) :
    dtnExtractCustodianOption (.single (tagged b c) behind hb) = .ok (some c) := by
  obtain ⟨htype, hlen, haddr⟩ := tagged_option c h
  obtain ⟨c', hc', he⟩ := extract_hopbyhop behind hb
    (by rw [tagged_length c h]; omega) (tagged_nexth c h) htype hlen
  rw [he, show c' = c from Subtype.ext (hc'.trans haddr)]

theorem update_custody {b : Bytes} (behind : Bytes) (hb : b.length < 65536) (env : RewriteEnv)
    (c : Block 16)
    (h : 60 ≤ b.length) (first : nexthOf b = ip6NexthHopbyhop)
    (type : b.getD 42 0 = custodyOptionType) (len : b.getD 43 0 = 16) :
    ∃ h, dtnUpdateOrAddCustodianOption env (.single b behind hb) c =
      .ok (true, .single (retagged b c) behind h) := by
  obtain ⟨hl, hset⟩ := setCustodian_single behind hb c h
  refine ⟨hl, ?_⟩
  simp only [dtnUpdateOrAddCustodianOption, nexth_single behind hb
    (by omega), first, Run.bind_ok, if_true, hasCustodyOption_single behind hb (by omega), type,
    len, beq_self_eq_true, Bool.true_and, hset, Run.pure_eq_ok]

/-- The update of a hop-by-hop header with another first option strips and adds. -/
theorem update_other_option {b : Bytes} (behind : Bytes) (hb : b.length < 65536) (env : RewriteEnv)
    (c : Block 16) (h : 44 ≤ b.length) (first : nexthOf b = ip6NexthHopbyhop)
    (other : ¬ (b.getD 42 0 = custodyOptionType ∧ b.getD 43 0 = 16)) :
    dtnUpdateOrAddCustodianOption env (.single b behind hb) c = (do
      let (stripped, q) ← dtnStripCustodianOption env.strip (.single b behind hb)
      if stripped then dtnAddCustodianOption env.add q c else return (false, q)) := by
  have hopt : (b.getD 42 0 == custodyOptionType && b.getD 43 0 == 16) = false := by
    rw [Bool.and_eq_false_iff, beq_eq_false_iff_ne, beq_eq_false_iff_ne]
    by_cases ht : b.getD 42 0 = custodyOptionType
    · exact .inr fun hl => other ⟨ht, hl⟩
    · exact .inl ht
  simp only [dtnUpdateOrAddCustodianOption, nexth_single behind hb
    (by omega), first, Run.bind_ok, if_true, hasCustodyOption_single behind hb h, hopt,
    Bool.false_eq_true, if_false]

theorem update_plain {b : Bytes} (behind : Bytes) (hb : b.length < 65536) (env : RewriteEnv)
    (c : Block 16)
    (h : 40 ≤ b.length) (first : nexthOf b ≠ ip6NexthHopbyhop) :
    dtnUpdateOrAddCustodianOption env (.single b behind hb) c =
      dtnAddCustodianOption env.add (.single b behind hb) c := by
  simp only [dtnUpdateOrAddCustodianOption, nexth_single behind hb h,
    Run.bind_ok, if_neg first]

theorem Pbuf.eq_single {p : Pbuf} (h : p.chain = []) :
    ∃ hb, p = .single p.payload p.behind hb := by
  obtain ⟨payload, behind, chain, tot⟩ := p
  cases h
  exact ⟨by simpa using tot, rfl⟩

theorem add_roomy {heap : Heap} {b : Bytes} (behind : Bytes) (hb : b.length < 65536)
    (room : heap.Roomy (b.length + 24)) (c : Block 16) (wf : WellFormed b)
    (fits : b.length + 24 < 65536) :
    ∃ after h, dtnAddCustodianOption heap (.single b behind hb) c =
      .ok (true, .single (tagged b c) after h) := by
  have hp := wf.plen
  rw [ip6Hlen] at hp
  obtain ⟨newp, after, ha⟩ := pbufAlloc_roomy room
    (ip6Hlen + (plenOf b + hbhOptHdrLen) % 65536) (by rw [ip6Hlen, hbhOptHdrLen]; omega)
  obtain ⟨h, hadd⟩ := add_tagged behind hb c wf fits ha
  exact ⟨after, h, hadd⟩

theorem strip_roomy {heap : Heap} {b : Bytes} (behind : Bytes) (hb : b.length < 65536)
    (room : heap.Roomy b.length) (wf : WellFormed b) (first : nexthOf b = ip6NexthHopbyhop)
    (long : 64 ≤ b.length) :
    ∃ after h, dtnStripCustodianOption heap (.single b behind hb) =
      .ok (true, .single (untagged b) after h) := by
  have hp := wf.plen
  rw [ip6Hlen] at hp
  obtain ⟨newp, after, ha⟩ := pbufAlloc_roomy room (ip6Hlen + (plenOf b - hbhOptHdrLen))
    (by rw [ip6Hlen, hbhOptHdrLen]; omega)
  obtain ⟨h, hstrip⟩ := strip_untagged behind hb wf first long ha
  exact ⟨after, h, hstrip⟩

end LwipDtn
