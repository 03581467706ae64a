import LwipDtn.Custody

/-!
Closed forms of the custody functions on packets in one segment. Tagging puts 24
bytes between the fixed header and the payload, stripping takes 24 bytes out, and
retagging overwrites the sixteen address bytes.
-/

namespace LwipDtn
open Outcome Bytes

/-- Allocations of up to `n` bytes succeed. -/
def Heap.Roomy (heap : Heap) (n : Nat) : Prop := ∃ m, heap = some m ∧ n ≤ m.length

theorem Heap.Roomy.mono {heap : Heap} {n k : Nat} (h : heap.Roomy n) (hk : k ≤ n) :
    heap.Roomy k := by
  obtain ⟨m, rfl, hm⟩ := h
  exact ⟨m, rfl, Nat.le_trans hk hm⟩

theorem pbufAlloc_roomy {heap : Heap} {n : Nat} (h : heap.Roomy n) (length : Nat)
    (fits : length % 65536 ≤ n) :
    ∃ block behind, pbufAlloc heap length = some (block, behind) := by
  obtain ⟨m, rfl, hm⟩ := h
  exact ⟨m.take (length % 65536), m.drop (length % 65536), by
    simp only [pbufAlloc, Option.bind_some, if_pos (Nat.le_trans fits hm)]⟩

theorem copyIp6Hdr_split {old v t : Bytes} {hi lo n : UInt8} (rest : Bytes) (hdr : Block ip6Hlen)
    (nexth : UInt8) (plen : Nat) (hold : old.length = 40)
    (hhdr : hdr.1 = v ++ [hi, lo] ++ [n] ++ t) (hv : v.length = 4) :
    copyIp6Hdr (old ++ rest) hdr nexth plen = .ok (v ++ be16 plen ++ [nexth] ++ t ++ rest) := by
  have first : overwrite (old ++ rest) 0 hdr.1 = .ok (v ++ [hi, lo] ++ [n] ++ t ++ rest) := by
    rw [← hhdr]
    exact overwrite_split (a := []) (b := old) (c := rest) rfl rfl (by rw [hdr.2, hold]; rfl)
  have second : overwrite (v ++ [hi, lo] ++ [n] ++ t ++ rest) 6 [nexth] =
      .ok (v ++ [hi, lo] ++ [nexth] ++ (t ++ rest)) :=
    overwrite_split (a := v ++ [hi, lo]) (b := [n]) (c := t ++ rest) (by simp)
      (by simp [hv]) rfl
  have third : overwrite (v ++ [hi, lo] ++ [nexth] ++ (t ++ rest)) 4 (be16 plen) =
      .ok (v ++ be16 plen ++ ([nexth] ++ t ++ rest)) :=
    overwrite_split (a := v) (b := [hi, lo]) (c := [nexth] ++ t ++ rest) (by simp) hv rfl
  simp only [copyIp6Hdr, first, second, third, Run.bind_ok]
  simp

theorem copyIp6Hdr_length {newp r : Bytes} {hdr : Block ip6Hlen} {nexth : UInt8} {plen : Nat}
    (h : copyIp6Hdr newp hdr nexth plen = .ok r) : 40 ≤ newp.length ∧ r.length = newp.length := by
  simp only [copyIp6Hdr, Run.bind_eq_ok] at h
  obtain ⟨a, ha, b, hb, hr⟩ := h
  have hl := (overwrite_eq_ok.mp ha).1
  rw [hdr.2, ip6Hlen] at hl
  rw [overwrite_length hr, overwrite_length hb, overwrite_length ha]
  exact ⟨by omega, rfl⟩

/-- The packet `b` with a custodian option in front of its payload. -/
def tagged (b : Bytes) (c : Block 16) : Bytes :=
  b.take 4 ++ be16 (plenOf b + hbhOptHdrLen) ++ [ip6NexthHopbyhop] ++ (b.drop 7).take 33 ++
    hbhHdr (nexthOf b) c ++ b.drop ip6Hlen

/-- The packet `b` without the 24 bytes after its fixed header. -/
def untagged (b : Bytes) : Bytes :=
  b.take 4 ++ be16 (plenOf b - hbhOptHdrLen) ++ [b.getD ip6Hlen 0] ++ (b.drop 7).take 33 ++
    b.drop (ip6Hlen + hbhOptHdrLen)

/-- The packet `b` with the sixteen address bytes replaced. -/
def retagged (b : Bytes) (c : Block 16) : Bytes := b.take 44 ++ c.1 ++ b.drop 60

theorem strip_newLen {n : Nat} (h : hbhOptHdrLen ≤ n) (lt : n < 65536) :
    (n + 65536 - hbhOptHdrLen) % 65536 = n - hbhOptHdrLen := by
  rw [hbhOptHdrLen] at h ⊢
  omega

section Split

variable {v t r : Bytes} {hi lo n : UInt8}

theorem split_length (hv : v.length = 4) (ht : t.length = 33) :
    (v ++ [hi, lo] ++ [n] ++ t ++ r).length = 40 + r.length := by
  simp [hv, ht]; omega

theorem split_take (hv : v.length = 4) : (v ++ [hi, lo] ++ [n] ++ t ++ r).take 4 = v := by
  rw [List.append_assoc, List.append_assoc, List.append_assoc]
  exact List.take_left' hv

theorem split_addresses (hv : v.length = 4) (ht : t.length = 33) :
    ((v ++ [hi, lo] ++ [n] ++ t ++ r).drop 7).take 33 = t := by
  have h : (v ++ [hi, lo] ++ [n] ++ t ++ r).drop 7 = t ++ r := by
    rw [List.append_assoc]
    exact List.drop_left' (by simp [hv])
  rw [h, List.take_left' ht]

theorem split_payload (hv : v.length = 4) (ht : t.length = 33) :
    (v ++ [hi, lo] ++ [n] ++ t ++ r).drop 40 = r :=
  List.drop_left' (by simp [hv, ht])

theorem split_plen (hv : v.length = 4) :
    plenOf (v ++ [hi, lo] ++ [n] ++ t ++ r) = be16Val hi lo := by
  simpa using plenOf_split (r := [n] ++ t ++ r) hi lo hv

theorem split_nexth (hv : v.length = 4) :
    nexthOf (v ++ [hi, lo] ++ [n] ++ t ++ r) = n := by
  simpa using nexthOf_split (r := t ++ r) hi lo n hv

theorem tagged_split (c : Block 16) (hv : v.length = 4) (ht : t.length = 33) :
    tagged (v ++ [hi, lo] ++ [n] ++ t ++ r) c =
      v ++ be16 (be16Val hi lo + hbhOptHdrLen) ++ [ip6NexthHopbyhop] ++ t ++ hbhHdr n c ++ r := by
  rw [tagged, split_plen hv, split_nexth hv, split_take hv, split_addresses hv ht, ip6Hlen,
    split_payload hv ht]

theorem untagged_split {x : UInt8} {o : Bytes} (hv : v.length = 4) (ht : t.length = 33)
    (ho : o.length = 23) :
    untagged (v ++ [hi, lo] ++ [n] ++ t ++ ([x] ++ o ++ r)) =
      v ++ be16 (be16Val hi lo - hbhOptHdrLen) ++ [x] ++ t ++ r := by
  have hx : (v ++ [hi, lo] ++ [n] ++ t ++ ([x] ++ o ++ r)).getD 40 0 = x := by
    rw [List.getD_eq_getElem?_getD, List.getElem?_append_right (by simp [hv, ht])]
    simp [hv, ht]
  have hr : (v ++ [hi, lo] ++ [n] ++ t ++ ([x] ++ o ++ r)).drop 64 = r := by
    rw [show 64 = 40 + 24 from rfl, ← List.drop_drop, split_payload hv ht]
    exact List.drop_left' (by simp [ho])
  rw [untagged, split_plen hv, split_take hv, split_addresses hv ht, ip6Hlen, hbhOptHdrLen, hx, hr]

end Split

/-- A packet of at least 64 bytes, cut at the hop-by-hop header that it may start with. -/
theorem option_split {b : Bytes} (long : 64 ≤ b.length) :
    ∃ (v t o r : Bytes) (hi lo n x : UInt8), b = v ++ [hi, lo] ++ [n] ++ t ++ ([x] ++ o ++ r) ∧
      v.length = 4 ∧ t.length = 33 ∧ o.length = 23 := by
  obtain ⟨v, t, r, hi, lo, n, rfl, hv, ht⟩ := header_split (Nat.le_trans (by decide) long)
  rw [split_length hv ht] at long
  obtain ⟨option, r, rfl, hoption⟩ := exists_split (m := r) (n := 24) (by omega)
  obtain ⟨x, o, rfl⟩ := List.exists_cons_of_length_eq_add_one hoption
  exact ⟨v, t, o, r, hi, lo, n, x, rfl, hv, ht, Nat.succ.inj hoption⟩

theorem tagged_length {b : Bytes} (c : Block 16) (h : 40 ≤ b.length) :
    (tagged b c).length = b.length + 24 := by
  obtain ⟨v, t, r, hi, lo, n, rfl, hv, ht⟩ := header_split h
  rw [tagged_split c hv ht, split_length hv ht]
  simp [hv, ht]; omega

theorem tagged_plen {b : Bytes} (c : Block 16) (h : 40 ≤ b.length)
    (fits : plenOf b + 24 < 65536) : plenOf (tagged b c) = plenOf b + 24 := by
  obtain ⟨v, t, r, hi, lo, n, rfl, hv, ht⟩ := header_split h
  rw [split_plen hv] at fits ⊢
  rw [tagged_split c hv ht, be16, List.append_assoc _ (hbhHdr n c) r, split_plen hv]
  exact be16Val_be16 fits

theorem tagged_nexth {b : Bytes} (c : Block 16) (h : 40 ≤ b.length) :
    nexthOf (tagged b c) = ip6NexthHopbyhop := by
  obtain ⟨v, t, r, hi, lo, n, rfl, hv, ht⟩ := header_split h
  rw [tagged_split c hv ht, be16, List.append_assoc _ (hbhHdr n c) r, split_nexth hv]

theorem tagged_wellFormed {b : Bytes} (c : Block 16) (h : WellFormed b)
    (fits : b.length + 24 < 65536) : WellFormed (tagged b c) := by
  have hh := h.header
  have hp := h.plen
  rw [ip6Hlen] at hh hp
  constructor
  · rw [tagged_length c hh, ip6Hlen]; omega
  · rw [tagged_plen c hh (by omega), tagged_length c hh, ip6Hlen]; omega

theorem untagged_tagged {b : Bytes} (c : Block 16) (h : 40 ≤ b.length)
    (fits : plenOf b + 24 < 65536) : untagged (tagged b c) = b := by
  obtain ⟨v, t, r, hi, lo, n, rfl, hv, ht⟩ := header_split h
  rw [split_plen hv] at fits
  have ho : ([2, custodyOptionType, 16] ++ c.1 ++ [0, 0, 0, 0] : Bytes).length = 23 := by
    simp [c.2]
  have key := @untagged_split v t r (UInt8.ofNat ((be16Val hi lo + hbhOptHdrLen) / 256))
    (UInt8.ofNat (be16Val hi lo + hbhOptHdrLen)) ip6NexthHopbyhop n _ hv ht ho
  rw [be16Val_be16 (by rw [hbhOptHdrLen]; omega), Nat.add_sub_cancel, be16_be16Val] at key
  rw [tagged_split c hv ht, ← key]
  simp [hbhHdr, hbhOptHdrLen, be16]

theorem retagged_tagged {b : Bytes} (c c' : Block 16) (h : 40 ≤ b.length) :
    retagged (tagged b c) c' = tagged b c' := by
  obtain ⟨v, t, r, hi, lo, n, rfl, hv, ht⟩ := header_split h
  rw [tagged_split c hv ht, tagged_split c' hv ht, retagged]
  have hpre (d : Block 16) :
      v ++ be16 (be16Val hi lo + hbhOptHdrLen) ++ [ip6NexthHopbyhop] ++ t ++ hbhHdr n d ++ r =
        (v ++ be16 (be16Val hi lo + hbhOptHdrLen) ++ [ip6NexthHopbyhop] ++ t ++
          [n, 2, custodyOptionType, 16]) ++ (d.1 ++ ([0, 0, 0, 0] ++ r)) := by
    simp [hbhHdr, hbhOptHdrLen]
  have hlen : (v ++ be16 (be16Val hi lo + hbhOptHdrLen) ++ [ip6NexthHopbyhop] ++ t ++
      [n, 2, custodyOptionType, 16]).length = 44 := by simp [hv, ht]
  rw [hpre c, hpre c', List.take_left' hlen, show 60 = 44 + 16 from rfl, ← List.drop_drop,
    List.drop_left' hlen, List.drop_left' c.2]
  simp

end LwipDtn
