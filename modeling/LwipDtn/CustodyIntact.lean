import LwipDtn.CustodyBounds

/-!
What the rewriting leaves of a packet on its way to a next hop or into the storage. The
packet is intact if only its hop-by-hop header has been replaced, rewritten or taken
away; a header of another length than 24 bytes, a custodian option that reaches past its
header and a packet in several segments are damaged.
-/

namespace LwipDtn
open Outcome Bytes

/-- The packet `b` without a hop-by-hop header. -/
def Bare (b b' : Bytes) : Prop :=
  if nexthOf b = ip6NexthHopbyhop then WithoutHopByHop b b' else b' = b

/-- The forms in which the packet `b` may leave the custodian `c`, by the answer of the
rewriting: with the address in the option that it carries, with an option in place of
its hop-by-hop header, or without an option. -/
inductive SentAs (c : Block 16) (b : Bytes) : Bool → Bytes → Prop
  | inPlace (custody : CustodyFirst b) (inside : 20 ≤ hbhLen b) : SentAs c b true (retagged b c)
  | replaced {b' : Bytes} (other : ¬ CustodyFirst b) (bare : Bare b b') :
      SentAs c b true (tagged b' c)
  | unchanged : SentAs c b false b
  | bare {b' : Bytes} (bare : Bare b b') : SentAs c b false b'

/-- Rewriting returns: the option is there already, or stripping returns. -/
def RewriteSafe (env : RewriteEnv) (p : Pbuf) : Prop :=
  CustodyFirst p.bytes ∨ StripSafe env.strip p

def RewriteGrows (env : RewriteEnv) (p : Pbuf) : Prop :=
  nexthOf p.bytes ≠ ip6NexthHopbyhop ∧ (pbufAlloc env.add (p.totLen + 24)).isSome

/-- Rewriting keeps the packet: an option that is rewritten lies in its header, and a
packet that is copied lies in one piece, behind a hop-by-hop header of 24 bytes if it has
one. -/
structure RewriteKeeps (env : RewriteEnv) (p : Pbuf) : Prop where
  option : CustodyFirst p.bytes → 20 ≤ hbhLen p.bytes
  add : RewriteGrows env p → p.seen = p.bytes
  strip : nexthOf p.bytes = ip6NexthHopbyhop → ¬ CustodyFirst p.bytes →
    (pbufAlloc env.strip (p.totLen - 24)).isSome → hbhLen p.bytes = 24 ∧ p.seen = p.bytes

/-- Storing keeps the packet: a hop-by-hop header that is taken away has 24 bytes. -/
def StripKeeps (heap : Heap) (b : Bytes) : Prop :=
  nexthOf b = ip6NexthHopbyhop → (pbufAlloc heap (b.length - 24)).isSome → hbhLen b = 24

inductive Rewritten (env : RewriteEnv) (p : Pbuf) (c : Block 16) : Bool → Bytes → Prop
  | inPlace {b : Bytes} (custody : CustodyFirst p.bytes) (length : b.length = p.totLen)
      (written : 64 ≤ p.totLen → b = retagged p.bytes c) : Rewritten env p c true b
  | added (grows : RewriteGrows env p) : Rewritten env p c true (tagged p.seen c)
  | stripped (r : Bool) (first : nexthOf p.bytes = ip6NexthHopbyhop)
      (other : ¬ CustodyFirst p.bytes) (long : 64 ≤ p.totLen)
      (memory : (pbufAlloc env.strip (p.totLen - 24)).isSome) :
      Rewritten env p c r (if r then tagged (untagged p.seen) c else untagged p.seen)
  | unchanged (stays : ¬ RewriteGrows env p)
      (noMemory : nexthOf p.bytes = ip6NexthHopbyhop → ¬ CustodyFirst p.bytes ∧
        pbufAlloc env.strip (p.totLen - 24) = none) : Rewritten env p c false p.bytes

section

variable {p : Pbuf} {env : RewriteEnv} {c : Block 16} {r : Bool} {b' : Bytes}

theorem hasCustodyOption_iff (first : nexthOf p.bytes = ip6NexthHopbyhop) (long : 44 ≤ p.len) :
    hasCustodyOption p.mem = .ok true ↔ CustodyFirst p.bytes := by
  have h2 : byteAt p.mem (ip6Hlen + 2) = .ok (p.bytes.getD 42 0) :=
    p.byteAt_mem (i := 42) (by omega)
  have h3 : byteAt p.mem (ip6Hlen + 3) = .ok (p.bytes.getD 43 0) :=
    p.byteAt_mem (i := 43) (by omega)
  simp only [hasCustodyOption, h2, h3, Run.bind_ok, Run.pure_eq_ok, CustodyFirst, first, true_and]
  by_cases htype : p.bytes.getD 42 0 = custodyOptionType
  · rw [if_neg (not_not.mpr htype), Except.ok.injEq, beq_iff_eq, and_iff_right htype]
  · rw [if_pos htype, Except.ok.injEq]
    exact ⟨fun h => Bool.noConfusion h, fun h => absurd h.1 htype⟩

theorem option_in_first (layout : p.Pooled) (complete : HopByHopComplete p.bytes)
    (first : nexthOf p.bytes = ip6NexthHopbyhop) : 44 ≤ p.len := by
  have h := complete first
  rw [Pbuf.bytes_length, ip6Hlen] at h
  exact layout.le_len (by decide) (by omega)

theorem update_rewritten (c : Block 16) (layout : p.Pooled) (wf : WellFormed p.bytes)
    (complete : HopByHopComplete p.bytes) (fits : p.totLen + 24 < 65536)
    (readable : p.totLen + 24 ≤ p.mem.length) (safe : RewriteSafe env p) :
    ∃ r q, dtnUpdateOrAddCustodianOption env p c = .ok (r, q) ∧ Rewritten env p c r q.bytes := by
  have h40 := wf.header
  rw [Pbuf.bytes_length] at h40
  have header : ip6Hlen ≤ p.len := layout.le_len (by decide) h40
  rw [ip6Hlen] at h40
  by_cases first : nexthOf p.bytes = ip6NexthHopbyhop
  case neg =>
    obtain ⟨r, q, hadd, hr, hbytes⟩ := add_outcome env.add c header wf fits (by omega)
    refine ⟨r, q, ?_, ?_⟩
    · simp only [dtnUpdateOrAddCustodianOption, nexth_mem header, Run.bind_ok, if_neg first, hadd]
    cases r with
    | true => exact hbytes ▸ .added ⟨first, hr.symm⟩
    | false =>
        refine hbytes ▸ .unchanged (fun grows => ?_) fun h => absurd h first
        rw [grows.2] at hr
        cases hr
  have hopt := hasCustodyOption_iff first (option_in_first layout complete first)
  obtain ⟨custody, hcustody⟩ := hasCustodyOption_returns (m := p.mem) (by omega)
  simp only [dtnUpdateOrAddCustodianOption, nexth_mem header, first, Run.bind_ok, if_true, hcustody]
  cases custody with
  | true =>
      obtain ⟨q, hset, htot, hbytes⟩ := setCustodian_outcome c (p := p) (by omega)
      refine ⟨true, q, by simp only [if_true, hset]; rfl, .inPlace (hopt.mp hcustody) ?_ ?_⟩
      · rw [Pbuf.bytes_length, htot]
      · exact fun long => hbytes (layout.le_len (by decide) (by omega))
  | false =>
      have other : ¬ CustodyFirst p.bytes := fun h => by
        have := hcustody.symm.trans (hopt.mpr h)
        cases this
      rw [if_neg (by simp)]
      obtain ⟨h, noMemory⟩ | ⟨-, long, memory, after, hl, h⟩ :=
        strip_safe header wf readable (safe.resolve_left other)
      · exact ⟨false, p, by simp only [h, Run.bind_ok]; rfl,
          .unchanged (fun grows => grows.1 first) fun _ => ⟨other, noMemory first⟩⟩
      · obtain ⟨uwf, ulen⟩ := untagged_wellFormed (seen_wellFormed (by omega) header wf)
          (by rw [Pbuf.seen_length (by omega)]; exact long)
        rw [Pbuf.seen_length (by omega)] at ulen
        obtain ⟨r, q, hadd, -, hbytes⟩ := add_outcome (p := .single (untagged p.seen) after hl)
          env.add c uwf.header (by rwa [Pbuf.single_bytes])
          (by rw [Pbuf.single_totLen]; omega)
          (by rw [Pbuf.single_totLen, Pbuf.single_mem, List.length_append]; omega)
        refine ⟨r, q, by simp only [h, Run.bind_ok, if_true, hadd], ?_⟩
        have hseen : (Pbuf.single (untagged p.seen) after hl).seen = untagged p.seen := by
          rw [Pbuf.seen, Pbuf.single_mem, Pbuf.single_totLen, List.take_left]
        rw [hseen, Pbuf.single_bytes] at hbytes
        exact hbytes ▸ .stripped r first other long memory

theorem update_stuck (c : Block 16) (layout : p.Pooled) (wf : WellFormed p.bytes)
    (complete : HopByHopComplete p.bytes) (readable : p.totLen + 24 ≤ p.mem.length)
    (stuck : ¬ RewriteSafe env p) :
    ¬ Run.Returns (dtnUpdateOrAddCustodianOption env p c) := by
  rw [RewriteSafe, not_or] at stuck
  obtain ⟨other, hstrip⟩ := stuck
  have h40 := wf.header
  rw [Pbuf.bytes_length] at h40
  have header : ip6Hlen ≤ p.len := layout.le_len (by decide) h40
  rw [ip6Hlen] at h40
  have first : nexthOf p.bytes = ip6NexthHopbyhop := by
    simp only [StripSafe, not_or, ne_eq, not_not] at hstrip
    exact hstrip.1
  obtain ⟨custody, hopt⟩ := hasCustodyOption_returns (m := p.mem) (by omega)
  have hfalse : custody = false := by
    cases custody with
    | false => rfl
    | true =>
        exact absurd ((hasCustodyOption_iff first (option_in_first layout complete first)).mp hopt)
          other
  rw [← strip_returns_iff env.strip header wf readable] at hstrip
  simp only [dtnUpdateOrAddCustodianOption, nexth_mem header, first, Run.bind_ok, if_true, hopt,
    hfalse, Bool.false_eq_true, if_false]
  rw [Run.returns_bind]
  rintro ⟨a, ha, -⟩
  exact hstrip ⟨a, ha⟩

theorem Rewritten.length_le (layout : p.Pooled) (wf : WellFormed p.bytes)
    (readable : p.totLen ≤ p.mem.length) (h : Rewritten env p c r b') :
    (RewriteGrows env p → b'.length = p.totLen + 24) ∧
      (¬ RewriteGrows env p → b'.length ≤ p.totLen) := by
  have h40 := wf.header
  rw [Pbuf.bytes_length] at h40
  have slen := Pbuf.seen_length readable
  cases h with
  | inPlace custody length =>
      exact ⟨fun grows => absurd custody.1 grows.1, fun _ => Nat.le_of_eq length⟩
  | added grows =>
      rw [tagged_length c (by rw [slen]; exact h40), slen]
      exact ⟨fun _ => rfl, fun stays => absurd grows stays⟩
  | stripped r first other long =>
      refine ⟨fun grows => absurd first grows.1, fun _ => ?_⟩
      have swf := seen_wellFormed readable (layout.le_len (by decide) h40) wf
      obtain ⟨uwf, ulen⟩ := untagged_wellFormed swf (by rw [slen]; exact long)
      rw [slen] at ulen
      cases r with
      | false =>
          rw [if_neg (by simp)]
          omega
      | true =>
          rw [if_pos rfl, tagged_length c uwf.header]
          omega
  | unchanged stays =>
      exact ⟨fun grows => absurd grows stays, fun _ => Nat.le_of_eq p.bytes_length⟩

theorem Bare.wellFormed {b b' : Bytes} (wf : WellFormed b) (complete : HopByHopComplete b)
    (h : Bare b b') : WellFormed b' ∧ b'.length ≤ b.length := by
  rw [Bare] at h
  split at h
  · rename_i first
    have inside : ip6Hlen + hbhLen b ≤ b.length := complete first
    have hlen := congrArg List.length h.payload
    rw [List.length_drop, List.length_drop] at hlen
    exact ⟨⟨by rw [← h.plen]; exact Nat.le_add_left _ _, h.plen⟩, by omega⟩
  · rw [h]
    exact ⟨wf, Nat.le_refl _⟩

theorem untagged_bare_iff (layout : p.Pooled) (wf : WellFormed p.bytes)
    (complete : HopByHopComplete p.bytes) (first : nexthOf p.bytes = ip6NexthHopbyhop)
    (long : 64 ≤ p.totLen) (readable : p.totLen ≤ p.mem.length) :
    Bare p.bytes (untagged p.seen) ↔ hbhLen p.bytes = 24 ∧ p.seen = p.bytes := by
  rw [Bare, if_pos first]
  have inside := complete first
  rw [Pbuf.bytes_length] at inside
  exact untagged_without_iff layout wf inside long readable

theorem tagged_inj {a b : Bytes} (ha : WellFormed a) (hb : WellFormed b)
    (fitsA : a.length + 24 < 65536) (fitsB : b.length + 24 < 65536)
    (h : tagged a c = tagged b c) : a = b := by
  have hpa := ha.plen
  have hpb := hb.plen
  rw [← untagged_tagged c ha.header (by omega), h, untagged_tagged c hb.header (by omega)]

/-- An option in front of another packet than the bare one can be told from its bytes. -/
theorem sentAs_tagged_iff {b x : Bytes} (wf : WellFormed b) (complete : HopByHopComplete b)
    (fits : b.length + 24 < 65536) (other : ¬ CustodyFirst b) (hx : WellFormed x)
    (hle : x.length ≤ b.length) : SentAs c b true (tagged x c) ↔ Bare b x := by
  constructor
  · intro sent
    generalize heq : tagged x c = y at sent
    cases sent with
    | inPlace custody => exact absurd custody other
    | replaced _ bare =>
        obtain ⟨bwf, ble⟩ := bare.wellFormed wf complete
        rw [tagged_inj hx bwf (by omega) (by omega) heq]
        exact bare
  · exact .replaced other

theorem sentAs_without_iff {b x : Bytes} (changed : x ≠ b) :
    SentAs c b false x ↔ Bare b x := by
  constructor
  · intro sent
    cases sent with
    | unchanged => exact absurd rfl changed
    | bare bare => exact bare
  · exact .bare

/-- The rewriting leaves one of the proper forms exactly if it keeps the packet. -/
theorem Rewritten.sentAs_iff (layout : p.Pooled) (wf : WellFormed p.bytes)
    (complete : HopByHopComplete p.bytes) (fits : p.totLen + 24 < 65536)
    (readable : p.totLen ≤ p.mem.length) (h : Rewritten env p c r b') :
    SentAs c p.bytes r b' ↔ RewriteKeeps env p := by
  have hlen := p.bytes_length
  have slen := Pbuf.seen_length readable
  have swf := seen_wellFormed readable (layout.le_len (by decide) (hlen ▸ wf.header)) wf
  cases h with
  | inPlace custody length written =>
      constructor
      · intro sent
        cases sent with
        | inPlace _ inside =>
            exact ⟨fun _ => inside, fun grows => absurd custody.1 grows.1,
              fun _ other => absurd custody other⟩
        | replaced other => exact absurd custody other
      · intro keeps
        have inside := keeps.option custody
        have hcomplete : ip6Hlen + hbhLen p.bytes ≤ p.bytes.length := complete custody.1
        rw [written (by rw [ip6Hlen, hlen] at hcomplete; rw [hbhLen] at *; omega)]
        exact .inPlace custody inside
  | added grows =>
      have other : ¬ CustodyFirst p.bytes := fun h => grows.1 h.1
      rw [sentAs_tagged_iff wf complete (by omega) other swf (by omega), Bare, if_neg grows.1]
      exact ⟨fun same =>
        ⟨fun h => absurd h other, fun _ => same, fun first => absurd first grows.1⟩,
        fun keeps => keeps.add grows⟩
  | stripped r first other long memory =>
      have hkeeps : RewriteKeeps env p ↔ hbhLen p.bytes = 24 ∧ p.seen = p.bytes :=
        ⟨fun keeps => keeps.strip first other memory, fun h =>
          ⟨fun custody => absurd custody other, fun grows => absurd first grows.1, fun _ _ _ => h⟩⟩
      obtain ⟨uwf, ulen⟩ := untagged_wellFormed swf (by rw [slen]; exact long)
      rw [hkeeps, ← untagged_bare_iff layout wf complete first long readable]
      cases r with
      | true => exact sentAs_tagged_iff wf complete (by omega) other uwf (by omega)
      | false =>
          refine sentAs_without_iff fun (same : untagged p.seen = p.bytes) => ?_
          rw [same] at ulen
          omega
  | unchanged stays noMemory =>
      refine ⟨fun _ => ⟨fun h => absurd h (noMemory h.1).1, fun grows => absurd grows stays,
        fun first _ memory => ?_⟩, fun _ => .unchanged⟩
      rw [(noMemory first).2] at memory
      cases memory

end

end LwipDtn
