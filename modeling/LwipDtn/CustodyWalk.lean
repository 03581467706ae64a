import LwipDtn.CustodyLaws

/-!
The walk over extension headers in `dtn_extract_custodian_option`. Every protocol other
than hop-by-hop and 59 counts as an extension header, so the walk runs through the
payload of ordinary packets. It ends only if that payload looks like a chain of headers
to it; a step of zero bytes repeats for ever, and any other step may leave the packet.
-/

namespace LwipDtn
open Outcome Bytes

/-- The walk ends without a look at anything but the bytes of the packet. -/
def WalkEnds (b : Bytes) : Prop :=
  ∃ fuel, Run.Returns (skipExtensionHeaders b fuel (nexthOf b) ip6Hlen)

/-- The next headers at which the walk stops. -/
def StopsWalk (nexth : UInt8) : Prop := nexth = ip6NexthHopbyhop ∨ nexth = ip6NexthNone

instance (nexth : UInt8) : Decidable (StopsWalk nexth) :=
  inferInstanceAs (Decidable (nexth = ip6NexthHopbyhop ∨ nexth = ip6NexthNone))

/-- A part of the payload that is as long as its second byte says, in eight bits, and
does not name a header at which the walk stops. -/
def SteppedOver (h : Bytes) : Prop :=
  ∃ next extLen body, h = next :: extLen :: body ∧ ¬ StopsWalk next ∧
    h.length = (extLen.toNat + 1) * 8 % 256

/-- The payload is a sequence of such parts, followed by the two bytes of a last one that
names a header at which the walk stops. -/
def LooksLikeHeaders (payload : Bytes) : Prop :=
  ∃ parts last extLen rest, payload = List.flatten parts ++ last :: extLen :: rest ∧
    (∀ h ∈ parts, SteppedOver h) ∧ StopsWalk last

section

variable {m : Bytes} {fuel ptr : Nat} {nexth : UInt8}

theorem skip_stops (h : StopsWalk nexth) :
    skipExtensionHeaders m (fuel + 1) nexth ptr = .ok (nexth, ptr) := by
  rw [skipExtensionHeaders, if_neg]
  · rfl
  · rcases h with rfl | rfl <;> decide

theorem skip_step (h : ¬ StopsWalk nexth) {next extLen : UInt8} {rest : Bytes}
    (hm : m.drop ptr = next :: extLen :: rest) :
    skipExtensionHeaders m (fuel + 1) nexth ptr =
      skipExtensionHeaders m fuel next (ptr + (extLen.toNat + 1) * 8 % 256) := by
  have hnext : byteAt m ptr = .ok next := by
    rw [byteAt_eq_ok, ← Nat.add_zero ptr, ← List.getElem?_drop, hm]
    rfl
  have hlen : byteAt m (ptr + 1) = .ok extLen := by
    rw [byteAt_eq_ok, ← List.getElem?_drop, hm]
    rfl
  rw [skipExtensionHeaders, if_pos (not_or.mp h), hnext, Run.bind_ok, hlen, Run.bind_ok]

theorem skip_reads (h : ¬ StopsWalk nexth)
    (hret : Run.Returns (skipExtensionHeaders m (fuel + 1) nexth ptr)) :
    ∃ next extLen rest, m.drop ptr = next :: extLen :: rest := by
  rw [skipExtensionHeaders, if_pos (not_or.mp h)] at hret
  obtain ⟨next, hnext, hret⟩ := Run.returns_bind.mp hret
  obtain ⟨extLen, hlen, -⟩ := Run.returns_bind.mp hret
  have hin : ptr + 1 < m.length := byteAt_returns.mp ⟨_, hlen⟩
  refine ⟨m[ptr], m[ptr + 1], m.drop (ptr + 2), ?_⟩
  rw [List.drop_eq_getElem_cons (by omega), List.drop_eq_getElem_cons hin]

/-- What the walk has gone over looks like headers, and the last of them says where it
stops. -/
theorem headers_of_walk {n : UInt8} {stop : Nat} (hstop : ¬ StopsWalk nexth)
    (hwalk : skipExtensionHeaders m fuel nexth ptr = .ok (n, stop)) :
    StopsWalk n ∧ ∃ parts extLen rest, m.drop ptr = List.flatten parts ++ n :: extLen :: rest ∧
      (∀ h ∈ parts, SteppedOver h) ∧
      stop = ptr + parts.flatten.length + (extLen.toNat + 1) * 8 % 256 := by
  induction fuel generalizing nexth ptr with
  | zero => cases hwalk
  | succ fuel ih =>
      obtain ⟨next, extLen, rest, hm⟩ := skip_reads hstop ⟨_, hwalk⟩
      rw [skip_step hstop hm] at hwalk
      by_cases hnext : StopsWalk next
      · cases fuel with
        | zero => cases hwalk
        | succ fuel =>
            rw [skip_stops hnext] at hwalk
            cases hwalk
            exact ⟨hnext, [], extLen, rest, hm, nofun, rfl⟩
      obtain ⟨hlast, parts, extLen', rest', hparts, hover, rfl⟩ := ih hnext hwalk
      refine ⟨hlast, ?_⟩
      -- A step of zero bytes leaves the walk where it is, so the rest of the walk is all of it.
      by_cases hzero : (extLen.toNat + 1) * 8 % 256 = 0
      · rw [hzero, Nat.add_zero] at hparts ⊢
        exact ⟨parts, extLen', rest', hparts, hover, rfl⟩
      generalize hstep : (extLen.toNat + 1) * 8 % 256 = step at *
      have hlong : step < (m.drop ptr).length := by
        have := congrArg List.length hparts
        simp only [List.length_drop, List.length_append, List.length_cons] at this ⊢
        omega
      have hsplit : m.drop ptr = (m.drop ptr).take step ++ m.drop (ptr + step) := by
        rw [← List.drop_drop, List.take_append_drop]
      have htake : ((m.drop ptr).take step).length = step := by
        rw [List.length_take]
        omega
      refine ⟨(m.drop ptr).take step :: parts, extLen', rest', ?_, ?_, ?_⟩
      · rw [List.flatten_cons, List.append_assoc, ← hparts]
        exact hsplit
      · intro h hh
        rcases List.mem_cons.mp hh with rfl | hh
        · have htwo : 2 ≤ step := by omega
          refine ⟨next, extLen, rest.take (step - 2), ?_, hnext, ?_⟩
          · rw [hm, List.take_cons (by omega), List.take_cons (by omega)]
            rfl
          · rw [htake, hstep]
        · exact hover h hh
      · rw [List.flatten_cons, List.length_append, htake]
        omega

/-- The walk over a payload that looks like headers ends, close behind them. -/
theorem walk_of_headers {parts : List Bytes} {last extLen : UInt8} {rest : Bytes}
    (hstop : ¬ StopsWalk nexth) (hm : m.drop ptr = parts.flatten ++ last :: extLen :: rest)
    (hover : ∀ h ∈ parts, SteppedOver h) (hlast : StopsWalk last)
    (hfuel : parts.length + 2 ≤ fuel) :
    skipExtensionHeaders m fuel nexth ptr =
      .ok (last, ptr + parts.flatten.length + (extLen.toNat + 1) * 8 % 256) := by
  induction parts generalizing fuel nexth ptr with
  | nil =>
      obtain ⟨fuel, rfl⟩ : ∃ n, fuel = n + 2 := ⟨fuel - 2, (Nat.sub_add_cancel hfuel).symm⟩
      rw [skip_step hstop hm, skip_stops hlast]
      rfl
  | cons h parts ih =>
      obtain ⟨fuel, rfl⟩ : ∃ n, fuel = n + 1 := ⟨fuel - 1, by
        rw [List.length_cons] at hfuel
        omega⟩
      obtain ⟨next, len, body, rfl, hnext, hlen⟩ := hover h List.mem_cons_self
      have hrest : m.drop (ptr + (len.toNat + 1) * 8 % 256) =
          parts.flatten ++ last :: extLen :: rest := by
        rw [← hlen, ← List.drop_drop, hm, List.flatten_cons, List.append_assoc, List.drop_left]
      have hwalk := @ih fuel (ptr + (len.toNat + 1) * 8 % 256) next hnext hrest
        (fun h hh => hover h (List.mem_cons_of_mem _ hh)) (by
          rw [List.length_cons] at hfuel
          omega)
      rw [skip_step hstop (by rw [hm, List.flatten_cons]; rfl), hwalk, List.flatten_cons,
        List.length_append, hlen, Nat.add_assoc ptr]

theorem parts_length_le {parts : List Bytes} (hover : ∀ h ∈ parts, SteppedOver h) :
    parts.length ≤ parts.flatten.length := by
  induction parts with
  | nil => exact Nat.le_refl _
  | cons h parts ih =>
      obtain ⟨next, len, body, rfl, -⟩ := hover h List.mem_cons_self
      have := ih fun h hh => hover h (List.mem_cons_of_mem _ hh)
      simp only [List.flatten_cons, List.length_append, List.length_cons]
      omega

end

/-- The protocol at which the walk stops and where: at once, or behind a chain of headers. -/
inductive WalksTo (m : Bytes) : UInt8 → Nat → Prop
  | here (stop : StopsWalk (nexthOf m)) : WalksTo m (nexthOf m) ip6Hlen
  | headers {parts : List Bytes} {last extLen : UInt8} {rest : Bytes}
      (steps : ¬ StopsWalk (nexthOf m))
      (chain : m.drop ip6Hlen = parts.flatten ++ last :: extLen :: rest)
      (stepped : ∀ h ∈ parts, SteppedOver h) (stop : StopsWalk last) :
      WalksTo m last (ip6Hlen + parts.flatten.length + (extLen.toNat + 1) * 8 % 256)

/-- The first option of the hop-by-hop header at a position can be read: its type, its
length if it is a custodian option, and the address if the length is right. -/
def OptionReadable (m : Bytes) (ptr : Nat) : Prop :=
  ptr + 2 < m.length ∧ (m.getD (ptr + 2) 0 = custodyOptionType →
    ptr + 3 < m.length ∧ (m.getD (ptr + 3) 0 = 16 → ptr + 20 ≤ m.length))

/-- The walk ends in the memory, and what it leads to can be read. -/
def ChainEnds (m : Bytes) : Prop :=
  6 < m.length ∧ ∃ n stop, WalksTo m n stop ∧ (n = ip6NexthHopbyhop → OptionReadable m stop)

section

variable {m behind : Bytes} {n : UInt8} {stop ptr : Nat}

theorem walksTo_iff :
    skipExtensionHeaders m (m.length + 2) (nexthOf m) ip6Hlen = .ok (n, stop) ↔
      WalksTo m n stop := by
  constructor
  · intro hwalk
    by_cases hstop : StopsWalk (nexthOf m)
    · rw [skip_stops hstop] at hwalk
      cases hwalk
      exact .here hstop
    · obtain ⟨hn, parts, extLen, rest, hparts, hover, rfl⟩ := headers_of_walk hstop hwalk
      exact .headers hstop hparts hover hn
  · intro h
    cases h with
    | here hstop => exact skip_stops hstop
    | headers steps chain stepped hstop =>
        refine walk_of_headers steps chain stepped hstop ?_
        have hlen := congrArg List.length chain
        have hparts := parts_length_le stepped
        simp only [List.length_drop, List.length_append, List.length_cons] at hlen
        omega

theorem WalksTo.ge (h : WalksTo m n stop) : ip6Hlen ≤ stop := by
  cases h with
  | here => exact Nat.le_refl _
  | headers => omega

theorem WalksTo.le (h : WalksTo m n stop) (header : ip6Hlen ≤ m.length) :
    stop ≤ m.length + 255 := by
  cases h with
  | here => omega
  | headers _ chain =>
      have hlen := congrArg List.length chain
      simp only [List.length_drop, List.length_append, List.length_cons] at hlen
      omega

theorem WalksTo.append (h : WalksTo m n stop) (long : 6 < m.length) :
    WalksTo (m ++ behind) n stop := by
  have hnexth : nexthOf (m ++ behind) = nexthOf m := by
    rw [nexthOf, nexthOf, List.getD_eq_getElem?_getD, List.getD_eq_getElem?_getD,
      List.getElem?_append_left long]
  cases h with
  | here hstop => exact hnexth ▸ .here (hnexth ▸ hstop)
  | @headers parts last extLen rest steps chain stepped hstop =>
      have header : ip6Hlen ≤ m.length := by
        refine Nat.le_of_lt (Nat.not_le.mp fun hle => ?_)
        rw [List.drop_eq_nil_of_le hle] at chain
        exact absurd chain.symm (by simp)
      refine @WalksTo.headers _ parts n extLen (rest ++ behind) (hnexth ▸ steps) ?_ stepped hstop
      rw [List.drop_append_of_le_length header, chain]
      simp

theorem OptionReadable.append (h : OptionReadable m ptr) : OptionReadable (m ++ behind) ptr := by
  have hget {i : Nat} (hi : i < m.length) : (m ++ behind).getD i 0 = m.getD i 0 := by
    rw [List.getD_eq_getElem?_getD, List.getD_eq_getElem?_getD, List.getElem?_append_left hi]
  obtain ⟨htype, hrest⟩ := h
  rw [OptionReadable, List.length_append, hget htype]
  refine ⟨by omega, fun hoption => ?_⟩
  obtain ⟨hlen, haddr⟩ := hrest hoption
  rw [hget hlen]
  exact ⟨by omega, fun hsize => Nat.le_trans (haddr hsize) (Nat.le_add_right _ _)⟩

theorem ChainEnds.append (h : ChainEnds m) : ChainEnds (m ++ behind) := by
  obtain ⟨long, n, stop, hwalk, hoption⟩ := h
  refine ⟨?_, n, stop, hwalk.append long, fun hn => (hoption hn).append⟩
  rw [List.length_append]
  exact Nat.lt_of_lt_of_le long (Nat.le_add_right _ _)

theorem optionReadable_iff : OptionReadable m ptr ↔ ∃ optType, byteAt m (ptr + 2) = .ok optType ∧
    (optType = custodyOptionType → ∃ optDataLen, byteAt m (ptr + 3) = .ok optDataLen ∧
      (optDataLen = 16 → Run.Returns (readBlock m (ptr + 4) 16))) := by
  have hbyte {i : Nat} {P : UInt8 → Prop} :
      (∃ v, byteAt m i = .ok v ∧ P v) ↔ i < m.length ∧ P (m.getD i 0) := by
    by_cases hi : i < m.length
    · simp [byteAt_getD hi, hi]
    · simp [byteAt_of_le (Nat.not_lt.mp hi), hi]
  rw [hbyte, hbyte, readBlock_returns, OptionReadable]

/-- `dtn_extract_custodian_option` returns exactly if the walk ends and the option can be
read. -/
theorem extract_returns_iff {p : Pbuf} :
    Run.Returns (dtnExtractCustodianOption p) ↔ ChainEnds p.mem := by
  rw [dtnExtractCustodianOption, ChainEnds]
  by_cases long : 6 < p.mem.length
  case neg => simp [byteAt_of_le (Nat.not_lt.mp long), long]
  rw [byteAt_getD long, ← nexthOf, Run.bind_ok, Run.returns_bind]
  simp only [Prod.exists, walksTo_iff, long, true_and]
  refine exists_congr fun n => exists_congr fun stop => and_congr_right fun _ => ?_
  by_cases hn : n = ip6NexthHopbyhop
  case neg => simp [hn]
  simp only [hn, ne_eq, not_true, if_false, forall_true_left, Run.returns_bind, optionReadable_iff]
  refine exists_congr fun optType => and_congr_right fun _ => ?_
  by_cases htype : optType = custodyOptionType
  case neg => simp [htype]
  simp only [htype, not_true, if_false, forall_true_left, Run.returns_bind]
  refine exists_congr fun optDataLen => and_congr_right fun _ => ?_
  by_cases hlen : optDataLen = 16
  case neg => simp [hlen]
  simp only [hlen, not_true, if_false, forall_true_left, Run.returns_bind]
  exact exists_congr fun addr => and_iff_left_of_imp fun _ => ⟨_, rfl⟩

end

theorem extract_returns {b behind : Bytes} (hb : b.length < 65536) (header : ip6Hlen ≤ b.length)
    (room : 275 ≤ behind.length)
    (h : StopsWalk (nexthOf b) ∨ LooksLikeHeaders (b.drop ip6Hlen)) :
    Run.Returns (dtnExtractCustodianOption (.single b behind hb)) := by
  have long : 6 < b.length := Nat.lt_of_lt_of_le (by decide) header
  obtain ⟨n, stop, hwalk⟩ : ∃ n stop, WalksTo b n stop := by
    by_cases hstop : StopsWalk (nexthOf b)
    · exact ⟨_, _, .here hstop⟩
    · obtain ⟨parts, last, extLen, rest, hparts, hover, hlast⟩ := h.resolve_left hstop
      exact ⟨_, _, .headers hstop hparts hover hlast⟩
  have hptr := hwalk.le header
  rw [extract_returns_iff, Pbuf.single_mem]
  refine ⟨?_, n, stop, hwalk.append long, fun _ => ?_⟩
  · rw [List.length_append]
    omega
  · rw [OptionReadable, List.length_append]
    exact ⟨by omega, fun _ => ⟨by omega, fun _ => by omega⟩⟩

/-- The walk ends within the packet exactly when it stops at once or the payload looks
like a chain of headers; then the whole function returns. -/
theorem extension_walk_ends_iff (b : Bytes) (header : ip6Hlen ≤ b.length) :
    (WalkEnds b ↔ StopsWalk (nexthOf b) ∨ LooksLikeHeaders (b.drop ip6Hlen)) ∧
    (WalkEnds b → ∀ (behind : Bytes) (hb : b.length < 65536), 275 ≤ behind.length →
      Run.Returns (dtnExtractCustodianOption (.single b behind hb))) := by
  have hiff : WalkEnds b ↔ StopsWalk (nexthOf b) ∨ LooksLikeHeaders (b.drop ip6Hlen) := by
    constructor
    · rintro ⟨fuel, ⟨n, stop⟩, hwalk⟩
      by_cases hstop : StopsWalk (nexthOf b)
      · exact .inl hstop
      · obtain ⟨hn, parts, extLen, rest, hparts, hover, -⟩ := headers_of_walk hstop hwalk
        exact .inr ⟨parts, n, extLen, rest, hparts, hover, hn⟩
    · intro h
      by_cases hstop : StopsWalk (nexthOf b)
      · exact ⟨1, _, skip_stops hstop⟩
      · obtain ⟨parts, last, extLen, rest, hparts, hover, hlast⟩ := h.resolve_left hstop
        exact ⟨_, _, walk_of_headers hstop hparts hover hlast (Nat.le_refl _)⟩
  exact ⟨hiff, fun hends behind hb room => extract_returns hb header room (hiff.mp hends)⟩

/-- A UDP packet whose payload the walk gets through: one step of eight bytes, then the
number 59. -/
def walkedPacket : Bytes :=
  [0x60, 0, 0, 0, 0, 12, 17, 64] ++ List.replicate 32 0 ++
    [0x30, 0, 0x20, 0, 0, 12, 0, 0, 59, 0, 0, 0]

theorem extension_walk_ends_walked : WalkEnds walkedPacket := by
  refine (extension_walk_ends_iff walkedPacket (by decide)).1.mpr (.inr ?_)
  refine ⟨[[0x30, 0, 0x20, 0, 0, 12, 0, 0]], 59, 0, [0, 0], by decide, ?_, .inr rfl⟩
  intro h hh
  cases List.mem_singleton.mp hh
  exact ⟨0x30, 0, [0x20, 0, 0, 12, 0, 0], rfl, by decide, rfl⟩

/-- An empty UDP datagram from port 4383, 0x111f: the second byte makes the step zero. -/
def loopingPacket : Bytes :=
  [0x60, 0, 0, 0, 0, 8, 17, 64] ++ List.replicate 32 0 ++ [0x11, 0x1f, 0x20, 0, 0, 8, 0, 0]

/-- On that packet the walk never gets any further, however long it runs. -/
theorem extension_walk_loops :
    ip6Hlen ≤ loopingPacket.length ∧
    (∀ fuel, skipExtensionHeaders loopingPacket fuel (nexthOf loopingPacket) ip6Hlen =
      .error .hang) ∧
    dtnExtractCustodianOption (.single loopingPacket [] (by decide)) = .error .hang := by
  have hloop (fuel : Nat) :
      skipExtensionHeaders loopingPacket fuel (nexthOf loopingPacket) ip6Hlen = .error .hang := by
    induction fuel with
    | zero => rfl
    | succ fuel ih =>
        rw [skip_step (by decide) (show loopingPacket.drop ip6Hlen =
          0x11 :: 0x1f :: [0x20, 0, 0, 8, 0, 0] from rfl)]
        exact ih
  refine ⟨by decide, hloop, ?_⟩
  rw [dtnExtractCustodianOption, Pbuf.single_mem, List.append_nil,
    show byteAt loopingPacket 6 = .ok (nexthOf loopingPacket) from rfl, Run.bind_ok, hloop]
  rfl

end LwipDtn
