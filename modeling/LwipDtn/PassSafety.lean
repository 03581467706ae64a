import Mathlib.Data.Nat.Find
import LwipDtn.AckRelease
import LwipDtn.PassWork
import LwipDtn.Tracked

/-!
The pass over the stored packets and its own deletions. A packet that is given up while
the pass looks at another one is found by its destination, and the first packet with that
destination is the one that is looked at or an earlier one: the part of the list that is
still to come is never touched. What can stop the pass is the work on one packet, above
all the walk over its extension headers. Only a packet that is the first for a destination
without retries left is never worked on.
-/

namespace LwipDtn
open Outcome Bytes BoundedFifo

/-- When a packet is looked at, it and all later packets are still in the list, behind what
is left of the earlier ones; what is taken out is the packet or one of the earlier ones. -/
def DeletesBehind (env : Nat → PassEnv) (node : Node) : Prop :=
  ∀ k e n answer n', node.storage.packetListHead[k]? = some e →
    attemptAll env 0 (node.storage.packetListHead.take k) node = .ok n →
    shouldAttemptForward (env k).attempt n e.originalDest = .ok (answer, n') →
    ∃ seen, n.storage.packetListHead = seen ++ e :: node.storage.packetListHead.drop (k + 1) ∧
      (n'.storage.packetListHead = n.storage.packetListHead ∨
        ∃ x left, Takes (seen ++ [e]) x left ∧
          n'.storage.packetListHead = left ++ node.storage.packetListHead.drop (k + 1))

/-- The pass ends, and it has looked once at every packet that was stored when it began. -/
def Completes (cfg : Config) (env : Nat → PassEnv) (node : Node) : Prop :=
  ∃ node' visits, passVisits cfg env node = .ok (node', visits) ∧
    visits.map Visit.entry = node.storage.packetListHead ∧
    dtnControllerAttemptForwardStored cfg env node = .ok (node', visits.flatMap Visit.sent)

def RoutingReturns (env : Nat → PassEnv) : Prop := ∀ k q, Run.Returns ((env k).routing.cgr q)

/-- The new lengths leave room for the packet with an option. -/
def TagFits (b : Bytes) : Prop :=
  ip6Hlen ≤ b.length ∧
    b.length + hbhOptHdrLen ≤ (ip6Hlen + (plenOf b + hbhOptHdrLen)) % 65536

/-- The pass gets through with a stored packet: the addresses and the extension headers can
be read, and so can the extension headers of a copy for the local stack; a copy for
another node can be tagged. -/
structure Passable (cfg : Config) (p : Pbuf) : Prop where
  addresses : 44 ≤ p.mem.length
  chain : ChainEnds p.mem
  home : ∀ dest, ip6AddrAt p.mem 24 = .ok dest → cfg.isLocal dest = true →
    24 ≤ p.totLen ∧ ChainEnds p.bytes
  away : ∀ dest, ip6AddrAt p.mem 24 = .ok dest → cfg.isLocal dest = false → TagFits p.bytes

/-- The packet is the first one for a destination that has no retries left. -/
def UsedUp (node : Node) (k : Nat) (e : StoredPacketEntry) : Prop :=
  FirstFor node e.originalDest.addr k ∧
  ∃ a, slotFor node.attempts e.originalDest.addr = some a ∧ maxForwardingRetries ≤ a.retryCount

/-! Deletions. -/

section Deletions

variable {env : Nat → PassEnv} {node n : Node}

/-- The packets that are still to come are all there. -/
theorem attemptAll_later {k : Nat} (hk : k ≤ node.storage.packetListHead.length)
    (h : attemptAll env 0 (node.storage.packetListHead.take k) node = .ok n) :
    ∃ seen, n.storage.packetListHead = seen ++ node.storage.packetListHead.drop k := by
  induction k generalizing n with
  | zero =>
      cases h
      exact ⟨[], rfl⟩
  | succ k ih =>
      have hget := List.getElem?_eq_getElem hk
      obtain ⟨m, answer, hm, hattempt⟩ := attemptAll_take_succ hget h
      obtain ⟨seen, hseen⟩ := ih (Nat.le_of_succ_le hk) hm
      rw [List.drop_eq_getElem_cons hk] at hseen
      obtain hsame | ⟨x, left, -, hleft⟩ := attempt_behind hseen hattempt
      · exact ⟨seen ++ [_], by rw [hsame, hseen, List.append_assoc]; rfl⟩
      · exact ⟨left, hleft⟩

theorem deletesBehind (env : Nat → PassEnv) (node : Node) : DeletesBehind env node := by
  intro k e n answer n' hk hn hattempt
  obtain ⟨hlt, rfl⟩ := List.getElem?_eq_some_iff.mp hk
  obtain ⟨seen, hseen⟩ := attemptAll_later (Nat.le_of_lt hlt) hn
  rw [List.drop_eq_getElem_cons hlt] at hseen
  exact ⟨seen, hseen, attempt_behind hseen hattempt⟩

end Deletions

/-! The work on one packet. -/

section Work

variable {cfg : Config} {p q : Pbuf} {c : Block 16}

def fullHeap : Heap := some (List.replicate 65535 0)

theorem alloc_full (n : Nat) : pbufAlloc fullHeap n ≠ none := by
  rw [fullHeap, pbufAlloc, Option.bind_some, if_pos]
  · exact Option.some_ne_none _
  · rw [List.length_replicate]
    omega

theorem tag_returns (fits : TagFits p.bytes) {heap : Heap} {behind : Bytes}
    {hb : p.bytes.length < 65536} :
    Run.Returns (dtnAddCustodianOption heap (.single p.bytes behind hb) c) := by
  obtain ⟨header, room⟩ := fits
  refine (@add_fits_iff (.single p.bytes behind hb) heap c header).mpr (.inr ⟨?_, ?_⟩)
  · rw [Pbuf.single_totLen, Pbuf.single_mem, List.length_append]
    exact Nat.le_add_right _ _
  · rw [Pbuf.single_totLen, Pbuf.single_bytes]
    exact room

theorem fits_of_tag {hb : p.bytes.length < 65536}
    (h : Run.Returns (dtnAddCustodianOption fullHeap (.single p.bytes [] hb) c)) :
    TagFits p.bytes := by
  have header : ip6Hlen ≤ (Pbuf.single p.bytes [] hb).len := by
    obtain ⟨r, h⟩ := h
    simp only [dtnAddCustodianOption, Run.bind_eq_ok] at h
    obtain ⟨oldNexth, -, origLen, -, h⟩ := h
    split at h
    · rename_i hnone
      exact absurd hnone (alloc_full _)
    · simp only [Run.bind_eq_ok] at h
      obtain ⟨hdr, hhdr, -⟩ := h
      have := (readBlock_eq_ok.mp hhdr).1
      rw [Pbuf.single_mem, List.append_nil] at this
      rw [Pbuf.len, Pbuf.single_payload]
      omega
  refine ⟨header, ?_⟩
  obtain hnone | ⟨-, hroom⟩ := (add_fits_iff header).mp h
  · exact absurd hnone (alloc_full _)
  · rwa [Pbuf.single_totLen, Pbuf.single_bytes] at hroom

theorem routeAnswer_returns {env : PassEnv} (addresses : 44 ≤ p.mem.length)
    (chain : ChainEnds p.mem) (routing : ∀ q, Run.Returns (env.routing.cgr q)) :
    Run.Returns (routeAnswer env.routing env.activeNow p) := by
  obtain ⟨src, hsrc⟩ := @ip6AddrAt_returns p.mem 8 (by omega)
  obtain ⟨dest, hdest⟩ := @ip6AddrAt_returns p.mem 24 addresses
  obtain ⟨custodian, hcustodian⟩ := extract_returns_iff.mpr chain
  obtain ⟨query, hquery⟩ := @routeQueryAt_returns p.mem (by omega) dest (custodian.getD src.addr)
  simp only [routeAnswer, hsrc, hdest, hcustodian, hquery, Run.bind_ok, activeNextHop,
    Run.returns_bind]
  have hop : Run.Returns (dtnRoutingGetDtnNextHop env.routing query) := by
    rw [dtnRoutingGetDtnNextHop]
    split
    · exact routing query
    · exact ⟨_, rfl⟩
  obtain ⟨hop, hhop⟩ := hop
  exact ⟨hop, hhop, _, rfl⟩

theorem Passable.letsPass (h : Passable cfg p) {env : PassEnv}
    (routing : ∀ q, Run.Returns (env.routing.cgr q)) : LetsPass cfg env p := by
  obtain ⟨addresses, chain, home, away⟩ := h
  refine ⟨addresses, chain, routeAnswer_returns addresses chain routing, ?_, ?_⟩
  · intro dest hop copy q hdest hlocal _ hcopy hq _
    obtain ⟨hlong, hchain⟩ := home dest hdest hlocal
    obtain ⟨behind, hb, rfl⟩ := pbufClone_single hcopy
    obtain ⟨behind', hb', rfl⟩ := pbufClone_single hq
    rw [Pbuf.single_mem, List.length_append, Pbuf.single_bytes, Pbuf.bytes_length]
    exact ⟨Nat.le_trans hlong (Nat.le_add_right _ _), hchain.append⟩
  · intro dest hop copy hdest hremote _ hcopy
    obtain ⟨behind, hb, rfl⟩ := pbufClone_single hcopy
    exact tag_returns (away dest hdest hremote)

/-- A contact to the destination is open, there is just enough memory for the copies, and
plenty for what is made of them. -/
def openPass (dest : Ip6Addr) (p : Pbuf) : PassEnv where
  attempt := ⟨7, true⟩
  routing := ⟨[⟨dest, dest, 0, 1000, true⟩], fun _ => .ok (some dest)⟩
  activeNow := 7
  forwardClone := tightHeap p.totLen
  ackClone := tightHeap p.totLen
  status := { statusAt 7 with message := fullHeap }
  add := fullHeap
  sendto := true

theorem openPass_hop {dest : Ip6Addr} (hdest : ip6AddrAt p.mem 24 = .ok dest)
    (h : Run.Returns (routeAnswer (openPass dest p).routing (openPass dest p).activeNow p)) :
    routeAnswer (openPass dest p).routing (openPass dest p).activeNow p = .ok (some dest) := by
  obtain ⟨answer, h⟩ := h
  rw [h]
  simp only [routeAnswer, routeQueryAt, Run.bind_eq_ok] at h
  obtain ⟨src, -, dest', hdest', custodian, -, q, ⟨_, -, _, -, _, -, _, -, hq⟩, h⟩ := h
  cases hdest.symm.trans hdest'
  cases hq
  have hopen : isNextHopActiveContact (openPass dest p).routing.contacts
      (openPass dest p).activeNow dest = true := by
    have : ContactInfo.openAt ⟨dest, dest, 0, 1000, true⟩ 7 = true := rfl
    simp [isNextHopActiveContact, openPass, this]
  rw [← h, activeNextHop_eq_some]
  refine ⟨?_, hopen⟩
  simp [openPass, dtnRoutingGetDtnNextHop, dtnRoutingIsDtnDestination]

theorem clone_tight (p : Pbuf) :
    ∃ hb, pbufClone (tightHeap p.totLen) p = some (.single p.bytes [] hb) := by
  obtain ⟨block, hblock⟩ := alloc_tight p
  exact ⟨_, by rw [pbufClone, hblock]; rfl⟩

/-- If the work on a packet always returns then the packet can be read, and its copies can
be read or tagged. -/
theorem passable_of_letsPass
    (h : ∀ env : PassEnv, (∀ q, Run.Returns (env.routing.cgr q)) → LetsPass cfg env p) :
    Passable cfg p := by
  have open_ (dest : Ip6Addr) : LetsPass cfg (openPass dest p) p := h _ fun _ => ⟨_, rfl⟩
  refine ⟨(open_ neighbour).addresses, (open_ neighbour).chain, ?_, ?_⟩
  · intro dest hdest hlocal
    obtain ⟨hb, hcopy⟩ := clone_tight p
    obtain ⟨hb', hq⟩ := clone_tight (.single p.bytes [] hb)
    rw [Pbuf.single_totLen, Pbuf.bytes_length] at hq
    have hchain := (open_ dest).home dest dest _ _ hdest hlocal
      (openPass_hop hdest (open_ dest).routing) hcopy hq
      (Option.isSome_iff_ne_none.mpr (alloc_full _))
    rwa [Pbuf.single_mem, List.append_nil, Pbuf.single_bytes, Pbuf.bytes_length] at hchain
  · intro dest hdest hremote
    obtain ⟨hb, hcopy⟩ := clone_tight p
    exact fits_of_tag ((open_ dest).away dest dest _ hdest hremote
      (openPass_hop hdest (open_ dest).routing) hcopy)

end Work

/-! Attempts that are granted. -/

section Grants

variable {node node' n : Node} {dest : Ip6Addr} {answer : Bool} {addr : Block 16} {base : UInt32}
  {k : Nat} {e : StoredPacketEntry}

theorem Granted.not_usedUp {env : Nat → PassEnv} (h : Granted env node k e) :
    ¬ UsedUp node k e := by
  rintro ⟨first, a, slot, used⟩
  obtain ⟨n, hn⟩ := attemptAll_returns env 0 (node.storage.packetListHead.take k) node
  have hle := Nat.le_of_lt (List.getElem?_eq_some_iff.mp h.1).1
  rw [← slotFor_unvisited hle first hn] at slot
  exact absurd used (Nat.not_le.mpr ((granted_iff h.1 hn).mp h a slot).2)

/-- The destination is untracked, or it was tried at the given time and has retries left. -/
def Ready (base : UInt32) (addr : Block 16) (node : Node) : Prop :=
  ∀ a, slotFor node.attempts addr = some a →
    a.lastAttemptTime = base ∧ a.retryCount < maxForwardingRetries

theorem one_lt_maxForwardingRetries : 1 < maxForwardingRetries := by decide

/-- While the clock stands still nothing is retried or given up. -/
theorem Ready.attempt {removed : Bool} (h : Ready base addr node)
    (hrun : shouldAttemptForward ⟨base, removed⟩ node dest = .ok (answer, node')) :
    Ready base addr node' := by
  have hattempted := shouldAttemptForward_attempted hrun
  by_cases hdest : addr = dest.addr
  case neg =>
    intro a slot
    rw [hattempted.slotFor_other hdest] at slot
    exact h a slot
  subst hdest
  have early {a : ForwardingAttempt} (slot : slotFor node.attempts dest.addr = some a) :
      ¬ a.Due base := by
    rw [ForwardingAttempt.Due, (h a slot).1, UInt32.sub_self]
    decide
  cases hattempted with
  | waits | unrecorded => exact h
  | expired _ slot due | retried _ slot due => exact absurd due (early slot)
  | recorded absent free =>
      intro a slot
      cases (slotFor_recorded absent free _ _).symm.trans slot
      exact ⟨rfl, one_lt_maxForwardingRetries⟩

/-- The clock stands still until the pass comes to one packet, and is past the delay then. -/
def lateClock (env : PassEnv) (base : UInt32) (k : Nat) (step : Nat) : PassEnv :=
  { env with attempt := ⟨if step < k then base else base + forwardingRetryDelayMs, true⟩ }

theorem lateClock_before {env : PassEnv} {i : Nat} (h : i < k) :
    (lateClock env base k i).attempt = ⟨base, true⟩ := by
  rw [lateClock, if_pos h]

theorem delay_due {a : ForwardingAttempt} (h : a.lastAttemptTime = base) :
    a.Due (base + forwardingRetryDelayMs) := by
  rw [ForwardingAttempt.Due, h, UInt32.add_comm, UInt32.add_sub_cancel]
  exact UInt32.le_refl _

theorem Ready.attemptAll {env : PassEnv} {j i : Nat} {m : Node} (hji : j ≤ i) (hik : i ≤ k)
    (hlen : i ≤ node.storage.packetListHead.length)
    (hm : attemptAll (lateClock env base k) 0 (node.storage.packetListHead.take j) node = .ok m)
    (h : Ready base addr m)
    (hn : LwipDtn.attemptAll (lateClock env base k) 0 (node.storage.packetListHead.take i) node =
      .ok n) : Ready base addr n := by
  induction hji generalizing n with
  | refl =>
      cases hm.symm.trans hn
      exact h
  | step hji ih =>
      obtain ⟨next, answer, hnext, hattempt⟩ :=
        attemptAll_take_succ (List.getElem?_eq_getElem hlen) hn
      rw [lateClock_before hik] at hattempt
      exact (ih (Nat.le_of_succ_le hik) (Nat.le_of_succ_le hlen) hnext).attempt hattempt

theorem Ready.granted {env : PassEnv} {j : Nat} {m : Node} (hj : j ≤ k)
    (hk : node.storage.packetListHead[k]? = some e)
    (hm : LwipDtn.attemptAll (lateClock env base k) 0 (node.storage.packetListHead.take j) node =
      .ok m)
    (h : Ready base e.originalDest.addr m) : Granted (lateClock env base k) node k e := by
  obtain ⟨n, hn⟩ := attemptAll_returns (lateClock env base k) 0
    (node.storage.packetListHead.take k) node
  have hlen := Nat.le_of_lt (List.getElem?_eq_some_iff.mp hk).1
  refine (granted_iff hk hn).mpr fun a slot => ?_
  obtain ⟨written, left⟩ := Ready.attemptAll hj (Nat.le_refl k) hlen hm h hn a slot
  refine ⟨?_, left⟩
  rw [lateClock, if_neg (Nat.lt_irrefl k)]
  exact delay_due written

theorem attemptAll_nodup {env : Nat → PassEnv} (distinct : (tracked node.attempts).Nodup)
    (hlen : k ≤ node.storage.packetListHead.length)
    (hn : attemptAll env 0 (node.storage.packetListHead.take k) node = .ok n) :
    (tracked n.attempts).Nodup := by
  induction k generalizing n with
  | zero =>
      cases hn
      exact distinct
  | succ k ih =>
      obtain ⟨m, answer, hm, hattempt⟩ := attemptAll_take_succ (List.getElem?_eq_getElem hlen) hn
      exact shouldAttemptForward_nodup (ih (Nat.le_of_succ_le hlen) hm) hattempt

theorem usedUp_untracked {env : Nat → PassEnv} {a : ForwardingAttempt}
    (distinct : (tracked node.attempts).Nodup) (hk : node.storage.packetListHead[k]? = some e)
    (first : FirstFor node e.originalDest.addr k)
    (slot : slotFor node.attempts e.originalDest.addr = some a)
    (used : maxForwardingRetries ≤ a.retryCount) (due : a.Due (env k).attempt.now)
    (hn : attemptAll env 0 (node.storage.packetListHead.take (k + 1)) node = .ok n) :
    slotFor n.attempts e.originalDest.addr = none := by
  have hle := Nat.le_of_lt (List.getElem?_eq_some_iff.mp hk).1
  obtain ⟨m, answer, hm, hattempt⟩ := attemptAll_take_succ hk hn
  rw [← slotFor_unvisited hle first hm] at slot
  cases shouldAttemptForward_attempted hattempt with
  | waits found early =>
      cases slot.symm.trans found
      exact absurd due early
  | expired index => exact slotFor_invalidate (attemptAll_nodup distinct hle hm) index
  | retried _ found _ left =>
      cases slot.symm.trans found
      exact absurd used (Nat.not_le.mpr left)
  | recorded absent | unrecorded absent => cases slot.symm.trans absent

/-- Every other packet is granted its attempt at some clock. -/
theorem exists_granting_clock (env : PassEnv) (distinct : (tracked node.attempts).Nodup)
    (hk : node.storage.packetListHead[k]? = some e) (notUsed : ¬ UsedUp node k e) :
    ∃ base, Granted (lateClock env base k) node k e := by
  cases slot : slotFor node.attempts e.originalDest.addr with
  | none =>
      refine ⟨0, Ready.granted (Nat.zero_le k) hk rfl fun a ha => ?_⟩
      cases slot.symm.trans ha
  | some a =>
      by_cases left : a.retryCount < maxForwardingRetries
      · refine ⟨a.lastAttemptTime, Ready.granted (Nat.zero_le k) hk rfl fun a' ha => ?_⟩
        cases slot.symm.trans ha
        exact ⟨rfl, left⟩
      -- the first packet of the destination is given up on the way
      classical
      have hused := Nat.not_lt.mp left
      have hearlier : ∃ j, j < k ∧ ∃ e', node.storage.packetListHead[j]? = some e' ∧
          e'.originalDest.addr = e.originalDest.addr := by
        by_contra hnone
        exact notUsed ⟨fun j e' hj hj' heq => hnone ⟨j, hj, e', hj', heq⟩, a, slot, hused⟩
      obtain ⟨hj, e', hj', heq⟩ := Nat.find_spec hearlier
      have hfirst : FirstFor node e'.originalDest.addr (Nat.find hearlier) := fun i e'' hi hi' h =>
        Nat.find_min hearlier hi ⟨Nat.lt_trans hi hj, e'', hi', h.trans heq⟩
      refine ⟨a.lastAttemptTime + forwardingRetryDelayMs, ?_⟩
      obtain ⟨m, hm⟩ := attemptAll_returns
        (lateClock env (a.lastAttemptTime + forwardingRetryDelayMs) k) 0
        (node.storage.packetListHead.take (Nat.find hearlier + 1)) node
      refine Ready.granted hj hk hm fun a' ha => ?_
      have hnone := usedUp_untracked distinct hj' hfirst (heq ▸ slot) hused
        (by rw [lateClock_before hj]; exact delay_due rfl) hm
      rw [heq] at hnone
      cases hnone.symm.trans ha

end Grants

/-! The pass. -/

section Pass

variable {cfg : Config} {node : Node}

theorem completes_iff {env : Nat → PassEnv} : Completes cfg env node ↔
    ∀ k e, Granted env node k e → LetsPass cfg (env k) e.p := by
  rw [← passVisits_returns_iff]
  constructor
  · rintro ⟨node', visits, hvisits, -⟩
    exact ⟨_, hvisits⟩
  · rintro ⟨⟨node', visits⟩, hvisits⟩
    refine ⟨node', visits, hvisits, visits_entries hvisits, ?_⟩
    rw [attemptForwardStored_eq, hvisits]
    rfl

theorem always_completes_iff (distinct : (tracked node.attempts).Nodup) :
    (∀ env, RoutingReturns env → Completes cfg env node) ↔
      ∀ k e, node.storage.packetListHead[k]? = some e → ¬ UsedUp node k e →
        Passable cfg e.p := by
  constructor
  · intro completes k e hk notUsed
    refine passable_of_letsPass fun env routing => ?_
    obtain ⟨base, granted⟩ := exists_granting_clock env distinct hk notUsed
    have h := completes_iff.mp (completes (lateClock env base k) fun _ q => routing q) k e granted
    exact ⟨h.addresses, h.chain, h.routing, h.home, h.away⟩
  · intro passable env routing
    exact completes_iff.mpr fun k e granted =>
      (passable k e granted.1 granted.not_usedUp).letsPass (routing k)

end Pass

/-- In every pass the deletions stay behind the walk, so that nothing but the work on a
packet can stop it: the pass is safe exactly if each packet that it works on lets it pass.
In a calm pass the table at the beginning says which packets these are. Over a list and a
table the pass is safe at all times exactly if each packet that can be worked on at all
lets it pass. -/
theorem pass_survives_deletions_iff (cfg : Config) (node : Node) :
    (∀ env, DeletesBehind env node ∧
      dtnControllerAttemptForwardStored cfg env node = withEffects <$> passVisits cfg env node ∧
      (Completes cfg env node ↔ ∀ k e, Granted env node k e → LetsPass cfg (env k) e.p) ∧
      (Calm env node →
        (Completes cfg env node ↔ ∀ k e, Served env node k e → LetsPass cfg (env k) e.p))) ∧
    ((tracked node.attempts).Nodup →
      ((∀ env, RoutingReturns env → Completes cfg env node) ↔
        ∀ k e, node.storage.packetListHead[k]? = some e → ¬ UsedUp node k e →
          Passable cfg e.p)) := by
  refine ⟨fun env => ⟨deletesBehind env node, attemptForwardStored_eq cfg env node,
    completes_iff, fun calm => ?_⟩, always_completes_iff⟩
  rw [completes_iff, calm.granted_eq]

/-- A pass over two packets for tracked destinations ends, at any time and with any memory. -/
theorem pass_survives_deletions_tracked :
    bothTracked.node.storage.packetListHead.length = 2 ∧
      (tracked bothTracked.node.attempts).length = 2 ∧
      ∀ env, RoutingReturns env → Completes sampleConfig env bothTracked.node := by
  have hpackets : ∀ e ∈ bothTracked.node.storage.packetListHead, 44 ≤ e.p.mem.length ∧
      Run.Returns (dtnExtractCustodianOption e.p) ∧
      (ip6AddrAt e.p.mem 24).map sampleConfig.isLocal = .ok false ∧
      ip6Hlen ≤ e.p.bytes.length ∧ e.p.bytes.length + hbhOptHdrLen ≤
        (ip6Hlen + (plenOf e.p.bytes + hbhOptHdrLen)) % 65536 := by
    decide +kernel
  refine ⟨by decide +kernel, by decide +kernel,
    ((pass_survives_deletions_iff sampleConfig bothTracked.node).2 (by decide +kernel)).mpr
      fun k e hk _ => ?_⟩
  obtain ⟨addresses, chain, hremote, fits⟩ := hpackets e (List.mem_of_getElem? hk)
  refine ⟨addresses, extract_returns_iff.mp chain, fun dest hdest hlocal => ?_, fun _ _ _ => fits⟩
  rw [hdest] at hremote
  cases (Except.ok.inj hremote).symm.trans hlocal

/-- An empty UDP datagram from port 4383 with a custodian option, for the far node. -/
def taggedLoop : Pbuf :=
  .single ([0x60, 0, 0, 0, 0, 32, 0, 64] ++ (netAddr 1 1).1 ++ (netAddr 0x23 3).1 ++
    hbhHdr 17 (netAddr 0x12 2) ++ [0x11, 0x1f, 0x20, 0, 0, 8, 0, 0])
    (List.replicate 64 0) (by decide)

/-- The datagram arrives and is stored without the option, and the pass two seconds after
the start never gets past it. -/
theorem pass_never_ends :
    ∃ node effects, dtnControllerProcessIncoming sampleConfig hexAddrText (incomingAt 7 true)
        emptyNode taggedLoop = .ok (node, effects) ∧ node.storage.packetListHead.length = 1 ∧
      dtnControllerAttemptForwardStored sampleConfig (fun _ => passAt 2000) node = .error .hang ∧
      ¬ Completes sampleConfig (fun _ => passAt 2000) node := by
  have hstored : Except.map (fun r => r.1.storage.packetListHead.length)
      (dtnControllerProcessIncoming sampleConfig hexAddrText (incomingAt 7 true) emptyNode
        taggedLoop) = .ok 1 := by decide +kernel
  have hpass : (dtnControllerProcessIncoming sampleConfig hexAddrText (incomingAt 7 true) emptyNode
      taggedLoop >>= fun r => dtnControllerAttemptForwardStored sampleConfig
        (fun _ => passAt 2000) r.1) = .error .hang := by decide +kernel
  cases hrun : dtnControllerProcessIncoming sampleConfig hexAddrText (incomingAt 7 true) emptyNode
      taggedLoop with
  | error stuck =>
      rw [hrun] at hstored
      cases hstored
  | ok r =>
      rw [hrun] at hstored hpass
      refine ⟨r.1, r.2, rfl, Except.ok.inj hstored, hpass, ?_⟩
      rintro ⟨node', visits, -, -, hok⟩
      cases hok.symm.trans hpass

end LwipDtn
