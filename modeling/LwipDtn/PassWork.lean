import Mathlib.Data.Finset.Card
import LwipDtn.PassVisits

/-!
The work of a pass on one packet. Only a packet whose attempt is granted is worked on, and
the work is all that can stop the pass: the header and the extension headers have to be
read, contact graph routing has to return, and a copy has to be acknowledged or tagged.

Which attempts are granted can be read off the table at the beginning as long as no retry
delay ends during the pass. The first packet for a destination uses up the attempt of
every later one, unless the destination has no slot and the table is full. How full it is
can be counted: each destination without a slot takes one when the pass comes to its first
packet.
-/

namespace LwipDtn
open Outcome Bytes BoundedFifo

/-- The attempt for the packet at this place is granted when its turn comes. -/
def Granted (env : Nat → PassEnv) (node : Node) (k : Nat) (e : StoredPacketEntry) : Prop :=
  node.storage.packetListHead[k]? = some e ∧
    ∃ n n', attemptAll env 0 (node.storage.packetListHead.take k) node = .ok n ∧
      shouldAttemptForward (env k).attempt n e.originalDest = .ok (true, n')

/-- No packet before this place is for the destination. -/
def FirstFor (node : Node) (addr : Block 16) (k : Nat) : Prop :=
  ∀ j e, j < k → node.storage.packetListHead[j]? = some e → e.originalDest.addr ≠ addr

/-- The work on the packet returns: its addresses and extension headers can be read and the
routing answers. If it answers an open next hop and the packet can be copied, then the
extension headers of a copy for the local stack can be read as well, and a copy for
another node can be tagged. -/
structure LetsPass (cfg : Config) (env : PassEnv) (p : Pbuf) : Prop where
  addresses : 44 ≤ p.mem.length
  chain : ChainEnds p.mem
  routing : Run.Returns (routeAnswer env.routing env.activeNow p)
  home : ∀ dest hop copy q, ip6AddrAt p.mem 24 = .ok dest → cfg.isLocal dest = true →
    routeAnswer env.routing env.activeNow p = .ok (some hop) →
    pbufClone env.forwardClone p = some copy → pbufClone env.ackClone copy = some q →
    (pbufAlloc env.status.message (8 + (9 + quotedLen))).isSome →
    24 ≤ q.mem.length ∧ ChainEnds q.mem
  away : ∀ dest hop copy, ip6AddrAt p.mem 24 = .ok dest → cfg.isLocal dest = false →
    routeAnswer env.routing env.activeNow p = .ok (some hop) →
    pbufClone env.forwardClone p = some copy →
    Run.Returns (dtnAddCustodianOption env.add copy cfg.myAddr)

def freeSlots (attempts : List ForwardingAttempt) : Nat := attempts.countP fun a => !a.isValid

/-- The untracked destinations of the packets before this place. -/
def untrackedDests (node : Node) (k : Nat) : Finset (Block 16) :=
  ((node.storage.packetListHead.take k).map fun e => e.originalDest.addr).toFinset.filter
    fun addr => slotFor node.attempts addr = none

/-- The calls for earlier packets to the destination leave no trace: it is untracked, and
the untracked destinations before each of these packets take all free slots. -/
def NoTrace (node : Node) (addr : Block 16) (k : Nat) : Prop :=
  ∀ j e, j < k → node.storage.packetListHead[j]? = some e → e.originalDest.addr = addr →
    slotFor node.attempts addr = none ∧ freeSlots node.attempts ≤ (untrackedDests node j).card

/-- What the table at the beginning says about the attempt for the packet: a slot of its
destination is due when its turn comes and has retries left, and no earlier packet has
used the attempt. -/
structure Served (env : Nat → PassEnv) (node : Node) (k : Nat) (e : StoredPacketEntry) : Prop where
  stored : node.storage.packetListHead[k]? = some e
  due : ∀ a, slotFor node.attempts e.originalDest.addr = some a →
    a.Due (env k).attempt.now ∧ a.retryCount < maxForwardingRetries
  alone : NoTrace node e.originalDest.addr k

/-- No retry delay ends between two packets for one destination, and no destination is
given up. -/
structure Calm (env : Nat → PassEnv) (node : Node) : Prop where
  steady : Steady env node
  left : ∀ k e a, node.storage.packetListHead[k]? = some e →
    slotFor node.attempts e.originalDest.addr = some a → a.Due (env k).attempt.now →
    a.retryCount < maxForwardingRetries

section Work

variable {cfg : Config} {p q : Pbuf} {c : Block 16}

theorem extract_some_long (h : dtnExtractCustodianOption p = .ok (some c)) : 24 ≤ p.mem.length := by
  simp only [dtnExtractCustodianOption, Run.bind_eq_ok] at h
  obtain ⟨nexth, hnexth, ⟨n, ptr⟩, hwalk, h⟩ := h
  have hnexthOf : nexthOf p.mem = nexth := by
    rw [nexthOf, List.getD_eq_getElem?_getD, byteAt_eq_ok.mp hnexth, Option.getD_some]
  rw [← hnexthOf, walksTo_iff] at hwalk
  have hptr := hwalk.ge
  split at h
  · cases h
  obtain ⟨optType, -, h⟩ := Run.bind_eq_ok.mp h
  split at h
  · cases h
  obtain ⟨optDataLen, -, h⟩ := Run.bind_eq_ok.mp h
  split at h
  · cases h
  obtain ⟨addr, haddr, -⟩ := Run.bind_eq_ok.mp h
  have := (readBlock_eq_ok.mp haddr).1
  rw [ip6Hlen] at hptr
  omega

theorem message_returns_iff {status : StatusEnv} {stored : List Bytes} {type code reason : UInt8} :
    Run.Returns (dtnIcmpv6SendMessage cfg status stored q type code reason) ↔
      ((pbufAlloc status.message (8 + (9 + quotedLen))).isSome →
        24 ≤ q.mem.length ∧ ChainEnds q.mem) := by
  constructor
  · intro h memory
    rw [dtnIcmpv6SendMessage] at h
    split at h
    · rename_i hnone
      rw [hnone] at memory
      cases memory
    simp only [Run.returns_bind] at h
    obtain ⟨plen, -, custodian, hcustodian, h⟩ := h
    refine ⟨?_, extract_returns_iff.mp ⟨custodian, hcustodian⟩⟩
    cases custodian with
    | none =>
        obtain ⟨dest, hdest, -⟩ := Run.returns_bind.mp h
        exact (readBlock_eq_ok.mp hdest).1
    | some c => exact extract_some_long hcustodian
  · intro readable
    by_cases memory : (pbufAlloc status.message (8 + (9 + quotedLen))).isSome
    · obtain ⟨src, chain⟩ := readable memory
      exact (sendMessage_returns_iff _ _ _ _ _ src).mpr fun _ => extract_returns_iff.mpr chain
    · rw [Bool.not_eq_true, Option.isSome_eq_false_iff, Option.isNone_iff_eq_none] at memory
      rw [dtnIcmpv6SendMessage, memory]
      exact ⟨_, rfl⟩

theorem acknowledge_passes_iff {clone : Heap} {status : StatusEnv} {stored : List Bytes}
    {code : UInt8} :
    Run.Returns (acknowledge cfg clone status stored p code) ↔
      ∀ q, pbufClone clone p = some q → (pbufAlloc status.message (8 + (9 + quotedLen))).isSome →
        24 ≤ q.mem.length ∧ ChainEnds q.mem := by
  rw [acknowledge]
  cases hclone : pbufClone clone p with
  | none => exact ⟨fun _ q hq => absurd hq.symm (Option.some_ne_none q), fun _ => ⟨_, rfl⟩⟩
  | some q =>
      refine ⟨fun h q' hq => ?_, fun h => message_returns_iff.mpr (h q rfl)⟩
      cases hq
      exact message_returns_iff.mp h

theorem forwardCopy_returns_iff {env : PassEnv} {node : Node} {dest hop : Ip6Addr} :
    Run.Returns (forwardCopy cfg env node dest hop p) ↔
      (cfg.isLocal dest = true → ∀ q, pbufClone env.ackClone p = some q →
        (pbufAlloc env.status.message (8 + (9 + quotedLen))).isSome →
        24 ≤ q.mem.length ∧ ChainEnds q.mem) ∧
      (cfg.isLocal dest = false → Run.Returns (dtnAddCustodianOption env.add p cfg.myAddr)) := by
  rw [forwardCopy]
  cases cfg.isLocal dest with
  | true =>
      rw [if_pos rfl, Run.returns_bind]
      constructor
      · rintro ⟨ack, hack, -⟩
        exact ⟨fun _ => acknowledge_passes_iff.mp ⟨ack, hack⟩, fun h => Bool.noConfusion h⟩
      · rintro ⟨home, -⟩
        obtain ⟨ack, hack⟩ := acknowledge_passes_iff.mpr (home rfl)
        exact ⟨ack, hack, _, rfl⟩
  | false =>
      rw [if_neg (by simp), Run.returns_bind]
      constructor
      · rintro ⟨r, hr, -⟩
        exact ⟨fun h => Bool.noConfusion h, fun _ => ⟨r, hr⟩⟩
      · rintro ⟨-, away⟩
        obtain ⟨r, hr⟩ := away rfl
        exact ⟨r, hr, _, rfl⟩

theorem forwardEntry_returns_iff {env : PassEnv} {node : Node} {e : StoredPacketEntry} :
    Run.Returns (forwardEntry cfg env node e) ↔ LetsPass cfg env e.p := by
  constructor
  · intro h
    simp only [forwardEntry, Run.returns_bind] at h
    obtain ⟨src, hsrc, dest, hdest, custodian, hcust, query, hquery, answer, hanswer, h⟩ := h
    have hroute : routeAnswer env.routing env.activeNow e.p = .ok answer := by
      simp only [routeAnswer, hsrc, hdest, hcust, hquery, hanswer, Run.bind_ok]
    have hcopied (hop : Ip6Addr) (copy : Pbuf)
        (hhop : routeAnswer env.routing env.activeNow e.p = .ok (some hop))
        (hcopy : pbufClone env.forwardClone e.p = some copy) :
        Run.Returns (forwardCopy cfg env node dest hop copy) := by
      cases hroute.symm.trans hhop
      simpa only [hcopy] using h
    refine ⟨?_, extract_returns_iff.mp ⟨custodian, hcust⟩, ⟨answer, hroute⟩, ?_, ?_⟩
    · obtain ⟨raw, hraw, -⟩ := Run.bind_eq_ok.mp hdest
      exact (readBlock_eq_ok.mp hraw).1
    · intro dest' hop copy q hdest' hlocal hhop hcopy hq
      cases hdest.symm.trans hdest'
      exact (forwardCopy_returns_iff.mp (hcopied hop copy hhop hcopy)).1 hlocal q hq
    · intro dest' hop copy hdest' hremote hhop hcopy
      cases hdest.symm.trans hdest'
      exact (forwardCopy_returns_iff.mp (hcopied hop copy hhop hcopy)).2 hremote
  · intro h
    obtain ⟨answer, hroute⟩ := h.routing
    have hread := hroute
    simp only [routeAnswer, Run.bind_eq_ok] at hread
    obtain ⟨src, hsrc, dest, hdest, custodian, hcust, query, hquery, hanswer⟩ := hread
    simp only [forwardEntry, hsrc, hdest, hcust, hquery, hanswer, Run.bind_ok]
    cases answer with
    | none => exact ⟨_, rfl⟩
    | some hop =>
        cases hcopy : pbufClone env.forwardClone e.p with
        | none => exact ⟨_, rfl⟩
        | some copy =>
            exact forwardCopy_returns_iff.mpr
              ⟨fun hlocal q hq => h.home dest hop copy q hdest hlocal hroute hcopy hq,
                fun hremote => h.away dest hop copy hdest hremote hroute hcopy⟩

end Work

section Pass

variable {cfg : Config} {env : Nat → PassEnv} {node n n' : Node} {k : Nat} {e : StoredPacketEntry}

theorem visitEntries_returns_iff {step i : Nat} {entries : List StoredPacketEntry} :
    Run.Returns (visitEntries cfg env step i entries node) ↔
      ∀ k e n n', entries[k]? = some e → attemptAll env step (entries.take k) node = .ok n →
        shouldAttemptForward (env (step + k)).attempt n e.originalDest = .ok (true, n') →
        LetsPass cfg (env (step + k)) e.p := by
  induction entries generalizing step i node with
  | nil => exact ⟨fun _ k e n n' hk => absurd hk.symm (Option.some_ne_none e), fun _ => ⟨_, rfl⟩⟩
  | cons entry rest ih =>
      obtain ⟨⟨answer, next⟩, hattempt⟩ := shouldAttemptForward_returns (env step).attempt node
        entry.originalDest
      have heffects : Run.Returns (visitEffects cfg (env step) answer next entry) ↔
          (answer = true → LetsPass cfg (env step) entry.p) := by
        rw [visitEffects]
        cases answer with
        | false => exact ⟨fun _ h => Bool.noConfusion h, fun _ => ⟨_, rfl⟩⟩
        | true => exact forwardEntry_returns_iff.trans ⟨fun h _ => h, fun h => h rfl⟩
      rw [visitEntries, hattempt, Run.bind_ok, Run.returns_bind]
      constructor
      · rintro ⟨sent, hsent, h⟩ k e n n' hk hn hgranted
        cases k with
        | zero =>
            cases hk
            cases hn
            cases hattempt.symm.trans hgranted
            exact heffects.mp ⟨sent, hsent⟩ rfl
        | succ k =>
            obtain ⟨r, hr, -⟩ := Run.returns_bind.mp h
            rw [List.take_succ_cons, attemptAll, hattempt, Run.bind_ok] at hn
            rw [Nat.add_comm k 1, ← Nat.add_assoc] at hgranted ⊢
            exact ih.mp ⟨r, hr⟩ k e n n' hk hn hgranted
      · intro h
        obtain ⟨sent, hsent⟩ := heffects.mpr fun hanswer =>
          h 0 entry node next rfl rfl (hanswer ▸ hattempt)
        refine ⟨sent, hsent, ?_⟩
        rw [Run.returns_bind]
        obtain ⟨r, hr⟩ := ih.mpr fun k e n n' hk hn hgranted => by
          rw [Nat.add_assoc, Nat.add_comm 1 k] at hgranted ⊢
          refine h (k + 1) e n n' hk ?_ hgranted
          rw [List.take_succ_cons, attemptAll, hattempt]
          exact hn
        exact ⟨r, hr, _, rfl⟩

/-- A pass ends exactly if every packet that it works on lets it pass. -/
theorem passVisits_returns_iff : Run.Returns (passVisits cfg env node) ↔
    ∀ k e, Granted env node k e → LetsPass cfg (env k) e.p := by
  rw [passVisits, visitEntries_returns_iff]
  simp only [Nat.zero_add]
  exact ⟨fun h k e granted => by
    obtain ⟨hk, n, n', hn, hattempt⟩ := granted
    exact h k e n n' hk hn hattempt,
    fun h k e n n' hk hn hattempt => h k e ⟨hk, n, n', hn, hattempt⟩⟩

theorem attemptAll_returns (env : Nat → PassEnv) (step : Nat) (entries : List StoredPacketEntry)
    (node : Node) : ∃ n, attemptAll env step entries node = .ok n := by
  induction entries generalizing step node with
  | nil => exact ⟨node, rfl⟩
  | cons e rest ih =>
      obtain ⟨⟨answer, next⟩, hattempt⟩ := shouldAttemptForward_returns (env step).attempt node
        e.originalDest
      rw [attemptAll, hattempt]
      exact ih (step + 1) next

/-- The attempt is granted exactly if the slot that the calls before it leave is due and has
retries left. -/
theorem granted_iff (hk : node.storage.packetListHead[k]? = some e)
    (hn : attemptAll env 0 (node.storage.packetListHead.take k) node = .ok n) :
    Granted env node k e ↔ ∀ a, slotFor n.attempts e.originalDest.addr = some a →
      a.Due (env k).attempt.now ∧ a.retryCount < maxForwardingRetries := by
  obtain ⟨⟨answer, n'⟩, hattempt⟩ := shouldAttemptForward_returns (env k).attempt n e.originalDest
  rw [← (shouldAttemptForward_attempted hattempt).answer_iff]
  constructor
  · rintro ⟨-, m, m', hm, hgranted⟩
    cases hn.symm.trans hm
    cases hattempt.symm.trans hgranted
    rfl
  · rintro rfl
    exact ⟨hk, n, n', hn, hattempt⟩

theorem slotFor_unvisited {addr : Block 16} (hle : k ≤ node.storage.packetListHead.length)
    (first : FirstFor node addr k)
    (h : attemptAll env 0 (node.storage.packetListHead.take k) node = .ok n) :
    slotFor n.attempts addr = slotFor node.attempts addr := by
  induction k generalizing n with
  | zero =>
      cases h
      rfl
  | succ k ih =>
      have hk := List.getElem?_eq_getElem hle
      obtain ⟨m, answer, hm, hattempt⟩ := attemptAll_take_succ hk h
      have hother := first k _ (Nat.lt_succ_self k) hk
      rw [(shouldAttemptForward_attempted hattempt).slotFor_other hother.symm]
      exact ih (Nat.le_of_lt hle) (fun j e hj => first j e (Nat.lt_succ_of_lt hj)) hm

end Pass

/-! Counting slots. -/

section Slots

variable {attempts : List ForwardingAttempt} {node : Node} {dest : Ip6Addr} {addr : Block 16}
  {i k : Nat} {e : StoredPacketEntry}

theorem freeSlot_eq_none_iff : freeSlot attempts = none ↔ freeSlots attempts = 0 := by
  rw [freeSlot, List.findIdx?_eq_none_iff, freeSlots, List.countP_eq_zero]
  simp

theorem freeSlots_retried {a : ForwardingAttempt} (index : trackedSlot attempts dest = some i)
    (slot : slotFor attempts dest.addr = some a) (now : UInt32) (count : Nat) :
    freeSlots (attempts.set i { a with lastAttemptTime := now, retryCount := count }) =
      freeSlots attempts := by
  obtain ⟨c, hc, hfound, -⟩ := trackedSlot_found index
  cases hfound.symm.trans slot
  obtain ⟨hi, rfl⟩ := List.getElem?_eq_some_iff.mp hc
  have hvalid := (ForwardingAttempt.tracks_eq_some.mp (Slots.slotOf_mem slot).2).1
  rw [freeSlots, List.countP_set hi]
  simp [hvalid, freeSlots]

theorem freeSlots_recorded (free : freeSlot attempts = some i) (dest : Ip6Addr) (now : UInt32)
    (count : Nat) :
    freeSlots (attempts.set i ⟨dest, now, count, true⟩) + 1 = freeSlots attempts := by
  obtain ⟨hi, hfree, -⟩ := List.findIdx?_eq_some_iff_getElem.mp free
  have hpos : 0 < freeSlots attempts :=
    List.countP_pos_iff.mpr ⟨_, List.getElem_mem hi, hfree⟩
  rw [freeSlots, List.countP_set hi, if_pos hfree, if_neg (by simp), Nat.add_zero]
  exact Nat.sub_add_cancel hpos

theorem mem_untrackedDests : addr ∈ untrackedDests node k ↔
    slotFor node.attempts addr = none ∧ ¬ FirstFor node addr k := by
  simp only [untrackedDests, Finset.mem_filter, List.mem_toFinset, List.mem_map, FirstFor,
    List.mem_take_iff_getElem, List.getElem?_eq_some_iff]
  grind

theorem untrackedDests_succ (hk : node.storage.packetListHead[k]? = some e) :
    untrackedDests node (k + 1) =
      if slotFor node.attempts e.originalDest.addr = none
      then insert e.originalDest.addr (untrackedDests node k) else untrackedDests node k := by
  rw [untrackedDests, List.take_add_one, hk, Option.toList_some, List.map_append,
    List.toFinset_append, Finset.filter_union, List.map_singleton, List.toFinset_cons,
    List.toFinset_nil, insert_empty_eq, Finset.filter_singleton]
  split
  · rw [Finset.union_comm]
    rfl
  · exact Finset.union_empty _

theorem card_untrackedDests_mono (node : Node) {j : Nat} (h : j ≤ k) :
    (untrackedDests node j).card ≤ (untrackedDests node k).card := by
  refine Finset.card_le_card fun addr haddr => ?_
  obtain ⟨absent, earlier⟩ := mem_untrackedDests.mp haddr
  exact mem_untrackedDests.mpr ⟨absent, fun first => earlier fun i e hi =>
    first i e (Nat.lt_of_lt_of_le hi h)⟩

theorem noTrace_succ (hk : node.storage.packetListHead[k]? = some e) :
    NoTrace node addr (k + 1) ↔ NoTrace node addr k ∧ (e.originalDest.addr = addr →
      slotFor node.attempts addr = none ∧
        freeSlots node.attempts ≤ (untrackedDests node k).card) := by
  constructor
  · exact fun h => ⟨fun j e' hj => h j e' (Nat.lt_succ_of_lt hj), h k e (Nat.lt_succ_self k) hk⟩
  · rintro ⟨earlier, here⟩ j e' hj hj' hdest
    rcases Nat.lt_succ_iff_lt_or_eq.mp hj with hj | rfl
    · exact earlier j e' hj hj' hdest
    · cases hk.symm.trans hj'
      exact here hdest

end Slots

section Calm

variable {env : Nat → PassEnv} {node n node' : Node} {k : Nat} {e : StoredPacketEntry}
  {addr : Block 16} {answer : Bool}

/-- The slot of the destination is early for every packet from here on. -/
def Rests (env : Nat → PassEnv) (node : Node) (addr : Block 16) (k : Nat) (n : Node) : Prop :=
  ∃ a, slotFor n.attempts addr = some a ∧
    ∀ l e, k ≤ l → node.storage.packetListHead[l]? = some e → e.originalDest.addr = addr →
      ¬ a.Due (env l).attempt.now

theorem Steady.rests (steady : Steady env node) (hk : node.storage.packetListHead[k]? = some e)
    {a : ForwardingAttempt} (slot : slotFor n.attempts e.originalDest.addr = some a)
    (written : a.lastAttemptTime = (env k).attempt.now) :
    Rests env node e.originalDest.addr (k + 1) n := by
  exact ⟨a, slot, fun l e' hl hl' hdest => steady.written hl hk hl' hdest.symm written⟩

theorem Rests.step (h : Rests env node addr k n) (hk : node.storage.packetListHead[k]? = some e)
    (hattempted : Attempted (env k).attempt n e.originalDest answer node') :
    Rests env node addr (k + 1) node' := by
  obtain ⟨a, slot, early⟩ := h
  refine ⟨a, ?_, fun l e' hl => early l e' (Nat.le_of_succ_le hl)⟩
  by_cases hdest : addr = e.originalDest.addr
  · have hearly := early k e (Nat.le_refl k) hk hdest.symm
    rw [hdest] at slot ⊢
    cases hattempted with
    | waits => exact slot
    | expired _ found due | retried _ found due =>
        cases slot.symm.trans found
        exact absurd due hearly
    | recorded absent | unrecorded absent => cases slot.symm.trans absent
  · rw [hattempted.slotFor_other hdest]
    exact slot

structure Recorded (env : Nat → PassEnv) (node : Node) (k : Nat) (n : Node) : Prop where
  free : freeSlots n.attempts = freeSlots node.attempts - (untrackedDests node k).card
  kept : ∀ addr, NoTrace node addr k → slotFor n.attempts addr = slotFor node.attempts addr
  rests : ∀ addr, ¬ NoTrace node addr k → Rests env node addr k n

theorem recorded_zero (env : Nat → PassEnv) (node : Node) : Recorded env node 0 node where
  free := rfl
  kept := fun _ _ => rfl
  rests := fun _ h => absurd (fun j _ hj => absurd hj (Nat.not_lt_zero j)) h

theorem Recorded.left (h : Recorded env node k n) (calm : Calm env node)
    (hk : node.storage.packetListHead[k]? = some e) {a : ForwardingAttempt}
    (slot : slotFor n.attempts e.originalDest.addr = some a) (due : a.Due (env k).attempt.now) :
    NoTrace node e.originalDest.addr k ∧ a.retryCount < maxForwardingRetries := by
  by_cases alone : NoTrace node e.originalDest.addr k
  · exact ⟨alone, calm.left k e a hk (h.kept _ alone ▸ slot) due⟩
  · obtain ⟨a', slot', early⟩ := h.rests _ alone
    cases slot.symm.trans slot'
    exact absurd due (early k e (Nat.le_refl k) hk rfl)

/-- A destination without a slot has left no trace, so it had none at the beginning. -/
theorem Recorded.absent (h : Recorded env node k n) (absent : slotFor n.attempts addr = none) :
    NoTrace node addr k ∧ slotFor node.attempts addr = none := by
  have alone : NoTrace node addr k := by
    by_contra alone
    obtain ⟨a, slot, -⟩ := h.rests _ alone
    cases absent.symm.trans slot
  exact ⟨alone, h.kept _ alone ▸ absent⟩

theorem untrackedDests_found (hk : node.storage.packetListHead[k]? = some e)
    (hn : attemptAll env 0 (node.storage.packetListHead.take k) node = .ok n)
    {a : ForwardingAttempt} (slot : slotFor n.attempts e.originalDest.addr = some a) :
    untrackedDests node (k + 1) = untrackedDests node k := by
  rw [untrackedDests_succ hk]
  split
  · rename_i absent
    refine Finset.insert_eq_self.mpr (mem_untrackedDests.mpr ⟨absent, fun first => ?_⟩)
    have hle := Nat.le_of_lt (List.getElem?_eq_some_iff.mp hk).1
    rw [slotFor_unvisited hle first hn] at slot
    cases absent.symm.trans slot
  · rfl

theorem Recorded.free_step (h : Recorded env node k n) (calm : Calm env node)
    (hk : node.storage.packetListHead[k]? = some e)
    (hn : attemptAll env 0 (node.storage.packetListHead.take k) node = .ok n)
    (hattempted : Attempted (env k).attempt n e.originalDest answer node') :
    freeSlots node'.attempts =
      freeSlots node.attempts - (untrackedDests node (k + 1)).card := by
  cases hattempted with
  | waits slot => rw [untrackedDests_found hk hn slot, h.free]
  | expired _ slot due used =>
      exact absurd used (Nat.not_le.mpr (h.left calm hk slot due).2)
  | retried index slot =>
      rw [untrackedDests_found hk hn slot, ← h.free]
      exact freeSlots_retried index slot _ _
  | recorded absent free =>
      obtain ⟨alone, untracked⟩ := h.absent absent
      have hcount := freeSlots_recorded free e.originalDest (env k).attempt.now 1
      -- had the destination come before, the table would be full by now
      have hnew : e.originalDest.addr ∉ untrackedDests node k := by
        intro hmem
        refine (mem_untrackedDests.mp hmem).2 fun j e' hj hj' hdest => ?_
        have hfull := (alone j e' hj hj' hdest).2
        have hmono := card_untrackedDests_mono node (Nat.le_of_lt hj)
        rw [h.free] at hcount
        omega
      rw [untrackedDests_succ hk, if_pos untracked, Finset.card_insert_of_notMem hnew]
      rw [h.free] at hcount
      dsimp only
      omega
  | unrecorded absent full =>
      have hzero := h.free
      rw [freeSlot_eq_none_iff.mp full] at hzero ⊢
      have hmono := card_untrackedDests_mono node (Nat.le_add_right k 1)
      omega

theorem Recorded.slot_step (h : Recorded env node k n) (calm : Calm env node)
    (hk : node.storage.packetListHead[k]? = some e)
    (hattempted : Attempted (env k).attempt n e.originalDest answer node')
    (alone : NoTrace node e.originalDest.addr k) :
    (node' = n ∧ NoTrace node e.originalDest.addr (k + 1)) ∨
      (Rests env node e.originalDest.addr (k + 1) node' ∧
        ¬ NoTrace node e.originalDest.addr (k + 1)) := by
  have kept := h.kept _ alone
  have tracked {a : ForwardingAttempt} (slot : slotFor n.attempts e.originalDest.addr = some a) :
      ¬ NoTrace node e.originalDest.addr (k + 1) := by
    intro later
    have absent := (later k e (Nat.lt_succ_self k) hk rfl).1
    cases (kept ▸ slot).symm.trans absent
  cases hattempted with
  | waits slot early =>
      refine .inr ⟨⟨_, slot, fun l e' hl hl' hdest => ?_⟩, tracked slot⟩
      exact calm.steady.early k l e e' _ hl hk hl' hdest.symm (kept ▸ slot) early
  | expired _ slot due used => exact absurd used (Nat.not_le.mpr (h.left calm hk slot due).2)
  | retried index slot =>
      exact .inr ⟨calm.steady.rests hk (slotFor_retried index slot _ _) rfl, tracked slot⟩
  | recorded absent free =>
      refine .inr ⟨calm.steady.rests hk (slotFor_recorded absent free _ _) rfl, fun later => ?_⟩
      have hcount := freeSlots_recorded free e.originalDest (env k).attempt.now 1
      have hfull := (later k e (Nat.lt_succ_self k) hk rfl).2
      rw [h.free] at hcount
      omega
  | unrecorded absent full =>
      have hzero := h.free
      rw [freeSlot_eq_none_iff.mp full] at hzero
      exact .inl ⟨rfl, (noTrace_succ hk).mpr ⟨alone, fun _ => ⟨kept ▸ absent, by omega⟩⟩⟩

theorem Recorded.step (h : Recorded env node k n) (calm : Calm env node)
    (hk : node.storage.packetListHead[k]? = some e)
    (hn : attemptAll env 0 (node.storage.packetListHead.take k) node = .ok n)
    (hattempted : Attempted (env k).attempt n e.originalDest answer node') :
    Recorded env node (k + 1) node' := by
  refine ⟨h.free_step calm hk hn hattempted, fun addr alone => ?_, fun addr trace => ?_⟩
  · obtain ⟨before, -⟩ := (noTrace_succ hk).mp alone
    by_cases hdest : addr = e.originalDest.addr
    · subst hdest
      obtain ⟨rfl, -⟩ | ⟨-, trace⟩ := h.slot_step calm hk hattempted before
      · exact h.kept _ before
      · exact absurd alone trace
    · rw [hattempted.slotFor_other hdest]
      exact h.kept _ before
  · by_cases before : NoTrace node addr k
    · have hdest : e.originalDest.addr = addr := by
        by_contra hdest
        exact trace ((noTrace_succ hk).mpr ⟨before, fun heq => absurd heq hdest⟩)
      subst hdest
      obtain ⟨-, alone⟩ | ⟨rests, -⟩ := h.slot_step calm hk hattempted before
      · exact absurd alone trace
      · exact rests
    · exact (h.rests _ before).step hk hattempted

theorem recorded_at (calm : Calm env node) (hle : k ≤ node.storage.packetListHead.length)
    (hn : attemptAll env 0 (node.storage.packetListHead.take k) node = .ok n) :
    Recorded env node k n := by
  induction k generalizing n with
  | zero =>
      cases hn
      exact recorded_zero env node
  | succ k ih =>
      have hk := List.getElem?_eq_getElem hle
      obtain ⟨m, answer, hm, hattempt⟩ := attemptAll_take_succ hk hn
      exact (ih (Nat.le_of_lt hle) hm).step calm hk hm (shouldAttemptForward_attempted hattempt)

/-- In a calm pass the table at the beginning says which attempts are granted. -/
theorem Calm.granted_iff (calm : Calm env node) : Granted env node k e ↔ Served env node k e := by
  by_cases hk : node.storage.packetListHead[k]? = some e
  case neg => exact ⟨fun h => absurd h.1 hk, fun h => absurd h.stored hk⟩
  obtain ⟨n, hn⟩ := attemptAll_returns env 0 (node.storage.packetListHead.take k) node
  have h := recorded_at calm (Nat.le_of_lt (List.getElem?_eq_some_iff.mp hk).1) hn
  rw [LwipDtn.granted_iff hk hn]
  by_cases alone : NoTrace node e.originalDest.addr k
  · rw [h.kept _ alone]
    exact ⟨fun due => ⟨hk, due, alone⟩, Served.due⟩
  · refine ⟨fun due => ?_, fun served => absurd served.alone alone⟩
    obtain ⟨a, slot, early⟩ := h.rests _ alone
    exact absurd (due a slot).1 (early k e (Nat.le_refl k) hk rfl)

theorem Calm.granted_eq (calm : Calm env node) : Granted env node = Served env node := by
  funext k e
  exact propext calm.granted_iff

end Calm

end LwipDtn
