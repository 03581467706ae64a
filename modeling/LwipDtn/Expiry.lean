import LwipDtn.PassVisits
import LwipDtn.Tracked

/-!
What the retry count of a destination says about its packets. Every stored packet is
counted with the times it has been handed over since it was stored. The count in the slot
of a destination is about the first stored packet for it, as long as every attempt for
that packet hands it over and no message takes it out and leaves the slot.
-/

namespace LwipDtn
open Outcome Bytes BoundedFifo Runs Slots

/-- Packets with the number of times they have been handed over. -/
abbrev Tally := List (StoredPacketEntry × Nat)

structure SendTrace where
  node : Node
  tally : Tally
  expired : Tally

def departed (tally : Tally) (after : List StoredPacketEntry) : Option Nat :=
  (List.range tally.length).find? fun i => (tally.map Prod.fst).eraseIdx i = after

/-- The tally after an incoming packet: a packet has gone, or the new ones have not been
handed over. -/
def carried (tally : Tally) (after : List StoredPacketEntry) : Tally :=
  match departed tally after with
  | some i => tally.eraseIdx i
  | none => tally ++ (after.drop tally.length).map fun e => (e, 0)

/-- The tally and the expired packets after a visit: a packet has expired, or the one
that is looked at has been handed over as often as the visit says. -/
def Visit.count (v : Visit) (r : Tally × Tally) : Tally × Tally :=
  match departed r.1 v.after.storage.packetListHead with
  | some i => (r.1.eraseIdx i, r.2 ++ r.1[i]?.toList)
  | none => (r.1.modify v.index fun x => (x.1, x.2 + handovers v.sent), r.2)

def SendTrace.next (cfg : Config) (text : AddrText) (s : SendTrace) : NodeEvent → Run SendTrace
  | .incoming env p => do
      let (node, _) ← dtnControllerProcessIncoming cfg text env s.node p
      return ⟨node, carried s.tally node.storage.packetListHead, s.expired⟩
  | .pass env => do
      let (node, visits) ← passVisits cfg env s.node
      let r := visits.foldl (fun r v => v.count r) (s.tally, s.expired)
      return ⟨node, r.1, r.2⟩

/-- A node from its creation on, with its tally. -/
def sendSystem (cfg : Config) (text : AddrText) : System SendTrace NodeEvent where
  start s := s.node.Created ∧ s.tally = s.node.storage.packetListHead.map (fun e => (e, 0)) ∧
    s.expired = []
  step s event s' := s.next cfg text event = .ok s'

/-- The only earlier packet for the destination is one whose retries are used up when the
pass gets to it. -/
def Spent (env : Nat → PassEnv) (node : Node) (earlier : List StoredPacketEntry)
    (addr : Block 16) : Prop :=
  (earlier.countP fun e => e.originalDest.addr = addr) = 1 ∧
    ∃ j e a, earlier[j]? = some e ∧ e.originalDest.addr = addr ∧
      slotFor node.attempts addr = some a ∧ a.Due (env j).attempt.now ∧
      maxForwardingRetries ≤ a.retryCount

/-- The pass attempts the packet as the first one for its destination. -/
def GoesFirst (env : Nat → PassEnv) (node : Node) (k : Nat) (e : StoredPacketEntry) : Prop :=
  ((∀ e' ∈ node.storage.packetListHead.take k, e'.originalDest.addr ≠ e.originalDest.addr) ∧
    ∀ a, slotFor node.attempts e.originalDest.addr = some a →
      a.Due (env k).attempt.now ∧ a.retryCount < maxForwardingRetries) ∨
  Spent env node (node.storage.packetListHead.take k) e.originalDest.addr

/-- Every packet that is attempted as the first for its destination is handed over, and a
received-message takes out no such packet of a tracked destination that it does not
quote. -/
def CountsHandovers (cfg : Config) (node : Node) : NodeEvent → Prop
  | .pass env => Steady env node ∧ ∀ k e, node.storage.packetListHead[k]? = some e →
      GoesFirst env node k e → HandsOver cfg (env k) e
  | .incoming env p => nexthOf p.payload = ip6NexthIcmp6 →
      ∀ q, (pbufClone env.icmpClone p).bind (Pbuf.removeHeader · ip6Hlen) = some q →
        byteAt q.mem 0 = .ok icmp6TypeDtnPckReceived →
        ∀ a ∈ node.attempts, a.isValid = true → a.destination.addr.1 ≠ (q.mem.drop 41).take 16 →
          ∀ e, node.storage.packetListHead.find? (isForDest a.destination) = some e →
            srcOf e.p.bytes ≠ (q.mem.drop 25).take 16

section Tallies

variable {tally t t' : Tally} {after : List StoredPacketEntry} {x : StoredPacketEntry × Nat}
  {addr : Block 16} {i : Nat}

def leadFor (tally : Tally) (addr : Block 16) : Option (StoredPacketEntry × Nat) :=
  tally.find? fun x => x.1.originalDest.addr = addr

theorem leadFor_append : leadFor (t ++ t') addr = (leadFor t addr).or (leadFor t' addr) :=
  List.find?_append

theorem leadFor_self (h : x.1.originalDest.addr = addr) : leadFor (x :: t) addr = some x :=
  List.find?_cons_of_pos (by simpa using h)

theorem leadFor_other (h : x.1.originalDest.addr ≠ addr) :
    leadFor (x :: t) addr = leadFor t addr :=
  List.find?_cons_of_neg (by simpa using h)

theorem leadFor_first {done : Tally} (leads : leadFor done addr = none)
    (h : x.1.originalDest.addr = addr) : leadFor (done ++ x :: t) addr = some x := by
  rw [leadFor_append, leads, leadFor_self h]
  rfl

theorem leadFor_eq_none : leadFor t addr = none ↔ ∀ x ∈ t, x.1.originalDest.addr ≠ addr := by
  simp [leadFor]

theorem departed_some (h : departed tally after = some i) :
    i < tally.length ∧ (tally.map Prod.fst).eraseIdx i = after ∧
      ∀ j < i, (tally.map Prod.fst).eraseIdx j ≠ after := by
  obtain ⟨hholds, hmem, hbefore⟩ := List.find?_range_eq_some.mp h
  exact ⟨List.mem_range.mp hmem, by simpa using hholds,
    fun j hj => by simpa using hbefore j hj⟩

theorem departed_none (h : tally.length ≤ after.length) : departed tally after = none := by
  rw [departed, List.find?_eq_none]
  intro i hi heq
  have hlen := congrArg List.length (of_decide_eq_true heq)
  rw [List.length_eraseIdx_of_lt (by simpa using hi), List.length_map] at hlen
  have := List.mem_range.mp hi
  omega

theorem departed_of_takes {e : StoredPacketEntry} (h : Takes (tally.map Prod.fst) e after) :
    ∃ i n, departed tally after = some i ∧ tally[i]? = some (e, n) := by
  obtain ⟨j, hj, herase⟩ := h.eraseIdx
  cases hgone : departed tally after with
  | none =>
      have hlt : j < tally.length := by
        have := (List.getElem?_eq_some_iff.mp hj).1
        rwa [List.length_map] at this
      have := List.find?_eq_none.mp hgone j (List.mem_range.mpr hlt)
      exact absurd (decide_eq_true herase) this
  | some i =>
      obtain ⟨hlt, hi, -⟩ := departed_some hgone
      have hentry := List.getElem?_eq_getElem hlt
      have hfst : (tally.map Prod.fst)[i]? = some tally[i].1 := by
        rw [List.getElem?_map, hentry]
        rfl
      have := eraseIdx_unique hfst hj (hi.trans herase.symm)
      exact ⟨i, tally[i].2, rfl, by rw [hentry, ← this]⟩

theorem departed_lead {done todo : Tally} (leads : leadFor done x.1.originalDest.addr = none) :
    departed (done ++ x :: todo) ((done ++ todo).map Prod.fst) = some done.length := by
  have htakes : Takes ((done ++ x :: todo).map Prod.fst) x.1 ((done ++ todo).map Prod.fst) :=
    ⟨done.map Prod.fst, todo.map Prod.fst, by simp, by simp⟩
  obtain ⟨i, n, hgone, hi⟩ := departed_of_takes htakes
  obtain ⟨-, -, hleast⟩ := departed_some hgone
  rw [hgone]
  congr 1
  apply Nat.le_antisymm
  · refine Nat.not_lt.mp fun hlt => hleast _ hlt ?_
    simp [List.eraseIdx_append]
  · refine Nat.not_lt.mp fun hlt => ?_
    rw [List.getElem?_append_left hlt] at hi
    exact leadFor_eq_none.mp leads _ (List.mem_of_getElem? hi) rfl

end Tallies

/-- The count in every slot is covered by the first packet for its destination. -/
structure Backed (node : Node) (tally : Tally) : Prop where
  listed : node.storage.packetListHead = tally.map Prod.fst
  distinct : (tracked node.attempts).Nodup
  backed : ∀ addr a, slotFor node.attempts addr = some a →
    ∃ x, leadFor tally addr = some x ∧ a.retryCount ≤ x.2

/-- In the middle of a pass: `pre` are the packets that it has looked at, `done` those of
them that are still stored, and `todo` the packets to come. -/
structure InPass (env : Nat → PassEnv) (start : Node) (pre : List StoredPacketEntry)
    (done todo : Tally) (node : Node) : Prop extends Backed node (done ++ todo) where
  began : start.storage.packetListHead = pre ++ todo.map Prod.fst
  passed : (done.map Prod.fst).Sublist pre
  fresh : ∀ addr, (∀ e ∈ pre, e.originalDest.addr ≠ addr) →
    slotFor node.attempts addr = slotFor start.attempts addr
  early : ∀ e ∈ pre, ∀ a, slotFor node.attempts e.originalDest.addr = some a →
    ∀ l e', pre.length ≤ l → start.storage.packetListHead[l]? = some e' →
      e'.originalDest.addr = e.originalDest.addr → ¬ a.Due (env l).attempt.now
  handed : ∀ addr x, slotFor node.attempts addr = none → leadFor done addr = some x → 1 ≤ x.2
  gone : ∀ addr, leadFor done addr = none →
    (∀ e ∈ pre, e.originalDest.addr ≠ addr) ∨ Spent env start pre addr

section Pass

variable {cfg : Config} {env : Nat → PassEnv} {start node node' : Node}
  {pre : List StoredPacketEntry} {done todo : Tally} {e : StoredPacketEntry} {n : Nat}
  {answer : Bool} {sent : List Effect}

theorem Backed.inPass {tally : Tally} (h : Backed node tally) :
    InPass env node [] [] tally node where
  toBacked := h
  began := h.listed
  passed := .refl _
  fresh _ _ := rfl
  early := nofun
  handed := nofun
  gone _ _ := .inl nofun

theorem InPass.lead_none (h : InPass env start pre done todo node) {addr : Block 16}
    (unseen : ∀ e ∈ pre, e.originalDest.addr ≠ addr) : leadFor done addr = none := by
  refine leadFor_eq_none.mpr fun x hx => unseen x.1 ?_
  exact h.passed.subset (List.mem_map_of_mem hx)

theorem InPass.at_turn (h : InPass env start pre done ((e, n) :: todo) node) :
    start.storage.packetListHead[pre.length]? = some e := by
  rw [h.began]
  simp

theorem InPass.first_of_due (h : InPass env start pre done ((e, n) :: todo) node)
    {a : ForwardingAttempt} (slot : slotFor node.attempts e.originalDest.addr = some a)
    (due : a.Due (env pre.length).attempt.now) :
    ∀ e' ∈ pre, e'.originalDest.addr ≠ e.originalDest.addr := by
  intro e' he' hsame
  exact h.early e' he' a (hsame ▸ slot) pre.length e (Nat.le_refl _) h.at_turn hsame.symm due

theorem InPass.goesFirst (h : InPass env start pre done ((e, n) :: todo) node)
    (granted : ∀ a, slotFor node.attempts e.originalDest.addr = some a →
      a.Due (env pre.length).attempt.now ∧ a.retryCount < maxForwardingRetries)
    (leads : leadFor done e.originalDest.addr = none) : GoesFirst env start pre.length e := by
  have htake : start.storage.packetListHead.take pre.length = pre := by
    rw [h.began]
    simp
  rw [GoesFirst, htake]
  obtain hnone | hspent := h.gone _ leads
  · exact .inl ⟨hnone, fun a ha => granted a (h.fresh _ hnone ▸ ha)⟩
  · exact .inr hspent

/-- One packet further: only its destination has to be looked at. -/
theorem InPass.next {done' : Tally} (h : InPass env start pre done ((e, n) :: todo) node)
    (hattempted : Attempted (env pre.length).attempt node e.originalDest answer node')
    (distinct : (tracked node'.attempts).Nodup)
    (listed : node'.storage.packetListHead = (done' ++ todo).map Prod.fst)
    (passed : (done'.map Prod.fst).Sublist (pre ++ [e]))
    (others : ∀ addr, addr ≠ e.originalDest.addr → leadFor done' addr = leadFor done addr)
    (early : ∀ a, slotFor node'.attempts e.originalDest.addr = some a →
      ∀ l e', pre.length < l → start.storage.packetListHead[l]? = some e' →
        e'.originalDest.addr = e.originalDest.addr → ¬ a.Due (env l).attempt.now)
    (backed : ∀ a, slotFor node'.attempts e.originalDest.addr = some a →
      ∃ x, leadFor (done' ++ todo) e.originalDest.addr = some x ∧ a.retryCount ≤ x.2)
    (handed : ∀ x, slotFor node'.attempts e.originalDest.addr = none →
      leadFor done' e.originalDest.addr = some x → 1 ≤ x.2)
    (gone : leadFor done' e.originalDest.addr = none →
      Spent env start (pre ++ [e]) e.originalDest.addr) :
    InPass env start (pre ++ [e]) done' todo node' where
  listed := listed
  distinct := distinct
  backed addr a ha := by
    by_cases hdest : addr = e.originalDest.addr
    · subst hdest
      exact backed a ha
    · rw [hattempted.slotFor_other hdest] at ha
      obtain ⟨x, hx, hle⟩ := h.backed addr a ha
      rw [leadFor_append, leadFor_other (Ne.symm hdest)] at hx
      exact ⟨x, by rw [leadFor_append, others addr hdest, hx], hle⟩
  began := by
    rw [h.began]
    simp
  passed := passed
  fresh addr hnone := by
    have hdest : addr ≠ e.originalDest.addr := (hnone e (by simp)).symm
    rw [hattempted.slotFor_other hdest]
    exact h.fresh addr fun e' he' => hnone e' (List.mem_append_left _ he')
  early e' he' a ha l e'' hl hl' hsame := by
    rw [List.length_append] at hl
    by_cases hdest : e'.originalDest.addr = e.originalDest.addr
    · exact early a (hdest ▸ ha) l e'' hl hl' (hsame.trans hdest)
    · have hpre : e' ∈ pre := by
        rcases List.mem_append.mp he' with he' | he'
        · exact he'
        · exact absurd (by rw [List.mem_singleton.mp he']) hdest
      rw [hattempted.slotFor_other hdest] at ha
      exact h.early e' hpre a ha l e'' (Nat.le_of_succ_le hl) hl' hsame
  handed addr x hslot hx := by
    by_cases hdest : addr = e.originalDest.addr
    · subst hdest
      exact handed x hslot hx
    · rw [hattempted.slotFor_other hdest] at hslot
      exact h.handed addr x hslot (others addr hdest ▸ hx)
  gone addr hnone := by
    by_cases hdest : addr = e.originalDest.addr
    · subst hdest
      exact .inr (gone hnone)
    · refine (h.gone addr (others addr hdest ▸ hnone)).imp (fun hpre e' he' => ?_)
        (fun hspent => ?_)
      · rcases List.mem_append.mp he' with he' | he'
        · exact hpre e' he'
        · rw [List.mem_singleton.mp he']
          exact Ne.symm hdest
      · obtain ⟨hcount, j, e', a, hj, hfacts⟩ := hspent
        refine ⟨by simpa [Ne.symm hdest] using hcount, j, e', a, ?_, hfacts⟩
        exact List.getElem?_append_left (List.getElem?_eq_some_iff.mp hj).1 ▸ hj

theorem InPass.stays {m : Nat} (h : InPass env start pre done ((e, n) :: todo) node)
    (hattempted : Attempted (env pre.length).attempt node e.originalDest answer node')
    (same : node'.storage = node.storage) (distinct : (tracked node'.attempts).Nodup)
    (early : ∀ a, slotFor node'.attempts e.originalDest.addr = some a →
      ∀ l e', pre.length < l → start.storage.packetListHead[l]? = some e' →
        e'.originalDest.addr = e.originalDest.addr → ¬ a.Due (env l).attempt.now)
    (backed : ∀ a, slotFor node'.attempts e.originalDest.addr = some a →
      ∃ x, leadFor (done ++ (e, m) :: todo) e.originalDest.addr = some x ∧ a.retryCount ≤ x.2)
    (handed : ∀ x, slotFor node'.attempts e.originalDest.addr = none →
      leadFor (done ++ [(e, m)]) e.originalDest.addr = some x → 1 ≤ x.2) :
    InPass env start (pre ++ [e]) (done ++ [(e, m)]) todo node' := by
  refine h.next hattempted distinct ?_ ?_ (fun addr hdest => ?_) early ?_ handed (fun hnone => ?_)
  · rw [same, h.listed]
    simp
  · rw [List.map_append]
    exact h.passed.append (.refl _)
  · rw [leadFor_append, leadFor_other (Ne.symm hdest)]
    exact Option.or_none
  · rw [List.append_assoc]
    exact backed
  · rw [leadFor_append, leadFor_self rfl, Option.or_eq_none_iff] at hnone
    cases hnone.2

theorem InPass.writes {m : Nat} {a : ForwardingAttempt}
    (h : InPass env start pre done ((e, n) :: todo) node) (steady : Steady env start)
    (hattempted : Attempted (env pre.length).attempt node e.originalDest answer node')
    (same : node'.storage = node.storage) (distinct : (tracked node'.attempts).Nodup)
    (slot : slotFor node'.attempts e.originalDest.addr = some a)
    (written : a.lastAttemptTime = (env pre.length).attempt.now)
    (backed : ∃ x, leadFor (done ++ (e, m) :: todo) e.originalDest.addr = some x ∧
      a.retryCount ≤ x.2) :
    InPass env start (pre ++ [e]) (done ++ [(e, m)]) todo node' := by
  refine h.stays hattempted same distinct ?_ ?_ ?_
  · intro b hb l e' hl hl' hsame
    cases slot.symm.trans hb
    exact steady.written hl h.at_turn hl' hsame.symm written
  · intro b hb
    cases slot.symm.trans hb
    exact backed
  · intro x hnone
    cases slot.symm.trans hnone

theorem InPass.given_up (h : InPass env start pre done ((e, n) :: todo) node)
    (leads : leadFor done e.originalDest.addr = none) {removed : Bool} {s : StorageFunction}
    (gone : GivesUp removed e.originalDest node.storage s) :
    s.packetListHead = (done ++ todo).map Prod.fst := by
  have hlead : TakesFirst (fun e' => isForDest e.originalDest e' = true)
      node.storage.packetListHead e ((done ++ todo).map Prod.fst) := by
    refine ⟨done.map Prod.fst, todo.map Prod.fst, by rw [h.listed]; simp, by simp,
      isForDest_iff.mpr rfl, fun e' he' holds => ?_⟩
    obtain ⟨x, hx, rfl⟩ := List.mem_map.mp he'
    exact leadFor_eq_none.mp leads x hx (isForDest_iff.mp holds)
  obtain ⟨-, hnone⟩ | ⟨e', rest, hs, htake⟩ := gone
  · have := hnone e hlead.mem
    rw [hlead.holds] at this
    cases this
  · rw [hs]
    exact (htake.unique hlead).2

theorem InPass.expires (h : InPass env start pre done ((e, n) :: todo) node)
    {a : ForwardingAttempt}
    (hattempted : Attempted (env pre.length).attempt node e.originalDest answer node')
    (distinct : (tracked node'.attempts).Nodup)
    (slot : slotFor node.attempts e.originalDest.addr = some a)
    (due : a.Due (env pre.length).attempt.now) (used : maxForwardingRetries ≤ a.retryCount)
    (vacant : slotFor node'.attempts e.originalDest.addr = none)
    (listed : node'.storage.packetListHead = (done ++ todo).map Prod.fst) :
    InPass env start (pre ++ [e]) done todo node' := by
  have hfirst := h.first_of_due slot due
  refine h.next hattempted distinct listed (h.passed.trans (List.sublist_append_left _ _))
    (fun _ _ => rfl) ?_ ?_ (fun x _ hx => ?_) (fun _ => ?_)
  · rw [vacant]
    nofun
  · rw [vacant]
    nofun
  · cases (h.lead_none hfirst).symm.trans hx
  · refine ⟨?_, pre.length, e, a, by simp, rfl, h.fresh _ hfirst ▸ slot, due, used⟩
    rw [List.countP_append, List.countP_eq_zero.mpr (by simpa using hfirst)]
    simp

theorem InPass.count_le (h : InPass env start pre done ((e, n) :: todo) node)
    {a : ForwardingAttempt} (slot : slotFor node.attempts e.originalDest.addr = some a)
    (leads : leadFor done e.originalDest.addr = none) : a.retryCount ≤ n := by
  obtain ⟨x, hx, hle⟩ := h.backed _ _ slot
  rw [leadFor_first leads rfl] at hx
  cases hx
  exact hle

theorem InPass.stays_early (h : InPass env start pre done ((e, n) :: todo) node)
    (steady : Steady env start) {a : ForwardingAttempt}
    (slot : slotFor node.attempts e.originalDest.addr = some a)
    (early : ¬ a.Due (env pre.length).attempt.now) {l : Nat} {e' : StoredPacketEntry}
    (later : pre.length < l) (stored : start.storage.packetListHead[l]? = some e')
    (same : e'.originalDest.addr = e.originalDest.addr) : ¬ a.Due (env l).attempt.now := by
  -- the slot is the one from before the pass, or an earlier packet has seen it
  by_cases hseen : ∀ e' ∈ pre, e'.originalDest.addr ≠ e.originalDest.addr
  · exact steady.early _ l e e' _ later h.at_turn stored same.symm (h.fresh _ hseen ▸ slot) early
  · obtain ⟨e'', he'', hdest⟩ : ∃ e'' ∈ pre, e''.originalDest.addr = e.originalDest.addr := by
      simpa using hseen
    exact h.early e'' he'' a (hdest ▸ slot) l e' (Nat.le_of_lt later) stored (same.trans hdest.symm)

/-- Without a slot for the destination, its first packet has been handed over: an earlier
packet found the table full, or it is the one that is looked at. -/
theorem InPass.first_handed (h : InPass env start pre done ((e, n) :: todo) node)
    (absent : slotFor node.attempts e.originalDest.addr = none) {m : Nat}
    (once : leadFor done e.originalDest.addr = none → 1 ≤ m) (rest : Tally) :
    ∃ x, leadFor (done ++ (e, m) :: rest) e.originalDest.addr = some x ∧ 1 ≤ x.2 := by
  cases hlead : leadFor done e.originalDest.addr with
  | none => exact ⟨_, leadFor_first hlead rfl, once hlead⟩
  | some x =>
      refine ⟨x, ?_, h.handed _ x absent hlead⟩
      rw [leadFor_append, hlead]
      rfl

/-- One visit: the packet that is looked at stays with its handovers counted, or it has
been handed over often enough and expires. -/
theorem InPass.visit (h : InPass env start pre done ((e, n) :: todo) node)
    (steady : Steady env start)
    (hands : GoesFirst env start pre.length e → HandsOver cfg (env pre.length) e)
    (hattempt : shouldAttemptForward (env pre.length).attempt node e.originalDest =
      .ok (answer, node'))
    (hsent : visitEffects cfg (env pre.length) answer node' e = .ok sent) :
    (node'.storage = node.storage ∧
      InPass env start (pre ++ [e]) (done ++ [(e, n + handovers sent)]) todo node') ∨
    (leadFor done e.originalDest.addr = none ∧ maxForwardingRetries ≤ n ∧
      InPass env start (pre ++ [e]) done todo node') := by
  have hattempted := shouldAttemptForward_attempted hattempt
  have distinct := shouldAttemptForward_nodup h.distinct hattempt
  -- a granted attempt for the first packet hands it over
  have honce : answer = true → leadFor done e.originalDest.addr = none →
      n + handovers sent = n + 1 := by
    rintro rfl leads
    have hfirst := h.goesFirst (hattempted.answer_iff.mp rfl) leads
    rw [(forwardEntry_handovers hsent).1.mpr (hands hfirst)]
  have hhanded (granted : answer = true) (leads : leadFor done e.originalDest.addr = none) :
      1 ≤ n + handovers sent := by
    rw [honce granted leads]
    exact Nat.le_add_left _ _
  cases hattempted with
  | waits slot early =>
      cases hsent
      refine .inl ⟨rfl, h.stays (.waits slot early) rfl distinct (fun a ha l e' hl hl' hsame => ?_)
        (fun a ha => h.backed _ a ha) (fun x hnone => ?_)⟩
      · cases slot.symm.trans ha
        exact h.stays_early steady slot early hl hl' hsame
      · cases slot.symm.trans hnone
  | expired index slot due used gone =>
      have leads := h.lead_none (h.first_of_due slot due)
      exact .inr ⟨leads, Nat.le_trans used (h.count_le slot leads),
        h.expires (.expired index slot due used gone) distinct slot due used
          (slotFor_invalidate h.distinct index) (h.given_up leads gone)⟩
  | @retried i a index slot due left =>
      have leads := h.lead_none (h.first_of_due slot due)
      have hslot := slotFor_retried index slot (env pre.length).attempt.now
        (a.retryCount + 1)
      refine .inl ⟨rfl, h.writes steady (.retried index slot due left) rfl distinct hslot rfl
        ⟨_, leadFor_first leads rfl, ?_⟩⟩
      rw [honce rfl leads]
      exact Nat.succ_le_succ (h.count_le slot leads)
  | recorded absent free =>
      have hslot := slotFor_recorded absent free (env pre.length).attempt.now 1
      exact .inl ⟨rfl, h.writes steady (.recorded absent free) rfl distinct hslot rfl
        (h.first_handed absent (hhanded rfl) todo)⟩
  | unrecorded absent full =>
      refine .inl ⟨rfl, h.stays (.unrecorded absent full) rfl distinct ?_ ?_ ?_⟩
      · rw [absent]
        nofun
      · rw [absent]
        nofun
      · intro x _ hx
        obtain ⟨y, hy, hle⟩ := h.first_handed absent (hhanded rfl) []
        cases hx.symm.trans hy
        exact hle

theorem count_stays {expired : Tally}
    (listed : node'.storage.packetListHead = (done ++ (e, n) :: todo).map Prod.fst) :
    Visit.count ⟨done.length, e, node', sent⟩ (done ++ (e, n) :: todo, expired) =
      (done ++ [(e, n + handovers sent)] ++ todo, expired) := by
  have hmodify : (done ++ (e, n) :: todo).modify done.length
      (fun x => (x.1, x.2 + handovers sent)) = done ++ [(e, n + handovers sent)] ++ todo := by
    simp [List.modify_eq_set_getElem?]
  simp only [Visit.count]
  have hlen := congrArg List.length listed
  rw [List.length_map] at hlen
  rw [departed_none (Nat.le_of_eq hlen.symm), hmodify]

theorem count_expires {expired : Tally} (leads : leadFor done e.originalDest.addr = none)
    (listed : node'.storage.packetListHead = (done ++ todo).map Prod.fst) :
    Visit.count ⟨done.length, e, node', sent⟩ (done ++ (e, n) :: todo, expired) =
      (done ++ todo, expired ++ [(e, n)]) := by
  simp only [Visit.count]
  rw [listed, departed_lead (x := (e, n)) leads]
  simp [List.eraseIdx_append]

theorem InPass.visits {visits : List Visit} {expired : Tally}
    (h : InPass env start pre done todo node) (steady : Steady env start)
    (hands : ∀ k e, start.storage.packetListHead[k]? = some e → GoesFirst env start k e →
      HandsOver cfg (env k) e)
    (hrun : visitEntries cfg env pre.length done.length (todo.map Prod.fst) node =
      .ok (node', visits))
    (hexpired : ∀ x ∈ expired, maxForwardingRetries ≤ x.2) :
    Backed node' (visits.foldl (fun r v => v.count r) (done ++ todo, expired)).1 ∧
      ∀ x ∈ (visits.foldl (fun r v => v.count r) (done ++ todo, expired)).2,
        maxForwardingRetries ≤ x.2 := by
  induction todo generalizing pre done node visits expired with
  | nil =>
      cases hrun
      exact ⟨h.toBacked, hexpired⟩
  | cons x todo ih =>
      obtain ⟨e, n⟩ := x
      simp only [List.map_cons, visitEntries, Run.bind_eq_ok] at hrun
      obtain ⟨⟨answer, m⟩, hattempt, sent, hsent, ⟨m', later⟩, hlater, hrun⟩ := hrun
      cases hrun
      rw [List.foldl_cons]
      have hvisit := h.visit steady (hands _ e h.at_turn) hattempt hsent
      obtain ⟨hsame, hnext⟩ | ⟨leads, hused, hnext⟩ := hvisit
      · rw [hsame, if_pos rfl] at hlater
        rw [count_stays (hsame ▸ h.listed)]
        refine ih hnext ?_ hexpired
        simpa using hlater
      · have hshort : m.storage.packetListHead.length ≠ node.storage.packetListHead.length := by
          rw [hnext.listed, h.listed]
          simp
        rw [if_neg hshort] at hlater
        rw [count_expires leads hnext.listed]
        refine ih hnext ?_ fun x hx => ?_
        · simpa using hlater
        · rcases List.mem_append.mp hx with hx | hx
          · exact hexpired x hx
          · rw [List.mem_singleton.mp hx]
            exact hused

end Pass

section Events

variable {cfg : Config} {text : AddrText} {node node' : Node} {tally : Tally}

theorem carried_same (h : node.storage.packetListHead = tally.map Prod.fst) :
    carried tally node.storage.packetListHead = tally := by
  have hlen : node.storage.packetListHead.length = tally.length := by rw [h, List.length_map]
  rw [carried, departed_none (Nat.le_of_eq hlen.symm), List.drop_eq_nil_of_le (Nat.le_of_eq hlen)]
  exact List.append_nil _

theorem carried_append (h : node.storage.packetListHead = tally.map Prod.fst)
    (e : StoredPacketEntry) :
    carried tally (node.storage.packetListHead ++ [e]) = tally ++ [(e, 0)] := by
  have hlen : node.storage.packetListHead.length = tally.length := by rw [h, List.length_map]
  rw [carried, departed_none (by rw [List.length_append, hlen]; exact Nat.le_add_right _ _), ← hlen,
    List.drop_left]
  rfl

theorem Backed.find_lead (h : Backed node tally) {dest : Ip6Addr} {x : StoredPacketEntry × Nat}
    (hx : leadFor tally dest.addr = some x) :
    node.storage.packetListHead.find? (isForDest dest) = some x.1 := by
  have htest : isForDest dest ∘ Prod.fst =
      fun x : StoredPacketEntry × Nat => decide (x.1.originalDest.addr = dest.addr) := by
    funext x
    rw [Bool.eq_iff_iff, decide_eq_true_eq]
    exact isForDest_iff
  rw [h.listed, List.find?_map, htest]
  exact congrArg (Option.map Prod.fst) hx

theorem Backed.offered (h : Backed node tally) {env : StoreEnv} {p : Pbuf} {dest : Ip6Addr}
    {r : Bool} {storage : StorageFunction}
    (hstore : dtnStorageStorePacket text env node.storage p dest = .ok (r, storage)) :
    Backed { node with storage := storage } (carried tally storage.packetListHead) := by
  obtain ⟨-, rfl | ⟨-, -, -, disk, -, rfl⟩⟩ |
    ⟨-, -, -, -, q, disk, -, -, -, rfl⟩ := store_cases hstore
  · rw [carried_same h.listed]
    exact h
  · dsimp only
    rw [carried_same h.listed]
    exact ⟨h.listed, h.distinct, h.backed⟩
  · dsimp only [StorageFunction.append]
    rw [carried_append h.listed]
    refine ⟨by simp [h.listed], h.distinct, fun addr a ha => ?_⟩
    obtain ⟨x, hx, hle⟩ := h.backed addr a ha
    exact ⟨x, by rw [leadFor_append, hx]; rfl, hle⟩

/-- A received-message takes the destination that it quotes out of the table and keeps
the first packets of the others. -/
theorem Backed.consumed (h : Backed node tally) {env : IncomingEnv} {p : Pbuf}
    (header : ip6Hlen ≤ p.len) (counts : CountsHandovers cfg node (.incoming env p))
    (hrun : consumeStatus env node p = .ok (some node')) :
    Backed node' (carried tally node'.storage.packetListHead) := by
  obtain ⟨hnexth, rfl | ⟨q, hq, hprocess⟩⟩ := consumeStatus_inv hrun
  · rw [carried_same h.listed]
    exact h
  obtain rfl | ⟨dest, htype, hdelete, hdest, hattempts⟩ := icmpv6Process_inv hprocess
  · rw [carried_same h.listed]
    exact h
  have hnodup := (@tracked_removeTracking _ ⟨dest, 0, noPadding⟩ h.distinct).1
  rw [← hattempts] at hnodup
  have hslots (addr : Block 16) (a : ForwardingAttempt)
      (ha : slotFor node'.attempts addr = some a) :
      addr ≠ dest ∧ slotFor node.attempts addr = some a := by
    rw [hattempts] at ha
    have hne : addr ≠ dest := by
      rintro rfl
      cases (@slotFor_removeTracking _ ⟨addr, 0, noPadding⟩ h.distinct).symm.trans ha
    rw [@slotFor_removeTracking_other _ ⟨dest, 0, noPadding⟩ _ hne] at ha
    exact ⟨hne, ha⟩
  obtain hs | ⟨e, rest, hs, htakes, hsrc⟩ :=
    deleteAcknowledged_src (statusCopy_bytes header hq) hdelete
  · have hlist : node'.storage.packetListHead = tally.map Prod.fst := by rw [hs, h.listed]
    rw [carried_same hlist]
    exact ⟨hlist, hnodup, fun addr a ha => h.backed addr a (hslots addr a ha).2⟩
  · have hlist : node'.storage.packetListHead = rest := by
      rw [hs]
      rfl
    rw [h.listed] at htakes
    obtain ⟨i, n, hgone, hi⟩ := departed_of_takes htakes
    rw [hlist, carried, hgone]
    refine ⟨?_, hnodup, fun addr a ha => ?_⟩
    · rw [hlist, ← (departed_some hgone).2.1, List.eraseIdx_map]
    · obtain ⟨hne, hslot⟩ := hslots addr a ha
      obtain ⟨x, hx, hle⟩ := h.backed addr a hslot
      refine ⟨x, find_eraseIdx hx hi ?_, hle⟩
      rintro rfl
      obtain ⟨hmem, htracks⟩ := slotOf_mem hslot
      obtain ⟨hvalid, rfl⟩ := ForwardingAttempt.tracks_eq_some.mp htracks
      have hquoted : a.destination.addr.1 ≠ (q.mem.drop 41).take 16 := by
        rw [← (readBlock_eq_ok.mp hdest).2]
        exact fun heq => hne (Subtype.ext heq)
      exact counts hnexth q hq htype a hmem hvalid hquoted e (h.find_lead hx) hsrc

theorem Backed.event {event : NodeEvent} {s s' : SendTrace} (h : Backed s.node s.tally)
    (hexpired : ∀ x ∈ s.expired, maxForwardingRetries ≤ x.2)
    (counts : CountsHandovers cfg s.node event) (hnext : s.next cfg text event = .ok s') :
    Backed s'.node s'.tally ∧ ∀ x ∈ s'.expired, maxForwardingRetries ≤ x.2 := by
  cases event with
  | pass env =>
      rw [SendTrace.next, Run.bind_eq_ok] at hnext
      obtain ⟨⟨node, visits⟩, hvisits, hnext⟩ := hnext
      cases hnext
      rw [passVisits, h.listed] at hvisits
      exact h.inPass.visits counts.1 counts.2 hvisits hexpired
  | incoming env p =>
      rw [SendTrace.next, Run.bind_eq_ok] at hnext
      obtain ⟨⟨node, effects⟩, hrun, hnext⟩ := hnext
      cases hnext
      refine ⟨?_, hexpired⟩
      cases processIncoming_cases hrun with
      | dropped | delivered | forwarded | relayed =>
          dsimp only
          rw [carried_same h.listed]
          exact h
      | consumed header hconsumed => exact h.consumed header counts hconsumed
      | refused hstore | stored _ hstore => exact h.offered hstore

theorem Backed.created (h : node.Created) :
    Backed node (node.storage.packetListHead.map fun e => (e, 0)) := by
  have hnone : tracked node.attempts = [] := by
    rw [h.1]
    rfl
  refine ⟨by simp [Function.comp_def], by rw [hnone]; exact List.nodup_nil, fun addr a ha => ?_⟩
  have hfree : slotFor node.attempts addr = none :=
    slotFor_eq_none.mpr (by rw [hnone]; exact List.not_mem_nil)
  cases hfree.symm.trans ha

theorem SendTrace.next_node (s : SendTrace) (event : NodeEvent) :
    (s.next cfg text event).map SendTrace.node = (event.run cfg text s.node).map Prod.fst := by
  cases event with
  | incoming env p =>
      rw [next, NodeEvent.run]
      cases dtnControllerProcessIncoming cfg text env s.node p <;> rfl
  | pass env =>
      rw [next, NodeEvent.run, attemptForwardStored_eq]
      cases passVisits cfg env s.node <;> rfl

end Events

/-- In every run in which the attempts for first packets hand them over and the
received-messages spare them, a packet that expires has been handed over as often as
there are retries. -/
theorem expiry_follows_attempts (cfg : Config) (text : AddrText) (s : SendTrace)
    (h : (sendSystem cfg text).Reaches (fun s => CountsHandovers cfg s.node) s) :
    ∀ x ∈ s.expired, maxForwardingRetries ≤ x.2 := by
  refine (h.invariant (P := fun s => Backed s.node s.tally ∧
    ∀ x ∈ s.expired, maxForwardingRetries ≤ x.2) ?_ ?_).2
  · rintro s ⟨hcreated, htally, hexpired⟩
    rw [htally, hexpired]
    exact ⟨.created hcreated, nofun⟩
  · intro s event s' ih counts hnext
    exact ih.1.event ih.2 counts hnext

/-! One packet waits while passes follow each other at the distance of the retry delay. -/

def SendTrace.after (s : SendTrace) (event : NodeEvent) : SendTrace :=
  (s.next sampleConfig hexAddrText event).toOption.getD s

theorem SendTrace.after_reached {meets : SendTrace → NodeEvent → Prop} {s : SendTrace}
    (run : (sendSystem sampleConfig hexAddrText).Reaches meets s) {event : NodeEvent}
    (condition : meets s event)
    (returns : Run.Returns (s.next sampleConfig hexAddrText event)) :
    (sendSystem sampleConfig hexAddrText).Reaches meets (s.after event) := by
  obtain ⟨s', h⟩ := returns
  rw [after, h]
  exact run.step condition h

def waiting : SendTrace :=
  (⟨emptyNode, [], []⟩ : SendTrace).after (arrivesAt 7 quietPacket quietPacket_length_lt)

/-- The contacts stay open for more than a quarter of an hour. -/
def longContacts : List ContactInfo := openContacts.map fun c => { c with endTimeMs := 1000000 }

def timedPass (contacts : List ContactInfo) (m : Nat) : Nat → PassEnv :=
  fun _ => { passAt (.ofNat (20000 + 30000 * m)) with
    routing := ⟨contacts, fun _ => .ok (some neighbour)⟩ }

def afterPasses (contacts : List ContactInfo) : Nat → SendTrace
  | 0 => waiting
  | m + 1 => (afterPasses contacts m).after (.pass (timedPass contacts m))

theorem waiting_reached {meets : SendTrace → NodeEvent → Prop}
    (condition : meets ⟨emptyNode, [], []⟩ (arrivesAt 7 quietPacket quietPacket_length_lt)) :
    (sendSystem sampleConfig hexAddrText).Reaches meets waiting :=
  SendTrace.after_reached (.start ⟨⟨rfl, [], emptyEnv, rfl⟩, rfl, rfl⟩) condition
    (by decide +kernel)

theorem afterPasses_reached {meets : SendTrace → NodeEvent → Prop} (contacts : List ContactInfo)
    (n : Nat) (first : (sendSystem sampleConfig hexAddrText).Reaches meets waiting)
    (condition : ∀ m < n, meets (afterPasses contacts m) (.pass (timedPass contacts m)))
    (returns : ∀ m < n, Run.Returns ((afterPasses contacts m).next sampleConfig hexAddrText
      (.pass (timedPass contacts m)))) :
    (sendSystem sampleConfig hexAddrText).Reaches meets (afterPasses contacts n) := by
  induction n with
  | zero => exact first
  | succ n ih =>
      refine SendTrace.after_reached (ih (fun m hm => ?_) fun m hm => ?_)
        (condition n (Nat.lt_succ_self n)) (returns n (Nat.lt_succ_self n))
      · exact condition m (Nat.lt_succ_of_lt hm)
      · exact returns m (Nat.lt_succ_of_lt hm)

theorem countsHandovers_single {cfg : Config} {node : Node} {env : Nat → PassEnv}
    (single : node.storage.packetListHead.length = 1)
    (hands : ∀ e ∈ node.storage.packetListHead, HandsOver cfg (env 0) e) :
    CountsHandovers cfg node (.pass env) := by
  have hindex (k : Nat) (e : StoredPacketEntry) (hk : node.storage.packetListHead[k]? = some e) :
      k = 0 := by
    have := (List.getElem?_eq_some_iff.mp hk).1
    omega
  refine ⟨⟨fun j k e e' hlt _ hk => ?_, fun j k e e' a hlt _ hk => ?_⟩, fun k e hk _ => ?_⟩
  · have := hindex k e' hk
    omega
  · have := hindex k e' hk
    omega
  · have hzero := hindex k e hk
    subst hzero
    exact hands e (List.mem_of_getElem? hk)

/-- Eleven passes while the contact is open: the packet is handed over ten times and then
expires. -/
theorem expiry_follows_attempts_ten :
    (afterPasses longContacts 11).expired.length = 1 ∧
      ∀ x ∈ (afterPasses longContacts 11).expired, maxForwardingRetries ≤ x.2 := by
  have hfirst : (sendSystem sampleConfig hexAddrText).Reaches
      (fun s => CountsHandovers sampleConfig s.node) waiting :=
    waiting_reached fun hicmp => absurd hicmp (by decide)
  have hsingle : ∀ m < 11, (afterPasses longContacts m).node.storage.packetListHead.length = 1 ∧
      ∀ e ∈ (afterPasses longContacts m).node.storage.packetListHead,
        routeAnswer (timedPass longContacts m 0).routing
          (timedPass longContacts m 0).activeNow e.p =
          .ok (some neighbour) ∧
        (ip6AddrAt e.p.mem 24).map sampleConfig.isLocal = .ok false ∧
        pbufClone (timedPass longContacts m 0).forwardClone e.p ≠ none := by decide +kernel
  have hreached := afterPasses_reached longContacts 11 hfirst (fun m hm => ?_)
    (by decide +kernel)
  · exact ⟨by decide +kernel, expiry_follows_attempts _ _ _ hreached⟩
  · refine countsHandovers_single (hsingle m hm).1 fun e he => ?_
    obtain ⟨hroute, hremote, hcopy⟩ := (hsingle m hm).2 e he
    refine ⟨⟨neighbour, hroute⟩, fun dest hdest => ?_, hcopy⟩
    rw [hdest] at hremote
    exact Except.ok.inj hremote

/-- Eleven passes when the contact is over: the packet expires without having been handed
over. -/
theorem packet_expires_unsent :
    ∃ s, (sendSystem sampleConfig hexAddrText).Reaches (fun _ _ => True) s ∧
      ∃ x ∈ s.expired, x.2 = 0 :=
  ⟨_, afterPasses_reached openContacts 11 (waiting_reached trivial) (fun _ _ => trivial)
    (by decide +kernel), by decide +kernel⟩

end LwipDtn
