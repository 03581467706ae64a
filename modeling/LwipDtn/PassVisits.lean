import LwipDtn.ControllerRuns

/-!
The pass over the stored packets, packet by packet. It looks at every packet that was
stored when it began exactly once and in order: a packet that is given up on the way is
the one that is looked at or an earlier one. The visits say which packet an effect of the
pass belongs to.
-/

namespace LwipDtn
open Outcome Bytes BoundedFifo

/-- What the pass does when it looks at one packet, which is then at this place of the
list. -/
structure Visit where
  index : Nat
  entry : StoredPacketEntry
  after : Node
  sent : List Effect

/-- The effects of one visit: only a granted attempt has any. -/
def visitEffects (cfg : Config) (env : PassEnv) (answer : Bool) (node : Node)
    (entry : StoredPacketEntry) : Run (List Effect) :=
  if answer then forwardEntry cfg env node entry else return []

/-- The pass over packets that were stored when it began, with its visits. -/
def visitEntries (cfg : Config) (env : Nat → PassEnv) :
    Nat → Nat → List StoredPacketEntry → Node → Run (Node × List Visit)
  | _, _, [], node => return (node, [])
  | step, i, entry :: rest, node => do
      let (answer, node') ← shouldAttemptForward (env step).attempt node entry.originalDest
      let sent ← visitEffects cfg (env step) answer node' entry
      let j := if node'.storage.packetListHead.length = node.storage.packetListHead.length
        then i + 1 else i
      let (node'', later) ← visitEntries cfg env (step + 1) j rest node'
      return (node'', ⟨i, entry, node', sent⟩ :: later)

def passVisits (cfg : Config) (env : Nat → PassEnv) (node : Node) : Run (Node × List Visit) :=
  visitEntries cfg env 0 0 node.storage.packetListHead node

def withEffects (r : Node × List Visit) : Node × List Effect := (r.1, r.2.flatMap Visit.sent)

section

variable {cfg : Config} {env : Nat → PassEnv} {node node' : Node} {i step : Nat}
  {entry : StoredPacketEntry} {rest : List StoredPacketEntry}

/-- What is taken out is the packet that is looked at or an earlier one. -/
theorem attempt_behind {attempt : AttemptEnv} {answer : Bool}
    {seen later : List StoredPacketEntry}
    (hlist : node.storage.packetListHead = seen ++ entry :: later)
    (h : shouldAttemptForward attempt node entry.originalDest = .ok (answer, node')) :
    node'.storage.packetListHead = node.storage.packetListHead ∨
      ∃ x left, Takes (seen ++ [entry]) x left ∧ node'.storage.packetListHead = left ++ later := by
  obtain hsame | ⟨-, x, rest, hs, htake⟩ := shouldAttemptForward_cases h
  · exact .inl (by rw [hsame])
  · rw [hlist] at htake
    obtain ⟨left, htakes, rfl⟩ := htake.upTo (isForDest_iff.mpr rfl)
    exact .inr ⟨x, left, htakes.takes, by rw [hs]; rfl⟩

theorem findIdx_isForDest {l : List StoredPacketEntry} (hentry : l[i]? = some entry) :
    ∃ k, l.findIdx? (isForDest entry.originalDest) = some k ∧ k ≤ i := by
  cases hfind : l.findIdx? (isForDest entry.originalDest) with
  | none =>
      have hnot := List.findIdx?_eq_none_iff.mp hfind entry (List.mem_of_getElem? hentry)
      rw [isForDest_iff.mpr rfl] at hnot
      cases hnot
  | some k =>
      obtain ⟨hlt, rfl⟩ := List.getElem?_eq_some_iff.mp hentry
      obtain ⟨_, -, hbefore⟩ := List.findIdx?_eq_some_iff_getElem.mp hfind
      exact ⟨k, rfl, Nat.not_lt.mp fun hik => hbefore i hik (isForDest_iff.mpr rfl)⟩

/-- The saved `next_entry` never dangles, and what follows it was there before. -/
theorem attempt_next {answer : Bool} {attempt : AttemptEnv}
    (hdrop : node.storage.packetListHead.drop i = entry :: rest)
    (h : shouldAttemptForward attempt node entry.originalDest = .ok (answer, node')) :
    ∃ j, nextIndex node.storage.packetListHead node'.storage.packetListHead
        entry.originalDest i = .ok j ∧
      j = (if node'.storage.packetListHead.length = node.storage.packetListHead.length
        then i + 1 else i) ∧
      node'.storage.packetListHead.drop j = rest := by
  have hentry : node.storage.packetListHead[i]? = some entry := by
    rw [← List.head?_drop, hdrop]
    rfl
  have hlist := List.take_append_drop i node.storage.packetListHead
  rw [hdrop] at hlist
  obtain hsame | ⟨x, left, htakes, hleft⟩ := attempt_behind hlist.symm h
  · refine ⟨i + 1, ?_, ?_, ?_⟩
    · rw [nextIndex, hsame, if_pos rfl]
      rfl
    · rw [hsame, if_pos rfl]
    · rw [hsame, ← List.tail_drop, hdrop]
      rfl
  · have hi : (node.storage.packetListHead.take i).length = i :=
      List.length_take_of_le (Nat.le_of_lt (List.getElem?_eq_some_iff.mp hentry).1)
    have hlen : left.length = i := by
      have hperm := htakes.perm.length_eq
      rw [List.length_append, hi] at hperm
      exact (Nat.succ.inj hperm).symm
    have hshort : node'.storage.packetListHead.length ≠ node.storage.packetListHead.length := by
      rw [hleft, ← hlist, List.length_append, List.length_append, hi, hlen, List.length_cons]
      omega
    obtain ⟨k, hfind, hle⟩ := findIdx_isForDest hentry
    refine ⟨i, ?_, ?_, ?_⟩
    · rw [nextIndex, if_neg hshort, hfind]
      exact if_pos hle
    · rw [if_neg hshort]
    · rw [hleft]
      exact List.drop_left' hlen

theorem forwardFrom_eq {fuel : Nat} (hfuel : (node.storage.packetListHead.drop i).length < fuel) :
    forwardFrom cfg env fuel step i node = withEffects <$>
      visitEntries cfg env step i (node.storage.packetListHead.drop i) node := by
  induction fuel generalizing i step node with
  | zero => cases hfuel
  | succ fuel ih =>
      cases hdrop : node.storage.packetListHead.drop i with
      | nil =>
          have hnone : node.storage.packetListHead[i]? = none := by
            rw [← List.head?_drop, hdrop]
            rfl
          rw [forwardFrom, hnone, visitEntries]
          rfl
      | cons entry rest =>
          have hentry : node.storage.packetListHead[i]? = some entry := by
            rw [← List.head?_drop, hdrop]
            rfl
          obtain ⟨⟨answer, n⟩, hattempt⟩ := shouldAttemptForward_returns (env step).attempt node
            entry.originalDest
          obtain ⟨j, hnext, hj, hrest⟩ := attempt_next hdrop hattempt
          rw [hdrop] at hfuel
          have hfuel' : (n.storage.packetListHead.drop j).length < fuel := by
            rw [hrest]
            exact Nat.lt_of_succ_lt_succ hfuel
          rw [forwardFrom, hentry, visitEntries]
          simp only [hattempt, Run.bind_ok, hnext, ← hj, ih hfuel', hrest]
          cases answer with
          | false =>
              cases visitEntries cfg env (step + 1) j rest n <;> rfl
          | true =>
              simp only [if_true, visitEffects]
              cases forwardEntry cfg (env step) n entry with
              | error => rfl
              | ok sent => cases visitEntries cfg env (step + 1) j rest n <;> rfl

theorem attemptForwardStored_eq (cfg : Config) (env : Nat → PassEnv) (node : Node) :
    dtnControllerAttemptForwardStored cfg env node = withEffects <$> passVisits cfg env node := by
  rw [dtnControllerAttemptForwardStored]
  exact forwardFrom_eq (i := 0) (Nat.lt_succ_self _)

/-- The node once `should_attempt_forward` has been called for these packets in turn. -/
def attemptAll (env : Nat → PassEnv) : Nat → List StoredPacketEntry → Node → Run Node
  | _, [], node => return node
  | step, entry :: rest, node => do
      let (_, node) ← shouldAttemptForward (env step).attempt node entry.originalDest
      attemptAll env (step + 1) rest node

theorem attemptAll_concat {entries : List StoredPacketEntry} :
    attemptAll env step (entries ++ [entry]) node = (do
      let n ← attemptAll env step entries node
      let (_, n) ← shouldAttemptForward (env (step + entries.length)).attempt n entry.originalDest
      return n) := by
  induction entries generalizing step node with
  | nil => rfl
  | cons e rest ih =>
      rw [List.cons_append, attemptAll, attemptAll, bind_assoc]
      refine bind_congr fun ⟨answer, n⟩ => ?_
      dsimp only
      rw [ih, List.length_cons, Nat.add_right_comm, Nat.add_assoc]

theorem attemptAll_take_succ {entries : List StoredPacketEntry} {k : Nat}
    (hk : entries[k]? = some entry) (h : attemptAll env 0 (entries.take (k + 1)) node = .ok node') :
    ∃ n answer, attemptAll env 0 (entries.take k) node = .ok n ∧
      shouldAttemptForward (env k).attempt n entry.originalDest = .ok (answer, node') := by
  have hlen : (entries.take k).length = k :=
    List.length_take_of_le (Nat.le_of_lt (List.getElem?_eq_some_iff.mp hk).1)
  rw [List.take_add_one, hk, Option.toList_some, attemptAll_concat, Run.bind_eq_ok] at h
  obtain ⟨n, hn, h⟩ := h
  rw [Run.bind_eq_ok, hlen, Nat.zero_add] at h
  obtain ⟨⟨answer, n'⟩, hattempt, h⟩ := h
  cases h
  exact ⟨n, answer, hn, hattempt⟩

/-- The visit of one packet: the calls for the packets before it have been made. -/
theorem visit_at {entries : List StoredPacketEntry} {visits : List Visit} {k : Nat}
    (h : visitEntries cfg env step i entries node = .ok (node', visits))
    (hk : entries[k]? = some entry) :
    ∃ n answer v, attemptAll env step (entries.take k) node = .ok n ∧
      shouldAttemptForward (env (step + k)).attempt n entry.originalDest = .ok (answer, v.after) ∧
      visitEffects cfg (env (step + k)) answer v.after entry = .ok v.sent ∧
      visits[k]? = some v := by
  induction entries generalizing step i node visits k with
  | nil => cases hk
  | cons e rest ih =>
      simp only [visitEntries, Run.bind_eq_ok] at h
      obtain ⟨⟨answer, n⟩, hattempt, sent, hsent, ⟨n', later⟩, hlater, h⟩ := h
      cases h
      cases k with
      | zero =>
          cases hk
          exact ⟨node, answer, ⟨i, entry, n, sent⟩, rfl, hattempt, hsent, rfl⟩
      | succ k =>
          obtain ⟨m, answer', v, hall, hvisit⟩ := ih hlater hk
          rw [Nat.add_assoc, Nat.add_comm 1 k] at hvisit
          refine ⟨m, answer', v, ?_, hvisit⟩
          rw [List.take_succ_cons, attemptAll, hattempt]
          exact hall

theorem visits_entries {entries : List StoredPacketEntry} {visits : List Visit}
    (h : visitEntries cfg env step i entries node = .ok (node', visits)) :
    visits.map Visit.entry = entries := by
  induction entries generalizing step i node visits with
  | nil =>
      cases h
      rfl
  | cons e rest ih =>
      simp only [visitEntries, Run.bind_eq_ok] at h
      obtain ⟨⟨answer, n⟩, -, sent, -, ⟨n', later⟩, hlater, h⟩ := h
      cases h
      rw [List.map_cons, ih hlater]

end

def Effect.isForward : Effect → Bool
  | .forward _ => true
  | .relay _ | .status _ _ | .deliver _ | .store _ _ => false

/-- How often a packet is handed to `raw_socket_send_ipv6`; the messages about packets do
not count. -/
def handovers (effects : List Effect) : Nat := effects.countP Effect.isForward

/-- The packet has an open next hop, is not for the node itself, and can be copied. -/
structure HandsOver (cfg : Config) (env : PassEnv) (entry : StoredPacketEntry) : Prop where
  route : ∃ hop, routeAnswer env.routing env.activeNow entry.p = .ok (some hop)
  remote : ∀ dest, ip6AddrAt entry.p.mem 24 = .ok dest → cfg.isLocal dest = false
  copied : pbufClone env.forwardClone entry.p ≠ none

section

variable {cfg : Config} {env : PassEnv} {node : Node} {entry : StoredPacketEntry}
  {sent : List Effect}

theorem Acknowledges.handovers {stored : List Bytes} {packet : Bytes}
    (h : Acknowledges cfg stored packet sent) : handovers sent = 0 := by
  cases h <;> rfl

theorem forwardEntry_handovers (h : forwardEntry cfg env node entry = .ok sent) :
    (handovers sent = 1 ↔ HandsOver cfg env entry) ∧ handovers sent ≤ 1 := by
  simp only [forwardEntry, Run.bind_eq_ok] at h
  obtain ⟨src, hsrc, dest, hdest, custodian, hcust, query, hquery, answer, hanswer, h⟩ := h
  have hroute : routeAnswer env.routing env.activeNow entry.p = .ok answer := by
    simp only [routeAnswer, hsrc, hdest, hcust, hquery, hanswer, Run.bind_ok]
  split at h
  · cases h
    refine ⟨⟨fun hone => absurd hone Nat.zero_ne_one, fun hands => ?_⟩, Nat.zero_le _⟩
    obtain ⟨hop, answer⟩ := hands.route
    cases hroute.symm.trans answer
  rename_i hop
  split at h
  · rename_i uncopied
    cases h
    exact ⟨⟨fun hone => absurd hone Nat.zero_ne_one, fun hands => absurd uncopied hands.copied⟩,
      Nat.zero_le _⟩
  rename_i copy hcopy
  rw [forwardCopy] at h
  split at h
  · rename_i home
    rw [Run.bind_eq_ok] at h
    obtain ⟨ack, hack, h⟩ := h
    cases h
    have hzero : handovers (ack ++ [.deliver copy.bytes]) = 0 := by
      rw [handovers, List.countP_append]
      exact congrArg (· + 0) (acknowledge_cases hack).handovers
    rw [hzero]
    refine ⟨⟨fun hone => absurd hone Nat.zero_ne_one, fun hands => ?_⟩, Nat.zero_le _⟩
    rw [hands.remote dest hdest] at home
    cases home
  · rename_i remote
    rw [Run.bind_eq_ok] at h
    obtain ⟨⟨r, q⟩, -, h⟩ := h
    cases h
    have hcopied : pbufClone env.forwardClone entry.p ≠ none := by
      rw [hcopy]
      exact Option.some_ne_none copy
    refine ⟨⟨fun _ => ⟨⟨hop, hroute⟩, fun dest' hdest' => ?_, hcopied⟩,
      fun _ => rfl⟩, Nat.le_refl _⟩
    cases hdest.symm.trans hdest'
    simpa using remote

end

/-- The clock does not reach the end of a retry delay between two packets for one
destination: what the first of them starts is not over at the second, and a slot that is
early for the first is early for the second. -/
structure Steady (env : Nat → PassEnv) (node : Node) : Prop where
  short : ∀ j k e e', j < k → node.storage.packetListHead[j]? = some e →
    node.storage.packetListHead[k]? = some e' → e.originalDest.addr = e'.originalDest.addr →
    (env k).attempt.now - (env j).attempt.now < forwardingRetryDelayMs
  early : ∀ j k e e' a, j < k → node.storage.packetListHead[j]? = some e →
    node.storage.packetListHead[k]? = some e' → e.originalDest.addr = e'.originalDest.addr →
    slotFor node.attempts e.originalDest.addr = some a → ¬ a.Due (env j).attempt.now →
    ¬ a.Due (env k).attempt.now

theorem Steady.written {env : Nat → PassEnv} {node : Node} (steady : Steady env node) {j k : Nat}
    {e e' : StoredPacketEntry} {a : ForwardingAttempt} (lt : j < k)
    (hj : node.storage.packetListHead[j]? = some e) (hk : node.storage.packetListHead[k]? = some e')
    (same : e.originalDest.addr = e'.originalDest.addr)
    (written : a.lastAttemptTime = (env j).attempt.now) : ¬ a.Due (env k).attempt.now := by
  intro due
  rw [ForwardingAttempt.Due, written] at due
  exact absurd (steady.short j k e e' lt hj hk same) (UInt32.not_lt.mpr due)

end LwipDtn
