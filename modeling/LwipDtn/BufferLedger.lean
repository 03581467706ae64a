import LwipDtn.Buffers
import LwipDtn.ControllerRuns
import LwipDtn.StorageDisk

/-!
Which buffers are live after a packet has been handled. Everything is released on every
way through the controller, but for the packet that has been stored: its buffer is
neither released nor kept.
-/

namespace LwipDtn
open Outcome Bytes BoundedFifo Ledger

def StorageFunction.entries (s : StorageFunction) : Int := s.packetListHead.length

def Effect.accepted : Effect → Bool
  | .store _ accepted => accepted
  | _ => false

def accepted (effects : List Effect) : Int := effects.countP Effect.accepted

theorem accepted_append (l l' : List Effect) : accepted (l ++ l') = accepted l + accepted l' := by
  rw [accepted, List.countP_append, Int.natCast_add, accepted, accepted]

theorem Acknowledges.accepted {cfg : Config} {stored : List Bytes} {packet : Bytes}
    {effects : List Effect} (h : Acknowledges cfg stored packet effects) :
    accepted effects = 0 := by
  cases h with
  | none | sent => rfl

namespace Buffers

/-! One lemma for each function: what it returns is what the function without the buffers
returns, and by how much the number of live buffers changes. -/

theorem add_changes (heap : Heap) (p : Pbuf) (custodian : Block 16) :
    Changes (dtnAddCustodianOption heap p custodian)
      (LwipDtn.dtnAddCustodianOption heap p custodian) fun _ => 0 := by
  refine .lift_bind fun oldNexth _ => .lift_bind fun origLen _ => ?_
  refine .acquire_bind (fun halloc => ?_) fun ⟨newp, behind⟩ halloc => ?_
  · simp only [halloc]
    exact .pure _ rfl
  · simp only [halloc]
    refine .lift_bind fun hdr _ => .lift_bind fun newp _ => .lift_bind fun newp _ => ?_
    refine .lift_bind fun n _ => .lift_bind fun src _ => .lift_bind fun newp _ => ?_
    exact .lift_bind fun q _ => .release_bind (.pure _ rfl)

theorem strip_changes (heap : Heap) (p : Pbuf) :
    Changes (dtnStripCustodianOption heap p) (LwipDtn.dtnStripCustodianOption heap p)
      fun _ => 0 := by
  refine .lift_bind fun nexth _ => .ite (fun _ => .pure _ rfl) fun _ => ?_
  refine .lift_bind fun nextNexth _ => .lift_bind fun origLen _ => ?_
  refine .acquire_bind (fun halloc => ?_) fun ⟨newp, behind⟩ halloc => ?_
  · simp only [halloc]
    exact .pure _ rfl
  · simp only [halloc]
    refine .lift_bind fun hdr _ => .lift_bind fun newp _ => .lift_bind fun n _ => ?_
    refine .lift_bind fun src _ => .lift_bind fun newp _ => ?_
    exact .lift_bind fun q _ => .release_bind (.pure _ rfl)

theorem updateOrAdd_changes (env : RewriteEnv) (p : Pbuf) (custodian : Block 16) :
    Changes (dtnUpdateOrAddCustodianOption env p custodian)
      (LwipDtn.dtnUpdateOrAddCustodianOption env p custodian) fun _ => 0 := by
  refine .lift_bind fun nexth _ => .ite (fun _ => ?_) fun _ => add_changes env.add p custodian
  refine .lift_bind fun has _ => .ite (fun _ => .lift_bind fun q _ => .pure _ rfl) fun _ => ?_
  refine (strip_changes env.strip p).bind fun ⟨stripped, q⟩ _ => ?_
  exact .ite (fun _ => add_changes env.add q custodian) fun _ => .pure _ rfl

theorem store_changes (text : AddrText) (env : StoreEnv) (s : StorageFunction) (p : Pbuf)
    (dest : Ip6Addr) :
    Changes (dtnStorageStorePacket text env s p dest)
      (LwipDtn.dtnStorageStorePacket text env s p dest) fun r => r.2.entries - s.entries := by
  have same : s.entries - s.entries = 0 := Int.sub_self _
  refine .ite (fun _ => .pure _ same) fun _ => ?_
  refine .acquire_bind (fun hcopy => ?_) fun copy hcopy => ?_
  · simp only [hcopy]
    exact .pure _ same
  simp only [hcopy]
  refine (strip_changes env.strip copy).bind fun ⟨_, toStore⟩ _ => ?_
  refine .ite (fun _ => .release_bind (.pure _ ?_)) fun _ => ?_
  · dsimp only
    omega
  rcases dtnStorageSavePacketToDisk text env.save s.disk ⟨toStore, dest, env.now, []⟩ with
    ⟨saved, entry, disk⟩
  refine .ite (fun _ => .pure _ ?_) fun _ => .release_bind (.pure _ ?_)
  · simp only [StorageFunction.entries, StorageFunction.append, List.length_append,
      List.length_singleton]
    omega
  · simp only [StorageFunction.entries]
    omega

theorem removeFirst_changes (s : StorageFunction) (removed : Bool)
    (test : StoredPacketEntry → Run Bool) :
    Changes (removeFirst s removed test)
      (do
        let (_, s) ← s.removeFirst removed test
        return s) fun s' => s'.entries - s.entries := by
  refine .lift_bind fun ⟨found, s'⟩ hrun => ?_
  obtain ⟨rfl, rfl, -⟩ | ⟨e, rest, rfl, rfl, htake⟩ := removeFirst_cases hrun
  · exact .pure _ (Int.sub_self _)
  · refine .release_bind (.pure _ ?_)
    have := htake.length
    rw [StorageFunction.entries, StorageFunction.entries, StorageFunction.unlinked]
    dsimp only
    omega

theorem deleteByIpHeader_changes (removed : Bool) (s : StorageFunction) (hdr : Bytes) :
    Changes (dtnStorageDeletePacketByIpHeader removed s hdr)
      (LwipDtn.dtnStorageDeletePacketByIpHeader removed s hdr) fun s' => s'.entries - s.entries :=
  .ite (fun _ => .pure _ (Int.sub_self _)) fun _ => removeFirst_changes _ _ _

theorem deleteByIcmpData_changes (removed : Bool) (s : StorageFunction) (icmp : Pbuf) :
    Changes (dtnStorageDeletePacketByIcmpData removed s icmp)
      (LwipDtn.dtnStorageDeletePacketByIcmpData removed s icmp)
      fun s' => s'.entries - s.entries := by
  refine .ite (fun _ => .pure _ (Int.sub_self _)) fun _ => ?_
  refine .ite (fun _ => .pure _ (Int.sub_self _)) fun _ => ?_
  exact .ite (fun _ => deleteByIpHeader_changes _ _ _) fun _ => removeFirst_changes _ _ _

theorem completeMessage_changes (env : StatusEnv) (stored : List Bytes) (p : Pbuf)
    (dest : Block 16) (packet : Bytes) :
    Changes (do
        match ← pbufAlloc env.complete (ip6Hlen + (8 + (9 + quotedLen))) with
        | none =>
            pbufFree
            return []
        | some _ =>
            pbufFree
            pbufFree
            return [Effect.status ⟨packet, dest, env.sendto, stored⟩ p.bytes])
      (match LwipDtn.pbufAlloc env.complete (ip6Hlen + (8 + (9 + quotedLen))) with
        | none => return []
        | some _ => return [.status ⟨packet, dest, env.sendto, stored⟩ p.bytes])
      fun _ => 0 - 1 := by
  refine .acquire_bind (fun hc => ?_) fun c hc => ?_
  · simp only [hc]
    exact .release_bind (.pure _ rfl)
  · simp only [hc]
    exact .release_bind (.release_bind (.pure _ rfl))

theorem sendMessage_changes (cfg : Config) (env : StatusEnv) (stored : List Bytes) (p : Pbuf)
    (type code reason : UInt8) :
    Changes (dtnIcmpv6SendMessage cfg env stored p type code reason)
      (LwipDtn.dtnIcmpv6SendMessage cfg env stored p type code reason) fun _ => 0 := by
  rw [LwipDtn.dtnIcmpv6SendMessage]
  refine .acquire_bind (fun hq => ?_) fun block hq => ?_
  · simp only [hq]
    exact .pure _ rfl
  simp only [hq]
  refine .lift_bind fun plen _ => .lift_bind fun custodian _ => ?_
  cases custodian with
  | some dest => exact completeMessage_changes env stored p dest _
  | none => exact .lift_bind fun dest _ => completeMessage_changes env stored p dest _

theorem deleteAcknowledged_changes (env : IcmpEnv) (s : StorageFunction) (q : Pbuf) :
    Changes (deleteAcknowledged env s q) (LwipDtn.deleteAcknowledged env s q)
      fun s' => s'.entries - s.entries := by
  refine .acquire_bind (fun hcopy => ?_) fun ⟨block, behind⟩ hcopy => ?_
  · rw [LwipDtn.deleteAcknowledged]
    simp only [hcopy]
    refine .ite (fun _ => .pure _ (Int.sub_self _)) fun _ => ?_
    exact .lift_bind fun hdr _ => deleteByIpHeader_changes _ _ _
  · rw [LwipDtn.deleteAcknowledged]
    simp only [hcopy]
    refine .lift_bind fun icmp _ => .then_release ?_
    exact (deleteByIcmpData_changes _ _ _).congr fun _ _ => (Int.sub_add_cancel _ _).symm

theorem icmpv6Process_changes (env : IcmpEnv) (node : Node) (q : Pbuf) :
    Changes (dtnIcmpv6Process env node q) (LwipDtn.dtnIcmpv6Process env node q)
      fun r => if r.1 then r.2.storage.entries - node.storage.entries else 0 := by
  refine .lift_bind fun type _ => .ite (fun _ => ?_) fun _ => ?_
  · refine .lift_bind fun _ _ => (deleteAcknowledged_changes _ _ _).bind fun storage _ => ?_
    exact .lift_bind fun dest _ => .pure _ (Int.sub_self _)
  · refine .ite (fun _ => .lift_bind fun _ _ => .pure _ (Int.sub_self _)) fun _ => ?_
    exact .pure _ rfl

theorem consumeStatus_changes (env : IncomingEnv) (node : Node) (p : Pbuf) :
    Changes (consumeStatus env node p) (LwipDtn.consumeStatus env node p) fun r =>
      match r with
      | none => 0
      | some node' => node'.storage.entries - node.storage.entries - 1 := by
  refine .ite (fun _ => .pure _ rfl) fun _ => ?_
  refine .acquire_bind (fun hclone => ?_) fun q hclone => ?_
  · simp only [hclone, Option.bind_none]
    exact .release_bind (.pure _ (by dsimp only; omega))
  simp only [hclone, Option.bind_some]
  cases q.removeHeader ip6Hlen with
  | none => exact .release_bind (.release_bind (.pure _ (by dsimp only; omega)))
  | some q =>
      refine (icmpv6Process_changes _ _ _).bind fun r _ => ?_
      obtain ⟨handled, node'⟩ := r
      cases handled with
      | true =>
          exact .release_bind (.release_bind (.pure _ (by dsimp only; rw [if_pos rfl]; omega)))
      | false => exact .release_bind (.pure _ rfl)

theorem acknowledge_changes (cfg : Config) (clone : Heap) (env : StatusEnv) (stored : List Bytes)
    (p : Pbuf) (code : UInt8) :
    Changes (acknowledge cfg clone env stored p code)
      (LwipDtn.acknowledge cfg clone env stored p code) fun _ => 0 := by
  rw [LwipDtn.acknowledge]
  refine .acquire_bind (fun hclone => ?_) fun q hclone => ?_
  · simp only [hclone]
    exact .pure _ rfl
  · simp only [hclone]
    exact .then_release (sendMessage_changes _ _ _ _ _ _ _)

theorem copyForNothing_changes (clone : Heap) (p : Pbuf) :
    Changes (copyForNothing clone p) (return ()) fun _ => 0 :=
  .acquire_bind (fun _ => .pure _ rfl) fun _ _ => .released

section

variable (cfg : Config) (text : AddrText) (env : IncomingEnv) (node : Node) (p : Pbuf)

/-- How the number of live buffers changes apart from the packet itself: by the entries
of the storage, and by the buffers of the packets that have been stored. -/
def surplus (node : Node) (r : Node × List Effect) : Int :=
  r.1.storage.entries - node.storage.entries + accepted r.2

theorem surplus_same {effects : List Effect} (h : accepted effects = 0) :
    surplus node (node, effects) = 0 := by
  rw [surplus, h, Int.sub_self, Int.add_zero]

theorem deliverLocal_changes : Changes (deliverLocal cfg env node p)
    (LwipDtn.deliverLocal cfg env node p) fun r => surplus node r - 1 := by
  refine (acknowledge_changes _ _ _ _ _ _).bind fun ack hack => .release_bind (.pure _ ?_)
  have hnone : accepted (ack ++ [.deliver p.bytes]) = 0 := by
    rw [accepted_append, (acknowledge_cases hack).accepted]
    rfl
  rw [surplus_same node hnone]
  rfl

theorem forwardDirect_changes (hop : Ip6Addr) : Changes (forwardDirect cfg env node p hop)
    (LwipDtn.forwardDirect cfg env node p hop) fun r => surplus node r - 1 := by
  refine .idle_bind (copyForNothing_changes _ _) ?_
  refine (updateOrAdd_changes _ _ _).bind fun ⟨_, q⟩ _ => .release_bind (.pure _ ?_)
  rw [surplus_same node rfl]
  rfl

theorem storeIncoming_changes (dest : Ip6Addr) : Changes (storeIncoming cfg text env node p dest)
    (LwipDtn.storeIncoming cfg text env node p dest) fun r => surplus node r - 1 := by
  refine (store_changes _ _ _ _ _).bind fun ⟨taken, storage⟩ _ => ?_
  refine .ite (fun _ => ?_) fun _ => ?_
  · refine (acknowledge_changes _ _ _ _ _ _).bind fun ack hack => .pure _ ?_
    have hone : accepted (.store p.bytes true :: ack) = 1 := by
      rw [← List.singleton_append, accepted_append, (acknowledge_cases hack).accepted]
      rfl
    simp only [surplus, hone]
    omega
  · refine .idle_bind (copyForNothing_changes _ _) (.release_bind (.pure _ ?_))
    have hnone : accepted [.store p.bytes false] = 0 := rfl
    simp only [surplus, hnone]
    omega

theorem routeIncoming_changes (dest : Ip6Addr) (sender : Block 16) :
    Changes (routeIncoming cfg text env node p dest sender)
      (LwipDtn.routeIncoming cfg text env node p dest sender) fun r => surplus node r - 1 := by
  refine .ite (fun _ => .lift_bind fun q _ => .lift_bind fun answer _ => ?_)
    fun _ => .release_bind (.pure _ ?_)
  · cases answer with
    | some hop => exact forwardDirect_changes cfg env node p hop
    | none => exact storeIncoming_changes cfg text env node p dest
  · rw [surplus_same node rfl]
    rfl

theorem processIncoming_changes : Changes (dtnControllerProcessIncoming cfg text env node p)
    (LwipDtn.dtnControllerProcessIncoming cfg text env node p) fun r => surplus node r - 1 := by
  have dropped : surplus node (node, []) - 1 + 1 = 0 := by
    rw [surplus_same node rfl]
    rfl
  refine .ite (fun _ => .release_bind (.pure _ dropped)) fun _ => ?_
  refine .ite (fun _ => .release_bind (.pure _ dropped)) fun _ => ?_
  refine .lift_bind fun src _ => .lift_bind fun dest _ => .lift_bind fun custodian _ => ?_
  refine (consumeStatus_changes env node p).bind fun consumed _ => ?_
  cases consumed with
  | some node' =>
      refine .pure _ ?_
      have hnone : accepted [] = 0 := rfl
      simp only [surplus, hnone]
      omega
  | none =>
      exact .congr (.ite (fun _ => deliverLocal_changes cfg env node p) fun _ =>
        routeIncoming_changes cfg text env node p dest _) fun _ _ => (Int.sub_zero _).symm

theorem tunifInput_changes (a : Arrival) : Changes (tunifInput cfg text a node)
    (LwipDtn.tunifInput cfg text a node) (surplus node) := by
  rw [LwipDtn.tunifInput]
  refine .acquire_bind (fun hp => ?_) fun p hp => ?_
  · simp only [hp]
    exact .pure _ (surplus_same node rfl)
  · simp only [hp]
    exact processIncoming_changes cfg text a.env node p

theorem tunifInputs_changes (arrivals : List Arrival) : Changes (tunifInputs cfg text arrivals node)
    (LwipDtn.tunifInputs cfg text arrivals node) (surplus node) := by
  induction arrivals generalizing node with
  | nil => exact .pure _ (surplus_same node rfl)
  | cons a rest ih =>
      refine (tunifInput_changes cfg text node a).bind fun ⟨node', effects⟩ _ => ?_
      refine (ih node').bind fun ⟨node'', later⟩ _ => .pure _ ?_
      simp only [surplus, accepted_append]
      omega

end

end Buffers

def GetsStored (cfg : Config) (env : IncomingEnv) (node : Node) (p : Pbuf) : Prop :=
  ∃ dest, Waits cfg env node p dest ∧ StoreAccepts env.store node.storage p

def NoneStored (cfg : Config) (text : AddrText) : List Arrival → Node → Prop
  | [], _ => True
  | a :: rest, node => (∀ p, a.p = some p → ¬ GetsStored cfg a.env node p) ∧
      ∀ node' effects, tunifInput cfg text a node = .ok (node', effects) →
        NoneStored cfg text rest node'

section

variable {cfg : Config} {text : AddrText} {node node' : Node} {effects : List Effect}

theorem accepted_eq_zero {env : IncomingEnv} {p : Pbuf}
    (h : dtnControllerProcessIncoming cfg text env node p = .ok (node', effects)) :
    accepted effects = 0 ↔ ¬ GetsStored cfg env node p := by
  constructor
  · rintro hzero ⟨dest, waits, accepts⟩
    obtain ⟨storage, hstore⟩ := (@storeAccepts_iff text _ _ _ dest).mpr accepts
    simp only [waits.processIncoming, storeIncoming, hstore, Run.bind_ok, if_true] at h
    obtain ⟨ack, -, h⟩ := Run.bind_eq_ok.mp h
    cases h
    rw [accepted, List.countP_cons_of_pos rfl] at hzero
    omega
  · intro hnot
    rw [accepted, Int.natCast_eq_zero, List.countP_eq_zero]
    intro e he haccepted
    cases e with
    | forward | relay | status | deliver => cases haccepted
    | store b taken =>
        cases (show taken = true from haccepted)
        obtain ⟨dest, storage, waits, hstore, -⟩ := stored_of_processIncoming h he
        exact hnot ⟨dest, waits, storeAccepts_iff.mp ⟨storage, hstore⟩⟩

theorem accepted_nonneg (effects : List Effect) : 0 ≤ accepted effects := Int.natCast_nonneg _

theorem tunifInputs_append {first rest : List Arrival} {n : Node} {later : List Effect}
    (hfirst : tunifInputs cfg text first node = .ok (n, effects))
    (hrest : tunifInputs cfg text rest n = .ok (node', later)) :
    tunifInputs cfg text (first ++ rest) node = .ok (node', effects ++ later) := by
  induction first generalizing node effects with
  | nil =>
      cases hfirst
      exact hrest
  | cons a first ih =>
      simp only [tunifInputs, Run.bind_eq_ok] at hfirst
      obtain ⟨⟨m, head⟩, ha, ⟨m', tail⟩, htail, h⟩ := hfirst
      cases h
      simp only [List.cons_append, tunifInputs, ha, ih htail, Run.bind_ok, Run.pure_eq_ok,
        List.append_assoc]

theorem tunifInput_accepted {a : Arrival} (h : tunifInput cfg text a node = .ok (node', effects)) :
    accepted effects = 0 ↔ ∀ p, a.p = some p → ¬ GetsStored cfg a.env node p := by
  rw [tunifInput] at h
  split at h
  · rename_i hp
    cases h
    simp [hp, accepted]
  · rename_i p hp
    rw [accepted_eq_zero h, hp]
    exact ⟨fun hnot q hq => Option.some.inj hq ▸ hnot, fun hnot => hnot p rfl⟩

theorem tunifInputs_accepted {arrivals : List Arrival}
    (h : tunifInputs cfg text arrivals node = .ok (node', effects)) :
    accepted effects = 0 ↔ NoneStored cfg text arrivals node := by
  induction arrivals generalizing node effects with
  | nil =>
      cases h
      exact ⟨fun _ => trivial, fun _ => rfl⟩
  | cons a rest ih =>
      simp only [tunifInputs, Run.bind_eq_ok] at h
      obtain ⟨⟨n, first⟩, hfirst, ⟨n', later⟩, hlater, h⟩ := h
      cases h
      have hsum : accepted (first ++ later) = 0 ↔ accepted first = 0 ∧ accepted later = 0 := by
        have := accepted_nonneg first
        have := accepted_nonneg later
        rw [accepted_append]
        omega
      rw [hsum, tunifInput_accepted hfirst, ih hlater, NoneStored]
      refine and_congr_right fun _ => ⟨fun h n' e hn' => ?_, fun h => h n first hfirst⟩
      cases hfirst.symm.trans hn'
      exact h

end

/-- The buffers are conserved by a packet exactly when it does not get into the storage,
and by a sequence of packets exactly when none of them does. -/
theorem buffers_conserved_iff (cfg : Config) (text : AddrText) :
    (∀ env node p live node' effects live',
      (Buffers.dtnControllerProcessIncoming cfg text env node p).run live =
        .ok ((node', effects), live') →
      (live' = live - 1 + (node'.storage.entries - node.storage.entries) ↔
        ¬ GetsStored cfg env node p)) ∧
    ∀ arrivals node live node' effects live',
      (Buffers.tunifInputs cfg text arrivals node).run live = .ok ((node', effects), live') →
      (live' = live + (node'.storage.entries - node.storage.entries) ↔
        NoneStored cfg text arrivals node) := by
  constructor
  · intro env node p live node' effects live' h
    obtain ⟨hrun, rfl⟩ := (Buffers.processIncoming_changes cfg text env node p).run_eq_ok.mp h
    rw [← accepted_eq_zero hrun, Buffers.surplus]
    dsimp only
    omega
  · intro arrivals node live node' effects live' h
    obtain ⟨hrun, rfl⟩ := (Buffers.tunifInputs_changes cfg text node arrivals).run_eq_ok.mp h
    rw [← tunifInputs_accepted hrun, Buffers.surplus]
    dsimp only
    omega

theorem buffers_conserved_forwarded :
    ∃ node' effects live', (Buffers.dtnControllerProcessIncoming sampleConfig hexAddrText
        (incomingAt 2000 true) emptyNode quietPbuf).run 1 = .ok ((node', effects), live') ∧
      live' = 1 - 1 + (node'.storage.entries - emptyNode.storage.entries) := by
  have returns : Run.Returns ((Buffers.dtnControllerProcessIncoming sampleConfig hexAddrText
      (incomingAt 2000 true) emptyNode quietPbuf).run 1) := by decide +kernel
  obtain ⟨⟨⟨node', effects⟩, live'⟩, run⟩ := returns
  refine ⟨node', effects, live', run, ?_⟩
  refine ((buffers_conserved_iff sampleConfig hexAddrText).1 _ _ _ _ _ _ _ run).mpr ?_
  rintro ⟨dest, waits, -⟩
  exact absurd waits.answer (by decide +kernel)

/-! A node that is told of the arrival of every packet it has stored. -/

/-- The packet arrives while no contact is open, and then its acknowledgement. -/
def drainRound : List Arrival :=
  [⟨some quietPbuf, incomingAt 60 true⟩,
   ⟨some (.single (strayStatus (netAddr 0x12 1)) (List.replicate 64 0) (by decide +kernel)),
    incomingAt 60 true⟩]

/-- After a round the node is as before, but one packet has been accepted. -/
theorem drainRound_returns : ∃ effects,
    tunifInputs sampleConfig hexAddrText drainRound emptyNode = .ok (emptyNode, effects) ∧
      accepted effects = 1 := by
  have hnode : (tunifInputs sampleConfig hexAddrText drainRound emptyNode).toOption.map
      (fun r => (r.1, accepted r.2)) = some (emptyNode, 1) := by decide +kernel
  cases hrun : tunifInputs sampleConfig hexAddrText drainRound emptyNode with
  | error e =>
      rw [hrun] at hnode
      cases hnode
  | ok r =>
      rw [hrun] at hnode
      obtain ⟨hnode, hone⟩ := Prod.mk.inj (Option.some.inj hnode)
      exact ⟨r.2, by rw [← hnode], hone⟩

theorem drain_returns (n : Nat) : ∃ arrivals effects,
    tunifInputs sampleConfig hexAddrText arrivals emptyNode = .ok (emptyNode, effects) ∧
      accepted effects = n := by
  induction n with
  | zero => exact ⟨[], [], rfl, rfl⟩
  | succ n ih =>
      obtain ⟨arrivals, later, hlater, hn⟩ := ih
      obtain ⟨effects, hround, hone⟩ := drainRound_returns
      refine ⟨drainRound ++ arrivals, effects ++ later, tunifInputs_append hround hlater, ?_⟩
      rw [accepted_append, hn, hone, Int.natCast_succ, Int.add_comm]

/-- A packet that is stored leaves two live buffers instead of one, and a sequence of
packets leaves any number of them while the storage is as empty as before. -/
theorem stored_packets_drain_pool :
    (∃ node' effects, node'.storage.entries = emptyNode.storage.entries + 1 ∧
      ∀ live, (Buffers.dtnControllerProcessIncoming sampleConfig hexAddrText
        (incomingAt 60 true) emptyNode quietPbuf).run live =
          .ok ((node', effects), live + 1)) ∧
    ∀ n : Nat, ∃ arrivals effects, ∀ live, (Buffers.tunifInputs sampleConfig hexAddrText arrivals
      emptyNode).run live = .ok ((emptyNode, effects), live + n) := by
  constructor
  · have hleft : (dtnControllerProcessIncoming sampleConfig hexAddrText
        (incomingAt 60 true) emptyNode quietPbuf).toOption.map
          (fun r => (r.1.storage.entries, accepted r.2)) = some (1, 1) := by decide +kernel
    cases hrun : dtnControllerProcessIncoming sampleConfig hexAddrText
        (incomingAt 60 true) emptyNode quietPbuf with
    | error e =>
        rw [hrun] at hleft
        cases hleft
    | ok r =>
        rw [hrun] at hleft
        obtain ⟨hentries, hone⟩ := Prod.mk.inj (Option.some.inj hleft)
        refine ⟨r.1, r.2, hentries, fun live => ?_⟩
        refine (Buffers.processIncoming_changes _ _ _ _ _).run_eq_ok.mpr ⟨hrun, ?_⟩
        rw [Buffers.surplus, hentries, hone]
        rfl
  · intro n
    obtain ⟨arrivals, effects, hrun, hn⟩ := drain_returns n
    refine ⟨arrivals, effects, fun live => ?_⟩
    refine (Buffers.tunifInputs_changes _ _ _ _).run_eq_ok.mpr ⟨hrun, ?_⟩
    rw [Buffers.surplus, hn, Int.sub_self, Int.zero_add]

end LwipDtn
