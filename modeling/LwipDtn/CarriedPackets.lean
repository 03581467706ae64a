import LwipDtn.AckWalk
import LwipDtn.Handoff
import LwipDtn.PassVisits

/-!
Packets on their way through the network. A node wraps a packet in custodian options and
unwraps it again, and stores it in memory and on disk; none of this touches the packet
inside. What one node does with carried packets is carried again, so the network as a
whole only has to follow who hands which packet to whom.
-/

namespace LwipDtn
open Outcome Bytes BoundedFifo

/-- A packet as a host gives it to the network: its header says how long it is, and no
hop-by-hop header follows. -/
structure Plain (b : Bytes) : Prop where
  wf : WellFormed b
  first : nexthOf b ≠ ip6NexthHopbyhop

/-- The packet in custodian options of these nodes, the outermost first. -/
def wrapped (x : Bytes) : List (Block 16) → Bytes
  | [] => x
  | c :: cs => tagged (wrapped x cs) c

/-- A packet of a host with nothing around it but custodian options of these nodes. -/
def Carried (nodes : Block 16 → Prop) (injected : List Bytes) (b : Bytes) : Prop :=
  ∃ x ∈ injected, Plain x ∧ ∃ custodians, (∀ c ∈ custodians, nodes c) ∧ b = wrapped x custodians

section Carried

variable {nodes : Block 16 → Prop} {injected : List Bytes} {b : Bytes}

theorem wrapped_header {x : Bytes} (h : Plain x) (cs : List (Block 16)) :
    40 ≤ (wrapped x cs).length := by
  induction cs with
  | nil => exact h.wf.header
  | cons c cs ih =>
      rw [wrapped, tagged_length c ih]
      omega

theorem wrapped_wellFormed {x : Bytes} (h : Plain x) {cs : List (Block 16)}
    (lt : (wrapped x cs).length < 65536) : WellFormed (wrapped x cs) := by
  induction cs with
  | nil => exact h.wf
  | cons c cs ih =>
      rw [wrapped, tagged_length c (wrapped_header h cs)] at lt
      exact tagged_wellFormed c (ih (by omega)) lt

theorem Carried.of_plain (hmem : b ∈ injected) (h : Plain b) : Carried nodes injected b :=
  ⟨b, hmem, h, [], List.forall_mem_nil _, rfl⟩

theorem Carried.tag (h : Carried nodes injected b) {c : Block 16} (hc : nodes c) :
    Carried nodes injected (tagged b c) := by
  obtain ⟨x, hx, plain, cs, hcs, rfl⟩ := h
  exact ⟨x, hx, plain, c :: cs, List.forall_mem_cons.mpr ⟨hc, hcs⟩, rfl⟩

theorem Carried.mono {later : List Bytes} (h : Carried nodes injected b) (sub : injected ⊆ later) :
    Carried nodes later b := by
  obtain ⟨x, hx, rest⟩ := h
  exact ⟨x, sub hx, rest⟩

theorem Carried.wellFormed (h : Carried nodes injected b) (lt : b.length < 65536) :
    WellFormed b := by
  obtain ⟨x, -, plain, cs, -, rfl⟩ := h
  exact wrapped_wellFormed plain lt

theorem Carried.split (h : Carried nodes injected b) (lt : b.length < 65536) :
    Plain b ∨ ∃ y c, Carried nodes injected y ∧ WellFormed y ∧ y.length + 24 < 65536 ∧
      b = tagged y c := by
  obtain ⟨x, hx, plain, cs, hcs, rfl⟩ := h
  cases cs with
  | nil => exact .inl plain
  | cons c cs =>
      rw [wrapped, tagged_length c (wrapped_header plain cs)] at lt
      exact .inr ⟨wrapped x cs, c, ⟨x, hx, plain, cs, (List.forall_mem_cons.mp hcs).2, rfl⟩,
        wrapped_wellFormed plain (by omega), lt, rfl⟩

end Carried

section Custody

variable {nodes : Block 16 → Prop} {injected : List Bytes} {b behind : Bytes}
  {hb : b.length < 65536} {c : Block 16} {r : Bool} {q : Pbuf}

theorem add_carried {heap : Heap} (h : Carried nodes injected b) (hc : nodes c)
    (hadd : dtnAddCustodianOption heap (.single b behind hb) c = .ok (r, q)) :
    Carried nodes injected q.bytes := by
  obtain hsame | ⟨-, -, htagged⟩ := add_cases (Nat.le_of_eq (h.wellFormed hb).plen) hadd
  · rwa [hsame]
  · rw [htagged]
    exact h.tag hc

theorem update_carried {env : RewriteEnv} (h : Carried nodes injected b) (hc : nodes c)
    (hupdate : dtnUpdateOrAddCustodianOption env (.single b behind hb) c = .ok (r, q)) :
    Carried nodes injected q.bytes := by
  obtain plain | ⟨y, c', hy, wf, fits, rfl⟩ := h.split hb
  · rw [update_plain behind hb env c plain.wf.header plain.first] at hupdate
    exact add_carried h hc hupdate
  · obtain ⟨type, len, -⟩ := tagged_option c' wf.header
    have header : 40 ≤ y.length := wf.header
    obtain ⟨_, hset⟩ := update_custody behind hb env c (by rw [tagged_length c' header]; omega)
      (tagged_nexth c' header) type len
    cases hset.symm.trans hupdate
    rw [Pbuf.single_bytes, retagged_tagged c' c header]
    exact hy.tag hc

/-- Stripping leaves the packet behind the first custodian option, or the packet itself
when there is no memory for a shorter one. Both are in one segment. -/
theorem strip_carried {heap : Heap} (h : Carried nodes injected b)
    (hstrip : dtnStripCustodianOption heap (.single b behind hb) = .ok (r, q)) :
    Carried nodes injected q.bytes ∧ q.chain = [] := by
  obtain plain | ⟨y, c', hy, wf, fits, rfl⟩ := h.split hb
  · rw [strip_other behind hb plain.wf.header plain.first] at hstrip
    cases hstrip
    exact ⟨by rwa [Pbuf.single_bytes], rfl⟩
  have header : 40 ≤ y.length := wf.header
  have hp := wf.plen
  rw [ip6Hlen] at hp
  have hlen := tagged_length c' header
  have hseen : (Pbuf.single (tagged y c') behind hb).seen = tagged y c' := by
    rw [Pbuf.seen, Pbuf.single_totLen, Pbuf.single_mem, List.take_left' rfl]
  obtain ⟨-, hsame⟩ | ⟨-, after, _, hnew⟩ :=
    strip_outcome (p := .single (tagged y c') behind hb) heap
    (by rw [ip6Hlen, Pbuf.len, Pbuf.single_payload]; omega)
    (by rw [Pbuf.single_bytes]; exact tagged_wellFormed c' wf fits)
    (by rw [Pbuf.single_bytes]; exact tagged_nexth c' header)
    (by rw [Pbuf.single_totLen]; omega)
    (by rw [Pbuf.single_totLen, Pbuf.single_mem, List.length_append]; omega)
  · cases hsame.symm.trans hstrip
    exact ⟨by rwa [Pbuf.single_bytes], rfl⟩
  · cases hnew.symm.trans hstrip
    refine ⟨?_, rfl⟩
    rw [Pbuf.single_bytes, hseen, untagged_tagged c' header (by omega)]
    exact hy

end Custody

/-- Whatever the loader makes of the file is carried. -/
def FileCarried (nodes : Block 16 → Prop) (injected : List Bytes) (f : Bytes) : Prop :=
  ∀ env name e, dtnStorageLoadPacketFromFile env name f = some e → Carried nodes injected e.p.bytes

/-- The packets in memory and the packets that a restart could load. -/
structure StorageCarried (nodes : Block 16 → Prop) (injected : List Bytes) (s : StorageFunction) :
    Prop where
  packets : ∀ e ∈ s.packetListHead, Carried nodes injected e.p.bytes ∧ e.p.chain = []
  files : ∀ f ∈ s.disk, FileCarried nodes injected f.2

section Storage

variable {nodes : Block 16 → Prop} {injected : List Bytes} {text : AddrText}
  {s s' : StorageFunction}

theorem fileCarried_take {e : StoredPacketEntry} (h : Carried nodes injected e.p.bytes) (n : Nat) :
    FileCarried nodes injected (e.file.2.take n) := by
  intro env name e' hload
  by_cases cut : n < packetFileHeaderLen + e.p.totLen
  · rw [load_cut env name e cut] at hload
    cases hload
  · rw [List.take_of_length_le (by rw [e.file_length]; omega)] at hload
    rwa [load_whole hload]

theorem save_carried {env : SaveEnv} {disk disk' : Disk} {saved : Bool} {e e' : StoredPacketEntry}
    (files : ∀ f ∈ disk, FileCarried nodes injected f.2) (h : Carried nodes injected e.p.bytes)
    (hsave : dtnStorageSavePacketToDisk text env disk e = (saved, e', disk')) :
    ∀ f ∈ disk', FileCarried nodes injected f.2 := by
  obtain ⟨rfl, rfl, -, -⟩ := save_writes hsave
  intro f hf
  split at hf
  · obtain ⟨-, hf⟩ | rfl := Disk.mem_write.mp hf
    · exact files f hf
    · exact fileCarried_take (e := e.named text) h _
  · exact files f hf

theorem store_saves {env : StoreEnv} {p : Pbuf} {dest : Ip6Addr} {r : Bool}
    (h : dtnStorageStorePacket text env s p dest = .ok (r, s')) :
    s' = s ∨ ∃ copy stripped q saved entry, pbufClone env.copy p = some copy ∧
      dtnStripCustodianOption env.strip copy = .ok (stripped, q) ∧
      dtnStorageSavePacketToDisk text env.save s.disk ⟨q, dest, env.now, []⟩ =
        (saved, entry, s'.disk) ∧
      ∀ e ∈ s'.packetListHead, e ∈ s.packetListHead ∨ e.p = q := by
  rw [dtnStorageStorePacket] at h
  split at h
  · cases h
    exact .inl rfl
  split at h
  · cases h
    exact .inl rfl
  rename_i copy hcopy
  rw [Run.bind_eq_ok] at h
  obtain ⟨⟨stripped, q⟩, hstrip, h⟩ := h
  dsimp only at h
  split at h
  · cases h
    exact .inl rfl
  generalize hsave : dtnStorageSavePacketToDisk text env.save s.disk ⟨q, dest, env.now, []⟩ = res
    at h
  obtain ⟨saved, entry, disk⟩ := res
  obtain ⟨hentry, -⟩ := save_cases hsave
  cases saved with
  | false =>
      cases h
      exact .inr ⟨copy, stripped, q, false, entry, hcopy, hstrip, hsave, fun e he => .inl he⟩
  | true =>
      cases h
      refine .inr ⟨copy, stripped, q, true, entry, hcopy, hstrip, hsave, fun e he => ?_⟩
      exact (List.mem_append.mp he).imp id fun hlast => by
        rw [List.mem_singleton.mp hlast, hentry]
        rfl

theorem StorageCarried.store (h : StorageCarried nodes injected s) {env : StoreEnv} {p : Pbuf}
    {dest : Ip6Addr} {r : Bool} (hp : Carried nodes injected p.bytes)
    (hstore : dtnStorageStorePacket text env s p dest = .ok (r, s')) :
    StorageCarried nodes injected s' := by
  obtain rfl | ⟨copy, stripped, q, saved, entry, hcopy, hstrip, hsave, hentries⟩ :=
    store_saves hstore
  · exact h
  obtain ⟨behind, hb, rfl⟩ := pbufClone_single hcopy
  have hq := strip_carried hp hstrip
  refine ⟨fun e he => ?_, save_carried h.files hq.1 hsave⟩
  obtain hold | rfl := hentries e he
  · exact h.packets e hold
  · exact hq

theorem StorageCarried.unlinked (h : StorageCarried nodes injected s) (removed : Bool)
    {e : StoredPacketEntry} {rest : List StoredPacketEntry}
    (taken : Takes s.packetListHead e rest) :
    StorageCarried nodes injected (s.unlinked removed e rest) := by
  refine ⟨fun e' he' => h.packets e' (taken.perm.symm.subset (List.mem_cons_of_mem e he')),
    fun f hf => ?_⟩
  rw [StorageFunction.unlinked, dtnStorageRemovePacketFromDisk] at hf
  dsimp only at hf
  split at hf
  · exact h.files f (List.mem_filter.mp hf).1
  · exact h.files f hf

theorem StorageCarried.create {disk : Disk} (hfiles : ∀ f ∈ disk, FileCarried nodes injected f.2)
    {env : CreateEnv disk} (hcreate : dtnStorageCreate env = some s) :
    StorageCarried nodes injected s := by
  obtain ⟨hpackets, hdisk⟩ := create_forall
    (P := fun e => Carried nodes injected e.p.bytes ∧ e.p.chain = []) hcreate
    fun f hf env e hload => by
      obtain ⟨-, -, -, hchain, -⟩ := load_some hload
      exact ⟨hfiles f hf env f.1 e hload, hchain⟩
  exact ⟨hpackets, by rwa [hdisk]⟩

theorem StorageCarried.mono {later : List Bytes} (h : StorageCarried nodes injected s)
    (sub : injected ⊆ later) : StorageCarried nodes later s :=
  ⟨fun e he => ⟨(h.packets e he).1.mono sub, (h.packets e he).2⟩, fun f hf env name e hload =>
    (h.files f hf env name e hload).mono sub⟩

end Storage

/-- A received-message that quotes the packet as far as the packet goes. -/
structure ReportsOn (message packet : Bytes) : Prop where
  nexth : nexthOf message = ip6NexthIcmp6
  type : message.getD ip6Hlen 0 = icmp6TypeDtnPckReceived
  length : message.length = 105
  quote : packet.take quotedLen <+: message.drop 57

/-- What an effect hands on is carried, and a status message is about a carried packet. -/
def Effect.Carries (nodes : Block 16 → Prop) (injected : List Bytes) : Effect → Prop
  | .forward t => Carried nodes injected t.packet
  | .relay t => Carried nodes injected t.packet
  | .status t packet => Carried nodes injected packet ∧ ReportsOn t.packet packet
  | .deliver packet => Carried nodes injected packet
  | .store packet _ => Carried nodes injected packet

section Events

variable {nodes : Block 16 → Prop} {injected : List Bytes} {cfg : Config} {text : AddrText}
  {node node' : Node} {effects : List Effect}

theorem Effect.Carries.mono {later : List Bytes} {e : Effect} (h : e.Carries nodes injected)
    (sub : injected ⊆ later) : e.Carries nodes later := by
  cases e with
  | forward t => exact Carried.mono h sub
  | relay t => exact Carried.mono h sub
  | status t packet => exact ⟨h.1.mono sub, h.2⟩
  | deliver packet => exact Carried.mono h sub
  | store packet accepted => exact Carried.mono h sub

theorem Acknowledges.carries {stored : List Bytes} {packet : Bytes}
    (h : Acknowledges cfg stored packet effects) (hp : Carried nodes injected packet) :
    ∀ e ∈ effects, e.Carries nodes injected := by
  cases h with
  | none => exact List.forall_mem_nil _
  | sent env code dest plen old full =>
      obtain ⟨hlength, hdrop⟩ :=
        @statusPacket_quote cfg env icmp6TypeDtnPckReceived code 0 dest plen
          (packet.take quotedLen) old full
      refine List.forall_mem_singleton.mpr ⟨hp, statusPacket_nexth _ _ _ _ _ _ _ _, ?_, hlength,
        by rw [hdrop]; exact List.prefix_append _ _⟩
      rw [List.getD_eq_getElem?_getD, statusPacket]
      simp [be16, ip6Hlen, cfg.myAddr.2, dest.2, List.getElem?_append]

theorem ReportsOn.consumed {env : IncomingEnv} {p : Pbuf} {packet : Bytes}
    (h : ReportsOn p.bytes packet)
    (hrun : dtnControllerProcessIncoming cfg text env node p = .ok (node', effects)) :
    effects = [] := by
  refine Classical.byContradiction fun nonempty => ?_
  have header := header_of_effects hrun nonempty
  by_cases version : (p.payload.getD 0 0).toNat / 16 = 6
  · obtain ⟨-, passes⟩ := passes_of_processIncoming header version hrun nonempty
    obtain ⟨q, type, hclone, htype, hother⟩ := passes h.nexth
    obtain ⟨behind, hb, rfl⟩ := pbufClone_single hclone
    rw [byteAt_mem_single behind hb (by rw [h.length]; decide), h.type] at htype
    cases htype
    exact hother (by decide)
  · rw [dtnControllerProcessIncoming, if_neg (Nat.not_lt.mpr header), if_pos version] at hrun
    cases hrun
    exact nonempty rfl

/-- What arrives at a node: a carried packet in one segment, or a status message. -/
def ArrivesCarried (nodes : Block 16 → Prop) (injected : List Bytes) (p : Pbuf) : Prop :=
  p.chain = [] ∧ (Carried nodes injected p.bytes ∨ ∃ packet, ReportsOn p.bytes packet)

theorem consumeStatus_carried {env : IncomingEnv} {p : Pbuf}
    (hs : StorageCarried nodes injected node.storage)
    (h : consumeStatus env node p = .ok (some node')) :
    StorageCarried nodes injected node'.storage := by
  obtain ⟨-, rfl | ⟨q, -, hprocess⟩⟩ := consumeStatus_inv h
  · exact hs
  obtain rfl | ⟨dest, -, hdelete, -, -⟩ := icmpv6Process_inv hprocess
  · exact hs
  obtain hsame | ⟨e, rest, hunlinked, taken, -⟩ := deleteAcknowledged_inv hdelete
  · rwa [hsame]
  · rw [hunlinked]
    exact hs.unlinked _ taken

theorem incoming_carries {env : IncomingEnv} {p : Pbuf} (own : nodes cfg.myAddr)
    (hs : StorageCarried nodes injected node.storage) (arrives : ArrivesCarried nodes injected p)
    (hrun : dtnControllerProcessIncoming cfg text env node p = .ok (node', effects)) :
    StorageCarried nodes injected node'.storage ∧ ∀ e ∈ effects, e.Carries nodes injected := by
  have hp (nonempty : effects ≠ []) : Carried nodes injected p.bytes := by
    obtain ⟨-, hp | ⟨packet, hstatus⟩⟩ := arrives
    · exact hp
    · exact absurd (hstatus.consumed hrun) nonempty
  cases processIncoming_cases hrun with
  | dropped => exact ⟨hs, List.forall_mem_nil _⟩
  | consumed _ hconsumed => exact ⟨consumeStatus_carried hs hconsumed, List.forall_mem_nil _⟩
  | delivered _ hack =>
      have hp := hp (by simp)
      exact ⟨hs, List.forall_mem_append.mpr ⟨hack.carries hp, List.forall_mem_singleton.mpr hp⟩⟩
  | forwarded _ _ _ rewritten =>
      have hp := hp (List.cons_ne_nil _ _)
      obtain ⟨hb, heq⟩ := Pbuf.eq_single arrives.1
      rw [heq] at rewritten hp
      rw [Pbuf.single_bytes] at hp
      exact ⟨hs, List.forall_mem_singleton.mpr (update_carried hp own rewritten)⟩
  | refused hstore =>
      have hp := hp (List.cons_ne_nil _ _)
      exact ⟨hs.store hp hstore, List.forall_mem_singleton.mpr hp⟩
  | stored _ hstore hack =>
      have hp := hp (List.cons_ne_nil _ _)
      exact ⟨hs.store hp hstore, List.forall_mem_cons.mpr ⟨hp, hack.carries hp⟩⟩
  | relayed _ _ =>
      exact ⟨hs, List.forall_mem_singleton.mpr (hp (List.cons_ne_nil _ _))⟩

theorem Forwards.carries {env : PassEnv} {entry : StoredPacketEntry} (own : nodes cfg.myAddr)
    (hp : Carried nodes injected entry.p.bytes) (h : Forwards cfg env node entry effects) :
    ∀ e ∈ effects, e.Carries nodes injected := by
  cases h with
  | skipped => exact List.forall_mem_nil _
  | delivered _ hack =>
      exact List.forall_mem_append.mpr ⟨hack.carries hp, List.forall_mem_singleton.mpr hp⟩
  | forwarded _ _ _ copied added =>
      obtain ⟨behind, hb, rfl⟩ := pbufClone_single copied
      exact List.forall_mem_singleton.mpr (add_carried hp own added)

theorem attempt_carried {env : AttemptEnv} {dest : Ip6Addr} {attempt : Bool}
    (hs : StorageCarried nodes injected node.storage)
    (h : shouldAttemptForward env node dest = .ok (attempt, node')) :
    StorageCarried nodes injected node'.storage := by
  obtain hsame | ⟨-, e, rest, hunlinked, taken⟩ := shouldAttemptForward_cases h
  · rwa [hsame]
  · rw [hunlinked]
    exact hs.unlinked _ taken.takes

/-- A node that is given carried packets hands on carried packets. -/
theorem NodeEvent.carries {event : NodeEvent} (own : nodes cfg.myAddr)
    (hs : StorageCarried nodes injected node.storage)
    (arrives : ∀ env p, event = .incoming env p → ArrivesCarried nodes injected p)
    (hrun : event.run cfg text node = .ok (node', effects)) :
    StorageCarried nodes injected node'.storage ∧ ∀ e ∈ effects, e.Carries nodes injected := by
  cases event with
  | incoming env p => exact incoming_carries own hs (arrives env p rfl) hrun
  | pass env =>
      exact attemptForwardStored_rule (P := fun n => StorageCarried nodes injected n.storage)
        (R := fun l => ∀ e ∈ l, e.Carries nodes injected) (List.forall_mem_nil _)
        (fun _ _ hl hl' => List.forall_mem_append.mpr ⟨hl, hl'⟩)
        (fun _ _ _ _ _ hn _ hattempt => attempt_carried hn hattempt)
        (fun _ _ entry _ hn hmem hsent => hsent.carries own (hn.packets entry hmem).1) hrun hs

end Events

/-- The packet is for the local stack of the node. -/
def Config.Home (cfg : Config) (b : Bytes) : Prop := ∃ a ∈ cfg.localAddrs, a.1 = destOf b

section Home

variable {cfg : Config} {text : AddrText} {node node' : Node} {effects : List Effect} {b : Bytes}

theorem destOf_addresses (b : Bytes) : destOf b = (((b.drop 7).take 33).drop 17).take 16 := by
  rw [destOf, List.drop_take, List.drop_drop, List.take_take]
  rfl

theorem destOf_tagged (c : Block 16) (h : 40 ≤ b.length) : destOf (tagged b c) = destOf b := by
  obtain ⟨v, t, r, hi, lo, n, rfl, hv, ht⟩ := header_split h
  rw [tagged_split c hv ht, destOf_addresses, destOf_addresses, be16,
    List.append_assoc _ (hbhHdr n c),
    split_addresses hv ht, split_addresses hv ht]

theorem destOf_wrapped {x : Bytes} (h : Plain x) (cs : List (Block 16)) :
    destOf (wrapped x cs) = destOf x := by
  induction cs with
  | nil => rfl
  | cons c cs ih => rw [wrapped, destOf_tagged c (wrapped_header h cs), ih]

theorem ip6AddrAt_dest {p : Pbuf} {dest : Ip6Addr} (header : ip6Hlen ≤ p.len)
    (h : ip6AddrAt p.mem 24 = .ok dest) : dest.addr.1 = destOf p.bytes := by
  simp only [ip6AddrAt, Run.bind_eq_ok] at h
  obtain ⟨raw, hraw, addr, haddr, zone, -, padding, -, h⟩ := h
  cases h
  rw [← destOf_payload header, (readBlock_eq_ok.mp haddr).2, (readBlock_eq_ok.mp hraw).2,
    List.drop_zero, List.take_take, Pbuf.mem,
    List.drop_append_of_le_length (Nat.le_trans (by decide) header),
    List.take_append_of_le_length (by rw [List.length_drop]; exact Nat.le_sub_of_add_le header)]
  rfl

theorem Config.isLocal_home {p : Pbuf} {dest : Ip6Addr} (header : ip6Hlen ≤ p.len)
    (hdest : ip6AddrAt p.mem 24 = .ok dest) (home : cfg.isLocal dest = true) :
    cfg.Home p.bytes :=
  ⟨dest.addr, List.contains_iff_mem.mp home, ip6AddrAt_dest header hdest⟩

theorem Acknowledges.not_deliver {stored : List Bytes} {packet : Bytes}
    (h : Acknowledges cfg stored packet effects) : Effect.deliver b ∉ effects := by
  cases h with
  | none => exact List.not_mem_nil
  | sent => exact fun hmem => by cases List.mem_singleton.mp hmem

theorem routeIncoming_not_deliver {env : IncomingEnv} {p : Pbuf} {dest : Ip6Addr}
    {sender : Block 16}
    (h : routeIncoming cfg text env node p dest sender = .ok (node', effects)) :
    Effect.deliver b ∉ effects := by
  intro hmem
  rw [routeIncoming] at h
  split at h
  · rw [Run.bind_eq_ok] at h
    obtain ⟨query, -, h⟩ := h
    rw [Run.bind_eq_ok] at h
    obtain ⟨answer, -, h⟩ := h
    split at h
    · rw [forwardDirect, Run.bind_eq_ok] at h
      obtain ⟨r, -, h⟩ := h
      cases h
      cases List.mem_singleton.mp hmem
    · rw [storeIncoming, Run.bind_eq_ok] at h
      obtain ⟨⟨accepted, storage⟩, -, h⟩ := h
      cases accepted with
      | false =>
          cases h
          cases List.mem_singleton.mp hmem
      | true =>
          dsimp only at h
          rw [if_pos rfl, Run.bind_eq_ok] at h
          obtain ⟨ack, hack, h⟩ := h
          cases h
          rcases List.mem_cons.mp hmem with hmem | hmem
          · cases hmem
          · exact (acknowledge_cases hack).not_deliver hmem
  · cases h
    cases List.mem_singleton.mp hmem

theorem incoming_home {env : IncomingEnv} {p : Pbuf}
    (h : dtnControllerProcessIncoming cfg text env node p = .ok (node', effects))
    (hmem : Effect.deliver b ∈ effects) : cfg.Home b := by
  have header := header_of_effects h (List.ne_nil_of_mem hmem)
  rw [dtnControllerProcessIncoming, if_neg (Nat.not_lt.mpr header)] at h
  split at h
  · cases h
    cases hmem
  simp only [Run.bind_eq_ok] at h
  obtain ⟨src, -, dest, hdest, custodian, -, consumed, -, h⟩ := h
  cases consumed with
  | some n =>
      cases h
      cases hmem
  | none =>
      dsimp only at h
      split at h
      · rename_i home
        rw [deliverLocal, Run.bind_eq_ok] at h
        obtain ⟨ack, hack, h⟩ := h
        cases h
        rcases List.mem_append.mp hmem with hmem | hmem
        · exact absurd hmem (acknowledge_cases hack).not_deliver
        · cases List.mem_singleton.mp hmem
          exact Config.isLocal_home header hdest home
      · exact absurd hmem (routeIncoming_not_deliver h)

theorem forwardEntry_home {env : PassEnv} {entry : StoredPacketEntry}
    (header : ip6Hlen ≤ entry.p.len)
    (h : forwardEntry cfg env node entry = .ok effects) (hmem : Effect.deliver b ∈ effects) :
    cfg.Home b := by
  simp only [forwardEntry, Run.bind_eq_ok] at h
  obtain ⟨src, -, dest, hdest, custodian, -, query, -, answer, -, h⟩ := h
  split at h
  · cases h
    cases hmem
  split at h
  · cases h
    cases hmem
  rename_i copy hcopy
  rw [forwardCopy] at h
  split at h
  · rename_i home
    rw [Run.bind_eq_ok] at h
    obtain ⟨ack, hack, h⟩ := h
    cases h
    rcases List.mem_append.mp hmem with hmem | hmem
    · exact absurd hmem (acknowledge_cases hack).not_deliver
    · cases List.mem_singleton.mp hmem
      rw [pbufClone_bytes hcopy]
      exact Config.isLocal_home header hdest home
  · rw [Run.bind_eq_ok] at h
    obtain ⟨⟨r, q⟩, -, h⟩ := h
    cases h
    cases List.mem_singleton.mp hmem

/-- Every effect of a pass belongs to a packet that was stored when the pass began. -/
theorem pass_effect {env : Nat → PassEnv} {e : Effect}
    (h : dtnControllerAttemptForwardStored cfg env node = .ok (node', effects))
    (hmem : e ∈ effects) :
    ∃ k entry n sent, entry ∈ node.storage.packetListHead ∧
      forwardEntry cfg (env k) n entry = .ok sent ∧ e ∈ sent := by
  rw [attemptForwardStored_eq] at h
  cases hvisits : passVisits cfg env node with
  | error stop =>
      rw [hvisits] at h
      cases h
  | ok r =>
      obtain ⟨n, visits⟩ := r
      rw [hvisits] at h
      cases h
      obtain ⟨v, hv, he⟩ := List.mem_flatMap.mp hmem
      obtain ⟨k, hk⟩ := List.getElem?_of_mem hv
      have hentry : node.storage.packetListHead[k]? = some v.entry := by
        rw [← visits_entries hvisits, List.getElem?_map, hk, Option.map_some]
      obtain ⟨-, answer, v', -, -, hsent, hk'⟩ := visit_at hvisits hentry
      cases hk.symm.trans hk'
      rw [visitEffects] at hsent
      split at hsent
      · exact ⟨_, v.entry, v.after, v.sent, List.mem_of_getElem? hentry, hsent, he⟩
      · rw [← Except.ok.inj hsent] at he
        cases he

theorem NodeEvent.home {nodes : Block 16 → Prop} {injected : List Bytes} {event : NodeEvent}
    (hs : StorageCarried nodes injected node.storage)
    (hrun : event.run cfg text node = .ok (node', effects)) (hmem : Effect.deliver b ∈ effects) :
    cfg.Home b := by
  cases event with
  | incoming env p => exact incoming_home hrun hmem
  | pass env =>
      obtain ⟨k, entry, n, sent, hentry, hsent, hmem⟩ := pass_effect hrun hmem
      obtain ⟨carried, hchain⟩ := hs.packets entry hentry
      have header :=
        (carried.wellFormed (by rw [Pbuf.bytes_length]; exact entry.p.totLen_lt)).header
      rw [Pbuf.bytes, hchain, List.append_nil] at header
      exact forwardEntry_home header hsent hmem

end Home

end LwipDtn
