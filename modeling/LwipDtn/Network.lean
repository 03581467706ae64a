import LwipDtn.CarriedPackets

/-!
A network of any number of nodes. Hosts give packets to it, the links lose, repeat and
reorder what the nodes send, and a node may be restarted at any time and then finds what
its directory holds. Whatever happens, the packets that travel, wait and arrive are the
packets of the hosts.
-/

namespace LwipDtn
open Outcome Bytes BoundedFifo Runs

variable {ι : Type}

/-- The nodes with what each has done, and the packets that hosts have sent. -/
structure Network (ι : Type) where
  nodes : ι → NodeTrace
  injected : List Bytes

inductive NetworkEvent (ι : Type) where
  | inject (packet : Bytes)
  | node (i : ι) (event : NodeEvent)
  | restart (i : ι)

/-- The node comes up over its own directory; what it has sent stays sent. -/
structure NodeTrace.Restarts (s s' : NodeTrace) : Prop where
  attempts : s'.node.attempts = dtnControllerCreate
  storage : ∃ env : CreateEnv s.node.storage.disk, dtnStorageCreate env = some s'.node.storage
  log : s'.log = s.log

section

variable [DecidableEq ι]

def Network.set (net : Network ι) (i : ι) (s : NodeTrace) : Network ι :=
  { net with nodes := fun j => if j = i then s else net.nodes j }

theorem Network.set_self (net : Network ι) (i : ι) (s : NodeTrace) : (net.set i s).nodes i = s :=
  if_pos rfl

theorem Network.set_of_ne (net : Network ι) {i j : ι} (h : j ≠ i) (s : NodeTrace) :
    (net.set i s).nodes j = net.nodes j :=
  if_neg h

/-- One node moves, or a host sends a packet. -/
def Network.Step (cfg : ι → Config) (text : AddrText) (net : Network ι) (event : NetworkEvent ι)
    (net' : Network ι) : Prop :=
  match event with
  | .inject packet => net' = { net with injected := packet :: net.injected }
  | .node i event => ∃ s, (net.nodes i).next (cfg i) text event = .ok s ∧ net' = net.set i s
  | .restart i => ∃ s, (net.nodes i).Restarts s ∧ net' = net.set i s

/-- The network starts with empty directories. -/
def networkSystem (cfg : ι → Config) (text : AddrText) : System (Network ι) (NetworkEvent ι) where
  start net := net.injected = [] ∧
    ∀ i, (net.nodes i).Fresh ∧ (net.nodes i).node.storage.disk = []
  step := Network.Step cfg text

end

/-- Hosts send plain packets, and what reaches a node was sent by a host or by a node and
arrives in one segment. -/
def Network.Links (net : Network ι) : NetworkEvent ι → Prop
  | .inject packet => Plain packet
  | .node _ (.incoming _ p) =>
      p.chain = [] ∧ (p.bytes ∈ net.injected ∨ ∃ j, p.bytes ∈ transmitted (net.nodes j).log)
  | .node _ (.pass _) => True
  | .restart _ => True

/-- What holds of a node at any time. -/
structure NodeTrace.Sound (cfg : Config) (names : Block 16 → Prop) (injected : List Bytes)
    (s : NodeTrace) : Prop where
  storage : StorageCarried names injected s.node.storage
  effects : ∀ e ∈ s.log, e.Carries names injected
  home : ∀ b, Effect.deliver b ∈ s.log → cfg.Home b

/-- The address that a node puts into its custodian options. -/
def IsNode (cfg : ι → Config) (addr : Block 16) : Prop := ∃ i, (cfg i).myAddr = addr

structure Network.Sound (cfg : ι → Config) (net : Network ι) : Prop where
  plain : ∀ b ∈ net.injected, Plain b
  nodes : ∀ i, (net.nodes i).Sound (cfg i) (IsNode cfg) net.injected

section

variable {c : Config} {names : Block 16 → Prop} {injected : List Bytes} {text : AddrText}
  {s s' : NodeTrace}

theorem NodeTrace.Fresh.sound (h : s.Fresh) (empty : s.node.storage.disk = []) :
    s.Sound c names [] := by
  obtain ⟨⟨-, disk, env, hcreate⟩, hlog⟩ := h
  have hdisk : s.node.storage.disk = disk :=
    (create_forall (P := fun _ => True) hcreate fun _ _ _ _ _ => trivial).2
  refine ⟨StorageCarried.create ?_ hcreate, ?_, ?_⟩
  · rw [← hdisk, empty]
    exact List.forall_mem_nil _
  · rw [hlog]
    exact List.forall_mem_nil _
  · rw [hlog]
    exact fun b hb => absurd hb List.not_mem_nil

theorem NodeTrace.Sound.mono {later : List Bytes} (h : s.Sound c names injected)
    (sub : injected ⊆ later) : s.Sound c names later :=
  ⟨h.storage.mono sub, fun e he => (h.effects e he).mono sub, h.home⟩

theorem NodeTrace.Sound.restart (h : s.Sound c names injected) (restarts : s.Restarts s') :
    s'.Sound c names injected := by
  obtain ⟨-, ⟨env, hcreate⟩, hlog⟩ := restarts
  exact ⟨.create h.storage.files hcreate, by rw [hlog]; exact h.effects, by rw [hlog]; exact h.home⟩

theorem NodeTrace.Sound.next {event : NodeEvent} (own : names c.myAddr)
    (h : s.Sound c names injected)
    (arrives : ∀ env p, event = .incoming env p → ArrivesCarried names injected p)
    (hnext : s.next c text event = .ok s') : s'.Sound c names injected := by
  obtain ⟨effects, hrun, hlog⟩ := NodeTrace.next_cases hnext
  obtain ⟨hstorage, heffects⟩ := NodeEvent.carries own h.storage arrives hrun
  refine ⟨hstorage, ?_, fun b hb => ?_⟩
  · rw [hlog]
    exact List.forall_mem_append.mpr ⟨h.effects, heffects⟩
  · rw [hlog] at hb
    exact (List.mem_append.mp hb).elim (h.home b) (NodeEvent.home h.storage hrun)

/-- What a node has sent is a carried packet or a status message. -/
theorem NodeTrace.Sound.transmitted (h : s.Sound c names injected) {b : Bytes}
    (hb : b ∈ LwipDtn.transmitted s.log) :
    Carried names injected b ∨ ∃ packet, ReportsOn b packet := by
  obtain ⟨e, he, hsent⟩ := List.mem_filterMap.mp hb
  have carries := h.effects e he
  cases e with
  | forward t =>
      obtain ⟨t', ht, rfl⟩ := Option.map_eq_some_iff.mp hsent
      cases (Option.filter_eq_some_iff.mp ht).1
      exact .inl carries
  | relay t =>
      obtain ⟨t', ht, rfl⟩ := Option.map_eq_some_iff.mp hsent
      cases (Option.filter_eq_some_iff.mp ht).1
      exact .inl carries
  | status t packet =>
      obtain ⟨t', ht, rfl⟩ := Option.map_eq_some_iff.mp hsent
      cases (Option.filter_eq_some_iff.mp ht).1
      exact .inr ⟨packet, carries.2⟩
  | deliver packet => cases hsent
  | store packet accepted => cases hsent

end

section

variable {cfg : ι → Config} {text : AddrText} {net : Network ι}

theorem Network.Sound.arrives (h : net.Sound cfg) {i : ι} {event : NodeEvent}
    (links : net.Links (.node i event)) (env : IncomingEnv) (p : Pbuf)
    (incoming : event = .incoming env p) : ArrivesCarried (IsNode cfg) net.injected p := by
  cases incoming
  obtain ⟨hchain, hhost | ⟨j, hnode⟩⟩ := links
  · exact ⟨hchain, .inl (.of_plain hhost (h.plain _ hhost))⟩
  · exact ⟨hchain, (h.nodes j).transmitted hnode⟩

variable [DecidableEq ι]

theorem Network.Sound.set (h : net.Sound cfg) {i : ι} {s : NodeTrace}
    (hs : s.Sound (cfg i) (IsNode cfg) net.injected) : (net.set i s).Sound cfg := by
  refine ⟨h.plain, fun j => ?_⟩
  by_cases hj : j = i
  · subst hj
    rw [net.set_self]
    exact hs
  · rw [net.set_of_ne hj]
    exact h.nodes j

theorem Network.Sound.step {event : NetworkEvent ι} {net' : Network ι} (h : net.Sound cfg)
    (links : net.Links event) (hstep : net.Step cfg text event net') : net'.Sound cfg := by
  cases event with
  | inject packet =>
      cases hstep
      exact ⟨List.forall_mem_cons.mpr ⟨links, h.plain⟩, fun i =>
        (h.nodes i).mono (List.subset_cons_self _ _)⟩
  | node i event =>
      obtain ⟨s, hnext, rfl⟩ := hstep
      exact h.set ((h.nodes i).next ⟨i, rfl⟩ (h.arrives links) hnext)
  | restart i =>
      obtain ⟨s, restarts, rfl⟩ := hstep
      exact h.set ((h.nodes i).restart restarts)

/-- In every run of the network, whatever the links and the allocators do and however
often nodes are restarted, a packet that is forwarded, relayed, stored, acknowledged or
delivered is a packet of a host with nothing around it but custodian options of nodes of
the network, and a packet that reaches the local stack of a node is addressed to it. -/
theorem network_keeps_packets_intact (cfg : ι → Config) (text : AddrText) (net : Network ι)
    (h : (networkSystem cfg text).Reaches Network.Links net) (i : ι) :
    (∀ e ∈ (net.nodes i).log, e.Carries (IsNode cfg) net.injected) ∧
    (∀ b ∈ (net.nodes i).node.stored, Carried (IsNode cfg) net.injected b) ∧
    ∀ b, Effect.deliver b ∈ (net.nodes i).log → ∃ x ∈ net.injected,
      (∃ custodians, b = wrapped x custodians) ∧ (cfg i).Home x := by
  have sound : net.Sound cfg := by
    refine h.invariant (P := fun net => net.Sound cfg) ?_ fun _ _ _ sound links hstep =>
      sound.step links hstep
    rintro ⟨nodes, injected⟩ ⟨hinjected, hnodes⟩
    cases hinjected
    exact ⟨List.forall_mem_nil _, fun i => (hnodes i).1.sound (hnodes i).2⟩
  obtain ⟨hstorage, heffects, hhome⟩ := sound.nodes i
  refine ⟨heffects, fun b hb => ?_, fun b hb => ?_⟩
  · obtain ⟨e, he, rfl⟩ := List.mem_map.mp hb
    exact (hstorage.packets e he).1
  · obtain ⟨x, hx, plain, custodians, -, rfl⟩ := heffects _ hb
    obtain ⟨a, ha, hdest⟩ := hhome _ hb
    exact ⟨x, hx, ⟨custodians, rfl⟩, a, ha, hdest.trans (destOf_wrapped plain custodians)⟩

theorem Network.node_reached {cfg : ι → Config} {text : AddrText} {net : Network ι}
    (run : (networkSystem cfg text).Reaches Network.Links net) (i : ι) (event : NodeEvent)
    (links : net.Links (.node i event))
    (returns : Run.Returns ((net.nodes i).next (cfg i) text event)) :
    (networkSystem cfg text).Reaches Network.Links
      (net.set i ((net.nodes i).after (cfg i) text event)) := by
  obtain ⟨s, h⟩ := returns
  rw [NodeTrace.after, h]
  exact run.step links ⟨s, h, rfl⟩

end

/-! A packet that waits at one node, outlives a restart and is delivered by the other. -/

def farConfig : Config := ⟨netAddr 0x12 2, [netAddr 0x23 3]⟩

def sampleNetwork : Bool → Config
  | false => sampleConfig
  | true => farConfig

def restartEnv : CreateEnv storedFirst.node.storage.disk where
  storage := true
  directory := true
  opendir := true
  listing := ⟨storedFirst.node.storage.disk, .refl _⟩
  load := fun _ => ⟨true, true, smallHeap, true⟩

def restarted : NodeTrace :=
  ⟨⟨(dtnStorageCreate restartEnv).getD emptyStorage, dtnControllerCreate⟩, storedFirst.log⟩

theorem storedFirst_restarts : storedFirst.Restarts restarted := by
  have comesUp : (dtnStorageCreate restartEnv).isSome = true := by decide +kernel
  obtain ⟨s, hs⟩ := Option.isSome_iff_exists.mp comesUp
  refine ⟨rfl, ⟨restartEnv, ?_⟩, rfl⟩
  rw [restarted, hs, Option.getD_some]

def waitingNetwork : Network Bool :=
  Network.set (Network.set ⟨fun _ => ⟨emptyNode, []⟩, [quietPacket]⟩ false storedFirst) false
    restarted

def sentNetwork : Network Bool :=
  waitingNetwork.set false
    ((waitingNetwork.nodes false).after sampleConfig hexAddrText (.pass fun _ => passAt 2000))

theorem handedOn_length_lt : (tagged quietPacket sampleConfig.myAddr).length < 65536 := by decide

def handedOn : Pbuf :=
  .single (tagged quietPacket sampleConfig.myAddr) (List.replicate 64 0) handedOn_length_lt

def deliveredNetwork : Network Bool :=
  sentNetwork.set true
    ((sentNetwork.nodes true).after farConfig hexAddrText
      (.incoming (incomingAt 2001 true) handedOn))

theorem waitingNetwork_reached :
    (networkSystem sampleNetwork hexAddrText).Reaches Network.Links waitingNetwork := by
  have empty : (networkSystem sampleNetwork hexAddrText).Reaches Network.Links
      ⟨fun _ => ⟨emptyNode, []⟩, []⟩ :=
    .start ⟨rfl, fun _ => ⟨⟨⟨rfl, [], emptyEnv, rfl⟩, rfl⟩, rfl⟩⟩
  have sent : (networkSystem sampleNetwork hexAddrText).Reaches Network.Links
      ⟨fun _ => ⟨emptyNode, []⟩, [quietPacket]⟩ :=
    empty.step (e := .inject quietPacket) ⟨by decide, by decide⟩ rfl
  have stored : (networkSystem sampleNetwork hexAddrText).Reaches Network.Links
      (Network.set ⟨fun _ => ⟨emptyNode, []⟩, [quietPacket]⟩ false storedFirst) :=
    Network.node_reached sent false (.incoming (incomingAt 7 true) quietPbuf)
      ⟨rfl, .inl (by decide)⟩ (by decide +kernel)
  refine stored.step (e := .restart false) trivial ⟨restarted, ?_, rfl⟩
  rw [Network.set_self]
  exact storedFirst_restarts

theorem network_keeps_delivered_packet :
    ∃ net b, (networkSystem sampleNetwork hexAddrText).Reaches Network.Links net ∧
      Effect.deliver b ∈ (net.nodes true).log ∧ ∃ x ∈ net.injected,
      (∃ custodians, b = wrapped x custodians) ∧ farConfig.Home x := by
  have sent : (networkSystem sampleNetwork hexAddrText).Reaches Network.Links sentNetwork :=
    Network.node_reached waitingNetwork_reached false (.pass fun _ => passAt 2000) trivial
      (by decide +kernel)
  have onTheWay : handedOn.bytes ∈ transmitted (sentNetwork.nodes false).log := by decide +kernel
  have delivered : (networkSystem sampleNetwork hexAddrText).Reaches Network.Links
      deliveredNetwork :=
    Network.node_reached sent true (.incoming (incomingAt 2001 true) handedOn)
      ⟨rfl, .inr ⟨false, onTheWay⟩⟩ (by decide +kernel)
  have hmem : Effect.deliver (tagged quietPacket sampleConfig.myAddr) ∈
      (deliveredNetwork.nodes true).log := by decide +kernel
  exact ⟨_, _, delivered, hmem,
    (network_keeps_packets_intact sampleNetwork hexAddrText _ delivered true).2.2 _ hmem⟩

end LwipDtn
