import LwipDtn.Cgr.Candidates
import LwipDtn.Cgr.Metrics

/-!
The criteria of `fwd_candidate`. The `continue` of the test for the current node belongs to
the loop over the hops, and so does the one for a contact without volume: the first test
rejects nothing, and the second takes the contact out of the later tests.
-/

namespace LwipDtn.Cgr

section

variable {n : Nat} (g : Contacts n)

/-- The first byte of every hop leaves once the packet is there and the contact is open. -/
def firstBytes (size : ℚ) : ℚ → List (Ref n) → List (Ref n × ℚ)
  | _, [] => []
  | ready, h :: rest =>
      let leaves := max ready (g.contact h).start
      (h, leaves) :: firstBytes size (leaves + size / (g.contact h).rate + (g.contact h).owlt) rest

def lastByteArrives (size : ℚ) : ℚ → List (Ref n) → ℚ
  | ready, [] => ready
  | ready, h :: rest =>
      lastByteArrives size
        (max ready (g.contact h).start + size / (g.contact h).rate + (g.contact h).owlt) rest

/-- The criteria apart from the one about the current node. Residual volume and window are
looked at for the heeded hops. -/
structure Criteria (time : ℚ) (packet : Ipv6Packet) (excluded : List Int) (heeded : Ref n → Prop)
    (r : Route n) : Prop where
  sender : r.nextNode ≠ packet.sender
  included : r.nextNode ∉ excluded
  timely : r.bestDeliveryTime ≤ packet.deadline
  opens : ∀ first, r.hops.head? = some first →
    max time (g.contact first).start ≤ (g.contact first).stop
  arrives : lastByteArrives g packet.size time r.hops ≤ packet.deadline
  volume : ∀ h ∈ r.hops, heeded h → 0 < (g.contact h).mav.getD packet.priority.val 0
  starts : ∀ before h leaves after, firstBytes g packet.size time r.hops =
    before ++ (h, leaves) :: after → heeded h → ∀ h' ∈ h :: after.map Prod.fst,
      leaves < (g.contact h').stop

/-- The filter: all hops are heeded, and none transmits to the current node. -/
structure Eligible (time : ℚ) (currNode : Int) (packet : Ipv6Packet) (excluded : List Int)
    (r : Route n) : Prop where
  criteria : Criteria g time packet excluded (fun _ => True) r
  away : ∀ h ∈ r.hops, (g.contact h).toNode ≠ currNode

def Undepleted (h : Ref n) : Prop := 0 < (g.contact h).volume

/-- Step d) adds up the contact before the first one of a route. -/
structure Prior (time : ℚ) (first contact : Contact) : Prop where
  frm : contact.frm = first.frm
  toNode : contact.toNode = first.toNode
  lasts : time < contact.stop
  earlier : contact.start < first.start

/-- The hops of the route are different contacts that end below `sys.maxsize`, and no
contact that step d) adds up ends before it starts or has a negative rate. -/
structure Regular (time : ℚ) (r : Route n) : Prop where
  distinct : r.hops.Nodup
  bounded : ∀ h ∈ r.hops, (g.contact h).stop ≤ sysMaxsize
  prior : ∀ first i, r.hops.head? = some first → Prior time (g.contact first) (g.plan i) →
    (g.plan i).start ≤ (g.plan i).stop ∧ 0 ≤ (g.plan i).rate

end

/-- The route gets past steps a) and b). -/
structure Considered {n : Nat} (packet : Ipv6Packet) (excluded : List Int) (r : Route n) :
    Prop where
  sender : r.nextNode ≠ packet.sender
  included : r.nextNode ∉ excluded
  timely : r.bestDeliveryTime ≤ packet.deadline

variable {n : Nat} {g : Contacts n} {time : ℚ} {packet : Ipv6Packet} {excluded : List Int}
  {r : Route n}

theorem mav_getD (c : Contact) (priority : Fin 3) : c.mav.getD priority.val 0 = c.volume := by
  match priority with
  | 0 => rfl
  | 1 => rfl
  | 2 => rfl

/-! Steps d) and e). -/

theorem relief_nonneg {first : Contact} (prior : ∀ i, Prior time first (g.plan i) →
    (g.plan i).start ≤ (g.plan i).stop ∧ 0 ≤ (g.plan i).rate) :
    0 ≤ applicableBacklogRelief g time first := by
  have key (l : List (Fin n)) (relief : ℚ) (h : 0 ≤ relief) :
      0 ≤ l.foldl (fun relief i =>
        let contact := g.plan i
        if contact.frm = first.frm ∧ contact.toNode = first.toNode ∧
            time < contact.stop ∧ contact.start < first.start then
          relief + (contact.stop - max time contact.start) * contact.rate
        else relief) relief := by
    induction l generalizing relief with
    | nil => exact h
    | cons i l ih =>
        rw [List.foldl_cons]
        refine ih _ ?_
        dsimp only
        split
        · rename_i hprior
          obtain ⟨frm, toNode, lasts, earlier⟩ := hprior
          obtain ⟨forward, rate⟩ := prior i ⟨frm, toNode, lasts, earlier⟩
          exact add_nonneg h (mul_nonneg (sub_nonneg.mpr (max_le lasts.le forward)) rate)
        · exact h
  exact key _ 0 le_rfl

theorem earlyTxOpportunity_eq {relief : ℚ} {first : Contact} (rate : 0 < first.rate)
    (nonneg : 0 ≤ relief) : earlyTxOpportunity time relief first = .ok (max time first.start) := by
  have hbacklog : max 0 (0 - relief) = 0 := max_eq_left (by linarith)
  rw [earlyTxOpportunity, if_neg rate.ne', hbacklog, zero_div, add_zero]

theorem projectArrival_rest (size eto ready : ℚ) {first : Ref n} {hops : List (Ref n)}
    (rates : ∀ h ∈ hops, 0 < (g.contact h).rate) (hfirst : first ∉ hops) :
    projectArrival g size eto first ready hops =
      .ok (firstBytes g size ready hops, lastByteArrives g size ready hops) := by
  induction hops generalizing ready with
  | nil => rfl
  | cons h hops ih =>
      rw [List.mem_cons, not_or] at hfirst
      rw [projectArrival, if_neg (rates h List.mem_cons_self).ne', if_neg (Ne.symm hfirst.1),
        max_comm (g.contact h).start ready,
        ih _ (fun h hh => rates h (List.mem_cons_of_mem _ hh)) hfirst.2]
      rfl

theorem projectArrival_eq (size ready prev : ℚ) {first : Ref n} {hops : List (Ref n)}
    (rates : ∀ h ∈ first :: hops, 0 < (g.contact h).rate) (hfirst : first ∉ hops) :
    projectArrival g size (max ready (g.contact first).start) first prev (first :: hops) =
      .ok (firstBytes g size ready (first :: hops),
        lastByteArrives g size ready (first :: hops)) := by
  rw [projectArrival, if_neg (rates first List.mem_cons_self).ne', if_pos rfl,
    projectArrival_rest size _ _ (fun h hh => rates h (List.mem_cons_of_mem _ hh)) hfirst]
  rfl

/-! Step f). -/

theorem firstBytes_fst (size ready : ℚ) (hops : List (Ref n)) :
    (firstBytes g size ready hops).map Prod.fst = hops := by
  induction hops generalizing ready with
  | nil => rfl
  | cons h hops ih => rw [firstBytes, List.map_cons, ih]

theorem firstBytes_split (size ready : ℚ) {hops : List (Ref n)} {h : Ref n} (hh : h ∈ hops) :
    ∃ before leaves after, firstBytes g size ready hops = before ++ (h, leaves) :: after := by
  rw [← firstBytes_fst size ready hops, List.mem_map] at hh
  obtain ⟨⟨h, leaves⟩, hmem, rfl⟩ := hh
  obtain ⟨before, after, hsplit⟩ := List.append_of_mem hmem
  exact ⟨before, leaves, after, hsplit⟩

theorem firstByteTxTime_split {before after : List (Ref n × ℚ)} {h : Ref n} {leaves : ℚ}
    (distinct : ((before ++ (h, leaves) :: after).map Prod.fst).Nodup) :
    firstByteTxTime (before ++ (h, leaves) :: after) h = leaves := by
  have hlater : ∀ p ∈ after.reverse, (h == p.1) = false := by
    intro p hp
    rw [List.map_append, List.map_cons] at distinct
    have hnodup := (List.nodup_append.mp distinct).2.1
    rw [List.nodup_cons] at hnodup
    refine beq_eq_false_iff_ne.mpr fun heq => hnodup.1 (List.mem_map.mpr ⟨p, ?_, heq.symm⟩)
    exact List.mem_reverse.mp hp
  have hlookup : (before ++ (h, leaves) :: after).reverse.lookup h = some leaves := by
    rw [List.lookup_eq_some_iff]
    exact ⟨after.reverse, before.reverse, by simp, fun p hp => by simpa using hlater p hp⟩
  rw [firstByteTxTime, hlookup, Option.getD_some]

theorem routeVolumeLimit_pos (priority : Fin 3) (hops : List (Ref n)) (times : List (Ref n × ℚ))
    (limit : ℚ) (rest : List (Ref n)) (rates : ∀ h ∈ rest, 0 < (g.contact h).rate) :
    0 < routeVolumeLimit g priority hops times limit rest ↔ 0 < limit ∧ ∀ h ∈ rest,
      Undepleted g h → firstByteTxTime times h < (g.contact h).stop ∧
        firstByteTxTime times h < minSuccStopTime g (hops.drop (hops.idxOf h)) ∧
        0 < (g.contact h).mav.getD priority.val 0 := by
  induction rest generalizing limit with
  | nil => simp [routeVolumeLimit]
  | cons h rest ih =>
      have hrate := rates h List.mem_cons_self
      have ih := fun limit => ih limit fun h hh => rates h (List.mem_cons_of_mem _ hh)
      rw [routeVolumeLimit, List.forall_mem_cons]
      dsimp only
      split
      · rename_i hdepleted
        have hvacuous : ¬ Undepleted g h := not_lt.mpr hdepleted
        rw [ih]
        simp [hvacuous]
      · rename_i hvolume
        have hvolume : Undepleted g h := not_le.mp hvolume
        have hlimit (a b : ℚ) : 0 < (if a < b then a else b) ↔ 0 < b ∧ 0 < a := by
          split
          · rename_i hlt
            exact ⟨fun h => ⟨h.trans hlt, h⟩, fun h => h.2⟩
          · rename_i hle
            exact ⟨fun h => ⟨h, lt_of_lt_of_le h (not_lt.mp hle)⟩, fun h => h.1⟩
        rw [ih, hlimit, lt_min_iff, mul_pos_iff_of_pos_right hrate, sub_pos, lt_min_iff]
        simp only [hvolume, forall_true_left]
        tauto

theorem hasOpportunity_iff (regular : Regular g time r) (nonempty : r.hops ≠ [])
    (rates : ∀ h ∈ r.hops, 0 < (g.contact h).rate) :
    hasOpportunity g time packet r = .ok true ↔
      (∀ first, r.hops.head? = some first →
        max time (g.contact first).start ≤ (g.contact first).stop) ∧
      lastByteArrives g packet.size time r.hops ≤ packet.deadline ∧
      (∀ h ∈ r.hops, Undepleted g h → 0 < (g.contact h).mav.getD packet.priority.val 0) ∧
      ∀ before h leaves after, firstBytes g packet.size time r.hops =
        before ++ (h, leaves) :: after → Undepleted g h → ∀ h' ∈ h :: after.map Prod.fst,
          leaves < (g.contact h').stop := by
  obtain ⟨first, rest, hhops⟩ := List.exists_cons_of_ne_nil nonempty
  have distinct := regular.distinct
  have bounded := regular.bounded
  have hrelief := relief_nonneg fun i => regular.prior first i (by rw [hhops]; rfl)
  rw [hasOpportunity, opportunityAfter, hhops]
  rw [hhops] at rates distinct bounded
  have hrate := rates first List.mem_cons_self
  have hfirst := (List.nodup_cons.mp distinct).1
  simp only [bind, Except.bind, earlyTxOpportunity_eq hrate hrelief, List.head?_cons,
    Option.some.injEq, forall_eq', projectArrival_eq packet.size time 0 rates hfirst]
  split
  · rename_i hlate
    simp [not_le.mpr hlate, pure, Except.pure]
  rename_i hopen
  have hpos := routeVolumeLimit_pos packet.priority (first :: rest)
    (firstBytes g packet.size time (first :: rest)) sysMaxsize (first :: rest) rates
  have hmax : (0 : ℚ) < sysMaxsize := by decide +kernel
  have hkeys := firstBytes_fst (g := g) packet.size time (first :: rest)
  simp only [pure, Except.pure, Except.ok.injEq, Bool.and_eq_true, Bool.not_eq_true',
    decide_eq_false_iff_not, not_lt, not_le, hpos, hmax, true_and, not_lt.mp hopen]
  refine and_congr_right fun _ => ⟨fun hvolume => ⟨fun h hh hu => (hvolume h hh hu).2.2, ?_⟩, ?_⟩
  · intro before h leaves after hsplit hu h' hh'
    rw [hsplit] at hkeys
    have hmap : first :: rest = before.map Prod.fst ++ h :: after.map Prod.fst := by
      rw [← hkeys, List.map_append, List.map_cons]
    obtain ⟨-, hsucc, -⟩ := hvolume h (by rw [hmap]; simp) hu
    rw [hsplit, firstByteTxTime_split (by rw [hkeys]; exact distinct), hmap,
      successors_split (hmap ▸ distinct), lt_minSuccStopTime] at hsucc
    exact hsucc.2 h' hh'
  · rintro ⟨hmav, hstarts⟩ h hh hu
    obtain ⟨before, leaves, after, hsplit⟩ := firstBytes_split (g := g) packet.size time hh
    rw [hsplit] at hkeys
    have hmap : first :: rest = before.map Prod.fst ++ h :: after.map Prod.fst := by
      rw [← hkeys, List.map_append, List.map_cons]
    have hstart := hstarts before h leaves after hsplit hu
    have hown := hstart h List.mem_cons_self
    rw [hsplit, firstByteTxTime_split (by rw [hkeys]; exact distinct)]
    refine ⟨hown, ?_, hmav h hh hu⟩
    rw [hmap, successors_split (hmap ▸ distinct), lt_minSuccStopTime]
    exact ⟨lt_of_lt_of_le hown (bounded h hh), hstart⟩

/-- What the source keeps of a regular route list: the criteria, with the hops without
volume left out and nothing about the current node. -/
theorem keeps_iff_criteria (regular : Considered packet excluded r → Regular g time r)
    (nonempty : r.hops ≠ []) (rates : ∀ h ∈ r.hops, 0 < (g.contact h).rate) :
    keeps g time packet excluded r = true ↔ Criteria g time packet excluded (Undepleted g) r := by
  rw [keeps_iff]
  constructor
  · rintro ⟨hi, hs, ht, hopportunity⟩
    rw [hasOpportunity_iff (regular ⟨hs, hi, ht⟩) nonempty rates] at hopportunity
    obtain ⟨ho, ha, hv, hw⟩ := hopportunity
    exact ⟨hs, hi, ht, ho, ha, hv, hw⟩
  · intro h
    refine ⟨h.included, h.sender, h.timely, ?_⟩
    rw [hasOpportunity_iff (regular ⟨h.sender, h.included, h.timely⟩) nonempty rates]
    exact ⟨h.opens, h.arrives, h.volume, h.starts⟩

/-- The filter asks for volume in every hop and for the test of the current node on top. -/
theorem eligible_iff_criteria {currNode : Int} : Eligible g time currNode packet excluded r ↔
    Criteria g time packet excluded (Undepleted g) r ∧
      ∀ h ∈ r.hops, (g.contact h).toNode ≠ currNode ∧ Undepleted g h := by
  constructor
  · intro h
    have hc := h.criteria
    refine ⟨{ hc with
      volume := fun h hh _ => hc.volume h hh trivial
      starts := fun b h l a hsplit _ => hc.starts b h l a hsplit trivial }, fun h' hh' => ?_⟩
    have hvolume := hc.volume h' hh' trivial
    rw [mav_getD] at hvolume
    exact ⟨h.away h' hh', hvolume⟩
  · rintro ⟨hc, hhops⟩
    refine ⟨{ hc with
      volume := fun h hh _ => hc.volume h hh (hhops h hh).2
      starts := fun b h l a hsplit _ => hc.starts b h l a hsplit (hhops h ?_).2 },
      fun h hh => (hhops h hh).1⟩
    rw [← firstBytes_fst (g := g) packet.size time r.hops, hsplit]
    simp

/-- `fwd_candidate` returns some of the routes. For a route that is regular, or rejected
before that matters, it agrees with the filter exactly when a route that meets the other
criteria has no hop to the current node and none without volume. -/
theorem fwd_candidate_filter_iff (g : Contacts n) (time : ℚ) (currNode : Int) (packet : Ipv6Packet)
    (routes : List (Route n)) (excluded : List Int) (nonempty : ∀ r ∈ routes, r.hops ≠ [])
    (rates : ∀ r ∈ routes, ∀ h ∈ r.hops, 0 < (g.contact h).rate) :
    ∃ cands, fwdCandidate g time packet routes excluded = .ok cands ∧ (∀ r ∈ cands, r ∈ routes) ∧
      ∀ r ∈ routes, (Considered packet excluded r → Regular g time r) →
        ((r ∈ cands ↔ Eligible g time currNode packet excluded r) ↔
          (Criteria g time packet excluded (Undepleted g) r →
            ∀ h ∈ r.hops, (g.contact h).toNode ≠ currNode ∧ Undepleted g h)) := by
  have total : ∀ r ∈ routes, ∃ result, hasOpportunity g time packet r = .ok result :=
    fun r hr => hasOpportunity_ok (nonempty r hr) (rates r hr)
  obtain ⟨cands, hloop⟩ := candidateRoutes_ok routes excluded total
  have hrun : fwdCandidate g time packet routes excluded = .ok (PySort.sort Route.lt cands) := by
    rw [fwdCandidate, hloop]
    rfl
  refine ⟨_, hrun, fun r hr => (mem_of_fwdCandidate hrun hr).1, fun r hr regular => ?_⟩
  have hmem : r ∈ PySort.sort Route.lt cands ↔
      Criteria g time packet excluded (Undepleted g) r := by
    rw [← keeps_iff_criteria regular (nonempty r hr) (rates r hr), fwdCandidate_filter hrun,
      PySort.mem_sort, List.mem_filter]
    exact and_iff_right hr
  rw [hmem, eligible_iff_criteria]
  tauto

/-! Two contacts in a row, and a route over both of them. -/

def rowPlan : Contacts 2 :=
  ⟨![⟨1, 2, 0, 100, 1, 1, 1⟩, ⟨2, 3, 0, 100, 1, 1, 1⟩], ⟨1, 1, 0, 0, 1, 0, 1⟩⟩

def rowRoute : Route 2 := ⟨[some 0, some 1], [1, 2, 2, 3], 3, 2, 0, 100, 2, 99, 1⟩

theorem rowRoute_along : Route.along rowPlan [some 0, some 1] = .ok rowRoute := by decide +kernel

def rowPacket : Ipv6Packet := .new 0 3 1 1000 0 7

theorem rowRoute_regular : Regular rowPlan 0 rowRoute := by
  refine ⟨by decide, by decide +kernel, fun first i _ _ => ?_⟩
  have key : ∀ i, (rowPlan.plan i).start ≤ (rowPlan.plan i).stop ∧ 0 ≤ (rowPlan.plan i).rate := by
    decide +kernel
  exact key i

theorem fwd_candidate_filter_row :
    Route.along rowPlan [some 0, some 1] = .ok rowRoute ∧
      ∃ cands, fwdCandidate rowPlan 0 rowPacket [rowRoute] [] = .ok cands ∧
        (rowRoute ∈ cands ↔ Eligible rowPlan 0 4 rowPacket [] rowRoute) := by
  obtain ⟨cands, hrun, -, hfilter⟩ := fwd_candidate_filter_iff rowPlan 0 4 rowPacket [rowRoute] []
    (by decide) (by decide +kernel)
  refine ⟨rowRoute_along, cands, hrun,
    (hfilter rowRoute List.mem_cons_self fun _ => rowRoute_regular).mpr fun _ => ?_⟩
  have key : ∀ h ∈ rowRoute.hops,
      (rowPlan.contact h).toNode ≠ 4 ∧ 0 < (rowPlan.contact h).volume := by
    decide +kernel
  exact key

/-- At node 2 the route through node 2 is returned. -/
theorem route_to_current_node_returned :
    Route.along rowPlan [some 0, some 1] = .ok rowRoute ∧
      fwdCandidate rowPlan 0 rowPacket [rowRoute] [] = .ok [rowRoute] ∧
      ¬ Eligible rowPlan 0 2 rowPacket [] rowRoute := by
  refine ⟨rowRoute_along, by decide +kernel, fun h => ?_⟩
  exact h.away (some 0) (by decide) rfl

end LwipDtn.Cgr
