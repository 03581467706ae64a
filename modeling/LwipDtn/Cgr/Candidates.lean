import LwipDtn.Cgr.Yen
import LwipDtn.Cgr.Forward
import Mathlib.Data.Fin.VecNotation
import Mathlib.Tactic.Linarith

/-!
The route that is used for a packet. The candidates are ordered by delivery times that
were computed again without the root contact, as if the packet had left at time zero. The
first candidate arrives first if and only if that never puts a route in front that is
slow for a packet that leaves now.
-/

namespace LwipDtn.Cgr

variable {n : Nat} {g : Contacts n} {source destination : Int} {time : ℚ} {packet : Ipv6Packet}

/-- The arrival over a route when departing at the given time. -/
def realArrival (g : Contacts n) (time : ℚ) (r : Route n) : ℚ :=
  r.hops.foldl (fun t h => max t (g.contact h).start + (g.contact h).owlt) time

def lightTime (g : Contacts n) (r : Route n) : ℚ := (r.hops.map fun h => (g.contact h).owlt).sum

def passes (g : Contacts n) (time : ℚ) (packet : Ipv6Packet) (r : Route n) : Bool :=
  !(r.nextNode == packet.sender) && !(decide (packet.deadline < r.bestDeliveryTime)) &&
    (hasOpportunity g time packet r).toOption == some true

/-- The routes of the plan that pass the checks. -/
structure Candidacy (g : Contacts n) (source destination : Int) (time : ℚ) (packet : Ipv6Packet)
    (r : Route n) : Prop where
  chain : ∃ p, Chain g.plan source destination time p ∧ r.Over g p
  passes : passes g time packet r = true

section Arrivals

variable {plan : Fin n → Contact}

theorem arrival_cons (t : ℚ) (c : Fin n) (p : List (Fin n)) :
    arrival plan t (c :: p) = arrival plan (max t (plan c).start + (plan c).owlt) p := rfl

theorem light_le_arrival (t : ℚ) (p : List (Fin n)) :
    t + (p.map fun c => (plan c).owlt).sum ≤ arrival plan t p := by
  induction p generalizing t with
  | nil => simp [arrival]
  | cons c p ih =>
      rw [arrival_cons, List.map_cons, List.sum_cons]
      have hstep := ih (max t (plan c).start + (plan c).owlt)
      have hmax := le_max_left t (plan c).start
      linarith

theorem arrival_eq_max {t₀ t : ℚ} (h : t₀ ≤ t) (p : List (Fin n)) :
    arrival plan t p = max (t + (p.map fun c => (plan c).owlt).sum) (arrival plan t₀ p) := by
  induction p generalizing t₀ t with
  | nil => simp [arrival, h]
  | cons c p ih =>
      have hle : max t₀ (plan c).start + (plan c).owlt ≤ max t (plan c).start + (plan c).owlt :=
        add_le_add_left (max_le_max_right _ h) _
      rw [arrival_cons, arrival_cons, ih hle, List.map_cons, List.sum_cons]
      have hlight := @light_le_arrival n plan (max t₀ (plan c).start + (plan c).owlt) p
      have hstart := le_max_right t₀ (plan c).start
      rcases max_cases t (plan c).start with ⟨hmax, -⟩ | ⟨hmax, hlt⟩
      · rw [hmax, add_assoc]
      · -- The packet waits for the contact in both cases.
        rw [hmax]
        have hwait : (plan c).start + (plan c).owlt + (p.map fun c => (plan c).owlt).sum ≤
            arrival plan (max t₀ (plan c).start + (plan c).owlt) p := by linarith
        rw [max_eq_right hwait, eq_comm, max_eq_right (by linarith)]

theorem Route.Over.realArrival {p : List (Fin n)} {r : Route n} (h : r.Over g p) (t : ℚ) :
    realArrival g t r = arrival g.plan t p := by
  rw [Cgr.realArrival, h.hops, List.foldl_map]
  rfl

theorem Route.Over.lightTime {p : List (Fin n)} {r : Route n} (h : r.Over g p) :
    lightTime g r = (p.map fun c => (g.plan c).owlt).sum := by
  rw [Cgr.lightTime, h.hops, List.map_map]
  rfl

theorem Route.Over.bestDeliveryTime {p : List (Fin n)} {r : Route n} (h : r.Over g p) :
    r.bestDeliveryTime = arrival g.plan 0 p := by
  cases p with
  | nil => cases h
  | cons c p =>
      rw [← congrArg Route.bestDeliveryTime (Except.ok.inj h)]
      dsimp only
      rw [Cgr.bestDeliveryTime, List.foldl_map, arrival]
      congr 1
      funext t d
      exact max_add_add_right t _ _

/-- The delivery time of a route leaves out that the packet has not left before now. -/
theorem Route.Over.realArrival_eq {p : List (Fin n)} {r : Route n} (h : r.Over g p)
    (now : 0 ≤ time) :
    Cgr.realArrival g time r = max (time + Cgr.lightTime g r) r.bestDeliveryTime := by
  rw [h.realArrival, h.lightTime, h.bestDeliveryTime, arrival_eq_max now]

theorem Route.Over.eq_of_over {p : List (Fin n)} {r r' : Route n} (h : r.Over g p)
    (h' : r'.Over g p) : r' = { r with visited := r'.visited } := by
  cases p with
  | nil => cases h
  | cons c p =>
      have hr := Except.ok.inj h
      have hr' := Except.ok.inj h'
      rw [← hr, ← hr']

end Arrivals

section Loop

theorem projectArrival_ok (size eto : ℚ) (first : Ref n) (prev : ℚ) (hops : List (Ref n))
    (rates : ∀ h ∈ hops, 0 < (g.contact h).rate) :
    ∃ result, projectArrival g size eto first prev hops = .ok result := by
  induction hops generalizing prev with
  | nil => exact ⟨_, rfl⟩
  | cons h hops ih =>
      rw [projectArrival, if_neg (ne_of_gt (rates h (by simp)))]
      obtain ⟨result, hresult⟩ := ih _ fun h' hh' => rates h' (by simp [hh'])
      rw [hresult]
      exact ⟨_, rfl⟩

theorem hasOpportunity_ok {r : Route n} (nonempty : r.hops ≠ [])
    (rates : ∀ h ∈ r.hops, 0 < (g.contact h).rate) :
    ∃ result, hasOpportunity g time packet r = .ok result := by
  obtain ⟨first, rest, hhops⟩ := List.exists_cons_of_ne_nil nonempty
  rw [hhops] at rates
  rw [hasOpportunity, opportunityAfter, hhops]
  simp only [bind, Except.bind, earlyTxOpportunity, if_neg (ne_of_gt (rates first (by simp)))]
  split
  · exact ⟨_, rfl⟩
  · obtain ⟨result, hresult⟩ := projectArrival_ok packet.size _ first 0 _ rates
    rw [hresult]
    exact ⟨_, rfl⟩

theorem passes_iff (r : Route n) : passes g time packet r = true ↔
    r.nextNode ≠ packet.sender ∧ r.bestDeliveryTime ≤ packet.deadline ∧
      hasOpportunity g time packet r = .ok true := by
  rw [passes]
  cases h : hasOpportunity g time packet r with
  | error e => simp [Except.toOption]
  | ok b => simp [Except.toOption, and_assoc]

def keeps (g : Contacts n) (time : ℚ) (packet : Ipv6Packet) (excluded : List Int) (r : Route n) :
    Bool :=
  passes g time packet r && !(excluded.contains r.nextNode)

theorem keeps_iff {excluded : List Int} (r : Route n) : keeps g time packet excluded r = true ↔
    r.nextNode ∉ excluded ∧ r.nextNode ≠ packet.sender ∧ r.bestDeliveryTime ≤ packet.deadline ∧
      hasOpportunity g time packet r = .ok true := by
  rw [keeps, Bool.and_eq_true, passes_iff, and_comm]
  simp

theorem mem_of_candidateRoutes {opportunity : List Int → Route n → Py Bool}
    {routes cands : List (Route n)} {excluded : List Int}
    (h : candidateRoutes opportunity packet routes excluded = .ok cands) {r : Route n}
    (hr : r ∈ cands) :
    r ∈ routes ∧ r.nextNode ≠ packet.sender ∧ r.bestDeliveryTime ≤ packet.deadline ∧
      ∃ seen, opportunity seen r = .ok true := by
  induction routes generalizing excluded cands with
  | nil =>
      cases h
      cases hr
  | cons route routes ih =>
      have later {excluded : List Int} {cands : List (Route n)}
          (h : candidateRoutes opportunity packet routes excluded = .ok cands) (hr : r ∈ cands) :=
        (ih h hr).imp_left (List.mem_cons_of_mem route)
      rw [candidateRoutes] at h
      split at h
      · exact later h hr
      rename_i hsender
      split at h
      · exact later h hr
      rename_i htimely
      split at h
      · exact later h hr
      cases hcandidate : opportunity excluded route with
      | error e =>
          rw [hcandidate] at h
          cases h
      | ok candidate =>
          cases hothers : candidateRoutes opportunity packet routes excluded with
          | error e =>
              rw [hcandidate, hothers] at h
              cases h
          | ok others =>
              rw [hcandidate, hothers] at h
              cases h
              cases candidate with
              | false => exact later hothers hr
              | true =>
                  obtain rfl | hr := List.mem_cons.mp hr
                  · exact ⟨List.mem_cons_self, hsender, not_lt.mp htimely, excluded, hcandidate⟩
                  · exact later hothers hr

theorem le_projectArrival {size eto prev : ℚ} {first : Ref n} {hops : List (Ref n)}
    {times : List (Ref n × ℚ)} {arrival : ℚ} (nonneg : 0 ≤ size)
    (forward : ∀ h ∈ hops, 0 ≤ (g.contact h).rate ∧ 0 ≤ (g.contact h).owlt)
    (started : eto ≤ prev ∨ first ∈ hops.head?)
    (h : projectArrival g size eto first prev hops = .ok (times, arrival)) : eto ≤ arrival := by
  induction hops generalizing prev times with
  | nil =>
      cases h
      exact started.resolve_right (by simp)
  | cons hop hops ih =>
      obtain ⟨rate, owlt⟩ := forward hop List.mem_cons_self
      simp only [projectArrival] at h
      split at h
      · cases h
      -- the first byte leaves no earlier than the packet can be sent
      have htx : eto ≤ if hop = first then eto else max (g.contact hop).start prev := by
        split
        · exact le_rfl
        · rename_i hother
          refine le_max_of_le_right (started.resolve_right fun hfirst => hother ?_)
          exact Option.some.inj hfirst
      have hsize : 0 ≤ size / (g.contact hop).rate := div_nonneg nonneg rate
      cases hrest : projectArrival g size eto first
          ((if hop = first then eto else max (g.contact hop).start prev) +
            size / (g.contact hop).rate + (g.contact hop).owlt) hops with
      | error e =>
          rw [hrest] at h
          cases h
      | ok result =>
          rw [hrest] at h
          cases h
          exact ih (fun h hh => forward h (List.mem_cons_of_mem hop hh)) (.inl (by linarith)) hrest

/-- A route with an opportunity has a first contact with a rate, and the packet leaves
before that contact ends and before its own deadline. -/
theorem opportunityAfter_first {relief : Contact → Py ℚ} {r : Route n} (nonneg : 0 ≤ packet.size)
    (forward : ∀ h ∈ r.hops, 0 ≤ (g.contact h).rate ∧ 0 ≤ (g.contact h).owlt)
    (h : opportunityAfter g relief time packet r = .ok true) :
    ∃ first ∈ r.hops.head?, 0 < (g.contact first).rate ∧
      max time (g.contact first).start ≤ (g.contact first).stop ∧
      max time (g.contact first).start ≤ packet.deadline := by
  rw [opportunityAfter] at h
  split at h
  · cases h
  rename_i first rest hhops
  rw [hhops] at forward
  obtain ⟨rate, owlt⟩ := forward first List.mem_cons_self
  refine ⟨first, by rw [hhops]; rfl, ?_⟩
  cases hrelief : relief (g.contact first) with
  | error e =>
      rw [hrelief] at h
      cases h
  | ok backlog =>
      simp only [hrelief, bind, Except.bind, earlyTxOpportunity] at h
      by_cases hrate : (g.contact first).rate = 0
      · rw [if_pos hrate] at h
        cases h
      rw [if_neg hrate] at h
      dsimp only at h
      have hwait : 0 ≤ max 0 (0 - backlog) / (g.contact first).rate :=
        div_nonneg (le_max_left _ _) rate
      split at h
      · cases h
      rename_i hstop
      refine ⟨lt_of_le_of_ne rate (Ne.symm hrate), by linarith, ?_⟩
      cases hproject : projectArrival g packet.size (max time (g.contact first).start +
          max 0 (0 - backlog) / (g.contact first).rate) first 0 (first :: rest) with
      | error e =>
          rw [hproject] at h
          cases h
      | ok result =>
          obtain ⟨times, arrival⟩ := result
          have hle := le_projectArrival nonneg forward (.inr rfl) hproject
          rw [hproject] at h
          have htimely := (Bool.and_eq_true_iff.mp (Except.ok.inj h)).1
          simp only [Bool.not_eq_true', decide_eq_false_iff_not, not_lt] at htimely
          linarith

/-- The loop is a filter: only the sender is excluded on the way. -/
theorem candidateRoutes_filter {routes cands : List (Route n)} {excluded added : List Int}
    (hadded : ∀ node ∈ added, node = packet.sender)
    (h : candidateRoutes (fun _ => hasOpportunity g time packet) packet routes (excluded ++ added) =
      .ok cands) :
    cands = routes.filter (keeps g time packet excluded) := by
  induction routes generalizing added cands with
  | nil =>
      cases h
      rfl
  | cons r routes ih =>
      rw [candidateRoutes] at h
      split at h
      · rename_i hsender
        rw [List.append_assoc] at h
        rw [List.filter_cons_of_neg (fun hkeeps => (keeps_iff r |>.mp hkeeps).2.1 hsender)]
        refine ih (fun node hnode => ?_) h
        rcases List.mem_append.mp hnode with hnode | hnode
        · exact hadded node hnode
        · rw [List.mem_singleton.mp hnode, hsender]
      rename_i hsender
      split at h
      · rename_i hlate
        rw [List.filter_cons_of_neg
          (fun hkeeps => not_lt.mpr (keeps_iff r |>.mp hkeeps).2.2.1 hlate)]
        exact ih hadded h
      rename_i htimely
      split at h
      · rename_i hexcluded
        rw [List.contains_iff_mem, List.mem_append] at hexcluded
        have hmem := hexcluded.resolve_right fun hnode => hsender (hadded _ hnode)
        rw [List.filter_cons_of_neg (fun hkeeps => (keeps_iff r |>.mp hkeeps).1 hmem)]
        exact ih hadded h
      rename_i hincluded
      have hnot : r.nextNode ∉ excluded := fun hmem => hincluded (by simp [hmem])
      cases hcandidate : hasOpportunity g time packet r with
      | error e =>
          rw [hcandidate] at h
          cases h
      | ok candidate =>
          cases hothers : candidateRoutes (fun _ => hasOpportunity g time packet) packet routes
            (excluded ++ added) with
          | error e =>
              rw [hcandidate, hothers] at h
              cases h
          | ok others =>
              rw [hcandidate, hothers] at h
              cases h
              have hkeeps : keeps g time packet excluded r = candidate := by
                rw [Bool.eq_iff_iff, keeps_iff, hcandidate]
                simp [hnot, hsender, not_lt.mp htimely]
              rw [List.filter_cons, hkeeps, ih hadded hothers]

theorem candidateRoutes_ok (routes : List (Route n)) (excluded : List Int)
    (total : ∀ r ∈ routes, ∃ result, hasOpportunity g time packet r = .ok result) :
    ∃ cands, candidateRoutes (fun _ => hasOpportunity g time packet) packet routes excluded =
      .ok cands := by
  induction routes generalizing excluded with
  | nil => exact ⟨_, rfl⟩
  | cons r routes ih =>
      have ih := fun excluded => ih excluded fun r' hr' => total r' (by simp [hr'])
      obtain ⟨candidate, hcandidate⟩ := total r (by simp)
      obtain ⟨others, hothers⟩ := ih excluded
      rw [candidateRoutes, hcandidate, hothers]
      split
      · exact ih _
      split
      · exact ⟨_, rfl⟩
      split
      · exact ⟨_, rfl⟩
      · exact ⟨_, rfl⟩

theorem fwdCandidate_filter {routes cands : List (Route n)} {excluded : List Int}
    (h : fwdCandidate g time packet routes excluded = .ok cands) :
    cands = PySort.sort Route.lt (routes.filter (keeps g time packet excluded)) := by
  rw [fwdCandidate] at h
  cases hloop : candidateRoutes (fun _ => hasOpportunity g time packet) packet routes excluded with
  | error e =>
      rw [hloop] at h
      cases h
  | ok result =>
      rw [hloop] at h
      cases h
      rw [← List.append_nil excluded] at hloop
      rw [candidateRoutes_filter (List.forall_mem_nil _) hloop]

theorem mem_of_fwdCandidate {routes cands : List (Route n)} {excluded : List Int}
    (h : fwdCandidate g time packet routes excluded = .ok cands) {r : Route n} (hr : r ∈ cands) :
    r ∈ routes ∧ keeps g time packet excluded r = true := by
  rw [fwdCandidate_filter h] at hr
  exact List.mem_filter.mp (PySort.mem_sort.mp hr)

theorem mem_of_fwdCandidateShared {routes cands : List (Route n)} {shared : List Int}
    (h : fwdCandidateShared g time packet routes shared = .ok cands) {r : Route n}
    (hr : r ∈ cands) :
    r ∈ routes ∧ r.nextNode ≠ packet.sender ∧
      ∃ relief, opportunityAfter g relief time packet r = .ok true := by
  cases hkept : candidateRoutes (fun shared => opportunityAfter g
      (fun _ => if shared.isEmpty then .ok 0 else .error .attributeError) time packet) packet routes
      shared with
  | error e =>
      simp only [fwdCandidateShared, hkept] at h
      cases h
  | ok kept =>
      simp only [fwdCandidateShared, hkept] at h
      cases h
      obtain ⟨hmem, hsender, -, seen, hopportunity⟩ :=
        mem_of_candidateRoutes hkept (PySort.mem_sort.mp hr)
      exact ⟨hmem, hsender, _, hopportunity⟩

end Loop

section Order

variable {words : List (List (Fin n))} {routes : List (Route n)}

theorem over_arrivals (h : List.Forall₂ (Route.Over g) words routes) (t : ℚ) :
    routes.map (realArrival g t) = words.map (arrival g.plan t) := by
  induction h with
  | nil => rfl
  | cons hover _ ih => rw [List.map_cons, List.map_cons, hover.realArrival, ih]

theorem over_of_route (h : List.Forall₂ (Route.Over g) words routes) {r : Route n}
    (hr : r ∈ routes) : ∃ p ∈ words, r.Over g p := by
  induction h with
  | nil => cases hr
  | cons hover _ ih =>
      rcases List.mem_cons.mp hr with rfl | hr
      · exact ⟨_, by simp, hover⟩
      · obtain ⟨p, hp, hover'⟩ := ih hr
        exact ⟨p, by simp [hp], hover'⟩

theorem over_of_word (h : List.Forall₂ (Route.Over g) words routes) {p : List (Fin n)}
    (hp : p ∈ words) : ∃ r ∈ routes, r.Over g p := by
  induction h with
  | nil => cases hp
  | cons hover _ ih =>
      rcases List.mem_cons.mp hp with rfl | hp
      · exact ⟨_, by simp, hover⟩
      · obtain ⟨r, hr, hover'⟩ := ih hp
        exact ⟨r, by simp [hr], hover'⟩

theorem fwdCandidate_eq (rates : ∀ c, 0 < (g.plan c).rate)
    (h : List.Forall₂ (Route.Over g) words routes) :
    fwdCandidate g time packet routes [] =
      .ok (PySort.sort Route.lt (routes.filter (passes g time packet))) := by
  have total : ∀ r ∈ routes, ∃ result, hasOpportunity g time packet r = .ok result := by
    intro r hr
    obtain ⟨p, -, hover⟩ := over_of_route h hr
    refine hasOpportunity_ok (by rw [hover.hops]; cases p <;> [cases hover; simp]) ?_
    rw [hover.hops]
    intro h hh
    obtain ⟨d, -, rfl⟩ := List.mem_map.mp hh
    exact rates d
  obtain ⟨cands, hcands⟩ := candidateRoutes_ok routes [] total
  have hkeeps : keeps g time packet [] = passes g time packet := by
    funext r
    rw [keeps, List.contains_nil, Bool.not_false, Bool.and_true]
  rw [fwdCandidate, hcands, @candidateRoutes_filter _ _ _ _ routes cands [] []
    (List.forall_mem_nil _) hcands,
    hkeeps]
  rfl

theorem mem_candidates (h : List.Forall₂ (Route.Over g) words routes)
    (cheapest : KBest.Cheapest (Chain g.plan source destination time) (arrival g.plan time) words)
    {r : Route n} (hr : r ∈ routes.filter (passes g time packet)) :
    Candidacy g source destination time packet r := by
  rw [List.mem_filter] at hr
  obtain ⟨p, hp, hover⟩ := over_of_route h hr.1
  exact ⟨⟨p, cheapest.words p hp, hover⟩, hr.2⟩

theorem returned_of_word (h : List.Forall₂ (Route.Over g) words routes) {p : List (Fin n)}
    (hp : p ∈ words) {r : Route n} (hover : r.Over g p) (hpasses : passes g time packet r = true) :
    ∃ r' ∈ routes.filter (passes g time packet), (∀ o, r'.lt o = r.lt o) ∧
      (∀ o : Route n, o.lt r' = o.lt r) ∧ realArrival g time r' = realArrival g time r := by
  obtain ⟨r', hr', hover'⟩ := over_of_word h hp
  have heq := hover.eq_of_over hover'
  refine ⟨r', List.mem_filter.mpr ⟨hr', ?_⟩, fun o => ?_, fun o => ?_, ?_⟩
  · rw [heq]
    exact hpasses
  · rw [heq]
    rfl
  · rw [heq]
    rfl
  · rw [hover.realArrival, hover'.realArrival]

/-- Every candidate that is ranked first is fast enough for a packet that leaves now. -/
def RankedFirstIsFast (g : Contacts n) (source destination : Int) (time : ℚ)
    (packet : Ipv6Packet) : Prop :=
  ∀ best r, Candidacy g source destination time packet best →
    Candidacy g source destination time packet r →
    (∀ o, Candidacy g source destination time packet o → best.lt o = true) →
    time + lightTime g best ≤ realArrival g time r

/-- The first candidate of the source arrives first, whatever number of routes is asked for. -/
def FirstArrivesFirst (plan : Fin n → Contact) (source destination : Int) (time : ℚ)
    (packet : Ipv6Packet) : Prop :=
  ∀ k routes cands best, cgrYen time source destination time plan k = .ok routes →
    fwdCandidate (yenContacts time source plan) time packet routes [] = .ok cands →
    cands.head? = some best →
    ∀ r ∈ cands, realArrival (yenContacts time source plan) time best ≤
      realArrival (yenContacts time source plan) time r

theorem Candidacy.realArrival_eq {r : Route n} (now : 0 ≤ time)
    (h : Candidacy g source destination time packet r) :
    realArrival g time r = max (time + lightTime g r) r.bestDeliveryTime := by
  obtain ⟨p, -, hover⟩ := h.chain
  exact hover.realArrival_eq now

theorem RankedFirstIsFast.arrives_first (fast : RankedFirstIsFast g source destination time packet)
    (now : 0 ≤ time) {best r : Route n} (hbest : Candidacy g source destination time packet best)
    (hr : Candidacy g source destination time packet r)
    (hfirst : ∀ o, Candidacy g source destination time packet o → best.lt o = true) :
    realArrival g time best ≤ realArrival g time r := by
  rw [hbest.realArrival_eq now]
  refine max_le (fast best r hbest hr hfirst) ?_
  rw [hr.realArrival_eq now]
  exact le_trans (Route.lt_le (hfirst r hr)) (le_max_right _ _)

theorem head_ranked_first (h : List.Forall₂ (Route.Over g) words routes)
    (all : ∀ p, Chain g.plan source destination time p → p ∈ words) {best : Route n}
    {rest : List (Route n)}
    (hsort : PySort.sort Route.lt (routes.filter (passes g time packet)) = best :: rest)
    {o : Route n} (ho : Candidacy g source destination time packet o) : best.lt o = true := by
  obtain ⟨p, hp, hover⟩ := ho.chain
  obtain ⟨o', ho', -, hlt, -⟩ := returned_of_word h (all p hp) hover ho.passes
  rw [← hlt]
  exact (PySort.sort_head Route.lt_total Route.lt_trans hsort).1 o' ho'

theorem exists_first_candidate (h : List.Forall₂ (Route.Over g) words routes)
    (cheapest : KBest.Cheapest (Chain g.plan source destination time) (arrival g.plan time) words)
    (all : ∀ p, Chain g.plan source destination time p → p ∈ words)
    {o : Route n} (ho : Candidacy g source destination time packet o) :
    ∃ head rest, PySort.sort Route.lt (routes.filter (passes g time packet)) = head :: rest ∧
      Candidacy g source destination time packet head := by
  obtain ⟨p, hp, hover⟩ := ho.chain
  obtain ⟨o', ho', -⟩ := returned_of_word h (all p hp) hover ho.passes
  obtain ⟨head, rest, hsort⟩ := List.exists_cons_of_ne_nil
    (List.ne_nil_of_mem (PySort.mem_sort.mpr ho'))
  exact ⟨head, rest, hsort,
    mem_candidates h cheapest (PySort.mem_sort.mp (hsort ▸ List.mem_cons_self))⟩

theorem candidates_sorted (h : List.Forall₂ (Route.Over g) words routes)
    (cheapest : KBest.Cheapest (Chain g.plan source destination time) (arrival g.plan time) words) :
    (routes.filter (passes g time packet)).Pairwise fun a b =>
      realArrival g time a ≤ realArrival g time b := by
  refine List.Pairwise.filter _ (List.pairwise_map.mp ?_)
  rw [over_arrivals h]
  exact List.pairwise_map.mpr cheapest.sorted

theorem cgrYen_absent {plan : Fin n → Contact} (habsent : ¬ Occurs plan source)
    (destination : Int) (time : ℚ) (k : Nat) :
    cgrYen time source destination time plan k = .error .keyError ∧
      ∀ p, ¬ Chain plan source destination time p := by
  constructor
  · have hhash : contactPlanHash (yenContacts time source plan) source = .error .keyError := by
      refine if_neg fun hany => habsent ?_
      obtain ⟨c, -, hc⟩ := List.any_eq_true.mp hany
      exact ⟨c, by simpa [yenContacts] using hc⟩
    have hsearch : cgrDijkstra (yenContacts time source plan) none destination (yenWork time) =
        .error .keyError := by
      rw [cgrDijkstra, searchFrom, show ((yenContacts time source plan).contact none).toNode =
        source from rfl, hhash]
      rfl
    rw [cgrYen, hsearch]
    rfl
  · intro p hp
    cases p with
    | nil => exact hp.moves rfl
    | cons c p => exact habsent ⟨c, .inl hp.feasible.1.1.frm⟩

/-- If some candidate is ranked first and slow, asking for enough routes shows it. -/
theorem fast_of_first_arrives_first {plan : Fin n → Contact} (causal : Causal plan)
    (rates : ∀ c, 0 < (plan c).rate) (now : 0 ≤ time) (hsource : Occurs plan source)
    (h : FirstArrivesFirst plan source destination time packet) :
    RankedFirstIsFast (yenContacts time source plan) source destination time packet := by
  intro best r hbest hr hfirst
  obtain ⟨k, routes, words, hyen, hover, hcheapest, hall⟩ :=
    cgrYen_exhausts causal hsource now destination
  have hcands := @fwdCandidate_eq n (yenContacts time source plan) time packet words routes rates
    hover
  obtain ⟨p, hp, hoverBest⟩ := hbest.chain
  obtain ⟨best', hbest', hlt, -, hbestTime⟩ :=
    returned_of_word hover (hall p hp) hoverBest hbest.passes
  obtain ⟨q, hq, hoverR⟩ := hr.chain
  obtain ⟨r', hr', -, -, hrTime⟩ := returned_of_word hover (hall q hq) hoverR hr.passes
  obtain ⟨head, rest, hsort, hhead⟩ := exists_first_candidate hover hcheapest hall hbest
  -- The head is the last of the routes that are ranked first, so it arrives no earlier.
  obtain ⟨-, before, after, hsplit, hafter⟩ :=
    PySort.sort_head Route.lt_total Route.lt_trans hsort
  have hle : realArrival (yenContacts time source plan) time best ≤
      realArrival (yenContacts time source plan) time head := by
    have hsorted := @candidates_sorted _ _ source destination time packet _ _ hover hcheapest
    rw [← hbestTime]
    rw [hsplit] at hbest' hsorted
    rcases List.mem_append.mp hbest' with hb | hb
    · exact (List.pairwise_append.mp hsorted).2.2 best' hb head (by simp)
    · rcases List.mem_cons.mp hb with rfl | hb
      · exact le_refl _
      · have hno := hafter best' hb
        rw [hlt, hfirst head hhead] at hno
        cases hno
  have hfirstArrives := h k routes _ head hyen hcands (by rw [hsort]; rfl) r'
    (PySort.mem_sort.mpr hr')
  rw [hrTime] at hfirstArrives
  calc time + lightTime (yenContacts time source plan) best
      ≤ realArrival (yenContacts time source plan) time best := by
        rw [hbest.realArrival_eq now]
        exact le_max_left _ _
    _ ≤ realArrival (yenContacts time source plan) time head := hle
    _ ≤ realArrival (yenContacts time source plan) time r := hfirstArrives

/-- If the candidates that are ranked first are fast enough then the first one arrives
first, also among fewer routes. -/
theorem first_arrives_first_of_fast {plan : Fin n → Contact} (causal : Causal plan)
    (rates : ∀ c, 0 < (plan c).rate) (now : 0 ≤ time) (hsource : Occurs plan source)
    (fast : RankedFirstIsFast (yenContacts time source plan) source destination time packet) :
    FirstArrivesFirst plan source destination time packet := by
  intro k routes cands best hyen hcands hbest r hr
  obtain ⟨routes', words, hyen', hover, hcheapest, -, -⟩ :=
    cgrYen_best causal hsource now destination k
  cases hyen.symm.trans hyen'
  have hcands' := @fwdCandidate_eq n (yenContacts time source plan) time packet words routes rates
    hover
  cases hcands.symm.trans hcands'
  obtain ⟨rest, hsort⟩ := List.head?_eq_some_iff.mp hbest
  have hleast := (PySort.sort_head Route.lt_total Route.lt_trans hsort).1
  have hbestmem : best ∈ routes.filter (passes (yenContacts time source plan) time packet) :=
    PySort.mem_sort.mp (hsort ▸ List.mem_cons_self)
  have hbest' := mem_candidates hover hcheapest hbestmem
  have hr' := mem_candidates hover hcheapest (PySort.mem_sort.mp hr)
  -- The candidate that is ranked first among all routes may not have been returned.
  obtain ⟨-, routes', words', -, hover', hcheapest', hall⟩ :=
    cgrYen_exhausts causal hsource now destination
  obtain ⟨top, rest', hsort', htop⟩ := exists_first_candidate hover' hcheapest' hall hbest'
  have hfirst {o : Route n} (ho : Candidacy (yenContacts time source plan) source destination
      time packet o) : top.lt o = true := head_ranked_first hover' hall hsort' ho
  obtain ⟨p, hp, hovertop⟩ := htop.chain
  by_cases hreturned : p ∈ words
  · obtain ⟨top', htop', -, hlt, -⟩ := returned_of_word hover hreturned hovertop htop.passes
    refine fast.arrives_first now hbest' hr' fun o ho => ?_
    exact Route.lt_trans best top o (hlt best ▸ hleast top' htop') (hfirst ho)
  · obtain ⟨q, hq, hoverbest⟩ := over_of_route hover (List.mem_of_mem_filter hbestmem)
    calc realArrival (yenContacts time source plan) time best
        ≤ realArrival (yenContacts time source plan) time top := by
          rw [hoverbest.realArrival, hovertop.realArrival]
          exact hcheapest.least q hq p hp hreturned
      _ ≤ realArrival (yenContacts time source plan) time r :=
          fast.arrives_first now htop hr' fun o ho => hfirst ho

/-- The first candidate has the smallest real arrival time among the candidates, for any
number of routes, if and only if every candidate that is ranked first has a total light
time that, counted from now, is no later than the arrival over any other candidate. -/
theorem first_candidate_earliest_iff (plan : Fin n → Contact) (source destination : Int) (time : ℚ)
    (packet : Ipv6Packet) (causal : Causal plan) (rates : ∀ c, 0 < (plan c).rate)
    (now : 0 ≤ time) :
    FirstArrivesFirst plan source destination time packet ↔
      RankedFirstIsFast (yenContacts time source plan) source destination time packet := by
  by_cases hsource : Occurs plan source
  · exact ⟨fast_of_first_arrives_first causal rates now hsource,
      first_arrives_first_of_fast causal rates now hsource⟩
  · refine ⟨fun _ best r hbest => ?_, fun _ k routes cands best hyen => ?_⟩
    · obtain ⟨p, hp, -⟩ := hbest.chain
      exact absurd hp ((cgrYen_absent hsource destination time 0).2 p)
    · rw [(cgrYen_absent hsource destination time k).1] at hyen
      cases hyen

theorem rankedFirstIsFast_of_future (now : 0 ≤ time)
    (future : ∀ c, (g.plan c).frm = source → time ≤ (g.plan c).start) :
    RankedFirstIsFast g source destination time packet := by
  intro best r hbest hr hfirst
  obtain ⟨p, hp, hover⟩ := hbest.chain
  calc time + lightTime g best
      ≤ best.bestDeliveryTime := by
        rw [hover.lightTime, hover.bestDeliveryTime]
        cases p with
        | nil => exact absurd rfl hp.moves
        | cons c p =>
            have hstart := future c hp.feasible.1.1.frm
            have hmax := le_max_right 0 (g.plan c).start
            have hlight := @light_le_arrival n g.plan (max 0 (g.plan c).start + (g.plan c).owlt) p
            rw [List.map_cons, List.sum_cons, arrival_cons]
            linarith
    _ ≤ r.bestDeliveryTime := Route.lt_le (hfirst r hr)
    _ ≤ realArrival g time r := by
        rw [hr.realArrival_eq now]
        exact le_max_right _ _

/-- Two contacts that opened before the packet leaves; the one that opened first is slower. -/
def agedPlan : Fin 2 → Contact := ![⟨1, 2, 0, 100, 1, 5, 1⟩, ⟨1, 2, 3, 100, 1, 4, 1⟩]

def agedPacket : Ipv6Packet := .new 10 2 1 1000 0 7

theorem first_candidate_earliest_iff_aged :
    Causal agedPlan ∧ (∀ c, 0 < (agedPlan c).rate) ∧
      (FirstArrivesFirst agedPlan 1 2 10 agedPacket ↔
        RankedFirstIsFast (yenContacts 10 1 agedPlan) 1 2 10 agedPacket) :=
  have causal : Causal agedPlan := by decide +kernel
  have rates : ∀ c, 0 < (agedPlan c).rate := by decide +kernel
  ⟨causal, rates, first_candidate_earliest_iff agedPlan 1 2 10 agedPacket causal rates (by decide)⟩

def agedRoutes : List (Route 2) := (cgrYen 10 1 2 10 agedPlan 2).toOption.getD []

def agedCandidates : List (Route 2) :=
  (fwdCandidate (yenContacts 10 1 agedPlan) 10 agedPacket agedRoutes []).toOption.getD []

/-- The first candidate arrives at 15 although the other one arrives at 14. -/
theorem slower_candidate_first :
    ∃ best other, cgrYen 10 1 2 10 agedPlan 2 = .ok agedRoutes ∧
      fwdCandidate (yenContacts 10 1 agedPlan) 10 agedPacket agedRoutes [] = .ok agedCandidates ∧
      agedCandidates.head? = some best ∧ other ∈ agedCandidates ∧
      realArrival (yenContacts 10 1 agedPlan) 10 best = 15 ∧
      realArrival (yenContacts 10 1 agedPlan) 10 other = 14 := by
  refine ⟨agedCandidates.get ⟨0, by decide +kernel⟩, agedCandidates.get ⟨1, by decide +kernel⟩, ?_⟩
  decide +kernel

end Order
end LwipDtn.Cgr
