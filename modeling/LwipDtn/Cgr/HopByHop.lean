import LwipDtn.Cgr.Candidates
import Mathlib.Algebra.Order.Archimedean.Basic
import Mathlib.Data.Fintype.Basic
import Mathlib.Data.Fintype.EquivFin
import Mathlib.Data.Fintype.Lattice
import Mathlib.Data.Rat.Floor

/-!
Contact graph routing from node to node. Every node that gets a packet asks `cgr_yen`
anew, at the time of the arrival, and sends the packet over the first contact of the first
route. The search at the next node knows nothing of the nodes before it, and may lead the
packet back to one of them; still the arrival that the first node has predicted is kept at
every hop.
-/

namespace LwipDtn.Cgr

variable {n : Nat} {plan : Fin n → Contact}

/-- The contact over which a node sends a packet that it gets at this time. -/
def firstContact (plan : Fin n → Contact) (destination : Int) (k : Nat) (node : Int) (time : ℚ) :
    Py (Option (Fin n)) := do
  let routes ← cgrYen time node destination time plan k
  return routes.head?.bind fun route => route.hops.head?.join

/-- The time at which the packet gets to its destination if every node on the way asks for
itself; `fuel` bounds the number of hops. -/
def hopByHop (plan : Fin n → Contact) (destination : Int) (k : Nat) : Nat → Int → ℚ → Py (Option ℚ)
  | 0, _, _ => return none
  | fuel + 1, node, time => do
      if node = destination then return some time
      match ← firstContact plan destination k node time with
      | none => return none
      | some c =>
          hopByHop plan destination k fuel (plan c).toNode
            (max time (plan c).start + (plan c).owlt)

/-! Journeys from an earlier time, and with fewer nodes seen. -/

theorem arrival_mono {t t' : ℚ} (h : t ≤ t') (p : List (Fin n)) :
    arrival plan t p ≤ arrival plan t' p := by
  induction p generalizing t t' with
  | nil => exact h
  | cons c p ih => exact ih (add_le_add_left (max_le_max_right _ h) _)

theorem arrival_append (t : ℚ) (p q : List (Fin n)) :
    arrival plan t (p ++ q) = arrival plan (arrival plan t p) q := List.foldl_append

theorem le_arrival (causal : Causal plan) (t : ℚ) (p : List (Fin n)) : t ≤ arrival plan t p := by
  have h := Stop.after_le causal ⟨0, t, []⟩ p
  rwa [Stop.after_time] at h

theorem Trip.relax {s s' : Stop} {p : List (Fin n)} (h : Trip plan s p) (node : s'.node = s.node)
    (time : s'.time ≤ s.time) (seen : ∀ x ∈ s'.seen, x ∈ s.seen ∨ ∀ c ∈ p, (plan c).toNode ≠ x) :
    Trip plan s' p := by
  induction p generalizing s s' with
  | nil => trivial
  | cons c p ih =>
      refine ⟨⟨h.1.frm.trans node.symm, fun hseen => ?_, h.1.volume, lt_of_le_of_lt time h.1.time⟩,
        ih h.2 rfl (add_le_add_left (max_le_max_right _ time) _) fun x hx => ?_⟩
      · obtain hold | hnew := seen _ hseen
        · exact h.1.new hold
        · exact hnew c List.mem_cons_self rfl
      · obtain hx | hx := List.mem_append.mp hx
        · exact (seen x hx).imp (List.mem_append_left _) fun hnew d hd =>
            hnew d (List.mem_cons_of_mem c hd)
        · exact .inl (List.mem_append_right _ hx)

theorem Stop.after_node_congr {s s' : Stop} (h : s.node = s'.node) (p : List (Fin n)) :
    (s.after plan p).node = (s'.after plan p).node := by
  cases p using List.reverseRecOn with
  | nil => exact h
  | append_singleton p c => rw [after_node, after_node]

/-- The earliest arrival of a packet that is at a node at some time. -/
structure Earliest (plan : Fin n → Contact) (destination node : Int) (time best : ℚ) : Prop where
  reached : ∃ p, Feasible plan node destination time p ∧ arrival plan time p = best
  least : ∀ q, Feasible plan node destination time q → best ≤ arrival plan time q

section

variable {destination node : Int} {time best : ℚ} {c : Fin n} {p q : List (Fin n)}

theorem Feasible.rest (h : Feasible plan node destination time (p ++ c :: q)) {t : ℚ}
    (earlier : t ≤ arrival plan time (p ++ [c])) :
    Feasible plan (plan c).toNode destination t q ∧
      arrival plan t q ≤ arrival plan time (p ++ c :: q) := by
  obtain ⟨htrip, hnode⟩ := h
  rw [List.append_cons] at htrip hnode ⊢
  have hrest := (trip_append.mp htrip).2
  have hstop : ((departure node time).after plan (p ++ [c])).node = (plan c).toNode := after_node
  have htime : ((departure node time).after plan (p ++ [c])).time =
      arrival plan time (p ++ [c]) := Stop.after_time _ _
  rw [Stop.after_append] at hnode
  refine ⟨⟨hrest.relax hstop.symm (by rwa [htime]) fun x hx => ?_, ?_⟩, ?_⟩
  · rw [List.mem_singleton.mp hx, ← hstop]
    exact .inl (Stop.node_seen List.mem_cons_self _)
  · rw [← hnode]
    exact Stop.after_node_congr hstop.symm q
  · rw [arrival_append]
    exact arrival_mono earlier q

/-- The next node has the same earliest arrival as the node that asks. -/
theorem Earliest.next (causal : Causal plan) (h : Earliest plan destination node time best)
    (hfirst : Feasible plan node destination time (c :: p))
    (hbest : arrival plan time (c :: p) = best) :
    Earliest plan destination (plan c).toNode (max time (plan c).start + (plan c).owlt) best := by
  have hboards := hfirst.1.1
  have hlater : time ≤ max time (plan c).start + (plan c).owlt := le_arrival causal time [c]
  refine ⟨⟨p, (hfirst.rest (p := []) (le_refl _)).1, hbest⟩, fun q hq => ?_⟩
  by_cases back : ∃ d ∈ q, (plan d).toNode = node
  · -- the chain leads back here, where going on at once is no worse
    obtain ⟨d, hd, hnode⟩ := back
    obtain ⟨q₁, q₂, rfl⟩ := List.append_of_mem hd
    have hearlier : time ≤ arrival plan (max time (plan c).start + (plan c).owlt) (q₁ ++ [d]) :=
      le_trans hlater (le_arrival causal _ _)
    obtain ⟨hfeasible, hle⟩ := hq.rest hearlier
    rw [hnode] at hfeasible
    exact le_trans (h.least q₂ hfeasible) hle
  · -- the chain can be used behind the first contact
    have hstop : ((departure node time).ride plan c).node =
        (departure (plan c).toNode (max time (plan c).start + (plan c).owlt)).node := rfl
    refine h.least (c :: q) ⟨⟨hboards, hq.1.relax rfl (le_refl _) fun x hx => ?_⟩,
      (Stop.after_node_congr hstop q).trans hq.2⟩
    obtain hx | hx := List.mem_append.mp hx
    · rw [List.mem_singleton.mp hx]
      exact .inr fun d hd hnode => back ⟨d, hd, hnode⟩
    · exact .inl hx

theorem Earliest.arrived (causal : Causal plan)
    (h : Earliest plan destination destination time best) :
    best = time := by
  obtain ⟨p, -, hbest⟩ := h.reached
  refine le_antisymm (h.least [] ⟨trivial, rfl⟩) ?_
  rw [← hbest]
  exact le_arrival causal time p

end

def Delayed (plan : Fin n → Contact) : Prop := ∀ c, 0 < (plan c).owlt

theorem Delayed.causal (h : Delayed plan) : Causal plan := fun c => le_of_lt (h c)

section

variable {destination node : Int} {time best : ℚ} {k : Nat}

theorem Feasible.chain (away : node ≠ destination) {p : List (Fin n)}
    (h : Feasible plan node destination time p) (soon : arrival plan time p < sysMaxsize) :
    Chain plan node destination time p := by
  refine ⟨?_, h, soon⟩
  rintro rfl
  exact away h.2

theorem earliest_of_cheapest (away : node ≠ destination) {w : List (Fin n)}
    {words : List (List (Fin n))}
    (h : KBest.Cheapest (Chain plan node destination time) (arrival plan time) (w :: words)) :
    Earliest plan destination node time (arrival plan time w) := by
  have hw := h.words w List.mem_cons_self
  refine ⟨⟨w, hw.feasible, rfl⟩, fun q hq => ?_⟩
  by_cases soon : arrival plan time q < sysMaxsize
  case neg => exact le_trans (le_of_lt hw.bounded) (not_lt.mp soon)
  by_cases chosen : q ∈ w :: words
  · obtain rfl | hlater := List.mem_cons.mp chosen
    · exact le_refl _
    · exact List.rel_of_pairwise_cons h.sorted hlater
  · exact h.least w List.mem_cons_self q (hq.chain away soon) chosen

theorem cgrYen_head (delayed : Delayed plan) (away : node ≠ destination) (occurs : Occurs plan node)
    (now : 0 ≤ time) (soon : best < sysMaxsize) (h : Earliest plan destination node time best) :
    ∃ c p first rest, cgrYen time node destination time plan k = .ok (first :: rest) ∧
      first.hops = (c :: p).map some ∧ Feasible plan node destination time (c :: p) ∧
      arrival plan time (c :: p) = best := by
  obtain ⟨routes, words, hyen, hover, hcheapest, -, hall⟩ :=
    cgrYen_best delayed.causal occurs now destination k
  obtain ⟨p, hp, hbest⟩ := h.reached
  cases hover with
  | nil =>
      have hnone := hall (Nat.lt_of_lt_of_le Nat.zero_lt_one (Nat.le_add_right _ _)) p
        (hp.chain away (hbest ▸ soon))
      cases hnone
  | cons hfirst hrest =>
      rename_i word first words rest
      have hword := hcheapest.words word List.mem_cons_self
      have hearliest := earliest_of_cheapest away hcheapest
      cases word with
      | nil => exact absurd rfl hword.moves
      | cons c w =>
          refine ⟨c, w, first, rest, hyen, hfirst.hops, hword.feasible, ?_⟩
          refine le_antisymm ?_ (h.least _ hword.feasible)
          rw [← hbest]
          exact hearliest.least p hp

theorem hopByHop_succ (delayed : Delayed plan) (away : node ≠ destination)
    (occurs : Occurs plan node) (now : 0 ≤ time) (soon : best < sysMaxsize)
    (h : Earliest plan destination node time best) :
    ∃ c, Earliest plan destination (plan c).toNode (max time (plan c).start + (plan c).owlt) best ∧
      ∀ fuel, hopByHop plan destination k (fuel + 1) node time =
        hopByHop plan destination k fuel (plan c).toNode
          (max time (plan c).start + (plan c).owlt) := by
  obtain ⟨c, p, first, rest, hyen, hhops, hfeasible, hbest⟩ :=
    cgrYen_head (k := k) delayed away occurs now soon h
  refine ⟨c, h.next delayed.causal hfeasible hbest, fun fuel => ?_⟩
  have hcontact : firstContact plan destination k node time = .ok (some c) := by
    rw [firstContact, hyen]
    simp [bind, Except.bind, pure, Except.pure, hhops]
  rw [hopByHop, if_neg away, hcontact]
  rfl

/-- Every hop takes at least the least delay, and the arrival stays where it is. -/
theorem hopByHop_arrives (delayed : Delayed plan) {delay : ℚ}
    (least : ∀ c, delay ≤ (plan c).owlt) (occurs : Occurs plan node) (now : 0 ≤ time)
    (soon : best < sysMaxsize) (h : Earliest plan destination node time best) (hops : Nat)
    (hhops : best - time < hops * delay) {fuel : Nat} (enough : hops ≤ fuel) :
    hopByHop plan destination k fuel node time = .ok (some best) := by
  induction hops generalizing fuel node time with
  | zero =>
      obtain ⟨p, -, hp⟩ := h.reached
      have hle := le_arrival delayed.causal time p
      rw [hp] at hle
      rw [Nat.cast_zero, zero_mul] at hhops
      exact absurd hle (not_le.mpr (sub_neg.mp hhops))
  | succ hops ih =>
      obtain ⟨fuel, rfl⟩ := Nat.exists_eq_succ_of_ne_zero (Nat.ne_of_gt (Nat.zero_lt_of_lt enough))
      by_cases here : node = destination
      · rw [here] at h
        rw [hopByHop, if_pos here, h.arrived delayed.causal]
        rfl
      · obtain ⟨c, hnext, hstep⟩ := hopByHop_succ (k := k) delayed here occurs now soon h
        rw [hstep fuel]
        have hwait : time + delay ≤ max time (plan c).start + (plan c).owlt :=
          add_le_add (le_max_left _ _) (least c)
        have hlater := le_arrival delayed.causal time [c]
        refine ih ⟨c, .inr rfl⟩ (le_trans now hlater) hnext ?_
          (Nat.le_of_succ_le_succ enough)
        rw [Nat.cast_succ, add_mul, one_mul] at hhops
        change best - (max time (plan c).start + (plan c).owlt) < hops * delay
        linarith

end

/-- The packet gets to its destination at the time that the first node has predicted. -/
theorem hop_by_hop_keeps_prediction (delayed : Delayed plan) {source destination : Int} {time : ℚ}
    {k : Nat} {first : Route n} {rest : List (Route n)} (away : source ≠ destination)
    (now : 0 ≤ time)
    (hyen : cgrYen time source destination time plan k = .ok (first :: rest)) :
    ∃ p, first.hops = p.map some ∧ ∃ hops, ∀ fuel, hops ≤ fuel →
      hopByHop plan destination k fuel source time = .ok (some (arrival plan time p)) := by
  by_cases occurs : Occurs plan source
  · obtain ⟨routes, words, hroutes, hover, hcheapest, -, -⟩ :=
      cgrYen_best delayed.causal occurs now destination k
    rw [hyen] at hroutes
    cases hroutes
    cases hover with
    | cons hfirst hrest =>
        rename_i word words
        have hearliest := earliest_of_cheapest away hcheapest
        obtain ⟨fastest, hleast⟩ : ∃ c, ∀ d, (plan c).owlt ≤ (plan d).owlt := by
          have : Nonempty (Fin n) := ⟨occurs.choose⟩
          exact Finite.exists_min fun c => (plan c).owlt
        obtain ⟨hops, hhops⟩ :=
          exists_nat_gt ((arrival plan time word - time) / (plan fastest).owlt)
        refine ⟨word, hfirst.hops, hops, fun fuel enough => ?_⟩
        have hword := hcheapest.words word List.mem_cons_self
        exact hopByHop_arrives delayed hleast occurs now hword.bounded hearliest hops
          ((div_lt_iff₀ (delayed fastest)).mp hhops) enough
  · rw [(cgrYen_absent occurs destination time k).1] at hyen
    cases hyen

def sampleRoutes : List (Route 3) := (cgrYen 2 1 3 2 samplePlan 2).toOption.getD []

theorem samplePlan_delayed : Delayed samplePlan := by
  rw [Delayed]
  decide +kernel

theorem hop_by_hop_keeps_sample_prediction :
    ∃ first rest, cgrYen 2 1 3 2 samplePlan 2 = .ok (first :: rest) ∧
      ∃ p, first.hops = p.map some ∧ ∃ hops, ∀ fuel, hops ≤ fuel →
        hopByHop samplePlan 3 2 fuel 1 2 = .ok (some (arrival samplePlan 2 p)) := by
  have hyen : cgrYen 2 1 3 2 samplePlan 2 =
      .ok (sampleRoutes.get ⟨0, by decide +kernel⟩ :: sampleRoutes.tail) := by decide +kernel
  exact ⟨_, _, hyen, hop_by_hop_keeps_prediction samplePlan_delayed (by decide) (by decide) hyen⟩

end LwipDtn.Cgr
