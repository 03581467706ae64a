import LwipDtn.Cgr.Journey

/-!
Routes along journeys. The assertions of `Route.append` hold for every contact that the
journey can board, and behind the root contact the delivery time of the route is the
arrival of the journey.
-/

namespace LwipDtn.Cgr

variable {n : Nat} {g : Contacts n}

theorem refreshMetrics_ok {hops : List (Ref n)} (moves : hops ≠ []) (visited : List Int) :
    ∃ r, refreshMetrics g hops visited = .ok r ∧ r.hops = hops ∧ r.visited = visited ∧
      r.bestDeliveryTime = bestDeliveryTime g hops := by
  cases hops with
  | nil => exact absurd rfl moves
  | cons first rest => exact ⟨_, rfl, rfl, rfl, rfl⟩

namespace Route

/-- The route has computed metrics and leads to the stop. -/
structure LeadsTo (g : Contacts n) (r : Route n) (s : Stop) : Prop where
  visited : ∀ node ∈ r.visited, node ∈ s.seen
  last : ∃ h, r.hops.getLast? = some h ∧ (g.contact h).start + (g.contact h).owlt ≤ s.time
  bestDeliveryTime : r.bestDeliveryTime = Cgr.bestDeliveryTime g r.hops

def Extends (g : Contacts n) (r r' : Route n) (s : Stop) (p : List (Fin n)) : Prop :=
  r'.hops = r.hops ++ p.map some ∧ r'.LeadsTo g (s.after g.plan p)

theorem LeadsTo.append {r : Route n} {s : Stop} {c : Fin n} (h : r.LeadsTo g s)
    (hnode : s.node ∈ s.seen) (hc : s.Boards g.plan c) :
    ∃ r', r.append g (some c) = .ok r' ∧ Extends g r r' s [c] := by
  obtain ⟨last, hlast, hle⟩ := h.last
  have heligible : r.eligible g (some c) = true := by
    rw [eligible, hlast]
    have hnew : (g.plan c).toNode ∉ r.visited := fun hv => hc.new (h.visited _ hv)
    exact Bool.and_eq_true_iff.mpr
      ⟨by simpa [Contacts.contact] using hnew, decide_eq_true (lt_of_le_of_lt hle hc.time)⟩
  obtain ⟨r', hr', hhops, hvisited, hbdt⟩ := @refreshMetrics_ok n g (r.hops ++ [some c])
    (by simp) (r.visited ++ [(g.plan c).frm, (g.plan c).toNode])
  refine ⟨r', by rw [Route.append, if_pos heligible]; exact hr', hhops, ⟨fun node hv => ?_, ?_, ?_⟩⟩
  · rw [hvisited] at hv
    simp only [Stop.after_cons, Stop.after_nil, Stop.ride, List.mem_append, List.mem_cons,
      List.not_mem_nil, or_false] at hv ⊢
    rcases hv with hv | rfl | rfl
    · exact .inl (h.visited node hv)
    · exact .inl (hc.frm ▸ hnode)
    · exact .inr rfl
  · refine ⟨some c, by simp [hhops], ?_⟩
    exact add_le_add_left (le_max_right _ _) _
  · rw [hbdt, hhops]

theorem LeadsTo.appendAll {r : Route n} {s : Stop} {p : List (Fin n)} (h : r.LeadsTo g s)
    (hnode : s.node ∈ s.seen) (hp : Trip g.plan s p) :
    ∃ r', (p.map some).foldlM (Route.append g) r = .ok r' ∧ Extends g r r' s p := by
  induction p generalizing r s with
  | nil => exact ⟨r, rfl, by simp, h⟩
  | cons c p ih =>
      obtain ⟨r₁, hr₁, hhops₁, h₁⟩ := h.append hnode hp.1
      obtain ⟨r₂, hr₂, hhops₂, h₂⟩ := ih h₁ (by simp [Stop.ride]) hp.2
      refine ⟨r₂, ?_, by simp [hhops₂, hhops₁], h₂⟩
      rw [List.map_cons, List.foldlM_cons, hr₁]
      exact hr₂

theorem along_trip {s : Stop} {p : List (Fin n)} (hnode : s.node ∈ s.seen)
    (hp : Trip g.plan s p) (moves : p ≠ []) :
    ∃ r, along g (p.map some) = .ok r ∧ r.hops = p.map some := by
  cases p with
  | nil => exact absurd rfl moves
  | cons c p =>
      obtain ⟨r₁, hr₁, hhops₁, hvisited₁, hbdt₁⟩ := @refreshMetrics_ok n g [some c] (by simp)
        [(g.plan c).frm, (g.plan c).toNode]
      have hlead : r₁.LeadsTo g (s.ride g.plan c) := by
        refine ⟨fun node hv => ?_, ⟨some c, by simp [hhops₁], ?_⟩, by rw [hbdt₁, hhops₁]⟩
        · rw [hvisited₁] at hv
          simp only [Stop.ride, List.mem_append, List.mem_cons, List.not_mem_nil, or_false] at hv ⊢
          rcases hv with rfl | rfl
          · exact .inl (hp.1.frm ▸ hnode)
          · exact .inr rfl
        · exact add_le_add_left (le_max_right _ _) _
      obtain ⟨r₂, hr₂, hhops₂, -⟩ := hlead.appendAll (by simp [Stop.ride]) hp.2
      refine ⟨r₂, ?_, by simp [hhops₂, hhops₁]⟩
      rw [List.map_cons, along, show new g (some c) = .ok r₁ from hr₁]
      exact hr₂

end Route

section Root

/-- The root contact stays at its node from the given time on. -/
structure StartsAt (g : Contacts n) (source : Int) (time : ℚ) : Prop where
  frm : g.root.frm = source
  toNode : g.root.toNode = source
  start : g.root.start = time
  owlt : g.root.owlt = 0
  now : 0 ≤ time

variable {source : Int} {time : ℚ}

theorem bestDeliveryTime_root (hg : StartsAt g source time) (p : List (Fin n)) :
    bestDeliveryTime g (none :: p.map some) = arrival g.plan time p := by
  rw [bestDeliveryTime, List.foldl_cons, List.foldl_map, arrival]
  congr 1
  · funext t c
    exact max_add_add_right t _ _
  · simp [Contacts.contact, hg.start, hg.owlt, hg.now]

theorem along_root (hg : StartsAt g source time) {p : List (Fin n)}
    (hp : Trip g.plan (departure source time) p) :
    ∃ r, Route.along g (none :: p.map some) = .ok r ∧ r.hops = none :: p.map some ∧
      r.bestDeliveryTime = arrival g.plan time p := by
  obtain ⟨r₁, hr₁, hhops₁, hvisited₁, hbdt₁⟩ := @refreshMetrics_ok n g [none] (by simp)
    [g.root.frm, g.root.toNode]
  have hlead : r₁.LeadsTo g (departure source time) := by
    refine ⟨fun node hv => ?_, ⟨none, by simp [hhops₁], ?_⟩, by rw [hbdt₁, hhops₁]⟩
    · rw [hvisited₁, hg.frm, hg.toNode] at hv
      simpa [departure] using hv
    · simp [Contacts.contact, hg.start, hg.owlt, departure]
  obtain ⟨r₂, hr₂, hhops₂, hlead₂⟩ := hlead.appendAll (by simp [departure]) hp
  have hhops : r₂.hops = none :: p.map some := by simp [hhops₂, hhops₁]
  refine ⟨r₂, ?_, hhops, ?_⟩
  · rw [Route.along, show Route.new g none = .ok r₁ from hr₁]
    exact hr₂
  · rw [hlead₂.bestDeliveryTime, hhops, bestDeliveryTime_root hg]

end Root
end LwipDtn.Cgr
