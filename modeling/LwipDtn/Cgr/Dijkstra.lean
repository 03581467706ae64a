import LwipDtn.Cgr.SearchLoop
import LwipDtn.Cgr.RouteAlong

/-!
What `cgr_dijkstra` returns: a journey with the smallest arrival among those that the
search may take, or nothing if there is none.
-/

namespace LwipDtn.Cgr

variable {n : Nat} {g : Contacts n} {root : Ref n} {destination : Int} {w : WorkArea n}
  {settled : Ref n → Prop} {s : Search n} {paths : Ref n → List (Fin n)}

structure Allowed (g : Contacts n) (root : Ref n) (destination : Int) (w : WorkArea n)
    (p : List (Fin n)) : Prop where
  trip : Trip g.plan (searchStart g root w) p
  moves : p ≠ []
  node : ((searchStart g root w).after g.plan p).node = destination
  free : ∀ c ∈ p, (w (some c)).suppressed = false
  first : ∀ c, p.head? = some c → some c ∉ (w root).suppressedNextHop

section Optimal

theorem Searched.on_the_way (causal : Causal g.plan)
    (h : Searched g root destination w settled s paths) {x : Ref n} (hx : settled x) {y : Fin n}
    (hy : y ∈ paths x) :
    settled (some y) ∧ (s.work (some y)).arrivalTime ≤ (s.work x).arrivalTime := by
  -- The way to the predecessor is shorter.
  induction hlen : (paths x).length generalizing x with
  | zero =>
      rw [List.length_eq_zero_iff.mp hlen] at hy
      cases hy
  | succ len ih =>
      obtain rfl | ⟨c, p, rfl, hc⟩ := h.labels.settledLabel x hx
      · rw [h.labels.rootPath] at hy
        cases hy
      · have hlabel := h.labels.label c p hc
        rw [hlabel.path] at hy hlen
        rcases List.mem_append.mp hy with hy | hy
        · obtain ⟨hset, hle⟩ := ih hlabel.settled hy (by simpa using hlen)
          refine ⟨hset, le_trans hle ?_⟩
          rw [(h.labels.atStop hlabel.settled).time, hlabel.time, hlabel.path, Stop.after_append]
          exact Stop.after_le causal _ _
        · cases List.mem_singleton.mp hy
          exact ⟨hx, le_refl _⟩

/-- Something at least as good as the journey `q` has been settled. -/
def Reached (g : Contacts n) (root : Ref n) (w : WorkArea n) (settled : Ref n → Prop)
    (s : Search n) (q : List (Fin n)) : Prop :=
  ∃ x, settled x ∧ (g.contact x).toNode = ((searchStart g root w).after g.plan q).node ∧
    (s.work x).arrivalTime ≤ ((searchStart g root w).after g.plan q).time

theorem Searched.reached_step (causal : Causal g.plan) (ready : Ready g root w)
    (h : Searched g root destination w settled s paths) {q : List (Fin n)} {c : Fin n}
    (htrip : Trip g.plan (searchStart g root w) (q ++ [c]))
    (hfree : (w (some c)).suppressed = false)
    (hfirst : ∀ d, (q ++ [c]).head? = some d → some d ∉ (w root).suppressedNextHop)
    (hq : Reached g root w settled s q) :
    s.earliestFinArrT ≤ ((searchStart g root w).after g.plan (q ++ [c])).time ∨
      Reached g root w settled s (q ++ [c]) := by
  obtain ⟨x, hx, hnode, htime⟩ := hq
  have hboards := (trip_concat.mp htrip).2
  have hride : ((searchStart g root w).after g.plan (q ++ [c])).time =
      max ((searchStart g root w).after g.plan q).time (g.plan c).start + (g.plan c).owlt := by
    rw [Stop.after_append]
    rfl
  by_cases hseen : (g.plan c).toNode ∈ (s.work x).visitedNodes
  · -- The way to `x` has already come through the node to which `c` leads.
    rw [(h.labels.atStop hx).seen, Stop.after_seen] at hseen
    rcases List.mem_append.mp hseen with hseen | hseen
    · exact absurd hseen (htrip.new (by simp))
    · obtain ⟨y, hy, heq⟩ := List.mem_map.mp hseen
      obtain ⟨hset, hle⟩ := h.on_the_way causal hx hy
      refine .inr ⟨some y, hset, by rw [after_node]; exact heq, ?_⟩
      rw [Stop.after_append]
      exact le_trans hle (le_trans htime (Stop.after_le causal _ _))
  · have hallowed : some c ∉ (w x).suppressedNextHop := by
      obtain rfl | ⟨d, p, rfl, hd⟩ := h.labels.settledLabel x hx
      · have hq : q = [] := by
          refine Classical.byContradiction fun moves => ?_
          have hnew := (trip_append.mp htrip).1.node_new moves
          rw [← hnode] at hnew
          exact hnew ready.node
        subst hq
        exact hfirst c rfl
      · rw [ready.free d hd.1]
        nofun
    have hmono : max (s.work x).arrivalTime (g.plan c).start + (g.plan c).owlt ≤
        ((searchStart g root w).after g.plan (q ++ [c])).time := by
      rw [hride]
      exact add_le_add_left (max_le_max_right _ htime) _
    obtain ⟨p, hc, hle⟩ | hmax := h.labels.relaxed x c hx id
      ⟨hboards.frm.trans hnode.symm, hseen, hboards.volume, lt_of_le_of_lt htime hboards.time,
        hfree, hallowed⟩
    · by_cases hset : settled (some c)
      · exact .inr ⟨some c, hset, by rw [after_node]; rfl, le_trans hle hmono⟩
      · exact .inl (le_trans (h.done c p hc hset) (le_trans hle hmono))
    · exact .inl (le_trans h.labels.earliest_le (le_trans hmax hmono))

theorem Searched.reached (causal : Causal g.plan) (ready : Ready g root w)
    (h : Searched g root destination w settled s paths) {p : List (Fin n)}
    (htrip : Trip g.plan (searchStart g root w) p)
    (hfree : ∀ c ∈ p, (w (some c)).suppressed = false)
    (hfirst : ∀ c, p.head? = some c → some c ∉ (w root).suppressedNextHop) :
    s.earliestFinArrT ≤ ((searchStart g root w).after g.plan p).time ∨
      Reached g root w settled s p := by
  induction p using List.reverseRecOn with
  | nil => exact .inr ⟨root, h.begun, rfl, le_of_eq h.labels.rootArea.1⟩
  | append_singleton q c ih =>
      have hstart : ∀ d, q.head? = some d → some d ∉ (w root).suppressedNextHop :=
        fun d hd => hfirst d (by rw [List.head?_append, hd]; rfl)
      rcases ih (trip_append.mp htrip).1 (fun d hd => hfree d (by simp [hd])) hstart with hfin | hq
      · left
        rw [Stop.after_append]
        exact le_trans hfin (Stop.after_le causal _ _)
      · exact h.reached_step causal ready htrip (hfree c (by simp)) hfirst hq

/-- The best label is no later than any journey that the search may take. -/
theorem Searched.least (causal : Causal g.plan) (ready : Ready g root w)
    (h : Searched g root destination w settled s paths) {p : List (Fin n)}
    (hp : Allowed g root destination w p) :
    s.earliestFinArrT ≤ ((searchStart g root w).after g.plan p).time := by
  rcases h.reached causal ready hp.trip hp.free hp.first with hfin | ⟨x, hx, hnode, htime⟩
  · exact hfin
  obtain rfl | ⟨c, q, rfl, hc⟩ := h.labels.settledLabel x hx
  · exact absurd (hnode ▸ ready.node) (hp.trip.node_new hp.moves)
  · exact le_trans (h.labels.finals c q hc (hnode.trans hp.node)) htime

end Optimal

section Result

theorem Searched.hopsTo (h : Searched g root destination w settled s paths) (fuel : Nat)
    {x : Ref n} (hx : x = root ∨ ∃ c p, x = some c ∧ Labelled root s c p)
    (hfuel : (paths x).length < fuel) (hops : List (Ref n)) :
    hopsTo s.work root fuel x hops = .ok ((paths x).map some ++ hops) := by
  induction fuel generalizing x hops with
  | zero => exact absurd hfuel (Nat.not_lt_zero _)
  | succ fuel ih =>
      obtain rfl | ⟨c, p, rfl, hc⟩ := hx
      · rw [Cgr.hopsTo, if_pos rfl, h.labels.rootPath]
        rfl
      · have hlabel := h.labels.label c p hc
        have hlen : (paths p).length < fuel := by simpa [hlabel.path] using hfuel
        rw [Cgr.hopsTo, if_neg hc.1, hc.2]
        dsimp only
        rw [ih (h.labels.settledLabel p hlabel.settled) hlen, hlabel.path]
        simp

def Finds (g : Contacts n) (root : Ref n) (destination : Int) (w : WorkArea n) :
    Option (Route n) → Prop
  | none => ∀ p, Allowed g root destination w p →
      sysMaxsize ≤ ((searchStart g root w).after g.plan p).time
  | some route => ∃ p, route.hops = p.map some ∧ Allowed g root destination w p ∧
      ((searchStart g root w).after g.plan p).time < sysMaxsize ∧
      ∀ q, Allowed g root destination w q → ((searchStart g root w).after g.plan p).time ≤
        ((searchStart g root w).after g.plan q).time

theorem Searched.searchRoute (causal : Causal g.plan) (ready : Ready g root w)
    (h : Searched g root destination w settled s paths) :
    ∃ found, searchRoute g root s = .ok found ∧ Finds g root destination w found := by
  cases hf : s.finalContact with
  | none =>
      refine ⟨none, by rw [Cgr.searchRoute, hf]; rfl, fun p hp => ?_⟩
      rw [← h.labels.noFinal hf]
      exact h.least causal ready hp
  | some f =>
      obtain ⟨⟨p, hc⟩, hdest, htime, hbound⟩ := h.labels.final f hf
      have hlabel := h.labels.label f p hc
      have moves : paths (some f) ≠ [] := by simp [hlabel.path]
      have hhops := h.hopsTo (n + 2) (.inr ⟨f, p, rfl, hc⟩)
        (Nat.lt_of_le_of_lt hlabel.trip.length_le (by omega)) []
      rw [List.append_nil] at hhops
      obtain ⟨route, hroute, hrhops⟩ := Route.along_trip ready.node hlabel.trip moves
      refine ⟨some route, ?_, paths (some f), hrhops,
        ⟨hlabel.trip, moves, ?_, hlabel.free, hlabel.first⟩, ?_, fun q hq => ?_⟩
      · rw [Cgr.searchRoute, hf]
        dsimp only
        rw [hhops]
        change (Route.along g _ >>= fun r => pure (some r)) = _
        rw [hroute]
        rfl
      · rw [hlabel.atStop.node]
        exact hdest
      · rw [← hlabel.time, htime]
        exact hbound
      · rw [← hlabel.time, htime]
        exact h.least causal ready hq

theorem labels_start (ready : Ready g root w) :
    Labels g root destination w (fun x => x = root) (fun x _ => x = root) ⟨w, none, sysMaxsize⟩
      (fun _ => []) := by
  have unlabelled {c : Fin n} {p : Ref n} : ¬ Labelled root ⟨w, none, sysMaxsize⟩ c p := by
    rintro ⟨hne, hpred⟩
    rw [(ready.fresh c hne).2.2] at hpred
    cases hpred
  exact ⟨fun x => ⟨rfl, rfl⟩, ⟨rfl, rfl⟩, rfl, fun x hx => .inl hx,
    fun c hc _ => (ready.fresh c hc).1, fun c p hc => absurd hc unlabelled,
    fun x c p _ _ hc => absurd hc unlabelled, fun x c hx hwait _ => absurd hx hwait,
    fun c p hc _ => absurd hc unlabelled, fun _ => rfl, nofun⟩

theorem looksFrom_start (ready : Ready g root w) :
    LooksFrom (fun x => x = root) ⟨w, none, sysMaxsize⟩ root := by
  refine ⟨rfl, fun c => ⟨.inr, ?_⟩, fun x hx => ?_⟩
  · rintro (hv | hc)
    · refine Classical.byContradiction fun hne => ?_
      rw [(ready.fresh c hne).2.1] at hv
      cases hv
    · exact hc
  · cases hx
    exact le_refl _

/-- A search finds a journey with the smallest arrival, and keeps the suppressions. -/
theorem cgrDijkstra_finds (destination : Int) (causal : Causal g.plan)
    (ready : Ready g root (prepareSearch g root w))
    (hplan : Occurs g.plan (g.contact root).toNode) :
    ∃ found w', cgrDijkstra g root destination w = .ok (found, w') ∧
      Finds g root destination (prepareSearch g root w) found ∧
      ∀ x, (w' x).suppressedNextHop = (prepareSearch g root w x).suppressedNextHop := by
  obtain ⟨s, settled, paths, hs, hsearched⟩ := searchFrom_searched causal ready hplan (n + 1)
    (labels_start ready) (looksFrom_start ready) rfl
    (Nat.lt_succ_of_le ((Finset.card_le_univ _).trans (by simp)))
  obtain ⟨found, hfound, hfinds⟩ := hsearched.searchRoute causal ready
  refine ⟨found, s.work, ?_, hfinds, fun x => (hsearched.labels.frame x).2⟩
  rw [cgrDijkstra, hs]
  change (searchRoute g root s >>= fun route => pure (route, s.work)) = _
  rw [hfound]
  rfl

/-- The working areas as `cgr_yen` leaves them to a search: the start of the root contact
counts as visited, and no contact but the root suppresses next hops. The arrival time, the
visited nodes and the suppressed next hops of the root and the suppressed contacts are
arbitrary. -/
structure Prepared (g : Contacts n) (root : Ref n) (w : WorkArea n) : Prop where
  back : (g.contact root).frm = (g.contact root).toNode ∨
    (g.contact root).frm ∈ (w root).visitedNodes
  free : ∀ c, some c ≠ root → (w (some c)).suppressedNextHop = []

theorem Prepared.ready (h : Prepared g root w) : Ready g root (prepareSearch g root w) := by
  have hmem (node : Int) : node ∈ (prepareSearch g root w root).visitedNodes ↔
      node = (g.contact root).toNode ∨ node ∈ (w root).visitedNodes := by
    rw [prepareSearch, if_pos rfl]
    split
    next hin =>
      have hin := List.contains_iff_mem.mp hin
      exact ⟨.inr, fun hnode => hnode.elim (fun heq => heq ▸ hin) id⟩
    next => simp [or_comm]
  have hcleared (c : Fin n) (hc : some c ≠ root) :
      prepareSearch g root w (some c) = (w (some c)).clearDijkstraWorkingArea := by
    rw [prepareSearch, if_neg hc, if_neg (by simp)]
  refine ⟨(hmem _).mpr (.inl rfl), (hmem _).mpr h.back, fun c hc => ?_, fun c hc => ?_⟩
  · rw [hcleared c hc]
    exact ⟨rfl, rfl, rfl⟩
  · rw [hcleared c hc]
    exact h.free c hc

end Result
end LwipDtn.Cgr
