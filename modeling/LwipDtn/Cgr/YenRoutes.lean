import LwipDtn.Cgr.Yen

/-!
The list of routes that `cgr_yen` returns. Each route can be used by a packet that departs
now. The routes are not always different: a potential route that has not been chosen yet is
found again when a later route passes the place where it leaves. This needs four rounds, and
does not happen at all if the branches at the start of the routes are used up first.
-/

namespace LwipDtn.Cgr

variable {n : Nat} {g : Contacts n} {source destination : Int} {time : ℚ}

section Usable

/-- A packet that departs at the given time can travel over the contacts. -/
structure Usable (plan : Fin n → Contact) (source destination : Int) (time : ℚ)
    (hops : List (Fin n)) : Prop where
  nonempty : hops ≠ []
  starts : ∀ c, hops.head? = some c → (plan c).frm = source
  chained : hops.IsChain fun c d => (plan c).toNode = (plan d).frm
  ends : ∀ c, hops.getLast? = some c → (plan c).toNode = destination
  nodes : (source :: hops.map fun c => (plan c).toNode).Nodup
  boards : ∀ before c after, hops = before ++ c :: after →
    arrival plan time before < (plan c).stop

theorem Chain.usable {plan : Fin n → Contact} {p : List (Fin n)}
    (h : Chain plan source destination time p) : Usable plan source destination time p := by
  obtain ⟨htrip, hnode⟩ := h.feasible
  refine ⟨h.moves, fun c hc => ?_, htrip.chained, fun c hc => ?_, ?_, fun before c after hp => ?_⟩
  · cases p with
    | nil => cases hc
    | cons d p =>
        cases hc
        exact htrip.1.frm
  · obtain ⟨q, d, rfl⟩ := (List.eq_nil_or_concat' p).resolve_left h.moves
    rw [List.getLast?_concat] at hc
    cases hc
    rwa [after_node] at hnode
  · have hnodup := htrip.seen_nodup (List.nodup_singleton source)
    rwa [Stop.after_seen] at hnodup
  · rw [hp, trip_append] at htrip
    have htime := htrip.2.1.time
    rwa [Stop.after_time] at htime

/-- Every route that `cgr_yen` returns is usable, and it always returns. -/
theorem cgrYen_usable (plan : Fin n → Contact) (source destination : Int) (time : ℚ) (k : Nat)
    (causal : Causal plan) (hsource : Occurs plan source) (now : 0 ≤ time) :
    ∃ routes, cgrYen time source destination time plan k = .ok routes ∧
      ∀ route ∈ routes, ∃ hops : List (Fin n), route.hops = hops.map some ∧
        Usable plan source destination time hops := by
  obtain ⟨routes, words, hyen, hover, hcheapest, -⟩ := cgrYen_best causal hsource now destination k
  refine ⟨routes, hyen, fun route hroute => ?_⟩
  have hmem : route.hops ∈ words.map (List.map some) := by
    rw [← over_hops hover]
    exact List.mem_map_of_mem hroute
  obtain ⟨word, hword, hhops⟩ := List.mem_map.mp hmem
  exact ⟨word, hhops.symm, (hcheapest.words word hword).usable⟩

theorem cgrYen_usable_sample :
    ∃ routes, cgrYen 2 1 3 2 samplePlan 10 = .ok routes ∧
      ∀ route ∈ routes, ∃ hops : List (Fin 3), route.hops = hops.map some ∧
        Usable samplePlan 1 3 2 hops :=
  cgrYen_usable samplePlan 1 3 2 10 (by decide +kernel) ⟨0, .inl rfl⟩ (by decide)

end Usable

section Distinct

variable {routes routes' potential found others : List (Route n)} {last first best : Route n}
  {w : WorkArea n}

theorem spurs_nodup {p : List (Fin n)} (hp : p.Nodup) : p.inits.Nodup := by
  refine List.Nodup.of_map List.getLast? ?_
  rw [← spurs_eq]
  exact List.nodup_cons.mpr ⟨by simp, hp.map (Option.some_injective _)⟩

/-- The spur searches of a round keep the potential routes apart if none of them leaves
along the last route. -/
theorem YenState.spread (h : YenState g source destination time routes last potential w)
    (hspread : KBest.Spread (routes.map Route.word) (potential.map Route.word))
    (clear : ∀ b ∈ potential.map Route.word, ∀ π, π <+: last.word →
      ¬ KBest.Leaves (routes.map Route.word) π b)
    (hspurs : KBest.Spurs (Chain g.plan source destination time) (arrival g.plan time)
      (routes.map Route.word) last.word.dropLast.inits (found.map Route.word))
    (hperm : (potential ++ found).Perm (best :: others)) :
    KBest.Spread (routes.map Route.word) ((best :: others).map Route.word) := by
  have hchain := h.known.chains last h.mem
  have hnodup := spurs_nodup (hchain.feasible.1.nodup.sublist (List.dropLast_sublist _))
  have hboth := hspread.spurs hspurs hnodup fun b hb π hπ =>
    clear b hb π ((mem_proper_inits hchain.moves).mp hπ).1
  rw [← List.map_append] at hboth
  have hwords := hperm.map Route.word
  refine ⟨hboth.nodup, fun b hb => hboth.leaves b (hwords.mem_iff.mpr hb), ?_⟩
  exact hboth.apart_cons hwords

theorem yenLoop_nodup_one (call : YenCall g source time) {k : Nat} (hk : k ≤ 1)
    (h : YenState g source destination time routes last potential w)
    (hspread : KBest.Spread (routes.map Route.word) (potential.map Route.word))
    (hloop : yenLoop g destination k routes last potential w = .ok routes') :
    (routes'.map Route.word).Nodup := by
  cases k with
  | zero =>
      cases hloop
      exact hspread.nodup
  | succ k =>
      cases Nat.le_zero.mp (Nat.le_of_succ_le_succ hk)
      obtain ⟨hend, -⟩ | ⟨best, found, others, w', hnext, -, hperm, hspurs⟩ :=
        h.round call
      · rw [hend 0] at hloop
        cases hloop
        exact hspread.nodup
      · rw [hnext 0] at hloop
        cases hloop
        rw [List.map_append]
        refine KBest.nodup_choose hspread.nodup ?_
        have hbest : best ∈ potential ++ found := hperm.mem_iff.mpr (by simp)
        rcases List.mem_append.mp hbest with hbest | hbest
        · obtain ⟨π, hleaves⟩ := hspread.leaves best.word (List.mem_map_of_mem hbest)
          exact hleaves.not_chosen
        · exact hspurs.new best.word (List.mem_map_of_mem hbest)

/-- The first two rounds do not choose a route again: the potential routes of the first
round leave the first route at different places. -/
theorem yenLoop_nodup_two (call : YenCall g source time) {k : Nat} (hk : k ≤ 2)
    (h : YenState g source destination time [first] first [] w)
    (hloop : yenLoop g destination k [first] first [] w = .ok routes') :
    (routes'.map Route.word).Nodup := by
  have hspread : KBest.Spread ([first].map Route.word) (([] : List (Route n)).map Route.word) :=
    KBest.spread_start first.word
  cases k with
  | zero =>
      cases hloop
      exact hspread.nodup
  | succ k =>
      obtain ⟨hend, -⟩ | ⟨best, found, others, w', hnext, h', hperm, hspurs⟩ :=
        h.round call
      · rw [hend k] at hloop
        cases hloop
        exact hspread.nodup
      · rw [hnext k] at hloop
        refine yenLoop_nodup_one call (Nat.le_of_succ_le_succ hk) h' ?_ hloop
        rw [List.map_append]
        exact (h.spread hspread nofun hspurs hperm).choose (List.Perm.refl _)

theorem yenLoop_nodup (call : YenCall g source time)
    (breadthFirst : KBest.BreadthFirst (Chain g.plan source destination time)
      (arrival g.plan time)) (k : Nat)
    (h : YenState g source destination time routes last potential w)
    (hspread : KBest.Spread (routes.map Route.word) (potential.map Route.word))
    (clear : ∀ b ∈ potential.map Route.word, ∀ π, π <+: last.word →
      ¬ KBest.Leaves (routes.map Route.word) π b)
    (hloop : yenLoop g destination k routes last potential w = .ok routes') :
    (routes'.map Route.word).Nodup := by
  induction k generalizing routes last potential w with
  | zero =>
      cases hloop
      exact hspread.nodup
  | succ k ih =>
      obtain ⟨hend, -⟩ | ⟨best, found, others, w', hnext, h', hperm, hspurs⟩ :=
        h.round call
      · rw [hend k] at hloop
        cases hloop
        exact hspread.nodup
      · rw [hnext k] at hloop
        have hspread' := h.spread hspread clear hspurs hperm
        have hcheapest := h'.ranked.toCheapest
        rw [List.map_append] at hcheapest
        refine ih h' ?_ (fun b hb π hπ => ?_) hloop
        · rw [List.map_append]
          exact hspread'.choose (List.Perm.refl _)
        · rw [List.map_append]
          refine hspread'.clear breadthFirst (fun c hc => ?_) (List.Perm.refl _) hcheapest hb hπ
          rcases List.mem_cons.mp hc with rfl | hc
          · exact hcheapest.words best.word (by simp)
          · exact h'.ranked.sound c hc

theorem cgrYen_nodup_of_loop {plan : Fin n → Contact} (causal : Causal plan)
    (hsource : Occurs plan source) (now : 0 ≤ time) {k : Nat}
    (hloop : ∀ first w routes,
      YenState (yenContacts time source plan) source destination time [first] first [] w →
      yenLoop (yenContacts time source plan) destination (k - 1) [first] first [] w = .ok routes →
      (routes.map Route.word).Nodup) :
    ∃ routes, cgrYen time source destination time plan k = .ok routes ∧
      (routes.map Route.hops).Nodup := by
  obtain ⟨hyen, -⟩ | ⟨first, w, h, hyen⟩ := cgrYen_first causal hsource time destination
  · exact ⟨[], hyen k, .nil⟩
  · obtain ⟨routes, hroutes, hselected, -⟩ :=
      yenLoop_best (yenContacts_call causal hsource now) (k - 1) h
    obtain ⟨routes', hroutes', hover⟩ := hselected.refresh
    refine ⟨routes', ?_, ?_⟩
    · rw [hyen, hroutes]
      exact hroutes'
    · rw [over_hops hover]
      exact (hloop first w routes h hroutes).map
        (List.map_injective_iff.mpr (Option.some_injective _))

end Distinct

section More

variable {routes routes₁ routes₂ potential : List (Route n)} {last : Route n} {w : WorkArea n}

theorem yenLoop_keeps (call : YenCall g source time) (k : Nat)
    (h : YenState g source destination time routes last potential w)
    (hloop : yenLoop g destination k routes last potential w = .ok routes₁) :
    routes <+: routes₁ := by
  induction k generalizing routes last potential w with
  | zero =>
      cases hloop
      exact List.prefix_refl _
  | succ k ih =>
      obtain ⟨hend, -⟩ | ⟨best, found, others, w', hnext, h', -⟩ := h.round call
      · rw [hend k] at hloop
        cases hloop
        exact List.prefix_refl _
      · rw [hnext k] at hloop
        exact (List.prefix_append _ _).trans (ih h' hloop)

theorem yenLoop_extends (call : YenCall g source time) {k₁ k₂ : Nat} (hk : k₁ ≤ k₂)
    (h : YenState g source destination time routes last potential w)
    (hloop₁ : yenLoop g destination k₁ routes last potential w = .ok routes₁)
    (hloop₂ : yenLoop g destination k₂ routes last potential w = .ok routes₂) :
    routes₁ <+: routes₂ := by
  induction k₁ generalizing k₂ routes last potential w with
  | zero =>
      cases hloop₁
      exact yenLoop_keeps call k₂ h hloop₂
  | succ k₁ ih =>
      obtain ⟨k₂, rfl⟩ := Nat.exists_eq_add_of_le' (Nat.lt_of_lt_of_le (Nat.succ_pos k₁) hk)
      obtain ⟨hend, -⟩ | ⟨best, found, others, w', hnext, h', -⟩ := h.round call
      · rw [hend k₁] at hloop₁
        rw [hend k₂] at hloop₂
        cases hloop₁
        cases hloop₂
        exact List.prefix_refl _
      · rw [hnext k₁] at hloop₁
        rw [hnext k₂] at hloop₂
        exact ih (Nat.le_of_succ_le_succ hk) h' hloop₁ hloop₂

theorem cgrYen_extends {plan : Fin n → Contact} (causal : Causal plan)
    (hsource : Occurs plan source) (now : 0 ≤ time) {k₁ k₂ : Nat} (hk : k₁ ≤ k₂)
    (hyen₁ : cgrYen time source destination time plan k₁ = .ok routes₁)
    (hyen₂ : cgrYen time source destination time plan k₂ = .ok routes₂) :
    routes₁ <+: routes₂ := by
  obtain ⟨hnone, -⟩ | ⟨first, w, h, hyen⟩ := cgrYen_first causal hsource time destination
  · rw [hnone] at hyen₁ hyen₂
    cases hyen₁
    cases hyen₂
    exact List.prefix_refl _
  · have call := yenContacts_call causal hsource now
    obtain ⟨chosen₁, hchosen₁, -⟩ := yenLoop_best call (k₁ - 1) h
    obtain ⟨chosen₂, hchosen₂, -⟩ := yenLoop_best call (k₂ - 1) h
    rw [hyen, hchosen₁] at hyen₁
    rw [hyen, hchosen₂] at hyen₂
    obtain ⟨rest, rfl⟩ := yenLoop_extends call (Nat.sub_le_sub_right hk 1) h
      hchosen₁ hchosen₂
    change List.mapM _ _ = _ at hyen₁ hyen₂
    rw [List.mapM_append, hyen₁] at hyen₂
    revert hyen₂
    cases List.mapM (fun route => refreshMetrics (yenContacts time source plan) route.hops.tail
      route.visited) rest with
    | error e => nofun
    | ok added =>
        intro hyen₂
        cases hyen₂
        exact List.prefix_append _ _

end More

section Result

theorem hops_of_map {x : Py (List (Route n))} {hops : List (List (Ref n))}
    (h : x.map (List.map Route.hops) = .ok hops) :
    ∃ routes, x = .ok routes ∧ routes.map Route.hops = hops := by
  cases x with
  | error e => cases h
  | ok routes => exact ⟨routes, rfl, Except.ok.inj h⟩

/-- Two hops over node 2 in two ways, and a direct contact that arrives last. -/
def detourPlan : Fin 4 → Contact := ![⟨1, 2, 0, 10, 1, 1, 1⟩, ⟨2, 3, 0, 10, 1, 1, 1⟩,
  ⟨2, 3, 5, 20, 1, 1, 1⟩, ⟨1, 3, 10, 20, 1, 1, 1⟩]

/-- The direct contact is a potential route of the first round. The second route starts like
the first one, so that the direct contact is found again, and both copies are chosen. -/
theorem detourPlan_hops : (cgrYen 0 1 3 0 detourPlan 4).map (List.map Route.hops) =
    .ok [[some 0, some 1], [some 0, some 2], [some 3], [some 3]] := by
  decide +kernel

/-- `cgr_yen` returns different routes for every plan exactly if it is asked for at most
three. For more routes it does so if the chains of the plan are breadth-first: where two of
them go on together and a third one takes another contact, some chain over this contact
arrives before the later of the two. -/
theorem cgrYen_distinct_iff (k : Nat) :
    ((∀ (n : Nat) (plan : Fin n → Contact) (source destination : Int) (time : ℚ),
        Causal plan → Occurs plan source → 0 ≤ time →
        ∃ routes, cgrYen time source destination time plan k = .ok routes ∧
          (routes.map Route.hops).Nodup) ↔ k ≤ 3) ∧
      ∀ (n : Nat) (plan : Fin n → Contact) (source destination : Int) (time : ℚ),
        Causal plan → Occurs plan source → 0 ≤ time →
        KBest.BreadthFirst (Chain plan source destination time) (arrival plan time) →
        ∃ routes, cgrYen time source destination time plan k = .ok routes ∧
          (routes.map Route.hops).Nodup := by
  refine ⟨⟨fun hall => ?_, fun hk n plan source destination time causal hsource now => ?_⟩,
    fun n plan source destination time causal hsource now breadthFirst => ?_⟩
  · have causal : Causal detourPlan := by decide +kernel
    have hsource : Occurs detourPlan 1 := ⟨0, .inl rfl⟩
    obtain ⟨routes, hroutes, hnodup⟩ := hall 4 detourPlan 1 3 0 causal hsource (le_refl 0)
    obtain ⟨routes₄, hroutes₄, hhops⟩ := hops_of_map detourPlan_hops
    refine Nat.le_of_not_lt fun hk => ?_
    have hmore := cgrYen_extends causal hsource (le_refl 0) hk hroutes₄ hroutes
    have hfour := hnodup.sublist (hmore.map Route.hops).sublist
    rw [hhops] at hfour
    exact absurd hfour (by decide)
  · refine cgrYen_nodup_of_loop causal hsource now fun first w routes h hloop => ?_
    exact yenLoop_nodup_two (yenContacts_call causal hsource now)
      (by omega) h hloop
  · refine cgrYen_nodup_of_loop causal hsource now fun first w routes h hloop => ?_
    exact yenLoop_nodup (yenContacts_call causal hsource now) breadthFirst (k - 1) h
      (KBest.spread_start first.word) nofun hloop

theorem cgrYen_returns_route_twice :
    ∃ routes, cgrYen 0 1 3 0 detourPlan 10 = .ok routes ∧ ¬ (routes.map Route.hops).Nodup := by
  have h : (cgrYen 0 1 3 0 detourPlan 10).map (List.map Route.hops) =
      .ok [[some 0, some 1], [some 0, some 2], [some 3], [some 3]] := by
    decide +kernel
  obtain ⟨routes, hroutes, hhops⟩ := hops_of_map h
  exact ⟨routes, hroutes, by rw [hhops]; decide⟩

/-- The direct contact arrives before the second way over node 2. -/
def earlyPlan : Fin 4 → Contact := ![⟨1, 2, 0, 10, 1, 1, 1⟩, ⟨2, 3, 0, 10, 1, 1, 1⟩,
  ⟨2, 3, 5, 20, 1, 1, 1⟩, ⟨1, 3, 2, 20, 1, 1, 1⟩]

theorem earlyPlan_chains {p : List (Fin 4)} (hp : Chain earlyPlan 1 3 0 p) :
    p = [0, 1] ∨ p = [3] ∨ p = [0, 2] := by
  have h : (cgrYen 0 1 3 0 earlyPlan 10).map (List.map Route.hops) =
      .ok ([[0, 1], [3], [0, 2]].map (List.map some)) := by
    decide +kernel
  obtain ⟨routes, hroutes, hhops⟩ := hops_of_map h
  obtain ⟨routes', words, hroutes', hover, -, -, hall⟩ :=
    @cgrYen_best 4 1 0 earlyPlan (by decide +kernel) ⟨0, .inl rfl⟩ (le_refl 0) 3 10
  cases hroutes.symm.trans hroutes'
  rw [over_hops hover] at hhops
  have hwords := List.map_injective_iff.mpr
    (List.map_injective_iff.mpr (Option.some_injective _)) hhops
  subst hwords
  simpa using hall (by decide) p hp

theorem earlyPlan_breadthFirst :
    KBest.BreadthFirst (Chain earlyPlan 1 3 0) (arrival earlyPlan 0) := by
  intro π x y p q r hp hq hr hne hpy hqy hrx hxy
  have hlate : arrival earlyPlan 0 [3] < arrival earlyPlan 0 [0, 2] := by decide +kernel
  -- Only the two ways over node 2 go on together, and only from the source.
  have hshared : π = [] ∧ y = 0 ∧ (p = [0, 2] ∨ q = [0, 2]) := by
    rcases earlyPlan_chains hp with rfl | rfl | rfl <;>
      rcases earlyPlan_chains hq with rfl | rfl | rfl <;>
      rcases π with _ | ⟨a, _ | ⟨b, π⟩⟩ <;> simp_all [List.cons_prefix_cons]
  obtain ⟨rfl, rfl, hpq⟩ := hshared
  have hdirect : r = [3] := by
    rcases earlyPlan_chains hr with rfl | rfl | rfl <;> simp_all [List.cons_prefix_cons]
  subst hdirect
  refine ⟨[3], hr, hrx, lt_max_iff.mpr ?_⟩
  rcases hpq with rfl | rfl
  · exact .inl hlate
  · exact .inr hlate

theorem cgrYen_distinct_early :
    ∃ routes, cgrYen 0 1 3 0 earlyPlan 10 = .ok routes ∧ (routes.map Route.hops).Nodup :=
  (cgrYen_distinct_iff 10).2 4 earlyPlan 1 3 0 (by decide +kernel) ⟨0, .inl rfl⟩ (le_refl 0)
    earlyPlan_breadthFirst

end Result
end LwipDtn.Cgr
