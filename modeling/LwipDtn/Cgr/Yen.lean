import LwipDtn.Cgr.Spur
import Mathlib.Data.Fintype.List
import Mathlib.Data.Prod.Lex

/-!
`cgr_yen` returns a set of best routes. Every round closes the branches along the last
route with spur searches and then takes the best potential route.
-/

namespace LwipDtn.Cgr

variable {n : Nat} {g : Contacts n} {source destination : Int} {time : ℚ}

section Order

theorem Route.lt_iff {r o : Route n} : r.lt o = true ↔
    r.bestDeliveryTime < o.bestDeliveryTime ∨ r.bestDeliveryTime = o.bestDeliveryTime ∧
      (o.volume < r.volume ∨ r.volume = o.volume ∧ o.confidence ≤ r.confidence) := by
  simp [Route.lt]

theorem Route.lt_total (r o : Route n) : r.lt o = true ∨ o.lt r = true := by
  rw [Route.lt_iff, Route.lt_iff]
  rcases lt_trichotomy r.bestDeliveryTime o.bestDeliveryTime with h | h | h
  · exact .inl (.inl h)
  · rcases lt_trichotomy r.volume o.volume with hv | hv | hv
    · exact .inr (.inr ⟨h.symm, .inl hv⟩)
    · rcases le_total o.confidence r.confidence with hc | hc
      · exact .inl (.inr ⟨h, .inr ⟨hv, hc⟩⟩)
      · exact .inr (.inr ⟨h.symm, .inr ⟨hv.symm, hc⟩⟩)
    · exact .inl (.inr ⟨h, .inl hv⟩)
  · exact .inr (.inl h)

theorem Route.lt_trans (a b c : Route n) (hab : a.lt b = true) (hbc : b.lt c = true) :
    a.lt c = true := by
  rw [Route.lt_iff] at *
  rcases hab with hab | ⟨hab, hab'⟩
  · rcases hbc with hbc | ⟨hbc, -⟩
    · exact .inl (hab.trans hbc)
    · exact .inl (hbc ▸ hab)
  · rcases hbc with hbc | ⟨hbc, hbc'⟩
    · exact .inl (hab ▸ hbc)
    · refine .inr ⟨hab.trans hbc, ?_⟩
      rcases hab' with hab' | ⟨hab', hconf⟩
      · rcases hbc' with hbc' | ⟨hbc', -⟩
        · exact .inl (hbc'.trans hab')
        · exact .inl (hbc' ▸ hab')
      · rcases hbc' with hbc' | ⟨hbc', hconf'⟩
        · exact .inl (hab' ▸ hbc')
        · exact .inr ⟨hab'.trans hbc', hconf'.trans hconf⟩

theorem Route.lt_le {r o : Route n} (h : r.lt o = true) :
    r.bestDeliveryTime ≤ o.bestDeliveryTime := by
  rcases Route.lt_iff.mp h with h | ⟨h, -⟩
  · exact le_of_lt h
  · exact le_of_eq h

end Order

section Round

variable {routes potential : List (Route n)} {last : Route n} {w : WorkArea n}

/-- The state between two rounds. -/
structure YenState (g : Contacts n) (source destination : Int) (time : ℚ)
    (routes : List (Route n)) (last : Route n) (potential : List (Route n)) (w : WorkArea n) :
    Prop where
  known : Known g source destination time routes w
  mem : last ∈ routes
  ranked : KBest.Ranked (Chain g.plan source destination time) (arrival g.plan time)
    (· <+: last.word) (routes.map Route.word) (potential.map Route.word)
  timed : ∀ r ∈ potential, r.Timed g time

/-- The spur contacts of a route are the ends of its proper prefixes. -/
theorem spurs_eq (p : List (Fin n)) :
    (none :: p.map some : List (Ref n)) = p.inits.map List.getLast? := by
  induction p using List.reverseRecOn with
  | nil => rfl
  | append_singleton p c ih =>
      rw [List.inits_append]
      simp [← ih]

theorem spurs_dropLast {p : List (Fin n)} (moves : p ≠ []) :
    (none :: p.map some : List (Ref n)).dropLast = p.dropLast.inits.map List.getLast? := by
  rw [← spurs_eq, List.dropLast_cons_of_ne_nil (by simpa using moves), List.map_dropLast]

theorem spurSearches_finds (call : YenCall g source time) (hlast : last ∈ routes)
    (prefixes : List (List (Fin n)))
    (hprefixes : ∀ π ∈ prefixes, π <+: last.word ∧ π ≠ last.word)
    (known : Known g source destination time routes w) (potential : List (Route n)) :
    ∃ found w', spurSearches g destination routes last (prefixes.map List.getLast?) potential w =
        .ok (potential ++ found, w') ∧
      KBest.Spurs (Chain g.plan source destination time) (arrival g.plan time)
        (routes.map Route.word) prefixes (found.map Route.word) ∧
      (∀ r ∈ found, r.Timed g time) ∧ Known g source destination time routes w' := by
  induction prefixes generalizing potential w with
  | nil => exact ⟨[], w, by simp [spurSearches], .nil, nofun, known⟩
  | cons π prefixes ih =>
      obtain ⟨hπ, hne⟩ := hprefixes π (by simp)
      obtain ⟨new, w₁, hnew, hfinds, htimed, known₁⟩ :=
        spurSearch_finds call known hlast hπ hne
      obtain ⟨found, w₂, hfound, hspurs, htimed', known₂⟩ :=
        ih (fun π' hπ' => hprefixes π' (by simp [hπ'])) known₁ (potential ++ new.toList)
      refine ⟨new.toList ++ found, w₂, ?_, ?_, fun r hr => ?_, known₂⟩
      · rw [List.map_cons, spurSearches, hnew, ← List.append_assoc]
        exact hfound
      · have := hspurs.cons hfinds
        rwa [Option.toList_map, ← List.map_append] at this
      · rcases List.mem_append.mp hr with hr | hr
        · exact htimed r (by simpa using hr)
        · exact htimed' r hr

theorem mem_proper_inits {p π : List (Fin n)} (moves : p ≠ []) :
    π ∈ p.dropLast.inits ↔ π <+: p ∧ π ≠ p := by
  obtain ⟨q, c, rfl⟩ := (List.eq_nil_or_concat' p).resolve_left moves
  rw [List.mem_inits, List.dropLast_concat, List.prefix_concat_iff]
  refine ⟨fun hπ => ⟨.inr hπ, fun h => ?_⟩, fun hπ => hπ.1.resolve_left hπ.2⟩
  have hlen := hπ.length_le
  rw [h, List.length_append, List.length_singleton] at hlen
  omega

/-- After the spur searches of a round every branch has a potential route. -/
theorem YenState.spurs (call : YenCall g source time)
    (h : YenState g source destination time routes last potential w) :
    ∃ found w', spurSearches g destination routes last last.hops.dropLast potential w =
        .ok (potential ++ found, w') ∧
      KBest.Ranked (Chain g.plan source destination time) (arrival g.plan time) (fun _ => False)
        (routes.map Route.word) ((potential ++ found).map Route.word) ∧
      (∀ r ∈ potential ++ found, r.Timed g time) ∧
      Known g source destination time routes w' ∧
      KBest.Spurs (Chain g.plan source destination time) (arrival g.plan time)
        (routes.map Route.word) last.word.dropLast.inits (found.map Route.word) := by
  have hchain := h.known.chains last h.mem
  have hproper (π : List (Fin n)) := @mem_proper_inits n last.word π hchain.moves
  obtain ⟨found, w', hfound, hspurs, htimed, hknown⟩ := spurSearches_finds call h.mem
    last.word.dropLast.inits (fun π hπ => (hproper π).mp hπ) h.known potential
  rw [← spurs_dropLast hchain.moves, ← h.known.rooted last h.mem] at hfound
  refine ⟨found, w', hfound, ?_, fun r hr => ?_, hknown, hspurs⟩
  · rw [List.map_append]
    exact h.ranked.spurs (chain_prefixFree g.plan) hchain hspurs
      fun π hπ hne => (hproper π).mpr ⟨hπ, hne⟩
  · rcases List.mem_append.mp hr with hr | hr
    · exact h.timed r hr
    · exact htimed r hr

theorem yenState_choose {others : List (Route n)} {best : Route n}
    (known : Known g source destination time routes w)
    (ranked : KBest.Ranked (Chain g.plan source destination time) (arrival g.plan time)
      (fun _ => False) (routes.map Route.word) (potential.map Route.word))
    (timed : ∀ r ∈ potential, r.Timed g time)
    (hsort : PySort.sort Route.lt potential = best :: others) :
    YenState g source destination time (routes ++ [best]) best others w := by
  have hperm : potential.Perm (best :: others) := hsort ▸ (PySort.sort_perm potential).symm
  have hbest : best ∈ potential := hperm.mem_iff.mpr (by simp)
  have htimed {r : Route n} (hr : r ∈ others) : r.Timed g time :=
    timed r (hperm.mem_iff.mpr (by simp [hr]))
  have hpairwise := PySort.sort_pairwise Route.lt_total Route.lt_trans potential
  rw [hsort, List.pairwise_cons] at hpairwise
  have hranked := ranked.choose (chain_prefixFree g.plan) (hperm.map Route.word) fun b hb => by
    obtain ⟨r, hr, rfl⟩ := List.mem_map.mp hb
    rw [← (timed best hbest).2, ← (htimed hr).2]
    exact Route.lt_le (hpairwise.1 r hr)
  refine ⟨⟨?_, ?_, ?_⟩, by simp, by simpa using hranked, fun r hr => htimed hr⟩
  · intro r hr
    rcases List.mem_append.mp hr with hr | hr
    · exact known.rooted r hr
    · cases List.mem_singleton.mp hr
      exact (timed best hbest).1
  · intro r hr
    exact hranked.words r.word (by simpa using List.mem_map_of_mem (f := Route.word) hr)
  · intro hop hhop
    obtain ⟨r, hr, hprefix⟩ := known.memory hop hhop
    exact ⟨r, List.mem_append_left _ hr, hprefix⟩

end Round

section Loop

variable {routes potential : List (Route n)} {last : Route n} {w : WorkArea n}

structure Selected (g : Contacts n) (source destination : Int) (time : ℚ)
    (routes : List (Route n)) : Prop where
  rooted : ∀ r ∈ routes, r.Rooted
  cheapest : KBest.Cheapest (Chain g.plan source destination time) (arrival g.plan time)
    (routes.map Route.word)

theorem YenState.selected (h : YenState g source destination time routes last potential w) :
    Selected g source destination time routes := ⟨h.known.rooted, h.ranked.toCheapest⟩

/-- What a round does: it ends with all routes known, or goes on with one more route. -/
theorem YenState.round (call : YenCall g source time)
    (h : YenState g source destination time routes last potential w) :
    (∀ k, yenLoop g destination (k + 1) routes last potential w = .ok routes) ∧
        (∀ p, Chain g.plan source destination time p → p ∈ routes.map Route.word) ∨
      ∃ best found others w',
        (∀ k, yenLoop g destination (k + 1) routes last potential w =
          yenLoop g destination k (routes ++ [best]) best others w') ∧
        YenState g source destination time (routes ++ [best]) best others w' ∧
        (potential ++ found).Perm (best :: others) ∧
        KBest.Spurs (Chain g.plan source destination time) (arrival g.plan time)
          (routes.map Route.word) last.word.dropLast.inits (found.map Route.word) := by
  obtain ⟨found, w', hfound, hranked, htimed, hknown, hspurs⟩ := h.spurs call
  cases hsort : PySort.sort Route.lt (potential ++ found) with
  | nil =>
      have hnil : potential ++ found = [] := by
        have := @PySort.sort_perm _ Route.lt (potential ++ found)
        rw [hsort] at this
        exact this.nil_eq.symm
      rw [hnil] at hranked
      refine .inl ⟨fun k => ?_, fun p hp => hranked.exhausted (chain_prefixFree g.plan) hp⟩
      rw [yenLoop, hfound]
      simp only [bind, Except.bind, hsort]
      rfl
  | cons best others =>
      refine .inr ⟨best, found, others, w', fun k => ?_,
        yenState_choose hknown hranked htimed hsort, ?_, hspurs⟩
      · rw [yenLoop, hfound]
        simp only [bind, Except.bind, hsort]
      · rw [← hsort]
        exact (PySort.sort_perm _).symm

theorem yenLoop_best (call : YenCall g source time) (k : Nat)
    (h : YenState g source destination time routes last potential w) :
    ∃ routes', yenLoop g destination k routes last potential w = .ok routes' ∧
      Selected g source destination time routes' ∧ routes'.length ≤ routes.length + k ∧
      (routes'.length < routes.length + k →
        ∀ p, Chain g.plan source destination time p → p ∈ routes'.map Route.word) := by
  induction k generalizing routes last potential w with
  | zero => exact ⟨routes, rfl, h.selected, le_refl _, fun hlt => absurd hlt (lt_irrefl _)⟩
  | succ k ih =>
      obtain ⟨hloop, hall⟩ | ⟨best, found, others, w', hloop, h', -, -⟩ := h.round call
      · exact ⟨routes, hloop k, h.selected, Nat.le_add_right _ _, fun _ => hall⟩
      · obtain ⟨routes', hroutes', hselected, hlen, hall⟩ := ih h'
        rw [List.length_append, List.length_singleton, Nat.add_right_comm] at hlen hall
        exact ⟨routes', (hloop k).trans hroutes', hselected, hlen, hall⟩

theorem exists_all_chains (plan : Fin n → Contact) (source destination : Int) (time : ℚ) :
    ∃ all : Finset (List (Fin n)), ∀ p, Chain plan source destination time p → p ∈ all := by
  refine ⟨Finset.univ.image (Subtype.val : {l : List (Fin n) // l.Nodup} → List (Fin n)),
    fun p hp => Finset.mem_image.mpr ⟨⟨p, hp.feasible.1.nodup⟩, Finset.mem_univ _, rfl⟩⟩

theorem yenLoop_exhausts (call : YenCall g source time)
    (h : YenState g source destination time routes last potential w) :
    ∃ k routes', yenLoop g destination k routes last potential w = .ok routes' ∧
      Selected g source destination time routes' ∧
      ∀ p, Chain g.plan source destination time p → p ∈ routes'.map Route.word := by
  obtain ⟨all, hall⟩ := exists_all_chains g.plan source destination time
  induction hm : toLex (KBest.remaining all (routes.map Route.word),
      KBest.repeated (routes.map Route.word) (potential.map Route.word))
    using WellFoundedLT.induction generalizing routes last potential w with
  | ind m ih =>
      obtain ⟨hloop, hdone⟩ | ⟨best, found, others, w', hloop, h', hperm, hspurs⟩ :=
        h.round call
      · exact ⟨1, routes, hloop 0, h.selected, hdone⟩
      · have hperm := hperm.map Route.word
        rw [List.map_append, List.map_cons] at hperm
        have hless :=
          KBest.progress hperm hspurs.new (hall best.word (h'.known.chains best (by simp)))
        rw [← List.map_singleton, ← List.map_append] at hless
        obtain ⟨k, routes', hroutes', hrest⟩ :=
          ih _ (hm ▸ Prod.Lex.toLex_lt_toLex.mpr hless) h' rfl
        exact ⟨k + 1, routes', (hloop k).trans hroutes', hrest⟩

end Loop

section Result

variable {plan : Fin n → Contact}

theorem yenContacts_call (causal : Causal plan) (hsource : Occurs plan source) (now : 0 ≤ time) :
    YenCall (yenContacts time source plan) source time :=
  ⟨⟨rfl, rfl, by simp [yenContacts, Contact.new], rfl, now⟩, causal, hsource⟩

theorem first_ready (plan : Fin n → Contact) (source : Int) (time : ℚ) :
    let g := yenContacts time source plan
    let w := prepareSearch g none (yenWork time)
    Ready g none w ∧ searchStart g none w = departure source time ∧
      (w none).suppressedNextHop = [] ∧ ∀ c, (w (some c)).suppressed = false := by
  have prepared : Prepared (yenContacts time source plan) none (yenWork time) :=
    ⟨.inl rfl, fun c _ => rfl⟩
  exact ⟨prepared.ready, rfl, rfl, fun c => rfl⟩

theorem cgrYen_first (causal : Causal plan) (hsource : Occurs plan source) (time : ℚ)
    (destination : Int) :
    (∀ k, cgrYen time source destination time plan k = .ok []) ∧
        (∀ p, ¬ Chain plan source destination time p) ∨
      ∃ first w,
        YenState (yenContacts time source plan) source destination time [first] first [] w ∧
        ∀ k, cgrYen time source destination time plan k = (do
          let routes ← yenLoop (yenContacts time source plan) destination (k - 1) [first] first [] w
          routes.mapM fun route =>
            refreshMetrics (yenContacts time source plan) route.hops.tail route.visited) := by
  obtain ⟨ready, start, hallows, hfree⟩ := first_ready plan source time
  obtain ⟨found, w, hdijkstra, hfinds, hframe⟩ := @cgrDijkstra_finds n
    (yenContacts time source plan) none (yenWork time) destination causal ready hsource
  have hallowed {p : List (Fin n)} (hp : Chain plan source destination time p) :
      Allowed (yenContacts time source plan) none destination
        (prepareSearch (yenContacts time source plan) none (yenWork time)) p := by
    refine ⟨?_, hp.moves, ?_, fun c _ => hfree c, fun c _ => ?_⟩
    · rw [start]
      exact hp.feasible.1
    · rw [start]
      exact hp.feasible.2
    · rw [hallows]
      nofun
  have htime (p : List (Fin n)) : ((searchStart (yenContacts time source plan) none
      (prepareSearch (yenContacts time source plan) none (yenWork time))).after
        (yenContacts time source plan).plan p).time = arrival plan time p := by
    rw [start, Stop.after_time]
    rfl
  cases found with
  | none =>
      refine .inl ⟨fun k => ?_, fun p hp => ?_⟩
      · rw [cgrYen, hdijkstra]
        rfl
      · have hle := hfinds p (hallowed hp)
        rw [htime p] at hle
        exact absurd hp.bounded (not_lt.mpr hle)
  | some route =>
      obtain ⟨p, hp, hroute, hbound, hleast⟩ := hfinds
      rw [htime p] at hbound
      have hchain : Chain plan source destination time p := by
        obtain ⟨htrip, hmoves, hnode, -⟩ := hroute
        rw [start] at htrip hnode
        exact ⟨hmoves, ⟨htrip, hnode⟩, hbound⟩
      obtain ⟨hrooted, hword⟩ := @Route.rooted_of_hops n { route with hops := none :: route.hops } p
        (by rw [← hp])
      have hranked : KBest.Ranked (Chain plan source destination time) (arrival plan time)
          (· <+: p) [p] [] := by
        refine .start hchain fun q hq => ?_
        have hle := hleast q (hallowed hq)
        rwa [htime p, htime q] at hle
      refine .inr ⟨{ route with hops := none :: route.hops }, w, ⟨⟨?_, ?_, ?_⟩, by simp, ?_, nofun⟩,
        fun k => ?_⟩
      · intro r hr
        cases List.mem_singleton.mp hr
        exact hrooted
      · intro r hr
        cases List.mem_singleton.mp hr
        rw [hword]
        exact hchain
      · rw [hframe none, hallows]
        nofun
      · rw [List.map_singleton, hword]
        exact hranked
      · rw [cgrYen, hdijkstra]
        rfl

/-- The route has the metrics of the contacts `p`. -/
def Route.Over (g : Contacts n) (p : List (Fin n)) (r : Route n) : Prop :=
  refreshMetrics g (p.map some) r.visited = .ok r

theorem Route.Over.hops {p : List (Fin n)} {r : Route n} (h : r.Over g p) :
    r.hops = p.map some := by
  cases p with
  | nil => cases h
  | cons c p => exact (congrArg Route.hops (Except.ok.inj h)).symm

theorem Selected.refresh {routes : List (Route n)}
    (h : Selected g source destination time routes) :
    ∃ routes', (routes.mapM fun route => refreshMetrics g route.hops.tail route.visited) =
        .ok routes' ∧
      List.Forall₂ (Route.Over g) (routes.map Route.word) routes' := by
  have hchain (r : Route n) (hr : r ∈ routes) :=
    h.cheapest.words r.word (List.mem_map_of_mem hr)
  have hrooted := h.rooted
  clear h
  induction routes with
  | nil => exact ⟨[], rfl, .nil⟩
  | cons r routes ih =>
      obtain ⟨routes', hroutes', hover⟩ := ih (fun r' hr' => hchain r' (by simp [hr']))
        (fun r' hr' => hrooted r' (by simp [hr']))
      have hmoves := (hchain r (by simp)).moves
      have htail : r.hops.tail = r.word.map some := by
        rw [hrooted r (by simp)]
        rfl
      obtain ⟨r', hr', -, hvisited, -⟩ := @refreshMetrics_ok n g (r.word.map some)
        (by simpa using hmoves) r.visited
      refine ⟨r' :: routes', ?_, .cons ?_ hover⟩
      · rw [List.mapM_cons, htail, hr', hroutes']
        rfl
      · rw [Route.Over, hvisited]
        exact hr'

/-- `cgr_yen` returns the best chains. -/
theorem cgrYen_best (causal : Causal plan) (hsource : Occurs plan source) (now : 0 ≤ time)
    (destination : Int) (k : Nat) :
    ∃ routes words, cgrYen time source destination time plan k = .ok routes ∧
      List.Forall₂ (Route.Over (yenContacts time source plan)) words routes ∧
      KBest.Cheapest (Chain plan source destination time) (arrival plan time) words ∧
      words.length ≤ 1 + (k - 1) ∧
      (words.length < 1 + (k - 1) → ∀ p, Chain plan source destination time p → p ∈ words) := by
  obtain ⟨hyen, hnone⟩ | ⟨first, w, h, hyen⟩ := cgrYen_first causal hsource time destination
  · exact ⟨[], [], hyen k, .nil, ⟨nofun, .nil, nofun⟩, Nat.zero_le _,
      fun _ p hp => absurd hp (hnone p)⟩
  · obtain ⟨routes, hroutes, hselected, hlen, hall⟩ :=
      yenLoop_best (yenContacts_call causal hsource now) (k - 1) h
    obtain ⟨routes', hroutes', hover⟩ := hselected.refresh
    refine ⟨routes', routes.map Route.word, ?_, hover, hselected.cheapest, ?_, ?_⟩
    · rw [hyen, hroutes]
      exact hroutes'
    · rw [List.length_map]
      exact hlen
    · rw [List.length_map]
      exact hall

theorem cgrYen_exhausts (causal : Causal plan) (hsource : Occurs plan source) (now : 0 ≤ time)
    (destination : Int) :
    ∃ k routes words, cgrYen time source destination time plan k = .ok routes ∧
      List.Forall₂ (Route.Over (yenContacts time source plan)) words routes ∧
      KBest.Cheapest (Chain plan source destination time) (arrival plan time) words ∧
      ∀ p, Chain plan source destination time p → p ∈ words := by
  obtain ⟨hyen, hnone⟩ | ⟨first, w, h, hyen⟩ := cgrYen_first causal hsource time destination
  · exact ⟨0, [], [], hyen 0, .nil, ⟨nofun, .nil, nofun⟩, fun p hp => absurd hp (hnone p)⟩
  · obtain ⟨k, routes, hroutes, hselected, hall⟩ :=
      yenLoop_exhausts (yenContacts_call causal hsource now) h
    obtain ⟨routes', hroutes', hover⟩ := hselected.refresh
    refine ⟨k + 1, routes', routes.map Route.word, ?_, hover, hselected.cheapest, hall⟩
    rw [hyen, Nat.add_sub_cancel, hroutes]
    exact hroutes'

theorem over_hops {words : List (List (Fin n))} {routes : List (Route n)}
    (h : List.Forall₂ (Route.Over g) words routes) :
    routes.map Route.hops = words.map (List.map some) := by
  induction h with
  | nil => rfl
  | cons hover _ ih => rw [List.map_cons, List.map_cons, hover.hops, ih]

/-- For a plan in which no signal arrives before it is sent, a source that occurs in it
and arrivals below `sys.maxsize`, `cgr_yen` returns the `k` best feasible chains: they are
in the order of their arrivals, no other feasible chain arrives earlier than any of them,
and if there are fewer than `k` then they are all the feasible chains. -/
theorem cgrYen_returns_k_best (plan : Fin n → Contact) (source destination : Int) (time : ℚ)
    (k : Nat) (causal : Causal plan) (hsource : Occurs plan source) (hne : destination ≠ source)
    (hk : 1 ≤ k) (now : 0 ≤ time)
    (below : ∀ p, Feasible plan source destination time p → arrival plan time p < sysMaxsize) :
    ∃ (routes : List (Route n)) (chains : List (List (Fin n))),
      cgrYen time source destination time plan k = .ok routes ∧
      routes.map Route.hops = chains.map (List.map some) ∧
      (∀ p ∈ chains, Feasible plan source destination time p) ∧
      chains.Pairwise (arrival plan time · ≤ arrival plan time ·) ∧
      (∀ p, Feasible plan source destination time p → p ∉ chains →
        ∀ q ∈ chains, arrival plan time q ≤ arrival plan time p) ∧
      chains.length ≤ k ∧
      (chains.length < k → ∀ p, Feasible plan source destination time p → p ∈ chains) := by
  have hchain {p : List (Fin n)} (hp : Feasible plan source destination time p) :
      Chain plan source destination time p := by
    refine ⟨?_, hp, below p hp⟩
    rintro rfl
    exact hne hp.2.symm
  obtain ⟨routes, chains, hyen, hover, hcheapest, hlen, hall⟩ :=
    cgrYen_best causal hsource now destination k
  rw [Nat.add_sub_cancel' hk] at hlen hall
  exact ⟨routes, chains, hyen, over_hops hover, fun p hp => (hcheapest.words p hp).feasible,
    hcheapest.sorted, fun p hp hnew q hq => hcheapest.least q hq p (hchain hp) hnew, hlen,
    fun hlt p hp => hall hlt p (hchain hp)⟩

theorem cgrYen_returns_k_best_sample :
    ∃ (routes : List (Route 3)) (chains : List (List (Fin 3))),
      cgrYen 2 1 3 2 samplePlan 2 = .ok routes ∧
      routes.map Route.hops = chains.map (List.map some) ∧
      (∀ p ∈ chains, Feasible samplePlan 1 3 2 p) ∧
      chains.Pairwise (arrival samplePlan 2 · ≤ arrival samplePlan 2 ·) ∧
      (∀ p, Feasible samplePlan 1 3 2 p → p ∉ chains →
        ∀ q ∈ chains, arrival samplePlan 2 q ≤ arrival samplePlan 2 p) ∧
      chains.length ≤ 2 ∧
      (chains.length < 2 → ∀ p, Feasible samplePlan 1 3 2 p → p ∈ chains) := by
  refine cgrYen_returns_k_best samplePlan 1 3 2 2 ?_ ⟨0, .inl rfl⟩ (by decide) (by decide)
    (by decide) fun p hp => hp.arrival_lt (by decide) ?_ ?_
  · decide +kernel
  · decide +kernel
  · decide +kernel

end Result
end LwipDtn.Cgr
