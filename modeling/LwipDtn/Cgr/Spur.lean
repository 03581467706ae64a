import LwipDtn.Cgr.Dijkstra
import LwipDtn.Library.KBest
import Mathlib.Data.List.ReduceOption

/-!
One spur search of `cgr_yen`. The root path is a prefix of the last route, its contacts
are suppressed, and the next hops behind it that known routes take are forbidden. What
the search finds is the best deviation from the known routes behind that prefix.
-/

namespace LwipDtn.Cgr

variable {n : Nat} {g : Contacts n} {source destination : Int} {time : ℚ}

/-- A feasible chain that leads to another node before the end of time. -/
structure Chain (plan : Fin n → Contact) (source destination : Int) (time : ℚ) (p : List (Fin n)) :
    Prop where
  moves : p ≠ []
  feasible : Feasible plan source destination time p
  bounded : arrival plan time p < sysMaxsize

theorem chain_prefixFree (plan : Fin n → Contact) :
    KBest.PrefixFree (Chain plan source destination time) :=
  fun _ _ hp hpq => hp.feasible.prefix_free hpq.feasible

def Route.word (r : Route n) : List (Fin n) := r.hops.reduceOption

def Route.Rooted (r : Route n) : Prop := r.hops = none :: r.word.map some

theorem reduceOption_root (p : List (Fin n)) : (none :: p.map some).reduceOption = p := by
  simp [List.reduceOption]

theorem Route.rooted_of_hops {r : Route n} {p : List (Fin n)} (h : r.hops = none :: p.map some) :
    r.Rooted ∧ r.word = p := by
  have hword : r.word = p := by rw [Route.word, h, reduceOption_root]
  exact ⟨by rw [Route.Rooted, hword, h], hword⟩

theorem map_some_prefix {p q : List (Fin n)} :
    none :: p.map some <+: none :: q.map some ↔ p <+: q := by
  rw [List.cons_prefix_cons]
  simp [List.prefix_map_iff_of_injective (Option.some_injective _)]

section Areas

variable {w : WorkArea n}

theorem suppress_eq (hops : List (Ref n)) (w : WorkArea n) (x : Ref n) :
    suppress hops w x = { w x with suppressed := (w x).suppressed || decide (x ∈ hops) } := by
  induction hops generalizing w with
  | nil => simp [suppress]
  | cons h hops ih =>
      rw [suppress, List.foldl_cons]
      refine (ih (w.set h { w h with suppressed := true })).trans ?_
      by_cases hx : x = h
      · subst hx
        simp [WorkArea.set]
      · simp [WorkArea.set, hx]

theorem next_hop {rootPath hops : List (Ref n)} (h : rootPath <+: hops) {hop : Ref n} :
    hops[rootPath.length]? = some hop ↔ rootPath ++ [hop] <+: hops := by
  obtain ⟨rest, rfl⟩ := h
  cases rest with
  | nil =>
      have hlong : ¬ rootPath ++ [hop] <+: rootPath := fun h => by
        have := h.length_le
        simp at this
      simp [hlong]
  | cons x rest => simp [List.prefix_append_right_inj, List.cons_prefix_cons, eq_comm]

theorem suppressNextHops_cons {rootPath : List (Ref n)} {r : Route n} (spur : Ref n)
    (routes : List (Route n)) (w : WorkArea n)
    (longer : rootPath <+: r.hops → rootPath ≠ r.hops) :
    ∃ w', suppressNextHops rootPath spur (r :: routes) w =
        suppressNextHops rootPath spur routes w' ∧
      (∀ x, x ≠ spur → w' x = w x) ∧ (w' spur).suppressed = (w spur).suppressed ∧
      ∀ hop, hop ∈ (w' spur).suppressedNextHop ↔
        hop ∈ (w spur).suppressedNextHop ∨ rootPath ++ [hop] <+: r.hops := by
  by_cases hr : rootPath <+: r.hops
  case neg =>
    refine ⟨w, ?_, fun _ _ => rfl, rfl, fun hop => ?_⟩
    · rw [suppressNextHops, if_neg fun h => hr (List.prefix_iff_eq_take.mpr h)]
    · have hno : ¬ rootPath ++ [hop] <+: r.hops := fun h => hr ((List.prefix_append _ _).trans h)
      simp [hno]
  have hlen : rootPath.length < r.hops.length :=
    lt_of_le_of_ne hr.length_le fun h => longer hr (hr.eq_of_length h)
  obtain ⟨hop, hhop⟩ : ∃ hop, r.hops[rootPath.length]? = some hop :=
    ⟨_, List.getElem?_eq_getElem hlen⟩
  have hnext {x : Ref n} : rootPath ++ [x] <+: r.hops ↔ x = hop := by
    rw [← next_hop hr, hhop]
    simp [eq_comm]
  rw [suppressNextHops, if_pos (List.prefix_iff_eq_take.mp hr), hhop]
  simp only [hnext]
  by_cases hknown : hop ∈ (w spur).suppressedNextHop
  · refine ⟨w, by simp [hknown], fun _ _ => rfl, rfl, fun x => ⟨.inl, ?_⟩⟩
    rintro (h | rfl)
    · exact h
    · exact hknown
  · refine ⟨w.set spur { w spur with suppressedNextHop := (w spur).suppressedNextHop ++ [hop] },
      by simp [hknown], fun x hx => ?_, ?_, fun x => ?_⟩
    · simp [WorkArea.set, hx]
    · simp [WorkArea.set]
    · simp [WorkArea.set]

theorem suppressNextHops_ok (rootPath : List (Ref n)) (spur : Ref n) (routes : List (Route n))
    (w : WorkArea n)
    (longer : ∀ r ∈ routes, rootPath <+: r.hops → rootPath ≠ r.hops) :
    ∃ w', suppressNextHops rootPath spur routes w = .ok w' ∧ (∀ x, x ≠ spur → w' x = w x) ∧
      (w' spur).suppressed = (w spur).suppressed ∧
      ∀ hop, hop ∈ (w' spur).suppressedNextHop ↔
        hop ∈ (w spur).suppressedNextHop ∨ ∃ r ∈ routes, rootPath ++ [hop] <+: r.hops := by
  induction routes generalizing w with
  | nil => exact ⟨w, rfl, fun _ _ => rfl, rfl, by simp⟩
  | cons r routes ih =>
      obtain ⟨w₁, hstep, hother₁, hsup₁, hmem₁⟩ := suppressNextHops_cons spur routes w
        (longer r List.mem_cons_self)
      obtain ⟨w', hw', hother, hsup, hmem⟩ := ih w₁ fun r' hr' =>
        longer r' (List.mem_cons_of_mem _ hr')
      refine ⟨w', hstep.trans hw', fun x hx => (hother x hx).trans (hother₁ x hx),
        hsup.trans hsup₁, fun hop => ?_⟩
      rw [hmem, hmem₁, or_assoc]
      simp only [List.mem_cons, exists_eq_or_imp]

end Areas

section Prepared

variable {w : WorkArea n} {rootPath : Route n} {π : List (Fin n)}

theorem departure_after (π : List (Fin n)) : (departure source time).after g.plan π =
    ⟨((departure source time).after g.plan π).node, arrival g.plan time π,
      source :: π.map fun c => (g.plan c).toNode⟩ := by
  have htime := @Stop.after_time n g.plan (departure source time) π
  have hseen := @Stop.after_seen n g.plan (departure source time) π
  generalize (departure source time).after g.plan π = s at htime hseen
  cases s
  cases htime
  cases hseen
  rfl

theorem spur_node (hg : StartsAt g source time) (π : List (Fin n)) :
    (g.contact π.getLast?).toNode = ((departure source time).after g.plan π).node := by
  induction π using List.reverseRecOn with
  | nil => exact hg.toNode
  | append_singleton π c =>
      rw [after_node, List.getLast?_append]
      rfl

theorem spur_back (hg : StartsAt g source time) (hπ : Trip g.plan (departure source time) π) :
    (g.contact π.getLast?).frm ∈ ((departure source time).after g.plan π).seen := by
  induction π using List.reverseRecOn with
  | nil => simp [Contacts.contact, hg.frm, departure]
  | append_singleton π c =>
      have hboards := (trip_concat.mp hπ).2
      rw [List.getLast?_append, Stop.after_append, Stop.after_seen]
      refine List.mem_append_left _ ?_
      have hnode := @Stop.node_seen n g.plan (departure source time) (by simp [departure]) π
      rwa [← hboards.frm] at hnode

theorem spur_ready (hg : StartsAt g source time) (hπ : Trip g.plan (departure source time) π)
    (hops : rootPath.hops = none :: π.map some)
    (htime : rootPath.bestDeliveryTime = arrival g.plan time π)
    (hfree : ∀ c, some c ≠ π.getLast? → (w (some c)).suppressedNextHop = [])
    (hsup : ∀ c, (w (some c)).suppressed = true → c ∈ π) :
    let w' := prepareSearch g π.getLast? (prepareSpur g rootPath π.getLast? w)
    Ready g π.getLast? w' ∧
      searchStart g π.getLast? w' = (departure source time).after g.plan π ∧
      (∀ x, (w' x).suppressedNextHop = (w x).suppressedNextHop) ∧
      ∀ c, (w' (some c)).suppressed = true → c ∈ π := by
  intro w'
  have hnode := spur_node hg π
  have hseen : ((departure source time).after g.plan π).seen =
      rootPath.hops.map fun h => (g.contact h).toNode := by
    rw [hops, departure_after]
    simp [Contacts.contact, hg.toNode]
  have hnodeSeen :
      (g.contact π.getLast?).toNode ∈ rootPath.hops.map fun h => (g.contact h).toNode := by
    rw [hnode, ← hseen]
    exact Stop.node_seen (by simp [departure]) π
  have hspur : w' π.getLast? = { (w π.getLast?).clearDijkstraWorkingArea with
      arrivalTime := rootPath.bestDeliveryTime
      visitedNodes := rootPath.hops.map fun h => (g.contact h).toNode } := by
    have : w' π.getLast? = prepareSpur g rootPath π.getLast? w π.getLast? := by
      simp only [w', prepareSearch, if_true]
      rw [if_pos]
      simpa [prepareSpur, WorkArea.set] using hnodeSeen
    rw [this]
    simp [prepareSpur, WorkArea.set]
  have hother (c : Fin n) (hc : some c ≠ π.getLast?) :
      w' (some c) = (w (some c)).clearDijkstraWorkingArea := by
    simp [w', prepareSearch, prepareSpur, WorkArea.set, hc]
  have prepared : Prepared g π.getLast? (prepareSpur g rootPath π.getLast? w) := by
    refine ⟨.inr ?_, fun c hc => ?_⟩
    · rw [prepareSpur, WorkArea.set, if_pos rfl, ← hseen]
      exact spur_back hg hπ
    · rw [prepareSpur, WorkArea.set, if_neg hc]
      exact hfree c hc
  refine ⟨prepared.ready, ?_, ?_, ?_⟩
  · rw [searchStart, hspur, departure_after, hnode]
    dsimp only
    rw [htime, hops]
    simp [Contacts.contact, hg.toNode]
  · intro x
    by_cases hx : x = π.getLast?
    · rw [hx, hspur]
      rfl
    · cases x with
      | none => simp [w', prepareSearch, prepareSpur, WorkArea.set, hx]
      | some c =>
          rw [hother c hx]
          rfl
  · intro c hc
    refine hsup c ?_
    by_cases hspurc : some c = π.getLast?
    · rw [hspurc] at hc ⊢
      rwa [hspur] at hc
    · rwa [hother c hspurc] at hc

end Prepared

section Search

variable {routes : List (Route n)} {last : Route n} {w : WorkArea n} {π : List (Fin n)}

/-- The routes that `cgr_yen` has found, with the forbidden next hops of the root contact. -/
structure Known (g : Contacts n) (source destination : Int) (time : ℚ) (routes : List (Route n))
    (w : WorkArea n) : Prop where
  rooted : ∀ r ∈ routes, r.Rooted
  chains : ∀ r ∈ routes, Chain g.plan source destination time r.word
  memory : ∀ hop ∈ (w none).suppressedNextHop, ∃ r ∈ routes, [none, hop] <+: r.hops

/-- A route whose delivery time is the arrival over its contacts. -/
def Route.Timed (g : Contacts n) (time : ℚ) (r : Route n) : Prop :=
  r.Rooted ∧ r.bestDeliveryTime = arrival g.plan time r.word

theorem prefix_hops {r : Route n} (hr : r.Rooted) {x : Ref n} :
    (none :: π.map some) ++ [x] <+: r.hops ↔ ∃ c, x = some c ∧ π ++ [c] <+: r.word := by
  rw [hr]
  constructor
  · intro h
    have hx : x ∈ r.word.map some := by
      obtain ⟨rest, hrest⟩ := h
      have heq : π.map some ++ ([x] ++ rest) = r.word.map some := by simpa using hrest
      rw [← heq]
      simp
    obtain ⟨c, -, rfl⟩ := List.mem_map.mp hx
    refine ⟨c, rfl, map_some_prefix.mp ?_⟩
    simpa using h
  · rintro ⟨c, rfl, h⟩
    simpa using map_some_prefix.mpr h

theorem take_spur (hlast : last.Rooted) (nodup : last.word.Nodup) (hπ : π <+: last.word) :
    last.hops.take (last.hops.idxOf π.getLast? + 1) = none :: π.map some := by
  have hidx : last.hops.idxOf π.getLast? = π.length := by
    obtain ⟨rest, hrest⟩ := hπ
    rw [hlast, ← hrest]
    induction π using List.reverseRecOn with
    | nil => simp
    | append_singleton π c =>
        have hc : c ∉ π := by
          rw [← hrest, List.append_assoc] at nodup
          exact fun hc => (List.nodup_append.mp nodup).2.2 c hc c (by simp) rfl
        have hnot : some c ∉ none :: π.map some := by simpa using hc
        have hsplit : (none :: ((π ++ [c]) ++ rest).map some : List (Ref n)) =
            (none :: π.map some) ++ some c :: rest.map some := by simp
        rw [hsplit, List.getLast?_append, List.getLast?_singleton, Option.some_or,
          List.idxOf_append_of_notMem hnot, List.idxOf_cons_self]
        simp
  have hprefix : none :: π.map some <+: last.hops := by
    rw [hlast]
    exact map_some_prefix.mpr hπ
  rw [hidx]
  have htake := List.prefix_iff_eq_take.mp hprefix
  rw [List.length_cons, List.length_map] at htake
  exact htake.symm

theorem Known.trip (known : Known g source destination time routes w) (hlast : last ∈ routes)
    (hπ : π <+: last.word) : Trip g.plan (departure source time) π := by
  obtain ⟨rest, hrest⟩ := hπ
  have htrip := (known.chains last hlast).feasible.1
  rw [← hrest] at htrip
  exact (trip_append.mp htrip).1

/-- What a spur search may take is a deviation from the known routes. -/
theorem allowed_iff_deviation {hops : List (Ref n)}
    (known : Known g source destination time routes w)
    (hlast : last ∈ routes) (hπ : π <+: last.word) {w' : WorkArea n}
    (start : searchStart g π.getLast? w' = (departure source time).after g.plan π)
    (hhops : (w' π.getLast?).suppressedNextHop = hops)
    (hmem : ∀ x, x ∈ hops ↔ ∃ r ∈ routes, (none :: π.map some) ++ [x] <+: r.hops)
    (hsuppressed : ∀ c, (w' (some c)).suppressed = true → c ∈ π) {p : List (Fin n)} :
    Allowed g π.getLast? destination w' p ∧
        ((searchStart g π.getLast? w').after g.plan p).time < sysMaxsize ↔
      KBest.Deviation (Chain g.plan source destination time) (routes.map Route.word) π
        (π ++ p) := by
  have htrip := known.trip hlast hπ
  have hsup (c : Fin n) : some c ∉ (w' π.getLast?).suppressedNextHop ↔
      ∀ a ∈ routes.map Route.word, ¬ π ++ [c] <+: a := by
    rw [hhops, hmem]
    simp only [List.mem_map, not_exists, not_and, forall_exists_index, and_imp,
      forall_apply_eq_imp_iff₂]
    refine forall₂_congr fun r hr => not_congr ((prefix_hops (known.rooted r hr)).trans ?_)
    simp
  have hchain (hp : p ≠ []) : (Trip g.plan (searchStart g π.getLast? w') p ∧
      ((searchStart g π.getLast? w').after g.plan p).node = destination ∧
      ((searchStart g π.getLast? w').after g.plan p).time < sysMaxsize) ↔
        Chain g.plan source destination time (π ++ p) := by
    rw [start, ← Stop.after_append, Stop.after_time]
    constructor
    · rintro ⟨hp', hnode, hbound⟩
      exact ⟨by simp [hp], ⟨trip_append.mpr ⟨htrip, hp'⟩, hnode⟩, hbound⟩
    · rintro ⟨-, hfeasible, hbound⟩
      exact ⟨(trip_append.mp hfeasible.1).2, hfeasible.2, hbound⟩
  constructor
  · rintro ⟨⟨hp', hmoves, hnode, -, hfirst⟩, hbound⟩
    refine ⟨(hchain hmoves).mp ⟨hp', hnode, hbound⟩, ?_⟩
    cases p with
    | nil => exact absurd rfl hmoves
    | cons c p =>
        refine ⟨c, ⟨p, by simp⟩, ⟨last.word, List.mem_map_of_mem hlast, hπ⟩, ?_⟩
        exact (hsup c).mp (hfirst c rfl)
  · rintro ⟨hfound, c, hbranch⟩
    obtain ⟨rest, hrest⟩ := hbranch.word
    rw [List.append_assoc] at hrest
    have hp : p = c :: rest := (List.append_cancel_left hrest).symm
    have hmoves : p ≠ [] := by simp [hp]
    obtain ⟨hp', hnode, hbound⟩ := (hchain hmoves).mpr hfound
    refine ⟨⟨hp', hmoves, hnode, fun d hd => ?_, fun d hd => ?_⟩, hbound⟩
    · -- A suppressed contact leads to a node of the root path.
      refine Bool.eq_false_iff.mpr fun hd' => hp'.new hd ?_
      rw [start, departure_after]
      exact List.mem_cons_of_mem _ (List.mem_map_of_mem (hsuppressed d hd'))
    · rw [hp] at hd
      cases hd
      exact (hsup c).mpr hbranch.alone

theorem Known.suppressed (known : Known g source destination time routes w) (hlast : last ∈ routes)
    (hπ : π <+: last.word) (hne : π ≠ last.word) {hops : List (Ref n)}
    (hhops : hops = none :: π.map some) :
    ∃ w', suppressNextHops hops π.getLast? routes (suppress hops.dropLast (resetContacts w)) =
        .ok w' ∧
      (∀ c, some c ≠ π.getLast? → (w' (some c)).suppressedNextHop = []) ∧
      (∀ c, (w' (some c)).suppressed = true → c ∈ π) ∧
      (∀ x, x ∈ (w' π.getLast?).suppressedNextHop ↔ ∃ r ∈ routes, hops ++ [x] <+: r.hops) ∧
      ∀ x ∈ (w' none).suppressedNextHop, ∃ r ∈ routes, [none, x] <+: r.hops := by
  have longer : ∀ r ∈ routes, hops <+: r.hops → hops ≠ r.hops := by
    rintro r hr - heq
    have hword : r.word = π := (Route.rooted_of_hops (heq.symm.trans hhops)).2
    exact hne ((chain_prefixFree g.plan).prefix_eq (hword ▸ known.chains r hr)
      (known.chains last hlast) hπ)
  obtain ⟨w', hw', hother, hsup, hmem⟩ := suppressNextHops_ok hops π.getLast? routes
    (suppress hops.dropLast (resetContacts w)) longer
  have hfree (c : Fin n) :
      (suppress hops.dropLast (resetContacts w) (some c)).suppressedNextHop = [] := by
    rw [suppress_eq]
    rfl
  have hroot : (suppress hops.dropLast (resetContacts w) none).suppressedNextHop =
      (w none).suppressedNextHop := by
    rw [suppress_eq]
    rfl
  have hspur (x : Ref n) : x ∈ (w' π.getLast?).suppressedNextHop ↔
      ∃ r ∈ routes, hops ++ [x] <+: r.hops := by
    rw [hmem]
    refine ⟨?_, .inr⟩
    rintro (hx | hx)
    · -- Only the root contact remembers what was forbidden before.
      cases hlastHop : π.getLast? with
      | none =>
          rw [hlastHop, hroot] at hx
          rw [List.getLast?_eq_none_iff.mp hlastHop] at hhops
          rw [hhops]
          exact known.memory x hx
      | some c =>
          rw [hlastHop, hfree c] at hx
          cases hx
    · exact hx
  refine ⟨w', hw', fun c hc => ?_, fun c hc => ?_, hspur, fun x hx => ?_⟩
  · rw [hother (some c) hc]
    exact hfree c
  · have hc : (suppress hops.dropLast (resetContacts w) (some c)).suppressed = true := by
      by_cases hspurc : some c = π.getLast?
      · rw [hspurc] at hc ⊢
        rwa [← hsup]
      · rwa [hother (some c) hspurc] at hc
    rw [suppress_eq] at hc
    have hmem : some c ∈ hops := by
      refine List.dropLast_subset hops ?_
      simpa [resetContacts, Work.clearDijkstraWorkingArea, Work.clearManagementWorkingArea] using hc
    simpa [hhops] using hmem
  · by_cases hnil : none = π.getLast?
    · rw [hnil] at hx
      have hempty := List.getLast?_eq_none_iff.mp hnil.symm
      rw [hhops, hempty] at hspur
      rw [hempty] at hx
      exact (hspur x).mp hx
    · rw [hother none hnil, hroot] at hx
      exact known.memory x hx

/-- What the searches of a call of `cgr_yen` rely on: no signal arrives before it is sent,
and the root contact stays at a node of the plan. -/
structure YenCall (g : Contacts n) (source : Int) (time : ℚ) : Prop extends
    StartsAt g source time where
  causal : Causal g.plan
  occurs : Occurs g.plan source

theorem YenCall.spur_occurs (call : YenCall g source time) :
    Occurs g.plan (g.contact π.getLast?).toNode := by
  cases π.getLast? with
  | none =>
      rw [show (g.contact none).toNode = source from call.toNode]
      exact call.occurs
  | some c => exact ⟨c, .inr rfl⟩

/-- A spur search finds the best deviation behind its prefix. -/
theorem spurSearch_finds (call : YenCall g source time)
    (known : Known g source destination time routes w) (hlast : last ∈ routes)
    (hπ : π <+: last.word) (hne : π ≠ last.word) :
    ∃ found w', spurSearch g destination routes last π.getLast? w = .ok (found, w') ∧
      KBest.Finds (Chain g.plan source destination time) (arrival g.plan time)
        (routes.map Route.word) π (found.map Route.word) ∧
      (∀ r ∈ found, r.Timed g time) ∧ Known g source destination time routes w' := by
  have htrip := known.trip hlast hπ
  obtain ⟨rootPath, hroot, hhops, hbdt⟩ := along_root call.toStartsAt htrip
  obtain ⟨w₂, hw₂, hfree, hsup, hmem, hmemory⟩ := known.suppressed hlast hπ hne hhops
  obtain ⟨ready, start, hnext, hsuppressed⟩ := spur_ready call.toStartsAt htrip hhops hbdt
    hfree hsup
  obtain ⟨found, w₃, hdijkstra, hfinds, hframe⟩ := cgrDijkstra_finds destination call.causal
    ready call.spur_occurs
  have hdeviation {p : List (Fin n)} := @allowed_iff_deviation n g source destination time routes
    last w π _ known hlast hπ _ start (hnext _) (by rw [← hhops]; exact hmem) hsuppressed p
  have htime (p : List (Fin n)) : ((searchStart g π.getLast? (prepareSearch g π.getLast?
      (prepareSpur g rootPath π.getLast? w₂))).after g.plan p).time =
        arrival g.plan time (π ++ p) := by
    rw [start, ← Stop.after_append, Stop.after_time]
    rfl
  have hsplit {r : List (Fin n)} (hr : KBest.Deviation (Chain g.plan source destination time)
      (routes.map Route.word) π r) : ∃ p, r = π ++ p := by
    obtain ⟨-, x, hbranch⟩ := hr
    obtain ⟨rest, rfl⟩ := hbranch.word
    exact ⟨[x] ++ rest, by simp⟩
  have hknown : Known g source destination time routes w₃ :=
    ⟨known.rooted, known.chains, fun x hx => hmemory x (by rwa [hframe none, hnext none] at hx)⟩
  have hsearch : spurSearch g destination routes last π.getLast? w =
      match found with
      | none => .ok (none, w₃)
      | some path => do
          let totalPath ← Route.along g (rootPath.hops ++ path.hops)
          return (some totalPath, w₃) := by
    rw [spurSearch, take_spur (known.rooted last hlast)
      (known.trip hlast (List.prefix_refl _)).nodup hπ, hroot]
    simp only [bind, Except.bind, hw₂, hdijkstra]
    cases found <;> rfl
  rw [hsearch]
  cases found with
  | none =>
      refine ⟨none, w₃, rfl, fun r hr => ?_, nofun, hknown⟩
      obtain ⟨p, rfl⟩ := hsplit hr
      obtain ⟨hallowed, hbound⟩ := hdeviation.mpr hr
      exact absurd hbound (not_lt.mpr (hfinds p hallowed))
  | some path =>
      obtain ⟨p, hp, hallowed, hbound, hleast⟩ := hfinds
      have hdev := hdeviation.mp ⟨hallowed, hbound⟩
      obtain ⟨total, htotal, htotalHops, htotalTime⟩ := along_root call.toStartsAt hdev.1.feasible.1
      obtain ⟨hrooted, hword⟩ := Route.rooted_of_hops htotalHops
      have hjoin : rootPath.hops ++ path.hops = none :: (π ++ p).map some := by
        simp [hhops, hp]
      refine ⟨some total, w₃, ?_, ⟨?_, fun r hr => ?_⟩, fun r hr => ?_, hknown⟩
      · dsimp only
        rw [hjoin, htotal]
        rfl
      · rw [hword]
        exact hdev
      · obtain ⟨q, rfl⟩ := hsplit hr
        have hle := hleast q (hdeviation.mpr hr).1
        rwa [htime, htime, ← hword] at hle
      · cases hr
        exact ⟨hrooted, by rw [htotalTime, hword]⟩

end Search
end LwipDtn.Cgr
