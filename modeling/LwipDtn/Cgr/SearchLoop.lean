import LwipDtn.Cgr.Labels

/-!
The loop of the search: looking around from a contact, choosing the next one, and the
end. A finished search has settled everything that could lead to a better arrival, so its
best label is the smallest arrival over all journeys that it may take.
-/

namespace LwipDtn.Cgr

variable {n : Nat} {g : Contacts n} {root : Ref n} {destination : Int} {w : WorkArea n}
  {settled : Ref n → Prop} {waiting : Ref n → Fin n → Prop} {s : Search n}
  {paths : Ref n → List (Fin n)} {current : Ref n}

section Round

theorem explore_visited (c : Fin n) (x : Ref n) :
    ((explore g destination current s c).work x).visited = (s.work x).visited := by
  obtain ⟨hsame, -⟩ | himp := @explore_cases n g destination s current c
  · rw [hsame]
  · by_cases hx : x = some c
    · subst hx
      rw [himp.self]
    · rw [himp.other x hx]

theorem Labels.explore (causal : Causal g.plan) (ready : Ready g root w)
    (h : Labels g root destination w settled waiting s paths)
    (looks : LooksFrom settled s current) {c : Fin n}
    (hfrm : (g.plan c).frm = (g.contact current).toNode) :
    ∃ paths', Labels g root destination w settled
        (fun x d => waiting x d ∧ ¬ (x = current ∧ d = c))
        (explore g destination current s c) paths' ∧
      LooksFrom settled (Cgr.explore g destination current s c) current := by
  obtain ⟨hsame, idle⟩ | himp := @explore_cases n g destination s current c
  · rw [hsame]
    exact ⟨paths, h.keep causal ready looks idle, looks⟩
  · have unsettled := unsettled_of_not_ignored ready h looks himp.look
    have hwork {x : Ref n} (hx : settled x) :=
      himp.other x fun hxc => unsettled (hxc ▸ hx)
    refine ⟨_, h.improve causal ready looks hfrm himp, looks.here, fun d => ?_, fun x hx => ?_⟩
    · rw [explore_visited]
      exact looks.flags d
    · rw [hwork hx, hwork looks.here]
      exact looks.last x hx

theorem Labels.waits (h : Labels g root destination w settled waiting s paths)
    {waiting' : Ref n → Fin n → Prop}
    (hw : ∀ x c, waiting x c → Relaxable g w s x c → waiting' x c) :
    Labels g root destination w settled waiting' s paths :=
  { h with
    relaxed := fun x c hx hw' hc => h.relaxed x c hx (fun hwait => hw' (hw x c hwait hc)) hc }

theorem Labels.exploreAll (causal : Causal g.plan) (ready : Ready g root w)
    (l : List (Fin n)) (hl : ∀ c ∈ l, (g.plan c).frm = (g.contact current).toNode)
    (h : Labels g root destination w settled waiting s paths)
    (looks : LooksFrom settled s current) :
    ∃ paths', Labels g root destination w settled
        (fun x d => waiting x d ∧ ¬ (x = current ∧ d ∈ l))
        (l.foldl (Cgr.explore g destination current) s) paths' ∧
      LooksFrom settled (l.foldl (Cgr.explore g destination current) s) current := by
  induction l generalizing s paths waiting with
  | nil => exact ⟨paths, by simpa using h, looks⟩
  | cons c l ih =>
      obtain ⟨paths₁, h₁, looks₁⟩ := h.explore causal ready looks (hl c (by simp))
      obtain ⟨paths₂, h₂, looks₂⟩ := ih (fun d hd => hl d (by simp [hd])) h₁ looks₁
      refine ⟨paths₂, h₂.waits fun x d hwait _ => ⟨hwait.1.1, ?_⟩, looks₂⟩
      rintro ⟨rfl, hd⟩
      rcases List.mem_cons.mp hd with rfl | hd
      · exact hwait.1.2 ⟨rfl, rfl⟩
      · exact hwait.2 ⟨rfl, hd⟩

theorem markVisited_area (c x : Ref n) : (markVisited s c).work x =
    { s.work x with visited := (s.work x).visited || decide (x = c) } := by
  by_cases hx : x = c
  · subst hx
    simp [markVisited, WorkArea.set]
  · simp [markVisited, WorkArea.set, hx]

theorem Labels.markVisited (h : Labels g root destination w settled waiting s paths) (c : Ref n) :
    Labels g root destination w settled waiting (markVisited s c) paths := by
  have hlabelled (d : Fin n) (p : Ref n) :
      Labelled root (Cgr.markVisited s c) d p ↔ Labelled root s d p := by
    simp [Labelled, markVisited_area]
  refine ⟨?_, ?_, h.rootPath, ?_, ?_, fun d p hd => ?_, ?_, fun x d hx hw hd => ?_,
    fun d p hd hdest => ?_, h.noFinal, fun f hf => ?_⟩
  · simpa only [markVisited_area] using h.frame
  · simpa only [markVisited_area] using h.rootArea
  · simpa only [hlabelled] using h.settledLabel
  · simpa only [markVisited_area] using h.unlabelled
  · have hlabel := h.label d p ((hlabelled d p).mp hd)
    exact ⟨hlabel.settled, hlabel.path, hlabel.trip, by rw [markVisited_area]; exact hlabel.time,
      by rw [markVisited_area]; exact hlabel.seen, hlabel.free, hlabel.first⟩
  · simpa only [markVisited_area, hlabelled] using h.order
  · have hnew := hd.new
    have htime := hd.time
    rw [markVisited_area] at hnew htime
    simpa only [markVisited_area, hlabelled] using
      h.relaxed x d hx hw ⟨hd.frm, hnew, hd.volume, htime, hd.free, hd.allowed⟩
  · rw [markVisited_area]
    exact h.finals d p ((hlabelled d p).mp hd) hdest
  · simp only [markVisited_area, hlabelled]
    exact h.final f hf

/-- The nodes that have an entry in the table. -/
def Occurs (plan : Fin n → Contact) (node : Int) : Prop :=
  ∃ c, (plan c).frm = node ∨ (plan c).toNode = node

theorem contactPlanHash_eq {node : Int} (h : Occurs g.plan node) : contactPlanHash g node =
    .ok ((List.finRange n).filter fun i => (g.plan i).frm == node) := by
  obtain ⟨c, hc⟩ := h
  refine if_pos (List.any_eq_true.mpr ⟨c, List.mem_finRange c, ?_⟩)
  simpa using hc

theorem Labels.occurs (h : Labels g root destination w settled waiting s paths)
    (hroot : Occurs g.plan (g.contact root).toNode) {x : Ref n} (hx : settled x) :
    Occurs g.plan (g.contact x).toNode := by
  obtain rfl | ⟨c, p, rfl, -⟩ := h.settledLabel x hx
  · exact hroot
  · exact ⟨c, .inr rfl⟩

/-- The state of the search after it has looked around from `current`. -/
def lookAround (g : Contacts n) (destination : Int) (current : Ref n) (s : Search n) : Search n :=
  markVisited
    (((List.finRange n).filter fun i => (g.plan i).frm == (g.contact current).toNode).foldl
      (explore g destination current) s) current

theorem Labels.lookAround (causal : Causal g.plan) (ready : Ready g root w)
    (h : Labels g root destination w settled (fun x _ => x = current) s paths)
    (looks : LooksFrom settled s current) :
    ∃ paths', Labels g root destination w settled (fun _ _ => False)
        (lookAround g destination current s) paths' ∧
      ∀ c, settled (some c) ↔
        ((Cgr.lookAround g destination current s).work (some c)).visited = true := by
  obtain ⟨paths', h', looks'⟩ := h.exploreAll causal ready
    ((List.finRange n).filter fun i => (g.plan i).frm == (g.contact current).toNode)
    (by simp) looks
  refine ⟨paths', (h'.markVisited current).waits fun x c hwait hc => ?_, fun c => ?_⟩
  · obtain ⟨rfl, hlook⟩ := hwait
    exact hlook ⟨rfl, by simpa using hc.frm⟩
  · rw [looks'.flags, Cgr.lookAround, markVisited_area]
    simp

end Round

section Next

/-- The contacts that the search can go on with. -/
structure Candidate (s : Search n) (c : Fin n) : Prop where
  unsuppressed : (s.work (some c)).suppressed = false
  unvisited : (s.work (some c)).visited = false
  useful : (s.work (some c)).arrivalTime ≤ s.earliestFinArrT

def NextBest (s : Search n) (l : List (Fin n)) (best : ℚ × Option (Fin n)) : Prop :=
  (∀ d ∈ l, Candidate s d → best.1 ≤ (s.work (some d)).arrivalTime) ∧
    match best.2 with
    | none => best.1 = sysMaxsize
    | some c => Candidate s c ∧ best.1 = (s.work (some c)).arrivalTime ∧ best.1 < sysMaxsize

theorem nextBest_foldl (s : Search n) (l : List (Fin n)) (seen : List (Fin n))
    (best : ℚ × Option (Fin n)) (hbest : best.1 ≤ sysMaxsize) (h : NextBest s seen best) :
    NextBest s (seen ++ l) (l.foldl (fun (best : ℚ × Option (Fin n)) c =>
      if (s.work (some c)).suppressed || (s.work (some c)).visited then best
      else if s.earliestFinArrT < (s.work (some c)).arrivalTime then best
      else if (s.work (some c)).arrivalTime < best.1 then ((s.work (some c)).arrivalTime, some c)
      else best) best) := by
  induction l generalizing seen best with
  | nil => simpa using h
  | cons c l ih =>
      -- A contact that is passed over is no candidate, or not better.
      have skip (hc : Candidate s c → best.1 ≤ (s.work (some c)).arrivalTime) :
          NextBest s (seen ++ [c]) best := by
        refine ⟨fun d hd hcand => ?_, h.2⟩
        rcases List.mem_append.mp hd with hd | hd
        · exact h.1 d hd hcand
        · cases List.mem_singleton.mp hd
          exact hc hcand
      rw [List.foldl_cons, ← List.singleton_append, ← List.append_assoc]
      split
      · rename_i hoff
        refine ih _ _ hbest (skip fun hcand => ?_)
        simp [hcand.unsuppressed, hcand.unvisited] at hoff
      rename_i hon
      split
      · rename_i hlate
        exact ih _ _ hbest (skip fun hcand => absurd hcand.useful (not_le.mpr hlate))
      rename_i huseful
      split
      · rename_i hlt
        have hon : (s.work (some c)).suppressed = false ∧ (s.work (some c)).visited = false := by
          simpa using hon
        refine ih _ _ (le_trans (le_of_lt hlt) hbest) ⟨fun d hd hcand => ?_, ?_⟩
        · rcases List.mem_append.mp hd with hd | hd
          · exact le_trans (le_of_lt hlt) (h.1 d hd hcand)
          · cases List.mem_singleton.mp hd
            exact le_refl _
        · exact ⟨⟨hon.1, hon.2, not_lt.mp huseful⟩, rfl, lt_of_lt_of_le hlt hbest⟩
      · rename_i hge
        exact ih _ _ hbest (skip fun _ => not_lt.mp hge)

theorem nextBest_nextContact (s : Search n) :
    ∃ time, NextBest s (List.finRange n) (time, nextContact s) := by
  have h := nextBest_foldl s (List.finRange n) [] (sysMaxsize, none) (le_refl _) ⟨nofun, rfl⟩
  exact ⟨_, h⟩

theorem nextContact_none (h : nextContact s = none) {d : Fin n} (hd : Candidate s d) :
    sysMaxsize ≤ (s.work (some d)).arrivalTime := by
  obtain ⟨time, hall, htime⟩ := nextBest_nextContact s
  rw [h] at htime
  cases htime
  exact hall d (List.mem_finRange d) hd

theorem nextContact_some {c : Fin n} (h : nextContact s = some c) :
    Candidate s c ∧ (s.work (some c)).arrivalTime < sysMaxsize ∧
      ∀ d, Candidate s d → (s.work (some c)).arrivalTime ≤ (s.work (some d)).arrivalTime := by
  obtain ⟨time, hall, htime⟩ := nextBest_nextContact s
  rw [h] at htime
  obtain ⟨hcand, rfl, hlt⟩ := htime
  exact ⟨hcand, hlt, fun d hd => hall d (List.mem_finRange d) hd⟩

theorem Labels.settle (h : Labels g root destination w settled (fun _ _ => False) s paths)
    (hroot : settled root) (flags : ∀ d, settled (some d) ↔ (s.work (some d)).visited = true)
    {c : Fin n} (hnext : nextContact s = some c) :
    Labels g root destination w (fun x => settled x ∨ x = some c) (fun x _ => x = some c) s
        paths ∧
      LooksFrom (fun x => settled x ∨ x = some c) s (some c) ∧ ¬ settled (some c) := by
  obtain ⟨hcand, hlt, hleast⟩ := nextContact_some hnext
  have unsettled : ¬ settled (some c) := by
    rw [flags, hcand.unvisited]
    exact Bool.noConfusion
  have hne : some c ≠ root := fun hc => unsettled (hc ▸ hroot)
  obtain ⟨p, hc⟩ : ∃ p, Labelled root s c p := by
    cases hpred : (s.work (some c)).predecessor with
    | none => exact absurd (h.unlabelled c hne hpred) (ne_of_lt hlt)
    | some p => exact ⟨p, hne, hpred⟩
  refine ⟨{ h with settledLabel := ?_, label := ?_, order := ?_, relaxed := ?_ },
    ⟨.inr rfl, ?_, ?_⟩, unsettled⟩
  · rintro x (hx | rfl)
    · exact h.settledLabel x hx
    · exact .inr ⟨c, p, rfl, hc⟩
  · intro d q hd
    have hlabel := h.label d q hd
    exact { hlabel with settled := .inl hlabel.settled }
  · rintro x d q (hx | rfl) hd hlabelled
    · exact h.order x d q hx (fun hset => hd (.inl hset)) hlabelled
    · rcases le_or_gt (s.work (some d)).arrivalTime s.earliestFinArrT with huseful | hlate
      · refine hleast d ⟨?_, ?_, huseful⟩
        · rw [(h.frame (some d)).1]
          exact (h.label d q hlabelled).free_self
        · exact Bool.eq_false_iff.mpr fun hv => hd (.inl ((flags d).mpr hv))
      · exact le_trans hcand.useful (le_of_lt hlate)
  · rintro x d (hx | rfl) hwait hd
    · exact h.relaxed x d hx id hd
    · exact absurd rfl hwait
  · intro d
    rw [flags]
  · rintro x (hx | rfl)
    · exact h.order x c p hx unsettled hc
    · exact le_refl _

end Next

section Loop

structure Searched (g : Contacts n) (root : Ref n) (destination : Int) (w : WorkArea n)
    (settled : Ref n → Prop) (s : Search n) (paths : Ref n → List (Fin n)) : Prop where
  labels : Labels g root destination w settled (fun _ _ => False) s paths
  begun : settled root
  done : ∀ c p, Labelled root s c p → ¬ settled (some c) →
    s.earliestFinArrT ≤ (s.work (some c)).arrivalTime

theorem Labels.searched
    (h : Labels g root destination w settled (fun _ _ => False) s paths) (hroot : settled root)
    (flags : ∀ d, settled (some d) ↔ (s.work (some d)).visited = true)
    (hnext : nextContact s = none) :
    Searched g root destination w settled s paths := by
  refine ⟨h, hroot, fun c p hc hset => ?_⟩
  refine le_of_not_gt fun hlt => ?_
  refine absurd (lt_of_lt_of_le hlt h.earliest_le)
    (not_lt.mpr (nextContact_none hnext ⟨?_, ?_, le_of_lt hlt⟩))
  · rw [(h.frame (some c)).1]
    exact (h.label c p hc).free_self
  · exact Bool.eq_false_iff.mpr fun hv => hset ((flags c).mpr hv)

open Classical in
/-- Every round settles one more contact, so the loop ends. -/
theorem searchFrom_searched (causal : Causal g.plan) (ready : Ready g root w)
    (hplan : Occurs g.plan (g.contact root).toNode) (fuel : Nat)
    (h : Labels g root destination w settled (fun x _ => x = current) s paths)
    (looks : LooksFrom settled s current) (hroot : settled root)
    (hfuel : (Finset.univ.filter fun c => ¬ settled (some c)).card < fuel) :
    ∃ s' settled' paths', searchFrom g destination fuel current s = .ok s' ∧
      Searched g root destination w settled' s' paths' := by
  induction fuel generalizing settled s paths current with
  | zero => exact absurd hfuel (Nat.not_lt_zero _)
  | succ fuel ih =>
      obtain ⟨paths', h', flags⟩ := h.lookAround causal ready looks
      have hround : searchFrom g destination (fuel + 1) current s =
          match nextContact (lookAround g destination current s) with
          | none => .ok (lookAround g destination current s)
          | some next => searchFrom g destination fuel (some next)
              (lookAround g destination current s) := by
        rw [searchFrom, contactPlanHash_eq (h.occurs hplan looks.here)]
        rfl
      rw [hround]
      cases hnext : nextContact (lookAround g destination current s) with
      | none => exact ⟨_, settled, paths', rfl, h'.searched hroot flags hnext⟩
      | some c =>
          obtain ⟨h'', looks'', unsettled⟩ := h'.settle hroot flags hnext
          refine ih h'' looks'' (.inl hroot) (lt_of_lt_of_le ?_ (Nat.lt_succ_iff.mp hfuel))
          refine Finset.card_lt_card (Finset.ssubset_iff_of_subset ?_ |>.mpr ⟨c, ?_, ?_⟩)
          · intro d hd
            simp only [Finset.mem_filter, Finset.mem_univ, true_and, not_or] at hd ⊢
            exact hd.1
          · simpa using unsettled
          · simp

end Loop
end LwipDtn.Cgr
