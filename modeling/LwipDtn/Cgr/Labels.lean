import LwipDtn.Cgr.Search
import LwipDtn.Cgr.Journey

/-!
The invariant of the search. Every labelled contact is reached by a journey along its
predecessors, the settled contacts have the smallest labels, and every contact that can
be boarded from a settled one before the end of time has a label that is at least as
good. The journeys are ghost state: the source only keeps the predecessors.
-/

namespace LwipDtn.Cgr

variable {n : Nat} (g : Contacts n) (root : Ref n) (destination : Int) (w : WorkArea n)

def searchStart : Stop :=
  ⟨(g.contact root).toNode, (w root).arrivalTime, (w root).visitedNodes⟩

/-- The working areas with which a search can start. -/
structure Ready : Prop where
  node : (g.contact root).toNode ∈ (w root).visitedNodes
  back : (g.contact root).frm ∈ (w root).visitedNodes
  fresh : ∀ c, some c ≠ root → (w (some c)).arrivalTime = sysMaxsize ∧
    (w (some c)).visited = false ∧ (w (some c)).predecessor = none
  free : ∀ c, some c ≠ root → (w (some c)).suppressedNextHop = []

/-- The label of `c` with predecessor `p` stands for a journey. -/
structure Label (settled : Ref n → Prop) (s : Search n) (paths : Ref n → List (Fin n)) (c : Fin n)
    (p : Ref n) : Prop where
  settled : settled p
  path : paths (some c) = paths p ++ [c]
  trip : Trip g.plan (searchStart g root w) (paths (some c))
  time : (s.work (some c)).arrivalTime =
    ((searchStart g root w).after g.plan (paths (some c))).time
  seen : (s.work (some c)).visitedNodes =
    ((searchStart g root w).after g.plan (paths (some c))).seen
  free : ∀ d ∈ paths (some c), (w (some d)).suppressed = false
  first : ∀ d, (paths (some c)).head? = some d → some d ∉ (w root).suppressedNextHop

def Labelled (s : Search n) (c : Fin n) (p : Ref n) : Prop :=
  some c ≠ root ∧ (s.work (some c)).predecessor = some p

/-- The contact can be boarded behind `x`. -/
structure Relaxable (s : Search n) (x : Ref n) (c : Fin n) : Prop where
  frm : (g.plan c).frm = (g.contact x).toNode
  new : (g.plan c).toNode ∉ (s.work x).visitedNodes
  volume : 0 < (g.plan c).volume
  time : (s.work x).arrivalTime < (g.plan c).stop
  free : (w (some c)).suppressed = false
  allowed : some c ∉ (w x).suppressedNextHop

/-- The invariant. `waiting x c` says that `c` has yet to be looked at from `x`. -/
structure Labels (settled : Ref n → Prop) (waiting : Ref n → Fin n → Prop) (s : Search n)
    (paths : Ref n → List (Fin n)) : Prop where
  frame : ∀ x, (s.work x).suppressed = (w x).suppressed ∧
    (s.work x).suppressedNextHop = (w x).suppressedNextHop
  rootArea : (s.work root).arrivalTime = (w root).arrivalTime ∧
    (s.work root).visitedNodes = (w root).visitedNodes
  rootPath : paths root = []
  settledLabel : ∀ x, settled x → x = root ∨ ∃ c p, x = some c ∧ Labelled root s c p
  unlabelled : ∀ c, some c ≠ root → (s.work (some c)).predecessor = none →
    (s.work (some c)).arrivalTime = sysMaxsize
  label : ∀ c p, Labelled root s c p → Label g root w settled s paths c p
  order : ∀ x c p, settled x → ¬ settled (some c) → Labelled root s c p →
    (s.work x).arrivalTime ≤ (s.work (some c)).arrivalTime
  relaxed : ∀ x c, settled x → ¬ waiting x c → Relaxable g w s x c →
    (∃ p, Labelled root s c p ∧ (s.work (some c)).arrivalTime ≤
      max (s.work x).arrivalTime (g.plan c).start + (g.plan c).owlt) ∨
    sysMaxsize ≤ max (s.work x).arrivalTime (g.plan c).start + (g.plan c).owlt
  finals : ∀ c p, Labelled root s c p → (g.plan c).toNode = destination →
    s.earliestFinArrT ≤ (s.work (some c)).arrivalTime
  noFinal : s.finalContact = none → s.earliestFinArrT = sysMaxsize
  final : ∀ f, s.finalContact = some f → (∃ p, Labelled root s f p) ∧
    (g.plan f).toNode = destination ∧ (s.work (some f)).arrivalTime = s.earliestFinArrT ∧
    s.earliestFinArrT < sysMaxsize

section

variable {g root destination w} {settled : Ref n → Prop} {waiting : Ref n → Fin n → Prop}
  {s : Search n} {paths : Ref n → List (Fin n)}

/-- A settled contact is at the end of its journey. -/
structure AtStop (g : Contacts n) (root : Ref n) (w : WorkArea n) (s : Search n)
    (paths : Ref n → List (Fin n)) (x : Ref n) : Prop where
  trip : Trip g.plan (searchStart g root w) (paths x)
  node : ((searchStart g root w).after g.plan (paths x)).node = (g.contact x).toNode
  time : (s.work x).arrivalTime = ((searchStart g root w).after g.plan (paths x)).time
  seen : (s.work x).visitedNodes = ((searchStart g root w).after g.plan (paths x)).seen
  free : ∀ d ∈ paths x, (w (some d)).suppressed = false
  first : ∀ d, (paths x).head? = some d → some d ∉ (w root).suppressedNextHop

theorem Label.atStop {c : Fin n} {p : Ref n} (h : Label g root w settled s paths c p) :
    AtStop g root w s paths (some c) :=
  ⟨h.trip, by rw [h.path, after_node]; rfl, h.time, h.seen, h.free, h.first⟩

theorem Label.free_self {c : Fin n} {p : Ref n} (h : Label g root w settled s paths c p) :
    (w (some c)).suppressed = false := h.free c (by simp [h.path])

theorem Labels.atStop (h : Labels g root destination w settled waiting s paths) {x : Ref n}
    (hx : settled x) : AtStop g root w s paths x := by
  obtain rfl | ⟨c, p, rfl, hlabelled⟩ := h.settledLabel x hx
  · refine ⟨?_, ?_, ?_, ?_, ?_, ?_⟩
    · rw [h.rootPath]
      trivial
    · rw [h.rootPath]
      rfl
    · rw [h.rootPath]
      exact h.rootArea.1
    · rw [h.rootPath]
      exact h.rootArea.2
    · rw [h.rootPath]
      nofun
    · rw [h.rootPath]
      nofun
  · exact (h.label c p hlabelled).atStop

theorem AtStop.seen_start {x : Ref n} (h : AtStop g root w s paths x) {node : Int}
    (hnode : node ∈ (w root).visitedNodes) : node ∈ (s.work x).visitedNodes := by
  rw [h.seen, Stop.after_seen]
  exact List.mem_append_left _ hnode

theorem AtStop.node_seen (ready : Ready g root w) {x : Ref n}
    (h : AtStop g root w s paths x) : (g.contact x).toNode ∈ (s.work x).visitedNodes := by
  rw [h.seen, ← h.node]
  exact Stop.node_seen ready.node (paths x)

theorem Labels.back_seen (ready : Ready g root w)
    (h : Labels g root destination w settled waiting s paths) {x : Ref n} (hx : settled x) :
    (g.contact x).frm ∈ (s.work x).visitedNodes := by
  obtain rfl | ⟨c, p, rfl, hlabelled⟩ := h.settledLabel x hx
  · rw [h.rootArea.2]
    exact ready.back
  · have hlabel := h.label c p hlabelled
    have htrip := hlabel.trip
    rw [hlabel.path, trip_concat] at htrip
    have hfrm := htrip.2.frm
    have hseen := @Stop.node_seen n g.plan (searchStart g root w) ready.node (paths p)
    rw [← hfrm] at hseen
    rw [hlabel.seen, hlabel.path, Stop.after_append, Stop.after_seen]
    exact List.mem_append_left _ hseen

/-! One look at a proximate contact. -/

theorem ignores_eq_false {x : Ref n} {c : Fin n} :
    ignores g s.work x c = false ↔ some c ∉ (s.work x).suppressedNextHop ∧
      (s.work (some c)).suppressed = false ∧ (s.work (some c)).visited = false ∧
      (g.plan c).toNode ∉ (s.work x).visitedNodes ∧ (s.work x).arrivalTime < (g.plan c).stop ∧
      0 < (g.plan c).volume ∧
      ¬ ((g.contact x).frm = (g.plan c).toNode ∧ (g.contact x).toNode = (g.plan c).frm) := by
  simp [ignores, Contact.mav, and_assoc]

theorem arrvlTime_eq (x : Ref n) (c : Fin n) :
    arrvlTime g s.work x c = max (s.work x).arrivalTime (g.plan c).start + (g.plan c).owlt := by
  rw [arrvlTime]
  split
  · rename_i h
    rw [max_eq_left (le_of_lt h)]
  · rename_i h
    rw [max_eq_right (not_lt.mp h)]

/-- The search `s'` differs from `s` in a new label for `c` behind `x`. -/
structure Improves (destination : Int) (g : Contacts n) (s s' : Search n) (x : Ref n) (c : Fin n) :
    Prop where
  look : ignores g s.work x c = false
  le : arrvlTime g s.work x c ≤ (s.work (some c)).arrivalTime
  self : s'.work (some c) = { s.work (some c) with
    arrivalTime := arrvlTime g s.work x c
    predecessor := some x
    visitedNodes := (s.work x).visitedNodes ++ [(g.plan c).toNode] }
  other : ∀ y, y ≠ some c → s'.work y = s.work y
  final : (g.plan c).toNode = destination ∧ arrvlTime g s.work x c < s.earliestFinArrT ∧
      s'.finalContact = some c ∧ s'.earliestFinArrT = arrvlTime g s.work x c ∨
    ¬ ((g.plan c).toNode = destination ∧ arrvlTime g s.work x c < s.earliestFinArrT) ∧
      s'.finalContact = s.finalContact ∧ s'.earliestFinArrT = s.earliestFinArrT

/-- A look changes nothing, or gives the contact a new label. -/
theorem explore_cases (destination : Int) (s : Search n) (x : Ref n) (c : Fin n) :
    (explore g destination x s c = s ∧ (ignores g s.work x c = true ∨
      ignores g s.work x c = false ∧ (s.work (some c)).arrivalTime < arrvlTime g s.work x c)) ∨
    Improves destination g s (explore g destination x s c) x c := by
  rw [explore]
  split
  · rename_i h
    exact .inl ⟨rfl, .inl h⟩
  rename_i h
  have hlook : ignores g s.work x c = false := by simpa using h
  split
  · rename_i hle
    dsimp only
    split
    · rename_i hfinal
      exact .inr ⟨hlook, hle, if_pos rfl, fun y hy => if_neg hy,
        .inl ⟨hfinal.1, hfinal.2, rfl, rfl⟩⟩
    · rename_i hfinal
      exact .inr ⟨hlook, hle, if_pos rfl, fun y hy => if_neg hy, .inr ⟨hfinal, rfl, rfl⟩⟩
  · rename_i hlt
    exact .inl ⟨rfl, .inr ⟨hlook, not_le.mp hlt⟩⟩

theorem AtStop.boards {x : Ref n} {c : Fin n} (h : AtStop g root w s paths x)
    (hc : Relaxable g w s x c) :
    ((searchStart g root w).after g.plan (paths x)).Boards g.plan c :=
  ⟨by rw [hc.frm, h.node], by rw [← h.seen]; exact hc.new, hc.volume,
    by rw [← h.time]; exact hc.time⟩

theorem AtStop.ride_time {x : Ref n} (h : AtStop g root w s paths x) (c : Fin n) :
    ((searchStart g root w).after g.plan (paths x ++ [c])).time = arrvlTime g s.work x c := by
  rw [arrvlTime_eq, h.time, Stop.after_append]
  rfl

theorem AtStop.ride_trip {x : Ref n} {c : Fin n} (h : AtStop g root w s paths x)
    (hc : Relaxable g w s x c) : Trip g.plan (searchStart g root w) (paths x ++ [c]) :=
  trip_concat.mpr ⟨h.trip, h.boards hc⟩

theorem AtStop.ne_root (ready : Ready g root w) {x : Ref n} {c : Fin n}
    (h : AtStop g root w s paths x) (hc : Relaxable g w s x c) : some c ≠ root := by
  rintro rfl
  exact hc.new (h.seen_start ready.node)

theorem le_arrvlTime (causal : Causal g.plan) (x : Ref n) (c : Fin n) :
    (s.work x).arrivalTime ≤ arrvlTime g s.work x c := by
  rw [arrvlTime_eq]
  exact le_trans (le_max_left _ _) (le_add_of_nonneg_right (causal c))

/-- The search looks around from `current`, which was settled last. -/
structure LooksFrom (settled : Ref n → Prop) (s : Search n) (current : Ref n) : Prop where
  here : settled current
  flags : ∀ c, settled (some c) ↔ (s.work (some c)).visited = true ∨ some c = current
  last : ∀ x, settled x → (s.work x).arrivalTime ≤ (s.work current).arrivalTime

theorem Labels.keep (causal : Causal g.plan) (ready : Ready g root w)
    {current : Ref n} {c : Fin n} (h : Labels g root destination w settled waiting s paths)
    (looks : LooksFrom settled s current)
    (idle : ignores g s.work current c = true ∨ ignores g s.work current c = false ∧
      (s.work (some c)).arrivalTime < arrvlTime g s.work current c) :
    Labels g root destination w settled (fun x d => waiting x d ∧ ¬ (x = current ∧ d = c)) s
      paths := by
  refine { h with relaxed := fun x d hx hwait hd => ?_ }
  by_cases hlook : x = current ∧ d = c
  case neg => exact h.relaxed x d hx (fun hw => hwait ⟨hw, hlook⟩) hd
  obtain ⟨rfl, rfl⟩ := hlook
  have hstop := h.atStop hx
  have hne := hstop.ne_root ready hd
  obtain hignored | ⟨-, hlt⟩ := idle
  · -- Of all the tests only the one for visited contacts can have fired.
    have hvisited : (s.work (some d)).visited = true := by
      refine Classical.byContradiction fun hvisited => ?_
      refine absurd (ignores_eq_false.mpr ⟨?_, ?_, ?_, hd.new, hd.time, hd.volume, ?_⟩)
        (by rw [hignored]; exact Bool.noConfusion)
      · rw [(h.frame x).2]
        exact hd.allowed
      · rw [(h.frame (some d)).1]
        exact hd.free
      · simpa using hvisited
      · rintro ⟨hback, -⟩
        exact hd.new (hback ▸ h.back_seen ready hx)
    have hsettled := (looks.flags d).mpr (.inl hvisited)
    obtain heq | ⟨c', p, heq, hlabelled⟩ := h.settledLabel (some d) hsettled
    · exact absurd heq hne
    · cases heq
      refine .inl ⟨p, hlabelled, le_trans (looks.last (some d) hsettled) ?_⟩
      rw [← arrvlTime_eq]
      exact le_arrvlTime causal x d
  · cases hpred : (s.work (some d)).predecessor with
    | none =>
        rw [h.unlabelled d hne hpred, arrvlTime_eq] at hlt
        exact .inr (le_of_lt hlt)
    | some p =>
        refine .inl ⟨p, ⟨hne, hpred⟩, ?_⟩
        rw [← arrvlTime_eq]
        exact le_of_lt hlt

theorem relaxable_of_not_ignored {x : Ref n} {c : Fin n}
    (h : Labels g root destination w settled waiting s paths)
    (hfrm : (g.plan c).frm = (g.contact x).toNode) (hlook : ignores g s.work x c = false) :
    Relaxable g w s x c := by
  obtain ⟨hallowed, hfree, -, hnew, htime, hvolume, -⟩ := ignores_eq_false.mp hlook
  exact ⟨hfrm, hnew, hvolume, htime, by rwa [(h.frame (some c)).1] at hfree,
    by rwa [(h.frame x).2] at hallowed⟩

theorem unsettled_of_not_ignored (ready : Ready g root w) {current : Ref n}
    {c : Fin n} (h : Labels g root destination w settled waiting s paths)
    (looks : LooksFrom settled s current) (hlook : ignores g s.work current c = false) :
    ¬ settled (some c) := by
  obtain ⟨-, -, hvisited, hnew, -⟩ := ignores_eq_false.mp hlook
  intro hsettled
  rcases (looks.flags c).mp hsettled with hv | rfl
  · rw [hvisited] at hv
    cases hv
  · exact hnew ((h.atStop looks.here).node_seen ready)

def extendPaths (paths : Ref n → List (Fin n)) (x : Ref n) (c : Fin n) : Ref n → List (Fin n) :=
  fun y => if y = some c then paths x ++ [c] else paths y

theorem extendPaths_self {x : Ref n} {c : Fin n} :
    extendPaths paths x c (some c) = paths x ++ [c] :=
  if_pos rfl

theorem extendPaths_of_ne {x y : Ref n} {c : Fin n} (h : y ≠ some c) :
    extendPaths paths x c y = paths y := if_neg h

section Improve

variable {s' : Search n} {current : Ref n} {c : Fin n}

theorem Labels.newLabel (h : Labels g root destination w settled waiting s paths)
    (hx : settled current) (unsettled : ¬ settled (some c))
    (hfrm : (g.plan c).frm = (g.contact current).toNode)
    (himp : Improves destination g s s' current c) :
    Label g root w settled s' (extendPaths paths current c) c current := by
  have hrelax := relaxable_of_not_ignored h hfrm himp.look
  have hstop := h.atStop hx
  have hxc : current ≠ some c := fun hxc => unsettled (hxc ▸ hx)
  have htrip := hstop.ride_trip hrelax
  have hpath : extendPaths paths current c (some c) = paths current ++ [c] := extendPaths_self
  refine ⟨hx, ?_, ?_, ?_, ?_, ?_, ?_⟩
  · rw [hpath, extendPaths_of_ne hxc]
  · rw [hpath]
    exact htrip
  · rw [hpath, hstop.ride_time, himp.self]
  · rw [himp.self, hpath, Stop.after_append, hstop.seen]
    rfl
  · intro d hd
    rw [hpath] at hd
    rcases List.mem_append.mp hd with hd | hd
    · exact hstop.free d hd
    · cases List.mem_singleton.mp hd
      exact hrelax.free
  · intro d hd
    rw [hpath] at hd
    obtain rfl | ⟨c', p, rfl, hlabelled⟩ := h.settledLabel current hx
    · rw [h.rootPath] at hd
      cases hd
      exact hrelax.allowed
    · refine hstop.first d ?_
      rw [(h.label c' p hlabelled).path] at hd ⊢
      simpa [List.head?_append] using hd

theorem Improves.labelled (himp : Improves destination g s s' current c) {d : Fin n} {p : Ref n} :
    Labelled root s' d p ↔
      d = c ∧ some c ≠ root ∧ p = current ∨ d ≠ c ∧ Labelled root s d p := by
  by_cases hd : d = c
  · subst hd
    simp [Labelled, himp.self, eq_comm]
  · simp [Labelled, himp.other (some d) (by simpa using hd), hd]

theorem Label.keep {d : Fin n} {p : Ref n} (hlabel : Label g root w settled s paths d p)
    (himp : Improves destination g s s' current c) (unsettled : ¬ settled (some c)) (hdc : d ≠ c) :
    Label g root w settled s' (extendPaths paths current c) d p := by
  have hd : some d ≠ some c := by simpa using hdc
  have hp : p ≠ some c := fun hpc => unsettled (hpc ▸ hlabel.settled)
  have hpath : extendPaths paths current c (some d) = paths (some d) := extendPaths_of_ne hd
  refine ⟨hlabel.settled, ?_, ?_, ?_, ?_, ?_, ?_⟩
  · rw [hpath, extendPaths_of_ne hp, hlabel.path]
  · rw [hpath]
    exact hlabel.trip
  · rw [hpath, himp.other _ hd, hlabel.time]
  · rw [hpath, himp.other _ hd, hlabel.seen]
  · rw [hpath]
    exact hlabel.free
  · rw [hpath]
    exact hlabel.first

theorem Improves.labelled_le (himp : Improves destination g s s' current c) (hne : some c ≠ root)
    {d : Fin n} {p : Ref n} {t : Rat} (hp : Labelled root s d p)
    (hle : (s.work (some d)).arrivalTime ≤ t) :
    ∃ p', Labelled root s' d p' ∧ (s'.work (some d)).arrivalTime ≤ t := by
  by_cases hdc : d = c
  · subst hdc
    refine ⟨current, himp.labelled.mpr (.inl ⟨rfl, hne, rfl⟩), ?_⟩
    rw [himp.self]
    exact le_trans himp.le hle
  · refine ⟨p, himp.labelled.mpr (.inr ⟨hdc, hp⟩), ?_⟩
    rwa [himp.other (some d) (by simpa using hdc)]

theorem Relaxable.of_work {x : Ref n} {d : Fin n} (hd : Relaxable g w s' x d)
    (same : s'.work x = s.work x) : Relaxable g w s x d :=
  ⟨hd.frm, same ▸ hd.new, hd.volume, same ▸ hd.time, hd.free, hd.allowed⟩

theorem Improves.final_le (himp : Improves destination g s s' current c) :
    s'.earliestFinArrT ≤ s.earliestFinArrT := by
  obtain ⟨-, hlt, -, ht⟩ | ⟨-, -, ht⟩ := himp.final
  · rw [ht]
    exact le_of_lt hlt
  · rw [ht]

theorem Improves.final_goal (himp : Improves destination g s s' current c)
    (hdest : (g.plan c).toNode = destination) :
    s'.earliestFinArrT ≤ arrvlTime g s.work current c := by
  obtain ⟨-, -, -, ht⟩ | ⟨hnot, -, ht⟩ := himp.final
  · rw [ht]
  · rw [ht]
    exact not_lt.mp fun hlt => hnot ⟨hdest, hlt⟩

theorem Labels.earliest_le (h : Labels g root destination w settled waiting s paths) :
    s.earliestFinArrT ≤ sysMaxsize := by
  cases hf : s.finalContact with
  | none => exact le_of_eq (h.noFinal hf)
  | some f => exact le_of_lt (h.final f hf).2.2.2

theorem Labels.improve_final (h : Labels g root destination w settled waiting s paths)
    (himp : Improves destination g s s' current c) (hne : some c ≠ root) {f : Fin n}
    (hf : s'.finalContact = some f) : (∃ p, Labelled root s' f p) ∧
      (g.plan f).toNode = destination ∧ (s'.work (some f)).arrivalTime = s'.earliestFinArrT ∧
      s'.earliestFinArrT < sysMaxsize := by
  obtain ⟨hdest, hlt, hc, ht⟩ | ⟨hnot, hc, ht⟩ := himp.final
  · cases hf.symm.trans hc
    exact ⟨⟨current, himp.labelled.mpr (.inl ⟨rfl, hne, rfl⟩)⟩, hdest, by rw [himp.self, ht],
      ht ▸ lt_of_lt_of_le hlt h.earliest_le⟩
  · obtain ⟨⟨p, hp⟩, hdest, htime, hbound⟩ := h.final f (hc ▸ hf)
    by_cases hfc : f = c
    · -- The label of the best contact was replaced by one that is equally good.
      subst hfc
      refine ⟨⟨current, himp.labelled.mpr (.inl ⟨rfl, hne, rfl⟩)⟩, hdest, ?_, ht ▸ hbound⟩
      rw [himp.self, ht]
      exact le_antisymm (htime ▸ himp.le) (not_lt.mp fun hlt => hnot ⟨hdest, hlt⟩)
    · refine ⟨⟨p, himp.labelled.mpr (.inr ⟨hfc, hp⟩)⟩, hdest, ?_, ht ▸ hbound⟩
      rw [himp.other (some f) (by simpa using hfc), ht, htime]

/-- A look that gives a new label keeps the invariant. -/
theorem Labels.improve (causal : Causal g.plan) (ready : Ready g root w)
    (h : Labels g root destination w settled waiting s paths)
    (looks : LooksFrom settled s current) (hfrm : (g.plan c).frm = (g.contact current).toNode)
    (himp : Improves destination g s s' current c) :
    Labels g root destination w settled (fun x d => waiting x d ∧ ¬ (x = current ∧ d = c)) s'
      (extendPaths paths current c) := by
  have unsettled := unsettled_of_not_ignored ready h looks himp.look
  have hrelax := relaxable_of_not_ignored h hfrm himp.look
  have hne := (h.atStop looks.here).ne_root ready hrelax
  have apart {x : Ref n} (hx : settled x) : x ≠ some c := fun hxc => unsettled (hxc ▸ hx)
  have hwork {x : Ref n} (hx : settled x) : s'.work x = s.work x := himp.other x (apart hx)
  have hother {d : Fin n} (hd : d ≠ c) : s'.work (some d) = s.work (some d) :=
    himp.other (some d) (by simpa using hd)
  refine ⟨fun x => ?_, ?_, ?_, fun x hx => ?_, fun d hd hpred => ?_, fun d p hd => ?_,
    fun x d p hx hd hdp => ?_, fun x d hx hwait hd => ?_, fun d p hd hdest => ?_, fun hf => ?_,
    fun f hf => h.improve_final himp hne hf⟩
  · by_cases hx : x = some c
    · subst hx
      rw [himp.self]
      exact h.frame (some c)
    · rw [himp.other x hx]
      exact h.frame x
  · rw [himp.other root hne.symm]
    exact h.rootArea
  · rw [extendPaths_of_ne hne.symm]
    exact h.rootPath
  · obtain hroot | ⟨d, p, rfl, hd⟩ := h.settledLabel x hx
    · exact .inl hroot
    · have hdc : d ≠ c := fun hdc => apart hx (hdc ▸ rfl)
      exact .inr ⟨d, p, rfl, himp.labelled.mpr (.inr ⟨hdc, hd⟩)⟩
  · by_cases hdc : d = c
    · subst hdc
      rw [himp.self] at hpred
      cases hpred
    · rw [hother hdc] at hpred ⊢
      exact h.unlabelled d hd hpred
  · obtain ⟨rfl, -, rfl⟩ | ⟨hdc, hd⟩ := himp.labelled.mp hd
    · exact h.newLabel looks.here unsettled hfrm himp
    · exact (h.label d p hd).keep himp unsettled hdc
  · rw [hwork hx]
    obtain ⟨rfl, -, rfl⟩ | ⟨hdc, hd'⟩ := himp.labelled.mp hdp
    · rw [himp.self]
      exact le_trans (looks.last x hx) (le_arrvlTime causal p d)
    · rw [hother hdc]
      exact h.order x d p hx hd hd'
  · rw [hwork hx]
    by_cases hlook : x = current ∧ d = c
    · obtain ⟨rfl, rfl⟩ := hlook
      refine .inl ⟨x, himp.labelled.mpr (.inl ⟨rfl, hne, rfl⟩), ?_⟩
      rw [himp.self, ← arrvlTime_eq]
    · have hold := h.relaxed x d hx (fun hw => hwait ⟨hw, hlook⟩) (hd.of_work (hwork hx))
      exact hold.imp_left fun ⟨p, hp, hle⟩ => himp.labelled_le hne hp hle
  · obtain ⟨rfl, -, rfl⟩ | ⟨hdc, hd⟩ := himp.labelled.mp hd
    · rw [himp.self]
      exact himp.final_goal hdest
    · rw [hother hdc]
      exact le_trans himp.final_le (h.finals d p hd hdest)
  · obtain ⟨-, -, hc, -⟩ | ⟨-, hc, ht⟩ := himp.final
    · cases hf.symm.trans hc
    · rw [ht]
      exact h.noFinal (hc ▸ hf)

end Improve
end
end LwipDtn.Cgr
