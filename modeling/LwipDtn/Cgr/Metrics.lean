import LwipDtn.Cgr.Route
import LwipDtn.Library.RunningMin

/-!
The metrics of a route in closed form. `refresh_metrics` computes the delivery time twice,
once as a running maximum and once hop by hop, and the volume by a loop inside a loop. For
different contacts both delivery times agree, every minimum is the one it stands for, and
no metric improves when a contact is appended.
-/

namespace LwipDtn.Cgr
open RunningMin

/-- What the second loop of `refresh_metrics` assigns to a contact. -/
structure HopMetrics where
  firstByteTxTime : ℚ
  lastByteTxTime : ℚ
  lastByteArrTime : ℚ
  effectiveVolumeLimit : ℚ

section

variable {n : Nat} (g : Contacts n)

/-- The second loop, with the successors of a contact from where `index` finds it. -/
def refreshHops (hops : List (Ref n)) : ℚ → List (Ref n) → List HopMetrics
  | _, [] => []
  | prevLastByteArrTime, h :: rest =>
      let c := g.contact h
      let firstByteTxTime :=
        if hops.head? = some h then c.start else max c.start prevLastByteArrTime
      let lastByteTxTime := firstByteTxTime + 0
      let lastByteArrTime := lastByteTxTime + c.owlt
      let effectiveStopTime := min c.stop (minSuccStopTime g (hops.drop (hops.idxOf h)))
      let effectiveVolumeLimit := min ((effectiveStopTime - firstByteTxTime) * c.rate) c.volume
      ⟨firstByteTxTime, lastByteTxTime, lastByteArrTime, effectiveVolumeLimit⟩ ::
        refreshHops hops lastByteArrTime rest

/-- The fields of the contacts after `refresh_metrics`. -/
def hopMetrics (hops : List (Ref n)) : List HopMetrics := refreshHops g hops 0 hops

/-- The contact starts at zero or later, has no negative delay or rate, and ends below
`sys.maxsize`, as does its volume. -/
structure HopBounds (c : Contact) : Prop where
  start : 0 ≤ c.start
  owlt : 0 ≤ c.owlt
  rate : 0 ≤ c.rate
  stop : c.stop < sysMaxsize
  volume : c.volume < sysMaxsize

def stops (hops : List (Ref n)) : Set ℚ := {t | ∃ h ∈ hops, (g.contact h).stop = t}

/-- The volume that the contact at a position can carry until the first end of a contact
from there on. -/
def HopVolume (hops : List (Ref n)) (i : Nat) (v : ℚ) : Prop :=
  ∃ h m stop, hops[i]? = some h ∧ (hopMetrics g hops)[i]? = some m ∧
    IsLeast (stops g (hops.drop i)) stop ∧
    v = min ((g.contact h).rate * (stop - m.firstByteTxTime)) (g.contact h).volume

end

section

variable {n : Nat} {g : Contacts n} {hops before rest : List (Ref n)} {h : Ref n} {prev : ℚ}

theorem lt_minSuccStopTime (t : ℚ) (hops : List (Ref n)) :
    t < minSuccStopTime g hops ↔ t < sysMaxsize ∧ ∀ h ∈ hops, t < (g.contact h).stop :=
  lt_runningMin

theorem successors_split (distinct : (before ++ h :: rest).Nodup) :
    (before ++ h :: rest).drop ((before ++ h :: rest).idxOf h) = h :: rest := by
  have hnot : h ∉ before := fun hmem =>
    (List.nodup_append.mp distinct).2.2 h hmem h List.mem_cons_self rfl
  rw [List.idxOf_append_of_notMem hnot, List.idxOf_cons_self, Nat.add_zero, List.drop_left]

theorem isLeast_minSuccStopTime (bounded : ∀ h ∈ hops, (g.contact h).stop < sysMaxsize)
    (nonempty : hops ≠ []) : IsLeast (stops g hops) (minSuccStopTime g hops) := by
  obtain ⟨h, hmem⟩ := List.exists_mem_of_ne_nil hops nonempty
  exact isLeast_runningMin ⟨h, hmem, (bounded h hmem).le⟩

theorem minEffectiveVolumeLimit_cons {first : Ref n} {limit : ℚ} :
    minEffectiveVolumeLimit g first prev limit (h :: rest) =
      let firstByteTxTime := if h = first then (g.contact h).start else max (g.contact h).start prev
      minEffectiveVolumeLimit g first (firstByteTxTime + (g.contact h).owlt)
        (min (min ((min (g.contact h).stop (minSuccStopTime g (h :: rest)) - firstByteTxTime) *
          (g.contact h).rate) (g.contact h).volume) limit) rest := by
  rw [minEffectiveVolumeLimit, ← min_def_lt]

/-- The loop of the model is the loop over the metrics of the hops. -/
theorem minEffectiveVolumeLimit_eq {first : Ref n} {limit : ℚ} (hhead : hops.head? = some first)
    (distinct : hops.Nodup) (hsplit : hops = before ++ rest) :
    minEffectiveVolumeLimit g first prev limit rest =
      runningMin HopMetrics.effectiveVolumeLimit limit (refreshHops g hops prev rest) := by
  induction rest generalizing before prev limit with
  | nil => rfl
  | cons h rest ih =>
      have hsucc : hops.drop (hops.idxOf h) = h :: rest := by
        rw [hsplit]
        exact successors_split (hsplit ▸ distinct)
      have hfirst : (hops.head? = some h) = (h = first) := by
        rw [hhead, Option.some.injEq]
        exact propext eq_comm
      rw [minEffectiveVolumeLimit_cons, refreshHops]
      simp only [hsucc, hfirst, add_zero, runningMin_cons]
      rw [ih (hsplit.trans (List.append_cons before h rest)), min_comm]

/-- From the second hop on both delivery times follow the same rule. -/
theorem refreshHops_last (later : ∀ h ∈ rest, hops.head? ≠ some h) :
    ((refreshHops g hops prev rest).getLast?.map HopMetrics.lastByteArrTime).getD prev =
      rest.foldl (fun t h =>
        max (t + (g.contact h).owlt) ((g.contact h).start + (g.contact h).owlt))
        prev := by
  induction rest generalizing prev with
  | nil => rfl
  | cons h rest ih =>
      obtain ⟨hother, later⟩ := List.forall_mem_cons.mp later
      rw [List.foldl_cons, max_add_add_right, max_comm, ← ih later, refreshHops, List.getLast?_cons,
        Option.map_some, Option.getD_some, ← Option.getD_map HopMetrics.lastByteArrTime]
      simp only [if_neg hother, add_zero]

theorem bestDeliveryTime_eq (nonempty : hops ≠ []) (distinct : hops.Nodup)
    (start : ∀ h ∈ hops, 0 ≤ (g.contact h).start) :
    ∃ last, (hopMetrics g hops).getLast? = some last ∧
      bestDeliveryTime g hops = last.lastByteArrTime := by
  cases hops with
  | nil => exact absurd rfl nonempty
  | cons first rest =>
      have later : ∀ h ∈ rest, (first :: rest).head? ≠ some h := by
        intro h hmem heq
        cases heq
        exact (List.nodup_cons.mp distinct).1 hmem
      refine ⟨_, by rw [hopMetrics, refreshHops, List.getLast?_cons], ?_⟩
      rw [← Option.getD_map HopMetrics.lastByteArrTime]
      simp only [List.head?_cons, if_true, add_zero]
      rw [refreshHops_last later, bestDeliveryTime, List.foldl_cons, max_add_add_right,
        max_eq_right (start first List.mem_cons_self)]

theorem refreshHops_getElem {i : Nat} {m : HopMetrics} (distinct : hops.Nodup)
    (hsplit : hops = before ++ rest) (hm : (refreshHops g hops prev rest)[i]? = some m) :
    ∃ h, rest[i]? = some h ∧ m.effectiveVolumeLimit =
      min ((min (g.contact h).stop (minSuccStopTime g (rest.drop i)) - m.firstByteTxTime) *
        (g.contact h).rate) (g.contact h).volume := by
  induction rest generalizing before prev i with
  | nil => cases hm
  | cons h rest ih =>
      cases i with
      | zero =>
          have hsucc : hops.drop (hops.idxOf h) = h :: rest := by
            rw [hsplit]
            exact successors_split (hsplit ▸ distinct)
          cases hm
          exact ⟨h, rfl, by simp only [hsucc, List.drop_zero]⟩
      | succ i => exact ih (hsplit.trans (List.append_cons before h rest)) hm

theorem hopMetrics_getElem {i : Nat} {m : HopMetrics} (distinct : hops.Nodup)
    (bounded : ∀ h ∈ hops, (g.contact h).stop < sysMaxsize)
    (hm : (hopMetrics g hops)[i]? = some m) :
    ∃ h stop, hops[i]? = some h ∧ IsLeast (stops g (hops.drop i)) stop ∧
      m.effectiveVolumeLimit =
        min ((g.contact h).rate * (stop - m.firstByteTxTime)) (g.contact h).volume := by
  obtain ⟨h, hh, heq⟩ := refreshHops_getElem distinct (List.nil_append _).symm hm
  have hhere : h ∈ hops.drop i := by
    refine List.mem_of_getElem? (i := 0) ?_
    rw [List.getElem?_drop, Nat.add_zero, hh]
  have hleast := isLeast_minSuccStopTime
    (fun h hmem => bounded h (List.mem_of_mem_drop hmem)) (List.ne_nil_of_mem hhere)
  refine ⟨h, _, hh, hleast, ?_⟩
  rw [heq, min_eq_right (hleast.2 ⟨h, hhere, rfl⟩), mul_comm]

theorem hopVolume_iff (distinct : hops.Nodup)
    (bounded : ∀ h ∈ hops, (g.contact h).stop < sysMaxsize) {v : ℚ} :
    (∃ i, HopVolume g hops i v) ↔ ∃ m ∈ hopMetrics g hops, m.effectiveVolumeLimit = v := by
  constructor
  · rintro ⟨i, h, m, stop, hh, hm, hstop, rfl⟩
    obtain ⟨h', stop', hh', hstop', heq⟩ := hopMetrics_getElem distinct bounded hm
    cases hh.symm.trans hh'
    exact ⟨m, List.mem_of_getElem? hm, hstop.unique hstop' ▸ heq⟩
  · rintro ⟨m, hmem, rfl⟩
    obtain ⟨i, hm⟩ := List.mem_iff_getElem?.mp hmem
    obtain ⟨h, stop, hh, hstop, heq⟩ := hopMetrics_getElem distinct bounded hm
    exact ⟨i, h, m, stop, hh, hm, hstop, heq⟩

end

/-! One contact more. -/

section

variable {n : Nat} {g : Contacts n} {hops : List (Ref n)} {c : Ref n}

theorem bestDeliveryTime_concat (owlt : 0 ≤ (g.contact c).owlt) :
    bestDeliveryTime g hops ≤ bestDeliveryTime g (hops ++ [c]) := by
  rw [bestDeliveryTime, bestDeliveryTime, List.foldl_append]
  exact le_trans (le_add_of_nonneg_right owlt) (le_max_left _ _)

theorem minEffectiveVolumeLimit_concat {first : Ref n} {prev limit limit' : ℚ}
    (rate : ∀ h ∈ hops, 0 ≤ (g.contact h).rate) (hle : limit' ≤ limit) :
    minEffectiveVolumeLimit g first prev limit' (hops ++ [c]) ≤
      minEffectiveVolumeLimit g first prev limit hops := by
  induction hops generalizing prev limit limit' with
  | nil =>
      rw [List.nil_append, minEffectiveVolumeLimit_cons]
      exact le_trans (min_le_right _ _) hle
  | cons h rest ih =>
      obtain ⟨hrate, rate⟩ := List.forall_mem_cons.mp rate
      have hstop : minSuccStopTime g (h :: (rest ++ [c])) ≤ minSuccStopTime g (h :: rest) :=
        runningMin_subset (List.cons_subset_cons h (List.subset_append_left rest [c]))
      rw [List.cons_append, minEffectiveVolumeLimit_cons, minEffectiveVolumeLimit_cons]
      refine ih rate (min_le_min (min_le_min_right _ ?_) hle)
      exact mul_le_mul_of_nonneg_right (sub_le_sub_right (min_le_min_left _ hstop) _) hrate

end

/-- The metrics of a route over different contacts in closed form; appending a contact
improves none of them. -/
theorem route_metrics_consistent {n : Nat} (g : Contacts n) (hops : List (Ref n))
    (visited : List Int) (nonempty : hops ≠ []) (distinct : hops.Nodup)
    (bounds : ∀ h ∈ hops, HopBounds (g.contact h)) :
    ∃ r, refreshMetrics g hops visited = .ok r ∧
      (∃ last, (hopMetrics g hops).getLast? = some last ∧
        r.bestDeliveryTime = last.lastByteArrTime) ∧
      IsLeast (stops g hops) r.toTime ∧
      IsLeast {v | ∃ i, HopVolume g hops i v} r.volume ∧
      ∀ c r', 0 ≤ (g.contact c).owlt → r.append g c = .ok r' →
        r.bestDeliveryTime ≤ r'.bestDeliveryTime ∧ r'.toTime ≤ r.toTime ∧ r'.volume ≤ r.volume := by
  obtain ⟨last, hlast, hbest⟩ := bestDeliveryTime_eq nonempty distinct
    fun h hmem => (bounds h hmem).start
  have bounded : ∀ h ∈ hops, (g.contact h).stop < sysMaxsize := fun h hmem => (bounds h hmem).stop
  obtain ⟨first, rest, rfl⟩ := List.exists_cons_of_ne_nil nonempty
  refine ⟨_, rfl, ⟨last, hlast, hbest⟩, ?_, ?_, fun c r' owlt happend => ?_⟩
  · dsimp only
    rw [foldl_min_eq]
    exact isLeast_minSuccStopTime bounded nonempty
  · have hset : {v | ∃ i, HopVolume g (first :: rest) i v} =
        {v | ∃ m ∈ hopMetrics g (first :: rest), m.effectiveVolumeLimit = v} :=
      Set.ext fun v => hopVolume_iff distinct bounded
    dsimp only
    rw [minEffectiveVolumeLimit_eq rfl distinct (List.nil_append _).symm, hset]
    refine isLeast_runningMin ⟨_, List.mem_cons_self, ?_⟩
    exact le_trans (min_le_right _ _) (bounds first List.mem_cons_self).volume.le
  · rw [Route.append] at happend
    split at happend
    · cases happend
      refine ⟨bestDeliveryTime_concat owlt, ?_, ?_⟩
      · dsimp only
        rw [foldl_min_eq, foldl_min_eq]
        exact runningMin_subset (List.subset_append_left _ _)
      · exact minEffectiveVolumeLimit_concat (fun h hmem => (bounds h hmem).rate) le_rfl
    · cases happend

/-- Two contacts, and a third one behind them that ends before the second does. -/
def threeHops : Contacts 3 where
  plan i := [⟨10, 12, 0, 10, 5, 1, 1⟩, ⟨12, 21, 5, 20, 2, 1, 1⟩, ⟨21, 23, 8, 9, 1, 1, 1⟩][i]
  root := ⟨10, 10, 0, sysMaxsize, 100, 0, 1⟩

theorem route_metrics_consistent_three :
    ∃ r r', refreshMetrics threeHops [some 0, some 1] [10, 12, 12, 21] = .ok r ∧
      r.append threeHops (some 2) = .ok r' ∧ r.bestDeliveryTime ≤ r'.bestDeliveryTime ∧
      r'.toTime ≤ r.toTime ∧ r'.volume ≤ r.volume := by
  have hbounds : ∀ h ∈ [(some 0 : Ref 3), some 1], HopBounds (threeHops.contact h) := by
    simp only [List.forall_mem_cons, List.not_mem_nil, false_implies, implies_true, and_true]
    exact ⟨by constructor <;> decide +kernel, by constructor <;> decide +kernel⟩
  obtain ⟨r, hr, -, -, -, hmono⟩ := route_metrics_consistent threeHops [some 0, some 1]
    [10, 12, 12, 21] (List.cons_ne_nil _ _) (by decide) hbounds
  have happend : ∃ r', r.append threeHops (some 2) = .ok r' := by
    cases hr
    exact ⟨_, if_pos (by decide +kernel)⟩
  obtain ⟨r', hr'⟩ := happend
  exact ⟨r, r', hr, hr', hmono (some 2) r' (by decide +kernel) hr'⟩

end LwipDtn.Cgr
