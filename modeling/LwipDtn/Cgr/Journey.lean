import LwipDtn.Cgr.Route
import Mathlib.Data.Fin.VecNotation
import Mathlib.Data.Fintype.Card
import Mathlib.Tactic.Linarith

/-!
Journeys over a contact plan, independent of any search. A journey boards one contact
after the other, waits for the start of a contact if it is early, never boards a contact
that has ended, and never returns to a node.
-/

namespace LwipDtn.Cgr

variable {n : Nat}

/-- Where a journey has got to: the node, the arrival there, and the nodes seen so far. -/
structure Stop where
  node : Int
  time : ℚ
  seen : List Int

section

variable (plan : Fin n → Contact)

structure Stop.Boards (s : Stop) (c : Fin n) : Prop where
  frm : (plan c).frm = s.node
  new : (plan c).toNode ∉ s.seen
  volume : 0 < (plan c).volume
  time : s.time < (plan c).stop

def Stop.ride (s : Stop) (c : Fin n) : Stop :=
  ⟨(plan c).toNode, max s.time (plan c).start + (plan c).owlt, s.seen ++ [(plan c).toNode]⟩

def Stop.after (s : Stop) (hops : List (Fin n)) : Stop := hops.foldl (Stop.ride plan) s

/-- Every contact can be boarded where the ones before it lead. -/
def Trip : Stop → List (Fin n) → Prop
  | _, [] => True
  | s, c :: rest => s.Boards plan c ∧ Trip (s.ride plan c) rest

def departure (source : Int) (time : ℚ) : Stop := ⟨source, time, [source]⟩

/-- A node-loop-free chain of contacts with positive volume from the source to the
destination, in which each contact ends after the arrival at its start node. -/
def Feasible (source destination : Int) (time : ℚ) (hops : List (Fin n)) : Prop :=
  Trip plan (departure source time) hops ∧
    ((departure source time).after plan hops).node = destination

/-- The arrival over the contacts when departing at the given time. -/
def arrival (time : ℚ) (hops : List (Fin n)) : ℚ :=
  hops.foldl (fun t c => max t (plan c).start + (plan c).owlt) time

def Causal : Prop := ∀ c, 0 ≤ (plan c).owlt

instance : Decidable (Causal plan) := inferInstanceAs (Decidable (∀ c, 0 ≤ (plan c).owlt))

end

variable {plan : Fin n → Contact}

@[simp] theorem Stop.after_nil (s : Stop) : s.after plan [] = s := rfl

@[simp] theorem Stop.after_cons (s : Stop) (c : Fin n) (p : List (Fin n)) :
    s.after plan (c :: p) = (s.ride plan c).after plan p := rfl

@[simp] theorem Stop.after_append (s : Stop) (p q : List (Fin n)) :
    s.after plan (p ++ q) = (s.after plan p).after plan q := List.foldl_append

theorem Stop.after_time (s : Stop) (p : List (Fin n)) :
    (s.after plan p).time = arrival plan s.time p := by
  induction p generalizing s with
  | nil => rfl
  | cons c p ih => exact ih (s.ride plan c)

theorem Stop.after_seen (s : Stop) (p : List (Fin n)) :
    (s.after plan p).seen = s.seen ++ p.map fun c => (plan c).toNode := by
  induction p generalizing s with
  | nil => simp
  | cons c p ih =>
      rw [after_cons, ih]
      simp [ride]

theorem Stop.node_seen {s : Stop} (h : s.node ∈ s.seen) (p : List (Fin n)) :
    (s.after plan p).node ∈ (s.after plan p).seen := by
  induction p generalizing s with
  | nil => exact h
  | cons c p ih => exact ih (by simp [ride])

theorem trip_append {s : Stop} {p q : List (Fin n)} :
    Trip plan s (p ++ q) ↔ Trip plan s p ∧ Trip plan (s.after plan p) q := by
  induction p generalizing s with
  | nil => simp [Trip]
  | cons c p ih => simp only [List.cons_append, Trip, ih, Stop.after_cons, and_assoc]

theorem trip_concat {s : Stop} {p : List (Fin n)} {c : Fin n} :
    Trip plan s (p ++ [c]) ↔ Trip plan s p ∧ (s.after plan p).Boards plan c := by
  rw [trip_append]
  simp [Trip]

theorem Stop.ride_le (causal : Causal plan) (s : Stop) (c : Fin n) :
    s.time ≤ (s.ride plan c).time := by
  have h := causal c
  calc s.time ≤ max s.time (plan c).start := le_max_left _ _
    _ ≤ max s.time (plan c).start + (plan c).owlt := le_add_of_nonneg_right h

theorem Stop.after_le (causal : Causal plan) (s : Stop) (p : List (Fin n)) :
    s.time ≤ (s.after plan p).time := by
  induction p generalizing s with
  | nil => exact le_refl _
  | cons c p ih => exact le_trans (s.ride_le causal c) (ih _)

theorem Trip.new {s : Stop} {p : List (Fin n)} (h : Trip plan s p) {c : Fin n} (hc : c ∈ p) :
    (plan c).toNode ∉ s.seen := by
  induction p generalizing s with
  | nil => cases hc
  | cons d p ih =>
      rcases List.mem_cons.mp hc with rfl | hc
      · exact h.1.new
      · intro hseen
        exact ih h.2 hc (List.mem_append_left _ hseen)

theorem Trip.nodup {s : Stop} {p : List (Fin n)} (h : Trip plan s p) : p.Nodup := by
  induction p generalizing s with
  | nil => exact .nil
  | cons c p ih =>
      refine List.nodup_cons.mpr ⟨fun hc => ?_, ih h.2⟩
      exact h.2.new hc (by simp [Stop.ride])

theorem Trip.seen_nodup {s : Stop} {p : List (Fin n)} (h : Trip plan s p)
    (hs : s.seen.Nodup) : (s.after plan p).seen.Nodup := by
  induction p generalizing s with
  | nil => exact hs
  | cons c p ih =>
      refine ih h.2 (List.nodup_append.mpr ⟨hs, List.nodup_singleton _, fun a ha b hb => ?_⟩)
      cases List.mem_singleton.mp hb
      exact fun heq => h.1.new (heq ▸ ha)

theorem Trip.chained {s : Stop} {p : List (Fin n)} (h : Trip plan s p) :
    p.IsChain fun c d => (plan c).toNode = (plan d).frm := by
  induction p generalizing s with
  | nil => exact .nil
  | cons c p ih =>
      cases p with
      | nil => exact .singleton c
      | cons d p => exact .cons_cons h.2.1.frm.symm (ih h.2)

theorem Trip.length_le {s : Stop} {p : List (Fin n)} (h : Trip plan s p) : p.length ≤ n := by
  have := h.nodup.length_le_card
  rwa [Fintype.card_fin] at this

theorem after_node {s : Stop} {p : List (Fin n)} {c : Fin n} :
    (s.after plan (p ++ [c])).node = (plan c).toNode := by
  simp [Stop.ride]

theorem Trip.node_new {s : Stop} {p : List (Fin n)} (h : Trip plan s p) (moves : p ≠ []) :
    (s.after plan p).node ∉ s.seen := by
  obtain ⟨q, c, rfl⟩ := (List.eq_nil_or_concat' p).resolve_left moves
  rw [after_node]
  exact h.new (by simp)

/-- No feasible chain is the start of another. -/
theorem Feasible.prefix_free {source destination : Int} {time : ℚ} {p q : List (Fin n)}
    (hp : Feasible plan source destination time p)
    (hpq : Feasible plan source destination time (p ++ q)) : q = [] := by
  refine Classical.byContradiction fun moves => ?_
  have hnew := (trip_append.mp hpq.1).2.node_new moves
  rw [← Stop.after_append, hpq.2, ← hp.2] at hnew
  exact hnew (Stop.node_seen (by simp [departure]) p)

theorem Trip.time_lt {s : Stop} {p : List (Fin n)} (h : Trip plan s p) (moves : p ≠ [])
    (hstart : ∀ c, (plan c).start + (plan c).owlt < sysMaxsize)
    (hstop : ∀ c, (plan c).stop + (plan c).owlt < sysMaxsize) :
    (s.after plan p).time < sysMaxsize := by
  obtain rfl | ⟨q, c, rfl⟩ := List.eq_nil_or_concat' p
  · exact absurd rfl moves
  · have htime := (trip_concat.mp h).2.time
    have hlast : (s.after plan (q ++ [c])).time =
        max (s.after plan q).time (plan c).start + (plan c).owlt := by
      rw [Stop.after_append]
      rfl
    rw [hlast]
    rcases max_cases (s.after plan q).time (plan c).start with ⟨hmax, -⟩ | ⟨hmax, -⟩
    · rw [hmax]
      exact lt_trans (add_lt_add_left htime _) (hstop c)
    · rw [hmax]
      exact hstart c

theorem Feasible.arrival_lt {source destination : Int} {time : ℚ} {p : List (Fin n)}
    (h : Feasible plan source destination time p) (hne : destination ≠ source)
    (hstart : ∀ c, (plan c).start + (plan c).owlt < sysMaxsize)
    (hstop : ∀ c, (plan c).stop + (plan c).owlt < sysMaxsize) :
    arrival plan time p < sysMaxsize := by
  have moves : p ≠ [] := by
    rintro rfl
    exact hne h.2.symm
  have hlt := h.1.time_lt moves hstart hstop
  rwa [Stop.after_time] at hlt

/-- A small plan: two hops over node 2, or a later direct contact. -/
def samplePlan : Fin 3 → Contact := ![⟨1, 2, 0, 10, 1, 1, 1⟩, ⟨2, 3, 5, 20, 1, 1, 1⟩,
  ⟨1, 3, 8, 30, 1, 2, 1⟩]

end LwipDtn.Cgr
