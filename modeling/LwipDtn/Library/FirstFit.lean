import Mathlib.Algebra.BigOperators.Group.List.Basic
import Mathlib.Data.List.Chain
import Mathlib.Tactic.Ring

/-!
A memory that is cut into pieces, given out first-fit and joined again when pieces come
back. An address is the extent of the pieces before a piece. Nothing here knows how the
pieces are found.
-/

namespace FirstFit

/-- A piece with its whole length, and whether it is given out. -/
structure Piece where
  size : Nat
  used : Bool

def extent (l : List Piece) : Nat := (l.map Piece.size).sum

@[simp] theorem extent_nil : extent [] = 0 := rfl

@[simp] theorem extent_cons (p : Piece) (l : List Piece) : extent (p :: l) = p.size + extent l := by
  rw [extent, List.map_cons, List.sum_cons, extent]

@[simp] theorem extent_append (a b : List Piece) : extent (a ++ b) = extent a + extent b := by
  rw [extent, List.map_append, List.sum_append, extent, extent]

@[simp] theorem extent_reverse (l : List Piece) : extent l.reverse = extent l := by
  rw [extent, List.map_reverse, List.sum_reverse, extent]

theorem extent_le_of_mem {p : Piece} {l : List Piece} (h : p ∈ l) : p.size ≤ extent l := by
  obtain ⟨a, b, rfl⟩ := List.append_of_mem h
  rw [extent_append, extent_cons]
  omega

theorem length_le_extent {l : List Piece} (h : ∀ p ∈ l, 0 < p.size) : l.length ≤ extent l := by
  induction l with
  | nil => exact Nat.le_refl _
  | cons p l ih =>
      have hp := h p List.mem_cons_self
      have hl := ih fun q hq => h q (List.mem_cons_of_mem _ hq)
      rw [extent_cons, List.length_cons]
      omega

/-- Two neighbours are not both free. -/
def Coalesced (l : List Piece) : Prop := l.IsChain fun p q => p.used = true ∨ q.used = true

theorem Coalesced.reverse {l : List Piece} (h : Coalesced l) : Coalesced l.reverse := by
  rw [Coalesced, List.isChain_reverse]
  exact h.imp fun _ _ => Or.symm

/-! The pieces that are given out. -/

def inUse : Nat → List Piece → List (Nat × Nat)
  | _, [] => []
  | base, p :: l =>
      if p.used then (base, p.size) :: inUse (base + p.size) l else inUse (base + p.size) l

@[simp] theorem inUse_used (base size : Nat) (l : List Piece) :
    inUse base (⟨size, true⟩ :: l) = (base, size) :: inUse (base + size) l := rfl

@[simp] theorem inUse_free (base size : Nat) (l : List Piece) :
    inUse base (⟨size, false⟩ :: l) = inUse (base + size) l := rfl

theorem inUse_append (base : Nat) (a b : List Piece) :
    inUse base (a ++ b) = inUse base a ++ inUse (base + extent a) b := by
  induction a generalizing base with
  | nil => rfl
  | cons p a ih =>
      obtain ⟨size, used⟩ := p
      cases used with
      | false => rw [List.cons_append, inUse_free, inUse_free, ih, extent_cons, Nat.add_assoc]
      | true =>
          rw [List.cons_append, inUse_used, inUse_used, ih, extent_cons, Nat.add_assoc,
            List.cons_append]

theorem inUse_within {base : Nat} {l : List Piece} {x : Nat × Nat} (h : x ∈ inUse base l) :
    base ≤ x.1 ∧ x.1 + x.2 ≤ base + extent l := by
  induction l generalizing base with
  | nil => cases h
  | cons p l ih =>
      obtain ⟨size, used⟩ := p
      rw [extent_cons]
      cases used with
      | false =>
          have := ih h
          omega
      | true =>
          rcases List.mem_cons.mp h with rfl | h
          · exact ⟨Nat.le_refl _, by omega⟩
          · have := ih h
            omega

theorem exists_of_mem_inUse {base : Nat} {l : List Piece} {x : Nat × Nat} (h : x ∈ inUse base l) :
    ∃ a b, l = a ++ ⟨x.2, true⟩ :: b ∧ x.1 = base + extent a := by
  induction l generalizing base with
  | nil => cases h
  | cons p l ih =>
      obtain ⟨size, used⟩ := p
      cases used with
      | false =>
          obtain ⟨a, b, rfl, hx⟩ := ih h
          exact ⟨⟨size, false⟩ :: a, b, rfl, by rw [hx, extent_cons, Nat.add_assoc]⟩
      | true =>
          rcases List.mem_cons.mp h with rfl | h
          · exact ⟨[], l, rfl, rfl⟩
          · obtain ⟨a, b, rfl, hx⟩ := ih h
            exact ⟨⟨size, true⟩ :: a, b, rfl, by rw [hx, extent_cons, Nat.add_assoc]⟩

theorem inUse_pairwise (base : Nat) (l : List Piece) :
    (inUse base l).Pairwise fun x y => x.1 + x.2 ≤ y.1 := by
  induction l generalizing base with
  | nil => exact .nil
  | cons p l ih =>
      obtain ⟨size, used⟩ := p
      cases used with
      | false => exact ih (base + size)
      | true => exact .cons (fun y hy => (inUse_within hy).1) (ih (base + size))

/-! Giving out. -/

/-- What a free piece becomes: the rest is a piece of its own if it is large enough. -/
def taken (least need size : Nat) : List Piece :=
  if need + least ≤ size then [⟨need, true⟩, ⟨size - need, false⟩] else [⟨size, true⟩]

def Full (need : Nat) (l : List Piece) : Prop := ∀ p ∈ l, p.used = true ∨ p.size < need

/-- The first free piece that is large enough is given out, at its address. -/
inductive Takes (least need : Nat) : List Piece → Nat → List Piece → Prop where
  | first {a b : List Piece} {size : Nat} (fits : need ≤ size) (none : Full need a) :
      Takes least need (a ++ ⟨size, false⟩ :: b) (extent a) (a ++ (taken least need size ++ b))

variable {least need size x : Nat} {l l' : List Piece}

theorem extent_taken (fits : need ≤ size) : extent (taken least need size) = size := by
  rw [taken]
  split
  · simp only [extent_cons, extent_nil]
    omega
  · rfl

theorem Takes.extent_eq (h : Takes least need l x l') : extent l' = extent l := by
  obtain @⟨a, b, size, fits, -⟩ := h
  rw [extent_append, extent_append, extent_taken fits, extent_append, extent_cons]

theorem Takes.coalesced (h : Takes least need l x l') (hl : Coalesced l) : Coalesced l' := by
  obtain @⟨a, b, size, -, -⟩ := h
  obtain ⟨ha, hb⟩ := List.isChain_split.mp hl
  obtain ⟨ha, -, -⟩ := List.isChain_append.mp ha
  -- the free piece has a used one behind it
  obtain ⟨hnext, hb⟩ := List.isChain_cons.mp hb
  rw [taken]
  split
  · refine List.isChain_append.mpr ⟨ha, ?_, fun p _ q hq => .inr ?_⟩
    · refine .cons_cons (.inl rfl) (List.isChain_cons.mpr ⟨fun q hq => ?_, hb⟩)
      exact .inr ((hnext q hq).resolve_left Bool.false_ne_true)
    · cases hq
      rfl
  · refine List.isChain_append.mpr ⟨ha, List.isChain_cons.mpr ⟨fun _ _ => .inl rfl, hb⟩,
      fun p _ q hq => .inr ?_⟩
    cases hq
    rfl

/-- One piece more is in use, as long as it has to be and hardly longer. -/
theorem Takes.inUse_eq (h : Takes least need l x l') (pos : 0 < least) :
    ∃ u v s, inUse 0 l = u ++ v ∧ inUse 0 l' = u ++ (x, s) :: v ∧ need ≤ s ∧ s < need + least := by
  obtain @⟨a, b, size, fits, -⟩ := h
  rw [inUse_append, inUse_append, inUse_free, Nat.zero_add, taken]
  split
  · refine ⟨_, _, need, rfl, ?_, Nat.le_refl _, Nat.lt_add_of_pos_right pos⟩
    rw [List.cons_append, List.cons_append, List.nil_append, inUse_used, inUse_free,
      Nat.add_assoc, Nat.add_sub_cancel' fits]
  · rename_i hshort
    exact ⟨_, _, size, rfl, rfl, fits, Nat.not_le.mp hshort⟩

/-! Taking back. -/

/-- A free piece together with a free one beside it. -/
def swallow (size : Nat) : List Piece → Nat × List Piece
  | ⟨t, false⟩ :: l => (size + t, l)
  | l => (size, l)

theorem swallow_free (size t : Nat) (l : List Piece) :
    swallow size (⟨t, false⟩ :: l) = (size + t, l) := rfl

theorem swallow_used (size t : Nat) (l : List Piece) :
    swallow size (⟨t, true⟩ :: l) = (size, ⟨t, true⟩ :: l) := rfl

/-- A piece that comes back, between the pieces before and after it. -/
def rejoin (a : List Piece) (size : Nat) (b : List Piece) : List Piece :=
  (swallow (swallow size b).1 a.reverse).2.reverse ++
    ⟨(swallow (swallow size b).1 a.reverse).1, false⟩ :: (swallow size b).2

inductive Gives : List Piece → Nat → List Piece → Prop where
  | back (a b : List Piece) (size : Nat) :
      Gives (a ++ ⟨size, true⟩ :: b) (extent a) (rejoin a size b)

theorem extent_swallow (size : Nat) (l : List Piece) :
    (swallow size l).1 + extent (swallow size l).2 = size + extent l := by
  rcases l with - | ⟨⟨t, - | -⟩, l⟩
  · rfl
  · rw [swallow_free, extent_cons, Nat.add_assoc]
  · rfl

theorem coalesced_swallow (size : Nat) (h : Coalesced l) :
    Coalesced (⟨(swallow size l).1, false⟩ :: (swallow size l).2) := by
  rcases l with - | ⟨⟨t, - | -⟩, l⟩
  · exact .singleton _
  · obtain ⟨hnext, hl⟩ := List.isChain_cons.mp h
    exact List.isChain_cons.mpr
      ⟨fun q hq => .inr ((hnext q hq).resolve_left Bool.false_ne_true), hl⟩
  · exact .cons_cons (.inr rfl) h

theorem inUse_swallow (base size : Nat) (l : List Piece) :
    inUse (base + (swallow size l).1) (swallow size l).2 = inUse (base + size) l := by
  rcases l with - | ⟨⟨t, - | -⟩, l⟩
  · rfl
  · rw [swallow_free, inUse_free, Nat.add_assoc]
  · rfl

theorem inUse_swallow_reverse (base size : Nat) (l : List Piece) :
    inUse base (swallow size l).2.reverse = inUse base l.reverse := by
  rcases l with - | ⟨⟨t, - | -⟩, l⟩
  · rfl
  · rw [swallow_free, List.reverse_cons, inUse_append, inUse_free]
    exact (List.append_nil _).symm
  · rfl

theorem Gives.coalesced (h : Gives l x l') (hl : Coalesced l) : Coalesced l' := by
  obtain ⟨a, b, size⟩ := h
  obtain ⟨ha, hb⟩ := List.isChain_split.mp hl
  obtain ⟨ha, -, -⟩ := List.isChain_append.mp ha
  have hnext := coalesced_swallow size (List.isChain_cons.mp hb).2
  have hprev := coalesced_swallow (swallow size b).1 (Coalesced.reverse ha)
  have hprev := hprev.reverse
  rw [List.reverse_cons] at hprev
  refine List.isChain_split.mpr ⟨hprev, ?_⟩
  obtain ⟨hused, hb⟩ := List.isChain_cons.mp hnext
  exact List.isChain_cons.mpr
    ⟨fun q hq => .inr ((hused q hq).resolve_left Bool.false_ne_true), hb⟩

theorem inUse_rejoin (a b : List Piece) (size : Nat) :
    inUse 0 (rejoin a size b) = inUse 0 a ++ inUse (extent a + size) b := by
  have hprev := extent_swallow (swallow size b).1 a.reverse
  rw [extent_reverse] at hprev
  rw [rejoin, inUse_append, inUse_swallow_reverse, List.reverse_reverse, inUse_free,
    extent_reverse, Nat.zero_add, Nat.add_comm, hprev, Nat.add_comm, inUse_swallow]

/-! The lengths of the pieces. -/

/-- Every piece has at least the least length, and a whole number of units. -/
def Sized (least unit : Nat) (l : List Piece) : Prop := ∀ p ∈ l, least ≤ p.size ∧ unit ∣ p.size

variable {unit : Nat}

theorem Sized.append {a b : List Piece} :
    Sized least unit (a ++ b) ↔ Sized least unit a ∧ Sized least unit b :=
  List.forall_mem_append

theorem Sized.cons {p : Piece} :
    Sized least unit (p :: l) ↔ (least ≤ p.size ∧ unit ∣ p.size) ∧ Sized least unit l :=
  List.forall_mem_cons

theorem Sized.dvd_extent (h : Sized least unit l) : unit ∣ extent l := by
  induction l with
  | nil => exact Nat.dvd_zero _
  | cons p l ih =>
      rw [extent_cons]
      exact Nat.dvd_add (Sized.cons.mp h).1.2 (ih (Sized.cons.mp h).2)

theorem Takes.sized (h : Takes least need l x l') (hl : Sized least unit l) (le : least ≤ need)
    (whole : unit ∣ need) : Sized least unit l' := by
  obtain @⟨a, b, size, fits, -⟩ := h
  obtain ⟨ha, hb⟩ := Sized.append.mp hl
  obtain ⟨hp, hb⟩ := Sized.cons.mp hb
  refine Sized.append.mpr ⟨ha, Sized.append.mpr ⟨?_, hb⟩⟩
  rw [taken]
  split
  · refine Sized.cons.mpr
      ⟨⟨le, whole⟩, Sized.cons.mpr ⟨⟨?_, Nat.dvd_sub hp.2 whole⟩, List.forall_mem_nil _⟩⟩
    dsimp only
    omega
  · exact Sized.cons.mpr ⟨hp, List.forall_mem_nil _⟩

/-! How large a request is certain to be met. -/

def UsedFirst (l : List Piece) : Prop := ∀ p ∈ l.head?, p.used = true

/-- Between the pieces in use there is at most one free piece each. -/
theorem Full.bound (full : Full (need + 1) l) (hl : Coalesced l) (base : Nat) :
    extent l ≤ ((inUse base l).map Prod.snd).sum + ((inUse base l).length + 1) * need ∧
      (UsedFirst l →
        extent l ≤ ((inUse base l).map Prod.snd).sum + (inUse base l).length * need) := by
  induction l generalizing base with
  | nil => exact ⟨Nat.zero_le _, fun _ => Nat.zero_le _⟩
  | cons p l ih =>
      obtain ⟨size, used⟩ := p
      obtain ⟨hnext, hl⟩ := List.isChain_cons.mp hl
      obtain ⟨hall, hused⟩ := ih (fun q hq => full q (List.mem_cons_of_mem _ hq)) hl (base + size)
      cases used with
      | false =>
          have hsize := (full _ List.mem_cons_self).resolve_left Bool.false_ne_true
          have hrest := hused fun q hq => (hnext q hq).resolve_left Bool.false_ne_true
          rw [extent_cons, inUse_free]
          refine ⟨?_, fun h => absurd (h _ rfl) Bool.false_ne_true⟩
          rw [Nat.add_mul, Nat.one_mul]
          dsimp only at hsize ⊢
          omega
      | true =>
          rw [extent_cons, inUse_used, List.map_cons, List.sum_cons, List.length_cons]
          have hmore := Nat.add_mul ((inUse (base + size) l).length + 1) 1 need
          constructor <;> intros <;> dsimp only <;> omega

end FirstFit
