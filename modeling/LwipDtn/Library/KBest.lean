import Mathlib.Data.List.Infix
import Mathlib.Data.List.Induction
import Mathlib.Data.List.Perm.Basic
import Mathlib.Data.Finset.Card

/-!
Choosing the words of a prefix-free language in the order of their costs. A word that has
not been chosen leaves the chosen words at a branch. As long as every branch is known to
have a candidate that is no more costly, the cheapest candidate is the cheapest word that
has not been chosen. After a word is chosen only the branches along it are open.
-/

namespace KBest

variable {α β : Type} [LinearOrder β]

def PrefixFree (L : List α → Prop) : Prop := ∀ p q, L p → L (p ++ q) → q = []

/-- The word `r` leaves the chosen words behind `π` with the letter `x`. -/
structure Branch (chosen : List (List α)) (π : List α) (x : α) (r : List α) : Prop where
  word : π ++ [x] <+: r
  shared : ∃ a ∈ chosen, π <+: a
  alone : ∀ a ∈ chosen, ¬ π ++ [x] <+: a

def Leaves (chosen : List (List α)) (π r : List α) : Prop := ∃ x, Branch chosen π x r

/-- The words that leave the chosen words behind `π`. -/
def Deviation (L : List α → Prop) (chosen : List (List α)) (π r : List α) : Prop :=
  L r ∧ ∃ x, Branch chosen π x r

/-- A candidate behind `π` that is no more costly than `r`. -/
def Covered (cost : List α → β) (candidates : List (List α)) (π r : List α) : Prop :=
  ∃ b ∈ candidates, π <+: b ∧ cost b ≤ cost r

/-- The chosen words are the cheapest ones, in order. -/
structure Cheapest (L : List α → Prop) (cost : List α → β) (chosen : List (List α)) : Prop where
  words : ∀ a ∈ chosen, L a
  sorted : chosen.Pairwise (cost · ≤ cost ·)
  least : ∀ a ∈ chosen, ∀ r, L r → r ∉ chosen → cost a ≤ cost r

/-- The state of the choice: every branch that is not open has a candidate. -/
structure Ranked (L : List α → Prop) (cost : List α → β) (openAt : List α → Prop)
    (chosen candidates : List (List α)) : Prop extends Cheapest L cost chosen where
  begun : chosen ≠ []
  sound : ∀ b ∈ candidates, L b
  below : ∀ a ∈ chosen, ∀ b ∈ candidates, cost a ≤ cost b
  covered : ∀ π r, Deviation L chosen π r → openAt π ∨ Covered cost candidates π r

/-- The candidates found behind some of the branches. -/
structure Spurs (L : List α → Prop) (cost : List α → β) (chosen prefixes found : List (List α)) :
    Prop where
  sound : ∀ b ∈ found, ∃ π ∈ prefixes, Deviation L chosen π b
  apart : prefixes.Nodup → found.Pairwise fun b c => ∀ π, Leaves chosen π b → ¬ Leaves chosen π c
  covered : ∀ π ∈ prefixes, ∀ r, Deviation L chosen π r → Covered cost found π r

/-- What one search behind `π` has to find. -/
def Finds (L : List α → Prop) (cost : List α → β) (chosen : List (List α)) (π : List α) :
    Option (List α) → Prop
  | none => ∀ r, ¬ Deviation L chosen π r
  | some b => Deviation L chosen π b ∧ ∀ r, Deviation L chosen π r → cost b ≤ cost r

variable {L : List α → Prop} {cost : List α → β} {openAt : List α → Prop}
  {chosen candidates : List (List α)}

theorem PrefixFree.prefix_eq (free : PrefixFree L) {p r : List α} (hp : L p) (hr : L r)
    (hpr : p <+: r) : p = r := by
  obtain ⟨q, rfl⟩ := hpr
  rw [free p q hp hr, List.append_nil]

/-- A word that has not been chosen leaves the chosen words somewhere. -/
theorem exists_branch (free : PrefixFree L) (words : ∀ a ∈ chosen, L a) (nonempty : chosen ≠ [])
    {r : List α} (hr : L r) (hnew : r ∉ chosen) : ∃ π, Deviation L chosen π r := by
  have hend : ¬ ∃ a ∈ chosen, r <+: a := by
    rintro ⟨a, ha, hra⟩
    exact hnew (free.prefix_eq hr (words a ha) hra ▸ ha)
  -- Some prefix of the word is the last one that is shared with a chosen word.
  have hsplit (q : List α) (hq : q <+: r) (hleft : ¬ ∃ a ∈ chosen, q <+: a) :
      ∃ π x, Branch chosen π x r := by
    induction q using List.reverseRecOn with
    | nil =>
        obtain ⟨a, ha⟩ := List.exists_mem_of_ne_nil chosen nonempty
        exact absurd ⟨a, ha, List.nil_prefix⟩ hleft
    | append_singleton q x ih =>
        by_cases hshared : ∃ a ∈ chosen, q <+: a
        · exact ⟨q, x, hq, hshared, fun a ha hax => hleft ⟨a, ha, hax⟩⟩
        · exact ih ((List.prefix_append q [x]).trans hq) hshared
  obtain ⟨π, x, hbranch⟩ := hsplit r (List.prefix_refl r) hend
  exact ⟨π, hr, x, hbranch⟩

theorem Leaves.not_chosen {π r : List α} (h : Leaves chosen π r) : r ∉ chosen := by
  obtain ⟨x, hbranch⟩ := h
  exact fun hr => hbranch.alone r hr hbranch.word

theorem Leaves.unique {π π' r : List α} (h : Leaves chosen π r) (h' : Leaves chosen π' r) :
    π = π' := by
  have hle {π π' : List α} (h : Leaves chosen π r) (h' : Leaves chosen π' r) :
      π'.length ≤ π.length := by
    obtain ⟨x, hbranch⟩ := h
    obtain ⟨x', hbranch'⟩ := h'
    obtain ⟨a, ha, hshared⟩ := hbranch'.shared
    refine Nat.le_of_not_lt fun hlt => hbranch.alone a ha (List.IsPrefix.trans ?_ hshared)
    refine List.prefix_of_prefix_length_le hbranch.word
      ((List.prefix_append _ _).trans hbranch'.word) ?_
    rw [List.length_append, List.length_singleton]
    exact hlt
  have hlen := le_antisymm (hle h' h) (hle h h')
  obtain ⟨x, hbranch⟩ := h
  obtain ⟨x', hbranch'⟩ := h'
  exact (List.prefix_of_prefix_length_le ((List.prefix_append _ _).trans hbranch.word)
    ((List.prefix_append _ _).trans hbranch'.word) hlen.le).eq_of_length hlen

theorem Ranked.start {first : List α} (hfirst : L first) (least : ∀ r, L r → cost first ≤ cost r) :
    Ranked L cost (· <+: first) [first] [] := by
  refine ⟨⟨?_, List.pairwise_singleton _ _, ?_⟩, by simp, nofun, fun _ _ => nofun, ?_⟩
  · intro a ha
    cases List.mem_singleton.mp ha
    exact hfirst
  · intro a ha r hr _
    cases List.mem_singleton.mp ha
    exact least r hr
  · rintro π r ⟨-, x, hbranch⟩
    obtain ⟨a, ha, hprefix⟩ := hbranch.shared
    cases List.mem_singleton.mp ha
    exact .inl hprefix

theorem Spurs.nil : Spurs L cost chosen [] [] := ⟨nofun, fun _ => .nil, nofun⟩

theorem Spurs.new {prefixes found : List (List α)} (h : Spurs L cost chosen prefixes found) :
    ∀ b ∈ found, b ∉ chosen := by
  intro b hb
  obtain ⟨π, -, hdev⟩ := h.sound b hb
  exact Leaves.not_chosen hdev.2

theorem Spurs.cons {prefixes found : List (List α)} {π : List α} {new : Option (List α)}
    (hnew : Finds L cost chosen π new) (h : Spurs L cost chosen prefixes found) :
    Spurs L cost chosen (π :: prefixes) (new.toList ++ found) := by
  have keep {π' r : List α} (hc : Covered cost found π' r) :
      Covered cost (new.toList ++ found) π' r := by
    obtain ⟨b, hb, hprefix, hle⟩ := hc
    exact ⟨b, List.mem_append_right _ hb, hprefix, hle⟩
  have hsound (b : List α) (hb : b ∈ found) : ∃ π' ∈ π :: prefixes, Deviation L chosen π' b := by
    obtain ⟨π', hπ', hdev⟩ := h.sound b hb
    exact ⟨π', List.mem_cons_of_mem _ hπ', hdev⟩
  cases new with
  | none =>
      refine ⟨hsound, fun hnodup => h.apart (List.nodup_cons.mp hnodup).2, fun π' hπ' r hr => ?_⟩
      rcases List.mem_cons.mp hπ' with rfl | hπ'
      · exact absurd hr (hnew r)
      · exact keep (h.covered π' hπ' r hr)
  | some b =>
      refine ⟨fun d hd => ?_, fun hnodup => ?_, fun π' hπ' r hr => ?_⟩
      · rcases List.mem_cons.mp hd with rfl | hd
        · exact ⟨π, by simp, hnew.1⟩
        · exact hsound d hd
      · obtain ⟨hπ, hnodup⟩ := List.nodup_cons.mp hnodup
        refine List.pairwise_cons.mpr ⟨fun c hc π₁ hb hc' => ?_, h.apart hnodup⟩
        obtain ⟨π₂, hπ₂, hdev⟩ := h.sound c hc
        cases hb.unique hnew.1.2
        cases hc'.unique hdev.2
        exact hπ hπ₂
      · rcases List.mem_cons.mp hπ' with rfl | hπ'
        · obtain ⟨-, x, hbranch⟩ := hnew.1
          exact ⟨b, by simp, (List.prefix_append _ _).trans hbranch.word, hnew.2 r hr⟩
        · exact keep (h.covered π' hπ' r hr)

/-- The searches along the last word close its branches. -/
theorem Ranked.spurs (free : PrefixFree L) {last : List α} {prefixes found : List (List α)}
    (h : Ranked L cost (· <+: last) chosen candidates) (hlast : L last)
    (hs : Spurs L cost chosen prefixes found)
    (hall : ∀ π, π <+: last → π ≠ last → π ∈ prefixes) :
    Ranked L cost (fun _ => False) chosen (candidates ++ found) := by
  refine { h with sound := ?_, below := ?_, covered := fun π r hr => .inr ?_ }
  · intro b hb
    rcases List.mem_append.mp hb with hb | hb
    · exact h.sound b hb
    · obtain ⟨π, -, hdev⟩ := hs.sound b hb
      exact hdev.1
  · intro a ha b hb
    rcases List.mem_append.mp hb with hb | hb
    · exact h.below a ha b hb
    · obtain ⟨π, -, hdev⟩ := hs.sound b hb
      exact h.least a ha b hdev.1 (hs.new b hb)
  · rcases h.covered π r hr with hopen | ⟨b, hb, hcovers⟩
    · have hne : π ≠ last := by
        rintro rfl
        obtain ⟨hword, x, hbranch⟩ := hr
        have hprefix := (List.prefix_append π [x]).trans hbranch.word
        cases free.prefix_eq hlast hword hprefix
        have hlen := hbranch.word.length_le
        rw [List.length_append, List.length_singleton] at hlen
        omega
      obtain ⟨b, hb, hcovers⟩ := hs.covered π (hall π hopen hne) r hr
      exact ⟨b, List.mem_append_right _ hb, hcovers⟩
    · exact ⟨b, List.mem_append_left _ hb, hcovers⟩

theorem Ranked.exhausted (free : PrefixFree L) (h : Ranked L cost (fun _ => False) chosen [])
    {r : List α} (hr : L r) : r ∈ chosen := by
  refine Classical.byContradiction fun hnew => ?_
  obtain ⟨π, hdev⟩ := exists_branch free h.words h.begun hr hnew
  rcases h.covered π r hdev with hopen | ⟨b, hb, -⟩
  · exact hopen
  · cases hb

theorem Ranked.choose (free : PrefixFree L) {best : List α} {rest : List (List α)}
    (h : Ranked L cost (fun _ => False) chosen candidates)
    (hperm : candidates.Perm (best :: rest)) (hbest : ∀ b ∈ rest, cost best ≤ cost b) :
    Ranked L cost (· <+: best) (chosen ++ [best]) rest := by
  have hmem {b : List α} (hb : b ∈ rest) : b ∈ candidates := hperm.mem_iff.mpr (by simp [hb])
  have hbestmem : best ∈ candidates := hperm.mem_iff.mpr (by simp)
  have hfirst {r : List α} (hr : L r) (hnew : r ∉ chosen) : cost best ≤ cost r := by
    obtain ⟨π, hdev⟩ := exists_branch free h.words h.begun hr hnew
    obtain hfalse | ⟨b, hb, -, hle⟩ := h.covered π r hdev
    · exact hfalse.elim
    · rcases List.mem_cons.mp (hperm.mem_iff.mp hb) with rfl | hb
      · exact hle
      · exact le_trans (hbest b hb) hle
  refine ⟨⟨?_, ?_, ?_⟩, by simp, fun b hb => h.sound b (hmem hb), ?_, ?_⟩
  · intro a ha
    rcases List.mem_append.mp ha with ha | ha
    · exact h.words a ha
    · cases List.mem_singleton.mp ha
      exact h.sound best hbestmem
  · refine List.pairwise_append.mpr ⟨h.sorted, List.pairwise_singleton _ _, fun a ha b hb => ?_⟩
    cases List.mem_singleton.mp hb
    exact h.below a ha best hbestmem
  · intro a ha r hr hnew
    have hnew' : r ∉ chosen := fun hr' => hnew (List.mem_append_left _ hr')
    rcases List.mem_append.mp ha with ha | ha
    · exact h.least a ha r hr hnew'
    · cases List.mem_singleton.mp ha
      exact hfirst hr hnew'
  · intro a ha b hb
    rcases List.mem_append.mp ha with ha | ha
    · exact h.below a ha b (hmem hb)
    · cases List.mem_singleton.mp ha
      exact hbest b hb
  · rintro π r ⟨hr, x, hbranch⟩
    by_cases hopen : π <+: best
    · exact .inl hopen
    · -- The branch was there before, and its candidate is still one.
      obtain ⟨a, ha, hprefix⟩ := hbranch.shared
      have ha : a ∈ chosen := by
        rcases List.mem_append.mp ha with ha | ha
        · exact ha
        · cases List.mem_singleton.mp ha
          exact absurd hprefix hopen
      have hbefore : Branch chosen π x r :=
        ⟨hbranch.word, ⟨a, ha, hprefix⟩, fun c hc => hbranch.alone c (List.mem_append_left _ hc)⟩
      obtain hfalse | ⟨b, hb, hbπ, hle⟩ := h.covered π r ⟨hr, x, hbefore⟩
      · exact hfalse.elim
      · rcases List.mem_cons.mp (hperm.mem_iff.mp hb) with rfl | hb
        · exact absurd hbπ hopen
        · exact .inr ⟨b, hb, hbπ, hle⟩

section Distinct

/-- No word is chosen twice, and every candidate leaves the chosen words at a place of its
own. -/
structure Spread (chosen candidates : List (List α)) : Prop where
  nodup : chosen.Nodup
  leaves : ∀ b ∈ candidates, ∃ π, Leaves chosen π b
  apart : candidates.Pairwise fun b c => ∀ π, Leaves chosen π b → ¬ Leaves chosen π c

/-- Where two words go on together behind `π` and a third one goes another way, some word
that goes this way is cheaper than one of the two. -/
def BreadthFirst (L : List α → Prop) (cost : List α → β) : Prop :=
  ∀ (π : List α) (x y : α) (p q r : List α), L p → L q → L r → p ≠ q →
    π ++ [y] <+: p → π ++ [y] <+: q → π ++ [x] <+: r → x ≠ y →
    ∃ r', L r' ∧ π ++ [x] <+: r' ∧ cost r' < max (cost p) (cost q)

theorem spread_start (first : List α) : Spread [first] [] :=
  ⟨List.nodup_singleton first, nofun, .nil⟩

theorem nodup_choose {best : List α} (nodup : chosen.Nodup) (hbest : best ∉ chosen) :
    (chosen ++ [best]).Nodup :=
  List.nodup_append.mpr ⟨nodup, List.nodup_singleton best, fun a ha b hb => by
    cases List.mem_singleton.mp hb
    exact fun h => hbest (h ▸ ha)⟩

theorem Leaves.keep {π b best : List α} (h : Leaves chosen π b) (hbest : ¬ Leaves chosen π best) :
    Leaves (chosen ++ [best]) π b := by
  obtain ⟨x, hword, ⟨a, ha, hshared⟩, halone⟩ := h
  refine ⟨x, hword, ⟨a, List.mem_append_left _ ha, hshared⟩, fun c hc hcx => ?_⟩
  rcases List.mem_append.mp hc with hc | hc
  · exact halone c hc hcx
  · cases List.mem_singleton.mp hc
    exact hbest ⟨x, hcx, ⟨a, ha, hshared⟩, halone⟩

theorem Spread.apart_cons {best : List α} {rest : List (List α)} (h : Spread chosen candidates)
    (hperm : candidates.Perm (best :: rest)) :
    (best :: rest).Pairwise fun b c => ∀ π, Leaves chosen π b → ¬ Leaves chosen π c :=
  (hperm.pairwise_iff fun hbc π hc hb => hbc π hb hc).mp h.apart

theorem Spread.leaves_iff {best : List α} {rest : List (List α)} (h : Spread chosen candidates)
    (hperm : candidates.Perm (best :: rest)) {b : List α} (hb : b ∈ rest) {π : List α} :
    Leaves (chosen ++ [best]) π b ↔ Leaves chosen π b := by
  have keep {π' : List α} (hb' : Leaves chosen π' b) : Leaves (chosen ++ [best]) π' b :=
    hb'.keep fun hbest => (List.pairwise_cons.mp (h.apart_cons hperm)).1 b hb π' hbest hb'
  refine ⟨fun hleaves => ?_, keep⟩
  obtain ⟨π', hb'⟩ := h.leaves b (hperm.mem_iff.mpr (by simp [hb]))
  cases hleaves.unique (keep hb')
  exact hb'

theorem Spread.choose {best : List α} {rest : List (List α)} (h : Spread chosen candidates)
    (hperm : candidates.Perm (best :: rest)) : Spread (chosen ++ [best]) rest := by
  obtain ⟨π, hbest⟩ := h.leaves best (hperm.mem_iff.mpr (by simp))
  refine ⟨nodup_choose h.nodup hbest.not_chosen, fun b hb => ?_, ?_⟩
  · obtain ⟨π', hb'⟩ := h.leaves b (hperm.mem_iff.mpr (by simp [hb]))
    exact ⟨π', (h.leaves_iff hperm hb).mpr hb'⟩
  · refine (List.pairwise_cons.mp (h.apart_cons hperm)).2.imp_of_mem ?_
    intro b c hb hc hbc π' hb' hc'
    exact hbc π' ((h.leaves_iff hperm hb).mp hb') ((h.leaves_iff hperm hc).mp hc')

/-- The searches keep the candidates apart if no candidate is behind a prefix that is
searched. -/
theorem Spread.spurs {prefixes found : List (List α)} (h : Spread chosen candidates)
    (hs : Spurs L cost chosen prefixes found) (hnodup : prefixes.Nodup)
    (clear : ∀ b ∈ candidates, ∀ π ∈ prefixes, ¬ Leaves chosen π b) :
    Spread chosen (candidates ++ found) := by
  refine ⟨h.nodup, fun b hb => ?_, List.pairwise_append.mpr ⟨h.apart, hs.apart hnodup, ?_⟩⟩
  · rcases List.mem_append.mp hb with hb | hb
    · exact h.leaves b hb
    · obtain ⟨π, -, hdev⟩ := hs.sound b hb
      exact ⟨π, hdev.2⟩
  · intro b hb c hc π hb' hc'
    obtain ⟨π', hπ', hdev⟩ := hs.sound c hc
    cases hc'.unique hdev.2
    exact clear b hb π hπ' hb'

/-- In a breadth-first language no candidate is left behind a prefix of the chosen word. -/
theorem Spread.clear (breadthFirst : BreadthFirst L cost) {best : List α} {rest : List (List α)}
    (h : Spread chosen candidates) (hwords : ∀ b ∈ candidates, L b)
    (hperm : candidates.Perm (best :: rest)) (cheapest : Cheapest L cost (chosen ++ [best]))
    {b : List α} (hb : b ∈ rest) {π : List α} (hπ : π <+: best) :
    ¬ Leaves (chosen ++ [best]) π b := by
  intro hleaves
  have hbmem : b ∈ candidates := hperm.mem_iff.mpr (by simp [hb])
  obtain ⟨x, hbranch⟩ := (h.leaves_iff hperm hb).mp hleaves
  obtain ⟨π', hbest⟩ := h.leaves best (hperm.mem_iff.mpr (by simp))
  have hne : π ≠ π' := by
    rintro rfl
    exact (List.pairwise_cons.mp (h.apart_cons hperm)).1 b hb π hbest ⟨x, hbranch⟩
  have hnew := hbest.not_chosen
  obtain ⟨y, hword, ⟨a, ha, hshared⟩, halone⟩ := hbest
  have hπ' : π' <+: best := (List.prefix_append _ _).trans hword
  -- The chosen word leaves behind `π`: it has `π` in common with a word chosen before.
  have hlt : π.length < π'.length := by
    refine Nat.lt_of_not_le fun hle => ?_
    obtain ⟨c, hc, hcπ⟩ := hbranch.shared
    have hlonger : π' ++ [y] <+: π := by
      refine List.prefix_of_prefix_length_le hword hπ ?_
      rw [List.length_append, List.length_singleton]
      refine lt_of_le_of_ne hle fun heq => hne ?_
      exact (List.prefix_of_prefix_length_le hπ hπ' heq.ge).eq_of_length heq.symm
    exact halone c hc (hlonger.trans hcπ)
  obtain ⟨rest', hrest⟩ := List.prefix_of_prefix_length_le hπ hπ' hlt.le
  obtain ⟨z, tail, rfl⟩ : ∃ z tail, rest' = z :: tail := by
    cases rest' with
    | nil =>
        rw [List.append_nil] at hrest
        exact absurd hrest hne
    | cons z tail => exact ⟨z, tail, rfl⟩
  have hcommon : π ++ [z] <+: π' := ⟨tail, by simpa using hrest⟩
  have hxz : x ≠ z := by
    rintro rfl
    exact hbranch.alone a ha (hcommon.trans hshared)
  have hne' : a ≠ best := fun heq => hnew (heq ▸ ha)
  obtain ⟨r, hr, hrx, hcost⟩ := breadthFirst π x z a best b
    (cheapest.words a (by simp [ha])) (cheapest.words best (by simp)) (hwords b hbmem) hne'
    (hcommon.trans hshared) (hcommon.trans hπ') hbranch.word hxz
  have hrnew : r ∉ chosen ++ [best] := by
    intro hmem
    rcases List.mem_append.mp hmem with hmem | hmem
    · exact hbranch.alone r hmem hrx
    · cases List.mem_singleton.mp hmem
      exact hne (Leaves.unique ⟨x, hrx, hbranch.shared, hbranch.alone⟩
        ⟨y, hword, ⟨a, ha, hshared⟩, halone⟩)
  have hsorted : cost a ≤ cost best :=
    (List.pairwise_append.mp cheapest.sorted).2.2 a ha best (by simp)
  rw [max_eq_right hsorted] at hcost
  exact absurd hcost (not_lt.mpr (cheapest.least best (by simp) r hr hrnew))

end Distinct

section Progress

variable [DecidableEq α]

def remaining (all : Finset (List α)) (chosen : List (List α)) : Nat :=
  (all.filter (· ∉ chosen)).card

def repeated (chosen candidates : List (List α)) : Nat := candidates.countP (· ∈ chosen)

/-- A choice leaves less to choose, or uses up a repeated candidate. -/
theorem progress {all : Finset (List α)} {found rest : List (List α)} {best : List α}
    (hperm : (candidates ++ found).Perm (best :: rest)) (hfound : ∀ b ∈ found, b ∉ chosen)
    (hbest : best ∈ all) :
    remaining all (chosen ++ [best]) < remaining all chosen ∨
      remaining all (chosen ++ [best]) = remaining all chosen ∧
        repeated (chosen ++ [best]) rest < repeated chosen candidates := by
  by_cases hold : best ∈ chosen
  · have hmem (r : List α) : r ∈ chosen ++ [best] ↔ r ∈ chosen := by
      rw [List.mem_append, List.mem_singleton]
      exact ⟨fun h => h.elim id fun h => h ▸ hold, .inl⟩
    refine .inr ⟨by simp only [remaining, hmem], ?_⟩
    have hnew : found.countP (· ∈ chosen) = 0 :=
      List.countP_eq_zero.mpr fun b hb => by simpa using hfound b hb
    have hcount := hperm.countP_eq (fun r => decide (r ∈ chosen))
    rw [List.countP_append, hnew, List.countP_cons_of_pos (by simpa using hold)] at hcount
    simp only [repeated, hmem]
    omega
  · refine .inl (Finset.card_lt_card (Finset.ssubset_iff_of_subset ?_ |>.mpr ⟨best, ?_, ?_⟩))
    · intro r hr
      simp only [Finset.mem_filter, List.mem_append, not_or] at hr ⊢
      exact ⟨hr.1, hr.2.1⟩
    · simpa using ⟨hbest, hold⟩
    · simp

end Progress
end KBest
