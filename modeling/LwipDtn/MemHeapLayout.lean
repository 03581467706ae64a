import LwipDtn.MemHeap

/-!
The heap as a list of pieces. The headers link the pieces in both directions, `lfree` is the
first free piece, and each operation on the headers is an operation on the list.
-/

namespace LwipDtn
open Outcome FirstFit Function

/-- The headers of the pieces from an offset on, the first of them linked back to `prev`. -/
def Links (ram : Nat → Mem) : Nat → Nat → List Piece → Prop
  | _, _, [] => True
  | prev, ptr, p :: l => ram ptr = ⟨ptr + p.size, prev, p.used⟩ ∧ Links ram ptr (ptr + p.size) l

def lastOf : Nat → Nat → List Piece → Nat
  | prev, _, [] => prev
  | _, ptr, p :: l => lastOf ptr (ptr + p.size) l

/-- The offset of the first free piece, or the end. -/
def firstFree : Nat → List Piece → Nat
  | ptr, [] => ptr
  | ptr, p :: l => if p.used then firstFree (ptr + p.size) l else ptr

/-- The length of the shortest piece, with its header. -/
def leastPiece : Nat := sizeofStructMem + minSizeAligned

structure RamHeap.Holds (h : RamHeap) (l : List Piece) : Prop where
  links : Links h.ram 0 0 l
  whole : extent l = memSizeAligned
  ramEnd : h.ram memSizeAligned = ⟨memSizeAligned, memSizeAligned, true⟩
  lfree : h.lfree = firstFree 0 l
  sized : Sized leastPiece memAlignment l

section Links

variable {ram ram' : Nat → Mem} {prev ptr : Nat} {a b l : List Piece}

theorem links_append :
    Links ram prev ptr (a ++ b) ↔
      Links ram prev ptr a ∧ Links ram (lastOf prev ptr a) (ptr + extent a) b := by
  induction a generalizing prev ptr with
  | nil => simp [Links, lastOf]
  | cons p a ih =>
      rw [List.cons_append, Links, Links, ih, lastOf, extent_cons, Nat.add_assoc, and_assoc]

theorem lastOf_append_singleton (p : Piece) : lastOf prev ptr (a ++ [p]) = ptr + extent a := by
  induction a generalizing prev ptr with
  | nil => rfl
  | cons q a ih => rw [List.cons_append, lastOf, ih, extent_cons, Nat.add_assoc]

theorem piece_pos (h : Sized leastPiece memAlignment l) {p : Piece} (hp : p ∈ l) : 0 < p.size :=
  Nat.lt_of_lt_of_le (by decide) (h p hp).1

/-- Only the headers of the pieces themselves count. -/
theorem Links.congr (h : Links ram prev ptr l) (hl : Sized leastPiece memAlignment l)
    (same : ∀ x, ptr ≤ x → x < ptr + extent l → ram' x = ram x) : Links ram' prev ptr l := by
  induction l generalizing prev ptr with
  | nil => trivial
  | cons p l ih =>
      have hp := piece_pos hl List.mem_cons_self
      rw [extent_cons] at same
      refine ⟨?_, ih h.2 (Sized.cons.mp hl).2 fun x hx hlt => same x (by omega) (by omega)⟩
      rw [same ptr (Nat.le_refl _) (by omega)]
      exact h.1

theorem relink_of_ne {next q x : Nat} (ne : x ≠ next) : relink ram next q x = ram x := by
  rw [relink]
  split
  · rw [update_of_ne ne]
  · rfl

theorem Links.relink (h : Links ram prev ptr l) (hl : Sized leastPiece memAlignment l)
    (reaches : ptr + extent l = memSizeAligned) (q : Nat) : Links (relink ram ptr q) q ptr l := by
  cases l with
  | nil => trivial
  | cons p l =>
      have hp := piece_pos hl List.mem_cons_self
      rw [extent_cons] at reaches
      refine ⟨?_, h.2.congr (Sized.cons.mp hl).2 fun x hx _ => relink_of_ne (by omega)⟩
      rw [LwipDtn.relink, if_pos (by omega), update_self, h.1]

theorem firstFree_of_used (h : ∀ p ∈ a, p.used = true) (b : List Piece) :
    firstFree ptr (a ++ b) = firstFree (ptr + extent a) b := by
  induction a generalizing ptr with
  | nil => rfl
  | cons p a ih =>
      rw [List.cons_append, firstFree, if_pos (h p List.mem_cons_self),
        ih fun q hq => h q (List.mem_cons_of_mem _ hq), extent_cons, Nat.add_assoc]

theorem firstFree_of_free (ptr : Nat) (h : ¬ ∀ p ∈ a, p.used = true)
    (hl : Sized leastPiece memAlignment a) :
    firstFree ptr a < ptr + extent a ∧ ∀ b, firstFree ptr (a ++ b) = firstFree ptr a := by
  induction a generalizing ptr with
  | nil => exact absurd (List.forall_mem_nil _) h
  | cons p a ih =>
      have hp := piece_pos hl List.mem_cons_self
      rw [extent_cons]
      by_cases hused : p.used = true
      · have hrest : ¬ ∀ q ∈ a, q.used = true :=
          fun hall => h (List.forall_mem_cons.mpr ⟨hused, hall⟩)
        obtain ⟨hlt, hsame⟩ := ih (ptr + p.size) hrest (Sized.cons.mp hl).2
        rw [firstFree, if_pos hused]
        refine ⟨by omega, fun b => ?_⟩
        rw [List.cons_append, firstFree, if_pos hused, hsame]
      · rw [firstFree, if_neg hused]
        refine ⟨by omega, fun b => ?_⟩
        rw [List.cons_append, firstFree, if_neg hused]

theorem le_firstFree (ptr : Nat) (l : List Piece) : ptr ≤ firstFree ptr l := by
  induction l generalizing ptr with
  | nil => exact Nat.le_refl _
  | cons p l ih =>
      rw [firstFree]
      split
      · exact Nat.le_trans (Nat.le_add_right _ _) (ih _)
      · exact Nat.le_refl _

theorem firstFree_append_free (ptr size : Nat) (b : List Piece)
    (hl : Sized leastPiece memAlignment a) :
    firstFree ptr (a ++ ⟨size, false⟩ :: b) ≤ ptr + extent a ∧
      ∀ size' b', firstFree ptr (a ++ ⟨size', false⟩ :: b') =
        firstFree ptr (a ++ ⟨size, false⟩ :: b) := by
  by_cases hused : ∀ p ∈ a, p.used = true
  · rw [firstFree_of_used hused]
    refine ⟨Nat.le_refl _, fun size' b' => ?_⟩
    rw [firstFree_of_used hused]
    rfl
  · obtain ⟨hlt, hsame⟩ := firstFree_of_free ptr hused hl
    rw [hsame]
    exact ⟨Nat.le_of_lt hlt, fun _ _ => hsame _⟩

end Links

/-! Joining two pieces. -/

section Combine

variable {h : RamHeap} {a b : List Piece} {s t : Nat}

theorem RamHeap.Holds.header {p : Piece} (holds : h.Holds (a ++ p :: b)) :
    h.ram (extent a) = ⟨extent a + p.size, lastOf 0 0 a, p.used⟩ ∧
      Links h.ram (extent a) (extent a + p.size) b := by
  obtain ⟨-, hb⟩ := links_append.mp holds.links
  rwa [Nat.zero_add] at hb

theorem RamHeap.Holds.reaches {p : Piece} (holds : h.Holds (a ++ p :: b)) :
    extent a + p.size + extent b = memSizeAligned := by
  rw [← holds.whole, extent_append, extent_cons, Nat.add_assoc]

theorem RamHeap.Holds.combine (holds : h.Holds (a ++ ⟨s, false⟩ :: ⟨t, false⟩ :: b)) :
    (h.combine (extent a) (extent a + s)).Holds (a ++ ⟨s + t, false⟩ :: b) := by
  obtain ⟨hmem, hnext, hlinks⟩ := holds.header
  have hreach := holds.reaches
  obtain ⟨ha, hb⟩ := Sized.append.mp holds.sized
  obtain ⟨hs, hb⟩ := Sized.cons.mp hb
  obtain ⟨ht, hb⟩ := Sized.cons.mp hb
  rw [extent_cons] at hreach
  dsimp only at hmem hnext hlinks hs ht hreach
  have hpos : 0 < s ∧ 0 < t := by
    have : 0 < leastPiece := by decide
    omega
  obtain ⟨hle, hsame⟩ := firstFree_append_free 0 s (⟨t, false⟩ :: b) ha
  have hlfree := holds.lfree
  refine ⟨?_, ?_, ?_, ?_, ?_⟩
  · refine links_append.mpr ⟨?_, ?_, ?_⟩
    · refine (links_append.mp holds.links).1.congr ha fun x _ hx => ?_
      rw [Nat.zero_add] at hx
      rw [RamHeap.combine, hnext]
      dsimp only
      rw [relink_of_ne (by omega), update_of_ne (by omega)]
    · rw [Nat.zero_add, RamHeap.combine, hnext]
      dsimp only
      rw [relink_of_ne (by omega), update_self, hmem, Nat.add_assoc]
    · rw [Nat.zero_add, RamHeap.combine, hnext]
      dsimp only
      rw [← Nat.add_assoc]
      refine Links.relink (hlinks.congr hb fun x hx _ => ?_) hb (by omega) _
      rw [update_of_ne (by omega)]
  · rw [extent_append, extent_cons]
    dsimp only
    omega
  · rw [RamHeap.combine, hnext]
    dsimp only
    by_cases hend : extent a + s + t = memSizeAligned
    · rw [relink, if_neg (not_not.mpr hend), update_of_ne (by omega)]
      exact holds.ramEnd
    · rw [relink_of_ne (Ne.symm hend), update_of_ne (by omega)]
      exact holds.ramEnd
  · rw [RamHeap.combine]
    dsimp only
    rw [if_neg (by omega), hlfree]
    exact (hsame _ _).symm
  · refine Sized.append.mpr ⟨ha, Sized.cons.mpr ⟨⟨?_, Nat.dvd_add hs.2 ht.2⟩, hb⟩⟩
    dsimp only
    omega

theorem RamHeap.Holds.clear (holds : h.Holds (a ++ ⟨s, true⟩ :: b)) :
    RamHeap.Holds {
      ram := update h.ram (extent a) { h.ram (extent a) with used := false }
      lfree := if extent a < h.lfree then extent a else h.lfree } (a ++ ⟨s, false⟩ :: b) := by
  obtain ⟨hmem, hlinks⟩ := holds.header
  have hreach := holds.reaches
  obtain ⟨ha, hb⟩ := Sized.append.mp holds.sized
  obtain ⟨hs, hb⟩ := Sized.cons.mp hb
  dsimp only at hmem hlinks hs hreach
  have hpos : 0 < s := Nat.lt_of_lt_of_le (by decide) hs.1
  have hlfree := holds.lfree
  refine ⟨?_, ?_, ?_, ?_, ?_⟩
  · refine links_append.mpr ⟨?_, ?_, ?_⟩
    · refine (links_append.mp holds.links).1.congr ha fun x _ hx => ?_
      exact update_of_ne (by omega) _ _
    · dsimp only
      rw [Nat.zero_add, update_self, hmem]
    · rw [Nat.zero_add]
      exact hlinks.congr hb fun x hx _ => update_of_ne (by omega) _ _
  · rw [extent_append, extent_cons]
    dsimp only
    omega
  · dsimp only
    rw [update_of_ne (by omega)]
    exact holds.ramEnd
  · dsimp only
    by_cases hused : ∀ p ∈ a, p.used = true
    · -- the first free piece was behind this one
      have hge := le_firstFree (extent a + s) b
      rw [firstFree_of_used hused, Nat.zero_add, firstFree, if_pos rfl] at hlfree
      dsimp only at hlfree
      rw [if_pos (by omega), firstFree_of_used hused, Nat.zero_add]
      rfl
    · obtain ⟨hlt, hsame⟩ := firstFree_of_free 0 hused ha
      rw [hsame] at hlfree ⊢
      rw [if_neg (by omega), hlfree]
  · exact Sized.append.mpr ⟨ha, Sized.cons.mpr ⟨hs, hb⟩⟩

theorem RamHeap.Holds.plugNext (holds : h.Holds (a ++ ⟨s, false⟩ :: b)) :
    (plugNext h (extent a)).Holds (a ++ ⟨(swallow s b).1, false⟩ :: (swallow s b).2) := by
  obtain ⟨hmem, hlinks⟩ := holds.header
  have hreach := holds.reaches
  obtain ⟨hs, hb⟩ := Sized.cons.mp (Sized.append.mp holds.sized).2
  have hpos : 0 < s := Nat.lt_of_lt_of_le (by decide) hs.1
  dsimp only at hmem hlinks hreach
  rw [LwipDtn.plugNext, hmem]
  dsimp only
  rcases b with - | ⟨⟨t, - | -⟩, b⟩
  · rw [extent_nil, Nat.add_zero] at hreach
    rw [if_neg (fun hfree => hfree.2.2 hreach)]
    exact holds
  · have ht : 0 < t := piece_pos hb List.mem_cons_self
    rw [extent_cons] at hreach
    dsimp only at hreach
    rw [if_pos ⟨by omega, by rw [hlinks.1], by omega⟩]
    exact holds.combine
  · rw [if_neg]
    · exact holds
    · rintro ⟨-, hfree, -⟩
      rw [hlinks.1] at hfree
      cases hfree

theorem RamHeap.Holds.plugPrev (holds : h.Holds (a ++ ⟨s, false⟩ :: b)) :
    (plugPrev h (extent a)).Holds
      ((swallow s a.reverse).2.reverse ++ ⟨(swallow s a.reverse).1, false⟩ :: b) := by
  obtain ⟨hmem, -⟩ := holds.header
  rw [LwipDtn.plugPrev, hmem]
  dsimp only
  rcases List.eq_nil_or_concat a with rfl | ⟨a, ⟨t, used⟩, rfl⟩
  · rw [if_neg (fun hfree => hfree.1 rfl)]
    exact holds
  · -- the piece before this one
    have hbefore : h.Holds (a ++ ⟨t, used⟩ :: ⟨s, false⟩ :: b) := by
      rwa [List.concat_eq_append, List.append_assoc, List.singleton_append] at holds
    obtain ⟨hprev, -⟩ := hbefore.header
    have ht : 0 < t := piece_pos (Sized.append.mp hbefore.sized).2 List.mem_cons_self
    rw [List.concat_eq_append, lastOf_append_singleton, Nat.zero_add, extent_append, extent_cons,
      extent_nil, hprev, List.reverse_append, List.reverse_singleton, List.singleton_append]
    dsimp only
    cases used with
    | false =>
        rw [if_pos ⟨by omega, rfl⟩, swallow_free, Nat.add_comm s t, List.reverse_reverse]
        exact hbefore.combine
    | true =>
        rw [if_neg (fun hfree => Bool.false_ne_true hfree.2.symm), swallow_used, List.reverse_cons,
          List.reverse_reverse, List.append_assoc, List.singleton_append]
        exact hbefore

end Combine

theorem RamHeap.Holds.linkValid {h : RamHeap} {a b : List Piece} {s : Nat}
    (holds : h.Holds (a ++ ⟨s, true⟩ :: b)) : memLinkValid h.ram (extent a) = true := by
  obtain ⟨hmem, hlinks⟩ := holds.header
  have hreach := holds.reaches
  dsimp only at hmem hlinks hreach
  have hprev : lastOf 0 0 a ≤ memSizeAligned ∧
      (lastOf 0 0 a = extent a ∨ (h.ram (lastOf 0 0 a)).next = extent a) := by
    rcases List.eq_nil_or_concat a with rfl | ⟨a, ⟨t, used⟩, rfl⟩
    · exact ⟨Nat.zero_le _, .inl rfl⟩
    · have hbefore : h.Holds (a ++ ⟨t, used⟩ :: ⟨s, true⟩ :: b) := by
        rwa [List.concat_eq_append, List.append_assoc, List.singleton_append] at holds
      obtain ⟨hheader, -⟩ := hbefore.header
      rw [List.concat_eq_append, extent_append, extent_cons, extent_nil] at hreach ⊢
      rw [lastOf_append_singleton, Nat.zero_add, hheader]
      exact ⟨by omega, .inr rfl⟩
  have hnext : extent a + s = memSizeAligned ∨ (h.ram (extent a + s)).prev = extent a := by
    cases b with
    | nil => exact .inl hreach
    | cons p b => exact .inr (by rw [hlinks.1])
  simp only [memLinkValid, hmem, Bool.not_eq_true', Bool.or_eq_false_iff, Bool.and_eq_false_iff,
    decide_eq_false_iff_not, ne_eq, not_not, Nat.not_lt]
  exact ⟨⟨⟨by omega, hprev.1⟩, hprev.2⟩, hnext⟩

/-- `mem_free` of a block in use gives the piece back. -/
theorem RamHeap.Holds.free {h : RamHeap} {a b : List Piece} {s : Nat}
    (holds : h.Holds (a ++ ⟨s, true⟩ :: b)) :
    (memFree h (extent a + sizeofStructMem)).Holds (rejoin a s b) := by
  obtain ⟨hmem, -⟩ := holds.header
  have hreach := holds.reaches
  obtain ⟨ha, hs⟩ := Sized.append.mp holds.sized
  have hs := (Sized.cons.mp hs).1.1
  have hdvd : memAlignment ∣ extent a + sizeofStructMem := Nat.dvd_add ha.dvd_extent ⟨2, rfl⟩
  have hinside : ¬ (extent a + sizeofStructMem < sizeofStructMem ∨
      memSizeAligned < extent a + sizeofStructMem + minSizeAligned) := by
    rw [leastPiece] at hs
    dsimp only at hs hreach
    omega
  rw [memFree, if_neg (not_not.mpr (Nat.mod_eq_zero_of_dvd hdvd)), if_neg hinside,
    Nat.add_sub_cancel]
  dsimp only
  rw [if_neg (by rw [hmem]; exact Bool.noConfusion), holds.linkValid, if_neg Bool.noConfusion]
  exact holds.clear.plugNext.plugPrev

end LwipDtn
