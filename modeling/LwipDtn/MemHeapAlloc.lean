import LwipDtn.MemHeapLayout

/-!
`mem_malloc` on the list of pieces: the search from `lfree` finds the first free piece that
is large enough, and finds one if there is one.
-/

namespace LwipDtn
open Outcome FirstFit Function

section Search

variable {ram : Nat → Mem} {prev ptr : Nat} {l : List Piece}

theorem userSize_eq {mem : Mem} {s : Nat} (hnext : mem.next = ptr + s) (hs : sizeofStructMem ≤ s)
    (small : ptr + s ≤ memSizeAligned) : userSize mem ptr = s - sizeofStructMem := by
  rw [memSizeAligned] at small
  rw [userSize, hnext, show 2 ^ 64 + (ptr + s) - (ptr + sizeofStructMem) =
    s - sizeofStructMem + 2 ^ 64 by omega, Nat.add_mod_right, Nat.mod_eq_of_lt (by omega)]

/-- What the search finds in the pieces from an offset on. -/
inductive Finds (need ptr : Nat) : List Piece → Option Nat → Prop where
  | none {l : List Piece} (full : Full need l) : Finds need ptr l none
  | some {a b : List Piece} {s : Nat} (full : Full need a) (fits : need ≤ s) :
      Finds need ptr (a ++ ⟨s, false⟩ :: b) (some (ptr + extent a))

theorem Finds.skip {need : Nat} {p : Piece} {r : Option Nat} (h : Finds need (ptr + p.size) l r)
    (unfit : p.used = true ∨ p.size < need) : Finds need ptr (p :: l) r := by
  cases h with
  | none full => exact .none (List.forall_mem_cons.mpr ⟨unfit, full⟩)
  | @some a b s full fits =>
      rw [Nat.add_assoc, ← extent_cons, ← List.cons_append]
      exact .some (List.forall_mem_cons.mpr ⟨unfit, full⟩) fits

theorem memScan_finds (fuel size : Nat) (h : Links ram prev ptr l)
    (hl : Sized leastPiece memAlignment l) (reaches : ptr + extent l = memSizeAligned)
    (rounds : l.length < fuel) :
    ∃ r, memScan fuel ram size ptr = .ok r ∧ Finds (size + sizeofStructMem) ptr l r := by
  induction l generalizing fuel prev ptr with
  | nil =>
      obtain ⟨fuel, rfl⟩ := Nat.exists_eq_succ_of_ne_zero (Nat.ne_of_gt rounds)
      rw [extent_nil] at reaches
      rw [memScan, if_neg (by omega)]
      exact ⟨none, rfl, .none (List.forall_mem_nil _)⟩
  | cons p l ih =>
      obtain ⟨fuel, rfl⟩ := Nat.exists_eq_succ_of_ne_zero (Nat.ne_of_gt (Nat.zero_lt_of_lt rounds))
      obtain ⟨s, used⟩ := p
      obtain ⟨hp, hrest⟩ := Sized.cons.mp hl
      have hreach := reaches
      rw [extent_cons] at hreach
      dsimp only at hp hreach
      have hs : sizeofStructMem ≤ s := Nat.le_trans (by decide) hp.1
      rw [memScan]
      by_cases hroom : ptr < memSizeAligned - size
      · have huser : userSize (ram ptr) ptr = s - sizeofStructMem :=
          userSize_eq (by rw [h.1]) hs (by omega)
        rw [if_pos hroom, huser, h.1]
        dsimp only
        by_cases hfits : used = false ∧ size ≤ s - sizeofStructMem
        · rw [if_pos hfits, hfits.1]
          exact ⟨some ptr, rfl, .some (a := []) (List.forall_mem_nil _) (by omega)⟩
        · rw [if_neg hfits]
          obtain ⟨r, hscan, hfinds⟩ := ih fuel h.2 hrest (by dsimp only; omega)
            (Nat.lt_of_succ_lt_succ rounds)
          refine ⟨r, hscan, hfinds.skip ?_⟩
          cases used with
          | true => exact .inl rfl
          | false =>
              exact .inr (Nat.lt_of_not_le fun hle => hfits ⟨rfl, by dsimp only at hle; omega⟩)
      · -- from here on no piece is large enough, since all of them end at the end
        rw [if_neg hroom]
        refine ⟨none, rfl, .none fun q hq => .inr ?_⟩
        have hq := extent_le_of_mem hq
        have hheader : 0 < sizeofStructMem := by decide
        rw [extent_cons] at hq
        dsimp only at hq
        omega

theorem nextFree_eq {fuel : Nat} (h : Links ram prev ptr l)
    (reaches : ptr + extent l = memSizeAligned) (hl : Sized leastPiece memAlignment l)
    (rounds : l.length < fuel) : nextFree fuel ram ptr = .ok (firstFree ptr l) := by
  induction l generalizing fuel prev ptr with
  | nil =>
      obtain ⟨fuel, rfl⟩ := Nat.exists_eq_succ_of_ne_zero (Nat.ne_of_gt rounds)
      rw [extent_nil, Nat.add_zero] at reaches
      rw [nextFree, if_neg (fun hused => hused.2 reaches)]
      rfl
  | cons p l ih =>
      obtain ⟨fuel, rfl⟩ := Nat.exists_eq_succ_of_ne_zero (Nat.ne_of_gt (Nat.zero_lt_of_lt rounds))
      have hp := piece_pos hl List.mem_cons_self
      rw [extent_cons] at reaches
      rw [nextFree, h.1, firstFree]
      dsimp only
      by_cases hused : p.used = true
      · rw [if_pos ⟨hused, by omega⟩, if_pos hused]
        exact ih h.2 (by omega) (Sized.cons.mp hl).2 (Nat.lt_of_succ_lt_succ rounds)
      · rw [if_neg (fun h => hused h.1), if_neg hused]

end Search

theorem exists_firstFree (ptr : Nat) (l : List Piece) :
    ∃ a c, l = a ++ c ∧ (∀ p ∈ a, p.used = true) ∧ firstFree ptr l = ptr + extent a := by
  induction l generalizing ptr with
  | nil => exact ⟨[], [], rfl, List.forall_mem_nil _, rfl⟩
  | cons p l ih =>
      rw [firstFree]
      by_cases hused : p.used = true
      · obtain ⟨a, c, rfl, ha, hfirst⟩ := ih (ptr + p.size)
        refine ⟨p :: a, c, rfl, List.forall_mem_cons.mpr ⟨hused, ha⟩, ?_⟩
        rw [if_pos hused, hfirst, extent_cons, Nat.add_assoc]
      · exact ⟨[], p :: l, rfl, List.forall_mem_nil _, if_neg hused⟩

theorem memAlignSize_dvd (n : Nat) : memAlignment ∣ memAlignSize n := Nat.dvd_mul_left _ _

theorem blockSize_dvd (n : Nat) : memAlignment ∣ blockSize n + sizeofStructMem := by
  refine Nat.dvd_add ?_ ⟨2, rfl⟩
  rw [blockSize]
  split
  · exact ⟨3, rfl⟩
  · exact (Nat.dvd_mod_iff ⟨16384, rfl⟩).mpr (memAlignSize_dvd n)

theorem blockSize_least (n : Nat) : leastPiece ≤ blockSize n + sizeofStructMem := by
  rw [blockSize, leastPiece]
  split <;> omega

theorem RamHeap.Holds.length_le {h : RamHeap} {l : List Piece} (holds : h.Holds l) :
    l.length ≤ memSizeAligned := by
  rw [← holds.whole]
  exact length_le_extent fun p hp => piece_pos holds.sized hp

section Take

variable {h : RamHeap} {a b : List Piece} {s size : Nat}

theorem takeBlock_links (holds : h.Holds (a ++ ⟨s, false⟩ :: b))
    (fits : size + sizeofStructMem ≤ s) :
    Links (takeBlock h.ram size (extent a)) 0 0
        (a ++ (taken leastPiece (size + sizeofStructMem) s ++ b)) ∧
      takeBlock h.ram size (extent a) memSizeAligned = h.ram memSizeAligned := by
  obtain ⟨hmem, hlinks⟩ := holds.header
  have hreach := holds.reaches
  obtain ⟨ha, hb⟩ := Sized.append.mp holds.sized
  obtain ⟨hs, hb⟩ := Sized.cons.mp hb
  dsimp only at hmem hlinks hs hreach
  have hpos : 0 < s := Nat.lt_of_lt_of_le (by decide) hs.1
  have huser : userSize (h.ram (extent a)) (extent a) = s - sizeofStructMem :=
    userSize_eq (by rw [hmem]) (by omega) (by omega)
  have hsmall : memSizeAligned < 65536 := by decide
  rw [takeBlock, huser, hmem, taken, leastPiece]
  dsimp only
  by_cases hcut : size + sizeofStructMem + minSizeAligned ≤ s - sizeofStructMem
  · have hmod :
        (extent a + sizeofStructMem + size) % 65536 = extent a + (size + sizeofStructMem) := by
      rw [Nat.mod_eq_of_lt (by omega)]
      omega
    have hne : 0 < sizeofStructMem := by decide
    rw [if_pos hcut, if_pos (by omega), hmod]
    refine ⟨links_append.mpr ⟨?_, ?_, ?_, ?_⟩, ?_⟩
    · refine (links_append.mp holds.links).1.congr ha fun x _ hx => ?_
      rw [relink_of_ne (by omega), update_of_ne (by omega), update_of_ne (by omega)]
    · rw [Nat.zero_add, relink_of_ne (by omega), update_self]
    · dsimp only
      rw [Nat.zero_add, relink_of_ne (by omega), update_of_ne (by omega), update_self]
      congr 1
      omega
    · dsimp only
      rw [Nat.zero_add, show extent a + (size + sizeofStructMem) + (s - (size + sizeofStructMem)) =
        extent a + s by omega]
      refine Links.relink (hlinks.congr hb fun x hx _ => ?_) hb hreach _
      rw [update_of_ne (by omega), update_of_ne (by omega)]
    · by_cases hend : extent a + s = memSizeAligned
      · rw [relink, if_neg (not_not.mpr hend), update_of_ne (by omega), update_of_ne (by omega)]
      · rw [relink_of_ne (Ne.symm hend), update_of_ne (by omega), update_of_ne (by omega)]
  · rw [if_neg hcut, if_neg (by omega)]
    refine ⟨links_append.mpr ⟨?_, ?_, ?_⟩, ?_⟩
    · refine (links_append.mp holds.links).1.congr ha fun x _ hx => ?_
      rw [update_of_ne (by omega)]
    · rw [Nat.zero_add, update_self]
    · rw [Nat.zero_add]
      exact hlinks.congr hb fun x hx _ => update_of_ne (by omega) _ _
    · rw [update_of_ne (by omega)]

theorem adjustLfree_eq (holds : h.Holds (a ++ ⟨s, false⟩ :: b)) {ram : Nat → Mem} {c : List Piece}
    (links : Links ram 0 0 (a ++ c)) (whole : extent (a ++ c) = memSizeAligned)
    (sized : Sized leastPiece memAlignment (a ++ c)) :
    adjustLfree ram h.lfree (extent a) = .ok (firstFree 0 (a ++ c)) := by
  obtain ⟨ha, hc⟩ := Sized.append.mp sized
  have hlfree := holds.lfree
  rw [extent_append] at whole
  by_cases hused : ∀ p ∈ a, p.used = true
  · have hlast := (links_append.mp links).2
    rw [Nat.zero_add] at hlast
    rw [firstFree_of_used hused, Nat.zero_add] at hlfree ⊢
    have hlfree : h.lfree = extent a := hlfree
    rw [adjustLfree, if_pos hlfree.symm, hlfree]
    refine nextFree_eq hlast whole hc ?_
    have := length_le_extent fun p hp => piece_pos hc hp
    exact Nat.lt_succ_of_le (by omega)
  · obtain ⟨hlt, hsame⟩ := firstFree_of_free 0 hused ha
    rw [hsame] at hlfree ⊢
    rw [adjustLfree, if_neg (by omega), hlfree]

end Take

/-- `mem_malloc` with a size it accepts gives out the first piece that is large enough, and
fails only if there is none. -/
theorem RamHeap.Holds.malloc {h : RamHeap} {l : List Piece} (holds : h.Holds l) {n : Nat}
    (pos : n ≠ 0) (accepted : ¬ (memSizeAligned < blockSize n ∨ blockSize n < n)) :
    (Full (blockSize n + sizeofStructMem) l ∧ memMalloc h n = .ok (none, h)) ∨
      ∃ x l' h', Takes leastPiece (blockSize n + sizeofStructMem) l x l' ∧ h'.Holds l' ∧
        memMalloc h n = .ok (some (x + sizeofStructMem), h') := by
  obtain ⟨a, c, rfl, hused, hfirst⟩ := exists_firstFree 0 l
  have hlast := (links_append.mp holds.links).2
  obtain ⟨ha, hc⟩ := Sized.append.mp holds.sized
  have hwhole := holds.whole
  rw [extent_append] at hwhole
  rw [Nat.zero_add] at hlast hfirst
  have hlfree : h.lfree = extent a := holds.lfree.trans hfirst
  have hlength := holds.length_le
  rw [List.length_append] at hlength
  obtain ⟨r, hscan, hfinds⟩ := memScan_finds (memSizeAligned + 1) (blockSize n) hlast
    hc hwhole (by omega)
  have hfull : Full (blockSize n + sizeofStructMem) a := fun p hp => .inl (hused p hp)
  rw [memMalloc, if_neg pos, if_neg accepted, hlfree, hscan, Run.bind_ok]
  cases hfinds with
  | none full => exact .inl ⟨List.forall_mem_append.mpr ⟨hfull, full⟩, rfl⟩
  | @some c b s full fits =>
      right
      have before : Full (blockSize n + sizeofStructMem) (a ++ c) :=
        List.forall_mem_append.mpr ⟨hfull, full⟩
      rw [← List.append_assoc] at holds ⊢
      rw [← extent_append, ← hlfree]
      have takes : Takes leastPiece (blockSize n + sizeofStructMem) _ _ _ :=
        Takes.first (b := b) fits before
      obtain ⟨links, ramEnd⟩ := takeBlock_links holds fits
      have sized := takes.sized holds.sized (blockSize_least n) (blockSize_dvd n)
      have whole := takes.extent_eq.trans holds.whole
      refine ⟨_, _, ⟨_, _⟩, takes, ⟨links, whole, ramEnd.trans holds.ramEnd, rfl, sized⟩, ?_⟩
      dsimp only
      rw [adjustLfree_eq holds links whole sized, Run.bind_ok]
      rfl

end LwipDtn
