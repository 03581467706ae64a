import LwipDtn.MemHeapAlloc
import LwipDtn.Ip6
import LwipDtn.Library.Runs
import Mathlib.Data.List.Forall2

/-!
Runs of the heap: any calls of `mem_malloc`, and calls of `mem_free` for blocks that have
been given out and not yet been given back.
-/

namespace LwipDtn
open Outcome FirstFit Runs

/-- The heap with the blocks that are out: their addresses and the sizes asked for. -/
structure HeapTrace where
  heap : RamHeap
  live : List (Nat × Nat)

inductive HeapCall where
  | malloc (size : Nat)
  | free (block : Nat × Nat)

inductive HeapStep : HeapTrace → HeapCall → HeapTrace → Prop where
  | given {s : HeapTrace} {size p : Nat} {h : RamHeap}
      (call : memMalloc s.heap size = .ok (some p, h)) :
      HeapStep s (.malloc size) ⟨h, (p, size) :: s.live⟩
  | refused {s : HeapTrace} {size : Nat} {h : RamHeap}
      (call : memMalloc s.heap size = .ok (none, h)) : HeapStep s (.malloc size) ⟨h, s.live⟩
  | freed {s : HeapTrace} {block : Nat × Nat} (out : block ∈ s.live) :
      HeapStep s (.free block) ⟨memFree s.heap block.1, s.live.erase block⟩

def heapSystem : System HeapTrace HeapCall where
  start s := ∃ old, s = ⟨memInit old, []⟩
  step := HeapStep

/-- The most that a request takes of the heap. -/
def pieceMax (n : Nat) : Nat := blockSize n + sizeofStructMem + leastPiece - 1

theorem le_blockSize {n : Nat} (h : n ≤ memSizeAligned) : n ≤ blockSize n := by
  rw [memSizeAligned] at h
  have hmod : memAlignSize n % 65536 = memAlignSize n := by
    rw [memAlignSize]
    omega
  rw [blockSize, hmod, memAlignSize]
  split <;> omega

structure FillsPiece (e piece : Nat × Nat) : Prop where
  address : e.1 = piece.1 + sizeofStructMem
  small : e.2 ≤ blockSize e.2
  fits : blockSize e.2 + sizeofStructMem ≤ piece.2
  close : piece.2 ≤ pieceMax e.2

/-- The blocks that are out are the pieces in use. -/
structure HeapTrace.Accounted (s : HeapTrace) (l : List Piece) : Prop where
  holds : s.heap.Holds l
  coalesced : Coalesced l
  blocks : ∃ u, s.live.Forall₂ FillsPiece u ∧ u.Perm (inUse 0 l)

theorem memInit_accounted (old : Nat → Mem) :
    HeapTrace.Accounted ⟨memInit old, []⟩ [⟨memSizeAligned, false⟩] := by
  refine ⟨⟨⟨?_, trivial⟩, rfl, ?_, rfl, ?_⟩, .singleton _, [], .nil, .refl _⟩
  · dsimp only [memInit]
    rw [Function.update_of_ne (by decide), Function.update_self, Nat.zero_add]
  · dsimp only [memInit]
    rw [Function.update_self]
  · exact Sized.cons.mpr ⟨⟨by decide, ⟨8192, rfl⟩⟩, List.forall_mem_nil _⟩

section Partners

variable {R : Nat × Nat → Nat × Nat → Prop} {l u : List (Nat × Nat)}

theorem forall₂_erase (h : l.Forall₂ R u) {e : Nat × Nat} (he : e ∈ l) :
    ∃ x u', R e x ∧ u.Perm (x :: u') ∧ (l.erase e).Forall₂ R u' := by
  induction h with
  | nil => cases he
  | @cons a x l u hax hlu ih =>
      by_cases heq : a = e
      · subst heq
        rw [List.erase_cons_head]
        exact ⟨x, u, hax, .refl _, hlu⟩
      · obtain ⟨y, u', hey, hperm, hrest⟩ := ih ((List.mem_cons.mp he).resolve_left (Ne.symm heq))
        rw [List.erase_cons_tail (by simpa using heq)]
        exact ⟨y, x :: u', hey, (hperm.cons x).trans (.swap y x u'), .cons hax hrest⟩

theorem exists_of_forall₂ (h : l.Forall₂ R u) {e : Nat × Nat} (he : e ∈ l) : ∃ x ∈ u, R e x := by
  obtain ⟨x, u', hex, hperm, -⟩ := forall₂_erase h he
  exact ⟨x, hperm.symm.subset List.mem_cons_self, hex⟩

theorem pairwise_of_forall₂ {S T : Nat × Nat → Nat × Nat → Prop} (h : l.Forall₂ R u)
    (pairs : u.Pairwise S) (transfer : ∀ e f x y, R e x → R f y → S x y → T e f) :
    l.Pairwise T := by
  induction h with
  | nil => exact .nil
  | @cons e x l u hex hlu ih =>
      obtain ⟨hfirst, hrest⟩ := List.pairwise_cons.mp pairs
      refine .cons (fun f hf => ?_) (ih hrest)
      obtain ⟨y, hy, hfy⟩ := exists_of_forall₂ hlu hf
      exact transfer e f x y hex hfy (hfirst y hy)

theorem sum_le_of_forall₂ {g : Nat × Nat → Nat} (h : l.Forall₂ R u)
    (le : ∀ e x, R e x → x.2 ≤ g e) : (u.map Prod.snd).sum ≤ (l.map g).sum := by
  induction h with
  | nil => exact Nat.le_refl _
  | @cons e x l u hex hlu ih =>
      rw [List.map_cons, List.map_cons, List.sum_cons, List.sum_cons]
      exact Nat.add_le_add (le e x hex) ih

theorem sum_map_le {g : Nat × Nat → Nat} {k : Nat} (h : ∀ e ∈ l, g e ≤ k) :
    (l.map g).sum ≤ l.length * k := by
  induction l with
  | nil => exact Nat.zero_le _
  | cons e l ih =>
      have he := h e List.mem_cons_self
      have hl := ih fun f hf => h f (List.mem_cons_of_mem _ hf)
      rw [List.map_cons, List.sum_cons, List.length_cons, Nat.succ_mul]
      omega

end Partners

section Steps

variable {s : HeapTrace} {l : List Piece}

theorem HeapTrace.Accounted.given (h : s.Accounted l) {n x : Nat} {l' : List Piece}
    {heap : RamHeap} (small : n ≤ blockSize n)
    (takes : Takes leastPiece (blockSize n + sizeofStructMem) l x l') (holds : heap.Holds l') :
    HeapTrace.Accounted ⟨heap, (x + sizeofStructMem, n) :: s.live⟩ l' := by
  obtain ⟨u, hlive, hperm⟩ := h.blocks
  obtain ⟨before, after, size, hl, hl', hlow, hhigh⟩ := takes.inUse_eq (by decide)
  refine ⟨holds, takes.coalesced h.coalesced, (x, size) :: u, .cons ?_ hlive, ?_⟩
  · refine ⟨rfl, small, hlow, ?_⟩
    rw [pieceMax]
    dsimp only
    omega
  · rw [hl] at hperm
    rw [hl']
    exact (hperm.cons _).trans List.perm_middle.symm

theorem HeapTrace.Accounted.freed (h : s.Accounted l) {e : Nat × Nat} (out : e ∈ s.live) :
    ∃ l', HeapTrace.Accounted ⟨memFree s.heap e.1, s.live.erase e⟩ l' := by
  obtain ⟨u, hlive, hperm⟩ := h.blocks
  obtain ⟨x, u', hfills, hux, hrest⟩ := forall₂_erase hlive out
  have hmem : x ∈ inUse 0 l := hperm.subset (hux.symm.subset List.mem_cons_self)
  obtain ⟨a, b, rfl, hx⟩ := exists_of_mem_inUse hmem
  rw [Nat.zero_add] at hx
  have holds := h.holds.free
  rw [← hx, ← hfills.address] at holds
  refine ⟨_, holds, (Gives.back a b x.2).coalesced h.coalesced, u', hrest, ?_⟩
  -- the piece is the one that is no longer in use
  have hall : (x :: u').Perm (x :: (inUse 0 a ++ inUse (extent a + x.2) b)) := by
    refine hux.symm.trans (hperm.trans ?_)
    rw [inUse_append, inUse_used, Nat.zero_add, ← hx]
    exact List.perm_middle
  rw [inUse_rejoin]
  exact hall.cons_inv

theorem HeapTrace.Accounted.malloc (h : s.Accounted l) (n : Nat) :
    memMalloc s.heap n = .ok (none, s.heap) ∨
      n ≤ blockSize n ∧ ∃ x l' heap, Takes leastPiece (blockSize n + sizeofStructMem) l x l' ∧
        heap.Holds l' ∧ memMalloc s.heap n = .ok (some (x + sizeofStructMem), heap) := by
  by_cases hzero : n = 0
  · rw [memMalloc, if_pos hzero]
    exact .inl rfl
  by_cases accepted : memSizeAligned < blockSize n ∨ blockSize n < n
  · rw [memMalloc, if_neg hzero, if_pos accepted]
    exact .inl rfl
  rcases h.holds.malloc hzero accepted with ⟨-, hfull⟩ | hgiven
  · exact .inl hfull
  · exact .inr ⟨by omega, hgiven⟩

theorem HeapTrace.Accounted.step {s' : HeapTrace} {c : HeapCall} (h : s.Accounted l)
    (step : HeapStep s c s') : ∃ l', s'.Accounted l' := by
  cases step with
  | @given n p heap call =>
      rcases h.malloc n with hnone | ⟨small, x, l', heap', takes, holds, hsome⟩
      · rw [hnone] at call
        cases call
      · rw [hsome] at call
        cases call
        exact ⟨l', h.given small takes holds⟩
  | @refused n heap call =>
      rcases h.malloc n with hnone | ⟨-, x, l', heap', -, -, hsome⟩
      · rw [hnone] at call
        cases call
        exact ⟨l, h⟩
      · rw [hsome] at call
        cases call
  | freed out => exact h.freed out

theorem heap_accounted (run : heapSystem.Reaches (fun _ _ => True) s) : ∃ l, s.Accounted l := by
  refine run.invariant (P := fun s => ∃ l, s.Accounted l) ?_ ?_
  · rintro _ ⟨old, rfl⟩
    exact ⟨_, memInit_accounted old⟩
  · rintro s c s' ⟨l, h⟩ - step
    exact h.step step

theorem HeapTrace.Accounted.inside (h : s.Accounted l) {e x : Nat × Nat} (fills : FillsPiece e x)
    (hx : x ∈ inUse 0 l) : e.1 % memAlignment = 0 ∧ e.1 + e.2 ≤ memSizeAligned := by
  have haddress := fills.address
  have hsmall := fills.small
  have hfits := fills.fits
  have hwithin := inUse_within hx
  obtain ⟨a, b, rfl, hstart⟩ := exists_of_mem_inUse hx
  have hdvd := (Sized.append.mp h.holds.sized).1.dvd_extent
  rw [h.holds.whole] at hwithin
  rw [Nat.zero_add] at hstart
  refine ⟨?_, by omega⟩
  rw [haddress, hstart]
  exact Nat.mod_eq_zero_of_dvd (Nat.dvd_add hdvd ⟨2, rfl⟩)

theorem HeapTrace.Accounted.block_inside (h : s.Accounted l) {e : Nat × Nat} (he : e ∈ s.live) :
    e.1 % memAlignment = 0 ∧ sizeofStructMem ≤ e.1 ∧ e.1 + e.2 ≤ memSizeAligned := by
  obtain ⟨u, hlive, hperm⟩ := h.blocks
  obtain ⟨x, hx, fills⟩ := exists_of_forall₂ hlive he
  obtain ⟨haligned, hinside⟩ := h.inside fills (hperm.subset hx)
  exact ⟨haligned, fills.address ▸ Nat.le_add_left _ _, hinside⟩

/-- Two blocks with the header of the second between them. -/
def Apart (e f : Nat × Nat) : Prop :=
  e.1 + e.2 + sizeofStructMem ≤ f.1 ∨ f.1 + f.2 + sizeofStructMem ≤ e.1

theorem FillsPiece.apart {e f x y : Nat × Nat} (he : FillsPiece e x) (hf : FillsPiece f y)
    (h : x.1 + x.2 ≤ y.1 ∨ y.1 + y.2 ≤ x.1) : Apart e f := by
  have := he.address
  have := he.small
  have := he.fits
  have := hf.address
  have := hf.small
  have := hf.fits
  rw [Apart]
  omega

theorem HeapTrace.Accounted.apart (h : s.Accounted l) : s.live.Pairwise Apart := by
  obtain ⟨u, hlive, hperm⟩ := h.blocks
  have hpieces : u.Pairwise fun x y => x.1 + x.2 ≤ y.1 ∨ y.1 + y.2 ≤ x.1 :=
    hperm.symm.pairwise ((inUse_pairwise 0 l).imp Or.inl) Or.symm
  exact pairwise_of_forall₂ hlive hpieces fun _ _ _ _ he hf h => he.apart hf h

end Steps

/-- In every run of the heap a call returns, and the blocks that are out are aligned, lie in
the heap and do not overlap, with room for the headers between them. -/
theorem heap_blocks_disjoint (s : HeapTrace) (run : heapSystem.Reaches (fun _ _ => True) s) :
    (∀ n, ∃ r heap, memMalloc s.heap n = .ok (r, heap)) ∧
      (∀ e ∈ s.live, e.1 % memAlignment = 0 ∧ sizeofStructMem ≤ e.1 ∧
        e.1 + e.2 ≤ memSizeAligned) ∧
      s.live.Pairwise Apart := by
  obtain ⟨l, h⟩ := heap_accounted run
  refine ⟨fun n => ?_, fun e he => h.block_inside he, h.apart⟩
  rcases h.malloc n with hnone | ⟨-, x, l', heap, -, -, hsome⟩
  · exact ⟨_, _, hnone⟩
  · exact ⟨_, _, hsome⟩

/-- Two blocks one after the other. -/
theorem heap_blocks_disjoint_two :
    ∃ s, heapSystem.Reaches (fun _ _ => True) s ∧ s.live = [(116, 200), (8, 100)] ∧
      s.live.Pairwise Apart := by
  obtain ⟨h₁, h₂, first, second⟩ : ∃ h₁ h₂,
      memMalloc (memInit fun _ => ⟨0, 0, false⟩) 100 = .ok (some 8, h₁) ∧
        memMalloc h₁ 200 = .ok (some 116, h₂) := ⟨_, _, rfl, rfl⟩
  have start : heapSystem.Reaches (fun _ _ => True) ⟨memInit fun _ => ⟨0, 0, false⟩, []⟩ :=
    .start ⟨_, rfl⟩
  have run : heapSystem.Reaches (fun _ _ => True) ⟨h₂, [(116, 200), (8, 100)]⟩ :=
    (start.step trivial (HeapStep.given first)).step trivial (HeapStep.given second)
  exact ⟨_, run, rfl, (heap_blocks_disjoint _ run).2.2⟩

/-- The pieces in use and the free pieces between them cannot fill the heap. -/
theorem HeapTrace.Accounted.serves {s : HeapTrace} {l : List Piece} (h : s.Accounted l) {n : Nat}
    (pos : n ≠ 0) (small : n ≤ memSizeAligned)
    (room : (s.live.map fun e => pieceMax e.2).sum +
      (s.live.length + 1) * (blockSize n + sizeofStructMem - 1) < memSizeAligned) :
    ∃ p heap, memMalloc s.heap n = .ok (some p, heap) := by
  obtain ⟨u, hlive, hperm⟩ := h.blocks
  have hcount : 0 < s.live.length + 1 := Nat.succ_pos _
  have hone := Nat.le_mul_of_pos_left (blockSize n + sizeofStructMem - 1) hcount
  have hheader : 0 < sizeofStructMem := by decide
  have haccepted : ¬ (memSizeAligned < blockSize n ∨ blockSize n < n) := by
    have := le_blockSize small
    omega
  rcases h.holds.malloc pos haccepted with ⟨full, -⟩ | ⟨x, l', heap, -, -, hsome⟩
  · rw [show blockSize n + sizeofStructMem = blockSize n + sizeofStructMem - 1 + 1 by omega] at full
    have hbound := (full.bound h.coalesced 0).1
    have hsum := sum_le_of_forall₂ hlive fun e x hex => hex.close
    rw [(hperm.map Prod.snd).sum_eq] at hsum
    rw [h.holds.whole, ← hperm.length_eq, ← hlive.length_eq] at hbound
    omega
  · exact ⟨_, _, hsome⟩

/-- In every run of the heap a request is met if what the blocks that are out can take at
most, and a piece just too short for the request before and after each of them, is less than
the heap. With no block out the whole heap is there again. -/
theorem heap_serves_request (s : HeapTrace) (run : heapSystem.Reaches (fun _ _ => True) s) :
    (∀ n, n ≠ 0 → n ≤ memSizeAligned →
      (s.live.map fun e => pieceMax e.2).sum +
        (s.live.length + 1) * (blockSize n + sizeofStructMem - 1) < memSizeAligned →
      ∃ p heap, memMalloc s.heap n = .ok (some p, heap)) ∧
      (s.live = [] → ∀ n, n ≠ 0 → n ≤ memSizeAligned - sizeofStructMem →
        ∃ p heap, memMalloc s.heap n = .ok (some p, heap)) := by
  obtain ⟨l, h⟩ := heap_accounted run
  refine ⟨fun n pos small room => h.serves pos small room, fun hempty n pos small => ?_⟩
  refine h.serves pos (Nat.le_trans small (Nat.sub_le _ _)) ?_
  have hblock : blockSize n ≤ memSizeAligned - sizeofStructMem := by
    rw [memSizeAligned, sizeofStructMem] at small ⊢
    rw [blockSize, memAlignSize, minSizeAligned]
    split <;> omega
  rw [memSizeAligned, sizeofStructMem] at hblock ⊢
  rw [hempty, List.map_nil, List.sum_nil, List.length_nil, Nat.zero_add, Nat.zero_add, Nat.one_mul]
  omega

/-- Three blocks go out and the one in the middle comes back: a request that does not fit
into the hole is met. -/
theorem heap_serves_request_fragmented :
    ∃ s, heapSystem.Reaches (fun _ _ => True) s ∧ s.live = [(324, 300), (8, 100)] ∧
      ∃ p heap, memMalloc s.heap 8000 = .ok (some p, heap) := by
  obtain ⟨h₁, h₂, h₃, first, second, third⟩ : ∃ h₁ h₂ h₃,
      memMalloc (memInit fun _ => ⟨0, 0, false⟩) 100 = .ok (some 8, h₁) ∧
        memMalloc h₁ 200 = .ok (some 116, h₂) ∧ memMalloc h₂ 300 = .ok (some 324, h₃) :=
    ⟨_, _, _, rfl, rfl, rfl⟩
  have start : heapSystem.Reaches (fun _ _ => True) ⟨memInit fun _ => ⟨0, 0, false⟩, []⟩ :=
    .start ⟨_, rfl⟩
  have full := ((start.step trivial (HeapStep.given first)).step trivial
    (HeapStep.given second)).step trivial (HeapStep.given third)
  have middle :
      ((116 : Nat), (200 : Nat)) ∈ [((324 : Nat), (300 : Nat)), (116, 200), (8, 100)] := by
    decide
  have run : heapSystem.Reaches (fun _ _ => True) ⟨memFree h₃ 116, [(324, 300), (8, 100)]⟩ :=
    full.step trivial (@HeapStep.freed ⟨h₃, [(324, 300), (116, 200), (8, 100)]⟩ _ middle)
  have room : ([((324 : Nat), (300 : Nat)), (8, 100)].map fun e => pieceMax e.2).sum +
      ([((324 : Nat), (300 : Nat)), (8, 100)].length + 1) *
        (blockSize 8000 + sizeofStructMem - 1) < memSizeAligned := by decide
  exact ⟨_, run, rfl, (heap_serves_request _ run).1 8000 (by decide) (by decide) room⟩

/-! The buffers of type `PBUF_RAM`. -/

def sizeofStructPbuf : Nat := 24

/-- The spare room of a `PBUF_IP` buffer. -/
def pbufIp : Nat := 54

/-- `payload_len` -/
def pbufPayloadLen (offset length : Nat) : Nat :=
  (memAlignSize offset + memAlignSize length) % 65536

/-- `alloc_len` -/
def pbufAllocLen (offset length : Nat) : Nat :=
  (memAlignSize sizeofStructPbuf + pbufPayloadLen offset length) % 65536

/-- `pbuf_alloc(layer, length, PBUF_RAM)`, with the room that the layer asks for: the place of
the payload. -/
def pbufAllocRam (h : RamHeap) (offset length : Nat) : Run (Option Nat × RamHeap) :=
  if pbufPayloadLen offset length < memAlignSize length ∨
      pbufAllocLen offset length < memAlignSize length then .ok (none, h)
  else do
    match ← memMalloc h (pbufAllocLen offset length) with
    | (none, h) => return (none, h)
    | (some p, h) => return (some (memAlignSize (p + sizeofStructPbuf + offset)), h)

/-- The largest buffer for a packet that has been read, with the custodian option. -/
def packetBlock : Nat := pbufAllocLen pbufIp (2048 + 24)

theorem pbufAllocLen_eq {offset length : Nat} (ho : offset ≤ pbufIp) (hl : length ≤ 2048 + 24) :
    pbufPayloadLen offset length = memAlignSize offset + memAlignSize length ∧
      pbufAllocLen offset length = sizeofStructPbuf + memAlignSize offset + memAlignSize length ∧
      pbufAllocLen offset length ≤ packetBlock := by
  rw [pbufIp] at ho
  have hpacket : packetBlock = 2152 := by decide
  rw [hpacket]
  simp only [pbufAllocLen, pbufPayloadLen, memAlignSize, sizeofStructPbuf]
  omega

theorem pieceMax_packet {n : Nat} (h : n ≤ packetBlock) :
    pieceMax n ≤ 2179 ∧ blockSize n + sizeofStructMem - 1 ≤ 2159 := by
  have hpacket : packetBlock = 2152 := by decide
  rw [hpacket] at h
  have hblock : blockSize n ≤ 2152 := by
    rw [blockSize, memAlignSize, minSizeAligned]
    split <;> omega
  simp only [pieceMax, sizeofStructMem, leastPiece, minSizeAligned]
  omega

/-- While at most seven buffers of packets are out, `pbuf_alloc` for another packet does not
fail. The payload lies inside the block of its own, so that the packet buffers of the other
modules can be made of the memory there. -/
theorem packet_buffers_fit_heap (s : HeapTrace) (run : heapSystem.Reaches (fun _ _ => True) s)
    (few : s.live.length ≤ 7) (sizes : ∀ e ∈ s.live, e.2 ≤ packetBlock) (offset length : Nat)
    (ho : offset ≤ pbufIp) (hl : length ≤ 2048 + 24) (contents : Bytes)
    (whole : memSizeAligned ≤ contents.length) :
    ∃ p payload heap block behind,
      pbufAllocRam s.heap offset length = .ok (some payload, heap) ∧
        HeapStep s (.malloc (pbufAllocLen offset length))
          ⟨heap, (p, pbufAllocLen offset length) :: s.live⟩ ∧
        pbufAllocLen offset length ≤ packetBlock ∧
        p + sizeofStructPbuf + offset ≤ payload ∧
        payload + length ≤ p + pbufAllocLen offset length ∧
        pbufAlloc (some (contents.drop payload)) length = some (block, behind) := by
  obtain ⟨l, h⟩ := heap_accounted run
  obtain ⟨hpayload, hlen, hmax⟩ := pbufAllocLen_eq ho hl
  have hsum := sum_map_le fun e he => (pieceMax_packet (sizes e he)).1
  have hnext := (pieceMax_packet hmax).2
  have hpos : pbufAllocLen offset length ≠ 0 := by
    rw [hlen, sizeofStructPbuf]
    omega
  have hsmall : packetBlock ≤ memSizeAligned := by decide
  have hroom : (s.live.map fun e => pieceMax e.2).sum + (s.live.length + 1) *
      (blockSize (pbufAllocLen offset length) + sizeofStructMem - 1) < memSizeAligned := by
    have := Nat.mul_le_mul (Nat.add_le_add_right few 1) hnext
    rw [memSizeAligned]
    omega
  obtain ⟨p, heap, hcall⟩ := h.serves hpos (Nat.le_trans hmax hsmall) hroom
  have hstep : HeapStep s (.malloc (pbufAllocLen offset length))
      ⟨heap, (p, pbufAllocLen offset length) :: s.live⟩ := .given hcall
  -- the block is aligned and in the heap, as every block is that is out
  obtain ⟨l', h'⟩ := h.step hstep
  obtain ⟨haligned, -, hinside⟩ := h'.block_inside List.mem_cons_self
  dsimp only at haligned hinside
  have haddress : memAlignSize (p + sizeofStructPbuf + offset) =
      p + sizeofStructPbuf + memAlignSize offset := by
    rw [memAlignment] at haligned
    simp only [memAlignSize, sizeofStructPbuf]
    omega
  have hoffset : offset ≤ memAlignSize offset ∧ length ≤ memAlignSize length := by
    simp only [memAlignSize]
    omega
  have hfits : length % 65536 ≤
      (contents.drop (memAlignSize (p + sizeofStructPbuf + offset))).length := by
    rw [List.length_drop, haddress]
    omega
  refine ⟨p, _, heap, _, _, ?_, hstep, hmax, ?_, ?_, if_pos hfits⟩
  · rw [pbufAllocRam, if_neg (by omega), hcall]
    rfl
  · rw [haddress]
    omega
  · rw [haddress, hlen]
    omega

/-- A packet of 2048 bytes with the option, while two others are in use. -/
theorem packet_buffer_fits_third :
    ∃ s, heapSystem.Reaches (fun _ _ => True) s ∧ s.live = [(2112, 2096), (8, 2096)] ∧
      ∃ payload heap, pbufAllocRam s.heap 0 2072 = .ok (some payload, heap) := by
  obtain ⟨h₁, h₂, first, second⟩ : ∃ h₁ h₂,
      memMalloc (memInit fun _ => ⟨0, 0, false⟩) 2096 = .ok (some 8, h₁) ∧
        memMalloc h₁ 2096 = .ok (some 2112, h₂) := ⟨_, _, rfl, rfl⟩
  have start : heapSystem.Reaches (fun _ _ => True) ⟨memInit fun _ => ⟨0, 0, false⟩, []⟩ :=
    .start ⟨_, rfl⟩
  have run : heapSystem.Reaches (fun _ _ => True) ⟨h₂, [(2112, 2096), (8, 2096)]⟩ :=
    (start.step trivial (HeapStep.given first)).step trivial (HeapStep.given second)
  have sizes : ∀ e ∈ [((2112 : Nat), (2096 : Nat)), (8, 2096)], e.2 ≤ packetBlock := by decide
  have few : [((2112 : Nat), (2096 : Nat)), (8, 2096)].length ≤ 7 := by decide
  obtain ⟨p, payload, heap, block, behind, halloc, -⟩ := packet_buffers_fit_heap _ run few
    sizes 0 2072 (by decide) (by decide) (List.replicate memSizeAligned 0) (Nat.le_of_eq
    List.length_replicate.symm)
  exact ⟨_, run, rfl, payload, heap, halloc⟩

end LwipDtn
