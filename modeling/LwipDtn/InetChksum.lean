import LwipDtn.Library.Bytes
import LwipDtn.Library.OnesComplement

/-!
`inet_chksum.c` with the second of its algorithms, on a little-endian host: the checksum of
a chain of buffers with the pseudo header of IPv6. A segment may begin at an odd address,
and it may have an odd length; its bytes are then added in exchanged positions and the sum
is exchanged again.
-/

namespace LwipDtn
open OnesComplement

/-- A buffer of a chain: whether its payload begins at an odd address, and its bytes. -/
structure Segment where
  odd : Bool
  payload : Bytes
  len_lt : payload.length < 65536

def add32 (a b : Nat) : Nat := (a + b) % 4294967296

/-- The loop over the words; a byte may be left. -/
def addWords : Nat → Bytes → Nat × Bytes
  | sum, a :: b :: rest => addWords (add32 sum (a.toNat + 256 * b.toNat)) rest
  | sum, rest => (sum, rest)

/-- `((u8_t *)&t)[0] = b` -/
def setLow (t : Nat) : Bytes → Nat
  | b :: _ => t / 256 * 256 + b.toNat
  | [] => t

def lwipStandardChksum (odd : Bool) (data : Bytes) : Nat :=
  let t := if odd then (data.headD 0).toNat * 256 else 0
  let (sum, left) := addWords 0 (if odd then data.tail else data)
  let sum := fold (fold (add32 sum (setLow t left)))
  if odd then swap sum % 65536 else sum % 65536

def addSegment (state : Nat × Bool) (q : Segment) : Nat × Bool :=
  let acc := fold (add32 state.1 (lwipStandardChksum q.odd q.payload))
  if q.payload.length % 2 ≠ 0 then (swap acc, !state.2) else (acc, state.2)

def inetCksumPseudoBase (p : List Segment) (proto : UInt8) (protoLen acc : Nat) : Nat :=
  let (acc, swapped) := p.foldl addSegment (acc, false)
  let acc := if swapped then swap acc else acc
  let acc := add32 acc (swap proto.toNat)
  let acc := add32 acc (swap (protoLen % 65536))
  65535 - fold (fold acc) % 65536

/-- The two halves of each word of the two addresses. -/
def addAddresses : Nat → Bytes → Bytes → Nat
  | acc, a₀ :: a₁ :: a₂ :: a₃ :: src, b₀ :: b₁ :: b₂ :: b₃ :: dest =>
      let acc := add32 acc (a₀.toNat + 256 * a₁.toNat)
      let acc := add32 acc (a₂.toNat + 256 * a₃.toNat)
      let acc := add32 acc (b₀.toNat + 256 * b₁.toNat)
      let acc := add32 acc (b₂.toNat + 256 * b₃.toNat)
      addAddresses acc src dest
  | acc, _, _ => acc

def ip6ChksumPseudo (p : List Segment) (proto : UInt8) (protoLen : Nat) (src dest : Block 16) :
    Nat :=
  inetCksumPseudoBase p proto protoLen (fold (fold (addAddresses 0 src.1 dest.1)))

/-! The sum of one buffer. -/

theorem add32_eq {a b : Nat} (h : a + b < 4294967296) : add32 a b = a + b := Nat.mod_eq_of_lt h

theorem word_le (a b : UInt8) : a.toNat + 256 * b.toNat ≤ 65535 := by
  have ha := a.toNat_lt
  have hb := b.toNat_lt
  omega

theorem addWords_spec {sum : Nat} {data : Bytes} (room : sum + 65535 * data.length < 4294901760) :
    (addWords sum data).1 < 4294901760 ∧ (addWords sum data).2.length ≤ 1 ∧
      ((addWords sum data).1 : ZMod 65535) + value (addWords sum data).2 = sum + value data := by
  induction sum, data using addWords.induct with
  | case1 sum a b rest ih =>
      have hword := word_le a b
      simp only [List.length_cons] at room
      have hsum : add32 sum (a.toNat + 256 * b.toNat) = sum + (a.toNat + 256 * b.toNat) :=
        add32_eq (by omega)
      obtain ⟨hlt, hleft, hvalue⟩ := ih (by rw [hsum]; omega)
      rw [addWords]
      refine ⟨hlt, hleft, ?_⟩
      rw [hvalue, hsum, value_word]
      push_cast
      ring
  | case2 sum data hshort =>
      rw [addWords.eq_2 sum data hshort]
      refine ⟨Nat.lt_of_le_of_lt (Nat.le_add_right _ _) room, ?_, rfl⟩
      rcases data with - | ⟨a, - | ⟨b, rest⟩⟩
      · exact Nat.zero_le 1
      · exact Nat.le_refl 1
      · exact absurd rfl (hshort a b rest)

theorem setLow_spec {t : Nat} (h : t % 256 = 0) (ht : t < 65536) {left : Bytes}
    (short : left.length ≤ 1) :
    setLow t left < 65536 ∧ (setLow t left : ZMod 65535) = t + value left := by
  rcases left with - | ⟨b, - | ⟨c, left⟩⟩
  · exact ⟨ht, (add_zero _).symm⟩
  · have hb := b.toNat_lt
    have hlow : setLow t [b] = t + b.toNat := by
      rw [setLow]
      omega
    rw [hlow]
    refine ⟨by omega, ?_⟩
    rw [value, value]
    push_cast
    ring
  · rw [List.length_cons, List.length_cons] at short
    omega

theorem addEnds_spec {t : Nat} (h : t % 256 = 0) (ht : t < 65536) {data : Bytes}
    (hlen : data.length < 65536) :
    fold (fold (add32 (addWords 0 data).1 (setLow t (addWords 0 data).2))) ≤ 65535 ∧
      (fold (fold (add32 (addWords 0 data).1 (setLow t (addWords 0 data).2))) : ZMod 65535) =
        t + value data := by
  have room : 0 + 65535 * data.length < 4294901760 := by omega
  obtain ⟨hlt, hleft, hvalue⟩ := addWords_spec room
  obtain ⟨hsmall, hlow⟩ := setLow_spec h ht hleft
  have hroom : (addWords 0 data).1 + setLow t (addWords 0 data).2 < 4294967296 := by omega
  rw [add32_eq hroom]
  refine ⟨fold_fold_le hroom, ?_⟩
  rw [fold_cast, fold_cast]
  push_cast
  rw [hlow]
  push_cast at hvalue
  linear_combination hvalue

/-- The checksum of a buffer is its value, wherever the buffer begins. -/
theorem lwipStandardChksum_spec (q : Segment) :
    lwipStandardChksum q.odd q.payload ≤ 65535 ∧
      (lwipStandardChksum q.odd q.payload : ZMod 65535) = value q.payload := by
  obtain ⟨odd, data, hlen⟩ := q
  dsimp only
  cases odd with
  | false =>
      obtain ⟨hle, hvalue⟩ := addEnds_spec (t := 0) rfl (by decide) hlen
      simp only [lwipStandardChksum, Bool.false_eq_true, if_false]
      rw [Nat.mod_eq_of_lt (Nat.lt_succ_of_le hle)]
      refine ⟨hle, ?_⟩
      rw [hvalue, Nat.cast_zero, zero_add]
  | true =>
      -- the first byte is the upper one of a word, and the others follow it
      have hhead := (data.headD 0).toNat_lt
      have htail : data.tail.length < 65536 := by
        rw [List.length_tail]
        omega
      obtain ⟨hle, hvalue⟩ := addEnds_spec (t := (data.headD 0).toNat * 256)
        (Nat.mul_mod_left _ _) (by omega) htail
      simp only [lwipStandardChksum, if_true]
      rw [Nat.mod_eq_of_lt (Nat.lt_succ_of_le (swap_le _))]
      refine ⟨swap_le _, ?_⟩
      rw [swap_cast hle, hvalue]
      cases data with
      | nil => simp [value]
      | cons b rest =>
          rw [List.headD_cons, List.tail_cons, value]
          push_cast
          linear_combination (b.toNat : ZMod 65535) * two_swaps

/-! The chain. -/

def chainBytes (p : List Segment) : Bytes := p.flatMap Segment.payload

/-- What has been added so far, exchanged if the number of bytes is odd. -/
structure Added (acc : Nat) (state : Nat × Bool) (bytes : Bytes) : Prop where
  small : state.1 ≤ 65535
  parity : state.2 = decide (bytes.length % 2 = 1)
  sum : (state.1 : ZMod 65535) = 256 ^ bytes.length * (acc + value bytes)

theorem Added.segment {acc : Nat} {state : Nat × Bool} {bytes : Bytes} (h : Added acc state bytes)
    (q : Segment) : Added acc (addSegment state q) (bytes ++ q.payload) := by
  obtain ⟨hle, hvalue⟩ := lwipStandardChksum_spec q
  have hsmall := h.small
  have hadd : add32 state.1 (lwipStandardChksum q.odd q.payload) =
      state.1 + lwipStandardChksum q.odd q.payload := add32_eq (by omega)
  have hfold : fold (state.1 + lwipStandardChksum q.odd q.payload) ≤ 65535 := fold_le (by omega)
  have hsum : (fold (state.1 + lwipStandardChksum q.odd q.payload) : ZMod 65535) =
      256 ^ bytes.length * (acc + value (bytes ++ q.payload)) := by
    rw [fold_cast, value_append]
    push_cast
    rw [h.sum, hvalue]
    linear_combination (-value q.payload) * pow_mul_self bytes.length
  rw [addSegment, hadd]
  by_cases odd : q.payload.length % 2 = 1
  · rw [if_pos (by omega)]
    refine ⟨swap_le _, ?_, ?_⟩
    · rw [h.parity, ← decide_not, List.length_append]
      exact decide_eq_decide.mpr (by omega)
    · rw [swap_cast hfold, hsum, List.length_append, pow_add, pow_odd odd]
      ring
  · rw [if_neg (by omega)]
    refine ⟨hfold, ?_, ?_⟩
    · rw [h.parity, List.length_append]
      exact decide_eq_decide.mpr (by omega)
    · have heven : q.payload.length % 2 = 0 := by omega
      rw [hsum, List.length_append, pow_add, pow_even heven, mul_one]

theorem Added.segments {acc : Nat} {state : Nat × Bool} {bytes : Bytes} (h : Added acc state bytes)
    (p : List Segment) : Added acc (p.foldl addSegment state) (bytes ++ chainBytes p) := by
  induction p generalizing state bytes with
  | nil =>
      rw [chainBytes, List.flatMap_nil, List.append_nil]
      exact h
  | cons q p ih =>
      rw [chainBytes, List.flatMap_cons, ← List.append_assoc]
      exact ih (h.segment q)

theorem chain_sum {acc : Nat} (h : acc ≤ 65535) (p : List Segment) :
    ∃ sum : Nat, sum ≤ 65535 ∧ (sum : ZMod 65535) = acc + value (chainBytes p) ∧
      ∀ proto protoLen, inetCksumPseudoBase p proto protoLen acc =
        65535 - fold (fold (add32 (add32 sum (swap proto.toNat))
          (swap (protoLen % 65536)))) % 65536 := by
  have hstart : Added acc (acc, false) [] := ⟨h, rfl, by simp [value]⟩
  have hend := hstart.segments p
  rw [List.nil_append] at hend
  refine ⟨if (p.foldl addSegment (acc, false)).2 then swap (p.foldl addSegment (acc, false)).1
    else (p.foldl addSegment (acc, false)).1, ?_, ?_, fun _ _ => rfl⟩
  · split
    · exact swap_le _
    · exact hend.small
  · rw [hend.parity]
    by_cases odd : (chainBytes p).length % 2 = 1
    · rw [if_pos (decide_eq_true odd), swap_cast hend.small, hend.sum, pow_odd odd]
      linear_combination ((acc : ZMod 65535) + value (chainBytes p)) * two_swaps
    · rw [if_neg (by simpa using odd), hend.sum, pow_even (by omega), one_mul]

/-! The checksum with the pseudo header. -/

theorem addAddresses_spec {acc : Nat} {src dest : Bytes} (hlen : src.length = dest.length)
    (whole : src.length % 4 = 0) (room : acc + 65535 * src.length < 4294967296) :
    addAddresses acc src dest < 4294967296 ∧
      (addAddresses acc src dest : ZMod 65535) = acc + value src + value dest := by
  induction acc, src, dest using addAddresses.induct with
  | case1 acc a₀ a₁ a₂ a₃ src b₀ b₁ b₂ b₃ dest acc₁ acc₂ acc₃ acc₄ ih =>
      have h₁ := word_le a₀ a₁
      have h₂ := word_le a₂ a₃
      have h₃ := word_le b₀ b₁
      have h₄ := word_le b₂ b₃
      simp only [List.length_cons] at hlen whole room
      have hacc : acc₄ = acc + (a₀.toNat + 256 * a₁.toNat) + (a₂.toNat + 256 * a₃.toNat) +
          (b₀.toNat + 256 * b₁.toNat) + (b₂.toNat + 256 * b₃.toNat) := by
        simp only [acc₄, acc₃, acc₂, acc₁, add32]
        omega
      obtain ⟨hlt, hsum⟩ := ih (by omega) (by omega) (by omega)
      rw [addAddresses]
      refine ⟨hlt, ?_⟩
      rw [hsum, hacc, value_word, value_word, value_word, value_word]
      push_cast
      ring
  | case2 src acc dest hshort =>
      have hnil : src = [] := by
        rcases src with - | ⟨a₀, - | ⟨a₁, - | ⟨a₂, - | ⟨a₃, src⟩⟩⟩⟩
        · rfl
        · cases whole
        · cases whole
        · cases whole
        · rcases dest with - | ⟨b₀, - | ⟨b₁, - | ⟨b₂, - | ⟨b₃, dest⟩⟩⟩⟩
          · cases hlen
          · cases hlen
          · cases hlen
          · cases hlen
          · exact absurd rfl (hshort a₀ a₁ a₂ a₃ src b₀ b₁ b₂ b₃ dest rfl)
      subst hnil
      have hdest : dest = [] := List.eq_nil_of_length_eq_zero hlen.symm
      subst hdest
      have hend : addAddresses acc [] [] = acc := by rw [addAddresses]; exact hshort
      rw [hend]
      refine ⟨by omega, ?_⟩
      rw [value, add_zero, add_zero]

/-- The value of the pseudo header and the message. -/
def pseudoValue (bytes : Bytes) (proto : UInt8) (protoLen : Nat) (src dest : Block 16) :
    ZMod 65535 :=
  value src.1 + value dest.1 + value bytes + swap proto.toNat + swap (protoLen % 65536)

/-- The checksum is the complement of the one sum above zero with that value. -/
theorem ip6ChksumPseudo_spec (p : List Segment) {proto : UInt8} (hproto : proto ≠ 0)
    (protoLen : Nat) (src dest : Block 16) :
    ∃ sum : Nat, 0 < sum ∧ sum ≤ 65535 ∧
      (sum : ZMod 65535) = pseudoValue (chainBytes p) proto protoLen src dest ∧
      ip6ChksumPseudo p proto protoLen src dest = 65535 - sum := by
  have hwhole : src.1.length % 4 = 0 := by rw [src.2]
  have hroom : 0 + 65535 * src.1.length < 4294967296 := by rw [src.2]; decide
  obtain ⟨haddr, hvalue⟩ := addAddresses_spec (src.2.trans dest.2.symm) hwhole hroom
  obtain ⟨sum, hsmall, hsum, hrun⟩ := chain_sum (fold_fold_le haddr) p
  have hswap := swap_le (protoLen % 65536)
  have hpos : 0 < swap proto.toNat := by
    have hne : proto.toNat ≠ 0 := fun h => hproto (UInt8.toNat_inj.mp h)
    have hlt := proto.toNat_lt
    unfold swap
    omega
  have hproto' := swap_le proto.toNat
  have hadd : add32 (add32 sum (swap proto.toNat)) (swap (protoLen % 65536)) =
      sum + swap proto.toNat + swap (protoLen % 65536) := by
    rw [add32_eq (a := sum) (by omega), add32_eq (by omega)]
  have hle := fold_fold_le (x := sum + swap proto.toNat + swap (protoLen % 65536)) (by omega)
  refine ⟨fold (fold (sum + swap proto.toNat + swap (protoLen % 65536))), ?_, hle, ?_, ?_⟩
  · exact fold_pos (fold_pos (by omega))
  · rw [fold_cast, fold_cast, pseudoValue]
    push_cast
    rw [hsum, fold_cast, fold_cast, hvalue]
    push_cast
    ring
  · rw [ip6ChksumPseudo, hrun, hadd, Nat.mod_eq_of_lt (by omega)]

/-- Two chains with the same bytes have the same checksum, however the bytes are cut into
buffers and wherever these begin. -/
theorem checksum_of_same_bytes (p p' : List Segment) (h : chainBytes p = chainBytes p')
    {proto : UInt8} (hproto : proto ≠ 0) (protoLen : Nat) (src dest : Block 16) :
    ip6ChksumPseudo p proto protoLen src dest = ip6ChksumPseudo p' proto protoLen src dest := by
  obtain ⟨sum, hpos, hle, hsum, hrun⟩ := ip6ChksumPseudo_spec p hproto protoLen src dest
  obtain ⟨sum', hpos', hle', hsum', hrun'⟩ := ip6ChksumPseudo_spec p' hproto protoLen src dest
  rw [← h, ← hsum] at hsum'
  rw [hrun, hrun', eq_of_cast hpos hle hpos' hle' hsum'.symm]

/-- Three bytes in one buffer at an odd address, and in two buffers. -/
theorem checksum_of_three_bytes :
    chainBytes [⟨true, [1, 2, 3], by decide⟩] =
      chainBytes [⟨false, [1], by decide⟩, ⟨true, [2, 3], by decide⟩] ∧
    ip6ChksumPseudo [⟨true, [1, 2, 3], by decide⟩] 58 3 ⟨List.replicate 16 1, rfl⟩
        ⟨List.replicate 16 2, rfl⟩ =
      ip6ChksumPseudo [⟨false, [1], by decide⟩, ⟨true, [2, 3], by decide⟩] 58 3
        ⟨List.replicate 16 1, rfl⟩ ⟨List.replicate 16 2, rfl⟩ :=
  ⟨rfl, checksum_of_same_bytes _ _ rfl (by decide) _ _ _⟩

/-! The checksum in the message. -/

def le16 (n : Nat) : Bytes := [UInt8.ofNat n, UInt8.ofNat (n / 256)]

theorem le16_length (n : Nat) : (le16 n).length = 2 := rfl

theorem value_field {before : Bytes} (even : before.length % 2 = 0) {n : Nat} (h : n ≤ 65535)
    (after : Bytes) :
    value (before ++ (le16 n ++ after)) = value (before ++ (le16 0 ++ after)) + n := by
  have hword : (UInt8.ofNat n).toNat + 256 * (UInt8.ofNat (n / 256)).toNat = n := by
    rw [UInt8.toNat_ofNat', UInt8.toNat_ofNat']
    omega
  have hfield : value (le16 n ++ after) = n + value after := by
    rw [le16, List.cons_append, List.cons_append, List.nil_append, value_word, hword]
  have hempty : value (le16 0 ++ after) = value after := by
    rw [le16, List.cons_append, List.cons_append, List.nil_append, value_word]
    exact zero_add _
  rw [value_append before, value_append before, pow_even even, hfield, hempty]
  ring

theorem checksum_verifies {p p' : List Segment} {before after : Bytes}
    (even : before.length % 2 = 0) {proto : UInt8} (hproto : proto ≠ 0) {protoLen : Nat}
    {src dest : Block 16} (hempty : chainBytes p = before ++ (le16 0 ++ after))
    (hfilled : chainBytes p' =
      before ++ (le16 (ip6ChksumPseudo p proto protoLen src dest) ++ after)) :
    ip6ChksumPseudo p' proto protoLen src dest = 0 := by
  obtain ⟨sum, hpos, hle, hsum, hrun⟩ := ip6ChksumPseudo_spec p hproto protoLen src dest
  obtain ⟨sum', hpos', hle', hsum', hrun'⟩ := ip6ChksumPseudo_spec p' hproto protoLen src dest
  have hvalue := value_field even (Nat.sub_le 65535 sum) after
  have hzero : (sum' : ZMod 65535) = (65535 : Nat) := by
    rw [hrun] at hfilled
    rw [hsum', pseudoValue, hfilled, hvalue, ← hempty, Nat.cast_sub hle, hsum, pseudoValue]
    ring
  rw [hrun', eq_of_cast hpos' hle' (by decide) (Nat.le_refl _) hzero]

end LwipDtn
