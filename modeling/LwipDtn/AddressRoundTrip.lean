import LwipDtn.AddressReader
import LwipDtn.Routing
import LwipDtn.StorageDisk
import Mathlib.Data.List.Induction
import Mathlib.Data.Nat.Digits.Defs

/-!
Reading the text of an address gives the address back. The number of colons decides how
many zeros the reader puts in for `::`, so the colons of each part of the text are counted
together with reading it.
-/

namespace LwipDtn
open Outcome Bytes

/-! Digits. -/

theorem xchar_reads {d : Nat} (h : d < 16) :
    xchar d ≠ ':' ∧ isxdigit (xchar d) = true ∧ xdigitValue (xchar d) = UInt32.ofNat d := by
  have key : ∀ i : Fin 16, xchar i ≠ ':' ∧ isxdigit (xchar i) = true ∧
      xdigitValue (xchar i) = UInt32.ofNat i := by decide
  exact key ⟨d, h⟩

theorem shift_add_digit (n d : Nat) :
    (UInt32.ofNat n <<< 4) + UInt32.ofNat d = UInt32.ofNat (n * 16 + d) := by
  apply UInt32.toNat_inj.mp
  simp [Nat.shiftLeft_eq]

section Reading

variable {zeroBlocks v : UInt32} {done : List UInt32} {rest : List Char}

theorem readBlocks_xchar {d : Nat} (h : d < 16) (n : Nat) :
    readBlocks (xchar d :: rest) zeroBlocks done (UInt32.ofNat n) =
      readBlocks rest zeroBlocks done (UInt32.ofNat (n * 16 + d)) := by
  obtain ⟨hcolon, hdigit, hvalue⟩ := xchar_reads h
  rw [readBlocks_digit hcolon hdigit, hvalue, shift_add_digit]

/-- A zero that is not written would not change the value. -/
theorem readBlocks_digitText {zeroFlag : Bool} {d n : Nat} (h : d < 16)
    (hflag : zeroFlag = true → n = 0) :
    readBlocks (digitText zeroFlag d ++ rest) zeroBlocks done (UInt32.ofNat n) =
      readBlocks rest zeroBlocks done (UInt32.ofNat (n * 16 + d)) := by
  unfold digitText
  split
  · rename_i skipped
    rw [hflag skipped.2, skipped.1]
    rfl
  · exact readBlocks_xchar h n

theorem readBlocks_blockText {b : Nat} (h : b < 65536) :
    readBlocks (blockText b ++ rest) zeroBlocks done 0 =
      readBlocks rest zeroBlocks done (UInt32.ofNat b) := by
  have digit (n : Nat) : n % 16 < 16 := Nat.mod_lt n (by decide)
  have hfirst (d : Nat) (hflag : decide (d = 0) = true) : 0 * 16 + d = 0 := by
    rw [of_decide_eq_true hflag]
  have hsecond (d d' : Nat) (hflag : (decide (d = 0) && decide (d' = 0)) = true) :
      (0 * 16 + d) * 16 + d' = 0 := by
    rw [Bool.and_eq_true] at hflag
    rw [of_decide_eq_true hflag.1, of_decide_eq_true hflag.2]
  simp only [blockText, List.append_assoc, List.singleton_append]
  rw [show (0 : UInt32) = UInt32.ofNat 0 from rfl, readBlocks_digitText (digit _) fun _ => rfl,
    readBlocks_digitText (digit _) (hfirst _), readBlocks_digitText (digit _) (hsecond _ _),
    readBlocks_xchar (digit _)]
  congr 2
  omega

theorem blockText_head (b : Nat) (rest : List Char) :
    (blockText b ++ rest).head? ≠ some ':' := by
  cases htext : blockText b with
  | nil => simp [blockText] at htext
  | cons c text =>
      obtain ⟨d, hd, hc⟩ := blockText_digits b c (htext ▸ List.mem_cons_self)
      rw [hc]
      intro h
      exact (xchar_reads hd).1 (Option.some.inj h)

theorem blockText_single (b : Nat) (rest rest' : List Char) :
    blockText b ++ rest ≠ ':' :: rest' := by
  intro h
  have hhead := blockText_head b rest
  rw [h] at hhead
  exact hhead rfl

theorem readBlocks_afterRun {blocks : List Nat} (small : ∀ b ∈ blocks, b < 65536)
    (hlen : done.length + 1 + blocks.length = 8) :
    readBlocks (afterRun blocks) zeroBlocks done v =
      some (done ++ v :: blocks.map UInt32.ofNat, []) := by
  induction blocks generalizing done v with
  | nil => rfl
  | cons b blocks ih =>
      rw [List.length_cons] at hlen
      have htext : afterRun (b :: blocks) = ':' :: (blockText b ++ afterRun blocks) := rfl
      rw [htext, readBlocks_colon (by omega) (blockText_single b _),
        readBlocks_blockText (small b List.mem_cons_self),
        ih (fun x hx => small x (List.mem_cons_of_mem b hx)) (by
          rw [List.length_append, List.length_singleton]
          omega), List.append_assoc]
      rfl

end Reading

/-! Colons and zeros. -/

theorem colons_blockText (b : Nat) : (blockText b).count ':' = 0 := by
  refine List.count_eq_zero.mpr fun hcolon => ?_
  obtain ⟨d, hd, hc⟩ := blockText_digits b _ hcolon
  exact (xchar_reads hd).1 hc.symm

theorem colons_afterRun (blocks : List Nat) : (afterRun blocks).count ':' = blocks.length := by
  induction blocks with
  | nil => rfl
  | cons b blocks ih =>
      have htext : afterRun (b :: blocks) = ':' :: (blockText b ++ afterRun blocks) := rfl
      rw [htext, List.count_cons_self, List.count_append, colons_blockText, ih, List.length_cons,
        Nat.zero_add]

theorem inRun_shape (blocks : List Nat) (nonempty : blocks ≠ []) :
    (blocks = List.replicate blocks.length 0 ∧ inRun blocks = [':']) ∨
    ∃ zeros b others, blocks = List.replicate zeros 0 ++ b :: others ∧
      inRun blocks = afterRun (b :: others) := by
  induction blocks with
  | nil => exact absurd rfl nonempty
  | cons b blocks ih =>
      rw [inRun]
      by_cases zero : b = 0
      · rw [if_pos zero, zero]
        by_cases last : blocks = []
        · rw [if_pos last, last]
          exact .inl ⟨rfl, rfl⟩
        · rw [if_neg last]
          obtain ⟨hzeros, htext⟩ | ⟨zeros, c, others, hblocks, htext⟩ := ih last
          · refine .inl ⟨?_, htext⟩
            rw [List.length_cons, List.replicate_succ, ← hzeros]
          · refine .inr ⟨zeros + 1, c, others, ?_, htext⟩
            rw [List.replicate_succ, List.cons_append, ← hblocks]
      · rw [if_neg zero]
        exact .inr ⟨0, b, blocks, rfl, rfl⟩

section Text

variable {behind b : Nat} {blocks : List Nat}

theorem beforeRun_run (run : b = 0 ∧ blocks.headD behind = 0) (index : Nat) :
    beforeRun behind index (b :: blocks) = ':' :: inRun blocks := by
  rw [beforeRun, if_pos run]

theorem beforeRun_first (block : ¬ (b = 0 ∧ blocks.headD behind = 0)) :
    beforeRun behind 0 (b :: blocks) = blockText b ++ beforeRun behind 1 blocks := by
  rw [beforeRun, if_neg block]
  rfl

theorem beforeRun_block (block : ¬ (b = 0 ∧ blocks.headD behind = 0)) (index : Nat) :
    beforeRun behind (index + 1) (b :: blocks) =
      ':' :: (blockText b ++ beforeRun behind (index + 2) blocks) := by
  rw [beforeRun, if_neg block]
  rfl

end Text

section Runs

variable {v : UInt32} {done : List UInt32} {blocks : List Nat} {z : Nat}

theorem toNat_ofNat_le {z : Nat} (h : z ≤ 8) : (UInt32.ofNat z).toNat = z := by
  rw [UInt32.toNat_ofNat', Nat.mod_eq_of_lt (by omega)]

/-- The zeros that the reader puts in are those of the run. Whether the colon before the run
ends a block or is the first character of the text, the number of colons is right. -/
theorem readBlocks_inRun (nonempty : blocks ≠ []) (small : ∀ b ∈ blocks, b < 65536) {e : Nat}
    (hlen : done.length + 1 + e + blocks.length = 8)
    (hcolons : z + done.length + 1 + (inRun blocks).count ':' = 8) :
    readBlocks (':' :: inRun blocks) (UInt32.ofNat z) done v =
      some (done ++ v :: (List.replicate e 0 ++ blocks.map UInt32.ofNat), []) := by
  have hz := toNat_ofNat_le (z := z) (by omega)
  have hpos := List.length_pos_iff.mpr nonempty
  obtain ⟨hzeros, htext⟩ | ⟨zeros, b, others, rfl, htext⟩ := inRun_shape blocks nonempty
  · have hcount : ([':'] : List Char).count ':' = 1 := rfl
    rw [htext, hcount] at hcolons
    have hrun : List.replicate z (0 : UInt32) ++ [0] =
        List.replicate e 0 ++ List.replicate blocks.length 0 := by
      rw [← List.replicate_succ', ← List.replicate_add]
      congr 1
      omega
    rw [htext, readBlocks_gap (by omega), if_neg (by simp), if_neg (by omega), hz, hzeros,
      List.map_replicate]
    change some ((done ++ [v] ++ List.replicate z 0) ++ [0], []) = _
    rw [List.append_assoc, hrun, List.append_assoc]
    rfl
  · rw [htext, colons_afterRun, List.length_cons] at hcolons
    have hafter : afterRun (b :: others) = ':' :: (blockText b ++ afterRun others) := rfl
    rw [List.length_append, List.length_replicate, List.length_cons] at hlen
    have hz' : z = e + zeros := by omega
    have hdone : (done ++ [v] ++ List.replicate z 0).length + 1 + others.length = 8 := by
      rw [List.length_append, List.length_append, List.length_replicate, List.length_singleton]
      omega
    have hmem {x : Nat} (hx : x ∈ b :: others) : x ∈ List.replicate zeros 0 ++ b :: others :=
      List.mem_append_right _ hx
    rw [htext, hafter, readBlocks_gap (by omega), if_neg (blockText_head b _), if_neg (by omega),
      hz, readBlocks_blockText (small b (hmem List.mem_cons_self)),
      readBlocks_afterRun (fun x hx => small x (hmem (List.mem_cons_of_mem b hx))) hdone, hz']
    simp only [List.replicate_add, List.map_append, List.map_replicate, List.map_cons,
      List.append_assoc]
    rfl

theorem readBlocks_beforeRun {behind : Nat} (small : ∀ b ∈ blocks, b < 65536)
    (hlen : done.length + 1 + blocks.length = 8)
    (hcolons : z + done.length + (beforeRun behind (done.length + 1) blocks).count ':' = 8) :
    readBlocks (beforeRun behind (done.length + 1) blocks) (UInt32.ofNat z) done v =
      some (done ++ v :: blocks.map UInt32.ofNat, []) := by
  induction blocks generalizing done v with
  | nil => rfl
  | cons b blocks ih =>
      have small' : ∀ x ∈ blocks, x < 65536 := fun x hx => small x (List.mem_cons_of_mem b hx)
      rw [List.length_cons] at hlen
      by_cases run : b = 0 ∧ blocks.headD behind = 0
      · rw [beforeRun_run run, List.count_cons_self] at hcolons
        rw [beforeRun_run run, run.1]
        by_cases last : blocks = []
        · -- the last block is a zero, and what is behind it too
          rw [last, inRun, readBlocks_colon (by omega) (fun _ => List.cons_ne_nil _ _ ∘ Eq.symm),
            readBlocks, List.append_assoc]
          rfl
        · rw [readBlocks_inRun (e := 1) last small' (by omega) (by omega)]
          rfl
      · rw [beforeRun_block run, List.count_cons_self, List.count_append,
          colons_blockText] at hcolons
        have hnext : (done ++ [v]).length + 1 = done.length + 2 := by
          rw [List.length_append, List.length_singleton]
        have hrest : readBlocks (beforeRun behind ((done ++ [v]).length + 1) blocks)
            (UInt32.ofNat z)
            (done ++ [v]) (UInt32.ofNat b) =
            some ((done ++ [v]) ++ UInt32.ofNat b :: blocks.map UInt32.ofNat, []) := by
          refine ih small' (by omega) ?_
          rw [hnext]
          omega
        rw [hnext] at hrest
        rw [beforeRun_block run, readBlocks_colon (by omega) (blockText_single b _),
          readBlocks_blockText (small b List.mem_cons_self), hrest, List.append_assoc]
        rfl

end Runs

theorem readBlocks_text {behind z : Nat} {blocks : List Nat} (small : ∀ b ∈ blocks, b < 65536)
    (hlen : blocks.length = 8) (hcolons : z + (beforeRun behind 0 blocks).count ':' = 8) :
    readBlocks (beforeRun behind 0 blocks) (UInt32.ofNat z) [] 0 =
      some (blocks.map UInt32.ofNat, []) := by
  cases blocks with
  | nil => cases hlen
  | cons b blocks =>
      have small' : ∀ x ∈ blocks, x < 65536 := fun x hx => small x (List.mem_cons_of_mem b hx)
      rw [List.length_cons] at hlen
      have hempty : ([] : List UInt32).length = 0 := rfl
      by_cases run : b = 0 ∧ blocks.headD behind = 0
      · have more : blocks ≠ [] := by
          rintro rfl
          cases hlen
        rw [beforeRun_run run, List.count_cons_self] at hcolons
        rw [beforeRun_run run, run.1, readBlocks_inRun (e := 0) more small' (by omega) (by omega)]
        rfl
      · rw [beforeRun_first run, List.count_append, colons_blockText, Nat.zero_add] at hcolons
        rw [beforeRun_first run, readBlocks_blockText (small b List.mem_cons_self)]
        have hrest : readBlocks (beforeRun behind (([] : List UInt32).length + 1) blocks)
            (UInt32.ofNat z) [] (UInt32.ofNat b) =
            some ([] ++ UInt32.ofNat b :: blocks.map UInt32.ofNat, []) :=
          readBlocks_beforeRun small' (by omega) hcolons
        exact hrest

theorem colons_inRun (blocks : List Nat) : (inRun blocks).count ':' ≤ blocks.length := by
  by_cases nonempty : blocks = []
  · rw [nonempty]
    exact Nat.le_refl 0
  · obtain ⟨-, htext⟩ | ⟨zeros, b, others, rfl, htext⟩ := inRun_shape blocks nonempty
    · rw [htext]
      exact List.length_pos_iff.mpr nonempty
    · rw [htext, colons_afterRun, List.length_append]
      exact Nat.le_add_left _ _

theorem colons_beforeRun (behind index : Nat) (blocks : List Nat) :
    (beforeRun behind index blocks).count ':' ≤ blocks.length := by
  induction blocks generalizing index with
  | nil => exact Nat.le_refl 0
  | cons b blocks ih =>
      by_cases run : b = 0 ∧ blocks.headD behind = 0
      · rw [beforeRun_run run, List.count_cons_self, List.length_cons]
        exact Nat.succ_le_succ (colons_inRun blocks)
      · cases index with
        | zero =>
            rw [beforeRun_first run, List.count_append, colons_blockText, Nat.zero_add]
            exact Nat.le_succ_of_le (ih 1)
        | succ index =>
            rw [beforeRun_block run, List.count_cons_self, List.count_append, colons_blockText,
              Nat.zero_add, List.length_cons]
            exact Nat.succ_le_succ (ih (index + 2))

theorem countZeroBlocks_eq {text : List Char} (chars : ∀ c ∈ text, AddrChar c) {z n : Nat}
    (h : z + text.count ':' = n) : countZeroBlocks text (UInt32.ofNat n) = UInt32.ofNat z := by
  induction text generalizing n with
  | nil =>
      subst h
      rfl
  | cons c text ih =>
      have hrest : ∀ x ∈ text, AddrChar x := fun x hx => chars x (List.mem_cons_of_mem c hx)
      rw [countZeroBlocks]
      obtain rfl | ⟨d, hd, rfl⟩ := chars c List.mem_cons_self
      · rw [List.count_cons_self] at h
        have hone : UInt32.ofNat n - 1 = UInt32.ofNat (z + text.count ':') := by
          rw [← h, ← Nat.add_assoc, UInt32.ofNat_add]
          exact UInt32.add_sub_cancel _ _
        rw [if_pos rfl, hone]
        exact ih hrest rfl
      · obtain ⟨hcolon, hdigit, -⟩ := xchar_reads hd
        rw [List.count_cons_of_ne hcolon] at h
        rw [if_neg hcolon, if_pos hdigit]
        exact ih hrest h

/-! Blocks as bytes again. -/

theorem htonlBytes_pair {a b : Nat} (ha : a < 65536) (hb : b < 65536) :
    htonlBytes (UInt32.ofNat a <<< 16 ||| UInt32.ofNat b) = be16 a ++ be16 b := by
  have hword : (UInt32.ofNat a <<< 16 ||| UInt32.ofNat b).toNat = a * 65536 + b := by
    have hshift : (UInt32.ofNat a <<< 16).toNat = a * 65536 := by
      have hbits : (16 : UInt32).toNat % 32 = 16 := rfl
      rw [UInt32.toNat_shiftLeft, hbits, UInt32.toNat_ofNat', Nat.shiftLeft_eq,
        Nat.mod_eq_of_lt (by omega), Nat.mod_eq_of_lt (by omega)]
    have hlow : (UInt32.ofNat b).toNat = b := by
      rw [UInt32.toNat_ofNat', Nat.mod_eq_of_lt (by omega)]
    rw [UInt32.toNat_or, hshift, hlow, ← Nat.shiftLeft_eq a 16]
    exact (Nat.shiftLeft_add_eq_or_of_lt hb a).symm
  rw [htonlBytes, hword]
  congr 2 <;> omega

theorem flatMap_pack {blocks : List Nat} (small : ∀ b ∈ blocks, b < 65536)
    (even : blocks.length % 2 = 0) :
    (pack (blocks.map UInt32.ofNat)).flatMap htonlBytes = blocks.flatMap be16 := by
  induction blocks using List.twoStepInduction with
  | nil => rfl
  | singleton b => cases even
  | cons_cons a b blocks ih =>
      have hblocks : blocks.length % 2 = 0 := by
        simp only [List.length_cons] at even
        omega
      have ha := small a List.mem_cons_self
      have hb := small b (List.mem_cons_of_mem a List.mem_cons_self)
      have hrest := ih (fun x hx => small x (List.mem_cons_of_mem a (List.mem_cons_of_mem b hx)))
        hblocks
      simp only [List.map_cons, pack, List.flatMap_cons, hrest, htonlBytes_pair ha hb,
        List.append_assoc]

theorem blocksOf_small (m : Bytes) : ∀ b ∈ blocksOf m, b < 65536 := by
  intro b hb
  obtain ⟨j, hj⟩ := List.getElem?_of_mem hb
  obtain ⟨hi, lo, -, -, rfl⟩ := blocksOf_bytes hj
  exact be16Val_lt hi lo

theorem flatMap_blocksOf {m : Bytes} (even : m.length % 2 = 0) :
    (blocksOf m).flatMap be16 = m := by
  induction m using blocksOf.induct with
  | case1 hi lo m ih =>
      have hm : m.length % 2 = 0 := by
        simp only [List.length_cons] at even
        omega
      rw [blocksOf, List.flatMap_cons, be16_be16Val, ih hm]
      rfl
  | case2 m hshort =>
      rcases m with - | ⟨a, - | ⟨b, m⟩⟩
      · rfl
      · exact absurd even (by simp)
      · exact absurd rfl (hshort a b m)

theorem readAddress_text (netifFind : List Char → Option UInt8) (a : Ip6Addr) :
    readAddress netifFind (ip6Text a) = some (a.addr, 0) := by
  have hsmall := blocksOf_small a.addr.1
  have hlen : (blocksOf a.addr.1).length = 8 := by rw [blocksOf_length, a.addr.2]
  obtain ⟨z, hz⟩ : ∃ z, z + (ip6Text a).count ':' = 8 := by
    have hcolons := colons_beforeRun (be16Val a.zone (a.padding.1.headD 0)) 0 (blocksOf a.addr.1)
    rw [hlen, ← ip6Text] at hcolons
    exact ⟨_, Nat.sub_add_cancel hcolons⟩
  have hcount : countZeroBlocks (ip6Text a) 8 = UInt32.ofNat z :=
    countZeroBlocks_eq (beforeRun_chars _ _ _) hz
  have hread : readBlocks (ip6Text a) (UInt32.ofNat z) [] 0 =
      some ((blocksOf a.addr.1).map UInt32.ofNat, []) := readBlocks_text hsmall hlen hz
  have hbytes : (pack ((blocksOf a.addr.1).map UInt32.ofNat)).flatMap htonlBytes = a.addr.1 := by
    rw [flatMap_pack hsmall (by rw [hlen]), flatMap_blocksOf (by rw [a.addr.2])]
  have hmap : ((blocksOf a.addr.1).map UInt32.ofNat).length = 8 := by rw [List.length_map, hlen]
  rw [readAddress, hcount, hread]
  simp only [Option.bind_eq_bind, Option.bind_some, dif_pos hmap, hbytes]
  rfl

/-- An address survives being written and read, whatever is behind it in memory: with any
buffer `ip6addr_ntoa_r` writes one text of at most 39 characters or finds that it does not
fit, and from this text `ip6addr_aton` reads the address again, whatever its words held. -/
theorem ip6addr_text_round_trip (a : Ip6Addr) {buflen : Nat} (room : 0 < buflen)
    (netifFind : List Char → Option UInt8) (memory : Vector UInt32 4) :
    ∃ text, text.length ≤ 39 ∧
      ip6addrNtoaR a buflen = .ok (if text.length < buflen then some text else none) ∧
      ip6addrAton netifFind memory text = .ok (some (a.addr, 0)) := by
  refine ⟨ip6Text a, ip6Text_length a, ip6addrNtoaR_eq a room, ?_⟩
  rw [ip6addrAton_eq, readAddress_text]

/-- The address of this node in a buffer of the size that the callers use. -/
theorem ip6addr_text_round_trip_own :
    ∃ text, text.length ≤ 39 ∧
      ip6addrNtoaR ⟨netAddr 0x01 2, 3, ⟨[1, 2, 3], rfl⟩⟩ 46 =
        .ok (if text.length < 46 then some text else none) ∧
      ip6addrAton (fun _ => none) (Vector.replicate 4 7) text = .ok (some (netAddr 0x01 2, 0)) :=
  ip6addr_text_round_trip ⟨netAddr 0x01 2, 3, ⟨[1, 2, 3], rfl⟩⟩ (by decide) _ _

/-- Whatever the text is, the reader returns, it writes nothing beside the four words, and
what it returns does not depend on what these words held. -/
theorem ip6addr_aton_safe (netifFind : List Char → Option UInt8) (cp : List Char) :
    ∃ answer, ∀ memory, ip6addrAton netifFind memory cp = .ok answer :=
  ⟨readAddress netifFind cp, fun memory => ip6addrAton_eq netifFind memory cp⟩

/-! The names of the packet files. -/

theorem ip6Text_injective {a b : Ip6Addr} (h : ip6Text a = ip6Text b) : a.addr = b.addr := by
  have ha := readAddress_text (fun _ => none) a
  rw [h, readAddress_text] at ha
  exact (congrArg Prod.fst (Option.some.inj ha)).symm

theorem ip6Text_plain (a : Ip6Addr) : '_' ∉ ip6Text a :=
  fun h => (beforeRun_chars _ _ _ _ h).ne_underscore rfl

/-- The texts that `ip6addr_ntoa_r` writes. -/
def ip6AddrText : AddrText := ⟨ip6Text, fun _ _ h => ip6Text_injective h, ip6Text_plain⟩

def ip6addrStrlenMax : Nat := 46

def storageDir : FileName := "./dtn_storage".toList

def maxPathLength : Nat := 512

theorem packetFileName_length (dest : Ip6Addr) (time : UInt32) :
    (packetFileName ip6AddrText dest time).length ≤ 58 := by
  have htext : (ip6AddrText.ntoa dest).length ≤ 39 := ip6Text_length dest
  have htime : (Nat.toDigits 10 time.toNat).length ≤ 10 := by
    refine Nat.toDigits_length 10 _ 10 (by decide) ?_
    have := time.toNat_lt
    omega
  have hfront : "pkt_".toList.length = 4 := rfl
  have hback : ".dat".toList.length = 4 := rfl
  simp only [packetFileName, List.length_append, List.length_map, List.length_singleton, hfront,
    hback]
  omega

/-- The names under which `dtn_storage_save_packet_to_disk` stores packets: the buffer for
the address is large enough, the path is never cut, the loader takes the file for a packet
at the next start, and two packets get the same file only if they have the same destination
and the same time, whatever zone and padding stand behind the two addresses. -/
theorem packet_file_names_sound (dest : Ip6Addr) (time : UInt32) :
    ip6addrNtoaR dest ip6addrStrlenMax = .ok (some (ip6AddrText.ntoa dest)) ∧
      (storageDir ++ '/' :: packetFileName ip6AddrText dest time).length < maxPathLength ∧
      isPacketFile (packetFileName ip6AddrText dest time) = true ∧
      ∀ dest' time', packetFileName ip6AddrText dest' time' =
        packetFileName ip6AddrText dest time → dest'.addr = dest.addr ∧ time' = time := by
  refine ⟨?_, ?_, isPacketFile_name _ dest time, fun _ _ => packetFileName_injective⟩
  · rw [ip6addrNtoaR_eq _ (by decide), if_pos]
    · rfl
    · exact Nat.lt_of_le_of_lt (ip6Text_length dest) (by decide)
  · have hname := packetFileName_length dest time
    have hdir : storageDir.length = 13 := rfl
    rw [List.length_append, List.length_cons, hdir, maxPathLength]
    omega

end LwipDtn
