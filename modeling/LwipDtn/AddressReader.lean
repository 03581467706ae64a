import LwipDtn.AddressText

/-!
`ip6addr_aton` of `ip6_addr.c`: the address of a text, written block by block into the four
words of an `ip6_addr_t` whose contents are arbitrary. The reader over lists of blocks says
what the loop does without these words: they are written in order, each of them before it
is looked at, and nothing is written beside them.
-/

namespace LwipDtn
open Outcome Bytes

def isdigit (c : Char) : Bool := decide ('0' ≤ c ∧ c ≤ '9')

def islower (c : Char) : Bool := decide ('a' ≤ c ∧ c ≤ 'z')

def isxdigit (c : Char) : Bool :=
  isdigit c || decide ('a' ≤ c ∧ c ≤ 'f') || decide ('A' ≤ c ∧ c ≤ 'F')

def xdigitValue (c : Char) : UInt32 :=
  if isdigit c then UInt32.ofNat (c.toNat - 48)
  else 10 + UInt32.ofNat (if islower c then c.toNat - 97 else c.toNat - 65)

/-- The first loop: one block less for every colon, as far as the text is an address. -/
def countZeroBlocks : List Char → UInt32 → UInt32
  | [], zeroBlocks => zeroBlocks
  | c :: rest, zeroBlocks =>
      if c = ':' then countZeroBlocks rest (zeroBlocks - 1)
      else if isxdigit c then countZeroBlocks rest zeroBlocks
      else zeroBlocks

structure AtonState where
  addr : Vector UInt32 4
  addrIndex : Nat
  zeroBlocks : UInt32
  currentBlockIndex : Nat
  currentBlockValue : UInt32

/-- `addr->addr[addr_index] = w` -/
def AtonState.assign (st : AtonState) (w : UInt32) : Run AtonState :=
  if h : st.addrIndex < 4 then .ok { st with addr := st.addr.set st.addrIndex w h }
  else .error .fault

def AtonState.storeBlock (st : AtonState) : Run AtonState :=
  if st.currentBlockIndex % 2 = 1 then
    if h : st.addrIndex < 4 then
      .ok { st with
        addr := st.addr.set st.addrIndex (st.addr.get ⟨st.addrIndex, h⟩ ||| st.currentBlockValue) h
        addrIndex := st.addrIndex + 1 }
    else .error .fault
  else st.assign (st.currentBlockValue <<< 16)

/-- The second block of a word needs no write. -/
def AtonState.zeroBlock (st : AtonState) : Run AtonState :=
  if st.currentBlockIndex % 2 = 1 then .ok { st with addrIndex := st.addrIndex + 1 }
  else st.assign 0

/-- The loop over the blocks that `::` stands for; it ends with the eighth block at the
latest. -/
def fillZeros : Nat → AtonState → Run (Option AtonState)
  | 0, _ => .error .hang
  | rounds + 1, st =>
      if st.zeroBlocks = 0 then .ok (some st)
      else do
        let st ← st.zeroBlock
        let st := { st with
          zeroBlocks := st.zeroBlocks - 1
          currentBlockIndex := st.currentBlockIndex + 1 }
        if 7 < st.currentBlockIndex then .ok none else fillZeros rounds st

/-- The second loop, with the text that is left where it ends. -/
def atonLoop : List Char → AtonState → Run (Option (AtonState × List Char))
  | [], st => .ok (some (st, []))
  | c :: rest, st =>
      if c = ':' then do
        let st ← st.storeBlock
        let st := { st with
          currentBlockIndex := st.currentBlockIndex + 1
          currentBlockValue := 0 }
        if 7 < st.currentBlockIndex then .ok none
        else
          match rest with
          | ':' :: rest =>
              if rest.head? = some ':' then .ok none
              else do
                match ← fillZeros 9 st with
                | none => .ok none
                | some st => atonLoop rest st
          | rest => atonLoop rest st
      else if isxdigit c then
        atonLoop rest { st with
          currentBlockValue := (st.currentBlockValue <<< 4) + xdigitValue c }
      else .ok (some (st, c :: rest))

/-- `lwip_htonl` of a word, as the bytes in memory. -/
def htonlBytes (w : UInt32) : Bytes := be16 (w.toNat / 65536) ++ be16 (w.toNat % 65536)

/-- `ip6_addr_has_scope` for `IP6_UNKNOWN`. -/
def ip6AddrHasScope (addr : Block 16) : Bool :=
  let first := addr.1.getD 0 0
  let second := addr.1.getD 1 0
  (first == 0xfe && second &&& 0xc0 == 0x80) ||
    (first == 0xff && (second &&& 0x8f == 0x01 || second &&& 0x8f == 0x02))

/-- The zone for what follows the address; `netif_find` gives the index of an interface. -/
def scopeZone (netifFind : List Char → Option UInt8) (addr : Block 16) : List Char → UInt8
  | '%' :: c :: scope =>
      match netifFind (c :: scope) with
      | some index => if ip6AddrHasScope addr then index else 0
      | none => 0
  | _ => 0

/-- The address and its zone if the text is one. -/
def ip6addrAton (netifFind : List Char → Option UInt8) (memory : Vector UInt32 4)
    (cp : List Char) : Run (Option (Block 16 × UInt8)) := do
  match ← atonLoop cp ⟨memory, 0, countZeroBlocks cp 8, 0, 0⟩ with
  | none => return none
  | some (st, s) =>
      let st ← st.storeBlock
      let addr ← readBlock (st.addr.toList.flatMap htonlBytes) 0 16
      if st.currentBlockIndex ≠ 7 then return none
      else return some (addr, scopeZone netifFind addr s)

/-! The reader over lists of blocks. -/

def readBlocks : List Char → UInt32 → List UInt32 → UInt32 → Option (List UInt32 × List Char)
  | [], _, done, value => some (done ++ [value], [])
  | c :: rest, zeroBlocks, done, value =>
      if c = ':' then
        if 7 < done.length + 1 then none
        else
          match rest with
          | ':' :: rest =>
              if rest.head? = some ':' then none
              else if 7 < done.length + 1 + zeroBlocks.toNat then none
              else readBlocks rest 0 (done ++ [value] ++ List.replicate zeroBlocks.toNat 0) 0
          | rest => readBlocks rest zeroBlocks (done ++ [value]) 0
      else if isxdigit c then readBlocks rest zeroBlocks done ((value <<< 4) + xdigitValue c)
      else some (done ++ [value], c :: rest)

section Reader

variable {zeroBlocks value : UInt32} {done : List UInt32} {c : Char} {rest : List Char}

theorem readBlocks_full (full : 7 < done.length + 1) :
    readBlocks (':' :: rest) zeroBlocks done value = none := by
  rw [readBlocks.eq_def]
  simp only [if_pos full, if_true]

theorem readBlocks_colon (room : done.length + 1 ≤ 7) (single : ∀ rest', rest ≠ ':' :: rest') :
    readBlocks (':' :: rest) zeroBlocks done value =
      readBlocks rest zeroBlocks (done ++ [value]) 0 := by
  rw [readBlocks.eq_def]
  simp only [if_neg (Nat.not_lt.mpr room), if_true]

theorem readBlocks_gap (room : done.length + 1 ≤ 7) :
    readBlocks (':' :: ':' :: rest) zeroBlocks done value =
      if rest.head? = some ':' then none
      else if 7 < done.length + 1 + zeroBlocks.toNat then none
      else readBlocks rest 0 (done ++ [value] ++ List.replicate zeroBlocks.toNat 0) 0 := by
  rw [readBlocks.eq_def]
  simp only [if_neg (Nat.not_lt.mpr room), if_true]

theorem readBlocks_digit (nocolon : c ≠ ':') (digit : isxdigit c) :
    readBlocks (c :: rest) zeroBlocks done value =
      readBlocks rest zeroBlocks done ((value <<< 4) + xdigitValue c) := by
  rw [readBlocks.eq_def]
  simp only [if_neg nocolon, if_pos digit]

theorem readBlocks_stop (nocolon : c ≠ ':') (nodigit : ¬ isxdigit c) :
    readBlocks (c :: rest) zeroBlocks done value = some (done ++ [value], c :: rest) := by
  rw [readBlocks.eq_def]
  simp only [if_neg nocolon, if_neg nodigit]

end Reader

def pack : List UInt32 → List UInt32
  | [] => []
  | [a] => [a <<< 16]
  | a :: b :: rest => (a <<< 16 ||| b) :: pack rest

theorem pack_length (blocks : List UInt32) : (pack blocks).length = (blocks.length + 1) / 2 := by
  induction blocks using pack.induct with
  | case1 => rfl
  | case2 a => simp [pack]
  | case3 a b rest ih =>
      simp only [pack, List.length_cons, ih]
      omega

theorem pack_append {blocks : List UInt32} (even : blocks.length % 2 = 0) (rest : List UInt32) :
    pack (blocks ++ rest) = pack blocks ++ pack rest := by
  induction blocks using pack.induct with
  | case1 => rfl
  | case2 a => exact absurd even (by simp)
  | case3 a b blocks ih =>
      have hblocks : blocks.length % 2 = 0 := by
        simp only [List.length_cons] at even
        omega
      simp only [List.cons_append, pack, ih hblocks]

/-- The blocks that have been read are in the first words. -/
structure AtonState.Holds (st : AtonState) (done : List UInt32) : Prop where
  index : st.currentBlockIndex = done.length
  word : st.addrIndex = done.length / 2
  words : pack done <+: st.addr.toList

section Words

variable {done : List UInt32} {v : UInt32} {words : List UInt32}

theorem pack_set_even (even : done.length % 2 = 0) (h : pack done <+: words)
    (room : done.length / 2 < words.length) :
    pack (done ++ [v]) <+: words.set (done.length / 2) (v <<< 16) := by
  obtain ⟨rest, rfl⟩ := h
  have hlen : done.length / 2 = (pack done).length := by
    rw [pack_length]
    omega
  rw [pack_append even, hlen, List.set_append_right _ _ (Nat.le_refl _), Nat.sub_self]
  cases rest with
  | nil =>
      rw [List.append_nil, ← hlen] at room
      exact absurd room (Nat.lt_irrefl _)
  | cons w rest => exact ⟨rest, by rw [List.append_assoc]; rfl⟩

theorem pack_set_odd (odd : done.length % 2 = 1) (h : pack done <+: words) :
    ∃ w, words[done.length / 2]? = some w ∧
      pack (done ++ [v]) <+: words.set (done.length / 2) (w ||| v) := by
  obtain rfl | ⟨before, a, rfl⟩ := List.eq_nil_or_concat done
  · cases odd
  · rw [List.concat_eq_append, List.length_append, List.length_singleton] at odd
    rw [List.concat_eq_append] at h ⊢
    have heven : before.length % 2 = 0 := by omega
    obtain ⟨rest, rfl⟩ := h
    have hlen : (before ++ [a]).length / 2 = (pack before).length := by
      rw [pack_length, List.length_append, List.length_singleton]
    rw [pack_append heven, List.append_assoc, hlen]
    refine ⟨a <<< 16, by simp [pack], rest, ?_⟩
    rw [List.append_assoc, pack_append heven, List.set_append_right _ _ (Nat.le_refl _),
      Nat.sub_self, List.append_assoc]
    rfl

theorem pack_zero_odd (odd : done.length % 2 = 1) : pack (done ++ [0]) = pack done := by
  obtain rfl | ⟨before, a, rfl⟩ := List.eq_nil_or_concat done
  · cases odd
  · rw [List.concat_eq_append, List.length_append, List.length_singleton] at odd
    have heven : before.length % 2 = 0 := by omega
    rw [List.concat_eq_append, List.append_assoc, pack_append heven, pack_append heven]
    simp [pack]

end Words

section Loop

variable {st : AtonState} {done : List UInt32}

theorem AtonState.Holds.room (h : st.Holds done) (fits : done.length ≤ 7) : st.addrIndex < 4 := by
  rw [h.word]
  omega

theorem half_succ (k : Nat) : (k + 1) / 2 = if k % 2 = 1 then k / 2 + 1 else k / 2 := by
  split <;> omega

theorem AtonState.Holds.store (h : st.Holds done) (fits : done.length ≤ 7) :
    ∃ addr index, st.storeBlock = .ok { st with addr := addr, addrIndex := index } ∧
      index = (done.length + 1) / 2 ∧ pack (done ++ [st.currentBlockValue]) <+: addr.toList := by
  have hroom := h.room fits
  unfold AtonState.storeBlock
  by_cases odd : done.length % 2 = 1
  · obtain ⟨w, hw, hprefix⟩ := pack_set_odd (v := st.currentBlockValue) odd h.words
    rw [if_pos (by rw [h.index, odd]), dif_pos hroom]
    refine ⟨_, _, rfl, by rw [half_succ, if_pos odd, h.word], ?_⟩
    have hget : st.addr.get ⟨st.addrIndex, hroom⟩ = w := by
      rw [← h.word, Vector.getElem?_toList, Vector.getElem?_eq_getElem hroom] at hw
      exact Option.some.inj hw
    rw [hget, Vector.toList_set, h.word]
    exact hprefix
  · rw [if_neg (by rwa [h.index]), AtonState.assign, dif_pos hroom]
    refine ⟨_, _, rfl, by rw [half_succ, if_neg odd, h.word], ?_⟩
    rw [Vector.toList_set, h.word]
    refine pack_set_even (by omega) h.words ?_
    rw [Vector.length_toList]
    omega

/-- A block of a run is written as a zero, or is part of a word that has been written. -/
theorem AtonState.Holds.zero (h : st.Holds done) (fits : done.length ≤ 7) :
    ∃ addr index, st.zeroBlock = .ok { st with addr := addr, addrIndex := index } ∧
      index = (done.length + 1) / 2 ∧ pack (done ++ [0]) <+: addr.toList := by
  have hroom := h.room fits
  unfold AtonState.zeroBlock
  by_cases odd : done.length % 2 = 1
  · rw [if_pos (by rw [h.index, odd])]
    refine ⟨_, _, rfl, by rw [half_succ, if_pos odd, h.word], ?_⟩
    rw [pack_zero_odd odd]
    exact h.words
  · rw [if_neg (by rwa [h.index]), AtonState.assign, dif_pos hroom]
    refine ⟨_, _, rfl, by rw [half_succ, if_neg odd, h.word], ?_⟩
    rw [Vector.toList_set, h.word]
    refine pack_set_even (v := 0) (by omega) h.words ?_
    rw [Vector.length_toList]
    omega

theorem AtonState.Holds.snoc {v value zeroBlocks : UInt32} {addr : Vector UInt32 4} {index : Nat}
    (h : st.Holds done) (hindex : index = (done.length + 1) / 2)
    (hwords : pack (done ++ [v]) <+: addr.toList) :
    AtonState.Holds ⟨addr, index, zeroBlocks, st.currentBlockIndex + 1, value⟩ (done ++ [v]) := by
  refine ⟨?_, ?_, hwords⟩
  · rw [h.index, List.length_append, List.length_singleton]
  · rw [hindex, List.length_append, List.length_singleton]

theorem fillZeros_spec (h : st.Holds done) (fits : done.length ≤ 7) (rounds : Nat)
    (enough : 8 < done.length + rounds) :
    (7 < done.length + st.zeroBlocks.toNat → fillZeros rounds st = .ok none) ∧
    (done.length + st.zeroBlocks.toNat ≤ 7 → ∃ st', fillZeros rounds st = .ok (some st') ∧
      st'.Holds (done ++ List.replicate st.zeroBlocks.toNat 0) ∧ st'.zeroBlocks = 0 ∧
      st'.currentBlockValue = st.currentBlockValue) := by
  induction rounds generalizing st done with
  | zero => omega
  | succ rounds ih =>
      rw [fillZeros]
      by_cases none_left : st.zeroBlocks = 0
      · rw [if_pos none_left, none_left]
        refine ⟨fun hlong => absurd hlong (by simpa using fits), fun _ =>
          ⟨st, rfl, ?_, none_left, rfl⟩⟩
        simpa using h
      · have hpos : 0 < st.zeroBlocks.toNat := by
          refine Nat.pos_of_ne_zero fun hzero => none_left ?_
          exact UInt32.toNat_inj.mp hzero
        have hless : (st.zeroBlocks - 1).toNat = st.zeroBlocks.toNat - 1 := by
          rw [UInt32.toNat_sub_of_le]
          · rfl
          · exact UInt32.le_iff_toNat_le.mpr hpos
        obtain ⟨addr, index, hzero, hindex, hwords⟩ := h.zero fits
        rw [if_neg none_left, hzero]
        simp only [Run.bind_ok, h.index]
        by_cases full : 7 < done.length + 1
        · rw [if_pos full]
          exact ⟨fun _ => rfl, fun hfits => absurd hfits (by omega)⟩
        · rw [if_neg full]
          have hnext : AtonState.Holds ⟨addr, index, st.zeroBlocks - 1, done.length + 1,
              st.currentBlockValue⟩ (done ++ [0]) := by
            rw [← h.index]
            exact h.snoc hindex hwords
          have hlen : (done ++ [(0 : UInt32)]).length = done.length + 1 := by simp
          obtain ⟨hnone, hsome⟩ := ih hnext (by omega) (by omega)
          simp only [hlen, hless] at hnone hsome
          refine ⟨fun hlong => hnone (by omega), fun hfits => ?_⟩
          obtain ⟨st', hrun, hholds, hz, hv⟩ := hsome (by omega)
          refine ⟨st', hrun, ?_, hz, hv⟩
          rw [List.append_assoc, List.singleton_append, ← List.replicate_succ,
            Nat.sub_add_cancel hpos] at hholds
          exact hholds

/-- The loop and the reader over lists give up together, or stop at the same place with the
same blocks. -/
inductive SameBlocks : Option (AtonState × List Char) → Option (List UInt32 × List Char) → Prop
  | rejected : SameBlocks none none
  | read {st : AtonState} {done : List UInt32} {rest : List Char} (holds : st.Holds done)
      (fits : done.length ≤ 7) :
      SameBlocks (some (st, rest)) (some (done ++ [st.currentBlockValue], rest))

theorem AtonState.Holds.colon (h : st.Holds done) (fits : done.length ≤ 7) :
    ∃ st' : AtonState, st'.Holds (done ++ [st.currentBlockValue]) ∧
      st'.zeroBlocks = st.zeroBlocks ∧ st'.currentBlockValue = 0 ∧
      (7 < done.length + 1 → ∀ rest, atonLoop (':' :: rest) st = .ok none) ∧
      (done.length + 1 ≤ 7 → ∀ rest, (∀ rest', rest ≠ ':' :: rest') →
        atonLoop (':' :: rest) st = atonLoop rest st') ∧
      (done.length + 1 ≤ 7 → ∀ rest, atonLoop (':' :: ':' :: rest) st =
        if rest.head? = some ':' then .ok none
        else fillZeros 9 st' >>= fun filled => filled.elim (.ok none) (atonLoop rest)) := by
  obtain ⟨addr, index, hstore, hindex, hwords⟩ := h.store fits
  have hnext : AtonState.Holds ⟨addr, index, st.zeroBlocks, st.currentBlockIndex + 1, 0⟩
      (done ++ [st.currentBlockValue]) := h.snoc hindex hwords
  refine ⟨_, hnext, rfl, rfl, ?_, ?_, ?_⟩
  · intro full rest
    rw [atonLoop, if_pos rfl, hstore]
    simp only [Run.bind_ok, h.index, if_pos full]
  · intro room rest hrest
    rw [atonLoop, if_pos rfl, hstore]
    simp only [Run.bind_ok, h.index, if_neg (Nat.not_lt.mpr room)]
  · intro room rest
    rw [atonLoop, if_pos rfl, hstore]
    simp only [Run.bind_ok, h.index, if_neg (Nat.not_lt.mpr room)]
    split
    · rfl
    · congr 1
      funext filled
      cases filled <;> rfl

theorem atonLoop_same {text : List Char} {zeroBlocks value : UInt32} (h : st.Holds done)
    (fits : done.length ≤ 7) (hzeros : st.zeroBlocks = zeroBlocks)
    (hvalue : st.currentBlockValue = value) :
    ∃ r, atonLoop text st = .ok r ∧ SameBlocks r (readBlocks text zeroBlocks done value) := by
  induction text, zeroBlocks, done, value using readBlocks.induct generalizing st with
  | case1 zeroBlocks done value =>
      subst hvalue
      exact ⟨_, rfl, .read h fits⟩
  | case2 rest zeroBlocks done value full =>
      obtain ⟨st', -, -, -, hfull, -, -⟩ := h.colon fits
      rw [readBlocks_full full]
      exact ⟨none, hfull full rest, .rejected⟩
  | case3 zeroBlocks done value room rest third =>
      obtain ⟨st', -, -, -, -, -, hrun⟩ := h.colon fits
      have room := Nat.not_lt.mp room
      rw [readBlocks_gap room, if_pos third, hrun room, if_pos third]
      exact ⟨none, rfl, .rejected⟩
  | case4 zeroBlocks done value room rest single long =>
      obtain ⟨st', hst', hz, -, -, -, hrun⟩ := h.colon fits
      have room := Nat.not_lt.mp room
      rw [hzeros] at hz
      have hlen : (done ++ [st.currentBlockValue]).length = done.length + 1 := by simp
      have hfill := (fillZeros_spec hst' (by omega) 9 (by omega)).1 (by rw [hlen, hz]; exact long)
      rw [readBlocks_gap room, if_neg single, if_pos long, hrun room, if_neg single, hfill]
      exact ⟨none, rfl, .rejected⟩
  | case5 zeroBlocks done value room rest single short ih =>
      obtain ⟨st', hst', hz, hv, -, -, hrun⟩ := h.colon fits
      have room := Nat.not_lt.mp room
      rw [hzeros] at hz
      rw [hvalue] at hst'
      have hlen : (done ++ [value]).length = done.length + 1 := by simp
      obtain ⟨filled, hfill, hholds, hz', hv'⟩ :=
        (fillZeros_spec hst' (by omega) 9 (by omega)).2 (by rw [hlen, hz]; omega)
      rw [hz] at hholds
      rw [readBlocks_gap room, if_neg single, if_neg short, hrun room, if_neg single, hfill]
      refine ih hholds ?_ hz' (hv'.trans hv)
      rw [List.length_append, List.length_replicate, hlen]
      omega
  | case6 zeroBlocks done value room rest hrest ih =>
      obtain ⟨st', hst', hz, hv, -, hrun, -⟩ := h.colon fits
      have room := Nat.not_lt.mp room
      rw [hvalue] at hst'
      rw [readBlocks_colon room hrest, hrun room rest hrest]
      refine ih hst' ?_ (hz.trans hzeros) hv
      rw [List.length_append, List.length_singleton]
      exact room
  | case7 c rest zeroBlocks done value nocolon digit ih =>
      rw [atonLoop.eq_def, readBlocks_digit nocolon digit]
      simp only [if_neg nocolon, if_pos digit]
      refine ih ⟨h.index, h.word, h.words⟩ fits hzeros ?_
      rw [hvalue]
  | case8 c rest zeroBlocks done value nocolon nodigit =>
      subst hvalue
      rw [atonLoop.eq_def, readBlocks_stop nocolon nodigit]
      simp only [if_neg nocolon, if_neg nodigit]
      exact ⟨_, rfl, .read h fits⟩

end Loop

theorem flatMap_htonlBytes_length (words : List UInt32) :
    (words.flatMap htonlBytes).length = 4 * words.length := by
  induction words with
  | nil => rfl
  | cons w words ih =>
      simp only [List.flatMap_cons, List.length_append, List.length_cons, ih, htonlBytes,
        be16_length]
      omega

theorem packed_length {blocks : List UInt32} (h : blocks.length = 8) :
    ((pack blocks).flatMap htonlBytes).length = 16 := by
  rw [flatMap_htonlBytes_length, pack_length, h]

/-- The address that a text stands for. -/
def readAddress (netifFind : List Char → Option UInt8) (cp : List Char) :
    Option (Block 16 × UInt8) := do
  let (blocks, rest) ← readBlocks cp (countZeroBlocks cp 8) [] 0
  if h : blocks.length = 8 then
    let addr : Block 16 := ⟨(pack blocks).flatMap htonlBytes, packed_length h⟩
    some (addr, scopeZone netifFind addr rest)
  else none

/-- Whatever the text is and whatever the words held before, the call returns, it writes
nothing beside the four words, and its answer is the address of the text. -/
theorem ip6addrAton_eq (netifFind : List Char → Option UInt8)
    (memory : Vector UInt32 4) (cp : List Char) :
    ip6addrAton netifFind memory cp = .ok (readAddress netifFind cp) := by
  have hstart : AtonState.Holds ⟨memory, 0, countZeroBlocks cp 8, 0, 0⟩ [] :=
    ⟨rfl, rfl, List.nil_prefix⟩
  obtain ⟨r, hr, hsame⟩ : ∃ r, atonLoop cp ⟨memory, 0, countZeroBlocks cp 8, 0, 0⟩ = .ok r ∧
      SameBlocks r (readBlocks cp (countZeroBlocks cp 8) [] 0) :=
    atonLoop_same hstart (Nat.zero_le 7) rfl rfl
  rw [ip6addrAton, readAddress, hr]
  generalize readBlocks cp (countZeroBlocks cp 8) [] 0 = blocks at hsame
  cases hsame with
  | rejected => rfl
  | read holds fits =>
      rename_i st done rest
      obtain ⟨addr, index, hstore, -, hwords⟩ := holds.store fits
      have hbytes : (addr.toList.flatMap htonlBytes).length = 16 := by
        rw [flatMap_htonlBytes_length, Vector.length_toList]
      have hread : readBlock (addr.toList.flatMap htonlBytes) 0 16 =
          .ok ⟨addr.toList.flatMap htonlBytes, hbytes⟩ := by
        refine readBlock_eq_ok.mpr ⟨Nat.le_of_eq hbytes.symm, ?_⟩
        rw [List.drop_zero]
        exact (List.take_of_length_le (Nat.le_of_eq hbytes)).symm
      simp only [Run.bind_ok, hstore, hread, holds.index, Option.bind_eq_bind, Option.bind_some]
      by_cases all : done.length = 7
      · have hlen : (done ++ [st.currentBlockValue]).length = 8 := by
          rw [List.length_append, List.length_singleton, all]
        have hpacked : pack (done ++ [st.currentBlockValue]) = addr.toList := by
          refine hwords.eq_of_length ?_
          rw [pack_length, hlen, Vector.length_toList]
        simp only [hpacked, dif_pos hlen]
        rw [if_neg (not_not.mpr all)]
        rfl
      · have hlen : (done ++ [st.currentBlockValue]).length ≠ 8 := by
          rw [List.length_append, List.length_singleton]
          omega
        rw [dif_neg hlen, if_pos all]
        rfl

end LwipDtn
