import LwipDtn.Storage
import LwipDtn.Library.BoundedText

/-!
`ip6addr_ntoa_r` of `ip6_addr.c`: the text of an address. The first run of at least two zero
blocks is left out. Whether the last block begins a run is decided by the two bytes behind
the address, the zone and a byte of padding; if it does, the text ends with one colon.
-/

namespace LwipDtn
open Outcome Bytes BoundedText

def Ip6Addr.memory (a : Ip6Addr) : Bytes := a.addr.1 ++ a.zone :: a.padding.1

/-- `lwip_htonl(addr->addr[index])` -/
def htonlAt (m : Bytes) (index : Nat) : Run Nat := do
  let high ← be16At m (4 * index)
  let low ← be16At m (4 * index + 2)
  return high * 65536 + low

/-- A 16-bit block, taken out of its word. -/
def blockValue (m : Bytes) (index : Nat) : Run Nat := do
  let word ← htonlAt m (index / 2)
  return (if index % 2 = 0 then word / 65536 else word) % 65536

/-- `empty_block_flag`: no run of zeros yet, inside of one, or behind it. -/
inductive EmptyBlock where
  | unseen
  | running
  | passed
deriving DecidableEq

/-- A zero is not written as long as there is nothing else. -/
def putDigit (buflen : Nat) (zeroFlag : Bool) (digit : Nat) : Writer :=
  if digit = 0 ∧ zeroFlag then pure else put buflen (xchar digit)

def putBlock (buflen index value : Nat) : Writer := fun text => do
  let text ← (if 0 < index then put buflen ':' else pure) text
  let zeroFlag := decide (value / 4096 % 16 = 0)
  let text ← putDigit buflen true (value / 4096 % 16) text
  let text ← putDigit buflen zeroFlag (value / 256 % 16) text
  let zeroFlag := zeroFlag && decide (value / 256 % 16 = 0)
  let text ← putDigit buflen zeroFlag (value / 16 % 16) text
  put buflen (xchar (value % 16)) text

/-- The loop, with the number of blocks that are still to come. -/
def ntoaFrom (m : Bytes) (buflen : Nat) : Nat → EmptyBlock → Writer
  | 0, _, text => pure text
  | rounds + 1, flag, text => do
      let index := 7 - rounds
      let value ← blockValue m index
      if value = 0 then
        match flag with
        | .running =>
            if index = 7 then put buflen ':' text else ntoaFrom m buflen rounds .running text
        | .unseen =>
            -- for the last block this word is no longer part of the address
            let next ← blockValue m (index + 1)
            if next = 0 then do
              let text ← put buflen ':' text
              ntoaFrom m buflen rounds .running text
            else do
              let text ← putBlock buflen index value text
              ntoaFrom m buflen rounds .unseen text
        | .passed => do
            let text ← putBlock buflen index value text
            ntoaFrom m buflen rounds .passed text
      else do
        let text ← putBlock buflen index value text
        ntoaFrom m buflen rounds (if flag = .running then .passed else flag) text

def ip6addrNtoaR (a : Ip6Addr) (buflen : Nat) : Run (Option (List Char)) :=
  (do
    let text ← ntoaFrom a.memory buflen 8 .unseen []
    terminate buflen text : OptionT Run (List Char)).run

/-! The same text, from the list of the blocks. -/

def digitText (zeroFlag : Bool) (digit : Nat) : List Char :=
  if digit = 0 ∧ zeroFlag then [] else [xchar digit]

def blockText (value : Nat) : List Char :=
  digitText true (value / 4096 % 16) ++
    (digitText (decide (value / 4096 % 16 = 0)) (value / 256 % 16) ++
      (digitText (decide (value / 4096 % 16 = 0) && decide (value / 256 % 16 = 0))
        (value / 16 % 16) ++ [xchar (value % 16)]))

def separator (index : Nat) : List Char := if 0 < index then [':'] else []

def afterRun (blocks : List Nat) : List Char := blocks.flatMap fun b => ':' :: blockText b

def inRun : List Nat → List Char
  | [] => []
  | b :: blocks =>
      if b = 0 then if blocks = [] then [':'] else inRun blocks
      else afterRun (b :: blocks)

/-- `behind` is the block behind the last one. -/
def beforeRun (behind : Nat) : Nat → List Nat → List Char
  | _, [] => []
  | index, b :: blocks =>
      if b = 0 ∧ blocks.headD behind = 0 then ':' :: inRun blocks
      else separator index ++ blockText b ++ beforeRun behind (index + 1) blocks

def textFrom (behind index : Nat) (blocks : List Nat) : EmptyBlock → List Char
  | .unseen => beforeRun behind index blocks
  | .running => inRun blocks
  | .passed => afterRun blocks

def blocksOf : Bytes → List Nat
  | hi :: lo :: rest => be16Val hi lo :: blocksOf rest
  | _ => []

theorem blocksOf_bytes {m : Bytes} {j b : Nat} (h : (blocksOf m)[j]? = some b) :
    ∃ hi lo, m[2 * j]? = some hi ∧ m[2 * j + 1]? = some lo ∧ b = be16Val hi lo := by
  induction m using blocksOf.induct generalizing j with
  | case1 hi lo rest ih =>
      cases j with
      | zero =>
          cases h
          exact ⟨hi, lo, rfl, rfl, rfl⟩
      | succ j => exact ih h
  | case2 m hshort =>
      rw [blocksOf.eq_2 m hshort] at h
      cases h

theorem be16At_of_bytes {m : Bytes} {off : Nat} {hi lo : UInt8} (hhi : m[off]? = some hi)
    (hlo : m[off + 1]? = some lo) : be16At m off = .ok (be16Val hi lo) := by
  rw [be16At, byteAt_eq_ok.mpr hhi, byteAt_eq_ok.mpr hlo]
  rfl

theorem be16At_returns (m : Bytes) (off : Nat) (h : off + 1 < m.length) :
    ∃ v, be16At m off = .ok v ∧ v < 65536 := by
  rw [be16At, byteAt_of_lt (Nat.lt_of_succ_lt h), byteAt_of_lt h]
  exact ⟨_, rfl, be16Val_lt _ _⟩

theorem blockValue_eq {m : Bytes} (words : m.length % 4 = 0) {j b : Nat}
    (h : (blocksOf m)[j]? = some b) : blockValue m j = .ok b := by
  obtain ⟨hi, lo, hhi, hlo, rfl⟩ := blocksOf_bytes h
  have hb := be16Val_lt hi lo
  have hlen : 2 * j + 1 < m.length := (List.getElem?_eq_some_iff.mp hlo).1
  rw [blockValue, htonlAt]
  by_cases even : j % 2 = 0
  · obtain ⟨low, hlow, hlt⟩ := be16At_returns m (4 * (j / 2) + 2) (by omega)
    have hoff : 4 * (j / 2) = 2 * j := by omega
    rw [hlow, hoff, be16At_of_bytes hhi hlo]
    simp only [Run.bind_ok, Run.pure_eq_ok, if_pos even]
    congr 1
    omega
  · obtain ⟨high, hhigh, hlt⟩ := be16At_returns m (4 * (j / 2)) (by omega)
    have hoff : 4 * (j / 2) + 2 = 2 * j := by omega
    rw [hhigh, hoff, be16At_of_bytes hhi hlo]
    simp only [Run.bind_ok, Run.pure_eq_ok, if_neg even]
    congr 1
    omega

section Writing

variable {buflen : Nat}

theorem putDigit_writes (zeroFlag : Bool) (digit : Nat) :
    Writes buflen (putDigit buflen zeroFlag digit) (digitText zeroFlag digit) := by
  unfold putDigit digitText
  split
  · exact writes_nothing
  · exact writes_put _

theorem putBlock_writes (buflen index value : Nat) :
    Writes buflen (putBlock buflen index value) (separator index ++ blockText value) := by
  have hsep : Writes buflen (if 0 < index then put buflen ':' else pure) (separator index) := by
    unfold separator
    split
    · exact writes_put _
    · exact writes_nothing
  exact hsep.andThen ((putDigit_writes _ _).andThen ((putDigit_writes _ _).andThen
    ((putDigit_writes _ _).andThen (writes_put _))))

/-- One round: what is to come is written behind what this block adds. -/
theorem ntoaFrom_writes {m : Bytes} (words : m.length % 4 = 0) {behind index : Nat}
    {blocks more : List Nat} {flag : EmptyBlock}
    (hblocks : (blocksOf m).drop index = blocks ++ behind :: more)
    (hindex : index + blocks.length = 8) (started : flag ≠ .unseen → 0 < index) :
    Writes buflen (ntoaFrom m buflen blocks.length flag) (textFrom behind index blocks flag) := by
  induction blocks generalizing index flag with
  | nil => cases flag <;> exact writes_nothing
  | cons b blocks ih =>
      have hnow : 7 - blocks.length = index := by
        rw [List.length_cons] at hindex
        omega
      have hread : blockValue m index = .ok b := by
        refine blockValue_eq words ?_
        rw [← Nat.add_zero index, ← List.getElem?_drop, hblocks]
        rfl
      have hrest : (blocksOf m).drop (index + 1) = blocks ++ behind :: more := by
        rw [← List.drop_drop, hblocks]
        rfl
      have hnext : blockValue m (index + 1) = .ok (blocks.headD behind) := by
        refine blockValue_eq words ?_
        rw [← Nat.add_zero (index + 1), ← List.getElem?_drop, hrest]
        cases blocks <;> rfl
      have hcount : index + 1 + blocks.length = 8 := by
        rw [List.length_cons] at hindex
        omega
      have later (flag : EmptyBlock) : Writes buflen (ntoaFrom m buflen blocks.length flag)
          (textFrom behind (index + 1) blocks flag) :=
        ih hrest hcount fun _ => Nat.succ_pos index
      have hsep (hpos : 0 < index) : separator index = [':'] := if_pos hpos
      intro text room
      rw [List.length_cons, ntoaFrom]
      simp only [hnow, hread, hnext, read_bind]
      revert text
      change Writes buflen _ _
      by_cases zero : b = 0
      · simp only [if_pos zero]
        cases flag with
        | unseen =>
            simp only [textFrom, beforeRun]
            by_cases begins : blocks.headD behind = 0
            · simp only [if_pos begins, if_pos (And.intro zero begins)]
              exact (writes_put _).andThen (later .running)
            · simp only [if_neg begins, if_neg (fun h : b = 0 ∧ _ => begins h.2)]
              exact (putBlock_writes _ _ _).andThen (later .unseen)
        | running =>
            simp only [textFrom, inRun, if_pos zero]
            by_cases last : blocks = []
            · rw [last, List.length_nil] at hcount
              have hlast : index = 7 := by omega
              simp only [if_pos last, if_pos hlast]
              exact writes_put _
            · have hmore := List.length_pos_iff.mpr last
              have hinner : index ≠ 7 := by omega
              simp only [if_neg last, if_neg hinner]
              exact later .running
        | passed =>
            have hblock := (putBlock_writes buflen index b).andThen (later .passed)
            rw [hsep (started EmptyBlock.noConfusion)] at hblock
            exact hblock
      · simp only [if_neg zero]
        cases flag with
        | unseen =>
            simp only [textFrom, beforeRun, if_neg (fun h : b = 0 ∧ _ => zero h.1)]
            exact (putBlock_writes _ _ _).andThen (later .unseen)
        | running =>
            have hblock := (putBlock_writes buflen index b).andThen (later .passed)
            rw [hsep (started EmptyBlock.noConfusion)] at hblock
            simp only [textFrom, inRun, if_neg zero]
            exact hblock
        | passed =>
            have hblock := (putBlock_writes buflen index b).andThen (later .passed)
            rw [hsep (started EmptyBlock.noConfusion)] at hblock
            exact hblock

end Writing

theorem blocksOf_append {m : Bytes} (even : m.length % 2 = 0) (rest : Bytes) :
    blocksOf (m ++ rest) = blocksOf m ++ blocksOf rest := by
  induction m using blocksOf.induct with
  | case1 hi lo m ih =>
      have hm : m.length % 2 = 0 := by
        simp only [List.length_cons] at even
        omega
      simp only [List.cons_append, blocksOf, ih hm]
  | case2 m hshort =>
      have hnil : m = [] := by
        rcases m with - | ⟨a, - | ⟨b, m⟩⟩
        · rfl
        · exact absurd even (by simp)
        · exact absurd rfl (hshort a b m)
      rw [hnil]
      rfl

theorem blocksOf_length (m : Bytes) : (blocksOf m).length = m.length / 2 := by
  induction m using blocksOf.induct with
  | case1 hi lo m ih =>
      simp only [blocksOf, List.length_cons, ih]
      omega
  | case2 m hshort =>
      rcases m with - | ⟨a, - | ⟨b, m⟩⟩
      · rfl
      · simp [blocksOf]
      · exact absurd rfl (hshort a b m)

/-- The text of an address; the padding decides how the last block is written. -/
def ip6Text (a : Ip6Addr) : List Char :=
  beforeRun (be16Val a.zone (a.padding.1.headD 0)) 0 (blocksOf a.addr.1)

/-- A buffer that is large enough gets the text, and a smaller one makes the call fail. -/
theorem ip6addrNtoaR_eq (a : Ip6Addr) {buflen : Nat} (room : 0 < buflen) :
    ip6addrNtoaR a buflen =
      .ok (if (ip6Text a).length < buflen then some (ip6Text a) else none) := by
  obtain ⟨⟨addr, haddr⟩, zone, ⟨padding, hpadding⟩⟩ := a
  obtain ⟨pad, more, rfl⟩ : ∃ pad more, padding = pad :: more := by
    cases padding with
    | nil => cases hpadding
    | cons pad more => exact ⟨pad, more, rfl⟩
  have hlen : (blocksOf addr).length = 8 := by rw [blocksOf_length, haddr]
  have hwords : (addr ++ zone :: pad :: more).length % 4 = 0 := by
    rw [List.length_append, List.length_cons, haddr, hpadding]
  have hblocks : (blocksOf (addr ++ zone :: pad :: more)).drop 0 =
      blocksOf addr ++ be16Val zone pad :: blocksOf more := by
    rw [List.drop_zero, blocksOf_append (by rw [haddr])]
    rfl
  have hloop : Writes buflen (ntoaFrom _ buflen (blocksOf addr).length .unseen) _ :=
    ntoaFrom_writes hwords hblocks (by rw [hlen]) (fun h => absurd rfl h)
  rw [hlen] at hloop
  have hwrites := (hloop.andThen writes_terminate).run room
  rw [List.append_nil] at hwrites
  exact hwrites

/-! The length of the text and its characters. -/

theorem digitText_length (zeroFlag : Bool) (digit : Nat) :
    (digitText zeroFlag digit).length ≤ 1 := by
  unfold digitText
  split
  · exact Nat.zero_le 1
  · exact Nat.le_refl 1

theorem blockText_length (value : Nat) : (blockText value).length ≤ 4 := by
  have h3 := digitText_length true (value / 4096 % 16)
  have h2 := digitText_length (decide (value / 4096 % 16 = 0)) (value / 256 % 16)
  have h1 := digitText_length (decide (value / 4096 % 16 = 0) && decide (value / 256 % 16 = 0))
    (value / 16 % 16)
  simp only [blockText, List.length_append, List.length_singleton]
  omega

theorem afterRun_length (blocks : List Nat) : (afterRun blocks).length ≤ 5 * blocks.length := by
  induction blocks with
  | nil => exact Nat.le_refl _
  | cons b blocks ih =>
      have hb := blockText_length b
      rw [afterRun, List.flatMap_cons, ← afterRun, List.length_append, List.length_cons,
        List.length_cons]
      omega

theorem inRun_length (blocks : List Nat) : (inRun blocks).length ≤ 5 * blocks.length := by
  induction blocks with
  | nil => exact Nat.le_refl _
  | cons b blocks ih =>
      rw [inRun]
      split
      · split
        · rw [List.length_singleton, List.length_cons]
          omega
        · rw [List.length_cons]
          omega
      · exact afterRun_length _

theorem beforeRun_length (behind index : Nat) (blocks : List Nat) :
    (beforeRun behind index blocks).length ≤ 5 * blocks.length := by
  induction blocks generalizing index with
  | nil => exact Nat.le_refl _
  | cons b blocks ih =>
      have hb := blockText_length b
      have hrest := ih (index + 1)
      have hrun := inRun_length blocks
      have hsep : (separator index).length ≤ 1 := by
        unfold separator
        split
        · exact Nat.le_refl 1
        · exact Nat.zero_le 1
      rw [beforeRun]
      split
      · simp only [List.length_cons]
        omega
      · simp only [List.length_append, List.length_cons]
        omega

theorem ip6Text_length (a : Ip6Addr) : (ip6Text a).length ≤ 39 := by
  have hlen : (blocksOf a.addr.1).length = 8 := by rw [blocksOf_length, a.addr.2]
  rw [ip6Text]
  generalize be16Val a.zone (a.padding.1.headD 0) = behind
  cases hblocks : blocksOf a.addr.1 with
  | nil =>
      rw [hblocks] at hlen
      cases hlen
  | cons b blocks =>
      rw [hblocks, List.length_cons] at hlen
      have hb := blockText_length b
      have hrest := beforeRun_length behind (0 + 1) blocks
      have hrun := inRun_length blocks
      have hsep : (separator 0).length = 0 := rfl
      rw [beforeRun]
      split
      · rw [List.length_cons]
        omega
      · rw [List.length_append, List.length_append, hsep]
        omega

/-- A character of an address: a colon or a digit. -/
def AddrChar (c : Char) : Prop := c = ':' ∨ ∃ d < 16, c = xchar d

theorem blockText_digits (value : Nat) : ∀ c ∈ blockText value, ∃ d < 16, c = xchar d := by
  have digit (zeroFlag : Bool) {d : Nat} (hd : d < 16) {c : Char} (hc : c ∈ digitText zeroFlag d) :
      ∃ d < 16, c = xchar d := by
    unfold digitText at hc
    split at hc
    · cases hc
    · exact ⟨d, hd, List.mem_singleton.mp hc⟩
  intro c hc
  simp only [blockText, List.mem_append] at hc
  obtain hc | hc | hc | hc := hc
  · exact digit _ (Nat.mod_lt _ (by decide)) hc
  · exact digit _ (Nat.mod_lt _ (by decide)) hc
  · exact digit _ (Nat.mod_lt _ (by decide)) hc
  · exact ⟨value % 16, Nat.mod_lt _ (by decide), List.mem_singleton.mp hc⟩

theorem afterRun_chars (blocks : List Nat) : ∀ c ∈ afterRun blocks, AddrChar c := by
  intro c hc
  obtain ⟨b, -, hc⟩ := List.mem_flatMap.mp hc
  obtain rfl | hc := List.mem_cons.mp hc
  · exact .inl rfl
  · exact .inr (blockText_digits b c hc)

theorem inRun_chars (blocks : List Nat) : ∀ c ∈ inRun blocks, AddrChar c := by
  induction blocks with
  | nil =>
      intro c hc
      cases hc
  | cons b blocks ih =>
      rw [inRun]
      split
      · split
        · intro c hc
          exact .inl (List.mem_singleton.mp hc)
        · exact ih
      · exact afterRun_chars _

theorem beforeRun_chars (behind index : Nat) (blocks : List Nat) :
    ∀ c ∈ beforeRun behind index blocks, AddrChar c := by
  induction blocks generalizing index with
  | nil =>
      intro c hc
      cases hc
  | cons b blocks ih =>
      intro c hc
      rw [beforeRun] at hc
      split at hc
      · obtain rfl | hc := List.mem_cons.mp hc
        · exact .inl rfl
        · exact inRun_chars blocks c hc
      · obtain hc | hc := List.mem_append.mp hc
        · obtain hc | hc := List.mem_append.mp hc
          · unfold separator at hc
            split at hc
            · exact .inl (List.mem_singleton.mp hc)
            · cases hc
          · exact .inr (blockText_digits b c hc)
        · exact ih (index + 1) c hc

theorem AddrChar.ne_underscore {c : Char} (h : AddrChar c) : c ≠ '_' := by
  obtain rfl | ⟨d, hd, rfl⟩ := h
  · decide
  · have key : ∀ i : Fin 16, xchar i ≠ '_' := by decide
    exact key ⟨d, hd⟩

end LwipDtn
