import LwipDtn.Library.Bytes

/-!
The parts of lwIP that the DTN module relies on: IPv6 addresses, the fixed IPv6
header and packet buffers.

A buffer is modelled with the memory that follows its first segment, because the
DTN code reads through the payload pointer without looking at the length. The
allocator is a parameter of every allocating call: it either fails or hands out
memory whose previous contents are arbitrary.
-/

namespace LwipDtn
open Outcome Bytes

def ip6Hlen : Nat := 40
def ip6NexthHopbyhop : UInt8 := 0
def ip6NexthIcmp6 : UInt8 := 58
def ip6NexthNone : UInt8 := 59

/-- `ip6_addr_t` with address scopes enabled, as it lies in memory. -/
structure Ip6Addr where
  addr : Block 16
  zone : UInt8
  padding : Block 3
deriving DecidableEq

def noPadding : Block 3 := ⟨[0, 0, 0], rfl⟩

/-- `ip6_addr_cmp` after both zones have been set to `IP6_NO_ZONE`. -/
def Ip6Addr.eqNoZone (a b : Ip6Addr) : Bool := a.addr == b.addr

@[simp] theorem Ip6Addr.eqNoZone_iff {a b : Ip6Addr} : a.eqNoZone b = true ↔ a.addr = b.addr := by
  simp only [Ip6Addr.eqNoZone, beq_iff_eq]

/-- `memcpy` of an `ip6_addr_t` out of a packet: sixteen address bytes, then the
byte after them becomes the zone, then three bytes of padding. -/
def ip6AddrAt (m : Bytes) (off : Nat) : Run Ip6Addr := do
  let raw ← readBlock m off 20
  let addr ← readBlock raw.1 0 16
  let zone ← byteAt raw.1 16
  let padding ← readBlock raw.1 17 3
  return ⟨addr, zone, padding⟩

/-- A packet buffer: its first segment, the memory that follows this segment, and
the bytes of the remaining segments. -/
structure Pbuf where
  payload : Bytes
  behind : Bytes
  chain : Bytes
  tot_lt : payload.length + chain.length < 65536

namespace Pbuf

def len (p : Pbuf) : Nat := p.payload.length
def totLen (p : Pbuf) : Nat := p.payload.length + p.chain.length
def bytes (p : Pbuf) : Bytes := p.payload ++ p.chain

/-- What a read through `p->payload` can see. -/
def mem (p : Pbuf) : Bytes := p.payload ++ p.behind

@[simp] theorem bytes_length (p : Pbuf) : p.bytes.length = p.totLen := by
  simp [bytes, totLen]

theorem totLen_lt (p : Pbuf) : p.totLen < 65536 := p.tot_lt

/-- The first segment is what a read through the payload pointer sees first. -/
theorem byteAt_mem (p : Pbuf) {i : Nat} (h : i < p.len) :
    byteAt p.mem i = .ok (p.bytes.getD i 0) := by
  have h' : i < p.payload.length := h
  rw [mem, byteAt_append_left h', byteAt_of_lt h', bytes, List.getD_eq_getElem?_getD,
    List.getElem?_append_left h', List.getElem?_eq_getElem h', Option.getD_some]

def single (b behind : Bytes) (h : b.length < 65536) : Pbuf :=
  ⟨b, behind, [], by simpa using h⟩

@[simp] theorem single_bytes (b behind : Bytes) (h : b.length < 65536) :
    (single b behind h).bytes = b := by simp [single, bytes]

@[simp] theorem single_totLen (b behind : Bytes) (h : b.length < 65536) :
    (single b behind h).totLen = b.length := by simp [single, totLen]

@[simp] theorem single_mem (b behind : Bytes) (h : b.length < 65536) :
    (single b behind h).mem = b ++ behind := rfl

@[simp] theorem single_payload (b behind : Bytes) (h : b.length < 65536) :
    (single b behind h).payload = b := rfl

@[simp] theorem single_chain (b behind : Bytes) (h : b.length < 65536) :
    (single b behind h).chain = [] := rfl

/-- A freshly written block becomes a buffer. -/
def ofBlock (b behind : Bytes) : Run Pbuf :=
  if h : b.length < 65536 then .ok (single b behind h) else .error .fault

theorem ofBlock_of_lt {b behind : Bytes} (h : b.length < 65536) :
    ofBlock b behind = .ok (single b behind h) := by
  unfold ofBlock
  rw [dif_pos h]

theorem ofBlock_payload {b behind : Bytes} {q : Pbuf} (h : ofBlock b behind = .ok q) :
    q.payload = b := by
  unfold ofBlock at h
  split at h
  · cases h
    rfl
  · cases h

theorem ofBlock_chain {b behind : Bytes} {q : Pbuf} (h : ofBlock b behind = .ok q) :
    q.chain = [] := by
  unfold ofBlock at h
  split at h
  · cases h
    rfl
  · cases h

end Pbuf

/-- What the allocator answers: nothing, or the memory at the new place. -/
abbrev Heap := Option Bytes

/-- `pbuf_alloc(.., length, PBUF_RAM)`. The length argument is a `u16_t`. The
result is the new block with its old contents and the memory behind it. -/
def pbufAlloc (heap : Heap) (length : Nat) : Option (Bytes × Bytes) :=
  heap.bind fun m =>
    if length % 65536 ≤ m.length then
      some (m.take (length % 65536), m.drop (length % 65536))
    else none

theorem pbufAlloc_mod (heap : Heap) {a b : Nat} (h : a % 65536 = b % 65536) :
    pbufAlloc heap a = pbufAlloc heap b := by
  simp only [pbufAlloc, h]

theorem pbufAlloc_length {heap : Heap} {length : Nat} {block behind : Bytes}
    (h : pbufAlloc heap length = some (block, behind)) : block.length = length % 65536 := by
  cases heap with
  | none => cases h
  | some m =>
      simp only [pbufAlloc, Option.bind_some] at h
      split at h
      · cases h
        simp only [List.length_take]
        omega
      · cases h

/-- `pbuf_alloc` of the same total length followed by `pbuf_copy`, which cannot
fail between buffers of one size. -/
def pbufClone (heap : Heap) (p : Pbuf) : Option Pbuf :=
  (pbufAlloc heap p.totLen).map fun (_, behind) =>
    .single p.bytes behind (by rw [Pbuf.bytes_length]; exact p.totLen_lt)

theorem pbufClone_bytes {heap : Heap} {p q : Pbuf} (h : pbufClone heap p = some q) :
    q.bytes = p.bytes := by
  simp only [pbufClone, Option.map_eq_some_iff] at h
  obtain ⟨⟨_, behind⟩, -, rfl⟩ := h
  simp

theorem pbufClone_single {heap : Heap} {p q : Pbuf} (h : pbufClone heap p = some q) :
    ∃ behind hb, q = .single p.bytes behind hb := by
  simp only [pbufClone, Option.map_eq_some_iff] at h
  obtain ⟨⟨_, behind⟩, -, rfl⟩ := h
  exact ⟨behind, _, rfl⟩

theorem pbufClone_payload {heap : Heap} {p q : Pbuf} (h : pbufClone heap p = some q) :
    q.payload = p.bytes ∧ q.chain = [] := by
  simp only [pbufClone, Option.map_eq_some_iff] at h
  obtain ⟨⟨_, behind⟩, -, rfl⟩ := h
  simp

/-! Fields of the fixed header of a packet given by its bytes. -/

def plenOf (b : Bytes) : Nat := be16Val (b.getD 4 0) (b.getD 5 0)
def nexthOf (b : Bytes) : UInt8 := b.getD 6 0
def srcOf (b : Bytes) : Bytes := (b.drop 8).take 16
def destOf (b : Bytes) : Bytes := (b.drop 24).take 16

/-- A complete fixed header whose payload length is the number of bytes after it. -/
structure WellFormed (b : Bytes) : Prop where
  header : ip6Hlen ≤ b.length
  plen : plenOf b + ip6Hlen = b.length

/-- The fixed header in the pieces that the DTN code rewrites: the first word, the
payload length, the next header, and the hop limit with both addresses. -/
theorem header_split {b : Bytes} (h : 40 ≤ b.length) :
    ∃ (v t r : Bytes) (hi lo n : UInt8),
      b = v ++ [hi, lo] ++ [n] ++ t ++ r ∧ v.length = 4 ∧ t.length = 33 := by
  obtain ⟨v, b1, rfl, hv⟩ := exists_split (m := b) (n := 4) (by omega)
  simp only [List.length_append] at h
  match b1, h with
  | [], h => simp at h; omega
  | [_], h => simp at h; omega
  | [_, _], h => simp at h; omega
  | hi :: lo :: n :: b2, h =>
      obtain ⟨t, r, rfl, ht⟩ := exists_split (m := b2) (n := 33) (by
        simp only [List.length_cons] at h; omega)
      exact ⟨v, t, r, hi, lo, n, by simp, hv, ht⟩

theorem nexth_mem {p : Pbuf} (h : ip6Hlen ≤ p.len) : byteAt p.mem 6 = .ok (nexthOf p.bytes) :=
  p.byteAt_mem (Nat.lt_of_lt_of_le (by decide) h)

theorem plen_mem {p : Pbuf} (h : ip6Hlen ≤ p.len) : be16At p.mem 4 = .ok (plenOf p.bytes) := by
  rw [ip6Hlen] at h
  simp only [be16At, p.byteAt_mem (show 4 < p.len by omega),
    p.byteAt_mem (show 4 + 1 < p.len by omega), Run.bind_ok, Run.pure_eq_ok]
  rfl

theorem plenOf_split {v r : Bytes} (hi lo : UInt8) (hv : v.length = 4) :
    plenOf (v ++ [hi, lo] ++ r) = be16Val hi lo := by
  simp [plenOf, List.getD_eq_getElem?_getD, List.getElem?_append_right, hv]

theorem nexthOf_split {v r : Bytes} (hi lo n : UInt8) (hv : v.length = 4) :
    nexthOf (v ++ [hi, lo] ++ [n] ++ r) = n := by
  simp [nexthOf, List.getD_eq_getElem?_getD, List.getElem?_append_right, hv]

theorem srcOf_take (b : Bytes) {n : Nat} (h : 24 ≤ n) : srcOf (b.take n) = srcOf b := by
  rw [srcOf, srcOf, List.drop_take, List.take_take, Nat.min_eq_left (by omega)]

theorem destOf_take (b : Bytes) {n : Nat} (h : 40 ≤ n) : destOf (b.take n) = destOf b := by
  rw [destOf, destOf, List.drop_take, List.take_take, Nat.min_eq_left (by omega)]

theorem srcOf_payload {p : Pbuf} (h : ip6Hlen ≤ p.len) : srcOf p.payload = srcOf p.bytes := by
  rw [← srcOf_take p.payload (n := ip6Hlen) (by decide), ← srcOf_take p.bytes (n := ip6Hlen)
    (by decide), Pbuf.bytes, List.take_append_of_le_length h]

theorem destOf_payload {p : Pbuf} (h : ip6Hlen ≤ p.len) : destOf p.payload = destOf p.bytes := by
  rw [← destOf_take p.payload (n := ip6Hlen) (by decide), ← destOf_take p.bytes (n := ip6Hlen)
    (by decide), Pbuf.bytes, List.take_append_of_le_length h]

end LwipDtn
