import LwipDtn.Library.Outcome

/-!
Byte memory with checked accesses: reading or writing outside the memory is a
fault. Blocks are byte strings whose length is part of their type. The integer
encodings are the ones used on the wire (big endian) and in host structs (little
endian).
-/

open Outcome

abbrev Bytes := List UInt8

abbrev Block (n : Nat) := { b : Bytes // b.length = n }

namespace Bytes

def byteAt (m : Bytes) (i : Nat) : Run UInt8 :=
  match m[i]? with
  | some b => .ok b
  | none => .error .fault

def readBlock (m : Bytes) (off n : Nat) : Run (Block n) :=
  if h : off + n ≤ m.length then
    .ok ⟨(m.drop off).take n, by simp only [List.length_take, List.length_drop]; omega⟩
  else .error .fault

def overwrite (m : Bytes) (off : Nat) (d : Bytes) : Run Bytes :=
  if off + d.length ≤ m.length then
    .ok (m.take off ++ d ++ m.drop (off + d.length))
  else .error .fault

/-- The byte count of a copy whose length is a difference; a negative difference
becomes an enormous size and the copy leaves the memory. -/
def copyLength (total skipped : Nat) : Run Nat :=
  if skipped ≤ total then .ok (total - skipped) else .error .fault

theorem byteAt_eq_ok {m : Bytes} {i : Nat} {b : UInt8} :
    byteAt m i = .ok b ↔ m[i]? = some b := by
  unfold byteAt
  split <;> simp_all

theorem byteAt_append_left {a : Bytes} {i : Nat} (h : i < a.length) (b : Bytes) :
    byteAt (a ++ b) i = byteAt a i := by
  unfold byteAt
  rw [List.getElem?_append_left h]

theorem byteAt_of_lt {m : Bytes} {i : Nat} (h : i < m.length) :
    byteAt m i = .ok m[i] := by
  rw [byteAt_eq_ok, List.getElem?_eq_getElem h]

theorem byteAt_getD {m : Bytes} {i : Nat} (h : i < m.length) : byteAt m i = .ok (m.getD i 0) := by
  rw [byteAt_of_lt h, List.getD_eq_getElem?_getD, List.getElem?_eq_getElem h, Option.getD_some]

theorem byteAt_of_le {m : Bytes} {i : Nat} (h : m.length ≤ i) :
    byteAt m i = .error .fault := by
  unfold byteAt
  rw [List.getElem?_eq_none h]

theorem byteAt_returns {m : Bytes} {i : Nat} :
    Run.Returns (byteAt m i) ↔ i < m.length := by
  by_cases h : i < m.length
  · simp [byteAt_of_lt h, h]
  · simp [byteAt_of_le (Nat.le_of_not_lt h), h]

theorem readBlock_of_le {m : Bytes} {i n : Nat} (h : i + n ≤ m.length) :
    ∃ b : Block n, readBlock m i n = .ok b ∧ b.1 = (m.drop i).take n := by
  unfold readBlock
  rw [dif_pos h]
  exact ⟨_, rfl, rfl⟩

theorem readBlock_eq_ok {m : Bytes} {off n : Nat} {b : Block n} :
    readBlock m off n = .ok b ↔ off + n ≤ m.length ∧ b.1 = (m.drop off).take n := by
  unfold readBlock
  split
  · rename_i h
    constructor
    · intro hb
      cases hb
      exact ⟨h, rfl⟩
    · rintro ⟨-, hb⟩
      exact congrArg Except.ok (Subtype.ext hb.symm)
  · rename_i h
    constructor
    · intro hb
      cases hb
    · rintro ⟨hb, -⟩
      exact absurd hb h

theorem readBlock_returns {m : Bytes} {off n : Nat} :
    Run.Returns (readBlock m off n) ↔ off + n ≤ m.length := by
  unfold readBlock
  split
  · rename_i h
    exact ⟨fun _ => h, fun _ => ⟨_, rfl⟩⟩
  · rename_i h
    exact ⟨fun hret => absurd hret (Run.not_returns_error _), fun hle => absurd hle h⟩

theorem readBlock_fault {m : Bytes} {off n : Nat} :
    readBlock m off n = .error .fault ↔ m.length < off + n := by
  unfold readBlock
  split
  · rename_i h
    exact ⟨nofun, fun hlt => absurd h (Nat.not_le.mpr hlt)⟩
  · rename_i h
    exact ⟨fun _ => Nat.not_le.mp h, fun _ => rfl⟩

theorem readBlock_split {m a c : Bytes} {off n : Nat} (b : Block n)
    (hm : m = a ++ b.1 ++ c) (ha : a.length = off) : readBlock m off n = .ok b := by
  rw [readBlock_eq_ok]
  subst hm ha
  have hb := b.2
  refine ⟨by simp only [List.length_append]; omega, ?_⟩
  rw [List.append_assoc, List.drop_left, List.take_left' hb]

theorem overwrite_eq_ok {m : Bytes} {off : Nat} {d r : Bytes} :
    overwrite m off d = .ok r ↔
      off + d.length ≤ m.length ∧ r = m.take off ++ d ++ m.drop (off + d.length) := by
  unfold overwrite
  split
  · rename_i h
    constructor
    · intro hr
      cases hr
      exact ⟨h, rfl⟩
    · rintro ⟨-, rfl⟩
      rfl
  · rename_i h
    constructor
    · intro hr
      cases hr
    · rintro ⟨hr, -⟩
      exact absurd hr h

theorem overwrite_split {m a b c d : Bytes} {off : Nat}
    (hm : m = a ++ b ++ c) (ha : a.length = off) (hd : d.length = b.length) :
    overwrite m off d = .ok (a ++ d ++ c) := by
  rw [overwrite_eq_ok]
  subst hm ha
  constructor
  · simp only [List.length_append]; omega
  · rw [List.append_assoc a b c, List.take_left, hd, ← List.drop_drop, List.drop_left,
      List.drop_left]

theorem overwrite_behind {a r d m : Bytes} {off : Nat} (ha : a.length = off)
    (h : overwrite (a ++ r) off d = .ok m) : m = a ++ d ++ r.drop d.length := by
  obtain ⟨-, rfl⟩ := overwrite_eq_ok.mp h
  rw [List.take_left' ha, ← List.drop_drop, List.drop_left' ha]

theorem overwrite_length {m : Bytes} {off : Nat} {d r : Bytes}
    (h : overwrite m off d = .ok r) : r.length = m.length := by
  obtain ⟨hl, rfl⟩ := overwrite_eq_ok.mp h
  simp only [List.length_append, List.length_take, List.length_drop]
  omega

theorem overwrite_fault {m : Bytes} {off : Nat} {d : Bytes}
    (h : m.length < off + d.length) : overwrite m off d = .error .fault := by
  unfold overwrite
  rw [if_neg (by omega)]

theorem copyLength_eq_ok {total skipped n : Nat} :
    copyLength total skipped = .ok n ↔ skipped ≤ total ∧ n = total - skipped := by
  unfold copyLength
  split
  · rename_i h
    constructor
    · intro hn
      cases hn
      exact ⟨h, rfl⟩
    · rintro ⟨-, rfl⟩
      rfl
  · rename_i h
    constructor
    · intro hn
      cases hn
    · rintro ⟨hn, -⟩
      exact absurd hn h

theorem exists_split {m : Bytes} {n : Nat} (h : n ≤ m.length) :
    ∃ a b : Bytes, m = a ++ b ∧ a.length = n :=
  ⟨m.take n, m.drop n, (List.take_append_drop n m).symm, by
    rw [List.length_take]; omega⟩

theorem overwrite_append (m : Bytes) (i : Nat) (d e : Bytes) :
    overwrite m i (d ++ e) =
      overwrite m i d >>= fun m' => overwrite m' (i + d.length) e := by
  by_cases hd : i + d.length ≤ m.length
  · obtain ⟨a, r, rfl, ha⟩ := exists_split (Nat.le_trans (Nat.le_add_right i d.length) hd)
    rw [List.length_append] at hd
    obtain ⟨b, c, rfl, hb⟩ := exists_split (m := r) (n := d.length) (by omega)
    have hfirst : overwrite (a ++ (b ++ c)) i d = .ok (a ++ d ++ c) :=
      overwrite_split (List.append_assoc a b c).symm ha hb.symm
    rw [hfirst, Run.bind_ok]
    by_cases he : e.length ≤ c.length
    · obtain ⟨x, y, rfl, hx⟩ := exists_split he
      rw [overwrite_split (b := b ++ x) (c := y) (by simp) ha (by simp [hb, hx]),
        overwrite_split (a := a ++ d) (b := x) (c := y) (by simp) (by simp [ha]) hx.symm,
        List.append_assoc a d e]
    · rw [overwrite_fault (by simp only [List.length_append]; omega),
        overwrite_fault (by simp only [List.length_append]; omega)]
  · rw [overwrite_fault (Nat.not_le.mp hd), Run.bind_error,
      overwrite_fault (by rw [List.length_append]; omega)]

/-- A write into one segment is a write into the whole memory. -/
theorem overwrite_segment {p p' d : Bytes} {off : Nat} (h : overwrite p off d = .ok p')
    (a b : Bytes) : overwrite (a ++ (p ++ b)) (a.length + off) d = .ok (a ++ (p' ++ b)) := by
  obtain ⟨hle, rfl⟩ := overwrite_eq_ok.mp h
  rw [overwrite_eq_ok]
  refine ⟨by simp only [List.length_append]; omega, ?_⟩
  rw [List.take_append, List.take_of_length_le (Nat.le_add_right _ _), Nat.add_sub_cancel_left,
    List.take_append_of_le_length (by omega), Nat.add_assoc, List.drop_append,
    List.drop_of_length_le (Nat.le_add_right _ _), Nat.add_sub_cancel_left, List.nil_append,
    List.drop_append_of_le_length hle]
  simp only [List.append_assoc]

theorem overwrite_nil {m : Bytes} {i : Nat} (h : i ≤ m.length) : overwrite m i [] = .ok m := by
  rw [overwrite_eq_ok]
  exact ⟨h, by rw [List.append_nil, List.length_nil, Nat.add_zero, List.take_append_drop]⟩

def be16Val (hi lo : UInt8) : Nat := hi.toNat * 256 + lo.toNat

def be16 (n : Nat) : Bytes := [UInt8.ofNat (n / 256), UInt8.ofNat n]

def be16At (m : Bytes) (off : Nat) : Run Nat := do
  let hi ← byteAt m off
  let lo ← byteAt m (off + 1)
  return be16Val hi lo

@[simp] theorem be16_length (n : Nat) : (be16 n).length = 2 := rfl

theorem be16Val_lt (hi lo : UInt8) : be16Val hi lo < 65536 := by
  have h := hi.toNat_lt
  have l := lo.toNat_lt
  unfold be16Val
  omega

theorem be16_be16Val (hi lo : UInt8) : be16 (be16Val hi lo) = [hi, lo] := by
  have h := hi.toNat_lt
  have l := lo.toNat_lt
  have hd : (hi.toNat * 256 + lo.toNat) / 256 = hi.toNat := by omega
  have hl : UInt8.ofNat (hi.toNat * 256 + lo.toNat) = lo := by
    apply UInt8.toNat_inj.mp
    rw [UInt8.toNat_ofNat']
    omega
  simp only [be16, be16Val, hd, hl, UInt8.ofNat_toNat]

theorem be16Val_be16 {n : Nat} (h : n < 65536) :
    be16Val (UInt8.ofNat (n / 256)) (UInt8.ofNat n) = n := by
  simp only [be16Val, UInt8.toNat_ofNat']
  omega

def le32 (w : UInt32) : Bytes :=
  [UInt8.ofNat w.toNat, UInt8.ofNat (w.toNat / 256), UInt8.ofNat (w.toNat / 65536),
    UInt8.ofNat (w.toNat / 16777216)]

def le32Val (a b c d : UInt8) : UInt32 :=
  UInt32.ofNat (a.toNat + b.toNat * 256 + c.toNat * 65536 + d.toNat * 16777216)

def le32At (m : Bytes) (off : Nat) : UInt32 :=
  le32Val (m.getD off 0) (m.getD (off + 1) 0) (m.getD (off + 2) 0) (m.getD (off + 3) 0)

@[simp] theorem le32_length (w : UInt32) : (le32 w).length = 4 := rfl

theorem le32Val_le32 (w : UInt32) :
    le32Val (UInt8.ofNat w.toNat) (UInt8.ofNat (w.toNat / 256))
      (UInt8.ofNat (w.toNat / 65536)) (UInt8.ofNat (w.toNat / 16777216)) = w := by
  have h := w.toNat_lt
  apply UInt32.toNat_inj.mp
  simp only [le32Val, UInt32.toNat_ofNat', UInt8.toNat_ofNat']
  omega

end Bytes
