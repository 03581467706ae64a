import LwipDtn.CustodyBuffers

/-!
`pbuf.c`: the chains of segments behind a packet buffer, and the loops of lwIP that fill
them, copy between them and read them. The other modules see a packet as its first segment
and the bytes of the remaining ones; a chain written, cloned and read by these loops is
such a packet, however it is cut into segments.
-/

namespace LwipDtn
open Outcome Bytes

/-- The values of `err_t` that these calls return. -/
inductive ErrT where
  | ok
  | mem
  | val
  | arg
deriving DecidableEq

/-- The payloads of the pbufs of a chain, each of `len` bytes. -/
abbrev Chain := List Bytes

/-- The field `tot_len` of the first pbuf. -/
def Chain.totLen (c : Chain) : Nat := c.flatten.length

/-! Copying from chain to chain. -/

/-- How far `pbuf_copy_partial_pbuf` has come: the segments of the target that it has left,
both chains from the current segment on, the offsets in these, and the bytes to go. -/
structure ChainCopy where
  done : Chain
  pTo : Chain
  offsetTo : Nat
  pFrom : Chain
  offsetFrom : Nat
  copyLen : Nat

namespace ChainCopy

/-- The copy inside the current segments. The differences are of type `size_t`. -/
def move (st : ChainCopy) : Run ChainCopy :=
  match st.pTo, st.pFrom with
  | p :: next, q :: _ => do
      let room ← copyLength p.length st.offsetTo
      let left ← copyLength q.length st.offsetFrom
      let len := min st.copyLen (if left ≤ room then left else room)
      let p ← overwrite p st.offsetTo ((q.drop st.offsetFrom).take len)
      return { st with
        pTo := p :: next
        offsetTo := st.offsetTo + len
        offsetFrom := st.offsetFrom + len
        copyLen := st.copyLen - len }
  | _, _ => .error .fault

def nextFrom (st : ChainCopy) : ChainCopy :=
  match st.pFrom with
  | q :: next =>
      if q.length ≤ st.offsetFrom then { st with pFrom := next, offsetFrom := 0 } else st
  | [] => st

def nextTo (st : ChainCopy) : ChainCopy :=
  match st.pTo with
  | p :: next =>
      if st.offsetTo = p.length then
        { st with done := st.done ++ [p], pTo := next, offsetTo := 0 }
      else st
  | [] => st

end ChainCopy

/-- A pbuf that ends a packet although another one follows it. -/
def Chain.queued : Chain → Bool
  | [] => false
  | p :: next => p.length = Chain.totLen (p :: next) ∧ next ≠ []

/-- The body of the loop: the error it returns with, if any. -/
def ChainCopy.body (st : ChainCopy) : Run (Option ErrT × ChainCopy) := do
  let st ← st.move
  let st := st.nextFrom
  if st.pFrom = [] ∧ st.copyLen ≠ 0 then return (some .arg, st)
  let st := st.nextTo
  if st.pTo = [] ∧ st.copyLen ≠ 0 then return (some .arg, st)
  if Chain.queued st.pFrom then return (some .val, st)
  if Chain.queued st.pTo then return (some .val, st)
  return (none, st)

def ChainCopy.target (st : ChainCopy) : Chain := st.done ++ st.pTo

def ChainCopy.loop : Nat → ChainCopy → Run (ErrT × Chain)
  | 0, _ => .error .hang
  | fuel + 1, st => do
      match ← st.body with
      | (some err, st) => return (err, st.target)
      | (none, st) => if st.copyLen = 0 then return (.ok, st.target) else loop fuel st

/-- Every round leaves a segment of one of the chains. The null pointer is the empty chain. -/
def pbufCopyPartialPbuf (pTo pFrom : Chain) (copyLen offset : Nat) : Run (ErrT × Chain) :=
  if pFrom = [] ∨ pFrom.totLen < copyLen then .ok (.arg, pTo)
  else if pTo = [] ∨ pTo.totLen < offset + copyLen then .ok (.arg, pTo)
  else ChainCopy.loop (pTo.length + pFrom.length) ⟨[], pTo, offset, pFrom, 0, copyLen⟩

def pbufCopy (pTo pFrom : Chain) : Run (ErrT × Chain) :=
  if pFrom = [] then .ok (.arg, pTo) else pbufCopyPartialPbuf pTo pFrom pFrom.totLen 0

/-! Memory cut into segments. -/

/-- No segment follows the end of the packet. -/
def Chain.OnePacket : Chain → Prop
  | [] => True
  | _ :: next => (next ≠ [] → next.flatten ≠ []) ∧ Chain.OnePacket next

theorem Chain.OnePacket.not_queued {c : Chain} (h : c.OnePacket) : c.queued = false := by
  cases c with
  | nil => rfl
  | cons p next =>
      rw [Chain.queued, decide_eq_false_iff_not]
      rintro ⟨hlen, hnext⟩
      have hpos := List.length_pos_iff.mpr (h.1 hnext)
      rw [Chain.totLen, List.flatten_cons, List.length_append] at hlen
      omega

/-- A place in a chain: an offset in its first segment, with `n` bytes from there on. -/
structure Chain.Cursor (c : Chain) (off n : Nat) : Prop where
  inside : ∃ p next, c = p :: next ∧ off ≤ p.length
  enough : off + n ≤ c.flatten.length
  packet : c.OnePacket

theorem Chain.Cursor.leave {p : Bytes} {next : Chain} {n : Nat}
    (h : Chain.Cursor (p :: next) p.length n) (more : n ≠ 0) : Chain.Cursor next 0 n := by
  have henough := h.enough
  rw [List.flatten_cons, List.length_append] at henough
  refine ⟨?_, by omega, h.packet.2⟩
  cases next with
  | nil =>
      rw [List.flatten_nil, List.length_nil] at henough
      omega
  | cons q next => exact ⟨q, next, rfl, Nat.zero_le _⟩

namespace ChainCopy

def pos (st : ChainCopy) : Nat := st.done.flatten.length + st.offsetTo

def rest (st : ChainCopy) : Bytes := (st.pFrom.flatten.drop st.offsetFrom).take st.copyLen

/-- What the target is after the rest has been copied at once. -/
def result (st : ChainCopy) : Run Bytes := overwrite st.target.flatten st.pos st.rest

structure Ready (st : ChainCopy) : Prop where
  atTo : Chain.Cursor st.pTo st.offsetTo st.copyLen
  atFrom : Chain.Cursor st.pFrom st.offsetFrom st.copyLen

/-- After the copy inside the segments one of them is at its end, or all is copied. -/
structure Moved (st st' : ChainCopy) : Prop where
  ready : st'.Ready
  result : st'.result = st.result
  shape : st'.target.map List.length = st.target.map List.length
  lengths : st'.pTo.length = st.pTo.length ∧ st'.pFrom.length = st.pFrom.length
  progress : st'.copyLen ≠ 0 →
    (∃ p next, st'.pTo = p :: next ∧ st'.offsetTo = p.length) ∨
      ∃ q next, st'.pFrom = q :: next ∧ st'.offsetFrom = q.length

theorem Ready.move {st : ChainCopy} (h : st.Ready) : ∃ st', st.move = .ok st' ∧ Moved st st' := by
  obtain ⟨done, pTo, offsetTo, pFrom, offsetFrom, copyLen⟩ := st
  obtain ⟨⟨⟨p, next, hto, hinTo⟩, room, toPacket⟩,
    ⟨⟨q, next', hfrom, hinFrom⟩, left, fromPacket⟩⟩ := h
  dsimp only at hto hfrom hinTo hinFrom room left toPacket fromPacket
  subst hto hfrom
  rw [List.flatten_cons, List.length_append] at room left
  generalize hlen : min copyLen (if q.length - offsetFrom ≤ p.length - offsetTo then
    q.length - offsetFrom else p.length - offsetTo) = len
  have hroom : copyLength p.length offsetTo = .ok (p.length - offsetTo) :=
    copyLength_eq_ok.mpr ⟨hinTo, rfl⟩
  have hleft : copyLength q.length offsetFrom = .ok (q.length - offsetFrom) :=
    copyLength_eq_ok.mpr ⟨hinFrom, rfl⟩
  have hcopy : len ≤ copyLen := by omega
  have hp : offsetTo + len ≤ p.length := by
    split at hlen <;> omega
  have hq : offsetFrom + len ≤ q.length := by
    split at hlen <;> omega
  have hpiece : ((q.drop offsetFrom).take len).length = len := by
    rw [List.length_take, List.length_drop]
    omega
  obtain ⟨p', hwrite⟩ : ∃ p', overwrite p offsetTo ((q.drop offsetFrom).take len) = .ok p' := by
    refine ⟨_, overwrite_eq_ok.mpr ⟨?_, rfl⟩⟩
    rw [hpiece]
    exact hp
  have hp' := overwrite_length hwrite
  refine ⟨⟨done, p' :: next, offsetTo + len, q :: next', offsetFrom + len, copyLen - len⟩, ?_, ?_⟩
  · simp only [ChainCopy.move, hroom, hleft, Run.bind_ok, hlen, hwrite, Run.pure_eq_ok]
  refine ⟨⟨⟨⟨p', next, rfl, hp' ▸ hp⟩, ?_, toPacket⟩, ⟨⟨q, next', rfl, hq⟩, ?_, fromPacket⟩⟩,
    ?_, ?_, ⟨rfl, rfl⟩, ?_⟩
  · simp only [List.flatten_cons, List.length_append]
    omega
  · simp only [List.flatten_cons, List.length_append]
    omega
  · -- the bytes to go are those of this segment and those after it
    have hrest : rest ⟨done, p :: next, offsetTo, q :: next', offsetFrom, copyLen⟩ =
        (q.drop offsetFrom).take len ++
          rest ⟨done, p' :: next, offsetTo + len, q :: next', offsetFrom + len, copyLen - len⟩ := by
      have hdrop : (q ++ next'.flatten).drop offsetFrom = q.drop offsetFrom ++ next'.flatten :=
        List.drop_append_of_le_length hinFrom
      have hshort : len ≤ (q.drop offsetFrom).length := by
        rw [List.length_drop]
        omega
      have htake : (q.drop offsetFrom ++ next'.flatten).take len = (q.drop offsetFrom).take len :=
        List.take_append_of_le_length hshort
      simp only [rest, List.flatten_cons]
      rw [← List.drop_drop, hdrop, ← htake, ← List.take_add, Nat.add_sub_cancel' hcopy]
    have hsegment := overwrite_segment hwrite done.flatten next.flatten
    simp only [ChainCopy.result, target, pos, hrest, List.flatten_append, List.flatten_cons]
    rw [overwrite_append, hsegment, Run.bind_ok, hpiece, Nat.add_assoc]
  · simp only [target, List.map_append, List.map_cons, hp']
  · intro hmore
    dsimp only at hmore
    by_cases hfits : q.length - offsetFrom ≤ p.length - offsetTo
    · rw [if_pos hfits] at hlen
      exact .inr ⟨q, next', rfl, by dsimp only; omega⟩
    · rw [if_neg hfits] at hlen
      exact .inl ⟨p', next, rfl, by dsimp only; omega⟩

def AtEnd (c : Chain) (off : Nat) : Prop := ∃ p next, c = p :: next ∧ off = p.length

theorem nextFrom_spec {st : ChainCopy} (h : Chain.Cursor st.pFrom st.offsetFrom st.copyLen) :
    ∃ c off, st.nextFrom = { st with pFrom := c, offsetFrom := off } ∧
      c.flatten.drop off = st.pFrom.flatten.drop st.offsetFrom ∧ c.OnePacket ∧
      (st.copyLen ≠ 0 → Chain.Cursor c off st.copyLen) ∧
      c.length ≤ st.pFrom.length ∧ (AtEnd st.pFrom st.offsetFrom → c.length < st.pFrom.length) := by
  obtain ⟨done, pTo, offsetTo, pFrom, offsetFrom, copyLen⟩ := st
  obtain ⟨q, next, hfrom, hin⟩ := h.inside
  dsimp only at h hfrom hin ⊢
  subst hfrom
  by_cases hend : q.length ≤ offsetFrom
  · obtain rfl : offsetFrom = q.length := Nat.le_antisymm hin hend
    refine ⟨next, 0, if_pos hend, ?_, h.packet.2, h.leave, ?_, fun _ => ?_⟩
    · rw [List.drop_zero, List.flatten_cons, List.drop_left]
    · exact Nat.le_succ _
    · exact Nat.lt_succ_self _
  · refine ⟨q :: next, offsetFrom, if_neg hend, rfl, h.packet, fun _ => h, Nat.le_refl _, ?_⟩
    rintro ⟨q', next', heq, hoff⟩
    cases heq
    omega

theorem nextTo_spec (st : ChainCopy) (h : Chain.Cursor st.pTo st.offsetTo st.copyLen) :
    ∃ done c off, st.nextTo = { st with done := done, pTo := c, offsetTo := off } ∧
      done ++ c = st.target ∧ done.flatten.length + off = st.pos ∧ c.OnePacket ∧
      (st.copyLen ≠ 0 → Chain.Cursor c off st.copyLen) ∧
      c.length ≤ st.pTo.length ∧ (AtEnd st.pTo st.offsetTo → c.length < st.pTo.length) := by
  obtain ⟨done, pTo, offsetTo, pFrom, offsetFrom, copyLen⟩ := st
  obtain ⟨p, next, hto, hin⟩ := h.inside
  dsimp only at h hto hin ⊢
  subst hto
  by_cases hend : offsetTo = p.length
  · subst hend
    refine ⟨done ++ [p], next, 0, if_pos rfl, ?_, ?_, h.packet.2, h.leave, ?_, fun _ => ?_⟩
    · rw [target, List.append_assoc, List.singleton_append]
    · simp only [pos, List.flatten_append, List.flatten_cons, List.flatten_nil, List.append_nil,
        List.length_append, Nat.add_zero]
    · exact Nat.le_succ _
    · exact Nat.lt_succ_self _
  · refine ⟨done, p :: next, offsetTo, if_neg hend, rfl, rfl, h.packet, fun _ => h,
      Nat.le_refl _, ?_⟩
    rintro ⟨p', next', heq, hoff⟩
    cases heq
    exact absurd hoff hend

/-- A round of the loop: no error, and the rest of the copy gives the same result. While
bytes are left, one of the chains gets shorter. -/
theorem Ready.body {st : ChainCopy} (h : st.Ready) :
    ∃ st', st.body = .ok (none, st') ∧ st'.result = st.result ∧
      st'.target.map List.length = st.target.map List.length ∧
      (st'.copyLen ≠ 0 → st'.Ready ∧
        st'.pTo.length + st'.pFrom.length < st.pTo.length + st.pFrom.length) := by
  obtain ⟨m, hmove, moved⟩ := h.move
  obtain ⟨c, off, hfrom, hdrop, fromPacket, atFrom, hle, hlt⟩ := nextFrom_spec moved.ready.atFrom
  -- the source is left first, which changes nothing of the target
  obtain ⟨done, c', off', hto, htarget, hpos, toPacket, atTo, hle', hlt'⟩ :=
    nextTo_spec m.nextFrom (by rw [hfrom]; exact moved.ready.atTo)
  rw [hfrom] at hto htarget hpos atTo hle' hlt'
  dsimp only at hto htarget hpos atTo hle' hlt'
  refine ⟨⟨done, c', off', c, off, m.copyLen⟩, ?_, ?_, ?_, ?_⟩
  · have hsource : ¬ (c = [] ∧ m.copyLen ≠ 0) := by
      rintro ⟨hnil, hmore⟩
      obtain ⟨q, next, hcons, -⟩ := (atFrom hmore).inside
      rw [hnil] at hcons
      cases hcons
    have hroom : ¬ (c' = [] ∧ m.copyLen ≠ 0) := by
      rintro ⟨hnil, hmore⟩
      obtain ⟨p, next, hcons, -⟩ := (atTo hmore).inside
      rw [hnil] at hcons
      cases hcons
    simp only [ChainCopy.body, hmove, Run.bind_ok, hfrom, hto, if_neg hsource, if_neg hroom,
      fromPacket.not_queued, toPacket.not_queued, Bool.false_eq_true, if_false, Run.pure_eq_ok]
  · rw [← moved.result]
    simp only [result, rest, hdrop]
    rw [show target ⟨done, c', off', c, off, m.copyLen⟩ = m.target from htarget,
      show pos ⟨done, c', off', c, off, m.copyLen⟩ = m.pos from hpos]
  · rw [← moved.shape]
    exact congrArg (List.map List.length) htarget
  · intro hmore
    refine ⟨⟨atTo hmore, atFrom hmore⟩, ?_⟩
    have hlengths := moved.lengths
    dsimp only at hmore ⊢
    rcases moved.progress hmore with hend | hend
    · have := hlt' hend
      omega
    · have := hlt hend
      omega

theorem Ready.result_ok {st : ChainCopy} (h : st.Ready) : ∃ r, st.result = .ok r := by
  refine ⟨_, overwrite_eq_ok.mpr ⟨?_, rfl⟩⟩
  have henough := h.atTo.enough
  rw [pos, rest, target, List.flatten_append, List.length_append, List.length_take]
  omega

theorem result_done {st : ChainCopy} (h : st.copyLen = 0) {r : Bytes} (hr : st.result = .ok r) :
    r = st.target.flatten := by
  obtain ⟨-, rfl⟩ := overwrite_eq_ok.mp hr
  rw [rest, h, List.take_zero, List.append_nil, List.length_nil, Nat.add_zero,
    List.take_append_drop]

/-- With a round for every segment the loop ends and has copied everything. -/
theorem loop_spec {fuel : Nat} {st : ChainCopy} (h : st.Ready)
    (enough : st.pTo.length + st.pFrom.length ≤ fuel) :
    ∃ c, loop fuel st = .ok (.ok, c) ∧ st.result = .ok c.flatten ∧
      c.map List.length = st.target.map List.length := by
  induction fuel generalizing st with
  | zero =>
      obtain ⟨p, next, hto, -⟩ := h.atTo.inside
      rw [hto, List.length_cons] at enough
      omega
  | succ fuel ih =>
      obtain ⟨st', hbody, hresult, hshape, hnext⟩ := h.body
      by_cases hmore : st'.copyLen = 0
      · refine ⟨st'.target, ?_, ?_, hshape⟩
        · simp only [loop, hbody, Run.bind_ok, if_pos hmore, Run.pure_eq_ok]
        · obtain ⟨r, hr⟩ := h.result_ok
          rw [← hresult] at hr ⊢
          exact hr.trans (congrArg Except.ok (result_done hmore hr))
      · obtain ⟨ready, hless⟩ := hnext hmore
        obtain ⟨c, hloop, hflat, hlengths⟩ := ih ready (by omega)
        refine ⟨c, ?_, hresult ▸ hflat, hlengths.trans hshape⟩
        simp only [loop, hbody, Run.bind_ok, if_neg hmore, hloop]

end ChainCopy

theorem Chain.OnePacket.cursor {c : Chain} (h : c.OnePacket) (some : c ≠ []) {n : Nat}
    (enough : n ≤ c.totLen) : Chain.Cursor c 0 n := by
  refine ⟨?_, by rw [Nat.zero_add]; exact enough, h⟩
  cases c with
  | nil => exact absurd rfl some
  | cons p next => exact ⟨p, next, rfl, Nat.zero_le _⟩

theorem pbufCopy_ok {pTo pFrom : Chain} (toSome : pTo ≠ []) (fromSome : pFrom ≠ [])
    (toPacket : pTo.OnePacket) (fromPacket : pFrom.OnePacket) (fits : pFrom.totLen ≤ pTo.totLen) :
    ∃ c, pbufCopy pTo pFrom = .ok (.ok, c) ∧ c.map List.length = pTo.map List.length ∧
      overwrite pTo.flatten 0 pFrom.flatten = .ok c.flatten := by
  have hfrom : ¬ (pFrom = [] ∨ pFrom.totLen < pFrom.totLen) := by
    rintro (hnil | hlt)
    · exact fromSome hnil
    · exact Nat.lt_irrefl _ hlt
  have hto : ¬ (pTo = [] ∨ pTo.totLen < pFrom.totLen) := by
    rintro (hnil | hlt)
    · exact toSome hnil
    · exact Nat.not_le.mpr hlt fits
  have ready : ChainCopy.Ready ⟨[], pTo, 0, pFrom, 0, pFrom.totLen⟩ :=
    ⟨toPacket.cursor toSome fits, fromPacket.cursor fromSome (Nat.le_refl _)⟩
  obtain ⟨c, hloop, hresult, hshape⟩ := ChainCopy.loop_spec ready (Nat.le_refl _)
  refine ⟨c, ?_, hshape, ?_⟩
  · rw [pbufCopy, if_neg fromSome, pbufCopyPartialPbuf, if_neg hfrom, Nat.zero_add, if_neg hto,
      hloop]
  · rw [← hresult, ChainCopy.result, ChainCopy.rest, List.drop_zero, Chain.totLen, List.take_length]
    rfl

/-- Between two packets, however they are cut into segments, `pbuf_copy` writes the bytes of
the source over the first ones of the target; it refuses only a target that is too short. -/
theorem pbuf_copy_writes_packet (pTo pFrom : Chain) (toSome : pTo ≠ []) (fromSome : pFrom ≠ [])
    (toPacket : pTo.OnePacket) (fromPacket : pFrom.OnePacket) :
    (pFrom.totLen ≤ pTo.totLen →
      ∃ c, pbufCopy pTo pFrom = .ok (.ok, c) ∧ c.map List.length = pTo.map List.length ∧
        overwrite pTo.flatten 0 pFrom.flatten = .ok c.flatten) ∧
      (pTo.totLen < pFrom.totLen → pbufCopy pTo pFrom = .ok (.arg, pTo)) := by
  refine ⟨pbufCopy_ok toSome fromSome toPacket fromPacket, fun hlt => ?_⟩
  have hfrom : ¬ (pFrom = [] ∨ pFrom.totLen < pFrom.totLen) := by
    rintro (hnil | hself)
    · exact fromSome hnil
    · exact Nat.lt_irrefl _ hself
  rw [pbufCopy, if_neg fromSome, pbufCopyPartialPbuf, if_neg hfrom, Nat.zero_add,
    if_pos (.inr hlt)]

/-- Three bytes in two segments, copied to a target that is cut at another place. -/
theorem pbuf_copy_writes_three_bytes :
    ∃ c, pbufCopy [[0, 0], [0, 9]] [[1], [2, 3]] = .ok (.ok, c) ∧ c.flatten = [1, 2, 3, 9] := by
  have packet (p q : Bytes) (hq : q ≠ []) : Chain.OnePacket [p, q] :=
    ⟨fun _ => by simpa using hq, fun h => absurd rfl h, trivial⟩
  obtain ⟨c, hcopy, -, hflat⟩ := (pbuf_copy_writes_packet [[0, 0], [0, 9]] [[1], [2, 3]]
    (by decide) (by decide) (packet _ _ (by decide)) (packet _ _ (by decide))).1 (by decide)
  exact ⟨c, hcopy, (Except.ok.inj hflat).symm⟩

/-! Filling a chain and reading it. -/

/-- The loop of `pbuf_take`. -/
def takeLoop : Chain → Bytes → Run Chain
  | [], data => if data = [] then .ok [] else .error .fault
  | p :: next, data =>
      if data = [] then .ok (p :: next)
      else do
        let n := if p.length < data.length then p.length else data.length
        let p ← overwrite p 0 (data.take n)
        let next ← takeLoop next (data.drop n)
        return p :: next

def pbufTake (buf : Chain) (data : Bytes) : Run (ErrT × Chain) :=
  if buf = [] then .ok (.arg, buf)
  else if buf.totLen < data.length then .ok (.mem, buf)
  else do
    let buf ← takeLoop buf data
    return (.ok, buf)

/-- What `pbuf_copy_partial` stores at `dataptr`; it returns the number of these bytes. -/
def pbufCopyPartial : Chain → Nat → Nat → Bytes
  | [], _, _ => []
  | p :: next, len, offset =>
      if len = 0 then []
      else if offset ≠ 0 ∧ p.length ≤ offset then pbufCopyPartial next len (offset - p.length)
      else
        let n := if len < p.length - offset then len else p.length - offset
        (p.drop offset).take n ++ pbufCopyPartial next (len - n) 0

theorem takeLoop_spec {c : Chain} {data : Bytes} (h : data.length ≤ c.totLen) :
    ∃ c', takeLoop c data = .ok c' ∧ c'.map List.length = c.map List.length ∧
      overwrite c.flatten 0 data = .ok c'.flatten := by
  induction c generalizing data with
  | nil =>
      obtain rfl : data = [] := List.length_eq_zero_iff.mp (Nat.le_zero.mp h)
      exact ⟨[], if_pos rfl, rfl, overwrite_nil (Nat.le_refl _)⟩
  | cons p next ih =>
      by_cases hdata : data = []
      · subst hdata
        exact ⟨p :: next, if_pos rfl, rfl, overwrite_nil (Nat.zero_le _)⟩
      rw [Chain.totLen, List.flatten_cons, List.length_append] at h
      generalize hn : (if p.length < data.length then p.length else data.length) = n
      have hle : n ≤ p.length ∧ n ≤ data.length := by
        split at hn <;> omega
      have hpiece : (data.take n).length = n := by
        rw [List.length_take]
        omega
      obtain ⟨p', hwrite⟩ : ∃ p', overwrite p 0 (data.take n) = .ok p' := by
        refine ⟨_, overwrite_eq_ok.mpr ⟨?_, rfl⟩⟩
        omega
      have hp' := overwrite_length hwrite
      have hrest : (data.drop n).length ≤ Chain.totLen next := by
        rw [List.length_drop, Chain.totLen]
        split at hn <;> omega
      obtain ⟨next', hnext, hshape, hflat⟩ := ih hrest
      refine ⟨p' :: next', ?_, ?_, ?_⟩
      · simp only [takeLoop, if_neg hdata, hn, hwrite, hnext, Run.bind_ok, Run.pure_eq_ok]
      · rw [List.map_cons, List.map_cons, hp', hshape]
      · -- a piece that does not fill its segment is the last one
        have hfirst : overwrite (p ++ next.flatten) 0 (data.take n) = .ok (p' ++ next.flatten) := by
          have := overwrite_segment hwrite [] next.flatten
          rwa [List.nil_append, List.nil_append, List.length_nil, Nat.zero_add] at this
        conv_lhs => rw [← List.take_append_drop n data]
        rw [List.flatten_cons, List.flatten_cons, overwrite_append, hfirst, Run.bind_ok, hpiece,
          Nat.zero_add]
        by_cases hfull : n = p.length
        · have := overwrite_segment hflat p' []
          rwa [List.append_nil, List.append_nil, Nat.add_zero, hp', ← hfull] at this
        · have hlast : data.drop n = [] := by
            rw [List.drop_eq_nil_iff]
            split at hn <;> omega
          rw [hlast] at hflat ⊢
          obtain ⟨-, hsame⟩ := overwrite_eq_ok.mp hflat
          rw [hsame, overwrite_nil (by rw [List.length_append]; omega)]
          simp

theorem pbufCopyPartial_eq (c : Chain) (len offset : Nat) :
    pbufCopyPartial c len offset = (c.flatten.drop offset).take len := by
  induction c generalizing len offset with
  | nil => rw [pbufCopyPartial, List.flatten_nil, List.drop_nil, List.take_nil]
  | cons p next ih =>
      rw [pbufCopyPartial, List.flatten_cons]
      by_cases hlen : len = 0
      · rw [if_pos hlen, hlen, List.take_zero]
      rw [if_neg hlen]
      by_cases hskip : offset ≠ 0 ∧ p.length ≤ offset
      · rw [if_pos hskip, ih, List.drop_append, List.drop_of_length_le hskip.2, List.nil_append]
      · have hin : offset ≤ p.length := by omega
        rw [if_neg hskip, List.drop_append_of_le_length hin, List.take_append, List.length_drop]
        dsimp only
        rw [ih, List.drop_zero]
        split
        · rw [Nat.sub_self, Nat.sub_eq_zero_of_le (by omega)]
        · have hall (n : Nat) (hn : p.length - offset ≤ n) :
              (p.drop offset).take n = p.drop offset :=
            List.take_of_length_le (by rw [List.length_drop]; exact hn)
          rw [hall _ (Nat.le_refl _), hall len (by omega)]

/-! The buffers of the pool. -/

/-- `pbuf_alloc(PBUF_RAW, length, PBUF_POOL)` with the free buffers of the pool. -/
def pbufAllocPool : List (Block pbufPoolBufsize) → Nat → Option Chain
  | [], _ => none
  | q :: pool, remLen =>
      let qlen := min remLen pbufPoolBufsize
      if 0 < remLen - qlen then (pbufAllocPool pool (remLen - qlen)).map (q.1.take qlen :: ·)
      else some [q.1.take qlen]

/-- A chain of the pool: only the last of its buffers is not full. -/
structure Chain.Pooled (c : Chain) (length : Nat) : Prop where
  totLen : c.totLen = length
  packet : c.OnePacket
  full : ∃ p next, c = p :: next ∧ (next = [] ∨ p.length = pbufPoolBufsize)

theorem Chain.OnePacket.of_shape {c c' : Chain} (h : c.OnePacket)
    (shape : c'.map List.length = c.map List.length) : c'.OnePacket := by
  induction c generalizing c' with
  | nil =>
      obtain rfl := List.map_eq_nil_iff.mp shape
      trivial
  | cons p next ih =>
      obtain ⟨p', next', rfl, -, hnext⟩ := List.map_eq_cons_iff.mp shape
      refine ⟨fun hne hnil => ?_, ih h.2 hnext⟩
      have hnext' : next ≠ [] := by
        rintro rfl
        exact hne (List.map_eq_nil_iff.mp hnext)
      apply h.1 hnext'
      rw [← List.length_eq_zero_iff, List.length_flatten, ← hnext, ← List.length_flatten, hnil,
        List.length_nil]

theorem Chain.Pooled.of_shape {c c' : Chain} {length : Nat} (h : c.Pooled length)
    (shape : c'.map List.length = c.map List.length) : c'.Pooled length := by
  obtain ⟨htot, packet, p, next, rfl, hfull⟩ := h
  refine ⟨?_, packet.of_shape shape, ?_⟩
  · rw [← htot, Chain.totLen, Chain.totLen, List.length_flatten, shape, ← List.length_flatten]
  · obtain ⟨p', next', rfl, hp, hnext⟩ := List.map_eq_cons_iff.mp shape
    refine ⟨p', next', rfl, hfull.imp ?_ hp.trans⟩
    rintro rfl
    exact List.map_eq_nil_iff.mp hnext

theorem pbufAllocPool_spec {pool : List (Block pbufPoolBufsize)} {length : Nat} {c : Chain}
    (h : pbufAllocPool pool length = some c) : c.Pooled length := by
  induction pool generalizing length c with
  | nil => cases h
  | cons q pool ih =>
      have hq : (q.1.take (min length pbufPoolBufsize)).length = min length pbufPoolBufsize := by
        rw [List.length_take, q.2]
        omega
      simp only [pbufAllocPool] at h
      split at h
      · rename_i hmore
        obtain ⟨next, hnext, rfl⟩ := Option.map_eq_some_iff.mp h
        have tail := ih hnext
        refine ⟨?_, ⟨fun _ hnil => ?_, tail.packet⟩, ⟨_, next, rfl, .inr ?_⟩⟩
        · have htail := tail.totLen
          rw [Chain.totLen] at htail ⊢
          rw [List.flatten_cons, List.length_append, hq, htail]
          omega
        · have htail := tail.totLen
          rw [Chain.totLen, hnil, List.length_nil] at htail
          omega
        · rw [hq]
          omega
      · rename_i hlast
        cases h
        refine ⟨?_, ⟨fun hne => absurd rfl hne, trivial⟩, ⟨_, [], rfl, .inl rfl⟩⟩
        rw [Chain.totLen, List.flatten_cons, List.flatten_nil, List.append_nil, hq]
        omega

/-! The packets of the other modules. -/

/-- The chain in memory is the packet. -/
def Chain.Holds (c : Chain) (p : Pbuf) : Prop :=
  ∃ next, c = p.payload :: next ∧ next.flatten = p.chain

theorem Chain.Holds.flatten {c : Chain} {p : Pbuf} (h : c.Holds p) : c.flatten = p.bytes := by
  obtain ⟨next, rfl, hnext⟩ := h
  rw [List.flatten_cons, hnext, Pbuf.bytes]

theorem Chain.Pooled.holds {c : Chain} {length : Nat} (h : c.Pooled length) (small : length < 65536)
    (behind : Bytes) : ∃ p : Pbuf, p.behind = behind ∧ c.Holds p ∧ p.Pooled := by
  obtain ⟨first, next, rfl, hfull⟩ := h.full
  have htot := h.totLen
  rw [Chain.totLen, List.flatten_cons, List.length_append] at htot
  refine ⟨⟨first, behind, next.flatten, by omega⟩, rfl, ⟨next, rfl, rfl⟩, ?_⟩
  rcases hfull with rfl | hfull
  · exact .inl rfl
  · exact .inr (Nat.le_of_eq hfull.symm)

/-- The clones of the DTN code are what the allocation and `pbuf_copy` give. -/
theorem Chain.Holds.clone {c : Chain} {p q : Pbuf} (h : c.Holds p) (packet : c.OnePacket)
    {heap : Heap} (cloned : pbufClone heap p = some q) :
    ∃ block, pbufAlloc heap p.totLen = some (block, q.behind) ∧
      pbufCopy [block] c = .ok (.ok, [q.payload]) := by
  obtain ⟨⟨block, behind⟩, halloc, rfl⟩ := Option.map_eq_some_iff.mp cloned
  have hblock : block.length = p.totLen := by
    rw [pbufAlloc_length halloc, Nat.mod_eq_of_lt p.totLen_lt]
  have hsome : c ≠ [] := by
    obtain ⟨next, rfl, -⟩ := h
    exact List.cons_ne_nil _ _
  have htot : c.totLen = block.length := by
    rw [Chain.totLen, h.flatten, Pbuf.bytes_length, hblock]
  have hone : Chain.totLen [block] = block.length := by
    rw [Chain.totLen, List.flatten_cons, List.flatten_nil, List.append_nil]
  obtain ⟨c', hcopy, hshape, hflat⟩ := pbufCopy_ok (List.cons_ne_nil block []) hsome
    ⟨fun hne => absurd rfl hne, trivial⟩ packet (Nat.le_of_eq (htot.trans hone.symm))
  refine ⟨block, halloc, ?_⟩
  -- the target is one segment, and the source fills it
  obtain ⟨b, rfl⟩ : ∃ b, c' = [b] := by
    rw [← List.length_eq_one_iff, ← List.length_map, hshape]
    rfl
  obtain ⟨-, hb⟩ := overwrite_eq_ok.mp hflat
  rw [hcopy, Pbuf.single_payload]
  congr 3
  rw [List.flatten_cons, List.flatten_nil, List.append_nil, h.flatten, List.flatten_cons,
    List.flatten_nil, List.append_nil, List.take_zero, List.nil_append, Nat.zero_add,
    Pbuf.bytes_length, List.drop_of_length_le (Nat.le_of_eq hblock), List.append_nil] at hb
  exact hb

/-- What `tunif_input` has read is what the chain of the pool holds, in a packet whose first
segment is full if there is another; every clone of it and every read of it by
`pbuf_copy_partial` gives these bytes, wherever the chain is cut. -/
theorem tunnel_packet_in_pool_chain (pool : List (Block pbufPoolBufsize)) (buf : Bytes) (c : Chain)
    (small : buf.length < 65536) (allocated : pbufAllocPool pool buf.length = some c) :
    ∃ c', pbufTake c buf = .ok (.ok, c') ∧
      (∀ behind, ∃ p : Pbuf, p.behind = behind ∧ c'.Holds p ∧ p.bytes = buf ∧ p.Pooled ∧
        ∀ heap q, pbufClone heap p = some q → q.bytes = buf ∧
          ∃ block, pbufAlloc heap p.totLen = some (block, q.behind) ∧
            pbufCopy [block] c' = .ok (.ok, [q.payload])) ∧
      ∀ len offset, pbufCopyPartial c' len offset = (buf.drop offset).take len := by
  have pooled := pbufAllocPool_spec allocated
  obtain ⟨c', htake, hshape, hwrite⟩ := takeLoop_spec (Nat.le_of_eq pooled.totLen.symm)
  have hflat : c'.flatten = buf := by
    obtain ⟨-, hall⟩ := overwrite_eq_ok.mp hwrite
    rw [hall, List.take_zero, List.nil_append, Nat.zero_add, ← pooled.totLen, Chain.totLen,
      List.drop_length, List.append_nil]
  have filled : c'.Pooled buf.length := pooled.of_shape hshape
  have hsome : c ≠ [] := by
    obtain ⟨p, next, rfl, -⟩ := pooled.full
    exact List.cons_ne_nil _ _
  refine ⟨c', ?_, ?_, ?_⟩
  · rw [pbufTake, if_neg hsome, if_neg (by rw [pooled.totLen]; exact Nat.lt_irrefl _), htake]
    rfl
  · intro behind
    obtain ⟨p, hbehind, holds, hpooled⟩ := filled.holds small behind
    have hbytes : p.bytes = buf := holds.flatten.symm.trans hflat
    refine ⟨p, hbehind, holds, hbytes, hpooled, fun heap q hclone => ⟨?_, ?_⟩⟩
    · rw [pbufClone_bytes hclone, hbytes]
    · exact holds.clone filled.packet hclone
  · intro len offset
    rw [pbufCopyPartial_eq, hflat]

theorem poolBuffer_length : (List.replicate pbufPoolBufsize (0 : UInt8)).length = pbufPoolBufsize :=
  List.length_replicate

/-- A packet of 2000 bytes in two buffers of the pool, read across the cut. -/
theorem tunnel_packet_in_two_buffers :
    ∃ c c', pbufAllocPool (List.replicate 2 ⟨_, poolBuffer_length⟩) 2000 = some c ∧
      pbufTake c (List.replicate 2000 7) = .ok (.ok, c') ∧
      pbufCopyPartial c' 100 1500 = List.replicate 100 7 := by
  have hlen : (List.replicate 2000 (7 : UInt8)).length = 2000 := List.length_replicate
  obtain ⟨c, hc⟩ : ∃ c, pbufAllocPool (List.replicate 2 ⟨_, poolBuffer_length⟩) 2000 = some c :=
    ⟨_, rfl⟩
  obtain ⟨c', htake, -, hread⟩ := tunnel_packet_in_pool_chain
    (List.replicate 2 ⟨_, poolBuffer_length⟩) (List.replicate 2000 7) c (by rw [hlen]; decide)
    (by rw [hlen]; exact hc)
  refine ⟨c, c', hc, htake, ?_⟩
  rw [hread, List.drop_replicate, List.take_replicate]
  rfl

end LwipDtn
