import LwipDtn.ControllerReceipt
import LwipDtn.CustodyBounds
import LwipDtn.StorageFiles
import LwipDtn.Library.Runs

/-!
The walk of an acknowledgement over the stored packets. A stored packet that starts with
a hop-by-hop header holds the walk for ever, so the walk ends as long as no such packet
gets into the list: through a store, which takes at most one such header off, or through
a file.
-/

namespace LwipDtn
open Outcome Bytes BoundedFifo Runs

/-! What holds of every stored packet. -/

section Stored

variable {P : StoredPacketEntry → Prop} {text : AddrText} {s s' : StorageFunction}

theorem append_forall {entry : StoredPacketEntry} (before : ∀ e ∈ s.packetListHead, P e)
    (new : P entry) : ∀ e ∈ (s.append entry).packetListHead, P e := by
  intro e he
  rcases List.mem_append.mp he with he | he
  · exact before e he
  · cases List.mem_singleton.mp he
    exact new

theorem load_forall {env : FileName → LoadEnv} {files : List (FileName × Bytes)}
    (before : ∀ e ∈ s.packetListHead, P e)
    (loads : ∀ f ∈ files, ∀ env e, dtnStorageLoadPacketFromFile env f.1 f.2 = some e → P e) :
    (∀ e ∈ (dtnStorageLoadPacketsFromDisk env files s).packetListHead, P e) ∧
      (dtnStorageLoadPacketsFromDisk env files s).disk = s.disk := by
  induction files generalizing s with
  | nil => exact ⟨before, rfl⟩
  | cons f rest ih =>
      obtain ⟨name, contents⟩ := f
      have hrest : ∀ f ∈ rest, ∀ env e, dtnStorageLoadPacketFromFile env f.1 f.2 = some e → P e :=
        fun f hf => loads f (by simp [hf])
      rw [dtnStorageLoadPacketsFromDisk]
      split
      · split
        · rename_i e hload
          have happend := append_forall before (loads _ List.mem_cons_self _ e hload)
          split
          · exact ⟨happend, rfl⟩
          · exact ih happend hrest
        · exact ih before hrest
      · exact ih before hrest

theorem create_forall {disk : Disk} {env : CreateEnv disk} (h : dtnStorageCreate env = some s)
    (loads : ∀ f ∈ disk, ∀ env e, dtnStorageLoadPacketFromFile env f.1 f.2 = some e → P e) :
    (∀ e ∈ s.packetListHead, P e) ∧ s.disk = disk := by
  rw [dtnStorageCreate] at h
  split at h
  · cases h
  split at h
  · cases h
  dsimp only at h
  split at h
  · cases h
    exact ⟨List.forall_mem_nil _, rfl⟩
  · cases h
    exact load_forall (List.forall_mem_nil _) fun f hf => loads f (env.listing.perm.mem_iff.mp hf)

theorem call_forall {c : StorageCall} (before : ∀ e ∈ s.packetListHead, P e)
    (new : ∀ env p dest, c = .store env p dest → ∀ t,
      dtnStorageStorePacket text env s p dest = .ok (true, t) → ∀ copy stripped q,
      pbufClone env.copy p = some copy →
      dtnStripCustodianOption env.strip copy = .ok (stripped, q) →
      P (newEntry text q dest env.now))
    (h : c.run text s = .ok s') : ∀ e ∈ s'.packetListHead, P e := by
  have removed (hloses : LosesAtMostOne s.packetListHead s'.packetListHead) :
      ∀ e ∈ s'.packetListHead, P e := by
    intro e he
    obtain heq | ⟨front, a, back, hfront, hback⟩ := hloses
    · exact before e (heq ▸ he)
    · apply before e
      rw [hfront]
      rw [hback] at he
      rcases List.mem_append.mp he with he | he <;> simp [he]
  cases c with
  | store env p dest =>
      obtain ⟨⟨r, t⟩, hstore, ht⟩ := Run.bind_eq_ok.mp h
      cases ht
      obtain ⟨-, rfl | ⟨-, -, -, disk, -, rfl⟩⟩ |
        ⟨rfl, -, copy, stripped, q, disk, hcopy, hstrip, -, rfl⟩ := store_cases hstore
      · exact before
      · exact before
      · exact append_forall before (new env p dest rfl _ hstore copy stripped q hcopy hstrip)
  | getCopy => cases h; exact before
  | retrieve => exact removed (removal_losesAtMostOne (by exact trivial) h)
  | deleteByIpHeader => exact removed (removal_losesAtMostOne (by exact trivial) h)
  | deleteByIcmpData => exact removed (removal_losesAtMostOne (by exact trivial) h)

theorem strip_chain {heap : Heap} {p q : Pbuf} {stripped : Bool} (segment : p.chain = [])
    (h : dtnStripCustodianOption heap p = .ok (stripped, q)) : q.chain = [] := by
  cases stripped with
  | false => rw [strip_false h]; exact segment
  | true =>
      have header : ip6Hlen ≤ p.len := by
        have := (strip_true h).2.1
        rw [Pbuf.totLen, segment] at this
        exact Nat.le_trans (by decide) this
      obtain ⟨_, _, _, _, _, _, _, _, -, -, -, -, hchain, -, -⟩ := strip_shape header h
      exact hchain

theorem StorageReachable.segment (h : StorageReachable text s) :
    ∀ e ∈ s.packetListHead, e.p.chain = [] := by
  induction h with
  | create env h =>
      refine (create_forall h fun f _ env e hload => ?_).1
      obtain ⟨_, -, -, hchain, -⟩ := load_some hload
      exact hchain
  | call c _ h ih =>
      refine call_forall ih (fun env p dest _ _ _ copy stripped q hcopy hstrip => ?_) h
      exact strip_chain (pbufClone_payload hcopy).2 hstrip

end Stored

/-! Packets that do not hold the walk. -/

/-- The packet is too short to be looked at, or does not start with a hop-by-hop header. -/
def PlainPacket (p : Pbuf) : Prop :=
  p.totLen < ip6Hlen ∨ nexthOf p.bytes ≠ ip6NexthHopbyhop

theorem not_plainPacket {p : Pbuf} :
    ¬ PlainPacket p ↔ ip6Hlen ≤ p.totLen ∧ nexthOf p.bytes = ip6NexthHopbyhop := by
  rw [PlainPacket, not_or, Nat.not_lt, ne_eq, not_not]

/-- Whatever the loader makes of the file is such a packet. -/
def PlainFile (contents : Bytes) : Prop :=
  ∀ env name e, dtnStorageLoadPacketFromFile env name contents = some e → PlainPacket e.p

/-- A packet that is stored without a hop-by-hop header in front: it has none, or one that
names another protocol and there is memory for the packet without it. -/
def StoredPlain (env : StoreEnv) (p : Pbuf) : Prop :=
  PlainPacket p ∨ p.bytes.getD ip6Hlen 0 ≠ ip6NexthHopbyhop ∧
    (pbufAlloc env.strip (ip6Hlen + (plenOf p.bytes + 65536 - hbhOptHdrLen) % 65536)).isSome

/-- A packet is left as it is only if there is nothing to strip or no memory. -/
theorem strip_kept {heap : Heap} {p q : Pbuf} (header : ip6Hlen ≤ p.len)
    (first : nexthOf p.bytes = ip6NexthHopbyhop)
    (h : dtnStripCustodianOption heap p = .ok (false, q)) :
    pbufAlloc heap (ip6Hlen + (plenOf p.bytes + 65536 - hbhOptHdrLen) % 65536) = none := by
  simp only [dtnStripCustodianOption, nexth_mem header, plen_mem header, first, Run.bind_ok, ne_eq,
    not_true, if_false, Run.bind_eq_ok] at h
  obtain ⟨next, -, h⟩ := h
  split at h
  · assumption
  simp only [Run.bind_eq_ok] at h
  obtain ⟨_, -, _, -, _, -, _, -, _, -, _, -, h⟩ := h
  cases h

theorem StoredPlain.strip {env : StoreEnv} {p copy q : Pbuf} {stripped : Bool}
    (h : StoredPlain env p) (hcopy : pbufClone env.copy p = some copy)
    (hstrip : dtnStripCustodianOption env.strip copy = .ok (stripped, q)) : PlainPacket q := by
  obtain ⟨behind, hb, rfl⟩ := pbufClone_single hcopy
  cases stripped with
  | false =>
      obtain rfl := strip_false hstrip
      rw [PlainPacket, Pbuf.single_totLen, Pbuf.single_bytes, Pbuf.bytes_length]
      by_cases plain : PlainPacket p
      · exact plain
      -- with memory for a new packet the old one would not have been left
      obtain ⟨-, halloc⟩ := h.resolve_left plain
      rw [not_plainPacket] at plain
      have hnone :=
        strip_kept (by rw [Pbuf.len, Pbuf.single_payload, Pbuf.bytes_length]; exact plain.1)
        (by rw [Pbuf.single_bytes]; exact plain.2) hstrip
      rw [Pbuf.single_bytes] at hnone
      rw [hnone] at halloc
      cases halloc
  | true =>
      obtain ⟨hnexth, hlong, -⟩ := strip_true hstrip
      rw [Pbuf.single_totLen] at hlong
      have header : ip6Hlen ≤ p.bytes.length := Nat.le_trans (by decide) hlong
      rw [nexth_single behind hb header, Except.ok.injEq] at hnexth
      have hplain : ¬ PlainPacket p := by
        rw [Pbuf.bytes_length] at header
        exact not_plainPacket.mpr ⟨header, hnexth⟩
      obtain ⟨hother, -⟩ := h.resolve_left hplain
      obtain ⟨v, t, r, rest, hi, lo, n, next, -, hv, -, hnext, hchain, hq, -⟩ :=
        strip_shape (p := .single p.bytes behind hb) header hstrip
      rw [byteAt_mem_single behind hb (Nat.lt_of_lt_of_le (by decide) hlong),
        Except.ok.injEq] at hnext
      refine .inr ?_
      rw [Pbuf.bytes, hchain, List.append_nil, hq, be16, split_nexth hv, ← hnext]
      exact hother

theorem plainFile_take {e : StoredPacketEntry} {n : Nat}
    (h : PlainPacket e.p ∨ n < packetFileHeaderLen + e.p.totLen) : PlainFile (e.file.2.take n) := by
  intro env name e' hload
  by_cases cut : n < packetFileHeaderLen + e.p.totLen
  · rw [load_cut env name e cut] at hload
    cases hload
  rw [List.take_of_length_le (by rw [e.file_length]; omega)] at hload
  have hbytes := load_whole hload
  have hplain := h.resolve_right cut
  rwa [PlainPacket, ← Pbuf.bytes_length, ← hbytes, Pbuf.bytes_length] at hplain

/-! Runs. -/

inductive StorageEvent where
  | call (c : StorageCall)
  | restart

/-- The storage with its restarts: it is created over a directory, then called, and created
again over the directory as it is. -/
def storageSystem (text : AddrText) (directory : Disk → Prop) :
    System StorageFunction StorageEvent where
  start s := ∃ disk, directory disk ∧ ∃ env : CreateEnv disk, dtnStorageCreate env = some s
  step s event s' :=
    match event with
    | .call c => c.run text s = .ok s'
    | .restart => ∃ env : CreateEnv s.disk, dtnStorageCreate env = some s'

/-- No file of the directory holds a packet that starts with a hop-by-hop header. -/
def PlainDirectory (disk : Disk) : Prop := ∀ f ∈ disk, PlainFile f.2

/-- Every packet that is stored is stored without a hop-by-hop header in front. -/
def StoresPlain (text : AddrText) (s : StorageFunction) : StorageEvent → Prop
  | .call (.store env p dest) =>
      (∃ s', dtnStorageStorePacket text env s p dest = .ok (true, s')) → StoredPlain env p
  | _ => True

/-- No stored packet and no file holds the walk. -/
structure AllPlain (s : StorageFunction) : Prop where
  packets : ∀ e ∈ s.packetListHead, PlainPacket e.p
  files : PlainDirectory s.disk

namespace AllPlain

variable {text : AddrText} {s s' : StorageFunction}

theorem create {disk : Disk} {env : CreateEnv disk} (h : PlainDirectory disk)
    (hcreate : dtnStorageCreate env = some s) : AllPlain s := by
  obtain ⟨hpackets, rfl⟩ := create_forall hcreate (P := fun e => PlainPacket e.p)
    fun f hf env e hload => h f hf env f.1 e hload
  exact ⟨hpackets, h⟩

theorem files_remove (h : AllPlain s) (removed : Bool) (e : StoredPacketEntry)
    (rest : List StoredPacketEntry) : PlainDirectory (s.unlinked removed e rest).disk := by
  cases removed with
  | false => exact h.files
  | true => exact fun f hf => h.files f (List.mem_of_mem_filter hf)

theorem files_save {q : Pbuf} {dest : Ip6Addr} {now : UInt32} {env : SaveEnv} {saved : Bool}
    {e : StoredPacketEntry} {disk : Disk} (h : AllPlain s)
    (hsave : dtnStorageSavePacketToDisk text env s.disk ⟨q, dest, now, []⟩ = (saved, e, disk))
    (plain : saved = true → PlainPacket q) : PlainDirectory disk := by
  obtain ⟨rfl, rfl, -, hcut⟩ := save_writes hsave
  split
  · rename_i opened
    intro f hf
    rcases Disk.mem_write.mp hf with ⟨-, hold⟩ | rfl
    · exact h.files f hold
    · apply plainFile_take
      cases saved with
      | true => exact .inl (plain rfl)
      | false =>
          refine (hcut rfl opened).imp (fun hzero => .inl ?_) id
          exact Nat.lt_of_le_of_lt (Nat.le_of_eq hzero) (by decide)
  · exact h.files

theorem call {c : StorageCall} (h : AllPlain s) (meets : StoresPlain text s (.call c))
    (hrun : c.run text s = .ok s') : AllPlain s' := by
  have hpackets : ∀ e ∈ s'.packetListHead, PlainPacket e.p := by
    refine call_forall h.packets ?_ hrun
    rintro env p dest rfl t hstore copy stripped q hcopy hstrip
    exact (meets ⟨t, hstore⟩).strip hcopy hstrip
  refine ⟨hpackets, ?_⟩
  cases c with
  | store env p dest =>
      obtain ⟨⟨r, t⟩, hstore, ht⟩ := Run.bind_eq_ok.mp hrun
      cases ht
      obtain ⟨-, rfl | ⟨-, q, e, disk, hsave, rfl⟩⟩ |
        ⟨rfl, -, copy, stripped, q, disk, hcopy, hstrip, hsave, rfl⟩ := store_cases hstore
      · exact h.files
      · exact h.files_save hsave nofun
      · exact h.files_save hsave fun _ => (meets ⟨_, hstore⟩).strip hcopy hstrip
  | getCopy => cases hrun; exact h.files
  | retrieve removed dest =>
      obtain ⟨⟨r, t⟩, hremove, ht⟩ := Run.bind_eq_ok.mp hrun
      cases ht
      obtain ⟨-, rfl, -⟩ | ⟨e, rest, -, rfl, -⟩ := removeFirst_cases hremove
      · exact h.files
      · exact h.files_remove removed e rest
  | deleteByIpHeader removed hdr =>
      obtain rfl | ⟨e, rest, rfl, -⟩ := deleteByIpHeader_cases hrun
      · exact h.files
      · exact h.files_remove removed e rest
  | deleteByIcmpData removed icmp =>
      obtain rfl | ⟨e, rest, rfl, -, -⟩ := deleteByIcmpData_cases hrun
      · exact h.files
      · exact h.files_remove removed e rest

end AllPlain

theorem payloadMatches_ne_hang {icmp : Pbuf} {quote : QuotedPacket} {e : StoredPacketEntry} :
    payloadMatches icmp quote e ≠ .error .hang := by
  rw [payloadMatches]
  split
  · rw [readBlock]
    split
    · nofun
    · nofun
  · nofun

/-- A packet holds the walk only if it starts with a hop-by-hop header. -/
theorem matchesQuote_hang {icmp : Pbuf} {quote : QuotedPacket} {e : StoredPacketEntry}
    (h : matchesQuote icmp quote e = .error .hang) : ¬ PlainPacket e.p := by
  rw [matchesQuote] at h
  split at h
  · cases h
  rename_i hsame
  obtain ⟨header, -⟩ := not_not.mp hsame
  split at h
  · rename_i first
    rw [nexthOf_payload header] at first
    exact not_plainPacket.mpr ⟨Nat.le_trans header (Nat.le_add_right _ _), first⟩
  · cases hpayload : payloadMatches icmp quote e with
    | error stuck =>
        rw [hpayload, Run.bind_error] at h
        cases h
        exact absurd hpayload payloadMatches_ne_hang
    | ok same =>
        rw [hpayload] at h
        cases h

theorem quotedPacket_reads (m : Bytes) :
    (quotedPacket m).payloadStart + (quotedPacket m).payloadBytes ≤ 2400 := by
  rw [quotedPacket]
  have := (m.getD 98 0).toNat_lt
  dsimp only
  split
  · dsimp only
    omega
  · dsimp only
    omega

theorem matchesQuote_returns {icmp : Pbuf} {e : StoredPacketEntry} (plain : PlainPacket e.p)
    (readable : 2400 ≤ icmp.mem.length) :
    Run.Returns (matchesQuote icmp (quotedPacket icmp.payload) e) := by
  rw [matchesQuote]
  split
  · exact ⟨_, rfl⟩
  rename_i hsame
  obtain ⟨header, -⟩ := not_not.mp hsame
  rw [if_neg]
  · have hpayload : Run.Returns (payloadMatches icmp (quotedPacket icmp.payload) e) := by
      rw [payloadMatches]
      split
      · obtain ⟨block, hblock, -⟩ := readBlock_of_le
          (Nat.le_trans (quotedPacket_reads icmp.payload) readable)
        rw [hblock]
        exact ⟨_, rfl⟩
      · exact ⟨_, rfl⟩
    obtain ⟨same, hsame⟩ := hpayload
    rw [hsame]
    exact ⟨_, rfl⟩
  · rw [nexthOf_payload header]
    exact plain.resolve_left (Nat.not_lt.mpr (Nat.le_trans header (Nat.le_add_right _ _)))

theorem deleteByIpHeader_returns (removed : Bool) (s : StorageFunction) (hdr : Bytes) :
    Run.Returns (dtnStorageDeletePacketByIpHeader removed s hdr) := by
  rw [dtnStorageDeletePacketByIpHeader]
  split
  · exact ⟨_, rfl⟩
  · rw [StorageFunction.removeFirst]
    have hends : Run.Returns (unlinkFirst (fun e => return matchesHeader hdr e) []
        s.packetListHead) := unlinkFirst_returns fun e _ => ⟨_, rfl⟩
    obtain ⟨found, hwalk⟩ := hends
    rw [hwalk]
    cases found with
    | none => exact ⟨_, rfl⟩
    | some taken => exact ⟨_, rfl⟩

theorem deleteByIcmpData_walk {removed : Bool} {s : StorageFunction} {icmp : Pbuf} :
    (∃ s', dtnStorageDeletePacketByIcmpData removed s icmp = .ok s') ∨
      dtnStorageDeletePacketByIcmpData removed s icmp = (do
        let (_, s) ← s.removeFirst removed (matchesQuote icmp (quotedPacket icmp.payload))
        return s) := by
  rw [dtnStorageDeletePacketByIcmpData]
  split
  · exact .inl ⟨_, rfl⟩
  split
  · exact .inl ⟨_, rfl⟩
  dsimp only
  split
  · exact .inl (deleteByIpHeader_returns removed s _)
  · exact .inr rfl

/-- Over plain packets the walk ends, and it returns if the bytes that the message points to
can be read. -/
theorem walk_ends_of_plain {s : StorageFunction} (plain : ∀ e ∈ s.packetListHead, PlainPacket e.p)
    (removed : Bool) (icmp : Pbuf) :
    dtnStorageDeletePacketByIcmpData removed s icmp ≠ .error .hang ∧
      (2400 ≤ icmp.mem.length →
        Run.Returns (dtnStorageDeletePacketByIcmpData removed s icmp)) := by
  obtain ⟨s', hdone⟩ | hwalk := @deleteByIcmpData_walk removed s icmp
  · rw [hdone]
    exact ⟨Run.ok_ne_error _ _, fun _ => ⟨_, rfl⟩⟩
  rw [hwalk, StorageFunction.removeFirst]
  cases hfound : unlinkFirst (matchesQuote icmp (quotedPacket icmp.payload)) []
      s.packetListHead with
  | error stuck =>
      obtain ⟨e, he, hstuck⟩ := unlinkFirst_error hfound
      constructor
      · intro hhang
        cases hhang
        exact matchesQuote_hang hstuck (plain e he)
      · intro readable
        obtain ⟨hit, hhit⟩ := matchesQuote_returns (plain e he) readable
        cases hhit.symm.trans hstuck
  | ok found =>
      cases found with
      | none => exact ⟨Run.ok_ne_error _ _, fun _ => ⟨_, rfl⟩⟩
      | some taken => exact ⟨Run.ok_ne_error _ _, fun _ => ⟨_, rfl⟩⟩

/-! Packets that hold the walk. -/

/-- The fixed header of a packet from this source that starts with a hop-by-hop header. -/
def holdingHeader (src : Block 16) : Bytes :=
  [0x60, 0, 0, 0, 0, 0, 0, 64] ++ (src.1 ++ List.replicate 16 0)

theorem holdingHeader_length (src : Block 16) : (holdingHeader src).length = 40 := by
  simp [holdingHeader, src.2]

/-- A message that quotes such a packet: its hop-by-hop header has sixteen bytes and names
another one. -/
def holdingMessage (src : Block 16) : Pbuf :=
  .single (List.replicate 57 0 ++ (holdingHeader src ++ [0, 1, 0, 0, 0, 0, 0, 0]))
    (List.replicate 300 0) (by simp [holdingHeader_length])

theorem holdingMessage_quote (src : Block 16) :
    (holdingMessage src).len = 105 ∧ (holdingMessage src).mem.length = 405 ∧
      quotedPacket (holdingMessage src).payload =
        ⟨holdingHeader src, ip6NexthHopbyhop, 113, 248⟩ := by
  have hlen := holdingHeader_length src
  have hhdr : ((holdingMessage src).payload.drop 57).take ip6Hlen = holdingHeader src := by
    rw [holdingMessage, Pbuf.single_payload, List.drop_left' List.length_replicate]
    exact List.take_left' hlen
  have hbyte (i : Nat) (hi : i < 8) : (holdingMessage src).payload.getD (97 + i) 0 =
      ([0, 1, 0, 0, 0, 0, 0, 0] : Bytes).getD i 0 := by
    rw [holdingMessage, Pbuf.single_payload, List.getD_eq_getElem?_getD,
      List.getElem?_append_right (by rw [List.length_replicate]; omega), List.length_replicate,
      List.getElem?_append_right (by rw [hlen]; omega), hlen, List.getD_eq_getElem?_getD]
    congr 2
    omega
  have h97 := hbyte 0 (by decide)
  have h98 := hbyte 1 (by decide)
  refine ⟨?_, ?_, ?_⟩
  · simp only [holdingMessage, Pbuf.len, Pbuf.single_payload, List.length_append,
      List.length_replicate, hlen]
    rfl
  · simp only [holdingMessage, Pbuf.single_mem, List.length_append, List.length_replicate, hlen]
    rfl
  · rw [quotedPacket, hhdr, h97, h98]
    rfl

theorem holdingMessage_passes (src : Block 16) {e : StoredPacketEntry} (plain : PlainPacket e.p) :
    matchesQuote (holdingMessage src) (quotedPacket (holdingMessage src).payload) e =
      .ok false := by
  obtain ⟨-, hmem, hquote⟩ := holdingMessage_quote src
  rw [hquote, matchesQuote]
  split
  · rfl
  rename_i hsame
  obtain ⟨header, -⟩ := not_not.mp hsame
  have hother : nexthOf e.p.payload ≠ ip6NexthHopbyhop := by
    rw [nexthOf_payload header]
    exact plain.resolve_left (Nat.not_lt.mpr (Nat.le_trans header (Nat.le_add_right _ _)))
  rw [if_neg hother]
  have hpayload : Run.Returns (payloadMatches (holdingMessage src)
      ⟨holdingHeader src, ip6NexthHopbyhop, 113, 248⟩ e) := by
    rw [payloadMatches]
    split
    · obtain ⟨block, hblock, -⟩ := @readBlock_of_le (holdingMessage src).mem 113 248
        (by rw [hmem]; decide)
      rw [hblock]
      exact ⟨_, rfl⟩
    · exact ⟨_, rfl⟩
  obtain ⟨same, hsame⟩ := hpayload
  rw [hsame, Run.bind_ok, beq_false_of_ne hother, Bool.and_false, Run.pure_eq_ok]

theorem exists_first_not_plain {l : List StoredPacketEntry} (h : ¬ ∀ e ∈ l, PlainPacket e.p) :
    ∃ front e back, l = front ++ e :: back ∧ ¬ PlainPacket e.p ∧ ∀ b ∈ front, PlainPacket b.p := by
  induction l with
  | nil => exact absurd nofun h
  | cons e l ih =>
      by_cases plain : PlainPacket e.p
      · obtain ⟨front, e', back, rfl, hnot, hfront⟩ := ih fun hall => h fun b hb => by
          rcases List.mem_cons.mp hb with rfl | hb
          · exact plain
          · exact hall b hb
        refine ⟨e :: front, e', back, rfl, hnot, fun b hb => ?_⟩
        rcases List.mem_cons.mp hb with rfl | hb
        · exact plain
        · exact hfront b hb
      · exact ⟨[], e, l, rfl, plain, nofun⟩

/-- A reachable storage lets every message end its walk exactly if all its packets are
plain. -/
theorem ack_walk_ends_iff {text : AddrText} {s : StorageFunction} (h : StorageReachable text s)
    (removed : Bool) :
    (∀ icmp, dtnStorageDeletePacketByIcmpData removed s icmp ≠ .error .hang) ↔
      ∀ e ∈ s.packetListHead, PlainPacket e.p := by
  constructor
  · intro ends
    refine Classical.byContradiction fun hnot => ?_
    obtain ⟨front, e, back, hlist, hheld, hfront⟩ := exists_first_not_plain hnot
    obtain ⟨hlong, first⟩ := not_plainPacket.mp hheld
    have hsegment : e.p.chain = [] := h.segment e (by rw [hlist]; simp)
    have header : ip6Hlen ≤ e.p.len := by
      rw [Pbuf.totLen, hsegment] at hlong
      exact hlong
    have hsrc : (srcOf e.p.payload).length = 16 := by
      rw [Pbuf.len, ip6Hlen] at header
      rw [srcOf, List.length_take, List.length_drop]
      omega
    obtain ⟨hlen, -, hquote⟩ := holdingMessage_quote ⟨_, hsrc⟩
    have hquoted : srcOf (holdingHeader ⟨_, hsrc⟩) = srcOf e.p.payload := by
      rw [srcOf, holdingHeader]
      exact List.take_left' hsrc
    apply ends (holdingMessage ⟨_, hsrc⟩)
    have hholds : matchesQuote (holdingMessage ⟨_, hsrc⟩)
        (quotedPacket (holdingMessage ⟨_, hsrc⟩).payload) e = .error .hang := by
      rw [hquote, matchesQuote, if_neg (not_not.mpr ⟨header, hquoted.symm⟩),
        if_pos ((nexthOf_payload header).trans first)]
    have hwalk := @unlinkFirst_stuck _ _ [] front back e .hang
      (fun b hb => holdingMessage_passes ⟨_, hsrc⟩ (hfront b hb)) hholds
    rw [dtnStorageDeletePacketByIcmpData, if_neg (by simp [hlist]),
      if_neg (by rw [hlen]; decide)]
    dsimp only
    rw [if_neg (by rw [hquote]; exact Nat.succ_ne_zero _), StorageFunction.removeFirst, hlist,
      hwalk]
    rfl
  · exact fun plain icmp => (walk_ends_of_plain plain removed icmp).1

/-- In every run over a plain directory that stores packets without a hop-by-hop header in
front, the walk of an acknowledgement ends, and it returns if the bytes that the message
points to can be read. -/
theorem ack_walk_ends (text : AddrText) (s : StorageFunction)
    (h : (storageSystem text PlainDirectory).Reaches (StoresPlain text) s) (removed : Bool)
    (icmp : Pbuf) :
    dtnStorageDeletePacketByIcmpData removed s icmp ≠ .error .hang ∧
      (2400 ≤ icmp.mem.length →
        Run.Returns (dtnStorageDeletePacketByIcmpData removed s icmp)) := by
  have plain : AllPlain s := by
    refine h.invariant ?_ ?_
    · rintro s ⟨disk, hdisk, env, hcreate⟩
      exact .create hdisk hcreate
    · intro s event s' ih meets hstep
      cases event with
      | call c => exact ih.call meets hstep
      | restart =>
          obtain ⟨env, hcreate⟩ := hstep
          exact .create ih.files hcreate
  exact walk_ends_of_plain plain.packets removed icmp

def sampleMessage : Pbuf := .single (List.replicate 57 0 ++ samplePacket) [] (by decide)

theorem plain_calls_reached {text : AddrText} {s s' : StorageFunction} {calls : List StorageCall}
    (run : (storageSystem text PlainDirectory).Reaches (StoresPlain text) s)
    (plain : ∀ c ∈ calls, ∀ s, StoresPlain text s (.call c))
    (h : StorageCall.runAll text calls s = .ok s') :
    (storageSystem text PlainDirectory).Reaches (StoresPlain text) s' := by
  induction calls generalizing s with
  | nil =>
      cases h
      exact run
  | cons c rest ih =>
      obtain ⟨next, hnext, h⟩ := StorageCall.runAll_cons h
      exact ih (run.step (e := .call c) (plain c List.mem_cons_self s) hnext)
        (fun c hc => plain c (List.mem_cons_of_mem _ hc)) h

theorem ack_walk_ends_sample :
    (storageSystem hexAddrText PlainDirectory).Reaches (StoresPlain hexAddrText) threeStored ∧
      threeStored.packetListHead.length = 3 ∧
      dtnStorageDeletePacketByIcmpData true threeStored sampleMessage ≠ .error .hang := by
  have hstart : (storageSystem hexAddrText PlainDirectory).Reaches (StoresPlain hexAddrText)
      emptyStorage := .start ⟨[], fun _ h => absurd h List.not_mem_nil, emptyEnv, rfl⟩
  have hplain : ∀ c ∈ threeStores, ∀ s, StoresPlain hexAddrText s (.call c) := by
    intro c hc s
    obtain ⟨host, dest, now, rfl⟩ : ∃ host dest now, c = storeFrom host dest now := by
      simp only [threeStores, List.mem_cons, List.not_mem_nil, or_false] at hc
      obtain rfl | rfl | rfl := hc <;> exact ⟨_, _, _, rfl⟩
    exact fun _ => .inl (.inr (by rw [Pbuf.single_bytes]; exact show (17 : UInt8) ≠ 0 by decide))
  have hreached := plain_calls_reached hstart hplain threeStored_eq
  exact ⟨hreached, by decide +kernel, (ack_walk_ends hexAddrText _ hreached true sampleMessage).1⟩

/-- A packet with two hop-by-hop headers, from the source of the sample packet. -/
def doubleHeaderPacket : Bytes :=
  [0x60, 0, 0, 0, 0, 32, 0, 64] ++ (samplePacket.drop 8).take 32 ++
    ([0, 2, 1, 20] ++ List.replicate 20 0) ++ [59, 0, 1, 4, 0, 0, 0, 0]

def storeDouble : StorageCall :=
  .store (calmEnv 7) (.single doubleHeaderPacket [] (by decide)) farAddr

/-- It is stored with the second header in front, and the next message about a packet from
its source never gets past it. -/
theorem ack_walk_held :
    ∃ s, (storageSystem hexAddrText fun _ => True).Reaches (fun _ _ => True) s ∧
      dtnStorageDeletePacketByIcmpData true s sampleMessage = .error .hang := by
  have hstart : (storageSystem hexAddrText fun _ => True).Reaches (fun _ _ => True)
      emptyStorage := .start ⟨[], trivial, emptyEnv, rfl⟩
  have hstores : Run.Returns (storeDouble.run hexAddrText emptyStorage) := by decide +kernel
  have hwalk : ((storeDouble.run hexAddrText emptyStorage).bind fun s =>
      (dtnStorageDeletePacketByIcmpData true s sampleMessage).map fun _ => ()) = .error .hang := by
    decide +kernel
  obtain ⟨s, hs⟩ := hstores
  have hstored : (storageSystem hexAddrText fun _ => True).Reaches (fun _ _ => True) s :=
    .step (e := .call storeDouble) hstart trivial hs
  refine ⟨s, hstored, ?_⟩
  rw [hs] at hwalk
  cases hdelete : dtnStorageDeletePacketByIcmpData true s sampleMessage with
  | ok s' => simp [Except.bind, Except.map, hdelete] at hwalk
  | error stuck => simpa [Except.bind, Except.map, hdelete] using hwalk

end LwipDtn
