import LwipDtn.StorageCalls
import LwipDtn.CustodyPaths
import Mathlib.Algebra.GroupWithZero.Nat
import Mathlib.Data.Option.Basic

/-!
The storage as a bounded queue. Inversion lemmas say once what each call can do to
the list, the counter and the files; the invariant and the refinement of the
bounded queue follow from them.
-/

namespace LwipDtn
open Outcome Bytes BoundedFifo

/-! What a call can do. -/

theorem removeFirst_cases {s s' : StorageFunction} {removed : Bool}
    {test : StoredPacketEntry → Run Bool} {r : Option StoredPacketEntry}
    (h : s.removeFirst removed test = .ok (r, s')) :
    (r = none ∧ s' = s ∧ ∀ e ∈ s.packetListHead, test e = .ok false) ∨
    ∃ e rest, r = some e ∧ s' = s.unlinked removed e rest ∧
      TakesFirst (fun e => test e = .ok true) s.packetListHead e rest := by
  rw [StorageFunction.removeFirst, Run.bind_eq_ok] at h
  obtain ⟨found, hwalk, h⟩ := h
  match found, hwalk, h with
  | none, hwalk, h =>
      cases h
      exact .inl ⟨rfl, rfl, unlinkFirst_none.mp hwalk⟩
  | some (e, rest), hwalk, h =>
      cases h
      exact .inr ⟨e, rest, rfl, rfl, unlinkFirst_takesFirst hwalk⟩

theorem deleteByIpHeader_cases {s s' : StorageFunction} {removed : Bool} {hdr : Bytes}
    (h : dtnStorageDeletePacketByIpHeader removed s hdr = .ok s') :
    s' = s ∨ ∃ e rest, s' = s.unlinked removed e rest ∧
      TakesFirst (fun e => matchesHeader hdr e = true) s.packetListHead e rest := by
  rw [dtnStorageDeletePacketByIpHeader] at h
  split at h
  · cases h
    exact .inl rfl
  · rw [Run.bind_eq_ok] at h
    obtain ⟨⟨r, s₁⟩, hremove, h⟩ := h
    cases h
    obtain ⟨-, rfl, -⟩ | ⟨e, rest, -, rfl, htake⟩ := removeFirst_cases hremove
    · exact .inl rfl
    · exact .inr ⟨e, rest, rfl, by simpa using htake⟩

/-- The entries that the deletion by a status message would take. -/
def AcceptsQuote (icmp : Pbuf) (e : StoredPacketEntry) : Prop :=
  if (quotedPacket icmp.payload).payloadBytes = 0 then
    matchesHeader (quotedPacket icmp.payload).hdr e = true
  else matchesQuote icmp (quotedPacket icmp.payload) e = .ok true

theorem deleteByIcmpData_cases {s s' : StorageFunction} {removed : Bool} {icmp : Pbuf}
    (h : dtnStorageDeletePacketByIcmpData removed s icmp = .ok s') :
    s' = s ∨ ∃ e rest, s' = s.unlinked removed e rest ∧ 105 ≤ icmp.len ∧
      TakesFirst (AcceptsQuote icmp) s.packetListHead e rest := by
  rw [dtnStorageDeletePacketByIcmpData] at h
  split at h
  · cases h
    exact .inl rfl
  split at h
  · cases h
    exact .inl rfl
  rename_i long
  have hlong : 105 ≤ icmp.len := by
    simp only [ip6Hlen] at long
    omega
  dsimp only at h
  split at h
  · rename_i zero
    have haccept : AcceptsQuote icmp =
        fun e => matchesHeader (quotedPacket icmp.payload).hdr e = true :=
      funext fun _ => if_pos zero
    obtain rfl | ⟨e, rest, rfl, htake⟩ := deleteByIpHeader_cases h
    · exact .inl rfl
    · exact .inr ⟨e, rest, rfl, hlong, haccept ▸ htake⟩
  · rename_i pos
    have haccept : AcceptsQuote icmp =
        fun e => matchesQuote icmp (quotedPacket icmp.payload) e = .ok true :=
      funext fun _ => if_neg pos
    rw [Run.bind_eq_ok] at h
    obtain ⟨⟨r, s₁⟩, hremove, h⟩ := h
    cases h
    obtain ⟨-, rfl, -⟩ | ⟨e, rest, -, rfl, htake⟩ := removeFirst_cases hremove
    · exact .inl rfl
    · exact .inr ⟨e, rest, rfl, hlong, haccept ▸ htake⟩

/-- The entry that a successful store appends. -/
def newEntry (text : AddrText) (q : Pbuf) (dest : Ip6Addr) (now : UInt32) : StoredPacketEntry :=
  ⟨q, dest, now, packetFileName text dest now⟩

theorem save_cases {text : AddrText} {env : SaveEnv} {disk : Disk} {q : Pbuf} {dest : Ip6Addr}
    {now : UInt32} {saved : Bool} {entry : StoredPacketEntry} {disk' : Disk}
    (h : dtnStorageSavePacketToDisk text env disk ⟨q, dest, now, []⟩ = (saved, entry, disk')) :
    entry = newEntry text q dest now ∧ (saved = true →
      disk' = disk.write entry.filename ((entry.header.encode ++ q.bytes).take env.taken)) := by
  simp only [dtnStorageSavePacketToDisk] at h
  split at h
  · cases h; exact ⟨rfl, nofun⟩
  split at h
  · cases h; exact ⟨rfl, nofun⟩
  · cases h; exact ⟨rfl, fun _ => rfl⟩

theorem store_cases {text : AddrText} {env : StoreEnv} {s s' : StorageFunction} {p : Pbuf}
    {dest : Ip6Addr} {r : Bool} (h : dtnStorageStorePacket text env s p dest = .ok (r, s')) :
    (r = false ∧ (s' = s ∨ s.storedPacketsCount < maxStoredPackets ∧ ∃ q entry disk,
      dtnStorageSavePacketToDisk text env.save s.disk ⟨q, dest, env.now, []⟩ =
        (false, entry, disk) ∧ s' = { s with disk := disk })) ∨
    (r = true ∧ (s.storedPacketsCount < maxStoredPackets ∧ env.entry = true) ∧
      ∃ copy stripped q disk,
      pbufClone env.copy p = some copy ∧
      dtnStripCustodianOption env.strip copy = .ok (stripped, q) ∧
      dtnStorageSavePacketToDisk text env.save s.disk ⟨q, dest, env.now, []⟩ =
        (true, newEntry text q dest env.now, disk) ∧
      s' = { s with disk := disk }.append (newEntry text q dest env.now)) := by
  rw [dtnStorageStorePacket] at h
  split at h
  · cases h
    exact .inl ⟨rfl, .inl rfl⟩
  rename_i notFull
  have room : s.storedPacketsCount < maxStoredPackets := by
    simpa [dtnStorageIsFull] using notFull
  split at h
  · cases h
    exact .inl ⟨rfl, .inl rfl⟩
  rename_i copy hcopy
  rw [Run.bind_eq_ok] at h
  obtain ⟨⟨stripped, q⟩, hstrip, h⟩ := h
  dsimp only at h
  split at h
  · cases h
    exact .inl ⟨rfl, .inl rfl⟩
  rename_i hentry
  generalize hsave : dtnStorageSavePacketToDisk text env.save s.disk ⟨q, dest, env.now, []⟩ = res
    at h
  obtain ⟨saved, entry, disk⟩ := res
  obtain ⟨rfl, -⟩ := save_cases hsave
  cases saved with
  | false =>
      cases h
      exact .inl ⟨rfl, .inr ⟨room, q, _, disk, hsave, rfl⟩⟩
  | true =>
      cases h
      exact .inr ⟨rfl, ⟨room, by simpa using hentry⟩, copy, stripped, q, disk, hcopy, hstrip, hsave,
        rfl⟩

/-! The invariant of the list and its counter. -/

structure StorageFunction.Valid (s : StorageFunction) : Prop where
  count : s.storedPacketsCount = s.packetListHead.length
  bounded : s.packetListHead.length ≤ maxStoredPackets
  maxBytes : s.maxStorageBytes = 1024 * 1024

/-- The abstract queue of a valid storage. -/
def StorageFunction.queue (s : StorageFunction) (h : s.Valid) :
    Fifo StoredPacketEntry maxStoredPackets := ⟨s.packetListHead, h.bounded⟩

namespace StorageFunction.Valid

variable {s s' : StorageFunction}

theorem of_disk (h : s.Valid) (disk : Disk) : { s with disk := disk }.Valid :=
  ⟨h.count, h.bounded, h.maxBytes⟩

theorem append (h : s.Valid) (room : s.storedPacketsCount < maxStoredPackets)
    (e : StoredPacketEntry) : (s.append e).Valid := by
  have hc := h.count
  refine ⟨?_, ?_, h.maxBytes⟩
  · simp [StorageFunction.append, hc]
  · simp only [StorageFunction.append, List.length_append, List.length_singleton]
    omega

theorem unlinked (h : s.Valid) {e : StoredPacketEntry} {rest : List StoredPacketEntry}
    (removed : Bool) (hperm : s.packetListHead.Perm (e :: rest)) :
    (s.unlinked removed e rest).Valid := by
  have hc := h.count
  have hb := h.bounded
  have hl := hperm.length_eq
  rw [List.length_cons] at hl
  refine ⟨?_, ?_, h.maxBytes⟩
  · simp only [StorageFunction.unlinked]; omega
  · simp only [StorageFunction.unlinked]; omega

theorem load (env : FileName → LoadEnv) (files : List (FileName × Bytes)) (h : s.Valid)
    (room : s.storedPacketsCount < maxStoredPackets) :
    (dtnStorageLoadPacketsFromDisk env files s).Valid := by
  induction files generalizing s with
  | nil => exact h
  | cons f rest ih =>
      obtain ⟨name, contents⟩ := f
      rw [dtnStorageLoadPacketsFromDisk]
      split
      · split
        · split
          · exact h.append room _
          · exact ih (h.append room _) (by omega)
        · exact ih h room
      · exact ih h room

theorem create {disk : Disk} {env : CreateEnv disk} (h : dtnStorageCreate env = some s) :
    s.Valid := by
  have hempty : StorageFunction.Valid ⟨0, 1024 * 1024, [], disk⟩ := ⟨rfl, Nat.zero_le _, rfl⟩
  rw [dtnStorageCreate] at h
  split at h
  · cases h
  split at h
  · cases h
  dsimp only at h
  split at h
  · cases h
    exact hempty
  · cases h
    exact hempty.load env.load env.listing.files (Nat.zero_lt_succ 4)

/-- Each call keeps the invariant and is a step of the bounded queue. -/
theorem call {text : AddrText} {c : StorageCall} (h : s.Valid) (hrun : c.run text s = .ok s') :
    ∃ h' : s'.Valid, (s.queue h).Step (s'.queue h') := by
  have stay : ∀ {t : StorageFunction} (ht : t.Valid), t.packetListHead = s.packetListHead →
      ∃ ht : t.Valid, (s.queue h).Step (t.queue ht) := fun ht hl => ⟨ht, .remove (.inl hl)⟩
  have unlink : ∀ {P : StoredPacketEntry → Prop} {removed e rest},
      TakesFirst P s.packetListHead e rest → s' = s.unlinked removed e rest →
      ∃ h' : s'.Valid, (s.queue h).Step (s'.queue h') := by
    rintro P removed e rest htake rfl
    exact ⟨h.unlinked removed htake.perm, .remove htake.losesAtMostOne⟩
  cases c with
  | store env p dest =>
      obtain ⟨⟨r, t⟩, hstore, ht⟩ := Run.bind_eq_ok.mp hrun
      cases ht
      obtain ⟨-, rfl | ⟨-, -, -, disk, -, rfl⟩⟩ |
        ⟨-, ⟨room, -⟩, copy, stripped, q, disk, -, -, -, rfl⟩ := store_cases hstore
      · exact stay h rfl
      · exact stay (h.of_disk disk) rfl
      · exact ⟨(h.of_disk disk).append room _, .push _ (h.count ▸ room) rfl⟩
  | retrieve removed dest =>
      obtain ⟨⟨r, t⟩, hremove, ht⟩ := Run.bind_eq_ok.mp hrun
      cases ht
      obtain ⟨-, rfl, -⟩ | ⟨e, rest, -, heq, htake⟩ := removeFirst_cases hremove
      · exact stay h rfl
      · exact unlink htake heq
  | getCopy env dest =>
      cases hrun
      exact stay h rfl
  | deleteByIpHeader removed hdr =>
      obtain rfl | ⟨e, rest, heq, htake⟩ := deleteByIpHeader_cases hrun
      · exact stay h rfl
      · exact unlink htake heq
  | deleteByIcmpData removed icmp =>
      obtain rfl | ⟨e, rest, heq, -, htake⟩ := deleteByIcmpData_cases hrun
      · exact stay h rfl
      · exact unlink htake heq

end StorageFunction.Valid

/-- The states that a storage can be in: created over any directory, then any
sequence of calls that return. -/
inductive StorageReachable (text : AddrText) : StorageFunction → Prop where
  | create {disk : Disk} {s : StorageFunction} (env : CreateEnv disk)
      (h : dtnStorageCreate env = some s) : StorageReachable text s
  | call {s s' : StorageFunction} (c : StorageCall) (before : StorageReachable text s)
      (h : c.run text s = .ok s') : StorageReachable text s'

theorem StorageReachable.valid {text : AddrText} {s : StorageFunction}
    (h : StorageReachable text s) : s.Valid := by
  induction h with
  | create env h => exact .create h
  | call c _ h ih => exact (ih.call h).1

def StorageCall.runAll (text : AddrText) (calls : List StorageCall) (s : StorageFunction) :
    Run StorageFunction :=
  calls.foldlM (fun s c => c.run text s) s

theorem StorageCall.runAll_cons {text : AddrText} {c : StorageCall} {calls : List StorageCall}
    {s s' : StorageFunction} (h : runAll text (c :: calls) s = .ok s') :
    ∃ next, c.run text s = .ok next ∧ runAll text calls next = .ok s' := by
  rwa [runAll, List.foldlM_cons, Run.bind_eq_ok] at h

theorem StorageReachable.calls {text : AddrText} {s s' : StorageFunction} {calls : List StorageCall}
    (before : StorageReachable text s) (h : StorageCall.runAll text calls s = .ok s') :
    StorageReachable text s' := by
  induction calls generalizing s with
  | nil =>
      cases h
      exact before
  | cons c rest ih =>
      obtain ⟨next, hnext, h⟩ := StorageCall.runAll_cons h
      exact ih (before.call c hnext) h

theorem sum_totLen_le (l : List StoredPacketEntry) :
    (l.map fun e => e.p.totLen).sum ≤ l.length * 65535 := by
  induction l with
  | nil => simp
  | cons e l ih =>
      have := e.p.totLen_lt
      simp only [List.map_cons, List.sum_cons, List.length_cons]
      omega

theorem getCopy_cases {env : CopyEnv} {s : StorageFunction} {dest : Ip6Addr}
    {copy : StoredPacketEntry} (h : dtnStorageGetPacketCopyForDest env s dest = some copy) :
    ∃ e q, s.packetListHead.find? (isForDest dest) = some e ∧ q.bytes = e.p.bytes ∧
      copy = { e with p := q } := by
  simp only [dtnStorageGetPacketCopyForDest, Option.bind_eq_bind, Option.bind_eq_some_iff] at h
  obtain ⟨e, he, -, -, q, hq, h⟩ := h
  exact ⟨e, q, he, pbufClone_bytes hq, (Option.some.inj h).symm⟩

theorem isForDest_iff {dest : Ip6Addr} {e : StoredPacketEntry} :
    isForDest dest e = true ↔ e.originalDest.addr = dest.addr := Ip6Addr.eqNoZone_iff

theorem retrieve_first (removed : Bool) (s : StorageFunction) (dest : Ip6Addr) :
    ∃ r s', dtnStorageRetrievePacketForDest removed s dest = .ok (r, s') ∧
      match r with
      | none => s' = s ∧ ∀ e ∈ s.packetListHead, e.originalDest.addr ≠ dest.addr
      | some e => TakesFirst (fun e => e.originalDest.addr = dest.addr) s.packetListHead e
          s'.packetListHead := by
  have hreturns : Run.Returns (s.removeFirst removed fun e => return isForDest dest e) := by
    rw [StorageFunction.removeFirst, Run.returns_bind]
    have hends : Run.Returns (unlinkFirst (fun e => return isForDest dest e) []
        s.packetListHead) := unlinkFirst_returns fun e _ => ⟨_, rfl⟩
    obtain ⟨found, hwalk⟩ := hends
    refine ⟨found, hwalk, ?_⟩
    match found with
    | none => exact ⟨_, rfl⟩
    | some (e, rest) => exact ⟨_, rfl⟩
  obtain ⟨⟨r, s'⟩, hret⟩ := hreturns
  refine ⟨r, s', hret, ?_⟩
  obtain ⟨rfl, rfl, hnone⟩ | ⟨e, rest, rfl, rfl, htake⟩ := removeFirst_cases hret
  · refine ⟨rfl, fun e he => ?_⟩
    have := Except.ok.inj (hnone e he)
    rwa [← Bool.not_eq_true, isForDest_iff] at this
  · simpa [isForDest_iff, StorageFunction.unlinked] using htake

/-- The calls that take entries out. -/
def StorageCall.Removes : StorageCall → Prop
  | .retrieve _ _ | .deleteByIpHeader _ _ | .deleteByIcmpData _ _ => True
  | .store _ _ _ | .getCopy _ _ => False

theorem removal_losesAtMostOne {text : AddrText} {s s' : StorageFunction} {c : StorageCall}
    (hc : c.Removes) (h : c.run text s = .ok s') :
    LosesAtMostOne s.packetListHead s'.packetListHead := by
  cases c with
  | store | getCopy => exact hc.elim
  | retrieve removed dest =>
      obtain ⟨⟨r, t⟩, hremove, ht⟩ := Run.bind_eq_ok.mp h
      cases ht
      obtain ⟨-, rfl, -⟩ | ⟨e, rest, -, rfl, htake⟩ := removeFirst_cases hremove
      · exact .inl rfl
      · exact htake.losesAtMostOne
  | deleteByIpHeader removed hdr =>
      obtain rfl | ⟨e, rest, rfl, htake⟩ := deleteByIpHeader_cases h
      · exact .inl rfl
      · exact htake.losesAtMostOne
  | deleteByIcmpData removed icmp =>
      obtain rfl | ⟨e, rest, rfl, -, htake⟩ := deleteByIcmpData_cases h
      · exact .inl rfl
      · exact htake.losesAtMostOne

/-- In every reachable state the list is a bounded queue: its counter and its bounds
are right, stores append, lookups select the first entry for the destination, and
every removal takes out at most one entry. -/
theorem storage_refines_fifo (text : AddrText) (s : StorageFunction)
    (h : StorageReachable text s) :
    s.storedPacketsCount = s.packetListHead.length ∧
    s.packetListHead.length ≤ maxStoredPackets ∧
    (s.packetListHead.map fun e => e.p.totLen).sum ≤ s.maxStorageBytes ∧
    (∀ env p dest r s', dtnStorageStorePacket text env s p dest = .ok (r, s') →
      if r then ∃ e, s'.packetListHead = s.packetListHead ++ [e] ∧ e.originalDest = dest ∧
        e.storedTimeMs = env.now
      else s'.packetListHead = s.packetListHead) ∧
    (∀ removed dest, ∃ r s', dtnStorageRetrievePacketForDest removed s dest = .ok (r, s') ∧
      match r with
      | none => s' = s ∧ ∀ e ∈ s.packetListHead, e.originalDest.addr ≠ dest.addr
      | some e => TakesFirst (fun e => e.originalDest.addr = dest.addr) s.packetListHead e
          s'.packetListHead) ∧
    (∀ env dest, (StorageCall.getCopy env dest).run text s = .ok s ∧
      (∀ copy, dtnStorageGetPacketCopyForDest env s dest = some copy →
        ∃ e rest q, TakesFirst (fun e => e.originalDest.addr = dest.addr) s.packetListHead e rest ∧
          q.bytes = e.p.bytes ∧ copy = { e with p := q }) ∧
      (env.entry = true → env.pbuf.Roomy 65535 →
        dtnStorageGetPacketCopyForDest env s dest = none →
        ∀ e ∈ s.packetListHead, e.originalDest.addr ≠ dest.addr)) ∧
    (∀ (c : StorageCall) s', c.Removes → c.run text s = .ok s' →
      LosesAtMostOne s.packetListHead s'.packetListHead) ∧
    ∀ (c : StorageCall) s', c.run text s = .ok s' → ∃ (v : s.Valid) (v' : s'.Valid),
      (s.queue v).Step (s'.queue v') := by
  have valid := h.valid
  refine ⟨valid.count, valid.bounded, ?_, ?_, fun removed dest => retrieve_first removed s dest,
    fun env dest => ⟨rfl, ?_, ?_⟩, fun c s' hc hrun => removal_losesAtMostOne hc hrun,
    fun c s' hrun => ⟨valid, valid.call hrun⟩⟩
  · rw [valid.maxBytes]
    calc (s.packetListHead.map fun e => e.p.totLen).sum
        ≤ s.packetListHead.length * 65535 := sum_totLen_le s.packetListHead
      _ ≤ maxStoredPackets * 65535 := Nat.mul_le_mul_right _ valid.bounded
      _ ≤ 1024 * 1024 := by simp [maxStoredPackets]
  · intro env p dest r s' hstore
    obtain ⟨rfl, rfl | ⟨-, -, -, disk, -, rfl⟩⟩ |
      ⟨rfl, -, copy, stripped, q, disk, -, -, -, rfl⟩ := store_cases hstore
    · rfl
    · rfl
    · exact ⟨newEntry text q dest env.now, rfl, rfl, rfl⟩
  · intro copy hcopy
    obtain ⟨e, q, hfind, hq, rfl⟩ := getCopy_cases hcopy
    obtain ⟨hdest, front, back, hsplit, hfront⟩ := List.find?_eq_some_iff_append.mp hfind
    exact ⟨e, front ++ back, q, ⟨front, back, hsplit, rfl, isForDest_iff.mp hdest,
      fun b hb hdest => by simpa [isForDest_iff.mpr hdest] using hfront b hb⟩, hq, rfl⟩
  · intro hentry hroom hnone e he hdest
    cases hfind : s.packetListHead.find? (isForDest dest) with
    | none => exact List.find?_eq_none.mp hfind e he (isForDest_iff.mpr hdest)
    | some first =>
        have hlt := first.p.totLen_lt
        obtain ⟨block, behind, halloc⟩ := pbufAlloc_roomy hroom first.p.totLen (by omega)
        simp [dtnStorageGetPacketCopyForDest, hfind, hentry, pbufClone, halloc] at hnone

def emptyStorage : StorageFunction := ⟨0, 1024 * 1024, [], []⟩

def emptyEnv : CreateEnv [] where
  storage := true
  directory := true
  opendir := true
  listing := ⟨[], .nil⟩
  load := fun _ => ⟨true, true, some (List.replicate 65535 0), true⟩

/-- An environment in which everything succeeds, at a given time. -/
def calmEnv (now : UInt32) : StoreEnv :=
  ⟨now, smallHeap, smallHeap, true, ⟨true, true, packetFileHeaderLen + 65535⟩⟩

/-- An address whose eight blocks all have four digits. -/
def farAddr : Ip6Addr :=
  ⟨⟨[0xfd, 0, 0x10, 1, 0x10, 1, 0x10, 1, 0x10, 1, 0x10, 1, 0x10, 1, 0x10, 3], rfl⟩, 0, noPadding⟩

def nearAddr : Ip6Addr :=
  ⟨⟨[0xfd, 0, 0x10, 1, 0x10, 1, 0x10, 1, 0x10, 1, 0x10, 1, 0x10, 1, 0x10, 2], rfl⟩, 0, noPadding⟩

def packetFrom (host : UInt8) : Bytes := samplePacket.take 23 ++ host :: samplePacket.drop 24

theorem packetFrom_length_lt (host : UInt8) : (packetFrom host).length < 65536 := by
  rw [show (packetFrom host).length = 48 from rfl]
  decide

def storeFrom (host : UInt8) (dest : Ip6Addr) (now : UInt32) : StorageCall :=
  .store (calmEnv now) (.single (packetFrom host) [] (packetFrom_length_lt host)) dest

/-- Packets of three sources for two destinations. -/
def threeStores : List StorageCall :=
  [storeFrom 1 farAddr 7, storeFrom 2 nearAddr 8, storeFrom 3 farAddr 9]

def threeStored : StorageFunction :=
  (StorageCall.runAll hexAddrText threeStores emptyStorage).toOption.getD emptyStorage

theorem threeStored_eq :
    StorageCall.runAll hexAddrText threeStores emptyStorage = .ok threeStored := by
  obtain ⟨s, h⟩ : Run.Returns (StorageCall.runAll hexAddrText threeStores emptyStorage) := by
    decide +kernel
  rw [threeStored, h]
  rfl

theorem threeStored_packets : threeStored.packetListHead.map (fun e => e.p.bytes) =
    [packetFrom 1, packetFrom 2, packetFrom 3] := by
  decide +kernel

theorem threeStored_reached : StorageReachable hexAddrText threeStored :=
  .calls (.create emptyEnv rfl) threeStored_eq

/-- The second of the three packets can be taken out by its destination. -/
theorem storage_refines_fifo_three :
    threeStored.storedPacketsCount = threeStored.packetListHead.length ∧
    threeStored.packetListHead.map (fun e => e.p.bytes) =
      [packetFrom 1, packetFrom 2, packetFrom 3] ∧
    ∃ e s', dtnStorageRetrievePacketForDest true threeStored nearAddr = .ok (some e, s') ∧
      TakesFirst (fun e => e.originalDest.addr = nearAddr.addr) threeStored.packetListHead e
        s'.packetListHead := by
  obtain ⟨hcount, -, -, -, hretrieve, -⟩ :=
    storage_refines_fifo hexAddrText threeStored threeStored_reached
  refine ⟨hcount, threeStored_packets, ?_⟩
  obtain ⟨r, s', hrun, hr⟩ := hretrieve true nearAddr
  cases r with
  | none =>
      have hnear : ∃ e ∈ threeStored.packetListHead, e.originalDest.addr = nearAddr.addr := by
        decide +kernel
      obtain ⟨e, he, hdest⟩ := hnear
      exact absurd hdest (hr.2 e he)
  | some e => exact ⟨e, s', hrun, hr⟩

end LwipDtn
