import LwipDtn.StorageRuns

/-!
Packet files that are complete and packet files that are not. A save leaves the first
bytes of the file it meant to write; the loader takes the whole file and refuses every
shorter one, and a store that fails is harmless unless it has opened its file.
-/

namespace LwipDtn
open Outcome Bytes BoundedFifo

/-! What a save leaves in the directory. -/

/-- The bytes of its file that a save can leave there. -/
def SaveEnv.written (env : SaveEnv) : Nat :=
  if env.buffer then env.taken else min env.taken packetFileHeaderLen

def StoredPacketEntry.named (text : AddrText) (e : StoredPacketEntry) : StoredPacketEntry :=
  { e with filename := packetFileName text e.originalDest e.storedTimeMs }

theorem StoredPacketEntry.file_length (e : StoredPacketEntry) :
    e.file.2.length = packetFileHeaderLen + e.p.totLen := by
  rw [StoredPacketEntry.file, List.length_append, PacketFileHeader.encode_length, Pbuf.bytes_length]

theorem StoredPacketEntry.file_take (e : StoredPacketEntry) (n : Nat) :
    e.file.2.take (packetFileHeaderLen + n) = e.header.encode ++ e.p.bytes.take n := by
  rw [StoredPacketEntry.file, ← PacketFileHeader.encode_length e.header, List.take_append,
    List.take_of_length_le (Nat.le_add_right _ _), Nat.add_sub_cancel_left]

/-- A save that opens its file replaces it by the bytes that reach it, whether it
succeeds or not. -/
theorem save_writes {text : AddrText} {env : SaveEnv} {disk disk' : Disk} {saved : Bool}
    {e e' : StoredPacketEntry}
    (h : dtnStorageSavePacketToDisk text env disk e = (saved, e', disk')) :
    e' = e.named text ∧
      disk' = (if env.fopen then disk.write e'.filename (e'.file.2.take env.written) else disk) ∧
      (saved = true → env.fopen = true ∧ env.buffer = true) ∧
      (saved = false → env.fopen = true → e.p.totLen = 0 ∨
        env.written < packetFileHeaderLen + e.p.totLen) := by
  have hsaved := save_iff text env disk e
  rw [h] at hsaved
  simp only [dtnStorageSavePacketToDisk] at h
  split at h
  · rename_i closed
    cases h
    refine ⟨rfl, by rw [closed]; rfl, fun done => absurd done Bool.false_ne_true, fun _ hopen => ?_⟩
    rw [closed] at hopen
    cases hopen
  rename_i opened
  rw [Bool.not_eq_false] at opened
  rw [if_pos opened, SaveEnv.written]
  split at h
  · rename_i noBuffer
    cases h
    rw [if_neg (by rw [noBuffer]; exact Bool.false_ne_true)]
    refine ⟨rfl, ?_, fun done => absurd done Bool.false_ne_true, fun _ _ => by omega⟩
    rw [← List.take_take]
    congr 2
    exact (List.take_left' (PacketFileHeader.encode_length _)).symm
  · rename_i buffer
    rw [Bool.not_eq_false] at buffer
    cases h
    rw [if_pos buffer]
    refine ⟨rfl, rfl, fun _ => ⟨opened, buffer⟩, fun failed _ => .inr ?_⟩
    have hpassed := passedByFwrite_le (packetFileHeaderLen + e.p.totLen)
    by_contra enough
    have := hsaved.mpr ⟨opened, buffer, by omega⟩
    exact absurd (this.symm.trans failed) (by decide)

/-! Complete files and files that were cut off. -/

theorem load_some {env : LoadEnv} {name : FileName} {f : Bytes} {e : StoredPacketEntry}
    (h : dtnStorageLoadPacketFromFile env name f = some e) :
    ∃ header, PacketFileHeader.decode f = some header ∧
      packetFileHeaderLen + header.packetLen.toNat ≤ f.length ∧ e.p.chain = [] ∧
      e.p.payload = ((f.drop packetFileHeaderLen).take header.packetLen.toNat).take
        (header.packetLen.toNat % 65536) := by
  simp only [dtnStorageLoadPacketFromFile, Option.bind_eq_bind, Option.bind_eq_some_iff, guard] at h
  obtain ⟨_, -, header, hdecode, _, -, _, hlen, ⟨block, behind⟩, -, _, -, h⟩ := h
  cases h
  refine ⟨header, hdecode, ?_, rfl, rfl⟩
  have hheader : packetFileHeaderLen ≤ f.length := by
    rw [PacketFileHeader.decode] at hdecode
    split at hdecode
    · assumption
    · cases hdecode
  split at hlen
  · rename_i hdata
    rw [List.length_take, List.length_drop] at hdata
    omega
  · cases hlen

theorem decode_take (e : StoredPacketEntry) {n : Nat} (h : packetFileHeaderLen ≤ n) :
    PacketFileHeader.decode (e.file.2.take n) = some e.header := by
  rw [← Nat.add_sub_cancel' h, e.file_take]
  exact PacketFileHeader.decode_encode _ _

/-- The loader refuses a file that ends before its packet does. -/
theorem load_cut (env : LoadEnv) (name : FileName) (e : StoredPacketEntry) {n : Nat}
    (h : n < packetFileHeaderLen + e.p.totLen) :
    dtnStorageLoadPacketFromFile env name (e.file.2.take n) = none := by
  rw [Option.eq_none_iff_forall_ne_some]
  intro e' hload
  obtain ⟨header, hdecode, hlen, -, -⟩ := load_some hload
  rw [List.length_take, e.file_length, Nat.min_eq_left (by omega)] at hlen
  rw [decode_take e (by omega)] at hdecode
  cases hdecode
  rw [e.header_packetLen] at hlen
  omega

theorem load_whole {env : LoadEnv} {name : FileName} {e e' : StoredPacketEntry}
    (h : dtnStorageLoadPacketFromFile env name e.file.2 = some e') : e'.p.bytes = e.p.bytes := by
  have hdecode : PacketFileHeader.decode e.file.2 = some e.header :=
    PacketFileHeader.decode_encode e.header e.p.bytes
  obtain ⟨header, hdecode', -, hchain, hpayload⟩ := load_some h
  cases hdecode.symm.trans hdecode'
  rw [e.file_data, e.header_packetLen, Nat.mod_eq_of_lt e.p.totLen_lt, ← Pbuf.bytes_length,
    List.take_length] at hpayload
  rw [Pbuf.bytes, hchain, List.append_nil, hpayload]

theorem Disk.mem_write {disk : Disk} {name : FileName} {contents : Bytes} {f : FileName × Bytes} :
    f ∈ disk.write name contents ↔ f.1 ≠ name ∧ f ∈ disk ∨ f = (name, contents) := by
  simp [Disk.write, and_comm]

/-- If all bytes have reached the file that a save has written, loading it gives the packet
back, with its destination, its time and the name of the file; no shorter part of the file
loads at all. -/
theorem packet_file_roundtrip (text : AddrText) (env : SaveEnv) (disk disk' : Disk)
    (e e' : StoredPacketEntry)
    (saved : dtnStorageSavePacketToDisk text env disk e = (true, e', disk'))
    (reached : packetFileHeaderLen + e.p.totLen ≤ env.taken) :
    ∃ contents, (∀ c, (e'.filename, c) ∈ disk' ↔ c = contents) ∧
      (∀ load : LoadEnv, load.Works → ∃ loaded,
        dtnStorageLoadPacketFromFile load e'.filename contents = some loaded ∧
        loaded.originalDest = e.originalDest ∧ loaded.storedTimeMs = e.storedTimeMs ∧
        loaded.filename = e'.filename ∧ loaded.p.bytes = e.p.bytes) ∧
      ∀ (load : LoadEnv) (name : FileName) (n : Nat), n < contents.length →
        dtnStorageLoadPacketFromFile load name (contents.take n) = none := by
  obtain ⟨rfl, rfl, hsaved, -⟩ := save_writes saved
  obtain ⟨opened, buffer⟩ := hsaved rfl
  refine ⟨(e.named text).file.2, ?_, ?_, ?_⟩
  · intro c
    rw [if_pos opened, Disk.mem_write, SaveEnv.written, if_pos buffer, List.take_of_length_le (by
      rw [StoredPacketEntry.file_length]
      exact reached)]
    simp
  · intro load works
    obtain ⟨loaded, hload, -, hcontent, hname⟩ := load_file works (e.named text)
    simp only [StoredPacketEntry.content, Prod.mk.injEq] at hcontent
    exact ⟨loaded, hload, hcontent.1, hcontent.2.1, hname, hcontent.2.2⟩
  · intro load name n hn
    rw [StoredPacketEntry.file_length] at hn
    exact load_cut load name _ hn

theorem packet_file_roundtrip_sample :
    ∃ contents : Bytes,
      (∀ load : LoadEnv, load.Works → ∃ loaded, dtnStorageLoadPacketFromFile load
        (packetFileName hexAddrText farAddr 7) contents = some loaded ∧
          loaded.p.bytes = samplePacket) ∧
      ∀ (load : LoadEnv) (name : FileName) (n : Nat), n < contents.length →
        dtnStorageLoadPacketFromFile load name (contents.take n) = none := by
  obtain ⟨contents, -, hload, hcut⟩ := packet_file_roundtrip hexAddrText (calmEnv 7).save [] _
    ⟨.single samplePacket [] (by decide), farAddr, 7, []⟩ _ rfl (by decide)
  refine ⟨contents, fun load works => ?_, hcut⟩
  obtain ⟨loaded, hloaded, -, -, -, hbytes⟩ := hload load works
  exact ⟨loaded, hloaded, hbytes⟩

/-! Stores that fail. -/

/-- The directory has one file of this name, with these contents. -/
def Disk.HasOnly (disk : Disk) (name : FileName) (contents : Bytes) : Prop :=
  ∀ c, (name, c) ∈ disk ↔ c = contents

theorem Disk.write_same {disk : Disk} {name : FileName} {contents : Bytes} :
    (∀ f, f ∈ disk.write name contents ↔ f ∈ disk) ↔ disk.HasOnly name contents := by
  constructor
  · intro h c
    rw [← h, Disk.mem_write]
    simp
  · rintro h ⟨name', c⟩
    rw [Disk.mem_write]
    by_cases hname : name' = name
    · subst hname
      rw [h c]
      simp
    · simp [hname]

/-- The store fails before it opens the file of the packet, or the file holds
already what the failed save leaves in it. -/
def FailsClean (text : AddrText) (env : StoreEnv) (s : StorageFunction) (p : Pbuf)
    (dest : Ip6Addr) : Prop :=
  dtnStorageIsFull s = true ∨ pbufClone env.copy p = none ∨ env.entry = false ∨
  env.save.fopen = false ∨
  ∃ copy stripped q, pbufClone env.copy p = some copy ∧
    dtnStripCustodianOption env.strip copy = .ok (stripped, q) ∧
    s.disk.HasOnly (packetFileName text dest env.now)
      ((newEntry text q dest env.now).file.2.take env.save.written)

/-- A failed store leaves the list and its counter alone; it leaves the directory alone
exactly if it fails before the file is opened or finds the file as it leaves it. -/
theorem failed_store_harmless_iff (text : AddrText) (env : StoreEnv) (s s' : StorageFunction)
    (p : Pbuf) (dest : Ip6Addr)
    (failed : dtnStorageStorePacket text env s p dest = .ok (false, s')) :
    (s'.packetListHead = s.packetListHead ∧ s'.storedPacketsCount = s.storedPacketsCount ∧
      ∀ f, f ∈ s'.disk ↔ f ∈ s.disk) ↔ FailsClean text env s p dest := by
  rw [FailsClean]
  rw [dtnStorageStorePacket] at failed
  split at failed
  · rename_i full
    cases failed
    simp [full]
  rename_i notFull
  split at failed
  · rename_i hcopy
    cases failed
    simp [hcopy]
  rename_i copy hcopy
  obtain ⟨⟨stripped, q⟩, hstrip, failed⟩ := Run.bind_eq_ok.mp failed
  dsimp only at failed
  split at failed
  · rename_i noEntry
    cases failed
    simp [noEntry]
  rename_i hentry
  generalize hsave : dtnStorageSavePacketToDisk text env.save s.disk ⟨q, dest, env.now, []⟩ = res
    at failed
  obtain ⟨saved, entry, disk⟩ := res
  obtain ⟨rfl, rfl, -⟩ := save_writes hsave
  cases saved with
  | true => cases failed
  | false =>
      cases failed
      cases hopen : env.save.fopen with
      | false => simp
      | true =>
          -- the file has been opened, so only its old contents can save the directory
          have hdisk : (∀ f, f ∈ (s.disk.write (packetFileName text dest env.now)
              ((newEntry text q dest env.now).file.2.take env.save.written)) ↔
              f ∈ s.disk) ↔ _ := Disk.write_same
          constructor
          · rintro ⟨-, -, hsame⟩
            exact .inr (.inr (.inr (.inr ⟨copy, stripped, q, hcopy, hstrip, hdisk.mp hsame⟩)))
          · rintro (full | none | noEntry | closed | ⟨copy', stripped', q', hcopy', hstrip', hfile⟩)
            · exact absurd full notFull
            · cases hcopy.symm.trans none
            · exact absurd noEntry hentry
            · cases closed
            · cases hcopy.symm.trans hcopy'
              cases hstrip.symm.trans hstrip'
              exact ⟨rfl, rfl, hdisk.mpr hfile⟩

/-- There is no memory for the packet when its file has been opened. -/
def noBufferEnv : StoreEnv :=
  { calmEnv 7 with save := { (calmEnv 7).save with buffer := false } }

/-- Five packets for one destination have been stored, one in every millisecond. -/
def fiveStored : Run StorageFunction :=
  StorageCall.runAll hexAddrText ([2, 3, 4, 5, 6].map storeSample) emptyStorage

theorem failed_store_harmless_iff_full :
    ∃ s, fiveStored = .ok s ∧ s.packetListHead.length = 5 ∧ s.disk.length = 5 ∧
      ∃ s', dtnStorageStorePacket hexAddrText noBufferEnv s (.single samplePacket [] (by decide))
          farAddr = .ok (false, s') ∧ ∀ f, f ∈ s'.disk ↔ f ∈ s.disk := by
  have hfacts : fiveStored.map (fun s => (s.packetListHead.length, s.disk.length,
      dtnStorageIsFull s)) = .ok (5, 5, true) := by decide +kernel
  cases hrun : fiveStored with
  | error stuck =>
      rw [hrun] at hfacts
      cases hfacts
  | ok s =>
      rw [hrun] at hfacts
      obtain ⟨hlist, hfacts⟩ := Prod.mk.inj (Except.ok.inj hfacts)
      obtain ⟨hdisk, full⟩ := Prod.mk.inj hfacts
      have hrefused : dtnStorageStorePacket hexAddrText noBufferEnv s
          (.single samplePacket [] (by decide)) farAddr = .ok (false, s) := by
        rw [dtnStorageStorePacket, if_pos full]
        rfl
      exact ⟨s, rfl, hlist, hdisk, s, hrefused,
        ((failed_store_harmless_iff _ _ _ _ _ _ hrefused).mpr (.inl full)).2.2⟩

set_option maxRecDepth 8000 in
/-- The store reports a failure and leaves a file with a header and no packet. -/
theorem failed_store_leaves_file :
    ∃ s', dtnStorageStorePacket hexAddrText noBufferEnv emptyStorage
        (.single samplePacket [] (by decide)) farAddr = .ok (false, s') ∧
      emptyStorage.disk = [] ∧ s'.disk.map (fun f => f.2.length) = [packetFileHeaderLen] := by
  refine ⟨_, rfl, rfl, ?_⟩
  decide

end LwipDtn
