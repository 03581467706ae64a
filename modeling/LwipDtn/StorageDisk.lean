import LwipDtn.StorageFifo

/-!
Files and list entries. A packet file decodes to the entry that was saved in it, a
file name determines the destination and the time of the entry, and the loader
rebuilds every entry of a directory of at most five packet files.
-/

namespace LwipDtn
open Outcome Bytes BoundedFifo

/-! The header codec. -/

theorem PacketFileHeader.encode_length (h : PacketFileHeader) :
    h.encode.length = packetFileHeaderLen := by
  simp [encode, fileMagic, packetFileHeaderLen, h.originalDest.addr.2, h.originalDest.padding.2]

theorem PacketFileHeader.decode_encode (h : PacketFileHeader) (data : Bytes) :
    decode (h.encode ++ data) = some h := by
  have hlen : packetFileHeaderLen ≤ (h.encode ++ data).length := by
    rw [List.length_append, encode_length]
    omega
  obtain ⟨timestamp, packetLen, ⟨⟨addr, haddr⟩, zone, ⟨padding, hpadding⟩⟩⟩ := h
  generalize hfile : encode _ ++ data = file at hlen
  have haddress : (file.drop 16).take 16 = addr := by
    simp [← hfile, encode, fileMagic, le32, haddr]
  have hzone : file.getD 32 0 = zone := by
    simp [← hfile, encode, fileMagic, le32, List.getD_eq_getElem?_getD, haddr]
  have hpad : (file.drop 33).take 3 = padding := by
    have hbehind : addr.drop 17 = [] := List.drop_eq_nil_of_le (by omega)
    simp [← hfile, encode, fileMagic, le32, List.drop_append, haddr, hbehind,
      List.take_left' hpadding]
  have htime : le32At file 8 = timestamp := hfile ▸ le32Val_le32 timestamp
  have hplen : le32At file 12 = packetLen := hfile ▸ le32Val_le32 packetLen
  have hmagic : file.take 4 = fileMagic := hfile ▸ rfl
  rw [decode, dif_pos hlen, if_pos hmagic]
  simp only [haddress, hzone, hpad, htime, hplen]

theorem passedByFwrite_le (n : Nat) : passedByFwrite n ≤ n := by
  rw [passedByFwrite]
  split
  · exact Nat.zero_le n
  · exact Nat.div_mul_le_self n stdioBufferLen

/-- A save reports success if its file opens, the packet can be copied, and no write fails
before `fclose`. -/
theorem save_iff (text : AddrText) (env : SaveEnv) (disk : Disk) (e : StoredPacketEntry) :
    (dtnStorageSavePacketToDisk text env disk e).1 = true ↔
      env.fopen = true ∧ env.buffer = true ∧
        passedByFwrite (packetFileHeaderLen + e.p.totLen) ≤ env.taken := by
  simp only [dtnStorageSavePacketToDisk]
  split
  · rename_i closed
    simp [closed]
  split
  · rename_i opened noBuffer
    simp [noBuffer]
  · rename_i opened buffer
    simp [Bool.not_eq_false _ ▸ opened, Bool.not_eq_false _ ▸ buffer, List.length_append,
      PacketFileHeader.encode_length]

/-- The storage has room, all its allocations succeed, and no write of the file fails
before `fclose`. -/
structure StoreAccepts (env : StoreEnv) (s : StorageFunction) (p : Pbuf) : Prop where
  room : s.storedPacketsCount < maxStoredPackets
  entry : env.entry = true
  fopen : env.save.fopen = true
  buffer : env.save.buffer = true
  data : ∃ copy stripped q, pbufClone env.copy p = some copy ∧
    dtnStripCustodianOption env.strip copy = .ok (stripped, q) ∧
    passedByFwrite (packetFileHeaderLen + q.totLen) ≤ env.save.taken

theorem storeAccepts_iff {text : AddrText} {env : StoreEnv} {s : StorageFunction} {p : Pbuf}
    {dest : Ip6Addr} :
    (∃ s', dtnStorageStorePacket text env s p dest = .ok (true, s')) ↔ StoreAccepts env s p := by
  constructor
  · rintro ⟨s', h⟩
    obtain ⟨hfalse, -⟩ | ⟨-, ⟨room, entry⟩, copy, stripped, q, disk, hcopy, hstrip, hsave, -⟩ :=
      store_cases h
    · cases hfalse
    obtain ⟨fopen, buffer, data⟩ := (save_iff ..).mp (congrArg Prod.fst hsave)
    exact ⟨room, entry, fopen, buffer, copy, stripped, q, hcopy, hstrip, data⟩
  · rintro ⟨room, entry, fopen, buffer, copy, stripped, q, hcopy, hstrip, data⟩
    have saved := (save_iff text env.save s.disk ⟨q, dest, env.now, []⟩).mpr ⟨fopen, buffer, data⟩
    have notFull : dtnStorageIsFull s = false := by simpa [dtnStorageIsFull] using room
    simp only [dtnStorageStorePacket, notFull, hcopy, hstrip, entry, saved, Run.bind_ok,
      Bool.false_eq_true, Bool.true_eq_false, if_false, if_true]
    exact ⟨_, rfl⟩

/-! File names. -/

theorem strrchr_of_notMem {c : Char} {s : List Char} (h : c ∉ s) : strrchr c s = none := by
  induction s with
  | nil => rfl
  | cons x s ih =>
      rw [List.mem_cons, not_or] at h
      rw [strrchr, ih h.2]
      exact if_neg fun hx => h.1 hx.symm

theorem strrchr_append {c : Char} (s t : List Char) (h : c ∉ t) :
    strrchr c (s ++ c :: t) = some (c :: t) := by
  induction s with
  | nil => simp [strrchr, strrchr_of_notMem h]
  | cons x s ih => simp [strrchr, ih]

theorem isPacketFile_name (text : AddrText) (dest : Ip6Addr) (time : UInt32) :
    isPacketFile (packetFileName text dest time) = true := by
  have hext : strrchr '.' (packetFileName text dest time) = some ".dat".toList :=
    strrchr_append _ "dat".toList (by decide)
  have hhead (x : Char) (l : List Char) (hx : 'p' ≠ x) : packetFileName text dest time ≠ x :: l :=
    fun h => hx (List.cons.inj h).1
  exact decide_eq_true ⟨hhead _ _ (by decide), hhead _ _ (by decide), hext⟩

theorem cut_first {α : Type} {c : α} {s s' t t' : List α} (h : c ∉ s) (h' : c ∉ s')
    (heq : s ++ c :: t = s' ++ c :: t') : s = s' ∧ t = t' := by
  induction s generalizing s' with
  | nil =>
      cases s' with
      | nil => exact ⟨rfl, (List.cons.inj heq).2⟩
      | cons x s' => exact absurd (List.cons.inj heq).1 fun hx => h' (by simp [hx])
  | cons x s ih =>
      rw [List.mem_cons, not_or] at h
      cases s' with
      | nil => exact absurd (List.cons.inj heq).1.symm h.1
      | cons y s' =>
          rw [List.mem_cons, not_or] at h'
          obtain ⟨rfl, ht⟩ := ih h.2 h'.2 (List.cons.inj heq).2
          exact ⟨by rw [(List.cons.inj heq).1], ht⟩

theorem cut_last {α : Type} {c : α} {s s' t t' : List α} (h : c ∉ t) (h' : c ∉ t')
    (heq : s ++ c :: t = s' ++ c :: t') : s = s' ∧ t = t' := by
  have hrev := congrArg List.reverse heq
  simp only [List.reverse_append, List.reverse_cons, List.append_assoc, List.singleton_append]
    at hrev
  obtain ⟨ht, hs⟩ := cut_first (by simpa using h) (by simpa using h') hrev
  exact ⟨List.reverse_injective hs, List.reverse_injective ht⟩

theorem underscored_injective {x y : List Char} (hx : '_' ∉ x) (hy : '_' ∉ y)
    (h : x.map (fun c => if c = ':' then '_' else c) = y.map fun c => if c = ':' then '_' else c) :
    x = y := by
  induction x generalizing y with
  | nil => exact (List.map_eq_nil_iff.mp h.symm).symm
  | cons a x ih =>
      cases y with
      | nil => cases h
      | cons b y =>
          simp only [List.map_cons, List.cons.injEq] at h
          rw [List.mem_cons, not_or] at hx hy
          have hab : a = b := by
            have := h.1
            split at this <;> split at this
            · rename_i ha hb; rw [ha, hb]
            · exact absurd this hy.1
            · exact absurd this.symm hx.1
            · exact this
          rw [hab, ih hx.2 hy.2 h.2]

/-- A file name determines the address and the time. -/
theorem packetFileName_injective {text : AddrText} {d d' : Ip6Addr} {t t' : UInt32}
    (h : packetFileName text d t = packetFileName text d' t') : d.addr = d'.addr ∧ t = t' := by
  have hbody := List.append_cancel_right h
  simp only [List.append_assoc] at hbody
  obtain ⟨htext, hdigits⟩ := cut_last Nat.underscore_not_in_toDigits
    Nat.underscore_not_in_toDigits (List.append_cancel_left hbody)
  refine ⟨text.injective d d' (underscored_injective (text.plain d) (text.plain d') htext), ?_⟩
  have hnum := congrArg (Nat.ofDigitChars 10 · 0) hdigits
  simp only [Nat.ofDigitChars_ten_toDigits] at hnum
  exact UInt32.toNat_inj.mp hnum

/-! Entries and their files. -/

/-- The file that a save writes for an entry. -/
def StoredPacketEntry.file (e : StoredPacketEntry) : FileName × Bytes :=
  (e.filename, e.header.encode ++ e.p.bytes)

/-- What is kept of a packet: its destination, its time and its bytes. -/
def StoredPacketEntry.content (e : StoredPacketEntry) : Ip6Addr × UInt32 × Bytes :=
  (e.originalDest, e.storedTimeMs, e.p.bytes)

def fileContent (f : FileName × Bytes) : Option (Ip6Addr × UInt32 × Bytes) :=
  (PacketFileHeader.decode f.2).map fun h =>
    (h.originalDest, h.timestamp, (f.2.drop packetFileHeaderLen).take h.packetLen.toNat)

theorem StoredPacketEntry.header_packetLen (e : StoredPacketEntry) :
    e.header.packetLen.toNat = e.p.totLen := by
  have := e.p.totLen_lt
  rw [StoredPacketEntry.header, UInt32.toNat_ofNat', Nat.mod_eq_of_lt (by omega)]

theorem StoredPacketEntry.file_data (e : StoredPacketEntry) :
    (e.file.2.drop packetFileHeaderLen).take e.header.packetLen.toNat = e.p.bytes := by
  rw [e.header_packetLen, StoredPacketEntry.file,
    List.drop_left' (PacketFileHeader.encode_length _),
    ← Pbuf.bytes_length, List.take_length]

theorem fileContent_file (e : StoredPacketEntry) : fileContent e.file = some e.content := by
  have hdecode : PacketFileHeader.decode e.file.2 = some e.header :=
    PacketFileHeader.decode_encode e.header e.p.bytes
  rw [fileContent, hdecode, Option.map_some, e.file_data]
  rfl

/-- Nothing fails while a file is loaded. -/
structure LoadEnv.Works (env : LoadEnv) : Prop where
  fopen : env.fopen = true
  buffer : env.buffer = true
  pbuf : env.pbuf.Roomy 65535
  entry : env.entry = true

theorem load_file {env : LoadEnv} (works : env.Works) (e : StoredPacketEntry) :
    ∃ e', dtnStorageLoadPacketFromFile env e.file.1 e.file.2 = some e' ∧ e'.file = e.file ∧
      e'.content = e.content ∧ e'.filename = e.filename := by
  have hdecode : PacketFileHeader.decode e.file.2 = some e.header :=
    PacketFileHeader.decode_encode e.header e.p.bytes
  have hlen := e.header_packetLen
  have hdata := e.file_data
  have hlt := e.p.totLen_lt
  have hmod : e.p.totLen % 65536 = e.p.totLen := Nat.mod_eq_of_lt hlt
  obtain ⟨block, behind, halloc⟩ := pbufAlloc_roomy works.pbuf e.p.totLen (by omega)
  have hbytes : e.p.bytes.length < 65536 := by rwa [Pbuf.bytes_length]
  refine ⟨⟨.single e.p.bytes behind hbytes, e.originalDest, e.storedTimeMs, e.filename⟩, ?_,
    ?_, ?_, rfl⟩
  · have htake : e.p.bytes.take e.p.totLen = e.p.bytes := by
      rw [← Pbuf.bytes_length, List.take_length]
    rw [hlen] at hdata
    simp only [dtnStorageLoadPacketFromFile, works.fopen, works.buffer, works.entry, hdecode,
      Option.bind_eq_bind, Option.bind_some, Option.pure_def, hlen, hdata, hmod, htake, halloc,
      guard,
      if_true, Pbuf.bytes_length]
    rfl
  · simp [StoredPacketEntry.file, StoredPacketEntry.header]
  · simp [StoredPacketEntry.content]

/-- The loader rebuilds every entry as long as there is room for all files. -/
theorem load_all {env : FileName → LoadEnv} (works : ∀ n, (env n).Works)
    (files : List (FileName × Bytes)) (s : StorageFunction)
    (packets : ∀ f ∈ files, isPacketFile f.1 = true ∧ ∃ e : StoredPacketEntry, f = e.file)
    (room : s.storedPacketsCount + files.length ≤ maxStoredPackets) :
    ∃ l, l.map StoredPacketEntry.file = files ∧
      dtnStorageLoadPacketsFromDisk env files s =
        { s with
          packetListHead := s.packetListHead ++ l
          storedPacketsCount := s.storedPacketsCount + files.length } := by
  induction files generalizing s with
  | nil => exact ⟨[], rfl, by simp [dtnStorageLoadPacketsFromDisk]⟩
  | cons f rest ih =>
      obtain ⟨hname, e, rfl⟩ := packets f (by simp)
      obtain ⟨e', hload, hfile, -, -⟩ := load_file (works e.file.1) e
      rw [List.length_cons] at room
      rw [dtnStorageLoadPacketsFromDisk, if_pos hname, hload]
      dsimp only
      split
      · rename_i full
        have hrest : rest = [] := by
          apply List.eq_nil_of_length_eq_zero
          simp only [StorageFunction.append, maxStoredPackets] at full room
          omega
        subst hrest
        exact ⟨[e'], by simp [hfile], rfl⟩
      · obtain ⟨l, hl, hrun⟩ := ih (s.append e') (fun f hf => packets f (by simp [hf])) (by
          simp only [StorageFunction.append]
          omega)
        refine ⟨e' :: l, by simp [hfile, hl], ?_⟩
        rw [hrun]
        simp only [StorageFunction.append, List.append_assoc, List.singleton_append,
          List.length_cons]
        congr 1
        omega

end LwipDtn
