import Mathlib.Data.List.Forall2
import Mathlib.Data.List.Nodup
import LwipDtn.CustodyPaths
import LwipDtn.StorageDisk

/-!
The directory over whole runs. Files and entries stay in correspondence as long as
no packet is stored for a destination that already has an entry of the same
millisecond, and no allocation fails between the creation of a file and its last
write. The name is the only key of a file, so the second of two such packets
replaces the file of the first.
-/

namespace LwipDtn
open Outcome Bytes BoundedFifo

/-- The packet files of the directory are the entries of the list, one by one. -/
def Corresponds (s : StorageFunction) : Prop :=
  ∃ files, files.Perm (s.disk.filter fun f => isPacketFile f.1) ∧
    List.Forall₂ (fun f e => f.1 = e.filename ∧ fileContent f = some e.content) files
      s.packetListHead

/-- The invariant behind the correspondence. -/
structure Mirrors (text : AddrText) (s : StorageFunction) : Prop where
  valid : s.Valid
  files : s.disk.Perm (s.packetListHead.map StoredPacketEntry.file)
  named : ∀ e ∈ s.packetListHead, e.filename = packetFileName text e.originalDest e.storedTimeMs
  distinct : (s.packetListHead.map StoredPacketEntry.filename).Nodup

namespace Mirrors

variable {text : AddrText} {s s' : StorageFunction}

theorem isPacketFile_of_mem (h : Mirrors text s) {f : FileName × Bytes} (hf : f ∈ s.disk) :
    isPacketFile f.1 = true ∧ ∃ e ∈ s.packetListHead, f = e.file := by
  obtain ⟨e, he, rfl⟩ := List.mem_map.mp (h.files.mem_iff.mp hf)
  refine ⟨?_, e, he, rfl⟩
  rw [StoredPacketEntry.file, h.named e he]
  exact isPacketFile_name text e.originalDest e.storedTimeMs

theorem corresponds (h : Mirrors text s) : Corresponds s := by
  refine ⟨s.packetListHead.map StoredPacketEntry.file, ?_, ?_⟩
  · rw [List.filter_eq_self.mpr fun f hf => (h.isPacketFile_of_mem hf).1]
    exact h.files.symm
  · rw [List.forall₂_map_left_iff, List.forall₂_same]
    exact fun e _ => ⟨rfl, fileContent_file e⟩

theorem store {q : Pbuf} {dest : Ip6Addr} {now : UInt32} (h : Mirrors text s)
    (room : s.storedPacketsCount < maxStoredPackets)
    (fresh : ∀ e ∈ s.packetListHead, e.originalDest.addr = dest.addr → e.storedTimeMs ≠ now) :
    Mirrors text ({ s with
      disk := s.disk.write (packetFileName text dest now)
        ((newEntry text q dest now).header.encode ++ q.bytes) }.append
      (newEntry text q dest now)) := by
  have hnew : ∀ e ∈ s.packetListHead, e.filename ≠ packetFileName text dest now := by
    intro e he hname
    rw [h.named e he] at hname
    obtain ⟨haddr, htime⟩ := packetFileName_injective hname
    exact fresh e he haddr htime
  have hkeep : s.disk.filter (fun f => f.1 ≠ packetFileName text dest now) = s.disk := by
    rw [List.filter_eq_self]
    intro f hf
    obtain ⟨-, e, he, rfl⟩ := h.isPacketFile_of_mem hf
    exact decide_eq_true (hnew e he)
  have hvalid : { s with
      disk := s.disk.write (packetFileName text dest now)
        ((newEntry text q dest now).header.encode ++ q.bytes) }.Valid := h.valid.of_disk _
  refine ⟨hvalid.append room _, ?_, ?_, ?_⟩
  · rw [Disk.write, hkeep]
    simp only [StorageFunction.append, List.map_append]
    exact h.files.append (.refl _)
  · intro e he
    rcases List.mem_append.mp he with he | he
    · exact h.named e he
    · rw [List.mem_singleton.mp he]
      rfl
  · simp only [StorageFunction.append, List.map_append, List.map_cons, List.map_nil]
    refine List.nodup_append.mpr ⟨h.distinct, List.nodup_singleton _, ?_⟩
    intro a ha b hb
    obtain ⟨e, he, rfl⟩ := List.mem_map.mp ha
    rw [List.mem_singleton.mp hb]
    exact hnew e he

theorem unlinked (h : Mirrors text s) {P : StoredPacketEntry → Prop} {e : StoredPacketEntry}
    {rest : List StoredPacketEntry} (htake : TakesFirst P s.packetListHead e rest) :
    Mirrors text (s.unlinked true e rest) := by
  have hdistinct := (htake.perm.map StoredPacketEntry.filename).nodup_iff.mp h.distinct
  rw [List.map_cons, List.nodup_cons] at hdistinct
  refine ⟨h.valid.unlinked true htake.perm, ?_, fun x hx => h.named x (htake.sublist.subset hx),
    hdistinct.2⟩
  have hfilter : (s.packetListHead.map StoredPacketEntry.file).Perm
      (e.file :: rest.map StoredPacketEntry.file) := htake.perm.map _
  have hrest : (e.file :: rest.map StoredPacketEntry.file).filter (fun f => f.1 ≠ e.filename) =
      rest.map StoredPacketEntry.file := by
    rw [List.filter_cons_of_neg (by simp [StoredPacketEntry.file]), List.filter_eq_self]
    intro f hf
    obtain ⟨x, hx, rfl⟩ := List.mem_map.mp hf
    exact decide_eq_true fun hname =>
      hdistinct.1 (List.mem_map.mpr ⟨x, hx, hname⟩)
  simp only [StorageFunction.unlinked, dtnStorageRemovePacketFromDisk, if_true, Disk.remove]
  rw [← hrest]
  exact (h.files.trans hfilter).filter _

/-- A restart over the directory rebuilds the entries, up to their order. -/
theorem create (h : Mirrors text s) {env : CreateEnv s.disk} (opendir : env.opendir = true)
    (works : ∀ n, (env.load n).Works) (hcreate : dtnStorageCreate env = some s') :
    Mirrors text s' ∧ s'.disk = s.disk ∧
      (s'.packetListHead.map StoredPacketEntry.content).Perm
        (s.packetListHead.map StoredPacketEntry.content) := by
  have hperm := env.listing.perm
  have hpackets : ∀ f ∈ env.listing.files, isPacketFile f.1 = true ∧
      ∃ e : StoredPacketEntry, f = e.file := by
    intro f hf
    obtain ⟨hname, e, -, he⟩ := h.isPacketFile_of_mem (hperm.mem_iff.mp hf)
    exact ⟨hname, e, he⟩
  have hlength : env.listing.files.length ≤ maxStoredPackets := by
    have := (hperm.trans h.files).length_eq
    rw [List.length_map] at this
    exact this ▸ h.valid.bounded
  obtain ⟨l, hl, hload⟩ := load_all works env.listing.files ⟨0, 1024 * 1024, [], s.disk⟩ hpackets
    (by simpa using hlength)
  have hs' : s' = ⟨l.length, 1024 * 1024, l, s.disk⟩ := by
    rw [dtnStorageCreate] at hcreate
    split at hcreate
    · cases hcreate
    split at hcreate
    · cases hcreate
    have hcount : env.listing.files.length = l.length := by rw [← hl, List.length_map]
    simp only [opendir, Bool.true_eq_false, if_false, hload, hcount, List.nil_append, Nat.zero_add,
      Option.some.injEq] at hcreate
    exact hcreate.symm
  subst hs'
  have hfiles : (l.map StoredPacketEntry.file).Perm
      (s.packetListHead.map StoredPacketEntry.file) := by
    rw [hl]
    exact hperm.trans h.files
  have hcontent : (l.map StoredPacketEntry.content).Perm
      (s.packetListHead.map StoredPacketEntry.content) := by
    have hsome : fileContent ∘ StoredPacketEntry.file = some ∘ StoredPacketEntry.content :=
      funext fileContent_file
    have := hfiles.filterMap fileContent
    rwa [List.filterMap_map, List.filterMap_map, hsome, List.filterMap_eq_map] at this
  have hdistinct : (l.map StoredPacketEntry.filename).Nodup := by
    have := hfiles.map Prod.fst
    simp only [List.map_map] at this
    exact this.nodup_iff.mpr h.distinct
  refine ⟨⟨⟨rfl, ?_, rfl⟩, ?_, ?_, hdistinct⟩, rfl, hcontent⟩
  · rwa [← hl, List.length_map] at hlength
  · exact h.files.trans hfiles.symm
  · intro e he
    obtain ⟨e₀, he₀, hfile⟩ := List.mem_map.mp (hfiles.mem_iff.mp (List.mem_map_of_mem he))
    have hcontents : e₀.content = e.content := by
      rw [← Option.some.injEq, ← fileContent_file, ← fileContent_file, hfile]
    have hname : e₀.filename = e.filename := congrArg Prod.fst hfile
    obtain ⟨hdest, htime⟩ : e₀.originalDest = e.originalDest ∧ e₀.storedTimeMs = e.storedTimeMs :=
      ⟨congrArg Prod.fst hcontents, congrArg (fun c => c.2.1) hcontents⟩
    rw [← hname, h.named e₀ he₀, hdest, htime]

end Mirrors

/-! Runs with a clock, in which every file operation succeeds. -/

/-- The file opens, and all bytes of any packet reach it. -/
def SaveEnv.FilesWork (env : SaveEnv) : Prop :=
  env.fopen = true ∧ packetFileHeaderLen + 65535 ≤ env.taken

def StorageCall.FilesWork : StorageCall → Prop
  | .store env _ _ => env.save.FilesWork
  | .retrieve removed _ | .deleteByIpHeader removed _ | .deleteByIcmpData removed _ =>
      removed = true
  | .getCopy _ _ => True

def CreateEnv.FilesWork {disk : Disk} (env : CreateEnv disk) : Prop :=
  env.directory = true ∧ env.opendir = true ∧ ∀ n, (env.load n).fopen = true

def StorageCall.At (now : UInt32) : StorageCall → Prop
  | .store env _ _ => env.now = now
  | _ => True

/-- A condition on the steps of a run: on a call in the state before it, and on a
start over a directory. -/
structure StepCondition where
  call : StorageFunction → StorageCall → Prop
  create : ∀ {disk : Disk}, CreateEnv disk → Prop

def anyStep : StepCondition := ⟨fun _ _ => True, fun _ => True⟩

/-- No entry for the same address has the time of the packet that is stored, and the
allocations after the creation of a file and during a load succeed. -/
def filesKeptApart : StepCondition where
  call s c :=
    match c with
    | .store env _ dest => dtnStorageIsFull s = false → env.save.buffer = true ∧
        ∀ e ∈ s.packetListHead, e.originalDest.addr = dest.addr → e.storedTimeMs ≠ env.now
    | _ => True
  create env := ∀ n, (env.load n).buffer = true ∧ (env.load n).pbuf.Roomy 65535 ∧
    (env.load n).entry = true

/-- The states of the storage, with the clock, in the runs that start over an empty
directory and whose steps meet a condition. -/
inductive StorageRun (text : AddrText) (meets : StepCondition) : UInt32 → StorageFunction → Prop
  | start (env : CreateEnv []) {s : StorageFunction} {now : UInt32} (files : env.FilesWork)
      (step : meets.create env) (h : dtnStorageCreate env = some s) : StorageRun text meets now s
  | call (c : StorageCall) {s s' : StorageFunction} {now now' : UInt32}
      (before : StorageRun text meets now s) (later : now ≤ now') (clock : c.At now')
      (files : c.FilesWork) (step : meets.call s c) (h : c.run text s = .ok s') :
      StorageRun text meets now' s'
  | restart {s s' : StorageFunction} (env : CreateEnv s.disk) {now now' : UInt32}
      (before : StorageRun text meets now s) (later : now ≤ now') (files : env.FilesWork)
      (step : meets.create env) (h : dtnStorageCreate env = some s') :
      StorageRun text meets now' s'

theorem save_works (text : AddrText) {env : SaveEnv} (files : env.FilesWork)
    (buffer : env.buffer = true) (disk : Disk) (e : StoredPacketEntry) :
    (dtnStorageSavePacketToDisk text env disk e).1 = true := by
  obtain ⟨hopen, htaken⟩ := files
  have hlen := e.p.totLen_lt
  have hpassed := passedByFwrite_le (packetFileHeaderLen + e.p.totLen)
  exact (save_iff text env disk e).mpr ⟨hopen, buffer, by omega⟩

theorem loadEnv_works {disk : Disk} {env : CreateEnv disk} (files : env.FilesWork)
    (step : filesKeptApart.create env) (n : FileName) : (env.load n).Works :=
  ⟨files.2.2 n, (step n).1, (step n).2.1, (step n).2.2⟩

theorem Mirrors.call {text : AddrText} {s s' : StorageFunction} {c : StorageCall}
    (h : Mirrors text s) (files : c.FilesWork) (step : filesKeptApart.call s c)
    (hrun : c.run text s = .ok s') : Mirrors text s' := by
  cases c with
  | store env p dest =>
      obtain ⟨⟨r, t⟩, hstore, ht⟩ := Run.bind_eq_ok.mp hrun
      cases ht
      obtain ⟨-, rfl | ⟨room, q, entry, disk, hsave, rfl⟩⟩ |
        ⟨-, ⟨room, -⟩, copy, stripped, q, disk, -, -, hsave, rfl⟩ := store_cases hstore
      · exact h
      all_goals
        obtain ⟨buffer, fresh⟩ := step (by simpa [dtnStorageIsFull] using room)
      · have := save_works text files buffer s.disk ⟨q, dest, env.now, []⟩
        rw [hsave] at this
        cases this
      · have hlen := q.totLen_lt
        have htaken := files.2
        rw [(save_cases hsave).2 rfl, List.take_of_length_le]
        · exact h.store room fresh
        · rw [List.length_append, PacketFileHeader.encode_length, Pbuf.bytes_length]
          omega
  | retrieve removed dest =>
      cases files
      obtain ⟨⟨r, t⟩, hremove, ht⟩ := Run.bind_eq_ok.mp hrun
      cases ht
      obtain ⟨-, rfl, -⟩ | ⟨e, rest, -, rfl, htake⟩ := removeFirst_cases hremove
      · exact h
      · exact h.unlinked htake
  | getCopy env dest =>
      cases hrun
      exact h
  | deleteByIpHeader removed hdr =>
      cases files
      obtain rfl | ⟨e, rest, rfl, htake⟩ := deleteByIpHeader_cases hrun
      · exact h
      · exact h.unlinked htake
  | deleteByIcmpData removed icmp =>
      cases files
      obtain rfl | ⟨e, rest, rfl, -, htake⟩ := deleteByIcmpData_cases hrun
      · exact h
      · exact h.unlinked htake

theorem mirrors_empty (text : AddrText) : Mirrors text emptyStorage :=
  ⟨⟨rfl, Nat.zero_le _, rfl⟩, .nil, by simp [emptyStorage], by simp [emptyStorage]⟩

theorem StorageRun.mirrors {text : AddrText} {now : UInt32} {s : StorageFunction}
    (h : StorageRun text filesKeptApart now s) : Mirrors text s := by
  induction h with
  | start env files step h =>
      have hempty : Mirrors text emptyStorage := mirrors_empty text
      exact (hempty.create files.2.1 (loadEnv_works files step) h).1
  | call c _ _ _ files step h ih => exact ih.call files step h
  | restart env _ _ files step h ih => exact (ih.create files.2.1 (loadEnv_works files step) h).1

/-- Disk and memory agree in every run that keeps the files apart, and a restart
restores the same packets. -/
theorem disk_mirrors_list (text : AddrText) (now : UInt32) (s : StorageFunction)
    (h : StorageRun text filesKeptApart now s) :
    Corresponds s ∧ ∀ (env : CreateEnv s.disk) (s' : StorageFunction), env.FilesWork →
      filesKeptApart.create env → dtnStorageCreate env = some s' →
      (s'.packetListHead.map StoredPacketEntry.content).Perm
        (s.packetListHead.map StoredPacketEntry.content) :=
  ⟨h.mirrors.corresponds, fun _ _ files step hcreate =>
    (h.mirrors.create files.2.1 (loadEnv_works files step) hcreate).2.2⟩

def storeSample (now : UInt32) : StorageCall :=
  .store (calmEnv now) (.single samplePacket [] (by decide)) farAddr

theorem calmEnv_filesWork (now : UInt32) : (calmEnv now).save.FilesWork :=
  ⟨rfl, Nat.le_refl _⟩

theorem corresponds_length {s : StorageFunction} (h : Corresponds s) :
    (s.disk.filter fun f => isPacketFile f.1).length = s.packetListHead.length := by
  obtain ⟨files, hperm, hall⟩ := h
  rw [← hperm.length_eq, hall.length_eq]

set_option maxRecDepth 8000 in
/-- Two packets for one destination in one millisecond share a file. -/
theorem second_file_replaces_first :
    ∃ s, StorageRun hexAddrText anyStep 7 s ∧ ¬ Corresponds s := by
  have hstart : StorageRun hexAddrText anyStep 7 emptyStorage :=
    .start emptyEnv ⟨rfl, rfl, fun _ => rfl⟩ trivial rfl
  have hfirst := hstart.call (storeSample 7) (Nat.le_refl _) rfl (calmEnv_filesWork 7) trivial rfl
  have hsecond := hfirst.call (storeSample 7) (Nat.le_refl _) rfl (calmEnv_filesWork 7) trivial rfl
  refine ⟨_, hsecond, fun h => ?_⟩
  exact absurd (corresponds_length h) (by decide)

set_option maxRecDepth 8000 in
/-- One millisecond later the second packet has a file of its own. -/
theorem disk_mirrors_list_apart :
    ∃ s, StorageRun hexAddrText filesKeptApart 8 s ∧ Corresponds s := by
  have hstart : StorageRun hexAddrText filesKeptApart 7 emptyStorage :=
    .start emptyEnv ⟨rfl, rfl, fun _ => rfl⟩
      (fun _ => ⟨rfl, ⟨_, rfl, Nat.le_of_eq List.length_replicate.symm⟩, rfl⟩) rfl
  have hfirst := hstart.call (storeSample 7) (Nat.le_refl _) rfl (calmEnv_filesWork 7)
    (fun _ => ⟨rfl, by simp [emptyStorage]⟩) rfl
  have htimes := show ∀ e ∈ ((storeSample 7).run hexAddrText emptyStorage).toOption.getD
      emptyStorage |>.packetListHead, e.storedTimeMs ≠ 8 by decide +kernel
  have hsecond := hfirst.call (storeSample 8) (by decide) rfl (calmEnv_filesWork 8)
    (fun _ => ⟨rfl, fun e he _ => htimes e he⟩) rfl
  exact ⟨_, hsecond, (disk_mirrors_list hexAddrText 8 _ hsecond).1⟩

end LwipDtn
