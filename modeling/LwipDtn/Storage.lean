import LwipDtn.Custody
import LwipDtn.Library.BoundedFifo

/-!
`dtn_storage.c`: the list of stored packets and the files that mirror it.

The state is `Storage_Function` with the files of its directory. File names are
relative to the directory, whose own name is the same constant everywhere. What the
environment decides (allocations, file operations, the clock, the order in which a
directory is read) comes in as a parameter of each call.
-/

namespace LwipDtn
open Outcome Bytes BoundedFifo

def maxStoredPackets : Nat := 5

abbrev FileName := List Char

abbrev Disk := List (FileName × Bytes)

/-- `fopen(.., "wb")` replaces the file. -/
def Disk.write (disk : Disk) (name : FileName) (contents : Bytes) : Disk :=
  disk.filter (fun f => f.1 ≠ name) ++ [(name, contents)]

def Disk.remove (disk : Disk) (name : FileName) : Disk := disk.filter (fun f => f.1 ≠ name)

/-- `ip6addr_ntoa_r`: different addresses have different texts, and no text has the
character that replaces the colons. -/
structure AddrText where
  ntoa : Ip6Addr → List Char
  injective : ∀ a b, ntoa a = ntoa b → a.addr = b.addr
  plain : ∀ a, '_' ∉ ntoa a

/-- `lwip_xchar` -/
def xchar (n : Nat) : Char := Char.ofNat (if n < 10 then 48 + n else 55 + n)

/-- The text of an address whose blocks all have four digits. -/
def hexText : Bytes → List Char
  | [] => []
  | [a] => [xchar (a.toNat / 16), xchar (a.toNat % 16)]
  | [a, b] =>
      [xchar (a.toNat / 16), xchar (a.toNat % 16), xchar (b.toNat / 16), xchar (b.toNat % 16)]
  | a :: b :: c :: rest =>
      xchar (a.toNat / 16) :: xchar (a.toNat % 16) :: xchar (b.toNat / 16) ::
        xchar (b.toNat % 16) :: ':' :: hexText (c :: rest)

theorem xchar_injective {m n : Nat} (hm : m < 16) (hn : n < 16) (h : xchar m = xchar n) :
    m = n := by
  have key : ∀ i j : Fin 16, xchar i = xchar j → i = j := by decide
  exact Fin.mk.inj_iff.mp (key ⟨m, hm⟩ ⟨n, hn⟩ h)

theorem byte_of_digits {a b : UInt8} (hi : xchar (a.toNat / 16) = xchar (b.toNat / 16))
    (lo : xchar (a.toNat % 16) = xchar (b.toNat % 16)) : a = b := by
  have ha := a.toNat_lt
  have hb := b.toNat_lt
  have hd := xchar_injective (by omega) (by omega) hi
  have hm := xchar_injective (by omega) (by omega) lo
  apply UInt8.toNat_inj.mp
  omega

theorem hexText_injective {x y : Bytes} (hl : x.length = y.length) (h : hexText x = hexText y) :
    x = y := by
  induction x using hexText.induct generalizing y with
  | case1 => exact (List.eq_nil_of_length_eq_zero hl.symm).symm
  | case2 a =>
      match y, hl, h with
      | [a'], _, h =>
          simp only [hexText, List.cons.injEq] at h
          rw [byte_of_digits h.1 h.2.1]
  | case3 a b =>
      match y, hl, h with
      | [a', b'], _, h =>
          simp only [hexText, List.cons.injEq] at h
          rw [byte_of_digits h.1 h.2.1, byte_of_digits h.2.2.1 h.2.2.2.1]
  | case4 a b c rest ih =>
      match y, hl, h with
      | a' :: b' :: c' :: rest', hl, h =>
          simp only [hexText, List.cons.injEq] at h
          obtain ⟨h0, h1, h2, h3, -, h⟩ := h
          rw [byte_of_digits h0 h1, byte_of_digits h2 h3, ih (by simpa using hl) h]

theorem hexText_plain (x : Bytes) : '_' ∉ hexText x := by
  have digit (n : Nat) (hn : n < 16) : '_' ≠ xchar n := by
    have key : ∀ i : Fin 16, '_' ≠ xchar i := by decide
    exact key ⟨n, hn⟩
  have high (a : UInt8) : '_' ≠ xchar (a.toNat / 16) := digit _ (by have := a.toNat_lt; omega)
  have low (a : UInt8) : '_' ≠ xchar (a.toNat % 16) := digit _ (by omega)
  induction x using hexText.induct with
  | case1 => simp [hexText]
  | case2 a => simp [hexText, high, low]
  | case3 a b => simp [hexText, high, low]
  | case4 a b c rest ih => simp [hexText, high, low, ih]

def hexAddrText : AddrText where
  ntoa a := hexText a.addr.1
  injective a b h := Subtype.ext (hexText_injective (a.addr.2.trans b.addr.2.symm) h)
  plain a := hexText_plain a.addr.1

structure StoredPacketEntry where
  p : Pbuf
  originalDest : Ip6Addr
  storedTimeMs : UInt32
  filename : FileName

structure StorageFunction where
  storedPacketsCount : Nat
  maxStorageBytes : Nat
  packetListHead : List StoredPacketEntry
  disk : Disk

/-! The file of a packet: a header of 36 bytes and the packet. -/

structure PacketFileHeader where
  timestamp : UInt32
  packetLen : UInt32
  originalDest : Ip6Addr

def fileMagic : Bytes := [0x44, 0x54, 0x4E, 0x50]

def packetFileHeaderLen : Nat := 36

/-- The header in memory: magic, version 1, time, length, and the address with its
zone and three bytes of padding. -/
def PacketFileHeader.encode (h : PacketFileHeader) : Bytes :=
  fileMagic ++ le32 1 ++ le32 h.timestamp ++ le32 h.packetLen ++ h.originalDest.addr.1 ++
    h.originalDest.zone :: h.originalDest.padding.1

/-- `fread` of the header and the check of its magic; the version is not looked at. -/
def PacketFileHeader.decode (f : Bytes) : Option PacketFileHeader :=
  if h : packetFileHeaderLen ≤ f.length then
    if f.take 4 = fileMagic then
      some {
        timestamp := le32At f 8
        packetLen := le32At f 12
        originalDest := {
          addr := ⟨(f.drop 16).take 16, by
            rw [packetFileHeaderLen] at h
            simp only [List.length_take, List.length_drop]
            omega⟩
          zone := f.getD 32 0
          padding := ⟨(f.drop 33).take 3, by
            rw [packetFileHeaderLen] at h
            simp only [List.length_take, List.length_drop]
            omega⟩ } }
    else none
  else none

/-- `pkt_%s_%u.dat` with the colons of the address replaced. -/
def packetFileName (text : AddrText) (dest : Ip6Addr) (time : UInt32) : FileName :=
  "pkt_".toList ++ (text.ntoa dest).map (fun c => if c = ':' then '_' else c) ++ ['_'] ++
    Nat.toDigits 10 time.toNat ++ ".dat".toList

/-- The buffer that `stdio` keeps for the file. -/
def stdioBufferLen : Nat := 4096

/-- Of so many bytes `fwrite` passes on the full buffers; the rest waits for `fclose`. -/
def passedByFwrite (n : Nat) : Nat :=
  if n ≤ stdioBufferLen then 0 else n / stdioBufferLen * stdioBufferLen

/-- The results of a save: whether the file opens, whether there is memory for the packet,
and how many bytes the file takes before writing to it fails. -/
structure SaveEnv where
  fopen : Bool
  buffer : Bool
  taken : Nat

def StoredPacketEntry.header (entry : StoredPacketEntry) : PacketFileHeader :=
  ⟨entry.storedTimeMs, UInt32.ofNat entry.p.totLen, entry.originalDest⟩

def dtnStorageSavePacketToDisk (text : AddrText) (env : SaveEnv) (disk : Disk)
    (entry : StoredPacketEntry) : Bool × StoredPacketEntry × Disk :=
  let name := packetFileName text entry.originalDest entry.storedTimeMs
  let entry := { entry with filename := name }
  let header := entry.header.encode
  if env.fopen = false then (false, entry, disk)
  else if env.buffer = false then (false, entry, disk.write name (header.take env.taken))
  else
    let contents := header ++ entry.p.bytes
    -- what has not been passed on by then is written by `fclose`, whose result is ignored
    (decide (passedByFwrite contents.length ≤ env.taken), entry,
      disk.write name (contents.take env.taken))

/-- `remove` succeeds or not. -/
def dtnStorageRemovePacketFromDisk (removed : Bool) (disk : Disk) (name : FileName) : Disk :=
  if removed then disk.remove name else disk

/-! Loading at start-up. -/

structure LoadEnv where
  fopen : Bool
  buffer : Bool
  pbuf : Heap
  entry : Bool

theorem length_take_mod_lt (data : Bytes) (n : Nat) : (data.take (n % 65536)).length < 65536 :=
  Nat.lt_of_le_of_lt (List.length_take_le _ _) (Nat.mod_lt _ (by decide))

/-- Both `pbuf_alloc` and `pbuf_take` see the length as a `u16_t`. -/
def dtnStorageLoadPacketFromFile (env : LoadEnv) (name : FileName) (contents : Bytes) :
    Option StoredPacketEntry := do
  guard env.fopen
  let header ← PacketFileHeader.decode contents
  guard env.buffer
  let data := (contents.drop packetFileHeaderLen).take header.packetLen.toNat
  guard (data.length = header.packetLen.toNat)
  let (_, behind) ← pbufAlloc env.pbuf header.packetLen.toNat
  guard env.entry
  return {
    p := .single (data.take (header.packetLen.toNat % 65536)) behind (length_take_mod_lt _ _)
    originalDest := header.originalDest
    storedTimeMs := header.timestamp
    filename := name }

/-- `strrchr`: the part of the string from the last occurrence on. -/
def strrchr (c : Char) : List Char → Option (List Char)
  | [] => none
  | x :: s =>
      match strrchr c s with
      | some t => some t
      | none => if x = c then some (x :: s) else none

/-- The names that `readdir` returns and the loader looks at. -/
def isPacketFile (name : FileName) : Bool :=
  name ≠ ['.'] ∧ name ≠ ['.', '.'] ∧ strrchr '.' name = some ".dat".toList

def StorageFunction.append (s : StorageFunction) (entry : StoredPacketEntry) : StorageFunction :=
  { s with
    packetListHead := s.packetListHead ++ [entry]
    storedPacketsCount := s.storedPacketsCount + 1 }

def dtnStorageLoadPacketsFromDisk (env : FileName → LoadEnv) :
    List (FileName × Bytes) → StorageFunction → StorageFunction
  | [], s => s
  | (name, contents) :: rest, s =>
      if isPacketFile name then
        match dtnStorageLoadPacketFromFile (env name) name contents with
        | some entry =>
            if (s.append entry).storedPacketsCount ≥ maxStoredPackets then s.append entry
            else dtnStorageLoadPacketsFromDisk env rest (s.append entry)
        | none => dtnStorageLoadPacketsFromDisk env rest s
      else dtnStorageLoadPacketsFromDisk env rest s

/-- The directory as `readdir` lists it. -/
structure Listing (disk : Disk) where
  files : List (FileName × Bytes)
  perm : files.Perm disk

structure CreateEnv (disk : Disk) where
  storage : Bool
  directory : Bool
  opendir : Bool
  listing : Listing disk
  load : FileName → LoadEnv

def dtnStorageCreate {disk : Disk} (env : CreateEnv disk) : Option StorageFunction :=
  if env.storage = false then none
  else if env.directory = false then none
  else
    let s : StorageFunction := {
      storedPacketsCount := 0
      maxStorageBytes := 1024 * 1024
      packetListHead := []
      disk := disk }
    if env.opendir = false then some s
    else some (dtnStorageLoadPacketsFromDisk env.load env.listing.files s)

end LwipDtn
