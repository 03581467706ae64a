import LwipDtn.Library.FirstFit
import LwipDtn.Library.Outcome
import Mathlib.Logic.Function.Basic

/-!
`mem.c`: the heap of lwIP, from which every buffer of type `PBUF_RAM` comes. A place in the
heap is its offset in `ram`. The headers are kept apart from the contents of the blocks:
they are what `mem_init`, `mem_malloc` and `mem_free` read and write.
-/

namespace LwipDtn
open Outcome FirstFit Function

def memAlignment : Nat := 4
def memSizeAligned : Nat := 32768
def minSizeAligned : Nat := 12
def sizeofStructMem : Nat := 8

/-- `LWIP_MEM_ALIGN_SIZE` -/
def memAlignSize (size : Nat) : Nat := (size + 3) / 4 * 4

/-- `struct mem` -/
structure Mem where
  next : Nat
  prev : Nat
  used : Bool

structure RamHeap where
  ram : Nat → Mem
  lfree : Nat

/-- Only the first header and the one at `ram_end` are written. -/
def memInit (old : Nat → Mem) : RamHeap where
  ram := update (update old 0 ⟨memSizeAligned, 0, false⟩) memSizeAligned
    ⟨memSizeAligned, memSizeAligned, true⟩
  lfree := 0

/-- `mem->next - (ptr + SIZEOF_STRUCT_MEM)`, a difference of type `size_t`. -/
def userSize (mem : Mem) (ptr : Nat) : Nat :=
  (2 ^ 64 + mem.next - (ptr + sizeofStructMem)) % 2 ^ 64

/-- `if (next != MEM_SIZE_ALIGNED) ptr_to_mem(next)->prev = ptr` -/
def relink (ram : Nat → Mem) (next ptr : Nat) : Nat → Mem :=
  if next ≠ memSizeAligned then update ram next { ram next with prev := ptr } else ram

/-- The search of `mem_malloc`. -/
def memScan : Nat → (Nat → Mem) → Nat → Nat → Run (Option Nat)
  | 0, _, _, _ => .error .hang
  | fuel + 1, ram, size, ptr =>
      if ptr < memSizeAligned - size then
        if (ram ptr).used = false ∧ size ≤ userSize (ram ptr) ptr then .ok (some ptr)
        else memScan fuel ram size (ram ptr).next
      else .ok none

/-- The header of a block that is given out, and of what is left of it. -/
def takeBlock (ram : Nat → Mem) (size ptr : Nat) : Nat → Mem :=
  let mem := ram ptr
  if size + sizeofStructMem + minSizeAligned ≤ userSize mem ptr then
    let ptr2 := (ptr + sizeofStructMem + size) % 65536
    let ram := update ram ptr2 ⟨mem.next, ptr, false⟩
    let ram := update ram ptr ⟨ptr2, mem.prev, true⟩
    relink ram mem.next ptr2
  else update ram ptr { mem with used := true }

/-- The loop that looks for the next free block. -/
def nextFree : Nat → (Nat → Mem) → Nat → Run Nat
  | 0, _, _ => .error .hang
  | fuel + 1, ram, cur =>
      if (ram cur).used = true ∧ cur ≠ memSizeAligned then nextFree fuel ram (ram cur).next
      else .ok cur

def adjustLfree (ram : Nat → Mem) (lfree mem : Nat) : Run Nat :=
  if mem = lfree then nextFree (memSizeAligned + 1) ram lfree else .ok lfree

/-- The size of the block that is looked for. The argument and the sum are `mem_size_t`. -/
def blockSize (sizeIn : Nat) : Nat :=
  let size := memAlignSize sizeIn % 65536
  if size < minSizeAligned then minSizeAligned else size

def memMalloc (h : RamHeap) (sizeIn : Nat) : Run (Option Nat × RamHeap) :=
  if sizeIn = 0 then .ok (none, h)
  else if memSizeAligned < blockSize sizeIn ∨ blockSize sizeIn < sizeIn then .ok (none, h)
  else do
    match ← memScan (memSizeAligned + 1) h.ram (blockSize sizeIn) h.lfree with
    | none => return (none, h)
    | some mem =>
        let ram := takeBlock h.ram (blockSize sizeIn) mem
        let lfree ← adjustLfree ram h.lfree mem
        return (some (mem + sizeofStructMem), ⟨ram, lfree⟩)

/-- Two neighbouring blocks become one. -/
def RamHeap.combine (h : RamHeap) (mem nmem : Nat) : RamHeap where
  ram := relink (update h.ram mem { h.ram mem with next := (h.ram nmem).next })
    (h.ram nmem).next mem
  lfree := if h.lfree = nmem then mem else h.lfree

def plugNext (h : RamHeap) (mem : Nat) : RamHeap :=
  let nmem := (h.ram mem).next
  if mem ≠ nmem ∧ (h.ram nmem).used = false ∧ nmem ≠ memSizeAligned then h.combine mem nmem else h

def plugPrev (h : RamHeap) (mem : Nat) : RamHeap :=
  let pmem := (h.ram mem).prev
  if pmem ≠ mem ∧ (h.ram pmem).used = false then h.combine pmem mem else h

def plugHoles (h : RamHeap) (mem : Nat) : RamHeap := plugPrev (plugNext h mem) mem

def memLinkValid (ram : Nat → Mem) (mem : Nat) : Bool :=
  let next := (ram mem).next
  let prev := (ram mem).prev
  !(memSizeAligned < next || memSizeAligned < prev || (prev ≠ mem && (ram prev).next ≠ mem) ||
    (next ≠ memSizeAligned && (ram next).prev ≠ mem))

/-- A pointer that fails one of the checks is ignored. -/
def memFree (h : RamHeap) (rmem : Nat) : RamHeap :=
  if rmem % memAlignment ≠ 0 then h
  else if rmem < sizeofStructMem ∨ memSizeAligned < rmem + minSizeAligned then h
  else
    let mem := rmem - sizeofStructMem
    if (h.ram mem).used = false then h
    else if memLinkValid h.ram mem = false then h
    else plugHoles {
      ram := update h.ram mem { h.ram mem with used := false }
      lfree := if mem < h.lfree then mem else h.lfree } mem

end LwipDtn
