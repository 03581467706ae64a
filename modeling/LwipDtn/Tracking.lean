import LwipDtn.StorageCalls

/-!
The retry table of the controller. A slot holds a destination, the time of the last
attempt and the number of attempts. Once a destination has used up its attempts, the
first packet stored for it is deleted and the slot is released.
-/

namespace LwipDtn
open Outcome Bytes BoundedFifo

def maxDestinations : Nat := 10
def forwardingRetryDelayMs : UInt32 := 30000
def maxForwardingRetries : Nat := 10

structure ForwardingAttempt where
  destination : Ip6Addr
  lastAttemptTime : UInt32
  retryCount : Nat
  isValid : Bool

/-- A node: its storage and the retry table of its controller. -/
structure Node where
  storage : StorageFunction
  attempts : List ForwardingAttempt

deriving instance DecidableEq for Pbuf, StoredPacketEntry, StorageFunction, ForwardingAttempt, Node

def emptyAttempt : ForwardingAttempt := ⟨⟨⟨List.replicate 16 0, rfl⟩, 0, noPadding⟩, 0, 0, false⟩

def dtnControllerCreate : List ForwardingAttempt := List.replicate maxDestinations emptyAttempt

def trackedSlot (attempts : List ForwardingAttempt) (dest : Ip6Addr) : Option Nat :=
  attempts.findIdx? fun a => a.isValid && dest.eqNoZone a.destination

def freeSlot (attempts : List ForwardingAttempt) : Option Nat :=
  attempts.findIdx? fun a => !a.isValid

def invalidate (attempts : List ForwardingAttempt) (i : Nat) : List ForwardingAttempt :=
  attempts.modify i fun a => { a with isValid := false }

def dtnControllerRemoveTracking (attempts : List ForwardingAttempt) (dest : Ip6Addr) :
    List ForwardingAttempt :=
  match trackedSlot attempts dest with
  | some i => invalidate attempts i
  | none => attempts

structure AttemptEnv where
  now : UInt32
  removed : Bool

def shouldAttemptForward (env : AttemptEnv) (node : Node) (dest : Ip6Addr) :
    Run (Bool × Node) := do
  match trackedSlot node.attempts dest with
  | some i =>
      let a := node.attempts.getD i emptyAttempt
      if forwardingRetryDelayMs ≤ env.now - a.lastAttemptTime then
        if maxForwardingRetries ≤ a.retryCount then
          let (_, storage) ← dtnStorageRetrievePacketForDest env.removed node.storage dest
          return (false, ⟨storage, invalidate node.attempts i⟩)
        else
          let a := { a with lastAttemptTime := env.now, retryCount := a.retryCount + 1 }
          return (true, { node with attempts := node.attempts.set i a })
      else return (false, node)
  | none =>
      match freeSlot node.attempts with
      | some i =>
          return (true, { node with attempts := node.attempts.set i ⟨dest, env.now, 1, true⟩ })
      | none => return (true, node)

end LwipDtn
