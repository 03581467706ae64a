import LwipDtn.Library.Outcome
import Mathlib.Data.List.Basic

/-!
Writing text into a buffer of a given size, one character after the other. A writer gives
up when it has filled the last place, which is for the final zero; writing behind that
place is a fault. Nothing here knows what is written.
-/

namespace BoundedText
open Outcome

/-- What has been written so far is passed on, unless the writer gives up. -/
abbrev Writer := List Char → OptionT Run (List Char)

/-- `buf[i++] = c; if (i >= size) return NULL;` -/
def put (size : Nat) (c : Char) : Writer := fun text =>
  if text.length < size then
    if text.length + 1 < size then pure (text ++ [c]) else failure
  else OptionT.lift (throw .fault)

/-- `buf[i] = 0` -/
def terminate (size : Nat) : Writer := fun text =>
  if text.length < size then pure text else OptionT.lift (throw .fault)

theorem read_bind {α β : Type} (a : α) (f : α → OptionT Run β) :
    (liftM (Except.ok a : Run α) >>= f : OptionT Run β) = f a := rfl

/-- The writer adds the word if it fits, gives up if it does not, and never faults. -/
def Writes (size : Nat) (writer : Writer) (word : List Char) : Prop :=
  ∀ text, text.length < size →
    (writer text).run = .ok (if (text ++ word).length < size then some (text ++ word) else none)

variable {size : Nat} {f g : Writer} {v w : List Char}

theorem writes_nothing : Writes size pure [] := by
  intro text room
  rw [List.append_nil, if_pos room]
  rfl

theorem writes_put (c : Char) : Writes size (put size c) [c] := by
  intro text room
  rw [put, if_pos room, List.length_append, List.length_singleton]
  split
  · rfl
  · rfl

theorem writes_terminate : Writes size (terminate size) [] := by
  intro text room
  rw [terminate, if_pos room, List.append_nil, if_pos room]
  rfl

/-- One writer after the other. -/
theorem Writes.andThen (hf : Writes size f v) (hg : Writes size g w) :
    Writes size (fun text => f text >>= g) (v ++ w) := by
  intro text room
  rw [OptionT.run_bind, hf text room, ← List.append_assoc]
  by_cases hfits : (text ++ v).length < size
  · rw [if_pos hfits]
    exact hg _ hfits
  · rw [if_neg hfits, if_neg]
    · rfl
    · rw [List.length_append]
      omega

theorem Writes.run (h : Writes size f w) (room : 0 < size) :
    (f []).run = .ok (if w.length < size then some w else none) := h [] room

end BoundedText
